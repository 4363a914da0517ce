/-
# Lists and tables

Facts on lists that the development needs in more than one place: elements related one
by one, positions kept by a filter, segments of a line, sums over sections, and loops
that update one entry of a table at a time.
-/

import Carmel.Math.Instances

/-! ## Lists related element by element -/

namespace Carmel.Math

theorem map_eq_map_of_forall₂ {α β γ : Type*} {R : α → β → Prop} {f : α → γ} {g : β → γ}
    (hR : ∀ a b, R a b → f a = g b) {as : List α} {bs : List β} (h : List.Forall₂ R as bs) :
    as.map f = bs.map g := by
  induction h with
  | nil => rfl
  | cons hab _ ih => rw [List.map_cons, List.map_cons, hR _ _ hab, ih]

theorem forall₂_getElem? {α β : Type*} {R : α → β → Prop} {as : List α} {bs : List β}
    (h : List.Forall₂ R as bs) {i : ℕ} {a : α} (ha : as[i]? = some a) :
    ∃ b, bs[i]? = some b ∧ R a b := by
  obtain ⟨hi, rfl⟩ := List.getElem?_eq_some_iff.mp ha
  have hi' : i < bs.length := h.length_eq ▸ hi
  exact ⟨bs[i], List.getElem?_eq_getElem hi', h.get hi hi'⟩

theorem forall₂_getElem?_back {α β : Type*} {R : α → β → Prop} {as : List α} {bs : List β}
    (h : List.Forall₂ R as bs) {i : ℕ} {b : β} (hb : bs[i]? = some b) :
    ∃ a, as[i]? = some a ∧ R a b :=
  forall₂_getElem? h.flip hb

theorem forall₂_getElem?_toList {α β : Type*} {R : α → β → Prop} {as : List α} {bs : List β}
    (h : List.Forall₂ R as bs) (i : ℕ) : List.Forall₂ R as[i]?.toList bs[i]?.toList := by
  cases ha : as[i]? with
  | none =>
    have hb : bs[i]? = none := by
      rw [List.getElem?_eq_none_iff] at ha ⊢
      exact h.length_eq ▸ ha
    rw [hb]
    exact .nil
  | some a =>
    obtain ⟨b, hb, hab⟩ := forall₂_getElem? h ha
    rw [hb]
    exact .cons hab .nil

theorem forall₂_set {α β : Type*} {R : α → β → Prop} {as : List α} {bs : List β}
    (h : List.Forall₂ R as bs) (i : ℕ) {a : α} {b : β} (hab : R a b) :
    List.Forall₂ R (as.set i a) (bs.set i b) := by
  induction h generalizing i with
  | nil => exact .nil
  | cons hhead htail ih =>
    cases i with
    | zero => exact .cons hab htail
    | succ i => exact .cons hhead (ih i)

end Carmel.Math

/-!
## Positions through `filterMap`

Positions of kept elements and positions of the result are in one-to-one correspondence.
-/

namespace Carmel.Math

universe u v

variable {α : Type u} {β : Type v} {f : α → Option β} {l : List α} {p p' q : ℕ} {a a' : α} {b b' : β}

/-- Where the element at `p` stands in `l.filterMap f`, if it is kept. -/
def newPos (f : α → Option β) (l : List α) (p : ℕ) : ℕ := ((l.take p).filterMap f).length

@[simp] theorem newPos_zero : newPos f l 0 = 0 := by simp [newPos]

theorem newPos_cons_succ_of_none (h : f a = none) : newPos f (a :: l) (p + 1) = newPos f l p := by
  simp [newPos, h]

theorem newPos_cons_succ_of_some (h : f a = some b) :
    newPos f (a :: l) (p + 1) = newPos f l p + 1 := by
  simp [newPos, h]

theorem filterMap_getElem?_newPos (ha : l[p]? = some a) (hb : f a = some b) :
    (l.filterMap f)[newPos f l p]? = some b := by
  induction l generalizing p with
  | nil => simp at ha
  | cons c l ih =>
    cases p with
    | zero =>
      obtain rfl : c = a := by simpa using ha
      simp [hb]
    | succ p =>
      have ha' : l[p]? = some a := by simpa using ha
      cases hc : f c with
      | none => rw [newPos_cons_succ_of_none hc, List.filterMap_cons_none hc, ih ha']
      | some d =>
        rw [newPos_cons_succ_of_some hc, List.filterMap_cons_some hc,
          List.getElem?_cons_succ, ih ha']

theorem exists_newPos (h : (l.filterMap f)[q]? = some b) :
    ∃ p a, l[p]? = some a ∧ f a = some b ∧ newPos f l p = q := by
  induction l generalizing q with
  | nil => simp at h
  | cons c l ih =>
    cases hc : f c with
    | none =>
      rw [List.filterMap_cons_none hc] at h
      obtain ⟨p, a, ha, hb, hq⟩ := ih h
      exact ⟨p + 1, a, by simpa using ha, hb, by rw [newPos_cons_succ_of_none hc, hq]⟩
    | some d =>
      rw [List.filterMap_cons_some hc] at h
      cases q with
      | zero =>
        obtain rfl : d = b := by simpa using h
        exact ⟨0, c, rfl, hc, newPos_zero⟩
      | succ q =>
        obtain ⟨p, a, ha, hb, hq⟩ := ih (by simpa using h)
        exact ⟨p + 1, a, by simpa using ha, hb, by rw [newPos_cons_succ_of_some hc, hq]⟩

theorem newPos_injective (ha : l[p]? = some a) (ha' : l[p']? = some a') (hb : f a = some b)
    (hb' : f a' = some b') (h : newPos f l p = newPos f l p') : p = p' := by
  induction l generalizing p p' with
  | nil => simp at ha
  | cons c l ih =>
    cases p with
    | zero =>
      cases p' with
      | zero => rfl
      | succ p' =>
        obtain rfl : c = a := by simpa using ha
        rw [newPos_cons_succ_of_some hb, newPos_zero] at h
        exact absurd h (Nat.zero_ne_add_one _)
    | succ p =>
      cases p' with
      | zero =>
        obtain rfl : c = a' := by simpa using ha'
        rw [newPos_cons_succ_of_some hb', newPos_zero] at h
        exact absurd h (Nat.succ_ne_zero _)
      | succ p' =>
        refine congrArg (· + 1) (ih (by simpa using ha) (by simpa using ha') ?_)
        cases hc : f c with
        | none => rwa [newPos_cons_succ_of_none hc, newPos_cons_succ_of_none hc] at h
        | some d =>
          rw [newPos_cons_succ_of_some hc, newPos_cons_succ_of_some hc] at h
          exact Nat.succ.inj h

end Carmel.Math

/-!
## Segments of a line

The segment of a point is found by searching the endpoints for the first that is greater.
-/

namespace Carmel.Math

universe u

section Prefix

variable {α : Type u} {p : α → Bool}

theorem length_takeWhile_eq {n : ℕ} {l : List α} (hbefore : ∀ i < n, ∃ a, l[i]? = some a ∧ p a = true)
    {a : α} (hget : l[n]? = some a) (hpa : p a = false) : (l.takeWhile p).length = n := by
  induction n generalizing l with
  | zero =>
    obtain ⟨rest, rfl⟩ := List.head?_eq_some_iff.mp (List.head?_eq_getElem?.trans hget)
    rw [List.takeWhile_cons_of_neg (by simp [hpa]), List.length_nil]
  | succ n ih =>
    cases l with
    | nil => cases hget
    | cons b l =>
      obtain ⟨b', hb, hpb⟩ := hbefore 0 (Nat.succ_pos n)
      obtain rfl := Option.some.inj hb
      rw [List.takeWhile_cons_of_pos hpb, List.length_cons]
      exact congrArg (· + 1) (ih (fun i hi => hbefore (i + 1) (Nat.succ_lt_succ hi)) hget)

end Prefix

namespace Segments

variable {X : Type u} [AddCommMonoid X] [LinearOrder X]

/-- `set_start`. -/
def setStart (x : X) : List X := [x]

/-- `add_delta`: a segment of the length `dx`. -/
def addDelta (b : List X) (dx : X) : List X :=
  b ++ [match b.getLast? with
    | none => dx
    | some e => dx + e]

/-- `segid`: where the first endpoint greater than the point is. -/
def segid (b : List X) (x : X) : ℕ := (b.takeWhile (· ≤ x)).length

/-- `segid0based`. -/
def segid0based (b : List X) (x : X) : ℕ := segid b x - 1

/-- The endpoints of segments with given lengths. -/
def endpoints (start : X) (lengths : List X) : List X := lengths.foldl addDelta (setStart start)

variable {start x : X} {lengths : List X} {i : ℕ}

omit [LinearOrder X] in
theorem endpoints_eq (start : X) (lengths : List X) :
    endpoints start lengths =
      (List.range (lengths.length + 1)).map fun i => start + (lengths.take i).sum := by
  induction lengths using List.reverseRecOn with
  | nil => simp [endpoints, setStart]
  | append_singleton lengths d ih =>
    have hlast : (endpoints start lengths).getLast? = some (start + lengths.sum) := by
      rw [ih, List.range_succ, List.map_append, List.map_singleton, List.getLast?_concat,
        List.take_length]
    have hnew : d + (start + lengths.sum) = start + (lengths ++ [d]).sum := by
      rw [List.sum_append, List.sum_singleton, add_left_comm, add_comm d]
    have hstep : endpoints start (lengths ++ [d]) =
        endpoints start lengths ++ [start + (lengths ++ [d]).sum] := by
      rw [endpoints, List.foldl_append, List.foldl_cons, List.foldl_nil, ← endpoints, addDelta, hlast]
      exact congrArg (fun e => endpoints start lengths ++ [e]) hnew
    rw [hstep, ih, List.length_append, List.length_singleton, List.range_succ (n := lengths.length + 1),
      List.map_append, List.map_singleton]
    congr 1
    · apply List.map_congr_left
      intro i hi
      rw [List.take_append_of_le_length (Nat.lt_succ_iff.mp (List.mem_range.mp hi))]
    · rw [List.take_of_length_le]
      simp

/-- **The segment of a point**, which no empty segment is. -/
theorem segid0based_endpoints [CanonicallyOrderedAdd X] (hi : i < lengths.length)
    (hle : start + (lengths.take i).sum ≤ x) (hlt : x < start + (lengths.take (i + 1)).sum) :
    segid0based (endpoints start lengths) x = i := by
  have hget {j : ℕ} (hj : j ≤ lengths.length) :
      (endpoints start lengths)[j]? = some (start + (lengths.take j).sum) := by
    rw [endpoints_eq, List.getElem?_map, List.getElem?_range (Nat.lt_succ_of_le hj)]
    rfl
  have hlength : segid (endpoints start lengths) x = i + 1 := by
    apply length_takeWhile_eq _ (hget hi)
    · simpa using hlt
    · intro j hj
      have hji : j ≤ i := Nat.lt_succ_iff.mp hj
      have hsum : (lengths.take j).sum ≤ (lengths.take i).sum := by
        obtain ⟨k, rfl⟩ := Nat.exists_eq_add_of_le hji
        rw [List.take_add, List.sum_append]
        exact le_self_add
      refine ⟨_, hget (hji.trans hi.le), ?_⟩
      simpa using (add_le_add_right hsum start).trans hle
  rw [segid0based, hlength, Nat.add_sub_cancel]

end Segments

end Carmel.Math

/-!
## Sums over sections

A section of a list of lists chooses one element from each.
-/

namespace Carmel.Math

universe u v

variable {α : Type u} {R : Type v}

/-- The sections of a list of lists, by the choice from the first one. -/
theorem sum_sections_cons [AddCommMonoid R] (F : List α → R) (l : List α) (L : List (List α)) :
    (((l :: L).sections).map F).sum =
      (L.sections.map fun s => (l.map fun a => F (a :: s)).sum).sum := by
  rw [List.sections]
  induction L.sections with
  | nil => rfl
  | cons s sections ih =>
    rw [List.flatMap_cons, List.map_append, List.sum_append, ih, List.map_cons, List.sum_cons,
      List.map_map]
    rfl

section Product

variable [CommSemiring R] (g : α → R)

theorem sum_prod_sections (L : List (List α)) :
    (L.sections.map fun s => (s.map g).prod).sum = (L.map fun l => (l.map g).sum).prod := by
  induction L with
  | nil => simp
  | cons l L ih =>
    rw [sum_sections_cons, List.map_cons, List.prod_cons, ← ih, ← List.sum_map_mul_left]
    congr 1
    apply List.map_congr_left
    intro s _
    simp only [List.map_cons, List.prod_cons]
    rw [List.sum_map_mul_right]

end Product

section Uses

variable [Field R] (g used : α → R)

/-- What the chosen elements use, weighted with the product of all, when no list
has the weight zero. -/
theorem sum_uses_sections {L : List (List α)} (hne : ∀ l ∈ L, (l.map g).sum ≠ 0) :
    (L.sections.map fun s => (s.map g).prod * (s.map used).sum).sum =
      (L.map fun l => (l.map g).sum).prod *
        (L.map fun l => (l.map fun a => g a * used a).sum / (l.map g).sum).sum := by
  induction L with
  | nil => simp
  | cons l L ih =>
    have hl : (l.map g).sum ≠ 0 := hne l List.mem_cons_self
    have hstep : ∀ s : List α,
        (l.map fun a => ((a :: s).map g).prod * ((a :: s).map used).sum).sum =
          (l.map fun a => g a * used a).sum * (s.map g).prod +
            (l.map g).sum * ((s.map g).prod * (s.map used).sum) := by
      intro s
      rw [← List.sum_map_mul_right, ← List.sum_map_mul_right, ← List.sum_map_add]
      congr 1
      apply List.map_congr_left
      intro a _
      simp only [List.map_cons, List.prod_cons, List.sum_cons]
      ring
    rw [sum_sections_cons]
    simp only [hstep]
    rw [List.sum_map_add, List.sum_map_mul_left, List.sum_map_mul_left, sum_prod_sections,
      ih fun l' hl' => hne l' (List.mem_cons_of_mem _ hl')]
    simp only [List.map_cons, List.prod_cons, List.sum_cons]
    field_simp

end Uses

end Carmel.Math

/-!
## Loops that update one entry at a time

A loop that never comes back to an index replaces what is at each, and adds an amount to one
cell of a table of sums, or to none.
-/

namespace Carmel.Math

universe u v w x

variable {ι : Type u} {κ : Type v} {A : Type w} {M : Type x}
variable [DecidableEq ι] [DecidableEq κ] [AddCommMonoid M]

/-- Add an amount to one cell, or to none. -/
def bump (f : κ → M) (k : Option κ) (d : M) : κ → M :=
  match k with
  | none => f
  | some k => Function.update f k (f k + d)

@[simp] theorem bump_none (f : κ → M) (d : M) : bump f none d = f := rfl

theorem bump_apply (f : κ → M) (k : Option κ) (d : M) (j : κ) :
    bump f k d j = f j + if k = some j then d else 0 := by
  cases k with
  | none => simp
  | some k =>
    by_cases h : k = j
    · subst h
      simp [bump]
    · simp [bump, Function.update_of_ne (Ne.symm h), h]

theorem foldl_bump (l : List A) (f : κ → M) (key : A → Option κ) (d : A → M) (j : κ) :
    (l.foldl (fun f a => bump f (key a) (d a)) f) j =
      f j + (l.map fun a => if key a = some j then d a else 0).sum := by
  induction l generalizing f with
  | nil => simp
  | cons a l ih => rw [List.foldl_cons, ih, bump_apply, List.map_cons, List.sum_cons, add_assoc]

/-- Replace what is at each index in turn, with a table of sums at hand. -/
def scatter (step : ι → A → (κ → M) → A × (κ → M)) (l : List ι) (s : (ι → A) × (κ → M)) :
    (ι → A) × (κ → M) :=
  l.foldl (fun s i =>
    let r := step i (s.1 i) s.2
    (Function.update s.1 i r.1, r.2)) s

variable {step : ι → A → (κ → M) → A × (κ → M)} {φ : ι → A → A} {key : ι → A → Option κ}
variable {d : ι → A → M} {l : List ι}

theorem scatter_fst (h : ∀ i a f, step i a f = (φ i a, bump f (key i a) (d i a))) (hl : l.Nodup)
    (s : (ι → A) × (κ → M)) (i : ι) :
    (scatter step l s).1 i = if i ∈ l then φ i (s.1 i) else s.1 i := by
  induction l generalizing s with
  | nil => rfl
  | cons a l ih =>
    rw [List.nodup_cons] at hl
    rw [scatter, List.foldl_cons]
    refine (ih hl.2 _).trans ?_
    simp only [h]
    by_cases hi : i = a
    · subst hi
      simp [hl.1]
    · simp [hi]

theorem scatter_snd (h : ∀ i a f, step i a f = (φ i a, bump f (key i a) (d i a))) (hl : l.Nodup)
    (s : (ι → A) × (κ → M)) (j : κ) :
    (scatter step l s).2 j =
      s.2 j + (l.map fun i => if key i (s.1 i) = some j then d i (s.1 i) else 0).sum := by
  induction l generalizing s with
  | nil => simp [scatter]
  | cons a l ih =>
    rw [List.nodup_cons] at hl
    rw [scatter, List.foldl_cons]
    refine (ih hl.2 _).trans ?_
    simp only [h, bump_apply, List.map_cons, List.sum_cons]
    rw [add_assoc]
    congr 2
    refine congrArg List.sum (List.map_congr_left fun i hi => ?_)
    rw [Function.update_of_ne (ne_of_mem_of_not_mem hi hl.1)]

section Fin

variable {n : ℕ} {step : Fin n → A → (κ → M) → A × (κ → M)} {φ : Fin n → A → A}
variable {key : Fin n → A → Option κ} {d : Fin n → A → M}

/-- All indices, in order. -/
def scatterAll (step : Fin n → A → (κ → M) → A × (κ → M)) (s : (Fin n → A) × (κ → M)) :
    (Fin n → A) × (κ → M) :=
  scatter step (List.finRange n) s

variable (φ key d) in
theorem scatterAll_eq (h : ∀ i a f, step i a f = (φ i a, bump f (key i a) (d i a)))
    (s : (Fin n → A) × (κ → M)) :
    scatterAll step s = (fun i => φ i (s.1 i),
      fun j => s.2 j + ∑ i, if key i (s.1 i) = some j then d i (s.1 i) else 0) := by
  refine Prod.ext (funext fun i => ?_) (funext fun j => ?_)
  · rw [scatterAll, scatter_fst h (List.nodup_finRange n), if_pos (List.mem_finRange i)]
  · simp only [scatterAll, scatter_snd h (List.nodup_finRange n), Fin.sum_univ_def]

end Fin

section Places

variable {B : Type w} {V : Type x} (key : B → ι) (q : B → Bool) (f : B → V → V) {l : List B}

theorem foldl_update_if_of_forall_ne {i : ι} (hi : ∀ b ∈ l, key b ≠ i) (v : ι → V) :
    l.foldl (fun v b => if q b then Function.update v (key b) (f b (v (key b))) else v) v i = v i := by
  apply List.foldlRecOn (motive := fun u : ι → V => u i = v i) l _ rfl
  intro u hu b hb
  split
  · rw [Function.update_of_ne (Ne.symm (hi b hb)), hu]
  · exact hu

/-- If no two of its items have one place, each place is replaced once, from what was there. -/
theorem foldl_update_if_mem (hnodup : (l.map key).Nodup) {b : B} (hb : b ∈ l) (v : ι → V) :
    l.foldl (fun v b => if q b then Function.update v (key b) (f b (v (key b))) else v) v (key b) =
      if q b then f b (v (key b)) else v (key b) := by
  induction l generalizing v with
  | nil => exact absurd hb List.not_mem_nil
  | cons a l ih =>
    rw [List.map_cons, List.nodup_cons] at hnodup
    rw [List.foldl_cons]
    rcases List.mem_cons.mp hb with rfl | hmem
    · rw [foldl_update_if_of_forall_ne key q f fun c hc heq =>
        hnodup.1 (List.mem_map.mpr ⟨c, hc, heq⟩)]
      split
      · rw [Function.update_self]
      · rfl
    · have hne : key b ≠ key a := fun heq => hnodup.1 (List.mem_map.mpr ⟨b, hmem, heq⟩)
      have hsame : (if q a then Function.update v (key a) (f a (v (key a))) else v) (key b) =
          v (key b) := by
        split
        · rw [Function.update_of_ne hne]
        · rfl
      rw [ih hnodup.2 hmem, hsame]

omit [DecidableEq ι] in
/-- A loop over blocks with places of their own, where each step leaves other places alone:
what it does to a block depends on what was there. -/
theorem exists_foldl_blocks {step : (ι → V) → List B → ι → V} {blocks : List (List B)}
    (hother : ∀ v block i, (∀ b ∈ block, key b ≠ i) → step v block i = v i)
    (hnodup : (blocks.flatten.map key).Nodup) (hl : l ∈ blocks) (v : ι → V) :
    (l.map key).Nodup ∧ ∃ v', (∀ b ∈ l, v' (key b) = v (key b)) ∧
      ∀ b ∈ l, blocks.foldl step v (key b) = step v' l (key b) := by
  induction blocks generalizing v with
  | nil => exact absurd hl List.not_mem_nil
  | cons first blocks ih =>
    rw [List.flatten_cons, List.map_append, List.nodup_append] at hnodup
    obtain ⟨hfirst, hrest, hdisj⟩ := hnodup
    have hapart (a : B) (ha : a ∈ first) (block : List B) (hblock : block ∈ blocks) (b : B)
        (hb : b ∈ block) : key a ≠ key b :=
      hdisj _ (List.mem_map_of_mem ha) _
        (List.mem_map_of_mem (List.mem_flatten.mpr ⟨block, hblock, hb⟩))
    rcases List.mem_cons.mp hl with rfl | hmem
    · refine ⟨hfirst, v, fun b _ => rfl, fun b hb => ?_⟩
      apply List.foldlRecOn (motive := fun u : ι → V => u (key b) = step v l (key b)) blocks _ rfl
      intro u hu later hlater
      rw [← hu]
      exact hother u later _ fun c hc => (hapart b hb later hlater c hc).symm
    · obtain ⟨hone, v', hsame, hfold⟩ := ih hrest hmem (step v first)
      refine ⟨hone, v', fun b hb => ?_, hfold⟩
      rw [hsame b hb]
      exact hother v first _ fun a ha => hapart a ha l hmem b hb

end Places

end Carmel.Math
