/-
# Choosing an arc at random

An arc is chosen by its weight: a random fraction is taken of the weight that all the
arcs have together, and the arcs are gone through until as much weight has been met.
The fraction is what a call of the random number generator returns, and is below one.
-/

import Carmel.Fst.Yields
import Carmel.Math.Passes
import Carmel.Train.ArcCounts

namespace Carmel

universe u v w

variable {F : Type u} {A : Type v} {B : Type w} [Field F] [LinearOrder F] [IsStrictOrderedRing F]

variable (F) in
/-- What `randomFloat` returns. -/
abbrev Fraction : Type u := {r : Weight F // r < 1}

/-- The loop that looks for the arc, with the weight met so far. -/
def chooseFrom (weight : A → Weight F) (which : Weight F) : Weight F → List A → Option A
  | _, [] => none
  | sum, a :: arcs =>
    if which ≤ sum + weight a then some a else chooseFrom weight which (sum + weight a) arcs

/-- Choose one of the arcs. -/
def chooseArc (weight : A → Weight F) (arcs : List A) (r : Fraction F) : Option A :=
  chooseFrom weight ((arcs.map weight).sum * r) 0 arcs

variable {weight : A → Weight F} {which sum : Weight F} {arcs : List A} {a : A} {r : Fraction F}

theorem chooseFrom_map (f : B → A) (arcs : List B) :
    chooseFrom weight which sum (arcs.map f) =
      (chooseFrom (fun b => weight (f b)) which sum arcs).map f := by
  induction arcs generalizing sum with
  | nil => rfl
  | cons b arcs ih =>
    rw [List.map_cons, chooseFrom, chooseFrom, ih]
    split <;> rfl

theorem chooseArc_map (f : B → A) (arcs : List B) :
    chooseArc weight (arcs.map f) r = (chooseArc (fun b => weight (f b)) arcs r).map f := by
  rw [chooseArc, chooseArc, chooseFrom_map, List.map_map]
  rfl

theorem mem_of_chooseFrom (h : chooseFrom weight which sum arcs = some a) : a ∈ arcs := by
  induction arcs generalizing sum with
  | nil => cases h
  | cons b arcs ih =>
    rw [chooseFrom] at h
    split at h
    · obtain rfl := Option.some.inj h
      exact List.mem_cons_self
    · exact List.mem_cons_of_mem _ (ih h)

theorem mem_of_chooseArc (h : chooseArc weight arcs r = some a) : a ∈ arcs := mem_of_chooseFrom h

theorem chooseFrom_ne_none (hle : which ≤ sum + (arcs.map weight).sum) (hne : arcs ≠ []) :
    chooseFrom weight which sum arcs ≠ none := by
  induction arcs generalizing sum with
  | nil => exact absurd rfl hne
  | cons b arcs ih =>
    rw [chooseFrom]
    split
    · exact Option.some_ne_none b
    · rename_i hnot
      rw [List.map_cons, List.sum_cons, ← add_assoc] at hle
      apply ih hle
      rintro rfl
      rw [List.map_nil, List.sum_nil, add_zero] at hle
      exact hnot hle

/-- **The choice among some arcs never fails.** -/
theorem chooseArc_ne_none (hne : arcs ≠ []) : chooseArc weight arcs r ≠ none := by
  apply chooseFrom_ne_none _ hne
  rw [zero_add]
  exact mul_le_of_le_one_right' r.2.le

theorem exists_chooseArc (weight : A → Weight F) (hne : arcs ≠ []) (r : Fraction F) :
    ∃ a, chooseArc weight arcs r = some a :=
  Option.ne_none_iff_exists'.mp (chooseArc_ne_none hne)

/-! ## Which arcs can be chosen -/

/-- An arc of weight zero ends no search that some weight is missing in. -/
theorem weight_ne_zero_of_chooseFrom (h : chooseFrom weight which sum arcs = some a)
    (hlt : sum < which) : weight a ≠ 0 := by
  induction arcs generalizing sum with
  | nil => cases h
  | cons b arcs ih =>
    rw [chooseFrom] at h
    split at h
    · rename_i hle
      obtain rfl := Option.some.inj h
      intro hzero
      rw [hzero, add_zero] at hle
      exact absurd hlt (not_lt.mpr hle)
    · rename_i hnot
      exact ih h (not_le.mp hnot)

theorem chooseFrom_append {before after : List A} (hlt : sum + (before.map weight).sum < which)
    (hle : which ≤ sum + (before.map weight).sum + weight a) :
    chooseFrom weight which sum (before ++ a :: after) = some a := by
  induction before generalizing sum with
  | nil =>
    rw [List.map_nil, List.sum_nil, add_zero] at hle
    rw [List.nil_append, chooseFrom, if_pos hle]
  | cons b before ih =>
    rw [List.map_cons, List.sum_cons, ← add_assoc] at hlt hle
    have hskip : ¬ which ≤ sum + weight b := not_le.mpr ((le_self_add).trans_lt hlt)
    rw [List.cons_append, chooseFrom, if_neg hskip]
    exact ih hlt hle

theorem exists_fraction {part total : Weight F} (h : part < total) :
    ∃ r : Fraction F, total * r = part := by
  have hpos : 0 < total := (zero_le : 0 ≤ part).trans_lt h
  refine ⟨⟨part / total, (div_lt_one hpos).mpr h⟩, ?_⟩
  exact mul_div_cancel₀ part hpos.ne'

/-- **The arcs that can be chosen**: the first one, and those that have some weight. -/
theorem exists_chooseArc_eq_iff :
    (∃ r, chooseArc weight arcs r = some a) ↔ arcs.head? = some a ∨ (a ∈ arcs ∧ weight a ≠ 0) := by
  constructor
  · rintro ⟨r, h⟩
    have hmem := mem_of_chooseArc h
    cases arcs with
    | nil => cases h
    | cons b arcs =>
      rw [chooseArc, chooseFrom] at h
      split at h
      · exact .inl h
      · rename_i hnot
        exact .inr ⟨hmem, weight_ne_zero_of_chooseFrom h (not_le.mp hnot)⟩
  · rintro (hhead | ⟨hmem, hne⟩)
    · obtain ⟨arcs, rfl⟩ := List.head?_eq_some_iff.mp hhead
      refine ⟨⟨0, zero_lt_one⟩, ?_⟩
      rw [chooseArc, mul_zero, chooseFrom, if_pos zero_le]
    · obtain ⟨before, after, rfl⟩ := List.append_of_mem hmem
      have hpos : 0 < weight a := pos_iff_ne_zero.mpr hne
      have hpart : (before.map weight).sum + weight a / 2 <
          ((before ++ a :: after).map weight).sum := by
        rw [List.map_append, List.sum_append, List.map_cons, List.sum_cons]
        exact add_lt_add_right ((half_lt_self hpos).trans_le le_self_add) _
      obtain ⟨r, hr⟩ := exists_fraction hpart
      refine ⟨r, ?_⟩
      rw [chooseArc, hr]
      apply chooseFrom_append
      · rw [zero_add]
        exact lt_add_of_pos_right _ (half_pos hpos)
      · rw [zero_add]
        exact add_le_add_right (half_le_self zero_le) _

end Carmel

/-!
## Random paths

`randomPath` walks along arcs it chooses by their weights. `len` is incremented twice for
every arc: where the arc is added, and at the label the loop goes on from.
-/

namespace Carmel

open Carmel.Math

universe u

variable {F : Type u} [Field F] [LinearOrder F] [IsStrictOrderedRing F]

/-- The variables of the loop. -/
structure RandomPathState (F : Type u) [Zero F] [LE F] where
  s : ℕ
  len : ℕ
  l : List (PathArc (Weight F))

inductive RandomPathResult (F : Type u) [Zero F] [LE F]
  | returned (found : Bool) (l : List (PathArc (Weight F)))
  | failed

/-- `++len`, of 32 bits. -/
def increment (len : ℕ) : ℕ := (len + 1) % 2 ^ 32

/-- One pass of the loop of `randomPath`. -/
def randomPathStep (x : WFST (Weight F)) (max : Fin (2 ^ 32)) (st : RandomPathState F)
    (r : Fraction F) : Pass (RandomPathState F) (RandomPathResult F) :=
  if x.final = some st.s then .done (.returned true st.l)
  else if max.val < st.len ∨ (x.state st.s).arcs.isEmpty = true then .done (.returned false st.l)
  else
    match chooseArc FSTArc.weight (x.state st.s).arcs r with
    | some arc =>
      .again ⟨arc.dest, increment (increment st.len), st.l ++ [x.setPathArc arc]⟩
    | none => .done .failed

/-- `randomPath`, appending to `l`, returns a result. -/
def WFST.RandomPath (x : WFST (Weight F)) (max : Fin (2 ^ 32)) (c : ℕ → Fraction F)
    (l : List (PathArc (Weight F))) (result : RandomPathResult F) : Prop :=
  LoopReturns (randomPathStep x max) c ⟨0, 0, l⟩ result

/-! ## The walk -/

/-- The walk that the choices make: where it is after some arcs, and the arcs, unless it
has ended before. It ends at the final state and at states without arcs. -/
def randomWalk (x : WFST (Weight F)) (c : ℕ → Fraction F) :
    ℕ → Option (ℕ × List (HalfArc (Weight F)))
  | 0 => some (0, [])
  | n + 1 =>
    match randomWalk x c n with
    | none => none
    | some (s, path) =>
      if x.final = some s then none
      else (chooseArc (·.arc.weight) (x.outArcs s) (c n)).map fun h =>
        (h.arc.dest, path ++ [h])

/-- The walk arrives at the final state after `n` arcs. -/
def WFST.Arrives (x : WFST (Weight F)) (c : ℕ → Fraction F) (n : ℕ) : Prop :=
  ∃ f path, randomWalk x c n = some (f, path) ∧ x.final = some f

variable {x : WFST (Weight F)} {c : ℕ → Fraction F} {max : Fin (2 ^ 32)} {n m s : ℕ}
  {path : List (HalfArc (Weight F))} {l l' : List (PathArc (Weight F))}

theorem randomWalk_succ_eq_some_iff {t : ℕ} {path' : List (HalfArc (Weight F))} :
    randomWalk x c (n + 1) = some (t, path') ↔ ∃ s path h, randomWalk x c n = some (s, path) ∧
      x.final ≠ some s ∧ chooseArc (·.arc.weight) (x.outArcs s) (c n) = some h ∧
        t = h.arc.dest ∧ path' = path ++ [h] := by
  rw [randomWalk]
  cases hn : randomWalk x c n with
  | none => simp
  | some found =>
    obtain ⟨s, path⟩ := found
    by_cases hfinal : x.final = some s
    · simp [hfinal]
    · simp only [hfinal, if_false, Option.map_eq_some_iff, Prod.mk.injEq, Option.some.injEq]
      constructor
      · rintro ⟨h, hh, rfl, rfl⟩
        exact ⟨s, path, h, ⟨rfl, rfl⟩, hfinal, hh, rfl, rfl⟩
      · rintro ⟨s', path', h, ⟨rfl, rfl⟩, -, hh, rfl, rfl⟩
        exact ⟨h, hh, rfl, rfl⟩

theorem walk_of_randomWalk (h : randomWalk x c n = some (s, path)) : Walk x.Adj 0 path s := by
  induction n generalizing s path with
  | zero =>
    obtain ⟨rfl, rfl⟩ := Prod.mk.inj (Option.some.inj h)
    exact .nil 0
  | succ n ih =>
    obtain ⟨s', path', a, hn, -, ha, rfl, rfl⟩ := randomWalk_succ_eq_some_iff.mp h
    exact Walk.concat_iff.mpr ⟨s', ih hn, mem_of_chooseArc ha, rfl⟩

theorem randomWalk_ne_none_of_le (hle : m ≤ n) (h : randomWalk x c n ≠ none) :
    randomWalk x c m ≠ none := by
  induction n with
  | zero => rwa [Nat.le_zero.mp hle]
  | succ n ih =>
    rcases Nat.le_succ_iff.mp hle with hle | rfl
    · apply ih hle
      intro hn
      rw [randomWalk, hn] at h
      exact h rfl
    · exact h

/-- Where the walk arrives it ends. -/
theorem WFST.Arrives.succ_eq_none (h : x.Arrives c n) : randomWalk x c (n + 1) = none := by
  obtain ⟨f, path, hn, hfinal⟩ := h
  simp only [randomWalk, hn, hfinal, if_true]

theorem WFST.Arrives.unique (h : x.Arrives c n) (h' : x.Arrives c m) : n = m := by
  have hle : ∀ {i j : ℕ}, x.Arrives c i → x.Arrives c j → j ≤ i := by
    intro i j hi hj
    by_contra hlt
    obtain ⟨f, path, hsome, -⟩ := hj
    have hne : randomWalk x c j ≠ none := by
      rw [hsome]
      exact Option.some_ne_none _
    exact randomWalk_ne_none_of_le (Nat.lt_of_not_le hlt) hne hi.succ_eq_none
  exact le_antisymm (hle h' h) (hle h h')

/-! ## The counter -/

/-- The test of the limit lets the loop take `n` arcs. -/
def Within (max : Fin (2 ^ 32)) (n : ℕ) : Prop := ∀ k < n, 2 * k % 2 ^ 32 ≤ max.val

theorem within_succ : Within max (n + 1) ↔ Within max n ∧ 2 * n % 2 ^ 32 ≤ max.val := by
  simp only [Within, Nat.forall_lt_succ_right]

/-- The loop takes half as many arcs, and one more; for the two largest limits it takes any
number, since the counter stays even when it wraps. -/
theorem within_iff : Within max n ↔ n ≤ max.val / 2 + 1 ∨ 2 ^ 32 ≤ max.val + 2 := by
  have hmax := max.isLt
  constructor
  · intro h
    by_contra hnot
    have hk := h (max.val / 2 + 1) (by lia)
    lia
  · intro h k hk
    lia

theorem increment_increment (n : ℕ) : increment (increment (2 * n % 2 ^ 32)) = 2 * (n + 1) % 2 ^ 32 := by
  rw [increment, increment]
  lia

/-! ## What the loop does -/

theorem chooseArc_arcs (x : WFST (Weight F)) (s : ℕ) (r : Fraction F) :
    chooseArc FSTArc.weight (x.state s).arcs r =
      (chooseArc (·.arc.weight) (x.outArcs s) r).map (·.arc) := by
  rw [← WFST.map_arc_outArcs, chooseArc_map]

theorem randomPathStep_eq_again_iff {st st' : RandomPathState F} {r : Fraction F} :
    randomPathStep x max st r = .again st' ↔ x.final ≠ some st.s ∧ st.len ≤ max.val ∧
      ∃ h, chooseArc (·.arc.weight) (x.outArcs st.s) r = some h ∧
        st' = ⟨h.arc.dest, increment (increment st.len), st.l ++ [x.setPathArc h.arc]⟩ := by
  rw [randomPathStep, chooseArc_arcs]
  by_cases hfinal : x.final = some st.s
  · simp [hfinal]
  · rw [if_neg hfinal]
    cases hchoose : chooseArc (fun h => h.arc.weight) (x.outArcs st.s) r with
    | none => split <;> simp
    | some h =>
      have hne : (x.state st.s).arcs.isEmpty = false := by
        rw [← WFST.map_arc_outArcs]
        simpa using List.ne_nil_of_mem (mem_of_chooseArc hchoose)
      by_cases hlen : max.val < st.len
      · simp [hlen, hfinal, hne]
      · simp only [hlen, hne, Bool.false_eq_true, or_self, if_false, Option.map_some,
          Pass.again.injEq]
        constructor
        · rintro rfl
          exact ⟨hfinal, not_lt.mp hlen, h, rfl, rfl⟩
        · rintro ⟨-, -, h', hh', rfl⟩
          rw [Option.some.inj hh']

/-- **The loop follows the walk as long as the counter lets it.** -/
theorem after_randomPathStep_iff {st : RandomPathState F} :
    after (randomPathStep x max) c ⟨0, 0, l⟩ n = some st ↔ Within max n ∧
      ∃ path, randomWalk x c n = some (st.s, path) ∧
        st = ⟨st.s, 2 * n % 2 ^ 32, l ++ path.map fun h => x.setPathArc h.arc⟩ := by
  induction n generalizing st with
  | zero =>
    simp only [after, Option.some.injEq, Within, Nat.not_lt_zero, false_implies, implies_true,
      randomWalk, Prod.mk.injEq, true_and]
    constructor
    · rintro rfl
      exact ⟨[], ⟨rfl, rfl⟩, by simp⟩
    · rintro ⟨path, ⟨hs, rfl⟩, hst⟩
      rw [hst, ← hs]
      simp
  | succ n ih =>
    rw [after_succ_eq_some_iff, within_succ]
    constructor
    · rintro ⟨t, ht, hstep⟩
      obtain ⟨hwithin, path, hwalk, hst⟩ := ih.mp ht
      obtain ⟨hfinal, hlen, h, hchoose, rfl⟩ := randomPathStep_eq_again_iff.mp hstep
      rw [hst] at hlen
      refine ⟨⟨hwithin, hlen⟩, path ++ [h], ?_, ?_⟩
      · exact randomWalk_succ_eq_some_iff.mpr ⟨t.s, path, h, hwalk, hfinal, hchoose, rfl, rfl⟩
      · rw [hst, increment_increment]
        simp
    · rintro ⟨⟨hwithin, hlen⟩, path', hwalk, hst⟩
      obtain ⟨s, path, h, hn, hfinal, hchoose, hdest, rfl⟩ := randomWalk_succ_eq_some_iff.mp hwalk
      refine ⟨⟨s, 2 * n % 2 ^ 32, l ++ path.map fun h => x.setPathArc h.arc⟩,
        ih.mpr ⟨hwithin, path, hn, rfl⟩, ?_⟩
      apply randomPathStep_eq_again_iff.mpr
      refine ⟨hfinal, hlen, h, hchoose, ?_⟩
      rw [hst, hdest, increment_increment]
      simp

theorem after_eq_none_iff :
    after (randomPathStep x max) c ⟨0, 0, l⟩ n = none ↔ ¬ Within max n ∨ randomWalk x c n = none := by
  rw [Option.eq_none_iff_forall_ne_some, Option.eq_none_iff_forall_ne_some]
  constructor
  · intro h
    by_contra hnot
    push Not at hnot
    obtain ⟨hwithin, ⟨s, path⟩, hwalk⟩ := hnot
    exact h ⟨s, _, _⟩ (after_randomPathStep_iff.mpr ⟨hwithin, path, hwalk, rfl⟩)
  · intro h st hst
    obtain ⟨hwithin, path, hwalk, -⟩ := after_randomPathStep_iff.mp hst
    rcases h with h | h
    · exact h hwithin
    · exact h _ hwalk

theorem randomPathStep_eq_found_iff {st : RandomPathState F} {r : Fraction F} :
    randomPathStep x max st r = .done (.returned true l') ↔ x.final = some st.s ∧ l' = st.l := by
  rw [randomPathStep]
  by_cases hfinal : x.final = some st.s
  · simp [hfinal, eq_comm]
  · rw [if_neg hfinal]
    split
    · simp [hfinal]
    · cases chooseArc FSTArc.weight (x.state st.s).arcs r <;> simp [hfinal]

theorem randomPathStep_ne_failed {st : RandomPathState F} {r : Fraction F} :
    randomPathStep x max st r ≠ .done .failed := by
  rw [randomPathStep]
  by_cases hfinal : x.final = some st.s
  · simp [hfinal]
  · rw [if_neg hfinal]
    split
    · simp
    · rename_i hgo
      obtain ⟨a, ha⟩ := exists_chooseArc FSTArc.weight
        (fun h : (x.state st.s).arcs = [] => hgo (.inr (by rw [h]; rfl))) r
      rw [ha]
      simp

/-! ## Finding a path -/

/-- **When `true` is returned.** -/
theorem randomPath_found_iff : x.RandomPath max c l (.returned true l') ↔
    ∃ n f path, randomWalk x c n = some (f, path) ∧ x.final = some f ∧ Within max n ∧
      l' = l ++ path.map fun h => x.setPathArc h.arc := by
  rw [WFST.RandomPath, loopReturns_iff]
  constructor
  · rintro ⟨n, st, hst, hdone⟩
    obtain ⟨hwithin, path, hwalk, heq⟩ := after_randomPathStep_iff.mp hst
    obtain ⟨hfinal, rfl⟩ := randomPathStep_eq_found_iff.mp hdone
    exact ⟨n, st.s, path, hwalk, hfinal, hwithin, by rw [heq]⟩
  · rintro ⟨n, f, path, hwalk, hfinal, hwithin, rfl⟩
    exact ⟨n, ⟨f, _, _⟩, after_randomPathStep_iff.mpr ⟨hwithin, path, hwalk, rfl⟩,
      randomPathStep_eq_found_iff.mpr ⟨hfinal, rfl⟩⟩

theorem randomPath_ne_failed : ¬ x.RandomPath max c l .failed := by
  intro h
  obtain ⟨n, st, -, hdone⟩ := loopReturns_iff.mp h
  exact randomPathStep_ne_failed hdone

/-- The call returns when the counter or the walk ends it. -/
theorem exists_randomPath_returned_iff : (∃ found l', x.RandomPath max c l (.returned found l')) ↔
    ∃ n, ¬ Within max n ∨ randomWalk x c n = none := by
  have hends : (∃ result, x.RandomPath max c l result) ↔
      ∃ n, ¬ Within max n ∨ randomWalk x c n = none :=
    exists_loopReturns_iff.trans (exists_congr fun n => after_eq_none_iff)
  rw [← hends]
  constructor
  · rintro ⟨found, l', h⟩
    exact ⟨_, h⟩
  · rintro ⟨result, h⟩
    cases result with
    | returned found l' => exact ⟨found, l', h⟩
    | failed => exact absurd h randomPath_ne_failed

/-- The call returns, with `true` if the walk arrives within the limit, and then with the
walk's arcs behind those that were in the list. -/
def WFST.FindsPaths (x : WFST (Weight F)) (max : Fin (2 ^ 32)) (c : ℕ → Fraction F)
    (l : List (PathArc (Weight F))) : Prop :=
  ∃ found l', x.RandomPath max c l (.returned found l') ∧
    (found = true ↔ ∃ n ≤ max.val, x.Arrives c n) ∧
      (found = true → ∃ path, x.IsPath path ∧ l' = l ++ path.map fun h => x.setPathArc h.arc)

/-- Where the walk arrives, the limit and half of it say the same; the two largest limits, which
the counter never exceeds, come with a walk that ends. -/
def WFST.LimitFits (x : WFST (Weight F)) (max : Fin (2 ^ 32)) (c : ℕ → Fraction F) : Prop :=
  (∀ n, x.Arrives c n → (n ≤ max.val ↔ n ≤ max.val / 2 + 1 ∨ 2 ^ 32 ≤ max.val + 2)) ∧
    (2 ^ 32 ≤ max.val + 2 → ∃ n, randomWalk x c n = none)

theorem found_iff {found : Bool} (h : x.RandomPath max c l (.returned found l')) :
    found = true ↔ ∃ n, x.Arrives c n ∧ Within max n := by
  constructor
  · rintro rfl
    obtain ⟨n, f, path, hwalk, hfinal, hwithin, -⟩ := randomPath_found_iff.mp h
    exact ⟨n, ⟨f, path, hwalk, hfinal⟩, hwithin⟩
  · rintro ⟨n, ⟨f, path, hwalk, hfinal⟩, hwithin⟩
    have h' : x.RandomPath max c l (.returned true (l ++ path.map fun h => x.setPathArc h.arc)) :=
      randomPath_found_iff.mpr ⟨n, f, path, hwalk, hfinal, hwithin, rfl⟩
    have heq := LoopReturns.unique h h'
    simp only [RandomPathResult.returned.injEq] at heq
    exact heq.1

/-- **Paths are found as the limit says exactly when it fits.** -/
theorem findsPaths_iff (x : WFST (Weight F)) (max : Fin (2 ^ 32)) (c : ℕ → Fraction F)
    (l : List (PathArc (Weight F))) : x.FindsPaths max c l ↔ x.LimitFits max c := by
  constructor
  · rintro ⟨found, l', hreturned, hfound, -⟩
    rw [found_iff hreturned] at hfound
    constructor
    · intro n hn
      rw [← within_iff]
      constructor
      · intro hle
        obtain ⟨m, hm, hwithin⟩ := hfound.mpr ⟨n, hle, hn⟩
        rwa [hn.unique hm]
      · intro hwithin
        obtain ⟨m, hle, hm⟩ := hfound.mp ⟨n, hn, hwithin⟩
        rwa [hn.unique hm]
    · intro hmax
      obtain ⟨n, hn⟩ := exists_randomPath_returned_iff.mp ⟨found, l', hreturned⟩
      rcases hn with hn | hn
      · exact absurd (within_iff.mpr (.inr hmax)) hn
      · exact ⟨n, hn⟩
  · rintro ⟨hfits, hends⟩
    have hstops : ∃ n, ¬ Within max n ∨ randomWalk x c n = none := by
      by_cases hmax : 2 ^ 32 ≤ max.val + 2
      · obtain ⟨n, hn⟩ := hends hmax
        exact ⟨n, .inr hn⟩
      · refine ⟨max.val / 2 + 2, .inl ?_⟩
        rw [within_iff]
        lia
    obtain ⟨found, l', hreturned⟩ := exists_randomPath_returned_iff.mpr hstops
    refine ⟨found, l', hreturned, ?_, ?_⟩
    · rw [found_iff hreturned]
      constructor
      · rintro ⟨n, hn, hwithin⟩
        exact ⟨n, (hfits n hn).mpr (within_iff.mp hwithin), hn⟩
      · rintro ⟨n, hle, hn⟩
        exact ⟨n, hn, within_iff.mpr ((hfits n hn).mp hle)⟩
    · rintro rfl
      obtain ⟨n, f, path, hwalk, hfinal, -, rfl⟩ := randomPath_found_iff.mp hreturned
      exact ⟨path, ⟨f, walk_of_randomWalk hwalk, hfinal⟩, rfl⟩

/-- A transducer with one path, of three arcs. -/
def threeSteps : WFST (Weight ℚ) where
  states := [⟨[⟨0, 0, 1, 1, FSTArc.noGroup⟩], 1⟩, ⟨[⟨0, 0, 2, 1, FSTArc.noGroup⟩], 1⟩,
    ⟨[⟨0, 0, 3, 1, FSTArc.noGroup⟩], 1⟩, State.empty]
  final := some 3
  inAlph := ⟨["*e*"], Alphabet.nodup_epsilon, Alphabet.epsilon_first⟩
  outAlph := ⟨["*e*"], Alphabet.nodup_epsilon, Alphabet.epsilon_first⟩

theorem arrives_threeSteps : threeSteps.Arrives (fun _ => ⟨0, zero_lt_one⟩) 3 :=
  ⟨3, [⟨0, 0, 0, 0, 1, 1, FSTArc.noGroup⟩, ⟨1, 0, 0, 0, 2, 1, FSTArc.noGroup⟩,
    ⟨2, 0, 0, 0, 3, 1, FSTArc.noGroup⟩], by decide +kernel, rfl⟩

/-- Its path is found when paths may have four arcs. -/
theorem findsPaths_threeSteps : threeSteps.FindsPaths 4 (fun _ => ⟨0, zero_lt_one⟩) [] := by
  apply (findsPaths_iff ..).mpr
  constructor
  · intro n hn
    obtain rfl := hn.unique arrives_threeSteps
    decide
  · intro h
    exact absurd h (by decide)

/-- Its path is rejected when paths may have three arcs. -/
theorem not_findsPaths_threeSteps :
    ¬ ∀ (x : WFST (Weight ℚ)) (max : Fin (2 ^ 32)) (c : ℕ → Fraction ℚ)
      (l : List (PathArc (Weight ℚ))), x.FindsPaths max c l := by
  intro h
  obtain ⟨found, l', hreturned, hfound, -⟩ := h threeSteps 3 (fun _ => ⟨0, zero_lt_one⟩) []
  rw [found_iff hreturned] at hfound
  obtain ⟨n, hn, hwithin⟩ := hfound.mpr ⟨3, le_rfl, arrives_threeSteps⟩
  obtain rfl := arrives_threeSteps.unique hn
  exact absurd (hwithin 2 (by decide)) (by decide)

end Carmel
