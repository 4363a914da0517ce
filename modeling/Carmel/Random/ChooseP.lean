/-
# Choosing with given probabilities

`compile_choosep` makes rows of equal length out of entries with probabilities: an entry
that has too much for a row gives of it to those that have too little. The number that is
drawn selects a row, and within the row one of two entries.
-/

import Carmel.Math.Instances

namespace Carmel.Random

open MeasureTheory

universe u v w

variable {K : Type u} {V : Type v} {W : Type w}

section Code

variable [Field K] [LinearOrder K]

/-- The loop `while p>u` of at most `fuel` rounds, with what is left of `s` and the rows. -/
def eat (n u : K) (v : V) :
    ℕ → K → List (K × V) → List (K × V × V) → Option (K × List (K × V) × List (K × V × V))
  | 0, p, s, r => if u < p then none else some (p, s, r)
  | fuel + 1, p, s, r =>
    if u < p then
      match s with
      | (ps, vs) :: s => eat n u v fuel (p - (u - ps)) s (r ++ [(ps * n, vs, v)])
      | [] => eat n u v fuel (p - u) [] (r ++ [(1, v, v)])
    else some (p, s, r)

/-- The loop over the entries. -/
def eatAll (n u : K) (fuel : ℕ) :
    List (K × V) → List (K × V) → List (K × V × V) → Option (List (K × V) × List (K × V × V))
  | [], s, r => some (s, r)
  | (p, v) :: l, s, r =>
    if p < u then eatAll n u fuel l s r
    else do
      let (p, s, r) ← eat n u v fuel p s r
      if p = u then eatAll n u fuel l s (r ++ [(1, v, v)])
      else if 0 < p then eatAll n u fuel l (s ++ [(p, v)]) r
      else eatAll n u fuel l s r

/-- `compile_choosep`, or none where an assertion fails. -/
def compileChoosep (fuel : ℕ) (l : List (K × V)) : Option (List (K × V × V)) := do
  let n : K := l.length
  let u := 1 / n
  let (s, r) ← eatAll n u fuel l (l.filter (·.1 < u)) []
  let r ← match s with
    | [] => some r
    | (pr, v) :: s =>
      if r.length < l.length then if s.length = 0 then some (r ++ [(1, v, v)]) else none
      else if pr < 1 / 10 ^ 8 then some r else none
  if r.length = l.length then some r else none

/-- `select_choosep`, or none where an assertion fails or there is no row. -/
def selectChoosep [FloorSemiring K] (p01 : K) (compiled : List (K × V × V)) : Option V :=
  if compiled.length = 0 then none
  else if p01 = 1 then compiled.getLast?.map (·.2.1)
  else if p01 ≤ 1 ∧ 0 ≤ p01 then
    let pn := p01 * compiled.length
    let i := ⌊pn⌋₊
    let r := pn - i
    compiled[i]?.map fun (p1, v1, v2) => if r < p1 then v1 else v2
  else none

end Code

section Map

variable {n u p : K} {v : V} {fuel : ℕ} {l s : List (K × V)} {r : List (K × V × V)} (f : V → W)

/-- Other values in the rows. -/
def mapRows (r : List (K × V × V)) : List (K × W × W) := r.map (Prod.map id (Prod.map f f))

theorem mapRows_append (row : K × V × V) :
    mapRows f r ++ [(row.1, f row.2.1, f row.2.2)] = mapRows f (r ++ [row]) := by
  rw [mapRows, mapRows, List.map_append]
  rfl

variable [Field K] [LinearOrder K]

theorem eat_map : eat n u (f v) fuel p (s.map (Prod.map id f)) (mapRows f r) =
    (eat n u v fuel p s r).map (Prod.map id (Prod.map (List.map (Prod.map id f)) (mapRows f))) := by
  induction fuel generalizing p s r with
  | zero =>
    rw [eat, eat]
    split_ifs <;> rfl
  | succ fuel ih =>
    cases s with
    | nil =>
      rw [List.map_nil, eat, eat]
      split_ifs
      · rw [mapRows_append f (1, v, v)]
        exact ih (s := [])
      · rfl
    | cons e s =>
      rw [List.map_cons, eat, eat]
      split_ifs
      · exact (congrArg _ (mapRows_append f (e.1 * n, e.2, v))).trans ih
      · rfl

variable (fuel) in
theorem eatAll_map : eatAll n u fuel (l.map (Prod.map id f)) (s.map (Prod.map id f)) (mapRows f r) =
    (eatAll n u fuel l s r).map (Prod.map (List.map (Prod.map id f)) (mapRows f)) := by
  induction l generalizing s r with
  | nil => rfl
  | cons e l ih =>
    rcases e with ⟨p, v⟩
    show eatAll n u fuel ((p, f v) :: l.map (Prod.map id f)) _ _ = _
    rw [eatAll, eatAll]
    by_cases hlt : p < u
    · rw [if_pos hlt, if_pos hlt, ih]
    · rw [if_neg hlt, if_neg hlt, eat_map]
      cases eat n u v fuel p s r with
      | none => rfl
      | some state =>
        rcases state with ⟨p', s', r'⟩
        show (if p' = u then _ else if 0 < p' then _ else _) =
          Option.map _ (if p' = u then _ else if 0 < p' then _ else _)
        split_ifs
        · exact (congrArg _ (mapRows_append f (1, v, v))).trans ih
        · rw [← ih, List.map_append]
          rfl
        · exact ih

end Map

section Kept

variable [Field K] {φ : V → K} {p : K} {v : V} {l todo s : List (K × V)} {r : List (K × V × V)}

/-- What the entries of a list come to. -/
def mass (φ : V → K) (l : List (K × V)) : K := (l.map fun e => e.1 * φ e.2).sum

/-- What the entries of the rows come to, for rows of length one. -/
def share (φ : V → K) (r : List (K × V × V)) : K :=
  (r.map fun row => row.1 * φ row.2.1 + (1 - row.1) * φ row.2.2).sum

@[simp] theorem mass_nil : mass φ ([] : List (K × V)) = 0 := rfl

@[simp] theorem mass_cons (e : K × V) : mass φ (e :: l) = e.1 * φ e.2 + mass φ l := by simp [mass]

@[simp] theorem mass_append : mass φ (s ++ l) = mass φ s + mass φ l := by simp [mass]

@[simp] theorem share_append (row : K × V × V) : share φ (r ++ [row]) =
    share φ r + (row.1 * φ row.2.1 + (1 - row.1) * φ row.2.2) := by simp [share]

variable [LinearOrder K]

/-- The rows, the entries that have too little and those still to be gone through are as many
as there were entries, and come to the same. -/
structure Kept (l todo s : List (K × V)) (r : List (K × V × V)) : Prop where
  count : r.length + s.length + todo.length = l.length
  small : ∀ e ∈ s, 0 ≤ e.1 ∧ e.1 < 1 / (l.length : K)
  inRow : ∀ row ∈ r, 0 ≤ row.1 ∧ row.1 ≤ 1
  kept : ∀ φ : V → K, share φ r * (1 / (l.length : K)) + mass φ s + mass φ todo = mass φ l

namespace Kept

variable [IsStrictOrderedRing K]

theorem pos (h : Kept l ((p, v) :: todo) s r) : (0 : K) < l.length := by
  have := h.count
  rw [List.length_cons] at this
  exact Nat.cast_pos.mpr (by omega)

/-- What is left comes to as many rows as there are entries left. -/
theorem mass_one (h : Kept l todo s r) (hl : mass (fun _ => 1) l = 1) (hne : l ≠ []) :
    (s.map Prod.fst).sum + (todo.map Prod.fst).sum =
      (s.length + todo.length) * (1 / (l.length : K)) := by
  have hpos : (0 : K) < l.length := Nat.cast_pos.mpr (List.length_pos_iff.mpr hne)
  have hcount : (r.length : K) + s.length + todo.length = l.length := by
    exact_mod_cast h.count
  have hone : ((r.length : K) + s.length + todo.length) * (1 / l.length) = 1 := by
    rw [hcount, mul_one_div_cancel hpos.ne']
  have hmass := h.kept fun _ => 1
  rw [hl] at hmass
  simp only [share, mass, mul_one, add_sub_cancel, List.map_const', List.sum_replicate,
    nsmul_eq_mul] at hmass
  linarith

/-- While an entry has too much, another has too little. -/
theorem ne_nil (h : Kept l ((p, v) :: todo) s r) (hl : mass (fun _ => 1) l = 1) (hne : l ≠ [])
    (htodo : ∀ e ∈ todo, 1 / (l.length : K) ≤ e.1) (hp : 1 / (l.length : K) < p) : s ≠ [] := by
  intro hs
  have hmass := h.mass_one hl hne
  have hle := List.card_nsmul_le_sum (todo.map Prod.fst) (1 / (l.length : K)) (by simpa using htodo)
  rw [List.length_map, nsmul_eq_mul] at hle
  rw [hs, List.map_cons, List.sum_cons, List.length_cons] at hmass
  push_cast [List.map_nil, List.sum_nil, List.length_nil] at hmass
  linarith

theorem eq_nil (h : Kept l [] s r) (hl : mass (fun _ => 1) l = 1) (hne : l ≠ []) : s = [] := by
  cases s with
  | nil => rfl
  | cons e s =>
    have hmass := h.mass_one hl hne
    have he := (h.small e List.mem_cons_self).2
    have hle := List.sum_le_card_nsmul (s.map Prod.fst) (1 / (l.length : K)) (by
      intro x hx
      rcases List.mem_map.mp hx with ⟨e', he', rfl⟩
      exact (h.small e' (List.mem_cons_of_mem _ he')).2.le)
    rw [List.length_map, nsmul_eq_mul] at hle
    rw [List.map_cons, List.sum_cons, List.length_cons] at hmass
    push_cast [List.map_nil, List.sum_nil, List.length_nil] at hmass
    linarith

/-- An entry with too little becomes a row, with what another gives to it. -/
theorem eaten {e : K × V} (h : Kept l ((p, v) :: todo) (e :: s) r) :
    Kept l ((p - (1 / l.length - e.1), v) :: todo) s (r ++ [(e.1 * l.length, e.2, v)]) := by
  have hpos := h.pos
  have he := h.small e List.mem_cons_self
  constructor
  · have := h.count
    simp only [List.length_append, List.length_cons, List.length_nil] at this ⊢
    omega
  · exact fun e' he' => h.small e' (List.mem_cons_of_mem _ he')
  · intro row hrow
    rcases List.mem_append.mp hrow with hrow | hrow
    · exact h.inRow row hrow
    · rw [List.mem_singleton.mp hrow]
      exact ⟨mul_nonneg he.1 hpos.le, ((lt_div_iff₀ hpos).mp he.2).le⟩
  · intro φ
    rw [← h.kept φ, share_append, mass_cons, mass_cons, mass_cons]
    field_simp
    ring

theorem full (h : Kept l ((1 / (l.length : K), v) :: todo) s r) :
    Kept l todo s (r ++ [(1, v, v)]) := by
  constructor
  · have := h.count
    simp only [List.length_append, List.length_cons, List.length_nil] at this ⊢
    omega
  · exact h.small
  · intro row hrow
    rcases List.mem_append.mp hrow with hrow | hrow
    · exact h.inRow row hrow
    · rw [List.mem_singleton.mp hrow]
      exact ⟨zero_le_one, le_refl 1⟩
  · intro φ
    rw [← h.kept φ, share_append, mass_cons]
    ring

theorem slight (h : Kept l ((p, v) :: todo) s r) (hp : 0 < p) (hlt : p < 1 / (l.length : K)) :
    Kept l todo (s ++ [(p, v)]) r := by
  constructor
  · have := h.count
    simp only [List.length_append, List.length_cons, List.length_nil] at this ⊢
    omega
  · intro e he
    rcases List.mem_append.mp he with he | he
    · exact h.small e he
    · rw [List.mem_singleton.mp he]
      exact ⟨hp.le, hlt⟩
  · exact h.inRow
  · intro φ
    rw [← h.kept φ, mass_append, mass_cons, mass_cons, mass_nil]
    ring

/-- The loop over an entry leaves of it what one row holds at most. -/
theorem eat_eq (h : Kept l ((p, v) :: todo) s r) (hl : mass (fun _ => 1) l = 1) (hne : l ≠ [])
    (htodo : ∀ e ∈ todo, 1 / (l.length : K) ≤ e.1) (hp : 0 < p) :
    ∃ p' s' r', (∀ fuel ≥ s.length,
        eat (l.length : K) (1 / l.length) v fuel p s r = some (p', s', r')) ∧
      0 < p' ∧ p' ≤ 1 / (l.length : K) ∧ Kept l ((p', v) :: todo) s' r' := by
  induction s generalizing p r with
  | nil =>
    have hle : ¬1 / (l.length : K) < p := fun hlt => h.ne_nil hl hne htodo hlt rfl
    refine ⟨p, [], r, fun fuel _ => ?_, hp, not_lt.mp hle, h⟩
    cases fuel <;> rw [eat, if_neg hle]
  | cons e s ih =>
    have he := h.small e List.mem_cons_self
    by_cases hlt : 1 / (l.length : K) < p
    · rcases ih h.eaten (by linarith) with ⟨p', s', r', heat, hend⟩
      refine ⟨p', s', r', fun fuel hfuel => ?_, hend⟩
      cases fuel with
      | zero => simp at hfuel
      | succ fuel =>
        rw [eat, if_pos hlt]
        exact heat fuel (by simpa using hfuel)
    · refine ⟨p, e :: s, r, fun fuel _ => ?_, hp, not_lt.mp hlt, h⟩
      rw [eat.eq_def]
      cases fuel <;> exact if_neg hlt

/-- The loop over the entries leaves no entry that has too much. -/
theorem eatAll_eq {rest : List (K × V)} (h : Kept l (rest.filter (¬·.1 < 1 / (l.length : K))) s r)
    (hl : mass (fun _ => 1) l = 1) (hne : l ≠ []) :
    ∃ s' r', (∀ fuel ≥ l.length,
        eatAll (l.length : K) (1 / l.length) fuel rest s r = some (s', r')) ∧ Kept l [] s' r' := by
  induction rest generalizing s r with
  | nil => exact ⟨s, r, fun _ _ => rfl, h⟩
  | cons e rest ih =>
    rcases e with ⟨p, v⟩
    by_cases hlt : p < 1 / (l.length : K)
    · simp only [eatAll, if_pos hlt]
      rw [List.filter_cons_of_neg (by simpa using hlt)] at h
      exact ih h
    · rw [List.filter_cons_of_pos (by simpa using hlt)] at h
      have hpos : 0 < 1 / (l.length : K) := one_div_pos.mpr h.pos
      have hcount := h.count
      rcases h.eat_eq hl hne (fun e he => by simpa using (List.mem_filter.mp he).2)
        (hpos.trans_le (not_lt.mp hlt)) with ⟨p', s', r', heat, hp', hle, h'⟩
      have hnext : ∃ s'' r'', (∀ fuel ≥ l.length, (if p' = 1 / (l.length : K) then
            eatAll (l.length : K) (1 / l.length) fuel rest s' (r' ++ [(1, v, v)])
          else if 0 < p' then eatAll (l.length : K) (1 / l.length) fuel rest (s' ++ [(p', v)]) r'
          else eatAll (l.length : K) (1 / l.length) fuel rest s' r') = some (s'', r'')) ∧
          Kept l [] s'' r'' := by
        by_cases heq : p' = 1 / (l.length : K)
        · simp only [if_pos heq]
          exact ih (heq ▸ h').full
        · simp only [if_neg heq, if_pos hp']
          exact ih (h'.slight hp' (lt_of_le_of_ne hle heq))
      rcases hnext with ⟨s'', r'', hrun, hend⟩
      refine ⟨s'', r'', fun fuel hfuel => ?_, hend⟩
      rw [eatAll, if_neg hlt, heat fuel (by omega)]
      exact hrun fuel hfuel

end Kept

/-- For entries that come to one, the rows are as many as the entries and come to the same,
whatever values the entries stand for. -/
theorem compileChoosep_eq [IsStrictOrderedRing K] (hne : l ≠ []) (hp : ∀ e ∈ l, 0 ≤ e.1)
    (hsum : (l.map Prod.fst).sum = 1) : ∃ rows, (∀ (W : Type v) (f : V → W), ∀ fuel ≥ l.length,
        compileChoosep fuel (l.map (Prod.map id f)) = some (mapRows f rows)) ∧
      rows.length = l.length ∧ (∀ row ∈ rows, 0 ≤ row.1 ∧ row.1 ≤ 1) ∧
      ∀ φ : V → K, share φ rows * (1 / (l.length : K)) = mass φ l := by
  have hl : mass (fun _ => 1) l = 1 := by simpa [mass] using hsum
  have hperm : (l.filter (·.1 < 1 / (l.length : K)) ++
      l.filter (¬·.1 < 1 / (l.length : K))).Perm l := by
    simpa only [decide_not] using List.filter_append_perm (·.1 < 1 / (l.length : K)) l
  have hstart : Kept l (l.filter (¬·.1 < 1 / (l.length : K))) (l.filter (·.1 < 1 / (l.length : K)))
      [] := by
    constructor
    · have hlen := hperm.length_eq
      rw [List.length_append] at hlen
      rwa [List.length_nil, zero_add]
    · intro e he
      rw [List.mem_filter] at he
      exact ⟨hp e he.1, of_decide_eq_true he.2⟩
    · simp
    · intro φ
      have hmass := (hperm.map fun e => e.1 * φ e.2).sum_eq
      rw [List.map_append, List.sum_append] at hmass
      show 0 * _ + _ + _ = _
      rwa [zero_mul, zero_add]
  rcases hstart.eatAll_eq hl hne with ⟨s, r, hrun, hend⟩
  have hs := hend.eq_nil hl hne
  subst hs
  have hcount : r.length = l.length := hend.count
  refine ⟨r, fun W f fuel hfuel => ?_, hcount, hend.inRow, fun φ => ?_⟩
  · have hmap := eatAll_map (n := (l.length : K)) (u := 1 / l.length) fuel (l := l)
      (s := l.filter (·.1 < 1 / (l.length : K))) (r := []) f
    rw [hrun fuel hfuel] at hmap
    have hlen : (mapRows f r).length = l.length := by rw [mapRows, List.length_map, hcount]
    simp only [compileChoosep, List.length_map, List.filter_map]
    exact (congrArg (Option.bind · _) hmap).trans (if_pos hlen)
  · simpa using hend.kept φ

end Kept

section Volume

variable {V : Type v} {p : ℝ} {v w a : V} {rows : List (ℝ × V × V)}

/-- What a number selects, where each row has length one. -/
noncomputable def picked (y : ℝ) (rows : List (ℝ × V × V)) : Option V :=
  rows[⌊y⌋₊]?.map fun row => if y - ⌊y⌋₊ < row.1 then row.2.1 else row.2.2

theorem selectChoosep_eq {x : ℝ} (hx : x ∈ Set.Ico 0 1) (hne : rows ≠ []) :
    selectChoosep x rows = picked (x * rows.length) rows := by
  rw [selectChoosep, if_neg (by simpa using hne), if_neg hx.2.ne, if_pos ⟨hx.2.le, hx.1⟩]
  rfl

theorem picked_cons {y : ℝ} : picked y ((p, v, w) :: rows) =
    if y < 1 then some (if y < p then v else w) else picked (y + -1) rows := by
  by_cases hlt : y < 1
  · simp [picked, hlt, Nat.floor_eq_zero.mpr hlt]
  · have hfloor : ⌊y⌋₊ = ⌊y + -1⌋₊ + 1 := by
      rw [← Nat.floor_add_one (by linarith [not_lt.mp hlt]), neg_add_cancel_right]
    have hpart : y - (⌊y + -1⌋₊ + 1 : ℕ) = y + -1 - ⌊y + -1⌋₊ := by
      push_cast
      ring
    rw [picked, picked, if_neg hlt, hfloor, hpart]
    rfl

variable [DecidableEq V]

theorem volume_row (hp : 0 ≤ p ∧ p ≤ 1) :
    MeasurableSet {y : ℝ | y ∈ Set.Ico 0 1 ∧ (if y < p then v else w) = a} ∧
    volume {y : ℝ | y ∈ Set.Ico 0 1 ∧ (if y < p then v else w) = a} =
      ENNReal.ofReal (p * (if v = a then 1 else 0) + (1 - p) * (if w = a then 1 else 0)) := by
  have hset : {y : ℝ | y ∈ Set.Ico 0 1 ∧ (if y < p then v else w) = a} =
      Set.Ico (if v = a then 0 else p) (if w = a then 1 else p) := by
    ext y
    by_cases hv : v = a <;> by_cases hw : w = a <;> simp [hv, hw] <;> grind
  rw [hset, Real.volume_Ico]
  refine ⟨measurableSet_Ico, congrArg _ ?_⟩
  split_ifs <;> ring

theorem share_nonneg (h : ∀ row ∈ rows, 0 ≤ row.1 ∧ row.1 ≤ 1) :
    0 ≤ share (fun v => if v = w then 1 else 0) rows := by
  apply List.sum_nonneg
  intro x hx
  rcases List.mem_map.mp hx with ⟨row, hrow, rfl⟩
  have := (h row hrow).1
  have := sub_nonneg.mpr (h row hrow).2
  positivity

theorem volume_picked (h : ∀ row ∈ rows, 0 ≤ row.1 ∧ row.1 ≤ 1) :
    MeasurableSet {y : ℝ | 0 ≤ y ∧ picked y rows = some w} ∧
    volume {y : ℝ | 0 ≤ y ∧ picked y rows = some w} =
      ENNReal.ofReal (share (fun v => if v = w then 1 else 0) rows) := by
  induction rows with
  | nil => simp [picked, share]
  | cons row rows ih =>
    rcases row with ⟨p, v₁, v₂⟩
    have hp := h _ List.mem_cons_self
    rcases volume_row (a := w) (v := v₁) (w := v₂) hp with ⟨hrow, hvolume⟩
    rcases ih fun row hrow => h row (List.mem_cons_of_mem _ hrow) with ⟨hrest, hvolume'⟩
    have hset : {y : ℝ | 0 ≤ y ∧ picked y ((p, v₁, v₂) :: rows) = some w} =
        {y : ℝ | y ∈ Set.Ico 0 1 ∧ (if y < p then v₁ else v₂) = w} ∪
          Set.preimage (fun y => y + -1) {y : ℝ | 0 ≤ y ∧ picked y rows = some w} := by
      ext y
      by_cases hy : 0 ≤ y
      · by_cases hlt : y < 1
        · simp [picked_cons, hy, hlt]
        · simp [picked_cons, hy, hlt, not_lt.mp hlt]
      · simp [hy, (not_le.mp hy).trans one_pos]
    have hrest' : MeasurableSet (Set.preimage (fun y => y + -1)
        {y : ℝ | 0 ≤ y ∧ picked y rows = some w}) := (measurable_add_const (-1)) hrest
    have hdisjoint : Disjoint {y : ℝ | y ∈ Set.Ico 0 1 ∧ (if y < p then v₁ else v₂) = w}
        (Set.preimage (fun y => y + -1) {y : ℝ | 0 ≤ y ∧ picked y rows = some w}) := by
      apply Set.disjoint_left.mpr
      intro y hy hy'
      have h0 : 0 ≤ y + -1 := hy'.1
      linarith [hy.1.2]
    refine ⟨hset ▸ hrow.union hrest', ?_⟩
    rw [hset, measure_union hdisjoint hrest', hvolume, measure_preimage_add_right, hvolume',
      ← ENNReal.ofReal_add]
    · rfl
    · have := sub_nonneg.mpr hp.2
      have := hp.1
      positivity
    · exact share_nonneg fun row hrow => h row (List.mem_cons_of_mem _ hrow)

theorem volume_select (hne : rows ≠ []) (h : ∀ row ∈ rows, 0 ≤ row.1 ∧ row.1 ≤ 1) :
    volume {x : ℝ | x ∈ Set.Ico 0 1 ∧ selectChoosep x rows = some w} =
      ENNReal.ofReal (share (fun v => if v = w then 1 else 0) rows * (1 / (rows.length : ℝ))) := by
  have hpos : (0 : ℝ) < rows.length := Nat.cast_pos.mpr (List.length_pos_iff.mpr hne)
  have hset : {x : ℝ | x ∈ Set.Ico 0 1 ∧ selectChoosep x rows = some w} =
      Set.preimage (· * (rows.length : ℝ)) {y : ℝ | 0 ≤ y ∧ picked y rows = some w} := by
    ext x
    constructor
    · rintro ⟨hx, hselect⟩
      exact ⟨mul_nonneg hx.1 hpos.le, selectChoosep_eq hx hne ▸ hselect⟩
    · rintro ⟨hx, hpicked⟩
      have hx0 : 0 ≤ x := nonneg_of_mul_nonneg_left hx hpos
      have hx1 : x < 1 := by
        by_contra hge
        have hout : rows.length ≤ ⌊x * rows.length⌋₊ :=
          Nat.le_floor (le_mul_of_one_le_left hpos.le (not_lt.mp hge))
        rw [picked, List.getElem?_eq_none hout] at hpicked
        cases hpicked
      exact ⟨⟨hx0, hx1⟩, selectChoosep_eq ⟨hx0, hx1⟩ hne ▸ hpicked⟩
  rw [hset, Real.volume_preimage_mul_right hpos.ne', (volume_picked h).2, mul_comm (share _ _),
    ENNReal.ofReal_mul (by positivity), abs_of_pos (inv_pos.mpr hpos), one_div]

end Volume

section Placed

variable {V : Type v} {l : List (ℝ × V)} {p : ℝ} {v : V} {k : ℕ}

/-- The entries with their places, so that those with one value are told apart. -/
def placed (l : List (ℝ × V)) : List (ℝ × V × ℕ) := l.zipIdx.map fun e => (e.1.1, e.1.2, e.2)

theorem map_placed (l : List (ℝ × V)) : (placed l).map (Prod.map id Prod.fst) = l := by
  rw [placed, List.map_map]
  exact List.zipIdx_map_fst 0 l

theorem mass_zipIdx [DecidableEq (V × ℕ)] (h : l[k]? = some (p, v)) (n : ℕ) :
    mass (fun e => if e = (v, n + k) then 1 else 0)
      ((l.zipIdx n).map fun e => (e.1.1, e.1.2, e.2)) = p := by
  induction l generalizing k n with
  | nil => cases h
  | cons e l ih =>
    rw [List.zipIdx_cons, List.map_cons, mass_cons]
    cases k with
    | zero =>
      cases h
      show p * (if (v, n) = (v, n) then 1 else 0) + _ = p
      rw [if_pos rfl, mul_one, add_eq_left, mass, List.map_map]
      apply List.sum_eq_zero
      intro x hx
      rcases List.mem_map.mp hx with ⟨e, he, rfl⟩
      have := List.le_snd_of_mem_zipIdx he
      simp
      omega
    | succ k =>
      have hne : ¬(e.2, n) = (v, n + (k + 1)) := by simp
      rw [if_neg hne, mul_zero, zero_add, ← ih h (n + 1), Nat.add_right_comm]
      rfl

/-- **`compile_choosep`** returns as many rows as there are entries, and each entry is selected
by numbers that come to its probability. -/
theorem compileChoosep_exact {V : Type v} {l : List (ℝ × V)} (hne : l ≠ [])
    (hp : ∀ e ∈ l, 0 ≤ e.1) (hsum : (l.map Prod.fst).sum = 1) :
    ∃ rows, (∀ fuel ≥ l.length, compileChoosep fuel (placed l) = some rows ∧
        compileChoosep fuel l = some (mapRows Prod.fst rows)) ∧ rows.length = l.length ∧
      (∀ x ∈ Set.Ico (0 : ℝ) 1, selectChoosep x (mapRows Prod.fst rows) =
        (selectChoosep x rows).map Prod.fst) ∧
      ∀ k p v, l[k]? = some (p, v) →
        volume {x : ℝ | x ∈ Set.Ico 0 1 ∧ selectChoosep x rows = some (v, k)} =
          ENNReal.ofReal p := by
  classical
  have hlen : (placed l).length = l.length := by simp [placed]
  have hfst : (placed l).map Prod.fst = l.map Prod.fst := by
    rw [← congrArg (List.map Prod.fst) (map_placed l), List.map_map]
    rfl
  have hp' : ∀ e ∈ placed l, 0 ≤ e.1 := fun e he =>
    hp _ (map_placed l ▸ List.mem_map_of_mem he)
  rcases compileChoosep_eq (by rwa [← List.length_pos_iff, hlen, List.length_pos_iff]) hp'
    (by rwa [hfst]) with ⟨rows, hrun, hrows, hin, hmass⟩
  rw [hlen] at hrun hrows hmass
  have hrows' : rows ≠ [] := by rwa [← List.length_pos_iff, hrows, List.length_pos_iff]
  refine ⟨rows, fun fuel hfuel => ⟨?_, ?_⟩, hrows, ?_, ?_⟩
  · simpa [mapRows] using hrun _ id fuel hfuel
  · simpa only [map_placed] using hrun _ Prod.fst fuel hfuel
  · intro x hx
    rw [selectChoosep_eq hx hrows', selectChoosep_eq hx (by simpa [mapRows] using hrows'), picked,
      picked, mapRows, List.length_map, List.getElem?_map, Option.map_map, Option.map_map]
    apply congrArg (Option.map · _)
    funext row
    exact (apply_ite Prod.fst ..).symm
  · intro k p v h
    rw [volume_select hrows' hin, hrows, hmass]
    have hp := mass_zipIdx h 0
    rw [zero_add] at hp
    exact congrArg ENNReal.ofReal hp

theorem compileChoosep_exact_three : ∃ rows,
    compileChoosep 3 [((1 / 2 : ℝ), 'a'), (1 / 4, 'b'), (1 / 4, 'a')] = some rows ∧
      rows.length = 3 := by
  rcases compileChoosep_exact (l := [((1 / 2 : ℝ), 'a'), (1 / 4, 'b'), (1 / 4, 'a')]) (by simp)
    (by norm_num) (by norm_num) with ⟨rows, hrun, hlen, -⟩
  exact ⟨_, (hrun 3 (by simp)).2, by rw [mapRows, List.length_map, hlen]; rfl⟩

end Placed

end Carmel.Random
