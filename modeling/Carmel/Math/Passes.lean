/-
# Loops that draw a choice in every pass

A loop goes on until one of its passes returns. Every pass gets a choice of its own,
the pass `k` the choice `k`. What the loop returns is what the first pass to return
does, and the loop gets there through the states after the passes before.
-/

import Carmel.Math.Instances

namespace Carmel.Math

universe u v w

/-- What a pass comes to: the loop goes on, or returns. -/
inductive Pass (S : Type u) (R : Type v)
  | again (s : S)
  | done (r : R)

variable {S : Type u} {R : Type v} {C : Type w} (step : S → C → Pass S R) (c : ℕ → C)

/-- The loop from pass `k` on, for a number of passes at most. -/
def loopFrom : ℕ → ℕ → S → Option R
  | 0, _, _ => none
  | fuel + 1, k, s =>
    match step s (c k) with
    | .again s => loopFrom fuel (k + 1) s
    | .done r => some r

/-- The loop returns. -/
def LoopReturns (s : S) (r : R) : Prop := ∃ fuel, loopFrom step c fuel 0 s = some r

/-- The state after the first `k` passes, if none of them returns. -/
def after (s : S) : ℕ → Option S
  | 0 => some s
  | k + 1 =>
    match after s k with
    | none => none
    | some s =>
      match step s (c k) with
      | .again s => some s
      | .done _ => none

variable {step c} {s s' : S} {r r' : R} {k : ℕ}

theorem after_succ_eq_some_iff :
    after step c s (k + 1) = some s' ↔ ∃ t, after step c s k = some t ∧ step t (c k) = .again s' := by
  rw [after]
  cases after step c s k with
  | none => simp
  | some t =>
    simp only [Option.some.injEq, exists_eq_left']
    cases step t (c k) <;> simp

/-- A loop that has gone through some passes is a loop from there. -/
theorem loopFrom_add (h : after step c s k = some s') (fuel : ℕ) :
    loopFrom step c (k + fuel) 0 s = loopFrom step c fuel k s' := by
  induction k generalizing s' fuel with
  | zero =>
    obtain rfl := Option.some.inj h
    rw [Nat.zero_add]
  | succ k ih =>
    obtain ⟨t, ht, hstep⟩ := after_succ_eq_some_iff.mp h
    rw [Nat.add_right_comm, Nat.add_assoc, ih ht, loopFrom, hstep]

theorem loopFrom_of_done {fuel : ℕ} (h : after step c s k = some s')
    (hstep : step s' (c k) = .done r) (hlt : k < fuel) : loopFrom step c fuel 0 s = some r := by
  obtain ⟨rest, rfl⟩ := Nat.exists_eq_add_of_lt hlt
  rw [Nat.add_assoc, loopFrom_add h, loopFrom, hstep]

theorem loopReturns_of_done (h : after step c s k = some s') (hstep : step s' (c k) = .done r) :
    LoopReturns step c s r :=
  ⟨k + 1, loopFrom_of_done h hstep (Nat.lt_succ_self k)⟩

theorem exists_done_of_loopFrom {fuel : ℕ} {t : S} (ht : after step c s k = some t)
    (h : loopFrom step c fuel k t = some r) :
    ∃ k' s', k ≤ k' ∧ after step c s k' = some s' ∧ step s' (c k') = .done r := by
  induction fuel generalizing k t with
  | zero => cases h
  | succ fuel ih =>
    rw [loopFrom] at h
    cases hstep : step t (c k) with
    | again t' =>
      rw [hstep] at h
      obtain ⟨k', s', hle, hafter, hdone⟩ := ih (after_succ_eq_some_iff.mpr ⟨t, ht, hstep⟩) h
      exact ⟨k', s', (Nat.le_succ k).trans hle, hafter, hdone⟩
    | done r' =>
      rw [hstep] at h
      obtain rfl := Option.some.inj h
      exact ⟨k, t, le_rfl, ht, hstep⟩

theorem after_ne_none_of_le {j : ℕ} (hle : j ≤ k) (h : after step c s k = some s') :
    ∃ t, after step c s j = some t := by
  induction k generalizing s' with
  | zero =>
    rw [Nat.le_zero.mp hle]
    exact ⟨s, rfl⟩
  | succ k ih =>
    rcases Nat.le_succ_iff.mp hle with hle | rfl
    · obtain ⟨t, ht, -⟩ := after_succ_eq_some_iff.mp h
      exact ih hle ht
    · exact ⟨s', h⟩

theorem after_congr {c' : ℕ → C} (h : ∀ i < k, c i = c' i) : after step c s k = after step c' s k := by
  induction k with
  | zero => rfl
  | succ k ih =>
    rw [after, after, ih fun i hi => h i (Nat.lt_succ_of_lt hi), h k (Nat.lt_succ_self k)]

/-- **The loop returns what its first returning pass returns.** -/
theorem loopReturns_iff :
    LoopReturns step c s r ↔ ∃ k s', after step c s k = some s' ∧ step s' (c k) = .done r := by
  constructor
  · rintro ⟨fuel, h⟩
    obtain ⟨k, s', -, hafter, hdone⟩ := exists_done_of_loopFrom rfl h
    exact ⟨k, s', hafter, hdone⟩
  · rintro ⟨k, s', hafter, hdone⟩
    exact loopReturns_of_done hafter hdone

theorem done_unique {k' : ℕ} {t t' : S} (h : after step c s k = some t)
    (hdone : step t (c k) = .done r) (h' : after step c s k' = some t')
    (hdone' : step t' (c k') = .done r') : k = k' := by
  have hlt : ∀ {i j : ℕ} {t t' : S} {r : R}, after step c s i = some t → step t (c i) = .done r →
      after step c s j = some t' → j ≤ i := by
    intro i j t t' r hi hdone hj
    by_contra hij
    obtain ⟨d, rfl⟩ : ∃ d, j = i + 1 + d := ⟨j - (i + 1), by lia⟩
    clear hij
    induction d generalizing t' with
    | zero =>
      obtain ⟨u, hu, hstep⟩ := after_succ_eq_some_iff.mp hj
      obtain rfl := Option.some.inj (hu.symm.trans hi)
      rw [hdone] at hstep
      cases hstep
    | succ d ih =>
      obtain ⟨u, hu, -⟩ := after_succ_eq_some_iff.mp hj
      exact ih hu
  exact le_antisymm (hlt h' hdone' h) (hlt h hdone h')

theorem LoopReturns.unique (h : LoopReturns step c s r) (h' : LoopReturns step c s r') : r = r' := by
  obtain ⟨k, t, ht, hdone⟩ := loopReturns_iff.mp h
  obtain ⟨k', t', ht', hdone'⟩ := loopReturns_iff.mp h'
  obtain rfl := done_unique ht hdone ht' hdone'
  obtain rfl := Option.some.inj (ht.symm.trans ht')
  rw [hdone] at hdone'
  cases hdone'
  rfl

/-- Passes that are not reached come after one that returns. -/
theorem exists_done_of_after_eq_none (h : after step c s k = none) :
    ∃ j < k, ∃ t r, after step c s j = some t ∧ step t (c j) = .done r := by
  induction k with
  | zero => cases h
  | succ k ih =>
    cases ht : after step c s k with
    | none =>
      obtain ⟨j, hlt, hdone⟩ := ih ht
      exact ⟨j, Nat.lt_succ_of_lt hlt, hdone⟩
    | some t =>
      cases hstep : step t (c k) with
      | again t' =>
        rw [after_succ_eq_some_iff.mpr ⟨t, ht, hstep⟩] at h
        cases h
      | done r => exact ⟨k, Nat.lt_succ_self k, t, r, ht, hstep⟩

/-- A loop returns when it runs out of passes that go on. -/
theorem exists_loopReturns_iff : (∃ r, LoopReturns step c s r) ↔ ∃ k, after step c s k = none := by
  constructor
  · rintro ⟨r, h⟩
    obtain ⟨k, t, ht, hdone⟩ := loopReturns_iff.mp h
    refine ⟨k + 1, Option.eq_none_iff_forall_ne_some.mpr fun t' ht' => ?_⟩
    obtain ⟨u, hu, hagain⟩ := after_succ_eq_some_iff.mp ht'
    obtain rfl := Option.some.inj (ht.symm.trans hu)
    rw [hdone] at hagain
    cases hagain
  · rintro ⟨k, h⟩
    obtain ⟨j, -, t, r, ht, hdone⟩ := exists_done_of_after_eq_none h
    exact ⟨r, loopReturns_of_done ht hdone⟩

theorem loopFrom_eq_none_iff {fuel : ℕ} :
    loopFrom step c fuel 0 s = none ↔ ∃ t, after step c s fuel = some t := by
  constructor
  · intro h
    apply Option.ne_none_iff_exists'.mp
    intro hnone
    obtain ⟨j, hlt, t, r, ht, hdone⟩ := exists_done_of_after_eq_none hnone
    rw [loopFrom_of_done ht hdone hlt] at h
    cases h
  · rintro ⟨t, ht⟩
    have hrest := loopFrom_add ht 0
    rwa [Nat.add_zero] at hrest

theorem after_induction {P : ℕ → S → Prop} (h0 : P 0 s)
    (hstep : ∀ k t t', after step c s k = some t → P k t → step t (c k) = .again t' → P (k + 1) t')
    (h : after step c s k = some s') : P k s' := by
  induction k generalizing s' with
  | zero =>
    obtain rfl := Option.some.inj h
    exact h0
  | succ k ih =>
    obtain ⟨t, ht, hagain⟩ := after_succ_eq_some_iff.mp h
    exact hstep k t s' ht (ih ht) hagain

end Carmel.Math
