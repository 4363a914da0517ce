/-
# What expected counts gain

Objects are drawn by weighted choices. Let every weight be changed, and let each choice be
counted as often as it is expected in an example. Then the logarithm of the probability of
the examples grows at least as much as the counts gain; and a group of choices gains whose
new weights are proportional to its counts.
-/

import Carmel.Math.PathSums

namespace Carmel.Math

universe u

open Real

variable {E : Type u} {label : E → ℕ} {n : ℕ} {v v' : ℕ → ℝ}

/-- The factor by which a change of the weights changes the weight of a path. -/
theorem log_prod_sub_log_prod {p : List E} (hlabel : ∀ e ∈ p, label e < n)
    (hv : ∀ e ∈ p, 0 < v (label e)) (hv' : ∀ e ∈ p, 0 < v' (label e)) :
    0 < (p.map fun e => v (label e)).prod ∧ 0 < (p.map fun e => v' (label e)).prod ∧
      log (p.map fun e => v' (label e)).prod - log (p.map fun e => v (label e)).prod =
        ∑ k ∈ Finset.range n, (p.countP (label · = k) : ℝ) * (log (v' k) - log (v k)) := by
  induction p with
  | nil => simp
  | cons e p ih =>
    rw [List.forall_mem_cons] at hlabel hv hv'
    obtain ⟨hpos, hpos', hlog⟩ := ih hlabel.2 hv.2 hv'.2
    have hsum : ∑ k ∈ Finset.range n, ((e :: p).countP (label · = k) : ℝ) * (log (v' k) - log (v k)) =
        ∑ k ∈ Finset.range n, (p.countP (label · = k) : ℝ) * (log (v' k) - log (v k)) +
          (log (v' (label e)) - log (v (label e))) := by
      have hhead : ∑ k ∈ Finset.range n, (if label e = k then log (v' k) - log (v k) else 0) =
          log (v' (label e)) - log (v (label e)) := by
        rw [Finset.sum_ite_eq, if_pos (Finset.mem_range.mpr hlabel.1)]
      rw [← hhead, ← Finset.sum_add_distrib]
      refine Finset.sum_congr rfl fun k _ => ?_
      rw [List.countP_cons]
      by_cases hk : label e = k
      · simp [hk, add_mul]
      · simp [hk]
    simp only [List.map_cons, List.prod_cons]
    refine ⟨mul_pos hv.1 hpos, mul_pos hv'.1 hpos', ?_⟩
    rw [hsum, ← hlog, log_mul hv'.1.ne' hpos'.ne', log_mul hv.1.ne' hpos.ne']
    ring

/-- What a part of a sum gains, where the parts and the sum become others. -/
theorem mul_log_sub_log_le {a a' Z Z' : ℝ} (ha : 0 < a) (ha' : 0 < a') (hZ : 0 < Z) (hZ' : 0 < Z') :
    a * (log a' - log a) ≤ a * (log Z' - log Z) + (a' * Z / Z' - a) := by
  have h := log_le_sub_one_of_pos (div_pos (mul_pos ha' hZ) (mul_pos ha hZ'))
  rw [log_div (mul_pos ha' hZ).ne' (mul_pos ha hZ').ne', log_mul ha'.ne' hZ.ne',
    log_mul ha.ne' hZ'.ne'] at h
  have hmul := mul_le_mul_of_nonneg_left h ha.le
  have hcancel : a * (a' * Z / (a * Z') - 1) = a' * Z / Z' - a := by
    field_simp
  rw [hcancel] at hmul
  linarith

/-- Sums in another ring. -/
theorem PathSums.map {R S : Type*} [CommSemiring R] [CommSemiring S] (f : R →+* S)
    {IsPath : List E → Prop} {wt : E → R} {Z : R} {C : ℕ → R} (h : PathSums IsPath wt label Z C) :
    PathSums IsPath (fun e => f (wt e)) label (f Z) fun k => f (C k) := by
  obtain ⟨P, hP, rfl, hC⟩ := h
  refine ⟨P, hP, ?_, fun k => ?_⟩
  · simp only [map_sum, map_list_prod, List.map_map]
    rfl
  · simp only [hC, map_sum, map_mul, map_list_prod, List.map_map, map_natCast]
    rfl

/-- A choice that is expected has weight. -/
theorem PathSums.exists_ne_zero {R : Type*} [CommSemiring R] {IsPath : List E → Prop} {wt : E → R}
    {Z : R} {C : ℕ → R} (h : PathSums IsPath wt label Z C) {k : ℕ} (hk : C k ≠ 0) :
    ∃ p e, IsPath p ∧ e ∈ p ∧ label e = k ∧ wt e ≠ 0 := by
  obtain ⟨P, hP, -, hC⟩ := h
  rw [hC] at hk
  obtain ⟨p, hp, hne⟩ := Finset.exists_ne_zero_of_sum_ne_zero hk
  have hcount : p.countP (label · = k) ≠ 0 := by
    intro hzero
    rw [hzero, Nat.cast_zero, mul_zero] at hne
    exact hne rfl
  obtain ⟨e, he, hlabel⟩ := List.countP_pos_iff.mp (Nat.pos_of_ne_zero hcount)
  refine ⟨p, e, (hP p).mp hp, he, of_decide_eq_true hlabel, fun hzero => ?_⟩
  rw [List.prod_eq_zero (List.mem_map.mpr ⟨e, he, hzero⟩), zero_mul] at hne
  exact hne rfl

variable (v v') in
/-- **One example.** Its probability gains as much as the expected counts do. -/
theorem PathSums.expected_gain_le {IsPath : List E → Prop} {Z Z' : ℝ} {C C' : ℕ → ℝ}
    (hsums : PathSums IsPath (fun e => v (label e)) label Z C)
    (hsums' : PathSums IsPath (fun e => v' (label e)) label Z' C')
    (hlabel : ∀ p, IsPath p → ∀ e ∈ p, label e < n) (hv : ∀ k, 0 ≤ v k) (hv' : ∀ k, 0 ≤ v' k)
    (hZ : 0 < Z) (hused : ∀ k, C k ≠ 0 → 0 < v' k) :
    0 < Z' ∧ ∑ k ∈ Finset.range n, C k / Z * (log (v' k) - log (v k)) ≤ log Z' - log Z := by
  obtain ⟨P, hP, hZsum, hC⟩ := hsums
  obtain ⟨P', hP', hZsum', -⟩ := hsums'
  obtain rfl : P = P' := Finset.ext fun p => (hP p).trans (hP' p).symm
  have hnonneg : ∀ w : ℕ → ℝ, (∀ k, 0 ≤ w k) → ∀ p : List E, 0 ≤ (p.map fun e => w (label e)).prod :=
    fun w hw p => List.prod_nonneg (by simpa using fun e _ => hw (label e))
  -- a path that has some weight has some after the change
  have hpath : ∀ p ∈ P, (p.map fun e => v (label e)).prod ≠ 0 →
      0 < (p.map fun e => v (label e)).prod ∧ 0 < (p.map fun e => v' (label e)).prod ∧
        log (p.map fun e => v' (label e)).prod - log (p.map fun e => v (label e)).prod =
          ∑ k ∈ Finset.range n, (p.countP (label · = k) : ℝ) * (log (v' k) - log (v k)) := by
    intro p hp hne
    have hpos : ∀ e ∈ p, 0 < v (label e) := fun e he => lt_of_le_of_ne (hv _) fun hzero =>
      hne (List.prod_eq_zero (List.mem_map.mpr ⟨e, he, hzero.symm⟩))
    refine log_prod_sub_log_prod (hlabel p ((hP p).mp hp)) hpos fun e he => hused _ ?_
    rw [hC, ne_eq, Finset.sum_eq_zero_iff_of_nonneg
      fun q _ => mul_nonneg (hnonneg v hv q) (Nat.cast_nonneg _)]
    intro hzero
    have hcount : 0 < p.countP (label · = label e) := List.countP_pos_iff.mpr ⟨e, he, by simp⟩
    exact mul_ne_zero hne (Nat.cast_ne_zero.mpr hcount.ne') (hzero p hp)
  have hZ' : 0 < Z' := by
    obtain ⟨p, hp, hne⟩ := Finset.exists_ne_zero_of_sum_ne_zero (hZsum ▸ hZ.ne')
    rw [hZsum']
    exact Finset.sum_pos' (fun q _ => hnonneg v' hv' q) ⟨p, hp, (hpath p hp hne).2.1⟩
  refine ⟨hZ', ?_⟩
  have hgain : ∑ k ∈ Finset.range n, C k * (log (v' k) - log (v k)) ≤ Z * (log Z' - log Z) :=
    calc ∑ k ∈ Finset.range n, C k * (log (v' k) - log (v k))
        = ∑ p ∈ P, (p.map fun e => v (label e)).prod *
            ∑ k ∈ Finset.range n, (p.countP (label · = k) : ℝ) * (log (v' k) - log (v k)) := by
          simp only [hC, Finset.sum_mul, Finset.mul_sum, mul_assoc]
          exact Finset.sum_comm
      _ ≤ ∑ p ∈ P, ((p.map fun e => v (label e)).prod * (log Z' - log Z) +
            ((p.map fun e => v' (label e)).prod * Z / Z' - (p.map fun e => v (label e)).prod)) := by
          refine Finset.sum_le_sum fun p hp => ?_
          by_cases hne : (p.map fun e => v (label e)).prod = 0
          · rw [hne, zero_mul, zero_mul, zero_add, sub_zero]
            exact div_nonneg (mul_nonneg (hnonneg v' hv' p) hZ.le) hZ'.le
          · obtain ⟨hpos, hpos', hlog⟩ := hpath p hp hne
            rw [← hlog]
            exact mul_log_sub_log_le hpos hpos' hZ hZ'
      _ = Z * (log Z' - log Z) := by
          rw [Finset.sum_add_distrib, Finset.sum_sub_distrib, ← Finset.sum_mul, ← Finset.sum_div,
            ← Finset.sum_mul, ← hZsum, ← hZsum', mul_div_cancel_left₀ _ hZ'.ne', sub_self, add_zero]
  calc ∑ k ∈ Finset.range n, C k / Z * (log (v' k) - log (v k))
      = (∑ k ∈ Finset.range n, C k * (log (v' k) - log (v k))) / Z := by
        rw [Finset.sum_div]
        exact Finset.sum_congr rfl fun k _ => div_mul_eq_mul_div _ _ _
    _ ≤ log Z' - log Z := (div_le_iff₀' hZ).mpr hgain

/-- **One choice** whose new weight is proportional to its count. -/
theorem sub_le_mul_log_sub_log {scale count a a' : ℝ} (hcount : count = scale * a')
    (hscale : 0 ≤ scale) (ha : 0 ≤ a) (ha' : 0 ≤ a') (hused : count ≠ 0 → a ≠ 0) :
    scale * (a' - a) ≤ count * (log a' - log a) := by
  by_cases hzero : count = 0
  · rw [hzero, zero_mul]
    rw [hcount] at hzero
    rw [mul_sub, hzero, zero_sub]
    exact neg_nonpos.mpr (mul_nonneg hscale ha)
  · have hpos : 0 < a := lt_of_le_of_ne ha (hused hzero).symm
    have hpos' : 0 < a' := lt_of_le_of_ne ha' fun h => hzero (by rw [hcount, ← h, mul_zero])
    have hlog := log_le_sub_one_of_pos (div_pos hpos hpos')
    rw [log_div hpos.ne' hpos'.ne'] at hlog
    have hmul := mul_le_mul_of_nonneg_left hlog (mul_nonneg hscale hpos'.le)
    have hcancel : scale * a' * (a / a' - 1) = scale * (a - a') := by
      field_simp
    rw [hcancel] at hmul
    rw [hcount]
    linarith

end Carmel.Math
