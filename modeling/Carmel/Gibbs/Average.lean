/-
# Averaged counts

A count over time is kept by its value, the time of its last change and the sum until then.
Time stands still during burn-in; then each iteration takes one unit. At the end the sum is
extended by one unit, so that each sample from the end of burn-in on has counted once.
-/

import Carmel.Gibbs.Balance

namespace Carmel

open Math

universe u

variable {F : Type u} [Field F] [LinearOrder F] [IsStrictOrderedRing F] {n nnorm nb m : ℕ}

namespace GibbsBase

variable {o : GibbsOpts F} {imp : GibbsImp F n nb m} {s t : GibbsBase F n nnorm nb m} {A : Fin n → F}

theorem timeOf_of_le {i : ℕ} (h : o.burnin ≤ i) : timeOf o i = ((i - o.burnin : ℕ) : F) := by
  have hle : (o.burnin : F) ≤ i := Nat.cast_le.mpr h
  rw [timeOf, if_neg (by linarith), Nat.cast_sub h]

theorem timeOf_of_ge {i : ℕ} (h : i ≤ o.burnin) : timeOf o i = (0 : F) := by
  have hle : (i : F) ≤ o.burnin := Nat.cast_le.mpr h
  rcases hle.lt_or_eq with hlt | heq
  · rw [timeOf, if_pos (by linarith)]
  · rw [timeOf, heq, sub_self, if_neg (lt_irrefl 0)]

/-- The time that an iteration takes. -/
theorem timeOf_succ (i : ℕ) : timeOf o (i + 1) = timeOf o i + if o.burnin ≤ i then (1 : F) else 0 := by
  by_cases h : o.burnin ≤ i
  · rw [if_pos h, timeOf_of_le h, timeOf_of_le (h.trans i.le_succ), Nat.succ_sub h, Nat.cast_succ]
  · rw [if_neg h, timeOf_of_ge (by omega), timeOf_of_ge (by omega), add_zero]

/-! ## What stays the same in an iteration -/

variable (s t) in
/-- Neither the parameters nor the time nor the samples of earlier iterations change. -/
structure Kept : Prop where
  norm : ∀ i, (t.gps i).norm = (s.gps i).norm
  prior : ∀ i, (t.gps i).prior = (s.gps i).prior
  iter : t.iter = s.iter
  time : t.time = s.time
  samples : t.samples = s.samples

omit [Field F] [LinearOrder F] [IsStrictOrderedRing F] in
theorem Kept.trans {u : GibbsBase F n nnorm nb m} (h : s.Kept t) (h' : t.Kept u) : s.Kept u :=
  ⟨fun i => (h'.norm i).trans (h.norm i), fun i => (h'.prior i).trans (h.prior i),
    h'.iter.trans h.iter, h'.time.trans h.time, h'.samples.trans h.samples⟩

section

omit [IsStrictOrderedRing F]

theorem kept_addc (b : BlockDelta F n) (scale : F) (s : GibbsBase F n nnorm nb m) :
    s.Kept (s.addc o b scale) :=
  List.foldlRecOn (motive := fun t => s.Kept t) _ _ ⟨fun _ => rfl, fun _ => rfl, rfl, rfl, rfl⟩
    fun _ ht _ _ => ht.trans
      ⟨fun _ => addcParam_norm .., fun _ => addcParam_prior .., rfl, rfl, rfl⟩

theorem kept_iterateBlock (x : F × GibbsBase F n nnorm nb m) (r : ℕ) (randomize : Bool) (b : Fin nb) :
    x.2.Kept (iterateBlock o imp r randomize x b).2 := by
  have hbegin : x.2.Kept (x.2.beginBlock o imp b) := by
    rw [beginBlock]
    split_ifs
    · exact ⟨fun _ => rfl, fun _ => rfl, rfl, rfl, rfl⟩
    · have hsub := kept_addc (o := o) (x.2.sample b) (-imp.blockWeight b) x.2
      exact ⟨hsub.norm, hsub.prior, hsub.iter, hsub.time, hsub.samples⟩
  obtain ⟨bd, c, hblock⟩ := iterateBlock_snd o imp r randomize x b
  have hset : x.2.Kept ({ x.2.beginBlock o imp b with cache := c }.setBlock b bd) :=
    ⟨hbegin.norm, hbegin.prior, hbegin.iter, hbegin.time, hbegin.samples⟩
  rw [hblock]
  refine Kept.trans ?_ (kept_addc bd (imp.blockWeight b) _)
  split_ifs
  · exact hset.trans (kept_addc (x.2.sample b) (-imp.blockWeight b) _)
  · exact hset

variable (o imp) in
theorem kept_iterateBlocks (r : ℕ) (randomize : Bool) (s : GibbsBase F n nnorm nb m) :
    s.Kept (s.iterateBlocks o imp r randomize).2 := by
  refine List.foldlRecOn (motive := fun x : F × GibbsBase F n nnorm nb m => s.Kept x.2) _ _ ?_
    fun x hx b _ => hx.trans (kept_iterateBlock x r randomize b)
  rw [resetCache]
  split_ifs <;> exact ⟨fun _ => rfl, fun _ => rfl, rfl, rfl, rfl⟩

end

/-! ## What has been summed up -/

variable (s A) in
/-- The sums up to now are known, and no change lies in the future. -/
structure Accrued : Prop where
  tmax_le : ∀ i, (s.gps i).norm ≠ none → (s.gps i).sumcount.tmax ≤ s.time
  integral : ∀ i, (s.gps i).norm ≠ none → (s.gps i).sumcount.integral s.time = A i

theorem accrued_addcParam (h : s.Accrued A) (i : Fin n) (d : F) : (s.addcParam i d).Accrued A := by
  constructor
  · intro j hj
    rw [addcParam_norm] at hj
    rw [addcParam_sumcount hj]
    split_ifs
    · exact (DeltaSum.tmax_addDelta d (h.tmax_le j hj)).le
    · exact h.tmax_le j hj
  · intro j hj
    rw [addcParam_norm] at hj
    rw [addcParam_sumcount hj]
    split_ifs
    · have hnow : (s.addcParam i d).time = s.time := rfl
      rw [hnow, DeltaSum.integral_addDelta, sub_self, mul_zero, add_zero, h.integral j hj]
    · exact h.integral j hj

theorem accrued_addc (h : s.Accrued A) (b : BlockDelta F n) (scale : F) :
    (s.addc o b scale).Accrued A :=
  List.foldlRecOn (motive := fun t => Accrued t A) _ _ h fun _ ht u _ => accrued_addcParam ht u.1 _

/-- A block leaves and comes back at one time. -/
theorem accrued_iterateBlock {x : F × GibbsBase F n nnorm nb m} (h : x.2.Accrued A) (r : ℕ)
    (randomize : Bool) (b : Fin nb) : (iterateBlock o imp r randomize x b).2.Accrued A := by
  have hbegin : (x.2.beginBlock o imp b).Accrued A := by
    rw [beginBlock]
    split_ifs
    · exact ⟨h.tmax_le, h.integral⟩
    · have hsub := accrued_addc (o := o) h (x.2.sample b) (-imp.blockWeight b)
      exact ⟨hsub.tmax_le, hsub.integral⟩
  obtain ⟨bd, c, hblock⟩ := iterateBlock_snd o imp r randomize x b
  have hset : ({ x.2.beginBlock o imp b with cache := c }.setBlock b bd).Accrued A :=
    ⟨hbegin.tmax_le, hbegin.integral⟩
  rw [hblock]
  refine accrued_addc ?_ bd (imp.blockWeight b)
  split_ifs
  · exact accrued_addc hset (x.2.sample b) (-imp.blockWeight b)
  · exact hset

variable (o imp) in
theorem accrued_iterateBlocks (h : s.Accrued A) (r : ℕ) (randomize : Bool) :
    (s.iterateBlocks o imp r randomize).2.Accrued A := by
  refine List.foldlRecOn (motive := fun x : F × GibbsBase F n nnorm nb m => x.2.Accrued A) _ _ ?_
    fun x hx b _ => accrued_iterateBlock hx r randomize b
  rw [resetCache]
  split_ifs
  · exact ⟨h.tmax_le, h.integral⟩
  · exact h

omit [IsStrictOrderedRing F] in
theorem accrued_later (h : s.Accrued A) {time : F} (htime : s.time ≤ time) (iter : ℕ) :
    { s with iter := iter, time := time }.Accrued fun i => A i + (s.gps i).count * (time - s.time) where
  tmax_le i hi := (h.tmax_le i hi).trans htime
  integral i hi := by
    rw [DeltaSum.integral_sub _ time s.time, h.integral i hi, GibbsParam.count]

omit [IsStrictOrderedRing F] in
theorem accrued_beginRun (s : GibbsBase F n nnorm nb m) : s.beginRun.Accrued fun _ => 0 := by
  have hclear (i : Fin n) (hi : (s.beginRun.gps i).norm ≠ none) :
      (s.beginRun.gps i).sumcount = .clear (s.gps i).prior := by
    change ({ s with stats := GibbsStats.clear, samples := [] }.restoreP0.gps i).sumcount = _
    change ({ s with stats := GibbsStats.clear, samples := [] }.restoreP0.gps i).norm ≠ none at hi
    rw [restoreP0_gps] at hi ⊢
    split_ifs at hi ⊢ with hnone
    · exact absurd hnone hi
    · rfl
  constructor
  · intro i hi
    rw [hclear i hi]
    exact le_rfl
  · intro i hi
    rw [hclear i hi, DeltaSum.integral_clear]
    exact mul_zero _

/-! ## A run -/

variable (o imp s) in
/-- What the samples given make of a count. -/
def countOver (samples : List (Sample F n nb)) (i : Fin n) : F :=
  (samples.map fun S => (s.gps i).prior + S.uses o imp i).sum

variable (o imp) in
/-- A run from `s` after iteration `k`. -/
structure RunAt (s : GibbsBase F n nnorm nb m) (k : ℕ) (t : GibbsBase F n nnorm nb m) : Prop where
  balance : t.InBalance o imp
  norm : ∀ i, (t.gps i).norm = (s.gps i).norm
  prior : ∀ i, (t.gps i).prior = (s.gps i).prior
  time : t.time = timeOf o k
  samples : ∃ front, t.samples = front ++ [t.sample] ∧ front.length = k ∧
    t.Accrued (s.countOver o imp (front.drop o.burnin))

omit [IsStrictOrderedRing F] in
theorem inferPriors_eq (hstddev : o.priorInferenceStddev ≤ 0) (r : ℕ) (s : GibbsBase F n nnorm nb m) :
    s.inferPriors o imp r = .ok s := by
  rw [inferPriors, proposeNewPriors, if_pos hstddev, ite_self]

/-- One iteration, at its own time. -/
theorem runAt_iteration (hstddev : o.priorInferenceStddev ≤ 0) (front : List (Sample F n nb))
    (hbalance : t.InBalance o imp) (hnorm : ∀ i, (t.gps i).norm = (s.gps i).norm)
    (hprior : ∀ i, (t.gps i).prior = (s.gps i).prior) (htime : t.time = timeOf o front.length)
    (hsamples : t.samples = front) (haccrued : t.Accrued (s.countOver o imp (front.drop o.burnin)))
    (r : ℕ) (randomize : Bool) :
    ∃ u, t.iteration o imp r randomize = .ok u ∧ RunAt o imp s front.length u := by
  have hkept := kept_iterateBlocks o imp r randomize t
  have hnow := inBalance_iterateBlocks hbalance r randomize
  have hsums := accrued_iterateBlocks o imp haccrued r randomize
  refine ⟨(t.iterateBlocks o imp r randomize).2.recordIteration o (t.iterateBlocks o imp r randomize).1,
    ?_, ⟨hnow.now, hnow.calls⟩, fun i => (hkept.norm i).trans (hnorm i),
    fun i => (hkept.prior i).trans (hprior i), hkept.time.trans htime, front, ?_, rfl,
    ⟨hsums.tmax_le, hsums.integral⟩⟩
  · rw [iteration]
    simp only [inferPriors_eq hstddev]
    rfl
  · exact congrArg (· ++ [(t.iterateBlocks o imp r randomize).2.sample]) (hkept.samples.trans hsamples)

theorem runAt_succ (hstddev : o.priorInferenceStddev ≤ 0) {k : ℕ} (h : RunAt o imp s k t) (r : ℕ)
    (randomize : Bool) :
    ∃ u, ({ t with iter := 1 + k, time := timeOf o (1 + k) }).iteration o imp r randomize = .ok u ∧
      RunAt o imp s (k + 1) u := by
  obtain ⟨front, hsamples, hlen, haccrued⟩ := h.samples
  have hlength : (front ++ [t.sample]).length = k + 1 := by simp [hlen]
  have hstep : timeOf o (1 + k) - t.time = if o.burnin ≤ k then (1 : F) else 0 := by
    rw [h.time, add_comm, timeOf_succ, add_sub_cancel_left]
  have hle : t.time ≤ timeOf o (1 + k) := by
    rw [← sub_nonneg, hstep]
    split_ifs
    · exact zero_le_one
    · exact le_rfl
  have hlater : { t with iter := 1 + k, time := timeOf o (1 + k) }.Accrued
      (s.countOver o imp ((front ++ [t.sample]).drop o.burnin)) := by
    have hsums := accrued_later haccrued hle (1 + k)
    refine ⟨hsums.tmax_le, fun i hi => (hsums.integral i hi).trans ?_⟩
    obtain ⟨g, hg⟩ := Option.ne_none_iff_exists'.mp hi
    rw [hstep, h.balance.now.count i g hg, h.prior, countOver, countOver]
    by_cases hburnin : o.burnin ≤ k
    · rw [List.drop_append_of_le_length (by omega), if_pos hburnin]
      simp
    · rw [List.drop_eq_nil_of_le (by omega), List.drop_eq_nil_of_le (by omega), if_neg hburnin]
      simp
  have hbalance : { t with iter := 1 + k, time := timeOf o (1 + k) }.InBalance o imp :=
    ⟨h.balance.now, h.balance.calls⟩
  have hnext := runAt_iteration (s := s) hstddev (front ++ [t.sample]) hbalance h.norm
    h.prior (by rw [hlength, add_comm]) hsamples hlater r randomize
  rwa [hlength] at hnext

theorem runAt_run (hstddev : o.priorInferenceStddev ≤ 0) (hcalls : s.CallsBalanced o imp) (r : ℕ) :
    ∃ t, s.run o imp r = .ok t ∧ RunAt o imp s o.iter t := by
  have hnorm (i : Fin n) : (s.beginRun.gps i).norm = (s.gps i).norm := by
    change ({ s with stats := GibbsStats.clear, samples := [] }.restoreP0.gps i).norm = _
    rw [restoreP0_gps]
    split_ifs <;> rfl
  have hprior (i : Fin n) : (s.beginRun.gps i).prior = (s.gps i).prior := by
    change ({ s with stats := GibbsStats.clear, samples := [] }.restoreP0.gps i).prior = _
    rw [restoreP0_gps]
    split_ifs <;> rfl
  have hnothing : s.countOver o imp [] = fun _ => 0 := rfl
  obtain ⟨t, hfirst, ht⟩ := runAt_iteration (s := s) hstddev [] (inBalance_beginRun hcalls) hnorm
    hprior (timeOf_of_ge o.burnin.zero_le).symm rfl
    (by rw [List.drop_nil, hnothing]; exact accrued_beginRun s) r
    (o.randomStart || (decide (r ≠ 0) && o.expectation))
  have hloop : Holds (fun _ => False) (RunAt o imp s o.iter) ((List.range' 1 o.iter).foldlM
      (fun s i => ({ s with iter := i, time := timeOf o i }).iteration o imp r false) t) := by
    refine Holds.foldlM_range' (I := RunAt o imp s) ht fun k _ u hu => ?_
    obtain ⟨v, hv, hnext⟩ := runAt_succ hstddev hu r false
    rw [hv]
    exact hnext
  obtain ⟨u, hu, hrun⟩ := hloop.returns
  refine ⟨u, ?_, hrun⟩
  rw [run, hfirst]
  exact hu

/-! ## The final counts -/

/-- `final_counts` of one parameter. -/
theorem finalCounts_eq {p : GibbsParam F nnorm} {tmax1 : F} (h : p.norm ≠ none → p.sumcount.tmax ≤ tmax1) :
    ∃ p', p.finalCounts tmax1 = some p' ∧ p'.norm = p.norm ∧ p'.prior = p.prior ∧
      (p.norm ≠ none → p'.count = p.sumcount.integral tmax1) := by
  cases hnorm : p.norm with
  | none => exact ⟨p, by rw [GibbsParam.finalCounts, hnorm], hnorm, rfl, fun h => absurd rfl h⟩
  | some g =>
    have hextend := DeltaSum.extend_of_le (h (by rw [hnorm]; simp))
    refine ⟨{ p with sumcount := ⟨p.sumcount.integral tmax1, tmax1, p.sumcount.integral tmax1⟩ }, ?_, hnorm,
      rfl, fun _ => rfl⟩
    rw [GibbsParam.finalCounts, hnorm]
    simp only [hextend, Option.map_some]

variable (o s) in
/-- The counts of some parameters have become the sums over time. -/
structure Extended (front : List (Fin n)) (t : GibbsBase F n nnorm nb m) : Prop where
  frame : ∃ gps, t = { s with gps := gps }
  norm : ∀ i, (t.gps i).norm = (s.gps i).norm
  prior : ∀ i, (t.gps i).prior = (s.gps i).prior
  rest : ∀ i, i ∉ front → t.gps i = s.gps i
  count : ∀ i ∈ front, (s.gps i).norm ≠ none →
    (t.gps i).count = (s.gps i).sumcount.integral (o.finalT + 1)

theorem extended_extendCounts
    (h : ∀ i, (s.gps i).norm ≠ none → (s.gps i).sumcount.tmax ≤ o.finalT + 1) :
    ∃ t, s.extendCounts o = .ok t ∧ Extended o s (List.finRange n) t := by
  refine Holds.returns (Holds.foldlM ⟨⟨s.gps, rfl⟩, fun _ => rfl, fun _ => rfl, fun _ _ => rfl,
    fun i hi => by cases hi⟩ ?_)
  rintro front a rest t hl ⟨⟨gps, rfl⟩, hnorm, hprior, hrest, hcount⟩
  have ha : a ∉ front := by
    have hnodup := List.nodup_finRange n
    rw [hl, List.nodup_append] at hnodup
    exact fun hmem => hnodup.2.2 a hmem a List.mem_cons_self rfl
  have hsame : gps a = s.gps a := hrest a ha
  obtain ⟨p, hfinal, hpnorm, hpprior, hpcount⟩ := finalCounts_eq (h a)
  simp only [hsame, hfinal, holds_ok]
  refine ⟨⟨_, rfl⟩, fun i => ?_, fun i => ?_, fun i hi => ?_, fun i hi hne => ?_⟩
  · by_cases hia : i = a
    · subst hia
      simpa using hpnorm
    · simpa [Function.update_of_ne hia] using hnorm i
  · by_cases hia : i = a
    · subst hia
      simpa using hpprior
    · simpa [Function.update_of_ne hia] using hprior i
  · rw [List.mem_append, List.mem_singleton, not_or] at hi
    simpa [Function.update_of_ne hi.2] using hrest i hi.1
  · by_cases hia : i = a
    · subst hia
      simpa using hpcount hne
    · rw [List.mem_append, List.mem_singleton, or_iff_left hia] at hi
      simpa [Function.update_of_ne hia] using hcount i hi hne

omit [LinearOrder F] [IsStrictOrderedRing F] in
theorem computeNorms_normsum (s : GibbsBase F n nnorm nb m) (g : Fin nnorm) :
    s.computeNorms.normsum g = ∑ i, if (s.gps i).norm = some g then (s.gps i).count else 0 := by
  simp only [computeNorms, GibbsParam.addNorm_eq, foldl_bump, zero_add, Fin.sum_univ_def]

variable (o imp s) in
/-- What averaging makes of a count: the samples from the end of burn-in on, each with the prior
unless it is excluded. -/
def averagedCount (samples : List (Sample F n nb)) (i : Fin n) : F :=
  ((samples.drop o.burnin).map fun S =>
    (if o.excludePrior then 0 else (s.gps i).prior) + S.uses o imp i).sum

omit [LinearOrder F] [IsStrictOrderedRing F] in
theorem sum_map_const_add {α : Type*} (c : F) (f : α → F) (l : List α) :
    (l.map fun a => c + f a).sum = c * l.length + (l.map f).sum := by
  rw [List.sum_map_add, List.map_const', List.sum_replicate, nsmul_eq_mul, mul_comm]

omit [LinearOrder F] [IsStrictOrderedRing F] in
variable (o s) in
/-- Taking the priors out of the counts takes them out at all times. -/
theorem excludePriors_spec : ∃ gps, s.excludePriors o = { s with gps := gps } ∧
    (∀ i, (gps i).norm = (s.gps i).norm) ∧ (∀ i, (gps i).prior = (s.gps i).prior) ∧
    (∀ i, (gps i).sumcount.tmax = (s.gps i).sumcount.tmax) ∧
    ∀ i, (s.gps i).norm ≠ none → ∀ T, (gps i).sumcount.integral T =
      (s.gps i).sumcount.integral T - (if o.excludePrior then (s.gps i).prior else 0) * T := by
  rw [excludePriors]
  by_cases hexclude : o.excludePrior = true
  · refine ⟨fun i => (s.gps i).excludePrior, if_pos hexclude, fun i => ?_, fun i => ?_, fun i => ?_,
      fun i hi T => ?_⟩
    · dsimp only [GibbsParam.excludePrior]
      split <;> rfl
    · dsimp only [GibbsParam.excludePrior]
      split <;> rfl
    · dsimp only [GibbsParam.excludePrior]
      split <;> rfl
    · rw [if_pos hexclude]
      dsimp only [GibbsParam.excludePrior]
      split
      · contradiction
      · rw [DeltaSum.integral_addbase]
        ring
  · refine ⟨s.gps, if_neg hexclude, fun _ => rfl, fun _ => rfl, fun _ => rfl, fun i _ T => ?_⟩
    rw [if_neg hexclude, zero_mul, sub_zero]

variable (o imp s t) in
/-- A run from `s` has ended, and its counts were finalized. -/
structure Finalized : Prop where
  norm : ∀ i, (t.gps i).norm = (s.gps i).norm
  prior : ∀ i, (t.gps i).prior = (s.gps i).prior
  length : t.samples.length = o.iter + 1
  sample : t.samples.getLast? = some t.sample
  count : ∀ i, (t.gps i).norm ≠ none → (t.gps i).count = s.averagedCount o imp t.samples i
  normsum : ∀ g, t.normsum g = ∑ i, if (t.gps i).norm = some g then (t.gps i).count else 0

theorem finalized_of_runAt (hfinal : o.finalCounts = false) (hburnin : o.burnin ≤ o.iter)
    (h : RunAt o imp s o.iter t) :
    ∃ u, t.finalizeCumulativeCounts o = .ok u ∧ Finalized o imp s u ∧ u.samples = t.samples ∧
      u.sample = t.sample ∧ u.calls = t.calls ∧ u.stats = t.stats := by
  obtain ⟨front, hsamples, hlen, haccrued⟩ := h.samples
  have htime : t.time = o.finalT := by rw [h.time, timeOf_of_le hburnin, GibbsOpts.finalT]
  have hlength : t.samples.length = o.iter + 1 := by simp [hsamples, hlen]
  -- what the sum up to the end is, with the priors
  have hsum (i : Fin n) (hi : (t.gps i).norm ≠ none) :
      (t.gps i).sumcount.integral (o.finalT + 1) =
        s.countOver o imp (t.samples.drop o.burnin) i := by
    obtain ⟨g, hg⟩ := Option.ne_none_iff_exists'.mp hi
    rw [DeltaSum.integral_sub _ _ t.time, haccrued.integral i hi, htime, add_sub_cancel_left, mul_one,
      hsamples, List.drop_append_of_le_length (by omega), countOver, countOver, List.map_append,
      List.sum_append]
    have hcount := h.balance.now.count i g hg
    rw [GibbsParam.count, h.prior i] at hcount
    rw [hcount, List.map_singleton, List.sum_singleton]
  obtain ⟨gps, hexclude, hnorm, hprior, htmax, hintegral⟩ := t.excludePriors_spec o
  obtain ⟨u, hu, hextended⟩ := extended_extendCounts (o := o) (s := { t with gps := gps }) fun i hi => by
    have hle : (t.gps i).sumcount.tmax ≤ t.time := haccrued.tmax_le i (by rwa [← hnorm i])
    change (gps i).sumcount.tmax ≤ _
    rw [htmax i]
    linarith [htime.symm.le]
  obtain ⟨gps', rfl⟩ := hextended.frame
  refine ⟨({ t with gps := gps' }).computeNorms, ?_, ⟨fun i => ?_, fun i => ?_, hlength, ?_, fun i hi => ?_,
    computeNorms_normsum _⟩, rfl, rfl, rfl, rfl⟩
  · rw [finalizeCumulativeCounts, hfinal, hexclude]
    simp only [Bool.false_and, Bool.false_eq_true, if_false, hu]
    rfl
  · exact ((hextended.norm i).trans (hnorm i)).trans (h.norm i)
  · exact ((hextended.prior i).trans (hprior i)).trans (h.prior i)
  · change t.samples.getLast? = some t.sample
    rw [hsamples, List.getLast?_concat]
  · have hi' : (t.gps i).norm ≠ none := by rwa [← hnorm i, ← hextended.norm i]
    have hlen : ((t.samples.drop o.burnin).length : F) = o.finalT + 1 := by
      rw [List.length_drop, hlength, Nat.sub_add_comm hburnin, Nat.cast_succ, GibbsOpts.finalT]
    have hcount : (gps' i).count = s.countOver o imp (t.samples.drop o.burnin) i -
        (if o.excludePrior then (t.gps i).prior else 0) * (o.finalT + 1) := by
      rw [← hsum i hi', ← hintegral i hi']
      exact hextended.count i (List.mem_finRange i) (by rwa [hnorm i])
    change (gps' i).count = s.averagedCount o imp t.samples i
    rw [hcount, countOver, averagedCount, sum_map_const_add, sum_map_const_add, hlen, h.prior i]
    split_ifs <;> ring

end GibbsBase

end Carmel
