/-
# The best of several runs

Without inference of priors every run starts from the same priors. Its counts are
averaged when its statistic is the best so far, and these counts and its last sample
are the ones that are left in the end.
-/

import Carmel.Gibbs.Average

namespace Carmel

open Math

universe u

variable {F : Type u} [Field F] [LinearOrder F] [IsStrictOrderedRing F] {n nnorm nb m : ℕ}

namespace GibbsBase

variable {o : GibbsOpts F} {imp : GibbsImp F n nb m} {s s' t : GibbsBase F n nnorm nb m}

variable (s t) in
/-- The parameters are the same. -/
structure SameParams : Prop where
  norm : ∀ i, (t.gps i).norm = (s.gps i).norm
  prior : ∀ i, (t.gps i).prior = (s.gps i).prior

omit [IsStrictOrderedRing F] in
theorem averagedCount_congr (h : s.SameParams s') (samples : List (Sample F n nb)) (i : Fin n) :
    s'.averagedCount o imp samples i = s.averagedCount o imp samples i := by
  simp only [averagedCount, h.prior]

omit [IsStrictOrderedRing F] in
theorem Finalized.congr (h : s.SameParams s') (hfinal : Finalized o imp s' t) : Finalized o imp s t where
  norm i := (hfinal.norm i).trans (h.norm i)
  prior i := (hfinal.prior i).trans (h.prior i)
  length := hfinal.length
  sample := hfinal.sample
  count i hi := (hfinal.count i hi).trans (averagedCount_congr h _ i)
  normsum := hfinal.normsum

end GibbsBase

namespace GibbsStarts

open GibbsBase

variable {o : GibbsOpts F} {imp : GibbsImp F n nb m} {s : GibbsBase F n nnorm nb m}
variable {x : GibbsStarts F n nnorm nb m}

variable (o imp s x) in
/-- What is remembered of the best run so far. -/
structure IsBest (run : RunRecord F n nb) : Prop where
  get : x.runs[x.beststart]? = some run
  best : x.best = run.stats
  sample : run.samples.getLast? = some x.bestSample
  count : ∀ i, (s.gps i).norm ≠ none → x.bestCounts i = s.averagedCount o imp run.samples i
  le : ∀ (r : ℕ) (run' : RunRecord F n nb), x.runs[r]? = some run' → run'.stats.statistic o ≤ run.stats.statistic o
  lt : ∀ (r : ℕ) (run' : RunRecord F n nb), x.runs[r]? = some run' → r < x.beststart →
    run'.stats.statistic o < run.stats.statistic o

variable (o imp s) in
/-- After `k` starts from `s`. -/
structure StartsAt (k : ℕ) (x : GibbsStarts F n nnorm nb m) : Prop where
  params : s.SameParams x.base
  calls : x.base.CallsBalanced o imp
  length : x.runs.length = k
  finalized : ∀ t ∈ x.finalized, Finalized o imp s t
  best : k ≠ 0 → ∃ run, IsBest o imp s x run
  /-- If the last run is the best, its counts are in place. -/
  last : k = x.beststart + 1 → (∀ i, (x.base.gps i).count = x.bestCounts i) ∧
    ∀ g, x.base.normsum g = ∑ i, if (x.base.gps i).norm = some g then (x.base.gps i).count else 0

omit [IsStrictOrderedRing F] in
theorem isBest_new {k : ℕ} (hlen : x.runs.length = k) {run : RunRecord F n nb}
    {y : GibbsStarts F n nnorm nb m} (hruns : y.runs = x.runs ++ [run]) (hstart : y.beststart = k)
    (hbest : y.best = run.stats) (hsample : run.samples.getLast? = some y.bestSample)
    (hcount : ∀ i, (s.gps i).norm ≠ none → y.bestCounts i = s.averagedCount o imp run.samples i)
    (hlt : ∀ run' ∈ x.runs, run'.stats.statistic o < run.stats.statistic o) :
    IsBest o imp s y run where
  get := by rw [hruns, hstart, ← hlen, List.getElem?_concat_length]
  best := hbest
  sample := hsample
  count := hcount
  le r run' hr := by
    rw [hruns] at hr
    rcases List.mem_append.mp (List.mem_of_getElem? hr) with hmem | hmem
    · exact (hlt run' hmem).le
    · rw [List.mem_singleton.mp hmem]
  lt r run' hr hlt' := by
    rw [hruns, List.getElem?_append_left (by omega)] at hr
    exact hlt run' (List.mem_of_getElem? hr)

omit [IsStrictOrderedRing F] in
theorem isBest_old {run new : RunRecord F n nb} (h : IsBest o imp s x run)
    {y : GibbsStarts F n nnorm nb m} (hruns : y.runs = x.runs ++ [new])
    (hstart : y.beststart = x.beststart) (hbest : y.best = x.best) (hsample : y.bestSample = x.bestSample)
    (hcounts : y.bestCounts = x.bestCounts) (hle : new.stats.statistic o ≤ run.stats.statistic o) :
    IsBest o imp s y run where
  get := by
    rw [hruns, hstart, List.getElem?_append_left (List.getElem?_eq_some_iff.mp h.get).1, h.get]
  best := hbest.trans h.best
  sample := hsample ▸ h.sample
  count i hi := (congrFun hcounts i).trans (h.count i hi)
  le r run' hr := by
    rw [hruns] at hr
    rcases List.mem_append.mp (List.mem_of_getElem? hr) with hmem | hmem
    · obtain ⟨r', hr'⟩ := List.getElem?_of_mem hmem
      exact h.le r' run' hr'
    · rw [List.mem_singleton.mp hmem]
      exact hle
  lt r run' hr hlt := by
    rw [hstart] at hlt
    have hlen := (List.getElem?_eq_some_iff.mp h.get).1
    rw [hruns, List.getElem?_append_left (by omega)] at hr
    exact h.lt r run' hr hlt

theorem startsAt_start (hstddev : o.priorInferenceStddev ≤ 0) (hfinal : o.finalCounts = false)
    (hburnin : o.burnin ≤ o.iter) {k : ℕ} (h : StartsAt o imp s k x) :
    ∃ y, x.start o imp (fun i => (s.gps i).prior) k = .ok y ∧ StartsAt o imp s (k + 1) y := by
  -- the state from which the run starts
  obtain ⟨s', hs', hparams, hcalls⟩ : ∃ s',
      (if 0 < k ∧ 0 < o.restarts ∧ o.priorInferenceRestartFresh = true then
        x.base.restorePriors o (fun i => (s.gps i).prior) else x.base) = s' ∧
      s.SameParams s' ∧ s'.CallsBalanced o imp := by
    refine ⟨_, rfl, ?_⟩
    split_ifs
    · rw [restorePriors, initCumulative, recomputeCachePriors]
      split_ifs <;> exact ⟨⟨h.params.norm, fun _ => rfl⟩, h.calls⟩
    · exact ⟨h.params, h.calls⟩
  obtain ⟨t, hrun, ht⟩ := runAt_run hstddev hcalls k
  obtain ⟨u, hu, hfinalized, hsamples, hsample, hucalls, hstats⟩ := finalized_of_runAt hfinal hburnin ht
  have hsame : s.SameParams t := ⟨fun i => (ht.norm i).trans (hparams.norm i),
    fun i => (ht.prior i).trans (hparams.prior i)⟩
  have hus : Finalized o imp s u := hfinalized.congr hparams
  have hstart : x.start o imp (fun i => (s.gps i).prior) k =
      if k = 0 ∨ t.stats.better o x.best = true then
        keep o k { x with base := t, runs := x.runs ++ [⟨t.stats, t.samples⟩] }
      else .ok { x with base := t, runs := x.runs ++ [⟨t.stats, t.samples⟩] } := by
    rw [start, hs', hrun]
    rfl
  by_cases hbest : k = 0 ∨ t.stats.better o x.best = true
  · refine ⟨⟨{ u with sample := x.bestSample }, u.saveCounts, u.sample, t.stats, k,
      x.runs ++ [⟨t.stats, t.samples⟩], x.finalized ++ [u]⟩, ?_, ⟨hus.norm, hus.prior⟩, ?_, ?_, ?_,
      fun _ => ⟨⟨t.stats, t.samples⟩, isBest_new h.length rfl rfl rfl ?_ ?_ ?_⟩, fun _ => ⟨fun _ => rfl, hus.normsum⟩⟩
    · rw [hstart, if_pos hbest, keep, hu]
      rfl
    · intro c hc
      change c ∈ u.calls at hc
      rw [hucalls] at hc
      exact ht.balance.calls c hc
    · simp [h.length]
    · intro v hv
      rcases List.mem_append.mp hv with hv | hv
      · exact h.finalized v hv
      · rw [List.mem_singleton.mp hv]
        exact hus
    · change t.samples.getLast? = some u.sample
      rw [← hsamples]
      exact hus.sample
    · intro i hi
      change (u.gps i).count = s.averagedCount o imp t.samples i
      rw [← hsamples]
      exact hus.count i (by rwa [hus.norm i])
    · intro run' hmem
      have hne : k ≠ 0 := by
        rintro rfl
        rw [List.length_eq_zero_iff.mp h.length] at hmem
        cases hmem
      obtain ⟨run, hisBest⟩ := h.best hne
      obtain ⟨r, hr⟩ := List.getElem?_of_mem hmem
      have hbetter := GibbsStats.better_iff.mp (hbest.resolve_left hne)
      rw [hisBest.best] at hbetter
      exact (hisBest.le r run' hr).trans_lt hbetter
  · have hne : k ≠ 0 := fun hk => hbest (.inl hk)
    obtain ⟨run, hisBest⟩ := h.best hne
    refine ⟨{ x with base := t, runs := x.runs ++ [⟨t.stats, t.samples⟩] }, by rw [hstart, if_neg hbest],
      hsame, ht.balance.calls, by simp [h.length], h.finalized, fun _ => ⟨run, isBest_old hisBest rfl rfl rfl rfl rfl ?_⟩, fun hk => ?_⟩
    · rw [← not_lt, ← hisBest.best, ← GibbsStats.better_iff]
      exact fun hbetter => hbest (.inr hbetter)
    · have hlt := (List.getElem?_eq_some_iff.mp hisBest.get).1
      rw [h.length] at hlt
      dsimp only at hk
      omega

/-- **Averaged counts.** Without inference of priors, and if not only the last counts are asked
for, every count that is finalized is the sum, over the iterations from the end of burn-in to the
last, of what the sample at the end of the iteration uses of the parameter, and its prior unless it
is excluded. In the end the counts, the norm sums and the sample are those of the first run with
the best statistic. -/
theorem averaged_counts (o : GibbsOpts F) (hstddev : o.priorInferenceStddev ≤ 0)
    (hfinal : o.finalCounts = false) (imp : GibbsImp F n nb m) (s : GibbsBase F n nnorm nb m) :
    ∃ x, runStarts o.validate imp s = .ok x ∧ (∀ t ∈ x.finalized, Finalized o.validate imp s t) ∧
      ∃ run, x.runs.length = o.restarts + 1 ∧ x.runs[x.beststart]? = some run ∧
        (∀ r run', x.runs[r]? = some run' →
          run'.stats.statistic o.validate ≤ run.stats.statistic o.validate ∧
            (r < x.beststart → run'.stats.statistic o.validate < run.stats.statistic o.validate)) ∧
        run.samples.getLast? = some x.base.sample ∧
        (∀ i, (s.gps i).norm ≠ none →
          (x.base.gps i).count = s.averagedCount o.validate imp run.samples i) ∧
        ∀ g, x.base.normsum g =
          ∑ i, if (s.gps i).norm = some g then (x.base.gps i).count else 0 := by
  have hinit : StartsAt o.validate imp s 0 (init o.validate s) := by
    have hbase : ∃ c p scale, (init o.validate s).base =
        { s with calls := [], cache := c, cachePriors := p, priorScale := scale } := by
      rw [init, initCumulative, initCache]
      split_ifs with hcache
      · rw [resetCache, if_pos hcache, recomputeCachePriors, if_pos hcache]
        exact ⟨_, _, _, rfl⟩
      · exact ⟨_, _, _, rfl⟩
    obtain ⟨c, p, scale, hbase⟩ := hbase
    refine ⟨?_, ?_, rfl, fun t ht => absurd ht List.not_mem_nil, fun h => absurd rfl h, fun h => ?_⟩
    · rw [hbase]
      exact ⟨fun _ => rfl, fun _ => rfl⟩
    · rw [hbase]
      exact fun c hc => absurd hc List.not_mem_nil
    · exact absurd h (Nat.succ_ne_zero _).symm
  have hloop : Holds (fun _ => False) (StartsAt o.validate imp s (o.restarts + 1))
      ((List.range' 0 (o.validate.restarts + 1)).foldlM (start o.validate imp fun i => (s.gps i).prior)
        (init o.validate s)) := by
    refine Holds.foldlM_range' (I := StartsAt o.validate imp s) hinit fun k _ x hx => ?_
    obtain ⟨y, hy, hnext⟩ := startsAt_start (o := o.validate) hstddev hfinal o.validate_burnin_le hx
    rw [Nat.zero_add, hy]
    exact hnext
  obtain ⟨x, hx, hstarts⟩ := hloop.returns
  obtain ⟨run, hbest⟩ := hstarts.best o.restarts.succ_ne_zero
  have hlast : x.beststart < o.restarts + 1 := by
    rw [← hstarts.length]
    exact (List.getElem?_eq_some_iff.mp hbest.get).1
  refine ⟨x.finish o.validate, by rw [runStarts, hx]; rfl, hstarts.finalized, run, hstarts.length, hbest.get,
    fun r run' hr => ⟨hbest.le r run' hr, hbest.lt r run' hr⟩, ?_⟩
  by_cases hrestarts : 0 < o.validate.restarts
  · simp only [finish, if_pos hrestarts]
    refine ⟨hbest.sample, fun i hi => hbest.count i hi, fun g => ?_⟩
    rw [restoreProbs, computeNorms_normsum]
    refine Finset.sum_congr rfl fun i _ => ?_
    change (if (x.base.gps i).norm = some g then _ else _) = _
    rw [hstarts.params.norm i]
    rfl
  · simp only [finish, if_neg hrestarts]
    have hzero : o.restarts = 0 := Nat.eq_zero_of_not_pos hrestarts
    obtain ⟨hcount, hnormsum⟩ := hstarts.last (by omega)
    refine ⟨hbest.sample, fun i hi => (hcount i).trans (hbest.count i hi), fun g => ?_⟩
    refine (hnormsum g).trans (Finset.sum_congr rfl fun i _ => ?_)
    rw [hstarts.params.norm i]

theorem averaged_counts_sample :
    ∃ x, runStarts sampleOpts.validate sampleImp (sampleBase fun _ => ⟨0, [], []⟩) = .ok x ∧
      ∀ t ∈ x.finalized,
        Finalized sampleOpts.validate sampleImp (sampleBase fun _ => ⟨0, [], []⟩) t := by
  obtain ⟨x, hx, hfinalized, -⟩ :=
    averaged_counts sampleOpts le_rfl rfl sampleImp (sampleBase fun _ => ⟨0, [], []⟩)
  exact ⟨x, hx, hfinalized⟩

end GibbsStarts

end Carmel
