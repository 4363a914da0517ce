/-
# Proposing new priors

Between iterations the priors may be scaled, group by group, by random factors. The proposal
is tried on the state itself. If it is rejected, the arrays of the cache model are put back
from copies and the rest is scaled by the inverse factors.
-/

import Carmel.Gibbs.CacheModel
import Carmel.Math.Outcomes

namespace Carmel

open Math

universe u

variable {F : Type u} [Field F] [LinearOrder F] {n nnorm nb m : ℕ}

/-- What is drawn for a proposal. -/
structure Proposal (F : Type u) [Zero F] [LT F] (m : ℕ) where
  /-- `random_scale_ratio`, for the groups after group 0, is greater than 0. -/
  scale : Fin m → {f : F // 0 < f}
  random01 : F

/-- `metanorm::scale_priors`, of the products of all factors so far. -/
def Metanorm.scalePriors (s : Fin (m + 1) → F) (invert : Bool) (mn : Metanorm F nnorm m) :
    Metanorm F nnorm m :=
  { mn with cumulative := fun j =>
      if invert then mn.cumulative j / s j.succ else mn.cumulative j * s j.succ }

namespace GibbsParam

omit [LinearOrder F] in
variable (normi : Fin nnorm → Fin (m + 1)) (scale : Fin (m + 1) → F) (invert : Bool) in
/-- The factor by which a parameter is scaled. -/
def factor (p : GibbsParam F nnorm) : F :=
  match p.norm with
  | none => 1
  | some g => if 0 < normi g then (if invert then 1 / scale (normi g) else scale (normi g)) else 1

/-- Scale the prior, and change the count by as much at all times. -/
def scaleBy (f : F) (p : GibbsParam F nnorm) : GibbsParam F nnorm :=
  { p with sumcount := p.sumcount.addbase (f * p.prior - p.prior), prior := f * p.prior }

variable {p : GibbsParam F nnorm} {f : F}

omit [LinearOrder F]

@[simp] theorem scaleBy_norm (f : F) (p : GibbsParam F nnorm) : (p.scaleBy f).norm = p.norm := rfl

theorem scaleBy_one (p : GibbsParam F nnorm) : p.scaleBy 1 = p := by
  simp [scaleBy, DeltaSum.addbase]

theorem scaleBy_inv_scaleBy (hf : f ≠ 0) (p : GibbsParam F nnorm) :
    (p.scaleBy f).scaleBy (1 / f) = p := by
  have hprior : 1 / f * (f * p.prior) = p.prior := by
    rw [← mul_assoc, one_div_mul_cancel hf, one_mul]
  have hback : p.prior - f * p.prior = -(f * p.prior - p.prior) := (neg_sub _ _).symm
  rw [scaleBy, scaleBy]
  simp only [hprior, hback, DeltaSum.addbase_neg_addbase]

theorem scalePrior_eq (normi : Fin nnorm → Fin (m + 1)) (scale : Fin (m + 1) → F) (invert : Bool)
    (p : GibbsParam F nnorm) (ns : Normsum F nnorm) :
    p.scalePrior normi scale invert ns = (p.scaleBy (p.factor normi scale invert),
        bump ns p.norm (p.factor normi scale invert * p.prior - p.prior)) := by
  cases hp : p.norm with
  | none => simp [scalePrior, factor, hp, scaleBy_one]
  | some g =>
    by_cases hg : 0 < normi g
    · simp [scalePrior, factor, hp, hg, scaleBy, bump]
    · simp [scalePrior, factor, hp, hg, scaleBy_one, bump]

end GibbsParam

namespace GibbsBase

/-- `scale_priors`. -/
def scalePriors (inverse : Bool) (s : GibbsBase F n nnorm nb m) : GibbsBase F n nnorm nb m :=
  let scales := Function.update s.scales 0 1
  let r := scatterAll (fun _ p ns => p.scalePrior s.priorScale.group scales inverse ns)
    (s.gps, s.normsum)
  { s with
    priorScale := s.priorScale.scalePriors s.scales inverse
    scales := scales
    gps := r.1
    normsum := r.2 }

/-- `choose_prior_scales`: the scales, and the asymmetry of proposing them. -/
def choosePriorScales (pdf : F → F) (prop : Proposal F m) (s : GibbsBase F n nnorm nb m) :
    F × GibbsBase F n nnorm nb m :=
  let scales : Fin (m + 1) → F := Fin.cons 0 fun j => (prop.scale j : F)
  ((∏ j : Fin m, pdf (1 / scales j.succ)) / ∏ j : Fin m, pdf (scales j.succ),
    { s with scales := scales })

/-- The proposal while it is tried: its probability of being accepted, and the state. -/
def tryPriors (o : GibbsOpts F) (pdf : F → F) (prop : Proposal F m) (s : GibbsBase F n nnorm nb m) :
    F × GibbsBase F n nnorm nb m :=
  let (a2, s) := s.choosePriorScales pdf prop
  let (p1, s) := s.cacheProb o false
  let s := s.scalePriors false
  let (p2, s) := s.cacheProb o true
  (p2 / p1 * a2, s)

/-- `propose_new_priors`. It throws when counts are expectations. -/
def proposeNewPriors (o : GibbsOpts F) (pdf : F → F) (prop : Proposal F m)
    (s : GibbsBase F n nnorm nb m) : Except (GibbsBase F n nnorm nb m) (GibbsBase F n nnorm nb m) :=
  if o.priorInferenceStddev ≤ 0 then .ok s
  else if o.expectation then .error s
  else
    let (a, tried) := s.tryPriors o pdf prop
    if prop.random01 < a then .ok tried
    else .ok (({ tried with cachePriors := s.cachePriors }).scalePriors true)

/-- The proposal is made and accepted. -/
def AcceptsPriors (o : GibbsOpts F) (pdf : F → F) (prop : Proposal F m)
    (s : GibbsBase F n nnorm nb m) : Prop :=
  0 < o.priorInferenceStddev ∧ o.expectation = false ∧ prop.random01 < (s.tryPriors o pdf prop).1

/-! ## Scaling all parameters -/

section

omit [LinearOrder F]

theorem scalePriors_eq (inverse : Bool) (s : GibbsBase F n nnorm nb m) :
    let f i := (s.gps i).factor s.priorScale.group (Function.update s.scales 0 1) inverse
    s.scalePriors inverse = { s with
        priorScale := s.priorScale.scalePriors s.scales inverse
        scales := Function.update s.scales 0 1
        gps := fun i => (s.gps i).scaleBy (f i)
        normsum := fun g => s.normsum g +
          ∑ i, if (s.gps i).norm = some g then f i * (s.gps i).prior - (s.gps i).prior else 0 } := by
  intro f
  rw [scalePriors, scatterAll_eq
    (fun _ p => p.scaleBy (p.factor s.priorScale.group (Function.update s.scales 0 1) inverse))
    (fun _ p => GibbsParam.norm p)
    (fun _ p => p.factor s.priorScale.group (Function.update s.scales 0 1) inverse * p.prior - p.prior)
    fun _ p ns => p.scalePrior_eq _ _ inverse ns]

/-- The factors of the way back are the inverse ones. -/
theorem factor_scaleBy (normi : Fin nnorm → Fin (m + 1)) (scale : Fin (m + 1) → F)
    (p : GibbsParam F nnorm) (f : F) :
    (p.scaleBy f).factor normi scale true = 1 / p.factor normi scale false := by
  cases hp : p.norm with
  | none => simp [GibbsParam.factor, hp]
  | some g => by_cases hg : 0 < normi g <;> simp [GibbsParam.factor, hp, hg]

theorem factor_ne_zero {normi : Fin nnorm → Fin (m + 1)} {scale : Fin (m + 1) → F}
    (hscale : ∀ k, scale k ≠ 0) (p : GibbsParam F nnorm) : p.factor normi scale false ≠ 0 := by
  rw [GibbsParam.factor]
  cases p.norm with
  | none => exact one_ne_zero
  | some g =>
    by_cases hg : 0 < normi g
    · simpa [hg] using hscale (normi g)
    · simp [hg]

/-- **Scaling back** restores everything but the scales themselves, whatever became of the arrays
of the cache model in between. -/
theorem scalePriors_scalePriors {s : GibbsBase F n nnorm nb m} (hscale : ∀ j : Fin m, s.scales j.succ ≠ 0)
    (c p : CacheArrays F n nnorm) :
    ({ s.scalePriors false with cache := c, cachePriors := p }).scalePriors true =
      { s with scales := Function.update s.scales 0 1, cache := c, cachePriors := p } := by
  have hne : ∀ k, Function.update s.scales 0 1 k ≠ 0 := by
    intro k
    cases k using Fin.cases with
    | zero => simp
    | succ j =>
      rw [Function.update_of_ne (Fin.succ_ne_zero j)]
      exact hscale j
  have hcumulative : (s.priorScale.scalePriors s.scales false).scalePriors
      (Function.update s.scales 0 1) true = s.priorScale := by
    have hback (j : Fin m) : s.priorScale.cumulative j * s.scales j.succ / s.scales j.succ =
        s.priorScale.cumulative j := mul_div_cancel_right₀ _ (hscale j)
    simp [Metanorm.scalePriors, hback]
  have hnormsum (ns : F) (f : Fin n → F) (g : Fin nnorm) (hf : ∀ i, f i ≠ 0) :
      ns + (∑ i, if (s.gps i).norm = some g then f i * (s.gps i).prior - (s.gps i).prior else 0) +
        (∑ i, if (s.gps i).norm = some g then
          1 / f i * (f i * (s.gps i).prior) - f i * (s.gps i).prior else 0) = ns := by
    rw [add_assoc, ← Finset.sum_add_distrib, Finset.sum_eq_zero, add_zero]
    intro i _
    split_ifs
    · rw [← mul_assoc, one_div_mul_cancel (hf i)]
      ring
    · exact add_zero 0
  rw [scalePriors_eq, scalePriors_eq]
  simp only [GibbsBase.mk.injEq, factor_scaleBy, Function.update_idem]
  exact ⟨funext fun i => GibbsParam.scaleBy_inv_scaleBy (factor_ne_zero hne _) _,
    funext fun g => hnormsum _ _ g fun i => factor_ne_zero hne _, trivial, hcumulative, by simp⟩

end

/-! ## The proposal -/

theorem cacheProb_snd (o : GibbsOpts F) (recompute : Bool) (s : GibbsBase F n nnorm nb m) :
    ∃ c, (s.cacheProb o recompute).2 = { s with
        cachePriors := if recompute && o.useCacheProb then s.cachePriors.recompute s.gps
          else s.cachePriors
        cache := c } := by
  simp only [cacheProb, recomputeCachePriors, resetCache]
  cases recompute <;> cases o.useCacheProb <;> exact ⟨_, rfl⟩

variable {o : GibbsOpts F} {pdf : F → F} {prop : Proposal F m} {s s' : GibbsBase F n nnorm nb m}

variable (prop) in
/-- What the priors of each group are to be scaled by. -/
def drawn : Fin (m + 1) → F := Fin.cons 1 fun j => (prop.scale j : F)

variable (prop s) in
/-- The state with the scales that are drawn. -/
def withScales : GibbsBase F n nnorm nb m :=
  { s with scales := Fin.cons 0 fun j => (prop.scale j : F) }

theorem withScales_ne_zero (j : Fin m) : (s.withScales prop).scales j.succ ≠ 0 :=
  (prop.scale j).2.ne'

theorem factor_withScales (p : GibbsParam F nnorm) (normi : Fin nnorm → Fin (m + 1)) :
    p.factor normi (Function.update (s.withScales prop).scales 0 1) false = match p.norm with
      | none => 1
      | some g => drawn prop (normi g) := by
  have hdrawn (k : Fin (m + 1)) :
      (if 0 < k then Function.update (s.withScales prop).scales 0 1 k else 1) = drawn prop k := by
    cases k using Fin.cases with
    | zero => rfl
    | succ j => simp [drawn, withScales]
  rw [GibbsParam.factor]
  cases p.norm with
  | none => rfl
  | some g => exact hdrawn (normi g)

theorem useCacheProb_of_inference (hstddev : 0 < o.priorInferenceStddev) (hexp : o.expectation = false) :
    o.useCacheProb = true := by
  simp [GibbsOpts.useCacheProb, hexp, hstddev]

variable (pdf prop) in
/-- The state when the decision is made. -/
theorem tryPriors_snd (hcache : o.useCacheProb = true) (s : GibbsBase F n nnorm nb m) :
    ∃ c, (s.tryPriors o pdf prop).2 = { (s.withScales prop).scalePriors false with
        cachePriors := s.cachePriors.recompute ((s.withScales prop).scalePriors false).gps
        cache := c } := by
  obtain ⟨c₁, h₁⟩ := cacheProb_snd o false (s.withScales prop)
  obtain ⟨c₂, h₂⟩ := cacheProb_snd o true (((s.withScales prop).cacheProb o false).2.scalePriors false)
  refine ⟨c₂, h₂.trans ?_⟩
  rw [h₁]
  simp [hcache, scalePriors_eq, withScales]

theorem proposeNewPriors_of_rejected (hstddev : 0 < o.priorInferenceStddev)
    (hexp : o.expectation = false) (hrejected : ¬ s.AcceptsPriors o pdf prop) :
    ∃ scales c, s.proposeNewPriors o pdf prop = .ok { s with scales := scales, cache := c } := by
  obtain ⟨c, htried⟩ := tryPriors_snd pdf prop (useCacheProb_of_inference hstddev hexp) s
  have hlt : ¬ prop.random01 < (s.tryPriors o pdf prop).1 := fun h => hrejected ⟨hstddev, hexp, h⟩
  refine ⟨Function.update (s.withScales prop).scales 0 1, c, ?_⟩
  simp only [proposeNewPriors, if_neg (not_le.mpr hstddev), hexp, Bool.false_eq_true, if_false,
    if_neg hlt, htried]
  exact congrArg _ (scalePriors_scalePriors withScales_ne_zero c s.cachePriors)

theorem proposeNewPriors_of_accepted (haccepts : s.AcceptsPriors o pdf prop) :
    ∃ c, s.proposeNewPriors o pdf prop = .ok
      { (s.withScales prop).scalePriors false with
        cachePriors := s.cachePriors.recompute ((s.withScales prop).scalePriors false).gps
        cache := c } := by
  obtain ⟨hstddev, hexp, hlt⟩ := haccepts
  obtain ⟨c, htried⟩ := tryPriors_snd pdf prop (useCacheProb_of_inference hstddev hexp) s
  refine ⟨c, ?_⟩
  simp only [proposeNewPriors, if_neg (not_le.mpr hstddev), hexp, Bool.false_eq_true, if_false,
    if_pos hlt, htried]

/-- **A rejected proposal** changes nothing but the arrays it works in: the scales, and `ccount`
and `csum`. After an **accepted** one each prior is scaled by what was drawn for its group, and
`pcount` and `psum` are those of the new priors. -/
theorem proposeNewPriors_spec (h : s.proposeNewPriors o pdf prop = .ok s') :
    (¬ s.AcceptsPriors o pdf prop → ∃ scales c, s' = { s with scales := scales, cache := c }) ∧
    (s.AcceptsPriors o pdf prop →
      (∀ i, (s'.gps i).prior = (s.gps i).prior * match (s.gps i).norm with
        | none => 1
        | some g => drawn prop (s.priorScale.group g)) ∧
      s'.cachePriors = s.cachePriors.recompute s'.gps ∧
      (∀ i, (s'.gps i).norm ≠ none → s'.cachePriors.count i = (s'.gps i).prior) ∧
      ∀ g, s'.cachePriors.sum g = ∑ i, if (s'.gps i).norm = some g then (s'.gps i).prior else 0) := by
  constructor
  · intro hrejected
    by_cases hstddev : o.priorInferenceStddev ≤ 0
    · rw [proposeNewPriors, if_pos hstddev] at h
      cases h
      exact ⟨s.scales, s.cache, rfl⟩
    cases hexp : o.expectation with
    | true =>
      rw [proposeNewPriors, if_neg hstddev, if_pos hexp] at h
      cases h
    | false =>
      obtain ⟨scales, c, hrun⟩ := proposeNewPriors_of_rejected (not_le.mp hstddev) hexp hrejected
      rw [hrun] at h
      cases h
      exact ⟨scales, c, rfl⟩
  · intro haccepts
    obtain ⟨c, hrun⟩ := proposeNewPriors_of_accepted haccepts
    rw [hrun] at h
    cases h
    refine ⟨fun i => ?_, rfl, fun i hi => ?_, fun g => CacheArrays.recompute_sum _ g⟩
    · rw [mul_comm, scalePriors_eq]
      exact congrArg (· * (s.gps i).prior) (factor_withScales (s.gps i) s.priorScale.group)
    · exact (CacheArrays.recompute_count _ i).trans (if_neg hi)

/-- Twice the priors, with a number drawn that decides against it. -/
def twice : Proposal ℚ 1 := ⟨fun _ => ⟨2, two_pos⟩, 100⟩

theorem proposeNewPriors_twice :
    let s := sampleBase ![⟨0, [0, 2], []⟩, ⟨0, [1, 0], []⟩]
    let o := { sampleOpts with priorInferenceStddev := (1 : ℚ) }
    ∃ s', s.proposeNewPriors o (fun _ => 1) twice = .ok s' ∧
      ∃ scales c, s' = { s with scales := scales, cache := c } := by
  intro s o
  have hrejected : ¬ s.AcceptsPriors o (fun _ => 1) twice := by
    rintro ⟨-, -, hlt⟩
    exact absurd hlt (by decide +kernel)
  obtain ⟨scales, c, h⟩ := proposeNewPriors_of_rejected one_pos rfl hrejected
  exact ⟨_, h, (proposeNewPriors_spec h).1 hrejected⟩

end GibbsBase

end Carmel

/-!
## Runs of a Gibbs sampler

With `include_self` the counts of a block are taken away only after it was resampled.
Restarts keep the counts and the sample of the run with the best statistic. What resampling
a block leaves in it, and the random numbers, are given from outside.
-/

namespace Carmel

open Math

universe u

variable {F : Type u} [Field F] [LinearOrder F] {n nnorm nb m : ℕ}

/-- What `gibbs_base` is given from outside, in each run and iteration. -/
structure GibbsImp (F : Type u) [Zero F] [LT F] (n nb m : ℕ) where
  /-- `block_weight`. -/
  blockWeight : Fin nb → F
  /-- What `resample_block` leaves in a block. -/
  resampleBlock : ℕ → ℕ → Fin nb → BlockDelta F n
  /-- What `randomize` draws in a run. -/
  random01 : ℕ → Fin nb → ℕ → F
  /-- What `propose_new_priors` draws. -/
  proposal : ℕ → ℕ → Proposal F m
  /-- The density of proposed scales. -/
  pdf : F → F

namespace GibbsBase

variable (o : GibbsOpts F) (imp : GibbsImp F n nb m)

/-! ## One iteration -/

/-- The block is put aside, and with its counts unless they are included. -/
def beginBlock (b : Fin nb) (s : GibbsBase F n nnorm nb m) : GibbsBase F n nnorm nb m :=
  let s' := if o.includeSelf then s else s.addc o (s.sample b) (-imp.blockWeight b)
  let s' := s'.setBlock b (s.sample b).clear
  { s' with calls := s'.calls ++ [⟨s'.gps, s'.normsum, s'.sample, b, s.sample b⟩] }

/-- What the block holds after resampling, with its probability. -/
def resampled (r : ℕ) (randomize : Bool) (b : Fin nb) (s : GibbsBase F n nnorm nb m) :
    BlockDelta F n × GibbsBase F n nnorm nb m :=
  let bd := imp.resampleBlock r s.iter b
  if o.expectation then
    (if randomize then { bd.randomize (imp.random01 r b) with prob := 0 } else bd, s)
  else
    let q := s.prob o bd.id
    ({ bd with prob := q.1 }, q.2)

/-- The part of `iteration` that is about one block. -/
def iterateBlock (r : ℕ) (randomize : Bool) (x : F × GibbsBase F n nnorm nb m) (b : Fin nb) :
    F × GibbsBase F n nnorm nb m :=
  let own := x.2.sample b
  let s := x.2.beginBlock o imp b
  let (bd, s) := s.resampled o imp r randomize b
  let s := s.setBlock b bd
  let s := if o.includeSelf then s.addc o own (-imp.blockWeight b) else s
  (x.1 * bd.prob, s.addc o bd (imp.blockWeight b))

/-- `record_iteration`, once burned in. -/
def recordIteration (p : F) (s : GibbsBase F n nnorm nb m) : GibbsBase F n nnorm nb m :=
  { s with
    stats := if o.burnin ≤ s.iter then s.stats.record s.time p else s.stats
    samples := s.samples ++ [s.sample] }

/-- The loop of `iteration` over the blocks. -/
def iterateBlocks (r : ℕ) (randomize : Bool) (s : GibbsBase F n nnorm nb m) :
    F × GibbsBase F n nnorm nb m :=
  (List.finRange nb).foldl (iterateBlock o imp r randomize) (1, s.resetCache o)

/-- The end of `iteration`: the priors may be scaled. -/
def inferPriors (r : ℕ) (s : GibbsBase F n nnorm nb m) :
    Except (GibbsBase F n nnorm nb m) (GibbsBase F n nnorm nb m) :=
  if 0 < s.iter ∧ o.inferring s.iter = true then s.proposeNewPriors o imp.pdf (imp.proposal r s.iter)
  else .ok s

/-- `iteration`. -/
def iteration (r : ℕ) (randomize : Bool) (s : GibbsBase F n nnorm nb m) :
    Except (GibbsBase F n nnorm nb m) (GibbsBase F n nnorm nb m) := do
  let (p, s) := s.iterateBlocks o imp r randomize
  let s ← s.inferPriors o imp r
  .ok (s.recordIteration o p)

/-! ## A run -/

/-- The time of an iteration. -/
def timeOf (i : ℕ) : F :=
  let time := (i : F) - o.burnin
  if time < 0 then 0 else time

/-- Counts and norm sums are the priors', and the sample is empty. -/
def beginRun (s : GibbsBase F n nnorm nb m) : GibbsBase F n nnorm nb m :=
  let s := ({ s with stats := .clear, samples := [] }).restoreP0
  ({ s with iter := 0, time := 0 }).clearBlocks

/-- `run`. -/
def run (r : ℕ) (s : GibbsBase F n nnorm nb m) :
    Except (GibbsBase F n nnorm nb m) (GibbsBase F n nnorm nb m) := do
  let s ← s.beginRun.iteration o imp r (o.randomStart || (decide (r ≠ 0) && o.expectation))
  (List.range' 1 o.iter).foldlM
    (fun s i => ({ s with iter := i, time := timeOf o i }).iteration o imp r false) s

/-- `exclude_prior` of all parameters. -/
def excludePriors (s : GibbsBase F n nnorm nb m) : GibbsBase F n nnorm nb m :=
  if o.excludePrior then { s with gps := fun i => (s.gps i).excludePrior } else s

/-- `final_counts` of all parameters. -/
def extendCounts (s : GibbsBase F n nnorm nb m) :
    Except (GibbsBase F n nnorm nb m) (GibbsBase F n nnorm nb m) :=
  (List.finRange n).foldlM (fun s i =>
    match (s.gps i).finalCounts (o.finalT + 1) with
    | some p => .ok { s with gps := Function.update s.gps i p }
    | none => .error s) s

/-- `finalize_cumulative_counts`. -/
def finalizeCumulativeCounts (s : GibbsBase F n nnorm nb m) :
    Except (GibbsBase F n nnorm nb m) (GibbsBase F n nnorm nb m) :=
  if o.finalCounts && !o.excludePrior then .ok s
  else do
    let s := s.excludePriors o
    let s ← if o.finalCounts then .ok s else s.extendCounts o
    .ok s.computeNorms

/-- `init_cumulative`. -/
def initCumulative (s : GibbsBase F n nnorm nb m) : GibbsBase F n nnorm nb m :=
  { s with priorScale := { s.priorScale with cumulative := fun _ => 1 } }

/-- `restore_priors`. -/
def restorePriors (c : Fin n → F) (s : GibbsBase F n nnorm nb m) : GibbsBase F n nnorm nb m :=
  let s := { s with gps := fun i => { s.gps i with prior := c i } }
  (s.recomputeCachePriors o).initCumulative

/-- `save_counts`. -/
def saveCounts (s : GibbsBase F n nnorm nb m) : Fin n → F := fun i => (s.gps i).count

/-- `restore_probs`. -/
def restoreProbs (c : Fin n → F) (s : GibbsBase F n nnorm nb m) : GibbsBase F n nnorm nb m :=
  ({ s with gps := fun i => (s.gps i).restoreCount (c i) }).computeNorms

end GibbsBase

/-- What a run leaves. -/
structure RunRecord (F : Type u) (n nb : ℕ) where
  stats : GibbsStats F
  samples : List (Sample F n nb)

/-- The variables of `run_starts`, with a record of the runs and of the finalized states. -/
structure GibbsStarts (F : Type u) (n nnorm nb m : ℕ) where
  base : GibbsBase F n nnorm nb m
  bestCounts : Fin n → F
  bestSample : Sample F n nb
  best : GibbsStats F
  beststart : ℕ
  runs : List (RunRecord F n nb)
  finalized : List (GibbsBase F n nnorm nb m)

namespace GibbsStarts

variable (o : GibbsOpts F) (imp : GibbsImp F n nb m)

/-- A new best run. -/
def keep (r : ℕ) (x : GibbsStarts F n nnorm nb m) :
    Except (GibbsBase F n nnorm nb m) (GibbsStarts F n nnorm nb m) := do
  let s ← x.base.finalizeCumulativeCounts o
  .ok { x with
    base := { s with sample := x.bestSample }
    bestCounts := s.saveCounts
    bestSample := s.sample
    best := x.base.stats
    beststart := r
    finalized := x.finalized ++ [s] }

/-- One start. -/
def start (priors : Fin n → F) (x : GibbsStarts F n nnorm nb m) (r : ℕ) :
    Except (GibbsBase F n nnorm nb m) (GibbsStarts F n nnorm nb m) := do
  let s := if 0 < r ∧ 0 < o.restarts ∧ o.priorInferenceRestartFresh = true then
    x.base.restorePriors o priors else x.base
  let s ← s.run o imp r
  let x := { x with base := s, runs := x.runs ++ [⟨s.stats, s.samples⟩] }
  if r = 0 ∨ s.stats.better o x.best = true then x.keep o r else .ok x

/-- The variables before the first start. -/
def init (s : GibbsBase F n nnorm nb m) : GibbsStarts F n nnorm nb m :=
  ⟨({ s with calls := [] }.initCache o).initCumulative, fun _ => 0, fun _ => ⟨0, [], []⟩, .clear, 0, [],
    []⟩

/-- After the last start: the best sample and counts are put back. -/
def finish (x : GibbsStarts F n nnorm nb m) : GibbsStarts F n nnorm nb m :=
  let s := { x.base with sample := x.bestSample }
  { x with
    base := if 0 < o.restarts then s.restoreProbs x.bestCounts else s
    bestSample := x.base.sample }

/-- `run_starts`. -/
def runStarts (s : GibbsBase F n nnorm nb m) :
    Except (GibbsBase F n nnorm nb m) (GibbsStarts F n nnorm nb m) := do
  let priors := fun i => (s.gps i).prior
  let x ← (List.range' 0 (o.restarts + 1)).foldlM (start o imp priors) (init o s)
  .ok (x.finish o)

end GibbsStarts

end Carmel
