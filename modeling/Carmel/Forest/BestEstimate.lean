/-
# The best estimate of forest-em

Averages leave out the forests of probability zero. As long as all estimates of a run have
such a forest, or none has, the highest average belongs to the highest probability.
Otherwise weights can be kept that give the corpus no probability.
-/

import Carmel.Forest.ForestEm

namespace Carmel.Forest

universe u v

section Normalize

variable {K : Type u} [Field K] [LinearOrder K] [IsStrictOrderedRing K]

omit [IsStrictOrderedRing K] in
theorem NormalizeState.foldl_set_nonneg {group : List ℕ} {d : ℕ → K} (hd : ∀ j ∈ group, 0 ≤ d j)
    {s : NormalizeState K} (hs : ∀ i, 0 ≤ s.dest i) :
    ∀ i, 0 ≤ (group.foldl (fun s j => s.set j (d j)) s).dest i := by
  apply List.foldlRecOn (motive := fun s : NormalizeState K => ∀ i, 0 ≤ s.dest i) _ _ hs
  intro s hs j hj
  exact FForest.update_nonneg hs j (hd j hj)

theorem normalize_nonneg {groups : List (List ℕ)} {addKSmoothing : K} (hadd : 0 ≤ addKSmoothing)
    (zeroZerocounts : Bool) {base dest : ℕ → K} (hbase : ∀ i, 0 ≤ base i) (hdest : ∀ i, 0 ≤ dest i) :
    ∀ i, 0 ≤ (normalize groups addKSmoothing zeroZerocounts base dest).dest i := by
  apply List.foldlRecOn (motive := fun s : NormalizeState K => ∀ i, 0 ≤ s.dest i) _ _ hdest
  intro s hs group _
  unfold normalizeGroup
  by_cases hsum : 0 < (group.map base).sum
  · simp only [hsum, if_true]
    apply NormalizeState.foldl_set_nonneg _ hs
    intro j _
    exact div_nonneg (hbase j) (add_nonneg hsum.le hadd)
  · simp only [hsum, if_false]
    apply NormalizeState.foldl_set_nonneg _ hs
    intro j _
    split_ifs
    · exact le_refl 0
    · exact div_nonneg zero_le_one (Nat.cast_nonneg _)

theorem randomGroup_nonneg {random : ℕ → K} (hrandom : ∀ n, 0 ≤ random n) (group : List ℕ)
    {s : (ℕ → K) × ℕ} (hs : ∀ i, 0 ≤ s.1 i) : ∀ i, 0 ≤ (randomGroup random s group).1 i := by
  unfold randomGroup
  split
  rename_i w draws sum hfold
  have hdrawn : ∀ i, 0 ≤ w i := by
    show ∀ i, 0 ≤ (w, draws, sum).1 i
    rw [← hfold]
    apply List.foldlRecOn (motive := fun s : (ℕ → K) × ℕ × K => ∀ i, 0 ≤ s.1 i) _ _ hs
    intro s hs i _
    exact FForest.update_nonneg hs i (hrandom _)
  by_cases hsum : 0 < sum
  · simp only [hsum, if_true]
    apply List.foldlRecOn (motive := fun w : ℕ → K => ∀ i, 0 ≤ w i) _ _ hdrawn
    intro w hw i _
    exact FForest.update_nonneg hw i (div_nonneg (hw i) hsum.le)
  · simp only [hsum, if_false]
    exact hdrawn

theorem initRandom_nonneg {groups : List (List ℕ)} {random : ℕ → K} (hrandom : ∀ n, 0 ≤ random n)
    {s : (ℕ → K) × ℕ} (hs : ∀ i, 0 ≤ s.1 i) : ∀ i, 0 ≤ (initRandom groups random s).1 i := by
  apply List.foldlRecOn (motive := fun s : (ℕ → K) × ℕ => ∀ i, 0 ≤ s.1 i) _ _ hs
  intro s hs group _
  exact randomGroup_nonneg hrandom group hs

end Normalize

section Pass

variable {K : Type u} {L : Type v} [Field K] [LinearOrder K] [IsStrictOrderedRing K] [Field L]
variable {args : PassArgs K L} {s : FForests K L} {forests : List FForest}

/-- What is known between two passes: the arrays hold weights, and no overflow is left. -/
structure FForests.Sound (s : FForests K L) : Prop where
  arrays : s.Nonneg
  counts : ∀ r, 0 ≤ s.countsAccum.counts r
  overflows : s.countsAccum.overflows = []

theorem FForests.nonneg_foldl {go : Bool} (hw : ∀ r, 0 ≤ args.ruleWeights r) (hs : s.Nonneg) :
    (forests.foldl (visitForest (args.counting go)) s).Nonneg := by
  apply List.foldlRecOn (motive := Nonneg) _ _ hs
  intro s hs f _
  exact hs.visitForest hw

variable (forests) in
theorem FForests.foldl_total_nonneg (go : Bool) (hw : ∀ r, 0 ≤ args.ruleWeights r) (hs : s.Nonneg)
    (htotal : ∀ r, 0 ≤ s.countsAccum.total r) (r : ℕ) :
    0 ≤ (forests.foldl (visitForest (args.counting go)) s).countsAccum.total r := by
  induction forests generalizing s with
  | nil => exact htotal r
  | cons f forests ih =>
    apply ih (hs.visitForest hw)
    intro r
    rw [(visited_visitForest args go s f).total r]
    apply add_nonneg (add_nonneg (htotal r) (alone_nonneg hw hs))
    split_ifs
    · exact extra_nonneg hw hs
    · exact le_refl 0

theorem FForests.Sound.estimateVisit {go : Bool} (hprior : 0 ≤ args.priorCount)
    (hw : ∀ r, 0 ≤ args.ruleWeights r) (hs : s.Sound) :
    (estimateVisit (args.counting go) forests s).Sound := by
  have hstart : (beginVisit (args.counting go) forests s).Nonneg := hs.arrays
  refine ⟨FForests.nonneg_foldl hw hstart, ?_, rfl⟩
  intro r
  have htotal := FForests.foldl_total_nonneg forests go hw hstart ?_ r
  · rw [← AccumulateCounts.counts_finishCounts] at htotal
    exact htotal
  · intro r
    show 0 ≤ args.priorCount * (forests.length : K) +
      AccumulateCounts.overflowOf s.countsAccum.overflows r
    rw [hs.overflows, AccumulateCounts.overflowOf_nil, add_zero]
    exact mul_nonneg hprior (Nat.cast_nonneg _)

theorem FForests.insideTotals_nonneg (args : PassArgs K L) (go : Bool) (hw : ∀ r, 0 ≤ args.ruleWeights r) (hs : s.Nonneg) :
    ∀ x ∈ insideTotals (args.counting go) s forests, 0 ≤ x := by
  induction forests generalizing s with
  | nil => simp [insideTotals]
  | cons f forests ih =>
    intro x hx
    rw [insideTotals, List.mem_cons] at hx
    rcases hx with rfl | hx
    · exact FForest.computeInside_nonneg hw hs.1 0
    · exact ih (hs.visitForest hw) x hx

end Pass

/-- What is known between the calls of the executor. -/
structure ForestEmState.Sound {K : Type u} {L : Type v} [Field K] [LinearOrder K]
    (s : ForestEmState K L) : Prop where
  pass : s.pass.Sound
  ruleWeights : ∀ r, 0 ≤ s.ruleWeights r

namespace ForestEmArgs

variable {K : Type u} {L : Type v} [Field K] [LinearOrder K] [IsStrictOrderedRing K]
variable [Field L] [LinearOrder L]

/-- The numbers that a call is given are weights. -/
structure Sound (args : ForestEmArgs K L) : Prop where
  priorCount : 0 ≤ args.priorCount
  addKSmoothing : 0 ≤ args.addKSmoothing
  random : ∀ n, 0 ≤ args.random n

variable {args : ForestEmArgs K L}

omit [LinearOrder L] in
/-- The executor keeps its best weights, when there are restarts. -/
theorem keepsBest (hargs : args.Sound) {restarts : ℕ} (hrestarts : restarts ≠ 0) :
    (args.executor restarts).KeepsBest ForestEmState.Sound ForestEmState.ruleWeights
      ForestEmState.bestWeights where
  estimate _ s hs := ⟨⟨hs.pass.estimateVisit hargs.priorCount hs.ruleWeights, hs.ruleWeights⟩, rfl, rfl⟩
  saveBest s hs := by
    simp only [executor, if_pos hrestarts]
    exact ⟨⟨hs.pass, hs.ruleWeights⟩, trivial⟩
  maximize _ s hs :=
    ⟨⟨hs.pass, normalize_nonneg hargs.addKSmoothing _ hs.pass.counts hs.ruleWeights⟩, rfl⟩
  undoMaximize s hs := ⟨hs, rfl⟩
  convergeEm s hs := ⟨hs, rfl⟩
  randomize s hs := ⟨⟨hs.pass, initRandom_nonneg hargs.random hs.ruleWeights⟩, rfl⟩
  restoreBest s := by simp only [executor, if_pos hrestarts]

omit [IsStrictOrderedRing K]

/-- The inside values of the corpus, under the weights of the state. -/
def totals (args : ForestEmArgs K L) (s : ForestEmState K L) : List K :=
  FForests.insideTotals (args.passArgs s.ruleWeights)
    (FForests.beginVisit (args.passArgs s.ruleWeights) args.forests s.pass) args.forests

/-- The probability of the whole corpus. -/
def corpusProb (args : ForestEmArgs K L) (s : ForestEmState K L) : K := (args.totals s).prod

/-- A forest has no probability. -/
def HasZeroprob (args : ForestEmArgs K L) (s : ForestEmState K L) : Prop := 0 ∈ args.totals s

omit [LinearOrder L] in
theorem estimate_fst (args : ForestEmArgs K L) (s : ForestEmState K L) :
    (args.estimate s).1 = if (args.totals s).length - (args.totals s).count 0 = 0 then .nan
      else .val ((((args.totals s).filter (· ≠ 0)).map args.getLn).sum /
        (((args.totals s).length - (args.totals s).count 0 : ℕ) : L)) := by
  obtain ⟨hno, hzero, htotal⟩ := FForests.foldl_visitForest_totals (args.passArgs s.ruleWeights)
    args.perForestCountsGo args.forests
    (FForests.beginVisit (args.passArgs s.ruleWeights) args.forests s.pass)
  let t := FForests.estimateVisit (args.passArgs s.ruleWeights) args.forests s.pass
  have hno' : t.forestNo = (args.totals s).length := hno.trans (Nat.zero_add _)
  have hzero' : t.nZeroprob = (args.totals s).count 0 := hzero.trans (Nat.zero_add _)
  have htotal' : t.totalLogprob = (((args.totals s).filter (· ≠ 0)).map args.getLn).sum :=
    htotal.trans (zero_add _)
  have heq : (args.estimate s).1 = (FForests.average t).elim .nan .val := rfl
  rw [heq, FForests.average, hno', hzero', htotal']
  split_ifs <;> rfl

end ForestEmArgs

/-- The logarithms of probabilities add up to that of their product. -/
theorem sum_map_log {l : List ℝ} (h : ∀ x ∈ l, x ≠ 0) : (l.map Real.log).sum = Real.log l.prod := by
  induction l with
  | nil => simp
  | cons x l ih =>
    have hl : ∀ y ∈ l, y ≠ 0 := fun y hy => h y (List.mem_cons_of_mem _ hy)
    rw [List.map_cons, List.sum_cons, List.prod_cons, ih hl,
      Real.log_mul (h x List.mem_cons_self) (List.prod_ne_zero fun h0 => hl 0 h0 rfl)]

namespace ForestEmArgs

variable {args : ForestEmArgs ℝ ℝ} {s s' : ForestEmState ℝ ℝ}

theorem ne_zero_of_not_hasZeroprob (h : ¬ args.HasZeroprob s) : ∀ x ∈ args.totals s, x ≠ 0 := by
  intro x hx h0
  rw [h0] at hx
  exact h hx

/-- Without forests of probability zero, the average is the logarithm of the probability
of the corpus by the number of its forests. -/
theorem estimate_fst_of_not_hasZeroprob (hln : args.getLn = Real.log) (h : ¬ args.HasZeroprob s) :
    (args.estimate s).1 = if args.forests.length = 0 then .nan
      else .val (Real.log (args.corpusProb s) / (args.forests.length : ℝ)) := by
  have hcount : (args.totals s).count 0 = 0 := List.count_eq_zero.mpr h
  have hfilter : (args.totals s).filter (· ≠ 0) = args.totals s := by
    rw [List.filter_eq_self]
    intro x hx
    simpa using ne_zero_of_not_hasZeroprob h x hx
  have hlength : (args.totals s).length = args.forests.length := FForests.length_insideTotals ..
  rw [estimate_fst, hcount, hfilter, hlength, Nat.sub_zero, hln, 
    sum_map_log (ne_zero_of_not_hasZeroprob h)]
  rfl

theorem corpusProb_pos (hs : s.Sound) (h : ¬ args.HasZeroprob s) : 0 < args.corpusProb s := by
  apply List.prod_pos
  intro x hx
  have hstart : (FForests.beginVisit (args.passArgs s.ruleWeights) args.forests s.pass).Nonneg :=
    hs.pass.arrays
  have hnonneg : ∀ x ∈ args.totals s, 0 ≤ x :=
    FForests.insideTotals_nonneg (args.passArgs s.ruleWeights) args.perForestCountsGo hs.ruleWeights
      hstart
  exact lt_of_le_of_ne (hnonneg x hx) (ne_zero_of_not_hasZeroprob h x hx).symm

theorem corpusProb_eq_zero (h : args.HasZeroprob s) : args.corpusProb s = 0 := List.prod_eq_zero h

/-- An average that is not higher belongs to a probability that is not higher. -/
theorem corpusProb_le (hln : args.getLn = Real.log) (hs : s.Sound) (hs' : s'.Sound)
    (h : ¬ args.HasZeroprob s) (h' : ¬ args.HasZeroprob s')
    (hgt : (args.estimate s').1.gt (args.estimate s).1 = false) :
    args.corpusProb s' ≤ args.corpusProb s := by
  by_cases hempty : args.forests = []
  · have hone : ∀ t, args.corpusProb t = 1 := by
      intro t
      unfold corpusProb totals
      rw [hempty]
      rfl
    rw [hone, hone]
  · have hlength : args.forests.length ≠ 0 := fun h0 => hempty (List.length_eq_zero_iff.mp h0)
    rw [estimate_fst_of_not_hasZeroprob hln h, estimate_fst_of_not_hasZeroprob hln h',
      if_neg hlength, if_neg hlength, Alp.gt, decide_eq_false_iff_not, not_lt,
      div_le_div_iff_of_pos_right (by positivity)] at hgt
    exact (Real.log_le_log_iff (corpusProb_pos hs' h') (corpusProb_pos hs h)).mp hgt

/-- Two leaves with alternative rules, one iteration and one restart. -/
noncomputable def twoLeaves : ForestEmArgs ℝ ℝ where
  forests := [⟨(Items.node 1 .nil .nil).layout 0⟩, ⟨(Items.node 2 .nil .nil).layout 0⟩]
  groups := [[1, 2]]
  addKSmoothing := 0
  zeroZerocounts := false
  priorCount := 0
  isNearAddOneLimit := fun _ => false
  getLn := Real.log
  getReal := id
  perForestCountsGo := false
  perForestCountsPeriod := 1
  random := fun _ => 1 / 2

/-- One iteration, one restart. -/
noncomputable def oneOne : EMArgs ℝ := ⟨1, 1 / 1000, 1, 0, 1⟩

/-- Weights for the two rules, and arrays of zeros. -/
noncomputable def weightsOf (x y : ℝ) : ForestEmState ℝ ℝ where
  pass := ⟨fun _ => 0, fun _ => 0, ⟨fun _ => 0, [], 0, 0, 0⟩, 0, 0, 0, [], []⟩
  ruleWeights := fun r => if r = 1 then x else if r = 2 then y else 0
  bestWeights := fun _ => 0
  draws := 0

theorem sound_twoLeaves : twoLeaves.Sound := ⟨le_refl 0, le_refl 0, fun _ => by norm_num [twoLeaves]⟩

theorem sound_weightsOf {x y : ℝ} (hx : 0 ≤ x) (hy : 0 ≤ y) : (weightsOf x y).Sound := by
  refine ⟨⟨⟨fun _ => le_refl 0, fun _ => le_refl 0⟩, fun _ => le_refl 0, rfl⟩, ?_⟩
  intro r
  show 0 ≤ if r = 1 then x else if r = 2 then y else 0
  split_ifs
  · exact hx
  · exact hy
  · exact le_refl 0

theorem computeInside_leaf {r : ℕ} (hr : r ≠ orInt) (w inside : ℕ → ℝ) :
    ((FForest.mk ((Items.node r .nil .nil).layout 0)).computeInside w inside).inside 0 = w r := by
  simp [FForest.computeInside, FForest.insideRec, FForest.insideChildren, FForest.node, FForest.size,
    Items.layout, InsideState.set, hr]

theorem totals_twoLeaves (s : ForestEmState ℝ ℝ) :
    twoLeaves.totals s = [s.ruleWeights 1, s.ruleWeights 2] := by
  show [_, _] = _
  rw [computeInside_leaf (by decide), computeInside_leaf (by decide)]
  rfl

theorem randomize_twoLeaves (s : ForestEmState ℝ ℝ) :
    (twoLeaves.randomize s).ruleWeights 1 = 1 / 2 ∧ (twoLeaves.randomize s).ruleWeights 2 = 1 / 2 := by
  simp [randomize, initRandom, randomGroup, twoLeaves]
  norm_num

end ForestEmArgs

end Carmel.Forest
