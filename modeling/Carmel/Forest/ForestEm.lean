/-
# EM for forests

forest-em gives `overrelaxed_em` an executor: an estimate is a pass over the forests,
a maximization normalizes the counts, and the best weights are kept when there are
restarts.
-/

import Carmel.Forest.PerForest
import Carmel.Train.OverrelaxedEm

namespace Carmel.Forest

universe u v

section Normalize

variable {K : Type u} [Field K] [LinearOrder K]

/-- The weights, and the largest change. -/
structure NormalizeState (K : Type u) where
  dest : ℕ → K
  maxdiff : K

/-- A weight is set, and the change noted. -/
def NormalizeState.set (j : ℕ) (d : K) (s : NormalizeState K) : NormalizeState K :=
  ⟨Function.update s.dest j d, max s.maxdiff |d - s.dest j|⟩

/-- The normalization of one group. Counts of zero give uniform weights, or zeros. -/
def normalizeGroup (addKSmoothing : K) (zeroZerocounts : Bool) (base : ℕ → K)
    (s : NormalizeState K) (group : List ℕ) : NormalizeState K :=
  let sum := (group.map base).sum
  if 0 < sum then group.foldl (fun s j => s.set j (base j / (sum + addKSmoothing))) s
  else
    let setto := if zeroZerocounts then 0 else 1 / (group.length : K)
    group.foldl (fun s j => s.set j setto) s

/-- `normalize`. -/
def normalize (groups : List (List ℕ)) (addKSmoothing : K) (zeroZerocounts : Bool)
    (base dest : ℕ → K) : NormalizeState K :=
  groups.foldl (normalizeGroup addKSmoothing zeroZerocounts base) ⟨dest, 0⟩

/-- `visit` with random weights, which are drawn from a stream. -/
def randomGroup (random : ℕ → K) (s : (ℕ → K) × ℕ) (group : List ℕ) : (ℕ → K) × ℕ :=
  let (w, draws, sum) := group.foldl
    (fun (w, draws, sum) i => (Function.update w i (random draws), draws + 1, sum + random draws))
    (s.1, s.2, 0)
  (if 0 < sum then group.foldl (fun w i => Function.update w i (w i / sum)) w else w, draws)

/-- `init_random`. -/
def initRandom (groups : List (List ℕ)) (random : ℕ → K) (s : (ℕ → K) × ℕ) : (ℕ → K) × ℕ :=
  groups.foldl (randomGroup random) s

end Normalize

/-- What a call of forest-em is given. -/
structure ForestEmArgs (K : Type u) (L : Type v) where
  forests : List FForest
  groups : List (List ℕ)
  addKSmoothing : K
  zeroZerocounts : Bool
  priorCount : K
  isNearAddOneLimit : K → Bool
  getLn : K → L
  getReal : K → L
  perForestCountsGo : Bool
  perForestCountsPeriod : ℕ
  random : ℕ → K

/-- The parameters, beside what a pass changes, and how many random numbers were drawn. -/
structure ForestEmState (K : Type u) (L : Type v) where
  pass : FForests K L
  ruleWeights : ℕ → K
  bestWeights : ℕ → K
  draws : ℕ

namespace ForestEmArgs

variable {K : Type u} {L : Type v} [Field K] [LinearOrder K] [Field L] [LinearOrder L]
variable (args : ForestEmArgs K L)

/-- What the pass of an estimate with given weights reads. -/
def passArgs (ruleWeights : ℕ → K) : PassArgs K L where
  ruleWeights := ruleWeights
  priorCount := args.priorCount
  isNearAddOneLimit := args.isNearAddOneLimit
  getLn := args.getLn
  collectCounts := true
  perForestCountsGo := args.perForestCountsGo
  perForestCountsPeriod := args.perForestCountsPeriod

/-- `estimate`. -/
def estimate (s : ForestEmState K L) : Alp L × ForestEmState K L :=
  let (average, pass) := FForests.estimate (args.passArgs s.ruleWeights) args.forests s.pass
  (average.elim .nan .val, { s with pass := pass })

/-- `maximize`; the learning rate is ignored. -/
def maximize (s : ForestEmState K L) : L × ForestEmState K L :=
  let normalized := normalize args.groups args.addKSmoothing args.zeroZerocounts
    s.pass.countsAccum.counts s.ruleWeights
  (args.getReal normalized.maxdiff, { s with ruleWeights := normalized.dest })

/-- `randomize`. -/
def randomize (s : ForestEmState K L) : ForestEmState K L :=
  let (ruleWeights, draws) := initRandom args.groups args.random (s.ruleWeights, s.draws)
  { s with ruleWeights := ruleWeights, draws := draws }

/-- The executor of a call with `restarts` restarts: only then the best weights are kept. -/
def executor (restarts : ℕ) : EMExecutor (ForestEmState K L) L where
  randomize := args.randomize
  estimate _ := args.estimate
  maximize _ := args.maximize
  undoMaximize := id
  convergeEm := id
  saveBest s := if restarts ≠ 0 then { s with bestWeights := s.ruleWeights } else s
  restoreBest s := if restarts ≠ 0 then { s with ruleWeights := s.bestWeights } else s

/-- `perform_forest_em`, from given weights; the learning rate does not grow. -/
def perform (em : EMArgs L) (s : ForestEmState K L) : Alp L × EMState (ForestEmState K L) L :=
  (args.executor em.ranRestarts).overrelaxedEm { em with learningRateGrowthFactor := 1 } s

end ForestEmArgs

namespace FForests

variable {K : Type u} {L : Type v} [Field K] [LinearOrder K] [Field L]

/-- The inside values of the forests that a pass visits. -/
def insideTotals (args : PassArgs K L) : FForests K L → List FForest → List K
  | _, [] => []
  | s, f :: forests =>
    (f.computeInside args.ruleWeights s.inside).inside 0 ::
      insideTotals args (visitForest args s f) forests

variable (args : PassArgs K L) (go : Bool) (forests : List FForest) (s : FForests K L)

theorem length_insideTotals : (insideTotals args s forests).length = forests.length := by
  induction forests generalizing s with
  | nil => rfl
  | cons f forests ih => rw [insideTotals, List.length_cons, List.length_cons, ih]

/-- What a pass counts and adds up. -/
theorem foldl_visitForest_totals :
    let t := forests.foldl (visitForest (args.counting go)) s
    let totals := insideTotals (args.counting go) s forests
    t.forestNo = s.forestNo + totals.length ∧ t.nZeroprob = s.nZeroprob + totals.count 0 ∧
      t.totalLogprob = s.totalLogprob + ((totals.filter (· ≠ 0)).map args.getLn).sum := by
  induction forests generalizing s with
  | nil => simp [insideTotals]
  | cons f forests ih =>
    have h := visited_visitForest args go s f
    obtain ⟨hno, hzero, htotal⟩ := ih (visitForest (args.counting go) s f)
    have hinside : (visitForest (args.counting go) s f).inside 0 =
        (f.computeInside (args.counting go).ruleWeights s.inside).inside 0 := by rw [h.inside]; rfl
    rw [List.foldl_cons]
    refine ⟨?_, ?_, ?_⟩
    · rw [hno, h.forestNo, insideTotals, List.length_cons]
      omega
    · rw [hzero, h.nZeroprob, insideTotals, List.count_cons, ← hinside]
      by_cases hx : (visitForest (args.counting go) s f).inside 0 = 0
      · simp only [hx, if_true, beq_self_eq_true]
        omega
      · simp [hx]
    · rw [htotal, h.totalLogprob, insideTotals, ← hinside]
      by_cases hx : (visitForest (args.counting go) s f).inside 0 = 0
      · simp [hx]
      · simp [hx, add_assoc]

end FForests

end Carmel.Forest
