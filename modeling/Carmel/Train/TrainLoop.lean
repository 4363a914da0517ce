/-
# The training loop

`train` estimates and maximizes in turn, with restarts from random weights, and keeps the
weights of the lowest perplexity; for a cascade it keeps the counts that gave them. What the
estimates find, the random weights and the comparison of perplexities, which may be infinite
or undefined, are given. The state lists the estimates made; the program does not read this
list.
-/

import Carmel.Train.Maximize

namespace Carmel

universe u v

/-- How the loop compares perplexities. -/
structure PerplexityOps (P : Type v) where
  infinity : P
  /-- `new < best`. -/
  less : P → P → Bool
  /-- `new.relative_perplexity_ratio(last) >= converge_perplexity_ratio`. -/
  converged : P → P → Bool
  /-- Zero is at least `converge_perplexity_ratio`. -/
  convergedAtOnce : Bool
  /-- `ra.accept`, from the first restart on, of a start and the best start. -/
  promising : ℕ → P → P → Bool

/-- What the loop is given from outside. -/
structure Oracle (P : Type v) (F : Type u) [Zero F] [LE F] where
  /-- The perplexity that an estimate finds. -/
  perplexity : ℕ → P
  /-- The counts that an estimate leaves. -/
  counts : ℕ → Weights F
  /-- The weights that `randomSet` draws at a restart. -/
  random : ℕ → Param → Weight F → Weight F

/-- The arguments of `train`. -/
structure TrainOpts (F : Type u) [Zero F] [LE F] where
  maxIter : ℕ
  ranRestarts : ℕ
  learningRateGrowthFactor : F
  convergeArcDelta : Weight F
  weightIsPriorCount : Bool
  smoothFloor : Weight F

/-- An estimate that was made. -/
structure Estimated (P : Type v) (F : Type u) [Zero F] [LE F] where
  perplexity : P
  /-- The weights may be kept if the perplexity is the lowest. -/
  eligible : Bool
  weight : Weights F

/-- The variables of `train`. -/
structure TrainState (P : Type v) (F : Type u) [Zero F] [LE F] where
  weights : TrainWeights F
  bestPerplexity : P
  haveGoodWeights : Bool
  bestStart : P
  trainIter : ℕ
  lastPerplexity : P
  learningRate : F
  lastWasReset : Bool
  history : List (Estimated P F)

/-- A call of `train`. -/
structure Trainer (P : Type v) (F : Type u) [Zero F] [LE F] where
  cascade : TrainCascade F
  order : HashOrder (ℕ × List (HalfArc (Weight F)))
  pow : Weight F → F → Weight F
  opts : TrainOpts F
  ops : PerplexityOps P
  oracle : Oracle P F

namespace Trainer

variable {P : Type v} {F : Type u} [Field F] [LinearOrder F] [IsStrictOrderedRing F]
variable (L : Trainer P F)

/-- `MAX_LEARNING_RATE_EXP`. -/
def maxLearningRateExp : F := 20

/-- Overrelaxation is disabled for cascades. -/
def growthFactor : F := if L.cascade.trivial then L.opts.learningRateGrowthFactor else 1

/-- `set`: the prior counts, from the weights there are when the arcs table is made. -/
def priorCounts (w : Weights F) : Weights F := fun p =>
  if L.opts.weightIsPriorCount then L.opts.smoothFloor + w p else L.opts.smoothFloor

/-- `randomize`. -/
def randomize (no : ℕ) (w : Weights F) : Weights F :=
  L.cascade.members.zipIdx.foldl (fun w m =>
    if m.1.2.group ≠ .NONE then m.1.1.changeEachParameter m.2 (L.oracle.random no) w else w) w

/-- `random_restart`. -/
def randomRestart (no : ℕ) (s : TrainState P F) : TrainState P F :=
  { s with weights :=
      { s.weights with weight := L.cascade.normalize L.order (L.randomize no s.weights.weight) } }

/-- The variables of the inner loop. -/
def enter (s : TrainState P F) : TrainState P F :=
  { s with
    trainIter := 0
    lastPerplexity := L.ops.infinity
    learningRate := 1
    lastWasReset := false }

/-- What comes before the estimate. The counts that gave the weights are saved, except for a
start, which has none. -/
def beginIteration (s : TrainState P F) : TrainState P F :=
  let w := if ¬ L.cascade.trivial ∧ s.trainIter ≠ 0 then L.cascade.saveCounts s.weights else s.weights
  { s with
    trainIter := s.trainIter + 1
    weights := { w with weight := L.cascade.update w.weight } }

/-- The perplexity of the estimate that comes next. -/
def newPerplexity (s : TrainState P F) : P := L.oracle.perplexity s.history.length

/-- `!using_cascade || cascade_counts`, once the iteration has begun. -/
def eligible (s : TrainState P F) : Bool := L.cascade.trivial || s.trainIter != 1

/-- The estimate. -/
def recordEstimate (s : TrainState P F) : TrainState P F :=
  let made : Estimated P F := ⟨L.newPerplexity s, L.eligible s, s.weights.weight⟩
  if L.ops.less made.perplexity s.bestPerplexity && made.eligible then
    { s with
      bestPerplexity := made.perplexity
      haveGoodWeights := true
      weights := L.cascade.saveBest s.weights
      history := s.history ++ [made] }
  else { s with history := s.history ++ [made] }

/-- The maximization and what comes after it; the flag tells to leave the loop. -/
def maximizeStep (prior : Weights F) (newPerplexity : P) (s : TrainState P F) : TrainState P F × Bool :=
  let (w, lastChange) := L.cascade.maximize L.order L.pow
    ⟨L.oracle.counts (s.history.length - 1), prior, s.learningRate⟩ s.weights
  let s := { s with weights := w }
  if lastChange ≤ L.opts.convergeArcDelta ∧ s.haveGoodWeights then (s, true)
  else ({ s with lastPerplexity := newPerplexity }, false)

/-- `ra.accept`: whether to go on from here. -/
def accept (no : ℕ) (newPerplexity : P) (s : TrainState P F) : Bool :=
  no = 0 || L.ops.promising no newPerplexity s.bestStart

/-- `ra.accept`: the first start is the one to compare with. -/
def noteStart (no : ℕ) (newPerplexity : P) (s : TrainState P F) : TrainState P F :=
  if s.trainIter = 1 ∧ no = 0 then { s with bestStart := newPerplexity } else s

/-- `pp_ratio_scaled >= converge_perplexity_ratio`. -/
def hasConverged (newPerplexity : P) (s : TrainState P F) : Bool :=
  if s.trainIter = 1 then L.ops.convergedAtOnce else L.ops.converged newPerplexity s.lastPerplexity

def raiseRate (s : TrainState P F) : TrainState P F :=
  { s with learningRate :=
      if s.learningRate < maxLearningRateExp then s.learningRate * L.growthFactor
      else s.learningRate }

/-- The relaxation rate was too high. -/
def resetRate (s : TrainState P F) : TrainState P F :=
  { s with
    learningRate := 1
    weights := L.cascade.keepEmWeight s.weights
    lastWasReset := true }

/-- The test for convergence, and the maximization. Without good weights the loop goes on. -/
def goOn (prior : Weights F) (newPerplexity : P) (s : TrainState P F) : TrainState P F × Bool :=
  if s.lastWasReset then L.maximizeStep prior newPerplexity { s with lastWasReset := false }
  else if L.hasConverged newPerplexity s = false then
    L.maximizeStep prior newPerplexity (L.raiseRate s)
  else if 1 < s.learningRate then (L.resetRate s, false)
  else if s.haveGoodWeights then (s, true)
  else L.maximizeStep prior newPerplexity s

/-- What comes after the estimate of the perplexity given. -/
def afterEstimate (prior : Weights F) (no : ℕ) (newPerplexity : P) (s : TrainState P F) :
    TrainState P F × Bool :=
  if s.trainIter = 1 ∧ L.accept no newPerplexity s = false then (s, true)
  else L.goOn prior newPerplexity (noteStart no newPerplexity s)

/-- One iteration of the inner loop; the flag tells to leave the loop. -/
def iteration (prior : Weights F) (no : ℕ) (s : TrainState P F) : TrainState P F × Bool :=
  let s := L.beginIteration s
  if L.opts.maxIter < s.trainIter ∧ s.haveGoodWeights then (s, true)
  else L.afterEstimate prior no (L.newPerplexity s) (L.recordEstimate s)

/-- The inner loop; `none` if it is still running when the fuel is used up. -/
def innerLoop (prior : Weights F) (no : ℕ) : ℕ → TrainState P F → Option (TrainState P F)
  | 0, _ => none
  | fuel + 1, s =>
    let (s, leave) := L.iteration prior no s
    if leave then some s else innerLoop prior no fuel s

/-- The outer loop, with `n` restarts to go. -/
def restartLoop (prior : Weights F) (fuel : ℕ) : ℕ → ℕ → TrainState P F → Option (TrainState P F)
  | 0, no, s => L.innerLoop prior no fuel (L.enter s)
  | n + 1, no, s =>
    (L.innerLoop prior no fuel (L.enter s)).bind fun s =>
      restartLoop prior fuel n (no + 1) (L.randomRestart no s)

/-- The weights after `cascade.normalize`. -/
def initial (s : TrainWeights F) : TrainWeights F :=
  { s with weight := L.cascade.normalize L.order s.weight }

/-- The state before the first iteration. -/
def start (s : TrainWeights F) : TrainState P F where
  weights := L.initial s
  bestPerplexity := L.ops.infinity
  haveGoodWeights := false
  bestStart := L.ops.infinity
  trainIter := 0
  lastPerplexity := L.ops.infinity
  learningRate := 1
  lastWasReset := false
  history := []

/-- The best weights are put back. -/
def finish (s : TrainState P F) : TrainWeights F :=
  let w := L.cascade.loadBest s.weights
  { w with weight := L.cascade.useCountsFinal L.order w.weight }

/-- There is more than a single iteration to make. -/
def Multiple : Prop := ¬ (L.opts.maxIter = 0 ∨ (L.opts.maxIter = 1 ∧ L.opts.ranRestarts = 0))

instance : Decidable L.Multiple := inferInstanceAs (Decidable (¬ _))

/-- The single iteration: fractional counts, or one maximization. -/
def singleIteration (prior : Weights F) (s : TrainWeights F) : TrainWeights F :=
  let s := { s with weight := L.cascade.update s.weight }
  if L.opts.maxIter = 0 then
    let s := L.cascade.prepNewWeights ⟨L.oracle.counts 0, prior, 1⟩ s
    { s with weight := L.cascade.distributeCounts s.weight }
  else
    let s := (L.cascade.maximize L.order L.pow ⟨L.oracle.counts 0, prior, 1⟩ s).1
    { s with weight := L.cascade.useCountsFinal L.order s.weight }

/-- `train`: the perplexity it returns, the weights it leaves, and the estimates it made. -/
def train (fuel : ℕ) (s : TrainWeights F) : Option (P × TrainWeights F × List (Estimated P F)) :=
  let prior := L.priorCounts (L.initial s).weight
  if L.Multiple then
    (L.restartLoop prior fuel L.opts.ranRestarts 0 (L.start s)).map fun s =>
      (s.bestPerplexity, L.finish s, s.history)
  else
    some (L.oracle.perplexity 0, L.singleIteration prior (L.initial s),
      [⟨L.oracle.perplexity 0, true, L.cascade.update (L.initial s).weight⟩])

section Steps

variable {L} {prior : Weights F} {no : ℕ} {p : P} {s : TrainState P F}

omit [IsStrictOrderedRing F] in
theorem recordEstimate_fields (s : TrainState P F) :
    (L.recordEstimate s).trainIter = s.trainIter ∧ (L.recordEstimate s).bestStart = s.bestStart ∧
      (L.recordEstimate s).history =
        s.history ++ [⟨L.newPerplexity s, L.eligible s, s.weights.weight⟩] := by
  rw [recordEstimate]
  dsimp only
  split <;> exact ⟨rfl, rfl, rfl⟩

/-- The perplexity is the best so far, and its weights may be kept. -/
def Improves (L : Trainer P F) (s : TrainState P F) : Prop :=
  L.ops.less (L.newPerplexity s) s.bestPerplexity = true ∧ L.eligible s = true

omit [IsStrictOrderedRing F] in
theorem recordEstimate_of_improves (h : L.Improves s) :
    (L.recordEstimate s).bestPerplexity = L.newPerplexity s ∧
      (L.recordEstimate s).haveGoodWeights = true ∧
      (L.recordEstimate s).weights = L.cascade.saveBest s.weights := by
  rw [recordEstimate]
  dsimp only
  rw [if_pos (Bool.and_eq_true_iff.mpr h)]
  exact ⟨rfl, rfl, rfl⟩

omit [IsStrictOrderedRing F] in
theorem recordEstimate_of_not_improves (h : ¬ L.Improves s) :
    (L.recordEstimate s).bestPerplexity = s.bestPerplexity ∧
      (L.recordEstimate s).haveGoodWeights = s.haveGoodWeights ∧
      (L.recordEstimate s).weights = s.weights := by
  rw [recordEstimate]
  dsimp only
  rw [if_neg fun hand => h (Bool.and_eq_true_iff.mp hand)]
  exact ⟨rfl, rfl, rfl⟩

/-- Nothing after the estimate changes what the estimate decided. -/
structure SameBest (s t : TrainState P F) : Prop where
  trainIter : t.trainIter = s.trainIter
  bestPerplexity : t.bestPerplexity = s.bestPerplexity
  haveGoodWeights : t.haveGoodWeights = s.haveGoodWeights
  history : t.history = s.history

omit [IsStrictOrderedRing F] in
theorem SameBest.trans {s t u : TrainState P F} (first : SameBest s t) (second : SameBest t u) :
    SameBest s u where
  trainIter := second.trainIter.trans first.trainIter
  bestPerplexity := second.bestPerplexity.trans first.bestPerplexity
  haveGoodWeights := second.haveGoodWeights.trans first.haveGoodWeights
  history := second.history.trans first.history

/-- A restart is given up after its first estimate. -/
def Rejected (L : Trainer P F) (no : ℕ) (p : P) (s : TrainState P F) : Prop :=
  s.trainIter = 1 ∧ L.accept no p s = false

/-- The ways to go on after an estimate. -/
inductive Continues (L : Trainer P F) (s : TrainState P F) : TrainState P F × Bool → Prop
  | /-- The restart is given up, or the perplexity has converged. -/
    left {t : TrainState P F} (weights : t.weights = s.weights) : Continues L s (t, true)
  | /-- The learning rate was too high. -/
    reset {t : TrainState P F} (high : 1 < s.learningRate)
      (weights : t.weights = L.cascade.keepEmWeight s.weights) (rate : t.learningRate = 1) :
      Continues L s (t, false)
  | /-- A maximization. -/
    maximized {t : TrainState P F} {leave : Bool} (args : MaximizeArgs F)
      (weights : t.weights = (L.cascade.maximize L.order L.pow args s.weights).1)
      (rate : t.learningRate = s.learningRate ∨ t.learningRate = s.learningRate * L.growthFactor) :
      Continues L s (t, leave)

/-- What an iteration does after its estimate, and when it leaves the loop. -/
structure After (L : Trainer P F) (s : TrainState P F) (out : TrainState P F × Bool) : Prop where
  sameBest : SameBest s out.1
  continues : Continues L s out
  leaves : out.2 = true → s.haveGoodWeights = true

theorem maximizeStep_after {t : TrainState P F} (hbest : SameBest t s) (hw : s.weights = t.weights)
    (hr : s.learningRate = t.learningRate ∨ s.learningRate = t.learningRate * L.growthFactor) :
    After L t (L.maximizeStep prior p s) := by
  rw [maximizeStep]
  dsimp only
  split
  case isTrue hgood =>
    exact ⟨hbest.trans ⟨rfl, rfl, rfl, rfl⟩, .maximized _ (by rw [← hw]) hr,
      fun _ => hbest.haveGoodWeights ▸ hgood.2⟩
  case isFalse =>
    exact ⟨hbest.trans ⟨rfl, rfl, rfl, rfl⟩, .maximized _ (by rw [← hw]) hr, fun h => by cases h⟩

theorem goOn_after {t : TrainState P F} (hbest : SameBest t s) (hw : s.weights = t.weights)
    (hr : s.learningRate = t.learningRate) : After L t (L.goOn prior p s) := by
  rw [goOn]
  split
  case isTrue => exact maximizeStep_after (hbest.trans ⟨rfl, rfl, rfl, rfl⟩) hw (.inl hr)
  case isFalse =>
    split
    case isTrue =>
      refine maximizeStep_after (hbest.trans ⟨rfl, rfl, rfl, rfl⟩) hw ?_
      rw [raiseRate]
      dsimp only
      rw [hr]
      split
      case isTrue => exact .inr rfl
      case isFalse => exact .inl rfl
    case isFalse =>
      split
      case isTrue hhigh =>
        exact ⟨hbest.trans ⟨rfl, rfl, rfl, rfl⟩, .reset (hr ▸ hhigh) (by rw [← hw]; rfl) rfl,
          fun h => by cases h⟩
      case isFalse =>
        split
        case isTrue hgood => exact ⟨hbest, .left hw, fun _ => hbest.haveGoodWeights ▸ hgood⟩
        case isFalse => exact maximizeStep_after hbest hw (.inl hr)

variable (L prior no p s) in
/-- A restart is given up, or goes on. -/
theorem afterEstimate_cases :
    (Rejected L no p s ∧ L.afterEstimate prior no p s = (s, true)) ∨
      (¬ Rejected L no p s ∧ After L s (L.afterEstimate prior no p s)) := by
  rw [afterEstimate]
  split
  case isTrue h => exact .inl ⟨h, rfl⟩
  case isFalse h =>
    refine .inr ⟨h, ?_⟩
    have hnote : SameBest s (noteStart no p s) ∧ (noteStart no p s).weights = s.weights ∧
        (noteStart no p s).learningRate = s.learningRate := by
      rw [noteStart]
      split <;> exact ⟨⟨rfl, rfl, rfl, rfl⟩, rfl, rfl⟩
    exact goOn_after hnote.1 hnote.2.1 hnote.2.2

/-- The limit of the iterations is reached. -/
def AtLimit (L : Trainer P F) (s : TrainState P F) : Prop :=
  L.opts.maxIter < s.trainIter + 1 ∧ s.haveGoodWeights = true

/-- The state when the estimate has been made. -/
def estimated (L : Trainer P F) (s : TrainState P F) : TrainState P F :=
  L.recordEstimate (L.beginIteration s)

variable (L prior no) in
/-- An iteration ends at the limit, gives up the restart, or goes on after its estimate. -/
theorem iteration_cases (s : TrainState P F) :
    (L.AtLimit s ∧ L.iteration prior no s = (L.beginIteration s, true)) ∨
      (¬ L.AtLimit s ∧ L.Rejected no (L.newPerplexity s) (L.estimated s) ∧
        L.iteration prior no s = (L.estimated s, true)) ∨
      (¬ L.AtLimit s ∧ ¬ L.Rejected no (L.newPerplexity s) (L.estimated s) ∧
        After L (L.estimated s) (L.iteration prior no s)) := by
  rw [iteration]
  split
  case isTrue h => exact .inl ⟨h, rfl⟩
  case isFalse h =>
    right
    rcases afterEstimate_cases L prior no (L.newPerplexity s) (L.estimated s) with
      ⟨hreject, heq⟩ | ⟨hreject, hafter⟩
    · exact .inl ⟨h, hreject, heq⟩
    · exact .inr ⟨h, hreject, hafter⟩

theorem estimated_trainIter (s : TrainState P F) : (L.estimated s).trainIter = s.trainIter + 1 :=
  (recordEstimate_fields _).1

/-- The estimate that comes next. -/
def nextEstimate (L : Trainer P F) (s : TrainState P F) : Estimated P F :=
  ⟨L.newPerplexity s, L.eligible (L.beginIteration s), (L.beginIteration s).weights.weight⟩

theorem estimated_history (s : TrainState P F) :
    (L.estimated s).history = s.history ++ [L.nextEstimate s] :=
  (recordEstimate_fields _).2.2

theorem length_estimated_history (s : TrainState P F) :
    (L.estimated s).history.length = s.history.length + 1 := by
  rw [estimated_history, List.length_append]
  rfl

/-- The estimate that comes next improves on the best. -/
def NextImproves (L : Trainer P F) (s : TrainState P F) : Prop :=
  L.Improves (L.beginIteration s)

theorem nextImproves_iff : L.NextImproves s ↔
    L.ops.less (L.newPerplexity s) s.bestPerplexity = true ∧
      (L.cascade.trivial = true ∨ s.trainIter ≠ 0) := by
  rw [NextImproves, Improves, eligible]
  simp [beginIteration, newPerplexity]

theorem estimated_haveGoodWeights_iff : (L.estimated s).haveGoodWeights = true ↔
    s.haveGoodWeights = true ∨ L.NextImproves s := by
  by_cases h : L.NextImproves s
  · rw [estimated, (recordEstimate_of_improves h).2.1]
    simp [h]
  · rw [estimated, (recordEstimate_of_not_improves h).2.1]
    simp [h, beginIteration]

theorem estimated_bestPerplexity (h : ¬ L.NextImproves s) :
    (L.estimated s).bestPerplexity = s.bestPerplexity :=
  (recordEstimate_of_not_improves h).1

end Steps

end Trainer

end Carmel
