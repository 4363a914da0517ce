/-
# The outside pass and the counts of a forest

The links that the inside pass noted are gone through backwards, and each passes a share of
its node's outside value on. Inside times outside is added to the counts; a count that has
grown too large to add to is moved to a table of overflows and begun again.
-/

import Carmel.Forest.Inside

namespace Carmel.Forest

universe u

namespace FForest

section Outside

variable {K : Type u} [Field K] [LinearOrder K] (f : FForest)

/-- What one link adds to the outside value of the child. -/
def passOutside (inside outside : ℕ → K) (link : ℕ × ℕ) : ℕ → K :=
  let (p, child) := link
  match (f.node p).label with
  | .integer rule =>
    if rule = orInt then Function.update outside child (outside child + outside p)
    else if inside p ≠ 0 then
      Function.update outside child (outside child + outside p * inside p / inside child)
    else outside
  | .pointer _ => outside

/-- The array that the outside pass begins with. -/
def startOutside (inside outside : ℕ → K) (i : ℕ) : K :=
  if i = 0 then (inside 0)⁻¹ else if i < f.size then 0 else outside i

/-- `compute_norm_outside`: whether it was done, and the array. -/
def computeNormOutside (s : InsideState K) (outside : ℕ → K) : Bool × (ℕ → K) :=
  if ¬ 0 < s.inside 0 then (false, outside)
  else (true, s.order.reverse.foldl (f.passOutside s.inside) (f.startOutside s.inside outside))

end Outside

/-- The nodes with a rule, in the order of the array. -/
def ruleNodes (f : FForest) : List (ℕ × ℕ) :=
  (List.range f.size).filterMap fun i =>
    match (f.node i).label with
    | .integer rulei => if rulei = orInt then none else some (rulei, i)
    | .pointer _ => none

/-- `visit_inside_norm_outside`. -/
def visitInsideNormOutside {K σ : Type*} (f : FForest) (inside normOutside : ℕ → K)
    (visit : ℕ → K → K → σ → σ) (s : σ) : σ :=
  f.ruleNodes.foldl (fun s (rulei, i) => visit rulei (inside i) (normOutside i) s) s

end FForest

/-- `accumulate_counts`: the counts, the table of overflows and the statistics. -/
structure AccumulateCounts (K : Type u) where
  counts : ℕ → K
  overflows : List (ℕ × K)
  totalOverflow : K
  nOverflows : ℕ
  nRuleOverflows : ℕ

namespace AccumulateCounts

section Code

variable {K : Type u} [Field K]

/-- `(*overflows)[rule] += x`; a rule that is not there yet has zero. -/
def addOverflow (rule : ℕ) (x : K) : List (ℕ × K) → List (ℕ × K)
  | [] => [(rule, 0 + x)]
  | (r, y) :: table => if r = rule then (r, y + x) :: table else (r, y) :: addOverflow rule x table

variable (isNearAddOneLimit : K → Bool)

/-- The call of `accumulate_counts` for one node. -/
def accumulate (rule : ℕ) (inside normOutside : K) (a : AccumulateCounts K) : AccumulateCounts K :=
  if isNearAddOneLimit (a.counts rule) then
    { a with
      overflows := addOverflow rule (a.counts rule) a.overflows
      nOverflows := a.nOverflows + 1
      counts := Function.update a.counts rule (inside * normOutside) }
  else
    { a with counts := Function.update a.counts rule (a.counts rule + inside * normOutside) }

/-- `visit`: an overflow is added to the count again. -/
def restore (a : AccumulateCounts K) (entry : ℕ × K) : AccumulateCounts K :=
  { a with
    counts := Function.update a.counts entry.1 (a.counts entry.1 + entry.2)
    totalOverflow := a.totalOverflow + entry.2
    nRuleOverflows := a.nRuleOverflows + 1 }

/-- `finish_counts`. -/
def finishCounts (a : AccumulateCounts K) : AccumulateCounts K :=
  { a.overflows.foldl restore a with overflows := [] }

variable [LinearOrder K]

/-- `collect_counts`, with the outside array that it leaves. -/
def collectCounts (f : FForest) (s : InsideState K) (outside : ℕ → K) (a : AccumulateCounts K) :
    AccumulateCounts K × (ℕ → K) :=
  let (done, normOutside) := f.computeNormOutside s outside
  (if done then
      f.visitInsideNormOutside s.inside normOutside (accumulate isNearAddOneLimit) a
    else a, normOutside)

end Code

section Totals

variable {K : Type u} [Field K] {isNearAddOneLimit : K → Bool} {a : AccumulateCounts K}
variable {rule r : ℕ} {x y : K}

/-- What the table holds for a rule. -/
def overflowOf (table : List (ℕ × K)) (r : ℕ) : K :=
  ((table.filter (·.1 = r)).map Prod.snd).sum

@[simp] theorem overflowOf_nil : overflowOf ([] : List (ℕ × K)) r = 0 := rfl

@[simp] theorem overflowOf_cons (entry : ℕ × K) (table : List (ℕ × K)) :
    overflowOf (entry :: table) r = (if entry.1 = r then entry.2 else 0) + overflowOf table r := by
  by_cases h : entry.1 = r <;> simp [overflowOf, h]

theorem overflowOf_addOverflow (rule : ℕ) (x : K) (table : List (ℕ × K)) :
    overflowOf (addOverflow rule x table) r = overflowOf table r + if rule = r then x else 0 := by
  induction table with
  | nil => simp [addOverflow]
  | cons entry table ih =>
    rw [addOverflow]
    by_cases heq : entry.1 = rule
    · rw [if_pos heq, overflowOf_cons, overflowOf_cons, heq]
      by_cases hr : rule = r
      · simp only [hr, if_true]
        ring
      · simp [hr]
    · rw [if_neg heq, overflowOf_cons, overflowOf_cons, ih]
      ring

/-- The count of a rule with what has overflowed. -/
def total (a : AccumulateCounts K) (r : ℕ) : K := a.counts r + overflowOf a.overflows r

theorem total_accumulate :
    (a.accumulate isNearAddOneLimit rule x y).total r =
      a.total r + if rule = r then x * y else 0 := by
  unfold accumulate total
  by_cases hnear : isNearAddOneLimit (a.counts rule) = true
  · rw [if_pos hnear]
    simp only [overflowOf_addOverflow]
    by_cases hr : rule = r
    · subst hr
      simp only [Function.update_self, if_true]
      ring
    · simp only [Function.update_of_ne (Ne.symm hr), hr, if_false, add_zero]
  · rw [if_neg hnear]
    by_cases hr : rule = r
    · subst hr
      simp only [Function.update_self, if_true]
      ring
    · simp only [Function.update_of_ne (Ne.symm hr), hr, if_false, add_zero]

theorem total_foldl_restore (table : List (ℕ × K)) (a : AccumulateCounts K) :
    (table.foldl restore a).counts r = a.counts r + overflowOf table r := by
  induction table generalizing a with
  | nil => simp
  | cons entry table ih =>
    rw [List.foldl_cons, ih, overflowOf_cons, restore]
    by_cases hr : entry.1 = r
    · subst hr
      simp only [Function.update_self, if_true]
      ring
    · simp [Function.update_of_ne (Ne.symm hr), hr]

/-- In the end the counts are the totals, and no overflow is left. -/
theorem counts_finishCounts : a.finishCounts.counts r = a.total r :=
  total_foldl_restore a.overflows a

end Totals

end AccumulateCounts

namespace FForest

variable {K : Type u} [Field K] {f : FForest} {inside normOutside : ℕ → K} {r : ℕ}

/-- The products of inside and outside at the nodes with the rule `r`. -/
def contribution (f : FForest) (inside normOutside : ℕ → K) (r : ℕ) : K :=
  ((f.ruleNodes.filter (·.1 = r)).map fun n => inside n.2 * normOutside n.2).sum

/-- A visitor that adds every product to a total adds the contribution of the forest. -/
theorem visit_total {σ : Type*} {visit : ℕ → K → K → σ → σ} {tot : σ → ℕ → K}
    (hvisit : ∀ rule x y s r, tot (visit rule x y s) r = tot s r + if rule = r then x * y else 0)
    (s : σ) :
    tot (f.visitInsideNormOutside inside normOutside visit s) r =
      tot s r + f.contribution inside normOutside r := by
  unfold visitInsideNormOutside contribution
  induction f.ruleNodes generalizing s with
  | nil => simp
  | cons n nodes ih =>
    rw [List.foldl_cons, ih, hvisit]
    by_cases hr : n.1 = r
    · simp only [hr, if_true, decide_true, List.filter_cons_of_pos, List.map_cons, List.sum_cons]
      ring
    · simp [hr]

theorem mem_ruleNodes {rule i : ℕ} : (rule, i) ∈ f.ruleNodes ↔
    i < f.size ∧ (f.node i).label = .integer rule ∧ rule ≠ orInt := by
  unfold ruleNodes
  rw [List.mem_filterMap]
  constructor
  · intro ⟨j, hj, hlabel⟩
    cases hnode : (f.node j).label with
    | pointer t => simp [hnode] at hlabel
    | integer q =>
      by_cases hq : q = orInt
      · simp [hnode, hq] at hlabel
      · simp only [hnode, hq, if_false, Option.some.injEq, Prod.mk.injEq] at hlabel
        obtain ⟨rfl, rfl⟩ := hlabel
        exact ⟨List.mem_range.mp hj, hnode, hq⟩
  · intro ⟨hi, hlabel, hrule⟩
    exact ⟨i, List.mem_range.mpr hi, by simp [hlabel, hrule]⟩

/-- `collect_counts` adds what a forest with a probability contributes. -/
theorem total_collectCounts [LinearOrder K] {isNearAddOneLimit : K → Bool} {s : InsideState K}
    (hpos : 0 < s.inside 0) (outside : ℕ → K) (a : AccumulateCounts K) :
    (AccumulateCounts.collectCounts isNearAddOneLimit f s outside a).1.total r =
      a.total r + f.contribution s.inside
        (s.order.reverse.foldl (f.passOutside s.inside) (f.startOutside s.inside outside)) r := by
  unfold AccumulateCounts.collectCounts computeNormOutside
  rw [if_neg (not_not_intro hpos)]
  exact visit_total (fun _ _ _ _ _ => AccumulateCounts.total_accumulate) a

/-- The contribution as a sum over the places of the array. -/
theorem contribution_eq_sum (f : FForest) (inside normOutside : ℕ → K) (r : ℕ) :
    f.contribution inside normOutside r = ((List.range f.size).map fun i => normOutside i *
        if (f.node i).label = .integer r ∧ r ≠ orInt then inside i else 0).sum := by
  unfold contribution ruleNodes
  induction List.range f.size with
  | nil => rfl
  | cons i places ih =>
    rw [List.filterMap_cons, List.map_cons, List.sum_cons, ← ih]
    cases hlabel : (f.node i).label with
    | pointer t => simp
    | integer rule =>
      by_cases hrule : rule = orInt
      · have hno : ¬ (Label.integer rule = .integer r ∧ r ≠ orInt) := by
          intro h
          exact h.2 ((Label.integer.inj h.1).symm.trans hrule)
        rw [if_neg hno, mul_zero, zero_add]
        simp only [if_pos hrule]
      · by_cases hr : rule = r
        · subst hr
          simp [hrule, mul_comm]
        · simp [hrule, hr]

end FForest

end Carmel.Forest

/-!
## Estimates over a corpus of forests

Forests of probability zero are left out of the sum of logarithms. On request the counts of
single forests are printed, for every forest whose number is a multiple of a period.
-/

namespace Carmel.Forest

universe u v

/-- What a pass over the forests reads. -/
structure PassArgs (K : Type u) (L : Type v) where
  ruleWeights : ℕ → K
  priorCount : K
  isNearAddOneLimit : K → Bool
  getLn : K → L
  collectCounts : Bool
  perForestCountsGo : Bool
  perForestCountsPeriod : ℕ

/-- The part of `FForests` that a pass over the forests changes, and what it has printed. -/
structure FForests (K : Type u) (L : Type v) where
  inside : ℕ → K
  outside : ℕ → K
  countsAccum : AccumulateCounts K
  totalLogprob : L
  forestNo : ℕ
  nZeroprob : ℕ
  perForestCounts : List (ℕ × K)
  perForestCountsOut : List (List (ℕ × K))

namespace FForests

section Code

variable {K : Type u} {L : Type v} [Field K] [LinearOrder K] [Field L] (args : PassArgs K L)

/-- The visitor for the counts of one forest. The line that adds to `perForestCounts` is
commented out. -/
def visitCount (rule : ℕ) (inside normOutside : K) (s : FForests K L) : FForests K L :=
  let a := s.countsAccum
  let counts := Function.update a.counts rule (a.counts rule + inside * normOutside)
  { s with countsAccum := { a with counts := counts } }

/-- The counts of one forest are printed. -/
def printPerForestCounts (f : FForest) (pass : InsideState K) (s : FForests K L) : FForests K L :=
  let s := { s with perForestCounts := [] }
  let s :=
    if args.collectCounts then s else { s with outside := (f.computeNormOutside pass s.outside).2 }
  let s := f.visitInsideNormOutside pass.inside s.outside visitCount s
  { s with perForestCountsOut := s.perForestCountsOut ++ [s.perForestCounts] }

/-- The collection of the counts of one forest. -/
def collect (f : FForest) (pass : InsideState K) (s : FForests K L) : FForests K L :=
  if args.collectCounts then
    let (a, outside) :=
      AccumulateCounts.collectCounts args.isNearAddOneLimit f pass s.outside s.countsAccum
    { s with countsAccum := a, outside := outside }
  else s

/-- A forest of probability zero is counted, but left out of the sum. -/
def addLogprob (x : K) (s : FForests K L) : FForests K L :=
  if x = 0 then { s with nZeroprob := s.nZeroprob + 1 }
  else { s with totalLogprob := s.totalLogprob + args.getLn x }

/-- `operator()(Forest &)`. -/
def visitForest (s : FForests K L) (f : FForest) : FForests K L :=
  let s := { s with forestNo := s.forestNo + 1 }
  let pass := f.computeInside args.ruleWeights s.inside
  let s := addLogprob args (pass.inside 0) (collect args f pass { s with inside := pass.inside })
  if args.perForestCountsGo = true ∧ s.forestNo % args.perForestCountsPeriod = 0 then
    printPerForestCounts args f pass s
  else s

/-- `begin_visit`. -/
def beginVisit (forests : List FForest) (s : FForests K L) : FForests K L :=
  let s :=
    if args.collectCounts then
      { s with
        countsAccum :=
          { s.countsAccum with
            counts := fun _ => args.priorCount * (forests.length : K)
            totalOverflow := 0
            nOverflows := 0
            nRuleOverflows := 0 }
        totalLogprob := 0 }
    else s
  { s with forestNo := 0, nZeroprob := 0 }

/-- `end_visit`. -/
def endVisit (s : FForests K L) : FForests K L :=
  if args.collectCounts then { s with countsAccum := s.countsAccum.finishCounts } else s

/-- `estimate_visit`. -/
def estimateVisit (forests : List FForest) (s : FForests K L) : FForests K L :=
  endVisit args (forests.foldl (visitForest args) (beginVisit args forests s))

/-- The average that `estimate` returns; a quotient of zeros is not a number. -/
def average (s : FForests K L) : Option L :=
  if s.forestNo - s.nZeroprob = 0 then none
  else some (s.totalLogprob / ((s.forestNo - s.nZeroprob : ℕ) : L))

/-- `estimate`. -/
def estimate (forests : List FForest) (s : FForests K L) : Option L × FForests K L :=
  let s := estimateVisit { args with collectCounts := true } forests s
  (average s, s)

end Code

end FForests

end Carmel.Forest
