/-
# Weights by their logarithms

`logweight` keeps the natural logarithm of a weight, and multiplies by adding
logarithms. The cost of a weight is its logarithm negated, so that the heavier
of two weights is the cheaper one and the weight zero has an infinite cost.
-/

import Carmel.Fst.Reduce
import Carmel.Graph.ShortestDistances
import Carmel.Math.Ties

namespace Carmel

universe u

/-- A weight by its logarithm; `⊥` is the logarithm of zero. -/
abbrev LogWeight (K : Type u) : Type u := Multiplicative (WithBot K)

namespace LogWeight

variable {K : Type u}

/-- The weight zero. -/
def zero : LogWeight K := Multiplicative.ofAdd ⊥

/-- The weight that has the logarithm `l`. -/
def ofLog (l : K) : LogWeight K := Multiplicative.ofAdd (l : WithBot K)

theorem eq_zero_or_ofLog (w : LogWeight K) : w = zero ∨ ∃ l, w = ofLog l := by
  induction w using Multiplicative.rec with
  | ofAdd w =>
    induction w using WithBot.recBotCoe with
    | bot => exact .inl rfl
    | coe l => exact .inr ⟨l, rfl⟩

section Cost

variable [AddCommGroup K] {v w : LogWeight K}

/-- `getCost`: the logarithm, negated. -/
def getCost (w : LogWeight K) : WithTop K :=
  WithBot.recBotCoe ⊤ (fun l => ((-l : K) : WithTop K)) (Multiplicative.toAdd w)

@[simp] theorem getCost_zero : getCost (zero : LogWeight K) = ⊤ := rfl

@[simp] theorem getCost_ofLog (l : K) : getCost (ofLog l) = ((-l : K) : WithTop K) := rfl

@[simp] theorem getCost_one : getCost (1 : LogWeight K) = 0 := by
  have h : getCost (ofLog (0 : K)) = ((-0 : K) : WithTop K) := rfl
  rwa [neg_zero] at h

theorem zero_mul' (w : LogWeight K) : zero * w = zero :=
  congrArg Multiplicative.ofAdd (WithBot.bot_add _)

theorem mul_zero' (w : LogWeight K) : w * zero = zero :=
  congrArg Multiplicative.ofAdd (WithBot.add_bot _)

theorem ofLog_mul_ofLog (k l : K) : ofLog k * ofLog l = ofLog (k + l) := rfl

theorem getCost_mul (v w : LogWeight K) : getCost (v * w) = getCost v + getCost w := by
  rcases eq_zero_or_ofLog v with rfl | ⟨k, rfl⟩
  · rw [zero_mul', getCost_zero, WithTop.top_add]
  · rcases eq_zero_or_ofLog w with rfl | ⟨l, rfl⟩
    · rw [mul_zero', getCost_zero, WithTop.add_top]
    · rw [ofLog_mul_ofLog, getCost_ofLog, getCost_ofLog, getCost_ofLog, neg_add, WithTop.coe_add]

theorem getCost_prod (ws : List (LogWeight K)) : getCost ws.prod = (ws.map getCost).sum := by
  induction ws with
  | nil => exact getCost_one
  | cons w ws ih => rw [List.prod_cons, getCost_mul, ih, List.map_cons, List.sum_cons]

theorem getCost_ne_top_iff : getCost w ≠ ⊤ ↔ w ≠ zero := by
  rcases eq_zero_or_ofLog w with rfl | ⟨l, rfl⟩
  · exact iff_of_false (fun h => h rfl) fun h => h rfl
  · exact iff_of_true WithTop.coe_ne_top WithBot.coe_ne_bot

variable [LinearOrder K] [IsOrderedAddMonoid K]

theorem getCost_le_getCost_iff : getCost w ≤ getCost v ↔ v ≤ w := by
  rcases eq_zero_or_ofLog v with rfl | ⟨k, rfl⟩
  · exact iff_of_true le_top (bot_le (a := Multiplicative.toAdd w))
  · rcases eq_zero_or_ofLog w with rfl | ⟨l, rfl⟩
    · refine iff_of_false (fun h => WithTop.coe_ne_top (top_le_iff.mp h)) fun h => ?_
      have hbot : (k : WithBot K) ≤ ⊥ := h
      exact WithBot.coe_ne_bot (le_bot_iff.mp hbot)
    · rw [getCost_ofLog, getCost_ofLog, WithTop.coe_le_coe, neg_le_neg_iff]
      exact WithBot.coe_le_coe.symm

theorem getCost_nonneg_iff : 0 ≤ getCost w ↔ w ≤ 1 := by
  rw [← getCost_one, getCost_le_getCost_iff]

end Cost

end LogWeight

end Carmel

/-!
## Pruning paths

`prunePaths` keeps the states and arcs on whose best paths the cost is within a distance of
the best cost, and no more than a given number of states. The distance is the logarithm of
the ratio that the caller gives. The sort may leave states of equal cost in any order; the
order is an argument here.
-/

namespace Carmel

open Carmel.Math

universe u

variable {K : Type u} [AddCommGroup K] [LinearOrder K]

section Model

namespace WFST

/-- `UNLIMITED`. -/
def unlimited : ℕ := 4294967295

variable (x : WFST (LogWeight K))

/-- The cost of the arc at a position. -/
def arcCost (s pos : ℕ) : WithTop K := ((x.state s).arcs[pos]?.map (·.weight.getCost)).getD ⊤

/-- `weight` of an arc of `makeGraph`. -/
def forWeight (a : GraphArc) : WithTop K := x.arcCost a.src a.id

/-- `weight` of an arc of the reversed graph, copied from the arc that was turned round. -/
def revWeight (a : GraphArc) : WithTop K := x.arcCost a.dest a.id

/-- `for_dist`. -/
def forDist : ℕ → WithTop K := shortestDistancesFrom x.makeGraph x.forWeight 0

variable (final : ℕ)

/-- `rev_dist`. -/
def revDist : ℕ → WithTop K := shortestDistancesFrom (reverseGraph x.makeGraph) x.revWeight final

/-- `best_path_cost`. -/
def bestPathCost (s : ℕ) : WithTop K := x.forDist s + x.revDist final s

variable (maxStates : ℕ) (ratio : WithBot (WithTop K))

/-- `allowed`. -/
def allowed : ℕ := if maxStates = unlimited ∨ x.numStates < maxStates then x.numStates else maxStates

/-- `cost > worst_path`, unless all paths are kept. The logarithm of the ratio zero is
minus infinity, and so is `worst_path` then, unless there is no path at all: infinity
less infinity compares with nothing. -/
def overWorst (cost : WithTop K) : Bool :=
  WithBot.recBotCoe (decide (x.forDist final ≠ ⊤))
    (fun d => decide (d ≠ ⊤ ∧ x.forDist final + d < cost)) ratio

variable (order : List ℕ)

/-- `remove[st]`, where the sort left the states in `order`. -/
def pruneRemove (st : ℕ) : Bool :=
  !(order.take (x.allowed maxStates)).contains st || x.overWorst final ratio (x.bestPathCost final st)

/-- What becomes of an arc out of the state `st` before the states are removed. -/
def pruneArc (st : ℕ) (a : FSTArc (LogWeight K)) : Option (FSTArc (LogWeight K)) :=
  if !x.pruneRemove final maxStates ratio order st &&
      x.overWorst final ratio (a.weight.getCost + x.forDist st + x.revDist final a.dest) then
    none
  else
    some a

/-- The array `remove`. -/
def pruneMarks : List Bool :=
  (List.range x.numStates).map (x.pruneRemove final maxStates ratio order)

end WFST

/-- `prunePaths`. -/
def NamedWFST.prunePaths (maxStates : ℕ) (ratio : WithBot (WithTop K)) (order : List ℕ)
    (x : NamedWFST (LogWeight K)) : NamedWFST (LogWeight K) :=
  if maxStates = WFST.unlimited ∧ ratio = ((⊤ : WithTop K) : WithBot (WithTop K)) then
    x
  else
    match x.final with
    | none => x
    | some final =>
      NamedWFST.removeMarkedStates (x.pruneMarks final maxStates ratio order)
        { x with toWFST := x.toWFST.editStates (x.pruneArc final maxStates ratio order) }

end Model

namespace WFST

variable {x : WFST (LogWeight K)} {final s t : ℕ}

/-- The cost of the arc that a path takes. -/
def stepCost (h : HalfArc (LogWeight K)) : WithTop K := h.arc.weight.getCost

omit [LinearOrder K] in
theorem arcCost_of_mem {h : HalfArc (LogWeight K)} (hh : h ∈ x.outArcs s) :
    x.arcCost s h.pos = stepCost h := by
  rw [arcCost, (mem_outArcs.mp hh).2]
  rfl

omit [AddCommGroup K] [LinearOrder K] in
theorem graphAdj_makeGraph_iff {a : GraphArc} : GraphAdj x.makeGraph s a t ↔
    ∃ h, x.Adj s h t ∧ a = ⟨s, t, h.pos⟩ := by
  rw [GraphAdj, mem_makeGraph]
  constructor
  · rintro ⟨⟨h, hh, rfl⟩, rfl⟩
    exact ⟨h, ⟨hh, rfl⟩, rfl⟩
  · rintro ⟨h, ⟨hh, rfl⟩, rfl⟩
    exact ⟨⟨h, hh, rfl⟩, rfl⟩

omit [AddCommGroup K] [LinearOrder K] in
theorem graphAdj_reverse_iff {a : GraphArc} (hx : x.Valid) :
    GraphAdj (reverseGraph x.makeGraph) s a t ↔ ∃ h, x.Adj t h s ∧ a = ⟨s, t, h.pos⟩ := by
  by_cases hs : s < x.numStates
  · rw [GraphAdj, mem_reverseGraph hs]
    constructor
    · rintro ⟨⟨h, hstep, ha⟩, rfl⟩
      exact ⟨h, hstep, ha⟩
    · rintro ⟨h, hstep, rfl⟩
      exact ⟨⟨h, hstep, rfl⟩, rfl⟩
  · refine iff_of_false ?_ ?_
    · rintro ⟨ha, -⟩
      have hdest : a.dest ∈ graphSucc (reverseGraph x.makeGraph) s := List.mem_map_of_mem ha
      rw [graphSucc_reverse_of_le (Nat.le_of_not_lt hs)] at hdest
      exact absurd hdest List.not_mem_nil
    · rintro ⟨h, hstep, -⟩
      exact hs (hstep.2 ▸ hx.dest_lt' hstep.1)

/-- All weights are probabilities. -/
def WeightsLeOne (x : WFST (LogWeight K)) : Prop :=
  ∀ state ∈ x.states, ∀ arc ∈ state.arcs, arc.weight ≤ 1

section Ordered

variable [IsOrderedAddMonoid K]

theorem stepCost_nonneg (hw : x.WeightsLeOne) {h : HalfArc (LogWeight K)} (hh : h ∈ x.outArcs s) :
    0 ≤ stepCost h := by
  obtain ⟨state, hstate, harc⟩ := mem_state_arcs_of_mem_outArcs hh
  exact LogWeight.getCost_nonneg_iff.mpr (hw state hstate h.arc harc)

theorem forDist_spec (hx : x.Valid) (hw : x.WeightsLeOne) :
    Distances x.Adj stepCost 0 x.forDist := by
  have hspec : Distances (GraphAdj x.makeGraph) x.forWeight 0 x.forDist := by
    refine shortestDistancesFrom_spec (fun s a ha => ?_) (fun s a ha => ?_) ?_
    · obtain ⟨h, hh, rfl⟩ := mem_makeGraph.mp ha
      rw [forWeight, arcCost_of_mem hh]
      exact stepCost_nonneg hw hh
    · obtain ⟨h, hh, rfl⟩ := mem_makeGraph.mp ha
      rw [length_makeGraph]
      exact hx.dest_lt' hh
    · rw [length_makeGraph]
      exact hx.start_lt
  refine hspec.congr (fun {s a t} hstep => ?_) fun {s h t} hstep => ?_
  · obtain ⟨h, hh, rfl⟩ := graphAdj_makeGraph_iff.mp hstep
    exact ⟨h, hh, (arcCost_of_mem hh.1).symm⟩
  · exact ⟨_, graphAdj_makeGraph_iff.mpr ⟨h, hstep, rfl⟩, arcCost_of_mem hstep.1⟩

theorem revDist_spec (hx : x.Valid) (hw : x.WeightsLeOne) (hfinal : final < x.numStates) :
    DistancesTo x.Adj stepCost final (x.revDist final) := by
  have hlen : (reverseGraph x.makeGraph).length = x.numStates := by
    rw [length_reverseGraph, length_makeGraph]
  have hspec : Distances (GraphAdj (reverseGraph x.makeGraph)) x.revWeight final
      (x.revDist final) := by
    refine shortestDistancesFrom_spec (fun s a ha => ?_) (fun s a ha => ?_) (hlen ▸ hfinal)
    · obtain ⟨h, hstep, heq⟩ := (graphAdj_reverse_iff hx).mp ⟨ha, rfl⟩
      rw [heq, revWeight, arcCost_of_mem hstep.1]
      exact stepCost_nonneg hw hstep.1
    · rw [hlen]
      exact graphSucc_reverse_lt (List.mem_map_of_mem (f := GraphArc.dest) ha)
  refine .of_reversed (hspec.congr (fun {s a t} hstep => ?_) fun {s h t} hstep => ?_)
  · obtain ⟨h, hh, rfl⟩ := (graphAdj_reverse_iff hx).mp hstep
    exact ⟨h, hh, (arcCost_of_mem hh.1).symm⟩
  · exact ⟨_, (graphAdj_reverse_iff hx).mpr ⟨h, hstep, rfl⟩, arcCost_of_mem hstep.1⟩

end Ordered

end WFST

namespace WFST

variable {x : WFST (LogWeight K)} {final maxStates i : ℕ} {ratio : WithBot (WithTop K)}
variable {order : List ℕ}

variable (x final maxStates ratio order) in
/-- The new number of a state. -/
def pruneNum : ℕ → Option ℕ := newIndex (x.pruneMarks final maxStates ratio order)

variable (x final maxStates ratio order) in
/-- What becomes of an arc. -/
def pruneEdit (i : ℕ) (a : FSTArc (LogWeight K)) : Option (FSTArc (LogWeight K)) :=
  (x.pruneArc final maxStates ratio order i a).bind
    (renumberArc (x.pruneNum final maxStates ratio order))

theorem length_pruneMarks : (x.pruneMarks final maxStates ratio order).length = x.numStates := by
  rw [pruneMarks, List.length_map, List.length_range]

/-- Unless the ratio is zero, what is not over is at most so far from the best. -/
theorem overWorst_eq_false_iff {d cost : WithTop K} :
    x.overWorst final (d : WithBot (WithTop K)) cost = false ↔ cost ≤ x.forDist final + d := by
  rw [overWorst, WithBot.recBotCoe_coe]
  cases d with
  | top => simp
  | coe r => simp

theorem pruneRemove_eq_false_iff : x.pruneRemove final maxStates ratio order i = false ↔
    i ∈ order.take (x.allowed maxStates) ∧
      x.overWorst final ratio (x.bestPathCost final i) = false := by
  simp [pruneRemove]

theorem exists_pruneNum_iff : (∃ j, x.pruneNum final maxStates ratio order i = some j) ↔
    i < x.numStates ∧ i ∈ order.take (x.allowed maxStates) ∧
      x.overWorst final ratio (x.bestPathCost final i) = false := by
  rw [pruneNum, exists_newIndex_iff', length_pruneMarks, ← pruneRemove_eq_false_iff]
  refine and_congr_right fun hi => ?_
  rw [List.getD_eq_getElem?_getD, pruneMarks, List.getElem?_map, List.getElem?_range hi,
    Option.map_some, Option.getD_some]

theorem pruneNum_zero (h : ∃ j, x.pruneNum final maxStates ratio order 0 = some j) :
    x.pruneNum final maxStates ratio order 0 = some 0 := by
  obtain ⟨hlt, hb⟩ := exists_newIndex_iff'.mp h
  refine newIndex_zero ?_
  rwa [List.getD_eq_getElem?_getD, List.getElem?_eq_getElem hlt] at hb ⊢

theorem exists_pruneEdit_iff {a : FSTArc (LogWeight K)}
    (hi : ∃ j, x.pruneNum final maxStates ratio order i = some j) :
    (∃ b, x.pruneEdit final maxStates ratio order i a = some b) ↔
      (∃ k, x.pruneNum final maxStates ratio order a.dest = some k) ∧ x.overWorst final ratio
          (a.weight.getCost + x.forDist i + x.revDist final a.dest) = false := by
  have hstay : x.pruneRemove final maxStates ratio order i = false :=
    pruneRemove_eq_false_iff.mpr (exists_pruneNum_iff.mp hi).2
  rw [pruneEdit, pruneArc, hstay, Bool.not_false, Bool.true_and]
  cases x.overWorst final ratio (a.weight.getCost + x.forDist i + x.revDist final a.dest) with
  | true => simp
  | false => simp [renumberArc]

theorem pruneArc_eq_some {a b : FSTArc (LogWeight K)}
    (h : x.pruneArc final maxStates ratio order i a = some b) : b = a := by
  rw [pruneArc] at h
  split at h
  · cases h
  · exact (Option.some.inj h).symm

end WFST

namespace NamedWFST

variable {x : NamedWFST (LogWeight K)} {final maxStates : ℕ} {ratio : WithBot (WithTop K)}
variable {order : List ℕ}

/-- Where everything is allowed, removing what is over removes nothing: the early return
makes no difference. -/
theorem prunePaths_eq (hfinal : x.final = some final)
    (horder : order.Perm (List.range x.numStates)) :
    x.prunePaths maxStates ratio order =
      NamedWFST.removeMarkedStates (x.pruneMarks final maxStates ratio order)
        { x with toWFST := x.toWFST.editStates (x.pruneArc final maxStates ratio order) } := by
  rw [prunePaths]
  split
  case isFalse h => rw [hfinal]
  case isTrue h =>
    obtain ⟨rfl, rfl⟩ := h
    have hover : ∀ cost, x.overWorst final ((⊤ : WithTop K) : WithBot (WithTop K)) cost = false := by
      intro cost
      rw [WFST.overWorst_eq_false_iff, WithTop.add_top]
      exact le_top
    have hmarks : x.pruneMarks final WFST.unlimited ((⊤ : WithTop K) : WithBot (WithTop K)) order =
        List.replicate x.numStates false := by
      refine List.eq_replicate_iff.mpr ⟨WFST.length_pruneMarks, fun b hb => ?_⟩
      obtain ⟨i, hi, rfl⟩ := List.mem_map.mp hb
      refine WFST.pruneRemove_eq_false_iff.mpr ⟨?_, hover _⟩
      rw [WFST.allowed, if_pos (.inl rfl), List.take_of_length_le (by simp [horder.length_eq])]
      exact horder.mem_iff.mpr hi
    have hedit : x.toWFST.editStates (x.pruneArc final WFST.unlimited
        ((⊤ : WithTop K) : WithBot (WithTop K)) order) = x.toWFST := by
      refine WFST.editStates_some fun i a => ?_
      rw [WFST.pruneArc, hover, Bool.and_false]
      rfl
    rw [hmarks, hedit, removeMarkedStates, WFST.removeMarkedStates]
    simp [numKept]

theorem prunePaths_toWFST (hfinal : x.final = some final)
    (horder : order.Perm (List.range x.numStates)) :
    (x.prunePaths maxStates ratio order).toWFST =
      (x.toWFST.editStates (x.pruneArc final maxStates ratio order)).removeMarkedStates
        (x.pruneMarks final maxStates ratio order) := by
  rw [prunePaths_eq hfinal horder]
  rfl

/-- **Pruning** leaves states and arcs out, and changes nothing else. -/
theorem prunePaths_restricts (hx : x.Valid) (hfinal : x.final = some final)
    (horder : order.Perm (List.range x.numStates)) :
    x.Restricts (x.prunePaths maxStates ratio order).toWFST
      (x.pruneNum final maxStates ratio order) (x.pruneEdit final maxStates ratio order) := by
  rw [prunePaths_toWFST hfinal horder]
  exact WFST.removeMarkedStates_editStates_restricts WFST.length_pruneMarks hx.dest_lt
    WFST.pruneArc_eq_some

theorem prunePaths_final (hx : x.Valid) (hfinal : x.final = some final)
    (horder : order.Perm (List.range x.numStates)) :
    (x.prunePaths maxStates ratio order).final = x.pruneNum final maxStates ratio order final := by
  rw [prunePaths_toWFST hfinal horder]
  rw [WFST.removeMarkedStates_final
    (WFST.length_pruneMarks.trans (WFST.numStates_editStates _).symm)]
  · rw [WFST.editStates, hfinal]
    rfl
  · intro f hf
    rw [WFST.numStates_editStates]
    exact hx.final_lt' hf

end NamedWFST

end Carmel
