/-
# Pruning by the number of states

All states of the best path cost the same, and states that cost the same may be sorted in
any order. A limit may thus leave the final state and throw out the start. Whether some
order does so is decided by two counts of states.
-/

import Carmel.Fst.PruneRatio

namespace Carmel

open Carmel.Math

universe u

variable {K : Type u} [AddCommGroup K] [LinearOrder K]

namespace WFST

variable {x : WFST (LogWeight K)} {final maxStates : ℕ} {ratio : WithBot (WithTop K)}
variable {order : List ℕ}

section Model

variable (x : WFST (LogWeight K)) (final : ℕ)

/-- What the sort may leave: all states, none before one that costs less. -/
def SortedStates (order : List ℕ) : Prop :=
  order.Perm (List.range x.numStates) ∧ SortedBy (x.bestPathCost final) order

/-- The number of states with a best path cheaper than `cost`. -/
def numCheaper (cost : WithTop K) : ℕ :=
  (List.range x.numStates).countP fun s => x.bestPathCost final s < cost

/-- The number of states with a best path no dearer than `cost`. -/
def numNoDearer (cost : WithTop K) : ℕ :=
  (List.range x.numStates).countP fun s => x.bestPathCost final s ≤ cost

/-- Whatever the sort leaves, the final state goes or the start stays. -/
def KeepsStart (maxStates : ℕ) (ratio : WithBot (WithTop K)) : Prop :=
  final = 0 ∨ x.overWorst final ratio (x.bestPathCost final final) = true ∨
    x.allowed maxStates ≤ x.numCheaper final (x.bestPathCost final final) ∨
    x.overWorst final ratio (x.bestPathCost final 0) = false ∧
      x.numNoDearer final (x.bestPathCost final 0) ≤ x.allowed maxStates

instance (maxStates : ℕ) (ratio : WithBot (WithTop K)) :
    Decidable (x.KeepsStart final maxStates ratio) := inferInstanceAs (Decidable (_ ∨ _ ∨ _ ∨ _ ∧ _))

end Model

/-- The start stays whenever the final state does. -/
def StartStays (x : WFST (LogWeight K)) (final maxStates : ℕ) (ratio : WithBot (WithTop K))
    (order : List ℕ) : Prop :=
  (∃ j, x.pruneNum final maxStates ratio order final = some j) →
    ∃ j, x.pruneNum final maxStates ratio order 0 = some j

theorem SortedStates.countP_eq (h : x.SortedStates final order) (P : ℕ → Bool) :
    order.countP P = (List.range x.numStates).countP P :=
  h.1.countP_eq P

theorem startStays_of_keepsStart (hx : x.Valid) (h : x.KeepsStart final maxStates ratio)
    (horder : x.SortedStates final order) : x.StartStays final maxStates ratio order := by
  rintro ⟨j, hj⟩
  obtain ⟨hlt, htake, hover⟩ := exists_pruneNum_iff.mp ⟨j, hj⟩
  rcases h with rfl | hworst | hcheaper | ⟨hstart, hcount⟩
  · exact ⟨j, hj⟩
  · rw [hover] at hworst
    cases hworst
  · have hlt := horder.2.countP_lt_of_mem_take htake
    rw [horder.countP_eq] at hlt
    exact absurd hcheaper (Nat.not_le_of_lt hlt)
  · refine exists_pruneNum_iff.mpr ⟨hx.start_lt, horder.2.mem_take_of_countP_le ?_ ?_, hstart⟩
    · exact horder.1.mem_iff.mpr (List.mem_range.mpr hx.start_lt)
    · rwa [horder.countP_eq]

/-- Where the condition fails, the order that puts the final state early and the start
late throws out the start. -/
theorem keepsStart_of_startStays (hf : final < x.numStates)
    (h : ∀ order, x.SortedStates final order → x.StartStays final maxStates ratio order) :
    x.KeepsStart final maxStates ratio := by
  by_cases hzero : final = 0
  · exact .inl hzero
  cases hover : x.overWorst final ratio (x.bestPathCost final final) with
  | true => exact .inr (.inl hover)
  | false =>
    by_cases hcheaper : x.allowed maxStates ≤ x.numCheaper final (x.bestPathCost final final)
    · exact .inr (.inr (.inl hcheaper))
    · obtain ⟨order, hperm, hsorted, hearly, hlate⟩ :=
        exists_extreme_order (x.bestPathCost final) (List.nodup_range (n := x.numStates)) hzero
          (List.mem_range.mpr hf)
      have hkept := h order ⟨hperm, hsorted⟩ (exists_pruneNum_iff.mpr
        ⟨hf, hearly _ (Nat.lt_of_not_le hcheaper), hover⟩)
      obtain ⟨-, htake, hstart⟩ := exists_pruneNum_iff.mp hkept
      refine .inr (.inr (.inr ⟨hstart, ?_⟩))
      by_contra hcount
      exact hlate _ (Nat.lt_of_not_le hcount) htake

variable (x) in
/-- The number of states on paths of the best weight. -/
noncomputable def numBest : ℕ := {s | ∃ p, x.NearBest 0 p ∧ x.Passes p s}.ncard

omit [AddCommGroup K] [LinearOrder K] in
theorem allowed_eq_zero_iff (hx : x.Valid) : x.allowed maxStates = 0 ↔ maxStates = 0 := by
  have hpos := hx.start_lt
  rw [allowed]
  split
  case isTrue h =>
    rcases h with rfl | h
    · simp [unlimited, Nat.pos_iff_ne_zero.mp hpos]
    · omega
  case isFalse h => rfl

theorem numNoDearer_le_allowed_iff {cost : WithTop K} :
    x.numNoDearer final cost ≤ x.allowed maxStates ↔
      maxStates = unlimited ∨ x.numNoDearer final cost ≤ maxStates := by
  have hle : x.numNoDearer final cost ≤ x.numStates :=
    List.countP_le_length.trans_eq List.length_range
  rw [allowed]
  split
  case isTrue h => omega
  case isFalse h =>
    rw [not_or] at h
    exact (or_iff_right h.1).symm

section Prob

variable [IsOrderedAddMonoid K] (hx : x.Valid) (hfinal : x.final = some final)
include hx hfinal

theorem le_bestPathCost (hw : x.WeightsLeOne) (s : ℕ) :
    x.forDist final ≤ x.bestPathCost final s := by
  by_cases hcost : x.bestPathCost final s = ⊤
  · rw [hcost]
    exact le_top
  · have hfinite := WithTop.add_ne_top.mp hcost
    obtain ⟨p₁, p₂, first, second, hfirst, hsecond⟩ :=
      exists_best_ways hx hw hfinal hfinite.1 hfinite.2
    rw [bestPathCost, ← hfirst, ← hsecond, ← List.sum_append, ← List.map_append]
    exact (forDist_spec hx hw).le (first.append second)

/-- The states that cost no more than the best path are those on a best path. -/
theorem numNoDearer_best (hw : x.WeightsLeOne) (hbest : x.forDist final ≠ ⊤) :
    x.numNoDearer final (x.forDist final) = x.numBest := by
  have hmem : {s | ∃ p, x.NearBest 0 p ∧ x.Passes p s} =
      ((List.range x.numStates).filter fun s => x.bestPathCost final s ≤ x.forDist final).toFinset := by
    ext s
    rw [Finset.mem_coe, List.mem_toFinset, List.mem_filter, List.mem_range, decide_eq_true_iff,
      Set.mem_ofPred_eq]
    constructor
    · rintro ⟨p, hp, p₁, p₂, rfl, first⟩
      obtain ⟨hwalk, hsum⟩ := (nearBest_iff hx hw hfinal).mp hp
      obtain ⟨m, first', second⟩ := Walk.append_iff.mp hwalk
      obtain rfl := first.target_unique first' Adj.det
      rw [add_zero] at hsum
      exact ⟨lt_of_reaches hx ⟨p₁, first⟩, (bestPathCost_le hx hw hfinal first second).trans hsum⟩
    · rintro ⟨-, hle⟩
      have hfinite := WithTop.add_ne_top.mp (ne_top_of_le_ne_top hbest hle)
      obtain ⟨p₁, p₂, first, second, hfirst, hsecond⟩ :=
        exists_best_ways hx hw hfinal hfinite.1 hfinite.2
      refine ⟨p₁ ++ p₂, (nearBest_iff hx hw hfinal).mpr ⟨first.append second, ?_⟩, p₁, p₂, rfl, first⟩
      rwa [List.map_append, List.sum_append, hfirst, hsecond, add_zero]
  rw [numBest, hmem, Set.ncard_coe_finset,
    List.toFinset_card_of_nodup (List.nodup_range.filter _), numNoDearer,
    List.countP_eq_length_filter]

/-- With probabilities for weights and some path, the limit has to leave room for all
states on best paths. -/
theorem keepsStart_iff (hw : x.ProbWeights) (hpath : ∃ p, x.IsPath p) :
    x.KeepsStart final maxStates ratio ↔
      final = 0 ∨ ratio < 0 ∨ maxStates = 0 ∨ maxStates = unlimited ∨ x.numBest ≤ maxStates := by
  have hle := hw.weightsLeOne
  obtain ⟨p, hp⟩ := hpath
  have hwalk := (isPath_iff_walk hfinal).mp hp
  have hbest : x.forDist final ≠ ⊤ :=
    ne_top_of_le_ne_top (hw.sum_ne_top hwalk) ((forDist_spec hx hle).le hwalk)
  have hcost : ∀ s, x.bestPathCost final s ≤ x.forDist final →
      x.bestPathCost final s = x.forDist final :=
    fun s hs => le_antisymm hs (le_bestPathCost hx hfinal hle s)
  have hstart := hcost 0 (bestPathCost_zero_le hx hle hfinal)
  have hend := hcost final (bestPathCost_final_le hx hle hfinal)
  have hcheaper : x.numCheaper final (x.forDist final) = 0 := by
    rw [numCheaper, List.countP_eq_zero]
    intro s _
    simpa using le_bestPathCost hx hfinal hle s
  have hover : x.overWorst final ratio (x.forDist final) = true ↔ ratio < 0 := by
    cases ratio with
    | bot => simp [overWorst, hbest]
    | coe d =>
      rw [← Bool.not_eq_false, overWorst_eq_false_iff, ← not_le, not_iff_not,
        ← WithBot.coe_zero, WithBot.coe_le_coe]
      obtain ⟨c, hc⟩ := WithTop.ne_top_iff_exists.mp hbest
      rw [← hc]
      cases d with
      | top => simp
      | coe d =>
        rw [← WithTop.coe_add, WithTop.coe_le_coe, WithTop.coe_nonneg]
        exact le_add_iff_nonneg_right c
  rw [KeepsStart, hstart, hend, hcheaper, Nat.le_zero, allowed_eq_zero_iff hx,
    numNoDearer_le_allowed_iff, numNoDearer_best hx hfinal hle hbest, hover, ← Bool.not_eq_true, hover]
  tauto

end Prob

end WFST

namespace NamedWFST

variable {x : NamedWFST (LogWeight K)} {final maxStates : ℕ} {ratio : WithBot (WithTop K)}
variable {order : List ℕ}

/-- What is asked of the result `y`, where `num` gives the new numbers: it is marked invalid,
or its start and final state are those of `x` and it accepts nothing new. -/
def SameEnds (x y : NamedWFST (LogWeight K)) (num : ℕ → Option ℕ) : Prop :=
  y.final = none ∨ num 0 = some 0 ∧ y.final = x.final.bind num ∧
      ∀ p', y.IsPath p' → ∃ p, x.IsPath p ∧ pathInput p = pathInput p' ∧
        pathOutput p = pathOutput p' ∧ pathWeight p' ≤ pathWeight p

theorem sameEnds_iff (hx : x.Valid) (hfinal : x.final = some final)
    (horder : order.Perm (List.range x.numStates)) :
    x.SameEnds (x.prunePaths maxStates ratio order) (x.pruneNum final maxStates ratio order) ↔
      x.StartStays final maxStates ratio order := by
  have r : x.Restricts (x.prunePaths maxStates ratio order).toWFST
      (x.pruneNum final maxStates ratio order) (x.pruneEdit final maxStates ratio order) :=
    prunePaths_restricts hx hfinal horder
  have hyfinal : (x.prunePaths maxStates ratio order).final =
      x.pruneNum final maxStates ratio order final :=
    prunePaths_final hx hfinal horder
  constructor
  · rintro (hnone | ⟨hstart, -⟩) ⟨j, hj⟩
    · rw [hyfinal, hj] at hnone
      cases hnone
    · exact ⟨0, hstart⟩
  · intro hstays
    cases hj : x.pruneNum final maxStates ratio order final with
    | none => exact .inl (hyfinal.trans hj)
    | some j =>
      have hstart := WFST.pruneNum_zero (hstays ⟨j, hj⟩)
      have hyfinal' : (x.prunePaths maxStates ratio order).final =
          x.final.bind (x.pruneNum final maxStates ratio order) := by
        rw [hyfinal, hfinal, Option.bind_some]
      refine .inr ⟨hstart, hyfinal', fun p' hp' => ?_⟩
      obtain ⟨e, he⟩ := r.exists_equiv hstart (r.final_iff hyfinal')
      have himage := he (e.symm ⟨p', hp'⟩)
      rw [Equiv.apply_symm_apply] at himage
      exact ⟨_, WFST.isPath_of_kept (e.symm ⟨p', hp'⟩).2,
        WFST.Restricts.Image.pathInput_eq himage, WFST.Restricts.Image.pathOutput_eq himage,
        (WFST.Restricts.Image.pathWeight_eq himage).symm.le⟩

/-- **Pruning by number** either invalidates or keeps the start, in whatever order the sort
leaves ties, exactly under `KeepsStart`. For probabilities this asks that the start is the
final state, or the ratio is below one, or the limit is zero, or it leaves room for all
states on best paths. -/
theorem prunePaths_sameEnds_iff [IsOrderedAddMonoid K] (x : NamedWFST (LogWeight K)) (hx : x.Valid)
    (final : ℕ) (hfinal : x.final = some final) (maxStates : ℕ) (ratio : WithBot (WithTop K)) :
    ((∀ order, x.SortedStates final order → x.SameEnds (x.prunePaths maxStates ratio order)
        (x.pruneNum final maxStates ratio order)) ↔ x.KeepsStart final maxStates ratio) ∧
      (x.ProbWeights → (∃ p, x.IsPath p) → (x.KeepsStart final maxStates ratio ↔
        final = 0 ∨ ratio < 0 ∨ maxStates = 0 ∨ maxStates = WFST.unlimited ∨
          x.numBest ≤ maxStates)) := by
  refine ⟨⟨fun h => ?_, fun h order horder => ?_⟩, fun hw hpath => WFST.keepsStart_iff hx hfinal hw hpath⟩
  · refine WFST.keepsStart_of_startStays (hx.final_lt' hfinal) fun order horder => ?_
    exact (sameEnds_iff hx hfinal horder.1).mp (h order horder)
  · exact (sameEnds_iff hx hfinal horder.1).mpr (WFST.startStays_of_keepsStart hx h horder)

/-- A limit of two states is enough for `oneArc`. -/
theorem prunePaths_sameEnds_oneArc :
    oneArc.KeepsStart 1 2 ((⊤ : WithTop ℤ) : WithBot (WithTop ℤ)) ∧
      ∀ order, oneArc.SortedStates 1 order →
        oneArc.SameEnds (oneArc.prunePaths 2 ((⊤ : WithTop ℤ) : WithBot (WithTop ℤ)) order)
          (oneArc.pruneNum 1 2 ((⊤ : WithTop ℤ) : WithBot (WithTop ℤ)) order) := by
  have hkeeps : oneArc.KeepsStart 1 2 ((⊤ : WithTop ℤ) : WithBot (WithTop ℤ)) := by
    decide
  exact ⟨hkeeps, (prunePaths_sameEnds_iff oneArc valid_oneArc 1 rfl 2 _).1.mpr hkeeps⟩

/-- A limit of one state may leave the final state of `oneArc` only, which then accepts the
empty string. -/
theorem prunePaths_oneArc_accepts :
    oneArc.Valid ∧ (∃ p, oneArc.IsPath p) ∧ oneArc.SortedStates 1 [1, 0] ∧
      ∃ p', (oneArc.prunePaths 1 ((⊤ : WithTop ℤ) : WithBot (WithTop ℤ)) [1, 0]).IsPath p' ∧
        ∀ p, oneArc.IsPath p → pathInput p ≠ pathInput p' := by
  refine ⟨valid_oneArc, ⟨[⟨0, 0, ⟨2, 2, 1, LogWeight.ofLog (-1), FSTArc.noGroup⟩⟩], 1, ?_, rfl⟩,
    ⟨by decide, by decide⟩, [], ⟨0, .nil 0, by decide⟩, ?_⟩
  · exact .single ⟨WFST.mem_outArcs.mpr ⟨rfl, rfl⟩, rfl⟩
  · rintro p ⟨f, hwalk, hf⟩ hinput
    cases hwalk with
    | nil => cases hf
    | @cons _ _ _ h _ step rest =>
      have harc := (WFST.mem_outArcs.mp step.1).2
      have hinp : h.arc.inp = 2 := by
        have hmem : h.arc ∈ (oneArc.state 0).arcs := List.mem_of_getElem? harc
        simp [oneArc, WFST.state] at hmem
        rw [hmem]
      simp [pathInput, nonEpsilon, hinp, epsilonIndex] at hinput

end NamedWFST

end Carmel
