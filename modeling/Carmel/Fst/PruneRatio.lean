/-
# Pruning by weight

With no limit on the number of states, `prunePaths` keeps every path that weighs
at least the best weight divided by the ratio. What it keeps lies on such a
path, if there is a path at all: without one every cost is infinite, nothing is
over, and nothing is removed.
-/

import Carmel.Fst.PrunePaths

namespace Carmel

open Carmel.Math

universe u

variable {K : Type u} [AddCommGroup K] [LinearOrder K]

namespace WFST

variable {x : WFST (LogWeight K)} {ratio : WithTop K} {final i : ℕ} {order : List ℕ}
variable {p p₁ p₂ : List (HalfArc (LogWeight K))}

variable (x) in
/-- All weights are positive probabilities. -/
def ProbWeights : Prop :=
  ∀ state ∈ x.states, ∀ arc ∈ state.arcs, arc.weight ≠ LogWeight.zero ∧ arc.weight ≤ 1

variable (x ratio p) in
/-- A path at a cost not farther than `ratio`, the logarithm of the ratio, from the
cost of any path. -/
def NearBest : Prop :=
  x.IsPath p ∧ ∀ q, x.IsPath q → (pathWeight p).getCost ≤ (pathWeight q).getCost + ratio

variable (x p) in
/-- Some part of the path leads from the start to the state. -/
def Passes (i : ℕ) : Prop := ∃ p₁ p₂, p = p₁ ++ p₂ ∧ Walk x.Adj 0 p₁ i

omit [LinearOrder K] in
theorem getCost_pathWeight : (pathWeight p).getCost = (p.map stepCost).sum := by
  rw [pathWeight, LogWeight.getCost_prod, List.map_map]
  rfl

theorem ProbWeights.weightsLeOne (hw : x.ProbWeights) : x.WeightsLeOne :=
  fun state hstate arc harc => (hw state hstate arc harc).2

theorem ProbWeights.sum_ne_top (hw : x.ProbWeights) {s t : ℕ} (hwalk : Walk x.Adj s p t) :
    (p.map stepCost).sum ≠ ⊤ := by
  induction hwalk with
  | nil s => exact WithTop.zero_ne_top
  | @cons s m t h p hstep _ ih =>
    obtain ⟨state, hstate, harc⟩ := mem_state_arcs_of_mem_outArcs hstep.1
    rw [List.map_cons, List.sum_cons]
    exact WithTop.add_ne_top.mpr ⟨LogWeight.getCost_ne_top_iff.mpr (hw state hstate _ harc).1, ih⟩

/-- Without a limit, a state stays when the best path through it is near the best. -/
theorem stays_iff (horder : order.Perm (List.range x.numStates)) :
    (∃ j, x.pruneNum final unlimited ratio order i = some j) ↔
    i < x.numStates ∧ x.bestPathCost final i ≤ x.forDist final + ratio := by
  rw [exists_pruneNum_iff, overWorst_eq_false_iff, allowed, if_pos (.inl rfl),
    List.take_of_length_le (by rw [horder.length_eq, List.length_range]), horder.mem_iff,
    List.mem_range]
  exact and_congr_right fun hi => and_iff_right hi

section Ordered

variable [IsOrderedAddMonoid K]

section Distance

variable (hx : x.Valid) (hw : x.WeightsLeOne) (hfinal : x.final = some final)
include hx hw hfinal

theorem nearBest_iff : x.NearBest ratio p ↔
    Walk x.Adj 0 p final ∧ (p.map stepCost).sum ≤ x.forDist final + ratio := by
  have hfor := forDist_spec hx hw
  rw [NearBest, isPath_iff_walk hfinal]
  refine and_congr_right fun _ => ?_
  constructor
  · intro hall
    rcases hfor.attained final with htop | ⟨q, hwalk, hsum⟩
    · rw [htop, WithTop.top_add]
      exact le_top
    · have hle := hall q ((isPath_iff_walk hfinal).mpr hwalk)
      rwa [getCost_pathWeight, getCost_pathWeight, hsum] at hle
  · intro hle q hq
    rw [getCost_pathWeight, getCost_pathWeight]
    exact hle.trans (add_le_add (hfor.le ((isPath_iff_walk hfinal).mp hq)) le_rfl)

theorem bestPathCost_le {s : ℕ} (first : Walk x.Adj 0 p₁ s) (second : Walk x.Adj s p₂ final) :
    x.bestPathCost final s ≤ ((p₁ ++ p₂).map stepCost).sum := by
  rw [List.map_append, List.sum_append]
  exact add_le_add ((forDist_spec hx hw).le first)
    ((revDist_spec hx hw (hx.final_lt' hfinal)).le second)

theorem exists_best_ways {s t : ℕ} (hfor : x.forDist s ≠ ⊤) (hrev : x.revDist final t ≠ ⊤) :
    ∃ p₁ p₂, Walk x.Adj 0 p₁ s ∧ Walk x.Adj t p₂ final ∧ (p₁.map stepCost).sum = x.forDist s ∧
      (p₂.map stepCost).sum = x.revDist final t := by
  obtain ⟨p₁, first, hfirst⟩ := ((forDist_spec hx hw).attained s).resolve_left hfor
  obtain ⟨p₂, second, hsecond⟩ :=
    ((revDist_spec hx hw (hx.final_lt' hfinal)).attained t).resolve_left hrev
  exact ⟨p₁, p₂, first, second, hfirst, hsecond⟩

theorem bestPathCost_zero_le : x.bestPathCost final 0 ≤ x.forDist final := by
  rcases (forDist_spec hx hw).attained final with htop | ⟨q, hwalk, hsum⟩
  · rw [htop]
    exact le_top
  · have hle := bestPathCost_le hx hw hfinal (.nil 0) hwalk
    rwa [List.nil_append, hsum] at hle

theorem bestPathCost_final_le : x.bestPathCost final final ≤ x.forDist final := by
  rcases (forDist_spec hx hw).attained final with htop | ⟨q, hwalk, hsum⟩
  · rw [htop]
    exact le_top
  · have hle := bestPathCost_le hx hw hfinal hwalk (.nil final)
    rwa [List.append_nil, hsum] at hle

variable (horder : order.Perm (List.range x.numStates))
include horder

theorem stays_of_walks {s : ℕ} (first : Walk x.Adj 0 p₁ s) (second : Walk x.Adj s p₂ final)
    (hnear : ((p₁ ++ p₂).map stepCost).sum ≤ x.forDist final + ratio) :
    ∃ j, x.pruneNum final unlimited ratio order s = some j := by
  rw [stays_iff horder]
  exact ⟨lt_of_reaches hx ⟨p₁, first⟩, (bestPathCost_le hx hw hfinal first second).trans hnear⟩

theorem walk_kept_of_near {s : ℕ} (first : Walk x.Adj 0 p₁ s) (second : Walk x.Adj s p₂ final)
    (hnear : ((p₁ ++ p₂).map stepCost).sum ≤ x.forDist final + ratio) :
    Walk (x.KeptAdj (x.pruneNum final unlimited ratio order)
      (x.pruneEdit final unlimited ratio order)) s p₂ final := by
  induction p₂ generalizing p₁ s with
  | nil => exact Walk.nil_iff.mpr (Walk.nil_iff.mp second)
  | cons h p₂ ih =>
    obtain ⟨m, hstep, hrest⟩ := Walk.cons_iff.mp second
    have hnear' : ((p₁ ++ [h] ++ p₂).map stepCost).sum ≤ x.forDist final + ratio := by
      rwa [List.append_assoc, List.singleton_append]
    have first' : Walk x.Adj 0 (p₁ ++ [h]) m := first.append (.single hstep)
    have hs := stays_of_walks hx hw hfinal horder first second hnear
    have hm := stays_of_walks hx hw hfinal horder first' hrest hnear'
    refine .cons ⟨hstep, hs, ?_⟩ (ih first' hrest hnear')
    rw [exists_pruneEdit_iff hs, overWorst_eq_false_iff, hstep.2]
    refine ⟨hm, le_trans ?_ hnear⟩
    calc h.arc.weight.getCost + x.forDist s + x.revDist final m
        = x.forDist s + (stepCost h + x.revDist final m) := by
          rw [stepCost, add_comm h.arc.weight.getCost, add_assoc]
      _ ≤ (p₁.map stepCost).sum + (stepCost h + (p₂.map stepCost).sum) :=
          add_le_add ((forDist_spec hx hw).le first)
            (add_le_add le_rfl ((revDist_spec hx hw (hx.final_lt' hfinal)).le hrest))
      _ = ((p₁ ++ h :: p₂).map stepCost).sum := by
          rw [List.map_append, List.sum_append, List.map_cons, List.sum_cons]

variable (hworst : x.forDist final + ratio ≠ ⊤)
include hworst

/-- What stays lies on a near path. -/
theorem exists_nearBest_of_stays {j : ℕ} (hi : x.pruneNum final unlimited ratio order i = some j) :
    ∃ p, x.NearBest ratio p ∧ x.Passes p i := by
  have hle := ((stays_iff horder).mp ⟨j, hi⟩).2
  have hfinite := WithTop.add_ne_top.mp (ne_top_of_le_ne_top hworst hle)
  obtain ⟨p₁, p₂, first, second, hfirst, hsecond⟩ :=
    exists_best_ways hx hw hfinal hfinite.1 hfinite.2
  refine ⟨p₁ ++ p₂, (nearBest_iff hx hw hfinal).mpr ⟨first.append second, ?_⟩, p₁, p₂, rfl, first⟩
  rwa [List.map_append, List.sum_append, hfirst, hsecond]

omit horder in
theorem exists_nearBest_of_kept {s t : ℕ} {h : HalfArc (LogWeight K)}
    (hkept : x.KeptAdj (x.pruneNum final unlimited ratio order)
      (x.pruneEdit final unlimited ratio order) s h t) :
    ∃ p, x.NearBest ratio p ∧ h ∈ p := by
  obtain ⟨hstep, hs, hb⟩ := hkept
  rw [exists_pruneEdit_iff hs, overWorst_eq_false_iff, hstep.2] at hb
  obtain ⟨-, hle⟩ := hb
  have hfinite := WithTop.add_ne_top.mp (ne_top_of_le_ne_top hworst hle)
  obtain ⟨p₁, p₂, first, second, hfirst, hsecond⟩ :=
    exists_best_ways hx hw hfinal (WithTop.add_ne_top.mp hfinite.1).2 hfinite.2
  refine ⟨p₁ ++ h :: p₂, (nearBest_iff hx hw hfinal).mpr
    ⟨first.append (.cons hstep second), le_trans (le_of_eq ?_) hle⟩, by simp⟩
  rw [List.map_append, List.sum_append, List.map_cons, List.sum_cons, hfirst, hsecond, stepCost,
    add_left_comm, add_assoc]

end Distance

end Ordered

end WFST

namespace NamedWFST

variable [IsOrderedAddMonoid K]

/-- **Pruning by weight** keeps the near paths as they are and adds none. If there is a path,
and the ratio is finite, every state and every arc it leaves lies on a near path. -/
theorem prunePaths_near (x : NamedWFST (LogWeight K)) (hx : x.Valid) (hw : x.ProbWeights)
    (ratio : WithTop K) (hratio : 0 ≤ ratio) (order : List ℕ)
    (horder : order.Perm (List.range x.numStates)) :
    ∃ (y : NamedWFST (LogWeight K)) (num : ℕ → Option ℕ) (kept : List (HalfArc (LogWeight K)) → Prop),
      x.prunePaths WFST.unlimited ratio order = y ∧
      (∀ i i' j, num i = some j → num i' = some j → i = i') ∧
      (∀ j, j < y.numStates ↔ ∃ i, num i = some j) ∧
      (y.Valid ∧ num 0 = some 0 ∧ y.final = x.final.bind num) ∧
      (∀ p, x.NearBest ratio p → kept p) ∧ (∀ p, kept p → x.IsPath p) ∧
      (∃ e : {p // kept p} ≃ {p // y.IsPath p},
        ∀ p, List.Forall₂ (WFST.Restricts.Image num) p.1 (e p).1) ∧
      ((∃ p, x.IsPath p) → ratio ≠ ⊤ →
        (∀ i j, num i = some j → ∃ p, x.NearBest ratio p ∧ x.Passes p i) ∧
        ∀ j h' k, y.Adj j h' k →
          ∃ p h, x.NearBest ratio p ∧ h ∈ p ∧ WFST.Restricts.Image num h h') := by
  obtain ⟨f, hfinal, hf⟩ := hx.final_lt
  have hle := hw.weightsLeOne
  have r : x.Restricts (x.prunePaths WFST.unlimited ratio order).toWFST
      (x.pruneNum f WFST.unlimited ratio order) (x.pruneEdit f WFST.unlimited ratio order) :=
    prunePaths_restricts hx hfinal horder
  have hyfinal : (x.prunePaths WFST.unlimited ratio order).final =
      x.pruneNum f WFST.unlimited ratio order f :=
    prunePaths_final hx hfinal horder
  have hyfinal' : (x.prunePaths WFST.unlimited ratio order).final =
      x.final.bind (x.pruneNum f WFST.unlimited ratio order) := by
    rw [hyfinal, hfinal, Option.bind_some]
  have hbest : x.forDist f ≤ x.forDist f + ratio := le_add_of_nonneg_right hratio
  obtain ⟨j, hj⟩ : ∃ j, x.pruneNum f WFST.unlimited ratio order f = some j :=
    (WFST.stays_iff horder).mpr ⟨hf, (WFST.bestPathCost_final_le hx hle hfinal).trans hbest⟩
  have hstart : x.pruneNum f WFST.unlimited ratio order 0 = some 0 :=
    WFST.pruneNum_zero ((WFST.stays_iff horder).mpr
      ⟨hx.start_lt, (WFST.bestPathCost_zero_le hx hle hfinal).trans hbest⟩)
  refine ⟨_, x.pruneNum f WFST.unlimited ratio order,
    Accepted (x.KeptAdj (x.pruneNum f WFST.unlimited ratio order)
      (x.pruneEdit f WFST.unlimited ratio order)) (fun s => x.final = some s) 0,
    rfl, fun _ _ _ => r.inj, fun j => ⟨r.onto j, fun ⟨_, hi⟩ => r.lt' hi⟩,
    ⟨?_, hstart, hyfinal'⟩, fun p hp => ?_, fun p hp => WFST.isPath_of_kept hp,
    r.exists_equiv hstart (r.final_iff hyfinal'), fun ⟨p, hp⟩ hfinite => ?_⟩
  · refine r.valid hx ?_ ?_ hstart ⟨j, hyfinal.trans hj, r.lt' hj⟩
    · rw [prunePaths_toWFST hfinal horder, WFST.removeMarkedStates_inAlph]
      rfl
    · rw [prunePaths_toWFST hfinal horder, WFST.removeMarkedStates_outAlph]
      rfl
  · obtain ⟨hwalk, hsum⟩ := (WFST.nearBest_iff hx hle hfinal).mp hp
    exact ⟨f, WFST.walk_kept_of_near hx hle hfinal horder (.nil 0) hwalk hsum, hfinal⟩
  · have hworst : x.forDist f + ratio ≠ ⊤ := by
      have hwalk := (WFST.isPath_iff_walk hfinal).mp hp
      exact WithTop.add_ne_top.mpr ⟨ne_top_of_le_ne_top (hw.sum_ne_top hwalk)
        ((WFST.forDist_spec hx hle).le hwalk), hfinite⟩
    refine ⟨fun i j hi => WFST.exists_nearBest_of_stays hx hle hfinal horder hworst hi,
      fun j h' k hstep => ?_⟩
    obtain ⟨i, hi⟩ := r.onto j (WFST.lt_of_adj hstep)
    obtain ⟨h, k', hmoved, hkept, -⟩ := r.back hi hstep
    obtain ⟨q, hq, hmem⟩ := WFST.exists_nearBest_of_kept hx hle hfinal hworst hkept
    refine ⟨q, h, hq, hmem, ?_, r.same hmoved.arc, r.dest hmoved.arc⟩
    rw [(WFST.mem_outArcs.mp hkept.1.1).1]
    exact hmoved.source

/-- One arc from the start to the final state, at the cost one. -/
def oneArc : NamedWFST (LogWeight ℤ) where
  states := [⟨[⟨2, 2, 1, LogWeight.ofLog (-1), FSTArc.noGroup⟩], 1⟩, .empty]
  final := some 1
  inAlph := letterA
  outAlph := letterA
  stateNames := ⟨[], fun _ => none⟩

theorem valid_oneArc : oneArc.Valid where
  start_lt := by decide
  final_lt := ⟨1, rfl, by decide⟩
  dest_lt := by decide
  inp_lt := by decide
  out_lt := by decide

theorem probWeights_oneArc : oneArc.ProbWeights := by
  have hzero : (LogWeight.ofLog (-1) : LogWeight ℤ) ≠ LogWeight.zero := WithBot.coe_ne_bot
  have hone : (LogWeight.ofLog (-1) : LogWeight ℤ) ≤ 1 := by decide
  simp [WFST.ProbWeights, oneArc, State.empty, hzero, hone]

/-- What pruning `oneArc` leaves has a final state. -/
theorem prunePaths_near_oneArc :
    ∃ (y : NamedWFST (LogWeight ℤ)) (num : ℕ → Option ℕ),
      oneArc.prunePaths WFST.unlimited ((2 : ℤ) : WithTop ℤ) [1, 0] = y ∧ y.Valid ∧ num 0 = some 0 ∧
        y.final = num 1 := by
  obtain ⟨y, num, -, hy, -, -, ⟨hvalid, hstart, hfinal⟩, -⟩ := prunePaths_near oneArc valid_oneArc
    probWeights_oneArc ((2 : ℤ) : WithTop ℤ) (by decide) [1, 0] (by decide)
  exact ⟨y, num, hy, hvalid, hstart, hfinal⟩

/-- A final state that no arc enters. -/
def noArc : NamedWFST (LogWeight ℤ) where
  states := [.empty, .empty]
  final := some 1
  inAlph := letterA
  outAlph := letterA
  stateNames := ⟨[], fun _ => none⟩

/-- Where there is no path, states that lie on none are left. -/
theorem prunePaths_noArc :
    noArc.Valid ∧ noArc.ProbWeights ∧
      (noArc.prunePaths WFST.unlimited ((2 : ℤ) : WithTop ℤ) [0, 1]).numStates = 2 ∧
      ¬ ∃ p, noArc.NearBest ((2 : ℤ) : WithTop ℤ) p := by
  refine ⟨⟨by decide, ⟨1, rfl, by decide⟩, by decide, by decide, by decide⟩,
    by simp [WFST.ProbWeights, noArc, State.empty], by decide, ?_⟩
  rintro ⟨p, ⟨f, hwalk, hf⟩, -⟩
  cases hwalk with
  | nil => cases hf
  | cons step rest =>
    have harc := (WFST.mem_outArcs.mp step.1).2
    simp [noArc, WFST.state, State.empty] at harc

end NamedWFST

end Carmel
