/-
# The count and the index in a run

In a run of operations the number of arcs that a state keeps is right as long as
`assignWeights`, which erases past the counter, erases nothing. The index is right as long
as a state that has one is changed by operations that flush it, and is not indexed in the
other direction, which `indexBy` leaves undone.
-/

import Carmel.Math.Runs
import Carmel.Stored.Wfst

namespace Carmel

open Carmel.Math

universe u

variable {K : Type u} [AddCommGroup K] [LinearOrder K]
variable {add : LogWeight K → LogWeight K → LogWeight K}

namespace StoredWFST

section Sizes

variable {x y : StoredWFST (LogWeight K)}

omit [AddCommGroup K] [LinearOrder K] in
/-- A group has a weight when a tied arc of the source is in it. -/
theorem groupWeight_ne_none_iff {source : WFST (LogWeight K)} {group : ℕ} :
    groupWeight source group ≠ none ↔
      ∃ state ∈ source.states, ∃ a ∈ state.arcs, a.isTied = true ∧ a.groupId = group := by
  have hfold : ∀ (arcs : List (FSTArc (LogWeight K))) (table : ℕ → Option (LogWeight K)),
      arcs.foldl (fun table a =>
        if a.isTied then Function.update table a.groupId (some a.weight) else table) table group ≠ none ↔
      table group ≠ none ∨ ∃ a ∈ arcs, a.isTied = true ∧ a.groupId = group := by
    intro arcs
    induction arcs with
    | nil => simp
    | cons a arcs ih =>
      intro table
      rw [List.foldl_cons, ih]
      by_cases hgroup : group = a.groupId
      · subst hgroup
        cases ha : a.isTied <;> simp [ha]
      · cases ha : a.isTied <;> simp [ha, hgroup, Ne.symm hgroup]
  rw [groupWeight, hfold]
  simp only [List.mem_flatMap, ne_eq, not_true_eq_false, false_or]
  constructor
  · rintro ⟨a, ⟨state, hstate, ha⟩, hgroup⟩
    exact ⟨state, hstate, a, ha, hgroup⟩
  · rintro ⟨state, hstate, a, ha, hgroup⟩
    exact ⟨a, ⟨state, hstate, ha⟩, hgroup⟩

/-- The only operation that may erase without counting is `assignWeights`, from a source
that lacks a tied group of this transducer. -/
def CountsArcs (op : Op K) (x : StoredWFST (LogWeight K)) : Prop :=
  match op with
  | .assignWeights source => ∀ st ∈ x.states, ∀ n ∈ st.nodes, n.arc.isTied = true →
      ∃ state ∈ source.states, ∃ a ∈ state.arcs, a.isTied = true ∧ a.groupId = n.arc.groupId
  | _ => True

/-- One operation keeps the counts right exactly when it counts what it erases. -/
theorem counted_step_iff (op : Op K) (h : x.AllStates StoredState.Counted)
    (hstep : op.step add x = some y) : y.AllStates StoredState.Counted ↔ CountsArcs op x := by
  cases op with
  | assignWeights source =>
    obtain rfl := Option.some.inj hstep
    simp only [CountsArcs, ← groupWeight_ne_none_iff]
    constructor
    · intro hy st hst
      obtain ⟨i, hi, rfl⟩ := List.getElem_of_mem hst
      exact ((h _ hst).assignWeights_iff _).mp (hy _ (List.mem_mapIdx.mpr ⟨i, hi, rfl⟩))
    · intro hall
      refine h.mapStates fun i st hi hst => (hst.assignWeights_iff _).mpr ?_
      exact hall st (List.mem_of_getElem? hi)
  | addState =>
    obtain rfl := Option.some.inj hstep
    exact iff_of_true (h.addState StoredState.counted_empty) trivial
  | setFinal final =>
    obtain rfl := Option.some.inj hstep
    exact iff_of_true h trivial
  | addArc s node => exact iff_of_true (h.addArc hstep fun st _ _ hst => hst.addArc node) trivial
  | arcAdder adds =>
    refine iff_of_true ?_ trivial
    exact h.arcAdder (Q := fun _ => True) hstep (fun _ _ _ _ => trivial) (fun _ _ _ _ => trivial)
      fun b st node _ _ hst => hst.insertAfter b node
  | state s op =>
    obtain ⟨-, hy⟩ := Option.ite_none_right_eq_some.mp hstep
    obtain rfl := Option.some.inj hy
    refine iff_of_true (h.modifyState fun st _ hst => ?_) trivial
    cases op with
    | indexBy dir => exact hst.indexBy dir
    | flush => exact hst.flush
    | reduce sum clamp => exact hst.reduce
    | removeEpsilonsTo dest => exact hst.flush.editArcs _
    | prune thresh => exact hst.editArcs _
    | renumberDestinations oldToNew => exact hst.flush.editArcs _
    | project dir identity => exact hst.flush.mapArcs _
  | pruneArcs thresh =>
    obtain rfl := Option.some.inj hstep
    exact iff_of_true (h.mapStates fun _ st _ hst => hst.editArcs _) trivial
  | consolidateArcs sum clamp =>
    obtain rfl := Option.some.inj hstep
    exact iff_of_true (h.mapStates fun _ st _ hst => hst.reduce) trivial
  | prunePaths maxStates ratio order =>
    obtain rfl := Option.some.inj hstep
    refine iff_of_true (h.prunePaths maxStates ratio order (Q := StoredState.Counted)
      (fun st edit hst => hst.editArcs edit) (fun st _ hst => hst.flush.editArcs _)
      fun _ _ _ _ st _ hst => hst.editArcs _) trivial
  | reduce =>
    exact iff_of_true (h.reduce hstep (fun st _ hst => hst.flush.editArcs _)
      fun st _ hst => hst.flush.editArcs _) trivial
  | ensureFinalSink addr =>
    exact iff_of_true (h.ensureFinalSink hstep StoredState.counted_empty
      fun _ _ st _ _ node _ hst => hst.addArc node) trivial
  | invert =>
    obtain rfl := Option.some.inj hstep
    exact iff_of_true (h.mapStates fun _ st _ hst => (hst.mapArcs _).flush) trivial
  | project dir identity =>
    obtain rfl := Option.some.inj hstep
    exact iff_of_true (h.project dir identity fun st hst => hst.flush.mapArcs _) trivial
  | index dir =>
    obtain rfl := Option.some.inj hstep
    exact iff_of_true (h.index dir fun st dir hst => hst.flush.indexBy dir) trivial
  | indexFlush =>
    obtain rfl := Option.some.inj hstep
    exact iff_of_true (h.mapStates fun _ st _ hst => hst.flush) trivial
  | normalize group weight =>
    obtain rfl := Option.some.inj hstep
    exact iff_of_true (h.normalize group weight (fun st dir hst => hst.flush.indexBy dir)
      (fun st hst => hst.flush) fun st w hst => hst.setWeights w) trivial

variable (add) in
/-- **The sizes are right** in every run in which `assignWeights` erases nothing, and so is
`numArcs`. The next operation keeps them right exactly when it erases nothing that way. -/
theorem sizes_of_runs (inAlph outAlph : Alphabet)
    (hrun : Runs (Op.step add) CountsArcs (new inAlph outAlph) x) :
    ((∀ st ∈ x.states, st.size = st.nodes.length) ∧
      x.numArcs = (x.states.map fun st => st.nodes.length).sum) ∧
    ∀ op y, Op.step add op x = some y →
      ((∀ st ∈ y.states, st.size = st.nodes.length) ↔ CountsArcs op x) := by
  have hsizes : x.AllStates StoredState.Counted :=
    hrun.invariant (allStates_new StoredState.counted_empty) fun op t u ht hok hstep =>
      (counted_step_iff op ht hstep).mpr hok
  refine ⟨⟨hsizes, congrArg List.sum (List.map_congr_left hsizes)⟩, fun op y hstep => ?_⟩
  exact counted_step_iff op hsizes hstep

end Sizes

section Index

variable {x y : StoredWFST (LogWeight K)}

/-- Where an operation does not flush, it may not add to or erase from a state with an
index; and an index is asked for in the direction of the one that is there, if any. -/
def KeepsIndexes (op : Op K) (x : StoredWFST (LogWeight K)) : Prop :=
  match op with
  | .addArc s _ => ∀ st ∈ x.states[s]?, st.index = none
  | .arcAdder adds => ∀ e ∈ adds, ∀ st ∈ x.states[e.1]?, st.index = none
  | .ensureFinalSink _ => ∀ final ∈ x.final, ∀ st ∈ x.states[final]?, st.size ≠ 0 → st.index = none
  | .state s (.indexBy dir) => ∀ st ∈ x.states[s]?, ∀ ix ∈ st.index, ix.dir = dir
  | .state s (.prune thresh) => ∀ st ∈ x.states[s]?, st.index ≠ none →
      ∀ n ∈ st.nodes, ¬ n.arc.weight < thresh
  | .pruneArcs thresh => ∀ st ∈ x.states, st.index ≠ none → ∀ n ∈ st.nodes, ¬ n.arc.weight < thresh
  | .prunePaths maxStates ratio order => ∀ final ∈ x.final,
      x.numStates = numKept (x.view.pruneMarks final maxStates ratio order) →
        ∀ i, ∀ st ∈ x.states[i]?, st.index ≠ none →
          ∀ n ∈ st.nodes, x.view.pruneArc final maxStates ratio order i n.arc = some n.arc
  | _ => True

omit [AddCommGroup K] in
theorem pruneArcBelow_eq_some {thresh : LogWeight K} {a : FSTArc (LogWeight K)}
    (h : ¬ a.weight < thresh) : pruneArcBelow thresh a = some a := if_neg h

/-- One operation keeps the indexes right. -/
theorem indexed_step (op : Op K) (h : x.AllStates StoredState.Indexed) (hok : KeepsIndexes op x)
    (hstep : op.step add x = some y) : y.AllStates StoredState.Indexed := by
  cases op with
  | addState =>
    obtain rfl := Option.some.inj hstep
    exact h.addState StoredState.indexed_empty
  | setFinal final =>
    obtain rfl := Option.some.inj hstep
    exact h
  | addArc s node =>
    exact h.addArc hstep fun st hst hfresh hst' => hst'.addArc (hok st hst) hfresh
  | arcAdder adds =>
    exact h.arcAdder (Q := fun st => st.index = none) hstep (fun e he st hst => hok e he st hst)
      (fun b st node hst => by cases b <;> exact hst)
      fun b st node hst hfresh hst' => hst'.insertAfter hst b hfresh
  | state s op =>
    obtain ⟨-, hy⟩ := Option.ite_none_right_eq_some.mp hstep
    obtain rfl := Option.some.inj hy
    refine h.modifyState fun st hst hst' => ?_
    cases op with
    | indexBy dir => exact hst'.indexBy dir
    | flush => exact hst'.flush
    | reduce sum clamp => exact hst'.reduce
    | removeEpsilonsTo dest => exact hst'.editArcs_flush _
    | prune thresh =>
      exact hst'.editArcs fun hindex n hn => pruneArcBelow_eq_some (hok st hst hindex n hn)
    | renumberDestinations oldToNew => exact hst'.editArcs_flush _
    | project dir identity => exact hst'.flush.mapArcs_flush _
  | pruneArcs thresh =>
    obtain rfl := Option.some.inj hstep
    refine h.mapStates fun i st hst hst' => hst'.editArcs fun hindex n hn => ?_
    exact pruneArcBelow_eq_some (hok st (List.mem_of_getElem? hst) hindex n hn)
  | consolidateArcs sum clamp =>
    obtain rfl := Option.some.inj hstep
    exact h.mapStates fun _ st _ hst => hst.reduce
  | prunePaths maxStates ratio order =>
    obtain rfl := Option.some.inj hstep
    exact h.prunePaths maxStates ratio order (Q := fun st => (st.nodes.map ArcNode.addr).Nodup)
      (fun st edit hst => hst.nodup.sublist (StoredState.editArcs_addr_sublist edit))
      (fun st _ hst => .of_none (hst.sublist (StoredState.editArcs_addr_sublist _)) rfl)
      fun final hfinal hkept i st hi hst => hst.editArcs (hok final hfinal hkept i st hi)
  | reduce =>
    exact h.reduce hstep (fun st _ hst => hst.editArcs_flush _) fun st _ hst => hst.editArcs_flush _
  | assignWeights source =>
    obtain rfl := Option.some.inj hstep
    exact h.mapStates fun _ st _ hst => hst.assignWeights _
  | ensureFinalSink addr =>
    exact h.ensureFinalSink hstep StoredState.indexed_empty
      fun final hfinal st hst hsize node hfresh hst' =>
        hst'.addArc (hok final hfinal st hst hsize) hfresh
  | invert =>
    obtain rfl := Option.some.inj hstep
    exact h.mapStates fun _ st _ hst => hst.mapArcs_flush _
  | project dir identity =>
    obtain rfl := Option.some.inj hstep
    exact h.project dir identity fun st hst => hst.flush.mapArcs_flush _
  | index dir =>
    obtain rfl := Option.some.inj hstep
    exact h.index dir fun st dir hst => hst.flush.indexBy dir
  | indexFlush =>
    obtain rfl := Option.some.inj hstep
    exact h.mapStates fun _ st _ hst => hst.flush
  | normalize group weight =>
    obtain rfl := Option.some.inj hstep
    exact h.normalize group weight (fun st dir hst => hst.flush.indexBy dir)
      (fun st hst => hst.flush) fun st w hst => hst.setWeights w

variable (add) in
/-- **The indexes are right** in every run of operations that keep them: after `indexBy dir`,
and after `index dir` where it does anything, each symbol leads to the arcs that have it
now. -/
theorem indexedBy_of_runs (inAlph outAlph : Alphabet)
    (hrun : Runs (Op.step add) KeepsIndexes (new inAlph outAlph) x) :
    (∀ s dir y, KeepsIndexes (.state s (.indexBy dir)) x →
      Op.step add (.state s (.indexBy dir)) x = some y →
        ∃ st, y.states[s]? = some st ∧ st.IndexedBy dir) ∧
    ∀ dir, x.indexedBy ≠ some dir → ∀ st ∈ (x.index dir).states, st.IndexedBy dir := by
  have hindexed : x.AllStates StoredState.Indexed :=
    hrun.invariant (allStates_new StoredState.indexed_empty) fun op t u ht hok hstep =>
      indexed_step op ht hok hstep
  constructor
  · intro s dir y hok hstep
    obtain ⟨hs, hy⟩ := Option.ite_none_right_eq_some.mp hstep
    obtain rfl := Option.some.inj hy
    have hget : x.states[s]? = some x.states[s] := List.getElem?_eq_getElem hs
    refine ⟨x.states[s].indexBy dir, ?_, (hindexed.of_getElem? hget).indexedBy (hok _ hget)⟩
    rw [modifyState, List.getElem?_modify, hget]
    simp [StateOp.run]
  · intro dir hdir st hst
    rw [index, if_neg hdir] at hst
    obtain ⟨i, hi, rfl⟩ := List.mem_mapIdx.mp hst
    exact (hindexed _ (List.getElem_mem hi)).flush.indexedBy fun ix hix =>
      absurd hix (Option.not_mem_none _)

end Index

section Samples

/-- An arc in a tie group, at the address zero. -/
def tiedNode : ArcNode (LogWeight ℤ) := ⟨0, ⟨2, 2, 0, 1, 5⟩⟩

/-- One state with that arc. -/
def tiedLoop : StoredWFST (LogWeight ℤ) := ⟨[⟨[tiedNode], 1, none⟩], some 0, letterA, letterA, none⟩

theorem runs_tiedLoop : Op.step max (.addArc 0 tiedNode) (new letterA letterA) = some tiedLoop := by
  rw [Op.step, addArc, if_pos (by decide)]
  rfl

theorem sizes_of_runs_tiedLoop : tiedLoop.numArcs = 1 :=
  (sizes_of_runs max letterA letterA
    (Runs.start.step (.addArc 0 tiedNode) trivial runs_tiedLoop)).1.2

/-- A source without tied arcs: `assignWeights` erases the arc and leaves the size at one. -/
theorem assignWeights_tiedLoop :
    Runs (Op.step max) (fun _ _ => True) (new letterA letterA) tiedLoop ∧
      ∃ y, Op.step max (.assignWeights ⟨[.empty], some 0, letterA, letterA⟩) tiedLoop = some y ∧
        ∃ st ∈ y.states, st.size = 1 ∧ st.nodes.length = 0 := by
  refine ⟨Runs.start.step (.addArc 0 tiedNode) trivial runs_tiedLoop, _, rfl, _,
    List.mem_cons_self, rfl, rfl⟩

/-- An arc that reads a symbol and writes none. -/
def readingNode : ArcNode (LogWeight ℤ) := ⟨0, ⟨2, 0, 0, 1, FSTArc.noGroup⟩⟩

/-- One state with that arc, and an index. -/
def readingLoop (index : Option ArcIndex) : StoredWFST (LogWeight ℤ) :=
  ⟨[⟨[readingNode], 1, index⟩], some 0, letterA, letterA, none⟩

theorem runs_readingLoop :
    Op.step max (.addArc 0 readingNode) (new letterA letterA) = some (readingLoop none) := by
  rw [Op.step, addArc, if_pos (by decide)]
  rfl

theorem indexedBy_of_runs_readingLoop :
    ∃ y st, Op.step max (.state 0 (.indexBy .kInput)) (readingLoop none) = some y ∧
      y.states[0]? = some st ∧ st.IndexedBy .kInput := by
  have hok : KeepsIndexes (.addArc 0 readingNode) (new letterA letterA) := by
    rintro st hst
    obtain rfl := Option.some.inj hst
    rfl
  have hindex : KeepsIndexes (.state 0 (.indexBy .kInput)) (readingLoop none) := by
    rintro st hst ix hix
    obtain rfl := Option.some.inj hst
    cases hix
  obtain ⟨st, hst, hby⟩ := (indexedBy_of_runs max letterA letterA
    (Runs.start.step (.addArc 0 readingNode) hok runs_readingLoop)).1 0 .kInput _ hindex rfl
  exact ⟨_, st, rfl, hst, hby⟩

/-- Used on the left of a composition, then on the right: the index is still the one by
output. -/
theorem indexBy_readingLoop :
    ∃ x y : StoredWFST (LogWeight ℤ), Runs (Op.step max) (fun _ _ => True) (new letterA letterA) x ∧
      Op.step max (.state 0 (.indexBy .kInput)) x = some y ∧
        ¬ ∃ st, y.states[0]? = some st ∧ st.IndexedBy .kInput := by
  refine ⟨readingLoop (some ⟨.kOutput, StoredState.buildTable .kOutput [readingNode]⟩),
    readingLoop (some ⟨.kOutput, StoredState.buildTable .kOutput [readingNode]⟩),
    (Runs.start.step (.addArc 0 readingNode) trivial runs_readingLoop).step
      (.state 0 (.indexBy .kOutput)) trivial rfl, rfl, ?_⟩
  rintro ⟨st, hst, -, ix, hix, htable⟩
  obtain rfl := Option.some.inj hst
  obtain rfl := Option.some.inj hix
  exact absurd (htable 2) (by decide)

end Samples

end StoredWFST

end Carmel
