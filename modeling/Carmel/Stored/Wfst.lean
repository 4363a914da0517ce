/-
# Operations on a stored transducer

The operations that change the arcs of a transducer, or index them, as functions on the
states as they are stored. A new arc comes with the address of its node, which may be any
that is not in use. What would be done with a state that does not exist is undefined, and
how two logarithms of weights are added is a parameter.
-/

import Carmel.Fst.PrunePaths
import Carmel.Stored.State

namespace Carmel

universe u

/-- A transducer as it is stored; `indexedBy` is `kNone` if it is `none`. -/
structure StoredWFST (W : Type u) where
  states : List (StoredState W)
  final : Option ℕ
  inAlph : Alphabet
  outAlph : Alphabet
  indexedBy : Option LabelType

/-- The arcs and their number. -/
def StoredState.view {W : Type u} (st : StoredState W) : State W := ⟨st.nodes.map ArcNode.arc, st.size⟩

namespace StoredWFST

variable {W : Type u}

section Model

variable (x : StoredWFST W)

def numStates : ℕ := x.states.length

/-- `numArcs`. -/
def numArcs : ℕ := (x.states.map StoredState.size).sum

/-- The transducer without what only the storage has. -/
def view : WFST W := ⟨x.states.map StoredState.view, x.final, x.inAlph, x.outAlph⟩

/-- No node is at the address. -/
def Fresh (addr : ℕ) : Prop := ∀ st ∈ x.states, addr ∉ st.nodes.map ArcNode.addr

instance (addr : ℕ) : Decidable (x.Fresh addr) := inferInstanceAs (Decidable (∀ _ ∈ _, _))

/-- `WFST()`: one state. -/
def new (inAlph outAlph : Alphabet) : StoredWFST W := ⟨[.empty], some 0, inAlph, outAlph, none⟩

def mapStates (f : ℕ → StoredState W → StoredState W) : StoredWFST W :=
  { x with states := x.states.mapIdx f }

def modifyState (s : ℕ) (f : StoredState W → StoredState W) : StoredWFST W :=
  { x with states := x.states.modify s f }

/-- `add_state`. -/
def addState : StoredWFST W := { x with states := x.states ++ [.empty] }

/-- `states[s].addArc(arc)`. -/
def addArc (s : ℕ) (node : ArcNode W) : Option (StoredWFST W) :=
  if s < x.numStates ∧ x.Fresh node.addr then some (x.modifyState s (·.addArc node)) else none

/-- The calls of one `arc_adder`; `bi` is where it last put an arc in each state. -/
def arcAdder : List (ℕ × ArcNode W) → (ℕ → Option ℕ) → StoredWFST W → Option (StoredWFST W)
  | [], _, x => some x
  | (i, node) :: adds, bi, x =>
    if i < x.numStates ∧ x.Fresh node.addr then
      arcAdder adds (Function.update bi i (some node.addr)) (x.modifyState i (·.insertAfter (bi i) node))
    else none

/-- `ensure_final_sink`. -/
def ensureFinalSink [One W] (addr : ℕ) : Option (StoredWFST W) :=
  match x.final with
  | none => none
  | some final =>
    match x.states[final]? with
    | none => none
    | some st =>
      if st.size = 0 then some x
      else
        { x.addState with final := some x.numStates }.addArc final
          ⟨addr, ⟨epsilonIndex, epsilonIndex, x.numStates, 1, FSTArc.noGroup⟩⟩

/-- `removeMarkedStates`. -/
def removeMarkedStates (marked : List Bool) : StoredWFST W :=
  if x.numStates ≠ numKept marked then
    { x with
      states := (removeMarkedSwap marked x.states).map (·.renumberDestinations (newIndex marked))
      final := x.final.bind (newIndex marked) }
  else x

/-- `clear`. -/
def clear : StoredWFST W := { x with states := [], final := none }

/-- `reduce`. -/
def reduce : Option (StoredWFST W) :=
  match x.final with
  | none => some x.clear
  | some final => (x.view.reduceMarks final).map fun marked =>
    (x.removeMarkedStates marked).mapStates fun i st => st.removeEpsilonsTo i

/-- The table `groupWeight` of `assignWeights`: the weight of the last arc of each tied group. -/
def groupWeight (source : WFST W) : ℕ → Option W :=
  (source.states.flatMap State.arcs).foldl
    (fun table a => if a.isTied then Function.update table a.groupId (some a.weight) else table)
    fun _ => none

def assignWeights (source : WFST W) : StoredWFST W :=
  x.mapStates fun _ st => st.assignWeights (groupWeight source)

def invert : StoredWFST W :=
  { x.mapStates (fun _ st => st.invert) with inAlph := x.outAlph, outAlph := x.inAlph }

/-- `project`; with `identity_fsa` both sides use one alphabet. -/
def project (dir : LabelType) (identity : Bool) : StoredWFST W :=
  let y := x.mapStates fun _ st => st.project dir identity
  match identity, dir with
  | false, _ => y
  | true, .kInput => { y with outAlph := x.inAlph }
  | true, .kOutput => { y with inAlph := x.outAlph }

/-- `index`. -/
def index (dir : LabelType) : StoredWFST W :=
  if x.indexedBy = some dir then x
  else { x.mapStates (fun _ st => st.flush.indexBy dir) with indexedBy := some dir }

def indexFlush : StoredWFST W := { x.mapStates (fun _ st => st.flush) with indexedBy := none }

/-- `normalize`, which indexes, sets weights, and throws the indexes away. The new weights
may be any. -/
def normalize (group : NormGroupBy) (weight : ℕ → ℕ → W) : StoredWFST W :=
  match group with
  | .NONE => x
  | .JOINT => x.mapStates fun s st => st.setWeights (weight s)
  | .CONDITIONAL =>
    ((x.index .kInput).mapStates fun s st => st.setWeights (weight s)).indexFlush

end Model

section Weights

variable {K : Type u} [AddCommGroup K] [LinearOrder K] (x : StoredWFST (LogWeight K))

def pruneArcs (thresh : LogWeight K) : StoredWFST (LogWeight K) :=
  x.mapStates fun _ st => st.prune thresh

def prunePaths (maxStates : ℕ) (ratio : WithBot (WithTop K)) (order : List ℕ) :
    StoredWFST (LogWeight K) :=
  if maxStates = WFST.unlimited ∧ ratio = ((⊤ : WithTop K) : WithBot (WithTop K)) then
    x
  else
    match x.final with
    | none => x
    | some final =>
      (x.mapStates fun i st =>
        st.editArcs (x.view.pruneArc final maxStates ratio order i)).removeMarkedStates
          (x.view.pruneMarks final maxStates ratio order)

end Weights

end StoredWFST

/-- An operation on one state that needs no new address. -/
inductive StateOp (W : Type u)
  | indexBy (dir : LabelType)
  | flush
  | reduce (sum clamp : Bool)
  | removeEpsilonsTo (dest : ℕ)
  | prune (thresh : W)
  | renumberDestinations (oldToNew : ℕ → Option ℕ)
  | project (dir : LabelType) (identity : Bool)

/-- The operations. `set_compose` calls `indexBy` on states of its operands, towards the
output on the left and towards the input on the right, and does nothing else to them: as
an operand a transducer makes steps `state s (indexBy dir)`. -/
inductive Op (K : Type u)
  | addState
  | setFinal (final : Option ℕ)
  | addArc (s : ℕ) (node : ArcNode (LogWeight K))
  | arcAdder (adds : List (ℕ × ArcNode (LogWeight K)))
  | state (s : ℕ) (op : StateOp (LogWeight K))
  | pruneArcs (thresh : LogWeight K)
  | consolidateArcs (sum clamp : Bool)
  | prunePaths (maxStates : ℕ) (ratio : WithBot (WithTop K)) (order : List ℕ)
  | reduce
  | assignWeights (source : WFST (LogWeight K))
  | ensureFinalSink (addr : ℕ)
  | invert
  | project (dir : LabelType) (identity : Bool)
  | index (dir : LabelType)
  | indexFlush
  | normalize (group : NormGroupBy) (weight : ℕ → ℕ → LogWeight K)

section Step

variable {K : Type u} [AddCommGroup K] [LinearOrder K]
variable (add : LogWeight K → LogWeight K → LogWeight K)

def StateOp.run (st : StoredState (LogWeight K)) : StateOp (LogWeight K) → StoredState (LogWeight K)
  | .indexBy dir => st.indexBy dir
  | .flush => st.flush
  | .reduce sum clamp => st.reduce LogWeight.zero add sum clamp
  | .removeEpsilonsTo dest => st.removeEpsilonsTo dest
  | .prune thresh => st.prune thresh
  | .renumberDestinations oldToNew => st.renumberDestinations oldToNew
  | .project dir identity => st.project dir identity

/-- One operation; `none` where it has no defined result. -/
def Op.step (op : Op K) (x : StoredWFST (LogWeight K)) : Option (StoredWFST (LogWeight K)) :=
  match op with
  | .addState => some x.addState
  | .setFinal final => some { x with final := final }
  | .addArc s node => x.addArc s node
  | .arcAdder adds => StoredWFST.arcAdder adds (fun _ => none) x
  | .state s op => if s < x.numStates then some (x.modifyState s fun st => op.run add st) else none
  | .pruneArcs thresh => some (x.pruneArcs thresh)
  | .consolidateArcs sum clamp =>
    some (x.mapStates fun _ st => st.reduce LogWeight.zero add sum clamp)
  | .prunePaths maxStates ratio order => some (x.prunePaths maxStates ratio order)
  | .reduce => x.reduce
  | .assignWeights source => some (x.assignWeights source)
  | .ensureFinalSink addr => x.ensureFinalSink addr
  | .invert => some x.invert
  | .project dir identity => some (x.project dir identity)
  | .index dir => some (x.index dir)
  | .indexFlush => some x.indexFlush
  | .normalize group weight => some (x.normalize group weight)

end Step

end Carmel

/-! ## What holds of every state -/

namespace Carmel

universe u

namespace StoredWFST

variable {W : Type u} {x y : StoredWFST W} {P : StoredState W → Prop} {s : ℕ}

/-- Every state has the property. -/
def AllStates (P : StoredState W → Prop) (x : StoredWFST W) : Prop := ∀ st ∈ x.states, P st

theorem allStates_new {inAlph outAlph : Alphabet} (h : P .empty) : (new inAlph outAlph).AllStates P := by
  intro st hst
  obtain rfl := List.mem_singleton.mp hst
  exact h

namespace AllStates

theorem of_getElem? (h : x.AllStates P) {st : StoredState W} (hst : x.states[s]? = some st) : P st :=
  h st (List.mem_of_getElem? hst)

theorem mapStates {Q : StoredState W → Prop} (h : x.AllStates P)
    {f : ℕ → StoredState W → StoredState W}
    (hf : ∀ i st, x.states[i]? = some st → P st → Q (f i st)) : (x.mapStates f).AllStates Q := by
  intro st hst
  obtain ⟨i, hi, rfl⟩ := List.mem_mapIdx.mp hst
  have hget := List.getElem?_eq_getElem hi
  exact hf i _ hget (h.of_getElem? hget)

theorem modifyState (h : x.AllStates P) {f : StoredState W → StoredState W}
    (hf : ∀ st, x.states[s]? = some st → P st → P (f st)) : (x.modifyState s f).AllStates P := by
  intro st hst
  obtain ⟨i, hi⟩ := List.mem_iff_getElem?.mp hst
  rw [StoredWFST.modifyState, List.getElem?_modify] at hi
  obtain ⟨st₀, hget, hst⟩ := Option.map_eq_some_iff.mp hi
  split at hst
  case isTrue hs =>
    subst hs hst
    exact hf st₀ hget (h.of_getElem? hget)
  case isFalse =>
    subst hst
    exact h.of_getElem? hget

theorem addState (h : x.AllStates P) (hempty : P .empty) : x.addState.AllStates P := by
  intro st hst
  rcases List.mem_append.mp hst with hst | hst
  · exact h st hst
  · obtain rfl := List.mem_singleton.mp hst
    exact hempty

theorem addArc (h : x.AllStates P) {node : ArcNode W} (hrun : x.addArc s node = some y)
    (hP : ∀ st, x.states[s]? = some st → node.addr ∉ st.nodes.map ArcNode.addr → P st →
      P (st.addArc node)) : y.AllStates P := by
  rw [StoredWFST.addArc] at hrun
  obtain ⟨⟨-, hfresh⟩, hrun⟩ := Option.ite_none_right_eq_some.mp hrun
  obtain rfl := Option.some.inj hrun
  exact h.modifyState fun st hst => hP st hst (hfresh st (List.mem_of_getElem? hst))

/-- What an `arc_adder` does. Each arc that it adds may need something of the state, `Q`,
that adding arcs does not change. -/
theorem arcAdder {Q : StoredState W → Prop} {adds : List (ℕ × ArcNode W)} {bi : ℕ → Option ℕ}
    (h : x.AllStates P) (hrun : StoredWFST.arcAdder adds bi x = some y)
    (hQ : ∀ e ∈ adds, ∀ st, x.states[e.1]? = some st → Q st)
    (hkeep : ∀ b st node, Q st → Q (st.insertAfter b node))
    (hP : ∀ b st node, Q st → node.addr ∉ st.nodes.map ArcNode.addr → P st →
      P (st.insertAfter b node)) : y.AllStates P := by
  induction adds generalizing bi x with
  | nil =>
    obtain rfl := Option.some.inj hrun
    exact h
  | cons e adds ih =>
    obtain ⟨i, node⟩ := e
    rw [StoredWFST.arcAdder] at hrun
    obtain ⟨⟨-, hfresh⟩, hrun⟩ := Option.ite_none_right_eq_some.mp hrun
    have hhead := hQ _ List.mem_cons_self
    refine ih (h.modifyState fun st hst => hP _ st node (hhead st hst)
      (hfresh st (List.mem_of_getElem? hst))) hrun fun e he st hst => ?_
    rw [StoredWFST.modifyState, List.getElem?_modify] at hst
    obtain ⟨st₀, hget, hst⟩ := Option.map_eq_some_iff.mp hst
    have hQ₀ := hQ e (List.mem_cons_of_mem _ he) st₀ hget
    split at hst
    · exact hst ▸ hkeep _ _ _ hQ₀
    · exact hst ▸ hQ₀

/-- If a state is left out, the others are renumbered, which may need less of them. -/
theorem removeMarkedStates {Q : StoredState W → Prop} {marked : List Bool} (h : x.AllStates Q)
    (hmarked : marked.length = x.numStates)
    (hP : ∀ st oldToNew, Q st → P (st.renumberDestinations oldToNew))
    (hsame : x.numStates = numKept marked → x.AllStates P) :
    (x.removeMarkedStates marked).AllStates P := by
  rw [StoredWFST.removeMarkedStates]
  split
  case isTrue =>
    intro st hst
    obtain ⟨st₀, hst₀, rfl⟩ := List.mem_map.mp hst
    rw [removeMarkedSwap_eq hmarked.symm] at hst₀
    exact hP st₀ _ (h st₀ (mem_of_mem_unmarked hst₀))
  case isFalse hnum => exact hsame (not_not.mp hnum)

theorem clear : x.clear.AllStates P := fun _ hst => absurd hst List.not_mem_nil

theorem reduce (h : x.AllStates P) (hrun : x.reduce = some y)
    (hP : ∀ st oldToNew, P st → P (st.renumberDestinations oldToNew))
    (hP' : ∀ st dest, P st → P (st.removeEpsilonsTo dest)) : y.AllStates P := by
  rw [StoredWFST.reduce] at hrun
  cases hfinal : x.final with
  | none =>
    simp only [hfinal] at hrun
    obtain rfl := Option.some.inj hrun
    exact clear
  | some final =>
    simp only [hfinal] at hrun
    obtain ⟨marked, hmarks, rfl⟩ := Option.map_eq_some_iff.mp hrun
    have hlen : marked.length = x.numStates := by
      rw [WFST.length_reduceMarks hmarks, WFST.numStates, view, List.length_map, numStates]
    exact (h.removeMarkedStates hlen hP fun _ => h).mapStates fun i st _ => hP' st i

theorem ensureFinalSink [One W] {addr : ℕ} (h : x.AllStates P)
    (hrun : x.ensureFinalSink addr = some y) (hempty : P .empty)
    (hP : ∀ final ∈ x.final, ∀ st, x.states[final]? = some st → st.size ≠ 0 → ∀ node : ArcNode W,
      node.addr ∉ st.nodes.map ArcNode.addr → P st → P (st.addArc node)) : y.AllStates P := by
  rw [StoredWFST.ensureFinalSink] at hrun
  cases hfinal : x.final with
  | none =>
    rw [hfinal] at hrun
    cases hrun
  | some final =>
    simp only [hfinal] at hrun
    cases hget : x.states[final]? with
    | none =>
      rw [hget] at hrun
      cases hrun
    | some st =>
      simp only [hget] at hrun
      split at hrun
      case isTrue =>
        obtain rfl := Option.some.inj hrun
        exact h
      case isFalse hsize =>
        have hsink : AllStates P { x.addState with final := some x.numStates } :=
          h.addState hempty
        refine hsink.addArc hrun fun st' hst' hfresh => ?_
        have hold : x.addState.states[final]? = some st := by
          rw [StoredWFST.addState, List.getElem?_append_left, hget]
          exact (List.getElem?_eq_some_iff.mp hget).1
        obtain rfl : st = st' := Option.some.inj (hold.symm.trans hst')
        exact hP final hfinal st hget hsize _ hfresh

theorem index (h : x.AllStates P) (dir : LabelType)
    (hP : ∀ st dir, P st → P (st.flush.indexBy dir)) : (x.index dir).AllStates P := by
  rw [StoredWFST.index]
  split
  case isTrue => exact h
  case isFalse => exact h.mapStates fun _ st _ => hP st dir

theorem project (h : x.AllStates P) (dir : LabelType) (identity : Bool)
    (hP : ∀ st, P st → P (st.project dir identity)) : (x.project dir identity).AllStates P := by
  have hmap : (x.mapStates fun _ st => st.project dir identity).AllStates P :=
    h.mapStates fun _ st _ => hP st
  cases identity with
  | false => exact hmap
  | true => cases dir <;> exact hmap

theorem normalize (h : x.AllStates P) (group : NormGroupBy) (weight : ℕ → ℕ → W)
    (hindex : ∀ st dir, P st → P (st.flush.indexBy dir)) (hflush : ∀ st, P st → P st.flush)
    (hP : ∀ st w, P st → P (st.setWeights w)) : (x.normalize group weight).AllStates P := by
  cases group with
  | NONE => exact h
  | JOINT => exact h.mapStates fun _ st _ => hP st _
  | CONDITIONAL =>
    exact ((h.index .kInput hindex).mapStates fun _ st _ => hP st _).mapStates
      fun _ st _ => hflush st

end AllStates

section Weights

variable {K : Type u} [AddCommGroup K] [LinearOrder K] {x : StoredWFST (LogWeight K)}
variable {P : StoredState (LogWeight K) → Prop}

theorem AllStates.prunePaths {Q : StoredState (LogWeight K) → Prop} (h : x.AllStates P)
    (maxStates : ℕ) (ratio : WithBot (WithTop K)) (order : List ℕ)
    (hQ : ∀ st edit, P st → Q (st.editArcs edit))
    (hP : ∀ st oldToNew, Q st → P (st.renumberDestinations oldToNew))
    (hsame : ∀ final ∈ x.final, x.numStates = numKept (x.view.pruneMarks final maxStates ratio order) →
      ∀ i st, x.states[i]? = some st → P st →
        P (st.editArcs (x.view.pruneArc final maxStates ratio order i))) :
    (x.prunePaths maxStates ratio order).AllStates P := by
  rw [StoredWFST.prunePaths]
  split
  case isTrue => exact h
  case isFalse =>
    cases hfinal : x.final with
    | none => exact h
    | some final =>
      have hnum : ∀ f, (x.mapStates f).numStates = x.numStates := fun f => List.length_mapIdx
      have hQ' := AllStates.mapStates (P := P) (Q := Q) h
        (f := fun i st => st.editArcs (x.view.pruneArc final maxStates ratio order i))
        fun _ st _ hst => hQ st _ hst
      refine hQ'.removeMarkedStates ?_ hP fun hkept => ?_
      · rw [WFST.length_pruneMarks, hnum, WFST.numStates, view, List.length_map, numStates]
      · rw [hnum] at hkept
        exact h.mapStates fun i st hst => hsame final hfinal hkept i st hst

end Weights

end StoredWFST

end Carmel
