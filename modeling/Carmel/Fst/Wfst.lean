/-
# Weighted finite-state transducers

Arcs have two symbol indices, a target, a weight and a tie group; a state holds its arcs in
a list, newest first; two alphabets name the symbols; and an invalidated transducer lacks a
final state. A path lists its arcs, each with its address (source state and position in the
state's list), so that two equal parallel arcs make two paths.
-/

import Carmel.Math.Walk

namespace Carmel

universe u

/-- Index of `*e*` in every alphabet. -/
def epsilonIndex : ℕ := 0

/-- One arc, as `FSTArc`. The field `in` of the source is `inp` here. -/
structure FSTArc (W : Type u) where
  inp : ℕ
  out : ℕ
  dest : ℕ
  weight : W
  groupId : ℕ
deriving DecidableEq, Repr

namespace FSTArc

variable {W : Type u}

/-- `(unsigned)-1`: the arc belongs to no tie group. -/
def noGroup : ℕ := 4294967295

/-- The group whose arcs keep their weights in training. -/
def lockedGroup : ℕ := 0

def isLocked (arc : FSTArc W) : Bool := arc.groupId = lockedGroup

def isNormal (arc : FSTArc W) : Bool := arc.groupId = noGroup

/-- `isTied`. -/
def isTied (arc : FSTArc W) : Bool := arc.groupId ≠ noGroup ∧ arc.groupId ≠ lockedGroup

theorem not_isLocked_of_isTied {arc : FSTArc W} (h : arc.isTied = true) : arc.isLocked = false := by
  simp only [isTied, decide_eq_true_eq] at h
  simpa [isLocked] using h.2

theorem not_isLocked_of_isNormal {arc : FSTArc W} (h : arc.isNormal = true) :
    arc.isLocked = false := by
  simp only [isNormal, decide_eq_true_eq] at h
  simp [isLocked, h, noGroup, lockedGroup]

end FSTArc

/-- `norm_group_by`. -/
inductive NormGroupBy
  | CONDITIONAL
  | JOINT
  | NONE
deriving DecidableEq, Repr

/-- A symbol table: the names in index order, each once, `*e*` first. -/
structure Alphabet where
  names : List String
  nodup : names.Nodup
  epsilon : names[0]? = some "*e*"

namespace Alphabet

theorem nodup_epsilon : ["*e*"].Nodup := by decide

theorem epsilon_first : ["*e*"][0]? = some "*e*" := rfl

theorem nodup_letter : ["*e*", "*w*", "a"].Nodup := by decide

theorem letter_first : ["*e*", "*w*", "a"][0]? = some "*e*" := rfl

def size (alph : Alphabet) : ℕ := alph.names.length

/-- The name at an index, if the index is in use. -/
def name? (alph : Alphabet) (i : ℕ) : Option String := alph.names[i]?

/-- The index of a name, if the table has it. -/
def find (alph : Alphabet) (name : String) : Option ℕ := alph.names.idxOf? name

/-- Where `o` keeps the symbol that has index `i` here; `none` is the `~0` of
the source, a symbol `o` does not have. -/
def computeMap (alph o : Alphabet) (i : ℕ) : Option ℕ := (alph.name? i).bind o.find

theorem find_eq_some_iff (alph : Alphabet) (name : String) (i : ℕ) :
    alph.find name = some i ↔ alph.name? i = some name := by
  rw [find, name?, List.idxOf?_eq_some_iff]
  constructor
  · rintro ⟨hi, hname, -⟩
    rw [List.getElem?_eq_getElem hi, hname]
  · intro h
    obtain ⟨hi, hname⟩ := List.getElem?_eq_some_iff.mp h
    refine ⟨hi, hname, fun j hj hjname => ?_⟩
    have := (alph.nodup.getElem_inj_iff).mp (hjname.trans hname.symm)
    omega

theorem computeMap_eq_some_iff (alph o : Alphabet) (i j : ℕ) :
    alph.computeMap o i = some j ↔ ∃ name, alph.name? i = some name ∧ o.name? j = some name := by
  simp only [computeMap, Option.bind_eq_some_iff, find_eq_some_iff]

theorem computeMap_comm (alph o : Alphabet) (i j : ℕ) :
    alph.computeMap o i = some j ↔ o.computeMap alph j = some i := by
  rw [computeMap_eq_some_iff, computeMap_eq_some_iff]
  exact exists_congr fun _ => and_comm

theorem computeMap_epsilon (alph o : Alphabet) : alph.computeMap o epsilonIndex = some epsilonIndex :=
  (computeMap_eq_some_iff ..).mpr ⟨"*e*", alph.epsilon, o.epsilon⟩

theorem computeMap_injective (alph o : Alphabet) {i j k : ℕ} (hi : alph.computeMap o i = some k)
    (hj : alph.computeMap o j = some k) : i = j := by
  rw [computeMap_comm] at hi hj
  exact Option.some.inj (hi.symm.trans hj)

theorem computeMap_eq_epsilon_iff (alph o : Alphabet) {i j : ℕ} (h : alph.computeMap o i = some j) :
    i = epsilonIndex ↔ j = epsilonIndex := by
  constructor
  · rintro rfl
    exact Option.some.inj (h.symm.trans (computeMap_epsilon alph o))
  · rintro rfl
    exact computeMap_injective alph o h (computeMap_epsilon alph o)

end Alphabet

/-- The arcs of one state, newest first, and their number as the source counts it. -/
structure State (W : Type u) where
  arcs : List (FSTArc W)
  size : ℕ
deriving DecidableEq, Repr

namespace State

variable {W : Type u}

def empty : State W := ⟨[], 0⟩

/-- Push an arc to the front of the list. -/
def addArc (state : State W) (arc : FSTArc W) : State W :=
  { arcs := arc :: state.arcs, size := state.size + 1 }

@[simp] theorem empty_arcs : (empty : State W).arcs = [] := rfl

@[simp] theorem addArc_arcs (state : State W) (arc : FSTArc W) :
    (state.addArc arc).arcs = arc :: state.arcs := rfl

end State

/-- A pointer to an arc: where the arc is, and what is stored there. -/
structure HalfArc (W : Type u) where
  source : ℕ
  pos : ℕ
  arc : FSTArc W
deriving DecidableEq, Repr

/-- A transducer. An invalidated one has no final state. -/
structure WFST (W : Type u) where
  states : List (State W)
  final : Option ℕ
  inAlph : Alphabet
  outAlph : Alphabet

namespace WFST

open Carmel.Math

variable {W : Type u}

def numStates (x : WFST W) : ℕ := x.states.length

/-- A state by number; a number out of range has no arcs. -/
def state (x : WFST W) (s : ℕ) : State W := x.states.getD s State.empty

/-- The arcs leaving a state, in list order, each with its address. -/
def outArcs (x : WFST W) (s : ℕ) : List (HalfArc W) :=
  (x.state s).arcs.mapIdx fun pos arc => ⟨s, pos, arc⟩

/-- What readers and operations of the program keep true of a transducer with a
final state: state 0 exists, arcs stay inside the state list and use symbols
of the alphabets. -/
structure Valid (x : WFST W) : Prop where
  start_lt : 0 < x.numStates
  final_lt : ∃ f, x.final = some f ∧ f < x.numStates
  dest_lt : ∀ state ∈ x.states, ∀ arc ∈ state.arcs, arc.dest < x.numStates
  inp_lt : ∀ state ∈ x.states, ∀ arc ∈ state.arcs, arc.inp < x.inAlph.size
  out_lt : ∀ state ∈ x.states, ∀ arc ∈ state.arcs, arc.out < x.outAlph.size

/-- `h` leaves `s` and enters `t`. -/
def Adj (x : WFST W) (s : ℕ) (h : HalfArc W) (t : ℕ) : Prop := h ∈ x.outArcs s ∧ h.arc.dest = t

/-- A path from state 0 to the final state. -/
def IsPath (x : WFST W) (path : List (HalfArc W)) : Prop :=
  Accepted x.Adj (fun s => x.final = some s) 0 path

end WFST

/-- The non-epsilon symbols among those given. -/
def nonEpsilon (symbols : List ℕ) : List ℕ := symbols.filter (· ≠ epsilonIndex)

/-- The non-epsilon input symbols along a path. -/
def pathInput {W : Type u} (path : List (HalfArc W)) : List ℕ := nonEpsilon (path.map (·.arc.inp))

/-- The non-epsilon output symbols along a path. -/
def pathOutput {W : Type u} (path : List (HalfArc W)) : List ℕ := nonEpsilon (path.map (·.arc.out))

/-- The product of the weights along a path. -/
def pathWeight {W : Type u} [CommMonoid W] (path : List (HalfArc W)) : W :=
  (path.map (·.arc.weight)).prod

section Symbols

@[simp] theorem nonEpsilon_nil : nonEpsilon [] = [] := rfl

@[simp] theorem nonEpsilon_cons_epsilon (symbols : List ℕ) :
    nonEpsilon (epsilonIndex :: symbols) = nonEpsilon symbols := by
  simp [nonEpsilon]

theorem nonEpsilon_cons_of_ne {i : ℕ} (h : i ≠ epsilonIndex) (symbols : List ℕ) :
    nonEpsilon (i :: symbols) = i :: nonEpsilon symbols := by
  simp [nonEpsilon, h]

theorem nonEpsilon_append (first second : List ℕ) :
    nonEpsilon (first ++ second) = nonEpsilon first ++ nonEpsilon second :=
  List.filter_append ..

/-- What a symbol contributes does not depend on what follows it. -/
theorem nonEpsilon_cons (i : ℕ) (symbols : List ℕ) :
    nonEpsilon (i :: symbols) = nonEpsilon [i] ++ nonEpsilon symbols :=
  nonEpsilon_append [i] symbols

end Symbols

namespace WFST

variable {W : Type u}

theorem mem_outArcs {x : WFST W} {s : ℕ} {h : HalfArc W} :
    h ∈ x.outArcs s ↔ h.source = s ∧ (x.state s).arcs[h.pos]? = some h.arc := by
  rw [outArcs, List.mem_mapIdx]
  constructor
  · rintro ⟨i, hi, rfl⟩
    exact ⟨rfl, List.getElem?_eq_getElem hi⟩
  · rintro ⟨rfl, harc⟩
    obtain ⟨hi, harc⟩ := List.getElem?_eq_some_iff.mp harc
    exact ⟨h.pos, hi, by rw [harc]⟩

theorem map_arc_outArcs (x : WFST W) (s : ℕ) : (x.outArcs s).map (·.arc) = (x.state s).arcs := by
  apply List.ext_getElem
  · simp [outArcs]
  · intro i _ _
    simp [outArcs]

theorem outArcs_nodup (x : WFST W) (s : ℕ) : (x.outArcs s).Nodup := by
  rw [List.nodup_iff_injective_getElem]
  intro i j hij
  have hpos := congrArg HalfArc.pos hij
  exact Fin.ext (by simpa [outArcs] using hpos)

theorem outArcs_eq_of_pos {x : WFST W} {s : ℕ} {h h' : HalfArc W} (hh : h ∈ x.outArcs s)
    (hh' : h' ∈ x.outArcs s) (hpos : h.pos = h'.pos) : h = h' := by
  obtain ⟨hs, harc⟩ := mem_outArcs.mp hh
  obtain ⟨hs', harc'⟩ := mem_outArcs.mp hh'
  rw [hpos] at harc
  obtain ⟨source, pos, arc⟩ := h
  obtain ⟨source', pos', arc'⟩ := h'
  obtain rfl : source = source' := hs.trans hs'.symm
  obtain rfl : pos = pos' := hpos
  obtain rfl : arc = arc' := Option.some.inj (harc.symm.trans harc')
  rfl

theorem mem_state_arcs_of_mem_outArcs {x : WFST W} {s : ℕ} {h : HalfArc W} (hmem : h ∈ x.outArcs s) :
    ∃ state ∈ x.states, h.arc ∈ state.arcs := by
  obtain ⟨-, harc⟩ := mem_outArcs.mp hmem
  have hin : h.arc ∈ (x.state s).arcs := List.mem_of_getElem? harc
  rw [state, List.getD_eq_getElem?_getD] at hin
  cases hs : x.states[s]? with
  | none => simp [hs] at hin
  | some st => exact ⟨st, List.mem_of_getElem? hs, by simpa [hs] using hin⟩

theorem Valid.dest_lt' {x : WFST W} (hx : x.Valid) {s : ℕ} {h : HalfArc W}
    (hmem : h ∈ x.outArcs s) : h.arc.dest < x.numStates := by
  obtain ⟨state, hstate, harc⟩ := mem_state_arcs_of_mem_outArcs hmem
  exact hx.dest_lt state hstate h.arc harc

theorem Valid.final_lt' {x : WFST W} (hx : x.Valid) {f : ℕ} (hf : x.final = some f) :
    f < x.numStates := by
  obtain ⟨f', hf', hlt⟩ := hx.final_lt
  rwa [Option.some.inj (hf.symm.trans hf')]

theorem isPath_iff_walk {x : WFST W} {f : ℕ} (hf : x.final = some f) {p : List (HalfArc W)} :
    x.IsPath p ↔ Carmel.Math.Walk x.Adj 0 p f := by
  rw [IsPath, hf]
  constructor
  · rintro ⟨f', hwalk, hf'⟩
    rwa [Option.some.inj hf']
  · intro hwalk
    exact ⟨f, hwalk, rfl⟩

theorem lt_of_adj {x : WFST W} {s t : ℕ} {h : HalfArc W} (hstep : x.Adj s h t) : s < x.numStates := by
  by_contra hs
  have harc := (mem_outArcs.mp hstep.1).2
  rw [state, List.getD_eq_getElem?_getD, List.getElem?_eq_none (Nat.le_of_not_lt hs)] at harc
  simp [State.empty] at harc

theorem Adj.det {x : WFST W} {s t t' : ℕ} {h : HalfArc W} (first : x.Adj s h t)
    (second : x.Adj s h t') : t = t' :=
  first.2.symm.trans second.2

end WFST

end Carmel
