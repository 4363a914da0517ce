/-
# The derivation lattice of a training pair

`derivations::compute` explores the states (position in the input, state of the transducer,
position in the output) depth first. A state from which nothing was found is marked in
`remove`, no arc into a marked state is added, and `prune` deletes the marked states. The
recursion is bounded by a number of nested calls; what `compute` passes is always enough.
-/

import Carmel.Fst.Wfst

namespace Carmel

universe u

/-- The arcs of a transducer in the order of `visit_arcs`; the position of an
arc in this list is its id. -/
def WFST.arcsTable {W : Type u} (x : WFST W) : List (HalfArc W) :=
  (List.range x.numStates).flatMap x.outArcs

/-- Where `atab[id].arc` leads. -/
def WFST.arcDest {W : Type u} (x : WFST W) (id : ℕ) : ℕ :=
  (x.arcsTable[id]?.map (·.arc.dest)).getD 0

/-- `wfst_io_index`: for each state and each pair of labels, the ids of the arcs. -/
structure IoIndex where
  st : ℕ → ℕ × ℕ → List ℕ
  i : ℕ

/-- `st[src][IOPair(a.in, a.out)].push_back(i++)`. -/
def IoIndex.visit {W : Type u} (io : IoIndex) (h : HalfArc W) : IoIndex where
  st s key :=
    if s = h.source ∧ key = (h.arc.inp, h.arc.out) then io.st s key ++ [io.i] else io.st s key
  i := io.i + 1

def WFST.ioIndex {W : Type u} (x : WFST W) : IoIndex :=
  x.arcsTable.foldl IoIndex.visit ⟨fun _ _ => [], 0⟩

/-- `deriv_state`: how much of the input is read, the state, how much of the
output is read. -/
structure DerivState where
  i : ℕ
  s : ℕ
  o : ℕ
deriving DecidableEq, Repr

/-- An arc of the lattice, with the id of the transducer arc as its data. -/
structure GraphArc where
  src : ℕ
  dest : ℕ
  id : ℕ
deriving DecidableEq, Repr

/-- The fields of `derivations` that change while `derive` runs. -/
structure Exploration where
  g : List (List GraphArc)
  idOfState : DerivState → Option ℕ
  remove : List Bool

namespace Exploration

def empty : Exploration := ⟨[], fun _ => none, []⟩

/-- A new state, with the next free number and not marked. -/
def discover (L : Exploration) (d : DerivState) : Exploration where
  g := L.g ++ [[]]
  idOfState := Function.update L.idOfState d (some L.g.length)
  remove := L.remove ++ [false]

/-- `g[source].add_data_as(source, dst, .., id)`. -/
def addDataAs (L : Exploration) (source dst id : ℕ) : Exploration :=
  { L with g := L.g.modify source fun arcs => ⟨source, dst, id⟩ :: arcs }

/-- `remove[src] = dead`. -/
def mark (L : Exploration) (src : ℕ) (dead : Bool) : Exploration :=
  { L with remove := L.remove.set src dead }

end Exploration

/-- One use of `add_arcs`: the labels to look up, and the positions behind them. -/
structure Lookup where
  sIn : ℕ
  sOut : ℕ
  iIn : ℕ
  iOut : ℕ
deriving DecidableEq, Repr

section Derive

variable {W : Type u} (x : WFST W) (inp out : List ℕ)

/-- `d == goal`. -/
def isGoal (d : DerivState) : Bool :=
  x.final = some d.s ∧ d.i = inp.length ∧ d.o = out.length

/-- The four uses of `add_arcs` in `derive`, less those that `useI` and `useO` exclude. -/
def lookups (d : DerivState) : List Lookup :=
  ⟨epsilonIndex, epsilonIndex, d.i, d.o⟩ ::
    (out[d.o]?.toList.map fun so => ⟨epsilonIndex, so, d.i, d.o + 1⟩) ++
    inp[d.i]?.toList.flatMap fun si =>
      ⟨si, epsilonIndex, d.i + 1, d.o⟩ :: out[d.o]?.toList.map fun so => ⟨si, so, d.i + 1, d.o + 1⟩

/-- The loop of `add_arcs` over the ids found, given `derive` for the states they lead to. -/
def addArcs (derive : DerivState → Exploration → Option (ℕ × Exploration)) (q : Lookup)
    (source : ℕ) : List ℕ → Bool → Exploration → Option (Bool × Exploration)
  | [], reachgoal, L => some (reachgoal, L)
  | id :: ids, reachgoal, L => do
    let (dst, L) ← derive ⟨q.iIn, x.arcDest id, q.iOut⟩ L
    if L.remove.getD dst false then
      addArcs derive q source ids reachgoal L
    else
      addArcs derive q source ids true (L.addDataAs source dst id)

/-- `if (add_arcs(..)) dead = false` for one use of it in `derive`. -/
def addLookup (derive : DerivState → Exploration → Option (ℕ × Exploration)) (d : DerivState)
    (src : ℕ) : Bool × Exploration → Lookup → Option (Bool × Exploration)
  | (dead, L), q => do
    let ids := x.ioIndex.st d.s (q.sIn, q.sOut)
    let (reachgoal, L) ← addArcs x derive q src ids false L
    return (if reachgoal then false else dead, L)

/-- Explore a state, at most `fuel` calls deep, and return its number. -/
def derive : ℕ → DerivState → Exploration → Option (ℕ × Exploration)
  | 0, _, _ => none
  | fuel + 1, d, L =>
    match L.idOfState d with
    | some id => some (id, L)
    | none => do
      let src := L.g.length
      let (dead, L) ← (lookups inp out d).foldlM (addLookup x (derive fuel) d src)
        (!isGoal x inp out d, L.discover d)
      return (src, L.mark src dead)

end Derive

/-- `new_indices_keep`: the new number of each state, `none` for the deleted ones. -/
def indicesAfterRemoving : List Bool → ℕ → List (Option ℕ)
  | [], _ => []
  | true :: remove, f => none :: indicesAfterRemoving remove f
  | false :: remove, f => some f :: indicesAfterRemoving remove (f + 1)

/-- `rewrite_GraphState`: arcs into deleted states are erased, the others get
the new numbers of their ends. -/
def rewriteGraphState (ttable : List (Option ℕ)) (arcs : List GraphArc) : List GraphArc :=
  arcs.filterMap fun a =>
    (ttable.getD a.dest none).map fun dest => ⟨(ttable.getD a.src none).getD 0, dest, a.id⟩

/-- `swap(v[j], v[i])`. -/
def swapAt (v : List (List GraphArc)) (j i : ℕ) : List (List GraphArc) :=
  (v.set j (v.getD i [])).set i (v.getD j [])

/-- The first loop of `shuffle_removing`: rewrite up to the first deleted state. -/
def rewritePrefix (ttable : List (Option ℕ)) : ℕ → ℕ → List (List GraphArc) →
    ℕ × List (List GraphArc)
  | 0, i, v => (i, v)
  | n + 1, i, v =>
    match ttable.getD i none with
    | none => (i, v)
    | some _ => rewritePrefix ttable n (i + 1) (v.modify i (rewriteGraphState ttable))

/-- The second loop of `shuffle_removing`: clear the deleted states, move the
others down to `j`. -/
def shuffleFrom (ttable : List (Option ℕ)) : ℕ → ℕ → ℕ → List (List GraphArc) →
    ℕ × List (List GraphArc)
  | 0, _, j, v => (j, v)
  | n + 1, i, j, v =>
    match ttable.getD i none with
    | none => shuffleFrom ttable n (i + 1) j (v.set i [])
    | some _ =>
      shuffleFrom ttable n (i + 1) (j + 1) (swapAt (v.modify i (rewriteGraphState ttable)) j i)

/-- `shuffle_removing` and the `resize` after it. -/
def shuffleRemoving (ttable : List (Option ℕ)) (v : List (List GraphArc)) : List (List GraphArc) :=
  let (i, v) := rewritePrefix ttable ttable.length 0 v
  let (newSize, v) := shuffleFrom ttable (ttable.length - i) i i v
  v.take newSize

/-- What `compute` leaves: the states of the lattice with their arcs, the final
state, and whether the goal was missed. -/
structure Derivations where
  g : List (List GraphArc)
  fin : ℕ
  noGoal : Bool
deriving DecidableEq, Repr

namespace Derivations

def empty : Derivations := ⟨[], 0, true⟩

/-- `prune` on the marks that `derive` left. -/
def prune (g : List (List GraphArc)) (remove : List Bool) (fin : ℕ) : Derivations :=
  let ttable := indicesAfterRemoving remove 0
  ⟨shuffleRemoving ttable g, (ttable.getD fin none).getD 0, false⟩

end Derivations

section Compute

variable {W : Type u} (x : WFST W) (inp out : List ℕ)

/-- More calls than there are states to discover. -/
def deriveFuel : ℕ := (inp.length + 1) * (x.arcsTable.length + 1) * (out.length + 1) + 1

/-- `compute`, which returns the negation of `noGoal`. -/
def compute (prune : Bool) : Option Derivations := do
  let (_, L) ← derive x inp out (deriveFuel x inp out) ⟨0, 0, 0⟩ .empty
  match x.final.bind fun final => L.idOfState ⟨inp.length, final, out.length⟩ with
  | none => return .empty
  | some fin => return if prune then .prune L.g L.remove fin else ⟨L.g, fin, false⟩

end Compute

end Carmel
