/-
# One estimation step of training

`forward_backward::estimate` goes through the corpus once and adds up the counts of the arcs
and the product of the example probabilities, either from the lattices of `cached_derivs` or
from two tables over all triples of positions and state. Where a bound on the recursion was
too small the result would be `none`.
-/

import Carmel.Train.CachedDerivs
import Carmel.Train.CollectCounts

namespace Carmel

universe u v

/-- `DWPair`: where an arc leads, seen from the state it is listed at, and its id. -/
structure DWPair where
  dest : ℕ
  id : ℕ
deriving DecidableEq, Repr

/-- `matrix_io_index`: the arcs out of and into each state, for each pair of labels. -/
structure MatrixIoIndex where
  forward : ℕ → ℕ × ℕ → List DWPair
  backward : ℕ → ℕ × ℕ → List DWPair
  i : ℕ

/-- One round of the loop of `populate`. -/
def MatrixIoIndex.visit {W : Type u} (mio : MatrixIoIndex) (h : HalfArc W) : MatrixIoIndex where
  forward s io :=
    if s = h.source ∧ io = (h.arc.inp, h.arc.out) then
      mio.forward s io ++ [⟨h.arc.dest, mio.i⟩]
    else
      mio.forward s io
  backward d io :=
    if d = h.arc.dest ∧ io = (h.arc.inp, h.arc.out) then
      mio.backward d io ++ [⟨h.source, mio.i⟩]
    else
      mio.backward d io
  i := mio.i + 1

namespace WFST

variable {W : Type u} (x : WFST W)

def matrixIoIndex : MatrixIoIndex :=
  x.arcsTable.foldl MatrixIoIndex.visit ⟨fun _ _ => [], fun _ _ => [], 0⟩

/-- `makeEGraph`: the graph of the `*e*`/`*e*` arcs. The data of an arc is its position. -/
def makeEGraph : List (List GraphArc) :=
  (List.range x.numStates).map fun i => (x.outArcs i).foldl (fun arcs h =>
    if h.arc.inp = epsilonIndex ∧ h.arc.out = epsilonIndex then ⟨i, h.arc.dest, h.pos⟩ :: arcs
    else arcs) []

/-- `e_forward_topo`. -/
def eForwardTopo : Option (List ℕ) :=
  topoSort (fun s => (x.makeEGraph.getD s []).map (·.dest)) x.numStates

/-- `e_backward_topo`. -/
def eBackwardTopo : Option (List ℕ) :=
  topoSort (fun s => ((reverseGraph x.makeEGraph).getD s []).map (·.dest)) x.numStates

end WFST

section Matrix

variable {R : Type u} [CommSemiring R] [DecidableEq R]

/-- `matrix_forward_prop` from the entry at `d` along the arcs found for a pair of labels. -/
def matrixForwardProp (wt : ℕ → R) (fio : List DWPair) (d : DerivState) (dI dO : ℕ)
    (m : DerivState → R) : DerivState → R :=
  fio.foldl (fun m dw =>
    let dest : DerivState := ⟨d.i + dI, dw.dest, d.o + dO⟩
    Function.update m dest (m dest + m d * wt dw.id)) m

/-- The uses of `matrix_forward_prop` with a symbol, from one entry. -/
def matrixSymbols (wt : ℕ → R) (inLet outLet : List ℕ) (io : ℕ → ℕ × ℕ → List DWPair)
    (d : DerivState) (w : DerivState → R) : DerivState → R :=
  let w :=
    match outLet[d.o]? with
    | none => w
    | some so =>
      let w := matrixForwardProp wt (io d.s (epsilonIndex, so)) d 0 1 w
      match inLet[d.i]? with
      | none => w
      | some si => matrixForwardProp wt (io d.s (si, so)) d 1 1 w
  match inLet[d.i]? with
  | none => w
  | some si => matrixForwardProp wt (io d.s (si, epsilonIndex)) d 1 0 w

/-- `matrix_compute`: the rows and columns in order, in each of them first the
states with `*e*`/`*e*` arcs in topological order, then all states. -/
def matrixCompute (wt : ℕ → R) (nSt : ℕ) (inLet outLet : List ℕ) (start : ℕ)
    (io : ℕ → ℕ × ℕ → List DWPair) (eTopo : List ℕ) : DerivState → R :=
  (List.range (inLet.length + 1)).foldl (fun w i =>
    (List.range (outLet.length + 1)).foldl (fun w o =>
      let w := eTopo.foldl (fun w s =>
        matrixForwardProp wt (io s (epsilonIndex, epsilonIndex)) ⟨i, s, o⟩ 0 0 w) w
      (List.range nSt).foldl (fun w s =>
        if w ⟨i, s, o⟩ = 0 then w else matrixSymbols wt inLet outLet io ⟨i, s, o⟩ w) w) w)
    (Function.update 0 ⟨0, start, 0⟩ 1)

/-- Swap the first rows with the last ones, up to the middle. -/
def reverseRows {α : Type v} (maxI : ℕ) (w : ℕ → α) : ℕ → α :=
  (List.range (maxI / 2 + 1)).foldl (fun w i =>
    Function.update (Function.update w i (w (maxI - i))) (maxI - i) (w i)) w

/-- `matrix_reverse_io`. -/
def matrixReverseIo (maxI maxO : ℕ) (w : DerivState → R) : DerivState → R :=
  let rows := reverseRows maxI fun i o s => w ⟨i, s, o⟩
  let rows := (List.range (maxI + 1)).foldl (fun rows i =>
    Function.update rows i (reverseRows maxO (rows i))) rows
  fun d => rows d.i d.o d.s

end Matrix

/-- What `estimate` adds up: the table of the arcs, and the two corpus probabilities. -/
structure Estimate (F : Type u) [Zero F] [LE F] where
  t : List (ArcCounts F)
  weighted : Weight F
  unweighted : Weight F

section Model

variable {F : Type u} [Field F] [LinearOrder F] [IsStrictOrderedRing F]

/-- `pow`: zero stays zero, other weights are raised by `raise`. -/
def Weight.pow (raise : Weight F → F → Weight F) (p : Weight F) (nth : F) : Weight F :=
  if p = 0 then p else raise p nth

/-- `clear_count` and `clear_scratch`. -/
def ArcCounts.clearCount (ac : ArcCounts F) : ArcCounts F := { ac with counts := 0 }

def ArcCounts.clearScratch (ac : ArcCounts F) : ArcCounts F := { ac with scratch := 0 }

/-- `add_weighted_scratch`. -/
def ArcCounts.addWeightedScratch (w : Weight F) (ac : ArcCounts F) : ArcCounts F :=
  if ac.scratch = 0 then ac else ac.addCounts (w * ac.scratch)

variable (x : WFST (Weight F))

/-- `matrix_fb`: the forward table and the backward table of an example. -/
def matrixFb (wt : ℕ → Weight F) (final : ℕ) (ex : IOSymSeq F) :
    Option ((DerivState → Weight F) × (DerivState → Weight F)) :=
  x.eForwardTopo.bind fun eForwardTopo => x.eBackwardTopo.map fun eBackwardTopo =>
    (matrixCompute wt x.numStates ex.i ex.o 0 x.matrixIoIndex.forward eForwardTopo,
      matrixReverseIo ex.i.length ex.o.length
        (matrixCompute wt x.numStates ex.i.reverse ex.o.reverse final x.matrixIoIndex.backward
          eBackwardTopo))

/-- `matrix_count`. -/
def matrixCount (f b : DerivState → Weight F) (fio : List DWPair) (d : DerivState) (dI dO : ℕ)
    (t : List (ArcCounts F)) : List (ArcCounts F) :=
  fio.foldl (fun t dw => t.modify dw.id fun ac =>
    ac.addScratch (f d * ac.weight * b ⟨d.i + dI, dw.dest, d.o + dO⟩)) t

/-- The uses of `matrix_count` for one entry of the tables. -/
def matrixCountEntry (f b : DerivState → Weight F) (letIn letOut : List ℕ) (d : DerivState)
    (t : List (ArcCounts F)) : List (ArcCounts F) :=
  let fs := x.matrixIoIndex.forward d.s
  let t :=
    match letIn[d.i]? with
    | none => t
    | some si =>
      let t :=
        match letOut[d.o]? with
        | none => t
        | some so => matrixCount f b (fs (si, so)) d 1 1 t
      matrixCount f b (fs (si, epsilonIndex)) d 1 0 t
  let t :=
    match letOut[d.o]? with
    | none => t
    | some so => matrixCount f b (fs (epsilonIndex, so)) d 0 1 t
  matrixCount f b (fs (epsilonIndex, epsilonIndex)) d 0 0 t

/-- The loops of `estimate_matrix` over one example. -/
def matrixCountExample (f b : DerivState → Weight F) (ex : IOSymSeq F) (t : List (ArcCounts F)) :
    List (ArcCounts F) :=
  (List.range (ex.i.length + 1)).foldl (fun t i =>
    (List.range (ex.o.length + 1)).foldl (fun t o =>
      (List.range x.numStates).foldl (fun t s =>
        matrixCountEntry x f b ex.i ex.o ⟨i, s, o⟩ t) t) t) t

variable (raise : Weight F → F → Weight F)

/-- `estimate_matrix`: the examples that are kept, and what was added up. Both
products take in the probability of an example before it may be erased. -/
def estimateMatrix (final : ℕ) : List (IOSymSeq F) → Estimate F →
    Option (List (IOSymSeq F) × Estimate F)
  | [], e => some ([], e)
  | ex :: rest, e =>
    (matrixFb x (weightOf e.t) final ex).bind fun (f, b) =>
      let fin := f ⟨ex.i.length, final, ex.o.length⟩
      let e := { e with
        weighted := e.weighted * Weight.pow raise fin ex.weight
        unweighted := e.unweighted * fin }
      if fin = 0 then
        estimateMatrix final rest e
      else
        let t := matrixCountExample x f b ex (e.t.map .clearScratch)
        let t := t.map (.addWeightedScratch (Weight.setReal ex.weight / fin))
        (estimateMatrix final rest { e with t := t }).map fun (kept, e) => (ex :: kept, e)

/-- `forward_backward::operator()`, called for every lattice. -/
def estimateDerivs (_n : ℕ) (d : WeightedDerivations F) (e : Option (Estimate F)) :
    Option (Estimate F) :=
  e.bind fun e => (collectCounts d.lattice d.weight e.t).map fun (prob, t) =>
    { t := t
      weighted := e.weighted * Weight.pow raise prob d.weight
      unweighted := e.unweighted * prob }

/-- The parts of `forward_backward` that `estimate` uses. -/
structure ForwardBackward (F : Type u) [Zero F] [LE F] where
  cd : CachedDerivs F
  t : List (ArcCounts F)
  useMatrix : Bool

/-- The constructor. A cache rules the matrix out. -/
def ForwardBackward.make (prune cache useMatrix : Bool) (corpus : TrainingCorpus F) :
    ForwardBackward F where
  cd := .make x prune cache corpus
  t := x.arcCounts
  useMatrix := useMatrix && !cache

/-- What `throw_if_no_derivation` says. -/
def noDerivation : String := "No training example had a derivation - aborting training."

/-- `estimate`: what was added up, or the error where no example is left. -/
def ForwardBackward.estimate (prune : Bool) (fb : ForwardBackward F) :
    Option (Except String (Estimate F) × ForwardBackward F) :=
  let e : Estimate F := ⟨fb.t.map .clearCount, 1, 1⟩
  let run : Option (Estimate F × CachedDerivs F) :=
    if fb.useMatrix then
      x.final.bind fun final => (estimateMatrix x raise final fb.cd.corpus.examples e).map
        fun (kept, e) => (e, { fb.cd with corpus := { fb.cd.corpus with examples := kept } })
    else
      let (cd, e) := fb.cd.foreachDeriv x prune (estimateDerivs raise) (some e)
      e.map fun e => (e, cd)
  run.map fun (e, cd) =>
    (if cd.corpus.examples.isEmpty then .error noDerivation else .ok e,
      { fb with cd := cd, t := e.t })

end Model

end Carmel
