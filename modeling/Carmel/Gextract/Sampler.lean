/-
# What the Gibbs sampler proposes

The sampler moves the spans of nodes. `expand` gives one node another span, or none,
proposed in the order in which they are considered; the words of each node are kept beside
the tree. Where the source would fail a function has no result.
-/

import Carmel.Gextract.Addresses

namespace Carmel.Gextract

/-- A `Translation` while it is sampled: the tree, and the attributes of its nodes. -/
structure Example where
  etree : Node String
  f : List String
  span : Addr → Option Span
  closureSpan : Addr → Option Span
  count : Addr → Option ℕ
  f2enode : List (Option Addr)

section Code

namespace Example

def childAddrs (x : Example) (p : Addr) : List Addr :=
  match x.etree.subtree p with
  | none => []
  | some t => (List.range t.children.toList.length).map (· :: p)

/-- The smallest span that covers the children. -/
def childCover (x : Example) (p : Addr) : Option Span :=
  (x.childAddrs p).foldl (fun s y => spanCover s ((x.span y).or (x.closureSpan y))) none

end Example

def spanPoints : Option Span → List ℕ
  | none => []
  | some (a, b) => List.range' a (b - a)

namespace Example

/-- `f2enode` at one node: its words that no node below has. -/
def alignFree (x : Example) (fe : List (Option Addr)) (t : Addr) : Option (List (Option Addr)) :=
  (spanPoints (x.span t)).foldlM (fun fe p => (fe[p]?).map fun owner =>
    if owner = none then fe.set p (some t) else fe) fe

def setF2enode (x : Example) : Option Example :=
  (x.etree.postAddrs.foldlM x.alignFree (List.replicate x.f.length none)).map fun fe =>
    { x with f2enode := fe }

/-- Whether a word is that of `node` or of `parnode`. -/
def isFree (x : Example) (node parnode : Addr) (i : ℕ) : Option Bool :=
  (x.f2enode[i]?).map fun owner => owner = some parnode ∨ owner = some node

/-- The ends `j`, `j + 1`, … of proposed spans, until a word is not free. -/
def spanEnds (free : ℕ → Option Bool) : ℕ → ℕ → Option (List ℕ)
  | 0, _ => some []
  | rounds + 1, j => (free j).bind fun b =>
    if b then (spanEnds free rounds (j + 1)).map (j :: ·) else some [j]

/-- The spans that are proposed for `node`, in the order in which they are considered. -/
def proposals (x : Example) (node parnode : Addr) (parspan : Span) :
    Option (List (Option Span)) :=
  let oldspan := x.span node
  let (imax, jmin) :=
    match x.closureSpan node with
    | none => (parspan.2, parspan.1 + 1)
    | some closure => closure
  let free := x.isFree node parnode
  ((List.range' parspan.1 (imax - parspan.1)).mapM fun i => (free i).bind fun b =>
    if b then
      let first := max (i + 1) jmin
      (spanEnds free (parspan.2 - first) first).map fun js =>
        (js.map fun j => some (i, j)).filter (· ≠ oldspan)
    else some []).map fun spans => (if oldspan ≠ none then [none] else []) ++ spans.flatten

end Example

end Code

end Carmel.Gextract
