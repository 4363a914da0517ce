/-
# The inner loops of composition

For each pair of operand states and filter a loop goes over the arcs of the two states and
makes arcs of the result. Of the four loops in the source one is for the two-state filter,
and three are for the three-state filter, chosen by the sizes of the states. Each is here
the list of the arcs it makes, in order.
-/

import Carmel.Cascade.Parameters

namespace Carmel

universe u

/-- A state of the result under construction: a state of each operand and the
state of the epsilon filter. -/
structure TrioKey where
  qa : ℕ
  qb : ℕ
  filter : Fin 3
deriving DecidableEq, Repr

/-- A mediate state of the two-state filter: the left arc has been taken, its
output letter still has to be read by the right operand. -/
structure HalfArcState where
  lDest : ℕ
  rSource : ℕ
  lHiddenLetter : ℕ
deriving DecidableEq, Repr

/-- Which operand arcs a composed arc is recorded for. -/
inductive Record (W : Type u)
  | /-- `record1`: an arc of the left operand. -/
    left (l : HalfArc W)
  | /-- `record2`: an arc of the right operand. -/
    right (r : HalfArc W)
  | /-- `record`: an arc of each. -/
    both (l r : HalfArc W)
  | /-- `locked_1_groupid`: none, the arc joins final states. -/
    locked
deriving DecidableEq, Repr

/-- The variables that one use of `COMPOSEARC_GROUP` reads. -/
structure ComposeArc (W : Type u) where
  inp : ℕ
  out : ℕ
  weight : W
  triDest : TrioKey
  made : Record W
deriving Repr

/-- The side of an arc an index is keyed by. -/
inductive LabelType
  | kInput
  | kOutput
deriving DecidableEq, Repr

def FSTArc.symbol {W : Type u} (arc : FSTArc W) : LabelType → ℕ
  | .kInput => arc.inp
  | .kOutput => arc.out

section Index

variable {W : Type u}

/-- `(*index)[key].push_front(h)`. -/
def pushAt (key : ℕ) (h : HalfArc W) : List (ℕ × List (HalfArc W)) → List (ℕ × List (HalfArc W))
  | [] => [(key, [h])]
  | (k, bucket) :: rest =>
    if k = key then (k, h :: bucket) :: rest else (k, bucket) :: pushAt key h rest

/-- `State::indexBy` on a state without an index. -/
def indexBy (dir : LabelType) (arcs : List (HalfArc W)) : List (ℕ × List (HalfArc W)) :=
  arcs.foldl (fun index h => pushAt (h.arc.symbol dir) h index) []

/-- `find_second`. No arc has the symbol `~0`, so that key finds nothing. -/
def findSecond (index : List (ℕ × List (HalfArc W))) (key : Option ℕ) : Option (List (HalfArc W)) :=
  key.bind fun k => index.lookup k

end Index

/-- `if ((matches = find_second(..))) for (..)`. -/
def forMatches {α β : Type*} (found : Option (List α)) (body : α → β) : List β :=
  match found with
  | some matched => matched.map body
  | none => []

/-- The order in which iteration over a hash table meets its entries. -/
structure HashOrder (α : Type u) where
  iter : List α → List α
  perm : ∀ entries, (iter entries).Perm entries

/-- Iteration in the order of the entries. -/
def HashOrder.inOrder {α : Type u} : HashOrder α := ⟨id, fun _ => .refl _⟩

/-- What `set_compose` is given: the operands, their addresses, the threshold
above which a state is indexed, and the iteration order of the indices. -/
structure Operands (W : Type u) where
  a : WFST W
  b : WFST W
  addrA : ℕ
  addrB : ℕ
  indexThreshold : ℕ
  order : HashOrder (ℕ × List (HalfArc W))

namespace Operands

variable {W : Type u} (o : Operands W)

/-- `map`: from output symbols of `a` to input symbols of `b`. -/
def map (i : ℕ) : Option ℕ := o.a.outAlph.computeMap o.b.inAlph i

/-- `revMap`: from input symbols of `b` to output symbols of `a`. -/
def revMap (i : ℕ) : Option ℕ := o.b.inAlph.computeMap o.a.outAlph i

def aIndex (qa : ℕ) : List (ℕ × List (HalfArc W)) := indexBy .kOutput (o.a.outArcs qa)

def bIndex (qb : ℕ) : List (ℕ × List (HalfArc W)) := indexBy .kInput (o.b.outArcs qb)

end Operands

section ThreeState

variable {W : Type u} [Mul W] (o : Operands W) (tri : TrioKey)

/-- Both states too small to bother hashing. -/
def bothSmallLoop : List (ComposeArc W) :=
  let qa := o.a.outArcs tri.qa
  let qb := o.b.outArcs tri.qb
  (qa.flatMap fun l =>
    if l.arc.out = epsilonIndex then
      (if tri.filter ≠ 2 then
        [⟨l.arc.inp, epsilonIndex, l.arc.weight, ⟨l.arc.dest, tri.qb, 1⟩, .left l⟩]
      else []) ++
      (if tri.filter = 0 then
        (qb.filter fun r => r.arc.inp = epsilonIndex).map fun r =>
          ⟨l.arc.inp, r.arc.out, l.arc.weight * r.arc.weight, ⟨l.arc.dest, r.arc.dest, 0⟩,
            .both l r⟩
      else [])
    else
      (qb.filter fun r => o.map l.arc.out = some r.arc.inp).map fun r =>
        ⟨l.arc.inp, r.arc.out, l.arc.weight * r.arc.weight, ⟨l.arc.dest, r.arc.dest, 0⟩,
          .both l r⟩) ++
  (if tri.filter ≠ 1 then
    (qb.filter fun r => r.arc.inp = epsilonIndex).map fun r =>
      ⟨epsilonIndex, r.arc.out, r.arc.weight, ⟨tri.qa, r.arc.dest, 2⟩, .right r⟩
  else [])

/-- `qb` is larger and indexed by input. -/
def rightLargerLoop : List (ComposeArc W) :=
  let qa := o.a.outArcs tri.qa
  let index := o.bIndex tri.qb
  (qa.flatMap fun l =>
    if l.arc.out = epsilonIndex then
      (if tri.filter ≠ 2 then
        [⟨l.arc.inp, epsilonIndex, l.arc.weight, ⟨l.arc.dest, tri.qb, 1⟩, .left l⟩]
      else []) ++
      (if tri.filter = 0 then
        forMatches (findSecond index (some epsilonIndex)) fun r =>
          ⟨l.arc.inp, r.arc.out, l.arc.weight * r.arc.weight, ⟨l.arc.dest, r.arc.dest, 0⟩,
            .both l r⟩
      else [])
    else
      forMatches (findSecond index (o.map l.arc.out)) fun r =>
        ⟨l.arc.inp, r.arc.out, l.arc.weight * r.arc.weight, ⟨l.arc.dest, r.arc.dest, 0⟩,
          .both l r⟩) ++
  (if tri.filter ≠ 1 then
    forMatches (findSecond index (some epsilonIndex)) fun r =>
      ⟨epsilonIndex, r.arc.out, r.arc.weight, ⟨tri.qa, r.arc.dest, 2⟩, .right r⟩
  else [])

/-- `qa` is larger and indexed by output. -/
def leftLargerLoop : List (ComposeArc W) :=
  let qb := o.b.outArcs tri.qb
  let index := o.aIndex tri.qa
  (qb.flatMap fun r =>
    if r.arc.inp = epsilonIndex then
      (if tri.filter ≠ 1 then
        [⟨epsilonIndex, r.arc.out, r.arc.weight, ⟨tri.qa, r.arc.dest, 2⟩, .right r⟩]
      else []) ++
      (if tri.filter = 0 then
        forMatches (findSecond index (some epsilonIndex)) fun l =>
          ⟨l.arc.inp, r.arc.out, l.arc.weight * r.arc.weight, ⟨l.arc.dest, r.arc.dest, 0⟩,
            .both l r⟩
      else [])
    else
      forMatches (findSecond index (o.revMap r.arc.inp)) fun l =>
        ⟨l.arc.inp, r.arc.out, l.arc.weight * r.arc.weight, ⟨l.arc.dest, r.arc.dest, 0⟩,
          .both l r⟩) ++
  (if tri.filter ≠ 2 then
    forMatches (findSecond index (some epsilonIndex)) fun l =>
      ⟨l.arc.inp, epsilonIndex, l.arc.weight, ⟨l.arc.dest, tri.qb, 1⟩, .left l⟩
  else [])

/-- The loop the sizes select. Equal sizes make `qb` the larger one. -/
def threeStateLoop : List (ComposeArc W) :=
  let sizeA := (o.a.state tri.qa).size
  let sizeB := (o.b.state tri.qb).size
  let larger := if sizeA > sizeB then sizeA else sizeB
  if larger > o.indexThreshold then
    if sizeA > sizeB then leftLargerLoop o tri else rightLargerLoop o tri
  else bothSmallLoop o tri

end ThreeState

/-- What the loop of the two-state filter does with an arc of `a`, or with an
epsilon arc of `b`. -/
inductive Emission (W : Type u)
  | /-- A plain use of `COMPOSEARC_GROUP`. -/
    arc (e : ComposeArc W)
  | /-- An arc into a mediate state, which gets the arcs `inner` when it is new. -/
    viaMediate (mediate : HalfArcState) (la : HalfArc W) (inner : List (ComposeArc W))
deriving Repr

section TwoState

variable {W : Type u} (o : Operands W)

/-- The arcs that leave a new mediate state, for the arcs of `b` that match. -/
def mediateLoop (mediate : HalfArcState) (rs : List (HalfArc W)) : List (ComposeArc W) :=
  rs.map fun ra =>
    ⟨epsilonIndex, ra.arc.out, ra.arc.weight, ⟨mediate.lDest, ra.arc.dest, 0⟩, .right ra⟩

/-- The loop over one entry of the index of `qa`. -/
def bucketLoop (tri : TrioKey) (letter : ℕ) (ls : List (HalfArc W)) : List (Emission W) :=
  if letter = epsilonIndex then
    if tri.filter = 0 then
      ls.map fun la =>
        .arc ⟨la.arc.inp, epsilonIndex, la.arc.weight, ⟨la.arc.dest, tri.qb, 0⟩, .left la⟩
    else []
  else
    match findSecond (o.bIndex tri.qb) (o.map letter) with
    | some rs => ls.map fun la =>
      let mediate : HalfArcState := ⟨la.arc.dest, tri.qb, letter⟩
      .viaMediate mediate la (mediateLoop mediate rs)
    | none => []

def twoStateLoop (tri : TrioKey) : List (Emission W) :=
  ((o.order.iter (o.aIndex tri.qa)).flatMap fun ll => bucketLoop o tri ll.1 ll.2) ++
  forMatches (findSecond (o.bIndex tri.qb) (some epsilonIndex)) fun ra =>
    .arc ⟨epsilonIndex, ra.arc.out, ra.arc.weight, ⟨tri.qa, ra.arc.dest, 1⟩, .right ra⟩

end TwoState

end Carmel

/-!
## Composition

The loop of a key is run when the key is taken from the queue. At the end up to three copies
of the final pair, one for each state of the filter, are joined into one final state.
-/

namespace Carmel

universe u

/-- The local variables of `set_compose` that change while it runs. -/
structure Builder (W : Type u) where
  states : List (State W)
  stateMap : List (TrioKey × ℕ)
  arcStateMap : List (HalfArcState × ℕ)
  queue : List (ℕ × TrioKey)
  cascade : CascadeParameters

/-- The group of a composed arc, and the recorder after it was asked. -/
def Operands.recordGroup {W : Type u} [CommMonoid W] [DecidableEq W] (o : Operands W)
    (c : CascadeParameters) : Record W → ℕ × CascadeParameters
  | .left l => c.record1 o.addrA l
  | .right r => c.record2 o.addrB r
  | .both l r => c.record o.addrA o.addrB l r
  | .locked => (c.locked1GroupId, c)

namespace Builder

variable {W : Type u} [CommMonoid W] [DecidableEq W] (o : Operands W)

/-- `states[s].addArc(arc)`. -/
def addArc (B : Builder W) (s : ℕ) (arc : FSTArc W) : Builder W :=
  { B with states := B.states.modify s fun st => st.addArc arc }

/-- The first half of `COMPOSEARC_GROUP`: the number of `triDest`, which is
created and queued when it is new. -/
def stateOf (B : Builder W) (triDest : TrioKey) : ℕ × Builder W :=
  match B.stateMap.lookup triDest with
  | some num => (num, B)
  | none =>
    let num := B.states.length
    (num, { B with
        stateMap := (triDest, num) :: B.stateMap
        queue := (num, triDest) :: B.queue
        states := B.states ++ [State.empty] })

/-- An arc out of `sourceState`, with the group of what it was made from. -/
def addRecorded (B : Builder W) (sourceState inp out dest : ℕ) (weight : W) (made : Record W) :
    Builder W :=
  let (group, cascade) := o.recordGroup B.cascade made
  { B with cascade := cascade }.addArc sourceState ⟨inp, out, dest, weight, group⟩

/-- `COMPOSEARC_GROUP`. -/
def composeArc (sourceState : ℕ) (B : Builder W) (e : ComposeArc W) : Builder W :=
  let (num, B) := B.stateOf e.triDest
  B.addRecorded o sourceState e.inp e.out num e.weight e.made

/-- The mediate state of a key, which is created and populated when it is new. -/
def mediateStateOf (B : Builder W) (mediate : HalfArcState) (inner : List (ComposeArc W)) :
    ℕ × Builder W :=
  match B.arcStateMap.lookup mediate with
  | some num => (num, B)
  | none =>
    let num := B.states.length
    let B :=
      { B with
        arcStateMap := (mediate, num) :: B.arcStateMap
        states := B.states ++ [State.empty] }
    (num, inner.foldl (composeArc o num) B)

def emit (sourceState : ℕ) (B : Builder W) : Emission W → Builder W
  | .arc e => B.composeArc o sourceState e
  | .viaMediate mediate la inner =>
    let (num, B) := B.mediateStateOf o mediate inner
    B.addRecorded o sourceState la.arc.inp epsilonIndex num la.arc.weight (.left la)

end Builder

section Compose

variable {W : Type u} [CommMonoid W] [DecidableEq W] (o : Operands W)

/-- The body of the worklist loop for one key. -/
def loopOf (preserveGroups : Bool) (tri : TrioKey) : List (Emission W) :=
  if preserveGroups then twoStateLoop o tri else (threeStateLoop o tri).map .arc

/-- `while (queue.notEmpty())`, at most `fuel` times. -/
def composeLoop (preserveGroups : Bool) : ℕ → Builder W → Builder W
  | 0, B => B
  | fuel + 1, B =>
    match B.queue with
    | [] => B
    | (num, tri) :: rest =>
      composeLoop preserveGroups fuel
        ((loopOf o preserveGroups tri).foldl (Builder.emit o num) { B with queue := rest })

/-- The builder with only the initial state. -/
def composeStart (cascade : CascadeParameters) : Builder W where
  states := [State.empty]
  stateMap := [(⟨0, 0, 0⟩, 0)]
  arcStateMap := []
  queue := [(0, ⟨0, 0, 0⟩)]
  cascade := cascade

/-- `invalidate()`. -/
def invalidResult : WFST W where
  states := []
  final := none
  inAlph := o.a.inAlph
  outAlph := o.b.outAlph

/-- The numbers of the copies of the final pair that were created. -/
def Builder.pFinal (B : Builder W) (finalA finalB : ℕ) : List ℕ :=
  ([0, 1, 2] : List (Fin 3)).filterMap fun i => B.stateMap.lookup ⟨finalA, finalB, i⟩

/-- A new state, and an arc to it from each copy of the final pair. -/
def Builder.joined (B : Builder W) (finalA finalB : ℕ) : Builder W :=
  let final := B.states.length
  let group := B.cascade.locked1GroupId
  (B.pFinal finalA finalB).foldl
    (fun B s => B.addArc s ⟨epsilonIndex, epsilonIndex, final, 1, group⟩)
    { B with states := B.states ++ [State.empty] }

/-- The end of `set_compose`: find the copies of the final pair and, if there
are several, join them. -/
def composeFinal (finalA finalB : ℕ) (B : Builder W) : WFST W :=
  match B.pFinal finalA finalB with
  | [] => invalidResult o
  | [final] => ⟨B.states, some final, o.a.inAlph, o.b.outAlph⟩
  | _ => ⟨(B.joined finalA finalB).states, some B.states.length, o.a.inAlph, o.b.outAlph⟩

/-- How often the worklist loop can run at most: every key is queued once. -/
def composeFuel : ℕ := 3 * o.a.numStates * o.b.numStates

/-- `WFST::set_compose`. Returns the composition and the recorder after it. -/
def setCompose (cascade : CascadeParameters) (preserveGroups : Bool) : WFST W × CascadeParameters :=
  match o.a.final, o.b.final with
  | some finalA, some finalB =>
    let B := composeLoop o preserveGroups (composeFuel o) (composeStart cascade)
    (composeFinal o finalA finalB B, B.cascade)
  | _, _ => (invalidResult o, cascade)

end Compose

end Carmel
