/-
# States as they are stored

The arcs of a state are the nodes of a singly linked list. A state keeps their number, and
while it has an index also a table from symbols to the addresses of nodes. Every operation
on the list has to keep both right. An address stands for a pointer.
-/

import Carmel.Compose.Moves
import Carmel.Fst.RemoveStates

namespace Carmel

universe u

/-- An arc with the address of its node. -/
structure ArcNode (W : Type u) where
  addr : ℕ
  arc : FSTArc W
deriving DecidableEq, Repr

/-- The index of a state: under every symbol the addresses of arcs. The source keeps the
table only. The direction it was built in is here for statements; no operation reads it. -/
structure ArcIndex where
  dir : LabelType
  table : ℕ → List ℕ

/-- A state as it is stored. -/
structure StoredState (W : Type u) where
  nodes : List (ArcNode W)
  size : ℕ
  index : Option ArcIndex

namespace FSTArc

variable {W : Type u}

/-- What `project` does with an arc. -/
def project (dir : LabelType) (identity : Bool) (arc : FSTArc W) : FSTArc W :=
  match dir with
  | .kInput => { arc with out := if identity then arc.inp else epsilonIndex }
  | .kOutput => { arc with inp := if identity then arc.out else epsilonIndex }

/-- What `invert` does with an arc. -/
def invert (arc : FSTArc W) : FSTArc W := { arc with inp := arc.out, out := arc.inp }

end FSTArc

/-- What `prune` does with an arc. -/
def pruneArcBelow {W : Type u} [LT W] [DecidableLT W] (thresh : W) (arc : FSTArc W) : Option (FSTArc W) :=
  if arc.weight < thresh then none else some arc

namespace StoredState

variable {W : Type u}

section Model

variable (st : StoredState W)

def empty : StoredState W := ⟨[], 0, none⟩

def flush : StoredState W := { st with index := none }

def addArc (node : ArcNode W) : StoredState W :=
  { st with nodes := node :: st.nodes, size := st.size + 1 }

/-- `insert_after`, on the nodes. The node at `b` is there, so the end is never reached. -/
def insertAfterNode (b : ℕ) (node : ArcNode W) : List (ArcNode W) → List (ArcNode W)
  | [] => [node]
  | n :: nodes => if n.addr = b then n :: node :: nodes else n :: insertAfterNode b node nodes

/-- What an `arc_adder` does with the state: put the arc after the last one that it added
there, or in front if there is none. -/
def insertAfter (b : Option ℕ) (node : ArcNode W) : StoredState W :=
  match b with
  | none => st.addArc node
  | some b => { st with nodes := insertAfterNode b node st.nodes, size := st.size + 1 }

/-- The table that `indexBy` builds: each arc is pushed to the front of its symbol's list. -/
def buildTable (dir : LabelType) (nodes : List (ArcNode W)) : ℕ → List ℕ :=
  nodes.foldl
    (fun table n => Function.update table (n.arc.symbol dir) (n.addr :: table (n.arc.symbol dir)))
    fun _ => []

/-- `indexBy`. It returns at once when the state has an index. -/
def indexBy (dir : LabelType) : StoredState W :=
  match st.index with
  | some _ => st
  | none => { st with index := some ⟨dir, buildTable dir st.nodes⟩ }

/-- A pass over the arcs that rewrites some and erases others with `remove`. -/
def editArcs (edit : FSTArc W → Option (FSTArc W)) : StoredState W :=
  { st with
    nodes := st.nodes.filterMap fun n => (edit n.arc).map (⟨n.addr, ·⟩)
    size := st.size - st.nodes.countP fun n => (edit n.arc).isNone }

/-- A pass over the arcs that erases none. -/
def mapArcs (f : FSTArc W → FSTArc W) : StoredState W :=
  { st with nodes := st.nodes.map fun n => ⟨n.addr, f n.arc⟩ }

/-- New weights for the arcs, by position. -/
def setWeights (weight : ℕ → W) : StoredState W :=
  { st with nodes := st.nodes.mapIdx fun pos n => ⟨n.addr, { n.arc with weight := weight pos }⟩ }

def removeEpsilonsTo (dest : ℕ) : StoredState W := st.flush.editArcs (removeEpsilonArc dest)

def prune [LT W] [DecidableLT W] (thresh : W) : StoredState W := st.editArcs (pruneArcBelow thresh)

def renumberDestinations (oldToNew : ℕ → Option ℕ) : StoredState W :=
  st.flush.editArcs (renumberArc oldToNew)

def project (dir : LabelType) (identity : Bool) : StoredState W :=
  st.flush.mapArcs (FSTArc.project dir identity)

def invert : StoredState W := (st.mapArcs FSTArc.invert).flush

/-- What `assignWeights` does with a node: a tied arc gets the weight of its group, and is
erased if the group has none. -/
def assignNode (groupWeight : ℕ → Option W) (n : ArcNode W) : Option (ArcNode W) :=
  if n.arc.isTied then
    (groupWeight n.arc.groupId).map fun w => ⟨n.addr, { n.arc with weight := w }⟩
  else some n

/-- `assignWeights`, which erases from the list with `arcs.erase` and does not count. -/
def assignWeights (groupWeight : ℕ → Option W) : StoredState W :=
  { st.flush with nodes := st.nodes.filterMap (assignNode groupWeight) }

end Model

section Reduce

variable [LinearOrder W] [One W] [DecidableEq W] (zero : W) (add : W → W → W) (sum clamp : Bool)

/-- `combine_arc_weight`. -/
def combineArcWeight (w d : W) : W :=
  if sum then
    if clamp && 1 < add w d then 1 else add w d
  else
    if w < d then d else w

/-- Whether two arcs have the same key `UnArc`. -/
def sameUnArc (a b : FSTArc W) : Bool := a.inp = b.inp ∧ a.out = b.out ∧ a.dest = b.dest

/-- One round of `reduce`: the arcs kept so far, in order, and the count. The weight of an
arc like one that was kept is combined with its weight. -/
def reduceStep (acc : List (ArcNode W) × ℕ) (n : ArcNode W) : List (ArcNode W) × ℕ :=
  let (kept, size) := acc
  if n.arc.weight = zero then
    (kept, size - 1)
  else if kept.any fun k => sameUnArc k.arc n.arc then
    (kept.map fun k =>
      if sameUnArc k.arc n.arc then
        ⟨k.addr, { k.arc with weight := combineArcWeight add sum clamp k.arc.weight n.arc.weight }⟩
      else k,
      size - 1)
  else
    (kept ++ [n], size)

/-- `State::reduce`. -/
def reduce (st : StoredState W) : StoredState W :=
  let (nodes, size) := st.nodes.foldl (reduceStep zero add sum clamp) ([], st.size)
  { st.flush with nodes := nodes, size := size }

end Reduce

section Counted

variable {st : StoredState W} {edit : FSTArc W → Option (FSTArc W)}

/-- The state counts its arcs right. -/
def Counted (st : StoredState W) : Prop := st.size = st.nodes.length

theorem counted_empty : (empty : StoredState W).Counted := rfl

theorem Counted.flush (h : st.Counted) : st.flush.Counted := h

theorem Counted.addArc (h : st.Counted) (node : ArcNode W) : (st.addArc node).Counted :=
  congrArg (· + 1) h

theorem length_insertAfterNode (b : ℕ) (node : ArcNode W) (nodes : List (ArcNode W)) :
    (insertAfterNode b node nodes).length = nodes.length + 1 := by
  induction nodes with
  | nil => rfl
  | cons n nodes ih =>
    rw [insertAfterNode]
    split
    case isTrue => rfl
    case isFalse => rw [List.length_cons, ih, List.length_cons]

theorem Counted.insertAfter (h : st.Counted) (b : Option ℕ) (node : ArcNode W) :
    (st.insertAfter b node).Counted := by
  cases b with
  | none => exact h.addArc node
  | some b =>
    rw [Counted, StoredState.insertAfter, length_insertAfterNode]
    exact congrArg (· + 1) h

theorem Counted.indexBy (h : st.Counted) (dir : LabelType) : (st.indexBy dir).Counted := by
  rw [StoredState.indexBy]
  split <;> exact h

/-- An arc is either kept or counted. -/
theorem length_filterMap_add_countP {α β : Type u} (f : α → Option β) (l : List α) :
    (l.filterMap f).length + l.countP (fun a => (f a).isNone) = l.length := by
  induction l with
  | nil => rfl
  | cons a l ih =>
    cases hf : f a with
    | none => simp [hf, ← ih, Nat.add_assoc]
    | some b => simp [hf, ← ih, Nat.add_right_comm]

theorem Counted.editArcs (h : st.Counted) (edit : FSTArc W → Option (FSTArc W)) :
    (st.editArcs edit).Counted := by
  have hlen := length_filterMap_add_countP
    (fun n : ArcNode W => (edit n.arc).map (ArcNode.mk n.addr)) st.nodes
  simp only [Option.isNone_map] at hlen
  rw [Counted] at h ⊢
  rw [StoredState.editArcs, h, ← hlen, Nat.add_sub_cancel]

theorem Counted.mapArcs (h : st.Counted) (f : FSTArc W → FSTArc W) : (st.mapArcs f).Counted := by
  rw [Counted, StoredState.mapArcs, List.length_map]
  exact h

theorem Counted.setWeights (h : st.Counted) (weight : ℕ → W) : (st.setWeights weight).Counted := by
  rw [Counted, StoredState.setWeights, List.length_mapIdx]
  exact h

/-- `assignWeights` counts right only while it erases nothing. -/
theorem Counted.assignWeights_iff (h : st.Counted) (groupWeight : ℕ → Option W) :
    (st.assignWeights groupWeight).Counted ↔
      ∀ n ∈ st.nodes, n.arc.isTied = true → groupWeight n.arc.groupId ≠ none := by
  have hlen := length_filterMap_add_countP (assignNode groupWeight) st.nodes
  have hzero : (st.assignWeights groupWeight).Counted ↔
      st.nodes.countP (fun n => (assignNode groupWeight n).isNone) = 0 := by
    have hsize : st.size = st.nodes.length := h
    change st.size = (st.nodes.filterMap (assignNode groupWeight)).length ↔ _
    omega
  rw [hzero, List.countP_eq_zero]
  refine forall₂_congr fun n _ => ?_
  rw [assignNode]
  cases hn : n.arc.isTied with
  | true => simp
  | false => simp

section Reduce

variable [LinearOrder W] [One W] [DecidableEq W] {zero : W} {add : W → W → W} {sum clamp : Bool}

theorem reduceStep_counted (acc : List (ArcNode W) × ℕ) (n : ArcNode W) (rest : ℕ)
    (h : acc.2 = acc.1.length + (rest + 1)) :
    (reduceStep zero add sum clamp acc n).2 =
      (reduceStep zero add sum clamp acc n).1.length + rest := by
  obtain ⟨kept, size⟩ := acc
  simp only at h
  rw [reduceStep]
  split
  case isTrue =>
    simp only
    omega
  case isFalse =>
    split
    case isTrue =>
      simp only [List.length_map]
      omega
    case isFalse =>
      simp only [List.length_append, List.length_singleton]
      omega

/-- Each arc left out is counted down, over the whole list. -/
theorem foldl_reduceStep_counted (nodes : List (ArcNode W)) (acc : List (ArcNode W) × ℕ)
    (h : acc.2 = acc.1.length + nodes.length) :
    (nodes.foldl (reduceStep zero add sum clamp) acc).2 =
      (nodes.foldl (reduceStep zero add sum clamp) acc).1.length := by
  induction nodes generalizing acc with
  | nil => exact h
  | cons n nodes ih => exact ih _ (reduceStep_counted acc n nodes.length h)

theorem Counted.reduce (h : st.Counted) : (st.reduce zero add sum clamp).Counted :=
  foldl_reduceStep_counted st.nodes ([], st.size) (h.trans (Nat.zero_add _).symm)

end Reduce

end Counted

section Indexed

variable {st : StoredState W} {dir : LabelType}

theorem buildTable_eq (nodes : List (ArcNode W)) (sym : ℕ) : buildTable dir nodes sym =
    ((nodes.filter fun n => n.arc.symbol dir = sym).map ArcNode.addr).reverse := by
  induction nodes using List.reverseRecOn with
  | nil => rfl
  | append_singleton nodes n ih =>
    rw [buildTable] at ih ⊢
    rw [List.foldl_append, List.filter_append, List.map_append, List.reverse_append, ← ih]
    by_cases hsym : n.arc.symbol dir = sym
    · subst hsym
      simp
    · simp [hsym, Function.update_of_ne (Ne.symm hsym)]

/-- The nodes have different addresses, and an index is the one of the arcs that are there. -/
structure Indexed (st : StoredState W) : Prop where
  nodup : (st.nodes.map ArcNode.addr).Nodup
  table : ∀ ix ∈ st.index, ix.table = buildTable ix.dir st.nodes

/-- What `indexBy dir` is for. -/
def IndexedBy (st : StoredState W) (dir : LabelType) : Prop :=
  (st.nodes.map ArcNode.addr).Nodup ∧ ∃ ix, st.index = some ix ∧ ∀ sym,
    ix.table sym = ((st.nodes.filter fun n => n.arc.symbol dir = sym).map ArcNode.addr).reverse

theorem indexed_empty : (empty : StoredState W).Indexed where
  nodup := List.nodup_nil
  table _ h := absurd h (Option.not_mem_none _)

theorem Indexed.of_none (hnodup : (st.nodes.map ArcNode.addr).Nodup) (h : st.index = none) :
    st.Indexed where
  nodup := hnodup
  table ix hix := by
    rw [h] at hix
    exact absurd hix (Option.not_mem_none _)

/-- With the arcs at the same addresses under the same symbols the index stays right. -/
theorem Indexed.congr {st' : StoredState W} (h : st.Indexed) (hindex : st'.index = st.index)
    (haddr : st'.nodes.map ArcNode.addr = st.nodes.map ArcNode.addr)
    (hnodes : ∀ dir, buildTable dir st'.nodes = buildTable dir st.nodes) : st'.Indexed where
  nodup := haddr ▸ h.nodup
  table ix hix := by
    rw [hnodes]
    exact h.table ix (hindex ▸ hix)

theorem Indexed.flush (h : st.Indexed) : st.flush.Indexed := .of_none h.nodup rfl

/-- `indexBy` builds the index, or finds one that was built in the same direction. -/
theorem Indexed.indexBy (h : st.Indexed) (dir : LabelType) : (st.indexBy dir).Indexed := by
  cases hix : st.index with
  | some ix =>
    rw [StoredState.indexBy, hix]
    exact h
  | none =>
    rw [StoredState.indexBy, hix]
    refine ⟨h.nodup, fun ix hmem => ?_⟩
    obtain rfl := Option.mem_some_iff.mp hmem
    rfl

theorem Indexed.indexedBy (h : st.Indexed) (hdir : ∀ ix ∈ st.index, ix.dir = dir) :
    (st.indexBy dir).IndexedBy dir := by
  refine ⟨(h.indexBy dir).nodup, ?_⟩
  cases hix : st.index with
  | some ix =>
    rw [StoredState.indexBy, hix]
    refine ⟨ix, hix, fun sym => ?_⟩
    rw [h.table ix hix, hdir ix hix, buildTable_eq]
  | none =>
    rw [StoredState.indexBy, hix]
    exact ⟨_, rfl, buildTable_eq st.nodes⟩

theorem Indexed.addArc (h : st.Indexed) (hnone : st.index = none) {node : ArcNode W}
    (hfresh : node.addr ∉ st.nodes.map ArcNode.addr) : (st.addArc node).Indexed :=
  .of_none (List.nodup_cons.mpr ⟨hfresh, h.nodup⟩) hnone

theorem insertAfterNode_perm (b : ℕ) (node : ArcNode W) (nodes : List (ArcNode W)) :
    (insertAfterNode b node nodes).Perm (node :: nodes) := by
  induction nodes with
  | nil => rfl
  | cons n nodes ih =>
    rw [insertAfterNode]
    split
    case isTrue => exact .swap node n nodes
    case isFalse => exact (ih.cons n).trans (.swap node n nodes)

theorem Indexed.insertAfter (h : st.Indexed) (hnone : st.index = none) (b : Option ℕ)
    {node : ArcNode W} (hfresh : node.addr ∉ st.nodes.map ArcNode.addr) :
    (st.insertAfter b node).Indexed := by
  cases b with
  | none => exact h.addArc hnone hfresh
  | some b =>
    refine .of_none ?_ hnone
    refine (((insertAfterNode_perm b node st.nodes).map ArcNode.addr).nodup_iff).mpr ?_
    exact List.nodup_cons.mpr ⟨hfresh, h.nodup⟩

theorem addr_sublist_of_filterMap {f : ArcNode W → Option (ArcNode W)}
    (hf : ∀ {n n'}, f n = some n' → n'.addr = n.addr) (nodes : List (ArcNode W)) :
    ((nodes.filterMap f).map ArcNode.addr).Sublist (nodes.map ArcNode.addr) := by
  induction nodes with
  | nil => exact .slnil
  | cons n nodes ih =>
    rw [List.filterMap_cons, List.map_cons]
    cases hn : f n with
    | none => exact ih.cons _
    | some n' =>
      rw [List.map_cons, hf hn]
      exact ih.cons_cons _

theorem editArcs_addr_sublist (edit : FSTArc W → Option (FSTArc W)) :
    ((st.editArcs edit).nodes.map ArcNode.addr).Sublist (st.nodes.map ArcNode.addr) := by
  refine addr_sublist_of_filterMap (fun {n n'} hn => ?_) st.nodes
  obtain ⟨a, -, rfl⟩ := Option.map_eq_some_iff.mp hn
  rfl

theorem Indexed.editArcs_flush (h : st.Indexed) (edit : FSTArc W → Option (FSTArc W)) :
    (st.flush.editArcs edit).Indexed :=
  .of_none (h.nodup.sublist (editArcs_addr_sublist edit)) rfl

/-- A pass that does not flush must not erase anything from a state with an index. -/
theorem Indexed.editArcs (h : st.Indexed) {edit : FSTArc W → Option (FSTArc W)}
    (hedit : st.index ≠ none → ∀ n ∈ st.nodes, edit n.arc = some n.arc) :
    (st.editArcs edit).Indexed := by
  by_cases hindex : st.index = none
  · exact .of_none (h.nodup.sublist (editArcs_addr_sublist edit)) hindex
  · have hnodes : (st.editArcs edit).nodes = st.nodes := by
      rw [StoredState.editArcs, List.filterMap_congr (g := some), List.filterMap_some]
      intro n hn
      rw [hedit hindex n hn]
      rfl
    exact h.congr rfl (by rw [hnodes]) fun dir => by rw [hnodes]

theorem Indexed.mapArcs_flush (h : st.Indexed) (f : FSTArc W → FSTArc W) :
    (st.mapArcs f).flush.Indexed := by
  refine .of_none ?_ rfl
  have haddr : (st.mapArcs f).nodes.map ArcNode.addr = st.nodes.map ArcNode.addr := by
    rw [StoredState.mapArcs, List.map_map]
    rfl
  exact haddr ▸ h.nodup

theorem buildTable_congr {nodes nodes' : List (ArcNode W)}
    (h : nodes.map (fun n => (n.addr, n.arc.symbol dir)) =
      nodes'.map fun n => (n.addr, n.arc.symbol dir)) :
    buildTable dir nodes = buildTable dir nodes' := by
  have hpairs : ∀ nodes : List (ArcNode W), buildTable dir nodes =
      (nodes.map fun n => (n.addr, n.arc.symbol dir)).foldl
        (fun (table : ℕ → List ℕ) (k : ℕ × ℕ) => Function.update table k.2 (k.1 :: table k.2))
        fun _ => [] := by
    intro nodes
    rw [List.foldl_map]
    rfl
  rw [hpairs, hpairs, h]

theorem Indexed.setWeights (h : st.Indexed) (weight : ℕ → W) : (st.setWeights weight).Indexed := by
  refine h.congr rfl ?_ fun dir => buildTable_congr ?_
  · refine List.ext_getElem (by simp [StoredState.setWeights]) fun i _ _ => ?_
    simp [StoredState.setWeights]
  · refine List.ext_getElem (by simp [StoredState.setWeights]) fun i _ _ => ?_
    cases dir <;> simp [StoredState.setWeights, FSTArc.symbol]

theorem Indexed.assignWeights (h : st.Indexed) (groupWeight : ℕ → Option W) :
    (st.assignWeights groupWeight).Indexed := by
  refine .of_none (h.nodup.sublist (addr_sublist_of_filterMap (fun {n n'} hn => ?_) st.nodes)) rfl
  rw [assignNode] at hn
  split at hn
  · obtain ⟨w, -, rfl⟩ := Option.map_eq_some_iff.mp hn
    rfl
  · exact congrArg ArcNode.addr (Option.some.inj hn).symm

section Reduce

variable [LinearOrder W] [One W] [DecidableEq W] {zero : W} {add : W → W → W} {sum clamp : Bool}

theorem reduceStep_addr (acc : List (ArcNode W) × ℕ) (n : ArcNode W) :
    ((reduceStep zero add sum clamp acc n).1.map ArcNode.addr).Sublist
      (acc.1.map ArcNode.addr ++ [n.addr]) := by
  obtain ⟨kept, size⟩ := acc
  rw [reduceStep]
  split
  case isTrue => exact List.sublist_append_left _ _
  case isFalse =>
    split
    case isTrue =>
      have haddr : ∀ k : ArcNode W, (if sameUnArc k.arc n.arc then
          (⟨k.addr, { k.arc with weight := combineArcWeight add sum clamp k.arc.weight n.arc.weight }⟩ :
            ArcNode W)
          else k).addr = k.addr := by
        intro k
        split <;> rfl
      simp only [List.map_map, Function.comp_def, haddr]
      exact List.sublist_append_left _ _
    case isFalse => exact (List.map_append ..) ▸ List.Sublist.refl _

theorem foldl_reduceStep_addr (nodes : List (ArcNode W)) (acc : List (ArcNode W) × ℕ) :
    ((nodes.foldl (reduceStep zero add sum clamp) acc).1.map ArcNode.addr).Sublist
      (acc.1.map ArcNode.addr ++ nodes.map ArcNode.addr) := by
  induction nodes generalizing acc with
  | nil => exact List.sublist_append_left _ _
  | cons n nodes ih =>
    refine (ih _).trans ?_
    rw [List.map_cons, List.append_cons]
    exact (reduceStep_addr acc n).append_right _

theorem Indexed.reduce (h : st.Indexed) : (st.reduce zero add sum clamp).Indexed :=
  .of_none (h.nodup.sublist (foldl_reduceStep_addr st.nodes ([], st.size))) rfl

end Reduce

end Indexed

end StoredState

end Carmel
