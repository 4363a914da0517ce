/-
# Printing a forest

The printer goes over the array once, with a stack of the places where open
parentheses close, and puts a name before every node that is shared. What it
prints is a forest text of the same nodes.
-/

import Carmel.Forest.Nodes

namespace Carmel.Forest

open Carmel.Math

/-- `MAX_FOREST_DEPTH`: the size of the printer's stack. -/
def maxForestDepth : ℕ := 100000

/-- The names so far, zero for a node without one, and the last name. -/
structure BackrefIds where
  ids : ℕ → ℕ
  lastid : ℕ

/-- One round of `assign_backref_ids`: a node gets a name at the first pointer to it. -/
def BackrefIds.assign (b : BackrefIds) (node : ForestNode) : BackrefIds :=
  match node.label with
  | .pointer index =>
    if b.ids index = 0 then ⟨Function.update b.ids index (b.lastid + 1), b.lastid + 1⟩ else b
  | .integer _ => b

/-- `assign_backref_ids`. -/
def FForest.assignBackrefIds (f : FForest) : ℕ → ℕ :=
  (f.nodes.foldl BackrefIds.assign ⟨fun _ => 0, 0⟩).ids

/-- A number as a stream prints it. -/
def decimal (n : ℕ) : List Char := Nat.toDigits 10 n

/-- `PRINT_OR_INT`. -/
def printOrInt (label : ℕ) : List Char := if label = orInt then ['O', 'R'] else decimal label

/-- The printer between two nodes: the stack `ends`, whether it is at the start,
and what it has printed. -/
structure PrintState where
  ends : List ℕ
  first : Bool
  out : List Char

/-- Close the parentheses that end at the node `p`. -/
def closeEnds (p : ℕ) : List ℕ → List Char → List ℕ × List Char
  | [], out => ([], out)
  | stop :: ends, out =>
    if p = stop then closeEnds p ends (out ++ [')']) else (stop :: ends, out)

/-- One round of the loop of `print`. There is no printing when the stack is full. -/
def printNode (ids : ℕ → ℕ) (p : ℕ) (node : ForestNode) (s : PrintState) : Option PrintState :=
  let id := ids p
  let closed := closeEnds p s.ends s.out
  let out := closed.2 ++ (if s.first then [] else [' ']) ++ if id = 0 then [] else '#' :: decimal id
  match node.label with
  | .pointer index => some ⟨closed.1, false, out ++ '#' :: decimal (ids index)⟩
  | .integer rule =>
    if node.next = p + 1 then
      some ⟨closed.1, false, out ++ (if id = 0 then [] else ['(']) ++ decimal rule ++
        if id = 0 then [] else [')']⟩
    else if closed.1.length < maxForestDepth then
      some ⟨node.next :: closed.1, false, out ++ '(' :: printOrInt rule⟩
    else none

def printNodes (ids : ℕ → ℕ) : ℕ → List ForestNode → PrintState → Option PrintState
  | _, [], s => some s
  | p, node :: nodes, s =>
    match printNode ids p node s with
    | none => none
    | some s => printNodes ids (p + 1) nodes s

/-- `print`, from the first node on: at the end the parentheses still open are closed. -/
def FForest.print (f : FForest) : Option (List Char) :=
  (printNodes f.assignBackrefIds 0 f.nodes ⟨[f.size], true, []⟩).map fun s =>
    s.out ++ List.replicate (s.ends.length - 1) ')'

namespace Items

/-- The name of a node, when it has one. -/
def nameOf (id : ℕ) : Option ℕ := if id = 0 then none else some id

/-- The siblings as text, under given names; `i` is the place of the first. -/
def toText (ids : ℕ → ℕ) : ℕ → Items → TextItems
  | _, nil => .nil
  | i, ref target rest => .ref (ids target) (rest.toText ids (i + 1))
  | i, node label kids rest =>
    if kids.size = 0 ∧ ids i = 0 then .leaf label (rest.toText ids (i + 1 + kids.size))
    else .node (nameOf (ids i)) label (kids.toText ids (i + 1)) (rest.toText ids (i + 1 + kids.size))

/-- How deep nodes with children are nested. -/
def height : Items → ℕ
  | nil => 0
  | ref _ rest => rest.height
  | node _ kids rest => max (if kids.size = 0 then 0 else kids.height + 1) rest.height

/-- Every alternative has something to choose from. -/
def NoEmptyOr : Items → Prop
  | nil => True
  | ref _ rest => rest.NoEmptyOr
  | node label kids rest => (label = orInt → kids ≠ nil) ∧ kids.NoEmptyOr ∧ rest.NoEmptyOr

/-- Every rule is an `unsigned`. -/
def RulesFit : Items → Prop
  | nil => True
  | ref _ rest => rest.RulesFit
  | node label kids rest => label < 4294967296 ∧ kids.RulesFit ∧ rest.RulesFit

theorem size_eq_zero {items : Items} : items.size = 0 ↔ items = nil := by
  cases items with
  | nil => simp
  | ref => simp
  | node => simp

end Items

namespace TextItems

/-- An opening parenthesis, with the name before it. -/
def openText : Option ℕ → List Char
  | none => ['(']
  | some id => '#' :: (decimal id ++ ['('])

/-- The siblings printed, each after a space. -/
def render : TextItems → List Char
  | nil => []
  | ref id rest => ' ' :: '#' :: (decimal id ++ rest.render)
  | leaf rule rest => ' ' :: (decimal rule ++ rest.render)
  | node id? label kids rest =>
    ' ' :: (openText id? ++ (printOrInt label ++ (kids.render ++ ')' :: rest.render)))

end TextItems

section Printing

variable {ids : ℕ → ℕ} {i k : ℕ} {ends : List ℕ} {first : Bool} {out : List Char}

/-- What is printed before a node. -/
def lead (first : Bool) : List Char := if first then [] else [' ']

theorem closeEnds_replicate (h : ∀ x ∈ ends, i < x) (k : ℕ) (out : List Char) :
    closeEnds i (List.replicate k i ++ ends) out = (ends, out ++ List.replicate k ')') := by
  induction k generalizing out with
  | zero =>
    cases ends with
    | nil => simp [closeEnds]
    | cons x ends =>
      have := h x (List.mem_cons_self ..)
      simp [closeEnds, Nat.ne_of_lt this]
  | succ k ih =>
    simp only [List.replicate_succ, List.cons_append, closeEnds, if_true, ih]
    simp

theorem printNode_ref (h : ∀ x ∈ ends, i < x) (target : ℕ) (hid : ids i = 0) :
    printNode ids i ⟨i + 1, .pointer target⟩ ⟨List.replicate k i ++ ends, first, out⟩ =
      some ⟨ends, false, out ++ List.replicate k ')' ++ (lead first ++ '#' :: decimal (ids target))⟩ := by
  simp [printNode, closeEnds_replicate h, hid, lead]

theorem printNode_leaf (h : ∀ x ∈ ends, i < x) {rule : ℕ} (hrule : rule ≠ orInt) :
    printNode ids i ⟨i + 1, .integer rule⟩ ⟨List.replicate k i ++ ends, first, out⟩ =
      some ⟨ends, false, out ++ List.replicate k ')' ++ (lead first ++
        if ids i = 0 then decimal rule
        else TextItems.openText (Items.nameOf (ids i)) ++ (printOrInt rule ++ [')']))⟩ := by
  by_cases hid : ids i = 0
  · simp [printNode, closeEnds_replicate h, hid, lead]
  · simp [printNode, closeEnds_replicate h, hid, lead, TextItems.openText, Items.nameOf, printOrInt,
      hrule]

theorem printNode_node (h : ∀ x ∈ ends, i < x) (hfull : ends.length < maxForestDepth) (label : ℕ)
    {next : ℕ} (hnext : next ≠ i + 1) :
    printNode ids i ⟨next, .integer label⟩ ⟨List.replicate k i ++ ends, first, out⟩ =
      some ⟨next :: ends, false, out ++ List.replicate k ')' ++ (lead first ++
        (TextItems.openText (Items.nameOf (ids i)) ++ printOrInt label))⟩ := by
  by_cases hid : ids i = 0
  · simp [printNode, closeEnds_replicate h, hid, lead, TextItems.openText, Items.nameOf, hnext, hfull]
  · simp [printNode, closeEnds_replicate h, hid, lead, TextItems.openText, Items.nameOf, hnext, hfull]

theorem printNodes_cons {node : ForestNode} {nodes : List ForestNode} {s s' : PrintState}
    (h : printNode ids i node s = some s') :
    printNodes ids i (node :: nodes) s = printNodes ids (i + 1) nodes s' := by
  rw [printNodes, h]

theorem Items.toText_leaf {label : ℕ} {rest : Items} (hid : ids i = 0) :
    (Items.node label .nil rest).toText ids i = .leaf label (rest.toText ids (i + 1)) := by
  simp [Items.toText, hid]

theorem Items.toText_node {label : ℕ} {kids rest : Items} (h : kids.size ≠ 0 ∨ ids i ≠ 0) :
    (Items.node label kids rest).toText ids i = .node (Items.nameOf (ids i)) label
      (kids.toText ids (i + 1)) (rest.toText ids (i + 1 + kids.size)) := by
  rw [Items.toText, if_neg (by omega)]

/-- **The loop of the printer.** Printing siblings leaves some parentheses open that end
with them; with these closed, it has printed their text. -/
theorem printNodes_layout {memory : ℕ → ForestNode} {items : Items} (hlaid : items.Laid memory i)
    (hids : ∀ j target, (memory j).label = .pointer target → ids j = 0) (hor : items.NoEmptyOr)
    (hends : ∀ x ∈ ends, i + items.size ≤ x) (hdepth : ends.length + items.height ≤ maxForestDepth)
    (k : ℕ) (out : List Char) (more : List ForestNode) :
    ∃ m out', printNodes ids i (items.layout i ++ more) ⟨List.replicate k i ++ ends, false, out⟩ =
        printNodes ids (i + items.size) more
          ⟨List.replicate m (i + items.size) ++ ends, false, out'⟩ ∧
      out' ++ List.replicate m ')' = out ++ List.replicate k ')' ++ (items.toText ids i).render := by
  induction items generalizing i ends k out more with
  | nil => exact ⟨k, out, rfl, by simp [Items.toText, TextItems.render]⟩
  | ref target rest ih =>
    rw [Items.size_ref] at hends
    have hlt : ∀ x ∈ ends, i < x := fun x hx => by have := hends x hx; omega
    have hid : ids i = 0 := hids i target (by rw [hlaid.1])
    rcases ih hlaid.2 hor (fun x hx => by have := hends x hx; omega) hdepth 0
      (out ++ List.replicate k ')' ++ (lead false ++ '#' :: decimal (ids target))) more with
      ⟨m, out', hprint, hout⟩
    refine ⟨m, out', ?_, ?_⟩
    · rw [Items.layout, List.cons_append, printNodes_cons (printNode_ref hlt target hid)]
      rw [Items.size_ref, ← Nat.add_assoc]
      exact hprint
    · rw [hout]
      simp [Items.toText, TextItems.render, lead]
  | node label kids rest ihk ihr =>
    rw [Items.size_node] at hends
    have hlt : ∀ x ∈ ends, i < x := fun x hx => by have := hends x hx; omega
    by_cases hkids : kids.size = 0
    · -- a leaf
      have hnil := Items.size_eq_zero.mp hkids
      subst hnil
      have hlabel : label ≠ orInt := fun heq => hor.1 heq rfl
      rcases ihr hlaid.2.2 hor.2.2
        (fun x hx => by have := hends x hx; rw [Items.size_nil] at this ⊢; omega)
        (by simp only [Items.height] at hdepth; omega) 0
        (out ++ List.replicate k ')' ++ (lead false ++ if ids i = 0 then decimal label
          else TextItems.openText (Items.nameOf (ids i)) ++ (printOrInt label ++ [')']))) more with
        ⟨m, out', hprint, hout⟩
      refine ⟨m, out', ?_, ?_⟩
      · have hnode : (Items.node label .nil rest).layout i ++ more =
            ⟨i + 1, .integer label⟩ :: (rest.layout (i + 1) ++ more) := by simp [Items.layout]
        rw [hnode, printNodes_cons (printNode_leaf hlt hlabel), Items.size_node, Items.size_nil,
          ← Nat.add_assoc]
        exact hprint
      · rw [hout]
        by_cases hid : ids i = 0
        · simp [Items.toText_leaf hid, TextItems.render, lead, hid]
        · simp [Items.toText, TextItems.render, lead, hid]
    · -- a node with children
      have hpush : ends.length < maxForestDepth := by
        simp only [Items.height, if_neg hkids] at hdepth
        omega
      have hends₁ : ∀ x ∈ (i + 1 + kids.size) :: ends, i + 1 + kids.size ≤ x := by
        intro x hx
        cases hx with
        | head => omega
        | tail _ hx => have := hends x hx; omega
      rcases ihk hlaid.2.1 hor.2.1 hends₁
        (by simp only [Items.height, if_neg hkids] at hdepth; simp only [List.length_cons]; omega)
        0 (out ++ List.replicate k ')' ++ (lead false ++
          (TextItems.openText (Items.nameOf (ids i)) ++ printOrInt label)))
        (rest.layout (i + 1 + kids.size) ++ more) with
        ⟨m₁, out₁, hprint₁, hout₁⟩
      rcases ihr hlaid.2.2 hor.2.2 (fun x hx => by have := hends x hx; omega)
        (by simp only [Items.height] at hdepth; omega) (m₁ + 1) out₁ more with ⟨m, out', hprint, hout⟩
      refine ⟨m, out', ?_, ?_⟩
      · have hnode : (Items.node label kids rest).layout i ++ more =
            ⟨i + 1 + kids.size, .integer label⟩ ::
              (kids.layout (i + 1) ++ (rest.layout (i + 1 + kids.size) ++ more)) := by
          simp [Items.layout]
        have hstack : List.replicate m₁ (i + 1 + kids.size) ++ (i + 1 + kids.size) :: ends =
            List.replicate (m₁ + 1) (i + 1 + kids.size) ++ ends := by
          rw [List.replicate_succ', List.append_assoc]
          rfl
        rw [hnode, printNodes_cons (printNode_node hlt hpush label (by omega))]
        refine hprint₁.trans ?_
        rw [hstack, hprint, Items.size_node, ← Nat.add_assoc, ← Nat.add_assoc]
      · rw [hout, Items.toText_node (Or.inl hkids), List.replicate_succ', ← List.append_assoc, hout₁]
        simp [TextItems.render, lead]

end Printing

end Carmel.Forest
