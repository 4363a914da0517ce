/-
# Forests in one stretch of memory

A forest is an array of nodes, each with the place of its next sibling and a rule, the mark
of an alternative, or a pointer to a node that it shares. Pointers are offsets from the
first node here. What an array that was built from a text looks like is said by `Items`: a
list of siblings, each a pointer or a node with its own list of children.
-/

import Carmel.Math.Extraction

namespace Carmel.Forest

/-- A rule (`OR_INT` marks an alternative), or a pointer to a shared node. -/
inductive Label
  | integer (rule : ℕ)
  | pointer (index : ℕ)
deriving DecidableEq, Repr

/-- `OR_INT`: no rule has this number. -/
def orInt : ℕ := 0

structure ForestNode where
  next : ℕ
  label : Label
deriving DecidableEq, Repr

instance : Inhabited ForestNode := ⟨⟨0, .integer 0⟩⟩

/-- The nodes that a forest owns. -/
structure FForest where
  nodes : List ForestNode
deriving DecidableEq, Repr

namespace FForest

def size (f : FForest) : ℕ := f.nodes.length

def node (f : FForest) (i : ℕ) : ForestNode := f.nodes.getD i default

end FForest

/-- Siblings, one after another. -/
inductive Items
  | nil
  | ref (target : ℕ) (rest : Items)
  | node (label : ℕ) (kids rest : Items)
deriving DecidableEq, Repr

namespace Items

/-- The nodes that siblings and their descendants take. -/
def size : Items → ℕ
  | nil => 0
  | ref _ rest => 1 + rest.size
  | node _ kids rest => 1 + kids.size + rest.size

/-- The largest rule, zero if there is none. -/
def maxRule : Items → ℕ
  | nil => 0
  | ref _ rest => rest.maxRule
  | node label kids rest => max label (max kids.maxRule rest.maxRule)

/-- The nodes themselves, when the first is at the offset `i`. -/
def layout : ℕ → Items → List ForestNode
  | _, nil => []
  | i, ref target rest => ⟨i + 1, .pointer target⟩ :: rest.layout (i + 1)
  | i, node label kids rest =>
    ⟨i + 1 + kids.size, .integer label⟩ :: (kids.layout (i + 1) ++ rest.layout (i + 1 + kids.size))

/-- The memory from the offset `i` on holds the nodes. -/
def Laid (memory : ℕ → ForestNode) : ℕ → Items → Prop
  | _, nil => True
  | i, ref target rest => memory i = ⟨i + 1, .pointer target⟩ ∧ rest.Laid memory (i + 1)
  | i, node label kids rest =>
    memory i = ⟨i + 1 + kids.size, .integer label⟩ ∧ kids.Laid memory (i + 1) ∧
      rest.Laid memory (i + 1 + kids.size)

variable {memory memory' : ℕ → ForestNode} {i : ℕ} {items kids rest : Items} {label target : ℕ}

@[simp] theorem size_nil : nil.size = 0 := rfl

@[simp] theorem size_ref : (ref target rest).size = 1 + rest.size := rfl

@[simp] theorem size_node : (node label kids rest).size = 1 + kids.size + rest.size := rfl

@[simp] theorem length_layout (i : ℕ) (items : Items) : (items.layout i).length = items.size := by
  induction items generalizing i with
  | nil => rfl
  | ref target rest ih => simp [layout, ih, Nat.add_comm]
  | node label kids rest ihk ihr =>
    simp only [layout, List.length_cons, List.length_append, ihk, ihr, size_node]
    omega

theorem Laid.congr (h : items.Laid memory i)
    (heq : ∀ j, i ≤ j → j < i + items.size → memory' j = memory j) : items.Laid memory' i := by
  induction items generalizing i with
  | nil => trivial
  | ref target rest ih =>
    simp only [size_ref] at heq
    refine ⟨(heq i (by omega) (by omega)).trans h.1, ih h.2 fun j hj hlt => ?_⟩
    exact heq j (by omega) (by omega)
  | node label kids rest ihk ihr =>
    simp only [size_node] at heq
    refine ⟨(heq i (by omega) (by omega)).trans h.1, ihk h.2.1 fun j hj hlt => ?_,
      ihr h.2.2 fun j hj hlt => ?_⟩
    · exact heq j (by omega) (by omega)
    · exact heq j (by omega) (by omega)

theorem Laid.map_range' (h : items.Laid memory i) :
    (List.range' i items.size).map memory = items.layout i := by
  induction items generalizing i with
  | nil => rfl
  | ref target rest ih =>
    rw [size_ref, Nat.add_comm, List.range'_succ, List.map_cons, h.1, ih h.2]
    rfl
  | node label kids rest ihk ihr =>
    have hsplit : List.range' i (1 + kids.size + rest.size) =
        i :: (List.range' (i + 1) kids.size ++ List.range' (i + 1 + kids.size) rest.size) := by
      rw [show 1 + kids.size + rest.size = kids.size + rest.size + 1 by omega, List.range'_succ,
        List.range'_append_1]
    rw [size_node, hsplit, List.map_cons, List.map_append, h.1, ihk h.2.1, ihr h.2.2]
    rfl

theorem laid_of_nodes (items : Items) (before after : List ForestNode) :
    items.Laid (FForest.mk (before ++ items.layout before.length ++ after)).node before.length := by
  induction items generalizing before after with
  | nil => trivial
  | ref target rest ih =>
    refine ⟨by simp [FForest.node, layout, List.getD], ?_⟩
    have := ih (before ++ [⟨before.length + 1, .pointer target⟩]) after
    simpa [layout] using this
  | node label kids rest ihk ihr =>
    refine ⟨by simp [FForest.node, layout, List.getD], ?_, ?_⟩
    · have := ihk (before ++ [⟨before.length + 1 + kids.size, .integer label⟩])
        (rest.layout (before.length + 1 + kids.size) ++ after)
      simpa [layout] using this
    · have := ihr (before ++ ⟨before.length + 1 + kids.size, .integer label⟩ ::
        kids.layout (before.length + 1)) after
      simpa [layout, Nat.add_assoc, Nat.add_comm, Nat.add_left_comm] using this

end Items

end Carmel.Forest

/-!
## The trees of a forest

An alternative has the trees of its children, a rule has every way of choosing a tree for
each of its children, and a pointer has the trees of the node that it shares.
-/

namespace Carmel.Forest

inductive RTree
  | node (rule : ℕ) (kids : List RTree)

namespace RTree

section Weight

variable {K : Type*} [MulOneClass K] (ruleWeights : ℕ → K)

mutual

/-- The probability of a tree: the product of the weights of its rules. -/
def weight : RTree → K
  | node rule kids => ruleWeights rule * weights kids

def weights : List RTree → K
  | [] => 1
  | t :: ts => t.weight * weights ts

end

theorem weights_eq (ts : List RTree) : weights ruleWeights ts = (ts.map (weight ruleWeights)).prod := by
  induction ts with
  | nil => rfl
  | cons t ts ih => rw [weights, ih, List.map_cons, List.prod_cons]

end Weight

section Nonneg

variable {K : Type*} [Semiring K] [PartialOrder K] [IsOrderedRing K] {ruleWeights : ℕ → K}

mutual

theorem weight_nonneg (hw : ∀ r, 0 ≤ ruleWeights r) : ∀ t : RTree, 0 ≤ t.weight ruleWeights
  | node rule kids => mul_nonneg (hw rule) (weights_nonneg hw kids)

theorem weights_nonneg (hw : ∀ r, 0 ≤ ruleWeights r) :
    ∀ ts : List RTree, 0 ≤ weights ruleWeights ts
  | [] => zero_le_one
  | t :: ts => mul_nonneg (weight_nonneg hw t) (weights_nonneg hw ts)

end

end Nonneg

variable (r : ℕ)

mutual

/-- How often a tree uses a rule. -/
def uses : RTree → ℕ
  | node rule kids => (if rule = r then 1 else 0) + usesAll kids

def usesAll : List RTree → ℕ
  | [] => 0
  | t :: ts => t.uses + usesAll ts

end

theorem usesAll_eq (ts : List RTree) : usesAll r ts = (ts.map (uses r)).sum := by
  induction ts with
  | nil => rfl
  | cons t ts ih => rw [usesAll, ih, List.map_cons, List.sum_cons]

end RTree

namespace FForest

/-- The siblings from `i` on, up to the place `stop`. -/
def siblings (f : FForest) (stop : ℕ) : ℕ → ℕ → List ℕ
  | 0, _ => []
  | fuel + 1, i => if i < stop then i :: f.siblings stop fuel (f.node i).next else []

theorem siblings_eq_nil {f : FForest} {stop i : ℕ} (h : stop ≤ i) (fuel : ℕ) :
    f.siblings stop fuel i = [] := by
  cases fuel with
  | zero => rfl
  | succ fuel => rw [siblings, if_neg (by omega)]

/-- The children of a node; the last one ends where the node does. -/
def children (f : FForest) (i : ℕ) : List ℕ := f.siblings (f.node i).next (f.node i).next (i + 1)

/-- The trees of a node, given those of the nodes it leads to. -/
def expand (f : FForest) (trees : ℕ → List RTree) (i : ℕ) : List RTree :=
  match (f.node i).label with
  | .pointer index => trees index
  | .integer rule =>
    if rule = orInt then (f.children i).flatMap trees
    else ((f.children i).map trees).sections.map (RTree.node rule)

/-- A table of the trees of every node. -/
def IsExpansion (f : FForest) (trees : ℕ → List RTree) : Prop :=
  ∀ i < f.size, trees i = f.expand trees i

end FForest

namespace Items

variable {f : FForest} {i : ℕ} {items : Items}

/-- The places of siblings, the first of which is at `i`. -/
def places : ℕ → Items → List ℕ
  | _, nil => []
  | i, ref _ rest => i :: rest.places (i + 1)
  | i, node _ kids rest => i :: rest.places (i + 1 + kids.size)

theorem siblings_eq_places (h : items.Laid f.node i) {fuel : ℕ} (hfuel : items.size ≤ fuel) :
    f.siblings (i + items.size) fuel i = items.places i := by
  induction items generalizing i fuel with
  | nil => cases fuel <;> simp [FForest.siblings, places]
  | ref target rest ih =>
    cases fuel with
    | zero => simp at hfuel
    | succ fuel =>
      rw [size_ref] at hfuel ⊢
      rw [FForest.siblings, if_pos (by omega), h.1, places, ← ih h.2 (show rest.size ≤ fuel by omega),
        Nat.add_assoc]
  | node label kids rest ihk ihr =>
    cases fuel with
    | zero => simp at hfuel
    | succ fuel =>
      rw [size_node] at hfuel ⊢
      rw [FForest.siblings, if_pos (by omega), h.1, places,
        ← ihr h.2.2 (show rest.size ≤ fuel by omega)]
      congr 2
      omega

/-- The children of a node are the siblings laid out behind it. -/
theorem children_eq {label : ℕ} {kids rest : Items} (h : (node label kids rest).Laid f.node i) :
    f.children i = kids.places (i + 1) := by
  rw [FForest.children, h.1]
  exact siblings_eq_places h.2.1 (show kids.size ≤ i + 1 + kids.size by omega)

end Items

end Carmel.Forest

/-!
## Forest texts

A rule alone is a leaf, a rule or `OR` and its children stand in parentheses, `#n` before an
opening parenthesis names a node, and `#n` elsewhere shares that node.
-/

namespace Carmel.Forest

open Carmel.Math

/-- Siblings as they are written. -/
inductive TextItems
  | nil
  | ref (id : ℕ) (rest : TextItems)
  | leaf (rule : ℕ) (rest : TextItems)
  | node (id? : Option ℕ) (label : ℕ) (kids rest : TextItems)
deriving DecidableEq, Repr

/-- What the names stand for. -/
abbrev Backrefs := ℕ → Option ℕ

/-- A name in front of a parenthesis stands for the node at `i` from there on. -/
def Backrefs.define (backrefs : Backrefs) (id? : Option ℕ) (i : ℕ) : Backrefs :=
  match id? with
  | none => backrefs
  | some id => Function.update backrefs id (some i)

namespace TextItems

/-- The siblings with each name replaced by the place of its node, and the names
known after them; `i` is the place of the first sibling. A name that is used
before its definition has no place. -/
def resolve : TextItems → Backrefs → ℕ → Option (Items × Backrefs)
  | nil, backrefs, _ => some (.nil, backrefs)
  | ref id rest, backrefs, i =>
    match backrefs id, rest.resolve backrefs (i + 1) with
    | some target, some (items, backrefs) => some (.ref target items, backrefs)
    | _, _ => none
  | leaf rule rest, backrefs, i =>
    match rest.resolve backrefs (i + 1) with
    | some (items, backrefs) => some (.node rule .nil items, backrefs)
    | none => none
  | node id? label kids rest, backrefs, i =>
    match kids.resolve (backrefs.define id? i) (i + 1) with
    | none => none
    | some (kids, backrefs) =>
      match rest.resolve backrefs (i + 1 + kids.size) with
      | some (items, backrefs) => some (.node label kids items, backrefs)
      | none => none

/-- How deep the parentheses are nested. -/
def depth : TextItems → ℕ
  | nil => 0
  | ref _ rest => rest.depth
  | leaf _ rest => rest.depth
  | node _ _ kids rest => max (kids.depth + 1) rest.depth

theorem resolve_ref {id : ℕ} {rest : TextItems} {backrefs backrefs' : Backrefs} {i : ℕ}
    {items : Items} (h : (TextItems.ref id rest).resolve backrefs i = some (items, backrefs')) :
    ∃ target items', backrefs id = some target ∧
      rest.resolve backrefs (i + 1) = some (items', backrefs') ∧ items = .ref target items' := by
  simp only [resolve] at h
  split at h
  · rename_i target items' backrefs'' htarget hrest
    simp only [Option.some.injEq, Prod.mk.injEq] at h
    exact ⟨target, items', htarget, by rw [hrest, h.2], h.1.symm⟩
  · simp at h

theorem resolve_leaf {rule : ℕ} {rest : TextItems} {backrefs backrefs' : Backrefs} {i : ℕ}
    {items : Items} (h : (TextItems.leaf rule rest).resolve backrefs i = some (items, backrefs')) :
    ∃ items', rest.resolve backrefs (i + 1) = some (items', backrefs') ∧
      items = .node rule .nil items' := by
  simp only [resolve] at h
  split at h
  · rename_i items' backrefs'' hrest
    simp only [Option.some.injEq, Prod.mk.injEq] at h
    exact ⟨items', by rw [hrest, h.2], h.1.symm⟩
  · simp at h

theorem resolve_node {id? : Option ℕ} {label : ℕ} {kids rest : TextItems}
    {backrefs backrefs' : Backrefs} {i : ℕ} {items : Items}
    (h : (TextItems.node id? label kids rest).resolve backrefs i = some (items, backrefs')) :
    ∃ kids' backrefs₁ items', kids.resolve (backrefs.define id? i) (i + 1) = some (kids', backrefs₁) ∧
      rest.resolve backrefs₁ (i + 1 + kids'.size) = some (items', backrefs') ∧
      items = .node label kids' items' := by
  simp only [resolve] at h
  split at h
  · simp at h
  · rename_i kids' backrefs₁ hkids
    split at h
    · rename_i items' backrefs'' hrest
      simp only [Option.some.injEq, Prod.mk.injEq] at h
      exact ⟨kids', backrefs₁, items', hkids, by rw [hrest, h.2], h.1.symm⟩
    · simp at h

end TextItems

/-- Digits of the number `n`. -/
structure IsNumeral (digits : List Char) (n : ℕ) : Prop where
  ne_nil : digits ≠ []
  isDigit : ∀ c ∈ digits, c.isDigit = true
  value : Nat.ofDigitChars 10 digits 0 = n

/-- Digits of a rule: the first is not zero, and the number is an `unsigned`. -/
structure IsRuleNumeral (digits : List Char) (rule : ℕ) : Prop extends IsNumeral digits rule where
  head : digits.head? ≠ some '0'
  lt : rule < 4294967296

/-- The text before `tail` opens a node, with or without a name. -/
inductive SpellsOpen : Option ℕ → List Char → List Char → Prop
  | plain (tail : List Char) : SpellsOpen none ('(' :: tail) tail
  | named {id : ℕ} {digits : List Char} (hid : IsNumeral digits id) (tail : List Char) :
      SpellsOpen (some id) ('#' :: (digits ++ '(' :: tail)) tail

/-- The text before `tail` is `OR` or a rule. -/
inductive SpellsLabel : ℕ → List Char → List Char → Prop
  | or (tail : List Char) : SpellsLabel orInt ('O' :: 'R' :: tail) tail
  | rule {rule : ℕ} {digits tail : List Char} (hrule : IsRuleNumeral digits rule)
      (hahead : NoDigitAhead tail) : SpellsLabel rule (digits ++ tail) tail

/-- Characters that are passed over. -/
def Spaces (ws : List Char) : Prop := ∀ c ∈ ws, isSpace c = true

/-- The text before `rest` has the structure of the siblings. Tokens are set off
by white space where they would run together. -/
inductive Spells : TextItems → List Char → List Char → Prop
  | nil (rest : List Char) : Spells .nil rest rest
  | ref {id : ℕ} {items : TextItems} {ws digits tail rest : List Char} (hws : Spaces ws)
      (hid : IsNumeral digits id) (hahead : NoDigitAhead tail) (hne : tail ≠ [])
      (hparen : tail.head? ≠ some '(') (hrest : Spells items tail rest) :
      Spells (.ref id items) (ws ++ '#' :: (digits ++ tail)) rest
  | leaf {rule : ℕ} {items : TextItems} {ws digits tail rest : List Char} (hws : Spaces ws)
      (hrule : IsRuleNumeral digits rule) (hahead : NoDigitAhead tail)
      (hrest : Spells items tail rest) : Spells (.leaf rule items) (ws ++ (digits ++ tail)) rest
  | node {id? : Option ℕ} {label : ℕ} {kids items : TextItems}
      {ws ws' ws'' opening labelled children tail rest : List Char} (hws : Spaces ws)
      (hopen : SpellsOpen id? opening (ws' ++ labelled)) (hws' : Spaces ws')
      (hlabel : SpellsLabel label labelled children)
      (hkids : Spells kids children (ws'' ++ ')' :: tail)) (hws'' : Spaces ws'')
      (hrest : Spells items tail rest) : Spells (.node id? label kids items) (ws ++ opening) rest

/-- A text with one tree in front, which is not a shared node, and in which every
name is defined before it is used. -/
inductive IsForestText : TextItems → Items → List Char → List Char → Prop
  | leaf {rule : ℕ} {text rest : List Char} (h : Spells (.leaf rule .nil) text rest) :
      IsForestText (.leaf rule .nil) (.node rule .nil .nil) text rest
  | node {id? : Option ℕ} {label : ℕ} {kids : TextItems} {items : Items} {backrefs : Backrefs}
      {text rest : List Char} (h : Spells (.node id? label kids .nil) text rest)
      (hresolve : kids.resolve (Backrefs.define (fun _ => none) id? 0) 1 = some (items, backrefs)) :
      IsForestText (.node id? label kids .nil) (.node label items .nil) text rest

end Carmel.Forest
