/-
# Ordered trees

`tree.Node` has a label, a list of children, and the attributes that the rule
extraction adds. The children of a node lie behind one another: each has its
attributes and its own children, and is followed by the rest.
-/

import Carmel.Math.Instances

namespace Carmel.Gextract

universe u v

/-- The children of a node. -/
inductive Nodes (α : Type u)
  | nil
  | node (attr : α) (children rest : Nodes α)
deriving DecidableEq, Repr

/-- `tree.Node`. -/
structure Node (α : Type u) where
  attr : α
  children : Nodes α
deriving DecidableEq, Repr

namespace Nodes

variable {α : Type u} {β : Type v}

def toList : Nodes α → List (Node α)
  | nil => []
  | node attr children rest => ⟨attr, children⟩ :: rest.toList

def append : Nodes α → Nodes α → Nodes α
  | nil, more => more
  | node attr children rest, more => node attr children (rest.append more)

def map (f : α → β) : Nodes α → Nodes β
  | nil => nil
  | node attr children rest => node (f attr) (children.map f) (rest.map f)

/-- The number of nodes. -/
def size : Nodes α → ℕ
  | nil => 0
  | node _ children rest => 1 + children.size + rest.size

/-- A node before its children, and these before the rest. -/
def preorder : Nodes α → List (Node α)
  | nil => []
  | node attr children rest => ⟨attr, children⟩ :: (children.preorder ++ rest.preorder)

/-- The labels of the terminals. -/
def yieldLabels : Nodes α → List α
  | nil => []
  | node attr children rest =>
    (match children with
      | nil => [attr]
      | node .. => children.yieldLabels) ++ rest.yieldLabels

/-- Change the attributes of the terminals. -/
def mapTerminals (f : α → α) : Nodes α → Nodes α
  | nil => nil
  | node attr children rest =>
    match children with
    | nil => node (f attr) nil (rest.mapTerminals f)
    | node .. => node attr (children.mapTerminals f) (rest.mapTerminals f)

theorem append_nil (ts : Nodes α) : ts.append nil = ts := by
  induction ts with
  | nil => rfl
  | node attr children rest _ ih => rw [append, ih]

theorem map_map {γ : Type*} (g : β → γ) (f : α → β) (ts : Nodes α) :
    (ts.map f).map g = ts.map (g ∘ f) := by
  induction ts with
  | nil => rfl
  | node attr children rest ihc ihr => rw [map, map, map, ihc, ihr, Function.comp_apply]

theorem map_id (ts : Nodes α) : ts.map id = ts := by
  induction ts with
  | nil => rfl
  | node attr children rest ihc ihr => rw [map, ihc, ihr, id]

/-- Changed terminals look the same to a map that does not see the change. -/
theorem map_mapTerminals {g : α → β} {f : α → α} (hsame : ∀ a, g (f a) = g a) (ts : Nodes α) :
    (ts.mapTerminals f).map g = ts.map g := by
  induction ts with
  | nil => rfl
  | node attr children rest ihc ihr =>
    cases children with
    | nil => simp only [mapTerminals, map, ihr, hsame]
    | node a c r => rw [mapTerminals, map, map, ihc, ihr]

end Nodes

namespace Node

variable {α : Type u} {β : Type v}

/-- `is_terminal`. -/
def IsTerminal (t : Node α) : Prop := t.children = .nil

instance (t : Node α) : Decidable t.IsTerminal :=
  match t with
  | ⟨_, .nil⟩ => isTrue rfl
  | ⟨_, .node ..⟩ => isFalse nofun

def map (f : α → β) (t : Node α) : Node β := ⟨f t.attr, t.children.map f⟩

def preorder (t : Node α) : List (Node α) := t :: t.children.preorder

/-- `yield_labels`: the labels of `frontier()`. -/
def yieldLabels (t : Node α) : List α :=
  match t.children with
  | .nil => [t.attr]
  | .node .. => t.children.yieldLabels

/-- Change the attributes of the nodes in `frontier()`. -/
def mapTerminals (f : α → α) (t : Node α) : Node α :=
  match t.children with
  | .nil => ⟨f t.attr, .nil⟩
  | .node .. => ⟨t.attr, t.children.mapTerminals f⟩

theorem map_mapTerminals {g : α → β} {f : α → α} (hsame : ∀ a, g (f a) = g a) (t : Node α) :
    (t.mapTerminals f).map g = t.map g := by
  obtain ⟨attr, children⟩ := t
  cases children with
  | nil => rw [mapTerminals, map, map, hsame]
  | node a c r => rw [mapTerminals, map, map, Nodes.map_mapTerminals hsame]

end Node

end Carmel.Gextract
