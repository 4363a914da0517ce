/-
# The heaps of sidetracks

`buildSidetracksHeap` gives every state a heap with the sidetracks on its way to the final
state. `newTreeHeapAdd` copies the nodes that it goes down by, and the new heap shares all
others with the old one. Nodes are addressed by their place in memory, and memory only
grows.
-/

import Carmel.Math.TreeHeap
import Carmel.Math.Runs

namespace Carmel

open Carmel.Math

universe v

variable {α : Type} {K : Type v} [LinearOrder K]

section Model

/-- `GraphHeap`; `data` are the arc and the heap of arcs that it holds. -/
structure TreeNode (α : Type) where
  left : Option ℕ
  right : Option ℕ
  nDescend : ℕ
  data : α
deriving DecidableEq, Repr

/-- Nodes by their addresses. -/
abbrev Memory (α : Type) := List (TreeNode α)

/-- `!left || (right && right->nDescend > left->nDescend)`. -/
def goesLeft (m : Memory α) (old : TreeNode α) : Option Bool :=
  match old.left, old.right with
  | none, _ => some true
  | some _, none => some false
  | some left, some right => do
    let l ← m[left]?
    let r ← m[right]?
    some (decide (l.nDescend < r.nDescend))

def setLeft (m : Memory α) (address child : ℕ) : Memory α :=
  m.modify address fun n => { n with left := some child }

def setRight (m : Memory α) (address child : ℕ) : Memory α :=
  m.modify address fun n => { n with right := some child }

/-- `newTreeHeapAdd`: the new root, and the memory. There is no result when an address is
not one of a node, or when `fuel` levels are not enough. -/
def newTreeHeapAdd (key : α → K) : ℕ → Option ℕ → ℕ → Memory α → Option (ℕ × Memory α)
  | _, none, node, m => do
    let n ← m[node]?
    some (node, m.set node { n with left := none, right := none, nDescend := 0 })
  | 0, some _, _, _ => none
  | fuel + 1, some heapRoot, node, m => do
    let old ← m[heapRoot]?
    let newRoot := m.length
    let m := m ++ [{ old with nDescend := old.nDescend + 1 }]
    let left ← goesLeft m old
    let n ← m[node]?
    if key n.data < key old.data then
      let m := m.set node
        { n with left := old.left, right := old.right, nDescend := old.nDescend + 1 }
      if left then
        let (child, m) ← newTreeHeapAdd key fuel old.left newRoot m
        some (node, setLeft m node child)
      else
        let (child, m) ← newTreeHeapAdd key fuel old.right newRoot m
        some (node, setRight m node child)
    else
      if left then
        let (child, m) ← newTreeHeapAdd key fuel old.left node m
        some (newRoot, setLeft m newRoot child)
      else
        let (child, m) ← newTreeHeapAdd key fuel old.right node m
        some (newRoot, setRight m newRoot child)

/-- The globals of the search. What each heap was made of is kept beside them. -/
structure Sidetracks (α : Type) where
  memory : Memory α
  pathGraph : ℕ → Option ℕ
  inserted : ℕ → Multiset α

/-- Before any state is visited. -/
def Sidetracks.empty : Sidetracks α := ⟨[], fun _ => none, fun _ => 0⟩

/-- A visit to a state. `own` is the node made for its sidetracks, if it has any; only the
data of a new node is set. -/
structure Visit (α : Type) where
  state : ℕ
  pred : Option ℕ
  own : Option (TreeNode α)

/-- As many levels as a heap can have. -/
def levels (m : Memory α) (root : Option ℕ) : ℕ :=
  match root.bind fun a => m[a]? with
  | none => 0
  | some n => n.nDescend + 1

/-- `buildSidetracksHeap`. -/
def buildSidetracksHeap (key : α → K) (visit : Visit α) (s : Sidetracks α) : Option (Sidetracks α) :=
  let prev := visit.pred.bind s.pathGraph
  let before := (visit.pred.map s.inserted).getD 0
  match visit.own with
  | none => some { s with
      pathGraph := Function.update s.pathGraph visit.state prev
      inserted := Function.update s.inserted visit.state before }
  | some own => do
    let (root, memory) ←
      newTreeHeapAdd key (levels s.memory prev) prev s.memory.length (s.memory ++ [own])
    some
      { memory := memory
        pathGraph := Function.update s.pathGraph visit.state (some root)
        inserted := Function.update s.inserted visit.state (own.data ::ₘ before) }

end Model

section Memory

/-- At `p` is the heap `t`, at addresses in `A`, and every node knows how many are below it. -/
def HeapAt (m : Memory α) (A : Set ℕ) : Option ℕ → HeapTree α → Prop
  | p, .nil => p = none
  | p, .node data l r => ∃ a n, p = some a ∧ a ∈ A ∧ m[a]? = some n ∧ n.data = data ∧
      n.nDescend = l.size + r.size ∧ HeapAt m A n.left l ∧ HeapAt m A n.right r

variable {m m' : Memory α} {A B : Set ℕ} {p : Option ℕ} {t l r : HeapTree α} {data : α}

theorem HeapAt.keep (h : HeapAt m A p t) (hsub : A ⊆ B)
    (hsame : ∀ a ∈ A, ∀ n, m[a]? = some n → m'[a]? = some n) : HeapAt m' B p t := by
  induction t generalizing p with
  | nil => exact h
  | node data l r ihl ihr =>
    obtain ⟨a, n, hp, ha, hn, hdata, hsize, hl, hr⟩ := h
    exact ⟨a, n, hp, hsub ha, hsame a ha n hn, hdata, hsize, ihl hl, ihr hr⟩

theorem HeapAt.eq_none_iff (h : HeapAt m A p t) : p = none ↔ t.size = 0 := by
  cases t with
  | nil => exact iff_of_true h rfl
  | node data l r =>
    obtain ⟨a, n, rfl, _⟩ := h
    exact iff_of_false (Option.some_ne_none a) (Nat.succ_ne_zero _)

theorem HeapAt.nDescend {a : ℕ} (h : HeapAt m A (some a) t) :
    ∃ n, m[a]? = some n ∧ n.nDescend + 1 = t.size := by
  cases t with
  | nil => exact absurd h (Option.some_ne_none a)
  | node data l r =>
    obtain ⟨b, n, hb, _, hn, _, hsize, _⟩ := h
    rw [Option.some.inj hb]
    exact ⟨n, hn, by rw [hsize]; rfl⟩

theorem size_le_levels (h : HeapAt m A p t) : t.size ≤ levels m p := by
  cases p with
  | none => exact (h.eq_none_iff.mp rfl).le.trans (Nat.zero_le _)
  | some a =>
    obtain ⟨n, hn, hsize⟩ := h.nDescend
    have hlevels : levels m (some a) = n.nDescend + 1 := by
      unfold levels
      rw [Option.bind_some, hn]
    rw [hlevels, hsize]

/-- The decision read from memory is that by the sizes. -/
theorem goesLeft_eq {old : TreeNode α} (hl : HeapAt m A old.left l)
    (hr : HeapAt m A old.right r) : goesLeft m old = some (HeapTree.goLeft l r) := by
  unfold goesLeft HeapTree.goLeft
  cases hleft : old.left with
  | none =>
    rw [hleft] at hl
    simp [hl.eq_none_iff.mp rfl]
  | some a =>
    rw [hleft] at hl
    obtain ⟨n, hn, hsize⟩ := hl.nDescend
    cases hright : old.right with
    | none =>
      rw [hright] at hr
      have hr0 := hr.eq_none_iff.mp rfl
      have hl0 : l.size ≠ 0 := by omega
      simp [hr0, hl0]
    | some b =>
      rw [hright] at hr
      obtain ⟨k, hk, hsize'⟩ := hr.nDescend
      have hl0 : l.size ≠ 0 := by omega
      simp only [hn, hk, Option.bind_eq_bind, Option.bind_some, Option.some.injEq]
      rw [← hsize, ← hsize']
      simp

end Memory

section Insert

variable {key : α → K} {m : Memory α} {A : Set ℕ} {p : Option ℕ} {t : HeapTree α} {node : ℕ}
variable {n : TreeNode α}

/-- What `newTreeHeapAdd` leaves: the heap with the node's data inserted, at addresses of the
old heap, of the node, and new ones, and nothing else written. -/
structure Inserted (key : α → K) (m : Memory α) (A : Set ℕ) (node : ℕ) (data : α) (t : HeapTree α)
    (q : ℕ) (m' : Memory α) : Prop where
  heapAt : HeapAt m' (A ∪ ({node} ∪ {a | m.length ≤ a ∧ a < m'.length})) (some q)
    (t.insert key data)
  length_le : m.length ≤ m'.length
  same : ∀ a < m.length, a ≠ node → m'[a]? = m[a]?

theorem getElem?_setLeft_self {address child : ℕ} (h : m[address]? = some n) :
    (setLeft m address child)[address]? = some { n with left := some child } := by
  rw [setLeft, List.getElem?_modify_eq, h]
  rfl

theorem getElem?_setRight_self {address child : ℕ} (h : m[address]? = some n) :
    (setRight m address child)[address]? = some { n with right := some child } := by
  rw [setRight, List.getElem?_modify_eq, h]
  rfl

theorem getElem?_setLeft_ne {address child a : ℕ} (h : address ≠ a) :
    (setLeft m address child)[a]? = m[a]? := by
  rw [setLeft, List.getElem?_modify_ne _ _ h]

theorem getElem?_setRight_ne {address child a : ℕ} (h : address ≠ a) :
    (setRight m address child)[a]? = m[a]? := by
  rw [setRight, List.getElem?_modify_ne _ _ h]

theorem length_setLeft {address child : ℕ} : (setLeft m address child).length = m.length :=
  List.length_modify ..

theorem length_setRight {address child : ℕ} : (setRight m address child).length = m.length :=
  List.length_modify ..

variable {m₁ m₂ m₃ : Memory α} {top sub q : ℕ} {rest data : α} {po : Option ℕ} {c other : HeapTree α}

/-- After an insertion below it, the top is written once more; what is below is not. -/
theorem Inserted.write_top (h : Inserted key m₁ A sub rest c q m₂) (hother : HeapAt m₁ A po other)
    (hset : ∀ a, top ≠ a → m₃[a]? = m₂[a]?) (htop : top < m₁.length) (htopA : top ∉ A)
    (hne : top ≠ sub) (hsubA : sub ∉ A) (hA : ∀ a ∈ A, a < m₁.length) :
    HeapAt m₃ (A ∪ ({sub} ∪ {a | m₁.length ≤ a ∧ a < m₂.length})) (some q) (c.insert key rest) ∧
      HeapAt m₃ A po other ∧
      ∀ a < m₁.length, a ≠ sub → a ≠ top → m₃[a]? = m₁[a]? := by
  refine ⟨h.heapAt.keep subset_rfl ?_, hother.keep subset_rfl ?_, ?_⟩
  · intro a ha n hn
    rw [hset a ?_, hn]
    rintro rfl
    rcases ha with ha | ha | ha
    · exact htopA ha
    · exact hne ha
    · exact absurd htop (not_lt.mpr ha.1)
  · intro a ha n hn
    have hsub : a ≠ sub := fun heq => hsubA (heq ▸ ha)
    have htop' : top ≠ a := fun heq => htopA (heq ▸ ha)
    rw [hset a htop', h.same a (hA a ha) hsub, hn]
  · intro a ha hsub htop'
    rw [hset a htop'.symm, h.same a ha hsub]

theorem newTreeHeapAdd_none (fuel : ℕ) (hn : m[node]? = some n) :
    newTreeHeapAdd key fuel none node m =
      some (node, m.set node { n with left := none, right := none, nDescend := 0 }) := by
  cases fuel <;> simp [newTreeHeapAdd, hn]

/-- The copy of a root, which one more node is below. -/
def TreeNode.grown (old : TreeNode α) : TreeNode α := { old with nDescend := old.nDescend + 1 }

/-- The node in the place of a root. -/
def TreeNode.promoted (n old : TreeNode α) : TreeNode α :=
  { n with left := old.left, right := old.right, nDescend := old.nDescend + 1 }

theorem newTreeHeapAdd_some {fuel heapRoot : ℕ} {old : TreeNode α} {left : Bool}
    (hold : m[heapRoot]? = some old) (hleft : goesLeft (m ++ [old.grown]) old = some left)
    (hn : (m ++ [old.grown])[node]? = some n) :
    newTreeHeapAdd key (fuel + 1) (some heapRoot) node m =
      let top := if key n.data < key old.data then node else m.length
      let sub := if key n.data < key old.data then m.length else node
      let m₁ := if key n.data < key old.data then (m ++ [old.grown]).set node (n.promoted old)
        else m ++ [old.grown]
      if left then
        (newTreeHeapAdd key fuel old.left sub m₁).map fun r => (top, setLeft r.2 top r.1)
      else (newTreeHeapAdd key fuel old.right sub m₁).map fun r => (top, setRight r.2 top r.1) := by
  rw [newTreeHeapAdd]
  unfold TreeNode.grown at hleft hn ⊢
  simp only [hold, Option.bind_eq_bind, Option.bind_some, hleft, hn, TreeNode.promoted]
  by_cases hlt : key n.data < key old.data
  · simp only [hlt, if_true]
    cases left <;> simp [Option.map_eq_bind]
  · simp only [hlt, if_false]
    cases left <;> simp [Option.map_eq_bind]

/-- One of the copy of the root and the node is the top of the new heap, with the children of
the old root, and the other goes on down. -/
structure Placed (m : Memory α) (A : Set ℕ) (node : ℕ) (old : TreeNode α) (x rest : α) (top sub : ℕ)
    (m₁ : Memory α) : Prop where
  atTop : ∃ c, m₁[top]? = some c ∧ c.data = x ∧ c.left = old.left ∧ c.right = old.right ∧
    c.nDescend = old.nDescend + 1
  atSub : ∃ c, m₁[sub]? = some c ∧ c.data = rest
  ne : top ≠ sub
  top_notMem : top ∉ A
  sub_notMem : sub ∉ A
  length : m₁.length = m.length + 1
  top_eq : top = node ∨ top = m.length
  sub_eq : sub = node ∨ sub = m.length
  same : ∀ a < m.length, a ≠ node → m₁[a]? = m[a]?

theorem placed (key : α → K) {old : TreeNode α} (hA : ∀ a ∈ A, a < m.length) (hnode : node ∉ A)
    (hn : m[node]? = some n) :
    Placed m A node old (if key n.data < key old.data then n.data else old.data)
      (if key n.data < key old.data then old.data else n.data)
      (if key n.data < key old.data then node else m.length)
      (if key n.data < key old.data then m.length else node)
      (if key n.data < key old.data then (m ++ [old.grown]).set node (n.promoted old)
        else m ++ [old.grown]) := by
  have hlt := (List.getElem?_eq_some_iff.mp hn).1
  have hgrown : ∀ a < m.length, (m ++ [old.grown])[a]? = m[a]? :=
    fun a ha => List.getElem?_append_left ha
  have hcopy : (m ++ [old.grown])[m.length]? = some old.grown := List.getElem?_concat_length
  have hlen : (m ++ [old.grown]).length = m.length + 1 := List.length_append
  have hcopyA : m.length ∉ A := fun hmem => absurd (hA _ hmem) (lt_irrefl _)
  by_cases hkey : key n.data < key old.data
  · simp only [hkey, if_true]
    constructor
    case atTop => exact ⟨n.promoted old, List.getElem?_set_self (by omega), rfl, rfl, rfl, rfl⟩
    case atSub => exact ⟨old.grown, by rw [List.getElem?_set_ne hlt.ne, hcopy], rfl⟩
    case ne => exact hlt.ne
    case top_notMem => exact hnode
    case sub_notMem => exact hcopyA
    case length => rw [List.length_set, hlen]
    case top_eq => exact .inl rfl
    case sub_eq => exact .inr rfl
    case same =>
      intro a ha hne
      rw [List.getElem?_set_ne hne.symm, hgrown a ha]
  · simp only [hkey, if_false]
    constructor
    case atTop => exact ⟨old.grown, hcopy, rfl, rfl, rfl, rfl⟩
    case atSub => exact ⟨n, (hgrown _ hlt).trans hn, rfl⟩
    case ne => exact hlt.ne'
    case top_notMem => exact hcopyA
    case sub_notMem => exact hnode
    case length => exact hlen
    case top_eq => exact .inr rfl
    case sub_eq => exact .inl rfl
    case same => exact fun a ha _ => hgrown a ha

section Placed

variable {old : TreeNode α} {x : α} {l r : HeapTree α}

theorem Placed.keep (h : Placed m A node old x rest top sub m₁) (hA : ∀ a ∈ A, a < m.length)
    (hnode : node ∉ A) {p : Option ℕ} {t : HeapTree α} (hp : HeapAt m A p t) :
    HeapAt m₁ A p t := by
  apply hp.keep subset_rfl
  intro a ha k hk
  rw [h.same a (hA a ha) fun heq => hnode (heq ▸ ha), hk]

theorem Placed.frame (h : Placed m A node old x rest top sub m₁) (hA : ∀ a ∈ A, a < m.length)
    (hsub : Inserted key m₁ A sub rest c q m₂) (hother : HeapAt m₁ A po other)
    (hset : ∀ a, top ≠ a → m₃[a]? = m₂[a]?) (hlen : m₃.length = m₂.length) :
    HeapAt m₃ (A ∪ ({node} ∪ {a | m.length ≤ a ∧ a < m₃.length})) (some q) (c.insert key rest) ∧
      HeapAt m₃ (A ∪ ({node} ∪ {a | m.length ≤ a ∧ a < m₃.length})) po other ∧
      top ∈ A ∪ ({node} ∪ {a | m.length ≤ a ∧ a < m₃.length}) ∧
      m.length ≤ m₃.length ∧ ∀ a < m.length, a ≠ node → m₃[a]? = m[a]? := by
  obtain ⟨ct, hct, _⟩ := h.atTop
  obtain ⟨cs, hcs, _⟩ := h.atSub
  have htop := (List.getElem?_eq_some_iff.mp hct).1
  have hsub' := (List.getElem?_eq_some_iff.mp hcs).1
  have hA₁ : ∀ a ∈ A, a < m₁.length := by
    intro a ha
    have hlt := hA a ha
    have hlen₁ := h.length
    omega
  have hle : m.length < m₃.length := by
    rw [hlen]
    have hlen₁ := h.length
    have hlen₂ := hsub.length_le
    omega
  have hnew : ∀ a < m₁.length, a = node ∨ a = m.length →
      a ∈ A ∪ ({node} ∪ {a | m.length ≤ a ∧ a < m₃.length}) := by
    intro a _ ha
    rcases ha with rfl | rfl
    · exact .inr (.inl rfl)
    · exact .inr (.inr ⟨le_rfl, hle⟩)
  obtain ⟨hq, ho, hsame⟩ :=
    hsub.write_top hother hset htop h.top_notMem h.ne h.sub_notMem hA₁
  have hwhole : A ∪ ({sub} ∪ {a | m₁.length ≤ a ∧ a < m₂.length}) ⊆
      A ∪ ({node} ∪ {a | m.length ≤ a ∧ a < m₃.length}) := by
    intro a ha
    rcases ha with ha | rfl | ha
    · exact .inl ha
    · exact hnew a hsub' h.sub_eq
    · refine .inr (.inr ⟨?_, hlen ▸ ha.2⟩)
      have hlen₁ := h.length
      have hge := ha.1
      omega
  refine ⟨hq.keep hwhole fun _ _ _ hk => hk, ho.keep Set.subset_union_left fun _ _ _ hk => hk,
    hnew top htop h.top_eq, hle.le, ?_⟩
  intro a ha hne
  have hnot : ∀ b, b = node ∨ b = m.length → a ≠ b := by
    intro b hb
    rcases hb with rfl | rfl
    · exact hne
    · exact ha.ne
  rw [hsame a (by rw [h.length]; omega) (hnot sub h.sub_eq) (hnot top h.top_eq), h.same a ha hne]

theorem Placed.inserted_left (h : Placed m A node old x rest top sub m₁)
    (hA : ∀ a ∈ A, a < m.length) (hsub : Inserted key m₁ A sub rest l q m₂)
    (hr : HeapAt m₁ A old.right r) (hsize : old.nDescend = l.size + r.size)
    (hinsert : (HeapTree.node old.data l r).insert key data = .node x (l.insert key rest) r) :
    Inserted key m A node data (.node old.data l r) top (setLeft m₂ top q) := by
  obtain ⟨ct, hct, hdata, _, hright, hcount⟩ := h.atTop
  have htop := (List.getElem?_eq_some_iff.mp hct).1
  obtain ⟨hq, hother, hmem, hle, hsame⟩ :=
    h.frame hA hsub hr (fun a ha => getElem?_setLeft_ne ha) length_setLeft
  refine ⟨?_, hle, hsame⟩
  have hat : m₂[top]? = some ct := (hsub.same top htop h.ne).trans hct
  rw [hinsert]
  refine ⟨top, _, rfl, hmem, getElem?_setLeft_self hat, hdata, ?_, hq, hright ▸ hother⟩
  show ct.nDescend = _
  rw [hcount, hsize, HeapTree.size_insert]
  omega

theorem Placed.inserted_right (h : Placed m A node old x rest top sub m₁)
    (hA : ∀ a ∈ A, a < m.length) (hsub : Inserted key m₁ A sub rest r q m₂)
    (hl : HeapAt m₁ A old.left l) (hsize : old.nDescend = l.size + r.size)
    (hinsert : (HeapTree.node old.data l r).insert key data = .node x l (r.insert key rest)) :
    Inserted key m A node data (.node old.data l r) top (setRight m₂ top q) := by
  obtain ⟨ct, hct, hdata, hleft, _, hcount⟩ := h.atTop
  have htop := (List.getElem?_eq_some_iff.mp hct).1
  obtain ⟨hq, hother, hmem, hle, hsame⟩ :=
    h.frame hA hsub hl (fun a ha => getElem?_setRight_ne ha) length_setRight
  refine ⟨?_, hle, hsame⟩
  have hat : m₂[top]? = some ct := (hsub.same top htop h.ne).trans hct
  rw [hinsert]
  refine ⟨top, _, rfl, hmem, getElem?_setRight_self hat, hdata, ?_, hleft ▸ hother, hq⟩
  show ct.nDescend = _
  rw [hcount, hsize, HeapTree.size_insert]
  omega

end Placed

/-- A node without children is a heap. -/
theorem newTreeHeapAdd_nil (fuel : ℕ) (hn : m[node]? = some n) :
    ∃ q m', newTreeHeapAdd key fuel none node m = some (q, m') ∧
      Inserted key m A node n.data .nil q m' := by
  have hlt := (List.getElem?_eq_some_iff.mp hn).1
  refine ⟨_, _, newTreeHeapAdd_none fuel hn, ?_, ?_, ?_⟩
  · exact ⟨node, _, rfl, .inr (.inl rfl), List.getElem?_set_self hlt, rfl, rfl, rfl, rfl⟩
  · rw [List.length_set]
  · intro a _ hne
    rw [List.getElem?_set_ne hne.symm]

variable (key) in
/-- **Inserting** a node that no heap has yet. -/
theorem newTreeHeapAdd_spec (fuel : ℕ) : ∀ {A : Set ℕ} {p : Option ℕ} {t : HeapTree α} {node : ℕ}
    {n : TreeNode α} {m : Memory α}, HeapAt m A p t → t.size ≤ fuel →
    (∀ a ∈ A, a < m.length) → node ∉ A → m[node]? = some n →
    ∃ q m', newTreeHeapAdd key fuel p node m = some (q, m') ∧
      Inserted key m A node n.data t q m' := by
  induction fuel with
  | zero =>
    intro A p t node n m hrep hfuel _ _ hn
    cases t with
    | nil =>
      rw [show p = none from hrep]
      exact newTreeHeapAdd_nil 0 hn
    | node data l r => exact absurd hfuel (Nat.not_succ_le_zero _)
  | succ fuel ih =>
    intro A p t node n m hrep hfuel hA hnode hn
    cases t with
    | nil =>
      rw [show p = none from hrep]
      exact newTreeHeapAdd_nil (fuel + 1) hn
    | node data l r =>
      obtain ⟨heapRoot, old, rfl, _, hold, rfl, hsize, hl, hr⟩ := hrep
      have hlt := (List.getElem?_eq_some_iff.mp hn).1
      have hgrown : ∀ a < m.length, ∀ k, m[a]? = some k → (m ++ [old.grown])[a]? = some k :=
        fun a ha k hk => (List.getElem?_append_left ha).trans hk
      have hleft : goesLeft (m ++ [old.grown]) old = some (HeapTree.goLeft l r) :=
        goesLeft_eq (hl.keep subset_rfl fun a ha => hgrown a (hA a ha))
          (hr.keep subset_rfl fun a ha => hgrown a (hA a ha))
      have h : Placed m A node old _ _ _ _ _ := placed key hA hnode hn
      rw [newTreeHeapAdd_some hold hleft (hgrown node hlt n hn)]
      simp only [HeapTree.size] at hfuel ⊢
      generalize (if key n.data < key old.data then node else m.length) = top at h ⊢
      generalize (if key n.data < key old.data then m.length else node) = sub at h ⊢
      generalize (if key n.data < key old.data then
        (m ++ [old.grown]).set node (n.promoted old) else m ++ [old.grown]) = m₁ at h ⊢
      obtain ⟨cs, hcs, hdata⟩ := h.atSub
      have hA₁ : ∀ a ∈ A, a < m₁.length := by
        intro a ha
        have := hA a ha
        rw [h.length]
        omega
      have hl₁ := h.keep hA hnode hl
      have hr₁ := h.keep hA hnode hr
      by_cases hgo : HeapTree.goLeft l r = true
      · obtain ⟨q, m₂, hrun, hsub⟩ := ih hl₁ (by omega) hA₁ h.sub_notMem hcs
        rw [if_pos hgo, hrun]
        rw [hdata] at hsub
        refine ⟨top, _, rfl, h.inserted_left hA hsub hr₁ hsize ?_⟩
        simp only [HeapTree.insert, hgo, if_true]
      · obtain ⟨q, m₂, hrun, hsub⟩ := ih hr₁ (by omega) hA₁ h.sub_notMem hcs
        rw [if_neg hgo, hrun]
        rw [hdata] at hsub
        refine ⟨top, _, rfl, h.inserted_right hA hsub hl₁ hsize ?_⟩
        simp only [HeapTree.insert, hgo, Bool.false_eq_true, if_false]

end Insert

section Visits

variable {key : α → K}

/-- At `p` is an ordered and balanced heap that holds `held`. -/
def HoldsHeap (key : α → K) (m : Memory α) (p : Option ℕ) (held : Multiset α) : Prop :=
  ∃ t : HeapTree α, HeapAt m {a | a < m.length} p t ∧ t.Ordered key ∧ t.Balanced ∧ t.contents = held

/-- The heap of every state holds what was inserted on its way. -/
def Sidetracks.Sound (key : α → K) (s : Sidetracks α) : Prop :=
  ∀ i, HoldsHeap key s.memory (s.pathGraph i) (s.inserted i)

theorem HoldsHeap.none (m : Memory α) : HoldsHeap key m none 0 := ⟨.nil, rfl, trivial, trivial, rfl⟩

theorem HoldsHeap.keep {m m' : Memory α} {p : Option ℕ} {held : Multiset α} (h : HoldsHeap key m p held)
    (hsame : ∀ a < m.length, m'[a]? = m[a]?) (hlen : m.length ≤ m'.length) : HoldsHeap key m' p held := by
  rcases h with ⟨t, ht, hrest⟩
  refine ⟨t, ht.keep (fun a ha => lt_of_lt_of_le ha hlen) ?_, hrest⟩
  intro a ha n hn
  rw [hsame a ha, hn]

/-- A slot that is written, and those that are not. -/
theorem Sidetracks.Sound.update {s : Sidetracks α} {m : Memory α} {state : ℕ} {p : Option ℕ}
    {held : Multiset α} (h : s.Sound key) (hsame : ∀ a < s.memory.length, m[a]? = s.memory[a]?)
    (hlen : s.memory.length ≤ m.length) (hp : HoldsHeap key m p held) :
    Sidetracks.Sound key ⟨m, Function.update s.pathGraph state p,
      Function.update s.inserted state held⟩ := by
  intro i
  by_cases hi : i = state
  · subst hi
    simpa using hp
  · simpa [hi] using (h i).keep hsame hlen

theorem Sidetracks.Sound.prev {s : Sidetracks α} (h : s.Sound key) (pred : Option ℕ) :
    HoldsHeap key s.memory (pred.bind s.pathGraph) ((pred.map s.inserted).getD 0) := by
  cases pred with
  | none => exact HoldsHeap.none _
  | some pred => exact h pred

/-- **One visit** makes its heap and writes to no node of another. -/
theorem buildSidetracksHeap_sound {s : Sidetracks α} (h : s.Sound key) (visit : Visit α) :
    ∃ s', buildSidetracksHeap key visit s = some s' ∧ s'.Sound key ∧
      (∀ a < s.memory.length, s'.memory[a]? = s.memory[a]?) ∧
      ∀ i ≠ visit.state, s'.pathGraph i = s.pathGraph i := by
  have hother : ∀ p, ∀ i ≠ visit.state, Function.update s.pathGraph visit.state p i = s.pathGraph i :=
    fun p i hi => Function.update_of_ne hi _ _
  have hprev := h.prev visit.pred
  unfold buildSidetracksHeap
  cases visit.own with
  | none =>
    exact ⟨_, rfl, h.update (fun _ _ => rfl) le_rfl hprev, fun _ _ => rfl, hother _⟩
  | some own =>
    rcases hprev with ⟨t, ht, hordered, hbalanced, hcontents⟩
    have hgrown : ∀ a < s.memory.length, (s.memory ++ [own])[a]? = s.memory[a]? :=
      fun a ha => List.getElem?_append_left ha
    have hlen : (s.memory ++ [own]).length = s.memory.length + 1 := List.length_append
    have ht' : HeapAt (s.memory ++ [own]) {a | a < s.memory.length} _ t :=
      ht.keep subset_rfl fun a ha n hn => (hgrown a ha).trans hn
    have hbelow : ∀ a ∈ {a | a < s.memory.length}, a < (s.memory ++ [own]).length := by
      intro a ha
      rw [hlen]
      exact Nat.lt_succ_of_lt ha
    obtain ⟨q, m', hrun, hadded⟩ := newTreeHeapAdd_spec key _ ht' (size_le_levels ht) hbelow
      (lt_irrefl s.memory.length) List.getElem?_concat_length
    have hle : s.memory.length < m'.length := by
      have := hadded.length_le
      omega
    have hsame : ∀ a < s.memory.length, m'[a]? = s.memory[a]? := by
      intro a ha
      rw [hadded.same a (by omega) ha.ne, hgrown a ha]
    refine ⟨_, by simp only [hrun]; rfl, h.update hsame hle.le ?_, hsame, hother _⟩
    refine ⟨t.insert key own.data, hadded.heapAt.keep ?_ fun _ _ _ hn => hn,
      hordered.insert _, hbalanced.insert _, ?_⟩
    · intro a ha
      rcases ha with ha | rfl | ha
      · exact lt_trans ha hle
      · exact hle
      · exact ha.2
    · rw [HeapTree.contents_insert, hcontents]

end Visits

end Carmel
