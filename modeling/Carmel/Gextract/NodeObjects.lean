/-
# Tree nodes as objects

A `tree.Node` is an object that others refer to: its children are a list of references,
and `parent`, `order` and `length` are kept at the node. A program that changes trees
changes these attributes one at a time. Objects are numbered in the order of their
construction.
-/

import Carmel.Math.Outcomes

namespace Carmel.Gextract

open Carmel.Math

/-- What a list of children can contain. -/
inductive NodeValue
  | node (a : ℕ)
  | number (i : ℕ)
deriving DecidableEq

/-- The attributes of a `tree.Node`. A label may be `None`. -/
structure NodeObject (L : Type) where
  label : Option L
  children : List NodeValue
  parent : Option ℕ
  order : ℤ
  length : ℤ
deriving DecidableEq

abbrev NodeHeap (L : Type) := List (NodeObject L)

section Lists

variable {α : Type}

/-- The place that an index names. A negative one counts from the end. -/
def indexPlace (len : ℕ) (i : ℤ) : Option ℕ :=
  let j := if i < 0 then i + len else i
  if 0 ≤ j ∧ j < len then some j.toNat else none

/-- The place of a bound of a slice. -/
def sliceBound (len : ℕ) (i : ℤ) : ℕ := if i < 0 then (i + len).toNat else min i.toNat len

/-- `l[i:j] = xs`. -/
def setSlice (l : List α) (i j : ℤ) (xs : List α) : List α :=
  let start := sliceBound l.length i
  l.take start ++ xs ++ l.drop (max start (sliceBound l.length j))

/-- The list without its element at `i`, in the way of `delete_child`. -/
def deleteIndex (l : List α) (i : ℤ) : List α :=
  if i ≠ -1 then setSlice l i (i + 1) [] else setSlice l (-1) l.length []

/-- `range(i, j)`. -/
def rangeFrom (i j : ℤ) : List ℤ := (List.range (j - i).toNat).map fun k : ℕ => i + (k : ℤ)

end Lists

namespace NodeObject

variable {L : Type}

/-- The attributes of an object. -/
def load (a : ℕ) : Call (NodeHeap L) (NodeObject L) := .look fun s => s[a]?

/-- An assignment to attributes of an object. -/
def update (a : ℕ) (f : NodeObject L → NodeObject L) : Call (NodeHeap L) Unit :=
  .change fun s => s.modify a f

/-- The reference in a list of children. A number has none of the attributes. -/
def asNode : NodeValue → Call (NodeHeap L) ℕ
  | .node a => pure a
  | .number _ => .raise

/-- `self.children[i]`. -/
def childAt (self : ℕ) (i : ℤ) : Call (NodeHeap L) ℕ := do
  let n ← load self
  let v ← Call.look fun _ => (indexPlace n.children.length i).bind fun k => n.children[k]?
  asNode v

/-- The loop of `update_children` over the children from `i` on. -/
def updateFrom (self : ℕ) : ℕ → List NodeValue → Call (NodeHeap L) Unit
  | _, [] => pure ()
  | i, v :: vs => do
    let c ← asNode v
    update c fun m => { m with parent := some self }
    update c fun m => { m with order := i }
    let m ← load c
    update self fun n => { n with length := n.length + m.length }
    updateFrom self (i + 1) vs

/-- `update_children`. -/
def updateChildren (self : ℕ) : Call (NodeHeap L) Unit := do
  update self fun n => { n with length := 1 }
  let n ← load self
  updateFrom self 0 n.children
  update self fun n => { n with parent := none }
  update self fun n => { n with order := 0 }

/-- A new object. -/
def allocate (n : NodeObject L) : Call (NodeHeap L) ℕ := do
  let self ← Call.look fun s => some s.length
  Call.change fun s => s ++ [n]
  pure self

/-- `Node(label, children)`, with a list of its own. -/
def construct (label : Option L) (children : List ℕ) : Call (NodeHeap L) ℕ := do
  let self ← allocate ⟨label, children.map .node, none, 0, 0⟩
  updateChildren self
  pure self

/-- `append_child`. -/
def appendChild (self child : ℕ) : Call (NodeHeap L) Unit := do
  update child fun c => { c with parent := some self }
  let n ← load self
  let i := n.children.length
  update self fun n => { n with children := n.children ++ [.node child] }
  update self fun n => { n with children := n.children.set i (.number i) }
  let n ← load self
  let c ← load child
  if 1 < n.children.length then update self fun n => { n with length := n.length + c.length }
  else update self fun n => { n with length := c.length }

/-- The loop that sets the orders of the children at the indices `js`. -/
def setOrders (self : ℕ) : List ℤ → Call (NodeHeap L) Unit
  | [] => pure ()
  | j :: js => do
    let c ← childAt self j
    update c fun m => { m with order := j }
    setOrders self js

/-- `insert_child`. -/
def insertChild (self : ℕ) (i : ℤ) (child : ℕ) : Call (NodeHeap L) Unit := do
  update child fun c => { c with parent := some self }
  update self fun n => { n with children := setSlice n.children i i [.node child] }
  let n ← load self
  setOrders self (rangeFrom i n.children.length)
  let n ← load self
  let c ← load child
  if 1 < n.children.length then update self fun n => { n with length := n.length + c.length }
  else update self fun n => { n with length := c.length }

/-- `delete_child`. -/
def deleteChild (self : ℕ) (i : ℤ) : Call (NodeHeap L) Unit := do
  let c ← childAt self i
  update c fun m => { m with parent := none }
  update c fun m => { m with order := 0 }
  let m ← load c
  update self fun n => { n with length := n.length - m.length }
  update self fun n => { n with children := deleteIndex n.children i }
  let n ← load self
  setOrders self (rangeFrom i n.children.length)

/-- `detach`. -/
def detach (self : ℕ) : Call (NodeHeap L) Unit := do
  let n ← load self
  let p ← Call.look fun _ => n.parent
  deleteChild p n.order

/-- `delete_clean`. Every further call finds another node without children. -/
def deleteClean : ℕ → ℕ → Call (NodeHeap L) Unit
  | 0, _ => .stuck
  | fuel + 1, self => do
    let n ← load self
    detach self
    let p ← Call.look fun _ => n.parent
    let m ← load p
    if m.children.length = 0 then deleteClean fuel p else pure ()

/-- What a call brings for the children in turn. -/
def collect (f : ℕ → Call (NodeHeap L) (List ℕ)) : List NodeValue → Call (NodeHeap L) (List ℕ)
  | [] => pure []
  | v :: vs => do
    let c ← asNode v
    let out ← f c
    let outs ← collect f vs
    pure (out ++ outs)

/-- A copy without the subtrees that are not kept. A walk down does not get deeper than there
are nodes, unless it goes round. -/
def copyKept (keep : NodeHeap L → ℕ → Bool) (label : NodeHeap L → ℕ → Option L) :
    ℕ → ℕ → Call (NodeHeap L) (Option ℕ)
  | 0, _ => .stuck
  | fuel + 1, self => do
    let kept ← Call.look fun s => some (keep s self)
    if kept then
      let l ← Call.look fun s => some (label s self)
      let n ← load self
      let copies ← collect (fun c => do
        let k ← copyKept keep label fuel c
        pure k.toList) n.children
      let r ← construct l copies
      pure (some r)
    else pure none

/-- `filter`. -/
def filter (keep : NodeHeap L → ℕ → Bool) : ℕ → ℕ → Call (NodeHeap L) (Option ℕ) :=
  copyKept keep fun s a => (s[a]?).bind label

/-- `relabel`. -/
def relabel (newlabel : NodeHeap L → ℕ → Option L) : ℕ → ℕ → Call (NodeHeap L) (Option ℕ) :=
  copyKept (fun _ _ => true) newlabel

/-- The loop of `filter_inplace_children` over the children from `i` on, with `newc` and
`newi`. -/
def filterFrom (keep : NodeHeap L → ℕ → Bool) (fuel self : ℕ) (oldc : List NodeValue) :
    ℕ → List NodeValue → Option (List NodeValue) → ℕ → Call (NodeHeap L) (Option (List NodeValue))
  | _, [], newc, _ => pure newc
  | i, v :: vs, newc, newi => do
    let c ← asNode v
    let kc ← filter keep fuel c
    match kc, newc with
    | none, none => do
      update self fun n => { n with length := n.length - 1 }
      filterFrom keep fuel self oldc (i + 1) vs (some (oldc.take i)) i
    | none, some l => do
      update self fun n => { n with length := n.length - 1 }
      filterFrom keep fuel self oldc (i + 1) vs (some l) newi
    | some _, none => filterFrom keep fuel self oldc (i + 1) vs none (newi + 1)
    | some _, some l => do
      update c fun m => { m with order := newi }
      filterFrom keep fuel self oldc (i + 1) vs (some (l ++ [v])) (newi + 1)

/-- `filter_inplace`. -/
def filterInplace (keep : NodeHeap L → ℕ → Bool) (fuel self : ℕ) :
    Call (NodeHeap L) (Option ℕ) := do
  let kept ← Call.look fun s => some (keep s self)
  if kept then
    let n ← load self
    let newc ← filterFrom keep fuel self n.children 0 n.children none 0
    match newc with
    | none => pure (some self)
    | some l => do
      update self fun n => { n with children := l }
      pure (some self)
  else pure none

/-- `map_skipping_node`, with what `map_skipping_children` appends to the list of children. -/
def mapSkippingNodeWith (appended : ℕ → Call (NodeHeap L) (List ℕ)) (l : Option L) (self : ℕ) :
    Call (NodeHeap L) ℕ := do
  let n ← construct l []
  let outlist ← appended self
  update n fun m => { m with children := m.children ++ outlist.map .node }
  updateChildren n
  pure n

/-- `map_skipping_children`: what is appended to `outlist`. For each child that is the node of
its new label, or what comes of its own children, as `map_skipping_outlist` has it. -/
def mapSkippingChildren (f : Option L → Option L) : ℕ → ℕ → Call (NodeHeap L) (List ℕ)
  | 0, _ => .stuck
  | fuel + 1, self => do
    let n ← load self
    collect (fun c => do
      let m ← load c
      match f m.label with
      | none => mapSkippingChildren f fuel c
      | some l => do
        let r ← mapSkippingNodeWith (mapSkippingChildren f fuel) (some l) c
        pure [r]) n.children

/-- `map_skipping`. -/
def mapSkipping (f : Option L → Option L) (fuel self : ℕ) : Call (NodeHeap L) ℕ := do
  let n ← load self
  mapSkippingNodeWith (mapSkippingChildren f fuel) (f n.label) self

end NodeObject

end Carmel.Gextract

/-!
## When the attributes of nodes are right

`update_children` makes the attributes right for one node, as long as its children are
different and belong to nobody else.
-/

namespace Carmel.Gextract

open Carmel.Math

namespace NodeObject

variable {L : Type} {s s' : NodeHeap L} {n m : NodeObject L} {a b c : ℕ} {cs : List ℕ}

theorem update_bind {β : Type} (a : ℕ) (f : NodeObject L → NodeObject L)
    (k : Unit → Call (NodeHeap L) β) (s : NodeHeap L) :
    (update a f >>= k) s = k () (s.modify a f) := rfl

theorem load_bind {β : Type} (h : s[a]? = some n) (k : NodeObject L → Call (NodeHeap L) β) :
    (load a >>= k) s = k n s :=
  Call.look_bind (S := NodeHeap L) h k

theorem load_bind_none {β : Type} (h : s[a]? = none) (k : NodeObject L → Call (NodeHeap L) β) :
    (load a >>= k) s = some (none, s) :=
  Call.look_bind_none (S := NodeHeap L) h k

theorem exists_object (h : a < s.length) : ∃ n, s[a]? = some n :=
  ⟨_, List.getElem?_eq_getElem h⟩

theorem getElem?_modify_self (h : s[a]? = some n) (f : NodeObject L → NodeObject L) :
    (s.modify a f)[a]? = some (f n) := by
  rw [List.getElem?_modify, h]
  simp

theorem getElem?_modify_of_ne (h : b ≠ a) (f : NodeObject L → NodeObject L) :
    (s.modify a f)[b]? = s[b]? := by
  rw [List.getElem?_modify]
  cases s[b]? with
  | none => rfl
  | some n => simp [Ne.symm h]

/-- The length of a node. -/
def lengthAt (s : NodeHeap L) (c : ℕ) : ℤ := ((s[c]?).map NodeObject.length).getD 0

theorem lengthAt_eq (h : s[c]? = some m) : lengthAt s c = m.length := by
  rw [lengthAt, h]
  rfl

theorem lengthAt_congr (h : s'[c]? = s[c]?) : lengthAt s' c = lengthAt s c := by
  rw [lengthAt, lengthAt, h]

/-- Lengths add up to the same when those of the children are the same. -/
theorem sum_lengthAt_congr {t : NodeHeap L} (h : ∀ c ∈ cs, lengthAt t c = lengthAt s c) :
    (cs.map (lengthAt t)).sum = (cs.map (lengthAt s)).sum := by
  rw [List.map_congr_left h]

/-- What the loop of `update_children` does for the children `cs` from the place `i` on. -/
structure Adopted (a i : ℕ) (cs : List ℕ) (s s' : NodeHeap L) : Prop where
  size : s'.length = s.length
  top : ∀ n : NodeObject L, s[a]? = some n →
    s'[a]? = some { n with length := n.length + (cs.map (lengthAt s)).sum }
  child : ∀ j c, cs[j]? = some c → ∀ m : NodeObject L, s[c]? = some m →
    s'[c]? = some { m with parent := some a, order := (i + j : ℕ) }
  other : ∀ b, b ≠ a → b ∉ cs → s'[b]? = s[b]?

theorem exists_updateFrom {self : ℕ} (i : ℕ) (hnodup : cs.Nodup) (hself : self ∉ cs)
    (hcs : ∀ c ∈ cs, c < s.length) :
    ∃ s', updateFrom self i (cs.map .node) s = some (some (), s') ∧ Adopted self i cs s s' := by
  induction cs generalizing i s with
  | nil =>
    refine ⟨s, rfl, rfl, fun n hn => ?_, ?_, fun _ _ _ => rfl⟩
    · rw [hn, List.map_nil, List.sum_nil, Int.add_zero]
    · intro j c hc
      simp at hc
  | cons c cs ih =>
    rcases List.nodup_cons.mp hnodup with ⟨hnotin, hrest⟩
    have hne : c ≠ self := fun h => hself (h ▸ List.mem_cons_self)
    have hself' : self ∉ cs := fun h => hself (List.mem_cons_of_mem _ h)
    rcases exists_object (hcs c List.mem_cons_self) with ⟨m, hc⟩
    let s₁ := (s.modify c fun m : NodeObject L => { m with parent := some self }).modify c
      fun m : NodeObject L => { m with order := i }
    have hc₁ : s₁[c]? = some { m with parent := some self, order := i } :=
      getElem?_modify_self (getElem?_modify_self hc _) _
    have hother₁ : ∀ b, b ≠ c → s₁[b]? = s[b]? := fun b hb => by
      rw [getElem?_modify_of_ne hb, getElem?_modify_of_ne hb]
    let s₂ := s₁.modify self fun n : NodeObject L => { n with length := n.length + m.length }
    have hsize : s₂.length = s.length := by
      simp only [s₂, s₁, List.length_modify]
    have hother₂ : ∀ b, b ≠ self → s₂[b]? = s₁[b]? := fun b hb => getElem?_modify_of_ne hb _
    have hkept : ∀ b ∈ cs, s₂[b]? = s[b]? := by
      intro b hb
      have hbself : b ≠ self := fun h => hself' (h ▸ hb)
      have hbc : b ≠ c := fun h => hnotin (h ▸ hb)
      rw [hother₂ b hbself, hother₁ b hbc]
    rcases ih (i + 1) hrest hself' (fun b hb => hsize ▸ hcs b (List.mem_cons_of_mem _ hb)) with
      ⟨s', hrun, hadopted⟩
    refine ⟨s', ?_, hadopted.size.trans hsize, ?_, ?_, ?_⟩
    · change (load c >>= fun m => update self (fun n => { n with length := n.length + m.length })
        >>= fun _ => updateFrom self (i + 1) (cs.map .node)) s₁ = _
      rw [load_bind hc₁, update_bind]
      exact hrun
    · intro n hn
      have hn₂ : s₂[self]? = some { n with length := n.length + m.length } :=
        getElem?_modify_self ((hother₁ self (Ne.symm hne)).trans hn) _
      have hsum := sum_lengthAt_congr (s := s) (t := s₂) fun b hb => lengthAt_congr (hkept b hb)
      rw [hadopted.top _ hn₂, hsum, List.map_cons, List.sum_cons, lengthAt_eq hc, Int.add_assoc]
    · intro j b hb k hk
      cases j with
      | zero =>
        rw [List.getElem?_cons_zero] at hb
        cases hb
        rw [hc] at hk
        cases hk
        rw [hadopted.other c hne hnotin, hother₂ c hne, hc₁, Nat.add_zero]
      | succ j =>
        rw [List.getElem?_cons_succ] at hb
        have hmem := List.mem_of_getElem? hb
        rw [hadopted.child j b hb k ((hkept b hmem).trans hk)]
        congr 3
        omega
    · intro b hb hnot
      have hbc : b ≠ c := fun h => hnot (h ▸ List.mem_cons_self)
      have hbcs : b ∉ cs := fun h => hnot (List.mem_cons_of_mem _ h)
      rw [hadopted.other b hb hbcs, hother₂ b hb, hother₁ b hbc]

/-- What `update_children` does with a node that has the children `cs`. -/
structure Updated (a : ℕ) (cs : List ℕ) (s s' : NodeHeap L) : Prop where
  size : s'.length = s.length
  top : ∀ n : NodeObject L, s[a]? = some n → s'[a]? = some { n with
      parent := none, order := 0, length := 1 + (cs.map (lengthAt s)).sum }
  child : ∀ j c, cs[j]? = some c → ∀ m : NodeObject L, s[c]? = some m →
    s'[c]? = some { m with parent := some a, order := (j : ℕ) }
  other : ∀ b, b ≠ a → b ∉ cs → s'[b]? = s[b]?

theorem exists_updateChildren {self : ℕ} (hn : s[self]? = some n)
    (hchildren : n.children = cs.map .node) (hnodup : cs.Nodup) (hself : self ∉ cs)
    (hcs : ∀ c ∈ cs, c < s.length) :
    ∃ s', updateChildren self s = some (some (), s') ∧ Updated self cs s s' := by
  let s₁ := s.modify self fun n : NodeObject L => { n with length := 1 }
  have hn₁ : s₁[self]? = some { n with length := 1 } := getElem?_modify_self hn _
  have hkept : ∀ b, b ≠ self → s₁[b]? = s[b]? := fun b hb => getElem?_modify_of_ne hb _
  have hsize : s₁.length = s.length := List.length_modify ..
  rcases exists_updateFrom (s := s₁) 0 hnodup hself (fun c hc => hsize ▸ hcs c hc) with
    ⟨s₂, hrun, hadopted⟩
  have hsum : (cs.map (lengthAt s₁)).sum = (cs.map (lengthAt s)).sum := sum_lengthAt_congr fun c hc =>
    lengthAt_congr (hkept c fun h => hself (h ▸ hc))
  have hn₂ := hadopted.top _ hn₁
  refine ⟨(s₂.modify self fun n : NodeObject L => { n with parent := none }).modify self
    fun n : NodeObject L => { n with order := 0 }, ?_, ?_, ?_, ?_, ?_⟩
  · rw [updateChildren, update_bind, load_bind hn₁]
    simp only [hchildren]
    rw [Call.bind_of_returns hrun]
    rfl
  · rw [List.length_modify, List.length_modify, hadopted.size, hsize]
  · intro k hk
    rw [hn] at hk
    cases hk
    rw [getElem?_modify_self (getElem?_modify_self hn₂ _), hsum]
  · intro j c hc k hk
    have hne : c ≠ self := fun h => hself (h ▸ List.mem_of_getElem? hc)
    rw [getElem?_modify_of_ne hne, getElem?_modify_of_ne hne,
      hadopted.child j c hc k ((hkept c hne).trans hk), Nat.zero_add]
  · intro b hb hnot
    rw [getElem?_modify_of_ne hb, getElem?_modify_of_ne hb, hadopted.other b hb hnot, hkept b hb]

/-- The attributes of the node `a`, which are those of `n`, are right: the children are the
nodes `cs`, they know `a` and their places, and the length counts them. -/
structure NodeRight (s : NodeHeap L) (a : ℕ) (n : NodeObject L) (cs : List ℕ) : Prop where
  children : n.children = cs.map .node
  child : ∀ (i : ℕ) c, cs[i]? = some c → ∃ m : NodeObject L, s[c]? = some m ∧ m.parent = some a ∧ m.order = i
  length : n.length = 1 + (cs.map (lengthAt s)).sum
  pos : 0 < n.length

/-- All nodes but those of `X` are right, and all references are to nodes. -/
structure RightBut (s : NodeHeap L) (X : Set ℕ) : Prop where
  right : ∀ (b : ℕ) (n : NodeObject L), s[b]? = some n → b ∉ X → ∃ cs, NodeRight s b n cs
  closed : ∀ (b : ℕ) (n : NodeObject L), s[b]? = some n → ∀ c, .node c ∈ n.children → c < s.length

theorem RightBut.mono {X Y : Set ℕ} (h : RightBut s X) (hXY : X ⊆ Y) : RightBut s Y :=
  ⟨fun b n hn hb => h.right b n hn fun hX => hb (hXY hX), h.closed⟩

/-- `a` is nobody's child. -/
def Free (s : NodeHeap L) (a : ℕ) : Prop := ∀ (b : ℕ) (n : NodeObject L), s[b]? = some n → .node a ∉ n.children

theorem mem_children_iff (h : n.children = cs.map .node) : .node c ∈ n.children ↔ c ∈ cs := by
  rw [h, List.mem_map]
  constructor
  · intro ⟨b, hb, heq⟩
    cases heq
    exact hb
  · intro hc
    exact ⟨c, hc, rfl⟩

theorem NodeRight.nodup (h : NodeRight s a n cs) : cs.Nodup := by
  rw [List.nodup_iff_getElem?_ne_getElem?]
  intro i j hij hj heq
  have hc : cs[j]? = some cs[j] := List.getElem?_eq_getElem hj
  rcases h.child j _ hc with ⟨m, hm, -, horder⟩
  rcases h.child i _ (heq.trans hc) with ⟨m', hm', -, horder'⟩
  rw [hm] at hm'
  cases hm'
  omega

/-- A node is right where its children and its length are the same, and its children have the
attributes that they had. -/
theorem NodeRight.congr (h : NodeRight s a n cs) {n' : NodeObject L}
    (hchildren : n'.children = n.children) (hlength : n'.length = n.length)
    (hcs : ∀ c ∈ cs, ∀ m : NodeObject L, s[c]? = some m → ∃ m' : NodeObject L, s'[c]? = some m' ∧
      m'.parent = m.parent ∧ m'.order = m.order ∧ m'.length = m.length) : NodeRight s' a n' cs := by
  have hsum : (cs.map (lengthAt s')).sum = (cs.map (lengthAt s)).sum := by
    apply sum_lengthAt_congr
    intro c hc
    rcases List.mem_iff_getElem?.mp hc with ⟨i, hi⟩
    rcases h.child i c hi with ⟨m, hm, -⟩
    rcases hcs c hc m hm with ⟨m', hm', -, -, hlen⟩
    rw [lengthAt_eq hm, lengthAt_eq hm', hlen]
  refine ⟨hchildren.trans h.children, ?_, ?_, hlength ▸ h.pos⟩
  · intro i c hi
    rcases h.child i c hi with ⟨m, hm, hparent, horder⟩
    rcases hcs c (List.mem_of_getElem? hi) m hm with ⟨m', hm', hp, ho, -⟩
    exact ⟨m', hm', hp.trans hparent, ho.trans horder⟩
  · rw [hlength, h.length, hsum]

/-- After changes to the node `a` and to the places of the nodes `cs`. -/
structure Rearranged (a : ℕ) (cs : List ℕ) (s s' : NodeHeap L) : Prop where
  size : s'.length = s.length
  moved : ∀ b ∈ cs, b ≠ a → ∀ m' : NodeObject L, s'[b]? = some m' →
    ∃ m : NodeObject L, s[b]? = some m ∧ m'.children = m.children ∧ m'.length = m.length
  other : ∀ b, b ≠ a → b ∉ cs → s'[b]? = s[b]?

theorem Rearranged.exists_object (h : Rearranged a cs s s') (hb : b ≠ a) (hn : s'[b]? = some n) :
    ∃ m : NodeObject L, s[b]? = some m ∧ n.children = m.children ∧ n.length = m.length := by
  by_cases hmem : b ∈ cs
  · exact h.moved b hmem hb n hn
  · exact ⟨n, (h.other b hb hmem).symm.trans hn, rfl, rfl⟩

/-- The nodes `cs` are children of no node but `a`, and `a` of no other node. -/
def OwnedBy (s : NodeHeap L) (a : ℕ) (cs : List ℕ) : Prop :=
  ∀ (b : ℕ) (n : NodeObject L), s[b]? = some n → b ≠ a → ∀ c ∈ a :: cs, .node c ∉ n.children

theorem NodeRight.lt (h : NodeRight s a n cs) (hc : c ∈ cs) : c < s.length := by
  rcases List.mem_iff_getElem?.mp hc with ⟨i, hi⟩
  rcases h.child i c hi with ⟨m, hm, -⟩
  exact (List.getElem?_eq_some_iff.mp hm).1

/-- If `a` is right after that and had the nodes `cs` for itself, all nodes are right. -/
theorem Rearranged.rightBut (h : Rearranged a cs s s') {X : Set ℕ} (hs : RightBut s (insert a X))
    (howned : OwnedBy s a cs)
    (ha : ∀ n : NodeObject L, s'[a]? = some n → ∃ ds, NodeRight s' a n ds) : RightBut s' X := by
  constructor
  · intro b n hn hX
    by_cases hb : b = a
    · subst hb
      exact ha n hn
    · rcases h.exists_object hb hn with ⟨m, hm, hchildren, hlength⟩
      have hnot : b ∉ insert a X := by
        rw [Set.mem_insert_iff]
        intro hor
        rcases hor with heq | hmem
        · exact hb heq
        · exact hX hmem
      rcases hs.right b m hm hnot with ⟨ds, hds⟩
      refine ⟨ds, hds.congr hchildren hlength fun c hc k hk => ?_⟩
      have hmem := (mem_children_iff hds.children).mpr hc
      have hca : c ≠ a := fun heq => howned b m hm hb a List.mem_cons_self (heq ▸ hmem)
      have hccs : c ∉ cs := fun hin => howned b m hm hb c (List.mem_cons_of_mem _ hin) hmem
      exact ⟨k, (h.other c hca hccs).trans hk, rfl, rfl, rfl⟩
  · intro b n hn c hc
    by_cases hb : b = a
    · subst hb
      rcases ha n hn with ⟨ds, hds⟩
      exact hds.lt ((mem_children_iff hds.children).mp hc)
    · rcases h.exists_object hb hn with ⟨m, hm, hchildren, -⟩
      rw [h.size]
      exact hs.closed b m hm c (hchildren ▸ hc)

/-- A node that `a` does not get stays free. -/
theorem Rearranged.free (h : Rearranged a cs s s')
    (hb : ∀ n : NodeObject L, s'[a]? = some n → .node b ∉ n.children) (hfree : Free s b) :
    Free s' b := by
  intro d n hn
  by_cases hd : d = a
  · subst hd
    exact hb n hn
  · rcases h.exists_object hd hn with ⟨m, hm, hchildren, -⟩
    rw [hchildren]
    exact hfree d m hm

theorem Updated.rearranged (h : Updated a cs s s') : Rearranged a cs s s' := by
  refine ⟨h.size, ?_, h.other⟩
  intro b hb hne m' hm'
  have hlt : b < s.length := by
    rw [← h.size]
    exact (List.getElem?_eq_some_iff.mp hm').1
  rcases NodeObject.exists_object hlt with ⟨m, hm⟩
  rcases List.mem_iff_getElem?.mp hb with ⟨j, hj⟩
  rw [h.child j b hj m hm] at hm'
  cases hm'
  exact ⟨m, hm, rfl, rfl⟩

theorem sum_lengthAt_nonneg (h : ∀ c ∈ cs, ∀ m : NodeObject L, s[c]? = some m → 0 < m.length) :
    0 ≤ (cs.map (lengthAt s)).sum := by
  apply List.sum_nonneg
  intro x hx
  rcases List.mem_map.mp hx with ⟨c, hc, rfl⟩
  rw [lengthAt]
  cases hm : s[c]? with
  | none => exact Int.le_refl 0
  | some m => exact Int.le_of_lt (h c hc m hm)

theorem Updated.nodeRight (h : Updated a cs s s') (hchildren : n.children = cs.map .node)
    (hcs : ∀ c ∈ cs, ∃ m : NodeObject L, s[c]? = some m ∧ 0 < m.length) :
    NodeRight s' a { n with parent := none, order := 0, length := 1 + (cs.map (lengthAt s)).sum }
      cs := by
  have hsum : (cs.map (lengthAt s')).sum = (cs.map (lengthAt s)).sum := by
    apply sum_lengthAt_congr
    intro c hc
    rcases List.mem_iff_getElem?.mp hc with ⟨j, hj⟩
    rcases hcs c hc with ⟨m, hm, -⟩
    rw [lengthAt_eq (h.child j c hj m hm), lengthAt_eq hm]
  refine ⟨hchildren, ?_, by rw [hsum], ?_⟩
  · intro i c hi
    rcases hcs c (List.mem_of_getElem? hi) with ⟨m, hm, -⟩
    exact ⟨_, h.child i c hi m hm, rfl, rfl⟩
  · have hnonneg : 0 ≤ (cs.map (lengthAt s)).sum := by
      apply sum_lengthAt_nonneg
      intro c hc m hm
      rcases hcs c hc with ⟨m', hm', hpos⟩
      rw [hm] at hm'
      cases hm'
      exact hpos
    change 0 < 1 + _
    omega

theorem exists_construct (l : Option L) (hnodup : cs.Nodup) (hcs : ∀ c ∈ cs, c < s.length) :
    ∃ s', construct l cs s = some (some s.length, s') ∧
      Updated s.length cs (s ++ [⟨l, cs.map .node, none, 0, 0⟩]) s' := by
  have hself : s.length ∉ cs := fun h => absurd (hcs _ h) (Nat.lt_irrefl _)
  rcases exists_updateChildren (s := s ++ [⟨l, cs.map .node, none, 0, 0⟩])
    List.getElem?_concat_length rfl hnodup hself (fun c hc => by
      rw [List.length_append]
      exact Nat.lt_add_right _ (hcs c hc)) with ⟨s', hrun, hupdated⟩
  refine ⟨s', ?_, hupdated⟩
  change (updateChildren s.length >>= fun _ => pure s.length) (s ++ [_]) = _
  rw [Call.bind_of_returns hrun]
  rfl

theorem RightBut.append {X : Set ℕ} (hs : RightBut s X)
    (hn : ∀ c, .node c ∈ n.children → c < s.length) :
    RightBut (s ++ [n]) (insert s.length X) := by
  have hold : ∀ (b : ℕ) (m : NodeObject L), (s ++ [n])[b]? = some m → b ≠ s.length →
      s[b]? = some m := by
    intro b m hm hb
    have hlt := (List.getElem?_eq_some_iff.mp hm).1
    rw [List.length_append, List.length_singleton] at hlt
    rwa [List.getElem?_append_left (by omega)] at hm
  constructor
  · intro b m hm hX
    have hb : b ≠ s.length := fun h => hX (h ▸ Set.mem_insert _ _)
    rcases hs.right b m (hold b m hm hb) fun h => hX (Set.mem_insert_of_mem _ h) with ⟨ds, hds⟩
    refine ⟨ds, hds.congr rfl rfl fun c hc k hk => ⟨k, ?_, rfl, rfl, rfl⟩⟩
    rw [List.getElem?_append_left (hds.lt hc), hk]
  · intro b m hm c hc
    rw [List.length_append]
    apply Nat.lt_add_right
    by_cases hb : b = s.length
    · subst hb
      rw [List.getElem?_concat_length] at hm
      cases hm
      exact hn c hc
    · exact hs.closed b m (hold b m hm hb) c hc

/-- A node constructed from free nodes is right, and the others stay so. -/
theorem Updated.rightBut_construct {l : Option L} {X : Set ℕ}
    (h : Updated s.length cs (s ++ [⟨l, cs.map .node, none, 0, 0⟩]) s') (hs : RightBut s X)
    (hX : ∀ c ∈ cs, c ∉ X) (hcs : ∀ c ∈ cs, c < s.length) (hfree : ∀ c ∈ cs, Free s c) :
    RightBut s' X := by
  have happend := hs.append (n := ⟨l, cs.map .node, none, 0, 0⟩) fun c hc =>
    hcs c ((mem_children_iff rfl).mp hc)
  apply h.rearranged.rightBut happend
  · intro b m hm hb c hc hmem
    have hlt := (List.getElem?_eq_some_iff.mp hm).1
    rw [List.length_append, List.length_singleton] at hlt
    rw [List.getElem?_append_left (by omega)] at hm
    rcases List.mem_cons.mp hc with rfl | hc
    · exact absurd (hs.closed b m hm _ hmem) (Nat.lt_irrefl _)
    · exact hfree c hc b m hm hmem
  · intro n hn
    rw [h.top _ List.getElem?_concat_length] at hn
    cases hn
    refine ⟨cs, h.nodeRight rfl fun c hc => ?_⟩
    have hlt := hcs c hc
    rcases exists_object hlt with ⟨m, hm⟩
    rcases hs.right c m hm (hX c hc) with ⟨ds, hds⟩
    exact ⟨m, by rw [List.getElem?_append_left hlt, hm], hds.pos⟩

end NodeObject

end Carmel.Gextract
