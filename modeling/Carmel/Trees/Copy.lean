/-
# Assigning and copying trees

A `tree` owns its nodes through raw pointers to children. `copy_deep` clears its target
and makes new nodes for everything below. The copy constructors copy into the new tree;
`operator =` clears its argument and copies the assigned tree into it.
-/

import Carmel.Math.Instances

namespace Carmel.Trees

variable {L : Type}

section Code

/-- A node: its label and its array of children, which may be null. -/
structure Cell (L : Type) where
  label : L
  children : List (Option ℕ)

/-- The nodes that there are; nothing is stored from `next` on. -/
structure Heap (L : Type) where
  cells : ℕ → Option (Cell L)
  next : ℕ
  fresh : ∀ a, next ≤ a → cells a = none

namespace Heap

theorem lt_next {h : Heap L} {a : ℕ} (ha : (h.cells a).isSome) : a < h.next := by
  by_contra hle
  rw [h.fresh a (Nat.le_of_not_lt hle)] at ha
  exact absurd ha Bool.false_ne_true

/-- What is there is replaced, or freed. -/
def put (h : Heap L) (a : ℕ) (cell : Option (Cell L)) : Option (Heap L) :=
  if ha : (h.cells a).isSome then
    some ⟨Function.update h.cells a cell, h.next, fun x hx => by
      have hlt := lt_next ha
      rw [Function.update_of_ne (by omega), h.fresh x hx]⟩
  else none

/-- `new to_type`. -/
def alloc [Inhabited L] (h : Heap L) : Heap L :=
  ⟨Function.update h.cells h.next (some ⟨default, []⟩), h.next + 1, fun x hx => by
    rw [Function.update_of_ne (by omega), h.fresh x (by omega)]⟩

/-- `delete *i` for the children that are not null, and so for all nodes below. -/
def deleteAll : ℕ → Heap L → List (Option ℕ) → Option (Heap L)
  | 0, _, _ => none
  | _ + 1, h, [] => some h
  | fuel + 1, h, none :: rest => deleteAll fuel h rest
  | fuel + 1, h, some a :: rest => do
    let cell ← h.cells a
    let h ← deleteAll fuel h cell.children
    deleteAll fuel (← h.put a none) rest

/-- `tree::clear`. A tree has no more nodes than there are addresses. -/
def clear (h : Heap L) (a : ℕ) : Option (Heap L) := do
  let cell ← h.cells a
  let h ← deleteAll (h.next + 1) h cell.children
  h.put a (some ⟨cell.label, []⟩)

/-- The loop of `copy_deep` from the child at `i` on, with `copy_deep` for each new child. The
children of a new child are not there yet, so that there is nothing to clear in it. -/
def copyChildren [Inhabited L] : ℕ → Heap L → ℕ → ℕ → List (Option ℕ) → Option (Heap L)
  | 0, _, _, _, _ => none
  | _ + 1, h, _, _, [] => some h
  | _ + 1, _, _, _, none :: _ => none
  | fuel + 1, h, dest, i, some a :: rest => do
    let child := h.next
    let h := h.alloc
    let cell ← h.cells dest
    let h ← h.put dest (some { cell with children := cell.children.set i (some child) })
    let source ← h.cells a
    let h ← h.put child (some ⟨source.label, List.replicate source.children.length none⟩)
    let h ← copyChildren fuel h child 0 source.children
    copyChildren fuel h dest (i + 1) rest

/-- `copy_deep` of the tree at `a` to the one at `dest`. -/
def copyDeep [Inhabited L] (h : Heap L) (a dest : ℕ) : Option (Heap L) := do
  let h ← h.clear dest
  let source ← h.cells a
  let h ← h.put dest (some ⟨source.label, List.replicate source.children.length none⟩)
  copyChildren (h.next + 1) h dest 0 source.children

/-- `a = o`. -/
def assign [Inhabited L] (h : Heap L) (a o : ℕ) : Option (Heap L) := do
  let h ← h.clear o
  copyDeep h a o

/-- `tree(self_type const& o)`, and `tree(shared const& o)`: the new tree is at the old `next`. -/
def copyConstruct [Inhabited L] (h : Heap L) (o : ℕ) : Option (Heap L × ℕ) :=
  (copyDeep h.alloc o h.next).map fun h' => (h', h.next)

end Heap

end Code

/-- Trees behind one another: each has its label and its children. -/
inductive Forest (L : Type)
  | nil
  | node (label : L) (children rest : Forest L)
deriving DecidableEq

/-- A tree. -/
structure Tree (L : Type) where
  label : L
  children : Forest L
deriving DecidableEq

/-- The children that the pointers lead to, and the nodes that are reached. -/
inductive Represents (h : Heap L) : List (Option ℕ) → Forest L → List ℕ → Prop
  | nil : Represents h [] .nil []
  | node {a : ℕ} {label : L} {kids rest : List (Option ℕ)} {ts us : Forest L} {f g : List ℕ}
      (ha : h.cells a = some ⟨label, kids⟩) (hkids : Represents h kids ts f)
      (hrest : Represents h rest us g) :
      Represents h (some a :: rest) (.node label ts us) (a :: (f ++ g))

/-- The tree at `a`, whose other nodes are `f`; no node is reached twice. -/
structure IsTree (h : Heap L) (a : ℕ) (t : Tree L) (f : List ℕ) : Prop where
  children : ∃ kids, h.cells a = some ⟨t.label, kids⟩ ∧ Represents h kids t.children f
  nodup : (a :: f).Nodup

variable {h h' : Heap L} {ps kids : List (Option ℕ)} {ts : Forest L} {t : Tree L} {f : List ℕ}
  {a b x : ℕ}

theorem Represents.congr (hr : Represents h ps ts f) (hsame : ∀ x ∈ f, h'.cells x = h.cells x) :
    Represents h' ps ts f := by
  induction hr with
  | nil => exact .nil
  | node ha _ _ ihkids ihrest =>
    have hhead := hsame _ List.mem_cons_self
    apply Represents.node (hhead.trans ha)
    · exact ihkids fun x hx => hsame x (List.mem_cons_of_mem _ (List.mem_append_left _ hx))
    · exact ihrest fun x hx => hsame x (List.mem_cons_of_mem _ (List.mem_append_right _ hx))

theorem Represents.isSome (hr : Represents h ps ts f) : ∀ x ∈ f, (h.cells x).isSome := by
  induction hr with
  | nil => simp
  | node ha _ _ ihkids ihrest =>
    intro x hx
    rcases List.mem_cons.mp hx with rfl | hx
    · rw [ha]
      rfl
    · exact (List.mem_append.mp hx).elim (ihkids x) (ihrest x)

theorem Represents.lt_next (hr : Represents h ps ts f) (hx : x ∈ f) : x < h.next :=
  Heap.lt_next (hr.isSome x hx)

theorem Represents.unique (hr : Represents h ps ts f) : ∀ {us : Forest L} {g : List ℕ},
    Represents h ps us g → ts = us := by
  induction hr with
  | nil =>
    intro us g hus
    cases hus
    rfl
  | node ha _ _ ihkids ihrest =>
    intro us g hus
    cases hus with
    | node ha' hkids' hrest' =>
      obtain ⟨rfl, rfl⟩ := Cell.mk.inj (Option.some.inj (ha.symm.trans ha'))
      rw [ihkids hkids', ihrest hrest']

theorem IsTree.unique {u : Tree L} {g : List ℕ} (ht : IsTree h a t f) (hu : IsTree h a u g) :
    t = u := by
  obtain ⟨kids, ha, hkids⟩ := ht.children
  obtain ⟨kids', ha', hkids'⟩ := hu.children
  obtain ⟨hlabel, rfl⟩ := Cell.mk.inj (Option.some.inj (ha.symm.trans ha'))
  cases t
  cases u
  exact congr (congrArg Tree.mk hlabel) (hkids.unique hkids')

theorem IsTree.congr (ht : IsTree h a t f) (hsame : ∀ x ∈ a :: f, h'.cells x = h.cells x) :
    IsTree h' a t f := by
  obtain ⟨kids, ha, hkids⟩ := ht.children
  refine ⟨⟨kids, (hsame a List.mem_cons_self).trans ha, ?_⟩, ht.nodup⟩
  exact hkids.congr fun x hx => hsame x (List.mem_cons_of_mem a hx)

theorem Represents.length_le (hr : Represents h ps ts f) (hf : f.Nodup) : f.length ≤ h.next := by
  have hsub : f ⊆ List.range h.next := fun x hx => List.mem_range.mpr (hr.lt_next hx)
  have hle := (hf.subperm hsub).length_le
  rwa [List.length_range] at hle

theorem Heap.exists_put {cell : Cell L} (ha : h.cells a = some cell) (new : Option (Cell L)) :
    ∃ h', h.put a new = some h' ∧ h'.next = h.next ∧ h'.cells = Function.update h.cells a new := by
  have hsome : (h.cells a).isSome := by
    rw [ha]
    rfl
  exact ⟨_, dif_pos hsome, rfl, rfl⟩

/-- The nodes below are freed, and nothing else happens. -/
theorem deleteAll_spec (ts : Forest L) : ∀ {h : Heap L} {ps : List (Option ℕ)} {f : List ℕ}
    {fuel : ℕ}, Represents h ps ts f → f.Nodup → f.length < fuel →
    ∃ h', Heap.deleteAll fuel h ps = some h' ∧ h'.next = h.next ∧
      ∀ x, x ∉ f → h'.cells x = h.cells x := by
  induction ts with
  | nil =>
    intro h ps f fuel hr _ hfuel
    cases hr
    obtain ⟨n, rfl⟩ : ∃ n, fuel = n + 1 := ⟨fuel - 1, by omega⟩
    exact ⟨h, rfl, rfl, fun _ _ => rfl⟩
  | node label ts us ihts ihus =>
    intro h ps f fuel hr hnodup hfuel
    cases hr with
    | node ha hkids hrest =>
      rename_i a kids rest f g
      obtain ⟨n, rfl⟩ : ∃ n, fuel = n + 1 := ⟨fuel - 1, by omega⟩
      obtain ⟨hmem, happ⟩ := List.nodup_cons.mp hnodup
      obtain ⟨hf, hg, hapart⟩ := List.nodup_append'.mp happ
      simp only [List.length_cons, List.length_append] at hfuel
      obtain ⟨h₁, hdelete, hnext₁, hsame₁⟩ := ihts hkids hf (by omega : f.length < n)
      have ha₁ : h₁.cells a = some ⟨label, kids⟩ := by
        rw [hsame₁ a fun h => hmem (List.mem_append_left g h), ha]
      obtain ⟨h₂, hfree, hnext₂, hcells₂⟩ := Heap.exists_put ha₁ none
      have hsame₂ : ∀ x, x ≠ a → x ∉ f → h₂.cells x = h.cells x := by
        intro x hxa hxf
        rw [hcells₂, Function.update_of_ne hxa, hsame₁ x hxf]
      have hrest₂ : Represents h₂ rest us g := by
        apply hrest.congr
        intro x hx
        refine hsame₂ x (fun hxa => hmem ?_) fun hxf => hapart hxf hx
        exact List.mem_append_right f (hxa ▸ hx)
      obtain ⟨h₃, hrun, hnext₃, hsame₃⟩ := ihus hrest₂ hg (by omega : g.length < n)
      refine ⟨h₃, ?_, by rw [hnext₃, hnext₂, hnext₁], ?_⟩
      · rw [Heap.deleteAll, ha]
        simp only [Option.bind_eq_bind, Option.bind_some, hdelete, hfree, hrun]
      · intro x hx
        obtain ⟨hxa, hx⟩ := not_or.mp (fun h => hx (List.mem_cons.mpr h))
        obtain ⟨hxf, hxg⟩ := not_or.mp (fun h => hx (List.mem_append.mpr h))
        rw [hsame₃ x hxg, hsame₂ x hxa hxf]

theorem IsTree.clear (ht : IsTree h a t f) : ∃ h', h.clear a = some h' ∧ h'.next = h.next ∧
    h'.cells a = some ⟨t.label, []⟩ ∧ ∀ x, x ∉ a :: f → h'.cells x = h.cells x := by
  obtain ⟨kids, ha, hkids⟩ := ht.children
  obtain ⟨hmem, hf⟩ := List.nodup_cons.mp ht.nodup
  have hlen := hkids.length_le hf
  obtain ⟨h₁, hdelete, hnext₁, hsame₁⟩ := deleteAll_spec _ hkids hf (by omega : f.length < h.next + 1)
  have ha₁ : h₁.cells a = some ⟨t.label, kids⟩ := (hsame₁ a hmem).trans ha
  obtain ⟨h₂, hput, hnext₂, hcells₂⟩ := Heap.exists_put ha₁ (some ⟨t.label, []⟩)
  refine ⟨h₂, ?_, hnext₂.trans hnext₁, by rw [hcells₂, Function.update_self], ?_⟩
  · rw [Heap.clear, ha]
    simp only [Option.bind_eq_bind, Option.bind_some, hdelete, hput]
  · intro x hx
    obtain ⟨hxa, hxf⟩ := not_or.mp (fun h => hx (List.mem_cons.mpr h))
    rw [hcells₂, Function.update_of_ne hxa, hsame₁ x hxf]

/-- What copying leaves: the old nodes are as they were, but for the one copied to, and its new
children and all below them are new nodes. -/
structure Copied (h h' : Heap L) (dest : ℕ) (label : L) (before : List (Option ℕ)) (ts : Forest L) :
    Prop where
  next_le : h.next ≤ h'.next
  old : ∀ x, x < h.next → x ≠ dest → h'.cells x = h.cells x
  new : ∃ kids f, h'.cells dest = some ⟨label, before ++ kids⟩ ∧ Represents h' kids ts f ∧ f.Nodup ∧
    ∀ x ∈ f, h.next ≤ x

theorem copyChildren_spec [Inhabited L] (ts : Forest L) : ∀ {h : Heap L} {kids : List (Option ℕ)}
    {f : List ℕ} {fuel dest : ℕ} {label : L} {before : List (Option ℕ)}, Represents h kids ts f →
    dest ∉ f → f.length < fuel →
    h.cells dest = some ⟨label, before ++ List.replicate kids.length none⟩ →
    ∃ h', Heap.copyChildren fuel h dest before.length kids = some h' ∧
      Copied h h' dest label before ts := by
  induction ts with
  | nil =>
    intro h kids f fuel dest label before hr _ hfuel hdest
    cases hr
    obtain ⟨n, rfl⟩ : ∃ n, fuel = n + 1 := ⟨fuel - 1, by omega⟩
    exact ⟨h, rfl, Nat.le_refl _, fun _ _ _ => rfl, [], [], hdest, .nil, List.nodup_nil, by simp⟩
  | node l ts us ihts ihus =>
    intro h kids f fuel dest label before hr hnot hfuel hdest
    cases hr with
    | node ha hkids hrest =>
      rename_i a kids rest f g
      obtain ⟨n, rfl⟩ : ∃ n, fuel = n + 1 := ⟨fuel - 1, by omega⟩
      simp only [List.length_cons, List.length_append] at hfuel
      have hdestlt : dest < h.next := Heap.lt_next (by rw [hdest]; rfl)
      have halt : a < h.next := Heap.lt_next (by rw [ha]; rfl)
      -- the new child, its place in the array, and its own array
      have hnew : ∀ x, x ≠ h.next → h.alloc.cells x = h.cells x :=
        fun x hx => Function.update_of_ne hx _ _
      have hdest₁ : h.alloc.cells dest = some ⟨label, before ++ none :: List.replicate rest.length none⟩ := by
        rw [hnew dest (by omega), hdest]
        rfl
      obtain ⟨h₂, hput₂, hnext₂, hcells₂⟩ := Heap.exists_put hdest₁
        (some ⟨label, (before ++ none :: List.replicate rest.length none).set before.length
          (some h.next)⟩)
      have ha₂ : h₂.cells a = some ⟨l, kids⟩ := by
        rw [hcells₂, Function.update_of_ne, hnew a (by omega), ha]
        rintro rfl
        exact hnot List.mem_cons_self
      have hchild₂ : h₂.cells h.next = some ⟨default, []⟩ := by
        rw [hcells₂, Function.update_of_ne (by omega)]
        exact Function.update_self _ _ _
      obtain ⟨h₃, hput₃, hnext₃, hcells₃⟩ := Heap.exists_put hchild₂
        (some ⟨l, List.replicate kids.length none⟩)
      have hnexts : h₃.next = h.next + 1 := hnext₃.trans hnext₂
      have hold₃ : ∀ x, x < h.next → x ≠ dest → h₃.cells x = h.cells x := by
        intro x hx hxd
        rw [hcells₃, Function.update_of_ne (by omega), hcells₂, Function.update_of_ne hxd,
          hnew x (by omega)]
      have hdest₃ : h₃.cells dest = some ⟨label, (before ++ [some h.next]) ++
          List.replicate rest.length none⟩ := by
        rw [hcells₃, Function.update_of_ne (by omega), hcells₂, Function.update_self,
          List.set_append_right _ _ (Nat.le_refl _), Nat.sub_self]
        simp
      have hkids₃ : Represents h₃ kids ts f := by
        apply hkids.congr
        intro x hx
        apply hold₃ x (hkids.lt_next hx)
        rintro rfl
        exact hnot (List.mem_cons_of_mem a (List.mem_append_left g hx))
      have hchild₃ : h₃.cells h.next = some ⟨l, [] ++ List.replicate kids.length none⟩ := by
        rw [hcells₃, Function.update_self]
        rfl
      obtain ⟨h₄, hrun₄, hcopied₄⟩ := ihts hkids₃
        (fun hx => Nat.lt_irrefl _ (hkids.lt_next hx)) (by omega : f.length < n) hchild₃
      obtain ⟨kids', f', hchild₄, hkids₄, hf', hnew₄⟩ := hcopied₄.new
      have hnext₄ := hcopied₄.next_le
      have hold₄ : ∀ x, x < h.next → x ≠ dest → h₄.cells x = h.cells x := by
        intro x hx hxd
        rw [hcopied₄.old x (by omega) (by omega), hold₃ x hx hxd]
      have hrest₄ : Represents h₄ rest us g := by
        apply hrest.congr
        intro x hx
        apply hold₄ x (hrest.lt_next hx)
        rintro rfl
        exact hnot (List.mem_cons_of_mem a (List.mem_append_right f hx))
      have hdest₄ : h₄.cells dest = some ⟨label, (before ++ [some h.next]) ++
          List.replicate rest.length none⟩ := by
        rw [hcopied₄.old dest (by omega) (by omega), hdest₃]
      obtain ⟨h₅, hrun₅, hcopied₅⟩ := ihus hrest₄
        (fun hx => hnot (List.mem_cons_of_mem a (List.mem_append_right f hx)))
        (by omega : g.length < n) hdest₄
      obtain ⟨rest', g', hdest₅, hrest₅, hg', hnew₅⟩ := hcopied₅.new
      have hnext₅ := hcopied₅.next_le
      -- the first child and what is below it stay as they are
      have hold₅ : ∀ x, h.next ≤ x → x < h₄.next → h₅.cells x = h₄.cells x :=
        fun x hx hx' => hcopied₅.old x hx' (by omega)
      refine ⟨h₅, ?_, by omega, ?_, some h.next :: rest', h.next :: (f' ++ g'), ?_, ?_, ?_, ?_⟩
      · rw [Heap.copyChildren]
        simp only [Option.bind_eq_bind, Option.bind_some, hdest₁, hput₂, ha₂, hput₃]
        rw [List.length_append, List.length_singleton] at hrun₅
        rw [List.length_nil] at hrun₄
        rw [hrun₄, Option.bind_some, hrun₅]
      · intro x hx hxd
        rw [hcopied₅.old x (by omega) hxd, hold₄ x hx hxd]
      · rw [hdest₅, List.append_assoc]
        rfl
      · apply Represents.node
        · rw [hold₅ h.next (Nat.le_refl _) (by omega), hchild₄]
        · refine hkids₄.congr fun x hx => hold₅ x ?_ (hkids₄.lt_next hx)
          have hge := hnew₄ x hx
          omega
        · exact hrest₅
      · have hbelow : ∀ x ∈ f', x < h₄.next := fun x hx => hkids₄.lt_next hx
        rw [List.nodup_cons, List.nodup_append']
        refine ⟨fun hx => ?_, hf', hg', fun x hx hx' => ?_⟩
        · rcases List.mem_append.mp hx with hx | hx
          · have hge := hnew₄ _ hx
            omega
          · have hge := hnew₅ _ hx
            omega
        · have hge := hnew₅ x hx'
          have hlt := hbelow x hx
          omega
      · intro x hx
        rcases List.mem_cons.mp hx with rfl | hx
        · exact Nat.le_refl _
        rcases List.mem_append.mp hx with hx | hx
        · have hge := hnew₄ x hx
          omega
        · have hge := hnew₅ x hx
          omega

/-- What `copy_deep` leaves: an equal tree of new nodes. -/
theorem IsTree.copyDeep [Inhabited L] {u : Tree L} {g : List ℕ} (ht : IsTree h a t f)
    (hu : IsTree h b u g) (hapart : List.Disjoint (a :: f) (b :: g)) :
    ∃ h' g', h.copyDeep a b = some h' ∧ IsTree h' a t f ∧ IsTree h' b t g' ∧
      List.Disjoint (a :: f) (b :: g') := by
  obtain ⟨h₁, hclear, hnext₁, hb₁, hsame₁⟩ := hu.clear
  have ht₁ : IsTree h₁ a t f := ht.congr fun x hx => hsame₁ x fun hx' => hapart hx hx'
  obtain ⟨kids, ha₁, hkids₁⟩ := ht₁.children
  obtain ⟨h₂, hput, hnext₂, hcells₂⟩ := Heap.exists_put hb₁
    (some ⟨t.label, List.replicate kids.length none⟩)
  have hbnot : ∀ x, x ∈ a :: f → x ≠ b := fun x hx hxb => hapart hx (hxb ▸ List.mem_cons_self)
  have hkids₂ : Represents h₂ kids t.children f := by
    apply hkids₁.congr
    intro x hx
    rw [hcells₂, Function.update_of_ne (hbnot x (List.mem_cons_of_mem a hx))]
  have hlen := hkids₂.length_le (List.nodup_cons.mp ht.nodup).2
  have hb₂ : h₂.cells b = some ⟨t.label, [] ++ List.replicate kids.length none⟩ := by
    rw [hcells₂, Function.update_self]
    rfl
  obtain ⟨h₃, hcopy, hcopied⟩ := copyChildren_spec t.children hkids₂
    (fun hx => hbnot b (List.mem_cons_of_mem a hx) rfl) (by omega : f.length < h₂.next + 1) hb₂
  obtain ⟨kids', f', hb₃, hkids', hf', hnew⟩ := hcopied.new
  have hold : ∀ x ∈ a :: f, x < h₂.next ∧ h₃.cells x = h₁.cells x := by
    intro x hx
    have hlt : x < h₁.next := by
      rcases List.mem_cons.mp hx with rfl | hx
      · exact Heap.lt_next (by rw [ha₁]; rfl)
      · exact hkids₁.lt_next hx
    have hxb := hbnot x hx
    refine ⟨by omega, ?_⟩
    rw [hcopied.old x (by omega) hxb, hcells₂, Function.update_of_ne hxb]
  have hblt : b < h₂.next := Heap.lt_next (by rw [hb₂]; rfl)
  refine ⟨h₃, f', ?_, ht₁.congr fun x hx => (hold x hx).2, ⟨⟨kids', hb₃, hkids'⟩, ?_⟩, ?_⟩
  · rw [Heap.copyDeep, hclear]
    simp only [Option.bind_eq_bind, Option.bind_some, ha₁, hput]
    exact hcopy
  · rw [List.nodup_cons]
    refine ⟨fun hx => ?_, hf'⟩
    have hge := hnew b hx
    omega
  · intro x hx hx'
    rcases List.mem_cons.mp hx' with hxb | hx'
    · exact hbnot x hx hxb
    · have hge := hnew x hx'
      have hlt := (hold x hx).1
      omega

/-- What `a = b` should leave: both are equal to what `b` was, and two trees share no node. -/
def Assigned (h : Heap L) (a b : ℕ) (u : Tree L) : Prop :=
  ∃ f g, IsTree h a u f ∧ IsTree h b u g ∧ (a ≠ b → List.Disjoint (a :: f) (b :: g))

theorem IsTree.assign_self [Inhabited L] (ht : IsTree h a t f) :
    ∃ h', h.assign a a = some h' ∧ IsTree h' a ⟨t.label, .nil⟩ [] := by
  have hleaf : ∀ {h : Heap L}, h.cells a = some ⟨t.label, []⟩ → IsTree h a ⟨t.label, .nil⟩ [] :=
    fun ha => ⟨⟨[], ha, .nil⟩, List.nodup_singleton a⟩
  obtain ⟨h₁, hclear₁, -, ha₁, -⟩ := ht.clear
  obtain ⟨h₂, hclear₂, -, ha₂, -⟩ := (hleaf ha₁).clear
  obtain ⟨h₃, hput, hnext₃, hcells₃⟩ := Heap.exists_put ha₂ (some ⟨t.label, []⟩)
  refine ⟨h₃, ?_, hleaf (by rw [hcells₃, Function.update_self])⟩
  rw [Heap.assign, hclear₁, Option.bind_eq_bind, Option.bind_some, Heap.copyDeep, hclear₂,
    Option.bind_eq_bind, Option.bind_some, ha₂, Option.bind_eq_bind, Option.bind_some]
  show (h₂.put a (some ⟨t.label, []⟩)).bind _ = _
  rw [hput]
  rfl

/-- Two trees of one node each. -/
def twoLeaves (x y : ℕ) : Heap ℕ where
  cells a := match a with
    | 0 => some ⟨x, []⟩
    | 1 => some ⟨y, []⟩
    | _ => none
  next := 2
  fresh := by
    intro a ha
    match a with
    | a + 2 => rfl

theorem isTree_twoLeaves (x y : ℕ) : IsTree (twoLeaves x y) 0 ⟨x, .nil⟩ [] ∧
    IsTree (twoLeaves x y) 1 ⟨y, .nil⟩ [] :=
  ⟨⟨⟨[], rfl, .nil⟩, by decide⟩, ⟨⟨[], rfl, .nil⟩, by decide⟩⟩

end Carmel.Trees
