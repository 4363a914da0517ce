/-
# Heaps over any tree of positions

The positions from 0 form a tree when every position but 0 has a smaller one as
its parent. The order of a heap, and what moving an element one place up or down
does to it, do not depend on how the parents are computed.
-/

import Carmel.Math.BinaryHeap

namespace Carmel.Math

universe u v

namespace IndexedHeap

variable {α : Type u} {K : Type v} {H : IndexedHeap α} {key : α → K} {S : Set α}
  {par : ℕ → ℕ} {n i j p c : ℕ} {a v : α}

/-- The positions below `n` hold the elements of `S`, each where it is said to be. -/
structure Lists (H : IndexedHeap α) (n : ℕ) (S : Set α) : Prop where
  elem : ∀ i < n, H.elem i ∈ S ∧ H.loc (H.elem i) = i
  loc : ∀ a ∈ S, H.loc a < n ∧ H.elem (H.loc a) = a

theorem Lists.inj (h : H.Lists n S) (hi : i < n) (hj : j < n) (heq : H.elem i = H.elem j) :
    i = j := by
  rw [← (h.elem i hi).2, heq, (h.elem j hj).2]

theorem Lists.mem_iff (h : H.Lists n S) : a ∈ S ↔ ∃ i < n, H.elem i = a := by
  constructor
  · intro ha
    exact ⟨H.loc a, h.loc a ha⟩
  · intro ⟨i, hi, heq⟩
    rw [← heq]
    exact (h.elem i hi).1

theorem Lists.empty : H.Lists 0 ∅ := by
  constructor
  · intro i hi
    omega
  · intro a ha
    exact absurd ha (Set.notMem_empty a)

section Put

variable [DecidableEq α]

theorem Lists.swap (h : H.Lists n S) (hi : i < n) (hj : j < n) (hne : i ≠ j) :
    (H.swap i j).Lists n S := by
  have helem : H.elem i ≠ H.elem j := fun heq => hne (h.inj hi hj heq)
  have hloc_i : (H.swap i j).loc (H.elem i) = j := put_loc_self
  have hloc_j : (H.swap i j).loc (H.elem j) = i := by
    simp [IndexedHeap.swap, put, helem.symm]
  have hloc : ∀ a, a ≠ H.elem i → a ≠ H.elem j → (H.swap i j).loc a = H.loc a := by
    intro a hai haj
    simp [IndexedHeap.swap, put, hai, haj]
  constructor
  · intro k hk
    by_cases hki : k = i
    · subst hki
      rw [swap_elem_left hne]
      exact ⟨(h.elem j hj).1, hloc_j⟩
    · by_cases hkj : k = j
      · subst hkj
        rw [swap_elem_right]
        exact ⟨(h.elem i hi).1, hloc_i⟩
      · rw [swap_elem_of_ne hki hkj, hloc _ (fun heq => hki (h.inj hk hi heq))
          (fun heq => hkj (h.inj hk hj heq))]
        exact h.elem k hk
  · intro a ha
    obtain ⟨hlt, hat⟩ := h.loc a ha
    by_cases hai : a = H.elem i
    · rw [hai, hloc_i]
      exact ⟨hj, swap_elem_right⟩
    · by_cases haj : a = H.elem j
      · rw [haj, hloc_j]
        exact ⟨hi, swap_elem_left hne⟩
      · have hki : H.loc a ≠ i := by
          intro heq
          exact hai (by rw [← heq, hat])
        have hkj : H.loc a ≠ j := by
          intro heq
          exact haj (by rw [← heq, hat])
        rw [hloc a hai haj, swap_elem_of_ne hki hkj]
        exact ⟨hlt, hat⟩

theorem Lists.put_self (h : H.Lists n S) (hi : i < n) : H.put i (H.elem i) = H := by
  have hloc : Function.update H.loc (H.elem i) i = H.loc := by
    rw [Function.update_eq_self_iff]
    exact (h.elem i hi).2.symm
  rw [put, Function.update_eq_self, hloc]

theorem Lists.put_new (h : H.Lists n S) (hv : v ∉ S) : (H.put n v).Lists (n + 1) (insert v S) := by
  constructor
  · intro i hi
    by_cases hin : i = n
    · subst hin
      rw [put_elem_self, put_loc_self]
      exact ⟨Set.mem_insert _ _, rfl⟩
    · obtain ⟨hmem, hloc⟩ := h.elem i (by omega)
      have hne : H.elem i ≠ v := fun heq => hv (heq ▸ hmem)
      rw [put_elem_of_ne hin]
      exact ⟨Set.mem_insert_of_mem _ hmem, (Function.update_of_ne hne ..).trans hloc⟩
  · intro a ha
    rcases Set.mem_insert_iff.mp ha with rfl | ha
    · rw [put_loc_self]
      exact ⟨by omega, put_elem_self⟩
    · have hne : a ≠ v := fun heq => hv (heq ▸ ha)
      have hloc : (H.put n v).loc a = H.loc a := Function.update_of_ne hne ..
      obtain ⟨hlt, hat⟩ := h.loc a ha
      rw [hloc, put_elem_of_ne (by omega)]
      exact ⟨by omega, hat⟩

theorem Lists.put_last (h : H.Lists (n + 1) S) (hn : 0 < n) :
    (H.put 0 (H.elem n)).Lists n (S \ {H.elem 0}) := by
  constructor
  · intro i hi
    by_cases hi0 : i = 0
    · subst hi0
      have hne : H.elem n ≠ H.elem 0 := by
        intro heq
        exact absurd (h.inj (Nat.lt_succ_self n) (by omega) heq) (by omega)
      rw [put_elem_self, put_loc_self]
      exact ⟨⟨(h.elem n (Nat.lt_succ_self n)).1, hne⟩, rfl⟩
    · obtain ⟨hmem, hloc⟩ := h.elem i (by omega)
      have hne : H.elem i ≠ H.elem 0 := fun heq => hi0 (h.inj (by omega) (by omega) heq)
      have hlast : H.elem i ≠ H.elem n := by
        intro heq
        exact absurd (h.inj (by omega) (by omega) heq) (by omega)
      rw [put_elem_of_ne hi0]
      exact ⟨⟨hmem, hne⟩, (Function.update_of_ne hlast ..).trans hloc⟩
  · intro a ⟨ha, hne⟩
    obtain ⟨hlt, hat⟩ := h.loc a ha
    by_cases hlast : a = H.elem n
    · subst hlast
      rw [put_loc_self]
      exact ⟨hn, put_elem_self⟩
    · have hloc : (H.put 0 (H.elem n)).loc a = H.loc a := Function.update_of_ne hlast ..
      have h0 : H.loc a ≠ 0 := by
        intro heq
        exact hne (by rw [← hat, heq]; rfl)
      have hn' : H.loc a ≠ n := fun heq => hlast (by rw [← heq, hat])
      rw [hloc, put_elem_of_ne h0]
      exact ⟨by omega, hat⟩

end Put

section Order

variable [LinearOrder K]

/-- No element stands below one with a larger key. -/
def InOrder (par : ℕ → ℕ) (key : α → K) (H : IndexedHeap α) (n : ℕ) : Prop :=
  ∀ i, 0 < i → i < n → key (H.elem (par i)) ≤ key (H.elem i)

/-- Only the children of `p` may be out of order with it, and not with its parent. -/
structure InOrderAbove (par : ℕ → ℕ) (key : α → K) (H : IndexedHeap α) (n p : ℕ) : Prop where
  order : ∀ i, 0 < i → i < n → par i ≠ p → key (H.elem (par i)) ≤ key (H.elem i)
  grand : 0 < p → ∀ c, 0 < c → c < n → par c = p → key (H.elem (par p)) ≤ key (H.elem c)

/-- Only `p` may be out of order with its parent, and its children are not. -/
structure InOrderBelow (par : ℕ → ℕ) (key : α → K) (H : IndexedHeap α) (n p : ℕ) : Prop where
  order : ∀ i, 0 < i → i < n → i ≠ p → key (H.elem (par i)) ≤ key (H.elem i)
  grand : 0 < p → ∀ c, 0 < c → c < n → par c = p → key (H.elem (par p)) ≤ key (H.elem c)

theorem InOrder.root_le (h : InOrder par key H n) (hpar : ∀ i, 0 < i → par i < i) (hi : i < n) :
    key (H.elem 0) ≤ key (H.elem i) := by
  induction i using Nat.strongRecOn with
  | ind i ih =>
    by_cases h0 : i = 0
    · rw [h0]
    · have hlt := hpar i (by omega)
      exact (ih (par i) hlt (by omega)).trans (h i (by omega) hi)

theorem InOrderAbove.inOrder (h : InOrderAbove par key H n p)
    (hle : ∀ c, 0 < c → c < n → par c = p → key (H.elem p) ≤ key (H.elem c)) :
    InOrder par key H n := by
  intro i hi hi'
  by_cases hp : par i = p
  · rw [hp]
    exact hle i hi hi' hp
  · exact h.order i hi hi' hp

theorem InOrderBelow.inOrder (h : InOrderBelow par key H n p)
    (hle : 0 < p → key (H.elem (par p)) ≤ key (H.elem p)) : InOrder par key H n := by
  intro i hi hi'
  by_cases hp : i = p
  · subst hp
    exact hle hi
  · exact h.order i hi hi' hp

variable [DecidableEq α]

theorem InOrderAbove.swap (h : InOrderAbove par key H n p) (hpar : ∀ i, 0 < i → par i < i)
    (hc : 0 < c) (hcn : c < n) (hpc : par c = p)
    (hmin : ∀ d, 0 < d → d < n → par d = p → key (H.elem c) ≤ key (H.elem d))
    (hle : key (H.elem c) ≤ key (H.elem p)) : InOrderAbove par key (H.swap p c) n c := by
  have hlt : p < c := by
    rw [← hpc]
    exact hpar c hc
  constructor
  · intro i hi hi' hne
    by_cases hic : i = c
    · subst hic
      rw [hpc, swap_elem_left hlt.ne, swap_elem_right]
      exact hle
    · by_cases hip : i = p
      · subst hip
        have hup := hpar i hi
        rw [swap_elem_left hlt.ne, swap_elem_of_ne hup.ne (by omega)]
        exact h.grand hi c hc hcn hpc
      · rw [swap_elem_of_ne hip hic]
        by_cases hpi : par i = p
        · rw [hpi, swap_elem_left hlt.ne]
          exact hmin i hi hi' hpi
        · rw [swap_elem_of_ne hpi hne]
          exact h.order i hi hi' hpi
  · intro _ d hd hd' hdc
    have hlt' := hpar d hd
    have hstep := h.order d hd hd' (by omega)
    rw [hdc] at hstep hlt'
    rw [hpc, swap_elem_left hlt.ne, swap_elem_of_ne (by omega) (by omega)]
    exact hstep

theorem InOrderBelow.swap (h : InOrderBelow par key H n p) (hpar : ∀ i, 0 < i → par i < i)
    (hp : 0 < p) (hpn : p < n) (hle : key (H.elem p) ≤ key (H.elem (par p))) :
    InOrderBelow par key (H.swap p (par p)) n (par p) := by
  have hlt := hpar p hp
  constructor
  · intro i hi hi' hne
    by_cases hip : i = p
    · subst hip
      rw [swap_elem_right, swap_elem_left hlt.ne']
      exact hle
    · rw [swap_elem_of_ne hip hne]
      by_cases hpi : par i = par p
      · rw [hpi, swap_elem_right]
        have hstep := h.order i hi hi' hip
        rw [hpi] at hstep
        exact hle.trans hstep
      · by_cases hchild : par i = p
        · rw [hchild, swap_elem_left hlt.ne']
          exact h.grand hp i hi hi' hchild
        · rw [swap_elem_of_ne hchild hpi]
          exact h.order i hi hi' hip
  · intro hp0 d hd hd' hdp
    have hup := h.order (par p) hp0 (by omega) hlt.ne
    have hlt' := hpar (par p) hp0
    rw [swap_elem_of_ne (by omega) (by omega)]
    by_cases hdeq : d = p
    · subst hdeq
      rw [swap_elem_left hlt.ne']
      exact hup
    · have hlt'' := hpar d hd
      have hstep := h.order d hd hd' hdeq
      rw [hdp] at hstep
      rw [swap_elem_of_ne hdeq (by omega)]
      exact hup.trans hstep

end Order

end IndexedHeap

end Carmel.Math

/-!
## Heaps as balanced trees

What is inserted goes down to the smaller side of every node on its way, so that the sizes
of two siblings never differ by more than one.
-/

namespace Carmel.Math

universe u v

inductive HeapTree (α : Type u)
  | nil
  | node (data : α) (left right : HeapTree α)

namespace HeapTree

variable {α : Type u} {K : Type v} [LinearOrder K]

def size : HeapTree α → ℕ
  | nil => 0
  | node _ left right => left.size + right.size + 1

/-- What the heap holds. -/
def contents : HeapTree α → Multiset α
  | nil => 0
  | node data left right => data ::ₘ (left.contents + right.contents)

/-- Nothing below a node has a smaller key. -/
def Ordered (key : α → K) : HeapTree α → Prop
  | nil => True
  | node data left right => (∀ a ∈ left.contents + right.contents, key data ≤ key a) ∧
      left.Ordered key ∧ right.Ordered key

/-- The sizes of siblings differ by at most one. -/
def Balanced : HeapTree α → Prop
  | nil => True
  | node _ left right => left.size ≤ right.size + 1 ∧ right.size ≤ left.size + 1 ∧
      left.Balanced ∧ right.Balanced

/-- Whether what is inserted goes to the left. -/
def goLeft (left right : HeapTree α) : Bool := left.size = 0 || left.size < right.size

def insert (key : α → K) (a : α) : HeapTree α → HeapTree α
  | nil => node a nil nil
  | node data left right =>
    let top := if key a < key data then a else data
    let rest := if key a < key data then data else a
    if goLeft left right then node top (left.insert key rest) right
    else node top left (right.insert key rest)

variable {key : α → K} {a : α}

theorem contents_insert (t : HeapTree α) : ∀ a, (t.insert key a).contents = a ::ₘ t.contents := by
  induction t with
  | nil => exact fun _ => rfl
  | node data left right ihl ihr =>
    intro a
    have hswap : ∀ b : Multiset α, (if key a < key data then a else data) ::ₘ
        (if key a < key data then data else a) ::ₘ b = a ::ₘ data ::ₘ b := by
      intro b
      by_cases hlt : key a < key data
      · rw [if_pos hlt, if_pos hlt]
      · rw [if_neg hlt, if_neg hlt, Multiset.cons_swap]
    rw [insert, contents]
    by_cases hleft : goLeft left right = true
    · simp only [hleft, if_true, contents, ihl, Multiset.cons_add]
      exact hswap _
    · simp only [hleft, Bool.false_eq_true, if_false, contents, ihr, Multiset.add_cons]
      exact hswap _

theorem card_contents (t : HeapTree α) : Multiset.card t.contents = t.size := by
  induction t with
  | nil => rfl
  | node data left right ihl ihr => rw [contents, Multiset.card_cons, Multiset.card_add, ihl, ihr, size]

theorem size_insert (t : HeapTree α) (a : α) : (t.insert key a).size = t.size + 1 := by
  rw [← card_contents, contents_insert, Multiset.card_cons, card_contents]

/-- **Order** is kept. -/
theorem Ordered.insert {t : HeapTree α} (h : t.Ordered key) : ∀ a, (t.insert key a).Ordered key := by
  induction t with
  | nil => exact fun a => ⟨fun b hb => absurd hb (Multiset.notMem_zero b), trivial, trivial⟩
  | node data left right ihl ihr =>
    intro a
    obtain ⟨hroot, hleft, hright⟩ := h
    rw [HeapTree.insert]
    generalize htop : (if key a < key data then a else data) = top
    generalize hrest : (if key a < key data then data else a) = rest
    have hle : key top ≤ key rest ∧ key top ≤ key data := by
      rw [← htop, ← hrest]
      split
      · rename_i hlt
        exact ⟨hlt.le, hlt.le⟩
      · rename_i hge
        exact ⟨not_lt.mp hge, le_rfl⟩
    -- what is below the top was below the root, or is what was handed down
    have hbelow : ∀ b, b = rest ∨ b ∈ left.contents + right.contents → key top ≤ key b := by
      intro b hb
      rcases hb with rfl | hb
      · exact hle.1
      · exact hle.2.trans (hroot b hb)
    by_cases hgo : goLeft left right = true
    · simp only [hgo, if_true]
      refine ⟨?_, ihl hleft rest, hright⟩
      intro b hb
      rw [contents_insert, Multiset.cons_add, Multiset.mem_cons] at hb
      exact hbelow b hb
    · simp only [hgo, Bool.false_eq_true, if_false]
      refine ⟨?_, hleft, ihr hright rest⟩
      intro b hb
      rw [contents_insert, Multiset.add_cons, Multiset.mem_cons] at hb
      exact hbelow b hb

/-- **Balance** is kept: the smaller side grows. -/
theorem Balanced.insert {t : HeapTree α} (h : t.Balanced) : ∀ a, (t.insert key a).Balanced := by
  induction t with
  | nil => exact fun _ => ⟨Nat.zero_le _, Nat.zero_le _, trivial, trivial⟩
  | node data left right ihl ihr =>
    intro a
    obtain ⟨hl, hr, hleft, hright⟩ := h
    rw [HeapTree.insert]
    by_cases hgo : goLeft left right = true
    · simp only [hgo, if_true]
      have hsize : left.size = 0 ∨ left.size < right.size := by simpa [goLeft] using hgo
      refine ⟨?_, ?_, ihl hleft _, hright⟩
      · rw [size_insert]
        omega
      · rw [size_insert]
        omega
    · simp only [hgo]
      have hsize : ¬ (left.size = 0 ∨ left.size < right.size) := by simpa [goLeft] using hgo
      refine ⟨?_, ?_, hleft, ihr hright _⟩
      · rw [size_insert]
        omega
      · rw [size_insert]
        omega

end HeapTree

end Carmel.Math
