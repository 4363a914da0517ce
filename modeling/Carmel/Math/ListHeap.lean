/-
# Binary heaps in lists

The positions of a list count from 1, and the children of position `i` are at `2 * i` and `2
* i + 1`. An order that is broken below or above one position is repaired by exchanges,
which rearrange only the front of the list that is the heap.
-/

import Carmel.Math.Instances

namespace Carmel.Math

universe u

variable {α : Type u}

section Positions

/-- The element at a position. -/
def slot (l : List α) (i : ℕ) : Option α := if i = 0 then none else l[i - 1]?

/-- Exchange the elements at two positions. -/
def exchange (l : List α) (i j : ℕ) : List α :=
  match slot l i, slot l j with
  | some x, some y => (l.set (i - 1) y).set (j - 1) x
  | _, _ => l

variable {l : List α} {i j k : ℕ} {x y : α}

theorem slot_eq_getElem? (h : 1 ≤ i) : slot l i = l[i - 1]? := if_neg (by omega)

theorem slot_succ (l : List α) (i : ℕ) : slot l (i + 1) = l[i]? := rfl

theorem exists_slot (h : 1 ≤ i) (h' : i ≤ l.length) : ∃ x, slot l i = some x :=
  ⟨l[i - 1], by rw [slot_eq_getElem? h, List.getElem?_eq_getElem (by omega)]⟩

theorem slot_bounds (h : slot l i = some x) : 1 ≤ i ∧ i ≤ l.length := by
  unfold slot at h
  split at h
  · cases h
  · have hlt := (List.getElem?_eq_some_iff.mp h).1
    omega

theorem mem_of_slot (h : slot l i = some x) : x ∈ l := by
  rw [slot_eq_getElem? (slot_bounds h).1] at h
  exact List.mem_of_getElem? h

theorem exists_slot_of_mem (h : x ∈ l) : ∃ i, 1 ≤ i ∧ i ≤ l.length ∧ slot l i = some x := by
  obtain ⟨i, hi⟩ := List.getElem?_of_mem h
  have hlt := (List.getElem?_eq_some_iff.mp hi).1
  exact ⟨i + 1, by omega, by omega, hi⟩

theorem slot_set_self (h : 1 ≤ i) (h' : i ≤ l.length) : slot (l.set (i - 1) x) i = some x := by
  rw [slot_eq_getElem? h, List.getElem?_set_self (by omega)]

theorem slot_set_of_ne (h : 1 ≤ i) (hne : k ≠ i) : slot (l.set (i - 1) x) k = slot l k := by
  by_cases hk : k = 0
  · rw [slot, slot, if_pos hk, if_pos hk]
  · rw [slot_eq_getElem? (by omega), slot_eq_getElem? (by omega), List.getElem?_set_ne (by omega)]

/-- Putting an element where it is already changes nothing. -/
theorem set_slot (h : slot l i = some x) : l.set (i - 1) x = l := by
  obtain ⟨h1, hle⟩ := slot_bounds h
  rw [slot_eq_getElem? h1] at h
  obtain ⟨hlt, heq⟩ := List.getElem?_eq_some_iff.mp h
  rw [← heq]
  exact List.set_getElem_self hlt

theorem exchange_eq (hi : slot l i = some x) (hj : slot l j = some y) :
    exchange l i j = (l.set (i - 1) y).set (j - 1) x := by
  rw [exchange, hi, hj]

theorem length_exchange (l : List α) (i j : ℕ) : (exchange l i j).length = l.length := by
  unfold exchange
  split
  · rw [List.length_set, List.length_set]
  · rfl

theorem slot_exchange_right (hi : slot l i = some x) (hj : slot l j = some y) :
    slot (exchange l i j) j = slot l i := by
  obtain ⟨h1, hle⟩ := slot_bounds hj
  rw [exchange_eq hi hj, slot_set_self h1 (by rw [List.length_set]; exact hle), hi]

theorem slot_exchange_left (hi : slot l i = some x) (hj : slot l j = some y) (hne : i ≠ j) :
    slot (exchange l i j) i = slot l j := by
  obtain ⟨h1, hle⟩ := slot_bounds hi
  rw [exchange_eq hi hj, slot_set_of_ne (slot_bounds hj).1 hne, slot_set_self h1 hle, hj]

theorem slot_exchange_of_ne (hi : slot l i = some x) (hj : slot l j = some y) (hki : k ≠ i)
    (hkj : k ≠ j) : slot (exchange l i j) k = slot l k := by
  rw [exchange_eq hi hj, slot_set_of_ne (slot_bounds hj).1 hkj, slot_set_of_ne (slot_bounds hi).1 hki]

/-- Copying an element over a hole is an exchange, if another is thought to be in the hole. -/
theorem set_set_eq_exchange (hi : 1 ≤ i) (hi' : i ≤ l.length) (hne : i ≠ j)
    (hj : slot l j = some y) :
    (l.set (i - 1) y).set (j - 1) x = exchange (l.set (i - 1) x) i j := by
  have hij : slot (l.set (i - 1) x) j = some y := by rw [slot_set_of_ne hi hne.symm, hj]
  rw [exchange_eq (slot_set_self hi hi') hij, List.set_set]

end Positions

section Rearranged

/-- One list is the other with its first elements in another order. -/
structure Rearranged (size : ℕ) (l l' : List α) : Prop where
  perm : (l'.take size).Perm (l.take size)
  drop : l'.drop size = l.drop size

variable {size : ℕ} {l l' l'' : List α} {i j : ℕ} {x y : α}

theorem Rearranged.refl (size : ℕ) (l : List α) : Rearranged size l l := ⟨.refl _, rfl⟩

theorem Rearranged.trans (h : Rearranged size l l') (h' : Rearranged size l' l'') :
    Rearranged size l l'' :=
  ⟨h'.perm.trans h.perm, h'.drop.trans h.drop⟩

theorem Rearranged.perm_whole (h : Rearranged size l l') : l'.Perm l := by
  rw [← List.take_append_drop size l', ← List.take_append_drop size l, h.drop]
  exact h.perm.append_right _

theorem Rearranged.length (h : Rearranged size l l') : l'.length = l.length :=
  h.perm_whole.length_eq

theorem Rearranged.mono (h : Rearranged size l l') {size' : ℕ} (hle : size ≤ size') :
    Rearranged size' l l' := by
  obtain ⟨more, rfl⟩ : ∃ more, size' = size + more := ⟨size' - size, by omega⟩
  constructor
  · rw [List.take_add, List.take_add, h.drop]
    exact h.perm.append_right _
  · rw [← List.drop_drop, h.drop, List.drop_drop]

theorem Rearranged.slot_of_lt (h : Rearranged size l l') {k : ℕ} (hk : size < k) :
    slot l' k = slot l k := by
  have hdrop : ∀ m : List α, slot m k = (m.drop size)[k - 1 - size]? := by
    intro m
    rw [slot_eq_getElem? (by omega), List.getElem?_drop]
    congr 1
    omega
  rw [hdrop, hdrop, h.drop]

theorem rearranged_exchange (hi : slot l i = some x) (hj : slot l j = some y) (hi' : i ≤ size)
    (hj' : j ≤ size) : Rearranged size l (exchange l i j) := by
  obtain ⟨h1i, hli⟩ := slot_bounds hi
  obtain ⟨h1j, hlj⟩ := slot_bounds hj
  rw [exchange_eq hi hj]
  rw [slot_eq_getElem? h1i] at hi
  rw [slot_eq_getElem? h1j] at hj
  obtain ⟨hlti, hx⟩ := List.getElem?_eq_some_iff.mp hi
  obtain ⟨hltj, hy⟩ := List.getElem?_eq_some_iff.mp hj
  constructor
  · have hti : i - 1 < (l.take size).length := by rw [List.length_take]; omega
    have htj : j - 1 < (l.take size).length := by rw [List.length_take]; omega
    have hperm := List.set_set_perm hti htj
    rw [List.getElem_take, List.getElem_take, hx, hy] at hperm
    rwa [List.take_set, List.take_set]
  · rw [List.drop_set_of_lt (by omega), List.drop_set_of_lt (by omega)]

end Rearranged

section Order

variable [LinearOrder α]

/-- Nothing, or an element that is not above the other one. -/
def Beneath (a b : Option α) : Prop := ∀ x ∈ a, ∃ y ∈ b, x ≤ y

theorem Beneath.refl (a : Option α) : Beneath a a := fun x hx => ⟨x, hx, le_refl x⟩

theorem Beneath.trans {a b c : Option α} (h : Beneath a b) (h' : Beneath b c) : Beneath a c := by
  intro x hx
  obtain ⟨y, hy, hxy⟩ := h x hx
  obtain ⟨z, hz, hyz⟩ := h' y hy
  exact ⟨z, hz, hxy.trans hyz⟩

@[simp] theorem beneath_some {x y : α} : Beneath (some x) (some y) ↔ x ≤ y := by
  simp [Beneath]

/-- The first elements are a heap from a position on: no parent from there on is smaller than a
child. -/
def HeapFrom (lo : ℕ) (l : List α) (size : ℕ) : Prop :=
  ∀ c, 2 ≤ c → c ≤ size → lo ≤ c / 2 → Beneath (slot l c) (slot l (c / 2))

/-- No parent is smaller than a child. -/
def IsHeap (l : List α) : Prop := HeapFrom 1 l l.length

/-- Only the children of `p` may be out of order with it, and not with its parent. -/
structure DownOrdered (lo : ℕ) (l : List α) (size p : ℕ) : Prop where
  order : ∀ c, 2 ≤ c → c ≤ size → lo ≤ c / 2 → c / 2 ≠ p → Beneath (slot l c) (slot l (c / 2))
  grand : lo ≤ p / 2 → ∀ c, c / 2 = p → c ≤ size → Beneath (slot l c) (slot l (p / 2))

/-- Only `p` may be out of order with its parent, and its children are not. -/
structure UpOrdered (l : List α) (size p : ℕ) : Prop where
  order : ∀ c, 2 ≤ c → c ≤ size → c ≠ p → Beneath (slot l c) (slot l (c / 2))
  grand : 2 ≤ p → ∀ c, c / 2 = p → c ≤ size → Beneath (slot l c) (slot l (p / 2))

variable {lo size p c : ℕ} {l : List α} {x y : α}

theorem DownOrdered.exchange (h : DownOrdered lo l size p) (hlo : 1 ≤ lo) (hlop : lo ≤ p)
    (hp : slot l p = some x) (hc : slot l c = some y) (hchild : c / 2 = p) (hsize : c ≤ size)
    (hmax : ∀ d, d / 2 = p → d ≤ size → Beneath (slot l d) (slot l c))
    (hle : Beneath (slot l p) (slot l c)) : DownOrdered lo (exchange l p c) size c := by
  have hpc : p ≠ c := by
    have hc1 := (slot_bounds hc).1
    omega
  constructor
  · intro d hd hd' hdlo hne
    by_cases hdc : d = c
    · subst hdc
      rw [hchild, slot_exchange_left hp hc hpc, slot_exchange_right hp hc]
      exact hle
    · by_cases hdp : d = p
      · subst hdp
        rw [slot_exchange_left hp hc hpc, slot_exchange_of_ne hp hc (by omega) (by omega)]
        exact h.grand hdlo c hchild hsize
      · rw [slot_exchange_of_ne hp hc hdp hdc]
        by_cases hpar : d / 2 = p
        · rw [hpar, slot_exchange_left hp hc hpc]
          exact hmax d hpar hd'
        · rw [slot_exchange_of_ne hp hc hpar hne]
          exact h.order d hd hd' hdlo hpar
  · intro _ d hd hd'
    rw [hchild, slot_exchange_left hp hc hpc, slot_exchange_of_ne hp hc (by omega) (by omega)]
    have hstep := h.order d (by omega) hd' (by omega) (by omega)
    rwa [hd] at hstep

theorem DownOrdered.heapFrom (h : DownOrdered lo l size p)
    (hle : ∀ c, c / 2 = p → 2 ≤ c → c ≤ size → Beneath (slot l c) (slot l p)) :
    HeapFrom lo l size := by
  intro c hc hc' hlo
  by_cases hpar : c / 2 = p
  · rw [hpar]
    exact hle c hpar hc hc'
  · exact h.order c hc hc' hlo hpar

theorem UpOrdered.exchange (h : UpOrdered l size p) (hp2 : 2 ≤ p) (hp' : p ≤ size)
    (hp : slot l p = some x) (hq : slot l (p / 2) = some y)
    (hle : Beneath (slot l (p / 2)) (slot l p)) : UpOrdered (exchange l p (p / 2)) size (p / 2) := by
  have hne : p ≠ p / 2 := by omega
  constructor
  · intro c hc hc' hcq
    by_cases hcp : c = p
    · subst hcp
      rw [slot_exchange_left hp hq hne, slot_exchange_right hp hq]
      exact hle
    · rw [slot_exchange_of_ne hp hq hcp hcq]
      by_cases hpar : c / 2 = p
      · rw [hpar, slot_exchange_left hp hq hne]
        exact h.grand hp2 c hpar hc'
      · by_cases hparq : c / 2 = p / 2
        · rw [hparq, slot_exchange_right hp hq]
          have hstep := h.order c hc hc' hcp
          rw [hparq] at hstep
          exact hstep.trans hle
        · rw [slot_exchange_of_ne hp hq hpar hparq]
          exact h.order c hc hc' hcp
  · intro hq2 c hc hc'
    have hgrand := h.order (p / 2) hq2 (by omega) (by omega)
    rw [slot_exchange_of_ne hp hq (k := p / 2 / 2) (by omega) (by omega)]
    by_cases hcp : c = p
    · subst hcp
      rw [slot_exchange_left hp hq hne]
      exact hgrand
    · rw [slot_exchange_of_ne hp hq hcp (by omega)]
      have hstep := h.order c (by omega) hc' hcp
      rw [hc] at hstep
      exact hstep.trans hgrand

theorem UpOrdered.heapFrom (h : UpOrdered l size p)
    (hle : 2 ≤ p → Beneath (slot l p) (slot l (p / 2))) : HeapFrom 1 l size := by
  intro c hc hc' _
  by_cases hcp : c = p
  · rw [hcp] at hc ⊢
    exact hle hc
  · exact h.order c hc hc' hcp

theorem HeapFrom.beneath_first (h : HeapFrom 1 l size) {i : ℕ} (hi : 1 ≤ i) (hi' : i ≤ size) :
    Beneath (slot l i) (slot l 1) := by
  induction i using Nat.strongRecOn with
  | ind i ih =>
    by_cases h1 : i = 1
    · rw [h1]
      exact Beneath.refl _
    · exact (h i (by omega) hi' (by omega)).trans (ih (i / 2) (by omega) (by omega) (by omega))

theorem HeapFrom.mono (h : HeapFrom lo l size) {size' : ℕ} (hle : size' ≤ size) :
    HeapFrom lo l size' :=
  fun c hc hc' hlo => h c hc (Nat.le_trans hc' hle) hlo

theorem HeapFrom.le_first (h : HeapFrom 1 l size) {first : α} (hfirst : slot l 1 = some first)
    {z : α} (hz : z ∈ l.take size) : z ≤ first := by
  obtain ⟨i, hi, hi', hslot⟩ := exists_slot_of_mem hz
  rw [List.length_take] at hi'
  rw [slot_eq_getElem? hi, List.getElem?_take_of_lt (by omega), ← slot_eq_getElem? hi] at hslot
  have hle := h.beneath_first hi (by omega)
  rw [hslot, hfirst] at hle
  exact beneath_some.mp hle

end Order

end Carmel.Math
