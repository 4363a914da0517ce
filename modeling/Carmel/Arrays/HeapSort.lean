/-
# Verifying and sorting heaps

`heapVerify` checks every element but the last, and runs outside an empty range. `heapSort`
counts an `int`, so it does not end inside an empty range, and of a range too long for an
`int` it sorts a front at most, which is enough only if all elements are equal.
-/

import Carmel.Arrays.MaxHeap

namespace Carmel.Arrays

open Carmel.Math

universe u

variable {α : Type u} [LinearOrder α] {heap : List α} {size i k : ℕ}

theorem heapVerifyFrom_spec (heap : List α) (size : ℕ) (hsize : size ≤ heap.length) :
    ∃ b, heapVerifyFrom heap size = some b ∧ (b = true ↔ HeapFrom 1 heap size) := by
  induction size with
  | zero => exact ⟨true, rfl, fun _ c hc hc' => by omega, fun _ => rfl⟩
  | succ size ih =>
    cases size with
    | zero => exact ⟨true, rfl, fun _ c hc hc' => by omega, fun _ => rfl⟩
    | succ size =>
      obtain ⟨b, hrun, hb⟩ := ih (by omega)
      obtain ⟨x, hx⟩ := exists_slot (l := heap) (i := (size + 2) / 2) (by omega) (by omega)
      obtain ⟨y, hy⟩ := exists_slot (l := heap) (i := size + 2) (by omega) hsize
      have hstep : HeapFrom 1 heap (size + 2) ↔ y ≤ x ∧ HeapFrom 1 heap (size + 1) := by
        constructor
        · intro h
          have hlast := h (size + 2) (by omega) (Nat.le_refl _) (by omega)
          rw [hx, hy] at hlast
          exact ⟨beneath_some.mp hlast, h.mono (by omega)⟩
        · intro h c hc hc' hlo
          by_cases hlast : c = size + 2
          · rw [hlast, hx, hy]
            exact beneath_some.mpr h.1
          · exact h.2 c hc (by omega) hlo
      rw [heapVerifyFrom, hx, hy, Option.bind_some, Option.bind_some, hstep]
      by_cases hless : x < y
      · exact ⟨false, if_pos hless, fun h => Bool.noConfusion h,
          fun h => absurd hless (not_lt.mpr h.1)⟩
      · exact ⟨b, by rw [if_neg hless, hrun], fun h => ⟨not_lt.mp hless, hb.mp h⟩,
          fun h => hb.mpr h.2⟩

/-- The last element is not above its parent, if the others make a heap. -/
def LastInOrder (heap : List α) : Prop :=
  HeapFrom 1 heap (heap.length - 1) → 2 ≤ heap.length →
    Beneath (slot heap heap.length) (slot heap (heap.length / 2))

theorem isHeap_iff_of_last (hlast : LastInOrder heap) :
    HeapFrom 1 heap (heap.length - 1) ↔ IsHeap heap := by
  constructor
  · intro h c hc hc' hlo
    by_cases hc_last : c = heap.length
    · rw [hc_last]
      exact hlast h (by omega)
    · exact h c hc (by omega) hlo
  · exact fun h => h.mono (Nat.sub_le _ _)

/-- `heapVerify` tells heaps if and only if the range is not empty and its last element is where
the others let it be. -/
theorem heapVerify_iff (heap : List α) :
    (∃ b, heapVerify heap = some b ∧ (b = true ↔ IsHeap heap)) ↔ heap ≠ [] ∧ LastInOrder heap := by
  cases heap with
  | nil =>
    have hrun : heapVerify ([] : List α) = none := rfl
    constructor
    · intro h
      obtain ⟨b, hb, -⟩ := h
      rw [hrun] at hb
      cases hb
    · intro h
      exact absurd rfl h.1
  | cons first rest =>
    have hpred : predSize (first :: rest).length = (first :: rest).length - 1 := if_neg (by simp)
    obtain ⟨b, hrun, hb⟩ := heapVerifyFrom_spec (first :: rest)
      ((first :: rest).length - 1) (Nat.sub_le _ _)
    rw [← hpred] at hrun
    constructor
    · intro h
      obtain ⟨b', hrun', hb'⟩ := h
      have hsame : b = b' := Option.some.inj (hrun.symm.trans hrun')
      refine ⟨List.cons_ne_nil _ _, fun hfront htwo => ?_⟩
      have hheap := hb'.mp (hsame ▸ hb.mpr hfront)
      exact hheap _ htwo (Nat.le_refl _) (by omega)
    · intro h
      exact ⟨b, hrun, hb.trans (isHeap_iff_of_last h.2)⟩

theorem heapSortFrom_spec (heap : List α) (hk : 1 ≤ k) (hlen : k ≤ heap.length) (hheap : HeapFrom 1 heap k) :
    ∃ heap', heapSortFrom k heap = some heap' ∧ Rearranged k heap heap' ∧
      (heap'.take k).Pairwise (· ≤ ·) := by
  induction k generalizing heap with
  | zero => omega
  | succ k ih =>
    cases k with
    | zero =>
      refine ⟨heap, rfl, .refl _ _, ?_⟩
      cases heap with
      | nil => exact List.Pairwise.nil
      | cons x heap => exact List.pairwise_singleton _ _
    | succ i =>
      obtain ⟨x, hx⟩ := exists_slot (l := heap) (i := 1) (Nat.le_refl _) (by omega)
      obtain ⟨y, hy⟩ := exists_slot (l := heap) (i := i + 2) (by omega) hlen
      have hne : 1 ≠ i + 2 := by omega
      have hswapped := rearranged_exchange hx hy (by omega) (Nat.le_refl (i + 2))
      have hlen' : (exchange heap 1 (i + 2)).length = heap.length := length_exchange ..
      have hdown : DownOrdered 1 (exchange heap 1 (i + 2)) (i + 1) 1 := by
        constructor
        · intro c hc hc' _ hc1
          rw [slot_exchange_of_ne hx hy (by omega) (by omega),
            slot_exchange_of_ne hx hy hc1 (by omega)]
          exact hheap c hc (by omega) (by omega)
        · intro h
          omega
      obtain ⟨heap₂, hrun₂, hsame₂, hheap₂⟩ := heapify_spec (Nat.le_refl 1) (by omega)
        (by omega) (Nat.le_refl 1) (Nat.le_refl 1) hdown
      obtain ⟨heap', hrun', hsame', hsorted⟩ := ih _ (by omega)
        (by rw [hsame₂.length, hlen']; omega) hheap₂
      have hsame : Rearranged (i + 1) (exchange heap 1 (i + 2)) heap' := hsame₂.trans hsame'
      have hall : Rearranged (i + 2) heap heap' := hswapped.trans (hsame.mono (by omega))
      -- the first element of the heap is behind the others, which it was not below
      have hlast : heap'[i + 1]? = some x := by
        have hslot := hsame.slot_of_lt (k := i + 2) (by omega)
        rw [slot_exchange_right hx hy, hx] at hslot
        exact hslot
      refine ⟨heap', ?_, hall, ?_⟩
      · have hfirst := store_eq heap (Nat.le_refl 1) (by omega) y
        have hsecond := store_eq (heap.set (1 - 1) y) (by omega : 1 ≤ i + 2)
          (by rw [List.length_set]; exact hlen) x
        rw [← exchange_eq hx hy] at hsecond
        simp only [heapSortFrom, hx, hy, hfirst, hsecond, hrun₂, Option.bind_eq_bind,
          Option.bind_some, hrun']
      · rw [List.take_add_one, hlast, Option.toList_some, List.pairwise_append]
        refine ⟨hsorted, List.pairwise_singleton _ _, ?_⟩
        intro z hz w hw
        rw [List.mem_singleton.mp hw]
        apply hheap.le_first hx
        apply hall.perm.subset
        exact (List.take_prefix_take_left (by omega)).subset hz

/-- What follows a sorted front is in order with it only where a heap has the same elements. -/
theorem eq_of_pairwise_drop {heap' : List α} (hk : 1 ≤ k) (hlen : 2 * k ≤ heap.length)
    (hheap : IsHeap heap) (hsame : Rearranged k heap heap') (hsorted : heap'.Pairwise (· ≤ ·)) :
    ∀ x ∈ heap, ∀ y ∈ heap, x = y := by
  obtain ⟨first, hfirst⟩ := exists_slot (l := heap) (i := 1) (Nat.le_refl _) (by omega)
  have hle : ∀ z ∈ heap, z ≤ first := by
    intro z hz
    apply hheap.le_first hfirst
    rwa [List.take_of_length_le (Nat.le_refl _)]
  have hbehind : ∀ p, k < p → p ≤ heap.length → slot heap p = some first := by
    intro p hp hp'
    obtain ⟨z, hz⟩ := exists_slot (l := heap) (i := p) (by omega) hp'
    have hmem : first ∈ heap'.take k := by
      apply hsame.perm.symm.subset
      rw [slot_eq_getElem? (Nat.le_refl 1)] at hfirst
      exact List.mem_of_getElem? (i := 0) (by rw [List.getElem?_take_of_lt (by omega), ← hfirst])
    have hmem' : z ∈ heap'.drop k := by
      rw [hsame.drop]
      rw [slot_eq_getElem? (by omega)] at hz
      apply List.mem_of_getElem? (i := p - 1 - k)
      rw [List.getElem?_drop, ← hz]
      congr 1
      omega
    rw [← List.take_append_drop k heap', List.pairwise_append] at hsorted
    have hge := hsorted.2.2 first hmem z hmem'
    rw [hz, le_antisymm (hle z (mem_of_slot hz)) hge]
  have hall : ∀ d p, p + d = heap.length → 1 ≤ p → slot heap p = some first := by
    intro d
    induction d using Nat.strongRecOn with
    | ind d ih =>
      intro p hpd hp
      by_cases hkp : k < p
      · exact hbehind p hkp (by omega)
      · obtain ⟨z, hz⟩ := exists_slot (l := heap) (i := p) hp (by omega)
        have hchild := ih (d - p) (by omega) (2 * p) (by omega) (by omega)
        have hbelow := hheap (2 * p) (by omega) (by omega) (by omega)
        have hhalf : 2 * p / 2 = p := by omega
        rw [hhalf, hchild, hz] at hbelow
        rw [hz, le_antisymm (hle z (mem_of_slot hz)) (beneath_some.mp hbelow)]
  have heq : ∀ x ∈ heap, x = first := by
    intro x hx
    obtain ⟨p, hp, hp', hslot⟩ := exists_slot_of_mem hx
    rw [hall (heap.length - p) p (by omega) hp] at hslot
    exact (Option.some.inj hslot).symm
  intro x hx y hy
  rw [heq x hx, heq y hy]

/-- The length of a range is positive when it is counted in an `int`, and is not cut short by it, or
the elements are all equal. -/
def Sortable (heap : List α) : Prop :=
  1 ≤ heap.length % 2 ^ 32 ∧ heap.length % 2 ^ 32 < 2 ^ 31 ∧
    (heap.length < 2 ^ 31 ∨ ∀ x ∈ heap, ∀ y ∈ heap, x = y)

theorem toInt_of_lt {n : ℕ} (h : n % 2 ^ 32 < 2 ^ 31) :
    toInt n = (n % 2 ^ 32 : ℕ) := if_pos h

theorem toInt_nonpos {n : ℕ} (h : ¬ (1 ≤ n % 2 ^ 32 ∧ n % 2 ^ 32 < 2 ^ 31)) : toInt n ≤ 0 := by
  have hlt : n % 2 ^ 32 < 2 ^ 32 := Nat.mod_lt _ (Nat.two_pow_pos _)
  unfold toInt
  split <;> omega

/-- `heapSort` ends with the range in ascending order exactly for the sortable ranges. -/
theorem heapSort_iff (heap : List α) :
    (∃ heap', heapSort heap = some heap' ∧ heap'.Pairwise (· ≤ ·) ∧ heap'.Perm heap) ↔
      Sortable heap := by
  obtain ⟨built, hbuild, hheap, hperm⟩ := heapBuild_spec heap
  have hlen : built.length = heap.length := hperm.length_eq
  by_cases hint : 1 ≤ heap.length % 2 ^ 32 ∧ heap.length % 2 ^ 32 < 2 ^ 31
  · obtain ⟨hpos, hlt⟩ := hint
    have hmod : heap.length % 2 ^ 32 ≤ heap.length := Nat.mod_le _ _
    have hrun : heapSort heap = heapSortFrom (heap.length % 2 ^ 32) built := by
      have hint : toInt built.length = (heap.length % 2 ^ 32 : ℕ) := by
        rw [hlen, toInt_of_lt hlt]
      simp only [heapSort, hbuild, Option.bind_eq_bind, Option.bind_some, hint,
        if_neg (by omega : ¬ ((heap.length % 2 ^ 32 : ℕ) : ℤ) ≤ 0), Int.toNat_natCast]
    obtain ⟨sorted, hsort, hsame, hsorted⟩ := heapSortFrom_spec built hpos (by omega)
      (hheap.mono (by omega))
    rw [hrun, hsort]
    constructor
    · intro h
      obtain ⟨heap', heq, hascending, -⟩ := h
      obtain rfl := Option.some.inj heq
      refine ⟨hpos, hlt, ?_⟩
      by_cases hshort : heap.length < 2 ^ 31
      · exact Or.inl hshort
      · right
        have hequal := eq_of_pairwise_drop hpos (by omega) hheap hsame hascending
        exact fun x hx y hy => hequal x (hperm.symm.subset hx) y (hperm.symm.subset hy)
    · intro hsortable
      refine ⟨sorted, rfl, ?_, hsame.perm_whole.trans hperm⟩
      rcases hsortable.2.2 with hshort | hequal
      · have hwhole : heap.length % 2 ^ 32 = heap.length := Nat.mod_eq_of_lt (by omega)
        rw [hwhole, List.take_of_length_le (by rw [hsame.length]; omega)] at hsorted
        exact hsorted
      · apply List.pairwise_of_forall_mem_list
        intro x hx y hy
        have hmem := (hsame.perm_whole.trans hperm).subset
        exact le_of_eq (hequal x (hmem hx) y (hmem hy))
  · have hrun : heapSort heap = none := by
      simp only [heapSort, hbuild, Option.bind_eq_bind, Option.bind_some, hlen,
        if_pos (toInt_nonpos hint)]
    rw [hrun]
    constructor
    · intro h
      obtain ⟨heap', heq, -⟩ := h
      cases heq
    · intro h
      exact absurd ⟨h.1, h.2.1⟩ hint

/-- **The heap routines.** Building, popping and adjusting upwards do on every range what they are
for; verifying and sorting do so under their conditions, and on no other range. -/
theorem heap_routines_iff (heap : List α) :
    (∃ heap', heapBuild heap = some heap' ∧ IsHeap heap' ∧ heap'.Perm heap) ∧
    (∀ element < heap.length, UpOrdered heap heap.length (element + 1) →
      ∃ heap', heapAdjustUp heap element = some heap' ∧ IsHeap heap' ∧ heap'.Perm heap) ∧
    (IsHeap heap → heap ≠ [] → ∃ first heap', slot heap 1 = some first ∧ (∀ z ∈ heap, z ≤ first) ∧
      heapPop heap = some heap' ∧ HeapFrom 1 heap' (heap.length - 1) ∧
        (first :: heap'.take (heap.length - 1)).Perm heap) ∧
    ((∃ b, heapVerify heap = some b ∧ (b = true ↔ IsHeap heap)) ↔ heap ≠ [] ∧ LastInOrder heap) ∧
    ((∃ heap', heapSort heap = some heap' ∧ heap'.Pairwise (· ≤ ·) ∧ heap'.Perm heap) ↔
      Sortable heap) :=
  ⟨heapBuild_spec heap, fun _ h horder => heapAdjustUp_spec h horder,
    fun hheap hne => heapPop_spec hheap hne, heapVerify_iff heap, heapSort_iff heap⟩

/-- A range in ascending order passes for a heap, and empty ranges are left behind. -/
theorem not_heap_routines_correct :
    (heapVerify [1, 2] = some true ∧ ¬ IsHeap [1, 2]) ∧
      heapVerify ([] : List ℕ) = none ∧ heapSort ([] : List ℕ) = none := by
  refine ⟨⟨rfl, ?_⟩, rfl, rfl⟩
  intro hheap
  have hlast := hheap 2 (Nat.le_refl 2) (Nat.le_refl 2) (Nat.le_refl 1)
  exact absurd (beneath_some.mp hlast) (by decide)

end Carmel.Arrays
