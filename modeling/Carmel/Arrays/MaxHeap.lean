/-
# The maximum heap

`heapify` copies larger children over a hole and puts the element down last; an only child
at the end is a case of its own. `heapBuild`, `heapPop` and `heapSort` repair with it,
`heapAdjustUp` goes the other way. `heapVerify` never looks at the last element, and
`heapSort` counts an `int` down to one.
-/

import Carmel.Math.ListHeap

namespace Carmel.Arrays

open Carmel.Math

universe u

variable {α : Type u} [LinearOrder α]

section Code

/-- `*(heap + i - 1) = x`, where `heap + i - 1` is in the range. -/
def store (heap : List α) (i : ℕ) (x : α) : Option (List α) :=
  if 1 ≤ i ∧ i ≤ heap.length then some (heap.set (i - 1) x) else none

/-- The loop of `heapify`: the range, the hole and the child below it where the loop ends. -/
def siftDown (heapSize : ℕ) (temp : α) : ℕ → List α → ℕ → ℕ → Option (List α × ℕ × ℕ)
  | 0, _, _, _ => none
  | fuel + 1, heap, parent, child =>
    if child < heapSize then do
      let x ← slot heap child
      let y ← slot heap (child + 1)
      let child := if x < y then child + 1 else child
      let z ← slot heap child
      if temp < z then siftDown heapSize temp fuel (← store heap parent z) child (child * 2)
      else some (heap, parent, child)
    else some (heap, parent, child)

/-- What follows the loop of `heapify`: an only child, and the element goes into the hole. -/
def siftDownEnd (heapSize : ℕ) (temp : α) (heap : List α) (parent child : ℕ) : Option (List α) :=
  if child = heapSize then do
    let z ← slot heap child
    if temp < z then store (← store heap parent z) child temp else store heap parent temp
  else store heap parent temp

/-- `heapify`. A child is below its parent, so the loop goes round `heapSize` times at most. -/
def heapify (heap : List α) (heapSize i : ℕ) : Option (List α) := do
  let temp ← slot heap i
  let (heap, parent, child) ← siftDown heapSize temp (heapSize + 1) heap i (2 * i)
  siftDownEnd heapSize temp heap parent child

/-- `--size` in `std::size_t`. -/
def predSize (size : ℕ) : ℕ := if size = 0 then 2 ^ 64 - 1 else size - 1

/-- `heapPop`. -/
def heapPop (heap : List α) : Option (List α) := do
  let size := predSize heap.length
  let heap ← store heap 1 (← heap[size]?)
  heapify heap size 1

/-- The loop of `heapBuild`, from `i` down. -/
def heapBuildFrom (size : ℕ) : ℕ → List α → Option (List α)
  | 0, heap => some heap
  | i + 1, heap => do heapBuildFrom size i (← heapify heap size (i + 1))

/-- `heapBuild`. -/
def heapBuild (heap : List α) : Option (List α) :=
  heapBuildFrom heap.length (heap.length / 2) heap

/-- The loop of `heapVerify`, when `--size` has given a value. -/
def heapVerifyFrom (heap : List α) : ℕ → Option Bool
  | size + 2 =>
    (slot heap ((size + 2) / 2)).bind fun x =>
      (slot heap (size + 2)).bind fun y =>
        if x < y then some false else heapVerifyFrom heap (size + 1)
  | _ => some true

/-- `heapVerify`. -/
def heapVerify (heap : List α) : Option Bool := heapVerifyFrom heap (predSize heap.length)

/-- The loop of `heapAdjustUp`. -/
def siftUp (temp : α) : ℕ → List α → ℕ → Option (List α × ℕ)
  | 0, _, _ => none
  | fuel + 1, heap, current =>
    if 1 < current then do
      let x ← slot heap (current / 2)
      if x < temp then siftUp temp fuel (← store heap current x) (current / 2)
      else some (heap, current)
    else some (heap, current)

/-- `heapAdjustUp`, of the element `element` places behind the start. -/
def heapAdjustUp (heap : List α) (element : ℕ) : Option (List α) := do
  let temp ← slot heap (element + 1)
  let (heap, current) ← siftUp temp (element + 1) heap (element + 1)
  store heap current temp

/-- The value of a `std::ptrdiff_t` as an `int`. -/
def toInt (n : ℕ) : ℤ := if n % 2 ^ 32 < 2 ^ 31 then (n % 2 ^ 32 : ℕ) else (n % 2 ^ 32 : ℕ) - 2 ^ 32

/-- The loop of `heapSort`, from a positive `i`. -/
def heapSortFrom : ℕ → List α → Option (List α)
  | i + 2, heap => do
    let x ← slot heap 1
    let y ← slot heap (i + 2)
    let heap ← store heap 1 y
    let heap ← store heap (i + 2) x
    heapSortFrom (i + 1) (← heapify heap (i + 1) 1)
  | 1, heap => some heap
  | 0, _ => none

/-- `heapSort`. The exchange with place `i` is outside the range where `i` is not positive. -/
def heapSort (heap : List α) : Option (List α) := do
  let heap ← heapBuild heap
  let heapSize := toInt heap.length
  if heapSize ≤ 0 then none else heapSortFrom heapSize.toNat heap

end Code

section Specs

variable {heap : List α} {heapSize i k : ℕ} {temp x y : α}

omit [LinearOrder α] in
theorem store_eq (heap : List α) (h : 1 ≤ i) (h' : i ≤ heap.length) (x : α) :
    store heap i x = some (heap.set (i - 1) x) := if_pos ⟨h, h'⟩

theorem siftDown_spec (temp : α) {lo : ℕ} (hlo : 1 ≤ lo) (fuel : ℕ) : ∀ (heap : List α) {p : ℕ}, lo ≤ p →
    p ≤ heapSize → heapSize ≤ heap.length → heapSize + 1 ≤ p + fuel →
    DownOrdered lo (heap.set (p - 1) temp) heapSize p →
    ∃ heap₁ parent child heap', siftDown heapSize temp fuel heap p (2 * p) =
        some (heap₁, parent, child) ∧ siftDownEnd heapSize temp heap₁ parent child = some heap' ∧
      Rearranged heapSize (heap.set (p - 1) temp) heap' ∧ HeapFrom lo heap' heapSize := by
  induction fuel with
  | zero =>
    intro heap p hlop hp hlen hfuel
    omega
  | succ fuel ih =>
    intro heap p hlop hp hlen hfuel horder
    have hput : store heap p temp = some (heap.set (p - 1) temp) := store_eq heap (by omega) (by omega) _
    have hhole : slot (heap.set (p - 1) temp) p = some temp := slot_set_self (by omega) (by omega)
    have hother : ∀ d, d / 2 = p → slot (heap.set (p - 1) temp) d = slot heap d :=
      fun d hd => slot_set_of_ne (by omega) (by omega)
    rw [siftDown]
    by_cases hlt : 2 * p < heapSize
    · rw [if_pos hlt]
      obtain ⟨x, hx⟩ := exists_slot (l := heap) (i := 2 * p) (by omega) (by omega)
      obtain ⟨y, hy⟩ := exists_slot (l := heap) (i := 2 * p + 1) (by omega) (by omega)
      -- `c` is the larger one of the two children
      obtain ⟨c, z, hif, hz, hcp, hmax⟩ : ∃ c z, (if x < y then 2 * p + 1 else 2 * p) = c ∧
          slot heap c = some z ∧ c / 2 = p ∧ (x ≤ z ∧ y ≤ z ∧ c ≤ heapSize) := by
        by_cases hless : x < y
        · exact ⟨_, y, if_pos hless, hy, by omega, hless.le, le_refl _, by omega⟩
        · exact ⟨_, x, if_neg hless, hx, by omega, le_refl _, not_lt.mp hless, by omega⟩
      have hlarger : ∀ d, d / 2 = p → d ≤ heapSize →
          Beneath (slot (heap.set (p - 1) temp) d) (slot (heap.set (p - 1) temp) c) := by
        intro d hd _
        rw [hother d hd, hother c hcp, hz]
        rcases (by omega : d = 2 * p ∨ d = 2 * p + 1) with rfl | rfl
        · rw [hx]
          exact beneath_some.mpr hmax.1
        · rw [hy]
          exact beneath_some.mpr hmax.2.1
      have hchild : slot (heap.set (p - 1) temp) c = some z := by rw [hother c hcp, hz]
      simp only [Option.bind_eq_bind, hx, hy, Option.bind_some, hif, hz]
      by_cases hkey : temp < z
      · have hmove : Beneath (slot (heap.set (p - 1) temp) p) (slot (heap.set (p - 1) temp) c) := by
          rw [hhole, hchild]
          exact beneath_some.mpr hkey.le
        have hswap := set_set_eq_exchange (x := temp) (by omega : 1 ≤ p) (by omega)
          (by omega : p ≠ c) hz
        have hdown := horder.exchange hlo hlop hhole hchild hcp hmax.2.2 hlarger hmove
        rw [← hswap] at hdown
        obtain ⟨heap₁, parent, child, heap', hloop, hend, hsame, hheap⟩ :=
          ih (heap.set (p - 1) z) (p := c) (by omega) (by omega)
            (by rw [List.length_set]; exact hlen) (by omega) hdown
        rw [if_pos hkey, store_eq heap (by omega) (by omega), Option.bind_some, Nat.mul_comm c 2]
        refine ⟨heap₁, parent, child, heap', hloop, hend, ?_, hheap⟩
        rw [hswap] at hsame
        exact (rearranged_exchange hhole hchild hp hmax.2.2).trans hsame
      · rw [if_neg hkey]
        refine ⟨heap, p, c, heap.set (p - 1) temp, rfl, ?_, .refl _ _, ?_⟩
        · simp only [siftDownEnd, hz, Option.bind_eq_bind, Option.bind_some, hkey, if_false, hput,
            ite_self]
        · apply horder.heapFrom
          intro d hd _ hd'
          have hle := hlarger d hd hd'
          rw [hchild] at hle
          rw [hhole]
          exact hle.trans (beneath_some.mpr (not_lt.mp hkey))
    · rw [if_neg hlt]
      by_cases honly : 2 * p = heapSize
      · obtain ⟨z, hz⟩ := exists_slot (l := heap) (i := 2 * p) (by omega) (by omega)
        have hchild : slot (heap.set (p - 1) temp) (2 * p) = some z := by
          rw [hother _ (by omega), hz]
        by_cases hkey : temp < z
        · -- an only child, in the last place
          have hswap := set_set_eq_exchange (x := temp) (by omega : 1 ≤ p) (by omega)
            (by omega : p ≠ 2 * p) hz
          have hmove : Beneath (slot (heap.set (p - 1) temp) p)
              (slot (heap.set (p - 1) temp) (2 * p)) := by
            rw [hhole, hchild]
            exact beneath_some.mpr hkey.le
          have hself : ∀ d, d / 2 = p → d ≤ heapSize →
              Beneath (slot (heap.set (p - 1) temp) d) (slot (heap.set (p - 1) temp) (2 * p)) := by
            intro d hd hd'
            obtain rfl : d = 2 * p := by omega
            exact Beneath.refl _
          have hdown := horder.exchange hlo hlop hhole hchild (by omega) (by omega) hself hmove
          refine ⟨heap, p, 2 * p, _, rfl, ?_,
            rearranged_exchange hhole hchild hp (by omega), hdown.heapFrom ?_⟩
          · have hfirst := store_eq heap (by omega : 1 ≤ p) (by omega) z
            have hsecond := store_eq (heap.set (p - 1) z) (by omega : 1 ≤ 2 * p)
              (by rw [List.length_set]; omega) temp
            rw [hswap] at hsecond
            rw [siftDownEnd, if_pos honly]
            simp only [hz, Option.bind_eq_bind, Option.bind_some, hkey, if_true, hfirst, hsecond]
          · intro d hd _ hd'
            omega
        · refine ⟨heap, p, 2 * p, heap.set (p - 1) temp, rfl, ?_, .refl _ _, horder.heapFrom ?_⟩
          · simp only [siftDownEnd, hz, Option.bind_eq_bind, Option.bind_some, hkey, if_false, hput,
              ite_self]
          · intro d hd _ hd'
            obtain rfl : d = 2 * p := by omega
            rw [hchild, hhole]
            exact beneath_some.mpr (not_lt.mp hkey)
      · refine ⟨heap, p, 2 * p, heap.set (p - 1) temp, rfl, ?_, .refl _ _, horder.heapFrom ?_⟩
        · rw [siftDownEnd, if_neg honly, hput]
        · intro d hd _ hd'
          omega

/-- `heapify` makes a heap of two heaps and a place above them. -/
theorem heapify_spec (hi : 1 ≤ i) (hi' : i ≤ heapSize) (hlen : heapSize ≤ heap.length) {lo : ℕ}
    (hlo : 1 ≤ lo) (hloi : lo ≤ i) (horder : DownOrdered lo heap heapSize i) :
    ∃ heap', heapify heap heapSize i = some heap' ∧ Rearranged heapSize heap heap' ∧
      HeapFrom lo heap' heapSize := by
  obtain ⟨temp, htemp⟩ := exists_slot (l := heap) hi (by omega)
  have hset := set_slot htemp
  obtain ⟨heap₁, parent, child, heap', hloop, hend, hsame, hheap⟩ :=
    siftDown_spec temp hlo (heapSize + 1) heap hloi hi' hlen (by omega)
      (by rwa [hset])
  rw [hset] at hsame
  refine ⟨heap', ?_, hsame, hheap⟩
  simp only [heapify, htemp, Option.bind_eq_bind, Option.bind_some, hloop, hend]

theorem heapify_of_lt (htemp : slot heap i = some temp) (hleaf : heapSize < 2 * i) :
    heapify heap heapSize i = some heap := by
  obtain ⟨hi, hi'⟩ := slot_bounds htemp
  simp only [heapify, htemp, Option.bind_eq_bind, Option.bind_some, siftDown,
    if_neg (by omega : ¬ 2 * i < heapSize)]
  rw [siftDownEnd, if_neg (by omega), store_eq heap hi hi', set_slot htemp]

theorem heapBuildFrom_spec (hlen : heapSize = heap.length) (hi : i ≤ heapSize / 2)
    (hheap : HeapFrom (i + 1) heap heapSize) :
    ∃ heap', heapBuildFrom heapSize i heap = some heap' ∧ Rearranged heapSize heap heap' ∧
      HeapFrom 1 heap' heapSize := by
  induction i generalizing heap with
  | zero => exact ⟨heap, rfl, .refl _ _, hheap⟩
  | succ i ih =>
    have hdown : DownOrdered (i + 1) heap heapSize (i + 1) := by
      constructor
      · intro c hc hc' hlo hne
        exact hheap c hc hc' (by omega)
      · intro hlo
        omega
    obtain ⟨heap₁, hrun, hsame, hheap₁⟩ :=
      heapify_spec (by omega) (by omega) (Nat.le_of_eq hlen) (by omega) (Nat.le_refl _) hdown
    obtain ⟨heap', hrest, hsame', hheap'⟩ := ih (hlen.trans hsame.length.symm) (by omega) hheap₁
    refine ⟨heap', ?_, hsame.trans hsame', hheap'⟩
    simp only [heapBuildFrom, hrun, Option.bind_eq_bind, Option.bind_some, hrest]

theorem heapBuild_spec (heap : List α) :
    ∃ heap', heapBuild heap = some heap' ∧ IsHeap heap' ∧ heap'.Perm heap := by
  have hleaves : HeapFrom (heap.length / 2 + 1) heap heap.length := by
    intro c hc hc' hlo
    omega
  obtain ⟨heap', hrun, hsame, hheap⟩ := heapBuildFrom_spec rfl (Nat.le_refl _) hleaves
  refine ⟨heap', hrun, ?_, hsame.perm_whole⟩
  rw [IsHeap, hsame.length]
  exact hheap

/-- `heapPop` leaves a heap of all elements but the first in front. -/
theorem heapPop_spec (hheap : IsHeap heap) (hne : heap ≠ []) :
    ∃ first heap', slot heap 1 = some first ∧ (∀ z ∈ heap, z ≤ first) ∧
      heapPop heap = some heap' ∧ HeapFrom 1 heap' (heap.length - 1) ∧
        (first :: heap'.take (heap.length - 1)).Perm heap := by
  cases heap with
  | nil => exact absurd rfl hne
  | cons first rest =>
    have hfirst : slot (first :: rest) 1 = some first := rfl
    have hle : ∀ z ∈ first :: rest, z ≤ first := by
      intro z hz
      apply hheap.le_first hfirst
      rwa [List.take_of_length_le (Nat.le_refl _)]
    have hpred : predSize (first :: rest).length = rest.length := if_neg (by simp)
    obtain ⟨last, hlast⟩ := exists_slot (l := first :: rest) (i := rest.length + 1) (by omega)
      (by simp)
    rw [slot_succ] at hlast
    have hstore : store (first :: rest) 1 last = some (last :: rest) :=
      store_eq (first :: rest) (Nat.le_refl _) (by simp) last
    have hpop : heapPop (first :: rest) = heapify (last :: rest) rest.length 1 := by
      simp only [heapPop, hpred, hlast, Option.bind_eq_bind, Option.bind_some, hstore]
    have hperm : (first :: (last :: rest).take rest.length).Perm (first :: rest) := by
      rcases List.eq_nil_or_concat rest with rfl | ⟨mid, z, rfl⟩
      · exact .refl _
      · rw [List.concat_eq_append] at hlast ⊢
        have hz : z = last := by simpa using hlast
        rw [hz, List.length_append, List.length_singleton, List.take_succ_cons,
          List.take_append_of_le_length (Nat.le_refl _), List.take_of_length_le (Nat.le_refl _)]
        exact (List.perm_append_singleton last mid).symm.cons first
    refine ⟨first, ?_⟩
    rw [List.length_cons, Nat.add_sub_cancel, hpop]
    by_cases hsize : 1 ≤ rest.length
    · have hother : ∀ k, k ≠ 1 → slot (last :: rest) k = slot (first :: rest) k :=
        fun k hk => slot_set_of_ne (l := first :: rest) (x := last) (Nat.le_refl _) hk
      have hdown : DownOrdered 1 (last :: rest) rest.length 1 := by
        constructor
        · intro c hc hc' _ hne1
          rw [hother c (by omega), hother (c / 2) hne1]
          exact hheap c hc (by rw [List.length_cons]; omega) (by omega)
        · intro h
          omega
      obtain ⟨heap', hrun, hsame, hheap'⟩ := heapify_spec (Nat.le_refl 1) hsize
        (by rw [List.length_cons]; omega) (Nat.le_refl 1) (Nat.le_refl 1) hdown
      exact ⟨heap', hfirst, hle, hrun, hheap', (hsame.perm.cons first).trans hperm⟩
    · have hrun : heapify (last :: rest) rest.length 1 = some (last :: rest) :=
        heapify_of_lt rfl (by omega)
      refine ⟨last :: rest, hfirst, hle, hrun, ?_, hperm⟩
      intro c hc hc'
      omega

theorem siftUp_spec (temp : α) (fuel : ℕ) : ∀ (heap : List α) {p : ℕ}, 1 ≤ p → p ≤ heap.length → p ≤ fuel →
    UpOrdered (heap.set (p - 1) temp) heap.length p →
    ∃ heap₁ current, siftUp temp fuel heap p = some (heap₁, current) ∧
      ∃ heap', store heap₁ current temp = some heap' ∧ IsHeap heap' ∧
        heap'.Perm (heap.set (p - 1) temp) := by
  induction fuel with
  | zero =>
    intro heap p hp hp' hfuel
    omega
  | succ fuel ih =>
    intro heap p hp hp' hfuel horder
    have hput : store heap p temp = some (heap.set (p - 1) temp) := store_eq heap hp hp' _
    have hhole : slot (heap.set (p - 1) temp) p = some temp := slot_set_self hp hp'
    have hlen : (heap.set (p - 1) temp).length = heap.length := List.length_set
    rw [siftUp]
    by_cases h1 : 1 < p
    · obtain ⟨x, hx⟩ := exists_slot (l := heap) (i := p / 2) (by omega) (by omega)
      have hparent : slot (heap.set (p - 1) temp) (p / 2) = some x := by
        rw [slot_set_of_ne hp (by omega), hx]
      rw [if_pos h1]
      simp only [Option.bind_eq_bind, hx, Option.bind_some]
      by_cases hkey : x < temp
      · have hmove : Beneath (slot (heap.set (p - 1) temp) (p / 2))
            (slot (heap.set (p - 1) temp) p) := by
          rw [hhole, hparent]
          exact beneath_some.mpr hkey.le
        have hswap := set_set_eq_exchange (x := temp) hp hp' (by omega : p ≠ p / 2) hx
        have hup := horder.exchange h1 hp' hhole hparent hmove
        rw [← hswap] at hup
        obtain ⟨heap₁, current, hloop, heap', hstore, hheap, hperm⟩ :=
          ih (heap.set (p - 1) x) (p := p / 2) (by omega)
            (by rw [List.length_set]; omega) (by omega) (by rwa [List.length_set])
        rw [if_pos hkey, store_eq heap hp hp', Option.bind_some]
        refine ⟨heap₁, current, hloop, heap', hstore, hheap, ?_⟩
        rw [hswap] at hperm
        exact hperm.trans (rearranged_exchange hhole hparent hp' (by omega)).perm_whole
      · rw [if_neg hkey]
        refine ⟨heap, p, rfl, _, hput, ?_, .refl _⟩
        rw [IsHeap, hlen]
        apply horder.heapFrom
        intro _
        rw [hhole, hparent]
        exact beneath_some.mpr (not_lt.mp hkey)
    · rw [if_neg h1]
      refine ⟨heap, p, rfl, _, hput, ?_, .refl _⟩
      rw [IsHeap, hlen]
      exact horder.heapFrom fun h2 => absurd h2 (by omega)

/-- `heapAdjustUp` makes a heap of a range in which one element may be above its parents. -/
theorem heapAdjustUp_spec {element : ℕ} (h : element < heap.length)
    (horder : UpOrdered heap heap.length (element + 1)) :
    ∃ heap', heapAdjustUp heap element = some heap' ∧ IsHeap heap' ∧ heap'.Perm heap := by
  obtain ⟨temp, htemp⟩ := exists_slot (l := heap) (i := element + 1) (by omega) (by omega)
  have hset := set_slot htemp
  obtain ⟨heap₁, current, hloop, heap', hstore, hheap, hperm⟩ :=
    siftUp_spec temp (element + 1) heap (by omega) (by omega) (Nat.le_refl _)
      (by rwa [hset])
  rw [hset] at hperm
  refine ⟨heap', ?_, hheap, hperm⟩
  simp only [heapAdjustUp, htemp, Option.bind_eq_bind, Option.bind_some, hloop, hstore]

end Specs

end Carmel.Arrays
