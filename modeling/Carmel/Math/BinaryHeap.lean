/-
# Binary heaps that know where their elements are

The children of position `i` are at `2 * i` and `2 * i + 1`, and the heap keeps for every
element the position it is at. An element is moved by copying those in its way over the
hole. Seen with the element put into the hole at every step, each copy is a swap, and this
is how the invariants are stated.
-/

import Carmel.Math.Instances

namespace Carmel.Math

universe u v

/-- The element at each position, from 1, and the position of each element. -/
structure IndexedHeap (α : Type u) where
  elem : ℕ → α
  loc : α → ℕ

namespace IndexedHeap

section Model

variable {α : Type u} {K : Type v} [DecidableEq α] [LinearOrder K]

/-- Write an element to a position. -/
def put (H : IndexedHeap α) (i : ℕ) (a : α) : IndexedHeap α :=
  ⟨Function.update H.elem i a, Function.update H.loc a i⟩

/-- The loop that copies smaller children up over the hole at `parent`. -/
def siftDown (key : α → K) (size : ℕ) (temp : α) : ℕ → ℕ → ℕ → IndexedHeap α → IndexedHeap α × ℕ × ℕ
  | 0, parent, child, H => (H, parent, child)
  | fuel + 1, parent, child, H =>
    if child < size then
      let child := if key (H.elem (child + 1)) < key (H.elem child) then child + 1 else child
      if key (H.elem child) < key temp then
        siftDown key size temp fuel child (2 * child) (H.put parent (H.elem child))
      else
        (H, parent, child)
    else
      (H, parent, child)

/-- After the loop: the case of an only child, and the element goes into the hole. -/
def siftDownEnd (key : α → K) (size : ℕ) (temp : α) : IndexedHeap α × ℕ × ℕ → IndexedHeap α
  | (H, parent, child) =>
    if child = size ∧ key (H.elem child) < key temp then
      (H.put parent (H.elem child)).put child temp
    else
      H.put parent temp

/-- Repair the heap below position `i`. -/
def heapify (key : α → K) (size i : ℕ) (H : IndexedHeap α) : IndexedHeap α :=
  siftDownEnd key size (H.elem i) (siftDown key size (H.elem i) size i (2 * i) H)

/-- Take the first element off a heap of `size` elements. -/
def heapPop (key : α → K) (size : ℕ) (H : IndexedHeap α) : IndexedHeap α :=
  heapify key (size - 1) 1 (H.put 1 (H.elem size))

/-- The loop that copies larger parents down over the hole at `current`. -/
def siftUp (key : α → K) (temp : α) : ℕ → ℕ → IndexedHeap α → IndexedHeap α × ℕ
  | 0, current, H => (H, current)
  | fuel + 1, current, H =>
    if 1 < current ∧ key temp < key (H.elem (current / 2)) then
      siftUp key temp fuel (current / 2) (H.put current (H.elem (current / 2)))
    else
      (H, current)

/-- Repair the heap above position `i`. -/
def heapAdjustUp (key : α → K) (i : ℕ) (H : IndexedHeap α) : IndexedHeap α :=
  let (H', current) := siftUp key (H.elem i) i i H
  H'.put current (H.elem i)

end Model

section Spec

variable {α : Type u} {K : Type v} [DecidableEq α] [LinearOrder K]
variable {H : IndexedHeap α} {key : α → K} {S : Set α} {size i j k c p : ℕ} {a temp : α}

/-- Exchange the elements at two positions. -/
def swap (H : IndexedHeap α) (i j : ℕ) : IndexedHeap α := (H.put i (H.elem j)).put j (H.elem i)

/-- The positions from 1 to `size` hold the elements of `S`, each where it is said to be. -/
structure Holds (H : IndexedHeap α) (size : ℕ) (S : Set α) : Prop where
  elem : ∀ i, 1 ≤ i → i ≤ size → H.elem i ∈ S ∧ H.loc (H.elem i) = i
  loc : ∀ a ∈ S, 1 ≤ H.loc a ∧ H.loc a ≤ size ∧ H.elem (H.loc a) = a

/-- No child has a smaller key than its parent. -/
def Ordered (key : α → K) (H : IndexedHeap α) (size : ℕ) : Prop :=
  ∀ i, 2 ≤ i → i ≤ size → key (H.elem (i / 2)) ≤ key (H.elem i)

/-- Only the children of `p` may be out of order with it, and not with its parent. -/
structure DownOrdered (key : α → K) (H : IndexedHeap α) (size p : ℕ) : Prop where
  order : ∀ i, 2 ≤ i → i ≤ size → i / 2 ≠ p → key (H.elem (i / 2)) ≤ key (H.elem i)
  grand : 2 ≤ p → ∀ c, c / 2 = p → c ≤ size → key (H.elem (p / 2)) ≤ key (H.elem c)

/-- Only `p` may be out of order with its parent, and its children are not. -/
structure UpOrdered (key : α → K) (H : IndexedHeap α) (size p : ℕ) : Prop where
  order : ∀ i, 2 ≤ i → i ≤ size → i ≠ p → key (H.elem (i / 2)) ≤ key (H.elem i)
  grand : 2 ≤ p → ∀ c, c / 2 = p → c ≤ size → key (H.elem (p / 2)) ≤ key (H.elem c)

@[simp] theorem put_elem_self : (H.put i a).elem i = a := Function.update_self ..

theorem put_elem_of_ne (h : k ≠ i) : (H.put i a).elem k = H.elem k := Function.update_of_ne h ..

@[simp] theorem put_loc_self : (H.put i a).loc a = i := Function.update_self ..

theorem put_put_self : (H.put i a).put i a = H.put i a := by
  simp [put]

theorem swap_elem_right : (H.swap i j).elem j = H.elem i := put_elem_self

theorem swap_elem_left (h : i ≠ j) : (H.swap i j).elem i = H.elem j := by
  rw [swap, put_elem_of_ne h, put_elem_self]

theorem swap_elem_of_ne (hi : k ≠ i) (hj : k ≠ j) : (H.swap i j).elem k = H.elem k := by
  rw [swap, put_elem_of_ne hj, put_elem_of_ne hi]

/-- Copying over the hole is a swap, if the element is thought to be in the hole. -/
theorem put_put_eq_swap (h : i ≠ j) :
    (H.put i (H.elem j)).put j temp = (H.put i temp).swap i j := by
  have hj : (H.put i temp).elem j = H.elem j := put_elem_of_ne h.symm
  rw [swap, hj, put_elem_self]
  simp only [put, mk.injEq]
  constructor
  · rw [Function.update_idem]
  · funext b
    by_cases hb : b = temp
    · simp [hb]
    · simp [Function.update_of_ne hb, Function.update_apply]

omit [DecidableEq α] in
theorem Holds.inj (h : H.Holds size S) (hi : 1 ≤ i) (hi' : i ≤ size) (hj : 1 ≤ j) (hj' : j ≤ size)
    (heq : H.elem i = H.elem j) : i = j := by
  rw [← (h.elem i hi hi').2, heq, (h.elem j hj hj').2]

theorem Holds.swap (h : H.Holds size S) (hi : 1 ≤ i) (hi' : i ≤ size) (hj : 1 ≤ j) (hj' : j ≤ size)
    (hne : i ≠ j) : (H.swap i j).Holds size S := by
  have helem : H.elem i ≠ H.elem j := fun heq => hne (h.inj hi hi' hj hj' heq)
  have hloc_i : (H.swap i j).loc (H.elem i) = j := put_loc_self
  have hloc_j : (H.swap i j).loc (H.elem j) = i := by
    simp [IndexedHeap.swap, put, helem.symm]
  have hloc : ∀ a, a ≠ H.elem i → a ≠ H.elem j → (H.swap i j).loc a = H.loc a := by
    intro a hai haj
    simp [IndexedHeap.swap, put, hai, haj]
  constructor
  · intro k hk hk'
    by_cases hki : k = i
    · subst hki
      rw [swap_elem_left hne]
      exact ⟨(h.elem j hj hj').1, hloc_j⟩
    · by_cases hkj : k = j
      · subst hkj
        rw [swap_elem_right]
        exact ⟨(h.elem i hi hi').1, hloc_i⟩
      · rw [swap_elem_of_ne hki hkj, hloc _ (fun heq => hki (h.inj hk hk' hi hi' heq))
          (fun heq => hkj (h.inj hk hk' hj hj' heq))]
        exact h.elem k hk hk'
  · intro a ha
    obtain ⟨h₁, h₂, h₃⟩ := h.loc a ha
    by_cases hai : a = H.elem i
    · rw [hai, hloc_i]
      exact ⟨hj, hj', swap_elem_right⟩
    · by_cases haj : a = H.elem j
      · rw [haj, hloc_j]
        exact ⟨hi, hi', swap_elem_left hne⟩
      · rw [hloc a hai haj, swap_elem_of_ne]
        · exact ⟨h₁, h₂, h₃⟩
        · intro heq
          exact hai (by rw [← heq, h₃])
        · intro heq
          exact haj (by rw [← heq, h₃])

theorem DownOrdered.swap (h : DownOrdered key H size p) (hc : c / 2 = p) (hp : 1 ≤ p)
    (hmin : ∀ d, d / 2 = p → d ≤ size → key (H.elem c) ≤ key (H.elem d))
    (hle : key (H.elem c) ≤ key (H.elem p)) (hsize : c ≤ size) :
    DownOrdered key (H.swap p c) size c := by
  have hpc : p ≠ c := by omega
  constructor
  · intro i hi hi' hne
    by_cases hic : i = c
    · subst hic
      rw [hc, swap_elem_left hpc, swap_elem_right]
      exact hle
    · by_cases hip : i = p
      · subst hip
        rw [swap_elem_left hpc, swap_elem_of_ne (by omega) (by omega)]
        exact h.grand hi c hc hsize
      · rw [swap_elem_of_ne hip hic]
        by_cases hpar : i / 2 = p
        · rw [hpar, swap_elem_left hpc]
          exact hmin i hpar hi'
        · rw [swap_elem_of_ne hpar hne]
          exact h.order i hi hi' hpar
  · intro hc2 d hd hd'
    rw [hc, swap_elem_left hpc, swap_elem_of_ne (by omega) (by omega)]
    have hstep := h.order d (by omega) hd' (by omega)
    rwa [hd] at hstep

omit [DecidableEq α] in
theorem DownOrdered.ordered (h : DownOrdered key H size p)
    (hle : ∀ c, c / 2 = p → 2 ≤ c → c ≤ size → key (H.elem p) ≤ key (H.elem c)) :
    Ordered key H size := by
  intro i hi hi'
  by_cases hpar : i / 2 = p
  · rw [hpar]
    exact hle i hpar hi hi'
  · exact h.order i hi hi' hpar

theorem siftDown_spec (fuel : ℕ) : ∀ {p : ℕ} {H : IndexedHeap α}, 1 ≤ p → p ≤ size →
    size ≤ p + fuel → (H.put p temp).Holds size S → DownOrdered key (H.put p temp) size p →
    (siftDownEnd key size temp (siftDown key size temp fuel p (2 * p) H)).Holds size S ∧
      Ordered key (siftDownEnd key size temp (siftDown key size temp fuel p (2 * p) H)) size := by
  induction fuel with
  | zero =>
    intro p H hp hp' hfuel hholds horder
    rw [siftDown, siftDownEnd, if_neg (by omega)]
    exact ⟨hholds, horder.ordered fun c hc _ hc' => by omega⟩
  | succ fuel ih =>
    intro p H hp hp' hfuel hholds horder
    have helem : ∀ d, d / 2 = p → (H.put p temp).elem d = H.elem d :=
      fun d hd => put_elem_of_ne (by omega)
    rw [siftDown]
    by_cases hlt : 2 * p < size
    · rw [if_pos hlt]
      -- `c` is the smaller one of the two children
      generalize hc : (if key (H.elem (2 * p + 1)) < key (H.elem (2 * p)) then 2 * p + 1 else 2 * p) = c
      have hchild : c = 2 * p ∨ c = 2 * p + 1 := by
        rw [← hc]
        split
        · exact .inr rfl
        · exact .inl rfl
      have hcp : c / 2 = p := by omega
      have hmin : ∀ d, d / 2 = p → d ≤ size →
          key ((H.put p temp).elem c) ≤ key ((H.put p temp).elem d) := by
        intro d hd _
        rw [helem c hcp, helem d hd, ← hc]
        have hd' : d = 2 * p ∨ d = 2 * p + 1 := by omega
        split
        case isTrue hless =>
          rcases hd' with rfl | rfl
          · exact hless.le
          · exact le_refl _
        case isFalse hless =>
          rcases hd' with rfl | rfl
          · exact le_refl _
          · exact not_lt.mp hless
      by_cases hkey : key (H.elem c) < key temp
      · rw [if_pos hkey]
        refine ih (by omega) (by omega) (by omega) ?_ ?_
        · rw [put_put_eq_swap (by omega)]
          exact hholds.swap hp hp' (by omega) (by omega) (by omega)
        · rw [put_put_eq_swap (by omega)]
          refine horder.swap hcp hp hmin ?_ (by omega)
          rw [helem c hcp, put_elem_self]
          exact hkey.le
      · rw [if_neg hkey, siftDownEnd, if_neg fun h => hkey h.2]
        refine ⟨hholds, horder.ordered fun d hd _ hd' => ?_⟩
        have hle := hmin d hd hd'
        rw [helem c hcp] at hle
        rw [put_elem_self]
        exact (not_lt.mp hkey).trans hle
    · rw [if_neg hlt, siftDownEnd]
      split
      case isTrue h =>
        -- an only child, in the last place
        rw [put_put_eq_swap (by omega)]
        refine ⟨hholds.swap hp hp' (by omega) (by omega) (by omega), ?_⟩
        refine (horder.swap (by omega) hp (fun d hd hd' => ?_) ?_ (by omega)).ordered
          fun d hd _ hd' => by omega
        · obtain rfl : d = 2 * p := by omega
          exact le_refl _
        · rw [helem _ (by omega), put_elem_self]
          exact h.2.le
      case isFalse h =>
        refine ⟨hholds, horder.ordered fun d hd _ hd' => ?_⟩
        obtain rfl : d = 2 * p := by omega
        rw [helem _ hd, put_elem_self]
        exact not_lt.mp fun hkey => h ⟨by omega, hkey⟩

theorem Holds.moveLast (h : H.Holds (size + 1) S) (hsize : 1 ≤ size) :
    (H.put 1 (H.elem (size + 1))).Holds size (S \ {H.elem 1}) := by
  have hinj : ∀ {i j}, 1 ≤ i → i ≤ size + 1 → 1 ≤ j → j ≤ size + 1 → i ≠ j → H.elem i ≠ H.elem j :=
    fun hi hi' hj hj' hne heq => hne (h.inj hi hi' hj hj' heq)
  constructor
  · intro i hi hi'
    by_cases hi1 : i = 1
    · subst hi1
      rw [put_elem_self, put_loc_self]
      refine ⟨⟨(h.elem (size + 1) (by omega) (le_refl _)).1, ?_⟩, rfl⟩
      exact hinj (by omega) (le_refl _) (le_refl _) (by omega) (by omega)
    · obtain ⟨hmem, hloc⟩ := h.elem i hi (by omega)
      rw [put_elem_of_ne hi1]
      refine ⟨⟨hmem, hinj hi (by omega) (le_refl _) (by omega) hi1⟩, ?_⟩
      have hlast : H.elem i ≠ H.elem (size + 1) :=
        hinj hi (by omega) (by omega) (le_refl _) (by omega)
      exact (Function.update_of_ne hlast ..).trans hloc
  · rintro a ⟨ha, hne⟩
    obtain ⟨h₁, h₂, h₃⟩ := h.loc a ha
    by_cases hlast : a = H.elem (size + 1)
    · subst hlast
      rw [put_loc_self]
      exact ⟨le_refl _, hsize, put_elem_self⟩
    · have hloc : (H.put 1 (H.elem (size + 1))).loc a = H.loc a := Function.update_of_ne hlast ..
      have h1 : H.loc a ≠ 1 := fun heq => hne (by rw [← h₃, heq]; rfl)
      have hlt : H.loc a ≠ size + 1 := fun heq => hlast (by rw [← heq, h₃])
      rw [hloc, put_elem_of_ne h1]
      exact ⟨h₁, by omega, h₃⟩

/-- **Popping** leaves a heap without the first element. -/
theorem heapPop_spec (h : H.Holds (size + 1) S) (horder : Ordered key H (size + 1)) :
    (heapPop key (size + 1) H).Holds size (S \ {H.elem 1}) ∧
      Ordered key (heapPop key (size + 1) H) size := by
  by_cases hsize : 1 ≤ size
  · have hdown : DownOrdered key (H.put 1 (H.elem (size + 1))) size 1 := by
      refine ⟨fun i hi hi' hne => ?_, fun h2 => absurd h2 (by omega)⟩
      rw [put_elem_of_ne hne, put_elem_of_ne (by omega)]
      exact horder i hi (by omega)
    rw [heapPop, heapify, put_elem_self, Nat.add_sub_cancel]
    refine siftDown_spec size (le_refl _) hsize (by omega) ?_ ?_
    · rw [put_put_self]
      exact h.moveLast hsize
    · rwa [put_put_self]
  · obtain rfl : size = 0 := by omega
    refine ⟨⟨fun i hi hi' => absurd hi (by omega), fun a ha => ?_⟩, fun i hi hi' => absurd hi (by omega)⟩
    obtain ⟨h₁, h₂, h₃⟩ := h.loc a ha.1
    refine absurd ?_ ha.2
    obtain h1 : H.loc a = 1 := by omega
    rw [← h₃, h1]
    rfl

omit [DecidableEq α] in
theorem Ordered.le (h : Ordered key H size) (hi : 1 ≤ i) (hi' : i ≤ size) :
    key (H.elem 1) ≤ key (H.elem i) := by
  induction i using Nat.strongRecOn with
  | ind i ih =>
    by_cases h1 : i = 1
    · rw [h1]
    · exact (ih (i / 2) (by omega) (by omega) (by omega)).trans (h i (by omega) hi')

/-- The parent moves down. -/
theorem UpOrdered.swap (h : UpOrdered key H size p) (hp : 2 ≤ p) (hsize : p ≤ size)
    (hle : key (H.elem p) ≤ key (H.elem (p / 2))) : UpOrdered key (H.swap p (p / 2)) size (p / 2) := by
  have hne : p ≠ p / 2 := by omega
  constructor
  · intro i hi hi' hip
    by_cases heq : i = p
    · subst heq
      rw [swap_elem_right, swap_elem_left hne]
      exact hle
    · rw [swap_elem_of_ne heq hip]
      by_cases hpar : i / 2 = p / 2
      · rw [hpar, swap_elem_right]
        have hstep := h.order i hi hi' heq
        rw [hpar] at hstep
        exact hle.trans hstep
      · by_cases hchild : i / 2 = p
        · rw [hchild, swap_elem_left hne]
          exact h.grand hp i hchild hi'
        · rw [swap_elem_of_ne hchild hpar]
          exact h.order i hi hi' heq
  · intro hp2 d hd hd'
    have hup := h.order (p / 2) hp2 (by omega) hne.symm
    rw [swap_elem_of_ne (by omega) (by omega)]
    by_cases hdp : d = p
    · subst hdp
      rw [swap_elem_left hne]
      exact hup
    · rw [swap_elem_of_ne hdp (by omega)]
      have hstep := h.order d (by omega) hd' hdp
      rw [hd] at hstep
      exact hup.trans hstep

theorem siftUp_spec (fuel : ℕ) : ∀ {p : ℕ} {H : IndexedHeap α}, 1 ≤ p → p ≤ size → p ≤ fuel →
    (H.put p temp).Holds size S → UpOrdered key (H.put p temp) size p →
    ((siftUp key temp fuel p H).1.put (siftUp key temp fuel p H).2 temp).Holds size S ∧
      Ordered key ((siftUp key temp fuel p H).1.put (siftUp key temp fuel p H).2 temp) size := by
  induction fuel with
  | zero => exact fun hp _ h => absurd hp (by omega)
  | succ fuel ih =>
    intro p H hp hp' hfuel hholds horder
    rw [siftUp]
    by_cases h : 1 < p ∧ key temp < key (H.elem (p / 2))
    · rw [if_pos h]
      have hne : p ≠ p / 2 := by omega
      have helem : (H.put p temp).elem (p / 2) = H.elem (p / 2) := put_elem_of_ne hne.symm
      refine ih (by omega) (by omega) (by omega) ?_ ?_
      · rw [put_put_eq_swap hne]
        exact hholds.swap hp hp' (by omega) (by omega) hne
      · rw [put_put_eq_swap hne]
        refine horder.swap (by omega) hp' ?_
        rw [helem, put_elem_self]
        exact h.2.le
    · rw [if_neg h]
      refine ⟨hholds, fun i hi hi' => ?_⟩
      by_cases hip : i = p
      · subst hip
        rw [put_elem_self, put_elem_of_ne (by omega)]
        exact not_lt.mp fun hkey => h ⟨by omega, hkey⟩
      · exact horder.order i hi hi' hip

/-- **Adjusting up** after the key of an element has got smaller. -/
theorem heapAdjustUp_spec (h : H.Holds size S) (ha : a ∈ S)
    (horder : UpOrdered key H size (H.loc a)) :
    (heapAdjustUp key (H.loc a) H).Holds size S ∧
      Ordered key (heapAdjustUp key (H.loc a) H) size := by
  obtain ⟨h₁, h₂, h₃⟩ := h.loc a ha
  have hsame : H.put (H.loc a) (H.elem (H.loc a)) = H := by
    have hloc : Function.update H.loc a (H.loc a) = H.loc := Function.update_eq_self ..
    rw [put, Function.update_eq_self, h₃, hloc]
  exact siftUp_spec (H.loc a) h₁ h₂ (le_refl _) (by rwa [hsame]) (by rwa [hsame])

omit [LinearOrder K] in
/-- The first positions hold elements of `S`, and elements outside are where they were. -/
def MovesOnly (S : Set α) (size : ℕ) (H H' : IndexedHeap α) : Prop :=
  (∀ i, 1 ≤ i → i ≤ size → H'.elem i ∈ S) ∧ ∀ a ∉ S, H'.loc a = H.loc a

omit [LinearOrder K] in
theorem MovesOnly.put {H' : IndexedHeap α} (h : MovesOnly S size H H') (ha : a ∈ S) (i : ℕ) :
    MovesOnly S size H (H'.put i a) := by
  constructor
  · intro k hk hk'
    by_cases hki : k = i
    · rw [hki, put_elem_self]
      exact ha
    · rw [put_elem_of_ne hki]
      exact h.1 k hk hk'
  · intro b hb
    have hne : b ≠ a := fun heq => hb (heq ▸ ha)
    exact (Function.update_of_ne hne ..).trans (h.2 b hb)

theorem MovesOnly.siftUp {H' : IndexedHeap α} (h : MovesOnly S size H H') (fuel : ℕ) (hp : p ≤ size) :
    MovesOnly S size H (siftUp key temp fuel p H').1 := by
  induction fuel generalizing p H' with
  | zero => exact h
  | succ fuel ih =>
    rw [IndexedHeap.siftUp]
    by_cases hmove : 1 < p ∧ key temp < key (H'.elem (p / 2))
    · rw [if_pos hmove]
      exact ih (h.put (h.1 (p / 2) (by omega) (by omega)) p) (by omega)
    · rw [if_neg hmove]
      exact h

theorem movesOnly_heapAdjustUp (h : ∀ i, 1 ≤ i → i ≤ size → H.elem i ∈ S) (hp : 1 ≤ p)
    (hp' : p ≤ size) : MovesOnly S size H (heapAdjustUp key p H) := by
  have hself : MovesOnly S size H H := ⟨h, fun _ _ => rfl⟩
  exact (hself.siftUp p hp').put (h p hp hp') _

theorem MovesOnly.siftDown {H' : IndexedHeap α} (h : MovesOnly S size H H') (htemp : temp ∈ S)
    (fuel : ℕ) (hc : 1 ≤ c) :
    MovesOnly S size H (siftDownEnd key size temp (siftDown key size temp fuel p c H')) := by
  induction fuel generalizing p c H' with
  | zero =>
    rw [IndexedHeap.siftDown, siftDownEnd]
    split
    · rename_i hend
      exact (h.put (h.1 c hc hend.1.le) p).put htemp c
    · exact h.put htemp p
  | succ fuel ih =>
    rw [IndexedHeap.siftDown]
    by_cases hlt : c < size
    · rw [if_pos hlt]
      simp only
      -- the smaller child
      generalize hchild : (if key (H'.elem (c + 1)) < key (H'.elem c) then c + 1 else c) = child
      have hbounds : 1 ≤ child ∧ child ≤ size := by
        rw [← hchild]
        split <;> omega
      by_cases hkey : key (H'.elem child) < key temp
      · rw [if_pos hkey]
        exact ih (h.put (h.1 child hbounds.1 hbounds.2) p) (by omega)
      · rw [if_neg hkey, siftDownEnd]
        split
        · rename_i hend
          exact (h.put (h.1 child hbounds.1 hbounds.2) p).put htemp child
        · exact h.put htemp p
    · rw [if_neg hlt, siftDownEnd]
      split
      · rename_i hend
        exact (h.put (h.1 c hc hend.1.le) p).put htemp c
      · exact h.put htemp p

theorem heapPop_loc (h : H.Holds (size + 1) S) (ha : a ∉ S \ {H.elem 1}) :
    (heapPop key (size + 1) H).loc a = H.loc a := by
  by_cases hsize : 1 ≤ size
  · have hmoved := h.moveLast hsize
    have hself : MovesOnly (S \ {H.elem 1}) size (H.put 1 (H.elem (size + 1)))
        (H.put 1 (H.elem (size + 1))) := ⟨fun i hi hi' => (hmoved.elem i hi hi').1, fun _ _ => rfl⟩
    have htemp := (hmoved.elem 1 le_rfl hsize).1
    have hpop : heapPop key (size + 1) H = heapify key size 1 (H.put 1 (H.elem (size + 1))) := rfl
    have hlast : a ≠ H.elem (size + 1) := by
      rw [put_elem_self] at htemp
      exact fun heq => ha (heq ▸ htemp)
    rw [hpop]
    exact ((hself.siftDown htemp size (by decide)).2 a ha).trans (Function.update_of_ne hlast ..)
  · obtain rfl : size = 0 := by omega
    have hpop : heapPop key (0 + 1) H = (H.put 1 (H.elem 1)).put 1 (H.elem 1) := by
      have hself : (H.put 1 (H.elem 1)).elem 1 = H.elem 1 := put_elem_self
      rw [heapPop, heapify, hself]
      rfl
    rw [hpop, put_put_self]
    by_cases heq : a = H.elem 1
    · rw [heq, put_loc_self, (h.elem 1 le_rfl le_rfl).2]
    · exact Function.update_of_ne heq ..

end Spec

end IndexedHeap

end Carmel.Math
