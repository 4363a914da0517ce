/-
# What a heap holds, wherever it is said to be

The array of a d-ary heap is put right by every operation, even where a root is
swapped and the location map goes wrong: the map is read only to find a value
that is improved while it is queued. What the map is written for is queued, and
what is written is a place of the heap.
-/

import Carmel.Hypergraph.Heapify

namespace Carmel

open Math

universe u v

namespace DAryHeap

variable {α : Type u} {K : Type v} [DecidableEq α] [LinearOrder K]
variable {arity : ℕ} {distance : α → K} {H H' : IndexedHeap α} {S : Set α} {n p : ℕ} {v a : α}

/-- The first `n` places hold the values of `S`, each once. -/
def Holds (H : IndexedHeap α) (n : ℕ) (S : Set α) : Prop :=
  ∃ loc : α → ℕ, (⟨H.elem, loc⟩ : IndexedHeap α).Lists n S

section

omit [DecidableEq α]

theorem holds_of_lists (h : H.Lists n S) : Holds H n S := ⟨H.loc, h⟩

theorem Holds.congr (h : Holds H n S) (heq : H'.elem = H.elem) : Holds H' n S := by
  obtain ⟨loc, hlists⟩ := h
  exact ⟨loc, heq ▸ hlists⟩

theorem Holds.mem_iff (h : Holds H n S) : a ∈ S ↔ ∃ i < n, H.elem i = a := by
  obtain ⟨_, hlists⟩ := h
  exact hlists.mem_iff

theorem Holds.elem_mem (h : Holds H n S) {i : ℕ} (hi : i < n) : H.elem i ∈ S :=
  h.mem_iff.mpr ⟨i, hi, rfl⟩

theorem Holds.le_card [Fintype α] (h : Holds H n S) : n ≤ Fintype.card α := by
  obtain ⟨_, hlists⟩ := h
  have hinj : Function.Injective fun i : Fin n => H.elem i := by
    intro i j heq
    exact Fin.ext (hlists.inj i.isLt j.isLt heq)
  have hle := Fintype.card_le_of_injective _ hinj
  rwa [Fintype.card_fin] at hle

theorem inOrder_elem_congr (h : H.InOrder (parent arity) distance n) (heq : H'.elem = H.elem) :
    H'.InOrder (parent arity) distance n := by
  intro i hi hin
  rw [heq]
  exact h i hi hin

end

theorem put_elem_congr (heq : H'.elem = H.elem) (i : ℕ) (a : α) :
    (H'.put i a).elem = (H.put i a).elem := by
  rw [IndexedHeap.put, IndexedHeap.put, heq]

/-- Moving up does not read the location map. -/
theorem preserveUp_elem : ∀ {p : ℕ} {H H' : IndexedHeap α}, H'.elem = H.elem →
    (preserveUp arity distance v H' p).elem = (preserveUp arity distance v H p).elem := by
  intro p
  induction p using Nat.strongRecOn with
  | ind p ih =>
    intro H H' heq
    rw [preserveUp, preserveUp]
    by_cases hp0 : p = 0
    · rw [if_pos hp0, if_pos hp0]
      exact put_elem_congr heq p v
    · rw [if_neg hp0, if_neg hp0]
      simp only [heq]
      by_cases hlt : distance v < distance (H.elem (parent arity p))
      · rw [if_pos hlt, if_pos hlt]
        exact ih _ (parent_lt (by omega)) (put_elem_congr heq p _)
      · rw [if_neg hlt, if_neg hlt]
        exact put_elem_congr heq p v

/-- Moving down does not read the location map. -/
theorem preserveDown_elem {rounds : ℕ} (heq : H'.elem = H.elem) :
    (preserveDown arity distance v n rounds H' p).elem =
      (preserveDown arity distance v n rounds H p).elem := by
  induction rounds generalizing H H' p with
  | zero => exact put_elem_congr heq p v
  | succ rounds ih =>
    rw [preserveDown, preserveDown]
    by_cases hleaf : child arity p 0 ≥ n
    · simp only [hleaf, if_true]
      exact put_elem_congr heq p v
    · simp only [hleaf, if_false, heq]
      by_cases hlt : distance (H.elem (improve (fun i => distance (H.elem i)) (child arity p 0)
          (List.range' (child arity p 0 + 1)
            ((if child arity p 0 + arity ≤ n then arity else n - child arity p 0) - 1)))) <
          distance v
      · rw [if_pos hlt, if_pos hlt]
        exact ih (put_elem_congr heq p _)
      · rw [if_neg hlt, if_neg hlt]
        exact put_elem_congr heq p v

theorem preserveRoot_elem (heq : H'.elem = H.elem) :
    (preserveRoot arity distance n H').elem = (preserveRoot arity distance n H).elem := by
  unfold preserveRoot
  by_cases hlarge : n > arity
  · simp only [hlarge, if_true, heq]
    by_cases hswap : improve (fun i => distance (H.elem i)) 0 (List.range' 1 arity) ≠ 0
    · rw [if_pos hswap, if_pos hswap]
      exact preserveDown_elem (put_elem_congr heq 0 _)
    · rw [if_neg hswap, if_neg hswap, heq]
  · simp only [hlarge, if_false]
    by_cases hone : n > 1
    · simp only [hone, if_true, heq]
      by_cases hswap : improve (fun i => distance (H.elem i)) 0 (List.range' 1 (n - 1)) ≠ 0
      · rw [if_pos hswap, if_pos hswap]
        simp only [swapHeapElements, heq]
      · rw [if_neg hswap, if_neg hswap, heq]
    · simp only [hone, if_false, heq]

/-- A swapped root is the least of its heap, and all others are its children. -/
theorem preserveRoot_swap (harity : 0 < arity) (hlists : H.Lists n S)
    (hswap : SwapsRoot arity distance n H (H.elem 0)) :
    Holds (preserveRoot arity distance n H) n S ∧
      (preserveRoot arity distance n H).InOrder (parent arity) distance n := by
  have hsmall := hswap.2.1
  obtain ⟨s, hs0, hsn, hle, heq⟩ := preserveRoot_of_swaps hswap
  rw [heq]
  have hdata : (swapHeapElements s 0 H).elem = (H.swap s 0).elem := rfl
  refine ⟨(holds_of_lists (hlists.swap hsn (by omega) hs0)).congr hdata, ?_⟩
  intro c hc hcn
  rw [hdata, (parent_eq_zero_iff harity hc).mpr (by omega), IndexedHeap.swap_elem_right]
  by_cases hcs : c = s
  · rw [hcs, IndexedHeap.swap_elem_left hs0]
    exact hle 0 (by omega)
  · rw [IndexedHeap.swap_elem_of_ne hcs (by omega)]
    exact hle c hcn

/-- **`pop`** takes the top off the array and leaves the rest in order. -/
theorem pop_holds (harity : 0 < arity) {H : DAryHeap α} (hpos : 0 < H.size)
    (hholds : Holds H.toIndexedHeap H.size S) (horder : H.InOrder (parent arity) distance H.size) :
    Holds (pop arity distance H).toIndexedHeap (pop arity distance H).size (S \ {H.top}) ∧
      (pop arity distance H).InOrder (parent arity) distance (pop arity distance H).size := by
  obtain ⟨loc, hlists⟩ := hholds
  obtain ⟨n, hn⟩ : ∃ n, H.size = n + 1 := ⟨H.size - 1, by omega⟩
  unfold pop top
  rw [hn] at hlists horder ⊢
  by_cases hn0 : n = 0
  · subst hn0
    rw [if_pos rfl]
    constructor
    · have hempty : S \ {H.elem 0} = ∅ := by
        apply Set.eq_empty_of_forall_notMem
        intro a ⟨ha, hne⟩
        obtain ⟨i, hi, rfl⟩ := hlists.mem_iff.mp ha
        exact hne (by rw [show i = 0 by omega]; rfl)
      rw [hempty]
      exact holds_of_lists IndexedHeap.Lists.empty
    · intro i hi hi'
      exact absurd hi' (by show ¬ i < 0; omega)
  · rw [if_neg (by omega), Nat.add_sub_cancel]
    -- the heap with the places that the values really have
    let G : IndexedHeap α := (⟨H.elem, loc⟩ : IndexedHeap α).put 0 (H.elem n)
    have hmoved : G.Lists n (S \ {H.elem 0}) := hlists.put_last (Nat.pos_of_ne_zero hn0)
    have helem : (H.put 0 (H.elem n)).elem = G.elem := rfl
    have habove : G.InOrderAbove (parent arity) distance n 0 := by
      apply inOrderAbove_zero
      intro i hi hi' hne
      rw [IndexedHeap.put_elem_of_ne hne, IndexedHeap.put_elem_of_ne (by omega)]
      exact horder i hi (by omega)
    have hspec : Holds (preserveRoot arity distance n G) n (S \ {H.elem 0}) ∧
        (preserveRoot arity distance n G).InOrder (parent arity) distance n := by
      by_cases hswap : SwapsRoot arity distance n G (G.elem 0)
      · exact preserveRoot_swap harity hmoved hswap
      · obtain ⟨hl, ho⟩ := preserveRoot_spec harity (Nat.pos_of_ne_zero hn0) hmoved habove hswap
        exact ⟨holds_of_lists hl, ho⟩
    exact ⟨hspec.1.congr (preserveRoot_elem helem),
      inOrder_elem_congr hspec.2 (preserveRoot_elem helem)⟩

/-- A value is queued, and not where the location map says: pushing or updating it
queues it once more. -/
def Mislaid (v : α) (H : DAryHeap α) : Prop :=
  (∃ i < H.size, H.elem i = v) ∧ ¬ H.contains v (H.loc v)

/-- **`push_or_update`** of a value that is not mislaid. -/
theorem pushOrUpdate_holds {d d' : α → K} {H : DAryHeap α}
    (hholds : Holds H.toIndexedHeap H.size S) (horder : H.InOrder (parent arity) d H.size)
    (hle : v ∈ S → d' v ≤ d v) (heq : ∀ a ∈ S, a ≠ v → d' a = d a) (hmislaid : ¬ Mislaid v H) :
    Holds (pushOrUpdate arity d' v H).toIndexedHeap (pushOrUpdate arity d' v H).size (insert v S) ∧
      (pushOrUpdate arity d' v H).InOrder (parent arity) d' (pushOrUpdate arity d' v H).size := by
  obtain ⟨loc, hlists⟩ := hholds
  let G : DAryHeap α := ⟨⟨H.elem, loc⟩, H.size⟩
  have horderG : G.InOrder (parent arity) d G.size := horder
  unfold pushOrUpdate
  by_cases hv : v ∈ S
  · obtain ⟨i, hi, hat⟩ := hlists.mem_iff.mp hv
    have hin : H.contains v (H.loc v) := by
      by_contra hnot
      exact hmislaid ⟨⟨i, hi, hat⟩, hnot⟩
    have hsame : H.loc v = G.loc v := by
      have hback := (hlists.elem _ hin.1).2
      rw [← hback]
      exact congrArg loc hin.2.symm
    obtain ⟨hl, ho⟩ := update_spec (H := G) hlists horderG hv (hle hv) heq
    have helem : (update arity d' v H).elem = (update arity d' v G).elem := by
      unfold update
      rw [hsame]
      exact preserveUp_elem rfl
    rw [if_pos hin, Set.insert_eq_of_mem hv]
    exact ⟨(holds_of_lists hl).congr helem, inOrder_elem_congr ho helem⟩
  · have hnot : ¬ H.contains v (H.loc v) := by
      intro ⟨hlt, hat⟩
      exact hv (hat ▸ (hlists.elem _ hlt).1)
    rw [if_neg hnot]
    have horder' : G.InOrder (parent arity) d' G.size := by
      apply inOrder_congr hlists _ horderG
      intro a ha
      exact heq a ha fun hav => hv (hav ▸ ha)
    obtain ⟨hl, ho⟩ := push_spec (H := G) hlists horder' hv
    unfold push at hl ho ⊢
    by_cases h0 : H.size ≠ 0
    · rw [if_pos h0]
      rw [if_pos h0] at hl ho
      exact ⟨(holds_of_lists hl).congr (preserveUp_elem rfl),
        inOrder_elem_congr ho (preserveUp_elem rfl)⟩
    · rw [if_neg h0]
      rw [if_neg h0] at hl ho
      exact ⟨(holds_of_lists hl).congr rfl, inOrder_elem_congr ho rfl⟩

/-- The map is written for values of `S` only, and with places before `n`. -/
def Relocated (n : ℕ) (S : Set α) (H H' : IndexedHeap α) : Prop :=
  ∀ a, H'.loc a = H.loc a ∨ (a ∈ S ∧ H'.loc a < n)

omit [DecidableEq α] in
theorem Relocated.refl : Relocated n S H H := fun _ => Or.inl rfl

omit [DecidableEq α] in
theorem Relocated.trans {H'' : IndexedHeap α} (h : Relocated n S H H')
    (h' : Relocated n S H' H'') : Relocated n S H H'' := by
  intro a
  rcases h' a with heq | hnew
  · rw [heq]
    exact h a
  · exact Or.inr hnew

theorem relocated_put (hp : p < n) (ha : a ∈ S) : Relocated n S H (H.put p a) := by
  intro b
  by_cases hb : b = a
  · subst hb
    rw [IndexedHeap.put_loc_self]
    exact Or.inr ⟨ha, hp⟩
  · exact Or.inl (Function.update_of_ne hb ..)

theorem relocated_preserveUp (hp : p < n) (hv : v ∈ S) (hS : ∀ i < p, H.elem i ∈ S) :
    Relocated n S H (preserveUp arity distance v H p) := by
  induction H, p using preserveUp.induct arity distance v with
  | case1 H =>
    rw [preserveUp, if_pos rfl]
    exact relocated_put hp hv
  | case2 H p hp0 parentValue hlt ih =>
    have hup : parent arity p < p := parent_lt (by omega)
    rw [preserveUp, if_neg hp0]
    simp only [show distance v < distance (H.elem (parent arity p)) from hlt, if_true]
    apply (relocated_put hp (hS _ hup)).trans
    apply ih (by omega)
    intro i hi
    rw [IndexedHeap.put_elem_of_ne (by omega)]
    exact hS i (by omega)
  | case3 H p hp0 parentValue hlt =>
    rw [preserveUp, if_neg hp0]
    simp only [show ¬ distance v < distance (H.elem (parent arity p)) from hlt, if_false]
    exact relocated_put hp hv

theorem relocated_preserveDown (harity : 0 < arity) {rounds : ℕ} (hv : v ∈ S) (hp : p < n)
    (hS : ∀ i < n, H.elem i ∈ S) :
    Relocated n S H (preserveDown arity distance v n rounds H p) := by
  induction rounds generalizing H p with
  | zero => exact relocated_put hp hv
  | succ rounds ih =>
    rcases preserveDown_round distance H n p v harity rounds with
      ⟨heq, -⟩ | ⟨s, -, hsn, -, -, -, heq⟩
    · rw [heq]
      exact relocated_put hp hv
    · rw [heq]
      apply (relocated_put hp (hS s hsn)).trans
      apply ih hsn
      intro i hi
      by_cases hip : i = p
      · rw [hip, IndexedHeap.put_elem_self]
        exact hS s hsn
      · rw [IndexedHeap.put_elem_of_ne hip]
        exact hS i hi

theorem relocated_preserveRoot (harity : 0 < arity) (hS : ∀ i < n, H.elem i ∈ S) :
    Relocated n S H (preserveRoot arity distance n H) := by
  unfold preserveRoot
  by_cases hlarge : n > arity
  · simp only [hlarge, if_true]
    generalize hs : improve (fun i => distance (H.elem i)) 0 (List.range' 1 arity) = s
    have hmem := (improve_spec (fun i => distance (H.elem i)) (List.range' 1 arity) 0).1
    rw [hs, List.mem_cons, List.mem_range'_1] at hmem
    have hsn : s < n := by omega
    by_cases hs0 : s ≠ 0
    · rw [if_pos hs0]
      apply (relocated_put (p := 0) (by omega) (hS s hsn)).trans
      apply relocated_preserveDown harity (hS 0 (by omega)) hsn
      intro i hi
      by_cases hi0 : i = 0
      · rw [hi0, IndexedHeap.put_elem_self]
        exact hS s hsn
      · rw [IndexedHeap.put_elem_of_ne hi0]
        exact hS i hi
    · rw [if_neg hs0]
      exact Relocated.refl
  · simp only [hlarge, if_false]
    by_cases hone : n > 1
    · simp only [hone, if_true]
      generalize hs : improve (fun i => distance (H.elem i)) 0 (List.range' 1 (n - 1)) = s
      have hmem := (improve_spec (fun i => distance (H.elem i)) (List.range' 1 (n - 1)) 0).1
      rw [hs, mem_places (by omega : 0 < n)] at hmem
      by_cases hs0 : s ≠ 0
      · rw [if_pos hs0]
        have hfirst : (swapHeapElements s 0 H).elem 0 ∈ S := by
          rw [show (swapHeapElements s 0 H).elem 0 = H.elem s by simp [swapHeapElements]]
          exact hS s hmem
        have hsecond : (swapHeapElements s 0 H).elem s ∈ S := by
          rw [show (swapHeapElements s 0 H).elem s = H.elem 0 by simp [swapHeapElements, hs0]]
          exact hS 0 (by omega)
        intro a
        by_cases ha : a = (swapHeapElements s 0 H).elem s
        · rw [ha]
          refine Or.inr ⟨hsecond, ?_⟩
          simp only [swapHeapElements, Function.update_self]
          omega
        · by_cases ha' : a = (swapHeapElements s 0 H).elem 0
          · rw [ha'] at ha ⊢
            refine Or.inr ⟨hfirst, ?_⟩
            simp only [swapHeapElements] at ha ⊢
            rw [Function.update_of_ne ha, Function.update_self]
            exact hmem
          · left
            simp only [swapHeapElements] at ha ha' ⊢
            rw [Function.update_of_ne ha, Function.update_of_ne ha']
      · rw [if_neg hs0]
        exact Relocated.refl
    · simp only [hone, if_false]
      exact Relocated.refl

theorem relocated_heapifyFrom (harity : 0 < arity) : ∀ {i : ℕ} {H : IndexedHeap α}, i ≤ n →
    H.Lists n S → InOrderFrom arity distance H n i →
      Relocated n S H (heapifyFrom arity distance n i H) := by
  intro i
  induction i with
  | zero =>
    intro H _ _ _
    exact Relocated.refl
  | succ i ih =>
    intro H hi hlists horder
    obtain ⟨hlists', horder'⟩ := preserveDown_from harity (by omega) hlists horder
    have hS : ∀ j < n, H.elem j ∈ S := fun j hj => (hlists.elem j hj).1
    exact (relocated_preserveDown harity (hS i (by omega)) (by omega) hS).trans
      (ih (by omega) hlists' horder')

theorem relocated_pop (harity : 0 < arity) {H : DAryHeap α} (hpos : 0 < H.size)
    (hS : ∀ i < H.size, H.elem i ∈ S) :
    Relocated H.size S H.toIndexedHeap (pop arity distance H).toIndexedHeap := by
  unfold pop
  by_cases hone : H.size = 1
  · rw [if_pos hone]
    exact Relocated.refl
  · rw [if_neg hone]
    apply (relocated_put (p := 0) (by omega) (hS (H.size - 1) (by omega))).trans
    have hsub : Relocated (H.size - 1) S (H.put 0 (H.elem (H.size - 1)))
        (preserveRoot arity distance (H.size - 1) (H.put 0 (H.elem (H.size - 1)))) := by
      apply relocated_preserveRoot harity
      intro i hi
      by_cases hi0 : i = 0
      · rw [hi0, IndexedHeap.put_elem_self]
        exact hS _ (by omega)
      · rw [IndexedHeap.put_elem_of_ne hi0]
        exact hS i (by omega)
    intro a
    rcases hsub a with heq | ⟨ha, hlt⟩
    · exact Or.inl heq
    · exact Or.inr ⟨ha, lt_of_lt_of_le hlt (Nat.sub_le _ _)⟩

theorem relocated_pushOrUpdate {H : DAryHeap α} (hv : v ∈ S) (hS : ∀ i < H.size, H.elem i ∈ S) :
    Relocated (H.size + 1) S H.toIndexedHeap (pushOrUpdate arity distance v H).toIndexedHeap := by
  unfold pushOrUpdate
  by_cases hin : H.contains v (H.loc v)
  · rw [if_pos hin]
    apply relocated_preserveUp (by have := hin.1; omega) hv
    intro i hi
    exact hS i (by have := hin.1; omega)
  · rw [if_neg hin]
    unfold push
    by_cases h0 : H.size ≠ 0
    · rw [if_pos h0]
      exact relocated_preserveUp (by omega) hv hS
    · rw [if_neg h0]
      exact relocated_put (by omega) hv

end DAryHeap

end Carmel
