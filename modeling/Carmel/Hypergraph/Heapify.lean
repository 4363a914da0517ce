/-
# Making a heap of what was queued unsorted

`heapify` moves the values down one after the other, from the parent of the place behind the
last value to the root. That place is itself left out, and it is the parent of the last
value when the number of values is not one more than a multiple of the arity.
-/

import Carmel.Hypergraph.DAryHeap

namespace Carmel

open Math

universe u v

namespace DAryHeap

section Code

variable {α : Type u} {K : Type v} [DecidableEq α] [LinearOrder K]

/-- Put a value behind the last one: `add_unsorted`. -/
def addUnsorted (v : α) (H : DAryHeap α) : DAryHeap α :=
  ⟨H.put H.size v, H.size + 1⟩

/-- Move the values at the places below `i` down, the last of them first. -/
def heapifyFrom (arity : ℕ) (distance : α → K) (n : ℕ) : ℕ → IndexedHeap α → IndexedHeap α
  | 0, H => H
  | i + 1, H =>
    heapifyFrom arity distance n i (preserveDown arity distance (H.elem i) n n H i)

/-- An empty heap has no place before its end: the unsigned index of its parent
is out of the array. -/
def heapify (arity : ℕ) (distance : α → K) (H : DAryHeap α) : Option (DAryHeap α) :=
  if H.size = 0 then none
  else some ⟨heapifyFrom arity distance H.size (parent arity H.size) H.toIndexedHeap, H.size⟩

end Code

section Spec

variable {α : Type u} {K : Type v} [DecidableEq α] [LinearOrder K]
variable {arity : ℕ} {distance : α → K} {H : IndexedHeap α} {S : Set α} {n p : ℕ} {v : α}

/-- The values at the places from `lo` on are in order with their children. -/
def InOrderFrom (arity : ℕ) (distance : α → K) (H : IndexedHeap α) (n lo : ℕ) : Prop :=
  ∀ i, 0 < i → i < n → lo ≤ parent arity i →
    distance (H.elem (parent arity i)) ≤ distance (H.elem i)

omit [DecidableEq α] in
theorem improve_congr {L : Type v} [LinearOrder L] {f : ℕ → K} {f' : ℕ → L} {places : List ℕ} :
    ∀ {start : ℕ}, (∀ i ∈ start :: places, ∀ j ∈ start :: places, f' i < f' j ↔ f i < f j) →
      improve f' start places = improve f start places := by
  induction places with
  | nil =>
    intro start _
    rfl
  | cons j places ih =>
    intro start h
    have hstep : (if f' j < f' start then j else start) = if f j < f start then j else start := by
      rw [if_congr (h j (by simp) start (by simp)) rfl rfl]
    show improve f' (if f' j < f' start then j else start) places =
      improve f (if f j < f start then j else start) places
    rw [hstep]
    apply ih
    have hsub : ∀ i ∈ (if f j < f start then j else start) :: places, i ∈ start :: j :: places := by
      intro i hi
      split at hi <;> simp only [List.mem_cons] at hi ⊢ <;> tauto
    intro i hi k hk
    exact h i (hsub i hi) k (hsub k hk)

/-- Moving down reads the distances behind the hole only. -/
theorem preserveDown_congr (harity : 0 < arity) {L : Type v} [LinearOrder L] {distance' : α → L}
    {rounds : ℕ} : ∀ {H : IndexedHeap α} {p : ℕ},
      (∀ i, p < i → i < n → (distance' (H.elem i) < distance' v ↔ distance (H.elem i) < distance v) ∧
        ∀ j, p < j → j < n →
          (distance' (H.elem i) < distance' (H.elem j) ↔ distance (H.elem i) < distance (H.elem j))) →
      preserveDown arity distance' v n rounds H p = preserveDown arity distance v n rounds H p := by
  induction rounds with
  | zero =>
    intro H p _
    rfl
  | succ rounds ih =>
    intro H p h
    rw [preserveDown, preserveDown]
    by_cases hleaf : child arity p 0 ≥ n
    · simp only [hleaf, if_true]
    · simp only [hleaf, if_false]
      have hfirst := lt_child harity p
      generalize hm : (if child arity p 0 + arity ≤ n then arity else n - child arity p 0) = m
      have hmn : m ≤ n - child arity p 0 := by
        rw [← hm]
        split <;> omega
      have hplaces : ∀ i ∈ child arity p 0 :: List.range' (child arity p 0 + 1) (m - 1),
          p < i ∧ i < n := by
        intro i hi
        rw [List.mem_cons, List.mem_range'_1] at hi
        omega
      have hsame : improve (fun i => distance' (H.elem i)) (child arity p 0)
          (List.range' (child arity p 0 + 1) (m - 1)) =
          improve (fun i => distance (H.elem i)) (child arity p 0)
            (List.range' (child arity p 0 + 1) (m - 1)) :=
        improve_congr fun i hi j hj =>
          (h i (hplaces i hi).1 (hplaces i hi).2).2 j (hplaces j hj).1 (hplaces j hj).2
      rw [hsame]
      generalize hs : improve (fun i => distance (H.elem i)) (child arity p 0)
        (List.range' (child arity p 0 + 1) (m - 1)) = s
      have hmem := (improve_spec (fun i => distance (H.elem i))
        (List.range' (child arity p 0 + 1) (m - 1)) (child arity p 0)).1
      rw [hs] at hmem
      obtain ⟨hps, hsn⟩ := hplaces s hmem
      rw [if_congr (h s hps hsn).1 rfl rfl]
      rw [ih]
      intro i hi hin
      have helem : ∀ j, s < j → (H.put p (H.elem s)).elem j = H.elem j := by
        intro j hj
        exact IndexedHeap.put_elem_of_ne (by omega)
      rw [helem i hi]
      refine ⟨(h i (by omega) hin).1, ?_⟩
      intro j hj hjn
      rw [helem j hj]
      exact (h i (by omega) hin).2 j (by omega) hjn

/-- The places before the hole are left alone. -/
theorem preserveDown_elem_of_lt (harity : 0 < arity) {rounds : ℕ} :
    ∀ {H : IndexedHeap α} {p i : ℕ}, i < p →
      (preserveDown arity distance v n rounds H p).elem i = H.elem i := by
  induction rounds with
  | zero =>
    intro H p i hi
    exact IndexedHeap.put_elem_of_ne hi.ne
  | succ rounds ih =>
    intro H p i hi
    rcases preserveDown_round distance H n p v harity rounds with ⟨heq, -⟩ | ⟨s, hps, -, -, -, -, heq⟩
    · rw [heq]
      exact IndexedHeap.put_elem_of_ne hi.ne
    · rw [heq, ih (hi.trans hps)]
      exact IndexedHeap.put_elem_of_ne hi.ne

/-- One value moved down puts its place in order, if those behind it are. -/
theorem preserveDown_from (harity : 0 < arity) (hp : p < n) (hlists : H.Lists n S)
    (horder : InOrderFrom arity distance H n (p + 1)) :
    (preserveDown arity distance (H.elem p) n n H p).Lists n S ∧
      InOrderFrom arity distance (preserveDown arity distance (H.elem p) n n H p) n p := by
  -- the values before the place are taken for the least ones
  let low : α → WithBot K := fun a => if H.loc a < p then ⊥ else (distance a : WithBot K)
  have hlow : ∀ i < p, low (H.elem i) = ⊥ := by
    intro i hi
    simp [low, (hlists.elem i (by omega)).2, hi]
  have hhigh : ∀ i, p ≤ i → i < n → low (H.elem i) = (distance (H.elem i) : WithBot K) := by
    intro i hi hin
    simp [low, (hlists.elem i hin).2, hi]
  have hself : H.put p (H.elem p) = H := hlists.put_self hp
  have habove : (H.put p (H.elem p)).InOrderAbove (parent arity) low n p := by
    rw [hself]
    constructor
    · intro i hi hin hne
      by_cases hlt : parent arity i < p
      · rw [hlow _ hlt]
        exact bot_le
      · have hup : parent arity i < i := parent_lt hi
        rw [hhigh _ (by omega) (by omega), hhigh i (by omega) hin, WithBot.coe_le_coe]
        exact horder i hi hin (by omega)
    · intro hp0 c _ _ _
      rw [hlow _ (parent_lt hp0)]
      exact bot_le
  have hspec := preserveDown_spec harity n hp (by omega) (hself.symm ▸ hlists) habove
  have hcongr : preserveDown arity low (H.elem p) n n H p =
      preserveDown arity distance (H.elem p) n n H p := by
    apply preserveDown_congr harity
    intro i hi hin
    rw [hhigh i hi.le hin, hhigh p le_rfl hp]
    refine ⟨WithBot.coe_lt_coe, ?_⟩
    intro j hj hjn
    rw [hhigh j hj.le hjn]
    exact WithBot.coe_lt_coe
  rw [hcongr] at hspec
  obtain ⟨hlists', horder'⟩ := hspec
  refine ⟨hlists', ?_⟩
  -- what is at a place from `p` on was there before
  have hkept : ∀ i, p ≤ i → i < n → low ((preserveDown arity distance (H.elem p) n n H p).elem i) =
        (distance ((preserveDown arity distance (H.elem p) n n H p).elem i) : WithBot K) := by
    intro i hi hin
    obtain ⟨j, hj, hat⟩ := hlists.mem_iff.mp (hlists'.elem i hin).1
    rw [← hat]
    apply hhigh j _ hj
    by_contra hlt
    have hsame : (preserveDown arity distance (H.elem p) n n H p).elem j = H.elem j :=
      preserveDown_elem_of_lt harity (not_le.mp hlt)
    have := hlists'.inj hj hin (hsame.trans hat)
    omega
  intro i hi hin hle
  have hup : parent arity i < i := parent_lt hi
  have hlow' := horder' i hi hin
  rwa [hkept _ hle (by omega), hkept i (by omega) hin, WithBot.coe_le_coe] at hlow'

theorem heapifyFrom_spec (harity : 0 < arity) : ∀ {i : ℕ} {H : IndexedHeap α}, i ≤ n →
    H.Lists n S → InOrderFrom arity distance H n i → (heapifyFrom arity distance n i H).Lists n S ∧
        (heapifyFrom arity distance n i H).InOrder (parent arity) distance n := by
  intro i
  induction i with
  | zero =>
    intro H _ hlists horder
    exact ⟨hlists, fun i hi hin => horder i hi hin (Nat.zero_le _)⟩
  | succ i ih =>
    intro H hi hlists horder
    obtain ⟨hlists', horder'⟩ := preserveDown_from harity (by omega) hlists horder
    exact ih (by omega) hlists' horder'

/-- The values that `heapify` does not move down are in order with their children. -/
def LastInOrder (arity : ℕ) (distance : α → K) (H : DAryHeap α) : Prop :=
  InOrderFrom arity distance H.toIndexedHeap H.size (parent arity H.size)

/-- **`heapify`**: a heap of one value at least is put in order when the values left out are. -/
theorem heapify_spec (harity : 0 < arity) {H : DAryHeap α} (hpos : 0 < H.size)
    (hlists : H.Lists H.size S) (hlast : LastInOrder arity distance H) :
    ∃ H', heapify arity distance H = some H' ∧ H'.size = H.size ∧ H'.Lists H'.size S ∧
      H'.InOrder (parent arity) distance H'.size := by
  refine ⟨_, if_neg (by omega), rfl, ?_⟩
  exact heapifyFrom_spec harity (parent_lt hpos).le hlists hlast

omit [DecidableEq α] in
/-- With one more value than a multiple of the arity, no value is left out. -/
theorem lastInOrder_of_mod (harity : 0 < arity) {H : DAryHeap α} (hmod : H.size % arity = 1 % arity)
    (hpos : 0 < H.size) : LastInOrder arity distance H := by
  intro i hi hin hle
  exfalso
  obtain ⟨k, hk⟩ := Nat.dvd_of_mod_eq_zero (Nat.sub_mod_eq_zero_of_mod_eq hmod)
  have hparent : parent arity H.size = k := by
    rw [parent, hk, Nat.mul_div_cancel_left _ harity]
  have hlt : parent arity i < k := by
    unfold parent
    rw [Nat.div_lt_iff_lt_mul harity, Nat.mul_comm, ← hk]
    omega
  omega

end Spec

end DAryHeap

end Carmel
