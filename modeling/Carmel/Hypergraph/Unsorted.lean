/-
# Values queued unsorted

Values are queued in any order, and `finish_adding` makes a heap of them. Equal values have
one place in the location map. `heapify` looks at no place behind the last value and loses
no value; the heap is in order if and only if the values that it does not move down were.
-/

import Carmel.Hypergraph.Heapify

namespace Carmel

open Math

universe u v w

namespace DAryHeap

section Code

variable {α : Type u} {K : Type v} [DecidableEq α] [LinearOrder K]

/-- `preserve_heap_property_down` with the places of the array that it reads or writes.
No result if the rounds do not do. -/
def preserveDownTrace (arity : ℕ) (distance : α → K) (v : α) (heapSize : ℕ) :
    ℕ → IndexedHeap α → ℕ → Option (IndexedHeap α × List ℕ)
  | 0, _, _ => none
  | rounds + 1, H, index =>
    let first := child arity index 0
    if first ≥ heapSize then some (H.put index v, [index])
    else
      let children := if first + arity ≤ heapSize then arity else heapSize - first
      let smallest := improve (fun i => distance (H.elem i)) first
        (List.range' (first + 1) (children - 1))
      if distance (H.elem smallest) < distance v then
        (preserveDownTrace arity distance v heapSize rounds (H.put index (H.elem smallest))
          smallest).map fun r =>
            (r.1, first :: List.range' (first + 1) (children - 1) ++ smallest :: index :: r.2)
      else some (H.put index v, first :: List.range' (first + 1) (children - 1) ++ [index])

/-- The loop of `heapify`, with the places. -/
def heapifyFromTrace (arity : ℕ) (distance : α → K) (n : ℕ) :
    ℕ → IndexedHeap α → Option (IndexedHeap α × List ℕ)
  | 0, H => some (H, [])
  | i + 1, H =>
    (preserveDownTrace arity distance (H.elem i) n n H i).bind fun r =>
      (heapifyFromTrace arity distance n i r.1).map fun t => (t.1, i :: r.2 ++ t.2)

/-- `heapify`, with the places. Without values it leaves the array. -/
def heapifyTrace (arity : ℕ) (distance : α → K) (H : DAryHeap α) :
    Option (DAryHeap α × List ℕ) :=
  if H.size = 0 then none
  else
    (heapifyFromTrace arity distance H.size (parent arity H.size) H.toIndexedHeap).map fun r =>
      (⟨r.1, H.size⟩, r.2)

/-- `add_unsorted` or `emplace_unsorted` for values in turn. -/
def addAll (vs : List α) (H : DAryHeap α) : DAryHeap α :=
  vs.foldl (fun H v => addUnsorted v H) H

/-- What is in the array. -/
def values (H : DAryHeap α) : List α := (List.range H.size).map H.elem

end Code

section Trace

variable {α : Type u} {K : Type v} [DecidableEq α] [LinearOrder K]
variable {arity : ℕ} {distance : α → K} {n : ℕ} {v : α}

variable (distance v) in
/-- The rounds do, and every place looked at is one of the heap. -/
theorem preserveDownTrace_eq (harity : 0 < arity) {rounds : ℕ} :
    ∀ {H : IndexedHeap α} {p : ℕ}, p < n → n ≤ p + rounds →
      ∃ touched, preserveDownTrace arity distance v n rounds H p =
          some (preserveDown arity distance v n rounds H p, touched) ∧ ∀ i ∈ touched, i < n := by
  induction rounds with
  | zero =>
    intro H p hp hrounds
    omega
  | succ rounds ih =>
    intro H p hp hrounds
    have hfirst := lt_child harity p
    rw [preserveDownTrace, preserveDown]
    by_cases hleaf : child arity p 0 ≥ n
    · simp only [hleaf, if_true]
      exact ⟨[p], rfl, by simpa using hp⟩
    · simp only [hleaf, if_false]
      generalize hm : (if child arity p 0 + arity ≤ n then arity else n - child arity p 0) = m
      have hmn : m ≤ n - child arity p 0 := by
        rw [← hm]
        split <;> omega
      have hplaces : ∀ i ∈ child arity p 0 :: List.range' (child arity p 0 + 1) (m - 1),
          p < i ∧ i < n := by
        intro i hi
        rw [List.mem_cons, List.mem_range'_1] at hi
        omega
      generalize hs : improve (fun i => distance (H.elem i)) (child arity p 0)
        (List.range' (child arity p 0 + 1) (m - 1)) = s
      have hmem := (improve_spec (fun i => distance (H.elem i))
        (List.range' (child arity p 0 + 1) (m - 1)) (child arity p 0)).1
      rw [hs] at hmem
      obtain ⟨hps, hsn⟩ := hplaces s hmem
      by_cases hlt : distance (H.elem s) < distance v
      · simp only [hlt, if_true]
        obtain ⟨touched, heq, hall⟩ := ih (H := H.put p (H.elem s)) hsn (by omega)
        rw [heq]
        refine ⟨_, rfl, ?_⟩
        intro i hi
        rcases List.mem_append.mp hi with hi | hi
        · exact (hplaces i hi).2
        · rcases List.mem_cons.mp hi with rfl | hi
          · exact hsn
          · rcases List.mem_cons.mp hi with rfl | hi
            · exact hp
            · exact hall i hi
      · simp only [hlt, if_false]
        refine ⟨_, rfl, ?_⟩
        intro i hi
        rcases List.mem_append.mp hi with hi | hi
        · exact (hplaces i hi).2
        · rw [List.mem_singleton.mp hi]
          exact hp

variable (distance) in
theorem heapifyFromTrace_eq (harity : 0 < arity) {i : ℕ} :
    ∀ {H : IndexedHeap α}, i ≤ n → ∃ touched, heapifyFromTrace arity distance n i H =
          some (heapifyFrom arity distance n i H, touched) ∧ ∀ j ∈ touched, j < n := by
  induction i with
  | zero =>
    intro H _
    exact ⟨[], rfl, by simp⟩
  | succ i ih =>
    intro H hi
    obtain ⟨down, hdown, hdownlt⟩ :=
      preserveDownTrace_eq distance (H.elem i) harity (H := H) (by omega : i < n)
        (by omega : n ≤ i + n)
    obtain ⟨rest, hrest, hrestlt⟩ :=
      ih (H := preserveDown arity distance (H.elem i) n n H i) (by omega)
    rw [heapifyFromTrace, hdown, Option.bind_some, hrest, heapifyFrom]
    refine ⟨_, rfl, ?_⟩
    intro j hj
    rcases List.mem_append.mp hj with hj | hj
    · rcases List.mem_cons.mp hj with rfl | hj
      · omega
      · exact hdownlt j hj
    · exact hrestlt j hj

/-- The places go with the heap of `heapify`. -/
theorem heapifyTrace_eq (distance : α → K) (harity : 0 < arity) {H : DAryHeap α} (hpos : 0 < H.size) :
    ∃ touched, heapifyTrace arity distance H =
        some (⟨heapifyFrom arity distance H.size (parent arity H.size) H.toIndexedHeap, H.size⟩,
          touched) ∧ ∀ j ∈ touched, j < H.size := by
  have hle : parent arity H.size ≤ H.size := (parent_lt hpos).le
  obtain ⟨touched, heq, hall⟩ := heapifyFromTrace_eq distance harity (H := H.toIndexedHeap) hle
  refine ⟨touched, ?_, hall⟩
  rw [heapifyTrace, if_neg (by omega), heq]
  rfl

end Trace

section Located

variable {α : Type u} {K : Type v} [DecidableEq α] [LinearOrder K]
variable {arity : ℕ} {distance : α → K} {H : IndexedHeap α} {n p s : ℕ} {v : α}

/-- The location map has a place of every value in the heap. -/
def Located (H : IndexedHeap α) (n : ℕ) : Prop :=
  ∀ i < n, H.loc (H.elem i) < n ∧ H.elem (H.loc (H.elem i)) = H.elem i

/-- The same with a hole at `p`, for the values other than the one that will fill it. -/
def LocatedBut (H : IndexedHeap α) (n p : ℕ) (v : α) : Prop :=
  ∀ i < n, i ≠ p → H.elem i ≠ v →
    H.loc (H.elem i) < n ∧ H.loc (H.elem i) ≠ p ∧ H.elem (H.loc (H.elem i)) = H.elem i

omit [DecidableEq α] in
theorem Located.hole (h : Located H n) : LocatedBut H n p (H.elem p) := by
  intro i hi _ hne
  obtain ⟨hlt, hat⟩ := h i hi
  refine ⟨hlt, ?_, hat⟩
  intro heq
  rw [heq] at hat
  exact hne hat.symm

theorem LocatedBut.fill (h : LocatedBut H n p v) (hp : p < n) : Located (H.put p v) n := by
  intro i hi
  by_cases hv : (H.put p v).elem i = v
  · rw [hv, IndexedHeap.put_loc_self]
    exact ⟨hp, IndexedHeap.put_elem_self⟩
  · have hip : i ≠ p := by
      intro heq
      rw [heq, IndexedHeap.put_elem_self] at hv
      exact hv rfl
    rw [IndexedHeap.put_elem_of_ne hip] at hv ⊢
    obtain ⟨hlt, hne, hat⟩ := h i hi hip hv
    have hloc : (H.put p v).loc (H.elem i) = H.loc (H.elem i) := Function.update_of_ne hv _ _
    rw [hloc, IndexedHeap.put_elem_of_ne hne]
    exact ⟨hlt, hat⟩

theorem LocatedBut.move (h : LocatedBut H n p v) (hp : p < n) (hne : p ≠ s) :
    LocatedBut (H.put p (H.elem s)) n s v := by
  intro i hi his hv
  by_cases hmoved : (H.put p (H.elem s)).elem i = H.elem s
  · rw [hmoved, IndexedHeap.put_loc_self]
    exact ⟨hp, hne, IndexedHeap.put_elem_self⟩
  · have hip : i ≠ p := by
      intro heq
      rw [heq, IndexedHeap.put_elem_self] at hmoved
      exact hmoved rfl
    rw [IndexedHeap.put_elem_of_ne hip] at hv hmoved ⊢
    obtain ⟨hlt, hnep, hat⟩ := h i hi hip hv
    have hloc : (H.put p (H.elem s)).loc (H.elem i) = H.loc (H.elem i) :=
      Function.update_of_ne hmoved _ _
    rw [hloc, IndexedHeap.put_elem_of_ne hnep]
    refine ⟨hlt, ?_, hat⟩
    intro heq
    rw [heq] at hat
    exact hmoved hat.symm

theorem located_preserveDown (harity : 0 < arity) {rounds : ℕ} :
    ∀ {H : IndexedHeap α} {p : ℕ}, p < n → LocatedBut H n p v →
      Located (preserveDown arity distance v n rounds H p) n := by
  induction rounds with
  | zero =>
    intro H p hp h
    exact h.fill hp
  | succ rounds ih =>
    intro H p hp h
    rcases preserveDown_round distance H n p v harity rounds with
      ⟨heq, -⟩ | ⟨s, hps, hsn, -, -, -, heq⟩
    · rw [heq]
      exact h.fill hp
    · rw [heq]
      exact ih hsn (h.move hp hps.ne)

theorem located_heapifyFrom (harity : 0 < arity) {i : ℕ} :
    ∀ {H : IndexedHeap α}, i ≤ n → Located H n → Located (heapifyFrom arity distance n i H) n := by
  induction i with
  | zero =>
    intro H _ h
    exact h
  | succ i ih =>
    intro H hi h
    exact ih (by omega) (located_preserveDown harity (by omega) h.hole)

theorem located_addUnsorted {H : DAryHeap α} (h : Located H.toIndexedHeap H.size) (v : α) :
    Located (addUnsorted v H).toIndexedHeap (addUnsorted v H).size := by
  have hhole : LocatedBut H.toIndexedHeap (H.size + 1) H.size v := by
    intro i hi hne _
    obtain ⟨hlt, hat⟩ := h i (by omega)
    exact ⟨by omega, by omega, hat⟩
  exact hhole.fill (Nat.lt_succ_self _)

theorem located_addAll (vs : List α) {H : DAryHeap α} (h : Located H.toIndexedHeap H.size) :
    Located (addAll vs H).toIndexedHeap (addAll vs H).size := by
  induction vs generalizing H with
  | nil => exact h
  | cons v vs ih => exact ih (located_addUnsorted h v)

theorem values_addUnsorted (v : α) (H : DAryHeap α) :
    (addUnsorted v H).values = H.values ++ [v] := by
  have hsame : (List.range H.size).map (H.put H.size v).elem = (List.range H.size).map H.elem := by
    apply List.map_congr_left
    intro i hi
    exact IndexedHeap.put_elem_of_ne (List.mem_range.mp hi).ne
  rw [values, values, addUnsorted, List.range_succ, List.map_append, hsame, List.map_singleton,
    IndexedHeap.put_elem_self]

theorem values_addAll (vs : List α) (H : DAryHeap α) : (addAll vs H).values = H.values ++ vs := by
  induction vs generalizing H with
  | nil => exact (List.append_nil _).symm
  | cons v vs ih =>
    refine (ih (addUnsorted v H)).trans ?_
    rw [values_addUnsorted, List.append_assoc]
    rfl

end Located

section Names

variable {α : Type u} {β : Type w} {K : Type v} [DecidableEq α] [DecidableEq β] [LinearOrder K]
variable {arity n : ℕ} {distance : α → K} {g : β → α} {b : β}

/-- The array does not depend on what the values are, only on their distances. -/
theorem preserveDown_elem_map {rounds : ℕ} :
    ∀ {H : IndexedHeap α} {T : IndexedHeap β} {p : ℕ}, H.elem = g ∘ T.elem →
      (preserveDown arity distance (g b) n rounds H p).elem =
        g ∘ (preserveDown arity (distance ∘ g) b n rounds T p).elem := by
  have hput : ∀ {H : IndexedHeap α} {T : IndexedHeap β} (p : ℕ) (a : β), H.elem = g ∘ T.elem →
      (H.put p (g a)).elem = g ∘ (T.put p a).elem := by
    intro H T p a h
    rw [IndexedHeap.put, IndexedHeap.put, h, Function.comp_update]
  induction rounds with
  | zero =>
    intro H T p h
    exact hput p b h
  | succ rounds ih =>
    intro H T p h
    have helem : ∀ i, H.elem i = g (T.elem i) := fun i => congrFun h i
    simp only [preserveDown, helem, Function.comp_apply]
    generalize (if child arity p 0 + arity ≤ n then arity else n - child arity p 0) = children
    split
    · exact hput p b h
    · split
      · exact ih (hput p _ h)
      · exact hput p b h

theorem heapifyFrom_elem_map {i : ℕ} :
    ∀ {H : IndexedHeap α} {T : IndexedHeap β}, H.elem = g ∘ T.elem →
      (heapifyFrom arity distance n i H).elem =
        g ∘ (heapifyFrom arity (distance ∘ g) n i T).elem := by
  induction i with
  | zero =>
    intro H T h
    exact h
  | succ i ih =>
    intro H T h
    rw [heapifyFrom, heapifyFrom, show H.elem i = g (T.elem i) from congrFun h i]
    exact ih (preserveDown_elem_map h)

end Names

section Order

variable {α : Type u} {K : Type v} [DecidableEq α] [LinearOrder K]
variable {arity : ℕ} {distance : α → K} {H : IndexedHeap α} {n p i c lo : ℕ} {v : α}

/-- Every place below `n` is the name of the value in it. -/
def placeNames : IndexedHeap ℕ := ⟨id, id⟩

theorem placeNames_lists (n : ℕ) : placeNames.Lists n {i | i < n} :=
  ⟨fun _ hi => ⟨hi, rfl⟩, fun _ hi => ⟨hi, rfl⟩⟩

/-- The names listed are a permutation of the places. -/
theorem map_elem_perm_range {T : IndexedHeap ℕ} (h : T.Lists n {i | i < n}) :
    ((List.range n).map T.elem).Perm (List.range n) := by
  apply (List.perm_ext_iff_of_nodup _ List.nodup_range).mpr
  · intro a
    rw [List.mem_map, List.mem_range]
    constructor
    · intro ⟨i, hi, heq⟩
      rw [← heq]
      exact (h.elem i (List.mem_range.mp hi)).1
    · intro ha
      obtain ⟨hlt, hat⟩ := h.loc a ha
      exact ⟨T.loc a, List.mem_range.mpr hlt, hat⟩
  · apply List.Nodup.map_on _ List.nodup_range
    intro i hi j hj heq
    exact h.inj (List.mem_range.mp hi) (List.mem_range.mp hj) heq

/-- Moving a value down loses nothing, whatever the order was. -/
theorem preserveDown_lists (harity : 0 < arity) {S : Set α} {rounds : ℕ} :
    ∀ {H : IndexedHeap α} {p : ℕ}, p < n → (H.put p v).Lists n S →
      (preserveDown arity distance v n rounds H p).Lists n S := by
  induction rounds with
  | zero =>
    intro H p _ h
    exact h
  | succ rounds ih =>
    intro H p hp h
    rcases preserveDown_round distance H n p v harity rounds with
      ⟨heq, -⟩ | ⟨s, hps, hsn, -, -, -, heq⟩
    · rw [heq]
      exact h
    · rw [heq]
      apply ih hsn
      rw [IndexedHeap.put_put_eq_swap hps.ne]
      exact h.swap hp hsn hps.ne

theorem heapifyFrom_lists (harity : 0 < arity) {S : Set α} {i : ℕ} :
    ∀ {H : IndexedHeap α}, i ≤ n → H.Lists n S → (heapifyFrom arity distance n i H).Lists n S := by
  induction i with
  | zero =>
    intro H _ h
    exact h
  | succ i ih =>
    intro H hi h
    have hself : H.put i (H.elem i) = H := h.put_self hi
    exact ih (by omega) (preserveDown_lists harity hi (hself.symm ▸ h))

variable (distance) in
theorem heapifyFrom_perm (harity : 0 < arity) (hi : i ≤ n) (H : IndexedHeap α) :
    ((List.range n).map (heapifyFrom arity distance n i H).elem).Perm
      ((List.range n).map H.elem) := by
  have hmap : (heapifyFrom arity distance n i H).elem =
      H.elem ∘ (heapifyFrom arity (distance ∘ H.elem) n i placeNames).elem :=
    heapifyFrom_elem_map rfl
  have hlists : (heapifyFrom arity (distance ∘ H.elem) n i placeNames).Lists n {j | j < n} :=
    heapifyFrom_lists harity hi (placeNames_lists n)
  have hnames := map_elem_perm_range hlists
  rw [hmap, ← List.map_map]
  exact hnames.map H.elem

/-- Values, equal or not, are put in order if those left out are. -/
theorem heapifyFrom_inOrder (harity : 0 < arity) (hi : i ≤ n)
    (horder : InOrderFrom arity distance H n i) :
    (heapifyFrom arity distance n i H).InOrder (parent arity) distance n := by
  have hmap : (heapifyFrom arity distance n i H).elem =
      H.elem ∘ (heapifyFrom arity (distance ∘ H.elem) n i placeNames).elem :=
    heapifyFrom_elem_map rfl
  have hplaces : InOrderFrom arity (distance ∘ H.elem) placeNames n i := horder
  obtain ⟨_, hnames⟩ := heapifyFrom_spec harity hi (placeNames_lists n) hplaces
  intro c hc hcn
  have h := hnames c hc hcn
  rw [hmap]
  exact h

/-- A value better than the one at its parent's place, which is not before `lo`. -/
def OutOfOrder (arity : ℕ) (distance : α → K) (H : IndexedHeap α) (n lo : ℕ) : Prop :=
  ∃ c, 0 < c ∧ c < n ∧ lo ≤ parent arity c ∧
    distance (H.elem c) < distance (H.elem (parent arity c))

omit [DecidableEq α] in
theorem not_inOrderFrom_iff : ¬ InOrderFrom arity distance H n lo ↔ OutOfOrder arity distance H n lo := by
  simp only [InOrderFrom, OutOfOrder, not_forall, not_le, exists_prop]

/-- What fills the hole is no worse than any child below it. -/
theorem preserveDown_elem_le (harity : 0 < arity) (v : α) (rounds : ℕ) (hc : 0 < c) (hcn : c < n)
    (hpc : parent arity c = p) :
    distance ((preserveDown arity distance v n (rounds + 1) H p).elem p) ≤ distance (H.elem c) := by
  rcases preserveDown_round distance H n p v harity rounds with
    ⟨heq, hle⟩ | ⟨s, hps, -, -, -, hmin, heq⟩
  · rw [heq, IndexedHeap.put_elem_self]
    exact hle c hc hcn hpc
  · rw [heq, preserveDown_elem_of_lt harity hps, IndexedHeap.put_elem_self]
    exact hmin c hc hcn hpc

/-- A pair behind the hole that is out of order leaves such a pair: where the hole comes
to the parent, the value moved up is worse than what fills its place. -/
theorem outOfOrder_preserveDown (harity : 0 < arity) {rounds : ℕ} :
    ∀ {H : IndexedHeap α} {p : ℕ}, n ≤ p + rounds → lo ≤ p → 0 < c → c < n → c ≠ p →
      parent arity c ≠ p → lo ≤ parent arity c →
      distance (H.elem c) < distance (H.elem (parent arity c)) →
      OutOfOrder arity distance (preserveDown arity distance v n rounds H p) n lo := by
  induction rounds with
  | zero =>
    intro H p _ _ hc hcn hne hnep hlo hlt
    rw [preserveDown]
    refine ⟨c, hc, hcn, hlo, ?_⟩
    rw [IndexedHeap.put_elem_of_ne hne, IndexedHeap.put_elem_of_ne hnep]
    exact hlt
  | succ rounds ih =>
    intro H p hrounds hlop hc hcn hne hnep hlo hlt
    rcases preserveDown_round distance H n p v harity rounds with
      ⟨heq, -⟩ | ⟨s, hps, hsn, hsp, -, -, heq⟩
    · rw [heq]
      refine ⟨c, hc, hcn, hlo, ?_⟩
      rw [IndexedHeap.put_elem_of_ne hne, IndexedHeap.put_elem_of_ne hnep]
      exact hlt
    · have hcs : c ≠ s := by
        intro hcs
        rw [hcs] at hnep
        exact hnep hsp
      have hmoved : (H.put p (H.elem s)).elem c = H.elem c := IndexedHeap.put_elem_of_ne hne
      rw [heq]
      by_cases has : parent arity c = s
      · -- the worse value of the pair is moved up, and its place gets one no worse than the other
        obtain ⟨more, rfl⟩ : ∃ more, rounds = more + 1 := ⟨rounds - 1, by omega⟩
        refine ⟨s, by omega, hsn, hlop.trans hsp.ge, ?_⟩
        rw [hsp, preserveDown_elem_of_lt harity hps, IndexedHeap.put_elem_self]
        have hle : distance ((preserveDown arity distance v n (more + 1) (H.put p (H.elem s))
            s).elem s) ≤ distance ((H.put p (H.elem s)).elem c) :=
          preserveDown_elem_le harity v more hc hcn has
        rw [hmoved] at hle
        rw [has] at hlt
        exact hle.trans_lt hlt
      · have hmoved' : (H.put p (H.elem s)).elem (parent arity c) = H.elem (parent arity c) :=
          IndexedHeap.put_elem_of_ne hnep
        exact ih (by omega) (by omega) hc hcn hcs has hlo (by rw [hmoved, hmoved']; exact hlt)

/-- If those left out are not in order, `heapify` does not put them in order. -/
theorem outOfOrder_heapifyFrom (harity : 0 < arity) {i : ℕ} :
    ∀ {H : IndexedHeap α}, i ≤ n → OutOfOrder arity distance H n i →
      OutOfOrder arity distance (heapifyFrom arity distance n i H) n 0 := by
  induction i with
  | zero =>
    intro H _ h
    exact h
  | succ i ih =>
    intro H hi ⟨c, hc, hcn, hlo, hlt⟩
    have hup : parent arity c < c := parent_lt hc
    exact ih (by omega) (outOfOrder_preserveDown harity (by omega) le_rfl hc hcn (by omega)
      (by omega) (by omega) hlt)

theorem heapifyFrom_inOrder_iff (distance : α → K) (H : IndexedHeap α) (harity : 0 < arity) (hi : i ≤ n) :
    (heapifyFrom arity distance n i H).InOrder (parent arity) distance n ↔
      InOrderFrom arity distance H n i := by
  refine ⟨?_, heapifyFrom_inOrder harity hi⟩
  intro h
  by_contra hnot
  obtain ⟨c, hc, hcn, -, hlt⟩ := outOfOrder_heapifyFrom harity hi (not_inOrderFrom_iff.mp hnot)
  exact absurd (h c hc hcn) (not_le.mpr hlt)

end Order

section Finish

variable {α : Type u} {K : Type v} [DecidableEq α] [LinearOrder K]
variable {arity : ℕ} {distance : α → K} {H : DAryHeap α}

/-- What `heapify` is for, and the places it may look at. -/
structure Heapified (arity : ℕ) (distance : α → K) (H : DAryHeap α) (added : List α)
    (r : DAryHeap α × List ℕ) : Prop where
  touched : ∀ i ∈ r.2, i < H.size + added.length
  elements : r.1.values.Perm (H.values ++ added)
  location : Located r.1.toIndexedHeap r.1.size
  order : ∀ i, 0 < i → i < r.1.size → distance (r.1.elem (parent arity i)) ≤ distance (r.1.elem i)

omit [LinearOrder K] in
theorem size_addAll (added : List α) (H : DAryHeap α) :
    (addAll added H).size = H.size + added.length := by
  induction added generalizing H with
  | nil => rfl
  | cons v added ih =>
    refine (ih (addUnsorted v H)).trans ?_
    rw [List.length_cons, ← Nat.add_assoc]
    exact Nat.succ_add _ _

/-- Whatever values are added to whatever is in the array, `finish_adding` returns, looks
at the array only, loses no value and no place, and puts all in order, if and only if
there are values and those at and below the parent of the place behind the last are in
order already. -/
theorem finishAdding_spec (harity : 2 ≤ arity) (hlocated : Located H.toIndexedHeap H.size)
    (added : List α) :
    (∃ r, heapifyTrace arity distance (addAll added H) = some r ∧
        Heapified arity distance H added r) ↔
      0 < H.size + added.length ∧ LastInOrder arity distance (addAll added H) := by
  have hsize := size_addAll added H
  by_cases hpos : 0 < H.size + added.length
  · have hpos' : 0 < (addAll added H).size := by omega
    have harity' : 0 < arity := by omega
    have hle : parent arity (addAll added H).size ≤ (addAll added H).size := (parent_lt hpos').le
    obtain ⟨touched, heq, hall⟩ := heapifyTrace_eq distance harity' hpos'
    have hiff := heapifyFrom_inOrder_iff distance (addAll added H).toIndexedHeap harity' hle
    simp only [hpos, true_and]
    constructor
    · intro ⟨r, hr, hdone⟩
      rw [heq] at hr
      rw [← Option.some.inj hr] at hdone
      exact hiff.mp hdone.order
    · intro hlast
      refine ⟨_, heq, ?_, ?_, ?_, hiff.mpr hlast⟩
      · intro i hi
        rw [← hsize]
        exact hall i hi
      · rw [← values_addAll]
        exact heapifyFrom_perm distance harity' hle _
      · exact located_heapifyFrom harity' hle (located_addAll added hlocated)
  · apply iff_of_false
    · rintro ⟨r, hr, -⟩
      rw [heapifyTrace, if_pos (by omega)] at hr
      exact Option.some_ne_none r hr.symm
    · exact fun h => hpos h.1

/-- With 5 and 3 in a heap of arity 2, the only value moved down is none. -/
theorem not_heapified_two :
    ¬ ∃ r, heapifyTrace 2 (id : ℕ → ℕ) (addAll [5, 3] ⟨unwritten, 0⟩) = some r ∧
      Heapified 2 id ⟨unwritten, 0⟩ [5, 3] r := by
  intro ⟨r, hr, hdone⟩
  have heq : heapifyTrace 2 (id : ℕ → ℕ) (addAll [5, 3] ⟨unwritten, 0⟩) =
      some (addAll [5, 3] ⟨unwritten, 0⟩, []) := rfl
  rw [heq] at hr
  rw [← Option.some.inj hr] at hdone
  exact absurd (hdone.order 1 (by decide) (by decide)) (by decide)

theorem finishAdding_spec_three :
    ∃ r, heapifyTrace 2 (id : ℕ → ℕ) (addAll [5, 3, 3] ⟨unwritten, 0⟩) = some r ∧
      Heapified 2 id ⟨unwritten, 0⟩ [5, 3, 3] r := by
  refine (finishAdding_spec (H := ⟨unwritten, 0⟩) (le_refl 2)
    (fun i hi => absurd hi (by show ¬ i < 0; omega)) [5, 3, 3]).mpr ⟨by decide, ?_⟩
  exact lastInOrder_of_mod (by decide) rfl (by decide)

end Finish

end DAryHeap

end Carmel
