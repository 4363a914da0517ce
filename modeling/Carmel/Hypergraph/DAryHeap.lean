/-
# The d-ary heap of indices

`d_ary_heap_indirect` keeps its values in an array and the place of each value in a location
map; the distances lie outside. A value is moved beside a hole, except in a root that has no
more than `Arity` values with it: there two values are swapped, and each location is written
for the other.
-/

import Carmel.Math.Runs
import Carmel.Math.TreeHeap

namespace Carmel

open Math

universe u v

/-- `data` and `index_in_heap` of `d_ary_heap_indirect`. -/
structure DAryHeap (α : Type u) extends IndexedHeap α where
  size : ℕ

namespace DAryHeap

section Code

variable {α : Type u} {K : Type v} [DecidableEq α] [LinearOrder K]

def parent (arity index : ℕ) : ℕ := (index - 1) / arity

def child (arity index childIdx : ℕ) : ℕ := index * arity + childIdx + 1

theorem parent_lt {arity i : ℕ} (hi : 0 < i) : parent arity i < i := by
  have := Nat.div_le_self (i - 1) arity
  unfold parent
  omega

/-- Fill the hole at `index`, or move its parent's value down into it:
`preserve_heap_property_up`. -/
def preserveUp (arity : ℕ) (distance : α → K) (v : α) (H : IndexedHeap α) (index : ℕ) :
    IndexedHeap α :=
  if index = 0 then H.put index v
  else
    let parentValue := H.elem (parent arity index)
    if distance v < distance parentValue then
      preserveUp arity distance v (H.put index parentValue) (parent arity index)
    else H.put index v
termination_by index
decreasing_by exact parent_lt (by omega)

/-- The loop that looks at the places in turn for a strictly smaller distance. -/
def improve (distance : ℕ → K) (smallest : ℕ) (places : List ℕ) : ℕ :=
  places.foldl (fun s i => if distance i < distance s then i else s) smallest

/-- Fill the hole at `index`, or move its best child's value up into it:
`preserve_heap_property_down` with a value. Every round moves the hole towards
the end, so `heapSize` rounds are enough. -/
def preserveDown (arity : ℕ) (distance : α → K) (v : α) (heapSize : ℕ) :
    ℕ → IndexedHeap α → ℕ → IndexedHeap α
  | 0, H, index => H.put index v
  | rounds + 1, H, index =>
    let first := child arity index 0
    if first ≥ heapSize then H.put index v
    else
      let children := if first + arity ≤ heapSize then arity else heapSize - first
      let smallest := improve (fun i => distance (H.elem i)) first
        (List.range' (first + 1) (children - 1))
      if distance (H.elem smallest) < distance v then
        preserveDown arity distance v heapSize rounds (H.put index (H.elem smallest)) smallest
      else H.put index v

/-- `swap_heap_elements`: the names of the two references are of the values
before the swap, so each value gets the place of the other. -/
def swapHeapElements (a b : ℕ) (H : IndexedHeap α) : IndexedHeap α :=
  let data := Function.update (Function.update H.elem a (H.elem b)) b (H.elem a)
  ⟨data, Function.update (Function.update H.loc (data b) a) (data a) b⟩

/-- `preserve_heap_property_down` from the root. -/
def preserveRoot (arity : ℕ) (distance : α → K) (n : ℕ) (H : IndexedHeap α) : IndexedHeap α :=
  if n > arity then
    let swapi := improve (fun i => distance (H.elem i)) 0 (List.range' 1 arity)
    if swapi ≠ 0 then
      preserveDown arity distance (H.elem 0) n n (H.put 0 (H.elem swapi)) swapi
    else H
  else if n > 1 then
    let swapi := improve (fun i => distance (H.elem i)) 0 (List.range' 1 (n - 1))
    if swapi ≠ 0 then swapHeapElements swapi 0 H else H
  else H

variable (arity : ℕ) (distance : α → K)

def push (v : α) (H : DAryHeap α) : DAryHeap α :=
  if H.size ≠ 0 then ⟨preserveUp arity distance v H.toIndexedHeap H.size, H.size + 1⟩
  else ⟨H.put 0 v, 1⟩

def top (H : DAryHeap α) : α := H.elem 0

def pop (H : DAryHeap α) : DAryHeap α :=
  if H.size = 1 then ⟨H.toIndexedHeap, 0⟩
  else ⟨preserveRoot arity distance (H.size - 1) (H.put 0 (H.elem (H.size - 1))), H.size - 1⟩

def update (v : α) (H : DAryHeap α) : DAryHeap α :=
  ⟨preserveUp arity distance v H.toIndexedHeap (H.loc v), H.size⟩

def contains (v : α) (i : ℕ) (H : DAryHeap α) : Prop := i < H.size ∧ v = H.elem i

instance (v : α) (i : ℕ) (H : DAryHeap α) : Decidable (H.contains v i) := by
  unfold contains
  infer_instance

def pushOrUpdate (v : α) (H : DAryHeap α) : DAryHeap α :=
  if H.contains v (H.loc v) then update arity distance v H else push arity distance v H

def adjustTop (H : DAryHeap α) : DAryHeap α :=
  ⟨preserveRoot arity distance H.size H.toIndexedHeap, H.size⟩

end Code

section Spec

variable {α : Type u} {K : Type v} [DecidableEq α] [LinearOrder K]
variable {arity : ℕ} {distance : α → K} {H : IndexedHeap α} {S : Set α} {n p c i : ℕ} {v : α}

/-- The places of the children of `p`. -/
theorem parent_eq_iff (harity : 0 < arity) (hc : 0 < c) :
    parent arity c = p ↔ child arity p 0 ≤ c ∧ c < child arity p 0 + arity := by
  have hdiv : (c - 1) / arity = p ↔ p * arity ≤ c - 1 ∧ c - 1 < p * arity + arity := by
    rw [Nat.div_eq_iff harity]
    omega
  unfold parent child
  rw [hdiv]
  omega

theorem lt_child (harity : 0 < arity) (p : ℕ) : p < child arity p 0 := by
  have := Nat.le_mul_of_pos_right p harity
  unfold child
  omega

/-- The place found is one that was looked at, and has the least distance. -/
theorem improve_spec (f : ℕ → K) (places : List ℕ) (start : ℕ) :
    improve f start places ∈ start :: places ∧
      ∀ i ∈ start :: places, f (improve f start places) ≤ f i := by
  induction places generalizing start with
  | nil => simp [improve]
  | cons j places ih =>
    have hstep : improve f start (j :: places) =
        improve f (if f j < f start then j else start) places := rfl
    rw [hstep]
    by_cases hlt : f j < f start
    · rw [if_pos hlt]
      obtain ⟨hmem, hle⟩ := ih j
      refine ⟨List.mem_cons_of_mem _ hmem, ?_⟩
      intro i hi
      rcases List.mem_cons.mp hi with rfl | hi
      · exact (hle j (List.mem_cons_self ..)).trans hlt.le
      · exact hle i hi
    · rw [if_neg hlt]
      obtain ⟨hmem, hle⟩ := ih start
      constructor
      · rcases List.mem_cons.mp hmem with heq | hmem
        · rw [heq]
          exact List.mem_cons_self ..
        · exact List.mem_cons_of_mem _ (List.mem_cons_of_mem _ hmem)
      · intro i hi
        rcases List.mem_cons.mp hi with rfl | hi
        · exact hle i (List.mem_cons_self ..)
        · rcases List.mem_cons.mp hi with rfl | hi
          · exact (hle start (List.mem_cons_self ..)).trans (not_lt.mp hlt)
          · exact hle i (List.mem_cons_of_mem _ hi)

/-- A place other than the first one has a strictly smaller distance. -/
theorem improve_lt (f : ℕ → K) (places : List ℕ) (start : ℕ)
    (hne : improve f start places ≠ start) : f (improve f start places) < f start := by
  induction places generalizing start with
  | nil => exact absurd rfl hne
  | cons j places ih =>
    have hstep : improve f start (j :: places) =
        improve f (if f j < f start then j else start) places := rfl
    rw [hstep] at hne ⊢
    by_cases hlt : f j < f start
    · rw [if_pos hlt] at hne ⊢
      by_cases hj : improve f j places = j
      · rw [hj]
        exact hlt
      · exact (ih j hj).trans hlt
    · rw [if_neg hlt] at hne ⊢
      exact ih start hne

/-- Moving up ends in a heap with the same elements. -/
theorem preserveUp_spec (hp : p < n) (hlists : (H.put p v).Lists n S)
    (horder : (H.put p v).InOrderBelow (parent arity) distance n p) :
    (preserveUp arity distance v H p).Lists n S ∧
      (preserveUp arity distance v H p).InOrder (parent arity) distance n := by
  induction H, p using preserveUp.induct arity distance v with
  | case1 H =>
    rw [preserveUp, if_pos rfl]
    exact ⟨hlists, horder.inOrder fun h => absurd h (lt_irrefl 0)⟩
  | case2 H p hp0 parentValue hlt ih =>
    have hup : parent arity p < p := parent_lt (by omega)
    have helem : (H.put p v).elem (parent arity p) = H.elem (parent arity p) :=
      IndexedHeap.put_elem_of_ne hup.ne
    rw [preserveUp, if_neg hp0]
    simp only [show distance v < distance (H.elem (parent arity p)) from hlt, if_true]
    apply ih (by omega)
    · show ((H.put p (H.elem (parent arity p))).put _ v).Lists n S
      rw [IndexedHeap.put_put_eq_swap hup.ne']
      exact hlists.swap hp (by omega) hup.ne'
    · show ((H.put p (H.elem (parent arity p))).put _ v).InOrderBelow _ _ n _
      rw [IndexedHeap.put_put_eq_swap hup.ne']
      apply horder.swap (fun i hi => parent_lt hi) (by omega) hp
      rw [helem, IndexedHeap.put_elem_self]
      exact hlt.le
  | case3 H p hp0 parentValue hlt =>
    have hup : parent arity p < p := parent_lt (by omega)
    rw [preserveUp, if_neg hp0]
    simp only [show ¬ distance v < distance (H.elem (parent arity p)) from hlt, if_false]
    refine ⟨hlists, horder.inOrder fun _ => ?_⟩
    rw [IndexedHeap.put_elem_of_ne hup.ne, IndexedHeap.put_elem_self]
    exact not_lt.mp hlt

variable (distance v n H p) in
/-- A round fills the hole where no child is better than the value, or moves it to the
place of the best child. -/
theorem preserveDown_round (harity : 0 < arity) (rounds : ℕ) :
    (preserveDown arity distance v n (rounds + 1) H p = H.put p v ∧
      ∀ c, 0 < c → c < n → parent arity c = p → distance v ≤ distance (H.elem c)) ∨
    ∃ s, p < s ∧ s < n ∧ parent arity s = p ∧ distance (H.elem s) < distance v ∧
      (∀ c, 0 < c → c < n → parent arity c = p → distance (H.elem s) ≤ distance (H.elem c)) ∧
      preserveDown arity distance v n (rounds + 1) H p =
        preserveDown arity distance v n rounds (H.put p (H.elem s)) s := by
  have hfirst := lt_child harity p
  rw [preserveDown]
  by_cases hleaf : child arity p 0 ≥ n
  · simp only [hleaf, if_true]
    refine Or.inl ⟨trivial, fun c hc hcn hpc => ?_⟩
    have := ((parent_eq_iff harity hc).mp hpc).1
    omega
  · simp only [hleaf, if_false]
    generalize hm : (if child arity p 0 + arity ≤ n then arity else n - child arity p 0) = m
    generalize hs : improve (fun i => distance (H.elem i)) (child arity p 0)
      (List.range' (child arity p 0 + 1) (m - 1)) = s
    have hspec := improve_spec (fun i => distance (H.elem i))
      (List.range' (child arity p 0 + 1) (m - 1)) (child arity p 0)
    rw [hs] at hspec
    -- the places looked at are those of the children
    have hplaces : ∀ c, c ∈ child arity p 0 :: List.range' (child arity p 0 + 1) (m - 1) ↔
        0 < c ∧ c < n ∧ parent arity c = p := by
      intro c
      have hmn : m = min arity (n - child arity p 0) := by
        rw [← hm]
        split <;> omega
      by_cases hc : 0 < c
      · rw [parent_eq_iff harity hc, List.mem_cons, List.mem_range'_1]
        omega
      · rw [List.mem_cons, List.mem_range'_1]
        omega
    obtain ⟨hs0, hsn, hsp⟩ := (hplaces s).mp hspec.1
    have hmin : ∀ c, 0 < c → c < n → parent arity c = p →
        distance (H.elem s) ≤ distance (H.elem c) := by
      intro c hc hcn hpc
      exact hspec.2 c ((hplaces c).mpr ⟨hc, hcn, hpc⟩)
    by_cases hlt : distance (H.elem s) < distance v
    · rw [if_pos hlt]
      exact Or.inr ⟨s, hsp ▸ parent_lt hs0, hsn, hsp, hlt, hmin, rfl⟩
    · rw [if_neg hlt]
      exact Or.inl ⟨rfl, fun c hc hcn hpc => (not_lt.mp hlt).trans (hmin c hc hcn hpc)⟩

/-- Moving down ends in a heap with the same elements. -/
theorem preserveDown_spec (harity : 0 < arity) (rounds : ℕ) :
    ∀ {H : IndexedHeap α} {p : ℕ}, p < n → n ≤ p + rounds → (H.put p v).Lists n S →
      (H.put p v).InOrderAbove (parent arity) distance n p →
      (preserveDown arity distance v n rounds H p).Lists n S ∧
        (preserveDown arity distance v n rounds H p).InOrder (parent arity) distance n := by
  induction rounds with
  | zero =>
    intro H p hp hrounds
    omega
  | succ rounds ih =>
    intro H p hp hrounds hlists horder
    have helem : ∀ c, 0 < c → parent arity c = p → (H.put p v).elem c = H.elem c := by
      intro c hc hpc
      apply IndexedHeap.put_elem_of_ne
      have hup : parent arity c < c := parent_lt hc
      omega
    rcases preserveDown_round distance H n p v harity rounds with
      ⟨heq, hle⟩ | ⟨s, hps, hsn, hsp, hlt, hmin, heq⟩
    · rw [heq]
      refine ⟨hlists, horder.inOrder fun c hc hcn hpc => ?_⟩
      rw [helem c hc hpc, IndexedHeap.put_elem_self]
      exact hle c hc hcn hpc
    · have hs0 : 0 < s := by omega
      rw [heq]
      apply ih hsn (by omega)
      · rw [IndexedHeap.put_put_eq_swap hps.ne]
        exact hlists.swap hp hsn hps.ne
      · rw [IndexedHeap.put_put_eq_swap hps.ne]
        apply horder.swap (fun i hi => parent_lt hi) hs0 hsn hsp
        · intro d hd hdn hpd
          rw [helem s hs0 hsp, helem d hd hpd]
          exact hmin d hd hdn hpd
        · rw [helem s hs0 hsp, IndexedHeap.put_elem_self]
          exact hlt.le

/-- A root that has at most `arity` values with it and is worse than one of them. -/
def SwapsRoot (arity : ℕ) (distance : α → K) (n : ℕ) (H : IndexedHeap α) (root : α) : Prop :=
  1 < n ∧ n ≤ arity ∧ ∃ i, 0 < i ∧ i < n ∧ distance (H.elem i) < distance root

theorem mem_places (hn : 0 < n) (i : ℕ) :
    i ∈ 0 :: List.range' 1 (n - 1) ↔ i < n := by
  rw [List.mem_cons, List.mem_range'_1]
  omega

theorem parent_eq_zero_iff (harity : 0 < arity) (hi : 0 < i) : parent arity i = 0 ↔ i ≤ arity := by
  rw [parent_eq_iff harity hi]
  unfold child
  omega

/-- A root that is not swapped goes down to its place. -/
theorem preserveRoot_spec (harity : 0 < arity) (hn : 0 < n) (hlists : H.Lists n S)
    (horder : H.InOrderAbove (parent arity) distance n 0)
    (hswap : ¬ SwapsRoot arity distance n H (H.elem 0)) :
    (preserveRoot arity distance n H).Lists n S ∧
      (preserveRoot arity distance n H).InOrder (parent arity) distance n := by
  unfold preserveRoot
  by_cases hlarge : n > arity
  · simp only [hlarge, if_true]
    generalize hs : improve (fun i => distance (H.elem i)) 0 (List.range' 1 arity) = s
    have hspec := improve_spec (fun i => distance (H.elem i)) (List.range' 1 arity) 0
    rw [hs, ← Nat.add_sub_cancel (n := arity) (m := 1)] at hspec
    simp only [mem_places (Nat.succ_pos arity)] at hspec
    by_cases hs0 : s = 0
    · rw [if_neg (not_not.mpr hs0)]
      refine ⟨hlists, horder.inOrder fun c hc hcn hpc => ?_⟩
      have hle := hspec.2 c (by have := (parent_eq_zero_iff harity hc).mp hpc; omega)
      rwa [hs0] at hle
    · rw [if_pos hs0]
      have hps : parent arity s = 0 := (parent_eq_zero_iff harity (by omega)).mpr (by omega)
      have hhole : (H.put 0 (H.elem s)).put s (H.elem 0) = H.swap 0 s := rfl
      have hlt : distance (H.elem s) < distance (H.elem 0) := by
        have := improve_lt (fun i => distance (H.elem i)) (List.range' 1 arity) 0
        rw [hs] at this
        exact this hs0
      apply preserveDown_spec harity n (by omega) (by omega)
      · rw [hhole]
        exact hlists.swap hn (by omega) (Ne.symm hs0)
      · rw [hhole]
        apply horder.swap (fun i hi => parent_lt hi) (by omega) (by omega) hps
        · intro d hd hdn hpd
          exact hspec.2 d (by have := (parent_eq_zero_iff harity hd).mp hpd; omega)
        · exact hlt.le
  · simp only [hlarge, if_false]
    by_cases hone : n > 1
    · simp only [hone, if_true]
      have hnone : ∀ i, 0 < i → i < n → distance (H.elem 0) ≤ distance (H.elem i) := by
        intro i hi hin
        by_contra hlt
        exact hswap ⟨hone, by omega, i, hi, hin, not_le.mp hlt⟩
      have hzero : improve (fun i => distance (H.elem i)) 0 (List.range' 1 (n - 1)) = 0 := by
        by_contra hne
        have hmem := (improve_spec (fun i => distance (H.elem i)) (List.range' 1 (n - 1)) 0).1
        rw [mem_places hn] at hmem
        have hlt := improve_lt (fun i => distance (H.elem i)) (List.range' 1 (n - 1)) 0 hne
        exact absurd (hnone _ (by omega) hmem) (not_le.mpr hlt)
      rw [hzero, if_neg (not_not.mpr rfl)]
      exact ⟨hlists, horder.inOrder fun c hc hcn _ => hnone c hc hcn⟩
    · simp only [hone, if_false]
      exact ⟨hlists, horder.inOrder fun c hc hcn _ => by omega⟩

/-- The root is swapped with the least value. -/
theorem preserveRoot_of_swaps (hswap : SwapsRoot arity distance n H (H.elem 0)) :
    ∃ s, s ≠ 0 ∧ s < n ∧ (∀ i < n, distance (H.elem s) ≤ distance (H.elem i)) ∧
      preserveRoot arity distance n H = swapHeapElements s 0 H := by
  obtain ⟨hone, hsmall, i, hi, hin, hlt⟩ := hswap
  unfold preserveRoot
  simp only [show ¬ n > arity by omega, show n > 1 from hone, if_true, if_false]
  generalize hs : improve (fun i => distance (H.elem i)) 0 (List.range' 1 (n - 1)) = s
  have hspec := improve_spec (fun i => distance (H.elem i)) (List.range' 1 (n - 1)) 0
  rw [hs] at hspec
  simp only [mem_places (by omega : 0 < n)] at hspec
  have hs0 : s ≠ 0 := by
    intro h0
    have hle := hspec.2 i hin
    rw [h0] at hle
    exact absurd hle (not_le.mpr hlt)
  exact ⟨s, hs0, hspec.1, hspec.2, if_pos hs0⟩

/-- A root that is swapped leaves a wrong location. -/
theorem preserveRoot_swaps (hlists : H.Lists n S)
    (hswap : SwapsRoot arity distance n H (H.elem 0)) :
    ¬ (preserveRoot arity distance n H).Lists n S := by
  obtain ⟨s, hs0, hsn, -, heq⟩ := preserveRoot_of_swaps hswap
  rw [heq]
  intro hbad
  have helem : H.elem s ≠ H.elem 0 := fun heq => hs0 (hlists.inj hsn (by omega) heq)
  have hdata : (swapHeapElements s 0 H).elem 0 = H.elem s := by simp [swapHeapElements]
  have hloc : (swapHeapElements s 0 H).loc (H.elem s) = s := by
    simp [swapHeapElements, hs0, helem]
  have hzero := (hbad.elem 0 (by omega)).2
  rw [hdata, hloc] at hzero
  exact hs0 hzero

end Spec

section Runs

variable {α : Type u} {K : Type v} [DecidableEq α] [LinearOrder K]

/-- A heap, what has been pushed and not popped, and the distances at the last call. -/
structure State (α : Type u) (K : Type v) where
  heap : DAryHeap α
  contents : Set α
  distance : α → K

inductive Operation (α : Type u)
  | push (v : α)
  | pop
  | update (v : α)
  | pushOrUpdate (v : α)
  | adjustTop

/-- A call, with the distances as the caller has set them for it. -/
structure Call (α : Type u) (K : Type v) where
  op : Operation α
  distance : α → K

variable (arity : ℕ)

def Call.heap (call : Call α K) (s : State α K) : DAryHeap α :=
  match call.op with
  | .push v => push arity call.distance v s.heap
  | .pop => pop arity call.distance s.heap
  | .update v => update arity call.distance v s.heap
  | .pushOrUpdate v => pushOrUpdate arity call.distance v s.heap
  | .adjustTop => adjustTop arity call.distance s.heap

def Call.contents (call : Call α K) (s : State α K) : Set α :=
  match call.op with
  | .push v => insert v s.contents
  | .pop => s.contents \ {s.heap.top}
  | .update _ => s.contents
  | .pushOrUpdate v => insert v s.contents
  | .adjustTop => s.contents

def Call.next (call : Call α K) (s : State α K) : State α K :=
  ⟨call.heap arity s, call.contents s, call.distance⟩

/-- What the class asks of its caller: values pushed are new, a value already in
the heap has at most improved, `pop` and `adjust_top` have a top, and no other
distance in the heap has changed. -/
def Call.Proper (call : Call α K) (s : State α K) : Prop :=
  match call.op with
  | .push v => v ∉ s.contents ∧ ∀ a ∈ s.contents, call.distance a = s.distance a
  | .pop => 0 < s.heap.size ∧ ∀ a ∈ s.contents, call.distance a = s.distance a
  | .update v => v ∈ s.contents ∧ call.distance v ≤ s.distance v ∧
      ∀ a ∈ s.contents, a ≠ v → call.distance a = s.distance a
  | .pushOrUpdate v => (v ∈ s.contents → call.distance v ≤ s.distance v) ∧
      ∀ a ∈ s.contents, a ≠ v → call.distance a = s.distance a
  | .adjustTop => 0 < s.heap.size ∧
      ∀ a ∈ s.contents, a ≠ s.heap.top → call.distance a = s.distance a

/-- The root has to be swapped with one of at most `arity` values: after `pop`
it is the last value, at `adjust_top` the top. -/
def Call.Swaps (call : Call α K) (s : State α K) : Prop :=
  match call.op with
  | .pop => SwapsRoot arity call.distance (s.heap.size - 1) s.heap.toIndexedHeap
      (s.heap.elem (s.heap.size - 1))
  | .adjustTop => SwapsRoot arity call.distance s.heap.size s.heap.toIndexedHeap s.heap.top
  | _ => False

/-- Heap order, each value once and where it is said to be, the least one on top. -/
structure Kept (s : State α K) : Prop where
  order : ∀ i, 0 < i → i < s.heap.size →
    s.distance (s.heap.elem (parent arity i)) ≤ s.distance (s.heap.elem i)
  elements : ∀ a, a ∈ s.contents ↔ ∃ i < s.heap.size, s.heap.elem i = a
  once : ∀ i < s.heap.size, ∀ j < s.heap.size, s.heap.elem i = s.heap.elem j → i = j
  location : ∀ i < s.heap.size, s.heap.loc (s.heap.elem i) = i
  least : 0 < s.heap.size → s.heap.top ∈ s.contents ∧
    ∀ a ∈ s.contents, s.distance s.heap.top ≤ s.distance a

variable {arity} {s t : State α K} {call : Call α K}

section

omit [DecidableEq α]

theorem kept_iff : Kept arity s ↔ s.heap.Lists s.heap.size s.contents ∧
    s.heap.InOrder (parent arity) s.distance s.heap.size := by
  constructor
  · intro h
    refine ⟨⟨fun i hi => ⟨(h.elements _).mpr ⟨i, hi, rfl⟩, h.location i hi⟩, ?_⟩, h.order⟩
    intro a ha
    obtain ⟨i, hi, rfl⟩ := (h.elements a).mp ha
    rw [h.location i hi]
    exact ⟨hi, rfl⟩
  · intro ⟨hlists, horder⟩
    refine ⟨horder, fun a => hlists.mem_iff, fun i hi j hj => hlists.inj hi hj,
      fun i hi => (hlists.elem i hi).2, ?_⟩
    intro hpos
    refine ⟨(hlists.elem 0 hpos).1, ?_⟩
    intro a ha
    obtain ⟨i, hi, rfl⟩ := hlists.mem_iff.mp ha
    exact horder.root_le (fun i hi => parent_lt hi) hi

theorem inOrder_congr {H : IndexedHeap α} {n : ℕ} {S : Set α} {d d' : α → K}
    (hlists : H.Lists n S) (heq : ∀ a ∈ S, d' a = d a) (h : H.InOrder (parent arity) d n) :
    H.InOrder (parent arity) d' n := by
  intro i hi hin
  have hup : parent arity i < i := parent_lt hi
  rw [heq _ (hlists.elem i hin).1, heq _ (hlists.elem _ (hup.trans hin)).1]
  exact h i hi hin

/-- An improved value may be out of order with its parent only. -/
theorem inOrderBelow_of_improved {H : IndexedHeap α} {n : ℕ} {S : Set α} {d d' : α → K} {v : α}
    (hlists : H.Lists n S) (hv : v ∈ S) (hle : d' v ≤ d v) (heq : ∀ a ∈ S, a ≠ v → d' a = d a)
    (h : H.InOrder (parent arity) d n) : H.InOrderBelow (parent arity) d' n (H.loc v) := by
  have hat := (hlists.loc v hv).2
  have hother : ∀ i < n, i ≠ H.loc v → d' (H.elem i) = d (H.elem i) := by
    intro i hi hne
    obtain ⟨hmem, hloc⟩ := hlists.elem i hi
    exact heq _ hmem fun hiv => hne (by rw [← hiv, hloc])
  constructor
  · intro i hi hin hne
    have hup : parent arity i < i := parent_lt hi
    have hold := h i hi hin
    rw [hother i hin hne]
    by_cases hpv : parent arity i = H.loc v
    · rw [hpv, hat] at hold ⊢
      exact hle.trans hold
    · rw [hother _ (hup.trans hin) hpv]
      exact hold
  · intro hpos c hc hcn hpc
    have hup : parent arity c < c := parent_lt hc
    have hup' : parent arity (H.loc v) < H.loc v := parent_lt hpos
    have habove := h (H.loc v) hpos (hlists.loc v hv).1
    have hbelow := h c hc hcn
    rw [hpc] at hbelow
    rw [hother c hcn (by omega), hother _ (by omega) hup'.ne]
    exact habove.trans hbelow

end

/-- A value pushed has no children yet, and only its parent above it. -/
theorem push_spec {H : DAryHeap α} {S : Set α} {d : α → K} {v : α}
    (hlists : H.Lists H.size S) (horder : H.InOrder (parent arity) d H.size) (hv : v ∉ S) :
    (push arity d v H).Lists (push arity d v H).size (insert v S) ∧
      (push arity d v H).InOrder (parent arity) d (push arity d v H).size := by
  unfold push
  by_cases h0 : H.size = 0
  · rw [if_neg (not_not.mpr h0)]
    rw [h0] at hlists
    exact ⟨hlists.put_new hv, fun i hi hi' => absurd hi' (by show ¬ i < 1; omega)⟩
  · rw [if_pos h0]
    apply preserveUp_spec (Nat.lt_succ_self _) (hlists.put_new hv)
    constructor
    · intro i hi hi' hne
      have hup : parent arity i < i := parent_lt hi
      rw [IndexedHeap.put_elem_of_ne hne, IndexedHeap.put_elem_of_ne (by omega)]
      exact horder i hi (by omega)
    · intro _ c hc hc' hpc
      have hup : parent arity c < c := parent_lt hc
      omega

theorem update_spec {H : DAryHeap α} {S : Set α} {d d' : α → K} {v : α}
    (hlists : H.Lists H.size S) (horder : H.InOrder (parent arity) d H.size) (hv : v ∈ S)
    (hle : d' v ≤ d v) (heq : ∀ a ∈ S, a ≠ v → d' a = d a) :
    (update arity d' v H).Lists H.size S ∧
      (update arity d' v H).InOrder (parent arity) d' H.size := by
  obtain ⟨hlt, hat⟩ := hlists.loc v hv
  have hsame : H.put (H.loc v) v = H.toIndexedHeap := by
    have h := hlists.put_self hlt
    rwa [hat] at h
  apply preserveUp_spec hlt
  · rw [hsame]
    exact hlists
  · rw [hsame]
    exact inOrderBelow_of_improved hlists hv hle heq horder

omit [DecidableEq α] in
/-- A root whose distance has changed may be out of order with its children only. -/
theorem inOrderAbove_zero {H : IndexedHeap α} {n : ℕ} {d : α → K}
    (h : ∀ i, 0 < i → i < n → parent arity i ≠ 0 →
      d (H.elem (parent arity i)) ≤ d (H.elem i)) : H.InOrderAbove (parent arity) d n 0 :=
  ⟨h, fun h0 => absurd h0 (lt_irrefl 0)⟩

/-- **One call**: it keeps the heap exactly when it swaps no root. -/
theorem kept_next_iff (harity : 0 < arity) (hs : Kept arity s) (hproper : call.Proper s) :
    Kept arity (call.next arity s) ↔ ¬ call.Swaps arity s := by
  obtain ⟨hlists, horder⟩ := kept_iff.mp hs
  rw [kept_iff]
  obtain ⟨op, d'⟩ := call
  cases op with
  | push v =>
    obtain ⟨hv, heq⟩ := hproper
    have hspec := push_spec hlists (inOrder_congr hlists heq horder) hv
    exact iff_of_true hspec not_false
  | pop =>
    obtain ⟨hpos, heq⟩ := hproper
    have horder' := inOrder_congr hlists heq horder
    obtain ⟨n, hn⟩ : ∃ n, s.heap.size = n + 1 := ⟨s.heap.size - 1, by omega⟩
    simp only [Call.next, Call.heap, Call.contents, Call.Swaps, pop, top]
    rw [hn] at hlists horder' ⊢
    by_cases hn0 : n = 0
    · subst hn0
      rw [if_pos rfl]
      refine iff_of_true ⟨?_, ?_⟩ fun h => absurd h.1 (by omega)
      · have hempty : s.contents \ {s.heap.elem 0} = ∅ := by
          apply Set.eq_empty_of_forall_notMem
          intro a ⟨ha, hne⟩
          obtain ⟨i, hi, rfl⟩ := hlists.mem_iff.mp ha
          exact hne (by rw [show i = 0 by omega]; rfl)
        rw [hempty]
        exact IndexedHeap.Lists.empty
      · intro i hi hi'
        exact absurd hi' (by show ¬ i < 0; omega)
    · rw [if_neg (by omega), Nat.add_sub_cancel]
      have hmoved := hlists.put_last (Nat.pos_of_ne_zero hn0)
      have hroot : (s.heap.put 0 (s.heap.elem n)).elem 0 = s.heap.elem n :=
        IndexedHeap.put_elem_self
      have hswaps : SwapsRoot arity d' n (s.heap.put 0 (s.heap.elem n))
          ((s.heap.put 0 (s.heap.elem n)).elem 0) ↔
          SwapsRoot arity d' n s.heap.toIndexedHeap (s.heap.elem n) := by
        unfold SwapsRoot
        rw [hroot]
        refine and_congr_right fun _ => and_congr_right fun _ => exists_congr fun i => ?_
        refine and_congr_right fun hi => ?_
        rw [IndexedHeap.put_elem_of_ne (by omega)]
      have habove : (s.heap.put 0 (s.heap.elem n)).InOrderAbove (parent arity) d' n 0 := by
        apply inOrderAbove_zero
        intro i hi hi' hne
        rw [IndexedHeap.put_elem_of_ne hne, IndexedHeap.put_elem_of_ne (by omega)]
        exact horder' i hi (by omega)
      constructor
      · intro hkept hswap
        exact preserveRoot_swaps hmoved (hswaps.mpr hswap) hkept.1
      · intro hswap
        exact preserveRoot_spec harity (Nat.pos_of_ne_zero hn0) hmoved habove (mt hswaps.mp hswap)
  | update v =>
    obtain ⟨hv, hle, heq⟩ := hproper
    exact iff_of_true (update_spec hlists horder hv hle heq) not_false
  | pushOrUpdate v =>
    obtain ⟨hle, heq⟩ := hproper
    refine iff_of_true ?_ not_false
    simp only [Call.next, Call.heap, Call.contents, pushOrUpdate]
    by_cases hv : v ∈ s.contents
    · obtain ⟨hlt, hat⟩ := hlists.loc v hv
      rw [if_pos ⟨hlt, hat.symm⟩, Set.insert_eq_of_mem hv]
      exact update_spec hlists horder hv (hle hv) heq
    · have hnot : ¬ s.heap.contains v (s.heap.loc v) := by
        intro ⟨hlt, hat⟩
        exact hv (hat ▸ (hlists.elem _ hlt).1)
      rw [if_neg hnot]
      apply push_spec hlists _ hv
      apply inOrder_congr hlists _ horder
      intro a ha
      exact heq a ha fun hav => hv (hav ▸ ha)
  | adjustTop =>
    obtain ⟨hpos, heq⟩ := hproper
    have habove : s.heap.InOrderAbove (parent arity) d' s.heap.size 0 := by
      apply inOrderAbove_zero
      intro i hi hi' hne
      have hup : parent arity i < i := parent_lt hi
      have hother : ∀ j < s.heap.size, j ≠ 0 → d' (s.heap.elem j) = s.distance (s.heap.elem j) := by
        intro j hj hj0
        exact heq _ (hlists.elem j hj).1 fun htop => hj0 (hlists.inj hj hpos htop)
      rw [hother i hi' (by omega), hother _ (by omega) hne]
      exact horder i hi hi'
    constructor
    · intro hkept hswap
      exact preserveRoot_swaps hlists hswap hkept.1
    · intro hswap
      exact preserveRoot_spec harity hpos hlists habove hswap

/-- The heap before any call, whatever the array and the location map hold. -/
def empty (H : IndexedHeap α) (distance : α → K) : State α K := ⟨⟨H, 0⟩, ∅, distance⟩

omit [DecidableEq α] in
theorem kept_empty (H : IndexedHeap α) (distance : α → K) : Kept arity (empty H distance) :=
  kept_iff.mpr ⟨IndexedHeap.Lists.empty, fun i _ hi => absurd hi (by show ¬ i < 0; omega)⟩

/-- **Runs**: as long as no root is swapped, everything is kept. -/
theorem kept_of_runs (harity : 2 ≤ arity) {H : IndexedHeap α} {distance : α → K}
    (hrun : Runs (fun call s => some (Call.next arity call s))
      (fun call s => call.Proper s ∧ ¬ call.Swaps arity s) (empty H distance) s) : Kept arity s := by
  apply hrun.invariant (kept_empty H distance)
  intro call s t hs hok hnext
  rw [← Option.some.inj hnext]
  exact (kept_next_iff (by omega) hs hok.1).mpr hok.2

/-- An array and a location map that nothing has been written to. -/
def unwritten : IndexedHeap ℕ := ⟨fun _ => 0, fun _ => 0⟩

def pushed (values : List ℕ) : State ℕ ℕ :=
  values.foldl (fun s v => Call.next 2 ⟨.push v, id⟩ s) (empty unwritten id)

theorem kept_pop_pushed : Kept 2 (Call.next 2 ⟨.pop, id⟩ (pushed [5, 3])) := by
  apply kept_of_runs (le_refl 2) (_ : Runs _ _ (empty unwritten id) _)
  refine Runs.step (t := pushed [5, 3]) ?_ ⟨.pop, id⟩ ⟨⟨Nat.succ_pos _, fun _ _ => rfl⟩, ?_⟩ rfl
  · refine Runs.step (t := pushed [5]) ?_ ⟨.push 3, id⟩ ⟨⟨?_, fun _ _ => rfl⟩, not_false⟩ rfl
    · exact Runs.start.step ⟨.push 5, id⟩ ⟨⟨Set.notMem_empty 5, fun _ _ => rfl⟩, not_false⟩ rfl
    · simp [pushed, Call.next, Call.contents, empty]
  · intro hswap
    exact absurd hswap.1 (by show ¬ 1 < 1; decide)

/-- After 1, 2 and 3 have been pushed and 1 popped, 2 is on top and said to be below it. -/
theorem pop_pushed_location :
    ∃ s : State ℕ ℕ, Runs (fun call s => some (Call.next 2 call s))
        (fun call s => call.Proper s) (empty unwritten id) s ∧
      s.heap.top = 2 ∧ s.heap.loc 2 = 1 ∧ ¬ Kept 2 s := by
  have hrun : Runs (fun call s => some (Call.next 2 call s))
      (fun call s => call.Proper s) (empty unwritten id) (pushed [1, 2, 3]) := by
    refine Runs.step (t := pushed [1, 2]) ?_ ⟨.push 3, id⟩ ⟨?_, fun _ _ => rfl⟩ rfl
    · refine Runs.step (t := pushed [1]) ?_ ⟨.push 2, id⟩ ⟨?_, fun _ _ => rfl⟩ rfl
      · exact Runs.start.step ⟨.push 1, id⟩ ⟨Set.notMem_empty 1, fun _ _ => rfl⟩ rfl
      · simp [pushed, Call.next, Call.contents, empty]
    · simp [pushed, Call.next, Call.contents, empty]
  have htop : (Call.next 2 ⟨.pop, id⟩ (pushed [1, 2, 3])).heap.top = 2 := by decide +kernel
  have hloc : (Call.next 2 ⟨.pop, id⟩ (pushed [1, 2, 3])).heap.loc 2 = 1 := by decide +kernel
  refine ⟨_, hrun.step ⟨.pop, id⟩ ⟨by decide, fun _ _ => rfl⟩ rfl, htop, hloc, ?_⟩
  intro hkept
  have hzero := hkept.location 0 (by decide)
  rw [show (Call.next 2 ⟨.pop, id⟩ (pushed [1, 2, 3])).heap.elem 0 = 2 from htop, hloc] at hzero
  exact absurd hzero (by decide)

end Runs

end DAryHeap

end Carmel
