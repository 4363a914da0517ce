/-
# Children put in and taken out

`insert_child` and `delete_child` keep the attributes right for a node that is nobody's
child, as the lengths above it are not changed. The loops that set the orders begin at the
index that was given; a negative one makes them go through all children.
-/

import Carmel.Gextract.NodeObjects

namespace Carmel.Gextract

open Carmel.Math

section Lists

variable {α : Type} {len p : ℕ} {i j : ℤ}

theorem indexPlace_eq_some_iff :
    indexPlace len i = some p ↔ p < len ∧ (i = p ∨ i = p - (len : ℤ)) := by
  rw [indexPlace]
  by_cases hi : i < 0
  · simp only [hi, if_true]
    by_cases hj : 0 ≤ i + len ∧ i + (len : ℤ) < len
    · rw [if_pos hj, Option.some_inj]
      omega
    · rw [if_neg hj]
      constructor
      · intro h
        cases h
      · omega
  · simp only [hi, if_false]
    by_cases hj : 0 ≤ i ∧ i < (len : ℤ)
    · rw [if_pos hj, Option.some_inj]
      omega
    · rw [if_neg hj]
      constructor
      · intro h
        cases h
      · omega

theorem exists_indexPlace (hge : -(len : ℤ) ≤ i) (hlt : i < len) :
    ∃ p, indexPlace len i = some p := by
  by_cases hi : i < 0
  · exact ⟨(i + len).toNat, indexPlace_eq_some_iff.mpr (by omega)⟩
  · exact ⟨i.toNat, indexPlace_eq_some_iff.mpr (by omega)⟩

theorem mem_rangeFrom {k : ℤ} : k ∈ rangeFrom i j ↔ i ≤ k ∧ k < j := by
  rw [rangeFrom, List.mem_map]
  constructor
  · intro ⟨d, hd, heq⟩
    rw [List.mem_range] at hd
    omega
  · intro h
    refine ⟨(k - i).toNat, ?_, by omega⟩
    rw [List.mem_range]
    omega

theorem rangeFrom_append {k : ℤ} (hik : i ≤ k) (hkj : k ≤ j) :
    rangeFrom i j = rangeFrom i k ++ rangeFrom k j := by
  have hlen : (j - i).toNat = (k - i).toNat + (j - k).toNat := by omega
  rw [rangeFrom, hlen, List.range_add, List.map_append, List.map_map, rangeFrom, rangeFrom]
  congr 1
  apply List.map_congr_left
  intro d _
  simp only [Function.comp_apply]
  omega

theorem rangeFrom_cons (h : i < j) : rangeFrom i j = i :: rangeFrom (i + 1) j := by
  have hlen : (j - i).toNat = (j - (i + 1)).toNat + 1 := by omega
  rw [rangeFrom, hlen, List.range_succ_eq_map, List.map_cons, List.map_map, rangeFrom]
  congr 1
  · omega
  · apply List.map_congr_left
    intro d _
    simp only [Function.comp_apply]
    omega

/-- The order of the child at `p` after orders were set at the indices `js`. -/
def orderAfter (len p : ℕ) (js : List ℤ) (order : ℤ) : ℤ :=
  js.foldl (fun order j => if indexPlace len j = some p then j else order) order

theorem orderAfter_of_ne {js : List ℤ} (h : ∀ j ∈ js, indexPlace len j ≠ some p) (order : ℤ) :
    orderAfter len p js order = order := by
  induction js generalizing order with
  | nil => rfl
  | cons j js ih =>
    rw [orderAfter, List.foldl_cons, if_neg (h j List.mem_cons_self)]
    exact ih (fun j hj => h j (List.mem_cons_of_mem _ hj)) order

/-- The loop sets the orders from the index on, and all of them if it is negative. -/
theorem orderAfter_rangeFrom (hp : p < len) (order : ℤ) :
    orderAfter len p (rangeFrom i len) order = if i ≤ p then (p : ℤ) else order := by
  by_cases hi : i ≤ p
  · have hlast : ∀ j ∈ rangeFrom ((p : ℤ) + 1) len, indexPlace len j ≠ some p := by
      intro j hj heq
      rw [mem_rangeFrom] at hj
      rw [indexPlace_eq_some_iff] at heq
      omega
    have hself : indexPlace len (p : ℤ) = some p := indexPlace_eq_some_iff.mpr ⟨hp, .inl rfl⟩
    have hsplit : rangeFrom i len = rangeFrom i p ++ (p : ℤ) :: rangeFrom ((p : ℤ) + 1) len := by
      rw [rangeFrom_append hi (by omega : (p : ℤ) ≤ len), rangeFrom_cons (by omega : (p : ℤ) < len)]
    rw [if_pos hi, hsplit, orderAfter, List.foldl_append, List.foldl_cons, if_pos hself]
    exact orderAfter_of_ne hlast p
  · rw [if_neg hi]
    apply orderAfter_of_ne
    intro j hj heq
    rw [mem_rangeFrom] at hj
    rw [indexPlace_eq_some_iff] at heq
    omega

theorem sliceBound_le (len : ℕ) (i : ℤ) : sliceBound len i ≤ len := by
  rw [sliceBound]
  split <;> omega

/-- The elements with `x` put in at `k`. -/
theorem getElem?_putIn {l : List α} {k : ℕ} (hk : k ≤ l.length) (x : α) (p : ℕ) :
    (l.take k ++ x :: l.drop k)[p]? =
      if p < k then l[p]? else if p = k then some x else l[p - 1]? := by
  have hlen : (l.take k).length = k := List.length_take_of_le hk
  by_cases hlt : p < k
  · rw [if_pos hlt, List.getElem?_append_left (by rwa [hlen]), List.getElem?_take_of_lt hlt]
  · rw [if_neg hlt, List.getElem?_append_right (by omega), hlen]
    by_cases heq : p = k
    · rw [if_pos heq, heq, Nat.sub_self, List.getElem?_cons_zero]
    · have hpred : p - k = (p - 1 - k) + 1 := by omega
      have hplace : k + (p - 1 - k) = p - 1 := by omega
      rw [if_neg heq, hpred, List.getElem?_cons_succ, List.getElem?_drop, hplace]

/-- `delete_child` takes out the element that the index names. -/
theorem deleteIndex_eq {l : List α} (h : indexPlace l.length i = some p) :
    deleteIndex l i = l.eraseIdx p := by
  rw [indexPlace_eq_some_iff] at h
  have hstart : sliceBound l.length i = p := by
    rw [sliceBound]
    split <;> omega
  rw [deleteIndex, List.eraseIdx_eq_take_drop_succ]
  by_cases hi : i = -1
  · have hend : sliceBound l.length (l.length : ℤ) = l.length := by
      rw [sliceBound]
      split <;> omega
    have hlast : p + 1 = l.length := by omega
    rw [if_neg (not_not.mpr hi), ← hi, setSlice, hstart, hend, hlast]
    simp only [List.append_nil, Nat.max_eq_right (by omega : p ≤ l.length)]
  · have hend : sliceBound l.length (i + 1) = p + 1 := by
      rw [sliceBound]
      split <;> omega
    rw [if_pos hi, setSlice, hstart, hend]
    simp only [List.append_nil, Nat.max_eq_right (Nat.le_succ p)]

end Lists

namespace NodeObject

variable {L : Type} {s s' : NodeHeap L} {n m : NodeObject L} {a b c self : ℕ} {cs : List ℕ} {i : ℤ}

theorem childAt_eq (hn : s[self]? = some n) (hchildren : n.children = cs.map .node) {p : ℕ}
    (hp : indexPlace cs.length i = some p) (hc : cs[p]? = some c) :
    childAt self i s = some (some c, s) := by
  have hlook : ((indexPlace n.children.length i).bind fun k => n.children[k]?) = some (.node c) := by
    rw [hchildren, List.length_map, hp, Option.bind_some, List.getElem?_map, hc, Option.map_some]
  rw [childAt, load_bind hn, Call.look_bind (S := NodeHeap L) (f := asNode) hlook]
  rfl

theorem childAt_eq_none (hn : s[self]? = some n) (hi : indexPlace n.children.length i = none) :
    childAt self i s = some (none, s) := by
  rw [childAt, load_bind hn, Call.look_bind_none (S := NodeHeap L) (f := asNode)]
  rw [hi, Option.bind_none]

/-- What the loop that sets orders does with the children `cs`. -/
structure Ordered (cs : List ℕ) (js : List ℤ) (s s' : NodeHeap L) : Prop where
  size : s'.length = s.length
  child : ∀ (p : ℕ) c, cs[p]? = some c → ∀ m : NodeObject L, s[c]? = some m →
    s'[c]? = some { m with order := orderAfter cs.length p js m.order }
  other : ∀ b, b ∉ cs → s'[b]? = s[b]?

theorem exists_setOrders (hn : s[self]? = some n) (hchildren : n.children = cs.map .node)
    (hnodup : cs.Nodup) (hself : self ∉ cs) (hcs : ∀ c ∈ cs, c < s.length) (js : List ℤ)
    (hjs : ∀ j ∈ js, -(cs.length : ℤ) ≤ j ∧ j < cs.length) :
    ∃ s', setOrders self js s = some (some (), s') ∧ Ordered cs js s s' := by
  induction js generalizing s with
  | nil => exact ⟨s, rfl, rfl, fun _ _ _ _ hm => hm, fun _ _ => rfl⟩
  | cons j js ih =>
    rcases hjs j List.mem_cons_self with ⟨hge, hlt⟩
    rcases exists_indexPlace hge hlt with ⟨p, hp⟩
    have hplt := (indexPlace_eq_some_iff.mp hp).1
    have hc : cs[p]? = some cs[p] := List.getElem?_eq_getElem hplt
    generalize cs[p] = c at hc
    have hmem := List.mem_of_getElem? hc
    have hne : self ≠ c := fun h => hself (h ▸ hmem)
    rcases exists_object (hcs c hmem) with ⟨m, hm⟩
    let s₁ := s.modify c fun m : NodeObject L => { m with order := j }
    have hsize : s₁.length = s.length := List.length_modify ..
    have hn₁ : s₁[self]? = some n := (getElem?_modify_of_ne hne _).trans hn
    rcases ih hn₁ (fun b hb => hsize ▸ hcs b hb)
      (fun j hj => hjs j (List.mem_cons_of_mem _ hj)) with ⟨s', hrun, hordered⟩
    refine ⟨s', ?_, hordered.size.trans hsize, ?_, ?_⟩
    · rw [setOrders, Call.bind_of_returns (childAt_eq hn hchildren hp hc), update_bind]
      exact hrun
    · intro q d hd k hk
      by_cases hq : p = q
      · subst hq
        rw [hc] at hd
        cases hd
        rw [hm] at hk
        cases hk
        rw [hordered.child p c hc _ (getElem?_modify_self hm _), orderAfter, orderAfter,
          List.foldl_cons, if_pos hp]
      · have hdc : d ≠ c := by
          intro h
          subst h
          exact hq ((List.getElem?_inj hplt hnodup).mp (hc.trans hd.symm))
        have hskip : indexPlace cs.length j ≠ some q := fun h =>
          hq (Option.some.inj (hp.symm.trans h))
        rw [hordered.child q d hd k ((getElem?_modify_of_ne hdc _).trans hk), orderAfter,
          orderAfter, List.foldl_cons, if_neg hskip]
    · intro b hb
      have hbc : b ≠ c := fun h => hb (h ▸ hmem)
      rw [hordered.other b hb, getElem?_modify_of_ne hbc]

/-- The children of a right node that is nobody's child belong to it alone. -/
theorem NodeRight.ownedBy (h : NodeRight s a n cs) (hs : RightBut s ∅) (hfree : Free s a) :
    OwnedBy s a cs := by
  intro b k hk hb c hc hmem
  rcases List.mem_cons.mp hc with rfl | hc
  · exact hfree b k hk hmem
  · rcases hs.right b k hk (Set.notMem_empty _) with ⟨ds, hds⟩
    rcases List.mem_iff_getElem?.mp ((mem_children_iff hds.children).mp hmem) with ⟨j, hj⟩
    rcases List.mem_iff_getElem?.mp hc with ⟨i, hi⟩
    rcases hds.child j c hj with ⟨m, hm, hparent, -⟩
    rcases h.child i c hi with ⟨m', hm', hparent', -⟩
    rw [hm] at hm'
    cases hm'
    exact hb (Option.some.inj (hparent.symm.trans hparent'))

theorem NodeRight.notMem_of_free (h : NodeRight s a n cs) (hn : s[a]? = some n) (hfree : Free s c) :
    c ∉ cs :=
  fun hc => hfree a n hn ((mem_children_iff h.children).mpr hc)

/-- The node has children, neither it nor the new child is a child, the index is in range for
the list with the new child, and the loop gets to that child or its order is right already. -/
def InsertSafe (s : NodeHeap L) (self : ℕ) (i : ℤ) (child : ℕ) : Prop :=
  Free s self ∧ Free s child ∧ self ≠ child ∧ ∀ n : NodeObject L, s[self]? = some n →
    n.children ≠ [] ∧ -((n.children.length : ℤ) + 1) ≤ i ∧ (i ≤ n.children.length ∨
        ∀ m : NodeObject L, s[child]? = some m → m.order = n.children.length)

/-- What `insert_child` does with a node that has the children `cs` in the end. -/
structure Inserted (a : ℕ) (i : ℤ) (cs : List ℕ) (s s' : NodeHeap L) : Prop where
  size : s'.length = s.length
  child : ∀ (p : ℕ) c, cs[p]? = some c → ∀ m : NodeObject L, s[c]? = some m →
    s'[c]? = some { m with parent := some a, order := if i ≤ p then (p : ℤ) else m.order }
  other : ∀ b, b ≠ a → b ∉ cs → s'[b]? = s[b]?

theorem exists_insertChild_run {child : ℕ} (hn : s[self]? = some n) (hm : s[child]? = some m)
    (hcs : NodeRight s self n cs) (hself : self ∉ cs) (hchild : child ∉ cs) (hne : self ≠ child)
    (hnonempty : cs ≠ []) (hge : -((cs.length : ℤ) + 1) ≤ i) :
    ∃ cs' s', cs' = cs.take (sliceBound cs.length i) ++ child :: cs.drop (sliceBound cs.length i) ∧
      insertChild self i child s = some (some (), s') ∧ Inserted self i cs' s s' ∧
      s'[self]? = some { n with children := cs'.map .node, length := n.length + m.length } := by
  generalize hk : sliceBound cs.length i = k
  have hkle : k ≤ cs.length := hk ▸ sliceBound_le cs.length i
  let cs' := cs.take k ++ child :: cs.drop k
  have hslice : setSlice n.children i i [.node child] = cs'.map .node := by
    rw [hcs.children, setSlice, List.length_map, hk, Nat.max_self, List.map_append, List.map_cons,
      List.map_take, List.map_drop, List.append_assoc, List.singleton_append]
  have hlen : cs'.length = cs.length + 1 := by
    rw [List.length_append, List.length_cons, List.length_take_of_le hkle, List.length_drop]
    omega
  have hmem : ∀ b, b ∈ cs' ↔ b = child ∨ b ∈ cs := by
    intro b
    rw [List.mem_append, List.mem_cons, ← or_assoc, or_comm (a := b ∈ cs.take k), or_assoc,
      ← List.mem_append, List.take_append_drop]
  have hnodup : cs'.Nodup := by
    rw [List.nodup_middle, List.take_append_drop, List.nodup_cons]
    exact ⟨hchild, hcs.nodup⟩
  have hself' : self ∉ cs' := by
    rw [hmem]
    intro h
    rcases h with h | h
    · exact hne h
    · exact hself h
  let s₁ := s.modify child fun c : NodeObject L => { c with parent := some self }
  let s₂ := s₁.modify self fun n : NodeObject L =>
    { n with children := setSlice n.children i i [.node child] }
  have hn₁ : s₁[self]? = some n := (getElem?_modify_of_ne hne _).trans hn
  have hn₂ : s₂[self]? = some { n with children := setSlice n.children i i [.node child] } :=
    getElem?_modify_self hn₁ _
  have hother₂ : ∀ b, b ≠ self → s₂[b]? = s₁[b]? := fun b hb => getElem?_modify_of_ne hb _
  have hsize₂ : s₂.length = s.length := by
    simp only [s₂, s₁, List.length_modify]
  have hparent : ∀ c ∈ cs', ∀ k : NodeObject L, s[c]? = some k →
      s₂[c]? = some { k with parent := some self } := by
    intro c hc k hk
    rw [hother₂ c fun h => hself' (h ▸ hc)]
    rcases (hmem c).mp hc with rfl | hc
    · exact getElem?_modify_self hk _
    · rcases List.mem_iff_getElem?.mp hc with ⟨p, hp⟩
      rcases hcs.child p c hp with ⟨k', hk', hpar, -⟩
      rw [hk] at hk'
      cases hk'
      have hcchild : c ≠ child := fun h => hchild (h ▸ hc)
      rw [getElem?_modify_of_ne hcchild, hk, ← hpar]
  have hlt : ∀ c ∈ cs', c < s₂.length := by
    intro c hc
    rw [hsize₂]
    rcases (hmem c).mp hc with rfl | hc
    · exact (List.getElem?_eq_some_iff.mp hm).1
    · exact hcs.lt hc
  rcases exists_setOrders hn₂ hslice hnodup hself' hlt (rangeFrom i cs'.length) (fun j hj => by
    rw [mem_rangeFrom] at hj
    omega) with ⟨s₃, hrun, hordered⟩
  have hn₃ := (hordered.other self hself').trans hn₂
  rcases List.mem_iff_getElem?.mp ((hmem child).mpr (.inl rfl)) with ⟨q, hq⟩
  have hm₃ := hordered.child q child hq _ (hparent child ((hmem child).mpr (.inl rfl)) m hm)
  refine ⟨cs', s₃.modify self fun n : NodeObject L => { n with length := n.length + m.length }, rfl,
    ?_, ⟨?_, ?_, ?_⟩, ?_⟩
  · have hmany : 1 < (cs'.map NodeValue.node).length := by
      have hpos := List.length_pos_of_ne_nil hnonempty
      rw [List.length_map]
      omega
    rw [insertChild, update_bind, update_bind, load_bind hn₂]
    simp only [hslice, List.length_map]
    rw [Call.bind_of_returns hrun, load_bind hn₃, load_bind hm₃]
    simp only [hslice, hmany, if_true]
    rfl
  · rw [List.length_modify, hordered.size, hsize₂]
  · intro p c hp k hk
    have hc := List.mem_of_getElem? hp
    have hplt := (List.getElem?_eq_some_iff.mp hp).1
    have hcself : c ≠ self := fun h => hself' (h ▸ hc)
    rw [getElem?_modify_of_ne hcself, hordered.child p c hp _ (hparent c hc k hk),
      orderAfter_rangeFrom hplt]
  · intro b hb hnot
    have hbchild : b ≠ child := fun h => hnot ((hmem b).mpr (.inl h))
    rw [getElem?_modify_of_ne hb, hordered.other b hnot, hother₂ b hb,
      getElem?_modify_of_ne hbchild]
  · rw [getElem?_modify_self hn₃]
    simp only [hslice]

theorem Inserted.rearranged (h : Inserted self i cs s s') : Rearranged self cs s s' := by
  refine ⟨h.size, ?_, h.other⟩
  intro b hb hne m' hm'
  have hlt : b < s.length := by
    rw [← h.size]
    exact (List.getElem?_eq_some_iff.mp hm').1
  rcases exists_object hlt with ⟨m, hm⟩
  rcases List.mem_iff_getElem?.mp hb with ⟨p, hp⟩
  rw [h.child p b hp m hm] at hm'
  cases hm'
  exact ⟨m, hm, rfl, rfl⟩

/-- **`insert_child`** keeps all nodes right. -/
theorem RightBut.exists_insertChild {child : ℕ} (hs : RightBut s ∅) (hlt : self < s.length)
    (hchildlt : child < s.length) (hsafe : InsertSafe s self i child) :
    ∃ s', insertChild self i child s = some (some (), s') ∧ RightBut s' ∅ := by
  rcases exists_object hlt with ⟨n, hn⟩
  rcases exists_object hchildlt with ⟨m, hm⟩
  rcases hsafe with ⟨hfself, hfchild, hne, hindex⟩
  rcases hindex n hn with ⟨hnonempty, hge, hplace⟩
  rcases hs.right self n hn (Set.notMem_empty _) with ⟨cs, hcs⟩
  rcases hs.right child m hm (Set.notMem_empty _) with ⟨ds, hds⟩
  have hself := hcs.notMem_of_free hn hfself
  have hchild := hcs.notMem_of_free hn hfchild
  have hlen : n.children.length = cs.length := by rw [hcs.children, List.length_map]
  have hcsne : cs ≠ [] := fun h => hnonempty (by rw [hcs.children, h, List.map_nil])
  rw [hlen] at hge hplace
  rcases exists_insertChild_run hn hm hcs hself hchild hne hcsne hge with
    ⟨cs', s', hcs', hrun, hinserted, hn'⟩
  generalize hk : sliceBound cs.length i = k at hcs'
  have hkle : k ≤ cs.length := hk ▸ sliceBound_le cs.length i
  have hmem : ∀ b, b ∈ cs' ↔ b = child ∨ b ∈ cs := by
    intro b
    rw [hcs', List.mem_append, List.mem_cons, ← or_assoc, or_comm (a := b ∈ cs.take k), or_assoc,
      ← List.mem_append, List.take_append_drop]
  have hsum : (cs'.map (lengthAt s')).sum = (cs.map (lengthAt s)).sum + m.length := by
    have hsame : (cs'.map (lengthAt s')).sum = (cs'.map (lengthAt s)).sum := by
      apply sum_lengthAt_congr
      intro c hc
      rcases List.mem_iff_getElem?.mp hc with ⟨p, hp⟩
      have hclt : c < s.length := by
        rcases (hmem c).mp hc with rfl | hc
        · exact hchildlt
        · exact hcs.lt hc
      rcases exists_object hclt with ⟨k, hk⟩
      rw [lengthAt_eq hk, lengthAt_eq (hinserted.child p c hp k hk)]
    have hsplit : (cs.map (lengthAt s)).sum =
        ((cs.take k).map (lengthAt s)).sum + ((cs.drop k).map (lengthAt s)).sum := by
      rw [← List.sum_append, ← List.map_append, List.take_append_drop]
    rw [hsame, hsplit, hcs', List.map_append, List.map_cons, List.sum_append, List.sum_cons,
      lengthAt_eq hm]
    omega
  refine ⟨s', hrun, hinserted.rearranged.rightBut (hs.mono (Set.empty_subset _)) ?_ ?_⟩
  · intro b l hl hb c hc
    rcases List.mem_cons.mp hc with rfl | hc
    · exact hfself b l hl
    · rcases (hmem c).mp hc with rfl | hc
      · exact hfchild b l hl
      · exact hcs.ownedBy hs hfself b l hl hb c (List.mem_cons_of_mem _ hc)
  · intro l hl
    rw [hn'] at hl
    cases hl
    refine ⟨cs', rfl, ?_, ?_, ?_⟩
    · intro p c hp
      have hclt : c < s.length := by
        rcases (hmem c).mp (List.mem_of_getElem? hp) with rfl | hc
        · exact hchildlt
        · exact hcs.lt hc
      rcases exists_object hclt with ⟨l, hl⟩
      refine ⟨_, hinserted.child p c hp l hl, rfl, ?_⟩
      -- where the loop does not get, the order was right
      have hbound : p < cs.length + 1 := by
        have hplt := (List.getElem?_eq_some_iff.mp hp).1
        rw [hcs', List.length_append, List.length_cons, List.length_take_of_le hkle,
          List.length_drop] at hplt
        omega
      by_cases hip : i ≤ p
      · simp only [if_pos hip]
      · simp only [if_neg hip]
        rw [hcs', getElem?_putIn hkle] at hp
        by_cases hpk : p < k
        · rw [if_pos hpk] at hp
          rcases hcs.child p c hp with ⟨l', hl', -, horder⟩
          rw [hl] at hl'
          cases hl'
          exact horder
        · have hplast : p = k ∧ p = cs.length ∧ ¬ i ≤ cs.length := by
            rw [sliceBound] at hk
            split at hk <;> omega
          rw [if_neg hpk, if_pos hplast.1] at hp
          cases hp
          rw [hplast.2.1]
          rcases hplace with hle | horder
          · exact absurd hle hplast.2.2
          · exact horder l hl
    · change n.length + m.length = _
      rw [hsum, hcs.length]
      omega
    · have hpos := hcs.pos
      have hpos' := hds.pos
      change 0 < n.length + m.length
      omega

/-- The index names no child, or the node is nobody's child and the index, which is used again
when the child is gone, does not count all children from the end. -/
def DeleteSafe (s : NodeHeap L) (self : ℕ) (i : ℤ) : Prop :=
  ∀ n : NodeObject L, s[self]? = some n → indexPlace n.children.length i = none ∨
    Free s self ∧ (i ≠ -(n.children.length : ℤ) ∨ n.children.length = 1)

/-- What `delete_child` does when it takes the child `c` and leaves the children `cs`. -/
structure Deleted (a c : ℕ) (i : ℤ) (cs : List ℕ) (s s' : NodeHeap L) : Prop where
  size : s'.length = s.length
  taken : ∀ m : NodeObject L, s[c]? = some m → s'[c]? = some { m with parent := none, order := 0 }
  child : ∀ (p : ℕ) d, cs[p]? = some d → ∀ m : NodeObject L, s[d]? = some m →
    s'[d]? = some { m with order := if i ≤ p then (p : ℤ) else m.order }
  other : ∀ b, b ≠ a → b ≠ c → b ∉ cs → s'[b]? = s[b]?

theorem exists_deleteChild_run {p : ℕ} (hn : s[self]? = some n) (hcs : NodeRight s self n cs)
    (hself : self ∉ cs) (hp : indexPlace cs.length i = some p) (hc : cs[p]? = some c)
    (hm : s[c]? = some m) (hi : i ≠ -(cs.length : ℤ) ∨ cs.length = 1) :
    ∃ r s', deleteChild self i s = some (r, s') ∧ Deleted self c i (cs.eraseIdx p) s s' ∧
      s'[self]? = some { n with
        children := (cs.eraseIdx p).map .node, length := n.length - m.length } := by
  have hplt := (indexPlace_eq_some_iff.mp hp).1
  have hmem := List.mem_of_getElem? hc
  have hperm : (c :: cs.eraseIdx p).Perm cs := by
    rw [List.getElem?_eq_some_iff] at hc
    rcases hc with ⟨hlt, rfl⟩
    exact List.getElem_cons_eraseIdx_perm hlt
  have hnodup := hperm.nodup_iff.mpr hcs.nodup
  rw [List.nodup_cons] at hnodup
  have hselfc : self ≠ c := fun h => hself (h ▸ hmem)
  have hself' : self ∉ cs.eraseIdx p := fun h => hself (List.mem_of_mem_eraseIdx h)
  have hslice : deleteIndex n.children i = (cs.eraseIdx p).map .node := by
    rw [hcs.children, deleteIndex_eq (p := p) (by rwa [List.length_map]), List.eraseIdx_map]
  let s₁ := s.modify c fun m : NodeObject L => { m with parent := none }
  let s₂ := s₁.modify c fun m : NodeObject L => { m with order := 0 }
  let s₃ := s₂.modify self fun n : NodeObject L => { n with length := n.length - m.length }
  let s₄ := s₃.modify self fun n : NodeObject L => { n with children := deleteIndex n.children i }
  have hc₂ : s₂[c]? = some { m with parent := none, order := 0 } :=
    getElem?_modify_self (getElem?_modify_self hm _) _
  have hother₂ : ∀ b, b ≠ c → s₂[b]? = s[b]? := fun b hb => by
    rw [getElem?_modify_of_ne hb, getElem?_modify_of_ne hb]
  have hother₄ : ∀ b, b ≠ self → s₄[b]? = s₂[b]? := fun b hb => by
    rw [getElem?_modify_of_ne hb, getElem?_modify_of_ne hb]
  have hn₄ : s₄[self]? = some { n with
      children := deleteIndex n.children i, length := n.length - m.length } :=
    getElem?_modify_self (getElem?_modify_self ((hother₂ self hselfc).trans hn) _) _
  have hsize₄ : s₄.length = s.length := by
    simp only [s₄, s₃, s₂, s₁, List.length_modify]
  have hkept : ∀ d ∈ cs.eraseIdx p, s₄[d]? = s[d]? := by
    intro d hd
    have hdself : d ≠ self := fun h => hself' (h ▸ hd)
    have hdc : d ≠ c := fun h => hnodup.1 (h ▸ hd)
    rw [hother₄ d hdself, hother₂ d hdc]
  have hrest : deleteChild self i s = setOrders self (rangeFrom i (cs.eraseIdx p).length) s₄ := by
    rw [deleteChild, Call.bind_of_returns (childAt_eq hn hcs.children hp hc), update_bind,
      update_bind, load_bind hc₂, update_bind, update_bind, load_bind hn₄]
    simp only [hslice, List.length_map]
  have hlen : (cs.eraseIdx p).length = cs.length - 1 := List.length_eraseIdx_of_lt hplt
  have htaken : ∀ k : NodeObject L, s[c]? = some k →
      s₄[c]? = some { k with parent := none, order := 0 } := by
    intro k hk
    rw [hm] at hk
    cases hk
    rw [hother₄ c (Ne.symm hselfc), hc₂]
  by_cases hfirst : i = -(cs.length : ℤ)
  · -- the loop begins with an index that names no child any more, as there is none
    have hone : cs.length = 1 := by
      rcases hi with hne | hone
      · exact absurd hfirst hne
      · exact hone
    have hnil : cs.eraseIdx p = [] := List.eq_nil_of_length_eq_zero (by omega)
    have hplace : indexPlace (deleteIndex n.children i).length i = none := by
      rw [hslice, hnil]
      cases hnone : indexPlace ([] : List ℕ).length i with
      | none => exact hnone
      | some q => exact absurd (indexPlace_eq_some_iff.mp hnone).1 (Nat.not_lt_zero q)
    have hrange : rangeFrom i (cs.eraseIdx p).length = i :: rangeFrom (i + 1) 0 := by
      rw [hnil]
      exact rangeFrom_cons (by simp only [List.length_nil]; omega)
    refine ⟨none, s₄, ?_, ⟨hsize₄, htaken, ?_, ?_⟩, ?_⟩
    · rw [hrest, hrange, setOrders, Call.bind_of_raises (childAt_eq_none hn₄ hplace)]
    · intro q d hd
      rw [hnil] at hd
      simp at hd
    · intro b hb hbc _
      rw [hother₄ b hb, hother₂ b hbc]
    · rw [hn₄, hslice]
  · rcases exists_setOrders hn₄ hslice hnodup.2 hself'
      (fun d hd => hsize₄ ▸ hcs.lt (List.mem_of_mem_eraseIdx hd))
      (rangeFrom i (cs.eraseIdx p).length) (fun j hj => by
        rw [mem_rangeFrom] at hj
        have hnames := (indexPlace_eq_some_iff.mp hp).2
        omega) with ⟨s₅, hrun, hordered⟩
    refine ⟨some (), s₅, hrest.trans hrun, ⟨hordered.size.trans hsize₄, ?_, ?_, ?_⟩, ?_⟩
    · intro k hk
      rw [hordered.other c hnodup.1, htaken k hk]
    · intro q d hd k hk
      have hq := (List.getElem?_eq_some_iff.mp hd).1
      rw [hordered.child q d hd k ((hkept d (List.mem_of_getElem? hd)).trans hk),
        orderAfter_rangeFrom hq]
    · intro b hb hbc hnot
      rw [hordered.other b hnot, hother₄ b hb, hother₂ b hbc]
    · rw [hordered.other self hself', hn₄, hslice]

theorem Deleted.rearranged (h : Deleted a c i cs s s') : Rearranged a (c :: cs) s s' := by
  refine ⟨h.size, ?_, ?_⟩
  · intro b hb hne m' hm'
    have hlt : b < s.length := by
      rw [← h.size]
      exact (List.getElem?_eq_some_iff.mp hm').1
    rcases exists_object hlt with ⟨m, hm⟩
    rcases List.mem_cons.mp hb with rfl | hb
    · rw [h.taken m hm] at hm'
      cases hm'
      exact ⟨m, hm, rfl, rfl⟩
    · rcases List.mem_iff_getElem?.mp hb with ⟨p, hp⟩
      rw [h.child p b hp m hm] at hm'
      cases hm'
      exact ⟨m, hm, rfl, rfl⟩
  · intro b hb hnot
    rw [List.mem_cons, not_or] at hnot
    exact h.other b hb hnot.1 hnot.2

/-- The node is right with the children that are left. -/
theorem Deleted.nodeRight {p : ℕ} (h : Deleted self c i (cs.eraseIdx p) s s') (hs : RightBut s ∅)
    (hcs : NodeRight s self n cs) (hp : indexPlace cs.length i = some p)
    (hperm : (c :: cs.eraseIdx p).Perm cs) (hm : s[c]? = some m) :
    NodeRight s' self { n with
      children := (cs.eraseIdx p).map .node, length := n.length - m.length } (cs.eraseIdx p) := by
  have hsame : ((cs.eraseIdx p).map (lengthAt s')).sum = ((cs.eraseIdx p).map (lengthAt s)).sum := by
    apply sum_lengthAt_congr
    intro d hd
    rcases List.mem_iff_getElem?.mp hd with ⟨q, hq⟩
    rcases exists_object (hcs.lt (List.mem_of_mem_eraseIdx hd)) with ⟨k, hk⟩
    rw [lengthAt_eq hk, lengthAt_eq (h.child q d hq k hk)]
  have hsum : (cs.map (lengthAt s)).sum = m.length + ((cs.eraseIdx p).map (lengthAt s)).sum := by
    rw [← (hperm.map (lengthAt s)).sum_eq, List.map_cons, List.sum_cons, lengthAt_eq hm]
  have hnonneg : 0 ≤ ((cs.eraseIdx p).map (lengthAt s)).sum := by
    apply sum_lengthAt_nonneg
    intro d _ k hk
    rcases hs.right d k hk (Set.notMem_empty _) with ⟨ds, hds⟩
    exact hds.pos
  have hlength := hcs.length
  refine ⟨rfl, ?_, ?_, ?_⟩
  · intro q d hd
    have hold : cs[if q < p then q else q + 1]? = some d := by
      rw [List.getElem?_eraseIdx] at hd
      split at hd
      · rename_i hlt
        rwa [if_pos hlt]
      · rename_i hge
        rwa [if_neg hge]
    rcases hcs.child _ d hold with ⟨k, hk, hparent, horder⟩
    refine ⟨_, h.child q d hd k hk, hparent, ?_⟩
    by_cases hiq : i ≤ q
    · simp only [if_pos hiq]
    · -- only a place in front of the child that is gone is not reached
      have hlt : q < p := by
        have hnames := (indexPlace_eq_some_iff.mp hp).2
        have hplt := (indexPlace_eq_some_iff.mp hp).1
        omega
      simp only [if_neg hiq]
      rw [if_pos hlt] at horder
      exact horder
  · change n.length - m.length = _
    rw [hsame]
    omega
  · change 0 < n.length - m.length
    omega

/-- **`delete_child`** keeps all nodes right, also where it raises. -/
theorem RightBut.exists_deleteChild (hs : RightBut s ∅) (hn : s[self]? = some n)
    (hsafe : DeleteSafe s self i) :
    ∃ r s', deleteChild self i s = some (r, s') ∧ RightBut s' ∅ ∧ s'.length = s.length ∧
      (r = none ∧ s' = s ∨ indexPlace n.children.length i ≠ none ∧
        ∃ n', s'[self]? = some n' ∧ n'.parent = n.parent ∧
          n'.children.length = n.children.length - 1) := by
  rcases hs.right self n hn (Set.notMem_empty _) with ⟨cs, hcs⟩
  have hlen : n.children.length = cs.length := by rw [hcs.children, List.length_map]
  rcases hsafe n hn with hnone | ⟨hfself, hi⟩
  · refine ⟨none, s, ?_, hs, rfl, .inl ⟨rfl, rfl⟩⟩
    rw [deleteChild, Call.bind_of_raises (childAt_eq_none hn hnone)]
  · cases hp : indexPlace n.children.length i with
    | none =>
      refine ⟨none, s, ?_, hs, rfl, .inl ⟨rfl, rfl⟩⟩
      rw [deleteChild, Call.bind_of_raises (childAt_eq_none hn hp)]
    | some p =>
      rw [hlen] at hp hi
      have hself := hcs.notMem_of_free hn hfself
      have hplt := (indexPlace_eq_some_iff.mp hp).1
      have hc : cs[p]? = some cs[p] := List.getElem?_eq_getElem hplt
      have hperm : (cs[p] :: cs.eraseIdx p).Perm cs := List.getElem_cons_eraseIdx_perm hplt
      generalize cs[p] = c at hc hperm
      rcases hcs.child p c hc with ⟨m, hm, -⟩
      rcases exists_deleteChild_run hn hcs hself hp hc hm hi with ⟨r, s', hrun, hdeleted, hn'⟩
      refine ⟨r, s', hrun, ?_, hdeleted.size, .inr ⟨nofun, _, hn', rfl, ?_⟩⟩
      · apply hdeleted.rearranged.rightBut (hs.mono (Set.empty_subset _))
        · intro b k hk hb d hd
          apply hcs.ownedBy hs hfself b k hk hb
          rcases List.mem_cons.mp hd with rfl | hd
          · exact List.mem_cons_self
          · exact List.mem_cons_of_mem _ (hperm.mem_iff.mp hd)
        · intro k hk
          rw [hn'] at hk
          cases hk
          exact ⟨_, hdeleted.nodeRight hs hcs hp hperm hm⟩
      · rw [hlen]
        simp only [List.length_map]
        exact List.length_eraseIdx_of_lt hplt

/-- The parent can give up its child at the place that the node has as its order. -/
def DetachSafe (s : NodeHeap L) (self : ℕ) : Prop :=
  ∀ n : NodeObject L, s[self]? = some n → ∀ p, n.parent = some p → DeleteSafe s p n.order

/-- A parent that loses its only child has no parent itself. -/
def CleanSafe (s : NodeHeap L) (self : ℕ) : Prop :=
  DetachSafe s self ∧ ∀ n : NodeObject L, s[self]? = some n → ∀ p, n.parent = some p →
    ∀ m : NodeObject L, s[p]? = some m → m.children.length = 1 → indexPlace 1 n.order ≠ none →
      m.parent = none

theorem detach_of_none (hn : s[self]? = some n) (hparent : n.parent = none) :
    detach self s = some (none, s) := by
  rw [detach, load_bind hn, Call.look_bind_none (S := NodeHeap L) hparent]

theorem detach_of_some {p : ℕ} (hn : s[self]? = some n) (hparent : n.parent = some p) :
    detach self s = deleteChild p n.order s := by
  rw [detach, load_bind hn, Call.look_bind (S := NodeHeap L) hparent]

theorem deleteChild_of_none (hn : s[self]? = none) : deleteChild self i s = some (none, s) := by
  have hchild : childAt self i s = some (none, s) := by
    rw [childAt, load_bind_none hn]
  rw [deleteChild, Call.bind_of_raises hchild]

theorem RightBut.exists_detach (hs : RightBut s ∅) (hlt : self < s.length)
    (hsafe : DetachSafe s self) :
    ∃ r s', detach self s = some (r, s') ∧ RightBut s' ∅ := by
  rcases exists_object hlt with ⟨n, hn⟩
  cases hparent : n.parent with
  | none => exact ⟨none, s, detach_of_none hn hparent, hs⟩
  | some p =>
    rw [detach_of_some hn hparent]
    cases hm : s[p]? with
    | none => exact ⟨none, s, deleteChild_of_none hm, hs⟩
    | some m =>
      rcases hs.exists_deleteChild hm (hsafe n hn p hparent) with ⟨r, s', hrun, hright, -, -⟩
      exact ⟨r, s', hrun, hright⟩

/-- **`delete_clean`** keeps all nodes right where nothing but the parent has to change. -/
theorem RightBut.exists_deleteClean (hs : RightBut s ∅) (hlt : self < s.length)
    (hsafe : CleanSafe s self) (fuel : ℕ) :
    ∃ r s', deleteClean (fuel + 2) self s = some (r, s') ∧ RightBut s' ∅ := by
  rcases exists_object hlt with ⟨n, hn⟩
  rw [deleteClean, load_bind hn]
  cases hparent : n.parent with
  | none =>
    rw [Call.bind_of_raises (detach_of_none hn hparent)]
    exact ⟨none, s, rfl, hs⟩
  | some p =>
    have hdetach := detach_of_some hn hparent
    cases hm : s[p]? with
    | none =>
      rw [deleteChild_of_none hm] at hdetach
      rw [Call.bind_of_raises hdetach]
      exact ⟨none, s, rfl, hs⟩
    | some m =>
      rcases hs.exists_deleteChild hm (hsafe.1 n hn p hparent) with
        ⟨r, s', hrun, hright, -, hkept⟩
      rw [hrun] at hdetach
      cases r with
      | none =>
        rw [Call.bind_of_raises hdetach]
        exact ⟨none, s', rfl, hright⟩
      | some u =>
        rcases hkept with ⟨hraise, -⟩ | ⟨hplace, m', hm', hparent', hlen⟩
        · cases hraise
        · rw [Call.bind_of_returns hdetach, Call.look_bind (S := NodeHeap L) (g := fun _ => some p) rfl, load_bind hm']
          by_cases hempty : m'.children.length = 0
          · rw [if_pos hempty]
            have hone : m.children.length = 1 := by
              cases hp : indexPlace m.children.length n.order with
              | none => exact absurd hp hplace
              | some q =>
                have hq := (indexPlace_eq_some_iff.mp hp).1
                omega
            have htop := hsafe.2 n hn p hparent m hm hone (hone ▸ hplace)
            rw [deleteClean, load_bind hm',
              Call.bind_of_raises (detach_of_none hm' (hparent'.trans htop))]
            exact ⟨none, s', rfl, hright⟩
          · rw [if_neg hempty]
            exact ⟨_, s', rfl, hright⟩

end NodeObject

end Carmel.Gextract
