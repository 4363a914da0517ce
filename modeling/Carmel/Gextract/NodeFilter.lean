/-
# Children that are not kept

`filter_inplace` copies each child that it keeps and goes on with the child itself, so below
the children nothing is filtered. When a child is left out, the length of the node becomes
smaller by one, and no length above the node changes.
-/

import Carmel.Gextract.NodeCopies
import Carmel.Gextract.NodeEdits

namespace Carmel.Gextract

open Carmel.Math

namespace NodeObject

variable {L : Type} {s s' t t' : NodeHeap L} {n m : NodeObject L} {a b c self : ℕ}
variable {cs ks rs out : List ℕ} {keep : NodeHeap L → ℕ → Bool} {fuel : ℕ}

/-- Where the loop of `filter_inplace_children` can get from `s`: nodes have come, and nothing
but the length of the node and the orders of its children is different. -/
structure Stage (s : NodeHeap L) (a : ℕ) (t : NodeHeap L) : Prop where
  le : s.length ≤ t.length
  old : ∀ (b : ℕ) (m : NodeObject L), s[b]? = some m → ∃ m' : NodeObject L, t[b]? = some m' ∧
    m'.label = m.label ∧ m'.children = m.children ∧ m'.parent = m.parent ∧
    (b ≠ a → m'.length = m.length) ∧
    ((∀ n : NodeObject L, s[a]? = some n → .node b ∉ n.children) → m'.order = m.order)

/-- Where a child is not kept at some stage, it has no children, and the node is nobody's
child. -/
def FilterSafe (s : NodeHeap L) (self : ℕ) (keep : NodeHeap L → ℕ → Bool) : Prop :=
  keep s self = true → ∀ n : NodeObject L, s[self]? = some n → ∀ c, .node c ∈ n.children →
    ∀ t, Stage s self t → keep t c = false →
      Free s self ∧ ∀ m : NodeObject L, s[c]? = some m → m.children = []

theorem Stage.refl (s : NodeHeap L) (a : ℕ) : Stage s a s :=
  ⟨Nat.le_refl _, fun _ m hm => ⟨m, hm, rfl, rfl, rfl, fun _ => rfl, fun _ => rfl⟩⟩

theorem Stage.collected (h : Stage s a t) (h' : Collected t t' out) : Stage s a t' := by
  refine ⟨Nat.le_trans h.le h'.le, fun b m hm => ?_⟩
  rcases h.old b m hm with ⟨m', hm', hsame⟩
  exact ⟨m', (h'.old b (List.getElem?_eq_some_iff.mp hm').1).trans hm', hsame⟩

/-- The loop changes the length of the node. -/
theorem Stage.length (h : Stage s a t) (f : NodeObject L → ℤ) :
    Stage s a (t.modify a fun n => { n with length := f n }) := by
  refine ⟨h.le.trans (Nat.le_of_eq (List.length_modify ..).symm), fun b m hm => ?_⟩
  rcases h.old b m hm with ⟨m', hm', hlabel, hchildren, hparent, hlength, horder⟩
  by_cases hb : b = a
  · subst hb
    exact ⟨_, getElem?_modify_self hm' _, hlabel, hchildren, hparent, fun h => absurd rfl h, horder⟩
  · exact ⟨m', (getElem?_modify_of_ne hb _).trans hm', hlabel, hchildren, hparent, hlength, horder⟩

theorem Stage.order (h : Stage s a t) (hn : s[a]? = some n) (hc : .node c ∈ n.children) (k : ℤ) :
    Stage s a (t.modify c fun m => { m with order := k }) := by
  refine ⟨h.le.trans (Nat.le_of_eq (List.length_modify ..).symm), fun b m hm => ?_⟩
  rcases h.old b m hm with ⟨m', hm', hlabel, hchildren, hparent, hlength, horder⟩
  by_cases hb : b = c
  · subst hb
    exact ⟨_, getElem?_modify_self hm' _, hlabel, hchildren, hparent, hlength,
      fun hnot => absurd hc (hnot n hn)⟩
  · exact ⟨m', (getElem?_modify_of_ne hb _).trans hm', hlabel, hchildren, hparent, hlength, horder⟩

/-- The loop has left out a child, the children `ks` are kept, and `rs` are still to come. -/
structure Filtering (s : NodeHeap L) (a : ℕ) (ks rs : List ℕ) (t : NodeHeap L) : Prop where
  stage : Stage s a t
  right : RightBut t {a}
  free : Free t a
  top : ∃ n : NodeObject L, t[a]? = some n ∧ (∀ c ∈ ks ++ rs, .node c ∈ n.children) ∧
    n.length = 1 + (ks.map (lengthAt t)).sum + (rs.map (lengthAt t)).sum
  kept : ∀ (p : ℕ) c, ks[p]? = some c →
    ∃ m : NodeObject L, t[c]? = some m ∧ m.parent = some a ∧ m.order = p
  rest : ∀ c ∈ rs, ∃ m : NodeObject L, t[c]? = some m ∧ m.parent = some a
  nodup : (ks ++ rs).Nodup

theorem Filtering.ne (h : Filtering s a ks rs t) (hc : c ∈ ks ++ rs) : c ≠ a := by
  intro heq
  subst heq
  rcases h.top with ⟨n, hn, hchildren, -⟩
  exact h.free c n hn (hchildren c hc)

theorem Filtering.exists_child (h : Filtering s a ks rs t) (hc : c ∈ ks ++ rs) :
    ∃ m : NodeObject L, t[c]? = some m ∧ m.parent = some a := by
  rcases List.mem_append.mp hc with hc | hc
  · rcases List.mem_iff_getElem?.mp hc with ⟨p, hp⟩
    rcases h.kept p c hp with ⟨m, hm, hparent, -⟩
    exact ⟨m, hm, hparent⟩
  · exact h.rest c hc

theorem Filtering.collected (h : Filtering s a ks rs t) (h' : Collected t t' out) :
    Filtering s a ks rs t' := by
  have hold : ∀ (b : ℕ) (m : NodeObject L), t[b]? = some m → t'[b]? = some m := fun b m hm =>
    (h'.old b (List.getElem?_eq_some_iff.mp hm).1).trans hm
  have hsame : ∀ c ∈ ks ++ rs, lengthAt t' c = lengthAt t c := by
    intro c hc
    rcases h.exists_child hc with ⟨m, hm, -⟩
    rw [lengthAt_eq hm, lengthAt_eq (hold c m hm)]
  rcases h.top with ⟨n, hn, hchildren, hlength⟩
  refine ⟨h.stage.collected h', h'.rightBut h.right, ?_, ⟨n, hold a n hn, hchildren, ?_⟩, ?_, ?_,
    h.nodup⟩
  · exact h'.free_of_lt (List.getElem?_eq_some_iff.mp hn).1 h.free
  · rw [sum_lengthAt_congr fun c hc => hsame c (List.mem_append_left _ hc),
      sum_lengthAt_congr fun c hc => hsame c (List.mem_append_right _ hc)]
    exact hlength
  · intro p c hp
    rcases h.kept p c hp with ⟨m, hm, hparent⟩
    exact ⟨m, hold c m hm, hparent⟩
  · intro c hc
    rcases h.rest c hc with ⟨m, hm, hparent⟩
    exact ⟨m, hold c m hm, hparent⟩

/-- A change of attributes of the free node does not concern the others. -/
theorem RightBut.modify_self (h : RightBut t {a}) (hfree : Free t a)
    {f : NodeObject L → NodeObject L} (hf : ∀ n, (f n).children = n.children) :
    RightBut (t.modify a f) {a} ∧ Free (t.modify a f) a := by
  have hold : ∀ (b : ℕ) (n : NodeObject L), (t.modify a f)[b]? = some n →
      ∃ m : NodeObject L, t[b]? = some m ∧ n.children = m.children := by
    intro b n hn
    by_cases hb : b = a
    · subst hb
      cases hm : t[b]? with
      | none =>
        rw [List.getElem?_modify, hm] at hn
        cases hn
      | some m =>
        rw [getElem?_modify_self hm] at hn
        cases hn
        exact ⟨m, rfl, hf m⟩
    · rw [getElem?_modify_of_ne hb] at hn
      exact ⟨n, hn, rfl⟩
  refine ⟨⟨fun b n hn hb => ?_, fun b n hn c hc => ?_⟩, fun b n hn hmem => ?_⟩
  · rw [getElem?_modify_of_ne hb] at hn
    rcases h.right b n hn hb with ⟨ds, hds⟩
    refine ⟨ds, hds.congr rfl rfl fun c hc k hk => ⟨k, ?_, rfl, rfl, rfl⟩⟩
    have hca : c ≠ a := fun heq =>
      hfree b n hn ((mem_children_iff hds.children).mpr (heq ▸ hc))
    rw [getElem?_modify_of_ne hca, hk]
  · rcases hold b n hn with ⟨m, hm, hchildren⟩
    rw [List.length_modify]
    exact h.closed b m hm c (hchildren ▸ hc)
  · rcases hold b n hn with ⟨m, hm, hchildren⟩
    exact hfree b m hm (hchildren ▸ hmem)

theorem Filtering.leftOut (h : Filtering s a ks (c :: rs) t) (hlen : lengthAt t c = 1) :
    Filtering s a ks rs (t.modify a fun n => { n with length := n.length - 1 }) := by
  have hsub : ∀ d ∈ ks ++ rs, d ∈ ks ++ c :: rs := by
    intro d hd
    rw [List.mem_append] at hd ⊢
    exact hd.imp_right (List.mem_cons_of_mem _)
  have hother : ∀ d ∈ ks ++ rs,
      (t.modify a fun n : NodeObject L => { n with length := n.length - 1 })[d]? = t[d]? :=
    fun d hd => getElem?_modify_of_ne (h.ne (hsub d hd)) _
  rcases h.right.modify_self h.free (f := fun n => { n with length := n.length - 1 })
    fun _ => rfl with ⟨hright, hfree⟩
  rcases h.top with ⟨n, hn, hchildren, hlength⟩
  rw [List.map_cons, List.sum_cons, hlen] at hlength
  refine ⟨h.stage.length _, hright, hfree, ⟨_, getElem?_modify_self hn _, fun d hd =>
    hchildren d (hsub d hd), ?_⟩, ?_, ?_, ?_⟩
  · rw [sum_lengthAt_congr fun d hd => lengthAt_congr (hother d (List.mem_append_left _ hd)),
      sum_lengthAt_congr fun d hd => lengthAt_congr (hother d (List.mem_append_right _ hd))]
    change n.length - 1 = _
    omega
  · intro p d hp
    rw [hother d (List.mem_append_left _ (List.mem_of_getElem? hp))]
    exact h.kept p d hp
  · intro d hd
    rw [hother d (List.mem_append_right _ hd)]
    exact h.rest d (List.mem_cons_of_mem _ hd)
  · exact h.nodup.sublist ((List.sublist_cons_self c rs).append_left ks)

theorem Filtering.moved (h : Filtering s a ks (c :: rs) t) (hn : s[a]? = some n)
    (hc : .node c ∈ n.children) :
    Filtering s a (ks ++ [c]) rs (t.modify c fun m => { m with order := (ks.length : ℕ) }) := by
  have hcmem : c ∈ ks ++ c :: rs := List.mem_append_right _ List.mem_cons_self
  have hca := h.ne hcmem
  rcases h.rest c List.mem_cons_self with ⟨m, hm, hparent⟩
  have hm' := getElem?_modify_self hm fun m : NodeObject L => { m with order := (ks.length : ℕ) }
  have hother : ∀ d, d ≠ c →
      (t.modify c fun m : NodeObject L => { m with order := (ks.length : ℕ) })[d]? = t[d]? :=
    fun d hd => getElem?_modify_of_ne hd _
  have hlen : ∀ d, lengthAt (t.modify c fun m : NodeObject L =>
      { m with order := (ks.length : ℕ) }) d = lengthAt t d := by
    intro d
    by_cases hd : d = c
    · subst hd
      rw [lengthAt_eq hm, lengthAt_eq hm']
    · exact lengthAt_congr (hother d hd)
  have hold : ∀ (b : ℕ) (k : NodeObject L), (t.modify c fun m : NodeObject L =>
      { m with order := (ks.length : ℕ) })[b]? = some k →
      ∃ k' : NodeObject L, t[b]? = some k' ∧ k.children = k'.children ∧ k.length = k'.length := by
    intro b k hk
    by_cases hb : b = c
    · subst hb
      rw [hm'] at hk
      cases hk
      exact ⟨m, hm, rfl, rfl⟩
    · rw [hother b hb] at hk
      exact ⟨k, hk, rfl, rfl⟩
  have hassoc : ks ++ [c] ++ rs = ks ++ c :: rs := by
    rw [List.append_assoc, List.singleton_append]
  rcases h.top with ⟨k, hk, hchildren, hlength⟩
  refine ⟨h.stage.order hn hc _, ⟨fun b k hk hb => ?_, fun b k hk d hd => ?_⟩, ?_,
    ⟨k, (hother a (Ne.symm hca)).trans hk, hassoc ▸ hchildren, ?_⟩, ?_, ?_, hassoc ▸ h.nodup⟩
  · rcases hold b k hk with ⟨k', hk', hsame, hlength⟩
    rcases h.right.right b k' hk' hb with ⟨ds, hds⟩
    refine ⟨ds, hds.congr hsame hlength fun d hd l hl => ⟨l, ?_, rfl, rfl, rfl⟩⟩
    -- the child belongs to the node alone
    have hdc : d ≠ c := by
      intro heq
      subst heq
      rcases List.mem_iff_getElem?.mp hd with ⟨i, hi⟩
      rcases hds.child i d hi with ⟨m', hm', hparent', -⟩
      rw [hm] at hm'
      cases hm'
      exact hb (Option.some.inj (hparent'.symm.trans hparent))
    rw [hother d hdc, hl]
  · rcases hold b k hk with ⟨k', hk', hsame, -⟩
    rw [List.length_modify]
    exact h.right.closed b k' hk' d (hsame ▸ hd)
  · intro b k hk hmem
    rcases hold b k hk with ⟨k', hk', hsame, -⟩
    exact h.free b k' hk' (hsame ▸ hmem)
  · rw [sum_lengthAt_congr fun d _ => hlen d, sum_lengthAt_congr fun d _ => hlen d, hlength,
      List.map_append, List.sum_append, List.map_cons, List.sum_cons, List.map_singleton,
      List.sum_singleton]
    omega
  · intro p d hp
    by_cases hlt : p < ks.length
    · rw [List.getElem?_append_left hlt] at hp
      have hdc : d ≠ c := by
        intro heq
        subst heq
        exact (List.nodup_append.mp h.nodup).2.2 d (List.mem_of_getElem? hp) d List.mem_cons_self rfl
      rw [hother d hdc]
      exact h.kept p d hp
    · have hlast := (List.getElem?_eq_some_iff.mp hp).1
      rw [List.length_append, List.length_singleton] at hlast
      have heq : p = ks.length := by omega
      rw [heq, List.getElem?_concat_length] at hp
      cases hp
      exact ⟨_, hm', hparent, by rw [heq]⟩
  · intro d hd
    have hdc : d ≠ c := by
      intro heq
      subst heq
      exact (List.nodup_cons.mp (List.nodup_append.mp h.nodup).2.1).1 hd
    rw [hother d hdc]
    exact h.rest d (List.mem_cons_of_mem _ hd)

/-- The node gets the children that were kept. -/
theorem Filtering.rightBut (h : Filtering s a ks [] t) :
    RightBut (t.modify a fun n => { n with children := ks.map .node }) ∅ := by
  rcases h.top with ⟨n, hn, -, hlength⟩
  have hother : ∀ b, b ≠ a →
      (t.modify a fun n : NodeObject L => { n with children := ks.map .node })[b]? = t[b]? :=
    fun b hb => getElem?_modify_of_ne hb _
  have hrearranged : Rearranged a [] t
      (t.modify a fun n => { n with children := ks.map .node }) := by
    refine ⟨List.length_modify .., ?_, fun b hb _ => hother b hb⟩
    intro b hb
    exact absurd hb List.not_mem_nil
  have hne : ∀ c ∈ ks, c ≠ a := fun c hc => h.ne (List.mem_append_left _ hc)
  apply hrearranged.rightBut
  · rw [insert_empty_eq]
    exact h.right
  · intro b k hk _ c hc
    rw [List.mem_singleton] at hc
    subst hc
    exact h.free b k hk
  · intro k hk
    rw [getElem?_modify_self hn] at hk
    cases hk
    have hsum := sum_lengthAt_congr (s := t) fun c hc => lengthAt_congr (hother c (hne c hc))
    rw [List.map_nil, List.sum_nil, Int.add_zero] at hlength
    refine ⟨ks, rfl, ?_, ?_, ?_⟩
    · intro p c hp
      rw [hother c (hne c (List.mem_of_getElem? hp))]
      exact h.kept p c hp
    · rw [hsum]
      exact hlength
    · have hnonneg : 0 ≤ (ks.map (lengthAt t)).sum := by
        apply sum_lengthAt_nonneg
        intro c hc m hm
        rcases h.right.right c m hm (hne c hc) with ⟨ds, hds⟩
        exact hds.pos
      change 0 < n.length
      omega

section Loop

variable (hcs : NodeRight s self n cs) (hs : RightBut s ∅) (hn : s[self]? = some n)
variable (hkeep : keep s self = true) (hsafe : FilterSafe s self keep)

include hcs hs hn hkeep hsafe in
/-- A child that is not kept has length one, and the node is nobody's child. -/
theorem lengthAt_of_not_kept (hc : c ∈ cs) (ht : Stage s self t) (hno : keep t c = false) :
    Free s self ∧ c ≠ self ∧ lengthAt t c = 1 := by
  have hmem := (mem_children_iff hcs.children).mpr hc
  rcases hsafe hkeep n hn c hmem t ht hno with ⟨hfree, hleaf⟩
  have hne : c ≠ self := fun heq => hfree self n hn (heq ▸ hmem)
  rcases exists_object (hcs.lt hc) with ⟨m, hm⟩
  rcases hs.right c m hm (Set.notMem_empty _) with ⟨ds, hds⟩
  have hnil : ds = [] := by
    have hmap := hds.children
    rw [hleaf m hm] at hmap
    exact List.map_eq_nil_iff.mp hmap.symm
  have hone : m.length = 1 := by
    rw [hds.length, hnil]
    rfl
  rcases ht.old c m hm with ⟨m', hm', -, -, -, hlength, -⟩
  exact ⟨hfree, hne, by rw [lengthAt_eq hm', hlength hne, hone]⟩

include hcs hs hn hkeep hsafe in
/-- The loop after a child was left out. -/
theorem Filtering.exists_filterFrom (h : Filtering s self ks rs t) (hrs : ∀ c ∈ rs, c ∈ cs)
    (hfuel : n.length ≤ fuel) (oldc : List NodeValue) (i : ℕ) :
    ∃ l t', filterFrom keep fuel self oldc i (rs.map .node) (some (ks.map .node)) ks.length t =
        some (some (some l), t') ∧
      RightBut (t'.modify self fun n => { n with children := l }) ∅ := by
  induction rs generalizing ks t i with
  | nil => exact ⟨_, t, rfl, h.rightBut⟩
  | cons c rs ih =>
    have hc := hrs c List.mem_cons_self
    have hmem := (mem_children_iff hcs.children).mpr hc
    have hca : c ≠ self := h.ne (List.mem_append_right _ List.mem_cons_self)
    rcases exists_object (hcs.lt hc) with ⟨m, hm⟩
    rcases h.stage.old c m hm with ⟨m', hm', -, -, -, hlength, -⟩
    have hlt := hcs.length_lt hs (fun _ _ => Set.notMem_empty _) hc hm
    rcases exists_copyKept h.right (fun x hx => by
      rw [Set.mem_singleton_iff] at hx
      subst hx
      rcases h.top with ⟨k, hk, -⟩
      exact ⟨(List.getElem?_eq_some_iff.mp hk).1, h.free⟩) keep (fun s a => (s[a]?).bind label)
      hm' hca fuel (by rw [hlength hca]; omega) with ⟨k, t₁, hrun, hk, hkept⟩
    have h₁ := h.collected hk
    have hrun' : filter keep fuel c t = some (some k, t₁) := hrun
    rw [List.map_cons, filterFrom]
    cases k with
    | none =>
      have hone := lengthAt_of_not_kept hcs hs hn hkeep hsafe hc h.stage hkept.symm
      have hone₁ : lengthAt t₁ c = 1 := by
        rw [lengthAt_congr (hk.old c (List.getElem?_eq_some_iff.mp hm').1)]
        exact hone.2.2
      rcases ih (h₁.leftOut hone₁) (fun c hc => hrs c (List.mem_cons_of_mem _ hc)) (i + 1) with
        ⟨l, t', hrest, hright⟩
      refine ⟨l, t', ?_, hright⟩
      change (filter keep fuel c >>= _) t = _
      rw [Call.bind_of_returns hrun']
      exact hrest
    | some r =>
      have hmoved := h₁.moved hn hmem
      rcases ih hmoved (fun c hc => hrs c (List.mem_cons_of_mem _ hc)) (i + 1) with
        ⟨l, t', hrest, hright⟩
      refine ⟨l, t', ?_, hright⟩
      change (filter keep fuel c >>= _) t = _
      rw [Call.bind_of_returns hrun']
      rw [List.map_append, List.length_append] at hrest
      exact hrest

include hcs hs hn in
/-- Up to the first child that is left out, the node is as it was. -/
theorem Filtering.start (h : Collected s t out) (hfree : Free s self) (hsplit : cs = ks ++ rs) :
    Filtering s self ks rs t := by
  have hlt := (List.getElem?_eq_some_iff.mp hn).1
  have hchild : ∀ (p : ℕ) c, cs[p]? = some c →
      ∃ m : NodeObject L, t[c]? = some m ∧ m.parent = some self ∧ m.order = p := by
    intro p c hp
    rcases hcs.child p c hp with ⟨m, hm, hsame⟩
    exact ⟨m, (h.old c (hcs.lt (List.mem_of_getElem? hp))).trans hm, hsame⟩
  have hlength : ∀ c ∈ cs, lengthAt t c = lengthAt s c := fun c hc =>
    lengthAt_congr (h.old c (hcs.lt hc))
  have hnodup := hcs.nodup
  subst hsplit
  refine ⟨(Stage.refl s self).collected h, (h.rightBut hs).mono (Set.empty_subset _),
    h.free_of_lt hlt hfree, ⟨n, (h.old self hlt).trans hn, ?_, ?_⟩, ?_, ?_, hnodup⟩
  · intro c hc
    exact (mem_children_iff hcs.children).mpr hc
  · rw [sum_lengthAt_congr fun c hc => hlength c (List.mem_append_left _ hc),
      sum_lengthAt_congr fun c hc => hlength c (List.mem_append_right _ hc), hcs.length,
      List.map_append, List.sum_append, Int.add_assoc]
  · intro p c hp
    have hplt := (List.getElem?_eq_some_iff.mp hp).1
    exact hchild p c (by rw [List.getElem?_append_left hplt, hp])
  · intro c hc
    rcases List.mem_iff_getElem?.mp (List.mem_append_right ks hc) with ⟨p, hp⟩
    rcases hchild p c hp with ⟨m, hm, hparent, -⟩
    exact ⟨m, hm, hparent⟩

include hcs hs hn hkeep hsafe in
/-- The loop while every child was kept. -/
theorem Collected.exists_filterFrom (h : Collected s t out) (hsplit : cs = ks ++ rs)
    (hfuel : n.length ≤ fuel) :
    ∃ newc t', filterFrom keep fuel self (cs.map .node) ks.length (rs.map .node) none ks.length t =
        some (some newc, t') ∧ (newc = none → RightBut t' ∅) ∧
      ∀ l, newc = some l → RightBut (t'.modify self fun n => { n with children := l }) ∅ := by
  induction rs generalizing ks t out with
  | nil => exact ⟨none, t, rfl, fun _ => h.rightBut hs, nofun⟩
  | cons c rs ih =>
    have hc : c ∈ cs := by
      rw [hsplit]
      exact List.mem_append_right _ List.mem_cons_self
    have hclt := hcs.lt hc
    rcases exists_object hclt with ⟨m, hm⟩
    have hlt := hcs.length_lt hs (fun _ _ => Set.notMem_empty _) hc hm
    rcases exists_copyKept (h.rightBut hs) (fun x hx => absurd hx (Set.notMem_empty x)) keep
      (fun s a => (s[a]?).bind label) ((h.old c hclt).trans hm) (Set.notMem_empty _)
      fuel (by omega) with ⟨k, t₁, hrun, hk, hkept⟩
    have hrun' : filter keep fuel c t = some (some k, t₁) := hrun
    have h₁ := h.trans hk
    rw [List.map_cons, filterFrom]
    cases k with
    | none =>
      rcases lengthAt_of_not_kept hcs hs hn hkeep hsafe hc ((Stage.refl s self).collected h)
        hkept.symm with ⟨hfree, -, hone⟩
      have hone₁ : lengthAt t₁ c = 1 := by
        rw [lengthAt_congr (h₁.old c hclt), ← lengthAt_congr (h.old c hclt)]
        exact hone
      have hfiltering := (Filtering.start hcs hs hn h₁ hfree hsplit).leftOut hone₁
      rcases hfiltering.exists_filterFrom hcs hs hn hkeep hsafe (fun d hd => by
        rw [hsplit]
        exact List.mem_append_right _ (List.mem_cons_of_mem _ hd)) hfuel (cs.map .node)
        (ks.length + 1) with ⟨l, t', hrest, hright⟩
      have htake : (cs.map NodeValue.node).take ks.length = ks.map .node := by
        rw [hsplit, List.map_append, List.take_left' (by rw [List.length_map])]
      refine ⟨some l, t', ?_, nofun, fun l' hl' => ?_⟩
      · change (filter keep fuel c >>= _) t = _
        rw [Call.bind_of_returns hrun']
        simp only [htake]
        exact hrest
      · cases hl'
        exact hright
    | some r =>
      rcases ih h₁ (show cs = ks ++ [c] ++ rs by rw [hsplit, List.append_assoc, List.singleton_append])
        with ⟨newc, t', hrest, hright⟩
      refine ⟨newc, t', ?_, hright⟩
      change (filter keep fuel c >>= _) t = _
      rw [Call.bind_of_returns hrun']
      rw [List.length_append] at hrest
      exact hrest

end Loop

/-- **`filter_inplace`** keeps all nodes right where only children without children are left out
of a node that is nobody's child. -/
theorem RightBut.exists_filterInplace (hs : RightBut s ∅) (hn : s[self]? = some n)
    (hsafe : FilterSafe s self keep) (hfuel : n.length ≤ fuel) :
    ∃ r s', filterInplace keep fuel self s = some (some r, s') ∧ RightBut s' ∅ := by
  rcases hs.right self n hn (Set.notMem_empty _) with ⟨cs, hcs⟩
  rw [filterInplace, Call.look_bind (S := NodeHeap L) (g := fun s => some (keep s self)) rfl]
  cases hkeep : keep s self with
  | false =>
    exact ⟨none, s, rfl, hs⟩
  | true =>
    rcases (Collected.nil hs).exists_filterFrom hcs hs hn hkeep hsafe
      (show cs = [] ++ cs from rfl) hfuel with ⟨newc, t, hrun, hnone, hsome⟩
    rw [if_pos rfl, load_bind hn, hcs.children]
    cases newc with
    | none =>
      refine ⟨some self, t, ?_, hnone rfl⟩
      exact Call.bind_of_returns hrun _
    | some l =>
      refine ⟨some self, _, ?_, hsome l rfl⟩
      exact Call.bind_of_returns hrun _

end NodeObject

end Carmel.Gextract
