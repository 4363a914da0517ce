/-
# Copies of trees

`filter`, `relabel` and `map_skipping` leave the nodes that were there and construct new
ones, each of which has only new nodes as its children. What they construct is right if
what they copy is, and they come back if the walk down may be as deep as the tree is large.
-/

import Carmel.Gextract.NodeObjects

namespace Carmel.Gextract

open Carmel.Math

namespace NodeObject

variable {L : Type} {s s' t t' : NodeHeap L} {n m : NodeObject L} {a b c : ℕ} {cs out outs : List ℕ}
variable {X : Set ℕ}

/-- New nodes have come, all right, and `out` are nobody's children. -/
structure Collected (s s' : NodeHeap L) (out : List ℕ) : Prop where
  le : s.length ≤ s'.length
  old : ∀ b < s.length, s'[b]? = s[b]?
  right : RightBut s' {b | b < s.length}
  fresh : ∀ (b : ℕ) (n : NodeObject L), s'[b]? = some n → s.length ≤ b →
    ∀ c, .node c ∈ n.children → s.length ≤ c
  nodup : out.Nodup
  new : ∀ r ∈ out, s.length ≤ r ∧ r < s'.length ∧ Free s' r

theorem Collected.nil (hs : RightBut s X) : Collected s s [] where
  le := Nat.le_refl _
  old := fun _ _ => rfl
  right := by
    refine ⟨fun b n hn hb => ?_, hs.closed⟩
    exact absurd (List.getElem?_eq_some_iff.mp hn).1 hb
  fresh := by
    intro b n hn hb
    exact absurd (List.getElem?_eq_some_iff.mp hn).1 (Nat.not_lt.mpr hb)
  nodup := List.nodup_nil
  new := fun _ h => absurd h List.not_mem_nil

/-- What was right stays right. -/
theorem Collected.rightBut (h : Collected s s' out) (hs : RightBut s X) : RightBut s' X := by
  refine ⟨fun b n hn hb => ?_, h.right.closed⟩
  by_cases hlt : b < s.length
  · rw [h.old b hlt] at hn
    rcases hs.right b n hn hb with ⟨cs, hcs⟩
    refine ⟨cs, hcs.congr rfl rfl fun c hc k hk => ⟨k, ?_, rfl, rfl, rfl⟩⟩
    rw [h.old c (hcs.lt hc), hk]
  · exact h.right.right b n hn hlt

theorem Collected.free_of_lt (h : Collected s s' out) (hb : b < s.length) (hfree : Free s b) :
    Free s' b := by
  intro d n hn hmem
  by_cases hlt : d < s.length
  · rw [h.old d hlt] at hn
    exact hfree d n hn hmem
  · exact absurd (h.fresh d n hn (Nat.not_lt.mp hlt) b hmem) (Nat.not_le.mpr hb)

theorem Collected.trans {s₁ s₂ : NodeHeap L} (h : Collected s s₁ out) (h' : Collected s₁ s₂ outs) :
    Collected s s₂ (out ++ outs) where
  le := Nat.le_trans h.le h'.le
  old := fun b hb => (h'.old b (Nat.lt_of_lt_of_le hb h.le)).trans (h.old b hb)
  right := h'.rightBut h.right
  fresh := by
    intro b n hn hb c hc
    by_cases hlt : b < s₁.length
    · rw [h'.old b hlt] at hn
      exact h.fresh b n hn hb c hc
    · exact Nat.le_trans h.le (h'.fresh b n hn (Nat.not_lt.mp hlt) c hc)
  nodup := by
    rw [List.nodup_append]
    refine ⟨h.nodup, h'.nodup, ?_⟩
    intro x hx y hy heq
    have hlt := (h.new x hx).2.1
    have hle := (h'.new y hy).1
    omega
  new := by
    intro r hr
    rcases List.mem_append.mp hr with hr | hr
    · rcases h.new r hr with ⟨hle, hlt, hfree⟩
      exact ⟨hle, Nat.lt_of_lt_of_le hlt h'.le, h'.free_of_lt hlt hfree⟩
    · rcases h'.new r hr with ⟨hle, hlt, hfree⟩
      exact ⟨Nat.le_trans h.le hle, hlt, hfree⟩

theorem Collected.subset (h : Collected s s' out) (hnodup : outs.Nodup) (hsub : outs ⊆ out) :
    Collected s s' outs :=
  ⟨h.le, h.old, h.right, h.fresh, hnodup, fun r hr => h.new r (hsub hr)⟩

/-- A new node without children. -/
theorem RightBut.collected_leaf (hs : RightBut s X) (l : Option L) :
    Collected s (s ++ [⟨l, [], none, 0, 1⟩]) [s.length] := by
  have hnew : ∀ (b : ℕ) (n : NodeObject L), (s ++ [⟨l, [], none, 0, 1⟩])[b]? = some n →
      s.length ≤ b → b = s.length ∧ n = ⟨l, [], none, 0, 1⟩ := by
    intro b n hn hb
    have hlt := (List.getElem?_eq_some_iff.mp hn).1
    rw [List.length_append, List.length_singleton] at hlt
    have heq : b = s.length := by omega
    rw [heq, List.getElem?_concat_length] at hn
    cases hn
    exact ⟨heq, rfl⟩
  have happend := hs.append (n := ⟨l, [], none, 0, 1⟩) fun _ hc => absurd hc List.not_mem_nil
  refine ⟨?_, ?_, ⟨?_, happend.closed⟩, ?_, List.nodup_singleton _, ?_⟩
  · rw [List.length_append]
    exact Nat.le_add_right _ _
  · intro b hb
    exact List.getElem?_append_left hb
  · intro b n hn hb
    rcases hnew b n hn (Nat.not_lt.mp hb) with ⟨-, rfl⟩
    refine ⟨[], rfl, ?_, rfl, Int.one_pos⟩
    intro i c hc
    simp at hc
  · intro b n hn hb c hc
    rcases hnew b n hn hb with ⟨-, rfl⟩
    exact absurd hc List.not_mem_nil
  · intro r hr
    rw [List.mem_singleton] at hr
    subst hr
    refine ⟨Nat.le_refl _, ?_, ?_⟩
    · rw [List.length_append]
      exact Nat.lt_succ_self _
    · intro b n hn hmem
      by_cases hb : b < s.length
      · rw [List.getElem?_append_left hb] at hn
        exact absurd (hs.closed b n hn _ hmem) (Nat.lt_irrefl _)
      · rcases hnew b n hn (Nat.not_lt.mp hb) with ⟨-, rfl⟩
        exact absurd hmem List.not_mem_nil

/-- A new node is given new nodes as its children. -/
theorem Collected.updated {s₁ s₂ s₃ : NodeHeap L} (h : Collected s s₁ (a :: out))
    (hsize : s₂.length = s₁.length) (hother : ∀ b, b ≠ a → s₂[b]? = s₁[b]?)
    (hn : s₂[a]? = some n) (hchildren : n.children = out.map .node) (h' : Updated a out s₂ s₃) :
    Collected s s₃ [a] := by
  rcases List.nodup_cons.mp h.nodup with ⟨hnotin, hnodup⟩
  rcases h.new a List.mem_cons_self with ⟨hle, hlt, hfree⟩
  have hrearranged : Rearranged a out s₁ s₃ := by
    have hre := h'.rearranged
    refine ⟨hre.size.trans hsize, ?_, ?_⟩
    · intro b hb hne m' hm'
      rcases hre.moved b hb hne m' hm' with ⟨m, hm, hsame⟩
      exact ⟨m, (hother b hne).symm.trans hm, hsame⟩
    · intro b hb hnot
      rw [hre.other b hb hnot, hother b hb]
  have hright : RightBut s₃ {b | b < s.length} := by
    apply hrearranged.rightBut (h.right.mono (Set.subset_insert _ _))
    · intro b k hk _ c hc
      exact (h.new c hc).2.2 b k hk
    · intro k hk
      rw [h'.top _ hn] at hk
      cases hk
      refine ⟨out, h'.nodeRight hchildren fun c hc => ?_⟩
      rcases h.new c (List.mem_cons_of_mem _ hc) with ⟨hcle, hclt, -⟩
      rcases exists_object hclt with ⟨m, hm⟩
      rcases h.right.right c m hm (Nat.not_lt.mpr hcle) with ⟨ds, hds⟩
      have hca : c ≠ a := fun heq => hnotin (heq ▸ hc)
      exact ⟨m, (hother c hca).trans hm, hds.pos⟩
  have hmem : ∀ k : NodeObject L, s₃[a]? = some k → ∀ c, .node c ∈ k.children ↔ c ∈ out := by
    intro k hk c
    rw [h'.top _ hn] at hk
    cases hk
    exact mem_children_iff hchildren
  refine ⟨?_, ?_, hright, ?_, List.nodup_singleton a, ?_⟩
  · rw [hrearranged.size]
    exact h.le
  · intro b hb
    have hba : b ≠ a := fun heq => absurd hle (by omega)
    have hbout : b ∉ out := fun hin => by
      have hge := (h.new b (List.mem_cons_of_mem _ hin)).1
      omega
    rw [hrearranged.other b hba hbout, h.old b hb]
  · intro b k hk hb c hc
    by_cases hba : b = a
    · subst hba
      exact (h.new c (List.mem_cons_of_mem _ ((hmem k hk c).mp hc))).1
    · rcases hrearranged.exists_object hba hk with ⟨m, hm, heq, -⟩
      exact h.fresh b m hm hb c (heq ▸ hc)
  · intro r hr
    rw [List.mem_singleton] at hr
    subst hr
    refine ⟨hle, hrearranged.size ▸ hlt, hrearranged.free ?_ hfree⟩
    intro k hk hin
    exact hnotin ((hmem k hk r).mp hin)

theorem Collected.exists_construct {s₁ : NodeHeap L} (h : Collected s s₁ out) (l : Option L) :
    ∃ r s₂, construct l out s₁ = some (some r, s₂) ∧ Collected s s₂ [r] ∧
      ∃ n : NodeObject L, s₂[r]? = some n ∧ n.children = out.map .node := by
  rcases NodeObject.exists_construct l h.nodup fun c hc => (h.new c hc).2.1 with
    ⟨s₂, hrun, hupdated⟩
  have hnotin : s₁.length ∉ out := fun hin => Nat.lt_irrefl _ (h.new _ hin).2.1
  have hleaf : Collected s _ (s₁.length :: out) := (h.trans (h.right.collected_leaf l)).subset
    (List.nodup_cons.mpr ⟨hnotin, h.nodup⟩) fun c hc => by
      rw [List.mem_append, List.mem_singleton]
      exact (List.mem_cons.mp hc).symm
  refine ⟨s₁.length, s₂, hrun, hleaf.updated ?_ ?_ List.getElem?_concat_length rfl hupdated, _,
    hupdated.top _ List.getElem?_concat_length, rfl⟩
  · rw [List.length_append, List.length_append]
    rfl
  · intro b hb
    by_cases hlt : b < s₁.length
    · rw [List.getElem?_append_left hlt, List.getElem?_append_left hlt]
    · rw [List.getElem?_eq_none, List.getElem?_eq_none] <;>
        rw [List.length_append, List.length_singleton] <;> omega

/-- What is collected for the children in turn. -/
theorem Collected.exists_collect {f : ℕ → Call (NodeHeap L) (List ℕ)} (h : Collected s t out)
    (cs : List ℕ)
    (hf : ∀ c ∈ cs, ∀ t out, Collected s t out →
      ∃ more t', f c t = some (some more, t') ∧ Collected t t' more) :
    ∃ outs t', collect f (cs.map .node) t = some (some outs, t') ∧ Collected t t' outs := by
  induction cs generalizing t out with
  | nil => exact ⟨[], t, rfl, .nil h.right⟩
  | cons c cs ih =>
    rcases hf c List.mem_cons_self t out h with ⟨more, t₁, hrun, hmore⟩
    rcases ih (h.trans hmore) fun c hc => hf c (List.mem_cons_of_mem _ hc) with
      ⟨outs, t', hruns, houts⟩
    refine ⟨more ++ outs, t', ?_, hmore.trans houts⟩
    change (f c >>= fun out => collect f (cs.map .node) >>= fun outs => pure (out ++ outs)) t = _
    rw [Call.bind_of_returns hrun, Call.bind_of_returns hruns]
    rfl

/-- A child is not as long as its parent. -/
theorem NodeRight.length_lt (h : NodeRight s a n cs) (hs : RightBut s X) (hcs : ∀ c ∈ cs, c ∉ X)
    (hc : c ∈ cs) (hm : s[c]? = some m) : m.length < n.length := by
  have hle : lengthAt s c ≤ (cs.map (lengthAt s)).sum := by
    apply List.single_le_sum
    · intro x hx
      rcases List.mem_map.mp hx with ⟨d, hd, rfl⟩
      rcases exists_object (h.lt hd) with ⟨k, hk⟩
      rcases hs.right d k hk (hcs d hd) with ⟨ds, hds⟩
      rw [lengthAt_eq hk]
      exact Int.le_of_lt hds.pos
    · exact List.mem_map_of_mem hc
  rw [lengthAt_eq hm] at hle
  rw [h.length]
  omega

section Walks

variable (hs : RightBut s X) (hX : ∀ x ∈ X, x < s.length ∧ Free s x)

include hX in
/-- A node that is not right is not among the children of one that is. -/
theorem NodeRight.notMem (h : NodeRight s a n cs) (hn : s[a]? = some n) (hc : c ∈ cs) : c ∉ X :=
  fun hin => (hX c hin).2 a n hn ((mem_children_iff h.children).mpr hc)

include hX in
theorem Collected.kept (h : Collected s t out) (x : ℕ) (hx : x ∈ X) : x < t.length ∧ Free t x := by
  rcases hX x hx with ⟨hlt, hfree⟩
  exact ⟨Nat.lt_of_lt_of_le hlt h.le, h.free_of_lt hlt hfree⟩

include hs hX in
/-- **Copies**: where the walk down may be as deep as the tree is large, it comes back, with
a right copy if the root is kept. -/
theorem exists_copyKept (keep : NodeHeap L → ℕ → Bool) (label : NodeHeap L → ℕ → Option L)
    (hn : s[a]? = some n) (ha : a ∉ X) (fuel : ℕ) (hfuel : n.length ≤ fuel) :
    ∃ k s', copyKept keep label fuel a s = some (some k, s') ∧ Collected s s' k.toList ∧
      k.isSome = keep s a := by
  induction fuel generalizing s a n with
  | zero =>
    rcases hs.right a n hn ha with ⟨cs, hcs⟩
    have hpos := hcs.pos
    omega
  | succ fuel ih =>
    rcases hs.right a n hn ha with ⟨cs, hcs⟩
    cases hkeep : keep s a with
    | false =>
      refine ⟨none, s, ?_, .nil hs, rfl⟩
      rw [copyKept, Call.look_bind (S := NodeHeap L) (g := fun s => some (keep s a)) rfl, hkeep]
      rfl
    | true =>
      rcases (Collected.nil hs).exists_collect (f := fun c => do
          let k ← copyKept keep label fuel c
          pure k.toList) cs (fun c hc t out ht => by
        rcases exists_object (hcs.lt hc) with ⟨m, hm⟩
        have hlt := hcs.length_lt hs (fun d hd => hcs.notMem hX hn hd) hc hm
        rcases ih (ht.rightBut hs) (fun x hx => ht.kept hX x hx)
          ((ht.old c (hcs.lt hc)).trans hm) (hcs.notMem hX hn hc) (by omega) with
          ⟨k, t', hrun, hk, -⟩
        refine ⟨k.toList, t', ?_, hk⟩
        rw [Call.bind_of_returns hrun]
        rfl) with ⟨outs, t, hcollect, houts⟩
      rcases houts.exists_construct (label s a) with ⟨r, s', hconstruct, hr, -⟩
      refine ⟨some r, s', ?_, hr, rfl⟩
      rw [copyKept, Call.look_bind (S := NodeHeap L) (g := fun s => some (keep s a)) rfl, hkeep,
        if_pos rfl, Call.look_bind (S := NodeHeap L) (g := fun s => some (label s a)) rfl,
        load_bind hn, hcs.children, Call.bind_of_returns hcollect,
        Call.bind_of_returns hconstruct]
      rfl

omit hs hX in
/-- The node that `map_skipping_node` makes of what is appended for the children. -/
theorem RightBut.exists_mapSkippingNodeWith (hs : RightBut s X)
    {appended : ℕ → Call (NodeHeap L) (List ℕ)} (l : Option L)
    (happended : ∀ t out, Collected s t out →
      ∃ more t', appended a t = some (some more, t') ∧ Collected t t' more) :
    ∃ r s', mapSkippingNodeWith appended l a s = some (some r, s') ∧ Collected s s' [r] := by
  rcases (Collected.nil hs).exists_construct l with ⟨r, s₁, hnode, hr, n, hn, hchildren⟩
  rcases happended s₁ [r] hr with ⟨outlist, s₂, hrun, hout⟩
  have hall : Collected s s₂ (r :: outlist) := hr.trans hout
  have hn₂ : s₂[r]? = some n := (hout.old r (hr.new r List.mem_cons_self).2.1).trans hn
  let s₃ := s₂.modify r fun m : NodeObject L =>
    { m with children := m.children ++ outlist.map .node }
  have hn₃ : s₃[r]? = some { n with children := n.children ++ outlist.map .node } :=
    getElem?_modify_self hn₂ _
  have hlist : n.children ++ outlist.map .node = outlist.map .node := by
    rw [hchildren, List.map_nil, List.nil_append]
  rcases List.nodup_cons.mp hall.nodup with ⟨hnotin, hnodup⟩
  have hsize : s₃.length = s₂.length := List.length_modify ..
  rcases exists_updateChildren hn₃ hlist hnodup hnotin (fun c hc => by
    rw [hsize]
    exact (hall.new c (List.mem_cons_of_mem _ hc)).2.1) with ⟨s₄, hupdate, hupdated⟩
  refine ⟨r, s₄, ?_, hall.updated hsize (fun b hb => getElem?_modify_of_ne hb _) hn₃ hlist hupdated⟩
  rw [mapSkippingNodeWith, Call.bind_of_returns hnode, Call.bind_of_returns hrun, update_bind,
    Call.bind_of_returns hupdate]
  rfl

include hs hX in
/-- **`map_skipping_children`** comes back, with right trees. -/
theorem exists_mapSkippingChildren (f : Option L → Option L) (hn : s[a]? = some n) (ha : a ∉ X)
    {fuel : ℕ} (hfuel : n.length ≤ fuel) :
    ∃ out s', mapSkippingChildren f fuel a s = some (some out, s') ∧ Collected s s' out := by
  induction fuel generalizing s a n with
  | zero =>
    rcases hs.right a n hn ha with ⟨cs, hcs⟩
    have hpos := hcs.pos
    omega
  | succ fuel ih =>
    rcases hs.right a n hn ha with ⟨cs, hcs⟩
    rw [mapSkippingChildren, load_bind hn, hcs.children]
    apply (Collected.nil hs).exists_collect
    intro c hc t out ht
    have hclt := hcs.lt hc
    rcases exists_object hclt with ⟨m, hm⟩
    have hlt := hcs.length_lt hs (fun d hd => hcs.notMem hX hn hd) hc hm
    -- nothing that comes in between changes the child
    have hwalk : ∀ u outs, Collected t u outs →
        ∃ more u', mapSkippingChildren f fuel c u = some (some more, u') ∧ Collected u u' more := by
      intro u outs hu
      have hsu := ht.trans hu
      exact ih (hsu.rightBut hs) (fun x hx => hsu.kept hX x hx) ((hsu.old c hclt).trans hm)
        (hcs.notMem hX hn hc) (by omega)
    rw [load_bind ((ht.old c hclt).trans hm)]
    cases f m.label with
    | none => exact hwalk t [] (.nil ht.right)
    | some l =>
      rcases RightBut.exists_mapSkippingNodeWith ht.right (some l) hwalk with
        ⟨r, t', hrun, hr⟩
      refine ⟨[r], t', ?_, hr⟩
      simp only
      rw [Call.bind_of_returns hrun]
      rfl

include hs hX in
/-- **`map_skipping`** comes back, with a right tree. -/
theorem exists_mapSkipping (f : Option L → Option L) (hn : s[a]? = some n) (ha : a ∉ X)
    {fuel : ℕ} (hfuel : n.length ≤ fuel) :
    ∃ r s', mapSkipping f fuel a s = some (some r, s') ∧ Collected s s' [r] := by
  rw [mapSkipping, load_bind hn]
  apply hs.exists_mapSkippingNodeWith
  intro t out ht
  have hlt := (List.getElem?_eq_some_iff.mp hn).1
  exact exists_mapSkippingChildren (ht.rightBut hs) (fun x hx => ht.kept hX x hx) f
    ((ht.old a hlt).trans hn) ha hfuel

end Walks

end NodeObject

end Carmel.Gextract
