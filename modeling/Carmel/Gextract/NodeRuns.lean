/-
# Programs with tree nodes

A program constructs nodes, puts children in and takes them out, and makes copies. The class
promises right parents, orders and lengths. They are right in every state that calls lead
to, if each finds what its shortcuts take for granted.
-/

import Carmel.Gextract.NodeFilter
import Carmel.Math.Forests
import Carmel.Math.Runs

namespace Carmel.Gextract

open Carmel.Math

variable {L : Type}

/-- A call of a method of `tree.Node`, or of its constructor. -/
inductive NodeCommand (L : Type)
  | construct (label : Option L) (children : List ℕ)
  | appendChild (self child : ℕ)
  | insertChild (self : ℕ) (i : ℤ) (child : ℕ)
  | deleteChild (self : ℕ) (i : ℤ)
  | detach (self : ℕ)
  | deleteClean (self : ℕ)
  | filter (self : ℕ) (keep : NodeHeap L → ℕ → Bool)
  | filterInplace (self : ℕ) (keep : NodeHeap L → ℕ → Bool)
  | mapSkipping (self : ℕ) (f : Option L → Option L)
  | relabel (self : ℕ) (newlabel : NodeHeap L → ℕ → Option L)

namespace NodeCommand

/-- The nodes that the call is about. -/
def nodes : NodeCommand L → List ℕ
  | .construct _ children => children
  | .appendChild self child | .insertChild self _ child => [self, child]
  | .deleteChild self _ | .detach self | .deleteClean self | .filter self _
  | .filterInplace self _ | .mapSkipping self _ | .relabel self _ => [self]

/-- The state that the call leaves, if it comes back. A walk down that gets deeper than there
are nodes goes round. -/
def call (s : NodeHeap L) : NodeCommand L → Option (NodeHeap L)
  | .construct label children => (NodeObject.construct label children s).map Prod.snd
  | .appendChild self child => (NodeObject.appendChild self child s).map Prod.snd
  | .insertChild self i child => (NodeObject.insertChild self i child s).map Prod.snd
  | .deleteChild self i => (NodeObject.deleteChild self i s).map Prod.snd
  | .detach self => (NodeObject.detach self s).map Prod.snd
  | .deleteClean self => (NodeObject.deleteClean (s.length + 1) self s).map Prod.snd
  | .filter self keep => (NodeObject.filter keep s.length self s).map Prod.snd
  | .filterInplace self keep => (NodeObject.filterInplace keep s.length self s).map Prod.snd
  | .mapSkipping self f => (NodeObject.mapSkipping f s.length self s).map Prod.snd
  | .relabel self newlabel => (NodeObject.relabel newlabel s.length self s).map Prod.snd

/-- A call about nodes that there are. -/
def step (c : NodeCommand L) (s : NodeHeap L) : Option (NodeHeap L) :=
  if ∀ a ∈ c.nodes, a < s.length then c.call s else none

/-- The call finds what it takes for granted. `append_child` puts a number in the place of the
child. -/
def Safe (s : NodeHeap L) : NodeCommand L → Prop
  | .construct _ children => children.Nodup ∧ ∀ c ∈ children, NodeObject.Free s c
  | .appendChild _ _ => False
  | .insertChild self i child => NodeObject.InsertSafe s self i child
  | .deleteChild self i => NodeObject.DeleteSafe s self i
  | .detach self => NodeObject.DetachSafe s self
  | .deleteClean self => NodeObject.CleanSafe s self
  | .filterInplace self keep => NodeObject.FilterSafe s self keep
  | .filter _ _ | .mapSkipping _ _ | .relabel _ _ => True

end NodeCommand

namespace NodeObject

variable {s : NodeHeap L} {n : NodeObject L} {a : ℕ}

/-- The nodes among the children. -/
def nodesOf (vs : List NodeValue) : List ℕ :=
  vs.filterMap fun v =>
    match v with
    | .node c => some c
    | .number _ => none

/-- The children of a node. -/
def childrenOf (s : NodeHeap L) (a : ℕ) : List ℕ := ((s[a]?).map fun n => nodesOf n.children).getD []

/-- What the class promises. -/
def Consistent (s : NodeHeap L) : Prop :=
  ∀ (a : ℕ) (n : NodeObject L), s[a]? = some n →
    (∀ (i : ℕ) v, n.children[i]? = some v → ∃ c, v = .node c ∧
      ∃ m : NodeObject L, s[c]? = some m ∧ m.parent = some a ∧ m.order = i) ∧
    n.length = (below (childrenOf s) a).ncard

theorem childrenOf_eq {cs : List ℕ} (hn : s[a]? = some n) (h : NodeRight s a n cs) :
    childrenOf s a = cs := by
  rw [childrenOf, hn, Option.map_some, Option.getD_some, nodesOf, h.children, List.filterMap_map]
  exact List.filterMap_some

theorem childrenOf_of_none (hn : s[a]? = none) : childrenOf s a = [] := by
  rw [childrenOf, hn]
  rfl

/-- The lengths count the nodes. A number without a node counts itself. -/
def sizeAt (s : NodeHeap L) (a : ℕ) : ℕ := ((s[a]?).map fun n => n.length.toNat).getD 1

theorem sizeAt_eq (hn : s[a]? = some n) : sizeAt s a = n.length.toNat := by
  rw [sizeAt, hn]
  rfl

theorem sum_sizeAt {cs : List ℕ} (h : ∀ c ∈ cs, (sizeAt s c : ℤ) = lengthAt s c) :
    ((cs.map (sizeAt s)).sum : ℤ) = (cs.map (lengthAt s)).sum := by
  induction cs with
  | nil => rfl
  | cons c cs ih =>
    have hhead := h c List.mem_cons_self
    have htail := ih fun d hd => h d (List.mem_cons_of_mem _ hd)
    rw [List.map_cons, List.map_cons, List.sum_cons, List.sum_cons]
    omega

theorem RightBut.countsNodes (hs : RightBut s ∅) : CountsNodes (childrenOf s) (sizeAt s) := by
  have hright : ∀ a (n : NodeObject L), s[a]? = some n → ∃ cs, NodeRight s a n cs := fun a n hn =>
    hs.right a n hn (Set.notMem_empty _)
  have hparent : ∀ a c, c ∈ childrenOf s a → ∃ m : NodeObject L, s[c]? = some m ∧
      m.parent = some a ∧ 0 < m.length := by
    intro a c hc
    cases hn : s[a]? with
    | none =>
      rw [childrenOf_of_none hn] at hc
      exact absurd hc List.not_mem_nil
    | some n =>
      rcases hright a n hn with ⟨cs, hcs⟩
      rw [childrenOf_eq hn hcs] at hc
      rcases List.mem_iff_getElem?.mp hc with ⟨i, hi⟩
      rcases hcs.child i c hi with ⟨m, hm, hpar, -⟩
      rcases hright c m hm with ⟨ds, hds⟩
      exact ⟨m, hm, hpar, hds.pos⟩
  refine ⟨fun a => ?_, fun a b c hc hc' => ?_, fun a => ?_⟩
  · cases hn : s[a]? with
    | none =>
      rw [sizeAt, hn, childrenOf_of_none hn]
      rfl
    | some n =>
      rcases hright a n hn with ⟨cs, hcs⟩
      have hsum : (((childrenOf s a).map (sizeAt s)).sum : ℤ) = (cs.map (lengthAt s)).sum := by
        rw [childrenOf_eq hn hcs]
        apply sum_sizeAt
        intro c hc
        rcases hparent a c (childrenOf_eq hn hcs ▸ hc) with ⟨m, hm, -, hpos⟩
        rw [sizeAt_eq hm, lengthAt_eq hm]
        exact Int.toNat_of_nonneg (Int.le_of_lt hpos)
      have hlength := hcs.length
      have hpos := hcs.pos
      rw [sizeAt_eq hn]
      omega
  · rcases hparent a c hc with ⟨m, hm, hpar, -⟩
    rcases hparent b c hc' with ⟨m', hm', hpar', -⟩
    rw [hm] at hm'
    cases hm'
    exact Option.some.inj (hpar.symm.trans hpar')
  · cases hn : s[a]? with
    | none =>
      rw [childrenOf_of_none hn]
      exact List.nodup_nil
    | some n =>
      rcases hright a n hn with ⟨cs, hcs⟩
      rw [childrenOf_eq hn hcs]
      exact hcs.nodup

theorem RightBut.consistent (hs : RightBut s ∅) : Consistent s := by
  intro a n hn
  rcases hs.right a n hn (Set.notMem_empty _) with ⟨cs, hcs⟩
  constructor
  · intro i v hv
    rw [hcs.children, List.getElem?_map] at hv
    rcases Option.map_eq_some_iff.mp hv with ⟨c, hc, rfl⟩
    exact ⟨c, rfl, hcs.child i c hc⟩
  · rw [(hs.countsNodes.ncard_below a).2, sizeAt_eq hn]
    exact (Int.toNat_of_nonneg (Int.le_of_lt hcs.pos)).symm

/-- A tree has no more nodes than there are. -/
theorem RightBut.length_le (hs : RightBut s ∅) (hn : s[a]? = some n) : n.length ≤ s.length := by
  have hsub : below (childrenOf s) a ⊆ (Finset.range s.length : Set ℕ) := by
    intro b hb
    rw [Finset.mem_coe, Finset.mem_range]
    induction hb with
    | refl => exact (List.getElem?_eq_some_iff.mp hn).1
    | @tail b c _ hc _ =>
      cases hm : s[b]? with
      | none =>
        rw [childrenOf_of_none hm] at hc
        exact absurd hc List.not_mem_nil
      | some m =>
        rcases hs.right b m hm (Set.notMem_empty _) with ⟨cs, hcs⟩
        rw [childrenOf_eq hm hcs] at hc
        exact hcs.lt hc
  have hcard := Set.ncard_le_ncard hsub (Finset.finite_toSet _)
  rw [Set.ncard_coe_finset, Finset.card_range] at hcard
  rw [(hs.consistent a n hn).2]
  exact Int.ofNat_le.mpr hcard

/-- **One call** that finds what it takes for granted comes back and leaves right nodes. -/
theorem RightBut.exists_step (hs : RightBut s ∅) {c : NodeCommand L}
    (hnodes : ∀ a ∈ c.nodes, a < s.length) (hsafe : c.Safe s) :
    ∃ s', c.step s = some s' ∧ RightBut s' ∅ := by
  rw [NodeCommand.step, if_pos hnodes]
  cases c with
  | construct l children =>
    rcases exists_construct l hsafe.1 hnodes with ⟨s', hrun, hupdated⟩
    refine ⟨s', by rw [NodeCommand.call, hrun, Option.map_some], ?_⟩
    exact hupdated.rightBut_construct hs (fun _ _ => Set.notMem_empty _) hnodes hsafe.2
  | appendChild self child => exact hsafe.elim
  | insertChild self i child =>
    rcases hs.exists_insertChild (hnodes self List.mem_cons_self)
      (hnodes child (List.mem_cons_of_mem _ List.mem_cons_self)) hsafe with ⟨s', hrun, hright⟩
    exact ⟨s', by rw [NodeCommand.call, hrun, Option.map_some], hright⟩
  | deleteChild self i =>
    rcases exists_object (hnodes self List.mem_cons_self) with ⟨n, hn⟩
    rcases hs.exists_deleteChild hn hsafe with ⟨r, s', hrun, hright, -⟩
    exact ⟨s', by rw [NodeCommand.call, hrun, Option.map_some], hright⟩
  | detach self =>
    rcases hs.exists_detach (hnodes self List.mem_cons_self) hsafe with ⟨r, s', hrun, hright⟩
    exact ⟨s', by rw [NodeCommand.call, hrun, Option.map_some], hright⟩
  | deleteClean self =>
    have hlt := hnodes self List.mem_cons_self
    rcases hs.exists_deleteClean hlt hsafe (s.length - 1) with ⟨r, s', hrun, hright⟩
    have hfuel : s.length - 1 + 2 = s.length + 1 := by omega
    rw [hfuel] at hrun
    exact ⟨s', by rw [NodeCommand.call, hrun, Option.map_some], hright⟩
  | filter self keep =>
    rcases exists_object (hnodes self List.mem_cons_self) with ⟨n, hn⟩
    rcases exists_copyKept hs (fun x hx => absurd hx (Set.notMem_empty x)) keep
      (fun s a => (s[a]?).bind label) hn (Set.notMem_empty _) _ (hs.length_le hn) with
      ⟨k, s', hrun, hk, -⟩
    exact ⟨s', by rw [NodeCommand.call, filter, hrun, Option.map_some], hk.rightBut hs⟩
  | filterInplace self keep =>
    rcases exists_object (hnodes self List.mem_cons_self) with ⟨n, hn⟩
    rcases hs.exists_filterInplace hn hsafe (hs.length_le hn) with ⟨r, s', hrun, hright⟩
    exact ⟨s', by rw [NodeCommand.call, hrun, Option.map_some], hright⟩
  | mapSkipping self f =>
    rcases exists_object (hnodes self List.mem_cons_self) with ⟨n, hn⟩
    rcases exists_mapSkipping hs (fun x hx => absurd hx (Set.notMem_empty x)) f hn
      (Set.notMem_empty _) (hs.length_le hn) with ⟨r, s', hrun, hr⟩
    exact ⟨s', by rw [NodeCommand.call, hrun, Option.map_some], hr.rightBut hs⟩
  | relabel self newlabel =>
    rcases exists_object (hnodes self List.mem_cons_self) with ⟨n, hn⟩
    rcases exists_copyKept hs (fun x hx => absurd hx (Set.notMem_empty x)) (fun _ _ => true)
      newlabel hn (Set.notMem_empty _) _ (hs.length_le hn) with ⟨k, s', hrun, hk, -⟩
    exact ⟨s', by rw [NodeCommand.call, relabel, hrun, Option.map_some], hk.rightBut hs⟩

theorem rightBut_nil : RightBut ([] : NodeHeap L) ∅ :=
  ⟨fun _ _ hn => absurd hn nofun, fun _ _ hn => absurd hn nofun⟩

/-- In every state that safe calls lead to, the nodes are right. -/
theorem rightBut_of_runs (run : Runs NodeCommand.step (fun c s => c.Safe s) ([] : NodeHeap L) s) :
    RightBut s ∅ := by
  apply run.invariant rightBut_nil
  intro c t u ht hsafe hstep
  have hnodes : ∀ a ∈ c.nodes, a < t.length := by
    by_contra hnot
    rw [NodeCommand.step, if_neg hnot] at hstep
    cases hstep
  rcases ht.exists_step hnodes hsafe with ⟨s', hs', hright⟩
  rw [hstep] at hs'
  cases hs'
  exact hright

/-- **Programs with tree nodes**: in every state that safe calls lead to, every node is the
parent of its children and its length is the number of its nodes, and a safe call about nodes
that there are comes back. -/
theorem consistent_of_runs
    (run : Runs NodeCommand.step (fun c s => c.Safe s) ([] : NodeHeap L) s) :
    Consistent s ∧ ∀ c : NodeCommand L, c.Safe s → (∀ a ∈ c.nodes, a < s.length) →
      ∃ s', c.step s = some s' := by
  have hright := rightBut_of_runs run
  refine ⟨hright.consistent, fun c hsafe hnodes => ?_⟩
  rcases hright.exists_step hnodes hsafe with ⟨s', hs', -⟩
  exact ⟨s', hs'⟩

theorem free_iff : Free s a ↔ ∀ n ∈ s, .node a ∉ n.children := by
  constructor
  · intro h n hn
    rcases List.mem_iff_getElem?.mp hn with ⟨b, hb⟩
    exact h b n hb
  · intro h b n hn
    exact h n (List.mem_of_getElem? hn)

/-- Three nodes: a root with two children, the second of which was put in last. -/
def grownTree : NodeHeap ℕ :=
  [⟨some 1, [], some 1, 0, 1⟩, ⟨some 2, [.node 0, .node 2], none, 0, 3⟩, ⟨some 3, [], some 1, 1, 1⟩]

theorem consistent_grownTree : Consistent grownTree ∧ ∀ c : NodeCommand ℕ, c.Safe grownTree →
    (∀ a ∈ c.nodes, a < grownTree.length) → ∃ s', c.step grownTree = some s' := by
  apply consistent_of_runs
  have hleaf : Runs NodeCommand.step (fun c s => c.Safe s) ([] : NodeHeap ℕ) _ :=
    Runs.start.step (.construct (some 1) []) ⟨List.nodup_nil, nofun⟩ rfl
  have hroot := hleaf.step (.construct (some 2) [0])
    ⟨List.nodup_singleton 0, by simp only [free_iff]; decide⟩ rfl
  have hother := hroot.step (.construct (some 3) []) ⟨List.nodup_nil, nofun⟩ rfl
  refine hother.step (.insertChild 1 1 2) ⟨free_iff.mpr (by decide), free_iff.mpr (by decide),
    by decide, fun n hn => ?_⟩ rfl
  cases hn
  exact ⟨by decide, by decide, .inl (by decide)⟩

/-- `append_child` leaves a number among the children. -/
theorem not_consistent_appended :
    ¬ ∀ s, Runs NodeCommand.step (fun _ _ => True) ([] : NodeHeap ℕ) s → Consistent s := by
  intro h
  have hfirst : Runs NodeCommand.step (fun _ _ => True) ([] : NodeHeap ℕ) _ :=
    Runs.start.step (.construct (some 1) []) trivial rfl
  have hsecond := hfirst.step (.construct (some 2) []) trivial rfl
  have hthird := hsecond.step (.appendChild 0 1) trivial rfl
  rcases (h _ hthird 0 _ rfl).1 0 _ rfl with ⟨c, hc, -⟩
  cases hc

end NodeObject

end Carmel.Gextract
