/-
# What a round of the best tree search keeps

The vertices with a cost are queued or reached, and those reached cost no more than those
queued. An edge waits for its unreached tails, and one more while the vertex popped last has
not been told to it; an edge with all tails reached has been tried for its head.
-/

import Carmel.Hypergraph.BestTree

namespace Carmel

open Math DAryHeap

universe u v w

namespace BestTree

variable {V : Type u} {E : Type v} {K : Type w} [DecidableEq V] [DecidableEq E]
variable [LinearOrder K] [AddCommMonoid K]

/-- The tails that an edge waits for. -/
def unreached (g : Hypergraph V E K) (b : BestTree V E K) (e : E) : ℕ :=
  ((g.tails e).toFinset.filter fun t => ¬ b.Reached t).card

/-- What holds with the edges in `pending` still to be told of the vertex popped
last, when the vertices in `Q` are queued and the search began at `start`. -/
structure Settling (g : Hypergraph V E K) (axioms : V → K → Prop) (start : BestTree V E K)
    (pending : List E) (Q : Set V) (b : BestTree V E K) : Prop where
  holds : Holds b.heap.toIndexedHeap b.heap.size Q
  order : b.heap.InOrder (parent optimalHeapArity) b.mu b.heap.size
  finite : ∀ v, b.mu v ≠ ⊤ ↔ v ∈ Q ∨ b.Reached v
  apart : ∀ v ∈ Q, ¬ b.Reached v
  settled : ∀ r, b.Reached r → ∀ q ∈ Q, b.mu r ≤ b.mu q
  remain : ∀ e ∈ g.edges, ¬ b.Reached (g.target e) →
    b.remain e = b.unreached g e + if e ∈ pending then 1 else 0
  fired : ∀ e ∈ g.edges, e ∉ pending → g.tails e ≠ [] → (∀ t ∈ g.tails e, b.Reached t) →
    b.mu (g.target e) ≤ recomputeCost g b.mu e
  given : ∀ v c, axioms v c → b.mu v ≤ c
  derived : ∀ v, b.mu v ≠ ⊤ → ∃ c : K, b.mu v = c ∧ Derives g axioms v c
  le_start : ∀ v, b.mu v ≤ start.mu v
  origin : ∀ v, b.mu v ≠ ⊤ → (b.mu v = start.mu v ∧ b.pi v = start.pi v) ∨
    (b.mu v < start.mu v ∧ ∃ e ∈ g.edges, g.target e = v ∧ b.pi v = some e ∧
      (∀ t ∈ g.tails e, b.Reached t) ∧ b.mu v = recomputeCost g b.mu e)

/-- The vertex popped last is the dearest one reached. -/
structure Latest (b : BestTree V E K) (v : V) : Prop where
  reached : b.Reached v
  le : ∀ r, b.Reached r → b.mu r ≤ b.mu v

variable {g : Hypergraph V E K} {axioms : V → K → Prop} {start b : BestTree V E K}
  {pending : List E} {Q : Set V} {e : E} {v : V}

section Pop

variable [Fintype V]

/-- Only the vertex popped becomes a reached one. -/
theorem reached_markReached_pop (h : Settling g axioms start pending Q b)
    (hpos : 0 < b.heap.size) (hcard : Fintype.card V < nullIndex) (v : V) :
    (markReached b.heap.top (pop b)).Reached v ↔ v = b.heap.top ∨ b.Reached v := by
  have hsize : b.heap.size ≤ nullIndex := by
    have := h.holds.le_card
    omega
  unfold Reached markReached
  by_cases hv : v = b.heap.top
  · subst hv
    simp
  · have hloc : Function.update (pop b).heap.loc b.heap.top nullIndex v = (pop b).heap.loc v :=
      Function.update_of_ne hv ..
    simp only [hloc, hv, false_or]
    have hwritten : Relocated b.heap.size Q b.heap.toIndexedHeap
        (DAryHeap.pop optimalHeapArity b.mu b.heap).toIndexedHeap :=
      relocated_pop (by decide) hpos fun i hi => h.holds.elem_mem hi
    rcases hwritten v with heq | ⟨hmem, hlt⟩
    · rw [show (pop b).heap.loc v = b.heap.loc v from heq]
    · have hnot : ¬ b.Reached v := h.apart v hmem
      refine iff_of_false ?_ hnot
      show ¬ (DAryHeap.pop optimalHeapArity b.mu b.heap).loc v = nullIndex
      omega

theorem Settling.pop (h : Settling g axioms start [] Q b) (hpos : 0 < b.heap.size)
    (hcard : Fintype.card V < nullIndex) :
    Settling g axioms start (g.edges.filter fun e => b.heap.top ∈ g.tails e) (Q \ {b.heap.top})
        (markReached b.heap.top (BestTree.pop b)) ∧
      Latest (markReached b.heap.top (BestTree.pop b)) b.heap.top := by
  have hreached := reached_markReached_pop h hpos hcard
  obtain ⟨hholds, horder⟩ := pop_holds (by decide) hpos h.holds h.order
  generalize hb' : markReached b.heap.top (BestTree.pop b) = b' at hreached
  have hmu : b'.mu = b.mu := by rw [← hb']; rfl
  have hpi : b'.pi = b.pi := by rw [← hb']; rfl
  have hremain : b'.remain = b.remain := by rw [← hb']; rfl
  have htop : b.heap.top ∈ Q := h.holds.elem_mem hpos
  have hfresh : ¬ b.Reached b.heap.top := h.apart _ htop
  have hleast : ∀ q ∈ Q, b.mu b.heap.top ≤ b.mu q := by
    intro q hq
    obtain ⟨i, hi, rfl⟩ := h.holds.mem_iff.mp hq
    exact h.order.root_le (fun i hi => parent_lt hi) hi
  refine ⟨?_, ?_⟩
  · constructor
    case holds =>
      rw [← hb']
      exact hholds.congr rfl
    case order =>
      rw [← hb']
      exact inOrder_elem_congr horder rfl
    case finite =>
      intro v
      rw [hmu, h.finite v, hreached v]
      by_cases hv : v = b.heap.top
      · subst hv
        exact iff_of_true (Or.inl htop) (Or.inr (Or.inl rfl))
      · simp [hv]
    case apart =>
      intro v ⟨hv, hne⟩ hr
      rcases (hreached v).mp hr with heq | hr
      · exact hne heq
      · exact h.apart v hv hr
    case settled =>
      intro r hr q ⟨hq, _⟩
      rw [hmu]
      rcases (hreached r).mp hr with rfl | hr
      · exact hleast q hq
      · exact h.settled r hr q hq
    case remain =>
      intro e he hhead
      have hhead' : ¬ b.Reached (g.target e) := fun hr => hhead ((hreached _).mpr (Or.inr hr))
      rw [hremain, h.remain e he hhead', if_neg (List.not_mem_nil), Nat.add_zero]
      have hwait : (g.tails e).toFinset.filter (fun t => ¬ b'.Reached t) =
          ((g.tails e).toFinset.filter fun t => ¬ b.Reached t).erase b.heap.top := by
        ext t
        rw [Finset.mem_erase, Finset.mem_filter, Finset.mem_filter, hreached t]
        tauto
      unfold unreached
      rw [hwait]
      by_cases ht : b.heap.top ∈ g.tails e
      · have hmem : b.heap.top ∈ (g.tails e).toFinset.filter fun t => ¬ b.Reached t :=
          Finset.mem_filter.mpr ⟨List.mem_toFinset.mpr ht, hfresh⟩
        have hpending : e ∈ g.edges.filter fun e => b.heap.top ∈ g.tails e :=
          List.mem_filter.mpr ⟨he, by simpa using ht⟩
        rw [if_pos hpending, Finset.card_erase_add_one hmem]
      · have hmem : b.heap.top ∉ (g.tails e).toFinset.filter fun t => ¬ b.Reached t := by
          intro hmem
          exact ht (List.mem_toFinset.mp (Finset.mem_filter.mp hmem).1)
        have hpending : e ∉ g.edges.filter fun e => b.heap.top ∈ g.tails e := by
          intro hmem
          exact ht (by simpa using (List.mem_filter.mp hmem).2)
        rw [if_neg hpending, Finset.erase_eq_of_notMem hmem, Nat.add_zero]
    case fired =>
      intro e he hpending hne htails
      have ht : b.heap.top ∉ g.tails e := by
        intro ht
        exact hpending (List.mem_filter.mpr ⟨he, by simpa using ht⟩)
      rw [hmu]
      apply h.fired e he List.not_mem_nil hne
      intro t hmem
      rcases (hreached t).mp (htails t hmem) with rfl | hr
      · exact absurd hmem ht
      · exact hr
    case given =>
      intro v c hc
      rw [hmu]
      exact h.given v c hc
    case derived =>
      intro v hv
      rw [hmu] at hv ⊢
      exact h.derived v hv
    case le_start =>
      intro v
      rw [hmu]
      exact h.le_start v
    case origin =>
      intro v hv
      rw [hmu] at hv
      rw [hmu, hpi]
      rcases h.origin v hv with hstart | ⟨hlt, e, he, htarget, hpi, htails, hcost⟩
      · exact Or.inl hstart
      · exact Or.inr ⟨hlt, e, he, htarget, hpi,
          fun t ht => (hreached t).mpr (Or.inr (htails t ht)), hcost⟩
  · constructor
    · exact (hreached _).mpr (Or.inl rfl)
    · intro r hr
      rw [hmu]
      rcases (hreached r).mp hr with rfl | hr
      · exact le_rfl
      · exact h.settled r hr _ htop

end Pop

theorem Settling.told (h : Settling g axioms start (e :: pending) Q b) (hnew : e ∉ pending)
    (remain : E → ℕ) (hother : ∀ e' ≠ e, remain e' = b.remain e')
    (hremain : ¬ b.Reached (g.target e) → remain e = b.unreached g e)
    (hfired : g.tails e ≠ [] → (∀ t ∈ g.tails e, b.Reached t) →
      b.mu (g.target e) ≤ recomputeCost g b.mu e) :
    Settling g axioms start pending Q { b with remain := remain } := by
  have hpending : ∀ e' ≠ e, e' ∈ e :: pending ↔ e' ∈ pending := by
    intro e' hne
    simp [hne]
  refine ⟨h.holds, h.order, h.finite, h.apart, h.settled, ?_, ?_, h.given, h.derived, h.le_start,
    h.origin⟩
  · intro e' he' hhead
    show remain e' = b.unreached g e' + _
    by_cases heq : e' = e
    · subst heq
      rw [hremain hhead, if_neg hnew, Nat.add_zero]
    · rw [hother e' heq, h.remain e' he' hhead, if_congr (hpending e' heq) rfl rfl]
  · intro e' he' hmem hne htails
    by_cases heq : e' = e
    · subst heq
      exact hfired hne htails
    · exact h.fired e' he' (mt (hpending e' heq).mp hmem) hne htails

omit [DecidableEq E] [LinearOrder K] [AddCommMonoid K] in
/-- All tails of an edge are reached when it waits for none. -/
theorem reached_of_unreached_eq_zero (h : b.unreached g e = 0) : ∀ t ∈ g.tails e, b.Reached t := by
  intro t ht
  by_contra hnot
  have hmem : t ∈ (g.tails e).toFinset.filter fun t => ¬ b.Reached t :=
    Finset.mem_filter.mpr ⟨List.mem_toFinset.mpr ht, hnot⟩
  rw [Finset.card_eq_zero.mp h] at hmem
  exact absurd hmem (Finset.notMem_empty t)

section Relax

variable [IsOrderedAddMonoid K]

theorem Settling.mu_nonneg (h : Settling g axioms start pending Q b)
    (haxioms : ∀ v c, axioms v c → 0 ≤ c) (hec : ∀ e ∈ g.edges, 0 ≤ g.ec e) (v : V) :
    0 ≤ b.mu v := by
  by_cases htop : b.mu v = ⊤
  · rw [htop]
    exact le_top
  · obtain ⟨c, hc, hderives⟩ := h.derived v htop
    rw [hc, ← WithTop.coe_zero, WithTop.coe_le_coe]
    exact hderives.nonneg haxioms hec

/-- An edge waiting for no tail improves its head, which is queued but not reached,
and not where it is said to be: it will be queued a second time. -/
def QueuesTwice (g : Hypergraph V E K) (e : E) (b : BestTree V E K) : Prop :=
  ¬ b.Reached (g.target e) ∧ b.remain e ≤ 1 ∧ recomputeCost g b.mu e < b.mu (g.target e) ∧
    Mislaid (g.target e) b.heap

variable [Fintype V]

omit [IsOrderedAddMonoid K] in
theorem reached_relax (h : Settling g axioms start pending Q b) {head : V}
    (hhead : ¬ b.Reached head) (hcard : Fintype.card V < nullIndex) (c : WithTop K) (v : V) :
    (relax head e c b).Reached v ↔ b.Reached v := by
  unfold relax
  by_cases hlt : c < b.mu head
  · simp only [hlt, if_true]
    have hsize := h.holds.le_card
    have hmem : ∀ i < b.heap.size, b.heap.elem i ∈ insert head Q := by
      intro i hi
      exact Set.mem_insert_of_mem _ (h.holds.elem_mem hi)
    have hwritten : Relocated (b.heap.size + 1) (insert head Q) b.heap.toIndexedHeap
        (DAryHeap.pushOrUpdate optimalHeapArity (Function.update b.mu head c) head
          b.heap).toIndexedHeap :=
      relocated_pushOrUpdate (Set.mem_insert head Q) hmem
    rcases hwritten v with heq | ⟨hv, hloc⟩
    · unfold Reached
      rw [heq]
    · have hnot : ¬ b.Reached v := by
        rcases Set.mem_insert_iff.mp hv with rfl | hv
        · exact hhead
        · exact h.apart v hv
      exact iff_of_false (hloc.trans_le (by omega)).ne hnot
  · simp only [hlt, if_false]

/-- **Relaxing**: the head is queued at the cost of an edge whose tails are all reached. -/
theorem Settling.relax (h : Settling g axioms start pending Q b) (hlatest : Latest b v)
    (he : e ∈ g.edges) (hv : v ∈ g.tails e) (htails : ∀ t ∈ g.tails e, b.Reached t)
    (hhead : ¬ b.Reached (g.target e)) (haxioms : ∀ v c, axioms v c → 0 ≤ c)
    (hec : ∀ e ∈ g.edges, 0 ≤ g.ec e)
    (hlt : recomputeCost g b.mu e < b.mu (g.target e))
    (hmislaid : ¬ Mislaid (g.target e) b.heap) (hcard : Fintype.card V < nullIndex) :
    Settling g axioms start pending (insert (g.target e) Q)
        (relax (g.target e) e (recomputeCost g b.mu e) b) ∧
      Latest (relax (g.target e) e (recomputeCost g b.mu e) b) v ∧
      (relax (g.target e) e (recomputeCost g b.mu e) b).mu (g.target e) =
        recomputeCost g (relax (g.target e) e (recomputeCost g b.mu e) b).mu e := by
  have hreached := reached_relax (e := e) h hhead hcard (recomputeCost g b.mu e)
  generalize hc : recomputeCost g b.mu e = c at hlt hreached ⊢
  generalize hhd : g.target e = head at hhead hlt hmislaid hreached ⊢
  have hne_top : c ≠ ⊤ := ne_top_of_lt hlt
  have hmu_nonneg := h.mu_nonneg haxioms hec
  -- what the vertex popped last costs is at most what the edge costs
  have hle : b.mu v ≤ c := by
    rw [← hc]
    exact le_recomputeCost (hec e he) hmu_nonneg hv
  have hlower : head ∈ Q → Function.update b.mu head c head ≤ b.mu head := by
    intro _
    rw [Function.update_self]
    exact hlt.le
  have hheap := pushOrUpdate_holds h.holds h.order hlower
    (fun a _ hne => Function.update_of_ne hne ..) hmislaid
  have heq : BestTree.relax head e c b = ⟨Function.update b.mu head c,
      Function.update b.pi head (some e), b.remain,
      DAryHeap.pushOrUpdate optimalHeapArity (Function.update b.mu head c) head b.heap⟩ := by
    unfold BestTree.relax
    rw [if_pos hlt]
  generalize hb' : BestTree.relax head e c b = b' at hreached
  have hmu : b'.mu = Function.update b.mu head c := by rw [← hb', heq]
  have hpi : b'.pi = Function.update b.pi head (some e) := by rw [← hb', heq]
  have hother : ∀ u, u ≠ head → b'.mu u = b.mu u := by
    intro u hu
    rw [hmu, Function.update_of_ne hu]
  have hself : b'.mu head = c := by rw [hmu, Function.update_self]
  have hsame : ∀ u, b.Reached u → b'.mu u = b.mu u := by
    intro u hu
    exact hother u fun heq => hhead (heq ▸ hu)
  have hmono : ∀ u, b'.mu u ≤ b.mu u := by
    intro u
    by_cases hu : u = head
    · rw [hu, hself]
      exact hlt.le
    · exact (hother u hu).le
  have hcost : ∀ e', (∀ t ∈ g.tails e', b.Reached t) →
      recomputeCost g b'.mu e' = recomputeCost g b.mu e' := by
    intro e' htails'
    exact recomputeCost_congr fun t ht => hsame t (htails' t ht)
  refine ⟨?_, ?_, ?_⟩
  · constructor
    case holds =>
      rw [← hb', heq]
      exact hheap.1
    case order =>
      rw [← hb', heq]
      exact hheap.2
    case finite =>
      intro u
      rw [hreached u]
      by_cases hu : u = head
      · subst hu
        rw [hself]
        exact iff_of_true hne_top (Or.inl (Set.mem_insert _ _))
      · rw [hother u hu, h.finite u, Set.mem_insert_iff]
        simp [hu]
    case apart =>
      intro u hu
      rw [hreached u]
      rcases Set.mem_insert_iff.mp hu with rfl | hu
      · exact hhead
      · exact h.apart u hu
    case settled =>
      intro r hr q hq
      have hr' := (hreached r).mp hr
      rw [hsame r hr']
      by_cases hqh : q = head
      · rw [hqh, hself]
        exact (hlatest.le r hr').trans hle
      · rw [hother q hqh]
        exact h.settled r hr' q (Set.mem_of_mem_insert_of_ne hq hqh)
    case remain =>
      intro e' he' hhead'
      have hwait : b'.unreached g e' = b.unreached g e' := by
        unfold unreached
        simp only [hreached]
      have hremain : b'.remain = b.remain := by rw [← hb', heq]
      rw [hwait, hremain]
      exact h.remain e' he' (mt (hreached _).mpr hhead')
    case fired =>
      intro e' he' hmem hne htails'
      have htails'' : ∀ t ∈ g.tails e', b.Reached t := fun t ht => (hreached t).mp (htails' t ht)
      rw [hcost e' htails'']
      exact (hmono _).trans (h.fired e' he' hmem hne htails'')
    case given =>
      intro u c' hc'
      exact (hmono u).trans (h.given u c' hc')
    case derived =>
      intro u hu
      by_cases huh : u = head
      · rw [huh, hself, ← hc, ← hhd]
        apply derives_recomputeCost he (List.ne_nil_of_mem hv)
        intro t ht
        exact h.derived t ((h.finite t).mpr (Or.inr (htails t ht)))
      · rw [hother u huh] at hu ⊢
        exact h.derived u hu
    case le_start =>
      intro u
      exact (hmono u).trans (h.le_start u)
    case origin =>
      intro u hu
      by_cases huh : u = head
      · subst huh
        right
        rw [hself]
        refine ⟨hlt.trans_le (h.le_start u), e, he, hhd, ?_, ?_, ?_⟩
        · rw [hpi, Function.update_self]
        · exact fun t ht => (hreached t).mpr (htails t ht)
        · rw [hcost e htails, hc]
      · rw [hother u huh] at hu
        rw [hother u huh, hpi, Function.update_of_ne huh]
        rcases h.origin u hu with hstart | ⟨hlt', e', he', htarget, hpi', htails', hcost'⟩
        · exact Or.inl hstart
        · refine Or.inr ⟨hlt', e', he', htarget, hpi', fun t ht => (hreached t).mpr (htails' t ht), ?_⟩
          rw [hcost', hcost e' htails']
  · constructor
    · exact (hreached v).mpr hlatest.reached
    · intro r hr
      have hr' := (hreached r).mp hr
      rw [hsame r hr', hsame v hlatest.reached]
      exact hlatest.le r hr'
  · rw [hself, hcost e htails, hc]

/-- **One edge** of the vertex popped. -/
theorem Settling.satisfy (h : Settling g axioms start (e :: pending) Q b) (hlatest : Latest b v)
    (he : e ∈ g.edges) (hv : v ∈ g.tails e) (hnew : e ∉ pending)
    (haxioms : ∀ v c, axioms v c → 0 ≤ c) (hec : ∀ e ∈ g.edges, 0 ≤ g.ec e)
    (hquiet : ¬ QueuesTwice g e b) (hcard : Fintype.card V < nullIndex) :
    ∃ Q', Settling g axioms start pending Q' (satisfy g e b) ∧ Latest (satisfy g e b) v ∧
      ∀ u, (satisfy g e b).Reached u ↔ b.Reached u := by
  unfold BestTree.satisfy
  by_cases hhead : b.Reached (g.target e)
  · -- the head costs no more than the vertex popped last
    rw [if_pos hhead]
    refine ⟨Q, h.told hnew b.remain (fun _ _ => rfl) (fun hnot => absurd hhead hnot) ?_, hlatest,
      fun _ => Iff.rfl⟩
    intro _ _
    exact (hlatest.le _ hhead).trans (le_recomputeCost (hec e he) (h.mu_nonneg haxioms hec) hv)
  · rw [if_neg hhead]
    have hremain := h.remain e he hhead
    rw [if_pos (List.mem_cons_self ..)] at hremain
    simp only [hremain, Nat.add_sub_cancel]
    have hother : ∀ e' ≠ e, Function.update b.remain e (b.unreached g e) e' = b.remain e' :=
      fun e' hne => Function.update_of_ne hne ..
    have hself : Function.update b.remain e (b.unreached g e) e = b.unreached g e :=
      Function.update_self ..
    by_cases hzero : b.unreached g e = 0
    · rw [if_pos hzero]
      have htails := reached_of_unreached_eq_zero hzero
      by_cases hlt : recomputeCost g b.mu e < b.mu (g.target e)
      · have hmislaid : ¬ Mislaid (g.target e) b.heap := by
          intro hmis
          exact hquiet ⟨hhead, by omega, hlt, hmis⟩
        obtain ⟨hrelax, hlatest', hmu⟩ :=
          h.relax hlatest he hv htails hhead haxioms hec hlt hmislaid hcard
        have hreached := reached_relax (e := e) h hhead hcard (recomputeCost g b.mu e)
        have hwait : (BestTree.relax (g.target e) e (recomputeCost g b.mu e) b).unreached g e =
            b.unreached g e := by
          unfold unreached
          simp only [hreached]
        have hsame : (BestTree.relax (g.target e) e (recomputeCost g b.mu e) b).remain = b.remain := by
          unfold BestTree.relax
          rw [if_pos hlt]
        have htold := hrelax.told hnew (Function.update b.remain e (b.unreached g e))
          (fun e' hne => by rw [hsame]; exact hother e' hne) (fun _ => by rw [hwait]; exact hself)
          (fun _ _ => hmu.le)
        have hswap : BestTree.relax (g.target e) e (recomputeCost g b.mu e)
            { b with remain := Function.update b.remain e (b.unreached g e) } =
            { BestTree.relax (g.target e) e (recomputeCost g b.mu e) b with
              remain := Function.update b.remain e (b.unreached g e) } := by
          unfold BestTree.relax
          simp only [hlt, if_true]
        rw [hswap]
        exact ⟨_, htold, ⟨hlatest'.reached, hlatest'.le⟩, hreached⟩
      · have hswap : BestTree.relax (g.target e) e (recomputeCost g b.mu e)
            { b with remain := Function.update b.remain e (b.unreached g e) } =
            { b with remain := Function.update b.remain e (b.unreached g e) } := by
          unfold BestTree.relax
          simp only [hlt, if_false]
        rw [hswap]
        exact ⟨Q, h.told hnew _ hother (fun _ => hself) fun _ _ => not_lt.mp hlt,
          ⟨hlatest.reached, hlatest.le⟩, fun _ => Iff.rfl⟩
    · rw [if_neg hzero]
      refine ⟨Q, h.told hnew _ hother (fun _ => hself) ?_, ⟨hlatest.reached, hlatest.le⟩,
        fun _ => Iff.rfl⟩
      intro _ htails
      exfalso
      apply hzero
      rw [unreached, Finset.card_eq_zero, Finset.filter_eq_empty_iff]
      intro t ht
      exact not_not.mpr (htails t (List.mem_toFinset.mp ht))

end Relax

end BestTree

end Carmel
