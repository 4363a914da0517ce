/-
# Depth-first orders

`reverse_topo_order` and `TopoSort` write down every state when the depth-first search from
it returns, at the end of the output or at the front. On a graph without cycles this puts
every state before those it leads to, read from the end that was written last.
-/

import Carmel.Math.Flow

namespace Carmel

open Carmel.Math

/-- The arrays of the search, its output so far, and the count of back edges. -/
structure TopoState where
  begun : ℕ → Bool
  done : ℕ → Bool
  order : List ℕ
  nBackEdges : ℕ

namespace TopoState

def empty : TopoState := ⟨fun _ => false, fun _ => false, [], 0⟩

end TopoState

section Model

variable (succ : ℕ → List ℕ)

/-- `order_from`, at most `fuel` calls deep. The output is in the order of `reverse_topo_order`. -/
def orderFrom : ℕ → ℕ → TopoState → Option TopoState
  | 0, _, _ => none
  | fuel + 1, s, T =>
    if T.done s then
      some T
    else if T.begun s then
      some { T with nBackEdges := T.nBackEdges + 1 }
    else do
      let T ← (succ s).foldlM (fun T d => orderFrom fuel d T)
        { T with begun := Function.update T.begun s true }
      return { T with done := Function.update T.done s true, order := T.order ++ [s] }

/-- The order from one state, as `reverse_topo_order` gives it. -/
def reverseTopoOrder (nStates s : ℕ) : Option (List ℕ) :=
  (orderFrom succ (nStates + 1) s .empty).map (·.order)

/-- `order_crucial`: the search from every state with arcs. -/
def orderCrucial (nStates : ℕ) : Option TopoState :=
  ((List.range nStates).filter fun i => !(succ i).isEmpty).foldlM
    (fun T i => orderFrom succ (nStates + 1) i T) .empty

/-- The list that `TopoSort` fills from the front. -/
def topoSort (nStates : ℕ) : Option (List ℕ) :=
  (orderCrucial succ nStates).map (·.order.reverse)

end Model

section Spec

variable {succ : ℕ → List ℕ} {n : ℕ}

/-- The graph given by successor lists. -/
def SuccAdj (succ : ℕ → List ℕ) (u : ℕ) (_ : Unit) (v : ℕ) : Prop := v ∈ succ u

/-- Successors are states, and there are no cycles. -/
structure Acyclic (succ : ℕ → List ℕ) (n : ℕ) : Prop where
  lt : ∀ {u v}, v ∈ succ u → v < n
  noCycle : ∀ v, ¬ OnCycle (SuccAdj succ) v

/-- The bookkeeping of the search: the output is in order, and what was begun
is written down or still open. -/
structure TopoState.Inv (succ : ℕ → List ℕ) (T : TopoState) (opn : ℕ → Prop) : Prop where
  done_iff : ∀ s, T.done s = true ↔ s ∈ T.order
  begun : ∀ s, T.begun s = true ↔ s ∈ T.order ∨ opn s
  topo : TopoList succ T.order.reverse

/-- How many states have not been begun. -/
def TopoState.unbegun (n : ℕ) (T : TopoState) : ℕ :=
  ((Finset.range n).filter fun s => T.begun s = false).card

/-- What a search from `s` adds. -/
structure TopoState.Later (T T' : TopoState) (from_ : List ℕ) (succ : ℕ → List ℕ) : Prop where
  order : ∀ s ∈ T.order, s ∈ T'.order
  added : ∀ s ∈ T'.order, s ∈ T.order ∨ ∃ r ∈ from_, Reaches (SuccAdj succ) r s
  begun : ∀ s, T.begun s = true → T'.begun s = true

theorem TopoState.Later.refl (T : TopoState) (l : List ℕ) : T.Later T l succ :=
  ⟨fun _ h => h, fun _ h => .inl h, fun _ h => h⟩

theorem TopoState.Later.cons {T T₁ T₂ : TopoState} {s : ℕ} {l : List ℕ}
    (h₁ : T.Later T₁ [s] succ) (h₂ : T₁.Later T₂ l succ) : T.Later T₂ (s :: l) succ := by
  constructor
  · exact fun v hv => h₂.order v (h₁.order v hv)
  · intro v hv
    rcases h₂.added v hv with hv | ⟨r, hr, hreach⟩
    · rcases h₁.added v hv with hv | ⟨r, hr, hreach⟩
      · exact .inl hv
      · exact .inr ⟨r, List.mem_singleton.mp hr ▸ List.mem_cons_self, hreach⟩
    · exact .inr ⟨r, List.mem_cons_of_mem _ hr, hreach⟩
  · exact fun v hv => h₂.begun v (h₁.begun v hv)

theorem TopoState.Later.finish {T T₂ : TopoState} {s : ℕ}
    (h : TopoState.Later { T with begun := Function.update T.begun s true } T₂ (succ s) succ) :
    T.Later { T₂ with done := Function.update T₂.done s true, order := T₂.order ++ [s] } [s] succ := by
  refine ⟨fun v hv => List.mem_append_left _ (h.order v hv), fun v hv => ?_, fun v hv => ?_⟩
  · rcases List.mem_append.mp hv with hv | hv
    · rcases h.added v hv with hv | ⟨d, hd, hreach⟩
      · exact .inl hv
      · exact .inr ⟨s, List.mem_singleton_self s, hreach.head (e := ()) hd⟩
    · obtain rfl := List.mem_singleton.mp hv
      exact .inr ⟨v, List.mem_singleton_self v, .refl v⟩
  · apply h.begun v
    by_cases hvs : v = s
    · simp [hvs]
    · simpa [hvs] using hv

theorem TopoState.Later.unbegun_le {T T' : TopoState} {l : List ℕ} (h : T.Later T' l succ) :
    T'.unbegun n ≤ T.unbegun n := by
  refine Finset.card_le_card fun s hs => ?_
  rw [Finset.mem_filter] at hs ⊢
  refine ⟨hs.1, ?_⟩
  by_contra hbegun
  rw [h.begun s (by simpa using hbegun)] at hs
  exact absurd hs.2 (by decide)

theorem foldlM_orderFrom_spec {fuel : ℕ} {opn : ℕ → Prop} {T : TopoState} (l : List ℕ)
    (hT : T.Inv succ opn) (hfuel : T.unbegun n < fuel)
    (hstep : ∀ s ∈ l, ∀ T : TopoState, T.Inv succ opn → T.unbegun n < fuel →
      ∃ T', orderFrom succ fuel s T = some T' ∧ T'.Inv succ opn ∧ T.Later T' [s] succ ∧
        s ∈ T'.order) :
    ∃ T', l.foldlM (fun T d => orderFrom succ fuel d T) T = some T' ∧ T'.Inv succ opn ∧
      T.Later T' l succ ∧ ∀ s ∈ l, s ∈ T'.order := by
  induction l generalizing T with
  | nil => exact ⟨T, rfl, hT, .refl T _, by simp⟩
  | cons s l ih =>
    obtain ⟨T₁, hrun₁, hT₁, hlater₁, hs⟩ := hstep s List.mem_cons_self T hT hfuel
    obtain ⟨T₂, hrun₂, hT₂, hlater₂, hl⟩ := ih hT₁
      (Nat.lt_of_le_of_lt hlater₁.unbegun_le hfuel) fun s hs => hstep s (List.mem_cons_of_mem _ hs)
    refine ⟨T₂, by rw [List.foldlM_cons, hrun₁]; exact hrun₂, hT₂, hlater₁.cons hlater₂, ?_⟩
    intro s' hs'
    rcases List.mem_cons.mp hs' with rfl | hs'
    · exact hlater₂.order _ hs
    · exact hl s' hs'

theorem unbegun_update_lt {T : TopoState} {s : ℕ} (hs : s < n) (hbegun : T.begun s = false) :
    TopoState.unbegun n { T with begun := Function.update T.begun s true } < T.unbegun n := by
  refine Finset.card_lt_card (Finset.ssubset_iff_of_subset ?_ |>.mpr ⟨s, ?_, ?_⟩)
  · intro v hv
    rw [Finset.mem_filter] at hv ⊢
    by_cases hvs : v = s
    · subst hvs
      exact ⟨hv.1, hbegun⟩
    · exact ⟨hv.1, by simpa [hvs] using hv.2⟩
  · exact Finset.mem_filter.mpr ⟨Finset.mem_range.mpr hs, hbegun⟩
  · simp

/-- **The search writes a topological order**, from a state that no open state
can be reached from. -/
theorem orderFrom_spec (hsucc : Acyclic succ n) (fuel : ℕ) :
    ∀ {s : ℕ} {T : TopoState} {opn : ℕ → Prop}, T.Inv succ opn → s < n → T.unbegun n < fuel →
      (∀ u, opn u → ∃ w, w ∈ succ u ∧ Reaches (SuccAdj succ) w s) →
      ∃ T', orderFrom succ fuel s T = some T' ∧ T'.Inv succ opn ∧ T.Later T' [s] succ ∧
        s ∈ T'.order := by
  induction fuel with
  | zero => exact fun _ _ h => absurd h (Nat.not_lt_zero _)
  | succ fuel ih =>
    intro s T opn hT hs hfuel hopn
    have hclosed : ¬ opn s := by
      intro h
      obtain ⟨w, hw, hreach⟩ := hopn s h
      exact hsucc.noCycle s (onCycle_iff.mpr ⟨w, ⟨(), hw⟩, hreach⟩)
    rw [orderFrom]
    by_cases hdone : T.done s = true
    · rw [if_pos hdone]
      exact ⟨T, rfl, hT, .refl T _, (hT.done_iff s).mp hdone⟩
    · have hnot : s ∉ T.order := fun h => hdone ((hT.done_iff s).mpr h)
      have hbegun : T.begun s = false := by
        rw [← Bool.not_eq_true, hT.begun]
        exact fun h => h.elim hnot hclosed
      rw [if_neg hdone, if_neg (by simp [hbegun])]
      -- the search from the successors, with `s` open
      have hT₁ : TopoState.Inv succ { T with begun := Function.update T.begun s true }
          fun u => opn u ∨ u = s := by
        refine ⟨hT.done_iff, fun v => ?_, hT.topo⟩
        by_cases hvs : v = s
        · simp [hvs]
        · simp [hvs, hT.begun]
      have hfuel₁ := unbegun_update_lt hs hbegun
      obtain ⟨T₂, hrun, hT₂, hlater, hall⟩ := foldlM_orderFrom_spec (n := n) (succ s) hT₁
        (by omega : _ < fuel) fun d hd T' hT' hfuel' => by
          refine ih hT' (hsucc.lt hd) hfuel' ?_
          rintro u (hu | rfl)
          · obtain ⟨w, hw, hreach⟩ := hopn u hu
            exact ⟨w, hw, hreach.tail (e := ()) hd⟩
          · exact ⟨d, hd, .refl d⟩
      have hnot₂ : s ∉ T₂.order := by
        intro h
        rcases hlater.added s h with h | ⟨d, hd, hreach⟩
        · exact hnot h
        · exact hsucc.noCycle s (onCycle_iff.mpr ⟨d, ⟨(), hd⟩, hreach⟩)
      refine ⟨_, by rw [hrun]; rfl, ⟨fun v => ?_, fun v => ?_, ?_⟩, hlater.finish, by simp⟩
      · by_cases hvs : v = s
        · simp [hvs]
        · simp [hvs, hT₂.done_iff]
      · rw [hT₂.begun]
        simp only [List.mem_append, List.mem_singleton]
        tauto
      · rw [List.reverse_append]
        refine ⟨by simpa using hnot₂, fun b hb => by simpa using hall b hb, hT₂.topo⟩

theorem inv_empty : TopoState.empty.Inv succ fun _ => False :=
  ⟨by simp [TopoState.empty], by simp [TopoState.empty], trivial⟩

theorem unbegun_empty_lt : TopoState.empty.unbegun n < n + 1 := by
  refine Nat.lt_succ_of_le ((Finset.card_filter_le ..).trans ?_)
  rw [Finset.card_range]

/-- `reverse_topo_order` lists what can be reached, successors first. -/
theorem reverseTopoOrder_spec (hsucc : Acyclic succ n) {s : ℕ} (hs : s < n) :
    ∃ l, reverseTopoOrder succ n s = some l ∧ TopoList succ l.reverse ∧
      ∀ v, v ∈ l ↔ Reaches (SuccAdj succ) s v := by
  obtain ⟨T, hrun, hT, hlater, hmem⟩ :=
    orderFrom_spec hsucc (n + 1) inv_empty hs unbegun_empty_lt nofun
  refine ⟨T.order, by rw [reverseTopoOrder, hrun]; rfl, hT.topo, fun v => ⟨fun hv => ?_, ?_⟩⟩
  · rcases hlater.added v hv with hv | ⟨r, hr, hreach⟩
    · exact absurd hv List.not_mem_nil
    · exact List.mem_singleton.mp hr ▸ hreach
  · rintro ⟨es, hwalk⟩
    refine hwalk.invariant (P := (· ∈ T.order)) (fun {a _ b} hstep ha => ?_) hmem
    exact List.mem_reverse.mp (hT.topo.mem_of_succ (List.mem_reverse.mpr ha) hstep)

/-- On any graph the search comes to an end. -/
theorem exists_orderFrom (hlt : ∀ {u v}, v ∈ succ u → v < n) (fuel : ℕ) :
    ∀ {s : ℕ} {T : TopoState}, s < n → T.unbegun n < fuel →
      ∃ T', orderFrom succ fuel s T = some T' ∧ T'.unbegun n ≤ T.unbegun n := by
  induction fuel with
  | zero => exact fun _ h => absurd h (Nat.not_lt_zero _)
  | succ fuel ih =>
    intro s T hs hfuel
    have hlist (l : List ℕ) (hl : ∀ d ∈ l, d < n) : ∀ T : TopoState, T.unbegun n < fuel →
        ∃ T', l.foldlM (fun T d => orderFrom succ fuel d T) T = some T' ∧
          T'.unbegun n ≤ T.unbegun n := by
      induction l with
      | nil => exact fun T _ => ⟨T, rfl, le_rfl⟩
      | cons d l ihl =>
        intro T hT
        obtain ⟨T₁, hrun₁, hle₁⟩ := ih (hl d List.mem_cons_self) hT
        obtain ⟨T₂, hrun₂, hle₂⟩ := ihl (fun d hd => hl d (List.mem_cons_of_mem _ hd)) T₁
          (Nat.lt_of_le_of_lt hle₁ hT)
        exact ⟨T₂, by rw [List.foldlM_cons, hrun₁]; exact hrun₂, hle₂.trans hle₁⟩
    rw [orderFrom]
    by_cases hdone : T.done s = true
    · rw [if_pos hdone]
      exact ⟨T, rfl, le_rfl⟩
    · rw [if_neg hdone]
      by_cases hbegun : T.begun s = true
      · rw [if_pos hbegun]
        exact ⟨_, rfl, le_rfl⟩
      · rw [if_neg hbegun]
        have hlt₁ := unbegun_update_lt hs (eq_false_of_ne_true hbegun)
        obtain ⟨T₂, hrun, hle⟩ := hlist (succ s) (fun d hd => hlt hd) _
          (lt_of_lt_of_le hlt₁ (Nat.le_of_lt_succ hfuel))
        rw [hrun]
        exact ⟨_, rfl, hle.trans hlt₁.le⟩

theorem exists_reverseTopoOrder (hlt : ∀ {u v}, v ∈ succ u → v < n) {s : ℕ} (hs : s < n) :
    ∃ l, reverseTopoOrder succ n s = some l := by
  obtain ⟨T, hrun, -⟩ := exists_orderFrom hlt (n + 1) hs unbegun_empty_lt
  exact ⟨T.order, by rw [reverseTopoOrder, hrun]; rfl⟩

/-- `TopoSort` lists at least the states that have arcs, in topological order. -/
theorem topoSort_spec (hsucc : Acyclic succ n) :
    ∃ l, topoSort succ n = some l ∧ TopoList succ l ∧ ∀ s < n, succ s ≠ [] → s ∈ l := by
  obtain ⟨T, hrun, hT, -, hall⟩ := foldlM_orderFrom_spec (n := n)
    ((List.range n).filter fun i => !(succ i).isEmpty) inv_empty unbegun_empty_lt
    fun s hs T hT hfuel => orderFrom_spec hsucc (n + 1) hT
      (List.mem_range.mp (List.mem_filter.mp hs).1) hfuel nofun
  refine ⟨T.order.reverse, by rw [topoSort, orderCrucial, hrun]; rfl, hT.topo, fun s hs hne => ?_⟩
  refine List.mem_reverse.mpr (hall s (List.mem_filter.mpr ⟨List.mem_range.mpr hs, ?_⟩))
  simpa using hne

end Spec

end Carmel

/-!
## Depth-first marking

The recursion of `dfsRec` is bounded; one call for each state, and one more, is enough.
-/

namespace Carmel

open Carmel.Math

section Model

variable (succ : ℕ → List ℕ)

/-- `dfsRec` without the callbacks, at most `fuel` calls deep. -/
def dfsRec : ℕ → ℕ → (ℕ → Bool) → Option (ℕ → Bool)
  | 0, _, _ => none
  | fuel + 1, state, dfsVis =>
    if dfsVis state then
      some dfsVis
    else
      (succ state).foldlM (fun dfsVis dest => dfsRec fuel dest dfsVis)
        (Function.update dfsVis state true)

/-- `depthFirstSearch` with nothing visited yet. -/
def depthFirstSearch (nStates startState : ℕ) : Option (ℕ → Bool) :=
  dfsRec succ (nStates + 1) startState fun _ => false

end Model

section Spec

variable {succ : ℕ → List ℕ} {n fuel s : ℕ} {vis vis' : ℕ → Bool}

/-- How many states have not been visited. -/
def unvisited (n : ℕ) (vis : ℕ → Bool) : ℕ := ((Finset.range n).filter fun s => vis s = false).card

/-- What a search from the states `from_` adds: states that they lead to, each with
all its successors. -/
structure Marks (succ : ℕ → List ℕ) (from_ : List ℕ) (vis vis' : ℕ → Bool) : Prop where
  keep : ∀ {v}, vis v = true → vis' v = true
  start : ∀ s ∈ from_, vis' s = true
  reached : ∀ {v}, vis' v = true → vis v = true ∨ ∃ s ∈ from_, Reaches (SuccAdj succ) s v
  closed : ∀ {v}, vis' v = true → vis v = true ∨ ∀ w ∈ succ v, vis' w = true

theorem Marks.unvisited_le {from_ : List ℕ} (h : Marks succ from_ vis vis') :
    unvisited n vis' ≤ unvisited n vis := by
  refine Finset.card_le_card fun s hs => ?_
  rw [Finset.mem_filter] at hs ⊢
  refine ⟨hs.1, ?_⟩
  by_contra hvis
  rw [h.keep (by simpa using hvis)] at hs
  exact absurd hs.2 (by decide)

theorem unvisited_update_lt (hs : s < n) (hvis : vis s = false) :
    unvisited n (Function.update vis s true) < unvisited n vis := by
  refine Finset.card_lt_card (Finset.ssubset_iff_of_subset ?_ |>.mpr ⟨s, ?_, ?_⟩)
  · intro v hv
    rw [Finset.mem_filter] at hv ⊢
    by_cases hvs : v = s
    · subst hvs
      exact ⟨hv.1, hvis⟩
    · exact ⟨hv.1, by simpa [hvs] using hv.2⟩
  · exact Finset.mem_filter.mpr ⟨Finset.mem_range.mpr hs, hvis⟩
  · simp

theorem foldlM_dfsRec_spec (l : List ℕ) (hfuel : unvisited n vis < fuel)
    (hstep : ∀ s ∈ l, ∀ vis, unvisited n vis < fuel →
      ∃ vis', dfsRec succ fuel s vis = some vis' ∧ Marks succ [s] vis vis') :
    ∃ vis', l.foldlM (fun vis d => dfsRec succ fuel d vis) vis = some vis' ∧
      Marks succ l vis vis' := by
  induction l generalizing vis with
  | nil => exact ⟨vis, rfl, id, by simp, .inl, .inl⟩
  | cons s l ih =>
    obtain ⟨vis₁, hrun₁, h₁⟩ := hstep s List.mem_cons_self vis hfuel
    obtain ⟨vis₂, hrun₂, h₂⟩ := ih (Nat.lt_of_le_of_lt h₁.unvisited_le hfuel)
      fun s hs => hstep s (List.mem_cons_of_mem _ hs)
    refine ⟨vis₂, by rw [List.foldlM_cons, hrun₁]; exact hrun₂, fun h => h₂.keep (h₁.keep h), ?_,
      fun {v} hv => ?_, fun {v} hv => ?_⟩
    · intro s' hs'
      rcases List.mem_cons.mp hs' with rfl | hs'
      · exact h₂.keep (h₁.start _ (List.mem_singleton_self _))
      · exact h₂.start s' hs'
    · rcases h₂.reached hv with hv | ⟨r, hr, hreach⟩
      · rcases h₁.reached hv with hv | ⟨r, hr, hreach⟩
        · exact .inl hv
        · exact .inr ⟨r, List.mem_singleton.mp hr ▸ List.mem_cons_self, hreach⟩
      · exact .inr ⟨r, List.mem_cons_of_mem _ hr, hreach⟩
    · rcases h₂.closed hv with hv | hv
      · exact (h₁.closed hv).imp_right fun h w hw => h₂.keep (h w hw)
      · exact .inr hv

theorem dfsRec_spec (hsucc : ∀ {u v}, v ∈ succ u → v < n) (fuel : ℕ) :
    ∀ {s : ℕ} {vis : ℕ → Bool}, s < n → unvisited n vis < fuel →
      ∃ vis', dfsRec succ fuel s vis = some vis' ∧ Marks succ [s] vis vis' := by
  induction fuel with
  | zero => exact fun _ h => absurd h (Nat.not_lt_zero _)
  | succ fuel ih =>
    intro s vis hs hfuel
    rw [dfsRec]
    by_cases hvis : vis s = true
    · rw [if_pos hvis]
      exact ⟨vis, rfl, id, fun _ h => List.mem_singleton.mp h ▸ hvis, .inl, .inl⟩
    · rw [if_neg hvis]
      have hlt := unvisited_update_lt hs (by simpa using hvis)
      have hfuel' : unvisited n (Function.update vis s true) < fuel := by omega
      obtain ⟨vis', hrun, h⟩ := foldlM_dfsRec_spec (succ s) hfuel'
        fun d hd vis hfuel => ih (hsucc hd) hfuel
      refine ⟨vis', hrun, fun {v} hv => h.keep ?_, ?_, fun {v} hv => ?_, fun {v} hv => ?_⟩
      · by_cases hvs : v = s
        · simp [hvs]
        · simpa [hvs] using hv
      · intro s' hs'
        obtain rfl := List.mem_singleton.mp hs'
        exact h.keep (by simp)
      · by_cases hvs : v = s
        · exact .inr ⟨s, List.mem_singleton_self s, hvs ▸ .refl v⟩
        · rcases h.reached hv with hv | ⟨d, hd, hreach⟩
          · exact .inl (by simpa [hvs] using hv)
          · exact .inr ⟨s, List.mem_singleton_self s, hreach.head (e := ()) hd⟩
      · by_cases hvs : v = s
        · subst hvs
          exact .inr h.start
        · exact (h.closed hv).imp_left fun hv => by simpa [hvs] using hv

/-- **The search visits what can be reached**, and nothing else. -/
theorem depthFirstSearch_spec (hsucc : ∀ {u v}, v ∈ succ u → v < n) (hs : s < n) :
    ∃ vis, depthFirstSearch succ n s = some vis ∧
      ∀ v, vis v = true ↔ Reaches (SuccAdj succ) s v := by
  have hfuel : unvisited n (fun _ => false) < n + 1 := by
    refine Nat.lt_succ_of_le ((Finset.card_filter_le ..).trans ?_)
    rw [Finset.card_range]
  obtain ⟨vis, hrun, h⟩ := dfsRec_spec hsucc (n + 1) hs hfuel
  refine ⟨vis, hrun, fun v => ⟨fun hv => ?_, ?_⟩⟩
  · rcases h.reached hv with hv | ⟨r, hr, hreach⟩
    · cases hv
    · exact List.mem_singleton.mp hr ▸ hreach
  · rintro ⟨es, hwalk⟩
    refine hwalk.invariant (P := (vis · = true)) (fun {a _ b} hstep ha => ?_)
      (h.start s (List.mem_singleton_self s))
    rcases h.closed ha with ha | ha
    · cases ha
    · exact ha b hstep

end Spec

end Carmel
