/-
# Back edges, and counting paths

`TopoSort` counts the arcs that lead back to a state whose search is still going
on. Without any, its list is in topological order, and passing the number of
paths on along the arcs, state by state in that order, counts the paths from the
start to every state.
-/

import Carmel.Graph.TopoOrder
import Carmel.Math.PathSums

namespace Carmel

open Carmel.Math

section Model

variable (succ : ℕ → List ℕ)

/-- `TopoSort` from one state: its list, and the number of back edges. -/
def topoSortFrom (nStates s : ℕ) : Option (List ℕ × ℕ) :=
  (orderFrom succ (nStates + 1) s .empty).map fun T => (T.order.reverse, T.nBackEdges)

variable {K : Type*} [AddCommMonoidWithOne K]

/-- Pass the paths to `src` on along its arcs. -/
def propagateFrom (nPaths : ℕ → K) (src : ℕ) : ℕ → K :=
  (succ src).foldl (fun nPaths dest => Function.update nPaths dest (nPaths dest + nPaths src)) nPaths

/-- `countNoCyclePaths`: the array `nPaths` and the number of back edges. -/
def countNoCyclePaths (nStates src : ℕ) : Option ((ℕ → K) × ℕ) :=
  (topoSortFrom succ nStates src).map fun (topo, nBackEdges) =>
    (topo.foldl (propagateFrom succ) (Function.update (fun _ => 0) src 1), nBackEdges)

end Model

section Search

variable {succ : ℕ → List ℕ} {n : ℕ}

/-- The bookkeeping of a search on any graph: a state is written down once, when
its successors are written down or still open. -/
structure TopoState.Sound (succ : ℕ → List ℕ) (T : TopoState) (opn : ℕ → Prop) : Prop where
  done_iff : ∀ s, T.done s = true ↔ s ∈ T.order
  begun : ∀ s, T.begun s = true ↔ s ∈ T.order ∨ opn s
  nodup : T.order.Nodup
  closed : ∀ v ∈ T.order, ∀ w ∈ succ v, T.begun w = true
  fresh : ∀ s, opn s → s ∉ T.order

/-- What a search from the states `from_` says about back edges: without a new one
the list stays in order, and a new one lies on a cycle that can be reached. -/
structure TopoState.Backs (succ : ℕ → List ℕ) (T T' : TopoState) (from_ : List ℕ)
    (opn : ℕ → Prop) : Prop where
  le : T.nBackEdges ≤ T'.nBackEdges
  topo : T'.nBackEdges = T.nBackEdges →
    (∀ s ∈ from_, s ∈ T'.order) ∧ (TopoList succ T.order.reverse → TopoList succ T'.order.reverse)
  cycle : T.nBackEdges < T'.nBackEdges →
    (∀ u, opn u → ∀ s ∈ from_, ∃ w, w ∈ succ u ∧ Reaches (SuccAdj succ) w s) →
    ∃ s ∈ from_, ∃ v, Reaches (SuccAdj succ) s v ∧ OnCycle (SuccAdj succ) v

theorem TopoState.Backs.cons {T T₁ T₂ : TopoState} {s : ℕ} {l : List ℕ} {opn : ℕ → Prop}
    (h₁ : TopoState.Backs succ T T₁ [s] opn) (h₂ : TopoState.Backs succ T₁ T₂ l opn)
    (hlater : T₁.Later T₂ l succ) : TopoState.Backs succ T T₂ (s :: l) opn := by
  constructor
  · exact h₁.le.trans h₂.le
  · intro heq
    have hle₁ := h₁.le
    have hle₂ := h₂.le
    obtain ⟨hin₁, htopo₁⟩ := h₁.topo (by omega)
    obtain ⟨hin₂, htopo₂⟩ := h₂.topo (by omega)
    refine ⟨?_, fun htopo => htopo₂ (htopo₁ htopo)⟩
    intro v hv
    rcases List.mem_cons.mp hv with rfl | hv
    · exact hlater.order v (hin₁ v (List.mem_singleton_self v))
    · exact hin₂ v hv
  · intro hlt hopn
    by_cases hfirst : T.nBackEdges < T₁.nBackEdges
    · obtain ⟨v, hv, hcycle⟩ := h₁.cycle hfirst fun u hu v hv =>
        hopn u hu v (List.mem_singleton.mp hv ▸ List.mem_cons_self)
      exact ⟨v, List.mem_singleton.mp hv ▸ List.mem_cons_self, hcycle⟩
    · have hle₁ := h₁.le
      obtain ⟨v, hv, hcycle⟩ := h₂.cycle (by omega) fun u hu v hv =>
        hopn u hu v (List.mem_cons_of_mem _ hv)
      exact ⟨v, List.mem_cons_of_mem _ hv, hcycle⟩

/-- The search from a list of states, given the search from each. -/
theorem foldlM_orderFrom_sound {fuel : ℕ} {opn : ℕ → Prop} {T : TopoState} (l : List ℕ)
    (hT : T.Sound succ opn) (hfuel : T.unbegun n < fuel)
    (hstep : ∀ s ∈ l, ∀ T : TopoState, T.Sound succ opn → T.unbegun n < fuel →
      ∃ T', orderFrom succ fuel s T = some T' ∧ T'.Sound succ opn ∧ T.Later T' [s] succ ∧
        T'.begun s = true ∧ TopoState.Backs succ T T' [s] opn) :
    ∃ T', l.foldlM (fun T d => orderFrom succ fuel d T) T = some T' ∧ T'.Sound succ opn ∧
      T.Later T' l succ ∧ (∀ s ∈ l, T'.begun s = true) ∧ TopoState.Backs succ T T' l opn := by
  induction l generalizing T with
  | nil =>
    exact ⟨T, rfl, hT, .refl T _, nofun, le_rfl, fun _ => ⟨nofun, id⟩,
      fun hlt => absurd hlt (lt_irrefl _)⟩
  | cons s l ih =>
    obtain ⟨T₁, hrun₁, hT₁, hlater₁, hs, hbacks₁⟩ := hstep s List.mem_cons_self T hT hfuel
    obtain ⟨T₂, hrun₂, hT₂, hlater₂, hl, hbacks₂⟩ := ih hT₁
      (Nat.lt_of_le_of_lt hlater₁.unbegun_le hfuel) fun s hs => hstep s (List.mem_cons_of_mem _ hs)
    refine ⟨T₂, ?_, hT₂, hlater₁.cons hlater₂, ?_, hbacks₁.cons hbacks₂ hlater₂⟩
    · rw [List.foldlM_cons, hrun₁]
      exact hrun₂
    · intro v hv
      rcases List.mem_cons.mp hv with rfl | hv
      · exact hlater₂.begun v hs
      · exact hl v hv

/-- **One search**, on any graph. -/
theorem orderFrom_sound (hlt : ∀ {u v}, v ∈ succ u → v < n) (fuel : ℕ) :
    ∀ {s : ℕ} {T : TopoState} {opn : ℕ → Prop}, T.Sound succ opn → s < n → T.unbegun n < fuel →
      ∃ T', orderFrom succ fuel s T = some T' ∧ T'.Sound succ opn ∧ T.Later T' [s] succ ∧
        T'.begun s = true ∧ TopoState.Backs succ T T' [s] opn := by
  induction fuel with
  | zero => exact fun _ _ h => absurd h (Nat.not_lt_zero _)
  | succ fuel ih =>
    intro s T opn hT hs hfuel
    rw [orderFrom]
    by_cases hdone : T.done s = true
    · rw [if_pos hdone]
      have hmem := (hT.done_iff s).mp hdone
      refine ⟨T, rfl, hT, .refl T _, (hT.begun s).mpr (.inl hmem), le_rfl, fun _ => ⟨?_, id⟩,
        fun h => absurd h (lt_irrefl _)⟩
      exact fun v hv => List.mem_singleton.mp hv ▸ hmem
    · rw [if_neg hdone]
      have hnot : s ∉ T.order := fun h => hdone ((hT.done_iff s).mpr h)
      by_cases hbegun : T.begun s = true
      · -- the search from `s` is still open: a back edge
        rw [if_pos hbegun]
        have hopen : opn s := ((hT.begun s).mp hbegun).resolve_left hnot
        refine ⟨_, rfl, ⟨hT.done_iff, hT.begun, hT.nodup, hT.closed, hT.fresh⟩,
          ⟨fun _ h => h, fun _ h => .inl h, fun _ h => h⟩, hbegun, Nat.le_succ _,
          fun heq => absurd heq (Nat.succ_ne_self _), fun _ hreach => ?_⟩
        obtain ⟨w, hw, hback⟩ := hreach s hopen s (List.mem_singleton_self s)
        exact ⟨s, List.mem_singleton_self s, s, .refl s, onCycle_iff.mpr ⟨w, ⟨(), hw⟩, hback⟩⟩
      · rw [if_neg hbegun]
        have hclosed : ¬ opn s := fun h => hbegun ((hT.begun s).mpr (.inr h))
        have hT₁ : TopoState.Sound succ { T with begun := Function.update T.begun s true }
            fun u => opn u ∨ u = s := by
          refine ⟨hT.done_iff, fun v => ?_, hT.nodup, fun v hv w hw => ?_, ?_⟩
          · by_cases hvs : v = s
            · simp [hvs]
            · simp [hvs, hT.begun]
          · by_cases hws : w = s
            · simp [hws]
            · simpa [hws] using hT.closed v hv w hw
          · rintro v (hv | rfl)
            · exact hT.fresh v hv
            · exact hnot
        have hfuel₁ := unbegun_update_lt hs (eq_false_of_ne_true hbegun)
        obtain ⟨T₂, hrun, hT₂, hlater, hall, hbacks⟩ := foldlM_orderFrom_sound (n := n) (succ s)
          hT₁ (by omega : _ < fuel) fun d hd T' hT' hfuel' => ih hT' (hlt hd) hfuel'
        have hnot₂ : s ∉ T₂.order := hT₂.fresh s (.inr rfl)
        refine ⟨{ T₂ with done := Function.update T₂.done s true, order := T₂.order ++ [s] },
          by rw [hrun]; rfl, ⟨fun v => ?_, fun v => ?_, ?_, ?_, ?_⟩, hlater.finish, ?_,
          ⟨hbacks.le, ?_, ?_⟩⟩
        · by_cases hvs : v = s
          · simp [hvs]
          · simp [hvs, hT₂.done_iff]
        · rw [hT₂.begun]
          simp only [List.mem_append, List.mem_singleton]
          tauto
        · exact List.nodup_append.mpr ⟨hT₂.nodup, List.nodup_singleton s, fun v hv w hw heq =>
            hnot₂ (List.mem_singleton.mp hw ▸ heq ▸ hv)⟩
        · intro v hv w hw
          rcases List.mem_append.mp hv with hv | hv
          · exact hT₂.closed v hv w hw
          · exact hall w (List.mem_singleton.mp hv ▸ hw)
        · intro v hv hmem
          rcases List.mem_append.mp hmem with hmem | hmem
          · exact hT₂.fresh v (.inl hv) hmem
          · exact hclosed (List.mem_singleton.mp hmem ▸ hv)
        · exact (hT₂.begun s).mpr (.inr (.inr rfl))
        · intro heq
          obtain ⟨hin, htopo⟩ := hbacks.topo heq
          refine ⟨fun v hv => List.mem_append_right _ hv, fun h => ?_⟩
          rw [List.reverse_append]
          refine ⟨by simpa using hnot₂, fun b hb => by simpa using hin b hb, htopo h⟩
        · intro hlt' hreach
          obtain ⟨d, hd, v, hv, hcycle⟩ := hbacks.cycle hlt' fun u hu d hd => by
            rcases hu with hu | rfl
            · obtain ⟨w, hw, hback⟩ := hreach u hu s (List.mem_singleton_self s)
              exact ⟨w, hw, hback.tail (e := ()) hd⟩
            · exact ⟨d, hd, .refl d⟩
          exact ⟨s, List.mem_singleton_self s, v, hv.head (e := ()) hd, hcycle⟩

theorem sound_empty : TopoState.empty.Sound succ fun _ => False :=
  ⟨by simp [TopoState.empty], by simp [TopoState.empty], List.nodup_nil, nofun, nofun⟩

end Search

section Count

variable (succ : ℕ → List ℕ)

/-- The arc at a place of the list of a state. -/
def ArcAdj (u : ℕ) (a : ℕ × ℕ) (v : ℕ) : Prop := a.1 = u ∧ (succ u)[a.2]? = some v

/-- The arcs of a state, and where an arc leads. -/
def arcsOf (u : ℕ) : List (ℕ × ℕ) := (List.range (succ u).length).map (u, ·)

def arcDest (a : ℕ × ℕ) : ℕ := (succ a.1).getD a.2 0

variable {succ}

theorem mem_arcsOf {u : ℕ} {a : ℕ × ℕ} :
    a ∈ arcsOf succ u ↔ a.1 = u ∧ (succ u)[a.2]? = some (arcDest succ a) := by
  rw [arcsOf, List.mem_map]
  constructor
  · rintro ⟨k, hk, rfl⟩
    refine ⟨rfl, ?_⟩
    rw [arcDest, List.getD, List.getElem?_eq_getElem (List.mem_range.mp hk)]
    rfl
  · rintro ⟨rfl, ha⟩
    exact ⟨a.2, List.mem_range.mpr (List.getElem?_eq_some_iff.mp ha).1, rfl⟩

theorem map_arcDest (u : ℕ) : (arcsOf succ u).map (arcDest succ) = succ u := by
  apply List.ext_getElem?
  intro k
  rw [arcsOf, List.map_map, List.getElem?_map]
  by_cases hk : k < (succ u).length
  · simp [arcDest, hk]
  · simp [not_lt.mp hk]

theorem arcDest_mem {u : ℕ} {a : ℕ × ℕ} (ha : a ∈ arcsOf succ u) : arcDest succ a ∈ succ u :=
  List.mem_of_getElem? (mem_arcsOf.mp ha).2

theorem propagateFrom_eq (f : ℕ → ℕ) (u : ℕ) : propagateFrom succ f u =
    (arcsOf succ u).foldl (relax Prod.fst (arcDest succ) fun _ => 1) f := by
  have hfold : ∀ (arcs : List (ℕ × ℕ)) (f : ℕ → ℕ), (∀ a ∈ arcs, a.1 = u) →
      (arcs.map (arcDest succ)).foldl
        (fun nPaths dest => Function.update nPaths dest (nPaths dest + nPaths u)) f =
      arcs.foldl (relax Prod.fst (arcDest succ) fun _ => 1) f := by
    intro arcs
    induction arcs with
    | nil => exact fun _ _ => rfl
    | cons a arcs ih =>
      intro f h
      rw [List.map_cons, List.foldl_cons, List.foldl_cons,
        ih _ fun b hb => h b (List.mem_cons_of_mem _ hb), relax, mul_one, h a List.mem_cons_self]
  rw [propagateFrom, ← hfold _ _ fun a ha => (mem_arcsOf.mp ha).1, map_arcDest]

theorem foldl_propagateFrom (topo : List ℕ) (f : ℕ → ℕ) : topo.foldl (propagateFrom succ) f =
    (topo.flatMap (arcsOf succ)).foldl (relax Prod.fst (arcDest succ) fun _ => 1) f := by
  induction topo generalizing f with
  | nil => rfl
  | cons u topo ih => rw [List.foldl_cons, ih, List.flatMap_cons, List.foldl_append, propagateFrom_eq]

theorem nodup_flatMap_arcsOf {topo : List ℕ} (h : topo.Nodup) :
    (topo.flatMap (arcsOf succ)).Nodup := by
  apply List.nodup_flatMap.mpr
  refine ⟨fun u _ => (List.nodup_range).map fun k k' hk => (Prod.mk.inj hk).2, ?_⟩
  apply h.imp
  intro u v hne a hu hv
  exact hne ((mem_arcsOf.mp hu).1.symm.trans (mem_arcsOf.mp hv).1)

/-- A walk by arcs never leaves a list that has the successors of its states. -/
theorem edgeWalk_of_arcs {topo : List ℕ} (hclosed : ∀ u ∈ topo, ∀ v ∈ succ u, v ∈ topo) {u t : ℕ}
    {p : List (ℕ × ℕ)} (hwalk : Walk (ArcAdj succ) u p t) (hu : u ∈ topo) :
    Walk (EdgeAdj Prod.fst (arcDest succ) (topo.flatMap (arcsOf succ)).toFinset) u p t := by
  induction hwalk with
  | nil u => exact .nil u
  | @cons u m v a es ha _ ih =>
    have hm : arcDest succ a = m := by
      rw [arcDest, List.getD, ha.1, ha.2]
      rfl
    have harc : a ∈ arcsOf succ u := by
      rw [mem_arcsOf, hm]
      exact ha
    have hmem : a ∈ (topo.flatMap (arcsOf succ)).toFinset :=
      List.mem_toFinset.mpr (List.mem_flatMap.mpr ⟨u, hu, harc⟩)
    exact .cons ⟨hmem, ha.1, hm⟩ (ih (hclosed u hu m (hm ▸ arcDest_mem harc)))

/-- Passing the paths on in topological order counts the paths to the states listed. -/
theorem card_paths {topo : List ℕ} {s t : ℕ} (htopo : TopoList succ topo) (hs : s ∈ topo)
    (ht : t ∈ topo) : ∃ P : Finset (List (ℕ × ℕ)), (∀ p, p ∈ P ↔ Walk (ArcAdj succ) s p t) ∧
      topo.foldl (propagateFrom succ) (Function.update (fun _ => 0) s 1) t = P.card := by
  set arcs := topo.flatMap (arcsOf succ) with harcs
  have hmem : ∀ a, a ∈ arcs.toFinset ↔ ∃ u ∈ topo, a ∈ arcsOf succ u := by
    intro a
    rw [List.mem_toFinset, harcs, List.mem_flatMap]
  have hsrc : ∀ a ∈ arcs.toFinset, a.1 ∈ topo.toFinset := by
    intro a ha
    obtain ⟨u, hu, ha⟩ := (hmem a).mp ha
    exact List.mem_toFinset.mpr ((mem_arcsOf.mp ha).1 ▸ hu)
  have hdest : ∀ a ∈ arcs.toFinset, arcDest succ a ∈ topo.toFinset := by
    intro a ha
    obtain ⟨u, hu, ha⟩ := (hmem a).mp ha
    exact List.mem_toFinset.mpr (htopo.mem_of_succ hu (arcDest_mem ha))
  have hstep : ∀ {u a v}, EdgeAdj Prod.fst (arcDest succ) arcs.toFinset u a v → v ∈ succ u := by
    intro u a v ⟨ha, hu, hv⟩
    obtain ⟨w, -, ha⟩ := (hmem a).mp ha
    have hw := (mem_arcsOf.mp ha).1
    rw [← hv, ← hu, hw]
    exact arcDest_mem ha
  have hdead : ∀ v ∈ topo.toFinset,
      Dead (EdgeAdj Prod.fst (arcDest succ) arcs.toFinset) (fun _ => False) v := by
    intro v hv
    have hin : ∀ w, Reaches (EdgeAdj Prod.fst (arcDest succ) arcs.toFinset) v w → w ∈ topo := by
      intro w ⟨es, hwalk⟩
      exact hwalk.invariant (P := (· ∈ topo)) (fun hs ha => htopo.mem_of_succ ha (hstep hs))
        (List.mem_toFinset.mp hv)
    apply dead_of_no_cycle
    · exact topo.toFinset.finite_toSet.subset fun w hw => List.mem_toFinset.mpr (hin w hw)
    · exact fun _ _ h => h
    · intro w hw hcycle
      exact htopo.not_onCycle (hin w hw) (hcycle.mono fun h => ⟨(), hstep h⟩)
  have hforward : SolvesForward Prod.fst (arcDest succ) (fun _ => 1) arcs.toFinset topo.toFinset
      (atVertex s) (topo.foldl (propagateFrom succ) (Function.update (fun _ => 0) s 1)) := by
    have hstart : Function.update (fun _ => 0) s 1 = (atVertex s : ℕ → ℕ) := by
      funext v
      rw [atVertex, Function.update_apply]
    rw [foldl_propagateFrom, hstart]
    exact solvesForward_foldl_relax (htopo.relaxOrder (fun u a ha => (mem_arcsOf.mp ha).1)
      fun u a ha => arcDest_mem ha) (nodup_flatMap_arcsOf htopo.nodup) _ _
  have hwalks : ∀ v ∈ topo.toFinset, ∃ P : Finset (List (ℕ × ℕ)), ∀ p,
      p ∈ P ↔ Walk (EdgeAdj Prod.fst (arcDest succ) arcs.toFinset) v p t :=
    fun v hv => exists_walks (hdead v hv)
  choose! Q hQ using hwalks
  obtain ⟨P, hP, htotal, -⟩ := pathSums_of_solutions (fun _ => 0) (List.mem_toFinset.mpr hs)
    (List.mem_toFinset.mpr ht) hsrc hdest hdead hforward (solvesBackward_sum_walks _ hdest hQ)
  refine ⟨P, ?_, ?_⟩
  · intro p
    rw [hP]
    constructor
    · apply Walk.mono
      intro u a v ⟨ha, hu, hv⟩
      obtain ⟨w, -, ha⟩ := (hmem a).mp ha
      obtain ⟨hw, ha⟩ := mem_arcsOf.mp ha
      refine ⟨hu, ?_⟩
      rw [← hv, ← hu, hw]
      exact ha
    · intro hwalk
      exact edgeWalk_of_arcs (fun u hu v hv => htopo.mem_of_succ hu hv) hwalk hs
  · rw [htotal]
    simp

theorem propagateFrom_cast {K : Type*} [AddCommMonoidWithOne K] (f : ℕ → ℕ) (u : ℕ) :
    propagateFrom succ (fun v => (f v : K)) u =
      fun v => ((propagateFrom (K := ℕ) succ f u v : ℕ) : K) := by
  unfold propagateFrom
  induction succ u generalizing f with
  | nil => rfl
  | cons d ds ih =>
    rw [List.foldl_cons, List.foldl_cons, ← ih]
    congr 1
    funext v
    by_cases hv : v = d
    · rw [hv, Function.update_self, Function.update_self, Nat.cast_add]
    · rw [Function.update_of_ne hv, Function.update_of_ne hv]

theorem foldl_propagateFrom_cast {K : Type*} [AddCommMonoidWithOne K] (topo : List ℕ) (f : ℕ → ℕ) :
    topo.foldl (propagateFrom succ) (fun v => (f v : K)) =
      fun v => ((topo.foldl (propagateFrom (K := ℕ) succ) f v : ℕ) : K) := by
  induction topo generalizing f with
  | nil => rfl
  | cons u topo ih => rw [List.foldl_cons, List.foldl_cons, propagateFrom_cast, ih]

end Count

section Result

variable {succ : ℕ → List ℕ} {n s : ℕ}

/-- `TopoSort` from one state lists what can be reached, once, and finds a back edge
exactly when it can reach a cycle. -/
theorem topoSortFrom_spec (hlt : ∀ {u v}, v ∈ succ u → v < n) (hs : s < n) :
    ∃ topo nBackEdges, topoSortFrom succ n s = some (topo, nBackEdges) ∧ topo.Nodup ∧
      (∀ v, v ∈ topo ↔ Reaches (SuccAdj succ) s v) ∧
      (nBackEdges = 0 ↔ ∀ v, Reaches (SuccAdj succ) s v → ¬ OnCycle (SuccAdj succ) v) ∧
      (nBackEdges = 0 → TopoList succ topo) := by
  obtain ⟨T, hrun, hT, hlater, hbegun, hbacks⟩ :=
    orderFrom_sound hlt (n + 1) sound_empty hs unbegun_empty_lt
  have hin : s ∈ T.order := ((hT.begun s).mp hbegun).resolve_right id
  have hmem : ∀ v, v ∈ T.order ↔ Reaches (SuccAdj succ) s v := by
    intro v
    constructor
    · intro hv
      rcases hlater.added v hv with hv | ⟨r, hr, hreach⟩
      · exact absurd hv List.not_mem_nil
      · exact List.mem_singleton.mp hr ▸ hreach
    · intro ⟨es, hwalk⟩
      refine hwalk.invariant (P := (· ∈ T.order)) (fun {a _ b} hstep ha => ?_) hin
      exact ((hT.begun b).mp (hT.closed a ha b hstep)).resolve_right id
  have htopo : T.nBackEdges = 0 → TopoList succ T.order.reverse :=
    fun hzero => (hbacks.topo hzero).2 trivial
  refine ⟨T.order.reverse, T.nBackEdges, by rw [topoSortFrom, hrun]; rfl,
    List.nodup_reverse.mpr hT.nodup, fun v => List.mem_reverse.trans (hmem v), ?_, htopo⟩
  constructor
  · intro hzero v hv
    exact (htopo hzero).not_onCycle (List.mem_reverse.mpr ((hmem v).mpr hv))
  · intro hnone
    by_contra hne
    obtain ⟨r, hr, v, hv, hcycle⟩ := hbacks.cycle (Nat.pos_of_ne_zero hne) nofun
    exact hnone v (List.mem_singleton.mp hr ▸ hv) hcycle

/-- **Topological order and path counts.** From any state of a finite graph, every state
that can be reached is listed once; there is a back edge exactly when a cycle can be
reached; and without one every state stands before its successors, and `nPaths` is the
number of paths from the start. -/
theorem countNoCyclePaths_spec {K : Type*} [AddCommMonoidWithOne K]
    (hlt : ∀ {u v}, v ∈ succ u → v < n) (hs : s < n) :
    ∃ topo nBackEdges, topoSortFrom succ n s = some (topo, nBackEdges) ∧ topo.Nodup ∧
      (∀ v, v ∈ topo ↔ Reaches (SuccAdj succ) s v) ∧
      (nBackEdges = 0 ↔ ∀ v, Reaches (SuccAdj succ) s v → ¬ OnCycle (SuccAdj succ) v) ∧
      ∃ nPaths : ℕ → K, countNoCyclePaths succ n s = some (nPaths, nBackEdges) ∧
        (nBackEdges = 0 → (∀ u ∈ topo, ∀ v ∈ succ u, topo.idxOf u < topo.idxOf v) ∧
          ∀ v, ∃ P : Finset (List (ℕ × ℕ)), (∀ p, p ∈ P ↔ Walk (ArcAdj succ) s p v) ∧
            nPaths v = (P.card : K)) := by
  obtain ⟨topo, nBackEdges, hrun, hnodup, hmem, hcycle, htopo⟩ := topoSortFrom_spec hlt hs
  refine ⟨topo, nBackEdges, hrun, hnodup, hmem, hcycle, _, by rw [countNoCyclePaths, hrun]; rfl, ?_⟩
  intro hzero
  have hs' : s ∈ topo := (hmem s).mpr (.refl s)
  refine ⟨fun u hu v hv => (htopo hzero).idxOf_lt hu hv, ?_⟩
  have hcast : (Function.update (fun _ => 0) s 1 : ℕ → K) =
      fun v => ((Function.update (fun _ => 0) s 1 : ℕ → ℕ) v : K) := by
    funext v
    by_cases hv : v = s
    · rw [hv, Function.update_self, Function.update_self, Nat.cast_one]
    · rw [Function.update_of_ne hv, Function.update_of_ne hv, Nat.cast_zero]
  intro v
  rw [hcast, foldl_propagateFrom_cast]
  by_cases hv : v ∈ topo
  · obtain ⟨P, hP, hcard⟩ := card_paths (htopo hzero) hs' hv
    exact ⟨P, hP, congrArg Nat.cast hcard⟩
  · -- nothing leads to the other states
    refine ⟨∅, ?_, ?_⟩
    · intro p
      refine iff_of_false (Finset.notMem_empty p) fun hwalk => hv ?_
      exact hwalk.invariant (P := (· ∈ topo))
        (fun hstep ha => (htopo hzero).mem_of_succ ha (List.mem_of_getElem? hstep.2)) hs'
    · have hne : v ≠ s := fun heq => hv (heq ▸ hs')
      apply congrArg (Nat.cast : ℕ → K)
      rw [foldl_propagateFrom, foldl_relax_of_ne, Function.update_of_ne hne, Finset.card_empty]
      intro a ha heq
      obtain ⟨u, hu, ha⟩ := List.mem_flatMap.mp ha
      exact hv ((htopo hzero).mem_of_succ hu (heq ▸ arcDest_mem ha))

/-- Two arcs from one state to another. -/
theorem countNoCyclePaths_twoArcs :
    ∃ topo nBackEdges, topoSortFrom (fun u => if u = 0 then [1, 1] else []) 2 0 =
        some (topo, nBackEdges) ∧ topo.Nodup ∧
      (∀ v, v ∈ topo ↔ Reaches (SuccAdj fun u => if u = 0 then [1, 1] else []) 0 v) ∧
      (nBackEdges = 0 ↔ ∀ v, Reaches (SuccAdj fun u => if u = 0 then [1, 1] else []) 0 v →
        ¬ OnCycle (SuccAdj fun u => if u = 0 then [1, 1] else []) v) ∧
      ∃ nPaths : ℕ → ℕ, countNoCyclePaths (fun u => if u = 0 then [1, 1] else []) 2 0 =
          some (nPaths, nBackEdges) ∧
        (nBackEdges = 0 → (∀ u ∈ topo, ∀ v ∈ (fun u => if u = 0 then [1, 1] else []) u,
            topo.idxOf u < topo.idxOf v) ∧
          ∀ v, ∃ P : Finset (List (ℕ × ℕ)),
            (∀ p, p ∈ P ↔ Walk (ArcAdj fun u => if u = 0 then [1, 1] else []) 0 p v) ∧
              nPaths v = (P.card : ℕ)) := by
  apply countNoCyclePaths_spec
  · intro u v hv
    split at hv
    · simp at hv
      omega
    · cases hv
  · decide

end Result

end Carmel
