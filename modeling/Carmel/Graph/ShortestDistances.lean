/-
# Shortest distances

`shortestDistancesFrom` keeps the states that it has not settled in a binary heap and
settles the first one each time. Where no arc has a negative cost, what it finds are the
distances. It ends for any costs.
-/

import Carmel.Derivations.Derive
import Carmel.Math.BinaryHeap

namespace Carmel

open Carmel.Math

universe u

section Model

variable {K : Type u} [AddCommMonoid K] [LinearOrder K] [OrderTop K]

/-- The state at place `i` of the queue before the search, for `i` from 1. -/
def fillWith (src i : ℕ) : ℕ := if i ≤ src then i - 1 else i

/-- `distQueue` and `stateLocations` before the search. The places of the queue are
counted from 1 here. -/
def initialQueue (nStates src : ℕ) : IndexedHeap ℕ :=
  ((List.range' 1 (nStates - 1)).foldl (fun (q : IndexedHeap ℕ) i => q.put (i + 1) (fillWith src i))
    ⟨fun _ => 0, fun _ => 0⟩).put 1 src

/-- One round of the loop over the arcs of the state that was settled. -/
def relaxArc (weight : GraphArc → K) (activeState : ℕ) (T : (ℕ → K) × IndexedHeap ℕ)
    (a : GraphArc) : (ℕ → K) × IndexedHeap ℕ :=
  let (weights, distQueue) := T
  let candidate := weight a + weights activeState
  if candidate < weights a.dest then
    let weights := Function.update weights a.dest candidate
    (weights, distQueue.heapAdjustUp weights (distQueue.loc a.dest))
  else
    (weights, distQueue)

/-- The main loop, with `nUnknown` states in the queue. -/
def settleStates (g : List (List GraphArc)) (weight : GraphArc → K) :
    ℕ → (ℕ → K) × IndexedHeap ℕ → ℕ → K
  | 0, (weights, _) => weights
  | nUnknown + 1, (weights, distQueue) =>
    if weights (distQueue.elem 1) = ⊤ then
      weights
    else
      let activeState := distQueue.elem 1
      let distQueue := distQueue.heapPop weights (nUnknown + 1)
      settleStates g weight nUnknown
        ((g.getD activeState []).foldl (relaxArc weight activeState) (weights, distQueue))

/-- `shortestDistancesFrom`, without the arcs taken. -/
def shortestDistancesFrom (g : List (List GraphArc)) (weight : GraphArc → K) (src : ℕ) : ℕ → K :=
  settleStates g weight g.length
    (Function.update (fun _ => ⊤) src 0, initialQueue g.length src)

end Model

/-- Taking an arc of a graph. -/
def GraphAdj (g : List (List GraphArc)) (s : ℕ) (a : GraphArc) (t : ℕ) : Prop :=
  a ∈ g.getD s [] ∧ a.dest = t

section Initial

variable {src n i j : ℕ}

theorem fillWith_ne (hi : 1 ≤ i) : fillWith src i ≠ src := by
  rw [fillWith]
  split <;> omega

theorem fillWith_injective (hi : 1 ≤ i) (hj : 1 ≤ j) (h : fillWith src i = fillWith src j) : i = j := by
  rw [fillWith, fillWith] at h
  split at h <;> split at h <;> omega

theorem fillWith_lt (hi : i < n) : fillWith src i < n := by
  rw [fillWith]
  split <;> omega

theorem exists_fillWith (hsrc : src < n) (hj : j < n) (hne : j ≠ src) :
    ∃ i, 1 ≤ i ∧ i < n ∧ fillWith src i = j := by
  rcases Nat.lt_or_gt_of_ne hne with hlt | hgt
  · exact ⟨j + 1, by omega, by omega, by rw [fillWith, if_pos (by omega)]; rfl⟩
  · exact ⟨j, by omega, hj, by rw [fillWith, if_neg (by omega)]⟩

theorem foldl_fill (k : ℕ) (q : IndexedHeap ℕ) :
    ∀ i, 1 ≤ i → i ≤ k →
      ((List.range' 1 k).foldl (fun q i => q.put (i + 1) (fillWith src i)) q).elem (i + 1) =
          fillWith src i ∧
        ((List.range' 1 k).foldl (fun q i => q.put (i + 1) (fillWith src i)) q).loc (fillWith src i) =
          i + 1 := by
  induction k with
  | zero => exact fun i hi hi' => absurd hi (by omega)
  | succ k ih =>
    intro i hi hi'
    rw [List.range'_1_concat, List.foldl_append, List.foldl_cons, List.foldl_nil]
    by_cases heq : i = 1 + k
    · subst heq
      exact ⟨IndexedHeap.put_elem_self, IndexedHeap.put_loc_self⟩
    · obtain ⟨helem, hloc⟩ := ih i hi (by omega)
      have hne : fillWith src i ≠ fillWith src (1 + k) :=
        fun h => heq (fillWith_injective hi (by omega) h)
      exact ⟨(IndexedHeap.put_elem_of_ne (by omega)).trans helem,
        (Function.update_of_ne hne ..).trans hloc⟩

theorem initialQueue_elem (hi : 1 ≤ i) (hi' : i < n) :
    (initialQueue n src).elem (i + 1) = fillWith src i := by
  rw [initialQueue, IndexedHeap.put_elem_of_ne (by omega)]
  exact (foldl_fill _ _ i hi (by omega)).1

theorem initialQueue_loc (hi : 1 ≤ i) (hi' : i < n) :
    (initialQueue n src).loc (fillWith src i) = i + 1 :=
  (Function.update_of_ne (fillWith_ne hi) ..).trans (foldl_fill _ _ i hi (by omega)).2

/-- Only the first element has a weight yet. -/
theorem ordered_initialQueue {K : Type u} [LinearOrder K] [OrderTop K] {dist : ℕ → K}
    (hother : ∀ s, s ≠ src → dist s = ⊤) : (initialQueue n src).Ordered dist n := by
  intro i hi hi'
  have hne : (initialQueue n src).elem i ≠ src := by
    obtain ⟨k, rfl⟩ : ∃ k, i = k + 1 := ⟨i - 1, by omega⟩
    rw [initialQueue_elem (by omega) (by omega)]
    exact fillWith_ne (by omega)
  rw [hother _ hne]
  exact le_top

theorem holds_initialQueue (hsrc : src < n) : (initialQueue n src).Holds n {s | s < n} := by
  constructor
  · intro i hi hi'
    by_cases h1 : i = 1
    · subst h1
      have helem : (initialQueue n src).elem 1 = src := IndexedHeap.put_elem_self
      rw [helem]
      exact ⟨hsrc, IndexedHeap.put_loc_self⟩
    · obtain ⟨k, rfl⟩ : ∃ k, i = k + 1 := ⟨i - 1, by omega⟩
      rw [initialQueue_elem (by omega) (by omega)]
      exact ⟨fillWith_lt (by omega), initialQueue_loc (by omega) (by omega)⟩
  · intro s hs
    by_cases hne : s = src
    · subst hne
      have hloc : (initialQueue n s).loc s = 1 := IndexedHeap.put_loc_self
      rw [hloc]
      exact ⟨le_refl _, by omega, IndexedHeap.put_elem_self⟩
    · obtain ⟨i, hi, hi', rfl⟩ := exists_fillWith hsrc hs hne
      rw [initialQueue_loc hi hi']
      exact ⟨by omega, by omega, initialQueue_elem hi hi'⟩

end Initial

theorem heapAdjustUp_update {K : Type u} [LinearOrder K] {q : IndexedHeap ℕ} {weights : ℕ → K}
    {n t : ℕ} {S : Set ℕ} {c : K} (hholds : q.Holds n S) (hordered : q.Ordered weights n)
    (hmem : t ∈ S) (hle : c ≤ weights t) :
    (q.heapAdjustUp (Function.update weights t c) (q.loc t)).Holds n S ∧
      (q.heapAdjustUp (Function.update weights t c) (q.loc t)).Ordered
        (Function.update weights t c) n := by
  obtain ⟨h₁, h₂, h₃⟩ := hholds.loc _ hmem
  -- only the state itself has a new weight
  have helem : ∀ i, 1 ≤ i → i ≤ n → i ≠ q.loc t →
      Function.update weights t c (q.elem i) = weights (q.elem i) := by
    intro i hi hi' hip
    refine Function.update_of_ne (fun heq => hip ?_) ..
    rw [← heq, (hholds.elem i hi hi').2]
  have hle' : ∀ s, Function.update weights t c s ≤ weights s := by
    intro s
    by_cases hs : s = t
    · rw [hs, Function.update_self]
      exact hle
    · rw [Function.update_of_ne hs]
  apply IndexedHeap.heapAdjustUp_spec hholds hmem
  constructor
  · intro i hi hi' hip
    rw [helem i (by omega) hi' hip]
    exact (hle' _).trans (hordered i hi hi')
  · intro hp c hc hc'
    rw [helem _ (by omega) (by omega) (by omega), helem c (by omega) hc' (by omega)]
    have hstep := hordered c (by omega) hc'
    rw [hc] at hstep
    exact (hordered _ hp h₂).trans hstep

section Search

variable {K : Type u} [AddCommMonoid K] [LinearOrder K] [OrderTop K] [IsOrderedAddMonoid K]
variable {g : List (List GraphArc)} {weight : GraphArc → K} {src nUnknown active : ℕ} {S : Set ℕ}
variable {weights : ℕ → K} {q : IndexedHeap ℕ} {b : K}

/-- The bookkeeping of the search: `S` are the states in the queue, and `b` is a bound
between the distances of the settled states and those of the others. -/
structure Settling (g : List (List GraphArc)) (weight : GraphArc → K) (src : ℕ) (S : Set ℕ)
    (nUnknown : ℕ) (b : K) (weights : ℕ → K) (q : IndexedHeap ℕ) : Prop where
  holds : q.Holds nUnknown S
  ordered : q.Ordered weights nUnknown
  settled : ∀ s < g.length, s ∉ S → weights s ≤ b
  unsettled : ∀ s ∈ S, b ≤ weights s
  start : weights src = 0
  nonneg : ∀ s, 0 ≤ weights s
  attained : ∀ s, weights s = ⊤ ∨ ∃ p, Walk (GraphAdj g) src p s ∧ (p.map weight).sum = weights s

/-- The weights of settled states are never touched again, the others only get smaller. -/
theorem Settling.relaxArc (h : Settling g weight src S nUnknown (weights active) weights q)
    (hnonneg : ∀ s, ∀ a ∈ g.getD s [], 0 ≤ weight a) {a : GraphArc} (ha : a ∈ g.getD active [])
    (hdest : a.dest < g.length) (hdone : active ∉ S) :
    ∃ weights' q', Carmel.relaxArc weight active (weights, q) a = (weights', q') ∧
      Settling g weight src S nUnknown (weights' active) weights' q' ∧
      (∀ s ∉ S, s < g.length → weights' s = weights s) ∧ (∀ s, weights' s ≤ weights s) ∧
      weights' a.dest ≤ weight a + weights' active := by
  have hcand : weights active ≤ weight a + weights active :=
    le_add_of_nonneg_left (hnonneg _ a ha)
  simp only [Carmel.relaxArc]
  by_cases hlt : weight a + weights active < weights a.dest
  · rw [if_pos hlt]
    have hmem : a.dest ∈ S := by
      by_contra hnot
      exact absurd ((h.settled _ hdest hnot).trans hcand) (not_le.mpr hlt)
    have hsame : ∀ s, s ≠ a.dest →
        Function.update weights a.dest (weight a + weights active) s = weights s :=
      fun s hs => Function.update_of_ne hs ..
    have hself : Function.update weights a.dest (weight a + weights active) a.dest =
        weight a + weights active := Function.update_self ..
    have hle : ∀ s, Function.update weights a.dest (weight a + weights active) s ≤ weights s := by
      intro s
      by_cases hs : s = a.dest
      · rw [hs, hself]
        exact hlt.le
      · rw [hsame s hs]
    have hne : ∀ s, s ∉ S → s ≠ a.dest := fun s hs heq => hs (heq ▸ hmem)
    obtain ⟨hholds, hordered⟩ := heapAdjustUp_update h.holds h.ordered hmem hlt.le
    have hkeep : Function.update weights a.dest (weight a + weights active) active = weights active :=
      hsame active (hne active hdone)
    have hcand0 : 0 ≤ weight a + weights active := (h.nonneg active).trans hcand
    refine ⟨_, _, rfl, ⟨hholds, hordered, ?_, ?_, ?_, ?_, ?_⟩, fun s hs _ => hsame s (hne s hs), hle, ?_⟩
    · intro s hs hnot
      rw [hsame s (hne s hnot), hkeep]
      exact h.settled s hs hnot
    · intro s hs
      rw [hkeep]
      by_cases heq : s = a.dest
      · rw [heq, hself]
        exact hcand
      · rw [hsame s heq]
        exact h.unsettled s hs
    · -- nothing undercuts the weight of the start
      rw [hsame src, h.start]
      rintro rfl
      rw [h.start] at hlt
      exact absurd hcand0 (not_le.mpr hlt)
    · intro s
      by_cases heq : s = a.dest
      · rw [heq, hself]
        exact hcand0
      · rw [hsame s heq]
        exact h.nonneg s
    · intro s
      by_cases heq : s = a.dest
      · rw [heq, hself]
        rcases h.attained active with htop | ⟨p, hwalk, hsum⟩
        · rw [htop] at hcand
          exact .inl (top_le_iff.mp (htop ▸ hcand))
        · refine .inr ⟨p ++ [a], hwalk.append (.single ⟨ha, rfl⟩), ?_⟩
          rw [List.map_append, List.sum_append, List.map_singleton, List.sum_singleton, hsum, add_comm]
      · rw [hsame s heq]
        exact h.attained s
    · rw [hself, hkeep]
  · rw [if_neg hlt]
    exact ⟨weights, q, rfl, h, fun _ _ _ => rfl, fun _ => le_rfl, not_lt.mp hlt⟩

theorem Settling.foldl_relaxArc (hnonneg : ∀ s, ∀ a ∈ g.getD s [], 0 ≤ weight a)
    (hdest : ∀ s, ∀ a ∈ g.getD s [], a.dest < g.length) (hactive : active < g.length)
    (hdone : active ∉ S) (l : List GraphArc)
    (hl : ∀ a ∈ l, a ∈ g.getD active []) (h : Settling g weight src S nUnknown (weights active) weights q) :
    ∃ weights' q', l.foldl (Carmel.relaxArc weight active) (weights, q) = (weights', q') ∧
      Settling g weight src S nUnknown (weights' active) weights' q' ∧
      (∀ s ∉ S, s < g.length → weights' s = weights s) ∧ (∀ s, weights' s ≤ weights s) ∧
      ∀ a ∈ l, weights' a.dest ≤ weight a + weights' active := by
  induction l generalizing weights q with
  | nil => exact ⟨weights, q, rfl, h, fun _ _ _ => rfl, fun _ => le_rfl, by simp⟩
  | cons a l ih =>
    have ha := hl a List.mem_cons_self
    obtain ⟨weights₁, q₁, hrun₁, h₁, hkeep₁, hle₁, hstep₁⟩ :=
      h.relaxArc hnonneg ha (hdest _ a ha) hdone
    obtain ⟨weights₂, q₂, hrun₂, h₂, hkeep₂, hle₂, hstep₂⟩ :=
      ih (fun a ha => hl a (List.mem_cons_of_mem _ ha)) h₁
    refine ⟨weights₂, q₂, by rw [List.foldl_cons, hrun₁, hrun₂], h₂, fun s hs hlt => ?_,
      fun s => (hle₂ s).trans (hle₁ s), fun a' ha' => ?_⟩
    · rw [hkeep₂ s hs hlt, hkeep₁ s hs hlt]
    · rcases List.mem_cons.mp ha' with rfl | ha'
      · rw [hkeep₂ active hdone hactive]
        exact (hle₂ _).trans hstep₁
      · exact hstep₂ a' ha'

/-- The main loop ends with weights that no arc can improve. -/
theorem settleStates_spec (hnonneg : ∀ s, ∀ a ∈ g.getD s [], 0 ≤ weight a)
    (hdest : ∀ s, ∀ a ∈ g.getD s [], a.dest < g.length) (n : ℕ)
    (hS : ∀ s ∈ S, s < g.length) (h : Settling g weight src S n b weights q)
    (hstep : ∀ s < g.length, s ∉ S → ∀ a ∈ g.getD s [], weights a.dest ≤ weight a + weights s) :
    Distances (GraphAdj g) weight src (settleStates g weight n (weights, q)) := by
  have hfinish : ∀ weights : ℕ → K, weights src = 0 →
      (∀ s, weights s = ⊤ ∨ ∃ p, Walk (GraphAdj g) src p s ∧ (p.map weight).sum = weights s) →
      (∀ s < g.length, ∀ a ∈ g.getD s [], weights a.dest ≤ weight a + weights s) →
      Distances (GraphAdj g) weight src weights := by
    intro weights hstart hattained hfeasible
    refine .of_feasible hstart.le (fun {s a t} hadj => ?_) hattained
    obtain ⟨ha, rfl⟩ := hadj
    by_cases hs : s < g.length
    · exact hfeasible s hs a ha
    · rw [List.getD_eq_getElem?_getD, List.getElem?_eq_none (Nat.le_of_not_lt hs)] at ha
      exact absurd ha List.not_mem_nil
  induction n generalizing S b weights q with
  | zero =>
    refine hfinish _ h.start h.attained fun s hs => hstep s hs fun hmem => ?_
    obtain ⟨h₁, h₂, -⟩ := h.holds.loc s hmem
    exact absurd (h₁.trans h₂) (by decide)
  | succ n ih =>
    obtain ⟨hactive, -⟩ := h.holds.elem 1 (le_refl _) (by omega)
    -- the first element of the heap is the nearest one
    have hfirst : ∀ s ∈ S, weights (q.elem 1) ≤ weights s := by
      intro s hs
      obtain ⟨h₁, h₂, h₃⟩ := h.holds.loc s hs
      have hle := h.ordered.le h₁ h₂
      rwa [h₃] at hle
    rw [settleStates]
    by_cases htop : weights (q.elem 1) = ⊤
    · rw [if_pos htop]
      refine hfinish _ h.start h.attained fun s hs a ha => ?_
      by_cases hmem : s ∈ S
      · have hs_top : weights s = ⊤ := top_le_iff.mp (htop ▸ hfirst s hmem)
        calc weights a.dest ≤ ⊤ := le_top
          _ = weights s := hs_top.symm
          _ ≤ weight a + weights s := le_add_of_nonneg_left (hnonneg s a ha)
      · exact hstep s hs hmem a ha
    · rw [if_neg htop]
      obtain ⟨hholds, hordered⟩ := IndexedHeap.heapPop_spec h.holds h.ordered
      have hnew : Settling g weight src (S \ {q.elem 1}) n (weights (q.elem 1)) weights
          (q.heapPop weights (n + 1)) := by
        refine ⟨hholds, hordered, fun s hs hnot => ?_, fun s hs => hfirst s hs.1, h.start, h.nonneg,
          h.attained⟩
        by_cases heq : s = q.elem 1
        · rw [heq]
        · exact (h.settled s hs fun hmem => hnot ⟨hmem, heq⟩).trans (h.unsettled _ hactive)
      obtain ⟨weights', q', hrun, h', hkeep, hle, hall⟩ := hnew.foldl_relaxArc hnonneg hdest
        (hS _ hactive) (fun hmem => hmem.2 rfl) (g.getD (q.elem 1) []) fun _ ha => ha
      simp only [hrun]
      refine ih (fun s hs => hS s hs.1) h' fun s hs hnot a ha => ?_
      by_cases heq : s = q.elem 1
      · subst heq
        exact hall a ha
      · rw [hkeep s hnot hs]
        exact (hle _).trans (hstep s hs (fun hmem => hnot ⟨hmem, heq⟩) a ha)

/-- **The search finds the distances**, where no arc has a negative cost. -/
theorem shortestDistancesFrom_spec (hnonneg : ∀ s, ∀ a ∈ g.getD s [], 0 ≤ weight a)
    (hdest : ∀ s, ∀ a ∈ g.getD s [], a.dest < g.length) (hsrc : src < g.length) :
    Distances (GraphAdj g) weight src (shortestDistancesFrom g weight src) := by
  have hself : Function.update (fun _ => (⊤ : K)) src 0 src = 0 := Function.update_self ..
  have hother : ∀ s, s ≠ src → Function.update (fun _ => (⊤ : K)) src 0 s = ⊤ :=
    fun s hs => Function.update_of_ne hs ..
  have hge : ∀ s, 0 ≤ Function.update (fun _ => (⊤ : K)) src 0 s := by
    intro s
    by_cases hs : s = src
    · rw [hs, hself]
    · rw [hother s hs]
      exact le_top
  refine settleStates_spec (S := {s | s < g.length}) (b := 0) hnonneg hdest g.length
    (fun _ hs => hs) ⟨holds_initialQueue hsrc, ordered_initialQueue hother,
      fun s hs hnot => absurd hs hnot, fun s _ => hge s, hself, hge, fun s => ?_⟩
    fun s hs hnot => absurd hs hnot
  by_cases hs : s = src
  · rw [hs, hself]
    exact .inr ⟨[], .nil src, rfl⟩
  · exact .inl (hother s hs)

end Search

end Carmel
