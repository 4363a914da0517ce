/-
# The tree of shortest paths

`shortestDistancesFrom` also records for every state the arc that its distance was last
found by. The search is taken apart into steps, one for each state settled and one for each
arc looked at. The arcs recorded for settled states lead there from the start, by other
settled states.
-/

import Carmel.Graph.ShortestDistances
import Carmel.Math.Runs

namespace Carmel

open Carmel.Math

universe u

section Model

variable {K : Type u} [AddCommMonoid K] [LinearOrder K] [OrderTop K]

/-- Where the search is; `arcs` are those of the state settled last that are still to
be looked at. -/
structure SearchState (K : Type u) where
  dist : ℕ → K
  taken : ℕ → Option GraphArc
  distQueue : IndexedHeap ℕ
  nUnknown : ℕ
  activeState : ℕ
  arcs : List GraphArc

/-- The search before its loop. -/
def beginSearch (nStates src : ℕ) : SearchState K where
  dist := Function.update (fun _ => ⊤) src 0
  taken := fun _ => none
  distQueue := initialQueue nStates src
  nUnknown := nStates
  activeState := src
  arcs := []

/-- Look at one arc. -/
def SearchState.relax (weight : GraphArc → K) (s : SearchState K) (a : GraphArc)
    (arcs : List GraphArc) : SearchState K :=
  let candidate := weight a + s.dist s.activeState
  let (dist, distQueue) := relaxArc weight s.activeState (s.dist, s.distQueue) a
  { s with
    dist := dist
    taken := if candidate < s.dist a.dest then Function.update s.taken a.dest (some a) else s.taken
    distQueue := distQueue
    arcs := arcs }

/-- One step of the search, if it is not at its end. -/
def searchStep (g : List (List GraphArc)) (weight : GraphArc → K) (s : SearchState K) :
    Option (SearchState K) :=
  match s.arcs with
  | a :: arcs => some (s.relax weight a arcs)
  | [] =>
    if s.dist (s.distQueue.elem 1) = ⊤ ∨ s.nUnknown = 0 then none
    else some { s with
      distQueue := s.distQueue.heapPop s.dist s.nUnknown
      nUnknown := s.nUnknown - 1
      activeState := s.distQueue.elem 1
      arcs := g.getD (s.distQueue.elem 1) [] }

/-- The states of the search that its steps lead to. -/
abbrev Searched (g : List (List GraphArc)) (weight : GraphArc → K) (src : ℕ) :
    SearchState K → Prop :=
  Runs (fun _ : Unit => searchStep g weight) (fun _ _ => True) (beginSearch g.length src)

end Model

/-- Taking an arc that was recorded. -/
def TakenAdj (g : List (List GraphArc)) (taken : ℕ → Option GraphArc) (s : ℕ) (a : GraphArc)
    (t : ℕ) : Prop :=
  GraphAdj g s a t ∧ taken t = some a

/-- The arcs of a graph lead from the states that they are listed at to states of the graph. -/
structure IsGraph (g : List (List GraphArc)) : Prop where
  src : ∀ s, ∀ a ∈ g.getD s [], a.src = s
  dest : ∀ s, ∀ a ∈ g.getD s [], a.dest < g.length

section Function

variable {K : Type u} [AddCommMonoid K] [LinearOrder K] [OrderTop K]
variable {g : List (List GraphArc)} {weight : GraphArc → K} {src : ℕ} {s t : SearchState K}

theorem beginSearch_dist_src {n : ℕ} : (beginSearch n src : SearchState K).dist src = 0 := by
  show Function.update (fun _ => (⊤ : K)) src 0 src = 0
  rw [Function.update_self]

theorem beginSearch_dist_of_ne {n v : ℕ} (hv : v ≠ src) :
    (beginSearch n src : SearchState K).dist v = ⊤ := by
  show Function.update (fun _ => (⊤ : K)) src 0 v = ⊤
  rw [Function.update_of_ne hv]

/-- What the search comes to from here. -/
def SearchState.remaining (g : List (List GraphArc)) (weight : GraphArc → K) (s : SearchState K) :
    ℕ → K :=
  settleStates g weight s.nUnknown
    (s.arcs.foldl (relaxArc weight s.activeState) (s.dist, s.distQueue))

theorem remaining_searchStep (h : searchStep g weight s = some t) :
    t.remaining g weight = s.remaining g weight := by
  unfold searchStep at h
  cases harcs : s.arcs with
  | cons a arcs =>
    rw [harcs] at h
    rw [← Option.some.inj h]
    unfold SearchState.remaining
    rw [harcs]
    rfl
  | nil =>
    rw [harcs] at h
    by_cases hend : s.dist (s.distQueue.elem 1) = ⊤ ∨ s.nUnknown = 0
    · simp [hend] at h
    · simp only [hend, if_false, Option.some.injEq] at h
      push Not at hend
      obtain ⟨n, hn⟩ : ∃ n, s.nUnknown = n + 1 := ⟨s.nUnknown - 1, by omega⟩
      rw [← h]
      unfold SearchState.remaining
      rw [harcs, hn, List.foldl_nil, settleStates, if_neg hend.1]
      rfl

theorem remaining_of_end (h : searchStep g weight s = none) : s.remaining g weight = s.dist := by
  unfold searchStep at h
  cases harcs : s.arcs with
  | cons a arcs =>
    rw [harcs] at h
    cases h
  | nil =>
    rw [harcs] at h
    have hend : s.dist (s.distQueue.elem 1) = ⊤ ∨ s.nUnknown = 0 := by
      by_contra hnot
      simp [hnot] at h
    unfold SearchState.remaining
    rw [harcs, List.foldl_nil]
    cases hn : s.nUnknown with
    | zero => rfl
    | succ n =>
      rw [settleStates, if_pos]
      rcases hend with htop | h0
      · exact htop
      · omega

/-- **The steps compute the function.** -/
theorem dist_of_end (hrun : Searched g weight src s) (h : searchStep g weight s = none) :
    s.dist = shortestDistancesFrom g weight src := by
  rw [← remaining_of_end h]
  refine hrun.invariant (P := fun s => s.remaining g weight = shortestDistancesFrom g weight src) rfl ?_
  intro _ t u ht _ hnext
  rw [remaining_searchStep hnext, ht]

/-- From every state the search comes to its end: a step settles a state or has one
arc less to look at. -/
theorem exists_end (hrun : Searched g weight src s) :
    ∃ t, Searched g weight src t ∧ searchStep g weight t = none := by
  induction hn : s.nUnknown using Nat.strongRecOn generalizing s with
  | ind n ih =>
    induction harcs : s.arcs generalizing s with
    | cons a arcs ih' =>
      have hstep : searchStep g weight s = some (s.relax weight a arcs) := by
        rw [searchStep, harcs]
      exact ih' (hrun.step () trivial hstep) hn rfl
    | nil =>
      cases hnext : searchStep g weight s with
      | none => exact ⟨s, hrun, hnext⟩
      | some t =>
        have hlt : t.nUnknown < n := by
          unfold searchStep at hnext
          rw [harcs] at hnext
          by_cases hend : s.dist (s.distQueue.elem 1) = ⊤ ∨ s.nUnknown = 0
          · simp [hend] at hnext
          · simp only [hend, if_false, Option.some.injEq] at hnext
            rw [← hnext]
            push Not at hend
            show s.nUnknown - 1 < n
            omega
        exact ih t.nUnknown hlt (hrun.step () trivial hnext) rfl

end Function

section Records

variable {K : Type u} [AddCommMonoid K] [LinearOrder K] [OrderTop K] [IsOrderedAddMonoid K]
variable {g : List (List GraphArc)} {weight : GraphArc → K} {src : ℕ} {S : Set ℕ} {b : K}
variable {s t : SearchState K} {a : GraphArc} {arcs : List GraphArc}

/-- What holds while `S` are the states that are not settled. -/
structure Searching (g : List (List GraphArc)) (weight : GraphArc → K) (src : ℕ) (S : Set ℕ) (b : K)
    (s : SearchState K) : Prop where
  settling : Settling g weight src S s.nUnknown b s.dist s.distQueue
  states : ∀ v ∈ S, v < g.length
  active : s.arcs ≠ [] → s.activeState ∉ S ∧ s.activeState < g.length ∧ b = s.dist s.activeState
  arcs : ∀ a ∈ s.arcs, a ∈ g.getD s.activeState []
  root : s.taken src = none
  fresh : ∀ v, s.dist v = ⊤ → s.taken v = none
  found : ∀ v, v ≠ src → s.dist v ≠ ⊤ → ∃ u a, GraphAdj g u a v ∧ s.taken v = some a ∧
    u ∉ S ∧ u < g.length ∧ s.dist v = weight a + s.dist u
  path : ∀ v < g.length, v ∉ S → ∃ p,
    Walk (fun x a y => TakenAdj g s.taken x a y ∧ y ∉ S) src p v ∧ (p.map weight).sum = s.dist v

omit [IsOrderedAddMonoid K] in
theorem searching_begin (hsrc : src < g.length) :
    Searching g weight src {v | v < g.length} 0 (beginSearch g.length src) := by
  have hself : (beginSearch g.length src : SearchState K).dist src = 0 := beginSearch_dist_src
  have hother : ∀ v, v ≠ src → (beginSearch g.length src : SearchState K).dist v = ⊤ :=
    fun v => beginSearch_dist_of_ne
  have hge : ∀ v, 0 ≤ (beginSearch g.length src : SearchState K).dist v := by
    intro v
    by_cases hv : v = src
    · rw [hv, hself]
    · rw [hother v hv]
      exact le_top
  constructor
  case settling =>
    refine ⟨holds_initialQueue hsrc, ordered_initialQueue hother, fun v hv hnot => absurd hv hnot,
      fun v _ => hge v, hself, hge, fun v => ?_⟩
    by_cases hv : v = src
    · subst hv
      exact .inr ⟨[], .nil v, hself.symm⟩
    · exact .inl (hother v hv)
  case states => exact fun v hv => hv
  case active => exact fun h => absurd rfl h
  case arcs => exact fun a ha => absurd ha List.not_mem_nil
  case root => rfl
  case fresh => exact fun _ _ => rfl
  case found => exact fun v hv hne => absurd (hother v hv) hne
  case path => exact fun v hv hnot => absurd hv hnot

/-- **One arc.** -/
theorem Searching.relax (h : Searching g weight src S b s) (harcs : s.arcs = a :: arcs)
    (hnonneg : ∀ v, ∀ a ∈ g.getD v [], 0 ≤ weight a) (hgraph : IsGraph g) :
    ∃ b', Searching g weight src S b' (s.relax weight a arcs) := by
  obtain ⟨hdone, hlt, rfl⟩ := h.active (by rw [harcs]; exact List.cons_ne_nil _ _)
  have ha : a ∈ g.getD s.activeState [] := h.arcs a (by rw [harcs]; exact List.mem_cons_self)
  have hdest := hgraph.dest _ a ha
  obtain ⟨dist', queue', hrelax, hsettling, hkeep, hle, hstep⟩ :=
    h.settling.relaxArc hnonneg ha hdest hdone
  have hactive : dist' s.activeState = s.dist s.activeState := hkeep _ hdone hlt
  -- the state with the new arc and its distances
  have hdist : (s.relax weight a arcs).dist = dist' := by
    simp only [SearchState.relax, hrelax]
  have hqueue : (s.relax weight a arcs).distQueue = queue' := by
    simp only [SearchState.relax, hrelax]
  have htaken : (s.relax weight a arcs).taken =
      if weight a + s.dist s.activeState < s.dist a.dest then
        Function.update s.taken a.dest (some a) else s.taken := rfl
  by_cases hnew : weight a + s.dist s.activeState < s.dist a.dest
  · rw [if_pos hnew] at htaken
    have hdist' : dist' = Function.update s.dist a.dest (weight a + s.dist s.activeState) := by
      rw [relaxArc] at hrelax
      simp only [hnew, if_true, Prod.mk.injEq] at hrelax
      exact hrelax.1.symm
    have hmem : a.dest ∈ S := by
      by_contra hnot
      have hsame := hkeep _ hnot hdest
      rw [hdist', Function.update_self] at hsame
      exact absurd hsame hnew.ne
    have hne_src : a.dest ≠ src := by
      intro heq
      rw [heq, h.settling.start] at hnew
      have hle0 : (0 : K) ≤ weight a + s.dist s.activeState :=
        add_nonneg (hnonneg _ a ha) (h.settling.nonneg _)
      exact absurd hle0 (not_le.mpr hnew)
    have htaken_ne : ∀ v, v ≠ a.dest → (s.relax weight a arcs).taken v = s.taken v := by
      intro v hv
      rw [htaken, Function.update_of_ne hv]
    have hdist_ne : ∀ v, v ≠ a.dest → (s.relax weight a arcs).dist v = s.dist v := by
      intro v hv
      rw [hdist, hdist', Function.update_of_ne hv]
    have hdist_self : (s.relax weight a arcs).dist a.dest = weight a + s.dist s.activeState := by
      rw [hdist, hdist', Function.update_self]
    have houtside : ∀ v, v ∉ S → v ≠ a.dest := fun v hv heq => hv (heq ▸ hmem)
    refine ⟨dist' s.activeState, ?_⟩
    constructor
    case settling =>
      rw [hdist, hqueue]
      exact hsettling
    case states => exact h.states
    case active => exact fun _ => ⟨hdone, hlt, by rw [hdist]; rfl⟩
    case arcs => exact fun a' ha' => h.arcs a' (by rw [harcs]; exact List.mem_cons_of_mem _ ha')
    case root =>
      rw [htaken_ne src hne_src.symm]
      exact h.root
    case fresh =>
      intro v hv
      have hne : v ≠ a.dest := by
        rintro rfl
        rw [hdist_self] at hv
        exact absurd hv (ne_top_of_lt hnew)
      rw [hdist_ne v hne] at hv
      rw [htaken_ne v hne]
      exact h.fresh v hv
    case found =>
      intro v hv hfinite
      by_cases heq : v = a.dest
      · subst heq
        refine ⟨s.activeState, a, ⟨ha, rfl⟩, ?_, hdone, hlt, ?_⟩
        · rw [htaken, Function.update_self]
        · rw [hdist_self, hdist_ne _ (houtside _ hdone)]
      · rw [hdist_ne v heq] at hfinite ⊢
        rw [htaken_ne v heq]
        obtain ⟨u, e, hadj, htk, hu, hulen, hsum⟩ := h.found v hv hfinite
        exact ⟨u, e, hadj, htk, hu, hulen, by rw [hsum, hdist_ne u (houtside u hu)]⟩
    case path =>
      intro v hv hnot
      obtain ⟨p, hwalk, hsum⟩ := h.path v hv hnot
      refine ⟨p, hwalk.mono ?_, by rw [hsum, hdist_ne v (houtside v hnot)]⟩
      intro x e y hstep
      refine ⟨⟨hstep.1.1, ?_⟩, hstep.2⟩
      rw [htaken_ne y (houtside y hstep.2)]
      exact hstep.1.2
  · rw [if_neg hnew] at htaken
    have hsame : dist' = s.dist := by
      rw [relaxArc] at hrelax
      simp only [hnew, if_false, Prod.mk.injEq] at hrelax
      exact hrelax.1.symm
    rw [hsame] at hdist hsettling
    refine ⟨s.dist s.activeState, ?_⟩
    constructor
    case settling =>
      rw [hdist, hqueue]
      exact hsettling
    case states => exact h.states
    case active => exact fun _ => ⟨hdone, hlt, by rw [hdist]; rfl⟩
    case arcs => exact fun a' ha' => h.arcs a' (by rw [harcs]; exact List.mem_cons_of_mem _ ha')
    case root =>
      rw [htaken]
      exact h.root
    case fresh =>
      rw [hdist, htaken]
      exact h.fresh
    case found =>
      rw [hdist, htaken]
      exact h.found
    case path =>
      rw [hdist, htaken]
      exact h.path

omit [IsOrderedAddMonoid K] in
/-- **One state settled.** -/
theorem Searching.settle (h : Searching g weight src S b s)
    (htop : s.dist (s.distQueue.elem 1) ≠ ⊤) (hsome : s.nUnknown ≠ 0) :
    Searching g weight src (S \ {s.distQueue.elem 1}) (s.dist (s.distQueue.elem 1))
      { s with
        distQueue := s.distQueue.heapPop s.dist s.nUnknown
        nUnknown := s.nUnknown - 1
        activeState := s.distQueue.elem 1
        arcs := g.getD (s.distQueue.elem 1) [] } := by
  obtain ⟨n, hn⟩ : ∃ n, s.nUnknown = n + 1 := ⟨s.nUnknown - 1, by omega⟩
  have hsettling := h.settling
  rw [hn] at hsettling
  obtain ⟨hactive, _⟩ := hsettling.holds.elem 1 le_rfl (by omega)
  have hfirst : ∀ v ∈ S, s.dist (s.distQueue.elem 1) ≤ s.dist v := by
    intro v hv
    obtain ⟨h₁, h₂, h₃⟩ := hsettling.holds.loc v hv
    have hle := hsettling.ordered.le h₁ h₂
    rwa [h₃] at hle
  obtain ⟨hholds, hordered⟩ := IndexedHeap.heapPop_spec hsettling.holds hsettling.ordered
  have hmono : ∀ v, v ∉ S → v ∉ S \ {s.distQueue.elem 1} := fun v hv hmem => hv hmem.1
  have hself : s.distQueue.elem 1 ∉ S \ {s.distQueue.elem 1} := fun hmem => hmem.2 rfl
  constructor
  case settling =>
    rw [hn]
    refine ⟨hholds, hordered, ?_, fun v hv => hfirst v hv.1, h.settling.start, h.settling.nonneg,
      h.settling.attained⟩
    intro v hv hnot
    by_cases heq : v = s.distQueue.elem 1
    · rw [heq]
    · exact (h.settling.settled v hv fun hmem => hnot ⟨hmem, heq⟩).trans
        (h.settling.unsettled _ hactive)
  case states => exact fun v hv => h.states v hv.1
  case active => exact fun _ => ⟨hself, h.states _ hactive, rfl⟩
  case arcs => exact fun a ha => ha
  case root => exact h.root
  case fresh => exact h.fresh
  case found =>
    intro v hv hfinite
    obtain ⟨u, e, hadj, htaken, hu, hulen, hsum⟩ := h.found v hv hfinite
    exact ⟨u, e, hadj, htaken, hmono u hu, hulen, hsum⟩
  case path =>
    intro v hv hnot
    have hweaken : ∀ {x e y}, TakenAdj g s.taken x e y ∧ y ∉ S →
        TakenAdj g s.taken x e y ∧ y ∉ S \ {s.distQueue.elem 1} :=
      fun hstep => ⟨hstep.1, hmono _ hstep.2⟩
    by_cases heq : v = s.distQueue.elem 1
    · by_cases hv_src : v = src
      · refine ⟨[], ?_, ?_⟩
        · rw [hv_src]
          exact .nil src
        · rw [hv_src]
          exact h.settling.start.symm
      · -- by the arc taken, from a state settled before
        obtain ⟨u, e, hadj, htaken, hu, hulen, hsum⟩ := h.found v hv_src (heq ▸ htop)
        obtain ⟨p, hwalk, hcost⟩ := h.path u hulen hu
        refine ⟨p ++ [e], (hwalk.mono hweaken).append (.single ⟨⟨hadj, htaken⟩, hnot⟩), ?_⟩
        rw [List.map_append, List.sum_append, hcost, List.map_singleton, List.sum_singleton,
          add_comm]
        exact hsum.symm
    · obtain ⟨p, hwalk, hcost⟩ := h.path v hv fun hmem => hnot ⟨hmem, heq⟩
      exact ⟨p, hwalk.mono hweaken, hcost⟩

theorem exists_searching (hnonneg : ∀ v, ∀ a ∈ g.getD v [], 0 ≤ weight a) (hgraph : IsGraph g)
    (hsrc : src < g.length) (hrun : Searched g weight src s) :
    ∃ S b, Searching g weight src S b s := by
  refine hrun.invariant (P := fun s => ∃ S b, Searching g weight src S b s)
    ⟨_, _, searching_begin hsrc⟩ ?_
  intro _ t u ht _ hnext
  obtain ⟨S, b, ht⟩ := ht
  have hnext : searchStep g weight t = some u := hnext
  unfold searchStep at hnext
  cases harcs : t.arcs with
  | cons a arcs =>
    rw [harcs] at hnext
    rw [← Option.some.inj hnext]
    obtain ⟨b', h⟩ := ht.relax harcs hnonneg hgraph
    exact ⟨S, b', h⟩
  | nil =>
    rw [harcs] at hnext
    by_cases hend : t.dist (t.distQueue.elem 1) = ⊤ ∨ t.nUnknown = 0
    · simp [hend] at hnext
    · simp only [hend, if_false, Option.some.injEq] at hnext
      push Not at hend
      rw [← hnext]
      exact ⟨_, _, ht.settle hend.1 hend.2⟩

end Records

section Tree

variable {R : Type u} [AddCommMonoid R] [LinearOrder R] [IsOrderedAddMonoid R]
variable {g : List (List GraphArc)} {weight : GraphArc → WithTop R} {src : ℕ}

/-- The queue: where the states are that it holds is known, and none is before a nearer one. -/
def Consistent (s : SearchState (WithTop R)) : Prop :=
  ∃ S : Set ℕ, s.distQueue.Holds s.nUnknown S ∧ s.distQueue.Ordered s.dist s.nUnknown

/-- The arcs taken are a tree of shortest paths, to the states that arcs of finite cost
lead to. -/
structure ShortestPathTree (g : List (List GraphArc)) (weight : GraphArc → WithTop R) (src : ℕ)
    (dist : ℕ → WithTop R) (taken : ℕ → Option GraphArc) : Prop where
  root : taken src = none
  reached : ∀ v, (v = src ∨ taken v ≠ none) ↔
    Reaches (fun s a t => GraphAdj g s a t ∧ weight a ≠ ⊤) src v
  path : ∀ v, v = src ∨ taken v ≠ none →
    ∃! p, Walk (TakenAdj g taken) src p v ∧ (p.map weight).sum = dist v

/-- Where every state has at most one arc into it, and the start none, there is at most
one way to a state. -/
theorem Walk.eq_of_taken {taken : ℕ → Option GraphArc} {v : ℕ} {p q : List GraphArc}
    (hgraph : IsGraph g) (hroot : taken src = none) (hp : Walk (TakenAdj g taken) src p v)
    (hq : Walk (TakenAdj g taken) src q v) : p = q := by
  induction p using List.reverseRecOn generalizing v q with
  | nil =>
    cases q using List.reverseRecOn with
    | nil => rfl
    | append_singleton q e =>
      obtain ⟨m, _, hlast⟩ := Walk.concat_iff.mp hq
      have htaken := hlast.2
      rw [← Walk.nil_iff.mp hp, hroot] at htaken
      cases htaken
  | append_singleton p e ih =>
    obtain ⟨m, hp', hlast⟩ := Walk.concat_iff.mp hp
    cases q using List.reverseRecOn with
    | nil =>
      have htaken := hlast.2
      rw [← Walk.nil_iff.mp hq, hroot] at htaken
      cases htaken
    | append_singleton q e' =>
      obtain ⟨m', hq', hlast'⟩ := Walk.concat_iff.mp hq
      have he : e = e' := Option.some.inj (hlast.2.symm.trans hlast'.2)
      subst he
      have hm : m = m' := (hgraph.src m e hlast.1.1).symm.trans (hgraph.src m' e hlast'.1.1)
      subst hm
      rw [ih hp' hq']

omit [LinearOrder R] [IsOrderedAddMonoid R] in
theorem reaches_of_sum_ne_top {adj : ℕ → GraphArc → ℕ → Prop} {u v : ℕ} {p : List GraphArc}
    (hwalk : Walk adj u p v) (hsum : (p.map weight).sum ≠ ⊤) :
    Reaches (fun s a t => adj s a t ∧ weight a ≠ ⊤) u v := by
  induction hwalk with
  | nil u => exact .refl u
  | cons hstep _ ih =>
    rw [List.map_cons, List.sum_cons, WithTop.add_ne_top] at hsum
    exact .head ⟨hstep, hsum.1⟩ (ih hsum.2)

omit [LinearOrder R] [IsOrderedAddMonoid R] in
theorem sum_ne_top_of_walk {adj : ℕ → GraphArc → ℕ → Prop} {u v : ℕ} {p : List GraphArc}
    (hwalk : Walk (fun s a t => adj s a t ∧ weight a ≠ ⊤) u p v) :
    Walk adj u p v ∧ (p.map weight).sum ≠ ⊤ := by
  induction hwalk with
  | nil u => exact ⟨.nil u, WithTop.zero_ne_top⟩
  | cons hstep _ ih =>
    rw [List.map_cons, List.sum_cons, WithTop.add_ne_top]
    exact ⟨.cons hstep.1 ih.1, hstep.2, ih.2⟩

omit [IsOrderedAddMonoid R] in
theorem Searching.not_mem_of_end {S : Set ℕ} {b : WithTop R} {s : SearchState (WithTop R)}
    (h : Searching g weight src S b s) (hend : searchStep g weight s = none) {v : ℕ}
    (hv : s.dist v ≠ ⊤) : v ∉ S := by
  intro hmem
  obtain ⟨h₁, h₂, h₃⟩ := h.settling.holds.loc v hmem
  have hle := h.settling.ordered.le h₁ h₂
  rw [h₃] at hle
  unfold searchStep at hend
  cases harcs : s.arcs with
  | cons a arcs =>
    rw [harcs] at hend
    cases hend
  | nil =>
    rw [harcs] at hend
    have hstop : s.dist (s.distQueue.elem 1) = ⊤ ∨ s.nUnknown = 0 := by
      by_contra hnot
      simp [hnot] at hend
    rcases hstop with htop | h0
    · rw [htop, top_le_iff] at hle
      exact hv hle
    · omega

omit [IsOrderedAddMonoid R] in
theorem Searching.shortestPathTree {S : Set ℕ} {b : WithTop R} {s : SearchState (WithTop R)}
    (h : Searching g weight src S b s) (hend : searchStep g weight s = none) (hgraph : IsGraph g)
    (hsrc : src < g.length) (hdistances : Distances (GraphAdj g) weight src s.dist) :
    ShortestPathTree g weight src s.dist s.taken := by
  have hfinite : ∀ v, (v = src ∨ s.taken v ≠ none) ↔ s.dist v ≠ ⊤ := by
    intro v
    constructor
    · intro hv
      rcases hv with rfl | hv
      · rw [h.settling.start]
        exact WithTop.zero_ne_top
      · exact fun htop => hv (h.fresh v htop)
    · intro hv
      by_cases heq : v = src
      · exact .inl heq
      · obtain ⟨u, a, _, htaken, _⟩ := h.found v heq hv
        exact .inr (by rw [htaken]; exact Option.some_ne_none a)
  constructor
  case root => exact h.root
  case reached =>
    intro v
    rw [hfinite v]
    constructor
    · intro hv
      rcases hdistances.attained v with htop | ⟨p, hwalk, hsum⟩
      · exact absurd htop hv
      · exact reaches_of_sum_ne_top hwalk (hsum ▸ hv)
    · intro ⟨p, hwalk⟩
      obtain ⟨hwalk', hsum⟩ := sum_ne_top_of_walk hwalk
      exact ne_top_of_le_ne_top hsum (hdistances.le hwalk')
  case path =>
    intro v hv
    have hv' := (hfinite v).mp hv
    have hlt : v < g.length := by
      by_cases heq : v = src
      · rw [heq]
        exact hsrc
      · obtain ⟨u, a, hadj, _⟩ := h.found v heq hv'
        rw [← hadj.2]
        exact hgraph.dest u a hadj.1
    obtain ⟨p, hwalk, hsum⟩ := h.path v hlt (h.not_mem_of_end hend hv')
    have hwalk' : Walk (TakenAdj g s.taken) src p v := hwalk.mono fun hstep => hstep.1
    exact ⟨p, ⟨hwalk', hsum⟩, fun q hq => Walk.eq_of_taken hgraph h.root hq.1 hwalk'⟩

/-- **The search**: the queue is consistent after every step, and at its end the search
has the distances and a tree of shortest paths. -/
theorem shortestDistancesFrom_tree (hgraph : IsGraph g) (hsrc : src < g.length)
    (hnonneg : ∀ v, ∀ a ∈ g.getD v [], 0 ≤ weight a) :
    (∀ s, Searched g weight src s → Consistent s) ∧
      ∃ s, Searched g weight src s ∧ searchStep g weight s = none ∧
        s.dist = shortestDistancesFrom g weight src ∧
        Distances (GraphAdj g) weight src s.dist ∧
        ShortestPathTree g weight src s.dist s.taken := by
  constructor
  · intro s hrun
    obtain ⟨S, b, h⟩ := exists_searching hnonneg hgraph hsrc hrun
    exact ⟨S, h.settling.holds, h.settling.ordered⟩
  · obtain ⟨s, hrun, hend⟩ := exists_end (.start : Searched g weight src (beginSearch g.length src))
    have hdist := dist_of_end hrun hend
    have hdistances : Distances (GraphAdj g) weight src s.dist := by
      rw [hdist]
      exact shortestDistancesFrom_spec hnonneg hgraph.dest hsrc
    obtain ⟨S, b, h⟩ := exists_searching hnonneg hgraph hsrc hrun
    exact ⟨s, hrun, hend, hdist, hdistances, h.shortestPathTree hend hgraph hsrc hdistances⟩

end Tree

/-- Two ways to a state, and a third arc back to the start. -/
def twoWays : List (List GraphArc) := [[⟨0, 1, 0⟩, ⟨0, 2, 1⟩], [⟨1, 0, 2⟩], [⟨2, 1, 3⟩]]

/-- The arc costs: the direct way to state 1 costs 5, the other way 1 + 2. -/
def twoWaysCost (a : GraphArc) : WithTop ℕ := [(5 : WithTop ℕ), 1, 0, 2].getD a.id ⊤

/-- The tree of the graph with two ways. -/
theorem shortestDistancesFrom_tree_twoWays :
    ∃ s, Searched twoWays twoWaysCost 0 s ∧ searchStep twoWays twoWaysCost s = none ∧
      ShortestPathTree twoWays twoWaysCost 0 s.dist s.taken := by
  have hget : ∀ v, ∀ a ∈ twoWays.getD v [], a.src = v ∧ a.dest < 3 := by
    intro v a ha
    match v with
    | 0 => exact (by decide : ∀ a ∈ twoWays.getD 0 [], a.src = 0 ∧ a.dest < 3) a ha
    | 1 => exact (by decide : ∀ a ∈ twoWays.getD 1 [], a.src = 1 ∧ a.dest < 3) a ha
    | 2 => exact (by decide : ∀ a ∈ twoWays.getD 2 [], a.src = 2 ∧ a.dest < 3) a ha
    | v + 3 => exact absurd ha List.not_mem_nil
  have hgraph : IsGraph twoWays := ⟨fun v a ha => (hget v a ha).1, fun v a ha => (hget v a ha).2⟩
  have hnonneg : ∀ v, ∀ a ∈ twoWays.getD v [], 0 ≤ twoWaysCost a := fun _ _ _ => zero_le
  obtain ⟨_, s, hrun, hend, _, _, htree⟩ :=
    shortestDistancesFrom_tree hgraph (by decide : 0 < twoWays.length) hnonneg
  exact ⟨s, hrun, hend, htree⟩

end Carmel
