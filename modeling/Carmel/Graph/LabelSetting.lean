/-
# The search with costs of either sign

`shortestDistancesFrom` settles every state once. With negative costs a settled state's cost
may be lowered still, but the arcs out of it are not looked at again, and the place recorded
for it is the front, from where nothing moves. What the search finds is the cost of a path,
and no more than that of any path of nonnegative arcs.
-/

import Carmel.Graph.ShortestPathTree

namespace Carmel

open Carmel.Math

universe u

variable {K : Type u} [AddCommMonoid K] [LinearOrder K] [OrderTop K]
variable {g : List (List GraphArc)} {weight : GraphArc → K} {src v : ℕ} {S : Set ℕ} {key : ℕ → K}
variable {s : SearchState K} {a : GraphArc} {arcs p : List GraphArc}

/-- An arc that costs nothing less than zero. -/
def NonnegAdj (g : List (List GraphArc)) (weight : GraphArc → K) (s : ℕ) (a : GraphArc) (t : ℕ) :
    Prop :=
  GraphAdj g s a t ∧ 0 ≤ weight a

/-- What holds while `S` are the states that are not settled; `key` is the cost at which
each of the others was. -/
structure LabelSetting (g : List (List GraphArc)) (weight : GraphArc → K) (src : ℕ) (S : Set ℕ)
    (key : ℕ → K) (s : SearchState K) : Prop where
  holds : s.distQueue.Holds s.nUnknown S
  ordered : s.distQueue.Ordered s.dist s.nUnknown
  front : s.distQueue.loc (s.distQueue.elem 1) = 1
  stale : ∀ v < g.length, v ∉ S → s.distQueue.loc v = 1
  states : ∀ v ∈ S, v < g.length
  active : s.arcs ≠ [] → s.activeState ∉ S ∧ s.activeState < g.length
  arcs : ∀ a ∈ s.arcs, a ∈ g.getD s.activeState []
  start : s.dist src ≤ 0
  le_key : ∀ v < g.length, v ∉ S → s.dist v ≤ key v
  key_ne_top : ∀ v < g.length, v ∉ S → key v ≠ ⊤
  relaxed : ∀ u < g.length, u ∉ S → ∀ a ∈ g.getD u [],
    (u = s.activeState ∧ a ∈ s.arcs) ∨ s.dist a.dest ≤ weight a + key u
  bounded : ∀ v < g.length, v ∉ S → ∀ p, Walk (NonnegAdj g weight) src p v →
    key v ≤ (p.map weight).sum
  attained : ∀ v, s.dist v = ⊤ ∨ ∃ p, Walk (GraphAdj g) src p v ∧ (p.map weight).sum = s.dist v
  found : ∀ v, v ≠ src → s.dist v ≠ ⊤ → ∃ u a, GraphAdj g u a v ∧ s.taken v = some a ∧
    s.dist u ≠ ⊤ ∧ weight a + s.dist u ≤ s.dist v
  fresh : ∀ v, s.dist v = ⊤ → s.taken v = none

theorem labelSetting_begin (hsrc : src < g.length) :
    LabelSetting g weight src {v | v < g.length} (fun _ => ⊤) (beginSearch g.length src) := by
  have hself : (beginSearch g.length src : SearchState K).dist src = 0 := beginSearch_dist_src
  have hother : ∀ v, v ≠ src → (beginSearch g.length src : SearchState K).dist v = ⊤ :=
    fun v => beginSearch_dist_of_ne
  have hholds := holds_initialQueue hsrc
  constructor
  case holds => exact hholds
  case ordered => exact ordered_initialQueue hother
  case front => exact (hholds.elem 1 le_rfl (by omega)).2
  case stale => exact fun v hv hnot => absurd hv hnot
  case states => exact fun v hv => hv
  case active => exact fun h => absurd rfl h
  case arcs => exact fun a ha => absurd ha List.not_mem_nil
  case start => exact hself.le
  case le_key => exact fun v hv hnot => absurd hv hnot
  case key_ne_top => exact fun v hv hnot => absurd hv hnot
  case relaxed => exact fun v hv hnot => absurd hv hnot
  case bounded => exact fun v hv hnot => absurd hv hnot
  case attained =>
    intro v
    by_cases hv : v = src
    · subst hv
      exact .inr ⟨[], .nil v, hself.symm⟩
    · exact .inl (hother v hv)
  case found => exact fun v hv hne => absurd (hother v hv) hne
  case fresh => exact fun _ _ => rfl

omit [AddCommMonoid K] [OrderTop K] in
/-- From the front nothing moves. -/
theorem heapAdjustUp_front {q : IndexedHeap ℕ} (dist : ℕ → K) (h : q.loc (q.elem 1) = 1) :
    q.heapAdjustUp dist 1 = q := by
  have hup : q.heapAdjustUp dist 1 = q.put 1 (q.elem 1) := rfl
  rw [hup]
  unfold IndexedHeap.put
  have helem : Function.update q.elem 1 (q.elem 1) = q.elem := Function.update_eq_self 1 q.elem
  have hloc : Function.update q.loc (q.elem 1) 1 = q.loc :=
    calc Function.update q.loc (q.elem 1) 1 = Function.update q.loc (q.elem 1) (q.loc (q.elem 1)) := by
          rw [h]
      _ = q.loc := Function.update_eq_self (q.elem 1) q.loc
  rw [helem, hloc]

/-- The queue after a state has got a smaller cost, settled or not. -/
theorem LabelSetting.heapAdjustUp (h : LabelSetting g weight src S key s) (hv : v < g.length) {c : K}
    (hle : c ≤ s.dist v) :
    (s.distQueue.heapAdjustUp (Function.update s.dist v c) (s.distQueue.loc v)).Holds s.nUnknown S ∧
      (s.distQueue.heapAdjustUp (Function.update s.dist v c) (s.distQueue.loc v)).Ordered
        (Function.update s.dist v c) s.nUnknown ∧
      (s.distQueue.heapAdjustUp (Function.update s.dist v c) (s.distQueue.loc v)).loc
        ((s.distQueue.heapAdjustUp (Function.update s.dist v c) (s.distQueue.loc v)).elem 1) = 1 ∧
      ∀ u < g.length, u ∉ S →
        (s.distQueue.heapAdjustUp (Function.update s.dist v c) (s.distQueue.loc v)).loc u = 1 := by
  by_cases hmem : v ∈ S
  · obtain ⟨hholds, hordered⟩ := heapAdjustUp_update h.holds h.ordered hmem hle
    obtain ⟨h₁, h₂, _⟩ := h.holds.loc v hmem
    have hmoves : IndexedHeap.MovesOnly S s.nUnknown s.distQueue
        (s.distQueue.heapAdjustUp (Function.update s.dist v c) (s.distQueue.loc v)) :=
      IndexedHeap.movesOnly_heapAdjustUp (fun i hi hi' => (h.holds.elem i hi hi').1) h₁ h₂
    refine ⟨hholds, hordered, (hholds.elem 1 le_rfl (by omega)).2, ?_⟩
    intro u hu hnot
    rw [hmoves.2 u hnot]
    exact h.stale u hu hnot
  · rw [h.stale v hv hmem, heapAdjustUp_front _ h.front]
    refine ⟨h.holds, ?_, h.front, h.stale⟩
    intro i hi hi'
    have hne : ∀ j, 1 ≤ j → j ≤ s.nUnknown → s.distQueue.elem j ≠ v := by
      intro j hj hj' heq
      exact hmem (heq ▸ (h.holds.elem j hj hj').1)
    rw [Function.update_of_ne (hne _ (by omega) (by omega)), Function.update_of_ne (hne i (by omega) hi')]
    exact h.ordered i hi hi'

variable [IsOrderedAddMonoid K]

/-- **One arc**, whatever it costs. -/
theorem LabelSetting.relax (h : LabelSetting g weight src S key s) (harcs : s.arcs = a :: arcs)
    (hgraph : IsGraph g) : LabelSetting g weight src S key (s.relax weight a arcs) := by
  obtain ⟨hdone, hlt⟩ := h.active (by rw [harcs]; exact List.cons_ne_nil _ _)
  have ha : a ∈ g.getD s.activeState [] := h.arcs a (by rw [harcs]; exact List.mem_cons_self)
  have hdest := hgraph.dest _ a ha
  have hrest : ∀ u a', (u = s.activeState ∧ a' ∈ s.arcs) → (u = s.activeState ∧ a' ∈ arcs) ∨
      (u = s.activeState ∧ a' = a) := by
    intro u a' ⟨hu, ha'⟩
    rw [harcs] at ha'
    rcases List.mem_cons.mp ha' with heq | hmem
    · exact .inr ⟨hu, heq⟩
    · exact .inl ⟨hu, hmem⟩
  have hkey := h.le_key _ hlt hdone
  by_cases hnew : weight a + s.dist s.activeState < s.dist a.dest
  · have hrelax : s.relax weight a arcs = { s with
        dist := Function.update s.dist a.dest (weight a + s.dist s.activeState)
        taken := Function.update s.taken a.dest (some a)
        distQueue := s.distQueue.heapAdjustUp
          (Function.update s.dist a.dest (weight a + s.dist s.activeState)) (s.distQueue.loc a.dest)
        arcs := arcs } := by
      simp only [SearchState.relax, relaxArc, hnew, if_true]
    generalize hc : weight a + s.dist s.activeState = c at hnew hrelax
    obtain ⟨hholds, hordered, hfront, hstale⟩ := h.heapAdjustUp hdest hnew.le
    have hself : Function.update s.dist a.dest c a.dest = c := Function.update_self ..
    have hother : ∀ v, v ≠ a.dest → Function.update s.dist a.dest c v = s.dist v :=
      fun v hv => Function.update_of_ne hv ..
    have hle : ∀ v, Function.update s.dist a.dest c v ≤ s.dist v := by
      intro v
      by_cases hv : v = a.dest
      · rw [hv, hself]
        exact hnew.le
      · rw [hother v hv]
    have hne_top : s.dist s.activeState ≠ ⊤ := ne_top_of_le_ne_top (h.key_ne_top _ hlt hdone) hkey
    rw [hrelax]
    constructor
    case holds => exact hholds
    case ordered => exact hordered
    case front => exact hfront
    case stale => exact hstale
    case states => exact h.states
    case active => exact fun _ => ⟨hdone, hlt⟩
    case arcs => exact fun a' ha' => h.arcs a' (by rw [harcs]; exact List.mem_cons_of_mem _ ha')
    case start => exact (hle src).trans h.start
    case le_key => exact fun v hv hnot => (hle v).trans (h.le_key v hv hnot)
    case key_ne_top => exact h.key_ne_top
    case relaxed =>
      intro u hu hnot a' ha'
      rcases h.relaxed u hu hnot a' ha' with hpending | hdone'
      · rcases hrest u a' hpending with hleft | ⟨rfl, rfl⟩
        · exact .inl hleft
        · refine .inr ?_
          show Function.update s.dist a'.dest c a'.dest ≤ _
          rw [hself, ← hc]
          exact add_le_add le_rfl hkey
      · exact .inr ((hle _).trans hdone')
    case bounded => exact h.bounded
    case attained =>
      intro v
      by_cases hv : v = a.dest
      · subst hv
        rcases h.attained s.activeState with htop | ⟨p, hwalk, hsum⟩
        · exact absurd htop hne_top
        · refine .inr ⟨p ++ [a], hwalk.append (.single ⟨ha, rfl⟩), ?_⟩
          show _ = Function.update s.dist a.dest c a.dest
          rw [hself, List.map_append, List.sum_append, List.map_singleton, List.sum_singleton, hsum,
            add_comm, hc]
      · rcases h.attained v with htop | hfinite
        · exact .inl ((hother v hv).trans htop)
        · refine .inr ?_
          show ∃ p, _ ∧ _ = Function.update s.dist a.dest c v
          rw [hother v hv]
          exact hfinite
    case found =>
      intro v hv hfinite
      by_cases heq : v = a.dest
      · subst heq
        refine ⟨s.activeState, a, ⟨ha, rfl⟩, Function.update_self .., ?_, ?_⟩
        · exact ne_top_of_le_ne_top hne_top (hle _)
        · calc weight a + Function.update s.dist a.dest c s.activeState ≤
                weight a + s.dist s.activeState := add_le_add le_rfl (hle _)
            _ = c := hc
            _ = Function.update s.dist a.dest c a.dest := hself.symm
      · have hfinite' : s.dist v ≠ ⊤ := fun htop => hfinite ((hother v heq).trans htop)
        obtain ⟨u, e, hadj, htaken, hne, hsum⟩ := h.found v hv hfinite'
        refine ⟨u, e, hadj, (Function.update_of_ne heq ..).trans htaken,
          ne_top_of_le_ne_top hne (hle u), ?_⟩
        calc weight e + Function.update s.dist a.dest c u ≤ weight e + s.dist u :=
              add_le_add le_rfl (hle u)
          _ ≤ s.dist v := hsum
          _ = Function.update s.dist a.dest c v := (hother v heq).symm
    case fresh =>
      intro v hv
      have hne : v ≠ a.dest := by
        rintro rfl
        exact ne_top_of_lt hnew (hself.symm.trans hv)
      exact (Function.update_of_ne hne ..).trans (h.fresh v ((hother v hne).symm.trans hv))
  · have hrelax : s.relax weight a arcs = { s with arcs := arcs } := by
      simp only [SearchState.relax, relaxArc, hnew, if_false]
    rw [hrelax]
    constructor
    case relaxed =>
      intro u hu hnot a' ha'
      rcases h.relaxed u hu hnot a' ha' with hpending | hdone'
      · rcases hrest u a' hpending with hleft | ⟨rfl, rfl⟩
        · exact .inl hleft
        · exact .inr ((not_lt.mp hnew).trans (add_le_add le_rfl hkey))
      · exact .inr hdone'
    case active => exact fun _ => ⟨hdone, hlt⟩
    case arcs => exact fun a' ha' => h.arcs a' (by rw [harcs]; exact List.mem_cons_of_mem _ ha')
    case holds => exact h.holds
    case ordered => exact h.ordered
    case front => exact h.front
    case stale => exact h.stale
    case states => exact h.states
    case start => exact h.start
    case le_key => exact h.le_key
    case key_ne_top => exact h.key_ne_top
    case bounded => exact h.bounded
    case attained => exact h.attained
    case found => exact h.found
    case fresh => exact h.fresh

/-- When no arc is left to look at, some state in the queue costs no more than a path of
nonnegative arcs to a state in the queue. -/
theorem LabelSetting.exists_le (h : LabelSetting g weight src S key s) (harcs : s.arcs = [])
    (hwalk : Walk (NonnegAdj g weight) src p v) (hv : v ∈ S) :
    ∃ w ∈ S, s.dist w ≤ (p.map weight).sum := by
  induction p using List.reverseRecOn generalizing v with
  | nil =>
    rw [← Walk.nil_iff.mp hwalk] at hv
    exact ⟨src, hv, h.start⟩
  | append_singleton p a ih =>
    obtain ⟨u, hwalk', ⟨ha, rfl⟩, hnonneg⟩ := Walk.concat_iff.mp hwalk
    have hsum : ((p ++ [a]).map weight).sum = weight a + (p.map weight).sum := by
      rw [List.map_append, List.sum_append, List.map_singleton, List.sum_singleton, add_comm]
    rw [hsum]
    by_cases hu : u ∈ S
    · obtain ⟨w, hw, hle⟩ := ih hwalk' hu
      exact ⟨w, hw, hle.trans (le_add_of_nonneg_left hnonneg)⟩
    · have hulen : u < g.length := by
        by_contra hge
        rw [List.getD_eq_getElem?_getD, List.getElem?_eq_none (Nat.le_of_not_lt hge)] at ha
        exact absurd ha List.not_mem_nil
      refine ⟨a.dest, hv, ?_⟩
      rcases h.relaxed u hulen hu a ha with ⟨_, hmem⟩ | hle
      · rw [harcs] at hmem
        exact absurd hmem List.not_mem_nil
      · exact hle.trans (add_le_add le_rfl (h.bounded u hulen hu p hwalk'))

/-- **One state settled**, at the cost it has then. -/
theorem LabelSetting.settle (h : LabelSetting g weight src S key s) (harcs : s.arcs = [])
    (htop : s.dist (s.distQueue.elem 1) ≠ ⊤)
    (hsome : s.nUnknown ≠ 0) :
    LabelSetting g weight src (S \ {s.distQueue.elem 1})
      (Function.update key (s.distQueue.elem 1) (s.dist (s.distQueue.elem 1)))
      { s with
        distQueue := s.distQueue.heapPop s.dist s.nUnknown
        nUnknown := s.nUnknown - 1
        activeState := s.distQueue.elem 1
        arcs := g.getD (s.distQueue.elem 1) [] } := by
  obtain ⟨n, hn⟩ : ∃ n, s.nUnknown = n + 1 := ⟨s.nUnknown - 1, by omega⟩
  have hholds := h.holds
  have hordered := h.ordered
  rw [hn] at hholds hordered
  obtain ⟨hactive, hloc⟩ := hholds.elem 1 le_rfl (by omega)
  have hfirst : ∀ v ∈ S, s.dist (s.distQueue.elem 1) ≤ s.dist v := by
    intro v hv
    obtain ⟨h₁, h₂, h₃⟩ := hholds.loc v hv
    have hle := hordered.le h₁ h₂
    rwa [h₃] at hle
  obtain ⟨hholds', hordered'⟩ := IndexedHeap.heapPop_spec hholds hordered
  have hstale : ∀ v < g.length, v ∉ S \ {s.distQueue.elem 1} →
      (s.distQueue.heapPop s.dist (n + 1)).loc v = 1 := by
    intro v hv hnot
    rw [IndexedHeap.heapPop_loc hholds hnot]
    by_cases heq : v = s.distQueue.elem 1
    · rw [heq]
      exact hloc
    · exact h.stale v hv fun hmem => hnot ⟨hmem, heq⟩
  have hself : s.distQueue.elem 1 ∉ S \ {s.distQueue.elem 1} := fun hmem => hmem.2 rfl
  -- a settled state other than the new one was settled before
  have hbefore : ∀ v, v ∉ S \ {s.distQueue.elem 1} → v ≠ s.distQueue.elem 1 → v ∉ S ∧
      Function.update key (s.distQueue.elem 1) (s.dist (s.distQueue.elem 1)) v = key v :=
    fun v hnot hne => ⟨fun hmem => hnot ⟨hmem, hne⟩, Function.update_of_ne hne ..⟩
  have hnew : Function.update key (s.distQueue.elem 1) (s.dist (s.distQueue.elem 1))
      (s.distQueue.elem 1) = s.dist (s.distQueue.elem 1) := Function.update_self ..
  constructor
  case holds =>
    rw [hn]
    exact hholds'
  case ordered =>
    rw [hn]
    exact hordered'
  case front =>
    rw [hn]
    by_cases hpos : 1 ≤ n
    · exact (hholds'.elem 1 le_rfl hpos).2
    · obtain rfl : n = 0 := by omega
      have hpop : s.distQueue.heapPop s.dist (0 + 1) = s.distQueue.put 1 (s.distQueue.elem 1) := by
        have hput : (s.distQueue.put 1 (s.distQueue.elem 1)).elem 1 = s.distQueue.elem 1 :=
          IndexedHeap.put_elem_self
        rw [IndexedHeap.heapPop, IndexedHeap.heapify, hput]
        exact IndexedHeap.put_put_self
      rw [hpop, IndexedHeap.put_elem_self, IndexedHeap.put_loc_self]
  case stale =>
    rw [hn]
    exact hstale
  case states => exact fun v hv => h.states v hv.1
  case active => exact fun _ => ⟨hself, h.states _ hactive⟩
  case arcs => exact fun a ha => ha
  case start => exact h.start
  case le_key =>
    intro v hv hnot
    by_cases heq : v = s.distQueue.elem 1
    · rw [heq, hnew]
    · obtain ⟨hnot', hsame⟩ := hbefore v hnot heq
      rw [hsame]
      exact h.le_key v hv hnot'
  case key_ne_top =>
    intro v hv hnot
    by_cases heq : v = s.distQueue.elem 1
    · rw [heq, hnew]
      exact htop
    · obtain ⟨hnot', hsame⟩ := hbefore v hnot heq
      rw [hsame]
      exact h.key_ne_top v hv hnot'
  case relaxed =>
    intro u hu hnot a ha
    by_cases heq : u = s.distQueue.elem 1
    · exact .inl ⟨heq, heq ▸ ha⟩
    · obtain ⟨hnot', hsame⟩ := hbefore u hnot heq
      rw [hsame]
      rcases h.relaxed u hu hnot' a ha with ⟨_, hmem⟩ | hle
      · rw [harcs] at hmem
        exact absurd hmem List.not_mem_nil
      · exact .inr hle
  case bounded =>
    intro v hv hnot p hwalk
    by_cases heq : v = s.distQueue.elem 1
    · subst heq
      rw [hnew]
      obtain ⟨w, hw, hle⟩ := h.exists_le harcs hwalk hactive
      exact (hfirst w hw).trans hle
    · obtain ⟨hnot', hsame⟩ := hbefore v hnot heq
      rw [hsame]
      exact h.bounded v hv hnot' p hwalk
  case attained => exact h.attained
  case found => exact h.found
  case fresh => exact h.fresh

/-- What holds in every state of the search. -/
theorem exists_labelSetting (hgraph : IsGraph g) (hsrc : src < g.length)
    (hrun : Searched g weight src s) : ∃ S key, LabelSetting g weight src S key s := by
  refine hrun.invariant (P := fun s => ∃ S key, LabelSetting g weight src S key s)
    ⟨_, _, labelSetting_begin hsrc⟩ ?_
  intro _ t u ht _ hnext
  obtain ⟨S, key, ht⟩ := ht
  have hnext : searchStep g weight t = some u := hnext
  unfold searchStep at hnext
  cases harcs : t.arcs with
  | cons a arcs =>
    rw [harcs] at hnext
    rw [← Option.some.inj hnext]
    exact ⟨S, key, ht.relax harcs hgraph⟩
  | nil =>
    rw [harcs] at hnext
    by_cases hend : t.dist (t.distQueue.elem 1) = ⊤ ∨ t.nUnknown = 0
    · simp [hend] at hnext
    · simp only [hend, if_false, Option.some.injEq] at hnext
      push Not at hend
      rw [← hnext]
      exact ⟨_, _, ht.settle harcs hend.1 hend.2⟩

omit [IsOrderedAddMonoid K] in
/-- At its end the search has settled every state that it has found. -/
theorem LabelSetting.not_mem_of_end (h : LabelSetting g weight src S key s)
    (hend : searchStep g weight s = none) (hv : s.dist v ≠ ⊤) : v ∉ S ∧ s.arcs = [] := by
  unfold searchStep at hend
  cases harcs : s.arcs with
  | cons a arcs =>
    rw [harcs] at hend
    cases hend
  | nil =>
    rw [harcs] at hend
    have hstop : s.dist (s.distQueue.elem 1) = ⊤ ∨ s.nUnknown = 0 := by
      by_contra hnot
      simp [hnot] at hend
    refine ⟨?_, rfl⟩
    intro hmem
    obtain ⟨h₁, h₂, h₃⟩ := h.holds.loc v hmem
    have hfirst := h.ordered.le h₁ h₂
    rw [h₃] at hfirst
    rcases hstop with htop | h0
    · rw [htop] at hfirst
      exact hv (top_le_iff.mp hfirst)
    · omega

/-- **The end of the search**: no path of nonnegative arcs is cheaper than what was found. -/
theorem LabelSetting.dist_le (h : LabelSetting g weight src S key s)
    (hend : searchStep g weight s = none) (hsrc : src < g.length) (hgraph : IsGraph g)
    (hwalk : Walk (NonnegAdj g weight) src p v) : s.dist v ≤ (p.map weight).sum := by
  have hlt : v < g.length :=
    hwalk.invariant (P := fun v => v < g.length) (fun hstep _ => by
      obtain ⟨⟨ha, rfl⟩, _⟩ := hstep
      exact hgraph.dest _ _ ha) hsrc
  by_cases hv : v ∈ S
  · have harcs : s.arcs = [] := by
      cases harcs : s.arcs with
      | nil => rfl
      | cons a arcs =>
        rw [searchStep, harcs] at hend
        cases hend
    obtain ⟨w, hw, hle⟩ := h.exists_le harcs hwalk hv
    have htop : s.dist w = ⊤ := by
      by_contra hne
      exact (h.not_mem_of_end hend hne).1 hw
    exact le_top.trans (htop ▸ hle)
  · exact (h.le_key v hlt hv).trans (h.bounded v hlt hv p hwalk)

/-- Every state that arcs of finite cost lead to is found. -/
theorem LabelSetting.dist_ne_top {R : Type u} [AddCommMonoid R] [LinearOrder R]
    {weight : GraphArc → WithTop R} {key : ℕ → WithTop R} {s : SearchState (WithTop R)}
    (h : LabelSetting g weight src S key s) (hend : searchStep g weight s = none)
    (hsrc : src < g.length) (hgraph : IsGraph g)
    (hwalk : Walk (fun s a t => GraphAdj g s a t ∧ weight a ≠ ⊤) src p v) : s.dist v ≠ ⊤ := by
  have hfound : v < g.length ∧ s.dist v ≠ ⊤ := by
    refine hwalk.invariant (P := fun v => v < g.length ∧ s.dist v ≠ ⊤) ?_
      ⟨hsrc, ne_top_of_le_ne_top WithTop.zero_ne_top h.start⟩
    intro u a v hstep hu
    obtain ⟨⟨ha, rfl⟩, hfinite⟩ := hstep
    refine ⟨hgraph.dest _ _ ha, ?_⟩
    obtain ⟨hnot, harcs⟩ := h.not_mem_of_end hend hu.2
    rcases h.relaxed u hu.1 hnot a ha with ⟨_, hmem⟩ | hle
    · rw [harcs] at hmem
      exact absurd hmem List.not_mem_nil
    · exact ne_top_of_le_ne_top (WithTop.add_ne_top.mpr ⟨hfinite, h.key_ne_top u hu.1 hnot⟩) hle
  exact hfound.2

section Found

variable {V : Type*} {E : Type*} {E' : Type*} {R : Type u} [AddCommMonoid R] [LinearOrder R]

/-- What the search finds: the costs of walks, none of them more than that of a walk of
nonnegative edges, wherever edges of finite cost lead. -/
structure FoundCosts (adj : V → E → V → Prop) (c : E → WithTop R) (src : V) (d : V → WithTop R) :
    Prop where
  attained : ∀ v, d v = ⊤ ∨ ∃ es, Walk adj src es v ∧ (es.map c).sum = d v
  le : ∀ {es v}, Walk (fun a e b => adj a e b ∧ 0 ≤ c e) src es v → d v ≤ (es.map c).sum
  found : ∀ {es v}, Walk (fun a e b => adj a e b ∧ c e ≠ ⊤) src es v → d v ≠ ⊤

/-- The same towards a vertex. -/
structure FoundCostsTo (adj : V → E → V → Prop) (c : E → WithTop R) (tgt : V) (d : V → WithTop R) :
    Prop where
  attained : ∀ v, d v = ⊤ ∨ ∃ es, Walk adj v es tgt ∧ (es.map c).sum = d v
  le : ∀ {es v}, Walk (fun a e b => adj a e b ∧ 0 ≤ c e) v es tgt → d v ≤ (es.map c).sum
  found : ∀ {es v}, Walk (fun a e b => adj a e b ∧ c e ≠ ⊤) v es tgt → d v ≠ ⊤

variable {adj : V → E → V → Prop} {adj' : V → E' → V → Prop} {c : E → WithTop R}
variable {c' : E' → WithTop R} {start : V} {d : V → WithTop R}

omit [AddCommMonoid R] [LinearOrder R] in
theorem exists_edge_where (P : WithTop R → Prop) {q : E → Prop} {k : WithTop R}
    (h : ∃ e, q e ∧ c e = k) (hk : P k) : ∃ e, (q e ∧ P (c e)) ∧ c e = k := by
  obtain ⟨e, hq, rfl⟩ := h
  exact ⟨e, ⟨hq, hk⟩, rfl⟩

theorem FoundCosts.congr (h : FoundCosts adj c start d)
    (forth : ∀ {a e b}, adj a e b → ∃ e', adj' a e' b ∧ c' e' = c e)
    (back : ∀ {a e' b}, adj' a e' b → ∃ e, adj a e b ∧ c e = c' e') : FoundCosts adj' c' start d where
  attained := by
    intro v
    refine (h.attained v).imp_right fun ⟨es, walk, hsum⟩ => ?_
    obtain ⟨es', walk', hsum'⟩ := walk.transfer forth
    exact ⟨es', walk', hsum'.trans hsum⟩
  le := by
    intro es v walk
    obtain ⟨es', walk', hsum⟩ := walk.transfer fun h =>
      exists_edge_where (0 ≤ ·) (back h.1) h.2
    exact hsum ▸ h.le walk'
  found := by
    intro es v walk
    obtain ⟨es', walk', _⟩ := walk.transfer fun h =>
      exists_edge_where (· ≠ ⊤) (back h.1) h.2
    exact h.found walk'

theorem FoundCostsTo.of_reversed (h : FoundCosts (fun a e b => adj b e a) c start d) :
    FoundCostsTo adj c start d where
  attained := by
    intro v
    refine (h.attained v).imp_right fun ⟨es, walk, hsum⟩ => ⟨es.reverse, walk.reversed, ?_⟩
    rw [List.map_reverse, List.sum_reverse, hsum]
  le := by
    intro es v walk
    have hle := h.le walk.reversed
    rwa [List.map_reverse, List.sum_reverse] at hle
  found walk := h.found walk.reversed

end Found

/-- **The search**, with costs of either sign. -/
theorem shortestDistancesFrom_found {R : Type u} [AddCommMonoid R] [LinearOrder R]
    [IsOrderedAddMonoid R] {weight : GraphArc → WithTop R} (hgraph : IsGraph g)
    (hsrc : src < g.length) :
    FoundCosts (GraphAdj g) weight src (shortestDistancesFrom g weight src) := by
  obtain ⟨s, hrun, hend⟩ := exists_end (.start : Searched g weight src (beginSearch g.length src))
  obtain ⟨S, key, h⟩ := exists_labelSetting hgraph hsrc hrun
  rw [← dist_of_end hrun hend]
  exact ⟨h.attained, h.dist_le hend hsrc hgraph, h.dist_ne_top hend hsrc hgraph⟩

end Carmel
