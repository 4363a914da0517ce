/-
# Best paths

`bestPaths` searches from the final state in the reversed graph and reads the best path off
the arcs it keeps. A state is settled once, at the cost it has then, so an arc that weighs
more than 1 may come too late: what is found is the weight of a path, and the best weight
where a best path has no such arc.
-/

import Carmel.Fst.PruneRatio
import Carmel.Graph.LabelSetting

namespace Carmel

open Carmel.Math

universe u

variable {K : Type u} [AddCommGroup K] [LinearOrder K]

section Model

/-- Take steps of the search, to its end if there are enough. -/
def runSearch {K : Type u} [AddCommMonoid K] [LinearOrder K] [OrderTop K] (g : List (List GraphArc))
    (weight : GraphArc → K) : ℕ → SearchState K → SearchState K
  | 0, s => s
  | fuel + 1, s =>
    match searchStep g weight s with
    | none => s
    | some t => runSearch g weight fuel t

/-- `shortestPathTreeTo`, from the arcs taken: those that the reversed ones point to. -/
def shortPathTree (taken : ℕ → Option GraphArc) (s : ℕ) : Option GraphArc :=
  (taken s).map fun a => ⟨a.dest, a.src, a.id⟩

/-- `insertShortPath`: the arcs visited, if they lead to `dest`. -/
def insertShortPath (tree : ℕ → Option GraphArc) (dest : ℕ) : ℕ → ℕ → Option (List GraphArc)
  | 0, iState => if iState = dest then some [] else none
  | fuel + 1, iState =>
    if iState = dest then some []
    else (tree iState).bind fun taken =>
      (insertShortPath tree dest fuel taken.dest).map (taken :: ·)

namespace WFST

variable (x : WFST (LogWeight K)) (final : ℕ)

/-- The search for the best paths to the final state. -/
abbrev RevSearched : SearchState (WithTop K) → Prop :=
  Searched (reverseGraph x.makeGraph) x.revWeight final

end WFST

end Model

namespace WFST

/-- No path between the states weighs more. -/
structure IsBest (x : WFST (LogWeight K)) (s t : ℕ) (p : List (HalfArc (LogWeight K))) : Prop where
  walk : Walk x.Adj s p t
  best : ∀ q, Walk x.Adj s q t → pathWeight q ≤ pathWeight p

/-- No arc of the path weighs more than 1. -/
def Light (p : List (HalfArc (LogWeight K))) : Prop := ∀ h ∈ p, h.arc.weight ≤ 1

/-- The arc of the graph for an arc of the transducer. -/
def graphArc (h : HalfArc (LogWeight K)) : GraphArc := ⟨h.source, h.arc.dest, h.pos⟩

variable {x : WFST (LogWeight K)} {final s t : ℕ} {p : List (HalfArc (LogWeight K))}

omit [AddCommGroup K] [LinearOrder K] in
theorem isGraph_makeGraph (hx : x.Valid) : IsGraph x.makeGraph := by
  constructor
  · intro s a ha
    obtain ⟨h, _, rfl⟩ := mem_makeGraph.mp ha
    rfl
  · intro s a ha
    obtain ⟨h, hh, rfl⟩ := mem_makeGraph.mp ha
    rw [length_makeGraph]
    exact hx.dest_lt' hh

omit [AddCommGroup K] [LinearOrder K] in
theorem isGraph_reverse (hx : x.Valid) : IsGraph (reverseGraph x.makeGraph) := by
  constructor
  · intro s a ha
    obtain ⟨h, _, heq⟩ := (graphAdj_reverse_iff hx).mp ⟨ha, rfl⟩
    rw [heq]
  · intro s a ha
    rw [length_reverseGraph, length_makeGraph]
    exact graphSucc_reverse_lt (List.mem_map_of_mem (f := GraphArc.dest) ha)

variable [IsOrderedAddMonoid K]

theorem forDist_found (hx : x.Valid) : FoundCosts x.Adj stepCost 0 x.forDist := by
  have hspec : FoundCosts (GraphAdj x.makeGraph) x.forWeight 0 x.forDist := by
    apply shortestDistancesFrom_found (isGraph_makeGraph hx)
    rw [length_makeGraph]
    exact hx.start_lt
  apply hspec.congr
  · intro s a t hstep
    obtain ⟨h, hh, rfl⟩ := graphAdj_makeGraph_iff.mp hstep
    exact ⟨h, hh, (arcCost_of_mem hh.1).symm⟩
  · intro s h t hstep
    exact ⟨_, graphAdj_makeGraph_iff.mpr ⟨h, hstep, rfl⟩, arcCost_of_mem hstep.1⟩

theorem revDist_found (hx : x.Valid) (hfinal : final < x.numStates) :
    FoundCostsTo x.Adj stepCost final (x.revDist final) := by
  have hspec : FoundCosts (GraphAdj (reverseGraph x.makeGraph)) x.revWeight final
      (x.revDist final) := by
    apply shortestDistancesFrom_found (isGraph_reverse hx)
    rw [length_reverseGraph, length_makeGraph]
    exact hfinal
  apply FoundCostsTo.of_reversed
  apply hspec.congr
  · intro s a t hstep
    obtain ⟨h, hh, rfl⟩ := (graphAdj_reverse_iff hx).mp hstep
    exact ⟨h, hh, (arcCost_of_mem hh.1).symm⟩
  · intro s h t hstep
    exact ⟨_, (graphAdj_reverse_iff hx).mpr ⟨h, hstep, rfl⟩, arcCost_of_mem hstep.1⟩

/-- What is found is the cost of a best path without heavy arcs. -/
theorem getCost_eq_of_found {d : WithTop K} (hbest : x.IsBest s t p)
    (hattained : d = ⊤ ∨ ∃ q, Walk x.Adj s q t ∧ (q.map stepCost).sum = d)
    (hle : d ≤ (p.map stepCost).sum) : d = (pathWeight p).getCost := by
  rw [← getCost_pathWeight] at hle
  apply le_antisymm hle
  rcases hattained with htop | ⟨q, hwalk, hsum⟩
  · rw [htop]
    exact le_top
  · rw [← hsum, ← getCost_pathWeight]
    exact LogWeight.getCost_le_getCost_iff.mpr (hbest.best q hwalk)

theorem Light.restrict {adj : ℕ → HalfArc (LogWeight K) → ℕ → Prop} (hlight : Light p)
    (hwalk : Walk adj s p t) : Walk (fun a h b => adj a h b ∧ 0 ≤ stepCost h) s p t :=
  hwalk.restrict fun h hh => LogWeight.getCost_nonneg_iff.mpr (hlight h hh)

theorem forDist_of_isBest (hx : x.Valid) (hbest : x.IsBest 0 s p) (hlight : Light p) :
    x.forDist s = (pathWeight p).getCost :=
  getCost_eq_of_found hbest ((forDist_found hx).attained s)
    ((forDist_found hx).le (hlight.restrict hbest.walk))

theorem revDist_of_isBest (hx : x.Valid) (hfinal : final < x.numStates) (hbest : x.IsBest s final p)
    (hlight : Light p) : x.revDist final s = (pathWeight p).getCost :=
  getCost_eq_of_found hbest ((revDist_found hx hfinal).attained s)
    ((revDist_found hx hfinal).le (hlight.restrict hbest.walk))

omit [LinearOrder K] [IsOrderedAddMonoid K] [AddCommGroup K] in
/-- Turning the arcs round makes no cycles. -/
theorem not_onCycle_reverse (hx : x.Valid) (hacyclic : ∀ v, ¬ OnCycle x.Adj v) (v : ℕ) :
    ¬ OnCycle (GraphAdj (reverseGraph x.makeGraph)) v := by
  rw [onCycle_iff]
  intro ⟨w, ⟨e, hstep⟩, hback⟩
  obtain ⟨h, hadj, _⟩ := (graphAdj_reverse_iff hx).mp hstep
  have hforth : Reaches x.Adj v w := hback.reverse fun {a e b} hstep => by
    obtain ⟨h, hadj, _⟩ := (graphAdj_reverse_iff hx).mp hstep
    exact ⟨h, hadj⟩
  exact hacyclic v (OnCycle.of_reaches hforth hadj)

/-- From a state that the search has found the arcs taken lead to the final state, at no
more than the cost found. -/
theorem exists_insertShortPath {S : Set ℕ} {key : ℕ → WithTop K} {found : SearchState (WithTop K)}
    (hx : x.Valid) (h : LabelSetting (reverseGraph x.makeGraph) x.revWeight final S key found)
    (hacyclic : ∀ v, ¬ OnCycle x.Adj v) (hs : s < x.numStates) (hfound : found.dist s ≠ ⊤) :
    ∃ fuel q, insertShortPath (shortPathTree found.taken) final fuel s = some (q.map graphArc) ∧
      Walk x.Adj s q final ∧ (q.map stepCost).sum ≤ found.dist s := by
  have hinside : ∀ {u : ℕ} {e : HalfArc (LogWeight K)} {v : ℕ}, x.Adj u e v → v < x.numStates :=
    fun hstep => hstep.2 ▸ hx.dest_lt' hstep.1
  have hfinite : {v | Reaches x.Adj s v}.Finite := by
    apply (Set.finite_lt_nat x.numStates).subset
    intro v ⟨q, hwalk⟩
    exact hwalk.invariant (P := fun v => v < x.numStates) (fun hstep _ => hinside hstep) hs
  have hdead : Dead x.Adj (fun _ => False) s :=
    dead_of_no_cycle hfinite (fun _ _ => id) fun v _ => hacyclic v
  clear hfinite hs
  -- no path from a state leads there again, so following the arcs ends
  induction hdead with
  | @intro s _ _ ih =>
    by_cases heq : s = final
    · subst heq
      refine ⟨0, [], if_pos rfl, .nil s, ?_⟩
      rcases h.attained s with htop | ⟨q, hwalk, hsum⟩
      · exact absurd htop hfound
      · cases q with
        | nil => exact hsum.le
        | cons a q => exact absurd ⟨a, q, hwalk⟩ (not_onCycle_reverse hx hacyclic s)
    · obtain ⟨u, a, hadj, htaken, hne, hle⟩ := h.found s heq hfound
      obtain ⟨e, hstep, rfl⟩ := (graphAdj_reverse_iff hx).mp hadj
      obtain ⟨fuel, q, hpath, hwalk, hcost⟩ := ih hstep hne
      have hsource : e.source = s := (mem_outArcs.mp hstep.1).1
      have htree : shortPathTree found.taken s = some (graphArc e) := by
        rw [shortPathTree, htaken, Option.map_some, graphArc, hsource, hstep.2]
      refine ⟨fuel + 1, e :: q, ?_, .cons hstep hwalk, ?_⟩
      · have hdest : (graphArc e).dest = u := hstep.2
        rw [insertShortPath, if_neg heq, htree, Option.bind_some, hdest, hpath]
        rfl
      · have hweight : x.revWeight ⟨u, s, e.pos⟩ = stepCost e := arcCost_of_mem hstep.1
        rw [hweight] at hle
        rw [List.map_cons, List.sum_cons]
        exact (add_le_add le_rfl hcost).trans hle

/-- The path read off is a best one, where a best path has no heavy arc. -/
theorem isBest_of_insertShortPath {found : SearchState (WithTop K)} (hx : x.Valid)
    (hacyclic : ∀ v, ¬ OnCycle x.Adj v) (hfinal : final < x.numStates)
    (hrun : x.RevSearched final found)
    (hend : searchStep (reverseGraph x.makeGraph) x.revWeight found = none)
    (hbest : x.IsBest 0 final p) (hlight : Light p) (hpos : pathWeight p ≠ LogWeight.zero) :
    ∃ fuel q, insertShortPath (shortPathTree found.taken) final fuel 0 = some (q.map graphArc) ∧
      x.IsBest 0 final q := by
  have hlen : final < (reverseGraph x.makeGraph).length := by
    rw [length_reverseGraph, length_makeGraph]
    exact hfinal
  obtain ⟨S, key, h⟩ := exists_labelSetting (isGraph_reverse hx) hlen hrun
  have hdist : found.dist 0 = (pathWeight p).getCost := by
    rw [dist_of_end hrun hend]
    exact revDist_of_isBest hx hfinal hbest hlight
  have hfound : found.dist 0 ≠ ⊤ := by
    rw [hdist]
    exact LogWeight.getCost_ne_top_iff.mpr hpos
  obtain ⟨fuel, q, hpath, hwalk, hcost⟩ :=
    exists_insertShortPath hx h hacyclic hx.start_lt hfound
  refine ⟨fuel, q, hpath, hwalk, ?_⟩
  intro r hr
  rw [hdist, ← getCost_pathWeight] at hcost
  exact (hbest.best r hr).trans (LogWeight.getCost_le_getCost_iff.mp hcost)

omit [LinearOrder K] [IsOrderedAddMonoid K] in
theorem found_of_walk (hpos : ∀ v, ∀ h ∈ x.outArcs v, h.arc.weight ≠ LogWeight.zero)
    (hwalk : Walk x.Adj s p t) :
    Walk (fun a h b => x.Adj a h b ∧ stepCost h ≠ ⊤) s p t :=
  hwalk.mono fun hstep => ⟨hstep, LogWeight.getCost_ne_top_iff.mpr (hpos _ _ hstep.1)⟩

end WFST

theorem searched_runSearch {K : Type u} [AddCommMonoid K] [LinearOrder K] [OrderTop K]
    {g : List (List GraphArc)} {weight : GraphArc → K} {src : ℕ} (fuel : ℕ) :
    ∀ {s : SearchState K}, Searched g weight src s →
      Searched g weight src (runSearch g weight fuel s) := by
  induction fuel with
  | zero => exact fun hrun => hrun
  | succ fuel ih =>
    intro s hrun
    rw [runSearch]
    cases hnext : searchStep g weight s with
    | none => exact hrun
    | some t => exact ih (hrun.step () trivial hnext)

namespace WFST

/-- Two ways to the final state 3: at once, or by state 1 and an arc of cost -5. -/
def heavyArc : WFST (LogWeight ℤ) where
  states :=
    [⟨[⟨2, 2, 3, LogWeight.ofLog 0, FSTArc.noGroup⟩, ⟨2, 2, 1, LogWeight.ofLog 0, FSTArc.noGroup⟩], 2⟩,
      ⟨[⟨2, 2, 3, LogWeight.ofLog (-1), FSTArc.noGroup⟩,
        ⟨2, 2, 2, LogWeight.ofLog 5, FSTArc.noGroup⟩], 2⟩,
      ⟨[⟨2, 2, 3, LogWeight.ofLog (-2), FSTArc.noGroup⟩], 1⟩, .empty]
  final := some 3
  inAlph := letterA
  outAlph := letterA

/-- The way at once. -/
def atOnce : List (HalfArc (LogWeight ℤ)) := [⟨0, 0, 2, 2, 3, LogWeight.ofLog 0, FSTArc.noGroup⟩]

/-- The better way. -/
def byHeavyArc : List (HalfArc (LogWeight ℤ)) :=
  [⟨0, 1, 2, 2, 1, LogWeight.ofLog 0, FSTArc.noGroup⟩,
    ⟨1, 1, 2, 2, 2, LogWeight.ofLog 5, FSTArc.noGroup⟩,
    ⟨2, 0, 2, 2, 3, LogWeight.ofLog (-2), FSTArc.noGroup⟩]

theorem outArcs_heavyArc (s : ℕ) : ∀ h ∈ heavyArc.outArcs s,
    s < h.arc.dest ∧ h.arc.weight ≠ LogWeight.zero := by
  match s with
  | 0 => decide
  | 1 => decide
  | 2 => decide
  | 3 => decide
  | s + 4 => exact fun h hh => absurd hh List.not_mem_nil

theorem not_onCycle_heavyArc (s : ℕ) : ¬ OnCycle heavyArc.Adj s := by
  have hle : ∀ {s t p}, Walk heavyArc.Adj s p t → s ≤ t := by
    intro s t p hwalk
    refine hwalk.invariant (P := fun v => s ≤ v) ?_ le_rfl
    intro u h v hstep hu
    have hlt := (outArcs_heavyArc u h hstep.1).1
    rw [hstep.2] at hlt
    exact hu.trans hlt.le
  intro ⟨h, p, hwalk⟩
  obtain ⟨t, hstep, hrest⟩ := Walk.cons_iff.mp hwalk
  have hlt := (outArcs_heavyArc s h hstep.1).1
  rw [hstep.2] at hlt
  exact absurd (hle hrest) (not_le.mpr hlt)

end WFST

end Carmel
