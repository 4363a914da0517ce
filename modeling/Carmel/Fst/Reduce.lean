/-
# Reducing a transducer

`reduce` removes the states that the start does not lead to or that do not lead
to the final state, and the `*e*`/`*e*` arcs from a state to itself.
-/

import Carmel.Fst.RemoveStates
import Carmel.Train.CollectCounts

namespace Carmel

open Carmel.Math

universe u

variable {W : Type u}

section Model

/-- `makeGraph`: the arcs of every state, pushed one by one. The data of an arc is its position. -/
def WFST.makeGraph (x : WFST W) : List (List GraphArc) :=
  (List.range x.numStates).map fun i =>
    (x.outArcs i).foldl (fun arcs h => ⟨i, h.arc.dest, h.pos⟩ :: arcs) []

/-- Where the arcs out of a state of a graph lead. -/
def graphSucc (g : List (List GraphArc)) (s : ℕ) : List ℕ := (g.getD s []).map (·.dest)

/-- The marks that `reduce` passes to `removeMarkedStates`. -/
def WFST.reduceMarks (x : WFST W) (final : ℕ) : Option (List Bool) :=
  let g := x.makeGraph
  let revG := reverseGraph g
  (depthFirstSearch (graphSucc g) x.numStates 0).bind fun visitedForward =>
    (depthFirstSearch (graphSucc revG) x.numStates final).map fun visitedBackward =>
      (List.range x.numStates).map fun i => !(visitedForward i && visitedBackward i)

/-- `clear`. The alphabets go as well; nothing reads them afterwards. -/
def NamedWFST.clear (x : NamedWFST W) : NamedWFST W where
  states := []
  final := none
  inAlph := x.inAlph
  outAlph := x.outAlph
  stateNames := ⟨[], fun _ => none⟩

/-- `reduce`. -/
def NamedWFST.reduce (x : NamedWFST W) : Option (NamedWFST W) :=
  match x.final with
  | none => some x.clear
  | some final => (x.reduceMarks final).map fun marked =>
    let x := x.removeMarkedStates marked
    { x with toWFST := x.toWFST.editStates removeEpsilonArc }

end Model

namespace WFST

variable {x : WFST W} {s t : ℕ}

theorem length_reduceMarks {final : ℕ} {marked : List Bool} (h : x.reduceMarks final = some marked) :
    marked.length = x.numStates := by
  obtain ⟨_, -, h⟩ := Option.bind_eq_some_iff.mp h
  obtain ⟨_, -, rfl⟩ := Option.map_eq_some_iff.mp h
  rw [List.length_map, List.length_range]

theorem makeGraph_getD (x : WFST W) (s : ℕ) :
    x.makeGraph.getD s [] = ((x.outArcs s).map fun h => ⟨s, h.arc.dest, h.pos⟩).reverse := by
  by_cases hs : s < x.numStates
  · simp [makeGraph, hs]
  · have hnone : x.states[s]? = none := List.getElem?_eq_none (Nat.le_of_not_lt hs)
    simp [makeGraph, hs, outArcs, state, hnone]

@[simp] theorem length_makeGraph : x.makeGraph.length = x.numStates := by
  simp [makeGraph]

theorem mem_makeGraph {a : GraphArc} :
    a ∈ x.makeGraph.getD s [] ↔ ∃ h ∈ x.outArcs s, a = ⟨s, h.arc.dest, h.pos⟩ := by
  rw [makeGraph_getD, List.mem_reverse, List.mem_map]
  exact exists_congr fun h => and_congr_right fun _ => eq_comm

theorem mem_makeGraph_flatten {a : GraphArc} :
    a ∈ x.makeGraph.flatten ↔ ∃ h ∈ x.outArcs a.src, a = ⟨a.src, h.arc.dest, h.pos⟩ := by
  rw [← mem_makeGraph, List.mem_flatten]
  constructor
  · rintro ⟨arcs, harcs, ha⟩
    obtain ⟨i, hi, rfl⟩ := List.getElem_of_mem harcs
    have ha' : a ∈ x.makeGraph.getD i [] := by
      rwa [List.getD_eq_getElem?_getD, List.getElem?_eq_getElem hi]
    obtain ⟨_, -, rfl⟩ := mem_makeGraph.mp ha'
    exact ha'
  · intro ha
    rw [List.getD_eq_getElem?_getD] at ha
    cases hget : x.makeGraph[a.src]? with
    | none => simp [hget] at ha
    | some arcs => exact ⟨arcs, List.mem_of_getElem? hget, by simpa [hget] using ha⟩

theorem mem_graphSucc : t ∈ graphSucc x.makeGraph s ↔ ∃ h, x.Adj s h t := by
  simp only [graphSucc, List.mem_map, mem_makeGraph]
  constructor
  · rintro ⟨_, ⟨h, hh, rfl⟩, rfl⟩
    exact ⟨h, hh, rfl⟩
  · rintro ⟨h, hh, rfl⟩
    exact ⟨_, ⟨h, hh, rfl⟩, rfl⟩

theorem mem_reverseGraph {a : GraphArc} (hs : s < x.numStates) :
    a ∈ (reverseGraph x.makeGraph).getD s [] ↔ ∃ h, x.Adj a.dest h s ∧ a = ⟨s, a.dest, h.pos⟩ := by
  rw [reverseGraph_getD _ (by simpa using hs), List.mem_map]
  simp only [List.mem_reverse, List.mem_filter, decide_eq_true_iff]
  constructor
  · rintro ⟨a, ⟨ha, rfl⟩, rfl⟩
    obtain ⟨h, hh, heq⟩ := mem_makeGraph_flatten.mp ha
    refine ⟨h, ⟨hh, by rw [heq]⟩, ?_⟩
    rw [GraphArc.turned, congrArg GraphArc.id heq]
  · rintro ⟨h, ⟨hh, rfl⟩, heq⟩
    refine ⟨⟨a.dest, h.arc.dest, h.pos⟩, ⟨mem_makeGraph_flatten.mpr ⟨h, hh, rfl⟩, rfl⟩, ?_⟩
    rw [heq, GraphArc.turned]

theorem mem_graphSucc_reverse (hs : s < x.numStates) :
    t ∈ graphSucc (reverseGraph x.makeGraph) s ↔ ∃ h, x.Adj t h s := by
  simp only [graphSucc, List.mem_map]
  constructor
  · rintro ⟨a, ha, rfl⟩
    obtain ⟨h, hstep, -⟩ := (mem_reverseGraph hs).mp ha
    exact ⟨h, hstep⟩
  · rintro ⟨h, hstep⟩
    exact ⟨⟨s, t, h.pos⟩, (mem_reverseGraph hs).mpr ⟨h, hstep, rfl⟩, rfl⟩

theorem graphSucc_reverse_of_le (hs : x.numStates ≤ s) :
    graphSucc (reverseGraph x.makeGraph) s = [] := by
  rw [graphSucc, List.getD_eq_getElem?_getD, List.getElem?_eq_none]
  · rfl
  · rwa [length_reverseGraph, length_makeGraph]

theorem graphSucc_lt (hx : x.Valid) (h : t ∈ graphSucc x.makeGraph s) : t < x.numStates := by
  obtain ⟨h, hh, rfl⟩ := mem_graphSucc.mp h
  exact hx.dest_lt' hh

theorem graphSucc_reverse_lt (h : t ∈ graphSucc (reverseGraph x.makeGraph) s) : t < x.numStates := by
  by_cases hs : s < x.numStates
  · obtain ⟨h, hh, -⟩ := (mem_graphSucc_reverse hs).mp h
    by_contra ht
    have hnone : x.states[t]? = none := List.getElem?_eq_none (Nat.le_of_not_lt ht)
    simp [outArcs, state, hnone] at hh
  · simp [graphSucc_reverse_of_le (Nat.le_of_not_lt hs)] at h

/-- The searches run through, and mark all but the useful states. -/
theorem reduceMarks_spec (hx : x.Valid) {f : ℕ} (hf : f < x.numStates) :
    ∃ marked, x.reduceMarks f = some marked ∧ marked.length = x.numStates ∧
      ∀ i < x.numStates, (marked.getD i true = false ↔ Reaches x.Adj 0 i ∧ Reaches x.Adj i f) := by
  obtain ⟨forward, hrun, hforward⟩ : ∃ vis,
      depthFirstSearch (graphSucc x.makeGraph) x.numStates 0 = some vis ∧
        ∀ v, vis v = true ↔ Reaches (SuccAdj (graphSucc x.makeGraph)) 0 v :=
    depthFirstSearch_spec (graphSucc_lt hx) hx.start_lt
  obtain ⟨backward, hrun', hbackward⟩ : ∃ vis,
      depthFirstSearch (graphSucc (reverseGraph x.makeGraph)) x.numStates f = some vis ∧
        ∀ v, vis v = true ↔ Reaches (SuccAdj (graphSucc (reverseGraph x.makeGraph))) f v :=
    depthFirstSearch_spec graphSucc_reverse_lt hf
  refine ⟨(List.range x.numStates).map fun i => !(forward i && backward i), ?_, by simp,
    fun i hi => ?_⟩
  · simp only [reduceMarks, hrun, hrun', Option.bind_some, Option.map_some]
  have h₁ : forward i = true ↔ Reaches x.Adj 0 i := by
    rw [hforward]
    refine reaches_congr fun s t => ?_
    rw [← mem_graphSucc]
    exact ⟨fun ⟨_, h⟩ => h, fun h => ⟨(), h⟩⟩
  have h₂ : backward i = true ↔ Reaches x.Adj i f := by
    rw [hbackward]
    constructor
    · intro h
      refine h.reverse fun {s e t} hstep => ?_
      by_cases hs : s < x.numStates
      · exact (mem_graphSucc_reverse hs).mp hstep
      · simp [SuccAdj, graphSucc_reverse_of_le (Nat.le_of_not_lt hs)] at hstep
    · intro h
      exact h.reverse fun {s e t} hstep => ⟨(), (mem_graphSucc_reverse
        (hstep.2 ▸ hx.dest_lt' hstep.1)).mpr ⟨_, hstep⟩⟩
  rw [← h₁, ← h₂]
  simp [hi]

end WFST

namespace WFST

/-- An `*e*`/`*e*` arc back to the state it leaves. -/
def EpsilonLoop (h : HalfArc W) : Prop :=
  h.arc.inp = epsilonIndex ∧ h.arc.out = epsilonIndex ∧ h.arc.dest = h.source

/-- The state lies on a way from the start to the final state. -/
def Useful (x : WFST W) (i : ℕ) : Prop :=
  Reaches x.Adj 0 i ∧ ∃ f, x.final = some f ∧ Reaches x.Adj i f

variable {x : WFST W} {s : ℕ} {marked : List Bool} {p : List (HalfArc W)}

theorem useful_of_walk {f : ℕ} (hfinal : x.final = some f) (hs : Reaches x.Adj 0 s)
    (hwalk : Walk x.Adj s p f) : x.Useful s :=
  ⟨hs, f, hfinal, p, hwalk⟩

theorem exists_isPath_iff : (∃ p, x.IsPath p) ↔ x.Useful 0 := by
  constructor
  · rintro ⟨p, f, hwalk, hf⟩
    exact useful_of_walk hf (.refl 0) hwalk
  · rintro ⟨-, f, hf, p, hwalk⟩
    exact ⟨p, f, hwalk, hf⟩

theorem useful_final_iff {f : ℕ} (hfinal : x.final = some f) : x.Useful f ↔ ∃ p, x.IsPath p := by
  rw [exists_isPath_iff]
  constructor
  · rintro ⟨h, -⟩
    exact ⟨.refl 0, f, hfinal, h⟩
  · rintro ⟨-, f', hf', h⟩
    obtain rfl : f' = f := Option.some.inj (hf'.symm.trans hfinal)
    exact ⟨h, f', hfinal, .refl f'⟩

theorem lt_of_reaches (hx : x.Valid) {i : ℕ} (h : Reaches x.Adj 0 i) : i < x.numStates := by
  obtain ⟨p, hwalk⟩ := h
  refine hwalk.invariant (P := (· < x.numStates)) (fun {a h b} hstep _ => ?_) hx.start_lt
  exact hstep.2 ▸ hx.dest_lt' hstep.1

theorem reduceMarks_newIndex (hx : x.Valid) {f : ℕ} (hfinal : x.final = some f)
    (hf : f < x.numStates) : ∃ marked, x.reduceMarks f = some marked ∧
      marked.length = x.numStates ∧ ∀ i, (∃ j, newIndex marked i = some j) ↔ x.Useful i := by
  obtain ⟨marked, hrun, hmarked, hmarks⟩ := reduceMarks_spec hx hf
  refine ⟨marked, hrun, hmarked, fun i => ?_⟩
  have hb : i < x.numStates → marked.getD i false = marked.getD i true := by
    intro hi
    rw [List.getD_eq_getElem?_getD, List.getD_eq_getElem?_getD, List.getElem?_eq_getElem (hmarked ▸ hi)]
    rfl
  rw [exists_newIndex_iff', hmarked]
  constructor
  · rintro ⟨hi, hfalse⟩
    obtain ⟨h₁, h₂⟩ := (hmarks i hi).mp ((hb hi).symm.trans hfalse)
    exact ⟨h₁, f, hfinal, h₂⟩
  · rintro ⟨h₁, f', hf', h₂⟩
    obtain rfl : f' = f := Option.some.inj (hf'.symm.trans hfinal)
    have hi := lt_of_reaches hx h₁
    exact ⟨hi, (hb hi).trans ((hmarks i hi).mpr ⟨h₁, h₂⟩)⟩

/-- What `reduce` does with an arc. -/
def reduceArc (marked : List Bool) (i : ℕ) (a : FSTArc W) : Option (FSTArc W) :=
  (newIndex marked i).bind fun j => (renumberArc (newIndex marked) a).bind (removeEpsilonArc j)

theorem exists_reduceArc_iff {i j k : ℕ} {a : FSTArc W} (hi : newIndex marked i = some j)
    (hk : newIndex marked a.dest = some k) : (∃ b, reduceArc marked i a = some b) ↔
      ¬ (a.inp = epsilonIndex ∧ a.out = epsilonIndex ∧ a.dest = i) := by
  have hkj : k = j ↔ a.dest = i := by
    constructor
    · rintro rfl
      exact newIndex_inj hk hi
    · rintro rfl
      exact Option.some.inj (hk.symm.trans hi)
  rw [reduceArc, hi, Option.bind_some, renumberArc, hk, Option.map_some, Option.bind_some]
  simp only [removeEpsilonArc_eq_some_iff, hkj, exists_eq_left']

theorem walk_kept_iff {f : ℕ} (hfinal : x.final = some f)
    (hnum : ∀ i, (∃ j, newIndex marked i = some j) ↔ x.Useful i) (hs : Reaches x.Adj 0 s) :
    Walk (x.KeptAdj (newIndex marked) (reduceArc marked)) s p f ↔
      Walk x.Adj s p f ∧ ∀ h ∈ p, ¬ EpsilonLoop h := by
  induction p generalizing s with
  | nil => simp
  | cons h p ih =>
    rw [Walk.cons_iff, Walk.cons_iff]
    constructor
    · rintro ⟨m, ⟨hstep, ⟨j, hj⟩, hb⟩, hrest⟩
      obtain ⟨hrest, hloop⟩ := (ih (hs.tail hstep)).mp hrest
      refine ⟨⟨m, hstep, hrest⟩, fun h' hh' => ?_⟩
      rcases List.mem_cons.mp hh' with rfl | hh'
      · obtain ⟨hmem, rfl⟩ := hstep
        obtain ⟨k, hk⟩ := (hnum _).mpr (useful_of_walk hfinal (hs.tail ⟨hmem, rfl⟩) hrest)
        have hne := (exists_reduceArc_iff hj hk).mp hb
        rwa [← (mem_outArcs.mp hmem).1] at hne
      · exact hloop h' hh'
    · rintro ⟨⟨m, hstep, hrest⟩, hloop⟩
      obtain ⟨j, hj⟩ := (hnum s).mpr (useful_of_walk hfinal hs (.cons hstep hrest))
      refine ⟨m, ⟨hstep, ⟨j, hj⟩, ?_⟩, (ih (hs.tail hstep)).mpr ⟨hrest, fun h' hh' =>
        hloop h' (List.mem_cons_of_mem _ hh')⟩⟩
      obtain ⟨hmem, rfl⟩ := hstep
      obtain ⟨k, hk⟩ := (hnum _).mpr (useful_of_walk hfinal (hs.tail ⟨hmem, rfl⟩) hrest)
      refine (exists_reduceArc_iff hj hk).mpr ?_
      have hne := hloop h List.mem_cons_self
      rwa [EpsilonLoop, (mem_outArcs.mp hmem).1] at hne

variable (x marked) in
/-- `removeMarkedStates`, and `remove_epsilons_to` for every state that is left. -/
def reduceBy : WFST W := (x.removeMarkedStates marked).editStates removeEpsilonArc

theorem reduceBy_restricts (hx : x.Valid) (hmarked : marked.length = x.numStates) :
    x.Restricts (x.reduceBy marked) (newIndex marked) (reduceArc marked) :=
  (removeMarkedStates_restricts hmarked hx.dest_lt).editStates
    fun h => (removeEpsilonArc_eq_some_iff.mp h).1.symm

theorem reduceBy_final (hx : x.Valid) (hmarked : marked.length = x.numStates) :
    (x.reduceBy marked).final = x.final.bind (newIndex marked) := by
  obtain ⟨f, hfinal, hf⟩ := hx.final_lt
  refine removeMarkedStates_final hmarked fun f' hf' => ?_
  obtain rfl : f' = f := Option.some.inj (hf'.symm.trans hfinal)
  exact hf

variable (hnum : ∀ i, (∃ j, newIndex marked i = some j) ↔ x.Useful i)
include hnum

theorem reduceBy_final_eq_none_iff (hx : x.Valid) (hmarked : marked.length = x.numStates) :
    (x.reduceBy marked).final = none ↔ ¬ ∃ p, x.IsPath p := by
  obtain ⟨f, hfinal, -⟩ := hx.final_lt
  rw [reduceBy_final hx hmarked, hfinal, Option.bind_some, ← useful_final_iff hfinal, ← hnum,
    ← not_iff_not, not_not, ← Option.ne_none_iff_exists', ne_eq]

theorem newIndex_start (hpath : ∃ p, x.IsPath p) : newIndex marked 0 = some 0 := by
  obtain ⟨hlt, hb⟩ := exists_newIndex_iff'.mp ((hnum 0).mpr (exists_isPath_iff.mp hpath))
  refine newIndex_zero ?_
  rwa [List.getD_eq_getElem?_getD, List.getElem?_eq_getElem hlt] at hb ⊢

theorem reduceBy_valid (hx : x.Valid) (hmarked : marked.length = x.numStates)
    (hpath : ∃ p, x.IsPath p) : (x.reduceBy marked).Valid := by
  have r := reduceBy_restricts hx hmarked
  refine r.valid hx (by simp [reduceBy, editStates]) (by simp [reduceBy, editStates])
    (newIndex_start hnum hpath) ?_
  obtain ⟨f, hfinal, -⟩ := hx.final_lt
  obtain ⟨j, hj⟩ := (hnum f).mpr ((useful_final_iff hfinal).mpr hpath)
  refine ⟨j, ?_, r.lt' hj⟩
  rw [reduceBy_final hx hmarked, hfinal, Option.bind_some, hj]

theorem reduceBy_equiv (hx : x.Valid) (hmarked : marked.length = x.numStates) :
    ∃ e : {p // x.IsPath p ∧ ∀ h ∈ p, ¬ EpsilonLoop h} ≃ {p // (x.reduceBy marked).IsPath p},
      ∀ p, List.Forall₂ (Restricts.Image (newIndex marked)) p.1 (e p).1 := by
  obtain ⟨f, hfinal, -⟩ := hx.final_lt
  by_cases hpath : ∃ p, x.IsPath p
  · have r := reduceBy_restricts hx hmarked
    obtain ⟨e, he⟩ := r.exists_equiv (newIndex_start hnum hpath)
      (r.final_iff (reduceBy_final hx hmarked))
    have hkept : ∀ p, (x.IsPath p ∧ ∀ h ∈ p, ¬ EpsilonLoop h) ↔
        Accepted (x.KeptAdj (newIndex marked) (reduceArc marked)) (fun s => x.final = some s) 0 p := by
      intro p
      constructor
      · rintro ⟨⟨f', hwalk, hf'⟩, hloop⟩
        exact ⟨f', (walk_kept_iff hf' hnum (.refl 0)).mpr ⟨hwalk, hloop⟩, hf'⟩
      · rintro ⟨f', hwalk, hf'⟩
        obtain ⟨hwalk, hloop⟩ := (walk_kept_iff hf' hnum (.refl 0)).mp hwalk
        exact ⟨⟨f', hwalk, hf'⟩, hloop⟩
    exact ⟨(Equiv.subtypeEquivRight hkept).trans e, fun p => he ⟨p.1, (hkept p.1).mp p.2⟩⟩
  · have hnone := (reduceBy_final_eq_none_iff hnum hx hmarked).mpr hpath
    have : IsEmpty {p // x.IsPath p ∧ ∀ h ∈ p, ¬ EpsilonLoop h} :=
      ⟨fun p => hpath ⟨p.1, p.2.1⟩⟩
    have : IsEmpty {p // (x.reduceBy marked).IsPath p} := by
      refine ⟨fun p => ?_⟩
      obtain ⟨f', -, hf'⟩ := p.2
      rw [hnone] at hf'
      cases hf'
    exact ⟨Equiv.equivOfIsEmpty _ _, fun p => isEmptyElim p⟩

end WFST

namespace NamedWFST

variable {x : NamedWFST W} {marked : List Bool}

/-- Every state has a name and the table is right, or there are no names. -/
def NamesValid (x : NamedWFST W) : Prop :=
  x.stateNames.Synced ∧ (x.stateNames.names = [] ∨ x.stateNames.names.length = x.numStates)

/-- The names go with the states. -/
def NamesFollow (x y : NamedWFST W) (num : ℕ → Option ℕ) : Prop :=
  ∀ {i j}, num i = some j → y.stateNames.names[j]? = x.stateNames.names[i]?

theorem numStates_removeMarkedStates (hmarked : marked.length = x.numStates) :
    (x.toWFST.removeMarkedStates marked).numStates = numKept marked := by
  rw [WFST.removeMarkedStates]
  split
  case isTrue h =>
    rw [WFST.numStates, List.length_map, removeMarkedSwap_eq hmarked.symm,
      length_unmarked hmarked.symm]
  case isFalse h => exact not_not.mp h

theorem removeMarkedStates_names (hmarked : marked.length = x.numStates) (hx : x.NamesValid) :
    (x.removeMarkedStates marked).NamesValid ∧
      x.NamesFollow (x.removeMarkedStates marked) (newIndex marked) := by
  obtain ⟨hsync, hlen⟩ := hx
  simp only [NamesValid, NamesFollow, removeMarkedStates, numStates_removeMarkedStates hmarked]
  split
  case isTrue h =>
    rcases hlen with hnil | hlen
    · have hempty : x.stateNames.removeMarked marked = x.stateNames := by
        cases hsn : x.stateNames with
        | mk names ht =>
          obtain rfl : names = [] := by simpa [hsn] using hnil
          rfl
      rw [hempty, hnil]
      exact ⟨⟨hsync, .inl rfl⟩, fun _ => rfl⟩
    · obtain ⟨hsync', hfollow⟩ := StateNames.removeMarked_spec hsync (hlen.trans hmarked.symm)
      refine ⟨⟨hsync', .inr ?_⟩, hfollow⟩
      rw [StateNames.removeMarked, removeMarkedSwap_eq (hlen.trans hmarked.symm),
        length_unmarked (hlen.trans hmarked.symm)]
  case isFalse h =>
    have hkept := hmarked.trans (not_not.mp h)
    refine ⟨⟨hsync, hlen.imp_right fun hlen => hlen.trans (not_not.mp h)⟩, fun {i j} hij => ?_⟩
    rw [newIndex_of_numKept hkept (lt_of_newIndex hij)] at hij
    rw [Option.some.inj hij]

/-- **Reducing** keeps the useful states, their names and the paths without `*e*`/`*e*`
loops. The result has no final state exactly when there was no path. -/
theorem reduce_spec (x : NamedWFST W) (hx : x.Valid) :
    ∃ (y : NamedWFST W) (num : ℕ → Option ℕ), x.reduce = some y ∧
      (∀ i, (∃ j, num i = some j) ↔ x.Useful i) ∧
      (∀ i i' j, num i = some j → num i' = some j → i = i') ∧
      (∀ j, j < y.numStates ↔ ∃ i, num i = some j) ∧
      (y.final = none ↔ ¬ ∃ p, x.IsPath p) ∧
      ((∃ p, x.IsPath p) → y.Valid ∧ num 0 = some 0 ∧ y.final = x.final.bind num) ∧
      (x.NamesValid → y.NamesValid ∧ x.NamesFollow y num) ∧
      ∃ e : {p // x.IsPath p ∧ ∀ h ∈ p, ¬ WFST.EpsilonLoop h} ≃ {p // y.IsPath p},
        ∀ p, List.Forall₂ (WFST.Restricts.Image num) p.1 (e p).1 := by
  obtain ⟨f, hfinal, hf⟩ := hx.final_lt
  obtain ⟨marked, hrun, hmarked, hnum⟩ := WFST.reduceMarks_newIndex hx hfinal hf
  have r := WFST.reduceBy_restricts hx hmarked
  refine ⟨{ x.removeMarkedStates marked with toWFST := x.reduceBy marked }, newIndex marked, ?_, hnum,
    fun _ _ _ => r.inj, fun j => ⟨r.onto j, fun ⟨_, hi⟩ => r.lt' hi⟩,
    WFST.reduceBy_final_eq_none_iff hnum hx hmarked, fun hpath => ?_, fun hnames => ?_,
    WFST.reduceBy_equiv hnum hx hmarked⟩
  · rw [reduce, hfinal]
    simp only [hrun, Option.map_some]
    rfl
  · exact ⟨WFST.reduceBy_valid hnum hx hmarked hpath, WFST.newIndex_start hnum hpath,
      WFST.reduceBy_final hx hmarked⟩
  · obtain ⟨⟨hsync, hlen⟩, hfollow⟩ := removeMarkedStates_names hmarked hnames
    refine ⟨⟨hsync, hlen.imp_right fun hlen => hlen.trans ?_⟩, hfollow⟩
    rw [WFST.numStates, WFST.numStates, WFST.reduceBy, WFST.editStates, List.length_mapIdx]
    rfl

theorem reduce_spec_oneStep :
    ∃ (y : NamedWFST (Weight ℚ)) (num : ℕ → Option ℕ),
      (⟨oneStep, ⟨[], fun _ => none⟩⟩ : NamedWFST (Weight ℚ)).reduce = some y ∧
        (∀ i, (∃ j, num i = some j) ↔ oneStep.Useful i) ∧
        (y.final = none ↔ ¬ ∃ p, oneStep.IsPath p) := by
  obtain ⟨y, num, hrun, hnum, -, -, hfinal, -⟩ := reduce_spec ⟨oneStep, ⟨[], fun _ => none⟩⟩
    valid_oneStep
  exact ⟨y, num, hrun, hnum, hfinal⟩

end NamedWFST

end Carmel
