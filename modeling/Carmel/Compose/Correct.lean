/-
# Composition is correct

The paths of a composition stand, one to one, for the pairs of operand paths
that agree on the interface: they read what the first reads, write what the
second writes, and weigh the product. The two filters name the paths
differently but have the same ones.
-/

import Carmel.Compose.Interleave
import Carmel.Compose.Result

namespace Carmel

open Carmel.Math

universe u

variable {W : Type u}

/-- The names of the non-epsilon output symbols along a path. -/
def WFST.outputNames (x : WFST W) (path : List (HalfArc W)) : List (Option String) :=
  (pathOutput path).map x.outAlph.name?

/-- The names of the non-epsilon input symbols along a path. -/
def WFST.inputNames (x : WFST W) (path : List (HalfArc W)) : List (Option String) :=
  (pathInput path).map x.inAlph.name?

theorem WFST.Valid.out_lt_of_mem_pathOutput {x : WFST W} (hx : x.Valid) {path : List (HalfArc W)}
    {s t : ℕ} (walk : Walk x.Adj s path t) {i : ℕ} (hi : i ∈ pathOutput path) :
    i < x.outAlph.size := by
  obtain ⟨h, hh, rfl⟩ := List.mem_map.mp (List.mem_of_mem_filter hi)
  obtain ⟨_, _, step⟩ := walk.exists_step hh
  obtain ⟨state, hstate, harc⟩ := WFST.mem_state_arcs_of_mem_outArcs step.1
  exact hx.out_lt state hstate h.arc harc

/-- On paths, agreement by the symbol map is agreement of the names. -/
theorem interface_iff_names {o : Operands W} (ha : o.a.Valid) {p q : List (HalfArc W)} {s t : ℕ}
    (walk : Walk o.a.Adj s p t) :
    Interface o p q ↔ o.a.outputNames p = o.b.inputNames q := by
  have hnamed : ∀ i ∈ pathOutput p, ∃ name, o.a.outAlph.name? i = some name := fun i hi =>
    ⟨_, List.getElem?_eq_getElem (ha.out_lt_of_mem_pathOutput walk hi)⟩
  have hmap : ∀ i ∈ pathOutput p, ∀ j,
      o.map i = some j ↔ o.a.outAlph.name? i = o.b.inAlph.name? j := by
    intro i hi j
    obtain ⟨name, hname⟩ := hnamed i hi
    rw [Operands.map, Alphabet.computeMap_eq_some_iff, hname]
    simp [eq_comm]
  rw [Interface, WFST.outputNames, WFST.inputNames]
  generalize pathOutput p = out at hmap
  generalize pathInput q = inp
  induction out generalizing inp with
  | nil => cases inp <;> simp
  | cons i out ih =>
    cases inp with
    | nil => simp
    | cons j inp =>
      rw [List.forall₂_cons, List.map_cons, List.map_cons, List.cons.injEq]
      exact and_congr (hmap i List.mem_cons_self j)
        (ih (fun i' hi' => hmap i' (List.mem_cons_of_mem _ hi')) inp)

/-- An alphabet with one symbol of its own. -/
def sampleAlphabet : Alphabet := ⟨["*e*", "*w*", "x"], by decide, rfl⟩

/-- Rewrites one `x` and swallows the others. -/
def sampleLeft : WFST ℕ where
  states := [⟨[⟨2, 2, 1, 2, FSTArc.noGroup⟩], 1⟩, ⟨[⟨2, 0, 1, 3, FSTArc.noGroup⟩], 1⟩]
  final := some 1
  inAlph := sampleAlphabet
  outAlph := sampleAlphabet

/-- Writes any number of `x` before it copies one. -/
def sampleRight : WFST ℕ where
  states := [⟨[⟨2, 2, 1, 5, FSTArc.noGroup⟩, ⟨0, 2, 0, 7, FSTArc.noGroup⟩], 2⟩, ⟨[], 0⟩]
  final := some 1
  inAlph := sampleAlphabet
  outAlph := sampleAlphabet

def sampleOperands : Operands ℕ := ⟨sampleLeft, sampleRight, 0, 1, 12, ⟨id, fun _ => .refl _⟩⟩

theorem sampleLeft_valid : sampleLeft.Valid :=
  ⟨by decide, ⟨1, rfl, by decide⟩, by decide, by decide, by decide⟩

theorem sampleRight_valid : sampleRight.Valid :=
  ⟨by decide, ⟨1, rfl, by decide⟩, by decide, by decide, by decide⟩

section Correct

variable [CommMonoid W] [DecidableEq W] (o : Operands W)

/-- The pairs of operand paths that agree on the interface. -/
abbrev PathPair : Type u :=
  {pq : List (HalfArc W) × List (HalfArc W) //
    o.a.IsPath pq.1 ∧ o.b.IsPath pq.2 ∧ o.a.outputNames pq.1 = o.b.inputNames pq.2}

variable {o} {pg : Bool}

omit [CommMonoid W] [DecidableEq W] in
theorem recordPath_iff {rs : List (Record W)} :
    RecordPath o pg rs ↔ o.a.IsPath (lefts rs) ∧ o.b.IsPath (rights rs) ∧
      Interface o (lefts rs) (rights rs) ∧ rs = mergeRecords pg (lefts rs) (rights rs) := by
  constructor
  · rintro ⟨fa, fb, hfa, hfb, n, walk, f, rfl⟩
    obtain ⟨hp, hq, hface, hmerge⟩ := walk_move_iff.mp ⟨f, walk⟩
    exact ⟨⟨fa, hp, hfa⟩, ⟨fb, hq, hfb⟩, hface, hmerge⟩
  · rintro ⟨⟨fa, hp, hfa⟩, ⟨fb, hq, hfb⟩, hface, hmerge⟩
    obtain ⟨f, walk⟩ := walk_move_iff.mpr ⟨hp, hq, hface, hmerge⟩
    exact ⟨fa, fb, hfa, hfb, _, walk, f, rfl⟩

omit [CommMonoid W] [DecidableEq W] in
/-- The walks of either filter are the agreeing pairs. -/
theorem exists_recordPath_equiv_pairs (pg : Bool) (ha : o.a.Valid) :
    ∃ e : {rs // RecordPath o pg rs} ≃ PathPair o,
      ∀ rs, lefts rs.1 = (e rs).1.1 ∧ rights rs.1 = (e rs).1.2 := by
  apply exists_equiv_of_unique (fun (rs : {rs // RecordPath o pg rs}) (pq : PathPair o) =>
    lefts rs.1 = pq.1.1 ∧ rights rs.1 = pq.1.2)
  · rintro ⟨rs, hrs⟩
    obtain ⟨hp, hq, hface, -⟩ := recordPath_iff.mp hrs
    obtain ⟨_, walk, _⟩ := id hp
    exact ⟨⟨(lefts rs, rights rs), hp, hq, (interface_iff_names ha walk).mp hface⟩, ⟨rfl, rfl⟩,
      fun other hother => Subtype.ext (Prod.ext hother.1.symm hother.2.symm)⟩
  · rintro ⟨⟨p, q⟩, hp, hq, hnames⟩
    obtain ⟨_, walk, _⟩ := id hp
    have hface := (interface_iff_names ha walk).mpr hnames
    refine ⟨⟨mergeRecords pg p q, recordPath_iff.mpr ?_⟩,
      ⟨lefts_mergeRecords p q, rights_mergeRecords p q⟩, ?_⟩
    · rw [lefts_mergeRecords, rights_mergeRecords]
      exact ⟨hp, hq, hface, rfl⟩
    · rintro ⟨rs, hrs⟩ ⟨rfl, rfl⟩
      exact Subtype.ext (recordPath_iff.mp hrs).2.2.2

variable {mem : Param → Option (FSTArc W)} {c₀ c : CascadeParameters}

/-- What a composed path reads, writes and weighs, by what it shows. -/
theorem PathShows.labels {path : List (HalfArc W)} {rs : List (Record W)}
    (h : PathShows o mem c₀ c path rs) :
    pathInput path = pathInput (lefts rs) ∧ pathOutput path = pathOutput (rights rs) ∧
      pathWeight path = pathWeight (lefts rs) * pathWeight (rights rs) := by
  obtain ⟨join, hjoin, hshows⟩ := h
  have hinp : path.map (·.arc.inp) = (rs ++ join).map Record.inp :=
    map_eq_map_of_forall₂ (fun _ _ h => h.inp) hshows
  have hout : path.map (·.arc.out) = (rs ++ join).map Record.out :=
    map_eq_map_of_forall₂ (fun _ _ h => h.out) hshows
  have hweight : path.map (·.arc.weight) = (rs ++ join).map Record.weight :=
    map_eq_map_of_forall₂ (fun _ _ h => h.weight) hshows
  have hlefts : lefts (rs ++ join) = lefts rs := by
    rcases hjoin with rfl | rfl <;> simp [lefts, Record.leftArc?]
  have hrights : rights (rs ++ join) = rights rs := by
    rcases hjoin with rfl | rfl <;> simp [rights, Record.rightArc?]
  rw [pathInput, pathOutput, pathWeight, hinp, hout, hweight, nonEpsilon_inp, nonEpsilon_out,
    prod_weight, hlefts, hrights]
  exact ⟨rfl, rfl, rfl⟩

/-- The composed paths stand for the agreeing pairs, under either filter. -/
theorem exists_pathPair_equiv (pg : Bool) (mem : Param → Option (FSTArc W))
    (c₀ : CascadeParameters) (ha : o.a.Valid) (hb : o.b.Valid) :
    ∃ e : {π // (setCompose o c₀ pg).1.IsPath π} ≃ PathPair o,
      ∀ π, ∃ rs, PathShows o mem c₀ (setCompose o c₀ pg).2 π.1 rs ∧
        lefts rs = (e π).1.1 ∧ rights rs = (e π).1.2 := by
  obtain ⟨e, he⟩ := exists_recordPath_equiv mem c₀ pg ha hb
  obtain ⟨e', he'⟩ := exists_recordPath_equiv_pairs pg ha
  exact ⟨e.trans e', fun π => ⟨(e π).1, he π, he' (e π)⟩⟩

variable (o)

/-- **Composition with the three-state filter.** Whatever the threshold, the
paths of the composition are the pairs of agreeing operand paths, each once,
with the input of the first, the output of the second and the product of the
weights. Without such a pair there is no path. -/
theorem setCompose_threeState_paths (cascade : CascadeParameters) (ha : o.a.Valid)
    (hb : o.b.Valid) :
    (∃ e : {π // (setCompose o cascade false).1.IsPath π} ≃ PathPair o,
      ∀ π, pathInput π.1 = pathInput (e π).1.1 ∧ pathOutput π.1 = pathOutput (e π).1.2 ∧
        pathWeight π.1 = pathWeight (e π).1.1 * pathWeight (e π).1.2) ∧
    (IsEmpty (PathPair o) → (setCompose o cascade false).1.final = none ∨
      ∀ π, ¬ (setCompose o cascade false).1.IsPath π) := by
  obtain ⟨e, he⟩ := exists_pathPair_equiv false (fun _ => none) cascade ha hb
  refine ⟨⟨e, fun π => ?_⟩, fun hempty => .inr fun π hπ => hempty.elim (e ⟨π, hπ⟩)⟩
  obtain ⟨rs, hshows, hleft, hright⟩ := he π
  rw [← hleft, ← hright]
  exact hshows.labels

theorem setCompose_threeState_paths_sample :
    Nonempty ({π // (setCompose sampleOperands (.make false) false).1.IsPath π} ≃
      PathPair sampleOperands) := by
  obtain ⟨⟨e, -⟩, -⟩ := setCompose_threeState_paths sampleOperands (.make false) sampleLeft_valid
    sampleRight_valid
  exact ⟨e⟩

/-- **The two filters compose to equivalent transducers.** -/
theorem setCompose_filters_equivalent (cascade cascade' : CascadeParameters) (ha : o.a.Valid)
    (hb : o.b.Valid) :
    ∃ e : {π // (setCompose o cascade true).1.IsPath π} ≃
        {π // (setCompose o cascade' false).1.IsPath π},
      ∀ π, pathInput π.1 = pathInput (e π).1 ∧ pathOutput π.1 = pathOutput (e π).1 ∧
        pathWeight π.1 = pathWeight (e π).1 := by
  obtain ⟨e, he⟩ := exists_pathPair_equiv true (fun _ => none) cascade ha hb
  obtain ⟨e', he'⟩ := exists_pathPair_equiv false (fun _ => none) cascade' ha hb
  refine ⟨e.trans e'.symm, fun π => ?_⟩
  obtain ⟨rs, hshows, hleft, hright⟩ := he π
  obtain ⟨rs', hshows', hleft', hright'⟩ := he' (e'.symm (e π))
  rw [Equiv.apply_symm_apply] at hleft' hright'
  obtain ⟨hinp, hout, hweight⟩ := hshows.labels
  obtain ⟨hinp', hout', hweight'⟩ := hshows'.labels
  rw [Equiv.trans_apply, hinp, hout, hweight, hinp', hout', hweight', hleft, hright, hleft', hright']
  exact ⟨rfl, rfl, rfl⟩

theorem setCompose_filters_equivalent_sample :
    Nonempty ({π // (setCompose sampleOperands (.make false) true).1.IsPath π} ≃
      {π // (setCompose sampleOperands (.make false) false).1.IsPath π}) := by
  obtain ⟨e, -⟩ := setCompose_filters_equivalent sampleOperands (.make false) (.make false)
    sampleLeft_valid sampleRight_valid
  exact ⟨e⟩

/-- The three-state filter reaches two copies of the final pair and joins them. -/
example : ((setCompose sampleOperands (.make false) false).1.numStates,
    (setCompose sampleOperands (.make false) true).1.numStates) = (5, 4) := by decide

end Correct

end Carmel
