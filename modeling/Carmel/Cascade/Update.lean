/-
# Updating a composed cascade

After training has given the components new weights, the program does not
compose again: it recomputes every composed weight from its chain. The result
has the paths and weights of a new composition.
-/

import Carmel.Cascade.Composition

namespace Carmel

open Carmel.Math CascadeParameters

universe u

variable {W : Type u}

/-- What a pointer into the cascade leads to. -/
def memory (Ts : List (WFST W)) (p : Param) : Option (FSTArc W) :=
  Ts[p.fst]?.bind fun T => (T.state p.source).arcs[p.pos]?

/-- The weight a pointer into the cascade leads to. -/
def weightAt [One W] (Ts : List (WFST W)) (p : Param) : W := ((memory Ts p).map (·.weight)).getD 1

theorem storedAt_memory {Ts : List (WFST W)} {k : ℕ} {T : WFST W} (hT : Ts[k]? = some T) :
    StoredAt (memory Ts) k T := by
  intro s h hh
  obtain ⟨rfl, harc⟩ := WFST.mem_outArcs.mp hh
  rw [memory, HalfArc.param, hT, Option.bind_some]
  exact harc

/-! ## New weights -/

/-- The same arc, perhaps with a new weight; a locked arc keeps its weight. -/
structure FSTArc.Reweighted (arc arc' : FSTArc W) : Prop where
  inp : arc'.inp = arc.inp
  out : arc'.out = arc.out
  dest : arc'.dest = arc.dest
  groupId : arc'.groupId = arc.groupId
  locked : arc.isLocked = true → arc'.weight = arc.weight

/-- The same transducer with new weights on its unlocked arcs. -/
structure WFST.Reweighted (x x' : WFST W) : Prop where
  inAlph : x'.inAlph = x.inAlph
  outAlph : x'.outAlph = x.outAlph
  final : x'.final = x.final
  states : List.Forall₂
    (fun st st' => st'.size = st.size ∧ List.Forall₂ FSTArc.Reweighted st.arcs st'.arcs)
    x.states x'.states

theorem FSTArc.Reweighted.symm {arc arc' : FSTArc W} (h : arc.Reweighted arc') : arc'.Reweighted arc :=
  ⟨h.inp.symm, h.out.symm, h.dest.symm, h.groupId.symm, fun hlocked =>
    (h.locked (by rwa [isLocked, ← h.groupId])).symm⟩

namespace WFST.Reweighted

variable {x x' : WFST W}

theorem symm (h : x.Reweighted x') : x'.Reweighted x :=
  ⟨h.inAlph.symm, h.outAlph.symm, h.final.symm, .flip (h.states.imp fun _ _ hst =>
    ⟨hst.1.symm, .flip (hst.2.imp fun _ _ => FSTArc.Reweighted.symm)⟩)⟩

theorem state_arcs (h : x.Reweighted x') (s : ℕ) :
    List.Forall₂ FSTArc.Reweighted (x.state s).arcs (x'.state s).arcs := by
  rw [WFST.state, WFST.state, List.getD_eq_getElem?_getD, List.getD_eq_getElem?_getD]
  rcases hs : x.states[s]? with _ | st
  · have hs' : x'.states[s]? = none := by
      rw [List.getElem?_eq_none_iff] at hs ⊢
      rwa [← h.states.length_eq]
    rw [hs']
    exact .nil
  · obtain ⟨st', hs', -, harcs⟩ := forall₂_getElem? h.states hs
    rw [hs']
    exact harcs

theorem numStates (h : x.Reweighted x') : x'.numStates = x.numStates := h.states.length_eq.symm

theorem valid (h : x.Reweighted x') (hx : x.Valid) : x'.Valid := by
  have hback : ∀ state' ∈ x'.states, ∀ arc' ∈ state'.arcs, ∃ state ∈ x.states,
      ∃ arc ∈ state.arcs, arc.Reweighted arc' := by
    intro state' hstate' arc' harc'
    obtain ⟨i, hi⟩ := List.getElem?_of_mem hstate'
    obtain ⟨state, hstate, -, harcs⟩ := forall₂_getElem?_back h.states hi
    obtain ⟨j, hj⟩ := List.getElem?_of_mem harc'
    obtain ⟨arc, harc, hre⟩ := forall₂_getElem?_back harcs hj
    exact ⟨state, List.mem_of_getElem? hstate, arc, List.mem_of_getElem? harc, hre⟩
  refine ⟨h.numStates ▸ hx.start_lt, by rw [h.final, h.numStates]; exact hx.final_lt, ?_, ?_, ?_⟩
  · intro state' hstate' arc' harc'
    obtain ⟨state, hstate, arc, harc, hre⟩ := hback state' hstate' arc' harc'
    rw [hre.dest, h.numStates]
    exact hx.dest_lt state hstate arc harc
  · intro state' hstate' arc' harc'
    obtain ⟨state, hstate, arc, harc, hre⟩ := hback state' hstate' arc' harc'
    rw [hre.inp, h.inAlph]
    exact hx.inp_lt state hstate arc harc
  · intro state' hstate' arc' harc'
    obtain ⟨state, hstate, arc, harc, hre⟩ := hback state' hstate' arc' harc'
    rw [hre.out, h.outAlph]
    exact hx.out_lt state hstate arc harc

end WFST.Reweighted

/-- The same pointer, in two transducers with the same structure. -/
structure HalfArc.Same (h h' : HalfArc W) : Prop where
  source : h'.source = h.source
  pos : h'.pos = h.pos
  inp : h'.arc.inp = h.arc.inp
  out : h'.arc.out = h.arc.out

/-- Transducers that differ in weights only have the same paths. -/
def WFST.Reweighted.correspondence {x x' : WFST W} (hre : x.Reweighted x') :
    Correspondence x.Adj x'.Adj where
  rel := Eq
  edge s h h' := h.Same h' ∧ h ∈ x.outArcs s ∧ h' ∈ x'.outArcs s
  det := WFST.Adj.det
  det' := WFST.Adj.det
  forth := by
    rintro s _ h t rfl ⟨hh, rfl⟩
    obtain ⟨rfl, harc⟩ := WFST.mem_outArcs.mp hh
    obtain ⟨arc', harc', hr⟩ := forall₂_getElem? (hre.state_arcs h.source) harc
    have hh' : (⟨h.source, h.pos, arc'⟩ : HalfArc W) ∈ x'.outArcs h.source :=
      WFST.mem_outArcs.mpr ⟨rfl, harc'⟩
    exact ⟨⟨h.source, h.pos, arc'⟩, h.arc.dest, ⟨⟨rfl, rfl, hr.inp, hr.out⟩, hh, hh'⟩,
      ⟨hh', hr.dest⟩, rfl⟩
  back := by
    rintro s _ h' t rfl ⟨hh', rfl⟩
    obtain ⟨rfl, harc'⟩ := WFST.mem_outArcs.mp hh'
    obtain ⟨arc, harc, hr⟩ := forall₂_getElem?_back (hre.state_arcs h'.source) harc'
    have hh : (⟨h'.source, h'.pos, arc⟩ : HalfArc W) ∈ x.outArcs h'.source :=
      WFST.mem_outArcs.mpr ⟨rfl, harc⟩
    exact ⟨⟨h'.source, h'.pos, arc⟩, h'.arc.dest, ⟨⟨rfl, rfl, hr.inp, hr.out⟩, hh, hh'⟩,
      ⟨hh, hr.dest.symm⟩, rfl⟩
  right_unique := by
    rintro s h t h₁ h₂ - ⟨hs₁, -, hh₁⟩ ⟨hs₂, -, hh₂⟩
    exact WFST.outArcs_eq_of_pos hh₁ hh₂ (hs₁.pos.trans hs₂.pos.symm)
  left_unique := by
    rintro s h₁ h₂ t₁ t₂ h' - - ⟨hs₁, hh₁, -⟩ ⟨hs₂, hh₂, -⟩
    exact WFST.outArcs_eq_of_pos hh₁ hh₂ (hs₁.pos.symm.trans hs₂.pos)

theorem WFST.Reweighted.same_of_lift {x x' : WFST W} (hre : x.Reweighted x') {s : ℕ}
    {p p' : List (HalfArc W)} (lift : hre.correspondence.Lift s p p') :
    List.Forall₂ HalfArc.Same p p' := by
  refine lift.forall₂ ?_
  rintro _ _ _ _ - ⟨hsame, -⟩
  exact hsame

/-! ## Tuples of reweighted components -/

/-- A path of a component, and the path at the same addresses of the component
with new weights. -/
structure Twin (x x' : WFST W × List (HalfArc W)) : Prop where
  reweighted : x.1.Reweighted x'.1
  path : x.1.IsPath x.2
  path' : x'.1.IsPath x'.2
  same : List.Forall₂ HalfArc.Same x.2 x'.2

theorem Twin.symm {x x' : WFST W × List (HalfArc W)} (h : Twin x x') : Twin x' x :=
  ⟨h.reweighted.symm, h.path', h.path, .flip (h.same.imp fun _ _ hsame =>
    ⟨hsame.source.symm, hsame.pos.symm, hsame.inp.symm, hsame.out.symm⟩)⟩

theorem exists_twin {x : WFST W × List (HalfArc W)} {T' : WFST W} (hre : x.1.Reweighted T')
    (hx : x.1.IsPath x.2) : ∃ x', x'.1 = T' ∧ Twin x x' := by
  obtain ⟨t, walk, hfinal⟩ := id hx
  obtain ⟨p', _, lift, walk', rfl⟩ := hre.correspondence.exists_lift rfl walk
  exact ⟨(T', p'), rfl, hre, hx, ⟨t, walk', hre.final.trans hfinal⟩, hre.same_of_lift lift⟩

theorem walk_eq_of_pos {x : WFST W} {s t t' : ℕ} {p p' : List (HalfArc W)}
    (walk : Walk x.Adj s p t) (walk' : Walk x.Adj s p' t') (hpos : p.map (·.pos) = p'.map (·.pos)) :
    p = p' := by
  induction walk generalizing p' with
  | nil => exact (List.map_eq_nil_iff.mp hpos.symm).symm
  | cons step _ ih =>
    cases walk' with
    | nil => cases hpos
    | cons step' rest' =>
      rw [List.map_cons, List.map_cons, List.cons.injEq] at hpos
      obtain rfl := WFST.outArcs_eq_of_pos step.1 step'.1 hpos.1
      obtain rfl := WFST.Adj.det step step'
      rw [ih rest' hpos.2]

theorem map_pos_eq_of_same {p p' : List (HalfArc W)} (h : List.Forall₂ HalfArc.Same p p') :
    p.map (·.pos) = p'.map (·.pos) :=
  map_eq_map_of_forall₂ (fun _ _ h => h.pos.symm) h

theorem Twin.right_unique {x y z : WFST W × List (HalfArc W)} (hy : Twin x y) (hz : Twin x z)
    (hyz : y.1 = z.1) : y = z := by
  obtain ⟨T, p⟩ := y
  obtain ⟨T', q⟩ := z
  obtain rfl : T = T' := hyz
  obtain ⟨_, walk, -⟩ := hy.path'
  obtain ⟨_, walk', -⟩ := hz.path'
  have hpos := (map_pos_eq_of_same hy.same).symm.trans (map_pos_eq_of_same hz.same)
  rw [Prod.mk.injEq]
  exact ⟨rfl, walk_eq_of_pos walk walk' hpos⟩

theorem Twin.pathInput_eq {x x' : WFST W × List (HalfArc W)} (h : Twin x x') :
    pathInput x'.2 = pathInput x.2 := by
  rw [pathInput, pathInput, ← map_eq_map_of_forall₂ (fun _ _ h => HalfArc.Same.inp h) h.same.flip]

theorem Twin.pathOutput_eq {x x' : WFST W × List (HalfArc W)} (h : Twin x x') :
    pathOutput x'.2 = pathOutput x.2 := by
  rw [pathOutput, pathOutput, ← map_eq_map_of_forall₂ (fun _ _ h => HalfArc.Same.out h) h.same.flip]

theorem Twin.agree_iff {x x' y y' : WFST W × List (HalfArc W)} (hx : Twin x x') (hy : Twin y y') :
    Agree x y ↔ Agree x' y' := by
  rw [Agree, Agree, WFST.outputNames, WFST.outputNames, WFST.inputNames, WFST.inputNames,
    hx.pathOutput_eq, hy.pathInput_eq, hx.reweighted.outAlph, hy.reweighted.inAlph]

section Tuples

variable {Ts Ts' : List (WFST W)} {tp tp' : List (WFST W × List (HalfArc W))}

theorem exists_twins (hre : List.Forall₂ WFST.Reweighted Ts Ts') (hfst : tp.map Prod.fst = Ts)
    (hpath : ∀ x ∈ tp, x.1.IsPath x.2) : ∃ tp', tp'.map Prod.fst = Ts' ∧ List.Forall₂ Twin tp tp' := by
  induction hre generalizing tp with
  | nil =>
    obtain rfl := List.map_eq_nil_iff.mp hfst
    exact ⟨[], rfl, .nil⟩
  | cons hT _ ih =>
    rcases List.map_eq_cons_iff.mp hfst with ⟨x, rest, rfl, rfl, hrest⟩
    rcases exists_twin hT (hpath x List.mem_cons_self) with ⟨x', rfl, htwin⟩
    rcases ih hrest fun y hy => hpath y (List.mem_cons_of_mem _ hy) with ⟨rest', hfst', htwins⟩
    exact ⟨x' :: rest', by rw [List.map_cons, hfst'], .cons htwin htwins⟩

theorem twins_symm (h : List.Forall₂ Twin tp tp') : List.Forall₂ Twin tp' tp :=
  .flip (h.imp fun _ _ => Twin.symm)

theorem twins_isChain_iff (h : List.Forall₂ Twin tp tp') : tp.IsChain Agree ↔ tp'.IsChain Agree := by
  induction h with
  | nil => exact iff_of_true .nil .nil
  | cons hx hrest ih =>
    cases hrest with
    | nil => exact iff_of_true (.singleton _) (.singleton _)
    | cons hy _ =>
      rw [List.isChain_cons_cons, List.isChain_cons_cons, ih, hx.agree_iff hy]

theorem twins_right_unique {tq : List (WFST W × List (HalfArc W))} (h : List.Forall₂ Twin tp tp')
    (h' : List.Forall₂ Twin tp tq) (hfst : tp'.map Prod.fst = tq.map Prod.fst) : tp' = tq := by
  induction h generalizing tq with
  | nil => cases h'; rfl
  | cons hx _ ih =>
    cases h' with
    | cons hx' hrest' =>
      rw [List.map_cons, List.map_cons, List.cons.injEq] at hfst
      rw [hx.right_unique hx' hfst.1, ih hrest' hfst.2]

theorem exists_linked_equiv (hre : List.Forall₂ WFST.Reweighted Ts Ts') :
    ∃ e : {tp // Linked Ts tp} ≃ {tp // Linked Ts' tp}, ∀ tp, List.Forall₂ Twin tp.1 (e tp).1 := by
  apply exists_equiv_of_unique (fun (tp : {tp // Linked Ts tp}) (tp' : {tp // Linked Ts' tp}) =>
    List.Forall₂ Twin tp.1 tp'.1)
  · rintro ⟨tp, hfst, hpath, hagree⟩
    rcases exists_twins hre hfst hpath with ⟨tp', hfst', htwins⟩
    have hpath' : ∀ x ∈ tp', x.1.IsPath x.2 := by
      intro x' hx'
      obtain ⟨i, hi⟩ := List.getElem?_of_mem hx'
      obtain ⟨x, -, htwin⟩ := forall₂_getElem?_back htwins hi
      exact htwin.path'
    exact ⟨⟨tp', hfst', hpath', (twins_isChain_iff htwins).mp hagree⟩, htwins, fun other hother =>
      Subtype.ext (twins_right_unique hother htwins (other.2.fst.trans hfst'.symm))⟩
  · rintro ⟨tp', hfst', hpath', hagree'⟩
    rcases exists_twins (.flip (hre.imp fun _ _ => WFST.Reweighted.symm)) hfst' hpath' with
      ⟨tp, hfst, htwins'⟩
    have htwins := twins_symm htwins'
    have hpath : ∀ x ∈ tp, x.1.IsPath x.2 := by
      intro x hx
      obtain ⟨i, hi⟩ := List.getElem?_of_mem hx
      obtain ⟨x', -, htwin⟩ := forall₂_getElem? htwins hi
      exact htwin.path
    exact ⟨⟨tp, hfst, hpath, (twins_isChain_iff htwins).mpr hagree'⟩, htwins, fun other hother =>
      Subtype.ext (twins_right_unique (twins_symm hother) htwins' (other.2.fst.trans hfst.symm))⟩

variable [CommMonoid W]

/-- What the pointers to a component's arcs lead to, now that the components
have the weights of `Ts'`. -/
theorem prod_weightAt {k : ℕ} {x x' : WFST W × List (HalfArc W)} (h : Twin x x')
    (hT' : Ts'[k]? = some x'.1) :
    (x.2.map fun h => weightAt Ts' (h.param k)).prod = pathWeight x'.2 := by
  obtain ⟨_, walk', -⟩ := h.path'
  have hmap : x.2.map (fun h => weightAt Ts' (h.param k)) =
      x'.2.map fun h => weightAt Ts' (h.param k) := by
    refine map_eq_map_of_forall₂ (fun a b hab => ?_) h.same
    rw [HalfArc.param, HalfArc.param, hab.source, hab.pos]
  have hweight : x'.2.map (fun h => weightAt Ts' (h.param k)) = x'.2.map (·.arc.weight) := by
    apply List.map_congr_left
    intro a ha
    obtain ⟨s, _, step⟩ := walk'.exists_step ha
    rw [weightAt, storedAt_memory hT' s a step.1]
    rfl
  rw [hmap, hweight, pathWeight]

theorem tupleWeight_weightAt {k : ℕ} (h : List.Forall₂ Twin tp tp')
    (hTs' : ∀ i, Ts'[k + i]? = (tp'.map Prod.fst)[i]?) :
    tupleWeight (weightAt Ts') k tp = (tp'.map fun x => pathWeight x.2).prod := by
  induction h generalizing k with
  | nil => rfl
  | cons hx _ ih =>
    have hhead := prod_weightAt hx (k := k) (hTs' 0)
    rw [tupleWeight, List.map_cons, List.prod_cons, hhead, ih]
    intro i
    rw [Nat.add_assoc, Nat.add_comm 1 i]
    exact hTs' (i + 1)

variable [DecidableEq W]

/-- New weights leave arcs locked at one alone. -/
theorem admissible_weightAt (hre : List.Forall₂ WFST.Reweighted Ts Ts') :
    Admissible (memory Ts) (weightAt Ts') := by
  intro p arc hp hlocked
  rw [memory, Option.bind_eq_some_iff] at hp
  obtain ⟨T, hT, harc⟩ := hp
  obtain ⟨T', hT', hr⟩ := forall₂_getElem? hre hT
  obtain ⟨arc', harc', hr'⟩ := forall₂_getElem? (hr.state_arcs p.source) harc
  rw [isLocked1, Bool.and_eq_true_iff] at hlocked
  rw [weightAt, memory, hT', Option.bind_some, harc', Option.map_some, Option.getD_some,
    hr'.locked hlocked.1]
  exact of_decide_eq_true hlocked.2

end Tuples

section Update

variable [CommMonoid W] {c : CascadeParameters} (current : Param → W) (R : WFST W)

/-- A pointer to an arc, after the update. -/
def updatedArc (c : CascadeParameters) (h : HalfArc W) : HalfArc W :=
  { h with arc := updateComposedArc (c.calculateChainWeights current) h.arc }

theorem accumulateChain_eq (chain : List Param) :
    accumulateChain current 1 chain = (chain.map current).prod := by
  rw [accumulateChain, List.prod_eq_foldl, List.foldl_map]

theorem state_update (hc : c.trivial = false) (s : ℕ) : ((c.update current R).state s).arcs =
    (R.state s).arcs.map (updateComposedArc (c.calculateChainWeights current)) := by
  rw [update, if_neg (by simp [hc])]
  simp only [WFST.state, List.getD_eq_getElem?_getD, List.getElem?_map]
  cases R.states[s]? <;> rfl

theorem mem_outArcs_update (hc : c.trivial = false) {s : ℕ} {h' : HalfArc W} :
    h' ∈ (c.update current R).outArcs s ↔ ∃ h ∈ R.outArcs s, h' = updatedArc current c h := by
  rw [WFST.mem_outArcs, state_update current R hc, List.getElem?_map, Option.map_eq_some_iff]
  constructor
  · rintro ⟨rfl, arc, harc, hupd⟩
    refine ⟨⟨h'.source, h'.pos, arc⟩, WFST.mem_outArcs.mpr ⟨rfl, harc⟩, ?_⟩
    rw [updatedArc, hupd]
  · rintro ⟨h, hh, rfl⟩
    obtain ⟨hs, harc⟩ := WFST.mem_outArcs.mp hh
    exact ⟨hs, h.arc, harc, rfl⟩

/-- The update changes weights only. -/
def updateCorrespondence (hc : c.trivial = false) :
    Correspondence R.Adj (c.update current R).Adj where
  rel := Eq
  edge s h h' := h ∈ R.outArcs s ∧ h' = updatedArc current c h
  det := WFST.Adj.det
  det' := WFST.Adj.det
  forth := by
    rintro s _ h t rfl ⟨hh, rfl⟩
    exact ⟨updatedArc current c h, h.arc.dest, ⟨hh, rfl⟩,
      ⟨(mem_outArcs_update current R hc).mpr ⟨h, hh, rfl⟩, rfl⟩, rfl⟩
  back := by
    rintro s _ h' t rfl ⟨hh', rfl⟩
    obtain ⟨h, hh, rfl⟩ := (mem_outArcs_update current R hc).mp hh'
    exact ⟨h, h.arc.dest, ⟨hh, rfl⟩, ⟨hh, rfl⟩, rfl⟩
  right_unique := by
    rintro s h t h₁ h₂ - ⟨-, rfl⟩ ⟨-, rfl⟩
    rfl
  left_unique := by
    rintro s h₁ h₂ t₁ t₂ h' ⟨hh₁, -⟩ ⟨hh₂, -⟩ ⟨-, rfl⟩ ⟨-, heq⟩
    have hpos : (updatedArc current c h₁).pos = (updatedArc current c h₂).pos := by rw [heq]
    exact WFST.outArcs_eq_of_pos hh₁ hh₂ hpos

/-- The updated transducer has the same paths. -/
theorem exists_update_equiv (hc : c.trivial = false) :
    ∃ e : {π // R.IsPath π} ≃ {π // (c.update current R).IsPath π},
      ∀ π, (e π).1 = π.1.map (updatedArc current c) := by
  have hfinal : (c.update current R).final = R.final := by
    rw [update, if_neg (by simp [hc])]
  obtain ⟨e, he⟩ := (updateCorrespondence current R hc).exists_equiv (fun s => R.final = some s)
    (fun s => (c.update current R).final = some s) (rfl : 0 = 0)
    (by rintro s _ rfl; rw [hfinal])
  refine ⟨e, fun π => ?_⟩
  have hlift : List.Forall₂ (fun h h' => h' = updatedArc current c h) π.1 (e π).1 := by
    refine (he π).forall₂ ?_
    rintro s h t h' - ⟨-, rfl⟩
    rfl
  have hmap := map_eq_map_of_forall₂ (g := id) (fun _ _ h => h.symm) hlift
  rw [List.map_id] at hmap
  exact hmap.symm

/-- **An updated path weighs what its chains weigh.** -/
theorem pathWeight_updated (path : List (HalfArc W)) (addr : ℕ) :
    pathWeight (path.map (updatedArc current c)) =
      (path.map (c.factor current addr true)).prod := by
  rw [pathWeight, List.map_map]
  refine congrArg List.prod (List.map_congr_left fun h _ => ?_)
  rw [Function.comp_apply, updatedArc, updateComposedArc, calculateChainWeights, factor, if_pos rfl,
    chainOf, List.getD_eq_getElem?_getD, List.getElem?_map, List.getD_eq_getElem?_getD]
  cases c.chains[h.arc.groupId]? with
  | none => rfl
  | some chain => exact accumulateChain_eq current chain

end Update

section Cascade

variable [CommMonoid W] [DecidableEq W]

theorem sound_make (mem : Param → Option (FSTArc W)) : (make true).Sound mem :=
  ⟨rfl, rfl, fun p id h => absurd h (by simp [make])⟩

/-- Composing a cascade, from either side, gives a transducer that stands for it. -/
theorem composeCascade_standsFor (σ : CascadeSettings W) (r remember : Bool) {Ts : List (WFST W)}
    (hlen : 2 ≤ Ts.length) (hvalid : ∀ T ∈ Ts, T.Valid) :
    ∃ R c, composeCascade σ r (make remember) Ts = some (R, c) ∧
      (remember = true → c.Sound (memory Ts)) ∧
      ∃ addr e, StandsFor (memory Ts) (remember = true) c 0 Ts R addr true e := by
  have hsound : remember = true → (make remember).Sound (memory Ts) := by
    rintro rfl
    exact sound_make _
  have hmem : ∀ p ∈ Ts.zipIdx, StoredAt (memory Ts) p.2 p.1 := by
    intro p hp
    exact storedAt_memory (List.mk_mem_zipIdx_iff_getElem?.mp hp)
  cases r with
  | false =>
    rcases Ts with _ | ⟨T, Bs⟩
    · simp at hlen
    · have hBs : Bs ≠ [] := by
        rintro rfl
        simp at hlen
      rw [List.zipIdx_cons] at hmem
      obtain ⟨eT, hT⟩ := standsFor_single (remember = true) (make remember) 0
        (hvalid T List.mem_cons_self) (hmem _ List.mem_cons_self)
      obtain ⟨hsound', addr, e, hR⟩ := composeChain_left σ Bs true hT hsound
        (fun B hB => hvalid B (List.mem_cons_of_mem _ hB))
        (fun p hp => hmem p (List.mem_cons_of_mem _ hp)) (.inl hBs)
      refine ⟨_, _, ?_, hsound', addr, e, hR⟩
      simp [composeCascade, chainOrder]
  | true =>
    rcases List.eq_nil_or_concat' Ts with rfl | ⟨Bs, T, rfl⟩
    · simp at hlen
    · have hBs : Bs ≠ [] := by
        rintro rfl
        simp at hlen
      rw [List.zipIdx_append, Nat.zero_add, List.zipIdx_singleton] at hmem
      obtain ⟨eT, hT⟩ := standsFor_single (remember = true) (make remember) Bs.length
        (hvalid T (by simp)) (hmem (T, Bs.length) (by simp))
      obtain ⟨hsound', addr, e, hR⟩ := composeChain_right σ Bs true hT hsound
        (fun B hB => hvalid B (List.mem_append_left _ hB))
        (fun p hp => hmem p (List.mem_append_left _ hp)) (.inl hBs)
      refine ⟨_, _, ?_, hsound', addr, e, hR⟩
      simp [composeCascade, chainOrder, List.zipIdx_append]

/-- Every arc of a composed cascade refers to a chain. -/
theorem composeCascade_recorded (σ : CascadeSettings W) (r : Bool) {Ts : List (WFST W)}
    (hlen : 2 ≤ Ts.length) (hvalid : ∀ T ∈ Ts, T.Valid) :
    ∃ R c, composeCascade σ r (make true) Ts = some (R, c) ∧ c.trivial = false ∧ c.Chained R := by
  obtain ⟨R, c, hR, hsound, addr, e, hstands⟩ := composeCascade_standsFor σ r true hlen hvalid
  exact ⟨R, c, hR, (hsound rfl).nontrivial, hstands.recorded rfl⟩

/-- A composed path reads what the first component path reads and writes what
the last one writes. -/
def ReadsWrites (path : List (HalfArc W)) (tp : List (WFST W × List (HalfArc W))) : Prop :=
  (∀ x ∈ tp.head?, pathInput path = pathInput x.2) ∧
    ∀ x ∈ tp.getLast?, pathOutput path = pathOutput x.2

omit [CommMonoid W] [DecidableEq W] in
theorem twins_readsWrites_iff {path : List (HalfArc W)} {tp tp' : List (WFST W × List (HalfArc W))}
    (h : List.Forall₂ Twin tp tp') : ReadsWrites path tp ↔ ReadsWrites path tp' := by
  have hhead {tp tp' : List (WFST W × List (HalfArc W))} (h : List.Forall₂ Twin tp tp') :
      (∀ x ∈ tp.head?, pathInput path = pathInput x.2) ↔
        ∀ x ∈ tp'.head?, pathInput path = pathInput x.2 := by
    cases h with
    | nil => exact Iff.rfl
    | cons hx _ => simp [hx.pathInput_eq]
  have hlast {tp tp' : List (WFST W × List (HalfArc W))} (h : List.Forall₂ Twin tp tp') :
      (∀ x ∈ tp.head?, pathOutput path = pathOutput x.2) ↔
        ∀ x ∈ tp'.head?, pathOutput path = pathOutput x.2 := by
    cases h with
    | nil => exact Iff.rfl
    | cons hx _ => simp [hx.pathOutput_eq]
  have hreverse := hlast (List.rel_reverse h)
  rw [List.head?_reverse, List.head?_reverse] at hreverse
  exact and_congr (hhead h) hreverse

omit [CommMonoid W] [DecidableEq W] in
theorem ReadsWrites.unique {path path' : List (HalfArc W)}
    {tp : List (WFST W × List (HalfArc W))} (hne : tp ≠ []) (h : ReadsWrites path tp)
    (h' : ReadsWrites path' tp) : pathInput path = pathInput path' ∧ pathOutput path = pathOutput path' := by
  have hhead : tp.head? = some (tp.head hne) := List.head?_eq_some_head hne
  have hlast : tp.getLast? = some (tp.getLast hne) := List.getLast?_eq_some_getLast hne
  exact ⟨(h.1 _ hhead).trans (h'.1 _ hhead).symm, (h.2 _ hlast).trans (h'.2 _ hlast).symm⟩

/-- **After an update the composed paths weigh what the component paths they
stand for weigh now**, whichever way the cascade was composed; and the updated
transducer is equivalent to composing the components with their new weights. -/
theorem update_composeCascade (σ : CascadeSettings W) (r : Bool) (Ts : List (WFST W))
    (hlen : 2 ≤ Ts.length) (hvalid : ∀ T ∈ Ts, T.Valid) :
    ∃ R c, composeCascade σ r (make true) Ts = some (R, c) ∧
      ∃ e : {π // R.IsPath π} ≃ {tp // Linked Ts tp}, (∀ π, ReadsWrites π.1 (e π).1) ∧
        ∀ Ts', List.Forall₂ WFST.Reweighted Ts Ts' →
          (∃ u : {π // R.IsPath π} ≃ {π // (c.update (weightAt Ts') R).IsPath π},
            ∀ π, List.Forall₂ HalfArc.Same π.1 (u π).1 ∧
              pathWeight (u π).1 = tupleWeight (weightAt Ts') 0 (e π).1) ∧
          ∃ R' c', composeCascade σ r (make true) Ts' = some (R', c') ∧
            ∃ e' : {π // (c.update (weightAt Ts') R).IsPath π} ≃ {π // R'.IsPath π},
              ∀ π, pathInput π.1 = pathInput (e' π).1 ∧ pathOutput π.1 = pathOutput (e' π).1 ∧
                pathWeight π.1 = pathWeight (e' π).1 := by
  obtain ⟨R, c, hR, hsound, addr, e, hstands⟩ := composeCascade_standsFor σ r true hlen hvalid
  refine ⟨R, c, hR, e, fun π => ⟨hstands.inp π, hstands.out π⟩, fun Ts' hre => ?_⟩
  have hc : c.trivial = false := (hsound rfl).nontrivial
  obtain ⟨u, hu⟩ := exists_update_equiv (weightAt Ts') R hc
  have hweight (π : {π // R.IsPath π}) :
      pathWeight (u π).1 = tupleWeight (weightAt Ts') 0 (e π).1 := by
    rw [hu, pathWeight_updated _ _ addr]
    exact hstands.track rfl _ (admissible_weightAt hre) π
  have hsame (π : {π // R.IsPath π}) : List.Forall₂ HalfArc.Same π.1 (u π).1 := by
    rw [hu, List.forall₂_map_right_iff, List.forall₂_same]
    exact fun h _ => ⟨rfl, rfl, rfl, rfl⟩
  refine ⟨⟨u, fun π => ⟨hsame π, hweight π⟩⟩, ?_⟩
  -- The components with their new weights, composed from scratch.
  have hvalid' : ∀ T' ∈ Ts', T'.Valid := by
    intro T' hT'
    obtain ⟨i, hi⟩ := List.getElem?_of_mem hT'
    obtain ⟨T, hT, hr⟩ := forall₂_getElem?_back hre hi
    exact hr.valid (hvalid T (List.mem_of_getElem? hT))
  obtain ⟨R', c', hR', -, addr', e₂, hstands'⟩ :=
    composeCascade_standsFor σ r true (hre.length_eq ▸ hlen) hvalid'
  obtain ⟨t, ht⟩ := exists_linked_equiv hre
  refine ⟨R', c', hR', u.symm.trans (e.trans (t.trans e₂.symm)), fun π => ?_⟩
  obtain ⟨π, rfl⟩ := u.surjective π
  rw [Equiv.trans_apply, Equiv.symm_apply_apply, Equiv.trans_apply, Equiv.trans_apply]
  have he₂ : e₂ (e₂.symm (t (e π))) = t (e π) := Equiv.apply_symm_apply ..
  have hne : (t (e π)).1 ≠ [] := fun h =>
    hstands'.nonempty (by rw [← (t (e π)).2.fst, h, List.map_nil])
  have hold : ReadsWrites π.1 (t (e π)).1 :=
    (twins_readsWrites_iff (ht (e π))).mp ⟨hstands.inp π, hstands.out π⟩
  have hnew : ReadsWrites (e₂.symm (t (e π))).1 (t (e π)).1 := by
    have h : ReadsWrites (e₂.symm (t (e π))).1 (e₂ (e₂.symm (t (e π)))).1 :=
      ⟨hstands'.inp _, hstands'.out _⟩
    rwa [he₂] at h
  obtain ⟨hinp, hout⟩ := hold.unique hne hnew
  have hmapInp : π.1.map (·.arc.inp) = (u π).1.map (·.arc.inp) :=
    map_eq_map_of_forall₂ (fun _ _ h => h.inp.symm) (hsame π)
  have hmapOut : π.1.map (·.arc.out) = (u π).1.map (·.arc.out) :=
    map_eq_map_of_forall₂ (fun _ _ h => h.out.symm) (hsame π)
  refine ⟨?_, ?_, ?_⟩
  · rw [← hinp, pathInput, pathInput, hmapInp]
  · rw [← hout, pathOutput, pathOutput, hmapOut]
  · rw [hweight, hstands'.weight, he₂]
    apply tupleWeight_weightAt (ht (e π))
    intro i
    rw [Nat.zero_add, (t (e π)).2.fst]

theorem update_composeCascade_sample :
    ∃ R c, composeCascade ⟨12, ⟨id, fun _ => .refl _⟩, true⟩ true (make true)
        [sampleLeft, sampleRight] = some (R, c) ∧
      Nonempty ({π // R.IsPath π} ≃ {tp // Linked [sampleLeft, sampleRight] tp}) := by
  obtain ⟨R, c, hR, e, -⟩ := update_composeCascade ⟨12, ⟨id, fun _ => .refl _⟩, true⟩ true
    [sampleLeft, sampleRight] (by decide) (by
      intro T hT
      rcases List.mem_pair.mp hT with rfl | rfl
      · exact sampleLeft_valid
      · exact sampleRight_valid)
  exact ⟨R, c, hR, ⟨e⟩⟩

end Cascade

end Carmel
