/-
# Leaving out states and arcs

Several operations throw away states and arcs, give the states that stay new
numbers, and change nothing else. A path that takes only what stays is a path
of the result, arc by arc, and every path of the result comes from one.
-/

import Carmel.Fst.Wfst

namespace Carmel

open Carmel.Math

universe u

/-- The arc `b` is the arc `a`, but for where it leads. -/
structure SameArc {W : Type u} (a b : FSTArc W) : Prop where
  inp : b.inp = a.inp
  out : b.out = a.out
  weight : b.weight = a.weight
  groupId : b.groupId = a.groupId

namespace WFST

variable {W : Type u} {x y : WFST W} {num : ℕ → Option ℕ}
variable {edit : ℕ → FSTArc W → Option (FSTArc W)} {i j : ℕ} {h h' : HalfArc W}

theorem state_mem (x : WFST W) (hi : i < x.numStates) : x.state i ∈ x.states := by
  rw [state, List.getD_eq_getElem?_getD, List.getElem?_eq_getElem hi]
  exact List.getElem_mem hi

/-- `y` is what is left of `x`: `num` gives the new numbers of the states that stay,
and `edit i` what becomes of an arc out of `i`. -/
structure Restricts (x y : WFST W) (num : ℕ → Option ℕ)
    (edit : ℕ → FSTArc W → Option (FSTArc W)) : Prop where
  lt : ∀ {i j}, num i = some j → i < x.numStates
  lt' : ∀ {i j}, num i = some j → j < y.numStates
  inj : ∀ {i i' j}, num i = some j → num i' = some j → i = i'
  onto : ∀ j < y.numStates, ∃ i, num i = some j
  arcs : ∀ {i j}, num i = some j → (y.state j).arcs = (x.state i).arcs.filterMap (edit i)
  same : ∀ {i a b}, edit i a = some b → SameArc a b
  dest : ∀ {i a b}, edit i a = some b → num a.dest = some b.dest

/-- Taking an arc that stays, out of a state that stays. -/
def KeptAdj (x : WFST W) (num : ℕ → Option ℕ) (edit : ℕ → FSTArc W → Option (FSTArc W)) (i : ℕ)
    (h : HalfArc W) (k : ℕ) : Prop :=
  x.Adj i h k ∧ (∃ j, num i = some j) ∧ ∃ b, edit i h.arc = some b

/-- The arc `h` out of the state `i` has become `h'`. -/
structure MovedArc (x : WFST W) (num : ℕ → Option ℕ) (edit : ℕ → FSTArc W → Option (FSTArc W)) (i : ℕ)
    (h h' : HalfArc W) : Prop where
  source : num i = some h'.source
  pos : newPos (edit i) (x.state i).arcs h.pos = h'.pos
  arc : edit i h.arc = some h'.arc

namespace Restricts

theorem exists_arcs (r : x.Restricts y num edit) {state : State W} (hstate : state ∈ y.states) :
    ∃ i j, num i = some j ∧ state.arcs = (x.state i).arcs.filterMap (edit i) := by
  obtain ⟨j, hj, rfl⟩ := List.getElem_of_mem hstate
  obtain ⟨i, hi⟩ := r.onto j hj
  refine ⟨i, j, hi, ?_⟩
  rw [← r.arcs hi, WFST.state, List.getD_eq_getElem?_getD, List.getElem?_eq_getElem hj,
    Option.getD_some]

theorem dest_lt (r : x.Restricts y num edit) {state : State W} (hstate : state ∈ y.states)
    {a : FSTArc W} (ha : a ∈ state.arcs) : a.dest < y.numStates := by
  obtain ⟨i, j, -, harcs⟩ := r.exists_arcs hstate
  rw [harcs, List.mem_filterMap] at ha
  obtain ⟨b, -, hb⟩ := ha
  exact r.lt' (r.dest hb)

theorem valid (r : x.Restricts y num edit) (hx : x.Valid) (halph : y.inAlph = x.inAlph)
    (halph' : y.outAlph = x.outAlph) (hstart : num 0 = some 0)
    (hfinal : ∃ f, y.final = some f ∧ f < y.numStates) : y.Valid where
  start_lt := r.lt' hstart
  final_lt := hfinal
  dest_lt _ hstate _ := r.dest_lt hstate
  inp_lt := by
    intro state hstate a ha
    obtain ⟨i, j, hij, harcs⟩ := r.exists_arcs hstate
    rw [harcs, List.mem_filterMap] at ha
    obtain ⟨b, hb, hba⟩ := ha
    rw [(r.same hba).inp, halph]
    exact hx.inp_lt _ (x.state_mem (r.lt hij)) b hb
  out_lt := by
    intro state hstate a ha
    obtain ⟨i, j, hij, harcs⟩ := r.exists_arcs hstate
    rw [harcs, List.mem_filterMap] at ha
    obtain ⟨b, hb, hba⟩ := ha
    rw [(r.same hba).out, halph']
    exact hx.out_lt _ (x.state_mem (r.lt hij)) b hb

theorem forth (r : x.Restricts y num edit) (hi : num i = some j) {k : ℕ}
    (hstep : x.KeptAdj num edit i h k) :
    ∃ h' k', x.MovedArc num edit i h h' ∧ y.Adj j h' k' ∧ num k = some k' := by
  obtain ⟨⟨hmem, rfl⟩, -, b, hb⟩ := hstep
  have harc := (mem_outArcs.mp hmem).2
  refine ⟨⟨j, newPos (edit i) (x.state i).arcs h.pos, b⟩, b.dest, ⟨hi, rfl, hb⟩, ⟨?_, rfl⟩, r.dest hb⟩
  rw [mem_outArcs, r.arcs hi]
  exact ⟨rfl, filterMap_getElem?_newPos harc hb⟩

theorem back (r : x.Restricts y num edit) (hi : num i = some j) {k' : ℕ} (hstep : y.Adj j h' k') :
    ∃ h k, x.MovedArc num edit i h h' ∧ x.KeptAdj num edit i h k ∧ num k = some k' := by
  obtain ⟨hmem, rfl⟩ := hstep
  obtain ⟨rfl, harc⟩ := mem_outArcs.mp hmem
  rw [r.arcs hi] at harc
  obtain ⟨p, a, ha, hb, hp⟩ := exists_newPos harc
  exact ⟨⟨i, p, a⟩, a.dest, ⟨hi, hp, hb⟩, ⟨⟨mem_outArcs.mpr ⟨rfl, ha⟩, rfl⟩, ⟨_, hi⟩, _, hb⟩,
    r.dest hb⟩

/-- The transducer without what is left out, and the result, step by step. -/
def correspondence (r : x.Restricts y num edit) :
    Correspondence (x.KeptAdj num edit) y.Adj where
  rel i j := num i = some j
  edge := x.MovedArc num edit
  det first second := Adj.det first.1 second.1
  det' := Adj.det
  forth hi hstep := r.forth hi hstep
  back hi hstep := r.back hi hstep
  right_unique := by
    intro i h k h₁ h₂ _ first second
    obtain ⟨s₁, p₁, a₁⟩ := h₁
    obtain ⟨s₂, p₂, a₂⟩ := h₂
    obtain rfl : s₁ = s₂ := Option.some.inj (first.source.symm.trans second.source)
    obtain rfl : p₁ = p₂ := first.pos.symm.trans second.pos
    obtain rfl : a₁ = a₂ := Option.some.inj (first.arc.symm.trans second.arc)
    rfl
  left_unique := by
    intro i h₁ h₂ k₁ k₂ h' first second hedge₁ hedge₂
    have harc₁ := (mem_outArcs.mp first.1.1).2
    have harc₂ := (mem_outArcs.mp second.1.1).2
    refine outArcs_eq_of_pos first.1.1 second.1.1 ?_
    exact newPos_injective harc₁ harc₂ hedge₁.arc hedge₂.arc (hedge₁.pos.trans hedge₂.pos.symm)

theorem final_iff (r : x.Restricts y num edit) (hfinal : y.final = x.final.bind num)
    (hi : num i = some j) : x.final = some i ↔ y.final = some j := by
  rw [hfinal, Option.bind_eq_some_iff]
  constructor
  · intro h
    exact ⟨i, h, hi⟩
  · rintro ⟨f, hf, hfj⟩
    rwa [r.inj hi hfj]

/-- An arc and what it has become, along a path. -/
def Image (num : ℕ → Option ℕ) (h h' : HalfArc W) : Prop :=
  num h.source = some h'.source ∧ SameArc h.arc h'.arc ∧ num h.arc.dest = some h'.arc.dest

/-- **What stays keeps its paths.** Where the start stays the start and the final state
the final state, the paths over what stays are the paths of the result. -/
theorem exists_equiv (r : x.Restricts y num edit) (hstart : num 0 = some 0)
    (hfinal : ∀ {i j}, num i = some j → (x.final = some i ↔ y.final = some j)) :
    ∃ e : {p // Accepted (x.KeptAdj num edit) (fun s => x.final = some s) 0 p} ≃
        {p // y.IsPath p},
      ∀ p, List.Forall₂ (Image num) p.1 (e p).1 := by
  obtain ⟨e, he⟩ := r.correspondence.exists_equiv (a := 0) (fun s => x.final = some s)
    (fun s => y.final = some s) hstart hfinal
  refine ⟨e, fun p => (he p).forall₂ fun {i h k h'} hstep hedge => ?_⟩
  refine ⟨?_, r.same hedge.arc, r.dest hedge.arc⟩
  rw [(mem_outArcs.mp hstep.1.1).1]
  exact hedge.source

end Restricts

theorem Restricts.Image.pathInput_eq {p p' : List (HalfArc W)}
    (h : List.Forall₂ (Restricts.Image num) p p') : pathInput p = pathInput p' :=
  congrArg nonEpsilon (map_eq_map_of_forall₂ (fun _ _ h => h.2.1.inp.symm) h)

theorem Restricts.Image.pathOutput_eq {p p' : List (HalfArc W)}
    (h : List.Forall₂ (Restricts.Image num) p p') : pathOutput p = pathOutput p' :=
  congrArg nonEpsilon (map_eq_map_of_forall₂ (fun _ _ h => h.2.1.out.symm) h)

theorem Restricts.Image.pathWeight_eq [CommMonoid W] {p p' : List (HalfArc W)}
    (h : List.Forall₂ (Restricts.Image num) p p') : pathWeight p = pathWeight p' :=
  congrArg List.prod (map_eq_map_of_forall₂ (fun _ _ h => h.2.1.weight.symm) h)

theorem isPath_of_kept {p : List (HalfArc W)}
    (h : Accepted (x.KeptAdj num edit) (fun s => x.final = some s) 0 p) : x.IsPath p := by
  obtain ⟨v, hwalk, hv⟩ := h
  exact ⟨v, hwalk.mono And.left, hv⟩

end WFST

end Carmel
