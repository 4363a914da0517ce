/-
# What a cascade transduces

A transducer gives every pair of a text read and a text written a weight, that of its paths
for them taken together. Compositions transduce what their operands do one after the other,
and so the order in which a cascade is composed, the filter and the threshold do not matter.
-/

import Carmel.Cascade.Update
import Carmel.Math.WeightedRelations

namespace Carmel

open Math CascadeParameters
open scoped ENNReal

variable {W : Type} [CommMonoid W] (S : Aggregate W)

/-- The weights of all paths, by the names that are read and written. -/
def WFST.transduction (x : WFST W) : List (Option String) → List (Option String) → W :=
  S.rel (fun π : {π // x.IsPath π} => x.inputNames π.1) (fun π => x.outputNames π.1)
    fun π => pathWeight π.1

section Tuples

/-- What the first of some component paths reads. -/
def tupleInput (tp : List (WFST W × List (HalfArc W))) : List (Option String) :=
  (tp.head?.map fun x => x.1.inputNames x.2).getD []

/-- What the last of some component paths writes. -/
def tupleOutput (tp : List (WFST W × List (HalfArc W))) : List (Option String) :=
  (tp.getLast?.map fun x => x.1.outputNames x.2).getD []

def tuples (Ts : List (WFST W)) : List (Option String) → List (Option String) → W :=
  S.rel (fun tp : {tp // Linked Ts tp} => tupleInput tp.1) (fun tp => tupleOutput tp.1)
    fun tp => (tp.1.map fun x => pathWeight x.2).prod

variable {T T' : WFST W} {Ts : List (WFST W)}

omit [CommMonoid W] in
theorem linked_cons_iff {p : List (HalfArc W)} {tq : List (WFST W × List (HalfArc W))} :
    Linked (T :: T' :: Ts) ((T, p) :: tq) ↔
      T.IsPath p ∧ Linked (T' :: Ts) tq ∧ T.outputNames p = tupleInput tq := by
  cases tq with
  | nil =>
    refine iff_of_false (fun h => ?_) fun h => ?_
    · simpa using h.fst
    · simpa using h.2.1.fst
  | cons y tq =>
    constructor
    · intro h
      rcases List.isChain_cons_cons.mp h.agree with ⟨hagree, hrest⟩
      refine ⟨h.path _ List.mem_cons_self, ⟨(List.cons.inj h.fst).2, fun x hx => ?_, hrest⟩, hagree⟩
      exact h.path x (List.mem_cons_of_mem _ hx)
    · rintro ⟨hp, htq, hagree⟩
      refine ⟨congrArg (T :: ·) htq.fst, fun x hx => ?_, List.isChain_cons_cons.mpr ⟨hagree, htq.agree⟩⟩
      rcases List.mem_cons.mp hx with rfl | hx
      · exact hp
      · exact htq.path x hx

/-- A path of the first component and one of each other, in agreement. -/
theorem tuples_cons : tuples S (T :: T' :: Ts) = S.comp (T.transduction S) (tuples S (T' :: Ts)) := by
  rw [WFST.transduction, tuples, tuples, ← S.rel_pairs]
  let cons (p : {p : {π // T.IsPath π} × {tp // Linked (T' :: Ts) tp} //
      T.outputNames p.1.1 = tupleInput p.2.1}) : {tp // Linked (T :: T' :: Ts) tp} :=
    ⟨(T, p.1.1.1) :: p.1.2.1, linked_cons_iff.mpr ⟨p.1.1.2, p.1.2.2, p.2⟩⟩
  have hcons : Function.Bijective cons := by
    constructor
    · rintro ⟨⟨⟨p, hp⟩, tq, htq⟩, h⟩ ⟨⟨⟨p', hp'⟩, tq', htq'⟩, h'⟩ heq
      cases congrArg Subtype.val heq
      rfl
    · rintro ⟨tp, htp⟩
      rcases List.map_eq_cons_iff.mp htp.fst with ⟨⟨T₀, p⟩, tq, rfl, rfl, -⟩
      rcases linked_cons_iff.mp htp with ⟨hp, htq, h⟩
      exact ⟨⟨⟨⟨p, hp⟩, tq, htq⟩, h⟩, rfl⟩
  refine (S.rel_congr (.ofBijective cons hcons) (fun _ => rfl) (fun p => ?_) fun p => ?_).symm
  · obtain ⟨⟨⟨p, hp⟩, tq, htq⟩, h⟩ := p
    cases tq with
    | nil => simpa using htq.fst
    | cons y tq => rfl
  · exact List.prod_cons.symm

variable [DecidableEq W] {mem : Param → Option (FSTArc W)} {remember : Prop}

section Stands

variable {c : CascadeParameters} {k addr : ℕ} {R : WFST W} {chained : Bool}
variable {e : {π // R.IsPath π} ≃ {tp // Linked Ts tp}}

theorem StandsFor.names_eq (h : StandsFor mem remember c k Ts R addr chained e)
    (π : {π // R.IsPath π}) :
    R.inputNames π.1 = tupleInput (e π).1 ∧ R.outputNames π.1 = tupleOutput (e π).1 := by
  have hne : (e π).1 ≠ [] := fun hnil => h.nonempty (by rw [← (e π).2.fst, hnil, List.map_nil])
  have hhead := List.head?_eq_some_head hne
  have hlast := List.getLast?_eq_some_getLast hne
  constructor
  · rw [tupleInput, hhead, Option.map_some, Option.getD_some, WFST.inputNames, WFST.inputNames,
      h.inp π _ hhead, h.inAlph _ (by rw [← (e π).2.fst, List.head?_map, hhead]; rfl)]
  · rw [tupleOutput, hlast, Option.map_some, Option.getD_some, WFST.outputNames, WFST.outputNames,
      h.out π _ hlast, h.outAlph _ (by rw [← (e π).2.fst, List.getLast?_map, hlast]; rfl)]

/-- A transducer transduces what the tuples that it stands for do. -/
theorem StandsFor.transduction_eq (h : StandsFor mem remember c k Ts R addr chained e) :
    R.transduction S = tuples S Ts :=
  S.rel_congr e (fun π => (h.names_eq π).1) (fun π => (h.names_eq π).2) h.weight

end Stands

theorem tuples_single (hT : T.Valid) : tuples S [T] = T.transduction S := by
  have hmem : StoredAt (memory [T]) 0 T := storedAt_memory rfl
  obtain ⟨e, h⟩ := standsFor_single False (make false) 0 hT hmem
  exact (h.transduction_eq S).symm

theorem tuples_eq_chain (hT : T.Valid) (hvalid : ∀ T' ∈ Ts, T'.Valid) :
    tuples S (T :: Ts) = S.chain (T.transduction S) (Ts.map (WFST.transduction S)) := by
  induction Ts generalizing T with
  | nil => exact tuples_single S hT
  | cons T' Ts ih =>
    rw [List.forall_mem_cons] at hvalid
    rw [tuples_cons, ih hvalid.1 hvalid.2]
    rfl

section Updates

variable {Ts' : List (WFST W)} {tp tp' : List (WFST W × List (HalfArc W))}

omit [CommMonoid W] [DecidableEq W] in
/-- Components with new weights read and write the same. -/
theorem twins_names_eq (h : List.Forall₂ Twin tp tp') :
    tupleInput tp = tupleInput tp' ∧ tupleOutput tp = tupleOutput tp' := by
  have hhead : ∀ {tp tp' : List (WFST W × List (HalfArc W))}, List.Forall₂ Twin tp tp' →
      (tp.head?.map fun x => x.1.inputNames x.2) = (tp'.head?.map fun x => x.1.inputNames x.2) ∧
        (tp.head?.map fun x => x.1.outputNames x.2) = tp'.head?.map fun x => x.1.outputNames x.2 := by
    intro tp tp' h
    cases h with
    | nil => exact ⟨rfl, rfl⟩
    | @cons x x' _ _ hx _ =>
      simp only [List.head?_cons, Option.map_some, WFST.inputNames, WFST.outputNames, hx.pathInput_eq,
        hx.pathOutput_eq, hx.reweighted.inAlph, hx.reweighted.outAlph, and_self]
  have hlast := (hhead (List.rel_reverse h)).2
  rw [List.head?_reverse, List.head?_reverse] at hlast
  exact ⟨congrArg (Option.getD · []) (hhead h).1, congrArg (Option.getD · []) hlast⟩

/-- The updated transducer transduces what the components with the new weights do. -/
theorem transduction_update {c : CascadeParameters} {addr : ℕ} {R : WFST W}
    {e : {π // R.IsPath π} ≃ {tp // Linked Ts tp}} (hc : c.trivial = false)
    (h : StandsFor (memory Ts) True c 0 Ts R addr true e)
    (hre : List.Forall₂ WFST.Reweighted Ts Ts') :
    (c.update (weightAt Ts') R).transduction S = tuples S Ts' := by
  obtain ⟨u, hu⟩ := exists_update_equiv (weightAt Ts') R hc
  obtain ⟨t, ht⟩ := exists_linked_equiv hre
  have halph : (c.update (weightAt Ts') R).inAlph = R.inAlph ∧
      (c.update (weightAt Ts') R).outAlph = R.outAlph := by
    rw [update, hc]
    exact ⟨rfl, rfl⟩
  refine (S.rel_congr (u.symm.trans (e.trans t)) (fun π => ?_) (fun π => ?_) fun π => ?_)
  all_goals
    obtain ⟨π, rfl⟩ := u.surjective π
    rw [Equiv.trans_apply, Equiv.symm_apply_apply, Equiv.trans_apply]
  · rw [← (twins_names_eq (ht (e π))).1, ← (h.names_eq π).1, WFST.inputNames, halph.1, hu, pathInput,
      List.map_map]
    rfl
  · rw [← (twins_names_eq (ht (e π))).2, ← (h.names_eq π).2, WFST.outputNames, halph.2, hu, pathOutput,
      List.map_map]
    rfl
  · rw [hu, pathWeight_updated _ _ addr, h.track trivial _ (admissible_weightAt hre) π]
    apply tupleWeight_weightAt (ht (e π))
    intro i
    rw [Nat.zero_add, (t (e π)).2.fst]

omit [DecidableEq W] in
/-- An update looks at no weight of the composed transducer. -/
theorem update_update (c : CascadeParameters) (f g : Param → W) (R : WFST W) (hc : c.trivial = false) :
    c.update f (c.update g R) = c.update f R := by
  simp [update, hc, updateComposedArc, Function.comp_def]

omit [DecidableEq W] in
theorem update_foldl {c : CascadeParameters} (hc : c.trivial = false) (steps : List (List (WFST W)))
    (f : Param → W) (R : WFST W) :
    c.update f (steps.foldl (fun R Ts' => c.update (weightAt Ts') R) R) = c.update f R := by
  induction steps generalizing R with
  | nil => rfl
  | cons Ts' steps ih => rw [List.foldl_cons, ih, update_update _ _ _ _ hc]

end Updates

end Tuples

variable [DecidableEq W]

/-- **A composition** transduces what its operands do one after the other, with either filter. -/
theorem setCompose_transduction (o : Operands W) (cascade : CascadeParameters) (preserveGroups : Bool)
    (ha : o.a.Valid) (hb : o.b.Valid) :
    (setCompose o cascade preserveGroups).1.transduction S =
      S.comp (o.a.transduction S) (o.b.transduction S) := by
  obtain ⟨e, he⟩ := exists_pathPair_equiv preserveGroups (fun _ => none) cascade ha hb
  obtain ⟨hinp, hout⟩ := setCompose_alphabets o preserveGroups cascade
  let pair : PathPair o ≃ {p : {π // o.a.IsPath π} × {π // o.b.IsPath π} //
      o.a.outputNames p.1.1 = o.b.inputNames p.2.1} :=
    { toFun := fun p => ⟨(⟨p.1.1, p.2.1⟩, ⟨p.1.2, p.2.2.1⟩), p.2.2.2⟩
      invFun := fun p => ⟨(p.1.1.1, p.1.2.1), p.1.1.2, p.1.2.2, p.2⟩
      left_inv := fun _ => rfl
      right_inv := fun _ => rfl }
  have hlabels : ∀ π, pathInput π.1 = pathInput (e π).1.1 ∧ pathOutput π.1 = pathOutput (e π).1.2 ∧
      pathWeight π.1 = pathWeight (e π).1.1 * pathWeight (e π).1.2 := by
    intro π
    obtain ⟨rs, hshows, hleft, hright⟩ := he π
    rw [← hleft, ← hright]
    exact hshows.labels
  rw [WFST.transduction, WFST.transduction, WFST.transduction, ← S.rel_pairs]
  refine S.rel_congr (e.trans pair) (fun π => ?_) (fun π => ?_) fun π => (hlabels π).2.2
  · rw [WFST.inputNames, hinp, (hlabels π).1]
    rfl
  · rw [WFST.outputNames, hout, (hlabels π).2.1]
    rfl

/-- **After any run of updates** the composed transducer transduces what the transducers of the
cascade, with the weights that they have got last, do one after the other. -/
theorem updates_transduction (σ : CascadeSettings W) (r : Bool) (T T' : WFST W) (Ts : List (WFST W))
    (hvalid : ∀ T₀ ∈ T :: T' :: Ts, T₀.Valid) :
    ∃ R c, composeCascade σ r (make true) (T :: T' :: Ts) = some (R, c) ∧
      ∀ (steps : List (List (WFST W))) (T₁ : WFST W) (Ts₁ : List (WFST W)),
        List.Forall₂ WFST.Reweighted (T :: T' :: Ts) (T₁ :: Ts₁) →
          ((steps ++ [T₁ :: Ts₁]).foldl (fun R Ts' => c.update (weightAt Ts') R) R).transduction S =
            S.chain (T₁.transduction S) (Ts₁.map (WFST.transduction S)) := by
  obtain ⟨R, c, hR, hsound, addr, e, h⟩ := composeCascade_standsFor σ r true (by simp) hvalid
  refine ⟨R, c, hR, fun steps T₁ Ts₁ hre => ?_⟩
  have hc : c.trivial = false := (hsound rfl).nontrivial
  have hvalid' : ∀ T₀ ∈ T₁ :: Ts₁, T₀.Valid := by
    intro T₀ hT₀
    obtain ⟨i, hi⟩ := List.getElem?_of_mem hT₀
    obtain ⟨T₂, hT₂, hr⟩ := forall₂_getElem?_back hre hi
    exact hr.valid (hvalid T₂ (List.mem_of_getElem? hT₂))
  rw [List.forall_mem_cons] at hvalid'
  rw [List.foldl_append, List.foldl_cons, List.foldl_nil, update_foldl hc,
    ← tuples_eq_chain S hvalid'.1 hvalid'.2]
  exact transduction_update S hc (by simpa using h) hre

/-- Copies any number of `x`, each at the weight given. -/
noncomputable def copyAt (w : ℝ≥0∞) : WFST ℝ≥0∞ where
  states := [⟨[⟨2, 2, 0, w, FSTArc.noGroup⟩], 1⟩]
  final := some 0
  inAlph := sampleAlphabet
  outAlph := sampleAlphabet

theorem valid_copyAt (w : ℝ≥0∞) : (copyAt w).Valid where
  start_lt := Nat.one_pos
  final_lt := ⟨0, rfl, Nat.one_pos⟩
  dest_lt := by simp [copyAt, WFST.numStates]
  inp_lt := by simp [copyAt, sampleAlphabet, Alphabet.size]
  out_lt := by simp [copyAt, sampleAlphabet, Alphabet.size]

theorem reweighted_copyAt (v w : ℝ≥0∞) : (copyAt v).Reweighted (copyAt w) := by
  refine ⟨rfl, rfl, rfl, .cons ⟨rfl, .cons ⟨rfl, rfl, rfl, rfl, fun hlocked => ?_⟩ .nil⟩ .nil⟩
  simp [FSTArc.isLocked, FSTArc.noGroup, FSTArc.lockedGroup] at hlocked

theorem setCompose_transduction_copyAt :
    (setCompose ⟨copyAt 2, copyAt 3, 0, 1, 12, .inOrder⟩ (make true) true).1.transduction .sum =
      Aggregate.sum.comp ((copyAt 2).transduction .sum) ((copyAt 3).transduction .sum) :=
  setCompose_transduction .sum ⟨copyAt 2, copyAt 3, 0, 1, 12, .inOrder⟩ (make true) true
    (valid_copyAt 2) (valid_copyAt 3)

theorem updates_transduction_copyAt :
    ∃ R c, composeCascade ⟨12, .inOrder, true⟩ true (make true) [copyAt 2, copyAt 3] = some (R, c) ∧
      (c.update (weightAt [copyAt 5, copyAt 6]) (c.update (weightAt [copyAt 4, copyAt 0]) R)).transduction
          .sum =
        Aggregate.sum.comp ((copyAt 5).transduction .sum) ((copyAt 6).transduction .sum) := by
  obtain ⟨R, c, hR, h⟩ := updates_transduction .sum ⟨12, .inOrder, true⟩ true (copyAt 2) (copyAt 3) []
    (by simp [valid_copyAt])
  exact ⟨R, c, hR, h [[copyAt 4, copyAt 0]] (copyAt 5) [copyAt 6]
    (.cons (reweighted_copyAt 2 5) (.cons (reweighted_copyAt 3 6) .nil))⟩

end Carmel
