/-
# Composing a cascade

The program composes a chain of transducers one by one, from the left or from the right,
with one recorder for all of it. A path of the composition stands for a path of every
component, and the chains of its arcs hold exactly the arcs of those paths.
-/

import Carmel.Compose.Correct

namespace Carmel

open Carmel.Math CascadeParameters

universe u

variable {W : Type u} [CommMonoid W] [DecidableEq W]

/-- What stays the same for all compositions of a run. -/
structure CascadeSettings (W : Type u) where
  indexThreshold : ℕ
  order : HashOrder (ℕ × List (HalfArc W))
  preserveGroups : Bool

/-- The composition loop: `result` is what has been composed so far, `r` tells
from which side the others come. Transducers are given with their addresses;
that of a composition is never looked at, since its arcs are chained. -/
def composeChain (σ : CascadeSettings W) (r : Bool) : Bool → CascadeParameters → ℕ × WFST W →
    List (ℕ × WFST W) → WFST W × CascadeParameters
  | _, c, result, [] => (result.2, c)
  | first, c, result, t :: ts =>
    let c := if first then c.prepareCompose false false else c.prepareComposeNext r
    let o : Operands W :=
      if r then ⟨t.2, result.2, t.1, result.1, σ.indexThreshold, σ.order⟩
      else ⟨result.2, t.2, result.1, t.1, σ.indexThreshold, σ.order⟩
    let next := setCompose o c σ.preserveGroups
    composeChain σ r false next.2.doneComposing (0, next.1) ts

/-- The chain in the order in which it is composed. -/
def chainOrder (r : Bool) (Ts : List (WFST W)) : List (ℕ × WFST W) :=
  let chain := Ts.zipIdx.map Prod.swap
  if r then chain.reverse else chain

/-- Compose all transducers of a cascade. -/
def composeCascade (σ : CascadeSettings W) (r : Bool) (c : CascadeParameters) (Ts : List (WFST W)) :
    Option (WFST W × CascadeParameters) :=
  match chainOrder r Ts with
  | [] => none
  | t :: ts => some (composeChain σ r true c t ts)

/-! ## Component paths -/

/-- The paths of two neighbours agree on what passes between them. -/
def Agree (x y : WFST W × List (HalfArc W)) : Prop := x.1.outputNames x.2 = y.1.inputNames y.2

/-- A path of each transducer of a cascade, agreeing at every interface. -/
structure Linked (Ts : List (WFST W)) (tp : List (WFST W × List (HalfArc W))) : Prop where
  fst : tp.map Prod.fst = Ts
  path : ∀ x ∈ tp, x.1.IsPath x.2
  agree : tp.IsChain Agree

omit [CommMonoid W] [DecidableEq W] in
theorem linked_append_iff {As Bs : List (WFST W)} {tp : List (WFST W × List (HalfArc W))} :
    Linked (As ++ Bs) tp ↔ ∃ ta tb, tp = ta ++ tb ∧ Linked As ta ∧ Linked Bs tb ∧
      ∀ x ∈ ta.getLast?, ∀ y ∈ tb.head?, Agree x y := by
  constructor
  · rintro ⟨hfst, hpath, hagree⟩
    obtain ⟨ta, tb, rfl, rfl, rfl⟩ := List.map_eq_append_iff.mp hfst
    obtain ⟨ha, hb, hab⟩ := List.isChain_append.mp hagree
    exact ⟨ta, tb, rfl, ⟨rfl, fun x hx => hpath x (List.mem_append_left _ hx), ha⟩,
      ⟨rfl, fun x hx => hpath x (List.mem_append_right _ hx), hb⟩, hab⟩
  · rintro ⟨ta, tb, rfl, ⟨hfa, hpa, ha⟩, ⟨hfb, hpb, hb⟩, hab⟩
    refine ⟨by rw [List.map_append, hfa, hfb], fun x hx => ?_,
      List.isChain_append.mpr ⟨ha, hb, hab⟩⟩
    exact (List.mem_append.mp hx).elim (hpa x) (hpb x)

/-- The product, over component paths at addresses from `k` on, of what the
pointers to their arcs lead to. -/
def tupleWeight (current : Param → W) : ℕ → List (WFST W × List (HalfArc W)) → W
  | _, [] => 1
  | k, x :: tp => (x.2.map fun h => current (h.param k)).prod * tupleWeight current (k + 1) tp

omit [DecidableEq W] in
theorem tupleWeight_append (current : Param → W) (k : ℕ)
    (ta tb : List (WFST W × List (HalfArc W))) :
    tupleWeight current k (ta ++ tb) =
      tupleWeight current k ta * tupleWeight current (k + ta.length) tb := by
  induction ta generalizing k with
  | nil => simp [tupleWeight]
  | cons x ta ih =>
    rw [List.cons_append, tupleWeight, tupleWeight, ih, mul_assoc, List.length_cons,
      Nat.add_assoc, Nat.add_comm 1]

/-! ## What a chain holds -/

/-- The weights the pointers lead to leave arcs locked at one alone. -/
def Admissible (mem : Param → Option (FSTArc W)) (current : Param → W) : Prop :=
  ∀ p arc, mem p = some arc → isLocked1 arc = true → current p = 1

/-- What an operand arc contributes to a chain. -/
def CascadeParameters.factor (c : CascadeParameters) (current : Param → W) (addr : ℕ) (chained : Bool)
    (h : HalfArc W) : W :=
  if chained then ((c.chainOf h).map current).prod else current (h.param addr)

section Chains

variable {mem : Param → Option (FSTArc W)} {current : Param → W} {c : CascadeParameters}

theorem prod_cons (hcur : Admissible mem current) {addr : ℕ} {a : HalfArc W}
    (ha : mem (a.param addr) = some a.arc) (cdr : List Param) :
    ((cons addr a cdr).map current).prod = current (a.param addr) * (cdr.map current).prod := by
  rw [cons]
  split
  case isTrue h => rw [hcur _ _ ha h, one_mul]
  case isFalse => rw [List.map_cons, List.prod_cons]

theorem prod_recordedChain {o : Operands W} (hrec : o.Recordable c mem)
    (hcur : Admissible mem current) {made : Record W} (hmade : o.Owns made) :
    ((o.recordedChain c made).map current).prod =
      (made.leftArc?.map (c.factor current o.addrA c.isChain.1)).getD 1 *
        (made.rightArc?.map (c.factor current o.addrB c.isChain.2)).getD 1 := by
  have hleft := hrec.left
  have hright := hrec.right
  rcases hchain : c.isChain with ⟨cA, cB⟩
  simp only [hchain] at hleft hright
  cases made with
  | left l =>
    obtain ⟨s, hl⟩ := hmade
    cases cA with
    | true => simp [Operands.recordedChain, hchain, factor, Record.leftArc?, Record.rightArc?]
    | false =>
      simp [Operands.recordedChain, hchain, factor, Record.leftArc?, Record.rightArc?,
        prod_cons hcur (hleft s l hl)]
  | right r =>
    obtain ⟨s, hr⟩ := hmade
    cases cB with
    | true => simp [Operands.recordedChain, hchain, factor, Record.leftArc?, Record.rightArc?]
    | false =>
      simp [Operands.recordedChain, hchain, factor, Record.leftArc?, Record.rightArc?,
        prod_cons hcur (hright s r hr)]
  | both l r =>
    obtain ⟨⟨s, hl⟩, t, hr⟩ := hmade
    cases cA <;> cases cB <;>
      simp only [Operands.recordedChain, consChain, hchain, factor, Record.leftArc?,
        Record.rightArc?, Option.map_some, Option.getD_some, if_true, Bool.false_eq_true, if_false]
    · rw [prod_cons hcur (hleft s l hl), prod_cons hcur (hright t r hr), List.map_nil,
        List.prod_nil, mul_one]
    · rw [prod_cons hcur (hleft s l hl)]
    · rw [prod_cons hcur (hright t r hr), mul_comm]
    · rw [List.reverseAux_eq, List.map_append, List.prod_append, List.map_reverse,
        List.prod_reverse]
  | locked => simp [Operands.recordedChain, Record.leftArc?, Record.rightArc?]

omit [DecidableEq W] in
theorem prod_contributions (f g : HalfArc W → W) (rs : List (Record W)) :
    (rs.map fun made => (made.leftArc?.map f).getD 1 * (made.rightArc?.map g).getD 1).prod =
      ((lefts rs).map f).prod * ((rights rs).map g).prod := by
  induction rs with
  | nil => simp
  | cons made rs ih =>
    rw [List.map_cons, List.prod_cons, ih]
    cases made <;> simp [Record.leftArc?, Record.rightArc?, mul_assoc, mul_left_comm]

end Chains

section Stands

variable (mem : Param → Option (FSTArc W)) (remember : Prop)

/-- Transducer `R`, recorded in `c`, stands for the transducers `Ts` at the
addresses from `k` on: `e` takes its paths apart. If the recorder remembers,
the chains of a path's arcs weigh what the component arcs weigh. -/
structure StandsFor (c : CascadeParameters) (k : ℕ) (Ts : List (WFST W)) (R : WFST W) (addr : ℕ)
    (chained : Bool) (e : {π // R.IsPath π} ≃ {tp // Linked Ts tp}) : Prop where
  usable : R.Valid ∨ R.final = none
  nonempty : Ts ≠ []
  inAlph : ∀ T ∈ Ts.head?, R.inAlph = T.inAlph
  outAlph : ∀ T ∈ Ts.getLast?, R.outAlph = T.outAlph
  inp : ∀ π, ∀ x ∈ (e π).1.head?, pathInput π.1 = pathInput x.2
  out : ∀ π, ∀ x ∈ (e π).1.getLast?, pathOutput π.1 = pathOutput x.2
  weight : ∀ π, pathWeight π.1 = ((e π).1.map fun x => pathWeight x.2).prod
  recorded : remember → if chained then c.Chained R else StoredAt mem addr R
  track : remember → ∀ current, Admissible mem current → ∀ π,
    (π.1.map (c.factor current addr chained)).prod = tupleWeight current k (e π).1

variable {mem remember}

theorem standsFor_single (remember : Prop) (c : CascadeParameters) (k : ℕ) {T : WFST W} (hT : T.Valid)
    (hmem : StoredAt mem k T) : ∃ e, StandsFor mem remember c k [T] T k false e := by
  obtain ⟨e, he⟩ := exists_equiv_of_unique
    (fun (π : {π // T.IsPath π}) (tp : {tp // Linked [T] tp}) => tp.1 = [(T, π.1)])
    (by
      rintro ⟨p, hp⟩
      refine ⟨⟨[(T, p)], rfl, fun x hx => ?_, .singleton _⟩, rfl, fun other h => Subtype.ext h⟩
      obtain rfl := List.mem_singleton.mp hx
      exact hp)
    (by
      rintro ⟨tp, hfst, hpath, -⟩
      obtain ⟨x, rfl, rfl⟩ := List.map_eq_singleton_iff.mp hfst
      exact ⟨⟨x.2, hpath x List.mem_cons_self⟩, rfl,
        fun other h => Subtype.ext (congrArg Prod.snd (List.singleton_inj.mp h)).symm⟩)
  refine ⟨e, .inl hT, by simp, by simp, by simp, ?_, ?_, ?_, fun _ => hmem, ?_⟩
  · intro π x hx
    rw [he] at hx
    obtain rfl := Option.some.inj hx
    rfl
  · intro π x hx
    rw [he] at hx
    obtain rfl := Option.some.inj hx
    rfl
  · intro π
    rw [he, List.map_singleton, List.prod_singleton]
  · intro _ current _ π
    rw [he, tupleWeight, tupleWeight, mul_one]
    rfl

/-- The pairs of agreeing operand paths are the linked tuples of all components. -/
theorem exists_pathPair_equiv_linked {o : Operands W} {c : CascadeParameters} {k l : ℕ}
    {As Bs : List (WFST W)} {cA cB : Bool} {eA : {π // o.a.IsPath π} ≃ {tp // Linked As tp}}
    {eB : {π // o.b.IsPath π} ≃ {tp // Linked Bs tp}}
    (hA : StandsFor mem remember c k As o.a o.addrA cA eA)
    (hB : StandsFor mem remember c l Bs o.b o.addrB cB eB) :
    ∃ e : PathPair o ≃ {tp // Linked (As ++ Bs) tp},
      ∀ pq, (e pq).1 = (eA ⟨pq.1.1, pq.2.1⟩).1 ++ (eB ⟨pq.1.2, pq.2.2.1⟩).1 := by
  have hagree (p : {π // o.a.IsPath π}) (q : {π // o.b.IsPath π}) :
      o.a.outputNames p.1 = o.b.inputNames q.1 ↔
        ∀ x ∈ (eA p).1.getLast?, ∀ y ∈ (eB q).1.head?, Agree x y := by
    have hfstA := (eA p).2.fst
    have hfstB := (eB q).2.fst
    have hneA : (eA p).1 ≠ [] := fun h => hA.nonempty (by rw [← hfstA, h, List.map_nil])
    have hneB : (eB q).1 ≠ [] := fun h => hB.nonempty (by rw [← hfstB, h, List.map_nil])
    obtain ⟨x, hx⟩ : ∃ x, (eA p).1.getLast? = some x := ⟨_, List.getLast?_eq_some_getLast hneA⟩
    obtain ⟨y, hy⟩ : ∃ y, (eB q).1.head? = some y := ⟨_, List.head?_eq_some_head hneB⟩
    have hout : o.a.outAlph = x.1.outAlph :=
      hA.outAlph x.1 (by rw [← hfstA, List.getLast?_map, hx]; rfl)
    have hinp : o.b.inAlph = y.1.inAlph :=
      hB.inAlph y.1 (by rw [← hfstB, List.head?_map, hy]; rfl)
    have hp : o.a.outputNames p.1 = x.1.outputNames x.2 := by
      rw [WFST.outputNames, WFST.outputNames, hout, hA.out p x hx]
    have hq : o.b.inputNames q.1 = y.1.inputNames y.2 := by
      rw [WFST.inputNames, WFST.inputNames, hinp, hB.inp q y hy]
    simp [hx, hy, Agree, hp, hq]
  apply exists_equiv_of_unique (fun (pq : PathPair o) (tp : {tp // Linked (As ++ Bs) tp}) =>
    tp.1 = (eA ⟨pq.1.1, pq.2.1⟩).1 ++ (eB ⟨pq.1.2, pq.2.2.1⟩).1)
  · rintro ⟨⟨p, q⟩, hp, hq, hnames⟩
    refine ⟨⟨_, linked_append_iff.mpr ⟨(eA ⟨p, hp⟩).1, (eB ⟨q, hq⟩).1, rfl, (eA ⟨p, hp⟩).2,
      (eB ⟨q, hq⟩).2, (hagree ⟨p, hp⟩ ⟨q, hq⟩).mp hnames⟩⟩, rfl, fun other h => Subtype.ext h⟩
  · rintro ⟨tp, htp⟩
    obtain ⟨ta, tb, rfl, ha, hb, hab⟩ := linked_append_iff.mp htp
    have hA' : eA (eA.symm ⟨ta, ha⟩) = ⟨ta, ha⟩ := Equiv.apply_symm_apply ..
    have hB' : eB (eB.symm ⟨tb, hb⟩) = ⟨tb, hb⟩ := Equiv.apply_symm_apply ..
    have hnames := (hagree (eA.symm ⟨ta, ha⟩) (eB.symm ⟨tb, hb⟩)).mpr (by rw [hA', hB']; exact hab)
    refine ⟨⟨⟨(eA.symm ⟨ta, ha⟩).1, (eB.symm ⟨tb, hb⟩).1⟩, (eA.symm ⟨ta, ha⟩).2,
      (eB.symm ⟨tb, hb⟩).2, hnames⟩, ?_, ?_⟩
    · change ta ++ tb = (eA (eA.symm ⟨ta, ha⟩)).1 ++ (eB (eB.symm ⟨tb, hb⟩)).1
      rw [hA', hB']
    · rintro ⟨⟨p, q⟩, hp, hq, hpq⟩ h
      have hlen : ta.length = (eA ⟨p, hp⟩).1.length := by
        have h₁ := congrArg List.length ha.fst
        have h₂ := congrArg List.length (eA ⟨p, hp⟩).2.fst
        rw [List.length_map] at h₁ h₂
        exact h₁.trans h₂.symm
      obtain ⟨hta, htb⟩ := List.append_inj h hlen
      have hpA : eA.symm ⟨ta, ha⟩ = ⟨p, hp⟩ := by
        rw [Equiv.symm_apply_eq]
        exact Subtype.ext hta
      have hqB : eB.symm ⟨tb, hb⟩ = ⟨q, hq⟩ := by
        rw [Equiv.symm_apply_eq]
        exact Subtype.ext htb
      exact Subtype.ext (Prod.ext (congrArg Subtype.val hpA).symm (congrArg Subtype.val hqB).symm)

theorem setCompose_usable (mem : Param → Option (FSTArc W)) {o : Operands W} (pg : Bool) (c : CascadeParameters)
    (ha : o.a.Valid ∨ o.a.final = none) (hb : o.b.Valid ∨ o.b.final = none) :
    ((setCompose o c pg).1.Valid ∨ (setCompose o c pg).1.final = none) ∧
      (o.Recordable c mem → (setCompose o c pg).2.Sound mem ∧
        (setCompose o c pg).2.Chained (setCompose o c pg).1) := by
  by_cases hvalid : o.a.Valid ∧ o.b.Valid
  · obtain ⟨husable, hrecord⟩ := setCompose_spec mem c pg hvalid.1 hvalid.2
    exact ⟨husable, fun hrec => ⟨(hrecord hrec).1, (hrecord hrec).2.2⟩⟩
  · have hnone : o.a.final = none ∨ o.b.final = none := by tauto
    rw [setCompose_of_invalid c pg hnone]
    refine ⟨.inr rfl, fun hrec => ⟨hrec.sound, fun s h hh => ?_⟩⟩
    simp [invalidResult, WFST.outArcs, WFST.state] at hh

theorem exists_pathPair_equiv_usable (mem : Param → Option (FSTArc W)) {o : Operands W} (pg : Bool) (c : CascadeParameters)
    (ha : o.a.Valid ∨ o.a.final = none) (hb : o.b.Valid ∨ o.b.final = none) :
    ∃ e : {π // (setCompose o c pg).1.IsPath π} ≃ PathPair o,
      ∀ π, ∃ rs, PathShows o mem c (setCompose o c pg).2 π.1 rs ∧
        lefts rs = (e π).1.1 ∧ rights rs = (e π).1.2 := by
  by_cases hvalid : o.a.Valid ∧ o.b.Valid
  · exact exists_pathPair_equiv pg mem c hvalid.1 hvalid.2
  · have hnone : o.a.final = none ∨ o.b.final = none := by tauto
    have hempty : IsEmpty {π // (setCompose o c pg).1.IsPath π} := by
      rw [setCompose_of_invalid c pg hnone]
      refine ⟨?_⟩
      rintro ⟨_, _, _, hfinal⟩
      exact absurd hfinal (by simp [invalidResult])
    have hempty' : IsEmpty (PathPair o) := by
      refine ⟨?_⟩
      rintro ⟨_, ⟨_, _, hfa⟩, ⟨_, _, hfb⟩, _⟩
      rcases hnone with hnone | hnone
      · exact absurd hfa (by simp [hnone])
      · exact absurd hfb (by simp [hnone])
    exact ⟨Equiv.equivOfIsEmpty _ _, fun π => hempty.elim π⟩

theorem PathShows.track {o : Operands W} {c c' : CascadeParameters} (hrec : o.Recordable c mem)
    {current : Param → W} (hcur : Admissible mem current) {path : List (HalfArc W)}
    {rs : List (Record W)} (h : PathShows o mem c c' path rs) (hrs : ∀ made ∈ rs, o.Owns made)
    (addr : ℕ) :
    (path.map (c'.factor current addr true)).prod =
      ((lefts rs).map (c.factor current o.addrA c.isChain.1)).prod *
        ((rights rs).map (c.factor current o.addrB c.isChain.2)).prod := by
  obtain ⟨join, hjoin, hshows⟩ := h
  have howns : ∀ made ∈ rs ++ join, o.Owns made := by
    intro made hmade
    rcases List.mem_append.mp hmade with hmade | hmade
    · exact hrs made hmade
    · rcases hjoin with rfl | rfl
      · cases hmade
      · obtain rfl := List.mem_singleton.mp hmade
        trivial
  have hmap : path.map (c'.factor current addr true) = (rs ++ join).map fun made =>
      ((o.recordedChain c made).map current).prod := by
    refine map_eq_map_of_forall₂ (fun h made hmade => ?_) hshows
    rw [factor, if_pos rfl, chainOf, List.getD_eq_getElem?_getD, hmade.group hrec, Option.getD_some]
  have hcontribute : (rs ++ join).map (fun made => ((o.recordedChain c made).map current).prod) =
      (rs ++ join).map fun made =>
        (made.leftArc?.map (c.factor current o.addrA c.isChain.1)).getD 1 *
          (made.rightArc?.map (c.factor current o.addrB c.isChain.2)).getD 1 :=
    List.map_congr_left fun made hmade => prod_recordedChain hrec hcur (howns made hmade)
  have hlefts : lefts (rs ++ join) = lefts rs := by
    rcases hjoin with rfl | rfl <;> simp [lefts, Record.leftArc?]
  have hrights : rights (rs ++ join) = rights rs := by
    rcases hjoin with rfl | rfl <;> simp [rights, Record.rightArc?]
  rw [hmap, hcontribute, prod_contributions, hlefts, hrights]

omit [CommMonoid W] [DecidableEq W] in
/-- Records whose two sides are operand paths are about operand arcs. -/
theorem owns_of_isPath {o : Operands W} {rs : List (Record W)} (hp : o.a.IsPath (lefts rs))
    (hq : o.b.IsPath (rights rs)) : ∀ made ∈ rs, o.Owns made := by
  obtain ⟨_, walkA, -⟩ := hp
  obtain ⟨_, walkB, -⟩ := hq
  have hleft {made : Record W} (hmade : made ∈ rs) {l : HalfArc W} (hl : made.leftArc? = some l) :
      ∃ s, l ∈ o.a.outArcs s := by
    obtain ⟨s, _, step⟩ := walkA.exists_step (List.mem_filterMap.mpr ⟨made, hmade, hl⟩)
    exact ⟨s, step.1⟩
  have hright {made : Record W} (hmade : made ∈ rs) {r : HalfArc W} (hr : made.rightArc? = some r) :
      ∃ s, r ∈ o.b.outArcs s := by
    obtain ⟨s, _, step⟩ := walkB.exists_step (List.mem_filterMap.mpr ⟨made, hmade, hr⟩)
    exact ⟨s, step.1⟩
  intro made hmade
  cases made with
  | left l => exact hleft hmade rfl
  | right r => exact hright hmade rfl
  | both l r => exact ⟨hleft hmade rfl, hright hmade rfl⟩
  | locked => trivial

/-- **Composing keeps the correspondence.** If the operands stand for two
stretches of the chain, the composition stands for both. -/
theorem standsFor_compose {o : Operands W} {c : CascadeParameters} {k : ℕ} {As Bs : List (WFST W)}
    {cA cB : Bool} {eA : {π // o.a.IsPath π} ≃ {tp // Linked As tp}}
    {eB : {π // o.b.IsPath π} ≃ {tp // Linked Bs tp}}
    (hA : StandsFor mem remember c k As o.a o.addrA cA eA)
    (hB : StandsFor mem remember c (k + As.length) Bs o.b o.addrB cB eB)
    (hc : c.isChain = (cA, cB)) (hsound : remember → c.Sound mem) (pg : Bool) (addr : ℕ) :
    (remember → (setCompose o c pg).2.Sound mem) ∧
      ∃ e, StandsFor mem remember (setCompose o c pg).2 k (As ++ Bs) (setCompose o c pg).1 addr true
        e := by
  have hrec : remember → o.Recordable c mem := fun hr =>
    ⟨hsound hr, by rw [hc]; exact hA.recorded hr, by rw [hc]; exact hB.recorded hr⟩
  obtain ⟨husable, hrecord⟩ := setCompose_usable mem pg c hA.usable hB.usable
  obtain ⟨e₁, he₁⟩ := exists_pathPair_equiv_usable mem pg c hA.usable hB.usable
  obtain ⟨e₂, he₂⟩ := exists_pathPair_equiv_linked hA hB
  obtain ⟨hinp, hout⟩ := setCompose_alphabets o pg c
  have hsplit (π : {π // (setCompose o c pg).1.IsPath π}) : ((e₁.trans e₂) π).1 =
      (eA ⟨(e₁ π).1.1, (e₁ π).2.1⟩).1 ++ (eB ⟨(e₁ π).1.2, (e₁ π).2.2.1⟩).1 := he₂ (e₁ π)
  have hlabels (π : {π // (setCompose o c pg).1.IsPath π}) :
      pathInput π.1 = pathInput (e₁ π).1.1 ∧ pathOutput π.1 = pathOutput (e₁ π).1.2 ∧
        pathWeight π.1 = pathWeight (e₁ π).1.1 * pathWeight (e₁ π).1.2 := by
    obtain ⟨rs, hshows, hleft, hright⟩ := he₁ π
    rw [← hleft, ← hright]
    exact hshows.labels
  have hneA (p : {π // o.a.IsPath π}) : (eA p).1 ≠ [] := fun h =>
    hA.nonempty (by rw [← (eA p).2.fst, h, List.map_nil])
  have hneB (q : {π // o.b.IsPath π}) : (eB q).1 ≠ [] := fun h =>
    hB.nonempty (by rw [← (eB q).2.fst, h, List.map_nil])
  refine ⟨fun hr => (hrecord (hrec hr)).1, e₁.trans e₂, husable, by simp [hA.nonempty], ?_, ?_, ?_, ?_,
    ?_, fun hr => (hrecord (hrec hr)).2, ?_⟩
  · rw [List.head?_append_of_ne_nil _ hA.nonempty, hinp]
    exact hA.inAlph
  · rw [List.getLast?_append_of_ne_nil _ hB.nonempty, hout]
    exact hB.outAlph
  · intro π
    rw [hsplit, List.head?_append_of_ne_nil _ (hneA _), (hlabels π).1]
    exact hA.inp _
  · intro π
    rw [hsplit, List.getLast?_append_of_ne_nil _ (hneB _), (hlabels π).2.1]
    exact hB.out _
  · intro π
    rw [hsplit, List.map_append, List.prod_append, ← hA.weight, ← hB.weight]
    exact (hlabels π).2.2
  · intro hr current hcur π
    obtain ⟨rs, hshows, hleft, hright⟩ := he₁ π
    have howns := owns_of_isPath (hleft ▸ (e₁ π).2.1) (hright ▸ (e₁ π).2.2.1)
    have hlen := congrArg List.length (eA ⟨(e₁ π).1.1, (e₁ π).2.1⟩).2.fst
    rw [List.length_map] at hlen
    rw [hshows.track (hrec hr) hcur howns, hsplit, tupleWeight_append, hlen, hleft, hright, hc]
    exact congrArg₂ _ (hA.track hr current hcur ⟨(e₁ π).1.1, (e₁ π).2.1⟩)
      (hB.track hr current hcur ⟨(e₁ π).1.2, (e₁ π).2.2.1⟩)

/-! ## The composition loop -/

theorem StandsFor.congr {c c' : CascadeParameters} {k addr : ℕ} {Ts : List (WFST W)} {R : WFST W}
    {chained : Bool} {e : {π // R.IsPath π} ≃ {tp // Linked Ts tp}}
    (h : StandsFor mem remember c k Ts R addr chained e) (hchains : c'.chains = c.chains) :
    StandsFor mem remember c' k Ts R addr chained e := by
  have hfactor (current : Param → W) (addr : ℕ) (chained : Bool) :
      c'.factor current addr chained = c.factor current addr chained := by
    funext h
    rw [factor, factor, chainOf, chainOf, hchains]
  refine ⟨h.usable, h.nonempty, h.inAlph, h.outAlph, h.inp, h.out, h.weight, fun hr => ?_,
    fun hr current hcur π => ?_⟩
  · have hrecorded := h.recorded hr
    rw [Chained] at hrecorded ⊢
    rwa [hchains]
  · rw [hfactor]
    exact h.track hr current hcur π

theorem Sound.prepareCompose {c : CascadeParameters} (hc : c.Sound mem) (first second : Bool) :
    (c.prepareCompose first second).Sound mem :=
  ⟨hc.nontrivial, hc.nil, hc.epsilon⟩

theorem Sound.doneComposing {c : CascadeParameters} (hc : c.Sound mem) : c.doneComposing.Sound mem := by
  rw [CascadeParameters.doneComposing, if_neg (by simp [hc.nontrivial])]
  exact ⟨hc.nontrivial, hc.nil, fun p id h => absurd h (by simp)⟩

omit [CommMonoid W] [DecidableEq W] in
theorem doneComposing_chains (c : CascadeParameters) : c.doneComposing.chains = c.chains := by
  rw [CascadeParameters.doneComposing]
  split <;> rfl

/-- The recorder as the loop prepares it for the next composition. -/
def prepared (first r : Bool) (c : CascadeParameters) : CascadeParameters :=
  if first then c.prepareCompose false false else c.prepareComposeNext r

omit [CommMonoid W] [DecidableEq W] in
theorem prepared_chains (first r : Bool) (c : CascadeParameters) :
    (prepared first r c).chains = c.chains := by
  cases first <;> cases r <;> rfl

omit [CommMonoid W] [DecidableEq W] in
theorem prepared_isChain (first r : Bool) (c : CascadeParameters) :
    (prepared first r c).isChain = if r then (false, !first) else (!first, false) := by
  cases first <;> cases r <;> rfl

theorem Sound.prepared {c : CascadeParameters} (hc : c.Sound mem) (first r : Bool) :
    (Carmel.prepared first r c).Sound mem := by
  cases first <;> cases r <;> exact Sound.prepareCompose hc ..

theorem composeChain_left (σ : CascadeSettings W) (Bs : List (WFST W)) {As : List (WFST W)}
    {R : WFST W} {addr : ℕ} {c : CascadeParameters} (first : Bool)
    {e : {π // R.IsPath π} ≃ {tp // Linked As tp}}
    (hR : StandsFor mem remember c 0 As R addr (!first) e) (hsound : remember → c.Sound mem)
    (hvalid : ∀ T ∈ Bs, T.Valid)
    (hmem : ∀ p ∈ Bs.zipIdx As.length, StoredAt mem p.2 p.1) (hsome : Bs ≠ [] ∨ first = false) :
    let res := composeChain σ false first c (addr, R) ((Bs.zipIdx As.length).map Prod.swap)
    (remember → res.2.Sound mem) ∧
      ∃ addr' e', StandsFor mem remember res.2 0 (As ++ Bs) res.1 addr' true e' := by
  induction Bs generalizing As R addr c first with
  | nil =>
    obtain rfl : first = false := hsome.resolve_left (by simp)
    rw [List.append_nil]
    exact ⟨hsound, addr, e, hR⟩
  | cons T Bs ih =>
    rw [List.zipIdx_cons] at hmem ⊢
    obtain ⟨eT, hT⟩ := standsFor_single remember (prepared first false c) As.length
      (hvalid T List.mem_cons_self) (hmem _ List.mem_cons_self)
    have hR' := hR.congr (prepared_chains first false c)
    have hT' : StandsFor mem remember (prepared first false c) (0 + As.length) [T] T As.length
        false eT := by rwa [Nat.zero_add]
    obtain ⟨hsound', e', hnext⟩ := standsFor_compose
      (o := ⟨R, T, addr, As.length, σ.indexThreshold, σ.order⟩) hR' hT'
      (prepared_isChain first false c) (fun hr => Sound.prepared (hsound hr) first false)
      σ.preserveGroups 0
    have hlen : (As ++ [T]).length = As.length + 1 := List.length_append
    have hnext' := hnext.congr (doneComposing_chains _)
    rw [← hlen] at hmem ⊢
    have hrest := ih false hnext' (fun hr => Sound.doneComposing (hsound' hr))
      (fun T' hT' => hvalid T' (List.mem_cons_of_mem _ hT'))
      (fun p hp => hmem p (List.mem_cons_of_mem _ hp)) (.inr rfl)
    rw [List.append_assoc, List.singleton_append] at hrest
    exact hrest

theorem composeChain_right (σ : CascadeSettings W) (Bs : List (WFST W)) {As : List (WFST W)}
    {R : WFST W} {addr : ℕ} {c : CascadeParameters} (first : Bool)
    {e : {π // R.IsPath π} ≃ {tp // Linked As tp}}
    (hR : StandsFor mem remember c Bs.length As R addr (!first) e)
    (hsound : remember → c.Sound mem) (hvalid : ∀ T ∈ Bs, T.Valid)
    (hmem : ∀ p ∈ Bs.zipIdx, StoredAt mem p.2 p.1) (hsome : Bs ≠ [] ∨ first = false) :
    let res := composeChain σ true first c (addr, R) (Bs.zipIdx.map Prod.swap).reverse
    (remember → res.2.Sound mem) ∧
      ∃ addr' e', StandsFor mem remember res.2 0 (Bs ++ As) res.1 addr' true e' := by
  induction Bs using List.reverseRecOn generalizing As R addr c first with
  | nil =>
    obtain rfl : first = false := hsome.resolve_left (by simp)
    exact ⟨hsound, addr, e, hR⟩
  | append_singleton Bs T ih =>
    rw [List.zipIdx_append, Nat.zero_add, List.zipIdx_singleton] at hmem
    rw [List.length_append, List.length_singleton] at hR
    obtain ⟨eT, hT⟩ := standsFor_single remember (prepared first true c) Bs.length
      (hvalid T (by simp)) (hmem (T, Bs.length) (by simp))
    have hR' := hR.congr (prepared_chains first true c)
    obtain ⟨hsound', e', hnext⟩ := standsFor_compose
      (o := ⟨T, R, Bs.length, addr, σ.indexThreshold, σ.order⟩) hT hR'
      (prepared_isChain first true c) (fun hr => Sound.prepared (hsound hr) first true)
      σ.preserveGroups 0
    have hnext' := hnext.congr (doneComposing_chains _)
    have hrest := ih false hnext' (fun hr => Sound.doneComposing (hsound' hr))
      (fun T' hT' => hvalid T' (List.mem_append_left _ hT'))
      (fun p hp => hmem p (List.mem_append_left _ hp)) (.inr rfl)
    rw [List.zipIdx_append, Nat.zero_add, List.zipIdx_singleton, List.map_append,
      List.reverse_append, List.append_assoc]
    exact hrest

end Stands

end Carmel
