/-
# Interleaving two paths

A walk of a filter automaton takes a path of each operand apart from their
epsilon arcs in step. Each pair of paths that agree on the interface is taken
by exactly one walk: the filter leaves one order for the epsilon arcs.
-/

import Carmel.Compose.Moves

namespace Carmel

open Carmel.Math

universe u

variable {W : Type u}

/-- The arcs of the left operand, in order. -/
def lefts (rs : List (Record W)) : List (HalfArc W) := rs.filterMap Record.leftArc?

/-- The arcs of the right operand, in order. -/
def rights (rs : List (Record W)) : List (HalfArc W) := rs.filterMap Record.rightArc?

section Projections

variable (l r : HalfArc W) (rs : List (Record W))

@[simp] theorem lefts_nil : lefts ([] : List (Record W)) = [] := rfl
@[simp] theorem rights_nil : rights ([] : List (Record W)) = [] := rfl
@[simp] theorem lefts_left : lefts (.left l :: rs) = l :: lefts rs := rfl
@[simp] theorem lefts_right : lefts (.right r :: rs) = lefts rs := rfl
@[simp] theorem lefts_both : lefts (.both l r :: rs) = l :: lefts rs := rfl
@[simp] theorem lefts_locked : lefts (.locked :: rs) = lefts rs := rfl
@[simp] theorem rights_left : rights (.left l :: rs) = rights rs := rfl
@[simp] theorem rights_right : rights (.right r :: rs) = r :: rights rs := rfl
@[simp] theorem rights_both : rights (.both l r :: rs) = r :: rights rs := rfl
@[simp] theorem rights_locked : rights (.locked :: rs) = rights rs := rfl

/-- Only arcs of the left operand read input. -/
theorem nonEpsilon_inp : nonEpsilon (rs.map Record.inp) = pathInput (lefts rs) := by
  induction rs with
  | nil => rfl
  | cons made rs ih =>
    rw [List.map_cons, nonEpsilon_cons, ih]
    cases made <;> simp [Record.inp, pathInput, nonEpsilon_cons _ (List.map _ (lefts rs))]

/-- Only arcs of the right operand write output. -/
theorem nonEpsilon_out : nonEpsilon (rs.map Record.out) = pathOutput (rights rs) := by
  induction rs with
  | nil => rfl
  | cons made rs ih =>
    rw [List.map_cons, nonEpsilon_cons, ih]
    cases made <;> simp [Record.out, pathOutput, nonEpsilon_cons _ (List.map _ (rights rs))]

theorem prod_weight [CommMonoid W] :
    (rs.map Record.weight).prod = pathWeight (lefts rs) * pathWeight (rights rs) := by
  induction rs with
  | nil => simp [pathWeight]
  | cons made rs ih =>
    rw [List.map_cons, List.prod_cons, ih]
    cases made <;> simp [Record.weight, pathWeight, mul_assoc, mul_left_comm]

end Projections

/-- What `p` writes is what `q` reads, symbol by symbol. -/
def Interface (o : Operands W) (p q : List (HalfArc W)) : Prop :=
  List.Forall₂ (fun i j => o.map i = some j) (pathOutput p) (pathInput q)

section Interface

variable {o : Operands W} {l r : HalfArc W} {p q : List (HalfArc W)}

theorem pathOutput_cons_epsilon (hl : l.arc.out = epsilonIndex) :
    pathOutput (l :: p) = pathOutput p := by
  rw [pathOutput, List.map_cons, hl, nonEpsilon_cons_epsilon, pathOutput]

theorem pathOutput_cons (hl : l.arc.out ≠ epsilonIndex) :
    pathOutput (l :: p) = l.arc.out :: pathOutput p := by
  rw [pathOutput, List.map_cons, nonEpsilon_cons_of_ne hl, pathOutput]

theorem pathInput_cons_epsilon (hr : r.arc.inp = epsilonIndex) :
    pathInput (r :: q) = pathInput q := by
  rw [pathInput, List.map_cons, hr, nonEpsilon_cons_epsilon, pathInput]

theorem pathInput_cons (hr : r.arc.inp ≠ epsilonIndex) :
    pathInput (r :: q) = r.arc.inp :: pathInput q := by
  rw [pathInput, List.map_cons, nonEpsilon_cons_of_ne hr, pathInput]

theorem Operands.inp_ne_epsilon {i j : ℕ} (hmap : o.map i = some j) (hi : i ≠ epsilonIndex) :
    j ≠ epsilonIndex :=
  (Alphabet.computeMap_eq_epsilon_iff _ _ hmap).not.mp hi

/-- Paths of the two operands that agree on the interface. -/
structure Paired (o : Operands W) (s t : ℕ) (p q : List (HalfArc W)) (s' t' : ℕ) : Prop where
  left : Walk o.a.Adj s p s'
  right : Walk o.b.Adj t q t'
  face : Interface o p q

namespace Paired

variable {s t s' t' : ℕ}

theorem nil_iff : Paired o s t [] [] s' t' ↔ s = s' ∧ t = t' := by
  constructor
  · intro h
    exact ⟨Walk.nil_iff.mp h.left, Walk.nil_iff.mp h.right⟩
  · rintro ⟨rfl, rfl⟩
    exact ⟨.nil s, .nil t, .nil⟩

theorem left_iff (hout : l.arc.out = epsilonIndex) : Paired o s t (l :: p) q s' t' ↔
    l ∈ o.a.outArcs s ∧ Paired o l.arc.dest t p q s' t' := by
  constructor
  · rintro ⟨hp, hq, hface⟩
    rcases Walk.cons_iff.mp hp with ⟨-, ⟨hl, rfl⟩, hp⟩
    rw [Interface, pathOutput_cons_epsilon hout] at hface
    exact ⟨hl, hp, hq, hface⟩
  · rintro ⟨hl, hp, hq, hface⟩
    refine ⟨.cons ⟨hl, rfl⟩ hp, hq, ?_⟩
    rwa [Interface, pathOutput_cons_epsilon hout]

theorem right_iff (hinp : r.arc.inp = epsilonIndex) : Paired o s t p (r :: q) s' t' ↔
    r ∈ o.b.outArcs t ∧ Paired o s r.arc.dest p q s' t' := by
  constructor
  · rintro ⟨hp, hq, hface⟩
    rcases Walk.cons_iff.mp hq with ⟨-, ⟨hr, rfl⟩, hq⟩
    rw [Interface, pathInput_cons_epsilon hinp] at hface
    exact ⟨hr, hp, hq, hface⟩
  · rintro ⟨hr, hp, hq, hface⟩
    refine ⟨hp, .cons ⟨hr, rfl⟩ hq, ?_⟩
    rwa [Interface, pathInput_cons_epsilon hinp]

theorem both_iff (hout : l.arc.out ≠ epsilonIndex) (hinp : r.arc.inp ≠ epsilonIndex) :
    Paired o s t (l :: p) (r :: q) s' t' ↔ (l ∈ o.a.outArcs s ∧ r ∈ o.b.outArcs t ∧
      o.map l.arc.out = some r.arc.inp) ∧ Paired o l.arc.dest r.arc.dest p q s' t' := by
  have hcons : Interface o (l :: p) (r :: q) ↔ o.map l.arc.out = some r.arc.inp ∧ Interface o p q := by
    rw [Interface, pathOutput_cons hout, pathInput_cons hinp, List.forall₂_cons, Interface]
  constructor
  · rintro ⟨hp, hq, hface⟩
    rcases Walk.cons_iff.mp hp with ⟨-, ⟨hl, rfl⟩, hp⟩
    rcases Walk.cons_iff.mp hq with ⟨-, ⟨hr, rfl⟩, hq⟩
    exact ⟨⟨hl, hr, (hcons.mp hface).1⟩, hp, hq, (hcons.mp hface).2⟩
  · rintro ⟨⟨hl, hr, hmap⟩, hp, hq, hface⟩
    exact ⟨.cons ⟨hl, rfl⟩ hp, .cons ⟨hr, rfl⟩ hq, hcons.mpr ⟨hmap, hface⟩⟩

theorem out_eq (h : Paired o s t (l :: p) [] s' t') : l.arc.out = epsilonIndex := by
  by_contra hout
  have hface := h.face
  rw [Interface, pathOutput_cons hout] at hface
  cases hface

theorem inp_eq (h : Paired o s t [] (r :: q) s' t') : r.arc.inp = epsilonIndex := by
  by_contra hinp
  have hface := h.face
  rw [Interface, pathInput_cons hinp] at hface
  cases hface

end Paired

end Interface

/-- The path does not begin with an arc for which `symbol` is epsilon. -/
def StartsReal (symbol : FSTArc W → ℕ) (p : List (HalfArc W)) : Prop :=
  ∀ h ∈ p.head?, symbol h.arc ≠ epsilonIndex

section Three

variable {o : Operands W}

/-- The order of the three-state filter: epsilon arcs together while both sides
have one, then those of one side, then the next matching pair. -/
def merge3 : List (HalfArc W) → List (HalfArc W) → List (Record W)
  | [], [] => []
  | l :: p, [] => .left l :: merge3 p []
  | [], r :: q => .right r :: merge3 [] q
  | l :: p, r :: q =>
    if l.arc.out = epsilonIndex then
      if r.arc.inp = epsilonIndex then .both l r :: merge3 p q else .left l :: merge3 p (r :: q)
    else
      if r.arc.inp = epsilonIndex then .right r :: merge3 (l :: p) q else .both l r :: merge3 p q
termination_by p q => p.length + q.length

theorem lefts_merge3 (p q : List (HalfArc W)) : lefts (merge3 p q) = p := by
  fun_induction merge3 p q <;> simp_all

theorem rights_merge3 (p q : List (HalfArc W)) : rights (merge3 p q) = q := by
  fun_induction merge3 p q <;> simp_all

/-- A walk of the automaton projects to agreeing paths, and is their merge. -/
theorem Walk.project3 {s t s' t' : ℕ} {f f' : Fin 3} {rs : List (Record W)}
    (walk : Walk (Move3 o) (.trio ⟨s, t, f⟩) rs (.trio ⟨s', t', f'⟩)) :
    Paired o s t (lefts rs) (rights rs) s' t' ∧ rs = merge3 (lefts rs) (rights rs) ∧
      (f = 1 → StartsReal FSTArc.inp (rights rs)) ∧ (f = 2 → StartsReal FSTArc.out (lefts rs)) := by
  induction rs generalizing s t f with
  | nil =>
    obtain ⟨rfl, rfl, rfl⟩ : s = s' ∧ t = t' ∧ f = f' := by simpa using Walk.nil_iff.mp walk
    exact ⟨Paired.nil_iff.mpr ⟨rfl, rfl⟩, by rw [lefts_nil, rights_nil, merge3],
      by simp [StartsReal], by simp [StartsReal]⟩
  | cons made rs ih =>
    obtain ⟨m, step, rest⟩ := Walk.cons_iff.mp walk
    cases step with
    | @left _ l hl hout hk =>
      obtain ⟨hagree, hmerge, hright, -⟩ := ih rest
      have hreal := hright rfl
      refine ⟨(Paired.left_iff hout).mpr ⟨hl, hagree⟩, ?_, fun _ => hreal, fun h => absurd h hk⟩
      rw [lefts_left, rights_left]
      cases hrights : rights rs with
      | nil => rw [merge3, ← hrights, ← hmerge]
      | cons r q =>
        have hinp : r.arc.inp ≠ epsilonIndex := hreal r (by rw [hrights]; rfl)
        rw [merge3, if_pos hout, if_neg hinp, ← hrights, ← hmerge]
    | @right _ r hr hinp hk =>
      obtain ⟨hagree, hmerge, -, hleft⟩ := ih rest
      have hreal := hleft rfl
      refine ⟨(Paired.right_iff hinp).mpr ⟨hr, hagree⟩, ?_, fun h => absurd h hk, fun _ => hreal⟩
      rw [lefts_right, rights_right]
      cases hlefts : lefts rs with
      | nil => rw [merge3, ← hlefts, ← hmerge]
      | cons l p =>
        have hout : l.arc.out ≠ epsilonIndex := hreal l (by rw [hlefts]; rfl)
        rw [merge3, if_neg hout, if_pos hinp, ← hlefts, ← hmerge]
    | @epsilons _ l r hl hr hout hinp hk =>
      obtain ⟨hagree, hmerge, -, -⟩ := ih rest
      have hf : f = 0 := hk
      refine ⟨(Paired.left_iff hout).mpr ⟨hl, (Paired.right_iff hinp).mpr ⟨hr, hagree⟩⟩, ?_,
        by simp [hf], by simp [hf]⟩
      rw [lefts_both, rights_both, merge3, if_pos hout, if_pos hinp, ← hmerge]
    | @matching _ l r hl hr hout hmap =>
      obtain ⟨hagree, hmerge, -, -⟩ := ih rest
      have hinp := Operands.inp_ne_epsilon hmap hout
      refine ⟨(Paired.both_iff hout hinp).mpr ⟨⟨hl, hr, hmap⟩, hagree⟩, ?_,
        by simp [StartsReal, hinp], by simp [StartsReal, hout]⟩
      rw [lefts_both, rights_both, merge3, if_neg hout, if_neg hinp, ← hmerge]

theorem filter_eq_zero (f : Fin 3) (hone : f ≠ 1) (htwo : f ≠ 2) : f = 0 := by
  revert f
  decide

/-- Agreeing paths are taken by a walk, from any filter state that does not
forbid the first arc. -/
theorem walk_merge3 {s t s' t' : ℕ} {f : Fin 3} {p q : List (HalfArc W)}
    (h : Paired o s t p q s' t') (hright : f = 1 → StartsReal FSTArc.inp q)
    (hleft : f = 2 → StartsReal FSTArc.out p) :
    ∃ f', Walk (Move3 o) (.trio ⟨s, t, f⟩) (merge3 p q) (.trio ⟨s', t', f'⟩) := by
  fun_induction merge3 p q generalizing s t f with
  | case1 =>
    rcases Paired.nil_iff.mp h with ⟨rfl, rfl⟩
    exact ⟨f, .nil _⟩
  | case2 l p ih =>
    have hout := h.out_eq
    rcases (Paired.left_iff hout).mp h with ⟨hl, h⟩
    obtain ⟨f', walk⟩ := ih (f := 1) h (fun _ => by simp [StartsReal]) (by simp)
    exact ⟨f', .cons (.left hl hout fun hf => hleft hf l rfl hout) walk⟩
  | case3 r q ih =>
    have hinp := h.inp_eq
    rcases (Paired.right_iff hinp).mp h with ⟨hr, h⟩
    obtain ⟨f', walk⟩ := ih (f := 2) h (by simp) (fun _ => by simp [StartsReal])
    exact ⟨f', .cons (.right hr hinp fun hf => hright hf r rfl hinp) walk⟩
  | case4 l p r q hout hinp ih =>
    rcases (Paired.left_iff hout).mp h with ⟨hl, h⟩
    rcases (Paired.right_iff hinp).mp h with ⟨hr, h⟩
    have hf : f = 0 := filter_eq_zero f (fun hf => hright hf r rfl hinp)
      fun hf => hleft hf l rfl hout
    obtain ⟨f', walk⟩ := ih (f := 0) h (by simp) (by simp)
    exact ⟨f', .cons (.epsilons hl hr hout hinp hf) walk⟩
  | case5 l p r q hout hinp ih =>
    rcases (Paired.left_iff hout).mp h with ⟨hl, h⟩
    obtain ⟨f', walk⟩ := ih (f := 1) h (fun _ => by simp [StartsReal, hinp]) (by simp)
    exact ⟨f', .cons (.left hl hout fun hf => hleft hf l rfl hout) walk⟩
  | case6 l p r q hout hinp ih =>
    rcases (Paired.right_iff hinp).mp h with ⟨hr, h⟩
    obtain ⟨f', walk⟩ := ih (f := 2) h (by simp) (fun _ => by simp [StartsReal, hout])
    exact ⟨f', .cons (.right hr hinp fun hf => hright hf r rfl hinp) walk⟩
  | case7 l p r q hout hinp ih =>
    rcases (Paired.both_iff hout hinp).mp h with ⟨⟨hl, hr, hmap⟩, h⟩
    obtain ⟨f', walk⟩ := ih (f := 0) h (by simp) (by simp)
    exact ⟨f', .cons (.matching hl hr hout hmap) walk⟩

end Three

section Two

variable {o : Operands W}

/-- The order of the two-state filter: the left side's epsilon arcs, then the
right side's, then the next matching pair, which takes two arcs. -/
def merge2 : List (HalfArc W) → List (HalfArc W) → List (Record W)
  | [], [] => []
  | l :: p, [] => .left l :: merge2 p []
  | [], r :: q => .right r :: merge2 [] q
  | l :: p, r :: q =>
    if l.arc.out = epsilonIndex then .left l :: merge2 p (r :: q)
    else if r.arc.inp = epsilonIndex then .right r :: merge2 (l :: p) q
    else .left l :: .right r :: merge2 p q
termination_by p q => p.length + q.length

theorem lefts_merge2 (p q : List (HalfArc W)) : lefts (merge2 p q) = p := by
  fun_induction merge2 p q <;> simp_all

theorem rights_merge2 (p q : List (HalfArc W)) : rights (merge2 p q) = q := by
  fun_induction merge2 p q <;> simp_all

/-- A walk of the automaton projects to agreeing paths, and is their merge. -/
theorem Walk.project2 {s t s' t' : ℕ} {f f' : Fin 3} {rs : List (Record W)}
    (walk : Walk (Move2 o) (.trio ⟨s, t, f⟩) rs (.trio ⟨s', t', f'⟩)) :
    Paired o s t (lefts rs) (rights rs) s' t' ∧ rs = merge2 (lefts rs) (rights rs) ∧
      (f ≠ 0 → StartsReal FSTArc.out (lefts rs)) := by
  -- A matching pair takes two steps, so the induction is on the length.
  induction hlen : rs.length using Nat.strongRecOn generalizing s t f rs with
  | ind n ih =>
    cases rs with
    | nil =>
      obtain ⟨rfl, rfl, rfl⟩ : s = s' ∧ t = t' ∧ f = f' := by simpa using Walk.nil_iff.mp walk
      exact ⟨Paired.nil_iff.mpr ⟨rfl, rfl⟩, by rw [lefts_nil, rights_nil, merge2],
        by simp [StartsReal]⟩
    | cons made rs =>
      rw [List.length_cons] at hlen
      obtain ⟨m, step, rest⟩ := Walk.cons_iff.mp walk
      cases step with
      | @left _ l hl hout hk =>
        obtain ⟨hagree, hmerge, -⟩ := ih rs.length (by omega) rest rfl
        refine ⟨(Paired.left_iff hout).mpr ⟨hl, hagree⟩, ?_, fun h => absurd hk h⟩
        rw [lefts_left, rights_left]
        cases hrights : rights rs with
        | nil => rw [merge2, ← hrights, ← hmerge]
        | cons r q => rw [merge2, if_pos hout, ← hrights, ← hmerge]
      | @right _ r hr hinp =>
        obtain ⟨hagree, hmerge, hleft⟩ := ih rs.length (by omega) rest rfl
        have hreal := hleft (by simp)
        refine ⟨(Paired.right_iff hinp).mpr ⟨hr, hagree⟩, ?_, fun _ => hreal⟩
        rw [lefts_right, rights_right]
        cases hlefts : lefts rs with
        | nil => rw [merge2, ← hlefts, ← hmerge]
        | cons l p =>
          have hout : l.arc.out ≠ epsilonIndex := hreal l (by rw [hlefts]; rfl)
          rw [merge2, if_neg hout, if_pos hinp, ← hlefts, ← hmerge]
      | @hide _ l hl hout hmatch =>
        cases rs with
        | nil => exact absurd (Walk.nil_iff.mp rest) (by simp)
        | cons made rs =>
          rw [List.length_cons] at hlen
          obtain ⟨m, step, rest⟩ := Walk.cons_iff.mp rest
          cases step with
          | @«show» _ r hr hmap =>
            obtain ⟨hagree, hmerge, -⟩ := ih rs.length (by omega) rest rfl
            have hinp := Operands.inp_ne_epsilon hmap hout
            refine ⟨(Paired.both_iff hout hinp).mpr ⟨⟨hl, hr, hmap⟩, hagree⟩, ?_,
              by simp [StartsReal, hout]⟩
            rw [lefts_left, lefts_right, rights_left, rights_right, merge2,
              if_neg hout, if_neg hinp, ← hmerge]

theorem filter_eq_zero_of_epsilon {f : Fin 3} {l : HalfArc W} {p : List (HalfArc W)}
    (hout : l.arc.out = epsilonIndex) (hleft : f ≠ 0 → StartsReal FSTArc.out (l :: p)) : f = 0 := by
  by_contra hf
  exact hleft hf l rfl hout

/-- Agreeing paths are taken by a walk, from any filter state that does not
forbid the first arc. -/
theorem walk_merge2 {s t s' t' : ℕ} {f : Fin 3} {p q : List (HalfArc W)}
    (h : Paired o s t p q s' t') (hleft : f ≠ 0 → StartsReal FSTArc.out p) :
    ∃ f', Walk (Move2 o) (.trio ⟨s, t, f⟩) (merge2 p q) (.trio ⟨s', t', f'⟩) := by
  fun_induction merge2 p q generalizing s t f with
  | case1 =>
    rcases Paired.nil_iff.mp h with ⟨rfl, rfl⟩
    exact ⟨f, .nil _⟩
  | case2 l p ih =>
    have hout := h.out_eq
    rcases (Paired.left_iff hout).mp h with ⟨hl, h⟩
    obtain ⟨f', walk⟩ := ih (f := 0) h (by simp)
    exact ⟨f', .cons (.left hl hout (filter_eq_zero_of_epsilon hout hleft)) walk⟩
  | case3 r q ih =>
    have hinp := h.inp_eq
    rcases (Paired.right_iff hinp).mp h with ⟨hr, h⟩
    obtain ⟨f', walk⟩ := ih (f := 1) h (fun _ => by simp [StartsReal])
    exact ⟨f', .cons (.right hr hinp) walk⟩
  | case4 l p r q hout ih =>
    rcases (Paired.left_iff hout).mp h with ⟨hl, h⟩
    obtain ⟨f', walk⟩ := ih (f := 0) h (by simp)
    exact ⟨f', .cons (.left hl hout (filter_eq_zero_of_epsilon hout hleft)) walk⟩
  | case5 l p r q hout hinp ih =>
    rcases (Paired.right_iff hinp).mp h with ⟨hr, h⟩
    obtain ⟨f', walk⟩ := ih (f := 1) h (fun _ => by simp [StartsReal, hout])
    exact ⟨f', .cons (.right hr hinp) walk⟩
  | case6 l p r q hout hinp ih =>
    rcases (Paired.both_iff hout hinp).mp h with ⟨⟨hl, hr, hmap⟩, h⟩
    obtain ⟨f', walk⟩ := ih (f := 0) h (by simp)
    exact ⟨f', .cons (.hide hl hout ⟨r, hr, hmap⟩) (.cons (.show hr hmap) walk)⟩

end Two

section Pairs

variable (o : Operands W) (pg : Bool)

/-- The order the selected filter leaves. -/
def mergeRecords (p q : List (HalfArc W)) : List (Record W) :=
  if pg then merge2 p q else merge3 p q

variable {o pg}

theorem lefts_mergeRecords (p q : List (HalfArc W)) : lefts (mergeRecords pg p q) = p := by
  cases pg
  · exact lefts_merge3 p q
  · exact lefts_merge2 p q

theorem rights_mergeRecords (p q : List (HalfArc W)) : rights (mergeRecords pg p q) = q := by
  cases pg
  · exact rights_merge3 p q
  · exact rights_merge2 p q

/-- **A walk of the filter automaton is the merge of two agreeing paths**, and
every two agreeing paths have one. -/
theorem walk_move_iff {s' t' : ℕ} {rs : List (Record W)} :
    (∃ f', Walk (Move o pg) (.trio ⟨0, 0, 0⟩) rs (.trio ⟨s', t', f'⟩)) ↔
      Walk o.a.Adj 0 (lefts rs) s' ∧ Walk o.b.Adj 0 (rights rs) t' ∧
        Interface o (lefts rs) (rights rs) ∧ rs = mergeRecords pg (lefts rs) (rights rs) := by
  cases pg with
  | false =>
    have hmove : Move o false = Move3 o := rfl
    rw [hmove]
    constructor
    · rintro ⟨f', walk⟩
      obtain ⟨⟨hp, hq, hface⟩, hmerge, -⟩ := Walk.project3 walk
      exact ⟨hp, hq, hface, hmerge⟩
    · rintro ⟨hp, hq, hface, hmerge⟩
      obtain ⟨f', walk⟩ := walk_merge3 (f := 0) ⟨hp, hq, hface⟩ (by simp) (by simp)
      rw [hmerge]
      exact ⟨f', walk⟩
  | true =>
    have hmove : Move o true = Move2 o := rfl
    rw [hmove]
    constructor
    · rintro ⟨f', walk⟩
      obtain ⟨⟨hp, hq, hface⟩, hmerge, -⟩ := Walk.project2 walk
      exact ⟨hp, hq, hface, hmerge⟩
    · rintro ⟨hp, hq, hface, hmerge⟩
      obtain ⟨f', walk⟩ := walk_merge2 (f := 0) ⟨hp, hq, hface⟩ (by simp)
      rw [hmerge]
      exact ⟨f', walk⟩

end Pairs

end Carmel
