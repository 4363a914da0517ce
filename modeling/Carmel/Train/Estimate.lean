/-
# The matrix and the lattices

For an example that can occur the tables and the lattice give the same probability and the
same counts. They differ in the others: `estimate_matrix` takes in those that it erases and
passes on where the probability is zero; `collect_counts` divides by it, and only examples
that have a lattice get there.
-/

import Carmel.Train.MatrixSums

namespace Carmel

open Carmel.Math

universe u

variable {F : Type u} [Field F] [LinearOrder F] [IsStrictOrderedRing F] {x : WFST (Weight F)}

section Example

variable {ex : IOSymSeq F} {prune : Bool} {d : WeightedDerivations F}

omit [Field F] [LinearOrder F] [IsStrictOrderedRing F] in
theorem hasDerivation_iff {W : Type*} {x : WFST W} :
    hasDerivation x ex = true ↔ ∃ cs, IsDerivation x ex.i ex.o cs :=
  initAndCompute_isSome_iff

theorem not_onCycle_of_represents {W : Type*} {x : WFST W} {inp out : List ℕ} {D : Derivations}
    {num : DerivState → Option ℕ} {keep : DerivState → Prop}
    (h : Represents x inp out D.g num keep) (hcycle : ∀ s, ¬ x.EpsilonCycle s) (i : ℕ) :
    ¬ OnCycle D.Adj i := by
  rintro ⟨a, p, hwalk⟩
  obtain ⟨_, hstep, -⟩ := Walk.cons_iff.mp hwalk
  obtain ⟨d, hd⟩ := h.onto i (Derivations.lt_of_mem_arcs hstep.1)
  obtain ⟨cs, d', hlift, hwalk', hd'⟩ :=
    Correspondence.exists_lift (C := h.correspondence D.fin D.noGoal) hd hwalk
  obtain rfl : d' = d := h.num_inj hd' hd
  cases hlift with
  | cons _ _ _ =>
    have hcyc : OnCycle (CandAdj x inp out) d' := ⟨_, _, hwalk'.mono And.left⟩
    refine hcycle d'.s ((onCycle_consume_iff inp out).mp (hcyc.mono fun {u e w} hstep => ?_))
    exact (exists_candAdj_iff x inp out _ _).mp ⟨e, hstep⟩

theorem collectCounts_example (hcycle : ∀ s, ¬ x.EpsilonCycle s)
    (hd : initAndCompute x prune ex = some d) (t : List (ArcCounts F)) :
    ∃ Z C, PathSums (IsDerivation x ex.i ex.o) (fun c => weightOf t c.id) Candidate.id Z C ∧
      collectCounts d.lattice d.weight t =
        some (Z, addEach .addCounts t (d.lattice.gain Z C ex.weight)) ∧
      (Z = 0 → ∃ k < x.arcsTable.length, d.lattice.gain Z C ex.weight k = ⊤) := by
  obtain ⟨D, hD, -, hlattice⟩ := compute_spec x ex.i ex.o prune
  rw [initAndCompute, hD] at hd
  cases hgoal : D.noGoal with
  | true => simp [hgoal] at hd
  | false =>
    obtain rfl : ⟨D, ex.weight⟩ = d := by simpa [hgoal] using hd
    obtain ⟨num, goal, hrep, hisGoal, hnum⟩ := hlattice hgoal
    obtain ⟨Z, C, hsums, hcollect, hnil⟩ := (proper_of_compute hD hgoal).collectCounts_eq
      (not_onCycle_of_represents hrep hcycle) ex.weight t
    obtain ⟨e, he⟩ := exists_candidate_equiv hrep hisGoal hnum
    refine ⟨Z, C, hsums.map_equiv e fun p => ?_, hcollect, fun hZ => ?_⟩
    · have h := congrArg (List.map fun id => (weightOf t id, id)) (he p)
      rwa [List.map_map, List.map_map] at h
    · obtain ⟨a, ha⟩ := List.exists_mem_of_ne_nil _ (hnil hZ)
      refine ⟨a.id, id_lt_of_compute hD hgoal ha, ?_⟩
      rw [Derivations.gain, if_neg (not_not.mpr hZ), if_pos ⟨a, ha, rfl⟩]

/-- Some derivation takes arcs with positive weights only. -/
def Supported (x : WFST (Weight F)) (ex : IOSymSeq F) : Prop :=
  ∃ cs, IsDerivation x ex.i ex.o cs ∧ ∀ c ∈ cs, weightOf x.arcCounts c.id ≠ 0

theorem total_ne_zero_iff {Z : Weight F} {C : ℕ → Weight F}
    (h : PathSums (IsDerivation x ex.i ex.o) (fun c => weightOf x.arcCounts c.id)
      Candidate.id Z C) : Z ≠ 0 ↔ Supported x ex := by
  obtain ⟨P, hP, rfl, -⟩ := h
  rw [ne_eq, Finset.sum_eq_zero_iff]
  simp only [List.prod_eq_zero_iff, List.mem_map, not_forall, Supported, hP]
  constructor
  · rintro ⟨cs, hcs, hne⟩
    exact ⟨cs, hcs, fun c hc h0 => hne ⟨c, hc, h0⟩⟩
  · rintro ⟨cs, hcs, hne⟩
    exact ⟨cs, hcs, fun ⟨c, hc, h0⟩ => hne c hc h0⟩

/-- Two tables agree up to what `scratch` holds. -/
def SameCounts (t t' : List (ArcCounts F)) : Prop := t.map ArcCounts.clearScratch = t'.map ArcCounts.clearScratch

omit [IsStrictOrderedRing F] in
theorem SameCounts.refl (t : List (ArcCounts F)) : SameCounts t t := rfl

omit [IsStrictOrderedRing F] in
theorem SameCounts.weightOf_eq {t t' : List (ArcCounts F)} (h : SameCounts t t') :
    weightOf t = weightOf t' := by
  have hclear : ∀ t : List (ArcCounts F), weightOf (t.map ArcCounts.clearScratch) = weightOf t := by
    intro t
    funext id
    cases hid : t[id]? <;> simp [weightOf, hid, ArcCounts.clearScratch, ArcCounts.weight]
  rw [← hclear t, h, hclear]

theorem SameCounts.addEach {t t' : List (ArcCounts F)} (h : SameCounts t t') (c : ℕ → Count F) :
    SameCounts (addEach .addCounts t c) (addEach .addCounts t' c) := by
  have hclear : ∀ t : List (ArcCounts F), (Carmel.addEach .addCounts t c).map ArcCounts.clearScratch =
      Carmel.addEach .addCounts (t.map ArcCounts.clearScratch) c := by
    intro t
    refine List.ext_getElem? fun id => ?_
    cases hid : t[id]? <;> simp [hid, ArcCounts.clearScratch, ArcCounts.addCounts]
  rw [SameCounts, hclear, hclear, h]

/-- What `estimate_matrix` does with an example whose probability is not zero. -/
theorem matrixExample_sameCounts {f b : DerivState → Weight F} {A : Finset MatrixEdge}
    (hA : ∀ e, e ∈ A ↔ IsMatrixEdge x.numStates ex.i ex.o x.matrixIoIndex.forward e)
    (t : List (ArcCounts F)) (w : Weight F) :
    SameCounts ((matrixCountExample x f b ex (t.map ArcCounts.clearScratch)).map (.addWeightedScratch w))
      (addEach .addCounts t fun k =>
        ((w * ∑ e ∈ A with e.id = k, f e.src * weightOf t e.id * b e.dest : Weight F) : Count F)) := by
  have hwt : weightOf (t.map ArcCounts.clearScratch) = weightOf t :=
    SameCounts.weightOf_eq (by simp [SameCounts, ArcCounts.clearScratch, Function.comp_def])
  rw [matrixCountExample_eq ex hA, hwt, SameCounts]
  refine List.ext_getElem? fun id => ?_
  cases hid : t[id]? with
  | none => simp [hid]
  | some ac =>
    simp only [List.getElem?_map, addEach_getElem?, hid, Option.map_some]
    simp only [ArcCounts.addWeightedScratch, ArcCounts.addScratch, ArcCounts.clearScratch,
      ArcCounts.addCounts, zero_add]
    split
    case isTrue h => simp [h]
    case isFalse => rfl

end Example

section Corpus

variable {Z : IOSymSeq F → Weight F} {C : IOSymSeq F → ℕ → Weight F}
variable {raise : Weight F → F → Weight F} {exs : List (IOSymSeq F)} {e : Estimate F}

/-- The probability of each example, and the expected number of uses of each arc. -/
def ExampleSums (x : WFST (Weight F)) (Z : IOSymSeq F → Weight F) (C : IOSymSeq F → ℕ → Weight F) :
    Prop :=
  ∀ ex, PathSums (IsDerivation x ex.i ex.o) (fun c => weightOf x.arcCounts c.id) Candidate.id
    (Z ex) (C ex)

/-- What an example adds to the counts over the tables: nothing where it cannot occur. -/
def matrixGain (Z : IOSymSeq F → Weight F) (C : IOSymSeq F → ℕ → Weight F) (ex : IOSymSeq F) (k : ℕ) :
    Count F :=
  if Z ex ≠ 0 then ((C ex k * Weight.setReal ex.weight / Z ex : Weight F) : Count F) else 0

/-- What it adds over its lattice, if it has one. -/
def latticeGain (x : WFST (Weight F)) (prune : Bool) (Z : IOSymSeq F → Weight F)
    (C : IOSymSeq F → ℕ → Weight F) (ex : IOSymSeq F) (k : ℕ) : Count F :=
  match initAndCompute x prune ex with
  | some d => d.lattice.gain (Z ex) (C ex) ex.weight k
  | none => 0

variable {G : IOSymSeq F → ℕ → Count F}

/-- What some examples add to the counts. -/
def gains (G : IOSymSeq F → ℕ → Count F) (exs : List (IOSymSeq F)) (k : ℕ) : Count F :=
  (exs.map fun ex => G ex k).sum

/-- `e'` is `e` after the examples `exs` are taken in, each of which adds `G` to the counts. -/
structure TakesIn (Z : IOSymSeq F → Weight F) (G : IOSymSeq F → ℕ → Count F)
    (raise : Weight F → F → Weight F) (exs : List (IOSymSeq F)) (e e' : Estimate F) : Prop where
  t : SameCounts e'.t (addEach .addCounts e.t (gains G exs))
  weighted : e'.weighted = e.weighted * (exs.map fun ex => Weight.pow raise (Z ex) ex.weight).prod
  unweighted : e'.unweighted = e.unweighted * (exs.map Z).prod

theorem TakesIn.nil : TakesIn Z G raise [] e e where
  t := by
    have hzero : gains G [] = fun _ => 0 := rfl
    rw [hzero, accumulates_addCounts.addEach_zero]
    rfl
  weighted := by simp
  unweighted := by simp

/-- One example, then the others. -/
theorem TakesIn.cons {ex : IOSymSeq F} {e₁ e₂ : Estimate F}
    (ht : SameCounts e₁.t (addEach .addCounts e.t (G ex)))
    (hw : e₁.weighted = e.weighted * Weight.pow raise (Z ex) ex.weight)
    (hu : e₁.unweighted = e.unweighted * Z ex) (h : TakesIn Z G raise exs e₁ e₂) :
    TakesIn Z G raise (ex :: exs) e e₂ where
  t := by
    have hsum := h.t.trans (ht.addEach (gains G exs))
    rwa [accumulates_addCounts.addEach_addEach] at hsum
  weighted := by rw [h.weighted, hw, List.map_cons, List.prod_cons, mul_assoc]
  unweighted := by rw [h.unweighted, hu, List.map_cons, List.prod_cons, mul_assoc]

variable (raise exs) in
/-- **`estimate_matrix` takes in all examples** and keeps those that can occur. -/
theorem estimateMatrix_takesIn (hx : x.Valid) {final : ℕ} (hfinal : x.final = some final)
    (hcycle : ∀ s, ¬ x.EpsilonCycle s) (hZ : ExampleSums x Z C)
    (he : weightOf e.t = weightOf x.arcCounts) :
    ∃ e', estimateMatrix x raise final exs e = some (exs.filter fun ex => Z ex ≠ 0, e') ∧
      TakesIn Z (matrixGain Z C) raise exs e e' := by
  induction exs generalizing e with
  | nil => exact ⟨e, rfl, .nil⟩
  | cons ex exs ih =>
    obtain ⟨f, b, hrun, A, hA, hsums⟩ := matrixFb_spec hx hfinal hcycle (weightOf e.t) ex
    obtain ⟨hfin, hC⟩ := hsums.unique (he ▸ hZ ex)
    rw [estimateMatrix, hrun, Option.bind_some]
    simp only [hfin]
    by_cases hzero : Z ex = 0
    · obtain ⟨e', hrun', htakes⟩ := ih (e := { e with
        weighted := e.weighted * Weight.pow raise (Z ex) ex.weight
        unweighted := e.unweighted * Z ex }) he
      have hnil : matrixGain Z C ex = fun _ => 0 := by
        funext k
        rw [matrixGain, if_neg (not_not.mpr hzero)]
      rw [if_pos hzero, List.filter_cons_of_neg (by simp [hzero])]
      refine ⟨e', hrun', .cons ?_ rfl rfl htakes⟩
      rw [hnil, accumulates_addCounts.addEach_zero]
      rfl
    · have ht := matrixExample_sameCounts (f := f) (b := b) hA e.t
        (Weight.setReal ex.weight / Z ex)
      have hgain : (fun k => ((Weight.setReal ex.weight / Z ex *
          ∑ e' ∈ A with e'.id = k, f e'.src * weightOf e.t e'.id * b e'.dest : Weight F) :
            Count F)) = matrixGain Z C ex := by
        funext k
        rw [matrixGain, if_pos hzero, ← hC, div_mul_eq_mul_div, mul_comm]
      rw [hgain] at ht
      obtain ⟨e', hrun', htakes⟩ := ih (e := ⟨_, e.weighted * Weight.pow raise (Z ex) ex.weight,
        e.unweighted * Z ex⟩)
        ((ht.weightOf_eq.trans (accumulates_addCounts.weightOf_addEach _)).trans he)
      rw [if_neg hzero, List.filter_cons_of_pos (by simp [hzero]), hrun']
      exact ⟨e', rfl, .cons ht rfl rfl htakes⟩

omit [Field F] [LinearOrder F] [IsStrictOrderedRing F] in
theorem weight_of_initAndCompute {W : Type*} {x : WFST W} {prune : Bool} {ex : IOSymSeq F}
    {d : WeightedDerivations F} (hd : initAndCompute x prune ex = some d) : d.weight = ex.weight := by
  obtain ⟨D, hD, -⟩ := compute_spec x ex.i ex.o prune
  rw [initAndCompute, hD] at hd
  cases hgoal : D.noGoal with
  | true => simp [hgoal] at hd
  | false =>
    obtain rfl : ⟨D, ex.weight⟩ = d := by simpa [hgoal] using hd
    rfl

variable (raise exs) in
/-- **The lattices take in the examples that have derivations.** -/
theorem estimateDerivs_takesIn (hcycle : ∀ s, ¬ x.EpsilonCycle s) (prune : Bool)
    (hZ : ExampleSums x Z C) (he : weightOf e.t = weightOf x.arcCounts) :
    ∃ e', (exs.filterMap (initAndCompute x prune)).foldl
        (fun s d => estimateDerivs raise 0 d s) (some e) = some e' ∧
      TakesIn Z (latticeGain x prune Z C) raise (exs.filter (hasDerivation x)) e e' := by
  induction exs generalizing e with
  | nil => exact ⟨e, rfl, .nil⟩
  | cons ex exs ih =>
    cases hd : initAndCompute x prune ex with
    | none =>
      rw [List.filterMap_cons_none hd,
        List.filter_cons_of_neg (by simp [initAndCompute_eq_none_iff.mp hd])]
      exact ih he
    | some d =>
      obtain ⟨Z', C', hsums, hcollect, -⟩ := collectCounts_example hcycle hd e.t
      obtain ⟨rfl, rfl⟩ := hsums.unique (he ▸ hZ ex)
      have hgain : latticeGain x prune Z C ex = d.lattice.gain (Z ex) (C ex) ex.weight := by
        funext k
        rw [latticeGain, hd]
      rw [List.filterMap_cons_some hd, List.filter_cons_of_pos (hasDerivation_of_eq_some hd),
        List.foldl_cons]
      have hstep : estimateDerivs raise 0 d (some e) = some ⟨addEach .addCounts e.t
          (d.lattice.gain (Z ex) (C ex) ex.weight),
            e.weighted * Weight.pow raise (Z ex) ex.weight, e.unweighted * Z ex⟩ := by
        rw [estimateDerivs, Option.bind_some, hcollect, Option.map_some,
          weight_of_initAndCompute hd]
      rw [hstep]
      obtain ⟨e', hrun, htakes⟩ := ih (e := ⟨addEach .addCounts e.t
          (d.lattice.gain (Z ex) (C ex) ex.weight),
            e.weighted * Weight.pow raise (Z ex) ex.weight, e.unweighted * Z ex⟩)
        ((accumulates_addCounts.weightOf_addEach _).trans he)
      exact ⟨e', hrun, .cons (hgain ▸ SameCounts.refl _) rfl rfl htakes⟩

end Corpus

section Differ

variable {Z : IOSymSeq F → Weight F} {C : IOSymSeq F → ℕ → Weight F} {G : IOSymSeq F → ℕ → Count F}
variable {raise : Weight F → F → Weight F} {exs : List (IOSymSeq F)} {e e₁ e₂ : Estimate F}
variable {prune : Bool}

theorem ExampleSums.ne_zero_iff (hZ : ExampleSums x Z C) {ex : IOSymSeq F} :
    Z ex ≠ 0 ↔ Supported x ex :=
  total_ne_zero_iff (hZ ex)

omit [IsStrictOrderedRing F] in
theorem Supported.hasDerivation {ex : IOSymSeq F} (h : Supported x ex) :
    hasDerivation x ex = true :=
  hasDerivation_iff.mpr ⟨h.choose, h.choose_spec.1⟩

/-- Where an example can occur, it adds the same on both ways. -/
theorem latticeGain_eq {ex : IOSymSeq F} (hd : hasDerivation x ex = true) (hZ : Z ex ≠ 0) :
    latticeGain x prune Z C ex = matrixGain Z C ex := by
  funext k
  rw [← initAndCompute_isSome prune, Option.isSome_iff_exists] at hd
  obtain ⟨d, hd⟩ := hd
  rw [latticeGain, hd]
  show d.lattice.gain _ _ _ _ = _
  rw [Derivations.gain, matrixGain, if_pos hZ, if_pos hZ]

variable (prune) in
/-- Where it has derivations and cannot occur, a count is no number after its lattice. -/
theorem exists_latticeGain_top (hcycle : ∀ s, ¬ x.EpsilonCycle s) (hZ : ExampleSums x Z C)
    {ex : IOSymSeq F} (hd : hasDerivation x ex = true) (hzero : Z ex = 0) :
    ∃ k < x.arcsTable.length, latticeGain x prune Z C ex k = ⊤ := by
  rw [← initAndCompute_isSome prune, Option.isSome_iff_exists] at hd
  obtain ⟨d, hd⟩ := hd
  obtain ⟨Z', C', hsums, -, htop⟩ := collectCounts_example hcycle hd x.arcCounts
  obtain ⟨rfl, rfl⟩ := hsums.unique (hZ ex)
  obtain ⟨k, hk, htop⟩ := htop hzero
  exact ⟨k, hk, by rw [latticeGain, hd]; exact htop⟩

theorem matrixGain_ne_top (ex : IOSymSeq F) (k : ℕ) : matrixGain Z C ex k ≠ ⊤ := by
  rw [matrixGain]
  split
  · exact WithTop.coe_ne_top
  · exact WithTop.zero_ne_top

theorem gains_ne_top_iff {k : ℕ} : gains G exs k ≠ ⊤ ↔ ∀ ex ∈ exs, G ex k ≠ ⊤ := by
  rw [gains]
  induction exs with
  | nil => simp
  | cons ex exs ih => rw [List.map_cons, List.sum_cons, WithTop.add_ne_top, ih, List.forall_mem_cons]

/-- What a caller of `estimate` sees: the counts and the two products. -/
def Estimate.observed (e : Estimate F) : List (Count F) × Weight F × Weight F :=
  (e.t.map (·.counts), e.weighted, e.unweighted)

omit [IsStrictOrderedRing F] in
theorem SameCounts.map_counts {t t' : List (ArcCounts F)} (h : SameCounts t t') :
    t.map (·.counts) = t'.map (·.counts) := by
  have hcounts := congrArg (List.map ArcCounts.counts) h
  rwa [List.map_map, List.map_map] at hcounts

/-- The table that `estimate` starts from. -/
def clearedCounts (x : WFST (Weight F)) : List (ArcCounts F) := x.arcCounts.map .clearCount

omit [IsStrictOrderedRing F] in
theorem weightOf_clearedCounts : weightOf (clearedCounts x) = weightOf x.arcCounts := by
  funext id
  cases hid : x.arcCounts[id]? <;>
    simp [clearedCounts, weightOf, hid, ArcCounts.clearCount, ArcCounts.weight]

/-- The counts after some examples. -/
theorem TakesIn.counts (h : TakesIn Z G raise exs ⟨clearedCounts x, 1, 1⟩ e₁) {k : ℕ}
    (hk : k < x.arcsTable.length) : (e₁.t.map (·.counts))[k]? = some (gains G exs k) := by
  rw [h.t.map_counts]
  simp [addEach, clearedCounts, WFST.arcCounts, ArcCounts.addCounts, ArcCounts.clearCount, hk]

theorem observed_eq_iff (hcycle : ∀ s, ¬ x.EpsilonCycle s) (hZ : ExampleSums x Z C)
    (h₁ : TakesIn Z (matrixGain Z C) raise exs ⟨clearedCounts x, 1, 1⟩ e₁)
    (h₂ : TakesIn Z (latticeGain x prune Z C) raise (exs.filter (hasDerivation x))
      ⟨clearedCounts x, 1, 1⟩ e₂) :
    e₁.observed = e₂.observed ↔ ∀ ex ∈ exs, Supported x ex := by
  constructor
  · intro h
    have hcounts := congrArg Prod.fst h
    have hu : (exs.map Z).prod = ((exs.filter (hasDerivation x)).map Z).prod := by
      have hu := congrArg (fun o => o.2.2) h
      simpa only [Estimate.observed, h₁.unweighted, h₂.unweighted, one_mul] using hu
    -- no count over the lattices is other than those over the tables, which are numbers
    have hne : ∀ ex ∈ exs.filter (hasDerivation x), Z ex ≠ 0 := by
      intro ex hex hzero
      obtain ⟨k, hk, htop⟩ :=
        exists_latticeGain_top prune hcycle hZ (List.mem_filter.mp hex).2 hzero
      have hk₂ := h₂.counts hk
      rw [← show e₁.t.map (·.counts) = e₂.t.map (·.counts) from hcounts, h₁.counts hk] at hk₂
      have hfinite := gains_ne_top_iff.mpr fun ex (_ : ex ∈ exs) => matrixGain_ne_top (Z := Z) (C := C) ex k
      rw [Option.some.inj hk₂] at hfinite
      exact gains_ne_top_iff.mp hfinite ex hex htop
    have hprod : (exs.map Z).prod ≠ 0 := by
      rw [hu, Ne, List.prod_eq_zero_iff, List.mem_map]
      rintro ⟨ex, hex, hzero⟩
      exact hne ex hex hzero
    intro ex hex
    rw [← hZ.ne_zero_iff]
    exact fun hzero => hprod (List.prod_eq_zero_iff.mpr (List.mem_map.mpr ⟨ex, hex, hzero⟩))
  · intro h
    have hall : exs.filter (hasDerivation x) = exs :=
      List.filter_eq_self.mpr fun ex hex => (h ex hex).hasDerivation
    rw [hall] at h₂
    have hgains : gains (matrixGain Z C) exs = gains (latticeGain x prune Z C) exs := by
      funext k
      refine congrArg List.sum (List.map_congr_left fun ex hex => ?_)
      rw [latticeGain_eq (h ex hex).hasDerivation (hZ.ne_zero_iff.mpr (h ex hex))]
    have ht : e₁.t.map (·.counts) = e₂.t.map (·.counts) := by
      rw [h₁.t.map_counts, h₂.t.map_counts, hgains]
    rw [Estimate.observed, Estimate.observed, ht, h₁.weighted, h₂.weighted, h₁.unweighted,
      h₂.unweighted]

end Differ

section Lattices

variable {prune : Bool} {exs : List (IOSymSeq F)} {cd : CachedDerivs F}
variable {raise : Weight F → F → Weight F} {s : Option (Estimate F)}

variable (prune) in
omit [LinearOrder F] [IsStrictOrderedRing F] in
theorem foldl_cacheStep {W : Type*} (x : WFST W) (cd : CachedDerivs F) (exs : List (IOSymSeq F)) :
    (exs.foldl (CachedDerivs.cacheStep x prune) cd).derivs =
        cd.derivs ++ exs.filterMap (initAndCompute x prune) ∧
      (exs.foldl (CachedDerivs.cacheStep x prune) cd).corpus.examples = cd.corpus.examples ∧
      (exs.foldl (CachedDerivs.cacheStep x prune) cd).cached = cd.cached := by
  induction exs generalizing cd with
  | nil => simp
  | cons ex exs ih =>
    rw [List.foldl_cons]
    obtain ⟨hderivs, hexamples, hcached⟩ := ih (CachedDerivs.cacheStep x prune cd ex)
    rw [hderivs, hexamples, hcached, CachedDerivs.cacheStep]
    cases hd : initAndCompute x prune ex with
    | none => simp [hd]
    | some d => simp [hd]

theorem snd_foreachExample (first : Bool) (n : ℕ) (exs : List (IOSymSeq F)) :
    (CachedDerivs.foreachExample x prune first (estimateDerivs raise) n exs s).2 =
      (exs.filterMap (initAndCompute x prune)).foldl (fun s d => estimateDerivs raise 0 d s) s := by
  induction exs generalizing n s with
  | nil => rfl
  | cons ex exs ih =>
    rw [CachedDerivs.foreachExample]
    cases hd : initAndCompute x prune ex with
    | none => simp [hd, ih]
    | some d =>
      simp only [List.filterMap_cons_some hd, List.foldl_cons, ih]
      rfl

theorem foldl_zipIdx (derivs : List (WeightedDerivations F)) :
    derivs.zipIdx.foldl (fun s (d, n) => estimateDerivs raise (n + 1) d s) s =
      derivs.foldl (fun s d => estimateDerivs raise 0 d s) s := by
  conv_rhs => rw [← List.zipIdx_map_fst 0 derivs, List.foldl_map]
  rfl

/-- The examples that are left after the lattices were used. -/
def keptExamples (x : WFST (Weight F)) (prune cache : Bool) (exs : List (IOSymSeq F)) :
    List (IOSymSeq F) :=
  if cache then exs else exs.filter fun ex => hasDerivation x ex || !prune

variable (x prune raise) in
theorem foreachDeriv_make (cache : Bool) (exs : List (IOSymSeq F)) (s : Option (Estimate F)) :
    ((CachedDerivs.make x prune cache (.read exs)).foreachDeriv x prune
        (estimateDerivs raise) s).1.corpus.examples = keptExamples x prune cache exs ∧
      ((CachedDerivs.make x prune cache (.read exs)).foreachDeriv x prune
        (estimateDerivs raise) s).2 = (exs.filterMap (initAndCompute x prune)).foldl
            (fun s d => estimateDerivs raise 0 d s) s := by
  cases cache with
  | true =>
    obtain ⟨hderivs, hexamples, hcached⟩ := foldl_cacheStep prune x ⟨[], .read exs, true, true⟩ exs
    simp only [CachedDerivs.make, if_true, CachedDerivs.cacheDerivations,
      TrainingCorpus.examples_read, CachedDerivs.foreachDeriv, hcached, hderivs, hexamples,
      List.nil_append, keptExamples]
    exact ⟨trivial, foldl_zipIdx _⟩
  | false =>
    simp only [CachedDerivs.make, CachedDerivs.foreachDeriv, Bool.false_eq_true, if_false,
      TrainingCorpus.examples_read, if_true, keptExamples]
    refine ⟨?_, snd_foreachExample ..⟩
    rw [CachedDerivs.fst_foreachExample, TrainingCorpus.countAll, TrainingCorpus.examples_foldl_count]
    simp

theorem estimate_matrix (hx : x.Valid) (hcycle : ∀ s, ¬ x.EpsilonCycle s)
    {Z : IOSymSeq F → Weight F} {C : IOSymSeq F → ℕ → Weight F} (hZ : ExampleSums x Z C)
    (raise : Weight F → F → Weight F) (prune : Bool) (exs : List (IOSymSeq F)) :
    ∃ e, (∃ fb, (ForwardBackward.make x prune false true (.read exs)).estimate x raise prune =
        some (if (exs.filter fun ex => Z ex ≠ 0).isEmpty then .error noDerivation else .ok e, fb)) ∧
      TakesIn Z (matrixGain Z C) raise exs ⟨clearedCounts x, 1, 1⟩ e := by
  obtain ⟨final, hfinal, -⟩ := hx.final_lt
  obtain ⟨e, hrun, htakes⟩ := estimateMatrix_takesIn raise exs
    (e := ⟨clearedCounts x, 1, 1⟩) hx hfinal hcycle hZ weightOf_clearedCounts
  have hrun' : estimateMatrix x raise final (TrainingCorpus.read exs).examples
      ⟨x.arcCounts.map .clearCount, 1, 1⟩ = some (exs.filter fun ex => Z ex ≠ 0, e) := by
    rw [TrainingCorpus.examples_read]
    exact hrun
  refine ⟨e, ?_, htakes⟩
  simp only [ForwardBackward.estimate, ForwardBackward.make, CachedDerivs.make, Bool.not_false,
    Bool.and_true, if_true, Bool.false_eq_true, if_false, hfinal, Option.bind_some, hrun',
    Option.map_some]
  exact ⟨_, rfl⟩

theorem estimate_lattices (hcycle : ∀ s, ¬ x.EpsilonCycle s) {Z : IOSymSeq F → Weight F}
    {C : IOSymSeq F → ℕ → Weight F} (hZ : ExampleSums x Z C) (raise : Weight F → F → Weight F)
    (prune cache : Bool) (exs : List (IOSymSeq F)) :
    ∃ e, (∃ fb, (ForwardBackward.make x prune cache false (.read exs)).estimate x raise prune =
        some (if (keptExamples x prune cache exs).isEmpty then .error noDerivation else .ok e, fb)) ∧
      TakesIn Z (latticeGain x prune Z C) raise (exs.filter (hasDerivation x))
        ⟨clearedCounts x, 1, 1⟩ e := by
  obtain ⟨e, hrun, htakes⟩ := estimateDerivs_takesIn raise exs
    (e := ⟨clearedCounts x, 1, 1⟩) hcycle prune hZ weightOf_clearedCounts
  obtain ⟨hkept, hfold⟩ := foreachDeriv_make x prune raise cache exs (some ⟨clearedCounts x, 1, 1⟩)
  refine ⟨e, ?_, htakes⟩
  simp only [ForwardBackward.estimate, ForwardBackward.make, Bool.false_and, Bool.false_eq_true,
    if_false]
  rw [clearedCounts] at hfold hrun hkept
  rw [hfold, hrun, Option.map_some, Option.map_some, hkept]
  exact ⟨_, rfl⟩

end Lattices

/-- There are examples, and all of them can occur; or none can, and none is left on either
way. -/
def EstimatesAgree (x : WFST (Weight F)) (prune cache : Bool) (exs : List (IOSymSeq F)) : Prop :=
  exs ≠ [] ∧ (∀ ex ∈ exs, Supported x ex) ∨ (∀ ex ∈ exs, ¬ Supported x ex) ∧
      (exs = [] ∨ cache = false ∧ prune = true ∧ ∀ ex ∈ exs, hasDerivation x ex = false)

omit [IsStrictOrderedRing F] in
theorem keptExamples_eq_nil_iff {prune cache : Bool} {exs : List (IOSymSeq F)} :
    keptExamples x prune cache exs = [] ↔
      exs = [] ∨ cache = false ∧ prune = true ∧ ∀ ex ∈ exs, hasDerivation x ex = false := by
  rw [keptExamples]
  cases cache with
  | true => simp
  | false =>
    cases prune with
    | true =>
      simp only [Bool.false_eq_true, if_false, List.filter_eq_nil_iff, Bool.not_true,
        Bool.or_false, true_and, Bool.not_eq_true]
      constructor
      · exact .inr
      · rintro (rfl | h)
        · simp
        · exact h
    | false => simp

theorem exists_exampleSums (hx : x.Valid) (hcycle : ∀ s, ¬ x.EpsilonCycle s) :
    ∃ Z C, ExampleSums x Z C := by
  obtain ⟨final, hfinal, -⟩ := hx.final_lt
  have hsums : ∀ ex : IOSymSeq F, ∃ Z C, PathSums (IsDerivation x ex.i ex.o)
      (fun c => weightOf x.arcCounts c.id) Candidate.id Z C := by
    intro ex
    obtain ⟨f, b, -, A, -, hsums⟩ := matrixFb_spec hx hfinal hcycle (weightOf x.arcCounts) ex
    exact ⟨_, _, hsums⟩
  choose Z C hZ using hsums
  exact ⟨Z, C, hZ⟩

/-- **The matrix and the lattices agree** on the counts and the two products, or
both fail, exactly under `EstimatesAgree`. -/
theorem estimate_agree_iff (x : WFST (Weight F)) (hx : x.Valid)
    (hcycle : ∀ s, ¬ x.EpsilonCycle s) (raise : Weight F → F → Weight F) (prune cache : Bool)
    (exs : List (IOSymSeq F)) :
    ∃ r₁ fb₁ r₂ fb₂, (ForwardBackward.make x prune false true (.read exs)).estimate x raise prune =
        some (r₁, fb₁) ∧
      (ForwardBackward.make x prune cache false (.read exs)).estimate x raise prune =
        some (r₂, fb₂) ∧
      (r₁.map Estimate.observed = r₂.map Estimate.observed ↔ EstimatesAgree x prune cache exs) := by
  obtain ⟨Z, C, hZ⟩ := exists_exampleSums hx hcycle
  obtain ⟨e₁, ⟨fb₁, hrun₁⟩, h₁⟩ := estimate_matrix hx hcycle hZ raise prune exs
  obtain ⟨e₂, ⟨fb₂, hrun₂⟩, h₂⟩ := estimate_lattices hcycle hZ raise prune cache exs
  refine ⟨_, _, _, _, hrun₁, hrun₂, ?_⟩
  have hmatrix : (exs.filter fun ex => Z ex ≠ 0).isEmpty = true ↔ ∀ ex ∈ exs, ¬ Supported x ex := by
    rw [List.isEmpty_iff, List.filter_eq_nil_iff]
    refine forall₂_congr fun ex _ => ?_
    rw [decide_eq_true_iff, hZ.ne_zero_iff]
  have hlattice : (keptExamples x prune cache exs).isEmpty = true ↔ _ :=
    List.isEmpty_iff.trans keptExamples_eq_nil_iff
  by_cases hsupp : ∃ ex ∈ exs, Supported x ex
  · obtain ⟨ex, hex, hs⟩ := hsupp
    have hno : ¬ ∀ ex ∈ exs, ¬ Supported x ex := fun h => h ex hex hs
    have hleft : ¬ (keptExamples x prune cache exs).isEmpty = true := by
      rw [hlattice]
      rintro (rfl | ⟨-, -, hnone⟩)
      · exact List.not_mem_nil hex
      · exact absurd hs.hasDerivation (by simp [hnone ex hex])
    rw [if_neg (fun h => hno (hmatrix.mp h)), if_neg hleft, EstimatesAgree]
    simp only [Except.map, Except.ok.injEq]
    rw [observed_eq_iff hcycle hZ h₁ h₂]
    simp only [hno, false_and, or_false]
    exact (and_iff_right (List.ne_nil_of_mem hex)).symm
  · have hall : ∀ ex ∈ exs, ¬ Supported x ex := fun ex hex hs => hsupp ⟨ex, hex, hs⟩
    rw [if_pos (hmatrix.mpr hall), EstimatesAgree, ← hlattice]
    by_cases hempty : (keptExamples x prune cache exs).isEmpty = true
    · rw [if_pos hempty]
      simp only [hempty, and_true]
      exact ⟨fun _ => .inr hall, fun _ => trivial⟩
    · have hnot : ¬ (exs ≠ [] ∧ ∀ ex ∈ exs, Supported x ex) := by
        rintro ⟨hne, hevery⟩
        obtain ⟨ex, hex⟩ := List.exists_mem_of_ne_nil _ hne
        exact hall ex hex (hevery ex hex)
      rw [if_neg hempty]
      simp [Except.map, hempty, hnot]

theorem not_epsilonCycle_oneStep (s : ℕ) : ¬ oneStep.EpsilonCycle s := by
  rintro ⟨h, path, hwalk, heps⟩
  obtain ⟨m, hstep, -⟩ := Walk.cons_iff.mp hwalk
  obtain ⟨state, hstate, harc⟩ := WFST.mem_state_arcs_of_mem_outArcs hstep.1
  have hall : ∀ state ∈ oneStep.states, ∀ arc ∈ state.arcs, arc.inp ≠ epsilonIndex := by
    decide +kernel
  exact hall state hstate h.arc harc (heps h List.mem_cons_self).1

theorem estimate_agree_iff_oneStep :
    ∃ r₁ fb₁ r₂ fb₂,
      (ForwardBackward.make oneStep true false true (.read [⟨[2], [2], 1⟩])).estimate oneStep
        (fun p _ => p) true = some (r₁, fb₁) ∧
      (ForwardBackward.make oneStep true true false (.read [⟨[2], [2], 1⟩])).estimate oneStep
        (fun p _ => p) true = some (r₂, fb₂) ∧
      (r₁.map Estimate.observed = r₂.map Estimate.observed ↔
        EstimatesAgree oneStep true true [⟨[2], [2], 1⟩]) :=
  estimate_agree_iff oneStep valid_oneStep not_epsilonCycle_oneStep _ true true _

/-- Of the pairs `a`, `a` and `a`, nothing, the second has no derivation: over the tables
it makes both products zero. -/
theorem estimate_ne_of_no_derivation :
    oneStep.Valid ∧ (∀ s, ¬ oneStep.EpsilonCycle s) ∧
      ((ForwardBackward.make oneStep true false true (.read [⟨[2], [2], 1⟩, ⟨[2], [], 1⟩])).estimate
          oneStep (fun p _ => p) true).map (·.1.map Estimate.observed) =
        some (.ok ([1], 0, 0)) ∧
      ((ForwardBackward.make oneStep true true false (.read [⟨[2], [2], 1⟩, ⟨[2], [], 1⟩])).estimate
          oneStep (fun p _ => p) true).map (·.1.map Estimate.observed) =
        some (.ok ([1], 1, 1)) :=
  ⟨valid_oneStep, not_epsilonCycle_oneStep, by decide +kernel, by decide +kernel⟩

end Carmel
