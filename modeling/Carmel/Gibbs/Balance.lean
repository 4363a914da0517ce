/-
# Counts and norm sums are in balance

At all times in a run the count of a parameter is its prior and what the sample uses of it,
and the sum of a normalization group is that of its counts. So whenever a block is about to
be resampled the proposal probabilities are those of the other blocks' samples.
-/

import Carmel.Gibbs.Proposal

namespace Carmel

open Math

universe u

variable {F : Type u} [Field F] [LinearOrder F] {n nnorm nb m : ℕ}

/-- The counts are the priors and `uses`, and the norm sums are the sums of the counts. -/
structure Balanced (gps : Fin n → GibbsParam F nnorm) (ns : Normsum F nnorm) (uses : Fin n → F) :
    Prop where
  count : ∀ i g, (gps i).norm = some g → (gps i).count = (gps i).prior + uses i
  normsum : ∀ g, ns g = ∑ i, if (gps i).norm = some g then (gps i).count else 0

namespace GibbsParam

omit [LinearOrder F] in
theorem restoreP0_eq (p : GibbsParam F nnorm) (ns : Normsum F nnorm) :
    p.restoreP0 ns =
      (if p.norm = none then p else { p with sumcount := .clear p.prior }, bump ns p.norm p.prior) := by
  rw [restoreP0]
  cases p.norm <;> rfl

omit [LinearOrder F] in
theorem addNorm_eq (p : GibbsParam F nnorm) (ns : Normsum F nnorm) :
    p.addNorm ns = bump ns p.norm p.count := by
  rw [addNorm]
  cases p.norm <;> rfl

theorem addc_eq (d t : F) (p : GibbsParam F nnorm) (ns : Normsum F nnorm) :
    p.addc d t ns =
      (if p.norm = none then p else { p with sumcount := p.sumcount.addDelta d t }, bump ns p.norm d) := by
  rw [addc]
  cases p.norm <;> rfl

end GibbsParam

namespace GibbsBase

variable {o : GibbsOpts F} {s : GibbsBase F n nnorm nb m} {uses : Fin n → F}

/-! ## The operations -/

omit [LinearOrder F] in
theorem restoreP0_gps (s : GibbsBase F n nnorm nb m) (i : Fin n) :
    s.restoreP0.gps i = if (s.gps i).norm = none then s.gps i
      else { s.gps i with sumcount := .clear (s.gps i).prior } := by
  rw [restoreP0, scatterAll_eq (fun _ p => if p.norm = none then p else { p with sumcount := .clear p.prior })
    (fun _ p => GibbsParam.norm p) (fun _ p => p.prior) fun _ p ns => p.restoreP0_eq ns]

omit [LinearOrder F] in
theorem balanced_restoreP0 (s : GibbsBase F n nnorm nb m) :
    Balanced s.restoreP0.gps s.restoreP0.normsum fun _ => 0 := by
  have hnorm (i : Fin n) : (s.restoreP0.gps i).norm = (s.gps i).norm := by
    rw [restoreP0_gps]
    split_ifs <;> rfl
  have hprior (i : Fin n) : (s.restoreP0.gps i).prior = (s.gps i).prior := by
    rw [restoreP0_gps]
    split_ifs <;> rfl
  have hcount (i : Fin n) (g : Fin nnorm) (hi : (s.gps i).norm = some g) :
      (s.restoreP0.gps i).count = (s.gps i).prior := by
    rw [restoreP0_gps, if_neg (by rw [hi]; simp)]
    rfl
  constructor
  · intro i g hi
    rw [hnorm] at hi
    rw [hcount i g hi, hprior, add_zero]
  · intro g
    have hsum : s.restoreP0.normsum g = ∑ i, if (s.gps i).norm = some g then (s.gps i).prior else 0 := by
      rw [restoreP0, scatterAll_eq
        (fun _ p => if p.norm = none then p else { p with sumcount := .clear p.prior })
        (fun _ p => GibbsParam.norm p) (fun _ p => p.prior) fun _ p ns => p.restoreP0_eq ns]
      exact zero_add _
    rw [hsum]
    refine Finset.sum_congr rfl fun i _ => ?_
    rw [hnorm]
    split_ifs with hi
    · exact (hcount i g hi).symm
    · rfl

@[simp] theorem addcParam_norm (i j : Fin n) (d : F) :
    ((s.addcParam i d).gps j).norm = (s.gps j).norm := by
  rw [addcParam, GibbsParam.addc_eq]
  by_cases hj : j = i
  · subst hj
    simp only [Function.update_self]
    split_ifs <;> rfl
  · simp only [Function.update_of_ne hj]

@[simp] theorem addcParam_prior (i j : Fin n) (d : F) :
    ((s.addcParam i d).gps j).prior = (s.gps j).prior := by
  rw [addcParam, GibbsParam.addc_eq]
  by_cases hj : j = i
  · subst hj
    simp only [Function.update_self]
    split_ifs <;> rfl
  · simp only [Function.update_of_ne hj]

theorem addcParam_sumcount {i j : Fin n} (hj : (s.gps j).norm ≠ none) (d : F) :
    ((s.addcParam i d).gps j).sumcount =
      if i = j then (s.gps j).sumcount.addDelta d s.time else (s.gps j).sumcount := by
  rw [addcParam, GibbsParam.addc_eq]
  by_cases hij : i = j
  · subst hij
    simp only [Function.update_self, if_neg hj, if_true]
  · simp only [Function.update_of_ne (Ne.symm hij), if_neg hij]

theorem addcParam_normsum (i : Fin n) (d : F) (g : Fin nnorm) :
    (s.addcParam i d).normsum g = s.normsum g + if (s.gps i).norm = some g then d else 0 := by
  rw [addcParam, GibbsParam.addc_eq]
  exact bump_apply ..

theorem balanced_addcParam (h : Balanced s.gps s.normsum uses) (i : Fin n) (d : F) :
    Balanced (s.addcParam i d).gps (s.addcParam i d).normsum
      fun j => uses j + if i = j then d else 0 := by
  have hcount (j : Fin n) (g : Fin nnorm) (hj : (s.gps j).norm = some g) :
      ((s.addcParam i d).gps j).count = (s.gps j).count + if i = j then d else 0 := by
    rw [GibbsParam.count, addcParam_sumcount (by rw [hj]; simp)]
    split_ifs
    · exact DeltaSum.x_addDelta ..
    · exact (add_zero _).symm
  constructor
  · intro j g hj
    rw [addcParam_norm] at hj
    rw [hcount j g hj, h.count j g hj, addcParam_prior, add_assoc]
  · intro g
    have hsplit (j : Fin n) : (if (s.gps j).norm = some g then ((s.addcParam i d).gps j).count else 0) =
        (if (s.gps j).norm = some g then (s.gps j).count else 0) +
          if i = j then (if (s.gps i).norm = some g then d else 0) else 0 := by
      by_cases hj : (s.gps j).norm = some g
      · rw [if_pos hj, if_pos hj, hcount j g hj]
        by_cases hij : i = j
        · subst hij
          rw [if_pos rfl, if_pos rfl, if_pos hj]
        · rw [if_neg hij, if_neg hij]
      · rw [if_neg hj, if_neg hj, zero_add]
        by_cases hij : i = j
        · subst hij
          rw [if_pos rfl, if_neg hj]
        · rw [if_neg hij]
    simp only [addcParam_normsum, addcParam_norm, h.normsum g, hsplit, Finset.sum_add_distrib,
      Finset.sum_ite_eq, Finset.mem_univ, if_true]

/-- Only counts and norm sums change when counts are added. -/
theorem exists_addc_eq (o : GibbsOpts F) (b : BlockDelta F n) (scale : F) (s : GibbsBase F n nnorm nb m) :
    ∃ gps ns, s.addc o b scale = { s with gps := gps, normsum := ns } := by
  refine List.foldlRecOn (motive := fun t => ∃ gps ns, t = { s with gps := gps, normsum := ns }) _ _
    ⟨s.gps, s.normsum, rfl⟩ ?_
  rintro t ⟨gps, ns, rfl⟩ u -
  exact ⟨_, _, rfl⟩

section Frame

variable (o : GibbsOpts F) (b : BlockDelta F n) (scale : F) (s : GibbsBase F n nnorm nb m)

@[simp] theorem addc_sample : (s.addc o b scale).sample = s.sample := by
  obtain ⟨gps, ns, h⟩ := exists_addc_eq o b scale s
  rw [h]

@[simp] theorem addc_calls : (s.addc o b scale).calls = s.calls := by
  obtain ⟨gps, ns, h⟩ := exists_addc_eq o b scale s
  rw [h]

end Frame

theorem balanced_addc (h : Balanced s.gps s.normsum uses) (b : BlockDelta F n)
    (scale : F) :
    Balanced (s.addc o b scale).gps (s.addc o b scale).normsum
      fun i => uses i + scale * b.occurrences o.expectation i := by
  rw [addc]
  simp only [BlockDelta.occurrences]
  induction b.uses o.expectation generalizing s uses with
  | nil => simpa using h
  | cons u us ih =>
    have hsum (i : Fin n) : uses i + scale * ((u :: us).map fun v => if v.1 = i then v.2 else 0).sum =
        uses i + (if u.1 = i then u.2 * scale else 0) +
          scale * (us.map fun v => if v.1 = i then v.2 else 0).sum := by
      rw [List.map_cons, List.sum_cons]
      split_ifs <;> ring
    simp only [hsum]
    exact ih (balanced_addcParam h u.1 (u.2 * scale))

omit [LinearOrder F] in
theorem balanced_scalePriors (h : Balanced s.gps s.normsum uses) (inverse : Bool) :
    Balanced (s.scalePriors inverse).gps (s.scalePriors inverse).normsum uses := by
  rw [scalePriors_eq]
  constructor
  · intro i g hi
    have hcount : (s.gps i).sumcount.x = (s.gps i).prior + uses i := h.count i g hi
    simp only [GibbsParam.count, GibbsParam.scaleBy, DeltaSum.addbase, hcount]
    ring
  · intro g
    simp only [h.normsum g, ← Finset.sum_add_distrib]
    refine Finset.sum_congr rfl fun i _ => ?_
    change _ = if (s.gps i).norm = some g then _ else _
    by_cases hi : (s.gps i).norm = some g
    · rw [if_pos hi, if_pos hi, if_pos hi]
      rfl
    · rw [if_neg hi, if_neg hi, if_neg hi, add_zero]

end GibbsBase

/-! ## A block -/

/-- What a sample uses of a parameter, over all blocks. -/
def Sample.uses (o : GibbsOpts F) (imp : GibbsImp F n nb m) (S : Sample F n nb) (i : Fin n) : F :=
  ∑ b, imp.blockWeight b * (S b).occurrences o.expectation i

/-- The counts that resampling a block goes by are those of the samples of the other blocks, and
with `include_self` of its own. -/
def ResampleCall.Balanced (o : GibbsOpts F) (imp : GibbsImp F n nb m)
    (c : ResampleCall F n nnorm nb) : Prop :=
  Carmel.Balanced c.gps c.normsum fun i => ∑ b, imp.blockWeight b *
    if b = c.block then (if o.includeSelf then c.own.occurrences o.expectation i else 0)
    else (c.sample b).occurrences o.expectation i

namespace GibbsBase

variable {o : GibbsOpts F} {imp : GibbsImp F n nb m} {s t : GibbsBase F n nnorm nb m} {uses : Fin n → F}

variable (o imp s) in
/-- Everything is in balance, now and whenever a block was resampled. -/
structure InBalance : Prop where
  now : Balanced s.gps s.normsum (s.sample.uses o imp)
  calls : ∀ c ∈ s.calls, c.Balanced o imp

omit [LinearOrder F] in
@[simp] theorem occurrences_clear (e : Bool) (b : BlockDelta F n) (i : Fin n) :
    b.clear.occurrences e i = 0 := by
  cases e <;> simp [BlockDelta.occurrences, BlockDelta.uses, BlockDelta.clear]

theorem uses_update (S : Sample F n nb) (b : Fin nb) (bd : BlockDelta F n) (i : Fin n) :
    Sample.uses o imp (Function.update S b bd) i =
      S.uses o imp i + -imp.blockWeight b * (S b).occurrences o.expectation i +
        imp.blockWeight b * bd.occurrences o.expectation i := by
  rw [Sample.uses, Sample.uses, ← Finset.add_sum_erase _ _ (Finset.mem_univ b),
    ← Finset.add_sum_erase _ (fun b => imp.blockWeight b * (S b).occurrences o.expectation i)
      (Finset.mem_univ b), Function.update_self,
    Finset.sum_congr rfl fun b' hb' => by rw [Function.update_of_ne (Finset.ne_of_mem_erase hb')]]
  ring

/-- What there is when a block has been put aside. -/
theorem inBalance_beginBlock (h : s.InBalance o imp) (b : Fin nb) :
    let s' := s.beginBlock o imp b
    Balanced s'.gps s'.normsum (fun i => s'.sample.uses o imp i +
      if o.includeSelf then imp.blockWeight b * (s.sample b).occurrences o.expectation i else 0) ∧
    s'.sample = Function.update s.sample b (s.sample b).clear ∧
    ∀ c ∈ s'.calls, c.Balanced o imp := by
  intro s'
  have hsample : s'.sample = Function.update s.sample b (s.sample b).clear := by
    obtain ⟨gps, ns, hadd⟩ := exists_addc_eq o (s.sample b) (-imp.blockWeight b) s
    simp only [s', beginBlock, hadd, setBlock]
    split_ifs <;> rfl
  have hbalanced : Balanced s'.gps s'.normsum fun i => s'.sample.uses o imp i +
      if o.includeSelf then imp.blockWeight b * (s.sample b).occurrences o.expectation i else 0 := by
    simp only [hsample, uses_update, occurrences_clear, mul_zero, add_zero]
    simp only [s', beginBlock, setBlock]
    by_cases hself : o.includeSelf = true
    · simpa only [if_pos hself, neg_mul, neg_add_cancel_right] using h.now
    · simpa only [if_neg hself, add_zero] using balanced_addc h.now (s.sample b) (-imp.blockWeight b)
  refine ⟨hbalanced, hsample, ?_⟩
  have hcalls : s'.calls = s.calls ++ [⟨s'.gps, s'.normsum, s'.sample, b, s.sample b⟩] := by
    obtain ⟨gps, ns, hadd⟩ := exists_addc_eq o (s.sample b) (-imp.blockWeight b) s
    simp only [s', beginBlock, hadd, setBlock]
    split_ifs <;> rfl
  intro c hc
  rw [hcalls, List.mem_append, List.mem_singleton] at hc
  rcases hc with hc | rfl
  · exact h.calls c hc
  · rw [ResampleCall.Balanced]
    convert hbalanced using 2 with i
    rw [Sample.uses, hsample, ← Finset.add_sum_erase _ _ (Finset.mem_univ b),
      ← Finset.add_sum_erase _ (fun b' => imp.blockWeight b' *
        (Function.update s.sample b (s.sample b).clear b').occurrences o.expectation i)
        (Finset.mem_univ b), Function.update_self, occurrences_clear,
      Finset.sum_congr rfl fun b' hb' => by rw [if_neg (Finset.ne_of_mem_erase hb')]]
    simp only [if_true, mul_zero, zero_add]
    split_ifs <;> ring

theorem exists_resampled_eq (o : GibbsOpts F) (imp : GibbsImp F n nb m) (r : ℕ) (randomize : Bool)
    (b : Fin nb) (s : GibbsBase F n nnorm nb m) :
    ∃ bd c, s.resampled o imp r randomize b = (bd, { s with cache := c }) := by
  rw [resampled, prob]
  split_ifs <;> exact ⟨_, _, rfl⟩

/-- What goes on with a block once it has been resampled. -/
theorem iterateBlock_snd (o : GibbsOpts F) (imp : GibbsImp F n nb m) (r : ℕ) (randomize : Bool)
    (x : F × GibbsBase F n nnorm nb m) (b : Fin nb) :
    ∃ bd c, let s := { x.2.beginBlock o imp b with cache := c }.setBlock b bd
      (iterateBlock o imp r randomize x b).2 =
        (if o.includeSelf then s.addc o (x.2.sample b) (-imp.blockWeight b) else s).addc o bd
          (imp.blockWeight b) := by
  obtain ⟨bd, c, h⟩ := exists_resampled_eq o imp r randomize b (x.2.beginBlock o imp b)
  refine ⟨bd, c, ?_⟩
  simp only [iterateBlock, h]

/-- The last counts to be added. -/
theorem inBalance_addc (h : Balanced s.gps s.normsum uses)
    (hcalls : ∀ c ∈ s.calls, c.Balanced o imp) {bd : BlockDelta F n} {scale : F}
    (huses : ∀ i, uses i + scale * bd.occurrences o.expectation i = s.sample.uses o imp i) :
    (s.addc o bd scale).InBalance o imp := by
  constructor
  · rw [addc_sample, ← funext huses]
    exact balanced_addc h bd scale
  · rw [addc_calls]
    exact hcalls

theorem inBalance_iterateBlock {x : F × GibbsBase F n nnorm nb m}
    (h : x.2.InBalance o imp) (r : ℕ) (randomize : Bool) (b : Fin nb) :
    (iterateBlock o imp r randomize x b).2.InBalance o imp := by
  obtain ⟨hbalanced, hsample, hcalls⟩ := inBalance_beginBlock h b
  obtain ⟨bd, c, hblock⟩ := iterateBlock_snd o imp r randomize x b
  generalize hs : { x.2.beginBlock o imp b with cache := c }.setBlock b bd = s at hblock
  have hnow : Balanced s.gps s.normsum fun i => (x.2.beginBlock o imp b).sample.uses o imp i +
      if o.includeSelf then imp.blockWeight b * (x.2.sample b).occurrences o.expectation i else 0 := by
    rw [← hs]
    exact hbalanced
  have hnowCalls : ∀ c ∈ s.calls, c.Balanced o imp := by
    rw [← hs]
    exact hcalls
  have hnowSample : s.sample = Function.update x.2.sample b bd := by
    rw [← hs]
    exact (congrArg (Function.update · b bd) hsample).trans (Function.update_idem ..)
  rw [hblock]
  cases hself : o.includeSelf with
  | true =>
    refine inBalance_addc (balanced_addc hnow (x.2.sample b) (-imp.blockWeight b)) ?_ fun i => ?_
    · rw [addc_calls]
      exact hnowCalls
    · rw [addc_sample, hnowSample, hsample, uses_update, uses_update, occurrences_clear,
        if_pos hself]
      ring
  | false =>
    refine inBalance_addc hnow hnowCalls fun i => ?_
    rw [hnowSample, hsample, uses_update, uses_update, occurrences_clear,
      if_neg (by rw [hself]; exact Bool.false_ne_true)]
    ring

theorem inBalance_iterateBlocks (h : s.InBalance o imp) (r : ℕ) (randomize : Bool) :
    (s.iterateBlocks o imp r randomize).2.InBalance o imp := by
  refine List.foldlRecOn (motive := fun x : F × GibbsBase F n nnorm nb m =>
    x.2.InBalance o imp) _ _ ?_
    fun x hx b _ => inBalance_iterateBlock hx r randomize b
  rw [resetCache]
  split_ifs
  · exact ⟨h.now, h.calls⟩
  · exact h

/-- What `propose_new_priors` does in each case. -/
theorem proposeNewPriors_cases (pdf : F → F) (prop : Proposal F m) (s : GibbsBase F n nnorm nb m) :
    s.proposeNewPriors o pdf prop = .error s ∨
    (∃ scales c, s.proposeNewPriors o pdf prop = .ok { s with scales := scales, cache := c }) ∨
    ∃ c p, s.proposeNewPriors o pdf prop =
      .ok { (s.withScales prop).scalePriors false with cachePriors := p, cache := c } := by
  by_cases hstddev : o.priorInferenceStddev ≤ 0
  · exact .inr (.inl ⟨s.scales, s.cache, by rw [proposeNewPriors, if_pos hstddev]⟩)
  by_cases hexp : o.expectation = true
  · exact .inl (by rw [proposeNewPriors, if_neg hstddev, if_pos hexp])
  have hsample : o.expectation = false := eq_false_of_ne_true hexp
  by_cases haccepts : s.AcceptsPriors o pdf prop
  · obtain ⟨c, h⟩ := proposeNewPriors_of_accepted haccepts
    exact .inr (.inr ⟨c, _, h⟩)
  · exact .inr (.inl (proposeNewPriors_of_rejected (not_le.mp hstddev) hsample haccepts))

theorem inBalance_inferPriors (h : s.InBalance o imp) (r : ℕ) :
    Holds (InBalance o imp) (InBalance o imp) (s.inferPriors o imp r) := by
  rw [inferPriors]
  split_ifs
  · rcases proposeNewPriors_cases imp.pdf (imp.proposal r s.iter) s with hp | ⟨scales, c, hp⟩ | ⟨c, p, hp⟩
    · rw [hp]
      exact h
    · rw [hp]
      exact ⟨h.now, h.calls⟩
    · rw [hp]
      have hscaled := balanced_scalePriors (s := s.withScales (imp.proposal r s.iter)) h.now false
      rw [holds_ok, scalePriors_eq]
      rw [scalePriors_eq] at hscaled
      exact ⟨hscaled, h.calls⟩
  · exact h

theorem inBalance_iteration (h : s.InBalance o imp) (r : ℕ) (randomize : Bool) :
    Holds (InBalance o imp) (InBalance o imp) (s.iteration o imp r randomize) :=
  (inBalance_inferPriors (inBalance_iterateBlocks h r randomize) r).bind fun _ ht => ⟨ht.now, ht.calls⟩

variable (o imp s) in
/-- Whenever a block was resampled, everything was in balance. -/
def CallsBalanced : Prop := ∀ c ∈ s.calls, c.Balanced o imp

theorem inBalance_beginRun (h : s.CallsBalanced o imp) : s.beginRun.InBalance o imp := by
  constructor
  · have huses : Sample.uses o imp (fun b => (s.sample b).clear) = fun _ => 0 :=
      funext fun i => by simp [Sample.uses]
    change Balanced _ _ (Sample.uses o imp fun b => (s.sample b).clear)
    rw [huses]
    exact balanced_restoreP0 { s with stats := .clear, samples := [] }
  · exact h

theorem inBalance_run (h : s.CallsBalanced o imp) (r : ℕ) :
    Holds (CallsBalanced o imp) (InBalance o imp) (s.run o imp r) := by
  have hweak {α : Type u} {P : α → Prop} {x : Except (GibbsBase F n nnorm nb m) α}
      (hx : Holds (InBalance o imp) P x) : Holds (CallsBalanced o imp) P x := by
    cases x with
    | ok a => exact hx
    | error e => exact hx.calls
  refine hweak ((inBalance_iteration (inBalance_beginRun h) r _).bind fun t ht => ?_)
  refine Holds.foldlM_range' (I := fun _ => InBalance o imp) ht fun k _ t ht => ?_
  have hnext : { t with iter := 1 + k, time := timeOf o (1 + k) }.InBalance o imp := ⟨ht.now, ht.calls⟩
  exact inBalance_iteration hnext r false

theorem callsBalanced_finalize (h : s.CallsBalanced o imp) :
    Holds (CallsBalanced o imp) (CallsBalanced o imp) (s.finalizeCumulativeCounts o) := by
  have hexclude : (s.excludePriors o).CallsBalanced o imp := by
    rw [excludePriors]
    split_ifs <;> exact h
  have hextend : Holds (CallsBalanced o imp) (CallsBalanced o imp)
      ((s.excludePriors o).extendCounts o) := by
    refine Holds.foldlM (I := fun _ => CallsBalanced o imp) hexclude fun _ i _ t _ ht => ?_
    cases (t.gps i).finalCounts (o.finalT + 1) with
    | none => exact ht
    | some p => exact ht
  rw [finalizeCumulativeCounts]
  split_ifs
  · exact h
  · exact hexclude
  · exact hextend.bind fun t ht => ht

end GibbsBase

namespace GibbsStarts

open GibbsBase

variable {o : GibbsOpts F} {imp : GibbsImp F n nb m}

theorem callsBalanced_start {x : GibbsStarts F n nnorm nb m} (h : x.base.CallsBalanced o imp)
    (priors : Fin n → F) (r : ℕ) :
    Holds (CallsBalanced o imp) (fun x => x.base.CallsBalanced o imp) (x.start o imp priors r) := by
  rw [start]
  have hrun : Holds (CallsBalanced o imp) (InBalance o imp)
      ((if 0 < r ∧ 0 < o.restarts ∧ o.priorInferenceRestartFresh = true then
        x.base.restorePriors o priors else x.base).run o imp r) := by
    refine inBalance_run ?_ r
    split_ifs
    · rw [restorePriors, initCumulative, recomputeCachePriors]
      split_ifs <;> exact h
    · exact h
  refine hrun.bind fun s hs => ?_
  dsimp only
  split_ifs
  · exact (callsBalanced_finalize hs.calls).bind fun t ht => ht
  · exact hs.calls

/-- The calls of `resample_block` in all runs, up to the end or to where they threw. -/
def calls : Except (GibbsBase F n nnorm nb m) (GibbsStarts F n nnorm nb m) →
    List (ResampleCall F n nnorm nb)
  | .ok x => x.base.calls
  | .error s => s.calls

/-- **Whenever a block is resampled**, in any number of runs, the sum of each normalization group
is the sum of its parameters' counts, and each of these counts is the prior and the weighted number
of uses in the other blocks, with `include_self` in all blocks. -/
theorem balanced_of_mem_calls (o : GibbsOpts F) (imp : GibbsImp F n nb m)
    (s : GibbsBase F n nnorm nb m) :
    ∀ c ∈ calls (runStarts o.validate imp s), c.Balanced o.validate imp := by
  have hruns : Holds (CallsBalanced o.validate imp) (fun x => x.base.CallsBalanced o.validate imp)
      (runStarts o.validate imp s) := by
    rw [runStarts]
    refine Holds.bind (P := fun x : GibbsStarts F n nnorm nb m => x.base.CallsBalanced o.validate imp) ?_
      fun x hx => ?_
    · refine Holds.foldlM_range' (I := fun _ (x : GibbsStarts F n nnorm nb m) =>
        x.base.CallsBalanced o.validate imp) ?_
        fun k _ x hx => callsBalanced_start hx _ _
      intro c hc
      rw [init, initCache] at hc
      split_ifs at hc with hcache
      · rw [resetCache, if_pos hcache, recomputeCachePriors, if_pos hcache] at hc
        cases hc
      · cases hc
    · rw [holds_ok, finish]
      split_ifs <;> exact hx
  cases hrun : runStarts o.validate imp s with
  | ok x => rwa [hrun] at hruns
  | error t => rwa [hrun] at hruns

/-- The first block uses the first parameter twice in odd iterations and once in even ones, the
second block always the second and the locked one. -/
def sampleImp : GibbsImp ℚ 3 2 1 where
  blockWeight _ := 1
  resampleBlock _ i b := ⟨0, if b = 0 then List.replicate (1 + i % 2) 0 else [1, 2], []⟩
  random01 _ _ _ := 1
  proposal _ _ := twice
  pdf _ := 1

theorem balanced_of_mem_calls_sample :
    ∃ c ∈ calls (runStarts sampleOpts.validate sampleImp (sampleBase fun _ => ⟨0, [], []⟩)),
      c.Balanced sampleOpts.validate sampleImp := by
  have hcalls : (calls (runStarts sampleOpts.validate sampleImp
      (sampleBase fun _ => ⟨0, [], []⟩))).length = 8 := by
    decide +kernel
  obtain ⟨c, hc⟩ := List.exists_mem_of_length_pos (by rw [hcalls]; decide)
  exact ⟨c, hc, balanced_of_mem_calls sampleOpts sampleImp _ c hc⟩

end GibbsStarts

end Carmel
