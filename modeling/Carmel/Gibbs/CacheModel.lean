/-
# The cache model is exchangeable

The cache model gives each use of a parameter the probability that the uses before it make
it have. Whatever the order of the uses, the product is that of rising products from the
priors over rising products from their sums, so only the numbers of uses matter.
-/

import Carmel.Gibbs.State

namespace Carmel

open Math

universe u

variable {F : Type u} [Field F] {n nnorm nb m : ℕ}

/-! ## Rising products -/

/-- `x * (x + 1) * ... * (x + k - 1)`. -/
def rising (x : F) (k : ℕ) : F := ∏ j ∈ Finset.range k, (x + j)

@[simp] theorem rising_zero (x : F) : rising x 0 = 1 := rfl

theorem rising_succ (x : F) (k : ℕ) : rising x (k + 1) = rising x k * (x + k) :=
  Finset.prod_range_succ ..

theorem prod_eq_mul_of_ne {ι : Type*} [Fintype ι] [DecidableEq ι] {f f' : ι → F} {i : ι} {r : F}
    (hi : f' i = f i * r) (hne : ∀ j ≠ i, f' j = f j) : ∏ j, f' j = (∏ j, f j) * r := by
  rw [← Finset.mul_prod_erase _ f' (Finset.mem_univ i), ← Finset.mul_prod_erase _ f (Finset.mem_univ i),
    hi, Finset.prod_congr rfl fun j hj => hne j (Finset.ne_of_mem_erase hj)]
  ring

namespace CacheArrays

variable {gps : Fin n → GibbsParam F nnorm}

/-! ## The arrays of the priors -/

theorem initCache_eq (i : Fin n) (count : F) (sum : Normsum F nnorm) :
    initCache gps i count sum = (if (gps i).norm = none then count else (gps i).prior,
        bump sum (gps i).norm (gps i).prior) := by
  rw [initCache]
  cases (gps i).norm <;> rfl

theorem recompute_count (p : CacheArrays F n nnorm) (i : Fin n) :
    (p.recompute gps).count i = if (gps i).norm = none then p.count i else (gps i).prior := by
  simp only [recompute, scatterAll_eq _ (fun i _ => (gps i).norm)
    (fun i _ => (gps i).prior) initCache_eq]

theorem recompute_sum (p : CacheArrays F n nnorm) (g : Fin nnorm) :
    (p.recompute gps).sum g = ∑ i, if (gps i).norm = some g then (gps i).prior else 0 := by
  simp only [recompute, scatterAll_eq _ (fun i _ => (gps i).norm)
    (fun i _ => (gps i).prior) initCache_eq, zero_add]

/-! ## The probability of a list of uses -/

variable (gps) in
/-- How often the parameters of a group are used. -/
def groupUses (ids : List (Fin n)) (g : Fin nnorm) : ℕ :=
  ids.countP fun i => (gps i).norm = some g

variable (gps) in
/-- The factors of one parameter, which depend on how often it is used. -/
def paramProb (c : CacheArrays F n nnorm) (i : Fin n) (uses : ℕ) : F :=
  match (gps i).norm with
  | none => (gps i).prior ^ uses
  | some _ => rising (c.count i) uses

variable (c : CacheArrays F n nnorm)

theorem cacheProbIds_concat (ids : List (Fin n)) (i : Fin n) :
    c.cacheProbIds gps (ids ++ [i]) =
      ((c.cacheProbIds gps ids).1 * ((c.cacheProbIds gps ids).2.cacheProb gps i).1,
        ((c.cacheProbIds gps ids).2.cacheProb gps i).2) := by
  simp only [cacheProbIds, List.foldl_append, List.foldl_cons, List.foldl_nil]

variable (gps) in
theorem cacheProbIds_arrays (ids : List (Fin n)) :
    (∀ i g, (gps i).norm = some g → (c.cacheProbIds gps ids).2.count i = c.count i + ids.count i) ∧
    ∀ g, (c.cacheProbIds gps ids).2.sum g = c.sum g + groupUses gps ids g := by
  induction ids using List.reverseRecOn with
  | nil => simp [cacheProbIds, groupUses]
  | append_singleton ids i ih =>
    rw [cacheProbIds_concat, cacheProb]
    cases hi : (gps i).norm with
    | none =>
      constructor
      · intro j g hj
        have hne : i ≠ j := by
          rintro rfl
          rw [hi] at hj
          cases hj
        simpa [List.count_append, List.count_singleton, hne] using ih.1 j g hj
      · intro g
        simpa [groupUses, hi] using ih.2 g
    | some g =>
      constructor
      · intro j g' hj
        by_cases hji : j = i
        · subst hji
          simp [ih.1 j g hi, List.count_append, add_assoc]
        · simpa [List.count_append, List.count_singleton, Function.update_of_ne hji, Ne.symm hji]
            using ih.1 j g' hj
      · intro g'
        by_cases hg : g' = g
        · subst hg
          simp [ih.2 g', groupUses, hi, add_assoc]
        · simpa [groupUses, hi, Function.update_of_ne hg, Ne.symm hg] using ih.2 g'

/-- **The probability of a list of uses** depends only on the numbers of uses. -/
theorem cacheProbIds_prob (ids : List (Fin n)) :
    (c.cacheProbIds gps ids).1 =
      (∏ i, c.paramProb gps i (ids.count i)) / ∏ g, rising (c.sum g) (groupUses gps ids g) := by
  induction ids using List.reverseRecOn with
  | nil =>
    have hone (i : Fin n) : c.paramProb gps i 0 = 1 := by
      rw [paramProb]
      cases (gps i).norm <;> simp
    simp [cacheProbIds, groupUses, hone]
  | append_singleton ids i ih =>
    obtain ⟨hcount, hsum⟩ := cacheProbIds_arrays gps c ids
    have hother : ∀ j ≠ i, c.paramProb gps j ((ids ++ [i]).count j) =
        c.paramProb gps j (ids.count j) := by
      intro j hj
      simp [List.count_append, Ne.symm hj]
    rw [cacheProbIds_concat, ih, cacheProb]
    cases hi : (gps i).norm with
    | none =>
      have hparam : c.paramProb gps i ((ids ++ [i]).count i) =
          c.paramProb gps i (ids.count i) * (gps i).prior := by
        simp [paramProb, hi, List.count_append, pow_succ]
      have hgroups (g : Fin nnorm) : groupUses gps (ids ++ [i]) g = groupUses gps ids g := by
        simp [groupUses, hi]
      have hgroupProd : ∏ g, rising (c.sum g) (groupUses gps (ids ++ [i]) g) =
          ∏ g, rising (c.sum g) (groupUses gps ids g) :=
        Finset.prod_congr rfl fun g _ => congrArg (rising (c.sum g)) (hgroups g)
      rw [prod_eq_mul_of_ne hparam hother, hgroupProd]
      exact div_mul_eq_mul_div ..
    | some g =>
      have hparam : c.paramProb gps i ((ids ++ [i]).count i) =
          c.paramProb gps i (ids.count i) * (c.count i + ids.count i) := by
        simp [paramProb, hi, List.count_append, rising_succ]
      have hgroup : rising (c.sum g) (groupUses gps (ids ++ [i]) g) =
          rising (c.sum g) (groupUses gps ids g) * (c.sum g + groupUses gps ids g) := by
        simp [groupUses, hi, rising_succ]
      have hgroups : ∀ g' ≠ g, rising (c.sum g') (groupUses gps (ids ++ [i]) g') =
          rising (c.sum g') (groupUses gps ids g') := by
        intro g' hg'
        simp [groupUses, hi, Ne.symm hg']
      dsimp only
      rw [prod_eq_mul_of_ne hparam hother, prod_eq_mul_of_ne hgroup hgroups, hcount i g hi, hsum g,
        mul_div_mul_comm]

theorem cacheProbIds_append (ids ids' : List (Fin n)) :
    c.cacheProbIds gps (ids ++ ids') =
      ((c.cacheProbIds gps ids).1 * ((c.cacheProbIds gps ids).2.cacheProbIds gps ids').1,
        ((c.cacheProbIds gps ids).2.cacheProbIds gps ids').2) := by
  induction ids' using List.reverseRecOn with
  | nil => simp [cacheProbIds]
  | append_singleton ids' i ih =>
    rw [← List.append_assoc, cacheProbIds_concat, cacheProbIds_concat, ih]
    simp only [mul_assoc]

/-- The blocks of a sample are gone through as one list of uses. -/
theorem cacheProbBlocks_eq (bs : List (BlockDelta F n)) :
    c.cacheProbBlocks gps false bs = c.cacheProbIds gps (bs.flatMap (·.id)) := by
  induction bs using List.reverseRecOn with
  | nil => rfl
  | append_singleton bs b ih =>
    have hstep : c.cacheProbBlocks gps false (bs ++ [b]) = ((c.cacheProbBlocks gps false bs).1 *
            ((c.cacheProbBlocks gps false bs).2.cacheProbIds gps b.id).1,
          ((c.cacheProbBlocks gps false bs).2.cacheProbIds gps b.id).2) := by
      simp [cacheProbBlocks, cacheProbBlock]
    rw [hstep, ih, List.flatMap_append, cacheProbIds_append]
    simp

end CacheArrays

/-! ## The sample -/

/-- The parameters that a sample uses, block by block. -/
def Sample.ids (S : Sample F n nb) : List (Fin n) := (List.ofFn S).flatMap (·.id)

/-- The cache model's probability of using each parameter so many times. -/
def cacheModelProb (gps : Fin n → GibbsParam F nnorm) (uses : Fin n → ℕ) : F :=
  (∏ i, match (gps i).norm with
    | none => (gps i).prior ^ uses i
    | some _ => rising (gps i).prior (uses i)) /
  ∏ g, rising (∑ i, if (gps i).norm = some g then (gps i).prior else 0)
    (∑ i, if (gps i).norm = some g then uses i else 0)

omit [Field F] in
theorem groupUses_eq_sum (gps : Fin n → GibbsParam F nnorm) (ids : List (Fin n)) (g : Fin nnorm) :
    CacheArrays.groupUses gps ids g = ∑ i, if (gps i).norm = some g then ids.count i else 0 := by
  induction ids with
  | nil => simp [CacheArrays.groupUses]
  | cons a ids ih =>
    rw [CacheArrays.groupUses] at ih
    have hsplit (i : Fin n) : (if (gps i).norm = some g then (a :: ids).count i else 0) =
        (if (gps i).norm = some g then ids.count i else 0) +
          if a = i then (if (gps a).norm = some g then 1 else 0) else 0 := by
      by_cases hai : a = i
      · subst hai
        by_cases hg : (gps a).norm = some g <;> simp [hg]
      · simp [hai]
    rw [CacheArrays.groupUses, List.countP_cons, ih, Finset.sum_congr rfl fun i _ => hsplit i,
      Finset.sum_add_distrib, Finset.sum_ite_eq]
    simp

variable [LinearOrder F] {o : GibbsOpts F}

theorem useCacheProb_expectation (ho : o.useCacheProb = true) : o.expectation = false := by
  rw [GibbsOpts.useCacheProb, Bool.and_eq_true, Bool.not_eq_true'] at ho
  exact ho.1

theorem GibbsBase.cacheProb_eq (ho : o.useCacheProb = true) (s : GibbsBase F n nnorm nb m) :
    (s.cacheProb o true).1 = cacheModelProb s.gps fun i => s.sample.ids.count i := by
  have hprob : (s.cacheProb o true).1 =
      ((s.cachePriors.recompute s.gps).cacheProbIds s.gps s.sample.ids).1 := by
    simp only [GibbsBase.cacheProb, recomputeCachePriors, resetCache, ho, if_true,
      useCacheProb_expectation ho, CacheArrays.cacheProbBlocks_eq, Sample.ids]
  rw [hprob, CacheArrays.cacheProbIds_prob, cacheModelProb]
  congr 1
  · refine Finset.prod_congr rfl fun i _ => ?_
    rw [CacheArrays.paramProb]
    cases hi : (s.gps i).norm with
    | none => rfl
    | some g => simp [CacheArrays.recompute_count, hi]
  · refine Finset.prod_congr rfl fun g _ => ?_
    rw [CacheArrays.recompute_sum, groupUses_eq_sum]

theorem rising_pos [IsStrictOrderedRing F] {x : F} {k : ℕ} (h : k ≠ 0 → 0 < x) : 0 < rising x k := by
  rcases Nat.eq_zero_or_pos k with rfl | hk
  · exact one_pos
  · exact Finset.prod_pos fun j _ => add_pos_of_pos_of_nonneg (h hk.ne') j.cast_nonneg

/-- With positive priors no factor is divided by zero. -/
theorem cacheModelProb_pos [IsStrictOrderedRing F] {gps : Fin n → GibbsParam F nnorm}
    (hpos : ∀ i, 0 < (gps i).prior) (uses : Fin n → ℕ) : 0 < cacheModelProb gps uses := by
  refine div_pos (Finset.prod_pos fun i _ => ?_) (Finset.prod_pos fun g _ => rising_pos fun hne => ?_)
  · cases (gps i).norm with
    | none => exact pow_pos (hpos i) _
    | some g => exact rising_pos fun _ => hpos i
  · obtain ⟨i, -, hi⟩ := Finset.exists_ne_zero_of_sum_ne_zero hne
    have hnorm : (gps i).norm = some g := by
      by_contra hnot
      exact hi (if_neg hnot)
    refine Finset.sum_pos' (fun j _ => ?_) ⟨i, Finset.mem_univ i, ?_⟩
    · split_ifs
      · exact (hpos j).le
      · exact le_rfl
    · rw [if_pos hnorm]
      exact hpos i

/-- **The cache model is exchangeable**: the probability of a sample is a positive function of
how often each parameter occurs in it, so it is the same for all arrangements of the parameters
in blocks. -/
theorem cacheProb_exchangeable [IsStrictOrderedRing F] (ho : o.useCacheProb = true)
    (gps : Fin n → GibbsParam F nnorm) (hpos : ∀ i, 0 < (gps i).prior) :
    (∀ (nb m : ℕ) (s : GibbsBase F n nnorm nb m), s.gps = gps →
      (s.cacheProb o true).1 = cacheModelProb gps (fun i => s.sample.ids.count i) ∧
        0 < (s.cacheProb o true).1) ∧
    ∀ (nb nb' m m' : ℕ) (s : GibbsBase F n nnorm nb m) (s' : GibbsBase F n nnorm nb' m'),
      s.gps = gps → s'.gps = gps → s.sample.ids.Perm s'.sample.ids →
        (s.cacheProb o true).1 = (s'.cacheProb o true).1 := by
  constructor
  · rintro nb m s rfl
    rw [s.cacheProb_eq ho]
    exact ⟨rfl, cacheModelProb_pos hpos _⟩
  · rintro nb nb' m m' s s' rfl hs' hperm
    rw [s.cacheProb_eq ho, s'.cacheProb_eq ho, hs']
    exact congrArg _ (funext fun i => hperm.count_eq i)

/-- Two parameters of one group and a locked one. -/
def sampleParams : Fin 3 → GibbsParam ℚ 1 :=
  ![⟨2, some 0, .clear 0⟩, ⟨1, some 0, .clear 0⟩, ⟨1 / 3, none, .clear 0⟩]

/-- No restarts and no inference of priors. -/
def sampleOpts : GibbsOpts ℚ :=
  ⟨3, 1, 0, false, false, false, false, false, true, false, false, false, 0, false, 0, 0⟩

/-- A sampler of these parameters, before its first run. -/
def sampleBase (S : Sample ℚ 3 2) : GibbsBase ℚ 3 1 2 1 :=
  ⟨sampleParams, fun _ => 0, S, ⟨fun _ => 1, fun _ => 1⟩, ⟨fun _ => 0, fun _ => 0⟩,
    ⟨fun _ => 0, fun _ => 0⟩, fun _ => 1, 0, 0, .clear, [], []⟩

theorem cacheProb_exchangeable_sample :
    ((sampleBase ![⟨0, [0, 2], []⟩, ⟨0, [1, 0], []⟩]).cacheProb sampleOpts true).1 =
      ((sampleBase ![⟨0, [1], []⟩, ⟨0, [0, 0, 2], []⟩]).cacheProb sampleOpts true).1 :=
  (cacheProb_exchangeable (by decide) sampleParams
    (by simp [Fin.forall_fin_succ, sampleParams])).2 2 2 1 1 _ _ rfl rfl (by decide)

end Carmel
