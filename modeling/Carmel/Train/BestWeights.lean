/-
# The weights that training leaves

Of the estimates whose weights may be kept, training remembers the first with the lowest
perplexity: its weights in a trivial cascade, else the counts that gave them, from which it
makes the weights once more when it is done. That gives the same weights if normalizing does
not write to locked arcs.
-/

import Carmel.Train.Termination

namespace Carmel

open CascadeParameters

universe u v

namespace TrainCascade

section Reestimate

variable {F : Type u} [Field F] [LinearOrder F] [IsStrictOrderedRing F]
variable {order : HashOrder (ℕ × List (HalfArc (Weight F)))} {pow : Weight F → F → Weight F}
variable {T : TrainCascade F} {p : Param} {w w' : Weights F}

variable (order T) in
/-- The weights that the counts on the composed arcs lead to. -/
def reestimate (w : Weights F) : Weights F := T.loadNone w (T.useCounts order w)

/-- An arc of the cascade, or of the composed transducer. -/
def HasArc (T : TrainCascade F) (p : Param) : Prop :=
  p ∈ T.arcs ∨ ∃ m, T.members[p.fst]? = some m ∧ p ∈ m.1.params p.fst

/-- Neither trained nor composed. -/
def Fixed (T : TrainCascade F) (p : Param) : Prop := ¬ T.Trained p ∧ p ∉ T.arcs

theorem reestimate_of_not_trained (hp : ¬ T.Trained p) (w : Weights F) :
    T.reestimate order w p = w p + T.added p :=
  loadNone_useCounts hp w w rfl

omit [IsStrictOrderedRing F] in
theorem exists_memory_of_trained (hp : T.Trained p) :
    ∃ arc, memory T.transducers p = some arc ∧ arc.isLocked = false := by
  obtain ⟨x, method, hm, -, hmem⟩ := hp
  obtain ⟨h, hh, hlocked, heq⟩ := WFST.mem_unlockedParams.mp hmem
  have hx : T.transducers[p.fst]? = some x := by rw [transducers, List.getElem?_map, hm]; rfl
  refine ⟨h.arc, mem_memory_iff.mpr ⟨x, hx, ?_⟩, hlocked⟩
  rw [← heq]
  exact hh

omit [IsStrictOrderedRing F] in
theorem not_trained_of_mem_arcs (hc : T.trivial = false) (hp : p ∈ T.arcs) : ¬ T.Trained p := by
  rintro ⟨x, method, hm, -⟩
  have hfst : p.fst = T.members.length := by
    rw [fst_of_mem_params hp, composedAt, hc]
    rfl
  rw [hfst, List.getElem?_eq_none (Nat.le_refl _)] at hm
  cases hm

theorem distributeCounts_congr (hc : T.trivial = false) (hw : ∀ p, ¬ T.Trained p → w p = w' p) :
    T.distributeCounts w = T.distributeCounts w' := by
  funext p
  by_cases hp : ∃ arc, memory T.transducers p = some arc ∧ arc.isLocked = false
  · obtain ⟨arc, harc, hlocked⟩ := hp
    rw [distributeCounts, distributeCounts, distributeCounts_of_unlocked hc harc hlocked,
      distributeCounts_of_unlocked hc harc hlocked, chainTotal, chainTotal]
    refine congrArg List.sum (List.map_congr_left fun h hh => ?_)
    rw [hw _ (not_trained_of_mem_arcs hc (WFST.mem_params.mpr ⟨h, hh, rfl⟩))]
  · have hlocked : ∀ arc, memory T.transducers p = some arc → arc.isLocked = true := by
      intro arc harc
      by_contra hunlocked
      exact hp ⟨arc, harc, eq_false_of_ne_true hunlocked⟩
    rw [distributeCounts, distributeCounts, distributeCounts_of_not_unlocked hlocked,
      distributeCounts_of_not_unlocked hlocked]
    exact hw p fun htrained => hp (exists_memory_of_trained htrained)

theorem reestimate_congr (hc : T.trivial = false) (hw : ∀ p, ¬ T.Trained p → w p = w' p) :
    T.reestimate order w = T.reestimate order w' := by
  funext p
  rw [reestimate, reestimate, useCounts, useCounts, distributeCounts_congr hc hw]
  by_cases hnone : p ∈ T.noneArcs
  · have hp : ¬ T.Trained p := by
      rintro ⟨x, method, hm, hgroup, -⟩
      obtain ⟨x', method', hm', hgroup', -⟩ := mem_noneArcs.mp hnone
      obtain ⟨rfl, rfl⟩ : x = x' ∧ method = method' := by
        simpa using Option.some.inj (hm.symm.trans hm')
      exact hgroup hgroup'
    rw [loadNone, loadNone, onArcs_of_mem hnone, onArcs_of_mem hnone, hw p hp]
  · rw [loadNone, loadNone, onArcs_of_not_mem hnone, onArcs_of_not_mem hnone]

/-- Where nothing is added to locked arcs, making the weights again changes nothing. -/
theorem reestimate_reestimate (hc : T.trivial = false) (hadded : ∀ p, ¬ T.Trained p → T.added p = 0)
    (w : Weights F) : T.reestimate order (T.reestimate order w) = T.reestimate order w := by
  apply reestimate_congr hc
  intro p hp
  rw [reestimate_of_not_trained hp, hadded p hp, add_zero]

omit [IsStrictOrderedRing F] in
theorem unlockedArcs_subset_arcs (hp : p ∈ T.unlockedArcs) : p ∈ T.arcs := by
  obtain ⟨h, hh, -, heq⟩ := WFST.mem_unlockedParams.mp hp
  exact WFST.mem_params.mpr ⟨h, hh, heq⟩

theorem maximize_weight (hc : T.trivial = false) (args : MaximizeArgs F) (s : TrainWeights F) :
    (T.maximize order pow args s).1.weight =
      T.reestimate order (T.prepNewWeights args s).weight := by
  rw [maximize, if_neg (by simp [hc]), newWeights, reestimate]
  funext p
  dsimp only
  by_cases hnone : p ∈ T.noneArcs
  · have hp : p ∉ T.unlockedArcs := by
      intro hmem
      obtain ⟨x, method, hm, -⟩ := mem_noneArcs.mp hnone
      have hfst : p.fst = T.members.length := by
        rw [fst_of_mem_params (unlockedArcs_subset_arcs hmem), composedAt, hc]
        rfl
      rw [hfst, List.getElem?_eq_none (Nat.le_refl _)] at hm
      cases hm
    rw [loadNone, loadNone, onArcs_of_mem hnone, onArcs_of_mem hnone, prepNewWeights_of_not_mem hp]
  · rw [loadNone, loadNone, onArcs_of_not_mem hnone, onArcs_of_not_mem hnone]

theorem update_of_not_mem (hp : p ∉ T.arcs) (w : Weights F) : T.update w p = w p := by
  rw [update]
  split
  case isTrue => rfl
  case isFalse =>
    refine List.foldlRecOn (motive := fun v : Weights F => v p = w p) _ _ rfl fun v hv h hh => ?_
    rw [Function.update_of_ne, hv]
    rintro rfl
    exact hp (WFST.mem_params.mpr ⟨h, hh, rfl⟩)

theorem maximize_bestWeight (args : MaximizeArgs F) (s : TrainWeights F) :
    (T.maximize order pow args s).1.bestWeight = s.bestWeight := by
  rw [maximize]
  dsimp only
  split
  case isTrue => split <;> rfl
  case isFalse => rfl

theorem added_eq_zero (hkeeps : ∀ m ∈ T.members, m.1.KeepsLocked m.2) (hp : ¬ T.Trained p) :
    T.added p = 0 := by
  rw [added]
  cases hm : T.members[p.fst]? with
  | none => rfl
  | some m =>
    obtain ⟨x, method⟩ := m
    dsimp only
    by_cases hgroup : method.group = .NONE
    · rw [if_pos hgroup]
    rw [if_neg hgroup]
    by_cases hmem : p ∈ x.params p.fst
    · obtain ⟨h, hh, heq⟩ := WFST.mem_params.mp hmem
      have hlocked : h.arc.isLocked = true := by
        by_contra hunlocked
        exact hp ⟨x, method, hm, hgroup,
          WFST.mem_unlockedParams.mpr ⟨h, hh, eq_false_of_ne_true hunlocked, heq⟩⟩
      have hzero := WFST.keepsLocked_iff.mp (hkeeps _ (List.mem_of_getElem? hm)) h hh hlocked
      rw [if_neg hgroup] at hzero
      rw [hzero, nsmul_zero]
    · rw [List.count_eq_zero.mpr hmem, zero_nsmul]

end Reestimate

end TrainCascade

namespace Trainer

variable {P : Type v} {F : Type u} [Field F] [LinearOrder F] [IsStrictOrderedRing F]
variable {L : Trainer P F} {prior : Weights F} {no fuel n : ℕ} {s t : TrainState P F} {p : Param}

theorem beginIteration_apply (hp : p ∉ L.cascade.arcs) (s : TrainState P F) :
    (L.beginIteration s).weights.weight p = s.weights.weight p := by
  rw [beginIteration]
  dsimp only
  rw [TrainCascade.update_of_not_mem hp]
  split <;> rfl

theorem beginIteration_bestWeight (s : TrainState P F) :
    (L.beginIteration s).weights.bestWeight = s.weights.bestWeight := by
  rw [beginIteration]
  dsimp only
  split <;> rfl

theorem estimated_weight (s : TrainState P F) :
    (L.estimated s).weights.weight = (L.beginIteration s).weights.weight := by
  by_cases h : L.NextImproves s
  · rw [estimated, (recordEstimate_of_improves h).2.2]
    rfl
  · rw [estimated, (recordEstimate_of_not_improves h).2.2]

theorem Continues.apply {out : TrainState P F × Bool} (hp : L.cascade.Fixed p)
    (h : Continues L s out) :
    ∃ n : ℕ, out.1.weights.weight p = s.weights.weight p + n • L.cascade.added p := by
  cases h with
  | left hweights => exact ⟨0, by rw [hweights, zero_nsmul, add_zero]⟩
  | reset high hweights rate =>
    refine ⟨0, ?_⟩
    rw [hweights, zero_nsmul, add_zero]
    exact onArcs_of_not_mem hp.2
  | maximized args hweights rate =>
    refine ⟨L.cascade.normalizations args, ?_⟩
    rw [hweights]
    exact TrainCascade.maximize_apply hp.1
      (fun hmem => hp.2 (TrainCascade.unlockedArcs_subset_arcs hmem)) args s.weights

variable (prior no) in
/-- An iteration adds to such a weight what normalizing adds, some number of times. -/
theorem iteration_apply (hp : L.cascade.Fixed p) (s : TrainState P F) :
    ∃ n : ℕ, (L.iteration prior no s).1.weights.weight p =
      s.weights.weight p + n • L.cascade.added p := by
  have hestimated : (L.estimated s).weights.weight p = s.weights.weight p := by
    rw [estimated_weight, beginIteration_apply hp.2]
  rcases iteration_cases L prior no s with ⟨-, heq⟩ | ⟨-, -, heq⟩ | ⟨-, -, hafter⟩
  · exact ⟨0, by rw [heq, beginIteration_apply hp.2, zero_nsmul, add_zero]⟩
  · exact ⟨0, by rw [heq, hestimated, zero_nsmul, add_zero]⟩
  · obtain ⟨n, hn⟩ := hafter.continues.apply hp
    exact ⟨n, by rw [hn, hestimated]⟩

omit [IsStrictOrderedRing F] in
theorem randomize_of_not_trained (hp : ¬ L.cascade.Trained p) (no : ℕ) (w : Weights F) :
    L.randomize no w p = w p := by
  refine List.foldlRecOn (motive := fun v : Weights F => v p = w p) _ _ rfl ?_
  rintro v hv ⟨⟨x, method⟩, k⟩ hm
  dsimp only
  split
  case isTrue hgroup =>
    refine (changeEachParameter_of_not_mem (fun hmem => ?_) v).trans hv
    obtain ⟨h, -, -, heq⟩ := WFST.mem_unlockedParams.mp hmem
    obtain rfl : p.fst = k := (congrArg Param.fst heq).symm
    exact hp ⟨x, method, List.mk_mem_zipIdx_iff_getElem?.mp hm, hgroup, hmem⟩
  case isFalse => exact hv

theorem randomRestart_apply (hp : ¬ L.cascade.Trained p) (no : ℕ) (s : TrainState P F) :
    (L.randomRestart no s).weights.weight p = s.weights.weight p + L.cascade.added p := by
  rw [randomRestart]
  dsimp only
  rw [TrainCascade.normalize_of_not_trained hp, randomize_of_not_trained hp]

variable (prior no) in
theorem iteration_history (s : TrainState P F) :
    (L.iteration prior no s).1.history = s.history ∨
      (L.iteration prior no s).1.history = s.history ++ [L.nextEstimate s] := by
  rcases iteration_cases L prior no s with ⟨-, heq⟩ | ⟨-, -, heq⟩ | ⟨-, -, hafter⟩
  · rw [heq]
    exact .inl rfl
  · rw [heq, estimated_history]
    exact .inr rfl
  · rw [hafter.sameBest.history, estimated_history]
    exact .inr rfl

/-- No estimate was made with a greater weight. -/
def Grown (p : Param) (s : TrainState P F) : Prop :=
  ∀ e ∈ s.history, e.weight p ≤ s.weights.weight p

theorem Grown.iteration (hp : L.cascade.Fixed p) (h : Grown p s) :
    Grown p (L.iteration prior no s).1 := by
  obtain ⟨n, hn⟩ := iteration_apply prior no hp s
  intro e he
  rw [hn]
  have hbefore : e.weight p ≤ s.weights.weight p := by
    rcases iteration_history prior no s with heq | heq
    · exact h e (heq ▸ he)
    · rw [heq, List.mem_append, List.mem_singleton] at he
      rcases he with he | rfl
      · exact h e he
      · exact le_of_eq (beginIteration_apply hp.2 s)
  exact le_add_of_le_of_nonneg hbefore zero_le

theorem Grown.restartLoop (hp : L.cascade.Fixed p) (h : Grown p s)
    (hrun : L.restartLoop prior fuel n no s = some t) : Grown p t := by
  refine restartLoop_invariant (J := Grown p) (fun no s t hs hinner => ?_) (fun no s hs e he => ?_)
    h hrun
  · exact innerLoop_invariant (I := Grown p) (J := Grown p) (fun _ hs _ => hs.iteration hp)
      (fun _ hs _ => hs.iteration hp) (s := L.enter s) hs hinner
  · rw [randomRestart_apply hp.1]
    exact le_add_of_le_of_nonneg (hs e he) zero_le

/-- The last normalization makes it heavier than in any estimate. -/
theorem Grown.lt_finish (hc : L.cascade.trivial = false) (hp : L.cascade.Fixed p)
    (hadded : L.cascade.added p ≠ 0) (h : Grown p s) {e : Estimated P F} (he : e ∈ s.history) :
    e.weight p < (L.finish s).weight p := by
  have hfinish : (L.finish s).weight p = s.weights.weight p + L.cascade.added p := by
    rw [finish]
    dsimp only
    rw [TrainCascade.useCountsFinal, if_neg (by simp [hc]), TrainCascade.update_of_not_mem hp.2]
    refine (TrainCascade.reestimate_of_not_trained hp.1 _).trans ?_
    rw [TrainCascade.loadBest]
    dsimp only
    rw [onArcs_of_not_mem hp.2]
  rw [hfinish]
  exact lt_add_of_le_of_pos (h e he) (pos_iff_ne_zero.mpr hadded)

section Best

variable [LinearOrder P] {Q : Estimated P F → Weights F → Prop}

/-- The estimate `e` is the first of the eligible ones that has the lowest perplexity. -/
def FirstBest (best : P) (history : List (Estimated P F)) (e : Estimated P F) : Prop :=
  ∃ before after, history = before ++ e :: after ∧ e.eligible = true ∧ e.perplexity = best ∧
    (∀ f ∈ before, f.eligible = true → best < f.perplexity) ∧
    ∀ f ∈ after, f.eligible = true → best ≤ f.perplexity

/-- No eligible estimate is lower than the best, and the weights that are kept belong to the
first that is as low. -/
structure BestOf (Q : Estimated P F → Weights F → Prop) (s : TrainState P F) : Prop where
  lowest : ∀ f ∈ s.history, f.eligible = true → s.bestPerplexity ≤ f.perplexity
  first : s.haveGoodWeights = true →
    ∃ e, FirstBest s.bestPerplexity s.history e ∧ Q e s.weights.bestWeight

omit [IsStrictOrderedRing F] in
theorem BestOf.of_same (h : BestOf Q s) (hsame : SameBest s t)
    (hweight : t.weights.bestWeight = s.weights.bestWeight) : BestOf Q t where
  lowest := by
    rw [hsame.bestPerplexity, hsame.history]
    exact h.lowest
  first := by
    rw [hsame.bestPerplexity, hsame.history, hsame.haveGoodWeights, hweight]
    exact h.first

theorem bestOf_start (w : TrainWeights F) : BestOf Q (L.start w) where
  lowest := fun _ hf => absurd hf List.not_mem_nil
  first := fun h => absurd h Bool.false_ne_true

theorem nextImproves_iff_lt (hless : ∀ a b, L.ops.less a b = decide (a < b)) : L.NextImproves s ↔
    (L.nextEstimate s).perplexity < s.bestPerplexity ∧ (L.nextEstimate s).eligible = true := by
  rw [NextImproves, Improves, hless, decide_eq_true_iff]
  rfl

theorem BestOf.estimated (hless : ∀ a b, L.ops.less a b = decide (a < b)) (h : BestOf Q s)
    (hkept : L.NextImproves s → Q (L.nextEstimate s) (L.estimated s).weights.bestWeight) :
    BestOf Q (L.estimated s) := by
  by_cases hnext : L.NextImproves s
  case pos =>
    obtain ⟨hlt, heligible⟩ := (nextImproves_iff_lt hless).mp hnext
    have hbest : (L.estimated s).bestPerplexity = (L.nextEstimate s).perplexity :=
      (recordEstimate_of_improves hnext).1
    have hbefore : ∀ f ∈ s.history, f.eligible = true →
        (L.nextEstimate s).perplexity < f.perplexity := fun f hf heligible =>
      lt_of_lt_of_le hlt (h.lowest f hf heligible)
    constructor
    · rw [hbest, estimated_history]
      intro f hf heligible
      rcases List.mem_append.mp hf with hf | hf
      · exact (hbefore f hf heligible).le
      · rw [List.mem_singleton.mp hf]
    · intro _
      refine ⟨L.nextEstimate s, ?_, hkept hnext⟩
      rw [hbest, estimated_history]
      exact ⟨s.history, [], rfl, heligible, rfl, hbefore, by simp⟩
  case neg =>
    have hbest : (L.estimated s).bestPerplexity = s.bestPerplexity := estimated_bestPerplexity hnext
    have hgood : (L.estimated s).haveGoodWeights = s.haveGoodWeights :=
      (recordEstimate_of_not_improves hnext).2.1
    have hweight : (L.estimated s).weights.bestWeight = s.weights.bestWeight := by
      rw [Trainer.estimated, (recordEstimate_of_not_improves hnext).2.2, beginIteration_bestWeight]
    have hhigh : (L.nextEstimate s).eligible = true →
        s.bestPerplexity ≤ (L.nextEstimate s).perplexity := by
      intro heligible
      by_contra hlt
      exact hnext ((nextImproves_iff_lt hless).mpr ⟨not_le.mp hlt, heligible⟩)
    constructor
    · rw [hbest, estimated_history]
      intro f hf heligible
      rcases List.mem_append.mp hf with hf | hf
      · exact h.lowest f hf heligible
      · rw [List.mem_singleton.mp hf] at heligible ⊢
        exact hhigh heligible
    · rw [hbest, hgood, hweight, estimated_history]
      intro hafter
      obtain ⟨e, ⟨before, after, hhistory, heligible, hperplexity, hlt, hle⟩, hkept⟩ := h.first hafter
      refine ⟨e, ⟨before, after ++ [L.nextEstimate s], ?_, heligible, hperplexity, hlt, ?_⟩, hkept⟩
      · rw [hhistory, List.append_assoc, List.cons_append]
      · intro f hf heligible
        rcases List.mem_append.mp hf with hf | hf
        · exact hle f hf heligible
        · rw [List.mem_singleton.mp hf] at heligible ⊢
          exact hhigh heligible

omit [LinearOrder P] in
theorem Continues.bestWeight {out : TrainState P F × Bool} (h : Continues L s out) :
    out.1.weights.bestWeight = s.weights.bestWeight := by
  cases h with
  | left hweights => rw [hweights]
  | reset high hweights rate =>
    rw [hweights]
    rfl
  | maximized args hweights rate =>
    rw [hweights]
    exact TrainCascade.maximize_bestWeight args s.weights

theorem BestOf.iteration (hless : ∀ a b, L.ops.less a b = decide (a < b)) (h : BestOf Q s)
    (hkept : L.NextImproves s → Q (L.nextEstimate s) (L.estimated s).weights.bestWeight) :
    BestOf Q (L.iteration prior no s).1 := by
  rcases iteration_cases L prior no s with ⟨-, heq⟩ | ⟨-, -, heq⟩ | ⟨-, -, hafter⟩
  · rw [heq]
    exact ⟨h.lowest, beginIteration_bestWeight s ▸ h.first⟩
  · rw [heq]
    exact h.estimated hless hkept
  · exact (h.estimated hless hkept).of_same hafter.sameBest hafter.continues.bestWeight

theorem BestOf.restartLoop (hless : ∀ a b, L.ops.less a b = decide (a < b)) (h : BestOf Q s)
    (hkept : ∀ r, L.NextImproves r → Q (L.nextEstimate r) (L.estimated r).weights.bestWeight)
    (hrun : L.restartLoop prior fuel n no s = some t) : BestOf Q t := by
  have hiteration (no : ℕ) (r : TrainState P F) (hr : BestOf Q r) :
      BestOf Q (L.iteration prior no r).1 := hr.iteration hless (hkept r)
  refine restartLoop_invariant (fun no s t hs hinner => ?_) (fun no s hs => ⟨hs.lowest, hs.first⟩) h
    hrun
  exact innerLoop_invariant (fun r hr _ => hiteration no r hr) (fun r hr _ => hiteration no r hr)
    (s := L.enter s) ⟨hs.lowest, hs.first⟩ hinner

end Best

section Trivial

variable [LinearOrder P]

/-- The best weights of the composed arcs are those of the estimate. -/
def KeptWeights (L : Trainer P F) (e : Estimated P F) (best : Weights F) : Prop :=
  ∀ p ∈ L.cascade.arcs, best p = e.weight p

omit [LinearOrder P] in
theorem keptWeights_nextEstimate (hc : L.cascade.trivial = true) (hnext : L.NextImproves s) :
    KeptWeights L (L.nextEstimate s) (L.estimated s).weights.bestWeight := by
  intro p hp
  rw [estimated, (recordEstimate_of_improves hnext).2.2, TrainCascade.saveBest]
  dsimp only
  rw [onArcs_of_mem hp, if_pos hc]
  rfl

omit [LinearOrder P] in
theorem finish_trivial (hc : L.cascade.trivial = true) (hp : p ∈ L.cascade.arcs) :
    (L.finish s).weight p = s.weights.bestWeight p := by
  rw [finish]
  dsimp only
  rw [TrainCascade.useCountsFinal, if_pos hc, TrainCascade.loadBest]
  dsimp only
  rw [onArcs_of_mem hp]

end Trivial

section Remade

variable [LinearOrder P] {w₀ : Weights F}

/-- The best weights are the counts that the weights of the estimate can be made from again. -/
def Remade (L : Trainer P F) (w₀ : Weights F) (e : Estimated P F) (best : Weights F) : Prop :=
  ∃ w, e.weight = L.cascade.update w ∧ L.cascade.reestimate L.order w = w ∧
    (∀ p, L.cascade.Fixed p → w p = w₀ p) ∧ ∀ p ∈ L.cascade.arcs, best p = w p

/-- What holds whenever the inner loop is not running. -/
structure Outside (L : Trainer P F) (w₀ : Weights F) (s : TrainState P F) : Prop where
  fixed : ∀ p, L.cascade.Fixed p → s.weights.weight p = w₀ p
  best : BestOf (Remade L w₀) s

/-- What holds before an iteration. -/
structure AtTop (L : Trainer P F) (w₀ : Weights F) (s : TrainState P F) : Prop
    extends Outside L w₀ s where
  remade : s.trainIter ≠ 0 → L.cascade.reestimate L.order s.weights.weight = s.weights.weight
  rate : s.learningRate = 1

variable (hless : ∀ a b, L.ops.less a b = decide (a < b)) (hc : L.cascade.trivial = false)
variable (hadded : ∀ p, ¬ L.cascade.Trained p → L.cascade.added p = 0)

include hc in
theorem AtTop.remade_nextEstimate (h : AtTop L w₀ s) (hnext : L.NextImproves s) :
    Remade L w₀ (L.nextEstimate s) (L.estimated s).weights.bestWeight := by
  have hiter : s.trainIter ≠ 0 := by
    rcases (nextImproves_iff.mp hnext).2 with htrivial | hiter
    · rw [hc] at htrivial
      cases htrivial
    · exact hiter
  have hsaves : ¬ L.cascade.trivial = true ∧ s.trainIter ≠ 0 := ⟨by simp [hc], hiter⟩
  refine ⟨s.weights.weight, ?_, h.remade hiter, h.fixed, fun p hp => ?_⟩
  · rw [nextEstimate, beginIteration]
    dsimp only
    rw [if_pos hsaves]
    rfl
  · rw [estimated, (recordEstimate_of_improves hnext).2.2, TrainCascade.saveBest]
    dsimp only
    rw [onArcs_of_mem hp, if_neg hsaves.1, beginIteration]
    dsimp only
    rw [if_pos hsaves]
    exact onArcs_of_mem hp

omit [LinearOrder P] in
include hadded in
theorem iteration_fixed (hp : L.cascade.Fixed p) (s : TrainState P F) :
    (L.iteration prior no s).1.weights.weight p = s.weights.weight p := by
  obtain ⟨n, hn⟩ := iteration_apply prior no hp s
  rw [hn, hadded p hp.1, nsmul_zero, add_zero]

include hless hc hadded in
theorem AtTop.iteration (h : AtTop L w₀ s) :
    Outside L w₀ (L.iteration prior no s).1 ∧
      ((L.iteration prior no s).2 = false → AtTop L w₀ (L.iteration prior no s).1) := by
  have houtside : Outside L w₀ (L.iteration prior no s).1 :=
    ⟨fun p hp => (iteration_fixed hadded hp s).trans (h.fixed p hp),
      h.best.iteration hless (h.remade_nextEstimate hc)⟩
  refine ⟨houtside, fun hstay => ?_⟩
  have hrate : (L.estimated s).learningRate = 1 := by
    rw [estimated, recordEstimate]
    dsimp only
    split <;> exact h.rate
  have hgrowth : L.growthFactor = 1 := by rw [growthFactor, if_neg (by simp [hc])]
  obtain ⟨-, -, hafter⟩ := iteration_stays hstay
  have hcontinues := hafter.continues
  generalize L.iteration prior no s = out at hcontinues houtside hstay
  cases hcontinues with
  | left hweights => cases hstay
  | reset high hweights rate =>
    rw [hrate] at high
    exact absurd high (lt_irrefl _)
  | maximized args hweights rate =>
    refine ⟨houtside, fun _ => ?_, ?_⟩
    · rw [hweights, TrainCascade.maximize_weight hc]
      exact TrainCascade.reestimate_reestimate hc hadded _
    · rcases rate with rate | rate
      · rw [rate, hrate]
      · rw [rate, hrate, hgrowth, mul_one]

include hless hc hadded in
theorem Outside.restartLoop (h : Outside L w₀ s)
    (hrun : L.restartLoop prior fuel n no s = some t) : Outside L w₀ t := by
  refine restartLoop_invariant (fun no s t hs hinner => ?_) (fun no s hs => ⟨fun p hp => ?_, ?_⟩) h
    hrun
  · have htop : AtTop L w₀ (L.enter s) :=
      ⟨⟨hs.fixed, hs.best.lowest, hs.best.first⟩, fun hzero => absurd rfl hzero, rfl⟩
    exact innerLoop_invariant (fun r hr hstay => (hr.iteration hless hc hadded).2 hstay)
      (fun r hr _ => (hr.iteration hless hc hadded).1) htop hinner
  · rw [randomRestart_apply hp.1, hadded p hp.1, add_zero]
    exact hs.fixed p hp
  · exact ⟨hs.best.lowest, hs.best.first⟩

include hc in
theorem Outside.finish_weight (h : Outside L w₀ s) {e : Estimated P F}
    (he : Remade L w₀ e s.weights.bestWeight) : (L.finish s).weight = e.weight := by
  obtain ⟨w, hweight, hremade, hfixed, hcounts⟩ := he
  have hsame : ∀ p, ¬ L.cascade.Trained p → (L.cascade.loadBest s.weights).weight p = w p := by
    intro p hp
    rw [TrainCascade.loadBest]
    dsimp only
    by_cases hmem : p ∈ L.cascade.arcs
    · rw [onArcs_of_mem hmem, hcounts p hmem]
    · rw [onArcs_of_not_mem hmem, h.fixed p ⟨hp, hmem⟩, hfixed p ⟨hp, hmem⟩]
  rw [hweight, finish]
  dsimp only
  rw [TrainCascade.useCountsFinal, if_neg (by simp [hc])]
  refine congrArg _ ?_
  exact (TrainCascade.reestimate_congr hc hsame).trans hremade

end Remade

theorem train_eq_some {w : TrainWeights F} {r : P × TrainWeights F × List (Estimated P F)}
    (hmultiple : L.Multiple) (hrun : L.train fuel w = some r) :
    ∃ t, L.restartLoop (L.priorCounts (L.initial w).weight) fuel L.opts.ranRestarts 0 (L.start w) =
      some t ∧ (t.bestPerplexity, L.finish t, t.history) = r := by
  rwa [train, if_pos hmultiple, Option.map_eq_some_iff] at hrun

/-- A locked arc that normalizing adds to is heavier in the end than in any estimate. -/
theorem weight_lt_of_added {w : TrainWeights F} {r : P × TrainWeights F × List (Estimated P F)}
    (hmultiple : L.Multiple) (hc : L.cascade.trivial = false) (hrun : L.train fuel w = some r)
    (hp : L.cascade.Fixed p) (hadded : L.cascade.added p ≠ 0) {e : Estimated P F} (he : e ∈ r.2.2) :
    e.weight p < r.2.1.weight p := by
  obtain ⟨t, hloop, rfl⟩ := train_eq_some hmultiple hrun
  have hstart : Grown p (L.start w) := fun e he => by cases he
  exact (hstart.restartLoop hp hloop).lt_finish hc hp hadded he

theorem exists_fixed_of_not_keepsLocked (hc : L.cascade.trivial = false)
    (h : ¬ ∀ m ∈ L.cascade.members, m.1.KeepsLocked m.2) :
    ∃ p, L.cascade.HasArc p ∧ L.cascade.Fixed p ∧ L.cascade.added p ≠ 0 := by
  push Not at h
  obtain ⟨⟨x, method⟩, hmem, hkeeps⟩ := h
  obtain ⟨k, hk⟩ := List.getElem?_of_mem hmem
  rw [WFST.keepsLocked_iff] at hkeeps
  push Not at hkeeps
  obtain ⟨h, hh, hlocked, hne⟩ := hkeeps
  refine ⟨h.param k, .inr ⟨_, hk, WFST.mem_params.mpr ⟨h, hh, rfl⟩⟩,
    ⟨TrainCascade.not_trained_locked hk hh hlocked, fun harcs => ?_⟩, ?_⟩
  · have hfst : k = L.cascade.members.length := by
      have hfst : k = L.cascade.composedAt := TrainCascade.fst_of_mem_params harcs
      rw [hfst, TrainCascade.composedAt, hc]
      rfl
    rw [hfst, List.getElem?_eq_none (Nat.le_refl _)] at hk
    cases hk
  · rwa [TrainCascade.added_locked hk hh]

/-- So none of the estimates had the weights that training leaves. -/
theorem not_best_of_not_keepsLocked [LinearOrder P] {w : TrainWeights F}
    {r : P × TrainWeights F × List (Estimated P F)} (hmultiple : L.Multiple)
    (hc : L.cascade.trivial = false) (hkeeps : ¬ ∀ m ∈ L.cascade.members, m.1.KeepsLocked m.2)
    (hrun : L.train fuel w = some r) :
    ¬ ∃ e, FirstBest r.1 r.2.2 e ∧ ∀ p, L.cascade.HasArc p → r.2.1.weight p = e.weight p := by
  rintro ⟨e, ⟨before, after, hhistory, -⟩, hsame⟩
  obtain ⟨p, harc, hfixed, hadded⟩ := exists_fixed_of_not_keepsLocked hc hkeeps
  have he : e ∈ r.2.2 := by simp [hhistory]
  have hlt := weight_lt_of_added hmultiple hc hrun hfixed hadded he
  exact hlt.ne (hsame p harc).symm

/-- **Training returns the lowest perplexity, and leaves the weights of the first estimate that
found it, exactly when** the cascade is trivial or normalizing keeps the locked arcs. -/
theorem train_best_iff [LinearOrder P] (L : Trainer P F)
    (hless : ∀ a b, L.ops.less a b = decide (a < b)) (hmultiple : L.Multiple) (fuel : ℕ)
    (w : TrainWeights F) (r : P × TrainWeights F × List (Estimated P F))
    (hrun : L.train fuel w = some r) :
    (∃ e, FirstBest r.1 r.2.2 e ∧ ∀ p, L.cascade.HasArc p → r.2.1.weight p = e.weight p) ↔
      L.cascade.trivial = true ∨ ∀ m ∈ L.cascade.members, m.1.KeepsLocked m.2 := by
  constructor
  · intro hbest
    cases hc : L.cascade.trivial with
    | true => exact .inl rfl
    | false =>
      right
      by_contra hkeeps
      exact not_best_of_not_keepsLocked hmultiple hc hkeeps hrun hbest
  · intro hcondition
    obtain ⟨t, hloop, rfl⟩ := train_eq_some hmultiple hrun
    have hgood : t.haveGoodWeights = true := restartLoop_haveGoodWeights (.inl rfl) hloop
    cases hc : L.cascade.trivial with
    | true =>
      have hend := (bestOf_start (Q := KeptWeights L) w).restartLoop hless
        (fun _ => keptWeights_nextEstimate hc) hloop
      obtain ⟨e, hfirst, hkept⟩ := hend.first hgood
      refine ⟨e, hfirst, fun p hp => ?_⟩
      have harc : p ∈ L.cascade.arcs := by
        rcases hp with harc | ⟨m, hm, harc⟩
        · exact harc
        · obtain ⟨method, hmembers⟩ := L.cascade.single hc
          rw [hmembers, List.getElem?_singleton] at hm
          split at hm
          case isTrue hzero =>
            obtain rfl := Option.some.inj hm
            rw [hzero] at harc
            rwa [TrainCascade.arcs, TrainCascade.composedAt, if_pos hc]
          case isFalse => cases hm
      exact (finish_trivial hc harc).trans (hkept p harc)
    | false =>
      have hkeeps : ∀ m ∈ L.cascade.members, m.1.KeepsLocked m.2 :=
        hcondition.resolve_left (by simp [hc])
      have hstart : Outside L (L.initial w).weight (L.start w) :=
        ⟨fun _ _ => rfl, bestOf_start w⟩
      have hend := hstart.restartLoop hless hc
        (fun p hp => TrainCascade.added_eq_zero hkeeps hp) hloop
      obtain ⟨e, hfirst, hremade⟩ := hend.best.first hgood
      exact ⟨e, hfirst, fun p _ => congrFun (hend.finish_weight hc hremade) p⟩

/-- A loop before a locked loop, and two iterations of EM. -/
def lockedCascade (addCount : Weight ℚ) : Trainer (WithTop ℚ) ℚ where
  cascade :=
    { recorder := ⟨false, [[], [⟨0, 0, 0⟩]], [], (false, false)⟩
      members :=
        [(loopExample, ⟨.CONDITIONAL, id, addCount⟩), (lockedLoop, ⟨.CONDITIONAL, id, addCount⟩)]
      composed := { loopExample with states := [⟨[⟨2, 2, 0, 1, 1⟩], 1⟩] }
      single := fun h => by cases h }
  order := .inOrder
  pow := fun w _ => w
  opts := ⟨2, 0, 1, 0, false, 0⟩
  ops := ⟨⊤, fun a b => decide (a < b), fun _ _ => false, false, fun _ _ _ => true⟩
  oracle := ⟨fun n => if n = 0 then 4 else 3, fun _ _ => 1, fun _ _ _ => 1⟩

theorem train_best_lockedCascade : ∃ r, (lockedCascade 0).train 3 ⟨fun _ => 1, 0, 0, 0⟩ = some r ∧
    ∃ e, FirstBest r.1 r.2.2 e ∧
      ∀ p, (lockedCascade 0).cascade.HasArc p → r.2.1.weight p = e.weight p := by
  have hends : ((lockedCascade 0).train 3 ⟨fun _ => 1, 0, 0, 0⟩).isSome = true := by decide
  obtain ⟨r, hrun⟩ := Option.isSome_iff_exists.mp hends
  refine ⟨r, hrun, (train_best_iff (lockedCascade 0) (fun _ _ => rfl) (by decide) 3 _ r hrun).mpr ?_⟩
  right
  intro m hm
  rcases List.mem_pair.mp hm with rfl | rfl
  · exact .inr (.inl rfl)
  · exact .inr (.inl rfl)

/-- Each normalization makes the locked loop heavier by one: it weighs three in the best estimate,
and five in the end. -/
theorem train_lockedCascade : ∃ r, (lockedCascade 1).train 3 ⟨fun _ => 1, 0, 0, 0⟩ = some r ∧
    ¬ ∃ e, FirstBest r.1 r.2.2 e ∧
      ∀ p, (lockedCascade 1).cascade.HasArc p → r.2.1.weight p = e.weight p := by
  have hends : ((lockedCascade 1).train 3 ⟨fun _ => 1, 0, 0, 0⟩).isSome = true := by decide
  obtain ⟨r, hrun⟩ := Option.isSome_iff_exists.mp hends
  refine ⟨r, hrun, not_best_of_not_keepsLocked (by decide) rfl (fun hkeeps => ?_) hrun⟩
  rcases hkeeps (lockedLoop, ⟨.CONDITIONAL, id, 1⟩) (by simp [lockedCascade]) with h | h | h
  · cases h
  · exact one_ne_zero h
  · exact absurd (h ⟨0, 0, ⟨2, 2, 0, 1, FSTArc.lockedGroup⟩⟩ (by decide)) (by decide)

end Trainer

end Carmel
