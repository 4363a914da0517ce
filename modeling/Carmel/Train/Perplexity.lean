/-
# Perplexities

The perplexity of a corpus is its probability to the power of `-1/n`, where `n` is the
number of examples or their total weight. A weight is kept by its logarithm, which may be
infinite; `root` hands the weight zero back as it is, which then has the lowest perplexity
there can be.
-/

import Carmel.Train.BestWeights

namespace Carmel

universe u v

/-- A weight by its logarithm; `⊥` is that of zero, and `⊤` that of infinity. -/
abbrev ExtWeight (K : Type v) : Type v := WithBot (WithTop K)

namespace ExtWeight

variable {K : Type v} [Field K] [LinearOrder K]

/-- The weight that has the logarithm `l`. -/
def ofLog (l : K) : ExtWeight K := ((l : WithTop K) : WithBot (WithTop K))

/-- `weight / nth` on the logarithms, where `nth` is not zero. -/
def divLog (w : ExtWeight K) (nth : K) : ExtWeight K :=
  WithBot.recBotCoe (if 0 < nth then ⊥ else ⊤)
    (WithTop.recTopCoe (if 0 < nth then ⊤ else ⊥) fun l => ofLog (l / nth)) w

/-- `root`. -/
def root (w : ExtWeight K) (nth : K) : ExtWeight K := if w = ⊥ then w else w.divLog nth

/-- `ppxper`. -/
def ppxper (w : ExtWeight K) (n : K) : ExtWeight K := w.root (-n)

section

omit [Field K] [LinearOrder K]

theorem bot_or_ofLog_or_top (w : ExtWeight K) : w = ⊥ ∨ (∃ l, w = ofLog l) ∨ w = ⊤ := by
  induction w using WithBot.recBotCoe with
  | bot => exact .inl rfl
  | coe w =>
    induction w using WithTop.recTopCoe with
    | top => exact .inr (.inr rfl)
    | coe l => exact .inr (.inl ⟨l, rfl⟩)

theorem ofLog_ne_bot (l : K) : ofLog l ≠ ⊥ := WithBot.coe_ne_bot

theorem ofLog_ne_top (l : K) : ofLog l ≠ ⊤ := by
  intro h
  exact WithTop.coe_ne_top (WithBot.coe_injective h)

end

omit [Field K] in
theorem ofLog_le_ofLog {k l : K} : ofLog k ≤ ofLog l ↔ k ≤ l := by
  rw [ofLog, ofLog, WithBot.coe_le_coe, WithTop.coe_le_coe]

section Values

variable [IsStrictOrderedRing K] {n : K}

omit [IsStrictOrderedRing K] in
@[simp] theorem ppxper_bot : (⊥ : ExtWeight K).ppxper n = ⊥ := by
  rw [ppxper, root, if_pos rfl]

theorem ppxper_top (hn : 0 < n) : (⊤ : ExtWeight K).ppxper n = ⊥ := by
  have hneg : ¬ 0 < -n := by
    rw [Left.neg_pos_iff]
    exact hn.le.not_gt
  rw [ppxper, root, if_neg top_ne_bot]
  exact if_neg hneg

omit [IsStrictOrderedRing K] in
theorem ppxper_ofLog (l : K) : (ofLog l).ppxper n = ofLog (l / -n) := by
  rw [ppxper, root, if_neg (ofLog_ne_bot l)]
  rfl

theorem ppxper_eq_bot_iff (hn : 0 < n) (p : ExtWeight K) : p.ppxper n = ⊥ ↔ p = ⊥ ∨ p = ⊤ := by
  rcases bot_or_ofLog_or_top p with rfl | ⟨l, rfl⟩ | rfl
  · exact iff_of_true ppxper_bot (.inl rfl)
  · rw [ppxper_ofLog]
    exact iff_of_false (ofLog_ne_bot _) fun h => h.elim (ofLog_ne_bot l) (ofLog_ne_top l)
  · exact iff_of_true (ppxper_top hn) (.inr rfl)

/-- The perplexity falls where the probability rises, except from zero. -/
theorem ppxper_le_ppxper_iff (hn : 0 < n) {p q : ExtWeight K} (hpq : p ≤ q) :
    q.ppxper n ≤ p.ppxper n ↔ p ≠ ⊥ ∨ q = ⊥ ∨ q = ⊤ := by
  rcases bot_or_ofLog_or_top p with rfl | ⟨k, rfl⟩ | rfl
  · rw [ppxper_bot, le_bot_iff, ppxper_eq_bot_iff hn]
    exact ⟨.inr, fun h => h.resolve_left fun hne => hne rfl⟩
  · refine iff_of_true ?_ (.inl (ofLog_ne_bot k))
    rcases bot_or_ofLog_or_top q with rfl | ⟨l, rfl⟩ | rfl
    · exact absurd (le_bot_iff.mp hpq) (ofLog_ne_bot k)
    · rw [ppxper_ofLog, ppxper_ofLog, ofLog_le_ofLog]
      exact (div_le_div_right_of_neg (neg_lt_zero.mpr hn)).mpr (ofLog_le_ofLog.mp hpq)
    · rw [ppxper_top hn]
      exact bot_le
  · refine iff_of_true ?_ (.inl WithBot.coe_ne_bot)
    rw [top_le_iff.mp hpq]

end Values

end ExtWeight

namespace Trainer

variable {K : Type v} [Field K] [LinearOrder K] [IsStrictOrderedRing K]
variable {F : Type u} [Field F] [LinearOrder F] [IsStrictOrderedRing F]

/-- Every estimate has the perplexity that was asked for. -/
def Recorded {P : Type v} (L : Trainer P F) (s : TrainState P F) : Prop :=
  ∀ i e, s.history[i]? = some e → e.perplexity = L.oracle.perplexity i

theorem Recorded.iteration {P : Type v} {L : Trainer P F} {s : TrainState P F} (h : L.Recorded s)
    (prior : Weights F) (no : ℕ) : L.Recorded (L.iteration prior no s).1 := by
  intro i e he
  rcases iteration_history prior no s with hsame | hgrown
  · exact h i e (hsame ▸ he)
  · rw [hgrown, List.getElem?_append] at he
    split at he
    · exact h i e he
    · rename_i hlt
      have hi : i = s.history.length := by
        have hbound := (List.getElem?_eq_some_iff.mp he).1
        rw [List.length_singleton] at hbound
        omega
      rw [hi, Nat.sub_self] at he
      rw [← Option.some.inj he, hi]
      rfl

theorem Recorded.restartLoop {P : Type v} {L : Trainer P F} {s t : TrainState P F}
    {prior : Weights F} {fuel n no : ℕ} (h : L.Recorded s)
    (hrun : L.restartLoop prior fuel n no s = some t) : L.Recorded t := by
  have hiteration (no : ℕ) (r : TrainState P F) (hr : L.Recorded r) :
      L.Recorded (L.iteration prior no r).1 := hr.iteration prior no
  refine restartLoop_invariant (fun no s t hs hinner => ?_) (fun _ _ hs => hs) h hrun
  exact innerLoop_invariant (fun r hr _ => hiteration no r hr) (fun r hr _ => hiteration no r hr)
    (s := L.enter s) hs hinner

/-- The estimate at `i` is the one that training keeps. -/
def Selected {P : Type v} [LinearOrder P] (best : P) (history : List (Estimated P F)) (i : ℕ) : Prop :=
  ∃ e, history[i]? = some e ∧ e.eligible = true ∧ e.perplexity = best ∧
    ∀ j f, history[j]? = some f → f.eligible = true →
      best ≤ f.perplexity ∧ (j < i → best < f.perplexity)

omit [IsStrictOrderedRing F] in
theorem FirstBest.selected {P : Type v} [LinearOrder P] {best : P} {history : List (Estimated P F)}
    {e : Estimated P F} (h : FirstBest best history e) : ∃ i, Selected best history i := by
  obtain ⟨before, after, rfl, heligible, hbest, hbefore, hafter⟩ := h
  refine ⟨before.length, e, by simp, heligible, hbest, ?_⟩
  intro j f hj hf
  rcases Nat.lt_or_ge j before.length with hlt | hge
  · rw [List.getElem?_append_left hlt] at hj
    have hless := hbefore f (List.mem_of_getElem? hj) hf
    exact ⟨hless.le, fun _ => hless⟩
  · refine ⟨?_, fun hlt => absurd hlt hge.not_gt⟩
    rw [List.getElem?_append_right hge] at hj
    rcases List.mem_cons.mp (List.mem_of_getElem? hj) with rfl | hmem
    · exact hbest.ge
    · exact hafter f hmem hf

theorem exists_selected {P : Type v} [LinearOrder P] {L : Trainer P F}
    (hless : ∀ a b, L.ops.less a b = decide (a < b)) (hmultiple : L.Multiple) {fuel : ℕ}
    {w : TrainWeights F} {r : P × TrainWeights F × List (Estimated P F)}
    (hrun : L.train fuel w = some r) :
    (∃ i, Selected r.1 r.2.2 i) ∧ ∀ i e, r.2.2[i]? = some e → e.perplexity = L.oracle.perplexity i := by
  obtain ⟨t, hloop, rfl⟩ := train_eq_some hmultiple hrun
  have hgood : t.haveGoodWeights = true := restartLoop_haveGoodWeights (.inl rfl) hloop
  have hbest : BestOf (fun _ _ => True) t :=
    (bestOf_start w).restartLoop hless (fun _ _ => trivial) hloop
  obtain ⟨e, hfirst, -⟩ := hbest.first hgood
  have hrecorded : L.Recorded t := by
    apply Recorded.restartLoop ?_ hloop
    intro i e he
    cases he
  exact ⟨hfirst.selected, hrecorded⟩

/-- An eligible estimate with infinite probability was made before every eligible one with
probability zero. -/
def InfinityFirst {P : Type v} (prob : ℕ → ExtWeight K) (history : List (Estimated P F)) : Prop :=
  ∀ j f, history[j]? = some f → f.eligible = true → prob j = ⊥ →
    ∃ i < j, ∃ e, history[i]? = some e ∧ e.eligible = true ∧ prob i = ⊤

/-- **The perplexity** of the lesser of two probabilities is at least that of the other exactly
when the lesser is not zero, or the other is zero or infinite; **and training** keeps no model that
gives the corpus probability zero while another one gives it more exactly when none gives it
more, or no estimate that may be kept finds the probability zero before one finds infinity. -/
theorem ppxper_order_iff (L : Trainer (ExtWeight K) F) {n : K} (hn : 0 < n) (prob : ℕ → ExtWeight K)
    (hprob : ∀ k, L.oracle.perplexity k = (prob k).ppxper n)
    (hless : ∀ a b, L.ops.less a b = decide (a < b)) (hmultiple : L.Multiple) {fuel : ℕ}
    {w : TrainWeights F} {r : ExtWeight K × TrainWeights F × List (Estimated (ExtWeight K) F)}
    (hrun : L.train fuel w = some r) :
    (∀ p q : ExtWeight K, p ≤ q → (q.ppxper n ≤ p.ppxper n ↔ p ≠ ⊥ ∨ q = ⊥ ∨ q = ⊤)) ∧
      ∃ i, Selected r.1 r.2.2 i ∧ (¬ (prob i = ⊥ ∧ ∃ j < r.2.2.length, prob j ≠ ⊥) ↔
        (∀ j < r.2.2.length, prob j = ⊥) ∨ InfinityFirst prob r.2.2) := by
  refine ⟨fun p q hpq => ExtWeight.ppxper_le_ppxper_iff hn hpq, ?_⟩
  obtain ⟨⟨i, e, he, heligible, hbest, hleast⟩, hperplexity⟩ := exists_selected hless hmultiple hrun
  refine ⟨i, ⟨e, he, heligible, hbest, hleast⟩, ?_⟩
  have hzero {j : ℕ} {f : Estimated (ExtWeight K) F} (hf : r.2.2[j]? = some f) :
      f.perplexity = ⊥ ↔ prob j = ⊥ ∨ prob j = ⊤ := by
    rw [hperplexity j f hf, hprob, ExtWeight.ppxper_eq_bot_iff hn]
  constructor
  · intro hnot
    by_cases hall : ∀ j < r.2.2.length, prob j = ⊥
    · exact .inl hall
    · right
      intro j f hf hfeligible hbot
      have hi : prob i ≠ ⊥ := by
        intro hi
        apply hall
        intro k hk
        by_contra hne
        exact hnot ⟨hi, k, hk, hne⟩
      -- the estimate kept has perplexity zero too
      have hle := hleast j f hf hfeligible
      rw [(hzero hf).mpr (.inl hbot), le_bot_iff] at hle
      have htop : prob i = ⊤ := ((hzero he).mp (hbest.trans hle.1)).resolve_left hi
      refine ⟨i, ?_, e, he, heligible, htop⟩
      rcases Nat.lt_trichotomy i j with hlt | rfl | hgt
      · exact hlt
      · exact absurd hbot hi
      · exact absurd (hle.2 hgt) not_lt_bot
  · rintro (hall | hfirst) ⟨hi, j, hj, hne⟩
    · exact hne (hall j hj)
    · obtain ⟨k, hk, f, hf, hfeligible, htop⟩ := hfirst i e he heligible hi
      have hlt := (hleast k f hf hfeligible).2 hk
      rw [(hzero hf).mpr (.inr htop)] at hlt
      exact not_lt_bot hlt

open ExtWeight

/-- A run with one restart, whose estimates find the probabilities given. -/
def oneRestart (prob : ℕ → ExtWeight ℚ) : Trainer (ExtWeight ℚ) ℚ where
  cascade := infinitePerplexities.cascade
  order := .inOrder
  pow := fun w _ => w
  opts := ⟨2, 1, 1, 0, false, 0⟩
  ops := ⟨⊤, fun a b => decide (a < b), fun _ _ => false, false, fun _ _ _ => true⟩
  oracle := ⟨fun k => (prob k).ppxper 1, fun _ _ => 1, fun _ _ _ => 1⟩

theorem ppxper_order_iff_oneRestart :
    ∃ r, (oneRestart fun _ => ofLog (-1)).train 3 ⟨fun _ => 1, 0, 0, 0⟩ = some r ∧
      (∀ p q : ExtWeight ℚ, p ≤ q → (q.ppxper 1 ≤ p.ppxper 1 ↔ p ≠ ⊥ ∨ q = ⊥ ∨ q = ⊤)) ∧
        ∃ i, Selected r.1 r.2.2 i ∧
          (¬ (ofLog (-1 : ℚ) = ⊥ ∧ ∃ j < r.2.2.length, ofLog (-1 : ℚ) ≠ ⊥) ↔
            (∀ j < r.2.2.length, ofLog (-1 : ℚ) = ⊥) ∨
              InfinityFirst (fun _ => ofLog (-1 : ℚ)) r.2.2) := by
  have hends : ((oneRestart fun _ => ofLog (-1)).train 3 ⟨fun _ => 1, 0, 0, 0⟩).isSome = true := by
    decide +kernel
  obtain ⟨r, hrun⟩ := Option.isSome_iff_exists.mp hends
  exact ⟨r, hrun, ppxper_order_iff _ zero_lt_one (fun _ => ofLog (-1)) (fun _ => rfl)
    (fun _ _ => rfl) (by decide) hrun⟩

/-- The start finds a positive probability and the restart finds zero: the restart is kept. -/
theorem ppxper_zero_oneRestart :
    (∃ p q : ExtWeight ℚ, p ≤ q ∧ ¬ q.ppxper 1 ≤ p.ppxper 1) ∧
      ∃ r, (oneRestart fun k => if k = 0 then ofLog (-1) else ⊥).train 3 ⟨fun _ => 1, 0, 0, 0⟩ = some r ∧
        ∃ i, Selected r.1 r.2.2 i ∧ (if i = 0 then ofLog (-1 : ℚ) else ⊥) = ⊥ ∧
          ∃ j < r.2.2.length, (if j = 0 then ofLog (-1 : ℚ) else ⊥) ≠ ⊥ := by
  refine ⟨⟨⊥, ofLog 0, bot_le, by decide⟩, ?_⟩
  have hends : ((oneRestart fun k => if k = 0 then ofLog (-1) else ⊥).train 3
      ⟨fun _ => 1, 0, 0, 0⟩).map (fun r => (r.1, r.2.2.length)) = some (⊥, 2) := by decide +kernel
  obtain ⟨r, hrun, hr⟩ := Option.map_eq_some_iff.mp hends
  obtain ⟨hbest, hlen⟩ := Prod.mk.inj hr
  obtain ⟨⟨i, hi⟩, hperplexity⟩ := exists_selected (fun _ _ => rfl) (by decide) hrun
  refine ⟨r, hrun, i, hi, ?_, 0, by omega, ofLog_ne_bot (-1)⟩
  obtain ⟨e, he, -, heq, -⟩ := hi
  have hzero : (if i = 0 then ofLog (-1 : ℚ) else ⊥).ppxper 1 = ⊥ :=
    ((hperplexity i e he).symm.trans heq).trans hbest
  rcases (ppxper_eq_bot_iff zero_lt_one _).mp hzero with h | h
  · exact h
  · split at h
    · exact absurd h (ofLog_ne_top (-1))
    · exact absurd h bot_ne_top

end Trainer

end Carmel
