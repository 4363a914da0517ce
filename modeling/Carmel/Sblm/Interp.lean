/-
# Mixing with the lower orders and back

`interp` replaces the probability of an n-gram by a mixture with that of its shorter n-gram,
which has been replaced already. The rounds of `uninterp` are inverse one by one, and the
two loops go through them in opposite directions.
-/

import Carmel.Sblm.Ngram

namespace Carmel.Sblm

open Carmel.Math

universe u v

section Folds

variable {S : Type u} {ι : Type v} {f g : S → ι → Option S} {P : S → Prop} {s t : S} {l : List ι}

/-- Rounds that are inverse one by one, gone through in opposite directions. -/
theorem foldlM_reverse_inverse
    (hstep : ∀ s t i, P s → f s i = some t → g t i = some s ∧ P t) (hs : P s)
    (h : l.foldlM f s = some t) : l.reverse.foldlM g t = some s ∧ P t := by
  induction l generalizing s with
  | nil =>
    rw [List.foldlM_nil, Option.pure_def, Option.some.injEq] at h
    subst h
    exact ⟨rfl, hs⟩
  | cons i l ih =>
    rw [List.foldlM_cons] at h
    rcases Option.bind_eq_some_iff.mp h with ⟨s', hs', hrest⟩
    rcases hstep s s' i hs hs' with ⟨hback, hP⟩
    rcases ih hP hrest with ⟨hrun, hend⟩
    refine ⟨?_, hend⟩
    rw [List.reverse_cons, List.foldlM_append, hrun]
    simp [hback]

end Folds

variable {W : Type v} [DecidableEq W] {K : Type u} [Field K] [LinearOrder K]

/-- Backoff probabilities below 1, and positive probabilities. -/
structure Ngram.Proper (m : Ngram W (Log10 K)) : Prop where
  bow : ∀ o k b, (k, b) ∈ (m.bow o).entries → 0 ≤ b.exp10 ∧ b.exp10 < 1
  logp : ∀ o k l, (k, l) ∈ (m.logp o).entries → 0 < l.exp10

/-- Weights between 0 and 1, and probabilities that may be zero. -/
structure Ngram.Weighted (m : Ngram W (Log10 K)) : Prop where
  bow : ∀ o k b, (k, b) ∈ (m.bow o).entries → 0 ≤ b.exp10 ∧ b.exp10 ≤ 1
  logp : ∀ o k l, (k, l) ∈ (m.logp o).entries → 0 ≤ l.exp10

/-- Every n-gram has its shorter n-gram, and its context has a backoff weight. -/
def Ngram.Complete (m : Ngram W (Log10 K)) : Prop :=
  ∀ o < m.om1, ∀ k ∈ (m.logp (o + 1)).keys, k.tail ∈ (m.logp o).keys ∧ k.dropLast ∈ (m.bow o).keys

variable {m m' : Ngram W (Log10 K)} {o : ℕ} {k : List W} {l l' : Log10 K} {bo lpbo : Dict (List W) (Log10 K)}

section Entries

theorem log10_eq_some_iff {p : K} : log10 p = some l ↔ 0 < p ∧ l.exp10 = p := by
  rw [log10]
  by_cases hp : p ≤ 0
  · rw [if_pos hp]
    constructor
    · intro h
      cases h
    · exact fun h => absurd h.1 (not_lt_of_ge hp)
  · rw [if_neg hp, Option.some.injEq, Log10.ext_iff]
    exact ⟨fun h => ⟨lt_of_not_ge hp, h.symm⟩, fun h => h.2.symm⟩

theorem log10Prob_of_nonneg {p : K} (hp : 0 ≤ p) : log10Prob p = some ⟨p⟩ := by
  rw [log10Prob]
  by_cases hzero : p = 0
  · rw [if_pos hzero, hzero]
    rfl
  · rw [if_neg hzero, log10_eq_some_iff]
    exact ⟨lt_of_le_of_ne hp (Ne.symm hzero), rfl⟩

/-- The tables that an entry is mixed by. -/
structure Mixes (bo lpbo : Dict (List W) (Log10 K)) (k : List W) (lower weight : Log10 K) : Prop where
  lower : lpbo.get? k.tail = some lower
  weight : bo.get? k.dropLast = some weight

theorem interpEntry_eq {lower weight : Log10 K} (h : Mixes bo lpbo k lower weight) :
    interpEntry bo lpbo k l = log10Interp lower l weight.exp10 := by
  simp [interpEntry, h.lower, h.weight]

theorem uninterpEntry_eq {lower weight : Log10 K} (h : Mixes bo lpbo k lower weight)
    (hne : 1 - weight.exp10 ≠ 0) :
    uninterpEntry bo lpbo k l =
      log10 ((l.exp10 - weight.exp10 * lower.exp10) / (1 - weight.exp10)) := by
  simp only [uninterpEntry, h.lower, h.weight, Option.bind_eq_bind, Option.bind_some]
  exact if_neg hne

theorem exists_mixes_of_interpEntry (h : interpEntry bo lpbo k l = some l') :
    ∃ lower weight, Mixes bo lpbo k lower weight := by
  rcases Option.bind_eq_some_iff.mp h with ⟨lower, hlower, h⟩
  rcases Option.bind_eq_some_iff.mp h with ⟨weight, hweight, -⟩
  exact ⟨lower, weight, hlower, hweight⟩

theorem exists_mixes_of_uninterpEntry (h : uninterpEntry bo lpbo k l = some l') :
    ∃ lower weight, Mixes bo lpbo k lower weight := by
  rcases Option.bind_eq_some_iff.mp h with ⟨lower, hlower, h⟩
  rcases Option.bind_eq_some_iff.mp h with ⟨weight, hweight, -⟩
  exact ⟨lower, weight, hlower, hweight⟩

variable [IsStrictOrderedRing K]

theorem log10Interp_of_nonneg {a b : Log10 K} {wt : K} (ha : 0 ≤ a.exp10) (hb : 0 ≤ b.exp10)
    (h0 : 0 ≤ wt) (h1 : wt ≤ 1) :
    log10Interp a b wt = some ⟨wt * a.exp10 + (1 - wt) * b.exp10⟩ := by
  have hmix : 0 ≤ wt * a.exp10 + (1 - wt) * b.exp10 :=
    add_nonneg (mul_nonneg h0 ha) (mul_nonneg (sub_nonneg.mpr h1) hb)
  rw [log10Interp, if_pos ⟨h0, h1⟩, log10Prob_of_nonneg hmix]

theorem mix_pos {a b : Log10 K} {wt : K} (ha : 0 < a.exp10) (hb : 0 < b.exp10)
    (h0 : 0 ≤ wt) (h1 : wt < 1) : 0 < wt * a.exp10 + (1 - wt) * b.exp10 :=
  add_pos_of_nonneg_of_pos (mul_nonneg h0 ha.le) (mul_pos (sub_pos.mpr h1) hb)

theorem uninterpEntry_interpEntry (hl : 0 < l.exp10)
    (hlower : ∀ k l, (k, l) ∈ lpbo.entries → 0 < l.exp10)
    (hbo : ∀ k b, (k, b) ∈ bo.entries → 0 ≤ b.exp10 ∧ b.exp10 < 1)
    (h : interpEntry bo lpbo k l = some l') :
    uninterpEntry bo lpbo k l' = some l ∧ 0 < l'.exp10 := by
  rcases exists_mixes_of_interpEntry h with ⟨lower, weight, hmix⟩
  rcases hbo _ _ (Dict.mem_entries_iff.mpr hmix.weight) with ⟨h0, h1⟩
  have hpos := hlower _ _ (Dict.mem_entries_iff.mpr hmix.lower)
  rw [interpEntry_eq hmix, log10Interp_of_nonneg hpos.le hl.le h0 h1.le, Option.some.injEq] at h
  have hne : 1 - weight.exp10 ≠ 0 := (sub_pos.mpr h1).ne'
  have hback : (l'.exp10 - weight.exp10 * lower.exp10) / (1 - weight.exp10) = l.exp10 := by
    rw [← h]
    field_simp
    ring
  refine ⟨?_, h ▸ mix_pos hpos hl h0 h1⟩
  rw [uninterpEntry_eq hmix hne, log10_eq_some_iff, hback]
  exact ⟨hl, rfl⟩

theorem interpEntry_uninterpEntry
    (hlower : ∀ k l, (k, l) ∈ lpbo.entries → 0 < l.exp10)
    (hbo : ∀ k b, (k, b) ∈ bo.entries → 0 ≤ b.exp10 ∧ b.exp10 < 1)
    (h : uninterpEntry bo lpbo k l = some l') :
    interpEntry bo lpbo k l' = some l ∧ 0 < l'.exp10 := by
  rcases exists_mixes_of_uninterpEntry h with ⟨lower, weight, hmix⟩
  rcases hbo _ _ (Dict.mem_entries_iff.mpr hmix.weight) with ⟨h0, h1⟩
  have hpos := hlower _ _ (Dict.mem_entries_iff.mpr hmix.lower)
  have hne : 1 - weight.exp10 ≠ 0 := (sub_pos.mpr h1).ne'
  rw [uninterpEntry_eq hmix hne, log10_eq_some_iff] at h
  rcases h with ⟨hl', heq⟩
  rw [← heq] at hl'
  have hback : weight.exp10 * lower.exp10 + (1 - weight.exp10) * l'.exp10 = l.exp10 := by
    rw [heq]
    field_simp
    ring
  refine ⟨?_, hl'⟩
  rw [interpEntry_eq hmix, log10Interp_of_nonneg hpos.le hl'.le h0 h1.le, hback]

end Entries

section Rounds

omit [DecidableEq W] in
theorem Ngram.proper_update {lp : Dict (List W) (Log10 K)} (h : m.Proper)
    (hlp : ∀ k l, (k, l) ∈ lp.entries → 0 < l.exp10) :
    Ngram.Proper { m with logp := Function.update m.logp (o + 1) lp } where
  bow := h.bow
  logp := by
    intro o' k l hmem
    change (k, l) ∈ (Function.update m.logp (o + 1) lp o').entries at hmem
    by_cases ho : o' = o + 1
    · subst ho
      rw [Function.update_self] at hmem
      exact hlp k l hmem
    · rw [Function.update_of_ne ho] at hmem
      exact h.logp o' k l hmem

variable {f g : Dict (List W) (Log10 K) → Dict (List W) (Log10 K) → List W → Log10 K →
  Option (Log10 K)}

omit [DecidableEq W] in
/-- A round over one order, and the round that undoes its entries. -/
theorem Ngram.round_inverse (h : m.Proper)
    (hentry : ∀ k l l', 0 < l.exp10 → f (m.bow o) (m.logp o) k l = some l' →
      g (m.bow o) (m.logp o) k l' = some l ∧ 0 < l'.exp10)
    (hrun : (((m.logp (o + 1)).mapValues? (f (m.bow o) (m.logp o))).map fun lp =>
      { m with logp := Function.update m.logp (o + 1) lp }) = some m') :
    (((m'.logp (o + 1)).mapValues? (g (m'.bow o) (m'.logp o))).map fun lp =>
      { m' with logp := Function.update m'.logp (o + 1) lp }) = some m ∧ m'.Proper := by
  rcases Option.map_eq_some_iff.mp hrun with ⟨lp, hlp, rfl⟩
  have hback : lp.mapValues? (g (m.bow o) (m.logp o)) = some (m.logp (o + 1)) :=
    Dict.mapValues?_inverse hlp fun k l l' hmem hl' =>
      (hentry k l l' (h.logp _ _ _ hmem) hl').1
  constructor
  · simp [hback]
  · apply proper_update h
    intro k l' hmem
    rcases Dict.exists_entry_of_mapValues? hlp hmem with ⟨l, hl, heq⟩
    exact (hentry k l l' (h.logp _ _ _ hl) heq).2

variable [IsStrictOrderedRing K]

theorem Ngram.uninterpOrder_interpOrder (h : m.Proper) (hrun : m.interpOrder o = some m') :
    m'.uninterpOrder o = some m ∧ m'.Proper :=
  round_inverse h (fun _ _ _ hl hl' => uninterpEntry_interpEntry hl (h.logp o) (h.bow o) hl') hrun

theorem Ngram.interpOrder_uninterpOrder (h : m.Proper) (hrun : m.uninterpOrder o = some m') :
    m'.interpOrder o = some m ∧ m'.Proper :=
  round_inverse h (fun _ _ _ _ hl' => interpEntry_uninterpEntry (h.logp o) (h.bow o) hl') hrun

/-- What the rounds of `interp` below `n` make of a model. -/
structure Interpolated (n : ℕ) (m m' : Ngram W (Log10 K)) : Prop where
  order : m'.order = m.order
  bow : m'.bow = m.bow
  logpUnk : m'.logpUnk = m.logpUnk
  keys : ∀ o, (m'.logp o).keys = (m.logp o).keys
  logp : ∀ o k l, (k, l) ∈ (m'.logp o).entries → 0 ≤ l.exp10
  lowest : m'.logp 0 = m.logp 0
  above : ∀ o, n < o → m'.logp o = m.logp o
  mixed : ∀ o < n, ∀ k l, (m.logp (o + 1)).get? k = some l → ∃ lower weight,
    Mixes (m.bow o) (m'.logp o) k lower weight ∧ (m'.logp (o + 1)).get? k =
      some ⟨weight.exp10 * lower.exp10 + (1 - weight.exp10) * l.exp10⟩

omit [IsStrictOrderedRing K] in
theorem Interpolated.refl (h : m.Weighted) : Interpolated 0 m m :=
  ⟨rfl, rfl, rfl, fun _ => rfl, h.logp, rfl, fun _ _ => rfl, fun _ ho => absurd ho (Nat.not_lt_zero _)⟩

/-- A round of `interp` does not fail where the keys are there. -/
theorem Interpolated.exists_succ {n : ℕ} (hm : m.Weighted) (hkeys : m.Complete) (hn : n < m.om1)
    (h : Interpolated n m m') : ∃ m'', m'.interpOrder n = some m'' ∧ Interpolated (n + 1) m m'' := by
  -- the order that is mixed has its old values, the one below is mixed already
  have habove := h.above (n + 1) (Nat.lt_succ_self n)
  have hentry : ∀ k l, (m.logp (n + 1)).get? k = some l → ∃ lower weight,
      Mixes (m.bow n) (m'.logp n) k lower weight ∧
        0 ≤ weight.exp10 * lower.exp10 + (1 - weight.exp10) * l.exp10 ∧
        interpEntry (m.bow n) (m'.logp n) k l =
          some ⟨weight.exp10 * lower.exp10 + (1 - weight.exp10) * l.exp10⟩ := by
    intro k l hl
    rcases hkeys n hn k (Dict.mem_keys_iff.mpr ⟨l, hl⟩) with ⟨htail, hctx⟩
    rw [← h.keys] at htail
    rcases Dict.mem_keys_iff.mp htail with ⟨lower, hlower⟩
    rcases Dict.mem_keys_iff.mp hctx with ⟨weight, hweight⟩
    rcases hm.bow n _ _ (Dict.mem_entries_iff.mpr hweight) with ⟨h0, h1⟩
    have hpos := h.logp n _ _ (Dict.mem_entries_iff.mpr hlower)
    have hl0 := hm.logp _ _ _ (Dict.mem_entries_iff.mpr hl)
    refine ⟨lower, weight, ⟨hlower, hweight⟩, ?_, ?_⟩
    · exact add_nonneg (mul_nonneg h0 hpos) (mul_nonneg (sub_nonneg.mpr h1) hl0)
    · rw [interpEntry_eq ⟨hlower, hweight⟩, log10Interp_of_nonneg hpos hl0 h0 h1]
  have hall : ∀ e ∈ (m'.logp (n + 1)).entries,
      ∃ l', interpEntry (m'.bow n) (m'.logp n) e.1 e.2 = some l' := by
    rw [habove, h.bow]
    intro e he
    rcases hentry e.1 e.2 (Dict.mem_entries_iff.mp he) with ⟨_, _, -, -, heq⟩
    exact ⟨_, heq⟩
  rcases Dict.exists_mapValues? hall with ⟨lp, hlp⟩
  refine ⟨{ m' with logp := Function.update m'.logp (n + 1) lp },
    by rw [Ngram.interpOrder, hlp, Option.map_some], ?_⟩
  have hsame : ∀ o, o ≠ n + 1 → Function.update m'.logp (n + 1) lp o = m'.logp o :=
    fun o ho => Function.update_of_ne ho _ _
  have hnew : Function.update m'.logp (n + 1) lp (n + 1) = lp := Function.update_self ..
  rw [habove, h.bow] at hlp
  constructor
  · exact h.order
  · exact h.bow
  · exact h.logpUnk
  · intro o
    change (Function.update m'.logp (n + 1) lp o).keys = _
    by_cases ho : o = n + 1
    · rw [ho, hnew, Dict.keys_of_mapValues? hlp]
    · rw [hsame o ho, h.keys]
  · intro o k l hl
    change (k, l) ∈ (Function.update m'.logp (n + 1) lp o).entries at hl
    by_cases ho : o = n + 1
    · rw [ho, hnew] at hl
      rcases Dict.exists_entry_of_mapValues? hlp hl with ⟨l', hl', heq⟩
      rcases hentry k l' (Dict.mem_entries_iff.mp hl') with ⟨_, _, -, hmix, heq'⟩
      rw [heq, Option.some.injEq] at heq'
      rw [heq']
      exact hmix
    · rw [hsame o ho] at hl
      exact h.logp o k l hl
  · exact (hsame 0 (by omega)).trans h.lowest
  · intro o ho
    exact (hsame o (by omega)).trans (h.above o (by omega))
  · intro o ho k l hl
    change ∃ lower weight, Mixes (m.bow o) (Function.update m'.logp (n + 1) lp o) k lower weight ∧
      (Function.update m'.logp (n + 1) lp (o + 1)).get? k = _
    rw [hsame o (by omega)]
    by_cases hon : o = n
    · subst hon
      rcases hentry k l hl with ⟨lower, weight, hmix, -, heq⟩
      refine ⟨lower, weight, hmix, ?_⟩
      rw [hnew]
      exact Dict.get?_of_mapValues? hlp hl heq
    · rw [hsame (o + 1) (by omega)]
      exact h.mixed o (by omega) k l hl

end Rounds

section Loops

variable [IsStrictOrderedRing K]

theorem Ngram.uninterp_of_interp (h : m.Proper) (hrun : m.interp = some m') :
    m'.uninterp = some m := by
  have hback := foldlM_reverse_inverse (g := uninterpOrder)
    (P := fun s : Ngram W (Log10 K) => s.Proper ∧ s.om1 = m.om1)
    (by
      intro s t o hs hst
      rcases uninterpOrder_interpOrder hs.1 hst with ⟨hback, ht⟩
      rcases Option.map_eq_some_iff.mp hst with ⟨lp, -, rfl⟩
      exact ⟨hback, ht, hs.2⟩)
    ⟨h, rfl⟩ hrun
  rw [uninterp, hback.2.2]
  exact hback.1

theorem Ngram.interp_of_uninterp (h : m.Proper) (hrun : m.uninterp = some m') :
    m'.interp = some m := by
  have hback := foldlM_reverse_inverse (g := interpOrder)
    (P := fun s : Ngram W (Log10 K) => s.Proper ∧ s.om1 = m.om1)
    (by
      intro s t o hs hst
      rcases interpOrder_uninterpOrder hs.1 hst with ⟨hback, ht⟩
      rcases Option.map_eq_some_iff.mp hst with ⟨lp, -, rfl⟩
      exact ⟨hback, ht, hs.2⟩)
    ⟨h, rfl⟩ hrun
  rw [List.reverse_reverse] at hback
  rw [interp, hback.2.2]
  exact hback.1

theorem Ngram.exists_interpolated (h : m.Weighted) (hkeys : m.Complete) :
    ∃ m', m.interp = some m' ∧ Interpolated m.om1 m m' := by
  have hrounds : ∀ n ≤ m.om1, ∃ m', (List.range n).foldlM interpOrder m = some m' ∧
      Interpolated n m m' := by
    intro n
    induction n with
    | zero => exact fun _ => ⟨m, rfl, .refl h⟩
    | succ n ih =>
      intro hn
      rcases ih (by omega) with ⟨m', hrun, hm'⟩
      rcases hm'.exists_succ h hkeys (by omega) with ⟨m'', hround, hm''⟩
      refine ⟨m'', ?_, hm''⟩
      rw [List.range_succ, List.foldlM_append, hrun]
      simp [hround]
  exact hrounds m.om1 (Nat.le_refl _)

omit [IsStrictOrderedRing K] [DecidableEq W] in
theorem Ngram.Proper.weighted (h : m.Proper) : m.Weighted where
  bow o k b hb := ⟨(h.bow o k b hb).1, (h.bow o k b hb).2.le⟩
  logp o k l hl := (h.logp o k l hl).le

theorem Ngram.exists_interp (h : m.Proper) (hkeys : m.Complete) : ∃ m', m.interp = some m' := by
  rcases exists_interpolated h.weighted hkeys with ⟨m', hrun, -⟩
  exact ⟨m', hrun⟩

/-- `interp` runs through on a complete model. `uninterp` restores every model that `interp`
changed, and `interp` every model that `uninterp` changed. -/
theorem Ngram.interp_uninterp (m : Ngram W (Log10 K)) (h : m.Proper) :
    (m.Complete → ∃ m', m.interp = some m') ∧ (∀ m', m.interp = some m' → m'.uninterp = some m) ∧
      ∀ m', m.uninterp = some m' → m'.interp = some m :=
  ⟨exists_interp h, fun _ => uninterp_of_interp h, fun _ => interp_of_uninterp h⟩

/-- Two words, of which one was seen after the other. -/
def Ngram.oneBigram : Ngram ℕ (Log10 ℚ) where
  order := 2
  ngrams _ := .empty
  logp
    | 0 => ⟨[([1], ⟨1 / 3⟩), ([2], ⟨2 / 3⟩)], by decide⟩
    | 1 => ⟨[([1, 2], ⟨1 / 2⟩)], by decide⟩
    | _ => .empty
  bow
    | 0 => ⟨[([1], ⟨1 / 4⟩)], by decide⟩
    | _ => .empty
  logpUnk := .zeroProb

theorem Ngram.proper_oneBigram : oneBigram.Proper where
  bow
    | 0, k, b, h => by
      rcases Prod.mk.inj (List.mem_singleton.mp h) with ⟨-, rfl⟩
      norm_num
    | _ + 1, _, _, h => by cases h
  logp
    | 0, k, l, h => by
      rcases List.mem_cons.mp h with h | h
      · rcases Prod.mk.inj h with ⟨-, rfl⟩
        norm_num
      · rcases Prod.mk.inj (List.mem_singleton.mp h) with ⟨-, rfl⟩
        norm_num
    | 1, k, l, h => by
      rcases Prod.mk.inj (List.mem_singleton.mp h) with ⟨-, rfl⟩
      norm_num
    | _ + 2, _, _, h => by cases h

theorem Ngram.complete_oneBigram : oneBigram.Complete := by
  intro o ho
  have hzero : o = 0 := Nat.lt_one_iff.mp ho
  subst hzero
  decide

theorem Ngram.interp_uninterp_oneBigram :
    (∃ m', oneBigram.interp = some m') ∧
      (∀ m', oneBigram.interp = some m' → m'.uninterp = some oneBigram) ∧
      ∀ m', oneBigram.uninterp = some m' → m'.interp = some oneBigram :=
  have h := interp_uninterp oneBigram proper_oneBigram
  ⟨h.1 complete_oneBigram, h.2⟩

end Loops

end Carmel.Sblm
