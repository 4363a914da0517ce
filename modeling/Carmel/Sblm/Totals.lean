/-
# Total probabilities

The score of a word after a context is read off the tables from the longest context
down. The total over the vocabulary splits into the words seen after the context, which
share its tokens, and the others, which the lower orders score.
-/

import Carmel.Sblm.WittenBell

namespace Carmel.Sblm

open Carmel.Math

universe u v

variable {W : Type v} [DecidableEq W] {K : Type u} [Field K]

section Scores

/-- The probability of `w` after a context of at most `om1` words. -/
def Ngram.prob (m : Ngram W (Log10 K)) (c : List W) (w : W) : K := (m.score c w).exp10

variable {m : Ngram W (Log10 K)} {c : List W} {x w : W}

theorem Ngram.prob_of_get? {l : Log10 K} (h : (m.logp c.length).get? (c ++ [w]) = some l) :
    m.prob c w = l.exp10 := by
  rw [prob, score_of_get? h]

theorem Ngram.prob_cons_of_none (h : (m.logp (c.length + 1)).get? (x :: c ++ [w]) = none) :
    m.prob (x :: c) w = (((m.bow c.length).get? (x :: c)).getD 0).exp10 * m.prob c w := by
  rw [prob, score_cons_of_none h]
  rfl

theorem Ngram.exp10_scoreWordCombined (m : Ngram W (Log10 K)) (before : List W) (w : W) :
    (m.scoreWordCombined before w).exp10 = m.prob (m.context before) w := by
  rw [scoreWordCombined_eq]
  rfl

end Scores

section Seen

variable {d : Dict (List W) ℕ} {c : List W} {V : Finset W}

/-- The words of the vocabulary that are seen after a context. -/
def seenAfter (V : Finset W) (d : Dict (List W) ℕ) (c : List W) : Finset W :=
  V.filter fun w => c ++ [w] ∈ d.keys

theorem mem_seenAfter {w : W} : w ∈ seenAfter V d c ↔ w ∈ V ∧ c ++ [w] ∈ d.keys :=
  Finset.mem_filter

/-- The words seen after a context have its tokens. -/
theorem sum_seenAfter (hV : ∀ k ∈ d.keys, k.dropLast = c → ∃ w ∈ V, k = c ++ [w]) :
    ∑ w ∈ seenAfter V d c, (d.get? (c ++ [w])).getD 0 = tokens d c := by
  have hentries : (ofContext d c).Nodup := (List.Nodup.of_map _ d.nodup).filter _
  rw [tokens, ← List.sum_toFinset _ hentries]
  apply Finset.sum_bij fun w _ => (c ++ [w], (d.get? (c ++ [w])).getD 0)
  · intro w hw
    rcases Dict.mem_keys_iff.mp (mem_seenAfter.mp hw).2 with ⟨i, hi⟩
    rw [List.mem_toFinset, mem_ofContext, hi, Option.getD_some]
    exact ⟨Dict.mem_entries_iff.mpr hi, List.dropLast_concat⟩
  · intro w _ w' _ heq
    have hkey : c ++ [w] = c ++ [w'] := (Prod.mk.inj heq).1
    simpa using hkey
  · intro e he
    rw [List.mem_toFinset, mem_ofContext] at he
    have hkey : e.1 ∈ d.keys := List.mem_map_of_mem he.1
    rcases hV e.1 hkey he.2 with ⟨w, hw, heq⟩
    refine ⟨w, mem_seenAfter.mpr ⟨hw, heq ▸ hkey⟩, ?_⟩
    have hget : d.get? e.1 = some e.2 := Dict.mem_entries_iff.mp he.1
    rw [← heq, hget, Option.getD_some]
  · intro w _
    rfl

/-- The shares of the words seen after a context with tokens. -/
theorem sum_shares [CharZero K] (hV : ∀ k ∈ d.keys, k.dropLast = c → ∃ w ∈ V, k = c ++ [w])
    (htokens : tokens d c ≠ 0) :
    ∑ w ∈ seenAfter V d c, (((d.get? (c ++ [w])).getD 0 : ℕ) : K) / (tokens d c : ℕ) = 1 := by
  rw [← Finset.sum_div, ← Nat.cast_sum, sum_seenAfter hV]
  exact div_self (Nat.cast_ne_zero.mpr htokens)

end Seen

section Tables

variable {pre post : W} {lines : List (List W)} {n o : ℕ} {unigrams : Dict (List W) ℕ}
variable {m t : Ngram W (Log10 K)} {c k : List W} {x w : W}

/-- The last word of an n-gram was counted as a word. -/
theorem last_mem_counted (h : c ++ [w] ∈ (counted pre post lines o).keys) :
    [w] ∈ (counted pre post lines 0).keys := by
  rw [mem_keys_counted, mem_fileWindows_iff] at h ⊢
  rcases h with ⟨-, line, hline, p, s, heq, hlt⟩
  refine ⟨rfl, line, hline, p ++ c, s, by simpa using heq, ?_⟩
  simpa [Nat.add_assoc] using hlt

theorem tokens_ne_zero {d : Dict (List W) ℕ} {i : ℕ} (h : d.get? k = some i) (hi : 0 < i) :
    tokens d k.dropLast ≠ 0 := by
  intro hzero
  have hmem : (k, i) ∈ ofContext d k.dropLast := mem_ofContext.mpr ⟨Dict.mem_entries_iff.mpr h, rfl⟩
  have hall := List.sum_eq_zero_iff.mp hzero i (List.mem_map.mpr ⟨(k, i), hmem, rfl⟩)
  omega

omit [DecidableEq W] in
theorem map_filterMap_head? {l : List (List W)} (h : ∀ k ∈ l, k.length = 1) :
    (l.filterMap List.head?).map (fun w => [w]) = l := by
  induction l with
  | nil => rfl
  | cons k l ih =>
    rcases List.length_eq_one_iff.mp (h k List.mem_cons_self) with ⟨w, rfl⟩
    have htail := ih fun k hk => h k (List.mem_cons_of_mem _ hk)
    rw [List.filterMap_cons_some (List.head?_cons ..), List.map_cons, htail]

/-- A context that was seen has tokens. -/
theorem tokens_counted_ne_zero (h : ofContext (counted pre post lines o) c ≠ []) :
    tokens (counted pre post lines o) c ≠ 0 := by
  rcases exists_ngram_of_context h with ⟨k, hk, rfl⟩
  rcases Dict.mem_keys_iff.mp hk with ⟨i, hi⟩
  exact tokens_ne_zero hi (pos_of_counted hi)

/-- The backoff weight of a context. -/
def backoff (K : Type u) [Field K] (d : Dict (List W) ℕ) (c : List W) : K :=
  ((ofContext d c).length : K) / ((ofContext d c).length + (tokens d c : ℕ))

theorem backoff_pos [LinearOrder K] [IsStrictOrderedRing K] {d : Dict (List W) ℕ}
    (h : ofContext d c ≠ []) : 0 < backoff K d c := by
  have hlen : (0 : K) < (ofContext d c).length := Nat.cast_pos.mpr (List.length_pos_of_ne_nil h)
  exact div_pos hlen (add_pos_of_pos_of_nonneg hlen (Nat.cast_nonneg _))

theorem backoff_le_one [LinearOrder K] [IsStrictOrderedRing K] (d : Dict (List W) ℕ)
    (c : List W) : backoff K d c ≤ 1 := by
  apply div_le_one_of_le₀
  · exact le_add_of_nonneg_right (Nat.cast_nonneg _)
  · exact add_nonneg (Nat.cast_nonneg _) (Nat.cast_nonneg _)

/-- A model with the contexts and n-grams of a trained one, and the same weights. -/
structure SameTables (m t : Ngram W (Log10 K)) : Prop where
  order : t.order = m.order
  keys : ∀ o, (t.logp o).keys = (m.logp o).keys
  lowest : t.logp 0 = m.logp 0
  bow : t.bow = m.bow

theorem Interpolated.sameTables [LinearOrder K] {m t : Ngram W (Log10 K)} (h : Interpolated n m t) :
    SameTables m t := ⟨h.order, h.keys, h.lowest, h.bow⟩

/-- Whatever the counts are. -/
theorem Interpolated.clear [LinearOrder K] {m t : Ngram W (Log10 K)} (h : Interpolated n m t)
    {counts : ℕ → Dict (List W) ℕ} : Interpolated n m { t with ngrams := counts } :=
  ⟨h.order, h.bow, h.logpUnk, h.keys, h.logp, h.lowest, h.above, h.mixed⟩

variable (hm : Trained pre post lines n unigrams m) (ht : SameTables m t)
include hm ht

theorem mem_vocab : w ∈ t.vocab ↔ [w] ∈ unigrams.keys := by
  have hkeys : (t.logp 0).keys = unigrams.keys := by rw [ht.keys, hm.lowest, keys_toProbs]
  rw [Ngram.vocab, hkeys, List.mem_filterMap]
  constructor
  · rintro ⟨k, hk, hhead⟩
    rcases List.length_eq_one_iff.mp (hm.isWord k hk) with ⟨y, rfl⟩
    rw [List.head?_cons, Option.some.injEq] at hhead
    rwa [← hhead]
  · exact fun hw => ⟨[w], hw, rfl⟩

theorem nodup_vocab : t.vocab.Nodup := by
  have hkeys : (t.logp 0).keys = unigrams.keys := by rw [ht.keys, hm.lowest, keys_toProbs]
  rw [Ngram.vocab, hkeys]
  apply List.Nodup.of_map fun w => [w]
  rw [map_filterMap_head? hm.isWord]
  exact unigrams.nodup_keys

theorem total_eq (before : List W) :
    t.total before = ∑ w ∈ t.vocab.toFinset, t.prob (t.context before) w := by
  rw [List.sum_toFinset _ (nodup_vocab hm ht), Ngram.total]
  simp only [Ngram.exp10_scoreWordCombined]

theorem exists_word_of_counted (hk : k ∈ (counted pre post lines o).keys) (hc : k.dropLast = c) :
    ∃ w ∈ t.vocab.toFinset, k = c ++ [w] := by
  have hne : k ≠ [] := by
    rintro rfl
    have hlen := length_of_mem_counted hk
    simp at hlen
  have hsplit : c ++ [k.getLast hne] = k := by rw [← hc, List.dropLast_append_getLast]
  rw [← hsplit] at hk
  rcases Dict.mem_keys_iff.mp (last_mem_counted hk) with ⟨i, hi⟩
  refine ⟨k.getLast hne, ?_, hsplit.symm⟩
  rw [List.mem_toFinset, mem_vocab hm ht, Dict.mem_keys_iff]
  exact ⟨i, hm.kept _ i hi⟩

theorem sum_prob_nil [CharZero K] (hlines : lines ≠ []) :
    ∑ w ∈ t.vocab.toFinset, t.prob [] w = 1 := by
  have hwords : ∀ k ∈ unigrams.keys, k.dropLast = [] → ∃ w ∈ t.vocab.toFinset, k = [] ++ [w] := by
    intro k hk _
    rcases List.length_eq_one_iff.mp (hm.isWord k hk) with ⟨w, rfl⟩
    exact ⟨w, List.mem_toFinset.mpr ((mem_vocab hm ht).mpr hk), rfl⟩
  have hall : seenAfter t.vocab.toFinset unigrams [] = t.vocab.toFinset := by
    apply Finset.filter_true_of_mem
    intro w hw
    exact (mem_vocab hm ht).mp (List.mem_toFinset.mp hw)
  -- every line ends in its mark
  have htokens : tokens unigrams [] ≠ 0 := by
    rcases List.exists_mem_of_ne_nil _ hlines with ⟨line, hline⟩
    have hpost : [post] ∈ (counted pre post lines 0).keys := by
      rw [mem_keys_counted, mem_fileWindows_iff]
      exact ⟨rfl, line, hline, pre :: line, [], by simp [marked], by simp⟩
    rcases Dict.mem_keys_iff.mp hpost with ⟨i, hi⟩
    exact tokens_ne_zero (hm.kept _ i hi) (pos_of_counted hi)
  rw [← sum_shares (K := K) hwords htokens, hall]
  apply Finset.sum_congr rfl
  intro w hw
  rcases Dict.mem_keys_iff.mp ((mem_vocab hm ht).mp (List.mem_toFinset.mp hw)) with ⟨i, hi⟩
  have hget : (t.logp 0).get? ([] ++ [w]) = some ⟨(i : K) / (tokens unigrams [] : ℕ)⟩ := by
    rw [ht.lowest, hm.lowest]
    exact get?_toProbs hi
  rw [Ngram.prob_of_get? hget, List.nil_append, hi, Option.getD_some]

/-- Nothing is scored after a context that was not seen. -/
theorem prob_of_unseen (ho : c.length < n) (hc : ofContext (counted pre post lines (c.length + 1)) (x :: c) = []) :
    t.prob (x :: c) w = t.prob c w := by
  have hnone : (t.logp (c.length + 1)).get? (x :: c ++ [w]) = none := by
    rw [Dict.get?_eq_none_iff, ht.keys, hm.higher _ ho, keys_toProbs]
    intro hk
    rcases Dict.mem_keys_iff.mp hk with ⟨i, hi⟩
    have hmem : (x :: c ++ [w], i) ∈ ofContext (counted pre post lines (c.length + 1)) (x :: c) :=
      mem_ofContext.mpr ⟨Dict.mem_entries_iff.mpr hi, List.dropLast_concat⟩
    rw [hc] at hmem
    cases hmem
  rw [Ngram.prob_cons_of_none hnone, ht.bow, hm.bow _ ho, get?_wittenBellBos, if_neg (by simp [hc]),
    Option.getD_none, Log10.exp10_zero, one_mul]

/-- A word that was not seen after a context is scored by its backoff weight. -/
theorem prob_of_notMem (ho : c.length < n)
    (hc : ofContext (counted pre post lines (c.length + 1)) (x :: c) ≠ [])
    (hw : x :: c ++ [w] ∉ (counted pre post lines (c.length + 1)).keys) :
    t.prob (x :: c) w =
      backoff K (counted pre post lines (c.length + 1)) (x :: c) * t.prob c w := by
  have hnone : (t.logp (c.length + 1)).get? (x :: c ++ [w]) = none := by
    rw [Dict.get?_eq_none_iff, ht.keys, hm.higher _ ho, keys_toProbs]
    exact hw
  rw [Ngram.prob_cons_of_none hnone, ht.bow, hm.bow _ ho, get?_wittenBellBos, if_pos hc,
    Option.getD_some]
  rfl

omit ht in
/-- Interpolated, a word that was seen after a context has the mixture. -/
theorem prob_of_mixed [LinearOrder K] {i : ℕ} (ho : c.length < n) (hI : Interpolated n m t)
    (hi : (counted pre post lines (c.length + 1)).get? (x :: c ++ [w]) = some i) :
    t.prob (x :: c) w = backoff K (counted pre post lines (c.length + 1)) (x :: c) * t.prob c w +
        (1 - backoff K (counted pre post lines (c.length + 1)) (x :: c)) *
          ((i : K) / (tokens (counted pre post lines (c.length + 1)) (x :: c) : ℕ)) := by
  have hdrop : (x :: c ++ [w]).dropLast = x :: c := List.dropLast_concat
  have htail : (x :: c ++ [w]).tail = c ++ [w] := rfl
  have hold : (m.logp (c.length + 1)).get? (x :: c ++ [w]) =
      some ⟨(i : K) / (tokens (counted pre post lines (c.length + 1)) (x :: c) : ℕ)⟩ := by
    rw [hm.higher _ ho, get?_toProbs hi, hdrop]
  rcases hI.mixed c.length ho _ _ hold with ⟨lower, weight, hmix, hnew⟩
  have hlower := hmix.lower
  have hweight := hmix.weight
  rw [htail] at hlower
  have hc : ofContext (counted pre post lines (c.length + 1)) (x :: c) ≠ [] :=
    List.ne_nil_of_mem (mem_ofContext.mpr ⟨Dict.mem_entries_iff.mpr hi, hdrop⟩)
  rw [hdrop, hm.bow _ ho, get?_wittenBellBos, if_pos hc, Option.some.injEq] at hweight
  rw [Ngram.prob_of_get? hlower, Ngram.prob_of_get? (c := x :: c) hnew, ← hweight]
  rfl

end Tables

section Totals

variable {pre post : W} {lines : List (List W)} {n : ℕ} {unigrams : Dict (List W) ℕ}
variable {m t : Ngram W (Log10 K)} {c : List W} {x w : W}

/-- The vocabulary splits into the words seen after a context and the others. -/
theorem sum_seen_add_unseen (V : Finset W) (d : Dict (List W) ℕ) (c : List W) (f : W → K) :
    ∑ w ∈ V, f w = ∑ w ∈ seenAfter V d c, f w + ∑ w ∈ V.filter (fun w => c ++ [w] ∉ d.keys), f w :=
  (Finset.sum_filter_add_sum_filter_not V (fun w => c ++ [w] ∈ d.keys) f).symm

variable [LinearOrder K] [IsStrictOrderedRing K] (hm : Trained pre post lines n unigrams m)
include hm

/-- Interpolated, the total after every context is 1. -/
theorem sum_prob_interpolated (hlines : lines ≠ []) (hI : Interpolated n m t)
    (hc : c.length ≤ n) : ∑ w ∈ t.vocab.toFinset, t.prob c w = 1 := by
  have ht := hI.sameTables
  induction c with
  | nil => exact sum_prob_nil hm ht hlines
  | cons x c ih =>
    have ho : c.length < n := hc
    have hlower := ih (Nat.le_of_lt ho)
    by_cases hseen : ofContext (counted pre post lines (c.length + 1)) (x :: c) = []
    · rw [← hlower]
      exact Finset.sum_congr rfl fun w _ => prob_of_unseen hm ht ho hseen
    · generalize hd : counted pre post lines (c.length + 1) = d at hseen
      have hshares := sum_shares (K := K) (V := t.vocab.toFinset)
        (fun k hk hk' => exists_word_of_counted hm ht (hd ▸ hk) hk')
        (hd ▸ tokens_counted_ne_zero (hd ▸ hseen))
      have hmixed : ∀ w ∈ seenAfter t.vocab.toFinset d (x :: c), t.prob (x :: c) w =
          backoff K d (x :: c) * t.prob c w + (1 - backoff K d (x :: c)) *
            ((((d.get? (x :: c ++ [w])).getD 0 : ℕ) : K) / (tokens d (x :: c) : ℕ)) := by
        intro w hw
        rcases Dict.mem_keys_iff.mp (mem_seenAfter.mp hw).2 with ⟨i, hi⟩
        rw [hi, Option.getD_some, ← hd]
        exact prob_of_mixed hm ho hI (hd ▸ hi)
      have hbacked : ∀ w ∈ t.vocab.toFinset.filter (fun w => x :: c ++ [w] ∉ d.keys),
          t.prob (x :: c) w = backoff K d (x :: c) * t.prob c w := by
        intro w hw
        rw [← hd]
        exact prob_of_notMem hm ht ho (hd ▸ hseen) (hd ▸ (Finset.mem_filter.mp hw).2)
      rw [sum_seen_add_unseen _ d (x :: c) (t.prob c)] at hlower
      rw [sum_seen_add_unseen _ d (x :: c), Finset.sum_congr rfl hmixed,
        Finset.sum_congr rfl hbacked, Finset.sum_add_distrib, ← Finset.mul_sum, ← Finset.mul_sum,
        ← Finset.mul_sum, hshares]
      linear_combination backoff K d (x :: c) * hlower

variable (ht : SameTables m t) (hlogp : t.logp = m.logp)
include ht hlogp

section

omit [LinearOrder K] [IsStrictOrderedRing K] ht

/-- Without interpolation a word that was seen after a context has its share. -/
theorem prob_of_seen {i : ℕ} (ho : c.length < n)
    (hi : (counted pre post lines (c.length + 1)).get? (x :: c ++ [w]) = some i) :
    t.prob (x :: c) w =
      (i : K) / (tokens (counted pre post lines (c.length + 1)) (x :: c) : ℕ) := by
  have hdrop : (x :: c ++ [w]).dropLast = x :: c := List.dropLast_concat
  have hget : (t.logp (c.length + 1)).get? (x :: c ++ [w]) =
      some ⟨(i : K) / (tokens (counted pre post lines (c.length + 1)) (x :: c) : ℕ)⟩ := by
    rw [hlogp, hm.higher _ ho, get?_toProbs hi, hdrop]
  exact Ngram.prob_of_get? (c := x :: c) hget

theorem prob_nil_of_counted {i : ℕ} (hi : unigrams.get? [w] = some i) :
    t.prob [] w = (i : K) / (tokens unigrams [] : ℕ) := by
  have hget : (t.logp 0).get? ([] ++ [w]) = some ⟨(i : K) / (tokens unigrams [] : ℕ)⟩ := by
    rw [hlogp, hm.lowest]
    exact get?_toProbs hi
  exact Ngram.prob_of_get? hget

end

/-- The words that occur in the text have a positive probability after every context. -/
theorem prob_pos (hw : [w] ∈ (counted pre post lines 0).keys) (hc : c.length ≤ n) :
    0 < t.prob c w := by
  induction c with
  | nil =>
    rcases Dict.mem_keys_iff.mp hw with ⟨i, hi⟩
    have hpos := pos_of_counted hi
    have htokens : tokens unigrams [] ≠ 0 := tokens_ne_zero (hm.kept _ i hi) hpos
    rw [prob_nil_of_counted hm hlogp (hm.kept _ i hi)]
    exact div_pos (Nat.cast_pos.mpr hpos) (Nat.cast_pos.mpr (Nat.pos_of_ne_zero htokens))
  | cons x c ih =>
    have ho : c.length < n := hc
    have hlower := ih (Nat.le_of_lt ho)
    by_cases hseen : ofContext (counted pre post lines (c.length + 1)) (x :: c) = []
    · rw [prob_of_unseen hm ht ho hseen]
      exact hlower
    · have htokens := Nat.pos_of_ne_zero (tokens_counted_ne_zero hseen)
      cases hget : (counted pre post lines (c.length + 1)).get? (x :: c ++ [w]) with
      | some i =>
        rw [prob_of_seen hm hlogp ho hget]
        exact div_pos (Nat.cast_pos.mpr (pos_of_counted hget)) (Nat.cast_pos.mpr htokens)
      | none =>
        rw [prob_of_notMem hm ht ho hseen (Dict.get?_eq_none_iff.mp hget)]
        exact mul_pos (backoff_pos hseen) hlower

omit [LinearOrder K] [IsStrictOrderedRing K] in
/-- A word that was only fed has probability zero. -/
theorem prob_eq_zero (hw : [w] ∈ unigrams.keys) (hnot : [w] ∉ (counted pre post lines 0).keys)
    (hc : c.length ≤ n) : t.prob c w = 0 := by
  induction c with
  | nil =>
    rw [prob_nil_of_counted hm hlogp (hm.fed _ hw hnot), Nat.cast_zero, zero_div]
  | cons x c ih =>
    have ho : c.length < n := hc
    have hlower := ih (Nat.le_of_lt ho)
    by_cases hseen : ofContext (counted pre post lines (c.length + 1)) (x :: c) = []
    · rw [prob_of_unseen hm ht ho hseen, hlower]
    · have hunseen : x :: c ++ [w] ∉ (counted pre post lines (c.length + 1)).keys :=
        fun hk => hnot (last_mem_counted hk)
      rw [prob_of_notMem hm ht ho hseen hunseen, hlower, mul_zero]

/-- Without interpolation, the words seen after a context have all of its mass, and the others
have theirs on top. -/
theorem sum_prob_cons (ho : c.length < n)
    (hseen : ofContext (counted pre post lines (c.length + 1)) (x :: c) ≠ []) :
    ∑ w ∈ t.vocab.toFinset, t.prob (x :: c) w =
      1 + backoff K (counted pre post lines (c.length + 1)) (x :: c) * ∑ w ∈ t.vocab.toFinset.filter
          (fun w => x :: c ++ [w] ∉ (counted pre post lines (c.length + 1)).keys), t.prob c w := by
  have hshares := sum_shares (K := K) (V := t.vocab.toFinset)
    (fun k hk hk' => exists_word_of_counted hm ht hk hk') (tokens_counted_ne_zero hseen)
  have hfirst : ∀ w ∈ seenAfter t.vocab.toFinset (counted pre post lines (c.length + 1)) (x :: c),
      t.prob (x :: c) w = (((counted pre post lines (c.length + 1)).get? (x :: c ++ [w])).getD 0 : ℕ) /
        (tokens (counted pre post lines (c.length + 1)) (x :: c) : ℕ) := by
    intro w hw
    rcases Dict.mem_keys_iff.mp (mem_seenAfter.mp hw).2 with ⟨i, hi⟩
    rw [hi, Option.getD_some]
    exact prob_of_seen hm hlogp ho hi
  rw [sum_seen_add_unseen _ (counted pre post lines (c.length + 1)) (x :: c),
    Finset.sum_congr rfl hfirst, hshares, Finset.mul_sum]
  congr 1
  apply Finset.sum_congr rfl
  intro w hw
  exact prob_of_notMem hm ht ho hseen (Finset.mem_filter.mp hw).2

end Totals

section File

variable {pre post : W} {lines : List (List W)} {n : ℕ} {unigrams : Dict (List W) ℕ}
variable {m t : Ngram W (Log10 K)} {c : List W} {w : W}

/-- The word comes after the context in a line between its marks. -/
def Follows (pre post : W) (lines : List (List W)) (c : List W) (w : W) : Prop :=
  ∃ line ∈ lines, c ++ [w] <:+: marked pre post line

/-- The word is predicted somewhere in the text. -/
def Predicted (post : W) (lines : List (List W)) (w : W) : Prop :=
  ∃ line ∈ lines, w ∈ line ++ [post]

theorem mem_counted_iff_follows (hc : c ≠ []) :
    c ++ [w] ∈ (counted pre post lines c.length).keys ↔ Follows pre post lines c w := by
  have hlen := List.length_pos_of_ne_nil hc
  rw [mem_keys_counted, mem_fileWindows_iff]
  constructor
  · rintro ⟨-, line, hline, p, s, heq, -⟩
    exact ⟨line, hline, p, s, heq.symm⟩
  · rintro ⟨line, hline, p, s, heq⟩
    refine ⟨by simp, line, hline, p, s, heq.symm, ?_⟩
    rw [List.length_append, List.length_singleton]
    omega
variable (pre) in

theorem mem_counted_iff_predicted :
    [w] ∈ (counted pre post lines 0).keys ↔ Predicted post lines w := by
  rw [mem_keys_counted, mem_fileWindows_iff]
  constructor
  · rintro ⟨-, line, hline, p, s, heq, hlt⟩
    cases p with
    | nil => simp at hlt
    | cons y p =>
      have htail : line ++ [post] = p ++ [w] ++ s := (List.cons.inj heq).2
      refine ⟨line, hline, ?_⟩
      rw [htail]
      simp
  · rintro ⟨line, hline, hw⟩
    rcases List.append_of_mem hw with ⟨p, s, heq⟩
    refine ⟨rfl, line, hline, pre :: p, s, ?_, by simp⟩
    rw [marked, List.cons_append, heq]
    simp

theorem context_ne_nil_iff :
    ofContext (counted pre post lines (n + 1)) c ≠ [] ↔
      ∃ w, c ++ [w] ∈ (counted pre post lines (n + 1)).keys := by
  constructor
  · intro h
    rcases exists_ngram_of_context h with ⟨k, hk, rfl⟩
    have hne : k ≠ [] := by
      rintro rfl
      have hlen := length_of_mem_counted hk
      simp at hlen
    exact ⟨k.getLast hne, by rwa [List.dropLast_append_getLast]⟩
  · rintro ⟨w, hw⟩
    rcases Dict.mem_keys_iff.mp hw with ⟨i, hi⟩
    exact List.ne_nil_of_mem (mem_ofContext.mpr ⟨Dict.mem_entries_iff.mpr hi, List.dropLast_concat⟩)

variable [LinearOrder K] [IsStrictOrderedRing K]

/-- Without interpolation no total is above 1 exactly when every word that is predicted
somewhere follows every context. -/
theorem sum_prob_le_one_iff (hm : Trained pre post lines n unigrams m) (ht : SameTables m t)
    (hlogp : t.logp = m.logp) (hlines : lines ≠ []) :
    (∀ c, c.length ≤ n → ∑ w ∈ t.vocab.toFinset, t.prob c w ≤ 1) ↔
      ∀ c w w', c ≠ [] → c.length ≤ n → Follows pre post lines c w' → Predicted post lines w →
        Follows pre post lines c w := by
  constructor
  · intro htotal c w w' hc hlen hseen hw
    cases c with
    | nil => exact absurd rfl hc
    | cons x c =>
      have ho : c.length < n := hlen
      rw [← mem_counted_iff_follows hc] at hseen ⊢
      rw [← mem_counted_iff_predicted pre] at hw
      have hctx := context_ne_nil_iff.mpr ⟨w', hseen⟩
      by_contra hnot
      -- the word that was not seen has its lower-order probability on top of the mass 1
      rcases Dict.mem_keys_iff.mp hw with ⟨i, hi⟩
      have hvocab : w ∈ t.vocab.toFinset := by
        rw [List.mem_toFinset, mem_vocab hm ht, Dict.mem_keys_iff]
        exact ⟨i, hm.kept _ i hi⟩
      have hpos : 0 < t.prob c w := prob_pos hm ht hlogp hw (Nat.le_of_lt ho)
      have hnonneg : ∀ v ∈ t.vocab.toFinset, 0 ≤ t.prob c v := by
        intro v hv
        by_cases hcount : [v] ∈ (counted pre post lines 0).keys
        · exact (prob_pos hm ht hlogp hcount (Nat.le_of_lt ho)).le
        · have hfed := (mem_vocab hm ht).mp (List.mem_toFinset.mp hv)
          exact (prob_eq_zero hm ht hlogp hfed hcount (Nat.le_of_lt ho)).ge
      have hrest : t.prob c w ≤ ∑ v ∈ t.vocab.toFinset.filter
          (fun v => x :: c ++ [v] ∉ (counted pre post lines (c.length + 1)).keys), t.prob c v :=
        Finset.single_le_sum (fun v hv => hnonneg v (Finset.mem_filter.mp hv).1)
          (Finset.mem_filter.mpr ⟨hvocab, hnot⟩)
      have hle := htotal (x :: c) hlen
      rw [sum_prob_cons hm ht hlogp ho hctx] at hle
      have hmore := mul_pos (backoff_pos (K := K) hctx) (lt_of_lt_of_le hpos hrest)
      linarith
  · intro hfollow c hlen
    apply le_of_eq
    induction c with
    | nil => exact sum_prob_nil hm ht hlines
    | cons x c ih =>
      have ho : c.length < n := hlen
      by_cases hctx : ofContext (counted pre post lines (c.length + 1)) (x :: c) = []
      · rw [← ih (Nat.le_of_lt ho)]
        exact Finset.sum_congr rfl fun w _ => prob_of_unseen hm ht ho hctx
      · rcases context_ne_nil_iff.mp hctx with ⟨w', hw'⟩
        rw [sum_prob_cons hm ht hlogp ho hctx, Finset.sum_eq_zero, mul_zero, add_zero]
        intro w hw
        rcases Finset.mem_filter.mp hw with ⟨hvocab, hnot⟩
        have hword := (mem_vocab hm ht).mp (List.mem_toFinset.mp hvocab)
        apply prob_eq_zero hm ht hlogp hword _ (Nat.le_of_lt ho)
        intro hcount
        apply hnot
        have hne : x :: c ≠ [] := List.cons_ne_nil x c
        exact (mem_counted_iff_follows hne).mpr
          (hfollow (x :: c) w w' hne hlen ((mem_counted_iff_follows hne).mp hw')
            ((mem_counted_iff_predicted _).mp hcount))

theorem nonneg_of_toProbs {d : Dict (List W) ℕ} {k : List W} {l : Log10 K}
    (h : (k, l) ∈ (toProbs d : Dict (List W) (Log10 K)).entries) : 0 ≤ l.exp10 := by
  have hget := Dict.mem_entries_iff.mp h
  have hk : k ∈ d.keys := by
    rw [← keys_toProbs (K := K), Dict.mem_keys_iff]
    exact ⟨l, hget⟩
  rcases Dict.mem_keys_iff.mp hk with ⟨i, hi⟩
  rw [get?_toProbs hi, Option.some.injEq] at hget
  rw [← hget]
  exact div_nonneg (Nat.cast_nonneg _) (Nat.cast_nonneg _)

theorem Trained.weighted (hm : Trained pre post lines n unigrams m) : m.Weighted where
  bow o k b h := by
    by_cases ho : o < n
    · rw [hm.bow o ho, Dict.mem_entries_iff, get?_wittenBellBos] at h
      by_cases hc : ofContext (counted pre post lines (o + 1)) k ≠ []
      · rw [if_pos hc, Option.some.injEq] at h
        rw [← h]
        exact ⟨(backoff_pos hc).le, backoff_le_one _ _⟩
      · rw [if_neg hc] at h
        cases h
    · rw [hm.bowAbove o (Nat.le_of_not_lt ho)] at h
      cases h
  logp o k l h := by
    cases o with
    | zero => exact nonneg_of_toProbs (hm.lowest ▸ h)
    | succ o =>
      by_cases ho : o < n
      · exact nonneg_of_toProbs (hm.higher o ho ▸ h)
      · rw [hm.logpAbove (o + 1) (by omega)] at h
        cases h

section

omit [LinearOrder K] [IsStrictOrderedRing K]

theorem Trained.om1 (hm : Trained pre post lines n unigrams m) : m.om1 = n := by
  rw [Ngram.om1, hm.order]
  rfl

theorem Trained.complete (hm : Trained pre post lines n unigrams m) : m.Complete := by
  intro o ho k hk
  rw [hm.om1] at ho
  rw [hm.higher o ho, keys_toProbs] at hk
  constructor
  · have htail := tail_mem_counted hk
    cases o with
    | zero =>
      rcases Dict.mem_keys_iff.mp htail with ⟨i, hi⟩
      rw [hm.lowest, keys_toProbs, Dict.mem_keys_iff]
      exact ⟨i, hm.kept _ i hi⟩
    | succ o =>
      rw [hm.higher o (by omega), keys_toProbs]
      exact htail
  · rw [hm.bow o ho, mem_keys_wittenBellBos]
    rcases Dict.mem_keys_iff.mp hk with ⟨i, hi⟩
    exact List.ne_nil_of_mem (mem_ofContext.mpr ⟨Dict.mem_entries_iff.mpr hi, rfl⟩)

theorem forall_total_iff {b : K → Prop} (hm : Trained pre post lines n unigrams m)
    (ht : SameTables m t) :
    (∀ before, b (t.total before)) ↔
      ∀ c, c.length ≤ n → b (∑ w ∈ t.vocab.toFinset, t.prob c w) := by
  have hom1 : t.om1 = n := by
    rw [Ngram.om1, ht.order, hm.order]
    rfl
  constructor
  · intro h c hc
    have hbefore := h c
    rwa [total_eq hm ht, Ngram.context_of_length_le (hom1 ▸ hc)] at hbefore
  · intro h before
    rw [total_eq hm ht]
    exact h _ (hom1 ▸ t.length_context_le before)

end

/-- Trained on a text, the model gives every context total probability 1 when it is
interpolated, and otherwise never more than 1, exactly when it is interpolated or every word
that is predicted somewhere follows every context shorter than the order. -/
theorem Ngram.trainLm_totals_iff (pre post : W) {lines : List (List W)} (hlines : lines ≠ [])
    (n : ℕ) (interpolate : Bool) :
    (∃ m, ((new (.zeroProb : Log10 K) W (n + 1)).countFile pre post lines).trainLm interpolate = some m ∧
        ∀ before, if interpolate then m.total before = 1 else m.total before ≤ 1) ↔
      interpolate = true ∨ ∀ c w w', c ≠ [] → c.length ≤ n → Follows pre post lines c w' →
          Predicted post lines w → Follows pre post lines c w := by
  rcases exists_trained (K := K) n pre post lines with ⟨unigrams, hm⟩
  cases interpolate with
  | true =>
    rcases exists_interpolated hm.weighted hm.complete with ⟨t, hrun, ht⟩
    have hom1 := hm.om1
    apply iff_of_true _ (Or.inl rfl)
    refine ⟨{ t with ngrams := fun _ => .empty }, by simp [trainLm, hrun], ?_⟩
    have hI : Interpolated n _ { t with ngrams := fun _ => .empty } := hom1 ▸ ht.clear
    exact (forall_total_iff (b := (· = 1)) hm hI.sameTables).mpr
      fun c hc => sum_prob_interpolated hm hlines hI hc
  | false =>
    generalize ht' : ((new (.zeroProb : Log10 K) W (n + 1)).countFile pre post lines).trainTables = t at hm
    have ht : SameTables t { t with ngrams := fun _ => .empty } := ⟨rfl, fun _ => rfl, rfl, rfl⟩
    have hle := (forall_total_iff (b := (· ≤ 1)) hm ht).trans
      (sum_prob_le_one_iff hm ht rfl hlines)
    constructor
    · rintro ⟨m, hrun, htotal⟩
      have heq : { t with ngrams := fun _ => .empty } = m := by
        simpa [trainLm, ht'] using hrun
      subst heq
      exact Or.inr (hle.mp (by simpa using htotal))
    · rintro (hfalse | hfollow)
      · cases hfalse
      · exact ⟨{ t with ngrams := fun _ => .empty }, by simp [trainLm, ht'],
          by simpa using hle.mpr hfollow⟩

/-- One line of one word, between the marks 0 and 1. -/
theorem Ngram.trainLm_totals_iff_one_word :
    (∃ m, ((new (.zeroProb : Log10 ℚ) ℕ 2).countFile 0 1 [[2]]).trainLm true = some m ∧
        ∀ before, if true then m.total before = 1 else m.total before ≤ 1) ↔
      true = true ∨ ∀ c w w', c ≠ [] → c.length ≤ 1 → Follows 0 1 [[2]] c w' →
        Predicted 1 [[2]] w → Follows 0 1 [[2]] c w :=
  trainLm_totals_iff 0 1 (by decide) 1 true

/-- The word has all of the mass after the beginning of the line, and the mark at the end a
quarter of it on top. -/
theorem Ngram.not_total_le_one_one_word :
    ¬ ∃ m, ((new (.zeroProb : Log10 ℚ) ℕ 2).countFile 0 1 [[2]]).trainLm false = some m ∧
        ∀ before, m.total before ≤ 1 := by
  rintro ⟨m, hrun, htotal⟩
  have hvalue : (((new (.zeroProb : Log10 ℚ) ℕ 2).countFile 0 1 [[2]]).trainLm false).map (fun m => m.total [0]) =
      some (5 / 4) := by
    decide +kernel
  rw [hrun, Option.map_some, Option.some.injEq] at hvalue
  have hle := htotal [0]
  rw [hvalue] at hle
  exact absurd hle (by norm_num)

end File

end Carmel.Sblm
