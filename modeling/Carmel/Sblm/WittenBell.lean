/-
# Witten-Bell models

The backoff weight of a context is the share of the types seen after it among the types and
tokens. Interpolated models have total probability 1 in every context. Otherwise a context
that was seen gives all of its mass to the words seen after it, and the words not seen are
scored on top of that mass.
-/

import Carmel.Sblm.Interp

namespace Carmel.Sblm

open Carmel.Math

universe u v

variable {W : Type v} [DecidableEq W] {K : Type u} [Field K]

section Code

/-- `witten_bell_bos`. A context has at least one type, so that its share has a logarithm. -/
def wittenBellBos (counts : Dict (List W) ℕ) : Dict (List W) (Log10 K) :=
  let types := Dict.tally (fun e => e.1.dropLast) (fun _ => 1) counts.entries .empty
  let sums := Dict.tally (fun e => e.1.dropLast) (fun e => e.2) counts.entries .empty
  types.mapValues fun k (t : ℕ) => ⟨(t : K) / (t + ((sums.get? k).getD 0 : ℕ))⟩

/-- `to_probs`. The share is not negative, and `log10_prob` has a value for it. -/
def toProbs (counts : Dict (List W) ℕ) : Dict (List W) (Log10 K) :=
  let sumc := Dict.tally (fun e => e.1.dropLast) (fun e => e.2) counts.entries .empty
  counts.mapValues fun k (count : ℕ) =>
    let s := (sumc.get? k.dropLast).getD 0
    ⟨if s ≠ 0 then (count : K) / (s : ℕ) else 0⟩

namespace Ngram

/-- One round of the loop of `train_lm` over the orders. -/
def trainOrder (m : Ngram W (Log10 K)) (o : ℕ) : Ngram W (Log10 K) :=
  let bos : Dict (List W) (Log10 K) := wittenBellBos (m.ngrams (o + 1))
  { m with
    bow := Function.update m.bow o bos
    ngrams := Function.update m.ngrams o (bos.keys.foldl (Dict.setDefault · 0) (m.ngrams o)) }

/-- The tables of `train_lm` before the orders are mixed. -/
def trainTables (m : Ngram W (Log10 K)) : Ngram W (Log10 K) :=
  let m := (List.range (m.order - 1)).reverse.foldl trainOrder m
  { m with logp := fun o => if o < m.order then toProbs (m.ngrams o) else m.logp o }

variable [LinearOrder K] in
/-- `train_lm` with `witten_bell`, without `sri_ngram_count`. -/
def trainLm (m : Ngram W (Log10 K)) (interpolate : Bool) : Option (Ngram W (Log10 K)) := do
  let m ← if interpolate then m.trainTables.interp else some m.trainTables
  return { m with ngrams := fun _ => .empty }

/-- `vocab(exclude_specials=False)`. -/
def vocab (m : Ngram W (Log10 K)) : List W := (m.logp 0).keys.filterMap List.head?

/-- The total probability of the vocabulary after a text. -/
def total (m : Ngram W (Log10 K)) (before : List W) : K :=
  (m.vocab.map fun w => (m.scoreWordCombined before w).exp10).sum

end Ngram

end Code

section Shares

variable {counts : Dict (List W) ℕ} {c k : List W}

/-- The n-grams with the context `c`. -/
def ofContext (counts : Dict (List W) ℕ) (c : List W) : List (List W × ℕ) :=
  counts.entries.filter fun e => e.1.dropLast = c

/-- The tokens after a context. -/
def tokens (counts : Dict (List W) ℕ) (c : List W) : ℕ :=
  ((ofContext counts c).map Prod.snd).sum

theorem mem_ofContext {e : List W × ℕ} :
    e ∈ ofContext counts c ↔ e ∈ counts.entries ∧ e.1.dropLast = c := by
  simp [ofContext]

theorem get?_wittenBellBos : (wittenBellBos counts : Dict (List W) (Log10 K)).get? c =
    if ofContext counts c ≠ [] then
      some ⟨((ofContext counts c).length : K) /
        ((ofContext counts c).length + (tokens counts c : ℕ))⟩
    else none := by
  have hne : (∃ e ∈ counts.entries, e.1.dropLast = c) ↔ ofContext counts c ≠ [] := by
    constructor
    · rintro ⟨e, he, hc⟩
      exact List.ne_nil_of_mem (mem_ofContext.mpr ⟨he, hc⟩)
    · intro h
      rcases List.exists_mem_of_ne_nil _ h with ⟨e, he⟩
      exact ⟨e, mem_ofContext.mp he⟩
  rw [wittenBellBos, Dict.get?_mapValues, Dict.get?_tally_empty, Dict.get?_tally_empty]
  by_cases h : ofContext counts c ≠ []
  · rw [if_pos h, if_pos (hne.mpr h), if_pos (hne.mpr h), Option.map_some, Option.getD_some,
      List.map_const', List.sum_replicate_nat, Nat.mul_one]
    rfl
  · have hnone : ¬ ∃ e ∈ counts.entries, e.1.dropLast = c := fun hex => h (hne.mp hex)
    rw [if_neg h, if_neg hnone, if_neg hnone, Option.map_none]

theorem mem_keys_wittenBellBos : c ∈ (wittenBellBos counts : Dict (List W) (Log10 K)).keys ↔
    ofContext counts c ≠ [] := by
  rw [Dict.mem_keys_iff, get?_wittenBellBos]
  by_cases h : ofContext counts c ≠ []
  · simp [h]
  · simp [h]

theorem get?_toProbs {n : ℕ} (h : counts.get? k = some n) :
    (toProbs counts : Dict (List W) (Log10 K)).get? k =
      some ⟨(n : K) / (tokens counts k.dropLast : ℕ)⟩ := by
  have hmem : (k, n) ∈ counts.entries := Dict.mem_entries_iff.mpr h
  have hex : ∃ e ∈ counts.entries, e.1.dropLast = k.dropLast := ⟨(k, n), hmem, rfl⟩
  have hsum : (Dict.tally (fun e : List W × ℕ => e.1.dropLast) (fun e => e.2) counts.entries
      .empty).get? k.dropLast = some (tokens counts k.dropLast) := by
    rw [Dict.get?_tally_empty, if_pos hex]
    rfl
  rw [toProbs, Dict.get?_mapValues, h, Option.map_some]
  simp only [hsum, Option.getD_some, ne_eq]
  by_cases hzero : tokens counts k.dropLast = 0
  · simp [hzero]
  · simp [hzero]

theorem keys_toProbs : (toProbs counts : Dict (List W) (Log10 K)).keys = counts.keys :=
  Dict.keys_mapValues _

end Shares

section Training

variable {n : ℕ} {m : Ngram W (Log10 K)}

/-- The rounds of `train_lm` below `n`. -/
theorem Ngram.foldl_trainOrder (n : ℕ) (m : Ngram W (Log10 K)) :
    ∃ m', (List.range n).reverse.foldl trainOrder m = m' ∧ m'.order = m.order ∧
      m'.logp = m.logp ∧ m'.logpUnk = m.logpUnk ∧
      (∀ o, n ≤ o → m'.ngrams o = m.ngrams o ∧ m'.bow o = m.bow o) ∧
      ∀ o < n, m'.bow o = wittenBellBos (m'.ngrams (o + 1)) ∧
        m'.ngrams o = (m'.bow o).keys.foldl (Dict.setDefault · 0) (m.ngrams o) := by
  induction n generalizing m with
  | zero => exact ⟨m, rfl, rfl, rfl, rfl, fun _ _ => ⟨rfl, rfl⟩, fun _ ho => absurd ho (Nat.not_lt_zero _)⟩
  | succ n ih =>
    rcases ih (m.trainOrder n) with ⟨m', hrun, horder, hlogp, hunk, habove, hbelow⟩
    refine ⟨m', ?_, horder, hlogp, hunk, ?_, ?_⟩
    · rw [List.range_succ, List.reverse_append, List.reverse_singleton, List.singleton_append,
        List.foldl_cons, hrun]
    · intro o ho
      rcases habove o (by omega) with ⟨hngrams, hbow⟩
      have hne : o ≠ n := by omega
      exact ⟨hngrams.trans (Function.update_of_ne hne _ _),
        hbow.trans (Function.update_of_ne hne _ _)⟩
    · intro o ho
      by_cases hon : o = n
      · subst hon
        rcases habove o (Nat.le_refl _) with ⟨hngrams, hbow⟩
        rcases habove (o + 1) (Nat.le_succ _) with ⟨hngrams', -⟩
        have hbow' : m'.bow o = wittenBellBos (m.ngrams (o + 1)) :=
          hbow.trans (Function.update_self ..)
        have hupper : m'.ngrams (o + 1) = m.ngrams (o + 1) :=
          hngrams'.trans (Function.update_of_ne (Nat.succ_ne_self o) _ _)
        refine ⟨by rw [hbow', hupper], ?_⟩
        rw [hbow', hngrams]
        exact Function.update_self ..
      · rcases hbelow o (by omega) with ⟨hbow, hngrams⟩
        refine ⟨hbow, hngrams.trans ?_⟩
        have hsame : (m.trainOrder n).ngrams o = m.ngrams o := Function.update_of_ne hon _ _
        rw [hsame]

variable {pre post : W} {lines : List (List W)}

/-- The model that `train_lm` has made of the counts of a file before it mixes the orders;
`unigrams` are the counts of the words with those that were fed. -/
structure Trained (pre post : W) (lines : List (List W)) (n : ℕ) (unigrams : Dict (List W) ℕ)
    (m : Ngram W (Log10 K)) : Prop where
  order : m.order = n + 1
  lowest : m.logp 0 = toProbs unigrams
  higher : ∀ o < n, m.logp (o + 1) = toProbs (counted pre post lines (o + 1))
  bow : ∀ o < n, m.bow o = wittenBellBos (counted pre post lines (o + 1))
  logpAbove : ∀ o, n < o → m.logp o = .empty
  bowAbove : ∀ o, n ≤ o → m.bow o = .empty
  isWord : ∀ k ∈ unigrams.keys, k.length = 1
  kept : ∀ k i, (counted pre post lines 0).get? k = some i → unigrams.get? k = some i
  fed : ∀ k ∈ unigrams.keys, k ∉ (counted pre post lines 0).keys → unigrams.get? k = some 0

/-- A context of a counted n-gram. -/
theorem exists_ngram_of_context {counts : Dict (List W) ℕ} {c : List W} (h : ofContext counts c ≠ []) :
    ∃ k ∈ counts.keys, k.dropLast = c := by
  rcases List.exists_mem_of_ne_nil _ h with ⟨e, he⟩
  rcases mem_ofContext.mp he with ⟨hmem, hc⟩
  exact ⟨e.1, List.mem_map_of_mem hmem, hc⟩

/-- The contexts that are fed to a higher order have been counted there. -/
theorem ngrams_eq_counted {m' : Ngram W (Log10 K)}
    (hcounted : ∀ o ≤ n, m.ngrams o = counted pre post lines o)
    (habove : m'.ngrams n = m.ngrams n)
    (hbelow : ∀ o < n, m'.bow o = wittenBellBos (m'.ngrams (o + 1)) ∧
      m'.ngrams o = (m'.bow o).keys.foldl (Dict.setDefault · 0) (m.ngrams o)) (d o : ℕ)
    (ho : o + 1 + d = n) : m'.ngrams (o + 1) = counted pre post lines (o + 1) := by
  induction d generalizing o with
  | zero =>
    have hn : o + 1 = n := by omega
    rw [hn, habove, hcounted n (Nat.le_refl n)]
  | succ d ih =>
    rcases hbelow (o + 1) (by omega) with ⟨hbow, hngrams⟩
    rw [ih (o + 1) (by omega)] at hbow
    rw [hngrams, hcounted (o + 1) (by omega)]
    apply Dict.foldl_setDefault_of_mem
    intro c hc
    rw [hbow, mem_keys_wittenBellBos] at hc
    rcases exists_ngram_of_context hc with ⟨k, hk, rfl⟩
    exact dropLast_mem_counted hk

/-- What `train_lm` makes of the counts of a file. -/
theorem exists_trained (n : ℕ) (pre post : W) (lines : List (List W)) :
    ∃ unigrams, Trained pre post lines n unigrams
      ((Ngram.new (.zeroProb : Log10 K) W (n + 1)).countFile pre post lines).trainTables := by
  rcases Ngram.countFile_spec pre post lines (Ngram.new (.zeroProb : Log10 K) W (n + 1))
    with ⟨hord, hspec⟩
  rcases Ngram.countFile_tables pre post lines (Ngram.new (.zeroProb : Log10 K) W (n + 1))
    with ⟨hlogp₀, hbow₀⟩
  generalize (Ngram.new (.zeroProb : Log10 K) W (n + 1)).countFile pre post lines = m at hord hspec hlogp₀ hbow₀
  have hcounted : ∀ o ≤ n, m.ngrams o = counted pre post lines o :=
    fun o ho => hspec o (Nat.lt_succ_of_le ho)
  have hn : m.order - 1 = n := by
    rw [hord]
    rfl
  rcases Ngram.foldl_trainOrder n m with ⟨m', hrun, horder, hlogp, -, habove, hbelow⟩
  have horder' : m'.order = n + 1 := horder.trans hord
  have hhigh : ∀ o < n, m'.ngrams (o + 1) = counted pre post lines (o + 1) := fun o ho =>
    ngrams_eq_counted hcounted (habove n (Nat.le_refl n)).1 hbelow (n - (o + 1)) o (by omega)
  -- a word that was not counted can only have been fed as the context of a bigram
  have hwords : ∀ k, (m'.ngrams 0).get? k =
      if k ∈ (counted pre post lines 0).keys then (counted pre post lines 0).get? k
      else if 0 < n ∧ ofContext (counted pre post lines 1) k ≠ [] then some 0 else none := by
    intro k
    by_cases h0 : 0 < n
    · rcases hbelow 0 h0 with ⟨hbow, hngrams⟩
      rw [hhigh 0 h0] at hbow
      rw [hngrams, hcounted 0 (Nat.zero_le n), Dict.get?_foldl_setDefault, hbow]
      simp only [mem_keys_wittenBellBos, h0, true_and]
    · rw [(habove 0 (by omega)).1, hcounted 0 (Nat.zero_le n)]
      by_cases hk : k ∈ (counted pre post lines 0).keys
      · rw [if_pos hk]
      · rw [if_neg hk, if_neg (fun h => h0 h.1), Dict.get?_eq_none_iff]
        exact hk
  rw [Ngram.trainTables, hn, hrun]
  refine ⟨m'.ngrams 0, horder', ?_, ?_, ?_, ?_, ?_, ?_, ?_, ?_⟩
  · simp [horder']
  · intro o ho
    simp [horder', ho, hhigh o ho]
  · intro o ho
    exact (hbelow o ho).1.trans (by rw [hhigh o ho])
  · intro o ho
    have hge : ¬ o < n + 1 := by omega
    simp only [horder', if_neg hge, hlogp, hlogp₀]
    rfl
  · intro o ho
    change m'.bow o = _
    rw [(habove o ho).2, hbow₀]
    rfl
  · intro k hk
    rcases Dict.mem_keys_iff.mp hk with ⟨i, hi⟩
    rw [hwords k] at hi
    by_cases hcount : k ∈ (counted pre post lines 0).keys
    · exact length_of_mem_counted hcount
    · rw [if_neg hcount] at hi
      by_cases hctx : 0 < n ∧ ofContext (counted pre post lines 1) k ≠ []
      · rcases exists_ngram_of_context hctx.2 with ⟨k', hk', rfl⟩
        rw [List.length_dropLast, length_of_mem_counted hk']
      · rw [if_neg hctx] at hi
        cases hi
  · intro k i hi
    rw [hwords k, if_pos (Dict.mem_keys_iff.mpr ⟨i, hi⟩), hi]
  · intro k hk hnot
    rcases Dict.mem_keys_iff.mp hk with ⟨i, hi⟩
    rw [hi]
    rw [hwords k, if_neg hnot] at hi
    by_cases hctx : 0 < n ∧ ofContext (counted pre post lines 1) k ≠ []
    · rw [if_pos hctx] at hi
      exact hi.symm
    · rw [if_neg hctx] at hi
      cases hi

end Training

end Carmel.Sblm
