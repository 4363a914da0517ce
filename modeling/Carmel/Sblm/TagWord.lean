/-
# Words under their tags

`tag_word_unigram` shares out the probability of a tag among the words counted with it and
the unknown word, mixed with the probabilities of all words. A word that was never counted
gets the unknown word's share through a natural logarithm, where all others are to base 10,
and without the weight of the tag.
-/

import Carmel.Sblm.Interp
import Carmel.Sblm.ParentCounts

namespace Carmel.Sblm

open Carmel.Math

universe u

section Code

variable {T W K : Type u} [DecidableEq T] [DecidableEq W] [Field K]

/-- `log_prob`, where `tenPowLog p` is `10.**math.log(p)`. Like `log10_0prob`, `log_zero` is the
logarithm of zero. -/
def logProb [DecidableEq K] (tenPowLog : K → K) (p : K) : Log10 K :=
  if p = 0 then .zeroProb else ⟨tenPowLog p⟩

/-- `tag_word_unigram` once it has probabilities. -/
structure TagWordProbs (T W K : Type u) where
  tagword : Dict (T × W) K
  word : Dict W K
  boForTag : Dict T K
  logpUnk : Log10 K

/-- `tag_word_unigram` once it has logarithms. -/
structure TagWordUnigram (T W K : Type u) where
  tagword : Dict (T × W) (Log10 K)
  word : Dict W (Log10 K)
  boForTag : Dict T (Log10 K)
  logpUnk : Log10 K

/-- `normalize`, which fails when it divides by zero. -/
def TagWordCounts.normalize [DecidableEq K] (tenPowLog : K → K) (c : TagWordCounts T W) (bo : K)
    (logpUnk : Log10 K) (wittenBell : Bool) (unkword : Option W) : Option (TagWordProbs T W K) :=
  let tsums := Dict.tally (fun e => e.1.1) (fun e => e.2) c.tagword.entries .empty
  let ttypes := Dict.tally (fun e => e.1.1) (fun _ => 1) c.tagword.entries .empty
  let nw1 := c.tagword.entries.countP (·.2 = 1)
  let wsum := (c.tagword.entries.map fun e => e.2).sum + if unkword.isSome then nw1 else 0
  let word := c.word.mapValues fun _ (n : ℕ) => (n : K) / (wsum : ℕ)
  let tagword := c.tagword.mapValues fun tw (n : ℕ) => (n : K) / ((tsums.get? tw.1).getD 0 : ℕ)
  let boForTag := ttypes.mapValues fun t (ntype : ℕ) =>
    if wittenBell then (ntype : K) / ((tsums.get? t).getD 0 : ℕ) else bo
  match unkword with
  | none => some ⟨tagword, word, boForTag, logpUnk⟩
  | some unk =>
    if wsum = 0 then none
    else
      let punk := (nw1 : K) / (wsum : ℕ)
      some ⟨tagword, word.set unk punk, boForTag, logProb tenPowLog punk⟩

/-- `precompute_interp`. -/
def TagWordProbs.precomputeInterp (m : TagWordProbs T W K) : Option (TagWordProbs T W K) := do
  let tagword ← m.tagword.mapValues? fun tw oldp => do
    let a ← m.boForTag.get? tw.1
    return (1 - a) * oldp + a * (m.word.get? tw.2).getD 0
  return { m with tagword := tagword }

variable [LinearOrder K]

/-- A loop of `to_logp`. -/
def toLogs {J : Type u} (d : Dict J K) : Option (Dict J (Log10 K)) :=
  if ∀ e ∈ d.entries, (log10Prob e.2).isSome then
    some (d.mapValues fun _ p => (log10Prob p).getD .zeroProb)
  else none

/-- `to_logp`. -/
def TagWordProbs.toLogp (m : TagWordProbs T W K) : Option (TagWordUnigram T W K) := do
  let word ← toLogs m.word
  let tagword ← toLogs m.tagword
  let boForTag ← toLogs m.boForTag
  return ⟨tagword, word, boForTag, m.logpUnk⟩

/-- `train` of a `tag_word_unigram(bo, logp_unk=..)` with its counts. -/
def TagWordCounts.train (tenPowLog : K → K) (c : TagWordCounts T W) (bo : K) (logpUnk : Log10 K)
    (wittenBell : Bool) (unkword : Option W) : Option (TagWordUnigram T W K) := do
  let m ← c.normalize tenPowLog bo logpUnk wittenBell unkword
  let m ← m.precomputeInterp
  m.toLogp

/-- `logp_tw_known`, which fails for a tag without a weight. -/
def TagWordUnigram.logpTwKnown (m : TagWordUnigram T W K) (tw : T × W) : Option (Log10 K × Bool) :=
  match m.tagword.get? tw with
  | some l => some (l, true)
  | none =>
    match m.word.get? tw.2 with
    | some l => (m.boForTag.get? tw.1).map fun bo => (bo + l, true)
    | none => some (m.logpUnk, false)

/-- `logp`. -/
def TagWordUnigram.logp (m : TagWordUnigram T W K) (t : T) (w : W) : Option (Log10 K) :=
  (m.logpTwKnown (t, w)).map Prod.fst

/-- The probabilities of some words after a tag. -/
def TagWordUnigram.probs (m : TagWordUnigram T W K) (t : T) (ws : List W) : Option (List K) :=
  ws.mapM fun w => (m.logp t w).map Log10.exp10

/-- What is counted for some tagged words. -/
def countPairs (pairs : List (T × W)) : TagWordCounts T W :=
  pairs.foldl TagWordCounts.countTw ⟨.empty, .empty⟩

end Code

section Pairs

variable {T W : Type u} [DecidableEq T] [DecidableEq W] (pairs : List (T × W))

/-- The tokens of a type. -/
def countOf (tw : T × W) : ℕ := pairs.countP (· = tw)

/-- The tokens of a word. -/
def countOfWord (w : W) : ℕ := pairs.countP (·.2 = w)

/-- The tokens with a tag. -/
def tokensOf (t : T) : ℕ := pairs.countP (·.1 = t)

/-- The types with a tag. -/
def typesOf (t : T) : ℕ := pairs.dedup.countP (·.1 = t)

/-- The types that were counted once. -/
def countedOnce : ℕ := pairs.dedup.countP (countOf pairs · = 1)

/-- The tokens, and one more for each type that was counted once. -/
def allMass : ℕ := pairs.length + countedOnce pairs

variable {pairs} {t : T} {w : W}

theorem tables_countPairs : countPairs pairs =
    ⟨Dict.tally id (fun _ => 1) pairs .empty, Dict.tally Prod.snd (fun _ => 1) pairs .empty⟩ := by
  have hfold : ∀ c : TagWordCounts T W, pairs.foldl TagWordCounts.countTw c =
      ⟨Dict.tally id (fun _ => 1) pairs c.tagword, Dict.tally Prod.snd (fun _ => 1) pairs c.word⟩ := by
    induction pairs with
    | nil => exact fun _ => rfl
    | cons p pairs ih => exact fun c => ih (c.countTw p)
  exact hfold _

theorem get?_tagword_countPairs (tw : T × W) : (countPairs pairs).tagword.get? tw =
    if tw ∈ pairs then some (countOf pairs tw) else none := by
  rw [tables_countPairs, Dict.get?_tally_one, List.map_id]
  by_cases h : tw ∈ pairs
  · rw [if_pos h, if_pos h]
    rfl
  · rw [if_neg h, if_neg h]

theorem get?_word_countPairs (w : W) : (countPairs pairs).word.get? w =
    if w ∈ pairs.map Prod.snd then some (countOfWord pairs w) else none := by
  rw [tables_countPairs, Dict.get?_tally_one]
  rfl

theorem mem_keys_word_countPairs : w ∈ (countPairs pairs).word.keys ↔ w ∈ pairs.map Prod.snd := by
  rw [Dict.mem_keys_iff, get?_word_countPairs]
  by_cases hw : w ∈ pairs.map Prod.snd
  · rw [if_pos hw]
    exact iff_of_true ⟨_, rfl⟩ hw
  · simp [hw]

theorem entries_tagword_perm : (countPairs pairs).tagword.entries.Perm
    (pairs.dedup.map fun tw => (tw, countOf pairs tw)) := by
  apply Dict.entries_perm_of_get? (List.nodup_dedup pairs)
  intro tw
  rw [get?_tagword_countPairs]
  simp only [List.mem_dedup]

theorem sum_entries_tagword :
    ((countPairs pairs).tagword.entries.map fun e => e.2).sum = pairs.length := by
  rw [(entries_tagword_perm.map _).sum_eq, List.map_map]
  exact List.sum_map_count_dedup_eq_length pairs

theorem countP_entries_tagword :
    (countPairs pairs).tagword.entries.countP (·.2 = 1) = countedOnce pairs := by
  rw [entries_tagword_perm.countP_eq, List.countP_map]
  rfl

theorem getD_tsums (t : T) : ((Dict.tally (fun e => e.1.1) (fun e => e.2)
    (countPairs pairs).tagword.entries .empty).get? t).getD 0 = tokensOf pairs t := by
  rw [Dict.getD_tally, Dict.get?_empty, Option.getD_none, Nat.zero_add,
    ((entries_tagword_perm.filter _).map _).sum_eq, List.filter_map, List.map_map]
  exact List.sum_map_count_dedup_filter_eq_countP (fun tw => decide (tw.1 = t)) pairs

theorem get?_ttypes (t : T) : (Dict.tally (fun e => e.1.1) (fun _ => 1)
    (countPairs pairs).tagword.entries .empty).get? t =
      if t ∈ pairs.map Prod.fst then some (typesOf pairs t) else none := by
  have hmem : t ∈ (countPairs pairs).tagword.entries.map (fun e => e.1.1) ↔
      t ∈ pairs.map Prod.fst := by
    rw [(entries_tagword_perm.map _).mem_iff, List.map_map]
    simp
  rw [Dict.get?_tally_one, entries_tagword_perm.countP_eq, List.countP_map]
  simp only [hmem]
  rfl

end Pairs

section Training

variable {T W K : Type u} [DecidableEq T] [DecidableEq W] [Field K] [LinearOrder K]
variable (tenPowLog : K → K) (wittenBell : Bool) (bo : K) (unk : W) (pairs : List (T × W))

/-- The weight of the words in general after a tag. -/
def tagWeight (t : T) : K :=
  if wittenBell then (typesOf pairs t : K) / (tokensOf pairs t : ℕ) else bo

/-- The share of a word, where the token for the unknown word has that of the types that were
counted once. -/
def wordShare (w : W) : K :=
  if w = unk then (countedOnce pairs : K) / (allMass pairs : ℕ)
  else (countOfWord pairs w : K) / (allMass pairs : ℕ)

/-- The share of a word after a tag. -/
def mixedShare (tw : T × W) : K :=
  (1 - tagWeight wittenBell bo pairs tw.1) * ((countOf pairs tw : K) / (tokensOf pairs tw.1 : ℕ)) +
    tagWeight wittenBell bo pairs tw.1 * wordShare unk pairs tw.2

/-- The logarithm that the unknown word gets. -/
def unkLog : Log10 K := logProb tenPowLog ((countedOnce pairs : K) / (allMass pairs : ℕ))

/-- The probabilities before they are mixed. -/
structure Normalized (m : TagWordProbs T W K) : Prop where
  tagword : ∀ tw, m.tagword.get? tw =
    if tw ∈ pairs then some ((countOf pairs tw : K) / (tokensOf pairs tw.1 : ℕ)) else none
  word : ∀ w, m.word.get? w =
    if w = unk ∨ w ∈ pairs.map Prod.snd then some (wordShare unk pairs w) else none
  boForTag : ∀ t, m.boForTag.get? t =
    if t ∈ pairs.map Prod.fst then some (tagWeight wittenBell bo pairs t) else none
  logpUnk : m.logpUnk = unkLog tenPowLog pairs

/-- The logarithms in the end. -/
structure TrainedTags (m : TagWordUnigram T W K) : Prop where
  tagword : ∀ tw, m.tagword.get? tw =
    if tw ∈ pairs then some ⟨mixedShare wittenBell bo unk pairs tw⟩ else none
  word : ∀ w, m.word.get? w =
    if w = unk ∨ w ∈ pairs.map Prod.snd then some ⟨wordShare unk pairs w⟩ else none
  boForTag : ∀ t, m.boForTag.get? t =
    if t ∈ pairs.map Prod.fst then some ⟨tagWeight wittenBell bo pairs t⟩ else none
  logpUnk : m.logpUnk = unkLog tenPowLog pairs

variable {tenPowLog wittenBell bo unk pairs}
variable (tenPowLog wittenBell bo unk) in

theorem exists_normalized (hne : pairs ≠ []) (logpUnk : Log10 K) :
    ∃ m, (countPairs pairs).normalize tenPowLog bo logpUnk wittenBell (some unk) = some m ∧
      Normalized tenPowLog wittenBell bo unk pairs m := by
  have hmass : ¬ pairs.length + countedOnce pairs = 0 := by
    have hpos := List.length_pos_of_ne_nil hne
    omega
  have hrun : ∃ m, (countPairs pairs).normalize tenPowLog bo logpUnk wittenBell (some unk) =
      some m := by
    rw [TagWordCounts.normalize]
    simp only [Option.isSome_some, if_true, sum_entries_tagword, countP_entries_tagword,
      if_neg hmass]
    exact ⟨_, rfl⟩
  rcases hrun with ⟨m, hm⟩
  refine ⟨m, hm, ?_⟩
  rw [TagWordCounts.normalize] at hm
  simp only [Option.isSome_some, if_true, sum_entries_tagword, countP_entries_tagword,
    if_neg hmass, Option.some.injEq] at hm
  subst hm
  constructor
  · intro tw
    rw [Dict.get?_mapValues, get?_tagword_countPairs]
    by_cases htw : tw ∈ pairs
    · rw [if_pos htw, if_pos htw, Option.map_some, getD_tsums]
    · rw [if_neg htw, if_neg htw, Option.map_none]
  · intro w
    rw [Dict.get?_set, Dict.get?_mapValues, get?_word_countPairs, wordShare]
    by_cases hunk : w = unk
    · simp only [hunk, true_or, if_true]
      rfl
    · by_cases hw : w ∈ pairs.map Prod.snd
      · simp only [hunk, hw, or_true, if_true, if_false, Option.map_some]
        rfl
      · simp [hunk, hw]
  · intro t
    rw [Dict.get?_mapValues, get?_ttypes, tagWeight]
    by_cases ht : t ∈ pairs.map Prod.fst
    · rw [if_pos ht, if_pos ht, Option.map_some, getD_tsums]
    · rw [if_neg ht, if_neg ht, Option.map_none]
  · rfl

/-- The shares are mixed where there is a weight for every tag. -/
theorem Normalized.exists_mixed {m : TagWordProbs T W K}
    (h : Normalized tenPowLog wittenBell bo unk pairs m) :
    ∃ m', m.precomputeInterp = some m' ∧ m'.word = m.word ∧ m'.boForTag = m.boForTag ∧
      m'.logpUnk = m.logpUnk ∧ ∀ tw, m'.tagword.get? tw =
        if tw ∈ pairs then some (mixedShare wittenBell bo unk pairs tw) else none := by
  have hentry : ∀ tw p, m.tagword.get? tw = some p → tw ∈ pairs ∧
      (do let a ← m.boForTag.get? tw.1; return (1 - a) * p + a * (m.word.get? tw.2).getD 0) =
        some (mixedShare wittenBell bo unk pairs tw) := by
    intro tw p hp
    rw [h.tagword] at hp
    by_cases htw : tw ∈ pairs
    · rw [if_pos htw, Option.some.injEq] at hp
      have ht : tw.1 ∈ pairs.map Prod.fst := List.mem_map_of_mem htw
      have hw : tw.2 = unk ∨ tw.2 ∈ pairs.map Prod.snd := Or.inr (List.mem_map_of_mem htw)
      rw [h.boForTag, if_pos ht, h.word, if_pos hw, ← hp]
      exact ⟨htw, rfl⟩
    · rw [if_neg htw] at hp
      cases hp
  rcases Dict.exists_mapValues? (d := m.tagword)
    (f := fun tw p => do
      let a ← m.boForTag.get? tw.1
      return (1 - a) * p + a * (m.word.get? tw.2).getD 0)
    (fun e he => ⟨_, (hentry e.1 e.2 (Dict.mem_entries_iff.mp he)).2⟩) with ⟨d, hd⟩
  refine ⟨{ m with tagword := d }, ?_, rfl, rfl, rfl, ?_⟩
  · rw [TagWordProbs.precomputeInterp, hd]
    rfl
  · intro tw
    by_cases htw : tw ∈ pairs
    · have hget := h.tagword tw
      rw [if_pos htw] at hget
      rw [if_pos htw]
      exact Dict.get?_of_mapValues? hd hget (hentry tw _ hget).2
    · have hkeys := Dict.keys_of_mapValues? hd
      have hget := h.tagword tw
      rw [if_neg htw, Dict.get?_eq_none_iff, ← hkeys] at hget
      rw [if_neg htw]
      exact Dict.get?_eq_none_iff.mpr hget

end Training

section Logs

variable {J K : Type u} [DecidableEq J] [Field K] [LinearOrder K] {d : Dict J K}

theorem log10Prob_eq {p : K} : log10Prob p = if 0 ≤ p then some ⟨p⟩ else none := by
  by_cases hp : 0 ≤ p
  · rw [if_pos hp, log10Prob_of_nonneg hp]
  · have hne : p ≠ 0 := fun heq => hp (le_of_eq heq.symm)
    rw [if_neg hp, log10Prob, if_neg hne, log10, if_pos (le_of_not_ge hp)]

omit [DecidableEq J] in
theorem exists_toLogs (h : ∀ e ∈ d.entries, 0 ≤ e.2) : ∃ d', toLogs d = some d' := by
  refine ⟨_, if_pos ?_⟩
  intro e he
  rw [log10Prob_eq, if_pos (h e he)]
  rfl

theorem get?_of_toLogs {d' : Dict J (Log10 K)} (h : toLogs d = some d') (j : J) :
    d'.get? j = (d.get? j).map Log10.mk := by
  rw [toLogs] at h
  by_cases hall : ∀ e ∈ d.entries, (log10Prob e.2).isSome
  · rw [if_pos hall, Option.some.injEq] at h
    rw [← h, Dict.get?_mapValues]
    cases hget : d.get? j with
    | none => rfl
    | some p =>
      have hsome := hall (j, p) (Dict.mem_entries_iff.mpr hget)
      rw [log10Prob_eq] at hsome
      rw [Option.map_some, Option.map_some, log10Prob_eq]
      by_cases hp : 0 ≤ p
      · rw [if_pos hp, Option.getD_some]
      · rw [if_neg hp] at hsome
        cases hsome
  · rw [if_neg hall] at h
    cases h

end Logs

section Trained

variable {T W K : Type u} [DecidableEq T] [DecidableEq W] [Field K] [LinearOrder K]
variable {tenPowLog : K → K} {wittenBell : Bool} {bo : K} {unk : W} {pairs : List (T × W)}
variable {logpUnk : Log10 K}

theorem trainedTags_of_train (hne : pairs ≠ []) {m : TagWordUnigram T W K}
    (h : (countPairs pairs).train tenPowLog bo logpUnk wittenBell (some unk) = some m) :
    TrainedTags tenPowLog wittenBell bo unk pairs m := by
  rcases exists_normalized tenPowLog wittenBell bo unk hne logpUnk with ⟨m₁, hrun₁, hm₁⟩
  rcases hm₁.exists_mixed with ⟨m₂, hrun₂, hword, hbo, hunk, htagword⟩
  rw [TagWordCounts.train, hrun₁, Option.bind_eq_bind, Option.bind_some, hrun₂,
    Option.bind_some] at h
  rcases Option.bind_eq_some_iff.mp h with ⟨word, hlogs, h⟩
  rcases Option.bind_eq_some_iff.mp h with ⟨tagword, hlogs', h⟩
  rcases Option.bind_eq_some_iff.mp h with ⟨boForTag, hlogs'', h⟩
  cases h
  constructor
  · intro tw
    rw [get?_of_toLogs hlogs', htagword]
    by_cases htw : tw ∈ pairs
    · rw [if_pos htw, if_pos htw, Option.map_some]
    · rw [if_neg htw, if_neg htw, Option.map_none]
  · intro w
    rw [get?_of_toLogs hlogs, hword, hm₁.word]
    by_cases hw : w = unk ∨ w ∈ pairs.map Prod.snd
    · rw [if_pos hw, if_pos hw, Option.map_some]
    · rw [if_neg hw, if_neg hw, Option.map_none]
  · intro t
    rw [get?_of_toLogs hlogs'', hbo, hm₁.boForTag]
    by_cases ht : t ∈ pairs.map Prod.fst
    · rw [if_pos ht, if_pos ht, Option.map_some]
    · rw [if_neg ht, if_neg ht, Option.map_none]
  · exact hunk.trans hm₁.logpUnk

variable [IsStrictOrderedRing K]

theorem wordShare_nonneg (w : W) : (0 : K) ≤ wordShare unk pairs w := by
  rw [wordShare]
  by_cases hw : w = unk
  · rw [if_pos hw]
    exact div_nonneg (Nat.cast_nonneg _) (Nat.cast_nonneg _)
  · rw [if_neg hw]
    exact div_nonneg (Nat.cast_nonneg _) (Nat.cast_nonneg _)

variable (pairs) in
/-- A weight is between 0 and 1, if the one that is given is. -/
theorem tagWeight_mem (hbo : wittenBell = true ∨ 0 ≤ bo ∧ bo ≤ 1) (t : T) :
    0 ≤ tagWeight wittenBell bo pairs t ∧ tagWeight wittenBell bo pairs t ≤ 1 := by
  rw [tagWeight]
  cases wittenBell with
  | true =>
    have hle : typesOf pairs t ≤ tokensOf pairs t :=
      List.Sublist.countP_le (List.dedup_sublist pairs)
    constructor
    · exact div_nonneg (Nat.cast_nonneg _) (Nat.cast_nonneg _)
    · exact div_le_one_of_le₀ (Nat.cast_le.mpr hle) (Nat.cast_nonneg _)
  | false =>
    rcases hbo with hfalse | hbo
    · cases hfalse
    · exact hbo

theorem mixedShare_nonneg (hbo : wittenBell = true ∨ 0 ≤ bo ∧ bo ≤ 1) (tw : T × W) :
    0 ≤ mixedShare wittenBell bo unk pairs tw := by
  rcases tagWeight_mem pairs hbo tw.1 with ⟨hpos, hle⟩
  apply add_nonneg
  · exact mul_nonneg (sub_nonneg.mpr hle) (div_nonneg (Nat.cast_nonneg _) (Nat.cast_nonneg _))
  · exact mul_nonneg hpos (wordShare_nonneg tw.2)

omit [DecidableEq T] [DecidableEq W] [Field K] [IsStrictOrderedRing K] in
theorem nonneg_of_get? {J : Type u} [DecidableEq J] [Zero K] {d : Dict J K} {c : J → Prop}
    [DecidablePred c] {f : J → K} (hget : ∀ j, d.get? j = if c j then some (f j) else none)
    (hf : ∀ j, 0 ≤ f j) : ∀ e ∈ d.entries, 0 ≤ e.2 := by
  intro e he
  have hentry := Dict.mem_entries_iff.mp he
  rw [hget] at hentry
  by_cases hc : c e.1
  · rw [if_pos hc, Option.some.injEq] at hentry
    rw [← hentry]
    exact hf e.1
  · rw [if_neg hc] at hentry
    cases hentry

theorem exists_train (hne : pairs ≠ []) (hbo : wittenBell = true ∨ 0 ≤ bo ∧ bo ≤ 1) :
    ∃ m, (countPairs pairs).train tenPowLog bo logpUnk wittenBell (some unk) = some m := by
  rcases exists_normalized tenPowLog wittenBell bo unk hne logpUnk with ⟨m₁, hrun₁, hm₁⟩
  rcases hm₁.exists_mixed with ⟨m₂, hrun₂, hword, hbo', -, htagword⟩
  rcases exists_toLogs (nonneg_of_get? (hword ▸ hm₁.word) wordShare_nonneg) with ⟨word, hlogs⟩
  rcases exists_toLogs (nonneg_of_get? htagword (mixedShare_nonneg hbo)) with ⟨tagword, hlogs'⟩
  rcases exists_toLogs (nonneg_of_get? (hbo' ▸ hm₁.boForTag) fun t => (tagWeight_mem _ hbo t).1)
    with ⟨boForTag, hlogs''⟩
  refine ⟨⟨tagword, word, boForTag, m₂.logpUnk⟩, ?_⟩
  simp only [TagWordCounts.train, hrun₁, hrun₂, TagWordProbs.toLogp, hlogs, hlogs', hlogs'',
    Option.bind_eq_bind, Option.bind_some, Option.pure_def]

end Trained

section Totals

variable {T W K : Type u} [DecidableEq T] [DecidableEq W] [Field K]
variable {wittenBell : Bool} {bo : K} {unk v w : W} {t : T} {pairs : List (T × W)}

theorem sum_countOf {S : Finset W} (hS : ∀ tw ∈ pairs, tw.2 ∈ S) (t : T) :
    ∑ w ∈ S, countOf pairs (t, w) = tokensOf pairs t := by
  induction pairs with
  | nil => exact Finset.sum_const_zero
  | cons tw pairs ih =>
    have htail := ih fun tw' htw' => hS tw' (List.mem_cons_of_mem _ htw')
    have hhead : (∑ w ∈ S, if tw = (t, w) then 1 else 0) = if tw.1 = t then 1 else 0 := by
      by_cases ht : tw.1 = t
      · have hmem := hS tw List.mem_cons_self
        simp [Prod.ext_iff, ht, hmem]
      · simp [Prod.ext_iff, ht]
    simp only [countOf, tokensOf, List.countP_cons, decide_eq_true_eq] at htail ⊢
    rw [Finset.sum_add_distrib, htail, hhead]

omit [DecidableEq T] in
theorem sum_countOfWord {S : Finset W} (hS : ∀ tw ∈ pairs, tw.2 ∈ S) :
    ∑ w ∈ S, countOfWord pairs w = pairs.length := by
  induction pairs with
  | nil => exact Finset.sum_const_zero
  | cons tw pairs ih =>
    have htail := ih fun tw' htw' => hS tw' (List.mem_cons_of_mem _ htw')
    have hmem := hS tw List.mem_cons_self
    simp only [countOfWord, List.countP_cons, decide_eq_true_eq] at htail ⊢
    rw [Finset.sum_add_distrib, htail, Finset.sum_ite_eq, if_pos hmem, List.length_cons]

/-- What the words that were counted lack of the whole: the share of the unknown word, or what
its token was counted. -/
def lostShare (K : Type u) [Field K] (unk : W) (pairs : List (T × W)) : K :=
  ((if unk ∈ pairs.map Prod.snd then countOfWord pairs unk else countedOnce pairs : ℕ) : K) /
    (allMass pairs : ℕ)

variable [CharZero K]

theorem cast_allMass_ne_zero (hne : pairs ≠ []) : ((allMass pairs : ℕ) : K) ≠ 0 := by
  have hpos := List.length_pos_of_ne_nil hne
  rw [Nat.cast_ne_zero, allMass]
  omega

theorem sum_wordShare (hne : pairs ≠ []) {S : Finset W}
    (hS : ∀ w, w ∈ S ↔ w ∈ pairs.map Prod.snd) :
    ∑ w ∈ S, (wordShare unk pairs w : K) = 1 - lostShare K unk pairs := by
  have hM := cast_allMass_ne_zero (K := K) hne
  have hsum : (∑ w ∈ S, (countOfWord pairs w : K)) = pairs.length := by
    rw [← Nat.cast_sum, sum_countOfWord fun tw htw => (hS _).mpr (List.mem_map_of_mem htw)]
  have hsplit : ∀ w ∈ S, (wordShare unk pairs w : K) =
      (countOfWord pairs w : K) / (allMass pairs : ℕ) +
        if w = unk then ((countedOnce pairs : K) - countOfWord pairs unk) / (allMass pairs : ℕ)
        else 0 := by
    intro w _
    rw [wordShare]
    by_cases hw : w = unk
    · rw [if_pos hw, if_pos hw, hw]
      ring
    · rw [if_neg hw, if_neg hw, add_zero]
  have hmass : ((allMass pairs : ℕ) : K) = pairs.length + countedOnce pairs := Nat.cast_add _ _
  rw [Finset.sum_congr rfl hsplit, Finset.sum_add_distrib, ← Finset.sum_div, hsum,
    Finset.sum_ite_eq', lostShare]
  by_cases hunk : unk ∈ pairs.map Prod.snd
  · rw [if_pos ((hS unk).mpr hunk), if_pos hunk, ← add_div, eq_sub_iff_add_eq, ← add_div,
      div_eq_one_iff_eq hM, hmass]
    ring
  · rw [if_neg fun hmem => hunk ((hS unk).mp hmem), if_neg hunk, add_zero, eq_sub_iff_add_eq,
      ← add_div, div_eq_one_iff_eq hM, hmass]

/-- The words that were counted together. -/
theorem sum_mixedShare (hne : pairs ≠ []) {S : Finset W}
    (hS : ∀ w, w ∈ S ↔ w ∈ pairs.map Prod.snd) (ht : t ∈ pairs.map Prod.fst) :
    ∑ w ∈ S, mixedShare wittenBell bo unk pairs (t, w) =
      1 - tagWeight wittenBell bo pairs t * lostShare K unk pairs := by
  have htokens : ((tokensOf pairs t : ℕ) : K) ≠ 0 := by
    rw [Nat.cast_ne_zero, tokensOf, ← Nat.pos_iff_ne_zero, List.countP_pos_iff]
    rcases List.mem_map.mp ht with ⟨tw, htw, rfl⟩
    exact ⟨tw, htw, by simp⟩
  have hsum : (∑ w ∈ S, (countOf pairs (t, w) : K)) = tokensOf pairs t := by
    rw [← Nat.cast_sum, sum_countOf fun tw htw => (hS _).mpr (List.mem_map_of_mem htw)]
  simp only [mixedShare]
  rw [Finset.sum_add_distrib, ← Finset.mul_sum, ← Finset.mul_sum, ← Finset.sum_div, hsum,
    div_self htokens, sum_wordShare hne hS]
  ring

omit [CharZero K]

/-- A tag and a word that were not counted together. -/
theorem mixedShare_of_notMem (h : (t, w) ∉ pairs) : mixedShare wittenBell bo unk pairs (t, w) =
    tagWeight wittenBell bo pairs t * wordShare unk pairs w := by
  have hcount : countOf pairs (t, w) = 0 := by
    rw [countOf, List.countP_eq_zero]
    rintro tw htw htrue
    exact h ((of_decide_eq_true htrue) ▸ htw)
  simp [mixedShare, hcount]

/-- The share of the token for the unknown word, if it was not counted. -/
theorem wordShare_unk (h : unk ∉ pairs.map Prod.snd) :
    (wordShare unk pairs unk : K) = lostShare K unk pairs := by
  rw [wordShare, if_pos rfl, lostShare, if_neg h]

variable [LinearOrder K] {tenPowLog : K → K} {m : TagWordUnigram T W K}

theorem TrainedTags.logp_known (h : TrainedTags tenPowLog wittenBell bo unk pairs m)
    (ht : t ∈ pairs.map Prod.fst) (hw : w = unk ∨ w ∈ pairs.map Prod.snd) :
    m.logp t w = some ⟨mixedShare wittenBell bo unk pairs (t, w)⟩ := by
  rw [TagWordUnigram.logp, TagWordUnigram.logpTwKnown, h.tagword]
  by_cases htw : (t, w) ∈ pairs
  · rw [if_pos htw, Option.map_some]
  · rw [if_neg htw, mixedShare_of_notMem htw]
    simp only [h.word, if_pos hw, h.boForTag, if_pos ht, Option.map_some]
    rfl

theorem TrainedTags.logp_unknown (h : TrainedTags tenPowLog wittenBell bo unk pairs m)
    (hw : ¬ (w = unk ∨ w ∈ pairs.map Prod.snd)) : m.logp t w = some (unkLog tenPowLog pairs) := by
  have htw : (t, w) ∉ pairs := fun hmem => hw (Or.inr (List.mem_map_of_mem hmem))
  rw [TagWordUnigram.logp, TagWordUnigram.logpTwKnown, h.tagword, if_neg htw]
  simp only [h.word, if_neg hw, Option.map_some, h.logpUnk]

theorem mapM_eq_some_map {α β : Type*} {f : α → Option β} {g : α → β} {l : List α}
    (h : ∀ x ∈ l, f x = some (g x)) : l.mapM f = some (l.map g) := by
  induction l with
  | nil => rfl
  | cons x l ih =>
    have htail := ih fun y hy => h y (List.mem_cons_of_mem _ hy)
    simp [List.mapM_cons, h x List.mem_cons_self, htail]

/-- The probability of a word after a tag. -/
def tagProb (tenPowLog : K → K) (wittenBell : Bool) (bo : K) (unk : W) (pairs : List (T × W))
    (t : T) (w : W) : K :=
  if w = unk ∨ w ∈ pairs.map Prod.snd then mixedShare wittenBell bo unk pairs (t, w)
  else (unkLog tenPowLog pairs).exp10

theorem TrainedTags.probs_eq (h : TrainedTags tenPowLog wittenBell bo unk pairs m)
    (ht : t ∈ pairs.map Prod.fst) (ws : List W) :
    m.probs t ws = some (ws.map (tagProb tenPowLog wittenBell bo unk pairs t)) := by
  apply mapM_eq_some_map
  intro w _
  rw [tagProb]
  by_cases hw : w = unk ∨ w ∈ pairs.map Prod.snd
  · rw [h.logp_known ht hw, if_pos hw, Option.map_some]
  · rw [h.logp_unknown hw, if_neg hw, Option.map_some]

variable [CharZero K]

/-- The total of the words that were counted and one that was not. -/
theorem sum_tagProb (hne : pairs ≠ []) (ht : t ∈ pairs.map Prod.fst)
    (hv : v ∉ pairs.map Prod.snd) :
    (((countPairs pairs).word.keys ++ [v]).map
        (tagProb tenPowLog wittenBell bo unk pairs t)).sum = 1 ↔
      v = unk ∨ (unkLog tenPowLog pairs).exp10 =
        tagWeight wittenBell bo pairs t * lostShare K unk pairs := by
  have hwords : ((countPairs pairs).word.keys.map
      (tagProb tenPowLog wittenBell bo unk pairs t)).sum =
        1 - tagWeight wittenBell bo pairs t * lostShare K unk pairs := by
    rw [← List.sum_toFinset _ (countPairs pairs).word.nodup_keys,
      ← sum_mixedShare hne (S := (countPairs pairs).word.keys.toFinset)
        (fun w => List.mem_toFinset.trans mem_keys_word_countPairs) ht]
    refine Finset.sum_congr rfl fun w hw => ?_
    rw [List.mem_toFinset, mem_keys_word_countPairs] at hw
    rw [tagProb, if_pos (Or.inr hw)]
  rw [List.map_append, List.sum_append, List.map_singleton, List.sum_singleton, hwords]
  by_cases hunk : v = unk
  · subst hunk
    have hpair : (t, v) ∉ pairs := fun hmem => hv (List.mem_map_of_mem hmem)
    rw [tagProb, if_pos (Or.inl rfl), mixedShare_of_notMem hpair, wordShare_unk hv]
    simp
  · have hknown : ¬ (v = unk ∨ v ∈ pairs.map Prod.snd) := fun h => h.elim hunk hv
    rw [tagProb, if_neg hknown, or_iff_right hunk]
    constructor
    · intro h
      linear_combination h
    · intro h
      linear_combination h

end Totals

section Real

variable {T W : Type} [DecidableEq T] [DecidableEq W] {pairs : List (T × W)}

/-- The probability that a natural logarithm is taken for. -/
theorem exp10_unkLog :
    (unkLog (fun p : ℝ => (10 : ℝ) ^ Real.log p) pairs).exp10 =
      ((countedOnce pairs : ℝ) / (allMass pairs : ℕ)) ^ Real.log 10 := by
  have hten : Real.log 10 ≠ 0 := (Real.log_pos (by norm_num)).ne'
  rw [unkLog, logProb]
  by_cases hzero : (countedOnce pairs : ℝ) / (allMass pairs : ℕ) = 0
  · rw [if_pos hzero, hzero, Real.zero_rpow hten]
    rfl
  · have hpos : 0 < (countedOnce pairs : ℝ) / (allMass pairs : ℕ) :=
      lt_of_le_of_ne (div_nonneg (Nat.cast_nonneg _) (Nat.cast_nonneg _)) (Ne.symm hzero)
    rw [if_neg hzero, Real.rpow_def_of_pos hpos, Real.rpow_def_of_pos (by norm_num), mul_comm]

/-- Trained with a token for the unknown word, every tag gives the words that were counted and
one more total probability 1 exactly when that word is the token, or after every tag the power
of the share of the types counted once is what the words lack of the whole. -/
theorem TagWordCounts.train_totals_iff (wittenBell : Bool) (bo : ℝ) (logpUnk : Log10 ℝ) (unk v : W)
    (hne : pairs ≠ []) (hv : v ∉ pairs.map Prod.snd) :
    (wittenBell = true ∨ 0 ≤ bo ∧ bo ≤ 1 → ∃ m, (countPairs pairs).train
        (fun p => (10 : ℝ) ^ Real.log p) bo logpUnk wittenBell (some unk) = some m) ∧
      ∀ m, (countPairs pairs).train (fun p => (10 : ℝ) ^ Real.log p) bo logpUnk wittenBell
          (some unk) = some m →
        ((∀ t ∈ pairs.map Prod.fst, ∃ ps,
            m.probs t ((countPairs pairs).word.keys ++ [v]) = some ps ∧ ps.sum = 1) ↔
          v = unk ∨ ∀ t ∈ pairs.map Prod.fst,
            ((countedOnce pairs : ℝ) / (allMass pairs : ℕ)) ^ Real.log 10 =
              tagWeight wittenBell bo pairs t * lostShare ℝ unk pairs) := by
  refine ⟨exists_train hne, ?_⟩
  intro m hrun
  have hm := trainedTags_of_train hne hrun
  have htag : ∀ t ∈ pairs.map Prod.fst,
      (∃ ps, m.probs t ((countPairs pairs).word.keys ++ [v]) = some ps ∧ ps.sum = 1) ↔
        v = unk ∨ ((countedOnce pairs : ℝ) / (allMass pairs : ℕ)) ^ Real.log 10 =
          tagWeight wittenBell bo pairs t * lostShare ℝ unk pairs := by
    intro t ht
    rw [hm.probs_eq ht, ← exp10_unkLog, ← sum_tagProb hne ht hv]
    simp
  by_cases hunk : v = unk
  · exact iff_of_true (fun t ht => (htag t ht).mpr (Or.inl hunk)) (Or.inl hunk)
  · rw [or_iff_right hunk]
    exact forall₂_congr fun t ht => (htag t ht).trans (or_iff_right hunk)

/-- One word under one tag, with the token 1 and the unseen word 2. -/
theorem TagWordCounts.train_totals_iff_one_pair :
    (true = true ∨ (0 : ℝ) ≤ 1 / 10 ∧ (1 / 10 : ℝ) ≤ 1 → ∃ m, (countPairs [((), 0)]).train
        (fun p => (10 : ℝ) ^ Real.log p) (1 / 10) .zeroProb true (some 1) = some m) ∧
      ∀ m, (countPairs [((), 0)]).train (fun p => (10 : ℝ) ^ Real.log p) (1 / 10) .zeroProb true
          (some 1) = some m →
        ((∀ t ∈ [((), 0)].map Prod.fst, ∃ ps,
            m.probs t ((countPairs [((), 0)]).word.keys ++ [2]) = some ps ∧ ps.sum = 1) ↔
          2 = 1 ∨ ∀ t ∈ [((), 0)].map Prod.fst,
            ((countedOnce [((), 0)] : ℝ) / (allMass [((), 0)] : ℕ)) ^ Real.log 10 =
              tagWeight true (1 / 10 : ℝ) [((), 0)] t * lostShare ℝ 1 [((), 0)]) :=
  train_totals_iff true (1 / 10) .zeroProb 1 2 (by decide) (by decide)

/-- Half of the mass is kept for the unknown word, which gets less than a quarter. -/
theorem TagWordCounts.not_total_one_pair :
    ¬ ∃ m, (countPairs [((), 0)]).train (fun p => (10 : ℝ) ^ Real.log p) (1 / 10) .zeroProb true
        (some 1) = some m ∧
      ∀ t ∈ [((), 0)].map Prod.fst, ∃ ps,
        m.probs t ((countPairs [((), 0)]).word.keys ++ [2]) = some ps ∧ ps.sum = 1 := by
  rintro ⟨m, hrun, htotal⟩
  have hne : [((), 0)] ≠ [] := by decide
  have hm := trainedTags_of_train hne hrun
  rcases htotal () (by decide) with ⟨ps, hps, hsum⟩
  rw [hm.probs_eq (by decide), Option.some.injEq] at hps
  rw [← hps, sum_tagProb hne (by decide) (by decide), exp10_unkLog] at hsum
  have honce : countedOnce [((), 0)] = 1 := by decide
  have hmass : allMass [((), 0)] = 2 := by decide
  have htypes : typesOf [((), 0)] () = 1 := by decide
  have htokens : tokensOf [((), 0)] () = 1 := by decide
  have hnot : (1 : ℕ) ∉ [((), 0)].map Prod.snd := by decide
  simp only [tagWeight, lostShare, if_neg hnot, honce, hmass, htypes, htokens, if_true,
    Nat.cast_one, Nat.cast_ofNat, div_one, one_mul] at hsum
  have hlog : (1 : ℝ) < Real.log 10 := by
    rw [Real.lt_log_iff_exp_lt (by norm_num)]
    exact Real.exp_one_lt_three.trans (by norm_num)
  have hlt := Real.rpow_lt_rpow_of_exponent_gt (x := (1 / 2 : ℝ)) (by norm_num) (by norm_num) hlog
  rw [Real.rpow_one] at hlt
  rcases hsum with heq | heq
  · exact absurd heq (by decide)
  · exact hlt.ne heq

end Real

end Carmel.Sblm
