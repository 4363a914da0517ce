/-
# N-gram models

An n-gram model keeps, for each order, the logarithms of the probabilities of its n-grams
and of the backoff weights of its contexts. `interp` mixes every probability with that of
the next lower order in place; `uninterp` takes the mixtures apart.
-/

import Carmel.Math.Dictionary

namespace Carmel.Sblm

open Carmel.Math

universe u v

/-- A logarithm to base 10 in exact arithmetic, held by what `10.**` makes of it. -/
@[ext] structure Log10 (K : Type u) where
  exp10 : K
deriving DecidableEq

namespace Log10

variable {K : Type u} [Field K]

instance : Add (Log10 K) := ⟨fun a b => ⟨a.exp10 * b.exp10⟩⟩

instance : Zero (Log10 K) := ⟨⟨1⟩⟩

/-- `log10_0prob`. -/
def zeroProb : Log10 K := ⟨0⟩

@[simp] theorem exp10_zero : (0 : Log10 K).exp10 = 1 := rfl

instance : AddCommMonoid (Log10 K) where
  add_assoc a b c := Log10.ext (mul_assoc a.exp10 b.exp10 c.exp10)
  zero_add a := Log10.ext (one_mul a.exp10)
  add_zero a := Log10.ext (mul_one a.exp10)
  add_comm a b := Log10.ext (mul_comm a.exp10 b.exp10)
  nsmul := nsmulRec

end Log10

section Code

variable {W : Type v} {K : Type u} [Field K] [LinearOrder K]

/-- `math.log10`. -/
def log10 (p : K) : Option (Log10 K) := if p ≤ 0 then none else some ⟨p⟩

/-- `log10_prob`. -/
def log10Prob (p : K) : Option (Log10 K) := if p = 0 then some .zeroProb else log10 p

/-- `log10_interp`. -/
def log10Interp (a b : Log10 K) (wt10a : K) : Option (Log10 K) :=
  if 0 ≤ wt10a ∧ wt10a ≤ 1 then log10Prob (wt10a * a.exp10 + (1 - wt10a) * b.exp10) else none

/-- `ngram`: the order, and by their order less one the counts, and the logarithms of the
probabilities and backoff weights. -/
structure Ngram (W : Type v) (V : Type u) where
  order : ℕ
  ngrams : ℕ → Dict (List W) ℕ
  logp : ℕ → Dict (List W) V
  bow : ℕ → Dict (List W) V
  logpUnk : V

variable [DecidableEq W]

/-- The new value of an entry in `interp`. -/
def interpEntry (bo lpbo : Dict (List W) (Log10 K)) (k : List W) (l : Log10 K) :
    Option (Log10 K) := do
  let lower ← lpbo.get? k.tail
  let weight ← bo.get? k.dropLast
  log10Interp lower l weight.exp10

/-- The new value of an entry in `uninterp`. -/
def uninterpEntry (bow lpbo : Dict (List W) (Log10 K)) (k : List W) (l : Log10 K) :
    Option (Log10 K) := do
  let lower ← lpbo.get? k.tail
  let weight ← bow.get? k.dropLast
  if 1 - weight.exp10 = 0 then none
  else log10 ((l.exp10 - weight.exp10 * lower.exp10) / (1 - weight.exp10))

namespace Ngram

variable {V : Type u}

/-- `om1`. -/
def om1 (m : Ngram W V) : ℕ := m.order - 1

/-- One round of the loop of `interp`. -/
def interpOrder (m : Ngram W (Log10 K)) (o : ℕ) : Option (Ngram W (Log10 K)) :=
  ((m.logp (o + 1)).mapValues? (interpEntry (m.bow o) (m.logp o))).map fun lp =>
    { m with logp := Function.update m.logp (o + 1) lp }

/-- One round of the loop of `uninterp`. -/
def uninterpOrder (m : Ngram W (Log10 K)) (o : ℕ) : Option (Ngram W (Log10 K)) :=
  ((m.logp (o + 1)).mapValues? (uninterpEntry (m.bow o) (m.logp o))).map fun lp =>
    { m with logp := Function.update m.logp (o + 1) lp }

/-- `interp`, which fails when an assertion does or a key is missing. -/
def interp (m : Ngram W (Log10 K)) : Option (Ngram W (Log10 K)) := (List.range m.om1).foldlM interpOrder m

/-- `uninterp`. -/
def uninterp (m : Ngram W (Log10 K)) : Option (Ngram W (Log10 K)) :=
  (List.range m.om1).reverse.foldlM uninterpOrder m

variable [Add V] [Zero V]

/-- Scoring `w` after the last words of a text, the longest context first; `bo` is the total
of the backoff weights so far. -/
def scoreWordFrom (m : Ngram W V) : List W → W → V → V × V
  | [], w, bo =>
    match (m.logp 0).get? [w] with
    | some l => (l, bo)
    | none => (m.logpUnk, bo)
  | x :: context, w, bo =>
    match (m.logp (context.length + 1)).get? (x :: context ++ [w]) with
    | some l => (l, bo)
    | none =>
      m.scoreWordFrom context w
        (bo + ((m.bow context.length).get? (x :: context)).getD 0)

/-- `score_word` of an open model: the word `w` after the words `before`. -/
def scoreWord (m : Ngram W V) (before : List W) (w : W) : V × V :=
  m.scoreWordFrom (before.drop (before.length - min m.om1 before.length)) w 0

/-- `score_word_combined`. -/
def scoreWordCombined (m : Ngram W V) (before : List W) (w : W) : V :=
  (m.scoreWord before w).1 + (m.scoreWord before w).2

end Ngram

end Code

namespace Ngram

variable {W : Type v} [DecidableEq W] {V : Type u} [AddCommMonoid V]
variable {m : Ngram W V} {c : List W} {x w : W}

/-- The weight of a context, which is nothing where the tables have none. -/
def weight (m : Ngram W V) (c : List W) : V := ((m.bow (c.length - 1)).get? c).getD 0

/-- The score of `w` after a context of at most `om1` words. -/
def score (m : Ngram W V) : List W → W → V
  | [], w => ((m.logp 0).get? [w]).getD m.logpUnk
  | x :: context, w =>
    match (m.logp (context.length + 1)).get? (x :: context ++ [w]) with
    | some l => l
    | none => m.weight (x :: context) + m.score context w

theorem score_of_get? {l : V} (h : (m.logp c.length).get? (c ++ [w]) = some l) :
    m.score c w = l := by
  cases c with
  | nil =>
    have hget : (m.logp 0).get? [w] = some l := h
    rw [score, hget, Option.getD_some]
  | cons x c =>
    rw [List.length_cons] at h
    simp only [score, h]

/-- A word not seen after a context is scored after the shorter one. -/
theorem score_cons_of_none (h : (m.logp (c.length + 1)).get? (x :: c ++ [w]) = none) :
    m.score (x :: c) w = m.weight (x :: c) + m.score c w := by
  simp only [score, h]

theorem scoreWordFrom_add (m : Ngram W V) (c : List W) (w : W) (bo : V) :
    (m.scoreWordFrom c w bo).1 + (m.scoreWordFrom c w bo).2 = bo + m.score c w := by
  induction c generalizing bo with
  | nil =>
    cases hget : (m.logp 0).get? [w] with
    | none => simp [scoreWordFrom, score, hget, add_comm]
    | some l => simp [scoreWordFrom, score, hget, add_comm]
  | cons x c ih =>
    cases hget : (m.logp (c.length + 1)).get? (x :: c ++ [w]) with
    | some l => simp only [scoreWordFrom, score, hget, add_comm]
    | none =>
      rw [score_cons_of_none hget]
      simp only [scoreWordFrom, hget, ih, add_assoc]
      rfl

/-- The context that `score_word` looks at. -/
def context (m : Ngram W V) (before : List W) : List W :=
  before.drop (before.length - min m.om1 before.length)

omit [DecidableEq W] [AddCommMonoid V] in
theorem length_context_le (m : Ngram W V) (before : List W) :
    (m.context before).length ≤ m.om1 := by
  rw [context, List.length_drop]
  omega

omit [DecidableEq W] [AddCommMonoid V] in
theorem context_of_length_le {before : List W} (h : before.length ≤ m.om1) :
    m.context before = before := by
  rw [context, min_eq_right h, Nat.sub_self, List.drop_zero]

theorem scoreWordCombined_eq (m : Ngram W V) (before : List W) (w : W) :
    m.scoreWordCombined before w = m.score (m.context before) w :=
  (m.scoreWordFrom_add (m.context before) w 0).trans (zero_add _)

end Ngram

end Carmel.Sblm

/-! ## Counting n-grams -/

namespace Carmel.Sblm

open Carmel.Math

universe u v

variable {W : Type v} [DecidableEq W] {V : Type u}

section Code

/-- `vec[i-om1:i+1]`. -/
def window (om1 : ℕ) (vec : List W) (i : ℕ) : List W := (vec.drop (i - om1)).take (om1 + 1)

/-- `add_i`. -/
def addI (om1 : ℕ) (vec : List W) (i : ℕ) (counts : Dict (List W) ℕ) : Dict (List W) ℕ :=
  if om1 ≤ i then counts.addTo (window om1 vec i) 1 else counts

namespace Ngram

/-- `count_word`. -/
def countWord (m : Ngram W V) (text : List W) (i : ℕ) : Ngram W V :=
  { m with ngrams := fun o =>
      if o < min m.order (i + 1) then addI o text i (m.ngrams o) else m.ngrams o }

/-- The loop of `count_text`. -/
def countFrom (m : Ngram W V) (text : List W) (i : ℕ) : Ngram W V :=
  (List.range' i (text.length - i)).foldl (fun m w => m.countWord text w) m

/-- `count_text` with `pre` before the text and `post` after it. -/
def countText (m : Ngram W V) (text : List W) (i : ℕ) (pre post : Option W) : Ngram W V :=
  m.countFrom (pre.toList ++ text ++ post.toList) (i + pre.toList.length)

/-- `count_file`. -/
def countFile (m : Ngram W V) (pre post : W) (lines : List (List W)) : Ngram W V :=
  lines.foldl (fun m text => m.countText text 0 (some pre) (some post)) m

/-- `ngram(order, logp_unk=..)`. -/
def new (logpUnk : V) (W : Type v) (order : ℕ) : Ngram W V where
  order := order
  ngrams _ := .empty
  logp _ := .empty
  bow _ := .empty
  logpUnk := logpUnk

end Ngram

end Code

/-- The windows that end at the position `i` or later. -/
def windows (o : ℕ) (text : List W) (i : ℕ) : List (List W) :=
  ((List.range' i (text.length - i)).filter (o ≤ ·)).map (window o text)

/-- A line between its marks. -/
def marked (pre post : W) (line : List W) : List W := pre :: line ++ [post]

variable {m : Ngram W V} {o i : ℕ} {text k : List W} {pre post : W} {lines : List (List W)}

@[simp] theorem Ngram.order_countWord : (m.countWord text i).order = m.order := rfl

theorem Ngram.ngrams_countWord (ho : o < m.order) :
    (m.countWord text i).ngrams o =
      if o ≤ i then (m.ngrams o).addTo (window o text i) 1 else m.ngrams o := by
  by_cases hi : o ≤ i
  · have hlt : o < min m.order (i + 1) := lt_min ho (Nat.lt_succ_of_le hi)
    simp only [countWord, if_pos hlt, addI, if_pos hi]
  · have hge : ¬ o < min m.order (i + 1) := by omega
    simp only [countWord, if_neg hge, if_neg hi]

/-- The rounds over some positions. -/
theorem Ngram.foldl_countWord (l : List ℕ) (m : Ngram W V) :
    (l.foldl (fun m w => m.countWord text w) m).order = m.order ∧
      ∀ o < m.order, (l.foldl (fun m w => m.countWord text w) m).ngrams o =
        Dict.tally id (fun _ => 1) ((l.filter (o ≤ ·)).map (window o text)) (m.ngrams o) := by
  induction l generalizing m with
  | nil => exact ⟨rfl, fun _ _ => rfl⟩
  | cons i l ih =>
    rcases ih (m.countWord text i) with ⟨horder, hngrams⟩
    rw [order_countWord] at horder hngrams
    refine ⟨horder, ?_⟩
    intro o ho
    rw [List.foldl_cons, hngrams o ho, ngrams_countWord ho]
    by_cases hi : o ≤ i
    · simp [hi, Dict.tally]
    · simp [hi]

theorem Ngram.ngrams_countFrom (m : Ngram W V) (text : List W) (i : ℕ) (ho : o < m.order) :
    (m.countFrom text i).ngrams o = Dict.tally id (fun _ => 1) (windows o text i) (m.ngrams o) :=
  (foldl_countWord _ m).2 o ho

theorem Ngram.order_countFrom (m : Ngram W V) (text : List W) (i : ℕ) :
    (m.countFrom text i).order = m.order := (foldl_countWord _ m).1

variable (pre post) in
/-- What a file adds to the counts. -/
theorem Ngram.countFile_spec (lines : List (List W)) (m : Ngram W V) :
    (m.countFile pre post lines).order = m.order ∧
      ∀ o < m.order, (m.countFile pre post lines).ngrams o = Dict.tally id (fun _ => 1)
          (lines.flatMap fun line => windows o (marked pre post line) 1) (m.ngrams o) := by
  induction lines generalizing m with
  | nil => exact ⟨rfl, fun _ _ => rfl⟩
  | cons line lines ih =>
    rcases ih (m.countFrom (marked pre post line) 1) with ⟨horder, hngrams⟩
    rw [order_countFrom] at horder hngrams
    refine ⟨horder, ?_⟩
    intro o ho
    have hrun := hngrams o ho
    rw [ngrams_countFrom m _ _ ho] at hrun
    rw [List.flatMap_cons, Dict.tally, List.foldl_append]
    exact hrun

theorem Ngram.countFrom_tables (m : Ngram W V) (text : List W) (i : ℕ) :
    (m.countFrom text i).logp = m.logp ∧ (m.countFrom text i).bow = m.bow := by
  rw [countFrom]
  generalize List.range' i (text.length - i) = l
  induction l generalizing m with
  | nil => exact ⟨rfl, rfl⟩
  | cons i l ih => exact ih (m.countWord text i)
variable (pre post) in

theorem Ngram.countFile_tables (lines : List (List W)) (m : Ngram W V) :
    (m.countFile pre post lines).logp = m.logp ∧ (m.countFile pre post lines).bow = m.bow := by
  induction lines generalizing m with
  | nil => exact ⟨rfl, rfl⟩
  | cons line lines ih =>
    rcases ih (m.countText line 0 (some pre) (some post)) with ⟨hlogp, hbow⟩
    rcases m.countFrom_tables (marked pre post line) 1 with ⟨hlogp', hbow'⟩
    exact ⟨hlogp.trans hlogp', hbow.trans hbow'⟩

omit [DecidableEq W] in
theorem mem_windows_iff : k ∈ windows o text i ↔
    k.length = o + 1 ∧ ∃ p s, text = p ++ k ++ s ∧ i < p.length + k.length := by
  simp only [windows, List.mem_map, List.mem_filter, List.mem_range'_1, decide_eq_true_eq]
  constructor
  · rintro ⟨j, ⟨⟨hle, hlt⟩, hoj⟩, rfl⟩
    have hlen : (window o text j).length = o + 1 := by
      rw [window, List.length_take, List.length_drop]
      omega
    refine ⟨hlen, text.take (j - o), text.drop (j + 1), ?_, ?_⟩
    · have hsplit : text.drop (j - o) = window o text j ++ text.drop (j + 1) := by
        rw [window, show j + 1 = j - o + (o + 1) by omega, ← List.drop_drop]
        exact (List.take_append_drop ..).symm
      rw [List.append_assoc, ← hsplit, List.take_append_drop]
    · rw [hlen, List.length_take]
      omega
  · rintro ⟨hlen, p, s, rfl, hlt⟩
    refine ⟨p.length + o, ⟨⟨by omega, ?_⟩, by omega⟩, ?_⟩
    · simp only [List.length_append]
      omega
    · rw [window, Nat.add_sub_cancel, List.append_assoc, List.drop_left, ← hlen, List.take_left]

/-- The windows of a text of several lines. -/
def fileWindows (pre post : W) (lines : List (List W)) (o : ℕ) : List (List W) :=
  lines.flatMap fun line => windows o (marked pre post line) 1

/-- The counts that a file leaves. -/
def counted (pre post : W) (lines : List (List W)) (o : ℕ) : Dict (List W) ℕ :=
  Dict.tally id (fun _ => 1) (fileWindows pre post lines o) .empty

omit [DecidableEq W] in
theorem mem_fileWindows_iff : k ∈ fileWindows pre post lines o ↔
    k.length = o + 1 ∧ ∃ line ∈ lines, ∃ p s, marked pre post line = p ++ k ++ s ∧
      1 < p.length + k.length := by
  rw [fileWindows, List.mem_flatMap]
  constructor
  · rintro ⟨line, hline, hk⟩
    rcases mem_windows_iff.mp hk with ⟨hlen, p, s, heq, hlt⟩
    exact ⟨hlen, line, hline, p, s, heq, hlt⟩
  · rintro ⟨hlen, line, hline, p, s, heq, hlt⟩
    exact ⟨line, hline, mem_windows_iff.mpr ⟨hlen, p, s, heq, hlt⟩⟩

theorem mem_keys_counted : k ∈ (counted pre post lines o).keys ↔
    k ∈ fileWindows pre post lines o := by
  rw [counted, Dict.mem_keys_tally]
  simp

theorem length_of_mem_counted (h : k ∈ (counted pre post lines o).keys) : k.length = o + 1 :=
  (mem_fileWindows_iff.mp (mem_keys_counted.mp h)).1

/-- Every n-gram that was counted was counted at least once. -/
theorem pos_of_counted {n : ℕ} (h : (counted pre post lines o).get? k = some n) : 0 < n := by
  rw [counted, Dict.get?_tally_empty] at h
  by_cases hmem : ∃ x ∈ fileWindows pre post lines o, id x = k
  · rw [if_pos hmem, Option.some.injEq] at h
    rcases hmem with ⟨x, hx, rfl⟩
    rw [← h]
    have hfilter : x ∈ (fileWindows pre post lines o).filter fun y => id y = id x :=
      List.mem_filter.mpr ⟨hx, by simp⟩
    rw [List.map_const', List.sum_replicate_nat, Nat.mul_one]
    exact List.length_pos_of_mem hfilter
  · rw [if_neg hmem] at h
    cases h

theorem tail_mem_counted (h : k ∈ (counted pre post lines (o + 1)).keys) :
    k.tail ∈ (counted pre post lines o).keys := by
  rw [mem_keys_counted, mem_fileWindows_iff] at h ⊢
  rcases h with ⟨hlen, line, hline, p, s, heq, hlt⟩
  cases k with
  | nil => simp at hlen
  | cons w k =>
    refine ⟨by simpa using hlen, line, hline, p ++ [w], s, by simpa using heq, ?_⟩
    simp only [List.length_append, List.length_cons, List.length_nil, List.tail_cons] at hlt ⊢
    omega

theorem dropLast_mem_counted (h : k ∈ (counted pre post lines (o + 2)).keys) :
    k.dropLast ∈ (counted pre post lines (o + 1)).keys := by
  rw [mem_keys_counted, mem_fileWindows_iff] at h ⊢
  rcases h with ⟨hlen, line, hline, p, s, heq, hlt⟩
  have hne : k ≠ [] := by
    rintro rfl
    simp at hlen
  refine ⟨by rw [List.length_dropLast]; omega, line, hline, p, k.getLast hne :: s, ?_, ?_⟩
  · rw [heq]
    nth_rewrite 1 [← List.dropLast_append_getLast hne]
    simp
  · rw [List.length_dropLast]
    omega

end Carmel.Sblm
