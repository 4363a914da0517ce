/-
# Scores of a model that was written and read

Models come from training or are built from tables of probabilities and weights. Read back
from its file, a model has the same scores exactly when the fillers and the entries for the
unknown word that went into the file say what the model said before.
-/

import Carmel.Sblm.LmFile
import Carmel.Sblm.WittenBell

namespace Carmel.Sblm

open Carmel.Math

universe u v

section Code

variable {W : Type v} [DecidableEq W] {V : Type u}

/-- `copy_map_key`. -/
def copyMapKey {K K' : Type v} [DecidableEq K'] (dic : Dict K V) (mapf : K → K') : Dict K' V :=
  dic.entries.foldl (fun r e => r.set (mapf e.1) e.2) .empty

/-- `entuple_safe` of a word. -/
def entupleSafe (x : W) : List W := [x]

/-- `build_2gram`. -/
def build2gram (logp2 : Dict (List W) V) (logp1 bow1 : Dict W V) (logpUnk : V) : Ngram W V :=
  let n := Ngram.new logpUnk W 2
  { n with
    logp := Function.update (Function.update n.logp 1 logp2) 0 (copyMapKey logp1 entupleSafe)
    bow := Function.update n.bow 0 (copyMapKey bow1 entupleSafe) }

namespace Ngram

/-- The model whose logarithms are held by `f`. -/
def mapLogs {V' : Type*} (f : V' → V) (m : Ngram W V') : Ngram W V where
  order := m.order
  ngrams := m.ngrams
  logp o := (m.logp o).mapValues fun _ => f
  bow o := (m.bow o).mapValues fun _ => f
  logpUnk := f m.logpUnk

/-- A call of `count_text`. -/
structure CountCall (W : Type v) where
  text : List W
  i : ℕ
  pre : Option W
  post : Option W

/-- Calls of `count_text` one after the other. -/
def countTexts (m : Ngram W V) (calls : List (CountCall W)) : Ngram W V :=
  calls.foldl (fun m call => m.countText call.text call.i call.pre call.post) m

/-- The models of `train_lm`, whose logarithms are held in some way, and of `build_2gram`. -/
inductive Produced : Ngram W V → Prop
  | trained {K : Type} [Field K] [LinearOrder K] (f : Log10 K → V) (logpUnk : Log10 K) (n : ℕ)
      (calls : List (CountCall W)) (interpolate : Bool) {t : Ngram W (Log10 K)}
      (h : ((new logpUnk W (n + 1)).countTexts calls).trainLm interpolate = some t) :
      Produced (t.mapLogs f)
  | twoGram (logp2 : Dict (List W) V) (logp1 bow1 : Dict W V) (logpUnk : V)
      (h : ∀ k ∈ logp2.keys, k.length = 2) : Produced (build2gram logp2 logp1 bow1 logpUnk)

end Ngram

end Code

section Tables

variable {W : Type v} [DecidableEq W] {V : Type u} {K : Type} [Field K]

/-- Tables in which every context of at least two words that has a weight is an n-gram with a
probability. -/
structure Ngram.Regular (m : Ngram W V) : Prop extends m.WellFormed where
  order_pos : 0 < m.order
  context : ∀ o, 0 < o → o < m.om1 → ∀ k ∈ (m.bow o).keys, k ∈ (m.logp o).keys

theorem exists_of_mem_copyMapKey {K K' : Type v} [DecidableEq K'] {dic : Dict K V} {mapf : K → K'}
    {k' : K'} (h : k' ∈ (copyMapKey dic mapf).keys) : ∃ k, mapf k = k' := by
  have hfold : ∀ (es : List (K × V)) (r : Dict K' V),
      k' ∈ (es.foldl (fun r e => r.set (mapf e.1) e.2) r).keys → k' ∈ r.keys ∨ ∃ k, mapf k = k' := by
    intro es
    induction es with
    | nil => exact fun _ h => Or.inl h
    | cons e es ih =>
      intro r h
      rcases ih _ h with h | h
      · rcases Dict.mem_keys_set.mp h with h | h
        · exact Or.inr ⟨e.1, h.symm⟩
        · exact Or.inl h
      · exact Or.inr h
  rcases hfold _ _ h with h | h
  · cases h
  · exact h

theorem regular_build2gram (logp1 bow1 : Dict W V) (logpUnk : V) {logp2 : Dict (List W) V}
    (h : ∀ k ∈ logp2.keys, k.length = 2) : (build2gram logp2 logp1 bow1 logpUnk).Regular := by
  have hword : ∀ {dic : Dict W V}, ∀ k ∈ (copyMapKey dic entupleSafe).keys, k.length = 1 := by
    intro dic k hk
    rcases exists_of_mem_copyMapKey hk with ⟨w, rfl⟩
    rfl
  refine ⟨⟨?_, ?_⟩, Nat.zero_lt_two, ?_⟩
  · intro o ho k hk
    match o with
    | 0 => exact hword k hk
    | 1 => exact h k hk
  · intro o ho k hk
    match o with
    | 0 => exact hword k hk
    | 1 => cases hk
  · intro o hpos hlt
    exact absurd hlt (Nat.not_lt.mpr hpos)

/-- The counts below the order have n-grams of their length. -/
def Ngram.CountsWellFormed (m : Ngram W V) : Prop :=
  ∀ o < m.order, ∀ k ∈ (m.ngrams o).keys, k.length = o + 1

namespace Ngram

theorem countTexts_spec (calls : List (CountCall W)) {m : Ngram W V} (h : m.CountsWellFormed) :
    (m.countTexts calls).order = m.order ∧ (m.countTexts calls).bow = m.bow ∧
      (m.countTexts calls).CountsWellFormed := by
  induction calls generalizing m with
  | nil => exact ⟨rfl, rfl, h⟩
  | cons call calls ih =>
    have horder : (m.countText call.text call.i call.pre call.post).order = m.order :=
      order_countFrom ..
    have hbow : (m.countText call.text call.i call.pre call.post).bow = m.bow :=
      (countFrom_tables ..).2
    have hstep : (m.countText call.text call.i call.pre call.post).CountsWellFormed := by
      intro o ho k hk
      rw [horder] at ho
      rw [countText, ngrams_countFrom _ _ _ ho, Dict.mem_keys_tally] at hk
      rcases hk with hk | ⟨k', hk', rfl⟩
      · exact h o ho k hk
      · exact (mem_windows_iff.mp hk').1
    rcases ih hstep with ⟨horder', hbow', hcounts⟩
    exact ⟨horder'.trans horder, hbow'.trans hbow, hcounts⟩

/-- What is fed to an order by the contexts of the next. -/
theorem mem_keys_fed {counts : Dict (List W) ℕ} {ks : List (List W)} {k : List W} :
    k ∈ (ks.foldl (Dict.setDefault · 0) counts).keys ↔ k ∈ counts.keys ∨ k ∈ ks := by
  rw [Dict.mem_keys_iff, Dict.get?_foldl_setDefault]
  by_cases hcounted : k ∈ counts.keys
  · rw [if_pos hcounted]
    exact iff_of_true (Dict.mem_keys_iff.mp hcounted) (Or.inl hcounted)
  · rw [if_neg hcounted]
    by_cases hk : k ∈ ks
    · simp [hk]
    · simp [hk, hcounted]

variable {m m' : Ngram W (Log10 K)} {n : ℕ}

/-- The contexts that are fed from the highest order down have their lengths. -/
theorem length_of_fed
    (habove : ∀ k ∈ (m'.ngrams n).keys, k.length = n + 1)
    (hbelow : ∀ o < n, m'.bow o = wittenBellBos (m'.ngrams (o + 1)) ∧
      m'.ngrams o = (m'.bow o).keys.foldl (Dict.setDefault · 0) (m.ngrams o))
    (hm : ∀ o < n, ∀ k ∈ (m.ngrams o).keys, k.length = o + 1) (d o : ℕ) (ho : o + d = n) :
    ∀ k ∈ (m'.ngrams o).keys, k.length = o + 1 := by
  induction d generalizing o with
  | zero =>
    have hon : o = n := ho
    exact hon ▸ habove
  | succ d ih =>
    intro k hk
    rcases hbelow o (by omega) with ⟨hbow, hfed⟩
    rw [hfed, mem_keys_fed] at hk
    rcases hk with hk | hk
    · exact hm o (by omega) k hk
    · rw [hbow, mem_keys_wittenBellBos] at hk
      rcases exists_ngram_of_context hk with ⟨j, hj, rfl⟩
      rw [List.length_dropLast, ih (o + 1) (by omega) j hj]
      rfl

/-- The tables that training makes of well-formed counts. -/
theorem regular_trainTables (horder : m.order = n + 1) (hm : m.CountsWellFormed)
    (hbow : ∀ o, m.bow o = .empty) : m.trainTables.Regular := by
  have hn : m.order - 1 = n := by omega
  rcases foldl_trainOrder n m with ⟨m', hrun, horder', -, -, habove, hbelow⟩
  have hlength : ∀ o ≤ n, ∀ k ∈ (m'.ngrams o).keys, k.length = o + 1 := by
    intro o ho
    refine length_of_fed ?_ hbelow (fun o ho => hm o (by omega)) (n - o) o (by omega)
    rw [(habove n (Nat.le_refl n)).1]
    exact hm n (by omega)
  have hcontext : ∀ o < n, ∀ k ∈ (m'.bow o).keys, k ∈ (m'.ngrams o).keys := by
    intro o ho k hk
    rw [(hbelow o ho).2]
    exact mem_keys_fed.mpr (Or.inr hk)
  have hkeys : ∀ o ≤ n, (m.trainTables.logp o).keys = (m'.ngrams o).keys := by
    intro o ho
    have hlt : o < m'.order := by omega
    simp only [trainTables, hn, hrun, if_pos hlt, keys_toProbs]
  have hbows : m.trainTables.bow = m'.bow := by
    simp only [trainTables, hn, hrun]
  have htrained : m.trainTables.order = n + 1 := by
    change ((List.range (m.order - 1)).reverse.foldl trainOrder m).order = n + 1
    rw [hn, hrun, horder', horder]
  refine ⟨⟨?_, ?_⟩, by omega, ?_⟩
  · intro o ho k hk
    have hle : o ≤ n := by omega
    rw [hkeys o hle] at hk
    exact hlength o hle k hk
  · intro o ho k hk
    rw [hbows] at hk
    by_cases hon : o < n
    · exact hlength o (by omega) k (hcontext o hon k hk)
    · rw [(habove o (by omega)).2, hbow o] at hk
      cases hk
  · intro o _ ho k hk
    rw [om1, htrained] at ho
    rw [hbows] at hk
    rw [hkeys o (by omega)]
    exact hcontext o (by omega) k hk

theorem keys_of_interp [LinearOrder K] {m t : Ngram W (Log10 K)} (h : m.interp = some t) :
    t.order = m.order ∧ t.bow = m.bow ∧ ∀ o, (t.logp o).keys = (m.logp o).keys := by
  rw [interp] at h
  generalize List.range m.om1 = os at h
  induction os generalizing m with
  | nil =>
    cases h
    exact ⟨rfl, rfl, fun _ => rfl⟩
  | cons o os ih =>
    rw [List.foldlM_cons] at h
    rcases Option.bind_eq_some_iff.mp h with ⟨m', hstep, hrest⟩
    rcases Option.map_eq_some_iff.mp hstep with ⟨lp, hlp, rfl⟩
    rcases ih hrest with ⟨horder, hbow, hkeys⟩
    refine ⟨horder, hbow, ?_⟩
    intro o'
    rw [hkeys o']
    change (Function.update m.logp (o + 1) lp o').keys = _
    by_cases ho : o' = o + 1
    · rw [ho, Function.update_self, Dict.keys_of_mapValues? hlp]
    · rw [Function.update_of_ne ho]

theorem keys_of_trainLm [LinearOrder K] {interpolate : Bool} {t : Ngram W (Log10 K)}
    (h : m.trainLm interpolate = some t) : t.order = m.trainTables.order ∧
      t.bow = m.trainTables.bow ∧ ∀ o, (t.logp o).keys = (m.trainTables.logp o).keys := by
  cases interpolate with
  | false =>
    have heq : { m.trainTables with ngrams := fun _ => .empty } = t := by
      simpa [trainLm] using h
    subst heq
    exact ⟨rfl, rfl, fun _ => rfl⟩
  | true =>
    have hmixed : ∃ m', m.trainTables.interp = some m' ∧ { m' with ngrams := fun _ => .empty } = t := by
      simpa [trainLm, Option.bind_eq_some_iff] using h
    rcases hmixed with ⟨m', hrun, rfl⟩
    have hkeys := keys_of_interp hrun
    exact ⟨hkeys.1, hkeys.2.1, hkeys.2.2⟩

omit [DecidableEq W] in
theorem Regular.of_keys {m : Ngram W V} {V' : Type*} {t : Ngram W V'} (h : m.Regular)
    (horder : t.order = m.order) (hbow : ∀ o, (t.bow o).keys = (m.bow o).keys)
    (hlogp : ∀ o, (t.logp o).keys = (m.logp o).keys) : t.Regular where
  logp o ho k hk := h.logp o (horder ▸ ho) k (hlogp o ▸ hk)
  bow o ho k hk := h.bow o (horder ▸ ho) k (hbow o ▸ hk)
  order_pos := horder ▸ h.order_pos
  context o hpos ho k hk := by
    rw [om1, horder] at ho
    rw [hlogp o]
    exact h.context o hpos ho k (hbow o ▸ hk)

theorem Produced.regular {m : Ngram W V} (h : m.Produced) : m.Regular := by
  cases h with
  | trained f logpUnk n calls interpolate h =>
    have hnew : (new logpUnk W (n + 1)).CountsWellFormed := by
      intro o _ k hk
      cases hk
    rcases countTexts_spec calls hnew with ⟨horder, hbow, hcounts⟩
    generalize (new logpUnk W (n + 1)).countTexts calls = c at h horder hbow hcounts
    have htables := regular_trainTables horder hcounts fun o => congrFun hbow o
    rcases keys_of_trainLm h with ⟨horder', hbow', hkeys⟩
    refine htables.of_keys (t := mapLogs f _) horder' ?_ ?_
    · intro o
      exact (Dict.keys_mapValues _).trans (by rw [hbow'])
    · intro o
      exact (Dict.keys_mapValues _).trans (hkeys o)
  | twoGram logp2 logp1 bow1 logpUnk h => exact regular_build2gram logp1 bow1 logpUnk h

end Ngram

end Tables

section Written

variable {V : Type u} [Ring V] [LinearOrder V] {unkword : List Char}
variable {prettyFloat : V → List Char} {float : List Char → Option V}
variable {m : Ngram (List Char) V} {o : ℕ} {k : List (List Char)}

/-- What it takes to print a model: its words have no white space, and its numbers and those
that `write_lm` adds read back. -/
structure Ngram.Writable (prettyFloat : V → List Char) (float : List Char → Option V)
    (unkword : List Char) (m : Ngram (List Char) V) : Prop where
  printable : m.Printable prettyFloat float
  logpUnk : PrintsBack prettyFloat float m.logpUnk
  log100prob : PrintsBack prettyFloat float log100prob
  zero : PrintsBack prettyFloat float 0
  float_zero : float ['0'] = some 0
  unkword : IsToken unkword

omit [Ring V] [LinearOrder V] in
theorem get?_update_set {tables : ℕ → Dict (List (List Char)) V} {j : List (List Char)} {x : V} :
    (Function.update tables 0 ((tables 0).set j x) o).get? k =
      if o = 0 ∧ k = j then some x else (tables o).get? k := by
  by_cases ho : o = 0
  · subst ho
    rw [Function.update_self, Dict.get?_set]
    simp
  · rw [Function.update_of_ne ho, if_neg fun h => ho h.1]

namespace Ngram

omit [LinearOrder V] in
theorem get?_logp_setLogpUnk : ((m.setLogpUnk unkword).logp o).get? k =
    if o = 0 ∧ k = [unkword] then some m.logpUnk else (m.logp o).get? k := get?_update_set

omit [LinearOrder V] in
theorem get?_bow_setLogpUnk : ((m.setLogpUnk unkword).bow o).get? k =
    if o = 0 ∧ k = [unkword] then some 0 else (m.bow o).get? k := get?_update_set

omit [Ring V] [LinearOrder V] in
/-- What holds of the entries of a table and of a new one holds of all afterwards. -/
theorem forall_get?_of_ite {d d' : Dict (List (List Char)) V} {c : Prop} [Decidable c] {x : V}
    {P : List (List Char) → V → Prop}
    (hget : ∀ k, d'.get? k = if c ∧ k = [unkword] then some x else d.get? k)
    (hnew : c → P [unkword] x) (hold : ∀ k y, d.get? k = some y → P k y)
    (k : List (List Char)) (y : V) (h : d'.get? k = some y) : P k y := by
  rw [hget] at h
  by_cases hk : c ∧ k = [unkword]
  · rw [if_pos hk, Option.some.injEq] at h
    rw [hk.2, ← h]
    exact hnew hk.1
  · rw [if_neg hk] at h
    exact hold k y h

/-- An entry of the table at `o` that can be printed. -/
def EntryPrints (prettyFloat : V → List Char) (float : List Char → Option V) (o : ℕ)
    (k : List (List Char)) (x : V) : Prop :=
  k.length = o + 1 ∧ PrintsBack prettyFloat float x ∧ ∀ w ∈ k, IsToken w

variable (hw : m.Writable prettyFloat float unkword)
include hw

omit [LinearOrder V] in
theorem entryPrints_unkword {x : V} (hx : PrintsBack prettyFloat float x) (ho : o = 0) :
    EntryPrints prettyFloat float o [unkword] x := by
  subst ho
  refine ⟨rfl, hx, ?_⟩
  intro w hmem
  rw [List.mem_singleton.mp hmem]
  exact hw.unkword

omit [LinearOrder V] in
theorem printable_setLogpUnk : (m.setLogpUnk unkword).Printable prettyFloat float := by
  have hlogp : ∀ o < m.order, ∀ k l, ((m.setLogpUnk unkword).logp o).get? k = some l →
      EntryPrints prettyFloat float o k l := by
    intro o ho
    refine forall_get?_of_ite (P := EntryPrints prettyFloat float o)
      (fun _ => get?_logp_setLogpUnk) (entryPrints_unkword hw hw.logpUnk) ?_
    intro k l hl
    have hk := Dict.mem_keys_iff.mpr ⟨l, hl⟩
    exact ⟨hw.printable.logp o ho k hk,
      hw.printable.logpPrints o ho _ (Dict.mem_entries_iff.mpr hl), hw.printable.logpTokens o ho k hk⟩
  have hbow : ∀ o < m.order, ∀ k b, ((m.setLogpUnk unkword).bow o).get? k = some b →
      EntryPrints prettyFloat float o k b := by
    intro o ho
    refine forall_get?_of_ite (P := EntryPrints prettyFloat float o)
      (fun _ => get?_bow_setLogpUnk) (entryPrints_unkword hw hw.zero) ?_
    intro k b hb
    have hk := Dict.mem_keys_iff.mpr ⟨b, hb⟩
    exact ⟨hw.printable.bow o ho k hk,
      hw.printable.bowPrints o ho _ (Dict.mem_entries_iff.mpr hb), hw.printable.bowTokens o ho k hk⟩
  constructor
  · constructor
    · intro o ho k hk
      rcases Dict.mem_keys_iff.mp hk with ⟨l, hl⟩
      exact (hlogp o ho k l hl).1
    · intro o ho k hk
      rcases Dict.mem_keys_iff.mp hk with ⟨b, hb⟩
      exact (hbow o ho k b hb).1
  · intro o ho e he
    exact (hlogp o ho e.1 e.2 (Dict.mem_entries_iff.mp he)).2.1
  · intro o ho e he
    exact (hbow o ho e.1 e.2 (Dict.mem_entries_iff.mp he)).2.1
  · intro o ho k hk
    rcases Dict.mem_keys_iff.mp hk with ⟨l, hl⟩
    exact (hlogp o ho k l hl).2.2
  · intro o ho k hk
    rcases Dict.mem_keys_iff.mp hk with ⟨b, hb⟩
    exact (hbow o ho k b hb).2.2

theorem exists_readLm (horder : 0 < m.order) (r : Ngram (List Char) V) (sort : Bool) :
    ∃ m', r.readLm float unkword (m.writeLm prettyFloat unkword sort) = some m' ∧
      (m.setLogpUnk unkword).ReadUpTo m.order m' ∧ m'.logpUnk = max Sblm.log100prob m.logpUnk := by
  have hprint := printable_setLogpUnk hw
  have hlines := newline_notMem_lmLines sort hprint hw.log100prob hw.float_zero
  rcases exists_foldlM_lmLines sort hprint hw.log100prob hw.float_zero horder r.clearCounts
    with ⟨s, hrun, hread⟩
  have hunk : (s.model.logp 0).get? [unkword] = some (max Sblm.log100prob m.logpUnk) := by
    have hentry : ((m.setLogpUnk unkword).logp 0).get? [unkword] = some m.logpUnk := by
      rw [get?_logp_setLogpUnk, if_pos ⟨rfl, rfl⟩]
    have hkey : [unkword] ∈ (m.setLogpUnk unkword).ngramkeys (0 + 1) :=
      mem_ngramkeys.mpr (Or.inl (Dict.mem_keys_iff.mpr ⟨_, hentry⟩))
    rw [hread.logp 0 horder, if_pos hkey, printedLogp, hentry]
  have hpos : ¬ s.model.order = 0 := by
    rw [hread.order]
    exact Nat.ne_of_gt horder
  refine ⟨{ s.model with logpUnk := max Sblm.log100prob m.logpUnk }, ?_,
    ⟨hread.order, hread.logp, hread.bow, hread.logpAbove, hread.bowAbove⟩, rfl⟩
  rw [readLm, writeLm, fileLines_flatMap hlines, hrun]
  simp [hpos, hunk]

end Ngram

end Written

section Scores

variable {V : Type u} [Ring V] [LinearOrder V] {unkword : List Char}
variable {m m' : Ngram (List Char) V} {o : ℕ} {k : List (List Char)}

theorem log100prob_nonpos [IsStrictOrderedRing V] : (log100prob : V) ≤ 0 :=
  neg_nonpos.mpr (Nat.ofNat_nonneg 99)

namespace Ngram

/-- The tables that come out of a file, by those that were written. -/
structure FromFile (unkword : List Char) (m m' : Ngram (List Char) V) : Prop where
  order : m'.order = m.order
  logpUnk : m'.logpUnk = max log100prob m.logpUnk
  unk : (m'.logp 0).get? [unkword] = some (max log100prob m.logpUnk)
  word : ∀ k l, k ≠ [unkword] → (m.logp 0).get? k = some l →
    (m'.logp 0).get? k = some (max log100prob l)
  filler : ∀ k, k ≠ [unkword] → (m.logp 0).get? k = none →
    (m'.logp 0).get? k = if 1 < m.order ∧ k ∈ (m.bow 0).keys then some log100prob else none
  higher : ∀ o, 0 < o → o < m.order → ∀ k,
    (m'.logp o).get? k = ((m.logp o).get? k).map (max log100prob)
  unkBow : 1 < m.order → ((m'.bow 0).get? [unkword]).getD 0 = 0
  bow : ∀ o < m.om1, ∀ k, (o = 0 → k ≠ [unkword]) →
    ((m'.bow o).get? k).getD 0 = (((m.bow o).get? k).map (max log100prob)).getD 0

variable (hm : m.Regular) (hread : (m.setLogpUnk unkword).ReadUpTo m.order m')
include hread

theorem logp_of_read {l : V} (ho : o < m.order) (hk : ¬ (o = 0 ∧ k = [unkword]))
    (hl : (m.logp o).get? k = some l) : (m'.logp o).get? k = some (max log100prob l) := by
  have hentry : ((m.setLogpUnk unkword).logp o).get? k = some l := by
    rw [get?_logp_setLogpUnk, if_neg hk, hl]
  have hkey : k ∈ (m.setLogpUnk unkword).ngramkeys (o + 1) :=
    mem_ngramkeys.mpr (Or.inl (Dict.mem_keys_iff.mpr ⟨l, hentry⟩))
  rw [hread.logp o ho, if_pos hkey, printedLogp, hentry]

theorem logp_of_read_none (ho : o < m.order) (hk : ¬ (o = 0 ∧ k = [unkword]))
    (hl : (m.logp o).get? k = none) : (m'.logp o).get? k =
      if o ≠ m.om1 ∧ k ∈ (m.bow o).keys then some log100prob else none := by
  have hentry : ((m.setLogpUnk unkword).logp o).get? k = none := by
    rw [get?_logp_setLogpUnk, if_neg hk, hl]
  have hbow : k ∈ ((m.setLogpUnk unkword).bow o).keys ↔ k ∈ (m.bow o).keys := by
    rw [Dict.mem_keys_iff, Dict.mem_keys_iff, get?_bow_setLogpUnk, if_neg hk]
  have hkey : k ∈ (m.setLogpUnk unkword).ngramkeys (o + 1) ↔ o ≠ m.om1 ∧ k ∈ (m.bow o).keys := by
    rw [mem_ngramkeys, hbow]
    exact or_iff_right (Dict.get?_eq_none_iff.mp hentry)
  rw [hread.logp o ho, printedLogp, hentry]
  simp only [hkey]

theorem bow_of_read (ho : o < m.om1) :
    ((m'.bow o).get? k).getD 0 =
      ((((m.setLogpUnk unkword).bow o).get? k).map (max log100prob)).getD 0 := by
  have hlt : o < m.order := by
    rw [om1] at ho
    omega
  have hlast : o + 1 ≠ m.order := by
    rw [om1] at ho
    omega
  rw [hread.bow o hlt hlast, printedBow]
  cases hentry : ((m.setLogpUnk unkword).bow o).get? k with
  | none =>
    rw [Option.map_none, Option.getD_none]
    by_cases hkey : k ∈ (m.setLogpUnk unkword).ngramkeys (o + 1)
    · rw [if_pos hkey, Option.getD_some]
    · rw [if_neg hkey, Option.getD_none]
  | some b =>
    have hkey : k ∈ (m.setLogpUnk unkword).ngramkeys (o + 1) :=
      mem_ngramkeys.mpr (Or.inr ⟨Nat.ne_of_lt ho, Dict.mem_keys_iff.mpr ⟨b, hentry⟩⟩)
    rw [if_pos hkey]
    rfl

include hm

theorem fromFile [IsStrictOrderedRing V] (hunk : m'.logpUnk = max log100prob m.logpUnk) :
    FromFile unkword m m' where
  order := hread.order
  logpUnk := hunk
  unk := by
    have hentry : ((m.setLogpUnk unkword).logp 0).get? [unkword] = some m.logpUnk := by
      rw [get?_logp_setLogpUnk, if_pos ⟨rfl, rfl⟩]
    have hkey : [unkword] ∈ (m.setLogpUnk unkword).ngramkeys (0 + 1) :=
      mem_ngramkeys.mpr (Or.inl (Dict.mem_keys_iff.mpr ⟨_, hentry⟩))
    rw [hread.logp 0 hm.order_pos, if_pos hkey, printedLogp, hentry]
  word k l hk hl := logp_of_read hread hm.order_pos (fun h => hk h.2) hl
  filler k hk hl := by
    have horder : 0 ≠ m.om1 ↔ 1 < m.order := by
      rw [om1]
      omega
    rw [logp_of_read_none hread hm.order_pos (fun h => hk h.2) hl]
    simp only [horder]
  higher o hpos ho k := by
    have hne : ¬ (o = 0 ∧ k = [unkword]) := fun h => Nat.ne_of_gt hpos h.1
    cases hl : (m.logp o).get? k with
    | some l => rw [logp_of_read hread ho hne hl, Option.map_some]
    | none =>
      have hnot : ¬ (o ≠ m.om1 ∧ k ∈ (m.bow o).keys) := by
        rintro ⟨hom, hk⟩
        have hlt : o < m.om1 := by
          rw [om1] at hom ⊢
          omega
        exact Dict.get?_eq_none_iff.mp hl (hm.context o hpos hlt k hk)
      rw [logp_of_read_none hread ho hne hl, if_neg hnot, Option.map_none]
  unkBow horder := by
    have hpos : 0 < m.om1 := by
      rw [om1]
      omega
    rw [bow_of_read hread hpos, get?_bow_setLogpUnk, if_pos ⟨rfl, rfl⟩, Option.map_some,
      Option.getD_some, max_eq_right log100prob_nonpos]
  bow o ho k hk := by
    rw [bow_of_read hread ho, get?_bow_setLogpUnk, if_neg fun h => hk h.1 h.2]

omit hm hread

/-- What makes the scores of a model survive a file: nothing is below the filler, the unknown
word has no score and weight of its own, and a word that has only a weight is as likely as the
filler says. -/
structure Survives (unkword : List Char) (m : Ngram (List Char) V) : Prop where
  logpUnk : log100prob ≤ m.logpUnk
  unkLogp : ∀ l, (m.logp 0).get? [unkword] = some l → l = m.logpUnk
  unkBow : 1 < m.order → ∀ b, (m.bow 0).get? [unkword] = some b → b = 0
  logp : ∀ o < m.order, ∀ k l, (m.logp o).get? k = some l → log100prob ≤ l
  bow : ∀ o < m.om1, ∀ k b, (m.bow o).get? k = some b → log100prob ≤ b
  onlyBow : 1 < m.order → ∀ w, w ≠ unkword → [w] ∈ (m.bow 0).keys → [w] ∉ (m.logp 0).keys →
    m.logpUnk = log100prob

variable {c : List (List Char)} {x w : List Char}

/-- There is a word that ends none of some n-grams. -/
theorem exists_fresh (ks : List (List (List Char))) (c : List (List Char)) (avoid : List Char) :
    ∃ w, w ≠ avoid ∧ c ++ [w] ∉ ks := by
  rcases Infinite.exists_notMem_finset
    (insert avoid (ks.map fun k => (k.getLast?).getD []).toFinset) with ⟨w, hw⟩
  rw [Finset.mem_insert, not_or, List.mem_toFinset, List.mem_map] at hw
  refine ⟨w, hw.1, ?_⟩
  intro hmem
  exact hw.2 ⟨c ++ [w], hmem, by rw [List.getLast?_concat, Option.getD_some]⟩

section Survival

variable (hfile : FromFile unkword m m')
include hfile

/-- The scores without context. -/
theorem score_nil_of_survives (hs : m.Survives unkword) (horder : 0 < m.order) (w : List Char) :
    m'.score [] w = m.score [] w := by
  rw [score, score]
  by_cases hw : w = unkword
  · subst hw
    rw [hfile.unk, Option.getD_some, max_eq_right hs.logpUnk]
    cases hl : (m.logp 0).get? [w] with
    | none => rfl
    | some l => exact (hs.unkLogp l hl).symm
  · have hne : [w] ≠ [unkword] := fun h => hw (List.singleton_inj.mp h)
    cases hl : (m.logp 0).get? [w] with
    | some l =>
      rw [hfile.word [w] l hne hl, max_eq_right (hs.logp 0 horder [w] l hl)]
      rfl
    | none =>
      rw [hfile.filler [w] hne hl, hfile.logpUnk, max_eq_right hs.logpUnk]
      by_cases hfill : 1 < m.order ∧ [w] ∈ (m.bow 0).keys
      · rw [if_pos hfill]
        exact (hs.onlyBow hfill.1 w hw hfill.2 (Dict.get?_eq_none_iff.mp hl)).symm
      · rw [if_neg hfill]

theorem weight_of_survives (hs : m.Survives unkword) (hc : (x :: c).length ≤ m.om1) :
    m'.weight (x :: c) = m.weight (x :: c) := by
  have hlt : (x :: c).length - 1 < m.om1 := by
    rw [List.length_cons] at hc ⊢
    omega
  rw [weight, weight]
  by_cases hk : (x :: c).length - 1 = 0 → x :: c ≠ [unkword]
  · rw [hfile.bow _ hlt _ hk]
    cases hb : (m.bow ((x :: c).length - 1)).get? (x :: c) with
    | none => rfl
    | some b => rw [Option.map_some, max_eq_right (hs.bow _ hlt _ b hb)]
  · push Not at hk
    have horder : 1 < m.order := by
      rw [om1] at hlt
      omega
    rw [hk.2, List.length_singleton, Nat.sub_self, hfile.unkBow horder]
    cases hb : (m.bow 0).get? [unkword] with
    | none => rfl
    | some b => exact (hs.unkBow horder b hb).symm

theorem score_of_survives (hs : m.Survives unkword) (horder : 0 < m.order) (w : List Char)
    (hc : c.length ≤ m.om1) : m'.score c w = m.score c w := by
  induction c with
  | nil => exact score_nil_of_survives hfile hs horder w
  | cons x c ih =>
    have hlt : c.length + 1 < m.order := by
      rw [List.length_cons, om1] at hc
      omega
    have htable := hfile.higher (c.length + 1) (Nat.succ_pos _) hlt (x :: c ++ [w])
    cases hl : (m.logp (c.length + 1)).get? (x :: c ++ [w]) with
    | some l =>
      rw [hl, Option.map_some, max_eq_right (hs.logp _ hlt _ l hl)] at htable
      exact (score_of_get? htable).trans (score_of_get? hl).symm
    | none =>
      rw [hl, Option.map_none] at htable
      rw [score_cons_of_none htable, score_cons_of_none hl, weight_of_survives hfile hs hc,
        ih (Nat.le_of_succ_le hc)]

variable (h : ∀ c w, c.length ≤ m.om1 → m'.score c w = m.score c w)
include h

/-- A word that is in no table tells that the unknown word is not below the filler. -/
theorem logpUnk_of_score : log100prob ≤ m.logpUnk := by
  rcases exists_fresh ((m.logp 0).keys ++ (m.bow 0).keys) [] unkword with ⟨w, hw, hfresh⟩
  rw [List.nil_append, List.mem_append, not_or] at hfresh
  have hne : [w] ≠ [unkword] := fun heq => hw (List.singleton_inj.mp heq)
  have hnone : (m.logp 0).get? [w] = none := Dict.get?_eq_none_iff.mpr hfresh.1
  have hnone' := hfile.filler [w] hne hnone
  rw [if_neg fun hand => hfresh.2 hand.2] at hnone'
  have hscore := h [] w (Nat.zero_le _)
  rw [score, score, hnone, hnone', Option.getD_none, Option.getD_none, hfile.logpUnk] at hscore
  exact max_eq_right_iff.mp hscore

theorem unkLogp_of_score {l : V} (hl : (m.logp 0).get? [unkword] = some l) : l = m.logpUnk := by
  have hscore := h [] unkword (Nat.zero_le _)
  rw [score, score, hfile.unk, hl, Option.getD_some, Option.getD_some,
    max_eq_right (logpUnk_of_score hfile h)] at hscore
  exact hscore.symm

/-- A word that is not predicted after a context shows the weight of the context. -/
theorem weight_of_score (hc : (x :: c).length ≤ m.om1) : m'.weight (x :: c) = m.weight (x :: c) := by
  have hlt : c.length + 1 < m.order := by
    rw [List.length_cons, om1] at hc
    omega
  rcases exists_fresh (m.logp (c.length + 1)).keys (x :: c) unkword with ⟨w, -, hfresh⟩
  have hnone : (m.logp (c.length + 1)).get? (x :: c ++ [w]) = none :=
    Dict.get?_eq_none_iff.mpr hfresh
  have hnone' := hfile.higher (c.length + 1) (Nat.succ_pos _) hlt (x :: c ++ [w])
  rw [hnone, Option.map_none] at hnone'
  have hscore := h (x :: c) w hc
  rw [score_cons_of_none hnone, score_cons_of_none hnone', h c w (Nat.le_of_succ_le hc)] at hscore
  exact add_right_cancel hscore

theorem unkBow_of_score (horder : 1 < m.order) {b : V} (hb : (m.bow 0).get? [unkword] = some b) :
    b = 0 := by
  have hc : [unkword].length ≤ m.om1 := by
    rw [List.length_singleton, om1]
    omega
  have hweight := weight_of_score hfile h hc
  rw [weight, weight, List.length_singleton, Nat.sub_self, hfile.unkBow horder, hb,
    Option.getD_some] at hweight
  exact hweight.symm

/-- Scores that survive say that all is as it should be. -/
theorem survives_of_score [IsStrictOrderedRing V] (hm : m.WellFormed) : m.Survives unkword where
  logpUnk := logpUnk_of_score hfile h
  unkLogp _ hl := unkLogp_of_score hfile h hl
  unkBow horder _ hb := unkBow_of_score hfile h horder hb
  logp o ho k l hl := by
    have hlen := hm.logp o ho k (Dict.mem_keys_iff.mpr ⟨l, hl⟩)
    rcases List.eq_nil_or_concat k with rfl | ⟨c, w, rfl⟩
    · cases hlen
    · have hc : c.length = o := by simpa using hlen
      have hle : c.length ≤ m.om1 := by
        rw [om1]
        omega
      subst hc
      have hscore := h c w hle
      rw [List.concat_eq_append] at hl
      rw [score_of_get? hl] at hscore
      cases c with
      | nil =>
        by_cases hw : w = unkword
        · subst hw
          rw [unkLogp_of_score hfile h hl]
          exact logpUnk_of_score hfile h
        · have hget : (m'.logp 0).get? [w] = some (max log100prob l) :=
            hfile.word [w] l (fun heq => hw (List.singleton_inj.mp heq)) hl
          rw [score_of_get? (c := []) hget] at hscore
          exact max_eq_right_iff.mp hscore
      | cons x c =>
        have hget := hfile.higher (x :: c).length (Nat.succ_pos _) ho (x :: c ++ [w])
        rw [hl, Option.map_some] at hget
        rw [score_of_get? hget] at hscore
        exact max_eq_right_iff.mp hscore
  bow o ho k b hb := by
    have hlt : o < m.order := by
      rw [om1] at ho
      omega
    have hlen := hm.bow o hlt k (Dict.mem_keys_iff.mpr ⟨b, hb⟩)
    cases k with
    | nil => cases hlen
    | cons x c =>
      have hweight := weight_of_score hfile h (x := x) (c := c) (by omega)
      have ho' : (x :: c).length - 1 = o := by omega
      by_cases hk : o = 0 → x :: c ≠ [unkword]
      · rw [weight, weight, ho', hfile.bow o ho _ hk, hb] at hweight
        exact max_eq_right_iff.mp hweight
      · push Not at hk
        rcases hk with ⟨rfl, heq⟩
        rw [heq] at hb
        have horder : 1 < m.order := by
          rw [om1] at ho
          omega
        rw [unkBow_of_score hfile h horder hb]
        exact log100prob_nonpos
  onlyBow horder w hw hbow hlogp := by
    have hnone : (m.logp 0).get? [w] = none := Dict.get?_eq_none_iff.mpr hlogp
    have hfill := hfile.filler [w] (fun heq => hw (List.singleton_inj.mp heq)) hnone
    rw [if_pos ⟨horder, hbow⟩] at hfill
    have hscore := h [] w (Nat.zero_le _)
    rw [score, score, hfill, hnone] at hscore
    exact hscore.symm

end Survival

variable {prettyFloat : V → List Char} {float : List Char → Option V}

/-- The scores that are read back, for regular tables. -/
theorem readLm_writeLm_of_regular [IsStrictOrderedRing V] (hm : m.Regular)
    (hw : m.Writable prettyFloat float unkword) (r : Ngram (List Char) V) (sort : Bool) :
    (∃ m', r.readLm float unkword (m.writeLm prettyFloat unkword sort) = some m' ∧
        m'.order = m.order ∧
        ∀ before w, m'.scoreWordCombined before w = m.scoreWordCombined before w) ↔
      m.Survives unkword := by
  rcases exists_readLm hw hm.order_pos r sort with ⟨m', hrun, hread, hunk⟩
  have hfile := fromFile hm hread hunk
  have hom1 : m'.om1 = m.om1 := by
    rw [om1, om1, hfile.order]
  have hcontext : ∀ before, m'.context before = m.context before := by
    intro before
    rw [context, context, hom1]
  constructor
  · rintro ⟨m'', hrun', -, hscore⟩
    rw [hrun, Option.some.injEq] at hrun'
    subst hrun'
    apply survives_of_score hfile _ hm.toWellFormed
    intro c w hc
    have hcombined := hscore c w
    rwa [scoreWordCombined_eq, scoreWordCombined_eq, hcontext, context_of_length_le hc] at hcombined
  · intro hs
    refine ⟨m', hrun, hfile.order, ?_⟩
    intro before w
    rw [scoreWordCombined_eq, scoreWordCombined_eq, hcontext]
    exact score_of_survives hfile hs hm.order_pos w (m.length_context_le before)

/-- A produced model has the same order and scores when it is read back from its file exactly
when nothing in it is below the filler, the unknown word has no score and weight of its own, and
the words that have only a weight are as likely as the filler says. -/
theorem readLm_writeLm_iff [IsStrictOrderedRing V] (hm : m.Produced)
    (hw : m.Writable prettyFloat float unkword) (r : Ngram (List Char) V) (sort : Bool) :
    (∃ m', r.readLm float unkword (m.writeLm prettyFloat unkword sort) = some m' ∧
        m'.order = m.order ∧
        ∀ before w, m'.scoreWordCombined before w = m.scoreWordCombined before w) ↔
      m.Survives unkword := readLm_writeLm_of_regular hm.regular hw r sort

end Ngram

end Scores

section Integers

def prettyInt (x : ℤ) : List Char :=
  if x < 0 then '-' :: Nat.toDigits 10 x.natAbs else Nat.toDigits 10 x.natAbs

def floatInt : List Char → Option ℤ
  | '-' :: text => (readNumber text).map fun x => -x.1
  | text => (readNumber text).map fun x => x.1

theorem printsBack_prettyInt (x : ℤ) : PrintsBack prettyInt floatInt x := by
  have hread : readNumber (Nat.toDigits 10 x.natAbs) = some (x.natAbs, []) := by
    have h := readNumber_toDigits x.natAbs noDigitAhead_nil
    rwa [List.append_nil] at h
  by_cases hx : x < 0
  · have htext : prettyInt x = '-' :: Nat.toDigits 10 x.natAbs := if_pos hx
    refine ⟨?_, by simp [htext], ?_, by simp [htext]⟩
    · rw [htext, floatInt, hread, Option.map_some]
      congr 1
      omega
    · intro c hc
      rw [htext] at hc
      rcases List.mem_cons.mp hc with rfl | hc
      · decide
      · exact isSpace_of_mem_toDigits hc
  · have htext : prettyInt x = Nat.toDigits 10 x.natAbs := if_neg hx
    have hhead : ∀ d : Char, d.isDigit = false → (prettyInt x).head? ≠ some d := by
      intro d hd heq
      rw [htext] at heq
      have hdigit := Nat.isDigit_of_mem_toDigits (by decide) (by decide) (List.mem_of_mem_head? heq)
      rw [hd] at hdigit
      cases hdigit
    refine ⟨?_, by simp [htext], ?_, hhead _ (by decide)⟩
    · unfold floatInt
      split
      · next heq => exact absurd (by rw [heq]; rfl) (hhead '-' (by decide))
      · rw [htext, hread, Option.map_some]
        congr 1
        omega
    · intro c hc
      rw [htext] at hc
      exact isSpace_of_mem_toDigits hc

instance (w : List Char) : Decidable (IsToken w) :=
  have : Decidable (∀ c ∈ w, isSpace c = false) := List.decidableBAll ..
  inferInstanceAs (Decidable (w ≠ [] ∧ ∀ c ∈ w, isSpace c = false))

/-- Tables of words without white space. -/
theorem writable_int {m : Ngram (List Char) ℤ} (hm : m.WellFormed)
    (hlogp : ∀ o < m.order, ∀ k ∈ (m.logp o).keys, ∀ w ∈ k, IsToken w)
    (hbow : ∀ o < m.order, ∀ k ∈ (m.bow o).keys, ∀ w ∈ k, IsToken w) :
    m.Writable prettyInt floatInt ['<', 'u', 'n', 'k', '>'] where
  printable := ⟨hm, fun _ _ _ _ => printsBack_prettyInt _, fun _ _ _ _ => printsBack_prettyInt _,
    hlogp, hbow⟩
  logpUnk := printsBack_prettyInt _
  log100prob := printsBack_prettyInt _
  zero := printsBack_prettyInt 0
  float_zero := by decide
  unkword := by decide

/-- A model of the word `T` with a probability, a weight and a bigram. -/
def pairModel : Ngram (List Char) ℤ :=
  build2gram (Dict.empty.set [['T'], ['T']] (-3)) (Dict.empty.set ['T'] (-1))
    (Dict.empty.set ['T'] (-2)) (-5)

theorem Ngram.readLm_writeLm_iff_pairModel :
    (∃ m', (Ngram.new 0 (List Char) 2).readLm floatInt ['<', 'u', 'n', 'k', '>']
          (pairModel.writeLm prettyInt ['<', 'u', 'n', 'k', '>'] true) = some m' ∧
        m'.order = pairModel.order ∧
        ∀ before w, m'.scoreWordCombined before w = pairModel.scoreWordCombined before w) ↔
      pairModel.Survives ['<', 'u', 'n', 'k', '>'] :=
  readLm_writeLm_iff (.twoGram _ _ _ _ (by decide))
    (writable_int ⟨by decide, by decide⟩ (by decide) (by decide)) _ _

/-- A model of the tag `T` with a weight and no probability. -/
def tagModel : Ngram (List Char) ℤ := build2gram .empty .empty (Dict.empty.set ['T'] (-1)) 0

/-- The tag is scored as an unknown word before, and by the filler afterwards. -/
theorem Ngram.not_readLm_writeLm_tagModel :
    tagModel.Produced ∧ tagModel.Writable prettyInt floatInt ['<', 'u', 'n', 'k', '>'] ∧
      ¬ ∃ m', (Ngram.new 0 (List Char) 2).readLm floatInt ['<', 'u', 'n', 'k', '>']
          (tagModel.writeLm prettyInt ['<', 'u', 'n', 'k', '>'] true) = some m' ∧
        m'.order = tagModel.order ∧
        ∀ before w, m'.scoreWordCombined before w = tagModel.scoreWordCombined before w := by
  have hprod : tagModel.Produced := .twoGram _ _ _ _ (by decide)
  have hw : tagModel.Writable prettyInt floatInt ['<', 'u', 'n', 'k', '>'] :=
    writable_int ⟨by decide, by decide⟩ (by decide) (by decide)
  refine ⟨hprod, hw, ?_⟩
  rw [readLm_writeLm_of_regular hprod.regular hw]
  intro hs
  exact absurd (hs.onlyBow (by decide) ['T'] (by decide) (by decide) (by decide)) (by decide)

end Integers

end Carmel.Sblm
