/-
# Model files

`write_lm` enters the unknown word into both tables and prints a line for every n-gram that
has a probability or a backoff weight, a filler in the place of what is missing. So what
`read_lm` gets back are the two tables over the keys of both, bounded below by the filler
for the probabilities.
-/

import Carmel.Math.Extraction
import Carmel.Sblm.Ngram

namespace Carmel.Sblm

open Carmel.Math

universe u v

section Code

variable {W : Type v} [DecidableEq W] {V : Type u}

/-- `iterkeys2`. -/
def iterkeys2 {K : Type v} [DecidableEq K] (a b : Dict K V) : List K :=
  a.keys ++ b.keys.filter (· ∉ a.keys)

namespace Ngram

/-- `clear_counts`. -/
def clearCounts (m : Ngram W V) : Ngram W V := { m with ngrams := fun _ => .empty }

/-- `set_order`. -/
def setOrder (m : Ngram W V) (o : ℕ) : Ngram W V := .new m.logpUnk W o

/-- `ngramkeys`. -/
def ngramkeys (m : Ngram W V) (order : ℕ) : List (List W) :=
  let order := order - 1
  if order = m.om1 then (m.logp order).keys else iterkeys2 (m.logp order) (m.bow order)

variable [Zero V]

/-- `set_logp_unk()` with `unkword`. -/
def setLogpUnk (m : Ngram W V) (unkword : W) : Ngram W V :=
  { m with
    logp := Function.update m.logp 0 ((m.logp 0).set [unkword] m.logpUnk)
    bow := Function.update m.bow 0 ((m.bow 0).set [unkword] 0) }

end Ngram

/-- `log10_0prob`. -/
def log100prob [Ring V] : V := -99

/-- A line of the fields of `wf`. -/
def tabbed (fields : List (List Char)) : List Char := ['\t'].intercalate fields

/-- `"ngram %d=%d"`. -/
def headLine (n count : ℕ) : List Char :=
  ['n', 'g', 'r', 'a', 'm', ' '] ++ Nat.toDigits 10 n ++ '=' :: Nat.toDigits 10 count

/-- `"\\%d-grams:"`. -/
def gramsLine (n : ℕ) : List Char :=
  '\\' :: Nat.toDigits 10 n ++ ['-', 'g', 'r', 'a', 'm', 's', ':']

namespace Ngram

variable [Ring V] [LinearOrder V] (prettyFloat : V → List Char)

/-- `wkey`: the line of `k` in the section of the n-grams of order `n + 1`. -/
def wkey (m : Ngram (List Char) V) (n : ℕ) (k : List (List Char)) : List Char :=
  let lp := prettyFloat <| match (m.logp n).get? k with
    | some l => max log100prob l
    | none => log100prob
  let ks := [' '].intercalate k
  if n = m.om1 then tabbed [lp, ks]
  else
    tabbed [lp, ks, match (m.bow n).get? k with
      | some b => prettyFloat (max log100prob b)
      | none => ['0']]

/-- The lines of the section of the n-grams of order `n + 1`. -/
def sectionLines (sort : Bool) (m : Ngram (List Char) V) (n : ℕ) : List (List Char) :=
  let ks := m.ngramkeys (n + 1)
  let ks := if sort then ks.mergeSort (fun a b => decide (a ≤ b)) else ks
  [] :: gramsLine (n + 1) :: ks.map (m.wkey prettyFloat n)

/-- The lines of `write_lm`. -/
def lmLines (sort : Bool) (m : Ngram (List Char) V) : List (List Char) :=
  [[], ['\\', 'd', 'a', 't', 'a', '\\']] ++
    ((List.range m.order).map fun n => headLine (n + 1) (m.ngramkeys (n + 1)).length) ++
    (List.range m.order).flatMap (m.sectionLines prettyFloat sort) ++
    [[], ['\\', 'e', 'n', 'd', '\\']]

/-- The file that `write_lm` writes with `unkp`. -/
def writeLm (unkword : List Char) (sort : Bool) (m : Ngram (List Char) V) : List Char :=
  ((m.setLogpUnk unkword).lmLines prettyFloat sort).flatMap (· ++ ['\n'])

end Ngram

/-- The lines of a file. -/
def fileLines (text : List Char) : List (List Char) :=
  let lines := text.splitOn '\n'
  if lines.getLast? = some [] then lines.dropLast else lines

/-- `rstrip`. -/
def rstrip (line : List Char) : List Char := line.rdropWhile isSpace

/-- `headgrams.match`, with its first group. -/
def matchHeadgrams : List Char → Option ℕ
  | 'n' :: 'g' :: 'r' :: 'a' :: 'm' :: ' ' :: text =>
    match readNumber text with
    | some (n, '=' :: text) => (readNumber text).map fun _ => n
    | _ => none
  | _ => none

/-- `grams.match`, with its group. -/
def matchGrams : List Char → Option ℕ
  | '\\' :: text =>
    match readNumber text with
    | some (n, '-' :: 'g' :: 'r' :: 'a' :: 'm' :: 's' :: ':' :: _) => some n
    | _ => none
  | _ => none

/-- The position of `logp[n-1]` among `order` tables, the last one for `-1`. -/
def tableIndex (order n : ℕ) : Option ℕ :=
  if n ≤ order ∧ 0 < order then some (if n = 0 then order - 1 else n - 1) else none

/-- `read_lm` between two lines: the model, `maxo`, and once a section has begun the place
of its tables and whether `bow` is one. -/
structure LmReader (V : Type u) where
  model : Ngram (List Char) V
  maxo : ℕ
  tables : Option (ℕ × Bool)

namespace LmReader

variable [Zero V] (float : List Char → Option V)

/-- A line with an n-gram for the tables at `o`. -/
def readFields (m : Ngram (List Char) V) (o : ℕ) (hasBow : Bool) :
    List (List Char) → Option (Ngram (List Char) V)
  | lp :: ks :: rest => do
    let phrase := ks.splitOn ' '
    let l ← float lp
    let m := { m with logp := Function.update m.logp o ((m.logp o).set phrase l) }
    if hasBow then
      let b ← match rest with
        | b :: _ => float b
        | [] => some 0
      return { m with bow := Function.update m.bow o ((m.bow o).set phrase b) }
    else return m
  | _ => some m

/-- One round of the loop of `read_lm`. -/
def readLine (s : LmReader V) (line : List Char) : Option (LmReader V) :=
  let line := rstrip line
  match s.tables, matchHeadgrams line with
  | none, some maxo => some { s with maxo := maxo }
  | tables, _ =>
    match matchGrams line with
    | some n =>
      let m := if tables.isNone then s.model.setOrder s.maxo else s.model
      (tableIndex m.order n).map fun o => ⟨m, s.maxo, some (o, n ≠ m.order)⟩
    | none =>
      match tables with
      | some (o, hasBow) =>
        (readFields float s.model o hasBow (line.splitOn '\t')).map fun m =>
          { s with model := m }
      | none => some s

end LmReader

/-- `read_lm` with its default arguments into the model `m`, which has `unkword`. -/
def Ngram.readLm [Zero V] (float : List Char → Option V) (unkword : List Char)
    (m : Ngram (List Char) V) (infile : List Char) : Option (Ngram (List Char) V) := do
  let s ← (fileLines infile).foldlM (LmReader.readLine float) ⟨m.clearCounts, 1, none⟩
  if s.model.order = 0 then none
  else
    return { s.model with
      logpUnk := ((s.model.logp 0).get? [unkword]).getD s.model.logpUnk }

end Code

theorem fileLines_flatMap {lines : List (List Char)} (h : ∀ l ∈ lines, '\n' ∉ l) :
    fileLines (lines.flatMap (· ++ ['\n'])) = lines := by
  have hsplit : (lines.flatMap (· ++ ['\n'])).splitOn '\n' = lines ++ [[]] := by
    induction lines with
    | nil => rfl
    | cons l lines ih =>
      have htail := ih fun l' hl' => h l' (List.mem_cons_of_mem _ hl')
      rw [List.flatMap_cons, List.append_assoc, List.singleton_append,
        List.splitOn_append_cons_self_of_not_mem (h l List.mem_cons_self), htail,
        List.cons_append]
  simp [fileLines, hsplit]

theorem rstrip_eq {line : List Char} (h : ∀ c ∈ line.getLast?, isSpace c = false) :
    rstrip line = line := by
  rw [rstrip, List.rdropWhile_eq_self_iff]
  intro hne
  rw [h _ (List.getLast?_eq_some_getLast hne)]
  exact Bool.false_ne_true

theorem readNumber_toDigits {text : List Char} (n : ℕ) (h : NoDigitAhead text) :
    readNumber (Nat.toDigits 10 n ++ text) = some (n, text) := by
  rw [readNumber_append Nat.toDigits_ne_nil
    (fun c hc => Nat.isDigit_of_mem_toDigits (by decide) (by decide) hc) h,
    Nat.ofDigitChars_ten_toDigits]

theorem isSpace_of_mem_toDigits {n : ℕ} {c : Char} (h : c ∈ Nat.toDigits 10 n) :
    isSpace c = false :=
  isSpace_of_isDigit (Nat.isDigit_of_mem_toDigits (by decide) (by decide) h)

theorem rstrip_headLine (n count : ℕ) : rstrip (headLine n count) = headLine n count := by
  apply rstrip_eq
  intro c hc
  rw [headLine, List.getLast?_append_of_ne_nil _ (List.cons_ne_nil _ _),
    ← List.singleton_append, List.getLast?_append_of_ne_nil _ Nat.toDigits_ne_nil] at hc
  exact isSpace_of_mem_toDigits (List.mem_of_getLast? hc)

theorem matchHeadgrams_headLine (n count : ℕ) : matchHeadgrams (headLine n count) = some n := by
  have hn : readNumber (Nat.toDigits 10 n ++ '=' :: Nat.toDigits 10 count) =
      some (n, '=' :: Nat.toDigits 10 count) :=
    readNumber_toDigits n (noDigitAhead_cons.mpr (by decide))
  have hcount : readNumber (Nat.toDigits 10 count) = some (count, []) := by
    have h := readNumber_toDigits count noDigitAhead_nil
    rwa [List.append_nil] at h
  change (match readNumber (Nat.toDigits 10 n ++ '=' :: Nat.toDigits 10 count) with
    | some (n, '=' :: text) => (readNumber text).map fun _ => n
    | _ => none) = some n
  rw [hn]
  simp [hcount]

theorem rstrip_gramsLine (n : ℕ) : rstrip (gramsLine n) = gramsLine n := by
  apply rstrip_eq
  intro c hc
  rw [gramsLine, List.getLast?_append_of_ne_nil _ (List.cons_ne_nil _ _)] at hc
  cases hc
  rfl

theorem matchGrams_gramsLine (n : ℕ) : matchGrams (gramsLine n) = some n := by
  have hn : readNumber (Nat.toDigits 10 n ++ ['-', 'g', 'r', 'a', 'm', 's', ':']) = _ :=
    readNumber_toDigits n (noDigitAhead_cons.mpr (by decide))
  change (match readNumber (Nat.toDigits 10 n ++ ['-', 'g', 'r', 'a', 'm', 's', ':']) with
    | some (n, '-' :: 'g' :: 'r' :: 'a' :: 'm' :: 's' :: ':' :: _) => some n
    | _ => none) = some n
  rw [hn]
  rfl

theorem matchGrams_eq_none {line : List Char} (h : line.head? ≠ some '\\') :
    matchGrams line = none := by
  unfold matchGrams
  split
  · exact absurd rfl h
  · rfl

section Printing

variable {V : Type u} (prettyFloat : V → List Char) (float : List Char → Option V)

/-- A number that reads back from its text, which has no white space and is not taken for the
head of a section. -/
structure PrintsBack (x : V) : Prop where
  float_eq : float (prettyFloat x) = some x
  ne_nil : prettyFloat x ≠ []
  isSpace : ∀ c ∈ prettyFloat x, isSpace c = false
  head : (prettyFloat x).head? ≠ some '\\'

/-- A word that a file can hold. -/
def IsToken (w : List Char) : Prop := w ≠ [] ∧ ∀ c ∈ w, isSpace c = false

/-- The tables below the order have n-grams of their length. -/
structure Ngram.WellFormed {W : Type v} (m : Ngram W V) : Prop where
  logp : ∀ o < m.order, ∀ k ∈ (m.logp o).keys, k.length = o + 1
  bow : ∀ o < m.order, ∀ k ∈ (m.bow o).keys, k.length = o + 1

/-- A model that a file can hold. -/
structure Ngram.Printable (m : Ngram (List Char) V) : Prop extends m.WellFormed where
  logpPrints : ∀ o < m.order, ∀ e ∈ (m.logp o).entries, PrintsBack prettyFloat float e.2
  bowPrints : ∀ o < m.order, ∀ e ∈ (m.bow o).entries, PrintsBack prettyFloat float e.2
  logpTokens : ∀ o < m.order, ∀ k ∈ (m.logp o).keys, ∀ w ∈ k, IsToken w
  bowTokens : ∀ o < m.order, ∀ k ∈ (m.bow o).keys, ∀ w ∈ k, IsToken w

end Printing

section Lines

variable {V : Type u} [Ring V] [LinearOrder V]
variable {prettyFloat : V → List Char} {float : List Char → Option V}

namespace Ngram

/-- What the line of `k` says of its probability. -/
def printedLogp (m : Ngram (List Char) V) (n : ℕ) (k : List (List Char)) : V :=
  match (m.logp n).get? k with
  | some l => max log100prob l
  | none => log100prob

/-- What the line of `k` says of its backoff weight. -/
def printedBow (m : Ngram (List Char) V) (n : ℕ) (k : List (List Char)) : V :=
  match (m.bow n).get? k with
  | some b => max log100prob b
  | none => 0

/-- Enter an n-gram into the tables at `o`. -/
def enter (m : Ngram (List Char) V) (o : ℕ) (hasBow : Bool) (k : List (List Char)) (l b : V) :
    Ngram (List Char) V :=
  { m with
    logp := Function.update m.logp o ((m.logp o).set k l)
    bow := if hasBow then Function.update m.bow o ((m.bow o).set k b) else m.bow }

variable {m : Ngram (List Char) V} {n : ℕ} {k : List (List Char)}

theorem printsBack_printedLogp (hm : m.Printable prettyFloat float) (hn : n < m.order)
    (hz : PrintsBack prettyFloat float log100prob) :
    PrintsBack prettyFloat float (m.printedLogp n k) := by
  unfold printedLogp
  cases hget : (m.logp n).get? k with
  | none => exact hz
  | some l =>
    rcases max_choice log100prob l with hmax | hmax
    · simpa only [hmax] using hz
    · simpa only [hmax] using hm.logpPrints n hn _ (Dict.mem_entries_iff.mpr hget)

end Ngram

/-- A text that does not end with white space. -/
def EndsBlack (text : List Char) : Prop := ∃ front c, text = front ++ [c] ∧ isSpace c = false

theorem endsBlack_of_forall {text : List Char} (hne : text ≠ [])
    (h : ∀ c ∈ text, isSpace c = false) : EndsBlack text :=
  ⟨text.dropLast, text.getLast hne, (List.dropLast_append_getLast hne).symm,
    h _ (List.getLast_mem hne)⟩

theorem EndsBlack.rstrip_eq {text : List Char} (h : EndsBlack text) : rstrip text = text := by
  rcases h with ⟨front, c, rfl, hc⟩
  apply Sblm.rstrip_eq
  intro d hd
  rw [List.getLast?_concat] at hd
  cases hd
  exact hc

theorem endsBlack_intercalate {sep : Char} {fields : List (List Char)} (hne : fields ≠ [])
    (h : ∀ f ∈ fields, EndsBlack f) : EndsBlack ([sep].intercalate fields) := by
  induction fields with
  | nil => exact absurd rfl hne
  | cons f fields ih =>
    cases fields with
    | nil =>
      rw [List.intercalate_singleton]
      exact h f List.mem_cons_self
    | cons f' fields =>
      rcases ih (List.cons_ne_nil _ _) fun g hg => h g (List.mem_cons_of_mem _ hg)
        with ⟨front, c, heq, hc⟩
      refine ⟨f ++ [sep] ++ front, c, ?_, hc⟩
      rw [List.intercalate_cons_cons, heq, ← List.append_assoc]

theorem mem_intercalate {sep c : Char} {fields : List (List Char)}
    (hc : c ∈ [sep].intercalate fields) : c = sep ∨ ∃ f ∈ fields, c ∈ f := by
  induction fields with
  | nil => cases hc
  | cons f fields ih =>
    cases fields with
    | nil =>
      rw [List.intercalate_singleton] at hc
      exact Or.inr ⟨f, List.mem_cons_self, hc⟩
    | cons f' fields =>
      rw [List.intercalate_cons_cons, List.mem_append, List.mem_append, List.mem_singleton] at hc
      rcases hc with (hc | hc) | hc
      · exact Or.inr ⟨f, List.mem_cons_self, hc⟩
      · exact Or.inl hc
      · rcases ih hc with hc | ⟨g, hg, hc⟩
        · exact Or.inl hc
        · exact Or.inr ⟨g, List.mem_cons_of_mem _ hg, hc⟩

theorem head?_intercalate {sep : Char} {f : List Char} (hne : f ≠ []) (fields : List (List Char)) :
    ([sep].intercalate (f :: fields)).head? = f.head? := by
  cases fields with
  | nil => rw [List.intercalate_singleton]
  | cons f' fields =>
    rw [List.intercalate_cons_cons, List.append_assoc, List.head?_append_of_ne_nil _ hne]

/-- A field of a line: it ends with a black character and has no tab or line end. -/
structure IsField (text : List Char) : Prop where
  endsBlack : EndsBlack text
  noTab : '\t' ∉ text
  noNewline : '\n' ∉ text

omit [Ring V] [LinearOrder V] in
theorem PrintsBack.isField {x : V} (h : PrintsBack prettyFloat float x) :
    IsField (prettyFloat x) where
  endsBlack := endsBlack_of_forall h.ne_nil h.isSpace
  noTab hmem := absurd (h.isSpace _ hmem) (by decide)
  noNewline hmem := absurd (h.isSpace _ hmem) (by decide)

theorem isField_zero : IsField ['0'] where
  endsBlack := ⟨[], '0', rfl, rfl⟩
  noTab := by decide
  noNewline := by decide

theorem isField_phrase {k : List (List Char)} (hne : k ≠ []) (h : ∀ w ∈ k, IsToken w) :
    IsField ([' '].intercalate k) := by
  have hblack : ∀ c ∈ [' '].intercalate k, c = ' ' ∨ isSpace c = false := by
    intro c hc
    rcases mem_intercalate hc with hc | ⟨w, hw, hc⟩
    · exact Or.inl hc
    · exact Or.inr ((h w hw).2 c hc)
  constructor
  · exact endsBlack_intercalate hne fun w hw => endsBlack_of_forall (h w hw).1 (h w hw).2
  · intro hmem
    rcases hblack _ hmem with heq | hspace
    · exact absurd heq (by decide)
    · exact absurd hspace (by decide)
  · intro hmem
    rcases hblack _ hmem with heq | hspace
    · exact absurd heq (by decide)
    · exact absurd hspace (by decide)

theorem newline_notMem_tabbed {fields : List (List Char)} (h : ∀ f ∈ fields, IsField f) :
    '\n' ∉ tabbed fields := by
  intro hmem
  rcases mem_intercalate hmem with heq | ⟨f, hf, hmem⟩
  · exact absurd heq (by decide)
  · exact (h f hf).noNewline hmem

section Keys

variable {m : Ngram (List Char) V} {n : ℕ} {k : List (List Char)}

section

omit [Ring V] [LinearOrder V]

theorem mem_ngramkeys {W : Type v} [DecidableEq W] {m : Ngram W V} {k : List W} :
    k ∈ m.ngramkeys (n + 1) ↔ k ∈ (m.logp n).keys ∨ n ≠ m.om1 ∧ k ∈ (m.bow n).keys := by
  rw [Ngram.ngramkeys, Nat.add_sub_cancel]
  by_cases hn : n = m.om1
  · simp [hn]
  · simp only [if_neg hn, iterkeys2, List.mem_append, List.mem_filter, decide_eq_true_eq]
    by_cases hk : k ∈ (m.logp n).keys
    · simp [hk]
    · simp [hk, hn]

theorem isToken_of_mem_ngramkeys (hm : m.Printable prettyFloat float) (hn : n < m.order)
    (hk : k ∈ m.ngramkeys (n + 1)) : ∀ w ∈ k, IsToken w := by
  rcases mem_ngramkeys.mp hk with hk | ⟨-, hk⟩
  · exact hm.logpTokens n hn k hk
  · exact hm.bowTokens n hn k hk

theorem ne_nil_of_mem_ngramkeys (hm : m.Printable prettyFloat float) (hn : n < m.order)
    (hk : k ∈ m.ngramkeys (n + 1)) : k ≠ [] := by
  have hlen : k.length = n + 1 := by
    rcases mem_ngramkeys.mp hk with hk | ⟨-, hk⟩
    · exact hm.logp n hn k hk
    · exact hm.bow n hn k hk
  rintro rfl
  cases hlen

end

/-- What is printed for a backoff weight. -/
theorem exists_bow_field (hm : m.Printable prettyFloat float) (hn : n < m.order)
    (hz : PrintsBack prettyFloat float log100prob) (h0 : float ['0'] = some 0) :
    ∃ text, (match (m.bow n).get? k with
        | some b => prettyFloat (max log100prob b)
        | none => ['0']) = text ∧ IsField text ∧ float text = some (m.printedBow n k) := by
  refine ⟨_, rfl, ?_⟩
  unfold Ngram.printedBow
  cases hget : (m.bow n).get? k with
  | none => exact ⟨isField_zero, h0⟩
  | some b =>
    have hb : PrintsBack prettyFloat float (max log100prob b) := by
      rcases max_choice log100prob b with hmax | hmax
      · rw [hmax]
        exact hz
      · rw [hmax]
        exact hm.bowPrints n hn _ (Dict.mem_entries_iff.mpr hget)
    exact ⟨hb.isField, hb.float_eq⟩

/-- The fields of a line. The third is there below the highest order. -/
theorem exists_fields (hm : m.Printable prettyFloat float) (hn : n < m.order)
    (hz : PrintsBack prettyFloat float log100prob) (h0 : float ['0'] = some 0)
    (hk : k ∈ m.ngramkeys (n + 1)) :
    ∃ rest, m.wkey prettyFloat n k =
        tabbed (prettyFloat (m.printedLogp n k) :: [' '].intercalate k :: rest) ∧
      (∀ f ∈ prettyFloat (m.printedLogp n k) :: [' '].intercalate k :: rest, IsField f) ∧
      (n + 1 = m.order ∨
        n + 1 ≠ m.order ∧ ∃ text, rest = [text] ∧ float text = some (m.printedBow n k)) := by
  have hlp := (Ngram.printsBack_printedLogp (k := k) hm hn hz).isField
  have hphrase :=
    isField_phrase (ne_nil_of_mem_ngramkeys hm hn hk) (isToken_of_mem_ngramkeys hm hn hk)
  by_cases hlast : n + 1 = m.order
  · have hom : n = m.om1 := by
      rw [Ngram.om1]
      omega
    refine ⟨[], ?_, ?_, Or.inl hlast⟩
    · rw [Ngram.wkey, if_pos hom]
      rfl
    · simp only [List.mem_cons, List.not_mem_nil, or_false]
      rintro f (rfl | rfl)
      · exact hlp
      · exact hphrase
  · have hom : ¬ n = m.om1 := by
      rw [Ngram.om1]
      omega
    rcases exists_bow_field (k := k) hm hn hz h0 with ⟨text, htext, hfield, hfloat⟩
    refine ⟨[text], ?_, ?_, Or.inr ⟨hlast, text, rfl, hfloat⟩⟩
    · rw [Ngram.wkey, if_neg hom, ← htext]
      rfl
    · simp only [List.mem_cons, List.not_mem_nil, or_false]
      rintro f (rfl | rfl | rfl)
      · exact hlp
      · exact hphrase
      · exact hfield

end Keys

namespace LmReader

variable {s : LmReader V} {o : ℕ} {hasBow : Bool}

omit [LinearOrder V] in
/-- In a section, a line of fields is taken for an n-gram. -/
theorem readLine_tabbed {f : List Char} {fields : List (List Char)}
    (hs : s.tables = some (o, hasBow)) (hfields : ∀ g ∈ f :: fields, IsField g) (hne : f ≠ [])
    (hhead : f.head? ≠ some '\\') :
    s.readLine float (tabbed (f :: fields)) =
      (readFields float s.model o hasBow (f :: fields)).map fun m => { s with model := m } := by
  have hstrip : rstrip (tabbed (f :: fields)) = tabbed (f :: fields) :=
    (endsBlack_intercalate (List.cons_ne_nil _ _) fun g hg => (hfields g hg).endsBlack).rstrip_eq
  have hgrams : matchGrams (tabbed (f :: fields)) = none := by
    apply matchGrams_eq_none
    rw [tabbed, head?_intercalate hne]
    exact hhead
  have hsplit : (tabbed (f :: fields)).splitOn '\t' = f :: fields :=
    List.splitOn_intercalate _ (fun g hg => (hfields g hg).noTab) (List.cons_ne_nil _ _)
  rw [readLine, hstrip, hs]
  simp only [hgrams, hsplit]

variable {m : Ngram (List Char) V} {n : ℕ} {k : List (List Char)}

omit [LinearOrder V] in
/-- A line that is no head of anything and has one field. -/
theorem readLine_plain {line : List Char} (hstrip : rstrip line = line)
    (hhead : matchHeadgrams line = none) (hgrams : matchGrams line = none) (htab : '\t' ∉ line) :
    s.readLine float line = some s := by
  have hsplit : line.splitOn '\t' = [line] := List.splitOn_eq_singleton htab
  rw [readLine, hstrip, hhead]
  cases htables : s.tables with
  | none => simp only [hgrams]
  | some tables =>
    simp only [hgrams, hsplit, readFields, Option.map_some, ← htables]

omit [LinearOrder V] in
theorem readLine_headLine (hs : s.tables = none) (n count : ℕ) :
    s.readLine float (headLine n count) = some { s with maxo := n } := by
  rw [readLine, rstrip_headLine, matchHeadgrams_headLine, hs]

/-- The model that a section is read into. -/
def begun (s : LmReader V) : Ngram (List Char) V :=
  if s.tables.isNone then s.model.setOrder s.maxo else s.model

omit [LinearOrder V] in
theorem readLine_gramsLine (hn : n < s.begun.order) :
    s.readLine float (gramsLine (n + 1)) =
      some ⟨s.begun, s.maxo, some (n, n + 1 ≠ s.begun.order)⟩ := by
  have hhead : matchHeadgrams (gramsLine (n + 1)) = none := rfl
  have hindex : tableIndex s.begun.order (n + 1) = some n := by
    have hle : n + 1 ≤ s.begun.order ∧ 0 < s.begun.order := by omega
    rw [tableIndex, if_pos hle, if_neg (Nat.succ_ne_zero n), Nat.add_sub_cancel]
  rw [readLine, rstrip_gramsLine, hhead]
  cases htables : s.tables with
  | none =>
    rw [begun, htables] at hindex ⊢
    simp only [matchGrams_gramsLine]
    rw [hindex]
    rfl
  | some tables =>
    rw [begun, htables] at hindex ⊢
    simp only [matchGrams_gramsLine]
    rw [hindex]
    rfl

/-- The line of an n-gram. -/
theorem readLine_wkey (hm : m.Printable prettyFloat float) (hn : n < m.order)
    (hz : PrintsBack prettyFloat float log100prob) (h0 : float ['0'] = some 0)
    (hk : k ∈ m.ngramkeys (n + 1)) (hs : s.tables = some (n, decide (n + 1 ≠ m.order))) :
    s.readLine float (m.wkey prettyFloat n k) = some { s with
      model := s.model.enter n (decide (n + 1 ≠ m.order)) k (m.printedLogp n k)
        (m.printedBow n k) } := by
  have hlp := Ngram.printsBack_printedLogp (k := k) hm hn hz
  have hsplit : ([' '].intercalate k).splitOn ' ' = k := by
    apply List.splitOn_intercalate
    · intro w hw hmem
      exact absurd ((isToken_of_mem_ngramkeys hm hn hk w hw).2 _ hmem) (by decide)
    · exact ne_nil_of_mem_ngramkeys hm hn hk
  rcases exists_fields hm hn hz h0 hk with ⟨rest, hline, hfields, hlast | ⟨hlast, text, hrest, hfloat⟩⟩
  · have hbow : decide (n + 1 ≠ m.order) = false := by simp [hlast]
    rw [hbow] at hs
    rw [hline, readLine_tabbed hs hfields hlp.ne_nil hlp.head, hbow]
    simp [readFields, hsplit, hlp.float_eq, Ngram.enter]
  · have hbow : decide (n + 1 ≠ m.order) = true := by simp [hlast]
    rw [hbow] at hs
    rw [hline, readLine_tabbed hs hfields hlp.ne_nil hlp.head, hbow]
    simp [readFields, hrest, hsplit, hlp.float_eq, hfloat, Ngram.enter]

end LmReader

end Lines

section Sections

variable {V : Type u} [Ring V] [LinearOrder V]
variable {prettyFloat : V → List Char} {float : List Char → Option V}
variable {m r : Ngram (List Char) V} {n : ℕ} {ks : List (List (List Char))}

namespace Ngram

/-- Enter n-grams as their lines have them. -/
def enterAll (m : Ngram (List Char) V) (n : ℕ) (ks : List (List (List Char)))
    (r : Ngram (List Char) V) : Ngram (List Char) V :=
  ks.foldl
    (fun r k => r.enter n (decide (n + 1 ≠ m.order)) k (m.printedLogp n k) (m.printedBow n k)) r

theorem order_enterAll : (m.enterAll n ks r).order = r.order := by
  induction ks generalizing r with
  | nil => rfl
  | cons k ks ih => exact ih

theorem logp_enterAll : (m.enterAll n ks r).logp =
    Function.update r.logp n (ks.foldl (fun d k => d.set k (m.printedLogp n k)) (r.logp n)) := by
  induction ks generalizing r with
  | nil => exact (Function.update_eq_self n r.logp).symm
  | cons k ks ih =>
    refine ih.trans ?_
    simp only [enter, Function.update_self, Function.update_idem, List.foldl_cons]

theorem bow_enterAll : (m.enterAll n ks r).bow = if n + 1 = m.order then r.bow
    else Function.update r.bow n (ks.foldl (fun d k => d.set k (m.printedBow n k)) (r.bow n)) := by
  by_cases hlast : n + 1 = m.order
  · rw [if_pos hlast]
    induction ks generalizing r with
    | nil => rfl
    | cons k ks ih =>
      refine ih.trans ?_
      simp [enter, hlast]
  · rw [if_neg hlast]
    induction ks generalizing r with
    | nil => exact (Function.update_eq_self n r.bow).symm
    | cons k ks ih =>
      refine ih.trans ?_
      simp [enter, hlast, Function.update_idem]

/-- The sections below `n` have been read into `r`. -/
structure ReadUpTo (m : Ngram (List Char) V) (n : ℕ) (r : Ngram (List Char) V) : Prop where
  order : r.order = m.order
  logp : ∀ o < n, ∀ k, (r.logp o).get? k =
    if k ∈ m.ngramkeys (o + 1) then some (m.printedLogp o k) else none
  bow : ∀ o < n, o + 1 ≠ m.order → ∀ k, (r.bow o).get? k =
    if k ∈ m.ngramkeys (o + 1) then some (m.printedBow o k) else none
  logpAbove : ∀ o, n ≤ o → r.logp o = .empty
  bowAbove : ∀ o, n ≤ o → r.bow o = .empty

theorem ReadUpTo.enterAll (h : m.ReadUpTo n r) (hks : ∀ k, k ∈ ks ↔ k ∈ m.ngramkeys (n + 1)) :
    m.ReadUpTo (n + 1) (m.enterAll n ks r) where
  order := order_enterAll.trans h.order
  logp o ho k := by
    rw [logp_enterAll]
    by_cases hon : o = n
    · subst hon
      rw [Function.update_self, Dict.get?_foldl_set, h.logpAbove o (Nat.le_refl o), Dict.get?_empty]
      simp only [hks]
    · rw [Function.update_of_ne hon]
      exact h.logp o (by omega) k
  bow o ho hlast k := by
    rw [bow_enterAll]
    by_cases hon : o = n
    · subst hon
      rw [if_neg hlast, Function.update_self, Dict.get?_foldl_set, h.bowAbove o (Nat.le_refl o),
        Dict.get?_empty]
      simp only [hks]
    · have hsame : (if n + 1 = m.order then r.bow else Function.update r.bow n
          (ks.foldl (fun d k => d.set k (m.printedBow n k)) (r.bow n))) o = r.bow o := by
        by_cases hend : n + 1 = m.order
        · rw [if_pos hend]
        · rw [if_neg hend, Function.update_of_ne hon]
      rw [hsame]
      exact h.bow o (by omega) hlast k
  logpAbove o ho := by
    have hon : o ≠ n := by omega
    rw [logp_enterAll, Function.update_of_ne hon]
    exact h.logpAbove o (by omega)
  bowAbove o ho := by
    have hon : o ≠ n := by omega
    rw [bow_enterAll]
    by_cases hend : n + 1 = m.order
    · rw [if_pos hend]
      exact h.bowAbove o (by omega)
    · rw [if_neg hend, Function.update_of_ne hon]
      exact h.bowAbove o (by omega)

end Ngram

variable {s : LmReader V} {sort : Bool}

theorem foldlM_wkey (hm : m.Printable prettyFloat float) (hn : n < m.order)
    (hz : PrintsBack prettyFloat float log100prob) (h0 : float ['0'] = some 0)
    (hks : ∀ k ∈ ks, k ∈ m.ngramkeys (n + 1)) (hs : s.tables = some (n, decide (n + 1 ≠ m.order))) :
    (ks.map (m.wkey prettyFloat n)).foldlM (LmReader.readLine float) s =
      some { s with model := m.enterAll n ks s.model } := by
  induction ks generalizing s with
  | nil => rfl
  | cons k ks ih =>
    have hk := LmReader.readLine_wkey hm hn hz h0 (hks k List.mem_cons_self) hs
    rw [List.map_cons, List.foldlM_cons, hk]
    exact ih (fun j hj => hks j (List.mem_cons_of_mem _ hj)) hs

variable (sort) in
/-- The section of the n-grams of order `n + 1`. -/
theorem foldlM_sectionLines (hm : m.Printable prettyFloat float) (hn : n < m.order)
    (hz : PrintsBack prettyFloat float log100prob) (h0 : float ['0'] = some 0)
    (hs : s.begun.order = m.order) :
    ∃ ks, (∀ k, k ∈ ks ↔ k ∈ m.ngramkeys (n + 1)) ∧
      (m.sectionLines prettyFloat sort n).foldlM (LmReader.readLine float) s =
        some ⟨m.enterAll n ks s.begun, s.maxo, some (n, decide (n + 1 ≠ m.order))⟩ := by
  let ks := if sort then (m.ngramkeys (n + 1)).mergeSort (fun a b => decide (a ≤ b))
    else m.ngramkeys (n + 1)
  have hks : ∀ k, k ∈ ks ↔ k ∈ m.ngramkeys (n + 1) := by
    intro k
    cases sort with
    | false => rfl
    | true => exact (List.mergeSort_perm _ _).mem_iff
  refine ⟨ks, hks, ?_⟩
  have hblank : s.readLine float [] = some s :=
    LmReader.readLine_plain rfl rfl rfl List.not_mem_nil
  have hgrams : s.readLine float (gramsLine (n + 1)) = _ :=
    LmReader.readLine_gramsLine (hs.symm ▸ hn)
  rw [hs] at hgrams
  have hlines : m.sectionLines prettyFloat sort n =
      [] :: gramsLine (n + 1) :: ks.map (m.wkey prettyFloat n) := rfl
  rw [hlines, List.foldlM_cons, hblank, Option.bind_eq_bind, Option.bind_some, List.foldlM_cons,
    hgrams]
  exact foldlM_wkey (s := ⟨s.begun, s.maxo, some (n, decide (n + 1 ≠ m.order))⟩) hm hn hz h0
    (fun k hk => (hks k).mp hk) rfl

variable (sort) in
theorem foldlM_sections (hm : m.Printable prettyFloat float)
    (hz : PrintsBack prettyFloat float log100prob) (h0 : float ['0'] = some 0)
    (hs : m.ReadUpTo 0 s.begun) (hn : n ≤ m.order) :
    ∃ s', ((List.range n).flatMap (m.sectionLines prettyFloat sort)).foldlM
        (LmReader.readLine float) s = some s' ∧
      m.ReadUpTo n s'.begun ∧ (0 < n → s'.tables.isNone = false) := by
  induction n with
  | zero => exact ⟨s, rfl, hs, fun h => absurd h (Nat.lt_irrefl 0)⟩
  | succ n ih =>
    rcases ih (by omega) with ⟨s', hrun, hread, -⟩
    rcases foldlM_sectionLines sort (n := n) hm (by omega) hz h0 hread.order
      with ⟨ks, hks, hstep⟩
    rw [List.range_succ, List.flatMap_append, List.foldlM_append, hrun, List.flatMap_singleton]
    exact ⟨_, hstep, hread.enterAll hks, fun _ => rfl⟩

variable (float) in
omit [LinearOrder V] in
theorem foldlM_headLines (counts : ℕ → ℕ) (n : ℕ) (hs : s.tables = none) :
    ((List.range n).map fun n => headLine (n + 1) (counts n)).foldlM (LmReader.readLine float) s =
      some { s with maxo := if n = 0 then s.maxo else n } := by
  induction n with
  | zero => rfl
  | succ n ih =>
    have hstep : (LmReader.readLine float { s with maxo := if n = 0 then s.maxo else n }
        (headLine (n + 1) (counts n))) = some { s with maxo := n + 1 } :=
      LmReader.readLine_headLine (s := { s with maxo := if n = 0 then s.maxo else n }) hs _ _
    rw [List.range_succ, List.map_append, List.foldlM_append, ih]
    simpa using hstep

/-! ### Reading a file -/
variable (sort) in

theorem newline_notMem_lmLines (hm : m.Printable prettyFloat float)
    (hz : PrintsBack prettyFloat float log100prob) (h0 : float ['0'] = some 0) :
    ∀ line ∈ m.lmLines prettyFloat sort, '\n' ∉ line := by
  have hdigits : ∀ n, '\n' ∉ Nat.toDigits 10 n := by
    intro n hmem
    exact absurd (isSpace_of_mem_toDigits hmem) (by decide)
  have hsection : ∀ n < m.order, ∀ line ∈ m.sectionLines prettyFloat sort n, '\n' ∉ line := by
    intro n hn line hline
    rw [Ngram.sectionLines, List.mem_cons, List.mem_cons, List.mem_map] at hline
    rcases hline with rfl | rfl | ⟨k, hk, rfl⟩
    · exact List.not_mem_nil
    · simp [gramsLine, hdigits]
    · have hkey : k ∈ m.ngramkeys (n + 1) := by
        cases sort with
        | false => exact hk
        | true => exact (List.mergeSort_perm _ _).mem_iff.mp hk
      rcases exists_fields hm hn hz h0 hkey with ⟨rest, heq, hfields, -⟩
      rw [heq]
      exact newline_notMem_tabbed hfields
  intro line hline
  rw [Ngram.lmLines] at hline
  simp only [List.mem_append, List.mem_cons, List.not_mem_nil, or_false, List.mem_map,
    List.mem_flatMap, List.mem_range] at hline
  rcases hline with (((rfl | rfl) | ⟨n, -, rfl⟩) | ⟨n, hn, hline⟩) | rfl | rfl
  · decide
  · decide
  · simp [headLine, hdigits]
  · exact hsection n hn line hline
  · decide
  · decide

variable (sort) in
/-- Reading the lines of a model into an object that had the model `r`. -/
theorem exists_foldlM_lmLines (hm : m.Printable prettyFloat float)
    (hz : PrintsBack prettyFloat float log100prob) (h0 : float ['0'] = some 0)
    (horder : 0 < m.order) (r : Ngram (List Char) V) :
    ∃ s, (m.lmLines prettyFloat sort).foldlM (LmReader.readLine float) ⟨r, 1, none⟩ = some s ∧
      m.ReadUpTo m.order s.model := by
  have hblank : ∀ s : LmReader V, s.readLine float [] = some s := fun s =>
    LmReader.readLine_plain rfl rfl rfl List.not_mem_nil
  have hdata : ∀ s : LmReader V, s.readLine float ['\\', 'd', 'a', 't', 'a', '\\'] = some s :=
    fun s => LmReader.readLine_plain (by decide) rfl rfl (by decide)
  have hend : ∀ s : LmReader V, s.readLine float ['\\', 'e', 'n', 'd', '\\'] = some s :=
    fun s => LmReader.readLine_plain (by decide) rfl rfl (by decide)
  have hheads := foldlM_headLines float (s := ⟨r, 1, none⟩)
    (fun n => (m.ngramkeys (n + 1)).length) m.order rfl
  have hmaxo : (if m.order = 0 then 1 else m.order) = m.order := if_neg (by omega)
  rw [hmaxo] at hheads
  have hstart : m.ReadUpTo 0 (LmReader.begun ⟨r, m.order, none⟩) :=
    ⟨rfl, fun _ h => absurd h (Nat.not_lt_zero _), fun _ h => absurd h (Nat.not_lt_zero _),
      fun _ _ => rfl, fun _ _ => rfl⟩
  rcases foldlM_sections sort hm hz h0 hstart (Nat.le_refl _)
    with ⟨s, hrun, hread, htables⟩
  have hmodel : s.begun = s.model := by
    rw [LmReader.begun, htables horder]
    rfl
  refine ⟨s, ?_, hmodel ▸ hread⟩
  rw [Ngram.lmLines, List.foldlM_append, List.foldlM_append, List.foldlM_append]
  simp only [List.foldlM_cons, List.foldlM_nil, hblank, hdata, hheads, hrun, hend,
    Option.bind_eq_bind, Option.bind_some, Option.pure_def]

end Sections

end Carmel.Sblm
