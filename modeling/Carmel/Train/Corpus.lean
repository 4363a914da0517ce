/-
# The training corpus

A corpus is a list of weighted pairs of sequences, with running statistics that
are brought up to date whenever a pair is counted. The numbers that the source
keeps in floating point are elements of an arbitrary semiring here.
-/

import Carmel.Train.SymbolText

namespace Carmel

universe u

/-- A training pair: the two sequences and the example weight. -/
structure IOSymSeq (F : Type u) where
  i : List ℕ
  o : List ℕ
  weight : F
deriving DecidableEq, Repr

structure TrainingCorpus (F : Type u) where
  maxIn : ℕ
  maxOut : ℕ
  examples : List (IOSymSeq F)
  nPairs : ℕ
  totalEmpiricalWeight : F
  nInput : F
  nOutput : F
  wInput : F
  wOutput : F
deriving DecidableEq, Repr

namespace TrainingCorpus

variable {F : Type u} [Semiring F]

def clearCounts (c : TrainingCorpus F) : TrainingCorpus F where
  maxIn := 0
  maxOut := 0
  examples := c.examples
  nPairs := 0
  totalEmpiricalWeight := 0
  nInput := 0
  nOutput := 0
  wInput := 0
  wOutput := 0

def clear : TrainingCorpus F := clearCounts ⟨0, 0, [], 0, 0, 0, 0, 0, 0⟩

/-- `count(n)`: add one pair to the statistics. -/
def count (c : TrainingCorpus F) (n : IOSymSeq F) : TrainingCorpus F where
  maxIn := max c.maxIn n.i.length
  maxOut := max c.maxOut n.o.length
  examples := c.examples
  nPairs := c.nPairs + 1
  totalEmpiricalWeight := c.totalEmpiricalWeight + n.weight
  nInput := c.nInput + n.i.length
  nOutput := c.nOutput + n.o.length
  wInput := c.wInput + n.weight * n.i.length
  wOutput := c.wOutput + n.weight * n.o.length

/-- `count()`: the statistics of the examples, afresh. -/
def countAll (c : TrainingCorpus F) : TrainingCorpus F :=
  c.examples.foldl count c.clearCounts

/-- `add`: push a pair to the front and count it. -/
def add (c : TrainingCorpus F) (n : IOSymSeq F) : TrainingCorpus F :=
  { c with examples := n :: c.examples }.count n

def finishAdding (c : TrainingCorpus F) : TrainingCorpus F :=
  { c with examples := c.examples.reverse }

/-- The corpus of `read_training_corpus`, given the pairs it reads. -/
def read (pairs : List (IOSymSeq F)) : TrainingCorpus F := (pairs.foldl add clear).finishAdding

/-- The statistics are those of the pairs `l`. -/
structure CountsOf (c : TrainingCorpus F) (l : List (IOSymSeq F)) : Prop where
  nPairs : c.nPairs = l.length
  totalEmpiricalWeight : c.totalEmpiricalWeight = (l.map (·.weight)).sum
  nInput : c.nInput = (l.map fun n => (n.i.length : F)).sum
  nOutput : c.nOutput = (l.map fun n => (n.o.length : F)).sum
  wInput : c.wInput = (l.map fun n => n.weight * (n.i.length : F)).sum
  wOutput : c.wOutput = (l.map fun n => n.weight * (n.o.length : F)).sum

variable {c : TrainingCorpus F} {l : List (IOSymSeq F)} {n : IOSymSeq F}

@[simp] theorem examples_clearCounts : c.clearCounts.examples = c.examples := rfl

@[simp] theorem examples_count : (c.count n).examples = c.examples := rfl

@[simp] theorem examples_add : (c.add n).examples = n :: c.examples := rfl

theorem countsOf_clearCounts : c.clearCounts.CountsOf [] :=
  ⟨rfl, rfl, rfl, rfl, rfl, rfl⟩

theorem CountsOf.count (h : c.CountsOf l) : (c.count n).CountsOf (l ++ [n]) where
  nPairs := by simp [TrainingCorpus.count, h.nPairs]
  totalEmpiricalWeight := by simp [TrainingCorpus.count, h.totalEmpiricalWeight]
  nInput := by simp [TrainingCorpus.count, h.nInput]
  nOutput := by simp [TrainingCorpus.count, h.nOutput]
  wInput := by simp [TrainingCorpus.count, h.wInput]
  wOutput := by simp [TrainingCorpus.count, h.wOutput]

theorem CountsOf.congr {c' : TrainingCorpus F} (h : c.CountsOf l) (hn : c'.nPairs = c.nPairs)
    (ht : c'.totalEmpiricalWeight = c.totalEmpiricalWeight) (hi : c'.nInput = c.nInput)
    (ho : c'.nOutput = c.nOutput) (hwi : c'.wInput = c.wInput) (hwo : c'.wOutput = c.wOutput) :
    c'.CountsOf l :=
  ⟨hn.trans h.nPairs, ht.trans h.totalEmpiricalWeight, hi.trans h.nInput, ho.trans h.nOutput,
    hwi.trans h.wInput, hwo.trans h.wOutput⟩

theorem CountsOf.foldl_count (h : c.CountsOf l) (l' : List (IOSymSeq F)) :
    (l'.foldl TrainingCorpus.count c).CountsOf (l ++ l') := by
  induction l' generalizing c l with
  | nil => simpa using h
  | cons n l' ih =>
    rw [List.append_cons]
    exact ih h.count

theorem examples_foldl_count (l : List (IOSymSeq F)) :
    (l.foldl TrainingCorpus.count c).examples = c.examples := by
  induction l generalizing c with
  | nil => rfl
  | cons n l ih => exact ih.trans examples_count

theorem countsOf_countAll : c.countAll.CountsOf c.examples :=
  countsOf_clearCounts.foldl_count c.examples

theorem examples_foldl_add (pairs : List (IOSymSeq F)) :
    (pairs.foldl add c).examples = pairs.reverse ++ c.examples := by
  induction pairs generalizing c with
  | nil => rfl
  | cons n pairs ih => simp [List.foldl_cons, ih]

theorem CountsOf.foldl_add (h : c.CountsOf l) (pairs : List (IOSymSeq F)) :
    (pairs.foldl add c).CountsOf (l ++ pairs) := by
  induction pairs generalizing c l with
  | nil => simpa using h
  | cons n pairs ih =>
    have hpush : ({ c with examples := n :: c.examples } : TrainingCorpus F).CountsOf l :=
      h.congr rfl rfl rfl rfl rfl rfl
    rw [List.append_cons]
    exact ih hpush.count

theorem examples_read (pairs : List (IOSymSeq F)) : (read pairs).examples = pairs := by
  change (pairs.foldl add clear).examples.reverse = pairs
  simp [examples_foldl_add, clear]

theorem countsOf_read (pairs : List (IOSymSeq F)) : (read pairs).CountsOf pairs :=
  (countsOf_clearCounts.foldl_add pairs).congr rfl rfl rfl rfl rfl rfl

/-- Statistics that fit a smaller and a larger selection of the pairs show them equal. -/
theorem CountsOf.filter_le {p q : IOSymSeq F → Bool} (hp : c.CountsOf (l.filter p))
    (hq : c.CountsOf (l.filter q)) (hpq : ∀ ex ∈ l, p ex = true → q ex = true) :
    ∀ ex ∈ l, q ex = true → p ex = true := by
  have hfilter : l.filter p = (l.filter q).filter p := by
    rw [List.filter_filter]
    refine List.filter_congr fun ex hex => ?_
    cases hpex : p ex with
    | false => rfl
    | true => simp [hpq ex hex hpex]
  have hsub : (l.filter p).Sublist (l.filter q) := hfilter ▸ List.filter_sublist
  have heq := hsub.eq_of_length (hp.nPairs.symm.trans hq.nPairs)
  intro ex hex hqex
  have hmem : ex ∈ l.filter p := heq ▸ List.mem_filter.mpr ⟨hex, hqex⟩
  exact (List.mem_filter.mp hmem).2

end TrainingCorpus

end Carmel

/-!
## Training corpora as text

The reader takes a line for an example weight when its first character could begin a number.
Printing and reading give the same pairs exactly when no input sequence begins with such a
symbol and every name survives being put on a line.
-/

namespace Carmel

universe u

/-- The lines of a text, as `getline` gives them one after another. -/
def getlines : List Char → List (List Char)
  | [] => []
  | c :: text =>
    if c = '\n' then [] :: getlines text
    else
      match getlines text with
      | [] => [[c]]
      | line :: lines => (c :: line) :: lines

/-- The test on the first character of a line that is to be an example weight. -/
def weightLine : List Char → Bool
  | [] => false
  | s :: _ => s.isDigit || s = '-' || s = '.' || s = 'e'

/-- What the reader works on: the alphabets of the transducer, to which symbols
may be added, and the corpus. -/
structure CorpusReader (F : Type u) where
  inp : Alphabet
  out : Alphabet
  corpus : TrainingCorpus F

section Reader

variable {F : Type u} [Semiring F]

namespace CorpusReader

/-- Look up the symbols of an input line and of an output line and add the pair. -/
def addPair (r : CorpusReader F) (ins outs : List Char) (weight : F) : CorpusReader F where
  inp := (symbolList r.inp ins).2
  out := (symbolList r.out outs).2
  corpus := r.corpus.add ⟨(symbolList r.inp ins).1, (symbolList r.out outs).1, weight⟩

/-- An input line that no output line follows leaves its symbols in the alphabet. -/
def addInput (r : CorpusReader F) (ins : List Char) : CorpusReader F :=
  { r with inp := (symbolList r.inp ins).2 }

end CorpusReader

/-- The loop of `read_training_corpus` over the lines. `toWeight` reads a line that
holds one number and nothing else. -/
def readLoop (toWeight : List Char → Option F) :
    List (List Char) → CorpusReader F → CorpusReader F
  | [], r => r
  | buf :: lines, r =>
    if weightLine buf then
      match toWeight buf with
      | none => readLoop toWeight lines r
      | some weight =>
        match lines with
        | [] => r
        | [ins] => r.addInput ins
        | ins :: outs :: lines => readLoop toWeight lines (r.addPair ins outs weight)
    else
      match lines with
      | [] => r.addInput buf
      | outs :: lines => readLoop toWeight lines (r.addPair buf outs 1)

/-- `read_training_corpus`. -/
def readTrainingCorpus (toWeight : List Char → Option F) (inp out : Alphabet)
    (text : List Char) : CorpusReader F :=
  let r := readLoop toWeight (getlines text) ⟨inp, out, .clear⟩
  { r with corpus := r.corpus.finishAdding }

end Reader

/-- `IOSymSeq::print`: the two sequences, each with a line break. -/
def IOSymSeq.print {F : Type u} (ex : IOSymSeq F) (inp out : Alphabet) : List Char :=
  printSymSeq inp ex.i ++ '\n' :: (printSymSeq out ex.o ++ ['\n'])

/-- Each pair printed, one after another. -/
def printCorpus {F : Type u} (inp out : Alphabet) (corpus : List (IOSymSeq F)) : List Char :=
  corpus.flatMap fun ex => ex.print inp out

theorem getlines_append {line : List Char} (h : '\n' ∉ line) (text : List Char) :
    getlines (line ++ '\n' :: text) = line :: getlines text := by
  induction line with
  | nil => simp [getlines]
  | cons c line ih =>
    simp only [List.mem_cons, not_or] at h
    rw [List.cons_append, getlines, if_neg (Ne.symm h.1), ih h.2]

theorem newline_notMem_of_mem_getlines (text : List Char) :
    ∀ line ∈ getlines text, '\n' ∉ line := by
  induction text with
  | nil => simp [getlines]
  | cons c text ih =>
    unfold getlines
    split
    · simpa using ih
    · rename_i hc
      cases hlines : getlines text with
      | nil => simpa using Ne.symm hc
      | cons line lines =>
        rw [hlines] at ih
        intro l hl
        cases hl with
        | head =>
          simp only [List.mem_cons, not_or]
          exact ⟨Ne.symm hc, ih line (List.mem_cons_self ..)⟩
        | tail _ hl => exact ih l (List.mem_cons_of_mem _ hl)

section Reading

variable {F : Type u} [Semiring F] {toWeight : List Char → Option F} {r : CorpusReader F}
  {lines : List (List Char)}

namespace CorpusReader

@[simp] theorem examples_addPair (ins outs : List Char) (weight : F) :
    (r.addPair ins outs weight).corpus.examples =
      ⟨(symbolList r.inp ins).1, (symbolList r.out outs).1, weight⟩ :: r.corpus.examples := rfl

omit [Semiring F] in
@[simp] theorem corpus_addInput (ins : List Char) : (r.addInput ins).corpus = r.corpus := rfl

/-- The alphabets of one reader go on in another. -/
def Grows (r r' : CorpusReader F) : Prop :=
  r.inp.names <+: r'.inp.names ∧ r.out.names <+: r'.out.names

omit [Semiring F] in
theorem Grows.trans {r r' r'' : CorpusReader F} (h : r.Grows r') (h' : r'.Grows r'') : r.Grows r'' :=
  ⟨h.1.trans h'.1, h.2.trans h'.2⟩

theorem grows_addPair (r : CorpusReader F) (ins outs : List Char) (weight : F) :
    r.Grows (r.addPair ins outs weight) :=
  ⟨Alphabet.isPrefix_indicesOf .., Alphabet.isPrefix_indicesOf ..⟩

omit [Semiring F] in
theorem grows_addInput (r : CorpusReader F) (ins : List Char) : r.Grows (r.addInput ins) :=
  ⟨Alphabet.isPrefix_indicesOf .., List.prefix_rfl⟩

end CorpusReader

/-- One rule for what every line that is read keeps. -/
theorem readLoop_induct {P : CorpusReader F → Prop}
    (hpair : ∀ r, P r → ∀ ins ∈ lines, ∀ outs ∈ lines, ∀ weight, P (r.addPair ins outs weight))
    (hinput : ∀ r, P r → ∀ ins ∈ lines, P (r.addInput ins)) (h : P r) :
    P (readLoop toWeight lines r) := by
  fun_induction readLoop toWeight lines r with
  | case1 r => exact h
  | case2 buf lines r hbuf hw ih =>
    apply ih _ _ h
    · intro r hr ins hins outs houts
      exact hpair r hr ins (List.mem_cons_of_mem _ hins) outs (List.mem_cons_of_mem _ houts)
    · intro r hr ins hins
      exact hinput r hr ins (List.mem_cons_of_mem _ hins)
  | case3 buf r hbuf weight hw => exact h
  | case4 buf r hbuf weight hw ins => exact hinput r h ins (by simp)
  | case5 buf r hbuf weight hw ins outs lines ih =>
    have hsub : ∀ line ∈ lines, line ∈ buf :: ins :: outs :: lines := by
      intro line hline
      simp [hline]
    apply ih
    · intro r hr ins hins outs houts
      exact hpair r hr ins (hsub ins hins) outs (hsub outs houts)
    · intro r hr ins hins
      exact hinput r hr ins (hsub ins hins)
    · exact hpair r h ins (by simp) outs (by simp) weight
  | case6 buf r hbuf => exact hinput r h buf (by simp)
  | case7 buf r hbuf outs lines ih =>
    have hsub : ∀ line ∈ lines, line ∈ buf :: outs :: lines := by
      intro line hline
      simp [hline]
    apply ih
    · intro r hr ins hins outs houts
      exact hpair r hr ins (hsub ins hins) outs (hsub outs houts)
    · intro r hr ins hins
      exact hinput r hr ins (hsub ins hins)
    · exact hpair r h buf (by simp) outs (by simp) 1

variable (toWeight) in
theorem grows_readLoop (lines : List (List Char)) (r : CorpusReader F) :
    r.Grows (readLoop toWeight lines r) :=
  readLoop_induct (P := r.Grows) (fun r' h ins _ outs _ weight => h.trans (r'.grows_addPair ins outs weight))
    (fun r' h ins _ => h.trans (r'.grows_addInput ins)) ⟨List.prefix_rfl, List.prefix_rfl⟩

variable (toWeight) in
/-- Every pair takes two lines, and a line that is taken for a weight is not one of them. -/
theorem examples_readLoop (lines : List (List Char)) (r : CorpusReader F) :
    ∃ new, (readLoop toWeight lines r).corpus.examples = new ++ r.corpus.examples ∧
      2 * new.length ≤ lines.length ∧
      ∀ buf ∈ lines.head?, weightLine buf = true → 2 * new.length < lines.length := by
  fun_induction readLoop toWeight lines r with
  | case1 r => exact ⟨[], rfl, by simp, by simp⟩
  | case2 buf lines r hbuf hw ih =>
    rcases ih with ⟨new, hnew, hlen, -⟩
    exact ⟨new, hnew, by simp; omega, by simp; omega⟩
  | case3 buf r hbuf weight hw => exact ⟨[], rfl, by simp, by simp⟩
  | case4 buf r hbuf weight hw ins => exact ⟨[], rfl, by simp, by simp⟩
  | case5 buf r hbuf weight hw ins outs lines ih =>
    rcases ih with ⟨new, hnew, hlen, -⟩
    refine ⟨new ++ [_], by rw [hnew, CorpusReader.examples_addPair, List.append_cons], ?_, ?_⟩
    · simp only [List.length_append, List.length_cons, List.length_nil]
      omega
    · simp only [List.length_append, List.length_cons, List.length_nil]
      omega
  | case6 buf r hbuf => exact ⟨[], rfl, by simp, by simp⟩
  | case7 buf r hbuf outs lines ih =>
    rcases ih with ⟨new, hnew, hlen, -⟩
    refine ⟨new ++ [_], by rw [hnew, CorpusReader.examples_addPair, List.append_cons], ?_, ?_⟩
    · simp only [List.length_append, List.length_cons, List.length_nil]
      omega
    · simp [hbuf]

/-- The symbols of the pairs that were read have names without a line break. -/
def CorpusReader.NoBreaks (r : CorpusReader F) : Prop :=
  ∀ ex ∈ r.corpus.examples, (∀ i ∈ ex.i, ∃ name, r.inp.name? i = some name ∧ '\n' ∉ name.toList) ∧
      ∀ i ∈ ex.o, ∃ name, r.out.name? i = some name ∧ '\n' ∉ name.toList

theorem name_symbolList {alph : Alphabet} {line : List Char} (h : '\n' ∉ line) :
    ∀ i ∈ (symbolList alph line).1,
      ∃ name, (symbolList alph line).2.name? i = some name ∧ '\n' ∉ name.toList := by
  intro i hi
  have hfound := alph.map_name?_indicesOf ((symbolsOf line).map String.ofList)
  have hmem : (symbolList alph line).2.name? i ∈ ((symbolsOf line).map String.ofList).map some :=
    hfound ▸ List.mem_map_of_mem hi
  rcases List.mem_map.mp hmem with ⟨name, hname, heq⟩
  rcases List.mem_map.mp hname with ⟨chars, hchars, rfl⟩
  refine ⟨_, heq.symm, ?_⟩
  rw [String.toList_ofList]
  exact newline_notMem_of_mem_symbolsOf h chars hchars

theorem noBreaks_readLoop (hlines : ∀ line ∈ lines, '\n' ∉ line) (h : r.NoBreaks) :
    (readLoop toWeight lines r).NoBreaks := by
  apply readLoop_induct (P := CorpusReader.NoBreaks) _ _ h
  · intro r hr ins hins outs houts weight ex hex
    cases hex with
    | head => exact ⟨name_symbolList (hlines ins hins), name_symbolList (hlines outs houts)⟩
    | tail _ hex =>
      rcases r.grows_addPair ins outs weight with ⟨hgi, hgo⟩
      constructor
      · intro i hi
        rcases (hr ex hex).1 i hi with ⟨name, hname, hbreak⟩
        exact ⟨name, Alphabet.name?_of_isPrefix hgi hname, hbreak⟩
      · intro i hi
        rcases (hr ex hex).2 i hi with ⟨name, hname, hbreak⟩
        exact ⟨name, Alphabet.name?_of_isPrefix hgo hname, hbreak⟩
  · intro r hr ins hins ex hex
    refine ⟨fun i hi => ?_, (hr ex hex).2⟩
    rcases (hr ex hex).1 i hi with ⟨name, hname, hbreak⟩
    exact ⟨name, Alphabet.name?_of_isPrefix (r.grows_addInput ins).1 hname, hbreak⟩

/-- A pair is over the symbols of the alphabets. -/
def IOSymSeq.InAlphabets {F : Type u} (ex : IOSymSeq F) (inp out : Alphabet) : Prop :=
  (∀ i ∈ ex.i, i < inp.size) ∧ ∀ i ∈ ex.o, i < out.size

/-- A name that a line can hold: it has no line break and does not end in a
carriage return. -/
def FitsLine (name : List Char) : Prop := '\n' ∉ name ∧ name.getLast? ≠ some '\r'

instance (name : List Char) : Decidable (FitsLine name) := inferInstanceAs (Decidable (_ ∧ _))

/-- What a pair must be for its two lines to be read as this pair: every name fits
a line, and the input does not begin with a symbol that looks like a weight. -/
def IOSymSeq.ReadsBack {F : Type u} (ex : IOSymSeq F) (inp out : Alphabet) : Prop :=
  (∀ i ∈ ex.i, FitsLine (inp.spelling i)) ∧ (∀ i ∈ ex.o, FitsLine (out.spelling i)) ∧
    ∀ i ∈ ex.i.head?, weightLine (inp.spelling i) = false

/-- The pair without its own weight. -/
def IOSymSeq.unit (ex : IOSymSeq F) : IOSymSeq F := { ex with weight := 1 }

/-- The lines of a printed corpus, when no name has a line break. -/
def corpusLines {F : Type u} (inp out : Alphabet) (corpus : List (IOSymSeq F)) : List (List Char) :=
  corpus.flatMap fun ex => [printSymSeq inp ex.i, printSymSeq out ex.o]

variable {inp out : Alphabet} {corpus : List (IOSymSeq F)}

omit [Semiring F] in
theorem length_corpusLines (corpus : List (IOSymSeq F)) :
    (corpusLines inp out corpus).length = 2 * corpus.length := by
  simp [corpusLines, List.length_flatMap, Nat.mul_comm]

theorem newline_notMem_printSymSeq {alph : Alphabet} {indices : List ℕ} :
    '\n' ∉ printSymSeq alph indices ↔ ∀ i ∈ indices, '\n' ∉ alph.spelling i := by
  rw [printSymSeq, mem_printSpaced (by decide)]
  simp

omit [Semiring F] in
/-- Without line breaks in the names, the lines of the text are those printed. -/
theorem getlines_printCorpus (h : ∀ ex ∈ corpus, (∀ i ∈ ex.i, '\n' ∉ inp.spelling i) ∧
    ∀ i ∈ ex.o, '\n' ∉ out.spelling i) :
    getlines (printCorpus inp out corpus) = corpusLines inp out corpus := by
  induction corpus with
  | nil => rfl
  | cons ex corpus ih =>
    have hex := h ex (List.mem_cons_self ..)
    have hrest := ih fun ex' hex' => h ex' (List.mem_cons_of_mem _ hex')
    have htext : printCorpus inp out (ex :: corpus) = printSymSeq inp ex.i ++
        '\n' :: (printSymSeq out ex.o ++ '\n' :: printCorpus inp out corpus) := by
      simp [printCorpus, IOSymSeq.print]
    rw [htext, getlines_append (newline_notMem_printSymSeq.mpr hex.1),
      getlines_append (newline_notMem_printSymSeq.mpr hex.2), hrest]
    rfl

/-- The printed input begins like a weight when its first symbol does. -/
theorem weightLine_printSymSeq {alph : Alphabet} {indices : List ℕ}
    (hsymbols : ∀ name ∈ alph.names, IsSymbol name.toList) (hlt : ∀ i ∈ indices, i < alph.size) :
    weightLine (printSymSeq alph indices) = false ↔
      ∀ i ∈ indices.head?, weightLine (alph.spelling i) = false := by
  cases indices with
  | nil => simp [printSymSeq, printSpaced, weightLine]
  | cons i indices =>
    have hne := ne_nil_of_isSymbol (isSymbol_spelling hsymbols (hlt i (List.mem_cons_self ..)))
    rcases List.exists_cons_of_ne_nil hne with ⟨c, name, hname⟩
    cases indices with
    | nil => simp [printSymSeq, printSpaced]
    | cons j indices => simp [printSymSeq, hname, weightLine]

theorem readLoop_cons_cons {ins outs : List Char} (h : weightLine ins = false) :
    readLoop toWeight (ins :: outs :: lines) r = readLoop toWeight lines (r.addPair ins outs 1) := by
  simp [readLoop, h]

theorem readLoop_corpusLines (hinp : ∀ name ∈ inp.names, IsSymbol name.toList)
    (hout : ∀ name ∈ out.names, IsSymbol name.toList)
    (hcorpus : ∀ ex ∈ corpus, ex.InAlphabets inp out) (h : ∀ ex ∈ corpus, ex.ReadsBack inp out)
    (hri : r.inp = inp) (hro : r.out = out) :
    (readLoop toWeight (corpusLines inp out corpus) r).corpus.examples =
      (corpus.map IOSymSeq.unit).reverse ++ r.corpus.examples := by
  induction corpus generalizing r with
  | nil => rfl
  | cons ex corpus ih =>
    rcases hcorpus ex (List.mem_cons_self ..) with ⟨hi, ho⟩
    rcases h ex (List.mem_cons_self ..) with ⟨hfi, hfo, hw⟩
    have hreadi : symbolList r.inp (printSymSeq inp ex.i) = (ex.i, r.inp) :=
      symbolList_printSymSeq (hri ▸ List.prefix_rfl) hinp hi fun i hmem => (hfi i hmem).2
    have hreado : symbolList r.out (printSymSeq out ex.o) = (ex.o, r.out) :=
      symbolList_printSymSeq (hro ▸ List.prefix_rfl) hout ho fun i hmem => (hfo i hmem).2
    have hlines : corpusLines inp out (ex :: corpus) =
        printSymSeq inp ex.i :: printSymSeq out ex.o :: corpusLines inp out corpus := rfl
    rw [hlines, readLoop_cons_cons ((weightLine_printSymSeq hinp hi).mpr hw),
      ih (fun ex' hex' => hcorpus ex' (List.mem_cons_of_mem _ hex'))
        (fun ex' hex' => h ex' (List.mem_cons_of_mem _ hex'))
        (by rw [CorpusReader.addPair, hreadi, hri]) (by rw [CorpusReader.addPair, hreado, hro]),
      CorpusReader.examples_addPair, hreadi, hreado]
    simp [IOSymSeq.unit]

theorem newline_notMem_spelling {alph alph' : Alphabet} {i : ℕ} (hmore : alph.names <+: alph'.names)
    (hi : i < alph.size) (h : ∃ name, alph'.name? i = some name ∧ '\n' ∉ name.toList) :
    '\n' ∉ alph.spelling i := by
  rcases h with ⟨name, hname, hbreak⟩
  rw [Alphabet.name?_of_isPrefix hmore (Alphabet.name?_eq_spelling hi), Option.some.injEq] at hname
  rwa [← hname, String.toList_ofList] at hbreak

theorem readsBack_of_readLoop (hinp : ∀ name ∈ inp.names, IsSymbol name.toList)
    (hout : ∀ name ∈ out.names, IsSymbol name.toList)
    (hcorpus : ∀ ex ∈ corpus, ex.InAlphabets inp out)
    (hbreaks : ∀ ex ∈ corpus, (∀ i ∈ ex.i, '\n' ∉ inp.spelling i) ∧
      ∀ i ∈ ex.o, '\n' ∉ out.spelling i)
    (hri : inp.names <+: r.inp.names) (hro : out.names <+: r.out.names)
    (h : (readLoop toWeight (corpusLines inp out corpus) r).corpus.examples =
      (corpus.map IOSymSeq.unit).reverse ++ r.corpus.examples) :
    ∀ ex ∈ corpus, ex.ReadsBack inp out := by
  induction corpus generalizing r with
  | nil => simp
  | cons ex corpus ih =>
    rcases hcorpus ex (List.mem_cons_self ..) with ⟨hi, ho⟩
    rcases hbreaks ex (List.mem_cons_self ..) with ⟨hbi, hbo⟩
    have hlines : corpusLines inp out (ex :: corpus) =
        printSymSeq inp ex.i :: printSymSeq out ex.o :: corpusLines inp out corpus := rfl
    have hpairs : ((ex :: corpus).map IOSymSeq.unit).reverse ++ r.corpus.examples =
        (corpus.map IOSymSeq.unit).reverse ++ ex.unit :: r.corpus.examples := by simp
    rw [hpairs] at h
    -- a line lost to a weight leaves too few lines for the pairs
    have hweight : weightLine (printSymSeq inp ex.i) = false := by
      rcases examples_readLoop toWeight (corpusLines inp out (ex :: corpus)) r with
        ⟨new, hnew, -, hlt⟩
      cases hw : weightLine (printSymSeq inp ex.i) with
      | false => rfl
      | true =>
        have hfew := hlt (printSymSeq inp ex.i) (by rw [hlines]; rfl) hw
        have hlen := congrArg List.length (hnew.symm.trans h)
        rw [length_corpusLines] at hfew
        simp only [List.length_append, List.length_reverse, List.length_map,
          List.length_cons] at hlen hfew
        omega
    rw [hlines, readLoop_cons_cons hweight] at h
    -- the pairs that follow fill the lines that follow, so this pair is the one read first
    rcases examples_readLoop toWeight (corpusLines inp out corpus)
      (r.addPair (printSymSeq inp ex.i) (printSymSeq out ex.o) 1) with ⟨new, hnew, -, -⟩
    rw [hnew, CorpusReader.examples_addPair] at h
    have hlen := congrArg List.length h
    simp only [List.length_append, List.length_reverse, List.length_map, List.length_cons] at hlen
    rcases List.append_inj h (by rw [List.length_reverse, List.length_map]; omega) with ⟨hrest, hhead⟩
    rw [List.cons.injEq, IOSymSeq.unit, IOSymSeq.mk.injEq] at hhead
    have hcri := getLast?_ne_of_symbolList_eq hri hinp hi hhead.1.1
    have hcro := getLast?_ne_of_symbolList_eq hro hout ho hhead.1.2.1
    rcases r.grows_addPair (printSymSeq inp ex.i) (printSymSeq out ex.o) 1 with ⟨hgi, hgo⟩
    have htail := ih (fun ex' hex' => hcorpus ex' (List.mem_cons_of_mem _ hex'))
      (fun ex' hex' => hbreaks ex' (List.mem_cons_of_mem _ hex')) (hri.trans hgi) (hro.trans hgo)
      (by rw [hnew, hrest, CorpusReader.examples_addPair])
    intro ex' hex'
    cases hex' with
    | head =>
      exact ⟨fun i hmem => ⟨hbi i hmem, hcri i hmem⟩, fun i hmem => ⟨hbo i hmem, hcro i hmem⟩,
        (weightLine_printSymSeq hinp hi).mp hweight⟩
    | tail _ hex' => exact htail ex' hex'

theorem examples_readTrainingCorpus (text : List Char) :
    (readTrainingCorpus toWeight inp out text).corpus.examples =
      (readLoop toWeight (getlines text) ⟨inp, out, .clear⟩).corpus.examples.reverse := rfl

/-- A printed corpus is read back, with weight one, exactly when each of its pairs
reads back. -/
theorem readTrainingCorpus_printCorpus_iff (toWeight : List Char → Option F)
    (hinp : ∀ name ∈ inp.names, IsSymbol name.toList)
    (hout : ∀ name ∈ out.names, IsSymbol name.toList)
    (hcorpus : ∀ ex ∈ corpus, ex.InAlphabets inp out) :
    (readTrainingCorpus toWeight inp out (printCorpus inp out corpus)).corpus.examples =
        corpus.map IOSymSeq.unit ↔
      ∀ ex ∈ corpus, ex.ReadsBack inp out := by
  rw [examples_readTrainingCorpus, List.reverse_eq_iff]
  constructor
  · intro h
    have hclean : (readLoop toWeight (getlines (printCorpus inp out corpus))
        ⟨inp, out, .clear⟩).NoBreaks :=
      noBreaks_readLoop (newline_notMem_of_mem_getlines _) (by simp [CorpusReader.NoBreaks,
        TrainingCorpus.clear, TrainingCorpus.clearCounts])
    have hgrows := grows_readLoop toWeight (getlines (printCorpus inp out corpus))
      ⟨inp, out, .clear⟩
    have hbreaks : ∀ ex ∈ corpus, (∀ i ∈ ex.i, '\n' ∉ inp.spelling i) ∧
        ∀ i ∈ ex.o, '\n' ∉ out.spelling i := by
      intro ex hex
      have hmem : ex.unit ∈ (readLoop toWeight (getlines (printCorpus inp out corpus))
          ⟨inp, out, .clear⟩).corpus.examples := by
        rw [h, List.mem_reverse]
        exact List.mem_map_of_mem hex
      rcases hclean ex.unit hmem with ⟨hci, hco⟩
      exact ⟨fun i hi => newline_notMem_spelling hgrows.1 ((hcorpus ex hex).1 i hi) (hci i hi),
        fun i hi => newline_notMem_spelling hgrows.2 ((hcorpus ex hex).2 i hi) (hco i hi)⟩
    rw [getlines_printCorpus hbreaks] at h
    exact readsBack_of_readLoop hinp hout hcorpus hbreaks List.prefix_rfl List.prefix_rfl
      (by rw [h]; simp [TrainingCorpus.clear, TrainingCorpus.clearCounts])
  · intro h
    rw [getlines_printCorpus fun ex hex => ⟨fun i hi => ((h ex hex).1 i hi).1,
      fun i hi => ((h ex hex).2.1 i hi).1⟩, readLoop_corpusLines hinp hout hcorpus h rfl rfl]
    simp [TrainingCorpus.clear, TrainingCorpus.clearCounts]

end Reading

section Instances

/-- An alphabet whose one letter looks like a weight. -/
def letterE : Alphabet := ⟨["*e*", "*w*", "e"], by decide, by decide⟩

theorem isSymbol_letterE : ∀ name ∈ letterE.names, IsSymbol name.toList := by
  intro name hname
  simp only [letterE, List.mem_cons, List.not_mem_nil, or_false] at hname
  rcases hname with rfl | rfl | rfl
  · exact ⟨"*e* 1)".toList, " 1)".toList, by decide, by decide⟩
  · exact ⟨"*w* 1)".toList, " 1)".toList, by decide, by decide⟩
  · exact ⟨"e 1)".toList, "1)".toList, by decide, by decide⟩

/-- An output that looks like a weight is read back, also after an empty input. -/
theorem readTrainingCorpus_printCorpus_outputs :
    (readTrainingCorpus (fun _ => none) letterE letterE (printCorpus letterE letterE
      [(⟨[1, 2], [2], 1⟩ : IOSymSeq ℚ), ⟨[], [2, 2], 1⟩])).corpus.examples =
        [(⟨[1, 2], [2], 1⟩ : IOSymSeq ℚ), ⟨[], [2, 2], 1⟩].map IOSymSeq.unit := by
  apply (readTrainingCorpus_printCorpus_iff (fun _ => (none : Option ℚ)) isSymbol_letterE
    isSymbol_letterE _).mpr
  · simp only [List.mem_cons, List.not_mem_nil, or_false, forall_eq_or_imp, forall_eq,
      IOSymSeq.ReadsBack]
    exact ⟨⟨by decide, by decide, by simp; decide⟩, by simp, by decide, by simp⟩
  · simp only [List.mem_cons, List.not_mem_nil, or_false, forall_eq_or_imp, forall_eq,
      IOSymSeq.InAlphabets]
    exact ⟨⟨by decide, by decide⟩, by simp, by decide⟩

/-- A pair whose input is the letter `e` is lost: its line is no weight and is passed over. -/
theorem readTrainingCorpus_letterE :
    (∀ name ∈ letterE.names, IsSymbol name.toList) ∧
      (readTrainingCorpus (fun _ => (none : Option ℚ)) letterE letterE
        (printCorpus letterE letterE [(⟨[2], [2], 1⟩ : IOSymSeq ℚ)])).corpus.examples = [] ∧
      ([] : List (IOSymSeq ℚ)) ≠ [(⟨[2], [2], 1⟩ : IOSymSeq ℚ)].map IOSymSeq.unit :=
  ⟨isSymbol_letterE, by decide, by simp⟩

end Instances

end Carmel
