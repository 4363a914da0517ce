/-
# The words of a shell command

How a shell splits a text into arguments, as far as no expansion but that of pathnames takes
part: blanks end words, a number sign where a word could begin starts a comment, and quoting
is by backslashes, single quotes and double quotes. The names of files that a word matches
are a parameter.
-/

import Carmel.Math.Instances

namespace Carmel.Math

/-- A character of a word, and whether it was quoted. -/
structure WordChar where
  char : Char
  quoted : Bool
deriving DecidableEq, Repr

abbrev ShellWord := List WordChar

/-- Where the reading of a command stands. -/
inductive ShellState
  | between
  | comment
  | word
  /-- Behind a backslash, in a word or between two. -/
  | escaped (inWord : Bool)
  | single
  | double
  | doubleEscaped
deriving DecidableEq, Repr

namespace ShellState

/-- The word that is being read gets one more character. -/
def push (c : WordChar) : List ShellWord → List ShellWord
  | [] => [[c]]
  | w :: ws => (c :: w) :: ws

/-- The characters of operators. -/
def operators : List Char := ['&', '|', ';', '<', '>', '(', ')']

/-- What a backslash quotes inside double quotes. -/
def quotedInDouble : List Char := ['$', '\x60', '"', '\\']

/-- The words of a text; inside a word the first is what is left of it. There are none where the
text ends inside quotes, or has an operator, a line's end or an expansion in it. -/
def words : ShellState → List Char → Option (List ShellWord)
  | between, [] => some []
  | comment, [] => some []
  | word, [] => some [[]]
  | _, [] => none
  | comment, c :: text => if c = '\n' then none else words comment text
  | escaped inWord, c :: text =>
    if c = '\n' then words (if inWord then word else between) text
    else (words word text).map (push ⟨c, true⟩)
  | single, c :: text =>
    if c = '\'' then words word text else (words single text).map (push ⟨c, true⟩)
  | double, c :: text =>
    if c = '"' then words word text
    else if c = '\\' then words doubleEscaped text
    else if c = '$' ∨ c = '\x60' then none
    else (words double text).map (push ⟨c, true⟩)
  | doubleEscaped, c :: text =>
    if c = '\n' then words double text
    else if c ∈ quotedInDouble then (words double text).map (push ⟨c, true⟩)
    else (words double text).map fun ws => push ⟨'\\', true⟩ (push ⟨c, true⟩ ws)
  | between, c :: text =>
    if c = ' ' ∨ c = '\t' then words between text
    else if c = '#' then words comment text
    else if c = '~' then none
    else if c = '\n' ∨ c ∈ operators ∨ c = '$' ∨ c = '\x60' then none
    else if c = '\\' then words (escaped false) text
    else if c = '\'' then words single text
    else if c = '"' then words double text
    else (words word text).map (push ⟨c, false⟩)
  | word, c :: text =>
    if c = ' ' ∨ c = '\t' then (words between text).map ([] :: ·)
    else if c = '\n' ∨ c ∈ operators ∨ c = '$' ∨ c = '\x60' then none
    else if c = '\\' then words (escaped true) text
    else if c = '\'' then words single text
    else if c = '"' then words double text
    else (words word text).map (push ⟨c, false⟩)

end ShellState

/-- A shell in its directory: the names that a word matches. A word without a pattern's special
characters is not looked up. -/
structure Shell where
  matching : ShellWord → List (List Char)
  matching_plain : ∀ w : ShellWord,
    (∀ c ∈ w, c.quoted = true ∨ c.char ∉ ['*', '?', '[']) → matching w = []

namespace Shell

/-- What becomes of a word: the names that it matches, or the word itself if there are none. -/
def fields (sh : Shell) (w : ShellWord) : List (List Char) :=
  match sh.matching w with
  | [] => [w.map WordChar.char]
  | name :: names => name :: names

/-- The arguments that a text gives a command. -/
def arguments (sh : Shell) (text : List Char) : Option (List (List Char)) :=
  (ShellState.words .between text).map fun ws => ws.flatMap sh.fields

/-- A shell in a directory without files. -/
def noFiles : Shell := ⟨fun _ => [], fun _ _ => rfl⟩

theorem fields_of_plain (sh : Shell) {w : ShellWord}
    (h : ∀ c ∈ w, c.quoted = true ∨ c.char ∉ ['*', '?', '[']) :
    sh.fields w = [w.map WordChar.char] := by
  rw [fields, sh.matching_plain w h]

/-- A quoted word is no pattern. -/
theorem fields_quoted (sh : Shell) (l : List Char) :
    sh.fields (l.map fun c => ⟨c, true⟩) = [l] := by
  have hplain : ∀ c ∈ l.map fun c => (⟨c, true⟩ : WordChar),
      c.quoted = true ∨ c.char ∉ ['*', '?', '['] := by
    intro c hc
    obtain ⟨d, -, rfl⟩ := List.mem_map.mp hc
    exact Or.inl rfl
  rw [sh.fields_of_plain hplain, List.map_map]
  exact congrArg (fun l => [l]) (List.map_id _)

/-- A word stays as it is if and only if it matches nothing but itself. -/
theorem fields_eq_iff (sh : Shell) (w : ShellWord) :
    sh.fields w = [w.map WordChar.char] ↔
      sh.matching w = [] ∨ sh.matching w = [w.map WordChar.char] := by
  unfold fields
  split
  · next h => simp [h]
  · next h => simp [h]

theorem arguments_of_word (sh : Shell) {text : List Char} {w : ShellWord}
    (h : ShellState.words .between text = some [w]) : sh.arguments text = some (sh.fields w) := by
  rw [arguments, h, Option.map_some, List.flatMap_singleton]

end Shell

namespace ShellState

/-- A character that stands for itself in a word without quotes. -/
def Ordinary (c : Char) : Prop :=
  c ≠ ' ' ∧ c ≠ '\t' ∧ c ≠ '\n' ∧ c ∉ operators ∧ c ≠ '$' ∧ c ≠ '\x60' ∧ c ≠ '\\' ∧ c ≠ '\'' ∧ c ≠ '"'

theorem words_word_ordinary {c : Char} (h : Ordinary c) (text : List Char) :
    words word (c :: text) = (words word text).map (push ⟨c, false⟩) := by
  obtain ⟨hblank, htab, hline, hop, hdollar, hback, hescape, hsingle, hdouble⟩ := h
  simp only [words, hblank, htab, hline, hop, hdollar, hback, hescape, hsingle, hdouble, or_self,
    if_false]

theorem words_between_ordinary {c : Char} (h : Ordinary c) (htilde : c ≠ '~') (hnumber : c ≠ '#')
    (text : List Char) : words between (c :: text) = (words word text).map (push ⟨c, false⟩) := by
  obtain ⟨hblank, htab, hline, hop, hdollar, hback, hescape, hsingle, hdouble⟩ := h
  simp only [words, hblank, htab, hline, hop, hdollar, hback, hescape, hsingle, hdouble, htilde,
    hnumber, or_self, if_false]

/-- Ordinary characters make up a word. -/
theorem words_word_of_ordinary {text : List Char} (h : ∀ c ∈ text, Ordinary c) :
    words word text = some [text.map fun c => ⟨c, false⟩] := by
  induction text with
  | nil => rfl
  | cons c text ih =>
    rw [words_word_ordinary (h c (List.mem_cons_self ..)),
      ih fun d hd => h d (List.mem_cons_of_mem _ hd)]
    rfl

theorem words_between_of_ordinary {c : Char} {text : List Char} (h : ∀ d ∈ c :: text, Ordinary d)
    (htilde : c ≠ '~') (hnumber : c ≠ '#') :
    words between (c :: text) = some [(c :: text).map fun d => ⟨d, false⟩] := by
  rw [words_between_ordinary (h c (List.mem_cons_self ..)) htilde hnumber,
    words_word_of_ordinary fun d hd => h d (List.mem_cons_of_mem _ hd)]
  rfl

/-- A comment that no line ends hides its text. -/
theorem words_comment {text : List Char} (h : '\n' ∉ text) : words comment text = some [] := by
  induction text with
  | nil => rfl
  | cons c text ih =>
    rw [List.mem_cons, not_or] at h
    rw [words, if_neg fun hc => h.1 hc.symm, ih h.2]

end ShellState

end Carmel.Math
