/-
# Quoted strings on streams

`out_quote` puts a string in quotes when a character of it is special. `in_quote` tells a
quoted string by its first character, but gives this character out before it looks at it, so
the two are inverse exactly on the strings that need no quotes.
-/

import Carmel.Math.ShellWords

namespace Carmel.Text

section Code

variable (isSpecial : Char → Bool) (quoteChar escapeChar : Char)

/-- `or_true_for_chars`. -/
def needsQuote (c : Char) : Bool := c = quoteChar || c = escapeChar || isSpecial c

/-- What `out_quote` puts for a character between the quotes. -/
def putEscaped (c : Char) : List Char :=
  if c = quoteChar ∨ c = escapeChar then [escapeChar, c] else [c]

/-- `out_quote`. -/
def outQuote (s : List Char) : List Char :=
  if s.any (needsQuote isSpecial quoteChar escapeChar) then
    quoteChar :: (s.flatMap (putEscaped quoteChar escapeChar) ++ [quoteChar])
  else s

/-- What `in_quote` throws. -/
def endOfQuoted : String := "end of file reached when parsing quoted string (in_quote)"

/-- The loop of `in_quote` behind an opening quote. -/
def quotedLoop : List Char → Except String (List Char × List Char)
  | [] => .error endOfQuoted
  | c :: i =>
    if c = quoteChar then .ok ([], i)
    else if c = escapeChar then
      match i with
      | [] => .error endOfQuoted
      | d :: i => (quotedLoop i).map fun r => (d :: r.1, r.2)
    else (quotedLoop i).map fun r => (c :: r.1, r.2)

/-- The loop of `in_quote` without quotes. A special character is given back. -/
def unquotedLoop : List Char → List Char × List Char
  | [] => ([], [])
  | c :: i => if isSpecial c then ([], c :: i) else (c :: (unquotedLoop i).1, (unquotedLoop i).2)

/-- `in_quote`: the characters that go out, and what is left unread. -/
def inQuote : List Char → Except String (List Char × List Char)
  | [] => .ok ([], [])
  | c :: i =>
    if c = quoteChar then (quotedLoop quoteChar escapeChar i).map fun r => (c :: r.1, r.2)
    else .ok (c :: (unquotedLoop isSpecial i).1, (unquotedLoop isSpecial i).2)

end Code

variable {isSpecial : Char → Bool} {quoteChar escapeChar : Char} {s rest : List Char}

/-- A string without special characters is read up to the special character behind it. -/
theorem unquotedLoop_append (hs : ∀ c ∈ s, isSpecial c = false)
    (hrest : ∀ c ∈ rest.head?, isSpecial c = true) : unquotedLoop isSpecial (s ++ rest) = (s, rest) := by
  induction s with
  | nil =>
    cases rest with
    | nil => rfl
    | cons c rest => rw [List.nil_append, unquotedLoop, if_pos (hrest c rfl)]
  | cons c s ih =>
    have hc : ¬ isSpecial c = true := by
      rw [hs c (List.mem_cons_self ..)]
      exact Bool.false_ne_true
    rw [List.cons_append, unquotedLoop, if_neg hc, ih fun d hd => hs d (List.mem_cons_of_mem _ hd)]

/-- Behind the opening quote the loop undoes the escaping, if quotes are not escapes. -/
theorem quotedLoop_escaped (hne : quoteChar ≠ escapeChar) (s rest : List Char) :
    quotedLoop quoteChar escapeChar
      (s.flatMap (putEscaped quoteChar escapeChar) ++ quoteChar :: rest) = .ok (s, rest) := by
  induction s with
  | nil => rw [List.flatMap_nil, List.nil_append, quotedLoop.eq_def]; exact if_pos rfl
  | cons c s ih =>
    rw [List.flatMap_cons, List.append_assoc, putEscaped]
    by_cases hc : c = quoteChar ∨ c = escapeChar
    · rw [if_pos hc, List.cons_append, List.singleton_append, quotedLoop, if_neg hne.symm,
        if_pos rfl]
      simp only [ih, Except.map]
    · rw [if_neg hc, List.singleton_append, quotedLoop.eq_def]
      simp only [not_or.mp hc, if_false, ih, Except.map]

/-- What `out_quote` wrote is read back as it was if and only if it wrote no quotes. -/
theorem inQuote_outQuote_iff (hs : s ≠ []) (hrest : ∀ c ∈ rest.head?, isSpecial c = true) :
    inQuote isSpecial quoteChar escapeChar
        (outQuote isSpecial quoteChar escapeChar s ++ rest) = .ok (s, rest) ↔
      ∀ c ∈ s, needsQuote isSpecial quoteChar escapeChar c = false := by
  constructor
  · intro hread
    by_contra hneeds
    have hany : s.any (needsQuote isSpecial quoteChar escapeChar) = true := by
      simpa using hneeds
    rw [outQuote, if_pos hany, List.cons_append, inQuote, if_pos rfl, List.append_assoc,
      List.singleton_append] at hread
    cases hloop : quotedLoop quoteChar escapeChar
        (s.flatMap (putEscaped quoteChar escapeChar) ++ quoteChar :: rest) with
    | error e =>
      rw [hloop] at hread
      cases hread
    | ok r =>
      rw [hloop] at hread
      injection hread with hpair
      injection hpair with hfirst hleft
      -- The opening quote went out too, so the string begins with a quote.
      by_cases hne : quoteChar = escapeChar
      · rw [← hfirst, List.flatMap_cons, putEscaped, if_pos (Or.inl rfl), List.cons_append,
          List.cons_append, quotedLoop.eq_def] at hloop
        simp only [hne, if_true] at hloop
        injection hloop with hpair
        have hlen := congrArg (fun p : List Char × List Char => p.2.length) hpair
        rw [← hleft] at hlen
        simp only [List.length_cons, List.length_append] at hlen
        omega
      · rw [quotedLoop_escaped hne] at hloop
        injection hloop with hpair
        rw [← hpair] at hfirst
        exact List.cons_ne_self _ _ hfirst
  · intro hplain
    have hany : ¬ s.any (needsQuote isSpecial quoteChar escapeChar) = true := by
      simpa using hplain
    rw [outQuote, if_neg hany]
    cases s with
    | nil => exact absurd rfl hs
    | cons c s =>
      have hspecial : ∀ d ∈ c :: s, d ≠ quoteChar ∧ isSpecial d = false := by
        intro d hd
        have hd := hplain d hd
        simp only [needsQuote, Bool.or_eq_false_iff, decide_eq_false_iff_not] at hd
        exact ⟨hd.1.1, hd.2⟩
      rw [List.cons_append, inQuote, if_neg (hspecial c (List.mem_cons_self ..)).1,
        unquotedLoop_append (fun d hd => (hspecial d (List.mem_cons_of_mem _ hd)).2) hrest]

/-- A word is read back up to the blank behind it. -/
theorem inQuote_outQuote_word :
    inQuote (· = ' ') '"' '\\' (outQuote (· = ' ') '"' '\\' ['a', 'b'] ++ [' ', 'c']) =
      .ok (['a', 'b'], [' ', 'c']) :=
  (inQuote_outQuote_iff (by decide) (by simp)).mpr (by simp [needsQuote])

/-- Two words come back with the quote that was put in front of them. -/
theorem not_inQuote_outQuote_words :
    inQuote (· = ' ') '"' '\\' (outQuote (· = ' ') '"' '\\' ['a', ' ', 'b']) =
        .ok (['"', 'a', ' ', 'b'], []) ∧
      inQuote (· = ' ') '"' '\\' (outQuote (· = ' ') '"' '\\' ['a', ' ', 'b'] ++ []) ≠
        .ok (['a', ' ', 'b'], []) := by
  constructor <;> decide

end Carmel.Text

/-!
## Shell arguments that are quoted

Inside double quotes a shell keeps the backslash in front of an exclamation mark, and
outside of them it knows comments and bracket expressions, which the table of special
characters does not have.
-/

namespace Carmel.Text

open Carmel.Math

section Code

/-- The characters for which `is_shell_special` is true. -/
def shellSpecials : List Char :=
  [' ', '\t', '\n', '\\', '>', '<', '|', '&', ';', '"', '\'', '\x60', '~', '*', '?', '\x7b', '\x7d',
    '$', '!', '(', ')']

/-- `is_shell_special`. -/
def isShellSpecial (c : Char) : Bool := c ∈ shellSpecials

/-- `needs_shell_escape_in_quotes`. -/
def needsShellEscapeInQuotes (c : Char) : Bool := c ∈ ['\\', '"', '$', '\x60', '!']

/-- What goes out for a character between the quotes. -/
def escapedInQuotes (c : Char) : List Char := if needsShellEscapeInQuotes c then ['\\', c] else [c]

/-- `shell_quote_chars_iter`. -/
def shellQuoteChars (s : List Char) (quoteEmpty : Bool) : List Char :=
  if s = [] then if quoteEmpty then ['"', '"'] else []
  else if s.any isShellSpecial = false then s
  else '"' :: (s.flatMap escapedInQuotes ++ ['"'])

/-- `shell_quote`, with its default of `quote_empty`. -/
def shellQuote (s : List Char) : List Char := shellQuoteChars s true

end Code

/-- What a shell makes of a character that `shell_quote` put between quotes. -/
def unquotedAs (c : Char) : List Char := if c = '!' then ['\\', '!'] else [c]

open ShellState

theorem escapedInQuotes_of_mem {c : Char} (h : c ∈ quotedInDouble) : escapedInQuotes c = ['\\', c] := by
  have hneeds : needsShellEscapeInQuotes c = true := by
    simp only [quotedInDouble, List.mem_cons, List.not_mem_nil, or_false] at h
    rcases h with rfl | rfl | rfl | rfl <;> decide
  rw [escapedInQuotes, if_pos hneeds]

theorem escapedInQuotes_of_not_mem {c : Char} (h : c ∉ quotedInDouble) (hc : c ≠ '!') :
    escapedInQuotes c = [c] := by
  have hneeds : ¬ needsShellEscapeInQuotes c = true := by
    simp only [quotedInDouble, List.mem_cons, List.not_mem_nil, or_false, not_or] at h
    simp [needsShellEscapeInQuotes, h, hc]
  rw [escapedInQuotes, if_neg hneeds]

/-- Inside double quotes a shell undoes the escapes of a character, but for the exclamation mark. -/
theorem words_double_escaped (c : Char) (text : List Char) {w : ShellWord}
    (h : words double text = some [w]) :
    words double (escapedInQuotes c ++ text) =
      some [(unquotedAs c).map (fun d => ⟨d, true⟩) ++ w] := by
  by_cases hmem : c ∈ quotedInDouble
  · have hline : c ≠ '\n' := fun heq => absurd (heq ▸ hmem) (by decide)
    have hmark : c ≠ '!' := fun heq => absurd (heq ▸ hmem) (by decide)
    rw [escapedInQuotes_of_mem hmem, unquotedAs, if_neg hmark, List.cons_append,
      List.singleton_append, words, if_neg (by decide), if_pos rfl, words, if_neg hline, if_pos hmem, h]
    rfl
  · by_cases hmark : c = '!'
    · rw [hmark]
      have hescaped : escapedInQuotes '!' = ['\\', '!'] := by decide
      rw [hescaped, unquotedAs, if_pos rfl, List.cons_append, List.singleton_append, words,
        if_neg (by decide), if_pos rfl, words, if_neg (by decide), if_neg (by decide), h]
      rfl
    · simp only [quotedInDouble, List.mem_cons, List.not_mem_nil, or_false, not_or] at hmem
      rw [escapedInQuotes_of_not_mem (by simp [quotedInDouble, hmem]) hmark, unquotedAs, if_neg hmark,
        List.singleton_append, words, if_neg hmem.2.2.1, if_neg hmem.2.2.2,
        if_neg (not_or.mpr ⟨hmem.1, hmem.2.1⟩), h]
      rfl

/-- The text between the quotes is one word. -/
theorem words_double_quoted (s : List Char) :
    words double (s.flatMap escapedInQuotes ++ ['"']) =
      some [(s.flatMap unquotedAs).map fun d => ⟨d, true⟩] := by
  induction s with
  | nil => rfl
  | cons c s ih =>
    rw [List.flatMap_cons, List.append_assoc, words_double_escaped c _ ih, List.flatMap_cons,
      List.map_append]

/-- What comes back from between quotes is the string if and only if there is no exclamation mark. -/
theorem flatMap_unquotedAs_eq_iff (s : List Char) : s.flatMap unquotedAs = s ↔ '!' ∉ s := by
  induction s with
  | nil => simp
  | cons c s ih =>
    rw [List.flatMap_cons, unquotedAs, List.mem_cons, not_or]
    by_cases hmark : c = '!'
    · rw [if_pos hmark, hmark]
      simp
    · rw [if_neg hmark, List.singleton_append, List.cons_inj_right, ih]
      exact ⟨fun h => ⟨fun hc => hmark hc.symm, h⟩, fun h => h.2⟩

theorem ordinary_of_not_special {c : Char} (h : isShellSpecial c = false) : Ordinary c ∧ c ≠ '~' := by
  simp only [isShellSpecial, shellSpecials, decide_eq_false_iff_not, List.mem_cons, List.not_mem_nil,
    or_false, not_or] at h
  simp [Ordinary, operators, h]

/-- When a shell gives back the argument: in quotes, where there is no exclamation mark; without
them, where no comment begins and the string is no pattern of other names. -/
def ReadsBack (sh : Shell) (s : List Char) : Prop :=
  if s.any isShellSpecial = true then '!' ∉ s
  else s.head? ≠ some '#' ∧
    (sh.matching (s.map fun c => ⟨c, false⟩) = [] ∨ sh.matching (s.map fun c => ⟨c, false⟩) = [s])

/-- A shell gets the quoted string as its one argument if and only if it reads it back. -/
theorem arguments_shellQuote_iff (sh : Shell) (s : List Char) :
    sh.arguments (shellQuote s) = some [s] ↔ ReadsBack sh s := by
  cases s with
  | nil =>
    have hmatch : sh.matching [] = [] := sh.matching_plain [] (by simp)
    have hword : words between (shellQuote []) = some [[]] := rfl
    rw [sh.arguments_of_word hword, Shell.fields, hmatch]
    simp [ReadsBack, hmatch]
  | cons c s =>
    by_cases hspecial : (c :: s).any isShellSpecial = true
    · have hquote : shellQuote (c :: s) = '"' :: ((c :: s).flatMap escapedInQuotes ++ ['"']) := by
        simp only [shellQuote, shellQuoteChars, hspecial, Bool.true_eq_false, if_false, reduceCtorEq]
      have hword : words between (shellQuote (c :: s)) =
          some [((c :: s).flatMap unquotedAs).map fun d => ⟨d, true⟩] := by
        rw [hquote, ← words_double_quoted]
        rfl
      rw [sh.arguments_of_word hword, sh.fields_quoted, ReadsBack, if_pos hspecial, Option.some_inj,
        List.singleton_inj]
      exact flatMap_unquotedAs_eq_iff _
    · have hquote : shellQuote (c :: s) = c :: s := by
        rw [Bool.not_eq_true] at hspecial
        simp only [shellQuote, shellQuoteChars, hspecial, if_true, if_false, reduceCtorEq]
      have hordinary : ∀ d ∈ c :: s, Ordinary d ∧ d ≠ '~' := by
        intro d hd
        apply ordinary_of_not_special
        by_contra h
        exact hspecial (List.any_eq_true.mpr ⟨d, hd, by simpa using h⟩)
      rw [hquote, ReadsBack, if_neg hspecial]
      by_cases hnumber : c = '#'
      · have hline : '\n' ∉ s := fun hmem =>
          (hordinary _ (List.mem_cons_of_mem _ hmem)).1.2.2.1 rfl
        have hwords : words between (c :: s) = some [] := by
          rw [hnumber, words, if_neg (by decide), if_pos rfl, words_comment hline]
        rw [Shell.arguments, hwords, hnumber]
        simp
      · have hwords := words_between_of_ordinary (fun d hd => (hordinary d hd).1)
          (hordinary c (List.mem_cons_self ..)).2 hnumber
        have hchars : ((c :: s).map fun d => (⟨d, false⟩ : WordChar)).map WordChar.char = c :: s := by
          rw [List.map_map]
          exact List.map_id _
        have hfields := sh.fields_eq_iff ((c :: s).map fun d => ⟨d, false⟩)
        rw [hchars] at hfields
        rw [sh.arguments_of_word hwords, Option.some_inj, hfields]
        simp [hnumber]

/-- In a directory without files, an exclamation mark comes back with a backslash, and what begins
with a number sign does not come back. -/
theorem not_arguments_shellQuote :
    (Shell.noFiles.arguments (shellQuote ['!']) = some [['\\', '!']] ∧
        Shell.noFiles.arguments (shellQuote ['!']) ≠ some [['!']]) ∧
      Shell.noFiles.arguments (shellQuote ['#', 'x']) = some [] := by
  refine ⟨⟨?_, ?_⟩, ?_⟩ <;> decide

end Carmel.Text
