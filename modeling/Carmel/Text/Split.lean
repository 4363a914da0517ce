/-
# Splitting strings

`split`, `split_visit` and `split_visit_any` are one loop, which goes on one character
behind each delimiter, and `split_any` looks for its characters as a delimiter. A text
comes apart into lines by a loop that looks at the character in front of each newline,
or by `getline`.
-/

import Carmel.Math.Instances

namespace Carmel.Text

/-- A text has no separator, or there is a text behind its first one. -/
theorem pieces_induction (p : Char → Bool) {P : List Char → Prop}
    (last : ∀ line, (∀ c ∈ line, p c = false) → P line)
    (first : ∀ line c rest, (∀ d ∈ line, p d = false) → p c = true → P rest → P (line ++ c :: rest))
    (text : List Char) : P text := by
  induction hlen : text.length using Nat.strongRecOn generalizing text with
  | ind n ih =>
    have hline : ∀ c ∈ text.takeWhile (fun c => !p c), p c = false := by
      intro c hc
      simpa using List.mem_takeWhile_imp hc
    have hsplit := List.takeWhile_append_dropWhile (p := fun c => !p c) (l := text)
    cases hrest : text.dropWhile (fun c => !p c) with
    | nil =>
      rw [hrest, List.append_nil] at hsplit
      rw [← hsplit]
      exact last _ hline
    | cons c rest =>
      have hc : p c = true := by
        have hhead := List.head?_dropWhile_not (fun c => !p c) text
        rw [hrest] at hhead
        simpa using hhead
      rw [hrest] at hsplit
      have hlt := congrArg List.length hsplit
      rw [List.length_append, List.length_cons] at hlt
      rw [← hsplit]
      exact first _ c rest hline hc (ih rest.length (by omega) rest rfl)

section Code

def joinAppendTo (sep : List Char) : Bool → List (List Char) → List Char → List Char
  | _, [], r => r
  | first, s :: strs, r => joinAppendTo sep false strs ((if first then r else r ++ sep) ++ s)

def joined (strs : List (List Char)) (sep : List Char) : List Char := joinAppendTo sep true strs []

/-- `str.find(delimiter)`. -/
def findStr (delimiter : List Char) : List Char → Option ℕ
  | [] => if delimiter = [] then some 0 else none
  | c :: str =>
    if delimiter <+: c :: str then some 0 else (findStr delimiter str).map (· + 1)

/-- `str.find_first_of(chars)`. -/
def findFirstOf (chars str : List Char) : Option ℕ := str.findIdx? (· ∈ chars)

/-- The loop of `split_into`, where `rest` stands at `start`. A start behind the end of the string is
out of range. -/
def splitRest (find : List Char → Option ℕ) : ℕ → List Char → Option (List (List Char))
  | 0, _ => none
  | fuel + 1, rest =>
    match find rest with
    | none => some [rest]
    | some «end» =>
      if «end» < rest.length then
        (splitRest find fuel (rest.drop («end» + 1))).map (rest.take «end» :: ·)
      else none

/-- `split_into`, and what `split_visit` visits. -/
def split (str delimiter : List Char) : Option (List (List Char)) :=
  splitRest (findStr delimiter) (str.length + 1) str

/-- `split_any` calls `split_into` and not `split_into_any`. -/
def splitAny (str chars : List Char) : Option (List (List Char)) :=
  splitRest (findStr chars) (str.length + 1) str

def splitVisitAny (str chars : List Char) : Option (List (List Char)) :=
  splitRest (findFirstOf chars) (str.length + 1) str

end Code

/-- The delimiter is found in the joined text only where two parts are joined. -/
def OnlyAtJoints (parts : List (List Char)) (delimiter : List Char) : Prop :=
  ∀ i, delimiter <+: (joined parts delimiter).drop i →
    ∃ k, 0 < k ∧ k < parts.length ∧ i = (joined (parts.take k) delimiter).length

section Joined

variable {sep d str : List Char} {parts : List (List Char)}

theorem joinAppendTo_eq (strs : List (List Char)) (r : List Char) :
    joinAppendTo sep false strs r = r ++ (strs.map (sep ++ ·)).flatten := by
  induction strs generalizing r with
  | nil => simp [joinAppendTo]
  | cons s strs ih => simp [joinAppendTo, ih]

theorem joined_cons (s : List Char) (strs : List (List Char)) :
    joined (s :: strs) sep = s ++ (strs.map (sep ++ ·)).flatten := by
  simp [joined, joinAppendTo, joinAppendTo_eq]

theorem joined_cons_cons (s t : List Char) (strs : List (List Char)) :
    joined (s :: t :: strs) sep = s ++ (sep ++ joined (t :: strs) sep) := by
  simp [joined_cons]

theorem length_le_joined (hsep : sep ≠ []) (strs : List (List Char)) :
    strs.length ≤ (strs.map (sep ++ ·)).flatten.length := by
  induction strs with
  | nil => exact Nat.zero_le _
  | cons s strs ih =>
    have := List.length_pos_of_ne_nil hsep
    rw [List.map_cons, List.flatten_cons, List.length_append, List.length_append, List.length_cons]
    omega

theorem findStr_eq_none (h : ∀ i, ¬ d <+: str.drop i) : findStr d str = none := by
  induction str with
  | nil => simpa [findStr] using h 0
  | cons c str ih =>
    have hc : ¬ d <+: c :: str := h 0
    rw [findStr, if_neg hc, ih fun i => by simpa using h (i + 1)]
    rfl

theorem findStr_eq_some {n : ℕ} (hd : d ≠ []) (hn : d <+: str.drop n)
    (hbefore : ∀ i < n, ¬ d <+: str.drop i) : findStr d str = some n := by
  induction str generalizing n with
  | nil => simp [hd] at hn
  | cons c str ih =>
    cases n with
    | zero => rw [findStr, if_pos (by simpa using hn)]
    | succ n =>
      have hc : ¬ d <+: c :: str := hbefore 0 (Nat.succ_pos n)
      have hrest := ih (n := n) (by simpa using hn)
        fun i hi => by simpa using hbefore (i + 1) (Nat.succ_lt_succ hi)
      rw [findStr, if_neg hc, hrest]
      rfl

theorem prefix_of_findStr {n : ℕ} (h : findStr d str = some n) : d <+: str.drop n := by
  induction str generalizing n with
  | nil =>
    rw [findStr] at h
    split_ifs at h with hd
    rw [hd]
    exact List.nil_prefix
  | cons c str ih =>
    rw [findStr] at h
    split_ifs at h with hc
    · cases h
      exact hc
    · rcases Option.map_eq_some_iff.mp h with ⟨m, hm, rfl⟩
      exact ih hm

/-- Each piece but the first begins with what is left of the delimiter behind its first character. -/
theorem splitRest_joined (hd : d ≠ []) {tail part : List Char} {parts : List (List Char)} {fuel : ℕ}
    (hfuel : parts.length < fuel)
    (hjoints : ∀ i, d <+: (tail ++ joined (part :: parts) d).drop i → ∃ k, 0 < k ∧
      k < parts.length + 1 ∧ i = tail.length + (joined ((part :: parts).take k) d).length) :
    splitRest (findStr d) fuel (tail ++ joined (part :: parts) d) =
      some ((tail ++ part) :: parts.map (d.tail ++ ·)) := by
  induction parts generalizing tail part fuel with
  | nil =>
    rcases Nat.exists_eq_succ_of_ne_zero (Nat.ne_zero_of_lt hfuel) with ⟨fuel, rfl⟩
    have hnone : findStr d (tail ++ joined [part] d) = none := by
      apply findStr_eq_none
      intro i hi
      rcases hjoints i hi with ⟨k, hk, hlt, -⟩
      simp only [List.length_nil] at hlt
      omega
    rw [splitRest, hnone, joined_cons]
    simp
  | cons next parts ih =>
    rcases Nat.exists_eq_succ_of_ne_zero (Nat.ne_zero_of_lt hfuel) with ⟨fuel, rfl⟩
    rcases List.exists_cons_of_ne_nil hd with ⟨c, ds, rfl⟩
    have htext : tail ++ joined (part :: next :: parts) (c :: ds) =
        (tail ++ part) ++ c :: (ds ++ joined (next :: parts) (c :: ds)) := by
      simp [joined_cons_cons]
    -- no joint comes before the one behind the first part
    have hfind : findStr (c :: ds) (tail ++ joined (part :: next :: parts) (c :: ds)) =
        some (tail ++ part).length := by
      apply findStr_eq_some hd
      · rw [htext, List.drop_left]
        exact ⟨_, rfl⟩
      · intro i hi hno
        rcases hjoints i hno with ⟨k, hk, -, rfl⟩
        rcases Nat.exists_eq_succ_of_ne_zero (Nat.ne_zero_of_lt hk) with ⟨k, rfl⟩
        rw [List.take_succ_cons, joined_cons] at hi
        simp only [List.length_append] at hi
        omega
    have hrest := @ih ds next fuel (by simpa using hfuel) (by
      intro i hi
      have hdrop : (tail ++ joined (part :: next :: parts) (c :: ds)).drop
          ((tail ++ part).length + 1 + i) = (ds ++ joined (next :: parts) (c :: ds)).drop i := by
        rw [htext, Nat.add_assoc, ← List.drop_drop, List.drop_left, Nat.add_comm 1 i]
        rfl
      rcases hjoints ((tail ++ part).length + 1 + i) (by rw [hdrop]; exact hi) with
        ⟨k, hk, hlt, heq⟩
      rcases Nat.exists_eq_succ_of_ne_zero (Nat.ne_zero_of_lt hk) with ⟨k, rfl⟩
      rw [List.take_succ_cons] at heq
      cases k with
      | zero =>
        simp only [List.take_zero, joined_cons, List.map_nil, List.flatten_nil,
          List.append_nil, List.length_append] at heq
        omega
      | succ k =>
        refine ⟨k + 1, Nat.succ_pos k, by simpa using hlt, ?_⟩
        rw [List.take_succ_cons, joined_cons_cons] at heq
        rw [List.take_succ_cons]
        simp only [List.length_append, List.length_cons] at heq
        omega)
    rw [splitRest, hfind]
    simp only [htext]
    rw [if_pos (by simp), ← List.drop_drop, List.drop_left, List.drop_one, List.tail_cons, hrest,
      List.take_left, Option.map_some, List.map_cons, List.tail_cons]

end Joined

section Any

variable {chars str : List Char} {fuel : ℕ}

/-- The pieces between the characters that are in `chars`. -/
def pieces (str chars : List Char) : List (List Char) := str.splitOnP fun c => c ∈ chars

theorem splitRest_findFirstOf (chars : List Char) {str : List Char} {fuel : ℕ}
    (hfuel : str.length < fuel) :
    splitRest (findFirstOf chars) fuel str = some (pieces str chars) := by
  induction str using pieces_induction (p := fun c => c ∈ chars) generalizing fuel with
  | last line hline =>
    rcases Nat.exists_eq_succ_of_ne_zero (Nat.ne_zero_of_lt hfuel) with ⟨fuel, rfl⟩
    have hnone : findFirstOf chars line = none := List.findIdx?_eq_none_iff.mpr hline
    rw [splitRest, hnone, pieces, List.splitOnP_eq_singleton hline]
  | first line c rest hline hc ih =>
    rcases Nat.exists_eq_succ_of_ne_zero (Nat.ne_zero_of_lt hfuel) with ⟨fuel, rfl⟩
    have hfind : findFirstOf chars (line ++ c :: rest) = some line.length := by
      rw [findFirstOf, List.findIdx?_append, List.findIdx?_eq_none_iff.mpr hline,
        List.findIdx?_cons, if_pos hc]
      simp
    rw [List.length_append, List.length_cons] at hfuel
    rw [splitRest, hfind, pieces, List.splitOnP_append_cons_of_forall_mem hline c hc]
    simp only
    rw [if_pos (by simp), ← List.drop_drop, List.drop_left, List.take_left, List.drop_one,
      List.tail_cons, ih (by omega), Option.map_some, pieces]

theorem splitRest_nil (fuel : ℕ) (str : List Char) : splitRest (findStr []) fuel str = none := by
  induction fuel generalizing str with
  | zero => rfl
  | succ fuel ih =>
    cases str with
    | nil => simp [splitRest, findStr]
    | cons c str => simp [splitRest, findStr, ih]

theorem findStr_singleton (c : Char) (str : List Char) : findStr [c] str = findFirstOf [c] str := by
  induction str with
  | nil => rfl
  | cons d str ih =>
    rw [findStr, ih, findFirstOf, findFirstOf, List.findIdx?_cons]
    simp [List.cons_prefix_cons, eq_comm]

theorem findStr_eq_none_of_forall (hchars : chars ≠ []) (h : ∀ c ∈ str, c ∉ chars) :
    findStr chars str = none := by
  rcases List.exists_cons_of_ne_nil hchars with ⟨d, ds, rfl⟩
  apply findStr_eq_none
  rintro i ⟨rest, hrest⟩
  have hmem : d ∈ str.drop i := by
    rw [← hrest]
    exact List.mem_cons_self
  exact h d (List.mem_of_mem_drop hmem) List.mem_cons_self

/-- With more than one character the pieces are right only if none of them is there: behind a
character that is found, the next one would be found too. -/
theorem forall_not_mem_of_splitRest {d e : Char} {ds : List Char}
    (h : splitRest (findStr (d :: e :: ds)) fuel str = some (pieces str (d :: e :: ds))) :
    ∀ c ∈ str, c ∉ d :: e :: ds := by
  induction str using pieces_induction (p := fun c => c ∈ d :: e :: ds) generalizing fuel with
  | last line hline =>
    intro c hc
    simpa using hline c hc
  | first line c rest hline hc ih =>
    exfalso
    rw [pieces, List.splitOnP_append_cons_of_forall_mem hline c hc] at h
    cases fuel with
    | zero => cases h
    | succ fuel =>
      rw [splitRest] at h
      cases hfind : findStr (d :: e :: ds) (line ++ c :: rest) with
      | none =>
        rw [hfind] at h
        simp at h
      | some n =>
        rw [hfind] at h
        simp only at h
        split_ifs at h with hn
        rcases Option.map_eq_some_iff.mp h with ⟨ps, hps, heq⟩
        rcases List.cons_eq_cons.mp heq with ⟨htake, rfl⟩
        have hlen : n = line.length := by
          rw [← htake, List.length_take]
          omega
        have hat := prefix_of_findStr hfind
        rw [hlen] at hps hat
        rw [← List.drop_drop, List.drop_left, List.drop_one, List.tail_cons] at hps
        rw [List.drop_left] at hat
        rcases hat with ⟨more, hmore⟩
        cases hmore
        exact ih hps e List.mem_cons_self (by simp)

end Any

/-- **What `split` and `split_any` return.** A joined text comes apart into its parts if and only if
there is one part or the delimiter is one character, and `split_any` returns what
`split_visit_any` visits if and only if it has one character or finds none of several. -/
theorem split_joined_iff (parts : List (List Char)) (d str chars : List Char) :
    (parts ≠ [] → d ≠ [] → OnlyAtJoints parts d →
      (split (joined parts d) d = some parts ↔ parts.length = 1 ∨ d.length = 1)) ∧
    splitVisitAny str chars = some (pieces str chars) ∧
    (splitAny str chars = some (pieces str chars) ↔
      chars.length = 1 ∨ (chars ≠ [] ∧ ∀ c ∈ str, c ∉ chars)) := by
  constructor
  · intro hparts hd hjoints
    rcases List.exists_cons_of_ne_nil hparts with ⟨part, parts, rfl⟩
    have hfuel : parts.length < (joined (part :: parts) d).length + 1 := by
      have := length_le_joined hd parts
      rw [joined_cons, List.length_append]
      omega
    have hsplit := @splitRest_joined _ hd [] part parts _ hfuel (by simpa [OnlyAtJoints] using hjoints)
    rw [List.nil_append] at hsplit
    rw [split, hsplit, List.nil_append, Option.some.injEq, List.cons.injEq]
    rcases List.exists_cons_of_ne_nil hd with ⟨c, ds, rfl⟩
    cases parts with
    | nil => simp
    | cons next parts =>
      rw [List.map_cons, List.cons.injEq, List.tail_cons]
      constructor
      · rintro ⟨-, hnext, -⟩
        right
        have hlen := congrArg List.length hnext
        rw [List.length_append] at hlen
        rw [List.length_cons]
        omega
      · intro hone
        have hds : ds = [] := by simpa using hone
        simp [hds]
  · refine ⟨splitRest_findFirstOf chars (Nat.lt_succ_self _), ?_⟩
    rw [splitAny]
    cases chars with
    | nil => simp [splitRest_nil]
    | cons d ds =>
      cases ds with
      | nil =>
        have hfind : findStr [d] = findFirstOf [d] := funext (findStr_singleton d)
        rw [hfind, splitRest_findFirstOf [d] (Nat.lt_succ_self _)]
        simp
      | cons e ds =>
        constructor
        · intro h
          exact Or.inr ⟨by simp, forall_not_mem_of_splitRest h⟩
        · rintro (hone | ⟨hne, hno⟩)
          · simp at hone
          · rw [splitRest, findStr_eq_none_of_forall hne hno, pieces,
              List.splitOnP_eq_singleton (by simpa using hno)]

theorem split_joined_comma : split (joined [['a'], ['b']] [',']) [','] = some [['a'], ['b']] := by
  refine ((split_joined_iff [['a'], ['b']] [','] [] []).1 (by simp) (by simp) fun i hi => ?_).mpr
    (.inr rfl)
  match i, hi with
  | 1, _ => exact ⟨1, by decide, by decide, rfl⟩
  | 0, hi | 2, hi | i + 3, hi => simp [joined, joinAppendTo] at hi

/-- A delimiter of two characters leaves its second one, and several characters are looked for as
one string. -/
theorem not_split_joined :
    split (joined [['a'], ['b']] [':', ':']) [':', ':'] = some [['a'], [':', 'b']] ∧
      splitAny ['a', ',', 'b', ';', 'c'] [',', ';'] = some [['a', ',', 'b', ';', 'c']] ∧
      splitVisitAny ['a', ',', 'b', ';', 'c'] [',', ';'] = some [['a'], ['b'], ['c']] := by
  decide

section Code

/-- `string(data + start, *last == '\r' ? last : last + 1)`, where `last` is the last character of
the line, or of what stands before it. -/
def chomp (before : Option Char) (line : List Char) : Option (List Char) :=
  (line.getLast?.or before).bind fun last =>
    if last = '\r' then (if line = [] then none else some line.dropLast) else some line

/-- The loop of `chomped_lines_into`, where `text` stands at `start`. The test behind the loop
compares `start` with `npos`. -/
def chompedFrom : ℕ → Option Char → List Char → Option (List (List Char))
  | 0, _, _ => none
  | fuel + 1, before, text =>
    match text.findIdx? (· = '\n') with
    | some «end» =>
      (chomp before (text.take «end»)).bind fun line =>
        (chompedFrom fuel (some '\n') (text.drop («end» + 1))).map (line :: ·)
    | none => (chomp before text).map ([·])

def chompedLines (text : List Char) : Option (List (List Char)) :=
  chompedFrom (text.length + 1) none text

/-- `if (len && line[--len] == '\r') line.resize(len)`. -/
def resizeChomped (line : List Char) : List Char :=
  if line.getLast? = some '\r' then line.dropLast else line

/-- The loop over a stream; `getline` fails where nothing is left. -/
def getLines : ℕ → List Char → List (List Char)
  | 0, _ => []
  | fuel + 1, text =>
    match text.findIdx? (· = '\n') with
    | some «end» => resizeChomped (text.take «end») :: getLines fuel (text.drop («end» + 1))
    | none => if text = [] then [] else [resizeChomped text]

def chompedLinesIn (text : List Char) : List (List Char) := getLines (text.length + 1) text

end Code

/-- What stands between newlines, without an empty line behind the last one. -/
def linesOf (text : List Char) : List (List Char) :=
  let lines := pieces text ['\n']
  if lines.getLast? = some [] then lines.dropLast else lines

section Lines

variable {text line rest : List Char} {before : Option Char} {fuel : ℕ}

theorem findIdx?_newline (hline : ∀ c ∈ line, c ∉ ['\n']) :
    (line ++ '\n' :: rest).findIdx? (· = '\n') = some line.length := by
  have hnone : line.findIdx? (· = '\n') = none :=
    List.findIdx?_eq_none_iff.mpr (by simpa using hline)
  rw [List.findIdx?_append, hnone, List.findIdx?_cons]
  simp

theorem pieces_newline (hline : ∀ c ∈ line, c ∉ ['\n']) :
    pieces (line ++ '\n' :: rest) ['\n'] = line :: pieces rest ['\n'] :=
  List.splitOnP_append_cons_of_forall_mem (by simpa using hline) '\n' (by simp) rest

theorem pieces_line (hline : ∀ c ∈ line, c ∉ ['\n']) : pieces line ['\n'] = [line] :=
  List.splitOnP_eq_singleton (by simpa using hline)

theorem lines_induction {P : List Char → Prop} (last : ∀ line, (∀ c ∈ line, c ∉ ['\n']) → P line)
    (first : ∀ line rest, (∀ c ∈ line, c ∉ ['\n']) → P rest → P (line ++ '\n' :: rest))
    (text : List Char) : P text := by
  refine pieces_induction (fun c => c ∈ ['\n']) (fun line hline => last line (by simpa using hline))
    (fun line c rest hline hc hrest => ?_) text
  have hc : c = '\n' := by simpa using hc
  rw [hc]
  exact first line rest (by simpa using hline) hrest

theorem chomp_eq (h : before = some '\n' ∨ line ≠ []) :
    chomp before line = some (resizeChomped line) := by
  rcases List.eq_nil_or_concat line with rfl | ⟨front, c, rfl⟩
  · rw [h.resolve_right (by simp)]
    rfl
  · rw [chomp, resizeChomped, List.concat_eq_append, List.getLast?_concat]
    by_cases hc : c = '\r' <;> simp [hc]

theorem chompedFrom_eq (hfuel : text.length < fuel)
    (h : before = some '\n' ∨ (text ≠ [] ∧ text.head? ≠ some '\n')) :
    chompedFrom fuel before text = some ((pieces text ['\n']).map resizeChomped) := by
  induction text using lines_induction generalizing fuel before with
  | last line hline =>
    rcases Nat.exists_eq_succ_of_ne_zero (Nat.ne_zero_of_lt hfuel) with ⟨fuel, rfl⟩
    have hnone : line.findIdx? (· = '\n') = none :=
      List.findIdx?_eq_none_iff.mpr (by simpa using hline)
    rw [chompedFrom, hnone, pieces_line hline]
    simp only
    rw [chomp_eq (h.imp_right And.left)]
    rfl
  | first line rest hline ih =>
    rcases Nat.exists_eq_succ_of_ne_zero (Nat.ne_zero_of_lt hfuel) with ⟨fuel, rfl⟩
    have hne : before = some '\n' ∨ line ≠ [] := by
      rcases h with hyes | ⟨-, hhead⟩
      · exact Or.inl hyes
      · right
        rintro rfl
        exact hhead rfl
    rw [List.length_append, List.length_cons] at hfuel
    rw [chompedFrom, findIdx?_newline hline, pieces_newline hline]
    simp only
    rw [← List.drop_drop, List.drop_left, List.take_left, List.drop_one, List.tail_cons,
      chomp_eq hne, ih (by omega) (Or.inl rfl)]
    rfl

/-- The last piece is empty where the text ends behind a newline. -/
theorem getLast?_pieces : (pieces text ['\n']).getLast? = some [] ↔
    text = [] ∨ text.getLast? = some '\n' := by
  induction text using lines_induction with
  | last line hline =>
    rw [pieces_line hline]
    simp only [List.getLast?_singleton, Option.some.injEq]
    constructor
    · exact Or.inl
    · rintro (hnil | hlast)
      · exact hnil
      · exact absurd (List.mem_singleton_self _) (hline _ (List.mem_of_getLast? hlast))
  | first line rest hline ih =>
    have hne : pieces rest ['\n'] ≠ [] := List.splitOnP_ne_nil _ _
    rw [pieces_newline hline, List.getLast?_cons_of_ne_nil hne, ih]
    cases rest with
    | nil => simp
    | cons c rest => simp

theorem getLines_eq (hfuel : text.length < fuel) :
    getLines fuel text = (linesOf text).map resizeChomped := by
  induction text using lines_induction generalizing fuel with
  | last line hline =>
    rcases Nat.exists_eq_succ_of_ne_zero (Nat.ne_zero_of_lt hfuel) with ⟨fuel, rfl⟩
    have hnone : line.findIdx? (· = '\n') = none :=
      List.findIdx?_eq_none_iff.mpr (by simpa using hline)
    rw [getLines, hnone, linesOf, pieces_line hline]
    by_cases hnil : line = [] <;> simp [hnil]
  | first line rest hline ih =>
    rcases Nat.exists_eq_succ_of_ne_zero (Nat.ne_zero_of_lt hfuel) with ⟨fuel, rfl⟩
    have hne : pieces rest ['\n'] ≠ [] := List.splitOnP_ne_nil _ _
    rw [List.length_append, List.length_cons] at hfuel
    rw [getLines, findIdx?_newline hline, linesOf, pieces_newline hline]
    simp only
    rw [← List.drop_drop, List.drop_left, List.take_left, List.drop_one, List.tail_cons,
      ih (by omega), List.getLast?_cons_of_ne_nil hne, linesOf]
    split_ifs with hlast
    · rw [List.dropLast_cons_of_ne_nil hne, List.map_cons]
    · rfl

end Lines

/-- **Lines from a stream are right**, and lines from a string if and only if the text is not empty
and neither begins nor ends with a newline. -/
theorem chomped_lines_iff (text : List Char) :
    chompedLinesIn text = (linesOf text).map resizeChomped ∧
      (chompedLines text = some ((linesOf text).map resizeChomped) ↔
        text ≠ [] ∧ text.head? ≠ some '\n' ∧ text.getLast? ≠ some '\n') := by
  refine ⟨getLines_eq (Nat.lt_succ_self _), ?_⟩
  by_cases hnil : text = []
  · simp [hnil, chompedLines, chompedFrom, chomp]
  by_cases hhead : text.head? = some '\n'
  · rcases List.exists_cons_of_ne_nil hnil with ⟨c, rest, rfl⟩
    cases hhead
    have hfind := @findIdx?_newline [] rest (by simp)
    have hnone : chompedLines ('\n' :: rest) = none := by
      rw [chompedLines, chompedFrom, ← List.nil_append ('\n' :: rest), hfind]
      rfl
    simp [hnone]
  rw [chompedLines, chompedFrom_eq (Nat.lt_succ_self _) (Or.inr ⟨hnil, hhead⟩), linesOf]
  by_cases hlast : text.getLast? = some '\n'
  · rw [if_pos (getLast?_pieces.mpr (Or.inr hlast))]
    have hne : pieces text ['\n'] ≠ [] := List.splitOnP_ne_nil _ _
    simp only [hlast, ne_eq, not_true_eq_false, and_false, iff_false]
    intro heq
    have hlen := congrArg List.length (Option.some.inj heq)
    have := List.length_pos_of_ne_nil hne
    rw [List.length_map, List.length_map, List.length_dropLast] at hlen
    omega
  · rw [if_neg fun h => (getLast?_pieces.mp h).elim hnil hlast]
    simp [hnil, hhead, hlast]

/-- A newline at the end of a string is taken for an empty line behind it, and the character in
front of an empty text, or of one that begins with a newline, is not there. -/
theorem not_chomped_lines :
    chompedLines ['a', '\n'] = some [['a'], []] ∧ chompedLinesIn ['a', '\n'] = [['a']] ∧
      chompedLines ['\n', 'a'] = none ∧ chompedLines [] = none := by
  decide

end Carmel.Text
