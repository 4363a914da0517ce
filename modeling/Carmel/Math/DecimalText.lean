/-
# Decimal numerals and how they are scanned

A decimal numeral has a sign, digits with or without a point, and an exponent, each but the
digits optional. A scanner takes a numeral whole if the text does not go on with a character
that continues it. The value is rounded to the nearest binary64 number, ties to even, or is
out of range.
-/

import Carmel.Math.Extraction

namespace Carmel.Math

/-- A binary64 number that is not a NaN: a rational, or an infinity with its sign. -/
inductive Double
  | finite (q : ℚ)
  | inf (negative : Bool)
deriving DecidableEq, Repr

/-- The nearest integer, the even one of two. -/
def roundEven (q : ℚ) : ℤ :=
  if q - ⌊q⌋ < 1 / 2 then ⌊q⌋
  else if 1 / 2 < q - ⌊q⌋ then ⌊q⌋ + 1
  else if ⌊q⌋ % 2 = 0 then ⌊q⌋ else ⌊q⌋ + 1

/-- The exponent of the last place of a number: 53 digits, none below `2 ^ -1074`. -/
def lastPlace (q : ℚ) : ℤ := max (Int.log 2 |q| - 52) (-1074)

/-- The binary64 number for a rational. -/
def toDouble (q : ℚ) : Double :=
  let r := (roundEven (q / 2 ^ lastPlace q) : ℚ) * 2 ^ lastPlace q
  if |r| < 2 ^ 1024 then .finite r else .inf (q < 0)

/-- The largest finite binary64 number. -/
def maxDouble : ℚ := (2 ^ 53 - 1) * 2 ^ 971

/-- An exponent: the mark, the sign and the digits. -/
structure Exponent where
  mark : Char
  sign : Option Bool
  digits : List Char
deriving DecidableEq, Repr

/-- What a scanner takes from a text. A sign is negative when it is `some true`. -/
structure Scanned where
  sign : Option Bool
  int : List Char
  frac : Option (List Char)
  exp : Option Exponent
deriving DecidableEq, Repr

def signText : Option Bool → List Char
  | none => []
  | some true => ['-']
  | some false => ['+']

/-- The point and the digits behind it. -/
def fracText : Option (List Char) → List Char
  | none => []
  | some ds => '.' :: ds

def Exponent.text (e : Exponent) : List Char := e.mark :: (signText e.sign ++ e.digits)

def expText : Option Exponent → List Char
  | none => []
  | some e => e.text

namespace Scanned

def text (s : Scanned) : List Char := signText s.sign ++ (s.int ++ (fracText s.frac ++ expText s.exp))

/-- The digits before and behind the point. -/
def mantissa (s : Scanned) : List Char := s.int ++ s.frac.getD []

def signed (sign : Option Bool) (n : ℕ) : ℤ := if sign = some true then -(n : ℤ) else n

/-- The power of ten that the last digit of the mantissa counts. -/
def scale (s : Scanned) : ℤ :=
  (match s.exp with
    | none => 0
    | some e => signed e.sign (Nat.ofDigitChars 10 e.digits 0)) - (s.frac.getD []).length

def value (s : Scanned) : ℚ :=
  (signed s.sign (Nat.ofDigitChars 10 s.mantissa 0) : ℚ) * 10 ^ s.scale

end Scanned

/-- A numeral: there are digits, also in the exponent if there is one. -/
structure Decimal extends Scanned where
  isDigit_int : ∀ c ∈ int, c.isDigit = true
  isDigit_frac : ∀ ds ∈ frac, ∀ c ∈ ds, c.isDigit = true
  mantissa_ne_nil : toScanned.mantissa ≠ []
  isDigit_exp : ∀ e ∈ exp, ∀ c ∈ e.digits, c.isDigit = true
  exp_ne_nil : ∀ e ∈ exp, e.digits ≠ []
  mark : ∀ e ∈ exp, e.mark = 'e' ∨ e.mark = 'E'

/-- The characters that may go on with a numeral at its end: digits, a first point, a mark of an
exponent, and the mark of a hexadecimal numeral behind a zero. -/
def Decimal.Continues (d : Decimal) (c : Char) : Prop :=
  c.isDigit = true ∨ (c = '.' ∧ d.frac = none ∧ d.exp = none) ∨ ((c = 'e' ∨ c = 'E') ∧ d.exp = none) ∨
    ((c = 'x' ∨ c = 'X') ∧ d.int = ['0'] ∧ d.frac = none ∧ d.exp = none)

/-- Those of them that a scanner of decimal numerals takes. -/
def Decimal.Extends (d : Decimal) (c : Char) : Prop :=
  c.isDigit = true ∨ (c = '.' ∧ d.frac = none ∧ d.exp = none) ∨ ((c = 'e' ∨ c = 'E') ∧ d.exp = none)

theorem Decimal.Extends.continues {d : Decimal} {c : Char} (h : d.Extends c) : d.Continues c := by
  rcases h with h | h | h
  · exact .inl h
  · exact .inr (.inl h)
  · exact .inr (.inr (.inl h))

def scanSign : List Char → Option Bool × List Char
  | '-' :: text => (some true, text)
  | '+' :: text => (some false, text)
  | text => (none, text)

def scanFrac : List Char → Option (List Char) × List Char
  | '.' :: text => (some (text.takeWhile Char.isDigit), text.dropWhile Char.isDigit)
  | text => (none, text)

def scanExp : List Char → Option Exponent × List Char
  | [] => (none, [])
  | c :: text =>
    if c = 'e' ∨ c = 'E' then
      let (sign, text) := scanSign text
      (some ⟨c, sign, text.takeWhile Char.isDigit⟩, text.dropWhile Char.isDigit)
    else (none, c :: text)

/-- All that may belong to a numeral. An exponent is taken behind digits only. -/
def scan (text : List Char) : Scanned × List Char :=
  let (sign, text) := scanSign text
  let int := text.takeWhile Char.isDigit
  let (frac, text) := scanFrac (text.dropWhile Char.isDigit)
  if int ++ frac.getD [] = [] then (⟨sign, int, frac, none⟩, text)
  else
    let (exp, text) := scanExp text
    (⟨sign, int, frac, exp⟩, text)

/-- `strtod`: the number for the longest numeral in front, and what is behind it; zero and the
whole text if there is none. -/
def strtod (text : List Char) : Double × List Char :=
  let (s, rest) := scan (skipSpaces text)
  if s.mantissa = [] then (.finite 0, text)
  else
    match s.exp with
    | some e =>
      -- an exponent without digits is not one
      if e.digits = [] then (toDouble { s with exp := none }.value, e.text ++ rest)
      else (toDouble s.value, rest)
    | none => (toDouble s.value, rest)

/-- What a formatted extraction of a number does to the variable and the stream. -/
structure Extracted where
  value : Double
  fail : Bool
  rest : List Char

/-- `num_get`: what was taken must be a numeral in range. It runs into the end of the text when
nothing is left. -/
def numGet (text : List Char) : Extracted :=
  let (s, rest) := scan (skipSpaces text)
  if s.mantissa = [] ∨ s.exp.map Exponent.digits = some [] then ⟨.finite 0, true, rest⟩
  else
    match toDouble s.value with
    | .finite q => ⟨.finite q, false, rest⟩
    | .inf negative => ⟨.finite (if negative then -maxDouble else maxDouble), true, rest⟩

/-! ## A numeral is taken whole -/

variable {d : Decimal} {ds rest : List Char}

theorem takeWhile_digits (hds : ∀ c ∈ ds, c.isDigit = true) (h : NoDigitAhead rest) :
    (ds ++ rest).takeWhile Char.isDigit = ds ∧ (ds ++ rest).dropWhile Char.isDigit = rest := by
  rw [List.takeWhile_append_of_pos hds, List.dropWhile_append_of_pos hds]
  cases rest with
  | nil => simp
  | cons c rest => simp [noDigitAhead_cons.mp h]

theorem scanSign_append (sign : Option Bool) {text : List Char}
    (h : ∀ c ∈ text.head?, c ≠ '+' ∧ c ≠ '-') : scanSign (signText sign ++ text) = (sign, text) := by
  cases sign with
  | some b => cases b <;> rfl
  | none =>
    cases text with
    | nil => rfl
    | cons c text =>
      obtain ⟨hplus, hminus⟩ := h c rfl
      simp only [signText, List.nil_append]
      rw [scanSign]
      · exact fun _ ht => hminus (List.cons.inj ht).1
      · exact fun _ ht => hplus (List.cons.inj ht).1

theorem ne_of_isDigit {c : Char} (h : c.isDigit = true) {e : Char} (he : e.isDigit = false) : c ≠ e := by
  rintro rfl
  rw [h] at he
  cases he

theorem scanExp_append (hrest : ∀ c ∈ rest.head?, ¬ d.Extends c) :
    scanExp (expText d.exp ++ rest) = (d.exp, rest) := by
  cases he : d.exp with
  | none =>
    cases rest with
    | nil => rfl
    | cons c rest =>
      have hc : ¬ (c = 'e' ∨ c = 'E') := fun hc => hrest c rfl (.inr (.inr ⟨hc, he⟩))
      simp only [expText, List.nil_append, scanExp, if_neg hc]
  | some e =>
    have hdigits := d.isDigit_exp e he
    have hahead : NoDigitAhead rest := by
      intro c hc
      by_contra hdigit
      exact hrest c hc (.inl (by simpa using hdigit))
    have hhead : ∀ c ∈ (e.digits ++ rest).head?, c ≠ '+' ∧ c ≠ '-' := by
      intro c hc
      have hne := d.exp_ne_nil e he
      rw [List.head?_append_of_ne_nil _ hne] at hc
      have hc := hdigits c (List.mem_of_mem_head? hc)
      exact ⟨ne_of_isDigit hc (by decide), ne_of_isDigit hc (by decide)⟩
    obtain ⟨htake, hdrop⟩ := takeWhile_digits hdigits hahead
    simp only [expText, Exponent.text, List.cons_append, List.append_assoc, scanExp,
      if_pos (d.mark e he), scanSign_append e.sign hhead, htake, hdrop]

/-- What stands behind the digits before the point is no digit. -/
theorem noDigitAhead_exp (hrest : ∀ c ∈ rest.head?, ¬ d.Extends c) :
    NoDigitAhead (expText d.exp ++ rest) := by
  intro c hc
  cases he : d.exp with
  | none =>
    rw [he] at hc
    by_contra hdigit
    exact hrest c hc (.inl (by simpa using hdigit))
  | some e =>
    rw [he] at hc
    obtain rfl := Option.some.inj hc
    rcases d.mark e he with h | h <;> rw [h] <;> rfl

theorem scanFrac_append (hrest : ∀ c ∈ rest.head?, ¬ d.Extends c) :
    scanFrac (fracText d.frac ++ (expText d.exp ++ rest)) = (d.frac, expText d.exp ++ rest) := by
  cases hf : d.frac with
  | some ds =>
    obtain ⟨htake, hdrop⟩ := takeWhile_digits (d.isDigit_frac ds hf) (noDigitAhead_exp hrest)
    simp only [fracText, List.cons_append, scanFrac, htake, hdrop]
  | none =>
    have hpoint : ∀ c ∈ (expText d.exp ++ rest).head?, c ≠ '.' := by
      intro c hc
      cases he : d.exp with
      | none =>
        rw [he] at hc
        rintro rfl
        exact hrest '.' hc (.inr (.inl ⟨rfl, hf, he⟩))
      | some e =>
        rw [he] at hc
        obtain rfl := Option.some.inj hc
        rcases d.mark e he with h | h <;> rw [h] <;> decide
    rw [fracText, List.nil_append]
    cases htext : expText d.exp ++ rest with
    | nil => rfl
    | cons c text =>
      have hc : c ≠ '.' := hpoint c (by rw [htext]; rfl)
      rw [scanFrac]
      exact fun _ ht => hc (List.cons.inj ht).1

theorem mem_signText {sign : Option Bool} {c : Char} (h : c ∈ signText sign) : c = '+' ∨ c = '-' := by
  cases sign with
  | none => cases h
  | some b =>
    cases b with
    | false => exact .inl (List.mem_singleton.mp h)
    | true => exact .inr (List.mem_singleton.mp h)

theorem mem_text {c : Char} (h : c ∈ d.text) : c.isDigit = true ∨ c ∈ ['+', '-', '.', 'e', 'E'] := by
  have hsign : ∀ {sign : Option Bool}, c ∈ signText sign → c ∈ ['+', '-', '.', 'e', 'E'] := by
    intro sign h
    rcases mem_signText h with rfl | rfl <;> decide
  rcases List.mem_append.mp h with h | h
  · exact .inr (hsign h)
  rcases List.mem_append.mp h with h | h
  · exact .inl (d.isDigit_int c h)
  rcases List.mem_append.mp h with h | h
  · cases hf : d.frac with
    | none =>
      rw [hf] at h
      cases h
    | some ds =>
      rw [hf] at h
      rcases List.mem_cons.mp h with rfl | h
      · exact .inr (by decide)
      · exact .inl (d.isDigit_frac ds hf c h)
  · cases he : d.exp with
    | none =>
      rw [he] at h
      cases h
    | some e =>
      rw [he] at h
      rcases List.mem_cons.mp h with rfl | h
      · rcases d.mark e he with hmark | hmark <;> rw [hmark] <;> exact .inr (by decide)
      · rcases List.mem_append.mp h with h | h
        · exact .inr (hsign h)
        · exact .inl (d.isDigit_exp e he c h)

theorem text_eq_cons : ∃ c text, d.text = c :: text ∧ (c.isDigit = true ∨ c ∈ ['+', '-', '.']) := by
  rw [Scanned.text]
  cases hs : d.sign with
  | some b => cases b <;> exact ⟨_, _, rfl, .inr (by decide)⟩
  | none =>
    cases hi : d.int with
    | cons a ds => exact ⟨a, _, rfl, .inl (d.isDigit_int a (hi ▸ List.mem_cons_self))⟩
    | nil =>
      cases hf : d.frac with
      | none => exact absurd (by rw [Scanned.mantissa, hi, hf]; rfl) d.mantissa_ne_nil
      | some ds => exact ⟨'.', _, rfl, .inr (by decide)⟩

/-- A numeral has no sign but in front and in its exponent. -/
theorem head?_digits_ne :
    ∀ c ∈ (d.int ++ (fracText d.frac ++ (expText d.exp ++ rest))).head?, c ≠ '+' ∧ c ≠ '-' := by
  intro c hc
  cases hi : d.int with
  | cons a ds =>
    rw [hi] at hc
    obtain rfl := Option.some.inj hc
    have ha := d.isDigit_int a (hi ▸ List.mem_cons_self)
    exact ⟨ne_of_isDigit ha (by decide), ne_of_isDigit ha (by decide)⟩
  | nil =>
    cases hf : d.frac with
    | none => exact absurd (by rw [Scanned.mantissa, hi, hf]; rfl) d.mantissa_ne_nil
    | some ds =>
      rw [hi, hf] at hc
      obtain rfl := Option.some.inj hc
      decide

/-- **A numeral is scanned whole** where the text does not go on with a character that the scanner
takes. -/
theorem scan_append_of_not_extends (hrest : ∀ c ∈ rest.head?, ¬ d.Extends c) :
    scan (d.text ++ rest) = (d.toScanned, rest) := by
  have hahead : NoDigitAhead (fracText d.frac ++ (expText d.exp ++ rest)) := by
    cases hf : d.frac with
    | none => exact noDigitAhead_exp hrest
    | some ds => exact noDigitAhead_cons.mpr (by decide)
  obtain ⟨htake, hdrop⟩ := takeWhile_digits d.isDigit_int hahead
  have hmantissa : d.int ++ d.frac.getD [] ≠ [] := d.mantissa_ne_nil
  simp only [Scanned.text, List.append_assoc, scan,
    scanSign_append d.sign head?_digits_ne, htake, hdrop, scanFrac_append hrest,
    if_neg hmantissa, scanExp_append hrest]

theorem scan_append (hrest : ∀ c ∈ rest.head?, ¬ d.Continues c) :
    scan (d.text ++ rest) = (d.toScanned, rest) :=
  scan_append_of_not_extends fun c hc h => hrest c hc h.continues

theorem skipSpaces_text : skipSpaces (d.text ++ rest) = d.text ++ rest := by
  obtain ⟨c, text, htext, hc⟩ := text_eq_cons (d := d)
  have hspace : isSpace c = false := by
    rcases hc with hc | hc
    · exact isSpace_of_isDigit hc
    · simp only [List.mem_cons, List.not_mem_nil, or_false] at hc
      rcases hc with rfl | rfl | rfl <;> rfl
  rw [htext, List.cons_append, skipSpaces_cons hspace]

theorem strtod_append (hrest : ∀ c ∈ rest.head?, ¬ d.Continues c) :
    strtod (d.text ++ rest) = (toDouble d.value, rest) := by
  rw [strtod, skipSpaces_text, scan_append hrest]
  simp only [if_neg d.mantissa_ne_nil]
  cases he : d.exp with
  | none => rfl
  | some e => simp only [if_neg (d.exp_ne_nil e he)]

theorem numGet_append (hrest : ∀ c ∈ rest.head?, ¬ d.Continues c) :
    numGet (d.text ++ rest) = match toDouble d.value with
      | .finite q => ⟨.finite q, false, rest⟩
      | .inf negative => ⟨.finite (if negative then -maxDouble else maxDouble), true, rest⟩ := by
  have hexp : d.exp.map Exponent.digits ≠ some [] := by
    intro h
    obtain ⟨e, he, hdigits⟩ := Option.map_eq_some_iff.mp h
    exact d.exp_ne_nil e he hdigits
  rw [numGet, skipSpaces_text, scan_append hrest]
  simp only [d.mantissa_ne_nil, hexp, or_self, if_false]

theorem numGet_of_finite (hrest : ∀ c ∈ rest.head?, ¬ d.Continues c) {q : ℚ}
    (hq : toDouble d.value = .finite q) : numGet (d.text ++ rest) = ⟨.finite q, false, rest⟩ := by
  rw [numGet_append hrest, hq]

theorem numGet_of_inf (hrest : ∀ c ∈ rest.head?, ¬ d.Continues c) {negative : Bool}
    (hinf : toDouble d.value = .inf negative) :
    numGet (d.text ++ rest) = ⟨.finite (if negative then -maxDouble else maxDouble), true, rest⟩ := by
  rw [numGet_append hrest, hinf]

/-! ## What is left -/

theorem length_dropWhile_le (p : Char → Bool) (text : List Char) :
    (text.dropWhile p).length ≤ text.length := (List.dropWhile_suffix p).length_le

theorem length_scanSign_le (text : List Char) : (scanSign text).2.length ≤ text.length := by
  rw [scanSign.eq_def]
  split <;> simp

theorem length_scanFrac_le (text : List Char) : (scanFrac text).2.length ≤ text.length := by
  rw [scanFrac.eq_def]
  split
  · exact (length_dropWhile_le _ _).trans (Nat.le_succ _)
  · exact le_rfl

theorem length_scanExp_le (text : List Char) : (scanExp text).2.length ≤ text.length := by
  cases text with
  | nil => exact le_rfl
  | cons c text =>
    rw [scanExp]
    split
    · exact (length_dropWhile_le _ _).trans ((length_scanSign_le text).trans (Nat.le_succ _))
    · exact le_rfl

theorem length_scan_le (text : List Char) : (scan text).2.length ≤ text.length := by
  have hfrac := (length_scanFrac_le ((scanSign text).2.dropWhile Char.isDigit)).trans
    ((length_dropWhile_le _ _).trans (length_scanSign_le text))
  rw [scan]
  dsimp only
  split
  · exact hfrac
  · exact (length_scanExp_le _).trans hfrac

/-- An extraction gives nothing back. -/
theorem length_numGet_le (text : List Char) : (numGet text).rest.length ≤ text.length := by
  have hscan := (length_scan_le (skipSpaces text)).trans (length_dropWhile_le _ text)
  rw [numGet]
  dsimp only
  split
  · exact hscan
  · split <;> exact hscan

theorem length_scanExp_lt {c : Char} (h : c = 'e' ∨ c = 'E') (text : List Char) :
    (scanExp (c :: text)).2.length < (c :: text).length := by
  rw [scanExp, if_pos h]
  exact Nat.lt_succ_of_le ((length_dropWhile_le _ _).trans (length_scanSign_le text))

theorem length_dropWhile_digits_lt {c : Char} (h : c.isDigit = true) (text : List Char) :
    ((c :: text).dropWhile Char.isDigit).length < (c :: text).length := by
  rw [List.dropWhile_cons_of_pos h]
  exact Nat.lt_succ_of_le (length_dropWhile_le _ text)

/-- What is left behind a numeral, when nothing is known of what follows it. -/
theorem scan_append_rest (hint : d.int ≠ []) (rest : List Char) : (scan (d.text ++ rest)).2 =
    match d.frac, d.exp with
    | _, some _ => rest.dropWhile Char.isDigit
    | some _, none => (scanExp (rest.dropWhile Char.isDigit)).2
    | none, none => (scanExp (scanFrac (rest.dropWhile Char.isDigit)).2).2 := by
  have hsign : scanSign (signText d.sign ++ (d.int ++ (fracText d.frac ++ (expText d.exp ++ rest)))) =
      (d.sign, d.int ++ (fracText d.frac ++ (expText d.exp ++ rest))) :=
    scanSign_append d.sign head?_digits_ne
  have hexp : ∀ e, d.exp = some e → scanExp (e.text ++ rest) =
        (some ⟨e.mark, e.sign, e.digits ++ rest.takeWhile Char.isDigit⟩, rest.dropWhile Char.isDigit) := by
    intro e he
    have hhead : ∀ c ∈ (e.digits ++ rest).head?, c ≠ '+' ∧ c ≠ '-' := by
      intro c hc
      rw [List.head?_append_of_ne_nil _ (d.exp_ne_nil e he)] at hc
      have hc := d.isDigit_exp e he c (List.mem_of_mem_head? hc)
      exact ⟨ne_of_isDigit hc (by decide), ne_of_isDigit hc (by decide)⟩
    simp only [Exponent.text, List.cons_append, List.append_assoc, scanExp, if_pos (d.mark e he),
      scanSign_append e.sign hhead, List.takeWhile_append_of_pos (d.isDigit_exp e he),
      List.dropWhile_append_of_pos (d.isDigit_exp e he)]
  have hmark : ∀ e, d.exp = some e → e.mark.isDigit = false ∧ e.mark ≠ '.' := by
    intro e he
    rcases d.mark e he with h | h <;> rw [h] <;> exact ⟨rfl, by decide⟩
  have hne : ∀ x : List Char, d.int ++ x ≠ [] := fun x h => hint (List.append_eq_nil_iff.mp h).1
  simp only [Scanned.text, List.append_assoc, scan, hsign,
    List.takeWhile_append_of_pos d.isDigit_int, List.dropWhile_append_of_pos d.isDigit_int, hne,
    if_false]
  cases he : d.exp with
  | none =>
    rw [expText, List.nil_append]
    cases hf : d.frac with
    | none => rfl
    | some ds =>
      rw [fracText, List.cons_append, List.dropWhile_cons_of_neg (by decide), scanFrac,
        List.dropWhile_append_of_pos (d.isDigit_frac ds hf)]
  | some e =>
    obtain ⟨hdigit, hpoint⟩ := hmark e he
    have hdrop : (e.text ++ rest).dropWhile Char.isDigit = e.text ++ rest := by
      rw [Exponent.text, List.cons_append, List.dropWhile_cons_of_neg (by simp [hdigit])]
    rw [expText]
    cases hf : d.frac with
    | none =>
      have hscan : scanFrac (e.text ++ rest) = (none, e.text ++ rest) := by
        rw [Exponent.text, List.cons_append, scanFrac]
        exact fun _ ht => hpoint (List.cons.inj ht).1
      rw [fracText, List.nil_append, hdrop, hscan, hexp e he]
    | some ds =>
      rw [fracText, List.cons_append, List.dropWhile_cons_of_neg (by decide), scanFrac,
        List.dropWhile_append_of_pos (d.isDigit_frac ds hf), hdrop, hexp e he]

/-- Exactly a numeral is taken if and only if the text does not go on with a character that the
scanner takes. -/
theorem scan_append_rest_eq_iff (hint : d.int ≠ []) :
    (scan (d.text ++ rest)).2 = rest ↔ ∀ c ∈ rest.head?, ¬ d.Extends c := by
  constructor
  · intro hscan c hc hext
    obtain ⟨text, rfl⟩ : ∃ text, rest = c :: text := by
      cases rest with
      | nil => cases hc
      | cons a text => exact ⟨text, by rw [Option.some.inj hc]⟩
    rw [scan_append_rest hint] at hscan
    have hlen := congrArg List.length hscan
    -- what the scanner takes of `c :: text` makes what is left shorter
    have hshort : ∀ x : List Char, x.length ≤ ((c :: text).dropWhile Char.isDigit).length →
        c.isDigit = true → x.length ≠ (c :: text).length := by
      intro x hx hdigit
      have hlt := length_dropWhile_digits_lt hdigit text
      omega
    rcases hext with hdigit | ⟨rfl, hf, he⟩ | ⟨hmark, he⟩
    · cases he : d.exp with
      | some e =>
        rw [he] at hlen
        exact hshort _ le_rfl hdigit hlen
      | none =>
        rw [he] at hlen
        cases hf : d.frac with
        | some ds =>
          rw [hf] at hlen
          exact hshort _ (length_scanExp_le _) hdigit hlen
        | none =>
          rw [hf] at hlen
          exact hshort _ ((length_scanExp_le _).trans (length_scanFrac_le _)) hdigit hlen
    · rw [hf, he, List.dropWhile_cons_of_neg (by decide)] at hlen
      have hle := (length_scanExp_le (scanFrac ('.' :: text)).2).trans (length_dropWhile_le _ text)
      simp only [List.length_cons] at hlen
      omega
    · have hlt := length_scanExp_lt hmark text
      have hdigit : ¬ c.isDigit = true := by
        rcases hmark with h | h <;> rw [h] <;> decide
      have hpoint : scanFrac (c :: text) = (none, c :: text) := by
        rw [scanFrac]
        rintro _ ht
        rcases hmark with h | h <;> exact absurd (h.symm.trans (List.cons.inj ht).1) (by decide)
      rw [he, List.dropWhile_cons_of_neg hdigit] at hlen
      cases hf : d.frac with
      | some ds =>
        rw [hf] at hlen
        exact absurd hlen (Nat.ne_of_lt hlt)
      | none =>
        rw [hf, hpoint] at hlen
        exact absurd hlen (Nat.ne_of_lt hlt)
  · exact fun h => by rw [scan_append_of_not_extends h]

end Carmel.Math
