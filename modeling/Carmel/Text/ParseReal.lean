/-
# Reading a real number

`scan_real_no_sign` reads digits, a fraction and an exponent, and returns wherever the input
may end. A value is an exact rational, or an infinity. `scan_real` does not pass its decimal
character on. The exponent is an `unsigned`, and one above the largest of the type gives
zero or infinity.
-/

import Carmel.Math.DecimalText
import Carmel.Text.AtoiFast

namespace Carmel.Text

open Carmel.Math

section Code

/-- `StrCursor` has an end, `CstrCursor` ends where the terminating character stands. -/
inductive CursorKind
  | StrCursor
  | CstrCursor
deriving DecidableEq

/-- `*c.p`, with what is left of the text. There is nothing to read at the end of a range. -/
def deref : CursorKind → List Char → Option Char
  | _, ch :: _ => some ch
  | .StrCursor, [] => none
  | .CstrCursor, [] => some '\x00'

/-- The values of a `Float`. -/
inductive Exact
  | finite (value : ℚ)
  | infinity (negative : Bool)
deriving DecidableEq

/-- `-value`. -/
def Exact.neg : Exact → Exact
  | .finite value => .finite (-value)
  | .infinity negative => .infinity !negative

/-- `std::numeric_limits<Float>::max_exponent`, an `int`. -/
structure MaxExponent where
  value : ℕ
  isInt : value < 2 ^ 31

/-- `digit_char`. -/
def digitChar (ch : Char) : Bool := '0' ≤ ch && ch ≤ '9'

/-- `*c.p - '0'`. -/
def digitValue (ch : Char) : ℕ := ch.toNat - '0'.toNat

/-- A part of the scanner returns at the end of the input, or goes on. -/
inductive Scan
  | returned (value : ℚ)
  | goesOn (value : ℚ) (c : List Char)

/-- The loop before the decimal character. -/
def intLoop : ℚ → List Char → Scan
  | value, [] => .returned value
  | value, ch :: c =>
    if digitChar ch then intLoop (value * 10 + digitValue ch) c else .goesOn value (ch :: c)

/-- The loop behind the decimal character. -/
def fracLoop : ℚ → ℚ → List Char → Scan
  | value, _, [] => .returned value
  | value, valueOfDigit, ch :: c =>
    if digitChar ch then fracLoop (value + digitValue ch * valueOfDigit) (valueOfDigit * (1 / 10)) c
    else .goesOn value (ch :: c)

/-- The loop over the digits of the exponent. -/
def exponentLoop : ℕ → List Char → ℕ × List Char
  | exponent, [] => (exponent, [])
  | exponent, ch :: c =>
    if digitChar ch then exponentLoop ((exponent * 10 + digitValue ch) % 2 ^ 32) c
    else (exponent, ch :: c)

/-- `while (exponent >= 8)`: the value, and what is left of the exponent. -/
def scaleByEight (factor : ℚ) : ℚ → ℕ → ℚ × ℕ
  | value, exponent + 8 => scaleByEight factor (value * factor) exponent
  | value, exponent => (value, exponent)

/-- `while (exponent > 0)`. -/
def scaleByOne (factor : ℚ) : ℚ → ℕ → ℚ
  | value, 0 => value
  | value, exponent + 1 => scaleByOne factor (value * factor) exponent

/-- The loops that multiply by a power of ten. -/
def scaled (negativeExponent : Bool) (value : ℚ) (exponent : ℕ) : ℚ :=
  if negativeExponent then
    let (value, exponent) := scaleByEight (1 / 10 ^ 8) value exponent
    scaleByOne (1 / 10) value exponent
  else
    let (value, exponent) := scaleByEight (10 ^ 8) value exponent
    scaleByOne 10 value exponent

/-- The digits of the exponent, and what is made of them. -/
def scanExponentDigits (limit : MaxExponent) (negativeExponent : Bool) (value : ℚ)
    (c : List Char) : Exact × List Char :=
  let (exponent, c) := exponentLoop 0 c
  if limit.value < exponent then
    (if negativeExponent then .finite 0 else .infinity false, c)
  else (.finite (scaled negativeExponent value exponent), c)

/-- The optional sign of the exponent. -/
def scanExponentSign (limit : MaxExponent) (value : ℚ) : List Char → Exact × List Char
  | [] => (.finite value, [])
  | sign :: c =>
    if sign = '-' then
      if c = [] then (.finite value, []) else scanExponentDigits limit true value c
    else if sign = '+' then
      if c = [] then (.finite value, []) else scanExponentDigits limit false value c
    else scanExponentDigits limit false value (sign :: c)

/-- The optional exponent. -/
def scanExponent (limit : MaxExponent) (value : ℚ) : List Char → Exact × List Char
  | [] => (.finite value, [])
  | ch :: c =>
    if ch = 'e' ∨ ch = 'E' then scanExponentSign limit value c else (.finite value, ch :: c)

/-- The optional decimal character and what is behind it. -/
def scanFraction (limit : MaxExponent) (decimal : Char) (value : ℚ) : List Char → Exact × List Char
  | [] => (.finite value, [])
  | ch :: c =>
    if ch = decimal then
      if c = [] then (.finite value, [])
      else
        match fracLoop value (1 / 10) c with
        | .returned value => (.finite value, [])
        | .goesOn value c => scanExponent limit value c
    else scanExponent limit value (ch :: c)

/-- `scan_real_no_sign`. The first character is read without a test. -/
def scanRealNoSign (kind : CursorKind) (limit : MaxExponent) (decimal : Char) (c : List Char) :
    Option (Exact × List Char) := do
  let ch ← deref kind c
  if c = [] then if ch = decimal then none else some (.finite 0, [])
  else
    match intLoop 0 c with
    | .returned value => some (.finite value, [])
    | .goesOn value c => some (scanFraction limit decimal value c)

/-- `cursor_at_inf`: what is behind the word if it is there. -/
def cursorAtInf (kind : CursorKind) : List Char → Option (Option (List Char))
  | [] => some none
  | ch :: c => do
    if ch = 'i' ∨ ch = 'I' then
      let ch ← deref kind c
      if ch = 'n' ∨ ch = 'N' then
        let ch ← deref kind c.tail
        if ch = 'f' ∨ ch = 'F' then some (some c.tail.tail) else some none
      else some none
    else some none

/-- `space_or_tab`. -/
def spaceOrTab (ch : Char) : Bool := ch = ' ' || ch = '\t'

/-- `scan_real`, behind the sign. The decimal character of `scan_real_no_sign` is its default. -/
def scanUnsigned (kind : CursorKind) (limit : MaxExponent) (parseInf negative : Bool)
    (c : List Char) : Option (Exact × List Char) := do
  let inf ← if parseInf then cursorAtInf kind c else some none
  match inf with
  | some c => some (.infinity negative, c)
  | none => do
    let (value, c) ← scanRealNoSign kind limit '.' c
    some (if negative then value.neg else value, c)

/-- `scan_real`. Its decimal character is not looked at. -/
def scanReal (kind : CursorKind) (limit : MaxExponent) (skipLeadingSpace : Bool) (_decimal : Char)
    (parseInf : Bool) (c : List Char) : Option (Exact × List Char) :=
  let c := if skipLeadingSpace then c.dropWhile spaceOrTab else c
  match c with
  | [] => some (.finite 0, [])
  | ch :: rest =>
    if ch = '-' then
      if rest = [] then some (.finite 0, []) else scanUnsigned kind limit parseInf true rest
    else if ch = '+' then
      if rest = [] then some (.finite 0, []) else scanUnsigned kind limit parseInf false rest
    else scanUnsigned kind limit parseInf false (ch :: rest)

/-- What a real number is read from; a text with a terminating character has it only at its end. -/
structure RealInput where
  kind : CursorKind
  chars : List Char
  terminated : kind = .CstrCursor → '\x00' ∉ chars

/-- `string_to_exception`, with what its text names. -/
structure UnusedCharacters where
  text : List Char
  unused : List Char
deriving DecidableEq

/-- `parse_real`. -/
def parseReal (limit : MaxExponent) (str : RealInput) (requireComplete : Bool) (decimal : Char)
    (skipLeadingSpace : Bool) : Option (Except UnusedCharacters Exact) :=
  (scanReal str.kind limit skipLeadingSpace decimal true str.chars).map fun r =>
    if requireComplete && !r.2.isEmpty then .error ⟨str.chars, r.2⟩ else .ok r.1

end Code

/-! ## The parts of the scanner -/

theorem digitChar_eq (ch : Char) : digitChar ch = ch.isDigit := by
  rw [Bool.eq_iff_iff, isDigit_iff, digitChar, Bool.and_eq_true, decide_eq_true_eq,
    decide_eq_true_eq]

/-- What a loop gives that leaves `c`. -/
def Scan.ofRest (value : ℚ) (c : List Char) : Scan := if c = [] then .returned value else .goesOn value c

theorem leading_eq (n : ℕ) (text : List Char) :
    leading n text = 10 ^ (text.takeWhile Char.isDigit).length * n + leading 0 text :=
  Nat.ofDigitChars_eq_ofDigitChars_zero

theorem intLoop_eq (text : List Char) : ∀ n : ℕ,
    intLoop n text = Scan.ofRest (leading n text) (behindDigits text) := by
  induction text with
  | nil => exact fun n => by rw [intLoop]; rfl
  | cons ch text ih =>
    intro n
    rw [intLoop, digitChar_eq]
    by_cases hdigit : ch.isDigit = true
    · have hnext : (n : ℚ) * 10 + digitValue ch = ((n * 10 + digitValue ch : ℕ) : ℚ) := by
        push_cast
        rfl
      rw [if_pos hdigit, hnext, ih, leading_cons hdigit, behindDigits_cons hdigit,
        Nat.mul_comm n 10]
      rfl
    · rw [if_neg hdigit, leading_of_not_isDigit hdigit, behindDigits_of_not_isDigit hdigit]
      rfl

/-- The digits behind the decimal character count from the first place. -/
theorem fracLoop_eq (text : List Char) : ∀ value place : ℚ, fracLoop value (place * (1 / 10)) text =
    Scan.ofRest (value + leading 0 text / 10 ^ (text.takeWhile Char.isDigit).length * place)
      (behindDigits text) := by
  induction text with
  | nil =>
    intro value place
    rw [fracLoop]
    simp [Scan.ofRest]
  | cons ch text ih =>
    intro value place
    rw [fracLoop, digitChar_eq]
    by_cases hdigit : ch.isDigit = true
    · rw [if_pos hdigit, ih, leading_cons hdigit, behindDigits_cons hdigit,
        List.takeWhile_cons_of_pos hdigit, List.length_cons,
        leading_eq (10 * 0 + (ch.toNat - '0'.toNat)) text]
      congr 1
      have hpow : (10 : ℚ) ^ (text.takeWhile Char.isDigit).length ≠ 0 := pow_ne_zero _ (by norm_num)
      rw [digitValue]
      push_cast
      rw [pow_succ]
      field_simp
      ring
    · rw [if_neg hdigit, leading_of_not_isDigit hdigit, behindDigits_of_not_isDigit hdigit]
      simp [Scan.ofRest]

theorem exponentLoop_eq (text : List Char) : ∀ n : ℕ,
    exponentLoop (n % 2 ^ 32) text = (leading n text % 2 ^ 32, behindDigits text) := by
  induction text with
  | nil => exact fun n => by rw [exponentLoop]; rfl
  | cons ch text ih =>
    intro n
    rw [exponentLoop, digitChar_eq]
    by_cases hdigit : ch.isDigit = true
    · have hnext : (n % 2 ^ 32 * 10 + digitValue ch) % 2 ^ 32 =
          (10 * n + (ch.toNat - '0'.toNat)) % 2 ^ 32 := by
        rw [digitValue]
        omega
      rw [if_pos hdigit, hnext, ih, leading_cons hdigit, behindDigits_cons hdigit]
    · rw [if_neg hdigit, leading_of_not_isDigit hdigit, behindDigits_of_not_isDigit hdigit]

theorem scaleByEight_eq (factor : ℚ) (n : ℕ) : ∀ value : ℚ,
    scaleByEight factor value n = (value * factor ^ (n / 8), n % 8) := by
  induction n using Nat.strongRecOn with
  | ind n ih =>
    intro value
    by_cases hlt : n < 8
    · rw [scaleByEight, Nat.div_eq_of_lt hlt, Nat.mod_eq_of_lt hlt, pow_zero, mul_one]
      intro m hm
      omega
    · obtain ⟨m, rfl⟩ : ∃ m, n = m + 8 := ⟨n - 8, by omega⟩
      rw [scaleByEight, ih m (by omega), Nat.add_div_right m (by decide), Nat.add_mod_right,
        pow_succ, mul_assoc, mul_comm factor]

theorem scaleByOne_eq (factor : ℚ) (n : ℕ) : ∀ value : ℚ,
    scaleByOne factor value n = value * factor ^ n := by
  induction n with
  | zero => exact fun value => by rw [scaleByOne, pow_zero, mul_one]
  | succ n ih => exact fun value => by rw [scaleByOne, ih, pow_succ, mul_assoc, mul_comm factor]

/-- The loops multiply by the power of ten. -/
theorem scaled_eq (negativeExponent : Bool) (value : ℚ) (n : ℕ) :
    scaled negativeExponent value n =
      value * 10 ^ (if negativeExponent then -(n : ℤ) else (n : ℤ)) := by
  have hsplit : ∀ f : ℚ, (f ^ 8) ^ (n / 8) * f ^ (n % 8) = f ^ n := by
    intro f
    rw [← pow_mul, ← pow_add, Nat.div_add_mod]
  have hinv : (1 / 10 ^ 8 : ℚ) = (1 / 10) ^ 8 := by norm_num
  cases negativeExponent with
  | true =>
    rw [scaled, if_pos rfl, scaleByEight_eq, hinv]
    show scaleByOne (1 / 10) _ _ = _
    rw [scaleByOne_eq, mul_assoc, hsplit, if_pos rfl, zpow_neg, zpow_natCast, one_div, inv_pow]
  | false =>
    rw [scaled, if_neg Bool.false_ne_true, scaleByEight_eq]
    show scaleByOne 10 _ _ = _
    rw [scaleByOne_eq, mul_assoc, hsplit, if_neg Bool.false_ne_true, zpow_natCast]

/-! ## What is made of the parts -/

/-- The exponent as the code holds it. -/
def exponentHeld (e : Exponent) : ℕ := Nat.ofDigitChars 10 e.digits 0 % 2 ^ 32

/-- What the code makes of a value and an exponent. -/
def withExponent (limit : MaxExponent) (value : ℚ) : Option Exponent → Exact
  | none => .finite value
  | some e =>
    let negative := decide (e.sign = some true)
    if limit.value < exponentHeld e then if negative then .finite 0 else .infinity false
    else .finite (scaled negative value (exponentHeld e))

/-- The value of the digits before and behind the point. -/
def digitsValue (s : Scanned) : ℚ :=
  Nat.ofDigitChars 10 s.mantissa 0 / 10 ^ (s.frac.getD []).length

/-- What the code makes of what it scans. -/
def scannedValue (limit : MaxExponent) (s : Scanned) : Exact :=
  let value := withExponent limit (digitsValue s) s.exp
  if s.sign = some true then value.neg else value

variable {limit : MaxExponent} {value : ℚ}

theorem scanExponentDigits_eq (mark : Char) (sign : Option Bool) (c : List Char) :
    scanExponentDigits limit (decide (sign = some true)) value c =
      (withExponent limit value (some ⟨mark, sign, c.takeWhile Char.isDigit⟩),
        c.dropWhile Char.isDigit) := by
  have hloop : exponentLoop 0 c = (leading 0 c % 2 ^ 32, behindDigits c) := exponentLoop_eq c 0
  rw [scanExponentDigits, hloop, withExponent]
  show (if limit.value < leading 0 c % 2 ^ 32 then _ else _) = _
  split
  next h => exact Prod.ext (if_pos h).symm rfl
  next h => exact Prod.ext (if_neg h).symm rfl

/-- An exponent without digits changes nothing. -/
theorem withExponent_nil (limit : MaxExponent) (value : ℚ) (mark : Char) (sign : Option Bool) :
    withExponent limit value (some ⟨mark, sign, []⟩) = .finite value := by
  have hzero : exponentHeld ⟨mark, sign, []⟩ = 0 := rfl
  rw [withExponent]
  simp only [hzero, Nat.not_lt_zero, if_false, scaled_eq]
  simp

theorem scanExponentSign_eq (mark : Char) (c : List Char) : scanExponentSign limit value c =
    (withExponent limit value
        (some ⟨mark, (scanSign c).1, (scanSign c).2.takeWhile Char.isDigit⟩),
      (scanSign c).2.dropWhile Char.isDigit) := by
  cases c with
  | nil => exact Prod.ext (withExponent_nil limit value mark none).symm rfl
  | cons sign c =>
    rw [scanExponentSign]
    by_cases hminus : sign = '-'
    · rw [if_pos hminus, hminus]
      split
      next h =>
        rw [h]
        exact Prod.ext (withExponent_nil limit value mark (some true)).symm rfl
      next h => exact scanExponentDigits_eq mark (some true) c
    · rw [if_neg hminus]
      by_cases hplus : sign = '+'
      · rw [if_pos hplus, hplus]
        split
        next h =>
          rw [h]
          exact Prod.ext (withExponent_nil limit value mark (some false)).symm rfl
        next h => exact scanExponentDigits_eq mark (some false) c
      · have hscan : scanSign (sign :: c) = (none, sign :: c) := by
          rw [scanSign]
          · exact fun _ h => hminus (List.cons.inj h).1
          · exact fun _ h => hplus (List.cons.inj h).1
        rw [if_neg hplus, hscan]
        exact scanExponentDigits_eq mark none (sign :: c)

theorem scanExponent_eq (c : List Char) : scanExponent limit value c =
    (withExponent limit value (scanExp c).1, (scanExp c).2) := by
  cases c with
  | nil => rfl
  | cons ch c =>
    rw [scanExponent, scanExp]
    split
    · exact scanExponentSign_eq ch c
    · rfl

/-- The point and what is behind it. -/
theorem scanFraction_eq (c : List Char) : scanFraction limit '.' value c = (withExponent limit
        (value + Nat.ofDigitChars 10 ((scanFrac c).1.getD []) 0 / 10 ^ ((scanFrac c).1.getD []).length)
        (scanExp (scanFrac c).2).1, (scanExp (scanFrac c).2).2) := by
  cases c with
  | nil => simp [scanFraction, scanFrac, scanExp, withExponent]
  | cons ch c =>
    rw [scanFraction]
    by_cases hpoint : ch = '.'
    · rw [if_pos hpoint, hpoint, scanFrac]
      split
      next h =>
        rw [h]
        simp [scanExp, withExponent]
      next h =>
        have hloop := fracLoop_eq c value 1
        rw [one_mul, mul_one] at hloop
        rw [hloop, Scan.ofRest]
        split
        next heq =>
          split at heq
          next hnil =>
            obtain rfl := Scan.returned.inj heq
            rw [behindDigits] at hnil
            show _ = (withExponent limit _ (scanExp (c.dropWhile Char.isDigit)).1, _)
            rw [hnil]
            rfl
          next => cases heq
        next heq =>
          split at heq
          next => cases heq
          next =>
            obtain ⟨rfl, rfl⟩ := Scan.goesOn.inj heq
            exact scanExponent_eq _
    · have hscan : scanFrac (ch :: c) = (none, ch :: c) := by
        rw [scanFrac]
        exact fun _ h => hpoint (List.cons.inj h).1
      rw [if_neg hpoint, hscan, scanExponent_eq]
      simp

section Whole

variable {kind : CursorKind} {ch : Char} {text : List Char}

/-- What the scanner of the grammar gives behind the sign. -/
theorem scan_digit (sign : Option Bool) (hdigit : ch.isDigit = true) (text : List Char) :
    scan (signText sign ++ ch :: text) =
      (⟨sign, (ch :: text).takeWhile Char.isDigit, (scanFrac (behindDigits (ch :: text))).1,
        (scanExp (scanFrac (behindDigits (ch :: text))).2).1⟩,
        (scanExp (scanFrac (behindDigits (ch :: text))).2).2) := by
  have hsign : scanSign (signText sign ++ ch :: text) = (sign, ch :: text) := by
    apply scanSign_append
    intro c hc
    obtain rfl := Option.some.inj hc
    exact ⟨ne_of_isDigit hdigit (by decide), ne_of_isDigit hdigit (by decide)⟩
  rw [scan, hsign]
  show (if (ch :: text).takeWhile Char.isDigit ++ _ = [] then _ else _) = _
  rw [if_neg (by simp [List.takeWhile_cons_of_pos hdigit])]
  rfl

theorem digitsValue_eq (sign : Option Bool) (int : List Char) (frac : Option (List Char))
    (exp : Option Exponent) : digitsValue ⟨sign, int, frac, exp⟩ =
      Nat.ofDigitChars 10 int 0 + Nat.ofDigitChars 10 (frac.getD []) 0 / 10 ^ (frac.getD []).length := by
  have hpow : (10 : ℚ) ^ (frac.getD []).length ≠ 0 := pow_ne_zero _ (by norm_num)
  rw [digitsValue, Scanned.mantissa, Nat.ofDigitChars_append, Nat.ofDigitChars_eq_ofDigitChars_zero]
  push_cast
  field_simp

theorem scanRealNoSign_eq (sign : Option Bool) (hdigit : ch.isDigit = true) :
    scanRealNoSign kind limit '.' (ch :: text) =
      some (withExponent limit (digitsValue (scan (signText sign ++ ch :: text)).1)
        (scan (signText sign ++ ch :: text)).1.exp, (scan (signText sign ++ ch :: text)).2) := by
  have hderef : deref kind (ch :: text) = some ch := by cases kind <;> rfl
  have hloop := intLoop_eq (ch :: text) 0
  rw [Nat.cast_zero] at hloop
  rw [scanRealNoSign, hderef, Option.bind_eq_bind, Option.bind_some, if_neg (List.cons_ne_nil ch text),
    hloop, scan_digit sign hdigit, digitsValue_eq, Scan.ofRest]
  split
  next heq =>
    split at heq
    next hnil =>
      obtain rfl := Scan.returned.inj heq
      rw [hnil]
      simp [scanFrac, scanExp, withExponent, leading]
    next => cases heq
  next heq =>
    split at heq
    next => cases heq
    next =>
      obtain ⟨rfl, rfl⟩ := Scan.goesOn.inj heq
      rw [scanFraction_eq]
      rfl

theorem cursorAtInf_digit (hdigit : ch.isDigit = true) :
    cursorAtInf kind (ch :: text) = some none := by
  have hne : ¬(ch = 'i' ∨ ch = 'I') := by
    rintro (h | h)
    · exact ne_of_isDigit hdigit (by decide) h
    · exact ne_of_isDigit hdigit (by decide) h
  rw [cursorAtInf, if_neg hne]

/-- The code takes what the scanner of the grammar takes. -/
theorem scanReal_eq (sign : Option Bool) (hdigit : ch.isDigit = true) (skip parseInf : Bool)
    (decimal : Char) :
    scanReal kind limit skip decimal parseInf (signText sign ++ ch :: text) =
      some (scannedValue limit (scan (signText sign ++ ch :: text)).1,
        (scan (signText sign ++ ch :: text)).2) := by
  have hne : ∀ c : Char, c.isDigit = false → ch ≠ c := fun c hc => ne_of_isDigit hdigit hc
  have hunsigned : ∀ negative : Bool, scanUnsigned kind limit parseInf negative (ch :: text) =
      some (if negative then (withExponent limit (digitsValue (scan (signText sign ++ ch :: text)).1)
          (scan (signText sign ++ ch :: text)).1.exp).neg
        else withExponent limit (digitsValue (scan (signText sign ++ ch :: text)).1)
          (scan (signText sign ++ ch :: text)).1.exp, (scan (signText sign ++ ch :: text)).2) := by
    intro negative
    rw [scanUnsigned]
    cases parseInf with
    | true =>
      rw [if_pos rfl, cursorAtInf_digit hdigit, Option.bind_eq_bind, Option.bind_some]
      show (scanRealNoSign kind limit '.' (ch :: text)).bind _ = _
      rw [scanRealNoSign_eq sign hdigit]
      rfl
    | false =>
      show (scanRealNoSign kind limit '.' (ch :: text)).bind _ = _
      rw [scanRealNoSign_eq sign hdigit]
      rfl
  have hspace : ∀ c : Char, c ∈ ['-', '+', ch] → ∀ l, (c :: l).dropWhile spaceOrTab = c :: l := by
    intro c hc l
    apply List.dropWhile_cons_of_neg
    rcases List.mem_cons.mp hc with rfl | hc
    · decide
    rcases List.mem_cons.mp hc with rfl | hc
    · decide
    · obtain rfl := List.mem_singleton.mp hc
      simp [spaceOrTab, hne ' ' (by decide), hne '\t' (by decide)]
  have hskip : ∀ c : Char, c ∈ ['-', '+', ch] → ∀ l,
      (if skip then (c :: l).dropWhile spaceOrTab else c :: l) = c :: l := by
    intro c hc l
    cases skip with
    | true => exact hspace c hc l
    | false => rfl
  have hsigned : (scan (signText sign ++ ch :: text)).1.sign = sign := by
    rw [scan_digit sign hdigit]
  rw [scannedValue, hsigned]
  cases sign with
  | none =>
    rw [scanReal]
    simp only [signText, List.nil_append, hskip ch (by simp), if_neg (hne '-' (by decide)),
      if_neg (hne '+' (by decide))]
    exact hunsigned false
  | some negative =>
    cases negative with
    | true =>
      rw [scanReal]
      simp only [signText, List.cons_append, List.nil_append, hskip '-' (by simp)]
      exact hunsigned true
    | false =>
      rw [scanReal]
      simp only [signText, List.cons_append, List.nil_append, hskip '+' (by simp)]
      exact hunsigned false

end Whole

/-! ## The value -/

/-- The number that the digits of an exponent make. -/
def exponentNumber (e : Exponent) : ℕ := Nat.ofDigitChars 10 e.digits 0

/-- The exponent can be handled, or the mantissa is zero and the number that is held, after it went
round, does not give infinity. -/
def ExponentHandled (limit : MaxExponent) (s : Scanned) : Prop :=
  ∀ e ∈ s.exp, exponentNumber e ≤ limit.value ∨ (Nat.ofDigitChars 10 s.mantissa 0 = 0 ∧
    (e.sign = some true ∨ exponentNumber e % 2 ^ 32 ≤ limit.value))

theorem Exact.neg_eq_finite_iff {x : Exact} {q : ℚ} : x.neg = .finite (-q) ↔ x = .finite q := by
  cases x with
  | finite value => simp [Exact.neg]
  | infinity negative => simp [Exact.neg]

theorem digitsValue_eq_zero_iff (s : Scanned) :
    digitsValue s = 0 ↔ Nat.ofDigitChars 10 s.mantissa 0 = 0 := by
  have hpow : (10 : ℚ) ^ (s.frac.getD []).length ≠ 0 := pow_ne_zero _ (by norm_num)
  rw [digitsValue, div_eq_zero_iff, or_iff_left hpow, Nat.cast_eq_zero]

/-- The power of ten that the exponent means. -/
def exponentOf (exp : Option Exponent) : ℤ :=
  match exp with
  | none => 0
  | some e => Scanned.signed e.sign (exponentNumber e)

theorem value_eq (s : Scanned) : s.value =
    if s.sign = some true then -(digitsValue s * 10 ^ exponentOf s.exp)
    else digitsValue s * 10 ^ exponentOf s.exp := by
  have hscale : (10 : ℚ) ^ s.scale = 10 ^ exponentOf s.exp / 10 ^ (s.frac.getD []).length := by
    have hten : (10 : ℚ) ≠ 0 := by norm_num
    rw [Scanned.scale, zpow_sub₀ hten, zpow_natCast]
    cases hexp : s.exp <;> rfl
  rw [Scanned.value, hscale, digitsValue, Scanned.signed]
  split
  · push_cast
    ring
  · push_cast
    ring

theorem withExponent_eq_iff (value : ℚ) (e : Exponent) :
    withExponent limit value (some e) = .finite (value * 10 ^ exponentOf (some e)) ↔
      exponentNumber e ≤ limit.value ∨
        (value = 0 ∧ (e.sign = some true ∨ exponentNumber e % 2 ^ 32 ≤ limit.value)) := by
  have hlimit := limit.isInt
  have hten : (10 : ℚ) ^ exponentOf (some e) ≠ 0 := zpow_ne_zero _ (by norm_num)
  have hle := Nat.mod_le (exponentNumber e) (2 ^ 32)
  have hheld : exponentHeld e = exponentNumber e % 2 ^ 32 := rfl
  rw [withExponent]
  simp only [hheld]
  by_cases hbig : limit.value < exponentNumber e % 2 ^ 32
  · have hlarge : ¬ exponentNumber e ≤ limit.value := by omega
    rw [if_pos hbig, or_iff_right hlarge, or_iff_left (Nat.not_le.mpr hbig)]
    by_cases hneg : e.sign = some true
    · simp [hneg, hten]
    · simp [hneg]
  · have hsmall : exponentNumber e % 2 ^ 32 ≤ limit.value := Nat.not_lt.mp hbig
    have hround : exponentNumber e % 2 ^ 32 = exponentNumber e ↔ exponentNumber e ≤ limit.value := by
      omega
    rw [if_neg hbig, and_iff_left (Or.inr hsmall), scaled_eq, ← hround]
    have hpower : (if decide (e.sign = some true) = true then -((exponentNumber e % 2 ^ 32 : ℕ) : ℤ)
        else ((exponentNumber e % 2 ^ 32 : ℕ) : ℤ)) = exponentOf (some e) ↔
        exponentNumber e % 2 ^ 32 = exponentNumber e := by
      by_cases hneg : e.sign = some true
      · simp only [hneg, exponentOf, Scanned.signed, decide_true, if_true]
        omega
      · simp only [hneg, exponentOf, Scanned.signed, decide_false, Bool.false_eq_true, if_false]
        omega
    rw [Exact.finite.injEq, mul_eq_mul_left_iff, ← hpower, or_comm (b := value = 0),
      or_comm (b := value = 0)]
    have hinj := zpow_right_injective₀ (a := (10 : ℚ)) (by norm_num) (by norm_num)
    rw [hinj.eq_iff]

/-- The value is the one denoted if and only if the exponent is handled. -/
theorem scannedValue_eq_iff (s : Scanned) :
    scannedValue limit s = .finite s.value ↔ ExponentHandled limit s := by
  have hexact : scannedValue limit s = .finite s.value ↔
      withExponent limit (digitsValue s) s.exp = .finite (digitsValue s * 10 ^ exponentOf s.exp) := by
    rw [scannedValue, value_eq]
    by_cases hneg : s.sign = some true
    · simp only [if_pos hneg]
      exact Exact.neg_eq_finite_iff
    · simp only [if_neg hneg]
  rw [hexact, ExponentHandled]
  cases hexp : s.exp with
  | none => simp [withExponent, exponentOf]
  | some e =>
    rw [withExponent_eq_iff, digitsValue_eq_zero_iff]
    simp

/-! ## Texts of the form that is read -/

/-- `[sign] digits [decimal digits] [e|E [sign] digits]`, with a decimal character that is none of
the others. -/
structure RealText (decimal : Char) extends Decimal where
  int_ne_nil : int ≠ []
  frac_ne_nil : ∀ ds ∈ frac, ds ≠ []
  separates : decimal.isDigit = false ∧ decimal ≠ 'e' ∧ decimal ≠ 'E'

namespace RealText

variable {decimal : Char}

/-- The decimal character and the digits behind it. -/
def fracChars (T : RealText decimal) : List Char :=
  match T.frac with
  | none => []
  | some ds => decimal :: ds

/-- The characters of the text. -/
def chars (T : RealText decimal) : List Char :=
  signText T.sign ++ (T.int ++ (T.fracChars ++ expText T.exp))

theorem exists_chars (T : RealText decimal) (rest : List Char) : ∃ ch text, ch.isDigit = true ∧
    T.chars ++ rest = signText T.sign ++ ch :: text := by
  rw [chars]
  cases hint : T.int with
  | nil => exact absurd hint T.int_ne_nil
  | cons ch ds =>
    refine ⟨ch, ds ++ (T.fracChars ++ expText T.exp) ++ rest, ?_, ?_⟩
    · exact T.isDigit_int ch (by rw [hint]; exact List.mem_cons_self)
    · simp

/-- With the point, or without a fraction, it is a decimal numeral. -/
theorem chars_eq_text (T : RealText decimal) (h : decimal = '.' ∨ T.frac = none) :
    T.chars = T.toDecimal.text := by
  rw [chars, Scanned.text, fracChars, fracText.eq_def]
  cases hfrac : T.frac with
  | none => rfl
  | some ds =>
    rcases h with rfl | h
    · rfl
    · rw [h] at hfrac
      cases hfrac

/-- Behind the digits another decimal character than the point is left. -/
theorem scan_chars_of_ne (T : RealText decimal) (hpoint : decimal ≠ '.') {ds : List Char}
    (hfrac : T.frac = some ds) (rest : List Char) :
    rest.length < (scan (T.chars ++ rest)).2.length := by
  obtain ⟨hdigit, he, hE⟩ := T.separates
  obtain ⟨ch, text, hch, htext⟩ := T.exists_chars rest
  have hrest : ch :: text = T.int ++ decimal :: (ds ++ (expText T.exp ++ rest)) := by
    have heq := htext.symm
    rw [chars, fracChars, hfrac, List.append_assoc] at heq
    have heq := List.append_cancel_left heq
    simpa using heq
  have hdrop : behindDigits (ch :: text) = decimal :: (ds ++ (expText T.exp ++ rest)) := by
    rw [hrest, behindDigits, List.dropWhile_append_of_pos T.isDigit_int,
      List.dropWhile_cons_of_neg (by simp [hdigit])]
  have hscanFrac : ∀ l, scanFrac (decimal :: l) = (none, decimal :: l) := by
    intro l
    rw [scanFrac]
    exact fun _ h => hpoint (List.cons.inj h).1
  have hscanExp : ∀ l, scanExp (decimal :: l) = (none, decimal :: l) := by
    intro l
    rw [scanExp, if_neg (not_or.mpr ⟨he, hE⟩)]
  rw [htext, scan_digit T.sign hch, hdrop, hscanFrac, hscanExp]
  simp only [List.length_cons, List.length_append]
  omega

end RealText

/-- **When `parse_real` reads a text of the form as it should**: it takes the text and nothing of
what follows, returns the value, and throws exactly when something is left over. -/
theorem parseReal_iff (limit : MaxExponent) {decimal : Char} (T : RealText decimal)
    (rest : List Char) (str : RealInput) (hstr : str.chars = T.chars ++ rest) (skip : Bool) :
    (scanReal str.kind limit skip decimal true str.chars = some (.finite T.value, rest) ∧
      ∀ requireComplete, parseReal limit str requireComplete decimal skip =
        some (if requireComplete && !rest.isEmpty then .error ⟨str.chars, rest⟩
          else .ok (.finite T.value))) ↔
      (decimal = '.' ∨ T.frac = none) ∧ ExponentHandled limit T.toScanned ∧
        ∀ ch ∈ rest.head?, ¬T.Extends ch := by
  obtain ⟨ch, text, hdigit, htext⟩ := T.exists_chars rest
  have hscan : scanReal str.kind limit skip decimal true str.chars =
      some (scannedValue limit (scan (T.chars ++ rest)).1, (scan (T.chars ++ rest)).2) := by
    rw [hstr, htext, scanReal_eq T.sign hdigit]
  constructor
  · rintro ⟨hright, -⟩
    rw [hscan, Option.some_inj, Prod.mk.injEq] at hright
    obtain ⟨hvalue, hrest⟩ := hright
    have hpoint : decimal = '.' ∨ T.frac = none := by
      by_contra hnot
      obtain ⟨hpoint, hfrac⟩ := not_or.mp hnot
      obtain ⟨ds, hfrac⟩ := Option.ne_none_iff_exists'.mp hfrac
      have hlt := T.scan_chars_of_ne hpoint hfrac rest
      rw [hrest] at hlt
      exact absurd hlt (Nat.lt_irrefl _)
    rw [T.chars_eq_text hpoint] at hvalue hrest
    have hends := (scan_append_rest_eq_iff T.int_ne_nil).mp hrest
    rw [scan_append_of_not_extends hends] at hvalue
    exact ⟨hpoint, (scannedValue_eq_iff _).mp hvalue, hends⟩
  · rintro ⟨hpoint, hexp, hends⟩
    have hread : scanReal str.kind limit skip decimal true str.chars =
        some (.finite T.value, rest) := by
      rw [hscan, T.chars_eq_text hpoint, scan_append_of_not_extends hends]
      exact congrArg (fun value => some (value, rest)) ((scannedValue_eq_iff _).mpr hexp)
    refine ⟨hread, fun requireComplete => ?_⟩
    rw [parseReal, hread, Option.map_some]

/-- The largest exponent of a `double`. -/
def doubleExponent : MaxExponent := ⟨1024, by decide⟩

theorem isDigit_zero : ∀ c ∈ ['0'], c.isDigit = true := by simp

theorem isDigit_five : ∀ ds ∈ some ['5'], ∀ c ∈ ds, c.isDigit = true := by simp

theorem isDigit_noFrac : ∀ ds ∈ (none : Option (List Char)), ∀ c ∈ ds, c.isDigit = true := by simp

theorem isDigit_noExp : ∀ e ∈ (none : Option Exponent), ∀ c ∈ e.digits, c.isDigit = true := by simp

theorem noExp_ne_nil : ∀ e ∈ (none : Option Exponent), e.digits ≠ [] := by simp

theorem noExp_mark : ∀ e ∈ (none : Option Exponent), e.mark = 'e' ∨ e.mark = 'E' := by simp

/-- One and a half thousand, with a point. -/
def fifteenHundred : RealText '.' where
  sign := none
  int := ['1']
  frac := some ['5']
  exp := some ⟨'e', none, ['3']⟩
  isDigit_int := by simp
  isDigit_frac := isDigit_five
  mantissa_ne_nil := by decide
  isDigit_exp := by simp
  exp_ne_nil := by decide
  mark := by decide
  int_ne_nil := by decide
  frac_ne_nil := by decide
  separates := by decide

theorem parseReal_fifteenHundred :
    (scanReal .CstrCursor doubleExponent false '.' true ['1', '.', '5', 'e', '3', ';'] =
        some (.finite fifteenHundred.value, [';']) ∧
      ∀ requireComplete, parseReal doubleExponent
          ⟨.CstrCursor, ['1', '.', '5', 'e', '3', ';'], by decide⟩ requireComplete '.' false =
        some (if requireComplete && !List.isEmpty [';'] then
            .error ⟨['1', '.', '5', 'e', '3', ';'], [';']⟩
          else .ok (.finite fifteenHundred.value))) :=
  (parseReal_iff doubleExponent fifteenHundred [';']
    ⟨.CstrCursor, ['1', '.', '5', 'e', '3', ';'], by decide⟩ rfl false).mpr
    ⟨Or.inl rfl, by unfold ExponentHandled; decide, by simp [Decimal.Extends, fifteenHundred]⟩

/-- One and a half, with a comma. -/
def oneAndHalf : RealText ',' where
  sign := none
  int := ['1']
  frac := some ['5']
  exp := none
  isDigit_int := by simp
  isDigit_frac := isDigit_five
  mantissa_ne_nil := by decide
  isDigit_exp := isDigit_noExp
  exp_ne_nil := noExp_ne_nil
  mark := noExp_mark
  int_ne_nil := by decide
  frac_ne_nil := by decide
  separates := by decide

/-- Zero with a large exponent. -/
def largeZero : RealText '.' where
  sign := none
  int := ['0']
  frac := none
  exp := some ⟨'e', none, ['2', '0', '0', '0']⟩
  isDigit_int := isDigit_zero
  isDigit_frac := isDigit_noFrac
  mantissa_ne_nil := by decide
  isDigit_exp := by simp
  exp_ne_nil := by decide
  mark := by decide
  int_ne_nil := by decide
  frac_ne_nil := by decide
  separates := by decide

/-- With a comma for the decimal character `1,5` is not read to its end, and `0e2000` gives
infinity. -/
theorem not_parseReal :
    ¬(∀ (decimal : Char) (T : RealText decimal) (str : RealInput), str.chars = T.chars →
      parseReal doubleExponent str true decimal false = some (.ok (.finite T.value))) ∧
    ¬(∀ (T : RealText '.') (str : RealInput), str.chars = T.chars →
      parseReal doubleExponent str true '.' false = some (.ok (.finite T.value))) := by
  constructor
  · intro h
    have hcomma := h ',' oneAndHalf ⟨.StrCursor, ['1', ',', '5'], by decide⟩ rfl
    have hthrows : parseReal doubleExponent ⟨.StrCursor, ['1', ',', '5'], by decide⟩ true ',' false =
        some (.error ⟨['1', ',', '5'], [',', '5']⟩) := rfl
    rw [hthrows] at hcomma
    cases hcomma
  · intro h
    have hzero := h largeZero ⟨.StrCursor, ['0', 'e', '2', '0', '0', '0'], by decide⟩ rfl
    have hinf : parseReal doubleExponent ⟨.StrCursor, ['0', 'e', '2', '0', '0', '0'], by decide⟩ true
        '.' false = some (.ok (.infinity false)) := rfl
    rw [hinf] at hzero
    cases hzero

end Carmel.Text
