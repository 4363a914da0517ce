/-
# Reading decimal numbers in machine arithmetic

`atou_fast`, `atoi_fast` and their forms that advance an iterator take the digits in front
of a text, modulo the width of the type. `atou_fast_advance_nooverflow` tests the value
before each multiplication and the sum after it, and so raises for exactly the numbers that
the type does not hold.
-/

import Carmel.Math.Extraction

namespace Carmel.Text

open Carmel.Math

/-- The number of bits of an integer type: no type is narrower than a `char`. -/
structure Width where
  bits : ℕ
  char_le : 8 ≤ bits

section Code

variable {w : ℕ}

/-- `*p - '0'`. -/
def digitOf (c : Char) : BitVec w := BitVec.ofNat w (c.toNat - '0'.toNat)

/-- The loop that the readers share: from the number so far, the number and what is left. -/
def digitsLoop (x : BitVec w) : List Char → BitVec w × List Char
  | [] => (x, [])
  | c :: p => if '0' ≤ c ∧ c ≤ '9' then digitsLoop (x * 10 + digitOf c) p else (x, c :: p)

/-- `atou_fast(p)`. The text ends where the terminating character of `p` stands. -/
def atouFast (w : ℕ) (p : List Char) : BitVec w := (digitsLoop 0 p).1

/-- `atoi_fast_advance`: the number, and where `i` stands afterwards. -/
def atoiFastAdvance (w : ℕ) : List Char → BitVec w × List Char
  | '-' :: i => (-(digitsLoop (0 : BitVec w) i).1, (digitsLoop (0 : BitVec w) i).2)
  | i => digitsLoop 0 i

/-- `atoi_fast(p)`. -/
def atoiFast (w : ℕ) (p : List Char) : BitVec w := (atoiFastAdvance w p).1

/-- `string_to_exception`, with what its text names: the character, the whole text, and the
number before the multiplication, or before and after the addition. -/
inductive OverflowException (w : ℕ)
  | times (c : Char) (text : List Char) (x : BitVec w)
  | plus (c : Char) (text : List Char) (prev x : BitVec w)
deriving DecidableEq

/-- `boost::integer_traits<U>::const_max / 10`. -/
def maxTenth (w : ℕ) : BitVec w := BitVec.allOnes w / 10

/-- The loop of `atou_fast_advance_nooverflow`. -/
def nooverflowLoop (text : List Char) (x : BitVec w) :
    List Char → Except (OverflowException w) (BitVec w × List Char)
  | [] => .ok (x, [])
  | c :: i =>
    if c < '0' ∨ '9' < c then .ok (x, c :: i)
    else if maxTenth w < x then .error (.times c text x)
    else
      let prev := x * 10
      let x := prev + digitOf c
      if x < prev then .error (.plus c text prev x) else nooverflowLoop text x i

/-- `atou_fast_advance_nooverflow`: the number, and where `i` stands afterwards. -/
def atouFastAdvanceNooverflow (U : Width) (text : List Char) :
    Except (OverflowException U.bits) (BitVec U.bits × List Char) :=
  nooverflowLoop text 0 text

end Code

/-- The number that the digits in front of a text make, behind some that were read before. -/
def leading (init : ℕ) (text : List Char) : ℕ := Nat.ofDigitChars 10 (text.takeWhile Char.isDigit) init

/-- What stands behind the digits. -/
def behindDigits (text : List Char) : List Char := text.dropWhile Char.isDigit

theorem isDigit_iff {c : Char} : c.isDigit = true ↔ '0' ≤ c ∧ c ≤ '9' := by
  simp [Char.isDigit, Char.le_def]

theorem toNat_sub_lt_ten {c : Char} (h : c.isDigit = true) : c.toNat - '0'.toNat < 10 := by
  have hbounds := isDigit_iff.mp h
  simp only [Char.le_def, UInt32.le_iff_toNat_le] at hbounds
  have hzero : ('0' : Char).val.toNat = 48 := rfl
  have hnine : ('9' : Char).val.toNat = 57 := rfl
  have hc : c.toNat = c.val.toNat := rfl
  have hzero' : ('0' : Char).toNat = 48 := rfl
  omega

@[simp] theorem leading_nil (init : ℕ) : leading init [] = init := rfl

@[simp] theorem behindDigits_nil : behindDigits [] = [] := rfl

theorem leading_cons {c : Char} (h : c.isDigit = true) (init : ℕ) (text : List Char) :
    leading init (c :: text) = leading (10 * init + (c.toNat - '0'.toNat)) text := by
  rw [leading, List.takeWhile_cons_of_pos h, Nat.ofDigitChars_cons, leading]

theorem leading_of_not_isDigit {c : Char} (h : ¬ c.isDigit = true) (init : ℕ) (text : List Char) :
    leading init (c :: text) = init := by
  rw [leading, List.takeWhile_cons_of_neg h, Nat.ofDigitChars_nil]

theorem behindDigits_cons {c : Char} (h : c.isDigit = true) (text : List Char) :
    behindDigits (c :: text) = behindDigits text := List.dropWhile_cons_of_pos h

theorem behindDigits_of_not_isDigit {c : Char} (h : ¬ c.isDigit = true) (text : List Char) :
    behindDigits (c :: text) = c :: text := List.dropWhile_cons_of_neg h

theorem le_leading (init : ℕ) (text : List Char) : init ≤ leading init text := by
  induction text generalizing init with
  | nil => exact Nat.le_refl _
  | cons c text ih =>
    by_cases h : c.isDigit = true
    · rw [leading_cons h]
      have hmore := ih (10 * init + (c.toNat - '0'.toNat))
      omega
    · exact Nat.le_of_eq (leading_of_not_isDigit h init text).symm

/-- A numeral is read whole in front of what is no digit. -/
theorem leading_append {digits rest : List Char} (hdigits : ∀ c ∈ digits, c.isDigit = true)
    (hrest : NoDigitAhead rest) (init : ℕ) :
    leading init (digits ++ rest) = Nat.ofDigitChars 10 digits init ∧
      behindDigits (digits ++ rest) = rest := by
  induction digits generalizing init with
  | nil =>
    cases rest with
    | nil => exact ⟨rfl, rfl⟩
    | cons c rest =>
      have hc : ¬ c.isDigit = true := by simpa using hrest
      exact ⟨leading_of_not_isDigit hc init rest, behindDigits_of_not_isDigit hc rest⟩
  | cons d digits ih =>
    have hd := hdigits d (List.mem_cons_self ..)
    rw [List.cons_append, leading_cons hd, behindDigits_cons hd, Nat.ofDigitChars_cons]
    exact ih (fun c hc => hdigits c (List.mem_cons_of_mem _ hc)) _

section Wrapping

variable {w : ℕ}

theorem times_ten_add (x : BitVec w) (c : Char) :
    x * 10 + digitOf c = BitVec.ofNat w (10 * x.toNat + (c.toNat - '0'.toNat)) := by
  apply BitVec.eq_of_toNat_eq
  simp [digitOf, BitVec.toNat_add, BitVec.toNat_mul, Nat.mul_comm]

/-- The shared loop reads the digits in front modulo the width. -/
theorem digitsLoop_ofNat (n : ℕ) (text : List Char) :
    digitsLoop (BitVec.ofNat w n) text = (BitVec.ofNat w (leading n text), behindDigits text) := by
  induction text generalizing n with
  | nil => rfl
  | cons c text ih =>
    by_cases h : c.isDigit = true
    · have hstep : (BitVec.ofNat w n) * 10 + digitOf c =
          BitVec.ofNat w (10 * n + (c.toNat - '0'.toNat)) := by
        rw [times_ten_add]
        apply BitVec.eq_of_toNat_eq
        simp [Nat.add_mod, Nat.mul_mod]
      rw [digitsLoop, if_pos (isDigit_iff.mp h), hstep, ih, leading_cons h, behindDigits_cons h]
    · rw [digitsLoop, if_neg (mt isDigit_iff.mpr h), leading_of_not_isDigit h,
        behindDigits_of_not_isDigit h]

theorem atouFast_eq (text : List Char) : atouFast w text = BitVec.ofNat w (leading 0 text) :=
  congrArg Prod.fst (digitsLoop_ofNat 0 text)

theorem atoiFast_of_ne {text : List Char} (h : text.head? ≠ some '-') :
    atoiFast w text = BitVec.ofNat w (leading 0 text) := by
  have hloop := congrArg Prod.fst (digitsLoop_ofNat (w := w) 0 text)
  unfold atoiFast atoiFastAdvance
  split
  · exact absurd rfl h
  · exact hloop

theorem atoiFast_neg (text : List Char) :
    atoiFast w ('-' :: text) = -BitVec.ofNat w (leading 0 text) :=
  congrArg (fun r : BitVec w × List Char => -r.1) (digitsLoop_ofNat 0 text)

end Wrapping

section Nooverflow

variable {w : ℕ}

theorem not_lt_or_lt_iff {c : Char} : ¬ (c < '0' ∨ '9' < c) ↔ c.isDigit = true := by
  rw [isDigit_iff, not_or, Char.not_lt, Char.not_lt]

theorem toNat_ten (hw : 8 ≤ w) : (10 : BitVec w).toNat = 10 := by
  have hpow : 2 ^ 8 ≤ 2 ^ w := Nat.pow_le_pow_right (by decide) hw
  exact (BitVec.toNat_ofNat 10 w).trans (Nat.mod_eq_of_lt (by omega))

theorem toNat_maxTenth (hw : 8 ≤ w) : (maxTenth w).toNat = (2 ^ w - 1) / 10 := by
  rw [maxTenth, BitVec.toNat_udiv, BitVec.toNat_allOnes, toNat_ten hw]

/-- The test on the tenth of the maximum finds what the multiplication would carry out. -/
theorem maxTenth_lt_iff (hw : 8 ≤ w) (x : BitVec w) : maxTenth w < x ↔ 2 ^ w ≤ 10 * x.toNat := by
  have hpos : 0 < 2 ^ w := Nat.two_pow_pos w
  rw [BitVec.lt_def, toNat_maxTenth hw]
  omega

/-- Behind that test the product is exact. -/
theorem toNat_times_ten (hw : 8 ≤ w) {x : BitVec w} (h : 10 * x.toNat < 2 ^ w) :
    (x * 10).toNat = 10 * x.toNat := by
  rw [BitVec.toNat_mul, toNat_ten hw, Nat.mul_comm, Nat.mod_eq_of_lt h]

/-- The sum has wrapped around if and only if it is below what a digit was added to. -/
theorem plus_digit_lt_iff (hw : 8 ≤ w) {c : Char} (hc : c.isDigit = true) (y : BitVec w) :
    y + digitOf c < y ↔ 2 ^ w ≤ y.toNat + (c.toNat - '0'.toNat) := by
  have hpow : 2 ^ 8 ≤ 2 ^ w := Nat.pow_le_pow_right (by decide) hw
  have hdigit := toNat_sub_lt_ten hc
  have hy := y.isLt
  have hsum : (y + digitOf c).toNat = (y.toNat + (c.toNat - '0'.toNat)) % 2 ^ w := by
    simp [digitOf, BitVec.toNat_add]
  rw [BitVec.lt_def, hsum]
  by_cases hlt : y.toNat + (c.toNat - '0'.toNat) < 2 ^ w
  · rw [Nat.mod_eq_of_lt hlt]
    omega
  · have hwrap : (y.toNat + (c.toNat - '0'.toNat)) % 2 ^ w =
        y.toNat + (c.toNat - '0'.toNat) - 2 ^ w := by
      rw [Nat.mod_eq_sub_mod (by omega), Nat.mod_eq_of_lt (by omega)]
    omega

/-- The loop raises for a number that the type does not hold, and gives any other exactly. -/
theorem nooverflowLoop_spec (hw : 8 ≤ w) (whole text : List Char) (x : BitVec w) :
    (2 ^ w ≤ leading x.toNat text → ∃ e, nooverflowLoop whole x text = .error e) ∧
      (leading x.toNat text < 2 ^ w → nooverflowLoop whole x text =
        .ok (BitVec.ofNat w (leading x.toNat text), behindDigits text)) := by
  induction text generalizing x with
  | nil =>
    have hx := x.isLt
    exact ⟨fun h => absurd h (Nat.not_le.mpr hx), fun _ => by simp [nooverflowLoop]⟩
  | cons c text ih =>
    by_cases hc : c.isDigit = true
    · rw [leading_cons hc, behindDigits_cons hc, nooverflowLoop, if_neg (not_lt_or_lt_iff.mpr hc)]
      have hle := le_leading (10 * x.toNat + (c.toNat - '0'.toNat)) text
      by_cases htimes : maxTenth w < x
      · rw [if_pos htimes]
        have hbig := (maxTenth_lt_iff hw x).mp htimes
        exact ⟨fun _ => ⟨_, rfl⟩, fun h => by omega⟩
      · rw [if_neg htimes]
        have hexact := toNat_times_ten hw (Nat.not_le.mp (mt (maxTenth_lt_iff hw x).mpr htimes))
        by_cases hplus : x * 10 + digitOf c < x * 10
        · have hbig := (plus_digit_lt_iff hw hc (x * 10)).mp hplus
          simp only [hplus, if_true]
          exact ⟨fun _ => ⟨_, rfl⟩, fun h => by omega⟩
        · have hsmall := Nat.not_le.mp (mt (plus_digit_lt_iff hw hc (x * 10)).mpr hplus)
          have hnext : (x * 10 + digitOf c).toNat = 10 * x.toNat + (c.toNat - '0'.toNat) := by
            rw [times_ten_add, BitVec.toNat_ofNat, Nat.mod_eq_of_lt (by omega)]
          simp only [hplus, if_false]
          rw [← hnext]
          exact ih (x * 10 + digitOf c)
    · rw [leading_of_not_isDigit hc, behindDigits_of_not_isDigit hc, nooverflowLoop,
        if_pos (not_not.mp (mt not_lt_or_lt_iff.mp hc))]
      exact ⟨fun h => absurd h (Nat.not_le.mpr x.isLt), fun _ => by simp⟩

end Nooverflow

/-- `atou_fast_advance_nooverflow` raises if and only if the digits in front make a number beyond
the maximum of the type. Otherwise it gives this number and stops behind its digits. -/
theorem atouFastAdvanceNooverflow_spec (U : Width) (text : List Char) :
    ((∃ e, atouFastAdvanceNooverflow U text = .error e) ↔ 2 ^ U.bits - 1 < leading 0 text) ∧
      (leading 0 text ≤ 2 ^ U.bits - 1 → ∃ x, atouFastAdvanceNooverflow U text =
        .ok (x, behindDigits text) ∧ x.toNat = leading 0 text) := by
  have hpos : 0 < 2 ^ U.bits := Nat.two_pow_pos _
  have hzero : (0 : BitVec U.bits).toNat = 0 := BitVec.toNat_zero
  have hspec := nooverflowLoop_spec U.char_le text text 0
  rw [hzero] at hspec
  have hok : leading 0 text ≤ 2 ^ U.bits - 1 → atouFastAdvanceNooverflow U text =
      .ok (BitVec.ofNat U.bits (leading 0 text), behindDigits text) :=
    fun h => hspec.2 (by omega)
  constructor
  · constructor
    · intro hraises
      obtain ⟨e, he⟩ := hraises
      by_contra h
      rw [hok (by omega)] at he
      cases he
    · intro h
      exact hspec.1 (by omega)
  · intro h
    exact ⟨_, hok h, Nat.mod_eq_of_lt (by omega)⟩

end Carmel.Text
