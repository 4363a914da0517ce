/-
# Writing decimal numbers into buffers

`utoa` writes the digits of a number backwards from the end of a buffer, in the type that
`signed_for_int` names; `itoa` negates there and puts a sign in front. The wrappers reserve
`toa_bufsize` characters. `append_itoa` calls `utoa`, and `itoa_left_pad` leaves the first
character of its field unwritten where there is no sign.
-/

import Carmel.Text.AtoiFast

namespace Carmel.Text

open Carmel.Math

/-- An integer type, and whether `signed_for_int` is specialized for it. -/
structure IntType extends Width where
  signed : Bool
  listed : Bool

/-- Characters of memory, `none` where nothing was written. -/
abbrev Cells := List (Option Char)

section Code

namespace IntType

def lower (I : IntType) : ℤ := if I.signed then -2 ^ (I.bits - 1) else 0

def upper (I : IntType) : ℤ := if I.signed then 2 ^ (I.bits - 1) - 1 else 2 ^ I.bits - 1

/-- A number of the type. -/
abbrev Value (I : IntType) := { z : ℤ // I.lower ≤ z ∧ z ≤ I.upper }

/-- `signed_for_int<t>::unsigned_t`, which is `unsigned` in the general template. -/
def unsignedT (I : IntType) : IntType :=
  if I.listed then { I with signed := false } else ⟨⟨32, by decide⟩, false, true⟩

/-- `signed_for_int<t>::signed_t`, the type itself in the general template. -/
def signedT (I : IntType) : IntType := if I.listed then { I with signed := true } else I

/-- `std::numeric_limits<t>::digits10`. -/
def digits10 (I : IntType) : ℕ := Nat.log 10 (2 ^ (if I.signed then I.bits - 1 else I.bits))

/-- `signed_for_int<t>::toa_bufsize`. -/
def toaBufsize (I : IntType) : ℕ := if I.listed then 3 + I.digits10 else 20

/-- `unsigned_t n = i`. -/
def toUnsigned (I : IntType) (i : ℤ) : BitVec I.unsignedT.bits := BitVec.ofInt _ i

end IntType

/-- `char buf[n]`. -/
def fresh (n : ℕ) : Cells := List.replicate n none

/-- `*p = c`, which needs the cell to be there. -/
def Cells.store (m : Cells) (p : ℕ) (c : Char) : Option Cells :=
  if p < m.length then some (m.set p (some c)) else none

/-- `*--p = c`. -/
def Cells.storeBefore (m : Cells) (p : ℕ) (c : Char) : Option (Cells × ℕ) :=
  match p with
  | 0 => none
  | p + 1 => (m.store p c).map fun m => (m, p)

/-- The characters of a range, all of them written. -/
def written : Cells → Option (List Char)
  | [] => some []
  | none :: _ => none
  | some c :: m => (written m).map (c :: ·)

/-- `std::string(p, e)`. -/
def Cells.string (m : Cells) (p e : ℕ) : Option (List Char) := written ((m.drop p).take (e - p))

/-- `digits`. -/
def digits : List Char := ['0', '1', '2', '3', '4', '5', '6', '7', '8', '9']

/-- `digit_to_char`. -/
def digitToChar (d : ℕ) : Option Char := digits[d]?

/-- The loop of `utoa`, with `GRAEHL_ITOA_NDIV10MOD` in it. -/
def utoaLoop {U : Width} (m : Cells) (buf : ℕ) (n : BitVec U.bits) : Option (Cells × ℕ) :=
  if n = 0 then some (m, buf)
  else do
    let rem := n - 10 * (n / 10)
    let c ← digitToChar rem.toNat
    let (m, buf) ← m.storeBefore buf c
    utoaLoop m buf (n / 10)
termination_by n.toNat
decreasing_by
  rename_i hn
  have hpos : n.toNat ≠ 0 := fun h => hn (BitVec.eq_of_toNat_eq (h.trans BitVec.toNat_zero.symm))
  rw [BitVec.toNat_udiv, toNat_ten U.char_le]
  omega

/-- `utoa`: the memory, and where the number begins in it. -/
def utoa {U : Width} (m : Cells) (buf : ℕ) (n : BitVec U.bits) : Option (Cells × ℕ) :=
  if n = 0 then m.storeBefore buf '0' else utoaLoop m buf n

/-- `left_pad`. -/
def leftPad (m : Cells) (left : ℕ) (pad : Char) : ℕ → Option Cells
  | 0 => some m
  | buf + 1 => if left < buf + 1 then do leftPad (← m.store buf pad) left pad buf else some m

variable (I : IntType)

/-- `itoa`. The number is negated after its conversion. -/
def itoa (m : Cells) (buf : ℕ) (i : ℤ) (positiveSign : Bool) : Option (Cells × ℕ) := do
  let n := I.toUnsigned i
  let (m, ret) ← utoa m buf (if i < 0 then -n else n)
  if i < 0 then m.storeBefore ret '-'
  else if positiveSign then m.storeBefore ret '+'
  else some (m, ret)

/-- `itoa_left_pad`, with its assertion. -/
def itoaLeftPad (m : Cells) (buf bufend : ℕ) (i : ℤ) (positiveSign : Bool) (pad : Char) :
    Option (Cells × ℕ) := do
  let n := I.toUnsigned i
  let n := if i < 0 then -n else n
  let m ← if i < 0 then m.store buf '-' else if positiveSign then m.store buf '+' else some m
  let (m, r) ← utoa m bufend n
  if buf < r then (leftPad m (buf + 1) pad r).map fun m => (m, buf) else none

/-- `itos`. -/
def itos (n : ℤ) : Option (List Char) := do
  let e := I.toaBufsize
  let (m, p) ← itoa I (fresh e) e n false
  m.string p e

/-- `utos`. -/
def utos (n : ℤ) : Option (List Char) := do
  let e := I.toaBufsize
  let (m, p) ← utoa (fresh e) e (I.toUnsigned n)
  m.string p e

/-- `std::memcpy` of a text to `dst`. -/
def Cells.copy (m : Cells) (dst : ℕ) : List Char → Option Cells
  | [] => some m
  | c :: text => do Cells.copy (← m.store dst c) (dst + 1) text

/-- How `append_utoa` and `append_itoa` end: the text and its terminating character. -/
def appendText (m : Cells) (dst : ℕ) (text : List Char) : Option (Cells × ℕ) := do
  let m ← m.copy dst text
  let m ← m.store (dst + text.length) '\x00'
  some (m, dst + text.length)

/-- `append_utoa`, whose argument is of `unsigned_t`. -/
def appendUtoa (m : Cells) (dst : ℕ) (n : ℤ) : Option (Cells × ℕ) := do
  let e := I.toaBufsize
  let (buf, p) ← itoa I.unsignedT (fresh e) e n false
  appendText m dst (← buf.string p e)

/-- `append_itoa`, whose argument is of `signed_t`. -/
def appendItoa (m : Cells) (dst : ℕ) (n : ℤ) : Option (Cells × ℕ) := do
  let e := I.toaBufsize
  let (buf, p) ← utoa (fresh e) e (I.signedT.toUnsigned n)
  appendText m dst (← buf.string p e)

end Code

namespace Cells

/-- The memory with a text written at a place. -/
def place (m : Cells) (a : ℕ) (text : List Char) : Cells :=
  m.take a ++ (text.map some ++ m.drop (a + text.length))

variable {m : Cells} {a : ℕ} {text : List Char}

@[simp] theorem place_nil (m : Cells) (a : ℕ) : m.place a [] = m := by
  simp [place]

theorem length_place (h : a + text.length ≤ m.length) : (m.place a text).length = m.length := by
  simp only [place, List.length_append, List.length_take, List.length_map, List.length_drop]
  omega

/-- A text grows at its front. -/
theorem store_place (text : List Char) (h : a + 1 + text.length ≤ m.length) (c : Char) :
    (m.place (a + 1) text).store a c = some (m.place a (c :: text)) := by
  have htake : (m.take a).length = a := by
    rw [List.length_take]
    omega
  have hlen : a + (c :: text).length = a + 1 + text.length := by
    rw [List.length_cons]
    omega
  rw [store, if_pos (by rw [length_place h]; omega), place, place, hlen,
    List.take_succ_eq_append_getElem (by omega), List.append_assoc,
    List.set_append_right _ _ (by omega), htake, Nat.sub_self]
  rfl

theorem storeBefore_place (h : a + 1 + text.length ≤ m.length) (c : Char) :
    (m.place (a + 1) text).storeBefore (a + 1) c = some (m.place a (c :: text), a) := by
  rw [storeBefore, store_place text h, Option.map_some]

theorem written_map (text : List Char) : written (text.map some) = some text := by
  induction text with
  | nil => rfl
  | cons c text ih => rw [List.map_cons, written, ih, Option.map_some]

/-- What was placed is what is read, up to where the reading stops. -/
theorem string_place (m : Cells) (text : List Char) (h : a ≤ m.length) (more : List Char) :
    (m.place a (text ++ more)).string a (a + text.length) = some text := by
  have htake : (m.take a).length = a := by
    rw [List.length_take]
    omega
  rw [string, place, List.drop_append_of_le_length htake.ge, List.drop_eq_nil_of_le htake.le,
    List.nil_append, Nat.add_sub_cancel_left, List.map_append, List.append_assoc,
    List.take_append_of_le_length (by simp), List.take_of_length_le (by simp), written_map]

theorem copy_eq (text : List Char) (h : a + text.length ≤ m.length) : m.copy a text = some (m.place a text) := by
  induction text generalizing m a with
  | nil => rw [place_nil, copy]
  | cons c text ih =>
    rw [List.length_cons] at h
    have hstore : m.store a c = some (m.place a [c]) := by
      have hplace := store_place (m := m) (a := a) [] (by simp; omega) c
      rwa [place_nil] at hplace
    have hlen : (m.place a [c]).length = m.length := length_place (by simp; omega)
    have htake : (m.take a).length = a := by
      rw [List.length_take]
      omega
    have hboth : (m.place a [c]).place (a + 1) text = m.place a (c :: text) := by
      have hfront : (m.place a [c]).take (a + 1) = m.take a ++ [some c] := by
        rw [place, List.take_append, htake, Nat.add_sub_cancel_left,
          List.take_of_length_le (by omega)]
        rfl
      have hback : (m.place a [c]).drop (a + 1 + text.length) = m.drop (a + 1 + text.length) := by
        rw [place, List.drop_append, htake, List.drop_eq_nil_of_le (by omega), List.nil_append,
          List.drop_append, List.drop_eq_nil_of_le (by simp; omega), List.nil_append,
          List.drop_drop]
        congr 1
        simp only [List.length_map, List.length_singleton]
        omega
      rw [place, hfront, hback, place, List.length_cons, Nat.add_comm text.length 1,
        ← Nat.add_assoc, List.append_assoc]
      rfl
    rw [copy, hstore]
    simp only [Option.bind_eq_bind, Option.bind_some]
    rw [ih (by omega), hboth]

theorem copy_concat (c : Char) : m.copy a (text ++ [c]) =
    (m.copy a text).bind fun m => m.store (a + text.length) c := by
  induction text generalizing m a with
  | nil =>
    simp only [List.nil_append, copy, Option.bind_eq_bind, Option.bind_some, List.length_nil,
      Nat.add_zero]
    cases m.store a c <;> rfl
  | cons d text ih =>
    simp only [List.cons_append, copy, Option.bind_eq_bind, Option.bind_assoc, ih,
      List.length_cons, Nat.add_comm text.length 1, ← Nat.add_assoc]

end Cells

section Digits

variable {U : Width} {m : Cells}

theorem digitToChar_of_lt : ∀ d < 10, digitToChar d = some (Nat.digitChar d) := by decide

/-- The digits of a number, none of zero. -/
def digitsLeft (n : ℕ) : List Char := if n = 0 then [] else Nat.toDigits 10 n

theorem digitsLeft_of_ne {n : ℕ} (h : n ≠ 0) :
    digitsLeft n = digitsLeft (n / 10) ++ [Nat.digitChar (n % 10)] := by
  rw [digitsLeft, if_neg h]
  by_cases hn : n < 10
  · have hdiv : n / 10 = 0 := by omega
    rw [Nat.toDigits_of_lt_base hn, hdiv, digitsLeft, if_pos rfl, Nat.mod_eq_of_lt hn,
      List.nil_append]
  · rw [Nat.toDigits_of_base_le (by decide) (by omega), digitsLeft, if_neg (by omega)]

/-- What `GRAEHL_ITOA_NDIV10MOD` leaves in `rem`. -/
theorem toNat_rem (n : BitVec U.bits) : (n - 10 * (n / 10)).toNat = n.toNat % 10 := by
  have hten := toNat_ten U.char_le
  have hn := n.isLt
  have hmul : (10 * (n / 10)).toNat = 10 * (n.toNat / 10) := by
    rw [BitVec.toNat_mul, BitVec.toNat_udiv, hten, Nat.mod_eq_of_lt (by omega)]
  have hle : 10 * (n / 10) ≤ n := by
    rw [BitVec.le_def, hmul]
    omega
  rw [BitVec.toNat_sub_of_le hle, hmul]
  omega

theorem utoaLoop_spec (n : BitVec U.bits) (k : ℕ) (text : List Char)
    (hroom : k + (digitsLeft n.toNat).length + text.length ≤ m.length) :
    utoaLoop (m.place (k + (digitsLeft n.toNat).length) text) (k + (digitsLeft n.toNat).length) n =
      some (m.place k (digitsLeft n.toNat ++ text), k) := by
  induction hsize : n.toNat using Nat.strong_induction_on generalizing n text with
  | h size ih =>
    rw [utoaLoop]
    by_cases hn : n = 0
    · have hzero : size = 0 := by
        rw [← hsize, hn]
        exact BitVec.toNat_zero
      rw [if_pos hn, hzero]
      rfl
    · have hne : n.toNat ≠ 0 :=
        fun h => hn (BitVec.eq_of_toNat_eq (h.trans BitVec.toNat_zero.symm))
      have hdiv : (n / 10).toNat = n.toNat / 10 := by
        rw [BitVec.toNat_udiv, toNat_ten U.char_le]
      have hlast := digitsLeft_of_ne hne
      rw [hlast, List.length_append, List.length_singleton] at hroom
      rw [if_neg hn, ← hsize, hlast, List.length_append, List.length_singleton, ← Nat.add_assoc]
      simp only [toNat_rem, digitToChar_of_lt _ (Nat.mod_lt n.toNat (by decide : 0 < 10)),
        Option.bind_eq_bind, Option.bind_some]
      rw [Cells.storeBefore_place (by omega), Option.bind_some, List.append_assoc,
        List.singleton_append, ← hdiv]
      apply ih (n / 10).toNat (by omega) _ _ _ rfl
      rw [hdiv, List.length_cons]
      omega

/-- `utoa` writes the numeral in front of where it starts. -/
theorem utoa_spec (n : BitVec U.bits) (k : ℕ) (text : List Char)
    (hroom : k + (Nat.toDigits 10 n.toNat).length + text.length ≤ m.length) :
    utoa (m.place (k + (Nat.toDigits 10 n.toNat).length) text)
        (k + (Nat.toDigits 10 n.toNat).length) n =
      some (m.place k (Nat.toDigits 10 n.toNat ++ text), k) := by
  by_cases hn : n = 0
  · have hzero : n.toNat = 0 := by
      rw [hn]
      exact BitVec.toNat_zero
    rw [hzero, Nat.toDigits_zero] at hroom ⊢
    rw [utoa, if_pos hn]
    exact Cells.storeBefore_place hroom '0'
  · have hne : n.toNat ≠ 0 := fun h => hn (BitVec.eq_of_toNat_eq (h.trans BitVec.toNat_zero.symm))
    have hleft : digitsLeft n.toNat = Nat.toDigits 10 n.toNat := if_neg hne
    rw [utoa, if_neg hn]
    rw [← hleft] at hroom ⊢
    exact utoaLoop_spec n k text hroom

/-- `left_pad` fills up to its left end. -/
theorem leftPad_spec (left : ℕ) (pad : Char) (d : ℕ) (text : List Char)
    (hroom : left + d + text.length ≤ m.length) :
    leftPad (m.place (left + d) text) left pad (left + d) =
      some (m.place left (List.replicate d pad ++ text)) := by
  induction d generalizing text with
  | zero =>
    cases left with
    | zero => rfl
    | succ left => rw [Nat.add_zero, leftPad, if_neg (Nat.lt_irrefl _)]; rfl
  | succ d ih =>
    rw [← Nat.add_assoc, leftPad, if_pos (by omega), Cells.store_place _ (by omega)]
    simp only [Option.bind_eq_bind, Option.bind_some]
    rw [ih (pad :: text) (by rw [List.length_cons]; omega), List.replicate_succ',
      List.append_assoc, List.singleton_append]

end Digits

section Magnitude

variable {I : IntType} {i : ℤ}

theorem toNat_toUnsigned (h : 0 ≤ i) :
    (I.toUnsigned i).toNat = i.natAbs % 2 ^ I.unsignedT.bits := by
  rw [IntType.toUnsigned, BitVec.toNat_ofInt]
  have hcast : i % ((2 ^ I.unsignedT.bits : ℕ) : ℤ) = ((i.natAbs % 2 ^ I.unsignedT.bits : ℕ) : ℤ) := by
    rw [Int.natCast_emod, Int.natAbs_of_nonneg h]
  rw [hcast, Int.toNat_natCast]

/-- Negation in the unsigned type gives the magnitude, also of the least number. -/
theorem toNat_magnitude (I : IntType) (i : ℤ) :
    (if i < 0 then -I.toUnsigned i else I.toUnsigned i).toNat =
      i.natAbs % 2 ^ I.unsignedT.bits := by
  split
  · have hneg : -I.toUnsigned i = I.toUnsigned (-i) := (BitVec.ofInt_neg ..).symm
    rw [hneg, toNat_toUnsigned (by omega), Int.natAbs_neg]
  · exact toNat_toUnsigned (by omega)

/-- The buffers have room for a sign, the digits and one more character. -/
theorem length_toDigits_lt_toaBufsize (I : IntType) {n : ℕ} (hn : n < 2 ^ I.unsignedT.bits) :
    (Nat.toDigits 10 n).length + 1 ≤ I.toaBufsize := by
  have hlen : ∀ k, 0 < k → n < 10 ^ k → (Nat.toDigits 10 n).length ≤ k :=
    fun k hk h => (Nat.length_toDigits_le_iff (by decide) hk).mpr h
  unfold IntType.toaBufsize
  split
  · next hlisted =>
      have hbits : I.unsignedT.bits = I.bits := by rw [IntType.unsignedT, if_pos hlisted]
      have hhalf : 2 ^ I.bits ≤ 2 * 2 ^ (if I.signed then I.bits - 1 else I.bits) := by
        have hchar := I.char_le
        split
        · rw [← Nat.pow_succ', Nat.succ_eq_add_one, Nat.sub_add_cancel (by omega)]
        · omega
      have hlog := Nat.lt_pow_succ_log_self (b := 10) (by decide)
        (2 ^ (if I.signed then I.bits - 1 else I.bits))
      have hten : n < 10 ^ (I.digits10 + 2) := by
        rw [hbits] at hn
        rw [IntType.digits10, Nat.pow_succ]
        omega
      have hle := hlen _ (by omega) hten
      omega
  · next hunlisted =>
      have hbits : I.unsignedT.bits = 32 := by rw [IntType.unsignedT, if_neg hunlisted]
      rw [hbits] at hn
      have hle := hlen 10 (by decide) (by omega)
      omega

/-- The type that the conversion goes to holds the magnitude. -/
def Fits (I : IntType) (i : ℤ) : Prop := i.natAbs < 2 ^ I.unsignedT.bits

theorem fits_of_listed (h : I.listed = true) (z : I.Value) : Fits I z := by
  have hbits : I.unsignedT.bits = I.bits := by rw [IntType.unsignedT, if_pos h]
  have hlower := z.property.1
  have hupper := z.property.2
  have hpow : 2 ^ I.bits = 2 * 2 ^ (I.bits - 1) := by
    rw [← Nat.pow_succ', Nat.succ_eq_add_one, Nat.sub_add_cancel (by have := I.char_le; omega)]
  have hpos : 0 < 2 ^ (I.bits - 1) := Nat.two_pow_pos _
  unfold Fits
  rw [hbits, hpow]
  unfold IntType.lower at hlower
  unfold IntType.upper at hupper
  have hpow' : (2 : ℤ) ^ I.bits = 2 * 2 ^ (I.bits - 1) := by exact_mod_cast hpow
  have hcast : ((2 ^ (I.bits - 1) : ℕ) : ℤ) = 2 ^ (I.bits - 1) := by push_cast; rfl
  split at hlower <;> simp_all only [if_true, if_false, Bool.false_eq_true] <;> omega

end Magnitude

/-- The sign in front of a numeral. -/
def signOf (i : ℤ) (positiveSign : Bool) : List Char :=
  if i < 0 then ['-'] else if positiveSign then ['+'] else []

/-- The digits that the unsigned type has for a number. -/
def digitsIn (I : IntType) (i : ℤ) : List Char :=
  Nat.toDigits 10 (i.natAbs % 2 ^ I.unsignedT.bits)

theorem length_digitsIn (I : IntType) (i : ℤ) : (digitsIn I i).length + 1 ≤ I.toaBufsize :=
  length_toDigits_lt_toaBufsize I (Nat.mod_lt _ (Nat.two_pow_pos _))

section Routines

variable (I : IntType)

/-- `itoa` writes the sign and the digits in front of where it starts. -/
theorem itoa_spec {m : Cells} (i : ℤ) (positiveSign : Bool) (k : ℕ)
    (hroom : k + (signOf i positiveSign ++ digitsIn I i).length ≤ m.length) :
    itoa I m (k + (signOf i positiveSign ++ digitsIn I i).length) i positiveSign =
      some (m.place k (signOf i positiveSign ++ digitsIn I i), k) := by
  have hmagnitude := toNat_magnitude I i
  have hdigits : ∀ j, j + (digitsIn I i).length ≤ m.length →
      utoa m (j + (digitsIn I i).length) (if i < 0 then -I.toUnsigned i else I.toUnsigned i) =
        some (m.place j (digitsIn I i), j) := by
    intro j hj
    have hspec := utoa_spec (m := m) (if i < 0 then -I.toUnsigned i else I.toUnsigned i) j []
    rw [hmagnitude, Cells.place_nil, List.append_nil] at hspec
    exact hspec hj
  rw [List.length_append, ← Nat.add_assoc] at hroom ⊢
  rw [itoa]
  simp only [Option.bind_eq_bind, hdigits (k + (signOf i positiveSign).length) (by omega),
    Option.bind_some]
  unfold signOf at hroom ⊢
  split
  · next hneg =>
      rw [if_pos hneg] at hroom
      exact Cells.storeBefore_place hroom '-'
  · next hneg =>
      rw [if_neg hneg] at hroom
      split
      · next hplus =>
          rw [if_pos hplus] at hroom
          exact Cells.storeBefore_place hroom '+'
      · rfl

theorem length_signOf_le (i : ℤ) (positiveSign : Bool) : (signOf i positiveSign).length ≤ 1 := by
  unfold signOf
  split
  · exact Nat.le_refl _
  · split
    · exact Nat.le_refl _
    · exact Nat.zero_le _

/-- The sign and the digits fill the end of a buffer that has room for them. -/
theorem exists_itoa_fresh (i : ℤ) (positiveSign : Bool) {e : ℕ}
    (hroom : (digitsIn I i).length + 1 ≤ e) :
    ∃ m p, itoa I (fresh e) e i positiveSign = some (m, p) ∧
      m.string p e = some (signOf i positiveSign ++ digitsIn I i) := by
  have hsign := length_signOf_le i positiveSign
  have hlen : (fresh e).length = e := List.length_replicate
  obtain ⟨k, hk⟩ : ∃ k, k + (signOf i positiveSign ++ digitsIn I i).length = e := by
    rw [List.length_append]
    exact ⟨e - ((signOf i positiveSign).length + (digitsIn I i).length), by omega⟩
  have hspec := itoa_spec I (m := fresh e) i positiveSign k (by rw [hk, hlen])
  have hstring := Cells.string_place (a := k) (fresh e)
    (signOf i positiveSign ++ digitsIn I i) (by omega) []
  rw [hk] at hspec hstring
  rw [List.append_nil] at hstring
  exact ⟨_, _, hspec, hstring⟩

/-- The digits of an unsigned number fill the end of a buffer that has room for them. -/
theorem exists_utoa_fresh {U : Width} (n : BitVec U.bits) {e : ℕ}
    (hroom : (Nat.toDigits 10 n.toNat).length ≤ e) :
    ∃ m p, utoa (fresh e) e n = some (m, p) ∧ m.string p e = some (Nat.toDigits 10 n.toNat) := by
  have hlen : (fresh e).length = e := List.length_replicate
  obtain ⟨k, hk⟩ : ∃ k, k + (Nat.toDigits 10 n.toNat).length = e :=
    ⟨e - (Nat.toDigits 10 n.toNat).length, by omega⟩
  have hspec := utoa_spec (m := fresh e) n k []
  rw [hk, Cells.place_nil, List.append_nil] at hspec
  have hstring := Cells.string_place (a := k) (fresh e)
    (Nat.toDigits 10 n.toNat) (by omega) []
  rw [hk, List.append_nil] at hstring
  exact ⟨_, _, hspec (by rw [hlen, List.length_nil]; omega), hstring⟩

/-- An appended text stands at its place, with its end behind it. -/
theorem appendText_spec {m : Cells} {dst : ℕ} {text : List Char}
    (hroom : dst + text.length + 1 ≤ m.length) :
    appendText m dst text = some (m.place dst (text ++ ['\x00']), dst + text.length) := by
  have hcopy := Cells.copy_eq (m := m) (a := dst) (text ++ ['\x00'])
    (by rw [List.length_append, List.length_singleton]; omega)
  rw [Cells.copy_concat] at hcopy
  have hfirst := Cells.copy_eq (m := m) (a := dst) text (by omega)
  rw [hfirst, Option.bind_some] at hcopy
  rw [appendText, hfirst]
  simp only [Option.bind_eq_bind, Option.bind_some, hcopy]

end Routines

/-- Digits that repeat count an odd multiple of their digit. -/
theorem ofDigitChars_replicate_succ (c : Char) (t : ℕ) :
    ∃ r, Nat.ofDigitChars 10 (List.replicate (t + 1) c) 0 = (c.toNat - '0'.toNat) * (2 * r + 1) := by
  induction t with
  | zero => exact ⟨0, by simp [Nat.ofDigitChars]⟩
  | succ t ih =>
    obtain ⟨r, hr⟩ := ih
    refine ⟨10 * r + 5, ?_⟩
    rw [List.replicate_succ', Nat.ofDigitChars_append, hr, Nat.ofDigitChars_cons,
      Nat.ofDigitChars_nil]
    ring

/-- The digits of a number that agrees with a smaller one modulo `2 ^ 32` are not those of the
smaller one with one digit repeated in front. -/
theorem eq_of_replicate_append_toDigits {c : Char} {t n : ℕ}
    (h : List.replicate t c ++ Nat.toDigits 10 (n % 2 ^ 32) = Nat.toDigits 10 n) :
    n < 2 ^ 32 := by
  by_contra hbig
  have hvalue := congrArg (fun ds => Nat.ofDigitChars 10 ds 0) h
  simp only [Nat.ofDigitChars_append, Nat.ofDigitChars_ten_toDigits] at hvalue
  rw [Nat.ofDigitChars_eq_ofDigitChars_zero, Nat.ofDigitChars_ten_toDigits] at hvalue
  cases t with
  | zero =>
    simp only [List.replicate_zero, Nat.ofDigitChars_nil, Nat.mul_zero, Nat.zero_add] at hvalue
    omega
  | succ t =>
    obtain ⟨r, hr⟩ := ofDigitChars_replicate_succ c t
    have hdigit : c.isDigit = true := by
      have hmem : c ∈ Nat.toDigits 10 n := by
        rw [← h, List.replicate_succ]
        exact List.mem_cons_self ..
      exact Nat.isDigit_of_mem_toDigits (by decide) (by decide) hmem
    have hlt := toNat_sub_lt_ten hdigit
    have hlen : (Nat.toDigits 10 (n % 2 ^ 32)).length ≤ 10 :=
      (Nat.length_toDigits_le_iff (by decide) (by decide)).mpr (by omega)
    rw [hr] at hvalue
    generalize hL : (Nat.toDigits 10 (n % 2 ^ 32)).length = len at hvalue hlen
    generalize c.toNat - '0'.toNat = v at hvalue hlt
    -- The front counts a multiple of `2 ^ 32`, but has at most thirteen factors of two.
    have hdvd : 2 ^ 32 ∣ 2 ^ len * v * (5 ^ len * (2 * r + 1)) := by
      have hten : 10 ^ len = 2 ^ len * 5 ^ len := by rw [← Nat.mul_pow]
      refine ⟨n / 2 ^ 32, ?_⟩
      have hfront : 10 ^ len * (v * (2 * r + 1)) = 2 ^ 32 * (n / 2 ^ 32) := by omega
      rw [← hfront, hten]
      ring
    have hodd : Nat.Coprime (2 ^ 32) (5 ^ len * (2 * r + 1)) := by
      apply Nat.Coprime.pow_left
      rw [Nat.coprime_two_left]
      exact (Odd.pow (by decide)).mul ⟨r, rfl⟩
    have hsmall : 2 ^ len * v < 2 ^ 32 := by
      have hpow : 2 ^ len ≤ 2 ^ 10 := Nat.pow_le_pow_right (by decide) hlen
      calc 2 ^ len * v ≤ 2 ^ 10 * 9 := Nat.mul_le_mul hpow (by omega)
        _ < 2 ^ 32 := by decide
    have hzero := Nat.eq_zero_of_dvd_of_lt (hodd.dvd_of_dvd_mul_right hdvd) hsmall
    have hv : v = 0 := by
      rcases Nat.mul_eq_zero.mp hzero with h0 | h0
      · exact absurd h0 (Nat.two_pow_pos len).ne'
      · exact h0
    rw [hv, Nat.zero_mul, Nat.mul_zero] at hvalue
    omega

end Carmel.Text
