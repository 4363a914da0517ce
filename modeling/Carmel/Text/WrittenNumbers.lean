/-
# What the number routines write and read back

Every routine is run in a buffer of the size that it documents. The text it leaves is the
numeral of the number exactly where the routine is not an unsigned one with a negative
number, the unsigned type holds the magnitude, and a padded field begins with a sign.
-/

import Carmel.Text.Itoa

namespace Carmel.Text

open Carmel.Math

/-- The routines that write a number, with their settings. -/
inductive Routine
  | utoa
  | utos
  | itoa (positiveSign : Bool)
  | itos
  | appendUtoa
  | appendItoa
  | itoaLeftPad (positiveSign : Bool) (pad : Char) (width : ℕ)
deriving DecidableEq, Repr

namespace Routine

/-- The type of the number that a routine takes. -/
def argument (I : IntType) : Routine → IntType
  | appendUtoa => I.unsignedT
  | appendItoa => I.signedT
  | _ => I

/-- The text in front of a returned position, where the terminating character stands. -/
def terminated (r : Cells × ℕ) : Option (List Char) :=
  if r.1[r.2]? = some (some '\x00') then r.1.string 0 r.2 else none

/-- The text that a routine leaves in fresh memory. -/
def run (I : IntType) : Routine → ℤ → Option (List Char)
  | utoa, n => do
    let (m, p) ← Text.utoa (fresh I.toaBufsize) I.toaBufsize (I.toUnsigned n)
    m.string p I.toaBufsize
  | utos, n => Text.utos I n
  | itoa positiveSign, n => do
    let (m, p) ← Text.itoa I (fresh I.toaBufsize) I.toaBufsize n positiveSign
    m.string p I.toaBufsize
  | itos, n => Text.itos I n
  | appendUtoa, n => (Text.appendUtoa I (fresh I.toaBufsize) 0 n).bind terminated
  | appendItoa, n => (Text.appendItoa I (fresh I.toaBufsize) 0 n).bind terminated
  | itoaLeftPad positiveSign pad width, n => do
    let (m, p) ← Text.itoaLeftPad I (fresh width) 0 width n positiveSign pad
    m.string p width

/-- The numeral of a number, with the sign that is asked for and padding behind it. -/
def wanted (n : ℤ) : Routine → List Char
  | itoa positiveSign => signOf n positiveSign ++ Nat.toDigits 10 n.natAbs
  | itoaLeftPad positiveSign pad width =>
    signOf n positiveSign ++
      (List.replicate (width - ((signOf n positiveSign).length + (Nat.toDigits 10 n.natAbs).length))
        pad ++ Nat.toDigits 10 n.natAbs)
  | _ => signOf n false ++ Nat.toDigits 10 n.natAbs

/-- A field has room for a sign and the digits. -/
def WideEnough (n : ℤ) : Routine → Prop
  | itoaLeftPad _ _ width => (Nat.toDigits 10 n.natAbs).length + 1 ≤ width
  | _ => True

/-- Where a routine writes the numeral. -/
def Proper (I : IntType) (n : ℤ) : Routine → Prop
  | utoa | utos | appendItoa => 0 ≤ n ∧ Fits I n
  | appendUtoa => True
  | itoa _ | itos => Fits I n
  | itoaLeftPad positiveSign _ _ => (n < 0 ∨ positiveSign = true) ∧ Fits I n

end Routine

section Texts

variable (I : IntType) {n : ℤ}

theorem unsignedT_unsignedT : I.unsignedT.unsignedT.bits = I.unsignedT.bits := by
  cases hlisted : I.listed <;> simp [IntType.unsignedT, hlisted]

theorem signedT_unsignedT : I.signedT.unsignedT.bits = I.unsignedT.bits := by
  cases hlisted : I.listed <;> simp [IntType.unsignedT, IntType.signedT, hlisted]

theorem signOf_of_nonneg (h : 0 ≤ n) : signOf n false = [] := by
  rw [signOf, if_neg (by omega)]
  rfl

theorem toDigits_inj {a b : ℕ} (h : Nat.toDigits 10 a = Nat.toDigits 10 b) : a = b := by
  rw [← Nat.ofDigitChars_ten_toDigits (n := a), h, Nat.ofDigitChars_ten_toDigits]

/-- The digits in the unsigned type are those of the number if and only if the type holds it. -/
theorem digitsIn_eq_iff : digitsIn I n = Nat.toDigits 10 n.natAbs ↔ Fits I n := by
  constructor
  · intro h
    have hmod := toDigits_inj h
    rw [Fits, ← hmod]
    exact Nat.mod_lt _ (Nat.two_pow_pos _)
  · intro h
    rw [digitsIn, Nat.mod_eq_of_lt h]

theorem length_digitsIn_le (n : ℤ) :
    (digitsIn I n).length ≤ (Nat.toDigits 10 n.natAbs).length := by
  have hpos : 0 < (Nat.toDigits 10 n.natAbs).length := Nat.length_toDigits_pos
  have hlt := (Nat.length_toDigits_le_iff (b := 10) (n := n.natAbs) (by decide) hpos).mp
    (Nat.le_refl _)
  rw [digitsIn, Nat.length_toDigits_le_iff (by decide) hpos]
  exact Nat.lt_of_le_of_lt (Nat.mod_le _ _) hlt

theorem toDigits_ne_minus_cons (n : ℕ) (l : List Char) :
    (Nat.toDigits 10 n) ≠ '-' :: l := by
  intro h
  have hdigit : ('-' : Char).isDigit = true :=
    Nat.isDigit_of_mem_toDigits (b := 10) (n := n) (by decide) (by decide)
      (h ▸ List.mem_cons_self ..)
  exact absurd hdigit (by decide)

/-- An unsigned routine writes the numeral of what is not negative and fits. -/
theorem unsigned_eq_iff :
    Nat.toDigits 10 (I.toUnsigned n).toNat = signOf n false ++ Nat.toDigits 10 n.natAbs ↔
      0 ≤ n ∧ Fits I n := by
  by_cases hneg : n < 0
  · have hsign : signOf n false = ['-'] := if_pos hneg
    rw [hsign]
    constructor
    · intro h
      exact absurd h (toDigits_ne_minus_cons _ _)
    · intro h
      omega
  · rw [signOf_of_nonneg (by omega), List.nil_append, toNat_toUnsigned (by omega)]
    constructor
    · intro h
      exact ⟨by omega, (digitsIn_eq_iff I).mp h⟩
    · intro h
      exact (digitsIn_eq_iff I).mpr h.2

theorem fits_signedT : Fits I.signedT n ↔ Fits I n := by
  rw [Fits, Fits, signedT_unsignedT]

theorem fits_unsignedT (z : I.unsignedT.Value) : Fits I.unsignedT z := by
  apply fits_of_listed
  cases hlisted : I.listed <;> simp [IntType.unsignedT, hlisted]

end Texts

namespace Routine

section Runs

variable (I : IntType) (n : ℤ)

theorem length_digits_le {U : ℕ} (hbits : U = I.unsignedT.bits) (x : BitVec U) :
    (Nat.toDigits 10 x.toNat).length + 1 ≤ I.toaBufsize := by
  apply length_toDigits_lt_toaBufsize
  rw [← hbits]
  exact x.isLt

theorem run_utoa : utoa.run I n = some (Nat.toDigits 10 (I.toUnsigned n).toNat) := by
  have hroom := length_digits_le I rfl (I.toUnsigned n)
  obtain ⟨m, p, hrun, hstring⟩ := exists_utoa_fresh (I.toUnsigned n) (e := I.toaBufsize) (by omega)
  simp only [run, hrun, Option.bind_eq_bind, Option.bind_some, hstring]

theorem run_itoa (positiveSign : Bool) :
    (itoa positiveSign).run I n = some (signOf n positiveSign ++ digitsIn I n) := by
  obtain ⟨m, p, hrun, hstring⟩ := exists_itoa_fresh I n positiveSign (length_digitsIn I n)
  simp only [run, hrun, Option.bind_eq_bind, Option.bind_some, hstring]

/-- An appended text is what stands in front of the returned position. -/
theorem bind_terminated {m : Cells} {text : List Char} (hroom : text.length + 1 ≤ m.length) :
    (appendText m 0 text).bind terminated = some text := by
  have hcell : (m.place 0 (text ++ ['\x00']))[text.length]? = some (some '\x00') := by
    have hlen : (text.map some : Cells).length = text.length := List.length_map _
    rw [Cells.place, List.take_zero, List.nil_append, List.map_append, List.append_assoc,
      List.getElem?_append_right hlen.le, hlen, Nat.sub_self]
    rfl
  have hstring := Cells.string_place m text (Nat.zero_le _) ['\x00']
  rw [Nat.zero_add] at hstring
  rw [appendText_spec (by omega), Option.bind_some, terminated, Nat.zero_add, hcell, if_pos rfl,
    hstring]

theorem run_appendUtoa (hn : 0 ≤ n) :
    appendUtoa.run I n = some (digitsIn I.unsignedT n) := by
  have hroom : (digitsIn I.unsignedT n).length + 1 ≤ I.toaBufsize := by
    have hsame : digitsIn I.unsignedT n = digitsIn I n := by
      rw [digitsIn, digitsIn, unsignedT_unsignedT]
    rw [hsame]
    exact length_digitsIn I n
  obtain ⟨m, p, hrun, hstring⟩ := exists_itoa_fresh I.unsignedT n false hroom
  rw [signOf_of_nonneg hn, List.nil_append] at hstring
  simp only [run, Text.appendUtoa, hrun, Option.bind_eq_bind, Option.bind_some, hstring]
  exact bind_terminated (by rw [fresh, List.length_replicate]; omega)

theorem run_appendItoa :
    appendItoa.run I n = some (Nat.toDigits 10 (I.signedT.toUnsigned n).toNat) := by
  have hroom := length_digits_le I (signedT_unsignedT I) (I.signedT.toUnsigned n)
  obtain ⟨m, p, hrun, hstring⟩ := exists_utoa_fresh (I.signedT.toUnsigned n) (e := I.toaBufsize)
    (by omega)
  simp only [run, Text.appendItoa, hrun, Option.bind_eq_bind, Option.bind_some, hstring]
  exact bind_terminated (by rw [fresh, List.length_replicate]; omega)

/-- A field whose first character is `c` is filled up to it. -/
theorem exists_field {U : Width} (c : Option Char) (pad : Char) (room : ℕ) (x : BitVec U.bits)
    (hroom : (Nat.toDigits 10 x.toNat).length ≤ room) :
    ∃ m r m', Text.utoa (c :: fresh room) (room + 1) x = some (m, r) ∧ 0 < r ∧
      leftPad m 1 pad r = some m' ∧ m'.string 0 (room + 1) =
        (written [c]).map (· ++ (List.replicate (room - (Nat.toDigits 10 x.toNat).length) pad ++
          Nat.toDigits 10 x.toNat)) := by
  have hlen : (c :: fresh room).length = room + 1 := by simp [fresh]
  obtain ⟨d, hd⟩ : ∃ d, d + (Nat.toDigits 10 x.toNat).length = room :=
    ⟨room - (Nat.toDigits 10 x.toNat).length, by omega⟩
  have hend : 1 + d + (Nat.toDigits 10 x.toNat).length = room + 1 := by omega
  have hdigits := utoa_spec (m := c :: fresh room) x (1 + d) []
  rw [hend, Cells.place_nil, List.append_nil] at hdigits
  have hpads := leftPad_spec (m := c :: fresh room) 1 pad d (Nat.toDigits 10 x.toNat)
    (by rw [hlen]; omega)
  have hgap : room - (Nat.toDigits 10 x.toNat).length = d := by omega
  refine ⟨_, _, _, hdigits (Nat.le_of_eq hlen.symm), by omega, hpads, ?_⟩
  generalize htext : List.replicate d pad ++ Nat.toDigits 10 x.toNat = text
  have htextlen : text.length = room := by
    rw [← htext, List.length_append, List.length_replicate, hd]
  have hplace : Cells.place (c :: fresh room) 1 text = c :: text.map some := by
    rw [Cells.place, List.drop_eq_nil_of_le (by rw [hlen]; omega), List.append_nil]
    rfl
  rw [hplace, Cells.string, List.drop_zero, Nat.sub_zero, List.take_of_length_le (by simp [htextlen]),
    hgap, htext]
  cases c with
  | none => rfl
  | some c => simp only [written, Cells.written_map, Option.map_some, List.singleton_append]

/-- A padded field is written whole if and only if it begins with a sign. -/
theorem run_itoaLeftPad (positiveSign : Bool) (pad : Char) (width : ℕ)
    (hwide : (digitsIn I n).length + 1 ≤ width) :
    (itoaLeftPad positiveSign pad width).run I n = if n < 0 ∨ positiveSign = true then
        some (signOf n positiveSign ++
          (List.replicate (width - 1 - (digitsIn I n).length) pad ++ digitsIn I n))
      else none := by
  obtain ⟨room, rfl⟩ : ∃ room, width = room + 1 := ⟨width - 1, by omega⟩
  have hmagnitude := toNat_magnitude I n
  have hfield := fun c => exists_field c pad room
    (if n < 0 then -I.toUnsigned n else I.toUnsigned n)
    (by rw [hmagnitude]; exact Nat.le_of_succ_le_succ hwide)
  rw [hmagnitude] at hfield
  have hstore : ∀ s : Char, (fresh (room + 1)).store 0 s = some (some s :: fresh room) := fun s => rfl
  rw [Nat.add_sub_cancel]
  unfold run Text.itoaLeftPad signOf
  by_cases hneg : n < 0
  · obtain ⟨m, r, m', hdigits, hr, hpads, hstring⟩ := hfield (some '-')
    simp only [hneg, if_true] at hdigits
    simp only [hneg, if_true, true_or, hstore, Option.bind_eq_bind, Option.bind_some, hdigits, hr,
      hpads, Option.map_some, Nat.zero_add, hstring]
    rfl
  · cases positiveSign with
    | true =>
      obtain ⟨m, r, m', hdigits, hr, hpads, hstring⟩ := hfield (some '+')
      simp only [hneg, if_false] at hdigits
      simp only [hneg, if_true, if_false, or_true, hstore, Option.bind_eq_bind, Option.bind_some,
        hdigits, hr, hpads, Option.map_some, Nat.zero_add, hstring]
      rfl
    | false =>
      obtain ⟨m, r, m', hdigits, hr, hpads, hstring⟩ := hfield none
      simp only [hneg, if_false] at hdigits
      have hfresh : fresh (room + 1) = none :: fresh room := rfl
      simp only [hneg, if_false, Bool.false_eq_true, or_false, hfresh, Option.bind_eq_bind,
        Option.bind_some, hdigits, hr, if_true, hpads, Option.map_some, Nat.zero_add, hstring]
      rfl

end Runs

/-- Padding in front of digits modulo the unsigned type makes other digits only where they fit. -/
theorem padded_eq_iff {I : IntType} (n : ℤ) (hn : I.listed = true → Fits I n) (pad : Char)
    {width : ℕ} (hwide : (Nat.toDigits 10 n.natAbs).length ≤ width) :
    List.replicate (width - (digitsIn I n).length) pad ++ digitsIn I n =
        List.replicate (width - (Nat.toDigits 10 n.natAbs).length) pad ++ Nat.toDigits 10 n.natAbs ↔
      Fits I n := by
  constructor
  · intro h
    by_cases hlisted : I.listed = true
    · exact hn hlisted
    · have hbits : I.unsignedT.bits = 32 := by rw [IntType.unsignedT, if_neg hlisted]
      have hlen := length_digitsIn_le I n
      obtain ⟨t, ht⟩ : ∃ t, width - (digitsIn I n).length =
          width - (Nat.toDigits 10 n.natAbs).length + t :=
        ⟨width - (digitsIn I n).length - (width - (Nat.toDigits 10 n.natAbs).length), by omega⟩
      rw [ht, List.replicate_add, List.append_assoc] at h
      have htail := List.append_cancel_left h
      rw [digitsIn, hbits] at htail
      rw [Fits, hbits]
      exact eq_of_replicate_append_toDigits htail
  · intro h
    rw [(digitsIn_eq_iff I).mpr h]

/-- A routine writes the numeral of a number if and only if it is proper for it. -/
theorem run_eq_wanted_iff (I : IntType) (r : Routine) (z : (r.argument I).Value)
    (hwide : r.WideEnough z) : r.run I z = some (r.wanted z) ↔ r.Proper I z := by
  cases r with
  | utoa => rw [run_utoa, Option.some_inj]; exact unsigned_eq_iff I
  | utos =>
    have hrun : utos.run I z = some (Nat.toDigits 10 (I.toUnsigned z).toNat) := run_utoa I z
    rw [hrun, Option.some_inj]
    exact unsigned_eq_iff I
  | itoa positiveSign =>
    rw [run_itoa, Option.some_inj, wanted, List.append_cancel_left_eq]
    exact digitsIn_eq_iff I
  | itos =>
    have hrun : itos.run I z = some (signOf z false ++ digitsIn I z) := run_itoa I z false
    have hwanted : itos.wanted z = signOf z false ++ Nat.toDigits 10 z.val.natAbs := rfl
    rw [hrun, hwanted, Option.some_inj, List.append_cancel_left_eq]
    exact digitsIn_eq_iff I
  | appendUtoa =>
    have hlower : I.unsignedT.lower = 0 := by
      cases hlisted : I.listed <;> simp [IntType.unsignedT, IntType.lower, hlisted]
    have hnonneg : 0 ≤ z.val := hlower ▸ z.property.1
    have hwanted : appendUtoa.wanted z = signOf z false ++ Nat.toDigits 10 z.val.natAbs := rfl
    rw [run_appendUtoa I _ hnonneg, hwanted, Option.some_inj, signOf_of_nonneg hnonneg,
      List.nil_append, digitsIn_eq_iff]
    exact ⟨fun _ => trivial, fun _ => fits_unsignedT I z⟩
  | appendItoa =>
    have hwanted : appendItoa.wanted z = signOf z false ++ Nat.toDigits 10 z.val.natAbs := rfl
    rw [run_appendItoa, hwanted, Option.some_inj, unsigned_eq_iff I.signedT, fits_signedT]
    rfl
  | itoaLeftPad positiveSign pad width =>
    have hdigits : (Nat.toDigits 10 z.val.natAbs).length + 1 ≤ width := hwide
    have hshorter := length_digitsIn_le I z.val
    rw [run_itoaLeftPad I _ positiveSign pad width (by omega)]
    by_cases hsign : z.val < 0 ∨ positiveSign = true
    · have hlen : (signOf z.val positiveSign).length = 1 := by
        unfold signOf
        rcases hsign with hneg | hplus
        · rw [if_pos hneg]
          rfl
        · rw [hplus]
          split <;> rfl
      rw [if_pos hsign, Option.some_inj, wanted, List.append_cancel_left_eq, hlen,
        ← Nat.sub_sub, padded_eq_iff (I := I) z.val (fun h => fits_of_listed h z) pad (by omega)]
      exact ⟨fun h => ⟨hsign, h⟩, fun h => h.2⟩
    · rw [if_neg hsign]
      exact ⟨fun h => absurd h (by simp), fun h => absurd h.1 hsign⟩

end Routine

section Reading

variable {w : ℕ} {rest : List Char}

theorem leading_toDigits (n : ℕ) (hrest : NoDigitAhead rest) :
    leading 0 (Nat.toDigits 10 n ++ rest) = n := by
  have hdigits : ∀ c ∈ Nat.toDigits 10 n, c.isDigit = true :=
    fun c hc => Nat.isDigit_of_mem_toDigits (by decide) (by decide) hc
  rw [(leading_append hdigits hrest 0).1, Nat.ofDigitChars_ten_toDigits]

theorem head?_toDigits_append (n : ℕ) (rest : List Char) :
    (Nat.toDigits 10 n ++ rest).head? ≠ some '-' := by
  intro h
  cases hdigits : Nat.toDigits 10 n with
  | nil => exact Nat.toDigits_ne_nil hdigits
  | cons c ds =>
    rw [hdigits, List.cons_append, List.head?_cons, Option.some_inj] at h
    exact toDigits_ne_minus_cons n ds (h ▸ hdigits)

/-- A numeral is read back modulo the width, the least number included. -/
theorem atoiFast_numeral (n : ℤ) (hrest : NoDigitAhead rest) :
    atoiFast w (signOf n false ++ (Nat.toDigits 10 n.natAbs ++ rest)) = BitVec.ofInt w n := by
  by_cases hneg : n < 0
  · have hsign : signOf n false = ['-'] := if_pos hneg
    have habs : (n.natAbs : ℤ) = -n := by omega
    rw [hsign, List.singleton_append, atoiFast_neg, leading_toDigits _ hrest,
      ← BitVec.ofInt_natCast, habs, BitVec.ofInt_neg, BitVec.neg_neg]
  · have habs : (n.natAbs : ℤ) = n := by omega
    rw [signOf_of_nonneg (by omega), List.nil_append, atoiFast_of_ne (head?_toDigits_append _ _),
      leading_toDigits _ hrest, ← BitVec.ofInt_natCast, habs]

theorem atouFast_numeral {n : ℤ} (hn : 0 ≤ n) (hrest : NoDigitAhead rest) :
    atouFast w (Nat.toDigits 10 n.natAbs ++ rest) = BitVec.ofInt w n := by
  have habs : (n.natAbs : ℤ) = n := by omega
  rw [atouFast_eq, leading_toDigits _ hrest, ← BitVec.ofInt_natCast, habs]

/-- A plus sign is no digit: `atoi_fast` reads nothing behind it. -/
theorem atoiFast_plus (text : List Char) : atoiFast w ('+' :: text) = 0 :=
  (atoiFast_of_ne (by simp)).trans
    (congrArg (BitVec.ofNat w) (leading_of_not_isDigit (by decide) 0 text))

theorem IntType.Value.ofInt_eq_zero_iff {I : IntType} (z : I.Value) (hz : 0 ≤ z.val) :
    BitVec.ofInt I.bits z = 0 ↔ z.val = 0 := by
  have hupper : z.val < (2 ^ I.bits : ℕ) := by
    have hpow : 2 ^ I.bits = 2 * 2 ^ (I.bits - 1) := by
      have hchar := I.char_le
      rw [← Nat.pow_succ', Nat.succ_eq_add_one, Nat.sub_add_cancel (by omega)]
    have hupper := z.property.2
    have hpos : 0 < 2 ^ (I.bits - 1) := Nat.two_pow_pos _
    have hcast : ((2 ^ I.bits : ℕ) : ℤ) = 2 ^ I.bits := by push_cast; rfl
    have hcast' : ((2 ^ (I.bits - 1) : ℕ) : ℤ) = 2 ^ (I.bits - 1) := by push_cast; rfl
    unfold IntType.upper at hupper
    split at hupper <;> omega
  constructor
  · intro h
    have hnat := congrArg BitVec.toNat h
    rw [BitVec.toNat_ofInt, Int.emod_eq_of_lt hz hupper] at hnat
    have hzero : (0 : BitVec I.bits).toNat = 0 := BitVec.toNat_zero
    omega
  · intro h
    rw [h]
    rfl

end Reading

/-- Every routine writes the numeral of every number it takes exactly where it is proper for it,
and the readers give every number back from its numeral, but not from behind a plus sign. -/
theorem routines_write_and_read_iff (I : IntType) :
    (∀ (r : Routine) (z : (r.argument I).Value), r.WideEnough z →
      (r.run I z = some (r.wanted z) ↔ r.Proper I z)) ∧
    ∀ (z : I.Value) (rest : List Char), NoDigitAhead rest →
      atoiFast I.bits (signOf z false ++ (Nat.toDigits 10 z.val.natAbs ++ rest)) =
          BitVec.ofInt I.bits z ∧
        (0 ≤ z.val → atouFast I.bits (Nat.toDigits 10 z.val.natAbs ++ rest) =
          BitVec.ofInt I.bits z) ∧
        (0 ≤ z.val → (atoiFast I.bits ('+' :: (Nat.toDigits 10 z.val.natAbs ++ rest)) =
          BitVec.ofInt I.bits z ↔ z.val = 0)) := by
  constructor
  · exact fun r z hwide => Routine.run_eq_wanted_iff I r z hwide
  · intro z rest hrest
    refine ⟨atoiFast_numeral _ hrest, fun hz => atouFast_numeral hz hrest, fun hz => ?_⟩
    rw [atoiFast_plus, eq_comm, z.ofInt_eq_zero_iff hz]

theorem eight_le_thirtyTwo : 8 ≤ 32 := by decide

/-- `int32_t`. -/
def int32 : IntType := ⟨⟨32, eight_le_thirtyTwo⟩, true, true⟩

/-- Seven in a field of three characters, behind a plus sign, and the least number. -/
theorem routines_write_and_read_seven :
    (Routine.itoaLeftPad true '0' 3).run int32 7 = some ['+', '0', '7'] ∧
      atoiFast 32 "-2147483648".toList = BitVec.ofInt 32 (-2147483648) := by
  have hwide : Routine.WideEnough 7 (.itoaLeftPad true '0' 3) := by
    show (Nat.toDigits 10 7).length + 1 ≤ 3
    decide
  have hfits : Fits int32 7 := by
    show (7 : ℤ).natAbs < 2 ^ 32
    decide
  have hwrites := (routines_write_and_read_iff int32).1 (.itoaLeftPad true '0' 3)
    ⟨7, by decide⟩ hwide
  have hreads := (routines_write_and_read_iff int32).2 ⟨-2147483648, by decide⟩ [] noDigitAhead_nil
  exact ⟨hwrites.mpr ⟨Or.inr rfl, hfits⟩, hreads.1⟩

/-- `append_itoa` writes minus one without its sign, and `itoa_left_pad` leaves the first character
of a field without a sign unwritten. -/
theorem not_routines_write_numerals :
    (Routine.appendItoa.run int32 (-1) = some "4294967295".toList ∧
        Routine.appendItoa.run int32 (-1) ≠ some (Routine.appendItoa.wanted (-1))) ∧
      (Routine.itoaLeftPad false '0' 3).run int32 7 = none := by
  have happend : Routine.appendItoa.run int32 (-1) = some "4294967295".toList := by
    rw [Routine.run_appendItoa]
    decide
  refine ⟨⟨happend, ?_⟩, ?_⟩
  · rw [happend]
    decide
  · rw [Routine.run_itoaLeftPad _ _ _ _ _ (by decide)]
    decide

end Carmel.Text
