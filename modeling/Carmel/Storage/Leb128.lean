/-
# Base-128 encoding of unsigned integers

`encode_leb128` writes seven bits a byte, least significant first; the decoders put the
first byte they read on top. A value comes back exactly when its groups of seven bits are a
palindrome. An empty range is read past.
-/

import Carmel.Math.DigitReversal

namespace Carmel

abbrev Byte := BitVec 8

/-- An unsigned integer type of `size` bytes. -/
abbrev Uint (size : ℕ) := BitVec (8 * size)

/-- What a decoder does with the bytes it may read: it returns a value and the
bytes after it, throws `leb128error`, or reads a byte it was not given. -/
inductive Decoding (α : Type)
  | returned (result : α) (rest : List Byte)
  | threw
  | readPastEnd
deriving DecidableEq

namespace Decoding

variable {α β : Type}

/-- Go on with the bytes that were left. -/
def andThen (d : Decoding α) (f : α → List Byte → Decoding β) : Decoding β :=
  match d with
  | returned result rest => f result rest
  | threw => threw
  | readPastEnd => readPastEnd

@[simp] theorem returned_andThen (x : α) (rest : List Byte) (f : α → List Byte → Decoding β) :
    (returned x rest).andThen f = f x rest := rfl

end Decoding

section Code

variable {size : ℕ}

/-- The bytes that `encode_leb128` writes. -/
def encodeLeb128 (x : Uint size) : List Byte :=
  let c := x.setWidth 8
  let x' := x >>> 7
  if x' ≠ 0 then (c ||| 0x80#8) :: encodeLeb128 x' else [c &&& 0x7f#8]
termination_by x.toNat
decreasing_by
  rename_i h
  have hne : (x >>> 7).toNat ≠ 0 := fun h0 => h (BitVec.eq_of_toNat_eq h0)
  simp only [BitVec.toNat_ushiftRight, Nat.shiftRight_eq_div_pow] at hne ⊢
  omega

/-- `leb128_max_bytes`, and `k_max_bytes` of the codec. -/
def leb128MaxBytes (size : ℕ) : ℕ := (size * 8 + 7) / 7

/-- `encode_leb128` with `room` bytes before the end; `none` is the exception. -/
def encodeLeb128Within (room : ℕ) (x : Uint size) : Option (List Byte) :=
  if leb128MaxBytes size > room then none else some (encodeLeb128 x)

/-- The loop of `decode_leb128` without an end. -/
def decodeLoop (x : Uint size) : List Byte → Decoding (Uint size)
  | [] => .readPastEnd
  | c :: rest =>
    let sig := c &&& 0x7f#8
    let x := (x <<< 7) ||| sig.setWidth (8 * size)
    if c = sig then .returned x rest else decodeLoop x rest

/-- The loop of `decode_leb128` with an end; the list ends where `end` is. -/
def decodeLoopBefore (x : Uint size) : List Byte → Decoding (Uint size)
  -- the loop comes here only from a range that is empty at the start
  | [] => .readPastEnd
  | c :: rest =>
    let sig := c &&& 0x7f#8
    let x := (x <<< 7) ||| sig.setWidth (8 * size)
    if c = sig then .returned x rest else if rest = [] then .threw else decodeLoopBefore x rest

def decodeLeb128 (bytes : List Byte) : Decoding (Uint size) := decodeLoop 0 bytes

def decodeLeb128Before (bytes : List Byte) : Decoding (Uint size) := decodeLoopBefore 0 bytes

/-- Whether the largest encodings of `n` values could pass an end that is
`room` bytes away; the product is an `unsigned`. -/
def mayPass (size n room : ℕ) : Prop := leb128MaxBytes size * n % 2 ^ 32 > room

instance (size n room : ℕ) : Decidable (mayPass size n room) := by
  unfold mayPass
  infer_instance

/-- The checking branch of `encodeArray`. -/
def encodeAllWithin (room : ℕ) : List (Uint size) → Option (List Byte)
  | [] => some []
  | x :: xs => do
    let bytes ← encodeLeb128Within room x
    let more ← encodeAllWithin (room - bytes.length) xs
    return bytes ++ more

/-- `encodeArray`. -/
def encodeArray (room : ℕ) (xs : List (Uint size)) : Option (List Byte) :=
  if mayPass size xs.length room then encodeAllWithin room xs
  else some (xs.flatMap encodeLeb128)

/-- The loop of `decodeArray`, with one of the two decoders. -/
def decodeAll (decode : List Byte → Decoding (Uint size)) :
    ℕ → List Byte → Decoding (List (Uint size))
  | 0, bytes => .returned [] bytes
  | n + 1, bytes =>
    (decode bytes).andThen fun x rest =>
      (decodeAll decode n rest).andThen fun xs rest => .returned (x :: xs) rest

/-- `decodeArray`. -/
def decodeArray (n : ℕ) (bytes : List Byte) : Decoding (List (Uint size)) :=
  if mayPass size n bytes.length then decodeAll decodeLeb128Before n bytes
  else decodeAll decodeLeb128 n bytes

end Code

/-- The groups of seven bits of a number, least significant first. -/
def groups (n : ℕ) : List ℕ :=
  if n < 128 then [n] else n % 128 :: groups (n / 128)
termination_by n
decreasing_by omega

theorem groups_of_lt {n : ℕ} (h : n < 128) : groups n = [n] := by
  rw [groups, if_pos h]

theorem groups_of_le {n : ℕ} (h : 128 ≤ n) : groups n = n % 128 :: groups (n / 128) := by
  rw [groups, if_neg (by omega)]

theorem groups_lt (n : ℕ) : ∀ g ∈ groups n, g < 128 := by
  induction n using groups.induct with
  | case1 n h => simp [groups_of_lt h, h]
  | case2 n h ih =>
    rw [groups_of_le (by omega)]
    simp only [List.mem_cons, forall_eq_or_imp]
    exact ⟨Nat.mod_lt _ (by omega), ih⟩

theorem ofDigits_groups (n : ℕ) : Nat.ofDigits 128 (groups n) = n := by
  induction n using groups.induct with
  | case1 n h => simp [groups_of_lt h]
  | case2 n h ih =>
    rw [groups_of_le (by omega), Nat.ofDigits_cons, ih]
    omega

theorem length_groups {n bits : ℕ} (h : n < 2 ^ bits) : (groups n).length ≤ (bits + 7) / 7 := by
  induction n using groups.induct generalizing bits with
  | case1 n hlt => simp [groups_of_lt hlt]
  | case2 n hge ih =>
    have hbits : 7 ≤ bits := by
      by_contra hlt
      have : 2 ^ bits ≤ 2 ^ 7 := Nat.pow_le_pow_right (by omega) (by omega)
      omega
    obtain ⟨k, rfl⟩ := Nat.exists_eq_add_of_le hbits
    have hdiv : n / 128 < 2 ^ k := by
      rw [pow_add] at h
      omega
    rw [groups_of_le (by omega), List.length_cons]
    have := ih hdiv
    omega

theorem pow_length_groups_le {n : ℕ} (h : 2 ≤ (groups n).length) :
    128 ^ ((groups n).length - 1) ≤ n := by
  induction n using groups.induct with
  | case1 n hlt => simp [groups_of_lt hlt] at h
  | case2 n hge ih =>
    rw [groups_of_le (by omega), List.length_cons, Nat.add_sub_cancel]
    by_cases hlen : 2 ≤ (groups (n / 128)).length
    · obtain ⟨k, hk⟩ := Nat.exists_eq_add_of_le hlen
      have := ih hlen
      rw [hk] at this ⊢
      rw [show 2 + k = (2 + k - 1) + 1 by omega, pow_succ]
      omega
    · have hone : (groups (n / 128)).length ≤ 1 := by omega
      calc 128 ^ (groups (n / 128)).length ≤ 128 ^ 1 := Nat.pow_le_pow_right (by omega) hone
        _ ≤ n := by omega

section Correctness

variable {size : ℕ}

theorem toNat_shiftRight_seven (x : Uint size) : (x >>> 7).toNat = x.toNat / 128 := by
  rw [BitVec.toNat_ushiftRight, Nat.shiftRight_eq_div_pow]

theorem and_payload (c : Byte) : c &&& 0x7f#8 = BitVec.ofNat 8 (c.toNat % 128) := by
  revert c
  decide

theorem or_continue (c : Byte) : c ||| 0x80#8 = BitVec.ofNat 8 (c.toNat % 128 + 128) := by
  revert c
  decide

theorem encodeLeb128_of_lt {x : Uint size} (h : x.toNat < 128) :
    encodeLeb128 x = [BitVec.ofNat 8 x.toNat] := by
  have hzero : x >>> 7 = 0 := by
    apply BitVec.eq_of_toNat_eq
    rw [toNat_shiftRight_seven, Nat.div_eq_of_lt h]
    rfl
  have hbyte : x.setWidth 8 &&& 0x7f#8 = BitVec.ofNat 8 x.toNat := by
    rw [and_payload, BitVec.toNat_setWidth]
    congr 1
    omega
  rw [encodeLeb128, if_neg (by simp [hzero]), hbyte]

/-- A byte with its continuation bit, and the encoding of what is left. -/
theorem encodeLeb128_of_le {x : Uint size} (h : 128 ≤ x.toNat) :
    encodeLeb128 x = BitVec.ofNat 8 (x.toNat % 128 + 128) :: encodeLeb128 (x >>> 7) := by
  have hne : x >>> 7 ≠ 0 := by
    intro hzero
    have := toNat_shiftRight_seven x
    rw [hzero, show (0 : Uint size).toNat = 0 by simp] at this
    omega
  have hbyte : x.setWidth 8 ||| 0x80#8 = BitVec.ofNat 8 (x.toNat % 128 + 128) := by
    rw [or_continue, BitVec.toNat_setWidth]
    congr 2
    omega
  rw [encodeLeb128, if_pos hne, hbyte]

theorem length_encodeLeb128 (x : Uint size) :
    (encodeLeb128 x).length = (groups x.toNat).length := by
  induction x using encodeLeb128.induct with
  | case1 x x' hne ih =>
    have hle : 128 ≤ x.toNat := by
      by_contra hlt
      apply hne
      apply BitVec.eq_of_toNat_eq
      rw [toNat_shiftRight_seven, Nat.div_eq_of_lt (by omega)]
      rfl
    rw [encodeLeb128_of_le hle, groups_of_le hle, List.length_cons, List.length_cons, ih,
      toNat_shiftRight_seven]
  | case2 x x' hzero =>
    have hlt : x.toNat < 128 := by
      have := toNat_shiftRight_seven x
      rw [show x >>> 7 = 0 from not_not.mp hzero, show (0 : Uint size).toNat = 0 by simp] at this
      omega
    rw [encodeLeb128_of_lt hlt, groups_of_lt hlt]
    rfl

/-- An encoding takes at most `leb128_max_bytes` bytes. -/
theorem length_encodeLeb128_le (x : Uint size) :
    (encodeLeb128 x).length ≤ leb128MaxBytes size := by
  have h := length_groups x.isLt
  rw [length_encodeLeb128, leb128MaxBytes]
  omega

/-- A byte whose top bit is clear ends a value. -/
def Terminates (c : Byte) : Prop := c = c &&& 0x7f#8

theorem terminates_ofNat {n : ℕ} (h : n < 128) : Terminates (BitVec.ofNat 8 n) := by
  have hall : ∀ c : Byte, c.toNat < 128 → c = c &&& 0x7f#8 := by decide
  apply hall
  rw [BitVec.toNat_ofNat]
  omega

theorem not_terminates_ofNat {n : ℕ} (h : n < 128) :
    ¬ Terminates (BitVec.ofNat 8 (n + 128)) := by
  have hall : ∀ c : Byte, 128 ≤ c.toNat → ¬ c = c &&& 0x7f#8 := by decide
  apply hall
  rw [BitVec.toNat_ofNat]
  omega

/-- What one byte does to the value read so far. -/
theorem shift_or (hsize : 0 < size) {n g : ℕ} (hg : g < 128) :
    (BitVec.ofNat (8 * size) n <<< 7) ||| (BitVec.ofNat 8 g).setWidth (8 * size) =
      BitVec.ofNat (8 * size) (n * 128 + g) := by
  obtain ⟨k, hk⟩ : ∃ k, 8 * size = 7 + k := Nat.exists_eq_add_of_le (by omega)
  have hpow : (2 : ℕ) ^ (8 * size) = 128 * 2 ^ k := by rw [hk, pow_add]; norm_num
  have hshift : n % 2 ^ (8 * size) * 128 % 2 ^ (8 * size) = 2 ^ 7 * (n % 2 ^ k) := by
    rw [Nat.mod_mul_mod, hpow, Nat.mul_comm n 128, Nat.mul_mod_mul_left]
    norm_num
  have hpos : 1 ≤ 2 ^ k := Nat.one_le_two_pow
  have hsmall : g % 2 ^ 8 % 2 ^ (8 * size) = g := by
    rw [Nat.mod_eq_of_lt (by omega : g < 2 ^ 8), Nat.mod_eq_of_lt (by omega)]
  have hright : (n * 128 + g) % 2 ^ (8 * size) = 2 ^ 7 * (n % 2 ^ k) + g := by
    rw [hpow, Nat.mod_mul, show (n * 128 + g) % 128 = g by omega,
      show (n * 128 + g) / 128 = n by omega]
    ring
  apply BitVec.eq_of_toNat_eq
  rw [BitVec.toNat_or, BitVec.toNat_shiftLeft, BitVec.toNat_setWidth, BitVec.toNat_ofNat,
    BitVec.toNat_ofNat, BitVec.toNat_ofNat, Nat.shiftLeft_eq, show 2 ^ 7 = 128 from rfl, hshift,
    hsmall, hright, Nat.two_pow_add_eq_or_of_lt hg]

/-- The decoder folds the groups it reads with the first one on top. -/
theorem decodeLoop_encode (hsize : 0 < size) (x : Uint size) (n : ℕ) (rest : List Byte) :
    decodeLoop (BitVec.ofNat (8 * size) n) (encodeLeb128 x ++ rest) =
      .returned (BitVec.ofNat (8 * size) ((groups x.toNat).foldl (fun a g => a * 128 + g) n))
        rest := by
  by_cases h : x.toNat < 128
  · rw [encodeLeb128_of_lt h, groups_of_lt h, List.cons_append, List.nil_append, decodeLoop]
    have hend := terminates_ofNat h
    unfold Terminates at hend
    simp only [← hend, if_true, shift_or hsize h, List.foldl_cons, List.foldl_nil]
  · have hle : 128 ≤ x.toNat := by omega
    have hg : x.toNat % 128 < 128 := Nat.mod_lt _ (by omega)
    rw [encodeLeb128_of_le hle, groups_of_le hle, List.cons_append, decodeLoop]
    have hmore := not_terminates_ofNat hg
    unfold Terminates at hmore
    have hsig : BitVec.ofNat 8 (x.toNat % 128 + 128) &&& 0x7f#8 = BitVec.ofNat 8 (x.toNat % 128) := by
      rw [and_payload, BitVec.toNat_ofNat]
      congr 1
      omega
    rw [hsig] at hmore
    simp only [hsig, hmore, if_false, shift_or hsize hg]
    rw [decodeLoop_encode hsize (x >>> 7), toNat_shiftRight_seven, List.foldl_cons]
termination_by x.toNat
decreasing_by
  rw [toNat_shiftRight_seven]
  omega

/-- With a terminating byte in its range the checking decoder is the other one. -/
theorem decodeLoopBefore_eq {bytes : List Byte} (h : ∃ c ∈ bytes, Terminates c) (x : Uint size) :
    decodeLoopBefore x bytes = decodeLoop x bytes := by
  induction bytes generalizing x with
  | nil => simp at h
  | cons c rest ih =>
    rw [decodeLoopBefore, decodeLoop]
    by_cases hc : c = c &&& 0x7f#8
    · simp only [← hc, if_true]
    · have hrest : ∃ c ∈ rest, Terminates c := by
        rcases h with ⟨d, hd, hdt⟩
        rcases List.mem_cons.mp hd with rfl | hd
        · exact absurd hdt hc
        · exact ⟨d, hd, hdt⟩
      have hne : rest ≠ [] := by
        intro hnil
        simp [hnil] at hrest
      simp only [hc, hne, if_false]
      exact ih hrest _

/-- Without one it throws after the last byte, unless there was no byte at all. -/
theorem decodeLoopBefore_of_none {bytes : List Byte} (h : ∀ c ∈ bytes, ¬ Terminates c)
    (hne : bytes ≠ []) (x : Uint size) : decodeLoopBefore x bytes = .threw := by
  induction bytes generalizing x with
  | nil => exact absurd rfl hne
  | cons c rest ih =>
    have hc : ¬ c = c &&& 0x7f#8 := h c (List.mem_cons_self ..)
    rw [decodeLoopBefore]
    by_cases hrest : rest = []
    · simp only [hc, hrest, if_true, if_false]
    · simp only [hc, hrest, if_false]
      exact ih (fun d hd => h d (List.mem_cons_of_mem _ hd)) hrest _

theorem encodeLeb128_terminates (x : Uint size) : ∃ c ∈ encodeLeb128 x, Terminates c := by
  by_cases h : x.toNat < 128
  · rw [encodeLeb128_of_lt h]
    exact ⟨_, List.mem_singleton_self _, terminates_ofNat h⟩
  · rw [encodeLeb128_of_le (by omega)]
    obtain ⟨c, hc, hend⟩ := encodeLeb128_terminates (x >>> 7)
    exact ⟨c, List.mem_cons_of_mem _ hc, hend⟩
termination_by x.toNat
decreasing_by
  rw [toNat_shiftRight_seven]
  omega

/-- What comes back: the groups read from the other end. -/
def reversedGroups (x : Uint size) : Uint size :=
  BitVec.ofNat (8 * size) (Nat.ofDigits 128 (groups x.toNat).reverse)

theorem decodeLeb128_encode (hsize : 0 < size) (x : Uint size) (rest : List Byte) :
    decodeLeb128 (encodeLeb128 x ++ rest) = .returned (reversedGroups x) rest := by
  have h := decodeLoop_encode hsize x 0 rest
  rw [Math.foldl_digits, Nat.zero_mul, Nat.zero_add] at h
  exact h

theorem decodeLeb128Before_encode (hsize : 0 < size) (x : Uint size) (rest : List Byte) :
    decodeLeb128Before (encodeLeb128 x ++ rest) = .returned (reversedGroups x) rest := by
  obtain ⟨c, hc, hend⟩ := encodeLeb128_terminates x
  have h := decodeLeb128_encode hsize x rest
  rw [decodeLeb128] at h
  rw [decodeLeb128Before, decodeLoopBefore_eq ⟨c, List.mem_append_left _ hc, hend⟩, h]

/-- A value comes back exactly when its groups are a palindrome. -/
theorem reversedGroups_eq_iff (x : Uint size) :
    reversedGroups x = x ↔ (groups x.toNat).reverse = groups x.toNat := by
  have hdvd : 128 ^ ((groups x.toNat).length - 1) ∣ 2 ^ (8 * size) := by
    by_cases hlen : 2 ≤ (groups x.toNat).length
    · have hlt : 128 ^ ((groups x.toNat).length - 1) < 2 ^ (8 * size) :=
        lt_of_le_of_lt (pow_length_groups_le hlen) x.isLt
      rw [show (128 : ℕ) = 2 ^ 7 from rfl, ← pow_mul] at hlt ⊢
      exact Nat.pow_dvd_pow 2 ((Nat.pow_lt_pow_iff_right (by omega)).mp hlt).le
    · rw [show (groups x.toNat).length - 1 = 0 by omega, pow_zero]
      exact Nat.one_dvd _
  rw [← Math.ofDigits_reverse_mod_iff (by omega) (groups_lt x.toNat) hdvd, ofDigits_groups,
    Nat.mod_eq_of_lt x.isLt, reversedGroups, BitVec.toNat_eq, BitVec.toNat_ofNat]

theorem encodeAllWithin_eq {room : ℕ} {xs : List (Uint size)} {bytes : List Byte}
    (h : encodeAllWithin room xs = some bytes) : bytes = xs.flatMap encodeLeb128 := by
  induction xs generalizing room bytes with
  | nil => simpa [encodeAllWithin] using h.symm
  | cons x xs ih =>
    simp only [encodeAllWithin, encodeLeb128Within] at h
    by_cases hroom : leb128MaxBytes size > room
    · simp [hroom] at h
    · simp only [hroom, if_false, Option.bind_eq_bind, Option.bind_some,
        Option.bind_eq_some_iff, Option.pure_def, Option.some.injEq] at h
      obtain ⟨more, hmore, rfl⟩ := h
      rw [ih hmore, List.flatMap_cons]

/-- Whichever branch `encodeArray` takes, it writes the encodings in order. -/
theorem encodeArray_eq {room : ℕ} {xs : List (Uint size)} {bytes : List Byte}
    (h : encodeArray room xs = some bytes) : bytes = xs.flatMap encodeLeb128 := by
  unfold encodeArray at h
  by_cases hpass : mayPass size xs.length room
  · rw [if_pos hpass] at h
    exact encodeAllWithin_eq h
  · rw [if_neg hpass] at h
    exact (Option.some.inj h).symm

theorem decodeAll_encode {decode : List Byte → Decoding (Uint size)}
    (hdecode : ∀ (x : Uint size) (rest : List Byte),
      decode (encodeLeb128 x ++ rest) = .returned (reversedGroups x) rest)
    (xs : List (Uint size)) (rest : List Byte) :
    decodeAll decode xs.length (xs.flatMap encodeLeb128 ++ rest) =
      .returned (xs.map reversedGroups) rest := by
  induction xs with
  | nil => rfl
  | cons x xs ih =>
    rw [List.flatMap_cons, List.append_assoc, List.length_cons, decodeAll, hdecode]
    simp only [Decoding.returned_andThen, ih, List.map_cons]

/-- An array comes back with every value's groups reversed. -/
theorem decodeArray_encode (hsize : 0 < size) (xs : List (Uint size)) (rest : List Byte) :
    decodeArray xs.length (xs.flatMap encodeLeb128 ++ rest) =
      .returned (xs.map reversedGroups) rest := by
  unfold decodeArray
  by_cases hpass : mayPass size xs.length (xs.flatMap encodeLeb128 ++ rest).length
  · rw [if_pos hpass]
    exact decodeAll_encode (decodeLeb128Before_encode hsize) xs rest
  · rw [if_neg hpass]
    exact decodeAll_encode (decodeLeb128_encode hsize) xs rest

end Correctness

section RoundTrip

variable {size : ℕ}

/-- Both decoders give a value back and stop after the bytes written for it. -/
def RoundTrips (x : Uint size) (following : List Byte) : Prop :=
  decodeLeb128 (encodeLeb128 x ++ following) = .returned x following ∧
    decodeLeb128Before (encodeLeb128 x ++ following) = .returned x following

/-- The same for an array, whatever room it was written into. -/
def ArrayRoundTrips (xs : List (Uint size)) (following : List Byte) : Prop :=
  ∀ room written, encodeArray room xs = some written →
    decodeArray xs.length (written ++ following) = .returned xs following

end RoundTrip

end Carmel
