/-
# Bytes as printable text

`escape3` writes a byte that is not plain as a backslash and two hexadecimal digits.
The test for plain bytes is on a signed `char`, the digits are taken from an unsigned
one. `unescape3` takes either that or a backslash behind a backslash.
-/

import Carmel.Math.Instances

namespace Carmel.Text

abbrev Byte := BitVec 8

section Code

def backslash : Byte := 92

/-- The test is on a `char`, which is signed. -/
def plaintextEscape3 (c : Byte) : Bool := 32 ≤ c.toInt && c.toInt < 127 && c ≠ backslash

/-- `0123456789ABCDEF`. -/
def kHex : List Byte := [48, 49, 50, 51, 52, 53, 54, 55, 56, 57, 65, 66, 67, 68, 69, 70]

def hexAt (n : Byte) : Byte := kHex.getD n.toNat 0

def appendEscape3 (out : List Byte) (c : Byte) : List Byte :=
  if plaintextEscape3 c then out ++ [c] else out ++ [backslash, hexAt (c >>> 4), hexAt (c &&& 15)]

/-- Whether something was left out, and what was written. -/
def escape3 (s : List Byte) (maxlen : ℕ) : Bool × List Byte :=
  let maxlen := if maxlen = 0 ∨ s.length < maxlen then s.length else maxlen
  if maxlen = 0 then (false, [])
  else (maxlen < s.length, (s.take maxlen).foldl appendEscape3 [])

inductive UnescapeError
  | escape3Exception
  | stringToException

def hexdigit (c : Byte) : Except UnescapeError Byte :=
  if 48 ≤ c.toInt ∧ c.toInt ≤ 57 then .ok (c - 48)
  else if 97 ≤ c.toInt ∧ c.toInt ≤ 102 then .ok (10 + c - 97)
  else if 65 ≤ c.toInt ∧ c.toInt ≤ 70 then .ok (10 + c - 65)
  else .error .stringToException

/-- What is appended to the string. -/
def unescape3 : List Byte → Except UnescapeError (List Byte)
  | [] => .ok []
  | c :: rest =>
    if c ≠ backslash then (unescape3 rest).map (c :: ·)
    else
      match rest with
      | [] => .error .escape3Exception
      | c :: rest =>
        if c = backslash then (unescape3 rest).map (c :: ·)
        else
          (hexdigit c).bind fun high =>
            match rest with
            | [] => .error .escape3Exception
            | d :: rest => (hexdigit d).bind fun low =>
              (unescape3 rest).map ((high * 16 + low) :: ·)

end Code

def IsHex (c : Byte) : Prop := ∃ n, hexdigit c = .ok n

/-- From left to right, some backslash is followed neither by a backslash nor by two digits. -/
inductive BadEscape : List Byte → Prop
  | here (rest : List Byte) (hbackslash : rest.head? ≠ some backslash)
      (hhex : ¬ ∃ h l more, rest = h :: l :: more ∧ IsHex h ∧ IsHex l) : BadEscape (backslash :: rest)
  | plain (c : Byte) (rest : List Byte) (hc : c ≠ backslash) (h : BadEscape rest) :
      BadEscape (c :: rest)
  | backslash (rest : List Byte) (h : BadEscape rest) :
      BadEscape (Text.backslash :: Text.backslash :: rest)
  | hex (h l : Byte) (rest : List Byte) (hh : IsHex h) (hl : IsHex l) (hbad : BadEscape rest) :
      BadEscape (Text.backslash :: h :: l :: rest)

section Escape

variable {c : Byte} {s rest : List Byte}

/-- What stands for one byte. -/
def escaped (c : Byte) : List Byte :=
  if plaintextEscape3 c then [c] else [backslash, hexAt (c >>> 4), hexAt (c &&& 15)]

theorem escape3_eq (s : List Byte) : (escape3 s 0).2 = s.flatMap escaped := by
  have hfold : ∀ out, s.foldl appendEscape3 out = out ++ s.flatMap escaped := by
    induction s with
    | nil => simp
    | cons c s ih =>
      intro out
      rw [List.foldl_cons, ih, List.flatMap_cons, appendEscape3, escaped]
      split_ifs <;> rw [List.append_assoc]
  cases s with
  | nil => rfl
  | cons c s => simpa [escape3] using hfold []

theorem plaintext_range (h : plaintextEscape3 c = true) :
    (32 ≤ c.toNat ∧ c.toNat < 127) ∧ c ≠ backslash := by
  have hc := c.isLt
  simp only [plaintextEscape3, Bool.and_eq_true, decide_eq_true_eq, BitVec.toInt_eq_toNat_cond] at h
  rcases h with ⟨⟨hlow, hhigh⟩, hne⟩
  refine ⟨?_, by simpa using hne⟩
  split_ifs at hlow hhigh <;> omega

/-- A digit is printable, is no backslash and stands for its number. -/
theorem hexAt_spec : ∀ n : Fin 16, let c := hexAt (BitVec.ofNat 8 n)
    (32 ≤ c.toNat ∧ c.toNat < 127) ∧ c ≠ backslash ∧ hexdigit c = .ok (BitVec.ofNat 8 n) := by
  intro n
  fin_cases n <;> exact ⟨by decide, by decide, rfl⟩

theorem exists_nibbles (c : Byte) : ∃ high low : Fin 16, c >>> 4 = BitVec.ofNat 8 high ∧
    c &&& 15 = BitVec.ofNat 8 low ∧ BitVec.ofNat 8 high * 16 + BitVec.ofNat 8 low = c := by
  have hc := c.isLt
  have hmask : c.toNat &&& (15 : Byte).toNat = c.toNat % 16 :=
    Nat.and_two_pow_sub_one_eq_mod c.toNat 4
  have htimes : (16 : Byte).toNat = 16 := rfl
  refine ⟨⟨c.toNat / 16, by omega⟩, ⟨c.toNat % 16, by omega⟩, ?_, ?_, ?_⟩ <;>
    apply BitVec.eq_of_toNat_eq
  · simp only [BitVec.toNat_ushiftRight, Nat.shiftRight_eq_div_pow, BitVec.toNat_ofNat]
    omega
  · simp only [BitVec.toNat_and, BitVec.toNat_ofNat, hmask]
    omega
  · simp only [BitVec.toNat_add, BitVec.toNat_mul, BitVec.toNat_ofNat, htimes]
    omega

theorem unescape3_plain (hc : c ≠ backslash) (rest : List Byte) :
    unescape3 (c :: rest) = (unescape3 rest).map (c :: ·) := by
  rw [unescape3.eq_def]
  simp only [if_pos hc]

theorem unescape3_backslash (rest : List Byte) :
    unescape3 (backslash :: backslash :: rest) = (unescape3 rest).map (backslash :: ·) := by
  rw [unescape3.eq_def]
  simp

theorem unescape3_hex (hc : c ≠ backslash) (d : Byte) (rest : List Byte) :
    unescape3 (backslash :: c :: d :: rest) = (hexdigit c).bind fun high =>
      (hexdigit d).bind fun low => (unescape3 rest).map ((high * 16 + low) :: ·) := by
  rw [unescape3.eq_def]
  simp [hc]

theorem escaped_spec (c : Byte) : (∀ d ∈ escaped c, 32 ≤ d.toNat ∧ d.toNat < 127) ∧
    (escaped c).length ≤ 3 ∧
    ∀ rest, unescape3 (escaped c ++ rest) = (unescape3 rest).map (c :: ·) := by
  unfold escaped
  by_cases hplain : plaintextEscape3 c = true
  · rw [if_pos hplain]
    rcases plaintext_range hplain with ⟨hrange, hne⟩
    refine ⟨by simpa using hrange, by simp, fun rest => ?_⟩
    rw [List.singleton_append, unescape3_plain hne]
  · rw [if_neg hplain]
    rcases exists_nibbles c with ⟨high, low, hhigh, hlow, hsum⟩
    rcases hexAt_spec high with ⟨hrange, hne, hdigit⟩
    rcases hexAt_spec low with ⟨hrange', -, hdigit'⟩
    rw [hhigh, hlow]
    refine ⟨?_, Nat.le_refl 3, fun rest => ?_⟩
    · simp only [List.forall_mem_cons]
      exact ⟨by decide, hrange, hrange', nofun⟩
    · simp only [List.cons_append, List.nil_append, unescape3_hex hne, hdigit, hdigit', Except.bind,
        hsum]

theorem map_eq_error_iff {A B E : Type} {x : Except E A} {f : A → B} :
    (∃ e, x.map f = .error e) ↔ ∃ e, x = .error e := by
  cases x <;> simp [Except.map]

theorem isHex_iff (c : Byte) : IsHex c ↔ ¬ ∃ e, hexdigit c = .error e := by
  unfold IsHex
  cases hexdigit c <;> simp

theorem not_isHex_backslash : ¬ IsHex backslash := by
  rintro ⟨n, hn⟩
  cases hn

/-- A backslash is in front of something that is no backslash and of no two digits. -/
theorem exists_error_of_not_hex (hc : c ≠ backslash)
    (h : ¬ ∃ h l more, c :: rest = h :: l :: more ∧ IsHex h ∧ IsHex l) :
    ∃ e, unescape3 (backslash :: c :: rest) = .error e := by
  cases rest with
  | nil =>
    rw [unescape3.eq_def]
    cases hdigit : hexdigit c <;> simp [hc, hdigit, Except.bind]
  | cons l more =>
    rw [unescape3_hex hc]
    cases hdigit : hexdigit c with
    | error e => exact ⟨e, rfl⟩
    | ok high =>
      have hno : ¬ IsHex l := fun hl => h ⟨c, l, more, rfl, ⟨high, hdigit⟩, hl⟩
      rw [isHex_iff, not_not] at hno
      rcases hno with ⟨e, hl⟩
      exact ⟨e, by rw [hl]; rfl⟩

/-- It throws at a bad backslash and nowhere else. -/
theorem unescape3_error_iff (t : List Byte) : (∃ e, unescape3 t = .error e) ↔ BadEscape t := by
  induction hlen : t.length using Nat.strongRecOn generalizing t with
  | ind n ih =>
    match t, hlen with
    | [], _ => simpa [unescape3] using (nofun : ¬ BadEscape [])
    | c :: rest, hlen =>
      have ih' : ∀ t : List Byte, t.length ≤ rest.length →
          ((∃ e, unescape3 t = .error e) ↔ BadEscape t) := by
        intro t ht
        rw [List.length_cons] at hlen
        exact ih t.length (by omega) t rfl
      by_cases hc : c = backslash
      · subst hc
        match rest with
        | [] =>
          refine iff_of_true ⟨_, by rw [unescape3.eq_def]; rfl⟩ (.here [] (by simp) ?_)
          rintro ⟨_, _, _, h, -⟩
          cases h
        | d :: rest =>
          by_cases hd : d = backslash
          · subst hd
            rw [unescape3_backslash, map_eq_error_iff, ih' rest (Nat.le_succ _)]
            constructor
            · exact .backslash rest
            · intro h
              cases h with
              | here _ hno => exact absurd rfl hno
              | plain _ _ hc => exact absurd rfl hc
              | backslash _ h => exact h
              | hex _ _ _ hh => exact absurd hh not_isHex_backslash
          · by_cases hhex : ∃ h l more, d :: rest = h :: l :: more ∧ IsHex h ∧ IsHex l
            · rcases hhex with ⟨h, l, more, heq, ⟨high, hh⟩, ⟨low, hl⟩⟩
              cases heq
              simp only [unescape3_hex hd, hh, hl, Except.bind, map_eq_error_iff]
              rw [ih' more (by simp; omega)]
              constructor
              · exact .hex d l more ⟨high, hh⟩ ⟨low, hl⟩
              · intro hbad
                cases hbad with
                | here _ _ hno => exact absurd ⟨d, l, more, rfl, ⟨high, hh⟩, ⟨low, hl⟩⟩ hno
                | plain _ _ hc => exact absurd rfl hc
                | backslash => exact absurd rfl hd
                | hex _ _ _ _ _ h => exact h
            · exact iff_of_true (exists_error_of_not_hex hd hhex) (.here _ (by simpa using hd) hhex)
      · rw [unescape3_plain hc, map_eq_error_iff, ih' rest (Nat.le_refl _)]
        constructor
        · exact .plain c rest hc
        · intro h
          cases h with
          | plain _ _ _ h => exact h
          | _ => exact absurd rfl hc

end Escape

end Carmel.Text
