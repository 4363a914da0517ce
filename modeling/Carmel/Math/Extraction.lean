/-
# Formatted extraction

How a stream gives up characters and numbers: white space is passed over, and a
number takes all the digits that follow. What is printed in decimal is read back
from any text that does not go on with a digit.
-/

import Carmel.Math.Instances

namespace Carmel

/-- The characters that a formatted extraction passes over. -/
def isSpace (c : Char) : Bool :=
  c = ' ' || c = '\t' || c = '\n' || c = '\x0b' || c = '\x0c' || c = '\r'

namespace Math

/-- Where a formatted extraction begins. -/
def skipSpaces (text : List Char) : List Char := text.dropWhile isSpace

/-- The number at the front of a text, and the text after it. -/
def readNumber (text : List Char) : Option (ℕ × List Char) :=
  match text.takeWhile Char.isDigit with
  | [] => none
  | d :: ds => some (Nat.ofDigitChars 10 (d :: ds) 0, text.dropWhile Char.isDigit)

/-- A text that does not go on with a digit. -/
def NoDigitAhead (text : List Char) : Prop := ∀ c ∈ text.head?, c.isDigit = false

@[simp] theorem noDigitAhead_nil : NoDigitAhead [] := by simp [NoDigitAhead]

@[simp] theorem noDigitAhead_cons {c : Char} {text : List Char} :
    NoDigitAhead (c :: text) ↔ c.isDigit = false := by
  simp [NoDigitAhead]

theorem skipSpaces_append {ws : List Char} (hws : ∀ c ∈ ws, isSpace c = true) (text : List Char) :
    skipSpaces (ws ++ text) = skipSpaces text := by
  induction ws with
  | nil => rfl
  | cons c ws ih =>
    rw [List.cons_append, skipSpaces, List.dropWhile_cons_of_pos (hws c (List.mem_cons_self ..))]
    exact ih fun d hd => hws d (List.mem_cons_of_mem _ hd)

theorem skipSpaces_cons {c : Char} (hc : isSpace c = false) (text : List Char) :
    skipSpaces (c :: text) = c :: text :=
  List.dropWhile_cons_of_neg (by simp [hc])

theorem isSpace_of_isDigit {c : Char} (h : c.isDigit = true) : isSpace c = false := by
  have hne : ∀ d : Char, d.isDigit = false → c ≠ d := by
    intro d hd heq
    rw [heq, hd] at h
    exact Bool.false_ne_true h
  simp [isSpace, hne ' ' (by decide), hne '\t' (by decide), hne '\n' (by decide),
    hne '\x0b' (by decide), hne '\x0c' (by decide), hne '\r' (by decide)]

theorem readNumber_append {digits text : List Char} (hne : digits ≠ [])
    (hdigits : ∀ c ∈ digits, c.isDigit = true) (h : NoDigitAhead text) :
    readNumber (digits ++ text) = some (Nat.ofDigitChars 10 digits 0, text) := by
  have htake : (digits ++ text).takeWhile Char.isDigit = digits := by
    rw [List.takeWhile_append_of_pos hdigits]
    cases text with
    | nil => simp
    | cons c text => simp [noDigitAhead_cons.mp h]
  have hdrop : (digits ++ text).dropWhile Char.isDigit = text := by
    rw [List.dropWhile_append_of_pos hdigits]
    cases text with
    | nil => rfl
    | cons c text => simp [noDigitAhead_cons.mp h]
  rw [readNumber, htake, hdrop]
  cases digits with
  | nil => exact absurd rfl hne
  | cons d ds => rfl

theorem digitChar_ne_zero : ∀ n < 10, n ≠ 0 → Nat.digitChar n ≠ '0' := by decide

/-- The first digit is zero for the number zero alone. -/
theorem head?_toDigits_ne {n : ℕ} (hn : n ≠ 0) : (Nat.toDigits 10 n).head? ≠ some '0' := by
  induction n using Nat.strongRecOn with
  | ind n ih =>
    rw [Nat.toDigits_eq_if (by decide)]
    split
    · rename_i hlt
      simpa using digitChar_ne_zero n hlt hn
    · rename_i hge
      rw [List.head?_append_of_ne_nil _ Nat.toDigits_ne_nil]
      exact ih (n / 10) (by omega) (by omega)

end Math

end Carmel
