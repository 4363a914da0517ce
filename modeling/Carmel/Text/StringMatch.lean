/-
# Matching sequences

Loops that go over two sequences in step. What is in front of two iterators that go down
comes in the reverse order, so `match_end` is `match_begin` from behind. `equal_safe` reads
its second sequence from the end on.
-/

import Carmel.Math.Instances

namespace Carmel.Text

universe u

variable {α : Type u}

section Code

variable [DecidableEq α]

def matchBegin : List α → List α → Bool
  | _, [] => true
  | [], _ :: _ => false
  | x :: str, y :: sub => if y ≠ x then false else matchBegin str sub

def matchEnd (str sub : List α) : Bool := matchBegin str.reverse sub.reverse

def startsWith (equals : α → α → Bool) : List α → List α → Bool
  | _, [] => true
  | [], _ :: _ => false
  | x :: str, y :: pre => if equals y x then startsWith equals str pre else false

/-- With `equal_typeless`. -/
def startsWithStr (str pre : List α) : Bool := startsWith (fun y x => y = x) str pre

def endsWith (str suffix : List α) : Bool := matchEnd str suffix

/-- Where both sequences have elements, `*e2++` is read, which is behind the second one. -/
def equalSafe : List α → List α → Option Bool
  | [], s2 => some s2.isEmpty
  | _ :: _, [] => some false
  | _ :: _, _ :: _ => none

/-- The loop of `expect_consuming`: whether all is there, and what is left in the stream. -/
def expectLoop : List α → List α → Bool × List α
  | i, [] => (true, i)
  | [], _ :: _ => (false, [])
  | c :: i, b :: expected => if c ≠ b then (false, i) else expectLoop i expected

/-- What is left of a stream when white space is skipped, if it is to be. -/
def skipped (space : α → Bool) (skipFirstWs : Bool) (i : List α) : List α :=
  if skipFirstWs then i.dropWhile space else i

def expectConsuming (space : α → Bool) (skipFirstWs : Bool) (i expected : List α) : Bool × List α :=
  if expected = [] then (true, i)
  else
    match skipped space skipFirstWs i with
    | [] => (false, [])
    | _ :: i => expectLoop i expected

/-- It is true where the stream starts with what is expected, which has been consumed then. Where
nothing is expected no white space needs to be. -/
def ExpectsAll (space : α → Bool) (skipFirstWs : Bool) (i expected : List α) : Prop :=
  let result := expectConsuming space skipFirstWs i expected
  (result.1 = true ↔ expected <+: skipped space skipFirstWs i) ∧
    (result.1 = true → expected ++ result.2 = skipped space skipFirstWs i ∨
      (expected = [] ∧ result.2 = i))

end Code

section Match

variable [DecidableEq α] {s t : List α}

theorem matchBegin_iff (s t : List α) : matchBegin s t = true ↔ t <+: s := by
  induction t generalizing s with
  | nil => simp [matchBegin]
  | cons y t ih =>
    cases s with
    | nil => simp [matchBegin]
    | cons x s =>
      rw [matchBegin, List.cons_prefix_cons]
      by_cases hyx : y = x
      · simp [hyx, ih]
      · simp [hyx]

theorem startsWithStr_eq (s t : List α) : startsWithStr s t = matchBegin s t := by
  unfold startsWithStr
  induction t generalizing s with
  | nil => simp [startsWith, matchBegin]
  | cons y t ih =>
    cases s with
    | nil => rfl
    | cons x s => by_cases hyx : y = x <;> simp [startsWith, matchBegin, hyx, ih]

theorem matchEnd_iff (s t : List α) : matchEnd s t = true ↔ t <:+ s := by
  rw [matchEnd, matchBegin_iff, List.reverse_prefix]

theorem equalSafe_iff (s t : List α) :
    equalSafe s t = some (decide (s = t)) ↔ s = [] ∨ t = [] := by
  cases s <;> cases t <;> simp [equalSafe]

theorem expectLoop_eq (s t : List α) : (expectLoop s t).1 = matchBegin s t ∧
    ((expectLoop s t).1 = true → t ++ (expectLoop s t).2 = s) := by
  induction t generalizing s with
  | nil => simp [expectLoop, matchBegin]
  | cons y t ih =>
    cases s with
    | nil => simp [expectLoop, matchBegin]
    | cons x s =>
      rw [expectLoop, matchBegin]
      by_cases hxy : x = y
      · simpa [hxy] using ih s
      · simp [hxy, Ne.symm hxy]

theorem expectsAll_iff (space : α → Bool) (skipFirstWs : Bool) (i expected : List α) :
    ExpectsAll space skipFirstWs i expected ↔ expected = [] ∨
      (¬ expected <+: skipped space skipFirstWs i ∧
        ¬ expected <+: (skipped space skipFirstWs i).tail) := by
  unfold ExpectsAll expectConsuming
  by_cases hnil : expected = []
  · simp [hnil]
  · rw [if_neg hnil]
    cases skipped space skipFirstWs i with
    | nil => simp [hnil]
    | cons x rest =>
      rcases expectLoop_eq rest expected with ⟨hmatch, hrest⟩
      have hiff : (expectLoop rest expected).1 = true ↔ expected <+: rest := by
        rw [hmatch, matchBegin_iff]
      simp only [hiff, hnil, false_and, or_false, false_or, List.tail_cons]
      constructor
      · rintro ⟨hsame, hall⟩
        -- the first character has been read, and it is not in what was expected
        have hno : ¬ expected <+: rest := by
          intro hyes
          have hlong := congrArg List.length (hall hyes)
          rw [hrest (hiff.mpr hyes), List.length_cons] at hlong
          omega
        exact ⟨fun h => hno (hsame.mpr h), hno⟩
      · rintro ⟨hno, hno'⟩
        exact ⟨iff_of_false hno' hno, fun h => absurd h hno'⟩

end Match

end Carmel.Text
