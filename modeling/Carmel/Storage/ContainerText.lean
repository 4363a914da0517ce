/-
# The text of a container

A container is printed with a comma between its elements. The loop that splits the text
again never moves `start` and finds the same comma for ever; and no text stands for an empty
container, since what follows the last comma is read as one more element.
-/

import Carmel.Forest.Print

namespace Carmel.Storage

/-- `nonstring_container_sep`. -/
def nonstringContainerSep : Char := ','

/-- What reading a container comes to: a container, an exception from reading an
element, or nothing in the rounds that were given. -/
inductive Reading (α : Type)
  | returned (v : List α)
  | threw
  | unfinished
deriving DecidableEq

section Code

variable {α : Type} (write : α → List Char) (read : List Char → Option α)

/-- The loop of `to_string` behind the first element. -/
def appendElements (r : List Char) : List α → List Char
  | [] => r
  | x :: v => appendElements (r ++ [nonstringContainerSep] ++ write x) v

/-- `to_string` of a container whose elements are printed by `write`. -/
def containerToString : List α → List Char
  | [] => []
  | x :: v => appendElements write (write x) v

/-- `str.find(c, start)`. -/
def findFrom (c : Char) (str : List Char) (start : ℕ) : Option ℕ :=
  ((str.drop start).findIdx? (· == c)).map (start + ·)

/-- `append`: a new element at the end takes what `str` reads as. -/
def appendRead (str : List Char) (v : List α) : Option (List α) :=
  (read str).map fun x => v ++ [x]

/-- The loop of `string_to` and the element after it, in at most `fuel` rounds. The
rounds put elements on `v` and keep `start`. -/
def stringToFrom (str : List Char) (start : ℕ) : ℕ → List α → Reading α
  | 0, _ => .unfinished
  | fuel + 1, v =>
    match findFrom nonstringContainerSep str start with
    | some stop =>
      match appendRead read ((str.drop start).take (stop - start)) v with
      | some v' => stringToFrom str start fuel v'
      | none => .threw
    | none =>
      match appendRead read (str.drop start) v with
      | some v' => .returned v'
      | none => .threw

/-- `string_to` into a new container. -/
def containerStringTo (fuel : ℕ) (str : List Char) : Reading α :=
  stringToFrom read str 0 fuel []

end Code

variable {α : Type} {write : α → List Char} {read : List Char → Option α}

theorem findFrom_zero_eq_none {c : Char} {str : List Char} (h : c ∉ str) :
    findFrom c str 0 = none := by
  have hnone : str.findIdx? (· == c) = none := by
    rw [List.findIdx?_eq_none_iff]
    intro d hd
    have hne : d ≠ c := fun heq => h (heq ▸ hd)
    simp [hne]
  simp [findFrom, hnone]

theorem exists_findFrom_zero {c : Char} {str : List Char} (h : c ∈ str) :
    ∃ stop, findFrom c str 0 = some stop := by
  have hsome : (str.findIdx? (· == c)).isSome := by
    rw [List.findIdx?_isSome, List.any_eq_true]
    exact ⟨c, h, by simp⟩
  rcases Option.isSome_iff_exists.mp hsome with ⟨stop, hstop⟩
  exact ⟨stop, by simp [findFrom, hstop]⟩

theorem stringToFrom_ne_returned {str : List Char} {start stop : ℕ}
    (h : findFrom nonstringContainerSep str start = some stop) (fuel : ℕ) (v w : List α) :
    stringToFrom read str start fuel v ≠ .returned w := by
  induction fuel generalizing v with
  | zero => simp [stringToFrom]
  | succ fuel ih =>
    cases hread : appendRead read ((str.drop start).take (stop - start)) v with
    | none => simp [stringToFrom, h, hread]
    | some v' =>
      simp only [stringToFrom, h, hread]
      exact ih v'

/-- No text with a comma in it is read as a container. -/
theorem containerStringTo_ne_returned {str : List Char} (h : nonstringContainerSep ∈ str)
    (fuel : ℕ) (w : List α) : containerStringTo read fuel str ≠ .returned w := by
  rcases exists_findFrom_zero h with ⟨stop, hstop⟩
  exact stringToFrom_ne_returned hstop fuel [] w

theorem containerStringTo_of_not_mem {str : List Char} (h : nonstringContainerSep ∉ str)
    (fuel : ℕ) :
    containerStringTo read (fuel + 1) str = match read str with
      | some x => .returned [x]
      | none => .threw := by
  simp only [containerStringTo, stringToFrom, findFrom_zero_eq_none h, appendRead, List.drop_zero]
  cases read str with
  | none => rfl
  | some x => rfl

theorem length_of_containerStringTo_eq {str : List Char} {fuel : ℕ} {v : List α}
    (h : containerStringTo read fuel str = .returned v) : v.length = 1 := by
  by_cases hsep : nonstringContainerSep ∈ str
  · exact absurd h (containerStringTo_ne_returned hsep fuel v)
  · cases fuel with
    | zero => simp [containerStringTo, stringToFrom] at h
    | succ fuel =>
      rw [containerStringTo_of_not_mem hsep] at h
      cases hread : read str with
      | none => simp [hread] at h
      | some x =>
        simp only [hread, Reading.returned.injEq] at h
        simp [← h]

@[simp] theorem containerToString_singleton (x : α) : containerToString write [x] = write x := rfl

/-- A container comes back from its text exactly when it has one element. -/
theorem containerStringTo_toString_iff {v : List α}
    (hsep : ∀ x ∈ v, nonstringContainerSep ∉ write x)
    (hread : ∀ x ∈ v, read (write x) = some x) :
    (∃ fuel, containerStringTo read fuel (containerToString write v) = .returned v) ↔
      v.length = 1 := by
  constructor
  · intro h
    rcases h with ⟨fuel, h⟩
    exact length_of_containerStringTo_eq h
  · intro h
    rcases List.length_eq_one_iff.mp h with ⟨x, rfl⟩
    have hx : x ∈ [x] := List.mem_cons_self ..
    refine ⟨1, ?_⟩
    rw [containerToString_singleton, containerStringTo_of_not_mem (hsep x hx), hread x hx]

/-- A number that takes a whole text. -/
def readUnsigned (str : List Char) : Option ℕ :=
  match Math.readNumber str with
  | some (n, []) => some n
  | _ => none

theorem containerStringTo_toString_seven :
    (∃ fuel, containerStringTo readUnsigned fuel (containerToString Forest.decimal [7]) =
      .returned [7]) ↔ [7].length = 1 :=
  containerStringTo_toString_iff (by decide) (by decide)

/-- Two numbers are printed and never read. -/
theorem not_containerStringTo_toString_one_two :
    ((∀ x ∈ [1, 2], nonstringContainerSep ∉ Forest.decimal x) ∧
      ∀ x ∈ [1, 2], readUnsigned (Forest.decimal x) = some x) ∧
    ¬ ∃ fuel, containerStringTo readUnsigned fuel (containerToString Forest.decimal [1, 2]) =
      .returned [1, 2] := by
  have hmem : nonstringContainerSep ∈ containerToString Forest.decimal [1, 2] := by decide
  refine ⟨⟨by decide, by decide⟩, ?_⟩
  intro h
  rcases h with ⟨fuel, h⟩
  exact containerStringTo_ne_returned hmem fuel [1, 2] h

end Carmel.Storage
