/-
# Subtracting sorted lists

`sorted_subtract` goes over a list and over what is to be taken out of it, both in order,
and compares the element at its iterator before it looks whether the iterator is at the end.
Its first argument is a copy.
-/

import Carmel.Math.Instances

namespace Carmel.Arrays

universe u

variable {T : Type u} [LinearOrder T]

section Code

/-- `while (*i < *i2)`, with what is in front of `i` and from it on. At the end there is no `*i`; so
the test `i == e` in the loop never holds. -/
def skipLess (x : T) : List T → List T → Option (List T × List T)
  | _, [] => none
  | before, y :: rest => if y < x then skipLess x (before ++ [y]) rest else some (before, y :: rest)

/-- `while (*i == *i2)`, up to the end of the list. -/
def eraseEqual (x : T) : List T → List T
  | [] => []
  | y :: rest => if y = x then eraseEqual x rest else y :: rest

/-- The loop over the second list. It returns when the first one has come to its end. -/
def subtractLoop : List T → List T → List T → Option (List T)
  | [], before, rest => some (before ++ rest)
  | x :: b, before, rest => (skipLess x before rest).bind fun s =>
    match eraseEqual x s.2 with
    | [] => some s.1
    | rest => subtractLoop b s.1 rest

def sortedSubtract (a b : List T) : Option (List T) := if a = [] then some a else subtractLoop b [] a

end Code

section Loops

variable {x m : T} {before rest l : List T}

/-- A sorted list is made up of what is less than `x`, equal to it and greater. -/
theorem exists_around (x : T) (h : rest.Pairwise (· ≤ ·)) :
    ∃ less equal more, rest = less ++ (equal ++ more) ∧ (∀ y ∈ less, y < x) ∧
      (∀ y ∈ equal, y = x) ∧ ∀ y ∈ more, x < y := by
  induction h with
  | nil => exact ⟨[], [], [], rfl, nofun, nofun, nofun⟩
  | @cons y rest hy _ ih =>
    rcases lt_or_ge y x with hlt | hge
    · rcases ih with ⟨less, equal, more, rfl, hless, hequal, hmore⟩
      exact ⟨y :: less, equal, more, rfl, List.forall_mem_cons.mpr ⟨hlt, hless⟩, hequal, hmore⟩
    rcases ih with ⟨less, equal, more, rfl, hless, hequal, hmore⟩
    have hnil : less = [] := by
      by_contra hne
      rcases List.exists_mem_of_ne_nil less hne with ⟨z, hz⟩
      exact absurd (lt_of_lt_of_le (hless z hz) hge) (not_lt.mpr (hy z (List.mem_append_left _ hz)))
    subst hnil
    rcases eq_or_lt_of_le hge with heq | hgt
    · exact ⟨[], y :: equal, more, rfl, nofun, List.forall_mem_cons.mpr ⟨heq.symm, hequal⟩, hmore⟩
    · refine ⟨[], [], y :: (equal ++ more), rfl, nofun, nofun, fun z hz => ?_⟩
      rcases List.mem_cons.mp hz with rfl | hmem
      · exact hgt
      · exact lt_of_lt_of_le hgt (hy z hmem)

theorem skipLess_append (hl : ∀ y ∈ l, y < x) (before rest : List T) :
    skipLess x before (l ++ rest) = skipLess x (before ++ l) rest := by
  induction l generalizing before with
  | nil => simp
  | cons y l ih =>
    rw [List.cons_append, skipLess, if_pos (hl y List.mem_cons_self),
      ih fun z hz => hl z (List.mem_cons_of_mem y hz)]
    simp

theorem skipLess_of_le (hne : rest ≠ []) (h : ∀ y ∈ rest, x ≤ y) :
    skipLess x before rest = some (before, rest) := by
  rcases List.exists_cons_of_ne_nil hne with ⟨y, rest, rfl⟩
  rw [skipLess, if_neg (not_lt.mpr (h y List.mem_cons_self))]

theorem eraseEqual_append (hl : ∀ y ∈ l, y = x) (hrest : ∀ y ∈ rest, x < y) :
    eraseEqual x (l ++ rest) = rest := by
  induction l with
  | nil =>
    cases rest with
    | nil => rfl
    | cons y rest => rw [List.nil_append, eraseEqual, if_neg (hrest y List.mem_cons_self).ne']
  | cons y l ih =>
    rw [List.cons_append, eraseEqual, if_pos (hl y List.mem_cons_self),
      ih fun z hz => hl z (List.mem_cons_of_mem y hz)]

/-- The loop needs its last element when something greater is to be taken out. -/
theorem subtractLoop_eq {b : List T} (hb : b.Pairwise (· ≤ ·)) (hrest : rest.Pairwise (· ≤ ·))
    (hlast : rest.getLast? = some m) (before : List T) :
    subtractLoop b before rest =
      if m ∈ b ∨ ∀ x ∈ b, x ≤ m then some (before ++ rest.filter (· ∉ b)) else none := by
  induction hb generalizing rest before with
  | nil => simp [subtractLoop]
  | @cons x b hx _ ih =>
    rcases exists_around x hrest with ⟨less, equal, more, rfl, hless, hequal, hmore⟩
    have hkept : less.filter (· ∉ x :: b) = less := by
      rw [List.filter_eq_self]
      intro y hy
      have hyb : y ∉ b := fun hmem => absurd (hless y hy) (not_lt.mpr (hx y hmem))
      simp [(hless y hy).ne, hyb]
    have herased : equal.filter (· ∉ x :: b) = [] := by
      rw [List.filter_eq_nil_iff]
      intro y hy
      simp [hequal y hy]
    have hrest' : more.filter (· ∉ x :: b) = more.filter (· ∉ b) := by
      apply List.filter_congr
      intro y hy
      simp [(hmore y hy).ne']
    rw [subtractLoop, skipLess_append hless]
    by_cases hend : equal ++ more = []
    · -- all that is left is less than `x`, and the iterator runs to the end
      rw [hend, List.append_nil] at hlast
      have hmx : m < x := hless m (List.mem_of_getLast? hlast)
      have hno : ¬ (m ∈ x :: b ∨ ∀ y ∈ x :: b, y ≤ m) := by
        rintro (hmem | hall)
        · rcases List.mem_cons.mp hmem with heq | hmem
          · exact hmx.ne heq
          · exact absurd hmx (not_lt.mpr (hx m hmem))
        · exact absurd hmx (not_lt.mpr (hall x List.mem_cons_self))
      rw [hend, skipLess, if_neg hno]
      rfl
    · have hle : ∀ y ∈ equal ++ more, x ≤ y := by
        intro y hy
        rcases List.mem_append.mp hy with hmem | hmem
        · exact (hequal y hmem).ge
        · exact (hmore y hmem).le
      rw [List.getLast?_append_of_ne_nil _ hend] at hlast
      have hxm : x ≤ m := hle m (List.mem_of_getLast? hlast)
      rw [skipLess_of_le hend hle, Option.bind_some, List.filter_append, List.filter_append, hkept,
        herased, hrest', List.nil_append]
      simp only [eraseEqual_append hequal hmore]
      cases more with
      | nil =>
        rw [List.append_nil] at hlast
        have hm : m = x := hequal m (List.mem_of_getLast? hlast)
        rw [if_pos (Or.inl (hm ▸ List.mem_cons_self))]
        simp
      | cons y more =>
        have hsorted := (List.pairwise_append.mp (List.pairwise_append.mp hrest).2.1).2.1
        rw [List.getLast?_append_of_ne_nil _ (List.cons_ne_nil y more)] at hlast
        have hne : m ≠ x := (hmore m (List.mem_of_getLast? hlast)).ne'
        have hiff : (m ∈ x :: b ∨ ∀ z ∈ x :: b, z ≤ m) ↔ m ∈ b ∨ ∀ z ∈ b, z ≤ m := by
          rw [List.mem_cons, List.forall_mem_cons, or_iff_right hne, and_iff_right hxm]
        simp only [ih hsorted hlast, hiff, List.append_assoc]

end Loops

/-- **`sorted_subtract`** returns what is not to be taken out, and no end is read, if and only if the
last element is taken out or nothing greater is to be. -/
theorem sortedSubtract_iff {a b : List T} (ha : a.Pairwise (· ≤ ·)) (hb : b.Pairwise (· ≤ ·)) :
    sortedSubtract a b = some (a.filter (· ∉ b)) ↔
      ∀ m, a.getLast? = some m → m ∈ b ∨ ∀ x ∈ b, x ≤ m := by
  cases hlast : a.getLast? with
  | none =>
    rw [List.getLast?_eq_none_iff] at hlast
    simp [hlast, sortedSubtract]
  | some m =>
    have hne : a ≠ [] := by
      rintro rfl
      cases hlast
    rw [sortedSubtract, if_neg hne, subtractLoop_eq hb ha hlast, List.nil_append]
    simp only [Option.some.injEq, forall_eq']
    split_ifs with hlast <;> simp [hlast]

theorem sortedSubtract_four : sortedSubtract [1, 4, 4, 5] [2, 4] = some [1, 5] :=
  (sortedSubtract_iff (by decide) (by decide)).mpr (by simp)

/-- With a greater element to be taken out than any that is there, the end is read. -/
theorem not_sortedSubtract :
    sortedSubtract [1] [2] = none ∧ [1].filter (· ∉ [2]) = [1] := by decide

end Carmel.Arrays
