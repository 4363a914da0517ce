/-
# Deleting states in place

`shuffle_removing` moves the states that stay down over the deleted ones, and
rewrites their arcs on the way. Seen from outside, the states that stay keep
their order, and each gets the number that `indices_after_removing` gave it.
-/

import Carmel.Derivations.Explore

namespace Carmel

open Carmel.Math

universe u

/-- The states that stay, in order, each rewritten by `r`. -/
def keptStates {α β : Type u} (r : α → β) : List (Option ℕ) → List α → List β
  | some _ :: ttable, s :: v => r s :: keptStates r ttable v
  | none :: ttable, _ :: v => keptStates r ttable v
  | _, _ => []

section Shuffle

theorem modify_append_cons {α : Type u} (r : α → α) (l rest : List α) (s : α) :
    (l ++ s :: rest).modify l.length r = l ++ r s :: rest := by
  induction l with
  | nil => rfl
  | cons a l ih => simpa using ih

variable {ttable : List (Option ℕ)} {v : List (List GraphArc)}

theorem swapAt_append (moved free rest : List (List GraphArc)) (s : List GraphArc) :
    ∃ free', swapAt (moved ++ free ++ s :: rest) moved.length (moved ++ free).length =
      (moved ++ [s]) ++ free' ++ rest ∧ free'.length = free.length := by
  cases free with
  | nil => exact ⟨[], by simp [swapAt], rfl⟩
  | cons y free =>
    refine ⟨free ++ [y], ?_, by simp⟩
    have hget : (moved ++ y :: free ++ s :: rest).getD (moved ++ y :: free).length [] = s := by
      simp [List.getD_eq_getElem?_getD]
    have hget' : (moved ++ y :: free ++ s :: rest).getD moved.length [] = y := by
      simp [List.getD_eq_getElem?_getD]
    rw [swapAt, hget, hget']
    simp

theorem shuffleFrom_spec (moved free rest : List (List GraphArc))
    (hlen : rest.length + (moved ++ free).length = ttable.length) :
    ∃ left, shuffleFrom ttable rest.length (moved ++ free).length moved.length
        (moved ++ free ++ rest) =
      ((moved ++ keptStates (rewriteGraphState ttable)
          (ttable.drop (moved ++ free).length) rest).length,
        moved ++ keptStates (rewriteGraphState ttable)
          (ttable.drop (moved ++ free).length) rest ++ left) := by
  induction rest generalizing moved free with
  | nil =>
    refine ⟨free, ?_⟩
    have hdrop : ttable.drop (moved ++ free).length = [] :=
      List.drop_eq_nil_of_le (by rw [← hlen]; simp)
    rw [hdrop]
    simp [shuffleFrom, keptStates]
  | cons s rest ih =>
    have hlt : (moved ++ free).length < ttable.length := by
      rw [← hlen, List.length_cons]
      omega
    have hdrop := List.drop_eq_getElem_cons hlt
    have hget : ttable.getD (moved ++ free).length none = ttable[(moved ++ free).length] := by
      rw [List.getD_eq_getElem?_getD, List.getElem?_eq_getElem hlt, Option.getD_some]
    rw [List.length_cons, shuffleFrom, hget, hdrop]
    cases ttable[(moved ++ free).length] with
    | none =>
      -- a deleted state: its place may be overwritten
      have hset : (moved ++ free ++ s :: rest).set (moved ++ free).length [] =
          moved ++ (free ++ [[]]) ++ rest := by
        simp
      have hstep := ih moved (free ++ [[]]) (by simp at hlen ⊢; omega)
      have hi : (moved ++ (free ++ [[]])).length = (moved ++ free).length + 1 := by simp; omega
      simp only [keptStates, hset]
      rwa [hi] at hstep
    | some j =>
      have hmodify := modify_append_cons (rewriteGraphState ttable) (moved ++ free) rest s
      obtain ⟨free', hswap, hfree'⟩ :=
        swapAt_append moved free rest (rewriteGraphState ttable s)
      have hstep := ih (moved ++ [rewriteGraphState ttable s]) free' (by
        simp [hfree'] at hlen ⊢
        omega)
      have hi : (moved ++ [rewriteGraphState ttable s] ++ free').length =
          (moved ++ free).length + 1 := by
        simp [hfree']
        omega
      have hj : (moved ++ [rewriteGraphState ttable s]).length = moved.length + 1 := by simp
      rw [hi, hj] at hstep
      simp only [keptStates, hmodify, hswap]
      simpa using hstep

theorem rewritePrefix_spec (moved rest : List (List GraphArc))
    (hlen : rest.length + moved.length = ttable.length) :
    ∃ moved' rest', rewritePrefix ttable rest.length moved.length (moved ++ rest) =
        (moved'.length, moved' ++ rest') ∧ rest'.length + moved'.length = ttable.length ∧
      moved' ++ keptStates (rewriteGraphState ttable) (ttable.drop moved'.length) rest' =
        moved ++ keptStates (rewriteGraphState ttable) (ttable.drop moved.length) rest := by
  induction rest generalizing moved with
  | nil => exact ⟨moved, [], rfl, hlen, rfl⟩
  | cons s rest ih =>
    have hlt : moved.length < ttable.length := by
      rw [← hlen, List.length_cons]
      omega
    have hdrop := List.drop_eq_getElem_cons hlt
    have hget : ttable.getD moved.length none = ttable[moved.length] := by
      rw [List.getD_eq_getElem?_getD, List.getElem?_eq_getElem hlt, Option.getD_some]
    rw [List.length_cons, rewritePrefix, hget]
    cases hj : ttable[moved.length] with
    | none => exact ⟨moved, s :: rest, rfl, hlen, rfl⟩
    | some j =>
      have hmodify := modify_append_cons (rewriteGraphState ttable) moved rest s
      obtain ⟨moved', rest', hrun, hlen', heq⟩ := ih (moved ++ [rewriteGraphState ttable s])
        (by simp at hlen ⊢; omega)
      rw [List.length_append, List.length_singleton, List.append_assoc,
        List.singleton_append] at hrun
      refine ⟨moved', rest', by simpa only [hmodify] using hrun, hlen', heq.trans ?_⟩
      rw [hdrop, hj]
      simp [keptStates]

theorem shuffleRemoving_eq (hlen : v.length = ttable.length) :
    shuffleRemoving ttable v = keptStates (rewriteGraphState ttable) ttable v := by
  have hlen₀ : v.length + ([] : List (List GraphArc)).length = ttable.length := by simpa using hlen
  obtain ⟨moved, rest, hrun, hlen', heq⟩ := rewritePrefix_spec [] v hlen₀
  have hlen₁ : rest.length + (moved ++ []).length = ttable.length := by simpa using hlen'
  obtain ⟨left, hrun'⟩ := shuffleFrom_spec moved [] rest hlen₁
  have hn : ttable.length - moved.length = rest.length := by omega
  rw [List.nil_append, List.length_nil, hlen] at hrun
  rw [List.append_nil, heq] at hrun'
  simp only [shuffleRemoving, hrun, hn, hrun']
  simp

end Shuffle

section Indices

variable {α β : Type u} {r : α → β} {remove : List Bool} {i j f : ℕ}

theorem length_indicesAfterRemoving : (indicesAfterRemoving remove f).length = remove.length := by
  induction remove generalizing f with
  | nil => rfl
  | cons b remove ih => cases b <;> simp [indicesAfterRemoving, ih]

/-- A state has a new number unless it is marked. -/
theorem exists_newIndex_iff (hi : i < remove.length) :
    (∃ j, (indicesAfterRemoving remove f)[i]? = some (some j)) ↔ remove.getD i false = false := by
  induction remove generalizing f i with
  | nil => exact absurd hi (Nat.not_lt_zero _)
  | cons b remove ih =>
    cases i with
    | zero => cases b <;> simp [indicesAfterRemoving]
    | succ i => cases b <;> simpa [indicesAfterRemoving] using ih (Nat.lt_of_succ_lt_succ hi)

theorem keptStates_getElem? {v : List α} (hlen : v.length = remove.length)
    (hj : (indicesAfterRemoving remove f)[i]? = some (some j)) :
    f ≤ j ∧ (keptStates r (indicesAfterRemoving remove f) v)[j - f]? = v[i]?.map r := by
  induction remove generalizing f i v with
  | nil => simp [indicesAfterRemoving] at hj
  | cons b remove ih =>
    cases v with
    | nil => simp at hlen
    | cons s v =>
      have hlen' : v.length = remove.length := by simpa using hlen
      cases b with
      | true =>
        cases i with
        | zero => simp [indicesAfterRemoving] at hj
        | succ i =>
          simpa [indicesAfterRemoving, keptStates] using
            ih hlen' (by simpa [indicesAfterRemoving] using hj)
      | false =>
        cases i with
        | zero =>
          obtain rfl : f = j := by simpa [indicesAfterRemoving] using hj
          simp [indicesAfterRemoving, keptStates]
        | succ i =>
          obtain ⟨hle, heq⟩ := ih hlen' (by simpa [indicesAfterRemoving] using hj)
          refine ⟨by omega, ?_⟩
          rw [indicesAfterRemoving, keptStates, List.getElem?_cons_succ, ← heq]
          have : j - f = (j - (f + 1)) + 1 := by omega
          rw [this, List.getElem?_cons_succ]

/-- Every number below the new size was given to a state. -/
theorem newIndex_onto {v : List α} (hlen : v.length = remove.length)
    (hj : j < (keptStates r (indicesAfterRemoving remove f) v).length) :
    ∃ i : ℕ, (indicesAfterRemoving remove f)[i]? = some (some (f + j)) := by
  induction remove generalizing f j v with
  | nil => simp [indicesAfterRemoving, keptStates] at hj
  | cons b remove ih =>
    cases v with
    | nil => simp at hlen
    | cons s v =>
      have hlen' : v.length = remove.length := by simpa using hlen
      cases b with
      | true =>
        obtain ⟨i, hi⟩ := ih hlen' hj
        exact ⟨i + 1, by simpa [indicesAfterRemoving] using hi⟩
      | false =>
        cases j with
        | zero => exact ⟨0, by simp [indicesAfterRemoving]⟩
        | succ j =>
          obtain ⟨i, hi⟩ := ih (f := f + 1) hlen' (Nat.lt_of_succ_lt_succ hj)
          refine ⟨i + 1, ?_⟩
          rw [indicesAfterRemoving, List.getElem?_cons_succ, hi]
          congr 2
          omega

theorem le_newIndex (hj : (indicesAfterRemoving remove f)[i]? = some (some j)) : f ≤ j :=
  (keptStates_getElem? (r := id) (v := remove) rfl hj).1

theorem newIndex_injective {i' : ℕ} (hi : (indicesAfterRemoving remove f)[i]? = some (some j))
    (hi' : (indicesAfterRemoving remove f)[i']? = some (some j)) : i = i' := by
  induction remove generalizing f i i' with
  | nil => simp [indicesAfterRemoving] at hi
  | cons b remove ih =>
    cases b with
    | true =>
      cases i <;> cases i' <;> simp [indicesAfterRemoving] at hi hi'
      exact congrArg _ (ih hi hi')
    | false =>
      cases i <;> cases i' <;> simp [indicesAfterRemoving] at hi hi'
      · rfl
      · exact absurd (le_newIndex hi') (by omega)
      · exact absurd (le_newIndex hi) (by omega)
      · exact congrArg _ (ih hi hi')

end Indices

end Carmel
