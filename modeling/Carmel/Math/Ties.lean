/-
# Sorting with ties

Elements with equal keys may come in any order. Which elements are among the
first `m` of a sorted list is decided by two counts, up to the order of the
ties: how many keys are smaller, and how many are at most as large.
-/

import Carmel.Math.Instances

namespace Carmel.Math

universe u v

variable {α : Type u} {K : Type v} [LinearOrder K] {key : α → K} {l : List α} {a b : α} {m : ℕ}

/-- No element comes before one with a smaller key. -/
def SortedBy (key : α → K) (l : List α) : Prop := l.Pairwise fun a b => key a ≤ key b

instance : Decidable (SortedBy key l) := inferInstanceAs (Decidable (l.Pairwise _))

/-- What is not among the first `m` comes after `m` others. -/
theorem length_take_of_mem_drop (h : a ∈ l.drop m) : (l.take m).length = m := by
  have hne : l.drop m ≠ [] := List.ne_nil_of_mem h
  have hlt : m < l.length := by
    by_contra hm
    exact hne (List.drop_eq_nil_of_le (Nat.le_of_not_lt hm))
  exact List.length_take_of_le (Nat.le_of_lt hlt)

theorem mem_drop_of_not_mem_take (h : a ∈ l) (hnot : a ∉ l.take m) : a ∈ l.drop m := by
  rw [← List.take_append_drop m l] at h
  exact (List.mem_append.mp h).resolve_left hnot

namespace SortedBy

theorem le_of_take_drop (h : SortedBy key l) (ha : a ∈ l.take m) (hb : b ∈ l.drop m) :
    key a ≤ key b := by
  rw [SortedBy, ← List.take_append_drop m l] at h
  exact (List.pairwise_append.mp h).2.2 a ha b hb

/-- What is among the first `m` has fewer than `m` smaller keys. -/
theorem countP_lt_of_mem_take (h : SortedBy key l) (ha : a ∈ l.take m) :
    l.countP (fun b => key b < key a) < m := by
  have hzero : (l.drop m).countP (fun b => key b < key a) = 0 := by
    rw [List.countP_eq_zero]
    intro b hb
    simpa using h.le_of_take_drop ha hb
  have hlt : (l.take m).countP (fun b => key b < key a) < (l.take m).length := by
    refine Nat.lt_of_le_of_ne List.countP_le_length fun heq => ?_
    exact absurd (List.countP_eq_length.mp heq a ha) (by simp)
  rw [← List.take_append_drop m l, List.countP_append, hzero, Nat.add_zero]
  exact Nat.lt_of_lt_of_le hlt (List.length_take_le m l)

/-- Where at most `m` keys are at most as large, the element is among the first `m`. -/
theorem mem_take_of_countP_le (h : SortedBy key l) (ha : a ∈ l)
    (hm : l.countP (fun b => key b ≤ key a) ≤ m) : a ∈ l.take m := by
  by_contra hnot
  have hdrop := mem_drop_of_not_mem_take ha hnot
  have htake : (l.take m).countP (fun b => key b ≤ key a) = m := by
    refine (List.countP_eq_length.mpr fun b hb => ?_).trans (length_take_of_mem_drop hdrop)
    simpa using h.le_of_take_drop hb hdrop
  have hpos : 0 < (l.drop m).countP (fun b => key b ≤ key a) :=
    List.countP_pos_iff.mpr ⟨a, hdrop, by simp⟩
  rw [← List.take_append_drop m l, List.countP_append, htake] at hm
  omega

end SortedBy

section Extreme

variable [DecidableEq α]

/-- First `a`, last `b`. -/
def extremePriority (a b s : α) : ℕ := if s = a then 0 else if s = b then 2 else 1

/-- Keys first, then priorities. -/
def extremeLe (key : α → K) (a b s t : α) : Bool :=
  key s < key t || key s = key t && extremePriority a b s ≤ extremePriority a b t

theorem extremeLe_iff {s t : α} : extremeLe key a b s t = true ↔
    key s < key t ∨ key s = key t ∧ extremePriority a b s ≤ extremePriority a b t := by
  simp [extremeLe]

variable (key) in
/-- **Ties may be broken** so that one element comes as early as its key allows,
and another as late. -/
theorem exists_extreme_order (hnodup : l.Nodup) (hab : a ≠ b) (ha : a ∈ l) :
    ∃ l', l'.Perm l ∧ SortedBy key l' ∧
      (∀ m, l.countP (fun s => key s < key a) < m → a ∈ l'.take m) ∧
      ∀ m, m < l.countP (fun s => key s ≤ key b) → b ∉ l'.take m := by
  have htrans : ∀ r s t, extremeLe key a b r s → extremeLe key a b s t → extremeLe key a b r t := by
    intro r s t hrs hst
    rw [extremeLe_iff] at hrs hst ⊢
    rcases hrs with hrs | ⟨hrs, hp⟩
    · rcases hst with hst | ⟨hst, -⟩
      · exact .inl (hrs.trans hst)
      · exact .inl (hst ▸ hrs)
    · rcases hst with hst | ⟨hst, hp'⟩
      · exact .inl (hrs ▸ hst)
      · exact .inr ⟨hrs.trans hst, Nat.le_trans hp hp'⟩
  have htotal : ∀ s t, (extremeLe key a b s t || extremeLe key a b t s) = true := by
    intro s t
    rw [Bool.or_eq_true, extremeLe_iff, extremeLe_iff]
    rcases lt_trichotomy (key s) (key t) with h | h | h
    · exact .inl (.inl h)
    · rcases Nat.le_total (extremePriority a b s) (extremePriority a b t) with hp | hp
      · exact .inl (.inr ⟨h, hp⟩)
      · exact .inr (.inr ⟨h.symm, hp⟩)
    · exact .inr (.inl h)
  have hperm : (l.mergeSort (extremeLe key a b)).Perm l := List.mergeSort_perm l _
  have hsorted := List.pairwise_mergeSort htrans htotal l
  generalize l.mergeSort (extremeLe key a b) = l' at hperm hsorted
  have hsplit : ∀ m, ∀ s ∈ l'.take m, ∀ t ∈ l'.drop m, extremeLe key a b s t ∧ s ≠ t := by
    intro m s hs t ht
    have hnodup' : (l'.take m ++ l'.drop m).Nodup := by
      rw [List.take_append_drop]
      exact hperm.nodup_iff.mpr hnodup
    rw [← List.take_append_drop m l'] at hsorted
    exact ⟨(List.pairwise_append.mp hsorted).2.2 s hs t ht,
      (List.nodup_append.mp hnodup').2.2 s hs t ht⟩
  refine ⟨l', hperm, hsorted.imp fun hst => ?_, fun m hm => ?_, fun m hm hmem => ?_⟩
  · rcases extremeLe_iff.mp hst with h | h
    · exact h.le
    · exact h.1.le
  · -- only smaller keys come before `a`
    by_contra hnot
    have hdrop := mem_drop_of_not_mem_take (hperm.mem_iff.mpr ha) hnot
    have hall : ∀ s ∈ l'.take m, decide (key s < key a) = true := by
      intro s hs
      obtain ⟨hle, hne⟩ := hsplit m s hs a hdrop
      rw [decide_eq_true_iff]
      refine (extremeLe_iff.mp hle).resolve_right fun h => ?_
      have hp := h.2
      simp only [extremePriority, hne, if_true, if_false] at hp
      split at hp <;> omega
    have hcount := List.countP_eq_length.mpr hall
    have hle : (l'.take m).countP (fun s => key s < key a) ≤ l'.countP (fun s => key s < key a) :=
      (List.take_sublist m l').countP_le
    rw [hcount, length_take_of_mem_drop hdrop, hperm.countP_eq] at hle
    omega
  · -- only larger keys come after `b`
    have hzero : (l'.drop m).countP (fun s => key s ≤ key b) = 0 := by
      rw [List.countP_eq_zero]
      intro s hs
      obtain ⟨hle, hne⟩ := hsplit m b hmem s hs
      rw [decide_eq_true_iff, not_le]
      refine (extremeLe_iff.mp hle).resolve_right fun h => ?_
      have hp := h.2
      simp only [extremePriority, hab.symm, hne.symm, if_true, if_false] at hp
      split at hp <;> omega
    have hcount : l'.countP (fun s => key s ≤ key b) = (l'.take m).countP (fun s => key s ≤ key b) := by
      conv_lhs => rw [← List.take_append_drop m l', List.countP_append, hzero, Nat.add_zero]
    have hle : (l'.take m).countP (fun s => key s ≤ key b) ≤ m :=
      Nat.le_trans List.countP_le_length (List.length_take_le m l')
    rw [← hperm.countP_eq, hcount] at hm
    omega

end Extreme

end Carmel.Math
