/-
# Random permutations and numbers below a limit

`randomly_permute` swaps each element with one that is not behind it, so each permutation
comes of one sequence of numbers. `random_less_than` refuses as many numbers as are left
over when all of them are divided by the limit.
-/

import Carmel.Math.Instances

namespace Carmel.Random

universe u

variable {α : Type u}

section Code

/-- `swap(vec[i], vec[j])`. -/
def swapAt (vec : List α) (i j : ℕ) : Option (List α) :=
  (vec[i]?).bind fun x => (vec[j]?).map fun y => (vec.set i y).set j x

/-- The loop of `randomly_permute` up to `n`, where `randomUpTo` tells what `random_up_to` returns. -/
def permuteUpTo (randomUpTo : ℕ → ℕ) (n : ℕ) (vec : List α) : Option (List α) :=
  (List.range n).foldlM (fun vec i => swapAt vec i (randomUpTo i)) vec

def randomlyPermute (randomUpTo : ℕ → ℕ) (vec : List α) : Option (List α) :=
  permuteUpTo randomUpTo vec.length vec

end Code

section Swap

variable {l t s : List α} {i j : ℕ}

theorem swapAt_eq (hi : i < l.length) (hj : j < l.length) :
    swapAt l i j = some ((l.set i l[j]).set j l[i]) := by
  rw [swapAt, List.getElem?_eq_getElem hi, List.getElem?_eq_getElem hj]
  rfl

theorem swapAt_perm (h : swapAt l i j = some t) : t.Perm l := by
  rcases Option.bind_eq_some_iff.mp h with ⟨x, hx, h⟩
  rcases Option.map_eq_some_iff.mp h with ⟨y, hy, rfl⟩
  rcases List.getElem?_eq_some_iff.mp hx with ⟨hi, rfl⟩
  rcases List.getElem?_eq_some_iff.mp hy with ⟨hj, rfl⟩
  exact List.set_set_perm hi hj

theorem swapAt_getElem? (hi : i < l.length) (hj : j < l.length) (h : swapAt l i j = some t) (k : ℕ) :
    t[k]? = if k = j then l[i]? else if k = i then l[j]? else l[k]? := by
  rw [swapAt_eq hi hj] at h
  cases h
  rw [List.getElem?_set, List.getElem?_set, List.length_set, List.getElem?_eq_getElem hi,
    List.getElem?_eq_getElem hj]
  by_cases hkj : k = j
  · simp [hkj, hj]
  by_cases hki : k = i
  · subst hki
    simp [hi, hkj, Ne.symm hkj]
  · simp [hki, hkj, Ne.symm hkj, Ne.symm hki]

theorem swapAt_symm (hi : i < l.length) (hj : j < l.length) (h : swapAt l i j = some t) :
    swapAt t i j = some l := by
  have hlen := (swapAt_perm h).length_eq
  have hback := swapAt_eq (l := t) (i := i) (j := j) (by omega) (by omega)
  rw [hback]
  congr 1
  apply List.ext_getElem?
  intro k
  rw [swapAt_getElem? (by omega) (by omega) hback k, swapAt_getElem? hi hj h,
    swapAt_getElem? hi hj h, swapAt_getElem? hi hj h]
  split_ifs <;> simp_all

theorem swapAt_append (hi : i < l.length) (hj : j < l.length) (s : List α) :
    swapAt (l ++ s) i j = (swapAt l i j).map (· ++ s) := by
  rw [swapAt_eq hi hj, swapAt, List.getElem?_append_left hi, List.getElem?_append_left hj,
    List.getElem?_eq_getElem hi, List.getElem?_eq_getElem hj]
  simp [List.set_append_left, hi, hj]

end Swap

section Permute

variable {randomUpTo other : ℕ → ℕ} {n : ℕ} {l t s : List α}

theorem permuteUpTo_succ (n : ℕ) (l : List α) : permuteUpTo randomUpTo (n + 1) l =
    (permuteUpTo randomUpTo n l).bind fun vec => swapAt vec n (randomUpTo n) := by
  rw [permuteUpTo, List.range_succ, List.foldlM_append]
  simp [permuteUpTo]

theorem permuteUpTo_congr (h : ∀ i < n, randomUpTo i = other i) (l : List α) :
    permuteUpTo randomUpTo n l = permuteUpTo other n l := by
  induction n with
  | zero => rfl
  | succ n ih =>
    rw [permuteUpTo_succ, permuteUpTo_succ, h n (Nat.lt_succ_self n),
      ih fun i hi => h i (Nat.lt_succ_of_lt hi)]

/-- The steps up to `n` return a permutation and do not touch what is behind. -/
theorem exists_permuteUpTo (h : ∀ i, randomUpTo i ≤ i) (hn : n ≤ l.length) :
    ∃ t, t.Perm l ∧ ∀ s, permuteUpTo randomUpTo n (l ++ s) = some (t ++ s) := by
  induction n with
  | zero => exact ⟨l, List.Perm.refl l, fun s => rfl⟩
  | succ n ih =>
    rcases ih (Nat.le_of_succ_le hn) with ⟨t, hperm, ht⟩
    have hlen := hperm.length_eq
    have hup := h n
    have hswap := swapAt_eq (l := t) (i := n) (j := randomUpTo n) (by omega) (by omega)
    refine ⟨_, (swapAt_perm hswap).trans hperm, fun s => ?_⟩
    rw [permuteUpTo_succ, ht, Option.bind_some, swapAt_append (by omega) (by omega), hswap]
    rfl

/-- **Each permutation comes of one sequence of numbers.** The number of the last step is the
position of the last element. -/
theorem exists_choice (hl : l.Nodup) (ht : t.Perm l) :
    ∃ choice : ℕ → ℕ, (∀ i, choice i ≤ i) ∧ randomlyPermute choice l = some t ∧
      ∀ other : ℕ → ℕ, (∀ i, other i ≤ i) → randomlyPermute other l = some t →
        ∀ i < l.length, other i = choice i := by
  unfold randomlyPermute
  induction l using List.reverseRecOn generalizing t with
  | nil =>
    rw [List.perm_nil.mp ht]
    exact ⟨fun _ => 0, fun i => Nat.zero_le i, rfl, fun _ _ _ i hi => absurd hi (Nat.not_lt_zero i)⟩
  | append_singleton m x ih =>
    have htl : t.Nodup := ht.nodup_iff.mpr hl
    have hlen : t.length = m.length + 1 := by rw [ht.length_eq, List.length_append]; rfl
    rcases List.mem_iff_getElem?.mp (ht.mem_iff.mpr (by simp : x ∈ m ++ [x])) with ⟨k, hk⟩
    rcases List.getElem?_eq_some_iff.mp hk with ⟨hkt, -⟩
    -- what there was before the last step
    rcases Option.ne_none_iff_exists'.mp (by
      rw [swapAt_eq (i := m.length) (by omega) hkt]
      exact Option.some_ne_none _ : swapAt t m.length k ≠ none) with ⟨u, hback⟩
    have huperm := (swapAt_perm hback).trans ht
    have hlast : u[m.length]? = some x := by
      rw [swapAt_getElem? (by omega) hkt hback, if_pos rfl, hk]
      split_ifs with heq
      · rw [heq, hk]
      · rfl
    rcases List.eq_nil_or_concat' u with rfl | ⟨s, y, rfl⟩
    · cases hlast
    have hs : s.length = m.length := by simpa using huperm.length_eq
    rw [← hs, List.getElem?_concat_length] at hlast
    cases hlast
    rcases ih (List.nodup_append.mp hl).1 ((List.perm_append_right_iff [x]).mp huperm) with
      ⟨choice, hchoice, hrun, honly⟩
    have hupdate : ∀ i < m.length, Function.update choice m.length k i = choice i :=
      fun i hi => Function.update_of_ne hi.ne ..
    -- the steps before the last one leave the last element where it is
    have hbefore : ∀ other : ℕ → ℕ, (∀ i, other i ≤ i) → ∀ r,
        permuteUpTo other m.length m = some r →
          permuteUpTo other m.length (m ++ [x]) = some (r ++ [x]) := by
      intro other hother r hr
      rcases exists_permuteUpTo hother (Nat.le_refl m.length) with ⟨r', -, hr'⟩
      have hsame := hr' []
      rw [List.append_nil, List.append_nil, hr] at hsame
      rw [Option.some.inj hsame, hr']
    refine ⟨Function.update choice m.length k, fun i => ?_, ?_, fun other hother hrun' => ?_⟩
    · by_cases hi : i = m.length
      · rw [hi, Function.update_self]
        omega
      · rw [Function.update_of_ne hi]
        exact hchoice i
    · rw [List.length_append, List.length_singleton, permuteUpTo_succ, permuteUpTo_congr hupdate,
        hbefore choice hchoice s hrun, Option.bind_some, Function.update_self]
      exact swapAt_symm (by omega) hkt hback
    · rw [List.length_append, List.length_singleton] at hrun' ⊢
      rw [permuteUpTo_succ] at hrun'
      rcases exists_permuteUpTo hother (Nat.le_refl m.length) with ⟨r, hr, hrs⟩
      have hrlen := hr.length_eq
      rw [hrs, Option.bind_some] at hrun'
      have hup := hother m.length
      have hr0 := hrs []
      have hin : m.length < (r ++ [x]).length := by rw [List.length_append, hrlen]; simp
      have hlast : other m.length = k := by
        have hat := swapAt_getElem? hin (by omega) hrun' (other m.length)
        rw [if_pos rfl, ← hrlen, List.getElem?_concat_length, hrlen] at hat
        exact (List.getElem?_inj (by omega) htl).mp (hat.trans hk.symm)
      have hsame := swapAt_symm hin (by omega) hrun'
      rw [hlast, hback] at hsame
      rw [List.append_nil, List.append_nil,
        ← List.append_cancel_right (Option.some.inj hsame)] at hr0
      intro i hi
      rcases Nat.lt_succ_iff_lt_or_eq.mp hi with hlt | heq
      · rw [hupdate i hlt]
        exact honly other hother hr0 i hlt
      · rw [heq, Function.update_self, hlast]

end Permute

/-- What `random_up_to` may return in the steps of a list of `n` elements. -/
abbrev Choices (n : ℕ) := ∀ i : Fin n, Fin (i + 1)

def Choices.at {n : ℕ} (c : Choices n) (i : ℕ) : ℕ := if h : i < n then c ⟨i, h⟩ else 0

theorem Choices.at_le {n : ℕ} (c : Choices n) (i : ℕ) : c.at i ≤ i := by
  unfold Choices.at
  split_ifs with h
  · exact Nat.le_of_lt_succ (c ⟨i, h⟩).isLt
  · exact Nat.zero_le i

section Code

/-- `min`, which is to be the remainder of `2 ^ 32`. -/
def minAccepted (limit : BitVec 32) : BitVec 32 :=
  if 0x80000000 < limit then 1 + ~~~limit else ((0xffffffff - limit * 2) + 1) % limit

/-- The loop of `random_less_than` over the numbers that `rand` returns. -/
def randomLessThan (limit : BitVec 32) : List (BitVec 32) → Option (BitVec 32)
  | [] => none
  | r :: rest => if minAccepted limit ≤ r then some (r % limit) else randomLessThan limit rest

end Code

section Below

variable {limit x : BitVec 32}

theorem toNat_minAccepted (hpos : 0 < limit.toNat) :
    (minAccepted limit).toNat = 2 ^ 32 % limit.toNat := by
  have hlt := limit.isLt
  have hone : (1 : BitVec 32).toNat = 1 := rfl
  have htwo : (2 : BitVec 32).toNat = 2 := rfl
  have hmax : (0xffffffff : BitVec 32).toNat = 4294967295 := rfl
  unfold minAccepted
  split_ifs with hlarge
  · have hlarge : 2 ^ 31 < limit.toNat := hlarge
    rw [BitVec.toNat_add, BitVec.toNat_not, hone, Nat.mod_eq_sub_mod hlt.le,
      Nat.mod_eq_of_lt (b := limit.toNat) (by omega)]
    omega
  · have hsmall : limit.toNat ≤ 2 ^ 31 := Nat.le_of_not_lt hlarge
    have hvalue : (0xffffffff - limit * 2 + 1).toNat = (2 ^ 32 - limit.toNat * 2) % 2 ^ 32 := by
      rw [BitVec.toNat_add, BitVec.toNat_sub, BitVec.toNat_mul, hone, htwo, hmax]
      omega
    rw [BitVec.toNat_umod, hvalue]
    by_cases hhalf : limit.toNat = 2 ^ 31
    · rw [hhalf]
      rfl
    · rw [Nat.mod_eq_of_lt (b := 2 ^ 32) (by omega), Nat.sub_mul_mod (by omega)]

/-- From the least accepted number on there are equally many with each remainder. -/
theorem ncard_accepted (hpos : 0 < limit.toNat) (hx : x < limit) :
    {r : BitVec 32 | randomLessThan limit [r] = some x}.ncard = 2 ^ 32 / limit.toNat := by
  have hmin := toNat_minAccepted hpos
  have himage : BitVec.toNat '' {r : BitVec 32 | randomLessThan limit [r] = some x} =
      ((Finset.Ico (2 ^ 32 % limit.toNat) (2 ^ 32)).filter (· ≡ x.toNat [MOD limit.toNat]) : Set ℕ) := by
    ext n
    simp only [Set.mem_image, Set.mem_ofPred_eq, Finset.coe_filter, Finset.mem_Ico, randomLessThan,
      Option.ite_none_right_eq_some, Option.some.injEq, BitVec.le_def, hmin, Nat.ModEq,
      Nat.mod_eq_of_lt (BitVec.lt_def.mp hx)]
    constructor
    · rintro ⟨r, ⟨hr, hrx⟩, rfl⟩
      exact ⟨⟨hr, r.isLt⟩, by rw [← hrx, BitVec.toNat_umod]⟩
    · rintro ⟨⟨hn, hlt⟩, hnx⟩
      have hr : (BitVec.ofNat 32 n).toNat = n := by rw [BitVec.toNat_ofNat, Nat.mod_eq_of_lt hlt]
      refine ⟨BitVec.ofNat 32 n, ⟨by rw [hr]; exact hn, ?_⟩, hr⟩
      apply BitVec.eq_of_toNat_eq
      rw [BitVec.toNat_umod, hr, hnx]
  have hcard := Nat.Ico_filter_modEq_card (2 ^ 32 % limit.toNat) (2 ^ 32) hpos x.toNat
  have hrat : ((2 ^ 32 : ℕ) - x.toNat : ℚ) / limit.toNat =
      ((2 ^ 32 % limit.toNat : ℕ) - x.toNat : ℚ) / limit.toNat + (2 ^ 32 / limit.toNat : ℕ) := by
    have hne : (limit.toNat : ℚ) ≠ 0 := Nat.cast_ne_zero.mpr hpos.ne'
    have hsum : ((2 ^ 32 : ℕ) : ℚ) =
        limit.toNat * (2 ^ 32 / limit.toNat : ℕ) + (2 ^ 32 % limit.toNat : ℕ) := by
      rw [← Nat.cast_mul, ← Nat.cast_add, Nat.div_add_mod]
    rw [hsum]
    field_simp
    ring
  rw [hrat, Int.ceil_add_natCast, add_sub_cancel_left, max_eq_left (Int.natCast_nonneg _)] at hcard
  rw [← Set.ncard_image_of_injective _ (fun _ _ => BitVec.eq_of_toNat_eq), himage,
    Set.ncard_coe_finset]
  exact Int.ofNat_inj.mp hcard

end Below

/-- **Shuffling is fair.** Every sequence of numbers gives a permutation, every permutation comes of
exactly one of the `n!` sequences, and as many numbers give each result below a limit. -/
theorem randomlyPermute_fair {l : List α} (hl : l.Nodup) :
    ((∀ c : Choices l.length, ∃ t, t.Perm l ∧ randomlyPermute c.at l = some t) ∧
      (∀ t, t.Perm l → ∃! c : Choices l.length, randomlyPermute c.at l = some t) ∧
      Fintype.card (Choices l.length) = l.length.factorial) ∧
    ∀ limit x : BitVec 32, 0 < limit.toNat → x < limit →
      {r : BitVec 32 | randomLessThan limit [r] = some x}.ncard = 2 ^ 32 / limit.toNat := by
  refine ⟨⟨fun c => ?_, fun t ht => ?_, ?_⟩, fun limit x => ncard_accepted⟩
  · rcases exists_permuteUpTo c.at_le (Nat.le_refl l.length) with ⟨t, ht, hrun⟩
    have hrun := hrun []
    rw [List.append_nil, List.append_nil] at hrun
    exact ⟨t, ht, hrun⟩
  · rcases exists_choice hl ht with ⟨choice, hchoice, hrun, honly⟩
    have hat : ∀ i < l.length, Choices.at (n := l.length)
        (fun i => ⟨choice i, Nat.lt_succ_of_le (hchoice i)⟩) i = choice i :=
      fun i hi => dif_pos hi
    refine ⟨fun i => ⟨choice i, Nat.lt_succ_of_le (hchoice i)⟩, ?_, fun c hc => ?_⟩
    · rw [← hrun]
      exact permuteUpTo_congr hat l
    · funext i
      apply Fin.ext
      have hsame := honly c.at c.at_le hc i i.isLt
      rwa [Choices.at, dif_pos i.isLt] at hsame
  · rw [Fintype.card_pi]
    simp only [Fintype.card_fin]
    rw [Fin.prod_univ_eq_prod_range (fun i => i + 1), Finset.prod_range_add_one_eq_factorial]

theorem randomlyPermute_fair_three : Fintype.card (Choices 3) = 6 ∧
    {r : BitVec 32 | randomLessThan 6 [r] = some 2}.ncard = 715827882 :=
  have h := randomlyPermute_fair (l := [0, 1, 2]) (by decide)
  ⟨h.1.2.2, h.2 6 2 (by decide) (by decide)⟩

end Carmel.Random
