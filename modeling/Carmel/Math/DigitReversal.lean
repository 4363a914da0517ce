/-
# Digits read the other way

A number's digits, folded from the wrong end, give the number of the reversed
digits. When only the top digit may be cut off by a modulus, the two numbers
agree exactly when the digits are a palindrome.
-/

import Carmel.Math.Instances

namespace Carmel.Math

/-- Folding digits from the left reads the most significant one first. -/
theorem foldl_digits (b : ℕ) (ds : List ℕ) (a : ℕ) :
    ds.foldl (fun a d => a * b + d) a = a * b ^ ds.length + Nat.ofDigits b ds.reverse := by
  induction ds generalizing a with
  | nil => simp
  | cons d ds ih =>
    rw [List.foldl_cons, ih, List.reverse_cons, Nat.ofDigits_append, Nat.ofDigits_singleton,
      List.length_reverse, List.length_cons, pow_succ]
    ring

/-- A list that agrees with its reversal up to the last element is a palindrome. -/
theorem reverse_eq_of_dropLast_eq {α : Type*} {l : List α}
    (h : l.reverse.dropLast = l.dropLast) : l.reverse = l := by
  cases l with
  | nil => rfl
  | cons a l =>
    rcases List.eq_nil_or_concat l with rfl | ⟨mid, z, rfl⟩
    · rfl
    · have hrev : (a :: mid.concat z).reverse = z :: mid.reverse ++ [a] := by simp
      have hcons : a :: mid.concat z = a :: mid ++ [z] := by simp
      rw [hrev, hcons, List.dropLast_concat, List.dropLast_concat] at h
      injection h with hz hmid
      rw [hrev, hcons, hz, hmid]

/-- Reading the digits the other way gives the same number, up to a modulus that
keeps all digits but the top one, exactly for a palindrome. -/
theorem ofDigits_reverse_mod_iff {b m : ℕ} (hb : 1 < b) {ds : List ℕ} (hlt : ∀ d ∈ ds, d < b)
    (hm : b ^ (ds.length - 1) ∣ m) :
    Nat.ofDigits b ds.reverse % m = Nat.ofDigits b ds % m ↔ ds.reverse = ds := by
  constructor
  · intro h
    have hltr : ∀ d ∈ ds.reverse, d < b := by
      intro d hd
      exact hlt d (List.mem_reverse.mp hd)
    have hmod : Nat.ofDigits b ds.reverse % b ^ (ds.length - 1) =
        Nat.ofDigits b ds % b ^ (ds.length - 1) := Nat.ModEq.of_dvd hm h
    rw [Nat.ofDigits_mod_pow_eq_ofDigits_take _ (by omega) _ hltr,
      Nat.ofDigits_mod_pow_eq_ofDigits_take _ (by omega) _ hlt] at hmod
    have htake : ds.reverse.take (ds.length - 1) = ds.take (ds.length - 1) := by
      apply Nat.ofDigits_inj_of_len_eq hb (by simp) _ _ hmod
      · intro d hd
        exact hltr d (List.mem_of_mem_take hd)
      · intro d hd
        exact hlt d (List.mem_of_mem_take hd)
    apply reverse_eq_of_dropLast_eq
    rw [List.dropLast_eq_take, List.dropLast_eq_take, List.length_reverse, htake]
  · intro h
    rw [h]

end Carmel.Math
