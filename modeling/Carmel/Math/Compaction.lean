/-
# Keeping some elements of a list

A list is compacted by going over it once: the elements that are kept go to the
front, behind those kept before, and what was not looked at yet stays where it is.
This holds whether an element is moved or exchanged, and also when it is changed on
the way.
-/

import Carmel.Math.Instances

namespace Carmel.Math

universe u

variable {α : Type u} {keep : ℕ → Bool} {v : List α} {i k : ℕ} {x : α}

/-- The elements at the positions that are kept. -/
def kept (keep : ℕ → Bool) (v : List α) : List α := (v.zipIdx.filter fun p => keep p.2).map Prod.fst

/-- How many of the first positions are kept. -/
def countKept (keep : ℕ → Bool) (n : ℕ) : ℕ := (List.range n).countP keep

theorem countKept_succ (keep : ℕ → Bool) (n : ℕ) :
    countKept keep (n + 1) = countKept keep n + if keep n then 1 else 0 := by
  rw [countKept, List.range_succ, List.countP_append, countKept, List.countP_singleton]

theorem countKept_le (keep : ℕ → Bool) (n : ℕ) : countKept keep n ≤ n := by
  have hle := List.countP_le_length (p := keep) (l := List.range n)
  rwa [List.length_range] at hle

theorem kept_append_singleton (keep : ℕ → Bool) (v : List α) (x : α) :
    kept keep (v ++ [x]) = kept keep v ++ if keep v.length then [x] else [] := by
  rw [kept, List.zipIdx_append, List.filter_append, List.map_append, kept, Nat.zero_add]
  cases h : keep v.length <;> simp [h]

theorem kept_take_succ (hx : v[i]? = some x) :
    kept keep (v.take (i + 1)) = kept keep (v.take i) ++ if keep i then [x] else [] := by
  have hlt := (List.getElem?_eq_some_iff.mp hx).1
  rw [List.take_add_one, hx, Option.toList_some, kept_append_singleton, List.length_take,
    Nat.min_eq_left (Nat.le_of_lt hlt)]

theorem length_kept_take (keep : ℕ → Bool) (hi : i ≤ v.length) : (kept keep (v.take i)).length = countKept keep i := by
  induction i with
  | zero => simp [kept, countKept]
  | succ i ih =>
    rw [kept_take_succ (List.getElem?_eq_getElem hi), List.length_append, ih (by omega),
      countKept_succ]
    split <;> rfl

theorem length_kept (keep : ℕ → Bool) (v : List α) : (kept keep v).length = countKept keep v.length := by
  have hlen := length_kept_take keep (Nat.le_refl v.length)
  rwa [List.take_length] at hlen

theorem exists_of_mem_kept (h : x ∈ kept keep v) : ∃ i, v[i]? = some x ∧ keep i = true := by
  obtain ⟨p, hp, rfl⟩ := List.mem_map.mp h
  obtain ⟨hp, hkeep⟩ := List.mem_filter.mp hp
  exact ⟨p.2, List.mem_zipIdx_iff_getElem?.mp hp, hkeep⟩

/-- Which positions are kept matters within the list only. -/
theorem kept_congr {keep' : ℕ → Bool} (h : ∀ j < v.length, keep j = keep' j) :
    kept keep v = kept keep' v := by
  rw [kept, kept]
  congr 1
  apply List.filter_congr
  intro p hp
  exact h p.2 (List.snd_lt_of_mem_zipIdx hp)

theorem countKept_eq_iff {n : ℕ} (hk : k ≤ n) :
    countKept keep n = countKept keep k ↔ ∀ j, k ≤ j → j < n → keep j = false := by
  induction n with
  | zero =>
    obtain rfl : k = 0 := by omega
    exact ⟨fun _ j _ hj => absurd hj (Nat.not_lt_zero j), fun _ => rfl⟩
  | succ n ih =>
    by_cases hkn : k = n + 1
    · rw [hkn]
      exact ⟨fun _ j hj hj' => by omega, fun _ => rfl⟩
    · have hmono : countKept keep k ≤ countKept keep n := by
        apply List.Sublist.countP_le
        exact List.range_sublist.mpr (by omega)
      rw [countKept_succ]
      constructor
      · intro h j hj hj'
        cases hlast : keep n with
        | true =>
          rw [hlast, if_pos rfl] at h
          omega
        | false =>
          rw [hlast] at h
          by_cases hjn : j = n
          · rw [hjn, hlast]
          · exact (ih (by omega)).mp h j hj (by omega)
      · intro h
        have hlast := h n (by omega) (Nat.lt_succ_self n)
        rw [hlast]
        exact (ih (by omega)).mpr fun j hj hj' => h j hj (by omega)

theorem kept_take_eq_iff (hk : k ≤ v.length) :
    kept keep (v.take k) = kept keep v ↔ ∀ j, k ≤ j → j < v.length → keep j = false := by
  rw [← countKept_eq_iff hk, ← length_kept keep v, ← length_kept_take keep hk]
  constructor
  · intro h
    rw [h]
  · intro h
    have hsub : (kept keep (v.take k)).Sublist (kept keep v) := by
      have hsplit : kept keep v = kept keep (v.take k) ++
          ((v.drop k).zipIdx k |>.filter fun p => keep p.2).map Prod.fst := by
        have hlen : (v.take k).length = k := by
          rw [List.length_take]
          omega
        have happend : (v.take k ++ v.drop k).zipIdx = (v.take k).zipIdx ++
            (v.drop k).zipIdx (0 + (v.take k).length) := List.zipIdx_append
        rw [List.take_append_drop, hlen, Nat.zero_add] at happend
        rw [kept, happend, List.filter_append, List.map_append, kept]
      rw [hsplit]
      exact List.sublist_append_left _ _
    exact hsub.eq_of_length h.symm

/-- Part of a list is compacted: what was kept of the first `i` elements, changed by `f`, is in
front, and the elements from `i` on are where they were. -/
structure Compacted (keep : ℕ → Bool) (f : α → α) (v₀ : List α) (i : ℕ) (v : List α) : Prop where
  front : v.take (countKept keep i) = (kept keep (v₀.take i)).map f
  rest : v.drop i = v₀.drop i
  length : v.length = v₀.length

variable {f : α → α} {v₀ : List α}

theorem Compacted.getElem? (h : Compacted keep f v₀ i v) {j : ℕ} (hj : i ≤ j) : v[j]? = v₀[j]? := by
  have hdrop : ∀ m : List α, m[j]? = (m.drop i)[j - i]? := by
    intro m
    rw [List.getElem?_drop]
    congr 1
    omega
  rw [hdrop, hdrop, h.rest]

/-- Where all elements before are kept, nothing has to move. -/
theorem Compacted.whole (hkeep : ∀ j < i, keep j = true) (hi : i ≤ v.length) :
    Compacted keep id v i v := by
  have hall : ∀ n ≤ i, countKept keep n = n ∧ kept keep (v.take n) = v.take n := by
    intro n
    induction n with
    | zero => exact fun _ => ⟨rfl, rfl⟩
    | succ n ih =>
      intro hn
      have hlt : n < v.length := Nat.lt_of_lt_of_le hn hi
      obtain ⟨hcount, hfront⟩ := ih (Nat.le_of_succ_le hn)
      rw [countKept_succ, kept_take_succ (List.getElem?_eq_getElem hlt), hkeep n hn, hcount, hfront]
      exact ⟨rfl, (List.take_succ_eq_append_getElem hlt).symm⟩
  obtain ⟨hcount, hfront⟩ := hall i (Nat.le_refl i)
  exact ⟨by rw [hcount, hfront, List.map_id], rfl, rfl⟩

theorem Compacted.start (keep : ℕ → Bool) (f : α → α) (v : List α) : Compacted keep f v 0 v :=
  ⟨by simp [countKept, kept], rfl, rfl⟩

theorem Compacted.drop_succ (h : Compacted keep f v₀ i v) : v.drop (i + 1) = v₀.drop (i + 1) := by
  rw [← List.drop_drop, ← List.drop_drop, h.rest]

theorem Compacted.skip (h : Compacted keep f v₀ i v) (hi : i < v₀.length) (hkeep : keep i = false)
    (x : α) : Compacted keep f v₀ (i + 1) (v.set i x) := by
  have hle := countKept_le keep i
  constructor
  · rw [countKept_succ, hkeep, kept_take_succ (List.getElem?_eq_getElem hi), hkeep,
      List.take_set_of_le (by simpa using hle)]
    simpa using h.front
  · rw [List.drop_set_of_lt (Nat.lt_succ_self i), h.drop_succ]
  · rw [List.length_set, h.length]

/-- What is in front, when the next kept element goes behind it. -/
theorem take_countKept_succ {w w' : List α} (hx : v₀[i]? = some x) (hkeep : keep i = true)
    (hfront : w.take (countKept keep i) = (kept keep (v₀.take i)).map f)
    (htake : w'.take (countKept keep i) = w.take (countKept keep i))
    (hget : w'[countKept keep i]? = some (f x)) :
    w'.take (countKept keep (i + 1)) = (kept keep (v₀.take (i + 1))).map f := by
  rw [countKept_succ, hkeep, if_pos rfl, kept_take_succ hx, hkeep, if_pos rfl, List.map_append,
    ← hfront, ← htake, List.take_add_one, hget]
  rfl

theorem Compacted.move {v' : List α} (h : Compacted keep f v₀ i v) (hx : v[i]? = some x)
    (hkeep : keep i = true) (htake : v'.take (countKept keep i) = v.take (countKept keep i))
    (hget : v'[countKept keep i]? = some (f x)) (hdrop : v'.drop (i + 1) = v.drop (i + 1))
    (hlen : v'.length = v.length) : Compacted keep f v₀ (i + 1) v' := by
  have hx₀ : v₀[i]? = some x := by rw [← h.getElem? (Nat.le_refl i), hx]
  exact ⟨take_countKept_succ hx₀ hkeep h.front htake hget, by rw [hdrop, h.drop_succ],
    by rw [hlen, h.length]⟩

theorem Compacted.assign (h : Compacted keep f v₀ i v) (hx : v[i]? = some x)
    (hkeep : keep i = true) : Compacted keep f v₀ (i + 1) (v.set (countKept keep i) (f x)) := by
  have hle := countKept_le keep i
  have hi := (List.getElem?_eq_some_iff.mp hx).1
  apply h.move hx hkeep
  · exact List.take_set_of_le (Nat.le_refl _)
  · rw [List.getElem?_set_self (by omega)]
  · exact List.drop_set_of_lt (by omega)
  · exact List.length_set

variable {σ : Type u} {P : ℕ → σ → Prop} {body : σ → ℕ → Option σ} {n : ℕ}

/-- What one step of a pass over consecutive positions keeps, the whole pass keeps. -/
theorem exists_foldlM_range'
    (hstep : ∀ j s, j < i + n → P j s → ∃ s', body s j = some s' ∧ P (j + 1) s') :
    ∀ s, P i s → ∃ s', (List.range' i n).foldlM body s = some s' ∧ P (i + n) s' := by
  induction n generalizing i with
  | zero => exact fun s hs => ⟨s, rfl, hs⟩
  | succ n ih =>
    intro s hs
    obtain ⟨s', hbody, hs'⟩ := hstep i s (by omega) hs
    have hrest : ∀ j t, j < i + 1 + n → P j t → ∃ t', body t j = some t' ∧ P (j + 1) t' :=
      fun j t hj => hstep j t (by omega)
    obtain ⟨s'', hpass, hend⟩ := ih hrest s' hs'
    rw [List.range'_succ, List.foldlM_cons, hbody]
    exact ⟨s'', hpass, by rwa [Nat.add_right_comm, Nat.add_assoc] at hend⟩

end Carmel.Math
