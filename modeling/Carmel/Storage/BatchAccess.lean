/-
# Reading and writing a batch

Writing stores what was kept, `enumerate` visits it all, and `operator[]` finds its record
when it goes back to the start, when a record is under the cursor, and (in a file) when it
asks for the record read last. From an array's end, or from an array not read since it was
written, it does not.
-/

import Carmel.Storage.BatchCursor

namespace Carmel.SerializeBatch

open Math

variable {B : Type} {mode : Bool} {format : RecordFormat B} {kept : List B} {k : ℕ} {i : UInt32}
  {s : SerializeBatch B}

theorem Stored.length_le (h : Stored mode format kept s) :
    kept.length ≤ s.store.length + s.f.bytes.length := by
  cases mode with
  | false =>
    rw [MemoryStored.store h]
    omega
  | true =>
    obtain ⟨stale, hbytes⟩ := FileStored.bytes h
    have := length_kept_le format kept
    rw [hbytes, List.length_append]
    omega

theorem returns_enumerate (h : Stored mode format kept s) :
    Returns (enumerate format) s fun read t => read = kept ∧ Ended mode format kept t := by
  unfold enumerate
  rw [returns_bind]
  refine (returns_rewind h).mono fun _ t ht => ?_
  rw [returns_bind, returns_get]
  have hlen := ht.stored.length_le
  refine returns_drain (fun k s (hs : Readable mode format kept k s) hk => returns_advance hs hk)
    (fun k s b hs hb => ?_) (fun s hs => returns_advance_last hs) ht (Nat.zero_le _) (by omega)
  exact (returns_current hs hb).mono fun a t ha => ⟨ha.1, ha.2 ▸ hs⟩

/-! ## Going to a record -/

theorem returns_mustAdvance (h : Readable mode format kept k s) (hk : k < kept.length) :
    Returns (mustAdvance format) s fun _ t => Readable mode format kept (k + 1) t := by
  unfold mustAdvance
  rw [returns_bind]
  refine (returns_advance h hk).mono fun more t ht => ?_
  rw [ht.1, if_pos rfl, returns_pure]
  exact ht.2

theorem fails_mustAdvance (h : Readable mode format kept kept.length s) :
    Fails (mustAdvance format) s fun e t => e = .serializeBatchIndexError ∧ Ended mode format kept t := by
  unfold mustAdvance
  rw [fails_bind]
  refine .inr ((returns_advance_last h).mono fun more t ht => ?_)
  rw [ht.1, if_neg Bool.false_ne_true, fails_throw]
  exact ⟨rfl, ht.2⟩

theorem ofNat_lt_iff (hk : k ≤ i.toNat) : UInt32.ofNat k < i ↔ k < i.toNat := by
  have := i.toNat_lt
  rw [UInt32.lt_iff_toNat_lt, UInt32.toNat_ofNat', Nat.mod_eq_of_lt (by omega)]

theorem returns_mustReach_self (h : s.currentI = some i) (fuel : ℕ) :
    Returns (mustReach format i fuel) s fun _ t => t = s := by
  cases fuel with
  | zero => exact rfl
  | succ fuel =>
    unfold mustReach
    simp only [returns_bind, returns_get, returns_defined h, if_neg (UInt32.lt_irrefl i),
      returns_pure]

theorem returns_mustReach (hi : i.toNat < kept.length) {fuel : ℕ}
    (h : Readable mode format kept (k + 1) s) (hk : k ≤ i.toNat) (hfuel : i.toNat ≤ k + fuel) :
    Returns (mustReach format i fuel) s fun _ t => Readable mode format kept (i.toNat + 1) t := by
  induction fuel generalizing k s with
  | zero =>
    obtain rfl : k = i.toNat := by omega
    exact h
  | succ fuel ih =>
    unfold mustReach
    simp only [returns_bind, returns_get, returns_defined h.currentI, ofNat_lt_iff hk]
    rcases Nat.lt_or_eq_of_le hk with hlt | rfl
    · rw [if_pos hlt, returns_bind]
      exact (returns_mustAdvance h (by omega)).mono fun _ t ht => ih ht hlt (by omega)
    · rw [if_neg (Nat.lt_irrefl _), returns_pure]
      exact h

theorem fails_mustReach (hi : kept.length ≤ i.toNat) {fuel : ℕ}
    (h : Readable mode format kept (k + 1) s) (hk : k < kept.length) (hfuel : i.toNat ≤ k + fuel) :
    Fails (mustReach format i fuel) s fun e t =>
      e = .serializeBatchIndexError ∧ Ended mode format kept t := by
  induction fuel generalizing k s with
  | zero => omega
  | succ fuel ih =>
    unfold mustReach
    simp only [fails_bind, returns_get, returns_defined h.currentI,
      ofNat_lt_iff (show k ≤ i.toNat by omega), if_pos (show k < i.toNat by omega)]
    refine .inr (.inr ?_)
    rcases Nat.lt_or_eq_of_le (Nat.succ_le_of_lt hk) with hlt | heq
    · exact .inr ((returns_mustAdvance h hlt).mono fun _ t ht => ih ht hlt (by omega))
    · refine .inl (fails_mustAdvance (?_ : Readable mode format kept kept.length s))
      rw [← heq]
      exact h

/-- The index is behind the cursor, or 0. -/
def GoesBack (s : SerializeBatch B) (i : UInt32) : Prop :=
  i = 0 ∨ ∃ c, s.currentI = some c ∧ i < c

theorem returns_goesBack (h : GoesBack s i) :
    Returns (goesBack i) s fun back t => back = true ∧ t = s := by
  unfold goesBack
  rcases h with rfl | ⟨c, hc, hlt⟩
  · exact ⟨rfl, rfl⟩
  · by_cases hzero : i = 0
    · rw [if_pos hzero]
      exact ⟨rfl, rfl⟩
    · rw [if_neg hzero]
      simp only [returns_bind, returns_get, returns_defined hc, returns_pure, decide_eq_true hlt,
        and_self]

theorem returns_goesBack_not (h : ¬ GoesBack s i) {c : UInt32} (hc : s.currentI = some c) :
    Returns (goesBack i) s fun back t => back = false ∧ t = s := by
  have hzero : i ≠ 0 := fun hzero => h (.inl hzero)
  have hlt : ¬ i < c := fun hlt => h (.inr ⟨c, hc, hlt⟩)
  unfold goesBack
  rw [if_neg hzero]
  simp only [returns_bind, returns_get, returns_defined hc, returns_pure, decide_eq_false hlt,
    and_self]

instance (s : SerializeBatch B) (i : UInt32) : Decidable (GoesBack s i) :=
  decidable_of_iff (i = 0 ∨ (s.currentI.any fun c => decide (i < c)) = true) (by
    rw [GoesBack, Option.any_eq_true]
    simp)

/-- What `operator[]` does is right, and leaves the cursor where it can go on. -/
def Accesses (mode : Bool) (format : RecordFormat B) (kept : List B) (i : UInt32)
    (s : SerializeBatch B) : Prop :=
  if i.toNat < kept.length then
    Returns (access format i) s fun b t =>
      kept[i.toNat]? = some b ∧ Readable mode format kept (i.toNat + 1) t
  else Fails (access format i) s fun e t =>
    e = .serializeBatchIndexError ∧ Ended mode format kept t

/-- From a record on, not behind the one asked for, in one way or the other. -/
theorem returns_reachCurrent (hi : i.toNat < kept.length) (h : Readable mode format kept (k + 1) s)
    (hk : k ≤ i.toNat) :
    Returns (do mustReach format i i.toNat; current) s fun b t =>
      kept[i.toNat]? = some b ∧ Readable mode format kept (i.toNat + 1) t := by
  rw [returns_bind]
  refine (returns_mustReach hi h hk (by omega)).mono fun _ t ht => ?_
  have hb := List.getElem?_eq_getElem hi
  refine (returns_current ht hb).mono fun a u ha => ?_
  rw [ha.1, ha.2]
  exact ⟨hb, ht⟩

theorem fails_reachCurrent (hi : kept.length ≤ i.toNat) (h : Readable mode format kept (k + 1) s)
    (hk : k < kept.length) :
    Fails (do mustReach format i i.toNat; current) s fun e t =>
      e = .serializeBatchIndexError ∧ Ended mode format kept t := by
  rw [fails_bind]
  exact .inl (fails_mustReach hi h hk (by omega))

theorem accesses_of_goesBack (h : Stored mode format kept s) (hback : GoesBack s i) :
    Accesses mode format kept i s := by
  have hrewind := returns_rewind h
  unfold Accesses access
  split_ifs with hi
  · simp only [returns_bind]
    refine (returns_goesBack hback).mono fun back t ht => ?_
    rw [ht.1, ht.2, if_pos rfl, returns_bind]
    refine hrewind.mono fun _ u hu => ?_
    rw [returns_bind]
    exact (returns_mustAdvance hu (by omega)).mono fun _ v hv =>
      returns_reachCurrent hi hv (Nat.zero_le _)
  · rw [fails_bind]
    refine .inr ((returns_goesBack hback).mono fun back t ht => ?_)
    rw [ht.1, ht.2, if_pos rfl, fails_bind]
    refine .inr (hrewind.mono fun _ u hu => ?_)
    rw [fails_bind]
    by_cases hempty : kept.length = 0
    · refine .inl (fails_mustAdvance (?_ : Readable mode format kept kept.length u))
      rw [hempty]
      exact hu
    · exact .inr ((returns_mustAdvance hu (by omega)).mono fun _ v hv =>
        fails_reachCurrent (by omega) hv (by omega))

theorem accesses_of_readable (h : Readable mode format kept (k + 1) s) (hk : k < kept.length)
    (hsmall : k < UInt32.size) (hback : ¬ GoesBack s i) : Accesses mode format kept i s := by
  have hle : k ≤ i.toNat := by
    by_contra hlt
    refine hback (.inr ⟨_, h.currentI, ?_⟩)
    rw [UInt32.lt_iff_toNat_lt, UInt32.toNat_ofNat_of_lt' hsmall]
    omega
  unfold Accesses access
  split_ifs with hi
  · rw [returns_bind]
    refine (returns_goesBack_not hback h.currentI).mono fun back t ht => ?_
    rw [ht.1, ht.2]
    exact returns_reachCurrent hi h hle
  · rw [fails_bind]
    refine .inr ((returns_goesBack_not hback h.currentI).mono fun back t ht => ?_)
    rw [ht.1, ht.2]
    exact fails_reachCurrent (by omega) h hk

/-- The record read last stays in the buffer of a file that has been read to its end. -/
theorem returns_access_last (h : FileEnded format kept s) (hindex : s.currentI = some i)
    (hlast : i.toNat + 1 = kept.length) (hback : ¬ GoesBack s i) :
    Returns (access format i) s fun b t => kept[i.toNat]? = some b ∧ t = s := by
  obtain ⟨hstored, ⟨-, hbuffer⟩, -⟩ := h
  have hb := List.getElem?_eq_getElem (show i.toNat < kept.length by omega)
  unfold access
  rw [returns_bind]
  refine (returns_goesBack_not hback hindex).mono fun back t ht => ?_
  rw [ht.1, ht.2, if_neg Bool.false_ne_true, returns_bind]
  refine (returns_mustReach_self hindex _).mono fun _ u hu => ?_
  rw [hu]
  unfold current
  simp only [returns_bind, returns_get, hstored.useFile, if_true, returns_pure, and_true]
  rw [hbuffer _ _ hlast.symm hb]
  exact hb

/-! ## An array whose cursor is not on a record -/

/-- No record is under the cursor, and the next step does not start over. -/
structure Stuck (s : SerializeBatch B) : Prop where
  useFile : s.useFile = false
  restart : ∀ c, s.currentI = some c → s.rewindStore = some false
  cursor : ∀ j, s.storeCursor = some j → s.store.length ≤ j

theorem Stuck.fails_current (h : Stuck s) : Fails current s fun e _ => e = .undefined := by
  unfold current
  simp only [fails_bind, returns_get, h.useFile, Bool.false_eq_true, if_false]
  refine .inr ?_
  cases hcursor : s.storeCursor with
  | none => exact .inl rfl
  | some j =>
    refine .inr ((returns_defined rfl).mpr ((fails_defined ?_).mpr rfl))
    exact List.getElem?_eq_none (h.cursor j hcursor)

theorem fails_incStoreCursor (h : ∀ j, s.storeCursor = some j → s.store.length ≤ j) :
    Fails incStoreCursor s fun e _ => e = .undefined := by
  unfold incStoreCursor
  simp only [fails_bind, returns_get, fails_get, false_or]
  cases hcursor : s.storeCursor with
  | none => exact .inl rfl
  | some j =>
    refine .inr ((returns_defined rfl).mpr ?_)
    rw [if_neg (Nat.not_lt.mpr (h j hcursor)), fails_throw]

theorem Stuck.fails_advance (h : Stuck s) {c : UInt32} (hc : s.currentI = some c) :
    Fails (advance format) s fun e _ => e = .undefined := by
  unfold advance
  simp only [fails_bind, returns_get, fails_get, false_or, h.useFile, Bool.false_eq_true, if_false,
    returns_defined (h.restart c hc), returns_incCurrentI hc]
  exact .inr (.inr (.inl (fails_incStoreCursor h.cursor)))

theorem Stuck.fails_mustReach (h : Stuck s) {c : UInt32} (hc : s.currentI = some c) (hlt : c < i)
    {fuel : ℕ} (hfuel : 0 < fuel) :
    Fails (mustReach format i fuel) s fun e _ => e = .undefined := by
  obtain ⟨fuel, rfl⟩ := Nat.exists_eq_succ_of_ne_zero (Nat.pos_iff_ne_zero.mp hfuel)
  unfold mustReach mustAdvance
  simp only [fails_bind, returns_get, fails_get, false_or, returns_defined hc, if_pos hlt]
  exact .inr (.inl (.inl (h.fails_advance hc)))

variable (format) in
theorem Stuck.fails_access (h : Stuck s) (hback : ¬ GoesBack s i) :
    Fails (access format i) s fun e _ => e = .undefined := by
  have hzero : i ≠ 0 := fun hzero => hback (.inl hzero)
  unfold access
  rw [fails_bind]
  cases hc : s.currentI with
  | none =>
    unfold goesBack
    rw [if_neg hzero]
    simp only [fails_bind, returns_get]
    exact .inl (.inr (.inl ((fails_defined hc).mpr rfl)))
  | some c =>
    refine .inr ((returns_goesBack_not hback hc).mono fun back t ht => ?_)
    rw [ht.1, ht.2, if_neg Bool.false_ne_true, fails_bind]
    have hle : ¬ i < c := fun hlt => hback (.inr ⟨c, hc, hlt⟩)
    rcases Nat.lt_or_eq_of_le (UInt32.not_lt.mp hle) with hlt | heq
    · exact .inl (h.fails_mustReach hc hlt (Nat.zero_lt_of_lt hlt))
    · obtain rfl : c = i := UInt32.toNat_inj.mp heq
      refine .inr ((returns_mustReach_self hc _).mono fun _ u hu => ?_)
      rw [hu]
      exact h.fails_current

end Carmel.SerializeBatch
