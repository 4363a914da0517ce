/-
# The cursor of a batch

Where the cursor is, as one notion for both modes: `Readable k` says that `k` records have
been read since the batch was rewound, and `Ended` that the end has been met too. Rewinding
leads to `Readable 0` from wherever a written batch is, and `advance` goes one further.
-/

import Carmel.Storage.SerializeBatch

namespace Carmel.SerializeBatch

open Math

variable {B : Type}

/-- The file before the mark of the end. -/
def writtenRecords (format : RecordFormat B) (kept : List B) : List UInt8 :=
  kept.flatMap fun b => recordFollows ++ format.save b

def written (format : RecordFormat B) (kept : List B) : List UInt8 :=
  writtenRecords format kept ++ endRecords

theorem writtenRecords_concat (format : RecordFormat B) (kept : List B) (b : B) :
    writtenRecords format (kept ++ [b]) =
      writtenRecords format kept ++ (recordFollows ++ format.save b) := by
  simp [writtenRecords]

theorem drop_written (format : RecordFormat B) {kept : List B} {k : ℕ} {b : B}
    (hb : kept[k]? = some b) (stale : List UInt8) :
    ∃ rest, (written format kept ++ stale).drop (writtenRecords format (kept.take k)).length =
      recordFollows ++ (format.save b ++ rest) := by
  obtain ⟨hlt, rfl⟩ := List.getElem?_eq_some_iff.mp hb
  have hkept : kept = kept.take k ++ kept[k] :: kept.drop (k + 1) := by
    rw [List.getElem_cons_drop, List.take_append_drop]
  have hwritten : written format kept = writtenRecords format (kept.take k) ++
      (recordFollows ++ (format.save kept[k] ++ written format (kept.drop (k + 1)))) := by
    conv_lhs => rw [hkept]
    simp only [written, writtenRecords, List.flatMap_append, List.flatMap_cons, List.append_assoc]
  rw [hwritten, List.append_assoc, List.drop_left]
  exact ⟨written format (kept.drop (k + 1)) ++ stale, by simp⟩

theorem length_kept_le (format : RecordFormat B) (kept : List B) :
    kept.length ≤ (written format kept).length := by
  induction kept with
  | nil => exact Nat.zero_le _
  | cons b kept ih =>
    simp only [written, writtenRecords, List.flatMap_cons, List.length_append, List.length_cons,
      recordFollows] at ih ⊢
    omega

structure MemoryStored (kept : List B) (s : SerializeBatch B) : Prop where
  useFile : s.useFile = false
  store : s.store = kept
  totalItems : s.totalItems = kept.length

/-- The file may go on behind the end of the batch, where an earlier batch was longer. -/
structure FileStored (format : RecordFormat B) (kept : List B) (s : SerializeBatch B) : Prop where
  useFile : s.useFile = true
  sound : s.f.fail = false
  bytes : ∃ stale, s.f.bytes = written format kept ++ stale
  totalItems : s.totalItems = kept.length

/-- The batch is written, to a file if `mode` is `true` and to memory if not. -/
def Stored (mode : Bool) (format : RecordFormat B) (kept : List B) (s : SerializeBatch B) : Prop :=
  match mode with
  | false => MemoryStored kept s
  | true => FileStored format kept s

/-- `k` steps since the array was rewound. The step to its end is one of them. -/
def MemoryAt (kept : List B) : ℕ → SerializeBatch B → Prop
  | 0, s => MemoryStored kept s ∧ s.rewindStore = some true
  | j + 1, s => MemoryStored kept s ∧ s.rewindStore = some false ∧ s.storeCursor = some j ∧
      s.currentI = some (UInt32.ofNat j)

/-- The record read last, of `k`, is in the buffer. -/
def Buffered (kept : List B) (k : ℕ) (s : SerializeBatch B) : Prop :=
  s.currentI = some (UInt32.ofNat k - 1) ∧ ∀ j b, k = j + 1 → kept[j]? = some b → s.currentFromF = b

def FileAt (format : RecordFormat B) (kept : List B) (k : ℕ) (s : SerializeBatch B) : Prop :=
  FileStored format kept s ∧ Buffered kept k s ∧
    s.f.pos = (writtenRecords format (kept.take k)).length

def FileEnded (format : RecordFormat B) (kept : List B) (s : SerializeBatch B) : Prop :=
  FileStored format kept s ∧ Buffered kept kept.length s ∧ s.f.pos = (written format kept).length

def Readable (mode : Bool) (format : RecordFormat B) (kept : List B) (k : ℕ)
    (s : SerializeBatch B) : Prop :=
  match mode with
  | false => MemoryAt kept k s
  | true => FileAt format kept k s

def Ended (mode : Bool) (format : RecordFormat B) (kept : List B) (s : SerializeBatch B) : Prop :=
  match mode with
  | false => MemoryAt kept (kept.length + 1) s
  | true => FileEnded format kept s

variable {mode : Bool} {format : RecordFormat B} {kept : List B} {k : ℕ} {b : B} {s : SerializeBatch B}

theorem MemoryAt.stored (h : MemoryAt kept k s) : MemoryStored kept s := by
  cases k with
  | zero => exact h.1
  | succ j => exact h.1

theorem Readable.stored (h : Readable mode format kept k s) : Stored mode format kept s := by
  cases mode with
  | false => exact MemoryAt.stored h
  | true => exact h.1

theorem Ended.stored (h : Ended mode format kept s) : Stored mode format kept s := by
  cases mode with
  | false => exact MemoryAt.stored (k := kept.length + 1) h
  | true => exact h.1

theorem Stored.useFile (h : Stored mode format kept s) : s.useFile = mode := by
  cases mode with
  | false => exact MemoryStored.useFile h
  | true => exact FileStored.useFile h

theorem Readable.currentI (h : Readable mode format kept (k + 1) s) :
    s.currentI = some (UInt32.ofNat k) := by
  cases mode with
  | false => exact h.2.2.2
  | true =>
    rw [h.2.1.1, UInt32.ofNat_add]
    simp

theorem returns_defined {α : Type} {a : Option α} {a' : α} (h : a = some a')
    {P : α → SerializeBatch B → Prop} : Returns (defined a) s P ↔ P a' s := by
  rw [h]
  rfl

theorem fails_defined {α : Type} {a : Option α} (h : a = none)
    {P : BatchError → SerializeBatch B → Prop} : Fails (defined a) s P ↔ P .undefined s := by
  rw [h]
  rfl

theorem returns_rewind (h : Stored mode format kept s) :
    Returns rewind s fun _ t => Readable mode format kept 0 t := by
  unfold rewind seekStart
  have hmode := h.useFile
  cases mode with
  | false =>
    obtain ⟨-, hstore, htotal⟩ := h
    simp only [returns_bind, returns_modify, returns_get, hmode, Bool.false_eq_true, if_false]
    exact ⟨⟨rfl, hstore, htotal⟩, rfl⟩
  | true =>
    obtain ⟨-, hsound, hbytes, htotal⟩ := h
    simp only [returns_bind, returns_modify, returns_get, hmode, if_true, hsound,
      Bool.false_eq_true, if_false]
    refine ⟨⟨rfl, rfl, hbytes, htotal⟩, ⟨rfl, ?_⟩, rfl⟩
    intro j b hj
    cases hj

theorem returns_incCurrentI {i : UInt32} (h : s.currentI = some i)
    {P : PUnit → SerializeBatch B → Prop} :
    Returns incCurrentI s P ↔ P ⟨⟩ { s with currentI := some (i + 1) } := by
  unfold incCurrentI
  simp only [returns_bind, returns_get, returns_defined h, returns_modify]

theorem returns_advance_memory (h : MemoryAt kept k s) (hk : k ≤ kept.length) :
    Returns (advance format) s fun more t => more = decide (k < kept.length) ∧
      MemoryAt kept (k + 1) t := by
  have hstored := h.stored
  unfold advance incStoreCursor
  cases k with
  | zero =>
    simp only [returns_bind, returns_get, hstored.useFile, Bool.false_eq_true, if_false,
      returns_defined h.2, if_true, returns_modify, returns_pure]
    refine (returns_defined rfl).mpr ⟨?_, ⟨rfl, hstored.store, hstored.totalItems⟩, rfl, rfl, rfl⟩
    rw [hstored.store]
    exact decide_eq_decide.mpr (by omega)
  | succ j =>
    obtain ⟨-, hrestart, hcursor, hindex⟩ := h
    have hj : j < s.store.length := by rw [hstored.store]; omega
    simp only [returns_bind, returns_get, hstored.useFile, Bool.false_eq_true, if_false,
      returns_defined hrestart, returns_incCurrentI hindex, returns_defined hcursor, hj, if_true,
      returns_modify, returns_pure]
    refine (returns_defined rfl).mpr ⟨?_, ⟨rfl, hstored.store, hstored.totalItems⟩,
      hrestart, rfl, ?_⟩
    · rw [hstored.store]
      exact decide_eq_decide.mpr (by omega)
    · rw [UInt32.ofNat_add]
      rfl

theorem returns_loadHeader {header rest : List UInt8} (hsound : s.f.fail = false)
    (hbytes : s.f.bytes.drop s.f.pos = header ++ rest) (hlen : header.length = 4)
    {P : List UInt8 → SerializeBatch B → Prop} :
    Returns loadHeader s P ↔ P header { s with f := { s.f with pos := s.f.pos + 4 } } := by
  have htake : (s.f.bytes.drop s.f.pos).take 4 = header := by rw [hbytes, ← hlen, List.take_left]
  unfold loadHeader
  simp only [returns_bind, returns_get, hsound, Bool.false_eq_true, if_false, htake, hlen,
    Nat.lt_irrefl, returns_set, returns_pure]

theorem returns_loadRecord {rest : List UInt8} (hsound : s.f.fail = false)
    (hbytes : s.f.bytes.drop s.f.pos = format.save b ++ rest)
    {P : PUnit → SerializeBatch B → Prop} :
    Returns (loadRecord format) s P ↔ P ⟨⟩ { s with
        f := { s.f with pos := s.f.pos + (format.save b).length }, currentFromF := b } := by
  unfold loadRecord
  simp only [returns_bind, returns_get, hsound, Bool.false_eq_true, if_false, hbytes,
    format.load_save, returns_set]

theorem returns_advance_file (h : FileAt format kept k s) (hb : kept[k]? = some b) :
    Returns (advance format) s fun more t => more = true ∧ FileAt format kept (k + 1) t := by
  obtain ⟨hstored, ⟨hindex, -⟩, hpos⟩ := h
  obtain ⟨stale, hbytes⟩ := hstored.bytes
  obtain ⟨rest, hdrop⟩ := drop_written format hb stale
  rw [← hbytes, ← hpos] at hdrop
  have hdrop' : s.f.bytes.drop (s.f.pos + 4) = format.save b ++ rest := by
    rw [← List.drop_drop, hdrop]
    rfl
  unfold advance
  simp only [returns_bind, returns_get, hstored.useFile, if_true,
    returns_loadHeader hstored.sound hdrop rfl, if_neg (show recordFollows ≠ endRecords by decide)]
  rw [returns_incCurrentI (by exact hindex), returns_loadRecord (by exact hstored.sound)
    (by exact hdrop'), returns_pure]
  refine ⟨rfl, ⟨rfl, hstored.sound, hstored.bytes, hstored.totalItems⟩, ⟨?_, ?_⟩, ?_⟩
  · rw [UInt32.ofNat_add]
    simp
  · intro j b' hj hb'
    obtain rfl : k = j := by omega
    exact Option.some.inj (hb.symm.trans hb')
  · obtain ⟨hlt, rfl⟩ := List.getElem?_eq_some_iff.mp hb
    rw [List.take_succ_eq_append_getElem hlt, writtenRecords_concat, List.length_append,
      List.length_append, ← hpos]
    exact Nat.add_assoc _ _ _

theorem returns_advance_end (h : FileAt format kept kept.length s) :
    Returns (advance format) s fun more t => more = false ∧ FileEnded format kept t := by
  obtain ⟨hstored, hbuffered, hpos⟩ := h
  obtain ⟨stale, hbytes⟩ := hstored.bytes
  rw [List.take_length] at hpos
  have hdrop : s.f.bytes.drop s.f.pos = endRecords ++ stale := by
    rw [hbytes, hpos, written, List.append_assoc, List.drop_left]
  unfold advance
  simp only [returns_bind, returns_get, hstored.useFile, if_true,
    returns_loadHeader hstored.sound hdrop rfl, returns_pure, true_and]
  refine ⟨⟨rfl, hstored.sound, hstored.bytes, hstored.totalItems⟩, hbuffered, ?_⟩
  rw [written, List.length_append, ← hpos]
  rfl

theorem returns_advance (h : Readable mode format kept k s) (hk : k < kept.length) :
    Returns (advance format) s fun more t => more = true ∧ Readable mode format kept (k + 1) t := by
  cases mode with
  | false =>
    exact (returns_advance_memory h (Nat.le_of_lt hk)).mono fun more t ht =>
      ⟨ht.1.trans (decide_eq_true hk), ht.2⟩
  | true => exact returns_advance_file h (List.getElem?_eq_getElem hk)

theorem returns_advance_last (h : Readable mode format kept kept.length s) :
    Returns (advance format) s fun more t => more = false ∧ Ended mode format kept t := by
  cases mode with
  | false =>
    exact (returns_advance_memory h (Nat.le_refl _)).mono fun more t ht =>
      ⟨ht.1.trans (decide_eq_false (Nat.lt_irrefl _)), ht.2⟩
  | true => exact returns_advance_end h

theorem returns_current (h : Readable mode format kept (k + 1) s) (hb : kept[k]? = some b) :
    Returns current s fun a t => a = b ∧ t = s := by
  unfold current
  cases mode with
  | false =>
    obtain ⟨hstored, -, hcursor, -⟩ := h
    have hget : s.store[k]? = some b := by rw [hstored.store, hb]
    simp only [returns_bind, returns_get, hstored.useFile, Bool.false_eq_true, if_false,
      returns_defined hcursor, returns_defined hget, and_self]
  | true =>
    obtain ⟨hstored, ⟨-, hbuffer⟩, -⟩ := h
    simp only [returns_bind, returns_get, hstored.useFile, if_true, returns_pure, and_true]
    exact hbuffer k b rfl hb

end Carmel.SerializeBatch
