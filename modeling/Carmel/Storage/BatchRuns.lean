/-
# Runs of a batch

A batch is written, and then enumerated and indexed in any order, any number of times. The
runs in which every `operator[]` finds the cursor where it expects it return what was kept;
in memory no other runs do.
-/

import Carmel.Storage.BatchAccess

namespace Carmel.SerializeBatch

open Math

variable {B : Type} {format : RecordFormat B} {kept : List B} {s : SerializeBatch B}

/-- The file up to the position, whatever comes after it. -/
def WrittenTo (front : List UInt8) (f : Fstream) : Prop :=
  f.fail = false ∧ f.pos = front.length ∧ ∃ stale, f.bytes = front ++ stale

theorem returns_save {front : List UInt8} (h : WrittenTo front s.f) (bytes : List UInt8) :
    Returns (save bytes) s fun _ t => WrittenTo (front ++ bytes) t.f ∧ t = { s with f := t.f } := by
  obtain ⟨hsound, hpos, stale, hbytes⟩ := h
  unfold save
  simp only [returns_bind, returns_get, hsound, Bool.false_eq_true, if_false, returns_set, and_true]
  refine ⟨rfl, ?_, stale.drop bytes.length, ?_⟩
  · rw [hpos, List.length_append]
  · rw [hbytes, hpos, List.take_left, ← List.drop_drop, List.drop_left]

/-- What has been kept so far is in the array, or in the file up to its position. -/
structure Keeping (format : RecordFormat B) (kept : List B) (s : SerializeBatch B) : Prop where
  totalItems : s.totalItems = kept.length
  memory : s.useFile = false → s.store = kept ∧ s.storeCursor = none
  file : s.useFile = true → WrittenTo (writtenRecords format kept) s.f

/-- Writing leaves the index as it was. -/
def SameIndex (s t : SerializeBatch B) : Prop :=
  t.useFile = s.useFile ∧ t.currentI = s.currentI ∧ t.rewindStore = s.rewindStore

theorem SameIndex.trans {t u : SerializeBatch B} (h : SameIndex s t) (h' : SameIndex t u) :
    SameIndex s u :=
  ⟨h'.1.trans h.1, h'.2.1.trans h.2.1, h'.2.2.trans h.2.2⟩

variable (format) in
theorem returns_clear (h : s.useFile = true → s.f.fail = false) :
    Returns clear s fun _ t => Keeping format [] t ∧ SameIndex s t := by
  unfold clear seekStart
  cases hmode : s.useFile with
  | false =>
    simp only [returns_bind, returns_get, hmode, Bool.false_eq_true, if_false, returns_modify]
    exact ⟨⟨rfl, fun _ => ⟨rfl, rfl⟩, fun h => by cases h⟩, hmode.symm, rfl, rfl⟩
  | true =>
    simp only [returns_bind, returns_get, hmode, if_true, returns_modify, h hmode, Bool.false_eq_true,
      if_false]
    exact ⟨⟨rfl, fun h => (by cases h), fun _ => ⟨rfl, rfl, _, rfl⟩⟩, hmode.symm, rfl, rfl⟩

theorem returns_addRecord (h : Keeping format kept s) (record : B × Bool) :
    Returns (addRecord format record) s fun _ t =>
      Keeping format (kept ++ keptRecords [record]) t ∧ SameIndex s t := by
  obtain ⟨b, keep⟩ := record
  unfold addRecord startNew keepNew dropNew
  cases hmode : s.useFile with
  | false =>
    obtain ⟨hstore, hcursor⟩ := h.memory hmode
    cases keep with
    | false =>
      simp only [returns_bind, returns_modify, hmode, Bool.false_eq_true, if_false]
      refine ⟨⟨?_, fun _ => ⟨?_, rfl⟩, fun h => by cases h⟩, hmode.symm, rfl, rfl⟩
      · exact h.totalItems.trans (by simp [keptRecords])
      · simp [hstore, keptRecords]
    | true =>
      simp only [returns_bind, returns_modify, returns_get, hmode, Bool.false_eq_true, if_false,
        if_true, returns_pure]
      refine ⟨⟨?_, fun _ => ⟨?_, rfl⟩, fun h => by cases h⟩, hmode.symm, rfl, rfl⟩
      · exact (congrArg (· + 1) h.totalItems).trans (by simp [keptRecords])
      · simp [hstore, keptRecords]
  | true =>
    have hfile := h.file hmode
    cases keep with
    | false =>
      simp only [returns_bind, returns_modify, hmode, Bool.false_eq_true, if_false, if_true]
      refine ⟨⟨?_, fun h => (by cases h), fun _ => ?_⟩, hmode.symm, rfl, rfl⟩
      · exact h.totalItems.trans (by simp [keptRecords])
      · rw [show kept ++ keptRecords [(b, false)] = kept by simp [keptRecords]]
        exact hfile
    | true =>
      simp only [returns_bind, returns_modify, returns_get, hmode, if_true]
      refine (returns_save (by exact hfile) _).mono fun _ t ht => ?_
      refine (returns_save ht.1 _).mono fun _ u hu => ?_
      have hfields := ht.2
      have hfields' := hu.2
      rw [hfields] at hfields'
      rw [hfields']
      rw [hfields] at hu
      refine ⟨⟨?_, fun h => (by cases h), fun _ => ?_⟩, hmode.symm, rfl, rfl⟩
      · exact (congrArg (· + 1) h.totalItems).trans (by simp [keptRecords])
      · rw [show keptRecords [(b, true)] = [b] from rfl, writtenRecords_concat, ← List.append_assoc]
        exact hu.1

theorem returns_addRecords {records : List (B × Bool)} (h : Keeping format kept s) :
    Returns (addRecords format records) s fun _ t =>
      Keeping format (kept ++ keptRecords records) t ∧ SameIndex s t := by
  induction records generalizing kept s with
  | nil =>
    unfold addRecords
    rw [returns_pure, show keptRecords ([] : List (B × Bool)) = [] from rfl, List.append_nil]
    exact ⟨h, rfl, rfl, rfl⟩
  | cons record records ih =>
    unfold addRecords
    rw [returns_bind]
    refine (returns_addRecord h record).mono fun _ t ht => ?_
    refine (ih ht.1).mono fun _ u hu => ⟨?_, ht.2.trans hu.2⟩
    have hkept : keptRecords (record :: records) = keptRecords [record] ++ keptRecords records := by
      rw [keptRecords, keptRecords, keptRecords, ← List.map_append, ← List.filter_append]
      rfl
    rw [hkept, ← List.append_assoc]
    exact hu.1

theorem returns_markEnd (h : Keeping format kept s) :
    Returns markEnd s fun _ t => Stored s.useFile format kept t ∧ SameIndex s t ∧
      (s.useFile = false → t.storeCursor = none) := by
  unfold markEnd
  rw [returns_bind, returns_get]
  cases hmode : s.useFile with
  | false =>
    obtain ⟨hstore, hcursor⟩ := h.memory hmode
    rw [if_neg Bool.false_ne_true, returns_pure]
    exact ⟨⟨hmode, hstore, h.totalItems⟩, ⟨rfl, rfl, rfl⟩, fun _ => hcursor⟩
  | true =>
    rw [if_pos rfl]
    refine (returns_save (h.file hmode) _).mono fun _ t ht => ?_
    obtain ⟨⟨hsound, -, hbytes⟩, hfields⟩ := ht
    rw [hfields]
    exact ⟨⟨hmode, hsound, hbytes, h.totalItems⟩, ⟨rfl, rfl, rfl⟩, fun h => by cases h⟩

variable (format) in
theorem returns_populate (h : s.useFile = true → s.f.fail = false) (records : List (B × Bool)) :
    Returns (populate format records) s fun _ t => Stored s.useFile format (keptRecords records) t ∧
      SameIndex s t ∧ (s.useFile = false → t.storeCursor = none) := by
  unfold populate
  rw [returns_bind]
  refine (returns_clear format h).mono fun _ t ht => ?_
  rw [returns_bind]
  refine (returns_addRecords ht.1).mono fun _ u hu => ?_
  have hsame := ht.2.trans hu.2
  refine (returns_markEnd hu.1).mono fun _ v hv => ⟨?_, hsame.trans hv.2.1, ?_⟩
  · rw [← hsame.1]
    exact hv.1
  · intro hmode
    exact hv.2.2 (hsame.1.trans hmode)

end SerializeBatch

open Math SerializeBatch

/-- What a program does with a batch. -/
inductive BatchOp (B : Type)
  | populate (records : List (B × Bool))
  | enumerate
  | access (i : UInt32)
  | size

/-- What it gets to see. -/
inductive BatchOutcome (B : Type)
  | done
  | visited (read : List B)
  | record (b : B)
  | count (n : ℕ)
  | error (e : BatchError)

/-- An operation, with what it returns or throws. -/
def BatchM.observe {B α : Type} (m : BatchM B α) (f : α → BatchOutcome B) (s : SerializeBatch B) :
    BatchOutcome B × SerializeBatch B :=
  match m s with
  | .ok a t => (f a, t)
  | .error e t => (.error e, t)

/-- Where the last read has left the cursor: it has read nothing since the batch was written,
it is on a record, or it has met the end. -/
inductive BatchPhase
  | fresh
  | reading
  | ended
deriving DecidableEq

/-- What has been written, and what has been read of it. -/
structure BatchHistory (B : Type) where
  kept : List B
  phase : BatchPhase

namespace BatchOp

variable {B : Type}

def perform (format : RecordFormat B) : BatchOp B → SerializeBatch B →
    BatchOutcome B × SerializeBatch B
  | .populate records => BatchM.observe (SerializeBatch.populate format records) fun _ => .done
  | .enumerate => BatchM.observe (SerializeBatch.enumerate format) .visited
  | .access i => BatchM.observe (SerializeBatch.access format i) .record
  | .size => fun s => (.count s.totalItems, s)

/-- What the operation should let a program see: the kept records in order, or an exception
for an index that is too large. -/
def Right (kept : List B) : BatchOp B → BatchOutcome B → Prop
  | .populate _, out => out = .done
  | .enumerate, out => out = .visited kept
  | .access i, out => (∃ b, kept[i.toNat]? = some b ∧ out = .record b) ∨
      kept.length ≤ i.toNat ∧ ∃ e, e ≠ .undefined ∧ out = .error e
  | .size, out => out = .count kept.length

/-- `operator[]` goes back to the start, or goes on from a record, or (in a file) asks for
the last record, which is still in the buffer. -/
def Allowed (h : BatchHistory B) (s : SerializeBatch B) : BatchOp B → Prop
  | .access i => GoesBack s i ∨ h.phase = .reading ∨
      h.phase = .ended ∧ s.useFile = true ∧ s.currentI = some i ∧ i.toNat + 1 = h.kept.length
  | _ => True

instance (h : BatchHistory B) (s : SerializeBatch B) (op : BatchOp B) : Decidable (op.Allowed h s) := by
  cases op <;> unfold Allowed <;> infer_instance

/-- The history after the operation. -/
def after (h : BatchHistory B) (s : SerializeBatch B) : BatchOp B → BatchHistory B
  | .populate records => ⟨keptRecords records, .fresh⟩
  | .enumerate => ⟨h.kept, .ended⟩
  | .access i =>
    if h.kept.length ≤ i.toNat then ⟨h.kept, .ended⟩
    else if GoesBack s i then ⟨h.kept, .reading⟩
    else h
  | .size => h

end BatchOp

/-- Every operation of the run is allowed when it comes. -/
def AllowedRun {B : Type} (format : RecordFormat B) :
    List (BatchOp B) → BatchHistory B → SerializeBatch B → Prop
  | [], _, _ => True
  | op :: ops, h, s =>
    op.Allowed h s ∧ AllowedRun format ops (op.after h s) (op.perform format s).2

instance AllowedRun.decidable {B : Type} (format : RecordFormat B) :
    ∀ (ops : List (BatchOp B)) (h : BatchHistory B) (s : SerializeBatch B),
      Decidable (AllowedRun format ops h s)
  | [], _, _ => isTrue trivial
  | op :: ops, h, s =>
    have := AllowedRun.decidable format ops (op.after h s) (op.perform format s).2
    inferInstanceAs (Decidable (op.Allowed h s ∧ _))

/-- Every operation of the run lets the program see what it should. -/
def RightRun {B : Type} (format : RecordFormat B) :
    List (BatchOp B) → BatchHistory B → SerializeBatch B → Prop
  | [], _, _ => True
  | op :: ops, h, s =>
    op.Right h.kept (op.perform format s).1 ∧
      RightRun format ops (op.after h s) (op.perform format s).2

variable {B : Type} {mode : Bool} {format : RecordFormat B} {h : BatchHistory B}
  {s : SerializeBatch B}

/-- The batch is as its history says. -/
def BatchHistory.Holds (mode : Bool) (format : RecordFormat B) (h : BatchHistory B)
    (s : SerializeBatch B) : Prop :=
  match h.phase with
  | .fresh => Stored mode format h.kept s ∧ (mode = false → Stuck s)
  | .reading => ∃ k < h.kept.length, k < UInt32.size ∧ Readable mode format h.kept (k + 1) s
  | .ended => Ended mode format h.kept s

theorem BatchHistory.Holds.stored (hs : h.Holds mode format s) : Stored mode format h.kept s := by
  unfold Holds at hs
  cases hphase : h.phase with
  | fresh =>
    rw [hphase] at hs
    exact hs.1
  | reading =>
    rw [hphase] at hs
    obtain ⟨k, -, -, hk⟩ := hs
    exact hk.stored
  | ended =>
    rw [hphase] at hs
    exact Ended.stored hs

theorem observe_of_returns {α : Type} {m : BatchM B α} {f : α → BatchOutcome B}
    {P : α → SerializeBatch B → Prop} (hm : Returns m s P) :
    ∃ a, (m.observe f s).1 = f a ∧ P a (m.observe f s).2 := by
  obtain ⟨a, t, hms, ha⟩ := returns_iff.mp hm
  unfold BatchM.observe
  rw [hms]
  exact ⟨a, rfl, ha⟩

theorem observe_of_fails {α : Type} {m : BatchM B α} {f : α → BatchOutcome B}
    {P : BatchError → SerializeBatch B → Prop} (hm : Fails m s P) :
    ∃ e, (m.observe f s).1 = .error e ∧ P e (m.observe f s).2 := by
  obtain ⟨e, t, hms, he⟩ := fails_iff.mp hm
  unfold BatchM.observe
  rw [hms]
  exact ⟨e, rfl, he⟩

/-! ## What one operation preserves -/

theorem BatchHistory.Holds.restart (hs : h.Holds false format s) {c : UInt32}
    (hc : s.currentI = some c) : s.rewindStore = some false := by
  unfold Holds at hs
  cases hphase : h.phase with
  | fresh =>
    rw [hphase] at hs
    exact (hs.2 rfl).restart c hc
  | reading =>
    rw [hphase] at hs
    obtain ⟨k, -, -, hk⟩ := hs
    exact hk.2.1
  | ended =>
    rw [hphase] at hs
    exact hs.2.1

theorem holds_populate (hmode : s.useFile = mode) (hsound : s.useFile = true → s.f.fail = false)
    (hrestart : mode = false → ∀ c, s.currentI = some c → s.rewindStore = some false)
    (h : BatchHistory B) (records : List (B × Bool)) :
    (BatchOp.populate records).Right h.kept ((BatchOp.populate records).perform format s).1 ∧
      ((BatchOp.populate records).after h s).Holds mode format
        ((BatchOp.populate records).perform format s).2 := by
  obtain ⟨_, hout, hstored, hsame, hcursor⟩ := observe_of_returns
    (f := fun _ => BatchOutcome.done) (returns_populate format hsound records)
  refine ⟨hout, ?_, fun hmemory => ?_⟩
  · rw [← hmode]
    exact hstored
  · have hfile := hmode.trans hmemory
    constructor
    · exact hsame.1.trans hfile
    · intro c hc
      exact hsame.2.2.trans (hrestart hmemory c (hsame.2.1.symm.trans hc))
    · intro j hj
      cases (hcursor hfile).symm.trans hj

theorem holds_enumerate (hs : Stored mode format h.kept s) :
    BatchOp.enumerate.Right h.kept (BatchOp.enumerate.perform format s).1 ∧
      (BatchOp.enumerate.after h s).Holds mode format (BatchOp.enumerate.perform format s).2 := by
  obtain ⟨read, hout, hread, hended⟩ := observe_of_returns (f := BatchOutcome.visited)
    (returns_enumerate hs)
  exact ⟨hout.trans (congrArg _ hread), hended⟩

theorem holds_access {i : UInt32} (hs : Accesses mode format h.kept i s)
    (hphase : GoesBack s i ∨ h.phase = .reading) :
    (BatchOp.access i).Right h.kept ((BatchOp.access i).perform format s).1 ∧
      ((BatchOp.access i).after h s).Holds mode format ((BatchOp.access i).perform format s).2 := by
  unfold Accesses at hs
  simp only [BatchOp.after]
  split_ifs at hs with hi
  · obtain ⟨b, hout, hb, hreadable⟩ := observe_of_returns (f := BatchOutcome.record) hs
    refine ⟨.inl ⟨b, hb, hout⟩, ?_⟩
    have hreading : BatchHistory.Holds mode format ⟨h.kept, .reading⟩
        ((BatchOp.access i).perform format s).2 :=
      ⟨i.toNat, hi, i.toNat_lt_size, hreadable⟩
    rw [if_neg (by omega)]
    split_ifs with hback
    · exact hreading
    · rcases hphase with hback' | hphase
      · exact absurd hback' hback
      · rw [show h = ⟨h.kept, .reading⟩ from hphase ▸ rfl]
        exact hreading
  · obtain ⟨e, hout, he, hended⟩ := observe_of_fails (f := BatchOutcome.record) hs
    rw [if_pos (by omega)]
    exact ⟨.inr ⟨by omega, e, by rw [he]; decide, hout⟩, hended⟩

theorem holds_access_last {i : UInt32} (hs : Ended mode format h.kept s) (hphase : h.phase = .ended)
    (hfile : s.useFile = true) (hindex : s.currentI = some i) (hlast : i.toNat + 1 = h.kept.length)
    (hback : ¬ GoesBack s i) :
    (BatchOp.access i).Right h.kept ((BatchOp.access i).perform format s).1 ∧
      ((BatchOp.access i).after h s).Holds mode format ((BatchOp.access i).perform format s).2 := by
  obtain rfl : mode = true := hs.stored.useFile.symm.trans hfile
  obtain ⟨b, hout, hb, hsame⟩ := observe_of_returns (f := BatchOutcome.record)
    (returns_access_last hs hindex hlast hback)
  refine ⟨.inl ⟨b, hb, hout⟩, ?_⟩
  simp only [BatchOp.after]
  rw [if_neg (by omega), if_neg hback, show h = ⟨h.kept, .ended⟩ from hphase ▸ rfl]
  have hperform : ((BatchOp.access i).perform format s).2 = s := hsame
  rw [hperform]
  exact hs

/-- **An allowed operation** lets the program see what it should, and leads to where the next
one starts from. -/
theorem BatchHistory.Holds.step (hs : h.Holds mode format s) {op : BatchOp B}
    (hop : op.Allowed h s) :
    op.Right h.kept (op.perform format s).1 ∧
      (op.after h s).Holds mode format (op.perform format s).2 := by
  cases op with
  | populate records =>
    refine holds_populate hs.stored.useFile (fun hfile => ?_) (fun hmode c hc => ?_) h records
    · obtain rfl : mode = true := hs.stored.useFile.symm.trans hfile
      exact hs.stored.sound
    · subst hmode
      exact hs.restart hc
  | enumerate => exact holds_enumerate hs.stored
  | access i =>
    by_cases hback : GoesBack s i
    · exact holds_access (accesses_of_goesBack hs.stored hback) (.inl hback)
    · rcases hop.resolve_left hback with hphase | ⟨hphase, hfile, hindex, hlast⟩
      · unfold Holds at hs
        rw [hphase] at hs
        obtain ⟨k, hk, hsmall, hreadable⟩ := hs
        exact holds_access (accesses_of_readable hreadable hk hsmall hback) (.inr hphase)
      · unfold Holds at hs
        rw [hphase] at hs
        exact holds_access_last hs hphase hfile hindex hlast hback
  | size =>
    refine ⟨?_, hs⟩
    have hstored := hs.stored
    cases mode with
    | false => exact congrArg _ (MemoryStored.totalItems hstored)
    | true => exact congrArg _ (FileStored.totalItems hstored)

/-- In memory, an operation that is not allowed finds no record under the cursor. -/
theorem BatchHistory.Holds.stuck (hs : h.Holds false format s) {i : UInt32}
    (hop : ¬ (BatchOp.access i).Allowed h s) : Stuck s := by
  have hphase : h.phase ≠ .reading := fun hphase => hop (.inr (.inl hphase))
  unfold Holds at hs
  cases hp : h.phase with
  | fresh =>
    rw [hp] at hs
    exact hs.2 rfl
  | reading => exact absurd hp hphase
  | ended =>
    rw [hp] at hs
    obtain ⟨hstored, hrestart, hcursor, -⟩ := hs
    refine ⟨hstored.useFile, fun _ _ => hrestart, fun j hj => ?_⟩
    rw [hstored.store]
    exact Nat.le_of_eq (Option.some.inj (hcursor.symm.trans hj))

theorem BatchHistory.Holds.allowed (hs : h.Holds false format s) {op : BatchOp B}
    (hright : op.Right h.kept (op.perform format s).1) : op.Allowed h s := by
  cases op with
  | access i =>
    by_contra hop
    have hback : ¬ GoesBack s i := fun hback => hop (.inl hback)
    obtain ⟨e, hout, he⟩ := observe_of_fails (f := BatchOutcome.record)
      ((hs.stuck hop).fails_access format hback)
    have hout' : ((BatchOp.access i).perform format s).1 = .error .undefined := by rw [← he]; exact hout
    rcases hright with ⟨b, -, hb⟩ | ⟨-, e', he', herror⟩
    · cases hout'.symm.trans hb
    · exact he' (BatchOutcome.error.inj (hout'.symm.trans herror)).symm
  | populate records => exact trivial
  | enumerate => exact trivial
  | size => exact trivial

/-! ## What a run lets a program see -/

theorem BatchHistory.Holds.run {ops : List (BatchOp B)} (hs : h.Holds mode format s)
    (hallowed : AllowedRun format ops h s) : RightRun format ops h s := by
  induction ops generalizing h s with
  | nil => exact trivial
  | cons op ops ih =>
    obtain ⟨hright, hnext⟩ := hs.step hallowed.1
    exact ⟨hright, ih hnext hallowed.2⟩

theorem BatchHistory.Holds.allowedRun {ops : List (BatchOp B)} (hs : h.Holds false format s)
    (hright : RightRun format ops h s) : AllowedRun format ops h s := by
  induction ops generalizing h s with
  | nil => exact trivial
  | cons op ops ih =>
    have hop := hs.allowed hright.1
    exact ⟨hop, ih (hs.step hop).2 hright.2⟩

theorem holds_make (mode : Bool) (default : B) (h : BatchHistory B) (records : List (B × Bool)) :
    (BatchOp.populate records).Right h.kept
        ((BatchOp.populate records).perform format (make mode default)).1 ∧
      ((BatchOp.populate records).after h (make mode default)).Holds mode format
        ((BatchOp.populate records).perform format (make mode default)).2 := by
  refine holds_populate rfl (fun _ => rfl) (fun _ c hc => ?_) h records
  cases hc

/-- **A batch shows what was kept** in every run whose operations are all allowed, in memory
and in a file: `enumerate` all of it in order, `operator[]` the record of the index or an
exception. In memory, a run with an operation that is not allowed shows something else. -/
theorem batch_runs (format : RecordFormat B) (default : B) (records : List (B × Bool))
    (ops : List (BatchOp B)) :
    (∀ mode, AllowedRun format (.populate records :: ops) ⟨[], .fresh⟩ (make mode default) →
      RightRun format (.populate records :: ops) ⟨[], .fresh⟩ (make mode default)) ∧
    (RightRun format (.populate records :: ops) ⟨[], .fresh⟩ (make false default) →
      AllowedRun format (.populate records :: ops) ⟨[], .fresh⟩ (make false default)) := by
  constructor
  · intro mode hallowed
    obtain ⟨hright, hnext⟩ := holds_make mode default ⟨[], .fresh⟩ records
    exact ⟨hright, hnext.run hallowed.2⟩
  · intro hright
    obtain ⟨-, hnext⟩ := holds_make false default ⟨[], .fresh⟩ records
    exact ⟨trivial, hnext.allowedRun hright.2⟩

/-- Records that are single bytes. -/
def byteFormat : RecordFormat UInt8 where
  save b := [b]
  load
    | [] => none
    | b :: _ => some (b, 1)
  load_save _ _ := rfl

/-- Three records are written to a file, one of them is dropped, and the rest is read in
several orders. -/
theorem batch_runs_file : RightRun byteFormat
    [.populate [(7, true), (8, false), (9, true)], .enumerate, .access 1, .access 0, .access 1,
      .access 2, .access 0, .access 5, .size] ⟨[], .fresh⟩ (make true 0) :=
  (batch_runs byteFormat 0 _ _).1 true (by decide)

/-- The first index asked for is 1. After all records have been visited, the index asked for
is their number. An index too large is asked for twice, and then 0. -/
theorem not_rightRun :
    ¬ RightRun byteFormat [.populate [(7, true), (9, true)], .access 1] ⟨[], .fresh⟩ (make true 0) ∧
    ¬ RightRun byteFormat [.populate [(7, true)], .enumerate, .access 1] ⟨[], .fresh⟩ (make false 0) ∧
    ¬ RightRun byteFormat [.populate [(7, true)], .access 0, .access 1, .access 1, .access 0]
      ⟨[], .fresh⟩ (make true 0) := by
  refine ⟨?_, ?_, ?_⟩
  · rintro ⟨-, ⟨b, -, hb⟩ | ⟨hlt, -⟩, -⟩
    · cases hb
    · revert hlt
      decide
  · rintro ⟨-, -, ⟨b, -, hb⟩ | ⟨-, e, he, herror⟩, -⟩
    · cases hb
    · exact he (BatchOutcome.error.inj herror).symm
  · rintro ⟨-, -, -, -, ⟨b, -, hb⟩ | ⟨hlt, -⟩, -⟩
    · cases hb
    · revert hlt
      decide

end Carmel
