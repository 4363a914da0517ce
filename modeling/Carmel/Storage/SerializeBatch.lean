/-
# Batches of records, in memory or in a file

A batch is written once and then read in order, from an array or from a file, through one
cursor: `advance` moves to the next record and `current` is the record moved to last. The
file is a string of bytes with one position and a failure flag that nothing clears. What C++
leaves undefined throws `undefined`.
-/

import Carmel.Math.Outcomes

namespace Carmel

open Math

/-- The exceptions of a batch, and undefined behaviour. -/
inductive BatchError
  | serializeBatchError
  | serializeBatchIndexError
  | simpleArchiveError
  | undefined
deriving DecidableEq, Repr

/-- How records are written and read back. `load` also tells how many bytes it read. -/
structure RecordFormat (B : Type) where
  save : B → List UInt8
  load : List UInt8 → Option (B × ℕ)
  load_save : ∀ b rest, load (save b ++ rest) = some (b, (save b).length)

/-- An `fstream` open for reading and writing. -/
structure Fstream where
  bytes : List UInt8
  pos : ℕ
  fail : Bool

structure SerializeBatch (B : Type) where
  useFile : Bool
  f : Fstream
  currentFromF : B
  store : List B
  storeCursor : Option ℕ
  currentI : Option UInt32
  rewindStore : Option Bool
  totalItems : ℕ

abbrev BatchM (B : Type) := EStateM BatchError (SerializeBatch B)

/-- The number `RECORD_FOLLOWS`, as it is stored. -/
def recordFollows : List UInt8 := [0x26, 0x59, 0x41, 0x31]

/-- The number `END_RECORDS`, as it is stored. -/
def endRecords : List UInt8 := [0x18, 0x28, 0x18, 0x27]

namespace SerializeBatch

variable {B : Type}

/-- The constructor. It sets neither the cursor nor the index. -/
def make (useFile : Bool) (default : B) : SerializeBatch B where
  useFile := useFile
  f := ⟨[], 0, false⟩
  currentFromF := default
  store := []
  storeCursor := none
  currentI := none
  rewindStore := none
  totalItems := 0

/-- A variable that was never set has no value. -/
def defined {α : Type} (a : Option α) : BatchM B α :=
  match a with
  | some a => pure a
  | none => throw .undefined

/-- `seekg(0)` and `seekp(0)`, which do nothing on a stream that has failed. -/
def seekStart : BatchM B Unit :=
  modify fun s => if s.f.fail then s else { s with f := { s.f with pos := 0 } }

/-- `oa << …`. -/
def save (bytes : List UInt8) : BatchM B Unit := do
  let s ← get
  if s.f.fail then throw .simpleArchiveError
  else
    let after := s.f.pos + bytes.length
    set { s with f := ⟨s.f.bytes.take s.f.pos ++ bytes ++ s.f.bytes.drop after, after, false⟩ }

/-- Reading past the end of the file makes the stream fail. -/
def readPastEnd {α : Type} : BatchM B α := do
  modify fun s => { s with f := { s.f with fail := true } }
  throw .simpleArchiveError

/-- `ia >> header`. -/
def loadHeader : BatchM B (List UInt8) := do
  let s ← get
  let header := (s.f.bytes.drop s.f.pos).take 4
  if s.f.fail then throw .simpleArchiveError
  else if header.length < 4 then readPastEnd
  else
    set { s with f := { s.f with pos := s.f.pos + 4 } }
    return header

/-- `ia >> current_from_f`. -/
def loadRecord (format : RecordFormat B) : BatchM B Unit := do
  let s ← get
  if s.f.fail then throw .simpleArchiveError
  else
    match format.load (s.f.bytes.drop s.f.pos) with
    | some (b, n) => set { s with f := { s.f with pos := s.f.pos + n }, currentFromF := b }
    | none => readPastEnd

def rewind : BatchM B Unit := do
  modify fun s => { s with currentI := some (-1) }
  if (← get).useFile then seekStart
  else modify fun s => { s with rewindStore := some true }

/-- `++current_i`. -/
def incCurrentI : BatchM B Unit := do
  let i ← defined (← get).currentI
  modify fun s => { s with currentI := some (i + 1) }

/-- `++store_cursor`, from a record of the array. -/
def incStoreCursor : BatchM B Unit := do
  let cursor ← defined (← get).storeCursor
  if cursor < (← get).store.length then
    modify fun s => { s with storeCursor := some (cursor + 1) }
  else throw .undefined

def advance (format : RecordFormat B) : BatchM B Bool := do
  if (← get).useFile then
    let header ← loadHeader
    if header = endRecords then return false
    else if header = recordFollows then
      incCurrentI
      loadRecord format
      return true
    else throw .serializeBatchError
  else
    let restart ← defined (← get).rewindStore
    if restart then
      modify fun s => { s with rewindStore := some false, storeCursor := some 0, currentI := some 0 }
    else
      incCurrentI
      incStoreCursor
    let cursor ← defined (← get).storeCursor
    return cursor ≠ (← get).store.length

def mustAdvance (format : RecordFormat B) : BatchM B Unit := do
  if ← advance format then return ()
  else throw .serializeBatchIndexError

/-- The record at the cursor. -/
def current : BatchM B B := do
  let s ← get
  if s.useFile then return s.currentFromF
  else
    let cursor ← defined s.storeCursor
    defined s.store[cursor]?

/-- The records that `enumerate` visits. A round reads a header or passes an element of the
array, so that there are never more rounds than bytes and elements. -/
def enumerate (format : RecordFormat B) : BatchM B (List B) := do
  rewind
  let s ← get
  drain (advance format) current (s.store.length + s.f.bytes.length + 1)

/-- `while (current_i<i) must_advance();`, which takes at most `i` rounds. -/
def mustReach (format : RecordFormat B) (i : UInt32) : ℕ → BatchM B Unit
  | 0 => pure ()
  | fuel + 1 => do
    if (← defined (← get).currentI) < i then
      mustAdvance format
      mustReach format i fuel
    else return ()

/-- The guard of `operator[]`, which looks at `current_i` only for a positive index. -/
def goesBack (i : UInt32) : BatchM B Bool := do
  if i = 0 then return true
  else
    let currentI ← defined (← get).currentI
    return decide (i < currentI)

/-- `operator[]`. -/
def access (format : RecordFormat B) (i : UInt32) : BatchM B B := do
  if ← goesBack i then
    rewind
    mustAdvance format
  mustReach format i i.toNat
  current

def clear : BatchM B Unit := do
  if (← get).useFile then seekStart
  else modify fun s => { s with store := [], storeCursor := none }
  modify fun s => { s with totalItems := 0 }

/-- `start_new`, and the assignment to what it returns. -/
def startNew (b : B) : BatchM B Unit :=
  modify fun s =>
    if s.useFile then { s with currentFromF := b }
    else { s with store := s.store ++ [b], storeCursor := none }

def keepNew (format : RecordFormat B) : BatchM B Unit := do
  modify fun s => { s with totalItems := s.totalItems + 1 }
  if (← get).useFile then
    save recordFollows
    save (format.save (← get).currentFromF)

def dropNew : BatchM B Unit :=
  modify fun s => if s.useFile then s else { s with store := s.store.dropLast }

def markEnd : BatchM B Unit := do
  if (← get).useFile then save endRecords

/-- A record is started, and then kept or dropped. -/
def addRecord (format : RecordFormat B) (record : B × Bool) : BatchM B Unit := do
  startNew record.1
  if record.2 then keepNew format else dropNew

def addRecords (format : RecordFormat B) : List (B × Bool) → BatchM B Unit
  | [] => pure ()
  | record :: records => do
    addRecord format record
    addRecords format records

def populate (format : RecordFormat B) (records : List (B × Bool)) : BatchM B Unit := do
  clear
  addRecords format records
  markEnd

end SerializeBatch

/-- The records that the keep test let through. -/
def keptRecords {B : Type} (records : List (B × Bool)) : List B :=
  (records.filter (·.2)).map (·.1)

end Carmel
