/-
# Items in files that are mapped one at a time

A batch file is a chain of headers, each the distance to the next one, with an item behind
it; the last header is 0. One file is mapped at a time, always at the same address, so a
pointer is an offset whichever batch is mapped. Sizes and offsets are in words. What is read
through a pointer that is not to a header (or, for an item, not to an item) is `undefined`.
-/

import Carmel.Math.Outcomes

namespace Carmel

open Math

/-- `ios::failure`, `range_error`, and undefined behaviour. -/
inductive SwapError
  | failure
  | rangeError
  | undefined
deriving DecidableEq, Repr

/-- A word of a batch file: a header, the first word of an item, or another word of it. -/
inductive Cell (B : Type)
  | header (d : ℕ)
  | item (b : B)
  | body
deriving DecidableEq

/-- How many words there are after the first: of an item with what its `read` allocates for
it, and of one whose `read` meets the end of the input. -/
structure Footprint (B : Type) where
  more : B → ℕ
  member : ℕ

/-- Where an iterator is that is not at the end. -/
structure Position where
  batch : ℕ
  header : ℕ
deriving DecidableEq, Repr

/-- An iterator; `none` is one whose `cthis` is null. -/
abbrev SwapIterator := Option Position

structure SwapBatch (B : Type) where
  capacity : ℕ
  files : List (List (Cell B))
  loadedBatch : ℕ
  totalItems : ℕ
  currentI : Option ℕ
  currentIter : SwapIterator

abbrev SwapM (B : Type) := EStateM SwapError (SwapBatch B)

namespace SwapBatch

variable {B : Type}

/-- The file that is mapped. -/
def memmap (s : SwapBatch B) : List (Cell B) := s.files.getD s.loadedBatch []

def nBatch (s : SwapBatch B) : ℕ := s.files.length

/-- `create_next_batch`. -/
def createNextBatch : SwapM B Unit :=
  modify fun s => { s with files := s.files ++ [[.header 0]], loadedBatch := s.nBatch }

/-- The constructor, for a batch size in bytes, up to its call of `create_next_batch`. -/
def make (batchsize : ℕ) : SwapBatch B where
  capacity := max batchsize 8 / 8
  files := []
  loadedBatch := 0
  totalItems := 0
  currentI := none
  currentIter := none

/-! ## Reading items in -/

/-- The item behind the header that was 0, and a new such header behind it. -/
def addItem (more : ℕ) (b : B) (file : List (Cell B)) : List (Cell B) :=
  file.dropLast ++ (.header (more + 2) :: .item b :: List.replicate more .body) ++ [.header 0]

/-- What an overflow of the mapped batch leads to, with `need` words to be allocated and
one more reserved. -/
def makeRoom (need : ℕ) : SwapM B Unit := do
  if (← get).capacity < (← get).memmap.length + (need + 1) then
    createNextBatch
    if (← get).capacity < (← get).memmap.length + (need + 1) then throw .failure

/-- `read_one`, where the input is at an item or at its end. -/
def readOne (footprint : Footprint B) : Option B → SwapM B Unit
  | none => makeRoom (footprint.member + 1)
  | some b => do
    makeRoom (footprint.more b + 1)
    modify fun s => { s with
      totalItems := s.totalItems + 1
      files := s.files.modify s.loadedBatch (addItem (footprint.more b) b) }

def readItems (footprint : Footprint B) : List B → SwapM B Unit
  | [] => readOne footprint none
  | b :: items => do
    readOne footprint (some b)
    readItems footprint items

/-- The constructor and `read_all`. -/
def readAll (footprint : Footprint B) (items : List B) : SwapM B Unit := do
  createNextBatch
  readItems footprint items

def loadBatch (i : ℕ) : SwapM B Unit := do
  if (← get).loadedBatch = i then return ()
  else if (← get).nBatch ≤ i then throw .rangeError
  else modify fun s => { s with loadedBatch := i }

/-- `*header`, in the batch that is mapped. -/
def readHeader (header : ℕ) : SwapM B ℕ := do
  match (← get).memmap[header]? with
  | some (.header d) => return d
  | _ => throw .undefined

/-- `*data_for_header(header)`. -/
def readData (header : ℕ) : SwapM B B := do
  match (← get).memmap[header + 1]? with
  | some (.item b) => return b
  | _ => throw .undefined

/-- The chain of the mapped batch from a header on. -/
def visitBatch : ℕ → ℕ → SwapM B (List B)
  | 0, _ => throw .undefined
  | fuel + 1, header => do
    let d ← readHeader header
    if d = 0 then return []
    else
      let b ← readData header
      let rest ← visitBatch fuel (header + d)
      return b :: rest

/-- `count` batches from `i` on. -/
def visitBatches : ℕ → ℕ → SwapM B (List B)
  | 0, _ => return []
  | count + 1, i => do
    loadBatch i
    let here ← visitBatch (← get).memmap.length 0
    let rest ← visitBatches count (i + 1)
    return here ++ rest

/-- The items that `enumerate` visits. -/
def enumerate : SwapM B (List B) := do
  visitBatches (← get).nBatch 0

def begin (s : SwapBatch B) : SwapIterator :=
  if s.totalItems = 0 then none else some ⟨0, 0⟩

/-- `operator *`. -/
def deref : SwapIterator → SwapM B B
  | none => throw .undefined
  | some p => do
    loadBatch p.batch
    readData p.header

/-- `operator ++`. It calls itself where it has come to the end of a chain, which happens
once in a batch at most. -/
def increment : ℕ → Position → SwapM B SwapIterator
  | 0, _ => return none
  | fuel + 1, p => do
    let d ← readHeader p.header
    if d ≠ 0 then
      let q : Position := ⟨p.batch, p.header + d⟩
      if (← readHeader q.header) = 0 then increment fuel q else return some q
    else if p.batch + 1 = (← get).nBatch then return none
    else
      loadBatch (p.batch + 1)
      let q : Position := ⟨p.batch + 1, 0⟩
      if (← readHeader q.header) = 0 then increment fuel q else return some q

/-- `operator ++` of an iterator. -/
def next : SwapIterator → SwapM B SwapIterator
  | none => throw .undefined
  | some p => do increment ((← get).nBatch + 1) p

/-- `operator ==`. The second comparison of the source is of a header with itself. -/
def iteratorsEqual : SwapIterator → SwapIterator → Bool
  | none, none => true
  | some p, some q => q.batch == p.batch && q.header == q.header
  | _, _ => false

/-- A variable that was never set has no value. -/
def getCurrentI : SwapM B ℕ := do
  match (← get).currentI with
  | some i => return i
  | none => throw .undefined

/-- `while (i>current_i)`, which takes at most `i` rounds. -/
def scan (i : ℕ) : ℕ → SwapM B Unit
  | 0 => pure ()
  | fuel + 1 => do
    let currentI ← getCurrentI
    if currentI < i then
      modify fun s => { s with currentI := some (currentI + 1) }
      let iter ← next (← get).currentIter
      modify fun s => { s with currentIter := iter }
      if iter = none then throw .rangeError
      else scan i fuel
    else return ()

/-- The guard of `operator[]`, which looks at `current_i` only for a positive index. -/
def goesBack (i : ℕ) : SwapM B Bool := do
  if i = 0 then return true
  else
    let currentI ← getCurrentI
    return decide (i < currentI)

/-- `operator[]`. -/
def access (i : ℕ) : SwapM B B := do
  if ← goesBack i then
    modify fun s => { s with currentI := some 0, currentIter := s.begin }
  if (← get).currentIter = none then throw .rangeError
  scan i i
  deref (← get).currentIter

end SwapBatch

end Carmel

/-! ## What a batch file holds -/

namespace Carmel.SwapBatch

open Math

variable {B : Type}

/-- The words of an item, its header first. -/
def entry (footprint : Footprint B) (b : B) : List (Cell B) :=
  .header (footprint.more b + 2) :: .item b :: List.replicate (footprint.more b) .body

def entries (footprint : Footprint B) (l : List B) : List (Cell B) := l.flatMap (entry footprint)

def layout (footprint : Footprint B) (l : List B) : List (Cell B) :=
  entries footprint l ++ [.header 0]

/-- Where the header behind `l` is. -/
def offset (footprint : Footprint B) (l : List B) : ℕ := (entries footprint l).length

variable (footprint : Footprint B)

theorem entries_append (l r : List B) :
    entries footprint (l ++ r) = entries footprint l ++ entries footprint r :=
  List.flatMap_append

theorem entries_singleton (b : B) : entries footprint [b] = entry footprint b :=
  List.append_nil _

@[simp] theorem offset_nil : offset footprint [] = 0 := rfl

theorem offset_append (l r : List B) :
    offset footprint (l ++ r) = offset footprint l + offset footprint r := by
  rw [offset, entries_append, List.length_append, offset, offset]

theorem offset_singleton (b : B) : offset footprint [b] = footprint.more b + 2 := by
  rw [offset, entries_singleton]
  simp [entry]

theorem length_le_offset (l : List B) : l.length ≤ offset footprint l := by
  induction l with
  | nil => exact Nat.zero_le _
  | cons b l ih =>
    have := offset_append footprint [b] l
    rw [offset_singleton, List.singleton_append] at this
    rw [this, List.length_cons]
    omega

theorem length_layout (l : List B) : (layout footprint l).length = offset footprint l + 1 := by
  rw [layout, List.length_append]
  rfl

theorem layout_append (l r : List B) :
    layout footprint (l ++ r) = entries footprint l ++ layout footprint r := by
  rw [layout, entries_append, List.append_assoc]
  rfl

theorem layout_end (l : List B) : (layout footprint l)[offset footprint l]? = some (.header 0) := by
  rw [layout, offset, List.getElem?_append_right (Nat.le_refl _), Nat.sub_self]
  rfl

theorem layout_header (l r : List B) (b : B) :
    (layout footprint (l ++ b :: r))[offset footprint l]? =
      some (.header (footprint.more b + 2)) := by
  rw [layout_append, offset, List.getElem?_append_right (Nat.le_refl _), Nat.sub_self]
  rfl

theorem layout_item (l r : List B) (b : B) :
    (layout footprint (l ++ b :: r))[offset footprint l + 1]? = some (.item b) := by
  rw [layout_append, offset, List.getElem?_append_right (Nat.le_add_right _ 1), Nat.add_sub_cancel_left]
  rfl

theorem addItem_layout (l : List B) (b : B) :
    addItem (footprint.more b) b (layout footprint l) = layout footprint (l ++ [b]) := by
  rw [addItem, layout_append, layout, List.dropLast_concat, layout, entries_singleton, entry,
    List.append_assoc]

/-- The batches are `front`, which are done with, and `last`, which is mapped. -/
structure Filling (front : List (List B)) (last : List B) (s : SwapBatch B) : Prop where
  files : s.files = (front ++ [last]).map (layout footprint)
  loadedBatch : s.loadedBatch = front.length
  totalItems : s.totalItems = (front ++ [last]).flatten.length
  nonempty : ∀ l ∈ front, l ≠ []
  currentI : s.currentI = none
  currentIter : s.currentIter = none

variable {footprint} {front : List (List B)} {last : List B} {s : SwapBatch B}

theorem Filling.memmap (h : Filling footprint front last s) :
    s.memmap = layout footprint last := by
  rw [SwapBatch.memmap, h.files, h.loadedBatch, List.map_append, List.getD_eq_getElem?_getD,
    List.getElem?_append_right (by simp)]
  simp

theorem memmap_newBatch (s : SwapBatch B) :
    memmap { s with files := s.files ++ [[.header 0]], loadedBatch := s.nBatch } = [.header 0] := by
  simp [SwapBatch.memmap, nBatch]

theorem Filling.createNextBatch (h : Filling footprint front last s) (hlast : last ≠ []) :
    Filling footprint (front ++ [last]) []
      { s with files := s.files ++ [[.header 0]], loadedBatch := s.nBatch } where
  files := by
    show s.files ++ [layout footprint []] = _
    rw [h.files, ← List.map_singleton, ← List.map_append]
  loadedBatch := by
    rw [nBatch, h.files, List.length_map]
  totalItems := by
    rw [List.flatten_append, List.flatten_singleton, List.append_nil]
    exact h.totalItems
  nonempty := by
    intro l hl
    rcases List.mem_append.mp hl with hl | hl
    · exact h.nonempty l hl
    · rw [List.mem_singleton.mp hl]
      exact hlast
  currentI := h.currentI
  currentIter := h.currentIter

theorem Filling.addItem (h : Filling footprint front last s) (b : B) :
    Filling footprint front (last ++ [b]) { s with
      totalItems := s.totalItems + 1
      files := s.files.modify s.loadedBatch (addItem (footprint.more b) b) } where
  files := by
    have hmodify : ∀ (l : List (List (Cell B))) (a : List (Cell B)) (f : List (Cell B) → List (Cell B)),
        (l ++ [a]).modify l.length f = l ++ [f a] := by
      intro l a f
      induction l with
      | nil => rfl
      | cons c l ih => exact congrArg _ ih
    rw [h.files, h.loadedBatch, List.map_append, List.map_append, List.map_singleton,
      List.map_singleton, ← addItem_layout, ← hmodify, List.length_map]
  loadedBatch := h.loadedBatch
  totalItems := by
    rw [h.totalItems]
    simp
    omega
  nonempty := h.nonempty
  currentI := h.currentI
  currentIter := h.currentIter

/-- Overflowing twice throws, so that no empty batch is left behind. -/
theorem Filling.makeRoom (h : Filling footprint front last s) (need : ℕ) :
    Yields (makeRoom need) s fun _ t => ∃ front' last', Filling footprint front' last' t ∧
      (front' ++ [last']).flatten = (front ++ [last]).flatten := by
  unfold SwapBatch.makeRoom SwapBatch.createNextBatch
  simp only [yields_bind, yields_get]
  split_ifs with hfull
  · simp only [yields_bind, yields_modify, yields_get]
    split_ifs with hagain
    · exact yields_throw
    · have hlast : last ≠ [] := by
        intro hempty
        rw [h.memmap, hempty] at hfull
        rw [memmap_newBatch] at hagain
        exact hagain hfull
      exact yields_pure.mpr ⟨_, _, h.createNextBatch hlast, by simp⟩
  · exact yields_pure.mpr ⟨front, last, h, rfl⟩

theorem Filling.readItems {items : List B} (h : Filling footprint front last s) :
    Yields (readItems footprint items) s fun _ t => ∃ front' last',
      Filling footprint front' last' t ∧
        (front' ++ [last']).flatten = (front ++ [last]).flatten ++ items := by
  induction items generalizing front last s with
  | nil =>
    refine (h.makeRoom _).mono fun _ t ht => ?_
    obtain ⟨front', last', ht, hflat⟩ := ht
    exact ⟨front', last', ht, by rw [hflat, List.append_nil]⟩
  | cons b items ih =>
    unfold SwapBatch.readItems SwapBatch.readOne
    simp only [yields_bind, yields_modify]
    refine (h.makeRoom _).mono fun _ t ht => ?_
    obtain ⟨front', last', ht, hflat⟩ := ht
    refine (ih (ht.addItem b)).mono fun _ u hu => ?_
    obtain ⟨front'', last'', hu, hflat'⟩ := hu
    refine ⟨front'', last'', hu, ?_⟩
    rw [hflat']
    have hlast : (front' ++ [last' ++ [b]]).flatten = (front' ++ [last']).flatten ++ [b] := by simp
    rw [hlast, hflat, List.append_assoc]
    rfl

/-- The files hold the items, and the first file is empty only if there are none. -/
structure Holds (footprint : Footprint B) (groups : List (List B)) (s : SwapBatch B) : Prop where
  files : s.files = groups.map (layout footprint)
  totalItems : s.totalItems = groups.flatten.length
  nonempty : groups.flatten ≠ [] → ∃ l groups', groups = l :: groups' ∧ l ≠ []

/-- **Reading** fills batches with the items in order. -/
theorem yields_readAll (footprint : Footprint B) (items : List B) (batchsize : ℕ) :
    Yields (readAll footprint items) (make batchsize) fun _ s => ∃ groups,
      Holds footprint groups s ∧ groups.flatten = items ∧ s.currentI = none ∧
        s.currentIter = none := by
  have hmake : Filling footprint [] [] { make (B := B) batchsize with
      files := [] ++ [[.header 0]], loadedBatch := 0 } :=
    ⟨rfl, rfl, rfl, fun l hl => (by cases hl), rfl, rfl⟩
  unfold readAll SwapBatch.createNextBatch
  simp only [yields_bind, yields_modify]
  refine hmake.readItems.mono fun _ s hs => ?_
  obtain ⟨front, last, hs, hflat⟩ := hs
  refine ⟨front ++ [last], ⟨hs.files, hs.totalItems, fun hne => ?_⟩, hflat, hs.currentI,
    hs.currentIter⟩
  cases front with
  | nil => exact ⟨last, [], rfl, by simpa using hne⟩
  | cons l front => exact ⟨l, front ++ [last], rfl, hs.nonempty l List.mem_cons_self⟩

end Carmel.SwapBatch
