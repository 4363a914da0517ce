/-
# Vectors in chunks

A `stable_vector` keeps its elements in chunks of a power of two. The place of an element is
given by its index alone, but `push_back` goes to the last chunk, and a `resize` that fills
goes on behind it: both are right if the next element belongs to the last chunk. Slots
behind the last element hold what was left there.
-/

import Carmel.Math.Instances

namespace Carmel.Storage

universe u

/-- The settings of a vector: the shift of an index to its chunk, and the width of its index
type. -/
structure VectorSettings where
  chunkshift : ℕ
  width : ℕ

namespace VectorSettings

variable (P : VectorSettings)

def chunksize : ℕ := 2 ^ P.chunkshift

def posmask : ℕ := P.chunksize - 1

/-- A number in the index type. -/
def wrap (n : ℕ) : ℕ := n % 2 ^ P.width

end VectorSettings

/-- `stable_vector`. -/
structure StableVector (T : Type u) where
  chunks : List (List T)
  size : ℕ
  capacity : ℕ

/-- The loop that writes `x` to the slots of a chunk from `i` on and below `n`. -/
def fillSlots {T : Type u} (chunk : List T) (i n : ℕ) (x : T) : List T :=
  (List.range' i (n - i)).foldl (fun chunk i => chunk.set i x) chunk

namespace StableVector

section Code

variable {T : Type u} [Inhabited T] (P : VectorSettings)

/-- `new_chunk()`. -/
def newChunk : List T := List.replicate P.chunksize default

/-- `new_chunk(initial, sz)`. -/
def newChunkOf (initial : T) (sz : ℕ) : List T :=
  List.replicate sz initial ++ List.replicate (P.chunksize - sz) default

/-- `push_back_chunk`. -/
def pushBackChunk (c : List T) (v : StableVector T) : StableVector T :=
  { v with chunks := v.chunks ++ [c], capacity := P.wrap (v.capacity + P.chunksize) }

/-- `operator[]`, which fails where there is no chunk. -/
def get (v : StableVector T) (i : ℕ) : Option T :=
  (v.chunks[i >>> P.chunkshift]?).bind fun chunk => chunk[i &&& P.posmask]?

/-- Work on the chunk at `i`, if there is one. -/
def onChunk (v : StableVector T) (i : ℕ) (f : List T → List T) : Option (StableVector T) :=
  if i < v.chunks.length then some { v with chunks := v.chunks.modify i f } else none

/-- An assignment to an element. -/
def set (v : StableVector T) (i : ℕ) (x : T) : Option (StableVector T) :=
  v.onChunk (i >>> P.chunkshift) fun chunk => chunk.set (i &&& P.posmask) x

/-- `reserve_chunks`. -/
def reserveChunks (nchunks : ℕ) (v : StableVector T) : StableVector T :=
  let oldchunks := P.wrap v.chunks.length
  if nchunks < oldchunks then v else (pushBackChunk P (newChunk P))^[nchunks - oldchunks] v

/-- `reserve`. -/
def reserve (cap : ℕ) (v : StableVector T) : StableVector T :=
  if v.capacity < cap then reserveChunks P (P.wrap (cap + P.posmask) >>> P.chunkshift) v else v

/-- `init(size)`. -/
def init (size : ℕ) (v : StableVector T) : StableVector T := reserve P size { v with capacity := 0 }

/-- `init(size, initial)`. -/
def initFill (size : ℕ) (initial : T) (v : StableVector T) : StableVector T :=
  let v := (pushBackChunk P (newChunkOf P initial P.chunksize))^[size >>> P.chunkshift]
    { v with capacity := 0 }
  { pushBackChunk P (newChunkOf P initial (size &&& P.posmask)) v with size := size }

/-- `stable_vector()`. -/
def empty : StableVector T := ⟨[], 0, 0⟩

/-- `stable_vector(size)`. -/
def ofSize (size : ℕ) : StableVector T := init P size empty

/-- `stable_vector(size, initial)`. -/
def ofFill (size : ℕ) (initial : T) : StableVector T := initFill P size initial empty

/-- `push_back(val)`. There has to be a last chunk. -/
def pushBack (val : T) (v : StableVector T) : Option (StableVector T) :=
  if v.size = v.capacity then
    let v := pushBackChunk P (newChunk P) v
    { v with size := P.wrap (v.size + 1) }.onChunk (v.chunks.length - 1) fun chunk => chunk.set 0 val
  else
    { v with size := P.wrap (v.size + 1) }.onChunk (v.chunks.length - 1) fun chunk =>
      chunk.set (v.size &&& P.posmask) val

/-- `emplace_back`, with the element that the arguments make. -/
def emplaceBack (val : T) (v : StableVector T) : Option (StableVector T) := pushBack P val v

/-- `pop_back`, which is for a vector that is not empty. -/
def popBack (v : StableVector T) : Option (StableVector T) :=
  if v.size = 0 then none else (v.set P (v.size - 1) default).map fun v => { v with size := v.size - 1 }

/-- `clear`. -/
def clear (_ : StableVector T) : StableVector T := empty

/-- `truncate`. If there are not so many chunks, `chunks_.resize` brings some that are not
allocated. -/
def truncate (sz : ℕ) (v : StableVector T) : Option (StableVector T) :=
  if sz < v.size then
    let newchunks := P.wrap (sz + P.posmask) >>> P.chunkshift
    if v.chunks.length < newchunks then none
    else
      let v : StableVector T := ⟨v.chunks.take newchunks, sz, P.wrap (newchunks * P.chunksize)⟩
      let pos := sz &&& P.posmask
      if newchunks ≠ 0 ∧ pos ≠ 0 then
        v.onChunk (newchunks - 1) fun chunk => fillSlots chunk pos P.chunksize default
      else some v
  else some v

/-- `resize(sz)`. -/
def resize (sz : ℕ) (v : StableVector T) : Option (StableVector T) :=
  if v.size < sz then some { reserve P sz v with size := sz } else truncate P sz v

/-- `resize(size, initial)`. -/
def resizeFill (size : ℕ) (initial : T) (v : StableVector T) : Option (StableVector T) :=
  if size < v.size then truncate P size v
  else if v.size = 0 then some (initFill P size initial v)
  else
    let nowchunk := v.size >>> P.chunkshift
    let nowpos := v.size &&& P.posmask
    let afterchunk := size >>> P.chunkshift
    let afterpos := size &&& P.posmask
    let morechunks := afterchunk - nowchunk
    let n := if morechunks ≠ 0 then P.chunksize else afterpos
    (v.onChunk nowchunk fun last => fillSlots last nowpos n initial).map fun v =>
      { (pushBackChunk P (newChunkOf P initial P.chunksize))^[morechunks] v with size := size }

/-- `growImpl`. -/
def grow (i : ℕ) (v : StableVector T) : Option (T × StableVector T) :=
  let v := if v.size ≤ i then { reserve P (P.wrap (i + 1)) v with size := P.wrap (i + 1) } else v
  (v.get P i).map fun x => (x, v)

/-- `stable_vector(o)`. -/
def copy (o : StableVector T) : StableVector T :=
  o.chunks.foldl (fun v c => pushBackChunk P c v) ⟨[], o.size, 0⟩

/-- `operator=(o)` for another vector `o`. -/
def copyAssign (v o : StableVector T) : StableVector T :=
  { o.chunks.foldl (fun v c => pushBackChunk P c v) (clear v) with size := o.size }

/-- What a vector is when its chunks have been moved away. -/
def movedFrom (o : StableVector T) : StableVector T := { o with chunks := [] }

variable [DecidableEq T]

/-- `equal_chunks` of the chunks at `i`. -/
def equalChunks (v o : StableVector T) (i sz : ℕ) : Option Bool :=
  (v.chunks[i]?).bind fun a => (o.chunks[i]?).map fun b => a.take sz = b.take sz

/-- The loop of `operator==` over `n` chunks from `i` on. -/
def equalFrom (v o : StableVector T) : ℕ → ℕ → Option Bool
  | i, 0 => equalChunks v o i (v.size &&& P.posmask)
  | i, n + 1 => (equalChunks v o i P.chunksize).bind fun b => if b then equalFrom v o (i + 1) n else some false

/-- `operator==`. With no chunks, `nchunks - 1` wraps and the first comparison fails. -/
def equal (v o : StableVector T) : Option Bool :=
  if v.size ≠ o.size then some false
  else
    let nchunks := P.wrap v.chunks.length
    if o.chunks.length ≠ nchunks then some false
    else equalFrom P v o 0 (P.wrap (nchunks + 2 ^ P.width - 1))

end Code

section Places

variable {P : VectorSettings} {i j n : ℕ}

theorem chunksize_pos (P : VectorSettings) : 0 < P.chunksize := Nat.two_pow_pos P.chunkshift

theorem shift_eq (P : VectorSettings) (i : ℕ) : i >>> P.chunkshift = i / P.chunksize :=
  Nat.shiftRight_eq_div_pow i P.chunkshift

theorem mask_eq (P : VectorSettings) (i : ℕ) : i &&& P.posmask = i % P.chunksize :=
  Nat.and_two_pow_sub_one_eq_mod i P.chunkshift

theorem wrap_of_lt (h : n < 2 ^ P.width) : P.wrap n = n := Nat.mod_eq_of_lt h

theorem chunks_for (P : VectorSettings) (n : ℕ) :
    n ≤ (n + P.posmask) / P.chunksize * P.chunksize ∧
      (n + P.posmask) / P.chunksize * P.chunksize < n + P.chunksize := by
  have hpos := chunksize_pos P
  have hmask : P.posmask = P.chunksize - 1 := rfl
  have hsplit := Nat.div_add_mod (n + P.posmask) P.chunksize
  have hlt := Nat.mod_lt (n + P.posmask) hpos
  rw [Nat.mul_comm] at hsplit
  omega

theorem div_lt_iff : i / P.chunksize < n ↔ i < n * P.chunksize :=
  Nat.div_lt_iff_lt_mul (chunksize_pos P)

theorem eq_of_place (hdiv : i / P.chunksize = j / P.chunksize)
    (hmod : i % P.chunksize = j % P.chunksize) : i = j := by
  rw [← Nat.div_add_mod i P.chunksize, ← Nat.div_add_mod j P.chunksize, hdiv, hmod]

end Places

section Slots

variable {T : Type u} [Inhabited T] {P : VectorSettings} {v : StableVector T} {i j n : ℕ} {x : T}

/-- All chunks have the same size. -/
def Uniform (P : VectorSettings) (v : StableVector T) : Prop :=
  ∀ chunk ∈ v.chunks, chunk.length = P.chunksize

section

omit [Inhabited T]

theorem get_eq (v : StableVector T) (i : ℕ) : v.get P i =
    (v.chunks[i / P.chunksize]?).bind fun chunk => chunk[i % P.chunksize]? := by
  rw [get, shift_eq, mask_eq]

theorem exists_get (hv : v.Uniform P) (hi : i < v.chunks.length * P.chunksize) :
    ∃ x, v.get P i = some x := by
  have hchunk : i / P.chunksize < v.chunks.length := div_lt_iff.mpr hi
  have hlen := hv _ (List.getElem_mem hchunk)
  have hpos : i % P.chunksize < (v.chunks[i / P.chunksize]).length := by
    rw [hlen]
    exact Nat.mod_lt _ (chunksize_pos P)
  refine ⟨(v.chunks[i / P.chunksize])[i % P.chunksize], ?_⟩
  rw [get_eq, List.getElem?_eq_getElem hchunk, Option.bind_some, List.getElem?_eq_getElem hpos]

theorem getElem?_fillSlots (chunk : List T) (a b : ℕ) (x : T) (i : ℕ) :
    (fillSlots chunk a b x)[i]? =
      if a ≤ i ∧ i < b then (chunk[i]?).map fun _ => x else chunk[i]? := by
  rw [fillSlots]
  generalize hn : b - a = n
  induction n generalizing chunk a with
  | zero =>
    have hnot : ¬ (a ≤ i ∧ i < b) := by omega
    rw [if_neg hnot]
    rfl
  | succ n ih =>
    rw [List.range'_succ, List.foldl_cons, ih _ _ (by omega), List.getElem?_set]
    by_cases hai : a = i
    · subst hai
      have hnot : ¬ (a + 1 ≤ a ∧ a < b) := by omega
      have hin : a ≤ a ∧ a < b := by omega
      rw [if_neg hnot, if_pos hin, if_pos rfl]
      by_cases hlt : a < chunk.length
      · rw [if_pos hlt, List.getElem?_eq_getElem hlt]
        rfl
      · rw [if_neg hlt, List.getElem?_eq_none (Nat.le_of_not_lt hlt)]
        rfl
    · rw [if_neg hai]
      have hiff : (a + 1 ≤ i ∧ i < b) ↔ (a ≤ i ∧ i < b) := by omega
      simp only [hiff]

theorem length_fillSlots (chunk : List T) (a b : ℕ) (x : T) :
    (fillSlots chunk a b x).length = chunk.length := by
  rw [fillSlots]
  generalize List.range' a (b - a) = is
  induction is generalizing chunk with
  | nil => rfl
  | cons i is ih => rw [List.foldl_cons, ih, List.length_set]

theorem get_pushBackChunk_of_lt (c : List T) (hi : i < v.chunks.length * P.chunksize) :
    (pushBackChunk P c v).get P i = v.get P i := by
  rw [get_eq, get_eq, pushBackChunk, List.getElem?_append_left (div_lt_iff.mpr hi)]

theorem get_pushBackChunk_self (chunk : List T) (hi : i / P.chunksize = v.chunks.length) :
    (pushBackChunk P chunk v).get P i = chunk[i % P.chunksize]? := by
  rw [get_eq, pushBackChunk, hi, List.getElem?_concat_length, Option.bind_some]

theorem Uniform.pushBackChunk (hv : v.Uniform P) {c : List T} (hc : c.length = P.chunksize) :
    (pushBackChunk P c v).Uniform P := by
  intro chunk hmem
  rcases List.mem_append.mp hmem with hmem | hmem
  · exact hv chunk hmem
  · rw [List.mem_singleton.mp hmem]
    exact hc

end

theorem length_newChunk (P : VectorSettings) : (newChunk P : List T).length = P.chunksize :=
  List.length_replicate

theorem getElem?_newChunk (hi : i < P.chunksize) : (newChunk P : List T)[i]? = some default :=
  List.getElem?_replicate_of_lt hi

theorem length_newChunkOf (hn : n ≤ P.chunksize) : (newChunkOf P x n).length = P.chunksize := by
  rw [newChunkOf, List.length_append, List.length_replicate, List.length_replicate]
  omega

theorem getElem?_newChunkOf (hi : i < n) : (newChunkOf P x n)[i]? = some x := by
  rw [newChunkOf, List.getElem?_append_left (by rwa [List.length_replicate]),
    List.getElem?_replicate_of_lt hi]

/-- A vector after the same chunk was put behind it some times. -/
structure Extended (P : VectorSettings) (chunk : List T) (n : ℕ) (v v' : StableVector T) : Prop where
  size : v'.size = v.size
  length : v'.chunks.length = v.chunks.length + n
  capacity : v.capacity + n * P.chunksize < 2 ^ P.width → v'.capacity = v.capacity + n * P.chunksize
  uniform : v.Uniform P → v'.Uniform P
  get_of_lt : ∀ i < v.chunks.length * P.chunksize, v'.get P i = v.get P i
  get_of_ge : ∀ i, v.chunks.length * P.chunksize ≤ i → i < v'.chunks.length * P.chunksize →
    v'.get P i = chunk[i % P.chunksize]?

omit [Inhabited T] in
theorem extended_iterate {c : List T} (hc : c.length = P.chunksize) (n : ℕ) (v : StableVector T) :
    Extended P c n v ((pushBackChunk P c)^[n] v) := by
  induction n with
  | zero =>
    refine ⟨rfl, rfl, fun _ => by simp, id, fun _ _ => rfl, ?_⟩
    intro i hge hlt
    exact absurd hlt (Nat.not_lt.mpr hge)
  | succ n ih =>
    rw [Function.iterate_succ_apply']
    have hlen : (pushBackChunk P c ((pushBackChunk P c)^[n] v)).chunks.length =
        v.chunks.length + (n + 1) := by
      rw [pushBackChunk, List.length_append, ih.length, List.length_singleton, Nat.add_assoc]
    refine ⟨ih.size, hlen, ?_, fun hv => (ih.uniform hv).pushBackChunk hc, ?_, ?_⟩
    · intro hbound
      rw [Nat.succ_mul, ← Nat.add_assoc] at hbound ⊢
      rw [pushBackChunk, ih.capacity (by omega), wrap_of_lt hbound]
    · intro i hi
      rw [get_pushBackChunk_of_lt _ ?_, ih.get_of_lt i hi]
      rw [ih.length, Nat.add_mul]
      omega
    · intro i hge hlt
      by_cases hold : i < ((pushBackChunk P c)^[n] v).chunks.length * P.chunksize
      · rw [get_pushBackChunk_of_lt _ hold, ih.get_of_ge i hge hold]
      · apply get_pushBackChunk_self
        rw [hlen, ← Nat.add_assoc, Nat.succ_mul] at hlt
        rw [ih.length] at hold ⊢
        have hle := Nat.le_div_iff_mul_le (chunksize_pos P) |>.mpr (Nat.le_of_not_lt hold)
        have hlt' : i / P.chunksize < v.chunks.length + n + 1 := by
          rw [div_lt_iff, Nat.succ_mul]
          exact hlt
        omega

/-- A vector after work on one chunk: only the chunk at `j` has other slots. -/
structure ChunkChanged (P : VectorSettings) (j : ℕ) (f : List T → List T) (v v' : StableVector T) :
    Prop where
  size : v'.size = v.size
  capacity : v'.capacity = v.capacity
  length : v'.chunks.length = v.chunks.length
  uniform : v.Uniform P → (∀ chunk, (f chunk).length = chunk.length) → v'.Uniform P
  get_of_eq : ∀ i, i / P.chunksize = j →
    v'.get P i = (v.chunks[j]?).bind fun chunk => (f chunk)[i % P.chunksize]?
  get_of_ne : ∀ i, i / P.chunksize ≠ j → v'.get P i = v.get P i

omit [Inhabited T]

theorem exists_onChunk (hj : j < v.chunks.length) (f : List T → List T) :
    ∃ v', v.onChunk j f = some v' ∧ ChunkChanged P j f v v' := by
  refine ⟨_, if_pos hj, rfl, rfl, List.length_modify .., ?_, ?_, ?_⟩
  · intro hv hf chunk hmem
    rcases List.mem_iff_getElem?.mp hmem with ⟨i, hi⟩
    rw [List.getElem?_modify] at hi
    rcases Option.map_eq_some_iff.mp hi with ⟨old, hold, rfl⟩
    have hlen := hv old (List.mem_of_getElem? hold)
    by_cases hij : j = i
    · rw [if_pos hij, hf, hlen]
    · rw [if_neg hij, hlen]
  · intro i hi
    rw [get_eq, hi, List.getElem?_modify]
    cases v.chunks[j]? with
    | none => rfl
    | some chunk => simp
  · intro i hi
    rw [get_eq, get_eq, List.getElem?_modify]
    cases v.chunks[i / P.chunksize]? with
    | none => rfl
    | some chunk => simp [Ne.symm hi]

theorem ChunkChanged.get_set {v' : StableVector T}
    (h : ChunkChanged P (i / P.chunksize) (fun chunk => chunk.set (i % P.chunksize) x) v v')
    (hv : v.Uniform P) (hi : i < v.chunks.length * P.chunksize) (j : ℕ) :
    v'.get P j = if j = i then some x else v.get P j := by
  by_cases hdiv : j / P.chunksize = i / P.chunksize
  · have hchunk : i / P.chunksize < v.chunks.length := div_lt_iff.mpr hi
    have hlen := hv _ (List.getElem_mem hchunk)
    have hmod := Nat.mod_lt i (chunksize_pos P)
    rw [h.get_of_eq j hdiv, get_eq, hdiv, List.getElem?_eq_getElem hchunk, Option.bind_some,
      Option.bind_some, List.getElem?_set, hlen, if_pos hmod]
    by_cases hplace : i % P.chunksize = j % P.chunksize
    · rw [if_pos hplace, if_pos (eq_of_place hdiv hplace.symm)]
    · have hne : j ≠ i := by
        rintro rfl
        exact hplace rfl
      rw [if_neg hplace, if_neg hne]
  · have hne : j ≠ i := by
      rintro rfl
      exact hdiv rfl
    rw [h.get_of_ne j hdiv, if_neg hne]

theorem ChunkChanged.get_fill {v' : StableVector T} {b : ℕ}
    (h : ChunkChanged P (n / P.chunksize) (fun chunk => fillSlots chunk (n % P.chunksize) b x) v v')
    (hv : v.Uniform P) (j : ℕ) (hj : j < v.chunks.length * P.chunksize) :
    v'.get P j = if j / P.chunksize = n / P.chunksize ∧ n ≤ j ∧ j % P.chunksize < b then some x
      else v.get P j := by
  have hplace : j / P.chunksize = n / P.chunksize →
      (n % P.chunksize ≤ j % P.chunksize ↔ n ≤ j) := by
    intro hdiv
    have hn := Nat.div_add_mod n P.chunksize
    have hj := Nat.div_add_mod j P.chunksize
    rw [hdiv] at hj
    omega
  by_cases hdiv : j / P.chunksize = n / P.chunksize
  · have hchunk : n / P.chunksize < v.chunks.length := hdiv ▸ div_lt_iff.mpr hj
    have hlen := hv _ (List.getElem_mem hchunk)
    have hmod : j % P.chunksize < (v.chunks[n / P.chunksize]).length := by
      rw [hlen]
      exact Nat.mod_lt _ (chunksize_pos P)
    rw [h.get_of_eq j hdiv, get_eq, hdiv, List.getElem?_eq_getElem hchunk, Option.bind_some,
      Option.bind_some, getElem?_fillSlots, List.getElem?_eq_getElem hmod, Option.map_some]
    simp only [hplace hdiv, true_and]
  · rw [h.get_of_ne j hdiv, if_neg fun hand => hdiv hand.1]

end Slots

section Contents

variable {T : Type u} [Inhabited T] {P : VectorSettings} {v o : StableVector T} {l : List T}
variable {i n : ℕ} {x : T}

/-- The capacity is that of the chunks. It is not when the chunks have been moved away. -/
def Intact (P : VectorSettings) (v : StableVector T) : Prop :=
  v.capacity = v.chunks.length * P.chunksize

/-- The vector holds the elements of `l`. -/
structure Holds (P : VectorSettings) (v : StableVector T) (l : List T) : Prop where
  uniform : v.Uniform P
  intact : v.Intact P
  bound : v.capacity < 2 ^ P.width
  size : v.size = l.length
  le : v.size ≤ v.capacity
  get : ∀ i < l.length, v.get P i = l[i]?

/-- There is room for `n` elements in the index type. -/
def Fits (P : VectorSettings) (n : ℕ) : Prop := n + P.chunksize < 2 ^ P.width

/-- The next element belongs to the last chunk. -/
def AtEnd (P : VectorSettings) (v : StableVector T) : Prop :=
  v.size / P.chunksize + 1 = v.chunks.length

instance : Decidable (v.Intact P) := inferInstanceAs (Decidable (_ = _))

instance : Decidable (Fits P n) := inferInstanceAs (Decidable (_ < _))

instance : Decidable (v.AtEnd P) := inferInstanceAs (Decidable (_ = _))

/-- The slots behind the elements and below `n` are as new. -/
def Clean (P : VectorSettings) (v : StableVector T) (n : ℕ) : Prop :=
  ∀ i, v.size ≤ i → i < n → ∀ x, v.get P i = some x → x = default

omit [Inhabited T] in
theorem holds_empty (P : VectorSettings) : (empty : StableVector T).Holds P [] where
  uniform := fun _ h => absurd h List.not_mem_nil
  intact := (Nat.zero_mul _).symm
  bound := Nat.two_pow_pos _
  size := rfl
  le := Nat.le_refl _
  get := fun _ h => absurd h (Nat.not_lt_zero _)

omit [Inhabited T] in
theorem Holds.extended {v' : StableVector T} {c : List T} {d : ℕ} (h : v.Holds P l)
    (hext : Extended P c d v v') (hbound : (v.chunks.length + d) * P.chunksize < 2 ^ P.width) :
    v'.Holds P l ∧ v'.capacity = (v.chunks.length + d) * P.chunksize := by
  have hcap : v'.capacity = (v.chunks.length + d) * P.chunksize := by
    rw [hext.capacity, h.intact, Nat.add_mul]
    rwa [h.intact, ← Nat.add_mul]
  have hle := h.le
  rw [h.intact] at hle
  refine ⟨⟨hext.uniform h.uniform, ?_, ?_, hext.size.trans h.size, ?_, ?_⟩, hcap⟩
  · rw [Intact, hext.length, hcap]
  · rw [hcap]
    exact hbound
  · rw [hext.size, hcap, Nat.add_mul]
    omega
  · intro i hi
    rw [hext.get_of_lt i (by rw [← h.size] at hi; omega)]
    exact h.get i hi

omit [Inhabited T] in
theorem Holds.length_chunks_lt (h : v.Holds P l) : v.chunks.length < 2 ^ P.width := by
  have hbound := h.bound
  have hle := Nat.le_mul_of_pos_right v.chunks.length (chunksize_pos P)
  rw [h.intact] at hbound
  omega

theorem wrap_mask (hn : Fits P n) : P.wrap (n + P.posmask) = n + P.posmask := by
  apply wrap_of_lt
  have hmask : P.posmask = P.chunksize - 1 := rfl
  rw [Fits] at hn
  omega

theorem Holds.exists_extended (h : v.Holds P l) (hn : Fits P n) :
    ∃ d, Extended P (newChunk P) d v (reserve P n v) ∧ n ≤ (v.chunks.length + d) * P.chunksize ∧
      (v.chunks.length + d) * P.chunksize < 2 ^ P.width := by
  rw [reserve]
  by_cases hcap : v.capacity < n
  · rcases chunks_for P n with ⟨hle, hlt⟩
    have hold : v.chunks.length ≤ (n + P.posmask) / P.chunksize := by
      rw [h.intact] at hcap
      exact Nat.le_of_mul_le_mul_right (by omega) (chunksize_pos P)
    have hwrap : P.wrap v.chunks.length = v.chunks.length := wrap_of_lt h.length_chunks_lt
    rw [if_pos hcap, wrap_mask hn, shift_eq, reserveChunks, hwrap, if_neg (by omega)]
    refine ⟨_, extended_iterate (length_newChunk P) _ v, ?_⟩
    rw [Nat.add_sub_cancel' hold]
    rw [Fits] at hn
    exact ⟨hle, by omega⟩
  · rw [if_neg hcap]
    refine ⟨0, extended_iterate (length_newChunk P) 0 v, ?_, ?_⟩
    · rw [Nat.add_zero, ← h.intact]
      omega
    · rw [Nat.add_zero, ← h.intact]
      exact h.bound

theorem Holds.reserve (h : v.Holds P l) (hn : Fits P n) : (reserve P n v).Holds P l := by
  rcases h.exists_extended hn with ⟨d, hext, -, hbound⟩
  exact (h.extended hext hbound).1

/-- A larger size. The slots in between have to be as new. -/
theorem Holds.larger (h : v.Holds P l) (hn : Fits P n) (hclean : v.Clean P n) (hle : l.length ≤ n) :
    { StableVector.reserve P n v with size := n }.Holds P
      (l ++ List.replicate (n - l.length) default) := by
  rcases h.exists_extended hn with ⟨d, hext, hroom, hbound⟩
  rcases h.extended hext hbound with ⟨hheld, hcap⟩
  have hlen : (l ++ List.replicate (n - l.length) (default : T)).length = n := by
    rw [List.length_append, List.length_replicate]
    omega
  refine ⟨hheld.uniform, hheld.intact, hheld.bound, hlen.symm, ?_, ?_⟩
  · change n ≤ (StableVector.reserve P n v).capacity
    rw [hcap]
    exact hroom
  · intro i hi
    rw [hlen] at hi
    change (StableVector.reserve P n v).get P i = _
    by_cases hil : i < l.length
    · rw [hheld.get i hil, List.getElem?_append_left hil]
    · rw [List.getElem?_append_right (Nat.le_of_not_lt hil),
        List.getElem?_replicate_of_lt (by omega)]
      by_cases hold : i < v.chunks.length * P.chunksize
      · rcases exists_get h.uniform hold with ⟨x, hx⟩
        rw [hext.get_of_lt i hold, hx, hclean i (by rw [h.size]; omega) hi x hx]
      · rw [hext.get_of_ge i (Nat.le_of_not_lt hold) (by rw [hext.length]; omega)]
        exact getElem?_newChunk (Nat.mod_lt _ (chunksize_pos P))

omit [Inhabited T] in
theorem Holds.exists_set (h : v.Holds P l) (hi : i < l.length) (x : T) :
    ∃ v', v.set P i x = some v' ∧ v'.Holds P (l.set i x) ∧ v'.size = v.size := by
  have hslot : i < v.chunks.length * P.chunksize := by
    rw [← h.intact]
    exact Nat.lt_of_lt_of_le (h.size ▸ hi) h.le
  rcases exists_onChunk (P := P) (div_lt_iff.mpr hslot) fun chunk => chunk.set (i % P.chunksize) x
    with ⟨v', hrun, hchanged⟩
  refine ⟨v', ?_, ⟨?_, ?_, ?_, ?_, ?_, ?_⟩, hchanged.size⟩
  · rw [set, shift_eq, mask_eq]
    exact hrun
  · exact hchanged.uniform h.uniform fun chunk => List.length_set
  · rw [Intact, hchanged.capacity, hchanged.length]
    exact h.intact
  · exact hchanged.capacity ▸ h.bound
  · rw [hchanged.size, h.size, List.length_set]
  · rw [hchanged.size, hchanged.capacity]
    exact h.le
  · intro j hj
    rw [List.length_set] at hj
    rw [hchanged.get_set h.uniform hslot, List.getElem?_set]
    by_cases hij : i = j
    · rw [if_pos hij.symm, if_pos hij, if_pos hi]
    · rw [if_neg (Ne.symm hij), if_neg hij]
      exact h.get j hj

omit [Inhabited T] in
/-- The slots of a vector tell what it holds when a prefix of them is taken. -/
theorem Holds.front {w : StableVector T} {m : ℕ} (h : v.Holds P l) (hm : m ≤ l.length)
    (huniform : w.Uniform P) (hintact : w.Intact P) (hbound : w.capacity < 2 ^ P.width)
    (hsize : w.size = m) (hle : m ≤ w.capacity) (hget : ∀ i < m, w.get P i = v.get P i) :
    w.Holds P (l.take m) := by
  have hlen : (l.take m).length = m := List.length_take_of_le hm
  refine ⟨huniform, hintact, hbound, hsize.trans hlen.symm, hsize ▸ hle, ?_⟩
  intro i hi
  rw [hlen] at hi
  rw [hget i hi, h.get i (by omega), List.getElem?_take_of_lt hi]

theorem Holds.exists_popBack (h : v.Holds P l) (hne : l ≠ []) :
    ∃ v', v.popBack P = some v' ∧ v'.Holds P l.dropLast := by
  have hpos := List.length_pos_of_ne_nil hne
  have hsize := h.size
  rcases h.exists_set (i := v.size - 1) (by omega) default with ⟨v', hrun, hheld, hsize'⟩
  refine ⟨{ v' with size := v.size - 1 }, ?_, ?_⟩
  · rw [popBack, if_neg (by omega), hrun, Option.map_some, hsize']
  · rw [List.dropLast_eq_take]
    have hpre := hheld.front (w := { v' with size := v.size - 1 }) (m := l.length - 1)
      (by rw [List.length_set]; omega) hheld.uniform hheld.intact hheld.bound (by simp only [hsize])
      (by have hle := hheld.le; simp only; omega) fun i _ => rfl
    rw [List.take_set_of_le (by omega)] at hpre
    exact hpre

omit [Inhabited T] in
theorem uniform_take (hv : v.Uniform P) (m size capacity : ℕ) :
    (⟨v.chunks.take m, size, capacity⟩ : StableVector T).Uniform P :=
  fun chunk hmem => hv chunk (List.mem_of_mem_take hmem)

omit [Inhabited T] in
theorem get_take {m size capacity : ℕ} (hi : i < m * P.chunksize) :
    (⟨v.chunks.take m, size, capacity⟩ : StableVector T).get P i = v.get P i := by
  rw [get_eq, get_eq, List.getElem?_take_of_lt (div_lt_iff.mpr hi)]

theorem Holds.exists_truncate (h : v.Holds P l) (hfits : n < v.size → Fits P n) :
    ∃ v', truncate P n v = some v' ∧ v'.Holds P (l.take n) := by
  rw [truncate]
  by_cases hlt : n < v.size
  · have hn := hfits hlt
    have hsize := h.size
    have hle := h.le
    have hcap := h.intact
    have hbound := h.bound
    rw [Intact] at hcap
    rcases chunks_for P n with ⟨hroom, htight⟩
    have hchunks : (n + P.posmask) / P.chunksize ≤ v.chunks.length := by
      have hmul : (n + P.posmask) / P.chunksize * P.chunksize < (v.chunks.length + 1) * P.chunksize := by
        rw [Nat.succ_mul]
        omega
      exact Nat.le_of_lt_succ (Nat.lt_of_mul_lt_mul_right hmul)
    have hfew : (n + P.posmask) / P.chunksize * P.chunksize ≤ v.chunks.length * P.chunksize :=
      Nat.mul_le_mul_right _ hchunks
    have hwrap : P.wrap ((n + P.posmask) / P.chunksize * P.chunksize) =
        (n + P.posmask) / P.chunksize * P.chunksize := wrap_of_lt (by omega)
    rw [if_pos hlt, wrap_mask hn, shift_eq, mask_eq]
    simp only [hwrap, if_neg (Nat.not_lt.mpr hchunks)]
    generalize hm : (n + P.posmask) / P.chunksize = m at *
    have hlen : (v.chunks.take m).length = m := List.length_take_of_le hchunks
    -- the vector before the slots behind the elements are made new
    have hshort : (⟨v.chunks.take m, n, m * P.chunksize⟩ : StableVector T).Holds P (l.take n) := by
      refine h.front (by omega) (uniform_take h.uniform m n _) ?_ (by simp only; omega) rfl hroom ?_
      · rw [Intact, hlen]
      · intro i hi
        exact get_take (by omega)
    by_cases hclear : m ≠ 0 ∧ n % P.chunksize ≠ 0
    · rw [if_pos hclear]
      have hlast : m - 1 = n / P.chunksize := by
        have hsplit := Nat.div_add_mod n P.chunksize
        have hmod := Nat.mod_lt n (chunksize_pos P)
        rw [Nat.mul_comm] at hsplit
        have hlower : n / P.chunksize < m := by
          apply Nat.lt_of_mul_lt_mul_right (a := P.chunksize)
          omega
        have hupper : m < n / P.chunksize + 2 := by
          apply Nat.lt_of_mul_lt_mul_right (a := P.chunksize)
          rw [Nat.add_mul]
          omega
        omega
      rw [hlast]
      rcases exists_onChunk (P := P) (v := ⟨v.chunks.take m, n, m * P.chunksize⟩)
        (j := n / P.chunksize) (by simp only [hlen]; omega)
        (fun chunk => fillSlots chunk (n % P.chunksize) P.chunksize default)
        with ⟨v', hrun, hchanged⟩
      refine ⟨v', hrun, ?_⟩
      have hheld := hshort.front (w := v') (m := n) (by rw [List.length_take]; omega)
        (hchanged.uniform hshort.uniform fun chunk => length_fillSlots ..)
        (by rw [Intact, hchanged.capacity, hchanged.length]; exact hshort.intact)
        (by rw [hchanged.capacity]; exact hshort.bound) hchanged.size
        (by rw [hchanged.capacity]; exact hroom) ?_
      · rwa [List.take_take, Nat.min_self] at hheld
      · intro i hi
        rw [hchanged.get_fill hshort.uniform i (by simp only [hlen]; omega),
          if_neg fun hand => Nat.not_le.mpr hi hand.2.1]
    · rw [if_neg hclear]
      exact ⟨_, rfl, hshort⟩
  · rw [if_neg hlt]
    refine ⟨v, rfl, ?_⟩
    rw [List.take_of_length_le (by rw [← h.size]; omega)]
    exact h

theorem Holds.exists_resize (h : v.Holds P l) (hn : Fits P n) (hclean : v.Clean P n) :
    ∃ v', resize P n v = some v' ∧
      v'.Holds P (l.take n ++ List.replicate (n - l.length) default) := by
  rw [resize]
  by_cases hlt : v.size < n
  · rw [if_pos hlt]
    have hle : l.length ≤ n := by
      rw [← h.size]
      omega
    refine ⟨_, rfl, ?_⟩
    rw [List.take_of_length_le hle]
    exact h.larger hn hclean hle
  · rw [if_neg hlt]
    have hnone : n - l.length = 0 := by
      rw [← h.size]
      omega
    rw [hnone, List.replicate_zero, List.append_nil]
    exact h.exists_truncate fun _ => hn

omit [Inhabited T] in
/-- The next element goes to the slot behind the others. -/
theorem Holds.exists_append (h : v.Holds P l) (hroom : l.length < v.capacity) (x : T) :
    ∃ v', { v with size := l.length + 1 }.onChunk (l.length / P.chunksize)
        (fun chunk => chunk.set (l.length % P.chunksize) x) = some v' ∧ v'.Holds P (l ++ [x]) := by
  have hslot : l.length < v.chunks.length * P.chunksize := by
    rw [← h.intact]
    exact hroom
  rcases exists_onChunk (P := P) (v := { v with size := l.length + 1 }) (div_lt_iff.mpr hslot)
    fun chunk => chunk.set (l.length % P.chunksize) x with ⟨v', hrun, hchanged⟩
  refine ⟨v', hrun, ?_, ?_, ?_, ?_, ?_, ?_⟩
  · exact hchanged.uniform h.uniform fun chunk => List.length_set
  · rw [Intact, hchanged.capacity, hchanged.length]
    exact h.intact
  · rw [hchanged.capacity]
    exact h.bound
  · rw [hchanged.size, List.length_append, List.length_singleton]
  · rw [hchanged.size, hchanged.capacity]
    exact hroom
  · intro i hi
    rw [List.length_append, List.length_singleton] at hi
    rw [hchanged.get_set h.uniform hslot]
    by_cases hil : i = l.length
    · rw [if_pos hil, hil, List.getElem?_concat_length]
    · rw [if_neg hil, List.getElem?_append_left (by omega)]
      exact h.get i (by omega)

theorem Holds.exists_pushBack (h : v.Holds P l) (hfits : Fits P (l.length + 1))
    (hend : v.size = v.capacity ∨ v.AtEnd P) (x : T) :
    ∃ v', pushBack P x v = some v' ∧ v'.Holds P (l ++ [x]) := by
  have hsize := h.size
  have hwrap : P.wrap (v.size + 1) = l.length + 1 := by
    rw [hsize]
    apply wrap_of_lt
    rw [Fits] at hfits
    omega
  rw [pushBack]
  by_cases hfull : v.size = v.capacity
  · have hplace : l.length = v.chunks.length * P.chunksize := by
      rw [← hsize, hfull, h.intact]
    have hext := extended_iterate (length_newChunk P (T := T)) 1 v
    have hbound : (v.chunks.length + 1) * P.chunksize < 2 ^ P.width := by
      rw [Fits] at hfits
      rw [Nat.succ_mul, ← hplace]
      omega
    rcases h.extended hext hbound with ⟨hheld, hcap⟩
    have hroom : l.length < ((pushBackChunk P (newChunk P))^[1] v).capacity := by
      have hpos := chunksize_pos P
      rw [hcap, Nat.succ_mul, ← hplace]
      omega
    have hdiv : l.length / P.chunksize = v.chunks.length := by
      rw [hplace, Nat.mul_div_cancel _ (chunksize_pos P)]
    have hmod : l.length % P.chunksize = 0 := by
      rw [hplace, Nat.mul_mod_left]
    have happend := hheld.exists_append hroom x
    rw [hdiv, hmod] at happend
    have hlast : (pushBackChunk P (newChunk P) v).chunks.length - 1 = v.chunks.length := by
      rw [pushBackChunk, List.length_append, List.length_singleton, Nat.add_sub_cancel]
    have hwrap' : P.wrap ((pushBackChunk P (newChunk P) v).size + 1) = l.length + 1 := hwrap
    rw [if_pos hfull]
    simp only [hlast, hwrap']
    exact happend
  · have hend' : v.AtEnd P := hend.resolve_left hfull
    have hroom : l.length < v.capacity := by
      have hle := h.le
      omega
    have hlast : v.chunks.length - 1 = l.length / P.chunksize := by
      rw [AtEnd, hsize] at hend'
      exact Nat.sub_eq_of_eq_add hend'.symm
    rw [if_neg hfull, hlast, hwrap, mask_eq, hsize]
    exact h.exists_append hroom x

/-- The vector that is made with elements: full chunks, and one more for the rest. -/
theorem holds_ofFill (hn : Fits P n) (x : T) : (ofFill P n x).Holds P (List.replicate n x) := by
  have hsplit := Nat.div_add_mod n P.chunksize
  have hmod := Nat.mod_lt n (chunksize_pos P)
  rw [Nat.mul_comm] at hsplit
  have hchunks : (n / P.chunksize + 1) * P.chunksize < 2 ^ P.width := by
    rw [Fits] at hn
    rw [Nat.succ_mul]
    omega
  have hfull := extended_iterate (length_newChunkOf (x := x) (Nat.le_refl P.chunksize))
    (n / P.chunksize) { (empty : StableVector T) with capacity := 0 }
  rcases (holds_empty P).extended hfull (by
    change (0 + n / P.chunksize) * P.chunksize < 2 ^ P.width
    rw [Nat.succ_mul] at hchunks
    rw [Nat.zero_add]
    omega) with ⟨hheld, -⟩
  rw [ofFill, initFill, shift_eq, mask_eq]
  generalize (pushBackChunk P (newChunkOf P x P.chunksize))^[n / P.chunksize]
    { (empty : StableVector T) with capacity := 0 } = v at *
  have hlen : v.chunks.length = n / P.chunksize := hfull.length.trans (Nat.zero_add _)
  have hlast := extended_iterate (length_newChunkOf (x := x) (Nat.le_of_lt hmod)) 1 v
  rcases hheld.extended hlast (by rwa [hlen]) with ⟨hheld', hcap⟩
  rw [hlen] at hcap
  refine ⟨hheld'.uniform, hheld'.intact, hheld'.bound, List.length_replicate.symm, ?_, ?_⟩
  · change n ≤ ((pushBackChunk P (newChunkOf P x (n % P.chunksize)))^[1] v).capacity
    rw [hcap, Nat.succ_mul]
    omega
  · intro i hi
    rw [List.length_replicate] at hi
    change ((pushBackChunk P (newChunkOf P x (n % P.chunksize)))^[1] v).get P i = _
    rw [List.getElem?_replicate_of_lt hi]
    by_cases hold : i < v.chunks.length * P.chunksize
    · rw [hlast.get_of_lt i hold, hfull.get_of_ge i (by simp [empty]) hold]
      exact getElem?_newChunkOf (Nat.mod_lt _ (chunksize_pos P))
    · have hnew : i < ((pushBackChunk P (newChunkOf P x (n % P.chunksize)))^[1] v).chunks.length *
          P.chunksize := by
        rw [hlast.length, hlen, Nat.succ_mul]
        omega
      rw [hlast.get_of_ge i (Nat.le_of_not_lt hold) hnew]
      apply getElem?_newChunkOf
      rw [hlen] at hold
      rw [hlast.length, hlen] at hnew
      have hdiv : i / P.chunksize = n / P.chunksize := by
        have hle := (Nat.le_div_iff_mul_le (chunksize_pos P)).mpr (Nat.le_of_not_lt hold)
        have hlt := div_lt_iff.mpr hnew
        omega
      have hsplit' := Nat.div_add_mod i P.chunksize
      rw [Nat.mul_comm, hdiv] at hsplit'
      omega

omit [Inhabited T] in
theorem Holds.exists_fill (h : v.Holds P l) (hroom : v.size < v.capacity) (b : ℕ) (x : T) :
    ∃ v', v.onChunk (v.size / P.chunksize)
        (fun last => fillSlots last (v.size % P.chunksize) b x) = some v' ∧ v'.Holds P l ∧
      v'.chunks.length = v.chunks.length ∧
      ∀ i, v.size ≤ i → i / P.chunksize = v.size / P.chunksize → i % P.chunksize < b →
        v'.get P i = some x := by
  have hslot : v.size < v.chunks.length * P.chunksize := by
    rw [← h.intact]
    exact hroom
  rcases exists_onChunk (P := P) (div_lt_iff.mpr hslot)
    fun last => fillSlots last (v.size % P.chunksize) b x with ⟨v', hrun, hchanged⟩
  refine ⟨v', hrun, ⟨?_, ?_, ?_, ?_, ?_, ?_⟩, hchanged.length, ?_⟩
  · exact hchanged.uniform h.uniform fun chunk => length_fillSlots ..
  · rw [Intact, hchanged.capacity, hchanged.length]
    exact h.intact
  · exact hchanged.capacity ▸ h.bound
  · rw [hchanged.size, h.size]
  · rw [hchanged.size, hchanged.capacity]
    exact h.le
  · intro i hi
    rw [hchanged.get_fill h.uniform i (by rw [← h.size] at hi; omega), if_neg ?_]
    · exact h.get i hi
    · rintro ⟨-, hle, -⟩
      rw [h.size] at hle
      exact Nat.not_le.mpr hi hle
  · intro i hge hdiv hlt
    have hi : i < v.chunks.length * P.chunksize := by
      rw [← div_lt_iff, hdiv, div_lt_iff]
      exact hslot
    rw [hchanged.get_fill h.uniform i hi, if_pos ⟨hdiv, hge, hlt⟩]

/-- More elements of the same value. They go to the last chunk and behind it. -/
theorem Holds.exists_resizeFill_larger (h : v.Holds P l) (hn : Fits P n) (x : T) (hpos : 0 < v.size)
    (hroom : v.size < v.capacity) (hle : v.size ≤ n)
    (hend : n / P.chunksize = v.size / P.chunksize ∨ v.AtEnd P) :
    ∃ v', resizeFill P n x v = some v' ∧ v'.Holds P (l ++ List.replicate (n - l.length) x) := by
  rw [resizeFill, if_neg (Nat.not_lt.mpr hle), if_neg (Nat.ne_of_gt hpos)]
  simp only [shift_eq, mask_eq]
  generalize hmore : n / P.chunksize - v.size / P.chunksize = more
  generalize hb : (if more ≠ 0 then P.chunksize else n % P.chunksize) = b
  rcases h.exists_fill hroom b x with ⟨v₁, hrun, hheld, hlen, hfilled⟩
  have hext := extended_iterate (length_newChunkOf (x := x) (Nat.le_refl P.chunksize)) more v₁
  have hmono : v.size / P.chunksize ≤ n / P.chunksize := Nat.div_le_div_right hle
  have hin : v.size / P.chunksize < v.chunks.length := by
    rw [div_lt_iff, ← h.intact]
    exact hroom
  -- the chunks there are in the end have a place for the last element
  have hcover : n < (v₁.chunks.length + more) * P.chunksize ∧
      (v₁.chunks.length + more) * P.chunksize < 2 ^ P.width := by
    rw [hlen, ← div_lt_iff]
    by_cases hzero : more = 0
    · have hbound := h.bound
      rw [h.intact] at hbound
      rw [hzero, Nat.add_zero]
      exact ⟨by omega, hbound⟩
    · have hcount : v.chunks.length + more = n / P.chunksize + 1 := by
        have hlast : v.AtEnd P := hend.resolve_left (by omega)
        rw [AtEnd] at hlast
        omega
      have hmul := Nat.div_mul_le_self n P.chunksize
      rw [Fits] at hn
      rw [hcount, Nat.succ_mul]
      exact ⟨Nat.lt_succ_self _, by omega⟩
  rcases hheld.extended hext hcover.2 with ⟨hheld', hcap⟩
  refine ⟨_, by rw [hrun, Option.map_some], ?_⟩
  have hlength : (l ++ List.replicate (n - l.length) x).length = n := by
    rw [List.length_append, List.length_replicate, ← h.size]
    omega
  refine ⟨hheld'.uniform, hheld'.intact, hheld'.bound, hlength.symm, ?_, ?_⟩
  · change n ≤ ((pushBackChunk P (newChunkOf P x P.chunksize))^[more] v₁).capacity
    rw [hcap]
    exact Nat.le_of_lt hcover.1
  · intro i hi
    rw [hlength] at hi
    change ((pushBackChunk P (newChunkOf P x P.chunksize))^[more] v₁).get P i = _
    by_cases hil : i < l.length
    · rw [hheld'.get i hil, List.getElem?_append_left hil]
    · have hge : v.size ≤ i := by
        rw [h.size]
        exact Nat.le_of_not_lt hil
      have hdiv : v.size / P.chunksize ≤ i / P.chunksize := Nat.div_le_div_right hge
      have hmod := Nat.mod_lt i (chunksize_pos P)
      rw [List.getElem?_append_right (Nat.le_of_not_lt hil),
        List.getElem?_replicate_of_lt (by omega)]
      by_cases hold : i < v₁.chunks.length * P.chunksize
      · rw [hext.get_of_lt i hold]
        by_cases hzero : more = 0
        · have hdiv' : i / P.chunksize ≤ n / P.chunksize := Nat.div_le_div_right (Nat.le_of_lt hi)
          have hsame : i / P.chunksize = n / P.chunksize := by omega
          have hsplit := Nat.div_add_mod i P.chunksize
          have hsplit' := Nat.div_add_mod n P.chunksize
          rw [hsame] at hsplit
          refine hfilled i hge (by omega) ?_
          rw [← hb, if_neg (not_not_intro hzero)]
          omega
        · have hlast : v.AtEnd P := hend.resolve_left (by omega)
          rw [AtEnd] at hlast
          rw [hlen, ← div_lt_iff] at hold
          refine hfilled i hge (by omega) ?_
          rw [← hb, if_pos hzero]
          exact hmod
      · rw [hext.get_of_ge i (Nat.le_of_not_lt hold) (by rw [hext.length]; omega)]
        exact getElem?_newChunkOf hmod

theorem Holds.exists_resizeFill (h : v.Holds P l) (hn : Fits P n) (x : T)
    (hend : n < v.size ∨ v.chunks = [] ∨ 0 < v.size ∧ v.size < v.capacity ∧
        (n / P.chunksize = v.size / P.chunksize ∨ v.AtEnd P)) :
    ∃ v', resizeFill P n x v = some v' ∧
      v'.Holds P (l.take n ++ List.replicate (n - l.length) x) := by
  by_cases hlt : n < v.size
  · have hnone : n - l.length = 0 := by
      rw [← h.size]
      omega
    rw [resizeFill, if_pos hlt, hnone, List.replicate_zero, List.append_nil]
    exact h.exists_truncate fun _ => hn
  · have hle : v.size ≤ n := Nat.le_of_not_lt hlt
    have htake : l.take n = l := List.take_of_length_le (h.size ▸ hle)
    rw [htake]
    rcases hend with hshort | hnil | ⟨hpos, hroom, hend⟩
    · exact absurd hshort hlt
    · have hsize : v.size = 0 := by
        have hle := h.le
        have hcap := h.intact
        rw [Intact, hnil, List.length_nil, Nat.zero_mul] at hcap
        omega
      have hl : l = [] := List.length_eq_zero_iff.mp (h.size ▸ hsize)
      have hsame : { v with capacity := 0 } = (empty : StableVector T) := by
        rw [hnil, hsize]
        rfl
      rw [resizeFill, if_neg hlt, if_pos hsize, initFill, hsame]
      refine ⟨_, rfl, ?_⟩
      rw [hl]
      exact holds_ofFill hn x
    · exact h.exists_resizeFill_larger hn x hpos hroom hle hend

theorem Holds.exists_grow (h : v.Holds P l) (hi : Fits P (i + 1)) (hclean : v.Clean P (i + 1)) :
    ∃ x v', grow P i v = some (x, v') ∧
      (if l.length ≤ i then l ++ List.replicate (i + 1 - l.length) default else l)[i]? = some x ∧
      v'.Holds P (if l.length ≤ i then l ++ List.replicate (i + 1 - l.length) default else l) := by
  rw [grow, h.size]
  by_cases hle : l.length ≤ i
  · have hwrap : P.wrap (i + 1) = i + 1 := by
      apply wrap_of_lt
      rw [Fits] at hi
      omega
    have hheld := h.larger hi hclean (Nat.le_succ_of_le hle)
    have hlt : i < (l ++ List.replicate (i + 1 - l.length) (default : T)).length := by
      rw [List.length_append, List.length_replicate]
      omega
    have hget := hheld.get i hlt
    rw [List.getElem?_eq_getElem hlt] at hget
    simp only [if_pos hle, hwrap]
    refine ⟨_, _, by rw [hget, Option.map_some], List.getElem?_eq_getElem hlt, hheld⟩
  · have hget := h.get i (Nat.lt_of_not_le hle)
    rw [List.getElem?_eq_getElem (Nat.lt_of_not_le hle)] at hget
    simp only [if_neg hle]
    exact ⟨_, _, by rw [hget, Option.map_some], List.getElem?_eq_getElem _, h⟩

omit [Inhabited T] in
theorem foldl_pushBackChunk (cs : List (List T)) (v : StableVector T)
    (hbound : v.capacity + cs.length * P.chunksize < 2 ^ P.width) :
    cs.foldl (fun v c => pushBackChunk P c v) v =
      ⟨v.chunks ++ cs, v.size, v.capacity + cs.length * P.chunksize⟩ := by
  induction cs generalizing v with
  | nil => simp
  | cons c cs ih =>
    rw [List.length_cons, Nat.succ_mul] at hbound
    have hwrap : P.wrap (v.capacity + P.chunksize) = v.capacity + P.chunksize :=
      wrap_of_lt (by omega)
    have hpush : pushBackChunk P c v = ⟨v.chunks ++ [c], v.size, v.capacity + P.chunksize⟩ := by
      rw [pushBackChunk, hwrap]
    have hcap : v.capacity + P.chunksize + cs.length * P.chunksize =
        v.capacity + (c :: cs).length * P.chunksize := by
      rw [List.length_cons, Nat.succ_mul]
      omega
    rw [List.foldl_cons, hpush, ih _ (by simp only; omega), List.append_assoc,
      List.singleton_append, hcap]

omit [Inhabited T] in
theorem Holds.copy_eq (h : o.Holds P l) : copy P o = o := by
  have hbound := h.bound
  rw [h.intact] at hbound
  rw [copy, foldl_pushBackChunk _ _ (by rwa [Nat.zero_add]), Nat.zero_add, List.nil_append,
    ← h.intact]

omit [Inhabited T] in
theorem Holds.copyAssign_eq (h : o.Holds P l) (v : StableVector T) : copyAssign P v o = o := by
  have hbound := h.bound
  rw [h.intact] at hbound
  rw [copyAssign, clear, empty, foldl_pushBackChunk _ _ (by rwa [Nat.zero_add]), Nat.zero_add,
    List.nil_append, ← h.intact]

variable [DecidableEq T] {l' : List T}

omit [Inhabited T]

theorem equalChunks_eq (hv : v.Uniform P) (ho : o.Uniform P) {j sz : ℕ} (hj : j < v.chunks.length)
    (hj' : j < o.chunks.length) (hsz : sz ≤ P.chunksize) :
    ∃ b, equalChunks v o j sz = some b ∧
      (b = true ↔ ∀ i, j * P.chunksize ≤ i → i < j * P.chunksize + sz → v.get P i = o.get P i) := by
  have hlen := hv _ (List.getElem_mem hj)
  have hlen' := ho _ (List.getElem_mem hj')
  refine ⟨_, by rw [equalChunks, List.getElem?_eq_getElem hj, List.getElem?_eq_getElem hj',
    Option.bind_some, Option.map_some], ?_⟩
  rw [decide_eq_true_eq]
  have hplace : ∀ i, j * P.chunksize ≤ i → i < j * P.chunksize + sz →
      v.get P i = v.chunks[j][i - j * P.chunksize]? ∧
        o.get P i = o.chunks[j][i - j * P.chunksize]? := by
    intro i hge hlt
    have hdiv : i / P.chunksize = j := by
      have hle := (Nat.le_div_iff_mul_le (chunksize_pos P)).mpr hge
      have hlt' : i / P.chunksize < j + 1 := by
        rw [div_lt_iff, Nat.succ_mul]
        omega
      omega
    have hsplit := Nat.div_add_mod i P.chunksize
    rw [Nat.mul_comm, hdiv] at hsplit
    have hmod : i % P.chunksize = i - j * P.chunksize := by omega
    rw [get_eq, get_eq, hdiv, List.getElem?_eq_getElem hj, List.getElem?_eq_getElem hj', hmod]
    exact ⟨rfl, rfl⟩
  constructor
  · intro heq i hge hlt
    rw [(hplace i hge hlt).1, (hplace i hge hlt).2]
    have hslot := congrArg (fun chunk : List T => chunk[i - j * P.chunksize]?) heq
    simpa only [List.getElem?_take_of_lt (show i - j * P.chunksize < sz by omega)] using hslot
  · intro hall
    apply List.ext_getElem?
    intro p
    by_cases hp : p < sz
    · have hslot := hall (j * P.chunksize + p) (by omega) (by omega)
      rw [(hplace _ (by omega) (by omega)).1, (hplace _ (by omega) (by omega)).2,
        Nat.add_sub_cancel_left] at hslot
      rw [List.getElem?_take_of_lt hp, List.getElem?_take_of_lt hp, hslot]
    · rw [List.getElem?_take_eq_none (Nat.le_of_not_lt hp),
        List.getElem?_take_eq_none (Nat.le_of_not_lt hp)]

theorem equalFrom_eq (hv : v.Uniform P) (ho : o.Uniform P) {j : ℕ}
    (hlen : v.size / P.chunksize < v.chunks.length) (hlen' : v.size / P.chunksize < o.chunks.length)
    (hj : j + n = v.size / P.chunksize) :
    ∃ b, equalFrom P v o j n = some b ∧
      (b = true ↔ ∀ i, j * P.chunksize ≤ i → i < v.size → v.get P i = o.get P i) := by
  have hsplit := Nat.div_add_mod v.size P.chunksize
  rw [Nat.mul_comm] at hsplit
  induction n generalizing j with
  | zero =>
    have hmod := Nat.le_of_lt (Nat.mod_lt v.size (chunksize_pos P))
    rcases equalChunks_eq hv ho (j := j) (by omega) (by omega) hmod with ⟨b, hb, hiff⟩
    have hend : j * P.chunksize + v.size % P.chunksize = v.size := by
      rw [← hsplit, ← hj, Nat.add_zero, Nat.mul_add_mod_of_lt (Nat.mod_lt _ (chunksize_pos P))]
    rw [hend] at hiff
    exact ⟨b, by rw [equalFrom, mask_eq, hb], hiff⟩
  | succ n ih =>
    rcases equalChunks_eq hv ho (j := j) (by omega) (by omega) (Nat.le_refl _) with ⟨b, hb, hiff⟩
    rcases ih (j := j + 1) (by omega) with ⟨b', hb', hiff'⟩
    have hbefore : (j + 1) * P.chunksize ≤ v.size := by
      have hle := Nat.mul_le_mul_right P.chunksize (show j + 1 ≤ v.size / P.chunksize by omega)
      omega
    rw [equalFrom, hb, Option.bind_some]
    rw [Nat.succ_mul] at hiff' hbefore
    cases b with
    | false =>
      refine ⟨false, rfl, iff_of_false Bool.false_ne_true fun hall => ?_⟩
      exact Bool.false_ne_true (hiff.mpr fun i hge hlt => hall i hge (by omega))
    | true =>
      refine ⟨b', hb', hiff'.trans ⟨fun hall i hge hlt => ?_, fun hall i hge hlt => ?_⟩⟩
      · by_cases hi : i < j * P.chunksize + P.chunksize
        · exact hiff.mp rfl i hge hi
        · exact hall i (Nat.le_of_not_lt hi) hlt
      · exact hall i (by omega) hlt

/-- Two vectors with their ends in the last of equally many chunks, or of different sizes. -/
theorem Holds.equal_eq (h : v.Holds P l) (h' : o.Holds P l')
    (hend : v.size ≠ o.size ∨ v.chunks.length = o.chunks.length ∧ v.AtEnd P) :
    equal P v o = some (decide (l = l')) := by
  rw [equal]
  by_cases hsize : v.size = o.size
  · rcases hend with hne | ⟨hlen, hlast⟩
    · exact absurd hsize hne
    · have hwrap : P.wrap v.chunks.length = v.chunks.length := wrap_of_lt h.length_chunks_lt
      have hlt := h.length_chunks_lt
      rw [AtEnd] at hlast
      have hcount : P.wrap (v.chunks.length + 2 ^ P.width - 1) = v.size / P.chunksize := by
        have hsum : v.chunks.length + 2 ^ P.width - 1 = v.size / P.chunksize + 2 ^ P.width := by
          omega
        rw [hsum, VectorSettings.wrap, Nat.add_mod_right, Nat.mod_eq_of_lt (by omega)]
      rcases equalFrom_eq h.uniform h'.uniform (j := 0) (by omega) (by omega) (Nat.zero_add _)
        with ⟨b, hb, hiff⟩
      rw [if_neg (not_not_intro hsize), hwrap]
      simp only [hcount, if_neg (not_not_intro hlen.symm), hb, Option.some.injEq]
      rw [Bool.eq_iff_iff, hiff, decide_eq_true_eq]
      have hlengths : l.length = l'.length := by
        rw [← h.size, ← h'.size, hsize]
      constructor
      · intro hall
        apply List.ext_getElem?
        intro i
        by_cases hi : i < l.length
        · rw [← h.get i hi, ← h'.get i (hlengths ▸ hi)]
          exact hall i (by omega) (h.size ▸ hi)
        · rw [List.getElem?_eq_none (Nat.le_of_not_lt hi),
            List.getElem?_eq_none (Nat.le_of_not_lt (hlengths ▸ hi))]
      · rintro rfl i - hi
        rw [h.size] at hi
        rw [h.get i hi, h'.get i hi]
  · have hne : l ≠ l' := by
      rintro rfl
      exact hsize (h.size.trans h'.size.symm)
    rw [if_pos hsize, decide_eq_false hne]

end Contents

end StableVector

end Carmel.Storage
