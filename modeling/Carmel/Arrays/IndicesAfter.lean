/-
# New indices after a removal

`new_indices`, `new_indices_keep` and `indices_after_remove_marked` put out the place each
element has when some are removed, and `indices_after` moves, exchanges or copies an array
by such a table. Its constructor from two iterators does not pass the meaning of the marks
on, and `new_indices` does not look at its last argument.
-/

import Carmel.Math.Compaction

namespace Carmel.Arrays

open Carmel.Math

variable {T : Type}

section Code

/-- The value of `REMOVED`, and of `-1`, as an `unsigned`. -/
def removedIndex : ℕ := 2 ^ 32 - 1

/-- What one round of the loops puts out for the mark `b`, and the next index. -/
def putIndex (keeps : Bool → Bool) (s : List ℕ × ℕ) (b : Bool) : List ℕ × ℕ :=
  if keeps b then (s.1 ++ [s.2], (s.2 + 1) % 2 ^ 32) else (s.1 ++ [removedIndex], s.2)

/-- `new_indices`. The last argument is not looked at. -/
def newIndices (marks : List Bool) (_remove : Bool) : List ℕ × ℕ :=
  marks.foldl (putIndex fun b => !b) ([], 0)

/-- `new_indices_keep`. -/
def newIndicesKeep (marks : List Bool) (meansKeep : Bool) : List ℕ × ℕ :=
  marks.foldl (putIndex fun b => b == meansKeep) ([], 0)

/-- The loop of `indices_after_remove_marked`; `f` is an `int`, whose overflow is undefined. -/
def indicesAfterRemoveMarkedFrom (marked : ℕ → Bool) (s : List ℤ × ℕ) (i : ℕ) :
    Option (List ℤ × ℕ) :=
  if marked i then some (s.1 ++ [-1], s.2)
  else if s.2 = 2 ^ 31 - 1 then none
  else some (s.1 ++ [(s.2 : ℤ)], s.2 + 1)

/-- `indices_after_remove_marked`. -/
def indicesAfterRemoveMarked (marked : ℕ → Bool) (N : UInt32) : Option (List ℤ × ℕ) :=
  (List.range N.toNat).foldlM (indicesAfterRemoveMarkedFrom marked) ([], 0)

/-- `indices_after`; the table has as many entries as are mapped. -/
structure IndicesAfter where
  map : List ℕ
  nKept : ℕ
  nMapped : ℕ
  length_map : map.length = nMapped

namespace IndicesAfter

/-- `indices_after::init`. The table is as long as an `unsigned` says, and `new_indices_keep` writes
an index for every mark. -/
def init (marks : List Bool) (meansKeep : Bool) : Option IndicesAfter :=
  if 0 < marks.length % 2 ^ 32 then
    let out := newIndicesKeep marks meansKeep
    if h : out.1.length = marks.length % 2 ^ 32 then some ⟨out.1, out.2, marks.length % 2 ^ 32, h⟩
    else none
  else some ⟨[], 0, 0, rfl⟩

/-- The ways to make a table of the marks. -/
inductive Constructor where
  | range
  | container
  | removingRange
  | removingContainer
  | init

/-- The constructors of `indices_after` and `indices_after_removing`, and `init`. The first one
passes the constant `KEEP`. -/
def Constructor.build : Constructor → List Bool → Bool → Option IndicesAfter
  | .range, marks, _ => IndicesAfter.init marks true
  | .container, marks, meansKeep => IndicesAfter.init marks meansKeep
  | .removingRange, marks, meansKeep => IndicesAfter.init marks meansKeep
  | .removingContainer, marks, meansKeep => IndicesAfter.init marks meansKeep
  | .init, marks, meansKeep => IndicesAfter.init marks meansKeep

variable (t : IndicesAfter)

/-- `removing`. -/
def removing (i : ℕ) : Option Bool := (t.map[i]?).map fun m => m == removedIndex

/-- `keeping`. -/
def keeping (i : ℕ) : Option Bool := (t.map[i]?).map fun m => m != removedIndex

end IndicesAfter

/-- `while (i < sz && test(i)) ++i`, with `n` more places. -/
def skipWhile (test : ℕ → Option Bool) : ℕ → ℕ → Option ℕ
  | 0, i => some i
  | n + 1, i => do if ← test i then skipWhile test n (i + 1) else some i

/-- `swap(v[a], v[b])`. -/
def swapElems (v : List T) (a b : ℕ) : Option (List T) := do
  let x ← v[a]?
  let y ← v[b]?
  some ((v.set a y).set b x)

/-- `v[a] = x`. -/
def assignAt (v : List T) (a : ℕ) (x : T) : Option (List T) :=
  if a < v.length then some (v.set a x) else none

/-- `v.resize(n)`. -/
def resizeTo [Inhabited T] (v : List T) (n : ℕ) : List T :=
  v.take n ++ List.replicate (n - v.length) default

namespace IndicesAfter

variable [Inhabited T] (t : IndicesAfter) (v : List T)

/-- The body of the loop of `do_moves`. -/
def moveOne (v : List T) (i : ℕ) : Option (List T) := do
  if ← t.keeping i then assignAt v (← t.map[i]?) (← v[i]?) else some v

/-- `do_moves`; an assertion that fails ends the program. -/
def doMoves : Option (List T) :=
  if v.length = t.nMapped then do
    let i ← skipWhile t.keeping t.nMapped 0
    let v ← (List.range' i (t.nMapped - i)).foldlM t.moveOne v
    some (resizeTo v t.nKept)
  else none

/-- The body of the loop of `do_moves_swap`. -/
def swapOne (v : List T) (i : ℕ) : Option (List T) := do
  if ← t.keeping i then swapElems v (← t.map[i]?) i else some v

/-- `do_moves_swap`. -/
def doMovesSwap : Option (List T) :=
  if v.length = t.nMapped then do
    let i ← skipWhile t.keeping t.nMapped 0
    let v ← (List.range' i (t.nMapped - i)).foldlM t.swapOne v
    some (resizeTo v t.nKept)
  else none

/-- The body of the loop of `copy_to`. -/
def copyOne (v dest : List T) (i : ℕ) : Option (List T) := do
  if ← t.keeping i then assignAt dest (← t.map[i]?) (← v[i]?) else some dest

/-- `copy_to`. -/
def copyTo (dest : List T) : Option (List T) :=
  (List.range' 0 t.nMapped).foldlM (t.copyOne v) (resizeTo dest t.nKept)

end IndicesAfter

end Code

/-- The index put out for a position. -/
def newIndex (keep : ℕ → Bool) (i : ℕ) : ℕ :=
  if keep i then countKept keep i % 2 ^ 32 else removedIndex

theorem putIndices_eq (keeps : Bool → Bool) (mark : ℕ → Bool) (n : ℕ) :
    ((List.range n).map mark).foldl (putIndex keeps) ([], 0) =
      ((List.range n).map (newIndex fun i => keeps (mark i)),
        countKept (fun i => keeps (mark i)) n % 2 ^ 32) := by
  induction n with
  | zero => rfl
  | succ n ih =>
    rw [List.range_succ, List.map_append, List.foldl_append, ih, List.map_append, countKept_succ]
    show putIndex keeps _ (mark n) = _
    rw [putIndex]
    cases h : keeps (mark n) <;> simp [newIndex, h]

variable {marks : List Bool} {mark keep marked : ℕ → Bool} {v dest : List T} {n : ℕ}

/-- A position that is kept, with fewer than `2 ^ 32 - 1` others before it, has its own index. -/
theorem newIndex_eq (hi : keep i = true) (hlt : countKept keep i < 2 ^ 32) :
    newIndex keep i = countKept keep i := by
  rw [newIndex, if_pos hi, Nat.mod_eq_of_lt hlt]

theorem newIndex_bne {i : ℕ} (hlt : countKept keep i < 2 ^ 32 - 1) :
    (newIndex keep i != removedIndex) = keep i := by
  cases hi : keep i with
  | true =>
    rw [newIndex_eq hi (by omega), bne_iff_ne, removedIndex]
    omega
  | false => rw [newIndex, hi, if_neg Bool.false_ne_true, bne_self_eq_false]

/-- Indices are put out for every position, and the number kept, as it should be if all are
below `2 ^ 32`. -/
def IndicesFor (keep : ℕ → Bool) (n : ℕ) (out : List ℕ × ℕ) : Prop :=
  out.1.length = n ∧ out.2 = countKept keep n ∧
    ∀ i < n, out.1[i]? = some (if keep i then countKept keep i else removedIndex)

/-- They are if and only if fewer than `2 ^ 32` are kept. -/
theorem indicesFor_iff : IndicesFor keep n
    ((List.range n).map (newIndex keep), countKept keep n % 2 ^ 32) ↔ countKept keep n < 2 ^ 32 := by
  constructor
  · intro h
    have hcount : countKept keep n % 2 ^ 32 = countKept keep n := h.2.1
    have hmod := Nat.mod_lt (countKept keep n) (Nat.two_pow_pos 32)
    rwa [hcount] at hmod
  · intro hlt
    refine ⟨by simp, Nat.mod_eq_of_lt hlt, ?_⟩
    intro i hi
    have hle : countKept keep i ≤ countKept keep n :=
      (List.range_sublist.mpr (Nat.le_of_lt hi)).countP_le
    rw [List.getElem?_map, List.getElem?_range hi, Option.map_some]
    congr 1
    split
    next h => exact newIndex_eq h (by omega)
    next h => exact if_neg h

/-- The positions that are not marked. -/
def unmarked (marked : ℕ → Bool) (i : ℕ) : Bool := !marked i

/-- The marks as they are given: a mark is `meansKeep` where the position is kept. -/
def marksFor (marked : ℕ → Bool) (n : ℕ) (meansKeep : Bool) : List Bool :=
  (List.range n).map fun i => marked i != meansKeep

theorem bne_beq (b meansKeep : Bool) : ((b != meansKeep) == meansKeep) = !b := by
  cases b <;> cases meansKeep <;> rfl

/-- `new_indices` is right where no more than `2 ^ 32 - 1` are kept, if the marks mean removal. -/
theorem newIndices_iff (marked : ℕ → Bool) (n : ℕ) (remove : Bool) :
    IndicesFor (unmarked marked) n (newIndices (marksFor marked n !remove) remove) ↔
      n = 0 ∨ remove = true ∧ countKept (unmarked marked) n < 2 ^ 32 := by
  rw [newIndices, marksFor, putIndices_eq]
  cases remove with
  | true =>
    have hkeep : (fun i => !(marked i != !true)) = unmarked marked := by
      funext i
      simp [unmarked]
    rw [hkeep, indicesFor_iff]
    constructor
    · exact fun h => Or.inr ⟨rfl, h⟩
    · rintro (rfl | h)
      · exact Nat.two_pow_pos 32
      · exact h.2
  | false =>
    rcases Nat.eq_zero_or_pos n with rfl | hn
    · exact ⟨fun _ => Or.inl rfl, fun _ => ⟨rfl, rfl, fun i hi => absurd hi (Nat.not_lt_zero i)⟩⟩
    · constructor
      · intro h
        have hfirst := h.2.2 0 hn
        rw [List.getElem?_map, List.getElem?_range hn, Option.map_some] at hfirst
        have hfirst := Option.some.inj hfirst
        cases hm : marked 0 <;> simp [newIndex, unmarked, hm, countKept, removedIndex] at hfirst
      · rintro (rfl | h)
        · exact absurd hn (Nat.lt_irrefl 0)
        · exact absurd h.1 Bool.false_ne_true

/-- `new_indices_keep` is right where no more than `2 ^ 32 - 1` are kept. -/
theorem newIndicesKeep_iff (marked : ℕ → Bool) (n : ℕ) (meansKeep : Bool) :
    IndicesFor (unmarked marked) n (newIndicesKeep (marksFor marked n meansKeep) meansKeep) ↔
      countKept (unmarked marked) n < 2 ^ 32 := by
  have hkeep : (fun i => (marked i != meansKeep) == meansKeep) = unmarked marked := by
    funext i
    exact bne_beq (marked i) meansKeep
  rw [newIndicesKeep, marksFor, putIndices_eq, hkeep, indicesFor_iff]

/-- What `indices_after_remove_marked` should put out. -/
def intIndices (marked : ℕ → Bool) (n : ℕ) : List ℤ × ℕ :=
  ((List.range n).map fun i => if marked i then -1 else (countKept (unmarked marked) i : ℤ),
    countKept (unmarked marked) n)

theorem foldlM_indicesAfterRemoveMarkedFrom (marked : ℕ → Bool) (n : ℕ) :
    (List.range n).foldlM (indicesAfterRemoveMarkedFrom marked) ([], 0) =
      if countKept (unmarked marked) n < 2 ^ 31 then some (intIndices marked n) else none := by
  induction n with
  | zero => rfl
  | succ n ih =>
    have hsucc := countKept_succ (unmarked marked) n
    rw [List.range_succ, List.foldlM_append, ih]
    by_cases hlt : countKept (unmarked marked) n < 2 ^ 31
    · rw [if_pos hlt]
      show (indicesAfterRemoveMarkedFrom marked _ n >>= pure) = _
      rw [bind_pure, indicesAfterRemoveMarkedFrom]
      cases hm : marked n with
      | true =>
        have hsame : countKept (unmarked marked) (n + 1) = countKept (unmarked marked) n := by
          rw [hsucc, unmarked, hm]
          rfl
        rw [if_pos rfl, hsame, if_pos hlt, intIndices, intIndices, hsame, List.range_succ]
        simp [hm]
      | false =>
        have hmore : countKept (unmarked marked) (n + 1) = countKept (unmarked marked) n + 1 := by
          rw [hsucc, unmarked, hm]
          rfl
        have hnext : (intIndices marked n).2 = countKept (unmarked marked) n := rfl
        rw [if_neg Bool.false_ne_true, hmore, hnext]
        by_cases hmax : countKept (unmarked marked) n = 2 ^ 31 - 1
        · rw [if_pos hmax, if_neg (by omega)]
        · rw [if_neg hmax, if_pos (by omega), intIndices, intIndices, hmore, List.range_succ]
          simp [hm]
    · rw [if_neg hlt, if_neg (by rw [hsucc]; omega)]
      rfl

/-- `indices_after_remove_marked` is right where no more than `2 ^ 31 - 1` are kept. -/
theorem indicesAfterRemoveMarked_iff (marked : ℕ → Bool) (N : UInt32) :
    indicesAfterRemoveMarked marked N = some (intIndices marked N.toNat) ↔
      countKept (unmarked marked) N.toNat < 2 ^ 31 := by
  rw [indicesAfterRemoveMarked, foldlM_indicesAfterRemoveMarkedFrom]
  constructor
  · intro h
    by_contra hnot
    rw [if_neg hnot] at h
    exact Option.some_ne_none _ h.symm
  · exact fun h => if_pos h

namespace IndicesAfter

variable {t : IndicesAfter} {constructor : Constructor} {meansKeep : Bool}

/-- The table of the positions that are kept. -/
structure IsFor (t : IndicesAfter) (keep : ℕ → Bool) (n : ℕ) : Prop where
  map : t.map = (List.range n).map (newIndex keep)
  nKept : t.nKept = countKept keep n
  nMapped : t.nMapped = n
  lt : n < 2 ^ 32

/-- The table is made as long as it should be where there are fewer than `2 ^ 32` marks; where
their number is a multiple of `2 ^ 32` it is empty, and else there is no room for the indices. -/
theorem init_map (mark : ℕ → Bool) (n : ℕ) (meansKeep : Bool) :
    (n < 2 ^ 32 ∧ ∃ t, init ((List.range n).map mark) meansKeep = some t ∧
        t.IsFor (fun i => mark i == meansKeep) n) ∨
      (n ≠ 0 ∧ n % 2 ^ 32 = 0 ∧ init ((List.range n).map mark) meansKeep = some ⟨[], 0, 0, rfl⟩) ∨
      (¬n < 2 ^ 32 ∧ n % 2 ^ 32 ≠ 0 ∧ init ((List.range n).map mark) meansKeep = none) := by
  have hlen : ((List.range n).map mark).length = n := by simp
  have hput := putIndices_eq (· == meansKeep) mark n
  have hout : ((newIndicesKeep ((List.range n).map mark) meansKeep).1).length = n := by
    rw [newIndicesKeep, hput]
    simp
  rw [init]
  simp only [hlen, hout]
  by_cases hzero : n % 2 ^ 32 = 0
  · rw [if_neg (by omega)]
    by_cases hn : n = 0
    · subst hn
      exact Or.inl ⟨Nat.two_pow_pos 32, _, rfl, rfl, rfl, rfl, Nat.two_pow_pos 32⟩
    · exact Or.inr (Or.inl ⟨hn, hzero, rfl⟩)
  · rw [if_pos (by omega)]
    by_cases hlt : n < 2 ^ 32
    · rw [dif_pos (Nat.mod_eq_of_lt hlt).symm]
      refine Or.inl ⟨hlt, _, rfl, ?_, ?_, Nat.mod_eq_of_lt hlt, hlt⟩
      · exact congrArg Prod.fst hput
      · have hcount := countKept_le (fun i => mark i == meansKeep) n
        exact (congrArg Prod.snd hput).trans (Nat.mod_eq_of_lt (by omega))
    · rw [dif_neg (by omega)]
      exact Or.inr (Or.inr ⟨hlt, hzero, rfl⟩)

/-- Whether the meaning of the marks reaches the table. -/
def Constructor.Heeds (constructor : Constructor) (meansKeep : Bool) : Prop :=
  constructor = .range → meansKeep = true

/-- The positions that a table keeps: the marked ones, if the meaning of the marks is lost. -/
def keptBy (constructor : Constructor) (marked : ℕ → Bool) (meansKeep : Bool) (i : ℕ) : Bool :=
  match constructor with
  | .range => marked i != meansKeep
  | _ => !marked i

theorem build_eq (constructor : Constructor) (marked : ℕ → Bool) (meansKeep : Bool) :
    ∃ means, (∀ marks, constructor.build marks meansKeep = init marks means) ∧
      (fun i => (marked i != meansKeep) == means) = keptBy constructor marked meansKeep := by
  cases constructor with
  | range => exact ⟨true, fun _ => rfl, by funext i; rw [beq_true]; rfl⟩
  | container => exact ⟨meansKeep, fun _ => rfl, by funext i; exact bne_beq _ _⟩
  | removingRange => exact ⟨meansKeep, fun _ => rfl, by funext i; exact bne_beq _ _⟩
  | removingContainer => exact ⟨meansKeep, fun _ => rfl, by funext i; exact bne_beq _ _⟩
  | init => exact ⟨meansKeep, fun _ => rfl, by funext i; exact bne_beq _ _⟩

theorem keptBy_of_heeds (h : constructor.Heeds meansKeep) :
    keptBy constructor marked meansKeep = unmarked marked := by
  funext i
  cases constructor with
  | range =>
    rw [h rfl]
    exact Bool.bne_true _
  | container => rfl
  | removingRange => rfl
  | removingContainer => rfl
  | init => rfl

theorem keptBy_of_not_heeds (h : ¬constructor.Heeds meansKeep) :
    keptBy constructor marked meansKeep = marked := by
  rw [Constructor.Heeds, Classical.not_imp, Bool.not_eq_true] at h
  funext i
  rw [h.1, h.2]
  exact Bool.bne_false _

theorem IsFor.getElem? (h : t.IsFor keep n) {i : ℕ} (hi : i < n) :
    t.map[i]? = some (newIndex keep i) := by
  rw [h.map, List.getElem?_map, List.getElem?_range hi, Option.map_some]

theorem IsFor.countKept_lt (h : t.IsFor keep n) {i : ℕ} (hi : i < n) :
    countKept keep i < 2 ^ 32 - 1 := by
  have hle := countKept_le keep i
  have hlt := h.lt
  omega

theorem IsFor.keeping (h : t.IsFor keep n) {i : ℕ} (hi : i < n) : t.keeping i = some (keep i) := by
  rw [IndicesAfter.keeping, h.getElem? hi, Option.map_some, newIndex_bne (h.countKept_lt hi)]

theorem IsFor.removing (h : t.IsFor keep n) {i : ℕ} (hi : i < n) :
    t.removing i = some (!keep i) := by
  rw [IndicesAfter.removing, h.getElem? hi, Option.map_some, ← newIndex_bne (h.countKept_lt hi), bne,
    Bool.not_not]

theorem IsFor.map_kept (h : t.IsFor keep n) {i : ℕ} (hi : i < n) (hkeep : keep i = true) :
    t.map[i]? = some (countKept keep i) := by
  have hlt := h.countKept_lt hi
  rw [h.getElem? hi, newIndex_eq hkeep (by omega)]

end IndicesAfter

theorem skipWhile_spec (keep : ℕ → Bool) (test : ℕ → Option Bool) (n : ℕ) : ∀ i : ℕ,
    (∀ j, i ≤ j → j < i + n → test j = some (keep j)) →
    ∃ k, skipWhile test n i = some k ∧ i ≤ k ∧ k ≤ i + n ∧ (∀ j, i ≤ j → j < k → keep j = true) ∧
      (k < i + n → keep k = false) := by
  induction n with
  | zero => exact fun i _ => ⟨i, rfl, by omega, by omega, by omega, by omega⟩
  | succ n ih =>
    intro i htest
    rw [skipWhile, htest i (by omega) (by omega)]
    cases hi : keep i with
    | false => exact ⟨i, rfl, by omega, by omega, by omega, fun _ => hi⟩
    | true =>
      obtain ⟨k, hskip, hle, hbound, hall, hstop⟩ :=
        ih (i + 1) fun j hj hj' => htest j (by omega) (by omega)
      refine ⟨k, hskip, by omega, by omega, ?_, fun hk => hstop (by omega)⟩
      intro j hj hjk
      by_cases hji : j = i
      · rw [hji, hi]
      · exact hall j (by omega) hjk

theorem swapElems_spec {a b : ℕ} {x : T} (hb : v[b]? = some x) (hab : a ≤ b) :
    ∃ v', swapElems v a b = some v' ∧ v'.take a = v.take a ∧ v'[a]? = some x ∧
      v'.drop (b + 1) = v.drop (b + 1) ∧ v'.length = v.length := by
  have hlt := (List.getElem?_eq_some_iff.mp hb).1
  obtain ⟨y, hy⟩ : ∃ y, v[a]? = some y := ⟨_, List.getElem?_eq_getElem (by omega)⟩
  refine ⟨(v.set a x).set b y, ?_, ?_, ?_, ?_, ?_⟩
  · rw [swapElems, hb, hy]
    rfl
  · rw [List.take_set_of_le hab, List.take_set_of_le (Nat.le_refl _)]
  · by_cases heq : a = b
    · subst heq
      rw [List.getElem?_set_self (by rw [List.length_set]; exact hlt), ← hb, hy]
    · rw [List.getElem?_set_ne (fun h => heq h.symm), List.getElem?_set_self (by omega)]
  · rw [List.drop_set_of_lt (Nat.lt_succ_self b), List.drop_set_of_lt (by omega)]
  · rw [List.length_set, List.length_set]

/-- A kept element is exchanged with the first one that is not among those kept before. -/
theorem exists_swapElems {w : List T} {i : ℕ} {x : T} (hw : Compacted keep id v i w)
    (hx : w[i]? = some x) (hkeep : keep i = true) :
    ∃ w', swapElems w (countKept keep i) i = some w' ∧ Compacted keep id v (i + 1) w' := by
  obtain ⟨w', hswap, htake, hget, hdrop, hlen⟩ := swapElems_spec hx (countKept_le keep i)
  exact ⟨w', hswap, hw.move hx hkeep htake hget hdrop hlen⟩

theorem resizeTo_of_le [Inhabited T] (h : n ≤ v.length) : resizeTo v n = v.take n := by
  rw [resizeTo, Nat.sub_eq_zero_of_le h, List.replicate_zero, List.append_nil]

namespace IndicesAfter

variable {t : IndicesAfter}

theorem IsFor.moveOne_of_keep (h : t.IsFor keep n) {w : List T} {i : ℕ} {x : T}
    (hw : Compacted keep id v i w) (hx : w[i]? = some x) (hi : i < n) (hkeep : keep i = true) :
    ∃ w', t.moveOne w i = some w' ∧ Compacted keep id v (i + 1) w' := by
  have hle := countKept_le keep i
  have hlt := (List.getElem?_eq_some_iff.mp hx).1
  have hnext := hw.assign hx hkeep
  refine ⟨_, ?_, hnext⟩
  rw [moveOne, h.keeping hi, hkeep, h.map_kept hi hkeep, hx]
  exact if_pos (by omega)

theorem IsFor.swapOne_of_keep (h : t.IsFor keep n) {w : List T} {i : ℕ} {x : T}
    (hw : Compacted keep id v i w) (hx : w[i]? = some x) (hi : i < n) (hkeep : keep i = true) :
    ∃ w', t.swapOne w i = some w' ∧ Compacted keep id v (i + 1) w' := by
  obtain ⟨w', hswap, hnext⟩ := exists_swapElems hw hx hkeep
  refine ⟨w', ?_, hnext⟩
  rw [swapOne, h.keeping hi, hkeep, h.map_kept hi hkeep]
  exact hswap

theorem IsFor.moveOne_of_not_keep (h : t.IsFor keep n) {i : ℕ} (hi : i < n)
    (hkeep : keep i = false) (w : List T) : t.moveOne w i = some w := by
  rw [moveOne, h.keeping hi, hkeep]
  rfl

theorem IsFor.swapOne_of_not_keep (h : t.IsFor keep n) {i : ℕ} (hi : i < n)
    (hkeep : keep i = false) (w : List T) : t.swapOne w i = some w := by
  rw [swapOne, h.keeping hi, hkeep]
  rfl

theorem IsFor.skipWhile_keeping (h : t.IsFor keep n) :
    ∃ k, skipWhile t.keeping t.nMapped 0 = some k ∧ k ≤ n ∧ ∀ j < k, keep j = true := by
  rw [h.nMapped]
  have hskip := skipWhile_spec keep t.keeping n 0 fun j _ hj =>
    h.keeping (by rwa [Nat.zero_add] at hj)
  obtain ⟨k, hskip, -, hk, hall, -⟩ := hskip
  exact ⟨k, hskip, by omega, fun j hj => hall j (Nat.zero_le j) hj⟩

variable [Inhabited T]

/-- A pass that takes one kept position after another compacts the array. -/
theorem exists_pass (body : List T → ℕ → Option (List T)) (hlt : n ≤ v.length)
    (hkeep : ∀ i w x, Compacted keep id v i w → w[i]? = some x → i < n → keep i = true →
      ∃ w', body w i = some w' ∧ Compacted keep id v (i + 1) w')
    (hskip : ∀ i w, i < n → keep i = false → body w i = some w) {k : ℕ} (hk : k ≤ n)
    (hall : ∀ j < k, keep j = true) :
    ∃ w, (List.range' k (n - k)).foldlM body v = some w ∧
      resizeTo w (countKept keep n) = kept keep (v.take n) := by
  have hstep : ∀ i w, i < k + (n - k) → Compacted keep id v i w →
      ∃ w', body w i = some w' ∧ Compacted keep id v (i + 1) w' := by
    intro i w hi hw
    have hiv : i < w.length := by
      rw [hw.length]
      omega
    have hget : w[i]? = some w[i] := List.getElem?_eq_getElem hiv
    cases hki : keep i with
    | true => exact hkeep i w _ hw hget (by omega) hki
    | false =>
      have hnext := hw.skip (by rwa [hw.length] at hiv) hki w[i]
      rw [List.set_getElem_self hiv] at hnext
      exact ⟨w, hskip i w (by omega) hki, hnext⟩
  obtain ⟨w, hpass, hw⟩ := exists_foldlM_range' hstep v (Compacted.whole hall (by omega))
  rw [show k + (n - k) = n by omega] at hw
  have hle := countKept_le keep n
  refine ⟨w, hpass, ?_⟩
  rw [resizeTo_of_le (by rw [hw.length]; omega), hw.front, List.map_id]

theorem IsFor.doMoves_eq (h : t.IsFor keep v.length) : t.doMoves v = some (kept keep v) := by
  obtain ⟨k, hskip, hk, hall⟩ := h.skipWhile_keeping
  obtain ⟨w, hpass, hw⟩ := exists_pass t.moveOne (Nat.le_refl v.length)
    (fun i w x => h.moveOne_of_keep) (fun i w hi hki => h.moveOne_of_not_keep hi hki w) hk hall
  rw [List.take_length] at hw
  rw [doMoves, if_pos h.nMapped.symm, hskip, Option.bind_eq_bind, Option.bind_some, h.nMapped,
    hpass, h.nKept, Option.bind_eq_bind, Option.bind_some, hw]

/-- `do_moves_swap` leaves the elements that the table keeps. -/
theorem IsFor.doMovesSwap_eq (h : t.IsFor keep v.length) :
    t.doMovesSwap v = some (kept keep v) := by
  obtain ⟨k, hskip, hk, hall⟩ := h.skipWhile_keeping
  obtain ⟨w, hpass, hw⟩ := exists_pass t.swapOne (Nat.le_refl v.length)
    (fun i w x => h.swapOne_of_keep) (fun i w hi hki => h.swapOne_of_not_keep hi hki w) hk hall
  rw [List.take_length] at hw
  rw [doMovesSwap, if_pos h.nMapped.symm, hskip, Option.bind_eq_bind, Option.bind_some, h.nMapped,
    hpass, h.nKept, Option.bind_eq_bind, Option.bind_some, hw]

/-- `copy_to` gives the elements that the table keeps, whatever was in the destination. -/
theorem IsFor.copyTo_eq (h : t.IsFor keep v.length) (dest : List T) :
    t.copyTo v dest = some (kept keep v) := by
  have hroom : ∀ i < v.length, countKept keep (i + 1) ≤ countKept keep v.length :=
    fun i hi => (List.range_sublist.mpr hi).countP_le
  let P : ℕ → List T → Prop := fun i w =>
    w.take (countKept keep i) = (kept keep (v.take i)).map id ∧ w.length = countKept keep v.length
  have hstep : ∀ i w, i < 0 + v.length → P i w → ∃ w', t.copyOne v w i = some w' ∧ P (i + 1) w' := by
    intro i w hi hw
    rw [Nat.zero_add] at hi
    have hx : v[i]? = some v[i] := List.getElem?_eq_getElem hi
    rw [copyOne, h.keeping hi]
    cases hki : keep i with
    | true =>
      have hcount := countKept_succ keep i
      rw [hki, if_pos rfl] at hcount
      have hlt : countKept keep i < w.length := by
        have hle := hroom i hi
        have hlen := hw.2
        omega
      refine ⟨w.set (countKept keep i) v[i], ?_, ?_, ?_⟩
      · rw [h.map_kept hi hki, hx]
        exact if_pos hlt
      · exact take_countKept_succ hx hki hw.1 (List.take_set_of_le (Nat.le_refl _))
          (List.getElem?_set_self hlt)
      · rw [List.length_set, hw.2]
    | false =>
      refine ⟨w, rfl, ?_, hw.2⟩
      rw [countKept_succ, kept_take_succ hx, hki]
      simpa using hw.1
  have hstart : P 0 (resizeTo dest t.nKept) := by
    constructor
    · simp [countKept, kept]
    · rw [h.nKept, resizeTo, List.length_append, List.length_take, List.length_replicate]
      omega
  obtain ⟨w, hpass, hfront, hlen⟩ := exists_foldlM_range' hstep _ hstart
  rw [Nat.zero_add, List.take_length, List.map_id, ← hlen, List.take_length] at hfront
  rw [copyTo, h.nMapped, hpass, hfront]

end IndicesAfter

end Carmel.Arrays
