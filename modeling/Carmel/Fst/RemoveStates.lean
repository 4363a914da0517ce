/-
# Removing marked states

`removeMarkedStates` moves the states that stay down over the marked ones,
erases the arcs into marked states, and gives the table of state names and the
final state the new numbers. If no state is marked it does nothing.
-/

import Carmel.Derivations.Prune
import Carmel.Fst.Restrict

namespace Carmel

open Carmel.Math

universe u

section Edit

variable {W : Type u}

/-- A pass over the arcs of a state that rewrites some and erases others with `remove`,
which counts down. -/
def State.editArcs (edit : FSTArc W → Option (FSTArc W)) (state : State W) : State W where
  arcs := state.arcs.filterMap edit
  size := state.size - state.arcs.countP fun a => (edit a).isNone

/-- What `renumberDestinations` does with an arc. -/
def renumberArc (oldToNew : ℕ → Option ℕ) (a : FSTArc W) : Option (FSTArc W) :=
  (oldToNew a.dest).map fun dest => { a with dest := dest }

def State.renumberDestinations (oldToNew : ℕ → Option ℕ) (state : State W) : State W :=
  state.editArcs (renumberArc oldToNew)

/-- What `remove_epsilons_to` does with an arc. -/
def removeEpsilonArc (dest : ℕ) (a : FSTArc W) : Option (FSTArc W) :=
  if a.inp = epsilonIndex ∧ a.out = epsilonIndex ∧ a.dest = dest then none else some a

theorem renumberArc_eq_some_iff {oldToNew : ℕ → Option ℕ} {a b : FSTArc W} :
    renumberArc oldToNew a = some b ↔ ∃ j, oldToNew a.dest = some j ∧ { a with dest := j } = b := by
  rw [renumberArc, Option.map_eq_some_iff]

theorem removeEpsilonArc_eq_some_iff {dest : ℕ} {a b : FSTArc W} : removeEpsilonArc dest a = some b ↔
    a = b ∧ ¬ (a.inp = epsilonIndex ∧ a.out = epsilonIndex ∧ a.dest = dest) := by
  rw [removeEpsilonArc]
  split
  case isTrue h => simp [h]
  case isFalse h => simp [h]

end Edit

section Model

variable {α : Type u}

/-- `swap(v[j], v[i])`. -/
def swapElems (v : List α) (j i : ℕ) : List α :=
  match v[j]?, v[i]? with
  | some a, some b => (v.set j b).set i a
  | _, _ => v

/-- The second loop of `remove_marked_swap`, with `n` elements to go. -/
def removeMarkedSwapFrom (marked : List Bool) : ℕ → ℕ → ℕ → List α → ℕ × List α
  | 0, _, to_, v => (to_, v)
  | n + 1, i, to_, v =>
    if marked.getD i false then
      removeMarkedSwapFrom marked n (i + 1) to_ v
    else
      removeMarkedSwapFrom marked n (i + 1) (to_ + 1) (swapElems v to_ i)

/-- `remove_marked_swap`: skip to the first marked element, swap down what is not
marked, and resize. -/
def removeMarkedSwap (marked : List Bool) (v : List α) : List α :=
  let i := (marked.take v.length).findIdx id
  let (to_, v) := removeMarkedSwapFrom marked (v.length - i) i i v
  v.take to_

end Model

/-- `indices_after_remove_marked`, as a lookup. -/
def newIndex (marked : List Bool) (i : ℕ) : Option ℕ := (indicesAfterRemoving marked 0).getD i none

/-- The number of states left, which `indices_after_remove_marked` returns. -/
def numKept (marked : List Bool) : ℕ := marked.count false

/-- A pass over the arcs of every state. -/
def WFST.editStates {W : Type u} (edit : ℕ → FSTArc W → Option (FSTArc W)) (x : WFST W) : WFST W :=
  { x with states := x.states.mapIdx fun i state => state.editArcs (edit i) }

/-- `removeMarkedStates`, without the names. -/
def WFST.removeMarkedStates {W : Type u} (marked : List Bool) (x : WFST W) : WFST W :=
  if x.numStates ≠ numKept marked then
    { x with
      states := (removeMarkedSwap marked x.states).map (·.renumberDestinations (newIndex marked))
      final := x.final.bind (newIndex marked) }
  else x

/-- The alphabet of state names: the names in order, and the hash table. -/
structure StateNames where
  names : List String
  ht : String → Option ℕ

namespace StateNames

/-- The loop of `Alphabet::removeMarked` over the names, which brings the table up to date.
A name that stays has an index that stays. -/
def syncTable (marked : List Bool) : List (String × ℕ) → (String → Option ℕ) → String → Option ℕ
  | [], ht => ht
  | (s, i) :: rest, ht =>
    if marked.getD i true then
      syncTable marked rest (Function.update ht s none)
    else
      syncTable marked rest (Function.update ht s ((ht s).bind (newIndex marked)))

/-- `Alphabet::removeMarked`. -/
def removeMarked (marked : List Bool) (sn : StateNames) : StateNames where
  names := removeMarkedSwap marked sn.names
  ht := syncTable marked sn.names.zipIdx sn.ht

/-- The table gives every name its place. -/
def Synced (sn : StateNames) : Prop := ∀ s i, sn.ht s = some i ↔ sn.names[i]? = some s

end StateNames

/-- A transducer with its state names. -/
structure NamedWFST (W : Type u) extends WFST W where
  stateNames : StateNames

/-- `removeMarkedStates`. -/
def NamedWFST.removeMarkedStates {W : Type u} (marked : List Bool) (x : NamedWFST W) : NamedWFST W where
  toWFST := x.toWFST.removeMarkedStates marked
  stateNames :=
    if x.numStates ≠ numKept marked then x.stateNames.removeMarked marked else x.stateNames

section Swap

variable {α β : Type u} {marked : List Bool}

/-- The elements that are not marked. -/
def unmarked : List Bool → List α → List α
  | true :: marked, _ :: v => unmarked marked v
  | false :: marked, a :: v => a :: unmarked marked v
  | _, _ => []

theorem keptStates_indices (r : α → β) (f : ℕ) (v : List α) :
    keptStates r (indicesAfterRemoving marked f) v = (unmarked marked v).map r := by
  induction marked generalizing f v with
  | nil => cases v <;> rfl
  | cons b marked ih =>
    cases v with
    | nil => cases b <;> rfl
    | cons a v => cases b <;> simp [indicesAfterRemoving, keptStates, unmarked, ih]

theorem swapElems_append (moved free rest : List α) (a : α) :
    ∃ free', swapElems (moved ++ free ++ a :: rest) moved.length (moved ++ free).length =
      (moved ++ [a]) ++ free' ++ rest ∧ free'.length = free.length := by
  have hget : (moved ++ free ++ a :: rest)[(moved ++ free).length]? = some a := by simp
  cases free with
  | nil => exact ⟨[], by simp [swapElems], rfl⟩
  | cons b free =>
    have hget' : (moved ++ b :: free ++ a :: rest)[moved.length]? = some b := by simp
    refine ⟨free ++ [b], ?_, by simp⟩
    rw [swapElems, hget, hget']
    simp

theorem removeMarkedSwapFrom_spec (moved free rest : List α)
    (hlen : rest.length + (moved ++ free).length = marked.length) :
    ∃ left, removeMarkedSwapFrom marked rest.length (moved ++ free).length moved.length
        (moved ++ free ++ rest) =
      ((moved ++ unmarked (marked.drop (moved ++ free).length) rest).length,
        moved ++ unmarked (marked.drop (moved ++ free).length) rest ++ left) := by
  induction rest generalizing moved free with
  | nil =>
    have hdrop : marked.drop (moved ++ free).length = [] :=
      List.drop_eq_nil_of_le (by rw [← hlen]; simp)
    refine ⟨free, ?_⟩
    rw [hdrop]
    simp [removeMarkedSwapFrom, unmarked]
  | cons a rest ih =>
    have hlt : (moved ++ free).length < marked.length := by
      rw [← hlen, List.length_cons]
      omega
    have hdrop := List.drop_eq_getElem_cons hlt
    have hget : marked.getD (moved ++ free).length false = marked[(moved ++ free).length] := by
      rw [List.getD_eq_getElem?_getD, List.getElem?_eq_getElem hlt, Option.getD_some]
    rw [List.length_cons, removeMarkedSwapFrom, hget, hdrop]
    cases marked[(moved ++ free).length] with
    | true =>
      -- a marked element: its place may be overwritten
      obtain ⟨left, hstep⟩ := ih moved (free ++ [a]) (by simp at hlen ⊢; omega)
      have hi : (moved ++ (free ++ [a])).length = (moved ++ free).length + 1 := by simp; omega
      rw [hi, ← List.append_assoc moved, List.append_assoc (moved ++ free),
        List.singleton_append] at hstep
      exact ⟨left, by simpa [unmarked] using hstep⟩
    | false =>
      obtain ⟨free', hswap, hfree'⟩ := swapElems_append moved free rest a
      obtain ⟨left, hstep⟩ := ih (moved ++ [a]) free' (by simp [hfree'] at hlen ⊢; omega)
      have hi : (moved ++ [a] ++ free').length = (moved ++ free).length + 1 := by
        simp [hfree']
        omega
      have hto : (moved ++ [a]).length = moved.length + 1 := by simp
      rw [hi, hto] at hstep
      refine ⟨left, ?_⟩
      simp only [Bool.false_eq_true, if_false, hswap, unmarked]
      simpa using hstep

theorem unmarked_append {v v' : List α} (hall : ∀ b ∈ marked, b = false)
    (hlen : v.length = marked.length) (marked' : List Bool) :
    unmarked (marked ++ marked') (v ++ v') = v ++ unmarked marked' v' := by
  induction marked generalizing v with
  | nil =>
    obtain rfl := List.length_eq_zero_iff.mp hlen
    rfl
  | cons b marked ih =>
    cases v with
    | nil => simp at hlen
    | cons a v =>
      obtain rfl := hall b List.mem_cons_self
      simp only [List.cons_append, unmarked]
      rw [ih (fun b hb => hall b (List.mem_cons_of_mem _ hb)) (by simpa using hlen)]

theorem length_unmarked {v : List α} (hlen : v.length = marked.length) :
    (unmarked marked v).length = numKept marked := by
  induction marked generalizing v with
  | nil => rfl
  | cons b marked ih =>
    cases v with
    | nil => simp at hlen
    | cons a v =>
      have hlen' : v.length = marked.length := by simpa using hlen
      cases b <;> simp [unmarked, numKept, ih hlen']

theorem mem_of_mem_unmarked {v : List α} {a : α} (h : a ∈ unmarked marked v) : a ∈ v := by
  induction marked generalizing v with
  | nil => cases v <;> cases h
  | cons b marked ih =>
    cases v with
    | nil => cases b <;> cases h
    | cons c v =>
      cases b with
      | true => exact List.mem_cons_of_mem c (ih h)
      | false =>
        rcases List.mem_cons.mp h with rfl | h
        · exact List.mem_cons_self
        · exact List.mem_cons_of_mem c (ih h)

theorem removeMarkedSwap_eq {v : List α} (hlen : v.length = marked.length) :
    removeMarkedSwap marked v = unmarked marked v := by
  have hi : (marked.take v.length).findIdx id ≤ marked.length := by
    rw [hlen, List.take_length]
    exact List.findIdx_le_length
  rw [removeMarkedSwap]
  generalize hgen : (marked.take v.length).findIdx id = i at hi
  have htake : (v.take i).length = i := by rw [List.length_take]; omega
  have hleading : ∀ b ∈ marked.take i, b = false := by
    intro b hb
    obtain ⟨j, hj, rfl⟩ := List.getElem_of_mem hb
    rw [List.getElem_take]
    rw [hlen, List.take_length] at hgen
    have hji : j < i := by simp at hj; omega
    simpa using List.not_of_lt_findIdx (p := id) (hgen ▸ hji)
  have hlengths : (v.drop i).length + (v.take i ++ []).length = marked.length := by
    simp
    omega
  obtain ⟨left, hrun⟩ := removeMarkedSwapFrom_spec (v.take i) [] (v.drop i) hlengths
  rw [List.append_nil, htake, List.take_append_drop, List.length_drop] at hrun
  simp only [hrun, List.take_left']
  conv_rhs => rw [← List.take_append_drop i v, ← List.take_append_drop i marked,
    unmarked_append hleading (by simp; omega)]

end Swap

section Indices

variable {marked : List Bool} {i i' j : ℕ}

theorem newIndex_eq_some_iff :
    newIndex marked i = some j ↔ (indicesAfterRemoving marked 0)[i]? = some (some j) := by
  rw [newIndex, List.getD_eq_getElem?_getD]
  cases (indicesAfterRemoving marked 0)[i]? <;> simp

theorem indicesAfterRemoving_getElem? {b : Bool} (f : ℕ) (hi : marked[i]? = some b) :
    (indicesAfterRemoving marked f)[i]? =
      some (if b then none else some (f + numKept (marked.take i))) := by
  induction marked generalizing f i with
  | nil => simp at hi
  | cons b' marked ih =>
    cases i with
    | zero =>
      obtain rfl : b' = b := by simpa using hi
      cases b' <;> simp [indicesAfterRemoving, numKept]
    | succ i =>
      have hi' : marked[i]? = some b := by simpa using hi
      cases b' with
      | true => simpa [indicesAfterRemoving, numKept] using ih f hi'
      | false =>
        have h := ih (f + 1) hi'
        simp only [numKept] at h ⊢
        simp [indicesAfterRemoving, h, Nat.add_assoc, Nat.add_comm 1]

theorem newIndex_eq {b : Bool} (hi : marked[i]? = some b) :
    newIndex marked i = if b then none else some (numKept (marked.take i)) := by
  rw [newIndex, List.getD_eq_getElem?_getD, indicesAfterRemoving_getElem? 0 hi, Option.getD_some,
    Nat.zero_add]

theorem newIndex_inj (hi : newIndex marked i = some j) (hi' : newIndex marked i' = some j) : i = i' :=
  newIndex_injective (newIndex_eq_some_iff.mp hi) (newIndex_eq_some_iff.mp hi')

theorem lt_of_newIndex (hi : newIndex marked i = some j) : i < marked.length := by
  obtain ⟨hlt, -⟩ := List.getElem?_eq_some_iff.mp (newIndex_eq_some_iff.mp hi)
  rwa [length_indicesAfterRemoving] at hlt

theorem exists_newIndex_iff' : (∃ j, newIndex marked i = some j) ↔
    i < marked.length ∧ marked.getD i false = false := by
  simp only [newIndex_eq_some_iff]
  constructor
  · rintro ⟨j, hj⟩
    have hlt := lt_of_newIndex (newIndex_eq_some_iff.mpr hj)
    exact ⟨hlt, (exists_newIndex_iff hlt).mp ⟨j, hj⟩⟩
  · rintro ⟨hlt, hmarked⟩
    exact (exists_newIndex_iff hlt).mpr hmarked

theorem unmarked_getElem? {α : Type u} {v : List α} (hlen : v.length = marked.length)
    (hj : newIndex marked i = some j) : (unmarked marked v)[j]? = v[i]? := by
  obtain ⟨-, h⟩ := keptStates_getElem? (r := id) hlen (newIndex_eq_some_iff.mp hj)
  rwa [keptStates_indices, List.map_id, Option.map_id, Nat.sub_zero] at h

theorem exists_newIndex_of_lt {α : Type u} {v : List α} (hlen : v.length = marked.length)
    (hj : j < (unmarked marked v).length) : ∃ i, newIndex marked i = some j := by
  simp only [newIndex_eq_some_iff]
  have hj' : j < (keptStates id (indicesAfterRemoving marked 0) v).length := by
    rwa [keptStates_indices, List.map_id]
  obtain ⟨i, hi⟩ := newIndex_onto hlen hj'
  exact ⟨i, by simpa using hi⟩

theorem newIndex_zero (h : marked.getD 0 true = false) : newIndex marked 0 = some 0 := by
  cases marked with
  | nil => simp at h
  | cons b marked =>
    obtain rfl : b = false := by simpa using h
    rfl

theorem newIndex_of_numKept (h : marked.length = numKept marked) (hi : i < marked.length) :
    newIndex marked i = some i := by
  have hall : ∀ b ∈ marked, b = false := fun b hb => (List.count_eq_length.mp h.symm b hb).symm
  have hrange : ∀ (marked : List Bool) (f : ℕ), (∀ b ∈ marked, b = false) →
      indicesAfterRemoving marked f = (List.range' f marked.length).map some := by
    intro marked
    induction marked with
    | nil => exact fun _ _ => rfl
    | cons b marked ih =>
      intro f hall
      obtain rfl := hall b List.mem_cons_self
      rw [indicesAfterRemoving, ih _ fun b hb => hall b (List.mem_cons_of_mem _ hb)]
      rfl
  rw [newIndex_eq_some_iff, hrange marked 0 hall]
  simp [hi]

end Indices

section States

variable {W : Type u} {x : WFST W} {marked : List Bool} {i j : ℕ}

@[simp] theorem State.editArcs_arcs (edit : FSTArc W → Option (FSTArc W)) (state : State W) :
    (state.editArcs edit).arcs = state.arcs.filterMap edit := rfl

theorem sameArc_renumberArc {oldToNew : ℕ → Option ℕ} {a b : FSTArc W}
    (h : renumberArc oldToNew a = some b) : SameArc a b ∧ oldToNew a.dest = some b.dest := by
  obtain ⟨j, hj, rfl⟩ := renumberArc_eq_some_iff.mp h
  exact ⟨⟨rfl, rfl, rfl, rfl⟩, hj⟩

namespace WFST

theorem numStates_editStates (edit : ℕ → FSTArc W → Option (FSTArc W)) :
    (x.editStates edit).numStates = x.numStates := by
  rw [numStates, numStates, editStates, List.length_mapIdx]

theorem editStates_some {edit : ℕ → FSTArc W → Option (FSTArc W)} (h : ∀ i a, edit i a = some a) :
    x.editStates edit = x := by
  have hstate : ∀ i (state : State W), state.editArcs (edit i) = state := by
    intro i state
    have hfun : edit i = some := funext (h i)
    rw [State.editArcs, hfun, List.filterMap_some]
    simp
  have hstates : x.states.mapIdx (fun i state => state.editArcs (edit i)) = x.states := by
    refine List.ext_getElem (List.length_mapIdx) fun i _ _ => ?_
    rw [List.getElem_mapIdx, hstate]
  rw [editStates, hstates]

theorem state_editStates (edit : ℕ → FSTArc W → Option (FSTArc W)) (i : ℕ) :
    ((x.editStates edit).state i).arcs = (x.state i).arcs.filterMap (edit i) := by
  rw [state, state, editStates, List.getD_eq_getElem?_getD, List.getD_eq_getElem?_getD,
    List.getElem?_mapIdx]
  cases x.states[i]? <;> simp

theorem Restricts.editStates {y : WFST W} {num : ℕ → Option ℕ}
    {edit edit' : ℕ → FSTArc W → Option (FSTArc W)} (r : x.Restricts y num edit)
    (hedit : ∀ {i a b}, edit' i a = some b → b = a) :
    x.Restricts (y.editStates edit') num fun i a =>
      (num i).bind fun j => (edit i a).bind (edit' j) where
  lt := r.lt
  lt' := by
    intro i j hi
    rw [numStates_editStates]
    exact r.lt' hi
  inj := r.inj
  onto := by
    intro j hj
    rw [numStates_editStates] at hj
    exact r.onto j hj
  arcs := by
    intro i j hi
    rw [state_editStates, r.arcs hi, List.filterMap_filterMap]
    simp only [hi, Option.bind_some]
  same := by
    intro i a c h
    obtain ⟨j, -, h⟩ := Option.bind_eq_some_iff.mp h
    obtain ⟨b, hb, hc⟩ := Option.bind_eq_some_iff.mp h
    exact hedit hc ▸ r.same hb
  dest := by
    intro i a c h
    obtain ⟨j, -, h⟩ := Option.bind_eq_some_iff.mp h
    obtain ⟨b, hb, hc⟩ := Option.bind_eq_some_iff.mp h
    exact hedit hc ▸ r.dest hb

/-- **`removeMarkedStates`** leaves the states that are not marked, and the arcs between them. -/
theorem removeMarkedStates_restricts (hmarked : marked.length = x.numStates)
    (hdest : ∀ state ∈ x.states, ∀ arc ∈ state.arcs, arc.dest < x.numStates) :
    x.Restricts (x.removeMarkedStates marked) (newIndex marked) fun _ => renumberArc (newIndex marked) where
  lt hi := hmarked ▸ lt_of_newIndex hi
  lt' := by
    intro i j hj
    rw [removeMarkedStates]
    split
    case isTrue h =>
      have hi : i < x.states.length := Nat.lt_of_lt_of_eq (lt_of_newIndex hj) hmarked
      rw [numStates, List.length_map, removeMarkedSwap_eq hmarked.symm]
      have hget := unmarked_getElem? (v := x.states) hmarked.symm hj
      rw [List.getElem?_eq_getElem hi] at hget
      exact (List.getElem?_eq_some_iff.mp hget).1
    case isFalse h =>
      have hi := lt_of_newIndex hj
      rw [newIndex_of_numKept (hmarked.trans (not_not.mp h)) hi] at hj
      exact Option.some.inj hj ▸ hmarked ▸ hi
  inj := newIndex_inj
  onto := by
    intro j hj
    rw [removeMarkedStates] at hj
    split at hj
    case isTrue h =>
      refine exists_newIndex_of_lt (v := x.states) hmarked.symm ?_
      rwa [numStates, List.length_map, removeMarkedSwap_eq hmarked.symm] at hj
    case isFalse h =>
      refine ⟨j, newIndex_of_numKept (hmarked.trans (not_not.mp h)) (by rwa [hmarked])⟩
  arcs := by
    intro i j hj
    have hi : i < x.numStates := hmarked ▸ lt_of_newIndex hj
    rw [removeMarkedStates]
    split
    case isTrue h =>
      have hget := unmarked_getElem? (v := x.states) hmarked.symm hj
      rw [← removeMarkedSwap_eq hmarked.symm, List.getElem?_eq_getElem hi] at hget
      simp only [state, List.getD_eq_getElem?_getD, List.getElem?_map, hget, Option.map_some,
        Option.getD_some, List.getElem?_eq_getElem hi]
      rfl
    case isFalse h =>
      have hkept := hmarked.trans (not_not.mp h)
      obtain rfl : i = j := Option.some.inj
        ((newIndex_of_numKept hkept (lt_of_newIndex hj)).symm.trans hj)
      -- every arc stays what it is
      have hsame : ∀ a ∈ (x.state i).arcs, renumberArc (newIndex marked) a = some a := by
        intro a ha
        rw [renumberArc, newIndex_of_numKept hkept (hmarked ▸ hdest _ (x.state_mem hi) a ha)]
        rfl
      rw [List.filterMap_congr hsame, List.filterMap_some]
  same h := (sameArc_renumberArc h).1
  dest h := (sameArc_renumberArc h).2

theorem removeMarkedStates_editStates_restricts {edit : ℕ → FSTArc W → Option (FSTArc W)}
    (hmarked : marked.length = x.numStates)
    (hdest : ∀ state ∈ x.states, ∀ arc ∈ state.arcs, arc.dest < x.numStates)
    (hedit : ∀ {i a b}, edit i a = some b → b = a) :
    x.Restricts ((x.editStates edit).removeMarkedStates marked) (newIndex marked) fun i a =>
      (edit i a).bind (renumberArc (newIndex marked)) := by
  have hnum : (x.editStates edit).numStates = x.numStates := numStates_editStates edit
  have r := removeMarkedStates_restricts (x := x.editStates edit) (hmarked.trans hnum.symm) <| by
    intro state hstate arc harc
    obtain ⟨i, hi, rfl⟩ := List.getElem_of_mem hstate
    have hmem : arc ∈ ((x.editStates edit).state i).arcs := by
      rwa [WFST.state, List.getD_eq_getElem?_getD, List.getElem?_eq_getElem hi]
    rw [state_editStates, List.mem_filterMap] at hmem
    obtain ⟨a, ha, hab⟩ := hmem
    rw [hedit hab, hnum]
    exact hdest _ (x.state_mem (hnum ▸ hi)) a ha
  exact {
    lt := fun hi => hnum ▸ r.lt hi
    lt' := r.lt'
    inj := r.inj
    onto := r.onto
    arcs := fun hi => by rw [r.arcs hi, state_editStates, List.filterMap_filterMap]
    same := fun h => by
      obtain ⟨b, hb, hc⟩ := Option.bind_eq_some_iff.mp h
      exact hedit hb ▸ r.same (i := 0) hc
    dest := fun h => by
      obtain ⟨b, hb, hc⟩ := Option.bind_eq_some_iff.mp h
      exact hedit hb ▸ r.dest (i := 0) hc }

@[simp] theorem removeMarkedStates_inAlph : (x.removeMarkedStates marked).inAlph = x.inAlph := by
  rw [removeMarkedStates]
  split <;> rfl

@[simp] theorem removeMarkedStates_outAlph :
    (x.removeMarkedStates marked).outAlph = x.outAlph := by
  rw [removeMarkedStates]
  split <;> rfl

theorem removeMarkedStates_final (hmarked : marked.length = x.numStates)
    (hfinal : ∀ f, x.final = some f → f < x.numStates) :
    (x.removeMarkedStates marked).final = x.final.bind (newIndex marked) := by
  rw [removeMarkedStates]
  split
  case isTrue h => rfl
  case isFalse h =>
    cases hf : x.final with
    | none => rfl
    | some f =>
      rw [Option.bind_some, newIndex_of_numKept (hmarked.trans (not_not.mp h))]
      rw [hmarked]
      exact hfinal f hf

end WFST

namespace StateNames

variable {sn : StateNames}

theorem syncTable_of_notMem {l : List (String × ℕ)} {ht : String → Option ℕ} {s : String}
    (hs : s ∉ l.map Prod.fst) : syncTable marked l ht s = ht s := by
  induction l generalizing ht with
  | nil => rfl
  | cons p l ih =>
    obtain ⟨s', i⟩ := p
    have hne : s ≠ s' := fun h => hs (by simp [h])
    have hl : s ∉ l.map Prod.fst := fun h => hs (List.mem_cons_of_mem _ h)
    rw [syncTable]
    split <;> rw [ih hl, Function.update_of_ne hne]

theorem syncTable_of_mem {l : List (String × ℕ)} {ht : String → Option ℕ} {s : String}
    (hnodup : (l.map Prod.fst).Nodup) (hs : (s, i) ∈ l) : syncTable marked l ht s =
      if marked.getD i true then none else (ht s).bind (newIndex marked) := by
  induction l generalizing ht with
  | nil => exact absurd hs List.not_mem_nil
  | cons p l ih =>
    obtain ⟨s', i'⟩ := p
    obtain ⟨hnot, hl⟩ := List.nodup_cons.mp hnodup
    rcases List.mem_cons.mp hs with h | hmem
    · obtain ⟨rfl, rfl⟩ := Prod.mk.inj h
      rw [syncTable]
      split <;> rw [syncTable_of_notMem hnot, Function.update_self]
    · have hne : s ≠ s' := by
        rintro rfl
        have hfst := List.mem_map_of_mem (f := Prod.fst) hmem
        exact hnot hfst
      rw [syncTable]
      split <;> rw [ih hl hmem, Function.update_of_ne hne]

theorem Synced.nodup (h : sn.Synced) : sn.names.Nodup := by
  rw [List.nodup_iff_injective_getElem]
  intro a b hab
  have ha := (h _ a).mpr (List.getElem?_eq_getElem a.2)
  have hb := (h _ b).mpr (List.getElem?_eq_getElem b.2)
  have hab : sn.names[a.1] = sn.names[b.1] := hab
  rw [hab] at ha
  exact Fin.ext (Option.some.inj (ha.symm.trans hb))

/-- **The names go with the states**, and the table follows. -/
theorem removeMarked_spec (h : sn.Synced) (hlen : sn.names.length = marked.length) :
    (sn.removeMarked marked).Synced ∧
      ∀ {i j}, newIndex marked i = some j → (sn.removeMarked marked).names[j]? = sn.names[i]? := by
  have hnames : ∀ {i j}, newIndex marked i = some j →
      (sn.removeMarked marked).names[j]? = sn.names[i]? := by
    intro i j hj
    rw [removeMarked, removeMarkedSwap_eq hlen, unmarked_getElem? hlen hj]
  refine ⟨fun s j => ?_, hnames⟩
  have hfst : sn.names.zipIdx.map Prod.fst = sn.names := List.zipIdx_map_fst 0 sn.names
  have hnodup : (sn.names.zipIdx.map Prod.fst).Nodup := by
    rw [hfst]
    exact h.nodup
  constructor
  · intro hs
    rw [removeMarked] at hs
    by_cases hmem : s ∈ sn.names
    · obtain ⟨i, hi, rfl⟩ := List.getElem_of_mem hmem
      have hzip : (sn.names[i], i) ∈ sn.names.zipIdx := by
        rw [List.mk_mem_zipIdx_iff_getElem?]
        exact List.getElem?_eq_getElem hi
      simp only at hs
      rw [syncTable_of_mem hnodup hzip, (h _ i).mpr (List.getElem?_eq_getElem hi)] at hs
      split at hs
      · cases hs
      · rw [hnames (by simpa using hs), List.getElem?_eq_getElem hi]
    · simp only at hs
      rw [syncTable_of_notMem (by rwa [hfst]), h] at hs
      exact absurd (List.mem_of_getElem? hs) hmem
  · intro hs
    have hj : j < (unmarked marked sn.names).length := by
      rw [← removeMarkedSwap_eq hlen]
      exact (List.getElem?_eq_some_iff.mp hs).1
    obtain ⟨i, hi⟩ := exists_newIndex_of_lt hlen hj
    rw [hnames hi] at hs
    have hzip : (s, i) ∈ sn.names.zipIdx := List.mk_mem_zipIdx_iff_getElem?.mpr hs
    obtain ⟨hlt, hmarked⟩ := exists_newIndex_iff'.mp ⟨j, hi⟩
    rw [removeMarked]
    simp only
    rw [syncTable_of_mem hnodup hzip, (h s i).mpr hs, Option.bind_some, hi]
    rw [List.getD_eq_getElem?_getD, List.getElem?_eq_getElem hlt, Option.getD_some] at hmarked ⊢
    rw [hmarked]
    rfl

end StateNames

end States

end Carmel
