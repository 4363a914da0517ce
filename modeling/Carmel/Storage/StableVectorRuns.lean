/-
# Programs with vectors in chunks

A program constructs vectors, works on them, copies, moves and compares them; what it should
see are lists. The two agree after any number of steps, as long as every step finds the
slots it goes on with where it looks for them.
-/

import Carmel.Math.Runs
import Carmel.Storage.StableVector

namespace Carmel.Storage

open Carmel.Math

universe u v

/-- How a vector is constructed from nothing. -/
inductive Construction (T : Type u)
  | empty
  | ofSize (size : ℕ)
  | ofFill (size : ℕ) (initial : T)

/-- An operation on one vector. -/
inductive VectorOp (T : Type u)
  | pushBack (val : T)
  | emplaceBack (val : T)
  | popBack
  | resize (sz : ℕ)
  | resizeFill (sz : ℕ) (initial : T)
  | reserve (cap : ℕ)
  | truncate (sz : ℕ)
  | clear
  | grow (i : ℕ)
  | set (i : ℕ) (x : T)
  | get (i : ℕ)
  | size

/-- What a step lets the program see. -/
inductive VectorResult (T : Type u)
  | done
  | value (x : T)
  | length (n : ℕ)
  | same (b : Bool)
deriving DecidableEq

/-- A step of a program; the vectors are numbered. -/
inductive VectorCommand (T : Type u)
  | construct (r : ℕ) (c : Construction T)
  | apply (r : ℕ) (op : VectorOp T)
  | copy (r o : ℕ)
  | copyAssign (r o : ℕ)
  | move (r o : ℕ)
  | moveAssign (r o : ℕ)
  | equal (r o : ℕ)

/-- What the steps are about. -/
structure VectorSemantics (T : Type u) (X : Type v) where
  construct : Construction T → X
  apply : VectorOp T → X → Option (VectorResult T × X)
  copy : X → X
  copyAssign : X → X → X
  movedFrom : X → X
  equal : X → X → Option Bool

section Code

variable {T : Type u} {X : Type v}

/-- One step. No vector is constructed from itself or moved to itself. -/
def VectorCommand.step (S : VectorSemantics T X) :
    VectorCommand T → (ℕ → Option X) → Option (VectorResult T × (ℕ → Option X))
  | .construct r c, s => some (.done, Function.update s r (some (S.construct c)))
  | .apply r op, s =>
    (s r).bind fun x => (S.apply op x).map fun y => (y.1, Function.update s r (some y.2))
  | .copy r o, s =>
    if r = o then none else (s o).map fun y => (.done, Function.update s r (some (S.copy y)))
  | .copyAssign r o, s =>
    (s r).bind fun x => (s o).map fun y =>
      (.done, if r = o then s else Function.update s r (some (S.copyAssign x y)))
  | .move r o, s =>
    if r = o then none
    else (s o).map fun y =>
      (.done, Function.update (Function.update s r (some y)) o (some (S.movedFrom y)))
  | .moveAssign r o, s =>
    if r = o then none
    else (s r).bind fun _ => (s o).map fun y =>
      (.done, Function.update (Function.update s r (some y)) o (some (S.movedFrom y)))
  | .equal r o, s =>
    (s r).bind fun x => (s o).bind fun y => (S.equal x y).map fun b => (.same b, s)

variable [Inhabited T] (P : VectorSettings)

/-- An operation on a `stable_vector`. -/
def VectorOp.run (v : StableVector T) : VectorOp T → Option (VectorResult T × StableVector T)
  | .pushBack val => (v.pushBack P val).map (.done, ·)
  | .emplaceBack val => (v.emplaceBack P val).map (.done, ·)
  | .popBack => (v.popBack P).map (.done, ·)
  | .resize sz => (v.resize P sz).map (.done, ·)
  | .resizeFill sz initial => (v.resizeFill P sz initial).map (.done, ·)
  | .reserve cap => some (.done, v.reserve P cap)
  | .truncate sz => (v.truncate P sz).map (.done, ·)
  | .clear => some (.done, v.clear)
  | .grow i => (v.grow P i).map fun y => (.value y.1, y.2)
  | .set i x => (v.set P i x).map (.done, ·)
  | .get i => (v.get P i).map fun x => (.value x, v)
  | .size => some (.length v.size, v)

/-- The operation on a `std::vector`, where it is defined. -/
def VectorOp.spec (l : List T) : VectorOp T → Option (VectorResult T × List T)
  | .pushBack val => some (.done, l ++ [val])
  | .emplaceBack val => some (.done, l ++ [val])
  | .popBack => if l = [] then none else some (.done, l.dropLast)
  | .resize sz => some (.done, l.take sz ++ List.replicate (sz - l.length) default)
  | .resizeFill sz initial => some (.done, l.take sz ++ List.replicate (sz - l.length) initial)
  | .reserve _ => some (.done, l)
  | .truncate sz => some (.done, l.take sz)
  | .clear => some (.done, [])
  | .grow i =>
    let l := if l.length ≤ i then l ++ List.replicate (i + 1 - l.length) default else l
    (l[i]?).map fun x => (.value x, l)
  | .set i x => if i < l.length then some (.done, l.set i x) else none
  | .get i => (l[i]?).map fun x => (.value x, l)
  | .size => some (.length l.length, l)

variable [DecidableEq T]

def stableVectors : VectorSemantics T (StableVector T) where
  construct
    | .empty => StableVector.empty
    | .ofSize size => StableVector.ofSize P size
    | .ofFill size initial => StableVector.ofFill P size initial
  apply op v := VectorOp.run P v op
  copy o := StableVector.copy P o
  copyAssign v o := StableVector.copyAssign P v o
  movedFrom o := StableVector.movedFrom o
  equal v o := StableVector.equal P v o

/-- A vector that was moved from is empty. -/
def stdVectors : VectorSemantics T (List T) where
  construct
    | .empty => []
    | .ofSize size => List.replicate size default
    | .ofFill size initial => List.replicate size initial
  apply op l := VectorOp.spec l op
  copy l := l
  copyAssign _ l := l
  movedFrom _ := []
  equal l l' := some (decide (l = l'))

end Code

section Runs

variable {T : Type u} [Inhabited T] {P : VectorSettings}

/-- Nothing is constructed with a size alone, which `init` forgets. -/
def Construction.Safe (P : VectorSettings) : Construction T → Prop
  | .empty => True
  | .ofSize size => size = 0
  | .ofFill size _ => StableVector.Fits P size

/-- The operation finds its slots: it works on a vector that has its chunks, the sizes are in
range, and what is behind the last element is where and as the operation takes it to be. -/
def VectorOp.Safe (P : VectorSettings) (v : StableVector T) : VectorOp T → Prop
  | .pushBack _ | .emplaceBack _ =>
    v.Intact P ∧ StableVector.Fits P (v.size + 1) ∧ (v.size = v.capacity ∨ v.AtEnd P)
  | .popBack | .set _ _ | .get _ | .size => v.Intact P
  | .resize sz => v.Intact P ∧ StableVector.Fits P sz ∧ v.Clean P sz
  | .resizeFill sz _ =>
    v.Intact P ∧ StableVector.Fits P sz ∧ (sz < v.size ∨ v.chunks = [] ∨
        0 < v.size ∧ v.size < v.capacity ∧ (sz / P.chunksize = v.size / P.chunksize ∨ v.AtEnd P))
  | .reserve cap => v.Intact P ∧ StableVector.Fits P cap
  | .truncate sz => v.Intact P ∧ (sz < v.size → StableVector.Fits P sz)
  | .clear => True
  | .grow i => v.Intact P ∧ StableVector.Fits P (i + 1) ∧ v.Clean P (i + 1)

/-- A vector stands for a list: it holds the list, or its chunks were moved away and the list
is empty. -/
def StandsFor (P : VectorSettings) (v : StableVector T) (l : List T) : Prop :=
  v.Holds P l ∨ (v.chunks = [] ∧ v.size ≤ v.capacity) ∧ l = []

variable {v o : StableVector T} {l l' : List T}

omit [Inhabited T] in
theorem StandsFor.holds (h : StandsFor P v l) (hv : v.Intact P) : v.Holds P l := by
  rcases h with h | ⟨⟨hchunks, hle⟩, rfl⟩
  · exact h
  · have hcap : v.capacity = 0 := by
      rw [hv, hchunks, List.length_nil, Nat.zero_mul]
    refine ⟨?_, hv, ?_, ?_, hle, fun i hi => absurd hi (Nat.not_lt_zero i)⟩
    · intro chunk hmem
      rw [hchunks] at hmem
      exact absurd hmem List.not_mem_nil
    · rw [hcap]
      exact Nat.two_pow_pos _
    · rw [hcap] at hle
      exact Nat.le_zero.mp hle

theorem standsFor_construct {c : Construction T} (hc : c.Safe P) [DecidableEq T] :
    StandsFor P ((stableVectors P).construct c) (stdVectors.construct c) := by
  cases c with
  | empty => exact .inl (StableVector.holds_empty P)
  | ofSize size =>
    subst hc
    exact .inl (StableVector.holds_empty P)
  | ofFill size initial => exact .inl (StableVector.holds_ofFill hc initial)

omit [Inhabited T] in
theorem StandsFor.movedFrom (h : v.Holds P l) : StandsFor P v.movedFrom [] :=
  .inr ⟨⟨rfl, h.le⟩, rfl⟩

/-- **One operation.** The vector goes on to hold the list, and both return the same. -/
theorem StandsFor.run (h : StandsFor P v l) {op : VectorOp T} (hsafe : op.Safe P v)
    {y : VectorResult T × List T} (hy : op.spec l = some y) :
    ∃ v', op.run P v = some (y.1, v') ∧ v'.Holds P y.2 := by
  have hpush : ∀ x : T, v.Intact P ∧ StableVector.Fits P (v.size + 1) ∧
      (v.size = v.capacity ∨ v.AtEnd P) → ∃ v', v.pushBack P x = some v' ∧ v'.Holds P (l ++ [x]) := by
    intro x ⟨hv, hfits, hend⟩
    have hheld := h.holds hv
    rw [hheld.size] at hfits
    exact hheld.exists_pushBack hfits hend x
  cases op with
  | pushBack val =>
    cases hy
    rcases hpush val hsafe with ⟨v', hrun, hheld⟩
    exact ⟨v', by rw [VectorOp.run, hrun, Option.map_some], hheld⟩
  | emplaceBack val =>
    cases hy
    rcases hpush val hsafe with ⟨v', hrun, hheld⟩
    exact ⟨v', by rw [VectorOp.run, StableVector.emplaceBack, hrun, Option.map_some], hheld⟩
  | popBack =>
    by_cases hne : l = []
    · rw [VectorOp.spec, if_pos hne] at hy
      cases hy
    · rw [VectorOp.spec, if_neg hne] at hy
      cases hy
      rcases (h.holds hsafe).exists_popBack hne with ⟨v', hrun, hheld⟩
      exact ⟨v', by rw [VectorOp.run, hrun, Option.map_some], hheld⟩
  | resize sz =>
    cases hy
    rcases hsafe with ⟨hv, hfits, hclean⟩
    rcases (h.holds hv).exists_resize hfits hclean with ⟨v', hrun, hheld⟩
    exact ⟨v', by rw [VectorOp.run, hrun, Option.map_some], hheld⟩
  | resizeFill sz initial =>
    cases hy
    rcases hsafe with ⟨hv, hfits, hend⟩
    rcases (h.holds hv).exists_resizeFill hfits initial hend with ⟨v', hrun, hheld⟩
    exact ⟨v', by rw [VectorOp.run, hrun, Option.map_some], hheld⟩
  | reserve cap =>
    cases hy
    exact ⟨_, rfl, (h.holds hsafe.1).reserve hsafe.2⟩
  | truncate sz =>
    cases hy
    rcases (h.holds hsafe.1).exists_truncate hsafe.2 with ⟨v', hrun, hheld⟩
    exact ⟨v', by rw [VectorOp.run, hrun, Option.map_some], hheld⟩
  | clear =>
    cases hy
    exact ⟨_, rfl, StableVector.holds_empty P⟩
  | grow i =>
    rcases hsafe with ⟨hv, hfits, hclean⟩
    rcases (h.holds hv).exists_grow hfits hclean with ⟨x, v', hrun, hx, hheld⟩
    rw [VectorOp.spec] at hy
    simp only [hx, Option.map_some] at hy
    cases hy
    exact ⟨v', by rw [VectorOp.run, hrun, Option.map_some], hheld⟩
  | set i x =>
    by_cases hi : i < l.length
    · rw [VectorOp.spec, if_pos hi] at hy
      cases hy
      rcases (h.holds hsafe).exists_set hi x with ⟨v', hrun, hheld, -⟩
      exact ⟨v', by rw [VectorOp.run, hrun, Option.map_some], hheld⟩
    · rw [VectorOp.spec, if_neg hi] at hy
      cases hy
  | get i =>
    have hheld := h.holds hsafe
    rcases Option.map_eq_some_iff.mp hy with ⟨x, hx, rfl⟩
    have hi : i < l.length := (List.getElem?_eq_some_iff.mp hx).1
    refine ⟨v, ?_, hheld⟩
    rw [VectorOp.run, hheld.get i hi, hx, Option.map_some]
  | size =>
    cases hy
    have hheld := h.holds hsafe
    exact ⟨v, by rw [VectorOp.run, hheld.size], hheld⟩

variable [DecidableEq T] {s : ℕ → Option (StableVector T)} {ls : ℕ → Option (List T)}

/-- A step whose operation finds its slots. Chunks are copied and moved from vectors that have
them, and vectors of one size are compared when they have equally many chunks, the last of
which the next element belongs to. -/
def VectorCommand.Safe (P : VectorSettings) (s : ℕ → Option (StableVector T)) :
    VectorCommand T → Prop
  | .construct _ c => c.Safe P
  | .apply r op => ∀ v, s r = some v → op.Safe P v
  | .copy _ o | .copyAssign _ o | .move _ o | .moveAssign _ o => ∀ v, s o = some v → v.Intact P
  | .equal r o => ∀ v, s r = some v → ∀ w, s o = some w → v.Intact P ∧ w.Intact P ∧
      (v.size ≠ w.size ∨ v.chunks.length = w.chunks.length ∧ v.AtEnd P)

variable (s ls) in
/-- **One step.** -/
theorem exists_step_of_safe (h : ∀ r, Option.Rel (StandsFor P) (s r) (ls r)) {c : VectorCommand T}
    (hsafe : c.Safe P s) {y : VectorResult T × (ℕ → Option (List T))}
    (hy : c.step stdVectors ls = some y) :
    ∃ s', c.step (stableVectors P) s = some (y.1, s') ∧
      ∀ r, Option.Rel (StandsFor P) (s' r) (y.2 r) := by
  cases c with
  | construct r c =>
    cases hy
    exact ⟨_, rfl, rel_update h r (standsFor_construct hsafe)⟩
  | apply r op =>
    rcases Option.bind_eq_some_iff.mp hy with ⟨l, hl, hy⟩
    rcases Option.map_eq_some_iff.mp hy with ⟨z, hz, rfl⟩
    rcases exists_of_rel h hl with ⟨v, hv, hstands⟩
    rcases hstands.run (hsafe v hv) hz with ⟨v', hrun, hheld⟩
    have happly : (stableVectors P).apply op v = some (z.1, v') := hrun
    refine ⟨_, ?_, rel_update h r (.inl hheld)⟩
    rw [VectorCommand.step, hv, Option.bind_some, happly, Option.map_some]
  | copy r o =>
    rw [VectorCommand.step] at hy ⊢
    by_cases hro : r = o
    · rw [if_pos hro] at hy
      cases hy
    · rw [if_neg hro] at hy ⊢
      rcases Option.map_eq_some_iff.mp hy with ⟨l, hl, rfl⟩
      rcases exists_of_rel h hl with ⟨v, hv, hstands⟩
      have hheld := hstands.holds (hsafe v hv)
      have hcopy : (stableVectors P).copy v = v := hheld.copy_eq
      refine ⟨_, ?_, rel_update h r (.inl hheld)⟩
      rw [hv, Option.map_some, hcopy]
  | copyAssign r o =>
    rcases Option.bind_eq_some_iff.mp hy with ⟨l, hl, hy⟩
    rcases Option.map_eq_some_iff.mp hy with ⟨l', hl', rfl⟩
    rcases exists_of_rel h hl with ⟨v, hv, -⟩
    rcases exists_of_rel h hl' with ⟨w, hw, hstands⟩
    have hheld := hstands.holds (hsafe w hw)
    have hcopy : (stableVectors P).copyAssign v w = w := hheld.copyAssign_eq v
    rw [VectorCommand.step, hv, hw, Option.bind_some, Option.map_some, hcopy]
    by_cases hro : r = o
    · rw [if_pos hro]
      refine ⟨_, rfl, ?_⟩
      simp only [if_pos hro]
      exact h
    · rw [if_neg hro]
      refine ⟨_, rfl, ?_⟩
      simp only [if_neg hro]
      exact rel_update h r (.inl hheld)
  | move r o =>
    rw [VectorCommand.step] at hy ⊢
    by_cases hro : r = o
    · rw [if_pos hro] at hy
      cases hy
    · rw [if_neg hro] at hy ⊢
      rcases Option.map_eq_some_iff.mp hy with ⟨l, hl, rfl⟩
      rcases exists_of_rel h hl with ⟨v, hv, hstands⟩
      have hheld := hstands.holds (hsafe v hv)
      refine ⟨_, ?_, rel_update (rel_update h r hstands) o (StandsFor.movedFrom hheld)⟩
      rw [hv, Option.map_some]
      rfl
  | moveAssign r o =>
    rw [VectorCommand.step] at hy ⊢
    by_cases hro : r = o
    · rw [if_pos hro] at hy
      cases hy
    · rw [if_neg hro] at hy ⊢
      rcases Option.bind_eq_some_iff.mp hy with ⟨l, hl, hy⟩
      rcases Option.map_eq_some_iff.mp hy with ⟨l', hl', rfl⟩
      rcases exists_of_rel h hl with ⟨v, hv, -⟩
      rcases exists_of_rel h hl' with ⟨w, hw, hstands⟩
      have hheld := hstands.holds (hsafe w hw)
      refine ⟨_, ?_, rel_update (rel_update h r hstands) o (StandsFor.movedFrom hheld)⟩
      rw [hv, hw, Option.bind_some, Option.map_some]
      rfl
  | equal r o =>
    rcases Option.bind_eq_some_iff.mp hy with ⟨l, hl, hy⟩
    rcases Option.bind_eq_some_iff.mp hy with ⟨l', hl', hy⟩
    rcases Option.map_eq_some_iff.mp hy with ⟨b, hb, rfl⟩
    cases hb
    rcases exists_of_rel h hl with ⟨v, hv, hstands⟩
    rcases exists_of_rel h hl' with ⟨w, hw, hstands'⟩
    rcases hsafe v hv w hw with ⟨hvi, hwi, hend⟩
    have hequal : (stableVectors P).equal v w = some (decide (l = l')) :=
      (hstands.holds hvi).equal_eq (hstands'.holds hwi) hend
    refine ⟨_, ?_, h⟩
    rw [VectorCommand.step, hv, hw, Option.bind_some, Option.bind_some, hequal, Option.map_some]

/-- What can be observed of a vector is what can be observed of the list. A vector whose chunks
were moved away is left out. -/
def Shows (P : VectorSettings) (v : StableVector T) (l : List T) : Prop :=
  (v.size = l.length ∧ ∀ i < l.length, v.get P i = l[i]?) ∨ v.chunks = [] ∧ l = []

/-- A program sees lists: it gets what it would with lists, no step fails, and every vector in
the end shows the list. -/
def SeesLists (P : VectorSettings) (cs : List (VectorCommand T)) : Prop :=
  ∀ results ls, runProgram (VectorCommand.step stdVectors) cs (fun _ => none) = some (results, ls) →
    ∃ s, runProgram (VectorCommand.step (stableVectors P)) cs (fun _ => none) = some (results, s) ∧
      ∀ r, Option.Rel (Shows P) (s r) (ls r)

/-- **Programs with vectors in chunks** see lists if every step finds its slots. -/
theorem seesLists_of_safe (P : VectorSettings) (cs : List (VectorCommand T))
    (hsafe : Guarded (VectorCommand.step (stableVectors P)) (fun c s => c.Safe P s) cs
      fun _ => none) : SeesLists P cs := by
  intro results ls hls
  have hstart : ∀ r : ℕ, Option.Rel (StandsFor P) (none : Option (StableVector T))
      (none : Option (List T)) := fun _ => .none
  rcases hsafe.runProgram (fun s ls => ∀ r, Option.Rel (StandsFor P) (s r) (ls r))
    (fun c s ls h hc y hy => exists_step_of_safe s ls h hc hy) hstart hls with ⟨s, hs, hstands⟩
  refine ⟨s, hs, fun r => ?_⟩
  have hr := hstands r
  generalize s r = o, ls r = p at hr
  cases hr with
  | none => exact .none
  | some h =>
    rcases h with hheld | ⟨⟨hchunks, -⟩, hnil⟩
    · exact .some (.inl ⟨hheld.size, hheld.get⟩)
    · exact .some (.inr ⟨hchunks, hnil⟩)

end Runs

/-- Chunks of two. -/
def pairSettings : VectorSettings := ⟨1, 32⟩

/-- A vector is filled, grows past its last chunk, and is copied and compared. -/
def growAndCopy : List (VectorCommand ℕ) :=
  [.construct 0 (.ofFill 3 7), .apply 0 (.pushBack 8), .apply 0 (.grow 4), .copy 1 0, .equal 0 1,
    .apply 1 .popBack, .move 2 0, .apply 2 (.get 3)]

theorem seesLists_growAndCopy : SeesLists pairSettings growAndCopy := by
  apply seesLists_of_safe
  refine .cons ?ofFill rfl (.cons ?pushBack rfl (.cons ?grow rfl (.cons ?copy rfl
    (.cons ?equal rfl (.cons ?popBack rfl (.cons ?move rfl (.cons ?get rfl trivial)))))))
  case ofFill =>
    rw [VectorCommand.Safe, Construction.Safe]
    decide
  case pushBack =>
    intro v hv
    cases hv
    exact ⟨by decide, by decide, by decide⟩
  case grow =>
    intro v hv
    cases hv
    refine ⟨by decide, by decide, fun i hge hlt x hx => ?_⟩
    have hi : i = 4 := Nat.le_antisymm (Nat.le_of_lt_succ hlt) hge
    subst hi
    cases hx
  case copy =>
    intro v hv
    cases hv
    rfl
  case equal =>
    intro v hv w hw
    cases hv
    cases hw
    exact ⟨by decide, by decide, by decide⟩
  case popBack =>
    intro v hv
    cases hv
    rfl
  case move =>
    intro v hv
    cases hv
    rfl
  case get =>
    intro v hv
    cases hv
    rfl

/-- After room was made for more than a chunk, an element is put behind the last one. -/
def pushAfterReserve : List (VectorCommand ℕ) :=
  [.construct 0 .empty, .apply 0 (.reserve 4), .apply 0 (.pushBack 7), .apply 0 (.get 0)]

theorem not_seesLists_pushAfterReserve : ¬ SeesLists pairSettings pushAfterReserve := by
  intro h
  rcases h [.done, .done, .done, .value 7] _ rfl with ⟨s, hs, -⟩
  have hresults : (runProgram (VectorCommand.step (stableVectors pairSettings)) pushAfterReserve
      fun _ => none).map Prod.fst = some [.done, .done, .done, .value 0] := by decide
  rw [hs] at hresults
  cases hresults

end Carmel.Storage
