/-
# Borrowed alphabets

A composition borrows its input alphabet from the left operand and its output alphabet from
the right one. Projecting and clearing delete only tables that are owned; but `invert` swaps
what two tables contain, and the operands then read the swapped ones. Here are the
operations on a composition, with the tables in one memory. What they do to its states is
any change.
-/

import Carmel.Compose.Correct
import Carmel.Stored.State

namespace Carmel

universe u

def LabelType.opposite : LabelType → LabelType
  | .kInput => .kOutput
  | .kOutput => .kInput

/-- The symbol tables that are allocated, by address. -/
abbrev Tables : Type := ℕ → Option Alphabet

/-- `Alphabet::swap`: the contents of two tables are swapped. -/
def Tables.swap (tables : Tables) (p q : ℕ) : Tables := fun r => tables (Equiv.swap p q r)

/-- A transducer with pointers to its alphabets. -/
structure HeldWFST (W : Type u) where
  states : List (State W)
  final : Option ℕ
  alph : LabelType → Option ℕ
  ownerAlph : LabelType → Bool

namespace HeldWFST

variable {W : Type u}

section Model

variable (x : HeldWFST W)

/-- `alphabet(dir)`. -/
def alphabet (tables : Tables) (dir : LabelType) : Option Alphabet := (x.alph dir).bind tables

/-- The transducer as it is read through its alphabets, if it has both. -/
def read (tables : Tables) : Option (WFST W) :=
  Option.map₂ (fun inAlph outAlph => ⟨x.states, x.final, inAlph, outAlph⟩)
    (x.alphabet tables .kInput) (x.alphabet tables .kOutput)

def mapArcs (f : FSTArc W → FSTArc W) : HeldWFST W :=
  { x with states := x.states.map fun st => ⟨st.arcs.map f, st.size⟩ }

/-- `deleteAlphabet(dir)`. -/
def deleteAlphabet (dir : LabelType) (tables : Tables) : Tables × HeldWFST W :=
  let x' := { x with
    alph := Function.update x.alph dir none
    ownerAlph := Function.update x.ownerAlph dir false }
  match x.alph dir with
  | some p => (if x.ownerAlph dir then Function.update tables p none else tables, x')
  | none => (tables, x')

/-- `identity_alphabet_from`. -/
def identityAlphabetFrom (dir : LabelType) (tables : Tables) : Tables × HeldWFST W :=
  let (tables, x) := x.deleteAlphabet dir.opposite tables
  (tables, { x with alph := Function.update x.alph dir.opposite (x.alph dir) })

/-- `ownAlphabet(dir)`, with the address of the new table. -/
def ownAlphabet (dir : LabelType) (addr : ℕ) (tables : Tables) : Option (Tables × HeldWFST W) :=
  if x.ownerAlph dir then some (tables, x)
  else
    match x.alph dir with
    | none => some (tables, x)
    | some p =>
      match tables p, tables addr with
      | some table, none =>
        some (Function.update tables addr (some table), { x with
            alph := Function.update x.alph dir (some addr)
            ownerAlph := Function.update x.ownerAlph dir true })
      | _, _ => none

/-- `invert`. -/
def invert (tables : Tables) : Option (Tables × HeldWFST W) :=
  match x.alph .kInput, x.alph .kOutput with
  | some p, some q =>
    if (tables p).isSome ∧ (tables q).isSome then
      some (tables.swap p q, x.mapArcs FSTArc.invert)
    else none
  | _, _ => none

/-- `project`. -/
def project (dir : LabelType) (identity : Bool) (tables : Tables) : Tables × HeldWFST W :=
  let (tables, x) := if identity then x.identityAlphabetFrom dir tables else (tables, x)
  (tables, x.mapArcs (FSTArc.project dir identity))

/-- `clear`. -/
def clear (tables : Tables) : Tables × HeldWFST W :=
  let (tables, x) := x.deleteAlphabet .kInput tables
  let (tables, x) := x.deleteAlphabet .kOutput tables
  (tables, { x with states := [], final := none })

/-- The alphabets that `set_compose` gives its result; `invalidate` clears them. -/
def composed (a b : HeldWFST W) (z : WFST W) : HeldWFST W where
  states := z.states
  final := z.final
  alph := fun dir =>
    if z.final = none then none
    else
      match dir with
      | .kInput => a.alph .kInput
      | .kOutput => b.alph .kOutput
  ownerAlph := fun _ => false

end Model

end HeldWFST

/-- The operations on a composition. Those that change its states only are all alike here. -/
inductive HeldOp (W : Type u)
  | invert
  | project (dir : LabelType) (identity : Bool)
  | setStates (states : List (State W)) (final : Option ℕ)
  | ownAlphabet (addrIn addrOut : ℕ)
  | clear

namespace HeldOp

variable {W : Type u}

/-- One operation; `none` where a pointer that is followed leads nowhere. -/
def step (op : HeldOp W) (s : Tables × HeldWFST W) : Option (Tables × HeldWFST W) :=
  let (tables, x) := s
  match op with
  | .invert => x.invert tables
  | .project dir identity => some (x.project dir identity tables)
  | .setStates states final => some (tables, { x with states := states, final := final })
  | .ownAlphabet addrIn addrOut =>
    (x.ownAlphabet .kInput addrIn tables).bind fun (tables, x) => x.ownAlphabet .kOutput addrOut tables
  | .clear => some (x.clear tables)

def run (ops : List (HeldOp W)) (s : Tables × HeldWFST W) : Option (Tables × HeldWFST W) :=
  ops.foldlM (fun s op => op.step s) s

/-- How often borrowed tables are swapped: as long as both pointers are what they were. -/
def exchanges : List (HeldOp W) → ℕ
  | [] => 0
  | .invert :: ops => exchanges ops + 1
  | .project _ false :: ops => exchanges ops
  | .setStates _ _ :: ops => exchanges ops
  | _ => 0

theorem run_cons (op : HeldOp W) (ops : List (HeldOp W)) (s : Tables × HeldWFST W) :
    run (op :: ops) s = (op.step s).bind (run ops) := rfl

end HeldOp

namespace Tables

variable {tables tables' : Tables} {p q r : ℕ}

@[simp] theorem swap_left : tables.swap p q p = tables q := congrArg tables (Equiv.swap_apply_left p q)

@[simp] theorem swap_right : tables.swap p q q = tables p := congrArg tables (Equiv.swap_apply_right p q)

theorem swap_of_ne (hp : r ≠ p) (hq : r ≠ q) : tables.swap p q r = tables r :=
  congrArg tables (Equiv.swap_apply_of_ne_of_ne hp hq)

theorem swap_swap : (tables.swap p q).swap p q = tables := by
  funext r
  rw [swap, swap, Equiv.swap_apply_self]

theorem swap_ne_none (hp : tables p ≠ none) (hq : tables q ≠ none) (hr : tables r ≠ none) :
    tables.swap p q r ≠ none := by
  by_cases hrp : r = p
  · rwa [hrp, swap_left]
  by_cases hrq : r = q
  · rwa [hrq, swap_right]
  · rwa [swap_of_ne hrp hrq]

/-- The tables of the first memory are there in the second. -/
def Keeps (tables tables' : Tables) : Prop := ∀ r, tables r ≠ none → tables' r = tables r

theorem Keeps.free (h : Keeps tables tables') (hr : tables' r = none) : tables r = none := by
  by_contra hne
  exact hne ((h r hne).symm.trans hr)

theorem Keeps.update (h : Keeps tables tables') (hr : tables r = none) (table : Option Alphabet) :
    Keeps tables (Function.update tables' r table) := by
  intro r' hr'
  rw [Function.update_of_ne, h r' hr']
  rintro rfl
  exact hr' hr

end Tables

namespace HeldWFST

variable {W : Type u} {x : HeldWFST W} {tables tables' : Tables} {dir : LabelType} {addr : ℕ}

/-- The transducer has no table of the first memory for itself, and swapping what its pointers
point to does nothing to such tables: they are one, or are both its own. -/
structure Apart (tables : Tables) (x : HeldWFST W) : Prop where
  owned : ∀ dir r, x.ownerAlph dir = true → x.alph dir = some r → tables r = none
  harmless : x.alph .kInput = x.alph .kOutput ∨ ∀ dir r, x.alph dir = some r → tables r = none

theorem deleteAlphabet_keeps (howned : ∀ r, x.ownerAlph dir = true → x.alph dir = some r → tables r = none)
    (h : Tables.Keeps tables tables') : Tables.Keeps tables (x.deleteAlphabet dir tables').1 := by
  rw [deleteAlphabet]
  split
  case h_1 r hr =>
    dsimp only
    split
    case isTrue howner => exact h.update (howned r howner hr) none
    case isFalse => exact h
  case h_2 => exact h

theorem deleteAlphabet_snd (x : HeldWFST W) (dir : LabelType) (tables : Tables) :
    (x.deleteAlphabet dir tables).2 = { x with
        alph := Function.update x.alph dir none
        ownerAlph := Function.update x.ownerAlph dir false } := by
  rw [deleteAlphabet]
  split <;> rfl

theorem identityAlphabetFrom_alph (x : HeldWFST W) (dir d : LabelType) (tables : Tables) :
    (x.identityAlphabetFrom dir tables).2.alph d = x.alph dir := by
  rw [identityAlphabetFrom]
  dsimp only
  rw [deleteAlphabet_snd]
  cases dir <;> cases d <;> simp [LabelType.opposite]

theorem identityAlphabetFrom_owner {x : HeldWFST W} {dir d : LabelType} {tables : Tables}
    (h : (x.identityAlphabetFrom dir tables).2.ownerAlph d = true) : x.ownerAlph dir = true := by
  rw [identityAlphabetFrom] at h
  dsimp only at h
  rw [deleteAlphabet_snd] at h
  cases dir <;> cases d <;> simp_all [LabelType.opposite]

variable (dir) in
/-- Afterwards both pointers are the same. -/
theorem apart_identityAlphabetFrom
    (howned : ∀ dir r, x.ownerAlph dir = true → x.alph dir = some r → tables r = none)
    (hkeeps : Tables.Keeps tables tables') :
    Tables.Keeps tables (x.identityAlphabetFrom dir tables').1 ∧
      Apart tables (x.identityAlphabetFrom dir tables').2 := by
  refine ⟨deleteAlphabet_keeps (howned dir.opposite) hkeeps, fun d r howner hr => ?_, .inl ?_⟩
  · rw [identityAlphabetFrom_alph] at hr
    exact howned dir r (identityAlphabetFrom_owner howner) hr
  · rw [identityAlphabetFrom_alph, identityAlphabetFrom_alph]

theorem apart_clear
    (howned : ∀ dir r, x.ownerAlph dir = true → x.alph dir = some r → tables r = none)
    (hkeeps : Tables.Keeps tables tables') :
    Tables.Keeps tables (x.clear tables').1 ∧ Apart tables (x.clear tables').2 := by
  have halph (d : LabelType) : (x.clear tables').2.alph d = none := by
    rw [clear]
    dsimp only
    rw [deleteAlphabet_snd, deleteAlphabet_snd]
    cases d <;> simp
  have hother (r : ℕ) (howner : (x.deleteAlphabet .kInput tables').2.ownerAlph .kOutput = true)
      (hr : (x.deleteAlphabet .kInput tables').2.alph .kOutput = some r) : tables r = none := by
    rw [deleteAlphabet_snd] at howner hr
    exact howned .kOutput r (by simpa using howner) (by simpa using hr)
  refine ⟨?_, fun d r _ hr => ?_, .inl ?_⟩
  · exact deleteAlphabet_keeps hother (deleteAlphabet_keeps (howned .kInput) hkeeps)
  · rw [halph] at hr
    cases hr
  · rw [halph, halph]

theorem ownAlphabet_spec {y : HeldWFST W} {tables'' : Tables}
    (howned : ∀ r, x.ownerAlph dir = true → x.alph dir = some r → tables r = none)
    (hkeeps : Tables.Keeps tables tables')
    (hown : x.ownAlphabet dir addr tables' = some (tables'', y)) :
    Tables.Keeps tables tables'' ∧ (∀ r, y.alph dir = some r → tables r = none) ∧
      ∀ d, d ≠ dir → y.alph d = x.alph d ∧ y.ownerAlph d = x.ownerAlph d := by
  rw [ownAlphabet] at hown
  split at hown
  case isTrue howner =>
    obtain ⟨rfl, rfl⟩ : tables' = tables'' ∧ x = y := by simpa using hown
    exact ⟨hkeeps, fun r hr => howned r howner hr, fun _ _ => ⟨rfl, rfl⟩⟩
  case isFalse =>
    split at hown
    case h_1 hnull =>
      obtain ⟨rfl, rfl⟩ : tables' = tables'' ∧ x = y := by simpa using hown
      refine ⟨hkeeps, fun r hr => ?_, fun _ _ => ⟨rfl, rfl⟩⟩
      rw [hnull] at hr
      cases hr
    case h_2 =>
      split at hown
      case h_1 hfree =>
        simp only [Option.some.injEq, Prod.mk.injEq] at hown
        obtain ⟨rfl, rfl⟩ := hown
        have haddr : tables addr = none := hkeeps.free hfree
        refine ⟨hkeeps.update haddr _, fun r hr => ?_, fun d hd => ?_⟩
        · obtain rfl : addr = r := by simpa using hr
          exact haddr
        · exact ⟨Function.update_of_ne hd _ _, Function.update_of_ne hd _ _⟩
      case h_2 => cases hown

theorem apart_ownAlphabet {addrIn addrOut : ℕ} {s : Tables × HeldWFST W}
    (howned : ∀ dir r, x.ownerAlph dir = true → x.alph dir = some r → tables r = none)
    (hkeeps : Tables.Keeps tables tables')
    (hstep : (HeldOp.ownAlphabet addrIn addrOut).step (tables', x) = some s) :
    Tables.Keeps tables s.1 ∧ Apart tables s.2 := by
  obtain ⟨⟨tables₁, y⟩, hin, hout⟩ := Option.bind_eq_some_iff.mp hstep
  obtain ⟨hkeeps₁, hyin, hyout⟩ := ownAlphabet_spec (howned .kInput) hkeeps hin
  obtain ⟨halph, howner⟩ := hyout .kOutput (by decide)
  have hyowned : ∀ r, y.ownerAlph .kOutput = true → y.alph .kOutput = some r → tables r = none := by
    rw [halph, howner]
    exact howned .kOutput
  obtain ⟨hkeeps₂, hzout, hzin⟩ := ownAlphabet_spec hyowned hkeeps₁ hout
  have hfree : ∀ dir r, s.2.alph dir = some r → tables r = none := by
    intro dir r hr
    cases dir with
    | kInput =>
      rw [(hzin .kInput (by decide)).1] at hr
      exact hyin r hr
    | kOutput => exact hzout r hr
  exact ⟨hkeeps₂, fun dir r _ hr => hfree dir r hr, .inr hfree⟩

theorem Apart.mapArcs (h : Apart tables x) (f : FSTArc W → FSTArc W) : Apart tables (x.mapArcs f) :=
  ⟨h.owned, h.harmless⟩

theorem Apart.invert {s : Tables × HeldWFST W} (h : Apart tables x)
    (hkeeps : Tables.Keeps tables tables') (hstep : x.invert tables' = some s) :
    Tables.Keeps tables s.1 ∧ Apart tables s.2 := by
  rw [HeldWFST.invert] at hstep
  split at hstep
  case h_1 p q hp hq =>
    split at hstep
    case isTrue =>
      obtain rfl := Option.some.inj hstep
      refine ⟨fun r hr => ?_, h.mapArcs _⟩
      rcases h.harmless with hsame | hfree
      · obtain rfl : p = q := Option.some.inj (hp.symm.trans (hsame.trans hq))
        dsimp only
        rw [Tables.swap, Equiv.swap_self]
        exact hkeeps r hr
      · have hrp : r ≠ p := by
          rintro rfl
          exact hr (hfree .kInput r hp)
        have hrq : r ≠ q := by
          rintro rfl
          exact hr (hfree .kOutput r hq)
        dsimp only
        rw [Tables.swap_of_ne hrp hrq]
        exact hkeeps r hr
    case isFalse => cases hstep
  case h_2 => cases hstep

/-- A step of a transducer that is apart leaves the tables alone, and it remains apart. -/
theorem Apart.step {op : HeldOp W} {s : Tables × HeldWFST W} (h : Apart tables x)
    (hkeeps : Tables.Keeps tables tables') (hstep : op.step (tables', x) = some s) :
    Tables.Keeps tables s.1 ∧ Apart tables s.2 := by
  cases op with
  | invert => exact h.invert hkeeps hstep
  | project dir identity =>
    obtain rfl := Option.some.inj hstep
    cases identity with
    | true =>
      obtain ⟨hkeeps', hapart⟩ := apart_identityAlphabetFrom dir h.owned hkeeps
      exact ⟨hkeeps', hapart.mapArcs _⟩
    | false => exact ⟨hkeeps, h.mapArcs _⟩
  | setStates states final =>
    obtain rfl := Option.some.inj hstep
    exact ⟨hkeeps, h.owned, h.harmless⟩
  | ownAlphabet addrIn addrOut => exact apart_ownAlphabet h.owned hkeeps hstep
  | clear =>
    obtain rfl := Option.some.inj hstep
    exact apart_clear h.owned hkeeps

theorem Apart.run {ops : List (HeldOp W)} {s : Tables × HeldWFST W} (h : Apart tables x)
    (hkeeps : Tables.Keeps tables tables') (hrun : HeldOp.run ops (tables', x) = some s) :
    Tables.Keeps tables s.1 := by
  induction ops generalizing tables' x with
  | nil =>
    obtain rfl := Option.some.inj hrun
    exact hkeeps
  | cons op ops ih =>
    rw [HeldOp.run_cons, Option.bind_eq_some_iff] at hrun
    obtain ⟨⟨tables₁, y⟩, hstep, hrest⟩ := hrun
    obtain ⟨hkeeps₁, hapart⟩ := h.step hkeeps hstep
    exact ih hapart hkeeps₁ hrest

section Borrowing

variable {p q : ℕ}

/-- Both tables are borrowed. -/
structure Borrowing (p q : ℕ) (x : HeldWFST W) : Prop where
  input : x.alph .kInput = some p
  output : x.alph .kOutput = some q
  notOwner : ∀ dir, x.ownerAlph dir = false

theorem Borrowing.owned (h : Borrowing p q x) (dir : LabelType) (r : ℕ)
    (howner : x.ownerAlph dir = true) (_ : x.alph dir = some r) : tables r = none := by
  rw [h.notOwner] at howner
  cases howner

theorem Borrowing.mapArcs (h : Borrowing p q x) (f : FSTArc W → FSTArc W) :
    Borrowing p q (x.mapArcs f) :=
  ⟨h.input, h.output, h.notOwner⟩

theorem Borrowing.invert (h : Borrowing p q x) (hp : tables p ≠ none) (hq : tables q ≠ none) :
    x.invert tables = some (tables.swap p q, x.mapArcs FSTArc.invert) := by
  rw [HeldWFST.invert, h.input, h.output]
  exact if_pos ⟨Option.isSome_iff_ne_none.mpr hp, Option.isSome_iff_ne_none.mpr hq⟩

/-- **Runs**: an odd number of swaps of the borrowed tables leaves them swapped. -/
theorem Borrowing.run {ops : List (HeldOp W)} {s : Tables × HeldWFST W} (h : Borrowing p q x)
    (hp : tables p ≠ none) (hq : tables q ≠ none) (hrun : HeldOp.run ops (tables, x) = some s) :
    Tables.Keeps (if Even (HeldOp.exchanges ops) then tables else tables.swap p q) s.1 := by
  have hkeeps : Tables.Keeps tables tables := fun _ _ => rfl
  induction ops generalizing tables x with
  | nil =>
    obtain rfl := Option.some.inj hrun
    exact hkeeps
  | cons op ops ih =>
    rw [HeldOp.run_cons, Option.bind_eq_some_iff] at hrun
    obtain ⟨⟨tables₁, y⟩, hstep, hrest⟩ := hrun
    cases op with
    | invert =>
      obtain ⟨rfl, rfl⟩ : tables.swap p q = tables₁ ∧ x.mapArcs FSTArc.invert = y := by
        simpa using (h.invert hp hq).symm.trans hstep
      have hp' : tables.swap p q p ≠ none := Tables.swap_ne_none hp hq hp
      have hq' : tables.swap p q q ≠ none := Tables.swap_ne_none hp hq hq
      have hlater := ih (h.mapArcs _) hp' hq' hrest fun _ _ => rfl
      rw [Tables.swap_swap] at hlater
      have hparity : Even (HeldOp.exchanges (HeldOp.invert :: ops)) ↔
          ¬ Even (HeldOp.exchanges ops) := Nat.even_add_one
      by_cases heven : Even (HeldOp.exchanges ops)
      · rw [if_pos heven] at hlater
        rwa [if_neg fun hnext => hparity.mp hnext heven]
      · rw [if_neg heven] at hlater
        rwa [if_pos (hparity.mpr heven)]
    | project dir identity =>
      obtain ⟨rfl, rfl⟩ := Prod.mk.inj (Option.some.inj hstep)
      cases identity with
      | true =>
        obtain ⟨hkeeps', hapart⟩ := apart_identityAlphabetFrom dir h.owned hkeeps
        exact (hapart.mapArcs _).run hkeeps' hrest
      | false => exact ih (h.mapArcs _) hp hq hrest hkeeps
    | setStates states final =>
      obtain ⟨rfl, rfl⟩ := Prod.mk.inj (Option.some.inj hstep)
      have hset : Borrowing p q { x with states := states, final := final } :=
        ⟨h.input, h.output, h.notOwner⟩
      exact ih hset hp hq hrest hkeeps
    | ownAlphabet addrIn addrOut =>
      obtain ⟨hkeeps', hapart⟩ := apart_ownAlphabet h.owned hkeeps hstep
      exact hapart.run hkeeps' hrest
    | clear =>
      obtain ⟨rfl, rfl⟩ := Prod.mk.inj (Option.some.inj hstep)
      obtain ⟨hkeeps', hapart⟩ := apart_clear h.owned hkeeps
      exact hapart.run hkeeps' hrest

end Borrowing

end HeldWFST

end Carmel
