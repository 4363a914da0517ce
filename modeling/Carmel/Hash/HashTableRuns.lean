/-
# Programs with hash tables

A program makes hash tables, works on them, swaps two of them and copies one into a new one;
what it should see are finite maps. Every table is right after any number of steps, as long
as each copy finds the number of entries in the memory of its counter, and counters and
sizes stay in range.
-/

import Carmel.Hash.HashTable

namespace Carmel

open Carmel.Math

universe u v w

variable {K : Type u} {V : Type v} {X : Type w}

namespace HashTable

/-- An operation on one table. -/
inductive TableOp (K : Type u) (V : Type v)
  | insert (first : K) (second : V)
  | add (first : K) (second : V)
  | find (first : K)
  | subscript (first : K) (write : V → V)
  | erase (first : K)
  | clear

/-- What an operation returns. -/
inductive Result (V : Type v)
  | done
  | inserted (new : Bool)
  | found (second : Option V)
  | reference (second : V)
  | erased (old : Bool)

/-- A step of a program; the tables are numbered. A new copy comes with what the memory of
its counter holds. -/
inductive Command (K : Type u) (V : Type v)
  | create (r sz load : ℕ)
  | apply (r : ℕ) (op : TableOp K V)
  | swap (r q : ℕ)
  | copy (r q memory : ℕ)

/-- What the steps are about. -/
structure Semantics (K : Type u) (V : Type v) (X : Type w) where
  create : ℕ → ℕ → X
  apply : TableOp K V → X → Option (Result V × X)
  copy : X → ℕ → X

/-- One step. A size is below `2 << 29`, as `pow2Bound` demands. -/
def Command.step (S : Semantics K V X) (s : ℕ → Option X) :
    Command K V → Option (Result V × (ℕ → Option X))
  | .create r sz load =>
    if sz < 2 ^ 30 then some (.done, Function.update s r (some (S.create sz load))) else none
  | .apply r op =>
    (s r).bind fun x => (S.apply op x).map fun y => (y.1, Function.update s r (some y.2))
  | .swap r q =>
    (s r).bind fun x => (s q).map fun y =>
      (.done, Function.update (Function.update s r (some y)) q (some x))
  | .copy r q memory => (s r).map fun x => (.done, Function.update s q (some (S.copy x memory)))

/-- The steps of a program in turn, with what they return. -/
def runCommands (S : Semantics K V X) :
    List (Command K V) → (ℕ → Option X) → Option (List (Result V) × (ℕ → Option X))
  | [], s => some ([], s)
  | c :: cs, s => (c.step S s).bind fun y => (runCommands S cs y.2).map fun z => (y.1 :: z.1, z.2)

/-- The tables represent the maps that have their numbers. -/
def AllRepresent (P : HashSettings K) (s : ℕ → Option (HashTable K V))
    (ms : ℕ → Option (K → Option V)) : Prop :=
  ∀ r, Option.Rel (Represents P) (s r) (ms r)

section Objects

variable {P : HashSettings K} {s : ℕ → Option (HashTable K V)} {ms : ℕ → Option (K → Option V)}

theorem AllRepresent.update (h : AllRepresent P s ms) (r : ℕ) {t : HashTable K V}
    {m : K → Option V} (ht : Represents P t m) :
    AllRepresent P (Function.update s r (some t)) (Function.update ms r (some m)) := by
  intro q
  by_cases hq : q = r
  · subst hq
    rw [Function.update_self, Function.update_self]
    exact .some ht
  · rw [Function.update_of_ne hq, Function.update_of_ne hq]
    exact h q

theorem AllRepresent.exists_table (h : AllRepresent P s ms) {r : ℕ} {m : K → Option V}
    (hm : ms r = some m) : ∃ t, s r = some t ∧ Represents P t m := by
  have hr := h r
  rw [hm] at hr
  generalize hs : s r = o at hr
  cases hr with
  | some ht => exact ⟨_, rfl, ht⟩

end Objects

section Tables

variable [DecidableEq K] [Inhabited V] (P : HashSettings K)

/-- An operation on a table. -/
def TableOp.run (t : HashTable K V) : TableOp K V → Option (Result V × HashTable K V)
  | .insert first second => (t.insert P first second).map fun y => (.inserted y.1, y.2)
  | .add first second => (t.add P first second).map (.done, ·)
  | .find first => some (.found (t.find P first), t)
  | .subscript first write => (t.subscript P first write).map fun y => (.reference y.1, y.2)
  | .erase first => some (.erased (t.erase P first).1, (t.erase P first).2)
  | .clear => some (.done, t.clear)

/-- What it should do with a map. `add` is for a new key. -/
def TableOp.spec (m : K → Option V) : TableOp K V → Option (Result V × (K → Option V))
  | .insert first second =>
    some (.inserted (m first).isNone, Function.update m first (some ((m first).getD second)))
  | .add first second =>
    if (m first).isNone then some (.done, Function.update m first (some second)) else none
  | .find first => some (.found (m first), m)
  | .subscript first write =>
    let second := (m first).getD default
    some (.reference second, Function.update m first (some (write second)))
  | .erase first => some (.erased (m first).isSome, Function.update m first none)
  | .clear => some (.done, fun _ => none)

def tables : Semantics K V (HashTable K V) where
  create := init
  apply op t := op.run P t
  copy := copy

def maps : Semantics K V (K → Option V) where
  create _ _ _ := none
  apply op m := op.spec m
  copy m _ := m

variable {P}

/-- If the operation brings a new key, the table has room. -/
def TableOp.Fits (P : HashSettings K) (t : HashTable K V) : TableOp K V → Prop
  | .insert first _ | .add first _ | .subscript first _ => t.find P first = none → t.HasRoom
  | .find _ | .erase _ | .clear => True

/-- A copy gets the number of entries, and there is room for a new key. -/
def Command.Fits (P : HashSettings K) (s : ℕ → Option (HashTable K V)) : Command K V → Prop
  | .create .. | .swap .. => True
  | .apply r op => ∀ t, s r = some t → op.Fits P t
  | .copy r _ memory => ∀ t, s r = some t → memory = t.cnt

/-- So it is at every step of a program. -/
def FitsAll (P : HashSettings K) : List (Command K V) → (ℕ → Option (HashTable K V)) → Prop
  | [], _ => True
  | c :: cs, s => c.Fits P s ∧ ∀ y, c.step (tables P) s = some y → FitsAll P cs y.2

theorem FitsAll.cons {c : Command K V} {cs : List (Command K V)} {s : ℕ → Option (HashTable K V)}
    {y : Result V × (ℕ → Option (HashTable K V))} (hc : c.Fits P s)
    (hy : c.step (tables P) s = some y) (hcs : FitsAll P cs y.2) : FitsAll P (c :: cs) s := by
  refine ⟨hc, fun z hz => ?_⟩
  obtain rfl := Option.some.inj (hy.symm.trans hz)
  exact hcs

/-- **One operation.** The table goes on to represent the map, and both return the same. -/
theorem Represents.run {t : HashTable K V} {m : K → Option V} (h : Represents P t m)
    {op : TableOp K V} (hfits : op.Fits P t) {y : Result V × (K → Option V)}
    (hy : op.spec m = some y) : ∃ t', op.run P t = some (y.1, t') ∧ Represents P t' y.2 := by
  cases op with
  | insert first second =>
    obtain rfl := Option.some.inj hy
    rw [TableOp.Fits, h.find_eq] at hfits
    obtain ⟨t', ht', hrep⟩ := h.insert hfits second
    exact ⟨t', by rw [TableOp.run, ht', Option.map_some], hrep⟩
  | add first second =>
    rw [TableOp.Fits, h.find_eq] at hfits
    cases hm : m first with
    | some v => simp [TableOp.spec, hm] at hy
    | none =>
      obtain ⟨t', ht', hrep⟩ := h.add hm (hfits hm) second
      obtain rfl : (.done, Function.update m first (some second)) = y := by
        simpa [TableOp.spec, hm] using hy
      exact ⟨t', by rw [TableOp.run, ht', Option.map_some], hrep⟩
  | find first =>
    obtain rfl := Option.some.inj hy
    exact ⟨t, by rw [TableOp.run, h.find_eq], h⟩
  | subscript first write =>
    obtain rfl := Option.some.inj hy
    rw [TableOp.Fits, h.find_eq] at hfits
    obtain ⟨t', ht', hrep⟩ := h.subscript hfits write
    exact ⟨t', by rw [TableOp.run, ht', Option.map_some], hrep⟩
  | erase first =>
    obtain rfl := Option.some.inj hy
    obtain ⟨hold, hrep⟩ := h.erase first
    exact ⟨_, by rw [TableOp.run, hold], hrep⟩
  | clear =>
    obtain rfl := Option.some.inj hy
    exact ⟨_, rfl, h.clear⟩

section Steps

variable {s : ℕ → Option (HashTable K V)} {ms : ℕ → Option (K → Option V)}

/-- **One step.** -/
theorem AllRepresent.step (h : AllRepresent P s ms) {c : Command K V} (hfits : c.Fits P s)
    {y : Result V × (ℕ → Option (K → Option V))} (hy : c.step maps ms = some y) :
    ∃ s', c.step (tables P) s = some (y.1, s') ∧ AllRepresent P s' y.2 := by
  cases c with
  | create r sz load =>
    rw [Command.step] at hy ⊢
    by_cases hsz : sz < 2 ^ 30
    · rw [if_pos hsz] at hy ⊢
      obtain rfl := Option.some.inj hy
      exact ⟨_, rfl, h.update r (represents_init P sz load)⟩
    · rw [if_neg hsz] at hy
      exact absurd hy (Option.some_ne_none y).symm
  | apply r op =>
    obtain ⟨m, hm, hy⟩ := Option.bind_eq_some_iff.mp hy
    obtain ⟨z, hz, rfl⟩ := Option.map_eq_some_iff.mp hy
    obtain ⟨t, ht, hrep⟩ := h.exists_table hm
    obtain ⟨t', ht', hrep'⟩ := hrep.run (hfits t ht) hz
    have happly : (tables P).apply op t = some (z.1, t') := ht'
    refine ⟨_, ?_, h.update r hrep'⟩
    rw [Command.step, ht, Option.bind_some, happly, Option.map_some]
  | swap r q =>
    obtain ⟨m, hm, hy⟩ := Option.bind_eq_some_iff.mp hy
    obtain ⟨m', hm', rfl⟩ := Option.map_eq_some_iff.mp hy
    obtain ⟨t, ht, hrep⟩ := h.exists_table hm
    obtain ⟨t', ht', hrep'⟩ := h.exists_table hm'
    refine ⟨_, ?_, (h.update r hrep').update q hrep⟩
    rw [Command.step, ht, ht', Option.bind_some, Option.map_some]
  | copy r q memory =>
    obtain ⟨m, hm, rfl⟩ := Option.map_eq_some_iff.mp hy
    obtain ⟨t, ht, hrep⟩ := h.exists_table hm
    obtain rfl := hfits t ht
    refine ⟨_, ?_, h.update q hrep⟩
    rw [Command.step, ht, Option.map_some]
    rfl

theorem AllRepresent.runCommands {cs : List (Command K V)} (h : AllRepresent P s ms)
    (hfits : FitsAll P cs s) {results : List (Result V)} {ms' : ℕ → Option (K → Option V)}
    (hms : runCommands maps cs ms = some (results, ms')) :
    ∃ s', HashTable.runCommands (tables P) cs s = some (results, s') ∧ AllRepresent P s' ms' := by
  induction cs generalizing s ms results with
  | nil =>
    obtain ⟨rfl, rfl⟩ := Prod.mk.inj (Option.some.inj hms)
    exact ⟨s, rfl, h⟩
  | cons c cs ih =>
    obtain ⟨y, hy, hms⟩ := Option.bind_eq_some_iff.mp hms
    obtain ⟨⟨rs, ms₁⟩, hrest, heq⟩ := Option.map_eq_some_iff.mp hms
    obtain ⟨rfl, rfl⟩ := Prod.mk.inj heq
    obtain ⟨s₁, hs₁, h₁⟩ := h.step hfits.1 hy
    obtain ⟨s', hs', h'⟩ := ih h₁ (hfits.2 _ hs₁) hrest
    refine ⟨s', ?_, h'⟩
    rw [HashTable.runCommands, hs₁, Option.bind_some, hs', Option.map_some]

end Steps

/-- A program sees maps: it returns what it would with maps, and every table that it has in
the end behaves as the map. -/
def SeesMaps (P : HashSettings K) (cs : List (Command K V)) : Prop :=
  ∀ results ms, HashTable.runCommands maps cs (fun _ => none) = some (results, ms) →
    ∃ s, HashTable.runCommands (tables P) cs (fun _ => none) = some (results, s) ∧
      ∀ r, Option.Rel (BehavesAs P) (s r) (ms r)

end Tables

/-- Numbers as keys, each its own hash. -/
def numberSettings : HashSettings ℕ := ⟨id, fun growAt new old => growAt * new / old⟩

/-- A table is made, gets a key, and is copied; the copy loses the key, and the two are
swapped. -/
def swapWithCopy : List (Command ℕ ℕ) :=
  [.create 0 8 7, .apply 0 (.insert 5 50), .copy 0 1 1, .apply 1 (.erase 5), .swap 0 1,
    .apply 1 (.find 5)]

/-- An empty table is made and copied, and the memory of the counter holds one. -/
def copyOfEmpty : List (Command ℕ ℕ) := [.create 0 8 7, .copy 0 1 1]

end HashTable

end Carmel
