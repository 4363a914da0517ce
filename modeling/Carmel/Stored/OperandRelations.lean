/-
# What the operands of a composition relate

A transducer relates what its paths read to what they write, by the names of the alphabets
it points to. When borrowed alphabets have been swapped, each operand reads the other
table's names, so it relates the same as before only if that renaming maps its relation to
itself.
-/

import Carmel.Stored.Tables
import Carmel.Stored.Wfst

namespace Carmel

open Carmel.Math

universe u

variable {W : Type u}

/-- What the paths read and write, and what they weigh. -/
def WFST.relation [CommMonoid W] (x : WFST W) : Set (List (Option String) × List (Option String) × W) :=
  {label | ∃ path, x.IsPath path ∧ label = (x.inputNames path, x.outputNames path, pathWeight path)}

/-- The name that `o` has where this table has the one given. -/
def Alphabet.rename (alph o : Alphabet) (name : Option String) : Option String :=
  (name.bind alph.find).bind o.name?

theorem Alphabet.rename_name? (alph o : Alphabet) {i : ℕ} (hi : i < alph.size) :
    alph.rename o (alph.name? i) = o.name? i := by
  have hname : alph.name? i = some (alph.names.get ⟨i, hi⟩) := List.getElem?_eq_getElem hi
  rw [rename, hname, Option.bind_some, (alph.find_eq_some_iff _ _).mpr hname, Option.bind_some]

/-- Other names for the symbols that are read, and for those that are written. -/
def renameLabel (read write : Option String → Option String)
    (label : List (Option String) × List (Option String) × W) :
    List (Option String) × List (Option String) × W :=
  (label.1.map read, label.2.1.map write, label.2.2)

theorem WFST.Valid.inp_lt_of_mem_pathInput {x : WFST W} (hx : x.Valid) {path : List (HalfArc W)}
    {s t : ℕ} (walk : Walk x.Adj s path t) {i : ℕ} (hi : i ∈ pathInput path) :
    i < x.inAlph.size := by
  obtain ⟨h, hh, rfl⟩ := List.mem_map.mp (List.mem_of_mem_filter hi)
  obtain ⟨_, _, step⟩ := walk.exists_step hh
  obtain ⟨state, hstate, harc⟩ := WFST.mem_state_arcs_of_mem_outArcs step.1
  exact hx.inp_lt state hstate h.arc harc

/-- With other alphabets a transducer relates what it related, by other names. -/
theorem WFST.relation_of_alphabets [CommMonoid W] {x : WFST W} (hx : x.Valid ∨ x.final = none)
    (inAlph outAlph : Alphabet) :
    WFST.relation { x with inAlph := inAlph, outAlph := outAlph } =
      Set.image (renameLabel (x.inAlph.rename inAlph) (x.outAlph.rename outAlph)) x.relation := by
  have hlabel : ∀ path, x.IsPath path →
      ((pathInput path).map inAlph.name?, (pathOutput path).map outAlph.name?, pathWeight path) =
        renameLabel (x.inAlph.rename inAlph) (x.outAlph.rename outAlph)
          (x.inputNames path, x.outputNames path, pathWeight path) := by
    rintro path ⟨f, walk, hfinal⟩
    have hvalid : x.Valid := hx.resolve_right fun hnone => by simp [hnone] at hfinal
    have hinp : (x.inputNames path).map (x.inAlph.rename inAlph) = (pathInput path).map inAlph.name? := by
      rw [inputNames, List.map_map]
      exact List.map_congr_left fun i hi =>
        Alphabet.rename_name? _ _ (hvalid.inp_lt_of_mem_pathInput walk hi)
    have hout : (x.outputNames path).map (x.outAlph.rename outAlph) =
        (pathOutput path).map outAlph.name? := by
      rw [outputNames, List.map_map]
      exact List.map_congr_left fun i hi =>
        Alphabet.rename_name? _ _ (hvalid.out_lt_of_mem_pathOutput walk hi)
    rw [renameLabel, hinp, hout]
  ext label
  constructor
  · rintro ⟨path, hpath, rfl⟩
    exact ⟨_, ⟨path, hpath, rfl⟩, (hlabel path hpath).symm⟩
  · rintro ⟨_, ⟨path, hpath, rfl⟩, rfl⟩
    exact ⟨path, hpath, (hlabel path hpath).symm⟩

namespace HeldWFST

variable {x y : HeldWFST W} {tables tables' : Tables} {x₀ : WFST W} {p q : ℕ}

theorem read_eq_some_iff : x.read tables = some x₀ ↔ ∃ inAlph outAlph,
    x.alphabet tables .kInput = some inAlph ∧ x.alphabet tables .kOutput = some outAlph ∧
      (⟨x.states, x.final, inAlph, outAlph⟩ : WFST W) = x₀ := by
  rw [read, Option.map₂_eq_some_iff]
  rfl

theorem alphabet_keeps {dir : LabelType} {alph : Alphabet} (hkeeps : Tables.Keeps tables tables')
    (h : x.alphabet tables dir = some alph) : x.alphabet tables' dir = some alph := by
  obtain ⟨r, hr, halph⟩ := Option.bind_eq_some_iff.mp h
  rw [alphabet, hr, Option.bind_some, hkeeps r (by simp [halph]), halph]

theorem read_keeps (hkeeps : Tables.Keeps tables tables') (h : x.read tables = some x₀) :
    x.read tables' = some x₀ := by
  obtain ⟨inAlph, outAlph, hin, hout, heq⟩ := read_eq_some_iff.mp h
  exact read_eq_some_iff.mpr ⟨inAlph, outAlph, alphabet_keeps hkeeps hin, alphabet_keeps hkeeps hout, heq⟩

/-- The names that the transducer reads when the tables at `p` and `q` have been swapped, for
those it read before. -/
def renamed (x : HeldWFST W) (tables : Tables) (p q : ℕ) (dir : LabelType) :
    Option String → Option String :=
  match x.alphabet tables dir, x.alphabet (tables.swap p q) dir with
  | some alph, some o => alph.rename o
  | _, _ => id

/-- The renaming maps what the transducer relates to itself. -/
def RenamedToItself [CommMonoid W] (x : HeldWFST W) (tables : Tables) (p q : ℕ) (x₀ : WFST W) : Prop :=
  Set.image (renameLabel (x.renamed tables p q .kInput) (x.renamed tables p q .kOutput)) x₀.relation =
    x₀.relation

theorem alphabet_swap (hp : tables p ≠ none) (hq : tables q ≠ none) {dir : LabelType}
    {alph : Alphabet} (h : x.alphabet tables dir = some alph) :
    ∃ o, x.alphabet (tables.swap p q) dir = some o ∧ x.renamed tables p q dir = alph.rename o := by
  obtain ⟨r, hr, halph⟩ := Option.bind_eq_some_iff.mp h
  obtain ⟨o, ho⟩ := Option.ne_none_iff_exists'.mp
    (Tables.swap_ne_none hp hq (r := r) (by simp [halph]))
  have hswapped : x.alphabet (tables.swap p q) dir = some o := by
    rw [alphabet, hr, Option.bind_some, ho]
  refine ⟨o, hswapped, ?_⟩
  rw [renamed, h, hswapped]

/-- What a transducer relates when the tables at `p` and `q` have been swapped. -/
theorem relation_swap [CommMonoid W] (hp : tables p ≠ none) (hq : tables q ≠ none)
    (hread : x.read tables = some x₀) (hvalid : x₀.Valid ∨ x₀.final = none) :
    ∃ x₁, x.read (tables.swap p q) = some x₁ ∧ x₁.relation =
      Set.image (renameLabel (x.renamed tables p q .kInput) (x.renamed tables p q .kOutput))
        x₀.relation := by
  obtain ⟨inAlph, outAlph, hin, hout, rfl⟩ := read_eq_some_iff.mp hread
  obtain ⟨inAlph', hin', hrenameIn⟩ := alphabet_swap hp hq hin
  obtain ⟨outAlph', hout', hrenameOut⟩ := alphabet_swap hp hq hout
  refine ⟨_, read_eq_some_iff.mpr ⟨inAlph', outAlph', hin', hout', rfl⟩, ?_⟩
  rw [hrenameIn, hrenameOut]
  exact WFST.relation_of_alphabets hvalid inAlph' outAlph'

theorem relation_unchanged_iff [CommMonoid W] (hp : tables p ≠ none) (hq : tables q ≠ none)
    (hread : x.read tables = some x₀) (hvalid : x₀.Valid ∨ x₀.final = none) {even : Prop}
    [Decidable even] (hkeeps : Tables.Keeps (if even then tables else tables.swap p q) tables') :
    (x.read tables').map WFST.relation = some x₀.relation ↔ even ∨ x.RenamedToItself tables p q x₀ := by
  by_cases heven : even
  · rw [if_pos heven] at hkeeps
    rw [read_keeps hkeeps hread]
    exact iff_of_true rfl (.inl heven)
  · rw [if_neg heven] at hkeeps
    obtain ⟨x₁, hread₁, hrelation⟩ := relation_swap hp hq hread hvalid
    rw [read_keeps hkeeps hread₁, Option.map_some, Option.some.injEq, hrelation, or_iff_right heven]
    rfl

section Composition

end Composition

variable [CommMonoid W] [DecidableEq W]

/-- **An operation on a composition leaves the relations of the operands alone exactly when**
there is no composition, or the borrowed tables have been swapped an even number of times, or
the renaming that the swap makes maps both relations to themselves. -/
theorem operand_relations_iff (o : Operands W) (cascade : CascadeParameters) (pg : Bool)
    (ops : List (HeldOp W)) {a b c : HeldWFST W} (ha : a.read tables = some o.a)
    (hb : b.read tables = some o.b) (hp : a.alph .kInput = some p) (hq : b.alph .kOutput = some q)
    (hva : o.a.Valid ∨ o.a.final = none) (hvb : o.b.Valid ∨ o.b.final = none)
    (hrun : HeldOp.run ops (tables, composed a b (setCompose o cascade pg).1) = some (tables', c)) :
    ((a.read tables').map WFST.relation = some o.a.relation ∧
        (b.read tables').map WFST.relation = some o.b.relation) ↔
      (setCompose o cascade pg).1.final = none ∨ Even (HeldOp.exchanges ops) ∨
        (a.RenamedToItself tables p q o.a ∧ b.RenamedToItself tables p q o.b) := by
  have hpt : tables p ≠ none := by
    obtain ⟨inAlph, -, hin, -⟩ := read_eq_some_iff.mp ha
    rw [alphabet, hp, Option.bind_some] at hin
    simp [hin]
  have hqt : tables q ≠ none := by
    obtain ⟨-, outAlph, -, hout, -⟩ := read_eq_some_iff.mp hb
    rw [alphabet, hq, Option.bind_some] at hout
    simp [hout]
  by_cases hnone : (setCompose o cascade pg).1.final = none
  · have halph (dir : LabelType) : (composed a b (setCompose o cascade pg).1).alph dir = none :=
      if_pos hnone
    have hapart : Apart tables (composed a b (setCompose o cascade pg).1) :=
      ⟨fun dir r howner => (by cases howner), .inl ((halph _).trans (halph _).symm)⟩
    have hkeeps := hapart.run (fun _ _ => rfl) hrun
    rw [read_keeps hkeeps ha, read_keeps hkeeps hb]
    exact iff_of_true ⟨rfl, rfl⟩ (.inl hnone)
  · have hborrowing : Borrowing p q (composed a b (setCompose o cascade pg).1) :=
      ⟨(if_neg hnone).trans hp, (if_neg hnone).trans hq, fun _ => rfl⟩
    have hkeeps := hborrowing.run hpt hqt hrun
    rw [relation_unchanged_iff hpt hqt ha hva hkeeps, relation_unchanged_iff hpt hqt hb hvb hkeeps,
      or_iff_right hnone, or_and_left]

/-- An alphabet with another symbol of its own. -/
def otherAlphabet : Alphabet := ⟨["*e*", "*w*", "y"], by decide, rfl⟩

/-- The operands write the symbol of the other alphabet in the end. -/
def heldOperands : Operands ℕ :=
  { sampleOperands with b := { sampleRight with outAlph := otherAlphabet } }

/-- The left operand, with its own tables. -/
def heldLeft : HeldWFST ℕ :=
  ⟨sampleLeft.states, sampleLeft.final, fun dir => some (if dir = .kInput then 0 else 1), fun _ => true⟩

def heldRight : HeldWFST ℕ :=
  ⟨sampleRight.states, sampleRight.final, fun dir => some (if dir = .kInput then 2 else 3), fun _ => true⟩

def heldTables : Tables := fun r =>
  if r < 3 then some sampleAlphabet else if r = 3 then some otherAlphabet else none

theorem operand_relations_sample : ∃ s, HeldOp.run [.project .kInput false]
        (heldTables, composed heldLeft heldRight (setCompose heldOperands (.make false) false).1) =
      some s ∧
    (heldLeft.read s.1).map WFST.relation = some heldOperands.a.relation ∧
    (heldRight.read s.1).map WFST.relation = some heldOperands.b.relation := by
  have hleft : heldLeft.read heldTables = some heldOperands.a := rfl
  have hright : heldRight.read heldTables = some heldOperands.b := rfl
  have hvalid : heldOperands.b.Valid :=
    ⟨by decide, ⟨1, rfl, by decide⟩, by decide, by decide, by decide⟩
  have hp : heldLeft.alph .kInput = some 0 := rfl
  have hq : heldRight.alph .kOutput = some 3 := rfl
  refine ⟨_, rfl, ?_⟩
  exact (operand_relations_iff heldOperands (.make false) false [.project .kInput false] hleft hright
    hp hq (.inl sampleLeft_valid) (.inl hvalid) rfl).mpr (.inr (.inl (by decide)))

/-- Inverting the composition makes the left operand read `y` instead of `x`. -/
theorem invert_changes_operand : ∃ s, HeldOp.run [.invert]
        (heldTables, composed heldLeft heldRight (setCompose heldOperands (.make false) false).1) =
      some s ∧
    (heldLeft.read s.1).map WFST.relation ≠ some sampleLeft.relation := by
  have hborrowing : Borrowing 0 3
      (composed heldLeft heldRight (setCompose heldOperands (.make false) false).1) :=
    ⟨by decide, by decide, fun _ => rfl⟩
  have hinvert : (composed heldLeft heldRight (setCompose heldOperands (.make false) false).1).invert
      heldTables = some (heldTables.swap 0 3, _) := hborrowing.invert (by decide) (by decide)
  refine ⟨_, congrArg (fun s => s.bind some) hinvert, ?_⟩
  intro hsame
  have hread : heldLeft.read (heldTables.swap 0 3) = some { sampleLeft with inAlph := otherAlphabet } :=
    rfl
  rw [hread] at hsame
  have hlabel : ([some "x"], [some "x"], 2) ∈ sampleLeft.relation := by
    refine ⟨[⟨0, 0, ⟨2, 2, 1, 2, FSTArc.noGroup⟩⟩], ⟨1, ?_, rfl⟩, by decide⟩
    exact .cons ⟨by decide, rfl⟩ (.nil 1)
  rw [← Option.some.inj hsame] at hlabel
  obtain ⟨path, -, heq⟩ := hlabel
  have hname : some "x" ∈ (pathInput path).map otherAlphabet.name? := by
    have hinput : [some "x"] = (pathInput path).map otherAlphabet.name? := congrArg Prod.fst heq
    exact hinput ▸ List.mem_singleton_self _
  obtain ⟨i, -, hi⟩ := List.mem_map.mp hname
  exact absurd (List.mem_of_getElem? hi) (by decide)

end HeldWFST

end Carmel
