/-
# The yields of a path

`path_yield_into` collects the symbols of a path and leaves the epsilons out; `print_yield`
writes their names, and asks `is_special` which to leave out. That test holds of the normal
symbols, so what is written is the special symbols only.
-/

import Carmel.Compose.Loops

namespace Carmel

universe u

variable {W : Type u}

def startNormalIndex : ℕ := 2

namespace WFST

def alphabet (x : WFST W) : LabelType → Alphabet
  | .kInput => x.inAlph
  | .kOutput => x.outAlph

/-- `letter`. The index is asserted to be in use. -/
def letter (x : WFST W) (i : ℕ) (dir : LabelType) : String := ((x.alphabet dir).name? i).getD ""

end WFST

/-- An arc of a path, with the transducer that knows its names. -/
structure PathArc (W : Type u) where
  inp : ℕ
  out : ℕ
  destState : ℕ
  wfst : WFST W
  weight : W

def PathArc.symbol (p : PathArc W) : LabelType → ℕ
  | .kInput => p.inp
  | .kOutput => p.out

def WFST.setPathArc (x : WFST W) (a : FSTArc W) : PathArc W := ⟨a.inp, a.out, a.dest, x, a.weight⟩

@[simp] theorem symbol_setPathArc (x : WFST W) (a : FSTArc W) (dir : LabelType) :
    (x.setPathArc a).symbol dir = a.symbol dir := by
  cases dir <;> rfl

/-- `path_yield_into`, on an empty string. -/
def pathYield (path : List (FSTArc W)) (dir : LabelType) (skipEpsilon : Bool) : List ℕ :=
  path.filterMap fun a =>
    if skipEpsilon = true ∧ a.symbol dir = epsilonIndex then none else some (a.symbol dir)

/-- `is_special`, as the source has it. -/
def isSpecial (letter : ℕ) : Bool := startNormalIndex ≤ letter

/-- What is written to a stream: names, and the spaces before them. -/
inductive Piece
  | space
  | word (name : String)
deriving DecidableEq, Repr

/-- `word_spacer`: nothing the first time. -/
def spacer (first : Bool) : List Piece := if first then [] else [.space]

def printYieldLoop (dir : LabelType) (showSpecial : Bool) : Bool → List (PathArc W) → List Piece
  | _, [] => []
  | first, p :: path =>
    let id := p.symbol dir
    if showSpecial = true ∨ isSpecial id = false then
      spacer first ++ .word (p.wfst.letter id dir) :: printYieldLoop dir showSpecial false path
    else printYieldLoop dir showSpecial first path

/-- `print_yield`. -/
def printYield (path : List (PathArc W)) (dir : LabelType) (showSpecial : Bool) : List Piece :=
  if path.isEmpty then [] else printYieldLoop dir showSpecial true path

/-- Names with spaces between them. -/
def spaced : Bool → List String → List Piece
  | _, [] => []
  | first, name :: names => spacer first ++ .word name :: spaced false names

/-- The names in what was written. -/
def Piece.name? : Piece → Option String
  | .space => none
  | .word name => some name

variable {x : WFST W} {path : List (FSTArc W)} {dir : LabelType}

@[simp] theorem name?_space : Piece.space.name? = none := rfl

@[simp] theorem name?_word (name : String) : (Piece.word name).name? = some name := rfl

theorem names_spaced (first : Bool) (names : List String) :
    (spaced first names).filterMap Piece.name? = names := by
  induction names generalizing first with
  | nil => rfl
  | cons name names ih => cases first <;> simp [spaced, spacer, List.filterMap_cons, ih]

theorem spaced_injective (first : Bool) : Function.Injective (spaced first) := by
  intro names names' h
  rw [← names_spaced first names, h, names_spaced]

/-- The symbols that `print_yield` writes. -/
def Shown (showSpecial : Bool) (i : ℕ) : Bool := showSpecial || !isSpecial i

theorem printYieldLoop_setPathArc (showSpecial first : Bool) :
    printYieldLoop dir showSpecial first (path.map x.setPathArc) =
      spaced first (((path.map (·.symbol dir)).filter (Shown showSpecial)).map (x.letter · dir)) := by
  induction path generalizing first with
  | nil => rfl
  | cons a path ih =>
    have hshown : (showSpecial = true ∨ isSpecial (a.symbol dir) = false) ↔
        Shown showSpecial (a.symbol dir) = true := by
      simp [Shown]
    simp only [List.map_cons, printYieldLoop, symbol_setPathArc, hshown]
    split
    · rename_i h
      rw [List.filter_cons_of_pos h, ih]
      rfl
    · rename_i h
      rw [List.filter_cons_of_neg h, ih]

/-- **What is written**: the names of the shown symbols, in order. -/
theorem printYield_setPathArc (showSpecial : Bool) :
    printYield (path.map x.setPathArc) dir showSpecial =
      spaced true (((path.map (·.symbol dir)).filter (Shown showSpecial)).map (x.letter · dir)) := by
  rw [printYield, ← printYieldLoop_setPathArc]
  cases path <;> rfl

theorem pathYield_skipEpsilon : pathYield path dir true = nonEpsilon (path.map (·.symbol dir)) := by
  induction path with
  | nil => rfl
  | cons a path ih =>
    simp only [pathYield, true_and] at ih ⊢
    by_cases h : a.symbol dir = epsilonIndex
    · simp [h, ih]
    · simp [h, ih, nonEpsilon_cons_of_ne h]

/-- The symbols that stand for themselves. -/
def normalSymbols (symbols : List ℕ) : List ℕ := symbols.filter (startNormalIndex ≤ ·)

/-- Printing without the special symbols writes what is collected, which is the normal symbols, and
printing with them writes all. -/
structure YieldsAgree (x : WFST W) (path : List (FSTArc W)) (dir : LabelType) : Prop where
  printed : printYield (path.map x.setPathArc) dir false =
    spaced true ((pathYield path dir true).map (x.letter · dir))
  collected : pathYield path dir true = normalSymbols (path.map (·.symbol dir))
  all : printYield (path.map x.setPathArc) dir true =
    spaced true ((path.map (·.symbol dir)).map (x.letter · dir))

theorem letter_epsilon (x : WFST W) (dir : LabelType) : x.letter epsilonIndex dir = "*e*" := by
  rw [WFST.letter, Alphabet.name?, epsilonIndex, (x.alphabet dir).epsilon]
  rfl

theorem letter_eq_epsilon_iff {i : ℕ} : x.letter i dir = "*e*" ↔ i = epsilonIndex := by
  constructor
  · intro h
    rw [WFST.letter] at h
    cases hname : (x.alphabet dir).name? i with
    | none =>
      rw [hname] at h
      exact absurd h (by decide)
    | some name =>
      rw [hname, Option.getD_some] at h
      rw [h, ← Alphabet.find_eq_some_iff] at hname
      have hzero := ((x.alphabet dir).find_eq_some_iff "*e*" 0).mpr (x.alphabet dir).epsilon
      exact Option.some.inj (hname.symm.trans hzero)
  · rintro rfl
    exact letter_epsilon x dir

/-- **Printing and collecting agree on the empty path only.** -/
theorem yieldsAgree_iff (x : WFST W) (path : List (FSTArc W)) (dir : LabelType) :
    YieldsAgree x path dir ↔ path = [] := by
  constructor
  · rintro ⟨hprinted, hcollected, -⟩
    rw [printYield_setPathArc] at hprinted
    have hnames := spaced_injective true hprinted
    rw [hcollected] at hnames
    rw [pathYield_skipEpsilon] at hcollected
    -- every symbol is epsilon or normal
    have hkinds : ∀ i ∈ path.map (·.symbol dir), i = epsilonIndex ∨ startNormalIndex ≤ i := by
      intro i hi
      by_cases h : i = epsilonIndex
      · exact .inl h
      · have hmem : i ∈ nonEpsilon (path.map (·.symbol dir)) :=
          List.mem_filter.mpr ⟨hi, by simpa using h⟩
        rw [hcollected] at hmem
        exact .inr (by simpa using (List.mem_filter.mp hmem).2)
    -- an epsilon is written, but its name is not among those collected
    have hnormal : ∀ i ∈ path.map (·.symbol dir), startNormalIndex ≤ i := by
      intro i hi
      rcases hkinds i hi with rfl | h
      · have hwritten : x.letter epsilonIndex dir ∈
            ((path.map (·.symbol dir)).filter (Shown false)).map (x.letter · dir) :=
          List.mem_map_of_mem (List.mem_filter.mpr ⟨hi, by decide⟩)
        rw [hnames] at hwritten
        obtain ⟨j, hj, hname⟩ := List.mem_map.mp hwritten
        rw [letter_epsilon, letter_eq_epsilon_iff] at hname
        rw [hname] at hj
        exact absurd (List.mem_filter.mp hj).2 (by decide)
      · exact h
    have hwritten : (path.map (·.symbol dir)).filter (Shown false) = [] := by
      apply List.filter_eq_nil_iff.mpr
      intro i hi
      simpa [Shown, isSpecial] using hnormal i hi
    have hall : normalSymbols (path.map (·.symbol dir)) = path.map (·.symbol dir) :=
      List.filter_eq_self.mpr fun i hi => by simpa using hnormal i hi
    rw [hwritten, hall] at hnames
    exact List.map_eq_nil_iff.mp (List.map_eq_nil_iff.mp hnames.symm)
  · rintro rfl
    exact ⟨rfl, rfl, rfl⟩

/-- A transducer that reads and writes an `a`. -/
def oneLetter : WFST ℕ where
  states := [⟨[⟨2, 2, 1, 1, FSTArc.noGroup⟩], 1⟩, State.empty]
  final := some 1
  inAlph := ⟨["*e*", "*w*", "a"], Alphabet.nodup_letter, Alphabet.letter_first⟩
  outAlph := ⟨["*e*", "*w*", "a"], Alphabet.nodup_letter, Alphabet.letter_first⟩

/-- Its path has the yield `a`, but nothing is written. -/
theorem not_yieldsAgree_oneLetter :
    ¬ ∀ (x : WFST ℕ) (path : List (FSTArc ℕ)) (dir : LabelType), YieldsAgree x path dir := by
  intro h
  have hprinted := (h oneLetter [⟨2, 2, 1, 1, FSTArc.noGroup⟩] .kInput).printed
  exact absurd hprinted (by decide)

end Carmel
