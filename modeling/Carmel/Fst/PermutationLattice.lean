/-
# Permutation lattices

The lattice of a string accepts its symbols in every order. The bits of a state say which
places of the string have been used, and places with the same symbol are used from left to
right. A power of two is computed by shifting a signed 1 of 32 bits.
-/

import Carmel.Compose.Loops
import Carmel.Train.SymbolText

namespace Carmel

open Carmel.Math

universe u

section Code

variable {W : Type u} [One W]

/-- `pow2`, where the shift does not overflow. -/
def pow2 (exp : ℕ) : Option ℕ := if exp < 31 then some (2 ^ exp) else none

/-- The symbol at a place. -/
def symbolAt (symbols : List ℕ) (l : ℕ) : ℕ := symbols.getD l 0

/-- The loop over the places, for the state `k`. -/
def addPermutationArc (symbols : List ℕ) (k : ℕ) (acc : State W × (ℕ → Bool)) (l : ℕ) :
    Option (State W × (ℕ → Bool)) :=
  (pow2 l).map fun temp =>
    if k / temp % 2 = 0 ∧ acc.2 (symbolAt symbols l) = false then
      (acc.1.addArc ⟨symbolAt symbols l, symbolAt symbols l, k + temp, 1, FSTArc.noGroup⟩,
        Function.update acc.2 (symbolAt symbols l) true)
    else acc

/-- `states[k]`. -/
def permutationState (symbols : List ℕ) (k : ℕ) : Option (State W) :=
  ((List.range symbols.length).foldlM (addPermutationArc symbols k)
    (State.empty, fun _ => false)).map Prod.fst

/-- The states, and the number of the last. -/
def permutationStates (symbols : List ℕ) : Option (List (State W) × ℕ) :=
  (pow2 symbols.length).bind fun size =>
    ((List.range (size - 1)).mapM (permutationState symbols)).map fun states =>
      (states ++ [State.empty], size - 1)

/-- A new alphabet. -/
def Alphabet.initial : Alphabet := ⟨["*e*", "*w*"], by decide, rfl⟩

/-- What comes of the constructor. -/
inductive LatticeResult (W : Type u)
  | /-- `invalidate`. -/
    invalid
  | /-- A shift overflows. -/
    overflow
  | built (x : WFST W) (length : ℕ)

def startsWithDigit (symbol : List Char) : Bool := symbol.head?.any Char.isDigit

variable (W) in
/-- The constructor of the lattice, with `permuteNumbers`. -/
def permutationLattice (buf : List Char) : LatticeResult W :=
  let words := symbolsOf buf
  if words.any startsWithDigit then .invalid
  else
    let read := Alphabet.initial.indicesOf (words.map String.ofList)
    match permutationStates read.1 with
    | none => .overflow
    | some (states, final) => .built ⟨states, some final, read.2, read.2⟩ words.length

end Code

theorem testBit_add_two_pow_of_free {k l : ℕ} (hfree : k.testBit l = false) (j : ℕ) :
    (k + 2 ^ l).testBit j = (decide (j = l) || k.testBit j) := by
  rcases lt_trichotomy j l with hlt | rfl | hlt
  · rw [Nat.add_comm, Nat.testBit_two_pow_add_gt hlt, decide_eq_false hlt.ne, Bool.false_or]
  · rw [Nat.add_comm, Nat.testBit_two_pow_add_eq, hfree, decide_eq_true rfl]
    rfl
  · -- no carry goes beyond place `l`
    have heven : k / 2 ^ l % 2 = 0 := by
      rw [Nat.testBit_eq_decide_div_mod_eq, decide_eq_false_iff_not] at hfree
      lia
    obtain ⟨d, rfl⟩ := Nat.exists_eq_add_of_lt hlt
    have hhalf : (k + 2 ^ l) / 2 ^ l / 2 = k / 2 ^ l / 2 := by
      rw [Nat.add_div_right _ (Nat.two_pow_pos l)]
      lia
    have hhigh (m : ℕ) : m / 2 ^ (l + d + 1) = m / 2 ^ l / 2 / 2 ^ d := by
      rw [Nat.div_div_eq_div_mul, Nat.div_div_eq_div_mul, Nat.pow_succ, Nat.pow_add, Nat.mul_assoc,
        Nat.mul_comm (2 ^ d)]
    rw [decide_eq_false hlt.ne', Bool.false_or, Nat.testBit_eq_decide_div_mod_eq,
      Nat.testBit_eq_decide_div_mod_eq, hhigh, hhalf, ← hhigh]

section States

variable {W : Type u} [One W] {symbols : List ℕ} {k l n : ℕ}

/-- A place is the first that is left with its symbol. -/
def IsFirst (symbols : List ℕ) (k l : ℕ) : Prop :=
  k.testBit l = false ∧ ∀ j < l, k.testBit j = false → symbolAt symbols j ≠ symbolAt symbols l

instance : Decidable (IsFirst symbols k l) := inferInstanceAs (Decidable (_ ∧ ∀ j < l, _))

/-- The arc that reads from a place. -/
def arcFrom (symbols : List ℕ) (k l : ℕ) : FSTArc W :=
  ⟨symbolAt symbols l, symbolAt symbols l, k + 2 ^ l, 1, FSTArc.noGroup⟩

/-- The places that are read at a state, below a place. -/
def readPlaces (symbols : List ℕ) (k n : ℕ) : List ℕ := (List.range n).filter (IsFirst symbols k ·)

variable (symbols k) in
/-- The loop over the places. -/
theorem foldlM_addPermutationArc (hn : n ≤ 31) :
    ∃ taken : ℕ → Bool, (List.range n).foldlM (addPermutationArc symbols k)
        ((State.empty, fun _ => false) : State W × (ℕ → Bool)) =
          some (⟨((readPlaces symbols k n).map (arcFrom symbols k)).reverse,
            (readPlaces symbols k n).length⟩, taken) ∧
      ∀ s, taken s = true ↔ ∃ l < n, k.testBit l = false ∧ symbolAt symbols l = s := by
  induction n with
  | zero => exact ⟨fun _ => false, rfl, by simp⟩
  | succ n ih =>
    obtain ⟨taken, hloop, htaken⟩ := ih (Nat.le_of_succ_le hn)
    have hfree : k / 2 ^ n % 2 = 0 ↔ k.testBit n = false := by
      rw [Nat.testBit_eq_decide_div_mod_eq, decide_eq_false_iff_not]
      lia
    have hfirst : (k / 2 ^ n % 2 = 0 ∧ taken (symbolAt symbols n) = false) ↔ IsFirst symbols k n := by
      rw [hfree, IsFirst]
      apply and_congr_right
      intro _
      rw [← Bool.not_eq_true, htaken]
      push Not
      rfl
    rw [List.range_succ, List.foldlM_append, hloop]
    simp only [Option.bind_eq_bind, Option.bind_some, List.foldlM_cons, List.foldlM_nil,
      addPermutationArc, pow2, if_pos (Nat.lt_of_succ_le hn), Option.map_some]
    have hplaces : readPlaces symbols k (n + 1) =
        readPlaces symbols k n ++ if IsFirst symbols k n then [n] else [] := by
      rw [readPlaces, List.range_succ, List.filter_append]
      congr 1
      by_cases h : IsFirst symbols k n <;> simp [h]
    by_cases h : IsFirst symbols k n
    · rw [if_pos (hfirst.mpr h), hplaces, if_pos h]
      have harcs : ((readPlaces symbols k n ++ [n]).map (arcFrom (W := W) symbols k)).reverse =
          arcFrom symbols k n :: ((readPlaces symbols k n).map (arcFrom symbols k)).reverse := by
        rw [List.map_append, List.reverse_append]
        rfl
      refine ⟨Function.update taken (symbolAt symbols n) true, ?_, fun s => ?_⟩
      · rw [harcs, List.length_append]
        rfl
      by_cases hs : s = symbolAt symbols n
      · subst hs
        simp only [Function.update_self, true_iff]
        exact ⟨n, Nat.lt_succ_self n, h.1, rfl⟩
      · rw [Function.update_of_ne hs, htaken]
        simp only [Nat.lt_succ_iff_lt_or_eq]
        constructor
        · rintro ⟨l, hl, hl'⟩
          exact ⟨l, .inl hl, hl'⟩
        · rintro ⟨l, hl | rfl, hl'⟩
          · exact ⟨l, hl, hl'⟩
          · exact absurd hl'.2.symm hs
    · rw [if_neg (fun hn => h (hfirst.mp hn)), hplaces, if_neg h, List.append_nil]
      refine ⟨taken, rfl, fun s => ?_⟩
      rw [htaken]
      simp only [Nat.lt_succ_iff_lt_or_eq]
      constructor
      · rintro ⟨l, hl, hl'⟩
        exact ⟨l, .inl hl, hl'⟩
      · rintro ⟨l, hl | rfl, hl'⟩
        · exact ⟨l, hl, hl'⟩
        · -- the symbol was taken from an earlier place
          have hseen : taken (symbolAt symbols l) = true := by
            by_contra hno
            exact h (hfirst.mp ⟨hfree.mpr hl'.1, by simpa using hno⟩)
          rw [← hl'.2]
          exact (htaken _).mp hseen

theorem permutationState_eq (hlength : symbols.length ≤ 31) (k : ℕ) :
    (permutationState symbols k : Option (State W)) =
      some ⟨((readPlaces symbols k symbols.length).map (arcFrom symbols k)).reverse,
        (readPlaces symbols k symbols.length).length⟩ := by
  obtain ⟨taken, hloop, -⟩ := foldlM_addPermutationArc (W := W) symbols k hlength
  rw [permutationState, hloop]
  rfl

end States

section Walks

variable {W : Type u} [One W] {symbols : List ℕ} {k l : ℕ} {x : WFST W} {h h' : HalfArc W}

/-- The places that are left. -/
def freePlaces (n k : ℕ) : List ℕ := (List.range n).filter fun l => !k.testBit l

/-- The symbols that are left. -/
def symbolsLeft (symbols : List ℕ) (k : ℕ) : List ℕ :=
  (freePlaces symbols.length k).map (symbolAt symbols)

theorem mem_freePlaces {n : ℕ} : l ∈ freePlaces n k ↔ l < n ∧ k.testBit l = false := by
  simp [freePlaces]

theorem mem_readPlaces {n : ℕ} : l ∈ readPlaces symbols k n ↔ l < n ∧ IsFirst symbols k l := by
  simp [readPlaces]

theorem symbolsLeft_zero (symbols : List ℕ) : symbolsLeft symbols 0 = symbols := by
  have hall : freePlaces symbols.length 0 = List.range symbols.length :=
    List.filter_eq_self.mpr fun l _ => by simp
  rw [symbolsLeft, hall]
  apply List.ext_getElem
  · simp
  · intro i _ hi
    simp [symbolAt, hi]

theorem symbolsLeft_perm (hlt : l < symbols.length) (hfree : k.testBit l = false) :
    (symbolsLeft symbols k).Perm (symbolAt symbols l :: symbolsLeft symbols (k + 2 ^ l)) := by
  have hmem : l ∈ freePlaces symbols.length k := mem_freePlaces.mpr ⟨hlt, hfree⟩
  have hnodup : (freePlaces symbols.length k).Nodup := List.nodup_range.filter _
  have herase : (freePlaces symbols.length k).erase l = freePlaces symbols.length (k + 2 ^ l) := by
    rw [hnodup.erase_eq_filter, freePlaces, freePlaces, List.filter_filter]
    apply List.filter_congr
    intro j _
    rw [testBit_add_two_pow_of_free hfree]
    by_cases hj : j = l <;> simp [hj]
  rw [symbolsLeft, symbolsLeft, ← herase, ← List.map_cons]
  exact (List.perm_cons_erase hmem).map _

theorem add_two_pow_le {n : ℕ} (hk : k < 2 ^ n) (hlt : l < n) (hfree : k.testBit l = false) :
    k + 2 ^ l < 2 ^ n := by
  apply Nat.lt_pow_two_of_testBit
  intro j hj
  rw [testBit_add_two_pow_of_free hfree, Nat.testBit_lt_two_pow (hk.trans_le (Nat.pow_le_pow_right
    Nat.two_pos hj)), Bool.or_false]
  exact decide_eq_false (hlt.trans_le hj).ne'

/-- No symbols are left at the last state only. -/
theorem symbolsLeft_eq_nil_iff (hk : k < 2 ^ symbols.length) :
    symbolsLeft symbols k = [] ↔ k = 2 ^ symbols.length - 1 := by
  rw [symbolsLeft, List.map_eq_nil_iff, List.eq_nil_iff_forall_not_mem]
  simp only [mem_freePlaces, not_and, Bool.not_eq_false]
  constructor
  · intro hall
    apply Nat.eq_of_testBit_eq
    intro j
    rw [Nat.testBit_two_pow_sub_one]
    by_cases hj : j < symbols.length
    · rw [hall j hj, decide_eq_true hj]
    · have hle := Nat.pow_le_pow_right Nat.two_pos (Nat.le_of_not_lt hj)
      rw [Nat.testBit_lt_two_pow (hk.trans_le hle), decide_eq_false hj]
  · rintro rfl l hl
    rw [Nat.testBit_two_pow_sub_one, decide_eq_true hl]

theorem exists_isFirst {a : ℕ} (ha : a ∈ symbolsLeft symbols k) :
    ∃ l < symbols.length, IsFirst symbols k l ∧ symbolAt symbols l = a := by
  obtain ⟨l₀, hl₀, rfl⟩ := List.mem_map.mp ha
  have hex : ∃ l, k.testBit l = false ∧ symbolAt symbols l = symbolAt symbols l₀ :=
    ⟨l₀, (mem_freePlaces.mp hl₀).2, rfl⟩
  obtain ⟨hfree, hsame⟩ := Nat.find_spec hex
  refine ⟨Nat.find hex, ?_, ⟨hfree, ?_⟩, hsame⟩
  · exact (Nat.find_min' hex ⟨(mem_freePlaces.mp hl₀).2, rfl⟩).trans_lt (mem_freePlaces.mp hl₀).1
  · intro j hj hjfree heq
    exact Nat.find_min hex hj ⟨hjfree, heq.trans hsame⟩

theorem IsFirst.unique {l' : ℕ} (hl : IsFirst symbols k l) (hl' : IsFirst symbols k l')
    (hsame : symbolAt symbols l = symbolAt symbols l') : l = l' := by
  rcases lt_trichotomy l l' with hlt | heq | hlt
  · exact absurd hsame (hl'.2 l hlt hl.1)
  · exact heq
  · exact absurd hsame.symm (hl.2 l' hlt hl'.1)

/-- A transducer with the states of the lattice. -/
structure IsLattice (symbols : List ℕ) (x : WFST W) : Prop where
  length : symbols.length ≤ 30
  final : x.final = some (2 ^ symbols.length - 1)
  states : ∀ k < 2 ^ symbols.length - 1, (x.state k).arcs =
    ((readPlaces symbols k symbols.length).map (arcFrom symbols k)).reverse
  last : ∀ k ≥ 2 ^ symbols.length - 1, (x.state k).arcs = []

theorem IsLattice.arc (hx : IsLattice symbols x) (hh : h ∈ x.outArcs k) :
    ∃ l < symbols.length, IsFirst symbols k l ∧ h.arc = arcFrom symbols k l := by
  have hmem : h.arc ∈ (x.state k).arcs := List.mem_of_getElem? (WFST.mem_outArcs.mp hh).2
  by_cases hk : k < 2 ^ symbols.length - 1
  · rw [hx.states k hk, List.mem_reverse] at hmem
    obtain ⟨l, hl, harc⟩ := List.mem_map.mp hmem
    obtain ⟨hlt, hfirst⟩ := mem_readPlaces.mp hl
    exact ⟨l, hlt, hfirst, harc.symm⟩
  · rw [hx.last k (Nat.le_of_not_lt hk)] at hmem
    cases hmem

theorem IsLattice.exists_arc (hx : IsLattice symbols x) (hk : k < 2 ^ symbols.length)
    (hlt : l < symbols.length) (hl : IsFirst symbols k l) :
    ∃ h ∈ x.outArcs k, h.arc = arcFrom symbols k l := by
  have hlast : k < 2 ^ symbols.length - 1 := by
    have hne : symbolsLeft symbols k ≠ [] :=
      List.ne_nil_of_mem (List.mem_map_of_mem (mem_freePlaces.mpr ⟨hlt, hl.1⟩))
    rw [ne_eq, symbolsLeft_eq_nil_iff hk] at hne
    lia
  have hmem : arcFrom symbols k l ∈ (x.state k).arcs := by
    rw [hx.states k hlast, List.mem_reverse]
    exact List.mem_map_of_mem (mem_readPlaces.mpr ⟨hlt, hl⟩)
  obtain ⟨i, hi⟩ := List.mem_iff_getElem?.mp hmem
  exact ⟨⟨k, i, arcFrom symbols k l⟩, WFST.mem_outArcs.mpr ⟨rfl, hi⟩, rfl⟩

theorem IsLattice.arcs_nodup (hx : IsLattice symbols x) (k : ℕ) : (x.state k).arcs.Nodup := by
  by_cases hk : k < 2 ^ symbols.length - 1
  · rw [hx.states k hk, List.nodup_reverse]
    apply (List.nodup_range.filter _).map_on
    intro l hl l' hl' heq
    exact (mem_readPlaces.mp hl).2.unique (mem_readPlaces.mp hl').2 (congrArg FSTArc.inp heq)
  · rw [hx.last k (Nat.le_of_not_lt hk)]
    exact List.nodup_nil

/-- **A state reads each symbol with one arc at most.** -/
theorem IsLattice.det (hx : IsLattice symbols x) (hh : h ∈ x.outArcs k) (hh' : h' ∈ x.outArcs k)
    (hsame : h.arc.inp = h'.arc.inp) : h = h' := by
  obtain ⟨l, -, hl, harc⟩ := hx.arc hh
  obtain ⟨l', -, hl', harc'⟩ := hx.arc hh'
  rw [harc, harc'] at hsame
  obtain rfl := hl.unique hl' hsame
  apply WFST.outArcs_eq_of_pos hh hh'
  have hget := (WFST.mem_outArcs.mp hh).2
  have hget' := (WFST.mem_outArcs.mp hh').2
  rw [harc] at hget
  rw [harc'] at hget'
  obtain ⟨hi, hget⟩ := List.getElem?_eq_some_iff.mp hget
  obtain ⟨hi', hget'⟩ := List.getElem?_eq_some_iff.mp hget'
  exact (hx.arcs_nodup k).getElem_inj_iff.mp (hget.trans hget'.symm)

/-- **What is read to the end** are the symbols that are left, in any order. -/
theorem IsLattice.perm_iff (hx : IsLattice symbols x) (hk : k < 2 ^ symbols.length) (w : List ℕ) :
    w.Perm (symbolsLeft symbols k) ↔
      ∃ p, Walk x.Adj k p (2 ^ symbols.length - 1) ∧ p.map (·.arc.inp) = w := by
  induction w generalizing k with
  | nil =>
    rw [List.nil_perm, symbolsLeft_eq_nil_iff hk]
    constructor
    · rintro rfl
      exact ⟨[], .nil _, rfl⟩
    · rintro ⟨p, hwalk, hp⟩
      obtain rfl := List.map_eq_nil_iff.mp hp
      exact Walk.nil_iff.mp hwalk
  | cons a w ih =>
    constructor
    · intro hperm
      obtain ⟨l, hlt, hl, rfl⟩ := exists_isFirst (hperm.mem_iff.mp List.mem_cons_self)
      obtain ⟨h, hh, harc⟩ := hx.exists_arc hk hlt hl
      have hrest := (hperm.trans (symbolsLeft_perm hlt hl.1)).cons_inv
      obtain ⟨p, hwalk, hp⟩ := (ih (add_two_pow_le hk hlt hl.1)).mp hrest
      refine ⟨h :: p, .cons ⟨hh, rfl⟩ ?_, ?_⟩
      · rwa [harc]
      · rw [List.map_cons, hp, harc]
        rfl
    · rintro ⟨p, hwalk, hp⟩
      obtain ⟨h, p, rfl, rfl, rfl⟩ := List.map_eq_cons_iff.mp hp
      obtain ⟨m, ⟨hh, rfl⟩, hwalk⟩ := Walk.cons_iff.mp hwalk
      obtain ⟨l, hlt, hl, harc⟩ := hx.arc hh
      rw [harc] at hwalk ⊢
      have hrest := (ih (add_two_pow_le hk hlt hl.1)).mpr ⟨p, hwalk, rfl⟩
      exact (hrest.cons _).trans (symbolsLeft_perm hlt hl.1).symm

theorem IsLattice.path_unique (hx : IsLattice symbols x) {f : ℕ} {p p' : List (HalfArc W)}
    (hwalk : Walk x.Adj k p f) (hwalk' : Walk x.Adj k p' f)
    (hsame : p.map (·.arc.inp) = p'.map (·.arc.inp)) : p = p' := by
  induction p generalizing k p' with
  | nil => exact (List.map_eq_nil_iff.mp hsame.symm).symm
  | cons h p ih =>
    obtain ⟨h', p', rfl, hh, hp⟩ := List.map_eq_cons_iff.mp hsame.symm
    obtain ⟨m, ⟨hmem, rfl⟩, hrest⟩ := Walk.cons_iff.mp hwalk
    obtain ⟨m', ⟨hmem', rfl⟩, hrest'⟩ := Walk.cons_iff.mp hwalk'
    obtain rfl := hx.det hmem hmem' hh.symm
    rw [ih hrest hrest' hp.symm]

end Walks

section Built

variable {W : Type u} [One W]

theorem permutationStates_eq {symbols : List ℕ} (hlength : symbols.length ≤ 30) :
    ∃ states : List (State W), permutationStates symbols = some (states, 2 ^ symbols.length - 1) ∧
      ∀ (inAlph outAlph : Alphabet),
        IsLattice symbols (⟨states, some (2 ^ symbols.length - 1), inAlph, outAlph⟩ : WFST W) := by
  have hpow : pow2 symbols.length = some (2 ^ symbols.length) := if_pos (Nat.lt_succ_of_le hlength)
  have hstates (ks : List ℕ) : ks.mapM (permutationState symbols : ℕ → Option (State W)) =
      some (ks.map fun k => ⟨((readPlaces symbols k symbols.length).map (arcFrom symbols k)).reverse,
        (readPlaces symbols k symbols.length).length⟩) := by
    induction ks with
    | nil => rfl
    | cons k ks ih =>
      rw [List.mapM_cons, permutationState_eq (hlength.trans (by decide)), ih]
      rfl
  refine ⟨_, by rw [permutationStates, hpow, Option.bind_some, hstates]; rfl, fun inAlph outAlph => ?_⟩
  refine ⟨hlength, rfl, ?_, ?_⟩
  · intro k hk
    simp [WFST.state, hk, List.getElem?_append_left]
  · intro k hk
    rw [WFST.state, List.getD_eq_getElem?_getD, List.getElem?_append_right (by simpa using hk)]
    cases hi : k - _ with
    | zero => rfl
    | succ i => rfl

/-- The paths of the lattice spell the symbols in every order, each order on one path; no symbol is
left out of a path's strings unless the text has `*e*`. -/
structure SpellsPermutations (words : List (List Char)) (x : WFST W) : Prop where
  sound : ∀ p, x.IsPath p → ∃ w : List (List Char), w.Perm words ∧
    p.map (fun h => x.inAlph.name? h.arc.inp) = w.map (some ∘ String.ofList) ∧
      p.map (fun h => x.outAlph.name? h.arc.out) = w.map (some ∘ String.ofList)
  complete : ∀ w : List (List Char), w.Perm words →
    ∃! p, x.IsPath p ∧ p.map (fun h => x.inAlph.name? h.arc.inp) = w.map (some ∘ String.ofList)
  whole : "*e*".toList ∉ words → ∀ p, x.IsPath p →
    pathInput p = p.map (·.arc.inp) ∧ pathOutput p = p.map (·.arc.out)

variable {symbols : List ℕ} {words : List (List Char)} {alph : Alphabet} {x : WFST W}
  {p : List (HalfArc W)}

theorem spelling_of_name? {i : ℕ} {word : List Char} (h : alph.name? i = some (String.ofList word)) :
    alph.spelling i = word := by
  rw [Alphabet.spelling, h]
  simp

theorem name?_injective {i j : ℕ} {name : String} (hi : alph.name? i = some name)
    (hj : alph.name? j = some name) : i = j := by
  rw [← Alphabet.find_eq_some_iff] at hi hj
  exact Option.some.inj (hi.symm.trans hj)

theorem IsLattice.out_eq (hx : IsLattice symbols x) {k f : ℕ} (hwalk : Walk x.Adj k p f) {h : HalfArc W}
    (hh : h ∈ p) : h.arc.out = h.arc.inp := by
  obtain ⟨a, b, hmem, -⟩ := hwalk.exists_step hh
  obtain ⟨l, -, -, harc⟩ := hx.arc hmem
  rw [harc]
  rfl

theorem IsLattice.isPath_perm (hx : IsLattice symbols x) (hp : x.IsPath p) :
    Walk x.Adj 0 p (2 ^ symbols.length - 1) ∧ (p.map (·.arc.inp)).Perm symbols := by
  have hwalk := (WFST.isPath_iff_walk hx.final).mp hp
  refine ⟨hwalk, ?_⟩
  rw [← symbolsLeft_zero symbols]
  exact (hx.perm_iff (Nat.two_pow_pos _) _).mpr ⟨p, hwalk, rfl⟩

section Names

variable (hnames : symbols.map alph.name? = words.map (some ∘ String.ofList))

include hnames

theorem exists_word {i : ℕ} (hi : i ∈ symbols) :
    ∃ word ∈ words, alph.name? i = some (String.ofList word) := by
  have hmem : alph.name? i ∈ words.map (some ∘ String.ofList) := by
    rw [← hnames]
    exact List.mem_map_of_mem hi
  obtain ⟨word, hword, heq⟩ := List.mem_map.mp hmem
  exact ⟨word, hword, heq.symm⟩

theorem map_spelling : symbols.map alph.spelling = words := by
  have hwords := congrArg (List.map fun n : Option String => (n.getD "").toList) hnames
  rw [List.map_map, List.map_map] at hwords
  refine Eq.trans ?_ (hwords.trans ?_)
  · rfl
  · simp [Function.comp_def]

theorem map_find : words.map (fun word => (alph.find (String.ofList word)).getD 0) = symbols := by
  have hinv := congrArg (List.map fun n : Option String => (n.bind alph.find).getD 0) hnames
  rw [List.map_map, List.map_map] at hinv
  refine Eq.trans ?_ (hinv.symm.trans ?_)
  · rfl
  · refine (List.map_congr_left fun i hi => ?_).trans (List.map_id _)
    obtain ⟨word, -, hword⟩ := exists_word hnames hi
    rw [Function.comp_apply, hword, Option.bind_some, (alph.find_eq_some_iff _ _).mpr hword]
    rfl

theorem name?_find {word : List Char} (hword : word ∈ words) :
    alph.name? ((alph.find (String.ofList word)).getD 0) = some (String.ofList word) := by
  have hmem : some (String.ofList word) ∈ symbols.map alph.name? := by
    rw [hnames]
    exact List.mem_map_of_mem (f := some ∘ String.ofList) hword
  obtain ⟨i, -, hi⟩ := List.mem_map.mp hmem
  rw [(alph.find_eq_some_iff _ _).mpr hi]
  exact hi

omit [One W] in
theorem map_inp_eq_of_map_name? {p p' : List (HalfArc W)} (hmem : ∀ h ∈ p, h.arc.inp ∈ symbols)
    (hsame : p.map (fun h => alph.name? h.arc.inp) = p'.map fun h => alph.name? h.arc.inp) :
    p.map (·.arc.inp) = p'.map (·.arc.inp) := by
  induction p generalizing p' with
  | nil => rw [List.map_eq_nil_iff.mp hsame.symm]
  | cons h p ih =>
    obtain ⟨h', p', rfl, hh, hp⟩ := List.map_eq_cons_iff.mp hsame.symm
    obtain ⟨word, -, hword⟩ := exists_word hnames (hmem h List.mem_cons_self)
    rw [List.map_cons, List.map_cons, name?_injective hword (hh.trans hword),
      ih (fun a ha => hmem a (List.mem_cons_of_mem _ ha)) hp.symm]

variable (hx : IsLattice symbols x)

include hx

theorem IsLattice.sound (hp : x.IsPath p) : ∃ w : List (List Char), w.Perm words ∧
    p.map (fun h => alph.name? h.arc.inp) = w.map (some ∘ String.ofList) ∧
      p.map (fun h => alph.name? h.arc.out) = w.map (some ∘ String.ofList) := by
  obtain ⟨hwalk, hperm⟩ := hx.isPath_perm hp
  have hin : p.map (fun h => alph.name? h.arc.inp) =
      (p.map fun h => alph.spelling h.arc.inp).map (some ∘ String.ofList) := by
    rw [List.map_map]
    apply List.map_congr_left
    intro h hh
    obtain ⟨word, -, hword⟩ := exists_word hnames (hperm.mem_iff.mp (List.mem_map_of_mem hh))
    rw [hword, Function.comp_apply, spelling_of_name? hword]
    rfl
  have hout : p.map (fun h => alph.name? h.arc.out) = p.map fun h => alph.name? h.arc.inp := by
    apply List.map_congr_left
    intro h hh
    rw [hx.out_eq hwalk hh]
  have hspell := hperm.map alph.spelling
  rw [map_spelling hnames, List.map_map] at hspell
  exact ⟨_, hspell, hin, hout.trans hin⟩

theorem IsLattice.complete {w : List (List Char)} (hw : w.Perm words) :
    ∃! p, x.IsPath p ∧ p.map (fun h => alph.name? h.arc.inp) = w.map (some ∘ String.ofList) := by
  have hperm := hw.map fun word => (alph.find (String.ofList word)).getD 0
  rw [map_find hnames, ← symbolsLeft_zero symbols] at hperm
  obtain ⟨p, hwalk, hp⟩ := (hx.perm_iff (Nat.two_pow_pos _) _).mp hperm
  have hspelled : p.map (fun h => alph.name? h.arc.inp) = w.map (some ∘ String.ofList) := by
    have hmap := congrArg (List.map alph.name?) hp
    rw [List.map_map, List.map_map] at hmap
    exact hmap.trans (List.map_congr_left fun word hmem => name?_find hnames (hw.mem_iff.mp hmem))
  refine ⟨p, ⟨(WFST.isPath_iff_walk hx.final).mpr hwalk, hspelled⟩, ?_⟩
  rintro p' ⟨hp', hspelled'⟩
  obtain ⟨hwalk', hperm'⟩ := hx.isPath_perm hp'
  apply hx.path_unique hwalk' hwalk
  apply map_inp_eq_of_map_name? hnames _ (hspelled'.trans hspelled.symm)
  intro h hh
  exact hperm'.mem_iff.mp (List.mem_map_of_mem hh)

theorem IsLattice.whole (hepsilon : "*e*".toList ∉ words) (hp : x.IsPath p) :
    pathInput p = p.map (·.arc.inp) ∧ pathOutput p = p.map (·.arc.out) := by
  obtain ⟨hwalk, hperm⟩ := hx.isPath_perm hp
  have hne : ∀ h ∈ p, h.arc.inp ≠ epsilonIndex := by
    intro h hh hzero
    obtain ⟨word, hword, hnamed⟩ := exists_word hnames (hperm.mem_iff.mp (List.mem_map_of_mem hh))
    rw [hzero] at hnamed
    have hname := Option.some.inj (hnamed.symm.trans alph.epsilon)
    apply hepsilon
    rw [← hname]
    simpa using hword
  constructor
  · apply List.filter_eq_self.mpr
    intro i hi
    obtain ⟨h, hh, rfl⟩ := List.mem_map.mp hi
    simpa using hne h hh
  · apply List.filter_eq_self.mpr
    intro i hi
    obtain ⟨h, hh, rfl⟩ := List.mem_map.mp hi
    rw [hx.out_eq hwalk hh]
    simpa using hne h hh

end Names

variable (W) in
/-- A text that is accepted is made into the lattice of its symbols, by shifts that do not overflow. -/
def BuildsPermutations (buf : List Char) : Prop :=
  permutationLattice W buf = .invalid ∨
    ∃ x length, permutationLattice W buf = .built x length ∧ SpellsPermutations (symbolsOf buf) x

theorem length_indicesOf (alph : Alphabet) (names : List String) :
    (alph.indicesOf names).1.length = names.length := by
  rw [← List.length_map (alph.indicesOf names).2.name?, Alphabet.map_name?_indicesOf,
    List.length_map]

/-- From 31 symbols on, the number of the last state is out of reach. -/
theorem permutationLattice_overflow {buf : List Char}
    (hdigit : (symbolsOf buf).any startsWithDigit = false) (hlong : 30 < (symbolsOf buf).length) :
    permutationLattice W buf = .overflow := by
  have hlength := length_indicesOf .initial ((symbolsOf buf).map String.ofList)
  rw [List.length_map] at hlength
  have hstates : permutationStates (W := W)
      (Alphabet.initial.indicesOf ((symbolsOf buf).map String.ofList)).1 = none := by
    rw [permutationStates, hlength, pow2, if_neg (by lia)]
    rfl
  simp only [permutationLattice, hdigit, Bool.false_eq_true, if_false, hstates]

end Built

end Carmel
