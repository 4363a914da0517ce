/-
# Names in nested compositions

Two joined texts are the same exactly when a name continues another one's and what stands
behind the two makes up for it. So the names of a composition are read back and told apart
exactly when every joined text can be read and no name runs on, and by induction this
settles nested compositions.
-/

import Carmel.Compose.CreatedNodes
import Carmel.Compose.TrioNamer

namespace Carmel

open TrioNamer

universe u

/-- What `stateName` gives for the states of the two operands. -/
structure OperandNames where
  a : ℕ → List Char
  b : ℕ → List Char

section Texts

variable {W : Type u} (o : Operands W) (names : OperandNames)

def Operands.outLetter (i : ℕ) : List Char := ((o.a.outAlph.name? i).getD "").toList

namespace Node

/-- The name that a joined text begins with. -/
def first : Node → List Char
  | .trio k => names.a k.qa
  | .mediate m => names.b m.rSource
  | .merged => "final".toList

/-- What is joined to it. -/
def rest : Node → List Char
  | .trio k => filterText k.filter ++ names.b k.qb
  | .mediate m => [','] ++ o.outLetter m.lHiddenLetter ++ (['-', '>'] ++ names.a m.lDest)
  | .merged => []

def text (n : Node) : List Char := n.first names ++ n.rest o names

/-- The name that the namer makes for a state; the joined final state is `final`. -/
def name : Node → Option (List Char)
  | .trio k => make (names.a k.qa) (names.b k.qb) k.filter
  | .mediate m => makeMediate (names.a m.lDest) (names.b m.rSource) (o.outLetter m.lHiddenLetter)
  | .merged => some "final".toList

end Node

/-- The name of `n'` goes on where that of `n` ends, and what stands behind the two makes up
for it. Between mediate states of one right operand state it may be the letter that does. -/
inductive RunsOn : Node → Node → Prop
  | first {n n' : Node} {c : Char} {v : List Char} (hfirst : n'.first names = n.first names ++ c :: v)
      (hrest : n.rest o names = c :: v ++ n'.rest o names) : RunsOn n n'
  | letter {m m' : HalfArcState} {c : Char} {v : List Char} (hsource : m.rSource = m'.rSource)
      (hletter : o.outLetter m'.lHiddenLetter = o.outLetter m.lHiddenLetter ++ c :: v)
      (hrest : ['-', '>'] ++ names.a m.lDest = c :: v ++ (['-', '>'] ++ names.a m'.lDest)) :
      RunsOn (.mediate m) (.mediate m')

/-- The names of the operand states tell them apart. -/
structure OperandNames.Distinct : Prop where
  a : ∀ {i j}, i < o.a.numStates → j < o.a.numStates → names.a i = names.a j → i = j
  b : ∀ {i j}, i < o.b.numStates → j < o.b.numStates → names.b i = names.b j → i = j

variable {o names} {n n' : Node} {s : List Char}

theorem appendSafe_eq_some {buf str r : List Char} (h : appendSafe buf str = some r) :
    r = buf ++ str := by
  rw [appendSafe] at h
  split at h
  · exact (Option.some.inj h).symm
  · cases h

theorem Node.name_eq_some (h : n.name o names = some s) : s = finish (n.text o names) := by
  cases n with
  | trio k =>
    simp only [name, make, Option.bind_eq_some_iff, Option.map_eq_some_iff] at h
    obtain ⟨buf, hbuf, buf', hbuf', rfl⟩ := h
    rw [appendSafe_eq_some hbuf', appendSafe_eq_some hbuf, text, first, rest, List.nil_append,
      List.append_assoc]
  | mediate m =>
    simp only [name, makeMediate, Option.bind_eq_some_iff, Option.map_eq_some_iff] at h
    obtain ⟨buf, hbuf, buf', hbuf', buf'', hbuf'', rfl⟩ := h
    rw [appendSafe_eq_some hbuf'', appendSafe_eq_some hbuf', appendSafe_eq_some hbuf, text, first,
      rest]
    simp only [List.nil_append, List.append_assoc]
  | merged =>
    rw [← Option.some.inj h]
    rfl

/-! ## When two joined texts are the same -/

/-- A state of the composition has a separator in its text, one for each kind. -/
theorem Node.head?_rest : (n.rest o names).head? = match n with
    | .trio _ => some '|'
    | .mediate _ => some ','
    | .merged => none := by
  cases n <;> rfl

theorem Node.text_ne_final (hn : n ≠ .merged) : n.text o names ≠ "final".toList := by
  intro h
  have hmem : ∀ c ∈ n.rest o names, c ∈ "final".toList := by
    intro c hc
    rw [← h]
    exact List.mem_append_right _ hc
  cases n with
  | trio k => exact absurd (hmem '|' List.mem_cons_self) (by decide)
  | mediate m => exact absurd (hmem ',' List.mem_cons_self) (by decide)
  | merged => exact hn rfl

theorem RunsOn.text_eq (h : RunsOn o names n n') : n.text o names = n'.text o names := by
  cases h with
  | first hfirst hrest => rw [Node.text, Node.text, hfirst, hrest, List.append_assoc]
  | letter hsource hletter hrest =>
    simp only [Node.text, Node.first, Node.rest, hsource, hletter, hrest, List.append_assoc]

theorem RunsOn.ne (h : RunsOn o names n n') : n ≠ n' := by
  rintro rfl
  cases h with
  | first hfirst _ => simpa using congrArg List.length hfirst
  | letter _ hletter _ => simpa using congrArg List.length hletter

/-- The filter state and the name behind it. -/
theorem filterText_append_inj {f f' : Fin 3} {u u' : List Char}
    (h : filterText f ++ u = filterText f' ++ u') : f = f' ∧ u = u' := by
  have hlen : (filterText f).length = (filterText f').length := rfl
  have hinj : ∀ f f' : Fin 3, filterText f = filterText f' → f = f' := by decide
  exact ⟨hinj f f' (List.append_inj_left h hlen), List.append_inj_right h hlen⟩

theorem Operands.outLetter_inj {i j : ℕ} (hi : i < o.a.outAlph.size) (hj : j < o.a.outAlph.size)
    (h : o.outLetter i = o.outLetter j) : i = j := by
  have hi' : o.a.outAlph.names[i]? = some o.a.outAlph.names[i] := List.getElem?_eq_getElem hi
  have hj' : o.a.outAlph.names[j]? = some o.a.outAlph.names[j] := List.getElem?_eq_getElem hj
  rw [outLetter, outLetter, Alphabet.name?, hi', Alphabet.name?, hj'] at h
  exact (o.a.outAlph.nodup.getElem_inj_iff).mp (String.toList_inj.mp h)

/-- Where the names in front are the same. -/
theorem Node.eq_or_runsOn_of_first_eq (hnames : names.Distinct o) (hn : n.Grounded o)
    (hn' : n'.Grounded o) (hm : n ≠ .merged) (hfirst : n.first names = n'.first names)
    (hrest : n.rest o names = n'.rest o names) :
    n = n' ∨ RunsOn o names n n' ∨ RunsOn o names n' n := by
  have hhead := congrArg List.head? hrest
  rw [head?_rest, head?_rest] at hhead
  cases n with
  | merged => exact absurd rfl hm
  | trio k =>
    cases n' with
    | mediate m => exact absurd hhead (by simp)
    | merged => exact absurd hhead (by simp)
    | trio k' =>
      left
      obtain ⟨hf, hb⟩ := filterText_append_inj hrest
      have ha := hnames.a hn.1 hn'.1 hfirst
      have hb := hnames.b hn.2 hn'.2 hb
      obtain ⟨qa, qb, f⟩ := k
      obtain ⟨qa', qb', f'⟩ := k'
      simp only at ha hb hf
      rw [ha, hb, hf]
  | mediate m =>
    cases n' with
    | trio k => exact absurd hhead (by simp)
    | merged => exact absurd hhead (by simp)
    | mediate m' =>
      have hsource := hnames.b hn.2.1 hn'.2.1 hfirst
      simp only [rest, List.append_assoc, List.append_cancel_left_eq] at hrest
      rcases List.append_eq_append_iff.mp hrest with ⟨v, hletter, hrest⟩ | ⟨v, hletter, hrest⟩
      · cases v with
        | nil =>
          left
          rw [List.append_nil] at hletter
          rw [List.nil_append, List.append_cancel_left_eq] at hrest
          have hl := Operands.outLetter_inj hn'.2.2 hn.2.2 hletter
          have ha := hnames.a hn.1 hn'.1 hrest
          obtain ⟨lDest, rSource, letter⟩ := m
          obtain ⟨lDest', rSource', letter'⟩ := m'
          simp only at ha hl hsource
          rw [ha, hl, hsource]
        | cons c v => exact .inr (.inl (.letter hsource hletter hrest))
      · cases v with
        | nil =>
          left
          rw [List.append_nil] at hletter
          rw [List.nil_append, List.append_cancel_left_eq] at hrest
          have hl := Operands.outLetter_inj hn.2.2 hn'.2.2 hletter
          have ha := hnames.a hn'.1 hn.1 hrest
          obtain ⟨lDest, rSource, letter⟩ := m
          obtain ⟨lDest', rSource', letter'⟩ := m'
          simp only at ha hl hsource
          rw [ha, hl, hsource]
        | cons c v => exact .inr (.inr (.letter hsource.symm hletter hrest))

/-- **Two states have the same text exactly when they are the same or one's name runs on.** -/
theorem Node.text_eq_iff (hnames : names.Distinct o) (hn : n.Grounded o) (hn' : n'.Grounded o) :
    n.text o names = n'.text o names ↔ n = n' ∨ RunsOn o names n n' ∨ RunsOn o names n' n := by
  constructor
  · intro h
    by_cases hm : n = .merged
    · by_cases hm' : n' = .merged
      · exact .inl (hm.trans hm'.symm)
      · exact absurd (h.symm.trans (by rw [hm]; rfl)) (text_ne_final hm')
    rcases List.append_eq_append_iff.mp h with ⟨v, hfirst, hrest⟩ | ⟨v, hfirst, hrest⟩
    · cases v with
      | nil =>
        rw [List.append_nil] at hfirst
        exact eq_or_runsOn_of_first_eq hnames hn hn' hm hfirst.symm hrest
      | cons c v => exact .inr (.inl (.first hfirst hrest))
    · cases v with
      | nil =>
        rw [List.append_nil] at hfirst
        exact eq_or_runsOn_of_first_eq hnames hn hn' hm hfirst hrest.symm
      | cons c v => exact .inr (.inr (.first hfirst hrest))
  · rintro (rfl | h | h)
    · rfl
    · exact h.text_eq
    · exact h.text_eq.symm

end Texts

section Names

variable {W : Type u} [CommMonoid W] [DecidableEq W]

/-- The names that `set_compose` adds, by the numbers of the states, unless one is too long. -/
def composeNames (o : Operands W) (names : OperandNames) (pg : Bool) (c₀ : CascadeParameters) :
    Option (List (ℕ × List Char)) :=
  (createdNodes o pg c₀).mapM fun p => (p.2.name o names).map (p.1, ·)

/-- Every name is read back, and no two states have one name. -/
structure NamesFine (made : List (ℕ × List Char)) : Prop where
  readsBack : ∀ p ∈ made, ReadsBack p.2
  distinct : ∀ p ∈ made, ∀ q ∈ made, p.2 = q.2 → p.1 = q.1

/-- What the names of the operands must be like: every text joined of them can be read, and no
name runs on. -/
structure NamesSuit (o : Operands W) (names : OperandNames) (pg : Bool) (c₀ : CascadeParameters) :
    Prop where
  readable : ∀ p ∈ createdNodes o pg c₀, Readable (p.2.text o names)
  apart : ∀ p ∈ createdNodes o pg c₀, ∀ q ∈ createdNodes o pg c₀, ¬ RunsOn o names p.2 q.2

variable {o : Operands W} {names : OperandNames} {pg : Bool} {c₀ : CascadeParameters}
variable {made : List (ℕ × List Char)} {i : ℕ} {s : List Char}

theorem mem_composeNames (h : composeNames o names pg c₀ = some made) :
    (i, s) ∈ made ↔ ∃ n, (i, n) ∈ createdNodes o pg c₀ ∧ s = finish (n.text o names) := by
  rw [composeNames] at h
  generalize createdNodes o pg c₀ = created at h
  induction created generalizing made with
  | nil =>
    simp only [List.mapM_nil, Option.pure_def, Option.some.injEq] at h
    simp [← h]
  | cons p created ih =>
    simp only [List.mapM_cons, Option.bind_eq_bind, Option.bind_eq_some_iff, Option.map_eq_some_iff,
      Option.pure_def, Option.some.injEq] at h
    obtain ⟨-, ⟨s', hs', rfl⟩, made', hmade', rfl⟩ := h
    obtain ⟨j, n⟩ := p
    simp only [List.mem_cons, Prod.mk.injEq, ih hmade', Node.name_eq_some hs']
    constructor
    · rintro (⟨rfl, rfl⟩ | ⟨n', hn', rfl⟩)
      · exact ⟨n, .inl ⟨rfl, rfl⟩, rfl⟩
      · exact ⟨n', .inr hn', rfl⟩
    · rintro ⟨n', ⟨rfl, rfl⟩ | hn', rfl⟩
      · exact .inl ⟨rfl, rfl⟩
      · exact .inr ⟨n', hn', rfl⟩

/-- With an invalid operand there is nothing to name. -/
theorem numbered (ha : o.a.Valid ∨ o.a.final = none) (hb : o.b.Valid ∨ o.b.final = none) :
    Numbered o pg c₀ := by
  by_cases hnone : o.a.final = none ∨ o.b.final = none
  · have hcreated : createdNodes o pg c₀ = [] := by
      rw [createdNodes]
      split
      case h_1 hfa hfb => exact absurd hnone (by simp [hfa, hfb])
      case h_2 => rfl
    constructor
    case onto =>
      intro i hi
      rw [setCompose_of_invalid c₀ pg hnone] at hi
      exact absurd hi (Nat.not_lt_zero i)
    all_goals simp [hcreated]
  · rw [not_or] at hnone
    exact numbered_of_valid (ha.resolve_right hnone.1) (hb.resolve_right hnone.2) pg c₀

/-- **The names of a composition are fine exactly when those of the operands suit it.** -/
theorem namesFine_iff (hnum : Numbered o pg c₀) (hnames : names.Distinct o)
    (h : composeNames o names pg c₀ = some made) : NamesFine made ↔ NamesSuit o names pg c₀ := by
  constructor
  · intro hfine
    constructor
    case readable =>
      intro p hp
      rw [← readsBack_finish_iff]
      exact hfine.readsBack (p.1, _) ((mem_composeNames h).mpr ⟨p.2, hp, rfl⟩)
    case apart =>
      intro p hp q hq hruns
      have hp' := (mem_composeNames h).mpr ⟨p.2, hp, rfl⟩
      have hq' := (mem_composeNames h).mpr ⟨q.2, hq, rfl⟩
      have hi := hfine.distinct _ hp' _ hq' (congrArg finish hruns.text_eq)
      exact hruns.ne (hnum.node hp (hi ▸ hq))
  · intro hsuit
    constructor
    case readsBack =>
      rintro ⟨i, s⟩ hp
      obtain ⟨n, hn, rfl⟩ := (mem_composeNames h).mp hp
      exact readsBack_finish_iff.mpr (hsuit.readable _ hn)
    case distinct =>
      rintro ⟨i, s⟩ hp ⟨j, t⟩ hq hst
      obtain ⟨n, hn, rfl⟩ := (mem_composeNames h).mp hp
      obtain ⟨n', hn', rfl⟩ := (mem_composeNames h).mp hq
      have htext := finish_injective hst
      rcases (Node.text_eq_iff hnames (hnum.grounded hn) (hnum.grounded hn')).mp htext with
        rfl | hruns | hruns
      · exact hnum.number hn hn'
      · exact absurd hruns (hsuit.apart _ hn _ hn')
      · exact absurd hruns (hsuit.apart _ hn' _ hn)

/-- The name of a state, by its number. -/
def stateNameOf (made : List (ℕ × List Char)) (i : ℕ) : List Char := (made.lookup i).getD []

/-- Names that are fine tell the states of the composition apart. -/
theorem NamesFine.distinct_stateNameOf (hfine : NamesFine made) (hnum : Numbered o pg c₀)
    (h : composeNames o names pg c₀ = some made) {j : ℕ} (hi : i < (setCompose o c₀ pg).1.numStates)
    (hj : j < (setCompose o c₀ pg).1.numStates) (hij : stateNameOf made i = stateNameOf made j) :
    i = j := by
  have hmade {i : ℕ} (hi : i < (setCompose o c₀ pg).1.numStates) : (i, stateNameOf made i) ∈ made := by
    obtain ⟨n, hn⟩ := hnum.onto i hi
    have hmem := (mem_composeNames h).mpr ⟨n, hn, rfl⟩
    cases hlookup : made.lookup i with
    | none =>
      rw [List.lookup_eq_none_iff] at hlookup
      simpa using hlookup _ hmem
    | some s =>
      rw [stateNameOf, hlookup, Option.getD_some]
      obtain ⟨l₁, l₂, hsplit, -⟩ := List.lookup_eq_some_iff.mp hlookup
      rw [hsplit]
      exact List.mem_append_right _ List.mem_cons_self
  exact hfine.distinct _ (hmade hi) _ (hmade hj) hij

end Names

/-! ## Nested compositions -/

/-- What else a composition is given. -/
structure ComposeSettings (W : Type u) where
  addrA : ℕ
  addrB : ℕ
  indexThreshold : ℕ
  order : HashOrder (ℕ × List (HalfArc W))
  preserveGroups : Bool
  cascade : CascadeParameters

def ComposeSettings.operands {W : Type u} (σ : ComposeSettings W) (a b : WFST W) : Operands W :=
  ⟨a, b, σ.addrA, σ.addrB, σ.indexThreshold, σ.order⟩

/-- Transducers with the names of their states, and compositions of them at any depth. -/
inductive Nested (W : Type u) : Type u
  | machine (x : WFST W) (stateName : ℕ → List Char)
  | compose (left right : Nested W) (σ : ComposeSettings W)

namespace Nested

variable {W : Type u} [CommMonoid W] [DecidableEq W]

/-- The transducer and the names of its states, unless a name was too long. -/
def eval : Nested W → Option (WFST W × (ℕ → List Char))
  | .machine x stateName => some (x, stateName)
  | .compose left right σ =>
    match left.eval, right.eval with
    | some a, some b =>
      (composeNames (σ.operands a.1 b.1) ⟨a.2, b.2⟩ σ.preserveGroups σ.cascade).map fun made =>
        ((setCompose (σ.operands a.1 b.1) σ.cascade σ.preserveGroups).1, stateNameOf made)
    | _, _ => none

/-- Something holds of every composition that is made, of its operands and its names. -/
def Everywhere (P : WFST W × (ℕ → List Char) → WFST W × (ℕ → List Char) → ComposeSettings W →
    List (ℕ × List Char) → Prop) : Nested W → Prop
  | .machine _ _ => True
  | .compose left right σ => left.Everywhere P ∧ right.Everywhere P ∧
      ∀ a b made, left.eval = some a → right.eval = some b →
        composeNames (σ.operands a.1 b.1) ⟨a.2, b.2⟩ σ.preserveGroups σ.cascade = some made →
          P a b σ made

/-- All names that are made are read back and tell the states apart. -/
def AllFine (t : Nested W) : Prop := t.Everywhere fun _ _ _ made => NamesFine made

/-- The names of the operands suit every composition. -/
def AllSuit (t : Nested W) : Prop := t.Everywhere fun a b σ _ =>
  NamesSuit (σ.operands a.1 b.1) ⟨a.2, b.2⟩ σ.preserveGroups σ.cascade

/-- A transducer that is valid or invalidated, with different names for its states. -/
structure WellNamed (a : WFST W × (ℕ → List Char)) : Prop where
  valid : a.1.Valid ∨ a.1.final = none
  distinct : ∀ {i j : ℕ}, i < a.1.numStates → j < a.1.numStates → a.2 i = a.2 j → i = j

/-- The transducers that are composed are well named. -/
def MachinesWellNamed : Nested W → Prop
  | .machine x stateName => WellNamed (x, stateName)
  | .compose left right _ => left.MachinesWellNamed ∧ right.MachinesWellNamed

variable {t : Nested W} {a b : WFST W × (ℕ → List Char)} {σ : ComposeSettings W}
variable {made : List (ℕ × List Char)}

omit [CommMonoid W] [DecidableEq W] in
theorem WellNamed.operandNames (ha : WellNamed a) (hb : WellNamed b) :
    OperandNames.Distinct (σ.operands a.1 b.1) ⟨a.2, b.2⟩ :=
  ⟨ha.distinct, hb.distinct⟩

theorem WellNamed.numbered (ha : WellNamed a) (hb : WellNamed b) :
    Numbered (σ.operands a.1 b.1) σ.preserveGroups σ.cascade :=
  Carmel.numbered ha.valid hb.valid

/-- A composition with fine names is well named. -/
theorem WellNamed.compose (ha : WellNamed a) (hb : WellNamed b)
    (hmade : composeNames (σ.operands a.1 b.1) ⟨a.2, b.2⟩ σ.preserveGroups σ.cascade = some made)
    (hfine : NamesFine made) :
    WellNamed ((setCompose (σ.operands a.1 b.1) σ.cascade σ.preserveGroups).1, stateNameOf made) := by
  constructor
  case valid =>
    by_cases hnone : a.1.final = none ∨ b.1.final = none
    · right
      rw [setCompose_of_invalid (o := σ.operands a.1 b.1) σ.cascade σ.preserveGroups hnone]
      rfl
    · rw [not_or] at hnone
      exact (setCompose_spec (fun _ => none) σ.cascade σ.preserveGroups
        (ha.valid.resolve_right hnone.1) (hb.valid.resolve_right hnone.2)).1
  case distinct =>
    intro i j hi hj hij
    exact hfine.distinct_stateNameOf (ha.numbered hb) hmade hi hj hij

/-- By induction every composition is well named, whose compositions all have fine names. -/
theorem wellNamed_eval (ht : t.MachinesWellNamed) (hfine : t.AllFine) (ha : t.eval = some a) :
    WellNamed a := by
  induction t generalizing a with
  | machine x stateName =>
    obtain rfl := Option.some.inj ha
    exact ht
  | compose left right σ ihl ihr =>
    rw [eval] at ha
    cases hl : left.eval with
    | none => simp [hl] at ha
    | some l =>
      cases hr : right.eval with
      | none => simp [hl, hr] at ha
      | some r =>
        simp only [hl, hr, Option.map_eq_some_iff] at ha
        obtain ⟨made, hmade, rfl⟩ := ha
        exact (ihl ht.1 hfine.1 hl).compose (ihr ht.2 hfine.2.1 hr) hmade
          (hfine.2.2 l r made hl hr hmade)

/-- **Names are read back and tell states apart at every depth exactly when the names of the
operands suit every composition.** -/
theorem allFine_iff_allSuit (ht : t.MachinesWellNamed) : t.AllFine ↔ t.AllSuit := by
  induction t with
  | machine x stateName => exact Iff.rfl
  | compose left right σ ihl ihr =>
    have hcompose (hl : left.AllFine) (hr : right.AllFine) :
        (∀ a b made, left.eval = some a → right.eval = some b →
          composeNames (σ.operands a.1 b.1) ⟨a.2, b.2⟩ σ.preserveGroups σ.cascade = some made →
            NamesFine made) ↔
        ∀ a b made, left.eval = some a → right.eval = some b →
          composeNames (σ.operands a.1 b.1) ⟨a.2, b.2⟩ σ.preserveGroups σ.cascade = some made →
            NamesSuit (σ.operands a.1 b.1) ⟨a.2, b.2⟩ σ.preserveGroups σ.cascade := by
      refine forall₅_congr fun a b made ha hb => forall_congr' fun hmade => ?_
      have ha := wellNamed_eval ht.1 hl ha
      have hb := wellNamed_eval ht.2 hr hb
      exact namesFine_iff (ha.numbered hb) (ha.operandNames hb) hmade
    constructor
    · rintro ⟨hl, hr, h⟩
      exact ⟨(ihl ht.1).mp hl, (ihr ht.2).mp hr, (hcompose hl hr).mp h⟩
    · rintro ⟨hl, hr, h⟩
      have hl := (ihl ht.1).mpr hl
      have hr := (ihr ht.2).mpr hr
      exact ⟨hl, hr, (hcompose hl hr).mpr h⟩

/-- One arc from the start to the final state. -/
def oneStep : WFST ℕ where
  states := [⟨[⟨2, 2, 1, 1, FSTArc.noGroup⟩], 1⟩, .empty]
  final := some 1
  inAlph := ⟨["*e*", "*w*", "a"], Alphabet.nodup_letter, Alphabet.letter_first⟩
  outAlph := ⟨["*e*", "*w*", "a"], Alphabet.nodup_letter, Alphabet.letter_first⟩

/-- The transducer with one arc and two names. -/
def oneStepBy (start final : String) : Nested ℕ :=
  .machine oneStep fun i => if i = 0 then start.toList else final.toList

def oneStepSettings : ComposeSettings ℕ := ⟨0, 1, 12, .inOrder, false, .make false⟩

/-- Two compositions, with a quoted name inside. -/
def twice : Nested ℕ :=
  .compose (.compose (oneStepBy "s" "t") (oneStepBy "\"u v\"" "w") oneStepSettings)
    (oneStepBy "x" "y") oneStepSettings

theorem valid_oneStep : oneStep.Valid :=
  ⟨by decide, ⟨1, rfl, by decide⟩, by decide, by decide, by decide⟩

theorem wellNamed_oneStepBy {start final : String} (h : start ≠ final) :
    (oneStepBy start final).MachinesWellNamed := by
  refine ⟨.inl valid_oneStep, ?_⟩
  intro i j hi hj hij
  have hi : i < 2 := hi
  have hj : j < 2 := hj
  simp only at hij
  by_cases hi0 : i = 0 <;> by_cases hj0 : j = 0
  · exact hi0.trans hj0.symm
  · rw [if_pos hi0, if_neg hj0] at hij
    exact absurd (String.toList_inj.mp hij) h
  · rw [if_neg hi0, if_pos hj0] at hij
    exact absurd (String.toList_inj.mp hij.symm) h
  · omega

/-- Where no two joined texts are the same, no name runs on. -/
theorem namesSuit_of_text_inj {o : Operands W} {names : OperandNames} {pg : Bool}
    {c₀ : CascadeParameters} (hread : ∀ p ∈ createdNodes o pg c₀, Readable (p.2.text o names))
    (hinj : ∀ p ∈ createdNodes o pg c₀, ∀ q ∈ createdNodes o pg c₀,
      p.2.text o names = q.2.text o names → p.2 = q.2) : NamesSuit o names pg c₀ :=
  ⟨hread, fun p hp q hq hruns => hruns.ne (hinj p hp q hq hruns.text_eq)⟩

theorem allFine_twice : twice.AllFine := by
  have hnamed : twice.MachinesWellNamed := ⟨⟨wellNamed_oneStepBy (by decide),
    wellNamed_oneStepBy (by decide)⟩, wellNamed_oneStepBy (by decide)⟩
  refine (allFine_iff_allSuit hnamed).mpr ⟨⟨trivial, trivial, ?_⟩, trivial, ?_⟩
  · intro a b made ha hb _
    obtain rfl := Option.some.inj ha
    obtain rfl := Option.some.inj hb
    exact namesSuit_of_text_inj (by decide) (by decide)
  · intro a b made ha hb _
    have hmade : composeNames (oneStepSettings.operands oneStep oneStep)
        ⟨fun i => if i = 0 then "s".toList else "t".toList,
          fun i => if i = 0 then "\"u v\"".toList else "w".toList⟩ false (.make false) =
        some [(1, "t|0|w".toList), (0, "\"s|0|\\\"u v\\\"\"".toList)] := by decide
    have ha' : a = ((setCompose (oneStepSettings.operands oneStep oneStep) (.make false) false).1,
        stateNameOf [(1, "t|0|w".toList), (0, "\"s|0|\\\"u v\\\"\"".toList)]) := by
      refine Option.some.inj (ha.symm.trans ?_)
      exact congrArg (Option.map fun made =>
        ((setCompose (oneStepSettings.operands oneStep oneStep) (.make false) false).1,
          stateNameOf made)) hmade
    obtain rfl := Option.some.inj hb
    subst ha'
    exact namesSuit_of_text_inj (by decide) (by decide)

/-- The left operand has a state whose name another one's runs on to. -/
def overlapping : Nested ℕ :=
  .compose (oneStepBy "x" "x|0|y") (oneStepBy "y|0|z" "z") oneStepSettings

/-- A quoted name with an exclamation mark stands behind one without quotes. -/
def unreadable : Nested ℕ :=
  .compose (oneStepBy "x" "y") (oneStepBy "\"p!q\"" "z") oneStepSettings

/-- Two states are both called `x|0|y|0|z`, and of `x|0|"p!q"` only the part before the
exclamation mark is read. -/
theorem not_allFine_overlapping : ¬ overlapping.AllFine ∧ ¬ unreadable.AllFine := by
  constructor
  · intro h
    have hmade : composeNames (oneStepSettings.operands oneStep oneStep)
        ⟨fun i => if i = 0 then "x".toList else "x|0|y".toList,
          fun i => if i = 0 then "y|0|z".toList else "z".toList⟩ false (.make false) =
        some [(1, "x|0|y|0|z".toList), (0, "x|0|y|0|z".toList)] := by decide
    have hfine : NamesFine _ := h.2.2 _ _ _ rfl rfl hmade
    have hdistinct := hfine.distinct (1, "x|0|y|0|z".toList) (by decide) (0, "x|0|y|0|z".toList)
      (by decide) rfl
    cases hdistinct
  · intro h
    have hmade : composeNames (oneStepSettings.operands oneStep oneStep)
        ⟨fun i => if i = 0 then "x".toList else "y".toList,
          fun i => if i = 0 then "\"p!q\"".toList else "z".toList⟩ false (.make false) =
        some [(1, "y|0|z".toList), (0, "x|0|\"p!q\"".toList)] := by decide
    have hfine : NamesFine _ := h.2.2 _ _ _ rfl rfl hmade
    have hread := hfine.readsBack (0, "x|0|\"p!q\"".toList) (by decide) ' ' (by decide) []
    revert hread
    decide

end Nested

end Carmel
