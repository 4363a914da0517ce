/-
# The search marks exactly the dead ends

While `derive` runs, a closed state is marked exactly when it is a dead end, its candidates
have all been met, and its arcs are those into the candidates that are no dead ends. An open
state is not marked: the arcs that find it open close a cycle, and no state on a cycle is a
dead end.
-/

import Carmel.Derivations.Candidates

namespace Carmel

open Carmel.Math

universe u

variable {W : Type u}

namespace Exploration

/-- The arcs out of a state found so far, newest first. -/
def arcs (L : Exploration) (i : ℕ) : List GraphArc := L.g.getD i []

/-- `remove[i]`. -/
def marked (L : Exploration) (i : ℕ) : Bool := L.remove.getD i false

variable {L : Exploration} {d d' : DerivState} {i j id : ℕ} {dead : Bool}

@[simp] theorem length_discover : (L.discover d).g.length = L.g.length + 1 := by simp [discover]

@[simp] theorem length_addDataAs : (L.addDataAs i j id).g.length = L.g.length := by
  simp [addDataAs]

@[simp] theorem idOfState_addDataAs : (L.addDataAs i j id).idOfState = L.idOfState := rfl

@[simp] theorem idOfState_mark : (L.mark i dead).idOfState = L.idOfState := rfl

@[simp] theorem marked_addDataAs (k : ℕ) : (L.addDataAs i j id).marked k = L.marked k := rfl

@[simp] theorem arcs_mark (k : ℕ) : (L.mark i dead).arcs k = L.arcs k := rfl

theorem idOfState_discover_self : (L.discover d).idOfState d = some L.g.length := by
  simp [discover]

theorem idOfState_discover_of_ne (h : d' ≠ d) :
    (L.discover d).idOfState d' = L.idOfState d' := by
  simp [discover, h]

@[simp] theorem arcs_discover (k : ℕ) : (L.discover d).arcs k = L.arcs k := by
  simp only [arcs, discover, List.getD_eq_getElem?_getD]
  rcases Nat.lt_trichotomy k L.g.length with hk | rfl | hk
  · rw [List.getElem?_append_left hk]
  · simp
  · rw [List.getElem?_eq_none (by simp; omega), List.getElem?_eq_none (by omega)]

theorem marked_discover (k : ℕ) : (L.discover d).marked k = L.marked k := by
  simp only [marked, discover, List.getD_eq_getElem?_getD]
  rcases Nat.lt_trichotomy k L.remove.length with hk | rfl | hk
  · rw [List.getElem?_append_left hk]
  · simp
  · rw [List.getElem?_eq_none (by simp; omega), List.getElem?_eq_none (by omega)]

theorem arcs_addDataAs_self (hi : i < L.g.length) :
    (L.addDataAs i j id).arcs i = ⟨i, j, id⟩ :: L.arcs i := by
  simp [arcs, addDataAs, hi]

theorem arcs_addDataAs_of_ne {k : ℕ} (h : k ≠ i) : (L.addDataAs i j id).arcs k = L.arcs k := by
  simp [arcs, addDataAs, h.symm]

theorem marked_mark_self (hi : i < L.remove.length) : (L.mark i dead).marked i = dead := by
  simp [marked, mark, hi]

theorem marked_mark_of_ne {k : ℕ} (h : k ≠ i) : (L.mark i dead).marked k = L.marked k := by
  simp [marked, mark, h.symm]

end Exploration

/-- A lattice arc that stands for a candidate. -/
structure ArcFor (num : DerivState → Option ℕ) (i : ℕ) (a : GraphArc) (c : Candidate) : Prop where
  src : a.src = i
  id : a.id = c.id
  dest : num c.state = some a.dest

section Search

variable (x : WFST W) (inp out : List ℕ)

/-- The bookkeeping of the search. `opn` are the states whose search has not returned. -/
structure Exploration.Inv (L : Exploration) (opn : DerivState → Prop) : Prop where
  length_remove : L.remove.length = L.g.length
  num_lt : ∀ {d i}, L.idOfState d = some i → i < L.g.length
  num_inj : ∀ {d d' i}, L.idOfState d = some i → L.idOfState d' = some i → d = d'
  onto : ∀ i < L.g.length, ∃ d, L.idOfState d = some i
  reached : ∀ {d i}, L.idOfState d = some i → Reaches (CandAdj x inp out) ⟨0, 0, 0⟩ d
  open_num : ∀ {d}, opn d → ∃ i, L.idOfState d = some i ∧ L.marked i = false
  marked : ∀ {d i}, L.idOfState d = some i → ¬ opn d → (L.marked i = true ↔ DeadEnd x inp out d)
  met : ∀ {d i}, L.idOfState d = some i → ¬ opn d → ∀ c ∈ candidates x inp out d,
    ∃ j, L.idOfState c.state = some j
  arcs : ∀ {d i}, L.idOfState d = some i → ¬ opn d →
    List.Forall₂ (ArcFor L.idOfState i) (L.arcs i).reverse (live x inp out (candidates x inp out d))

end Search

/-- What happens to the states that were there: numbers are kept, and arcs are,
except those out of the states `but`. -/
structure Exploration.Later (but : ℕ → Prop) (L L' : Exploration) : Prop where
  num : ∀ {d i}, L.idOfState d = some i → L'.idOfState d = some i
  length_le : L.g.length ≤ L'.g.length
  arcs : ∀ {i}, i < L.g.length → ¬ but i → L'.arcs i = L.arcs i

namespace Exploration

variable {but but' : ℕ → Prop} {L L' L'' : Exploration}

theorem Later.refl (L : Exploration) : Later but L L := ⟨fun h => h, Nat.le_refl _, fun _ _ => rfl⟩

theorem Later.trans (first : Later but L L') (second : Later but L' L'') : Later but L L'' where
  num h := second.num (first.num h)
  length_le := first.length_le.trans second.length_le
  arcs hi hbut := (second.arcs (Nat.lt_of_lt_of_le hi first.length_le) hbut).trans
    (first.arcs hi hbut)

theorem Later.mono (h : Later but L L') (hsub : ∀ i < L.g.length, but i → but' i) :
    Later but' L L' where
  num := h.num
  length_le := h.length_le
  arcs hi hbut := h.arcs hi fun hb => hbut (hsub _ hi hb)

end Exploration

theorem ArcFor.later {but : ℕ → Prop} {L L' : Exploration} {i : ℕ} {a : GraphArc} {c : Candidate}
    (h : ArcFor L.idOfState i a c) (hlater : L.Later but L') : ArcFor L'.idOfState i a c :=
  ⟨h.src, h.id, hlater.num h.dest⟩

namespace Exploration

variable {x : WFST W} {inp out : List ℕ} {L : Exploration} {opn : DerivState → Prop}
variable {d : DerivState} {i j id : ℕ} {dead : Bool}

theorem Inv.idOfState_of_open (hL : L.Inv x inp out opn) (hd : L.idOfState d = none) : ¬ opn d := by
  intro hopn
  obtain ⟨i, hi, -⟩ := hL.open_num hopn
  rw [hd] at hi
  cases hi

theorem Inv.empty : (empty : Exploration).Inv x inp out fun _ => False where
  length_remove := rfl
  num_lt := nofun
  num_inj := nofun
  onto := nofun
  reached := nofun
  open_num := nofun
  marked := nofun
  met := nofun
  arcs := nofun

theorem later_discover (hd : L.idOfState d = none) :
    Later (fun _ => False) L (L.discover d) where
  num {d' i} hd' := by
    rwa [idOfState_discover_of_ne]
    rintro rfl
    rw [hd] at hd'
    cases hd'
  length_le := by simp
  arcs _ _ := arcs_discover _

theorem Inv.discover (hL : L.Inv x inp out opn) (hd : L.idOfState d = none)
    (hreach : Reaches (CandAdj x inp out) ⟨0, 0, 0⟩ d) :
    (L.discover d).Inv x inp out fun u => opn u ∨ u = d := by
  have hlater := later_discover hd
  have hold : ∀ {u i}, (L.discover d).idOfState u = some i → u ≠ d → L.idOfState u = some i :=
    fun hu hne => (idOfState_discover_of_ne hne).symm.trans hu
  constructor
  case length_remove => simp [Exploration.discover, hL.length_remove]
  case num_lt =>
    intro u i hu
    by_cases hud : u = d
    · subst hud
      rw [idOfState_discover_self] at hu
      cases hu
      simp
    · exact Nat.lt_of_lt_of_le (hL.num_lt (hold hu hud)) hlater.length_le
  case num_inj =>
    have hne : ∀ {u i}, (L.discover d).idOfState u = some i → u ≠ d → i ≠ L.g.length :=
      fun hu hud => Nat.ne_of_lt (hL.num_lt (hold hu hud))
    intro u u' i hu hu'
    by_cases hud : u = d <;> by_cases hud' : u' = d
    · rw [hud, hud']
    · rw [hud, idOfState_discover_self] at hu
      exact absurd (Option.some.inj hu).symm (hne hu' hud')
    · rw [hud', idOfState_discover_self] at hu'
      exact absurd (Option.some.inj hu').symm (hne hu hud)
    · exact hL.num_inj (hold hu hud) (hold hu' hud')
  case onto =>
    intro i hi
    rcases Nat.lt_succ_iff_lt_or_eq.mp (length_discover (L := L) (d := d) ▸ hi) with hi | rfl
    · obtain ⟨u, hu⟩ := hL.onto i hi
      exact ⟨u, hlater.num hu⟩
    · exact ⟨d, idOfState_discover_self⟩
  case reached =>
    intro u i hu
    by_cases hud : u = d
    · exact hud ▸ hreach
    · exact hL.reached (hold hu hud)
  case open_num =>
    rintro u (hu | rfl)
    · obtain ⟨i, hi, hmark⟩ := hL.open_num hu
      exact ⟨i, hlater.num hi, (marked_discover i).trans hmark⟩
    · refine ⟨_, idOfState_discover_self, ?_⟩
      rw [marked_discover, Exploration.marked, List.getD_eq_getElem?_getD,
        List.getElem?_eq_none (Nat.le_of_eq hL.length_remove), Option.getD_none]
  case marked =>
    intro u i hu hclosed
    rw [marked_discover]
    exact hL.marked (hold hu fun h => hclosed (.inr h)) fun h => hclosed (.inl h)
  case met =>
    intro u i hu hclosed c hc
    obtain ⟨j, hj⟩ :=
      hL.met (hold hu fun h => hclosed (.inr h)) (fun h => hclosed (.inl h)) c hc
    exact ⟨j, hlater.num hj⟩
  case arcs =>
    intro u i hu hclosed
    rw [arcs_discover]
    exact (hL.arcs (hold hu fun h => hclosed (.inr h)) fun h => hclosed (.inl h)).imp
      fun _ _ h => h.later hlater

theorem later_addDataAs : Later (· = i) L (L.addDataAs i j id) where
  num h := h
  length_le := by simp
  arcs _ hne := arcs_addDataAs_of_ne hne

theorem Inv.addDataAs (hL : L.Inv x inp out opn) (hopn : opn d) (hd : L.idOfState d = some i) :
    (L.addDataAs i j id).Inv x inp out opn where
  length_remove := by rw [length_addDataAs]; exact hL.length_remove
  num_lt hu := by rw [length_addDataAs]; exact hL.num_lt hu
  num_inj := hL.num_inj
  onto k hk := hL.onto k (by rwa [length_addDataAs] at hk)
  reached := hL.reached
  open_num := hL.open_num
  marked := hL.marked
  met := hL.met
  arcs {u k} hu hclosed := by
    rw [arcs_addDataAs_of_ne]
    · exact hL.arcs hu hclosed
    · rintro rfl
      exact hclosed (hL.num_inj hu hd ▸ hopn)

theorem later_mark : Later (fun _ => False) L (L.mark i dead) where
  num h := h
  length_le := Nat.le_refl _
  arcs _ _ := rfl

theorem Inv.close (hL : L.Inv x inp out fun u => opn u ∨ u = d) (hnot : ¬ opn d)
    (hd : L.idOfState d = some i) (hdead : dead = true ↔ DeadEnd x inp out d)
    (hmet : ∀ c ∈ candidates x inp out d, ∃ j, L.idOfState c.state = some j)
    (harcs : List.Forall₂ (ArcFor L.idOfState i) (L.arcs i).reverse
      (live x inp out (candidates x inp out d))) :
    (L.mark i dead).Inv x inp out opn := by
  have hother : ∀ {u k}, L.idOfState u = some k → u ≠ d → (L.mark i dead).marked k = L.marked k :=
    fun hu hud => marked_mark_of_ne fun h => hud (hL.num_inj hu (h ▸ hd))
  constructor
  case length_remove => simp [Exploration.mark, hL.length_remove]
  case num_lt => exact hL.num_lt
  case num_inj => exact hL.num_inj
  case onto => exact hL.onto
  case reached => exact hL.reached
  case open_num =>
    intro u hu
    obtain ⟨k, hk, hmark⟩ := hL.open_num (.inl hu)
    exact ⟨k, hk, (hother hk fun h => hnot (h ▸ hu)).trans hmark⟩
  case marked =>
    intro u k hu hclosed
    by_cases hud : u = d
    · subst hud
      obtain rfl : k = i := Option.some.inj (hu.symm.trans hd)
      rw [marked_mark_self (hL.length_remove ▸ hL.num_lt hd)]
      exact hdead
    · rw [hother hu hud]
      exact hL.marked hu fun h => h.elim hclosed hud
  case met =>
    intro u k hu hclosed
    by_cases hud : u = d
    · exact hud ▸ hmet
    · exact hL.met hu fun h => h.elim hclosed hud
  case arcs =>
    intro u k hu hclosed
    by_cases hud : u = d
    · subst hud
      obtain rfl : k = i := Option.some.inj (hu.symm.trans hd)
      exact harcs
    · exact hL.arcs hu fun h => h.elim hclosed hud

/-- The mark that `add_arcs` reads is right, also for a state that is still open. -/
theorem Inv.marked_candidate (hL : L.Inv x inp out opn) {c : Candidate}
    (hc : c ∈ candidates x inp out d) (hj : L.idOfState c.state = some j)
    (hopn : opn c.state → Reaches (CandAdj x inp out) c.state d) :
    L.marked j = true ↔ DeadEnd x inp out c.state := by
  by_cases hcs : opn c.state
  · obtain ⟨k, hk, hmark⟩ := hL.open_num hcs
    obtain rfl : k = j := Option.some.inj (hk.symm.trans hj)
    have hcycle : OnCycle (CandAdj x inp out) c.state := .of_reaches (hopn hcs) ⟨hc, rfl⟩
    rw [hmark]
    exact ⟨nofun, fun hdead => absurd hcycle hdead.not_onCycle⟩
  · exact hL.marked hj hcs

end Exploration

namespace Exploration

variable {x : WFST W} {inp out : List ℕ} {L L' : Exploration} {opn : DerivState → Prop}
variable {d : DerivState} {i j : ℕ}

/-- The loop of `add_arcs`, over candidates that may come from different uses of it. -/
def visitAll (derive : DerivState → Exploration → Option (ℕ × Exploration)) (source : ℕ) :
    List Candidate → Bool → Exploration → Option (Bool × Exploration)
  | [], reachgoal, L => some (reachgoal, L)
  | c :: cs, reachgoal, L => do
    let (dst, L) ← derive c.state L
    if L.marked dst then
      visitAll derive source cs reachgoal L
    else
      visitAll derive source cs true (L.addDataAs source dst c.id)

section Loop

variable {derive : DerivState → Exploration → Option (ℕ × Exploration)} {source : ℕ}

theorem visitAll_append (cs cs' : List Candidate) (reachgoal : Bool) (L : Exploration) :
    visitAll derive source (cs ++ cs') reachgoal L =
      (visitAll derive source cs reachgoal L).bind fun p => visitAll derive source cs' p.1 p.2 := by
  induction cs generalizing reachgoal L with
  | nil => rfl
  | cons c cs ih =>
    simp only [List.cons_append, visitAll, Option.bind_eq_bind, Option.bind_assoc]
    refine congrArg _ (funext fun p => ?_)
    split
    · exact ih _ _
    · exact ih _ _

theorem visitAll_or (cs : List Candidate) (found reachgoal : Bool) (L : Exploration) :
    visitAll derive source cs (found || reachgoal) L =
      (visitAll derive source cs reachgoal L).map fun p => (found || p.1, p.2) := by
  induction cs generalizing reachgoal L with
  | nil => rfl
  | cons c cs ih =>
    simp only [visitAll, Option.bind_eq_bind, Option.map_bind]
    refine congrArg _ (funext fun p => ?_)
    simp only [Function.comp_apply]
    split
    · exact ih _ _
    · rw [← ih, Bool.or_true]

theorem addArcs_eq_visitAll (x : WFST W) (q : Lookup) (ids : List ℕ)
    (reachgoal : Bool) (L : Exploration) :
    addArcs x derive q source ids reachgoal L =
      visitAll derive source (ids.map fun id => ⟨id, ⟨q.iIn, x.arcDest id, q.iOut⟩⟩)
        reachgoal L := by
  induction ids generalizing reachgoal L with
  | nil => rfl
  | cons id ids ih =>
    simp only [addArcs, List.map_cons, visitAll, marked, ih]
    rfl

theorem addLookup_eq (x : WFST W) (d : DerivState) (dead : Bool) (L : Exploration) (q : Lookup) :
    addLookup x derive d source (dead, L) q =
      (visitAll derive source (candidatesOf x d q) (!dead) L).map fun p => (!p.1, p.2) := by
  have hor : visitAll derive source (candidatesOf x d q) (!dead || false) L = _ := visitAll_or ..
  rw [Bool.or_false] at hor
  rw [hor, candidatesOf, ← addArcs_eq_visitAll, addLookup]
  cases addArcs x derive q source (x.ioIndex.st d.s (q.sIn, q.sOut)) false L with
  | none => rfl
  | some p => cases hp : p.1 <;> cases dead <;> simp [hp]

/-- The uses of `add_arcs` in `derive` make one loop. -/
theorem foldlM_addLookup (x : WFST W) (d : DerivState) (qs : List Lookup) (dead : Bool)
    (L : Exploration) :
    qs.foldlM (addLookup x derive d source) (dead, L) =
      (visitAll derive source (qs.flatMap (candidatesOf x d)) (!dead) L).map
        fun p => (!p.1, p.2) := by
  induction qs generalizing dead L with
  | nil => simp [visitAll]
  | cons q qs ih =>
    rw [List.foldlM_cons, List.flatMap_cons, visitAll_append, addLookup_eq]
    cases visitAll derive source (candidatesOf x d q) (!dead) L with
    | none => rfl
    | some p => simp [ih]

theorem derive_succ (x : WFST W) (inp out : List ℕ) (fuel : ℕ) (d : DerivState) (L : Exploration)
    (hd : L.idOfState d = none) :
    Carmel.derive x inp out (fuel + 1) d L =
      (visitAll (Carmel.derive x inp out fuel) L.g.length (candidates x inp out d)
        (isGoal x inp out d) (L.discover d)).map
        fun p => (L.g.length, p.2.mark L.g.length (!p.1)) := by
  rw [Carmel.derive, hd]
  simp only [foldlM_addLookup, Bool.not_not, candidates]
  cases visitAll _ _ _ _ _ <;> rfl

theorem derive_met (x : WFST W) (inp out : List ℕ) (fuel : ℕ) {d : DerivState} {L : Exploration}
    {i : ℕ} (hd : L.idOfState d = some i) :
    Carmel.derive x inp out (fuel + 1) d L = some (i, L) := by
  rw [Carmel.derive, hd]

end Loop

section Spec

variable (x : WFST W) (inp out : List ℕ)

/-- How many states in range have not been met. -/
def undiscovered (L : Exploration) : ℕ :=
  ((box x inp out).filter fun t => L.idOfState ⟨t.1, t.2.1, t.2.2⟩ = none).card

/-- What a call of `derive` with enough fuel does. -/
def Explores (derive : DerivState → Exploration → Option (ℕ × Exploration)) (fuel : ℕ) : Prop :=
  ∀ {d L opn}, L.Inv x inp out opn → Reaches (CandAdj x inp out) ⟨0, 0, 0⟩ d →
    (∀ u, opn u → Reaches (CandAdj x inp out) u d) → undiscovered x inp out L < fuel →
    ∃ i L', derive d L = some (i, L') ∧ L'.Inv x inp out opn ∧ Later (fun _ => False) L L' ∧
      L'.idOfState d = some i

variable {x inp out}

theorem Later.undiscovered_le {but : ℕ → Prop} (h : Later but L L') :
    undiscovered x inp out L' ≤ undiscovered x inp out L := by
  refine Finset.card_le_card fun t ht => ?_
  rw [Finset.mem_filter] at ht ⊢
  refine ⟨ht.1, ?_⟩
  cases hnum : L.idOfState ⟨t.1, t.2.1, t.2.2⟩ with
  | none => rfl
  | some i =>
    rw [h.num hnum] at ht
    exact absurd ht.2 (by simp)

theorem undiscovered_discover_lt (hd : L.idOfState d = none)
    (hreach : Reaches (CandAdj x inp out) ⟨0, 0, 0⟩ d) :
    undiscovered x inp out (L.discover d) < undiscovered x inp out L := by
  refine Finset.card_lt_card ?_
  rw [Finset.ssubset_iff_of_subset]
  · refine ⟨(d.i, d.s, d.o), ?_, ?_⟩
    · exact Finset.mem_filter.mpr ⟨mem_box_of_reaches hreach, hd⟩
    · simp [idOfState_discover_self]
  · intro t ht
    rw [Finset.mem_filter] at ht ⊢
    refine ⟨ht.1, ?_⟩
    cases hnum : L.idOfState ⟨t.1, t.2.1, t.2.2⟩ with
    | none => rfl
    | some i =>
      rw [(later_discover hd).num hnum] at ht
      exact absurd ht.2 (by simp)

theorem visitAll_spec {derive : DerivState → Exploration → Option (ℕ × Exploration)} {fuel : ℕ}
    (hrec : Explores x inp out derive fuel) (hopn : opn d)
    (hreach : ∀ u, opn u → Reaches (CandAdj x inp out) u d) (cs : List Candidate)
    (hcs : ∀ c ∈ cs, c ∈ candidates x inp out d) (reachgoal : Bool) (hL : L.Inv x inp out opn)
    (hd : L.idOfState d = some i) (hfuel : undiscovered x inp out L < fuel) :
    ∃ r L', visitAll derive i cs reachgoal L = some (r, L') ∧
      (r = true ↔ reachgoal = true ∨ live x inp out cs ≠ []) ∧ L'.Inv x inp out opn ∧
      Later (· = i) L L' ∧ (∀ c ∈ cs, ∃ j, L'.idOfState c.state = some j) ∧
      ∃ new, (L'.arcs i).reverse = (L.arcs i).reverse ++ new ∧
        List.Forall₂ (ArcFor L'.idOfState i) new (live x inp out cs) := by
  induction cs generalizing reachgoal L with
  | nil =>
    exact ⟨reachgoal, L, rfl, by simp, hL, .refl L, by simp, [], by simp, .nil⟩
  | cons c cs ih =>
    have hc := hcs c List.mem_cons_self
    have hcs' : ∀ c ∈ cs, c ∈ candidates x inp out d :=
      fun c hc => hcs c (List.mem_cons_of_mem _ hc)
    have hstep : CandAdj x inp out d c c.state := ⟨hc, rfl⟩
    obtain ⟨j, L₁, hderive, hL₁, hlater₁, hj⟩ := hrec hL ((hL.reached hd).tail hstep)
      (fun u hu => (hreach u hu).tail hstep) hfuel
    have hlater₁' : Later (· = i) L L₁ := hlater₁.mono fun _ _ h => h.elim
    have hfuel₁ := Nat.lt_of_le_of_lt (hlater₁.undiscovered_le (x := x)) hfuel
    have hmark : L₁.marked j = true ↔ DeadEnd x inp out c.state :=
      hL₁.marked_candidate hc hj (hreach c.state)
    have harcs₁ : L₁.arcs i = L.arcs i := hlater₁.arcs (hL.num_lt hd) id
    rw [visitAll, hderive]
    simp only [Option.bind_eq_bind, Option.bind_some]
    by_cases hdead : DeadEnd x inp out c.state
    · -- a marked state: no arc
      rw [if_pos (hmark.mpr hdead)]
      obtain ⟨r, L₂, hrun, hr, hL₂, hlater₂, hmet, new, hnew, hfor⟩ :=
        ih hcs' reachgoal hL₁ (hlater₁.num hd) hfuel₁
      rw [live_cons_of_dead hdead]
      refine ⟨r, L₂, hrun, hr, hL₂, hlater₁'.trans hlater₂, ?_, new, harcs₁ ▸ hnew, hfor⟩
      intro c' hc'
      rcases List.mem_cons.mp hc' with rfl | hc'
      · exact ⟨j, hlater₂.num hj⟩
      · exact hmet c' hc'
    · rw [if_neg fun h => hdead (hmark.mp h)]
      have hL₁' : (L₁.addDataAs i j c.id).Inv x inp out opn := hL₁.addDataAs hopn (hlater₁.num hd)
      have hadd : Later (· = i) L₁ (L₁.addDataAs i j c.id) := later_addDataAs
      obtain ⟨r, L₂, hrun, hr, hL₂, hlater₂, hmet, new, hnew, hfor⟩ :=
        ih hcs' true hL₁' (hlater₁.num hd)
          (Nat.lt_of_le_of_lt hadd.undiscovered_le hfuel₁)
      rw [arcs_addDataAs_self (hL₁.num_lt (hlater₁.num hd)), harcs₁, List.reverse_cons,
        List.append_assoc] at hnew
      rw [live_cons_of_not_dead hdead]
      have hj₂ : L₂.idOfState c.state = some j := hlater₂.num hj
      refine ⟨r, L₂, hrun, ?_, hL₂, hlater₁'.trans (hadd.trans hlater₂), ?_, _, hnew,
        .cons ⟨rfl, rfl, hj₂⟩ hfor⟩
      · simp [hr]
      · intro c' hc'
        rcases List.mem_cons.mp hc' with rfl | hc'
        · exact ⟨j, hj₂⟩
        · exact hmet c' hc'

/-- **`derive` is correct**, given more fuel than states left to discover. -/
theorem derive_explores (fuel : ℕ) : Explores x inp out (Carmel.derive x inp out fuel) fuel := by
  induction fuel with
  | zero => exact fun _ _ _ h => absurd h (Nat.not_lt_zero _)
  | succ fuel ih =>
    intro d L opn hL hreach hopn hfuel
    cases hd : L.idOfState d with
    | some i => exact ⟨i, L, derive_met x inp out fuel hd, hL, .refl L, hd⟩
    | none =>
      have hnot : ¬ opn d := hL.idOfState_of_open hd
      have hfuel' := undiscovered_discover_lt hd hreach
      have hopn' : ∀ u, (opn u ∨ u = d) → Reaches (CandAdj x inp out) u d := by
        rintro u (hu | rfl)
        · exact hopn u hu
        · exact .refl u
      obtain ⟨r, L₁, hrun, hr, hL₁, hlater, hmet, new, hnew, hfor⟩ :=
        visitAll_spec ih (.inr rfl) hopn' (candidates x inp out d) (fun _ hc => hc)
          (isGoal x inp out d) (hL.discover hd hreach) idOfState_discover_self (by omega)
      have hempty : (L.discover d).arcs L.g.length = [] := by
        rw [arcs_discover, arcs, List.getD_eq_getElem?_getD,
          List.getElem?_eq_none (Nat.le_refl _), Option.getD_none]
      rw [hempty, List.reverse_nil, List.nil_append] at hnew
      have hd₁ := hlater.num (idOfState_discover_self (L := L) (d := d))
      have hdead : (!r) = true ↔ DeadEnd x inp out d := by
        rw [deadEnd_iff, Bool.not_eq_true', ← Bool.not_eq_true, hr]
        simp
      refine ⟨_, _, by rw [derive_succ x inp out fuel d L hd, hrun, Option.map_some],
        hL₁.close hnot hd₁ hdead hmet (hnew ▸ hfor), ?_, hd₁⟩
      have hlater' : Later (· = L.g.length) L L₁ :=
        ((later_discover hd).mono fun _ _ h => h.elim).trans hlater
      exact (hlater'.mono fun k hk heq => Nat.ne_of_lt hk heq).trans later_mark

end Spec

end Exploration

end Carmel
