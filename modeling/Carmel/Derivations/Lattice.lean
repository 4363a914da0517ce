/-
# What `compute` leaves

The lattice is the graph of the candidates without the arcs into dead ends. Without pruning
its states are all states met. Either way the goal is a state of the lattice exactly when it
can be reached, and that is what `compute` reports.
-/

import Carmel.Derivations.Prune

namespace Carmel

open Carmel.Math

universe u

variable {W : Type u}

/-- Nothing read, in state 0. -/
def DerivState.start : DerivState := ⟨0, 0, 0⟩

section Represents

variable (x : WFST W) (inp out : List ℕ)

/-- The states of `g` are the states that were reached and satisfy `keep`,
numbered by `num`; the arcs are those to live candidates, the last one first. -/
structure Represents (g : List (List GraphArc)) (num : DerivState → Option ℕ)
    (keep : DerivState → Prop) : Prop where
  num_lt : ∀ {d i}, num d = some i → i < g.length
  num_inj : ∀ {d d' i}, num d = some i → num d' = some i → d = d'
  onto : ∀ i < g.length, ∃ d, num d = some i
  start : num .start = some 0
  kept : ∀ {d}, (∃ i, num d = some i) ↔ Reaches (CandAdj x inp out) .start d ∧ keep d
  arcs : ∀ {d i}, num d = some i →
    List.Forall₂ (ArcFor num i) (g.getD i []).reverse (live x inp out (candidates x inp out d))

variable {x inp out}

/-- The search from the start ends with every reachable state met and closed. -/
theorem exists_exploration (x : WFST W) (inp out : List ℕ) :
    ∃ L : Exploration, derive x inp out (deriveFuel x inp out) .start .empty = some (0, L) ∧
      L.remove.length = L.g.length ∧
      (∀ d i, L.idOfState d = some i → (L.marked i = true ↔ DeadEnd x inp out d)) ∧
      Represents x inp out L.g L.idOfState fun _ => True := by
  have hfuel : Exploration.undiscovered x inp out .empty < deriveFuel x inp out :=
    Nat.lt_of_le_of_lt (Finset.card_filter_le ..) card_box_lt
  obtain ⟨i, L, hrun, hL, -, hstart⟩ := Exploration.derive_explores (deriveFuel x inp out)
    Exploration.Inv.empty (.refl DerivState.start) nofun hfuel
  -- the start is the first state met, so its number is 0
  obtain rfl : i = 0 := by
    rw [deriveFuel, Exploration.derive_succ x inp out _ _ _ rfl] at hrun
    obtain ⟨p, -, hp⟩ := Option.map_eq_some_iff.mp hrun
    exact (congrArg Prod.fst hp).symm
  refine ⟨L, hrun, hL.length_remove, fun d i hd => hL.marked hd id, ?_⟩
  exact
    { num_lt := hL.num_lt
      num_inj := hL.num_inj
      onto := hL.onto
      start := hstart
      kept := by
        intro d
        constructor
        · rintro ⟨i, hi⟩
          exact ⟨hL.reached hi, trivial⟩
        · rintro ⟨⟨cs, hwalk⟩, -⟩
          refine hwalk.invariant (P := fun d => ∃ i, L.idOfState d = some i) ?_ ⟨0, hstart⟩
          rintro d c - ⟨hc, rfl⟩ ⟨i, hi⟩
          exact hL.met hi id c hc
      arcs := fun hd => hL.arcs hd id }

theorem ArcFor.rewrite {num : DerivState → Option ℕ} {ttable : List (Option ℕ)} {i j : ℕ}
    (hi : ttable.getD i none = some j) {arcs : List GraphArc} {cs : List Candidate}
    (harcs : List.Forall₂ (ArcFor num i) arcs cs)
    (hkept : ∀ c ∈ cs, ∀ k, num c.state = some k → ∃ k', ttable.getD k none = some k') :
    List.Forall₂ (ArcFor (fun d => (num d).bind fun k => ttable.getD k none) j)
      (rewriteGraphState ttable arcs) cs := by
  induction harcs with
  | nil => exact .nil
  | @cons a c arcs cs ha _ ih =>
    obtain ⟨k', hk'⟩ := hkept c List.mem_cons_self a.dest ha.dest
    have hhead : (ttable.getD a.dest none).map
        (fun dest => (⟨(ttable.getD a.src none).getD 0, dest, a.id⟩ : GraphArc)) =
          some ⟨j, k', a.id⟩ := by
      rw [hk', ha.src, hi, Option.map_some, Option.getD_some]
    simp only [rewriteGraphState, List.filterMap_cons, hhead]
    refine .cons ⟨rfl, ha.id, ?_⟩ (ih fun c hc => hkept c (List.mem_cons_of_mem _ hc))
    simp only [ha.dest, Option.bind_some, hk']

/-- Deleting the marked states leaves the states that are no dead ends. -/
theorem Represents.prune {L : Exploration} (hL : Represents x inp out L.g L.idOfState fun _ => True)
    (hlen : L.remove.length = L.g.length)
    (hmark : ∀ d i, L.idOfState d = some i → (L.marked i = true ↔ DeadEnd x inp out d))
    (hstart : ¬ DeadEnd x inp out .start) :
    Represents x inp out (shuffleRemoving (indicesAfterRemoving L.remove 0) L.g)
      (fun d => (L.idOfState d).bind fun i => (indicesAfterRemoving L.remove 0).getD i none)
      fun d => ¬ DeadEnd x inp out d := by
  have hlen' : L.g.length = L.remove.length := hlen.symm
  rw [shuffleRemoving_eq (hlen'.trans length_indicesAfterRemoving.symm)]
  -- a number and the new number, read off the table
  have hnew : ∀ {d j}, ((L.idOfState d).bind fun i =>
      (indicesAfterRemoving L.remove 0).getD i none) = some j ↔
      ∃ i, L.idOfState d = some i ∧ (indicesAfterRemoving L.remove 0)[i]? = some (some j) := by
    intro d j
    rw [Option.bind_eq_some_iff]
    refine exists_congr fun i => and_congr_right fun _ => ?_
    rw [List.getD_eq_getElem?_getD]
    cases (indicesAfterRemoving L.remove 0)[i]? <;> simp
  have hkeep : ∀ {d i}, L.idOfState d = some i →
      ((∃ j, (indicesAfterRemoving L.remove 0)[i]? = some (some j)) ↔ ¬ DeadEnd x inp out d) := by
    intro d i hd
    rw [exists_newIndex_iff (hlen ▸ hL.num_lt hd), ← hmark d i hd, Exploration.marked,
      Bool.not_eq_true]
  have hget : ∀ {d i j}, L.idOfState d = some i →
      (indicesAfterRemoving L.remove 0)[i]? = some (some j) →
      (keptStates (rewriteGraphState (indicesAfterRemoving L.remove 0))
        (indicesAfterRemoving L.remove 0) L.g)[j]? =
          some (rewriteGraphState (indicesAfterRemoving L.remove 0) (L.g.getD i [])) := by
    intro d i j hd hj
    have hi := hL.num_lt hd
    obtain ⟨-, heq⟩ := keptStates_getElem?
      (r := rewriteGraphState (indicesAfterRemoving L.remove 0)) hlen' hj
    rw [Nat.sub_zero] at heq
    rw [heq, List.getElem?_eq_getElem hi, Option.map_some, List.getD_eq_getElem?_getD,
      List.getElem?_eq_getElem hi, Option.getD_some]
  constructor
  case num_lt =>
    intro d j hd
    obtain ⟨i, hi, hj⟩ := hnew.mp hd
    exact (List.getElem?_eq_some_iff.mp (hget hi hj)).1
  case num_inj =>
    intro d d' j hd hd'
    obtain ⟨i, hi, hj⟩ := hnew.mp hd
    obtain ⟨i', hi', hj'⟩ := hnew.mp hd'
    obtain rfl := newIndex_injective hj hj'
    exact hL.num_inj hi hi'
  case onto =>
    intro j hj
    obtain ⟨i, hi⟩ := newIndex_onto hlen' hj
    rw [Nat.zero_add] at hi
    have hlt : i < L.g.length := by
      rw [hlen', ← length_indicesAfterRemoving (f := 0)]
      exact (List.getElem?_eq_some_iff.mp hi).1
    obtain ⟨d, hd⟩ := hL.onto i hlt
    exact ⟨d, hnew.mpr ⟨i, hd, hi⟩⟩
  case start =>
    obtain ⟨j, hj⟩ := (hkeep hL.start).mpr hstart
    -- the first state that stays gets number 0, and state 0 stays
    have hzero : L.remove.getD 0 false = false :=
      (exists_newIndex_iff (hlen ▸ hL.num_lt hL.start)).mp ⟨j, hj⟩
    refine hnew.mpr ⟨0, hL.start, ?_⟩
    cases hr : L.remove with
    | nil => rw [hr] at hj; simp [indicesAfterRemoving] at hj
    | cons b remove =>
      obtain rfl : b = false := by simpa [hr] using hzero
      simp [indicesAfterRemoving]
  case kept =>
    intro d
    constructor
    · rintro ⟨j, hd⟩
      obtain ⟨i, hi, hj⟩ := hnew.mp hd
      exact ⟨(hL.kept.mp ⟨i, hi⟩).1, (hkeep hi).mp ⟨j, hj⟩⟩
    · rintro ⟨hreach, hlive⟩
      obtain ⟨i, hi⟩ := hL.kept.mpr ⟨hreach, trivial⟩
      obtain ⟨j, hj⟩ := (hkeep hi).mpr hlive
      exact ⟨j, hnew.mpr ⟨i, hi, hj⟩⟩
  case arcs =>
    intro d j hd
    obtain ⟨i, hi, hj⟩ := hnew.mp hd
    have hgetD : (indicesAfterRemoving L.remove 0).getD i none = some j := by
      rw [List.getD_eq_getElem?_getD, hj, Option.getD_some]
    rw [List.getD_eq_getElem?_getD, hget hi hj, Option.getD_some, rewriteGraphState,
      ← List.filterMap_reverse]
    refine ArcFor.rewrite hgetD (hL.arcs hi) fun c hc k hk => ?_
    obtain ⟨k', hk'⟩ := (hkeep hk).mpr (mem_live.mp hc).2
    exact ⟨k', by rw [List.getD_eq_getElem?_getD, hk', Option.getD_some]⟩

end Represents

namespace Derivations

/-- The arcs out of a state, in list order. -/
def arcs (D : Derivations) (i : ℕ) : List GraphArc := D.g.getD i []

/-- The lattice as a graph. -/
def Adj (D : Derivations) (i : ℕ) (a : GraphArc) (j : ℕ) : Prop := a ∈ D.arcs i ∧ a.dest = j

/-- A path from state 0 to `fin`. -/
def IsPath (D : Derivations) (path : List GraphArc) : Prop := Accepted D.Adj (· = D.fin) 0 path

end Derivations

theorem isGoal_iff {x : WFST W} {inp out : List ℕ} {d : DerivState} :
    isGoal x inp out d = true ↔ x.final = some d.s ∧ d.i = inp.length ∧ d.o = out.length := by
  simp [isGoal]

theorem isGoal_unique {x : WFST W} {inp out : List ℕ} {d d' : DerivState}
    (hd : isGoal x inp out d = true) (hd' : isGoal x inp out d' = true) : d = d' := by
  obtain ⟨i, s, o⟩ := d
  obtain ⟨i', s', o'⟩ := d'
  obtain ⟨hs, rfl, rfl⟩ := isGoal_iff.mp hd
  obtain ⟨hs', rfl, rfl⟩ := isGoal_iff.mp hd'
  obtain rfl := Option.some.inj (hs.symm.trans hs')
  rfl

/-- The states of a transducer, positions included, from which the sequences can be finished. -/
def CanFinish (x : WFST W) (inp out : List ℕ) (d : DerivState) : Prop :=
  Productive (CandAdj x inp out) (fun d => isGoal x inp out d) d

/-- **`compute` succeeds**, reports whether the goal can be reached, and then
leaves a lattice whose final state is the goal. -/
theorem compute_spec (x : WFST W) (inp out : List ℕ) (prune : Bool) :
    ∃ D, compute x inp out prune = some D ∧ (D.noGoal = false ↔ CanFinish x inp out .start) ∧
      (D.noGoal = false → ∃ num goal,
        Represents x inp out D.g num (fun d => prune = true → ¬ DeadEnd x inp out d) ∧
          isGoal x inp out goal = true ∧ num goal = some D.fin) := by
  obtain ⟨L, hrun, hlen, hmark, hL⟩ := exists_exploration x inp out
  have hrun' : compute x inp out prune =
      (x.final.bind fun final => L.idOfState ⟨inp.length, final, out.length⟩).elim (some .empty)
        fun fin => some (if prune then .prune L.g L.remove fin else ⟨L.g, fin, false⟩) := by
    rw [compute]
    change (derive x inp out (deriveFuel x inp out) DerivState.start .empty).bind _ = _
    rw [hrun]
    simp only [Option.bind_some]
    cases x.final.bind fun final => L.idOfState ⟨inp.length, final, out.length⟩ <;> rfl
  cases hfin : x.final.bind fun final => L.idOfState ⟨inp.length, final, out.length⟩ with
  | none =>
    refine ⟨.empty, by rw [hrun', hfin, Option.elim_none], ?_, by simp [Derivations.empty]⟩
    simp only [Derivations.empty, Bool.true_eq_false, false_iff]
    rintro ⟨cs, ⟨i, s, o⟩, hwalk, hgoal⟩
    obtain ⟨hs, rfl, rfl⟩ := isGoal_iff.mp hgoal
    obtain ⟨j, hj⟩ := hL.kept.mpr ⟨⟨cs, hwalk⟩, trivial⟩
    rw [hs, Option.bind_some, hj] at hfin
    cases hfin
  | some fin =>
    obtain ⟨s, hs, hgoalNum⟩ := Option.bind_eq_some_iff.mp hfin
    have hgoal : isGoal x inp out ⟨inp.length, s, out.length⟩ = true :=
      isGoal_iff.mpr ⟨hs, rfl, rfl⟩
    obtain ⟨⟨cs, hwalk⟩, -⟩ := hL.kept.mp ⟨fin, hgoalNum⟩
    have hfinish : CanFinish x inp out .start := ⟨cs, _, hwalk, hgoal⟩
    refine ⟨_, by rw [hrun', hfin, Option.elim_some], ?_, fun _ => ?_⟩
    · cases prune <;> simp [Derivations.prune, hfinish]
    · cases prune with
      | false =>
        have hkeep : (fun d => false = true → ¬ DeadEnd x inp out d) = fun _ => True := by
          funext d
          simp
        exact ⟨L.idOfState, _, hkeep ▸ hL, hgoal, hgoalNum⟩
      | true =>
        have hlive : ∀ {d}, CanFinish x inp out d → ¬ DeadEnd x inp out d :=
          fun hd hdead => hdead.not_productive hd
        have hpruned := hL.prune hlen hmark (hlive hfinish)
        have hkeep : (fun d => true = true → ¬ DeadEnd x inp out d) =
            fun d => ¬ DeadEnd x inp out d := by
          funext d
          simp
        refine ⟨_, _, hkeep ▸ hpruned, hgoal, ?_⟩
        obtain ⟨j, hj⟩ := hpruned.kept.mpr ⟨⟨cs, hwalk⟩, hlive ⟨[], _, .nil _, hgoal⟩⟩
        rw [hj]
        rw [hgoalNum, Option.bind_some] at hj
        simp only [if_true, Derivations.prune, hj, Option.getD_some]

end Carmel
