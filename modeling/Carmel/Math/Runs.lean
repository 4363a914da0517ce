/-
# Runs of a machine with guarded steps

A machine does one action at a time, and some actions are not possible in some
states. A guard says of which actions a run is made up. What holds at the start
and is kept by every action that the guard allows holds in every state reached.
-/

import Carmel.Math.Instances

namespace Carmel.Math

universe u v

variable {S : Type u} {A : Type v}

/-- The states that actions allowed by `ok` lead to. -/
inductive Runs (step : A → S → Option S) (ok : A → S → Prop) (s : S) : S → Prop
  | /-- No action was done. -/
    start : Runs step ok s s
  | /-- One more action. -/
    step {t u : S} (before : Runs step ok s t) (a : A) (allowed : ok a t) (next : step a t = some u) :
      Runs step ok s u

namespace Runs

variable {step : A → S → Option S} {ok : A → S → Prop} {P : S → Prop} {s t : S}

/-- **Invariants**: what every allowed action keeps holds in every state reached. -/
theorem invariant (run : Runs step ok s t) (hstart : P s)
    (hstep : ∀ a t u, P t → ok a t → step a t = some u → P u) : P t := by
  induction run with
  | start => exact hstart
  | step _ a allowed next ih => exact hstep a _ _ ih allowed next

theorem head {u : S} {a : A} (hok : ok a s) (hnext : step a s = some t) (run : Runs step ok t u) :
    Runs step ok s u := by
  induction run with
  | start => exact Runs.start.step a hok hnext
  | step _ a allowed next ih => exact ih.step a allowed next

end Runs

end Carmel.Math

/-!
## Programs and what they return

A machine runs a program in place of another one if it returns the same as long as each
command is done under a guard.
-/

namespace Carmel.Math

universe u v w

section Programs

variable {C : Type u} {R : Type v} {S S' : Type w}

/-- The commands of a program in turn, with what they return. -/
def runProgram (step : C → S → Option (R × S)) : List C → S → Option (List R × S)
  | [], s => some ([], s)
  | c :: cs, s => (step c s).bind fun y => (runProgram step cs y.2).map fun z => (y.1 :: z.1, z.2)

/-- Every command is done under its guard. -/
def Guarded (step : C → S → Option (R × S)) (ok : C → S → Prop) : List C → S → Prop
  | [], _ => True
  | c :: cs, s => ok c s ∧ ∀ y, step c s = some y → Guarded step ok cs y.2

variable {step : C → S → Option (R × S)} {step' : C → S' → Option (R × S')} {ok : C → S → Prop}
variable {c : C} {cs : List C} {s : S} {s' : S'}

theorem Guarded.cons {y : R × S} (hok : ok c s) (hy : step c s = some y)
    (hcs : Guarded step ok cs y.2) : Guarded step ok (c :: cs) s := by
  refine ⟨hok, fun z hz => ?_⟩
  rw [hy] at hz
  cases hz
  exact hcs

/-- **Simulation**: if each command under its guard returns what the other machine returns
and keeps the states related, so does a program. -/
theorem Guarded.runProgram (hguarded : Guarded step ok cs s) (rel : S → S' → Prop)
    (hstep : ∀ c s s', rel s s' → ok c s → ∀ y, step' c s' = some y →
      ∃ t, step c s = some (y.1, t) ∧ rel t y.2)
    (hrel : rel s s') {results : List R} {t' : S'}
    (hrun : Math.runProgram step' cs s' = some (results, t')) :
    ∃ t, Math.runProgram step cs s = some (results, t) ∧ rel t t' := by
  induction cs generalizing s s' results with
  | nil =>
    cases hrun
    exact ⟨s, rfl, hrel⟩
  | cons c cs ih =>
    rcases Option.bind_eq_some_iff.mp hrun with ⟨y, hy, hrest⟩
    rcases Option.map_eq_some_iff.mp hrest with ⟨z, hz, heq⟩
    cases heq
    rcases hstep c s s' hrel hguarded.1 y hy with ⟨t, ht, hnext⟩
    rcases ih (hguarded.2 _ ht) hnext hz with ⟨u, hu, hend⟩
    refine ⟨u, ?_, hend⟩
    rw [Math.runProgram, ht, Option.bind_some, hu, Option.map_some]

end Programs

section Variables

variable {N : Type u} [DecidableEq N] {X : Type v} {Y : Type w} {rel : X → Y → Prop}
variable {s : N → Option X} {t : N → Option Y}

theorem rel_update (h : ∀ r, Option.Rel rel (s r) (t r)) (r : N) {x : X} {y : Y} (hxy : rel x y) :
    ∀ q, Option.Rel rel (Function.update s r (some x) q) (Function.update t r (some y) q) := by
  intro q
  by_cases hq : q = r
  · subst hq
    rw [Function.update_self, Function.update_self]
    exact .some hxy
  · rw [Function.update_of_ne hq, Function.update_of_ne hq]
    exact h q

omit [DecidableEq N] in
theorem exists_of_rel (h : ∀ r, Option.Rel rel (s r) (t r)) {r : N} {y : Y} (hy : t r = some y) :
    ∃ x, s r = some x ∧ rel x y := by
  have hr := h r
  rw [hy] at hr
  generalize hs : s r = o at hr
  cases hr with
  | some hxy => exact ⟨_, rfl, hxy⟩

end Variables

end Carmel.Math
