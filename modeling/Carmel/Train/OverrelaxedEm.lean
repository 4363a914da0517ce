/-
# Overrelaxed EM

`overrelaxed_em` runs whatever can estimate, maximize and keep weights, with restarts from
random weights, and keeps the estimate with the highest average; a result that is not a
number compares with nothing. The state lists the estimates made, each with the executor
before it; the program does not read this list.
-/

import Carmel.Math.Instances

namespace Carmel

universe u v w

/-- An average log probability: `-HUGE_VAL`, not a number, or a number. -/
inductive Alp (L : Type v)
  | negHuge
  | nan
  | val (x : L)
deriving DecidableEq

namespace Alp

variable {L : Type v} [Field L] [LinearOrder L]

/-- `x > y`. -/
def gt : Alp L → Alp L → Bool
  | val x, val y => decide (y < x)
  | val _, negHuge => true
  | _, _ => false

omit [Field L] in
theorem gt_self (x : Alp L) : x.gt x = false := by
  cases x <;> simp [gt]

omit [Field L] in
theorem gt_of_gt {x y z : Alp L} (h : y.gt x = true) (hz : z.gt x = false) : z.gt y = false := by
  cases x <;> cases y <;> cases z <;> simp_all [gt]
  exact hz.trans h.le

/-- `LOGPROB_EPSILON`. -/
def logprobEpsilon : L := (1 / 2) ^ 52

/-- `rel_dpp < rel_eps` for the estimates after the first. -/
def relDppBelow (relEps : L) : Alp L → Alp L → Bool
  | val new, val last => decide ((new - last) / max |last| logprobEpsilon < relEps)
  | _, _ => false

end Alp

/-- `EM_executor`. -/
structure EMExecutor (σ : Type u) (L : Type v) where
  randomize : σ → σ
  estimate : Bool → σ → Alp L × σ
  maximize : L → σ → L × σ
  undoMaximize : σ → σ
  convergeEm : σ → σ
  saveBest : σ → σ
  restoreBest : σ → σ

/-- The arguments of `overrelaxed_em`. -/
structure EMArgs (L : Type v) where
  maxIter : ℕ
  convergeRelativeAvgLogprobEpsilon : L
  ranRestarts : ℕ
  convergeParamDelta : L
  learningRateGrowthFactor : L

/-- An estimate that was made. -/
structure EMEstimate (σ : Type u) (L : Type v) where
  run : ℕ
  before : σ
  alp : Alp L

/-- The variables of `overrelaxed_em`, with the number of the run and the estimates so far. -/
structure EMState (σ : Type u) (L : Type v) where
  exec : σ
  bestAlp : Alp L
  veryFirstTime : Bool
  lastAlp : Alp L
  learningRate : L
  firstTime : Bool
  lastWasReset : Bool
  run : ℕ
  history : List (EMEstimate σ L)

namespace EMExecutor

variable {σ : Type u} {L : Type v} [Field L] [LinearOrder L] (E : EMExecutor σ L) (args : EMArgs L)

/-- `MAX_LEARNING_RATE_EXP`. -/
def maxLearningRateExp : L := 20

/-- The variables of the inner loop. -/
def enter (s : EMState σ L) : EMState σ L :=
  { s with
    lastAlp := .negHuge
    learningRate := 1
    firstTime := true
    lastWasReset := false }

/-- The estimate, which is kept if it is the best one. -/
def estimated (s : EMState σ L) : Alp L × EMState σ L :=
  let (newAlp, exec) := E.estimate s.veryFirstTime s.exec
  let history := s.history ++ [⟨s.run, s.exec, newAlp⟩]
  if newAlp.gt s.bestAlp || s.veryFirstTime then
    (newAlp, { s with
      exec := E.saveBest exec
      bestAlp := newAlp
      veryFirstTime := false
      history := history })
  else (newAlp, { s with exec := exec, veryFirstTime := false, history := history })

/-- The maximization; the flag tells to leave the loop. -/
def maximizeStep (newAlp : Alp L) (s : EMState σ L) : EMState σ L × Bool :=
  let (maxDelta, exec) := E.maximize s.learningRate s.exec
  if maxDelta ≤ args.convergeParamDelta then ({ s with exec := exec }, true)
  else ({ s with exec := exec, lastAlp := newAlp }, false)

def raiseRate (s : EMState σ L) : EMState σ L :=
  { s with learningRate :=
      if s.learningRate < maxLearningRateExp then s.learningRate * args.learningRateGrowthFactor
      else s.learningRate }

/-- One iteration of the inner loop. -/
def iteration (s : EMState σ L) : EMState σ L × Bool :=
  let (newAlp, s) := E.estimated s
  let below := !s.firstTime && newAlp.relDppBelow args.convergeRelativeAvgLogprobEpsilon s.lastAlp
  let s := { s with firstTime := false }
  if s.lastWasReset then E.maximizeStep args newAlp { s with lastWasReset := false }
  else if below then
    if 1 < s.learningRate then
      ({ s with exec := E.undoMaximize s.exec, learningRate := 1, lastWasReset := true }, false)
    else (s, true)
  else E.maximizeStep args newAlp (raiseRate args s)

/-- The inner loop, with so many iterations left. -/
def innerLoop : ℕ → EMState σ L → EMState σ L
  | 0, s => s
  | left + 1, s =>
    let (s, leave) := E.iteration args s
    if leave then s else innerLoop left s

/-- One run from the weights there are. -/
def oneRun (s : EMState σ L) : EMState σ L :=
  let s := E.innerLoop args args.maxIter (enter s)
  { s with exec := E.convergeEm s.exec }

/-- The runs, with so many restarts left. -/
def restartLoop : ℕ → EMState σ L → EMState σ L
  | 0, s => E.oneRun args s
  | restarts + 1, s =>
    let s := E.oneRun args s
    restartLoop restarts { s with exec := E.randomize s.exec, run := s.run + 1 }

def start (exec : σ) : EMState σ L := ⟨exec, .negHuge, true, .negHuge, 1, true, false, 0, []⟩

/-- `overrelaxed_em`: the value that it returns, and the state that it leaves. -/
def overrelaxedEm (exec : σ) : Alp L × EMState σ L :=
  if args.maxIter = 0 then (.negHuge, start exec)
  else
    let s := E.restartLoop args args.ranRestarts (start exec)
    (s.bestAlp, { s with exec := E.restoreBest s.exec })

variable {s t : EMState σ L} {J : σ → Prop}

/-- What `estimated` does: the new estimate is the best one, or it is not. -/
structure EstimatedSpec (E : EMExecutor σ L) (s t : EMState σ L) : Prop where
  kept : ((E.estimate s.veryFirstTime s.exec).1.gt s.bestAlp || s.veryFirstTime) = true ∧
      t.exec = E.saveBest (E.estimate s.veryFirstTime s.exec).2 ∧
      t.bestAlp = (E.estimate s.veryFirstTime s.exec).1 ∨
    ((E.estimate s.veryFirstTime s.exec).1.gt s.bestAlp || s.veryFirstTime) = false ∧
      t.exec = (E.estimate s.veryFirstTime s.exec).2 ∧ t.bestAlp = s.bestAlp
  veryFirstTime : t.veryFirstTime = false
  run : t.run = s.run
  history : t.history = s.history ++ [⟨s.run, s.exec, (E.estimate s.veryFirstTime s.exec).1⟩]

omit [Field L] in
theorem estimated_spec (E : EMExecutor σ L) (s : EMState σ L) :
    EstimatedSpec E s (E.estimated s).2 := by
  unfold estimated
  by_cases h : ((E.estimate s.veryFirstTime s.exec).1.gt s.bestAlp || s.veryFirstTime) = true
  · simp only [h, if_true]
    exact ⟨.inl ⟨h, rfl, rfl⟩, rfl, rfl, rfl⟩
  · simp only [h]
    exact ⟨.inr ⟨by simpa using h, rfl, rfl⟩, rfl, rfl, rfl⟩

/-- After the estimate the executor may maximize or take a maximization back; what is
known of the estimates does not change any more. -/
structure Follows (E : EMExecutor σ L) (t s : EMState σ L) : Prop where
  exec : s.exec = t.exec ∨ s.exec = E.undoMaximize t.exec ∨ ∃ rate, s.exec = (E.maximize rate t.exec).2
  bestAlp : s.bestAlp = t.bestAlp
  veryFirstTime : s.veryFirstTime = t.veryFirstTime
  run : s.run = t.run
  history : s.history = t.history

omit [Field L] in
theorem follows_maximizeStep (newAlp : Alp L) (t : EMState σ L) :
    Follows E t (E.maximizeStep args newAlp t).1 := by
  unfold maximizeStep
  by_cases h : (E.maximize t.learningRate t.exec).1 ≤ args.convergeParamDelta
  · simp only [h, if_true]
    exact ⟨.inr (.inr ⟨_, rfl⟩), rfl, rfl, rfl, rfl⟩
  · simp only [h, if_false]
    exact ⟨.inr (.inr ⟨_, rfl⟩), rfl, rfl, rfl, rfl⟩

theorem follows_iteration (s : EMState σ L) :
    Follows E (E.estimated s).2 (E.iteration args s).1 := by
  unfold iteration
  generalize E.estimated s = out
  obtain ⟨newAlp, t⟩ := out
  have hmaximize : ∀ u : EMState σ L, Follows E u (E.maximizeStep args newAlp u).1 :=
    follows_maximizeStep E args newAlp
  simp only
  split_ifs with hreset hbelow hrate
  · have h := hmaximize { t with firstTime := false, lastWasReset := false }
    exact ⟨h.exec, h.bestAlp, h.veryFirstTime, h.run, h.history⟩
  · exact ⟨.inr (.inl rfl), rfl, rfl, rfl, rfl⟩
  · exact ⟨.inl rfl, rfl, rfl, rfl, rfl⟩
  · have h := hmaximize (raiseRate args { t with firstTime := false })
    exact ⟨h.exec, h.bestAlp, h.veryFirstTime, h.run, h.history⟩

/-- The estimates that were made in a run. -/
def madeIn (s : EMState σ L) (k : ℕ) : ℕ := (s.history.filter (·.run = k)).length

theorem madeIn_iteration (s : EMState σ L) (k : ℕ) : madeIn (E.iteration args s).1 k =
    madeIn s k + if k = s.run then 1 else 0 := by
  unfold madeIn
  rw [(follows_iteration E args s).history, (E.estimated_spec s).history, List.filter_append,
    List.length_append]
  by_cases hk : k = s.run
  · simp [hk]
  · simp [hk, Ne.symm hk]

theorem iteration_run (s : EMState σ L) : (E.iteration args s).1.run = s.run := by
  rw [(follows_iteration E args s).run, (E.estimated_spec s).run]

theorem madeIn_innerLoop (left : ℕ) (s : EMState σ L) : (E.innerLoop args left s).run = s.run ∧
    ∀ k, madeIn (E.innerLoop args left s) k ≤ madeIn s k + if k = s.run then left else 0 := by
  induction left generalizing s with
  | zero => exact ⟨rfl, fun k => by simp [innerLoop]⟩
  | succ left ih =>
    have hmade := madeIn_iteration E args s
    have hrun := iteration_run E args s
    rw [innerLoop]
    by_cases hleave : (E.iteration args s).2 = true
    · simp only [hleave, if_true]
      refine ⟨hrun, ?_⟩
      intro k
      rw [hmade k]
      split_ifs <;> omega
    · simp only [hleave, Bool.false_eq_true, if_false]
      obtain ⟨hlast, hothers⟩ := ih (E.iteration args s).1
      refine ⟨hlast.trans hrun, ?_⟩
      intro k
      have := hothers k
      rw [hmade k, hrun] at this
      split_ifs at this ⊢ <;> omega

theorem madeIn_restartLoop (restarts : ℕ) {s : EMState σ L} (hlater : ∀ k, s.run ≤ k → madeIn s k = 0)
    (hmade : ∀ k, madeIn s k ≤ args.maxIter) :
    ∀ k, madeIn (E.restartLoop args restarts s) k ≤ args.maxIter := by
  have hrun : ∀ {s : EMState σ L}, (∀ k, s.run ≤ k → madeIn s k = 0) →
      (∀ k, madeIn s k ≤ args.maxIter) → (E.oneRun args s).run = s.run ∧
        (∀ k, madeIn (E.oneRun args s) k ≤ args.maxIter) ∧
        ∀ k, s.run < k → madeIn (E.oneRun args s) k = 0 := by
    intro s hlater hmade
    obtain ⟨hrun, hinner⟩ := madeIn_innerLoop E args args.maxIter (enter s)
    refine ⟨hrun, ?_, ?_⟩
    · intro k
      refine (hinner k).trans ?_
      show madeIn s k + (if k = s.run then args.maxIter else 0) ≤ _
      by_cases hk : k = s.run
      · rw [if_pos hk, hk, hlater _ (Nat.le_refl _), Nat.zero_add]
      · rw [if_neg hk]
        exact hmade k
    · intro k hk
      have h : madeIn (E.oneRun args s) k ≤ madeIn s k + if k = s.run then args.maxIter else 0 :=
        hinner k
      rw [hlater k hk.le, if_neg (by omega)] at h
      exact Nat.le_zero.mp h
  induction restarts generalizing s with
  | zero => exact (hrun hlater hmade).2.1
  | succ restarts ih =>
    obtain ⟨hsame, hall, hnone⟩ := hrun hlater hmade
    apply ih
    · intro k hk
      apply hnone
      change (E.oneRun args s).run + 1 ≤ k at hk
      omega
    · exact hall

variable {E} {args}

/-- What is known of an executor at all times, and how it keeps weights. -/
structure KeepsBest (E : EMExecutor σ L) {W : Type w} (J : σ → Prop) (weights best : σ → W) : Prop where
  estimate : ∀ first x, J x → J (E.estimate first x).2 ∧
    weights (E.estimate first x).2 = weights x ∧ best (E.estimate first x).2 = best x
  saveBest : ∀ x, J x → J (E.saveBest x) ∧ best (E.saveBest x) = weights x
  maximize : ∀ rate x, J x → J (E.maximize rate x).2 ∧ best (E.maximize rate x).2 = best x
  undoMaximize : ∀ x, J x → J (E.undoMaximize x) ∧ best (E.undoMaximize x) = best x
  convergeEm : ∀ x, J x → J (E.convergeEm x) ∧ best (E.convergeEm x) = best x
  randomize : ∀ x, J x → J (E.randomize x) ∧ best (E.randomize x) = best x
  restoreBest : ∀ x, weights (E.restoreBest x) = best x

variable {W : Type w} {weights best : σ → W}

/-- The estimate whose weights are kept: no other one is better. -/
def IsBest (weights best : σ → W) (s : EMState σ L) : Prop :=
  ∃ e ∈ s.history, best s.exec = weights e.before ∧ s.bestAlp = e.alp ∧
    ∀ e' ∈ s.history, e'.alp.gt e.alp = false

/-- The state between two iterations. -/
structure Kept (E : EMExecutor σ L) (J : σ → Prop) (weights best : σ → W) (s : EMState σ L) : Prop where
  inv : J s.exec
  made : ∀ e ∈ s.history, J e.before ∧ ∃ first, e.alp = (E.estimate first e.before).1
  best : s.veryFirstTime = true ∧ s.history = [] ∨ s.veryFirstTime = false ∧ IsBest weights best s

omit [Field L] in
theorem Kept.of_exec (h : Kept E J weights best s) {x : σ} (hx : J x) (hbest : best x = best s.exec)
    (hexec : t.exec = x) (halp : t.bestAlp = s.bestAlp) (hfirst : t.veryFirstTime = s.veryFirstTime)
    (hhistory : t.history = s.history) : Kept E J weights best t := by
  refine ⟨hexec ▸ hx, hhistory ▸ h.made, ?_⟩
  rw [hfirst, hhistory]
  rcases h.best with hnone | ⟨hlater, e, he, hweights, hbestAlp, hall⟩
  · exact .inl hnone
  · refine .inr ⟨hlater, e, hhistory ▸ he, ?_, halp.trans hbestAlp, hhistory ▸ hall⟩
    rw [hexec, hbest, hweights]

omit [Field L] in
theorem Kept.estimated (hE : KeepsBest E J weights best) (h : Kept E J weights best s) :
    Kept E J weights best (E.estimated s).2 := by
  have hspec := E.estimated_spec s
  obtain ⟨hinv, hweights, hbest⟩ := hE.estimate s.veryFirstTime s.exec h.inv
  have hmade : ∀ e ∈ (E.estimated s).2.history,
      J e.before ∧ ∃ first, e.alp = (E.estimate first e.before).1 := by
    intro e he
    rw [hspec.history, List.mem_append, List.mem_singleton] at he
    rcases he with he | rfl
    · exact h.made e he
    · exact ⟨h.inv, s.veryFirstTime, rfl⟩
  rcases hspec.kept with ⟨hnew, hexec, halp⟩ | ⟨hold, hexec, halp⟩
  · obtain ⟨hsaved, hkept⟩ := hE.saveBest _ hinv
    refine ⟨hexec ▸ hsaved, hmade, .inr ⟨hspec.veryFirstTime,
      ⟨s.run, s.exec, (E.estimate s.veryFirstTime s.exec).1⟩, ?_, ?_, halp, ?_⟩⟩
    · rw [hspec.history]
      exact List.mem_append_right _ (List.mem_singleton.mpr rfl)
    · rw [hexec, hkept, hweights]
    · intro e' he'
      rw [hspec.history, List.mem_append, List.mem_singleton] at he'
      rcases he' with he' | rfl
      · rcases h.best with ⟨_, hnone⟩ | ⟨hlater, e, _, _, hbestAlp, hall⟩
        · rw [hnone] at he'
          simp at he'
        · rw [Bool.or_eq_true, hlater] at hnew
          have hgt := hnew.resolve_right (by simp)
          rw [hbestAlp] at hgt
          rw [hlater]
          exact Alp.gt_of_gt hgt (hall e' he')
      · exact Alp.gt_self _
  · rw [Bool.or_eq_false_iff] at hold
    rcases h.best with ⟨hfirst, _⟩ | ⟨_, e, he, hweights', hbestAlp, hall⟩
    · rw [hfirst] at hold
      cases hold.2
    · refine ⟨hexec ▸ hinv, hmade, .inr ⟨hspec.veryFirstTime, e, ?_, ?_, halp.trans hbestAlp, ?_⟩⟩
      · rw [hspec.history]
        exact List.mem_append_left _ he
      · rw [hexec, hbest, hweights']
      · intro e' he'
        rw [hspec.history, List.mem_append, List.mem_singleton] at he'
        rcases he' with he' | rfl
        · exact hall e' he'
        · rw [← hbestAlp]
          exact hold.1

variable (args) in
theorem Kept.iteration (hE : KeepsBest E J weights best) (h : Kept E J weights best s) :
    Kept E J weights best (E.iteration args s).1 := by
  have hestimated := h.estimated hE
  have hfollows := follows_iteration E args s
  rcases hfollows.exec with hexec | hexec | ⟨rate, hexec⟩
  · exact hestimated.of_exec hestimated.inv rfl hexec hfollows.bestAlp hfollows.veryFirstTime
      hfollows.history
  · obtain ⟨hinv, hbest⟩ := hE.undoMaximize _ hestimated.inv
    exact hestimated.of_exec hinv hbest hexec hfollows.bestAlp hfollows.veryFirstTime
      hfollows.history
  · obtain ⟨hinv, hbest⟩ := hE.maximize rate _ hestimated.inv
    exact hestimated.of_exec hinv hbest hexec hfollows.bestAlp hfollows.veryFirstTime
      hfollows.history

variable (args) in
theorem Kept.innerLoop (hE : KeepsBest E J weights best) (left : ℕ) (h : Kept E J weights best s) :
    Kept E J weights best (E.innerLoop args left s) := by
  induction left generalizing s with
  | zero => exact h
  | succ left ih =>
    rw [EMExecutor.innerLoop]
    by_cases hleave : (E.iteration args s).2 = true
    · simp only [hleave, if_true]
      exact h.iteration args hE
    · simp only [hleave, Bool.false_eq_true, if_false]
      exact ih (h.iteration args hE)

variable (args) in
theorem Kept.oneRun (hE : KeepsBest E J weights best) (h : Kept E J weights best s) :
    Kept E J weights best (E.oneRun args s) := by
  have henter : Kept E J weights best (enter s) :=
    h.of_exec h.inv rfl rfl rfl rfl rfl
  have hinner := henter.innerLoop args hE args.maxIter
  obtain ⟨hinv, hbest⟩ := hE.convergeEm _ hinner.inv
  exact hinner.of_exec hinv hbest rfl rfl rfl rfl

variable (args) in
theorem Kept.restartLoop (hE : KeepsBest E J weights best) (restarts : ℕ)
    (h : Kept E J weights best s) : Kept E J weights best (E.restartLoop args restarts s) := by
  induction restarts generalizing s with
  | zero => exact h.oneRun args hE
  | succ restarts ih =>
    have hrun := h.oneRun args hE
    obtain ⟨hinv, hbest⟩ := hE.randomize _ hrun.inv
    exact ih (hrun.of_exec hinv hbest rfl rfl rfl rfl)

variable (E args) in
theorem veryFirstTime_iteration (s : EMState σ L) :
    (E.iteration args s).1.veryFirstTime = false :=
  (follows_iteration E args s).veryFirstTime.trans (E.estimated_spec s).veryFirstTime

theorem veryFirstTime_innerLoop {left : ℕ} (h : s.veryFirstTime = false ∨ 0 < left) :
    (E.innerLoop args left s).veryFirstTime = false := by
  induction left generalizing s with
  | zero => exact h.resolve_right (Nat.lt_irrefl 0)
  | succ left ih =>
    rw [innerLoop]
    by_cases hleave : (E.iteration args s).2 = true
    · simp only [hleave, if_true]
      exact veryFirstTime_iteration E args s
    · simp only [hleave, Bool.false_eq_true, if_false]
      exact ih (.inl (veryFirstTime_iteration E args s))

variable (E) in
theorem veryFirstTime_restartLoop (hmax : 0 < args.maxIter) (restarts : ℕ) (s : EMState σ L) :
    (E.restartLoop args restarts s).veryFirstTime = false := by
  induction restarts generalizing s with
  | zero => exact veryFirstTime_innerLoop (.inr hmax)
  | succ restarts ih => exact ih _

variable (args) in
/-- What `overrelaxed_em` returns, in terms of the estimates that it has made. -/
theorem overrelaxedEm_spec (hE : KeepsBest E J weights best) (hmax : 0 < args.maxIter) {x : σ}
    (hx : J x) :
    let result := E.overrelaxedEm args x
    (∀ k, madeIn result.2 k ≤ args.maxIter) ∧
      (∀ e ∈ result.2.history, J e.before ∧ ∃ first, e.alp = (E.estimate first e.before).1) ∧
      ∃ e ∈ result.2.history, weights result.2.exec = weights e.before ∧ result.1 = e.alp ∧
        ∀ e' ∈ result.2.history, e'.alp.gt e.alp = false := by
  intro result
  have hresult : result = ((E.restartLoop args args.ranRestarts (start x)).bestAlp,
      { E.restartLoop args args.ranRestarts (start x) with
        exec := E.restoreBest (E.restartLoop args args.ranRestarts (start x)).exec }) :=
    if_neg hmax.ne'
  have hkept := Kept.restartLoop args hE args.ranRestarts
    (s := start x) ⟨hx, fun e he => by simp [start] at he, .inl ⟨rfl, rfl⟩⟩
  have hfirst := veryFirstTime_restartLoop E hmax args.ranRestarts (start x)
  rw [hresult]
  refine ⟨madeIn_restartLoop E args args.ranRestarts ?_ ?_, hkept.made, ?_⟩
  · intro k _
    rfl
  · intro k
    exact Nat.zero_le _
  · rcases hkept.best with ⟨hnone, _⟩ | ⟨_, e, he, hweights, halp, hall⟩
    · rw [hfirst] at hnone
      cases hnone
    · exact ⟨e, he, (hE.restoreBest _).trans hweights, halp, hall⟩

variable (E) in
theorem history_oneRun (hmax : args.maxIter = 1) (s : EMState σ L) : (E.oneRun args s).history =
    s.history ++ [⟨s.run, s.exec, (E.estimate s.veryFirstTime s.exec).1⟩] := by
  have hinner : E.innerLoop args 1 (enter s) = (E.iteration args (enter s)).1 := by
    rw [innerLoop]
    by_cases hleave : (E.iteration args (enter s)).2 = true
    · simp only [hleave, if_true]
    · simp only [hleave, Bool.false_eq_true, if_false]
      rfl
  show (E.innerLoop args args.maxIter (enter s)).history = _
  rw [hmax, hinner, (follows_iteration E args (enter s)).history, (E.estimated_spec (enter s)).history]
  rfl

variable (E args) in
theorem history_overrelaxedEm (hmax : args.maxIter = 1) (hrestarts : args.ranRestarts = 1) (x : σ) :
    ∃ y, (E.overrelaxedEm args x).2.history = [⟨0, x, (E.estimate true x).1⟩,
      ⟨1, E.randomize y, (E.estimate false (E.randomize y)).1⟩] := by
  have hfirst := history_oneRun E hmax (start x)
  have hrun : (E.oneRun args (start x)).run = 0 := (madeIn_innerLoop E args args.maxIter _).1
  have hlater : (E.oneRun args (start x)).veryFirstTime = false :=
    veryFirstTime_innerLoop (.inr (by omega))
  have hresult : (E.overrelaxedEm args x).2.history =
      (E.restartLoop args args.ranRestarts (start x)).history := by
    unfold overrelaxedEm
    rw [if_neg (by omega)]
  refine ⟨(E.oneRun args (start x)).exec, ?_⟩
  rw [hresult, hrestarts, restartLoop, restartLoop, history_oneRun E hmax, hfirst, hrun, hlater]
  rfl

end EMExecutor

end Carmel
