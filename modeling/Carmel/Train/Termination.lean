/-
# When training ends

Every way out of the training loop but one asks for good weights, and only an estimate below
an infinite perplexity makes weights good. So the loop ends in time exactly when it has good
weights already, gives up the restart, or meets a finite perplexity among its first
estimates.
-/

import Carmel.Train.TrainLoop

namespace Carmel.Trainer

universe u v

variable {P : Type v} {F : Type u} [Field F] [LinearOrder F] [IsStrictOrderedRing F]
variable {L : Trainer P F} {prior : Weights F} {no : ℕ} {s t : TrainState P F}

theorem innerLoop_leave (h : (L.iteration prior no s).2 = true) (fuel : ℕ) :
    L.innerLoop prior no (fuel + 1) s = some (L.iteration prior no s).1 := by
  rw [innerLoop]
  dsimp only
  rw [if_pos h]

theorem innerLoop_stay (h : (L.iteration prior no s).2 = false) (fuel : ℕ) :
    L.innerLoop prior no (fuel + 1) s = L.innerLoop prior no fuel (L.iteration prior no s).1 := by
  rw [innerLoop]
  dsimp only
  rw [h, if_neg Bool.false_ne_true]

theorem innerLoop_mono {fuel fuel' : ℕ} (hle : fuel ≤ fuel')
    (hrun : L.innerLoop prior no fuel s = some t) : L.innerLoop prior no fuel' s = some t := by
  induction fuel generalizing s fuel' with
  | zero => cases hrun
  | succ fuel ih =>
    obtain ⟨fuel', rfl⟩ : ∃ n, fuel' = n + 1 := ⟨fuel' - 1, by omega⟩
    cases hleave : (L.iteration prior no s).2 with
    | true => rwa [innerLoop_leave hleave] at hrun ⊢
    | false =>
      rw [innerLoop_stay hleave] at hrun ⊢
      exact ih (by omega) hrun

/-- What holds before the first iteration and after every one that does not leave the loop leads
to what holds when the loop is left. -/
theorem innerLoop_invariant {I J : TrainState P F → Prop}
    (hstay : ∀ s, I s → (L.iteration prior no s).2 = false → I (L.iteration prior no s).1)
    (hleave : ∀ s, I s → (L.iteration prior no s).2 = true → J (L.iteration prior no s).1)
    {fuel : ℕ} (hs : I s) (hrun : L.innerLoop prior no fuel s = some t) : J t := by
  induction fuel generalizing s with
  | zero => cases hrun
  | succ fuel ih =>
    cases hend : (L.iteration prior no s).2 with
    | true =>
      rw [innerLoop_leave hend] at hrun
      exact Option.some.inj hrun ▸ hleave s hs hend
    | false =>
      rw [innerLoop_stay hend] at hrun
      exact ih (hstay s hs hend) hrun

/-- The inner loop ends, after at most `n` more estimates. -/
def EndsWithin (L : Trainer P F) (prior : Weights F) (no n : ℕ) (s : TrainState P F) : Prop :=
  ∃ fuel t, L.innerLoop prior no fuel s = some t ∧ t.history.length ≤ s.history.length + n

theorem iteration_stays (h : (L.iteration prior no s).2 = false) :
    ¬ L.AtLimit s ∧ ¬ L.Rejected no (L.newPerplexity s) (L.estimated s) ∧
      After L (L.estimated s) (L.iteration prior no s) := by
  rcases iteration_cases L prior no s with
    ⟨-, heq⟩ | ⟨-, -, heq⟩ | hafter
  · rw [heq] at h
    cases h
  · rw [heq] at h
    cases h
  · exact hafter

theorem EndsWithin.step {n : ℕ} (h : (L.iteration prior no s).2 = false)
    (hnext : L.EndsWithin prior no n (L.iteration prior no s).1) : L.EndsWithin prior no (n + 1) s := by
  obtain ⟨-, -, hafter⟩ := iteration_stays h
  obtain ⟨fuel, t, hrun, hlen⟩ := hnext
  refine ⟨fuel + 1, t, (innerLoop_stay h fuel).trans hrun, ?_⟩
  rw [hafter.sameBest.history, length_estimated_history] at hlen
  omega

theorem EndsWithin.mono {n n' : ℕ} (h : L.EndsWithin prior no n s) (hle : n ≤ n') :
    L.EndsWithin prior no n' s := by
  obtain ⟨fuel, t, hrun, hlen⟩ := h
  exact ⟨fuel, t, hrun, by omega⟩

theorem length_history_iteration :
    (L.iteration prior no s).1.history.length ≤ s.history.length + 1 := by
  rcases iteration_cases L prior no s with
    ⟨-, heq⟩ | ⟨-, -, heq⟩ | ⟨-, -, hafter⟩
  · rw [heq]
    exact Nat.le_succ _
  · rw [heq, length_estimated_history]
  · rw [hafter.sameBest.history, length_estimated_history]

theorem EndsWithin.leave (h : (L.iteration prior no s).2 = true) : L.EndsWithin prior no 1 s :=
  ⟨1, _, innerLoop_leave h 0, length_history_iteration⟩

/-- The `j`-th estimate from here is lower than the best, and its weights may be kept. -/
def ImprovesAt (L : Trainer P F) (s : TrainState P F) (j : ℕ) : Prop :=
  L.ops.less (L.oracle.perplexity (s.history.length + j)) s.bestPerplexity = true ∧
    (L.cascade.trivial = true ∨ s.trainIter + j ≠ 0)

theorem nextImproves_iff_improvesAt : L.NextImproves s ↔ L.ImprovesAt s 0 :=
  nextImproves_iff

theorem After.improvesAt_iff {out : TrainState P F × Bool} (hafter : After L (L.estimated s) out)
    (hnext : ¬ L.NextImproves s) (j : ℕ) : L.ImprovesAt out.1 j ↔ L.ImprovesAt s (j + 1) := by
  have hiter : s.trainIter + 1 + j = s.trainIter + (j + 1) := by omega
  have hlen : s.history.length + 1 + j = s.history.length + (j + 1) := by omega
  rw [ImprovesAt, ImprovesAt, hafter.sameBest.bestPerplexity, hafter.sameBest.history,
    hafter.sameBest.trainIter, estimated_bestPerplexity hnext, length_estimated_history,
    estimated_trainIter, hiter, hlen]

/-- With good weights the loop ends at the limit, if not before. -/
theorem endsWithin_of_haveGoodWeights (hgood : s.haveGoodWeights = true) :
    L.EndsWithin prior no (L.opts.maxIter - s.trainIter) s := by
  induction hleft : L.opts.maxIter - s.trainIter generalizing s with
  | zero =>
    have hlimit : L.AtLimit s := ⟨by omega, hgood⟩
    rcases iteration_cases L prior no s with ⟨-, heq⟩ | ⟨hnot, -⟩ | ⟨hnot, -⟩
    · refine ⟨1, _, innerLoop_leave (by rw [heq]) 0, ?_⟩
      rw [heq]
      exact Nat.le_refl _
    · exact absurd hlimit hnot
    · exact absurd hlimit hnot
  | succ left ih =>
    cases hleave : (L.iteration prior no s).2 with
    | true => exact (EndsWithin.leave hleave).mono (by omega)
    | false =>
      obtain ⟨-, -, hafter⟩ := iteration_stays hleave
      apply EndsWithin.step hleave
      apply ih
      · rw [hafter.sameBest.haveGoodWeights]
        exact estimated_haveGoodWeights_iff.mpr (.inl hgood)
      · rw [hafter.sameBest.trainIter, estimated_trainIter]
        omega

/-- An improvement makes the weights good, and then the limit is in force. -/
theorem endsWithin_of_improvesAt {j : ℕ} (hj : L.ImprovesAt s j) :
    L.EndsWithin prior no (max (L.opts.maxIter - s.trainIter) (j + 1)) s := by
  induction j generalizing s with
  | zero =>
    cases hleave : (L.iteration prior no s).2 with
    | true => exact (EndsWithin.leave hleave).mono (by omega)
    | false =>
      obtain ⟨-, -, hafter⟩ := iteration_stays hleave
      have hgood : (L.iteration prior no s).1.haveGoodWeights = true := by
        rw [hafter.sameBest.haveGoodWeights]
        exact estimated_haveGoodWeights_iff.mpr (.inr (nextImproves_iff_improvesAt.mpr hj))
      refine (EndsWithin.step hleave (endsWithin_of_haveGoodWeights hgood)).mono ?_
      rw [hafter.sameBest.trainIter, estimated_trainIter]
      omega
  | succ j ih =>
    cases hleave : (L.iteration prior no s).2 with
    | true => exact (EndsWithin.leave hleave).mono (by omega)
    | false =>
      obtain ⟨-, -, hafter⟩ := iteration_stays hleave
      have hiter : (L.iteration prior no s).1.trainIter = s.trainIter + 1 := by
        rw [hafter.sameBest.trainIter, estimated_trainIter]
      by_cases hnext : L.NextImproves s
      · have hgood : (L.iteration prior no s).1.haveGoodWeights = true := by
          rw [hafter.sameBest.haveGoodWeights]
          exact estimated_haveGoodWeights_iff.mpr (.inr hnext)
        refine (EndsWithin.step hleave (endsWithin_of_haveGoodWeights hgood)).mono ?_
        omega
      · have hlater := (hafter.improvesAt_iff hnext j).mpr hj
        refine (EndsWithin.step hleave (ih hlater)).mono ?_
        omega

/-- The history only grows, and below the limit by one at least. -/
theorem innerLoop_history {fuel : ℕ} (hrun : L.innerLoop prior no fuel s = some t) :
    s.history.length ≤ t.history.length ∧
      (¬ L.AtLimit s → s.history.length + 1 ≤ t.history.length) := by
  have hgrows (r : TrainState P F) : r.history.length ≤ (L.iteration prior no r).1.history.length ∧
      (¬ L.AtLimit r → r.history.length + 1 ≤ (L.iteration prior no r).1.history.length) := by
    rcases iteration_cases L prior no r with ⟨hlimit, heq⟩ | ⟨-, -, heq⟩ | ⟨-, -, hafter⟩
    · rw [heq]
      exact ⟨Nat.le_refl _, fun hnot => absurd hlimit hnot⟩
    · rw [heq, length_estimated_history]
      exact ⟨Nat.le_succ _, fun _ => Nat.le_refl _⟩
    · rw [hafter.sameBest.history, length_estimated_history]
      exact ⟨Nat.le_succ _, fun _ => Nat.le_refl _⟩
  cases fuel with
  | zero => cases hrun
  | succ fuel =>
    have hfirst : (L.iteration prior no s).1.history.length ≤ t.history.length := by
      cases hleave : (L.iteration prior no s).2 with
      | true =>
        rw [innerLoop_leave hleave] at hrun
        obtain rfl := Option.some.inj hrun
        exact Nat.le_refl _
      | false =>
        rw [innerLoop_stay hleave] at hrun
        let I (r : TrainState P F) := (L.iteration prior no s).1.history.length ≤ r.history.length
        have hkeeps (r : TrainState P F) (hr : I r) : I (L.iteration prior no r).1 :=
          le_trans hr (hgrows r).1
        exact innerLoop_invariant (I := I) (fun r hr _ => hkeeps r hr) (fun r hr _ => hkeeps r hr)
          (Nat.le_refl _) hrun
    exact ⟨le_trans (hgrows s).1 hfirst, fun hnot => le_trans ((hgrows s).2 hnot) hfirst⟩

/-- Without good weights, and without an improvement, there is no way out but to give up. -/
theorem not_endsWithin {n : ℕ} (hgood : s.haveGoodWeights = false)
    (haccept : s.trainIter = 0 → L.accept no (L.newPerplexity s) s = true)
    (hnone : ∀ j < n, ¬ L.ImprovesAt s j) : ¬ L.EndsWithin prior no n s := by
  have hlimit : ¬ L.AtLimit s := fun h => by
    rw [h.2] at hgood
    cases hgood
  induction n generalizing s with
  | zero =>
    rintro ⟨fuel, t, hrun, hlen⟩
    have hmore := (innerLoop_history hrun).2 hlimit
    omega
  | succ n ih =>
    have hnext : ¬ L.NextImproves s := fun h =>
      hnone 0 (Nat.succ_pos n) (nextImproves_iff_improvesAt.mp h)
    have hstill : ¬ (L.estimated s).haveGoodWeights = true := by
      rw [estimated_haveGoodWeights_iff, hgood]
      simp [hnext]
    rcases iteration_cases L prior no s with ⟨h, -⟩ | ⟨-, ⟨hfirst, hreject⟩, -⟩ | ⟨-, -, hafter⟩
    · exact absurd h hlimit
    · rw [estimated_trainIter] at hfirst
      have hsame : L.accept no (L.newPerplexity s) (L.estimated s) =
          L.accept no (L.newPerplexity s) s := by
        rw [accept, accept, estimated, (recordEstimate_fields _).2.1]
        rfl
      rw [hsame, haccept (by omega)] at hreject
      cases hreject
    · have hleave : (L.iteration prior no s).2 = false := by
        by_contra hleave
        exact hstill (hafter.leaves (Bool.eq_true_of_not_eq_false hleave))
      have hgood' : (L.iteration prior no s).1.haveGoodWeights = false := by
        rw [hafter.sameBest.haveGoodWeights]
        exact Bool.eq_false_of_not_eq_true hstill
      have hlater : ¬ L.EndsWithin prior no n (L.iteration prior no s).1 := by
        apply ih hgood'
        · rw [hafter.sameBest.trainIter, estimated_trainIter]
          intro hzero
          cases hzero
        · intro j hj himproves
          exact hnone (j + 1) (by omega) ((hafter.improvesAt_iff hnext j).mp himproves)
        · intro h
          rw [h.2] at hgood'
          cases hgood'
      rintro ⟨fuel, t, hrun, hlen⟩
      cases fuel with
      | zero => cases hrun
      | succ fuel =>
        rw [innerLoop_stay hleave] at hrun
        refine hlater ⟨fuel, t, hrun, ?_⟩
        rw [hafter.sameBest.history, length_estimated_history]
        omega

/-- The loop can only be given up when it is not the first; so the weights are good when the
first has ended, and remain so. -/
theorem innerLoop_haveGoodWeights {fuel : ℕ} (hs : no = 0 ∨ s.haveGoodWeights = true)
    (hrun : L.innerLoop prior no fuel s = some t) : t.haveGoodWeights = true := by
  let I (r : TrainState P F) := no = 0 ∨ r.haveGoodWeights = true
  have hkept (r : TrainState P F) (hr : r.haveGoodWeights = true) :
      (L.estimated r).haveGoodWeights = true := estimated_haveGoodWeights_iff.mpr (.inl hr)
  refine innerLoop_invariant (I := I) (J := fun r => r.haveGoodWeights = true)
    (fun r hr hleave => ?_) (fun r hr hleave => ?_) hs hrun
  · obtain ⟨-, -, hafter⟩ := iteration_stays hleave
    refine hr.imp_right fun h => ?_
    rw [hafter.sameBest.haveGoodWeights]
    exact hkept r h
  · rcases iteration_cases L prior no r with ⟨h, heq⟩ | ⟨-, ⟨-, hreject⟩, heq⟩ | ⟨-, -, hafter⟩
    · rw [heq]
      exact h.2
    · rw [heq]
      apply hkept
      apply hr.resolve_left
      intro hno
      rw [accept, hno] at hreject
      cases hreject
    · rw [hafter.sameBest.haveGoodWeights]
      exact hafter.leaves hleave

/-- The states in which a restart begins. -/
inductive Reached (L : Trainer P F) (prior : Weights F) (s : TrainState P F) :
    ℕ → TrainState P F → Prop
  | first : Reached L prior s 0 s
  | next {no fuel : ℕ} {t u : TrainState P F} (reached : Reached L prior s no t)
      (more : no < L.opts.ranRestarts) (run : L.innerLoop prior no fuel (L.enter t) = some u) :
      Reached L prior s (no + 1) (L.randomRestart no u)

theorem Reached.haveGoodWeights (h : L.Reached prior s no t) :
    (no = 0 ∧ t = s) ∨ t.haveGoodWeights = true := by
  induction h with
  | first => exact .inl ⟨rfl, rfl⟩
  | @next no fuel t u reached more run ih =>
    have hbefore : no = 0 ∨ (L.enter t).haveGoodWeights = true := ih.imp_left And.left
    have hgood : u.haveGoodWeights = true := innerLoop_haveGoodWeights hbefore run
    exact .inr hgood

theorem restartLoop_haveGoodWeights {fuel n : ℕ} (hs : no = 0 ∨ s.haveGoodWeights = true)
    (hrun : L.restartLoop prior fuel n no s = some t) : t.haveGoodWeights = true := by
  induction n generalizing no s with
  | zero => exact innerLoop_haveGoodWeights (s := L.enter s) hs hrun
  | succ n ih =>
    rw [restartLoop, Option.bind_eq_some_iff] at hrun
    obtain ⟨u, hinner, hrest⟩ := hrun
    have hu : u.haveGoodWeights = true := innerLoop_haveGoodWeights (s := L.enter s) hs hinner
    exact ih (s := L.randomRestart no u) (.inr hu) hrest

/-- What restarts and the inner loop keep holds at the end. -/
theorem restartLoop_invariant {J : TrainState P F → Prop} {fuel n : ℕ}
    (hinner : ∀ no s t, J s → L.innerLoop prior no fuel (L.enter s) = some t → J t)
    (hrandom : ∀ no s, J s → J (L.randomRestart no s)) (hs : J s)
    (hrun : L.restartLoop prior fuel n no s = some t) : J t := by
  induction n generalizing no s with
  | zero => exact hinner no s t hs hrun
  | succ n ih =>
    rw [restartLoop, Option.bind_eq_some_iff] at hrun
    obtain ⟨u, hfirst, hrest⟩ := hrun
    exact ih (hrandom no u (hinner no s u hs hfirst)) hrest

theorem restartLoop_mono {fuel fuel' n : ℕ} (hle : fuel ≤ fuel')
    (hrun : L.restartLoop prior fuel n no s = some t) :
    L.restartLoop prior fuel' n no s = some t := by
  induction n generalizing no s with
  | zero => exact innerLoop_mono hle hrun
  | succ n ih =>
    rw [restartLoop, Option.bind_eq_some_iff] at hrun ⊢
    obtain ⟨u, hinner, hrest⟩ := hrun
    exact ⟨u, innerLoop_mono hle hinner, ih hrest⟩

/-- If each restart ends, so do all of them. -/
theorem exists_restartLoop {n bound : ℕ}
    (hends : ∀ no t, L.Reached prior s no t → L.EndsWithin prior no bound (L.enter t))
    (hreached : L.Reached prior s no t) (hn : no + n = L.opts.ranRestarts) :
    ∃ fuel u, L.restartLoop prior fuel n no t = some u := by
  induction n generalizing no t with
  | zero =>
    obtain ⟨fuel, u, hrun, -⟩ := hends no t hreached
    exact ⟨fuel, u, hrun⟩
  | succ n ih =>
    obtain ⟨fuel, u, hrun, -⟩ := hends no t hreached
    obtain ⟨fuel', v, hrest⟩ := ih (.next hreached (by omega) hrun) (by omega)
    refine ⟨max fuel fuel', v, ?_⟩
    rw [restartLoop, Option.bind_eq_some_iff]
    exact ⟨u, innerLoop_mono (le_max_left _ _) hrun, restartLoop_mono (le_max_right _ _) hrest⟩

/-- The number of estimates that a restart is to need at most. -/
def estimatesBound (L : Trainer P F) : ℕ := max L.opts.maxIter 2 + 1

/-- **Every restart ends within the bound, and training returns, exactly when** one of the
perplexities that the estimates of the first find is lower than the infinite one; of a
cascade, not the first of them. -/
theorem train_returns_iff (L : Trainer P F) (w : TrainWeights F) :
    ((∀ no t, L.Multiple → L.Reached (L.priorCounts (L.initial w).weight) (L.start w) no t →
          L.EndsWithin (L.priorCounts (L.initial w).weight) no L.estimatesBound (L.enter t)) ∧
        ∃ fuel r, L.train fuel w = some r) ↔
      (L.Multiple → ∃ j < L.estimatesBound,
        L.ops.less (L.oracle.perplexity j) L.ops.infinity = true ∧
          (L.cascade.trivial = true ∨ j ≠ 0)) := by
  by_cases hmultiple : L.Multiple
  case neg =>
    refine iff_of_true ⟨fun no t h => absurd h hmultiple, 0, ?_⟩ fun h => absurd h hmultiple
    rw [train, if_neg hmultiple]
    exact ⟨_, rfl⟩
  have hfirst (j : ℕ) : L.ImprovesAt (L.enter (L.start w)) j ↔
      L.ops.less (L.oracle.perplexity j) L.ops.infinity = true ∧
        (L.cascade.trivial = true ∨ j ≠ 0) := by
    simp [ImprovesAt, enter, start]
  simp only [hmultiple, true_implies, ← hfirst]
  constructor
  · rintro ⟨hends, -⟩
    by_contra! hnone
    exact not_endsWithin rfl (fun _ => rfl) hnone (hends 0 _ .first)
  · rintro ⟨j, hj, himproves⟩
    have hends (no : ℕ) (t : TrainState P F)
        (ht : L.Reached (L.priorCounts (L.initial w).weight) (L.start w) no t) :
        L.EndsWithin (L.priorCounts (L.initial w).weight) no L.estimatesBound (L.enter t) := by
      rcases ht.haveGoodWeights with ⟨rfl, rfl⟩ | hgood
      · refine (endsWithin_of_improvesAt himproves).mono ?_
        rw [estimatesBound] at hj ⊢
        omega
      · refine (endsWithin_of_haveGoodWeights (s := L.enter t) hgood).mono ?_
        rw [estimatesBound]
        omega
    refine ⟨hends, ?_⟩
    obtain ⟨fuel, u, hrun⟩ := exists_restartLoop hends .first (Nat.zero_add _)
    have htrain : L.train fuel w = some (u.bestPerplexity, L.finish u, u.history) := by
      rw [train, if_pos hmultiple, hrun]
      rfl
    exact ⟨fuel, _, htrain⟩

/-- Training that finds no perplexity below the infinite one never returns. -/
theorem train_eq_none (hmultiple : L.Multiple)
    (hnone : ∀ j, L.ops.less (L.oracle.perplexity j) L.ops.infinity = false) (fuel : ℕ)
    (w : TrainWeights F) : L.train fuel w = none := by
  have hinner (n : ℕ) : ¬ L.EndsWithin (L.priorCounts (L.initial w).weight) 0 n
      (L.enter (L.start w)) := by
    refine not_endsWithin rfl (fun _ => rfl) fun j _ himproves => ?_
    have hless := himproves.1
    have hbest : (L.enter (L.start w)).bestPerplexity = L.ops.infinity := rfl
    rw [hbest, hnone] at hless
    cases hless
  have hloop : L.innerLoop (L.priorCounts (L.initial w).weight) 0 fuel (L.enter (L.start w)) = none := by
    cases hrun : L.innerLoop (L.priorCounts (L.initial w).weight) 0 fuel (L.enter (L.start w)) with
    | none => rfl
    | some t => exact absurd ⟨fuel, t, hrun, Nat.le_add_left _ _⟩ (hinner t.history.length)
  rw [train, if_pos hmultiple, Option.map_eq_none_iff]
  cases L.opts.ranRestarts with
  | zero => exact hloop
  | succ n => rw [restartLoop, hloop]; rfl

/-- One state with a loop. -/
def loopExample : WFST (Weight ℚ) where
  states := [⟨[⟨2, 2, 0, 1, FSTArc.noGroup⟩], 1⟩]
  final := some 0
  inAlph := sampleAlphabet
  outAlph := sampleAlphabet

/-- Two iterations at most, and all perplexities infinite: no example is counted, so that the
probability of the corpus is raised to an infinite power. -/
def infinitePerplexities : Trainer (WithTop ℚ) ℚ where
  cascade :=
    { recorder := .make false
      members := [(loopExample, ⟨.CONDITIONAL, id, 0⟩)]
      composed := loopExample
      single := fun _ => ⟨_, rfl⟩ }
  order := ⟨id, fun _ => .refl _⟩
  pow := fun w _ => w
  opts := ⟨2, 0, 1, 0, false, 0⟩
  ops := ⟨⊤, fun a b => decide (a < b), fun _ _ => false, false, fun _ _ _ => true⟩
  oracle := ⟨fun _ => ⊤, fun _ _ => 1, fun _ _ _ => 1⟩

/-- The same call with a first perplexity that is finite. -/
def finitePerplexities : Trainer (WithTop ℚ) ℚ :=
  { infinitePerplexities with oracle := ⟨fun _ => 1, fun _ _ => 1, fun _ _ _ => 1⟩ }

theorem train_finitePerplexities :
    ∃ fuel r, finitePerplexities.train fuel ⟨fun _ => 1, 0, 0, 0⟩ = some r :=
  ((train_returns_iff finitePerplexities _).mpr
    fun _ => ⟨0, by decide, by decide, .inl rfl⟩).2

theorem train_infinitePerplexities :
    ¬ ∃ fuel r, infinitePerplexities.train fuel ⟨fun _ => 1, 0, 0, 0⟩ = some r := by
  rintro ⟨fuel, r, hrun⟩
  rw [train_eq_none (by decide) (fun _ => rfl)] at hrun
  cases hrun

end Carmel.Trainer
