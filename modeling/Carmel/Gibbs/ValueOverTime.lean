/-
# Sums over time

A `delta_sum` is written to only when its value changes: it keeps the value, the time of the
last change and the sum until then. It stands for the sum up to any time since, and a
change, at whatever time, adds its amount for the time that is left.
-/

import Carmel.Math.Instances

namespace Carmel

universe u

structure DeltaSum (F : Type u) where
  /-- The value at time `tmax`. -/
  x : F
  tmax : F
  /-- The sum over the times from 0 to `tmax`. -/
  s : F

namespace DeltaSum

variable {F : Type u} [Field F] [LinearOrder F]

/-- `clear`. -/
def clear (x₀ : F) : DeltaSum F := ⟨x₀, 0, 0⟩

/-- `addbase`: a change at time 0. -/
def addbase (d : F) (D : DeltaSum F) : DeltaSum F :=
  { D with s := D.s + d * D.tmax, x := D.x + d }

/-- `extend`, which throws if the time has been forgotten. -/
def extend (t : F) (D : DeltaSum F) : Option (DeltaSum F) :=
  let moret := t - D.tmax
  if moret < 0 then none else some { D with tmax := t, s := D.s + D.x * moret }

/-- `add_delta`. -/
def addDelta (d t : F) (D : DeltaSum F) : DeltaSum F :=
  let moret := t - D.tmax
  let D :=
    if moret > 0 then { D with tmax := t, s := D.s + moret * D.x }
    else if moret < 0 then { D with s := D.s + d * -moret }
    else D
  { D with x := D.x + d }

/-- The sum up to `t`, if nothing changes any more. -/
def integral (D : DeltaSum F) (t : F) : F := D.s + D.x * (t - D.tmax)

variable {D : DeltaSum F} {d t τ : F}

omit [LinearOrder F] in
theorem integral_clear (x₀ t : F) : (clear x₀).integral t = x₀ * t := by
  simp [clear, integral]

omit [LinearOrder F] in
theorem integral_addbase (d : F) (D : DeltaSum F) (t : F) :
    (D.addbase d).integral t = D.integral t + d * t := by
  rw [addbase, integral, integral]
  ring

@[simp] theorem x_addDelta (d t : F) (D : DeltaSum F) : (D.addDelta d t).x = D.x + d := by
  simp only [addDelta]
  split_ifs <;> rfl

section Cases

variable [IsStrictOrderedRing F]

theorem addDelta_of_lt (d : F) (h : D.tmax < t) :
    D.addDelta d t = ⟨D.x + d, t, D.s + (t - D.tmax) * D.x⟩ := by
  have hpos : t - D.tmax > 0 := sub_pos.mpr h
  simp only [addDelta, if_pos hpos]

omit [IsStrictOrderedRing F] in
theorem addDelta_of_eq (d : F) (h : D.tmax = t) : D.addDelta d t = { D with x := D.x + d } := by
  have hzero : t - D.tmax = 0 := sub_eq_zero.mpr h.symm
  simp only [addDelta, hzero, lt_irrefl, if_false]

theorem addDelta_of_gt (d : F) (h : t < D.tmax) :
    D.addDelta d t = ⟨D.x + d, D.tmax, D.s + d * -(t - D.tmax)⟩ := by
  have hneg : t - D.tmax < 0 := sub_neg.mpr h
  simp only [addDelta, gt_iff_lt, if_neg (not_lt.mpr hneg.le), if_pos hneg]

/-- Whenever the change comes, it counts for the time from then on. -/
theorem integral_addDelta (d τ : F) (D : DeltaSum F) (t : F) :
    (D.addDelta d τ).integral t = D.integral t + d * (t - τ) := by
  rcases lt_trichotomy D.tmax τ with h | h | h
  · rw [addDelta_of_lt d h, integral, integral]
    ring
  · rw [addDelta_of_eq d h, integral, integral, ← h]
    ring
  · rw [addDelta_of_gt d h, integral, integral]
    ring

theorem tmax_addDelta (d : F) (h : D.tmax ≤ t) : (D.addDelta d t).tmax = t := by
  rcases h.lt_or_eq with h | h
  · rw [addDelta_of_lt d h]
  · rw [addDelta_of_eq d h, h]

theorem extend_of_le (h : D.tmax ≤ t) : D.extend t = some ⟨D.x, t, D.integral t⟩ := by
  rw [extend, if_neg (by linarith)]
  rfl

end Cases

omit [LinearOrder F] in
theorem integral_sub (D : DeltaSum F) (t τ : F) :
    D.integral t = D.integral τ + D.x * (t - τ) := by
  rw [integral, integral]
  ring

omit [LinearOrder F] in
/-- Taking a base away again leaves everything as it was. -/
theorem addbase_neg_addbase (d : F) (D : DeltaSum F) : (D.addbase d).addbase (-d) = D := by
  simp [addbase]

end DeltaSum

end Carmel

/-!
## The integral of a value over time

However changes, changes of the base and moves of the time are mixed, the value is the base
with all changes, and the sum is the integral of the step function.
-/

namespace Carmel

namespace DeltaSum

universe u

/-- The operations on a `delta_sum`. -/
inductive Op (F : Type u)
  | addDelta (d t : F)
  | addbase (d : F)
  | extend (t : F)
deriving DecidableEq

namespace Op

variable {F : Type u} [Zero F] [LinearOrder F]

/-- What an operation adds to the value. -/
def amount : Op F → F
  | addDelta d _ => d
  | addbase d => d
  | extend _ => 0

/-- What an operation adds to the value in force at a time. -/
def amountAt (τ : F) : Op F → F
  | addDelta d t => if t ≤ τ then d else 0
  | addbase d => d
  | extend _ => 0

/-- The latest time after an operation. -/
def latest (tmax : F) : Op F → F
  | addDelta _ t => max tmax t
  | addbase _ => tmax
  | extend t => max tmax t

/-- An operation that is in time: no change comes before the start, and the time is not moved
back. -/
def InTime (tmax : F) : Op F → Prop
  | addDelta _ t => 0 ≤ t
  | addbase _ => True
  | extend t => tmax ≤ t

/-- Every operation of a sequence is in time. -/
def AllInTime : F → List (Op F) → Prop
  | _, [] => True
  | tmax, op :: ops => op.InTime tmax ∧ AllInTime (op.latest tmax) ops

end Op

variable {F : Type u} [Field F] [LinearOrder F]

/-- One operation: an asserted time or one that has been forgotten stops the program. -/
def step (D : DeltaSum F) : Op F → Option (DeltaSum F)
  | .addDelta d t => if 0 ≤ t then some (D.addDelta d t) else none
  | .addbase d => some (D.addbase d)
  | .extend t => D.extend t

def run (D : DeltaSum F) (ops : List (Op F)) : Option (DeltaSum F) := ops.foldlM step D

/-- The value in force at a time. -/
def valueAt (x₀ : F) (ops : List (Op F)) (τ : F) : F := x₀ + (ops.map (Op.amountAt τ)).sum

section Steps

variable [IsStrictOrderedRing F] {D D' : DeltaSum F} {op : Op F} {ops : List (Op F)} {t : F}

/-- What an operation adds to the sum up to a time. -/
def Op.area (t : F) : Op F → F
  | addDelta d τ => d * (t - τ)
  | addbase d => d * t
  | extend _ => 0

/-- An operation in time is carried out: it adds its amount to the value and its area to the
sum. -/
theorem step_of_inTime (h : op.InTime D.tmax) :
    ∃ D', step D op = some D' ∧ D'.x = D.x + op.amount ∧ D'.tmax = op.latest D.tmax ∧
      ∀ t, D'.integral t = D.integral t + op.area t := by
  cases op with
  | addDelta d τ =>
    refine ⟨D.addDelta d τ, if_pos h, x_addDelta d τ D, ?_, integral_addDelta d τ D⟩
    rcases le_or_gt D.tmax τ with hle | hlt
    · rw [tmax_addDelta d hle, Op.latest, max_eq_right hle]
    · rw [addDelta_of_gt d hlt, Op.latest, max_eq_left hlt.le]
  | addbase d => exact ⟨D.addbase d, rfl, rfl, rfl, integral_addbase d D⟩
  | extend τ =>
    refine ⟨_, extend_of_le h, (add_zero _).symm, (max_eq_right h).symm, ?_⟩
    intro t
    rw [Op.area, add_zero, integral_sub D t τ]
    rfl

/-- A sequence of operations in time is carried out. -/
theorem run_of_inTime (h : Op.AllInTime D.tmax ops) :
    ∃ D', run D ops = some D' ∧ D'.x = D.x + (ops.map Op.amount).sum ∧
      D'.tmax = ops.foldl Op.latest D.tmax ∧
      ∀ t, D'.integral t = D.integral t + (ops.map (Op.area t)).sum := by
  induction ops generalizing D with
  | nil => exact ⟨D, rfl, (add_zero _).symm, rfl, fun t => (add_zero _).symm⟩
  | cons op ops ih =>
    obtain ⟨hop, hops⟩ := h
    obtain ⟨D₁, hstep, hx, htmax, hintegral⟩ := step_of_inTime hop
    rw [← htmax] at hops
    obtain ⟨D₂, hrun, hx₂, htmax₂, hintegral₂⟩ := ih hops
    refine ⟨D₂, ?_, ?_, ?_, ?_⟩
    · rw [run, List.foldlM_cons, hstep]
      exact hrun
    · rw [hx₂, hx, List.map_cons, List.sum_cons, add_assoc]
    · rw [htmax₂, htmax, List.foldl_cons]
    · intro t
      rw [hintegral₂, hintegral, List.map_cons, List.sum_cons, add_assoc]

omit [Field F] [IsStrictOrderedRing F] in
theorem le_foldl_latest [Zero F] {tmax : F} {ops : List (Op F)} : tmax ≤ ops.foldl Op.latest tmax := by
  induction ops generalizing tmax with
  | nil => exact le_rfl
  | cons op ops ih =>
    apply le_trans _ ih
    cases op with
    | addDelta d t => exact le_max_left _ _
    | addbase d => exact le_rfl
    | extend t => exact le_max_left _ _

omit [IsStrictOrderedRing F] in
theorem foldl_latest_cons {tmax : F} :
    op.latest tmax ≤ (op :: ops).foldl Op.latest tmax := le_foldl_latest

end Steps

section Integral

open MeasureTheory intervalIntegral

variable {op : Op ℝ} {ops : List (Op ℝ)} {tmax T : ℝ}

theorem amountAt_addDelta (d t : ℝ) :
    (fun τ => (Op.addDelta d t).amountAt τ) = (Set.Ici t).indicator fun _ => d := by
  funext τ
  rw [Op.amountAt, Set.indicator_apply]
  rfl

theorem intervalIntegrable_amountAt (op : Op ℝ) (a b : ℝ) :
    IntervalIntegrable (fun τ => op.amountAt τ) volume a b := by
  cases op with
  | addDelta d t =>
    have hconst : IntervalIntegrable (fun _ => d) volume a b := intervalIntegrable_const
    rw [amountAt_addDelta]
    exact ⟨hconst.1.indicator measurableSet_Ici, hconst.2.indicator measurableSet_Ici⟩
  | addbase d => exact intervalIntegrable_const
  | extend t => exact intervalIntegrable_const

/-- A change is in force from its time on. -/
theorem integral_addDelta_amountAt {d t : ℝ} (h0 : 0 ≤ t) (hT : t ≤ T) :
    ∫ τ in (0 : ℝ)..T, (Op.addDelta d t).amountAt τ = d * (T - t) := by
  have hbefore : ∫ τ in (0 : ℝ)..t, (Op.addDelta d t).amountAt τ = 0 := by
    rw [integral_congr_Ioo_of_le h0 (g := fun _ => 0), intervalIntegral.integral_zero]
    exact fun τ hτ => if_neg (not_le.mpr hτ.2)
  have hafter : ∫ τ in t..T, (Op.addDelta d t).amountAt τ = d * (T - t) := by
    rw [integral_congr_Ioo_of_le hT (g := fun _ => d), intervalIntegral.integral_const, smul_eq_mul,
      mul_comm]
    exact fun τ hτ => if_pos hτ.1.le
  rw [← integral_add_adjacent_intervals (intervalIntegrable_amountAt _ 0 t)
    (intervalIntegrable_amountAt _ t T), hbefore, hafter, zero_add]

theorem integral_amountAt (h : op.InTime tmax) (hT : op.latest tmax ≤ T) :
    ∫ τ in (0 : ℝ)..T, op.amountAt τ = op.area T := by
  cases op with
  | addDelta d t => exact integral_addDelta_amountAt h ((le_max_right _ _).trans hT)
  | addbase d =>
    simp only [Op.amountAt, Op.area, intervalIntegral.integral_const, sub_zero, smul_eq_mul]
    exact mul_comm _ _
  | extend t => simp [Op.amountAt, Op.area]

/-- The areas of the operations make up the integral of what they add to the value. -/
theorem integral_sum_amountAt (h : Op.AllInTime tmax ops) (hT : ops.foldl Op.latest tmax ≤ T) :
    IntervalIntegrable (fun τ => (ops.map (Op.amountAt τ)).sum) volume 0 T ∧
      ∫ τ in (0 : ℝ)..T, (ops.map (Op.amountAt τ)).sum = (ops.map (Op.area T)).sum := by
  induction ops generalizing tmax with
  | nil => simp
  | cons op ops ih =>
    obtain ⟨hop, hops⟩ := h
    obtain ⟨hintegrable, hsum⟩ := ih hops hT
    have hfirst := intervalIntegrable_amountAt op 0 T
    simp only [List.map_cons, List.sum_cons]
    refine ⟨hfirst.add hintegrable, ?_⟩
    rw [intervalIntegral.integral_add hfirst hintegrable, hsum,
      integral_amountAt hop (foldl_latest_cons.trans hT)]

/-- The integral of the value in force. -/
theorem integral_valueAt (x₀ : ℝ) (h : Op.AllInTime 0 ops) (hT : ops.foldl Op.latest 0 ≤ T) :
    ∫ τ in (0 : ℝ)..T, valueAt x₀ ops τ = x₀ * T + (ops.map (Op.area T)).sum := by
  obtain ⟨hintegrable, hsum⟩ := integral_sum_amountAt h hT
  have hconst : ∫ _ in (0 : ℝ)..T, x₀ = x₀ * T := by
    rw [intervalIntegral.integral_const, sub_zero, smul_eq_mul, mul_comm]
  simp only [valueAt]
  rw [intervalIntegral.integral_add intervalIntegrable_const hintegrable, hconst, hsum]

/-- **What a `delta_sum` holds** after any operations in time: its value is the base with all that
was added to it, and after `extend` its sum is the integral of the value that was in force. -/
theorem extend_run (x₀ : ℝ) (ops : List (Op ℝ)) (h : Op.AllInTime 0 ops) (T : ℝ)
    (hT : ops.foldl Op.latest 0 ≤ T) :
    ∃ D D', run (clear x₀) ops = some D ∧ D.x = x₀ + (ops.map Op.amount).sum ∧
      D.extend T = some D' ∧ D'.x = D.x ∧ D'.tmax = T ∧
      D'.s = ∫ τ in (0 : ℝ)..T, valueAt x₀ ops τ := by
  obtain ⟨D, hrun, hx, htmax, hintegral⟩ := run_of_inTime (D := clear x₀) h
  have hle : D.tmax ≤ T := by
    rw [htmax]
    exact hT
  refine ⟨D, _, hrun, hx, extend_of_le hle, rfl, rfl, ?_⟩
  rw [hintegral, integral_clear, integral_valueAt x₀ h hT]

theorem extend_run_mixed :
    ∃ D D', run (clear 1) [.addDelta 2 3, .addbase 5, .extend 7, .addDelta 4 6] = some D ∧
      D.x = (1 : ℝ) + 11 ∧ D.extend 8 = some D' ∧ D'.x = D.x ∧ D'.tmax = 8 ∧
      D'.s = ∫ τ in (0 : ℝ)..8,
        valueAt 1 [.addDelta 2 3, .addbase 5, .extend 7, .addDelta 4 6] τ := by
  have hsum : ([.addDelta 2 3, .addbase 5, .extend 7, .addDelta 4 6].map Op.amount).sum = (11 : ℝ) := by
    norm_num [Op.amount]
  have h := extend_run 1 [.addDelta 2 3, .addbase 5, .extend 7, .addDelta 4 6]
    (by norm_num [Op.AllInTime, Op.InTime, Op.latest]) 8 (by norm_num [Op.latest])
  rw [hsum] at h
  exact h

end Integral

end DeltaSum

end Carmel
