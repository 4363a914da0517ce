/-
# Normalizing a transducer

`normalize` turns counts into weights in two passes over the normalization groups. The first
adds a constant to every count and sums up the groups; the second gives a tie group one
weight, leaves the locked arcs as they are, and divides what remains among the others.
Weights are a function of where an arc is, and the `scale` is a parameter. An infinite norm
(of a tie group beside locked arcs that have all the weight) is the source's division by
zero; dividing by it gives zero.
-/

import Carmel.Compose.Moves
import Carmel.Train.ArcCounts

namespace Carmel

universe u

/-- The weights that are stored in the arcs. -/
abbrev Weights (F : Type u) [Zero F] [LE F] : Type u := Param → Weight F

/-- `NormalizeMethod`, as far as `normalize` reads it. -/
structure NormalizeMethod (F : Type u) [Zero F] [LE F] where
  group : NormGroupBy
  scale : Weight F → Weight F
  addCount : Weight F

/-- The groups that `NormGroupIter` goes through. An empty first state is a group of
its own in the source, to which nothing is done. -/
def WFST.normGroups {W : Type u} (order : HashOrder (ℕ × List (HalfArc W))) (group : NormGroupBy)
    (x : WFST W) : List (List (HalfArc W)) :=
  match group with
  | .CONDITIONAL => (List.range x.numStates).flatMap fun s =>
    (order.iter (indexBy .kInput (x.outArcs s))).map Prod.snd
  | .JOINT => (List.range x.numStates).map x.outArcs
  | .NONE => []

/-- The tables of `normalize`, by tie group. -/
structure TieTotals (F : Type u) [Zero F] [LE F] where
  groupArcTotal : ℕ → Weight F
  groupStateTotal : ℕ → Weight F
  groupMaxLockedSum : ℕ → Weight F

/-- What the first loop over a group has so far. -/
structure GroupSums (F : Type u) [Zero F] [LE F] where
  weights : Weights F
  sum : Weight F
  lockedSum : Weight F

/-- What the first loop of the second pass over a group has so far. -/
structure GroupShares (F : Type u) [Zero F] [LE F] where
  weights : Weights F
  normalSum : Weight F
  reserved : Weight F

section Model

variable {F : Type u} [Field F] [LinearOrder F] [IsStrictOrderedRing F]

/-- `w += addc`, and the sums. The transducer is at address `k`. -/
def addCountTo (k : ℕ) (addc : Weight F) (acc : GroupSums F) (h : HalfArc (Weight F)) :
    GroupSums F :=
  let w := acc.weights (h.param k) + addc
  let weights := Function.update acc.weights (h.param k) w
  if h.arc.isLocked then { acc with weights := weights, lockedSum := acc.lockedSum + w }
  else { acc with weights := weights, sum := acc.sum + w }

/-- What the second loop over a group adds to the tables. -/
def addTied (k : ℕ) (acc : GroupSums F) (t : TieTotals F) (h : HalfArc (Weight F)) : TieTotals F :=
  if h.arc.isTied then
    let g := h.arc.groupId
    { groupArcTotal :=
        Function.update t.groupArcTotal g (t.groupArcTotal g + acc.weights (h.param k))
      groupStateTotal := Function.update t.groupStateTotal g (t.groupStateTotal g + acc.sum)
      groupMaxLockedSum :=
        Function.update t.groupMaxLockedSum g (max (t.groupMaxLockedSum g) acc.lockedSum) }
  else t

def sumGroup (k : ℕ) (addc : Weight F) (wt : Weights F × TieTotals F)
    (group : List (HalfArc (Weight F))) : Weights F × TieTotals F :=
  let acc := group.foldl (addCountTo k addc) ⟨wt.1, 0, 0⟩
  (acc.weights, group.foldl (addTied k acc) wt.2)

/-- The weight of the arcs of a tie group. -/
def tiedWeight (scale : Weight F → Weight F) (t : TieTotals F) (g : ℕ) : Weight F :=
  let gmax := t.groupMaxLockedSum g
  -- At 1 the norm is infinite.
  if 1 ≤ gmax then 0
  else
    let groupNorm := if gmax ≠ 0 then t.groupStateTotal g / (1 - gmax) else t.groupStateTotal g
    if t.groupArcTotal g ≠ 0 then scale (t.groupArcTotal g) / scale groupNorm else 0

/-- Tied arcs get their weight, and with locked arcs take it from the normal ones. -/
def shareTied (k : ℕ) (scale : Weight F → Weight F) (t : TieTotals F) (acc : GroupShares F)
    (h : HalfArc (Weight F)) : GroupShares F :=
  if h.arc.isTied then
    let w := tiedWeight scale t h.arc.groupId
    { acc with
      weights := Function.update acc.weights (h.param k) w
      reserved := acc.reserved + w }
  else if h.arc.isLocked then { acc with reserved := acc.reserved + acc.weights (h.param k) }
  else { acc with normalSum := acc.normalSum + acc.weights (h.param k) }

/-- Normal arcs get a new weight. -/
def shareNormal (k : ℕ) (share : Weight F → Weight F) (w : Weights F) (h : HalfArc (Weight F)) :
    Weights F :=
  if h.arc.isNormal then Function.update w (h.param k) (share (w (h.param k))) else w

def shareGroup (k : ℕ) (scale : Weight F → Weight F) (uniformZeroNormgroups : Bool) (t : TieTotals F)
    (w : Weights F) (group : List (HalfArc (Weight F))) : Weights F :=
  let acc := group.foldl (shareTied k scale t) ⟨w, 0, 0⟩
  let fractionRemain := 1 - acc.reserved
  if fractionRemain ≠ 0 ∧ (uniformZeroNormgroups ∨ acc.normalSum ≠ 0) then
    group.foldl (shareNormal k fun w => fractionRemain * scale w / scale acc.normalSum) acc.weights
  else group.foldl (shareNormal k fun _ => 0) acc.weights

/-- `normalize`, for the transducer at address `k`. -/
def WFST.normalize (order : HashOrder (ℕ × List (HalfArc (Weight F)))) (method : NormalizeMethod F)
    (uniformZeroNormgroups : Bool) (k : ℕ) (x : WFST (Weight F)) (w : Weights F) : Weights F :=
  let groups := x.normGroups order method.group
  let sums := groups.foldl (sumGroup k method.addCount) (w, ⟨0, 0, 0⟩)
  groups.foldl (shareGroup k method.scale uniformZeroNormgroups sums.2) sums.1

end Model

section Groups

variable {W : Type u} {x : WFST W}

/-- Every arc is in one normalization group. -/
theorem WFST.normGroups_flatten_perm (order : HashOrder (ℕ × List (HalfArc W))) {group : NormGroupBy}
    (hgroup : group ≠ .NONE) : (x.normGroups order group).flatten.Perm x.arcsTable := by
  cases group with
  | NONE => exact absurd rfl hgroup
  | JOINT => exact .refl _
  | CONDITIONAL =>
    rw [normGroups, List.flatten_eq_flatMap, List.flatMap_assoc, arcsTable]
    refine List.Perm.flatMap_left _ fun s _ => ?_
    rw [List.flatMap_map]
    exact ((order.perm _).flatMap_right _).trans (indexBy_flatMap_perm ..)

end Groups

section Writes

variable {F : Type u} [Field F] [LinearOrder F] [IsStrictOrderedRing F]
variable {k : ℕ} {p : Param} {addc : Weight F} {scale : Weight F → Weight F} {t : TieTotals F}
variable {uniform : Bool} {group : List (HalfArc (Weight F))}

theorem foldl_addCountTo_weights (group : List (HalfArc (Weight F))) (acc : GroupSums F) :
    (group.foldl (addCountTo k addc) acc).weights p =
      acc.weights p + (group.map (·.param k)).count p • addc := by
  induction group generalizing acc with
  | nil => simp
  | cons h group ih =>
    have hstep : (addCountTo k addc acc h).weights p =
        acc.weights p + if h.param k = p then addc else 0 := by
      have hweights : (addCountTo k addc acc h).weights =
          Function.update acc.weights (h.param k) (acc.weights (h.param k) + addc) := by
        rw [addCountTo]
        split <;> rfl
      rw [hweights]
      by_cases hp : h.param k = p
      · rw [if_pos hp, ← hp, Function.update_self]
      · rw [if_neg hp, Function.update_of_ne (Ne.symm hp), add_zero]
    rw [List.foldl_cons, ih, hstep, List.map_cons, List.count_cons, add_nsmul, add_assoc]
    congr 1
    by_cases hp : h.param k = p <;> simp [hp, add_comm]

theorem foldl_sumGroup_weights (groups : List (List (HalfArc (Weight F))))
    (wt : Weights F × TieTotals F) :
    (groups.foldl (sumGroup k addc) wt).1 p =
      wt.1 p + (groups.flatten.map (·.param k)).count p • addc := by
  induction groups generalizing wt with
  | nil => simp
  | cons group groups ih =>
    have hgroup : (sumGroup k addc wt group).1 p =
        wt.1 p + (group.map (·.param k)).count p • addc := foldl_addCountTo_weights group _
    rw [List.foldl_cons, ih, hgroup, List.flatten_cons, List.map_append, List.count_append,
      add_nsmul, add_assoc]

theorem shareTied_weights (h : HalfArc (Weight F)) (hp : h.param k = p → h.arc.isTied = false)
    (acc : GroupShares F) : (shareTied k scale t acc h).weights p = acc.weights p := by
  rw [shareTied]
  split
  case isTrue htied =>
    refine Function.update_of_ne (fun heq => ?_) _ _
    rw [hp heq.symm] at htied
    cases htied
  case isFalse => split <;> rfl

omit [IsStrictOrderedRing F] in
theorem shareNormal_apply (h : HalfArc (Weight F)) (hp : h.param k = p → h.arc.isNormal = false)
    (share : Weight F → Weight F) (w : Weights F) : shareNormal k share w h p = w p := by
  rw [shareNormal]
  split
  case isTrue hnormal =>
    refine Function.update_of_ne (fun heq => ?_) _ _
    rw [hp heq.symm] at hnormal
    cases hnormal
  case isFalse => rfl

theorem shareGroup_apply (hlocked : ∀ h ∈ group, h.param k = p → h.arc.isLocked = true)
    (w : Weights F) : shareGroup k scale uniform t w group p = w p := by
  have htied : (group.foldl (shareTied k scale t) ⟨w, 0, 0⟩).weights p = w p := by
    refine List.foldlRecOn (motive := fun acc : GroupShares F => acc.weights p = w p) group _ rfl
      fun acc hacc h hh => ?_
    refine (shareTied_weights h (fun hp => ?_) acc).trans hacc
    by_contra htied
    exact absurd (hlocked h hh hp)
      (by simp [FSTArc.not_isLocked_of_isTied (eq_true_of_ne_false htied)])
  have hnormal (share : Weight F → Weight F) (w' : Weights F) :
      group.foldl (shareNormal k share) w' p = w' p := by
    refine List.foldlRecOn (motive := fun v : Weights F => v p = w' p) group _ rfl
      fun v hv h hh => ?_
    refine (shareNormal_apply h (fun hp => ?_) share v).trans hv
    by_contra hnormal
    exact absurd (hlocked h hh hp)
      (by simp [FSTArc.not_isLocked_of_isNormal (eq_true_of_ne_false hnormal)])
  rw [shareGroup]
  split
  case isTrue => exact (hnormal _ _).trans htied
  case isFalse => exact (hnormal _ _).trans htied

end Writes

section Frame

variable {F : Type u} [Field F] [LinearOrder F] [IsStrictOrderedRing F]
variable {order : HashOrder (ℕ × List (HalfArc (Weight F)))} {method : NormalizeMethod F}
variable {uniform : Bool} {k : ℕ} {x : WFST (Weight F)} {p : Param}

theorem normalize_NONE (hgroup : method.group = .NONE) (w : Weights F) :
    x.normalize order method uniform k w = w := by
  simp only [WFST.normalize, WFST.normGroups, hgroup, List.foldl_nil]

theorem normalize_apply (hgroup : method.group ≠ .NONE)
    (hlocked : ∀ h ∈ x.arcsTable, h.param k = p → h.arc.isLocked = true) (w : Weights F) :
    x.normalize order method uniform k w p = w p + (x.params k).count p • method.addCount := by
  have hperm := x.normGroups_flatten_perm order hgroup
  have hsecond (t : TieTotals F) (w' : Weights F) :
      (x.normGroups order method.group).foldl (shareGroup k method.scale uniform t) w' p = w' p := by
    refine List.foldlRecOn (motive := fun v : Weights F => v p = w' p) _ _ rfl
      fun v hv group hmem => (shareGroup_apply (fun h hh hp => ?_) v).trans hv
    exact hlocked h (hperm.mem_iff.mp (List.mem_flatten.mpr ⟨group, hmem, hh⟩)) hp
  rw [WFST.normalize, hsecond, foldl_sumGroup_weights, (hperm.map (·.param k)).count_eq, WFST.params]

theorem normalize_of_not_mem (hp : p ∉ x.params k) (w : Weights F) :
    x.normalize order method uniform k w p = w p := by
  by_cases hgroup : method.group = .NONE
  · rw [normalize_NONE hgroup]
  · have hne : ∀ h ∈ x.arcsTable, h.param k ≠ p := fun h hh heq =>
      hp (WFST.mem_params.mpr ⟨h, hh, heq⟩)
    rw [normalize_apply hgroup (fun h hh heq => absurd heq (hne h hh)), List.count_eq_zero.mpr hp,
      zero_nsmul, add_zero]

/-- Normalizing adds the constant to the weight of a locked arc. -/
theorem normalize_locked (hgroup : method.group ≠ .NONE) {h : HalfArc (Weight F)}
    (hh : h ∈ x.arcsTable) (hlocked : h.arc.isLocked = true) (w : Weights F) :
    x.normalize order method uniform k w (h.param k) = w (h.param k) + method.addCount := by
  have hcount : (x.params k).count (h.param k) = 1 :=
    List.count_eq_one_of_mem (x.params_nodup k) (List.mem_map_of_mem hh)
  rw [normalize_apply hgroup, hcount, one_nsmul]
  intro h' hh' heq
  rwa [WFST.eq_of_param_eq hh' hh heq]

end Frame

end Carmel
