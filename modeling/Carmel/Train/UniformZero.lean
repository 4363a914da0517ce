/-
# Groups of weight zero

With `uniform_zero_normgroups` the second pass of `normalize` goes on where the normal arcs
of a group have no weight, and divides zero by zero, which is no number. Here it is decided
what the option does to a group: which share the arcs get that the name of the option
promises, and which groups it leaves alone.
-/

import Carmel.Train.NormalizedGroups

namespace Carmel

open Math

universe u

/-- What is stored in an arc. -/
inductive Value (F : Type u) [Zero F] [LE F]
  | nan
  | inf
  | of (w : Weight F)
deriving DecidableEq

section Model

variable {F : Type u} [Field F] [LinearOrder F] [IsStrictOrderedRing F]

/-- What a sum takes from a value: to `isZero`, what is no number is zero. -/
def Value.weight : Value F → Weight F
  | of w => w
  | nan | inf => 0

/-- `operator/`, as a difference of logarithms. -/
def Weight.divide (a b : Weight F) : Value F :=
  if b ≠ 0 then .of (a / b) else if a = 0 then .nan else .inf

/-- A tied arc of a group is written by the first loop of the second pass. -/
def storeTied (k : ℕ) (scale : Weight F → Weight F) (t : TieTotals F) (v : Param → Value F)
    (h : HalfArc (Weight F)) : Param → Value F :=
  if h.arc.isTied then Function.update v (h.param k) (.of (tiedWeight scale t h.arc.groupId)) else v

/-- A normal one by the last. -/
def storeNormal (k : ℕ) (share : Weight F → Value F) (v : Param → Value F) (h : HalfArc (Weight F)) :
    Param → Value F :=
  if h.arc.isNormal then Function.update v (h.param k) (share (v (h.param k)).weight) else v

/-- The second pass over a group, as `shareGroup`, but for the division. -/
def storeGroup (k : ℕ) (scale : Weight F → Weight F) (uniformZeroNormgroups : Bool) (t : TieTotals F)
    (v : Param → Value F) (group : List (HalfArc (Weight F))) : Param → Value F :=
  let acc := group.foldl (shareTied k scale t) ⟨fun p => (v p).weight, 0, 0⟩
  let v := group.foldl (storeTied k scale t) v
  let fractionRemain := 1 - acc.reserved
  if fractionRemain ≠ 0 ∧ (uniformZeroNormgroups ∨ acc.normalSum ≠ 0) then
    group.foldl
      (storeNormal k fun w => Weight.divide (fractionRemain * scale w) (scale acc.normalSum)) v
  else group.foldl (storeNormal k fun _ => .of 0) v

/-- The first pass. -/
def WFST.sumGroups (order : HashOrder (ℕ × List (HalfArc (Weight F)))) (method : NormalizeMethod F)
    (k : ℕ) (x : WFST (Weight F)) (w : Weights F) : Weights F × TieTotals F :=
  (x.normGroups order method.group).foldl (sumGroup k method.addCount) (w, ⟨0, 0, 0⟩)

/-- `normalize`, with what is stored in the arcs. -/
def WFST.normalizeValues (order : HashOrder (ℕ × List (HalfArc (Weight F))))
    (method : NormalizeMethod F) (uniformZeroNormgroups : Bool) (k : ℕ) (x : WFST (Weight F))
    (w : Weights F) : Param → Value F :=
  let sums := x.sumGroups order method k w
  (x.normGroups order method.group).foldl
    (storeGroup k method.scale uniformZeroNormgroups sums.2) fun p => .of (sums.1 p)

end Model

section Groups

variable {F : Type u} [Field F] [LinearOrder F] [IsStrictOrderedRing F]
variable {k : ℕ} {scale : Weight F → Weight F} {t : TieTotals F} {group : List (HalfArc (Weight F))}
variable {v v' : Param → Value F} {w : Weights F} {h : HalfArc (Weight F)} {uniform : Bool}

/-- What the normal arcs of a group weigh together. -/
def normalSum (k : ℕ) (w : Weights F) (group : List (HalfArc (Weight F))) : Weight F :=
  (group.map fun h => if h.arc.isNormal then w (h.param k) else 0).sum

/-- What the second pass takes from the normal arcs of a group. -/
def reservedSum (k : ℕ) (scale : Weight F → Weight F) (t : TieTotals F) (w : Weights F)
    (group : List (HalfArc (Weight F))) : Weight F :=
  (group.map fun h =>
    if h.arc.isTied then tiedWeight scale t h.arc.groupId
    else if h.arc.isLocked then w (h.param k) else 0).sum

theorem normalSum_congr {w' : Weights F} (hw : ∀ a ∈ group, w' (a.param k) = w (a.param k)) :
    normalSum k w' group = normalSum k w group :=
  congrArg List.sum (List.map_congr_left fun a ha => by rw [hw a ha])

theorem reservedSum_congr {w' : Weights F} (hw : ∀ a ∈ group, w' (a.param k) = w (a.param k)) :
    reservedSum k scale t w' group = reservedSum k scale t w group :=
  congrArg List.sum (List.map_congr_left fun a ha => by rw [hw a ha])

theorem FSTArc.isNormal_iff {W : Type u} {arc : FSTArc W} :
    arc.isNormal = true ↔ arc.isTied = false ∧ arc.isLocked = false := by
  by_cases htied : arc.isTied = true
  · simp only [htied, Bool.true_eq_false, false_and, iff_false]
    intro hnormal
    simp_all [FSTArc.isNormal, FSTArc.isTied]
  · rw [Bool.not_eq_true] at htied
    rw [FSTArc.isNormal_eq_not_isLocked htied]
    simp [htied]

/-- The sums of the first loop. A tied arc is written at its own place only. -/
theorem foldl_shareTied_sums (hnodup : (group.map (·.param k)).Nodup) (acc : GroupShares F) :
    (group.foldl (shareTied k scale t) acc).normalSum =
        acc.normalSum + normalSum k acc.weights group ∧
      (group.foldl (shareTied k scale t) acc).reserved =
        acc.reserved + reservedSum k scale t acc.weights group := by
  induction group generalizing acc with
  | nil => simp [normalSum, reservedSum]
  | cons h group ih =>
    rw [List.map_cons, List.nodup_cons] at hnodup
    have hsame : ∀ a ∈ group, (shareTied k scale t acc h).weights (a.param k) =
        acc.weights (a.param k) := by
      intro a ha
      apply shareTied_weights
      intro heq
      exact absurd (List.mem_map.mpr ⟨a, ha, heq.symm⟩) hnodup.1
    obtain ⟨hsum, hres⟩ := ih hnodup.2 (shareTied k scale t acc h)
    rw [List.foldl_cons, hsum, hres, normalSum_congr hsame, reservedSum_congr hsame]
    have hcons : normalSum k acc.weights (h :: group) =
        (if h.arc.isNormal then acc.weights (h.param k) else 0) +
          normalSum k acc.weights group := rfl
    have hcons' : reservedSum k scale t acc.weights (h :: group) =
        (if h.arc.isTied then tiedWeight scale t h.arc.groupId
          else if h.arc.isLocked then acc.weights (h.param k) else 0) +
          reservedSum k scale t acc.weights group := rfl
    rw [hcons, hcons', shareTied]
    by_cases htied : h.arc.isTied = true
    · simp [htied, FSTArc.isNormal_iff, add_assoc]
    · by_cases hlocked : h.arc.isLocked = true
      · simp [htied, hlocked, FSTArc.isNormal_iff, add_assoc]
      · simp [htied, hlocked, FSTArc.isNormal_iff, add_assoc]

/-- What is left for the normal arcs of a group. -/
def remains (k : ℕ) (scale : Weight F → Weight F) (t : TieTotals F) (w : Weights F)
    (group : List (HalfArc (Weight F))) : Weight F := 1 - reservedSum k scale t w group

/-- What a normal arc of weight `a` gets. -/
def normalValue (scale : Weight F → Weight F) (uniform : Bool) (left sum a : Weight F) : Value F :=
  if left ≠ 0 ∧ (uniform ∨ sum ≠ 0) then Weight.divide (left * scale a) (scale sum) else .of 0

/-- What the second pass stores in the arcs of a group. -/
theorem storeGroup_mem (hnodup : (group.map (·.param k)).Nodup)
    (hv : ∀ a ∈ group, v (a.param k) = .of (w (a.param k))) (hh : h ∈ group) :
    storeGroup k scale uniform t v group (h.param k) = if h.arc.isNormal then
        normalValue scale uniform (remains k scale t w group) (normalSum k w group) (w (h.param k))
      else if h.arc.isTied then .of (tiedWeight scale t h.arc.groupId) else .of (w (h.param k)) := by
  have hweights : ∀ a ∈ group, (v (a.param k)).weight = w (a.param k) := by
    intro a ha
    rw [hv a ha]
    rfl
  obtain ⟨hsum, hres⟩ : _ ∧ (group.foldl (shareTied k scale t) ⟨fun p => (v p).weight, 0, 0⟩).reserved = _ :=
    foldl_shareTied_sums hnodup _
  rw [zero_add, normalSum_congr hweights] at hsum
  rw [zero_add, reservedSum_congr hweights] at hres
  have htied : group.foldl (storeTied k scale t) v (h.param k) =
      if h.arc.isTied then .of (tiedWeight scale t h.arc.groupId) else v (h.param k) := by
    exact foldl_update_if_mem (fun a : HalfArc (Weight F) => a.param k) (fun a => a.arc.isTied)
      (fun a _ => Value.of (tiedWeight scale t a.arc.groupId)) hnodup hh v
  have hstore (share : Weight F → Value F) (u : Param → Value F) :
      group.foldl (storeNormal k share) u (h.param k) =
        if h.arc.isNormal then share (u (h.param k)).weight else u (h.param k) :=
    foldl_update_if_mem (fun a : HalfArc (Weight F) => a.param k) (fun a => a.arc.isNormal)
      (fun _ a => share a.weight) hnodup hh u
  rw [storeGroup, hsum, hres, normalValue, remains]
  by_cases hleft : 1 - reservedSum k scale t w group ≠ 0 ∧ (uniform ∨ normalSum k w group ≠ 0)
  · simp only [if_pos hleft, hstore, htied]
    by_cases hn : h.arc.isNormal = true
    · have hnot := (FSTArc.isNormal_iff.mp hn).1
      simp only [hn, if_true, hnot, Bool.false_eq_true, if_false, hv h hh, Value.weight]
    · simp only [hn, if_false, hv h hh, Bool.false_eq_true]
  · simp only [if_neg hleft, hstore, htied]
    by_cases hn : h.arc.isNormal = true
    · simp only [hn, if_true]
    · simp only [hn, if_false, hv h hh, Bool.false_eq_true]

theorem storeGroup_of_forall_ne {p : Param} (hp : ∀ a ∈ group, a.param k ≠ p) :
    storeGroup k scale uniform t v group p = v p := by
  have htied : group.foldl (storeTied k scale t) v p = v p := by
    exact foldl_update_if_of_forall_ne (fun a : HalfArc (Weight F) => a.param k) (fun a => a.arc.isTied)
      (fun a _ => Value.of (tiedWeight scale t a.arc.groupId)) hp v
  have hstore (share : Weight F → Value F) (u : Param → Value F) :
      group.foldl (storeNormal k share) u p = u p :=
    foldl_update_if_of_forall_ne (fun a : HalfArc (Weight F) => a.param k) (fun a => a.arc.isNormal)
      (fun _ a => share a.weight) hp u
  rw [storeGroup]
  split
  · rw [hstore, htied]
  · rw [hstore, htied]

/-- All groups: what is stored in a group is decided by what its arcs had before the second pass. -/
theorem foldl_storeGroup_mem {groups : List (List (HalfArc (Weight F)))}
    (hnodup : (groups.flatten.map (·.param k)).Nodup) (hgroup : group ∈ groups) (hh : h ∈ group)
    (hv : ∀ a ∈ group, v (a.param k) = .of (w (a.param k))) :
    groups.foldl (storeGroup k scale uniform t) v (h.param k) = if h.arc.isNormal then
        normalValue scale uniform (remains k scale t w group) (normalSum k w group) (w (h.param k))
      else if h.arc.isTied then .of (tiedWeight scale t h.arc.groupId) else .of (w (h.param k)) := by
  obtain ⟨hone, v', hsame, hfold⟩ := exists_foldl_blocks (·.param k)
    (fun v group p hp => storeGroup_of_forall_ne (v := v) hp) hnodup hgroup v
  rw [hfold h hh]
  exact storeGroup_mem hone (fun a ha => (hsame a ha).trans (hv a ha)) hh

end Groups

section Uniform

variable {F : Type u} [Field F] [LinearOrder F] [IsStrictOrderedRing F]
variable {k : ℕ} {scale : Weight F → Weight F} {t : TieTotals F} {group : List (HalfArc (Weight F))}
variable {v v' : Param → Value F} {w : Weights F} {h : HalfArc (Weight F)}

/-- What the option promises of a group, of which `w` are the weights before the second pass, and `v`
and `v'` the values after it with the option and without: a group whose unlocked arcs weigh nothing
shares what the locked arcs leave among its normal arcs, and nothing in it is no number; a group
with some weight is as it is without the option. -/
structure UniformIn (k : ℕ) (v v' : Param → Value F) (w : Weights F)
    (group : List (HalfArc (Weight F))) : Prop where
  uniform : unlockedSum k w group = 0 → lockedSum k w group < 1 →
    ∀ h ∈ group, h.arc.isNormal = true →
      v (h.param k) = .of ((1 - lockedSum k w group) / (group.countP (·.arc.isNormal) : ℕ))
  number : unlockedSum k w group = 0 → lockedSum k w group < 1 → ∀ h ∈ group, v (h.param k) ≠ .nan
  unaffected : 0 < unlockedSum k w group → ∀ h ∈ group, v (h.param k) = v' (h.param k)

/-- When it is kept: there are no normal arcs; or the unlocked arcs weigh nothing, the scale of zero
is not zero, and what is left is the share of each; or the normal arcs weigh something or nothing
is left for them. -/
def UniformFits (k : ℕ) (scale : Weight F → Weight F) (t : TieTotals F) (w : Weights F)
    (group : List (HalfArc (Weight F))) : Prop :=
  group.countP (·.arc.isNormal) = 0 ∨
    (unlockedSum k w group = 0 ∧ (lockedSum k w group < 1 → scale 0 ≠ 0 ∧
      remains k scale t w group =
        (1 - lockedSum k w group) / (group.countP (·.arc.isNormal) : ℕ))) ∨
    (0 < unlockedSum k w group ∧ (normalSum k w group ≠ 0 ∨ remains k scale t w group = 0))

theorem FSTArc.isLocked_of_isNormal {W : Type u} {arc : FSTArc W} (h : arc.isNormal = true) :
    arc.isLocked = false := (FSTArc.isNormal_iff.mp h).2

theorem weight_eq_zero (hzero : unlockedSum k w group = 0) (hh : h ∈ group)
    (hlocked : h.arc.isLocked = false) : w (h.param k) = 0 := by
  apply List.all_zero_of_le_zero_le_of_sum_eq_zero (fun _ _ => zero_le) hzero
  exact List.mem_map.mpr ⟨h, List.mem_filter.mpr ⟨hh, by rw [hlocked]; rfl⟩, rfl⟩

theorem normalSum_eq_zero (hzero : unlockedSum k w group = 0) : normalSum k w group = 0 := by
  apply List.sum_eq_zero
  intro a ha
  obtain ⟨h, hh, rfl⟩ := List.mem_map.mp ha
  by_cases hn : h.arc.isNormal = true
  · rw [if_pos hn, weight_eq_zero hzero hh (FSTArc.isLocked_of_isNormal hn)]
  · rw [if_neg hn]

/-- What a normal arc gets where the normal arcs weigh nothing. -/
theorem normalValue_true_zero (left : Weight F) :
    normalValue scale true left 0 0 =
      if left = 0 then .of 0 else if scale 0 = 0 then .nan else .of left := by
  rw [normalValue]
  by_cases hleft : left = 0
  · rw [if_neg fun h => h.1 hleft, if_pos hleft]
  · rw [if_pos ⟨hleft, .inl rfl⟩, if_neg hleft, Weight.divide]
    by_cases hscale : scale 0 = 0
    · rw [if_neg fun h => h hscale, if_pos hscale, if_pos (by rw [hscale, mul_zero])]
    · rw [if_pos hscale, if_neg hscale, mul_div_cancel_right₀ _ hscale]

theorem normalValue_ne_zero {sum : Weight F} (hsum : sum ≠ 0) (left a : Weight F) :
    normalValue scale true left sum a = normalValue scale false left sum a := by
  simp only [normalValue, ne_eq, hsum, not_false_eq_true, or_true, and_true]

theorem normalValue_left_zero (uniform : Bool) (sum a : Weight F) :
    normalValue scale uniform 0 sum a = .of 0 := if_neg fun h => h.1 rfl

theorem normalValue_false_zero (left a : Weight F) : normalValue scale false left 0 a = .of 0 := by
  apply if_neg
  rintro ⟨-, h | h⟩
  · cases h
  · exact h rfl

/-- The two runs of the second pass over a group, with `w` in its arcs before. -/
theorem uniformIn_iff (hon : ∀ h ∈ group, v (h.param k) = if h.arc.isNormal then
        normalValue scale true (remains k scale t w group) (normalSum k w group) (w (h.param k))
      else if h.arc.isTied then .of (tiedWeight scale t h.arc.groupId) else .of (w (h.param k)))
    (hoff : ∀ h ∈ group, v' (h.param k) = if h.arc.isNormal then
        normalValue scale false (remains k scale t w group) (normalSum k w group) (w (h.param k))
      else if h.arc.isTied then .of (tiedWeight scale t h.arc.groupId) else .of (w (h.param k))) :
    UniformIn k v v' w group ↔ UniformFits k scale t w group := by
  by_cases hcount : group.countP (·.arc.isNormal) = 0
  · -- no arc is normal, so no arc depends on the option
    have hnormal : ∀ h ∈ group, ¬ h.arc.isNormal = true := List.countP_eq_zero.mp hcount
    refine iff_of_true ⟨fun _ _ h hh hn => absurd hn (hnormal h hh), fun _ _ h hh => ?_,
      fun _ h hh => ?_⟩ (.inl hcount)
    · rw [hon h hh, if_neg (hnormal h hh)]
      split <;> exact fun h => by cases h
    · rw [hon h hh, hoff h hh, if_neg (hnormal h hh), if_neg (hnormal h hh)]
  · obtain ⟨h₀, hh₀, hn₀⟩ := List.countP_pos_iff.mp (Nat.pos_of_ne_zero hcount)
    have hcast : ((group.countP (·.arc.isNormal) : ℕ) : Weight F) ≠ 0 := Nat.cast_ne_zero.mpr hcount
    rcases eq_or_lt_of_le (zero_le : 0 ≤ unlockedSum k w group) with hzero | hpos
    · have hzero := hzero.symm
      have hvalue : ∀ h ∈ group, h.arc.isNormal = true → v (h.param k) =
          if remains k scale t w group = 0 then .of 0 else if scale 0 = 0 then .nan
            else .of (remains k scale t w group) := by
        intro h hh hn
        rw [hon h hh, if_pos hn, normalSum_eq_zero hzero,
          weight_eq_zero hzero hh (FSTArc.isLocked_of_isNormal hn), normalValue_true_zero]
      constructor
      · intro huniform
        refine .inr (.inl ⟨hzero, fun hlocked => ?_⟩)
        have hshare := huniform.uniform hzero hlocked h₀ hh₀ hn₀
        rw [hvalue h₀ hh₀ hn₀] at hshare
        by_cases hleft : remains k scale t w group = 0
        · rw [if_pos hleft] at hshare
          have hdiv : (1 - lockedSum k w group) / ((group.countP (·.arc.isNormal) : ℕ) : Weight F) = 0 :=
            (Value.of.inj hshare).symm
          rw [div_eq_zero_iff, or_iff_left hcast, tsub_eq_zero_iff_le] at hdiv
          exact absurd hlocked (not_lt.mpr hdiv)
        · rw [if_neg hleft] at hshare
          by_cases hscale : scale 0 = 0
          · rw [if_pos hscale] at hshare
            cases hshare
          · rw [if_neg hscale] at hshare
            exact ⟨hscale, Value.of.inj hshare⟩
      · intro hfits
        have hfits : lockedSum k w group < 1 → scale 0 ≠ 0 ∧ remains k scale t w group =
            (1 - lockedSum k w group) / ((group.countP (·.arc.isNormal) : ℕ) : Weight F) := by
          rcases hfits with h | h | h
          · exact absurd h hcount
          · exact h.2
          · exact absurd hzero h.1.ne'
        have hshare : lockedSum k w group < 1 → ∀ h ∈ group, h.arc.isNormal = true →
            v (h.param k) = .of ((1 - lockedSum k w group) /
              ((group.countP (·.arc.isNormal) : ℕ) : Weight F)) := by
          intro hlocked h hh hn
          obtain ⟨hscale, hleft⟩ := hfits hlocked
          have hne : remains k scale t w group ≠ 0 := by
            rw [hleft, ne_eq, div_eq_zero_iff, or_iff_left hcast, tsub_eq_zero_iff_le]
            exact not_le.mpr hlocked
          rw [hvalue h hh hn, if_neg hne, if_neg hscale, hleft]
        refine ⟨fun _ => hshare, fun _ hlocked h hh => ?_, fun h => absurd hzero h.ne'⟩
        by_cases hn : h.arc.isNormal = true
        · rw [hshare hlocked h hh hn]
          exact fun h => by cases h
        · rw [hon h hh, if_neg hn]
          split <;> exact fun h => by cases h
    · constructor
      · intro huniform
        refine .inr (.inr ⟨hpos, ?_⟩)
        by_contra hboth
        rw [not_or, not_not] at hboth
        obtain ⟨hsum, hleft⟩ := hboth
        have hsame := huniform.unaffected hpos h₀ hh₀
        rw [hon h₀ hh₀, hoff h₀ hh₀, if_pos hn₀, if_pos hn₀, hsum, normalValue_false_zero] at hsame
        have hzero : w (h₀.param k) = 0 := by
          apply List.all_zero_of_le_zero_le_of_sum_eq_zero (fun _ _ => zero_le) hsum
          exact List.mem_map.mpr ⟨h₀, hh₀, if_pos hn₀⟩
        rw [hzero, normalValue_true_zero, if_neg hleft] at hsame
        by_cases hscale : scale 0 = 0
        · rw [if_pos hscale] at hsame
          cases hsame
        · rw [if_neg hscale] at hsame
          exact hleft (Value.of.inj hsame)
      · intro hfits
        refine ⟨fun h => absurd h hpos.ne', fun h => absurd h hpos.ne', fun _ h hh => ?_⟩
        rw [hon h hh, hoff h hh]
        by_cases hn : h.arc.isNormal = true
        · rw [if_pos hn, if_pos hn]
          rcases hfits with h | h | ⟨-, hsum | hleft⟩
          · exact absurd h hcount
          · exact absurd h.1 hpos.ne'
          · exact normalValue_ne_zero hsum _ _
          · rw [hleft, normalValue_left_zero, normalValue_left_zero]
        · rw [if_neg hn, if_neg hn]

/-- **What `uniform_zero_normgroups` does.** A group is treated as promised in these cases only. -/
theorem normalize_uniform_iff (order : HashOrder (ℕ × List (HalfArc (Weight F))))
    (method : NormalizeMethod F) (k : ℕ) (x : WFST (Weight F)) (w : Weights F)
    (group : List (HalfArc (Weight F))) (hgroup : group ∈ x.normGroups order method.group) :
    UniformIn k (x.normalizeValues order method true k w) (x.normalizeValues order method false k w)
        (x.sumGroups order method k w).1 group ↔
      UniformFits k method.scale (x.sumGroups order method k w).2 (x.sumGroups order method k w).1
        group := by
  have hne : method.group ≠ .NONE := by
    intro hnone
    rw [hnone] at hgroup
    exact absurd hgroup List.not_mem_nil
  have hperm := x.normGroups_flatten_perm order hne
  have hnodup : ((x.normGroups order method.group).flatten.map (·.param k)).Nodup :=
    ((hperm.map _).nodup_iff).mpr (x.params_nodup k)
  apply uniformIn_iff
  · exact fun h hh => foldl_storeGroup_mem hnodup hgroup hh fun _ _ => rfl
  · exact fun h hh => foldl_storeGroup_mem hnodup hgroup hh fun _ _ => rfl

end Uniform

/-- The arcs of `threeLoops`, one of them locked, make one group. -/
def threeLoopsGroup : List (HalfArc (Weight ℚ)) := threeLoops.outArcs 0

theorem normalize_uniform_threeLoops :
    UniformIn 0 (threeLoops.normalizeValues ⟨id, fun _ => .refl _⟩ ⟨.JOINT, id, 0⟩ true 0 fun _ => 0)
        (threeLoops.normalizeValues ⟨id, fun _ => .refl _⟩ ⟨.JOINT, id, 0⟩ false 0 fun _ => 0)
        (threeLoops.sumGroups ⟨id, fun _ => .refl _⟩ ⟨.JOINT, id, 0⟩ 0 fun _ => 0).1
        threeLoopsGroup ↔
      UniformFits 0 id (threeLoops.sumGroups ⟨id, fun _ => .refl _⟩ ⟨.JOINT, id, 0⟩ 0 fun _ => 0).2
        (threeLoops.sumGroups ⟨id, fun _ => .refl _⟩ ⟨.JOINT, id, 0⟩ 0 fun _ => 0).1
        threeLoopsGroup :=
  normalize_uniform_iff ⟨id, fun _ => .refl _⟩ ⟨.JOINT, id, 0⟩ 0 threeLoops (fun _ => 0)
    threeLoopsGroup (List.mem_map.mpr ⟨0, by decide, rfl⟩)

/-- With all weights zero, the normal loops become no number. -/
theorem not_uniformIn_threeLoops :
    ¬ ∀ group ∈ threeLoops.normGroups ⟨id, fun _ => .refl _⟩ .JOINT,
      UniformIn 0 (threeLoops.normalizeValues ⟨id, fun _ => .refl _⟩ ⟨.JOINT, id, 0⟩ true 0 fun _ => 0)
        (threeLoops.normalizeValues ⟨id, fun _ => .refl _⟩ ⟨.JOINT, id, 0⟩ false 0 fun _ => 0)
        (threeLoops.sumGroups ⟨id, fun _ => .refl _⟩ ⟨.JOINT, id, 0⟩ 0 fun _ => 0).1 group := by
  intro h
  have hnumber := (h threeLoopsGroup (List.mem_map.mpr ⟨0, by decide, rfl⟩)).number
    (by decide +kernel) (by decide +kernel) ⟨0, 1, ⟨2, 2, 0, 0, FSTArc.noGroup⟩⟩ (by decide +kernel)
  apply hnumber
  have hnan : (threeLoops.normalizeValues ⟨id, fun _ => .refl _⟩ ⟨.JOINT, id, 0⟩ true 0 fun _ => 0)
      ⟨0, 0, 1⟩ = .nan := by decide +kernel
  exact hnan

end Carmel
