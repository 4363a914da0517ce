/-
# Normalization groups after normalizing

Without tied arcs a normalization group is on its own: what its arcs weigh after
`normalize` is decided by what they weighed before. The locked arcs of a group keep
their weights and the others share what these leave, in the proportions they had.
-/

import Carmel.Train.Normalize

namespace Carmel

open Math

universe u

section Sums

variable {W : Type u}

/-- The normalization groups of a transducer: the arcs of a state, or those of them that read
one symbol. -/
def WFST.IsNormGroup (x : WFST W) : NormGroupBy → List (HalfArc W) → Prop
  | .CONDITIONAL, group => ∃ s a, group = (x.outArcs s).filter fun h => h.arc.inp = a
  | .JOINT, group => ∃ s, group = x.outArcs s
  | .NONE, _ => False

variable {F : Type u} [Field F] [LinearOrder F] [IsStrictOrderedRing F]

/-- What the arcs of a group weigh together. -/
def groupSum (k : ℕ) (w : Weights F) (group : List (HalfArc (Weight F))) : Weight F :=
  (group.map fun h => w (h.param k)).sum

def lockedSum (k : ℕ) (w : Weights F) (group : List (HalfArc (Weight F))) : Weight F :=
  groupSum k w (group.filter fun h => h.arc.isLocked)

def unlockedSum (k : ℕ) (w : Weights F) (group : List (HalfArc (Weight F))) : Weight F :=
  groupSum k w (group.filter fun h => !h.arc.isLocked)

/-- `w'` are the weights of the group when those before were `w`. -/
structure NormalizedFrom (k : ℕ) (w w' : Weights F) (group : List (HalfArc (Weight F))) : Prop where
  locked : ∀ h ∈ group, h.arc.isLocked = true → w' (h.param k) = w (h.param k)
  sum_eq_one : 0 < unlockedSum k w group → lockedSum k w group ≤ 1 → groupSum k w' group = 1
  share : 0 < unlockedSum k w group → lockedSum k w group ≤ 1 →
    unlockedSum k w' group = 1 - lockedSum k w group
  ratio : ∀ h ∈ group, ∀ h' ∈ group, h.arc.isLocked = false → h'.arc.isLocked = false →
    w' (h.param k) * w (h'.param k) = w' (h'.param k) * w (h.param k)
  nothing_left : 1 ≤ lockedSum k w group ∨ unlockedSum k w group = 0 →
    ∀ h ∈ group, h.arc.isLocked = false → w' (h.param k) = 0

end Sums

section Groups

variable {F : Type u} [Field F] [LinearOrder F] [IsStrictOrderedRing F]
variable {k : ℕ}
variable {w w' : Weights F} {t : TieTotals F} {group : List (HalfArc (Weight F))}
variable {h : HalfArc (Weight F)}

theorem groupSum_congr (hw : ∀ h ∈ group, w' (h.param k) = w (h.param k)) :
    groupSum k w' group = groupSum k w group :=
  congrArg List.sum (List.map_congr_left hw)

theorem groupSum_perm {group' : List (HalfArc (Weight F))} (hperm : group.Perm group') :
    groupSum k w group = groupSum k w group' :=
  (hperm.map _).sum_eq

theorem lockedSum_perm {group' : List (HalfArc (Weight F))} (hperm : group.Perm group') :
    lockedSum k w group = lockedSum k w group' :=
  groupSum_perm (hperm.filter _)

theorem unlockedSum_perm {group' : List (HalfArc (Weight F))} (hperm : group.Perm group') :
    unlockedSum k w group = unlockedSum k w group' :=
  groupSum_perm (hperm.filter _)

theorem lockedSum_cons : lockedSum k w (h :: group) =
    (if h.arc.isLocked then w (h.param k) else 0) + lockedSum k w group := by
  by_cases hlocked : h.arc.isLocked = true
  · simp [lockedSum, groupSum, hlocked]
  · simp [lockedSum, groupSum, hlocked]

theorem unlockedSum_cons : unlockedSum k w (h :: group) =
    (if h.arc.isLocked then 0 else w (h.param k)) + unlockedSum k w group := by
  by_cases hlocked : h.arc.isLocked = true
  · simp [unlockedSum, groupSum, hlocked]
  · simp [unlockedSum, groupSum, hlocked]

theorem lockedSum_add_unlockedSum (k : ℕ) (w : Weights F) (group : List (HalfArc (Weight F))) :
    lockedSum k w group + unlockedSum k w group = groupSum k w group := by
  induction group with
  | nil => exact add_zero 0
  | cons h group ih =>
    have hsum : groupSum k w (h :: group) = w (h.param k) + groupSum k w group := rfl
    rw [lockedSum_cons, unlockedSum_cons, hsum, ← ih]
    by_cases hlocked : h.arc.isLocked = true
    · simp only [hlocked, if_true, zero_add, add_assoc]
    · simp only [hlocked, Bool.false_eq_true, if_false, zero_add]
      rw [add_left_comm]

theorem FSTArc.isNormal_eq_not_isLocked {W : Type u} {arc : FSTArc W} (htied : arc.isTied = false) :
    arc.isNormal = !arc.isLocked := by
  unfold isTied at htied
  unfold isNormal isLocked
  by_cases hlocked : arc.groupId = lockedGroup
  · simp [hlocked, lockedGroup, noGroup]
  · have hnormal : arc.groupId = noGroup := by
      by_contra hnormal
      simp [hlocked, hnormal] at htied
    simp [hnormal, lockedGroup, noGroup]

theorem foldl_shareTied_untied {scale : Weight F → Weight F}
    (htied : ∀ h ∈ group, h.arc.isTied = false) (acc : GroupShares F) :
    group.foldl (shareTied k scale t) acc =
      ⟨acc.weights, acc.normalSum + unlockedSum k acc.weights group,
        acc.reserved + lockedSum k acc.weights group⟩ := by
  induction group generalizing acc with
  | nil =>
    rw [List.foldl_nil]
    simp [unlockedSum, lockedSum, groupSum]
  | cons h group ih =>
    have hh := htied h List.mem_cons_self
    rw [List.foldl_cons, ih fun h' hh' => htied h' (List.mem_cons_of_mem h hh'), lockedSum_cons,
      unlockedSum_cons]
    by_cases hlocked : h.arc.isLocked = true
    · simp [shareTied, hh, hlocked, add_assoc]
    · simp [shareTied, hh, hlocked, add_assoc]

/-- What an unlocked arc of weight `v` gets. -/
def unlockedShare (locked unlocked v : Weight F) : Weight F :=
  if 1 - locked ≠ 0 ∧ unlocked ≠ 0 then (1 - locked) * v / unlocked else 0

theorem shareGroup_unlocked (htied : ∀ h ∈ group, h.arc.isTied = false)
    (hnodup : (group.map (·.param k)).Nodup) (hh : h ∈ group) (hlocked : h.arc.isLocked = false)
    (w : Weights F) :
    shareGroup k id false t w group (h.param k) =
      unlockedShare (lockedSum k w group) (unlockedSum k w group) (w (h.param k)) := by
  have hnormal : h.arc.isNormal = true := by
    rw [FSTArc.isNormal_eq_not_isLocked (htied h hh), hlocked]
    rfl
  rw [shareGroup, foldl_shareTied_untied htied]
  simp only [zero_add, Bool.false_eq_true, false_or, id]
  have hstore (share : Weight F → Weight F) (u : Weights F) :
      group.foldl (shareNormal k share) u (h.param k) = share (u (h.param k)) :=
    (foldl_update_if_mem (fun a : HalfArc (Weight F) => a.param k) (fun a => a.arc.isNormal)
      (fun _ v => share v) hnodup hh u).trans (if_pos hnormal)
  rw [unlockedShare]
  by_cases hleft : 1 - lockedSum k w group ≠ 0 ∧ unlockedSum k w group ≠ 0
  · rw [if_pos hleft, if_pos hleft, hstore]
  · rw [if_neg hleft, if_neg hleft, hstore]

theorem foldl_shareGroup_unlocked {groups : List (List (HalfArc (Weight F)))}
    (htied : ∀ h ∈ groups.flatten, h.arc.isTied = false)
    (hnodup : (groups.flatten.map (·.param k)).Nodup) (hgroup : group ∈ groups) (hh : h ∈ group)
    (hlocked : h.arc.isLocked = false) (w : Weights F) :
    groups.foldl (shareGroup k id false t) w (h.param k) =
      unlockedShare (lockedSum k w group) (unlockedSum k w group) (w (h.param k)) := by
  obtain ⟨hone, v, hsame, hfold⟩ := exists_foldl_blocks (·.param k)
    (fun w group p hp => shareGroup_apply (fun a ha heq => absurd heq (hp a ha)) w) hnodup hgroup w
  have htied' : ∀ a ∈ group, a.arc.isTied = false :=
    fun a ha => htied a (List.mem_flatten.mpr ⟨group, hgroup, ha⟩)
  have hsums : ∀ keep : HalfArc (Weight F) → Bool,
      groupSum k v (group.filter keep) = groupSum k w (group.filter keep) :=
    fun keep => groupSum_congr fun b hb => hsame b (List.mem_of_mem_filter hb)
  rw [hfold h hh, shareGroup_unlocked htied' hone hh hlocked, hsame h hh, lockedSum, unlockedSum,
    hsums, hsums]
  rfl

end Groups

section Normalize

variable {F : Type u} [Field F] [LinearOrder F] [IsStrictOrderedRing F]
variable {order : HashOrder (ℕ × List (HalfArc (Weight F)))} {method : NormalizeMethod F} {k : ℕ}
variable {x : WFST (Weight F)} {group : List (HalfArc (Weight F))} {h : HalfArc (Weight F)}

theorem WFST.exists_mem_normGroups {W : Type u} (order : HashOrder (ℕ × List (HalfArc W)))
    {x : WFST W} {method : NormGroupBy} {group : List (HalfArc W)} {h : HalfArc W}
    (hgroup : x.IsNormGroup method group) (hh : h ∈ group) :
    ∃ found ∈ x.normGroups order method, found.Perm group := by
  cases method with
  | NONE => exact hgroup.elim
  | JOINT =>
    rcases hgroup with ⟨s, rfl⟩
    exact ⟨_, List.mem_map_of_mem (List.mem_range.mpr (lt_of_adj ⟨hh, rfl⟩)), .refl _⟩
  | CONDITIONAL =>
    rcases hgroup with ⟨s, a, rfl⟩
    have hs : s < x.numStates := lt_of_adj ⟨List.mem_of_mem_filter hh, rfl⟩
    have hbucket : (indexBy .kInput (x.outArcs s)).lookup a =
        some ((x.outArcs s).filter fun h => h.arc.inp = a).reverse := by
      rw [lookup_indexBy]
      exact if_neg (List.ne_nil_of_mem hh)
    have hentry := (mem_indexBy_iff .kInput (x.outArcs s) a _).mpr hbucket
    refine ⟨_, List.mem_flatMap.mpr ⟨s, List.mem_range.mpr hs, ?_⟩, List.reverse_perm _⟩
    exact List.mem_map.mpr ⟨_, (order.perm _).mem_iff.mpr hentry, rfl⟩

theorem WFST.perm_isNormGroup {W : Type u} {order : HashOrder (ℕ × List (HalfArc W))}
    {x : WFST W} {method : NormGroupBy} {group : List (HalfArc W)}
    (hgroup : group ∈ x.normGroups order method) :
    ∃ found, x.IsNormGroup method found ∧ group.Perm found := by
  cases method with
  | NONE => cases hgroup
  | JOINT =>
    obtain ⟨s, -, rfl⟩ := List.mem_map.mp hgroup
    exact ⟨_, ⟨s, rfl⟩, .refl _⟩
  | CONDITIONAL =>
    obtain ⟨s, -, hs⟩ := List.mem_flatMap.mp hgroup
    obtain ⟨⟨a, bucket⟩, hentry, rfl⟩ := List.mem_map.mp hs
    have hlookup := (mem_indexBy_iff ..).mp ((order.perm _).mem_iff.mp hentry)
    rw [lookup_indexBy] at hlookup
    split at hlookup
    · cases hlookup
    · obtain rfl := Option.some.inj hlookup
      exact ⟨_, ⟨s, a, rfl⟩, List.reverse_perm _⟩

theorem WFST.IsNormGroup.sublist {W : Type u} {x : WFST W} {method : NormGroupBy}
    {group : List (HalfArc W)} (hgroup : x.IsNormGroup method group) :
    ∀ h ∈ group, h ∈ x.arcsTable := by
  intro h hh
  rw [arcsTable, List.mem_flatMap]
  cases method with
  | NONE => exact hgroup.elim
  | JOINT =>
    rcases hgroup with ⟨s, rfl⟩
    exact ⟨s, List.mem_range.mpr (lt_of_adj ⟨hh, rfl⟩), hh⟩
  | CONDITIONAL =>
    rcases hgroup with ⟨s, a, rfl⟩
    have hmem := List.mem_of_mem_filter hh
    exact ⟨s, List.mem_range.mpr (lt_of_adj ⟨hmem, rfl⟩), hmem⟩

variable (order k) in
/-- What normalizing leaves in an unlocked arc. -/
theorem normalize_unlocked (hscale : method.scale = id) (hadd : method.addCount = 0)
    (htied : ∀ h ∈ x.arcsTable, h.arc.isTied = false) (hgroup : x.IsNormGroup method.group group)
    (hh : h ∈ group) (hlocked : h.arc.isLocked = false) (w : Weights F) :
    x.normalize order method false k w (h.param k) =
      unlockedShare (lockedSum k w group) (unlockedSum k w group) (w (h.param k)) := by
  have hne : method.group ≠ .NONE := by
    intro hnone
    rw [hnone] at hgroup
    exact hgroup
  have hperm := x.normGroups_flatten_perm order hne
  obtain ⟨found, hfound, hsame⟩ := WFST.exists_mem_normGroups order hgroup hh
  have hfirst (t : TieTotals F) :
      ((x.normGroups order method.group).foldl (sumGroup k method.addCount) (w, t)).1 = w := by
    funext p
    rw [foldl_sumGroup_weights, hadd, nsmul_zero, add_zero]
  rw [WFST.normalize]
  simp only [hscale, hfirst]
  rw [foldl_shareGroup_unlocked _ _ hfound (hsame.mem_iff.mpr hh) hlocked, lockedSum_perm hsame,
    unlockedSum_perm hsame]
  · exact fun a ha => htied a (hperm.mem_iff.mp ha)
  · exact ((hperm.map _).nodup_iff).mpr (x.params_nodup k)

theorem lockedSum_normalize (hadd : method.addCount = 0)
    (hgroup : x.IsNormGroup method.group group) (uniform : Bool) (w : Weights F) :
    lockedSum k (x.normalize order method uniform k w) group = lockedSum k w group := by
  have hne : method.group ≠ .NONE := by
    intro hnone
    rw [hnone] at hgroup
    exact hgroup
  apply groupSum_congr
  intro h hh
  rw [List.mem_filter] at hh
  rw [normalize_locked hne (hgroup.sublist h hh.1) hh.2, hadd, add_zero]

variable (order k) in
/-- The unlocked arcs of a group share what the locked ones leave, or have nothing. -/
theorem unlockedSum_normalize (hscale : method.scale = id) (hadd : method.addCount = 0)
    (htied : ∀ h ∈ x.arcsTable, h.arc.isTied = false) (hgroup : x.IsNormGroup method.group group)
    (w : Weights F) :
    unlockedSum k (x.normalize order method false k w) group =
      if unlockedSum k w group ≠ 0 then 1 - lockedSum k w group else 0 := by
  have hnew : unlockedSum k (x.normalize order method false k w) group =
      ((group.filter fun h => !h.arc.isLocked).map fun h =>
        unlockedShare (lockedSum k w group) (unlockedSum k w group) (w (h.param k))).sum := by
    apply congrArg List.sum
    apply List.map_congr_left
    intro h hh
    rw [List.mem_filter, Bool.not_eq_true'] at hh
    exact normalize_unlocked order k hscale hadd htied hgroup hh.1 hh.2 w
  rw [hnew]
  by_cases hsum : unlockedSum k w group = 0
  · simp [unlockedShare, hsum]
  · rw [if_pos hsum]
    by_cases hleft : 1 - lockedSum k w group = 0
    · simp [unlockedShare, hleft]
    · have hshare (v : Weight F) : unlockedShare (lockedSum k w group) (unlockedSum k w group) v =
          (1 - lockedSum k w group) / unlockedSum k w group * v := by
        rw [unlockedShare, if_pos ⟨hleft, hsum⟩, mul_div_right_comm]
      simp only [hshare]
      rw [List.sum_map_mul_left]
      exact div_mul_cancel₀ _ hsum

theorem normalize_normalize {order' : HashOrder (ℕ × List (HalfArc (Weight F)))}
    (hscale : method.scale = id) (hadd : method.addCount = 0)
    (htied : ∀ h ∈ x.arcsTable, h.arc.isTied = false) (w : Weights F) :
    x.normalize order' method false k (x.normalize order method false k w) =
      x.normalize order method false k w := by
  by_cases hne : method.group = .NONE
  · rw [normalize_NONE hne]
  funext p
  by_cases hp : p ∈ x.params k
  swap
  · exact normalize_of_not_mem hp _
  rcases WFST.mem_params.mp hp with ⟨h, hh, rfl⟩
  by_cases hlocked : h.arc.isLocked = true
  · rw [normalize_locked hne hh hlocked, hadd, add_zero]
  rw [Bool.not_eq_true] at hlocked
  have hgroup : ∃ group, x.IsNormGroup method.group group ∧ h ∈ group := by
    rcases List.mem_flatMap.mp hh with ⟨s, _, hs⟩
    cases hmethod : method.group with
    | NONE => exact absurd hmethod hne
    | JOINT => exact ⟨_, ⟨s, rfl⟩, hs⟩
    | CONDITIONAL => exact ⟨_, ⟨s, h.arc.inp, rfl⟩, List.mem_filter.mpr ⟨hs, decide_eq_true rfl⟩⟩
  rcases hgroup with ⟨group, hgroup, hmem⟩
  rw [normalize_unlocked order' k hscale hadd htied hgroup hmem hlocked (x.normalize order method false k w),
    lockedSum_normalize hadd hgroup, unlockedSum_normalize order k hscale hadd htied hgroup]
  by_cases hleft : 1 - lockedSum k w group ≠ 0 ∧ unlockedSum k w group ≠ 0
  · rw [if_pos hleft.2, unlockedShare, if_pos ⟨hleft.1, hleft.1⟩, mul_div_cancel_left₀ _ hleft.1]
  · have hzero : x.normalize order method false k w (h.param k) = 0 := by
      rw [normalize_unlocked order k hscale hadd htied hgroup hmem hlocked, unlockedShare, if_neg hleft]
    rw [hzero, unlockedShare, mul_zero, zero_div, ite_self]

/-- **Normalized groups**, when there are no tied arcs and counts are neither scaled nor
smoothed. -/
theorem normalize_groups {order' : HashOrder (ℕ × List (HalfArc (Weight F)))}
    (hscale : method.scale = id) (hadd : method.addCount = 0)
    (htied : ∀ h ∈ x.arcsTable, h.arc.isTied = false) (w : Weights F) :
    (∀ group, x.IsNormGroup method.group group →
      NormalizedFrom k w (x.normalize order method false k w) group) ∧
    x.normalize order' method false k (x.normalize order method false k w) =
      x.normalize order method false k w := by
  refine ⟨fun group hgroup => ?_, normalize_normalize hscale hadd htied w⟩
  have hne : method.group ≠ .NONE := by
    intro hnone
    rw [hnone] at hgroup
    exact hgroup
  have hunlocked (h : HalfArc (Weight F)) (hh : h ∈ group) (hlocked : h.arc.isLocked = false) :=
    normalize_unlocked order k hscale hadd htied hgroup hh hlocked w
  have hsum := unlockedSum_normalize order k hscale hadd htied hgroup w
  constructor
  case locked =>
    intro h hh hlocked
    rw [normalize_locked hne (hgroup.sublist h hh) hlocked, hadd, add_zero]
  case share =>
    intro hpos _
    rw [hsum, if_pos hpos.ne']
  case sum_eq_one =>
    intro hpos hle
    rw [← lockedSum_add_unlockedSum, hsum, if_pos hpos.ne', lockedSum_normalize hadd hgroup]
    exact add_tsub_cancel_of_le hle
  case ratio =>
    intro h hh h' hh' hlocked hlocked'
    rw [hunlocked h hh hlocked, hunlocked h' hh' hlocked', unlockedShare, unlockedShare]
    split
    · rw [div_mul_eq_mul_div, div_mul_eq_mul_div, mul_right_comm]
    · rw [zero_mul, zero_mul]
  case nothing_left =>
    intro hzero h hh hlocked
    rw [hunlocked h hh hlocked, unlockedShare, if_neg]
    rintro ⟨hleft, hsum⟩
    rcases hzero with hle | hzero
    · exact hleft (tsub_eq_zero_of_le hle)
    · exact hsum hzero

end Normalize

/-- One state, with a locked loop and two others. -/
def threeLoops : WFST (Weight ℚ) where
  states := [⟨[⟨2, 2, 0, 0, FSTArc.lockedGroup⟩, ⟨2, 2, 0, 0, FSTArc.noGroup⟩,
    ⟨2, 0, 0, 0, FSTArc.noGroup⟩], 3⟩]
  final := some 0
  inAlph := ⟨["*e*", "*w*", "a"], Alphabet.nodup_letter, Alphabet.letter_first⟩
  outAlph := ⟨["*e*", "*w*", "a"], Alphabet.nodup_letter, Alphabet.letter_first⟩

theorem normalize_groups_threeLoops :
    (∀ group, threeLoops.IsNormGroup .CONDITIONAL group → NormalizedFrom 0 (fun _ => 1)
      (threeLoops.normalize ⟨id, fun _ => .refl _⟩ ⟨.CONDITIONAL, id, 0⟩ false 0 fun _ => 1) group) ∧
    threeLoops.normalize ⟨id, fun _ => .refl _⟩ ⟨.CONDITIONAL, id, 0⟩ false 0
        (threeLoops.normalize ⟨id, fun _ => .refl _⟩ ⟨.CONDITIONAL, id, 0⟩ false 0 fun _ => 1) =
      threeLoops.normalize ⟨id, fun _ => .refl _⟩ ⟨.CONDITIONAL, id, 0⟩ false 0 fun _ => 1 :=
  @normalize_groups ℚ _ _ _ ⟨id, fun _ => .refl _⟩ ⟨.CONDITIONAL, id, 0⟩ 0 threeLoops
    ⟨id, fun _ => .refl _⟩ rfl rfl (by decide) fun _ => 1

end Carmel
