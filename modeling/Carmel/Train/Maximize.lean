/-
# One maximization step

`maximize` turns the expected counts of the composed arcs into new weights: they are
distributed to the arcs the composed arcs were made from, and the transducers are
normalized, or, where they are not to be, put back. All weights are in one memory:
transducer `k` of the cascade is at address `k`, and the composed transducer at the next
one, unless it is the only one.
-/

import Carmel.Cascade.CompressChains
import Carmel.Train.Normalize

namespace Carmel

open CascadeParameters

universe u

/-- What is trained: the recorder, the transducers of the cascade with their methods, and the
composed transducer, which in a trivial cascade is the only one. -/
structure TrainCascade (F : Type u) [Zero F] [LE F] where
  recorder : CascadeParameters
  members : List (WFST (Weight F) × NormalizeMethod F)
  composed : WFST (Weight F)
  single : recorder.trivial = true → ∃ method, members = [(composed, method)]

/-- The weights of the arcs, and the fields of `arc_counts` that keep weights for later. -/
structure TrainWeights (F : Type u) [Zero F] [LE F] where
  weight : Weights F
  scratch : Weights F
  emWeight : Weights F
  bestWeight : Weights F

/-- What an estimate leaves for `maximize`, and the rate it is called with. -/
structure MaximizeArgs (F : Type u) [Zero F] [LE F] where
  counts : Weights F
  priorCounts : Weights F
  deltaScale : F

/-- `absdiff`. -/
def absdiff {F : Type u} [Field F] [LinearOrder F] [IsStrictOrderedRing F] (a b : Weight F) : Weight F :=
  if a < b then b - a else a - b

section Model

variable {F : Type u} [Field F] [LinearOrder F] [IsStrictOrderedRing F]
variable (order : HashOrder (ℕ × List (HalfArc (Weight F)))) (pow : Weight F → F → Weight F)

namespace TrainCascade

variable (T : TrainCascade F)

def trivial : Bool := T.recorder.trivial

/-- The transducers of the cascade. -/
def transducers : List (WFST (Weight F)) := T.members.map Prod.fst

/-- The address of the composed transducer. -/
def composedAt : ℕ := if T.trivial then 0 else T.members.length

/-- The arcs that `arcs.visit` visits. -/
def arcs : List Param := T.composed.params T.composedAt

def unlockedArcs : List Param := T.composed.unlockedParams T.composedAt

/-- The arcs of the transducers that are not normalized. -/
def noneArcs : List Param :=
  T.members.zipIdx.flatMap fun m => if m.1.2.group = .NONE then m.1.1.params m.2 else []

/-- `normalize`, for a whole cascade. -/
def normalize (w : Weights F) : Weights F :=
  T.members.zipIdx.foldl (fun w m => m.1.1.normalize order m.1.2 false m.2 w) w

/-- `distribute_counts`. -/
def distributeCounts (w : Weights F) : Weights F :=
  T.recorder.distributeCounts T.transducers T.composed (fun h => w (h.param T.composedAt)) w

/-- `use_counts`. -/
def useCounts (w : Weights F) : Weights F := T.normalize order (T.distributeCounts w)

/-- `load_none`, of what `save_none` saved. -/
def loadNone (saved w : Weights F) : Weights F := onArcs T.noneArcs saved w

/-- `update`. The weights of the chains are calculated before any arc is written. -/
def update (w : Weights F) : Weights F :=
  if T.trivial then w
  else
    T.composed.arcsTable.foldl
      (fun v h => Function.update v (h.param T.composedAt)
        (accumulateChain w 1 (T.recorder.chainOf h))) w

/-- `use_counts_final`. -/
def useCountsFinal (w : Weights F) : Weights F :=
  if T.trivial then w else T.update (T.loadNone w (T.useCounts order w))

def saveCounts (s : TrainWeights F) : TrainWeights F :=
  { s with emWeight := onArcs T.arcs s.weight s.emWeight }

/-- `save_best`: of a cascade the counts that gave the weights, otherwise the weights. -/
def saveBest (s : TrainWeights F) : TrainWeights F :=
  { s with bestWeight := onArcs T.arcs (if T.trivial then s.weight else s.emWeight) s.bestWeight }

/-- `load_best`. -/
def loadBest (s : TrainWeights F) : TrainWeights F :=
  { s with weight := onArcs T.arcs s.bestWeight s.weight }

def prepNewWeights (args : MaximizeArgs F) (s : TrainWeights F) : TrainWeights F :=
  { s with
    scratch := onArcs T.unlockedArcs s.weight s.scratch
    weight := onArcs T.unlockedArcs (fun p => args.counts p + args.priorCounts p) s.weight }

def overrelax (deltaScale : F) (s : TrainWeights F) : TrainWeights F :=
  { s with
    emWeight := onArcs T.arcs s.weight s.emWeight
    weight :=
      if 1 < deltaScale then
        onArcs T.unlockedArcs (fun p =>
          if 0 < s.scratch p then s.scratch p * pow (s.weight p / s.scratch p) deltaScale
          else s.weight p) s.weight
      else s.weight }

def keepEmWeight (s : TrainWeights F) : TrainWeights F :=
  { s with weight := onArcs T.arcs s.emWeight s.weight }

def maxChange (s : TrainWeights F) : Weight F :=
  T.unlockedArcs.foldl (fun c p => max c (absdiff (s.weight p) (s.scratch p))) 0

/-- The weights after `load_none`. -/
def newWeights (args : MaximizeArgs F) (s : TrainWeights F) : TrainWeights F :=
  let prepared := T.prepNewWeights args s
  { prepared with weight := T.loadNone s.weight (T.useCounts order prepared.weight) }

/-- `maximize`: the new weights, and the greatest change. The cascade's only transducer is the
one that is normalized again. -/
def maximize (args : MaximizeArgs F) (s : TrainWeights F) : TrainWeights F × Weight F :=
  let s := T.newWeights order args s
  if T.trivial then
    let s := T.overrelax pow args.deltaScale s
    let s := if 1 < args.deltaScale then { s with weight := T.normalize order s.weight } else s
    (s, T.maxChange s)
  else (s, 10)

/-- Any number of iterations of EM, each with the counts of its estimate. -/
def iterate (iterations : List (MaximizeArgs F)) (s : TrainWeights F) : TrainWeights F :=
  iterations.foldl (fun s args => (T.maximize order pow args s).1) s

end TrainCascade

end Model

namespace TrainCascade

section Normalize

variable {F : Type u} [Field F] [LinearOrder F] [IsStrictOrderedRing F]
variable {order : HashOrder (ℕ × List (HalfArc (Weight F)))} {T : TrainCascade F}
variable {k : ℕ} {x : WFST (Weight F)} {method : NormalizeMethod F} {p : Param}

omit [Field F] [LinearOrder F] [IsStrictOrderedRing F] in
theorem fst_of_mem_params {W : Type u} {x : WFST W} (hp : p ∈ x.params k) : p.fst = k := by
  obtain ⟨h, -, rfl⟩ := WFST.mem_params.mp hp
  rfl

theorem foldl_normalize_of_ne (members : List ((WFST (Weight F) × NormalizeMethod F) × ℕ))
    (hne : ∀ m ∈ members, m.2 ≠ p.fst) (w : Weights F) :
    members.foldl (fun w m => m.1.1.normalize order m.1.2 false m.2 w) w p = w p := by
  refine List.foldlRecOn (motive := fun v : Weights F => v p = w p) _ _ rfl fun v hv m hm => ?_
  exact (normalize_of_not_mem (fun hp => hne m hm (fst_of_mem_params hp).symm) v).trans hv

variable (order) in
theorem normalize_member (hm : T.members[k]? = some (x, method)) (w : Weights F) :
    ∃ v : Weights F, (∀ q, q.fst = k → v q = w q) ∧
      ∀ q, q.fst = k → T.normalize order w q = x.normalize order method false k v q := by
  obtain ⟨hk, hget⟩ := List.getElem?_eq_some_iff.mp hm
  have hsplit : T.members.zipIdx =
      (T.members.take k).zipIdx ++ ((x, method), k) :: (T.members.drop (k + 1)).zipIdx (k + 1) := by
    conv_lhs => rw [← List.take_append_drop k T.members, List.drop_eq_getElem_cons hk, hget]
    rw [List.zipIdx_append, List.length_take_of_le hk.le, Nat.zero_add, List.zipIdx_cons]
  refine ⟨(T.members.take k).zipIdx.foldl (fun w m => m.1.1.normalize order m.1.2 false m.2 w) w,
    fun q hq => ?_, fun q hq => ?_⟩
  · apply foldl_normalize_of_ne
    intro m hm heq
    have hlt := List.snd_lt_of_mem_zipIdx hm
    rw [List.length_take_of_le hk.le] at hlt
    omega
  · rw [normalize, hsplit, List.foldl_append, List.foldl_cons]
    apply foldl_normalize_of_ne
    intro m hm heq
    have hle := List.le_snd_of_mem_zipIdx hm
    omega

theorem normalize_of_no_member (hm : T.members[p.fst]? = none) (w : Weights F) :
    T.normalize order w p = w p := by
  apply foldl_normalize_of_ne
  rintro ⟨m, k⟩ hmem heq
  obtain rfl : k = p.fst := heq
  rw [List.mk_mem_zipIdx_iff_getElem?.mp hmem] at hm
  cases hm

/-- Training may change the weight at `p`: an unlocked arc of a transducer that is normalized. -/
def Trained (T : TrainCascade F) (p : Param) : Prop :=
  ∃ x method, T.members[p.fst]? = some (x, method) ∧ method.group ≠ .NONE ∧ p ∈ x.unlockedParams p.fst

/-- What normalizing adds where it should not write. -/
def added (T : TrainCascade F) (p : Param) : Weight F :=
  match T.members[p.fst]? with
  | some (x, method) => if method.group = .NONE then 0 else (x.params p.fst).count p • method.addCount
  | none => 0

theorem normalize_of_not_trained (hp : ¬ T.Trained p) (w : Weights F) :
    T.normalize order w p = w p + T.added p := by
  rw [added]
  cases hm : T.members[p.fst]? with
  | none => rw [normalize_of_no_member hm, add_zero]
  | some m =>
    obtain ⟨x, method⟩ := m
    obtain ⟨v, hv, hnormalize⟩ := normalize_member order hm w
    rw [hnormalize p rfl, ← hv p rfl]
    dsimp only
    by_cases hgroup : method.group = .NONE
    · rw [Carmel.normalize_NONE hgroup, if_pos hgroup, add_zero]
    · rw [if_neg hgroup]
      apply normalize_apply hgroup
      intro h hh heq
      by_contra hlocked
      exact hp ⟨x, method, hm, hgroup,
        WFST.mem_unlockedParams.mpr ⟨h, hh, eq_false_of_ne_true hlocked, heq⟩⟩

theorem added_locked (hm : T.members[k]? = some (x, method)) {h : HalfArc (Weight F)}
    (hh : h ∈ x.arcsTable) :
    T.added (h.param k) = if method.group = .NONE then 0 else method.addCount := by
  have hcount : (x.params k).count (h.param k) = 1 :=
    List.count_eq_one_of_mem (x.params_nodup k) (List.mem_map_of_mem hh)
  have hadded : T.added (h.param k) = match T.members[k]? with
      | some (x, method) =>
        if method.group = .NONE then 0 else (x.params k).count (h.param k) • method.addCount
      | none => 0 := rfl
  rw [hadded, hm]
  simp only [hcount, one_nsmul]

omit [IsStrictOrderedRing F] in
theorem not_trained_locked (hm : T.members[k]? = some (x, method)) {h : HalfArc (Weight F)}
    (hh : h ∈ x.arcsTable) (hlocked : h.arc.isLocked = true) : ¬ T.Trained (h.param k) := by
  rintro ⟨x', method', hm', -, hp⟩
  obtain ⟨rfl, rfl⟩ : x = x' ∧ method = method' := by
    simpa using Option.some.inj (hm.symm.trans hm')
  rw [(WFST.param_mem_unlockedParams hh).mp hp] at hlocked
  cases hlocked

end Normalize

section Step

variable {F : Type u} [Field F] [LinearOrder F] [IsStrictOrderedRing F]
variable {order : HashOrder (ℕ × List (HalfArc (Weight F)))} {pow : Weight F → F → Weight F}
variable {T : TrainCascade F} {p : Param}

omit [IsStrictOrderedRing F] in
theorem mem_noneArcs : p ∈ T.noneArcs ↔
    ∃ x method, T.members[p.fst]? = some (x, method) ∧ method.group = .NONE ∧ p ∈ x.params p.fst := by
  rw [noneArcs, List.mem_flatMap]
  constructor
  · rintro ⟨⟨⟨x, method⟩, k⟩, hm, hp⟩
    split at hp
    case isTrue hgroup =>
      obtain rfl : p.fst = k := fst_of_mem_params hp
      exact ⟨x, method, List.mk_mem_zipIdx_iff_getElem?.mp hm, hgroup, hp⟩
    case isFalse => cases hp
  · rintro ⟨x, method, hm, hgroup, hp⟩
    refine ⟨((x, method), p.fst), List.mk_mem_zipIdx_iff_getElem?.mpr hm, ?_⟩
    rwa [if_pos hgroup]

theorem added_of_mem_noneArcs (hp : p ∈ T.noneArcs) : T.added p = 0 := by
  obtain ⟨x, method, hm, hgroup, -⟩ := mem_noneArcs.mp hp
  rw [added, hm]
  exact if_pos hgroup

omit [IsStrictOrderedRing F] in
/-- An unlocked arc of the cascade is trained, or is saved and loaded. -/
theorem mem_noneArcs_of_not_trained (hp : ¬ T.Trained p) {arc : FSTArc (Weight F)}
    (harc : memory T.transducers p = some arc) (hlocked : arc.isLocked = false) : p ∈ T.noneArcs := by
  obtain ⟨x, hx, hh⟩ := mem_memory_iff.mp harc
  rw [transducers, List.getElem?_map, Option.map_eq_some_iff] at hx
  obtain ⟨⟨x, method⟩, hm, rfl⟩ := hx
  have hunlocked : p ∈ x.unlockedParams p.fst := WFST.mem_unlockedParams.mpr ⟨_, hh, hlocked, rfl⟩
  rw [mem_noneArcs]
  refine ⟨x, method, hm, ?_, WFST.mem_params.mpr ⟨_, hh, rfl⟩⟩
  by_contra hgroup
  exact hp ⟨x, method, hm, hgroup, hunlocked⟩

theorem loadNone_useCounts (hp : ¬ T.Trained p) (saved w : Weights F) (hw : w p = saved p) :
    T.loadNone saved (T.useCounts order w) p = saved p + T.added p := by
  by_cases hnone : p ∈ T.noneArcs
  · rw [loadNone, onArcs_of_mem hnone, added_of_mem_noneArcs hnone, add_zero]
  · have hdistribute : T.distributeCounts w p = w p := by
      apply distributeCounts_of_not_unlocked
      intro arc harc
      by_contra hlocked
      exact hnone (mem_noneArcs_of_not_trained hp harc (eq_false_of_ne_true hlocked))
    rw [loadNone, onArcs_of_not_mem hnone, useCounts, normalize_of_not_trained hp, hdistribute, hw]

theorem prepNewWeights_of_not_mem (hu : p ∉ T.unlockedArcs) (args : MaximizeArgs F)
    (s : TrainWeights F) : (T.prepNewWeights args s).weight p = s.weight p := by
  rw [prepNewWeights]
  dsimp only
  exact onArcs_of_not_mem hu

theorem overrelax_of_not_mem (hu : p ∉ T.unlockedArcs) (deltaScale : F) (s : TrainWeights F) :
    (T.overrelax pow deltaScale s).weight p = s.weight p := by
  rw [overrelax]
  dsimp only
  split
  case isTrue => exact onArcs_of_not_mem hu
  case isFalse => rfl

variable (order) in
theorem newWeights_apply (hp : ¬ T.Trained p) (hu : p ∉ T.unlockedArcs) (args : MaximizeArgs F)
    (s : TrainWeights F) : (T.newWeights order args s).weight p = s.weight p + T.added p :=
  loadNone_useCounts hp _ _ (prepNewWeights_of_not_mem hu args s)

/-- How often a step normalizes. -/
def normalizations (T : TrainCascade F) (args : MaximizeArgs F) : ℕ :=
  if T.trivial = true ∧ 1 < args.deltaScale then 2 else 1

theorem maximize_apply (hp : ¬ T.Trained p) (hu : p ∉ T.unlockedArcs) (args : MaximizeArgs F)
    (s : TrainWeights F) : (T.maximize order pow args s).1.weight p =
      s.weight p + T.normalizations args • T.added p := by
  have hnew := newWeights_apply order hp hu args s
  rw [maximize, normalizations]
  by_cases htrivial : T.trivial = true
  · rw [if_pos htrivial]
    by_cases hdelta : 1 < args.deltaScale
    · simp only [htrivial, hdelta, and_self, if_true]
      rw [normalize_of_not_trained hp, overrelax_of_not_mem hu, hnew, two_nsmul, add_assoc]
    · simp only [hdelta, and_false, if_false, one_nsmul]
      rw [overrelax_of_not_mem hu, hnew]
  · rw [if_neg htrivial, if_neg fun h => htrivial h.1, one_nsmul]
    exact hnew

theorem iterate_apply (hp : ¬ T.Trained p) (hu : p ∉ T.unlockedArcs)
    (iterations : List (MaximizeArgs F)) (s : TrainWeights F) :
    (T.iterate order pow iterations s).weight p =
      s.weight p + (iterations.map T.normalizations).sum • T.added p := by
  induction iterations generalizing s with
  | nil => simp [iterate]
  | cons args iterations ih =>
    have hstep : T.iterate order pow (args :: iterations) s =
        T.iterate order pow iterations (T.maximize order pow args s).1 := rfl
    rw [hstep, ih, maximize_apply hp hu, List.map_cons, List.sum_cons, add_nsmul, add_assoc]

end Step

end TrainCascade

end Carmel

/-!
## Locked arcs

The second pass of normalizing never writes to locked arcs; but the first adds its constant
to every arc of a group.
-/

namespace Carmel

universe u

variable {F : Type u} [Field F] [LinearOrder F] [IsStrictOrderedRing F]

theorem Weight.add_nsmul_eq_left_iff {w a : Weight F} {n : ℕ} (hn : n ≠ 0) :
    w + n • a = w ↔ a = 0 := by
  rw [← Subtype.coe_inj, ← Subtype.coe_inj, Nonneg.coe_add, Nonneg.coe_nsmul, Nonneg.coe_zero,
    add_eq_left, nsmul_eq_mul, mul_eq_zero, Nat.cast_eq_zero, or_iff_right hn]

/-- Normalizing does not write to locked arcs of the transducer. -/
def WFST.KeepsLocked (method : NormalizeMethod F) (x : WFST (Weight F)) : Prop :=
  method.group = .NONE ∨ method.addCount = 0 ∨ ∀ h ∈ x.arcsTable, h.arc.isLocked = false

omit [IsStrictOrderedRing F] in
theorem WFST.keepsLocked_iff {method : NormalizeMethod F} {x : WFST (Weight F)} : x.KeepsLocked method ↔
    ∀ h ∈ x.arcsTable, h.arc.isLocked = true →
      (if method.group = .NONE then 0 else method.addCount) = 0 := by
  rw [KeepsLocked]
  by_cases hgroup : method.group = .NONE
  · simp [hgroup]
  · by_cases hadd : method.addCount = 0
    · simp [hadd]
    · simp [hgroup, hadd]

omit [IsStrictOrderedRing F] in
theorem TrainCascade.not_mem_unlockedArcs {T : TrainCascade F} {k : ℕ} {x : WFST (Weight F)}
    {method : NormalizeMethod F} (hm : T.members[k]? = some (x, method)) {h : HalfArc (Weight F)}
    (hh : h ∈ x.arcsTable) (hlocked : h.arc.isLocked = true) : h.param k ∉ T.unlockedArcs := by
  intro hmem
  have hk : k = T.composedAt := by
    obtain ⟨h', -, -, heq⟩ := WFST.mem_unlockedParams.mp hmem
    exact (congrArg Param.fst heq).symm
  by_cases htrivial : T.trivial = true
  · obtain ⟨method', hmembers⟩ := T.single htrivial
    have hzero : k = 0 := by rw [hk, composedAt, if_pos htrivial]
    rw [hmembers, hzero] at hm
    obtain ⟨rfl, -⟩ : T.composed = x ∧ method' = method := by simpa using hm
    rw [unlockedArcs, ← hk, WFST.param_mem_unlockedParams hh, hlocked] at hmem
    cases hmem
  · have hlen : k = T.members.length := by rw [hk, composedAt, if_neg htrivial]
    rw [hlen, List.getElem?_eq_none (Nat.le_refl _)] at hm
    cases hm

/-- **Locked arcs keep their weights exactly when** the transducer is not normalized, or
nothing is added to the counts, or there are no locked arcs: in one normalization, and in
any number of iterations of EM from the first on. -/
theorem locked_weights_iff :
    (∀ (order : HashOrder (ℕ × List (HalfArc (Weight F)))) (method : NormalizeMethod F)
        (uniform : Bool) (k : ℕ) (x : WFST (Weight F)) (w : Weights F),
      (∀ h ∈ x.arcsTable, h.arc.isLocked = true →
        x.normalize order method uniform k w (h.param k) = w (h.param k)) ↔ x.KeepsLocked method) ∧
    ∀ (order : HashOrder (ℕ × List (HalfArc (Weight F)))) (pow : Weight F → F → Weight F)
        (T : TrainCascade F) (args : MaximizeArgs F) (more : List (MaximizeArgs F))
        (s : TrainWeights F),
      (∀ (k : ℕ) (x : WFST (Weight F)) (method : NormalizeMethod F),
          T.members[k]? = some (x, method) → ∀ h ∈ x.arcsTable, h.arc.isLocked = true →
        (T.iterate order pow (args :: more) s).weight (h.param k) = s.weight (h.param k)) ↔
      ∀ m ∈ T.members, m.1.KeepsLocked m.2 := by
  constructor
  · intro order method uniform k x w
    rw [WFST.keepsLocked_iff]
    refine forall₃_congr fun h hh hlocked => ?_
    by_cases hgroup : method.group = .NONE
    · simp [normalize_NONE hgroup, hgroup]
    · rw [normalize_locked hgroup hh hlocked, if_neg hgroup, ← one_nsmul method.addCount,
        Weight.add_nsmul_eq_left_iff one_ne_zero]
      simp
  · intro order pow T args more s
    have hpositive : ((args :: more).map T.normalizations).sum ≠ 0 := by
      have hone : T.normalizations args ≠ 0 := by
        rw [TrainCascade.normalizations]
        split <;> decide
      rw [List.map_cons, List.sum_cons]
      omega
    have hmember (k : ℕ) (x : WFST (Weight F)) (method : NormalizeMethod F)
        (hm : T.members[k]? = some (x, method)) :
        (∀ h ∈ x.arcsTable, h.arc.isLocked = true →
          (T.iterate order pow (args :: more) s).weight (h.param k) = s.weight (h.param k)) ↔
        x.KeepsLocked method := by
      rw [WFST.keepsLocked_iff]
      refine forall₃_congr fun h hh hlocked => ?_
      rw [TrainCascade.iterate_apply (TrainCascade.not_trained_locked hm hh hlocked)
        (TrainCascade.not_mem_unlockedArcs hm hh hlocked), TrainCascade.added_locked hm hh,
        Weight.add_nsmul_eq_left_iff hpositive]
    constructor
    · intro h m hm
      obtain ⟨k, hk⟩ := List.getElem?_of_mem hm
      exact (hmember k m.1 m.2 hk).mp (h k m.1 m.2 hk)
    · intro h k x method hm
      exact (hmember k x method hm).mpr (h _ (List.mem_of_getElem? hm))

/-- One state, with a locked loop. -/
def lockedLoop : WFST (Weight ℚ) where
  states := [⟨[⟨2, 2, 0, 1, FSTArc.lockedGroup⟩], 1⟩]
  final := some 0
  inAlph := sampleAlphabet
  outAlph := sampleAlphabet

theorem keepsLocked_lockedLoop :
    lockedLoop.normalize ⟨id, fun _ => .refl _⟩ ⟨.CONDITIONAL, id, 0⟩ false 0 (fun _ => 1)
      (HalfArc.param ⟨0, 0, ⟨2, 2, 0, 1, FSTArc.lockedGroup⟩⟩ 0) = 1 :=
  (locked_weights_iff.1 _ _ _ _ lockedLoop _).mpr (.inr (.inl rfl))
    ⟨0, 0, ⟨2, 2, 0, 1, FSTArc.lockedGroup⟩⟩ (by decide) (by decide)

theorem normalize_lockedLoop : ∃ h ∈ lockedLoop.arcsTable, h.arc.isLocked = true ∧
    lockedLoop.normalize ⟨id, fun _ => .refl _⟩ ⟨.CONDITIONAL, id, 1⟩ false 0 (fun _ => 1) (h.param 0) ≠
      1 :=
  ⟨⟨0, 0, ⟨2, 2, 0, 1, FSTArc.lockedGroup⟩⟩, by decide, by decide, by decide +kernel⟩

end Carmel
