/-
# Training never loses likelihood

An iteration of `train` estimates the counts of the arcs and puts normalized counts in the
place of their weights. For one transducer, with counts that are neither scaled nor smoothed
and a rate of one, the corpus gets no less probable by it, with tables or lattices, and
however many arcs are locked.
-/

import Carmel.Math.Likelihood
import Carmel.Train.Estimate
import Carmel.Train.Maximize
import Carmel.Train.NormalizedGroups

namespace Carmel

open Math

universe u

section Model

variable {F : Type u} [Field F] [LinearOrder F] [IsStrictOrderedRing F]

/-- The transducer at address `k` with the weights that are stored for its arcs. -/
def WFST.withWeights (k : ℕ) (w : Weights F) (x : WFST (Weight F)) : WFST (Weight F) :=
  { x with
    states := x.states.mapIdx fun s state =>
      { state with
        arcs := state.arcs.mapIdx fun pos arc => { arc with weight := w ⟨k, s, pos⟩ } } }

/-- The options that an iteration uses. -/
structure EmSettings (F : Type u) [Zero F] [LE F] where
  order : HashOrder (ℕ × List (HalfArc (Weight F)))
  pow : Weight F → F → Weight F
  prune : Bool
  cache : Bool
  useMatrix : Bool

/-- What is kept from one iteration to the next. -/
structure EmState (F : Type u) [Zero F] [LE F] where
  fb : ForwardBackward F
  weights : TrainWeights F

/-- The counts of a table, by where the arcs are. -/
def countsAt (k : ℕ) (t : List (ArcCounts F)) (p : Param) : Weight F :=
  ((t.map fun ac => (ac.arc.param k, ac.counts.untopD 0)).lookup p).getD 0

namespace TrainCascade

variable (T : TrainCascade F) (σ : EmSettings F)

/-- The composed transducer as it is now. -/
def current (w : Weights F) : WFST (Weight F) := T.composed.withWeights T.composedAt w

def emStart (exs : List (IOSymSeq F)) (w : TrainWeights F) : EmState F where
  fb := .make (T.current w.weight) σ.prune σ.cache σ.useMatrix (.read exs)
  weights := w

/-- An iteration without priors: the probability of the corpus, and what is kept. The table of
the arcs points to them, so it has their weights. -/
def emRound (s : EmState F) : Option (Weight F × EmState F) :=
  let x := T.current s.weights.weight
  (ForwardBackward.estimate x σ.pow σ.prune { s.fb with t := x.arcCounts }).bind fun r =>
    r.1.toOption.map fun e => (e.weighted, ⟨r.2,
      (T.maximize σ.order σ.pow ⟨countsAt T.composedAt e.t, 0, 1⟩ s.weights).1⟩)

/-- Iterations, and the probabilities that they find. -/
def emRounds : ℕ → EmState F → Option (List (Weight F) × EmState F)
  | 0, s => some ([], s)
  | n + 1, s => (T.emRound σ s).bind fun r => (emRounds n r.2).map fun rs => (r.1 :: rs.1, rs.2)

end TrainCascade

section Structure

variable {x : WFST (Weight F)} {k : ℕ} {w : Weights F} {inp out : List ℕ}

omit [IsStrictOrderedRing F]

theorem WFST.outArcs_withWeights (s : ℕ) : (x.withWeights k w).outArcs s =
    (x.outArcs s).map fun h => { h with arc := { h.arc with weight := w (h.param k) } } := by
  rw [outArcs, outArcs, state, state, withWeights, List.getD_eq_getElem?_getD,
    List.getD_eq_getElem?_getD, List.getElem?_mapIdx]
  cases x.states[s]? with
  | none => rfl
  | some state =>
    apply List.ext_getElem?
    intro i
    simp only [Option.map_some, Option.getD_some, List.getElem?_mapIdx, List.getElem?_map]
    cases state.arcs[i]? <;> rfl

theorem WFST.arcsTable_withWeights : (x.withWeights k w).arcsTable =
    x.arcsTable.map fun h => { h with arc := { h.arc with weight := w (h.param k) } } := by
  have hstates : (x.withWeights k w).numStates = x.numStates := List.length_mapIdx
  rw [arcsTable, arcsTable, hstates, List.map_flatMap]
  exact List.flatMap_congr fun s _ => outArcs_withWeights s

theorem weightOf_withWeights (id : ℕ) : weightOf (x.withWeights k w).arcCounts id =
    (x.arcsTable[id]?.map fun h => w (h.param k)).getD 0 := by
  rw [weightOf, WFST.arcCounts, WFST.arcsTable_withWeights, List.map_map, List.getElem?_map,
    Option.map_map]
  rfl

theorem WFST.ioIndex_withWeights : (x.withWeights k w).ioIndex = x.ioIndex := by
  rw [ioIndex, ioIndex, arcsTable_withWeights, List.foldl_map]
  rfl

theorem WFST.arcDest_withWeights : (x.withWeights k w).arcDest = x.arcDest := by
  funext id
  rw [arcDest, arcDest, arcsTable_withWeights, List.getElem?_map, Option.map_map]
  rfl

theorem addArcs_withWeights (step : DerivState → Exploration → Option (ℕ × Exploration)) (q : Lookup)
    (source : ℕ) (ids : List ℕ) (reachgoal : Bool) (L : Exploration) :
    addArcs (x.withWeights k w) step q source ids reachgoal L = addArcs x step q source ids reachgoal L := by
  induction ids generalizing reachgoal L with
  | nil => rfl
  | cons id ids ih => simp only [addArcs, WFST.arcDest_withWeights, ih]

theorem derive_withWeights (fuel : ℕ) :
    derive (x.withWeights k w) inp out fuel = derive x inp out fuel := by
  induction fuel with
  | zero => rfl
  | succ fuel ih =>
    funext d L
    have hlookup : addLookup (x.withWeights k w) (derive x inp out fuel) d =
        addLookup x (derive x inp out fuel) d := by
      funext src acc q
      cases acc
      simp only [addLookup, WFST.ioIndex_withWeights, addArcs_withWeights]
    rw [derive, derive, ih, hlookup]
    rfl

theorem initAndCompute_withWeights {prune : Bool} {ex : IOSymSeq F} :
    initAndCompute (x.withWeights k w) prune ex = initAndCompute x prune ex := by
  have hcompute : compute (x.withWeights k w) ex.i ex.o prune = compute x ex.i ex.o prune := by
    rw [compute, compute, derive_withWeights, deriveFuel, WFST.arcsTable_withWeights, List.length_map]
    rfl
  rw [initAndCompute, initAndCompute, hcompute]

theorem candAdj_withWeights : CandAdj (x.withWeights k w) inp out = CandAdj x inp out := by
  have hcandidates : candidates (x.withWeights k w) inp out = candidates x inp out := by
    funext d
    apply List.flatMap_congr
    intro q _
    simp only [candidatesOf, WFST.ioIndex_withWeights, WFST.arcDest_withWeights]
  funext d c d'
  rw [CandAdj, CandAdj, hcandidates]

theorem isDerivation_withWeights {cs : List Candidate} :
    IsDerivation (x.withWeights k w) inp out cs ↔ IsDerivation x inp out cs := by
  rw [IsDerivation, IsDerivation, candAdj_withWeights]
  rfl

theorem WFST.epsilonCycle_withWeights {s : ℕ} (h : (x.withWeights k w).EpsilonCycle s) :
    x.EpsilonCycle s := by
  rw [← onCycle_consume_iff [] [] (d := ⟨0, s, 0⟩)] at h
  refine (onCycle_consume_iff [] [] (d := ⟨0, s, 0⟩)).mp (h.mono fun {d e d'} hstep => ?_)
  have hcand := (exists_candAdj_iff (x.withWeights k w) [] [] d d').mpr ⟨e, hstep⟩
  rw [candAdj_withWeights] at hcand
  exact (exists_candAdj_iff x [] [] d d').mp hcand

theorem WFST.valid_withWeights (hx : x.Valid) : (x.withWeights k w).Valid := by
  have hstates : (x.withWeights k w).numStates = x.numStates := List.length_mapIdx
  have hback : ∀ state' ∈ (x.withWeights k w).states, ∀ arc' ∈ state'.arcs, ∃ state ∈ x.states,
      ∃ arc ∈ state.arcs, arc'.inp = arc.inp ∧ arc'.out = arc.out ∧ arc'.dest = arc.dest := by
    intro state' hstate' arc' harc'
    obtain ⟨s, hs, rfl⟩ := List.mem_mapIdx.mp hstate'
    obtain ⟨pos, hpos, rfl⟩ := List.mem_mapIdx.mp harc'
    exact ⟨_, List.getElem_mem hs, _, List.getElem_mem hpos, rfl, rfl, rfl⟩
  refine ⟨hstates ▸ hx.start_lt, hstates ▸ hx.final_lt, ?_, ?_, ?_⟩
  all_goals
    intro state' hstate' arc' harc'
    obtain ⟨state, hstate, arc, harc, hinp, hout, hdest⟩ := hback state' hstate' arc' harc'
  · rw [hdest, hstates]
    exact hx.dest_lt state hstate arc harc
  · rw [hinp]
    exact hx.inp_lt state hstate arc harc
  · rw [hout]
    exact hx.out_lt state hstate arc harc

end Structure

section Estimate

variable {x : WFST (Weight F)} {σ : EmSettings F} {exs : List (IOSymSeq F)} {fb : ForwardBackward F}
variable {Z : IOSymSeq F → Weight F} {C : IOSymSeq F → ℕ → Weight F}

/-- What `estimate` goes through is what it was made from. -/
structure ForwardBackward.Ready (x : WFST (Weight F)) (σ : EmSettings F) (exs : List (IOSymSeq F))
    (fb : ForwardBackward F) : Prop where
  useMatrix : fb.useMatrix = (σ.useMatrix && !σ.cache)
  cached : fb.cd.cached = σ.cache
  examples : fb.cd.corpus.examples = exs
  derivs : σ.cache = true → fb.cd.derivs = exs.filterMap (initAndCompute x σ.prune)

variable (x σ exs) in
omit [IsStrictOrderedRing F] in
theorem ForwardBackward.ready_make :
    (ForwardBackward.make x σ.prune σ.cache σ.useMatrix (.read exs)).Ready x σ exs := by
  cases hcache : σ.cache with
  | true =>
    obtain ⟨hderivs, hexamples, hcached⟩ :=
      foldl_cacheStep σ.prune x ⟨[], .read exs, true, true⟩ exs
    constructor <;> simp [make, CachedDerivs.make, CachedDerivs.cacheDerivations,
      TrainingCorpus.examples_read, hcache, hderivs, hexamples, hcached]
  | false =>
    constructor <;> simp [make, CachedDerivs.make, TrainingCorpus.examples_read, hcache]

/-- Where all examples can occur, an estimate takes in all of them, and keeps them. -/
theorem ForwardBackward.Ready.estimate (h : fb.Ready x σ exs) (ht : fb.t = x.arcCounts) (hx : x.Valid)
    (hcycle : ∀ s, ¬ x.EpsilonCycle s) (hZ : ExampleSums x Z C) (hne : exs ≠ [])
    (hsupp : ∀ ex ∈ exs, Supported x ex) :
    ∃ e fb', fb.estimate x σ.pow σ.prune = some (.ok e, fb') ∧ fb'.Ready x σ exs ∧
      TakesIn Z (matrixGain Z C) σ.pow exs ⟨clearedCounts x, 1, 1⟩ e := by
  have hexs : exs.isEmpty = false := by simpa using hne
  have hderived : exs.filter (hasDerivation x) = exs :=
    List.filter_eq_self.mpr fun ex hex => (hsupp ex hex).hasDerivation
  have hgains : gains (latticeGain x σ.prune Z C) exs = gains (matrixGain Z C) exs := by
    funext k
    refine congrArg List.sum (List.map_congr_left fun ex hex => ?_)
    exact congrFun (latticeGain_eq (hsupp ex hex).hasDerivation (hZ.ne_zero_iff.mpr (hsupp ex hex))) k
  obtain ⟨e', hrun', htakes'⟩ := estimateDerivs_takesIn σ.pow exs
    (e := ⟨clearedCounts x, 1, 1⟩) hcycle σ.prune hZ weightOf_clearedCounts
  rw [hderived] at htakes'
  replace htakes' : TakesIn Z (matrixGain Z C) σ.pow exs ⟨clearedCounts x, 1, 1⟩ e' :=
    ⟨hgains ▸ htakes'.t, htakes'.weighted, htakes'.unweighted⟩
  have hcleared : fb.t.map .clearCount = clearedCounts x := by
    rw [ht, clearedCounts]
  cases hmatrix : fb.useMatrix with
  | true =>
    obtain ⟨final, hfinal, -⟩ := hx.final_lt
    obtain ⟨e, hrun, htakes⟩ := estimateMatrix_takesIn σ.pow exs
      (e := ⟨clearedCounts x, 1, 1⟩) hx hfinal hcycle hZ weightOf_clearedCounts
    rw [List.filter_eq_self.mpr fun ex hex => decide_eq_true (hZ.ne_zero_iff.mpr (hsupp ex hex))] at hrun
    refine ⟨e, { fb with
      cd := { fb.cd with corpus := { fb.cd.corpus with examples := exs } }, t := e.t }, ?_,
      ⟨h.useMatrix, h.cached, rfl, h.derivs⟩, htakes⟩
    simp only [ForwardBackward.estimate, hmatrix, if_true, hfinal, Option.bind_some, hcleared,
      h.examples, hrun, Option.map_some, hexs, Bool.false_eq_true, if_false]
  | false =>
    cases hcache : σ.cache with
    | true =>
      refine ⟨e', { fb with cd := { fb.cd with first := false }, t := e'.t }, ?_,
        ⟨h.useMatrix, h.cached, h.examples, h.derivs⟩, htakes'⟩
      simp only [ForwardBackward.estimate, hmatrix, Bool.false_eq_true, if_false,
        CachedDerivs.foreachDeriv, h.cached, hcache, if_true, h.derivs hcache, foldl_zipIdx, hcleared,
        hrun', Option.map_some, h.examples, hexs]
    | false =>
      have hkept : exs.filter (fun ex => hasDerivation x ex || !(fb.cd.first && σ.prune)) = exs :=
        List.filter_eq_self.mpr fun ex hex => by simp [(hsupp ex hex).hasDerivation]
      have hcorpus : (if fb.cd.first then { fb.cd.corpus with examples := exs }.countAll
          else { fb.cd.corpus with examples := exs }).examples = exs := by
        split
        · rw [TrainingCorpus.countAll, TrainingCorpus.examples_foldl_count]
          rfl
        · rfl
      refine ⟨e', { fb with
        cd := { fb.cd with
          corpus := if fb.cd.first then { fb.cd.corpus with examples := exs }.countAll
            else { fb.cd.corpus with examples := exs }
          first := false }
        t := e'.t }, ?_, ⟨h.useMatrix, h.cached, hcorpus, fun hc => ?_⟩, htakes'⟩
      · simp only [ForwardBackward.estimate, hmatrix, Bool.false_eq_true, if_false,
          CachedDerivs.foreachDeriv, h.cached, hcache, snd_foreachExample,
          CachedDerivs.fst_foreachExample, hcleared, hrun', Option.map_some, h.examples, hkept,
          hcorpus, hexs]
      · rw [hcache] at hc
        cases hc

theorem gains_matrixGain (hZ : ∀ ex ∈ exs, Z ex ≠ 0) (i : ℕ) : gains (matrixGain Z C) exs i =
    ((exs.map fun ex => C ex i * Weight.setReal ex.weight / Z ex).sum : Weight F) := by
  rw [gains]
  induction exs with
  | nil => rfl
  | cons ex exs ih =>
    rw [List.forall_mem_cons] at hZ
    rw [List.map_cons, List.sum_cons, ih hZ.2, matrixGain, if_pos hZ.1, List.map_cons, List.sum_cons,
      WithTop.coe_add]

/-- The counts of an arc, once the examples are taken in. -/
theorem countsAt_eq {e : Estimate F} {raise : Weight F → F → Weight F} {k i : ℕ}
    {h : HalfArc (Weight F)} (htakes : TakesIn Z (matrixGain Z C) raise exs ⟨clearedCounts x, 1, 1⟩ e)
    (hZ : ∀ ex ∈ exs, Z ex ≠ 0) (hi : x.arcsTable[i]? = some h) : countsAt k e.t (h.param k) =
      (exs.map fun ex => C ex i * Weight.setReal ex.weight / Z ex).sum := by
  have harcs : e.t.map (·.arc) = x.arcsTable := by
    have harc := congrArg (List.map ArcCounts.arc) htakes.t
    rw [List.map_map, List.map_map] at harc
    refine harc.trans (List.ext_getElem? fun j => ?_)
    simp only [List.getElem?_map, addEach_getElem?, clearedCounts, WFST.arcCounts, Option.map_map]
    cases x.arcsTable[j]? <;> rfl
  have hlt : i < x.arcsTable.length := (List.getElem?_eq_some_iff.mp hi).1
  have hcounts := htakes.counts hlt
  rw [List.getElem?_map, Option.map_eq_some_iff] at hcounts
  obtain ⟨ac, hac, hcount⟩ := hcounts
  have hself : ac.arc.param k = h.param k := by
    rw [← harcs, List.getElem?_map, hac] at hi
    rw [← Option.some.inj hi]
  have hkeys : ((e.t.map fun ac => (ac.arc.param k, ac.counts.untopD 0)).map Prod.fst).Nodup := by
    have hnodup := x.params_nodup k
    rw [WFST.params, ← harcs, List.map_map] at hnodup
    rw [List.map_map]
    exact hnodup
  have hlookup := (mem_iff_lookup hkeys).mp (List.mem_map_of_mem (List.mem_of_getElem? hac))
  rw [countsAt, ← hself, hlookup, hcount, gains_matrixGain hZ]
  rfl

end Estimate

section Maximize

variable {T : TrainCascade F} {method : NormalizeMethod F}
variable {order : HashOrder (ℕ × List (HalfArc (Weight F)))} {pow : Weight F → F → Weight F}

/-- The counts, beside the weights of the locked arcs. -/
def WFST.prepared (x : WFST (Weight F)) (counts w : Weights F) : Weights F :=
  onArcs (x.unlockedParams 0) counts w

/-- At the rate one, maximizing a single transducer is normalizing its counts. -/
theorem maximize_single (hsingle : T.members = [(T.composed, method)]) (htrivial : T.trivial = true)
    (hgroup : method.group ≠ .NONE) (counts : Weights F) (s : TrainWeights F) :
    (T.maximize order pow ⟨counts, 0, 1⟩ s).1.weight =
      T.composed.normalize order method false 0 (T.composed.prepared counts s.weight) := by
  have hnone : T.noneArcs = [] := by simp [TrainCascade.noneArcs, hsingle, hgroup]
  have hunlocked : T.unlockedArcs = T.composed.unlockedParams 0 := by
    rw [TrainCascade.unlockedArcs, TrainCascade.composedAt, if_pos htrivial]
  have hdistribute (w : Weights F) : T.distributeCounts w = w := by
    rw [TrainCascade.distributeCounts, CascadeParameters.distributeCounts]
    exact if_pos htrivial
  have hload (saved w : Weights F) : T.loadNone saved w = w := by
    funext p
    rw [TrainCascade.loadNone, hnone, onArcs_of_not_mem List.not_mem_nil]
  rw [TrainCascade.maximize, if_pos htrivial]
  simp only [TrainCascade.overrelax, lt_irrefl, if_false, TrainCascade.newWeights, hload,
    TrainCascade.useCounts, hdistribute, TrainCascade.prepNewWeights, hunlocked, Pi.zero_apply, add_zero]
  rw [TrainCascade.normalize, hsingle]
  rfl

/-- The transducer is normalized by plain counts, without ties. -/
structure WFST.Plain (x : WFST (Weight F)) (method : NormalizeMethod F) : Prop where
  group : method.group ≠ .NONE
  scale : method.scale = id
  addCount : method.addCount = 0
  untied : ∀ h ∈ x.arcsTable, h.arc.isTied = false

/-- No group of arcs has more weight than one. -/
def WFST.GroupsLeOne (x : WFST (Weight F)) (method : NormGroupBy) (w : Weights F) : Prop :=
  ∀ group, x.IsNormGroup method group → groupSum 0 w group ≤ 1

variable {x : WFST (Weight F)} {counts w : Weights F} {group : List (HalfArc (Weight F))}
variable {h : HalfArc (Weight F)}

omit [IsStrictOrderedRing F] in
theorem prepared_apply (hh : h ∈ x.arcsTable) : x.prepared counts w (h.param 0) =
    if h.arc.isLocked then w (h.param 0) else counts (h.param 0) := by
  cases hlocked : h.arc.isLocked with
  | true =>
    exact onArcs_of_not_mem fun hp =>
      Bool.noConfusion (hlocked.symm.trans ((WFST.param_mem_unlockedParams hh).mp hp))
  | false => exact onArcs_of_mem ((WFST.param_mem_unlockedParams hh).mpr hlocked)

theorem lockedSum_prepared (hgroup : x.IsNormGroup method.group group) :
    lockedSum 0 (x.prepared counts w) group = lockedSum 0 w group := by
  apply groupSum_congr
  intro h hh
  rw [List.mem_filter] at hh
  rw [prepared_apply (hgroup.sublist h hh.1), if_pos hh.2]

theorem le_unlockedSum (hh : h ∈ group) (hlocked : h.arc.isLocked = false) :
    w (h.param 0) ≤ unlockedSum 0 w group :=
  List.single_le_sum (fun _ _ => zero_le) _
    (List.mem_map_of_mem (List.mem_filter.mpr ⟨hh, by rw [hlocked]; rfl⟩))

/-- An unlocked arc that has counts and weight shares something. -/
theorem share_ne_zero (hgroup : x.IsNormGroup method.group group) (hle : groupSum 0 w group ≤ 1)
    (hh : h ∈ group) (hlocked : h.arc.isLocked = false) (hcount : counts (h.param 0) ≠ 0)
    (hw : w (h.param 0) ≠ 0) :
    1 - lockedSum 0 (x.prepared counts w) group ≠ 0 ∧
      unlockedSum 0 (x.prepared counts w) group ≠ 0 := by
  constructor
  · rw [lockedSum_prepared hgroup]
    apply ne_of_gt
    rw [tsub_pos_iff_lt]
    refine lt_of_lt_of_le ?_ hle
    rw [← lockedSum_add_unlockedSum]
    exact lt_add_of_pos_right _ (lt_of_lt_of_le (pos_iff_ne_zero.mpr hw) (le_unlockedSum hh hlocked))
  · have hprepared := le_unlockedSum (w := x.prepared counts w) hh hlocked
    rw [prepared_apply (hgroup.sublist h hh), hlocked] at hprepared
    exact ne_of_gt (lt_of_lt_of_le (pos_iff_ne_zero.mpr hcount) hprepared)

/-- An arc that has counts and weight keeps some weight. -/
theorem normalize_ne_zero (hx : x.Plain method) (hle : x.GroupsLeOne method.group w)
    (hh : h ∈ x.arcsTable) (hcount : counts (h.param 0) ≠ 0) (hw : w (h.param 0) ≠ 0) :
    x.normalize order method false 0 (x.prepared counts w) (h.param 0) ≠ 0 := by
  cases hlocked : h.arc.isLocked with
  | true =>
    rwa [normalize_locked hx.group hh hlocked, hx.addCount, add_zero, prepared_apply hh, if_pos hlocked]
  | false =>
    obtain ⟨found, hfound, hmem⟩ := List.mem_flatten.mp
      ((x.normGroups_flatten_perm order hx.group).mem_iff.mpr hh)
    obtain ⟨group, hg, hperm⟩ := WFST.perm_isNormGroup hfound
    have hin := hperm.mem_iff.mp hmem
    have hshare := share_ne_zero hg (hle group hg) hin hlocked hcount hw
    rw [normalize_unlocked order 0 hx.scale hx.addCount hx.untied hg hin hlocked, unlockedShare,
      if_pos hshare, prepared_apply hh, hlocked, if_neg Bool.false_ne_true]
    exact div_ne_zero (mul_ne_zero hshare.1 hcount) hshare.2

theorem groupsLeOne_normalize (hx : x.Plain method) (hle : x.GroupsLeOne method.group w) :
    x.GroupsLeOne method.group (x.normalize order method false 0 (x.prepared counts w)) := by
  intro group hgroup
  have hlocked : lockedSum 0 w group ≤ 1 := by
    refine le_trans ?_ (hle group hgroup)
    rw [← lockedSum_add_unlockedSum]
    exact le_self_add
  rw [← lockedSum_add_unlockedSum, lockedSum_normalize hx.addCount hgroup,
    unlockedSum_normalize order 0 hx.scale hx.addCount hx.untied hgroup, lockedSum_prepared hgroup]
  split
  · exact (add_tsub_cancel_of_le hlocked).le
  · rwa [add_zero]

end Maximize

end Model

section Gain

open Real

variable {x : WFST (Weight ℝ)} {method : NormalizeMethod ℝ} {counts w : Weights ℝ}
variable {order : HashOrder (ℕ × List (HalfArc (Weight ℝ)))} {group : List (HalfArc (Weight ℝ))}

theorem sum_unlocked (scale : ℝ) (w' : Weights ℝ) (group : List (HalfArc (Weight ℝ))) :
    (group.map fun h => if h.arc.isLocked then 0
      else scale * ((w' (h.param 0) : ℝ) - w (h.param 0))).sum =
        scale * ((unlockedSum 0 w' group : ℝ) - unlockedSum 0 w group) := by
  induction group with
  | nil => simp [unlockedSum, groupSum]
  | cons h group ih =>
    rw [List.map_cons, List.sum_cons, ih, unlockedSum_cons, unlockedSum_cons]
    cases h.arc.isLocked with
    | true => simp
    | false =>
      simp only [Bool.false_eq_true, if_false, Nonneg.coe_add]
      ring

/-- **A group gains**: its counts fit its new weights at least as well as those it had. -/
theorem group_gain (hx : x.Plain method) (hgroup : x.IsNormGroup method.group group)
    (hle : groupSum 0 w group ≤ 1) (hused : ∀ h ∈ group, counts (h.param 0) ≠ 0 → w (h.param 0) ≠ 0)
    {w' : Weights ℝ} (hw' : w' = x.normalize order method false 0 (x.prepared counts w)) :
    0 ≤ (group.map fun h => (counts (h.param 0) : ℝ) *
      (log (w' (h.param 0)) - log (w (h.param 0)))).sum := by
  let L := lockedSum 0 (x.prepared counts w) group
  let S := unlockedSum 0 (x.prepared counts w) group
  let scale : Weight ℝ := if 1 - L ≠ 0 ∧ S ≠ 0 then S / (1 - L) else 0
  -- the counts are proportional to the new weights
  have hterm : ∀ h ∈ group, (if h.arc.isLocked then 0
      else (scale : ℝ) * ((w' (h.param 0) : ℝ) - w (h.param 0))) ≤
        (counts (h.param 0) : ℝ) * (log (w' (h.param 0)) - log (w (h.param 0))) := by
    intro h hh
    have hmem := hgroup.sublist h hh
    cases hlocked : h.arc.isLocked with
    | true =>
      have hsame : w' (h.param 0) = w (h.param 0) := by
        rw [hw', normalize_locked hx.group hmem hlocked, hx.addCount, add_zero, prepared_apply hmem,
          if_pos hlocked]
      rw [if_pos rfl, hsame, sub_self, mul_zero]
    | false =>
      rw [if_neg Bool.false_ne_true]
      have hnew := normalize_unlocked order 0 hx.scale hx.addCount hx.untied hgroup hh hlocked
        (x.prepared counts w)
      rw [← hw', prepared_apply hmem, hlocked, if_neg Bool.false_ne_true] at hnew
      have hcount : counts (h.param 0) = scale * w' (h.param 0) := by
        rw [hnew, unlockedShare]
        by_cases hshare : 1 - L ≠ 0 ∧ S ≠ 0
        · have hcancel : S / (1 - L) * ((1 - L) * counts (h.param 0) / S) = counts (h.param 0) := by
            have h1 := hshare.1
            have h2 := hshare.2
            field_simp
          rw [if_pos hshare, show scale = S / (1 - L) from if_pos hshare, hcancel]
        · rw [if_neg hshare, mul_zero]
          by_contra hcount
          exact hshare (share_ne_zero hgroup hle hh hlocked hcount (hused h hh hcount))
      exact sub_le_mul_log_sub_log (congrArg Subtype.val hcount) scale.2 (w _).2 (w' _).2 fun hc hw =>
        hused h hh (fun hzero => hc (congrArg Subtype.val hzero)) (Subtype.ext hw)
  refine le_trans ?_ (List.sum_le_sum hterm)
  rw [sum_unlocked]
  by_cases hshare : 1 - L ≠ 0 ∧ S ≠ 0
  · apply mul_nonneg scale.2
    have hsum : unlockedSum 0 w' group = 1 - L := by
      rw [hw', unlockedSum_normalize order 0 hx.scale hx.addCount hx.untied hgroup, if_pos hshare.2]
    have hbound : unlockedSum 0 w group ≤ 1 - L := by
      rw [le_tsub_iff_left (le_of_lt (tsub_pos_iff_lt.mp (pos_iff_ne_zero.mpr hshare.1)))]
      rw [show L = lockedSum 0 w group from lockedSum_prepared hgroup, lockedSum_add_unlockedSum]
      exact hle
    rw [hsum]
    exact sub_nonneg.mpr hbound
  · rw [show scale = 0 from if_neg hshare]
    simp

/-- The groups gain together. -/
theorem total_gain (hx : x.Plain method) (hle : x.GroupsLeOne method.group w)
    (hused : ∀ h ∈ x.arcsTable, counts (h.param 0) ≠ 0 → w (h.param 0) ≠ 0)
    {w' : Weights ℝ} (hw' : w' = x.normalize order method false 0 (x.prepared counts w)) :
    0 ≤ (x.arcsTable.map fun h => (counts (h.param 0) : ℝ) *
      (log (w' (h.param 0)) - log (w (h.param 0)))).sum := by
  rw [← ((x.normGroups_flatten_perm order hx.group).map _).sum_eq, List.map_flatten, List.sum_flatten,
    List.map_map]
  apply List.sum_nonneg
  intro gain hgain
  obtain ⟨found, hfound, rfl⟩ := List.mem_map.mp hgain
  obtain ⟨group, hg, hperm⟩ := WFST.perm_isNormGroup hfound
  rw [Function.comp_apply, (hperm.map _).sum_eq]
  exact group_gain hx hg (hle group hg) (fun h hh => hused h (hg.sublist h hh)) hw'

end Gain

section Run

open Real

/-- A transducer that is trained on its own, with plain counts, and how. -/
structure TrainCascade.Alone (T : TrainCascade ℝ) (σ : EmSettings ℝ) (method : NormalizeMethod ℝ) :
    Prop where
  trivial : T.trivial = true
  single : T.members = [(T.composed, method)]
  valid : T.composed.Valid
  acyclic : ∀ s, ¬ T.composed.EpsilonCycle s
  plain : T.composed.Plain method
  pow : ∀ (p : Weight ℝ) (nth : ℝ), p ≠ 0 → (σ.pow p nth : ℝ) = (p : ℝ) ^ nth

variable {T : TrainCascade ℝ} {σ : EmSettings ℝ} {method : NormalizeMethod ℝ}
variable {exs : List (IOSymSeq ℝ)} {s : EmState ℝ}

/-- What each iteration finds, and leaves. -/
structure EmState.Sound (T : TrainCascade ℝ) (σ : EmSettings ℝ) (method : NormalizeMethod ℝ)
    (exs : List (IOSymSeq ℝ)) (s : EmState ℝ) : Prop where
  ready : s.fb.Ready T.composed σ exs
  groups : T.composed.GroupsLeOne method.group s.weights.weight
  supported : ∀ ex ∈ exs, Supported (T.current s.weights.weight) ex

/-- What an iteration finds in the examples. -/
structure EmState.Finds (T : TrainCascade ℝ) (σ : EmSettings ℝ) (method : NormalizeMethod ℝ)
    (exs : List (IOSymSeq ℝ)) (s : EmState ℝ) (p : Weight ℝ) (s' : EmState ℝ) : Prop where
  run : T.emRound σ s = some (p, s')
  ready : s'.fb.Ready T.composed σ exs
  sums : ∃ Z C, ExampleSums (T.current s.weights.weight) Z C ∧
    p = (exs.map fun ex => Weight.pow σ.pow (Z ex) ex.weight).prod ∧
    ∃ counts : Weights ℝ, s'.weights.weight =
        T.composed.normalize σ.order method false 0 (T.composed.prepared counts s.weights.weight) ∧
      ∀ i h, T.composed.arcsTable[i]? = some h → counts (h.param 0) =
        (exs.map fun ex => C ex i * Weight.setReal ex.weight / Z ex).sum

theorem TrainCascade.Alone.current_eq (hT : T.Alone σ method) (w : Weights ℝ) :
    T.current w = T.composed.withWeights 0 w := by
  rw [TrainCascade.current, TrainCascade.composedAt, if_pos hT.trivial]

theorem TrainCascade.Alone.valid_current (hT : T.Alone σ method) (w : Weights ℝ) : (T.current w).Valid :=
  hT.current_eq w ▸ WFST.valid_withWeights hT.valid

theorem TrainCascade.Alone.acyclic_current (hT : T.Alone σ method) (w : Weights ℝ) (q : ℕ) :
    ¬ (T.current w).EpsilonCycle q := fun hq =>
  hT.acyclic q (WFST.epsilonCycle_withWeights (hT.current_eq w ▸ hq))

theorem TrainCascade.Alone.ready_current (hT : T.Alone σ method) (w : Weights ℝ)
    {fb : ForwardBackward ℝ} : fb.Ready (T.current w) σ exs ↔ fb.Ready T.composed σ exs := by
  have hsame : initAndCompute (F := ℝ) (T.current w) σ.prune = initAndCompute T.composed σ.prune := by
    funext ex
    rw [hT.current_eq, initAndCompute_withWeights]
  constructor
  · exact fun h => ⟨h.useMatrix, h.cached, h.examples, hsame ▸ h.derivs⟩
  · exact fun h => ⟨h.useMatrix, h.cached, h.examples, hsame ▸ h.derivs⟩

theorem TrainCascade.Alone.weightOf_current (hT : T.Alone σ method) (w : Weights ℝ) {i : ℕ}
    {a : HalfArc (Weight ℝ)} (ha : T.composed.arcsTable[i]? = some a) :
    weightOf (T.current w).arcCounts i = w (a.param 0) := by
  rw [hT.current_eq, weightOf_withWeights, ha]
  rfl

theorem EmState.Sound.exists_finds (h : s.Sound T σ method exs) (hT : T.Alone σ method)
    (hne : exs ≠ []) : ∃ p s', s.Finds T σ method exs p s' := by
  have hcurrent := hT.current_eq s.weights.weight
  obtain ⟨Z, C, hZ⟩ := exists_exampleSums (hT.valid_current s.weights.weight) (hT.acyclic_current _)
  have hstart : ({ s.fb with t := (T.current s.weights.weight).arcCounts } : ForwardBackward ℝ).Ready
      (T.current s.weights.weight) σ exs :=
    (hT.ready_current _).mpr ⟨h.ready.useMatrix, h.ready.cached, h.ready.examples, h.ready.derivs⟩
  obtain ⟨e, fb', hrun, hready', htakes⟩ :=
    hstart.estimate rfl (hT.valid_current _) (hT.acyclic_current _) hZ hne h.supported
  refine ⟨e.weighted, ⟨fb', (T.maximize σ.order σ.pow ⟨countsAt 0 e.t, 0, 1⟩ s.weights).1⟩, ?_,
    (hT.ready_current _).mp hready', Z, C, hZ, ?_, countsAt 0 e.t,
    maximize_single hT.single hT.trivial hT.plain.group (countsAt 0 e.t) s.weights, ?_⟩
  · rw [TrainCascade.emRound, TrainCascade.composedAt, if_pos hT.trivial]
    simp only [hrun, Option.bind_some]
    rfl
  · rw [htakes.weighted, one_mul]
  · intro i a ha
    have hcounts := countsAt_eq (k := 0) (i := i) htakes
      (fun ex hex => hZ.ne_zero_iff.mpr (h.supported ex hex))
      (h := { a with arc := { a.arc with weight := s.weights.weight (a.param 0) } }) (by
        rw [hcurrent, WFST.arcsTable_withWeights, List.getElem?_map, ha]
        rfl)
    exact hcounts

/-- The logarithm of what an estimate multiplies. -/
theorem log_prod_pow (hT : T.Alone σ method) {Z : IOSymSeq ℝ → Weight ℝ} (hZ : ∀ ex ∈ exs, Z ex ≠ 0) :
    0 < ((exs.map fun ex => Weight.pow σ.pow (Z ex) ex.weight).prod : ℝ) ∧
      log (exs.map fun ex => Weight.pow σ.pow (Z ex) ex.weight).prod =
        (exs.map fun ex => ex.weight * log (Z ex)).sum := by
  induction exs with
  | nil => simp
  | cons ex exs ih =>
    rw [List.forall_mem_cons] at hZ
    obtain ⟨hpos, hlog⟩ := ih hZ.2
    have hex : (0 : ℝ) < Z ex := lt_of_le_of_ne (Z ex).2 fun h => hZ.1 (Subtype.ext h.symm)
    have hpow : (Weight.pow σ.pow (Z ex) ex.weight : ℝ) = (Z ex : ℝ) ^ ex.weight := by
      rw [Weight.pow, if_neg hZ.1, hT.pow _ _ hZ.1]
    have hrpow : (0 : ℝ) < (Z ex : ℝ) ^ ex.weight := rpow_pos_of_pos hex _
    rw [List.map_cons, List.prod_cons, Nonneg.coe_mul, hpow, List.map_cons, List.sum_cons]
    exact ⟨mul_pos hrpow hpos, by rw [log_mul hrpow.ne' hpos.ne', log_rpow hex, hlog]⟩

/-- Weighted examples, each with its own expectation. -/
theorem sum_map_sum {n : ℕ} (g : IOSymSeq ℝ → ℕ → ℝ) (d : ℕ → ℝ) :
    (exs.map fun ex => ∑ k ∈ Finset.range n, g ex k * d k).sum =
      ∑ k ∈ Finset.range n, (exs.map fun ex => g ex k).sum * d k := by
  induction exs with
  | nil => simp
  | cons ex exs ih => simp only [List.map_cons, List.sum_cons, ih, add_mul, Finset.sum_add_distrib]

section Gain

variable {w w' : Weights ℝ} {Z Z' : IOSymSeq ℝ → Weight ℝ} {C C' : IOSymSeq ℝ → ℕ → Weight ℝ}
variable {ex : IOSymSeq ℝ} {i : ℕ}

/-- What is expected is an arc with weight. -/
theorem exists_arc_of_expected (hT : T.Alone σ method) (hZ : ExampleSums (T.current w) Z C)
    (hi : C ex i ≠ 0) : ∃ a, T.composed.arcsTable[i]? = some a ∧ w (a.param 0) ≠ 0 := by
  obtain ⟨-, c, -, -, rfl, hne⟩ := (hZ ex).exists_ne_zero hi
  rw [hT.current_eq, weightOf_withWeights] at hne
  cases ha : T.composed.arcsTable[c.id]? with
  | none => exact absurd (by rw [ha]; rfl) hne
  | some a =>
    rw [ha] at hne
    exact ⟨a, rfl, hne⟩

theorem sum_counts_ne_zero_iff (hpos : ∀ ex ∈ exs, Z ex ≠ 0) (hweight : ∀ ex ∈ exs, 0 < ex.weight) :
    (exs.map fun ex => C ex i * Weight.setReal ex.weight / Z ex).sum ≠ 0 ↔ ∃ ex ∈ exs, C ex i ≠ 0 := by
  rw [ne_eq, List.sum_eq_zero_iff]
  simp only [List.mem_map, forall_exists_index, and_imp, forall_apply_eq_imp_iff₂, not_forall,
    exists_prop]
  refine exists_congr fun ex => and_congr_right fun hex => ?_
  have hset : Weight.setReal ex.weight ≠ 0 := by
    rw [Weight.setReal, dif_pos (hweight ex hex)]
    exact fun hzero => (hweight ex hex).ne' (congrArg Subtype.val hzero)
  rw [div_eq_zero_iff, mul_eq_zero]
  simp [hset, hpos ex hex]

theorem coe_sum_counts (hweight : ∀ ex ∈ exs, 0 < ex.weight) :
    ((exs.map fun ex => C ex i * Weight.setReal ex.weight / Z ex).sum : ℝ) =
      (exs.map fun ex => ex.weight * (C ex i / Z ex : ℝ)).sum := by
  have hring := map_list_sum (Nonneg.coeRingHom (α := ℝ))
    (exs.map fun ex => C ex i * Weight.setReal ex.weight / Z ex)
  rw [List.map_map] at hring
  refine hring.trans (congrArg List.sum (List.map_congr_left fun ex hex => ?_))
  have hset : (Weight.setReal ex.weight : ℝ) = ex.weight := by
    rw [Weight.setReal, dif_pos (hweight ex hex)]
  change ((C ex i * Weight.setReal ex.weight / Z ex : Weight ℝ) : ℝ) = _
  rw [Nonneg.coe_div, Nonneg.coe_mul, hset, mul_comm, mul_div_assoc]

/-- What one example gains by new weights for the arcs that are expected in it. -/
theorem example_gain (hT : T.Alone σ method) (hZ : ExampleSums (T.current w) Z C)
    (hZ' : ExampleSums (T.current w') Z' C') (hpos : Z ex ≠ 0)
    (hnew : ∀ k, C ex k ≠ 0 → weightOf (T.current w').arcCounts k ≠ 0) :
    0 < (Z' ex : ℝ) ∧ ∑ k ∈ Finset.range T.composed.arcsTable.length, (C ex k / Z ex : ℝ) *
      (log (weightOf (T.current w').arcCounts k) - log (weightOf (T.current w).arcCounts k)) ≤
        log (Z' ex) - log (Z ex) := by
  have hsame : ∀ cs, IsDerivation (T.current w') ex.i ex.o cs ↔
      IsDerivation (T.current w) ex.i ex.o cs := fun cs => by
    rw [hT.current_eq, hT.current_eq, isDerivation_withWeights, isDerivation_withWeights]
  refine PathSums.expected_gain_le (fun k => weightOf (T.current w).arcCounts k)
    (fun k => weightOf (T.current w').arcCounts k)
    ((hZ ex).map Nonneg.coeRingHom) (((hZ' ex).congr_isPath hsame).map Nonneg.coeRingHom) ?_
    (fun k => (weightOf _ k).2) (fun k => (weightOf _ k).2)
    (lt_of_le_of_ne (Z ex).2 fun hzero => hpos (Subtype.ext hzero.symm)) ?_
  · intro cs hcs c hc
    obtain ⟨_, walk, -⟩ := hcs
    obtain ⟨d, _, step⟩ := walk.exists_step hc
    obtain ⟨a, ha, -⟩ := mem_candidates.mp step.1
    have hlt := (List.getElem?_eq_some_iff.mp ha).1
    rwa [hT.current_eq, WFST.arcsTable_withWeights, List.length_map] at hlt
  · intro k hk
    exact lt_of_le_of_ne (weightOf _ k).2 fun hzero =>
      hnew k (fun h0 => hk (congrArg Subtype.val h0)) (Subtype.ext hzero.symm)

end Gain

/-- **An iteration gains**: the next one finds the corpus at least as probable. -/
theorem EmState.Finds.gain {p : Weight ℝ} {s' : EmState ℝ} (h : s.Finds T σ method exs p s')
    (hs : s.Sound T σ method exs) (hT : T.Alone σ method) (hweight : ∀ ex ∈ exs, 0 < ex.weight) :
    s'.Sound T σ method exs ∧ ∀ p' s'', s'.Finds T σ method exs p' s'' → p ≤ p' := by
  obtain ⟨Z, C, hZ, hp, counts, hw', hcounts⟩ := h.sums
  obtain ⟨Z', C', hZ'⟩ :=
    exists_exampleSums (hT.valid_current s'.weights.weight) (hT.acyclic_current _)
  have hpos : ∀ ex ∈ exs, Z ex ≠ 0 := fun ex hex => hZ.ne_zero_iff.mpr (hs.supported ex hex)
  have hgain := fun ex (hex : ex ∈ exs) => example_gain hT hZ hZ' (hpos ex hex) fun k hk => by
    obtain ⟨a, ha, hwa⟩ := exists_arc_of_expected hT hZ hk
    rw [hT.weightOf_current _ ha, hw']
    refine normalize_ne_zero hT.plain hs.groups (List.mem_of_getElem? ha) ?_ hwa
    rw [hcounts k a ha]
    exact (sum_counts_ne_zero_iff hpos hweight).mpr ⟨ex, hex, hk⟩
  have hsupp : ∀ ex ∈ exs, Z' ex ≠ 0 := fun ex hex hzero =>
    (hgain ex hex).1.ne' (congrArg Subtype.val hzero)
  refine ⟨⟨h.ready, hw' ▸ groupsLeOne_normalize hT.plain hs.groups,
    fun ex hex => hZ'.ne_zero_iff.mp (hsupp ex hex)⟩, fun p' s'' h' => ?_⟩
  obtain ⟨Z₁, C₁, hZ₁, hp', -⟩ := h'.sums
  obtain rfl : Z₁ = Z' := funext fun ex => ((hZ₁ ex).unique (hZ' ex)).1
  obtain ⟨hp0, hlog⟩ := log_prod_pow hT hpos
  obtain ⟨hp0', hlog'⟩ := log_prod_pow hT hsupp
  rw [← hp] at hp0 hlog
  rw [← hp'] at hp0' hlog'
  -- the gain of the counts is that of the examples together
  have htotal := total_gain hT.plain hs.groups (fun a ha hca => by
    obtain ⟨i, hi⟩ := List.getElem?_of_mem ha
    rw [hcounts i a hi] at hca
    obtain ⟨ex, -, hne⟩ := (sum_counts_ne_zero_iff hpos hweight).mp hca
    obtain ⟨a', ha', hwa⟩ := exists_arc_of_expected hT hZ hne
    rwa [Option.some.inj (hi.symm.trans ha')]) hw'
  rw [← Fin.sum_univ_fun_getElem] at htotal
  have hsplit : ∑ i : Fin T.composed.arcsTable.length, (counts (T.composed.arcsTable[i.1].param 0) : ℝ) *
      (log (s'.weights.weight (T.composed.arcsTable[i.1].param 0)) -
        log (s.weights.weight (T.composed.arcsTable[i.1].param 0))) =
      (exs.map fun ex => ∑ k ∈ Finset.range T.composed.arcsTable.length,
        (ex.weight * (C ex k / Z ex : ℝ)) * (log (weightOf (T.current s'.weights.weight).arcCounts k) -
          log (weightOf (T.current s.weights.weight).arcCounts k))).sum := by
    rw [sum_map_sum, Finset.sum_range]
    refine Finset.sum_congr rfl fun i _ => ?_
    have hi := List.getElem?_eq_getElem i.2
    rw [hT.weightOf_current _ hi, hT.weightOf_current _ hi, hcounts i _ hi, coe_sum_counts hweight]
  rw [hsplit] at htotal
  have hle : log p ≤ log p' := by
    rw [hlog, hlog']
    calc (exs.map fun ex => ex.weight * log (Z ex)).sum
        ≤ (exs.map fun ex => ex.weight * log (Z ex)).sum + _ := le_add_of_nonneg_right htotal
      _ ≤ (exs.map fun ex => ex.weight * log (Z₁ ex)).sum := by
        rw [← List.sum_map_add]
        refine List.sum_le_sum fun ex hex => ?_
        have hmul := mul_le_mul_of_nonneg_left (hgain ex hex).2 (hweight ex hex).le
        simp only [mul_assoc, ← Finset.mul_sum]
        linarith
  exact (log_le_log_iff hp0 hp0').mp hle

theorem emRounds_spec (hT : T.Alone σ method) (hne : exs ≠ []) (hweight : ∀ ex ∈ exs, 0 < ex.weight)
    (n : ℕ) (hs : s.Sound T σ method exs) :
    ∃ ps s', T.emRounds σ n s = some (ps, s') ∧ s'.Sound T σ method exs ∧ ps.length = n ∧
      ps.Pairwise (· ≤ ·) ∧ ∀ p s₁, s.Finds T σ method exs p s₁ → ∀ q ∈ ps, p ≤ q := by
  induction n generalizing s with
  | zero => exact ⟨[], s, rfl, hs, rfl, .nil, fun _ _ _ q hq => absurd hq List.not_mem_nil⟩
  | succ n ih =>
    obtain ⟨p, s', hfinds⟩ := hs.exists_finds hT hne
    obtain ⟨hs', hle⟩ := hfinds.gain hs hT hweight
    obtain ⟨ps, s'', hrun, hs'', hlength, hpairwise, hfirst⟩ := ih hs'
    obtain ⟨p₁, s₁, hfinds'⟩ := hs'.exists_finds hT hne
    have hall : ∀ q ∈ ps, p ≤ q := fun q hq => (hle p₁ s₁ hfinds').trans (hfirst p₁ s₁ hfinds' q hq)
    refine ⟨p :: ps, s'', ?_, hs'', congrArg (· + 1) hlength,
      List.pairwise_cons.mpr ⟨hall, hpairwise⟩, ?_⟩
    · rw [TrainCascade.emRounds, hfinds.run, Option.bind_some, hrun]
      rfl
    · intro p₂ s₂ hfinds₂
      obtain rfl : p = p₂ := congrArg Prod.fst (Option.some.inj (hfinds.run.symm.trans hfinds₂.run))
      exact List.forall_mem_cons.mpr ⟨le_rfl, hall⟩

end Run

/-- Two loops that read `a`; one writes it. -/
def copyOrDrop : WFST (Weight ℝ) where
  states := [⟨[⟨2, 2, 0, 1, FSTArc.noGroup⟩, ⟨2, 0, 0, 1, FSTArc.noGroup⟩], 2⟩]
  final := some 0
  inAlph := letterA
  outAlph := letterA

theorem valid_copyOrDrop : copyOrDrop.Valid where
  start_lt := by decide
  final_lt := ⟨0, rfl, by decide⟩
  dest_lt := by decide
  inp_lt := by decide
  out_lt := by decide

/-- The cascade of it alone. -/
def copyOrDropCascade : TrainCascade ℝ :=
  ⟨.make false, [(copyOrDrop, ⟨.JOINT, id, 0⟩)], copyOrDrop, fun _ => ⟨_, rfl⟩⟩

noncomputable def copyOrDropSettings : EmSettings ℝ :=
  ⟨.inOrder, fun p nth => ⟨(p : ℝ) ^ nth, Real.rpow_nonneg p.2 nth⟩, true, false, true⟩

theorem not_epsilonCycle_copyOrDrop (s : ℕ) : ¬ copyOrDrop.EpsilonCycle s := by
  rintro ⟨h, path, hwalk, heps⟩
  obtain ⟨m, hstep, -⟩ := Walk.cons_iff.mp hwalk
  obtain ⟨state, hstate, harc⟩ := WFST.mem_state_arcs_of_mem_outArcs hstep.1
  have hall : ∀ state ∈ copyOrDrop.states, ∀ arc ∈ state.arcs, arc.inp ≠ epsilonIndex := by decide
  exact hall state hstate h.arc harc (heps h List.mem_cons_self).1

end Carmel
