/-
# Parameters of a cascade

A sampler makes a parameter of every arc of its transducers: going through the normalization
groups it numbers the groups of all transducers in one sequence, and writes the number of
the parameter to the group field of the arc. Locked arcs and the arcs of a transducer that
is not normalized get fixed probabilities. A table of segments, made before, tells which
transducer a parameter is of.
-/

import Carmel.Gibbs.ScaleGroups
import Carmel.Train.NormalizedGroups

namespace Carmel

open Carmel.Math

universe u

/-- `prior_group_by`. -/
inductive PriorGroupBy
  | FIXED
  | SINGLE
  | LOCAL
deriving DecidableEq, Repr

section Code

variable {F : Type u} [Field F] [LinearOrder F] [IsStrictOrderedRing F]

/-- `NormalizeMethod`, as far as the sampler reads it. -/
structure GibbsMethod (F : Type u) [Zero F] [LE F] where
  priorgroup : PriorGroupBy
  group : NormGroupBy
  addCount : Weight F

/-- The options that are read while the parameters are defined. -/
structure ParamOpts where
  uniformp0 : Bool
  dirichletP0 : Bool
  addArcs : Bool
  addSource : Bool

/-- What the sampler keeps of its parameters, and the group fields of the arcs. -/
structure CarmelGibbs (F : Type u) where
  groupId : Param → ℕ
  gps : List (ForestEm.GibbsParam F)
  nnorm : ℕ
  priorScale : ForestEm.Metanorm
  arcs : List Param
  arcSources : List ℕ

/-- `numArcs`, from the counters of the states. -/
def WFST.nEdges {W : Type u} (x : WFST W) : ℕ := (x.states.map State.size).sum

/-- `NormGroupIter`: the groups with their source states. It asks the counter of a state whether
the state is empty; when the first state is, it starts with a group without arcs. -/
def WFST.normGroupIter {W : Type u} (order : HashOrder (ℕ × List (HalfArc W))) (group : NormGroupBy)
    (x : WFST W) : List (ℕ × List (HalfArc W)) :=
  match group with
  | .CONDITIONAL =>
    (if (x.state 0).size = 0 then [(0, [])] else []) ++ (List.range x.numStates).flatMap fun s =>
        if (x.state s).size = 0 then []
        else (order.iter (indexBy .kInput (x.outArcs s))).map fun entry => (s, entry.2)
  | _ => (List.range x.numStates).map fun s => (s, x.outArcs s)

namespace CarmelGibbs

/-- `define_param`, and its result in the arc's group field. `NONORM + 1` is 0. -/
def defineParam (p : Param) (norm : Option ℕ) (prior : F) (g : CarmelGibbs F) : CarmelGibbs F :=
  { g with
    groupId := Function.update g.groupId p g.gps.length
    gps := g.gps ++ [⟨norm, prior⟩]
    nnorm := max g.nnorm (norm.elim 0 (· + 1)) }

/-- `record_arc`. -/
def recordArc (o : ParamOpts) (src : ℕ) (p : Param) (g : CarmelGibbs F) : CarmelGibbs F :=
  { g with
    arcs := if o.addArcs then g.arcs ++ [p] else g.arcs
    arcSources := if o.addSource then g.arcSources ++ [src] else g.arcSources }

/-- `add_locked`. The transducer is at address `k`. -/
def addLocked (o : ParamOpts) (k src : ℕ) (g : CarmelGibbs F) (h : HalfArc (Weight F)) :
    CarmelGibbs F :=
  (g.defineParam (h.param k) none (h.arc.weight : F)).recordArc o src (h.param k)

/-- What the loop over a group has so far. -/
structure Scan (F : Type u) [Zero F] [LE F] where
  gibbs : CarmelGibbs F
  unlocked : List (HalfArc (Weight F))
  sum : Weight F

/-- One arc of the loop over a group. -/
def scanArc (o : ParamOpts) (k src : ℕ) (acc : Scan F) (h : HalfArc (Weight F)) : Scan F :=
  if acc.gibbs.groupId (h.param k) = FSTArc.lockedGroup then
    { acc with gibbs := acc.gibbs.addLocked o k src h }
  else { acc with unlocked := acc.unlocked ++ [h], sum := acc.sum + h.arc.weight }

/-- `prior`. -/
def prior (o : ParamOpts) (prob alpha normsz : F) : F :=
  if o.uniformp0 then alpha else alpha * prob * normsz

/-- The loop over the unlocked arcs of group number `id`, which together weigh `sum`. -/
def addUnlocked (o : ParamOpts) (k src id : ℕ) (alpha : F) (sum : Weight F) (normsz : F)
    (g : CarmelGibbs F) (h : HalfArc (Weight F)) : CarmelGibbs F :=
  let prob : F := (h.arc.weight / sum : Weight F)
  (g.defineParam (h.param k) (some id) (prior o prob alpha normsz)).recordArc o src (h.param k)

/-- The body of the loop over the groups; `id` counts them. -/
def addGroup (o : ParamOpts) (k : ℕ) (nm : GibbsMethod F) (acc : ℕ × CarmelGibbs F)
    (group : ℕ × List (HalfArc (Weight F))) : ℕ × CarmelGibbs F :=
  let id := acc.1
  let src := group.1
  let priorScale := match nm.priorgroup with
    | .FIXED => acc.2.priorScale.addFixed id
    | _ => acc.2.priorScale.add id
  let scan := group.2.foldl (scanArc o k src) ⟨{ acc.2 with priorScale := priorScale }, [], 0⟩
  let sum := if o.dirichletP0 then 1 else scan.sum
  let unlocked := if nm.group = .CONDITIONAL then scan.unlocked.reverse else scan.unlocked
  let g := unlocked.foldl (addUnlocked o k src id (nm.addCount : F) sum scan.unlocked.length) scan.gibbs
  (id + 1, { g with priorScale :=
    if nm.priorgroup = .LOCAL then g.priorScale.finishScalegroup else g.priorScale })

/-- `add_gibbs_params`, with the next number of a group. -/
def addGibbsParams (o : ParamOpts) (order : HashOrder (ℕ × List (HalfArc (Weight F)))) (k : ℕ)
    (w : WFST (Weight F)) (nm : GibbsMethod F) (acc : ℕ × CarmelGibbs F) : ℕ × CarmelGibbs F :=
  if nm.group = .NONE then
    (acc.1, w.arcsTable.foldl (fun g h => addLocked o k h.source g h) acc.2)
  else if w.states.isEmpty then acc
  else
    let r := (w.normGroupIter order nm.group).foldl (addGroup o k nm) acc
    (r.1, { r.2 with priorScale :=
      if nm.priorgroup = .SINGLE then r.2.priorScale.finishScalegroup else r.2.priorScale })

/-- The loop of `set_gibbs_params`, from the transducer at address `k` on. -/
def addAll (o : ParamOpts) (order : HashOrder (ℕ × List (HalfArc (Weight F)))) :
    ℕ → List (WFST (Weight F) × GibbsMethod F) → ℕ × CarmelGibbs F → ℕ × CarmelGibbs F
  | _, [], acc => acc
  | k, (w, nm) :: members, acc => addAll o order (k + 1) members (addGibbsParams o order k w nm acc)

/-- The group fields that the transducers come with. -/
def fileGroups (members : List (WFST (Weight F) × GibbsMethod F)) (p : Param) : ℕ :=
  match members[p.fst]? with
  | none => FSTArc.noGroup
  | some (w, _) => (((w.state p.source).arcs[p.pos]?).map FSTArc.groupId).getD FSTArc.noGroup

/-- `set_gibbs_params`. -/
def setGibbsParams (o : ParamOpts) (order : HashOrder (ℕ × List (HalfArc (Weight F))))
    (members : List (WFST (Weight F) × GibbsMethod F)) : CarmelGibbs F :=
  (addAll o order 0 members (0, ⟨fileGroups members, [], 0, ⟨[], 1⟩, [], []⟩)).2

/-- `set_cascadei`. -/
def setCascadei (members : List (WFST (Weight F) × GibbsMethod F)) : List ℕ :=
  Segments.endpoints 0 (members.map fun m => m.1.nEdges)

/-- `cascadei_for`. -/
def cascadeiFor (members : List (WFST (Weight F) × GibbsMethod F)) (parami : ℕ) : ℕ :=
  Segments.segid0based (setCascadei members) parami

end CarmelGibbs

end Code

namespace CarmelGibbs

section Define

variable {F : Type u}

/-- A parameter with the arc it is defined for. -/
abbrev Definition (F : Type u) : Type u := Param × ForestEm.GibbsParam F

/-- What a definition does to the group fields and the parameters. -/
def define (c : (Param → ℕ) × List (ForestEm.GibbsParam F)) (d : Definition F) :
    (Param → ℕ) × List (ForestEm.GibbsParam F) :=
  (Function.update c.1 d.1 c.2.length, c.2 ++ [d.2])

def core (g : CarmelGibbs F) : (Param → ℕ) × List (ForestEm.GibbsParam F) := (g.groupId, g.gps)

variable {c : (Param → ℕ) × List (ForestEm.GibbsParam F)} {defs : List (Definition F)}
  {d : Definition F} {p : Param}

theorem foldl_define_snd : (defs.foldl define c).2 = c.2 ++ defs.map Prod.snd := by
  induction defs generalizing c with
  | nil => simp
  | cons d defs ih =>
    rw [List.foldl_cons, ih]
    simp [define]

theorem foldl_define_of_not_mem (hp : p ∉ defs.map Prod.fst) : (defs.foldl define c).1 p = c.1 p := by
  induction defs generalizing c with
  | nil => rfl
  | cons d defs ih =>
    rw [List.map_cons, List.mem_cons, not_or] at hp
    rw [List.foldl_cons, ih hp.2]
    exact Function.update_of_ne hp.1 _ _

/-- **An arc's number is where it is defined.** -/
theorem foldl_define_fst {i : ℕ} (hnodup : (defs.map Prod.fst).Nodup) (hd : defs[i]? = some d) :
    (defs.foldl define c).1 d.1 = c.2.length + i := by
  induction defs generalizing c i with
  | nil => cases hd
  | cons e defs ih =>
    rw [List.map_cons, List.nodup_cons] at hnodup
    cases i with
    | zero =>
      obtain rfl := Option.some.inj hd
      rw [List.foldl_cons, foldl_define_of_not_mem hnodup.1]
      exact Function.update_self ..
    | succ i =>
      rw [List.foldl_cons, ih hnodup.2 hd, define, List.length_append, List.length_singleton]
      lia

end Define

variable {F : Type u} [Field F] [LinearOrder F] [IsStrictOrderedRing F]

/-- The definition of a parameter that is locked. -/
def lockedDef (k : ℕ) (h : HalfArc (Weight F)) : Definition F :=
  (h.param k, ⟨none, (h.arc.weight : F)⟩)

/-- The definitions of a group. -/
def groupDefs (o : ParamOpts) (k : ℕ) (nm : GibbsMethod F) (id : ℕ)
    (group : List (HalfArc (Weight F))) : List (Definition F) :=
  let unlocked := group.filter (!·.arc.isLocked)
  let sum : Weight F := if o.dirichletP0 then 1 else (unlocked.map (·.arc.weight)).sum
  (group.filter (·.arc.isLocked)).map (lockedDef k) ++
    (if nm.group = .CONDITIONAL then unlocked.reverse else unlocked).map fun h =>
      (h.param k, ⟨some id, prior o ((h.arc.weight / sum : Weight F) : F) nm.addCount unlocked.length⟩)

/-- How many numbers of groups a transducer takes. -/
def groupCount (order : HashOrder (ℕ × List (HalfArc (Weight F))))
    (m : WFST (Weight F) × GibbsMethod F) : ℕ :=
  if m.2.group = .NONE ∨ m.1.states.isEmpty = true then 0
  else (m.1.normGroupIter order m.2.group).length

/-- The definitions of a transducer. -/
def memberDefs (o : ParamOpts) (order : HashOrder (ℕ × List (HalfArc (Weight F)))) (k : ℕ)
    (m : WFST (Weight F) × GibbsMethod F) (id : ℕ) : List (Definition F) :=
  if m.2.group = .NONE then m.1.arcsTable.map (lockedDef k)
  else if m.1.states.isEmpty then []
  else ((m.1.normGroupIter order m.2.group).zipIdx id).flatMap fun g => groupDefs o k m.2 g.2 g.1.2

/-- The definitions of all transducers from address `k` on. -/
def allDefs (o : ParamOpts) (order : HashOrder (ℕ × List (HalfArc (Weight F)))) :
    ℕ → List (WFST (Weight F) × GibbsMethod F) → ℕ → List (Definition F)
  | _, [], _ => []
  | k, m :: members, id =>
    memberDefs o order k m id ++ allDefs o order (k + 1) members (id + groupCount order m)

section Groups

variable {o : ParamOpts} {k src : ℕ}
  {nm : GibbsMethod F} {group : List (HalfArc (Weight F))} {g : CarmelGibbs F}

omit [IsStrictOrderedRing F] in
@[simp] theorem core_addLocked (h : HalfArc (Weight F)) :
    (addLocked o k src g h).core = define g.core (lockedDef k h) := rfl

omit [IsStrictOrderedRing F] in
theorem core_foldl_addLocked (hs : List (HalfArc (Weight F))) :
    (hs.foldl (fun g h => addLocked o k h.source g h) g).core =
      (hs.map (lockedDef k)).foldl define g.core := by
  induction hs generalizing g with
  | nil => rfl
  | cons h hs ih => rw [List.foldl_cons, ih, List.map_cons, List.foldl_cons, core_addLocked]

theorem core_foldl_addUnlocked (id : ℕ) (alpha : F) (sum : Weight F) (normsz : F)
    (hs : List (HalfArc (Weight F))) :
    (hs.foldl (addUnlocked o k src id alpha sum normsz) g).core =
      (hs.map fun h => ((h.param k, ⟨some id, prior o ((h.arc.weight / sum : Weight F) : F) alpha
        normsz⟩) : Definition F)).foldl define g.core := by
  induction hs generalizing g with
  | nil => rfl
  | cons h hs ih =>
    rw [List.foldl_cons, ih, List.map_cons, List.foldl_cons]
    rfl

variable (o src) in
/-- **The loop over a group** finds the locked arcs, since no arc comes twice: what it asks for is
the group field that the arc came with. -/
theorem foldl_scanArc (hnodup : (group.map (·.param k)).Nodup) (acc : Scan F)
    (hstatic : ∀ h ∈ group, acc.gibbs.groupId (h.param k) = h.arc.groupId) :
    (group.foldl (scanArc o k src) acc).gibbs.core =
        ((group.filter (·.arc.isLocked)).map (lockedDef k)).foldl define acc.gibbs.core ∧
      (group.foldl (scanArc o k src) acc).unlocked =
        acc.unlocked ++ group.filter (!·.arc.isLocked) ∧
      (group.foldl (scanArc o k src) acc).sum =
        acc.sum + ((group.filter (!·.arc.isLocked)).map (·.arc.weight)).sum := by
  induction group generalizing acc with
  | nil => simp
  | cons h group ih =>
    rw [List.map_cons, List.nodup_cons] at hnodup
    have hh := hstatic h List.mem_cons_self
    rw [List.foldl_cons]
    by_cases hlocked : h.arc.groupId = FSTArc.lockedGroup
    · have hscan : scanArc o k src acc h = { acc with gibbs := acc.gibbs.addLocked o k src h } := by
        rw [scanArc, hh, if_pos hlocked]
      have hrest : ∀ h' ∈ group,
          (acc.gibbs.addLocked o k src h).groupId (h'.param k) = h'.arc.groupId := by
        intro h' hh'
        have hne : h'.param k ≠ h.param k := fun heq =>
          hnodup.1 (heq ▸ List.mem_map_of_mem hh')
        exact (Function.update_of_ne hne ..).trans (hstatic h' (List.mem_cons_of_mem _ hh'))
      obtain ⟨hcore, hunlocked, hsum⟩ := ih hnodup.2 (scanArc o k src acc h) (by rwa [hscan])
      have hyes : h.arc.isLocked = true := decide_eq_true hlocked
      rw [hcore, hunlocked, hsum, hscan]
      simp [hyes]
    · have hscan : scanArc o k src acc h =
          { acc with unlocked := acc.unlocked ++ [h], sum := acc.sum + h.arc.weight } := by
        rw [scanArc, hh, if_neg hlocked]
      obtain ⟨hcore, hunlocked, hsum⟩ := ih hnodup.2 (scanArc o k src acc h) (by
        rw [hscan]
        exact fun h' hh' => hstatic h' (List.mem_cons_of_mem _ hh'))
      have hno : h.arc.isLocked = false := decide_eq_false hlocked
      rw [hcore, hunlocked, hsum, hscan]
      simp [hno, add_assoc]

theorem addGroup_fst (acc : ℕ × CarmelGibbs F) (group : ℕ × List (HalfArc (Weight F))) :
    (addGroup o k nm acc group).1 = acc.1 + 1 := rfl

variable (o nm) in
theorem core_addGroup (acc : ℕ × CarmelGibbs F) {group : ℕ × List (HalfArc (Weight F))}
    (hnodup : (group.2.map (·.param k)).Nodup)
    (hstatic : ∀ h ∈ group.2, acc.2.groupId (h.param k) = h.arc.groupId) :
    (addGroup o k nm acc group).2.core =
      (groupDefs o k nm acc.1 group.2).foldl define acc.2.core := by
  have hscan (m : ForestEm.Metanorm) :=
    foldl_scanArc o group.1 hnodup ⟨{ acc.2 with priorScale := m }, [], 0⟩ hstatic
  simp only [List.nil_append, zero_add] at hscan
  obtain ⟨hcore, hunlocked, hsum⟩ := hscan (match nm.priorgroup with
    | .FIXED => acc.2.priorScale.addFixed acc.1
    | _ => acc.2.priorScale.add acc.1)
  have hstart : acc.2.core = ({ acc.2 with priorScale := (match nm.priorgroup with
    | .FIXED => acc.2.priorScale.addFixed acc.1
    | _ => acc.2.priorScale.add acc.1) } : CarmelGibbs F).core := rfl
  simp only [groupDefs]
  rw [List.foldl_append, hstart, ← hcore, ← hsum, ← hunlocked, ← core_foldl_addUnlocked]
  rfl

/-- Each arc of a group gets one definition. -/
theorem groupDefs_params_perm (id : ℕ) :
    ((groupDefs o k nm id group).map Prod.fst).Perm (group.map (·.param k)) := by
  have hsplit : (group.filter (·.arc.isLocked) ++ group.filter (!·.arc.isLocked)).Perm group :=
    List.filter_append_perm _ group
  have hunlocked : (if nm.group = .CONDITIONAL then (group.filter (!·.arc.isLocked)).reverse
      else group.filter (!·.arc.isLocked)).Perm (group.filter (!·.arc.isLocked)) := by
    split
    · exact List.reverse_perm _
    · exact .refl _
  have hperm := ((hunlocked.append_left (group.filter (·.arc.isLocked))).trans hsplit).map (·.param k)
  simpa [groupDefs, lockedDef, Function.comp_def] using hperm

variable (o nm) in
/-- The loop over the groups. -/
theorem core_foldl_addGroup (groups : List (ℕ × List (HalfArc (Weight F)))) (acc : ℕ × CarmelGibbs F)
    (hnodup : ((groups.map Prod.snd).flatten.map (·.param k)).Nodup)
    (hstatic : ∀ g ∈ groups, ∀ h ∈ g.2, acc.2.groupId (h.param k) = h.arc.groupId) :
    (groups.foldl (addGroup o k nm) acc).1 = acc.1 + groups.length ∧
      (groups.foldl (addGroup o k nm) acc).2.core =
        ((groups.zipIdx acc.1).flatMap fun g => groupDefs o k nm g.2 g.1.2).foldl define acc.2.core := by
  induction groups generalizing acc with
  | nil => exact ⟨rfl, rfl⟩
  | cons group groups ih =>
    rw [List.map_cons, List.flatten_cons, List.map_append, List.nodup_append] at hnodup
    obtain ⟨hgroup, hgroups, hapart⟩ := hnodup
    have hcore := core_addGroup o nm acc hgroup (hstatic group List.mem_cons_self)
    -- the definitions of this group leave the arcs of the others as they are
    have hrest : ∀ g ∈ groups, ∀ h ∈ g.2,
        (addGroup o k nm acc group).2.groupId (h.param k) = h.arc.groupId := by
      intro g hg h hh
      have hnot : h.param k ∉ (groupDefs o k nm acc.1 group.2).map Prod.fst := by
        intro hmem
        have hin := (groupDefs_params_perm acc.1).mem_iff.mp hmem
        refine hapart _ hin _ (List.mem_map_of_mem ?_) rfl
        exact List.mem_flatten.mpr ⟨g.2, List.mem_map_of_mem hg, hh⟩
      have hkept : (addGroup o k nm acc group).2.core.1 (h.param k) = acc.2.core.1 (h.param k) := by
        rw [hcore, foldl_define_of_not_mem hnot]
      exact hkept.trans (hstatic g (List.mem_cons_of_mem _ hg) h hh)
    obtain ⟨hid, hdefs⟩ := ih (addGroup o k nm acc group) hgroups hrest
    rw [List.foldl_cons, hid, hdefs, hcore, addGroup_fst, List.zipIdx_cons, List.flatMap_cons,
      List.foldl_append, List.length_cons]
    exact ⟨by lia, rfl⟩

end Groups

end CarmelGibbs

section Iter

variable {W : Type u} {x : WFST W} {order : HashOrder (ℕ × List (HalfArc W))} {group : NormGroupBy}

/-- The counters of the states tell how many arcs there are. -/
def WFST.Counted (x : WFST W) : Prop := ∀ state ∈ x.states, state.size = state.arcs.length

theorem WFST.Counted.state (hx : x.Counted) (s : ℕ) : (x.state s).size = (x.state s).arcs.length := by
  rw [WFST.state, List.getD_eq_getElem?_getD]
  cases hs : x.states[s]? with
  | none => rfl
  | some st => exact hx st (List.mem_of_getElem? hs)

theorem WFST.Counted.size_eq_zero_iff (hx : x.Counted) (s : ℕ) :
    (x.state s).size = 0 ↔ x.outArcs s = [] := by
  rw [hx.state, List.length_eq_zero_iff, ← WFST.map_arc_outArcs, List.map_eq_nil_iff]

theorem WFST.Counted.nEdges (hx : x.Counted) : x.nEdges = x.arcsTable.length := by
  have hlength (s : ℕ) : (x.outArcs s).length = (x.state s).size := by
    rw [hx.state, ← WFST.map_arc_outArcs, List.length_map]
  have hstates : x.states = (List.range x.numStates).map x.state := by
    apply List.ext_getElem
    · simp [WFST.numStates]
    · intro i hi _
      simp [WFST.state, hi]
  rw [WFST.nEdges, WFST.arcsTable, List.length_flatMap]
  conv_lhs => rw [hstates]
  rw [List.map_map]
  exact congrArg List.sum (List.map_congr_left fun s _ => (hlength s).symm)

variable (order) in
/-- What `NormGroupIter` comes to, apart from a group without arcs. -/
theorem WFST.Counted.normGroupIter_snd (hx : x.Counted) (hgroup : group ≠ .NONE) :
    ∃ first : List (List (HalfArc W)), (∀ g ∈ first, g = []) ∧
      (x.normGroupIter order group).map Prod.snd = first ++ x.normGroups order group := by
  cases group with
  | NONE => exact absurd rfl hgroup
  | JOINT =>
    refine ⟨[], fun g hg => absurd hg List.not_mem_nil, ?_⟩
    simp [WFST.normGroupIter, WFST.normGroups]
  | CONDITIONAL =>
    refine ⟨if (x.state 0).size = 0 then [[]] else [], ?_, ?_⟩
    · intro g hg
      split at hg
      · exact List.mem_singleton.mp hg
      · exact absurd hg List.not_mem_nil
    · rw [WFST.normGroupIter, WFST.normGroups, List.map_append, List.map_flatMap]
      congr 1
      · split <;> rfl
      · congr 1
        funext s
        split
        · rename_i hempty
          rw [(hx.size_eq_zero_iff s).mp hempty]
          have hnil : order.iter [] = [] := (order.perm []).eq_nil
          rw [show indexBy .kInput ([] : List (HalfArc W)) = [] from rfl, hnil]
        · simp

variable (order) in
theorem WFST.Counted.flatten_normGroupIter_perm (hx : x.Counted) (hgroup : group ≠ .NONE) :
    ((x.normGroupIter order group).map Prod.snd).flatten.Perm x.arcsTable := by
  obtain ⟨first, hfirst, hsnd⟩ := hx.normGroupIter_snd order hgroup
  rw [hsnd, List.flatten_append, List.flatten_eq_nil_iff.mpr hfirst, List.nil_append]
  exact x.normGroups_flatten_perm order hgroup

end Iter

namespace CarmelGibbs

variable {F : Type u} [Field F] [LinearOrder F] [IsStrictOrderedRing F]

/-- The arcs of a cascade. -/
def cascadeArcs : ℕ → List (WFST (Weight F) × GibbsMethod F) → List Param
  | _, [] => []
  | k, m :: members => m.1.params k ++ cascadeArcs (k + 1) members

variable {o : ParamOpts} {order : HashOrder (ℕ × List (HalfArc (Weight F)))} {k id j : ℕ}
  {m : WFST (Weight F) × GibbsMethod F} {members : List (WFST (Weight F) × GibbsMethod F)} {p : Param}

omit [IsStrictOrderedRing F] in
theorem mem_cascadeArcs : p ∈ cascadeArcs k members ↔
    ∃ (j : ℕ) (m : WFST (Weight F) × GibbsMethod F),
      members[j]? = some m ∧ p ∈ m.1.params (k + j) := by
  induction members generalizing k with
  | nil => simp [cascadeArcs]
  | cons m members ih =>
    rw [cascadeArcs, List.mem_append, ih]
    constructor
    · rintro (hp | ⟨j, m', hm', hp⟩)
      · exact ⟨0, m, rfl, hp⟩
      · exact ⟨j + 1, m', hm', by rwa [Nat.add_right_comm, Nat.add_assoc] at hp⟩
    · rintro ⟨j, m', hm', hp⟩
      cases j with
      | zero =>
        obtain rfl := Option.some.inj hm'
        exact .inl hp
      | succ j => exact .inr ⟨j, m', hm', by rwa [Nat.add_right_comm, Nat.add_assoc]⟩

theorem fst_of_mem_params {W : Type u} {x : WFST W} (hp : p ∈ x.params k) : p.fst = k := by
  obtain ⟨h, -, rfl⟩ := WFST.mem_params.mp hp
  rfl

omit [IsStrictOrderedRing F] in
theorem cascadeArcs_nodup : (cascadeArcs k members).Nodup := by
  induction members generalizing k with
  | nil => exact List.nodup_nil
  | cons m members ih =>
    apply (m.1.params_nodup k).append ih
    intro p hp hp'
    obtain ⟨j, m', -, hp'⟩ := mem_cascadeArcs.mp hp'
    have h := (fst_of_mem_params hp).symm.trans (fst_of_mem_params hp')
    lia

theorem groupsDefs_params_perm (nm : GibbsMethod F) (groups : List (ℕ × List (HalfArc (Weight F))))
    (id : ℕ) : (((groups.zipIdx id).flatMap fun g => groupDefs o k nm g.2 g.1.2).map Prod.fst).Perm
      ((groups.map Prod.snd).flatten.map (·.param k)) := by
  induction groups generalizing id with
  | nil => exact .refl _
  | cons g groups ih =>
    rw [List.zipIdx_cons, List.flatMap_cons, List.map_append, List.map_cons, List.flatten_cons,
      List.map_append]
    exact (groupDefs_params_perm id).append (ih (id + 1))

theorem arcsTable_of_isEmpty {W : Type u} {x : WFST W} (hempty : x.states.isEmpty = true) :
    x.arcsTable = [] := by
  rw [WFST.arcsTable, WFST.numStates, List.isEmpty_iff.mp hempty]
  rfl

variable (o order k) in
/-- **Each arc of a transducer gets one definition.** -/
theorem memberDefs_params_perm (hcounted : m.1.Counted) (id : ℕ) :
    ((memberDefs o order k m id).map Prod.fst).Perm (m.1.params k) := by
  rw [memberDefs]
  split
  · rw [List.map_map]
    exact .refl _
  · rename_i hgroup
    split
    · rename_i hempty
      rw [WFST.params, arcsTable_of_isEmpty hempty]
      exact .refl _
    · exact (groupsDefs_params_perm ..).trans
        ((hcounted.flatten_normGroupIter_perm order hgroup).map (·.param k))

variable (o order) in
theorem allDefs_params_perm (k id : ℕ) (hcounted : ∀ m ∈ members, m.1.Counted) :
    ((allDefs o order k members id).map Prod.fst).Perm (cascadeArcs k members) := by
  induction members generalizing k id with
  | nil => exact .refl _
  | cons m members ih =>
    rw [allDefs, List.map_append, cascadeArcs]
    exact (memberDefs_params_perm o order k (hcounted m List.mem_cons_self) id).append
      (ih _ _ fun m' hm' => hcounted m' (List.mem_cons_of_mem _ hm'))

variable (o order k) in
/-- `add_gibbs_params` makes the definitions of the transducer. -/
theorem core_addGibbsParams {w : WFST (Weight F)} (nm : GibbsMethod F) (hcounted : w.Counted)
    (acc : ℕ × CarmelGibbs F)
    (hstatic : ∀ h ∈ w.arcsTable, acc.2.groupId (h.param k) = h.arc.groupId) :
    (addGibbsParams o order k w nm acc).1 = acc.1 + groupCount order (w, nm) ∧
      (addGibbsParams o order k w nm acc).2.core =
        (memberDefs o order k (w, nm) acc.1).foldl define acc.2.core := by
  by_cases hgroup : nm.group = .NONE
  · simp only [addGibbsParams, groupCount, memberDefs, hgroup, if_true, true_or, Nat.add_zero,
      true_and]
    exact core_foldl_addLocked _
  · by_cases hempty : w.states.isEmpty = true
    · simp only [addGibbsParams, groupCount, memberDefs, hgroup, hempty, if_true, if_false, or_true,
        Nat.add_zero, true_and]
      rfl
    · have hperm := hcounted.flatten_normGroupIter_perm order hgroup
      have hnodup : (((w.normGroupIter order nm.group).map Prod.snd).flatten.map (·.param k)).Nodup :=
        ((hperm.map _).nodup_iff).mpr (w.params_nodup k)
      obtain ⟨hid, hcore⟩ := core_foldl_addGroup o nm (w.normGroupIter order nm.group)
        acc hnodup fun g hg h hh => hstatic h
          (hperm.mem_iff.mp (List.mem_flatten.mpr ⟨g.2, List.mem_map_of_mem hg, hh⟩))
      simp only [addGibbsParams, groupCount, memberDefs, hgroup, hempty, if_false]
      exact ⟨hid, hcore⟩

/-- **`set_gibbs_params` makes all definitions**, one transducer after the other. -/
theorem core_addAll (hcounted : ∀ m ∈ members, m.1.Counted) (acc : ℕ × CarmelGibbs F)
    (hstatic : ∀ (j : ℕ) (m : WFST (Weight F) × GibbsMethod F), members[j]? = some m →
      ∀ h ∈ m.1.arcsTable, acc.2.groupId (h.param (k + j)) = h.arc.groupId) :
    (addAll o order k members acc).2.core =
      (allDefs o order k members acc.1).foldl define acc.2.core := by
  induction members generalizing k acc with
  | nil => rfl
  | cons m members ih =>
    obtain ⟨w, nm⟩ := m
    have hw : w.Counted := hcounted (w, nm) List.mem_cons_self
    obtain ⟨hid, hcore⟩ := core_addGibbsParams o order k nm hw acc (hstatic 0 (w, nm) rfl)
    rw [addAll, ih (fun m' hm' => hcounted m' (List.mem_cons_of_mem _ hm')), hid, hcore, allDefs,
      List.foldl_append]
    intro j m' hm' h hh
    have hnot : h.param (k + 1 + j) ∉ (memberDefs o order k (w, nm) acc.1).map Prod.fst := by
      intro hmem
      have hfst := fst_of_mem_params ((memberDefs_params_perm o order k hw acc.1).mem_iff.mp hmem)
      have hk : k + 1 + j = k := hfst
      lia
    have hkept : (addGibbsParams o order k w nm acc).2.core.1 (h.param (k + 1 + j)) =
        acc.2.core.1 (h.param (k + 1 + j)) := by
      rw [hcore, foldl_define_of_not_mem hnot]
    refine hkept.trans ?_
    have hj : k + 1 + j = k + (j + 1) := by lia
    rw [hj]
    exact hstatic (j + 1) m' hm' h hh

variable (o order) in
/-- The definitions of one transducer among all. -/
theorem allDefs_split (k id : ℕ) (hcounted : ∀ m ∈ members, m.1.Counted) (hm : members[j]? = some m) :
    ∃ before after, allDefs o order k members id =
        before ++ memberDefs o order (k + j) m (id + ((members.take j).map (groupCount order)).sum) ++
          after ∧
      before.length = ((members.take j).map fun m => m.1.nEdges).sum := by
  induction members generalizing k id j with
  | nil => cases hm
  | cons m' members ih =>
    cases j with
    | zero =>
      obtain rfl := Option.some.inj hm
      exact ⟨[], _, rfl, rfl⟩
    | succ j =>
      have hm' : m'.1.Counted := hcounted m' List.mem_cons_self
      obtain ⟨before, after, hdefs, hlength⟩ := ih (k + 1) (id + groupCount order m')
        (fun m'' h => hcounted m'' (List.mem_cons_of_mem _ h)) hm
      refine ⟨memberDefs o order k m' id ++ before, after, ?_, ?_⟩
      · rw [allDefs, hdefs, List.take_succ_cons, List.map_cons, List.sum_cons,
          Nat.add_right_comm k 1 j, Nat.add_assoc k j 1, Nat.add_assoc id]
        simp only [List.append_assoc]
      · have hdef : (memberDefs o order k m' id).length = m'.1.nEdges := by
          rw [hm'.nEdges, ← List.length_map Prod.fst, (memberDefs_params_perm o order k hm' id).length_eq,
            WFST.params, List.length_map]
        rw [List.length_append, hdef, hlength, List.take_succ_cons, List.map_cons, List.sum_cons]

/-- Where the segment of a transducer begins. -/
def segmentStart (members : List (WFST (Weight F) × GibbsMethod F)) (k : ℕ) : ℕ :=
  ((members.take k).map fun m => m.1.nEdges).sum

/-- The number of the first group of a transducer. -/
def groupStart (order : HashOrder (ℕ × List (HalfArc (Weight F))))
    (members : List (WFST (Weight F) × GibbsMethod F)) (k : ℕ) : ℕ :=
  ((members.take k).map (groupCount order)).sum

omit [IsStrictOrderedRing F] in
/-- The transducers come with the group fields of their arcs. -/
theorem fileGroups_param {h : HalfArc (Weight F)} (hm : members[k]? = some m)
    (hh : h ∈ m.1.arcsTable) : fileGroups members (h.param k) = h.arc.groupId := by
  have harc := (WFST.mem_outArcs.mp (WFST.mem_arcsTable.mp hh)).2
  obtain ⟨w, nm⟩ := m
  simp only [fileGroups, HalfArc.param, hm, harc]
  rfl

variable (o order) in
theorem core_setGibbsParams (hcounted : ∀ m ∈ members, m.1.Counted) :
    (setGibbsParams o order members).core =
      (allDefs o order 0 members 0).foldl define (fileGroups members, []) := by
  rw [setGibbsParams, core_addAll hcounted]
  · rfl
  · intro j m hm h hh
    rw [Nat.zero_add]
    exact fileGroups_param hm hh

variable (o order) in
/-- **The parameter of an arc** is one of those defined for its transducer. -/
theorem exists_memberDefs {h : HalfArc (Weight F)} (hcounted : ∀ m ∈ members, m.1.Counted)
    (hm : members[k]? = some m) (hh : h ∈ m.1.arcsTable) :
    ∃ i d, i < m.1.nEdges ∧ d ∈ memberDefs o order k m (groupStart order members k) ∧
      d.1 = h.param k ∧
      (setGibbsParams o order members).groupId (h.param k) = segmentStart members k + i ∧
      (setGibbsParams o order members).gps[segmentStart members k + i]? = some d.2 := by
  have hcore := core_setGibbsParams o order hcounted
  have hperm := memberDefs_params_perm o order k (hcounted m (List.mem_of_getElem? hm))
    (groupStart order members k)
  obtain ⟨d, hd, hdp⟩ := List.mem_map.mp (hperm.mem_iff.mpr (WFST.mem_params.mpr ⟨h, hh, rfl⟩))
  obtain ⟨i, hi, hget⟩ := List.mem_iff_getElem.mp hd
  obtain ⟨before, after, hdefs, hlength⟩ := allDefs_split o order 0 0 hcounted hm
  rw [Nat.zero_add, Nat.zero_add, ← groupStart] at hdefs
  have hedges : i < m.1.nEdges := by
    have hlen := hperm.length_eq
    rw [List.length_map, WFST.params, List.length_map] at hlen
    rwa [(hcounted m (List.mem_of_getElem? hm)).nEdges, ← hlen]
  -- where the definition stands among all
  have hat : (allDefs o order 0 members 0)[segmentStart members k + i]? = some d := by
    rw [hdefs, List.append_assoc, segmentStart, ← hlength, List.getElem?_append_right (by lia),
      Nat.add_sub_cancel_left, List.getElem?_append_left hi, List.getElem?_eq_getElem hi]
    exact congrArg some hget
  have hnodup : ((allDefs o order 0 members 0).map Prod.fst).Nodup :=
    (allDefs_params_perm o order 0 0 hcounted).nodup_iff.mpr cascadeArcs_nodup
  refine ⟨i, d, hedges, hd, hdp, ?_, ?_⟩
  · have hid := foldl_define_fst (c := (fileGroups members, [])) hnodup hat
    rw [← hcore, hdp, List.length_nil, Nat.zero_add] at hid
    exact hid
  · have hgps : (setGibbsParams o order members).core.2 = _ :=
      (congrArg Prod.snd hcore).trans foldl_define_snd
    rw [List.nil_append] at hgps
    rw [show (setGibbsParams o order members).gps = _ from hgps, List.getElem?_map, hat]
    rfl

/-- What is defined for a group. -/
theorem exists_of_mem_groupDefs {nm : GibbsMethod F} {group : List (HalfArc (Weight F))}
    {d : Definition F} (hd : d ∈ groupDefs o k nm id group) :
    ∃ h ∈ group, d.1 = h.param k ∧ d.2.norm = if h.arc.isLocked then none else some id := by
  simp only [groupDefs] at hd
  rcases List.mem_append.mp hd with hd | hd
  · obtain ⟨h, hh, rfl⟩ := List.mem_map.mp hd
    obtain ⟨hh, hlocked⟩ := List.mem_filter.mp hh
    exact ⟨h, hh, rfl, by rw [if_pos hlocked]; rfl⟩
  · obtain ⟨h, hh, rfl⟩ := List.mem_map.mp hd
    have hin : h ∈ group.filter (!·.arc.isLocked) := by
      split at hh
      · exact List.mem_reverse.mp hh
      · exact hh
    obtain ⟨hh, hlocked⟩ := List.mem_filter.mp hin
    have hno : ¬ h.arc.isLocked = true := by simpa using hlocked
    exact ⟨h, hh, rfl, (if_neg hno).symm⟩

/-- What is defined for a transducer. -/
theorem exists_of_mem_memberDefs {d : Definition F} (hd : d ∈ memberDefs o order k m id) :
    (m.2.group = .NONE ∧ d.2.norm = none) ∨
      (m.2.group ≠ .NONE ∧ ∃ (j src : ℕ) (group : List (HalfArc (Weight F))) (h : HalfArc (Weight F)),
        (m.1.normGroupIter order m.2.group)[j]? = some (src, group) ∧ j < groupCount order m ∧
          h ∈ group ∧ d.1 = h.param k ∧
            d.2.norm = if h.arc.isLocked then none else some (id + j)) := by
  rw [memberDefs] at hd
  split at hd
  · rename_i hgroup
    obtain ⟨h, -, rfl⟩ := List.mem_map.mp hd
    exact .inl ⟨hgroup, rfl⟩
  · rename_i hgroup
    split at hd
    · cases hd
    · rename_i hempty
      obtain ⟨⟨⟨src, group⟩, i⟩, hmem, hd⟩ := List.mem_flatMap.mp hd
      obtain ⟨hle, hget⟩ := List.mk_mem_zipIdx_iff_le_and_getElem?_sub.mp hmem
      obtain ⟨h, hh, hp, hnorm⟩ := exists_of_mem_groupDefs hd
      refine .inr ⟨hgroup, i - id, src, group, h, hget, ?_, hh, hp, ?_⟩
      · rw [groupCount, if_neg (by simp [hgroup, hempty])]
        exact (List.getElem?_eq_some_iff.mp hget).1
      · rw [hnorm, Nat.add_sub_cancel' hle]

end CarmelGibbs

section SameGroup

variable {W : Type u} {x : WFST W} {order : HashOrder (ℕ × List (HalfArc W))} {method : NormGroupBy}
  {h h' : HalfArc W}

/-- Two arcs are in one normalization group. -/
def WFST.SameNormGroup (x : WFST W) (method : NormGroupBy) (h h' : HalfArc W) : Prop :=
  ∃ group, x.IsNormGroup method group ∧ h ∈ group ∧ h' ∈ group

/-- An element of disjoint lists is in one of them only. -/
theorem index_unique_of_nodup_flatten {α : Type u} {ls : List (List α)} (hnodup : ls.flatten.Nodup)
    {i j : ℕ} {l l' : List α} {a : α} (hi : ls[i]? = some l) (hj : ls[j]? = some l') (ha : a ∈ l)
    (ha' : a ∈ l') : i = j := by
  have hapart := List.pairwise_iff_getElem.mp (List.nodup_flatten.mp hnodup).2
  obtain ⟨hilt, rfl⟩ := List.getElem?_eq_some_iff.mp hi
  obtain ⟨hjlt, rfl⟩ := List.getElem?_eq_some_iff.mp hj
  rcases lt_trichotomy i j with hlt | heq | hlt
  · exact absurd ha' (hapart i j hilt hjlt hlt ha)
  · exact heq
  · exact absurd ha (hapart j i hjlt hilt hlt ha')

/-- **`NormGroupIter` comes to two arcs in one group exactly when they are in one.** -/
theorem WFST.Counted.sameNormGroup_iff (hx : x.Counted) (hmethod : method ≠ .NONE) {j j' s s' : ℕ}
    {group group' : List (HalfArc W)} (hj : (x.normGroupIter order method)[j]? = some (s, group))
    (hj' : (x.normGroupIter order method)[j']? = some (s', group')) (hh : h ∈ group)
    (hh' : h' ∈ group') : x.SameNormGroup method h h' ↔ j = j' := by
  have hnodup : ((x.normGroupIter order method).map Prod.snd).flatten.Nodup :=
    (hx.flatten_normGroupIter_perm order hmethod).nodup_iff.mpr x.arcsTable_nodup
  obtain ⟨first, hfirst, hsnd⟩ := hx.normGroupIter_snd order hmethod
  have hat {j s : ℕ} {group : List (HalfArc W)}
      (hj : (x.normGroupIter order method)[j]? = some (s, group)) :
      ((x.normGroupIter order method).map Prod.snd)[j]? = some group := by
    rw [List.getElem?_map, hj]
    rfl
  constructor
  · rintro ⟨found, hfound, hin, hin'⟩
    obtain ⟨group₀, hgroup₀, hperm⟩ := WFST.exists_mem_normGroups order hfound hin
    have hmem : group₀ ∈ (x.normGroupIter order method).map Prod.snd := by
      rw [hsnd]
      exact List.mem_append_right _ hgroup₀
    obtain ⟨i, hi⟩ := List.mem_iff_getElem?.mp hmem
    exact (index_unique_of_nodup_flatten hnodup (hat hj) hi hh (hperm.mem_iff.mpr hin)).trans
      (index_unique_of_nodup_flatten hnodup hi (hat hj') (hperm.mem_iff.mpr hin') hh')
  · rintro rfl
    obtain ⟨rfl, rfl⟩ := Prod.mk.inj (Option.some.inj (hj.symm.trans hj'))
    have hmem : group ∈ first ++ x.normGroups order method := by
      rw [← hsnd]
      exact List.mem_of_getElem? (hat hj)
    rcases List.mem_append.mp hmem with hmem | hmem
    · rw [hfirst group hmem] at hh
      cases hh
    · obtain ⟨found, hfound, hperm⟩ := WFST.perm_isNormGroup hmem
      exact ⟨found, hfound, hperm.mem_iff.mp hh, hperm.mem_iff.mp hh'⟩

end SameGroup

namespace CarmelGibbs

variable {F : Type u} [Field F] [LinearOrder F] [IsStrictOrderedRing F]

/-- The norm number that the sampler has for an arc. -/
def normOf (g : CarmelGibbs F) (p : Param) : Option ℕ := (g.gps[g.groupId p]?).bind ForestEm.GibbsParam.norm

/-- Every arc has a number of its own, in the segment of its transducer. -/
structure NumbersArcs (members : List (WFST (Weight F) × GibbsMethod F)) (g : CarmelGibbs F) : Prop where
  length : g.gps.length = (cascadeArcs 0 members).length
  once : ∀ id < g.gps.length, ∃! p, p ∈ cascadeArcs 0 members ∧ g.groupId p = id
  segment : ∀ (k : ℕ) (m : WFST (Weight F) × GibbsMethod F) (h : HalfArc (Weight F)),
    members[k]? = some m → h ∈ m.1.arcsTable →
      ∃ left right, (setCascadei members)[k]? = some left ∧ (setCascadei members)[k + 1]? = some right ∧
        left ≤ g.groupId (h.param k) ∧ g.groupId (h.param k) < right ∧
          cascadeiFor members (g.groupId (h.param k)) = k

/-- Among the arcs with a property, norm numbers tell the groups of all transducers apart. -/
def SeparatesGroups (members : List (WFST (Weight F) × GibbsMethod F)) (g : CarmelGibbs F)
    (P : GibbsMethod F → HalfArc (Weight F) → Prop) : Prop :=
  ∀ (k k' : ℕ) (m m' : WFST (Weight F) × GibbsMethod F) (h h' : HalfArc (Weight F)),
    members[k]? = some m → h ∈ m.1.arcsTable → P m.2 h →
      members[k']? = some m' → h' ∈ m'.1.arcsTable → P m'.2 h' →
        (g.normOf (h.param k) = g.normOf (h'.param k') ↔ k = k' ∧ m.1.SameNormGroup m.2.group h h')

/-- The arcs that are normalized. -/
def Normalized (nm : GibbsMethod F) (h : HalfArc (Weight F)) : Prop :=
  nm.group ≠ .NONE ∧ h.arc.isLocked = false

variable {o : ParamOpts} {order : HashOrder (ℕ × List (HalfArc (Weight F)))} {k k' j : ℕ}
  {m m' : WFST (Weight F) × GibbsMethod F} {members : List (WFST (Weight F) × GibbsMethod F)}
  {h : HalfArc (Weight F)}

omit [IsStrictOrderedRing F] in
/-- Numbers counted up to a later transducer include those of an earlier one. -/
theorem sum_take_add_le (f : WFST (Weight F) × GibbsMethod F → ℕ) (hm : members[k]? = some m)
    (hlt : k < k') : ((members.take k).map f).sum + f m ≤ ((members.take k').map f).sum := by
  obtain ⟨hk, rfl⟩ := List.getElem?_eq_some_iff.mp hm
  obtain ⟨d, rfl⟩ := Nat.exists_eq_add_of_lt hlt
  have hsplit : members.take (k + d + 1) = members.take k ++ [members[k]] ++ (members.drop (k + 1)).take d := by
    rw [Nat.add_right_comm, List.take_add, ← List.take_append_getElem hk]
  rw [hsplit, List.map_append, List.map_append, List.sum_append, List.sum_append, List.map_singleton,
    List.sum_singleton]
  exact Nat.le_add_right ..

variable (o order) in
/-- **The norm number of an arc.** -/
theorem normOf_setGibbsParams (hcounted : ∀ m ∈ members, m.1.Counted) (hm : members[k]? = some m)
    (hh : h ∈ m.1.arcsTable) :
    (¬ Normalized m.2 h ∧ (setGibbsParams o order members).normOf (h.param k) = none) ∨
      (Normalized m.2 h ∧ ∃ j src group, (m.1.normGroupIter order m.2.group)[j]? = some (src, group) ∧
        j < groupCount order m ∧ h ∈ group ∧
          (setGibbsParams o order members).normOf (h.param k) = some (groupStart order members k + j)) := by
  obtain ⟨i, d, -, hd, hdp, hid, hget⟩ := exists_memberDefs o order hcounted hm hh
  have hnorm : (setGibbsParams o order members).normOf (h.param k) = d.2.norm := by
    rw [normOf, hid, hget]
    rfl
  rw [hnorm]
  rcases exists_of_mem_memberDefs hd with ⟨hgroup, hnone⟩ | ⟨hgroup, j, src, group, a, hj, hlt, ha, hp, hd⟩
  · exact .inl ⟨fun hn => hn.1 hgroup, hnone⟩
  · have ha' : a ∈ m.1.arcsTable :=
      ((hcounted m (List.mem_of_getElem? hm)).flatten_normGroupIter_perm order hgroup).mem_iff.mp
        (List.mem_flatten.mpr ⟨group, List.mem_map.mpr ⟨_, List.mem_of_getElem? hj, rfl⟩, ha⟩)
    obtain rfl := WFST.eq_of_param_eq ha' hh (hp.symm.trans hdp)
    cases hlocked : a.arc.isLocked with
    | true =>
      rw [hlocked, if_pos rfl] at hd
      refine .inl ⟨fun hn => ?_, hd⟩
      have hno := hn.2
      rw [hlocked] at hno
      cases hno
    | false =>
      rw [hlocked, if_neg Bool.false_ne_true] at hd
      exact .inr ⟨⟨hgroup, hlocked⟩, j, src, group, hj, hlt, ha, hd⟩

omit [IsStrictOrderedRing F] in
/-- Norm numbers are counted through the transducers. -/
theorem groupStart_add_inj (hm : members[k]? = some m) (hm' : members[k']? = some m') {j' : ℕ}
    (hj : j < groupCount order m) (hj' : j' < groupCount order m')
    (heq : groupStart order members k + j = groupStart order members k' + j') : k = k' ∧ j = j' := by
  rcases lt_trichotomy k k' with hlt | rfl | hlt
  · have hle := sum_take_add_le (groupCount order) hm hlt
    rw [← groupStart, ← groupStart] at hle
    lia
  · exact ⟨rfl, Nat.add_left_cancel heq⟩
  · have hle := sum_take_add_le (groupCount order) hm' hlt
    rw [← groupStart, ← groupStart] at hle
    lia

theorem separatesGroups_setGibbsParams (o : ParamOpts)
    (order : HashOrder (ℕ × List (HalfArc (Weight F)))) (hcounted : ∀ m ∈ members, m.1.Counted) :
    SeparatesGroups members (setGibbsParams o order members) Normalized := by
  intro k k' m m' h h' hm hh hn hm' hh' hn'
  obtain ⟨-, j, src, group, hj, hlt, hin, hnorm⟩ :=
    (normOf_setGibbsParams o order hcounted hm hh).resolve_left fun hnot => hnot.1 hn
  obtain ⟨-, j', src', group', hj', hlt', hin', hnorm'⟩ :=
    (normOf_setGibbsParams o order hcounted hm' hh').resolve_left fun hnot => hnot.1 hn'
  rw [hnorm, hnorm', Option.some.injEq]
  constructor
  · intro heq
    obtain ⟨rfl, rfl⟩ := groupStart_add_inj hm hm' hlt hlt' heq
    obtain rfl := Option.some.inj (hm.symm.trans hm')
    exact ⟨rfl, ((hcounted m (List.mem_of_getElem? hm)).sameNormGroup_iff hn.1 hj hj' hin hin').mpr rfl⟩
  · rintro ⟨rfl, hsame⟩
    obtain rfl := Option.some.inj (hm.symm.trans hm')
    rw [((hcounted m (List.mem_of_getElem? hm)).sameNormGroup_iff hn.1 hj hj' hin hin').mp hsame]

omit [IsStrictOrderedRing F] in
/-- The table of segments. -/
theorem getElem?_setCascadei (hk : k ≤ members.length) :
    (setCascadei members)[k]? = some (segmentStart members k) := by
  rw [setCascadei, Segments.endpoints_eq, List.getElem?_map, List.length_map,
    List.getElem?_range (Nat.lt_succ_of_le hk), Option.map_some, Nat.zero_add, List.map_take.symm]
  rfl

omit [IsStrictOrderedRing F] in
theorem segmentStart_succ (hm : members[k]? = some m) :
    segmentStart members (k + 1) = segmentStart members k + m.1.nEdges := by
  obtain ⟨hk, rfl⟩ := List.getElem?_eq_some_iff.mp hm
  rw [segmentStart, segmentStart, ← List.take_append_getElem hk, List.map_append, List.sum_append,
    List.map_singleton, List.sum_singleton]

theorem numbersArcs_setGibbsParams (o : ParamOpts)
    (order : HashOrder (ℕ × List (HalfArc (Weight F)))) (hcounted : ∀ m ∈ members, m.1.Counted) :
    NumbersArcs members (setGibbsParams o order members) := by
  have hcore := core_setGibbsParams o order hcounted
  have hperm := allDefs_params_perm o order 0 0 hcounted
  have hnodup : ((allDefs o order 0 members 0).map Prod.fst).Nodup :=
    hperm.nodup_iff.mpr cascadeArcs_nodup
  have hgps : (setGibbsParams o order members).gps = (allDefs o order 0 members 0).map Prod.snd :=
    (congrArg Prod.snd hcore).trans (foldl_define_snd.trans (List.nil_append _))
  have hnumber {i : ℕ} {d : Definition F} (hd : (allDefs o order 0 members 0)[i]? = some d) :
      (setGibbsParams o order members).groupId d.1 = i := by
    have hid := foldl_define_fst (c := (fileGroups members, [])) hnodup hd
    rw [← hcore, List.length_nil, Nat.zero_add] at hid
    exact hid
  refine ⟨?_, ?_, ?_⟩
  · rw [hgps, List.length_map, ← List.length_map Prod.fst, hperm.length_eq]
  · intro id hlt
    rw [hgps, List.length_map] at hlt
    have hget := List.getElem?_eq_getElem hlt
    refine ⟨_, ⟨hperm.mem_iff.mp (List.mem_map_of_mem (List.getElem_mem hlt)), hnumber hget⟩, ?_⟩
    rintro p ⟨hp, hid⟩
    obtain ⟨d, hd, rfl⟩ := List.mem_map.mp (hperm.mem_iff.mpr hp)
    obtain ⟨i, hi⟩ := List.mem_iff_getElem?.mp hd
    obtain rfl := (hnumber hi).symm.trans hid
    rw [Option.some.inj (hi.symm.trans hget)]
  · intro k m h hm hh
    obtain ⟨i, d, hi, -, -, hid, -⟩ := exists_memberDefs o order hcounted hm hh
    have hk : k < members.length := (List.getElem?_eq_some_iff.mp hm).1
    have hsucc := segmentStart_succ hm
    refine ⟨_, _, getElem?_setCascadei hk.le, getElem?_setCascadei hk, ?_, ?_, ?_⟩
    · rw [hid]
      exact Nat.le_add_right ..
    · rw [hid, hsucc]
      exact Nat.add_lt_add_left hi _
    · rw [hid, cascadeiFor, setCascadei]
      apply Segments.segid0based_endpoints
      · rwa [List.length_map]
      · rw [Nat.zero_add, ← List.map_take]
        exact Nat.le_add_right ..
      · rw [Nat.zero_add, ← List.map_take]
        exact (Nat.add_lt_add_left hi _).trans_eq hsucc.symm

/-- **The parameters of a cascade**: arcs are numbered once, in the segments of their transducers;
the normalized ones have norm numbers that tell their groups apart, and the others have none. -/
theorem setGibbsParams_spec (o : ParamOpts) (order : HashOrder (ℕ × List (HalfArc (Weight F))))
    (members : List (WFST (Weight F) × GibbsMethod F)) (hcounted : ∀ m ∈ members, m.1.Counted) :
    NumbersArcs members (setGibbsParams o order members) ∧
      SeparatesGroups members (setGibbsParams o order members) Normalized ∧
        ∀ (k : ℕ) (m : WFST (Weight F) × GibbsMethod F) (h : HalfArc (Weight F)),
          members[k]? = some m → h ∈ m.1.arcsTable →
            ((setGibbsParams o order members).normOf (h.param k) = none ↔ ¬ Normalized m.2 h) := by
  refine ⟨numbersArcs_setGibbsParams o order hcounted, separatesGroups_setGibbsParams o order hcounted, ?_⟩
  intro k m h hm hh
  rcases normOf_setGibbsParams o order hcounted hm hh with ⟨hnot, hnone⟩ | ⟨hn, j, _, _, _, _, _, hsome⟩
  · exact iff_of_true hnone hnot
  · rw [hsome]
    exact iff_of_false (Option.some_ne_none _) (not_not.mpr hn)

/-- A transducer with a locked arc beside another in one state. -/
def lockedBesideFree : WFST (Weight ℚ) where
  states := [⟨[⟨0, 0, 0, 1, FSTArc.lockedGroup⟩, ⟨0, 0, 0, 1, FSTArc.noGroup⟩], 2⟩]
  final := some 0
  inAlph := ⟨["*e*"], Alphabet.nodup_epsilon, Alphabet.epsilon_first⟩
  outAlph := ⟨["*e*"], Alphabet.nodup_epsilon, Alphabet.epsilon_first⟩

theorem lockedBesideFree_counted : lockedBesideFree.Counted := by
  intro state hstate
  obtain rfl := List.mem_singleton.mp hstate
  rfl

/-- It is normalized by states once, and then not at all. -/
def twiceLockedBesideFree : List (WFST (Weight ℚ) × GibbsMethod ℚ) :=
  [(lockedBesideFree, ⟨.FIXED, .JOINT, 1⟩), (lockedBesideFree, ⟨.FIXED, .NONE, 1⟩)]

theorem twiceLockedBesideFree_counted : ∀ m ∈ twiceLockedBesideFree, m.1.Counted := by
  simp [twiceLockedBesideFree, lockedBesideFree_counted]

theorem setGibbsParams_twiceLockedBesideFree :
    NumbersArcs twiceLockedBesideFree
      (setGibbsParams ⟨false, false, true, true⟩ ⟨id, fun _ => .refl _⟩ twiceLockedBesideFree) :=
  (setGibbsParams_spec _ _ twiceLockedBesideFree twiceLockedBesideFree_counted).1

/-- The two arcs of the first are in one group, but the locked one has no norm number. -/
theorem not_separatesGroups_lockedBesideFree :
    ¬ ∀ (o : ParamOpts) (order : HashOrder (ℕ × List (HalfArc (Weight ℚ))))
      (members : List (WFST (Weight ℚ) × GibbsMethod ℚ)), (∀ m ∈ members, m.1.Counted) →
        SeparatesGroups members (setGibbsParams o order members) fun _ _ => True := by
  intro hall
  have hsep := hall ⟨false, false, true, true⟩ ⟨id, fun _ => .refl _⟩ twiceLockedBesideFree
    twiceLockedBesideFree_counted
  have hin : ∀ h ∈ lockedBesideFree.outArcs 0, h ∈ lockedBesideFree.arcsTable := fun h hh => by
    rwa [WFST.mem_arcsTable, (WFST.mem_outArcs.mp hh).1]
  have hlocked : (⟨0, 0, ⟨0, 0, 0, 1, FSTArc.lockedGroup⟩⟩ : HalfArc (Weight ℚ)) ∈
      lockedBesideFree.outArcs 0 := by decide
  have hfree : (⟨0, 1, ⟨0, 0, 0, 1, FSTArc.noGroup⟩⟩ : HalfArc (Weight ℚ)) ∈
      lockedBesideFree.outArcs 0 := by decide
  have hm : twiceLockedBesideFree[0]? = some (lockedBesideFree, ⟨.FIXED, .JOINT, 1⟩) := rfl
  have hsame := (hsep 0 0 _ _ _ _ hm (hin _ hlocked) trivial hm (hin _ hfree) trivial).mpr
    ⟨rfl, _, ⟨0, rfl⟩, hlocked, hfree⟩
  rcases normOf_setGibbsParams ⟨false, false, true, true⟩ ⟨id, fun _ => .refl _⟩
    twiceLockedBesideFree_counted hm (hin _ hfree) with ⟨hnot, -⟩ | ⟨-, j, _, _, _, _, _, hsome⟩
  · exact hnot ⟨by decide, by decide⟩
  rcases normOf_setGibbsParams ⟨false, false, true, true⟩ ⟨id, fun _ => .refl _⟩
    twiceLockedBesideFree_counted hm (hin _ hlocked) with ⟨-, hnone⟩ | ⟨hn, -⟩
  · rw [hsome, hnone] at hsame
    cases hsame
  · exact absurd hn.2 (by decide)

end CarmelGibbs

end Carmel
