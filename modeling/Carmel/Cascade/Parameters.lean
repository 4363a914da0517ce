/-
# Cascade parameters

A composed arc stands for arcs of the transducers it was composed from. The list is a chain
of pointers to them, and the composed arc stores the chain's index in its group field. This
is the recorder that hands out the indices while a composition runs, and the update that
recomputes every composed weight from the chains.
-/

import Carmel.Derivations.Candidates

namespace Carmel

universe u

/-- A pointer to an arc of one of the cascade's transducers. -/
structure Param where
  fst : ℕ
  source : ℕ
  pos : ℕ
deriving DecidableEq, Repr

/-- The pointer to an arc of the transducer at address `fst`. -/
def HalfArc.param {W : Type u} (h : HalfArc W) (fst : ℕ) : Param := ⟨fst, h.source, h.pos⟩

/-- The recorder, with the fields a composition and an update use. -/
structure CascadeParameters where
  /-- Nothing is remembered; group fields keep their plain meaning. -/
  trivial : Bool
  chains : List (List Param)
  /-- Chain ids of arcs recorded alone, by pointer. -/
  epsilonChains : List (Param × ℕ)
  /-- Whether the arcs of the first and of the second operand are chained already. -/
  isChain : Bool × Bool
deriving Repr

namespace CascadeParameters

variable {W : Type u} [CommMonoid W] [DecidableEq W]

/-- The empty chain, for arcs that never change their weight of one. -/
def nilChain : ℕ := 0

/-- The constructor: a remembering recorder starts with the empty chain only. -/
def make (rememberCascade : Bool) : CascadeParameters where
  trivial := !rememberCascade
  chains := if rememberCascade then [[]] else []
  epsilonChains := []
  isChain := (false, false)

/-- `prepare_compose(first_chain, second_chain)`. -/
def prepareCompose (c : CascadeParameters) (first second : Bool) : CascadeParameters :=
  { c with isChain := (first, second) }

/-- `prepare_compose(right_assoc)`: the result so far is the chained operand. -/
def prepareComposeNext (c : CascadeParameters) (rightAssoc : Bool) : CascadeParameters :=
  if rightAssoc then c.prepareCompose false true else c.prepareCompose true false

/-- `done_composing`, without the compression of chains. -/
def doneComposing (c : CascadeParameters) : CascadeParameters :=
  if c.trivial then c else { c with epsilonChains := [] }

def isLocked1 (arc : FSTArc W) : Bool := arc.isLocked && decide (arc.weight = 1)

/-- Put an arc in front of a chain, unless its weight is locked at one. -/
def cons (fst : ℕ) (a : HalfArc W) (cdr : List Param) : List Param :=
  if isLocked1 a.arc then cdr else a.param fst :: cdr

/-- `operator[]`: the chain a composed arc refers to. -/
def chainOf (c : CascadeParameters) (a : HalfArc W) : List Param := c.chains.getD a.arc.groupId []

/-- The chain of a pair. `pa` and `pb` are the addresses of the operands. When
both sides are chained the first chain is consed entry by entry; its entries
were not locked at one when they were put there. -/
def consChain (c : CascadeParameters) (pa pb : ℕ) (a b : HalfArc W) : List Param :=
  match c.isChain with
  | (true, true) => (c.chainOf a).reverseAux (c.chainOf b)
  | (true, false) => cons pb b (c.chainOf a)
  | (false, true) => cons pa a (c.chainOf b)
  | (false, false) => cons pa a (cons pb b [])

/-- The group of the arcs that join several final states into one. -/
def locked1GroupId (c : CascadeParameters) : ℕ :=
  if c.trivial then FSTArc.lockedGroup else nilChain

def originalId (e : FSTArc W) : ℕ := if isLocked1 e then nilChain else e.groupId

/-- The id of an arc taken alone. An arc that is not yet chained gets one chain,
however often it is recorded. -/
def recordEps (c : CascadeParameters) (p : ℕ) (e : HalfArc W) (chain : Bool) :
    ℕ × CascadeParameters :=
  if c.trivial then (e.arc.groupId, c)
  else if chain then (originalId e.arc, c)
  else
    match c.epsilonChains.lookup (e.param p) with
    | some id => (id, c)
    | none =>
      match cons p e [] with
      | [] => (nilChain, { c with epsilonChains := (e.param p, nilChain) :: c.epsilonChains })
      | v => (c.chains.length, { c with
            chains := c.chains ++ [v]
            epsilonChains := (e.param p, c.chains.length) :: c.epsilonChains })

def record1 (c : CascadeParameters) (pa : ℕ) (e : HalfArc W) : ℕ × CascadeParameters :=
  c.recordEps pa e c.isChain.1

def record2 (c : CascadeParameters) (pb : ℕ) (e : HalfArc W) : ℕ × CascadeParameters :=
  c.recordEps pb e c.isChain.2

/-- The id of a pair of arcs. -/
def record (c : CascadeParameters) (pa pb : ℕ) (a b : HalfArc W) : ℕ × CascadeParameters :=
  if c.trivial then (FSTArc.noGroup, c)
  else
    match c.consChain pa pb a b with
    | [] => (nilChain, c)
    | v => (c.chains.length, { c with chains := c.chains ++ [v] })

/-! ## Updating the composed weights -/

/-- `accumulate_chain`, from the weights the pointers lead to now. -/
def accumulateChain (current : Param → W) (w : W) (chain : List Param) : W :=
  chain.foldl (fun w p => w * current p) w

def calculateChainWeights (c : CascadeParameters) (current : Param → W) : List W :=
  c.chains.map (accumulateChain current 1)

def updateComposedArc (chainWeights : List W) (comp : FSTArc W) : FSTArc W :=
  { comp with weight := chainWeights.getD comp.groupId 1 }

/-- Give every arc of the composed transducer the weight of its chain. -/
def update (c : CascadeParameters) (current : Param → W) (composed : WFST W) : WFST W :=
  if c.trivial then composed
  else
    let chainWeights := c.calculateChainWeights current
    { composed with
      states := composed.states.map fun st =>
        { st with arcs := st.arcs.map (updateComposedArc chainWeights) } }

end CascadeParameters

end Carmel

/-!
## Weights in place

Weights are a function of where an arc is. The visitor that respects ties and locks changes
an ungrouped arc by itself, the arcs of a tie group together, and locked arcs never.
-/

namespace Carmel

universe u

variable {W : Type u}

/-! ## Where the arcs are -/

theorem WFST.eq_of_param_eq {x : WFST W} {k : ℕ} {h h' : HalfArc W} (hh : h ∈ x.arcsTable)
    (hh' : h' ∈ x.arcsTable) (heq : h.param k = h'.param k) : h = h' := by
  have hsource : h.source = h'.source := congrArg Param.source heq
  have hpos : h.pos = h'.pos := congrArg Param.pos heq
  rw [WFST.mem_arcsTable] at hh hh'
  rw [← hsource] at hh'
  exact WFST.outArcs_eq_of_pos hh hh' hpos

/-- The arcs of the transducer at address `k`. -/
def WFST.params (k : ℕ) (x : WFST W) : List Param := x.arcsTable.map (·.param k)

/-- The arcs that training may change. -/
def WFST.unlockedParams (k : ℕ) (x : WFST W) : List Param :=
  (x.arcsTable.filter fun h => !h.arc.isLocked).map (·.param k)

theorem WFST.params_nodup (k : ℕ) (x : WFST W) : (x.params k).Nodup :=
  x.arcsTable_nodup.map_on fun _ hh _ hh' => WFST.eq_of_param_eq hh hh'

theorem WFST.mem_params {k : ℕ} {x : WFST W} {p : Param} :
    p ∈ x.params k ↔ ∃ h ∈ x.arcsTable, h.param k = p := List.mem_map

theorem WFST.mem_unlockedParams {k : ℕ} {x : WFST W} {p : Param} :
    p ∈ x.unlockedParams k ↔ ∃ h ∈ x.arcsTable, h.arc.isLocked = false ∧ h.param k = p := by
  simp [unlockedParams, and_assoc]

theorem WFST.param_mem_unlockedParams {k : ℕ} {x : WFST W} {h : HalfArc W} (hh : h ∈ x.arcsTable) :
    h.param k ∈ x.unlockedParams k ↔ h.arc.isLocked = false := by
  rw [mem_unlockedParams]
  constructor
  · intro ⟨h', hh', hlocked, heq⟩
    rwa [← eq_of_param_eq hh' hh heq]
  · intro hlocked
    exact ⟨h, hh, hlocked, rfl⟩

/-- A visit that writes to the arcs given and to nothing else. -/
def onArcs {V : Type*} (ps : List Param) (new old : Param → V) : Param → V := fun p =>
  if p ∈ ps then new p else old p

section OnArcs

variable {V : Type*} {ps : List Param} {new old : Param → V} {p : Param}

theorem onArcs_of_mem (hp : p ∈ ps) : onArcs ps new old p = new p := if_pos hp

theorem onArcs_of_not_mem (hp : p ∉ ps) : onArcs ps new old p = old p := if_neg hp

end OnArcs

/-! ## Once for each parameter -/

/-- `modify_parameter_once`, with the table of the tie groups it has met. -/
def modifyParameterOnce (k : ℕ) (f : Param → W → W) (acc : (Param → W) × (ℕ → Option W))
    (h : HalfArc W) : (Param → W) × (ℕ → Option W) :=
  let p := h.param k
  if h.arc.isLocked then acc
  else if h.arc.isNormal then (Function.update acc.1 p (f p (acc.1 p)), acc.2)
  else
    match acc.2 h.arc.groupId with
    | some w => (Function.update acc.1 p w, acc.2)
    | none =>
      let w := f p (acc.1 p)
      (Function.update acc.1 p w, Function.update acc.2 h.arc.groupId (some w))

/-- `changeEachParameter`, for the transducer at address `k`. -/
def WFST.changeEachParameter (k : ℕ) (f : Param → W → W) (x : WFST W) (w : Param → W) : Param → W :=
  (x.arcsTable.foldl (modifyParameterOnce k f) (w, fun _ => none)).1

/-- `zero_arcs`. -/
def WFST.zeroArcs [Zero W] (k : ℕ) (x : WFST W) (w : Param → W) : Param → W :=
  x.changeEachParameter k (fun _ _ => 0) w

section Once

variable {k : ℕ} {f : Param → W → W} {x : WFST W} {p : Param}

theorem modifyParameterOnce_of_ne (h : HalfArc W) (hp : h.param k = p → h.arc.isLocked = true)
    (acc : (Param → W) × (ℕ → Option W)) : (modifyParameterOnce k f acc h).1 p = acc.1 p := by
  by_cases hlocked : h.arc.isLocked = true
  · rw [modifyParameterOnce, if_pos hlocked]
  · have hne : p ≠ h.param k := fun heq => hlocked (hp heq.symm)
    rw [modifyParameterOnce, if_neg hlocked]
    split
    case isTrue => exact Function.update_of_ne hne _ _
    case isFalse => split <;> exact Function.update_of_ne hne _ _

/-- Where there is no arc, or a locked one, nothing is written. -/
theorem changeEachParameter_of_not_mem (hp : p ∉ x.unlockedParams k) (w : Param → W) :
    x.changeEachParameter k f w p = w p := by
  have hlocked : ∀ h ∈ x.arcsTable, h.param k = p → h.arc.isLocked = true := by
    intro h hh heq
    by_contra hunlocked
    exact hp (WFST.mem_unlockedParams.mpr ⟨h, hh, eq_false_of_ne_true hunlocked, heq⟩)
  exact List.foldlRecOn (motive := fun acc : (Param → W) × (ℕ → Option W) => acc.1 p = w p) _ _ rfl
    fun acc hacc h hh => (modifyParameterOnce_of_ne h (hlocked h hh) acc).trans hacc

/-- With one value for all, an unlocked arc gets it, whatever the table has. -/
theorem modifyParameterOnce_const (c : W) (h : HalfArc W) (acc : (Param → W) × (ℕ → Option W))
    (htied : ∀ g v, acc.2 g = some v → v = c) :
    (∀ g v, (modifyParameterOnce k (fun _ _ => c) acc h).2 g = some v → v = c) ∧
      (h.arc.isLocked = false ∧ h.param k = p ∨ acc.1 p = c →
        (modifyParameterOnce k (fun _ _ => c) acc h).1 p = c) := by
  have hupdate : h.arc.isLocked = false ∧ h.param k = p ∨ acc.1 p = c →
      Function.update acc.1 (h.param k) c p = c := by
    intro hor
    by_cases heq : p = h.param k
    · rw [heq, Function.update_self]
    · rw [Function.update_of_ne heq]
      exact hor.resolve_left fun ⟨_, h⟩ => heq h.symm
  rw [modifyParameterOnce]
  split
  case isTrue hlocked =>
    refine ⟨htied, fun hor => hor.resolve_left fun ⟨hunlocked, _⟩ => ?_⟩
    rw [hlocked] at hunlocked
    cases hunlocked
  case isFalse =>
    split
    case isTrue => exact ⟨htied, hupdate⟩
    case isFalse =>
      split
      case h_1 v hv =>
        obtain rfl := htied _ _ hv
        exact ⟨htied, hupdate⟩
      case h_2 =>
        refine ⟨fun g v hv => ?_, hupdate⟩
        change Function.update acc.2 h.arc.groupId (some c) g = some v at hv
        rw [Function.update_apply] at hv
        split at hv
        case isTrue => exact (Option.some.inj hv).symm
        case isFalse => exact htied g v hv

theorem foldl_modifyParameterOnce_const (c : W) (arcs : List (HalfArc W))
    (acc : (Param → W) × (ℕ → Option W)) (htied : ∀ g v, acc.2 g = some v → v = c)
    (hp : (∃ h ∈ arcs, h.arc.isLocked = false ∧ h.param k = p) ∨ acc.1 p = c) :
    (arcs.foldl (modifyParameterOnce k fun _ _ => c) acc).1 p = c := by
  induction arcs generalizing acc with
  | nil => exact hp.resolve_left (by simp)
  | cons h arcs ih =>
    obtain ⟨htied', hwritten⟩ := modifyParameterOnce_const (k := k) (p := p) c h acc htied
    apply ih _ htied'
    rcases hp with ⟨h', hh', hunlocked, heq⟩ | hacc
    · rcases List.mem_cons.mp hh' with rfl | hh'
      · exact .inr (hwritten (.inl ⟨hunlocked, heq⟩))
      · exact .inl ⟨h', hh', hunlocked, heq⟩
    · exact .inr (hwritten (.inr hacc))

/-- **Zeroing** sets the unlocked arcs to zero and leaves everything else. -/
theorem zeroArcs_eq [Zero W] (k : ℕ) (x : WFST W) (w : Param → W) :
    x.zeroArcs k w = onArcs (x.unlockedParams k) (fun _ => 0) w := by
  funext p
  by_cases hp : p ∈ x.unlockedParams k
  · rw [onArcs_of_mem hp]
    exact foldl_modifyParameterOnce_const 0 _ _ (by simp) (.inl (WFST.mem_unlockedParams.mp hp))
  · rw [onArcs_of_not_mem hp]
    exact changeEachParameter_of_not_mem hp w

end Once

end Carmel
