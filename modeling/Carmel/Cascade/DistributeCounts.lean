/-
# Distributing counts

The counts of the composed arcs belong to the arcs they were made from: first the unlocked
arcs of all transducers of the cascade are zeroed, then the count of each composed arc is
added to every arc its chain holds, as often as the chain holds it.
-/

import Carmel.Cascade.Update

namespace Carmel

universe u

variable {W : Type u}

namespace CascadeParameters

section Model

/-- `distribute_counts` for one arc, which may be locked although it is in a chain. Chains have
no pointers that lead nowhere; such a one does nothing here. -/
def addCount [Add W] (Ts : List (WFST W)) (counts : W) (w : Param → W) (p : Param) : Param → W :=
  if (memory Ts p).all FSTArc.isLocked then w else Function.update w p (w p + counts)

/-- `distribute_chain_counts`. -/
def distributeChainCounts [Add W] (Ts : List (WFST W)) (counts : W) (chain : List Param)
    (w : Param → W) : Param → W :=
  chain.foldl (addCount Ts counts) w

/-- `clear_counts`. -/
def clearCounts [Zero W] (Ts : List (WFST W)) (w : Param → W) : Param → W :=
  Ts.zipIdx.foldl (fun w T => T.1.zeroArcs T.2 w) w

/-- `distribute_counts`. The counts are what the composed arcs have for weights. -/
def distributeCounts [Add W] [Zero W] (c : CascadeParameters) (Ts : List (WFST W)) (composed : WFST W)
    (counts : HalfArc W → W) (w : Param → W) : Param → W :=
  if c.trivial then w
  else
    composed.arcsTable.foldl (fun w h => distributeChainCounts Ts (counts h) (c.chainOf h) w)
      (clearCounts Ts w)

end Model

section Clear

variable {Ts : List (WFST W)} {p : Param}

theorem mem_memory_iff {arc : FSTArc W} : memory Ts p = some arc ↔
    ∃ T, Ts[p.fst]? = some T ∧ ⟨p.source, p.pos, arc⟩ ∈ T.arcsTable := by
  simp only [memory, Option.bind_eq_some_iff, WFST.mem_arcsTable, WFST.mem_outArcs, true_and]

theorem mem_unlockedParams_zipIdx {T : WFST W × ℕ} (hT : T ∈ Ts.zipIdx) :
    p ∈ T.1.unlockedParams T.2 ↔
      p.fst = T.2 ∧ ∃ arc, memory Ts p = some arc ∧ arc.isLocked = false := by
  obtain ⟨T, k⟩ := T
  have hk : Ts[k]? = some T := List.mk_mem_zipIdx_iff_getElem?.mp hT
  rw [WFST.mem_unlockedParams]
  constructor
  · rintro ⟨h, hh, hlocked, rfl⟩
    exact ⟨rfl, h.arc, mem_memory_iff.mpr ⟨T, hk, hh⟩, hlocked⟩
  · rintro ⟨rfl, arc, harc, hlocked⟩
    obtain ⟨T', hT', hh⟩ := mem_memory_iff.mp harc
    obtain rfl : T = T' := Option.some.inj (hk.symm.trans hT')
    exact ⟨_, hh, hlocked, rfl⟩

theorem foldl_zeroArcs_of_mem [Zero W] {l : List (WFST W × ℕ)} {w : Param → W}
    (hp : (∃ T ∈ l, p ∈ T.1.unlockedParams T.2) ∨ w p = 0) :
    l.foldl (fun w T => T.1.zeroArcs T.2 w) w p = 0 := by
  induction l generalizing w with
  | nil => exact hp.resolve_left (by simp)
  | cons T l ih =>
    apply ih
    rcases hp with ⟨T', hT', hmem⟩ | hw
    · rcases List.mem_cons.mp hT' with rfl | hT'
      · right
        change T'.1.zeroArcs T'.2 w p = 0
        rw [zeroArcs_eq, onArcs_of_mem hmem]
      · exact .inl ⟨T', hT', hmem⟩
    · right
      change T.1.zeroArcs T.2 w p = 0
      rw [zeroArcs_eq, onArcs]
      split
      case isTrue => rfl
      case isFalse => exact hw

theorem clearCounts_unlocked [Zero W] {arc : FSTArc W} (harc : memory Ts p = some arc)
    (hlocked : arc.isLocked = false) (w : Param → W) : clearCounts Ts w p = 0 := by
  obtain ⟨T, hT, -⟩ := mem_memory_iff.mp harc
  have hmem : (T, p.fst) ∈ Ts.zipIdx := List.mk_mem_zipIdx_iff_getElem?.mpr hT
  exact foldl_zeroArcs_of_mem
    (.inl ⟨_, hmem, (mem_unlockedParams_zipIdx hmem).mpr ⟨rfl, arc, harc, hlocked⟩⟩)

/-- Clearing leaves everything else. -/
theorem clearCounts_of_not_unlocked [Zero W]
    (hp : ∀ arc, memory Ts p = some arc → arc.isLocked = true) (w : Param → W) :
    clearCounts Ts w p = w p := by
  refine List.foldlRecOn (motive := fun v : Param → W => v p = w p) _ _ rfl fun v hv T hT => ?_
  rw [zeroArcs_eq, onArcs_of_not_mem, hv]
  intro hmem
  obtain ⟨-, arc, harc, hlocked⟩ := (mem_unlockedParams_zipIdx hT).mp hmem
  rw [hp arc harc] at hlocked
  cases hlocked

end Clear

section Distribute

variable [AddCommMonoid W] {Ts : List (WFST W)} {p : Param}

theorem distributeChainCounts_unlocked {arc : FSTArc W} (harc : memory Ts p = some arc)
    (hlocked : arc.isLocked = false) (counts : W) (chain : List Param) (w : Param → W) :
    distributeChainCounts Ts counts chain w p = w p + chain.count p • counts := by
  rw [distributeChainCounts]
  induction chain generalizing w with
  | nil => simp
  | cons q chain ih =>
    have hstep : addCount Ts counts w q p = w p + if q = p then counts else 0 := by
      rw [addCount]
      split
      case isTrue hq =>
        have hne : q ≠ p := by
          rintro rfl
          rw [harc, Option.all_some, hlocked] at hq
          cases hq
        rw [if_neg hne, add_zero]
      case isFalse =>
        by_cases hp : q = p
        · rw [if_pos hp, hp, Function.update_self]
        · rw [if_neg hp, Function.update_of_ne (Ne.symm hp), add_zero]
    rw [List.foldl_cons, ih, hstep, List.count_cons, add_nsmul, add_assoc]
    congr 1
    by_cases hp : q = p
    · rw [if_pos hp, if_pos (beq_iff_eq.mpr hp), one_nsmul, add_comm]
    · simp [hp]

theorem distributeChainCounts_of_not_unlocked
    (hp : ∀ arc, memory Ts p = some arc → arc.isLocked = true) (counts : W) (chain : List Param)
    (w : Param → W) : distributeChainCounts Ts counts chain w p = w p := by
  have hall : (memory Ts p).all FSTArc.isLocked = true := by
    cases harc : memory Ts p with
    | none => rfl
    | some arc => exact hp arc harc
  refine List.foldlRecOn (motive := fun v : Param → W => v p = w p) _ _ rfl fun v hv q _ => ?_
  rw [addCount]
  split
  case isTrue => exact hv
  case isFalse hq =>
    rw [Function.update_of_ne, hv]
    rintro rfl
    exact hq hall

variable {c : CascadeParameters}

/-- The counts that reach an arc of the cascade. -/
def chainTotal (c : CascadeParameters) (composed : WFST W) (counts : HalfArc W → W) (p : Param) : W :=
  (composed.arcsTable.map fun h => (c.chainOf h).count p • counts h).sum

theorem distributeCounts_of_unlocked (hc : c.trivial = false) {arc : FSTArc W}
    (harc : memory Ts p = some arc) (hlocked : arc.isLocked = false) (composed : WFST W)
    (counts : HalfArc W → W) (w : Param → W) :
    c.distributeCounts Ts composed counts w p = c.chainTotal composed counts p := by
  have hsum : ∀ (arcs : List (HalfArc W)) (w : Param → W),
      arcs.foldl (fun w h => distributeChainCounts Ts (counts h) (c.chainOf h) w) w p =
        w p + (arcs.map fun h => (c.chainOf h).count p • counts h).sum := by
    intro arcs
    induction arcs with
    | nil => simp
    | cons h arcs ih =>
      intro w
      rw [List.foldl_cons, ih, distributeChainCounts_unlocked harc hlocked, List.map_cons,
        List.sum_cons, add_assoc]
  rw [distributeCounts, hc, if_neg (by simp), hsum, clearCounts_unlocked harc hlocked, zero_add,
    chainTotal]

theorem distributeCounts_of_not_unlocked
    (hp : ∀ arc, memory Ts p = some arc → arc.isLocked = true) (composed : WFST W)
    (counts : HalfArc W → W) (w : Param → W) : c.distributeCounts Ts composed counts w p = w p := by
  rw [distributeCounts]
  split
  case isTrue => rfl
  case isFalse =>
    exact List.foldlRecOn (motive := fun v : Param → W => v p = w p) _ _
      (clearCounts_of_not_unlocked hp w) fun v hv h _ =>
        (distributeChainCounts_of_not_unlocked hp _ _ v).trans hv

end Distribute

end CascadeParameters

end Carmel
