/-
# The indexes of the matrix passes

Both indexes of `matrix_io_index` list the arcs of the transducer, one under the
source and one under the target. The two orders of the states follow the
`*e*`/`*e*` arcs forwards and backwards; without a cycle of such arcs both are
topological.
-/

import Carmel.Train.MatrixPass

namespace Carmel

open Carmel.Math

universe u

variable {W : Type u} {x : WFST W}

section Listed

/-- The arcs of `l` with certain labels under a state, as the index keeps them. -/
def listed (at_ to_ : HalfArc W → ℕ) (l : List (HalfArc W)) (s : ℕ) (io : ℕ × ℕ) : List DWPair :=
  (l.zipIdx.filter fun p => at_ p.1 = s ∧ (p.1.arc.inp, p.1.arc.out) = io).map
    fun p => ⟨to_ p.1, p.2⟩

variable {at_ to_ : HalfArc W → ℕ} {l : List (HalfArc W)} {s : ℕ} {io : ℕ × ℕ} {dw : DWPair}

theorem mem_listed : dw ∈ listed at_ to_ l s io ↔
    ∃ h, l[dw.id]? = some h ∧ at_ h = s ∧ (h.arc.inp, h.arc.out) = io ∧ to_ h = dw.dest := by
  simp only [listed, List.mem_map, List.mem_filter, decide_eq_true_iff, Prod.exists,
    List.mem_zipIdx_iff_getElem?]
  constructor
  · rintro ⟨h, id, ⟨hid, hat, hio⟩, rfl⟩
    exact ⟨h, hid, hat, hio, rfl⟩
  · rintro ⟨h, hid, hat, hio, hto⟩
    exact ⟨h, dw.id, ⟨hid, hat, hio⟩, by rw [hto]⟩

theorem nodup_listed : (listed at_ to_ l s io).Nodup := by
  refine List.Nodup.of_map DWPair.id ?_
  rw [listed, List.map_map]
  have hids : (l.zipIdx.map Prod.snd).Nodup := by
    rw [List.zipIdx_map_snd]
    exact List.nodup_range'
  exact hids.sublist (List.filter_sublist.map _)

theorem listed_concat (h : HalfArc W) : listed at_ to_ (l ++ [h]) s io =
    if s = at_ h ∧ io = (h.arc.inp, h.arc.out) then listed at_ to_ l s io ++ [⟨to_ h, l.length⟩]
    else listed at_ to_ l s io := by
  rw [listed, List.zipIdx_append, List.filter_append, List.map_append]
  split
  case isTrue hkey => simp [listed, hkey.1, hkey.2]
  case isFalse hkey =>
    have hne : ¬ (at_ h = s ∧ (h.arc.inp, h.arc.out) = io) :=
      fun hk => hkey ⟨hk.1.symm, hk.2.symm⟩
    simp [listed, hne]

theorem foldl_visit (l : List (HalfArc W)) :
    l.foldl MatrixIoIndex.visit ⟨fun _ _ => [], fun _ _ => [], 0⟩ =
      ⟨listed HalfArc.source (·.arc.dest) l, listed (·.arc.dest) HalfArc.source l, l.length⟩ := by
  induction l using List.reverseRecOn with
  | nil => rfl
  | append_singleton l h ih =>
    rw [List.foldl_append, ih, List.foldl_cons, List.foldl_nil, MatrixIoIndex.visit]
    simp only [MatrixIoIndex.mk.injEq]
    refine ⟨?_, ?_, by simp⟩
    · funext s io
      rw [listed_concat]
    · funext s io
      rw [listed_concat]

end Listed

namespace WFST

variable {s id : ℕ} {io : ℕ × ℕ} {dw : DWPair}

theorem forward_eq :
    x.matrixIoIndex.forward = listed HalfArc.source (·.arc.dest) x.arcsTable := by
  rw [matrixIoIndex, foldl_visit]

theorem backward_eq :
    x.matrixIoIndex.backward = listed (·.arc.dest) HalfArc.source x.arcsTable := by
  rw [matrixIoIndex, foldl_visit]

theorem mem_forward : dw ∈ x.matrixIoIndex.forward s io ↔ ∃ h, x.arcsTable[dw.id]? = some h ∧
    h.source = s ∧ (h.arc.inp, h.arc.out) = io ∧ h.arc.dest = dw.dest := by
  rw [forward_eq, mem_listed]

theorem mem_backward : dw ∈ x.matrixIoIndex.backward s io ↔ ∃ h, x.arcsTable[dw.id]? = some h ∧
    h.arc.dest = s ∧ (h.arc.inp, h.arc.out) = io ∧ h.source = dw.dest := by
  rw [backward_eq, mem_listed]

theorem mem_backward_iff {d : ℕ} : ⟨s, id⟩ ∈ x.matrixIoIndex.backward d io ↔
    ⟨d, id⟩ ∈ x.matrixIoIndex.forward s io := by
  rw [mem_forward, mem_backward]
  refine exists_congr fun h => and_congr_right fun _ => ?_
  tauto

theorem nodup_forward (s : ℕ) (io : ℕ × ℕ) : (x.matrixIoIndex.forward s io).Nodup := by
  rw [forward_eq]
  exact nodup_listed

theorem nodup_backward (s : ℕ) (io : ℕ × ℕ) : (x.matrixIoIndex.backward s io).Nodup := by
  rw [backward_eq]
  exact nodup_listed

theorem source_lt_of_mem_outArcs {h : HalfArc W} (hh : h ∈ x.outArcs s) : s < x.numStates := by
  obtain rfl := (mem_outArcs.mp hh).1
  obtain ⟨s, hs, hh⟩ := List.mem_flatMap.mp (mem_arcsTable.mpr hh)
  rw [(mem_outArcs.mp hh).1]
  exact List.mem_range.mp hs

theorem outArcs_of_getElem? {h : HalfArc W} (hid : x.arcsTable[id]? = some h) :
    h ∈ x.outArcs h.source :=
  mem_arcsTable.mp (List.mem_of_getElem? hid)

end WFST

namespace WFST

/-- Taking an arc that neither reads nor writes. -/
def EpsilonAdj (x : WFST W) (s : ℕ) (h : HalfArc W) (t : ℕ) : Prop :=
  x.Adj s h t ∧ h.arc.inp = epsilonIndex ∧ h.arc.out = epsilonIndex

variable (x) in
/-- The successors in `makeEGraph`. -/
def eSucc (s : ℕ) : List ℕ := (x.makeEGraph.getD s []).map (·.dest)

variable (x) in
/-- The successors in the reversed graph. -/
def ePred (s : ℕ) : List ℕ := ((reverseGraph x.makeEGraph).getD s []).map (·.dest)

variable {s t : ℕ}

theorem length_makeEGraph : x.makeEGraph.length = x.numStates := by
  simp [makeEGraph]

theorem mem_makeEGraph {a : GraphArc} : a ∈ x.makeEGraph.getD s [] ↔
    ∃ h ∈ x.outArcs s, h.arc.inp = epsilonIndex ∧ h.arc.out = epsilonIndex ∧
      a = ⟨s, h.arc.dest, h.pos⟩ := by
  have hfold : ∀ (l : List (HalfArc W)) (arcs : List GraphArc),
      a ∈ l.foldl (fun arcs h => if h.arc.inp = epsilonIndex ∧ h.arc.out = epsilonIndex then
        (⟨s, h.arc.dest, h.pos⟩ : GraphArc) :: arcs else arcs) arcs ↔
      a ∈ arcs ∨ ∃ h ∈ l, h.arc.inp = epsilonIndex ∧ h.arc.out = epsilonIndex ∧
        a = ⟨s, h.arc.dest, h.pos⟩ := by
    intro l
    induction l with
    | nil => simp
    | cons h l ih =>
      intro arcs
      rw [List.foldl_cons, ih]
      rw [List.exists_mem_cons_iff]
      split
      case isTrue heps =>
        rw [List.mem_cons]
        tauto
      case isFalse heps => tauto
  by_cases hs : s < x.numStates
  · simp [makeEGraph, hs, hfold]
  · have hnone : x.states[s]? = none := List.getElem?_eq_none (Nat.le_of_not_lt hs)
    simp [makeEGraph, hs, outArcs, state, hnone]

theorem mem_eSucc : t ∈ x.eSucc s ↔ ∃ h, x.EpsilonAdj s h t := by
  simp only [eSucc, List.mem_map, mem_makeEGraph, EpsilonAdj, Adj]
  constructor
  · rintro ⟨_, ⟨h, hh, hin, hout, rfl⟩, rfl⟩
    exact ⟨h, ⟨hh, rfl⟩, hin, hout⟩
  · rintro ⟨h, ⟨hh, rfl⟩, hin, hout⟩
    exact ⟨_, ⟨h, hh, hin, hout, rfl⟩, rfl⟩

theorem mem_ePred (hx : x.Valid) : t ∈ x.ePred s ↔ s ∈ x.eSucc t := by
  by_cases hs : s < x.numStates
  · rw [ePred, reverseGraph_getD _ (by rwa [length_makeEGraph]), List.map_map, eSucc]
    simp only [List.mem_map, List.mem_reverse, List.mem_filter, decide_eq_true_iff,
      Function.comp_apply, GraphArc.turned]
    have hflat : ∀ a, a ∈ x.makeEGraph.flatten ↔ a ∈ x.makeEGraph.getD a.src [] := by
      intro a
      rw [List.mem_flatten]
      constructor
      · rintro ⟨arcs, harcs, ha⟩
        obtain ⟨i, hi, rfl⟩ := List.getElem_of_mem harcs
        have ha' : a ∈ x.makeEGraph.getD i [] := by simpa [hi] using ha
        obtain ⟨_, -, -, -, rfl⟩ := mem_makeEGraph.mp ha'
        exact ha'
      · intro ha
        by_cases hlt : a.src < x.makeEGraph.length
        · exact ⟨x.makeEGraph[a.src], List.getElem_mem hlt, by simpa [hlt] using ha⟩
        · simp [hlt] at ha
    constructor
    · rintro ⟨a, ⟨ha, rfl⟩, rfl⟩
      exact ⟨a, (hflat a).mp ha, rfl⟩
    · rintro ⟨a, ha, rfl⟩
      obtain ⟨h, -, -, -, rfl⟩ := mem_makeEGraph.mp ha
      exact ⟨_, ⟨(hflat _).mpr ha, rfl⟩, rfl⟩
  · have hlen : (reverseGraph x.makeEGraph).length = x.numStates :=
      (length_reverseGraph _).trans length_makeEGraph
    have hnone : ¬ s ∈ x.eSucc t := by
      rw [mem_eSucc]
      rintro ⟨h, ⟨hh, rfl⟩, -⟩
      exact hs (hx.dest_lt' hh)
    simp [ePred, hlen, hs, hnone]

theorem not_onCycle_epsilonAdj (hcycle : ∀ s, ¬ x.EpsilonCycle s) (s : ℕ) :
    ¬ OnCycle x.EpsilonAdj s := by
  rintro ⟨h, path, hwalk⟩
  refine hcycle s ⟨h, path, hwalk.mono And.left, fun h' hh' => ?_⟩
  obtain ⟨_, _, hstep⟩ := hwalk.exists_step hh'
  exact hstep.2

theorem acyclic_eSucc (hx : x.Valid) (hcycle : ∀ s, ¬ x.EpsilonCycle s) :
    Acyclic x.eSucc x.numStates where
  lt := by
    intro s t ht
    obtain ⟨h, ⟨hh, rfl⟩, -⟩ := mem_eSucc.mp ht
    exact hx.dest_lt' hh
  noCycle s := by
    refine fun h => not_onCycle_epsilonAdj hcycle s ((onCycle_congr fun u v => ?_).mp h)
    simp only [SuccAdj, mem_eSucc, exists_const]

theorem acyclic_ePred (hx : x.Valid) (hcycle : ∀ s, ¬ x.EpsilonCycle s) :
    Acyclic x.ePred x.numStates where
  lt := by
    intro s t ht
    obtain ⟨h, ⟨hh, -⟩, -⟩ := mem_eSucc.mp ((mem_ePred hx).mp ht)
    exact source_lt_of_mem_outArcs hh
  noCycle s := fun h => (acyclic_eSucc hx hcycle).noCycle s
    (h.reverse fun hstep => ⟨(), (mem_ePred hx).mp hstep⟩)

theorem indexOrder_forward (hx : x.Valid) (hcycle : ∀ s, ¬ x.EpsilonCycle s) :
    ∃ l, x.eForwardTopo = some l ∧ IndexOrder x.numStates x.matrixIoIndex.forward l x.eSucc := by
  obtain ⟨l, hl, htopo, hmem⟩ := topoSort_spec (acyclic_eSucc hx hcycle)
  have hsucc : ∀ {s : ℕ} {dw : DWPair}, dw ∈ x.matrixIoIndex.forward s (epsilonIndex, epsilonIndex) →
      dw.dest ∈ x.eSucc s := by
    intro s dw hdw
    obtain ⟨h, hid, rfl, hio, hdest⟩ := mem_forward.mp hdw
    obtain ⟨hin, hout⟩ := Prod.mk.inj hio
    exact mem_eSucc.mpr ⟨h, ⟨outArcs_of_getElem? hid, hdest⟩, hin, hout⟩
  refine ⟨l, hl, ?_⟩
  constructor
  case nodup => exact nodup_forward
  case source_lt =>
    intro s io dw hdw
    obtain ⟨h, hid, rfl, -⟩ := mem_forward.mp hdw
    exact source_lt_of_mem_outArcs (outArcs_of_getElem? hid)
  case dest_lt =>
    intro s io dw hdw
    obtain ⟨h, hid, -, -, hdest⟩ := mem_forward.mp hdw
    exact hdest ▸ hx.dest_lt' (outArcs_of_getElem? hid)
  case topo => exact htopo
  case mem =>
    intro s dw hdw
    obtain ⟨h, hid, rfl, -⟩ := mem_forward.mp hdw
    refine hmem _ (source_lt_of_mem_outArcs (outArcs_of_getElem? hid)) ?_
    exact List.ne_nil_of_mem (hsucc hdw)
  case succ => exact hsucc

theorem indexOrder_backward (hx : x.Valid) (hcycle : ∀ s, ¬ x.EpsilonCycle s) :
    ∃ l, x.eBackwardTopo = some l ∧ IndexOrder x.numStates x.matrixIoIndex.backward l x.ePred := by
  obtain ⟨l, hl, htopo, hmem⟩ := topoSort_spec (acyclic_ePred hx hcycle)
  have hpred : ∀ {s : ℕ} {dw : DWPair},
      dw ∈ x.matrixIoIndex.backward s (epsilonIndex, epsilonIndex) → dw.dest ∈ x.ePred s := by
    intro s dw hdw
    obtain ⟨h, hid, hdest, hio, hsrc⟩ := mem_backward.mp hdw
    obtain ⟨hin, hout⟩ := Prod.mk.inj hio
    rw [mem_ePred hx, mem_eSucc, ← hsrc]
    exact ⟨h, ⟨outArcs_of_getElem? hid, hdest⟩, hin, hout⟩
  refine ⟨l, hl, ?_⟩
  constructor
  case nodup => exact nodup_backward
  case source_lt =>
    intro s io dw hdw
    obtain ⟨h, hid, rfl, -⟩ := mem_backward.mp hdw
    exact hx.dest_lt' (outArcs_of_getElem? hid)
  case dest_lt =>
    intro s io dw hdw
    obtain ⟨h, hid, -, -, hsrc⟩ := mem_backward.mp hdw
    exact hsrc ▸ source_lt_of_mem_outArcs (outArcs_of_getElem? hid)
  case topo => exact htopo
  case mem =>
    intro s dw hdw
    obtain ⟨h, hid, rfl, -⟩ := mem_backward.mp hdw
    exact hmem _ (hx.dest_lt' (outArcs_of_getElem? hid)) (List.ne_nil_of_mem (hpred hdw))
  case succ => exact hpred

end WFST

end Carmel
