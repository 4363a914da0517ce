/-
# Consolidating arcs

`State::reduce` merges the arcs of a state that have the same symbols and the same target,
keeping the first and its tie group, and `consolidateArcs` does so in every state. With sums
and no bound the total weight of a pair of strings stays; with the greatest weight, the
greatest weight of a path. The paths may be infinitely many, so weights may be infinite
here.
-/

import Carmel.Stored.Wfst

namespace Carmel

open Carmel.Math
open scoped ENNReal

universe u

variable {W : Type u}

/-- What `reduce` compares. The field `in` of the source is `inp` here. -/
structure UnArc where
  inp : ℕ
  out : ℕ
  dest : ℕ
deriving DecidableEq, Repr

def FSTArc.unArc (arc : FSTArc W) : UnArc := ⟨arc.inp, arc.out, arc.dest⟩

/-- The arcs of a state with the same symbols and target. -/
def WFST.arcsLike (x : WFST W) (s : ℕ) (un : UnArc) : List (FSTArc W) :=
  (x.state s).arcs.filter (·.unArc = un)

namespace StoredState

theorem sameUnArc_iff {a b : FSTArc W} : sameUnArc a b = true ↔ a.unArc = b.unArc := by
  simp [sameUnArc, FSTArc.unArc]

section Reduce

variable [LinearOrder W] [One W] (zero : W) (add : W → W → W) (sum clamp : Bool)

/-- The first of some nodes, with the weights of the others combined into its own. -/
def combineNodes : List (ArcNode W) → List (ArcNode W)
  | [] => []
  | n :: nodes =>
    let w := (nodes.map (·.arc.weight)).foldl (combineArcWeight add sum clamp) n.arc.weight
    [⟨n.addr, { n.arc with weight := w }⟩]

variable {add sum clamp}

theorem combineNodes_eq_nil_iff {nodes : List (ArcNode W)} :
    combineNodes add sum clamp nodes = [] ↔ nodes = [] := by
  cases nodes <;> simp [combineNodes]

theorem combineNodes_concat {nodes : List (ArcNode W)} (h : nodes ≠ []) (n : ArcNode W) :
    combineNodes add sum clamp (nodes ++ [n]) = (combineNodes add sum clamp nodes).map fun k =>
      ⟨k.addr, { k.arc with weight := combineArcWeight add sum clamp k.arc.weight n.arc.weight }⟩ := by
  cases nodes with
  | nil => exact absurd rfl h
  | cons m nodes => simp [combineNodes]

variable [DecidableEq W]

/-- The nodes that are merged under a key. -/
def mergedNodes (nodes : List (ArcNode W)) (un : UnArc) : List (ArcNode W) :=
  nodes.filter fun n => n.arc.weight ≠ zero ∧ n.arc.unArc = un

variable {zero}

theorem reduceStep_filter {kept seen : List (ArcNode W)} {size : ℕ}
    (h : ∀ un, kept.filter (·.arc.unArc = un) = combineNodes add sum clamp (mergedNodes zero seen un))
    (n : ArcNode W) (un : UnArc) :
    (reduceStep zero add sum clamp (kept, size) n).1.filter (·.arc.unArc = un) =
      combineNodes add sum clamp (mergedNodes zero (seen ++ [n]) un) := by
  have hconcat : mergedNodes zero (seen ++ [n]) un = mergedNodes zero seen un ++
      if n.arc.weight ≠ zero ∧ n.arc.unArc = un then [n] else [] := by
    simp only [mergedNodes, List.filter_append, List.filter_cons, List.filter_nil, decide_eq_true_eq]
  rw [reduceStep, hconcat]
  by_cases hzero : n.arc.weight = zero
  · simpa [hzero] using h un
  have hnone : mergedNodes zero seen n.arc.unArc = [] ↔ ∀ k ∈ kept, k.arc.unArc ≠ n.arc.unArc := by
    rw [← combineNodes_eq_nil_iff, ← h, List.filter_eq_nil_iff]
    simp only [decide_eq_true_eq, ne_eq]
  simp only [hzero, if_false, not_false_eq_true, ne_eq, true_and]
  by_cases hmem : ∃ k ∈ kept, k.arc.unArc = n.arc.unArc
  · have hany : (kept.any fun k => sameUnArc k.arc n.arc) = true := by
      simpa only [List.any_eq_true, sameUnArc_iff] using hmem
    have hseen : mergedNodes zero seen n.arc.unArc ≠ [] := fun hnil =>
      hmem.elim fun k hk => hnone.mp hnil k hk.1 hk.2
    simp only [hany, if_true, sameUnArc_iff, List.filter_map]
    -- the new weights do not change the keys
    have hkeys : ((fun k : ArcNode W => decide (k.arc.unArc = un)) ∘ fun k =>
        if k.arc.unArc = n.arc.unArc then
          ⟨k.addr, { k.arc with weight := combineArcWeight add sum clamp k.arc.weight n.arc.weight }⟩
        else k) = fun k => decide (k.arc.unArc = un) := by
      funext k
      simp only [Function.comp_apply]
      split <;> rfl
    rw [hkeys]
    by_cases hun : n.arc.unArc = un
    · subst hun
      rw [if_pos rfl, combineNodes_concat hseen, ← h]
      apply List.map_congr_left
      intro k hk
      rw [if_pos (of_decide_eq_true (List.mem_filter.mp hk).2)]
    · rw [if_neg hun, List.append_nil, ← h]
      apply (List.map_congr_left _).trans (List.map_id _)
      intro k hk
      rw [if_neg ?_, id]
      rw [of_decide_eq_true (List.mem_filter.mp hk).2]
      exact fun heq => hun heq.symm
  · have hany : (kept.any fun k => sameUnArc k.arc n.arc) = false := by
      simpa only [List.any_eq_false, sameUnArc_iff, not_exists, not_and] using hmem
    simp only [hany, Bool.false_eq_true, if_false, List.filter_append, h]
    by_cases hun : n.arc.unArc = un
    · subst hun
      have hseen : mergedNodes zero seen n.arc.unArc = [] :=
        hnone.mpr fun k hk heq => hmem ⟨k, hk, heq⟩
      simp [hseen, combineNodes]
    · simp [hun]

/-- **What `reduce` leaves under a key** is the first of the arcs that it merges. -/
theorem reduce_filter (st : StoredState W) (un : UnArc) :
    (st.reduce zero add sum clamp).nodes.filter (·.arc.unArc = un) =
      combineNodes add sum clamp (mergedNodes zero st.nodes un) := by
  have hfold : ∀ (nodes : List (ArcNode W)) (un : UnArc),
      (nodes.foldl (reduceStep zero add sum clamp) ([], st.size)).1.filter (·.arc.unArc = un) =
        combineNodes add sum clamp (mergedNodes zero nodes un) := by
    intro nodes
    induction nodes using List.reverseRecOn with
    | nil => exact fun _ => rfl
    | append_singleton nodes n ih =>
      intro un
      rw [List.foldl_append]
      exact reduceStep_filter ih n un
  exact hfold st.nodes un

end Reduce

end StoredState

/-- The weight of the arc that stands for arcs of the weights `ws`. -/
def IsMergedWeight (sum clamp : Bool) (ws : List ℝ≥0∞) (w : ℝ≥0∞) : Prop :=
  match sum with
  | true => w = if clamp = true ∧ 1 < ws.length then min 1 ws.sum else ws.sum
  | false => IsGreatest {v | v ∈ ws} w

/-- `new` has one arc for all of `old`, if there is any: the first, with the merged weight. -/
def MergedInto (sum clamp : Bool) (old new : List (FSTArc ℝ≥0∞)) : Prop :=
  match old with
  | [] => new = []
  | arc :: arcs => ∃ w, new = [{ arc with weight := w }] ∧
      IsMergedWeight sum clamp ((arc :: arcs).map FSTArc.weight) w

namespace StoredState

theorem foldl_combine_sum (w : ℝ≥0∞) (ws : List ℝ≥0∞) :
    ws.foldl (combineArcWeight (· + ·) true false) w = w + ws.sum := by
  induction ws generalizing w with
  | nil => simp
  | cons d ws ih => simp [ih, combineArcWeight, add_assoc]

theorem combineArcWeight_clamp (w d : ℝ≥0∞) :
    combineArcWeight (· + ·) true true w d = min 1 (w + d) := by
  rw [combineArcWeight, if_pos rfl, Bool.true_and, min_def]
  by_cases h : 1 < w + d
  · simp [h, h.le]
  · by_cases heq : 1 ≤ w + d
    · simp [le_antisymm (not_lt.mp h) heq]
    · simp [h, heq]

/-- Once clamped, always clamped. -/
theorem foldl_combine_clamp (w d : ℝ≥0∞) (ws : List ℝ≥0∞) :
    (d :: ws).foldl (combineArcWeight (· + ·) true true) w = min 1 (w + (d :: ws).sum) := by
  induction ws generalizing w d with
  | nil => simp [combineArcWeight_clamp]
  | cons e ws ih =>
    rw [List.foldl_cons, ih, combineArcWeight_clamp, List.sum_cons, List.sum_cons, List.sum_cons,
      ← add_assoc w]
    rcases le_total 1 (w + d) with hle | hle
    · rw [min_eq_left hle, min_eq_left le_self_add, min_eq_left (hle.trans le_self_add)]
    · rw [min_eq_right hle]

theorem foldl_combine_max (clamp : Bool) (w : ℝ≥0∞) (ws : List ℝ≥0∞) :
    IsGreatest {v | v ∈ w :: ws} (ws.foldl (combineArcWeight (· + ·) false clamp) w) := by
  induction ws generalizing w with
  | nil => simp [IsGreatest, upperBounds]
  | cons d ws ih =>
    have hmax : combineArcWeight (· + ·) false clamp w d = max w d := by
      simp only [combineArcWeight, Bool.false_eq_true, if_false, max_def_lt]
    obtain ⟨hmem, hle⟩ := ih (max w d)
    rw [List.foldl_cons, hmax]
    constructor
    · rcases List.mem_cons.mp hmem with heq | hmem
      · rw [heq]
        rcases max_choice w d with h | h <;> simp [h]
      · simp [hmem]
    · intro v hv
      have hbound : max w d ≤ _ := hle List.mem_cons_self
      rcases List.mem_cons.mp hv with rfl | hv
      · exact (le_max_left _ _).trans hbound
      · rcases List.mem_cons.mp hv with rfl | hv
        · exact (le_max_right _ _).trans hbound
        · exact hle (List.mem_cons_of_mem _ hv)

theorem isMergedWeight_foldl (sum clamp : Bool) (w : ℝ≥0∞) (ws : List ℝ≥0∞) :
    IsMergedWeight sum clamp (w :: ws) (ws.foldl (combineArcWeight (· + ·) sum clamp) w) := by
  cases sum with
  | false => exact foldl_combine_max clamp w ws
  | true =>
    cases clamp with
    | false => simpa [IsMergedWeight] using foldl_combine_sum w ws
    | true =>
      cases ws with
      | nil => simp [IsMergedWeight]
      | cons d ws => simpa [IsMergedWeight] using foldl_combine_clamp w d ws

theorem mergedInto_combineNodes (nodes : List (ArcNode ℝ≥0∞)) (sum clamp : Bool) :
    MergedInto sum clamp (nodes.map ArcNode.arc)
      ((combineNodes (· + ·) sum clamp nodes).map ArcNode.arc) := by
  cases nodes with
  | nil => rfl
  | cons n nodes =>
    refine ⟨_, rfl, ?_⟩
    have hweights : (n.arc :: nodes.map ArcNode.arc).map FSTArc.weight =
        n.arc.weight :: nodes.map (·.arc.weight) := by
      rw [List.map_cons, List.map_map]
      rfl
    rw [hweights]
    exact isMergedWeight_foldl sum clamp n.arc.weight _

theorem mergedInto_reduce (st : StoredState ℝ≥0∞) (sum clamp : Bool) (un : UnArc) :
    MergedInto sum clamp ((st.view.arcs.filter (·.unArc = un)).filter (·.weight ≠ 0))
      ((st.reduce 0 (· + ·) sum clamp).view.arcs.filter (·.unArc = un)) := by
  have hnew : (st.reduce 0 (· + ·) sum clamp).view.arcs.filter (·.unArc = un) =
      (combineNodes (· + ·) sum clamp (mergedNodes 0 st.nodes un)).map ArcNode.arc := by
    rw [← reduce_filter]
    exact List.filter_map
  have hold : (st.view.arcs.filter (·.unArc = un)).filter (·.weight ≠ 0) =
      (mergedNodes 0 st.nodes un).map ArcNode.arc := by
    rw [List.filter_filter, StoredState.view, List.filter_map]
    simp only [mergedNodes, Function.comp_def, Bool.decide_and, ne_eq, decide_not]
  rw [hnew, hold]
  exact mergedInto_combineNodes _ sum clamp

end StoredState

/-- `consolidateArcs`. -/
def StoredWFST.consolidateArcs [LinearOrder W] [One W] [DecidableEq W] (zero : W) (add : W → W → W)
    (sum clamp : Bool) (x : StoredWFST W) : StoredWFST W :=
  x.mapStates fun _ st => st.reduce zero add sum clamp

namespace WFST

variable (x : WFST ℝ≥0∞)

/-- A path for a pair of strings. -/
def IsPathFor (input output : List ℕ) (path : List (HalfArc ℝ≥0∞)) : Prop :=
  x.IsPath path ∧ pathInput path = input ∧ pathOutput path = output

/-- The sum of the weights of all paths for a pair of strings. -/
noncomputable def totalWeight (input output : List ℕ) : ℝ≥0∞ :=
  tsum fun p : {p // x.IsPathFor input output p} => pathWeight p.1

/-- The greatest weight of a path for a pair of strings. -/
noncomputable def bestWeight (input output : List ℕ) : ℝ≥0∞ :=
  ⨆ p : {p // x.IsPathFor input output p}, pathWeight p.1

/-- The arcs, labelled with their symbols. -/
def graph : WeightedGraph ℕ (HalfArc ℝ≥0∞) (ℕ × ℕ) where
  out := x.outArcs
  nodup := x.outArcs_nodup
  dest h := h.arc.dest
  label h := (h.arc.inp, h.arc.out)
  weight h := h.arc.weight

/-- The labels spell a pair of strings. -/
def Spells (input output : List ℕ) (labels : List (ℕ × ℕ)) : Prop :=
  nonEpsilon (labels.map Prod.fst) = input ∧ nonEpsilon (labels.map Prod.snd) = output

variable {x}

theorem isPathFor_iff {input output : List ℕ} {path : List (HalfArc ℝ≥0∞)} :
    x.IsPathFor input output path ↔
      x.graph.Good (fun s => x.final = some s) (Spells input output) 0 path := by
  have hinp : (path.map x.graph.label).map Prod.fst = path.map (·.arc.inp) := by
    rw [List.map_map]
    rfl
  have hout : (path.map x.graph.label).map Prod.snd = path.map (·.arc.out) := by
    rw [List.map_map]
    rfl
  rw [WeightedGraph.Good, Spells, hinp, hout]
  exact Iff.rfl

theorem totalWeight_eq (input output : List ℕ) : x.totalWeight input output =
    x.graph.total (fun s => x.final = some s) (Spells input output) 0 := by
  exact (Equiv.subtypeEquivRight fun _ => isPathFor_iff).tsum_eq
    fun p : {p // x.graph.Good (fun s => x.final = some s) (Spells input output) 0 p} => pathWeight p.1

theorem bestWeight_eq (input output : List ℕ) : x.bestWeight input output =
    x.graph.best (fun s => x.final = some s) (Spells input output) 0 := by
  exact (Equiv.subtypeEquivRight fun _ => isPathFor_iff).iSup_congr fun _ => rfl

end WFST

namespace StoredWFST

variable {x : StoredWFST ℝ≥0∞} {sum clamp : Bool}

theorem exists_state_view (x : StoredWFST ℝ≥0∞) (sum clamp : Bool) (s : ℕ) :
    ∃ st : StoredState ℝ≥0∞, x.view.state s = st.view ∧
      (x.consolidateArcs 0 (· + ·) sum clamp).view.state s = (st.reduce 0 (· + ·) sum clamp).view := by
  cases hs : x.states[s]? with
  | none =>
    refine ⟨.empty, ?_, ?_⟩ <;>
      simp [view, consolidateArcs, mapStates, WFST.state, hs, StoredState.view,
        StoredState.empty, StoredState.reduce, State.empty]
  | some st =>
    refine ⟨st, ?_, ?_⟩ <;> simp [view, consolidateArcs, mapStates, WFST.state, hs]

/-- **What becomes of the arcs with one key.** -/
theorem mergedInto_arcsLike (x : StoredWFST ℝ≥0∞) (sum clamp : Bool) (s : ℕ) (un : UnArc) :
    MergedInto sum clamp ((x.view.arcsLike s un).filter (·.weight ≠ 0))
      ((x.consolidateArcs 0 (· + ·) sum clamp).view.arcsLike s un) := by
  obtain ⟨st, hold, hnew⟩ := x.exists_state_view sum clamp s
  rw [WFST.arcsLike, WFST.arcsLike, hold, hnew]
  exact st.mergedInto_reduce sum clamp un

end StoredWFST

section Paths

open WeightedGraph

theorem sum_filter_ne_zero (arcs : List (FSTArc ℝ≥0∞)) :
    ((arcs.filter (·.weight ≠ 0)).map FSTArc.weight).sum = (arcs.map FSTArc.weight).sum := by
  induction arcs with
  | nil => rfl
  | cons a arcs ih => by_cases h : a.weight = 0 <;> simp [h, ← ih]

theorem MergedInto.sum_eq {old new : List (FSTArc ℝ≥0∞)} (h : MergedInto true false old new) :
    (new.map FSTArc.weight).sum = (old.map FSTArc.weight).sum := by
  cases old with
  | nil => rw [show new = [] from h]
  | cons a arcs =>
    obtain ⟨w, rfl, hw⟩ := h
    simpa [IsMergedWeight] using hw

/-- With the greatest weight no arc is outweighed by what stands for it, -/
theorem MergedInto.exists_ge {clamp : Bool} {old new : List (FSTArc ℝ≥0∞)}
    (h : MergedInto false clamp old new) {a : FSTArc ℝ≥0∞} (ha : a ∈ old) :
    ∃ b ∈ new, a.weight ≤ b.weight := by
  cases old with
  | nil => exact absurd ha List.not_mem_nil
  | cons b arcs =>
    obtain ⟨w, rfl, hw⟩ := h
    exact ⟨_, List.mem_singleton_self _, hw.2 (List.mem_map_of_mem ha)⟩

/-- and it weighs as much as one of them. -/
theorem MergedInto.exists_eq {clamp : Bool} {old new : List (FSTArc ℝ≥0∞)}
    (h : MergedInto false clamp old new) {b : FSTArc ℝ≥0∞} (hb : b ∈ new) :
    ∃ a ∈ old, a.weight = b.weight := by
  cases old with
  | nil =>
    rw [show new = [] from h] at hb
    exact absurd hb List.not_mem_nil
  | cons c arcs =>
    obtain ⟨w, rfl, hw⟩ := h
    obtain rfl := List.mem_singleton.mp hb
    exact List.mem_map.mp hw.1

namespace WFST

variable {x y : WFST ℝ≥0∞}

theorem sum_map_graph_out (s : ℕ) (g : ℕ × ℕ → ℕ → ℝ≥0∞) (keys : Finset UnArc)
    (hkeys : ∀ a ∈ (x.state s).arcs, a.unArc ∈ keys) :
    ((x.graph.out s).map fun h => x.graph.weight h * g (x.graph.label h) (x.graph.dest h)).sum =
      ∑ un ∈ keys, ((x.arcsLike s un).map FSTArc.weight).sum * g (un.inp, un.out) un.dest := by
  have harcs : ((x.graph.out s).map fun h =>
      x.graph.weight h * g (x.graph.label h) (x.graph.dest h)).sum =
        ((x.state s).arcs.map fun a => a.weight * g (a.inp, a.out) a.dest).sum := by
    rw [← map_arc_outArcs, List.map_map]
    rfl
  rw [harcs, sum_map_eq_sum_keys _ FSTArc.unArc _ keys hkeys]
  refine Finset.sum_congr rfl fun un _ => ?_
  rw [← List.sum_map_mul_right]
  refine congrArg List.sum (List.map_congr_left fun a ha => ?_)
  obtain rfl := of_decide_eq_true (List.mem_filter.mp ha).2
  rfl

theorem sameSums_of_arcsLike (h : ∀ s un, ((x.arcsLike s un).map FSTArc.weight).sum =
    ((y.arcsLike s un).map FSTArc.weight).sum) : SameSums x.graph y.graph := by
  intro s g
  let keys := ((x.state s).arcs.map FSTArc.unArc ++ (y.state s).arcs.map FSTArc.unArc).toFinset
  rw [sum_map_graph_out s g keys, sum_map_graph_out s g keys]
  · exact Finset.sum_congr rfl fun un _ => by rw [h]
  · intro a ha
    exact List.mem_toFinset.mpr (List.mem_append_right _ (List.mem_map_of_mem ha))
  · intro a ha
    exact List.mem_toFinset.mpr (List.mem_append_left _ (List.mem_map_of_mem ha))

theorem dominated_of_arcs (h : ∀ s, ∀ a ∈ (x.state s).arcs, a.weight ≠ 0 →
    ∃ b ∈ y.arcsLike s a.unArc, a.weight ≤ b.weight) : Dominated x.graph y.graph := by
  intro s e he hw
  have harc : e.arc ∈ (x.state s).arcs := by
    rw [← map_arc_outArcs]
    exact List.mem_map_of_mem he
  obtain ⟨b, hb, hle⟩ := h s e.arc harc hw
  obtain ⟨hb, hkey⟩ := List.mem_filter.mp hb
  rw [← map_arc_outArcs] at hb
  obtain ⟨e', he', rfl⟩ := List.mem_map.mp hb
  obtain ⟨hinp, hout, hdest⟩ := (UnArc.mk.injEq ..).mp (of_decide_eq_true hkey)
  exact ⟨e', he', Prod.ext hinp hout, hdest, hle⟩

end WFST

namespace StoredWFST

variable (x : StoredWFST ℝ≥0∞)

theorem sameSums_consolidateArcs :
    SameSums (x.consolidateArcs 0 (· + ·) true false).view.graph x.view.graph := by
  apply WFST.sameSums_of_arcsLike
  intro s un
  rw [(x.mergedInto_arcsLike true false s un).sum_eq, sum_filter_ne_zero]

theorem dominated_consolidateArcs (clamp : Bool) :
    Dominated x.view.graph (x.consolidateArcs 0 (· + ·) false clamp).view.graph := by
  apply WFST.dominated_of_arcs
  intro s a ha hw
  apply (x.mergedInto_arcsLike false clamp s a.unArc).exists_ge
  simp [WFST.arcsLike, ha, hw]

theorem consolidateArcs_dominated (clamp : Bool) :
    Dominated (x.consolidateArcs 0 (· + ·) false clamp).view.graph x.view.graph := by
  apply WFST.dominated_of_arcs
  intro s b hb _
  have hlike : b ∈ (x.consolidateArcs 0 (· + ·) false clamp).view.arcsLike s b.unArc :=
    List.mem_filter.mpr ⟨hb, decide_eq_true rfl⟩
  obtain ⟨a, ha, heq⟩ := (x.mergedInto_arcsLike false clamp s b.unArc).exists_eq hlike
  exact ⟨a, (List.mem_filter.mp ha).1, heq.ge⟩

/-- **Consolidating arcs.** In every state one arc is left for all arcs with one pair of
symbols and one target, with their merged weight. Without a bound the sum over all paths
for a pair of strings stays what it was; with the greatest weight the greatest of them
does. -/
theorem consolidateArcs_spec :
    (∀ sum clamp s un, MergedInto sum clamp ((x.view.arcsLike s un).filter (·.weight ≠ 0))
      ((x.consolidateArcs 0 (· + ·) sum clamp).view.arcsLike s un)) ∧
    (∀ input output, (x.consolidateArcs 0 (· + ·) true false).view.totalWeight input output =
      x.view.totalWeight input output) ∧
    ∀ clamp input output, (x.consolidateArcs 0 (· + ·) false clamp).view.bestWeight input output =
      x.view.bestWeight input output := by
  refine ⟨fun sum clamp s un => x.mergedInto_arcsLike sum clamp s un, ?_, ?_⟩
  · intro input output
    rw [WFST.totalWeight_eq, WFST.totalWeight_eq]
    exact x.sameSums_consolidateArcs.total_eq
  · intro clamp input output
    rw [WFST.bestWeight_eq, WFST.bestWeight_eq]
    exact (x.consolidateArcs_dominated clamp).best_eq (x.dominated_consolidateArcs clamp)

end StoredWFST

/-- State 0 has two equal arcs to the final state. -/
noncomputable def doubledArc : StoredWFST ℝ≥0∞ where
  states := [⟨[⟨0, 2, 2, 1, 1, FSTArc.noGroup⟩, ⟨1, 2, 2, 1, 1, FSTArc.noGroup⟩], 2, none⟩, .empty]
  final := some 1
  inAlph := ⟨["*e*", "*w*", "a"], Alphabet.nodup_letter, Alphabet.letter_first⟩
  outAlph := ⟨["*e*", "*w*", "a"], Alphabet.nodup_letter, Alphabet.letter_first⟩
  indexedBy := none

/-- The sum over the paths of one arc. -/
theorem WFST.totalWeight_oneStep {x : WFST ℝ≥0∞} {arcs : List (FSTArc ℝ≥0∞)}
    (hfinal : x.final = some 1) (hstart : (x.state 0).arcs = arcs) (hnone : x.outArcs 1 = [])
    (harcs : ∀ a ∈ arcs, a.inp = 2 ∧ a.out = 2 ∧ a.dest = 1) :
    x.totalWeight [2] [2] = (arcs.map FSTArc.weight).sum := by
  classical
  have hend : x.graph.total (fun s => x.final = some s)
      (fun labels => Spells [2] [2] ((2, 2) :: labels)) 1 = 1 := by
    rw [total_eq]
    simp [graph, hfinal, hnone, Spells, nonEpsilon, epsilonIndex]
  rw [totalWeight_eq, total_eq, if_neg (by simp [hfinal]), zero_add, ← hstart, ← map_arc_outArcs,
    List.map_map]
  refine congrArg List.sum (List.map_congr_left fun h hh => ?_)
  have hmem : h.arc ∈ (x.state 0).arcs := by
    rw [← map_arc_outArcs]
    exact List.mem_map_of_mem hh
  obtain ⟨hinp, hout, hdest⟩ := harcs h.arc (hstart ▸ hmem)
  simp only [graph, hinp, hout, hdest] at hend ⊢
  rw [hend, mul_one]
  rfl

/-- With the greatest weight the sum over all paths may shrink, bounded or not. -/
theorem StoredWFST.not_totalWeight_consolidateArcs_doubledArc :
    ¬ ∀ sum input output, (doubledArc.consolidateArcs 0 (· + ·) sum false).view.totalWeight
      input output = doubledArc.view.totalWeight input output := by
  intro h
  let arc : FSTArc ℝ≥0∞ := ⟨2, 2, 1, 1, FSTArc.noGroup⟩
  have hold : doubledArc.view.totalWeight [2] [2] = 2 := by
    have harcs : (doubledArc.view.state 0).arcs = [arc, arc] := rfl
    rw [WFST.totalWeight_oneStep rfl harcs rfl (by simp [arc])]
    norm_num [arc]
  have hnew : (doubledArc.consolidateArcs 0 (· + ·) false false).view.totalWeight [2] [2] = 1 := by
    have harcs : ((doubledArc.consolidateArcs 0 (· + ·) false false).view.state 0).arcs = [arc] := by
      simp [doubledArc, consolidateArcs, mapStates, view, WFST.state, StoredState.view,
        StoredState.reduce, StoredState.reduceStep, StoredState.sameUnArc,
        StoredState.combineArcWeight, arc]
    rw [WFST.totalWeight_oneStep rfl harcs rfl (by simp [arc])]
    simp [arc]
  have heq := h false [2] [2]
  rw [hold, hnew] at heq
  norm_num at heq

end Paths

end Carmel
