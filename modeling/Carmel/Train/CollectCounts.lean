/-
# Expected counts from one lattice

`collect_counts` sums over all paths of a lattice by a forward pass over the arcs and a
backward pass over a reversed copy, which follow one postorder from its two ends. What an
arc id adds to its counts is the share of the path weights that go through arcs with this
id.
-/

import Carmel.Derivations.Paths
import Carmel.Graph.TopoOrder
import Carmel.Math.PathSums
import Carmel.Train.ArcCounts

namespace Carmel

open Carmel.Math

universe u v

section Model

/-- `add_reversed_arcs`, to states without arcs. -/
def reverseGraph (g : List (List GraphArc)) : List (List GraphArc) :=
  g.foldl (fun rev arcs => arcs.foldl
    (fun rev a => rev.modify a.dest fun d => ⟨a.dest, a.src, a.id⟩ :: d) rev) (g.map fun _ => [])

/-- `propagate_paths_in_order`. -/
def propagatePathsInOrder {R : Type u} [Add R] [Mul R] (g : List (List GraphArc)) (order : List ℕ)
    (getwt : GraphArc → R) (w : ℕ → R) : ℕ → R :=
  order.foldl (fun w src => (g.getD src []).foldl
    (fun w a => Function.update w a.dest (w a.dest + w src * getwt a)) w) w

variable {F : Type u} [Field F] [LinearOrder F] [IsStrictOrderedRing F]

/-- `compute_fb`: the forward and the backward weights of the states. -/
def computeFb (D : Derivations) (getwt : GraphArc → Weight F) :
    Option ((ℕ → Weight F) × (ℕ → Weight F)) :=
  (reverseTopoOrder (fun s => (D.arcs s).map (·.dest)) D.g.length 0).map fun reverseOrder =>
    (propagatePathsInOrder D.g reverseOrder.reverse getwt (Function.update 0 0 1),
      propagatePathsInOrder (reverseGraph D.g) reverseOrder getwt (Function.update 0 D.fin 1))

/-- `collect_counts`, with the weight of the example: the sum over the paths,
and the table with the new counts. -/
def collectCounts (D : Derivations) (weight : F) (t : List (ArcCounts F)) :
    Option (Weight F × List (ArcCounts F)) :=
  (computeFb D fun a => weightOf t a.id).map fun (f, b) =>
    let prob := f D.fin
    let count (t : List (ArcCounts F)) (a : GraphArc) := t.modify a.id fun ac =>
      ac.addCounts ((ac.weight * f a.src * b a.dest * Weight.setReal weight).quotient prob)
    (prob, (List.range D.g.length).foldl (fun t s => (D.arcs s).foldl count t) t)

end Model

namespace Derivations

/-- All arcs of the lattice. -/
def allArcs (D : Derivations) : List GraphArc := (List.range D.g.length).flatMap D.arcs

/-- The successor lists that the depth-first search follows. -/
def succ (D : Derivations) (s : ℕ) : List ℕ := (D.arcs s).map (·.dest)

/-- What the arcs and states of every lattice satisfy. -/
structure Proper (D : Derivations) : Prop where
  start_lt : 0 < D.g.length
  fin_lt : D.fin < D.g.length
  fin_reached : Reaches D.Adj 0 D.fin
  src : ∀ {i a}, a ∈ D.arcs i → a.src = i
  dest_lt : ∀ {i a}, a ∈ D.arcs i → a.dest < D.g.length
  reached : ∀ {i a}, a ∈ D.arcs i → Reaches D.Adj 0 i
  nodup : ∀ i, (D.arcs i).Nodup

theorem lt_of_mem_arcs {D : Derivations} {i : ℕ} {a : GraphArc} (ha : a ∈ D.arcs i) :
    i < D.g.length := by
  by_contra hge
  rw [arcs, List.getD_eq_getElem?_getD, List.getElem?_eq_none (Nat.le_of_not_lt hge)] at ha
  exact List.not_mem_nil ha

theorem mem_allArcs {D : Derivations} {a : GraphArc} : a ∈ D.allArcs ↔ ∃ i, a ∈ D.arcs i := by
  rw [allArcs, List.mem_flatMap]
  constructor
  · rintro ⟨i, -, ha⟩
    exact ⟨i, ha⟩
  · rintro ⟨i, ha⟩
    exact ⟨i, List.mem_range.mpr (lt_of_mem_arcs ha), ha⟩

theorem proper_of_represents {W : Type v} {x : WFST W} {inp out : List ℕ} {D : Derivations}
    {num : DerivState → Option ℕ} {keep : DerivState → Prop} {goal : DerivState}
    (h : Represents x inp out D.g num keep) (hgoal : isGoal x inp out goal = true)
    (hnum : num goal = some D.fin) : D.Proper := by
  have harc : ∀ {i a}, a ∈ D.arcs i → ∃ d c, num d = some i ∧ ArcFor num i a c ∧
      ¬ DeadEnd x inp out d := by
    intro i a ha
    obtain ⟨d, hd⟩ := h.onto i (lt_of_mem_arcs ha)
    obtain ⟨c, hc, hac⟩ := h.exists_candidate hd ha
    refine ⟨d, c, hd, hac, fun hdead => ?_⟩
    -- a live candidate leads out of the state, so it is no dead end
    obtain ⟨hc, hlive⟩ := mem_live.mp hc
    exact hlive (hdead.step ⟨hc, rfl⟩)
  constructor
  case start_lt => exact h.num_lt h.start
  case fin_lt => exact h.num_lt hnum
  case fin_reached => exact h.exists_walk_to hnum fun hdead => hdead.not_goal hgoal
  case src =>
    intro i a ha
    obtain ⟨d, c, -, hac, -⟩ := harc ha
    exact hac.src
  case dest_lt =>
    intro i a ha
    obtain ⟨d, c, -, hac, -⟩ := harc ha
    exact h.num_lt hac.dest
  case reached =>
    intro i a ha
    obtain ⟨d, c, hd, -, hlive⟩ := harc ha
    exact h.exists_walk_to hd hlive
  case nodup => exact h.arcs_nodup

namespace Proper

variable {D : Derivations} (hD : D.Proper)

include hD

theorem allArcs_nodup : D.allArcs.Nodup := by
  refine List.nodup_flatMap.mpr ⟨fun i _ => hD.nodup i, ?_⟩
  refine List.nodup_range.imp fun hne => ?_
  intro a ha ha'
  exact hne ((hD.src ha).symm.trans (hD.src ha'))

theorem mem_arcs_src {a : GraphArc} (ha : a ∈ D.allArcs) : a ∈ D.arcs a.src := by
  obtain ⟨i, ha⟩ := mem_allArcs.mp ha
  rwa [hD.src ha]

theorem edgeAdj_eq : EdgeAdj GraphArc.src GraphArc.dest D.allArcs.toFinset = D.Adj := by
  funext i a j
  rw [EdgeAdj, List.mem_toFinset, Adj, eq_iff_iff]
  constructor
  · rintro ⟨ha, rfl, rfl⟩
    exact ⟨hD.mem_arcs_src ha, rfl⟩
  · rintro ⟨ha, rfl⟩
    exact ⟨mem_allArcs.mpr ⟨i, ha⟩, hD.src ha, rfl⟩

end Proper

end Derivations

section Passes

variable {R : Type u} [CommSemiring R] {g : List (List GraphArc)} {getwt : GraphArc → R}

theorem propagatePathsInOrder_eq (hsrc : ∀ i, ∀ a ∈ g.getD i [], a.src = i) (order : List ℕ)
    (w : ℕ → R) : propagatePathsInOrder g order getwt w =
      (order.flatMap (g.getD · [])).foldl (relax GraphArc.src GraphArc.dest getwt) w := by
  rw [propagatePathsInOrder, List.foldl_flatMap]
  refine List.foldl_ext _ _ _ fun w i _ => ?_
  refine List.foldl_ext _ _ _ fun w a ha => ?_
  rw [relax, hsrc i a ha]

/-- The arc turned round, as it is in the reversed graph. -/
def GraphArc.turned (a : GraphArc) : GraphArc := ⟨a.dest, a.src, a.id⟩

theorem foldl_reversed_getD (l : List GraphArc) (rev : List (List GraphArc)) (i : ℕ)
    (hi : i < rev.length) :
    (l.foldl (fun rev a => rev.modify a.dest fun d => ⟨a.dest, a.src, a.id⟩ :: d) rev).getD i [] =
      (l.filter (·.dest = i)).reverse.map GraphArc.turned ++ rev.getD i [] := by
  induction l generalizing rev with
  | nil => simp
  | cons a l ih =>
    rw [List.foldl_cons, ih _ (by rwa [List.length_modify])]
    by_cases ha : a.dest = i
    · simp [ha, hi, GraphArc.turned]
    · simp [ha]

theorem length_reverseGraph (g : List (List GraphArc)) : (reverseGraph g).length = g.length := by
  have hkeep : ∀ (l : List GraphArc) (rev : List (List GraphArc)), (l.foldl (fun rev a =>
      rev.modify a.dest fun d => ⟨a.dest, a.src, a.id⟩ :: d) rev).length = rev.length := by
    intro l
    induction l with
    | nil => exact fun _ => rfl
    | cons a l ih => exact fun rev => by rw [List.foldl_cons, ih, List.length_modify]
  rw [reverseGraph, ← List.foldl_flatten, hkeep, List.length_map]

theorem reverseGraph_getD (g : List (List GraphArc)) {i : ℕ} (hi : i < g.length) :
    (reverseGraph g).getD i [] = (g.flatten.filter (·.dest = i)).reverse.map GraphArc.turned := by
  rw [reverseGraph, ← List.foldl_flatten, foldl_reversed_getD _ _ _ (by simpa using hi)]
  simp [hi]

end Passes

namespace Derivations

variable {D : Derivations}

/-- The arcs into a state, in the order of the reversed graph. -/
def arcsInto (D : Derivations) (i : ℕ) : List GraphArc :=
  (D.allArcs.filter (·.dest = i)).reverse

theorem mem_arcsInto {i : ℕ} {a : GraphArc} : a ∈ D.arcsInto i ↔ a ∈ D.allArcs ∧ a.dest = i := by
  rw [arcsInto, List.mem_reverse, List.mem_filter, decide_eq_true_iff]

theorem allArcs_eq_flatten (D : Derivations) : D.allArcs = D.g.flatten := by
  rw [allArcs, List.flatMap_def]
  congr 1
  refine List.ext_getElem (by simp) fun i _ hi => ?_
  simp [arcs, hi]

theorem propagate_reverseGraph {R : Type*} [CommSemiring R] (wt : ℕ → R) {order : List ℕ}
    (horder : ∀ i ∈ order, i < D.g.length) (w : ℕ → R) :
    propagatePathsInOrder (reverseGraph D.g) order (fun a => wt a.id) w =
      (order.flatMap D.arcsInto).foldl (relax GraphArc.dest GraphArc.src fun a => wt a.id) w := by
  rw [propagatePathsInOrder, List.foldl_flatMap]
  refine List.foldl_ext _ _ _ fun w i hi => ?_
  rw [reverseGraph_getD D.g (horder i hi), ← allArcs_eq_flatten, List.foldl_map]
  refine List.foldl_ext _ _ _ fun w a ha => ?_
  rw [relax, (mem_arcsInto.mp ha).2]
  rfl

namespace Proper

variable {F : Type u} [Field F] [LinearOrder F] [IsStrictOrderedRing F]

theorem onCycle_succ_iff {i : ℕ} : OnCycle (SuccAdj D.succ) i ↔ OnCycle D.Adj i := by
  refine onCycle_congr fun i j => ?_
  simp [SuccAdj, succ, Adj]

theorem acyclic_succ (hD : D.Proper) (hcycle : ∀ i, ¬ OnCycle D.Adj i) : Acyclic D.succ D.g.length where
  lt := by
    intro i j hj
    obtain ⟨a, ha, rfl⟩ := List.mem_map.mp hj
    exact hD.dest_lt ha
  noCycle i := fun h => hcycle i (onCycle_succ_iff.mp h)

theorem succ_of_mem_arcs {i : ℕ} {a : GraphArc} (ha : a ∈ D.arcs i) : a.dest ∈ D.succ i :=
  List.mem_map_of_mem ha

theorem outArcs_spec (hD : D.Proper) {l : List ℕ} (hnodup : l.Nodup)
    (hl : ∀ i, i ∈ l ↔ Reaches D.Adj 0 i) :
    (l.flatMap D.arcs).Nodup ∧ (l.flatMap D.arcs).toFinset = D.allArcs.toFinset := by
  constructor
  · refine List.nodup_flatMap.mpr ⟨fun i _ => hD.nodup i, hnodup.imp fun hne a ha ha' => ?_⟩
    exact hne ((hD.src ha).symm.trans (hD.src ha'))
  · refine Finset.ext fun a => ?_
    rw [List.mem_toFinset, List.mem_toFinset, List.mem_flatMap, mem_allArcs]
    constructor
    · rintro ⟨i, -, ha⟩
      exact ⟨i, ha⟩
    · rintro ⟨i, ha⟩
      exact ⟨i, (hl i).mpr (hD.reached ha), ha⟩

theorem arcsInto_spec (hD : D.Proper) {l : List ℕ} (hnodup : l.Nodup)
    (hl : ∀ i, i ∈ l ↔ Reaches D.Adj 0 i) :
    (l.flatMap D.arcsInto).Nodup ∧ (l.flatMap D.arcsInto).toFinset = D.allArcs.toFinset := by
  constructor
  · refine List.nodup_flatMap.mpr
      ⟨fun i _ => List.nodup_reverse.mpr (hD.allArcs_nodup.filter _), hnodup.imp fun hne a ha ha' => ?_⟩
    exact hne ((mem_arcsInto.mp ha).2.symm.trans (mem_arcsInto.mp ha').2)
  · refine Finset.ext fun a => ?_
    rw [List.mem_toFinset, List.mem_toFinset, List.mem_flatMap]
    constructor
    · rintro ⟨i, -, ha⟩
      exact (mem_arcsInto.mp ha).1
    · intro ha
      obtain ⟨i, hi⟩ := mem_allArcs.mp ha
      refine ⟨a.dest, (hl _).mpr ?_, mem_arcsInto.mpr ⟨ha, rfl⟩⟩
      exact (hD.reached hi).tail ⟨hi, rfl⟩

theorem computeFb_solves (hD : D.Proper) (hcycle : ∀ i, ¬ OnCycle D.Adj i) (wt : ℕ → Weight F) :
    ∃ f b, computeFb D (fun a => wt a.id) = some (f, b) ∧
      ∃ S : Finset ℕ, (∀ i, i ∈ S ↔ Reaches D.Adj 0 i) ∧
        SolvesForward GraphArc.src GraphArc.dest (fun a => wt a.id) D.allArcs.toFinset S
          (atVertex 0) f ∧
        SolvesBackward GraphArc.src GraphArc.dest (fun a => wt a.id) D.allArcs.toFinset S
          (atVertex D.fin) b := by
  obtain ⟨l, hrun, htopo, hmem⟩ := reverseTopoOrder_spec (hD.acyclic_succ hcycle) hD.start_lt
  have hreach : ∀ i, i ∈ l ↔ Reaches D.Adj 0 i := fun i => by
    rw [hmem]
    refine reaches_congr fun i j => ?_
    simp [SuccAdj, succ, Adj]
  have hlt : ∀ i ∈ l, i < D.g.length := by
    intro i hi
    obtain ⟨p, hwalk⟩ := (hreach i).mp hi
    refine hwalk.invariant (P := fun i => i < D.g.length) ?_ hD.start_lt
    rintro i a - ⟨ha, rfl⟩ -
    exact hD.dest_lt ha
  have hstart : ∀ k : ℕ, (Function.update 0 k 1 : ℕ → Weight F) = atVertex k := by
    intro k
    funext i
    by_cases h : i = k <;> simp [atVertex, h]
  have hnodup : l.Nodup := List.nodup_reverse.mp htopo.nodup
  refine ⟨_, _, by rw [computeFb]; exact congrArg _ hrun, l.toFinset, fun i => ?_, ?_, ?_⟩
  · rw [List.mem_toFinset, hreach]
  · have hout := hD.outArcs_spec htopo.nodup fun i => by rw [List.mem_reverse, hreach]
    have horder : RelaxOrder GraphArc.src GraphArc.dest (l.reverse.flatMap D.arcs) :=
      htopo.relaxOrder (fun i a ha => hD.src ha) fun i a ha => succ_of_mem_arcs ha
    rw [propagatePathsInOrder_eq fun i a ha => hD.src ha, hstart, ← hout.2]
    exact solvesForward_foldl_relax horder hout.1 _ _
  · have hinto := hD.arcsInto_spec hnodup hreach
    have horder : RelaxOrder GraphArc.dest GraphArc.src (l.flatMap D.arcsInto) := by
      rw [← List.reverse_reverse l]
      refine htopo.relaxOrder_reverse (fun i a ha => (mem_arcsInto.mp ha).2) fun i a ha => ?_
      obtain ⟨hall, rfl⟩ := mem_arcsInto.mp ha
      exact succ_of_mem_arcs (hD.mem_arcs_src hall)
    rw [propagate_reverseGraph wt hlt, hstart, ← hinto.2]
    exact solvesBackward_foldl_relax horder hinto.1 _ _

end Proper

section Gain

variable {F : Type u} [Field F] [LinearOrder F] [IsStrictOrderedRing F]

/-- What a lattice adds to the counts of an arc, when `C` is the sum of the path weights
through it. -/
def gain (D : Derivations) (Z : Weight F) (C : ℕ → Weight F) (weight : F) (k : ℕ) : Count F :=
  if Z ≠ 0 then ((C k * Weight.setReal weight / Z : Weight F) : Count F)
  else if ∃ a ∈ D.allArcs, a.id = k then ⊤ else 0

theorem sum_quotient_zero {α : Type*} (l : List α) (f : α → Weight F) :
    (l.map fun a => (f a).quotient 0).sum = if l = [] then 0 else ⊤ := by
  cases l with
  | nil => rfl
  | cons a l => rw [List.map_cons, List.sum_cons, Weight.quotient, if_pos rfl, top_add, if_neg (by simp)]

theorem sum_quotient {α : Type*} (l : List α) (f : α → Weight F) {Z : Weight F} (hZ : Z ≠ 0) :
    (l.map fun a => (f a).quotient Z).sum = (((l.map f).sum / Z : Weight F) : Count F) := by
  induction l with
  | nil => simp
  | cons a l ih =>
    rw [List.map_cons, List.sum_cons, ih, Weight.quotient, if_neg hZ, List.map_cons, List.sum_cons,
      add_div, WithTop.coe_add]

/-- The sum of the forward weight, the arc's weight and the backward weight. -/
def through (D : Derivations) (wt : ℕ → Weight F) (f b : ℕ → Weight F) (k : ℕ) : Weight F :=
  ∑ a ∈ D.allArcs.toFinset with a.id = k, f a.src * wt a.id * b a.dest

/-- `collect_counts` from the weights of the states, on any lattice. -/
theorem Proper.collectCounts_of_fb (hD : D.Proper) {t : List (ArcCounts F)} {f b : ℕ → Weight F}
    (hrun : computeFb D (fun a => weightOf t a.id) = some (f, b)) (weight : F) :
    collectCounts D weight t =
      some (f D.fin, addEach .addCounts t (D.gain (f D.fin) (D.through (weightOf t) f b) weight)) := by
  rw [collectCounts, hrun, Option.map_some]
  simp only
  have hfold := accumulates_addCounts.foldl_modify D.allArcs GraphArc.id (fun (w : Weight F) a =>
    (w * f a.src * b a.dest * Weight.setReal weight).quotient (f D.fin)) t
  rw [← List.foldl_flatMap, ← allArcs, hfold]
  congr 3
  funext k
  rw [gain]
  by_cases hZ : f D.fin = 0
  · rw [if_neg (not_not.mpr hZ), hZ, sum_quotient_zero]
    by_cases hk : ∃ a ∈ D.allArcs, a.id = k
    · rw [if_pos hk, if_neg]
      obtain ⟨a, ha, hid⟩ := hk
      exact List.ne_nil_of_mem (List.mem_filter.mpr ⟨ha, decide_eq_true hid⟩)
    · rw [if_neg hk, if_pos]
      exact List.filter_eq_nil_iff.mpr fun a ha hid => hk ⟨a, ha, of_decide_eq_true hid⟩
  · rw [if_pos hZ, sum_quotient _ _ hZ, through, ← List.sum_toFinset _ (hD.allArcs_nodup.filter _),
      Finset.sum_mul]
    congr 2
    refine Finset.sum_congr (Finset.ext fun a => by simp) fun a ha => ?_
    obtain ⟨-, rfl⟩ := Finset.mem_filter.mp ha
    rw [mul_comm (f a.src)]

/-- Weights only grow on the way through the states. -/
theorem le_propagatePathsInOrder {g : List (List GraphArc)} (getwt : GraphArc → Weight F)
    (order : List ℕ) (w : ℕ → Weight F) (i : ℕ) : w i ≤ propagatePathsInOrder g order getwt w i := by
  have harcs (src : ℕ) (arcs : List GraphArc) (w : ℕ → Weight F) : w i ≤ arcs.foldl
      (fun w a => Function.update w a.dest (w a.dest + w src * getwt a)) w i := by
    induction arcs generalizing w with
    | nil => exact le_rfl
    | cons a arcs ih =>
      rw [List.foldl_cons]
      refine le_trans ?_ (ih _)
      by_cases hi : i = a.dest
      · rw [hi, Function.update_self]
        exact le_add_of_nonneg_right zero_le
      · rw [Function.update_of_ne hi]
  rw [propagatePathsInOrder]
  induction order generalizing w with
  | nil => exact le_rfl
  | cons src order ih =>
    rw [List.foldl_cons]
    exact (harcs src _ w).trans (ih _)

/-- Where the forward weight of the final state is zero, the lattice has arcs. -/
theorem Proper.allArcs_ne_nil (hD : D.Proper) {getwt : GraphArc → Weight F} {f b : ℕ → Weight F}
    (hrun : computeFb D getwt = some (f, b)) (hZ : f D.fin = 0) : D.allArcs ≠ [] := by
  obtain ⟨order, _, hfb⟩ := Option.map_eq_some_iff.mp hrun
  have hf := (Prod.mk.inj hfb).1
  have hne : D.fin ≠ 0 := by
    intro hfin
    have hle := le_propagatePathsInOrder (g := D.g) getwt order.reverse (Function.update 0 0 1) 0
    rw [hf, Function.update_self, ← hfin, hZ] at hle
    exact absurd hle (not_le.mpr zero_lt_one)
  obtain ⟨p, hwalk⟩ := hD.fin_reached
  cases p with
  | nil => exact absurd (Walk.nil_iff.mp hwalk).symm hne
  | cons a p =>
    obtain ⟨_, step, _⟩ := Walk.cons_iff.mp hwalk
    exact List.ne_nil_of_mem (mem_allArcs.mpr ⟨0, step.1⟩)

/-- **One lattice**: the sum over the paths, and what it adds to the counts. -/
theorem Proper.collectCounts_eq (hD : D.Proper) (hcycle : ∀ i, ¬ OnCycle D.Adj i) (weight : F)
    (t : List (ArcCounts F)) :
    ∃ Z C, PathSums D.IsPath (fun a => weightOf t a.id) GraphArc.id Z C ∧
      collectCounts D weight t = some (Z, addEach .addCounts t (D.gain Z C weight)) ∧
      (Z = 0 → D.allArcs ≠ []) := by
  obtain ⟨f, b, hrun, S, hS, hf, hb⟩ := hD.computeFb_solves hcycle (weightOf t)
  have hmem : ∀ a ∈ D.allArcs.toFinset, a.src ∈ S ∧ a.dest ∈ S := by
    intro a ha
    have ha := hD.mem_arcs_src (List.mem_toFinset.mp ha)
    exact ⟨(hS _).mpr (hD.reached ha), (hS _).mpr ((hD.reached ha).tail ⟨ha, rfl⟩)⟩
  have hdead : ∀ i ∈ S, Dead D.Adj (fun _ => False) i := by
    intro i hi
    have hfin : {j | Reaches D.Adj i j}.Finite :=
      S.finite_toSet.subset fun j hj => (hS j).mpr (((hS i).mp hi).trans hj)
    exact dead_of_no_cycle hfin (fun _ _ => id) fun j _ => hcycle j
  rw [← hD.edgeAdj_eq] at hdead
  have hsums := pathSums_of_solutions GraphArc.id ((hS 0).mpr (.refl 0))
    ((hS D.fin).mpr hD.fin_reached) (fun a ha => (hmem a ha).1) (fun a ha => (hmem a ha).2) hdead
    hf hb
  rw [hD.edgeAdj_eq] at hsums
  exact ⟨f D.fin, _, hsums.congr_isPath fun p => accepted_eq_iff.symm,
    hD.collectCounts_of_fb hrun weight, hD.allArcs_ne_nil hrun⟩

end Gain

end Derivations

section Claims

variable {F : Type u} [Field F] [LinearOrder F] [IsStrictOrderedRing F]

theorem proper_of_compute {W : Type v} {x : WFST W} {inp out : List ℕ} {prune : Bool}
    {D : Derivations} (hD : compute x inp out prune = some D) (hgoal : D.noGoal = false) :
    D.Proper := by
  obtain ⟨D', hD', -, hlattice⟩ := compute_spec x inp out prune
  obtain rfl := Option.some.inj (hD.symm.trans hD')
  obtain ⟨num, goal, hrep, hisGoal, hnum⟩ := hlattice hgoal
  exact Derivations.proper_of_represents hrep hisGoal hnum

theorem id_lt_of_compute {W : Type v} {x : WFST W} {inp out : List ℕ} {prune : Bool}
    {D : Derivations} (hD : compute x inp out prune = some D) (hgoal : D.noGoal = false)
    {a : GraphArc} (ha : a ∈ D.allArcs) : a.id < x.arcsTable.length := by
  obtain ⟨D', hD', -, hlattice⟩ := compute_spec x inp out prune
  obtain rfl := Option.some.inj (hD.symm.trans hD')
  obtain ⟨num, goal, hrep, -, -⟩ := hlattice hgoal
  obtain ⟨i, ha⟩ := Derivations.mem_allArcs.mp ha
  obtain ⟨d, hd⟩ := hrep.onto i (Derivations.lt_of_mem_arcs ha)
  obtain ⟨c, hc, hac⟩ := hrep.exists_candidate hd ha
  obtain ⟨h, hid, -⟩ := mem_candidates.mp (mem_live.mp hc).1
  rw [hac.id]
  exact (List.getElem?_eq_some_iff.mp hid).1

/-- **Collecting counts.** On an acyclic lattice whose paths have a positive sum,
`collect_counts` returns that sum. Every arc id gains the example weight, or zero if that is
negative, times the expected number of its uses on a path; nothing else changes. -/
theorem collectCounts_compute {W : Type v} (x : WFST W) (inp out : List ℕ) (prune : Bool)
    {D : Derivations} (hD : compute x inp out prune = some D) (hgoal : D.noGoal = false)
    (hcycle : ∀ i, ¬ OnCycle D.Adj i) (weight : F) (t : List (ArcCounts F)) :
    ∃ Z C, PathSums D.IsPath (fun a => weightOf t a.id) GraphArc.id Z C ∧
      (Z ≠ 0 → collectCounts D weight t = some (Z, t.mapIdx fun k ac =>
        { ac with counts := ac.counts + ((C k * Weight.setReal weight / Z : Weight F) : Count F) })) := by
  obtain ⟨Z, C, hsums, hcollect, -⟩ :=
    (proper_of_compute hD hgoal).collectCounts_eq hcycle weight t
  refine ⟨Z, C, hsums, fun hZ => ?_⟩
  rw [hcollect, addEach]
  simp only [Derivations.gain, if_pos hZ]
  rfl

/-- One arc from the start to the final state that reads and writes `a`. -/
def oneStep : WFST (Weight ℚ) where
  states := [⟨[⟨2, 2, 1, 1, FSTArc.noGroup⟩], 1⟩, .empty]
  final := some 1
  inAlph := letterA
  outAlph := letterA

theorem valid_oneStep : oneStep.Valid where
  start_lt := by decide
  final_lt := ⟨1, rfl, by decide⟩
  dest_lt := by decide
  inp_lt := by decide
  out_lt := by decide

/-- Its lattice for the pair `a`, `a`. -/
def oneStepLattice : Derivations := ⟨[[⟨0, 1, 0⟩], []], 1, false⟩

theorem walk_oneStepLattice_iff {i j : ℕ} {p : List GraphArc} :
    Walk oneStepLattice.Adj i p j ↔ p = [] ∧ i = j ∨ p = [⟨0, 1, 0⟩] ∧ i = 0 ∧ j = 1 := by
  have harcs : ∀ i a, a ∈ oneStepLattice.arcs i ↔ a = ⟨0, 1, 0⟩ ∧ i = 0 := by
    intro i a
    cases i with
    | zero => simp [oneStepLattice, Derivations.arcs]
    | succ i => cases i <;> simp [oneStepLattice, Derivations.arcs]
  constructor
  · intro hwalk
    cases hwalk with
    | nil => exact .inl ⟨rfl, rfl⟩
    | cons step rest =>
      obtain ⟨ha, rfl⟩ := step
      obtain ⟨rfl, rfl⟩ := (harcs _ _).mp ha
      cases rest with
      | nil => exact .inr ⟨rfl, rfl, rfl⟩
      | cons step _ => exact absurd ((harcs _ _).mp step.1).2 (by decide)
  · rintro (⟨rfl, rfl⟩ | ⟨rfl, rfl, rfl⟩)
    · exact .nil _
    · exact .single ⟨(harcs _ _).mpr ⟨rfl, rfl⟩, rfl⟩

theorem not_onCycle_oneStepLattice (i : ℕ) : ¬ OnCycle oneStepLattice.Adj i := by
  rintro ⟨a, p, hwalk⟩
  rcases walk_oneStepLattice_iff.mp hwalk with ⟨h, -⟩ | ⟨-, rfl, h⟩
  · cases h
  · cases h

theorem collectCounts_compute_oneStep :
    ∃ Z C, PathSums oneStepLattice.IsPath (fun a => weightOf oneStep.arcCounts a.id)
        GraphArc.id Z C ∧
      (Z ≠ 0 → collectCounts oneStepLattice (1 / 2 : ℚ) oneStep.arcCounts =
        some (Z, oneStep.arcCounts.mapIdx fun k ac => { ac with
          counts := ac.counts + ((C k * Weight.setReal (1 / 2) / Z : Weight ℚ) : Count ℚ) })) :=
  collectCounts_compute oneStep [2] [2] true (by decide) rfl not_onCycle_oneStepLattice _ _

/-- With the example weight -1 the counts stay what they are. -/
theorem collectCounts_negative_weight :
    compute oneStep [2] [2] true = some oneStepLattice ∧ (∀ i, ¬ OnCycle oneStepLattice.Adj i) ∧
      ¬ ∃ Z C t, PathSums oneStepLattice.IsPath (fun a => weightOf oneStep.arcCounts a.id)
          GraphArc.id Z C ∧
        collectCounts oneStepLattice (-1 : ℚ) oneStep.arcCounts = some (Z, t) ∧
        ∀ k ac ac' (c c' : Weight ℚ), oneStep.arcCounts[k]? = some ac → t[k]? = some ac' →
          ac.counts = (c : Count ℚ) →
          ac'.counts = (c' : Count ℚ) → (c' : ℚ) = c + (-1) * C k / Z := by
  refine ⟨by decide, not_onCycle_oneStepLattice, ?_⟩
  rintro ⟨Z, C, t, ⟨P, hP, -, hexp⟩, hrun, hcounts⟩
  have hrun' : collectCounts oneStepLattice (-1 : ℚ) oneStep.arcCounts =
      some (1, oneStep.arcCounts) := by decide +kernel
  obtain ⟨rfl, rfl⟩ := Prod.mk.inj (Option.some.inj (hrun.symm.trans hrun'))
  -- the arc is used once, on the only path
  have hpath : P = {[⟨0, 1, 0⟩]} := by
    refine Finset.ext fun p => (hP p).trans ?_
    rw [Derivations.IsPath, accepted_eq_iff, walk_oneStepLattice_iff, Finset.mem_singleton]
    simp [oneStepLattice]
  have hone : C 0 = 1 := by
    rw [hexp, hpath, Finset.sum_singleton]
    decide +kernel
  have h := hcounts 0 _ _ 0 0 rfl rfl rfl rfl
  rw [hone] at h
  exact absurd h (by decide +kernel)

end Claims

end Carmel
