/-
# The index of a hypergraph by its tails

`TailsUpHypergraph` visits every edge once and keeps, for every vertex, the edges
that have it as a tail, for every edge the number of its different tails, and the
edges without tails. A repeated tail is known by the edge that was added last.
-/

import Carmel.Hypergraph.HeldValues

namespace Carmel

universe u v w

/-- What the graph class gives: its edges in the order of `visit`, and the
property maps. `ec` is the cost of an edge. -/
structure Hypergraph (V : Type u) (E : Type v) (K : Type w) where
  edges : List E
  nodup : edges.Nodup
  source : E → V
  target : E → V
  tails : E → List V
  ec : E → K

/-- `adj`, `unique_tails` and `terminal_arcs` of `TailsUpHypergraph`. -/
structure TailsUp (V : Type u) (E : Type v) where
  adj : V → List E
  uniqueTails : E → ℕ
  terminalArcs : List E

namespace TailsUp

variable {V : Type u} {E : Type v} {K : Type w} [DecidableEq V] [DecidableEq E]

/-- One tail of the edge: it is counted unless the edge was the last one added for it. -/
def recordTail (ed : E) (found : (V → List E) × ℕ) (t : V) : (V → List E) × ℕ :=
  if (found.1 t).getLast? = some ed then found
  else (Function.update found.1 t (found.1 t ++ [ed]), found.2 + 1)

/-- `operator()(ED)`. -/
def recordEdge (g : Hypergraph V E K) (tu : TailsUp V E) (ed : E) : TailsUp V E :=
  if g.tails ed = [] then { tu with terminalArcs := tu.terminalArcs ++ [ed] }
  else
    let found := (g.tails ed).foldl (recordTail ed) (tu.adj, 0)
    { tu with adj := found.1, uniqueTails := Function.update tu.uniqueTails ed found.2 }

def recordEdges (g : Hypergraph V E K) : TailsUp V E :=
  g.edges.foldl (recordEdge g) ⟨fun _ => [], fun _ => 0, []⟩

/-- The tails seen so far, when the edge is in no list at first. -/
theorem foldl_recordTail {adj : V → List E} {ed : E} (hnew : ∀ v, ed ∉ adj v) (ts : List V) :
    (∀ v, (ts.foldl (recordTail ed) (adj, 0)).1 v = adj v ++ if v ∈ ts then [ed] else []) ∧
      (ts.foldl (recordTail ed) (adj, 0)).2 = ts.toFinset.card := by
  induction ts using List.reverseRecOn with
  | nil => simp
  | append_singleton ts t ih =>
    obtain ⟨hadj, hcount⟩ := ih
    rw [List.foldl_append, List.foldl_cons, List.foldl_nil]
    generalize hfound : ts.foldl (recordTail ed) (adj, 0) = found at hadj hcount
    -- the last edge added for the tail tells whether the tail is a repeated one
    have hlast : (found.1 t).getLast? = some ed ↔ t ∈ ts := by
      rw [hadj t]
      by_cases ht : t ∈ ts
      · simp [ht]
      · rw [if_neg ht, List.append_nil]
        refine iff_of_false ?_ ht
        intro h
        exact hnew t (List.mem_of_getLast? h)
    unfold recordTail
    by_cases ht : t ∈ ts
    · rw [if_pos (hlast.mpr ht)]
      constructor
      · intro v
        rw [hadj v]
        congr 1
        by_cases hv : v ∈ ts
        · simp [hv]
        · have hne : v ≠ t := fun heq => hv (heq ▸ ht)
          simp [hv, hne]
      · have hset : (ts ++ [t]).toFinset = ts.toFinset := by
          ext v
          simp only [List.mem_toFinset, List.mem_append, List.mem_singleton]
          constructor
          · rintro (hv | rfl)
            · exact hv
            · exact ht
          · exact Or.inl
        rw [hset, hcount]
    · rw [if_neg (mt hlast.mp ht)]
      constructor
      · intro v
        by_cases hv : v = t
        · subst hv
          simp [hadj v, ht]
        · simp [hv, hadj v]
      · have hset : (ts ++ [t]).toFinset = insert t ts.toFinset := by
          ext v
          simp
        rw [hset, Finset.card_insert_of_notMem (by simpa using ht), hcount]

/-- The index of the edges visited so far. -/
structure Indexes (g : Hypergraph V E K) (visited : List E) (tu : TailsUp V E) : Prop where
  adj : ∀ v, tu.adj v = visited.filter fun e => v ∈ g.tails e
  uniqueTails : ∀ e ∈ visited, tu.uniqueTails e = (g.tails e).toFinset.card
  fresh : ∀ e, e ∉ visited → tu.uniqueTails e = 0
  terminalArcs : tu.terminalArcs = visited.filter fun e => g.tails e = []

theorem Indexes.recordEdge {g : Hypergraph V E K} {visited : List E} {tu : TailsUp V E} {ed : E}
    (h : Indexes g visited tu) (hnew : ed ∉ visited) :
    Indexes g (visited ++ [ed]) (recordEdge g tu ed) := by
  unfold TailsUp.recordEdge
  by_cases hempty : g.tails ed = []
  · rw [if_pos hempty]
    constructor
    · intro v
      simp [h.adj v, hempty]
    · intro e he
      rcases List.mem_append.mp he with he | he
      · exact h.uniqueTails e he
      · rw [List.mem_singleton.mp he, hempty]
        exact h.fresh ed hnew
    · intro e he
      exact h.fresh e fun hmem => he (List.mem_append_left _ hmem)
    · simp [h.terminalArcs, hempty]
  · rw [if_neg hempty]
    have hadj : ∀ v, ed ∉ tu.adj v := by
      intro v hmem
      rw [h.adj v] at hmem
      exact hnew (List.mem_of_mem_filter hmem)
    obtain ⟨hfound, hcount⟩ := foldl_recordTail hadj (g.tails ed)
    constructor
    · intro v
      show ((g.tails ed).foldl (recordTail ed) (tu.adj, 0)).1 v = _
      rw [hfound v, h.adj v, List.filter_append, List.filter_singleton]
      by_cases hv : v ∈ g.tails ed <;> simp [hv]
    · intro e he
      show Function.update tu.uniqueTails ed _ e = _
      by_cases heq : e = ed
      · rw [heq, Function.update_self, hcount]
      · rw [Function.update_of_ne heq]
        apply h.uniqueTails
        simpa [heq] using he
    · intro e he
      show Function.update tu.uniqueTails ed _ e = _
      have heq : e ≠ ed := fun heq => he (by simp [heq])
      rw [Function.update_of_ne heq]
      exact h.fresh e fun hmem => he (List.mem_append_left _ hmem)
    · show tu.terminalArcs = _
      simp [h.terminalArcs, hempty]

/-- **The index**: every edge once for each vertex among its tails, and their number. -/
theorem indexes_recordEdges (g : Hypergraph V E K) : Indexes g g.edges (recordEdges g) := by
  unfold recordEdges
  have hrun : ∀ visited pending (tu : TailsUp V E), (visited ++ pending).Nodup →
      Indexes g visited tu → Indexes g (visited ++ pending) (pending.foldl (recordEdge g) tu) := by
    intro visited pending
    induction pending generalizing visited with
    | nil =>
      intro tu _ h
      rw [List.append_nil]
      exact h
    | cons ed pending ih =>
      intro tu hnodup h
      rw [← List.singleton_append, ← List.append_assoc] at hnodup ⊢
      have hnew : ed ∉ visited := by
        intro hmem
        have hdisj := List.nodup_append.mp (List.nodup_append.mp hnodup).1
        exact hdisj.2.2 ed hmem ed (List.mem_singleton_self ed) rfl
      exact ih (visited ++ [ed]) (TailsUp.recordEdge g tu ed) hnodup (h.recordEdge hnew)
  exact hrun [] g.edges _ g.nodup ⟨fun _ => rfl, by simp, fun _ _ => rfl, rfl⟩

end TailsUp

end Carmel

/-!
## Best trees from the tails up

Nothing is popped twice on purpose (`allow_rereach` is 0), the location of a vertex reached
is no place at all, and no convergence is asked for.
-/

namespace Carmel

open Math

universe u v w

/-- `mu`, `pi`, `remain` and `heap` of `BestTree`. -/
structure BestTree (V : Type u) (E : Type v) (K : Type w) where
  mu : V → WithTop K
  pi : V → Option E
  remain : E → ℕ
  heap : DAryHeap V

namespace BestTree

variable {V : Type u} {E : Type v} {K : Type w} [DecidableEq V] [DecidableEq E]
variable [LinearOrder K] [AddCommMonoid K]

section Code

/-- `OPTIMAL_HEAP_ARITY`. -/
def optimalHeapArity : ℕ := 2

/-- `GRAEHL_D_ARY_HEAP_NULL_INDEX` as an unsigned location. -/
def nullIndex : ℕ := 2 ^ 64 - 1

/-- The constructor, with `init_costs` and `init_pi`. -/
def new [Inhabited V] (tu : TailsUp V E) : BestTree V E K :=
  ⟨fun _ => ⊤, fun _ => none, tu.uniqueTails, ⟨⟨fun _ => default, fun _ => 0⟩, 0⟩⟩

def safeQueue (v : V) (b : BestTree V E K) : BestTree V E K :=
  if b.heap.contains v (b.heap.loc v) then b else { b with heap := b.heap.addUnsorted v }

/-- `axiom`; without an edge `h` is the null one. -/
def addAxiom (v : V) (c : K) (h : Option E) (b : BestTree V E K) : BestTree V E K :=
  if (c : WithTop K) < b.mu v then
    let b := safeQueue v { b with mu := Function.update b.mu v (c : WithTop K) }
    { b with pi := Function.update b.pi v h }
  else b

variable (g : Hypergraph V E K) (tu : TailsUp V E)

/-- The costs of the terminal arcs, for their sources. -/
def init (b : BestTree V E K) : BestTree V E K :=
  tu.terminalArcs.foldl (fun b h => addAxiom (g.source h) (g.ec h) none b) b

def relax (head : V) (e : E) (c : WithTop K) (b : BestTree V E K) : BestTree V E K :=
  if c < b.mu head then
    let mu := Function.update b.mu head c
    ⟨mu, Function.update b.pi head (some e), b.remain,
      DAryHeap.pushOrUpdate optimalHeapArity mu head b.heap⟩
  else b

/-- The cost of an edge with its tails, each as often as it is one. -/
def recomputeCost (mu : V → WithTop K) (e : E) : WithTop K :=
  (g.tails e).foldl (fun c t => c + mu t) (g.ec e)

/-- `already_reached`, for a vertex that is not counted. -/
def Reached (b : BestTree V E K) (v : V) : Prop := b.heap.loc v = nullIndex

instance (b : BestTree V E K) (v : V) : Decidable (b.Reached v) := by
  unfold Reached
  infer_instance

def markReached (v : V) (b : BestTree V E K) : BestTree V E K :=
  { b with heap := ⟨⟨b.heap.elem, Function.update b.heap.loc v nullIndex⟩, b.heap.size⟩ }

/-- One edge of the vertex popped: it has one tail less to wait for, unless its
head has been reached. -/
def satisfy (e : E) (b : BestTree V E K) : BestTree V E K :=
  if b.Reached (g.target e) then b
  else
    let tailsUnreached := b.remain e - 1
    let b := { b with remain := Function.update b.remain e tailsUnreached }
    if tailsUnreached = 0 then relax (g.target e) e (recomputeCost g b.mu e) b else b

def reach (tail : V) (b : BestTree V E K) : BestTree V E K :=
  (tu.adj tail).foldl (fun b e => satisfy g e b) (markReached tail b)

def pop (b : BestTree V E K) : BestTree V E K :=
  { b with heap := DAryHeap.pop optimalHeapArity b.mu b.heap }

/-- One round of the loop of `finish`. -/
def round (b : BestTree V E K) : BestTree V E K := reach g tu b.heap.top (pop b)

/-- The loop of `finish`, for some number of rounds. -/
def finishFrom : ℕ → BestTree V E K → Option (BestTree V E K)
  | 0, b => if b.heap.size = 0 then some b else none
  | rounds + 1, b => if b.heap.size = 0 then some b else finishFrom rounds (round g tu b)

/-- No result if `heapify` leaves the array, or the rounds do not do. -/
def finish (rounds : ℕ) (b : BestTree V E K) : Option (BestTree V E K) :=
  (DAryHeap.heapify optimalHeapArity b.mu b.heap).bind fun heap =>
    finishFrom g tu rounds { b with heap := heap }

/-- What the caller does before `finish`. -/
inductive Call (V : Type u) (E : Type v) (K : Type w)
  | addAxiom (v : V) (c : K) (h : Option E)
  | init

def Call.run : Call V E K → BestTree V E K → BestTree V E K
  | .addAxiom v c h, b => BestTree.addAxiom v c h b
  | .init, b => BestTree.init g tu b

/-- The tree after the calls. -/
def called [Inhabited V] (calls : List (Call V E K)) : BestTree V E K :=
  calls.foldl (fun b call => call.run g (TailsUp.recordEdges g) b) (new (TailsUp.recordEdges g))

end Code

section Costs

omit [DecidableEq V] [DecidableEq E]

variable {g : Hypergraph V E K} {mu mu' : V → WithTop K} {e : E} {t : V}

omit [LinearOrder K] in
theorem recomputeCost_eq (g : Hypergraph V E K) (mu : V → WithTop K) (e : E) :
    recomputeCost g mu e = g.ec e + ((g.tails e).map mu).sum := by
  have hfold : ∀ (ts : List V) (c : WithTop K),
      ts.foldl (fun c t => c + mu t) c = c + (ts.map mu).sum := by
    intro ts
    induction ts with
    | nil => simp
    | cons t ts ih =>
      intro c
      rw [List.foldl_cons, ih, List.map_cons, List.sum_cons, add_assoc]
  exact hfold (g.tails e) (g.ec e)

omit [LinearOrder K] in
theorem recomputeCost_congr (h : ∀ t ∈ g.tails e, mu' t = mu t) :
    recomputeCost g mu' e = recomputeCost g mu e := by
  rw [recomputeCost_eq, recomputeCost_eq, List.map_congr_left h]

variable [IsOrderedAddMonoid K]

theorem le_recomputeCost (hec : 0 ≤ g.ec e) (hmu : ∀ t, 0 ≤ mu t) (ht : t ∈ g.tails e) :
    mu t ≤ recomputeCost g mu e := by
  rw [recomputeCost_eq]
  have hsum : mu t ≤ ((g.tails e).map mu).sum := by
    apply List.single_le_sum
    · intro x hx
      obtain ⟨t', _, rfl⟩ := List.mem_map.mp hx
      exact hmu t'
    · exact List.mem_map_of_mem ht
  have hec' : (0 : WithTop K) ≤ g.ec e := by
    rw [← WithTop.coe_zero]
    exact WithTop.coe_le_coe.mpr hec
  exact hsum.trans (le_add_of_nonneg_left hec')

end Costs

end BestTree

end Carmel

/-! ## Hypertrees and their least costs -/

namespace Carmel

universe u v w

variable {V : Type u} {E : Type v} {K : Type w} [AddCommMonoid K]

/-- A hypertree derives the vertex from the axioms at this cost. Edges without
tails are taken for axioms where they are to be used. -/
inductive Derives (g : Hypergraph V E K) (axioms : V → K → Prop) : V → K → Prop
  | leaf {v : V} {c : K} (given : axioms v c) : Derives g axioms v c
  | edge (e : E) (mem : e ∈ g.edges) (tails : g.tails e ≠ [])
      (costs : Fin (g.tails e).length → K)
      (subtrees : ∀ i, Derives g axioms ((g.tails e).get i) (costs i)) :
      Derives g axioms (g.target e) (g.ec e + ∑ i, costs i)

/-- The least cost of a hypertree that derives `v`, or no cost if there is none. -/
def LeastCost [LinearOrder K] (g : Hypergraph V E K) (axioms : V → K → Prop) (v : V)
    (cost : WithTop K) : Prop :=
  (∀ c, Derives g axioms v c → cost ≤ c) ∧ (cost = ⊤ ∨ ∃ c : K, cost = c ∧ Derives g axioms v c)

variable {g : Hypergraph V E K} {axioms : V → K → Prop} {v : V} {c : K} {e : E}
  {mu : V → WithTop K}

theorem sum_get_eq {α : Type u} {M : Type w} [AddCommMonoid M] (f : α → M) (l : List α) :
    ∑ i : Fin l.length, f (l.get i) = (l.map f).sum := by
  have hlist : (List.ofFn fun i : Fin l.length => f (l.get i)) = l.map f := by
    conv_rhs => rw [← List.ofFn_get l, List.map_ofFn]
    rfl
  rw [← List.sum_ofFn, hlist]

/-- Derivations of the tails make one of the head. -/
theorem derives_recomputeCost (he : e ∈ g.edges) (hne : g.tails e ≠ [])
    (htails : ∀ t ∈ g.tails e, ∃ c : K, mu t = c ∧ Derives g axioms t c) :
    ∃ c : K, BestTree.recomputeCost g mu e = c ∧ Derives g axioms (g.target e) c := by
  choose! costs hmu hderives using htails
  refine ⟨_, ?_, .edge e he hne (fun i => costs ((g.tails e).get i)) fun i =>
    hderives _ (List.get_mem _ i)⟩
  rw [BestTree.recomputeCost_eq, WithTop.coe_add, sum_get_eq costs]
  congr 1
  rw [List.map_congr_left hmu]
  induction g.tails e with
  | nil => rfl
  | cons t ts ih => rw [List.map_cons, List.map_cons, List.sum_cons, List.sum_cons, ih, WithTop.coe_add]

variable [LinearOrder K] [IsOrderedAddMonoid K]

theorem Derives.nonneg (h : Derives g axioms v c) (haxioms : ∀ v c, axioms v c → 0 ≤ c)
    (hec : ∀ e ∈ g.edges, 0 ≤ g.ec e) : 0 ≤ c := by
  induction h with
  | leaf given => exact haxioms _ _ given
  | edge e mem _ costs _ ih => exact add_nonneg (hec e mem) (Finset.sum_nonneg fun i _ => ih i)

/-- Costs that no axiom and no edge improves are not above that of any hypertree. -/
theorem Derives.le (h : Derives g axioms v c) (hgiven : ∀ v c, axioms v c → mu v ≤ c)
    (hedge : ∀ e ∈ g.edges, g.tails e ≠ [] → (∀ t ∈ g.tails e, mu t ≠ ⊤) →
      mu (g.target e) ≤ BestTree.recomputeCost g mu e) : mu v ≤ c := by
  induction h with
  | leaf given => exact hgiven _ _ given
  | edge e mem tails costs _ ih =>
    have hsum : ((g.tails e).map mu).sum ≤ ((∑ i, costs i : K) : WithTop K) := by
      rw [← sum_get_eq, WithTop.coe_sum]
      exact Finset.sum_le_sum fun i _ => ih i
    have hreached : ∀ t ∈ g.tails e, mu t ≠ ⊤ := by
      intro t ht
      obtain ⟨i, rfl⟩ := List.get_of_mem ht
      exact ne_top_of_le_ne_top WithTop.coe_ne_top (ih i)
    calc
      mu (g.target e) ≤ BestTree.recomputeCost g mu e := hedge e mem tails hreached
      _ = g.ec e + ((g.tails e).map mu).sum := BestTree.recomputeCost_eq g mu e
      _ ≤ g.ec e + ((∑ i, costs i : K) : WithTop K) := add_le_add_right hsum _
      _ = ((g.ec e + ∑ i, costs i : K) : WithTop K) := (WithTop.coe_add ..).symm

end Carmel
