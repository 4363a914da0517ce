/-
# The best tree search finds the least costs

Where something is queued, `heapify` leaves nothing out of order and no vertex is queued a
second time, the search ends with the least costs and the edges they are reached by. `init`
does not say which arc gave a cost, so some vertices are reached without an edge.
-/

import Carmel.Hypergraph.Settling

namespace Carmel

open Math DAryHeap

universe u v w

namespace BestTree

variable {V : Type u} {E : Type v} {K : Type w} [DecidableEq V] [DecidableEq E]
variable [LinearOrder K] [AddCommMonoid K]

/-! ## Conditions on a run -/

/-- One round of `finish`, as long as something is queued. -/
def loop (g : Hypergraph V E K) (_ : Unit) (b : BestTree V E K) : Option (BestTree V E K) :=
  if b.heap.size = 0 then none else some (round g (TailsUp.recordEdges g) b)

/-- No edge of the vertex on top will queue its head a second time. -/
def Quiet (g : Hypergraph V E K) (b : BestTree V E K) : Prop :=
  b.heap.size ≠ 0 → ∀ before e after,
    (TailsUp.recordEdges g).adj b.heap.top = before ++ e :: after →
      ¬ QueuesTwice g e (before.foldl (fun b e => satisfy g e b) (markReached b.heap.top (pop b)))

/-- What the caller has given: costs of vertices, and of the heads of terminal
arcs if there was an `init`. -/
def Given (g : Hypergraph V E K) (calls : List (Call V E K)) (v : V) (c : K) : Prop :=
  (∃ h, Call.addAxiom v c h ∈ calls) ∨
    (Call.init ∈ calls ∧ ∃ e ∈ g.edges, g.tails e = [] ∧ g.target e = v ∧ g.ec e = c)

/-- What the search needs: something queued, terminal arcs whose source is their
target, values left out by `heapify` in order, and quiet rounds. -/
structure Undisturbed [Inhabited V] (g : Hypergraph V E K) (calls : List (Call V E K)) : Prop where
  queued : 0 < (called g calls).heap.size
  source : Call.init ∈ calls → ∀ e ∈ g.edges, g.tails e = [] → g.source e = g.target e
  last : LastInOrder optimalHeapArity (called g calls).mu (called g calls).heap
  quiet : ∀ heap t, heapify optimalHeapArity (called g calls).mu (called g calls).heap = some heap →
    Runs (loop g) (fun _ _ => True) { called g calls with heap := heap } t → Quiet g t

/-- A vertex has the cost of an axiom, or of the edge that it is said to be reached by. -/
def Explained (g : Hypergraph V E K) (calls : List (Call V E K)) (b : BestTree V E K) (v : V) :
    Prop :=
  (∃ c h, Call.addAxiom v c h ∈ calls ∧ b.mu v = (c : WithTop K)) ∨
    ∃ e ∈ g.edges, g.target e = v ∧ b.pi v = some e ∧ b.mu v = g.ec e + ((g.tails e).map b.mu).sum

/-- No head gets its least cost from a terminal arc alone. -/
def ArcsBeaten (g : Hypergraph V E K) (calls : List (Call V E K)) : Prop :=
  Call.init ∈ calls → ∀ e ∈ g.edges, g.tails e = [] →
    (∃ c h, Call.addAxiom (g.target e) c h ∈ calls ∧ c ≤ g.ec e) ∨
      ∃ c < g.ec e, Derives g (Given g calls) (g.target e) c

/-! ## Before `finish` -/

/-- A call of `axiom`. -/
structure Entry (V : Type u) (E : Type v) (K : Type w) where
  vertex : V
  cost : K
  edge : Option E

/-- The calls of `axiom` that a call comes to. -/
def Call.entries (g : Hypergraph V E K) : Call V E K → List (Entry V E K)
  | .addAxiom v c h => [⟨v, c, h⟩]
  | .init => (TailsUp.recordEdges g).terminalArcs.map fun h => ⟨g.source h, g.ec h, none⟩

def Entry.add (x : Entry V E K) (b : BestTree V E K) : BestTree V E K :=
  addAxiom x.vertex x.cost x.edge b

/-- Each vertex with a cost is queued once, and the cost is the least of its entries. -/
structure Prepared (entries : List (Entry V E K)) (b : BestTree V E K) : Prop where
  lists : b.heap.Lists b.heap.size {v | b.mu v ≠ ⊤}
  places : ∀ v, b.heap.loc v = 0 ∨ b.heap.loc v < b.heap.size
  bound : ∀ x ∈ entries, b.mu x.vertex ≤ (x.cost : WithTop K)
  origin : ∀ v, b.mu v ≠ ⊤ → ∃ x ∈ entries, x.vertex = v ∧ b.mu v = (x.cost : WithTop K) ∧
    b.pi v = x.edge

variable {g : Hypergraph V E K} {b t : BestTree V E K} {entries : List (Entry V E K)}
  {calls : List (Call V E K)} {v : V}

omit [DecidableEq E] [AddCommMonoid K] in
theorem Prepared.add (h : Prepared entries b) (x : Entry V E K) :
    Prepared (entries ++ [x]) (x.add b) := by
  obtain ⟨v, c, e⟩ := x
  unfold Entry.add addAxiom
  by_cases hlt : (c : WithTop K) < b.mu v
  · simp only [hlt, if_true]
    -- the vertex is queued already exactly when it has a cost
    have hcontains : b.heap.contains v (b.heap.loc v) ↔ b.mu v ≠ ⊤ := by
      constructor
      · intro ⟨hloc, hat⟩
        have hmem := (h.lists.elem _ hloc).1
        rwa [← hat] at hmem
      · intro hv
        obtain ⟨hloc, hat⟩ := h.lists.loc v hv
        exact ⟨hloc, hat.symm⟩
    have hset : {u | Function.update b.mu v (c : WithTop K) u ≠ ⊤} = insert v {u | b.mu u ≠ ⊤} := by
      ext u
      by_cases hu : u = v
      · subst hu
        simp
      · simp [hu]
    have hbound : ∀ x ∈ entries ++ [⟨v, c, e⟩],
        Function.update b.mu v (c : WithTop K) x.vertex ≤ (x.cost : WithTop K) := by
      intro x hx
      rcases List.mem_append.mp hx with hx | hx
      · by_cases hxv : x.vertex = v
        · rw [hxv, Function.update_self]
          exact hlt.le.trans (hxv ▸ h.bound x hx)
        · rw [Function.update_of_ne hxv]
          exact h.bound x hx
      · rw [List.mem_singleton.mp hx, Function.update_self]
    have horigin : ∀ u, Function.update b.mu v (c : WithTop K) u ≠ ⊤ →
        ∃ x ∈ entries ++ [⟨v, c, e⟩], x.vertex = u ∧
          Function.update b.mu v (c : WithTop K) u = (x.cost : WithTop K) ∧
          Function.update b.pi v e u = x.edge := by
      intro u hu
      by_cases huv : u = v
      · subst huv
        exact ⟨⟨u, c, e⟩, List.mem_append_right _ (List.mem_singleton_self _), rfl,
          Function.update_self .., Function.update_self ..⟩
      · rw [Function.update_of_ne huv] at hu ⊢
        rw [Function.update_of_ne huv]
        obtain ⟨x, hx, hrest⟩ := h.origin u hu
        exact ⟨x, List.mem_append_left _ hx, hrest⟩
    unfold safeQueue
    by_cases hv : b.mu v = ⊤
    · rw [if_neg (by rw [hcontains]; exact not_not.mpr hv)]
      constructor
      · show (b.heap.put b.heap.size v).Lists (b.heap.size + 1) _
        rw [hset]
        exact h.lists.put_new (not_not.mpr hv)
      · intro u
        show Function.update b.heap.loc v b.heap.size u = 0 ∨
          Function.update b.heap.loc v b.heap.size u < b.heap.size + 1
        by_cases huv : u = v
        · rw [huv, Function.update_self]
          omega
        · rw [Function.update_of_ne huv]
          rcases h.places u with h0 | hlt'
          · exact Or.inl h0
          · exact Or.inr (by omega)
      · exact hbound
      · exact horigin
    · rw [if_pos (hcontains.mpr hv)]
      constructor
      · show b.heap.Lists b.heap.size {u | Function.update b.mu v (c : WithTop K) u ≠ ⊤}
        rw [hset, Set.insert_eq_of_mem hv]
        exact h.lists
      · exact h.places
      · exact hbound
      · exact horigin
  · simp only [hlt, if_false]
    refine ⟨h.lists, h.places, ?_, ?_⟩
    · intro x hx
      rcases List.mem_append.mp hx with hx | hx
      · exact h.bound x hx
      · rw [List.mem_singleton.mp hx]
        exact not_lt.mp hlt
    · intro u hu
      obtain ⟨x, hx, hrest⟩ := h.origin u hu
      exact ⟨x, List.mem_append_left _ hx, hrest⟩

omit [DecidableEq E] [AddCommMonoid K] in
theorem Prepared.foldl (xs : List (Entry V E K)) : ∀ {entries : List (Entry V E K)} {b},
    Prepared entries b → Prepared (entries ++ xs) (xs.foldl (fun b x => x.add b) b) := by
  induction xs with
  | nil =>
    intro entries b h
    rw [List.append_nil]
    exact h
  | cons x xs ih =>
    intro entries b h
    have hnext := ih (h.add x)
    rw [List.append_assoc, List.singleton_append] at hnext
    exact hnext

section

omit [AddCommMonoid K]

/-- A call is the calls of `axiom` that it comes to. -/
theorem Call.run_eq (call : Call V E K) (b : BestTree V E K) :
    call.run g (TailsUp.recordEdges g) b = (call.entries g).foldl (fun b x => x.add b) b := by
  cases call with
  | addAxiom v c h => rfl
  | init =>
    unfold Call.run BestTree.init Call.entries
    rw [List.foldl_map]
    rfl

theorem called_eq [Inhabited V] (g : Hypergraph V E K) (calls : List (Call V E K)) :
    called g calls = (calls.flatMap (Call.entries g)).foldl (fun b x => x.add b)
      (new (TailsUp.recordEdges g)) := by
  unfold called
  generalize new (TailsUp.recordEdges g) = b
  induction calls generalizing b with
  | nil => rfl
  | cons call calls ih => rw [List.foldl_cons, List.flatMap_cons, List.foldl_append, ih, Call.run_eq]

theorem prepared_called [Inhabited V] (g : Hypergraph V E K) (calls : List (Call V E K)) :
    Prepared (calls.flatMap (Call.entries g)) (called g calls) := by
  rw [called_eq]
  have hnew : Prepared [] (new (K := K) (TailsUp.recordEdges g)) := by
    refine ⟨?_, fun _ => Or.inl rfl, by simp, fun v hv => absurd rfl hv⟩
    have hempty : {v | (new (K := K) (TailsUp.recordEdges g)).mu v ≠ ⊤} = ∅ :=
      Set.eq_empty_of_forall_notMem fun v hv => hv rfl
    rw [hempty]
    exact IndexedHeap.Lists.empty
  exact hnew.foldl _

end

omit [DecidableEq E] [AddCommMonoid K] in
theorem remain_add (x : Entry V E K) (b : BestTree V E K) : (x.add b).remain = b.remain := by
  unfold Entry.add addAxiom safeQueue
  split
  · show (if _ then _ else _ : BestTree V E K).remain = _
    split <;> rfl
  · rfl

omit [AddCommMonoid K] in
theorem remain_called [Inhabited V] (g : Hypergraph V E K) (calls : List (Call V E K)) :
    (called g calls).remain = (TailsUp.recordEdges g).uniqueTails := by
  rw [called_eq]
  refine List.foldlRecOn (motive := fun b : BestTree V E K =>
    b.remain = (TailsUp.recordEdges g).uniqueTails) _ _ rfl ?_
  intro b hb x _
  rw [remain_add, hb]

omit [LinearOrder K] [AddCommMonoid K] in
/-- The entries of the calls, when sources are targets. -/
theorem mem_entries_iff {x : Entry V E K}
    (hsource : Call.init ∈ calls → ∀ e ∈ g.edges, g.tails e = [] → g.source e = g.target e) :
    x ∈ calls.flatMap (Call.entries g) ↔ Call.addAxiom x.vertex x.cost x.edge ∈ calls ∨
      (Call.init ∈ calls ∧ x.edge = none ∧
        ∃ e ∈ g.edges, g.tails e = [] ∧ g.target e = x.vertex ∧ g.ec e = x.cost) := by
  have harcs : ∀ e, e ∈ (TailsUp.recordEdges g).terminalArcs ↔ e ∈ g.edges ∧ g.tails e = [] := by
    intro e
    rw [(TailsUp.indexes_recordEdges g).terminalArcs, List.mem_filter, decide_eq_true_eq]
  rw [List.mem_flatMap]
  constructor
  · intro ⟨call, hcall, hx⟩
    cases call with
    | addAxiom v c h =>
      rw [List.mem_singleton.mp hx]
      exact Or.inl hcall
    | init =>
      obtain ⟨e, he, rfl⟩ := List.mem_map.mp hx
      obtain ⟨hmem, hempty⟩ := (harcs e).mp he
      exact Or.inr ⟨hcall, rfl, e, hmem, hempty, (hsource hcall e hmem hempty).symm, rfl⟩
  · rintro (hcall | ⟨hcall, hedge, e, hmem, hempty, htarget, hcost⟩)
    · exact ⟨_, hcall, List.mem_singleton_self _⟩
    · refine ⟨Call.init, hcall, List.mem_map.mpr ⟨e, (harcs e).mpr ⟨hmem, hempty⟩, ?_⟩⟩
      obtain ⟨u, c, h⟩ := x
      simp only at hedge htarget hcost
      rw [hsource hcall e hmem hempty, htarget, hcost, hedge]

section Rounds

variable [Fintype V] [IsOrderedAddMonoid K] {axioms : V → K → Prop} {start : BestTree V E K}
  {Q : Set V}

/-- The edges of the vertex popped, one after the other. -/
theorem Settling.foldl_satisfy (haxioms : ∀ v c, axioms v c → 0 ≤ c)
    (hec : ∀ e ∈ g.edges, 0 ≤ g.ec e) (hcard : Fintype.card V < nullIndex) (pending : List E) :
    ∀ {b : BestTree V E K} {Q : Set V}, Settling g axioms start pending Q b → Latest b v →
      pending.Nodup → (∀ e ∈ pending, e ∈ g.edges ∧ v ∈ g.tails e) →
      (∀ before e after, pending = before ++ e :: after →
        ¬ QueuesTwice g e (before.foldl (fun b e => BestTree.satisfy g e b) b)) →
      ∃ Q', Settling g axioms start [] Q' (pending.foldl (fun b e => BestTree.satisfy g e b) b) ∧
        ∀ u, (pending.foldl (fun b e => BestTree.satisfy g e b) b).Reached u ↔ b.Reached u := by
  induction pending with
  | nil =>
    intro b Q h _ _ _ _
    exact ⟨Q, h, fun _ => Iff.rfl⟩
  | cons e pending ih =>
    intro b Q h hlatest hnodup hmem hquiet
    obtain ⟨hnew, hnodup'⟩ := List.nodup_cons.mp hnodup
    obtain ⟨he, hv⟩ := hmem e (List.mem_cons_self ..)
    obtain ⟨Q', h', hlatest', hreached⟩ :=
      h.satisfy hlatest he hv hnew haxioms hec (hquiet [] e pending rfl) hcard
    obtain ⟨Q'', h'', hreached'⟩ := ih h' hlatest' hnodup'
      (fun e' he' => hmem e' (List.mem_cons_of_mem _ he')) fun before e' after heq =>
        hquiet (e :: before) e' after (by rw [heq, List.cons_append])
    exact ⟨Q'', h'', fun u => (hreached' u).trans (hreached u)⟩

/-- **One round** reaches one vertex more. -/
theorem Settling.round (h : Settling g axioms start [] Q b) (haxioms : ∀ v c, axioms v c → 0 ≤ c)
    (hec : ∀ e ∈ g.edges, 0 ≤ g.ec e) (hcard : Fintype.card V < nullIndex)
    (hpos : 0 < b.heap.size) (hquiet : Quiet g b) :
    (∃ Q', Settling g axioms start [] Q' (round g (TailsUp.recordEdges g) b)) ∧
      ¬ b.Reached b.heap.top ∧
      ∀ u, (round g (TailsUp.recordEdges g) b).Reached u ↔ u = b.heap.top ∨ b.Reached u := by
  have hadj := (TailsUp.indexes_recordEdges g).adj b.heap.top
  obtain ⟨hpop, hlatest⟩ := h.pop hpos hcard
  obtain ⟨Q', hsettling, hreached⟩ := Settling.foldl_satisfy haxioms hec hcard _ hpop hlatest
    (g.nodup.filter _) (fun e he => by simpa using List.mem_filter.mp he)
    (fun before e after heq => hquiet (by omega) before e after (hadj.trans heq))
  have heq : BestTree.round g (TailsUp.recordEdges g) b =
      (g.edges.filter fun e => b.heap.top ∈ g.tails e).foldl (fun b e => BestTree.satisfy g e b)
        (markReached b.heap.top (BestTree.pop b)) := by
    unfold BestTree.round reach
    rw [hadj]
  rw [heq]
  refine ⟨⟨Q', hsettling⟩, h.apart _ (h.holds.elem_mem hpos), ?_⟩
  intro u
  exact (hreached u).trans (reached_markReached_pop h hpos hcard u)

/-- **The loop** ends with nothing queued, after as many rounds as vertices were unreached. -/
theorem Settling.finishFrom (haxioms : ∀ v c, axioms v c → 0 ≤ c)
    (hec : ∀ e ∈ g.edges, 0 ≤ g.ec e) (hcard : Fintype.card V < nullIndex) (rounds : ℕ) :
    ∀ {b : BestTree V E K} {Q : Set V}, Settling g axioms start [] Q b →
      (Finset.univ.filter fun u => ¬ b.Reached u).card ≤ rounds →
      (∀ t, Runs (loop g) (fun _ _ => True) b t → Quiet g t) →
      ∃ t, finishFrom g (TailsUp.recordEdges g) rounds b = some t ∧
        Settling g axioms start [] ∅ t := by
  induction rounds with
  | zero =>
    intro b Q h hrounds _
    have hall := Finset.filter_eq_empty_iff.mp (Finset.card_eq_zero.mp (Nat.le_zero.mp hrounds))
    have hempty : Q = ∅ := by
      apply Set.eq_empty_of_forall_notMem
      intro q hq
      exact hall (Finset.mem_univ q) (h.apart q hq)
    have hsize : b.heap.size = 0 := by
      by_contra hne
      have hmem := h.holds.elem_mem (Nat.pos_of_ne_zero hne)
      rw [hempty] at hmem
      exact hmem
    rw [BestTree.finishFrom, if_pos hsize]
    exact ⟨b, rfl, hempty ▸ h⟩
  | succ rounds ih =>
    intro b Q h hrounds hquiet
    rw [BestTree.finishFrom]
    by_cases hsize : b.heap.size = 0
    · rw [if_pos hsize]
      have hempty : Q = ∅ := by
        apply Set.eq_empty_of_forall_notMem
        intro q hq
        obtain ⟨i, hi, _⟩ := h.holds.mem_iff.mp hq
        omega
      exact ⟨b, rfl, hempty ▸ h⟩
    · rw [if_neg hsize]
      obtain ⟨⟨Q', h'⟩, hfresh, hreached⟩ :=
        h.round haxioms hec hcard (Nat.pos_of_ne_zero hsize) (hquiet b Runs.start)
      apply ih h'
      · have hsub : (Finset.univ.filter fun u =>
            ¬ (BestTree.round g (TailsUp.recordEdges g) b).Reached u) ⊂
            Finset.univ.filter fun u => ¬ b.Reached u := by
          rw [Finset.ssubset_iff_of_subset]
          · refine ⟨b.heap.top, by simpa using hfresh, ?_⟩
            simp [hreached]
          · intro u hu
            simp only [Finset.mem_filter, Finset.mem_univ, true_and, hreached, not_or] at hu ⊢
            exact hu.2
        have := Finset.card_lt_card hsub
        omega
      · intro t hrun
        exact hquiet t (Runs.head (a := ()) trivial (if_neg hsize) hrun)

end Rounds

section Search

variable [Inhabited V] [Fintype V]

omit [DecidableEq E] [AddCommMonoid K] [Inhabited V] in
/-- `heapify` makes nothing a reached vertex. -/
theorem not_reached_heapify (hcard : Fintype.card V < nullIndex) {heap : DAryHeap V}
    (hprepared : Prepared entries b) (hlast : LastInOrder optimalHeapArity b.mu b.heap)
    (heq : heapify optimalHeapArity b.mu b.heap = some heap) (v : V) :
    ¬ ({ b with heap := heap } : BestTree V E K).Reached v := by
  have hsize : b.heap.size ≤ Fintype.card V := (holds_of_lists hprepared.lists).le_card
  have hpos : b.heap.size ≠ 0 := by
    intro h0
    rw [heapify, if_pos h0] at heq
    cases heq
  rw [heapify, if_neg hpos] at heq
  have hwritten := relocated_heapifyFrom (by decide) (parent_lt (Nat.pos_of_ne_zero hpos)).le
    hprepared.lists hlast v
  have hloc : heap.loc v < nullIndex := by
    rw [← Option.some.inj heq]
    rcases hwritten with hsame | ⟨_, hlt⟩
    · rw [hsame]
      rcases hprepared.places v with h0 | hlt
      · rw [h0]
        omega
      · omega
    · exact hlt.trans_le (by omega)
  exact hloc.ne

omit [Inhabited V] in
/-- What holds when the loop begins. -/
theorem settling_start {axioms : V → K → Prop} (hprepared : Prepared entries b)
    (hremain : b.remain = (TailsUp.recordEdges g).uniqueTails)
    (haxioms : ∀ v c, axioms v c ↔ ∃ x ∈ entries, x.vertex = v ∧ x.cost = c)
    (hcard : Fintype.card V < nullIndex) (hlast : LastInOrder optimalHeapArity b.mu b.heap)
    (hpos : 0 < b.heap.size) :
    ∃ heap, heapify optimalHeapArity b.mu b.heap = some heap ∧
      Settling g axioms b [] {v | b.mu v ≠ ⊤} { b with heap := heap } := by
  obtain ⟨heap, heq, hsize, hlists, horder⟩ :=
    heapify_spec (by decide) hpos hprepared.lists hlast
  have hfresh := not_reached_heapify hcard hprepared hlast heq
  refine ⟨heap, heq, ?_⟩
  constructor
  case holds => exact holds_of_lists hlists
  case order => exact horder
  case finite =>
    intro v
    exact ⟨Or.inl, fun h => h.resolve_right (hfresh v)⟩
  case apart => exact fun v _ => hfresh v
  case settled => exact fun r hr => absurd hr (hfresh r)
  case remain =>
    intro e he _
    show b.remain e = _
    have hall : unreached g { b with heap := heap } e = (g.tails e).toFinset.card := by
      rw [unreached, Finset.filter_true_of_mem fun t _ => hfresh t]
    rw [hall, hremain, (TailsUp.indexes_recordEdges g).uniqueTails e he, if_neg List.not_mem_nil,
      Nat.add_zero]
  case fired =>
    intro e _ _ hne htails
    obtain ⟨t, ht⟩ := List.exists_mem_of_ne_nil _ hne
    exact absurd (htails t ht) (hfresh t)
  case given =>
    intro v c hc
    obtain ⟨x, hx, rfl, rfl⟩ := (haxioms v c).mp hc
    exact hprepared.bound x hx
  case derived =>
    intro v hv
    obtain ⟨x, hx, hvertex, hcost, _⟩ := hprepared.origin v hv
    exact ⟨x.cost, hcost, .leaf ((haxioms v _).mpr ⟨x, hx, hvertex, rfl⟩)⟩
  case le_start => exact fun _ => le_rfl
  case origin => exact fun v _ => Or.inl ⟨rfl, rfl⟩

variable [IsOrderedAddMonoid K]

omit [Inhabited V] [Fintype V] in
/-- With nothing queued, the costs are the least ones. -/
theorem Settling.leastCost {axioms : V → K → Prop} {start : BestTree V E K}
    (h : Settling g axioms start [] ∅ t) (v : V) : LeastCost g axioms v (t.mu v) := by
  constructor
  · intro c hc
    apply hc.le h.given
    intro e he hne htails
    apply h.fired e he List.not_mem_nil hne
    intro u hu
    exact ((h.finite u).mp (htails u hu)).resolve_left (Set.notMem_empty u)
  · by_cases hv : t.mu v = ⊤
    · exact Or.inl hv
    · exact Or.inr (h.derived v hv)

/-- **Least costs**: an undisturbed search ends, every vertex has the least cost of
a hypertree for it, and all of them are explained exactly when no head gets its
least cost from a terminal arc alone. -/
theorem finish_leastCost (g : Hypergraph V E K) (calls : List (Call V E K))
    (hec : ∀ e ∈ g.edges, 0 ≤ g.ec e) (hcalls : ∀ v c h, Call.addAxiom v c h ∈ calls → 0 ≤ c)
    (hcard : Fintype.card V < nullIndex) (hundisturbed : Undisturbed g calls) (rounds : ℕ)
    (hrounds : Fintype.card V ≤ rounds) :
    ∃ t, finish g (TailsUp.recordEdges g) rounds (called g calls) = some t ∧
      (∀ v, LeastCost g (Given g calls) v (t.mu v)) ∧
      ((∀ v, t.mu v ≠ ⊤ → Explained g calls t v) ↔ ArcsBeaten g calls) := by
  have hprepared := prepared_called g calls
  have hentries := fun x : Entry V E K => mem_entries_iff (x := x) hundisturbed.source
  have hgiven : ∀ v c, Given g calls v c ↔
      ∃ x ∈ calls.flatMap (Call.entries g), x.vertex = v ∧ x.cost = c := by
    intro v c
    constructor
    · rintro (⟨h, hmem⟩ | ⟨hinit, e, he⟩)
      · exact ⟨⟨v, c, h⟩, (hentries _).mpr (Or.inl hmem), rfl, rfl⟩
      · exact ⟨⟨v, c, none⟩, (hentries _).mpr (Or.inr ⟨hinit, rfl, e, he⟩), rfl, rfl⟩
    · rintro ⟨x, hx, rfl, rfl⟩
      rcases (hentries x).mp hx with hmem | ⟨hinit, _, harc⟩
      · exact Or.inl ⟨x.edge, hmem⟩
      · exact Or.inr ⟨hinit, harc⟩
  have haxioms : ∀ v c, Given g calls v c → 0 ≤ c := by
    rintro v c (⟨h, hmem⟩ | ⟨_, e, he, _, _, rfl⟩)
    · exact hcalls v c h hmem
    · exact hec e he
  obtain ⟨heap, heq, hstart⟩ := settling_start (g := g) hprepared (remain_called g calls) hgiven
    hcard hundisturbed.last hundisturbed.queued
  obtain ⟨t, hfinish, ht⟩ := Settling.finishFrom haxioms hec hcard rounds hstart
    ((Finset.card_filter_le _ _).trans hrounds) fun t hrun => hundisturbed.quiet heap t heq hrun
  have hleast := ht.leastCost
  refine ⟨t, ?_, hleast, ?_⟩
  · unfold finish
    rw [heq, Option.bind_some]
    exact hfinish
  · constructor
    · intro hexplained hinit e he hempty
      have hbound : t.mu (g.target e) ≤ (g.ec e : WithTop K) :=
        ht.given _ _ (Or.inr ⟨hinit, e, he, hempty, rfl, rfl⟩)
      have hfinite : t.mu (g.target e) ≠ ⊤ := ne_top_of_le_ne_top WithTop.coe_ne_top hbound
      obtain ⟨c, hc, hderives⟩ := ht.derived _ hfinite
      rw [hc, WithTop.coe_le_coe] at hbound
      rcases hbound.lt_or_eq with hlt | rfl
      · exact Or.inr ⟨c, hlt, hderives⟩
      · left
        rcases hexplained _ hfinite with ⟨c', h, hmem, hc'⟩ | ⟨e', _, _, hpi, _⟩
        · rw [hc, WithTop.coe_inj] at hc'
          exact ⟨c', h, hmem, hc'.ge⟩
        · -- the arc gave the cost, and the search has not improved it
          have hstart_le : (called g calls).mu (g.target e) ≤ (g.ec e : WithTop K) := by
            have hentry := (hentries ⟨g.target e, g.ec e, none⟩).mpr
              (Or.inr ⟨hinit, rfl, e, he, hempty, rfl, rfl⟩)
            exact hprepared.bound _ hentry
          rcases ht.origin _ hfinite with ⟨hmu, hpi'⟩ | ⟨hlt, _⟩
          · have hne : (called g calls).mu (g.target e) ≠ ⊤ := hmu ▸ hfinite
            obtain ⟨x, hx, hvertex, hcost, hedge⟩ := hprepared.origin _ hne
            rcases (hentries x).mp hx with hmem | ⟨_, hnone, _⟩
            · rw [hvertex] at hmem
              rw [← hmu, hc, WithTop.coe_inj] at hcost
              exact ⟨x.cost, x.edge, hmem, hcost.ge⟩
            · rw [hpi', hedge, hnone] at hpi
              cases hpi
          · rw [hc] at hlt
            exact absurd hstart_le (not_le.mpr hlt)
    · intro hbeaten v hv
      rcases ht.origin v hv with ⟨hmu, _⟩ | ⟨_, e, he, htarget, hpi, _, hcost⟩
      · have hne : (called g calls).mu v ≠ ⊤ := hmu ▸ hv
        obtain ⟨x, hx, rfl, hcost, _⟩ := hprepared.origin v hne
        rw [← hmu] at hcost
        rcases (hentries x).mp hx with hmem | ⟨hinit, _, e, he, hempty, htarget, hc⟩
        · exact Or.inl ⟨x.cost, x.edge, hmem, hcost⟩
        · rcases hbeaten hinit e he hempty with ⟨c, h, hmem, hle⟩ | ⟨c, hlt, hderives⟩
          · rw [htarget] at hmem
            refine Or.inl ⟨c, h, hmem, ?_⟩
            rw [hcost, WithTop.coe_inj]
            have hbound := ht.given _ _ (Or.inl ⟨h, hmem⟩ : Given g calls x.vertex c)
            rw [hcost, WithTop.coe_le_coe] at hbound
            exact le_antisymm hbound (hc ▸ hle)
          · have hle := (hleast x.vertex).1 c (htarget ▸ hderives)
            rw [hcost, WithTop.coe_le_coe, ← hc] at hle
            exact absurd hle (not_le.mpr hlt)
      · exact Or.inr ⟨e, he, htarget, hpi, hcost.trans (recomputeCost_eq g t.mu e)⟩

end Search

/-- One edge from vertex 1 to vertex 0. -/
def detour : Hypergraph (Fin 2) Unit ℕ where
  edges := [()]
  nodup := List.nodup_singleton ()
  source := fun _ => 0
  target := fun _ => 0
  tails := fun _ => [1]
  ec := fun _ => 1

instance (g : Hypergraph V E K) (e : E) (b : BestTree V E K) : Decidable (QueuesTwice g e b) := by
  unfold QueuesTwice Mislaid
  infer_instance

/-- The loop on `detour` with vertex 1 queued: the states it goes through. -/
theorem undisturbed_detour : Undisturbed detour [.addAxiom 1 3 none] := by
  constructor
  · decide
  · intro hinit
    simp at hinit
  · exact lastInOrder_of_mod (by decide) (by decide) (by decide)
  · intro heap t heq hrun
    let start : BestTree (Fin 2) Unit ℕ := { called detour [.addAxiom 1 3 none] with heap := heap }
    let next : BestTree (Fin 2) Unit ℕ → BestTree (Fin 2) Unit ℕ :=
      round detour (TailsUp.recordEdges detour)
    have hsize : heapify optimalHeapArity (called detour [.addAxiom 1 3 none]).mu
        (called detour [.addAxiom 1 3 none]).heap = some (called detour [.addAxiom 1 3 none]).heap := by
      rfl
    have hheap : heap = (called detour [.addAxiom 1 3 none]).heap :=
      Option.some.inj (heq.symm.trans hsize)
    subst hheap
    have hthree : t = start ∨ t = next start ∨ t = next (next start) := by
      refine hrun.invariant (P := fun t => t = start ∨ t = next start ∨ t = next (next start))
        (Or.inl rfl) ?_
      intro _ t u ht _ hnext
      have hpos : t.heap.size ≠ 0 := by
        intro h0
        rw [loop, if_pos h0] at hnext
        cases hnext
      rw [loop, if_neg hpos] at hnext
      rw [← Option.some.inj hnext]
      rcases ht with rfl | rfl | rfl
      · exact Or.inr (Or.inl rfl)
      · exact Or.inr (Or.inr rfl)
      · exact absurd (by decide) hpos
    have hshort : ∀ v before e after, (TailsUp.recordEdges detour).adj v = before ++ e :: after →
        before = [] := by
      have hlen : ∀ v, ((TailsUp.recordEdges detour).adj v).length ≤ 1 := by decide
      intro v before e after hadj
      have hle := hlen v
      rw [hadj, List.length_append, List.length_cons] at hle
      exact List.length_eq_zero_iff.mp (by omega)
    intro hpos before e after hadj
    rw [hshort _ before e after hadj, List.foldl_nil]
    cases e
    rcases hthree with rfl | rfl | rfl
    · decide
    · decide
    · exact absurd (by decide) hpos

theorem finish_leastCost_detour :
    ∃ t, finish detour (TailsUp.recordEdges detour) 2 (called detour [.addAxiom 1 3 none]) = some t ∧
      (∀ v, LeastCost detour (Given detour [.addAxiom 1 3 none]) v (t.mu v)) ∧
      ((∀ v, t.mu v ≠ ⊤ → Explained detour [.addAxiom 1 3 none] t v) ↔
        ArcsBeaten detour [.addAxiom 1 3 none]) := by
  apply finish_leastCost detour _ _ _ (by decide) undisturbed_detour 2 (by decide)
  · intro e _
    exact Nat.zero_le _
  · intro v c h _
    exact Nat.zero_le _

/-- With vertex 0 queued at 5 before vertex 1 at 3, vertex 0 is popped first and
keeps its cost, though the edge from vertex 1 gives it the cost 4. -/
theorem finish_detour :
    ∃ t, finish detour (TailsUp.recordEdges detour) 2
        (called detour [.addAxiom 0 5 none, .addAxiom 1 3 none]) = some t ∧
      t.mu 0 = 5 ∧
      ¬ LeastCost detour (Given detour [.addAxiom 0 5 none, .addAxiom 1 3 none]) 0 (t.mu 0) := by
  have hresult : (finish detour (TailsUp.recordEdges detour) 2
      (called detour [.addAxiom 0 5 none, .addAxiom 1 3 none])).map (fun t => t.mu 0) = some 5 := by
    decide
  obtain ⟨t, ht, hmu⟩ := Option.map_eq_some_iff.mp hresult
  refine ⟨t, ht, hmu, ?_⟩
  intro hleast
  have hderives : Derives detour (Given detour [.addAxiom 0 5 none, .addAxiom 1 3 none]) 0 4 := by
    apply Derives.edge (g := detour) () (List.mem_singleton_self ()) (by decide) (fun _ => 3)
    intro i
    obtain ⟨i, hi⟩ := i
    have hi0 : i = 0 := by
      have : i < 1 := hi
      omega
    subst hi0
    exact .leaf (Or.inl ⟨none, by simp [detour]⟩)
  have hle := hleast.1 4 hderives
  rw [hmu] at hle
  exact absurd hle (by decide)

end BestTree

end Carmel
