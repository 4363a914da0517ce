/-
# Forward and backward equations on a graph

What arrives at the vertices of a graph, and what its vertices lead to, solve linear
equations. Relaxing every edge once, in an order in which no edge enters the source of an
edge already relaxed, computes a solution. Forward and backward solutions determine each
other.
-/

import Carmel.Math.Walk

namespace Carmel.Math

universe u v w

variable {V : Type u} {E : Type v} {R : Type w} [DecidableEq V]

section Relax

variable [CommSemiring R] (src dest : E → V) (wt : E → R)

/-- Pass what has arrived at the source of an edge on to its target. -/
def relax (f : V → R) (e : E) : V → R :=
  Function.update f (dest e) (f (dest e) + f (src e) * wt e)

/-- No edge enters the source of an edge before it, or its own. -/
def RelaxOrder (es : List E) : Prop :=
  es.Pairwise (fun e e' => dest e' ≠ src e) ∧ ∀ e ∈ es, dest e ≠ src e

variable {src dest wt}

theorem relax_of_ne {f : V → R} {e : E} {v : V} (h : dest e ≠ v) : relax src dest wt f e v = f v :=
  Function.update_of_ne h.symm ..

theorem relax_apply (f : V → R) (e : E) (v : V) :
    relax src dest wt f e v = f v + if dest e = v then f (src e) * wt e else 0 := by
  by_cases h : dest e = v
  · subst h
    simp [relax]
  · simp [relax_of_ne h, h]

theorem foldl_relax_of_ne {es : List E} {v : V} (h : ∀ e ∈ es, dest e ≠ v) (f : V → R) :
    es.foldl (relax src dest wt) f v = f v := by
  induction es generalizing f with
  | nil => rfl
  | cons e es ih =>
    rw [List.foldl_cons, ih fun e' he' => h e' (List.mem_cons_of_mem _ he')]
    exact relax_of_ne (h e List.mem_cons_self)

theorem foldl_relax_eq {es : List E} (h : RelaxOrder src dest es) (f : V → R) (v : V) :
    es.foldl (relax src dest wt) f v = f v +
      (es.map fun e => if dest e = v then es.foldl (relax src dest wt) f (src e) * wt e else 0).sum := by
  induction es generalizing f with
  | nil => simp
  | cons e es ih =>
    obtain ⟨hpair, hself⟩ := h
    obtain ⟨hhead, htail⟩ := List.pairwise_cons.mp hpair
    have horder : RelaxOrder src dest es :=
      ⟨htail, fun e' he' => hself e' (List.mem_cons_of_mem _ he')⟩
    -- nothing enters the source of the first edge any more
    have hsrc : (e :: es).foldl (relax src dest wt) f (src e) = f (src e) := by
      apply foldl_relax_of_ne
      intro e' he'
      rcases List.mem_cons.mp he' with rfl | he'
      · exact hself _ List.mem_cons_self
      · exact hhead e' he'
    rw [List.map_cons, List.sum_cons, hsrc, List.foldl_cons, ih horder, relax_apply, add_assoc]

/-- Nothing is passed on from a vertex where nothing has arrived. -/
theorem foldl_relax_of_eq_zero {es : List E} {f : V → R} (h : ∀ e ∈ es, f (src e) = 0) :
    es.foldl (relax src dest wt) f = f := by
  induction es with
  | nil => rfl
  | cons e es ih =>
    have hhead : relax src dest wt f e = f := by
      rw [relax, h e List.mem_cons_self, zero_mul, add_zero, Function.update_eq_self]
    rw [List.foldl_cons, hhead]
    exact ih fun e' he' => h e' (List.mem_cons_of_mem _ he')

end Relax

section Dual

variable [CommRing R] {src dest : E → V} {wt : E → R}

/-- Relaxing in order is adjoint to collecting what the edges lead to: the weights
`h` found where the relaxed `g` has arrived are the weights `b` found at `g`. -/
theorem sum_foldl_relax_mul {es : List E} (horder : RelaxOrder src dest es) (S : Finset V)
    (hsrc : ∀ e ∈ es, src e ∈ S) (hdest : ∀ e ∈ es, dest e ∈ S) {g h b : V → R}
    (hb : ∀ v ∈ S, b v = h v + (es.map fun e => if src e = v then wt e * b (dest e) else 0).sum) :
    ∑ v ∈ S, es.foldl (relax src dest wt) g v * h v = ∑ v ∈ S, g v * b v := by
  induction es generalizing g b with
  | nil =>
    refine Finset.sum_congr rfl fun v hv => ?_
    rw [hb v hv]
    simp
  | cons e es ih =>
    obtain ⟨hpair, hself⟩ := horder
    obtain ⟨hhead, htail⟩ := List.pairwise_cons.mp hpair
    have hloop : dest e ≠ src e := hself e List.mem_cons_self
    -- the backward weights without the first edge
    let b' : V → R := fun v => if v = src e then b v - wt e * b (dest e) else b v
    have hb' : ∀ e' ∈ e :: es, b' (dest e') = b (dest e') := by
      intro e' he'
      apply if_neg
      rcases List.mem_cons.mp he' with rfl | he'
      · exact hloop
      · exact hhead e' he'
    have hsolves : ∀ v ∈ S, b' v =
        h v + (es.map fun e' => if src e' = v then wt e' * b' (dest e') else 0).sum := by
      intro v hv
      have hsum : (es.map fun e' => if src e' = v then wt e' * b' (dest e') else 0) =
          es.map fun e' => if src e' = v then wt e' * b (dest e') else 0 := by
        apply List.map_congr_left
        intro e' he'
        rw [hb' e' (List.mem_cons_of_mem _ he')]
      have hall := hb v hv
      rw [List.map_cons, List.sum_cons] at hall
      rw [hsum]
      by_cases hve : v = src e
      · simp only [b', if_pos hve]
        rw [hall, if_pos hve.symm]
        ring
      · simp only [b', if_neg hve]
        rw [hall, if_neg (Ne.symm hve), zero_add]
    rw [List.foldl_cons, ih ⟨htail, fun e' he' => hself e' (List.mem_cons_of_mem _ he')⟩
      (fun e' he' => hsrc e' (List.mem_cons_of_mem _ he'))
      (fun e' he' => hdest e' (List.mem_cons_of_mem _ he')) hsolves]
    have hrelaxed : ∀ v ∈ S, relax src dest wt g e v * b' v =
        g v * b v + ((if dest e = v then g (src e) * wt e * b (dest e) else 0) -
          if v = src e then g (src e) * wt e * b (dest e) else 0) := by
      intro v _
      rw [relax_apply]
      by_cases hvd : dest e = v
      · subst hvd
        rw [if_pos rfl, if_neg hloop, hb' e List.mem_cons_self, if_pos rfl]
        ring
      · rw [if_neg hvd, if_neg hvd]
        by_cases hve : v = src e
        · simp only [b', if_pos hve]
          rw [hve]
          ring
        · simp only [b', if_neg hve]
          ring
    rw [Finset.sum_congr rfl hrelaxed, Finset.sum_add_distrib, Finset.sum_sub_distrib,
      Finset.sum_ite_eq, if_pos (hdest e List.mem_cons_self), Finset.sum_ite_eq',
      if_pos (hsrc e List.mem_cons_self), sub_self, add_zero]

end Dual

section Order

variable {E' V' : Type*} {src dest : E → V} {es fs : List E}

omit [DecidableEq V]

theorem relaxOrder_append (he : RelaxOrder src dest es) (hf : RelaxOrder src dest fs)
    (h : ∀ e ∈ es, ∀ e' ∈ fs, dest e' ≠ src e) : RelaxOrder src dest (es ++ fs) := by
  refine ⟨List.pairwise_append.mpr ⟨he.1, hf.1, h⟩, fun e hmem => ?_⟩
  rcases List.mem_append.mp hmem with hmem | hmem
  · exact he.2 e hmem
  · exact hf.2 e hmem

theorem relaxOrder_flatMap {l : List E'} {f : E' → List E} (hf : ∀ i ∈ l, RelaxOrder src dest (f i))
    (h : l.Pairwise fun i j => ∀ e ∈ f i, ∀ e' ∈ f j, dest e' ≠ src e) :
    RelaxOrder src dest (l.flatMap f) := by
  refine ⟨List.pairwise_flatMap.mpr ⟨fun i hi => (hf i hi).1, h⟩, fun e hmem => ?_⟩
  obtain ⟨i, hi, he⟩ := List.mem_flatMap.mp hmem
  exact (hf i hi).2 e he

/-- An order of the edges of an image of the graph is an order of its edges. -/
theorem RelaxOrder.of_map (p : V → V')
    (h : RelaxOrder (fun e => p (src e)) (fun e => p (dest e)) es) : RelaxOrder src dest es :=
  ⟨h.1.imp fun hne heq => hne (congrArg p heq), fun e he heq => h.2 e he (congrArg p heq)⟩

end Order

section Solutions

variable [CommSemiring R] (src dest : E → V) (wt : E → R) (A : Finset E)

/-- `f` collects, at every vertex, `g` and what arrives over the edges. -/
def SolvesForward (S : Finset V) (g f : V → R) : Prop :=
  ∀ v ∈ S, f v = g v + ∑ e ∈ A with dest e = v, f (src e) * wt e

/-- `b` collects, at every vertex, `h` and what the edges lead to. -/
def SolvesBackward (S : Finset V) (h b : V → R) : Prop :=
  ∀ v ∈ S, b v = h v + ∑ e ∈ A with src e = v, wt e * b (dest e)

variable {src dest wt A} {S : Finset V} {f b c g h : V → R}

theorem solvesForward_foldl_relax [DecidableEq E] {es : List E} (h : RelaxOrder src dest es)
    (hnodup : es.Nodup) (S : Finset V) (g : V → R) :
    SolvesForward src dest wt es.toFinset S g (es.foldl (relax src dest wt) g) := by
  intro v _
  rw [foldl_relax_eq h g v, Finset.sum_filter, List.sum_toFinset _ hnodup]

theorem solvesBackward_foldl_relax [DecidableEq E] {es : List E} (h : RelaxOrder dest src es)
    (hnodup : es.Nodup) (S : Finset V) (g : V → R) :
    SolvesBackward src dest wt es.toFinset S g (es.foldl (relax dest src wt) g) := by
  intro v hv
  rw [solvesForward_foldl_relax h hnodup S g v hv]
  refine congrArg _ (Finset.sum_congr rfl fun e _ => mul_comm _ _)

theorem sum_sum_source (hsrc : ∀ e ∈ A, src e ∈ S) (F : E → R) :
    ∑ v ∈ S, ∑ e ∈ A with src e = v, F e = ∑ e ∈ A, F e :=
  Finset.sum_fiberwise_of_maps_to hsrc F

/-- **Duality**: what the sources of `f` find in `b` is what the sources of `b` find in `f`. -/
theorem sum_mul_eq_sum_mul [IsLeftCancelAdd R] (hsrc : ∀ e ∈ A, src e ∈ S)
    (hdest : ∀ e ∈ A, dest e ∈ S) (hf : SolvesForward src dest wt A S g f)
    (hb : SolvesBackward src dest wt A S h b) : ∑ v ∈ S, g v * b v = ∑ v ∈ S, f v * h v := by
  have hleft : ∑ v ∈ S, f v * b v =
      ∑ v ∈ S, g v * b v + ∑ e ∈ A, f (src e) * wt e * b (dest e) := by
    have hstep : ∀ v ∈ S, f v * b v =
        g v * b v + ∑ e ∈ A with dest e = v, f (src e) * wt e * b (dest e) := by
      intro v hv
      rw [hf v hv, add_mul, Finset.sum_mul]
      refine congrArg _ (Finset.sum_congr rfl fun e he => ?_)
      rw [(Finset.mem_filter.mp he).2]
    rw [Finset.sum_congr rfl hstep, Finset.sum_add_distrib, sum_sum_source hdest]
  have hright : ∑ v ∈ S, f v * b v =
      ∑ v ∈ S, f v * h v + ∑ e ∈ A, f (src e) * wt e * b (dest e) := by
    have hstep : ∀ v ∈ S, f v * b v =
        f v * h v + ∑ e ∈ A with src e = v, f (src e) * wt e * b (dest e) := by
      intro v hv
      nth_rewrite 1 [hb v hv]
      rw [mul_add, Finset.mul_sum]
      refine congrArg _ (Finset.sum_congr rfl fun e he => ?_)
      rw [(Finset.mem_filter.mp he).2, mul_assoc]
    rw [Finset.sum_congr rfl hstep, Finset.sum_add_distrib, sum_sum_source hsrc]
  rw [hleft, add_comm, add_comm (∑ v ∈ S, f v * h v)] at hright
  exact add_left_cancel hright

/-- One at the vertex, zero elsewhere. -/
def atVertex (s : V) (v : V) : R := if v = s then 1 else 0

theorem sum_atVertex_mul {s : V} (hs : s ∈ S) (b : V → R) : ∑ v ∈ S, atVertex s v * b v = b s := by
  rw [Finset.sum_eq_single_of_mem s hs]
  · simp [atVertex]
  · intro v _ hv
    simp [atVertex, hv]

/-- The forward solution at the end is the backward solution at the start. -/
theorem forward_eq_backward [IsLeftCancelAdd R] {s t : V} (hs : s ∈ S) (ht : t ∈ S)
    (hsrc : ∀ e ∈ A, src e ∈ S) (hdest : ∀ e ∈ A, dest e ∈ S)
    (hf : SolvesForward src dest wt A S (atVertex s) f)
    (hb : SolvesBackward src dest wt A S (atVertex t) b) : f t = b s := by
  have h := sum_mul_eq_sum_mul hsrc hdest hf hb
  rw [sum_atVertex_mul hs] at h
  rw [h, ← sum_atVertex_mul ht f]
  exact Finset.sum_congr rfl fun v _ => mul_comm _ _

/-- `c` collects, for every vertex, the weight of the marked edges ahead, given
the weight `b` of what follows them. -/
def SolvesOccurrences (src dest : E → V) (wt : E → R) (A : Finset E) (S : Finset V)
    (marked : E → Bool) (b c : V → R) : Prop :=
  SolvesBackward src dest wt A S
    (fun v => ∑ e ∈ A with src e = v, if marked e then wt e * b (dest e) else 0) c

/-- **Expected counts**: the products of forward and backward weights at the
marked edges sum up to the occurrences seen from the start. -/
theorem sum_marked_eq [IsLeftCancelAdd R] {s : V} {marked : E → Bool} (hs : s ∈ S)
    (hsrc : ∀ e ∈ A, src e ∈ S) (hdest : ∀ e ∈ A, dest e ∈ S)
    (hf : SolvesForward src dest wt A S (atVertex s) f)
    (hc : SolvesOccurrences src dest wt A S marked b c) :
    (∑ e ∈ A, if marked e then f (src e) * wt e * b (dest e) else 0) = c s := by
  have h := sum_mul_eq_sum_mul hsrc hdest hf hc
  rw [sum_atVertex_mul hs] at h
  rw [h, ← sum_sum_source hsrc]
  refine Finset.sum_congr rfl fun v _ => ?_
  rw [Finset.mul_sum]
  refine Finset.sum_congr rfl fun e he => ?_
  rw [(Finset.mem_filter.mp he).2]
  split
  · rw [mul_assoc]
  · rw [mul_zero]

end Solutions

end Carmel.Math

/-!
## Topologically ordered lists

Relaxing the edges out of the vertices of such a list front to back, or those into them back
to front, never enters a vertex whose edges were relaxed before.
-/

namespace Carmel.Math

universe u v

variable {V : Type u} {E : Type v}

/-- Every vertex comes once, and before its successors. -/
def TopoList (succ : V → List V) : List V → Prop
  | [] => True
  | a :: l => a ∉ l ∧ (∀ b ∈ succ a, b ∈ l) ∧ TopoList succ l

namespace TopoList

variable {succ : V → List V} {l : List V} {a b : V}

theorem nodup (h : TopoList succ l) : l.Nodup := by
  induction l with
  | nil => exact List.nodup_nil
  | cons a l ih => exact List.nodup_cons.mpr ⟨h.1, ih h.2.2⟩

theorem mem_of_succ (h : TopoList succ l) (ha : a ∈ l) (hb : b ∈ succ a) : b ∈ l := by
  induction l with
  | nil => exact absurd ha List.not_mem_nil
  | cons c l ih =>
    rcases List.mem_cons.mp ha with rfl | ha
    · exact List.mem_cons_of_mem _ (h.2.1 b hb)
    · exact List.mem_cons_of_mem _ (ih h.2.2 ha)

/-- Nothing in the list leads back to its first vertex. -/
theorem head_notMem_succ (h : TopoList succ (a :: l)) (hb : b ∈ a :: l) : a ∉ succ b := by
  intro ha
  rcases List.mem_cons.mp hb with rfl | hb
  · exact h.1 (h.2.1 _ ha)
  · exact h.1 (h.2.2.mem_of_succ hb ha)

theorem relaxOrder (h : TopoList succ l) {src dest : E → V} {arcs : V → List E}
    (hsrc : ∀ v, ∀ e ∈ arcs v, src e = v) (hdest : ∀ v, ∀ e ∈ arcs v, dest e ∈ succ v) :
    RelaxOrder src dest (l.flatMap arcs) := by
  induction l with
  | nil => exact ⟨List.Pairwise.nil, by simp⟩
  | cons a l ih =>
    obtain ⟨hpair, hself⟩ := ih h.2.2
    have hne : ∀ e ∈ (a :: l).flatMap arcs, dest e ≠ a := by
      intro e he heq
      obtain ⟨v, hv, he⟩ := List.mem_flatMap.mp he
      exact h.head_notMem_succ hv (heq ▸ hdest v e he)
    rw [List.flatMap_cons] at hne ⊢
    refine ⟨List.pairwise_append.mpr ⟨?_, hpair, ?_⟩, ?_⟩
    · refine List.pairwise_of_forall_mem_list fun e he e' he' => ?_
      rw [hsrc a e he]
      exact hne e' (List.mem_append_left _ he')
    · intro e he e' he'
      rw [hsrc a e he]
      exact hne e' (List.mem_append_right _ he')
    · intro e he
      rcases List.mem_append.mp he with he | he
      · rw [hsrc a e he]
        exact hne e (List.mem_append_left _ he)
      · exact hself e he

theorem relaxOrder_reverse (h : TopoList succ l) {src dest : E → V} {into : V → List E}
    (hdest : ∀ v, ∀ e ∈ into v, dest e = v) (hsrc : ∀ v, ∀ e ∈ into v, v ∈ succ (src e)) :
    RelaxOrder dest src (l.reverse.flatMap into) := by
  induction l with
  | nil => exact ⟨List.Pairwise.nil, by simp⟩
  | cons a l ih =>
    obtain ⟨hpair, hself⟩ := ih h.2.2
    rw [List.reverse_cons, List.flatMap_append, List.flatMap_singleton]
    have hne : ∀ e ∈ into a, ∀ v ∈ a :: l, src e ≠ v := by
      rintro e he v hv rfl
      exact h.head_notMem_succ hv (hsrc a e he)
    refine ⟨List.pairwise_append.mpr ⟨hpair, ?_, ?_⟩, ?_⟩
    · refine List.pairwise_of_forall_mem_list fun e he e' he' => ?_
      rw [hdest a e he]
      exact hne e' he' a List.mem_cons_self
    · intro e he e' he'
      obtain ⟨v, hv, he⟩ := List.mem_flatMap.mp he
      rw [hdest v e he]
      exact hne e' he' v (List.mem_cons_of_mem _ (List.mem_reverse.mp hv))
    · intro e he
      rcases List.mem_append.mp he with he | he
      · exact hself e he
      · rw [hdest a e he]
        exact hne e he a List.mem_cons_self

theorem not_onCycle (h : TopoList succ l) (ha : a ∈ l) :
    ¬ OnCycle (fun u (_ : Unit) w => w ∈ succ u) a := by
  induction l with
  | nil => cases ha
  | cons c l ih =>
    intro ⟨e, es, hwalk⟩
    rcases List.mem_cons.mp ha with rfl | ha
    · -- after the first step the walk stays behind its start
      obtain ⟨w, hw, hrest⟩ := Walk.cons_iff.mp hwalk
      have hin := hrest.invariant (P := (· ∈ l)) (fun hstep ha => h.2.2.mem_of_succ ha hstep)
        (h.2.1 w hw)
      exact h.1 hin
    · exact ih h.2.2 ha ⟨e, es, hwalk⟩

theorem idxOf_lt [DecidableEq V] (h : TopoList succ l) (ha : a ∈ l) (hb : b ∈ succ a) :
    l.idxOf a < l.idxOf b := by
  induction l with
  | nil => cases ha
  | cons c l ih =>
    have hne : b ≠ c := fun heq => h.head_notMem_succ ha (heq ▸ hb)
    by_cases hac : a = c
    · rw [hac, List.idxOf_cons_self, List.idxOf_cons_ne _ (Ne.symm hne)]
      exact Nat.succ_pos _
    · rw [List.idxOf_cons_ne _ (Ne.symm hac), List.idxOf_cons_ne _ (Ne.symm hne)]
      exact Nat.succ_lt_succ (ih h.2.2 ((List.mem_cons.mp ha).resolve_left hac))

end TopoList

end Carmel.Math
