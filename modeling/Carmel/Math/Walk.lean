/-
# Walks of an edge-labelled graph

A graph is given by its adjacency relation alone: `adj u e v` says that the edge `e` leaves
`u` and enters `v`. A walk is recorded by its edges, so two parallel edges give two
different walks. Nothing here is finite or decidable.
-/

import Carmel.Math.Lists

namespace Carmel.Math

universe u v w

variable {V : Type u} {E : Type v}

/-- `Walk adj u es v`: following the edges `es` in order leads from `u` to `v`. -/
inductive Walk (adj : V → E → V → Prop) : V → List E → V → Prop
  | /-- The empty walk stays where it is. -/
    nil (u : V) : Walk adj u [] u
  | /-- One edge, then the rest. -/
    cons {u m v : V} {e : E} {es : List E} (step : adj u e m)
      (rest : Walk adj m es v) : Walk adj u (e :: es) v

namespace Walk

variable {adj : V → E → V → Prop} {u m v : V} {e : E} {es fs : List E}

@[simp]
theorem nil_iff : Walk adj u [] v ↔ u = v := by
  refine ⟨fun h => ?_, fun h => h ▸ .nil u⟩
  cases h
  rfl

@[simp]
theorem cons_iff : Walk adj u (e :: es) v ↔ ∃ m, adj u e m ∧ Walk adj m es v := by
  refine ⟨fun h => ?_, fun ⟨_, step, rest⟩ => .cons step rest⟩
  cases h with
  | cons step rest => exact ⟨_, step, rest⟩

theorem single (step : adj u e v) : Walk adj u [e] v := .cons step (.nil v)

theorem append_iff : Walk adj u (es ++ fs) v ↔ ∃ m, Walk adj u es m ∧ Walk adj m fs v := by
  induction es generalizing u with
  | nil => simp
  | cons e es ih =>
    simp only [List.cons_append, cons_iff, ih]
    constructor
    · rintro ⟨n, step, m, rest, last⟩
      exact ⟨m, ⟨n, step, rest⟩, last⟩
    · rintro ⟨m, ⟨n, step, rest⟩, last⟩
      exact ⟨n, step, m, rest, last⟩

theorem append (first : Walk adj u es m) (second : Walk adj m fs v) :
    Walk adj u (es ++ fs) v :=
  append_iff.mpr ⟨m, first, second⟩

theorem concat_iff : Walk adj u (es ++ [e]) v ↔ ∃ m, Walk adj u es m ∧ adj m e v := by
  simp [append_iff]

theorem mono {adj' : V → E → V → Prop} (h : ∀ {a e b}, adj a e b → adj' a e b)
    (walk : Walk adj u es v) : Walk adj' u es v := by
  induction walk with
  | nil u => exact .nil u
  | cons step _ ih => exact .cons (h step) ih

theorem restrict {P : E → Prop} (walk : Walk adj u es v) (h : ∀ e ∈ es, P e) :
    Walk (fun a e b => adj a e b ∧ P e) u es v := by
  induction walk with
  | nil u => exact .nil u
  | cons step _ ih =>
    exact .cons ⟨step, h _ List.mem_cons_self⟩ (ih fun e he => h e (List.mem_cons_of_mem _ he))

theorem target_unique (first : Walk adj u es m) (second : Walk adj u es v)
    (det : ∀ {a e b c}, adj a e b → adj a e c → b = c) : m = v := by
  induction first with
  | nil u => exact nil_iff.mp second
  | cons step _ ih =>
    obtain ⟨n, step', rest'⟩ := cons_iff.mp second
    obtain rfl := det step step'
    exact ih rest'

theorem exists_step (walk : Walk adj u es v) (he : e ∈ es) : ∃ a b, adj a e b := by
  induction walk with
  | nil => exact absurd he List.not_mem_nil
  | cons step _ ih =>
    rcases List.mem_cons.mp he with rfl | he
    · exact ⟨_, _, step⟩
    · exact ih he

theorem invariant {P : V → Prop} (keep : ∀ {a e b}, adj a e b → P a → P b)
    (walk : Walk adj u es v) (start : P u) : P v := by
  induction walk with
  | nil u => exact start
  | cons step _ ih => exact ih (keep step start)

end Walk

/-- Some walk leads from `u` to `v`. -/
def Reaches (adj : V → E → V → Prop) (u v : V) : Prop := ∃ es, Walk adj u es v

namespace Reaches

variable {E' : Type w} {adj : V → E → V → Prop} {u m v : V} {e : E}

theorem refl (u : V) : Reaches adj u u := ⟨[], .nil u⟩

theorem step (h : adj u e v) : Reaches adj u v := ⟨[e], .single h⟩

theorem trans : Reaches adj u m → Reaches adj m v → Reaches adj u v := by
  rintro ⟨es, first⟩ ⟨fs, second⟩
  exact ⟨es ++ fs, first.append second⟩

theorem tail (h : Reaches adj u m) (last : adj m e v) : Reaches adj u v :=
  h.trans (.step last)

theorem head (first : adj u e m) (h : Reaches adj m v) : Reaches adj u v :=
  (Reaches.step first).trans h

theorem reverse {adj' : V → E' → V → Prop} (h : Reaches adj u v)
    (turn : ∀ {a e b}, adj a e b → ∃ e', adj' b e' a) : Reaches adj' v u := by
  obtain ⟨es, walk⟩ := h
  induction walk with
  | nil u => exact .refl u
  | cons step _ ih =>
    obtain ⟨e', step'⟩ := turn step
    exact ih.tail step'

theorem iff_reflTransGen :
    Reaches adj u v ↔ Relation.ReflTransGen (fun a b => ∃ e, adj a e b) u v := by
  constructor
  · rintro ⟨es, walk⟩
    induction walk with
    | nil u => exact .refl
    | cons step _ ih => exact .head ⟨_, step⟩ ih
  · intro h
    induction h with
    | refl => exact .refl u
    | tail _ hstep ih =>
      obtain ⟨e, hstep⟩ := hstep
      exact ih.tail hstep

end Reaches

/-- Walks from `u` that end in a vertex satisfying `goal`. -/
def Accepted (adj : V → E → V → Prop) (goal : V → Prop) (u : V) (es : List E) : Prop :=
  ∃ v, Walk adj u es v ∧ goal v

theorem accepted_eq_iff {adj : V → E → V → Prop} {u t : V} {es : List E} :
    Accepted adj (· = t) u es ↔ Walk adj u es t := by
  simp [Accepted]

end Carmel.Math

/-!
## Step correspondences lift to bijections of walks

A `Correspondence` relates the vertices of two graphs and pairs the edges of related
vertices one to one. It gives a bijection between their walks.
-/

namespace Carmel.Math

universe u v u' v' w

variable {V : Type u} {E : Type v} {V' : Type u'} {E' : Type v'}

/-- A relation that is total and single-valued in both directions is the graph
of a bijection. -/
theorem exists_equiv_of_unique {α : Type u} {β : Type v} (T : α → β → Prop)
    (right : ∀ a, ∃! b, T a b) (left : ∀ b, ∃! a, T a b) :
    ∃ e : α ≃ β, ∀ a, T a (e a) := by
  choose f hf hfu using right
  choose g hg hgu using left
  refine ⟨⟨f, g, fun a => ?_, fun b => ?_⟩, hf⟩
  · exact (hgu (f a) a (hf a)).symm
  · exact (hfu (g b) b (hg b)).symm

/-- Vertices related by `rel` have their outgoing edges paired by `edge`, and
paired edges lead to related vertices. -/
structure Correspondence (adj : V → E → V → Prop) (adj' : V' → E' → V' → Prop) where
  /-- Which vertices stand for each other. -/
  rel : V → V' → Prop
  /-- Which edge out of a vertex stands for which edge of the other graph. -/
  edge : V → E → E' → Prop
  det : ∀ {a e b c}, adj a e b → adj a e c → b = c
  det' : ∀ {a e b c}, adj' a e b → adj' a e c → b = c
  forth : ∀ {a a' e b}, rel a a' → adj a e b → ∃ e' b', edge a e e' ∧ adj' a' e' b' ∧ rel b b'
  back : ∀ {a a' e' b'}, rel a a' → adj' a' e' b' → ∃ e b, edge a e e' ∧ adj a e b ∧ rel b b'
  right_unique : ∀ {a e b e₁ e₂}, adj a e b → edge a e e₁ → edge a e e₂ → e₁ = e₂
  left_unique : ∀ {a e₁ e₂ b₁ b₂ e'}, adj a e₁ b₁ → adj a e₂ b₂ →
    edge a e₁ e' → edge a e₂ e' → e₁ = e₂

namespace Correspondence

variable {adj : V → E → V → Prop} {adj' : V' → E' → V' → Prop}
variable (C : Correspondence adj adj')

/-- The edges `es'` stand, one by one, for the walk along `es`. -/
inductive Lift : V → List E → List E' → Prop
  | nil (a : V) : Lift a [] []
  | cons {a b : V} {e : E} {e' : E'} {es : List E} {es' : List E'} (step : adj a e b)
      (pair : C.edge a e e') (rest : Lift b es es') : Lift a (e :: es) (e' :: es')

variable {C} {a b : V} {a' b' : V'} {es es₁ es₂ : List E} {es' : List E'}

theorem exists_lift (hrel : C.rel a a') (walk : Walk adj a es b) :
    ∃ es' b', C.Lift a es es' ∧ Walk adj' a' es' b' ∧ C.rel b b' := by
  induction walk generalizing a' with
  | nil a => exact ⟨[], a', .nil a, .nil a', hrel⟩
  | cons step _ ih =>
    obtain ⟨e', m', pair, step', hrel'⟩ := C.forth hrel step
    obtain ⟨es', b', lift, walk', hend⟩ := ih hrel'
    exact ⟨e' :: es', b', .cons step pair lift, .cons step' walk', hend⟩

theorem exists_lift_back (hrel : C.rel a a') (walk : Walk adj' a' es' b') :
    ∃ es b, C.Lift a es es' ∧ Walk adj a es b ∧ C.rel b b' := by
  induction walk generalizing a with
  | nil a' => exact ⟨[], a, .nil a, .nil a, hrel⟩
  | cons step' _ ih =>
    obtain ⟨e, m, pair, step, hrel'⟩ := C.back hrel step'
    obtain ⟨es, b, lift, walk, hend⟩ := ih hrel'
    exact ⟨e :: es, b, .cons step pair lift, .cons step walk, hend⟩

theorem Lift.right_unique {es₁' es₂' : List E'} (first : C.Lift a es es₁')
    (second : C.Lift a es es₂') : es₁' = es₂' := by
  induction first generalizing es₂' with
  | nil => cases second; rfl
  | cons step pair _ ih =>
    cases second with
    | cons step₂ pair₂ rest₂ =>
      obtain rfl := C.det step step₂
      rw [C.right_unique step pair pair₂, ih rest₂]

theorem Lift.left_unique (first : C.Lift a es₁ es') (second : C.Lift a es₂ es') :
    es₁ = es₂ := by
  induction first generalizing es₂ with
  | nil => cases second; rfl
  | cons step pair _ ih =>
    cases second with
    | cons step₂ pair₂ rest₂ =>
      obtain rfl := C.left_unique step step₂ pair pair₂
      obtain rfl := C.det step step₂
      rw [ih rest₂]

theorem Lift.forall₂ {R : E → E' → Prop}
    (agree : ∀ {a e b e'}, adj a e b → C.edge a e e' → R e e')
    (lift : C.Lift a es es') : List.Forall₂ R es es' := by
  induction lift with
  | nil => exact .nil
  | cons step pair _ ih => exact .cons (agree step pair) ih

/-- **Corresponding graphs have the same walks.** From related starts, and for
goals that related vertices satisfy together, the accepted walks of the two
graphs are in one-to-one correspondence. -/
theorem exists_equiv (goal : V → Prop) (goal' : V' → Prop) (hrel : C.rel a a')
    (hgoal : ∀ {b b'}, C.rel b b' → (goal b ↔ goal' b')) :
    ∃ e : {es // Accepted adj goal a es} ≃ {es' // Accepted adj' goal' a' es'},
      ∀ es, C.Lift a es.1 (e es).1 := by
  apply exists_equiv_of_unique
    (fun (es : {es // Accepted adj goal a es}) (es' : {es' // Accepted adj' goal' a' es'}) =>
      C.Lift a es.1 es'.1)
  · rintro ⟨es, b, walk, hb⟩
    obtain ⟨es', b', lift, walk', hend⟩ := exists_lift hrel walk
    exact ⟨⟨es', b', walk', (hgoal hend).mp hb⟩, lift,
      fun other hother => Subtype.ext (hother.right_unique lift)⟩
  · rintro ⟨es', b', walk', hb'⟩
    obtain ⟨es, b, lift, walk, hend⟩ := exists_lift_back hrel walk'
    exact ⟨⟨es, b, walk, (hgoal hend).mpr hb'⟩, lift,
      fun other hother => Subtype.ext (hother.left_unique lift)⟩

end Correspondence

end Carmel.Math

/-!
## Weights of all walks

The walks with a certain sequence of labels may be infinitely many. Their weights still have
a sum and a supremum, and neither needs the edges one by one.
-/

namespace Carmel.Math

open scoped ENNReal

universe u v v' w

/-- A graph given by the edges that leave each vertex. -/
structure WeightedGraph (V : Type u) (E : Type v) (L : Type w) where
  out : V → List E
  nodup : ∀ u, (out u).Nodup
  dest : E → V
  label : E → L
  weight : E → ℝ≥0∞

namespace WeightedGraph

variable {V : Type u} {E : Type v} {E' : Type v'} {L : Type w}

/-- `e` leaves `u` and enters `v`. -/
def Adj (G : WeightedGraph V E L) (u : V) (e : E) (v : V) : Prop := e ∈ G.out u ∧ G.dest e = v

noncomputable def walkWeight (G : WeightedGraph V E L) (p : List E) : ℝ≥0∞ := (p.map G.weight).prod

/-- The walks from `u` to a goal whose labels, in order, satisfy `Q`. -/
def Good (G : WeightedGraph V E L) (goal : V → Prop) (Q : List L → Prop) (u : V) (p : List E) :
    Prop :=
  Accepted G.Adj goal u p ∧ Q (p.map G.label)

/-- The sum of their weights. -/
noncomputable def total (G : WeightedGraph V E L) (goal : V → Prop) (Q : List L → Prop) (u : V) :
    ℝ≥0∞ :=
  tsum fun p : {p // G.Good goal Q u p} => G.walkWeight p.1

/-- The supremum of their weights. -/
noncomputable def best (G : WeightedGraph V E L) (goal : V → Prop) (Q : List L → Prop) (u : V) :
    ℝ≥0∞ :=
  ⨆ p : {p // G.Good goal Q u p}, G.walkWeight p.1

open Classical in
/-- The sum over the walks of one length. -/
noncomputable def lengthTotal (G : WeightedGraph V E L) (goal : V → Prop) (n : ℕ)
    (Q : List L → Prop) (u : V) : ℝ≥0∞ :=
  tsum fun p : List E => if p.length = n ∧ G.Good goal Q u p then G.walkWeight p else 0

variable {G : WeightedGraph V E L} {G' : WeightedGraph V E' L} {goal : V → Prop}
variable {Q : List L → Prop} {u : V}

@[simp] theorem walkWeight_nil : G.walkWeight [] = 1 := rfl

@[simp] theorem walkWeight_cons (e : E) (p : List E) :
    G.walkWeight (e :: p) = G.weight e * G.walkWeight p := by
  rw [walkWeight, List.map_cons, List.prod_cons, walkWeight]

@[simp] theorem good_nil : G.Good goal Q u [] ↔ goal u ∧ Q [] := by
  simp [Good, Accepted]

theorem good_cons {e : E} {p : List E} :
    G.Good goal Q u (e :: p) ↔
      e ∈ G.out u ∧ G.Good goal (fun labels => Q (G.label e :: labels)) (G.dest e) p := by
  simp only [Good, Accepted, Walk.cons_iff, Adj, List.map_cons]
  constructor
  · rintro ⟨⟨v, ⟨m, ⟨he, rfl⟩, hwalk⟩, hgoal⟩, hQ⟩
    exact ⟨he, ⟨v, hwalk, hgoal⟩, hQ⟩
  · rintro ⟨he, ⟨v, hwalk, hgoal⟩, hQ⟩
    exact ⟨⟨v, ⟨G.dest e, ⟨he, rfl⟩, hwalk⟩, hgoal⟩, hQ⟩

theorem total_eq_tsum_lengthTotal :
    G.total goal Q u = tsum fun n => G.lengthTotal goal n Q u := by
  classical
  calc G.total goal Q u
      = tsum fun p : List E => if G.Good goal Q u p then G.walkWeight p else 0 := by
        refine (tsum_subtype {p | G.Good goal Q u p} G.walkWeight).trans ?_
        exact tsum_congr fun p => Set.indicator_apply ..
    _ = tsum fun p : List E => tsum fun n =>
          if p.length = n ∧ G.Good goal Q u p then G.walkWeight p else 0 := by
        refine tsum_congr fun p => ?_
        rw [tsum_eq_single p.length fun n hn => if_neg fun h => hn h.1.symm]
        simp
    _ = tsum fun n => G.lengthTotal goal n Q u := ENNReal.tsum_comm

theorem lengthTotal_zero [Decidable (goal u ∧ Q [])] :
    G.lengthTotal goal 0 Q u = if goal u ∧ Q [] then 1 else 0 := by
  rw [lengthTotal, tsum_eq_single [] fun p hp => if_neg fun h => hp (List.length_eq_zero_iff.mp h.1)]
  simp

theorem lengthTotal_succ (n : ℕ) : G.lengthTotal goal (n + 1) Q u =
    ((G.out u).map fun e => G.weight e *
      G.lengthTotal goal n (fun labels => Q (G.label e :: labels)) (G.dest e)).sum := by
  classical
  let cons (q : E × List E) : List E := q.1 :: q.2
  have hinj : Function.Injective cons := by
    rintro ⟨e, p⟩ ⟨e', p'⟩ h
    obtain ⟨rfl, rfl⟩ := List.cons.inj h
    rfl
  have hsupport : Function.support (fun p : List E =>
      if p.length = n + 1 ∧ G.Good goal Q u p then G.walkWeight p else 0) ⊆ Set.range cons := by
    intro p hp
    cases p with
    | nil => simp at hp
    | cons e p => exact ⟨(e, p), rfl⟩
  rw [lengthTotal, ← hinj.tsum_eq hsupport, ENNReal.tsum_prod', ← List.sum_toFinset _ (G.nodup u)]
  rw [tsum_eq_sum (s := (G.out u).toFinset)]
  · refine Finset.sum_congr rfl fun e he => ?_
    rw [lengthTotal, ← ENNReal.tsum_mul_left]
    refine tsum_congr fun p => ?_
    simp only [cons, List.length_cons, Nat.add_right_cancel_iff, good_cons, List.mem_toFinset.mp he,
      true_and, walkWeight_cons, mul_ite, mul_zero]
  · intro e he
    rw [List.mem_toFinset] at he
    simp [cons, good_cons, he]

theorem total_eq [Decidable (goal u ∧ Q [])] : G.total goal Q u = (if goal u ∧ Q [] then 1 else 0) +
    ((G.out u).map fun e => G.weight e *
      G.total goal (fun labels => Q (G.label e :: labels)) (G.dest e)).sum := by
  classical
  rw [total_eq_tsum_lengthTotal, tsum_eq_zero_add' ENNReal.summable, lengthTotal_zero]
  simp only [lengthTotal_succ, ← List.sum_toFinset _ (G.nodup u)]
  rw [Summable.tsum_finsetSum fun _ _ => ENNReal.summable]
  simp only [ENNReal.tsum_mul_left, total_eq_tsum_lengthTotal]

/-- At every vertex the edges with one label and one target have the same sum in both. -/
def SameSums (G : WeightedGraph V E L) (G' : WeightedGraph V E' L) : Prop :=
  ∀ u (g : L → V → ℝ≥0∞), ((G.out u).map fun e => G.weight e * g (G.label e) (G.dest e)).sum =
    ((G'.out u).map fun e => G'.weight e * g (G'.label e) (G'.dest e)).sum

theorem SameSums.lengthTotal_eq (h : SameSums G G') (n : ℕ) :
    G.lengthTotal goal n Q u = G'.lengthTotal goal n Q u := by
  classical
  induction n generalizing Q u with
  | zero => rw [lengthTotal_zero, lengthTotal_zero]
  | succ n ih =>
    rw [lengthTotal_succ, lengthTotal_succ]
    simp only [ih]
    exact h u fun l v => G'.lengthTotal goal n (fun labels => Q (l :: labels)) v

/-- **The sum over all walks** is decided by the sums at the vertices. -/
theorem SameSums.total_eq (h : SameSums G G') : G.total goal Q u = G'.total goal Q u := by
  rw [total_eq_tsum_lengthTotal, total_eq_tsum_lengthTotal]
  exact tsum_congr fun n => h.lengthTotal_eq n

/-- For every edge that weighs anything `G'` has one with its label and target that weighs no
less. -/
def Dominated (G : WeightedGraph V E L) (G' : WeightedGraph V E' L) : Prop :=
  ∀ u, ∀ e ∈ G.out u, G.weight e ≠ 0 → ∃ e' ∈ G'.out u,
    G'.label e' = G.label e ∧ G'.dest e' = G.dest e ∧ G.weight e ≤ G'.weight e'

theorem Dominated.exists_walk (h : Dominated G G') {p : List E} (hp : G.Good goal Q u p)
    (hw : G.walkWeight p ≠ 0) :
    ∃ p', G'.Good goal Q u p' ∧ G.walkWeight p ≤ G'.walkWeight p' := by
  induction p generalizing Q u with
  | nil => exact ⟨[], good_nil.mpr (good_nil.mp hp), le_rfl⟩
  | cons e p ih =>
    obtain ⟨he, hrest⟩ := good_cons.mp hp
    rw [walkWeight_cons] at hw
    obtain ⟨e', he', hlabel, hdest, hle⟩ := h u e he (left_ne_zero_of_mul hw)
    obtain ⟨p', hp', hle'⟩ := ih hrest (right_ne_zero_of_mul hw)
    refine ⟨e' :: p', good_cons.mpr ⟨he', ?_⟩, ?_⟩
    · rw [hlabel, hdest]
      exact hp'
    · rw [walkWeight_cons, walkWeight_cons]
      exact mul_le_mul' hle hle'

theorem Dominated.best_le (h : Dominated G G') : G.best goal Q u ≤ G'.best goal Q u := by
  apply iSup_le
  rintro ⟨p, hp⟩
  by_cases hw : G.walkWeight p = 0
  · simp [hw]
  · obtain ⟨p', hp', hle⟩ := h.exists_walk hp hw
    exact hle.trans (le_iSup (fun p : {p // G'.Good goal Q u p} => G'.walkWeight p.1) ⟨p', hp'⟩)

/-- **The supremum over all walks** is the same where each graph dominates the other. -/
theorem Dominated.best_eq (h : Dominated G G') (h' : Dominated G' G) :
    G.best goal Q u = G'.best goal Q u :=
  le_antisymm h.best_le h'.best_le

end WeightedGraph

/-! ## Sums by keys -/

/-- A sum over a list, with the entries sorted by their keys. -/
theorem sum_map_eq_sum_keys {α : Type u} {κ : Type v} {M : Type w} [DecidableEq κ] [AddCommMonoid M]
    (l : List α) (key : α → κ) (f : α → M) (K : Finset κ) (hK : ∀ a ∈ l, key a ∈ K) :
    (l.map f).sum = ∑ k ∈ K, ((l.filter (key · = k)).map f).sum := by
  induction l with
  | nil => simp
  | cons a l ih =>
    have hterm : ∀ k ∈ K, (((a :: l).filter (key · = k)).map f).sum =
        (if key a = k then f a else 0) + ((l.filter (key · = k)).map f).sum := by
      intro k _
      by_cases h : key a = k <;> simp [h]
    rw [Finset.sum_congr rfl hterm, Finset.sum_add_distrib, Finset.sum_ite_eq,
      if_pos (hK a List.mem_cons_self), List.map_cons, List.sum_cons,
      ih fun b hb => hK b (List.mem_cons_of_mem a hb)]

end Carmel.Math

/-!
## Distances

No walk is shorter than a distance says, and some walk is as short, unless it says that
there is none.
-/

namespace Carmel.Math

universe u v v' w

variable {V : Type u} {E : Type v} {E' : Type v'} {K : Type w}
variable [AddCommMonoid K]

section Transfer

variable {adj : V → E → V → Prop} {adj' : V → E' → V → Prop} {c : E → K} {c' : E' → K}
variable {u v : V} {es : List E}

/-- A walk of one graph is a walk of another with edges of the same lengths. -/
theorem Walk.transfer (walk : Walk adj u es v)
    (h : ∀ {a e b}, adj a e b → ∃ e', adj' a e' b ∧ c' e' = c e) :
    ∃ es', Walk adj' u es' v ∧ (es'.map c').sum = (es.map c).sum := by
  induction walk with
  | nil u => exact ⟨[], .nil u, rfl⟩
  | cons step _ ih =>
    obtain ⟨e', step', he'⟩ := h step
    obtain ⟨es', walk', hsum⟩ := ih
    exact ⟨e' :: es', .cons step' walk', by rw [List.map_cons, List.sum_cons, he', hsum]; rfl⟩

/-- The way back. -/
theorem Walk.reversed (walk : Walk adj u es v) : Walk (fun a e b => adj b e a) v es.reverse u := by
  induction walk with
  | nil u => exact .nil u
  | cons step _ ih =>
    rw [List.reverse_cons]
    exact ih.append (.single step)

end Transfer

variable [LinearOrder K] [OrderTop K]

/-- `d` is the distance from `src`. -/
structure Distances (adj : V → E → V → Prop) (c : E → K) (src : V) (d : V → K) : Prop where
  le : ∀ {es v}, Walk adj src es v → d v ≤ (es.map c).sum
  attained : ∀ v, d v = ⊤ ∨ ∃ es, Walk adj src es v ∧ (es.map c).sum = d v

/-- `d` is the distance to `tgt`. -/
structure DistancesTo (adj : V → E → V → Prop) (c : E → K) (tgt : V) (d : V → K) : Prop where
  le : ∀ {es v}, Walk adj v es tgt → d v ≤ (es.map c).sum
  attained : ∀ v, d v = ⊤ ∨ ∃ es, Walk adj v es tgt ∧ (es.map c).sum = d v

variable {adj : V → E → V → Prop} {c : E → K} {s u v : V} {e : E} {es : List E} {d : V → K}

/-- Going along an edge never goes farther than the edge is long. -/
def Feasible (adj : V → E → V → Prop) (c : E → K) (d : V → K) : Prop :=
  ∀ {u e v}, adj u e v → d v ≤ c e + d u

/-- A graph with edges of the same lengths has the same distances. -/
theorem Distances.congr {adj' : V → E' → V → Prop} {c' : E' → K} (h : Distances adj c s d)
    (forth : ∀ {a e b}, adj a e b → ∃ e', adj' a e' b ∧ c' e' = c e)
    (back : ∀ {a e' b}, adj' a e' b → ∃ e, adj a e b ∧ c e = c' e') : Distances adj' c' s d where
  le := by
    intro es v walk
    obtain ⟨es', walk', hsum⟩ := walk.transfer back
    exact hsum ▸ h.le walk'
  attained := by
    intro v
    refine (h.attained v).imp_right fun ⟨es, walk, hsum⟩ => ?_
    obtain ⟨es', walk', hsum'⟩ := walk.transfer forth
    exact ⟨es', walk', hsum'.trans hsum⟩

theorem DistancesTo.of_reversed (h : Distances (fun a e b => adj b e a) c s d) :
    DistancesTo adj c s d where
  le := by
    intro es v walk
    have hle := h.le walk.reversed
    rwa [List.map_reverse, List.sum_reverse] at hle
  attained := by
    intro v
    refine (h.attained v).imp_right fun ⟨es, walk, hsum⟩ => ⟨es.reverse, walk.reversed, ?_⟩
    rw [List.map_reverse, List.sum_reverse, hsum]

variable [IsOrderedAddMonoid K]

omit [OrderTop K] in
theorem Feasible.le_walk (h : Feasible adj c d) (walk : Walk adj u es v) :
    d v ≤ (es.map c).sum + d u := by
  induction walk with
  | nil u => simp
  | @cons u m v e es step _ ih =>
    rw [List.map_cons, List.sum_cons]
    calc d v ≤ (es.map c).sum + d m := ih
      _ ≤ (es.map c).sum + (c e + d u) := add_le_add le_rfl (h step)
      _ = c e + (es.map c).sum + d u := by rw [← add_assoc, add_comm (c e)]

theorem Distances.of_feasible (hs : d s ≤ 0) (h : Feasible adj c d)
    (hattained : ∀ v, d v = ⊤ ∨ ∃ es, Walk adj s es v ∧ (es.map c).sum = d v) :
    Distances adj c s d where
  le := by
    intro es v walk
    calc d v ≤ (es.map c).sum + d s := h.le_walk walk
      _ ≤ (es.map c).sum + 0 := add_le_add le_rfl hs
      _ = (es.map c).sum := add_zero _
  attained := hattained

end Carmel.Math

/-!
## Dead ends

The definition is inductive: a vertex from which one can keep walking for ever is no dead
end, whether or not a goal can be reached from it.
-/

namespace Carmel.Math

universe u v

variable {V : Type u} {E : Type v}

/-- Every walk from the vertex stops after finitely many edges, and none meets a goal. -/
inductive Dead (adj : V → E → V → Prop) (goal : V → Prop) : V → Prop
  | intro {v : V} (notGoal : ¬ goal v) (next : ∀ {e w}, adj v e w → Dead adj goal w) :
    Dead adj goal v

/-- Some walk with at least one edge leads back to the vertex. -/
def OnCycle (adj : V → E → V → Prop) (v : V) : Prop := ∃ e es, Walk adj v (e :: es) v

/-- The edges that do not enter a dead end. -/
def Live (adj : V → E → V → Prop) (goal : V → Prop) (u : V) (e : E) (v : V) : Prop :=
  adj u e v ∧ ¬ Dead adj goal v

/-- A goal can be reached. -/
def Productive (adj : V → E → V → Prop) (goal : V → Prop) (v : V) : Prop :=
  ∃ es, Accepted adj goal v es

variable {adj : V → E → V → Prop} {goal : V → Prop} {u v w : V} {e : E} {es : List E}

theorem OnCycle.of_reaches (h : Reaches adj v u) (last : adj u e v) : OnCycle adj v := by
  obtain ⟨es, hwalk⟩ := h
  have hturn : Walk adj v (es ++ [e]) v := hwalk.append (.single last)
  cases es with
  | nil => exact ⟨e, [], hturn⟩
  | cons f fs => exact ⟨f, fs ++ [e], hturn⟩

namespace Dead

theorem not_goal (h : Dead adj goal v) : ¬ goal v := by
  cases h with
  | intro notGoal _ => exact notGoal

theorem step (h : Dead adj goal v) (hstep : adj v e w) : Dead adj goal w := by
  cases h with
  | intro _ next => exact next hstep

theorem walk (h : Dead adj goal v) (hwalk : Walk adj v es w) : Dead adj goal w :=
  hwalk.invariant (fun hstep hdead => hdead.step hstep) h

theorem not_productive (h : Dead adj goal v) : ¬ Productive adj goal v := by
  rintro ⟨es, w, hwalk, hw⟩
  exact (h.walk hwalk).not_goal hw

theorem not_onCycle (h : Dead adj goal v) : ¬ OnCycle adj v := by
  induction h with
  | intro _ _ ih =>
    rintro ⟨e, es, hwalk⟩
    obtain ⟨m, hstep, hrest⟩ := Walk.cons_iff.mp hwalk
    -- the same cycle, started one edge later
    exact ih hstep (.of_reaches ⟨es, hrest⟩ hstep)

end Dead

theorem dead_iff : Dead adj goal v ↔ ¬ goal v ∧ ∀ e w, adj v e w → Dead adj goal w :=
  ⟨fun h => ⟨h.not_goal, fun _ _ => h.step⟩, fun h => .intro h.1 (h.2 _ _)⟩

theorem Productive.of_reaches (h : Reaches adj u v) (hv : Productive adj goal v) :
    Productive adj goal u := by
  obtain ⟨es, first⟩ := h
  obtain ⟨fs, w, second, hw⟩ := hv
  exact ⟨es ++ fs, w, first.append second, hw⟩

section Congr

variable {E' : Type*} {adj' : V → E' → V → Prop}

/-- Only which vertices are joined matters, not by how many edges. -/
theorem reaches_congr (h : ∀ u v, (∃ e, adj u e v) ↔ ∃ e, adj' u e v) :
    Reaches adj u v ↔ Reaches adj' u v := by
  simp only [Reaches.iff_reflTransGen, h]

theorem onCycle_iff : OnCycle adj v ↔ ∃ w, (∃ e, adj v e w) ∧ Reaches adj w v := by
  simp only [OnCycle, Walk.cons_iff, Reaches]
  constructor
  · rintro ⟨e, es, w, hstep, hwalk⟩
    exact ⟨w, ⟨e, hstep⟩, es, hwalk⟩
  · rintro ⟨w, ⟨e, hstep⟩, es, hwalk⟩
    exact ⟨e, es, w, hstep, hwalk⟩

theorem onCycle_congr (h : ∀ u v, (∃ e, adj u e v) ↔ ∃ e, adj' u e v) :
    OnCycle adj v ↔ OnCycle adj' v := by
  simp only [onCycle_iff, h, reaches_congr h]

theorem OnCycle.mono (hcycle : OnCycle adj v) (h : ∀ {u e w}, adj u e w → ∃ e', adj' u e' w) :
    OnCycle adj' v := by
  obtain ⟨w, ⟨e, hw⟩, hreach⟩ := onCycle_iff.mp hcycle
  refine onCycle_iff.mpr ⟨w, h hw, Reaches.iff_reflTransGen.mpr ?_⟩
  exact Relation.ReflTransGen.mono (fun _ _ ⟨_, hstep⟩ => h hstep) _ _
    (Reaches.iff_reflTransGen.mp hreach)

theorem OnCycle.reverse (hcycle : OnCycle adj v) (h : ∀ {u e w}, adj u e w → ∃ e', adj' w e' u) :
    OnCycle adj' v := by
  obtain ⟨w, ⟨e, hw⟩, hreach⟩ := onCycle_iff.mp hcycle
  obtain ⟨e', hw'⟩ := h hw
  exact .of_reaches (hreach.reverse h) hw'

theorem productive_iff : Productive adj goal v ↔ ∃ w, Reaches adj v w ∧ goal w := by
  constructor
  · rintro ⟨es, w, hwalk, hw⟩
    exact ⟨w, ⟨es, hwalk⟩, hw⟩
  · rintro ⟨w, ⟨es, hwalk⟩, hw⟩
    exact ⟨es, w, hwalk, hw⟩

theorem productive_congr (h : ∀ u v, (∃ e, adj u e v) ↔ ∃ e, adj' u e v) :
    Productive adj goal v ↔ Productive adj' goal v := by
  simp only [productive_iff, reaches_congr h]

end Congr

theorem Walk.live (hwalk : Walk adj u es v) (hv : ¬ Dead adj goal v) :
    Walk (Live adj goal) u es v := by
  induction hwalk with
  | nil u => exact .nil u
  | cons step rest ih => exact .cons ⟨step, fun hdead => hv (hdead.walk rest)⟩ (ih hv)

/-- Walks to a goal never enter a dead end. -/
theorem accepted_live_iff : Accepted (Live adj goal) goal u es ↔ Accepted adj goal u es := by
  constructor
  · rintro ⟨v, hwalk, hv⟩
    exact ⟨v, hwalk.mono And.left, hv⟩
  · rintro ⟨v, hwalk, hv⟩
    exact ⟨v, hwalk.live fun hdead => hdead.not_goal hv, hv⟩

theorem dead_of_no_cycle (hfin : {w | Reaches adj v w}.Finite)
    (hgoal : ∀ w, Reaches adj v w → ¬ goal w) (hcycle : ∀ w, Reaches adj v w → ¬ OnCycle adj w) :
    Dead adj goal v := by
  let beyond (a b : {w | Reaches adj v w}) : Prop := ∃ e es, Walk adj b.1 (e :: es) a.1
  have : Finite {w | Reaches adj v w} := hfin
  have : IsTrans _ beyond := by
    refine ⟨fun a b c hab hbc => ?_⟩
    obtain ⟨e, es, first⟩ := hbc
    obtain ⟨f, fs, second⟩ := hab
    exact ⟨e, es ++ f :: fs, first.append second⟩
  have : Std.Irrefl beyond := ⟨fun a ha => hcycle a.1 a.2 ha⟩
  have hwf : WellFounded beyond := Finite.wellFounded_of_trans_of_irrefl beyond
  have hall : ∀ a : {w | Reaches adj v w}, Dead adj goal a.1 := by
    intro a
    induction a using hwf.induction with
    | _ a ih =>
      refine .intro (hgoal a.1 a.2) fun {e w} hstep => ?_
      exact ih ⟨w, Reaches.tail a.2 hstep⟩ ⟨e, [], .single hstep⟩
  exact hall ⟨v, Reaches.refl v⟩

/-- **When skipping dead ends is enough.** Among the vertices reachable from a
start, all that are not dead ends lead to a goal exactly when none that cannot
reach a goal lies on a cycle. -/
theorem live_productive_iff (hfin : {w | Reaches adj u w}.Finite) :
    (∀ v, Reaches adj u v → ¬ Dead adj goal v → Productive adj goal v) ↔
      ∀ v, Reaches adj u v → ¬ Productive adj goal v → ¬ OnCycle adj v := by
  constructor
  · intro h v hv hnot hcycle
    exact hnot (h v hv fun hdead => hdead.not_onCycle hcycle)
  · intro h v hv hlive
    by_contra hnot
    have hnext : ∀ w, Reaches adj v w → ¬ Productive adj goal w :=
      fun w hw hprod => hnot (hprod.of_reaches hw)
    refine hlive (dead_of_no_cycle ?_ (fun w hw hgoal => ?_) fun w hw => ?_)
    · exact hfin.subset fun w hw => Reaches.trans hv hw
    · exact hnext w hw ⟨[], w, .nil w, hgoal⟩
    · exact h w (hv.trans hw) (hnext w hw)

end Carmel.Math
