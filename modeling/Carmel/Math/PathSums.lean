/-
# Sums over walks

In a graph whose walks all end, the walks between two vertices are finitely
many. The sum of their weights, and the same sum with each walk counted as
often as it uses a marked edge, solve the backward equations, so they can be
read off any forward and backward solution.
-/

import Carmel.Math.Flow

namespace Carmel.Math

universe u v w

/-- Over the finitely many `IsPath`, `total` is the sum of the path weights, and
`expected k` the sum of the path weights times the number of edges labelled `k`. -/
def PathSums {E : Type v} {R : Type w} [CommSemiring R] (IsPath : List E → Prop) (wt : E → R)
    (label : E → ℕ) (total : R) (expected : ℕ → R) : Prop :=
  ∃ P : Finset (List E), (∀ p, p ∈ P ↔ IsPath p) ∧ total = ∑ p ∈ P, (p.map wt).prod ∧
    ∀ k, expected k = ∑ p ∈ P, (p.map wt).prod * (p.countP (label · = k) : R)

namespace PathSums

variable {E : Type u} {E' : Type v} {R : Type w} [CommSemiring R]
variable {IsPath : List E → Prop} {IsPath' : List E' → Prop} {wt : E → R} {wt' : E' → R}
variable {label : E → ℕ} {label' : E' → ℕ} {total total' : R} {expected expected' : ℕ → R}

theorem congr_isPath {IsPath' : List E → Prop} (h : PathSums IsPath wt label total expected)
    (hpath : ∀ p, IsPath p ↔ IsPath' p) : PathSums IsPath' wt label total expected := by
  obtain ⟨P, hP, hsums⟩ := h
  exact ⟨P, fun p => (hP p).trans (hpath p), hsums⟩

/-- One family of paths has one total and one expectation. -/
theorem unique (h : PathSums IsPath wt label total expected)
    (h' : PathSums IsPath wt label total' expected') : total = total' ∧ expected = expected' := by
  obtain ⟨P, hP, rfl, hexp⟩ := h
  obtain ⟨P', hP', rfl, hexp'⟩ := h'
  obtain rfl : P = P' := Finset.ext fun p => (hP p).trans (hP' p).symm
  exact ⟨rfl, funext fun k => (hexp k).trans (hexp' k).symm⟩

theorem countP_label (p : List E) (k : ℕ) :
    p.countP (label · = k) = (p.map label).countP (· = k) := by
  rw [List.countP_map]
  rfl

theorem map_equiv (h : PathSums IsPath wt label total expected)
    (e : {p // IsPath p} ≃ {p // IsPath' p})
    (he : ∀ p, p.1.map (fun a => (wt a, label a)) = (e p).1.map fun a => (wt' a, label' a)) :
    PathSums IsPath' wt' label' total expected := by
  classical
  have hwt : ∀ p, p.1.map wt = (e p).1.map wt' := fun p => by
    have h := congrArg (List.map Prod.fst) (he p)
    rwa [List.map_map, List.map_map] at h
  have hlabel : ∀ p, p.1.map label = (e p).1.map label' := fun p => by
    have h := congrArg (List.map Prod.snd) (he p)
    rwa [List.map_map, List.map_map] at h
  have hcount : ∀ p k, p.1.countP (label · = k) = (e p).1.countP (label' · = k) := fun p k => by
    rw [countP_label, hlabel, ← countP_label]
  obtain ⟨P, hP, rfl, hexp⟩ := h
  let image (p : List E) : List E' := if hp : IsPath p then (e ⟨p, hp⟩).1 else []
  have himage : ∀ p (hp : IsPath p), image p = (e ⟨p, hp⟩).1 := fun p hp => dif_pos hp
  have hinj : ∀ p ∈ P, ∀ q ∈ P, image p = image q → p = q := by
    intro p hp q hq heq
    rw [himage p ((hP p).mp hp), himage q ((hP q).mp hq)] at heq
    exact congrArg Subtype.val (e.injective (Subtype.ext heq))
  refine ⟨P.image image, fun q => ?_, ?_, fun k => ?_⟩
  · rw [Finset.mem_image]
    constructor
    · rintro ⟨p, hp, rfl⟩
      rw [himage p ((hP p).mp hp)]
      exact (e _).2
    · intro hq
      refine ⟨(e.symm ⟨q, hq⟩).1, (hP _).mpr (e.symm ⟨q, hq⟩).2, ?_⟩
      rw [himage _ (e.symm ⟨q, hq⟩).2, Subtype.coe_eta, Equiv.apply_symm_apply]
  · rw [Finset.sum_image hinj]
    refine Finset.sum_congr rfl fun p hp => ?_
    rw [himage p ((hP p).mp hp), hwt ⟨p, (hP p).mp hp⟩]
  · rw [hexp, Finset.sum_image hinj]
    refine Finset.sum_congr rfl fun p hp => ?_
    rw [himage p ((hP p).mp hp), hwt ⟨p, (hP p).mp hp⟩, hcount ⟨p, (hP p).mp hp⟩]

end PathSums

section Walks

variable {V : Type u} {E : Type v} {R : Type w} [CommSemiring R] [DecidableEq V] [DecidableEq E]
variable {src dest : E → V} {wt : E → R} {A : Finset E} {S : Finset V} {s t : V}

/-- The graph with the edges `A`. -/
def EdgeAdj (src dest : E → V) (A : Finset E) (u : V) (e : E) (v : V) : Prop :=
  e ∈ A ∧ src e = u ∧ dest e = v

variable (src A) in
/-- The walks from `v` to `t`: the empty one, if it ends here, and the others by
their first edge, given the walks `P` from where the edges lead. -/
def walksFrom (t v : V) (P : E → Finset (List E)) : Finset (List E) :=
  (if v = t then {[]} else ∅) ∪ (A.filter (src · = v)).biUnion fun e => (P e).image (e :: ·)

theorem mem_walksFrom {t v : V} {P : E → Finset (List E)}
    (hP : ∀ e ∈ A.filter (src · = v), ∀ p, p ∈ P e ↔ Walk (EdgeAdj src dest A) (dest e) p t)
    (p : List E) : p ∈ walksFrom src A t v P ↔ Walk (EdgeAdj src dest A) v p t := by
  rw [walksFrom, Finset.mem_union]
  cases p with
  | nil => by_cases hvt : v = t <;> simp [hvt]
  | cons e p =>
    have hnil : (e :: p) ∉ (if v = t then {[]} else ∅ : Finset (List E)) := by
      by_cases hvt : v = t <;> simp [hvt]
    simp only [hnil, false_or, Finset.mem_biUnion, Finset.mem_image, Walk.cons_iff]
    constructor
    · rintro ⟨e', he', q, hq, heq⟩
      obtain ⟨rfl, rfl⟩ := List.cons.inj heq
      obtain ⟨heA, hsrc⟩ := Finset.mem_filter.mp he'
      exact ⟨dest e', ⟨heA, hsrc, rfl⟩, (hP e' he' q).mp hq⟩
    · rintro ⟨m, ⟨heA, hsrc, rfl⟩, hwalk⟩
      have he : e ∈ A.filter (src · = v) := Finset.mem_filter.mpr ⟨heA, hsrc⟩
      exact ⟨e, he, p, (hP e he p).mpr hwalk, rfl⟩

theorem sum_walksFrom {M : Type*} [AddCommMonoid M] (t v : V) (P : E → Finset (List E))
    (F : List E → M) :
    ∑ p ∈ walksFrom src A t v P, F p =
      (if v = t then F [] else 0) + ∑ e ∈ A with src e = v, ∑ p ∈ P e, F (e :: p) := by
  rw [walksFrom, Finset.sum_union]
  · congr 1
    · by_cases hvt : v = t <;> simp [hvt]
    · rw [Finset.sum_biUnion]
      · refine Finset.sum_congr rfl fun e _ => Finset.sum_image fun p _ q _ h => ?_
        exact (List.cons.inj h).2
      · intro e _ e' _ hne
        rw [Function.onFun, Finset.disjoint_left]
        intro p hp hp'
        obtain ⟨q, -, rfl⟩ := Finset.mem_image.mp hp
        obtain ⟨q', -, hq'⟩ := Finset.mem_image.mp hp'
        exact hne (List.cons.inj hq').1.symm
  · rw [Finset.disjoint_left]
    intro p hp hp'
    obtain ⟨e, -, hp'⟩ := Finset.mem_biUnion.mp hp'
    obtain ⟨q, -, rfl⟩ := Finset.mem_image.mp hp'
    by_cases hvt : v = t <;> simp [hvt] at hp

theorem exists_walks {v : V} (hv : Dead (EdgeAdj src dest A) (fun _ => False) v) :
    ∃ P : Finset (List E), ∀ p, p ∈ P ↔ Walk (EdgeAdj src dest A) v p t := by
  induction hv with
  | @intro v _ _ ih =>
    have ih' : ∀ e ∈ A.filter (src · = v), ∃ P : Finset (List E),
        ∀ p, p ∈ P ↔ Walk (EdgeAdj src dest A) (dest e) p t := by
      intro e he
      obtain ⟨heA, hsrc⟩ := Finset.mem_filter.mp he
      exact ih ⟨heA, hsrc, rfl⟩
    choose! P hP using ih'
    exact ⟨walksFrom src A t v P, mem_walksFrom hP⟩

omit [DecidableEq E] in
theorem SolvesBackward.unique {g b b' : V → R} (hb : SolvesBackward src dest wt A S g b)
    (hb' : SolvesBackward src dest wt A S g b') (hdest : ∀ e ∈ A, dest e ∈ S) {v : V}
    (hv : Dead (EdgeAdj src dest A) (fun _ => False) v) (hmem : v ∈ S) : b v = b' v := by
  induction hv with
  | @intro v _ _ ih =>
    rw [hb v hmem, hb' v hmem]
    refine congrArg _ (Finset.sum_congr rfl fun e he => ?_)
    obtain ⟨heA, hsrc⟩ := Finset.mem_filter.mp he
    rw [ih ⟨heA, hsrc, rfl⟩ (hdest e heA)]

section Sums

variable {P : V → Finset (List E)}

theorem eq_walksFrom (hdest : ∀ e ∈ A, dest e ∈ S)
    (hP : ∀ v ∈ S, ∀ p, p ∈ P v ↔ Walk (EdgeAdj src dest A) v p t) {v : V} (hv : v ∈ S) :
    P v = walksFrom src A t v fun e => P (dest e) := by
  refine Finset.ext fun p => (hP v hv p).trans (mem_walksFrom (fun e he q => ?_) p).symm
  exact hP (dest e) (hdest e (Finset.mem_filter.mp he).1) q

variable (wt) in
/-- The sums of the weights of the walks to `t` solve the backward equations. -/
theorem solvesBackward_sum_walks (hdest : ∀ e ∈ A, dest e ∈ S)
    (hP : ∀ v ∈ S, ∀ p, p ∈ P v ↔ Walk (EdgeAdj src dest A) v p t) :
    SolvesBackward src dest wt A S (atVertex t) fun v => ∑ p ∈ P v, (p.map wt).prod := by
  intro v hv
  simp only [eq_walksFrom hdest hP hv, sum_walksFrom]
  refine congrArg₂ _ (by simp [atVertex]) (Finset.sum_congr rfl fun e _ => ?_)
  rw [Finset.mul_sum]
  simp

/-- Counting each walk as often as it uses a marked edge. -/
theorem solvesOccurrences_sum_walks (hdest : ∀ e ∈ A, dest e ∈ S)
    (hP : ∀ v ∈ S, ∀ p, p ∈ P v ↔ Walk (EdgeAdj src dest A) v p t) (marked : E → Bool) :
    SolvesOccurrences src dest wt A S marked (fun v => ∑ p ∈ P v, (p.map wt).prod)
      fun v => ∑ p ∈ P v, (p.map wt).prod * (p.countP marked : R) := by
  intro v hv
  simp only [eq_walksFrom hdest hP hv, sum_walksFrom]
  have hzero : (if v = t then ((([] : List E).map wt).prod * (([] : List E).countP marked : R))
      else 0) = 0 := by simp
  rw [hzero, zero_add, ← Finset.sum_add_distrib]
  refine Finset.sum_congr rfl fun e _ => ?_
  by_cases hmark : marked e = true
  · simp only [hmark, if_true, Finset.mul_sum, ← Finset.sum_add_distrib]
    refine Finset.sum_congr rfl fun p _ => ?_
    rw [List.countP_cons_of_pos hmark, List.map_cons, List.prod_cons, Nat.cast_succ]
    ring
  · rw [if_neg hmark, zero_add, Finset.mul_sum]
    refine Finset.sum_congr rfl fun p _ => ?_
    rw [List.countP_cons_of_neg hmark, List.map_cons, List.prod_cons, mul_assoc]

end Sums

/-- **Sums over walks from forward and backward solutions.** The forward solution
at the end is the sum over the walks, and the products at the edges with one
label sum up to the expected number of such edges. -/
theorem pathSums_of_solutions [IsLeftCancelAdd R] {f b : V → R} (label : E → ℕ) (hs : s ∈ S)
    (ht : t ∈ S) (hsrc : ∀ e ∈ A, src e ∈ S) (hdest : ∀ e ∈ A, dest e ∈ S)
    (hdead : ∀ v ∈ S, Dead (EdgeAdj src dest A) (fun _ => False) v)
    (hf : SolvesForward src dest wt A S (atVertex s) f)
    (hb : SolvesBackward src dest wt A S (atVertex t) b) :
    PathSums (fun p => Walk (EdgeAdj src dest A) s p t) wt label (f t)
      fun k => ∑ e ∈ A with label e = k, f (src e) * wt e * b (dest e) := by
  have hwalks : ∀ v ∈ S, ∃ P : Finset (List E),
      ∀ p, p ∈ P ↔ Walk (EdgeAdj src dest A) v p t := fun v hv => exists_walks (hdead v hv)
  choose! P hP using hwalks
  have hsum := solvesBackward_sum_walks wt hdest hP
  refine ⟨P s, hP s hs, forward_eq_backward hs ht hsrc hdest hf hsum, fun k => ?_⟩
  have hmarked := sum_marked_eq hs hsrc hdest hf
    (solvesOccurrences_sum_walks hdest hP fun e => decide (label e = k))
  refine Eq.trans ?_ hmarked
  change ∑ e ∈ A with label e = k, f (src e) * wt e * b (dest e) = _
  rw [Finset.sum_filter]
  refine Finset.sum_congr rfl fun e he => ?_
  -- the backward solution given is the one by walks
  rw [hb.unique hsum hdest (hdead _ (hdest e he)) (hdest e he)]
  simp

end Walks

end Carmel.Math
