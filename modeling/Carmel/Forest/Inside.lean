/-
# The inside pass over a forest

`inside_rec` goes through the nodes as they lie in memory. It gives every node
the value that its children and its rule have, a pointer the value of the node it
shares, and notes the links from a node to what its children stand for, when the
node is done.
-/

import Carmel.Forest.Passes

namespace Carmel.Forest

universe u

/-- `inside` and `outside_order`. -/
structure InsideState (K : Type u) where
  inside : ℕ → K
  order : List (ℕ × ℕ)

def InsideState.set {K : Type u} (s : InsideState K) (i : ℕ) (x : K) : InsideState K :=
  { s with inside := Function.update s.inside i x }

namespace FForest

section Code

variable {K : Type u} [CommSemiring K] (f : FForest) (ruleWeights : ℕ → K)

/-- What a child stands for: itself, or the node that it shares. -/
def target (b : ℕ) : ℕ :=
  match (f.node b).label with
  | .pointer shared => shared
  | .integer _ => b

/-- The loop that queues up the links of a node that ends at `e`, from the child `b` on. -/
def recordAncestry (parent e : ℕ) : ℕ → ℕ → List (ℕ × ℕ)
  | 0, _ => []
  | fuel + 1, b =>
    (parent, f.target b) ::
      if (f.node b).next = e then [] else recordAncestry parent e fuel (f.node b).next

mutual

/-- `inside_rec` at the node `b`. -/
def insideRec : ℕ → ℕ → InsideState K → InsideState K
  | 0, _, s => s
  | fuel + 1, b, s =>
    let e := (f.node b).next
    match (f.node b).label with
    | .pointer shared => s.set b (s.inside shared)
    | .integer ruleOr =>
      let s :=
        if ruleOr = orInt then
          let s := insideRec fuel (b + 1) s
          insideChildren fuel (· + ·) b e (f.node (b + 1)).next (s.set b (s.inside (b + 1)))
        else insideChildren fuel (· * ·) b e (b + 1) (s.set b (ruleWeights ruleOr))
      { s with order := s.order ++ if b + 1 = e then [] else f.recordAncestry b e e (b + 1) }

/-- The loop over the children `b` of the node `i`, which fold into its value. -/
def insideChildren : ℕ → (K → K → K) → ℕ → ℕ → ℕ → InsideState K → InsideState K
  | 0, _, _, _, _, s => s
  | fuel + 1, fold, i, e, b, s =>
    if b < e then
      let s := insideRec fuel b s
      insideChildren fuel fold i e (f.node b).next (s.set i (fold (s.inside i) (s.inside b)))
    else s

end

/-- `compute_inside`, with what the array held before. -/
def computeInside (inside : ℕ → K) : InsideState K :=
  f.insideRec ruleWeights (2 * f.size + 1) 0 ⟨inside, []⟩

end Code

variable {K : Type u} [CommSemiring K] {f : FForest} {ruleWeights : ℕ → K}
variable {m : ℕ → K} {b e i : ℕ} {s : InsideState K} {fold : K → K → K}

/-- The value of a node, given those of the nodes it leads to. -/
def insideOf (f : FForest) (ruleWeights : ℕ → K) (m : ℕ → K) (i : ℕ) : K :=
  match (f.node i).label with
  | .pointer shared => m shared
  | .integer rule =>
    if rule = orInt then ((f.children i).map m).sum
    else ruleWeights rule * ((f.children i).map m).prod

/-- What `compute_inside` does at a node. -/
def insidePass (w : ℕ → K) : Pass K where
  pointer _ shared := shared
  ruleInit rule _ := w rule
  ruleFold own _ child := own * child
  orInit _ child := child
  orFold own _ child := own + child

theorem inside_eq_pass (fuel : ℕ) :
    (∀ (b : ℕ) (s : InsideState K), (f.insideRec ruleWeights fuel b s).inside =
        f.passRec (insidePass ruleWeights) fuel b s.inside) ∧
      ∀ (fold : K → K → K) (i e b : ℕ) (s : InsideState K),
        (f.insideChildren ruleWeights fuel fold i e b s).inside =
          f.passChildren (insidePass ruleWeights) fuel (fun x _ y => fold x y) i e b s.inside := by
  induction fuel with
  | zero => exact ⟨fun _ _ => rfl, fun _ _ _ _ _ => rfl⟩
  | succ fuel ih =>
    rcases ih with ⟨hrec, hchildren⟩
    constructor
    · intro b s
      rw [insideRec, passRec]
      cases (f.node b).label with
      | pointer shared => rfl
      | integer rule =>
        by_cases hrule : rule = orInt
        · simp only [hrule, if_true, hchildren, InsideState.set, hrec]
          rfl
        · simp only [hrule, if_false, hchildren, InsideState.set]
          rfl
    · intro fold i e b s
      rw [insideChildren, passChildren]
      by_cases hlt : b < e
      · simp only [hlt, if_true, hchildren, InsideState.set, hrec]
      · simp only [hlt, if_false]

theorem foldl_mul (l : List K) (x : K) : l.foldl (· * ·) x = x * l.prod := by
  induction l generalizing x with
  | nil => simp
  | cons y l ih => rw [List.foldl_cons, ih, List.prod_cons, mul_assoc]

/-- `compute_inside` gives a node the value of what it leads to. -/
theorem Holds.insideOf_eq (h : f.Holds (insidePass ruleWeights) m i) :
    m i = f.insideOf ruleWeights m i := by
  unfold Holds at h
  unfold FForest.insideOf
  cases hlabel : (f.node i).label with
  | pointer shared =>
    simp only [hlabel] at h ⊢
    rcases h with ⟨_, h⟩
    exact h
  | integer rule =>
    simp only [hlabel] at h ⊢
    by_cases hrule : rule = orInt
    · rw [if_pos hrule] at h ⊢
      rcases h with ⟨c, cs, hcs, h⟩
      rw [h, hcs, List.sum_eq_foldl, List.map_cons, List.foldl_cons, zero_add, List.foldl_map]
      rfl
    · rw [if_neg hrule] at h ⊢
      rcases h with ⟨_, h⟩
      rw [h, ← foldl_mul, List.foldl_map]
      rfl

end FForest

namespace Items

open FForest

variable {K : Type u} [CommSemiring K] {f : FForest} {ruleWeights : ℕ → K}
variable {b i label target : ℕ} {items kids rest : Items} {s : InsideState K} {fold : K → K → K}

/-- The links of the siblings, in the order in which they are noted. -/
def links (f : FForest) : ℕ → Items → List (ℕ × ℕ)
  | _, nil => []
  | i, ref _ rest => rest.links f (i + 1)
  | i, node _ kids rest =>
    (kids.links f (i + 1) ++ (kids.places (i + 1)).map fun c => (i, f.target c)) ++
      rest.links f (i + 1 + kids.size)

theorem recordAncestry_eq (h : items.Laid f.node b) (hne : items ≠ nil) (parent : ℕ) {fuel : ℕ}
    (hfuel : items.size ≤ fuel) :
    f.recordAncestry parent (b + items.size) fuel b =
      (items.places b).map fun c => (parent, f.target c) := by
  induction items generalizing b fuel with
  | nil => exact absurd rfl hne
  | ref target rest ih =>
    cases fuel with
    | zero => simp at hfuel
    | succ fuel =>
      rw [size_ref] at hfuel ⊢
      rw [FForest.recordAncestry, h.1, places, List.map_cons]
      by_cases hrest : rest = nil
      · simp [hrest, places]
      · have hpos : rest.size ≠ 0 := fun h0 => hrest (size_eq_zero.mp h0)
        rw [if_neg (by show ¬ b + 1 = _; omega),
          ← ih h.2 hrest (show rest.size ≤ fuel by omega), ← Nat.add_assoc]
  | node label kids rest ihk ihr =>
    cases fuel with
    | zero => simp at hfuel
    | succ fuel =>
      rw [size_node] at hfuel ⊢
      rw [FForest.recordAncestry, h.1, places, List.map_cons]
      by_cases hrest : rest = nil
      · simp [hrest, places, Nat.add_assoc]
      · have hpos : rest.size ≠ 0 := fun h0 => hrest (size_eq_zero.mp h0)
        rw [if_neg (by show ¬ b + 1 + kids.size = _; omega),
          ← ihr h.2.2 hrest (show rest.size ≤ fuel by omega),
          show b + 1 + kids.size + rest.size = b + (1 + kids.size + rest.size) by omega]

variable (fold) in
/-- The loop over siblings notes what it notes from the second one on, if there is one. -/
theorem order_children {fuel : ℕ} (hfuel : 2 * items.size ≤ fuel)
    (hnext : items ≠ nil → ∀ (fuel : ℕ) (s : InsideState K) (x : K), 2 * items.size ≤ fuel + 1 →
      (f.insideChildren ruleWeights fuel fold i (b + items.size) (f.node b).next
        ((f.insideRec ruleWeights fuel b s).set i x)).order = s.order ++ items.links f b) :
    (f.insideChildren ruleWeights fuel fold i (b + items.size) b s).order =
      s.order ++ items.links f b := by
  by_cases hnil : items = nil
  · rw [hnil, links, List.append_nil]
    cases fuel with
    | zero => rfl
    | succ fuel => rw [insideChildren, if_neg (by simp)]
  · have hpos : items.size ≠ 0 := fun h0 => hnil (size_eq_zero.mp h0)
    cases fuel with
    | zero => omega
    | succ fuel =>
      rw [insideChildren, if_pos (by omega)]
      exact hnext hnil fuel s _ hfuel

/-- A node notes what its children note, and then its own links. -/
theorem order_node (h : (node label kids rest).Laid f.node b) (hor : label = orInt → kids ≠ nil)
    (hkids : kids ≠ nil → ∀ (fold : K → K → K) (fuel : ℕ) (s : InsideState K) (x : K),
      2 * kids.size ≤ fuel + 1 →
      (f.insideChildren ruleWeights fuel fold b (b + 1 + kids.size) (f.node (b + 1)).next
        ((f.insideRec ruleWeights fuel (b + 1) s).set b x)).order =
          s.order ++ kids.links f (b + 1)) {fuel : ℕ} (hfuel : 2 * kids.size ≤ fuel) :
    (f.insideRec ruleWeights (fuel + 1) b s).order =
      s.order ++ (kids.links f (b + 1) ++ (kids.places (b + 1)).map fun c => (b, f.target c)) := by
  have hnote : (if b + 1 = b + 1 + kids.size then []
      else f.recordAncestry b (b + 1 + kids.size) (b + 1 + kids.size) (b + 1)) =
      (kids.places (b + 1)).map fun c => (b, f.target c) := by
    by_cases hnil : kids = nil
    · simp [hnil, places]
    · have hpos : kids.size ≠ 0 := fun h0 => hnil (size_eq_zero.mp h0)
      rw [if_neg (by omega), recordAncestry_eq h.2.1 hnil b (by omega)]
  rw [insideRec, h.1]
  simp only [hnote]
  rw [← List.append_assoc]
  apply congrArg (· ++ _)
  by_cases hrule : label = orInt
  · rw [if_pos hrule]
    exact hkids (hor hrule) _ fuel s _ (by omega)
  · rw [if_neg hrule]
    exact order_children _ hfuel fun hne => hkids hne _

/-- The pass notes the links of siblings in the order in which they are done. -/
theorem order_siblings (h : items.Laid f.node b) (hor : items.NoEmptyOr) (hne : items ≠ nil)
    (fold : K → K → K) (i fuel : ℕ) (s : InsideState K) (x : K)
    (hfuel : 2 * items.size ≤ fuel + 1) :
    (f.insideChildren ruleWeights fuel fold i (b + items.size) (f.node b).next
      ((f.insideRec ruleWeights fuel b s).set i x)).order = s.order ++ items.links f b := by
  induction items generalizing b fold i fuel s x with
  | nil => exact absurd rfl hne
  | ref target rest ih =>
    rw [size_ref] at hfuel ⊢
    have hrest := order_children fold (s := (f.insideRec ruleWeights fuel b s).set i x)
      (i := i) (show 2 * rest.size ≤ fuel by omega)
      fun hne fuel s x => ih h.2 hor hne fold i fuel s x
    have hfirst : (f.insideRec ruleWeights fuel b s).order = s.order := by
      cases fuel with
      | zero => rfl
      | succ fuel =>
        rw [insideRec, h.1]
        rfl
    rw [show (f.node b).next = b + 1 by rw [h.1],
      show b + (1 + rest.size) = b + 1 + rest.size by omega, hrest]
    exact congrArg (· ++ _) hfirst
  | node label kids rest ihk ihr =>
    rw [size_node] at hfuel ⊢
    have hrest := order_children fold (s := (f.insideRec ruleWeights fuel b s).set i x)
      (i := i) (show 2 * rest.size ≤ fuel by omega)
      fun hne fuel s x => ihr h.2.2 hor.2.2 hne fold i fuel s x
    rw [show (f.node b).next = b + 1 + kids.size by rw [h.1],
      show b + (1 + kids.size + rest.size) = b + 1 + kids.size + rest.size by omega, hrest]
    cases fuel with
    | zero => omega
    | succ fuel =>
      have hfirst := order_node (s := s) h hor.1 (fun hne fold fuel s x =>
        ihk h.2.1 hor.2.1 hne fold b fuel s x) (show 2 * kids.size ≤ fuel by omega)
      rw [links, ← List.append_assoc]
      exact congrArg (· ++ _) hfirst

/-- **`compute_inside`** on one tree: every node has the value of what it leads to,
and the links are noted in the order in which the nodes are done. -/
theorem computeInside_spec {label : ℕ} {kids : Items}
    (h : (node label kids nil).Laid f.node 0) (hsize : f.size = (node label kids nil).size)
    (hor : (node label kids nil).NoEmptyOr) (hclosed : f.Closed 0 f.size) (inside : ℕ → K) :
    (∀ j < f.size, (f.computeInside ruleWeights inside).inside j =
        f.insideOf ruleWeights (f.computeInside ruleWeights inside).inside j) ∧
      (f.computeInside ruleWeights inside).order = (node label kids nil).links f 0 := by
  constructor
  · intro j hj
    rw [computeInside, (inside_eq_pass _).1]
    exact (holds_pass h hsize hor hclosed inside j hj).insideOf_eq
  · rw [size_node, size_nil] at hsize
    rw [links, links, List.append_nil]
    exact order_node h hor.1
      (fun hne fold fuel s x => order_siblings h.2.1 hor.2.1 hne fold 0 fuel s x)
      (show 2 * kids.size ≤ 2 * f.size by omega)

end Items

end Carmel.Forest
