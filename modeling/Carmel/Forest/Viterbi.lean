/-
# The best derivation of a forest

In `viterbi_rec` an alternative holds the value of its best child, the first one of those
that tie, and the printer follows these choices from the root. So the value of the root is
the weight of its heaviest tree, and the tree that is printed has this weight.
-/

import Carmel.Forest.Expected

namespace Carmel.Forest

universe u

/-- `inside[i]` and `viterbi[i]`. -/
structure Best (K : Type u) where
  inside : K
  viterbi : ℕ

section Code

variable {K : Type u}

/-- What `viterbi_rec` does at a node. -/
def viterbiPass [Mul K] [LinearOrder K] (ruleWeights : ℕ → K) : Pass (Best K) where
  pointer own shared := ⟨shared.inside, own.viterbi⟩
  ruleInit rule own := ⟨ruleWeights rule, own.viterbi⟩
  ruleFold own _ child := ⟨own.inside * child.inside, own.viterbi⟩
  orInit b child := ⟨child.inside, b⟩
  orFold own b child := if own.inside < child.inside then ⟨child.inside, b⟩ else own

/-- `compute_viterbi`, with what the two arrays held before. -/
def FForest.computeViterbi [Mul K] [LinearOrder K] (f : FForest) (ruleWeights : ℕ → K)
    (s : ℕ → Best K) : ℕ → Best K :=
  f.pass (viterbiPass ruleWeights) s

variable (f : FForest) (viterbi : ℕ → ℕ)

mutual

/-- `write_viterbi_rec` at the node `b`. -/
def FForest.writeViterbiRec : ℕ → ℕ → Option (List Char)
  | 0, _ => none
  | fuel + 1, b =>
    let e := (f.node b).next
    match (f.node b).label with
    | .pointer shared => FForest.writeViterbiRec fuel shared
    | .integer ruleOr =>
      if ruleOr = orInt then FForest.writeViterbiRec fuel (viterbi b)
      else if b + 1 = e then some (decimal ruleOr)
      else do
        let kids ← FForest.writeViterbiChildren fuel e (b + 1)
        return '(' :: decimal ruleOr ++ kids ++ [')']

/-- The loop over the children `b` of a rule. -/
def FForest.writeViterbiChildren : ℕ → ℕ → ℕ → Option (List Char)
  | 0, _, _ => none
  | fuel + 1, e, b =>
    if b < e then do
      let kid ← FForest.writeViterbiRec fuel b
      let rest ← FForest.writeViterbiChildren fuel e (f.node b).next
      return ' ' :: kid ++ rest
    else some []

end

end Code

mutual

/-- A tree as text: a rule alone, or a rule and its trees in parentheses. -/
def RTree.text : RTree → List Char
  | .node rule [] => decimal rule
  | .node rule (kid :: kids) =>
    '(' :: decimal rule ++ (' ' :: kid.text ++ RTree.texts kids) ++ [')']

def RTree.texts : List RTree → List Char
  | [] => []
  | kid :: kids => ' ' :: kid.text ++ RTree.texts kids

end

theorem RTree.text_node {rule : ℕ} {kids : List RTree} (h : kids ≠ []) :
    (RTree.node rule kids).text = '(' :: decimal rule ++ RTree.texts kids ++ [')'] := by
  cases kids with
  | nil => exact absurd rfl h
  | cons kid kids => rfl

section Choices

variable {K : Type u} [LinearOrder K] {value : ℕ → K} {x : Best K} {c : ℕ} {cs : List ℕ}

variable (value cs) in
/-- The fold over alternatives keeps one that is no worse than any of them. -/
theorem foldl_best (hx : x.viterbi = c) (hvalue : x.inside = value c) :
    ∃ d ∈ c :: cs, cs.foldl (fun own b => if own.inside < value b then ⟨value b, b⟩ else own) x =
      ⟨value d, d⟩ ∧ ∀ b ∈ c :: cs, value b ≤ value d := by
  induction cs generalizing c x with
  | nil =>
    refine ⟨c, List.mem_cons_self, ?_, ?_⟩
    · rw [List.foldl_nil, ← hx, ← hvalue.trans (congrArg value hx.symm)]
    · intro b hb
      rw [List.mem_singleton.mp hb]
  | cons b cs ih =>
    rw [List.foldl_cons]
    by_cases hlt : x.inside < value b
    · rw [if_pos hlt]
      have hb : (⟨value b, b⟩ : Best K).inside = value b := rfl
      obtain ⟨d, hd, hfold, hbest⟩ := ih rfl hb
      refine ⟨d, List.mem_cons_of_mem c hd, hfold, ?_⟩
      intro a ha
      rcases List.mem_cons.mp ha with rfl | ha
      · exact (hvalue ▸ hlt).le.trans (hbest b List.mem_cons_self)
      · exact hbest a ha
    · rw [if_neg hlt]
      obtain ⟨d, hd, hfold, hbest⟩ := ih hx hvalue
      have hsub : d ∈ c :: b :: cs := by
        rcases List.mem_cons.mp hd with rfl | hd
        · exact List.mem_cons_self
        · exact List.mem_cons_of_mem c (List.mem_cons_of_mem b hd)
      refine ⟨d, hsub, hfold, ?_⟩
      intro a ha
      rcases List.mem_cons.mp ha with rfl | ha
      · exact hbest a List.mem_cons_self
      · rcases List.mem_cons.mp ha with rfl | ha
        · exact (not_lt.mp (hvalue ▸ hlt)).trans (hbest c List.mem_cons_self)
        · exact hbest a (List.mem_cons_of_mem c ha)

end Choices

namespace FForest

variable {K : Type u} [CommSemiring K] [LinearOrder K] {f : FForest} {ruleWeights : ℕ → K}
variable {s : ℕ → Best K} {i : ℕ}

theorem folded_ruleFold (x : Best K) (cs : List ℕ) :
    folded (viterbiPass ruleWeights).ruleFold s x cs =
      ⟨x.inside * (cs.map fun c => (s c).inside).prod, x.viterbi⟩ := by
  induction cs generalizing x with
  | nil => simp [folded]
  | cons c cs ih =>
    rw [folded, List.foldl_cons]
    refine (ih _).trans ?_
    rw [List.map_cons, List.prod_cons, ← mul_assoc]
    rfl

theorem Holds.inside_pointer (h : f.Holds (viterbiPass ruleWeights) s i) {t : ℕ}
    (hlabel : (f.node i).label = .pointer t) : (s i).inside = (s t).inside := by
  unfold Holds at h
  simp only [hlabel] at h
  obtain ⟨old, h⟩ := h
  rw [h]
  rfl

theorem Holds.inside_or (h : f.Holds (viterbiPass ruleWeights) s i)
    (hlabel : (f.node i).label = .integer orInt) : (s i).viterbi ∈ f.children i ∧
      (s i).inside = (s (s i).viterbi).inside ∧
      ∀ c ∈ f.children i, (s c).inside ≤ (s i).inside := by
  unfold Holds at h
  simp only [hlabel, if_true] at h
  obtain ⟨c, cs, hchildren, h⟩ := h
  have hc : (⟨(s c).inside, c⟩ : Best K).inside = (s c).inside := rfl
  obtain ⟨d, hd, hfold, hbest⟩ := foldl_best (fun b => (s b).inside) cs rfl hc
  have hi : s i = ⟨(s d).inside, d⟩ := h.trans hfold
  rw [hchildren, hi]
  exact ⟨hd, rfl, hbest⟩

theorem Holds.inside_rule (h : f.Holds (viterbiPass ruleWeights) s i) {rule : ℕ}
    (hlabel : (f.node i).label = .integer rule) (hrule : rule ≠ orInt) :
    (s i).inside = ruleWeights rule * ((f.children i).map fun c => (s c).inside).prod := by
  unfold Holds at h
  simp only [hlabel, if_neg hrule] at h
  obtain ⟨old, h⟩ := h
  rw [h, folded_ruleFold]
  rfl

variable {trees : ℕ → List RTree} {viterbi : ℕ → ℕ} {tree : ℕ → RTree}

omit [CommSemiring K] [LinearOrder K] in
/-- The loop prints the children one after another. -/
theorem writeViterbiChildren_eq (hforest : f.IsForest) {e : ℕ} (he : e ≤ f.size) (k : ℕ) :
    ∀ {b : ℕ}, e ≤ b + k → (∀ c ∈ f.siblings e k b,
        ∃ n, ∀ m ≥ n, f.writeViterbiRec viterbi m c = some (tree c).text) →
      ∃ n, ∀ m ≥ n, f.writeViterbiChildren viterbi m e b =
        some (RTree.texts ((f.siblings e k b).map tree)) := by
  induction k with
  | zero =>
    intro b hb _
    refine ⟨1, ?_⟩
    intro m hm
    obtain ⟨m, rfl⟩ : ∃ k, m = k + 1 := ⟨m - 1, by omega⟩
    rw [writeViterbiChildren, if_neg (by omega)]
    rfl
  | succ k ih =>
    intro b hb h
    rw [siblings] at h ⊢
    by_cases hlt : b < e
    · simp only [hlt, if_true] at h ⊢
      have hnext := (hforest.closed b (Nat.zero_le b) (by omega)).1.1
      obtain ⟨n₁, hkid⟩ := h b List.mem_cons_self
      obtain ⟨n₂, hrest⟩ := ih (b := (f.node b).next) (by omega)
        fun c hc => h c (List.mem_cons_of_mem b hc)
      refine ⟨max n₁ n₂ + 1, ?_⟩
      intro m hm
      obtain ⟨m, rfl⟩ : ∃ k, m = k + 1 := ⟨m - 1, by omega⟩
      rw [writeViterbiChildren, if_pos hlt, hkid m (by omega), hrest m (by omega)]
      rfl
    · simp only [hlt, if_false]
      refine ⟨1, ?_⟩
      intro m hm
      obtain ⟨m, rfl⟩ : ∃ k, m = k + 1 := ⟨m - 1, by omega⟩
      rw [writeViterbiChildren, if_neg hlt]
      rfl

/-- Following the choices prints a tree of the value that the node has. -/
theorem exists_written (hforest : f.IsForest)
    (hholds : ∀ j < f.size, f.Holds (viterbiPass ruleWeights) s j) (htrees : f.IsExpansion trees) :
    ∀ i < f.size, ∃ t ∈ trees i, t.weight ruleWeights = (s i).inside ∧
      ∃ n, ∀ m ≥ n, f.writeViterbiRec (fun j => (s j).viterbi) m i = some t.text := by
  apply done_induction
  intro i hi ih
  rw [htrees i hi, expand]
  cases hlabel : (f.node i).label with
  | pointer shared =>
    obtain ⟨hshared, hdone⟩ := hforest.shared hi hlabel
    obtain ⟨t, ht, hweight, n, hn⟩ := ih shared hshared hdone
    refine ⟨t, ht, hweight.trans ((hholds i hi).inside_pointer hlabel).symm, n + 1, ?_⟩
    intro m hm
    obtain ⟨m, rfl⟩ : ∃ k, m = k + 1 := ⟨m - 1, by omega⟩
    rw [writeViterbiRec, hlabel]
    exact hn m (by omega)
  | integer rule =>
    by_cases hrule : rule = orInt
    · subst hrule
      obtain ⟨hchosen, hinside, -⟩ := (hholds i hi).inside_or hlabel
      obtain ⟨hsize, -, hdone⟩ := hforest.children hi hchosen
      obtain ⟨t, ht, hweight, n, hn⟩ := ih _ hsize hdone
      simp only [if_true]
      refine ⟨t, List.mem_flatMap.mpr ⟨_, hchosen, ht⟩, hweight.trans hinside.symm, n + 1, ?_⟩
      intro m hm
      obtain ⟨m, rfl⟩ : ∃ k, m = k + 1 := ⟨m - 1, by omega⟩
      rw [writeViterbiRec, hlabel]
      simp only [if_true]
      exact hn m (by omega)
    · have hkids : ∀ c, ∃ t, c ∈ f.children i → t ∈ trees c ∧ t.weight ruleWeights = (s c).inside ∧
          ∃ n, ∀ m ≥ n, f.writeViterbiRec (fun j => (s j).viterbi) m c = some t.text := by
        intro c
        by_cases hc : c ∈ f.children i
        · obtain ⟨hsize, -, hdone⟩ := hforest.children hi hc
          obtain ⟨t, ht⟩ := ih c hsize hdone
          exact ⟨t, fun _ => ht⟩
        · exact ⟨.node 0 [], fun h => absurd h hc⟩
      choose tree htree using hkids
      simp only [if_neg hrule]
      refine ⟨.node rule ((f.children i).map tree), ?_, ?_, ?_⟩
      · apply List.mem_map_of_mem
        rw [List.mem_sections, List.forall₂_map_left_iff, List.forall₂_map_right_iff,
          List.forall₂_same]
        exact fun c hc => (htree c hc).1
      · rw [(hholds i hi).inside_rule hlabel hrule, RTree.weight, RTree.weights_eq, List.map_map]
        congr 2
        apply List.map_congr_left
        exact fun c hc => (htree c hc).2.1
      · have hnext := (hforest.closed i (Nat.zero_le i) hi).1
        obtain ⟨n, hn⟩ := writeViterbiChildren_eq hforest hnext.2 (f.node i).next
          (b := i + 1) (by omega) fun c hc => (htree c hc).2.2
        refine ⟨n + 1, ?_⟩
        intro m hm
        obtain ⟨m, rfl⟩ : ∃ k, m = k + 1 := ⟨m - 1, by omega⟩
        rw [writeViterbiRec, hlabel]
        simp only [if_neg hrule]
        by_cases hleaf : i + 1 = (f.node i).next
        · have hnone : f.children i = [] := siblings_eq_nil (by omega) _
          rw [if_pos hleaf, hnone]
          rfl
        · have hsome : (f.children i).map tree ≠ [] := by
            obtain ⟨k, hk⟩ : ∃ k, (f.node i).next = k + 1 := ⟨(f.node i).next - 1, by omega⟩
            rw [children, hk, siblings, if_pos (by omega)]
            exact List.cons_ne_nil _ _
          rw [if_neg hleaf, hn m (by omega), RTree.text_node hsome]
          rfl

variable [IsOrderedRing K]

theorem weights_le_prod (hw : ∀ r, 0 ≤ ruleWeights r)
    {m : ℕ → K} {cs : List ℕ} {ts : List RTree} (h : List.Forall₂ (fun t c => t ∈ trees c) ts cs)
    (hle : ∀ c ∈ cs, ∀ t ∈ trees c, t.weight ruleWeights ≤ m c) :
    RTree.weights ruleWeights ts ≤ (cs.map m).prod := by
  induction h with
  | nil => exact le_rfl
  | @cons t c ts cs ht _ ih =>
    have hfirst := hle c List.mem_cons_self t ht
    have hrest := ih fun d hd => hle d (List.mem_cons_of_mem c hd)
    rw [List.map_cons, List.prod_cons]
    apply mul_le_mul hfirst hrest (RTree.weights_nonneg hw ts)
    exact (RTree.weight_nonneg hw t).trans hfirst

/-- No tree of a node is heavier than the value that it has. -/
theorem weight_le_inside (hforest : f.IsForest) (hw : ∀ r, 0 ≤ ruleWeights r)
    (hholds : ∀ j < f.size, f.Holds (viterbiPass ruleWeights) s j) (htrees : f.IsExpansion trees) :
    ∀ i < f.size, ∀ t ∈ trees i, t.weight ruleWeights ≤ (s i).inside := by
  apply done_induction
  intro i hi ih t ht
  rw [htrees i hi, expand] at ht
  cases hlabel : (f.node i).label with
  | pointer shared =>
    simp only [hlabel] at ht
    obtain ⟨hshared, hdone⟩ := hforest.shared hi hlabel
    rw [(hholds i hi).inside_pointer hlabel]
    exact ih shared hshared hdone t ht
  | integer rule =>
    simp only [hlabel] at ht
    by_cases hrule : rule = orInt
    · subst hrule
      obtain ⟨-, -, hbest⟩ := (hholds i hi).inside_or hlabel
      rw [if_pos rfl] at ht
      obtain ⟨c, hc, ht⟩ := List.mem_flatMap.mp ht
      obtain ⟨hsize, -, hdone⟩ := hforest.children hi hc
      exact (ih c hsize hdone t ht).trans (hbest c hc)
    · rw [if_neg hrule] at ht
      obtain ⟨ts, hts, rfl⟩ := List.mem_map.mp ht
      rw [List.mem_sections, List.forall₂_map_right_iff] at hts
      rw [(hholds i hi).inside_rule hlabel hrule, RTree.weight]
      apply mul_le_mul_of_nonneg_left _ (hw rule)
      apply weights_le_prod hw hts
      intro c hc t ht
      obtain ⟨hsize, -, hdone⟩ := hforest.children hi hc
      exact ih c hsize hdone t ht

end FForest

/-- **Viterbi.** In a forest whose alternatives have children and whose pointers share what
is complete before them, the value of the root is the greatest weight of a tree, and the
choices lead to a tree of this weight, which the printer prints. -/
theorem computeViterbi_spec {K : Type u} [CommSemiring K] [LinearOrder K] [IsOrderedRing K]
    {label : ℕ} {kids : Items} (hor : (Items.node label kids .nil).NoEmptyOr)
    (hclosed : (FForest.mk ((Items.node label kids .nil).layout 0)).Closed 0
      (Items.node label kids .nil).size)
    {ruleWeights : ℕ → K} (hw : ∀ r, 0 ≤ ruleWeights r) (s : ℕ → Best K) :
    let f := FForest.mk ((Items.node label kids .nil).layout 0)
    let best := f.computeViterbi ruleWeights s
    (∃ trees, f.IsExpansion trees) ∧ ∀ trees, f.IsExpansion trees →
      IsGreatest {w | ∃ t ∈ trees 0, t.weight ruleWeights = w} (best 0).inside ∧
        ∃ t ∈ trees 0, t.weight ruleWeights = (best 0).inside ∧
          ∃ n, ∀ m ≥ n, f.writeViterbiRec (fun i => (best i).viterbi) m 0 = some t.text := by
  intro f best
  have hlaid := laid_layout (Items.node label kids .nil)
  have hsize : f.size = (Items.node label kids .nil).size := Items.length_layout 0 _
  rw [← hsize] at hclosed
  have hforest := hlaid.isForest hsize hclosed
  have hholds : ∀ j < f.size, f.Holds (viterbiPass ruleWeights) best j :=
    Items.holds_pass hlaid hsize hor hclosed s
  have hroot : 0 < f.size := by
    rw [hsize, Items.size_node]
    omega
  refine ⟨hforest.exists_expansion, ?_⟩
  intro trees htrees
  obtain ⟨t, ht, hweight, hprinted⟩ :=
    FForest.exists_written hforest hholds htrees 0 hroot
  refine ⟨⟨⟨t, ht, hweight⟩, ?_⟩, t, ht, hweight, hprinted⟩
  rintro w ⟨t, ht, rfl⟩
  exact FForest.weight_le_inside hforest hw hholds htrees 0 hroot t ht

theorem computeViterbi_spec_alternatives :
    let f := FForest.mk
      ((Items.node orInt (.node 2 .nil (.node 1 .nil (.ref 2 .nil))) .nil).layout 0)
    let best := f.computeViterbi (fun _ => (1 / 2 : ℚ)) fun _ => ⟨0, 0⟩
    (∃ trees, f.IsExpansion trees) ∧ ∀ trees, f.IsExpansion trees →
      IsGreatest {w | ∃ t ∈ trees 0, t.weight (fun _ => 1 / 2) = w} (best 0).inside ∧
        ∃ t ∈ trees 0, t.weight (fun _ => 1 / 2) = (best 0).inside ∧
          ∃ n, ∀ m ≥ n, f.writeViterbiRec (fun i => (best i).viterbi) m 0 = some t.text :=
  computeViterbi_spec (by simp [Items.NoEmptyOr, orInt])
    (isForestText_alternatives.isTree sharesDone_alternatives).closed (fun _ => by norm_num) _

section Incomplete

open Math

/-- The first alternative has an alternative without children. -/
def emptyOrFirst : Items :=
  .node orInt (.node 1 (.node orInt .nil (.node 2 .nil .nil)) (.node 3 .nil .nil)) .nil

/-- The second alternative shares itself. -/
def cyclicLast : Items := .node orInt (.node 3 .nil (.node 1 (.ref 2 .nil) .nil)) .nil

theorem isForestText_emptyOrFirst : IsForestText
    (.node none orInt (.node none 1 (.node none orInt .nil (.leaf 2 .nil)) (.leaf 3 .nil)) .nil)
    emptyOrFirst "(OR (1 (OR) 2) 3)".toList [] :=
  isForestText_render (by simp [TextItems.Fit, orInt]) rfl (by decide)

theorem isForestText_cyclicLast : IsForestText
    (.node none orInt (.leaf 3 (.node (some 1) 1 (.ref 1 .nil) .nil)) .nil)
    cyclicLast "(OR 3 #1(1 #1))".toList [] :=
  isForestText_render (by simp [TextItems.Fit, orInt]) rfl (by decide)

/-- Rule 3 has the weight 1/2 and all others have 1. -/
def halfForThree (rule : ℕ) : ℚ := if rule = 3 then 1 / 2 else 1

theorem trees_emptyOrFirst {trees : ℕ → List RTree}
    (h : (FForest.mk (emptyOrFirst.layout 0)).IsExpansion trees) : trees 0 = [.node 3 []] := by
  have hroot : trees 0 = [1, 4].flatMap trees := h 0 (by decide)
  have hfirst : trees 1 = [trees 2, trees 3].sections.map (RTree.node 1) := h 1 (by decide)
  have hor : trees 2 = [] := h 2 (by decide)
  have hlast : trees 4 = [.node 3 []] := h 4 (by decide)
  rw [hor] at hfirst
  simp [hroot, hfirst, hlast]

theorem trees_cyclicLast {trees : ℕ → List RTree}
    (h : (FForest.mk (cyclicLast.layout 0)).IsExpansion trees) : trees 0 = [.node 3 []] := by
  have hroot : trees 0 = [1, 2].flatMap trees := h 0 (by decide)
  have hfirst : trees 1 = [.node 3 []] := h 1 (by decide)
  have hlast : trees 2 = [trees 3].sections.map (RTree.node 1) := h 2 (by decide)
  have hpointer : trees 3 = trees 2 := h 3 (by decide)
  rw [hpointer] at hlast
  simp [hroot, hfirst, eq_nil_of_selfShared hlast]

/-- A value of one is too high for the leaf 3. -/
theorem not_isGreatest_leafThree {trees : List RTree} (h : trees = [.node 3 []]) {x : ℚ}
    (hx : x = 1) : ¬ IsGreatest {w | ∃ t ∈ trees, t.weight halfForThree = w} x := by
  intro hgreatest
  obtain ⟨t, ht, hweight⟩ := hgreatest.1
  rw [h] at ht
  rw [List.mem_singleton.mp ht, hx] at hweight
  exact absurd hweight (by decide +kernel)

/-- In either text the leaf 3 is the only tree, but an alternative that has no tree has a
higher value. The printer prints what is no tree, or does not come to an end. -/
theorem not_isGreatest_incomplete :
    (IsForestText
        (.node none orInt (.node none 1 (.node none orInt .nil (.leaf 2 .nil)) (.leaf 3 .nil)) .nil)
        emptyOrFirst "(OR (1 (OR) 2) 3)".toList [] ∧
      ∀ trees, (FForest.mk (emptyOrFirst.layout 0)).IsExpansion trees →
        let f := FForest.mk (emptyOrFirst.layout 0)
        let best := f.computeViterbi halfForThree fun _ => ⟨0, 0⟩
        ¬ IsGreatest {w | ∃ t ∈ trees 0, t.weight halfForThree = w} (best 0).inside ∧
          f.writeViterbiRec (fun i => (best i).viterbi) 10 0 = some "(1 2 2)".toList ∧
          ∀ t ∈ trees 0, t.text ≠ "(1 2 2)".toList) ∧
      IsForestText (.node none orInt (.leaf 3 (.node (some 1) 1 (.ref 1 .nil) .nil)) .nil)
          cyclicLast "(OR 3 #1(1 #1))".toList [] ∧
        ∀ trees, (FForest.mk (cyclicLast.layout 0)).IsExpansion trees →
          let f := FForest.mk (cyclicLast.layout 0)
          let best := f.computeViterbi halfForThree fun _ => ⟨0, 0⟩
          ¬ IsGreatest {w | ∃ t ∈ trees 0, t.weight halfForThree = w} (best 0).inside ∧
            ∀ m, f.writeViterbiRec (fun i => (best i).viterbi) m 0 = none := by
  refine ⟨⟨isForestText_emptyOrFirst, ?_⟩, isForestText_cyclicLast, ?_⟩
  · intro trees htrees f best
    have htree := trees_emptyOrFirst htrees
    refine ⟨not_isGreatest_leafThree htree (by decide +kernel), by decide +kernel, ?_⟩
    intro t ht
    rw [htree] at ht
    rw [List.mem_singleton.mp ht]
    decide
  · intro trees htrees f best
    refine ⟨not_isGreatest_leafThree (trees_cyclicLast htrees) (by decide +kernel), ?_⟩
    -- the second alternative and the pointer in it lead to each other
    have hloop : ∀ m, f.writeViterbiRec (fun i => (best i).viterbi) m 2 = none ∧
        f.writeViterbiRec (fun i => (best i).viterbi) m 3 = none ∧
        f.writeViterbiChildren (fun i => (best i).viterbi) m 4 3 = none := by
      intro m
      induction m with
      | zero => exact ⟨rfl, rfl, rfl⟩
      | succ m ih =>
        refine ⟨?_, ih.1, ?_⟩
        · change (do
            let kids ← f.writeViterbiChildren (fun i => (best i).viterbi) m 4 3
            return '(' :: decimal 1 ++ kids ++ [')']) = none
          rw [ih.2.2]
          rfl
        · change (do
            let kid ← f.writeViterbiRec (fun i => (best i).viterbi) m 3
            let rest ← f.writeViterbiChildren (fun i => (best i).viterbi) m 4 4
            return ' ' :: kid ++ rest) = none
          rw [ih.2.1]
          rfl
    intro m
    cases m with
    | zero => rfl
    | succ m =>
      have hchosen : (best 0).viterbi = 2 := by decide +kernel
      change f.writeViterbiRec (fun i => (best i).viterbi) m (best 0).viterbi = none
      rw [hchosen]
      exact (hloop m).1

end Incomplete

end Carmel.Forest
