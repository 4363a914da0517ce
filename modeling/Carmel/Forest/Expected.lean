/-
# Expected rule counts of a forest

With values that solve the equations of the inside pass, a node has the sum of the
probabilities of its trees. The links, gone through backwards, never enter a node again, and
so the products of inside and outside values are the expected numbers of uses.
-/

import Carmel.Forest.Outside
import Carmel.Forest.RoundTrip
import Carmel.Math.Flow

namespace Carmel.Forest

open Math

universe u

namespace FForest

variable {f : FForest} {i j c p t : ℕ}

/-- The inside pass is done with `c` before it is done with `p`. -/
def DoneBefore (f : FForest) (c p : ℕ) : Prop :=
  (f.node c).next < (f.node p).next ∨ (f.node c).next = (f.node p).next ∧ p < c

/-- Every pointer shares a node that ends before the pointer. -/
def SharesDone (f : FForest) : Prop :=
  ∀ i < f.size, ∀ t, (f.node i).label = .pointer t → (f.node t).next ≤ i

/-- A number that grows in the order in which nodes are done. -/
def doneAt (f : FForest) (i : ℕ) : ℕ := (f.node i).next * (f.size + 1) + (f.size - i)

theorem DoneBefore.doneAt_lt (h : f.DoneBefore c p) (hc : c < f.size) : f.doneAt c < f.doneAt p := by
  unfold doneAt
  rcases h with hlt | ⟨heq, hpc⟩
  · have := Nat.mul_le_mul_right (f.size + 1) (Nat.succ_le_of_lt hlt)
    rw [Nat.succ_mul] at this
    omega
  · rw [heq]
    omega

/-- What holds of a node when it holds of all done before it holds of every node. -/
theorem done_induction {P : ℕ → Prop}
    (h : ∀ i < f.size, (∀ j < f.size, f.DoneBefore j i → P j) → P i) : ∀ i < f.size, P i := by
  have hstrong : ∀ n i, i < f.size → f.doneAt i = n → P i := by
    intro n
    induction n using Nat.strongRecOn with
    | ind n ih =>
      intro i hi hn
      apply h i hi
      intro j hj hji
      exact ih (f.doneAt j) (by rw [← hn]; exact hji.doneAt_lt hj) j hj rfl
  intro i hi
  exact hstrong _ i hi rfl

end FForest

namespace Items

variable {f : FForest} {b i j : ℕ} {items : Items}

/-- A node behind another one, within it, ends within it. -/
theorem Laid.next_nested (h : items.Laid f.node b) (hb : b ≤ i) (hi : i < b + items.size)
    (hij : i < j) (hj : j < (f.node i).next) : (f.node j).next ≤ (f.node i).next := by
  induction items generalizing b with
  | nil =>
    simp only [size_nil] at hi
    omega
  | ref target rest ih =>
    rw [size_ref] at hi
    by_cases hib : i = b
    · rw [hib, h.1] at hj
      change j < b + 1 at hj
      omega
    · exact ih h.2 (by omega) (by omega)
  | node label kids rest ihk ihr =>
    rw [size_node] at hi
    by_cases hib : i = b
    · rw [hib, h.1] at hj ⊢
      change j < b + 1 + kids.size at hj
      exact (h.2.1.next_mem (by omega) (by omega)).2
    · by_cases hkids : i < b + 1 + kids.size
      · exact ihk h.2.1 (by omega) hkids
      · exact ihr h.2.2 (by omega) (by omega)

end Items

namespace FForest

variable {K : Type u} [CommSemiring K] {f : FForest} {ruleWeights m : ℕ → K} {i j : ℕ}
variable {trees : ℕ → List RTree}

/-- The forest is one tree with pointers to nodes that are done before. -/
structure IsTree (f : FForest) : Prop where
  closed : f.Closed 0 f.size
  nested : ∀ i < f.size, ∀ j, i < j → j < (f.node i).next → (f.node j).next ≤ (f.node i).next
  nodes : ∀ i < f.size, ∀ t, (f.node i).label = .pointer t → ∃ rule, (f.node t).label = .integer rule

/-- The children and the shared nodes of every node are done before it. -/
structure IsForest (f : FForest) : Prop where
  closed : f.Closed 0 f.size
  nested : ∀ i < f.size, ∀ j, i < j → j < (f.node i).next → (f.node j).next ≤ (f.node i).next

theorem IsTree.isForest (h : f.IsTree) : f.IsForest := ⟨h.closed, h.nested⟩

theorem IsForest.children (h : f.IsForest) (hi : i < f.size) {c : ℕ} (hc : c ∈ f.children i) :
    c < f.size ∧ i < c ∧ f.DoneBefore c i := by
  obtain ⟨hic, hcn⟩ := mem_children h.closed (Nat.zero_le i) hi hc
  have hend := (h.closed i (Nat.zero_le i) hi).1.2
  have hnested := h.nested i hi c hic hcn
  refine ⟨by omega, hic, ?_⟩
  unfold DoneBefore
  omega

theorem IsForest.shared (h : f.IsForest) (hi : i < f.size) {t : ℕ}
    (ht : (f.node i).label = .pointer t) : t < f.size ∧ f.DoneBefore t i := by
  obtain ⟨⟨hlt, _⟩, hshared⟩ := h.closed i (Nat.zero_le i) hi
  have := hshared t ht
  refine ⟨by omega, .inl (by omega)⟩

/-- The same values for the children. -/
theorem IsForest.map_children {α : Type*} (h : f.IsForest) (hi : i < f.size) {m m' : ℕ → α}
    (hm : ∀ j < f.size, f.DoneBefore j i → m j = m' j) :
    (f.children i).map m = (f.children i).map m' := by
  apply List.map_congr_left
  intro c hc
  obtain ⟨hcs, _, hdone⟩ := h.children hi hc
  exact hm c hcs hdone

/-- **Inside values** are sums over trees. -/
theorem IsForest.inside_eq (h : f.IsForest) (hm : ∀ j < f.size, m j = f.insideOf ruleWeights m j)
    (htrees : f.IsExpansion trees) :
    ∀ i < f.size, m i = ((trees i).map (RTree.weight ruleWeights)).sum := by
  apply done_induction
  intro i hi ih
  rw [hm i hi, htrees i hi, insideOf, expand]
  cases hlabel : (f.node i).label with
  | pointer t =>
    obtain ⟨ht, hdone⟩ := h.shared hi hlabel
    exact ih t ht hdone
  | integer rule =>
    have hchildren : (f.children i).map m =
        (f.children i).map fun c => ((trees c).map (RTree.weight ruleWeights)).sum :=
      h.map_children hi ih
    by_cases hrule : rule = orInt
    · simp only [if_pos hrule, hchildren]
      rw [List.map_flatMap, List.flatMap_def, List.sum_flatten, List.map_map]
      rfl
    · simp only [if_neg hrule, hchildren]
      rw [List.map_map]
      have hnode : ∀ s : List RTree, (RTree.weight ruleWeights ∘ RTree.node rule) s =
          ruleWeights rule * (s.map (RTree.weight ruleWeights)).prod := by
        intro s
        rw [← RTree.weights_eq]
        rfl
      rw [List.map_congr_left fun s _ => hnode s, List.sum_map_mul_left, sum_prod_sections,
        List.map_map]
      rfl

section Tables

variable {α : Type*} {table : ℕ → ℕ → α} {F : (ℕ → α) → ℕ → α}

/-- Of what is worked out in rounds from the nodes that are done before, a node has the
same after so many rounds and ever after. -/
theorem table_eq (htable : ∀ n, table (n + 1) = F (table n))
    (hF : ∀ i < f.size, ∀ m m', (∀ j < f.size, f.DoneBefore j i → m j = m' j) → F m i = F m' i) :
    ∀ i < f.size, ∀ n n', f.doneAt i < n → f.doneAt i < n' → table n i = table n' i := by
  apply done_induction
  intro i hi ih n n' hn hn'
  obtain ⟨n, rfl⟩ : ∃ k, n = k + 1 := ⟨n - 1, by omega⟩
  obtain ⟨n', rfl⟩ : ∃ k, n' = k + 1 := ⟨n' - 1, by omega⟩
  rw [htable, htable]
  apply hF i hi
  intro j hj hdone
  have := hdone.doneAt_lt hj
  exact ih j hj hdone n n' (by omega) (by omega)

/-- Equations that give a node what follows from the nodes done before have a solution. -/
theorem IsForest.exists_table (h : f.IsForest) (htable : ∀ n, table (n + 1) = F (table n))
    (hF : ∀ i < f.size, ∀ m m', (∀ j < f.size, f.DoneBefore j i → m j = m' j) → F m i = F m' i) :
    ∃ m, ∀ i < f.size, m i = F m i := by
  refine ⟨table (f.size * (f.size + 1) + f.size + 1), ?_⟩
  intro i hi
  have hnext := (h.closed i (Nat.zero_le i) hi).1.2
  have hbound : f.doneAt i < f.size * (f.size + 1) + f.size + 1 := by
    have := Nat.mul_le_mul_right (f.size + 1) hnext
    unfold doneAt
    omega
  rw [table_eq htable hF i hi _ (f.size * (f.size + 1) + f.size + 1 + 1) hbound (by omega), htable]

end Tables

/-- The trees that are built in so many rounds. -/
def treesUpTo (f : FForest) : ℕ → ℕ → List RTree
  | 0 => fun _ => []
  | n + 1 => f.expand (treesUpTo f n)

/-- A forest whose pointers go back to what is done can be fully expanded. -/
theorem IsForest.exists_expansion (h : f.IsForest) : ∃ trees, f.IsExpansion trees := by
  have hrounds : ∀ n, f.treesUpTo (n + 1) = f.expand (f.treesUpTo n) := fun _ => rfl
  apply h.exists_table hrounds
  intro i hi m m' hm
  rw [expand, expand]
  cases hlabel : (f.node i).label with
  | pointer t =>
    obtain ⟨ht, hdone⟩ := h.shared hi hlabel
    exact hm t ht hdone
  | integer rule => simp only [List.flatMap_def, h.map_children hi hm]

end FForest

namespace Items

variable {f : FForest} {b v : ℕ} {items : Items} {link : ℕ × ℕ}

theorem links_source (h : items.Laid f.node b) (hlink : link ∈ items.links f b) :
    b ≤ link.1 ∧ link.1 < b + items.size := by
  induction items generalizing b with
  | nil => simp [links] at hlink
  | ref target rest ih =>
    have := ih h.2 hlink
    rw [size_ref]
    omega
  | node label kids rest ihk ihr =>
    rw [size_node]
    rw [links, List.mem_append, List.mem_append, List.mem_map] at hlink
    rcases hlink with (hlink | ⟨c, _, rfl⟩) | hlink
    · have := ihk h.2.1 hlink
      omega
    · show b ≤ b ∧ b < _
      omega
    · have := ihr h.2.2 hlink
      omega

theorem filter_links_eq_nil (h : items.Laid f.node b) (hv : v < b ∨ b + items.size ≤ v) :
    (items.links f b).filter (·.1 = v) = [] := by
  rw [List.filter_eq_nil_iff]
  intro link hlink heq
  have := links_source h hlink
  simp only [decide_eq_true_eq] at heq
  omega

/-- A node is linked to what its children stand for, and a pointer to nothing. -/
theorem filter_links (h : items.Laid f.node b) (hv : b ≤ v) (hv' : v < b + items.size) :
    (items.links f b).filter (·.1 = v) = match (f.node v).label with
      | .pointer _ => []
      | .integer _ => (f.children v).map fun c => (v, f.target c) := by
  induction items generalizing b with
  | nil =>
    simp only [size_nil] at hv'
    omega
  | ref target rest ih =>
    rw [size_ref] at hv'
    rw [links]
    by_cases hvb : v = b
    · rw [hvb, filter_links_eq_nil h.2 (by omega), h.1]
    · exact ih h.2 (by omega) (by omega)
  | node label kids rest ihk ihr =>
    rw [size_node] at hv'
    rw [links, List.filter_append, List.filter_append]
    by_cases hvb : v = b
    · subst hvb
      have hown : ((kids.places (v + 1)).map fun c => (v, f.target c)).filter (·.1 = v) =
          (kids.places (v + 1)).map fun c => (v, f.target c) := by
        rw [List.filter_eq_self]
        intro link hlink
        obtain ⟨c, _, rfl⟩ := List.mem_map.mp hlink
        simp
      rw [filter_links_eq_nil h.2.1 (by omega), filter_links_eq_nil h.2.2 (by omega), hown,
        children_eq h, h.1, List.nil_append, List.append_nil]
    · have hother : ((kids.places (b + 1)).map fun c => (b, f.target c)).filter (·.1 = v) = [] := by
        rw [List.filter_eq_nil_iff]
        intro link hlink
        obtain ⟨c, _, rfl⟩ := List.mem_map.mp hlink
        simpa using Ne.symm hvb
      rw [hother, List.append_nil]
      by_cases hkids : v < b + 1 + kids.size
      · rw [filter_links_eq_nil h.2.2 (by omega), List.append_nil]
        exact ihk h.2.1 (by omega) hkids
      · rw [filter_links_eq_nil h.2.1 (by omega), List.nil_append]
        exact ihr h.2.2 (by omega) (by omega)

/-- Links are noted when their nodes are done. -/
theorem links_sorted (h : items.Laid f.node b) :
    (items.links f b).Pairwise fun link link' => ¬ f.DoneBefore link'.1 link.1 := by
  induction items generalizing b with
  | nil => exact List.Pairwise.nil
  | ref target rest ih => exact ih h.2
  | node label kids rest ihk ihr =>
    have hnext : (f.node b).next = b + 1 + kids.size := by rw [h.1]
    have hkids : ∀ link ∈ kids.links f (b + 1), b < link.1 ∧ link.1 < b + 1 + kids.size ∧
        (f.node link.1).next ≤ b + 1 + kids.size := by
      intro link hlink
      have hsource := links_source h.2.1 hlink
      have := (h.2.1.next_mem hsource.1 hsource.2).2
      omega
    have hrest : ∀ link ∈ rest.links f (b + 1 + kids.size),
        b + 1 + kids.size < (f.node link.1).next := by
      intro link hlink
      have hsource := links_source h.2.2 hlink
      have := (h.2.2.next_mem hsource.1 hsource.2).1
      omega
    rw [links, List.pairwise_append, List.pairwise_append]
    refine ⟨⟨ihk h.2.1, ?_, ?_⟩, ihr h.2.2, ?_⟩
    · rw [List.pairwise_map]
      apply List.pairwise_of_forall
      intro _ _
      show ¬ f.DoneBefore b b
      unfold FForest.DoneBefore
      omega
    · intro link hlink link' hlink'
      obtain ⟨c, _, rfl⟩ := List.mem_map.mp hlink'
      have := hkids link hlink
      show ¬ f.DoneBefore b link.1
      unfold FForest.DoneBefore
      omega
    · intro link hlink link' hlink'
      have hlater := hrest link' hlink'
      have hown : (f.node link.1).next ≤ b + 1 + kids.size := by
        rcases List.mem_append.mp hlink with hlink | hlink
        · exact (hkids link hlink).2.2
        · obtain ⟨c, _, rfl⟩ := List.mem_map.mp hlink
          exact hnext.le
      unfold FForest.DoneBefore
      omega

end Items

namespace FForest

section Uses

variable {K : Type u} [Field K] {f : FForest} {ruleWeights m : ℕ → K} {i r : ℕ}
variable {trees : ℕ → List RTree}

/-- The uses of a rule in the trees of a node, weighted with their probabilities. -/
def expectedUses (ruleWeights : ℕ → K) (r : ℕ) (ts : List RTree) : K :=
  (ts.map fun t => t.weight ruleWeights * (t.uses r : K)).sum

/-- The two values of a node are those of what it stands for. -/
theorem IsTree.target_eq (h : f.IsTree) (htrees : f.IsExpansion trees) (hi : i < f.size) :
    f.target i < f.size ∧ trees (f.target i) = trees i ∧
      ∃ rule, (f.node (f.target i)).label = .integer rule := by
  unfold target
  cases hlabel : (f.node i).label with
  | pointer t =>
    refine ⟨(h.isForest.shared hi hlabel).1, ?_, h.nodes i hi t hlabel⟩
    rw [htrees i hi, expand, hlabel]
  | integer rule => exact ⟨hi, rfl, rule, hlabel⟩

theorem expectedUses_or (htrees : f.IsExpansion trees) (hi : i < f.size)
    (hlabel : (f.node i).label = .integer orInt) :
    expectedUses ruleWeights r (trees i) =
      ((f.children i).map fun c => expectedUses ruleWeights r (trees c)).sum := by
  rw [htrees i hi, expand, hlabel]
  simp only [if_true]
  rw [expectedUses, List.map_flatMap, List.flatMap_def, List.sum_flatten, List.map_map]
  rfl

/-- A rule is used at its node, and in the trees of the children. -/
theorem expectedUses_and (htrees : f.IsExpansion trees) (hi : i < f.size) {rule : ℕ}
    (hlabel : (f.node i).label = .integer rule) (hrule : rule ≠ orInt)
    (hm : m i = ruleWeights rule * ((f.children i).map m).prod)
    (hsum : ∀ c ∈ f.children i, m c = ((trees c).map (RTree.weight ruleWeights)).sum)
    (hne : m i ≠ 0) :
    expectedUses ruleWeights r (trees i) = (if rule = r then m i else 0) +
      ((f.children i).map fun c => m i / m c * expectedUses ruleWeights r (trees c)).sum := by
  have hprod : ((f.children i).map m).prod ≠ 0 := by
    intro h0
    exact hne (by rw [hm, h0, mul_zero])
  have hlists : ((f.children i).map trees).map (fun l => (l.map (RTree.weight ruleWeights)).sum) =
      (f.children i).map m := by
    rw [List.map_map]
    exact List.map_congr_left fun c hc => (hsum c hc).symm
  have hpos : ∀ l ∈ (f.children i).map trees, (l.map (RTree.weight ruleWeights)).sum ≠ 0 := by
    intro l hl h0
    obtain ⟨c, hc, rfl⟩ := List.mem_map.mp hl
    apply hprod
    apply List.prod_eq_zero
    rw [← h0, ← hsum c hc]
    exact List.mem_map_of_mem hc
  have hnode : ∀ s : List RTree,
      (RTree.node rule s).weight ruleWeights * ((RTree.node rule s).uses r : K) =
        ruleWeights rule * (s.map (RTree.weight ruleWeights)).prod * (if rule = r then 1 else 0) +
          ruleWeights rule * ((s.map (RTree.weight ruleWeights)).prod *
            (s.map fun t => (t.uses r : K)).sum) := by
    intro s
    rw [RTree.weight, RTree.uses, RTree.weights_eq, RTree.usesAll_eq, Nat.cast_add,
      Nat.cast_list_sum, List.map_map, Nat.cast_ite]
    simp only [Nat.cast_one, Nat.cast_zero, Function.comp_def]
    ring
  have hfirst : (((f.children i).map trees).sections.map fun s =>
      ruleWeights rule * (s.map (RTree.weight ruleWeights)).prod * if rule = r then 1 else 0).sum =
        if rule = r then m i else 0 := by
    rw [List.sum_map_mul_right, List.sum_map_mul_left, sum_prod_sections, hlists, ← hm]
    simp
  rw [htrees i hi, expand, hlabel]
  simp only [if_neg hrule]
  rw [expectedUses, List.map_map]
  simp only [Function.comp_def, hnode]
  rw [List.sum_map_add, hfirst, List.sum_map_mul_left, sum_uses_sections _ _ hpos, hlists,
    ← mul_assoc, ← hm, List.map_map, ← List.sum_map_mul_left]
  congr 2
  apply List.map_congr_left
  intro c hc
  simp only [Function.comp_apply]
  rw [← hsum c hc, expectedUses, mul_div_assoc', div_mul_eq_mul_div]

variable [LinearOrder K] [IsStrictOrderedRing K]

/-- Trees without probability use nothing. -/
theorem expectedUses_of_sum_eq_zero (hw : ∀ r, 0 ≤ ruleWeights r) {ts : List RTree}
    (h : (ts.map (RTree.weight ruleWeights)).sum = 0) : expectedUses ruleWeights r ts = 0 := by
  apply List.sum_eq_zero
  intro x hx
  obtain ⟨t, ht, rfl⟩ := List.mem_map.mp hx
  have hzero : t.weight ruleWeights = 0 := by
    apply List.all_zero_of_le_zero_le_of_sum_eq_zero _ h (List.mem_map_of_mem ht)
    intro y hy
    obtain ⟨t', _, rfl⟩ := List.mem_map.mp hy
    exact RTree.weight_nonneg hw t'
  rw [hzero, zero_mul]

end Uses

section Outside

variable {K : Type u} [Field K] {f : FForest} {ruleWeights m : ℕ → K} {r : ℕ}
variable {trees : ℕ → List RTree} {links : List (ℕ × ℕ)}

/-- The share of its node's outside value that a link passes on. -/
def linkWeight (f : FForest) [DecidableEq K] (inside : ℕ → K) (link : ℕ × ℕ) : K :=
  match (f.node link.1).label with
  | .pointer _ => 0
  | .integer rule =>
    if rule = orInt then 1
    else if inside link.1 ≠ 0 then inside link.1 / inside link.2 else 0

/-- The links of a tree, as far as the outside pass needs to know them. -/
structure IsLinks (f : FForest) (links : List (ℕ × ℕ)) : Prop where
  source : ∀ link ∈ links, link.1 < f.size
  own : ∀ v < f.size, links.filter (·.1 = v) = match (f.node v).label with
    | .pointer _ => []
    | .integer _ => (f.children v).map fun c => (v, f.target c)
  sorted : links.Pairwise fun link link' => ¬ f.DoneBefore link'.1 link.1

/-- A link leads to a node that is done before its own. -/
theorem IsLinks.dest (h : f.IsLinks links) (htree : f.IsTree) {link : ℕ × ℕ} (hlink : link ∈ links) :
    link.2 < f.size ∧ f.DoneBefore link.2 link.1 ∧ ∃ rule, (f.node link.2).label = .integer rule := by
  have hsource := h.source link hlink
  have hown : link ∈ links.filter (·.1 = link.1) := by
    rw [List.mem_filter]
    exact ⟨hlink, by simp⟩
  rw [h.own _ hsource] at hown
  cases hlabel : (f.node link.1).label with
  | pointer t => simp [hlabel] at hown
  | integer rule =>
    rw [hlabel] at hown
    obtain ⟨c, hc, hlink'⟩ := List.mem_map.mp hown
    obtain ⟨hcs, _, hdone⟩ := htree.isForest.children hsource hc
    rw [← hlink']
    show f.target c < f.size ∧ f.DoneBefore (f.target c) link.1 ∧
      ∃ rule, (f.node (f.target c)).label = .integer rule
    unfold target
    cases hc' : (f.node c).label with
    | pointer t =>
      obtain ⟨hts, hdone'⟩ := htree.isForest.shared hcs hc'
      have hshared := ((htree.closed c (Nat.zero_le c) hcs).2 t hc').2
      have hwithin := mem_children htree.closed (Nat.zero_le _) hsource hc
      have hearlier : f.DoneBefore t link.1 := by
        unfold DoneBefore
        omega
      exact ⟨hts, hearlier, htree.nodes c hcs t hc'⟩
    | integer rule' => exact ⟨hcs, hdone, rule', hc'⟩

/-- Backwards, no link enters a node whose own links come before it. -/
theorem IsLinks.relaxOrder (h : f.IsLinks links) (htree : f.IsTree) :
    RelaxOrder Prod.fst Prod.snd links.reverse := by
  constructor
  · rw [List.pairwise_reverse]
    apply h.sorted.imp_of_mem
    intro link link' hlink _ hsorted heq
    apply hsorted
    rw [← heq]
    exact (h.dest htree hlink).2.1
  · intro link hlink heq
    have hdone := (h.dest htree (List.mem_reverse.mp hlink)).2.1
    rw [heq] at hdone
    unfold DoneBefore at hdone
    omega

variable [LinearOrder K]

theorem passOutside_eq_relax (f : FForest) (inside : ℕ → K) :
    f.passOutside inside = relax Prod.fst Prod.snd (f.linkWeight inside) := by
  funext o ⟨p, c⟩
  have hzero : Function.update o c (o c + o p * 0) = o := by
    rw [mul_zero, add_zero, Function.update_eq_self]
  unfold relax
  cases hlabel : (f.node p).label with
  | pointer t =>
    simp only [passOutside, linkWeight, hlabel]
    exact hzero.symm
  | integer rule =>
    by_cases hrule : rule = orInt
    · simp only [passOutside, linkWeight, hlabel, if_pos hrule, mul_one]
    · by_cases hne : inside p ≠ 0
      · simp only [passOutside, linkWeight, hlabel, if_neg hrule, if_pos hne, mul_div_assoc]
      · simp only [passOutside, linkWeight, hlabel, if_neg hrule, if_neg hne]
        exact hzero.symm

variable [IsStrictOrderedRing K]

/-- What a node's uses are made up of: its own, and those its links lead to. -/
theorem IsLinks.uses_eq (h : f.IsLinks links) (htree : f.IsTree)
    (hm : ∀ j < f.size, m j = f.insideOf ruleWeights m j) (htrees : f.IsExpansion trees)
    (hw : ∀ r, 0 ≤ ruleWeights r) {v : ℕ} (hv : v < f.size) {rule : ℕ}
    (hlabel : (f.node v).label = .integer rule) :
    expectedUses ruleWeights r (trees v) =
      (if (f.node v).label = .integer r ∧ r ≠ orInt then m v else 0) +
        (links.map fun link => if link.1 = v then
          f.linkWeight m link * expectedUses ruleWeights r (trees link.2) else 0).sum := by
  have hinside := htree.isForest.inside_eq hm htrees
  have hlinks : (links.map fun link => if link.1 = v then
      f.linkWeight m link * expectedUses ruleWeights r (trees link.2) else 0).sum =
        ((f.children v).map fun c =>
          f.linkWeight m (v, f.target c) * expectedUses ruleWeights r (trees c)).sum := by
    rw [List.sum_map_ite, List.map_const', List.sum_replicate, nsmul_zero, add_zero, h.own v hv,
      hlabel, List.map_map]
    congr 1
    apply List.map_congr_left
    intro c hc
    simp only [Function.comp_apply]
    rw [(htree.target_eq htrees (htree.isForest.children hv hc).1).2.1]
  have hweight : ∀ c, f.linkWeight m (v, c) =
      if rule = orInt then 1 else if m v ≠ 0 then m v / m c else 0 := by
    intro c
    rw [linkWeight, hlabel]
  rw [hlinks, hlabel]
  by_cases hor : rule = orInt
  · have hown : ¬ (Label.integer rule = .integer r ∧ r ≠ orInt) := by
      intro hr
      exact hr.2 ((Label.integer.inj hr.1).symm.trans hor)
    rw [if_neg hown, zero_add, expectedUses_or htrees hv (by rw [hlabel, hor])]
    simp only [hweight, if_pos hor, one_mul]
  · have hchildren : ∀ c ∈ f.children v, m c = ((trees c).map (RTree.weight ruleWeights)).sum := by
      intro c hc
      exact hinside c (htree.isForest.children hv hc).1
    by_cases hzero : m v = 0
    · rw [expectedUses_of_sum_eq_zero hw (by rw [← hinside v hv, hzero])]
      simp [hweight, hor, hzero]
    · have hmv : m v = ruleWeights rule * ((f.children v).map m).prod := by
        rw [hm v hv, insideOf, hlabel]
        simp only [if_neg hor]
      rw [expectedUses_and htrees hv hlabel hor hmv hchildren hzero]
      congr 1
      · by_cases hr : rule = r
        · simp [← hr, hor]
        · simp [hr]
      · congr 1
        apply List.map_congr_left
        intro c hc
        have hcs := (htree.isForest.children hv hc).1
        obtain ⟨htargets, heq, _⟩ := htree.target_eq htrees hcs
        rw [hweight, if_neg hor, if_pos hzero, hinside c hcs, hinside _ htargets, heq]

/-- **The outside pass.** Products of inside and outside are expected uses. -/
theorem IsLinks.contribution_eq (h : f.IsLinks links) (htree : f.IsTree)
    (hm : ∀ j < f.size, m j = f.insideOf ruleWeights m j) (htrees : f.IsExpansion trees)
    (hw : ∀ r, 0 ≤ ruleWeights r) (hpos : 0 < f.size) {label : ℕ}
    (hroot : (f.node 0).label = .integer label) (o : ℕ → K) :
    f.contribution m (links.reverse.foldl (f.passOutside m) (f.startOutside m o)) r =
      (m 0)⁻¹ * expectedUses ruleWeights r (trees 0) := by
  -- what is ahead of a node: a pointer has no links of its own
  let ahead : ℕ → K := fun v =>
    match (f.node v).label with
    | .pointer _ => 0
    | .integer _ => expectedUses ruleWeights r (trees v)
  have hahead : ∀ {v : ℕ} {rule : ℕ}, (f.node v).label = .integer rule →
      ahead v = expectedUses ruleWeights r (trees v) := by
    intro v rule hv
    simp only [ahead, hv]
  have hsource : ∀ link ∈ links.reverse, link.1 ∈ Finset.range f.size := by
    intro link hlink
    exact Finset.mem_range.mpr (h.source link (List.mem_reverse.mp hlink))
  have hdest : ∀ link ∈ links.reverse, link.2 ∈ Finset.range f.size := by
    intro link hlink
    exact Finset.mem_range.mpr (h.dest htree (List.mem_reverse.mp hlink)).1
  have hsolves : ∀ v ∈ Finset.range f.size, ahead v =
      (if (f.node v).label = .integer r ∧ r ≠ orInt then m v else 0) +
        (links.reverse.map fun link => if link.1 = v then
          f.linkWeight m link * ahead link.2 else 0).sum := by
    intro v hv
    have hv := Finset.mem_range.mp hv
    rw [List.map_reverse, List.sum_reverse]
    have hlinks : (links.map fun link => if link.1 = v then
        f.linkWeight m link * ahead link.2 else 0) = links.map fun link => if link.1 = v then
          f.linkWeight m link * expectedUses ruleWeights r (trees link.2) else 0 := by
      apply List.map_congr_left
      intro link hlink
      obtain ⟨_, _, rule, hrule⟩ := h.dest htree hlink
      rw [hahead hrule]
    rw [hlinks]
    cases hlabel : (f.node v).label with
    | pointer t =>
      rw [List.sum_map_ite, List.map_const', List.sum_replicate, nsmul_zero, h.own v hv, hlabel]
      simp [ahead, hlabel]
    | integer rule => rw [hahead hlabel, ← hlabel, h.uses_eq htree hm htrees hw hv hlabel]
  have hdual := sum_foldl_relax_mul (h.relaxOrder htree) (Finset.range f.size) hsource hdest
    (g := f.startOutside m o) hsolves
  rw [contribution_eq_sum, passOutside_eq_relax]
  refine hdual.trans ?_
  rw [Finset.sum_eq_single_of_mem 0 (Finset.mem_range.mpr hpos), hahead hroot]
  · simp [startOutside]
  · intro v hv hne
    simp [startOutside, hne, Finset.mem_range.mp hv]

end Outside

end FForest

namespace Items

/-- Pointers go back. -/
def PointBack : ℕ → Items → Prop
  | _, nil => True
  | i, ref target rest => target < i ∧ rest.PointBack (i + 1)
  | i, node _ kids rest => kids.PointBack (i + 1) ∧ rest.PointBack (i + 1 + kids.size)

theorem PointBack.lt {items : Items} {b i t : ℕ} {memory : ℕ → ForestNode} (h : items.PointBack b)
    (hlaid : items.Laid memory b) (hb : b ≤ i) (hi : i < b + items.size)
    (ht : (memory i).label = .pointer t) : t < i := by
  induction items generalizing b with
  | nil =>
    simp only [size_nil] at hi
    omega
  | ref target rest ih =>
    rw [size_ref] at hi
    by_cases hib : i = b
    · rw [hib, hlaid.1] at ht
      rw [hib, ← Label.pointer.inj ht]
      exact h.1
    · exact ih h.2 hlaid.2 (by omega) (by omega)
  | node label kids rest ihk ihr =>
    rw [size_node] at hi
    by_cases hib : i = b
    · rw [hib, hlaid.1] at ht
      cases ht
    · by_cases hkids : i < b + 1 + kids.size
      · exact ihk h.1 hlaid.2.1 (by omega) hkids
      · exact ihr h.2 hlaid.2.2 (by omega) (by omega)

end Items

namespace TextItems

variable {t : TextItems} {backrefs backrefs' : Backrefs} {i : ℕ} {items : Items}

/-- A name stands for a node before it. -/
theorem pointBack_of_resolve (h : t.resolve backrefs i = some (items, backrefs'))
    (hback : ∀ id j, backrefs id = some j → j < i) :
    items.PointBack i ∧ ∀ id j, backrefs' id = some j → j < i + items.size := by
  induction t generalizing backrefs backrefs' i items with
  | nil =>
    simp only [resolve, Option.some.injEq, Prod.mk.injEq] at h
    rcases h with ⟨rfl, rfl⟩
    exact ⟨trivial, hback⟩
  | ref id rest ih =>
    rcases resolve_ref h with ⟨target, items', htarget, hrest, rfl⟩
    rcases ih hrest fun id j hj => Nat.lt_succ_of_lt (hback id j hj) with ⟨hitems, hback'⟩
    rw [Items.size_ref, ← Nat.add_assoc]
    exact ⟨⟨hback id target htarget, hitems⟩, hback'⟩
  | leaf rule rest ih =>
    rcases resolve_leaf h with ⟨items', hrest, rfl⟩
    rcases ih hrest fun id j hj => Nat.lt_succ_of_lt (hback id j hj) with ⟨hitems, hback'⟩
    rw [Items.size_node, ← Nat.add_assoc, ← Nat.add_assoc]
    exact ⟨⟨trivial, hitems⟩, hback'⟩
  | node id? label kids rest ihk ihr =>
    rcases resolve_node h with ⟨kids', backrefs₁, items', hkids, hrest, rfl⟩
    have hdefined : ∀ id j, backrefs.define id? i id = some j → j < i + 1 := by
      intro id j hj
      cases id? with
      | none => exact Nat.lt_succ_of_lt (hback id j hj)
      | some id' =>
        by_cases hid : id = id'
        · simp only [Backrefs.define, hid, Function.update_self, Option.some.injEq] at hj
          omega
        · simp only [Backrefs.define, Function.update_of_ne hid] at hj
          exact Nat.lt_succ_of_lt (hback id j hj)
    rcases ihk hkids hdefined with ⟨hitemsk, hback₁⟩
    rcases ihr hrest hback₁ with ⟨hitemsr, hback'⟩
    rw [Items.size_node, ← Nat.add_assoc, ← Nat.add_assoc]
    exact ⟨⟨hitemsk, hitemsr⟩, hback'⟩

end TextItems

section Root

variable {t : TextItems} {items : Items} {text rest : List Char}

theorem laid_layout (items : Items) : items.Laid (FForest.mk (items.layout 0)).node 0 := by
  simpa using Items.laid_of_nodes items [] []

/-- A forest in which pointers share what is done has its nodes in order. -/
theorem Items.Laid.isForest {items : Items} {f : FForest} (h : items.Laid f.node 0)
    (hsize : f.size = items.size) (hclosed : f.Closed 0 f.size) : f.IsForest := by
  refine ⟨hclosed, ?_⟩
  intro i hi j hij hj
  exact h.next_nested (Nat.zero_le i) (by rw [Nat.zero_add, ← hsize]; exact hi) hij hj

/-- A text in which no name stands in the node that it names has a tree. -/
theorem IsForestText.isTree (h : IsForestText t items text rest)
    (hshares : (FForest.mk (items.layout 0)).SharesDone) :
    (FForest.mk (items.layout 0)).IsTree := by
  rcases h.root with ⟨label, kids, backrefs, _, hresolve, _⟩
  have hlaid := laid_layout items
  have hsize : (FForest.mk (items.layout 0)).size = 0 + items.size := by
    rw [FForest.size, Items.length_layout, Nat.zero_add]
  have hback := (TextItems.pointBack_of_resolve hresolve (by simp)).1
  have htargets := (TextItems.targets_of_resolve hresolve hlaid (by simp [Backrefs.NameNodes])).1
  rw [Items.allTargets_iff 0] at htargets
  constructor
  · intro i _ hi
    rw [hsize] at hi
    have hnext := hlaid.next_mem (Nat.zero_le i) hi
    refine ⟨by rw [hsize]; exact hnext, ?_⟩
    intro s hs
    have hlt := hback.lt hlaid (Nat.zero_le i) hi hs
    exact ⟨(hlaid.next_mem (Nat.zero_le s) (by omega)).1, hshares i (by rw [hsize]; exact hi) s hs⟩
  · intro i hi j hij hj
    exact hlaid.next_nested (Nat.zero_le i) (by rw [← hsize]; exact hi) hij hj
  · intro i hi s hs
    apply htargets _ _ s hs
    rw [FForest.node, List.getD_eq_getElem?_getD, List.getElem?_eq_getElem hi]
    exact List.getElem_mem hi

theorem isLinks_layout (items : Items) :
    (FForest.mk (items.layout 0)).IsLinks (items.links (FForest.mk (items.layout 0)) 0) := by
  have hlaid := laid_layout items
  have hsize : (FForest.mk (items.layout 0)).size = 0 + items.size := by
    rw [FForest.size, Items.length_layout, Nat.zero_add]
  constructor
  · intro link hlink
    rw [hsize]
    exact (Items.links_source hlaid hlink).2
  · intro v hv
    exact Items.filter_links hlaid (Nat.zero_le v) (by rw [← hsize]; exact hv)
  · exact Items.links_sorted hlaid

/-- What the two passes over such a forest find. -/
theorem IsForestText.passes (h : IsForestText t items text rest) (hor : items.NoEmptyOr)
    (hshares : (FForest.mk (items.layout 0)).SharesDone)
    {K : Type u} [Field K] [LinearOrder K] [IsStrictOrderedRing K] {ruleWeights : ℕ → K}
    (hw : ∀ r, 0 ≤ ruleWeights r) {trees : ℕ → List RTree}
    (htrees : (FForest.mk (items.layout 0)).IsExpansion trees) (inside : ℕ → K) :
    let pass := (FForest.mk (items.layout 0)).computeInside ruleWeights inside
    0 < items.size ∧
      (∀ i < items.size, pass.inside i = ((trees i).map (RTree.weight ruleWeights)).sum) ∧
      ∀ outside r, (FForest.mk (items.layout 0)).contribution pass.inside
          (pass.order.reverse.foldl ((FForest.mk (items.layout 0)).passOutside pass.inside)
            ((FForest.mk (items.layout 0)).startOutside pass.inside outside)) r =
        (pass.inside 0)⁻¹ * FForest.expectedUses ruleWeights r (trees 0) := by
  have htree := h.isTree hshares
  have hlaid := laid_layout items
  have hlinks := isLinks_layout items
  rcases h.root with ⟨label, kids, _, rfl, _, _⟩
  have hsize : (FForest.mk ((Items.node label kids .nil).layout 0)).size =
      (Items.node label kids .nil).size := Items.length_layout 0 _
  have hpos : 0 < (Items.node label kids .nil).size := by
    rw [Items.size_node]
    omega
  have hroot : ((FForest.mk ((Items.node label kids .nil).layout 0)).node 0).label =
      .integer label := by rw [hlaid.1]
  obtain ⟨hm, horder⟩ := Items.computeInside_spec hlaid hsize hor htree.closed inside
  refine ⟨hpos, ?_, ?_⟩
  · intro i hi
    exact htree.isForest.inside_eq hm htrees i (by rw [hsize]; exact hi)
  · intro outside r
    rw [horder]
    exact hlinks.contribution_eq htree hm htrees hw (by rw [hsize]; exact hpos) hroot outside

/-- **Expected counts.** Of every forest text in which alternatives have children and
no name stands in the node that it names, the readers make an array that can be fully
expanded. Its inside value is the probability of all trees, and if it is positive, what
`collect_counts` adds for a rule is the number of its uses in the trees, each with the
share of its probability. -/
theorem collectCounts_expected (h : IsForestText t items text rest) (hor : items.NoEmptyOr)
    (hshares : (FForest.mk (items.layout 0)).SharesDone) (memory₁ memory₂ : ℕ → ForestNode)
    {space₁ space₂ : ℕ} (max₁ max₂ : ℕ) (hspace₁ : items.size < space₁) (hspace₂ : items.size < space₂)
    {K : Type u} [Field K] [LinearOrder K] [IsStrictOrderedRing K] {ruleWeights : ℕ → K}
    (hw : ∀ r, 0 ≤ ruleWeights r) :
    ∃ s₁ s₂, genioRead memory₁ space₁ max₁ text = .ok s₁ ∧
      allocRead memory₂ space₂ max₂ text = .ok s₂ ∧ s₂.forest = s₁.forest ∧
      (∃ trees, s₁.forest.IsExpansion trees) ∧
      ∀ trees, s₁.forest.IsExpansion trees →
        ∀ (inside outside : ℕ → K) (a : AccumulateCounts K) (isNearAddOneLimit : K → Bool),
          let total := ((trees 0).map (RTree.weight ruleWeights)).sum
          let pass := s₁.forest.computeInside ruleWeights inside
          pass.inside 0 = total ∧ (0 < total → ∀ r,
            (AccumulateCounts.collectCounts isNearAddOneLimit s₁.forest pass outside
                a).1.finishCounts.counts r = a.total r +
              ((trees 0).map fun t => t.weight ruleWeights / total * (t.uses r : K)).sum) := by
  rcases genioRead_text h memory₁ max₁ hspace₁ with ⟨s₁, hread₁, hforest₁, -⟩
  rcases allocRead_text h memory₂ max₂ hspace₂ with ⟨s₂, hread₂, hforest₂, -⟩
  refine ⟨s₁, s₂, hread₁, hread₂, hforest₂.trans hforest₁.symm, ?_, ?_⟩
  · rw [hforest₁]
    exact (h.isTree hshares).isForest.exists_expansion
  · rw [hforest₁]
    intro trees htrees inside outside a near
    obtain ⟨hpos, hinside, hcontribution⟩ := h.passes hor hshares hw htrees inside
    refine ⟨hinside 0 hpos, ?_⟩
    intro htotal r
    rw [AccumulateCounts.counts_finishCounts,
      FForest.total_collectCounts (by rw [hinside 0 hpos]; exact htotal), hcontribution,
      hinside 0 hpos, FForest.expectedUses, ← List.sum_map_mul_left]
    congr 2
    apply List.map_congr_left
    intro t _
    rw [div_eq_inv_mul, mul_assoc]

end Root

/-- The text `(OR 2 #1(1) #1)`, with two references to the second alternative. -/
theorem isForestText_alternatives : IsForestText
    (.node none orInt (.leaf 2 (.node (some 1) 1 .nil (.ref 1 .nil))) .nil)
    (.node orInt (.node 2 .nil (.node 1 .nil (.ref 2 .nil))) .nil) "(OR 2 #1(1) #1)".toList [] :=
  isForestText_render (by simp [TextItems.Fit, orInt]) rfl (by decide)

theorem sharesDone_alternatives : (FForest.mk
    ((Items.node orInt (.node 2 .nil (.node 1 .nil (.ref 2 .nil))) .nil).layout 0)).SharesDone := by
  intro i hi t ht
  change i < 4 at hi
  interval_cases i
  · cases ht
  · cases ht
  · cases ht
  · obtain rfl : 2 = t := Label.pointer.inj ht
    decide

theorem collectCounts_expected_alternatives :
    ∃ s₁ s₂, genioRead (fun _ => default) 5 0 "(OR 2 #1(1) #1)".toList = .ok s₁ ∧
      allocRead (fun _ => default) 5 0 "(OR 2 #1(1) #1)".toList = .ok s₂ ∧ s₂.forest = s₁.forest ∧
      (∃ trees, s₁.forest.IsExpansion trees) ∧
      ∀ trees, s₁.forest.IsExpansion trees →
        ∀ (inside outside : ℕ → ℚ) (a : AccumulateCounts ℚ) (isNearAddOneLimit : ℚ → Bool),
          let total := ((trees 0).map (RTree.weight fun _ => 1 / 2)).sum
          let pass := s₁.forest.computeInside (fun _ => 1 / 2) inside
          pass.inside 0 = total ∧ (0 < total → ∀ r,
            (AccumulateCounts.collectCounts isNearAddOneLimit s₁.forest pass outside
                a).1.finishCounts.counts r = a.total r +
              ((trees 0).map fun t => t.weight (fun _ => 1 / 2) / total * (t.uses r : ℚ)).sum) :=
  collectCounts_expected isForestText_alternatives (by simp [Items.NoEmptyOr, orInt])
    sharesDone_alternatives (fun _ => default) (fun _ => default) 0 0 (by decide) (by decide)
    fun _ => by norm_num

/-- In the text `#1(1 #1)` a node shares itself: it has no tree. -/
theorem isForestText_cyclic : IsForestText (.node (some 1) 1 (.ref 1 .nil) .nil)
    (.node 1 (.ref 0 .nil) .nil) "#1(1 #1)".toList [] :=
  isForestText_render (by simp [TextItems.Fit]) rfl (by decide)

/-- A node that has itself as its only child has no tree. -/
theorem eq_nil_of_selfShared {rule : ℕ} {ts : List RTree}
    (h : ts = [ts].sections.map (RTree.node rule)) : ts = [] := by
  have hno : ∀ n, ∀ t ∈ ts, sizeOf t ≠ n := by
    intro n
    induction n using Nat.strongRecOn with
    | ind n ih =>
      intro t ht hn
      rw [h] at ht
      obtain ⟨s, hs, rfl⟩ := List.mem_map.mp ht
      rw [List.mem_sections] at hs
      cases hs with
      | cons hkid hnil =>
        cases hnil
        refine ih _ ?_ _ hkid rfl
        rw [← hn]
        simp
        omega
  exact List.eq_nil_iff_forall_not_mem.mpr fun t ht => hno _ t ht rfl

theorem trees_cyclic {trees : ℕ → List RTree} (h : FForest.IsExpansion
    ⟨(Items.node 1 (.ref 0 .nil) .nil).layout 0⟩ trees) : trees 0 = [] := by
  have hroot : trees 0 = [trees 1].sections.map (RTree.node 1) := h 0 (by decide)
  have hpointer : trees 1 = trees 0 := h 1 (by decide)
  rw [hpointer] at hroot
  exact eq_nil_of_selfShared hroot

/-- The text `(1 (OR) 2)`, with an alternative that has no children. -/
theorem isForestText_emptyOr : IsForestText (.node none 1 (.node none orInt .nil (.leaf 2 .nil)) .nil)
    (.node 1 (.node orInt .nil (.node 2 .nil .nil)) .nil) "(1 (OR) 2)".toList [] :=
  isForestText_render (by simp [TextItems.Fit, orInt]) rfl (by decide)

theorem trees_emptyOr {trees : ℕ → List RTree} (h : FForest.IsExpansion
    ⟨(Items.node 1 (.node orInt .nil (.node 2 .nil .nil)) .nil).layout 0⟩ trees) : trees 0 = [] := by
  have hroot : trees 0 = [trees 1, trees 2].sections.map (RTree.node 1) := h 0 (by decide)
  have hor : trees 1 = [] := h 1 (by decide)
  rw [hroot, hor]
  simp

/-- Neither text has a tree, but both have a positive inside value. -/
theorem inside_without_trees :
    (IsForestText (.node (some 1) 1 (.ref 1 .nil) .nil) (.node 1 (.ref 0 .nil) .nil)
        "#1(1 #1)".toList [] ∧
      (∀ trees, FForest.IsExpansion ⟨(Items.node 1 (.ref 0 .nil) .nil).layout 0⟩ trees →
        trees 0 = []) ∧
      (FForest.computeInside ⟨(Items.node 1 (.ref 0 .nil) .nil).layout 0⟩ (fun _ => 1 / 2)
        fun _ => 0).inside 0 = (1 / 4 : ℚ)) ∧
    IsForestText (.node none 1 (.node none orInt .nil (.leaf 2 .nil)) .nil)
        (.node 1 (.node orInt .nil (.node 2 .nil .nil)) .nil) "(1 (OR) 2)".toList [] ∧
      (∀ trees, FForest.IsExpansion
        ⟨(Items.node 1 (.node orInt .nil (.node 2 .nil .nil)) .nil).layout 0⟩ trees → trees 0 = []) ∧
      (FForest.computeInside ⟨(Items.node 1 (.node orInt .nil (.node 2 .nil .nil)) .nil).layout 0⟩
        (fun _ => 1 / 2) fun _ => 0).inside 0 = (1 / 8 : ℚ) :=
  ⟨⟨isForestText_cyclic, fun _ => trees_cyclic, by decide +kernel⟩,
    isForestText_emptyOr, fun _ => trees_emptyOr, by decide +kernel⟩

end Carmel.Forest
