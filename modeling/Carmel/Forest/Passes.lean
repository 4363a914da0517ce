/-
# Passes over a forest

Several functions go through the nodes as they lie in memory and fold into every node
what its children hold. They differ only in what is held, in what a node begins with
and in how a child is folded in.
-/

import Carmel.Forest.Print

namespace Carmel.Forest

universe u

/-- What a pass does at a node: a pointer is given what the shared node holds, a rule
begins with its number, an alternative with its first child. Each also knows what the
node held before, or where the child is. -/
structure Pass (V : Type u) where
  pointer : V → V → V
  ruleInit : ℕ → V → V
  ruleFold : V → ℕ → V → V
  orInit : ℕ → V → V
  orFold : V → ℕ → V → V

namespace FForest

section Code

variable {V : Type u} (f : FForest) (p : Pass V)

mutual

/-- The pass at the node `b`. -/
def passRec : ℕ → ℕ → (ℕ → V) → ℕ → V
  | 0, _, s => s
  | fuel + 1, b, s =>
    let e := (f.node b).next
    match (f.node b).label with
    | .pointer shared => Function.update s b (p.pointer (s b) (s shared))
    | .integer ruleOr =>
      if ruleOr = orInt then
        let s := passRec fuel (b + 1) s
        passChildren fuel p.orFold b e (f.node (b + 1)).next
          (Function.update s b (p.orInit (b + 1) (s (b + 1))))
      else
        passChildren fuel p.ruleFold b e (b + 1)
          (Function.update s b (p.ruleInit ruleOr (s b)))

/-- The loop over the children `b` of the node `i`. -/
def passChildren : ℕ → (V → ℕ → V → V) → ℕ → ℕ → ℕ → (ℕ → V) → ℕ → V
  | 0, _, _, _, _, s => s
  | fuel + 1, fold, i, e, b, s =>
    if b < e then
      let s := passRec fuel b s
      passChildren fuel fold i e (f.node b).next (Function.update s i (fold (s i) b (s b)))
    else s

end

/-- The pass from the first node, over what was held before. -/
def pass (s : ℕ → V) : ℕ → V := f.passRec p (2 * f.size + 1) 0 s

end Code

variable {V : Type u} {f : FForest} {p : Pass V} {fold : V → ℕ → V → V} {x : V}
variable {b e i j : ℕ} {s s' s₁ : ℕ → V}

/-- A stretch of whole nodes, in which pointers share nodes that are done. -/
def Closed (f : FForest) (b e : ℕ) : Prop :=
  ∀ j, b ≤ j → j < e → (j < (f.node j).next ∧ (f.node j).next ≤ e) ∧
    ∀ t, (f.node j).label = .pointer t → t < (f.node t).next ∧ (f.node t).next ≤ j

theorem mem_siblings (h : f.Closed b e) {stop : ℕ} (hstop : stop ≤ e) (fuel : ℕ) {i c : ℕ}
    (hi : b ≤ i) (hc : c ∈ f.siblings stop fuel i) : i ≤ c ∧ c < stop := by
  induction fuel generalizing i with
  | zero => simp [siblings] at hc
  | succ fuel ih =>
    rw [siblings] at hc
    by_cases hlt : i < stop
    · rw [if_pos hlt] at hc
      rcases List.mem_cons.mp hc with rfl | hc
      · exact ⟨Nat.le_refl _, hlt⟩
      · have hnext := (h i hi (by omega)).1.1
        have := ih (by omega) hc
        omega
    · simp [hlt] at hc

theorem mem_children (h : f.Closed b e) (hb : b ≤ j) (he : j < e) {c : ℕ}
    (hc : c ∈ f.children j) : j < c ∧ c < (f.node j).next :=
  mem_siblings h (h j hb he).1.2 _ (by omega) hc

/-- What the children at some places fold into. -/
def folded (fold : V → ℕ → V → V) (s : ℕ → V) (x : V) (places : List ℕ) : V :=
  places.foldl (fun x c => fold x c (s c)) x

theorem folded_congr {places : List ℕ} (h : ∀ c ∈ places, s' c = s c) :
    folded fold s' x places = folded fold s x places := by
  induction places generalizing x with
  | nil => rfl
  | cons c places ih =>
    rw [folded, List.foldl_cons, h c List.mem_cons_self]
    exact ih fun d hd => h d (List.mem_cons_of_mem c hd)

/-- A node holds what it gets from the nodes it leads to. -/
def Holds (f : FForest) (p : Pass V) (s : ℕ → V) (i : ℕ) : Prop :=
  match (f.node i).label with
  | .pointer shared => ∃ old, s i = p.pointer old (s shared)
  | .integer rule =>
    if rule = orInt then
      ∃ c cs, f.children i = c :: cs ∧ s i = folded p.orFold s (p.orInit c (s c)) cs
    else ∃ old, s i = folded p.ruleFold s (p.ruleInit rule old) (f.children i)

/-- What a node in a closed stretch holds does not depend on a node around it. -/
theorem Holds.congr (hs : f.Holds p s j) (h : f.Closed b e) (hib : i < b)
    (hie : e ≤ (f.node i).next) (hb : b ≤ j) (he : j < e) (heq : ∀ k < e, k ≠ i → s' k = s k) :
    f.Holds p s' j := by
  have hself : s' j = s j := heq j he (by omega)
  have hchildren : ∀ c ∈ f.children j, s' c = s c := by
    intro c hc
    have := mem_children h hb he hc
    have := (h j hb he).1.2
    exact heq c (by omega) (by omega)
  unfold Holds at hs ⊢
  rw [hself]
  cases hlabel : (f.node j).label with
  | pointer t =>
    have hshared : s' t = s t := by
      have := (h j hb he).2 t hlabel
      apply heq t (by omega)
      intro heq
      rw [heq] at this
      omega
    simp only [hlabel] at hs ⊢
    rwa [hshared]
  | integer rule =>
    simp only [hlabel] at hs ⊢
    by_cases hrule : rule = orInt
    · rw [if_pos hrule] at hs ⊢
      obtain ⟨c, cs, hc, hs⟩ := hs
      rw [hc] at hchildren
      refine ⟨c, cs, hc, ?_⟩
      rw [hs, hchildren c List.mem_cons_self]
      exact (folded_congr fun d hd => hchildren d (List.mem_cons_of_mem c hd)).symm
    · rw [if_neg hrule] at hs ⊢
      obtain ⟨old, hs⟩ := hs
      exact ⟨old, hs.trans (folded_congr hchildren).symm⟩

/-- The pass has been at the nodes from `b` to `e`. -/
structure PassDone (f : FForest) (p : Pass V) (b e : ℕ) (s s' : ℕ → V) : Prop where
  frame : ∀ j, j < b ∨ e ≤ j → s' j = s j
  holds : ∀ j, b ≤ j → j < e → f.Holds p s' j

/-- The pass has been at the children from `b` to `e`, at `places`; their parent `i`
held `x`. -/
structure ChildrenDone (f : FForest) (p : Pass V) (fold : V → ℕ → V → V) (i : ℕ) (x : V)
    (b e : ℕ) (places : List ℕ) (s s' : ℕ → V) : Prop where
  frame : ∀ j, j ≠ i → j < b ∨ e ≤ j → s' j = s j
  parent : s' i = folded fold s' x places
  holds : ∀ j, b ≤ j → j < e → f.Holds p s' j

/-- The first child, and then the others. -/
theorem PassDone.children {mid : ℕ} {places : List ℕ} (h : PassDone f p b mid s s₁)
    (h' : ChildrenDone f p fold i x mid e places (Function.update s₁ i x) s')
    (hclosed : f.Closed b mid) (hib : i < b) (hie : mid ≤ (f.node i).next) (hbm : b < mid)
    (hme : mid ≤ e) :
    (∀ j, j ≠ i → j < b ∨ e ≤ j → s' j = s j) ∧ (∀ j, b ≤ j → j < e → f.Holds p s' j) ∧
      s' b = s₁ b := by
  have hsame : ∀ j < mid, j ≠ i → s' j = s₁ j := by
    intro j hj hji
    rw [h'.frame j hji (.inl hj), Function.update_of_ne hji]
  refine ⟨?_, ?_, hsame b hbm (Nat.ne_of_gt hib)⟩
  · intro j hji hj
    rw [h'.frame j hji (by omega), Function.update_of_ne hji, h.frame j (by omega)]
  · intro j hb he
    by_cases hj : j < mid
    · exact (h.holds j hb hj).congr hclosed hib hie hb hj hsame
    · exact h'.holds j (by omega) he

end FForest

namespace Items

open FForest

variable {V : Type u} {f : FForest} {p : Pass V}
variable {b i label target : ℕ} {items kids rest : Items} {s : ℕ → V}

/-- Siblings are a stretch of whole nodes. -/
theorem Laid.next_mem (h : items.Laid f.node b) {j : ℕ} (hb : b ≤ j) (hj : j < b + items.size) :
    j < (f.node j).next ∧ (f.node j).next ≤ b + items.size := by
  induction items generalizing b with
  | nil =>
    simp only [size_nil] at hj
    omega
  | ref target rest ih =>
    rw [size_ref] at hj ⊢
    by_cases hjb : j = b
    · rw [hjb, h.1]
      show b < b + 1 ∧ b + 1 ≤ _
      omega
    · have := ih h.2 (by omega) (by omega)
      omega
  | node label kids rest ihk ihr =>
    rw [size_node] at hj ⊢
    by_cases hjb : j = b
    · rw [hjb, h.1]
      show b < b + 1 + kids.size ∧ b + 1 + kids.size ≤ _
      omega
    · by_cases hkids : j < b + 1 + kids.size
      · have := ihk h.2.1 (by omega) hkids
        omega
      · have := ihr h.2.2 (by omega) (by omega)
        omega

/-- Siblings within a closed stretch are a closed stretch. -/
theorem Laid.closed {b' e : ℕ} (h : items.Laid f.node b) (hclosed : f.Closed b' e) (hb : b' ≤ b)
    (he : b + items.size ≤ e) : f.Closed b (b + items.size) := by
  intro j hbj hj
  exact ⟨h.next_mem hbj hj, (hclosed j (by omega) (by omega)).2⟩

/-- The pass at siblings, and at the children of an alternative, which begins with the
first one. -/
structure PassedOver (f : FForest) (p : Pass V) (items : Items) (b : ℕ) : Prop where
  children : ∀ (fold : V → ℕ → V → V) (i fuel : ℕ) (s : ℕ → V), i < b →
    b + items.size ≤ (f.node i).next → 2 * items.size ≤ fuel →
    ChildrenDone f p fold i (s i) b (b + items.size) (items.places b) s
      (f.passChildren p fuel fold i (b + items.size) b s)
  alternatives : items ≠ nil → ∀ (i fuel : ℕ) (s : ℕ → V), i < b →
    b + items.size ≤ (f.node i).next → 2 * items.size ≤ fuel →
    ∃ cs s', items.places b = b :: cs ∧
      f.passChildren p fuel p.orFold i (b + items.size) (f.node b).next
        (Function.update (f.passRec p fuel b s) i (p.orInit b (f.passRec p fuel b s b))) = s' ∧
      ChildrenDone f p p.orFold i (p.orInit b (s' b)) b (b + items.size) cs s s'

variable (rest) in
theorem passedOver_cons {mid : ℕ} (hnext : (f.node b).next = mid)
    (hmid : mid + rest.size = b + items.size) (hbm : b < mid)
    (hplaces : items.places b = b :: rest.places mid)
    (hclosed : f.Closed b mid) (hrest : rest.PassedOver f p mid)
    (hfirst : ∀ (fuel : ℕ) (s : ℕ → V), 2 * items.size ≤ fuel + 1 →
      PassDone f p b mid s (f.passRec p fuel b s)) :
    items.PassedOver f p b := by
  constructor
  · intro fold i fuel s hib hie hfuel
    cases fuel with
    | zero => omega
    | succ fuel =>
      have hnode := hfirst fuel s hfuel
      rw [passChildren, if_pos (by omega), hnext, ← hmid]
      have hothers := hrest.children fold i fuel (Function.update (f.passRec p fuel b s) i
        (fold (f.passRec p fuel b s i) b (f.passRec p fuel b s b))) (by omega) (by omega)
        (by omega)
      rw [Function.update_self] at hothers
      obtain ⟨hframe, hholds, hb⟩ :=
        hnode.children hothers hclosed hib (by omega) hbm (by omega)
      refine ⟨hframe, ?_, hholds⟩
      rw [hplaces, folded, List.foldl_cons, hb, ← hnode.frame i (by omega)]
      exact hothers.parent
  · intro _ i fuel s hib hie hfuel
    have hnode := hfirst fuel s (by omega)
    refine ⟨rest.places mid, _, hplaces, rfl, ?_⟩
    rw [hnext, ← hmid]
    have hothers := hrest.children p.orFold i fuel (Function.update (f.passRec p fuel b s) i
      (p.orInit b (f.passRec p fuel b s b))) (by omega) (by omega) (by omega)
    rw [Function.update_self] at hothers
    obtain ⟨hframe, hholds, hb⟩ := hnode.children hothers hclosed hib (by omega) hbm (by omega)
    refine ⟨hframe, ?_, hholds⟩
    rw [hb]
    exact hothers.parent

/-- A pointer is given what the node that it shares holds. -/
theorem passDone_ref (h : (f.node b).label = .pointer target) (hne : target ≠ b) (fuel : ℕ) :
    PassDone f p b (b + 1) s (f.passRec p (fuel + 1) b s) := by
  rw [passRec, h]
  constructor
  · intro j hj
    exact Function.update_of_ne (by omega) ..
  · intro j hb hj
    obtain rfl : j = b := by omega
    unfold Holds
    simp only [h]
    rw [Function.update_self, Function.update_of_ne hne]
    exact ⟨s j, rfl⟩

/-- A node holds what its children fold into. -/
theorem passDone_node (h : (node label kids rest).Laid f.node b)
    (hor : label = orInt → kids ≠ nil) (hkids : kids.PassedOver f p (b + 1)) {fuel : ℕ}
    (hfuel : 2 * kids.size ≤ fuel) :
    PassDone f p b (b + 1 + kids.size) s (f.passRec p (fuel + 1) b s) := by
  have hnext : (f.node b).next = b + 1 + kids.size := by rw [h.1]
  have hlabel : (f.node b).label = .integer label := by rw [h.1]
  have hchildren := children_eq h
  rw [passRec, hlabel]
  simp only [hnext]
  by_cases hrule : label = orInt
  · simp only [hrule, if_true]
    obtain ⟨cs, s', hcs, hs', hdone⟩ :=
      hkids.alternatives (hor hrule) b fuel s (by omega) (by omega) hfuel
    rw [hs']
    constructor
    · intro j hj
      exact hdone.frame j (by omega) (by omega)
    · intro j hb hj
      by_cases hjb : j = b
      · subst hjb
        unfold Holds
        simp only [hlabel, hrule, if_true]
        exact ⟨j + 1, cs, hchildren.trans hcs, hdone.parent⟩
      · exact hdone.holds j (by omega) hj
  · simp only [hrule, if_false]
    have hdone := hkids.children p.ruleFold b fuel (Function.update s b (p.ruleInit label (s b)))
      (by omega) (by omega) hfuel
    rw [Function.update_self] at hdone
    constructor
    · intro j hj
      rw [hdone.frame j (by omega) (by omega), Function.update_of_ne (by omega)]
    · intro j hb hj
      by_cases hjb : j = b
      · subst hjb
        unfold Holds
        simp only [hlabel, hrule, if_false]
        rw [hchildren]
        exact ⟨s j, hdone.parent⟩
      · exact hdone.holds j (by omega) hj

/-- A pass goes through siblings as they are laid out. -/
theorem passedOver (h : items.Laid f.node b) (hor : items.NoEmptyOr)
    (hclosed : f.Closed b (b + items.size)) : items.PassedOver f p b := by
  induction items generalizing b with
  | nil =>
    constructor
    · intro fold i fuel s hib hie hfuel
      have hsame : f.passChildren p fuel fold i (b + 0) b s = s := by
        cases fuel with
        | zero => rfl
        | succ fuel => rw [passChildren, if_neg (by omega)]
      rw [size_nil, hsame]
      exact ⟨fun _ _ _ => rfl, rfl, fun j hb hj => by omega⟩
    · intro hne
      exact absurd rfl hne
  | ref target rest ih =>
    rw [size_ref] at hclosed
    have hlabel : (f.node b).label = .pointer target := by rw [h.1]
    have hshared := (hclosed b (Nat.le_refl _) (by omega)).2 target hlabel
    have hfirst : (ref target nil).Laid f.node b := ⟨h.1, trivial⟩
    apply passedOver_cons rest (by rw [h.1]) (by rw [size_ref]; omega) (Nat.lt_succ_self b) rfl
    · exact hfirst.closed hclosed (Nat.le_refl _) (by rw [size_ref, size_nil]; omega)
    · exact ih h.2 hor (h.2.closed hclosed (by omega) (by omega))
    · intro fuel s hfuel
      cases fuel with
      | zero =>
        rw [size_ref] at hfuel
        omega
      | succ fuel =>
        apply passDone_ref hlabel
        intro heq
        rw [heq] at hshared
        omega
  | node label kids rest ihk ihr =>
    rw [size_node] at hclosed
    have hfirst : (node label kids nil).Laid f.node b := ⟨h.1, h.2.1, trivial⟩
    have hsize : b + (node label kids nil).size = b + 1 + kids.size := by
      rw [size_node, size_nil]
      omega
    have hclosed' := hfirst.closed hclosed (Nat.le_refl _) (by omega)
    rw [hsize] at hclosed'
    apply passedOver_cons rest (by rw [h.1]) (by rw [size_node]; omega) (by omega) rfl hclosed'
    · exact ihr h.2.2 hor.2.2 (h.2.2.closed hclosed (by omega) (by omega))
    · intro fuel s hfuel
      rw [size_node] at hfuel
      cases fuel with
      | zero => omega
      | succ fuel =>
        apply passDone_node h hor.1 _ (by omega)
        exact ihk h.2.1 hor.2.1 (h.2.1.closed hclosed (by omega) (by omega))

/-- After a pass over one tree every node holds what it gets from the nodes it leads to. -/
theorem holds_pass {label : ℕ} {kids : Items}
    (h : (node label kids nil).Laid f.node 0) (hsize : f.size = (node label kids nil).size)
    (hor : (node label kids nil).NoEmptyOr) (hclosed : f.Closed 0 f.size) (s : ℕ → V) :
    ∀ j < f.size, f.Holds p (f.pass p s) j := by
  rw [size_node, size_nil] at hsize
  have hkids : kids.PassedOver f p (0 + 1) := passedOver h.2.1 hor.2.1
    (h.2.1.closed hclosed (Nat.zero_le _) (by omega))
  have hdone := passDone_node (s := s) h hor.1 hkids (show 2 * kids.size ≤ 2 * f.size by omega)
  intro j hj
  exact hdone.holds j (Nat.zero_le _) (by omega)

end Items

end Carmel.Forest
