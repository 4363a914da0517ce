/-
# Forests without sharing

The copies of a forest are a table of sub-forests without pointers, one for each node; the
copy of the root laid out again is the forest that is meant. A node and its copy have
corresponding children, and the inside pass gives them the same value.
-/

import Carmel.Forest.Expected

namespace Carmel.Forest

universe u

namespace Items

/-- Nodes beside each other, each with its label and the items below it. -/
def ofList : List (ℕ × Items) → Items
  | [] => nil
  | (label, kids) :: nodes => node label kids (ofList nodes)

/-- There is no pointer. -/
def NoRef : Items → Prop
  | nil => True
  | ref _ _ => False
  | node _ kids rest => kids.NoRef ∧ rest.NoRef

end Items

namespace FForest

/-- The node `i` and the items below it without pointers, given those of the nodes it
leads to. -/
def copy (f : FForest) (copies : ℕ → ℕ × Items) (i : ℕ) : ℕ × Items :=
  match (f.node i).label with
  | .pointer t => copies t
  | .integer rule => (rule, Items.ofList ((f.children i).map copies))

/-- The copies that are made in so many rounds. -/
def copiesUpTo (f : FForest) : ℕ → ℕ → ℕ × Items
  | 0 => fun _ => (0, .nil)
  | n + 1 => f.copy (copiesUpTo f n)

/-- A table of the copies of every node. -/
def IsUnshared (f : FForest) (copies : ℕ → ℕ × Items) : Prop :=
  ∀ i < f.size, copies i = f.copy copies i

/-- The copy of the root, laid out. -/
def unshared (copies : ℕ → ℕ × Items) : FForest :=
  ⟨(Items.node (copies 0).1 (copies 0).2 .nil).layout 0⟩

variable {f g : FForest} {copies : ℕ → ℕ × Items} {i c c' t rule : ℕ}

/-- Every pointer of a forest can be replaced. -/
theorem IsForest.exists_unshared (h : f.IsForest) : ∃ copies, f.IsUnshared copies := by
  have hrounds : ∀ n, f.copiesUpTo (n + 1) = f.copy (f.copiesUpTo n) := fun _ => rfl
  apply h.exists_table hrounds
  intro i hi m m' hm
  rw [copy, copy]
  cases hlabel : (f.node i).label with
  | pointer t =>
    obtain ⟨ht, hdone⟩ := h.shared hi hlabel
    exact hm t ht hdone
  | integer rule => simp only [h.map_children hi hm]

/-- The copy of `c` lies at `c'`. -/
def CopiedTo (g : FForest) (copies : ℕ → ℕ × Items) (c c' : ℕ) : Prop :=
  ∃ rest, (Items.node (copies c).1 (copies c).2 rest).Laid g.node c'

/-- The copies of nodes lie one after another. -/
theorem forall₂_copiedTo {cs : List ℕ} {b : ℕ} (h : (Items.ofList (cs.map copies)).Laid g.node b) :
    List.Forall₂ (g.CopiedTo copies) cs ((Items.ofList (cs.map copies)).places b) := by
  induction cs generalizing b with
  | nil => exact .nil
  | cons c cs ih => exact .cons ⟨_, h⟩ (ih h.2.2)

/-- What a pointer shares has the same copy. -/
theorem CopiedTo.pointer (h : g.CopiedTo copies c c') (hcopies : f.IsUnshared copies)
    (hc : c < f.size) (hlabel : (f.node c).label = .pointer t) : g.CopiedTo copies t c' := by
  have heq : copies c = copies t := by rw [hcopies c hc, copy, hlabel]
  unfold CopiedTo at h ⊢
  rwa [heq] at h

/-- A node and its copy have the same label, and the children of one are copied to those
of the other. -/
theorem CopiedTo.integer (h : g.CopiedTo copies c c') (hcopies : f.IsUnshared copies)
    (hc : c < f.size) (hlabel : (f.node c).label = .integer rule) :
    (g.node c').label = .integer rule ∧
      List.Forall₂ (g.CopiedTo copies) (f.children c) (g.children c') := by
  obtain ⟨rest, h⟩ := h
  have heq : copies c = (rule, Items.ofList ((f.children c).map copies)) := by
    rw [hcopies c hc, copy, hlabel]
  rw [heq] at h
  rw [Items.children_eq h]
  exact ⟨by rw [h.1], forall₂_copiedTo h.2.1⟩

end FForest

namespace Items

variable {f : FForest} {b i j rule : ℕ} {items : Items} {nodes : List (ℕ × Items)}

theorem noRef_ofList (h : ∀ x ∈ nodes, x.2.NoRef) : (ofList nodes).NoRef := by
  induction nodes with
  | nil => trivial
  | cons x nodes ih =>
    exact ⟨h x List.mem_cons_self, ih fun y hy => h y (List.mem_cons_of_mem x hy)⟩

theorem noEmptyOr_ofList (h : ∀ x ∈ nodes, (x.1 = orInt → x.2 ≠ nil) ∧ x.2.NoEmptyOr) :
    (ofList nodes).NoEmptyOr := by
  induction nodes with
  | nil => trivial
  | cons x nodes ih =>
    obtain ⟨hor, hkids⟩ := h x List.mem_cons_self
    exact ⟨hor, hkids, ih fun y hy => h y (List.mem_cons_of_mem x hy)⟩

/-- Every node that is not a pointer has its children behind it. -/
theorem Laid.exists_node (h : items.Laid f.node b) (hor : items.NoEmptyOr) (hb : b ≤ i)
    (hi : i < b + items.size) (hlabel : (f.node i).label = .integer rule) :
    ∃ kids rest, (node rule kids rest).Laid f.node i ∧ (rule = orInt → kids ≠ nil) := by
  induction items generalizing b with
  | nil =>
    simp only [size_nil] at hi
    omega
  | ref target rest ih =>
    rw [size_ref] at hi
    by_cases hib : i = b
    · rw [hib, h.1] at hlabel
      cases hlabel
    · exact ih h.2 hor (by omega) (by omega)
  | node label kids rest ihk ihr =>
    rw [size_node] at hi
    by_cases hib : i = b
    · subst hib
      have hrule : label = rule := by
        rw [h.1] at hlabel
        exact Label.integer.inj hlabel
      subst hrule
      exact ⟨kids, rest, h, hor.1⟩
    · by_cases hkids : i < b + 1 + kids.size
      · exact ihk h.2.1 hor.2.1 (by omega) hkids
      · exact ihr h.2.2 hor.2.2 (by omega) (by omega)

theorem Laid.label_of_noRef (h : items.Laid f.node b) (hno : items.NoRef) (hb : b ≤ i)
    (hi : i < b + items.size) : ∃ rule, (f.node i).label = .integer rule := by
  induction items generalizing b with
  | nil =>
    simp only [size_nil] at hi
    omega
  | ref target rest ih => exact hno.elim
  | node label kids rest ihk ihr =>
    rw [size_node] at hi
    by_cases hib : i = b
    · rw [hib, h.1]
      exact ⟨label, rfl⟩
    · by_cases hkids : i < b + 1 + kids.size
      · exact ihk h.2.1 hno.1 (by omega) hkids
      · exact ihr h.2.2 hno.2 (by omega) (by omega)

/-- Without pointers a layout is closed. -/
theorem Laid.closed_of_noRef (h : items.Laid f.node b) (hno : items.NoRef) :
    f.Closed b (b + items.size) := by
  intro j hb hj
  refine ⟨h.next_mem hb hj, ?_⟩
  intro t ht
  obtain ⟨rule, hrule⟩ := h.label_of_noRef hno hb hj
  rw [hrule] at ht
  cases ht

/-- An alternative in a layout has children. -/
theorem Laid.children_ne_nil (h : items.Laid f.node b) (hor : items.NoEmptyOr) (hb : b ≤ i)
    (hi : i < b + items.size) (hlabel : (f.node i).label = .integer orInt) : f.children i ≠ [] := by
  obtain ⟨kids, rest, hlaid, hkids⟩ := h.exists_node hor hb hi hlabel
  rw [children_eq hlaid]
  cases kids with
  | nil => exact absurd rfl (hkids rfl)
  | ref => exact List.cons_ne_nil _ _
  | node => exact List.cons_ne_nil _ _

end Items

namespace FForest

variable {f g : FForest} {copies : ℕ → ℕ × Items} {i : ℕ} {items : Items}

/-- Copies have no pointers, and their alternatives have children. -/
theorem IsForest.copies_spec (hforest : f.IsForest) (hlaid : items.Laid f.node 0)
    (hsize : f.size = items.size) (hor : items.NoEmptyOr) (hcopies : f.IsUnshared copies) :
    ∀ i < f.size, (copies i).2.NoRef ∧ ((copies i).1 = orInt → (copies i).2 ≠ .nil) ∧
      (copies i).2.NoEmptyOr := by
  apply done_induction
  intro i hi ih
  rw [hcopies i hi, copy]
  cases hlabel : (f.node i).label with
  | pointer t =>
    obtain ⟨ht, hdone⟩ := hforest.shared hi hlabel
    exact ih t ht hdone
  | integer rule =>
    have hkids : ∀ x ∈ (f.children i).map copies,
        x.2.NoRef ∧ (x.1 = orInt → x.2 ≠ .nil) ∧ x.2.NoEmptyOr := by
      intro x hx
      obtain ⟨c, hc, rfl⟩ := List.mem_map.mp hx
      obtain ⟨hcs, _, hdone⟩ := hforest.children hi hc
      exact ih c hcs hdone
    refine ⟨Items.noRef_ofList fun x hx => (hkids x hx).1, ?_,
      Items.noEmptyOr_ofList fun x hx => (hkids x hx).2⟩
    rintro rfl hnil
    have hne := hlaid.children_ne_nil hor (Nat.zero_le i) (by omega) hlabel
    cases hchildren : f.children i with
    | nil => exact hne hchildren
    | cons c cs =>
      rw [hchildren] at hnil
      cases hnil

theorem map_eq_of_forall₂ {K : Type u} {R : ℕ → ℕ → Prop} {x y : ℕ → K} {cs ds : List ℕ}
    (h : List.Forall₂ R cs ds) (hall : ∀ c ∈ cs, ∀ d ∈ ds, R c d → y d = x c) :
    ds.map y = cs.map x := by
  induction h with
  | nil => rfl
  | @cons c d cs ds hfirst _ ih =>
    rw [List.map_cons, List.map_cons, hall c List.mem_cons_self d List.mem_cons_self hfirst]
    congr 1
    apply ih
    intro c' hc' d' hd'
    exact hall c' (List.mem_cons_of_mem c hc') d' (List.mem_cons_of_mem d hd')

/-- A node and its copy have the same inside value. -/
theorem inside_copy {K : Type u} [CommSemiring K] {w m m' : ℕ → K} (hforest : f.IsForest)
    (hforest' : g.IsForest) (hcopies : f.IsUnshared copies)
    (hm : ∀ j < f.size, m j = f.insideOf w m j) (hm' : ∀ j < g.size, m' j = g.insideOf w m' j) :
    ∀ c < f.size, ∀ c' < g.size, g.CopiedTo copies c c' → m' c' = m c := by
  apply done_induction
  intro c hc ih c' hc' hcopied
  rw [hm c hc, insideOf]
  cases hlabel : (f.node c).label with
  | pointer t =>
    obtain ⟨ht, hdone⟩ := hforest.shared hc hlabel
    exact ih t ht hdone c' hc' (hcopied.pointer hcopies hc hlabel)
  | integer rule =>
    obtain ⟨hlabel', hchildren⟩ := hcopied.integer hcopies hc hlabel
    have hvalues : (g.children c').map m' = (f.children c).map m := by
      apply map_eq_of_forall₂ hchildren
      intro d hd d' hd' hcopied
      obtain ⟨hds, _, hdone⟩ := hforest.children hc hd
      exact ih d hds hdone d' (hforest'.children hc' hd').1 hcopied
    rw [hm' c' hc', insideOf, hlabel']
    simp only [hvalues]

end FForest

end Carmel.Forest
