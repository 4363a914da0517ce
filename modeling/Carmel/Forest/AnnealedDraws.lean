/-
# Draws under annealing

With a power other than one, a draw that goes through a pointer goes on with other shares
than a draw in the forest without sharing. Both record the same, whatever the forest and
the random numbers, if the power is one or all weights are zero, and only then.
-/

import Carmel.Forest.ChooseRandom

namespace Carmel.Forest

universe u v

namespace FForest

section Lengths

variable {K : Type u} [Field K] [LinearOrder K] {P : Type v} [One P]
variable {f : FForest} {pow : K → P → K} {random m : ℕ → K} {q : P} {v v' : Draw}
variable {a b i rule : ℕ}

/-- A draw from a node records at least one rule, and so does one from children if there
are any. -/
theorem length_lt_of_chooseRandom (l : ℕ) :
    (∀ {q b v v'}, f.chooseRandom pow random m l q b v = some v' →
        v.record.length < v'.record.length) ∧
      ∀ {q e b v v'}, f.chooseChildren pow random m l q e b v = some v' →
        v.record.length ≤ v'.record.length ∧ (b < e → v.record.length < v'.record.length) := by
  induction l with
  | zero => exact ⟨nofun, nofun⟩
  | succ l ih =>
    obtain ⟨ihnode, ihchildren⟩ := ih
    constructor
    · intro q b v v' h
      rw [chooseRandom] at h
      split at h
      · exact ihnode h
      · split_ifs at h
        · exact ihnode (v := ⟨v.record, v.drawn + 1⟩) h
        · have hle := (ihchildren h).1
          simp only [List.length_append, List.length_singleton] at hle
          omega
    · intro q e b v v' h
      rw [chooseChildren] at h
      by_cases hlt : b < e
      · rw [if_pos hlt] at h
        obtain ⟨v₁, hfirst, hrest⟩ := Option.bind_eq_some_iff.mp h
        have hmore := ihnode hfirst
        have hle := (ihchildren hrest).1
        exact ⟨by omega, fun _ => by omega⟩
      · rw [if_neg hlt] at h
        rw [Option.some.inj h]
        exact ⟨le_rfl, fun h => absurd h hlt⟩

theorem children_eq_nil_iff (h : f.IsForest) (hi : i < f.size) :
    f.children i = [] ↔ ¬ i + 1 < (f.node i).next := by
  have hnext := (h.closed i (Nat.zero_le i) hi).1.1
  constructor
  · intro hnil hlt
    obtain ⟨k, hk⟩ : ∃ k, (f.node i).next = k + 1 := ⟨(f.node i).next - 1, by omega⟩
    rw [children, hk, siblings, if_pos (by omega)] at hnil
    cases hnil
  · intro hnot
    exact siblings_eq_nil (by omega) _

/-- A rule records itself, and more if it has children. -/
theorem length_of_rule (h : f.IsForest) (hi : i < f.size)
    (hlabel : (f.node i).label = .integer rule) (hrule : rule ≠ orInt) {l : ℕ}
    (hchosen : f.chooseRandom pow random m l q i v = some v') :
    v'.record.length = v.record.length + 1 ↔ f.children i = [] := by
  rw [children_eq_nil_iff h hi]
  cases l with
  | zero => cases hchosen
  | succ l =>
    rw [chooseRandom, hlabel] at hchosen
    simp only [if_neg hrule] at hchosen
    have hmore := ((length_lt_of_chooseRandom l).2 hchosen).2
    simp only [List.length_append, List.length_singleton] at hmore
    cases l with
    | zero => cases hchosen
    | succ l =>
      rw [chooseChildren] at hchosen
      by_cases hlt : i + 1 < (f.node i).next
      · have := hmore hlt
        omega
      · rw [if_neg hlt] at hchosen
        rw [← Option.some.inj hchosen]
        simp [hlt]

variable [IsStrictOrderedRing K] in
/-- Between a leaf and a rule with children, the leaf is drawn by its share. -/
theorem length_of_pair (h : f.IsForest) (hi : i < f.size)
    (hlabel : (f.node i).label = .integer orInt) (hpair : f.children i = [a, b])
    (ha : (f.node a).label = .integer rule) (hb : (f.node b).label = .integer rule)
    (hrule : rule ≠ orInt) (hleaf : f.children a = []) (hmore : f.children b ≠ []) {l : ℕ}
    (hchosen : f.chooseRandom pow random m l q i v = some v') :
    v'.record.length = v.record.length + 1 ↔
      random v.drawn < pow (m a) q / (pow (m a) q + pow (m b) q) := by
  have hne : f.children i ≠ [] := by
    rw [hpair]
    exact List.cons_ne_nil _ _
  have hasize := (h.children hi (hpair ▸ List.mem_cons_self)).1
  have hbsize := (h.children hi (hpair ▸ List.mem_cons_of_mem a List.mem_cons_self)).1
  cases l with
  | zero => cases hchosen
  | succ l =>
    rw [chooseRandom_or h hi hlabel hne, hpair, pick, pick] at hchosen
    simp only [List.map_cons, List.map_nil, List.sum_cons, List.sum_nil, add_zero] at hchosen
    by_cases hneg : random v.drawn - pow (m a) q / (pow (m a) q + pow (m b) q) < 0
    · rw [if_pos hneg] at hchosen
      exact iff_of_true ((length_of_rule h hasize ha hrule hchosen).mpr hleaf) (sub_neg.mp hneg)
    · rw [if_neg hneg] at hchosen
      have hlen := (length_of_rule h hbsize hb hrule hchosen).not.mpr hmore
      exact iff_of_false hlen fun hlt => hneg (sub_neg.mpr hlt)

end Lengths

end FForest

section Copies

open FForest

variable {label : ℕ} {kids : Items} {copies : ℕ → ℕ × Items}

/-- What the two forests of a draw are like: the copy of the root is the root, and
corresponding nodes have the same inside values, which solve the inside equations. -/
structure Unshares {K : Type u} [Field K] (f g : FForest) (copies : ℕ → ℕ × Items) (w m m' : ℕ → K) :
    Prop where
  forest : f.IsForest
  forest' : g.IsForest
  root : 0 < f.size
  root' : 0 < g.size
  copied : g.CopiedTo copies 0 0
  nonempty : ∀ j < f.size, (f.node j).label = .integer orInt → f.children j ≠ []
  solves : ∀ j < f.size, m j = f.insideOf w m j
  values : ∀ c < f.size, ∀ c' < g.size, g.CopiedTo copies c c' → m' c' = m c

theorem unshares {K : Type u} [Field K] (hor : (Items.node label kids .nil).NoEmptyOr)
    (hclosed : (FForest.mk ((Items.node label kids .nil).layout 0)).Closed 0
      (Items.node label kids .nil).size)
    (hcopies : (FForest.mk ((Items.node label kids .nil).layout 0)).IsUnshared copies)
    (w inside inside' : ℕ → K) :
    Unshares (FForest.mk ((Items.node label kids .nil).layout 0)) (unshared copies) copies w
      ((FForest.mk ((Items.node label kids .nil).layout 0)).pass (insidePass w) inside)
      ((unshared copies).pass (insidePass w) inside') := by
  have hlaid := laid_layout (Items.node label kids .nil)
  generalize hf : FForest.mk ((Items.node label kids .nil).layout 0) = f at *
  have hsize : f.size = (Items.node label kids .nil).size := by
    rw [← hf]
    exact Items.length_layout 0 _
  have hroot : 0 < f.size := by
    rw [hsize, Items.size_node]
    omega
  rw [← hsize] at hclosed
  have hforest := Items.Laid.isForest hlaid hsize hclosed
  have hm : ∀ j < f.size, f.pass (insidePass w) inside j =
      f.insideOf w (f.pass (insidePass w) inside) j :=
    fun j hj => (Items.holds_pass hlaid hsize hor hclosed inside j hj).insideOf_eq
  obtain ⟨hno, hor₀, hkids⟩ := hforest.copies_spec hlaid hsize hor hcopies 0 hroot
  -- the copy of the root as it is laid out
  have hlaid' := laid_layout (Items.node (copies 0).1 (copies 0).2 .nil)
  have hcopied : (unshared copies).CopiedTo copies 0 0 := ⟨.nil, hlaid'⟩
  have hor' : (Items.node (copies 0).1 (copies 0).2 .nil).NoEmptyOr := ⟨hor₀, hkids, trivial⟩
  have hsize' : (unshared copies).size = (Items.node (copies 0).1 (copies 0).2 .nil).size :=
    Items.length_layout 0 _
  have hclosed' := hlaid'.closed_of_noRef ⟨hno, trivial⟩
  rw [Nat.zero_add, ← hsize'] at hclosed'
  have hroot' : 0 < (unshared copies).size := by
    rw [hsize', Items.size_node]
    omega
  have hforest' := Items.Laid.isForest hlaid' hsize' hclosed'
  have hm' : ∀ j < (unshared copies).size, (unshared copies).pass (insidePass w) inside' j =
      (unshared copies).insideOf w ((unshared copies).pass (insidePass w) inside') j :=
    fun j hj => (Items.holds_pass hlaid' hsize' hor' hclosed' inside' j hj).insideOf_eq
  refine ⟨hforest, hforest', hroot, hroot', hcopied, ?_, hm,
    inside_copy hforest hforest' hcopies hm hm'⟩
  intro j hj hlabel
  exact hlaid.children_ne_nil hor (Nat.zero_le j) (by omega) hlabel

end Copies

section Powers

open FForest

/-- `logweight::pow`: zero stays zero. -/
noncomputable def weightPow (x power : ℝ) : ℝ := if x = 0 then 0 else x ^ power

theorem weightPow_zero (power : ℝ) : weightPow 0 power = 0 := if_pos rfl

theorem weightPow_of_pos {x : ℝ} (h : 0 < x) (power : ℝ) : weightPow x power = x ^ power :=
  if_neg h.ne'

theorem weightPow_pos {x : ℝ} (h : 0 < x) (power : ℝ) : 0 < weightPow x power := by
  rw [weightPow_of_pos h]
  exact Real.rpow_pos_of_pos h power

theorem weightPow_one (x : ℝ) : weightPow x 1 = x := by
  by_cases h : x = 0
  · rw [h, weightPow_zero]
  · rw [weightPow, if_neg h, Real.rpow_one]

/-- The share of the first of two weights. -/
noncomputable def shareOf (x y power : ℝ) : ℝ :=
  weightPow x power / (weightPow x power + weightPow y power)

theorem shareOf_mem {x y : ℝ} (hx : 0 < x) (hy : 0 < y) (power : ℝ) :
    0 < shareOf x y power ∧ shareOf x y power < 1 := by
  have hxp := weightPow_pos hx power
  have hyp := weightPow_pos hy power
  constructor
  · exact div_pos hxp (add_pos hxp hyp)
  · rw [shareOf, div_lt_one (add_pos hxp hyp)]
    linarith

/-- Only the power one leaves the shares of different weights as they are. -/
theorem shareOf_eq_iff {x y : ℝ} (hx : 0 < x) (hy : 0 < y) (hne : x ≠ y) {power : ℝ} :
    shareOf x y 1 = shareOf x y power ↔ power = 1 := by
  constructor
  · intro h
    have hxp := weightPow_pos hx power
    have hyp := weightPow_pos hy power
    rw [shareOf, shareOf, weightPow_one, weightPow_one,
      div_eq_div_iff (add_pos hx hy).ne' (add_pos hxp hyp).ne'] at h
    -- the weights and their powers are in the same proportion
    have hproportion : x * weightPow y power = y * weightPow x power := by linarith
    rw [weightPow_of_pos hx, weightPow_of_pos hy] at hproportion
    have hratio : (x / y) ^ power = (x / y) ^ (1 : ℝ) := by
      rw [Real.rpow_one, Real.div_rpow hx.le hy.le,
        div_eq_div_iff (Real.rpow_pos_of_pos hy power).ne' hy.ne']
      linarith
    have hone : x / y ≠ 1 := fun h1 => hne ((div_eq_one_iff_eq hy.ne').mp h1)
    exact (Real.rpow_right_inj (div_pos hx hy) hone).mp hratio
  · intro h
    rw [h]

/-- With these weights and this power, a draw from any forest records what it records in
the forest without sharing, whatever the random numbers. -/
def DrawsAlike (w : ℕ → ℝ) (power : ℝ) : Prop :=
  ∀ (label : ℕ) (kids : Items), (Items.node label kids .nil).NoEmptyOr →
    (FForest.mk ((Items.node label kids .nil).layout 0)).Closed 0
      (Items.node label kids .nil).size →
    ∀ copies, (FForest.mk ((Items.node label kids .nil).layout 0)).IsUnshared copies →
      ∀ (random : ℕ → ℝ), (∀ n, 0 ≤ random n ∧ random n < 1) → ∀ inside inside' : ℕ → ℝ,
        ∃ rules n, ∀ fuel ≥ n,
          (FForest.mk ((Items.node label kids .nil).layout 0)).recorded weightPow random w inside
            power fuel = some rules ∧
          (unshared copies).recorded weightPow random w inside' power fuel = some rules

variable {w : ℕ → ℝ} {power : ℝ}

theorem FForest.inside_eq_zero {f : FForest} {m : ℕ → ℝ} (hforest : f.IsForest)
    (hm : ∀ j < f.size, m j = f.insideOf w m j) (hw : ∀ r, r ≠ orInt → w r = 0) :
    ∀ j < f.size, m j = 0 := by
  apply done_induction
  intro j hj ih
  rw [hm j hj, insideOf]
  cases hlabel : (f.node j).label with
  | pointer t =>
    obtain ⟨ht, hdone⟩ := hforest.shared hj hlabel
    exact ih t ht hdone
  | integer rule =>
    by_cases hrule : rule = orInt
    · simp only [if_pos hrule]
      apply List.sum_eq_zero
      intro x hx
      obtain ⟨c, hc, rfl⟩ := List.mem_map.mp hx
      obtain ⟨hcs, _, hdone⟩ := hforest.children hj hc
      exact ih c hcs hdone
    · simp only [if_neg hrule]
      rw [hw rule hrule, zero_mul]

theorem drawsAlike_of (h : power = 1 ∨ ∀ r, r ≠ orInt → w r = 0) : DrawsAlike w power := by
  intro label kids hor hclosed copies hcopies random _ inside inside'
  obtain ⟨hforest, hforest', hroot, hroot', hcopied, hne, hm, hvalues⟩ :=
    unshares hor hclosed hcopies w inside inside'
  have hpow : ∀ j < (FForest.mk ((Items.node label kids .nil).layout 0)).size,
      weightPow ((FForest.mk ((Items.node label kids .nil).layout 0)).pass (insidePass w) inside j) 1 =
        weightPow ((FForest.mk ((Items.node label kids .nil).layout 0)).pass (insidePass w) inside j)
          power := by
    intro j hj
    rcases h with rfl | hzero
    · rfl
    · rw [FForest.inside_eq_zero hforest hm hzero j hj, weightPow_zero, weightPow_zero]
  obtain ⟨v', n, hn⟩ := exists_chosen random hforest hforest' hcopies hne hvalues hpow 0 hroot 0
    hroot' hcopied power (.inl rfl) ⟨[], 0⟩
  refine ⟨v'.record, n, ?_⟩
  intro fuel hfuel
  rw [recorded, recorded, (hn fuel hfuel).1, (hn fuel hfuel).2]
  exact ⟨rfl, rfl⟩

/-- The children of `(OR #1(OR r (r k)) #1)`. -/
def twice (r : ℕ) (k : Items) : Items :=
  .node orInt (.node r .nil (.node r k .nil)) (.ref 1 .nil)

variable {f : FForest} {r : ℕ} {k : Items} {m : ℕ → ℝ}

/-- The nodes of this forest. -/
structure IsTwice (f : FForest) (r : ℕ) (k : Items) : Prop where
  size : f.size = 5 + k.size
  root : (f.node 0).label = .integer orInt
  children : f.children 0 = [1, 4 + k.size]
  pointer : (f.node (4 + k.size)).label = .pointer 1
  shared : (f.node 1).label = .integer orInt
  pair : f.children 1 = [2, 3]
  leaf : (f.node 2).label = .integer r
  leafChildren : f.children 2 = []
  other : (f.node 3).label = .integer r
  otherChildren : f.children 3 = k.places 4
  laid : k.Laid f.node 4

theorem isTwice (hlaid : (Items.node orInt (twice r k) .nil).Laid f.node 0)
    (hsize : f.size = (Items.node orInt (twice r k) .nil).size) : IsTwice f r k := by
  have hend : 0 + 1 + 1 + (Items.node r .nil (.node r k .nil)).size = 4 + k.size := by
    simp only [Items.size_node, Items.size_nil]
    omega
  have hroot := Items.children_eq hlaid
  have hpair := Items.children_eq hlaid.2.1
  have hleaf := Items.children_eq hlaid.2.1.2.1
  have hother := Items.children_eq hlaid.2.1.2.1.2.2
  have hpointer := hlaid.2.1.2.2
  simp only [twice, Items.places, hend] at hroot
  rw [hend] at hpointer
  refine ⟨?_, by rw [hlaid.1], hroot, by rw [hpointer.1], ?_, hpair, ?_, hleaf, ?_, hother,
    hlaid.2.1.2.1.2.2.2.1⟩
  · rw [hsize, twice]
    simp only [Items.size_node, Items.size_ref, Items.size_nil]
    omega
  · exact congrArg ForestNode.label hlaid.2.1.1
  · exact congrArg ForestNode.label hlaid.2.1.2.1.1
  · exact congrArg ForestNode.label hlaid.2.1.2.1.2.2.1

/-- The values of this forest. -/
theorem IsTwice.values (h : IsTwice f r k) (hr : r ≠ orInt)
    (hm : ∀ j < f.size, m j = f.insideOf w m j) (hk : k.places 4 = [4]) :
    m 2 = w r ∧ m 3 = w r * m 4 ∧ m 1 = m 2 + m 3 ∧ m (4 + k.size) = m 1 := by
  have hsize := h.size
  refine ⟨?_, ?_, ?_, ?_⟩
  · rw [hm 2 (by omega), insideOf, h.leaf, h.leafChildren]
    simp [hr]
  · rw [hm 3 (by omega), insideOf, h.other, h.otherChildren, hk]
    simp [hr]
  · rw [hm 1 (by omega), insideOf, h.shared, h.pair]
    simp
  · rw [hm (4 + k.size) (by omega), insideOf, h.pointer]

theorem pick_half {x : ℕ → ℝ} {a b : ℕ} (hpos : 0 < x a) (heq : x b = x a) :
    pick x (x a + x b) (1 / 2) [a, b] = b := by
  have hhalf : (1 / 2 : ℝ) - x a / (x a + x b) = 0 := by
    rw [heq]
    field_simp
    ring
  rw [pick, pick, hhalf, if_neg (lt_irrefl 0)]

theorem closed_twice (hno : k.NoRef) : (FForest.mk ((Items.node orInt (twice r k) .nil).layout
    0)).Closed 0 (Items.node orInt (twice r k) .nil).size := by
  have hlaid := laid_layout (Items.node orInt (twice r k) .nil)
  generalize hf : FForest.mk ((Items.node orInt (twice r k) .nil).layout 0) = f at hlaid ⊢
  have hsize : f.size = (Items.node orInt (twice r k) .nil).size := by
    rw [← hf]
    exact Items.length_layout 0 _
  have h := isTwice hlaid hsize
  have hend := h.size
  have hnext : (f.node 1).next = 4 + k.size := by
    rw [hlaid.2.1.1]
    simp only [Items.size_node, Items.size_nil]
    omega
  rw [← hsize]
  intro j _ hj
  refine ⟨?_, ?_⟩
  · rw [hsize] at hj ⊢
    have hwhole := Items.Laid.next_mem hlaid (Nat.zero_le j) (by omega)
    omega
  · intro t ht
    by_cases hlast : j = 4 + k.size
    · rw [hlast, h.pointer] at ht
      rw [← Label.pointer.inj ht, hnext]
      omega
    · by_cases hfirst : j = 0
      · rw [hfirst, h.root] at ht
        cases ht
      · have hpair : (Items.node orInt (.node r .nil (.node r k .nil)) .nil).Laid f.node 1 :=
          ⟨hlaid.2.1.1, hlaid.2.1.2.1, trivial⟩
        obtain ⟨rule, hrule⟩ := hpair.label_of_noRef (i := j) ⟨⟨trivial, hno, trivial⟩, trivial⟩
          (by omega) (by simp only [Items.size_node, Items.size_nil]; omega)
        rw [hrule] at ht
        cases ht

/-- When the first number is 1/2, both draws take the second alternative. The second
number then falls on the leaf by its share: without the power in the forest, and with it
in the copy. -/
theorem length_eq_one_iff {g : FForest} {m' : ℕ → ℝ} {copies : ℕ → ℕ × Items} {random : ℕ → ℝ}
    {l : ℕ} {v v' : Draw} (hun : Unshares f g copies w m m') (hcopies : f.IsUnshared copies)
    (h : IsTwice f r k) (hr : r ≠ orInt) (hpos : 0 < w r) (hk : k.places 4 = [4]) (hx : 0 < m 4)
    (hrandom : random 0 = 1 / 2)
    (hf : f.chooseRandom weightPow random m (l + 3) power 0 ⟨[], 0⟩ = some v)
    (hg : g.chooseRandom weightPow random m' (l + 3) power 0 ⟨[], 0⟩ = some v') :
    (v.record.length = 1 ↔ random 1 < shareOf (w r) (w r * m 4) 1) ∧
      (v'.record.length = 1 ↔ random 1 < shareOf (w r) (w r * m 4) power) := by
  have hsize := h.size
  obtain ⟨hleaf, hother, hsum, hpointer⟩ := h.values hr hun.solves hk
  have hm1 : 0 < m 1 := by
    rw [hsum, hleaf, hother]
    exact add_pos hpos (mul_pos hpos hx)
  have hne : f.children 0 ≠ [] := by
    rw [h.children]
    exact List.cons_ne_nil _ _
  have hmore : f.children 3 ≠ [] := by
    rw [h.otherChildren, hk]
    exact List.cons_ne_nil _ _
  constructor
  · have hpick : pick (fun c => weightPow (m c) power)
        (weightPow (m 1) power + weightPow (m (4 + k.size)) power) (1 / 2) [1, 4 + k.size] =
        4 + k.size := pick_half (weightPow_pos hm1 power) (by rw [hpointer])
    rw [chooseRandom_or hun.forest (by omega) h.root hne, h.children] at hf
    simp only [List.map_cons, List.map_nil, List.sum_cons, List.sum_nil, add_zero, hrandom] at hf
    rw [hpick, chooseRandom, h.pointer] at hf
    have hlen := length_of_pair hun.forest (by omega) h.shared h.pair h.leaf h.other hr
      h.leafChildren hmore hf
    rw [hleaf, hother] at hlen
    exact hlen
  · obtain ⟨hroot, hchildren⟩ := hun.copied.integer hcopies (by omega) h.root
    rw [h.children] at hchildren
    generalize hcs : g.children 0 = cs at hchildren
    obtain _ | ⟨hfirst, _ | ⟨hsecond, _ | _⟩⟩ := hchildren
    rename_i c₁ c₂
    have hc₁ := (hun.forest'.children hun.root' (hcs ▸ List.mem_cons_self)).1
    have hc₂ := (hun.forest'.children hun.root'
      (hcs ▸ List.mem_cons_of_mem c₁ List.mem_cons_self)).1
    have hv₁ := hun.values 1 (by omega) c₁ hc₁ hfirst
    have hv₂ := hun.values _ (by omega) c₂ hc₂ hsecond
    have hpick : pick (fun c => weightPow (m' c) power)
        (weightPow (m' c₁) power + weightPow (m' c₂) power) (1 / 2) [c₁, c₂] = c₂ :=
      pick_half (by rw [hv₁]; exact weightPow_pos hm1 power) (by rw [hv₁, hv₂, hpointer])
    have hne' : g.children 0 ≠ [] := by
      rw [hcs]
      exact List.cons_ne_nil _ _
    rw [chooseRandom_or hun.forest' hun.root' hroot hne', hcs] at hg
    simp only [List.map_cons, List.map_nil, List.sum_cons, List.sum_nil, add_zero, hrandom] at hg
    rw [hpick] at hg
    -- the second child is a copy of the node that the pointer shares
    obtain ⟨hshared, hpair⟩ := (hsecond.pointer hcopies (by omega) h.pointer).integer hcopies
      (by omega) h.shared
    rw [h.pair] at hpair
    generalize hds : g.children c₂ = ds at hpair
    obtain _ | ⟨hleaf', _ | ⟨hother', _ | _⟩⟩ := hpair
    rename_i a b
    have ha := (hun.forest'.children hc₂ (hds ▸ List.mem_cons_self)).1
    have hb := (hun.forest'.children hc₂ (hds ▸ List.mem_cons_of_mem a List.mem_cons_self)).1
    obtain ⟨halabel, hachildren⟩ := hleaf'.integer hcopies (by omega) h.leaf
    obtain ⟨hblabel, hbchildren⟩ := hother'.integer hcopies (by omega) h.other
    rw [h.leafChildren] at hachildren
    have hmore' : g.children b ≠ [] := by
      intro hnil
      rw [hnil, List.forall₂_nil_right_iff] at hbchildren
      exact hmore hbchildren
    have hlen := length_of_pair hun.forest' hc₂ hshared hds halabel hblabel hr
      (List.forall₂_nil_left_iff.mp hachildren) hmore' hg
    rw [hun.values 2 (by omega) a ha hleaf', hun.values 3 (by omega) b hb hother', hleaf,
      hother] at hlen
    exact hlen

/-- If the leaf and the other rule differ in value, only the power one draws alike. -/
theorem power_eq_one_of_drawsAlike (h : DrawsAlike w power) (hr : r ≠ orInt) (hpos : 0 < w r)
    (hno : k.NoRef) (hor : k.NoEmptyOr) (hk : k.places 4 = [4]) {x : ℝ} (hx : 0 < x) (hx1 : x ≠ 1)
    (hvalue : ∀ {f : FForest} {m : ℕ → ℝ}, k.Laid f.node 4 →
      (∀ j < 4 + k.size, m j = f.insideOf w m j) → m 4 = x) : power = 1 := by
  have hor' : (Items.node orInt (twice r k) .nil).NoEmptyOr :=
    ⟨fun _ => nofun, ⟨fun _ => nofun, ⟨fun h => absurd h hr, trivial, fun h => absurd h hr,
      hor, trivial⟩, trivial⟩, trivial⟩
  have hclosed := closed_twice (r := r) hno
  have hlaid := laid_layout (Items.node orInt (twice r k) .nil)
  have hsize : (FForest.mk ((Items.node orInt (twice r k) .nil).layout 0)).size =
      (Items.node orInt (twice r k) .nil).size := Items.length_layout 0 _
  have htwice := isTwice hlaid hsize
  obtain ⟨copies, hcopies⟩ : ∃ copies, (FForest.mk ((Items.node orInt (twice r k) .nil).layout
      0)).IsUnshared copies :=
    (Items.Laid.isForest hlaid hsize (hsize ▸ hclosed)).exists_unshared
  by_contra hpower
  have hother : 0 < w r * x := mul_pos hpos hx
  have hne : w r ≠ w r * x := by
    intro heq
    exact hx1 (mul_left_cancel₀ hpos.ne' (heq.symm.trans (mul_one (w r)).symm))
  have hshares : shareOf (w r) (w r * x) 1 ≠ shareOf (w r) (w r * x) power :=
    fun heq => hpower ((shareOf_eq_iff hpos hother hne).mp heq)
  have hone := shareOf_mem hpos hother 1
  have hpow := shareOf_mem hpos hother power
  -- the second number lies between the two shares, at the lower one
  obtain ⟨rules, n, hrecorded⟩ := h orInt (twice r k) hor' hclosed copies hcopies
    (fun n => if n = 0 then 1 / 2 else
      min (shareOf (w r) (w r * x) 1) (shareOf (w r) (w r * x) power))
    (by
      intro n
      by_cases hn : n = 0
      · norm_num [hn]
      · simp only [if_neg hn]
        exact ⟨le_min hone.1.le hpow.1.le, (min_le_left _ _).trans_lt hone.2⟩)
    (fun _ => 0) (fun _ => 0)
  have hun := unshares hor' hclosed hcopies w (fun _ => 0) (fun _ => 0)
  have hm4 := hvalue htwice.laid fun j hj => hun.solves j (by rw [htwice.size]; omega)
  obtain ⟨hf, hg⟩ := hrecorded (n + 3) (by omega)
  obtain ⟨v, hv, rfl⟩ := Option.map_eq_some_iff.mp hf
  obtain ⟨v', hv', heq⟩ := Option.map_eq_some_iff.mp hg
  obtain ⟨hlen, hlen'⟩ := length_eq_one_iff hun hcopies htwice hr hpos hk (hm4 ▸ hx) (if_pos rfl)
    hv hv'
  rw [heq, hlen, hm4, if_neg Nat.one_ne_zero] at hlen'
  rcases lt_or_gt_of_ne hshares with hlt | hlt
  · rw [min_eq_left hlt.le] at hlen'
    exact absurd (hlen'.mpr hlt) (lt_irrefl _)
  · rw [min_eq_right hlt.le] at hlen'
    exact absurd (hlen'.mp hlt) (lt_irrefl _)

end Powers

/-- The forest `(1 #1(OR 2 3) #1)`. -/
def sharedChoice : FForest :=
  ⟨(Items.node 1 (.node orInt (.node 2 .nil (.node 3 .nil .nil)) (.ref 1 .nil)) .nil).layout 0⟩

end Carmel.Forest
