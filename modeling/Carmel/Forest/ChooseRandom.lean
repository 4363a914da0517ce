/-
# Drawing a derivation at random

`choose_random` draws a child at each alternative, with the inside values raised to a power
as the shares, and the rules on the way are recorded. Below a pointer the power is one. When
powers do not change the inside values, a draw records what it records in the forest without
sharing.
-/

import Carmel.Forest.Unshared

namespace Carmel.Forest

universe u v

/-- The rules recorded, and how many random numbers have been used. -/
structure Draw where
  record : List ℕ
  drawn : ℕ
deriving DecidableEq, Repr

namespace FForest

section Code

variable {K : Type u} [Field K] [LinearOrder K] {P : Type v} [One P] (f : FForest)

/-- The loop that sums up the shares of the children from `i` up to the end `e`. -/
def chooseNorm (x : ℕ → K) (e : ℕ) : ℕ → ℕ → K → K
  | 0, _, norm => norm
  | fuel + 1, i, norm =>
    if i ≠ e then chooseNorm x e fuel (f.node i).next (norm + x i) else norm

/-- The loop that takes shares from `choice` until it is used up, or to the last child. -/
def chooseChild (x : ℕ → K) (norm : K) (e : ℕ) : ℕ → ℕ → K → ℕ
  | 0, i, _ => i
  | fuel + 1, i, choice =>
    let choice := choice - x i / norm
    if choice < 0 then i
    else
      let n := (f.node i).next
      if n = e then i else chooseChild x norm e fuel n choice

variable (pow : K → P → K) (random : ℕ → K) (inside : ℕ → K)

mutual

/-- `choose_random` at the node `b`. -/
def chooseRandom : ℕ → P → ℕ → Draw → Option Draw
  | 0, _, _, _ => none
  | fuel + 1, power, b, v =>
    let e := (f.node b).next
    match (f.node b).label with
    | .pointer shared => chooseRandom fuel 1 shared v
    | .integer ruleOr =>
      if ruleOr = orInt then
        let x := fun i => pow (inside i) power
        let norm := f.chooseNorm x e e (b + 1) 0
        let i := f.chooseChild x norm e e (b + 1) (random v.drawn)
        chooseRandom fuel power i { v with drawn := v.drawn + 1 }
      else chooseChildren fuel power e (b + 1) { v with record := v.record ++ [ruleOr] }

/-- The loop over the children `b` of a rule. -/
def chooseChildren : ℕ → P → ℕ → ℕ → Draw → Option Draw
  | 0, _, _, _, _ => none
  | fuel + 1, power, e, b, v =>
    if b < e then do
      let v ← chooseRandom fuel power b v
      chooseChildren fuel power e (f.node b).next v
    else some v

end

/-- `compute_inside` and then `choose_random` from the root: what is recorded. -/
def recorded (w : ℕ → K) (inside : ℕ → K) (power : P) (fuel : ℕ) : Option (List ℕ) :=
  (f.chooseRandom pow random (f.pass (insidePass w) inside) fuel power 0 ⟨[], 0⟩).map Draw.record

end Code

section Pick

variable {K : Type u} [Field K] [LinearOrder K] {f : FForest} {x y : ℕ → K} {norm : K}

/-- The first of several at which a choice is used up, or the last. -/
def pick (x : ℕ → K) (norm : K) : K → List ℕ → ℕ
  | _, [] => 0
  | _, [i] => i
  | choice, i :: j :: rest =>
    if choice - x i / norm < 0 then i else pick x norm (choice - x i / norm) (j :: rest)

variable (x norm) in
theorem pick_mem {cs : List ℕ} (h : cs ≠ []) (choice : K) : pick x norm choice cs ∈ cs := by
  induction cs generalizing choice with
  | nil => exact absurd rfl h
  | cons i cs ih =>
    cases cs with
    | nil => exact List.mem_cons_self
    | cons j rest =>
      rw [pick]
      by_cases hneg : choice - x i / norm < 0
      · rw [if_pos hneg]
        exact List.mem_cons_self
      · rw [if_neg hneg]
        exact List.mem_cons_of_mem i (ih (List.cons_ne_nil _ _) _)

variable (norm) in
/-- Among corresponding children of the same shares, corresponding ones are drawn. -/
theorem pick_forall₂ {R : ℕ → ℕ → Prop} {cs ds : List ℕ} (h : List.Forall₂ R cs ds) (hne : cs ≠ [])
    (hall : ∀ c ∈ cs, ∀ d ∈ ds, R c d → y d = x c) (choice : K) :
    R (pick x norm choice cs) (pick y norm choice ds) := by
  induction h generalizing choice with
  | nil => exact absurd rfl hne
  | @cons c d cs ds hfirst hrest ih =>
    cases hrest with
    | nil => exact hfirst
    | @cons c' d' cs ds hsecond hrest =>
      rw [pick, pick, hall c List.mem_cons_self d List.mem_cons_self hfirst]
      by_cases hneg : choice - x c / norm < 0
      · rw [if_pos hneg, if_pos hneg]
        exact hfirst
      · rw [if_neg hneg, if_neg hneg]
        apply ih (List.cons_ne_nil _ _)
        intro a ha b hb
        exact hall a (List.mem_cons_of_mem c ha) b (List.mem_cons_of_mem d hb)

variable {e b : ℕ}

/-- Whole nodes follow each other up to `e`. -/
def NextWithin (f : FForest) (b e : ℕ) : Prop :=
  ∀ j, b ≤ j → j < e → j < (f.node j).next ∧ (f.node j).next ≤ e

omit [LinearOrder K] in
theorem chooseNorm_eq (k : ℕ) : ∀ {b : ℕ}, f.NextWithin b e → b ≤ e → ∀ norm : K,
    f.chooseNorm x e k b norm = norm + ((f.siblings e k b).map x).sum := by
  induction k with
  | zero =>
    intro b _ _ norm
    exact (add_zero norm).symm
  | succ k ih =>
    intro b hwithin hb norm
    rw [chooseNorm, siblings]
    by_cases hlt : b < e
    · obtain ⟨hnext, hend⟩ := hwithin b le_rfl hlt
      rw [if_pos (by omega), if_pos hlt, ih (fun j hj => hwithin j (by omega)) hend,
        List.map_cons, List.sum_cons, add_assoc]
    · rw [if_neg (by omega), if_neg hlt]
      exact (add_zero norm).symm

theorem chooseChild_eq (k : ℕ) : ∀ {b : ℕ}, f.NextWithin b e → b < e → e ≤ b + k →
    ∀ choice : K, f.chooseChild x norm e k b choice = pick x norm choice (f.siblings e k b) := by
  induction k with
  | zero =>
    intro b _ hlt hk
    omega
  | succ k ih =>
    intro b hwithin hlt hk choice
    obtain ⟨hnext, hend⟩ := hwithin b le_rfl hlt
    rw [chooseChild, siblings, if_pos hlt]
    by_cases hlast : (f.node b).next = e
    · rw [siblings_eq_nil (by omega), pick, if_pos hlast, ite_self]
    · have hothers := ih (fun j hj => hwithin j (by omega))
        (show (f.node b).next < e by omega) (by omega) (choice - x b / norm)
      obtain ⟨l, rfl⟩ : ∃ l, k = l + 1 := ⟨k - 1, by omega⟩
      have hmore : f.siblings e (l + 1) (f.node b).next =
          (f.node b).next :: f.siblings e l (f.node (f.node b).next).next := by
        rw [siblings, if_pos (by omega)]
      rw [hmore] at hothers ⊢
      rw [pick, if_neg hlast, hothers]

end Pick

section Draws

variable {K : Type u} [Field K] [LinearOrder K] {P : Type v} [One P]
variable {f g : FForest} {pow : K → P → K} {random : ℕ → K} {m m' : ℕ → K} {power : P}
variable {copies : ℕ → ℕ × Items} {i : ℕ}

theorem IsForest.nextWithin (h : f.IsForest) (hi : i < f.size) :
    f.NextWithin (i + 1) (f.node i).next := by
  intro j hij hj
  have hend := (h.closed i (Nat.zero_le i) hi).1.2
  exact ⟨(h.closed j (Nat.zero_le j) (by omega)).1.1, h.nested i hi j (by omega) hj⟩

/-- At an alternative a child is drawn by the shares. -/
theorem chooseRandom_or (h : f.IsForest) (hi : i < f.size)
    (hlabel : (f.node i).label = .integer orInt) (hne : f.children i ≠ []) (k : ℕ) (v : Draw) :
    f.chooseRandom pow random m (k + 1) power i v = f.chooseRandom pow random m k power
        (pick (fun c => pow (m c) power) ((f.children i).map fun c => pow (m c) power).sum
          (random v.drawn) (f.children i)) { v with drawn := v.drawn + 1 } := by
  have hnext := (h.closed i (Nat.zero_le i) hi).1.1
  have hlt : i + 1 < (f.node i).next := by
    by_contra hnot
    exact hne (siblings_eq_nil (by omega) _)
  have hwithin := h.nextWithin hi
  rw [chooseRandom, hlabel]
  simp only [if_true]
  rw [chooseNorm_eq _ hwithin hlt.le, chooseChild_eq _ hwithin hlt (by omega), zero_add]
  rfl

/-- The loops over corresponding children of a rule. -/
theorem exists_chosen_children {R : ℕ → ℕ → Prop} {e e' : ℕ} {cs ds : List ℕ}
    (h : List.Forall₂ R cs ds) (q q' : P) : ∀ {k k' b b' : ℕ},
    e ≤ b + k → e' ≤ b' + k' → f.NextWithin b e → g.NextWithin b' e' →
    f.siblings e k b = cs → g.siblings e' k' b' = ds →
    (∀ c ∈ cs, ∀ d ∈ ds, R c d → ∀ v, ∃ v' n, ∀ l ≥ n,
      f.chooseRandom pow random m l q c v = some v' ∧
        g.chooseRandom pow random m' l q' d v = some v') →
    ∀ v, ∃ v' n, ∀ l ≥ n, f.chooseChildren pow random m l q e b v = some v' ∧
      g.chooseChildren pow random m' l q' e' b' v = some v' := by
  have hend : ∀ {f : FForest} {e k b : ℕ}, e ≤ b + k → f.siblings e k b = [] → ¬ b < e := by
    intro f e k b hk hnil hlt
    obtain ⟨k, rfl⟩ : ∃ l, k = l + 1 := ⟨k - 1, by omega⟩
    rw [siblings, if_pos hlt] at hnil
    cases hnil
  have hfirst : ∀ {f : FForest} {e k b c : ℕ} {cs : List ℕ}, f.siblings e k b = c :: cs →
      b < e ∧ c = b ∧ ∃ l, k = l + 1 ∧ f.siblings e l (f.node b).next = cs := by
    intro f e k b c cs hcons
    cases k with
    | zero => cases hcons
    | succ l =>
      rw [siblings] at hcons
      by_cases hlt : b < e
      · rw [if_pos hlt] at hcons
        exact ⟨hlt, (List.cons.inj hcons).1.symm, l, rfl, (List.cons.inj hcons).2⟩
      · rw [if_neg hlt] at hcons
        cases hcons
  induction h with
  | nil =>
    intro k k' b b' hk hk' _ _ hcs hds _ v
    refine ⟨v, 1, ?_⟩
    intro l hl
    obtain ⟨l, rfl⟩ : ∃ j, l = j + 1 := ⟨l - 1, by omega⟩
    rw [chooseChildren, chooseChildren, if_neg (hend hk hcs), if_neg (hend hk' hds)]
    exact ⟨rfl, rfl⟩
  | @cons c d cs ds hcd hrest ih =>
    intro k k' b b' hk hk' hwithin hwithin' hcs hds hall v
    obtain ⟨hlt, rfl, k, rfl, hcs₁⟩ := hfirst hcs
    obtain ⟨hlt', rfl, k', rfl, hds₁⟩ := hfirst hds
    have hnext := hwithin c le_rfl hlt
    have hnext' := hwithin' d le_rfl hlt'
    obtain ⟨v₁, n₁, hchosen⟩ := hall c List.mem_cons_self d List.mem_cons_self hcd v
    obtain ⟨v₂, n₂, hothers⟩ := ih (by omega) (by omega) (fun j hj => hwithin j (by omega))
      (fun j hj => hwithin' j (by omega)) hcs₁ hds₁ (fun a ha b hb =>
        hall a (List.mem_cons_of_mem c ha) b (List.mem_cons_of_mem d hb)) v₁
    refine ⟨v₂, max n₁ n₂ + 1, ?_⟩
    intro l hl
    obtain ⟨l, rfl⟩ : ∃ j, l = j + 1 := ⟨l - 1, by omega⟩
    rw [chooseChildren, chooseChildren, if_pos hlt, if_pos hlt', (hchosen l (by omega)).1,
      (hchosen l (by omega)).2]
    exact hothers l (by omega)

variable (random) in
/-- **A draw and the draw from the copies.** If powers do not change the inside values,
the same is recorded and as many random numbers are used. -/
theorem exists_chosen (hforest : f.IsForest) (hforest' : g.IsForest) (hcopies : f.IsUnshared copies)
    (hor : ∀ j < f.size, (f.node j).label = .integer orInt → f.children j ≠ [])
    (hvalues : ∀ c < f.size, ∀ c' < g.size, g.CopiedTo copies c c' → m' c' = m c)
    (hpow : ∀ j < f.size, pow (m j) 1 = pow (m j) power) :
    ∀ c < f.size, ∀ c' < g.size, g.CopiedTo copies c c' → ∀ q, (q = power ∨ q = 1) →
      ∀ v, ∃ v' n, ∀ l ≥ n, f.chooseRandom pow random m l q c v = some v' ∧
        g.chooseRandom pow random m' l power c' v = some v' := by
  apply done_induction
  intro c hc ih c' hc' hcopied q hq v
  cases hlabel : (f.node c).label with
  | pointer t =>
    obtain ⟨ht, hdone⟩ := hforest.shared hc hlabel
    obtain ⟨v', n, hn⟩ := ih t ht hdone c' hc' (hcopied.pointer hcopies hc hlabel) 1 (.inr rfl) v
    refine ⟨v', n + 1, ?_⟩
    intro l hl
    obtain ⟨k, rfl⟩ : ∃ k, l = k + 1 := ⟨l - 1, by omega⟩
    rw [chooseRandom, hlabel]
    exact ⟨(hn k (by omega)).1, (hn (k + 1) (by omega)).2⟩
  | integer rule =>
    obtain ⟨hlabel', hchildren⟩ := hcopied.integer hcopies hc hlabel
    by_cases hrule : rule = orInt
    · subst hrule
      have hne := hor c hc hlabel
      have hne' : g.children c' ≠ [] := by
        intro hnil
        rw [hnil] at hchildren
        cases hsome : f.children c with
        | nil => exact hne hsome
        | cons d ds =>
          rw [hsome] at hchildren
          cases hchildren
      have hshares : ∀ d ∈ f.children c, ∀ d' ∈ g.children c', g.CopiedTo copies d d' →
          pow (m' d') power = pow (m d) q := by
        intro d hd d' hd' hcopied
        have hds := (hforest.children hc hd).1
        rw [hvalues d hds d' (hforest'.children hc' hd').1 hcopied]
        rcases hq with rfl | rfl
        · rfl
        · exact (hpow d hds).symm
      have hsum := map_eq_of_forall₂ (x := fun d => pow (m d) q)
        (y := fun d => pow (m' d) power) hchildren hshares
      generalize hnorm : ((f.children c).map fun d => pow (m d) q).sum = norm
      have hpick := pick_forall₂ norm (x := fun d => pow (m d) q)
        (y := fun d => pow (m' d) power) hchildren hne hshares (random v.drawn)
      have hmem := pick_mem (fun d => pow (m d) q) norm hne (random v.drawn)
      have hmem' := pick_mem (fun d => pow (m' d) power) norm hne' (random v.drawn)
      obtain ⟨hds, -, hdone⟩ := hforest.children hc hmem
      obtain ⟨v', n, hn⟩ := ih _ hds hdone _ (hforest'.children hc' hmem').1 hpick q hq
        { v with drawn := v.drawn + 1 }
      refine ⟨v', n + 1, ?_⟩
      intro l hl
      obtain ⟨k, rfl⟩ : ∃ k, l = k + 1 := ⟨l - 1, by omega⟩
      rw [chooseRandom_or hforest hc hlabel hne, chooseRandom_or hforest' hc' hlabel' hne', hsum,
        hnorm]
      exact hn k (by omega)
    · have hnext := (hforest.closed c (Nat.zero_le c) hc).1.1
      have hnext' := (hforest'.closed c' (Nat.zero_le c') hc').1.1
      obtain ⟨v', n, hn⟩ := exists_chosen_children hchildren q power (by omega) (by omega)
        (hforest.nextWithin hc) (hforest'.nextWithin hc') rfl rfl (by
          intro d hd d' hd' hcopied
          obtain ⟨hds, -, hdone⟩ := hforest.children hc hd
          exact ih d hds hdone d' (hforest'.children hc' hd').1 hcopied q hq)
        { v with record := v.record ++ [rule] }
      refine ⟨v', n + 1, ?_⟩
      intro l hl
      obtain ⟨k, rfl⟩ : ∃ k, l = k + 1 := ⟨l - 1, by omega⟩
      rw [chooseRandom, chooseRandom, hlabel, hlabel']
      simp only [if_neg hrule]
      exact hn k (by omega)

end Draws

end FForest

end Carmel.Forest
