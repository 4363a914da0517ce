/-
# Weighted relations

A weighted relation gives every pair of an input and an output a weight: what the weights of
its members with these labels come to. Relations are composed over all that may pass in
between. Whether alternatives add up or the best one counts is a parameter.
-/

import Carmel.Math.Instances

namespace Carmel.Math

open scoped ENNReal

/-- How the weights of alternatives are taken together. -/
structure Aggregate (W : Type) [Mul W] where
  of : ∀ {ι : Type}, (ι → W) → W
  equiv : ∀ {ι κ : Type} (e : ι ≃ κ) (f : κ → W), (of fun i => f (e i)) = of f
  sigma : ∀ {ι : Type} {κ : ι → Type} (f : ∀ i, κ i → W),
    (of fun p : Sigma κ => f p.1 p.2) = of fun i => of (f i)
  mul_left : ∀ {ι : Type} (a : W) (f : ι → W), (of fun i => a * f i) = a * of f

namespace Aggregate

/-- Alternatives add up. -/
noncomputable def sum : Aggregate ℝ≥0∞ where
  of f := tsum f
  equiv e f := e.tsum_eq f
  sigma f := ENNReal.tsum_sigma f
  mul_left _ _ := ENNReal.tsum_mul_left

/-- The best alternative counts. -/
noncomputable def best : Aggregate ℝ≥0∞ where
  of f := ⨆ i, f i
  equiv e _ := e.iSup_comp
  sigma _ := iSup_sigma
  mul_left a f := (ENNReal.mul_iSup a f).symm

variable {W : Type} [CommMonoid W] (S : Aggregate W) {ι κ A B C : Type}

/-- The members with two labels, by their labels. -/
def rel (inp : ι → A) (out : ι → B) (weight : ι → W) (a : A) (b : B) : W :=
  S.of fun i : {i // inp i = a ∧ out i = b} => weight i.1

/-- One relation after another. -/
def comp (R : A → B → W) (R' : B → C → W) (a : A) (c : C) : W := S.of fun b => R a b * R' b c

def chain : (A → A → W) → List (A → A → W) → A → A → W
  | R, [] => R
  | R, R' :: Rs => S.comp R (chain R' Rs)

variable {inp : ι → A} {out : ι → B} {weight : ι → W}

/-- Members with the same labels and weights. -/
theorem rel_congr {inp' : κ → A} {out' : κ → B} {weight' : κ → W} (e : ι ≃ κ)
    (hinp : ∀ i, inp i = inp' (e i)) (hout : ∀ i, out i = out' (e i))
    (hweight : ∀ i, weight i = weight' (e i)) :
    S.rel inp out weight = S.rel inp' out' weight' := by
  funext a b
  have hlabels : ∀ i, inp i = a ∧ out i = b ↔ inp' (e i) = a ∧ out' (e i) = b := fun i => by
    rw [hinp, hout]
  rw [rel, rel, ← S.equiv (e.subtypeEquiv hlabels)]
  exact congrArg S.of (funext fun i => hweight i.1)

/-- **The pairs that agree on what passes** are the composition. -/
theorem rel_pairs {inp' : κ → B} {out' : κ → C} {weight' : κ → W} :
    S.rel (fun p : {p : ι × κ // out p.1 = inp' p.2} => inp p.1.1) (fun p => out' p.1.2)
      (fun p => weight p.1.1 * weight' p.1.2) =
        S.comp (S.rel inp out weight) (S.rel inp' out' weight') := by
  funext a c
  let split : {p : {p : ι × κ // out p.1 = inp' p.2} // inp p.1.1 = a ∧ out' p.1.2 = c} ≃
      Σ b, Σ _ : {i // inp i = a ∧ out i = b}, {k // inp' k = b ∧ out' k = c} :=
    { toFun := fun p => ⟨out p.1.1.1, ⟨p.1.1.1, p.2.1, rfl⟩, p.1.1.2, p.1.2.symm, p.2.2⟩
      invFun := fun q => ⟨⟨(q.2.1.1, q.2.2.1), q.2.1.2.2.trans q.2.2.2.1.symm⟩, q.2.1.2.1, q.2.2.2.2⟩
      left_inv := fun _ => rfl
      right_inv := by
        rintro ⟨_, ⟨i, hi, rfl⟩, k⟩
        rfl }
  rw [rel, comp]
  calc _ = S.of fun q : Σ b, Σ _ : {i // inp i = a ∧ out i = b}, {k // inp' k = b ∧ out' k = c} =>
        weight q.2.1.1 * weight' q.2.2.1 :=
        S.equiv split fun q => weight q.2.1.1 * weight' q.2.2.1
    _ = S.of fun b => S.of fun q : Σ _ : {i // inp i = a ∧ out i = b}, {k // inp' k = b ∧ out' k = c} =>
        weight q.1.1 * weight' q.2.1 :=
        S.sigma fun b (q : Σ _ : {i // inp i = a ∧ out i = b}, {k // inp' k = b ∧ out' k = c}) =>
          weight q.1.1 * weight' q.2.1
    _ = _ := by
        refine congrArg S.of (funext fun b => ?_)
        rw [S.sigma fun (i : {i // inp i = a ∧ out i = b}) (k : {k // inp' k = b ∧ out' k = c}) =>
          weight i.1 * weight' k.1]
        calc _ = S.of fun i : {i // inp i = a ∧ out i = b} => S.rel inp' out' weight' b c * weight i.1 := by
              refine congrArg S.of (funext fun i => ?_)
              rw [S.mul_left, mul_comm]
              rfl
          _ = _ := by
              rw [S.mul_left, mul_comm]
              rfl

end Aggregate

end Carmel.Math
