/-
# Examples of probability zero

`collect_counts` divides by the probability of the example. It is zero when no path of the
lattice carries a weight to the final state; then a count of each arc of the lattice is no
number. On a lattice with cycles the forward pass sees only the paths that leave its states
in the order of the depth-first search.
-/

import Carmel.Train.Estimate

namespace Carmel

open Carmel.Math

universe u

section Forward

variable {F : Type u} [Field F] [LinearOrder F] [IsStrictOrderedRing F]
variable {D : Derivations} {getwt : GraphArc → Weight F} {v : ℕ}

/-- One state of the forward pass: an arc passes on what its source has. -/
theorem foldl_arcs_ne_zero_iff (src : ℕ) (arcs : List GraphArc) (w : ℕ → Weight F) :
    arcs.foldl (fun w a => Function.update w a.dest (w a.dest + w src * getwt a)) w v ≠ 0 ↔
      w v ≠ 0 ∨ w src ≠ 0 ∧ ∃ a ∈ arcs, a.dest = v ∧ getwt a ≠ 0 := by
  induction arcs generalizing w with
  | nil => simp
  | cons a arcs ih =>
    have hupdate (i : ℕ) : Function.update w a.dest (w a.dest + w src * getwt a) i ≠ 0 ↔
        w i ≠ 0 ∨ w src ≠ 0 ∧ a.dest = i ∧ getwt a ≠ 0 := by
      by_cases hi : i = a.dest
      · subst hi
        rw [Function.update_self, Ne, add_eq_zero_iff_of_nonneg zero_le zero_le, mul_eq_zero]
        tauto
      · rw [Function.update_of_ne hi]
        simp [Ne.symm hi]
    rw [List.foldl_cons, ih, hupdate, hupdate]
    simp only [List.exists_mem_cons_iff]
    tauto

/-- A state gets a weight by a path that leaves its states in the order of the pass. -/
theorem propagate_ne_zero_iff (hsrc : ∀ i, ∀ a ∈ D.arcs i, a.src = i) (order : List ℕ) (v : ℕ) :
    propagatePathsInOrder D.g order getwt (Function.update 0 0 1) v ≠ 0 ↔
      ∃ p, Walk D.Adj 0 p v ∧ (p.map GraphArc.src).Sublist order ∧ ∀ a ∈ p, getwt a ≠ 0 := by
  induction order using List.reverseRecOn generalizing v with
  | nil =>
    have hstart : (Function.update 0 0 1 : ℕ → Weight F) v ≠ 0 ↔ v = 0 := by
      by_cases hv : v = 0
      · simp [hv]
      · simp [hv]
    rw [propagatePathsInOrder, List.foldl_nil, hstart]
    constructor
    · rintro rfl
      exact ⟨[], .nil 0, .slnil, by simp⟩
    · rintro ⟨p, hwalk, hsub, -⟩
      rw [List.sublist_nil, List.map_eq_nil_iff] at hsub
      rw [hsub] at hwalk
      exact (Walk.nil_iff.mp hwalk).symm
  | append_singleton order s ih =>
    have hpass : propagatePathsInOrder D.g (order ++ [s]) getwt (Function.update 0 0 1) =
        (D.arcs s).foldl (fun w a => Function.update w a.dest (w a.dest + w s * getwt a))
          (propagatePathsInOrder D.g order getwt (Function.update 0 0 1)) := by
      rw [propagatePathsInOrder, List.foldl_append]
      rfl
    rw [hpass, foldl_arcs_ne_zero_iff, ih, ih]
    constructor
    · rintro (⟨p, hwalk, hsub, hne⟩ | ⟨⟨p, hwalk, hsub, hne⟩, a, ha, rfl, hwt⟩)
      · exact ⟨p, hwalk, hsub.trans (List.sublist_append_left ..), hne⟩
      · refine ⟨p ++ [a], hwalk.append (.single ⟨ha, rfl⟩), ?_, ?_⟩
        · rw [List.map_append, List.map_singleton, hsrc s a ha]
          exact hsub.append (List.Sublist.refl _)
        · intro b hb
          rcases List.mem_append.mp hb with hb | hb
          · exact hne b hb
          · rwa [List.mem_singleton.mp hb]
    · rintro ⟨p, hwalk, hsub, hne⟩
      obtain ⟨l₁, l₂, hmap, hsub₁, hsub₂⟩ := List.sublist_append_iff.mp hsub
      obtain ⟨p₁, p₂, rfl, rfl, rfl⟩ := List.map_eq_append_iff.mp hmap
      have hne₁ : ∀ a ∈ p₁, getwt a ≠ 0 := fun a ha => hne a (List.mem_append_left _ ha)
      cases p₂ with
      | nil => exact .inl ⟨p₁, by simpa using hwalk, hsub₁, hne₁⟩
      | cons a p₂ =>
        -- the state is left once
        have hlen := hsub₂.length_le
        obtain rfl : p₂ = [] := by
          simpa using hlen
        obtain ⟨m, hwalk₁, hstep⟩ := Walk.concat_iff.mp hwalk
        have hm : a.src = m := hsrc m a hstep.1
        have hs : a.src = s := by simpa using hsub₂
        subst hs
        subst hm
        exact .inr ⟨⟨p₁, hwalk₁, hsub₁, hne₁⟩, a, hstep.1, hstep.2, hne a (by simp)⟩

/-- Some path takes arcs of nonzero weight only, and leaves its states in the order in which
the search sorts them. -/
def Derivations.Passable (D : Derivations) (wt : ℕ → Weight F) : Prop :=
  ∃ order p, reverseTopoOrder D.succ D.g.length 0 = some order ∧ Walk D.Adj 0 p D.fin ∧
    (p.map GraphArc.src).Sublist order.reverse ∧ ∀ a ∈ p, wt a.id ≠ 0

namespace Derivations.Proper

variable {t : List (ArcCounts F)}

/-- On any lattice both passes come to an end, and the forward weight of the final state is
nonzero where a path can be passed. -/
theorem exists_computeFb (hD : D.Proper) (wt : ℕ → Weight F) :
    ∃ f b, computeFb D (fun a => wt a.id) = some (f, b) ∧ (f D.fin ≠ 0 ↔ D.Passable wt) := by
  have hlt : ∀ {i j}, j ∈ D.succ i → j < D.g.length := by
    intro i j hj
    obtain ⟨a, ha, rfl⟩ := List.mem_map.mp hj
    exact hD.dest_lt ha
  obtain ⟨order, horder⟩ := exists_reverseTopoOrder hlt hD.start_lt
  refine ⟨_, _, by rw [computeFb]; exact congrArg _ horder, ?_⟩
  rw [propagate_ne_zero_iff fun i a ha => hD.src ha, Passable, horder]
  simp only [Option.some.injEq, exists_and_left, exists_eq_left']

/-- The counts after one lattice: numbers, or not one of them for the arcs it has. -/
theorem exists_collectCounts (hD : D.Proper) (weight : F) (t : List (ArcCounts F)) :
    ∃ Z c, collectCounts D weight t = some (Z, addEach .addCounts t c) ∧
      (D.Passable (weightOf t) → ∀ k, c k ≠ ⊤) ∧
      (¬ D.Passable (weightOf t) → ∃ a ∈ D.allArcs, c a.id = ⊤) := by
  obtain ⟨f, b, hrun, hpass⟩ := hD.exists_computeFb (weightOf t)
  refine ⟨_, _, hD.collectCounts_of_fb hrun weight, fun h k => ?_, fun h => ?_⟩
  · rw [gain, if_pos (hpass.mpr h)]
    exact WithTop.coe_ne_top
  · have hZ : f D.fin = 0 := by
      by_contra hne
      exact h (hpass.mp hne)
    obtain ⟨a, ha⟩ := List.exists_mem_of_ne_nil _ (hD.allArcs_ne_nil hrun hZ)
    refine ⟨a, ha, ?_⟩
    rw [gain, if_neg (not_not.mpr hZ), if_pos ⟨a, ha, rfl⟩]

end Derivations.Proper

end Forward

section Corpus

variable {F : Type u} [Field F] [LinearOrder F] [IsStrictOrderedRing F] {x : WFST (Weight F)}
variable {prune : Bool} {ex : IOSymSeq F} {d : WeightedDerivations F} {t : List (ArcCounts F)}
variable {raise : Weight F → F → Weight F} {e : Estimate F}

omit [Field F] [LinearOrder F] [IsStrictOrderedRing F] in
theorem compute_of_initAndCompute {W : Type*} {x : WFST W} (hd : initAndCompute x prune ex = some d) :
    compute x ex.i ex.o prune = some d.lattice ∧ d.lattice.noGoal = false := by
  rw [initAndCompute] at hd
  cases hD : compute x ex.i ex.o prune with
  | none => simp [hD] at hd
  | some D =>
    cases hgoal : D.noGoal with
    | true => simp [hD, hgoal] at hd
    | false =>
      obtain rfl : ⟨D, ex.weight⟩ = d := by simpa [hD, hgoal] using hd
      exact ⟨rfl, hgoal⟩

/-- Without cycles a path can be passed where some derivation takes arcs of nonzero weight
only. -/
theorem passable_iff_supported (hcycle : ∀ s, ¬ x.EpsilonCycle s)
    (hd : initAndCompute x prune ex = some d) :
    d.lattice.Passable (weightOf x.arcCounts) ↔ Supported x ex := by
  obtain ⟨hD, hgoal⟩ := compute_of_initAndCompute hd
  have hproper := proper_of_compute hD hgoal
  obtain ⟨f, b, hrun, hpass⟩ := hproper.exists_computeFb (weightOf x.arcCounts)
  obtain ⟨Z, C, hsums, hcollect, -⟩ := collectCounts_example hcycle hd x.arcCounts
  rw [hproper.collectCounts_of_fb hrun d.weight] at hcollect
  have hZ : f d.lattice.fin = Z := (Prod.mk.inj (Option.some.inj hcollect)).1
  rw [← hpass, hZ, total_ne_zero_iff hsums]

/-- What the lattices of a corpus add to the counts. -/
theorem exists_foldl_estimateDerivs (raise : Weight F → F → Weight F) (prune : Bool)
    (exs : List (IOSymSeq F)) (e : Estimate F) (he : weightOf e.t = weightOf x.arcCounts) :
    ∃ e' g, (exs.filterMap (initAndCompute x prune)).foldl
        (fun s d => estimateDerivs raise 0 d s) (some e) = some e' ∧
      e'.t = addEach .addCounts e.t g ∧
      ((∀ k < x.arcsTable.length, g k ≠ ⊤) ↔
        ∀ d ∈ exs.filterMap (initAndCompute x prune), d.lattice.Passable (weightOf x.arcCounts)) := by
  induction exs generalizing e with
  | nil =>
    refine ⟨e, fun _ => 0, rfl, ?_, by simp⟩
    rw [accumulates_addCounts.addEach_zero]
  | cons ex exs ih =>
    cases hd : initAndCompute x prune ex with
    | none =>
      rw [List.filterMap_cons_none hd]
      exact ih e he
    | some d =>
      obtain ⟨hD, hgoal⟩ := compute_of_initAndCompute hd
      obtain ⟨Z, c, hcollect, hnumber, hnone⟩ :=
        (proper_of_compute hD hgoal).exists_collectCounts d.weight e.t
      rw [he] at hnumber hnone
      rw [List.filterMap_cons_some hd, List.foldl_cons]
      have hstep : estimateDerivs raise 0 d (some e) = some ⟨addEach .addCounts e.t c,
          e.weighted * Weight.pow raise Z d.weight, e.unweighted * Z⟩ := by
        rw [estimateDerivs, Option.bind_some, hcollect, Option.map_some]
      rw [hstep]
      obtain ⟨e', g, hrun, ht, hg⟩ := ih ⟨addEach .addCounts e.t c,
        e.weighted * Weight.pow raise Z d.weight, e.unweighted * Z⟩
        ((accumulates_addCounts.weightOf_addEach _).trans he)
      refine ⟨e', fun k => c k + g k, hrun, ?_, ?_⟩
      · rw [ht, accumulates_addCounts.addEach_addEach]
      · simp only [List.forall_mem_cons, WithTop.add_ne_top, ← hg]
        constructor
        · intro h
          refine ⟨?_, fun k hk => (h k hk).2⟩
          by_contra hnot
          obtain ⟨a, ha, htop⟩ := hnone hnot
          exact (h a.id (id_lt_of_compute hD hgoal ha)).1 htop
        · exact fun h k hk => ⟨hnumber h.1 k, h.2 k hk⟩

/-- The table that `estimate` leaves, from what was added to it. -/
theorem forall_counts_ne_top_iff {t : List (ArcCounts F)} {g : ℕ → Count F}
    (ht : t = addEach .addCounts (clearedCounts x) g) :
    (∀ ac ∈ t, ac.counts ≠ ⊤) ↔ ∀ k < x.arcsTable.length, g k ≠ ⊤ := by
  have hlen : t.length = x.arcsTable.length := by
    rw [ht]
    simp [addEach, clearedCounts, WFST.arcCounts]
  have hget (k : ℕ) (hk : k < x.arcsTable.length) : (t[k]?).map (·.counts) = some (g k) := by
    rw [ht]
    simp [addEach, clearedCounts, WFST.arcCounts, ArcCounts.addCounts, ArcCounts.clearCount, hk]
  constructor
  · intro h k hk
    obtain ⟨ac, hac, hc⟩ := Option.map_eq_some_iff.mp (hget k hk)
    rw [← hc]
    exact h ac (List.mem_of_getElem? hac)
  · intro h ac hac
    obtain ⟨k, hac⟩ := List.getElem?_of_mem hac
    have hk : k < x.arcsTable.length := hlen ▸ (List.getElem?_eq_some_iff.mp hac).1
    have hk' := hget k hk
    rw [hac, Option.map_some, Option.some.injEq] at hk'
    rw [hk']
    exact h k hk

/-- **The counts are numbers** after an estimate over the lattices exactly when the lattice of
each example has a path that can be passed, which without cycles of `*e*` arcs is a derivation
by arcs of nonzero weight. -/
theorem estimate_numbers_iff (x : WFST (Weight F)) (raise : Weight F → F → Weight F)
    (prune cache : Bool) (exs : List (IOSymSeq F)) :
    (∃ r fb, (ForwardBackward.make x prune cache false (.read exs)).estimate x raise prune =
        some (r, fb) ∧
      ((∀ ac ∈ fb.t, ac.counts ≠ ⊤) ↔ ∀ ex ∈ exs, ∀ d, initAndCompute x prune ex = some d →
        d.lattice.Passable (weightOf x.arcCounts))) ∧
    ((∀ s, ¬ x.EpsilonCycle s) → ∀ ex d, initAndCompute x prune ex = some d →
      (d.lattice.Passable (weightOf x.arcCounts) ↔ Supported x ex)) := by
  refine ⟨?_, fun hcycle ex d hd => passable_iff_supported hcycle hd⟩
  obtain ⟨e, g, hrun, ht, hg⟩ := exists_foldl_estimateDerivs raise prune exs
    ⟨clearedCounts x, 1, 1⟩ weightOf_clearedCounts
  obtain ⟨-, hfold⟩ := foreachDeriv_make x prune raise cache exs (some ⟨clearedCounts x, 1, 1⟩)
  have hestimate : ∃ r fb, (ForwardBackward.make x prune cache false (.read exs)).estimate x raise
      prune = some (r, fb) ∧ fb.t = e.t := by
    simp only [ForwardBackward.estimate, ForwardBackward.make, Bool.false_and, Bool.false_eq_true,
      if_false]
    rw [clearedCounts] at hfold hrun
    rw [hfold, hrun, Option.map_some, Option.map_some]
    exact ⟨_, _, rfl, rfl⟩
  obtain ⟨r, fb, hrun, hfb⟩ := hestimate
  refine ⟨r, fb, hrun, ?_⟩
  rw [hfb, forall_counts_ne_top_iff ht, hg]
  simp only [List.mem_filterMap, forall_exists_index, and_imp]
  constructor
  · intro h ex hex d hd
    exact h d ex hex hd
  · intro h d ex hex hd
    exact h ex hex d hd

/-- One arc of weight zero from the start to the final state that reads and writes `a`. -/
def zeroStep : WFST (Weight ℚ) where
  states := [⟨[⟨2, 2, 1, 0, FSTArc.noGroup⟩], 1⟩, .empty]
  final := some 1
  inAlph := letterA
  outAlph := letterA

theorem estimate_numbers_zeroStep :
    ∃ r fb, (ForwardBackward.make zeroStep true true false (.read [⟨[2], [2], 1⟩])).estimate
        zeroStep (fun p _ => p) true = some (r, fb) ∧
      ((∀ ac ∈ fb.t, ac.counts ≠ ⊤) ↔ ∀ ex ∈ ([⟨[2], [2], 1⟩] : List (IOSymSeq ℚ)), ∀ d,
        initAndCompute zeroStep true ex = some d →
          d.lattice.Passable (weightOf zeroStep.arcCounts)) :=
  (estimate_numbers_iff zeroStep (fun p _ => p) true true [⟨[2], [2], 1⟩]).1

/-- Its count for the pair `a`, `a` is no number; over the tables it is zero. -/
theorem estimate_zeroStep :
    ((ForwardBackward.make zeroStep true true false (.read [⟨[2], [2], 1⟩])).estimate
        zeroStep (fun p _ => p) true).map (fun r => r.2.t.map (·.counts)) = some [⊤] ∧
      ((ForwardBackward.make zeroStep true false true (.read [⟨[2], [2], 1⟩])).estimate
        zeroStep (fun p _ => p) true).map (fun r => r.2.t.map (·.counts)) = some [0] :=
  ⟨by decide +kernel, by decide +kernel⟩

end Corpus

end Carmel
