/-
# The counts of single forests

When the counts of single forests are printed, the visitor that should note them adds them
to the counts of the whole corpus once more, and notes nothing. All is right exactly when
nothing is visited that has a count: a forest with a tree of positive probability always has
one.
-/

import Carmel.Forest.Expected

namespace Carmel.Forest

universe u v

variable {K : Type u} {L : Type v} [Field K] [LinearOrder K] [Field L]

namespace FForest

/-- No node with a rule is visited with a count. -/
def Uncounted (f : FForest) (ruleWeights inside outside : ℕ → K) : Prop :=
  ∀ node ∈ f.ruleNodes, (f.computeInside ruleWeights inside).inside node.2 *
      (f.computeNormOutside (f.computeInside ruleWeights inside) outside).2 node.2 = 0

end FForest

/-- The counts are collected, and those of single forests are printed or not. -/
def PassArgs.counting (args : PassArgs K L) (go : Bool) : PassArgs K L :=
  { args with collectCounts := true, perForestCountsGo := go }

namespace FForests

variable (args : PassArgs K L)

/-- Whether the counts of the next forest are to be printed. -/
def Due (s : FForests K L) : Prop := (s.forestNo + 1) % args.perForestCountsPeriod = 0

instance (s : FForests K L) : Decidable (Due args s) := Nat.decEq _ _

/-- What the next forest alone contributes to the count of a rule. -/
def alone (s : FForests K L) (f : FForest) (r : ℕ) : K :=
  let pass := f.computeInside args.ruleWeights s.inside
  (AccumulateCounts.collectCounts args.isNearAddOneLimit f pass s.outside s.countsAccum).1.total r -
    s.countsAccum.total r

/-- What the forests alone contribute, of those whose counts are to be printed. -/
def contributions : FForests K L → List FForest → List (ℕ → K)
  | _, [] => []
  | s, f :: forests =>
    (if Due args s then [alone args s f] else []) ++ contributions (visitForest args s f) forests

/-- No forest whose counts are to be printed has a count, with the arrays as the forests
before it have left them. -/
def NothingDue : FForests K L → List FForest → Prop
  | _, [] => True
  | s, f :: forests =>
    (Due args s → f.Uncounted args.ruleWeights s.inside s.outside) ∧
      NothingDue (visitForest args s f) forests

end FForests

namespace FForest

section Nonneg

variable [IsStrictOrderedRing K] {f : FForest} {ruleWeights inside outside : ℕ → K}

omit [IsStrictOrderedRing K] in
theorem update_nonneg {m : ℕ → K} (hm : ∀ i, 0 ≤ m i) (i : ℕ) {x : K} (hx : 0 ≤ x) (j : ℕ) :
    0 ≤ Function.update m i x j := by
  by_cases hj : j = i
  · rw [hj, Function.update_self]
    exact hx
  · rw [Function.update_of_ne hj]
    exact hm j

/-- Both passes over the nodes, by the fuel. -/
theorem insideRec_nonneg (hw : ∀ r, 0 ≤ ruleWeights r) (fuel : ℕ) :
    (∀ (b : ℕ) (s : InsideState K), (∀ i, 0 ≤ s.inside i) →
      ∀ i, 0 ≤ (f.insideRec ruleWeights fuel b s).inside i) ∧
    ∀ (fold : K → K → K), (∀ x y, 0 ≤ x → 0 ≤ y → 0 ≤ fold x y) →
      ∀ (p e b : ℕ) (s : InsideState K), (∀ i, 0 ≤ s.inside i) →
        ∀ i, 0 ≤ (f.insideChildren ruleWeights fuel fold p e b s).inside i := by
  induction fuel with
  | zero => exact ⟨fun _ _ hs => hs, fun _ _ _ _ _ _ hs => hs⟩
  | succ fuel ih =>
    obtain ⟨hrec, hchildren⟩ := ih
    constructor
    · intro b s hs
      rw [insideRec]
      cases (f.node b).label with
      | pointer shared => exact update_nonneg hs b (hs shared)
      | integer rule =>
        by_cases hrule : rule = orInt
        · simp only [if_pos hrule]
          apply hchildren _ fun x y hx hy => add_nonneg hx hy
          exact update_nonneg (hrec (b + 1) s hs) b (hrec (b + 1) s hs _)
        · simp only [if_neg hrule]
          apply hchildren _ fun x y hx hy => mul_nonneg hx hy
          exact update_nonneg hs b (hw rule)
    · intro fold hfold p e b s hs
      rw [insideChildren]
      by_cases hbe : b < e
      · simp only [if_pos hbe]
        apply hchildren fold hfold
        exact update_nonneg (hrec b s hs) p (hfold _ _ (hrec b s hs p) (hrec b s hs b))
      · rw [if_neg hbe]
        exact hs

theorem computeInside_nonneg (hw : ∀ r, 0 ≤ ruleWeights r) (hi : ∀ i, 0 ≤ inside i) (i : ℕ) :
    0 ≤ (f.computeInside ruleWeights inside).inside i :=
  (insideRec_nonneg hw _).1 0 ⟨inside, []⟩ hi i

theorem passOutside_nonneg (hi : ∀ i, 0 ≤ inside i) (ho : ∀ i, 0 ≤ outside i) (link : ℕ × ℕ) (i : ℕ) :
    0 ≤ f.passOutside inside outside link i := by
  obtain ⟨p, c⟩ := link
  cases hlabel : (f.node p).label with
  | pointer t =>
    simp only [passOutside, hlabel]
    exact ho i
  | integer rule =>
    by_cases hrule : rule = orInt
    · simp only [passOutside, hlabel, if_pos hrule]
      exact update_nonneg ho c (add_nonneg (ho c) (ho p)) i
    · by_cases hne : inside p ≠ 0
      · simp only [passOutside, hlabel, if_neg hrule, if_pos hne]
        apply update_nonneg ho c
        exact add_nonneg (ho c) (div_nonneg (mul_nonneg (ho p) (hi p)) (hi c))
      · simp only [passOutside, hlabel, if_neg hrule, if_neg hne]
        exact ho i

theorem computeNormOutside_nonneg {s : InsideState K} (hi : ∀ i, 0 ≤ s.inside i)
    (ho : ∀ i, 0 ≤ outside i) (i : ℕ) : 0 ≤ (f.computeNormOutside s outside).2 i := by
  unfold computeNormOutside
  by_cases hpos : 0 < s.inside 0
  · rw [if_neg (not_not_intro hpos)]
    have hstart : ∀ i, 0 ≤ f.startOutside s.inside outside i := by
      intro i
      unfold startOutside
      split_ifs
      · exact inv_nonneg.mpr (hi 0)
      · exact le_refl 0
      · exact ho i
    apply List.foldlRecOn (motive := fun o : ℕ → K => ∀ i, 0 ≤ o i) _ _ hstart
    intro o ho link _
    exact passOutside_nonneg hi ho link
  · rw [if_pos hpos]
    exact ho i

theorem contribution_nonneg {m o : ℕ → K} (hm : ∀ i, 0 ≤ m i) (ho : ∀ i, 0 ≤ o i) (r : ℕ) :
    0 ≤ f.contribution m o r := by
  apply List.sum_nonneg
  intro x hx
  obtain ⟨n, _, rfl⟩ := List.mem_map.mp hx
  exact mul_nonneg (hm n.2) (ho n.2)

omit [LinearOrder K] [IsStrictOrderedRing K] in
/-- Without counts nothing is contributed. -/
theorem contribution_eq_zero {m o : ℕ → K} (h : ∀ node ∈ f.ruleNodes, m node.2 * o node.2 = 0)
    (r : ℕ) : f.contribution m o r = 0 := by
  apply List.sum_eq_zero
  intro x hx
  obtain ⟨n, hn, rfl⟩ := List.mem_map.mp hx
  exact h n (List.mem_filter.mp hn).1

theorem contribution_eq_zero_iff {m o : ℕ → K} (hm : ∀ i, 0 ≤ m i) (ho : ∀ i, 0 ≤ o i) :
    (∀ r, f.contribution m o r = 0) ↔ ∀ node ∈ f.ruleNodes, m node.2 * o node.2 = 0 := by
  refine ⟨?_, contribution_eq_zero⟩
  intro h node hnode
  apply List.all_zero_of_le_zero_le_of_sum_eq_zero _ (h node.1)
  · apply List.mem_map_of_mem
    rw [List.mem_filter]
    exact ⟨hnode, by simp⟩
  · intro x hx
    obtain ⟨n, _, rfl⟩ := List.mem_map.mp hx
    exact mul_nonneg (hm n.2) (ho n.2)

end Nonneg

end FForest

namespace FForests

variable {args : PassArgs K L} {s s₁ s₂ : FForests K L} {f : FForest} {forests : List FForest} {r : ℕ}

/-- What printing the counts of the next forest adds to the counts of the corpus. -/
def extra (args : PassArgs K L) (s : FForests K L) (f : FForest) (r : ℕ) : K :=
  let pass := f.computeInside args.ruleWeights s.inside
  if Due args s then f.contribution pass.inside (f.computeNormOutside pass s.outside).2 r else 0

def extras (args : PassArgs K L) : FForests K L → List FForest → ℕ → K
  | _, [], _ => 0
  | s, f :: forests, r => extra args s f r + extras args (visitForest args s f) forests r

omit [LinearOrder K] [Field L] in
/-- The visitor changes nothing but the counts, and adds what is contributed to them. -/
theorem visitCount_eq (m o : ℕ → K) (s : FForests K L) :
    ∃ a : AccumulateCounts K, f.visitInsideNormOutside m o visitCount s = { s with countsAccum := a } ∧
      ∀ r, a.total r = s.countsAccum.total r + f.contribution m o r := by
  have hframe : ∀ (nodes : List (ℕ × ℕ)) (s : FForests K L), ∃ a : AccumulateCounts K,
      nodes.foldl (fun s n => visitCount n.1 (m n.2) (o n.2) s) s = { s with countsAccum := a } := by
    intro nodes
    induction nodes with
    | nil => exact fun s => ⟨s.countsAccum, rfl⟩
    | cons n nodes ih => exact fun s => ih (visitCount n.1 (m n.2) (o n.2) s)
  have hvisit : ∀ (rule : ℕ) (x y : K) (s : FForests K L) (r : ℕ),
      (visitCount rule x y s).countsAccum.total r =
        s.countsAccum.total r + if rule = r then x * y else 0 := by
    intro rule x y s r
    by_cases hr : rule = r
    · subst hr
      simp only [visitCount, AccumulateCounts.total, Function.update_self, if_true]
      ring
    · simp only [visitCount, AccumulateCounts.total, Function.update_of_ne (Ne.symm hr), if_neg hr,
        add_zero]
  obtain ⟨a, ha⟩ := hframe f.ruleNodes s
  refine ⟨a, ha, ?_⟩
  intro r
  have htotal := @FForest.visit_total K _ f m o r _ visitCount (fun s r => s.countsAccum.total r) hvisit s
  rw [← htotal]
  exact congrArg (fun s => s.countsAccum.total r) ha.symm

/-- What visiting the next forest does to a state, when counts are collected. -/
structure Visited (args : PassArgs K L) (go : Bool) (s : FForests K L) (f : FForest)
    (s' : FForests K L) : Prop where
  inside : s'.inside = (f.computeInside args.ruleWeights s.inside).inside
  outside : s'.outside =
    (f.computeNormOutside (f.computeInside args.ruleWeights s.inside) s.outside).2
  forestNo : s'.forestNo = s.forestNo + 1
  nZeroprob : s'.nZeroprob = if s'.inside 0 = 0 then s.nZeroprob + 1 else s.nZeroprob
  totalLogprob : s'.totalLogprob =
    if s'.inside 0 = 0 then s.totalLogprob else s.totalLogprob + args.getLn (s'.inside 0)
  total : ∀ r, s'.countsAccum.total r = s.countsAccum.total r + alone args s f r +
    if go then extra args s f r else 0
  out : s'.perForestCountsOut = s.perForestCountsOut ++ if go = true ∧ Due args s then [[]] else []

theorem visited_visitForest (args : PassArgs K L) (go : Bool) (s : FForests K L) (f : FForest) :
    Visited args go s f (visitForest (args.counting go) s f) := by
  let pass := f.computeInside args.ruleWeights s.inside
  let t := addLogprob (args.counting go) (pass.inside 0)
    (collect (args.counting go) f pass { s with forestNo := s.forestNo + 1, inside := pass.inside })
  -- before the counts of the forest are printed
  have ht : Visited args false s f t := by
    by_cases hzero : pass.inside 0 = 0
    · have heq : t = { collect (args.counting go) f pass
          { s with forestNo := s.forestNo + 1, inside := pass.inside } with
            nZeroprob := s.nZeroprob + 1 } := if_pos hzero
      rw [heq]
      exact ⟨rfl, rfl, rfl, (if_pos hzero).symm, (if_pos hzero).symm, fun r => by
        simp [alone, collect, PassArgs.counting, pass], by simp [collect, PassArgs.counting]⟩
    · have heq : t = { collect (args.counting go) f pass
          { s with forestNo := s.forestNo + 1, inside := pass.inside } with
            totalLogprob := s.totalLogprob + args.getLn (pass.inside 0) } := if_neg hzero
      rw [heq]
      exact ⟨rfl, rfl, rfl, (if_neg hzero).symm, (if_neg hzero).symm, fun r => by
        simp [alone, collect, PassArgs.counting, pass], by simp [collect, PassArgs.counting]⟩
  have hno : ∀ period, t.forestNo % period = (s.forestNo + 1) % period := by
    intro period
    rw [ht.forestNo]
  by_cases hprint : go = true ∧ Due args s
  · have hvisit : visitForest (args.counting go) s f =
        printPerForestCounts (args.counting go) f pass t :=
      if_pos ⟨hprint.1, (hno _).trans hprint.2⟩
    rw [hvisit]
    obtain ⟨a, ha, htotal⟩ := visitCount_eq (f := f) pass.inside t.outside { t with perForestCounts := [] }
    have heq : printPerForestCounts (args.counting go) f pass t = { t with
          countsAccum := a
          perForestCounts := []
          perForestCountsOut := t.perForestCountsOut ++ [[]] } := by
      unfold printPerForestCounts
      simp only [PassArgs.counting, if_true, ha]
    rw [heq]
    refine ⟨ht.inside, ht.outside, ht.forestNo, ht.nZeroprob, ht.totalLogprob, ?_, ?_⟩
    · intro r
      show a.total r = _
      rw [htotal r]
      show t.countsAccum.total r + _ = _
      rw [ht.total r, ht.outside, hprint.1]
      simp [extra, hprint.2, pass]
    · show t.perForestCountsOut ++ [[]] = _
      rw [ht.out, if_pos hprint]
      simp
  · have hvisit : visitForest (args.counting go) s f = t :=
      if_neg fun h => hprint ⟨h.1, (hno _).symm.trans h.2⟩
    rw [hvisit]
    refine ⟨ht.inside, ht.outside, ht.forestNo, ht.nZeroprob, ht.totalLogprob, ?_, ?_⟩
    · intro r
      rw [ht.total r]
      by_cases hgo : go = true
      · have hnot : ¬ Due args s := fun h => hprint ⟨hgo, h⟩
        simp [extra, hnot]
      · simp [hgo]
    · rw [ht.out, if_neg hprint]
      simp

/-- Two states that differ in the counts, and in what is printed, only. -/
structure Alike (s₁ s₂ : FForests K L) : Prop where
  inside : s₁.inside = s₂.inside
  outside : s₁.outside = s₂.outside
  forestNo : s₁.forestNo = s₂.forestNo
  nZeroprob : s₁.nZeroprob = s₂.nZeroprob
  totalLogprob : s₁.totalLogprob = s₂.totalLogprob

omit [Field L] in
/-- What a forest contributes does not depend on the counts. -/
theorem alone_eq (args : PassArgs K L) (s : FForests K L) (f : FForest) (r : ℕ) :
    alone args s f r = if 0 < (f.computeInside args.ruleWeights s.inside).inside 0 then
        f.contribution (f.computeInside args.ruleWeights s.inside).inside
          (f.computeNormOutside (f.computeInside args.ruleWeights s.inside) s.outside).2 r
      else 0 := by
  unfold alone
  by_cases hpos : 0 < (f.computeInside args.ruleWeights s.inside).inside 0
  · rw [if_pos hpos]
    simp only [FForest.total_collectCounts hpos, add_sub_cancel_left]
    rw [FForest.computeNormOutside, if_neg (not_not_intro hpos)]
  · rw [if_neg hpos]
    simp only [AccumulateCounts.collectCounts, FForest.computeNormOutside, if_pos hpos]
    simp

variable (args forests) in
/-- Side by side, the pass that prints has the extras in its counts, and has printed
nothing for every forest that was due. -/
theorem foldl_visitForest (h : Alike s₁ s₂) :
    let t₁ := forests.foldl (visitForest (args.counting true)) s₁
    let t₂ := forests.foldl (visitForest (args.counting false)) s₂
    Alike t₁ t₂ ∧ (∀ r, t₁.countsAccum.total r - t₂.countsAccum.total r =
        s₁.countsAccum.total r - s₂.countsAccum.total r + extras (args.counting false) s₂ forests r) ∧
      t₁.perForestCountsOut = s₁.perForestCountsOut ++
        List.replicate (contributions (args.counting false) s₂ forests).length [] := by
  induction forests generalizing s₁ s₂ with
  | nil => exact ⟨h, fun r => by simp [extras], by simp [contributions]⟩
  | cons f forests ih =>
    have h₁ := visited_visitForest args true s₁ f
    have h₂ := visited_visitForest args false s₂ f
    have hinside : (visitForest (args.counting true) s₁ f).inside =
        (visitForest (args.counting false) s₂ f).inside := by
      rw [h₁.inside, h₂.inside, h.inside]
    have hdue : Due args s₁ ↔ Due args s₂ := by
      unfold Due
      rw [h.forestNo]
    have halike : Alike (visitForest (args.counting true) s₁ f)
        (visitForest (args.counting false) s₂ f) := by
      refine ⟨hinside, ?_, ?_, ?_, ?_⟩
      · rw [h₁.outside, h₂.outside, h.inside, h.outside]
      · rw [h₁.forestNo, h₂.forestNo, h.forestNo]
      · rw [h₁.nZeroprob, h₂.nZeroprob, hinside, h.nZeroprob]
      · rw [h₁.totalLogprob, h₂.totalLogprob, hinside, h.totalLogprob]
    have halone : ∀ r, alone args s₁ f r = alone args s₂ f r := by
      intro r
      rw [alone_eq, alone_eq, h.inside, h.outside]
    have hextra : ∀ r, extra args s₁ f r = extra args s₂ f r := by
      intro r
      simp only [extra, hdue, h.inside, h.outside]
    obtain ⟨hafter, htotal, hout⟩ := ih halike
    refine ⟨hafter, ?_, ?_⟩
    · intro r
      refine (htotal r).trans ?_
      rw [h₁.total r, h₂.total r, halone, hextra, extras]
      have hcounting : extra (args.counting false) s₂ f r = extra args s₂ f r := rfl
      rw [hcounting]
      simp only [if_true, Bool.false_eq_true, if_false]
      ring
    · refine hout.trans ?_
      rw [h₁.out, contributions, List.length_append, List.replicate_add, List.append_assoc]
      congr 1
      by_cases hd : Due args s₂
      · have hd' : Due (args.counting false) s₂ := hd
        simp [hdue.mpr hd, hd']
      · have hd' : ¬ Due (args.counting false) s₂ := hd
        have hd₁ : ¬ Due args s₁ := fun hd₁ => hd (hdue.mp hd₁)
        simp [hd₁, hd']

section Nonneg

variable [IsStrictOrderedRing K]

/-- The arrays hold weights, which are never negative. -/
def Nonneg (s : FForests K L) : Prop := (∀ i, 0 ≤ s.inside i) ∧ ∀ i, 0 ≤ s.outside i

theorem Nonneg.visitForest {go : Bool} (hw : ∀ r, 0 ≤ args.ruleWeights r) (hs : Nonneg s) :
    Nonneg (visitForest (args.counting go) s f) := by
  have h := visited_visitForest args go s f
  unfold Nonneg
  rw [h.inside, h.outside]
  have hinside := FForest.computeInside_nonneg (f := f) hw hs.1
  exact ⟨hinside, FForest.computeNormOutside_nonneg hinside hs.2⟩

omit [Field L] in
theorem alone_nonneg (hw : ∀ r, 0 ≤ args.ruleWeights r) (hs : Nonneg s) : 0 ≤ alone args s f r := by
  have hinside := FForest.computeInside_nonneg (f := f) hw hs.1
  rw [alone_eq]
  split_ifs
  · exact FForest.contribution_nonneg hinside (FForest.computeNormOutside_nonneg hinside hs.2) r
  · exact le_refl 0

omit [Field L] in
theorem extra_nonneg (hw : ∀ r, 0 ≤ args.ruleWeights r) (hs : Nonneg s) : 0 ≤ extra args s f r := by
  have hinside := FForest.computeInside_nonneg (f := f) hw hs.1
  unfold extra
  by_cases hd : Due args s
  · rw [if_pos hd]
    exact FForest.contribution_nonneg hinside (FForest.computeNormOutside_nonneg hinside hs.2) r
  · rw [if_neg hd]

omit [Field L] in
theorem extra_eq_zero_iff (hw : ∀ r, 0 ≤ args.ruleWeights r) (hs : Nonneg s) :
    (∀ r, extra args s f r = 0) ↔ (Due args s → f.Uncounted args.ruleWeights s.inside s.outside) := by
  have hinside := FForest.computeInside_nonneg (f := f) hw hs.1
  have houtside := FForest.computeNormOutside_nonneg (f := f) hinside hs.2
  by_cases hd : Due args s
  · simp only [extra, hd, if_true, forall_const]
    exact FForest.contribution_eq_zero_iff hinside houtside
  · simp [extra, hd]

theorem extras_nonneg (hw : ∀ r, 0 ≤ args.ruleWeights r) (hs : Nonneg s) (r : ℕ) :
    0 ≤ extras (args.counting false) s forests r := by
  induction forests generalizing s with
  | nil => exact le_refl 0
  | cons f forests ih => exact add_nonneg (extra_nonneg hw hs) (ih (hs.visitForest hw))

/-- Nothing extra is added exactly when nothing that is due has a count. -/
theorem extras_eq_zero_iff (hw : ∀ r, 0 ≤ args.ruleWeights r) (hs : Nonneg s) :
    (∀ r, extras (args.counting false) s forests r = 0) ↔
      NothingDue (args.counting false) s forests := by
  induction forests generalizing s with
  | nil => simp [extras, NothingDue]
  | cons f forests ih =>
    have hnext : Nonneg (visitForest (args.counting false) s f) := hs.visitForest hw
    have hfirst := extra_eq_zero_iff (f := f) hw hs
    rw [NothingDue, ← ih hnext]
    constructor
    · intro h
      have hboth : ∀ r, extra args s f r = 0 ∧
          extras (args.counting false) (visitForest (args.counting false) s f) forests r = 0 := by
        intro r
        exact (add_eq_zero_iff_of_nonneg (extra_nonneg hw hs) (extras_nonneg hw hnext r)).mp (h r)
      exact ⟨hfirst.mp fun r => (hboth r).1, fun r => (hboth r).2⟩
    · intro h r
      rw [extras, h.2 r, add_zero]
      exact hfirst.mpr h.1 r

/-- Then the forests that are due contribute nothing, as printed. -/
theorem contributions_eq (hw : ∀ r, 0 ≤ args.ruleWeights r) (hs : Nonneg s)
    (h : NothingDue (args.counting false) s forests) :
    contributions (args.counting false) s forests =
      List.replicate (contributions (args.counting false) s forests).length 0 := by
  rw [List.eq_replicate_iff]
  refine ⟨rfl, ?_⟩
  induction forests generalizing s with
  | nil => simp [contributions]
  | cons f forests ih =>
    intro c hc
    rw [contributions, List.mem_append] at hc
    rcases hc with hc | hc
    · by_cases hd : Due (args.counting false) s
      · rw [if_pos hd, List.mem_singleton] at hc
        have hinside := FForest.computeInside_nonneg (f := f) hw hs.1
        have houtside := FForest.computeNormOutside_nonneg (f := f) hinside hs.2
        funext r
        rw [hc, alone_eq]
        split_ifs
        · exact (FForest.contribution_eq_zero_iff hinside houtside).mpr (h.1 hd) r
        · rfl
      · simp [hd] at hc
    · exact ih (hs.visitForest hw) h.2 c hc

end Nonneg

end FForests

section Root

variable [IsStrictOrderedRing K] {t : TextItems} {items : Items} {text rest : List Char}
variable {ruleWeights : ℕ → K} {trees : ℕ → List RTree}

omit [Field L] in
/-- If no rule is used, no tree has a probability. -/
theorem sum_weight_eq_zero (hw : ∀ r, 0 ≤ ruleWeights r) {ts : List RTree}
    (h : ∀ r, FForest.expectedUses ruleWeights r ts = 0) :
    (ts.map (RTree.weight ruleWeights)).sum = 0 := by
  apply List.sum_eq_zero
  intro x hx
  obtain ⟨⟨rule, kids⟩, ht, rfl⟩ := List.mem_map.mp hx
  have hzero : (RTree.node rule kids).weight ruleWeights * ((RTree.node rule kids).uses rule : K) = 0 := by
    apply List.all_zero_of_le_zero_le_of_sum_eq_zero _ (h rule)
      (List.mem_map_of_mem (f := fun t => t.weight ruleWeights * (t.uses rule : K)) ht)
    intro y hy
    obtain ⟨t', _, rfl⟩ := List.mem_map.mp hy
    exact mul_nonneg (RTree.weight_nonneg hw t') (Nat.cast_nonneg _)
  have huses : ((RTree.node rule kids).uses rule : K) ≠ 0 := by
    rw [RTree.uses, if_pos rfl]
    exact Nat.cast_ne_zero.mpr (by omega)
  exact (mul_eq_zero.mp hzero).resolve_right huses

/-- The forest of a text has no count to print exactly when none of its trees has a
probability, and what an earlier forest left outside meets none of its nodes that have. -/
theorem IsForestText.uncounted_iff (h : IsForestText t items text rest) (hor : items.NoEmptyOr)
    (hshares : (FForest.mk (items.layout 0)).SharesDone) (hw : ∀ r, 0 ≤ ruleWeights r)
    (htrees : (FForest.mk (items.layout 0)).IsExpansion trees) (inside outside : ℕ → K) :
    (FForest.mk (items.layout 0)).Uncounted ruleWeights inside outside ↔
      ((trees 0).map (RTree.weight ruleWeights)).sum = 0 ∧
        ∀ node ∈ (FForest.mk (items.layout 0)).ruleNodes,
          ((trees node.2).map (RTree.weight ruleWeights)).sum = 0 ∨ outside node.2 = 0 := by
  obtain ⟨hpos, hinside, hcontribution⟩ := h.passes hor hshares hw htrees inside
  have hnode : ∀ node ∈ (FForest.mk (items.layout 0)).ruleNodes, node.2 < items.size := by
    intro node hnode
    have hsize := (FForest.mem_ruleNodes.mp hnode).1
    rw [FForest.size, Items.length_layout] at hsize
    exact hsize
  have hnonneg : 0 ≤ ((trees 0).map (RTree.weight ruleWeights)).sum := by
    apply List.sum_nonneg
    intro x hx
    obtain ⟨t', _, rfl⟩ := List.mem_map.mp hx
    exact RTree.weight_nonneg hw t'
  unfold FForest.Uncounted FForest.computeNormOutside
  rcases hnonneg.eq_or_lt with hzero | htotal
  · -- the outside array is left as it was
    rw [if_pos (by rw [hinside 0 hpos, ← hzero]; exact lt_irrefl 0)]
    constructor
    · intro hun
      refine ⟨hzero.symm, ?_⟩
      intro node hmem
      rw [← hinside _ (hnode node hmem)]
      exact mul_eq_zero.mp (hun node hmem)
    · intro hun node hmem
      rw [hinside _ (hnode node hmem)]
      exact mul_eq_zero.mpr (hun.2 node hmem)
  · rw [if_neg (by rw [not_not, hinside 0 hpos]; exact htotal)]
    constructor
    · intro hun
      have huses : ∀ r, FForest.expectedUses ruleWeights r (trees 0) = 0 := by
        intro r
        have hzero := FForest.contribution_eq_zero hun r
        rw [hcontribution, hinside 0 hpos] at hzero
        exact (mul_eq_zero.mp hzero).resolve_left (inv_ne_zero htotal.ne')
      exact absurd (sum_weight_eq_zero hw huses) htotal.ne'
    · intro hun
      exact absurd hun.1 htotal.ne'

/-- **Counts of single forests.** Printing them leaves the arrays and the sum of the
logarithms as they are. It leaves the counts as they are, and prints what each forest
contributes, exactly when no forest that is due has a count; for the forest of a text
this means that none of its trees has a probability, and that no node that has one is
met by what earlier forests have left in the outside array. -/
theorem perForestCounts_iff (args : PassArgs K L) (hw : ∀ r, 0 ≤ args.ruleWeights r)
    (forests : List FForest) (s : FForests K L) (hs : s.Nonneg) :
    let start := FForests.beginVisit (args.counting false) forests s
    let s₁ := FForests.estimateVisit (args.counting true) forests s
    let s₂ := FForests.estimateVisit (args.counting false) forests s
    FForests.Alike s₁ s₂ ∧
    ((s₁.countsAccum.counts = s₂.countsAccum.counts ∧
        s₁.perForestCountsOut.map AccumulateCounts.overflowOf =
          s.perForestCountsOut.map AccumulateCounts.overflowOf ++
            FForests.contributions (args.counting false) start forests) ↔
      FForests.NothingDue (args.counting false) start forests) ∧
    ∀ (t : TextItems) (items : Items) (text rest : List Char), IsForestText t items text rest →
      items.NoEmptyOr → (FForest.mk (items.layout 0)).SharesDone →
      ∀ trees, (FForest.mk (items.layout 0)).IsExpansion trees → ∀ inside outside : ℕ → K,
        ((FForest.mk (items.layout 0)).Uncounted args.ruleWeights inside outside ↔
          ((trees 0).map (RTree.weight args.ruleWeights)).sum = 0 ∧
            ∀ node ∈ (FForest.mk (items.layout 0)).ruleNodes,
              ((trees node.2).map (RTree.weight args.ruleWeights)).sum = 0 ∨
                outside node.2 = 0) := by
  intro start s₁ s₂
  have hstart : FForests.beginVisit (args.counting true) forests s = start := rfl
  have hnonneg : start.Nonneg := hs
  obtain ⟨halike, htotal, hout⟩ := FForests.foldl_visitForest args forests
    (show FForests.Alike start start from ⟨rfl, rfl, rfl, rfl, rfl⟩)
  have hcounts : ∀ r, s₁.countsAccum.counts r - s₂.countsAccum.counts r =
      FForests.extras (args.counting false) start forests r := by
    intro r
    have h := htotal r
    rw [sub_self, zero_add] at h
    rw [← h]
    exact congrArg₂ (· - ·) AccumulateCounts.counts_finishCounts AccumulateCounts.counts_finishCounts
  refine ⟨⟨halike.inside, halike.outside, halike.forestNo, halike.nZeroprob, halike.totalLogprob⟩, ?_,
    fun t items text rest h hor hshares trees htrees inside outside =>
      h.uncounted_iff hor hshares hw htrees inside outside⟩
  constructor
  · intro h
    rw [← FForests.extras_eq_zero_iff hw hnonneg]
    intro r
    rw [← hcounts r, h.1, sub_self]
  · intro hdue
    constructor
    · funext r
      have h := hcounts r
      rw [(FForests.extras_eq_zero_iff hw hnonneg).mpr hdue r] at h
      exact sub_eq_zero.mp h
    · have hnil : AccumulateCounts.overflowOf ([] : List (ℕ × K)) = 0 := rfl
      have hprinted : s₁.perForestCountsOut = s.perForestCountsOut ++
          List.replicate (FForests.contributions (args.counting false) start forests).length [] := hout
      rw [hprinted, List.map_append, List.map_replicate, hnil]
      exact congrArg _ (FForests.contributions_eq hw hnonneg hdue).symm

end Root

/-- A corpus with the forest `2`, printed for every forest. -/
def oneLeaf : PassArgs ℚ ℚ where
  ruleWeights := fun _ => 1 / 2
  priorCount := 0
  isNearAddOneLimit := fun _ => false
  getLn := fun _ => 0
  collectCounts := true
  perForestCountsGo := true
  perForestCountsPeriod := 1

/-- Arrays of zeros. -/
def FForests.zero : FForests ℚ ℚ := ⟨fun _ => 0, fun _ => 0, ⟨fun _ => 0, [], 0, 0, 0⟩, 0, 0, 0, [], []⟩

theorem perForestCounts_iff_oneLeaf :
    let forests := [FForest.mk ((Items.node 2 .nil .nil).layout 0)]
    let start := FForests.beginVisit (oneLeaf.counting false) forests .zero
    let s₁ := FForests.estimateVisit (oneLeaf.counting true) forests .zero
    let s₂ := FForests.estimateVisit (oneLeaf.counting false) forests .zero
    FForests.Alike s₁ s₂ ∧
    ((s₁.countsAccum.counts = s₂.countsAccum.counts ∧
        s₁.perForestCountsOut.map AccumulateCounts.overflowOf =
          FForests.zero.perForestCountsOut.map AccumulateCounts.overflowOf ++
            FForests.contributions (oneLeaf.counting false) start forests) ↔
      FForests.NothingDue (oneLeaf.counting false) start forests) := by
  have hweights : ∀ r, 0 ≤ oneLeaf.ruleWeights r := by
    intro r
    show (0 : ℚ) ≤ 1 / 2
    norm_num
  have h := perForestCounts_iff oneLeaf hweights [FForest.mk ((Items.node 2 .nil .nil).layout 0)]
    .zero ⟨fun _ => le_refl 0, fun _ => le_refl 0⟩
  exact ⟨h.1, h.2.1⟩

/-- The count of the rule is doubled, and its count of one is not printed. -/
theorem perForestCounts_oneLeaf :
    (FForests.estimateVisit (oneLeaf.counting false) [⟨(Items.node 2 .nil .nil).layout 0⟩]
      .zero).countsAccum.counts 2 = 1 ∧
    (FForests.estimateVisit (oneLeaf.counting true) [⟨(Items.node 2 .nil .nil).layout 0⟩]
      .zero).countsAccum.counts 2 = 2 ∧
    (FForests.estimateVisit (oneLeaf.counting true) [⟨(Items.node 2 .nil .nil).layout 0⟩]
      .zero).perForestCountsOut = [[]] := by
  decide +kernel

end Carmel.Forest
