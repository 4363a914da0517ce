/-
# Scale groups of forest-em

Before sampling, forest-em registers one scale group for each normalization
group, defines its parameters with the numbers of their normalization groups and
cuts the table of scale groups to the numbers in use. The registration counts the
groups from 0 and the definition from 1.
-/

import Carmel.Math.Instances

namespace Carmel.ForestEm

universe u v

/-- Write to an array that grows with default values up to the index. -/
def atExpand {α : Type u} (default : α) (l : List α) (i : ℕ) (x : α) : List α :=
  (l ++ List.replicate (i + 1 - l.length) default).set i x

/-- `gibbs_param`; `none` is `NONORM`. -/
structure GibbsParam (K : Type v) where
  norm : Option ℕ
  prior : K

/-- `metanorm`: the scale group of each normalization group. -/
structure Metanorm where
  ids : List ℕ
  nexti : ℕ

namespace Metanorm

def add (norm : ℕ) (m : Metanorm) : Metanorm := { m with ids := atExpand 0 m.ids norm m.nexti }

/-- `add_fixed`. -/
def addFixed (norm : ℕ) (m : Metanorm) : Metanorm := { m with ids := atExpand 0 m.ids norm 0 }

def finishScalegroup (m : Metanorm) : Metanorm := { m with nexti := m.nexti + 1 }

def resize (n : ℕ) (m : Metanorm) : Metanorm :=
  { m with ids := m.ids.take n ++ List.replicate (n - m.ids.length) 0 }

end Metanorm

/-- The parameters, and the bound of the normalization groups in use. -/
structure GibbsBase (K : Type v) where
  gps : List (GibbsParam K)
  nnorm : ℕ

section Code

variable {K : Type v} [Ring K] [LinearOrder K]
variable (uniformp0 : Bool) (ruleWeights alpha : ℕ → K)

/-- `NONORM + 1` is 0 in the type of the numbers. -/
def GibbsBase.defineParamId (id : ℕ) (norm : Option ℕ) (prior : K) (s : GibbsBase K) :
    GibbsBase K where
  gps := atExpand ⟨none, 0⟩ s.gps id ⟨norm, prior⟩
  nnorm := max s.nnorm (norm.elim 0 (· + 1))

/-- A parameter outside every group, or locked: its probability is fixed. -/
def visitFixed (p : ℕ) (s : GibbsBase K) : GibbsBase K := s.defineParamId p none (ruleWeights p)

/-- A parameter of the group number `normid`; a negative alpha locks it. -/
def visitParam (normid : ℕ) (normsz : K) (p : ℕ) (s : GibbsBase K) : GibbsBase K :=
  if alpha p < 0 then visitFixed ruleWeights p s
  else s.defineParamId p (some normid)
    (if uniformp0 then alpha p else alpha p * ruleWeights p * normsz)

/-- The loop over the groups of `visit_norm_param`; `normi` counts them from 1. -/
def visitGroups (normi : ℕ) : List (List ℕ) → GibbsBase K → GibbsBase K
  | [], s => s
  | group :: groups, s =>
    let normi := normi + 1
    visitGroups normi groups (group.foldl
      (fun s p => visitParam uniformp0 ruleWeights alpha normi group.length p s) s)

/-- `visit_norm_param`, with the parameters below `rulespace` that no group has. -/
def visitNormParam (groups : List (List ℕ)) (rulespace : ℕ) (s : GibbsBase K) : GibbsBase K :=
  (List.range rulespace).foldl
    (fun s p => if p ∈ groups.flatten then s else visitFixed ruleWeights p s)
    (visitGroups uniformp0 ruleWeights alpha 0 groups s)

/-- `to_gibbs`, with the weights after normalization; no override in `finish_params`. -/
def toGibbs (groups : List (List ℕ)) (rulespace : ℕ) : Metanorm × GibbsBase K :=
  let priorScale := (List.range groups.length).foldl
    (fun (m : Metanorm) i => (m.add i).finishScalegroup) ⟨[], 1⟩
  let base := visitNormParam uniformp0 ruleWeights alpha groups rulespace ⟨[], 0⟩
  (priorScale.resize base.nnorm, base)

end Code

section Tables

theorem getElem?_atExpand {α : Type u} (default : α) (l : List α) (i j : ℕ) (x : α) :
    (atExpand default l i x)[j]? =
      if j = i then some x else if j < l.length then l[j]? else if j < i then some default
      else none := by
  unfold atExpand
  rw [List.getElem?_set]
  by_cases hji : j = i
  · subst hji
    have hlt : j < (l ++ List.replicate (j + 1 - l.length) default).length := by
      rw [List.length_append, List.length_replicate]
      omega
    rw [if_pos rfl, if_pos hlt, if_pos rfl]
  · rw [if_neg (Ne.symm hji), if_neg hji, List.getElem?_append]
    by_cases hlt : j < l.length
    · rw [if_pos hlt, if_pos hlt]
    · rw [if_neg hlt, if_neg hlt, List.getElem?_replicate]
      by_cases hj : j < i
      · rw [if_pos (by omega), if_pos hj]
      · rw [if_neg (by omega), if_neg hj]

/-- Group number `i`, counted from 0, gets the scale group `i + 1`. -/
theorem registered (n : ℕ) :
    (List.range n).foldl (fun (m : Metanorm) i => (m.add i).finishScalegroup) ⟨[], 1⟩ =
      ⟨(List.range n).map (· + 1), n + 1⟩ := by
  induction n with
  | zero => rfl
  | succ n ih =>
    rw [List.range_succ, List.foldl_append, ih, List.foldl_cons, List.foldl_nil]
    simp only [Metanorm.add, Metanorm.finishScalegroup, Metanorm.mk.injEq, and_true]
    apply List.ext_getElem?
    intro j
    rw [getElem?_atExpand, List.map_append, List.getElem?_append]
    simp only [List.length_map, List.length_range, List.map_cons, List.map_nil]
    by_cases hj : j = n
    · simp [hj]
    · rw [if_neg hj]
      by_cases hlt : j < n
      · rw [if_pos hlt, if_pos hlt]
      · rw [if_neg hlt, if_neg hlt, if_neg hlt, List.getElem?_eq_none]
        simp only [List.length_singleton]
        omega

/-- What the resized table says: the last group was never registered. -/
theorem getElem?_resize_registered {n nnorm i : ℕ} (hi : i < nnorm) :
    ((⟨(List.range n).map (· + 1), n + 1⟩ : Metanorm).resize nnorm).ids[i]? =
      some (if i < n then i + 1 else 0) := by
  simp only [Metanorm.resize, List.length_map, List.length_range]
  rw [List.getElem?_append]
  by_cases hlt : i < n
  · have hlen : i < (((List.range n).map (· + 1)).take nnorm).length := by
      rw [List.length_take, List.length_map, List.length_range]
      omega
    rw [if_pos hlen, if_pos hlt, List.getElem?_take_of_lt hi, List.getElem?_map,
      List.getElem?_range hlt]
    rfl
  · have hlen : ¬ i < (((List.range n).map (· + 1)).take nnorm).length := by
      rw [List.length_take, List.length_map, List.length_range]
      omega
    rw [if_neg hlen, if_neg hlt, List.getElem?_replicate, if_pos]
    rw [List.length_take, List.length_map, List.length_range]
    omega

theorem length_resize (n : ℕ) (m : Metanorm) : (m.resize n).ids.length = n := by
  simp only [Metanorm.resize, List.length_append, List.length_take, List.length_replicate]
  omega

end Tables

section Params

variable {K : Type v} [Ring K] [LinearOrder K]
variable {uniformp0 : Bool} {ruleWeights alpha : ℕ → K} {groups : List (List ℕ)}
variable {s : GibbsBase K} {p q g h : ℕ} {norm : Option ℕ} {prior : K}

/-- The normalization group of a parameter. -/
def GibbsBase.normOf (s : GibbsBase K) (p : ℕ) : Option ℕ := s.gps[p]?.bind GibbsParam.norm

omit [LinearOrder K] in
theorem normOf_defineParamId :
    (s.defineParamId q norm prior).normOf p = if p = q then norm else s.normOf p := by
  unfold GibbsBase.normOf GibbsBase.defineParamId
  rw [getElem?_atExpand]
  by_cases hpq : p = q
  · simp [hpq]
  · rw [if_neg hpq, if_neg hpq]
    by_cases hlt : p < s.gps.length
    · rw [if_pos hlt]
    · rw [if_neg hlt, List.getElem?_eq_none (by omega)]
      by_cases hq : p < q
      · rw [if_pos hq]
        rfl
      · rw [if_neg hq]

/-- The number a group gives to its parameters. -/
def assigned (alpha : ℕ → K) (normid p : ℕ) : Option ℕ := if alpha p < 0 then none else some normid

theorem normOf_visitParam (normid : ℕ) (normsz : K) :
    (visitParam uniformp0 ruleWeights alpha normid normsz q s).normOf p =
      if p = q then assigned alpha normid q else s.normOf p := by
  unfold visitParam visitFixed assigned
  by_cases hlocked : alpha q < 0
  · rw [if_pos hlocked, if_pos hlocked, normOf_defineParamId]
  · rw [if_neg hlocked, if_neg hlocked, normOf_defineParamId]

theorem normOf_group (normid : ℕ) (normsz : K) (group : List ℕ) :
    (group.foldl (fun s p => visitParam uniformp0 ruleWeights alpha normid normsz p s) s).normOf p =
      if p ∈ group then assigned alpha normid p else s.normOf p := by
  induction group generalizing s with
  | nil => simp
  | cons q group ih =>
    rw [List.foldl_cons, ih, normOf_visitParam]
    by_cases hmem : p ∈ group
    · simp [hmem]
    · by_cases hpq : p = q
      · simp [hpq]
      · simp [hmem, hpq]

/-- The last one of the groups that list `p`, at index `i`. -/
def LastAt (groups : List (List ℕ)) (p i : ℕ) : Prop :=
  (∃ group, groups[i]? = some group ∧ p ∈ group) ∧
    ∀ j later, i < j → groups[j]? = some later → p ∉ later

theorem LastAt.unique {i j : ℕ} (hi : LastAt groups p i) (hj : LastAt groups p j) : i = j := by
  obtain ⟨⟨group, hgroup, hmem⟩, hlater⟩ := hi
  obtain ⟨⟨group', hgroup', hmem'⟩, hlater'⟩ := hj
  rcases lt_trichotomy i j with hlt | heq | hlt
  · exact absurd hmem' (hlater j group' hlt hgroup')
  · exact heq
  · exact absurd hmem (hlater' i group hlt hgroup)

theorem LastAt.mem_flatten {i : ℕ} (h : LastAt groups p i) : p ∈ groups.flatten := by
  obtain ⟨⟨group, hgroup, hmem⟩, _⟩ := h
  exact List.mem_flatten.mpr ⟨group, List.mem_of_getElem? hgroup, hmem⟩

variable (uniformp0 ruleWeights alpha p) in
/-- The last group that lists a parameter, if there is one, gives it its number. -/
theorem normOf_visitGroups (k : ℕ) (groups : List (List ℕ)) (s : GibbsBase K) :
    (p ∉ groups.flatten ∧
        (visitGroups uniformp0 ruleWeights alpha k groups s).normOf p = s.normOf p) ∨
      ∃ i, LastAt groups p i ∧ (visitGroups uniformp0 ruleWeights alpha k groups s).normOf p =
          assigned alpha (k + i + 1) p := by
  induction groups generalizing k s with
  | nil => exact .inl ⟨by simp, rfl⟩
  | cons group groups ih =>
    rw [visitGroups]
    rcases ih (k + 1) (group.foldl
      (fun s p => visitParam uniformp0 ruleWeights alpha (k + 1) group.length p s) s) with
      ⟨hnone, heq⟩ | ⟨i, hlast, heq⟩
    · simp only [heq, normOf_group]
      by_cases hmem : p ∈ group
      · refine .inr ⟨0, ⟨⟨group, rfl, hmem⟩, ?_⟩, by simp [hmem]⟩
        intro j later hj hlater hp
        obtain ⟨j, rfl⟩ : ∃ m, j = m + 1 := ⟨j - 1, by omega⟩
        rw [List.getElem?_cons_succ] at hlater
        exact hnone (List.mem_flatten.mpr ⟨later, List.mem_of_getElem? hlater, hp⟩)
      · refine .inl ⟨?_, by simp [hmem]⟩
        rw [List.flatten_cons, List.mem_append]
        exact fun h => h.elim hmem hnone
    · refine .inr ⟨i + 1, ⟨hlast.1, ?_⟩, ?_⟩
      · intro j later hj hlater
        obtain ⟨j, rfl⟩ : ∃ m, j = m + 1 := ⟨j - 1, by omega⟩
        rw [List.getElem?_cons_succ] at hlater
        exact hlast.2 j later (by omega) hlater
      · simp only [heq]
        congr 1
        omega

/-- `p` is an unlocked parameter of the group number `g`, counted from 1, and of
none after it. -/
def InGroup (groups : List (List ℕ)) (alpha : ℕ → K) (p g : ℕ) : Prop :=
  0 < g ∧ LastAt groups p (g - 1) ∧ ¬ alpha p < 0

omit [LinearOrder K] in
theorem normOf_outside (ps : List ℕ) :
    (ps.foldl (fun s p => if p ∈ groups.flatten then s else visitFixed ruleWeights p s) s).normOf p =
      if p ∈ ps ∧ p ∉ groups.flatten then none else s.normOf p := by
  induction ps generalizing s with
  | nil => simp
  | cons q ps ih =>
    rw [List.foldl_cons, ih]
    by_cases hq : q ∈ groups.flatten
    · rw [if_pos hq]
      by_cases hpq : p = q
      · simp [hpq, hq]
      · simp [hpq]
    · rw [if_neg hq]
      unfold visitFixed
      rw [normOf_defineParamId]
      by_cases hpq : p = q
      · simp [hpq, hq]
      · simp [hpq]

variable (uniformp0 ruleWeights) in
/-- What a parameter's normalization group is after `define_gibbs`. -/
theorem normOf_visitNormParam (rulespace : ℕ) :
    (visitNormParam uniformp0 ruleWeights alpha groups rulespace ⟨[], 0⟩).normOf p = some g ↔
      InGroup groups alpha p g := by
  unfold visitNormParam
  rw [normOf_outside]
  rcases normOf_visitGroups uniformp0 ruleWeights alpha p 0 groups ⟨[], 0⟩ with ⟨hnone, heq⟩ | ⟨i, hlast, heq⟩
  · have hnotin : ¬ InGroup groups alpha p g := fun h => hnone h.2.1.mem_flatten
    have hempty : GibbsBase.normOf (⟨[], 0⟩ : GibbsBase K) p = none := rfl
    rw [heq, hempty, ite_self]
    exact iff_of_false (by simp) hnotin
  · rw [if_neg fun h => h.2 hlast.mem_flatten, heq, assigned]
    by_cases hlocked : alpha p < 0
    · rw [if_pos hlocked]
      exact iff_of_false (by simp) fun h => h.2.2 hlocked
    · rw [if_neg hlocked, Option.some.injEq]
      constructor
      · intro hg
        refine ⟨by omega, ?_, hlocked⟩
        rwa [show g - 1 = i by omega]
      · intro ⟨hg, hlast', _⟩
        have := hlast.unique hlast'
        omega

/-- Every normalization group in use is below the bound. -/
def GibbsBase.Bounded (s : GibbsBase K) : Prop := ∀ p g, s.normOf p = some g → g < s.nnorm

omit [LinearOrder K] in
theorem GibbsBase.Bounded.defineParamId (hs : s.Bounded) :
    (s.defineParamId q norm prior).Bounded := by
  intro p g hg
  rw [normOf_defineParamId] at hg
  show g < max s.nnorm (norm.elim 0 (· + 1))
  by_cases hpq : p = q
  · rw [if_pos hpq] at hg
    rw [hg]
    exact lt_of_lt_of_le (Nat.lt_succ_self g) (le_max_right _ _)
  · rw [if_neg hpq] at hg
    exact lt_of_lt_of_le (hs p g hg) (le_max_left _ _)

theorem GibbsBase.Bounded.visitParam (hs : s.Bounded) (normid : ℕ) (normsz : K) :
    (visitParam uniformp0 ruleWeights alpha normid normsz q s).Bounded := by
  unfold ForestEm.visitParam visitFixed
  by_cases hlocked : alpha q < 0
  · rw [if_pos hlocked]
    exact hs.defineParamId
  · rw [if_neg hlocked]
    exact hs.defineParamId

theorem GibbsBase.Bounded.group (hs : s.Bounded) (normid : ℕ) (normsz : K) (group : List ℕ) :
    (group.foldl (fun s p => ForestEm.visitParam uniformp0 ruleWeights alpha normid normsz p s)
      s).Bounded := by
  induction group generalizing s with
  | nil => exact hs
  | cons q group ih => exact ih (hs.visitParam normid normsz)

theorem GibbsBase.Bounded.visitGroups (hs : s.Bounded) (k : ℕ) (groups : List (List ℕ)) :
    (visitGroups uniformp0 ruleWeights alpha k groups s).Bounded := by
  induction groups generalizing k s with
  | nil => exact hs
  | cons group groups ih => exact ih (hs.group (k + 1) group.length group) (k + 1)

omit [LinearOrder K] in
theorem GibbsBase.Bounded.outside (hs : s.Bounded) (ps : List ℕ) :
    (ps.foldl (fun s p => if p ∈ groups.flatten then s else visitFixed ruleWeights p s) s).Bounded := by
  induction ps generalizing s with
  | nil => exact hs
  | cons q ps ih =>
    rw [List.foldl_cons]
    apply ih
    by_cases hq : q ∈ groups.flatten
    · rw [if_pos hq]
      exact hs
    · rw [if_neg hq]
      exact hs.defineParamId

theorem bounded_visitNormParam (rulespace : ℕ) :
    (visitNormParam uniformp0 ruleWeights alpha groups rulespace ⟨[], 0⟩).Bounded := by
  have hempty : (⟨[], 0⟩ : GibbsBase K).Bounded := fun p g hg => by
    have hnone : GibbsBase.normOf (⟨[], 0⟩ : GibbsBase K) p = none := rfl
    rw [hnone] at hg
    exact absurd hg (by simp)
  exact (hempty.visitGroups 0 groups).outside (List.range rulespace)

/-- The scale group that prior inference looks up for a parameter with a norm. -/
def scaleId (r : Metanorm × GibbsBase K) (p : ℕ) : Option ℕ := (r.2.normOf p).bind (r.1.ids[·]?)

/-- Prior inference scales every normalization group, each one independently. -/
structure ScalesGroups (groups : List (List ℕ)) (alpha : ℕ → K) (r : Metanorm × GibbsBase K) :
    Prop where
  same : ∀ p q g h, InGroup groups alpha p g → InGroup groups alpha q h →
    (scaleId r p = scaleId r q ↔ g = h)
  scaled : ∀ p g, InGroup groups alpha p g → ∃ id, scaleId r p = some id ∧ 0 < id ∧ id < r.1.nexti
  inRange : ∀ p g, r.2.normOf p = some g → g < r.1.ids.length

theorem InGroup.le (h : InGroup groups alpha p g) : 0 < g ∧ g ≤ groups.length := by
  obtain ⟨hpos, ⟨⟨group, hgroup, _⟩, _⟩, _⟩ := h
  have := (List.getElem?_eq_some_iff.mp hgroup).1
  exact ⟨hpos, by omega⟩

/-- The scale group of a parameter: one above its group's number, and 0 for the last group. -/
theorem scaleId_toGibbs {rulespace : ℕ} (h : InGroup groups alpha p g) :
    scaleId (toGibbs uniformp0 ruleWeights alpha groups rulespace) p =
      some (if g < groups.length then g + 1 else 0) := by
  have hnorm := (normOf_visitNormParam uniformp0 ruleWeights rulespace).mpr h
  have hlt := bounded_visitNormParam rulespace p g hnorm
  unfold scaleId toGibbs
  simp only [hnorm, registered, Option.bind_some]
  exact getElem?_resize_registered hlt

/-- The groups are scaled independently exactly when the last one has no
parameter that is not locked. -/
theorem toGibbs_scalesGroups_iff (uniformp0 : Bool) (ruleWeights alpha : ℕ → K)
    (groups : List (List ℕ)) (rulespace : ℕ) :
    ScalesGroups groups alpha (toGibbs uniformp0 ruleWeights alpha groups rulespace) ↔
      ∀ group ∈ groups.getLast?, ∀ p ∈ group, alpha p < 0 := by
  constructor
  · intro hscales group hlast p hp
    by_contra hlocked
    have hgroup : groups[groups.length - 1]? = some group := by
      rw [← List.getLast?_eq_getElem?]
      exact hlast
    have hlen := (List.getElem?_eq_some_iff.mp hgroup).1
    have hin : InGroup groups alpha p groups.length := by
      refine ⟨by omega, ⟨⟨group, hgroup, hp⟩, ?_⟩, hlocked⟩
      intro j later hj hlater
      have := (List.getElem?_eq_some_iff.mp hlater).1
      omega
    obtain ⟨id, hid, hpos, _⟩ := hscales.scaled p groups.length hin
    rw [scaleId_toGibbs hin, if_neg (lt_irrefl _), Option.some.injEq] at hid
    omega
  · intro hlocked
    have hlt : ∀ p g, InGroup groups alpha p g → g < groups.length := by
      intro p g h
      obtain ⟨hpos, hle⟩ := h.le
      by_contra hge
      obtain ⟨group, hgroup, hmem⟩ := h.2.1.1
      have heq : g = groups.length := by omega
      rw [heq, ← List.getLast?_eq_getElem?] at hgroup
      exact h.2.2 (hlocked group hgroup p hmem)
    constructor
    · intro p q g h hp hq
      rw [scaleId_toGibbs hp, scaleId_toGibbs hq, if_pos (hlt p g hp), if_pos (hlt q h hq)]
      simp
    · intro p g hp
      have hglt := hlt p g hp
      refine ⟨g + 1, ?_, Nat.succ_pos g, ?_⟩
      · rw [scaleId_toGibbs hp, if_pos hglt]
      · unfold toGibbs
        rw [registered]
        exact Nat.succ_lt_succ hglt
    · intro p g hg
      unfold toGibbs at hg ⊢
      rw [length_resize]
      exact bounded_visitNormParam rulespace p g hg

/-- One normalization group of one rule: its prior is never scaled. -/
theorem toGibbs_singleGroup :
    scaleId (toGibbs false (fun _ => 1) (fun _ => 1) [[0]] 1 : Metanorm × GibbsBase ℤ) 0 = some 0 ∧
      ¬ ScalesGroups [[0]] (fun _ => (1 : ℤ)) (toGibbs false (fun _ => 1) (fun _ => 1) [[0]] 1) := by
  have hzero : scaleId (toGibbs false (fun _ => 1) (fun _ => 1) [[0]] 1 : Metanorm × GibbsBase ℤ) 0 =
      some 0 := by decide
  refine ⟨hzero, ?_⟩
  intro hscales
  have hin : InGroup [[0]] (fun _ => (1 : ℤ)) 0 1 := by
    refine ⟨Nat.one_pos, ⟨⟨[0], rfl, by simp⟩, ?_⟩, by simp⟩
    intro j later hj hlater
    have := (List.getElem?_eq_some_iff.mp hlater).1
    simp only [List.length_singleton] at this
    omega
  obtain ⟨id, hid, hpos, _⟩ := hscales.scaled 0 1 hin
  rw [hzero, Option.some.injEq] at hid
  omega

end Params

end Carmel.ForestEm
