/-
# Normalization of counts in disjoint groups

`NormalizeGroups` divides the counts of each group by their sum, with an amount added for
the unseen, and notes the largest change and where it is. The counts may be in the array
that is written. The place is kept from one call to the next: only the change itself is
reset.
-/

import Carmel.Forest.ForestEm
import Carmel.Storage.SwapIterators

namespace Carmel.Forest

universe u

/-- What is done with a group without counts. -/
inductive ZeroCounts where
  | zero
  | skip
  | uniform
deriving DecidableEq, Repr

/-- What a call is given: the counts, unless they are in the array that is written, the
array that is written, and what to do about zero counts. -/
structure NormalizeCall (K : Type u) where
  base : Option (ℕ → K)
  dest : ℕ → K
  zerocounts : ZeroCounts

variable {K : Type u}

/-- `source` -/
def NormalizeCall.source (c : NormalizeCall K) (index : ℕ) : K :=
  match c.base with
  | some base => base index
  | none => c.dest index

/-- `sink`, written. -/
def NormalizeCall.setSink (c : NormalizeCall K) (index : ℕ) (w : K) : NormalizeCall K :=
  { c with dest := Function.update c.dest index w }

/-- The object. A constructed object has no place of the largest change. -/
structure NormalizeGroups (K : Type u) where
  normGroups : List (List ℕ)
  addKSmoothing : K
  maxdiff : K
  maxdiffIndex : Option ℕ

namespace NormalizeGroups

/-- The constructor and `read`. What `maxdiff` holds is not looked at before it is reset. -/
def make [Zero K] (normGroups : List (List ℕ)) (addKSmoothing : K) : NormalizeGroups K :=
  ⟨normGroups, addKSmoothing, 0, none⟩

section Model

variable [Field K] [LinearOrder K]

/-- `DODIFF` for the parameter `j`. -/
def doDiff (o : NormalizeGroups K) (j : ℕ) (d w : K) : NormalizeGroups K :=
  if o.maxdiff < |d - w| then { o with maxdiffIndex := some j, maxdiff := |d - w| } else o

/-- A parameter of a group with counts. -/
def divide (sum : K) (s : NormalizeGroups K × NormalizeCall K) (j : ℕ) :
    NormalizeGroups K × NormalizeCall K :=
  let w := s.2.source j
  let prev := s.2.dest j
  (s.1.doDiff j (w / sum) prev, s.2.setSink j (w / sum))

/-- A parameter of a group without counts. -/
def setTo (setto : K) (s : NormalizeGroups K × NormalizeCall K) (j : ℕ) :
    NormalizeGroups K × NormalizeCall K :=
  (s.1.doDiff j (s.2.dest j) setto, s.2.setSink j setto)

/-- `operator()` for one group. -/
def visitGroup (s : NormalizeGroups K × NormalizeCall K) (group : List ℕ) :
    NormalizeGroups K × NormalizeCall K :=
  let sum := (group.map s.2.source).sum
  if 0 < sum then group.foldl (divide (sum + s.1.addKSmoothing)) s
  else
    match s.2.zerocounts with
    | .skip => s
    | .uniform => group.foldl (setTo (1 / (group.length : K))) s
    | .zero => group.foldl (setTo 0) s

/-- `normalize` -/
def normalize (o : NormalizeGroups K) (c : NormalizeCall K) : NormalizeGroups K × NormalizeCall K :=
  o.normGroups.foldl visitGroup ({ o with maxdiff := 0 }, c)

/-- The object after some calls. -/
def afterCalls (o : NormalizeGroups K) (calls : List (NormalizeCall K)) : NormalizeGroups K :=
  calls.foldl (fun o c => (o.normalize c).1) o

end Model

section Writes

variable [Field K] [LinearOrder K]

/-- A parameter is set, and the change noted. -/
def write (s : NormalizeGroups K × NormalizeCall K) (jw : ℕ × K) :
    NormalizeGroups K × NormalizeCall K :=
  (s.1.doDiff jw.1 jw.2 (s.2.dest jw.1), s.2.setSink jw.1 jw.2)

/-- What a parameter of a group is set to, from the counts at the start. -/
def newValue (addKSmoothing : K) (c : NormalizeCall K) (group : List ℕ) (j : ℕ) : Option K :=
  if 0 < (group.map c.source).sum then
    some (c.source j / ((group.map c.source).sum + addKSmoothing))
  else
    match c.zerocounts with
    | .skip => none
    | .uniform => some (1 / (group.length : K))
    | .zero => some 0

/-- The parameters of a group that are set, and to what. -/
def groupWrites (addKSmoothing : K) (c : NormalizeCall K) (group : List ℕ) : List (ℕ × K) :=
  group.filterMap fun j => (newValue addKSmoothing c group j).map (Prod.mk j)

/-- All parameters that are set. -/
def writes (groups : List (List ℕ)) (addKSmoothing : K) (c : NormalizeCall K) : List (ℕ × K) :=
  groups.flatMap (groupWrites addKSmoothing c)

end Writes

section WriteLemmas

variable {s : NormalizeGroups K × NormalizeCall K} {c c' : NormalizeCall K} {i j : ℕ} {w : K}
variable {group : List ℕ} {groups : List (List ℕ)} {addKSmoothing : K} {W : List (ℕ × K)}

theorem source_setSink_of_ne (hne : i ≠ j) : (c.setSink j w).source i = c.source i := by
  cases hbase : c.base with
  | some base => simp [NormalizeCall.source, NormalizeCall.setSink, hbase]
  | none => simp [NormalizeCall.source, NormalizeCall.setSink, hbase, hne]

theorem dest_setSink_self : (c.setSink j w).dest j = w :=
  Function.update_self _ _ _

theorem dest_setSink_of_ne (hne : i ≠ j) : (c.setSink j w).dest i = c.dest i :=
  Function.update_of_ne hne _ _

variable [Field K] [LinearOrder K]

theorem doDiff_normGroups (o : NormalizeGroups K) (d : K) :
    (o.doDiff j d w).normGroups = o.normGroups := by
  unfold doDiff
  split <;> rfl

theorem doDiff_addKSmoothing (o : NormalizeGroups K) (d : K) :
    (o.doDiff j d w).addKSmoothing = o.addKSmoothing := by
  unfold doDiff
  split <;> rfl

/-- What writing parameters does. -/
structure Written (W : List (ℕ × K)) (s s' : NormalizeGroups K × NormalizeCall K) : Prop where
  normGroups : s'.1.normGroups = s.1.normGroups
  addKSmoothing : s'.1.addKSmoothing = s.1.addKSmoothing
  zerocounts : s'.2.zerocounts = s.2.zerocounts
  source : ∀ j ∉ W.map Prod.fst, s'.2.source j = s.2.source j
  frame : ∀ j ∉ W.map Prod.fst, s'.2.dest j = s.2.dest j
  written : ∀ jw ∈ W, s'.2.dest jw.1 = jw.2
  le_maxdiff : s.1.maxdiff ≤ s'.1.maxdiff
  change_le : ∀ jw ∈ W, |jw.2 - s.2.dest jw.1| ≤ s'.1.maxdiff
  place : (s'.1.maxdiff = s.1.maxdiff ∧ s'.1.maxdiffIndex = s.1.maxdiffIndex) ∨
    ∃ jw ∈ W, s'.1.maxdiff = |jw.2 - s.2.dest jw.1| ∧ s'.1.maxdiffIndex = some jw.1 ∧
      s.1.maxdiff < s'.1.maxdiff

theorem Written.write (jw : ℕ × K) : Written [jw] s (NormalizeGroups.write s jw) := by
  have hplace : (s.1.doDiff jw.1 jw.2 (s.2.dest jw.1) = s.1 ∧
        |jw.2 - s.2.dest jw.1| ≤ s.1.maxdiff) ∨
      (s.1.doDiff jw.1 jw.2 (s.2.dest jw.1) =
        { s.1 with maxdiffIndex := some jw.1, maxdiff := |jw.2 - s.2.dest jw.1| } ∧
        s.1.maxdiff < |jw.2 - s.2.dest jw.1|) := by
    unfold doDiff
    split
    · next hlt => exact Or.inr ⟨rfl, hlt⟩
    · next hle => exact Or.inl ⟨rfl, not_lt.mp hle⟩
  refine ⟨doDiff_normGroups _ _, doDiff_addKSmoothing _ _, rfl, ?_, ?_, ?_, ?_, ?_, ?_⟩
  · intro j hj
    exact source_setSink_of_ne (by simpa using hj)
  · intro j hj
    exact dest_setSink_of_ne (by simpa using hj)
  · intro a ha
    rw [List.mem_singleton.mp ha]
    exact dest_setSink_self
  · rcases hplace with ⟨heq, -⟩ | ⟨heq, hlt⟩
    · exact (congrArg maxdiff heq).ge
    · exact hlt.le.trans (congrArg maxdiff heq).ge
  · intro a ha
    rw [List.mem_singleton.mp ha]
    rcases hplace with ⟨heq, hle⟩ | ⟨heq, -⟩
    · exact hle.trans (congrArg maxdiff heq).ge
    · exact (congrArg maxdiff heq).ge
  · rcases hplace with ⟨heq, -⟩ | ⟨heq, hlt⟩
    · exact Or.inl ⟨congrArg maxdiff heq, congrArg maxdiffIndex heq⟩
    · exact Or.inr ⟨jw, List.mem_singleton_self jw, congrArg maxdiff heq,
        congrArg maxdiffIndex heq, hlt.trans_eq (congrArg maxdiff heq).symm⟩

/-- Parameters written one after the other, none of them twice. -/
theorem Written.foldl (hnodup : (W.map Prod.fst).Nodup) (s : NormalizeGroups K × NormalizeCall K) :
    Written W s (W.foldl NormalizeGroups.write s) := by
  induction W generalizing s with
  | nil =>
    exact ⟨rfl, rfl, rfl, fun _ _ => rfl, fun _ _ => rfl, by simp, le_rfl, by simp,
      Or.inl ⟨rfl, rfl⟩⟩
  | cons jw W ih =>
    rw [List.map_cons, List.nodup_cons] at hnodup
    have hone : Written [jw] s (NormalizeGroups.write s jw) := Written.write jw
    have hrest := ih hnodup.2 (NormalizeGroups.write s jw)
    -- the places of the rest still hold what they held at the start
    have hkept : ∀ a ∈ W, (NormalizeGroups.write s jw).2.dest a.1 = s.2.dest a.1 := by
      intro a ha
      apply hone.frame
      intro hmem
      have heq : a.1 = jw.1 := by simpa using hmem
      exact hnodup.1 (heq ▸ List.mem_map_of_mem ha)
    rw [List.foldl_cons]
    refine ⟨hrest.normGroups.trans hone.normGroups, hrest.addKSmoothing.trans hone.addKSmoothing,
      hrest.zerocounts.trans hone.zerocounts, ?_, ?_, ?_, hone.le_maxdiff.trans hrest.le_maxdiff,
      ?_, ?_⟩
    · intro j hj
      rw [List.map_cons, List.mem_cons, not_or] at hj
      exact (hrest.source j hj.2).trans (hone.source j (by simpa using hj.1))
    · intro j hj
      rw [List.map_cons, List.mem_cons, not_or] at hj
      exact (hrest.frame j hj.2).trans (hone.frame j (by simpa using hj.1))
    · intro a ha
      rcases List.mem_cons.mp ha with rfl | hmem
      · exact (hrest.frame _ hnodup.1).trans (hone.written _ (List.mem_singleton_self _))
      · exact hrest.written a hmem
    · intro a ha
      rcases List.mem_cons.mp ha with rfl | hmem
      · exact (hone.change_le _ (List.mem_singleton_self _)).trans hrest.le_maxdiff
      · rw [← hkept a hmem]
        exact hrest.change_le a hmem
    · rcases hrest.place with ⟨hmax, hindex⟩ | ⟨a, ha, hmax, hindex, hlt⟩
      · rcases hone.place with ⟨hmax', hindex'⟩ | ⟨a, ha, hmax', hindex', hlt⟩
        · exact Or.inl ⟨hmax.trans hmax', hindex.trans hindex'⟩
        · rw [List.mem_singleton.mp ha] at hmax' hindex'
          exact Or.inr ⟨jw, List.mem_cons_self, hmax.trans hmax', hindex.trans hindex',
            hlt.trans_eq hmax.symm⟩
      · rw [hkept a ha] at hmax
        exact Or.inr ⟨a, List.mem_cons_of_mem jw ha, hmax, hindex, hone.le_maxdiff.trans_lt hlt⟩

theorem newValue_congr (hsource : ∀ i ∈ group, c'.source i = c.source i)
    (hzero : c'.zerocounts = c.zerocounts) (hj : j ∈ group) :
    newValue addKSmoothing c' group j = newValue addKSmoothing c group j := by
  have hmap : group.map c'.source = group.map c.source := List.map_congr_left hsource
  unfold newValue
  rw [hmap, hsource j hj, hzero]

theorem groupWrites_congr (hsource : ∀ i ∈ group, c'.source i = c.source i)
    (hzero : c'.zerocounts = c.zerocounts) :
    groupWrites addKSmoothing c' group = groupWrites addKSmoothing c group := by
  apply List.filterMap_congr
  intro j hj
  rw [newValue_congr hsource hzero hj]

omit [Field K] [LinearOrder K] in
/-- The places of a list of optional writes, in the order of the places. -/
theorem map_fst_filterMap_sublist (f : ℕ → Option K) (l : List ℕ) :
    ((l.filterMap fun j => (f j).map (Prod.mk j)).map Prod.fst).Sublist l := by
  induction l with
  | nil => exact List.Sublist.slnil
  | cons a l ih =>
    cases hf : f a with
    | none => simpa [hf] using ih.cons a
    | some w => simpa [hf] using ih.cons_cons a

theorem map_fst_writes_sublist (groups : List (List ℕ)) (addKSmoothing : K)
    (c : NormalizeCall K) :
    ((writes groups addKSmoothing c).map Prod.fst).Sublist groups.flatten := by
  induction groups with
  | nil => exact List.Sublist.slnil
  | cons group groups ih =>
    rw [writes, List.flatMap_cons, List.map_append, List.flatten_cons]
    exact (map_fst_filterMap_sublist _ group).append ih

theorem mem_groupWrites :
    (j, w) ∈ groupWrites addKSmoothing c group ↔
      j ∈ group ∧ newValue addKSmoothing c group j = some w := by
  simp only [groupWrites, List.mem_filterMap, Option.map_eq_some_iff, Prod.mk.injEq]
  constructor
  · rintro ⟨i, hi, v, hv, rfl, rfl⟩
    exact ⟨hi, hv⟩
  · intro ⟨hj, hw⟩
    exact ⟨j, hj, w, hw, rfl, rfl⟩

theorem mem_writes :
    (j, w) ∈ writes groups addKSmoothing c ↔
      ∃ group ∈ groups, j ∈ group ∧ newValue addKSmoothing c group j = some w := by
  simp only [writes, List.mem_flatMap, mem_groupWrites]

/-- Dividing the parameters of a group. What is divided is still what it was at the start. -/
theorem foldl_divide (sum : K) (hnodup : group.Nodup)
    (hsource : ∀ i ∈ group, s.2.source i = c.source i) :
    group.foldl (divide sum) s = (group.map fun j => (j, c.source j / sum)).foldl write s := by
  induction group generalizing s with
  | nil => rfl
  | cons a group ih =>
    rw [List.nodup_cons] at hnodup
    have hstep : divide sum s a = write s (a, c.source a / sum) := by
      rw [← hsource a List.mem_cons_self]
      rfl
    rw [List.foldl_cons, List.map_cons, List.foldl_cons, hstep]
    apply ih hnodup.2
    intro i hi
    have hne : i ≠ a := ne_of_mem_of_not_mem hi hnodup.1
    exact (source_setSink_of_ne hne).trans (hsource i (List.mem_cons_of_mem a hi))

theorem foldl_setTo (setto : K) (s : NormalizeGroups K × NormalizeCall K) :
    group.foldl (setTo setto) s = (group.map fun j => (j, setto)).foldl write s := by
  have hstep : setTo setto = fun (s : NormalizeGroups K × NormalizeCall K) j =>
      write s (j, setto) := by
    funext s j
    simp only [setTo, write, doDiff, abs_sub_comm (s.2.dest j) setto]
  rw [List.foldl_map, hstep]

theorem visitGroup_eq (hnodup : group.Nodup) (s : NormalizeGroups K × NormalizeCall K) :
    visitGroup s group = (groupWrites s.1.addKSmoothing s.2 group).foldl write s := by
  unfold visitGroup groupWrites newValue
  by_cases hpos : 0 < (group.map s.2.source).sum
  · simp only [hpos, if_true, Option.map_some, List.filterMap_eq_map']
    exact foldl_divide _ hnodup fun _ _ => rfl
  · simp only [hpos, if_false]
    cases s.2.zerocounts with
    | skip => simp
    | uniform => simpa using foldl_setTo _ s
    | zero => simpa using foldl_setTo _ s

/-- The groups one after the other write what the counts at the start say. -/
theorem foldl_visitGroup (hnodup : groups.flatten.Nodup)
    (s : NormalizeGroups K × NormalizeCall K) :
    groups.foldl visitGroup s = (writes groups s.1.addKSmoothing s.2).foldl write s := by
  induction groups generalizing s with
  | nil => rfl
  | cons group groups ih =>
    rw [List.flatten_cons, List.nodup_append] at hnodup
    obtain ⟨hgroup, hgroups, hdisjoint⟩ := hnodup
    have hsub := map_fst_filterMap_sublist (newValue s.1.addKSmoothing s.2 group) group
    have hwritten := Written.foldl (hsub.nodup hgroup) s
    change Written (groupWrites s.1.addKSmoothing s.2 group) s
      ((groupWrites s.1.addKSmoothing s.2 group).foldl write s) at hwritten
    have hrest : writes groups s.1.addKSmoothing
        ((groupWrites s.1.addKSmoothing s.2 group).foldl write s).2 =
        writes groups s.1.addKSmoothing s.2 := by
      apply List.flatMap_congr
      intro other hother
      apply groupWrites_congr _ hwritten.zerocounts
      intro i hi
      apply hwritten.source
      intro hmem
      exact hdisjoint i (hsub.subset hmem) i (List.mem_flatten_of_mem hother hi) rfl
    rw [List.foldl_cons, visitGroup_eq hgroup, ih hgroups, hwritten.addKSmoothing, hrest,
      writes, writes, List.flatMap_cons, List.foldl_append]

/-- A call writes what the counts it is given say. -/
theorem Written.normalize (o : NormalizeGroups K) (hnodup : o.normGroups.flatten.Nodup)
    (c : NormalizeCall K) :
    Written (writes o.normGroups o.addKSmoothing c) ({ o with maxdiff := 0 }, c)
      (o.normalize c) := by
  rw [NormalizeGroups.normalize, foldl_visitGroup hnodup]
  exact Written.foldl ((map_fst_writes_sublist _ _ c).nodup hnodup) _

end WriteLemmas

section Calls

variable [Field K] [LinearOrder K] [IsStrictOrderedRing K]
variable {groups : List (List ℕ)} {addKSmoothing : K} {o : NormalizeGroups K}
variable {c : NormalizeCall K} {calls : List (NormalizeCall K)} {group : List ℕ} {j : ℕ}

/-- Some parameter does not have its new value yet. -/
def Changes (groups : List (List ℕ)) (addKSmoothing : K) (c : NormalizeCall K) : Prop :=
  ∃ group ∈ groups, ∃ j ∈ group, ∃ w, newValue addKSmoothing c group j = some w ∧ w ≠ c.dest j

/-- What a call leaves for given counts. -/
structure Normalized (groups : List (List ℕ)) (addKSmoothing : K) (c : NormalizeCall K)
    (r : NormalizeGroups K × NormalizeCall K) : Prop where
  divided : ∀ group ∈ groups, (group.map c.source).sum ≠ 0 → ∀ j ∈ group,
    r.2.dest j = c.source j / ((group.map c.source).sum + addKSmoothing)
  sum : ∀ group ∈ groups, (group.map c.source).sum ≠ 0 → (group.map r.2.dest).sum =
      (group.map c.source).sum / ((group.map c.source).sum + addKSmoothing)
  reserved : ∀ group ∈ groups, (group.map c.source).sum ≠ 0 →
    (group.map r.2.dest).sum + addKSmoothing / ((group.map c.source).sum + addKSmoothing) = 1
  zero : ∀ group ∈ groups, (group.map c.source).sum = 0 → ∀ j ∈ group, r.2.dest j =
      match c.zerocounts with
      | .zero => 0
      | .skip => c.dest j
      | .uniform => 1 / (group.length : K)
  untouched : ∀ j ∉ groups.flatten, r.2.dest j = c.dest j
  change_le : ∀ j, |r.2.dest j - c.dest j| ≤ r.1.maxdiff
  attained : r.1.maxdiff = 0 ∨ ∃ j ∈ groups.flatten, |r.2.dest j - c.dest j| = r.1.maxdiff

/-- The place reported is one where the largest change is. -/
def PlaceReported (groups : List (List ℕ)) (c : NormalizeCall K)
    (r : NormalizeGroups K × NormalizeCall K) : Prop :=
  ∃ j ∈ groups.flatten, r.1.maxdiffIndex = some j ∧ |r.2.dest j - c.dest j| = r.1.maxdiff

omit [Field K] [LinearOrder K] [IsStrictOrderedRing K] in
theorem group_unique {other : List ℕ} (hnodup : groups.flatten.Nodup) (hgroup : group ∈ groups)
    (hother : other ∈ groups) (hj : j ∈ group) (hj' : j ∈ other) : other = group := by
  by_contra hne
  have hdisjoint := (List.nodup_flatten.mp hnodup).2
  have hsymm : Std.Symm (List.Disjoint (α := ℕ)) := ⟨fun _ _ h => h.symm⟩
  exact hdisjoint.forall hother hgroup hne hj' hj

omit [IsStrictOrderedRing K] in
/-- A parameter gets the new value its group gives it, or keeps its value if there is none. -/
theorem normalize_dest (hnodup : o.normGroups.flatten.Nodup) (hgroup : group ∈ o.normGroups)
    (hj : j ∈ group) :
    (o.normalize c).2.dest j = (newValue o.addKSmoothing c group j).getD (c.dest j) := by
  have hw := Written.normalize o hnodup c
  cases hnew : newValue o.addKSmoothing c group j with
  | some w => exact hw.written (j, w) (mem_writes.mpr ⟨group, hgroup, hj, hnew⟩)
  | none =>
    apply hw.frame
    intro hmem
    obtain ⟨⟨i, w⟩, hwrite, rfl⟩ := List.mem_map.mp hmem
    obtain ⟨other, hother, hi, hw'⟩ := mem_writes.mp hwrite
    rw [group_unique hnodup hgroup hother hj hi, hnew] at hw'
    exact Option.some_ne_none w hw'.symm

/-- The claim about the values: everything but the place of the largest change. -/
theorem normalized_normalize (hnodup : o.normGroups.flatten.Nodup) (hk : 0 ≤ o.addKSmoothing)
    (hcounts : ∀ j ∈ o.normGroups.flatten, 0 ≤ c.source j) :
    Normalized o.normGroups o.addKSmoothing c (o.normalize c) := by
  have hw := Written.normalize o hnodup c
  have hsub := map_fst_writes_sublist o.normGroups o.addKSmoothing c
  have hpos : ∀ group ∈ o.normGroups, (group.map c.source).sum ≠ 0 →
      0 < (group.map c.source).sum := by
    intro group hgroup hne
    apply lt_of_le_of_ne _ hne.symm
    apply List.sum_nonneg
    intro x hx
    obtain ⟨j, hj, rfl⟩ := List.mem_map.mp hx
    exact hcounts j (List.mem_flatten_of_mem hgroup hj)
  have hdivided : ∀ group ∈ o.normGroups, (group.map c.source).sum ≠ 0 → ∀ j ∈ group,
      (o.normalize c).2.dest j = c.source j / ((group.map c.source).sum + o.addKSmoothing) := by
    intro group hgroup hne j hj
    rw [normalize_dest hnodup hgroup hj, newValue, if_pos (hpos group hgroup hne), Option.getD_some]
  have hsum : ∀ group ∈ o.normGroups, (group.map c.source).sum ≠ 0 →
      (group.map (o.normalize c).2.dest).sum =
        (group.map c.source).sum / ((group.map c.source).sum + o.addKSmoothing) := by
    intro group hgroup hne
    rw [List.map_congr_left (hdivided group hgroup hne)]
    simp only [div_eq_mul_inv, List.sum_map_mul_right]
  refine ⟨hdivided, hsum, ?_, ?_, ?_, ?_, ?_⟩
  · intro group hgroup hne
    have hden : (group.map c.source).sum + o.addKSmoothing ≠ 0 :=
      (add_pos_of_pos_of_nonneg (hpos group hgroup hne) hk).ne'
    rw [hsum group hgroup hne, ← add_div, div_self hden]
  · intro group hgroup hzero j hj
    rw [normalize_dest hnodup hgroup hj, newValue, if_neg hzero.not_gt]
    cases c.zerocounts <;> rfl
  · intro j hj
    exact hw.frame j fun hmem => hj (hsub.subset hmem)
  · intro j
    by_cases hj : j ∈ (writes o.normGroups o.addKSmoothing c).map Prod.fst
    · obtain ⟨jw, hmem, rfl⟩ := List.mem_map.mp hj
      rw [hw.written jw hmem]
      exact hw.change_le jw hmem
    · rw [hw.frame j hj, sub_self, abs_zero]
      exact hw.le_maxdiff
  · rcases hw.place with ⟨hmax, -⟩ | ⟨jw, hmem, hmax, -, -⟩
    · exact Or.inl hmax
    · right
      refine ⟨jw.1, hsub.subset (List.mem_map_of_mem hmem), ?_⟩
      rw [hw.written jw hmem]
      exact hmax.symm

/-- If some parameter changes, a place of the largest change is reported. -/
theorem placeReported_of_changes (hnodup : o.normGroups.flatten.Nodup)
    (hchanges : Changes o.normGroups o.addKSmoothing c) :
    PlaceReported o.normGroups c (o.normalize c) := by
  have hw := Written.normalize o hnodup c
  rcases hw.place with ⟨hmax, -⟩ | ⟨jw, hmem, hmax, hindex, -⟩
  · obtain ⟨group, hgroup, j, hj, w, hw', hne⟩ := hchanges
    have hle := hw.change_le (j, w) (mem_writes.mpr ⟨group, hgroup, hj, hw'⟩)
    rw [hmax] at hle
    exact absurd (abs_nonpos_iff.mp hle) (sub_ne_zero_of_ne hne)
  · refine ⟨jw.1, (map_fst_writes_sublist _ _ c).subset (List.mem_map_of_mem hmem), hindex, ?_⟩
    rw [hw.written jw hmem]
    exact hmax.symm

/-- If none changes, the place is the one of the calls before. -/
theorem maxdiffIndex_of_not_changes (hnodup : o.normGroups.flatten.Nodup)
    (hsame : ¬ Changes o.normGroups o.addKSmoothing c) :
    (o.normalize c).1.maxdiffIndex = o.maxdiffIndex ∧ (o.normalize c).1.maxdiff = 0 := by
  rcases (Written.normalize o hnodup c).place with ⟨hmax, hindex⟩ | ⟨⟨j, w⟩, hmem, hmax, -, hlt⟩
  · exact ⟨hindex, hmax⟩
  · obtain ⟨group, hgroup, hj, hw⟩ := mem_writes.mp hmem
    rw [hmax] at hlt
    exact absurd ⟨group, hgroup, j, hj, w, hw, sub_ne_zero.mp (abs_pos.mp hlt)⟩ hsame

omit [IsStrictOrderedRing K] in
theorem afterCalls_concat (o : NormalizeGroups K) (calls : List (NormalizeCall K))
    (c : NormalizeCall K) :
    o.afterCalls (calls ++ [c]) = ((o.afterCalls calls).normalize c).1 := by
  rw [afterCalls, List.foldl_append]
  rfl

omit [IsStrictOrderedRing K] in
theorem afterCalls_normGroups (hnodup : o.normGroups.flatten.Nodup)
    (calls : List (NormalizeCall K)) :
    (o.afterCalls calls).normGroups = o.normGroups ∧
      (o.afterCalls calls).addKSmoothing = o.addKSmoothing := by
  induction calls using List.reverseRecOn with
  | nil => exact ⟨rfl, rfl⟩
  | append_singleton calls c ih =>
    have hw := Written.normalize (o.afterCalls calls) (ih.1 ▸ hnodup) c
    rw [afterCalls_concat]
    exact ⟨hw.normGroups.trans ih.1, hw.addKSmoothing.trans ih.2⟩

/-- The place is one of a parameter from the first call on that changes one. -/
theorem afterCalls_maxdiffIndex (hnodup : groups.flatten.Nodup) (addKSmoothing : K)
    (calls : List (NormalizeCall K)) :
    (((make groups addKSmoothing).afterCalls calls).maxdiffIndex = none ∧
        ∀ c ∈ calls, ¬ Changes groups addKSmoothing c) ∨
      (∃ j ∈ groups.flatten, ((make groups addKSmoothing).afterCalls calls).maxdiffIndex = some j) ∧
        ∃ c ∈ calls, Changes groups addKSmoothing c := by
  induction calls using List.reverseRecOn with
  | nil => exact Or.inl ⟨rfl, by simp⟩
  | append_singleton calls c ih =>
    obtain ⟨hgroups, hk⟩ := afterCalls_normGroups (o := make groups addKSmoothing) hnodup calls
    have hnodup' : ((make groups addKSmoothing).afterCalls calls).normGroups.flatten.Nodup :=
      hgroups ▸ hnodup
    rw [afterCalls_concat]
    by_cases hchanges : Changes groups addKSmoothing c
    · right
      have hplace := placeReported_of_changes (c := c) hnodup' (by rw [hgroups, hk]; exact hchanges)
      rw [hgroups] at hplace
      obtain ⟨j, hj, hindex, -⟩ := hplace
      exact ⟨⟨j, hj, hindex⟩, c, by simp, hchanges⟩
    · have hsame := maxdiffIndex_of_not_changes (c := c) hnodup'
        (by rw [hgroups, hk]; exact hchanges)
      rw [hsame.1]
      rcases ih with ⟨hnone, hall⟩ | ⟨hsome, c', hc', hchanges'⟩
      · left
        refine ⟨hnone, ?_⟩
        intro c' hc'
        rcases List.mem_append.mp hc' with hmem | hmem
        · exact hall c' hmem
        · rw [List.mem_singleton.mp hmem]
          exact hchanges
      · exact Or.inr ⟨hsome, c', List.mem_append_left _ hc', hchanges'⟩

/-- A call leaves the values and the largest change that the counts say, whatever calls
came before it. The place it reports is one of the largest change if and only if this
call or one before it changed a parameter: else it was never assigned. -/
theorem normalize_spec (hnodup : groups.flatten.Nodup) (hk : 0 ≤ addKSmoothing)
    (calls : List (NormalizeCall K)) (c : NormalizeCall K)
    (hcounts : ∀ j ∈ groups.flatten, 0 ≤ c.source j) :
    Normalized groups addKSmoothing c
        (((make groups addKSmoothing).afterCalls calls).normalize c) ∧
      (Normalized groups addKSmoothing c
          (((make groups addKSmoothing).afterCalls calls).normalize c) ∧
        PlaceReported groups c (((make groups addKSmoothing).afterCalls calls).normalize c) ↔
      ∃ c' ∈ calls ++ [c], Changes groups addKSmoothing c') := by
  obtain ⟨hgroups, hk'⟩ := afterCalls_normGroups (o := make groups addKSmoothing) hnodup calls
  change _ = groups at hgroups
  change _ = addKSmoothing at hk'
  have hplaces := afterCalls_maxdiffIndex hnodup addKSmoothing calls
  generalize (make groups addKSmoothing).afterCalls calls = o at hgroups hk' hplaces
  subst hgroups hk'
  have hnormalized := normalized_normalize hnodup hk hcounts
  refine ⟨hnormalized, ?_⟩
  simp only [hnormalized, true_and]
  by_cases hchanges : Changes o.normGroups o.addKSmoothing c
  · exact iff_of_true (placeReported_of_changes hnodup hchanges) ⟨c, by simp, hchanges⟩
  · obtain ⟨hindex, hmax⟩ := maxdiffIndex_of_not_changes hnodup hchanges
    rcases hplaces with ⟨hnone, hall⟩ | ⟨⟨j, hj, hsome⟩, c', hc', hchanges'⟩
    · apply iff_of_false
      · rintro ⟨j, -, hj, -⟩
        rw [hindex, hnone] at hj
        exact Option.some_ne_none j hj.symm
      · intro ⟨c', hc', hchanges'⟩
        rcases List.mem_append.mp hc' with hmem | hmem
        · exact hall c' hmem hchanges'
        · exact hchanges (List.mem_singleton.mp hmem ▸ hchanges')
    · apply iff_of_true
      · refine ⟨j, hj, hindex.trans hsome, le_antisymm (hnormalized.change_le j) ?_⟩
        rw [hmax]
        exact abs_nonneg _
      · exact ⟨c', List.mem_append_left _ hc', hchanges'⟩

end Calls

/-- Counts that sum to one, in the array that is written. -/
def normalizedAlready : NormalizeCall ℚ :=
  ⟨none, fun _ => 1 / 2, .uniform⟩

theorem normalize_spec_normalizedAlready :
    PlaceReported [[0, 1], [3]] normalizedAlready
      (((make [[0, 1], [3]] (0 : ℚ)).afterCalls []).normalize normalizedAlready) :=
  ((normalize_spec (K := ℚ) (by decide) le_rfl [] normalizedAlready (by decide +kernel)).2.mpr
    ⟨normalizedAlready, by simp, [3], by simp, 3, by simp, 1, by decide +kernel,
      by decide +kernel⟩).2

theorem not_placeReported_normalizedAlready :
    ¬ PlaceReported [[0, 1]] normalizedAlready
      ((make [[0, 1]] (0 : ℚ)).normalize normalizedAlready) := by
  rintro ⟨j, -, hj, -⟩
  have hnone : ((make [[0, 1]] (0 : ℚ)).normalize normalizedAlready).1.maxdiffIndex = none := by
    decide +kernel
  rw [hnone] at hj
  exact Option.some_ne_none j hj.symm

end NormalizeGroups

end Carmel.Forest
