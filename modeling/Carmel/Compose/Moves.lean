/-
# The moves of the epsilon filters

Whichever loop runs for a pair of states, the arcs it makes are the moves of one
filter automaton. This file states the two automata as relations and proves
that each loop makes every move of its automaton exactly once.
-/

import Carmel.Compose.Loops

namespace Carmel

universe u

variable {W : Type u}

/-! ## What an index finds -/

/-- Where no key is entered twice, a lookup finds the entries. -/
theorem mem_iff_lookup {α : Type} {β : Type u} [BEq α] [LawfulBEq α] {l : List (α × β)} {a : α} {b : β}
    (hkeys : (l.map Prod.fst).Nodup) : (a, b) ∈ l ↔ l.lookup a = some b := by
  induction l with
  | nil => simp
  | cons entry rest ih =>
    obtain ⟨key, b'⟩ := entry
    rw [List.map_cons, List.nodup_cons] at hkeys
    by_cases hk : a = key
    · subst hk
      have hfresh : (a, b) ∉ rest := fun hmem => hkeys.1 (List.mem_map.mpr ⟨_, hmem, rfl⟩)
      simp [hfresh, eq_comm]
    · have hne : (a == key) = false := beq_eq_false_iff_ne.mpr hk
      simp only [List.mem_cons, Prod.mk.injEq, hk, false_and, false_or, List.lookup_cons, hne]
      exact ih hkeys.2

section Index

variable (dir : LabelType) (arcs : List (HalfArc W)) (h : HalfArc W) (k : ℕ)

theorem lookup_pushAt (key : ℕ) (index : List (ℕ × List (HalfArc W))) :
    (pushAt key h index).lookup k =
      if k = key then some (h :: (index.lookup k).getD []) else index.lookup k := by
  induction index with
  | nil => by_cases hk : k = key <;> simp [pushAt, hk]
  | cons entry rest ih =>
    obtain ⟨key', bucket⟩ := entry
    by_cases hkey : key' = key
    · subst hkey
      by_cases hk : k = key'
      · simp [pushAt, hk]
      · simp [pushAt, List.lookup_cons, hk, beq_eq_false_iff_ne.mpr hk]
    · by_cases hk' : k = key'
      · subst hk'
        simp [pushAt, hkey]
      · simp only [pushAt, if_neg hkey, List.lookup_cons, beq_eq_false_iff_ne.mpr hk', ih]

theorem indexBy_concat :
    indexBy dir (arcs ++ [h]) = pushAt (h.arc.symbol dir) h (indexBy dir arcs) := by
  simp [indexBy]

/-- The bucket of a symbol holds its arcs in reverse order, and there are no
empty buckets. -/
theorem lookup_indexBy :
    (indexBy dir arcs).lookup k = if (arcs.filter fun h => h.arc.symbol dir = k) = [] then none
      else some (arcs.filter fun h => h.arc.symbol dir = k).reverse := by
  induction arcs using List.reverseRecOn with
  | nil => simp [indexBy]
  | append_singleton arcs h ih =>
    rw [indexBy_concat, lookup_pushAt, ih, List.filter_append]
    by_cases hk : h.arc.symbol dir = k
    · by_cases hnil : (arcs.filter fun h => h.arc.symbol dir = k) = []
      · simp [hk, hnil]
      · simp [hk, hnil]
    · simp [hk, Ne.symm hk]

theorem mem_findSecond_indexBy (key : Option ℕ) :
    h ∈ (findSecond (indexBy dir arcs) key).getD [] ↔ h ∈ arcs ∧ key = some (h.arc.symbol dir) := by
  cases key with
  | none => simp [findSecond]
  | some k =>
    rw [findSecond, Option.bind_some, lookup_indexBy]
    split
    case isTrue hnil =>
      have hnone := List.filter_eq_nil_iff.mp hnil
      simp only [Option.getD_none, List.not_mem_nil, false_iff, not_and]
      intro hmem hk
      exact hnone h hmem (by simpa using (Option.some.inj hk).symm)
    case isFalse => simp [eq_comm]

theorem findSecond_indexBy_nodup (harcs : arcs.Nodup) (key : Option ℕ) :
    ((findSecond (indexBy dir arcs) key).getD []).Nodup := by
  cases key with
  | none => simp [findSecond]
  | some k =>
    rw [findSecond, Option.bind_some, lookup_indexBy]
    split
    · simp
    · exact List.nodup_reverse.mpr (harcs.filter _)

theorem findSecond_indexBy_isSome_iff (key : Option ℕ) :
    (findSecond (indexBy dir arcs) key).isSome ↔ ∃ h ∈ arcs, key = some (h.arc.symbol dir) := by
  cases key with
  | none => simp [findSecond]
  | some k =>
    rw [findSecond, Option.bind_some, lookup_indexBy]
    split
    case isTrue hnil =>
      have hnone := List.filter_eq_nil_iff.mp hnil
      simp only [Option.isSome_none, Bool.false_eq_true, Option.some.injEq, false_iff]
      rintro ⟨h, hmem, hk⟩
      exact hnone h hmem (by simpa using hk.symm)
    case isFalse hne =>
      obtain ⟨h, hmem⟩ := List.exists_mem_of_ne_nil _ hne
      obtain ⟨hin, hk⟩ := List.mem_filter.mp hmem
      simp only [Option.isSome_some, true_iff]
      exact ⟨h, hin, congrArg some (of_decide_eq_true hk).symm⟩

theorem indexBy_keys_nodup : ((indexBy dir arcs).map Prod.fst).Nodup := by
  have pushAt_keys (key : ℕ) (h : HalfArc W) (index : List (ℕ × List (HalfArc W)))
      (hindex : (index.map Prod.fst).Nodup) :
      ((pushAt key h index).map Prod.fst).Nodup ∧
        ∀ k, k ∈ (pushAt key h index).map Prod.fst → k = key ∨ k ∈ index.map Prod.fst := by
    induction index with
    | nil => simp [pushAt]
    | cons entry rest ih =>
      obtain ⟨key', bucket⟩ := entry
      rw [List.map_cons, List.nodup_cons] at hindex
      obtain ⟨hnodup, hsub⟩ := ih hindex.2
      by_cases hkey : key' = key
      · simp only [pushAt, if_pos hkey, List.map_cons, List.nodup_cons]
        exact ⟨hindex, fun k hk => .inr hk⟩
      · simp only [pushAt, if_neg hkey, List.map_cons, List.nodup_cons, List.mem_cons]
        refine ⟨⟨fun hmem => ?_, hnodup⟩, ?_⟩
        · exact (hsub key' hmem).elim hkey hindex.1
        · rintro k (rfl | hk)
          · exact .inr (.inl rfl)
          · exact (hsub k hk).imp_right .inr
  induction arcs using List.reverseRecOn with
  | nil => simp [indexBy]
  | append_singleton arcs h ih =>
    rw [indexBy_concat]
    exact (pushAt_keys _ h _ ih).1

/-- The buckets of an index have the arcs it was built from. -/
theorem indexBy_flatMap_perm : ((indexBy dir arcs).flatMap Prod.snd).Perm arcs := by
  have pushAt_perm (key : ℕ) (h : HalfArc W) (index : List (ℕ × List (HalfArc W))) :
      ((pushAt key h index).flatMap Prod.snd).Perm (h :: index.flatMap Prod.snd) := by
    induction index with
    | nil => simp [pushAt]
    | cons entry rest ih =>
      obtain ⟨key', bucket⟩ := entry
      by_cases hkey : key' = key
      · simp [pushAt, hkey]
      · simp only [pushAt, if_neg hkey, List.flatMap_cons]
        exact (ih.append_left bucket).trans List.perm_middle
  induction arcs using List.reverseRecOn with
  | nil => simp [indexBy]
  | append_singleton arcs h ih =>
    rw [indexBy_concat]
    exact (pushAt_perm _ h _).trans ((ih.cons h).trans (List.perm_append_singleton h arcs).symm)

/-- An entry of an index is what its key finds. -/
theorem mem_indexBy_iff (bucket : List (HalfArc W)) :
    (k, bucket) ∈ indexBy dir arcs ↔ (indexBy dir arcs).lookup k = some bucket :=
  mem_iff_lookup (indexBy_keys_nodup dir arcs)

end Index

/-! ## The automata -/

/-- A state of the composition, by what it stands for. -/
inductive Node
  | trio (k : TrioKey)
  | mediate (m : HalfArcState)
  | /-- The final state that joins several copies of the final pair. -/
    merged
deriving DecidableEq, Repr

namespace Record

def inp : Record W → ℕ
  | .left l => l.arc.inp
  | .right _ => epsilonIndex
  | .both l _ => l.arc.inp
  | .locked => epsilonIndex

def out : Record W → ℕ
  | .left _ => epsilonIndex
  | .right r => r.arc.out
  | .both _ r => r.arc.out
  | .locked => epsilonIndex

def weight [MulOneClass W] : Record W → W
  | .left l => l.arc.weight
  | .right r => r.arc.weight
  | .both l r => l.arc.weight * r.arc.weight
  | .locked => 1

end Record

/-- An arc of the composition, by what it was made from and where it leads. -/
structure Item (W : Type u) where
  made : Record W
  dest : Node

section Moves

variable (o : Operands W)

/-- Three states: epsilon arcs of both sides are taken together if they can,
otherwise one side's epsilon arcs go first and exclude the other's. -/
inductive Move3 : Node → Record W → Node → Prop
  | left {k : TrioKey} {l : HalfArc W} (hl : l ∈ o.a.outArcs k.qa)
      (hout : l.arc.out = epsilonIndex) (hk : k.filter ≠ 2) :
      Move3 (.trio k) (.left l) (.trio ⟨l.arc.dest, k.qb, 1⟩)
  | right {k : TrioKey} {r : HalfArc W} (hr : r ∈ o.b.outArcs k.qb)
      (hinp : r.arc.inp = epsilonIndex) (hk : k.filter ≠ 1) :
      Move3 (.trio k) (.right r) (.trio ⟨k.qa, r.arc.dest, 2⟩)
  | epsilons {k : TrioKey} {l r : HalfArc W} (hl : l ∈ o.a.outArcs k.qa)
      (hr : r ∈ o.b.outArcs k.qb) (hout : l.arc.out = epsilonIndex)
      (hinp : r.arc.inp = epsilonIndex) (hk : k.filter = 0) :
      Move3 (.trio k) (.both l r) (.trio ⟨l.arc.dest, r.arc.dest, 0⟩)
  | matching {k : TrioKey} {l r : HalfArc W} (hl : l ∈ o.a.outArcs k.qa)
      (hr : r ∈ o.b.outArcs k.qb) (hout : l.arc.out ≠ epsilonIndex)
      (hmap : o.map l.arc.out = some r.arc.inp) :
      Move3 (.trio k) (.both l r) (.trio ⟨l.arc.dest, r.arc.dest, 0⟩)

/-- Two states: all epsilon arcs of the left operand go before those of the
right one, and a matching pair passes through a mediate state. -/
inductive Move2 : Node → Record W → Node → Prop
  | left {k : TrioKey} {l : HalfArc W} (hl : l ∈ o.a.outArcs k.qa)
      (hout : l.arc.out = epsilonIndex) (hk : k.filter = 0) :
      Move2 (.trio k) (.left l) (.trio ⟨l.arc.dest, k.qb, 0⟩)
  | right {k : TrioKey} {r : HalfArc W} (hr : r ∈ o.b.outArcs k.qb)
      (hinp : r.arc.inp = epsilonIndex) :
      Move2 (.trio k) (.right r) (.trio ⟨k.qa, r.arc.dest, 1⟩)
  | hide {k : TrioKey} {l : HalfArc W} (hl : l ∈ o.a.outArcs k.qa)
      (hout : l.arc.out ≠ epsilonIndex)
      (hmap : ∃ r ∈ o.b.outArcs k.qb, o.map l.arc.out = some r.arc.inp) :
      Move2 (.trio k) (.left l) (.mediate ⟨l.arc.dest, k.qb, l.arc.out⟩)
  | show {m : HalfArcState} {r : HalfArc W} (hr : r ∈ o.b.outArcs m.rSource)
      (hmap : o.map m.lHiddenLetter = some r.arc.inp) :
      Move2 (.mediate m) (.right r) (.trio ⟨m.lDest, r.arc.dest, 0⟩)

/-- The automaton `preserveGroups` selects. -/
def Move (preserveGroups : Bool) (n : Node) (made : Record W) (n' : Node) : Prop :=
  if preserveGroups then Move2 o n made n' else Move3 o n made n'

end Moves

/-! ## The loops make the moves -/

/-- The composed arc for `made`, with its fields taken from the operand arcs. -/
def Record.composeArc [MulOneClass W] (made : Record W) (k : TrioKey) : ComposeArc W :=
  ⟨made.inp, made.out, made.weight, k, made⟩

def ComposeArc.item (e : ComposeArc W) : Item W := ⟨e.made, .trio e.triDest⟩

/-- The loop makes the moves out of `tri`, each once. -/
structure MakesMoves [MulOneClass W] (o : Operands W) (tri : TrioKey)
    (loop : List (ComposeArc W)) : Prop where
  faithful : ∀ e ∈ loop, e = e.made.composeArc e.triDest
  sound : ∀ e ∈ loop, Move3 o (.trio tri) e.made (.trio e.triDest)
  complete : ∀ made k, Move3 o (.trio tri) made (.trio k) → made.composeArc k ∈ loop
  nodup : (loop.map ComposeArc.made).Nodup

/-- A list of lists has no duplicates if each element tells from which list it is. -/
theorem nodup_flatMap_of_key {α β : Type*} {xs : List α} {f : α → List β} (key : β → Option α)
    (hxs : xs.Nodup) (hf : ∀ x ∈ xs, (f x).Nodup) (hkey : ∀ x ∈ xs, ∀ y ∈ f x, key y = some x) :
    (xs.flatMap f).Nodup := by
  refine List.nodup_flatMap.mpr ⟨hf, hxs.imp_of_mem fun {x x'} hx hx' hne y hy hy' => hne ?_⟩
  exact Option.some.inj ((hkey x hx y hy).symm.trans (hkey x' hx' y hy'))

theorem forMatches_eq {α β : Type*} (found : Option (List α)) (body : α → β) :
    forMatches found body = (found.getD []).map body := by
  cases found <;> rfl

namespace Record

def leftArc? : Record W → Option (HalfArc W)
  | .left l => some l
  | .both l _ => some l
  | _ => none

def rightArc? : Record W → Option (HalfArc W)
  | .right r => some r
  | .both _ r => some r
  | _ => none

end Record

section ThreeState

variable [MulOneClass W] (o : Operands W) (tri : TrioKey)

/-- The loop over the arcs of `a`, by the arcs of `b` it finds for a key. -/
def leftOuterLoop (found : Option ℕ → List (HalfArc W)) : List (ComposeArc W) :=
  ((o.a.outArcs tri.qa).flatMap fun l =>
    if l.arc.out = epsilonIndex then
      (if tri.filter ≠ 2 then
        [(Record.left l).composeArc ⟨l.arc.dest, tri.qb, 1⟩] else []) ++
      (if tri.filter = 0 then
        (found (some epsilonIndex)).map fun r =>
          (Record.both l r).composeArc ⟨l.arc.dest, r.arc.dest, 0⟩ else [])
    else
      (found (o.map l.arc.out)).map fun r =>
        (Record.both l r).composeArc ⟨l.arc.dest, r.arc.dest, 0⟩) ++
  (if tri.filter ≠ 1 then
    (found (some epsilonIndex)).map fun r =>
      (Record.right r).composeArc ⟨tri.qa, r.arc.dest, 2⟩ else [])

theorem leftOuterLoop_sound (found : Option ℕ → List (HalfArc W))
    (hfound : ∀ key r, r ∈ found key ↔ r ∈ o.b.outArcs tri.qb ∧ key = some r.arc.inp) :
    ∀ e ∈ leftOuterLoop o tri found,
      e = e.made.composeArc e.triDest ∧ Move3 o (.trio tri) e.made (.trio e.triDest) := by
  intro e he
  rcases List.mem_append.mp he with he | he
  · obtain ⟨l, hl, he⟩ := List.mem_flatMap.mp he
    split at he
    case isTrue hout =>
      rcases List.mem_append.mp he with he | he
      · split at he
        case isTrue hk =>
          obtain rfl := List.mem_singleton.mp he
          exact ⟨rfl, .left hl hout hk⟩
        case isFalse => simp at he
      · split at he
        case isTrue hk =>
          obtain ⟨r, hr, rfl⟩ := List.mem_map.mp he
          obtain ⟨hr, hinp⟩ := (hfound _ r).mp hr
          exact ⟨rfl, .epsilons hl hr hout (Option.some.inj hinp).symm hk⟩
        case isFalse => simp at he
    case isFalse hout =>
      obtain ⟨r, hr, rfl⟩ := List.mem_map.mp he
      obtain ⟨hr, hmap⟩ := (hfound _ r).mp hr
      exact ⟨rfl, .matching hl hr hout hmap⟩
  · split at he
    case isTrue hk =>
      obtain ⟨r, hr, rfl⟩ := List.mem_map.mp he
      obtain ⟨hr, hinp⟩ := (hfound _ r).mp hr
      exact ⟨rfl, .right hr (Option.some.inj hinp).symm hk⟩
    case isFalse => simp at he

theorem leftOuterLoop_complete (found : Option ℕ → List (HalfArc W))
    (hfound : ∀ key r, r ∈ found key ↔ r ∈ o.b.outArcs tri.qb ∧ key = some r.arc.inp)
    (made : Record W) (k : TrioKey) (hmove : Move3 o (.trio tri) made (.trio k)) :
    made.composeArc k ∈ leftOuterLoop o tri found := by
  cases hmove with
  | left hl hout hk =>
    refine List.mem_append_left _ (List.mem_flatMap.mpr ⟨_, hl, ?_⟩)
    rw [if_pos hout, if_pos hk]
    exact List.mem_append_left _ (List.mem_singleton.mpr rfl)
  | right hr hinp hk =>
    refine List.mem_append_right _ ?_
    rw [if_pos hk]
    exact List.mem_map.mpr ⟨_, (hfound _ _).mpr ⟨hr, by rw [hinp]⟩, rfl⟩
  | epsilons hl hr hout hinp hk =>
    refine List.mem_append_left _ (List.mem_flatMap.mpr ⟨_, hl, ?_⟩)
    rw [if_pos hout, if_pos hk]
    exact List.mem_append_right _ (List.mem_map.mpr ⟨_, (hfound _ _).mpr ⟨hr, by rw [hinp]⟩, rfl⟩)
  | matching hl hr hout hmap =>
    refine List.mem_append_left _ (List.mem_flatMap.mpr ⟨_, hl, ?_⟩)
    rw [if_neg hout]
    exact List.mem_map.mpr ⟨_, (hfound _ _).mpr ⟨hr, hmap⟩, rfl⟩

theorem leftOuterLoop_nodup (found : Option ℕ → List (HalfArc W))
    (hfound : ∀ key, (found key).Nodup) :
    ((leftOuterLoop o tri found).map ComposeArc.made).Nodup := by
  have hboth (key : Option ℕ) (l : HalfArc W) : ((found key).map (Record.both l)).Nodup :=
    (hfound key).map fun _ _ h => (Record.both.inj h).2
  have hright (key : Option ℕ) : ((found key).map Record.right).Nodup :=
    (hfound key).map fun _ _ h => Record.right.inj h
  rw [leftOuterLoop, List.map_append, List.map_flatMap]
  refine List.Nodup.append ?_ ?_ ?_
  · refine nodup_flatMap_of_key Record.leftArc? (o.a.outArcs_nodup _) ?_ ?_
    · intro l _
      split_ifs <;> simp [Record.composeArc, Function.comp_def, hboth]
    · intro l _ made hmade
      obtain ⟨e, he, rfl⟩ := List.mem_map.mp hmade
      split_ifs at he <;> simp [Record.composeArc] at he <;> grind [Record.leftArc?]
  · split_ifs <;> simp [Record.composeArc, Function.comp_def, hright]
  · intro made hleft hmade
    split_ifs at hmade <;> simp [Record.composeArc] at hmade
    obtain ⟨r, -, rfl⟩ := hmade
    obtain ⟨l, -, hmem⟩ := List.mem_flatMap.mp hleft
    split_ifs at hmem <;> simp [Record.composeArc] at hmem

theorem leftOuterLoop_makesMoves (found : Option ℕ → List (HalfArc W))
    (hfound : ∀ key r, r ∈ found key ↔ r ∈ o.b.outArcs tri.qb ∧ key = some r.arc.inp)
    (hnodup : ∀ key, (found key).Nodup) : MakesMoves o tri (leftOuterLoop o tri found) where
  faithful e he := (leftOuterLoop_sound o tri found hfound e he).1
  sound e he := (leftOuterLoop_sound o tri found hfound e he).2
  complete := leftOuterLoop_complete o tri found hfound
  nodup := leftOuterLoop_nodup o tri found hnodup

theorem bothSmallLoop_makesMoves : MakesMoves o tri (bothSmallLoop o tri) := by
  have hloop : bothSmallLoop o tri = leftOuterLoop o tri fun key =>
      (o.b.outArcs tri.qb).filter fun r => key = some r.arc.inp := by
    simp only [bothSmallLoop, leftOuterLoop, Option.some.injEq, eq_comm (a := epsilonIndex)]
    rfl
  rw [hloop]
  exact leftOuterLoop_makesMoves o tri _ (fun key r => by simp)
    fun key => (o.b.outArcs_nodup _).filter _

theorem rightLargerLoop_makesMoves : MakesMoves o tri (rightLargerLoop o tri) := by
  have hloop : rightLargerLoop o tri = leftOuterLoop o tri fun key =>
      (findSecond (o.bIndex tri.qb) key).getD [] := by
    simp only [rightLargerLoop, leftOuterLoop, forMatches_eq]
    rfl
  rw [hloop]
  exact leftOuterLoop_makesMoves o tri _ (fun key r => mem_findSecond_indexBy .kInput _ r key)
    (findSecond_indexBy_nodup .kInput _ (o.b.outArcs_nodup _))

omit [MulOneClass W] in
theorem mem_aIndex (l : HalfArc W) (key : Option ℕ) :
    l ∈ (findSecond (o.aIndex tri.qa) key).getD [] ↔
      l ∈ o.a.outArcs tri.qa ∧ key = some l.arc.out :=
  mem_findSecond_indexBy .kOutput _ l key

theorem leftLargerLoop_sound : ∀ e ∈ leftLargerLoop o tri,
    e = e.made.composeArc e.triDest ∧ Move3 o (.trio tri) e.made (.trio e.triDest) := by
  intro e he
  simp only [leftLargerLoop, forMatches_eq] at he
  rcases List.mem_append.mp he with he | he
  · obtain ⟨r, hr, he⟩ := List.mem_flatMap.mp he
    split at he
    case isTrue hinp =>
      rcases List.mem_append.mp he with he | he
      · split at he
        case isTrue hk =>
          obtain rfl := List.mem_singleton.mp he
          exact ⟨rfl, .right hr hinp hk⟩
        case isFalse => simp at he
      · split at he
        case isTrue hk =>
          obtain ⟨l, hl, rfl⟩ := List.mem_map.mp he
          obtain ⟨hl, hout⟩ := (mem_aIndex o tri l _).mp hl
          exact ⟨rfl, .epsilons hl hr (Option.some.inj hout).symm hinp hk⟩
        case isFalse => simp at he
    case isFalse hinp =>
      obtain ⟨l, hl, rfl⟩ := List.mem_map.mp he
      obtain ⟨hl, hmap⟩ := (mem_aIndex o tri l _).mp hl
      have hmap' : o.map l.arc.out = some r.arc.inp := (Alphabet.computeMap_comm ..).mp hmap
      have hout := (Alphabet.computeMap_eq_epsilon_iff _ _ hmap').not.mpr hinp
      exact ⟨rfl, .matching hl hr hout hmap'⟩
  · split at he
    case isTrue hk =>
      obtain ⟨l, hl, rfl⟩ := List.mem_map.mp he
      obtain ⟨hl, hout⟩ := (mem_aIndex o tri l _).mp hl
      exact ⟨rfl, .left hl (Option.some.inj hout).symm hk⟩
    case isFalse => simp at he

theorem leftLargerLoop_complete (made : Record W) (k : TrioKey)
    (hmove : Move3 o (.trio tri) made (.trio k)) : made.composeArc k ∈ leftLargerLoop o tri := by
  simp only [leftLargerLoop, forMatches_eq]
  cases hmove with
  | right hr hinp hk =>
    refine List.mem_append_left _ (List.mem_flatMap.mpr ⟨_, hr, ?_⟩)
    rw [if_pos hinp, if_pos hk]
    exact List.mem_append_left _ (List.mem_singleton.mpr rfl)
  | left hl hout hk =>
    refine List.mem_append_right _ ?_
    rw [if_pos hk]
    exact List.mem_map.mpr ⟨_, (mem_aIndex o tri _ _).mpr ⟨hl, by rw [hout]⟩, rfl⟩
  | epsilons hl hr hout hinp hk =>
    refine List.mem_append_left _ (List.mem_flatMap.mpr ⟨_, hr, ?_⟩)
    rw [if_pos hinp, if_pos hk]
    exact List.mem_append_right _
      (List.mem_map.mpr ⟨_, (mem_aIndex o tri _ _).mpr ⟨hl, by rw [hout]⟩, rfl⟩)
  | matching hl hr hout hmap =>
    have hinp := (Alphabet.computeMap_eq_epsilon_iff _ _ hmap).not.mp hout
    refine List.mem_append_left _ (List.mem_flatMap.mpr ⟨_, hr, ?_⟩)
    rw [if_neg hinp]
    refine List.mem_map.mpr ⟨_, (mem_aIndex o tri _ _).mpr ⟨hl, ?_⟩, rfl⟩
    exact (Alphabet.computeMap_comm ..).mp hmap

theorem leftLargerLoop_nodup : ((leftLargerLoop o tri).map ComposeArc.made).Nodup := by
  have hfound (key : Option ℕ) : ((findSecond (o.aIndex tri.qa) key).getD []).Nodup :=
    findSecond_indexBy_nodup .kOutput _ (o.a.outArcs_nodup _) key
  have hboth (key : Option ℕ) (r : HalfArc W) :
      (((findSecond (o.aIndex tri.qa) key).getD []).map fun l => Record.both l r).Nodup :=
    (hfound key).map fun _ _ h => (Record.both.inj h).1
  have hleft (key : Option ℕ) :
      (((findSecond (o.aIndex tri.qa) key).getD []).map Record.left).Nodup :=
    (hfound key).map fun _ _ h => Record.left.inj h
  simp only [leftLargerLoop, forMatches_eq, List.map_append, List.map_flatMap]
  refine List.Nodup.append ?_ ?_ ?_
  · refine nodup_flatMap_of_key Record.rightArc? (o.b.outArcs_nodup _) ?_ ?_
    · intro r _
      split_ifs <;> simp [Function.comp_def, hboth]
    · intro r _ made hmade
      obtain ⟨e, he, rfl⟩ := List.mem_map.mp hmade
      split_ifs at he <;> simp at he <;> grind [Record.rightArc?]
  · split_ifs <;> simp [Function.comp_def, hleft]
  · intro made hright hmade
    split_ifs at hmade <;> simp at hmade
    obtain ⟨l, -, rfl⟩ := hmade
    obtain ⟨r, -, hmem⟩ := List.mem_flatMap.mp hright
    split_ifs at hmem <;> simp at hmem

theorem leftLargerLoop_makesMoves : MakesMoves o tri (leftLargerLoop o tri) where
  faithful e he := (leftLargerLoop_sound o tri e he).1
  sound e he := (leftLargerLoop_sound o tri e he).2
  complete := leftLargerLoop_complete o tri
  nodup := leftLargerLoop_nodup o tri

/-- **The three loops make the same moves**, whatever the sizes and the threshold. -/
theorem threeStateLoop_makesMoves : MakesMoves o tri (threeStateLoop o tri) := by
  rw [threeStateLoop]
  by_cases hindex : (if (o.a.state tri.qa).size > (o.b.state tri.qb).size then
      (o.a.state tri.qa).size else (o.b.state tri.qb).size) > o.indexThreshold
  · rw [if_pos hindex]
    split
    · exact leftLargerLoop_makesMoves o tri
    · exact rightLargerLoop_makesMoves o tri
  · rw [if_neg hindex]
    exact bothSmallLoop_makesMoves o tri

end ThreeState

section TwoState

variable [MulOneClass W] (o : Operands W)

/-- The arcs out of a mediate state, by its key. -/
def mediateArcs (m : HalfArcState) : List (ComposeArc W) :=
  mediateLoop m ((findSecond (o.bIndex m.rSource) (o.map m.lHiddenLetter)).getD [])

theorem mem_mediateArcs (m : HalfArcState) (e : ComposeArc W) :
    e ∈ mediateArcs o m ↔
      e = e.made.composeArc e.triDest ∧ Move2 o (.mediate m) e.made (.trio e.triDest) := by
  simp only [mediateArcs, mediateLoop, List.mem_map, Operands.bIndex, mem_findSecond_indexBy]
  constructor
  · rintro ⟨r, ⟨hr, hmap⟩, rfl⟩
    exact ⟨rfl, .show hr hmap⟩
  · rintro ⟨hfaithful, hmove⟩
    obtain ⟨inp, out, weight, triDest, made⟩ := e
    cases hmove with
    | «show» hr hmap => exact ⟨_, ⟨hr, hmap⟩, hfaithful.symm⟩

omit [MulOneClass W] in
theorem mediateArcs_nodup (m : HalfArcState) : ((mediateArcs o m).map ComposeArc.made).Nodup := by
  have hfound := findSecond_indexBy_nodup .kInput _ (o.b.outArcs_nodup m.rSource)
    (o.map m.lHiddenLetter)
  simp only [mediateArcs, mediateLoop, List.map_map, Function.comp_def]
  exact hfound.map fun _ _ h => Record.right.inj h

/-- The arc an emission adds to the state the loop is run for. -/
def Emission.item : Emission W → Item W
  | .arc e => e.item
  | .viaMediate m la _ => ⟨.left la, .mediate m⟩

/-- An emission carries the fields of the operand arcs, and what populates a
mediate state depends on its key only. -/
def Emission.Faithful (preserveGroups : Bool) : Emission W → Prop
  | .arc e => e = e.made.composeArc e.triDest
  | .viaMediate m _ inner => preserveGroups = true ∧ inner = mediateArcs o m

variable (tri : TrioKey)

omit [MulOneClass W] in
theorem mem_aIndex_entries (letter : ℕ) (ls : List (HalfArc W)) :
    (letter, ls) ∈ o.order.iter (o.aIndex tri.qa) ↔ (o.aIndex tri.qa).lookup letter = some ls :=
  ((o.order.perm _).mem_iff).trans (mem_indexBy_iff ..)

omit [MulOneClass W] in
theorem mem_bucket {letter : ℕ} {ls : List (HalfArc W)}
    (hentry : (letter, ls) ∈ o.order.iter (o.aIndex tri.qa)) (l : HalfArc W) :
    l ∈ ls ↔ l ∈ o.a.outArcs tri.qa ∧ l.arc.out = letter := by
  have h := mem_aIndex o tri l (some letter)
  rw [findSecond, Option.bind_some, (mem_aIndex_entries o tri letter ls).mp hentry] at h
  simpa [eq_comm] using h

omit [MulOneClass W] in
theorem exists_bucket {l : HalfArc W} (hl : l ∈ o.a.outArcs tri.qa) :
    ∃ ls, (l.arc.out, ls) ∈ o.order.iter (o.aIndex tri.qa) ∧ l ∈ ls := by
  have hsome : (findSecond (o.aIndex tri.qa) (some l.arc.out)).isSome :=
    (findSecond_indexBy_isSome_iff ..).mpr ⟨l, hl, rfl⟩
  obtain ⟨ls, hls⟩ := Option.isSome_iff_exists.mp hsome
  have hentry := (mem_aIndex_entries o tri l.arc.out ls).mpr hls
  exact ⟨ls, hentry, (mem_bucket o tri hentry l).mpr ⟨hl, rfl⟩⟩

theorem bucketLoop_sound {letter : ℕ} {ls : List (HalfArc W)}
    (hentry : (letter, ls) ∈ o.order.iter (o.aIndex tri.qa)) :
    ∀ e ∈ bucketLoop o tri letter ls,
      e.Faithful o true ∧ Move2 o (.trio tri) e.item.made e.item.dest ∧
        ∃ l ∈ ls, e.item.made = .left l := by
  intro e he
  rw [bucketLoop] at he
  split at he
  case isTrue hletter =>
    split at he
    case isTrue hk =>
      obtain ⟨l, hmem, rfl⟩ := List.mem_map.mp he
      obtain ⟨hl, hout⟩ := (mem_bucket o tri hentry l).mp hmem
      exact ⟨rfl, .left hl (hout.trans hletter) hk, l, hmem, rfl⟩
    case isFalse => simp at he
  case isFalse hletter =>
    split at he
    case h_1 rs hrs =>
      obtain ⟨l, hmem, rfl⟩ := List.mem_map.mp he
      obtain ⟨hl, rfl⟩ := (mem_bucket o tri hentry l).mp hmem
      have hmatch := (findSecond_indexBy_isSome_iff ..).mp (Option.isSome_of_eq_some hrs)
      have hinner : (findSecond (o.bIndex tri.qb) (o.map l.arc.out)).getD [] = rs := by rw [hrs]; rfl
      exact ⟨⟨rfl, by rw [mediateArcs, hinner]⟩, .hide hl hletter hmatch, l, hmem, rfl⟩
    case h_2 => simp at he

theorem twoStateLoop_sound : ∀ e ∈ twoStateLoop o tri,
    e.Faithful o true ∧ Move2 o (.trio tri) e.item.made e.item.dest := by
  intro e he
  rw [twoStateLoop] at he
  rcases List.mem_append.mp he with he | he
  · obtain ⟨ll, hentry, he⟩ := List.mem_flatMap.mp he
    obtain ⟨hfaithful, hmove, -⟩ := bucketLoop_sound o tri hentry e he
    exact ⟨hfaithful, hmove⟩
  · rw [forMatches_eq] at he
    obtain ⟨r, hr, rfl⟩ := List.mem_map.mp he
    obtain ⟨hr, hinp⟩ := (mem_findSecond_indexBy ..).mp hr
    exact ⟨rfl, .right hr (Option.some.inj hinp).symm⟩

theorem twoStateLoop_complete (made : Record W) (n : Node) (hmove : Move2 o (.trio tri) made n) :
    ∃ e ∈ twoStateLoop o tri, e.item = ⟨made, n⟩ := by
  rw [twoStateLoop]
  cases hmove with
  | @left _ l hl hout hk =>
    obtain ⟨ls, hentry, hmem⟩ := exists_bucket o tri hl
    refine ⟨.arc ((Record.left l).composeArc ⟨l.arc.dest, tri.qb, 0⟩),
      List.mem_append_left _ (List.mem_flatMap.mpr ⟨_, hentry, ?_⟩), rfl⟩
    rw [bucketLoop, if_pos hout, if_pos hk]
    exact List.mem_map.mpr ⟨l, hmem, rfl⟩
  | @hide _ l hl hout hmap =>
    obtain ⟨ls, hentry, hmem⟩ := exists_bucket o tri hl
    obtain ⟨rs, hrs⟩ := Option.isSome_iff_exists.mp
      ((findSecond_indexBy_isSome_iff .kInput (o.b.outArcs tri.qb) (o.map l.arc.out)).mpr hmap)
    let m : HalfArcState := ⟨l.arc.dest, tri.qb, l.arc.out⟩
    refine ⟨.viaMediate m l (mediateLoop m rs),
      List.mem_append_left _ (List.mem_flatMap.mpr ⟨_, hentry, ?_⟩), rfl⟩
    rw [bucketLoop, if_neg hout,
      show findSecond (o.bIndex tri.qb) (o.map l.arc.out) = some rs from hrs]
    exact List.mem_map.mpr ⟨l, hmem, rfl⟩
  | @right _ r hr hinp =>
    refine ⟨.arc ((Record.right r).composeArc ⟨tri.qa, r.arc.dest, 1⟩),
      List.mem_append_right _ ?_, rfl⟩
    rw [forMatches_eq]
    exact List.mem_map.mpr ⟨r, (mem_findSecond_indexBy ..).mpr ⟨hr, congrArg some hinp.symm⟩, rfl⟩

omit [MulOneClass W] in
theorem bucketLoop_nodup {letter : ℕ} {ls : List (HalfArc W)}
    (hentry : (letter, ls) ∈ o.order.iter (o.aIndex tri.qa)) :
    ((bucketLoop o tri letter ls).map fun e => e.item.made).Nodup := by
  have hls : ls.Nodup := by
    have h := findSecond_indexBy_nodup .kOutput _ (o.a.outArcs_nodup tri.qa) (some letter)
    rwa [findSecond, Option.bind_some,
      show (indexBy .kOutput (o.a.outArcs tri.qa)).lookup letter = some ls from
        (mem_aIndex_entries o tri letter ls).mp hentry] at h
  have hleft : (ls.map Record.left).Nodup := hls.map fun _ _ h => Record.left.inj h
  rw [bucketLoop]
  split
  · split <;> simp [Emission.item, ComposeArc.item, Function.comp_def, hleft]
  · split <;> simp [Emission.item, Function.comp_def, hleft]

theorem twoStateLoop_nodup : ((twoStateLoop o tri).map fun e => e.item.made).Nodup := by
  -- An arc of the left operand tells which entry of the index it stands in.
  let entryOf (made : Record W) : Option (ℕ × List (HalfArc W)) :=
    made.leftArc?.bind fun l => ((o.aIndex tri.qa).lookup l.arc.out).map fun ls => (l.arc.out, ls)
  have hentries : (o.order.iter (o.aIndex tri.qa)).Nodup :=
    (o.order.perm _).nodup_iff.mpr (List.Nodup.of_map _ (indexBy_keys_nodup ..))
  rw [twoStateLoop, List.map_append, List.map_flatMap]
  refine List.Nodup.append ?_ ?_ ?_
  · refine nodup_flatMap_of_key entryOf hentries (fun ll hll => bucketLoop_nodup o tri hll) ?_
    intro ll hll made hmade
    obtain ⟨e, he, rfl⟩ := List.mem_map.mp hmade
    obtain ⟨-, -, l, hmem, hmade⟩ := bucketLoop_sound o tri hll e he
    obtain ⟨-, hout⟩ := (mem_bucket o tri hll l).mp hmem
    simp [entryOf, hmade, Record.leftArc?, hout, (mem_aIndex_entries o tri _ _).mp hll]
  · rw [forMatches_eq, List.map_map]
    exact (findSecond_indexBy_nodup .kInput _ (o.b.outArcs_nodup _) _).map
      fun _ _ h => Record.right.inj h
  · intro made hleft hright
    obtain ⟨ll, hll, hmade⟩ := List.mem_flatMap.mp hleft
    obtain ⟨e, he, rfl⟩ := List.mem_map.mp hmade
    obtain ⟨-, -, l, -, hmade⟩ := bucketLoop_sound o tri hll e he
    rw [forMatches_eq, List.map_map] at hright
    obtain ⟨r, -, hr⟩ := List.mem_map.mp hright
    exact absurd (hr.trans hmade) (by simp [Emission.item, ComposeArc.item])

end TwoState

section Graph

variable [CommMonoid W] (o : Operands W) (preserveGroups : Bool)

/-- The arcs out of a state of the composition, in the order they are added. -/
def nodeItems : Node → List (Item W)
  | .trio k => (loopOf o preserveGroups k).map Emission.item
  | .mediate m => if preserveGroups then (mediateArcs o m).map ComposeArc.item else []
  | .merged => []

theorem loopOf_faithful (tri : TrioKey) :
    ∀ e ∈ loopOf o preserveGroups tri, e.Faithful o preserveGroups := by
  intro e he
  cases preserveGroups with
  | true => exact (twoStateLoop_sound o tri e he).1
  | false =>
    obtain ⟨ca, hca, rfl⟩ := List.mem_map.mp he
    exact (threeStateLoop_makesMoves o tri).faithful ca hca

/-- **Every state has exactly the moves of the filter automaton.** -/
theorem mem_nodeItems (n : Node) (it : Item W) :
    it ∈ nodeItems o preserveGroups n ↔ Move o preserveGroups n it.made it.dest := by
  obtain ⟨made, dest⟩ := it
  cases preserveGroups with
  | true =>
    simp only [Move, if_true]
    cases n with
    | trio k =>
      constructor
      · intro hit
        obtain ⟨e, he, heq⟩ := List.mem_map.mp hit
        have hmove := (twoStateLoop_sound o k e he).2
        rwa [heq] at hmove
      · intro hmove
        obtain ⟨e, he, heq⟩ := twoStateLoop_complete o k made dest hmove
        exact List.mem_map.mpr ⟨e, he, heq⟩
    | mediate m =>
      constructor
      · intro hit
        obtain ⟨e, he, heq⟩ := List.mem_map.mp hit
        have hmove := ((mem_mediateArcs o m e).mp he).2
        cases heq
        exact hmove
      · intro hmove
        cases hmove with
        | @«show» _ r hr hmap =>
          exact List.mem_map.mpr ⟨(Record.right r).composeArc ⟨m.lDest, r.arc.dest, 0⟩,
            (mem_mediateArcs o m _).mpr ⟨rfl, .show hr hmap⟩, rfl⟩
    | merged => exact iff_of_false (by simp [nodeItems]) (by rintro ⟨⟩)
  | false =>
    simp only [Move, Bool.false_eq_true, if_false]
    cases n with
    | trio k =>
      have hloop := threeStateLoop_makesMoves o k
      simp only [nodeItems, loopOf, Bool.false_eq_true, if_false, List.map_map]
      constructor
      · intro hit
        obtain ⟨e, he, heq⟩ := List.mem_map.mp hit
        have hmove := hloop.sound e he
        cases heq
        exact hmove
      · intro hmove
        cases dest with
        | trio k' => exact List.mem_map.mpr ⟨_, hloop.complete made k' hmove, rfl⟩
        | mediate m => cases hmove
        | merged => cases hmove
    | mediate m => exact iff_of_false (by simp [nodeItems]) (by rintro ⟨⟩)
    | merged => exact iff_of_false (by simp [nodeItems]) (by rintro ⟨⟩)

theorem nodeItems_nodup (n : Node) : ((nodeItems o preserveGroups n).map Item.made).Nodup := by
  cases n with
  | trio k =>
    cases preserveGroups with
    | true => simpa [nodeItems, loopOf, Function.comp_def] using twoStateLoop_nodup o k
    | false =>
      simpa [nodeItems, loopOf, Function.comp_def, Emission.item, ComposeArc.item] using
        (threeStateLoop_makesMoves o k).nodup
  | mediate m =>
    cases preserveGroups with
    | true => simpa [nodeItems, Function.comp_def, ComposeArc.item] using mediateArcs_nodup o m
    | false => simp [nodeItems]
  | merged => simp [nodeItems]

end Graph

end Carmel
