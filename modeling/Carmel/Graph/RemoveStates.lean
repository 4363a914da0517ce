/-
# Deleting states into a new graph

`removeStates` copies the states that are not marked through a map from old to new numbers.
The loop that fills the map does not pass a marked state, and an arc is added with its ends
in the other order, so it leaves what `removeStates_inplace` does only when there is nothing
to delete and every arc is a loop.
-/

import Carmel.Derivations.Prune
import Carmel.Graph.ShortestPathTree

namespace Carmel

section Code

variable (marked : List Bool)

/-- The loop of `removeStates` that numbers the states, in at most `fuel` rounds: the map
`oldToNew` and the number of states that stay. -/
def numberStates : ℕ → ℕ → ℕ → (ℕ → ℕ) → Option ((ℕ → ℕ) × ℕ)
  | 0, _, _, _ => none
  | fuel + 1, i, f, oldToNew =>
    if i < marked.length then
      if marked.getD i false = false then
        numberStates fuel (i + 1) (f + 1) (Function.update oldToNew i f)
      else numberStates fuel i f oldToNew
    else some (oldToNew, f)

/-- One round of the loop over `arcs`: `new_state.add(..)` for an arc to a state that stays. -/
def addArc (oldToNew : ℕ → ℕ) (newState : List GraphArc) (oldArc : GraphArc) : List GraphArc :=
  if marked.getD oldArc.dest false = false then
    ⟨oldToNew oldArc.dest, oldToNew oldArc.src, oldArc.id⟩ :: newState
  else newState

/-- One round of the loop over the states. -/
def copyState (g : List (List GraphArc)) (oldToNew : ℕ → ℕ) (reduced : List (List GraphArc))
    (i : ℕ) : List (List GraphArc) :=
  if marked.getD i false = false then
    reduced.modify (oldToNew i) fun newState =>
      (g.getD i []).foldl (addArc marked oldToNew) newState
  else reduced

/-- `removeStates`, with at most `fuel` rounds of its first loop. What `NEW unsigned[]` leaves
in the map is never read. -/
def removeStates (fuel : ℕ) (g : List (List GraphArc)) : Option (List (List GraphArc)) := do
  let (oldToNew, f) ← numberStates marked fuel 0 0 fun _ => 0
  return (List.range g.length).foldl (copyState marked g oldToNew) (List.replicate f [])

/-- `removeStates_inplace`: what it leaves in the states that stay. -/
def removeStatesInplace (g : List (List GraphArc)) : List (List GraphArc) :=
  shuffleRemoving (indicesAfterRemoving marked 0) g

end Code

/-- The same states in order, each with the same arcs. -/
def SameGraph (g h : List (List GraphArc)) : Prop := List.Forall₂ List.Perm g h

variable {marked : List Bool} {g : List (List GraphArc)}

/-- The loop that numbers the states ends only where nothing is marked. -/
theorem unmarked_of_numberStates {fuel i f : ℕ} {t : ℕ → ℕ} {r : (ℕ → ℕ) × ℕ}
    (h : numberStates marked fuel i f t = some r) :
    ∀ j, i ≤ j → j < marked.length → marked.getD j false = false := by
  induction fuel generalizing i f t with
  | zero => simp [numberStates] at h
  | succ fuel ih =>
    intro j hle hlt
    rw [numberStates, if_pos (by omega)] at h
    by_cases hi : marked.getD i false = false
    · rw [if_pos hi] at h
      rcases Nat.eq_or_lt_of_le hle with rfl | hlt'
      · exact hi
      · exact ih h j hlt' hlt
    · rw [if_neg hi] at h
      exact ih h j hle hlt

theorem exists_numberStates (h : ∀ j < marked.length, marked.getD j false = false) (n i f : ℕ)
    (t : ℕ → ℕ) (hn : i + n = marked.length) :
    ∃ t', numberStates marked (n + 1) i f t = some (t', f + n) ∧
      ∀ j, (j < i → t' j = t j) ∧ (i ≤ j → j < marked.length → t' j = f + (j - i)) := by
  induction n generalizing i f t with
  | zero =>
    refine ⟨t, ?_, ?_⟩
    · rw [numberStates, if_neg (by omega), Nat.add_zero]
    · exact fun j => ⟨fun _ => rfl, fun _ _ => by omega⟩
  | succ n ih =>
    rcases ih (i + 1) (f + 1) (Function.update t i f) (by omega) with ⟨t', hrun, ht'⟩
    refine ⟨t', ?_, ?_⟩
    · rw [numberStates, if_pos (by omega), if_pos (h i (by omega)), hrun]
      congr 2
      omega
    · intro j
      constructor
      · intro hlt
        rw [(ht' j).1 (by omega), Function.update_of_ne (by omega)]
      · intro hle hlt
        rcases Nat.eq_or_lt_of_le hle with rfl | hlt'
        · rw [(ht' i).1 (by omega), Function.update_self]
          omega
        · rw [(ht' j).2 hlt' hlt]
          omega

/-- An arc as `add` is called with it. -/
def GraphArc.asAdded (a : GraphArc) : GraphArc := ⟨a.dest, a.src, a.id⟩

theorem foldl_addArc {t : ℕ → ℕ} {arcs : List GraphArc}
    (h : ∀ a ∈ arcs, marked.getD a.dest false = false ∧ t a.src = a.src ∧ t a.dest = a.dest)
    (newState : List GraphArc) :
    arcs.foldl (addArc marked t) newState = (arcs.map GraphArc.asAdded).reverse ++ newState := by
  induction arcs generalizing newState with
  | nil => rfl
  | cons a arcs ih =>
    rcases h a List.mem_cons_self with ⟨hmarked, hsrc, hdest⟩
    have hadd : addArc marked t newState a = a.asAdded :: newState := by
      rw [addArc, if_pos hmarked, hsrc, hdest]
      rfl
    rw [List.foldl_cons, hadd, ih fun b hb => h b (List.mem_cons_of_mem _ hb)]
    simp

theorem foldl_copyState {t : ℕ → ℕ} (hg : IsGraph g) (hlen : marked.length = g.length)
    (h : ∀ j < marked.length, marked.getD j false = false) (ht : ∀ j < marked.length, t j = j)
    {m : ℕ} (hm : m ≤ g.length) :
    (List.range m).foldl (copyState marked g t) (List.replicate g.length []) =
      (List.range m).map (fun i => ((g.getD i []).map GraphArc.asAdded).reverse) ++
        List.replicate (g.length - m) [] := by
  induction m with
  | zero => simp
  | succ m ih =>
    have hfree : g.length - m = g.length - (m + 1) + 1 := by omega
    have harcs : ∀ a ∈ g.getD m [],
        marked.getD a.dest false = false ∧ t a.src = a.src ∧ t a.dest = a.dest := by
      intro a ha
      have hsrc := hg.src m a ha
      have hdest := hg.dest m a ha
      exact ⟨h _ (by omega), ht _ (by omega), ht _ (by omega)⟩
    have hmodify := modify_append_cons
      (fun newState => (g.getD m []).foldl (addArc marked t) newState)
      ((List.range m).map fun i => ((g.getD i []).map GraphArc.asAdded).reverse)
      (List.replicate (g.length - (m + 1)) []) []
    rw [List.length_map, List.length_range] at hmodify
    rw [List.range_succ, List.foldl_append, ih (by omega), List.foldl_cons, List.foldl_nil,
      copyState, if_pos (h m (by omega)), ht m (by omega), hfree, List.replicate_succ, hmodify,
      foldl_addArc harcs]
    simp

theorem removeStates_eq (hg : IsGraph g) (hlen : marked.length = g.length)
    (h : ∀ j < marked.length, marked.getD j false = false) :
    removeStates marked (marked.length + 1) g =
      some ((List.range g.length).map fun i => ((g.getD i []).map GraphArc.asAdded).reverse) := by
  rcases exists_numberStates h marked.length 0 0 (fun _ => 0) (Nat.zero_add _) with ⟨t, hrun, ht⟩
  have hid : ∀ j < marked.length, t j = j := by
    intro j hj
    rw [(ht j).2 (Nat.zero_le _) hj]
    omega
  rw [removeStates, hrun, Nat.zero_add, hlen]
  simp only [Option.bind_eq_bind, Option.bind_some, Option.pure_def, Option.some.injEq]
  rw [foldl_copyState hg hlen h hid (Nat.le_refl _)]
  simp

theorem numberStates_succ {fuel i f : ℕ} {t : ℕ → ℕ} {r : (ℕ → ℕ) × ℕ}
    (h : numberStates marked fuel i f t = some r) :
    numberStates marked (fuel + 1) i f t = some r := by
  induction fuel generalizing i f t with
  | zero => simp [numberStates] at h
  | succ fuel ih =>
    rw [numberStates] at h ⊢
    by_cases hi : i < marked.length
    · rw [if_pos hi] at h ⊢
      by_cases hm : marked.getD i false = false
      · rw [if_pos hm] at h ⊢
        exact ih h
      · rw [if_neg hm] at h ⊢
        exact ih h
    · rw [if_neg hi] at h ⊢
      exact h

theorem numberStates_mono {m n i f : ℕ} {t : ℕ → ℕ} {r : (ℕ → ℕ) × ℕ} (hle : m ≤ n)
    (h : numberStates marked m i f t = some r) : numberStates marked n i f t = some r := by
  induction hle with
  | refl => exact h
  | step _ ih => exact numberStates_succ ih

theorem removeStates_mono {m n : ℕ} {reduced : List (List GraphArc)} (hle : m ≤ n)
    (h : removeStates marked m g = some reduced) : removeStates marked n g = some reduced := by
  rcases Option.bind_eq_some_iff.mp h with ⟨r, hnumber, hcopy⟩
  rw [removeStates, numberStates_mono hle hnumber]
  exact hcopy

theorem eq_of_removeStates (hg : IsGraph g) (hlen : marked.length = g.length) {fuel : ℕ}
    {reduced : List (List GraphArc)} (hrun : removeStates marked fuel g = some reduced) :
    (∀ j < marked.length, marked.getD j false = false) ∧
      reduced = (List.range g.length).map fun i => ((g.getD i []).map GraphArc.asAdded).reverse := by
  rcases Option.bind_eq_some_iff.mp hrun with ⟨r, hnumber, -⟩
  have hunmarked : ∀ j < marked.length, marked.getD j false = false :=
    fun j hj => unmarked_of_numberStates hnumber j (Nat.zero_le _) hj
  refine ⟨hunmarked, ?_⟩
  have hmore := removeStates_mono (Nat.le_max_left fuel (marked.length + 1)) hrun
  have hmore' := removeStates_mono (Nat.le_max_right fuel (marked.length + 1))
    (removeStates_eq hg hlen hunmarked)
  exact Option.some.inj (hmore.symm.trans hmore')

theorem indicesAfterRemoving_of_unmarked {remove : List Bool}
    (h : ∀ j < remove.length, remove.getD j false = false) (f : ℕ) :
    indicesAfterRemoving remove f = (List.range' f remove.length).map some := by
  induction remove generalizing f with
  | nil => rfl
  | cons b remove ih =>
    have hb : b = false := h 0 (Nat.zero_lt_succ _)
    have htail : ∀ j < remove.length, remove.getD j false = false :=
      fun j hj => h (j + 1) (Nat.succ_lt_succ hj)
    rw [hb, indicesAfterRemoving, ih htail, List.length_cons, List.range'_succ, List.map_cons]

theorem keptStates_map_some {r : List GraphArc → List GraphArc} {new : List ℕ}
    (hlen : new.length = g.length) : keptStates r (new.map some) g = g.map r := by
  induction new generalizing g with
  | nil =>
    cases g with
    | nil => rfl
    | cons arcs g => simp at hlen
  | cons j new ih =>
    cases g with
    | nil => simp at hlen
    | cons arcs g =>
      rw [List.map_cons, keptStates, ih (by simpa using hlen), List.map_cons]

theorem removeStatesInplace_of_unmarked (hg : IsGraph g) (hlen : marked.length = g.length)
    (h : ∀ j < marked.length, marked.getD j false = false) : removeStatesInplace marked g = g := by
  have hlen' : g.length = (indicesAfterRemoving marked 0).length := by
    rw [length_indicesAfterRemoving, hlen]
  have hnew : ∀ i < g.length, (indicesAfterRemoving marked 0).getD i none = some i := by
    intro i hi
    rw [indicesAfterRemoving_of_unmarked h, hlen]
    simp [List.getD_eq_getElem?_getD, hi]
  have hsame : ∀ arcs ∈ g, rewriteGraphState (indicesAfterRemoving marked 0) arcs = arcs := by
    intro arcs harcs
    rcases List.mem_iff_getElem.mp harcs with ⟨i, hi, rfl⟩
    have hget : g.getD i [] = g[i] := by simp [List.getD_eq_getElem?_getD, hi]
    rw [rewriteGraphState, List.filterMap_congr (g := some), List.filterMap_some]
    intro a ha
    rw [← hget] at ha
    have hsrc := hg.src i a ha
    have hdest := hg.dest i a ha
    rw [hnew a.dest hdest, hnew a.src (by omega)]
    rfl
  rw [removeStatesInplace, shuffleRemoving_eq hlen', indicesAfterRemoving_of_unmarked h,
    keptStates_map_some (by rw [List.length_range', hlen]), ← indicesAfterRemoving_of_unmarked h,
    List.map_congr_left hsame, List.map_id']

/-- Turned arcs are the arcs again only if all of them are loops. -/
theorem perm_asAdded_iff {arcs : List GraphArc} {i : ℕ} (hsrc : ∀ a ∈ arcs, a.src = i) :
    (arcs.map GraphArc.asAdded).reverse.Perm arcs ↔ ∀ a ∈ arcs, a.dest = i := by
  constructor
  · intro hperm a ha
    have hadded : a.asAdded ∈ arcs := by
      apply hperm.mem_iff.mp
      rw [List.mem_reverse]
      exact List.mem_map_of_mem ha
    exact hsrc _ hadded
  · intro hdest
    have hsame : ∀ a ∈ arcs, a.asAdded = a := by
      intro a ha
      have hends : a.src = a.dest := (hsrc a ha).trans (hdest a ha).symm
      rcases a with ⟨src, dest, id⟩
      exact congrArg₂ (fun src dest => GraphArc.mk src dest id) hends.symm hends
    rw [List.map_congr_left hsame, List.map_id']
    exact List.reverse_perm arcs

theorem sameGraph_asAdded_iff (hg : IsGraph g) :
    SameGraph ((List.range g.length).map fun i => ((g.getD i []).map GraphArc.asAdded).reverse) g ↔
      ∀ s, ∀ a ∈ g.getD s [], a.dest = s := by
  have hget : ∀ i (hi : i < g.length), g.getD i [] = g[i] := by
    intro i hi
    simp [List.getD_eq_getElem?_getD, hi]
  rw [SameGraph, List.forall₂_iff_get]
  constructor
  · rintro ⟨-, hperm⟩ s a ha
    by_cases hs : s < g.length
    · have hsame := hperm s (by simpa using hs) hs
      rw [List.get_eq_getElem, List.get_eq_getElem, List.getElem_map, List.getElem_range,
        ← hget s hs] at hsame
      exact (perm_asAdded_iff (hg.src s)).mp hsame a ha
    · simp [List.getD_eq_getElem?_getD, List.getElem?_eq_none (Nat.le_of_not_lt hs)] at ha
  · intro hloops
    refine ⟨by simp, ?_⟩
    intro s h₁ h₂
    rw [List.get_eq_getElem, List.get_eq_getElem, List.getElem_map, List.getElem_range, ← hget s h₂]
    exact (perm_asAdded_iff (hg.src s)).mpr (hloops s)

theorem unmarked_and_loops (hg : IsGraph g) (hlen : marked.length = g.length) {fuel : ℕ}
    {reduced : List (List GraphArc)} (hrun : removeStates marked fuel g = some reduced)
    (hsame : SameGraph reduced (removeStatesInplace marked g)) :
    (∀ j < marked.length, marked.getD j false = false) ∧ ∀ s, ∀ a ∈ g.getD s [], a.dest = s := by
  rcases eq_of_removeStates hg hlen hrun with ⟨hunmarked, rfl⟩
  rw [removeStatesInplace_of_unmarked hg hlen hunmarked] at hsame
  exact ⟨hunmarked, (sameGraph_asAdded_iff hg).mp hsame⟩

/-- `removeStates` returns the graph that `removeStates_inplace` leaves exactly when nothing is
marked and every arc is a loop. -/
theorem removeStates_iff (hg : IsGraph g) (hlen : marked.length = g.length) :
    (∃ fuel reduced, removeStates marked fuel g = some reduced ∧
        SameGraph reduced (removeStatesInplace marked g)) ↔
      (∀ j < marked.length, marked.getD j false = false) ∧ ∀ s, ∀ a ∈ g.getD s [], a.dest = s := by
  constructor
  · rintro ⟨fuel, reduced, hrun, hsame⟩
    exact unmarked_and_loops hg hlen hrun hsame
  · rintro ⟨hunmarked, hloops⟩
    refine ⟨_, _, removeStates_eq hg hlen hunmarked, ?_⟩
    rw [removeStatesInplace_of_unmarked hg hlen hunmarked]
    exact (sameGraph_asAdded_iff hg).mpr hloops

theorem isGraph_of_forall (h : ∀ s < g.length, ∀ a ∈ g.getD s [], a.src = s ∧ a.dest < g.length) :
    IsGraph g := by
  have hlt : ∀ s, ∀ a ∈ g.getD s [], s < g.length := by
    intro s a ha
    by_contra hs
    simp [List.getD_eq_getElem?_getD, List.getElem?_eq_none (Nat.le_of_not_lt hs)] at ha
  exact ⟨fun s a ha => (h s (hlt s a ha) a ha).1, fun s a ha => (h s (hlt s a ha) a ha).2⟩

theorem removeStates_loop_iff :
    (∃ fuel reduced, removeStates [false, false] fuel [[], [⟨1, 1, 0⟩]] = some reduced ∧
        SameGraph reduced (removeStatesInplace [false, false] [[], [⟨1, 1, 0⟩]])) ↔
      (∀ j < 2, [false, false].getD j false = false) ∧
        ∀ s, ∀ a ∈ [[], [(⟨1, 1, 0⟩ : GraphArc)]].getD s [], a.dest = s :=
  removeStates_iff (isGraph_of_forall (by decide)) rfl

/-- Nothing is deleted, and the only arc comes back turned round. -/
theorem not_removeStates_arc :
    IsGraph [[⟨0, 1, 0⟩], []] ∧
      ¬ ∃ fuel reduced, removeStates [false, false] fuel [[⟨0, 1, 0⟩], []] = some reduced ∧
        SameGraph reduced (removeStatesInplace [false, false] [[⟨0, 1, 0⟩], []]) := by
  have hg : IsGraph [[⟨0, 1, 0⟩], []] := isGraph_of_forall (by decide)
  refine ⟨hg, ?_⟩
  rintro ⟨fuel, reduced, hrun, hsame⟩
  have hloops := (unmarked_and_loops hg rfl hrun hsame).2
  have hloop : (1 : ℕ) = 0 := hloops 0 ⟨0, 1, 0⟩ List.mem_cons_self
  exact absurd hloop (by decide)

end Carmel
