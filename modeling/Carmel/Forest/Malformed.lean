/-
# Texts that are no forests

The readers check little of a text. A name that was never defined or a parenthesis too many
is undefined. A label after a pair of parentheses that was closed empty may become a node
whose `next` nobody writes; and where an allocator is used, parentheses alone become a
forest without nodes. Any other text is read as a well-formed forest, or reported as
unreadable.
-/

import Carmel.Forest.Tokens

namespace Carmel.Forest

open Carmel.Math

/-- Every child range is inside its parent's, and pointers go back to nodes before. -/
structure FForest.WellFormed (f : FForest) : Prop where
  root : 0 < f.size ∧ (f.node 0).next = f.size
  next : ∀ i < f.size, i < (f.node i).next ∧ (f.node i).next ≤ f.size
  nested : ∀ i < f.size, ∀ j, i < j → j < (f.node i).next → (f.node j).next ≤ (f.node i).next
  targets : ∀ i < f.size, ∀ target, (f.node i).label = .pointer target → target < i

/-- A reader has built a well-formed forest, or reported failure. -/
def BuildsOrReports : Except ReadFailure ReadState → Prop
  | .ok s => s.forest.WellFormed
  | .error e => e ≠ .undefined

/-! ## What can be told from the tokens -/

/-- How far the tokens of a text have come: the place of the next node, the places of the
parentheses that are open, the names, and whether a label came after an empty pair. -/
structure Scan where
  place : ℕ
  parens : List ℕ
  names : List ℕ
  followsParen : Bool
  orphan : Bool

namespace Scan

def start : Scan := ⟨0, [], [], false, false⟩

def opened (t : Scan) (id? : Option ℕ) : Scan :=
  { t with parens := t.place :: t.parens, names := id?.toList ++ t.names, followsParen := true }

/-- A leaf or a pointer. -/
def added (t : Scan) : Scan := { t with place := t.place + 1 }

/-- A label belongs to the parenthesis that is open at its place. -/
def labelled (t : Scan) : Scan :=
  { t with place := t.place + 1, followsParen := false, orphan := t.orphan || t.place ∉ t.parens }

def closed (t : Scan) (parens : List ℕ) : Scan := { t with parens := parens }

/-- No undefined name, no parenthesis too many, and no label or root that is missing, up to
where a reader with room for `limit` nodes stops. The reader of streams (`streams`) stops at
any node without room, and when a parenthesis of the root is closed before the last. -/
def harmless (streams : Bool) (limit : ℕ) : Scan → List Token → Bool
  | _, [] => true
  | t, token :: tokens =>
    if streams && limit ≤ t.place then true
    else
      match token with
      | .opening id? =>
        if id?.isSome && t.followsParen then true
        else harmless streams limit (t.opened id?) tokens
      | .ref id =>
        if t.followsParen || limit ≤ t.place then true
        else id ∈ t.names && harmless streams limit t.added tokens
      | .rule =>
        if limit ≤ t.place then true
        else if t.followsParen then harmless streams limit t.labelled tokens
        else t.parens = [] || harmless streams limit t.added tokens
      | .or =>
        if limit ≤ t.place || !t.followsParen then true
        else harmless streams limit t.labelled tokens
      | .closing =>
        match t.parens with
        | [] => false
        | top :: parens =>
          if streams && top = 0 && (parens ≠ [] || t.place = 0) then true
          else if parens = [] then t.place ≠ 0 && !t.orphan
          else harmless streams limit (t.closed parens) tokens

end Scan

/-! ## The memory while a text is read -/

/-- The nodes that are done lie within each other, and an orphan has no end. That is known
when the places that were never written have a useless `next` (`useless`). -/
structure Shaped (useless : Prop) (memory : ℕ → ForestNode) (t : Scan) : Prop where
  le_place : ∀ p ∈ t.parens, p ≤ t.place
  sorted : t.parens.Pairwise (· ≥ ·)
  root : t.parens ≠ [] → 0 ∈ t.parens
  start : t.parens = [] → t.place = 0 ∧ t.followsParen = false ∧ t.names = [] ∧ t.orphan = false
  here : t.followsParen = false → t.place ∉ t.parens
  inside : t.orphan = false → ∀ i < t.place, i ∉ t.parens →
    i < (memory i).next ∧ (memory i).next ≤ t.place ∧
      ∀ j, i < j → j < (memory i).next → j ∉ t.parens ∧ (memory j).next ≤ (memory i).next
  targets : ∀ i < t.place, ∀ target, (memory i).label = .pointer target → target < i
  orphaned : t.orphan = true → useless →
    ∃ i, 0 < i ∧ i < t.place ∧ i ∉ t.parens ∧ (memory i).next ≤ i
  stale : t.followsParen = true → t.place ∉ t.parens → useless → (memory t.place).next ≤ t.place

namespace Shaped

variable {useless : Prop} {memory memory' : ℕ → ForestNode} {t : Scan} {node : ForestNode}
  {id? : Option ℕ} {top : ℕ} {parens : List ℕ}

theorem initial (memory : ℕ → ForestNode) : Shaped useless memory Scan.start where
  le_place := nofun
  sorted := List.Pairwise.nil
  root h := absurd rfl h
  start _ := ⟨rfl, rfl, rfl, rfl⟩
  here _ := List.not_mem_nil
  inside _ i hi := absurd hi (Nat.not_lt_zero i)
  targets i hi := absurd hi (Nat.not_lt_zero i)
  orphaned := nofun
  stale := nofun

theorem opened (h : Shaped useless memory t) : Shaped useless memory (t.opened id?) where
  le_place p hp := by
    rcases List.mem_cons.mp hp with rfl | hp
    · exact Nat.le_refl _
    · exact h.le_place p hp
  sorted := List.pairwise_cons.mpr ⟨h.le_place, h.sorted⟩
  root _ := by
    by_cases hparens : t.parens = []
    · exact List.mem_cons.mpr (Or.inl (h.start hparens).1.symm)
    · exact List.mem_cons_of_mem _ (h.root hparens)
  start := nofun
  here := nofun
  inside horphan i hi hnot := by
    have hne : ∀ j, j < t.place → j ∉ t.parens → j ∉ (t.opened id?).parens := by
      intro j hj hmem hj'
      rcases List.mem_cons.mp hj' with heq | hj'
      · omega
      · exact hmem hj'
    obtain ⟨hlt, hle, hall⟩ := h.inside horphan i hi fun hmem => hnot (List.mem_cons_of_mem _ hmem)
    refine ⟨hlt, hle, ?_⟩
    intro j hij hj
    obtain ⟨hmem, hnext⟩ := hall j hij hj
    exact ⟨hne j (by omega) hmem, hnext⟩
  targets := h.targets
  orphaned horphan huseless := by
    obtain ⟨i, hpos, hi, hmem, hnext⟩ := h.orphaned horphan huseless
    refine ⟨i, hpos, hi, ?_, hnext⟩
    intro hmem'
    rcases List.mem_cons.mp hmem' with heq | hmem'
    · have : i < t.place := hi
      omega
    · exact hmem hmem'
  stale _ hnot := absurd List.mem_cons_self hnot

variable (node) in
/-- Adding a node changes nothing before it. -/
theorem inside_update (h : Shaped useless memory t) (horphan : t.orphan = false) {i : ℕ}
    (hi : i < t.place) (hnot : i ∉ t.parens) :
    i < (Function.update memory t.place node i).next ∧
      (Function.update memory t.place node i).next ≤ t.place ∧
      ∀ j, i < j → j < (Function.update memory t.place node i).next →
        j ∉ t.parens ∧ (Function.update memory t.place node j).next ≤
          (Function.update memory t.place node i).next := by
  obtain ⟨hlt, hle, hall⟩ := h.inside horphan i hi hnot
  rw [Function.update_of_ne (Nat.ne_of_lt hi)]
  refine ⟨hlt, hle, ?_⟩
  intro j hij hj
  rw [Function.update_of_ne (show j ≠ t.place by omega)]
  exact hall j hij hj

theorem targets_update (h : Shaped useless memory t)
    (htarget : ∀ target, node.label = .pointer target → target < t.place) :
    ∀ i < t.place + 1, ∀ target,
      (Function.update memory t.place node i).label = .pointer target → target < i := by
  intro i hi target hlabel
  by_cases heq : i = t.place
  · subst heq
    rw [Function.update_self] at hlabel
    exact htarget target hlabel
  · rw [Function.update_of_ne heq] at hlabel
    exact h.targets i (by omega) target hlabel

theorem orphaned_update (h : Shaped useless memory t) (horphan : t.orphan = true)
    (huseless : useless) : ∃ i, 0 < i ∧ i < t.place + 1 ∧ i ∉ t.parens ∧
      (Function.update memory t.place node i).next ≤ i := by
  obtain ⟨i, hpos, hi, hmem, hnext⟩ := h.orphaned horphan huseless
  refine ⟨i, hpos, by omega, hmem, ?_⟩
  rwa [Function.update_of_ne (Nat.ne_of_lt hi)]

theorem added (h : Shaped useless memory t) (hfollows : t.followsParen = false)
    (hparens : t.parens ≠ []) (hnext : node.next = t.place + 1)
    (htarget : ∀ target, node.label = .pointer target → target < t.place) :
    Shaped useless (Function.update memory t.place node) t.added where
  le_place p hp := Nat.le_succ_of_le (h.le_place p hp)
  sorted := h.sorted
  root := h.root
  start hnil := absurd hnil hparens
  here _ hmem := absurd (h.le_place _ hmem) (Nat.not_succ_le_self _)
  inside horphan i hi hnot := by
    by_cases heq : i = t.place
    · subst heq
      rw [Function.update_self, hnext]
      refine ⟨Nat.lt_succ_self _, Nat.le_refl _, ?_⟩
      intro j hij hj
      omega
    · obtain ⟨hlt, hle, hall⟩ := h.inside_update node horphan (i := i)
        (show i < t.place from by have : i < t.place + 1 := hi; omega) hnot
      exact ⟨hlt, Nat.le_succ_of_le hle, hall⟩
  targets := h.targets_update htarget
  orphaned := h.orphaned_update
  stale hno := absurd (hfollows.symm.trans hno) Bool.false_ne_true

theorem labelled (h : Shaped useless memory t) (hparens : t.parens ≠ [])
    (hfollows : t.followsParen = true) (hnext : node.next = (memory t.place).next)
    (htarget : ∀ target, node.label = .pointer target → target < t.place) :
    Shaped useless (Function.update memory t.place node) t.labelled where
  le_place p hp := Nat.le_succ_of_le (h.le_place p hp)
  sorted := h.sorted
  root := h.root
  start hnil := absurd hnil hparens
  here _ hmem := absurd (h.le_place _ hmem) (Nat.not_succ_le_self _)
  inside horphan i hi hnot := by
    obtain ⟨horphan, hmem⟩ := Bool.or_eq_false_iff.mp horphan
    have hplace : t.place ∈ t.parens := not_not.mp (of_decide_eq_false hmem)
    have hlt : i < t.place := by
      have hle : i < t.place + 1 := hi
      have hne : i ≠ t.place := fun heq => hnot (heq ▸ hplace)
      omega
    obtain ⟨hlt', hle, hall⟩ := h.inside_update node horphan hlt hnot
    exact ⟨hlt', Nat.le_succ_of_le hle, hall⟩
  targets := h.targets_update htarget
  orphaned horphan huseless := by
    by_cases hold : t.orphan = true
    · exact h.orphaned_update hold huseless
    · have hmem : t.place ∉ t.parens := by
        rcases Bool.or_eq_true_iff.mp horphan with hyes | hnew
        · exact absurd hyes hold
        · exact of_decide_eq_true hnew
      -- the place of the root is always open
      have hpos : t.place ≠ 0 := fun hzero => hmem (hzero ▸ h.root hparens)
      refine ⟨t.place, Nat.pos_of_ne_zero hpos, Nat.lt_succ_self _, hmem, ?_⟩
      rw [Function.update_self, hnext]
      exact h.stale hfollows hmem huseless
  stale := nofun

/-- What closing a parenthesis writes. -/
theorem closed (h : Shaped useless memory t) (hopen : t.parens = top :: parens)
    (hparens : parens ≠ []) (hnext : top < t.place → (memory' top).next = t.place)
    (hlabel : (memory' top).label = (memory top).label)
    (hmemory : ∀ i, i ≠ top → memory' i = memory i)
    (hstale : top = t.place → useless → (memory' top).next ≤ top) :
    Shaped useless memory' (t.closed parens) where
  le_place p hp := h.le_place p (hopen ▸ List.mem_cons_of_mem _ hp)
  sorted := (List.pairwise_cons.mp (hopen ▸ h.sorted)).2
  root _ := by
    have hroot := h.root (hopen ▸ List.cons_ne_nil _ _)
    rw [hopen] at hroot
    rcases List.mem_cons.mp hroot with htop | hmem
    · obtain ⟨p, rest, rfl⟩ := List.exists_cons_of_ne_nil hparens
      have hle := (List.pairwise_cons.mp (hopen ▸ h.sorted)).1 p List.mem_cons_self
      have hzero : p = 0 := by omega
      exact hzero ▸ List.mem_cons_self
    · exact hmem
  start hnil := absurd hnil hparens
  here hfollows hmem := h.here hfollows (hopen ▸ List.mem_cons_of_mem _ hmem)
  inside horphan i hi hnot := by
    have hbelow : ∀ p ∈ parens, p ≤ top := (List.pairwise_cons.mp (hopen ▸ h.sorted)).1
    have hsame : ∀ j, j ≠ top → j ∉ parens → j ∉ t.parens := by
      intro j hj hmem hmem'
      rw [hopen] at hmem'
      rcases List.mem_cons.mp hmem' with heq | hmem'
      · exact hj heq
      · exact hmem hmem'
    have hafter : ∀ j, top < j → j ∉ parens := by
      intro j hj hmem
      have := hbelow j hmem
      omega
    by_cases heq : i = top
    · subst heq
      have hend := hnext hi
      rw [hend]
      refine ⟨hi, Nat.le_refl _, ?_⟩
      intro j hij hj
      refine ⟨hafter j hij, ?_⟩
      rw [hmemory j (by omega)]
      exact (h.inside horphan j hj (hsame j (by omega) (hafter j hij))).2.1
    · obtain ⟨hlt, hle, hall⟩ := h.inside horphan i hi (hsame i heq hnot)
      rw [hmemory i heq]
      refine ⟨hlt, hle, ?_⟩
      intro j hij hj
      obtain ⟨hmem, hle'⟩ := hall j hij hj
      rw [hopen] at hmem
      obtain ⟨hne, hmem⟩ := not_or.mp (fun hor => hmem (List.mem_cons.mpr hor))
      exact ⟨hmem, by rwa [hmemory j hne]⟩
  targets i hi target := by
    by_cases heq : i = top
    · rw [heq, hlabel, ← heq]
      exact h.targets i hi target
    · rw [hmemory i heq]
      exact h.targets i hi target
  orphaned horphan huseless := by
    obtain ⟨i, hpos, hi, hmem, hend⟩ := h.orphaned horphan huseless
    rw [hopen] at hmem
    obtain ⟨hne, hmem⟩ := not_or.mp (fun hor => hmem (List.mem_cons.mpr hor))
    exact ⟨i, hpos, hi, hmem, by rwa [hmemory i hne]⟩
  stale hfollows hnot huseless := by
    by_cases heq : t.place = top
    · have hend := hstale heq.symm huseless
      change (memory' t.place).next ≤ t.place
      rwa [heq]
    · change (memory' t.place).next ≤ t.place
      rw [hmemory _ heq]
      apply h.stale hfollows _ huseless
      intro hmem
      rw [hopen] at hmem
      rcases List.mem_cons.mp hmem with heq' | hmem
      · exact heq heq'
      · exact hnot hmem

section Finish

variable {s : ReadState}

theorem node_forest {i : ℕ} (hi : i < s.stop) : s.forest.node i = s.memory i := by
  rw [FForest.node, ReadState.forest, List.getD_eq_getElem?_getD, List.getElem?_map,
    List.getElem?_range' hi]
  simp

theorem size_forest : s.forest.size = s.stop := by
  rw [FForest.size, ReadState.forest, List.length_map, List.length_range']

theorem memory_finish :
    s.finish.memory = Function.update s.memory 0 ⟨s.stop, (s.memory 0).label⟩ := rfl

/-- When the last parenthesis is closed, the root gets its end. -/
theorem wellFormed_finish_iff (h : Shaped useless memory t) (hopen : t.parens = [top])
    (hstop : s.stop = t.place) (hlabel : (s.memory top).label = (memory top).label)
    (hmemory : ∀ i, i ≠ top → s.memory i = memory i) :
    ((t.place ≠ 0 ∧ t.orphan = false) → s.finish.forest.WellFormed) ∧
      (useless → s.finish.forest.WellFormed → t.place ≠ 0 ∧ t.orphan = false) := by
  have htop : top = 0 := by
    have hroot := h.root (hopen ▸ List.cons_ne_nil _ _)
    rw [hopen] at hroot
    exact (List.mem_singleton.mp hroot).symm
  subst htop
  have hsize : s.finish.forest.size = t.place := size_forest.trans hstop
  have hnode : ∀ i, i < t.place → s.finish.forest.node i = s.finish.memory i := fun i hi =>
    node_forest (show i < s.finish.stop from hstop.symm ▸ hi)
  have hother : ∀ i, i ≠ 0 → s.finish.memory i = memory i := by
    intro i hi
    rw [memory_finish, Function.update_of_ne hi, hmemory i hi]
  have hroot : s.finish.memory 0 = ⟨t.place, (memory 0).label⟩ := by
    rw [memory_finish, Function.update_self, hstop, hlabel]
  have hnot : ∀ i, i ≠ 0 → i ∉ t.parens := by
    intro i hi hmem
    rw [hopen] at hmem
    exact hi (List.mem_singleton.mp hmem)
  constructor
  · intro ⟨hplace, horphan⟩
    have hpos : 0 < t.place := Nat.pos_of_ne_zero hplace
    have hinside : ∀ i, i ≠ 0 → i < t.place → i < (s.finish.forest.node i).next ∧
        (s.finish.forest.node i).next ≤ t.place := by
      intro i hne hi
      rw [hnode i hi, hother i hne]
      obtain ⟨hlt, hle, -⟩ := h.inside horphan i hi (hnot i hne)
      exact ⟨hlt, hle⟩
    have hzero : (s.finish.forest.node 0).next = t.place := by
      rw [hnode 0 hpos, hroot]
    constructor
    · rw [hsize]
      exact ⟨hpos, hzero⟩
    · intro i hi
      rw [hsize] at hi ⊢
      by_cases hi0 : i = 0
      · rw [hi0, hzero]
        exact ⟨hpos, Nat.le_refl _⟩
      · exact hinside i hi0 hi
    · intro i hi j hij hj
      rw [hsize] at hi
      by_cases hi0 : i = 0
      · rw [hi0, hzero] at hj ⊢
        exact (hinside j (by omega) hj).2
      · have hle := (hinside i hi0 hi).2
        rw [hnode i hi, hother i hi0] at hj hle ⊢
        rw [hnode j (by omega), hother j (by omega)]
        exact ((h.inside horphan i hi (hnot i hi0)).2.2 j hij hj).2
    · intro i hi target hlabel'
      rw [hsize] at hi
      rw [hnode i hi] at hlabel'
      by_cases hi0 : i = 0
      · rw [hi0, hroot] at hlabel'
        exact h.targets i hi target (hi0 ▸ hlabel')
      · rw [hother i hi0] at hlabel'
        exact h.targets i hi target hlabel'
  · intro huseless hformed
    refine ⟨?_, ?_⟩
    · have hpos := hformed.root.1
      rw [hsize] at hpos
      omega
    · by_contra horphan
      obtain ⟨i, hpos, hi, -, hend⟩ := h.orphaned (Bool.not_eq_false _ ▸ horphan) huseless
      have hlt := (hformed.next i (hsize.symm ▸ hi)).1
      rw [hnode i hi, hother i (by omega)] at hlt
      omega

theorem wellFormed_leaf (rule : ℕ) (hstop : s.stop = 1)
    (hlabel : (s.memory 0).label = .integer rule) : s.finish.forest.WellFormed := by
  have hsize : s.finish.forest.size = 1 := size_forest.trans hstop
  have hroot : s.finish.forest.node 0 = ⟨1, .integer rule⟩ := by
    rw [node_forest (show 0 < s.finish.stop from hstop.symm ▸ Nat.one_pos), memory_finish,
      Function.update_self, hstop, hlabel]
  have honly : ∀ i < s.finish.forest.size, s.finish.forest.node i = ⟨1, .integer rule⟩ ∧ i = 0 := by
    intro i hi
    have hi0 : i = 0 := by omega
    exact ⟨hi0 ▸ hroot, hi0⟩
  constructor
  · rw [hsize, hroot]
    exact ⟨Nat.one_pos, rfl⟩
  · intro i hi
    obtain ⟨hnode, rfl⟩ := honly i hi
    rw [hnode, hsize]
    exact ⟨Nat.one_pos, Nat.le_refl _⟩
  · intro i hi j hij hj
    obtain ⟨hnode, rfl⟩ := honly i hi
    rw [hnode] at hj
    exact absurd hij (Nat.not_lt.mpr (Nat.le_of_lt_succ hj))
  · intro i hi target hlabel'
    rw [(honly i hi).1] at hlabel'
    cases hlabel'

end Finish

end Shaped

/-! ## A reader and its tokens -/

/-- The variables of a reader are what the tokens tell. -/
structure Tracks (streams : Bool) (limit : ℕ) (useless : Prop) (s : ReadState) (t : Scan) : Prop where
  stop : s.stop = t.place
  openParens : s.openParens = t.parens
  followsParen : s.followsParen = t.followsParen
  names : ∀ id, id ∈ t.names ↔ s.backrefs id ≠ none
  named : ∀ id target, s.backrefs id = some target →
    target < t.place ∨ target = t.place ∧ t.followsParen = true
  shaped : Shaped useless s.memory t
  space : streams = true → (s.memory 0).next = limit
  untouched : streams = false → useless → ∀ i, t.place ≤ i → (s.memory i).next ≤ i

namespace Tracks

variable {streams : Bool} {limit : ℕ} {useless : Prop} {s s' : ReadState} {t : Scan}
  {node : ForestNode} {rest : List Char} {id? : Option ℕ} {top : ℕ} {parens : List ℕ}

theorem opened (h : Tracks streams limit useless s t) :
    Tracks streams limit useless (s.opened id? rest) (t.opened id?) where
  stop := h.stop
  openParens := by
    change s.stop :: s.openParens = t.place :: t.parens
    rw [h.stop, h.openParens]
  followsParen := rfl
  names id := by
    change id ∈ id?.toList ++ t.names ↔ s.backrefs.define id? s.stop id ≠ none
    cases id? with
    | none => exact h.names id
    | some id' =>
      by_cases heq : id = id'
      · subst heq
        simp [Backrefs.define]
      · simp [Backrefs.define, heq, h.names id]
  named id target htarget := by
    change s.backrefs.define id? s.stop id = some target at htarget
    have hold : s.backrefs id = some target → target < t.place ∨ target = t.place ∧ true = true := by
      intro hid
      rcases h.named id target hid with hlt | ⟨heq, -⟩
      · exact Or.inl hlt
      · exact Or.inr ⟨heq, rfl⟩
    cases id? with
    | none => exact hold htarget
    | some id' =>
      by_cases heq : id = id'
      · subst heq
        rw [Backrefs.define, Function.update_self] at htarget
        exact Or.inr ⟨(Option.some.inj htarget).symm.trans h.stop, rfl⟩
      · rw [Backrefs.define, Function.update_of_ne heq] at htarget
        exact hold htarget
  shaped := h.shaped.opened
  space := h.space
  untouched := h.untouched

/-- What a node more leaves as it is. -/
theorem space_update (h : Tracks streams limit useless s t) (hplace : t.place ≠ 0 ∨
    node.next = (s.memory t.place).next) (hstreams : streams = true) :
    (Function.update s.memory t.place node 0).next = limit := by
  by_cases hzero : 0 = t.place
  · rw [← hzero, Function.update_self]
    rcases hplace with hne | hnext
    · exact absurd hzero.symm hne
    · rw [hnext, ← hzero]
      exact h.space hstreams
  · rw [Function.update_of_ne hzero]
    exact h.space hstreams

theorem untouched_update (h : Tracks streams limit useless s t) (hstreams : streams = false)
    (huseless : useless) (i : ℕ) (hi : t.place + 1 ≤ i) :
    (Function.update s.memory t.place node i).next ≤ i := by
  rw [Function.update_of_ne (show i ≠ t.place by omega)]
  exact h.untouched hstreams huseless i (by omega)

theorem added (h : Tracks streams limit useless s t) (hadds : s.Adds s' node rest)
    (hfollows : t.followsParen = false) (hparens : t.parens ≠ []) (hnext : node.next = t.place + 1)
    (htarget : ∀ target, node.label = .pointer target → target < t.place) :
    Tracks streams limit useless s' t.added where
  stop := by rw [hadds.stop, h.stop]; rfl
  openParens := hadds.openParens.trans h.openParens
  followsParen := hadds.followsParen.trans hfollows.symm
  names id := by
    rw [hadds.backrefs]
    exact h.names id
  named id target htarget := by
    rw [hadds.backrefs] at htarget
    rcases h.named id target htarget with hlt | ⟨-, hno⟩
    · exact Or.inl (Nat.lt_succ_of_lt hlt)
    · rw [hfollows] at hno
      cases hno
  shaped := by
    rw [hadds.memory, h.stop]
    exact h.shaped.added hfollows hparens hnext htarget
  space := by
    rw [hadds.memory, h.stop]
    apply h.space_update
    left
    intro hzero
    exact h.shaped.here hfollows (hzero ▸ h.shaped.root hparens)
  untouched := by
    rw [hadds.memory, h.stop]
    exact h.untouched_update

theorem labelled {label : ℕ} (h : Tracks streams limit useless s t)
    (hadds : s.Adds s' ⟨(s.memory s.stop).next, .integer label⟩ rest)
    (hfollows : t.followsParen = true) (hparens : t.parens ≠ []) :
    Tracks streams limit useless s' t.labelled where
  stop := by rw [hadds.stop, h.stop]; rfl
  openParens := hadds.openParens.trans h.openParens
  followsParen := hadds.followsParen
  names id := by
    rw [hadds.backrefs]
    exact h.names id
  named id target htarget := by
    rw [hadds.backrefs] at htarget
    rcases h.named id target htarget with hlt | ⟨heq, -⟩
    · exact Or.inl (Nat.lt_succ_of_lt hlt)
    · exact Or.inl (heq ▸ Nat.lt_succ_self _)
  shaped := by
    rw [hadds.memory, h.stop]
    exact h.shaped.labelled hparens hfollows rfl nofun
  space := by
    rw [hadds.memory, h.stop]
    exact h.space_update (Or.inr rfl)
  untouched := by
    rw [hadds.memory, h.stop]
    exact h.untouched_update

theorem closed (h : Tracks streams limit useless s t) (hopen : t.parens = top :: parens)
    (hparens : parens ≠ []) (hearly : streams = true → top ≠ 0)
    (hcloses : ReadState.Closes streams s s' top parens rest) :
    Tracks streams limit useless s' (t.closed parens) where
  stop := hcloses.stop.trans h.stop
  openParens := hcloses.openParens
  followsParen := hcloses.followsParen.trans h.followsParen
  names id := by
    rw [hcloses.backrefs]
    exact h.names id
  named id target htarget := by
    rw [hcloses.backrefs] at htarget
    exact h.named id target htarget
  shaped := by
    apply h.shaped.closed hopen hparens _ hcloses.label hcloses.memory
    · intro htop huseless
      by_cases hstreams : streams = true
      · rw [hcloses.next (Or.inl hstreams), h.stop]
        exact Nat.le_of_eq htop.symm
      · have hno := Bool.not_eq_true _ ▸ hstreams
        rw [hcloses.kept hno (by rw [h.stop]; omega)]
        exact h.untouched hno huseless top (Nat.le_of_eq htop.symm)
    · intro hlt
      rw [hcloses.next (Or.inr (h.stop.symm ▸ hlt)), h.stop]
  space hstreams := by
    rw [hcloses.memory 0 (Ne.symm (hearly hstreams))]
    exact h.space hstreams
  untouched hno huseless i hi := by
    have hi' : t.place ≤ i := hi
    by_cases heq : i = top
    · subst heq
      rw [hcloses.kept hno (by rw [h.stop]; omega)]
      exact h.untouched hno huseless i hi'
    · rw [hcloses.memory i heq]
      exact h.untouched hno huseless i hi'

theorem running (h : Tracks streams limit useless s t) : s.stop = 0 ∨ s.openParens ≠ [] := by
  by_cases hparens : t.parens = []
  · exact Or.inl (h.stop.trans (h.shaped.start hparens).1)
  · exact Or.inr (h.openParens.symm ▸ hparens)

end Tracks

/-- The tokens tell whether a result is one that a reader may give. -/
def Agrees (useless : Prop) (result : Except ReadFailure ReadState) (harmless : Bool) : Prop :=
  (harmless = true → BuildsOrReports (result.map ReadState.finish)) ∧
    (useless → BuildsOrReports (result.map ReadState.finish) → harmless = true)

section Agrees

variable {loop : ℕ → ReadState → Except ReadFailure ReadState} {streams : Bool} {limit : ℕ}
  {useless : Prop} {s s' : ReadState} {t : Scan} {harmless : Bool}
  {result : Except ReadFailure ReadState}

theorem agrees_of_reported (h : Reported result) : Agrees useless result true := by
  obtain ⟨e, rfl, hne⟩ := h
  exact ⟨fun _ => hne, fun _ _ => rfl⟩

theorem agrees_undefined : Agrees useless (.error .undefined) false :=
  ⟨nofun, fun _ h => absurd rfl h⟩

theorem agrees_of_reads (h : Reads loop s s')
    (hrest : ∀ fuel, s'.text.length < fuel → Agrees useless (loop fuel s') harmless) (fuel : ℕ)
    (hfuel : s.text.length < fuel) : Agrees useless (loop fuel s) harmless := by
  obtain ⟨k, hk, hloop⟩ := h
  obtain ⟨fuel', rfl⟩ := Nat.exists_eq_add_of_le (show k ≤ fuel by omega)
  rw [hloop]
  exact hrest fuel' (by omega)

/-- What the two readers have in common. -/
structure IsReader (loop : ℕ → ReadState → Except ReadFailure ReadState) (streams : Bool)
    (limit : ℕ) : Prop where
  rounds : ∀ {s : ReadState}, s.stop = 0 ∨ s.openParens ≠ [] →
    (streams = true → s.stop < (s.memory 0).next) →
    TokenRounds loop streams (streams = false ∧ limit ≤ s.stop) s
  full : ∀ {s : ReadState}, streams = true → s.stop = 0 ∨ s.openParens ≠ [] →
    (s.memory 0).next ≤ s.stop → ReportsAt loop s

theorem Scan.harmless_full (h : limit ≤ t.place) (tokens : List Token) :
    t.harmless true limit tokens = true := by
  cases tokens with
  | nil => rfl
  | cons token tokens => simp [Scan.harmless, h]

theorem lexAll_of_lex {token : Token} {text rest : List Char} {k : ℕ}
    (h : lex text = some (token, rest)) : lexAll (k + 1) text = token :: lexAll k rest := by
  rw [lexAll, h]

/-- What each token does, where the reader has not run out of space. -/
theorem Tracks.rounds (hloop : IsReader loop streams limit) (h : Tracks streams limit useless s t)
    (hfull : ¬ (streams = true ∧ limit ≤ t.place)) :
    TokenRounds loop streams (limit ≤ t.place) s := by
  have hrounds := hloop.rounds h.running (by
    intro hstreams
    rw [h.space hstreams, h.stop]
    by_contra hle
    exact hfull ⟨hstreams, Nat.le_of_not_lt hle⟩)
  have hroom : (streams = false ∧ limit ≤ s.stop) ↔ limit ≤ t.place := by
    rw [h.stop]
    constructor
    · exact fun hand => hand.2
    · intro hle
      exact ⟨Bool.not_eq_true _ ▸ fun hstreams => hfull ⟨hstreams, hle⟩, hle⟩
  rwa [hroom] at hrounds

theorem Tracks.reportsAt_full (hloop : IsReader loop streams limit)
    (h : Tracks streams limit useless s t) (hfull : streams = true ∧ limit ≤ t.place) :
    ReportsAt loop s := by
  apply hloop.full hfull.1 h.running
  rw [h.space hfull.1, h.stop]
  exact hfull.2

theorem Tracks.reportsAt_none (hloop : IsReader loop streams limit)
    (h : Tracks streams limit useless s t) (hlex : lex s.ahead = none) : ReportsAt loop s := by
  by_cases hfull : streams = true ∧ limit ≤ t.place
  · exact h.reportsAt_full hloop hfull
  · exact (h.rounds hloop hfull).none hlex

/-- **Any text**: a reader does what its tokens tell. -/
theorem Tracks.agrees (hloop : IsReader loop streams limit) (k : ℕ)
    (h : Tracks streams limit useless s t) (hk : s.ahead.length ≤ k) (fuel : ℕ)
    (hfuel : s.text.length < fuel) :
    Agrees useless (loop fuel s) (t.harmless streams limit (lexAll k s.ahead)) := by
  obtain ⟨fuel', rfl⟩ := Nat.exists_eq_add_of_lt hfuel
  induction k generalizing s t fuel' with
  | zero =>
    have hnil : s.ahead = [] := List.length_eq_zero_iff.mp (Nat.le_zero.mp hk)
    have hreports := h.reportsAt_none hloop (hnil.symm ▸ rfl)
    exact agrees_of_reported (hreports _)
  | succ k ih =>
    by_cases hfull : streams = true ∧ limit ≤ t.place
    · have hreports := h.reportsAt_full hloop hfull
      obtain ⟨rfl, hlimit⟩ := hfull
      rw [Scan.harmless_full hlimit]
      exact agrees_of_reported (hreports _)
    have hrounds := h.rounds hloop hfull
    have hfull' : (streams && decide (limit ≤ t.place)) = false := by simpa using hfull
    cases hlex : lex s.ahead with
    | none =>
      rw [lexAll, hlex]
      exact agrees_of_reported (hrounds.none hlex _)
    | some p =>
      obtain ⟨token, rest⟩ := p
      have hrest : rest.length ≤ k := by
        have := length_lt_of_lex hlex
        omega
      have hgood := ReadState.good_of_lex hlex
      -- what is left of the text when a token has been read
      have hnext : ∀ {s' : ReadState} {t' : Scan}, Reads loop s s' →
          Tracks streams limit useless s' t' → s'.ahead = rest →
          Agrees useless (loop (s.text.length + fuel' + 1) s)
            (t'.harmless streams limit (lexAll k rest)) := by
        intro s' t' hreads htracks hahead
        apply agrees_of_reads hreads _ _ hfuel
        intro fuel hfuel
        obtain ⟨fuel'', rfl⟩ := Nat.exists_eq_add_of_lt hfuel
        rw [← hahead]
        exact ih htracks (hahead.symm ▸ hrest) fuel'' hfuel
      rw [lexAll_of_lex hlex]
      cases token with
      | opening id? =>
        rw [Scan.harmless, hfull']
        by_cases hrefused : id?.isSome = true ∧ t.followsParen = true
        · simp only [hrefused.1, hrefused.2, Bool.and_self, Bool.false_eq_true, if_false, if_true]
          exact agrees_of_reported
            (hrounds.refused hlex hrefused.1 (h.followsParen.trans hrefused.2) _)
        · have hopens : (id?.isSome && t.followsParen) = false := by simpa using hrefused
          simp only [hopens, Bool.false_eq_true, if_false]
          apply hnext (hrounds.opened hlex _) h.opened (if_pos hgood)
          intro hid
          rw [h.followsParen]
          exact Bool.not_eq_true _ ▸ fun hyes => hrefused ⟨hid, hyes⟩
      | ref id =>
        rw [Scan.harmless, hfull']
        by_cases hno : t.followsParen = true ∨ limit ≤ t.place
        · have hno' : (t.followsParen || decide (limit ≤ t.place)) = true := by
            simpa using hno
          simp only [hno', Bool.false_eq_true, if_false, if_true]
          exact agrees_of_reported (hrounds.noPointer hlex (h.followsParen.symm ▸ hno) _)
        · obtain ⟨hfollows, hlimit⟩ := not_or.mp hno
          have hfollows' := Bool.not_eq_true _ ▸ hfollows
          simp only [hfollows', hlimit, decide_false, Bool.or_false, Bool.false_eq_true, if_false]
          cases hname : s.backrefs id with
          | none =>
            have hnot : id ∉ t.names := fun hmem => (h.names id).mp hmem hname
            simp only [hnot, decide_false, Bool.false_and]
            rw [hrounds.noName hlex (h.followsParen.trans hfollows') hlimit hname]
            exact agrees_undefined
          | some target =>
            have hmem : id ∈ t.names := (h.names id).mpr (hname.symm ▸ Option.some_ne_none _)
            have hparens : t.parens ≠ [] := by
              intro hnil
              rw [(h.shaped.start hnil).2.2.1] at hmem
              cases hmem
            simp only [hmem, decide_true, Bool.true_and]
            have hadds := adds_shared rest target hgood
              (h.followsParen.trans hfollows')
            apply hnext (hrounds.shared hlex (h.followsParen.trans hfollows') hlimit
              (h.openParens.symm ▸ hparens) hname) _ hadds.ahead
            apply h.added hadds hfollows' hparens (by rw [h.stop])
            intro target' heq
            cases heq
            rcases h.named id target hname with hlt | ⟨-, hyes⟩
            · exact hlt
            · exact absurd hyes hfollows
      | rule =>
        rw [Scan.harmless, hfull']
        by_cases hlimit : limit ≤ t.place
        · simp only [hlimit, Bool.false_eq_true, if_false, if_true]
          exact agrees_of_reported (hrounds.noRoom hlex (Or.inl rfl) hlimit _)
        · by_cases hfollows : t.followsParen = true
          · have hparens : t.parens ≠ [] := by
              intro hnil
              exact absurd (hfollows.symm.trans (h.shaped.start hnil).2.1) (by decide)
            simp only [hlimit, hfollows, Bool.false_eq_true, if_false, if_true]
            obtain ⟨s', label, hadds, hreads⟩ := hrounds.labelled hlex (Or.inl rfl)
              (h.followsParen.trans hfollows) hlimit (h.openParens.symm ▸ hparens)
            exact hnext hreads (h.labelled hadds hfollows hparens) hadds.ahead
          · have hfollows' := Bool.not_eq_true _ ▸ hfollows
            obtain ⟨s', rule, hadds, hlast, hmore⟩ := hrounds.leaf hlex
              (h.followsParen.trans hfollows') hlimit
            simp only [hlimit, hfollows', Bool.false_eq_true, if_false]
            by_cases hparens : t.parens = []
            · have hzero := (h.shaped.start hparens).1
              simp only [hparens, decide_true, Bool.true_or]
              rw [hlast (h.openParens.trans hparens)]
              refine ⟨fun _ => ?_, fun _ _ => rfl⟩
              apply Shaped.wellFormed_leaf rule
              · rw [hadds.stop, h.stop, hzero]
              · rw [hadds.memory, h.stop, hzero, Function.update_self]
            · simp only [hparens, decide_false, Bool.false_or]
              exact hnext (hmore (h.openParens.symm ▸ hparens))
                (h.added hadds hfollows' hparens (by rw [h.stop]) nofun) hadds.ahead
      | or =>
        rw [Scan.harmless, hfull']
        by_cases hno : limit ≤ t.place ∨ t.followsParen = false
        · have hno' : (decide (limit ≤ t.place) || !t.followsParen) = true := by
            simpa using hno
          simp only [hno', Bool.false_eq_true, if_false, if_true]
          apply agrees_of_reported
          rcases hno with hlimit | hfollows
          · exact hrounds.noRoom hlex (Or.inr rfl) hlimit _
          · exact hrounds.noParen hlex (h.followsParen.trans hfollows) _
        · obtain ⟨hlimit, hfollows⟩ := not_or.mp hno
          have hfollows' := Bool.not_eq_false _ ▸ hfollows
          have hparens : t.parens ≠ [] := by
            intro hnil
            exact hfollows (h.shaped.start hnil).2.1
          simp only [hlimit, hfollows', decide_false, Bool.not_true, Bool.or_self,
            Bool.false_eq_true, if_false]
          obtain ⟨s', label, hadds, hreads⟩ := hrounds.labelled hlex (Or.inr rfl)
            (h.followsParen.trans hfollows') hlimit (h.openParens.symm ▸ hparens)
          exact hnext hreads (h.labelled hadds hfollows' hparens) hadds.ahead
      | closing =>
        cases hopen : t.parens with
        | nil =>
          simp only [Scan.harmless, hfull', hopen, Bool.false_eq_true, if_false]
          rw [hrounds.noOpen hlex (h.openParens.trans hopen)]
          exact agrees_undefined
        | cons top parens =>
          simp only [Scan.harmless, hfull', hopen, Bool.false_eq_true, if_false]
          have hopen' := h.openParens.trans hopen
          have htop : top ≤ s.stop := by
            rw [h.stop]
            exact h.shaped.le_place top (hopen ▸ List.mem_cons_self)
          by_cases hearly : streams = true ∧ top = 0 ∧ (parens ≠ [] ∨ t.place = 0)
          · obtain ⟨rfl, rfl, hor⟩ := hearly
            have hor' : (decide (parens ≠ []) || decide (t.place = 0)) = true := by
              simpa using hor
            simp only [decide_true, Bool.true_and, hor', if_true]
            have hpos : 0 < s.text.length := by
              rw [← ReadState.ahead_of_good hgood]
              exact Nat.zero_lt_of_lt (length_lt_of_lex hlex)
            obtain ⟨n, hn⟩ := Nat.exists_eq_add_of_lt hpos
            have hsoon := hrounds.early rfl hlex hopen' (h.stop.symm ▸ hor) (n + fuel')
            rw [show s.text.length + fuel' + 1 = n + fuel' + 2 by omega]
            exact agrees_of_reported hsoon
          · have hnot : (streams && decide (top = 0) &&
                (decide (parens ≠ []) || decide (t.place = 0))) = false := by
              simpa [and_assoc] using hearly
            simp only [hnot, Bool.false_eq_true, if_false]
            obtain ⟨s', hcloses, hlast, hmore⟩ := hrounds.closed hlex hopen' htop
              (by rw [h.stop]; tauto)
            by_cases hparens : parens = []
            · subst hparens
              obtain ⟨hgoes, hback⟩ := h.shaped.wellFormed_finish_iff hopen
                (hcloses.stop.trans h.stop) hcloses.label hcloses.memory
              rw [hlast rfl]
              simp only [if_true, Bool.and_eq_true, decide_eq_true_eq, Bool.not_eq_true', Agrees]
              exact ⟨hgoes, hback⟩
            · simp only [hparens, if_false]
              have hroot : streams = true → top ≠ 0 := fun hstreams htop0 =>
                hearly ⟨hstreams, htop0, Or.inl hparens⟩
              exact hnext (hmore hparens) (h.closed hopen hparens hroot hcloses) hcloses.ahead

end Agrees

/-! ## The two readers -/

theorem isReader_genio (limit : ℕ) : IsReader genioLoop true limit where
  rounds hrun hroom := genio_tokenRounds (fun hno => Bool.false_ne_true hno.1.symm) hrun (hroom rfl)
  full _ hrun hfull := genioLoop_reported hrun ⟨_, genioStep_full hfull, nofun⟩

theorem isReader_alloc (limit : ℕ) : IsReader (allocLoop limit) false limit where
  rounds _ _ := alloc_tokenRounds ⟨fun hand => hand.2, fun hle => ⟨rfl, hle⟩⟩
  full hno := nomatch hno

variable {useless : Prop}

theorem tracks_genio (memory : ℕ → ForestNode) (space maxRuleid : ℕ) (text : List Char) :
    Tracks true space useless ((ReadState.start memory maxRuleid text).setNext 0 space)
      Scan.start where
  stop := rfl
  openParens := rfl
  followsParen := rfl
  names _ := ⟨nofun, fun h => absurd rfl h⟩
  named := nofun
  shaped := Shaped.initial _
  space _ := by simp [ReadState.setNext, ReadState.start]
  untouched := nofun

theorem tracks_alloc (memory : ℕ → ForestNode) (limit maxRuleid : ℕ) (text : List Char) :
    Tracks false limit (∀ i, (memory i).next ≤ i) (ReadState.start memory maxRuleid text)
      Scan.start where
  stop := rfl
  openParens := rfl
  followsParen := rfl
  names _ := ⟨nofun, fun h => absurd rfl h⟩
  named := nofun
  shaped := Shaped.initial _
  space := nofun
  untouched _ h i _ := h i

theorem not_buildsOrReports {result : Except ReadFailure ReadState} {i : ℕ}
    (h : result.toOption.map (fun s => decide (i < s.stop ∧ (s.forest.node i).next ≤ i)) = some true) :
    ¬ BuildsOrReports result := by
  cases result with
  | error e => cases h
  | ok s =>
    intro hformed
    obtain ⟨hi, hend⟩ := of_decide_eq_true (Option.some.inj h)
    exact absurd (hformed.next i (Shaped.size_forest.symm ▸ hi)).1 (Nat.not_lt.mpr hend)

end Carmel.Forest
