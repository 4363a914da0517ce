/-
# Which nodes are frontier nodes

`set_spans` gives every node the smallest interval that covers the words aligned to
the leaves below it. `find_frontier` counts the intervals, not the words, of the
siblings along the way to a node, so a node keeps its span when no node beside it
covers a word of the interval.
-/

import Carmel.Gextract.Addresses
import Carmel.Gextract.Frontier

namespace Carmel.Gextract

variable {α : Type*} {β : Type*}

section Entries

/-- The children of `up` from the place `k` and the nodes below, each with its address. -/
def Nodes.entries (up : Addr) : ℕ → Nodes α → List (Addr × Node α)
  | _, nil => []
  | k, node attr children rest =>
    (k :: up, ⟨attr, children⟩) :: (children.entries (k :: up) 0 ++ rest.entries up (k + 1))

/-- The addresses of the terminals: `frontier`. -/
def Nodes.leaves (up : Addr) : ℕ → Nodes α → List Addr
  | _, nil => []
  | k, node _ children rest =>
    (match children with
      | nil => [k :: up]
      | node .. => children.leaves (k :: up) 0) ++ rest.leaves up (k + 1)

def Node.entries (t : Node α) : List (Addr × Node α) := ([], t) :: t.children.entries [] 0

def Node.leaves (t : Node α) : List Addr :=
  match t.children with
  | .nil => [[]]
  | .node .. => t.children.leaves [] 0

variable {ts : Nodes α} {up u v : Addr} {k : ℕ} {n : Node α}

theorem Nodes.map_fst_entries (ts : Nodes α) (up : Addr) (k : ℕ) :
    (ts.entries up k).map Prod.fst = ts.addrs up k := by
  induction ts generalizing up k with
  | nil => rfl
  | node attr children rest ihc ihr =>
    rw [entries, addrs, List.map_cons, List.map_append, ihc, ihr]

theorem Nodes.exists_suffix_of_mem_entries (h : (u, n) ∈ ts.entries up k) :
    ∃ j, k ≤ j ∧ (j :: up) <:+ u := by
  have hu : u ∈ ts.addrs up k := by
    rw [← map_fst_entries]
    exact List.mem_map_of_mem h
  exact exists_suffix_of_mem_addrs hu

theorem Nodes.leaves_cons (attr : α) (children rest : Nodes α) (up : Addr) (k : ℕ) :
    (node attr children rest).leaves up k = (match children with
        | nil => [k :: up]
        | node .. => children.leaves (k :: up) 0) ++ rest.leaves up (k + 1) := by
  cases children <;> rfl

theorem Nodes.length_leaves (ts : Nodes α) (up : Addr) (k : ℕ) :
    (ts.leaves up k).length = ts.yieldLabels.length := by
  induction ts generalizing up k with
  | nil => rfl
  | node attr children rest ihc ihr =>
    rw [leaves_cons, List.length_append, ihr]
    cases children with
    | nil => simp [yieldLabels, Nat.add_comm]
    | node a c r =>
      rw [yieldLabels, List.length_append, ← ihc (k :: up) 0]

theorem Nodes.leaves_subset (ts : Nodes α) (up : Addr) (k : ℕ) :
    ts.leaves up k ⊆ ts.addrs up k := by
  induction ts generalizing up k with
  | nil => exact List.Subset.refl _
  | node attr children rest ihc ihr =>
    intro u hu
    rw [leaves_cons] at hu
    rcases List.mem_append.mp hu with hu | hu
    · cases children with
      | nil =>
        rw [List.mem_singleton.mp hu]
        exact List.mem_cons_self
      | node a c r => exact List.mem_cons_of_mem _ (List.mem_append_left _ (ihc _ _ hu))
    · exact List.mem_cons_of_mem _ (List.mem_append_right _ (ihr _ _ hu))

theorem Nodes.exists_suffix_of_mem_leaves (h : u ∈ ts.leaves up k) :
    ∃ j, k ≤ j ∧ (j :: up) <:+ u :=
  exists_suffix_of_mem_addrs (leaves_subset ts up k h)

/-- Nodes at or below different children are beside each other. -/
theorem beside_of_suffix {i j : ℕ} (hne : i ≠ j) (hu : (i :: up) <:+ u) (hv : (j :: up) <:+ v) :
    Beside u v :=
  ⟨fun h => hne (place_eq_of_suffix (hu.trans h) hv),
    fun h => hne (place_eq_of_suffix hu (hv.trans h))⟩

theorem Nodes.leaves_map (f : α → β) (ts : Nodes α) (up : Addr) (k : ℕ) :
    (ts.map f).leaves up k = ts.leaves up k := by
  induction ts generalizing up k with
  | nil => rfl
  | node attr children rest ihc ihr =>
    rw [map, leaves_cons, leaves_cons, ihr]
    cases children with
    | nil => rfl
    | node a c r => rw [← ihc, map]

theorem Node.leaves_map (f : α → β) (t : Node α) : (t.map f).leaves = t.leaves := by
  obtain ⟨attr, children⟩ := t
  cases children with
  | nil => rfl
  | node a c r => exact Nodes.leaves_map f (.node a c r) [] 0

theorem Nodes.mem_entries_of_place (ts : Nodes α) (up : Addr) :
    ∀ (k j : ℕ), ts.toList[j]? = some n → ((k + j) :: up, n) ∈ ts.entries up k := by
  induction ts with
  | nil =>
    intro k j hj
    cases hj
  | node attr children rest _ ih =>
    intro k j hj
    cases j with
    | zero =>
      rw [← Option.some.inj hj]
      exact List.mem_cons_self
    | succ j =>
      have h := ih (k + 1) j hj
      rw [Nat.succ_add_eq_add_succ] at h
      exact List.mem_cons_of_mem _ (List.mem_append_right _ h)

theorem Nodes.mem_entries_of_child {p : Node α} {j : ℕ} (hj : p.children.toList[j]? = some n)
    (h : (u, p) ∈ ts.entries up k) : (j :: u, n) ∈ ts.entries up k := by
  induction ts generalizing up k with
  | nil => cases h
  | node attr children rest ihc ihr =>
    rcases List.mem_cons.mp h with heq | h
    · obtain ⟨rfl, rfl⟩ := Prod.mk.inj heq
      have h := mem_entries_of_place children (k :: up) 0 j hj
      rw [Nat.zero_add] at h
      exact List.mem_cons_of_mem _ (List.mem_append_left _ h)
    · rcases List.mem_append.mp h with h | h
      · exact List.mem_cons_of_mem _ (List.mem_append_left _ (ihc h))
      · exact List.mem_cons_of_mem _ (List.mem_append_right _ (ihr h))

theorem Node.mem_entries_of_subtree {t : Node α} (h : t.subtree u = some n) : (u, n) ∈ t.entries := by
  induction u generalizing n with
  | nil =>
    rw [← Option.some.inj h]
    exact List.mem_cons_self
  | cons j u ih =>
    obtain ⟨p, hp, hj⟩ := Option.bind_eq_some_iff.mp h
    rcases List.mem_cons.mp (ih hp) with heq | hmem
    · obtain ⟨rfl, rfl⟩ := Prod.mk.inj heq
      have h := Nodes.mem_entries_of_place p.children [] 0 j hj
      rw [Nat.zero_add] at h
      exact List.mem_cons_of_mem _ h
    · exact List.mem_cons_of_mem _ (Nodes.mem_entries_of_child hj hmem)

end Entries

section Cover

/-- A span is the smallest interval that covers a set of words. -/
def IsCover : Option Span → (ℕ → Prop) → Prop
  | none, P => ∀ j, ¬ P j
  | some s, P => P s.1 ∧ (∃ j, P j ∧ j + 1 = s.2) ∧ ∀ j, P j → s.1 ≤ j ∧ j < s.2

/-- A word is in the smallest interval that covers a set of words. -/
def Between (P : ℕ → Prop) (i : ℕ) : Prop := ∃ a b, P a ∧ P b ∧ a ≤ i ∧ i ≤ b

variable {s t : Option Span} {P Q : ℕ → Prop} {i : ℕ}

theorem IsCover.congr (h : IsCover s P) (hiff : ∀ j, P j ↔ Q j) : IsCover s Q := by
  have heq : P = Q := funext fun j => propext (hiff j)
  rwa [← heq]

theorem isCover_none : IsCover none fun _ => False := fun _ h => h

theorem isCover_spanCoverPoints (points : List ℕ) :
    IsCover (spanCoverPoints points) fun j => j ∈ points := by
  unfold spanCoverPoints
  cases hmin : points.min? with
  | none =>
    intro j hj
    rw [List.min?_eq_none_iff.mp hmin] at hj
    exact List.not_mem_nil hj
  | some a =>
    cases hmax : points.max? with
    | none =>
      intro j hj
      rw [List.max?_eq_none_iff.mp hmax] at hj
      exact List.not_mem_nil hj
    | some b =>
      refine ⟨List.min?_mem hmin, ⟨b, List.max?_mem hmax, rfl⟩, ?_⟩
      intro j hj
      exact ⟨(List.le_min?_iff hmin).mp le_rfl j hj,
        Nat.lt_succ_of_le ((List.max?_le_iff hmax).mp le_rfl j hj)⟩

theorem IsCover.spanCover (hs : IsCover s P) (ht : IsCover t Q) :
    IsCover (spanCover s t) fun j => P j ∨ Q j := by
  cases s with
  | none => exact ht.congr fun j => (or_iff_right (hs j)).symm
  | some s =>
    cases t with
    | none => exact hs.congr fun j => (or_iff_left (ht j)).symm
    | some t =>
      obtain ⟨hs1, ⟨b, hb, hb'⟩, hsall⟩ := hs
      obtain ⟨ht1, ⟨c, hc, hc'⟩, htall⟩ := ht
      refine ⟨?_, ?_, ?_⟩
      · rcases min_choice s.1 t.1 with heq | heq
        · exact Or.inl (heq.symm ▸ hs1)
        · exact Or.inr (heq.symm ▸ ht1)
      · rcases max_choice s.2 t.2 with heq | heq
        · exact ⟨b, Or.inl hb, hb'.trans heq.symm⟩
        · exact ⟨c, Or.inr hc, hc'.trans heq.symm⟩
      · intro j hj
        rcases hj with hj | hj
        · exact ⟨(min_le_left _ _).trans (hsall j hj).1, (hsall j hj).2.trans_le (le_max_left _ _)⟩
        · exact ⟨(min_le_right _ _).trans (htall j hj).1,
            (htall j hj).2.trans_le (le_max_right _ _)⟩

/-- There is one smallest interval. -/
theorem IsCover.unique (hs : IsCover s P) (ht : IsCover t P) : s = t := by
  cases s with
  | none =>
    cases t with
    | none => rfl
    | some t => exact absurd ht.1 (hs t.1)
  | some s =>
    cases t with
    | none => exact absurd hs.1 (ht s.1)
    | some t =>
      obtain ⟨hs1, ⟨b, hb, hb'⟩, hsall⟩ := hs
      obtain ⟨ht1, ⟨c, hc, hc'⟩, htall⟩ := ht
      have hfirst : s.1 = t.1 := le_antisymm (hsall _ ht1).1 (htall _ hs1).1
      have hlast : s.2 = t.2 := by
        have h1 := (hsall c hc).2
        have h2 := (htall b hb).2
        omega
      rw [Prod.ext hfirst hlast]

/-- The words that the span covers. -/
theorem IsCover.coverage_iff (h : IsCover s P) : coverage s i = 1 ↔ Between P i := by
  cases s with
  | none =>
    constructor
    · intro hi
      exact absurd hi (by simp [coverage])
    · rintro ⟨a, _, ha, _⟩
      exact absurd ha (h a)
  | some s =>
    obtain ⟨hfirst, ⟨b, hb, hlast⟩, hall⟩ := h
    rw [coverage_some]
    constructor
    · intro hi
      exact ⟨s.1, b, hfirst, hb, hi.1, by omega⟩
    · rintro ⟨a, c, ha, hc, hai, hic⟩
      have h1 := (hall a ha).1
      have h2 := (hall c hc).2
      omega

end Cover

section SetSpans

variable {fspane : List (Option Span)} {A : ℕ → ℕ → Prop}

/-- A word is aligned to a terminal at or below a node, where the terminals of a yield come
with their places in it. -/
def YieldAligned (A : ℕ → ℕ → Prop) (leaves : List (Addr × ℕ)) (u : Addr) (j : ℕ) : Prop :=
  ∃ q ∈ leaves, u <:+ q.1 ∧ A q.2 j

theorem yieldAligned_append {leaves leaves' : List (Addr × ℕ)} {u : Addr} {j : ℕ} :
    YieldAligned A (leaves ++ leaves') u j ↔
      YieldAligned A leaves u j ∨ YieldAligned A leaves' u j := by
  simp only [YieldAligned, List.mem_append, or_and_right, exists_or]

theorem yieldAligned_singleton {l u : Addr} {e j : ℕ} :
    YieldAligned A [(l, e)] u j ↔ u <:+ l ∧ A e j := by
  simp only [YieldAligned, List.mem_singleton, exists_eq_left]

/-- A node at or below one child has no words from terminals at or below another. -/
theorem not_yieldAligned {leaves : List Addr} {up u : Addr} {epos i j : ℕ} (hu : (i :: up) <:+ u)
    (h : ∀ l ∈ leaves, ∃ i' ≠ i, (i' :: up) <:+ l) :
    ¬ YieldAligned A (leaves.zipIdx epos) u j := by
  intro ⟨q, hq, hsuffix, _⟩
  obtain ⟨i', hne, hi'⟩ := h q.1 (List.fst_mem_of_mem_zipIdx hq)
  exact hne (place_eq_of_suffix hi' (hu.trans hsuffix))

/-- The terminals at or below a child. -/
def Nodes.childLeaves (up : Addr) (k : ℕ) (children : Nodes α) : List Addr :=
  match children with
  | nil => [k :: up]
  | node .. => children.leaves (k :: up) 0

theorem Nodes.suffix_of_mem_childLeaves {children : Nodes α} {up l : Addr} {k : ℕ}
    (h : l ∈ children.childLeaves up k) : (k :: up) <:+ l := by
  cases children with
  | nil =>
    rw [List.mem_singleton.mp h]
  | node a c r =>
    obtain ⟨j, -, hj⟩ := exists_suffix_of_mem_leaves h
    exact (List.suffix_cons _ _).trans hj

/-- **`set_spans`** gives every node below the smallest interval for the words aligned to it. -/
theorem Nodes.setSpans_cover (hA : ∀ e, IsCover (fspane.getD e none) (A e)) (ts : Nodes Attr) :
    ∀ (up : Addr) (k epos : ℕ) (span : Option Span) (P : ℕ → Prop), IsCover span P →
      (ts.setSpans fspane epos span).2.2 = epos + (ts.leaves up k).length ∧
      IsCover (ts.setSpans fspane epos span).2.1
        (fun j => P j ∨ YieldAligned A ((ts.leaves up k).zipIdx epos) up j) ∧
      ∀ p ∈ (ts.setSpans fspane epos span).1.entries up k,
        IsCover p.2.attr.fspan (YieldAligned A ((ts.leaves up k).zipIdx epos) p.1) := by
  induction ts with
  | nil =>
    intro up k epos span P hspan
    refine ⟨rfl, hspan.congr fun j => ?_, by simp [setSpans, entries]⟩
    simp [YieldAligned, leaves]
  | node attr children rest ihc ihr =>
    intro up k epos span P hspan
    -- the child itself: where its yield ends, what it covers, and the nodes below it
    obtain ⟨children', fspan, epos', hunfold, hend, hfspan, hbelow⟩ :
        ∃ (children' : Nodes Attr) (fspan : Option Span) (epos' : ℕ),
          (node attr children rest).setSpans fspane epos span =
            (node { attr with fspan := fspan } children'
              (rest.setSpans fspane epos' (spanCover span fspan)).1,
              (rest.setSpans fspane epos' (spanCover span fspan)).2.1,
              (rest.setSpans fspane epos' (spanCover span fspan)).2.2) ∧
          epos' = epos + (children.childLeaves up k).length ∧
          IsCover fspan (YieldAligned A ((children.childLeaves up k).zipIdx epos) (k :: up)) ∧
          ∀ p ∈ children'.entries (k :: up) 0, IsCover p.2.attr.fspan
              (YieldAligned A ((children.childLeaves up k).zipIdx epos) p.1) := by
      cases children with
      | nil =>
        refine ⟨nil, fspane.getD epos none, epos + 1, rfl, rfl, ?_, by simp [entries]⟩
        apply (hA epos).congr
        intro j
        rw [childLeaves, List.zipIdx_singleton, yieldAligned_singleton]
        exact (and_iff_right List.suffix_rfl).symm
      | node a c r =>
        obtain ⟨hend, hfspan, hbelow⟩ := ihc (k :: up) 0 epos none _ isCover_none
        refine ⟨_, _, _, ?_, hend, hfspan.congr fun j => or_iff_right id, hbelow⟩
        rw [setSpans]
    obtain ⟨hend', hspan', hrest⟩ := ihr up (k + 1) epos' _ _ (hspan.spanCover hfspan)
    have hzip : ((node attr children rest).leaves up k).zipIdx epos =
        (children.childLeaves up k).zipIdx epos ++ (rest.leaves up (k + 1)).zipIdx epos' := by
      rw [leaves_cons, hend, Nat.add_comm, ← List.zipIdx_append]
      rfl
    have hlater : ∀ l ∈ rest.leaves up (k + 1), ∃ i ≠ k, (i :: up) <:+ l := by
      intro l hl
      obtain ⟨j, hle, hj⟩ := exists_suffix_of_mem_leaves hl
      exact ⟨j, by omega, hj⟩
    rw [hunfold, hzip]
    refine ⟨?_, ?_, ?_⟩
    · rw [hend', hend, leaves_cons, List.length_append, Nat.add_assoc]
      rfl
    · apply hspan'.congr
      intro j
      rw [yieldAligned_append, or_assoc]
      apply or_congr_right
      apply or_congr_left
      have hleaf : ∀ q ∈ (children.childLeaves up k).zipIdx epos, (k :: up) <:+ q.1 :=
        fun q hq => suffix_of_mem_childLeaves (List.fst_mem_of_mem_zipIdx hq)
      constructor
      · rintro ⟨q, hq, hsuffix, hword⟩
        exact ⟨q, hq, (List.suffix_cons _ _).trans hsuffix, hword⟩
      · rintro ⟨q, hq, _, hword⟩
        exact ⟨q, hq, hleaf q hq, hword⟩
    · intro p hp
      rcases List.mem_cons.mp hp with rfl | hp
      · apply hfspan.congr
        intro j
        rw [yieldAligned_append]
        exact (or_iff_left (not_yieldAligned List.suffix_rfl hlater)).symm
      · rcases List.mem_append.mp hp with hp | hp
        · obtain ⟨i, -, hi⟩ := exists_suffix_of_mem_entries (u := p.1) (n := p.2) hp
          apply (hbelow p hp).congr
          intro j
          rw [yieldAligned_append]
          exact (or_iff_left (not_yieldAligned ((List.suffix_cons _ _).trans hi) hlater)).symm
        · obtain ⟨i, hle, hi⟩ := exists_suffix_of_mem_entries (u := p.1) (n := p.2) hp
          apply (hrest p hp).congr
          intro j
          rw [yieldAligned_append]
          refine (or_iff_right (not_yieldAligned hi ?_)).symm
          intro l hl
          exact ⟨k, by omega, suffix_of_mem_childLeaves hl⟩

end SetSpans

section FindFrontier

variable {outer : Option Span} {ts : Nodes Attr} {up : Addr} {k i : ℕ}

theorem frontierSpan_eq_some_iff {eps : Bool} {fspan : Option Span} {cspan : ℕ → ℤ} {r : Span} :
    frontierSpan eps fspan cspan = some r ↔
      fspan = some r ∧ ∀ i, coverage fspan i = 1 → cspan i ≤ 0 := by
  refine ⟨frontierSpan_eq_some, ?_⟩
  intro ⟨hfspan, hclear⟩
  subst hfspan
  apply if_pos
  rw [List.all_eq_true]
  intro i hi
  rw [List.mem_range'_1] at hi
  exact decide_eq_true (hclear i (coverage_some.mpr ⟨hi.1, by omega⟩))

theorem coverage_le_one (s : Option Span) (i : ℕ) : coverage s i ≤ 1 := by
  unfold coverage
  split
  · exact zero_le_one
  · split <;> decide

/-- The spans of all nodes below lie in the outer one. -/
theorem Nodes.Nested.spanIn (h : ts.Nested outer) {q : Addr × Node Attr}
    (hq : q ∈ ts.entries up k) : SpanIn q.2.attr.fspan outer := by
  induction ts generalizing up k outer with
  | nil => cases hq
  | node attr children rest ihc ihr =>
    obtain ⟨hin, -, hchildren, hrest⟩ := h
    rcases List.mem_cons.mp hq with rfl | hq
    · exact hin
    · rcases List.mem_append.mp hq with hq | hq
      · exact (ihc hchildren hq).trans hin
      · exact ihr hrest hq

/-- What a node below siblings covers, one of them covers, and these are such nodes. -/
theorem Nodes.Nested.coverage_pos_iff (h : ts.Nested outer) (up : Addr) (k : ℕ) :
    1 ≤ ts.coverage i ↔ ∃ q ∈ ts.entries up k, Gextract.coverage q.2.attr.fspan i = 1 := by
  induction ts generalizing k outer with
  | nil => simp [coverage, entries]
  | node attr children rest _ ihr =>
    obtain ⟨-, -, hchildren, hrest⟩ := h
    have hnonneg := Gextract.coverage_nonneg attr.fspan i
    have hone := coverage_le_one attr.fspan i
    have hrestnonneg := rest.coverage_nonneg i
    rw [coverage]
    constructor
    · intro hle
      by_cases hattr : Gextract.coverage attr.fspan i = 1
      · exact ⟨(k :: up, ⟨attr, children⟩), List.mem_cons_self, hattr⟩
      · obtain ⟨q, hq, hcover⟩ := (ihr hrest (k + 1)).mp (by omega)
        exact ⟨q, List.mem_cons_of_mem _ (List.mem_append_right _ hq), hcover⟩
    · rintro ⟨q, hq, hcover⟩
      rcases List.mem_cons.mp hq with rfl | hq
      · have hcover' : Gextract.coverage attr.fspan i = 1 := hcover
        omega
      · rcases List.mem_append.mp hq with hq | hq
        · have := coverage_mono (hchildren.spanIn hq) hcover
          omega
        · have := (ihr hrest (k + 1)).mpr ⟨q, hq, hcover⟩
          omega

/-- **The frontier** below siblings: a node keeps its span if all that is counted where it
covers is itself and the nodes above it. -/
theorem Nodes.findFrontier_entries (eps : Bool) (ts : Nodes Attr) :
    ∀ (up : Addr) (k : ℕ) (outer : Option Span) (cspan : ℕ → ℤ), ts.Nested outer →
      (∀ i, Gextract.coverage outer i = 1 → ts.coverage i ≤ cspan i) →
      ∀ p ∈ (ts.findFrontier eps cspan).1.entries up k,
        (∃ n, (p.1, n) ∈ ts.entries up k ∧ n.attr.fspan = p.2.attr.fspan) ∧
        ∀ r, p.2.attr.span = some r ↔ p.2.attr.fspan = some r ∧
          ∀ i, Gextract.coverage p.2.attr.fspan i = 1 → cspan i ≤ ts.coverage i ∧
            ∀ q ∈ ts.entries up k, Beside p.1 q.1 → Gextract.coverage q.2.attr.fspan i ≠ 1 := by
  induction ts with
  | nil =>
    intro up k outer cspan _ _ p hp
    rw [findFrontier, entries] at hp
    cases hp
  | node attr children rest ihc ihr =>
    intro up k outer cspan hnested hcount p hp
    obtain ⟨hin, -, hchildren, hrest⟩ := hnested
    have hrestcover := fun i => hrest.coverage_pos_iff (i := i) up (k + 1)
    have hall : (node attr children rest).entries up k = (k :: up, ⟨attr, children⟩) ::
        (children.entries (k :: up) 0 ++ rest.entries up (k + 1)) := rfl
    have hcover : ∀ i, (node attr children rest).coverage i =
        Gextract.coverage attr.fspan i + rest.coverage i := fun _ => rfl
    -- nodes at or below this child are beside those of the rest
    have hbeside : ∀ u, (k :: up) <:+ u → ∀ q ∈ rest.entries up (k + 1), Beside u q.1 := by
      intro u hu q hq
      obtain ⟨j, hle, hj⟩ := exists_suffix_of_mem_entries (u := q.1) (n := q.2) hq
      exact beside_of_suffix (by omega) hu hj
    rw [findFrontier_node, entries] at hp
    rcases List.mem_cons.mp hp with rfl | hp
    · refine ⟨⟨⟨attr, children⟩, List.mem_cons_self, rfl⟩, ?_⟩
      intro r
      show frontierSpan eps attr.fspan (addSpan (-1) attr.fspan cspan) = some r ↔ _
      rw [frontierSpan_eq_some_iff]
      refine and_congr_right fun _ => forall_congr' fun i => imp_congr_right fun hi => ?_
      have hle := hcount i (coverage_mono hin hi)
      have hnonneg := rest.coverage_nonneg i
      have hi' : Gextract.coverage attr.fspan i = 1 := hi
      rw [hcover, hi'] at hle
      rw [hcover, hi', addSpan, hi']
      constructor
      · intro hclear
        refine ⟨by omega, ?_⟩
        intro q hq hq'
        rw [hall] at hq
        rcases List.mem_cons.mp hq with rfl | hq
        · exact absurd List.suffix_rfl hq'.1
        · rcases List.mem_append.mp hq with hq | hq
          · obtain ⟨j, -, hj⟩ := exists_suffix_of_mem_entries (u := q.1) (n := q.2) hq
            exact absurd ((List.suffix_cons _ _).trans hj) hq'.1
          · intro hone
            have := (hrestcover i).mpr ⟨q, hq, hone⟩
            omega
      · rintro ⟨hclear, hbesides⟩
        have hnot : ¬ 1 ≤ rest.coverage i := by
          intro hpos
          obtain ⟨q, hq, hone⟩ := (hrestcover i).mp hpos
          exact hbesides q (by rw [hall]; exact List.mem_cons_of_mem _ (List.mem_append_right _ hq))
            (hbeside _ List.suffix_rfl q hq) hone
        omega
    · rcases List.mem_append.mp hp with hp | hp
      · have hcount' : ∀ i, Gextract.coverage attr.fspan i = 1 → children.coverage i ≤
            cspan i - Gextract.coverage attr.fspan i + children.coverage i := by
          intro i hi
          have hle := hcount i (coverage_mono hin hi)
          have hnonneg := rest.coverage_nonneg i
          rw [hcover] at hle
          omega
        obtain ⟨⟨n, hn, hsame⟩, hspan⟩ := ihc (k :: up) 0 attr.fspan _ hchildren hcount' p hp
        obtain ⟨j, -, hj⟩ := exists_suffix_of_mem_entries (u := p.1) (n := p.2) hp
        have hbelow : (k :: up) <:+ p.1 := (List.suffix_cons _ _).trans hj
        refine ⟨⟨n, List.mem_cons_of_mem _ (List.mem_append_left _ hn), hsame⟩, ?_⟩
        intro r
        rw [hspan]
        refine and_congr_right fun _ => forall_congr' fun i => imp_congr_right fun hi => ?_
        have hattr : Gextract.coverage attr.fspan i = 1 :=
          coverage_mono (hchildren.spanIn hn) (hsame ▸ hi)
        have hle := hcount i (coverage_mono hin hattr)
        have hnonneg := rest.coverage_nonneg i
        rw [hcover, hattr] at hle
        rw [hcover, hattr]
        constructor
        · rintro ⟨hclear, hbesides⟩
          refine ⟨by omega, ?_⟩
          intro q hq hq'
          rw [hall] at hq
          rcases List.mem_cons.mp hq with rfl | hq
          · exact absurd hbelow hq'.2
          · rcases List.mem_append.mp hq with hq | hq
            · exact hbesides q hq hq'
            · intro hone
              have := (hrestcover i).mpr ⟨q, hq, hone⟩
              omega
        · rintro ⟨hclear, hbesides⟩
          have hnot : ¬ 1 ≤ rest.coverage i := by
            intro hpos
            obtain ⟨q, hq, hone⟩ := (hrestcover i).mp hpos
            exact hbesides q
              (by rw [hall]; exact List.mem_cons_of_mem _ (List.mem_append_right _ hq))
              (hbeside _ hbelow q hq) hone
          refine ⟨by omega, ?_⟩
          intro q hq hq'
          exact hbesides q (by rw [hall]; exact List.mem_cons_of_mem _ (List.mem_append_left _ hq))
            hq'
      · have hcount' : ∀ i, Gextract.coverage outer i = 1 → rest.coverage i ≤ cspan i := by
          intro i hi
          have hle := hcount i hi
          have hnonneg := Gextract.coverage_nonneg attr.fspan i
          rw [hcover] at hle
          omega
        obtain ⟨⟨n, hn, hsame⟩, hspan⟩ := ihr up (k + 1) outer cspan hrest hcount' p hp
        obtain ⟨j, hjk, hj⟩ := exists_suffix_of_mem_entries (u := p.1) (n := p.2) hp
        have hside : ∀ u, (k :: up) <:+ u → Beside p.1 u :=
          fun u hu => beside_of_suffix (by omega) hj hu
        refine ⟨⟨n, List.mem_cons_of_mem _ (List.mem_append_right _ hn), hsame⟩, ?_⟩
        intro r
        rw [hspan]
        refine and_congr_right fun _ => forall_congr' fun i => imp_congr_right fun hi => ?_
        have hle := hcount i (coverage_mono (hrest.spanIn hn) (hsame ▸ hi))
        have hnonneg := Gextract.coverage_nonneg attr.fspan i
        have hone := coverage_le_one attr.fspan i
        rw [hcover] at hle
        rw [hcover]
        constructor
        · rintro ⟨hclear, hbesides⟩
          refine ⟨by omega, ?_⟩
          intro q hq hq'
          rw [hall] at hq
          rcases List.mem_cons.mp hq with rfl | hq
          · show Gextract.coverage attr.fspan i ≠ 1
            omega
          · rcases List.mem_append.mp hq with hq | hq
            · intro hcovered
              have := coverage_mono (hchildren.spanIn hq) hcovered
              omega
            · exact hbesides q hq hq'
        · rintro ⟨hclear, hbesides⟩
          have hnot : Gextract.coverage attr.fspan i ≠ 1 :=
            hbesides (k :: up, ⟨attr, children⟩) (by rw [hall]; exact List.mem_cons_self)
              (hside _ List.suffix_rfl)
          refine ⟨by omega, ?_⟩
          intro q hq hq'
          exact hbesides q (by rw [hall]; exact List.mem_cons_of_mem _ (List.mem_append_right _ hq))
            hq'

end FindFrontier

theorem Nodes.addrs_map (f : α → β) (ts : Nodes α) (up : Addr) (k : ℕ) :
    (ts.map f).addrs up k = ts.addrs up k := by
  induction ts generalizing up k with
  | nil => rfl
  | node attr children rest ihc ihr => rw [map, addrs, addrs, ihc, ihr]

theorem Nodes.addrs_setSpans (fspane : List (Option Span)) (ts : Nodes Attr) :
    ∀ (epos : ℕ) (span : Option Span) (up : Addr) (k : ℕ),
      (ts.setSpans fspane epos span).1.addrs up k = ts.addrs up k := by
  induction ts with
  | nil => exact fun _ _ _ _ => rfl
  | node attr children rest ihc ihr =>
    intro epos span up k
    cases children with
    | nil => simp only [setSpans, addrs, ihr]
    | node a c r =>
      have hchildren := ihc epos none (k :: up) 0
      rw [setSpans]
      simp only [addrs] at hchildren ⊢
      rw [hchildren, ihr]

theorem Node.mem_addrs_of_suffix {t : Node α} {u v : Addr} (h : v <:+ u) (hu : u ∈ t.addrs) :
    v ∈ t.addrs := by
  obtain ⟨down, rfl⟩ := h
  induction down with
  | nil => exact hu
  | cons i down ih => exact ih (parent_mem_addrs hu)

theorem Node.leaves_subset (t : Node α) : t.leaves ⊆ t.addrs := by
  obtain ⟨attr, children⟩ := t
  cases children with
  | nil => exact List.Subset.refl _
  | node a c r => exact List.Subset.trans (Nodes.leaves_subset _ _ _) (List.subset_cons_self _ _)

namespace Translation

/-- A foreign word is aligned to a leaf at or below a node. -/
def Aligned (x : Translation) (u : Addr) (j : ℕ) : Prop :=
  YieldAligned (fun e j => (e, j) ∈ x.efpairs) x.etree.leaves.zipIdx u j

theorem aligned_iff {x : Translation} {u : Addr} {j : ℕ} :
    x.Aligned u j ↔ ∃ e l, x.etree.leaves[e]? = some l ∧ u <:+ l ∧ (e, j) ∈ x.efpairs := by
  constructor
  · intro ⟨q, hq, hsuffix, hpair⟩
    exact ⟨q.2, q.1, List.mem_zipIdx_iff_getElem?.mp hq, hsuffix, hpair⟩
  · intro ⟨e, l, hl, hsuffix, hpair⟩
    exact ⟨(l, e), List.mem_zipIdx_iff_getElem?.mpr hl, hsuffix, hpair⟩

variable (x : Translation)

theorem isCover_spanadje (e : ℕ) :
    IsCover (x.spanadje.getD e none) fun j => (e, j) ∈ x.efpairs := by
  rw [spanadje, adjlist, List.map_map]
  by_cases hlt : e < x.etree.yieldLabels.length
  · rw [List.getD_eq_getElem _ _ (by simpa using hlt), List.getElem_map, List.getElem_range]
    apply (isCover_spanCoverPoints _).congr
    intro j
    simp
  · rw [List.getD_eq_default _ _ (by simpa using hlt)]
    intro j hj
    exact hlt (x.bounded _ hj).1

/-- Every node below the top covers the words aligned to it. -/
theorem spanned_cover : ∀ p ∈ x.spanned.children.entries [] 0,
    IsCover p.2.attr.fspan (x.Aligned p.1) := by
  intro p hp
  have hleaves := x.etree.leaves_map fun label => ({ label := label } : Attr)
  rw [spanned, Node.setSpans] at hp
  unfold Aligned
  rw [← hleaves]
  split at hp
  · cases hp
  · next a c r hchildren =>
    have h := (Nodes.setSpans_cover x.isCover_spanadje
      (x.etree.map fun label => ({ label := label } : Attr)).children [] 0 0 none _
      isCover_none).2.2 p hp
    have hsame : (x.etree.map fun label => ({ label := label } : Attr)).leaves =
        (x.etree.map fun label => ({ label := label } : Attr)).children.leaves [] 0 := by
      rw [Node.leaves, hchildren]
    rwa [hsame]

theorem addrs_spanned : x.spanned.children.addrs [] 0 = x.etree.children.addrs [] 0 := by
  have hmap : (x.etree.map fun label => ({ label := label } : Attr)).children.addrs [] 0 =
      x.etree.children.addrs [] 0 := Nodes.addrs_map _ _ _ _
  rw [spanned, Node.setSpans, ← hmap]
  split
  · next hchildren => rw [hchildren]
  · exact Nodes.addrs_setSpans _ _ _ _ _ _

/-- A node that words are aligned to is listed with its span, unless it is the top node. -/
theorem exists_mem_entries_of_aligned {v : Addr} {j : ℕ} (hv : v ≠ []) (h : x.Aligned v j) :
    ∃ n, (v, n) ∈ x.spanned.children.entries [] 0 := by
  obtain ⟨e, l, hl, hsuffix, -⟩ := aligned_iff.mp h
  have hmem : v ∈ x.etree.addrs :=
    Node.mem_addrs_of_suffix hsuffix (x.etree.leaves_subset (List.mem_of_getElem? hl))
  have hbelow : v ∈ x.etree.children.addrs [] 0 := (List.mem_cons.mp hmem).resolve_left hv
  rw [← addrs_spanned, ← Nodes.map_fst_entries] at hbelow
  obtain ⟨q, hq, rfl⟩ := List.mem_map.mp hbelow
  exact ⟨q.2, hq⟩

theorem exists_isCover {v : Addr} {j : ℕ} (hv : v ≠ []) (h : x.Aligned v j) :
    ∃ r, IsCover (some r) (x.Aligned v) := by
  obtain ⟨n, hn⟩ := x.exists_mem_entries_of_aligned hv h
  have hcover := x.spanned_cover _ hn
  cases hspan : n.attr.fspan with
  | none =>
    rw [hspan] at hcover
    exact absurd h (hcover j)
  | some r => exact ⟨r, hspan ▸ hcover⟩

/-- Which spans `ghkm` gives to the nodes below the top. -/
theorem span_eq_some_iff (eps : Bool) {u : Addr} {n : Node Attr} (hu : u ≠ [])
    (hn : (x.ghkm true eps).subtree u = some n) (r : Span) :
    n.attr.span = some r ↔ IsCover (some r) (x.Aligned u) ∧
      ∀ v, Beside u v → ∀ i, Between (x.Aligned u) i → ¬ Between (x.Aligned v) i := by
  have hnested := x.spanned_nested
  obtain hnode | hentry := List.mem_cons.mp (Node.mem_entries_of_subtree hn)
  · exact absurd (Prod.mk.inj hnode).1 hu
  · have hchildren : (x.ghkm true eps).children = (x.spanned.children.findFrontier eps fun i =>
        1 - coverage (some (0, x.f.length)) i + x.spanned.children.coverage i).1 := by
      have h := Nodes.findFrontier_children { x.spanned.attr with fspan := some (0, x.f.length) }
        x.spanned.children fun _ => 1
      exact congrArg (fun cspan => (x.spanned.children.findFrontier eps cspan).1) h
    rw [hchildren] at hentry
    have hcount : ∀ i, coverage (some (0, x.f.length)) i = 1 → x.spanned.children.coverage i ≤
        1 - coverage (some (0, x.f.length)) i + x.spanned.children.coverage i := by
      intro i hi
      omega
    obtain ⟨⟨m, hm, hsame⟩, hspan⟩ := Nodes.findFrontier_entries eps _ [] 0 _ _ hnested hcount _ hentry
    have hcover : IsCover n.attr.fspan (x.Aligned u) := hsame ▸ x.spanned_cover _ hm
    have hin : ∀ i, coverage n.attr.fspan i = 1 → coverage (some (0, x.f.length)) i = 1 :=
      fun i hi => coverage_mono (hnested.spanIn hm) (hsame.symm ▸ hi)
    rw [hspan]
    have hbesides : (∀ i, coverage n.attr.fspan i = 1 →
          1 - coverage (some (0, x.f.length)) i + x.spanned.children.coverage i ≤
            x.spanned.children.coverage i ∧
          ∀ q ∈ x.spanned.children.entries [] 0, Beside u q.1 → coverage q.2.attr.fspan i ≠ 1) ↔
        ∀ v, Beside u v → ∀ i, Between (x.Aligned u) i → ¬ Between (x.Aligned v) i := by
      constructor
      · intro h v hv i hi hi'
        have hv0 : v ≠ [] := fun h0 => hv.2 (h0 ▸ List.nil_suffix)
        have haligned : ∃ j, x.Aligned v j := by
          obtain ⟨a, _, ha, _⟩ := hi'
          exact ⟨a, ha⟩
        obtain ⟨j, hj⟩ := haligned
        obtain ⟨m', hm'⟩ := x.exists_mem_entries_of_aligned hv0 hj
        exact (h i (hcover.coverage_iff.mpr hi)).2 _ hm' hv
          ((x.spanned_cover _ hm').coverage_iff.mpr hi')
      · intro h i hi
        refine ⟨by have := hin i hi; omega, ?_⟩
        intro q hq hbeside hq'
        exact h q.1 hbeside i (hcover.coverage_iff.mp hi)
          ((x.spanned_cover _ hq).coverage_iff.mp hq')
    rw [hbesides]
    refine and_congr_left fun _ => ?_
    constructor
    · intro hfspan
      rw [← hfspan]
      exact hcover
    · intro hr
      exact hcover.unique hr

/-- **The frontier.** A node below the top gets a span if some word is aligned to it and no
node beside it covers a word between those aligned to it, and the span is then the smallest
interval. What is counted is put back. -/
theorem ghkm_frontier (eps : Bool) {u : Addr} {n : Node Attr} (hu : u ≠ [])
    (hn : (x.ghkm true eps).subtree u = some n) :
    (n.attr.span ≠ none ↔ (∃ j, x.Aligned u j) ∧
      ∀ v, Beside u v → ∀ i, Between (x.Aligned u) i → ¬ Between (x.Aligned v) i) ∧
    (∀ r, n.attr.span = some r → ∀ i, r.1 ≤ i ∧ i < r.2 ↔ Between (x.Aligned u) i) ∧
    ∀ (ts : Nodes Attr) (cspan : ℕ → ℤ), (ts.findFrontier eps cspan).2 = cspan := by
  have hspan := x.span_eq_some_iff eps hu hn
  refine ⟨?_, ?_, Nodes.findFrontier_count eps⟩
  · constructor
    · intro hne
      obtain ⟨r, hr⟩ := Option.ne_none_iff_exists'.mp hne
      obtain ⟨hcover, hbeside⟩ := (hspan r).mp hr
      exact ⟨⟨r.1, hcover.1⟩, hbeside⟩
    · intro ⟨hwords, hbeside⟩
      obtain ⟨j, hj⟩ := hwords
      obtain ⟨r, hcover⟩ := x.exists_isCover hu hj
      rw [(hspan r).mpr ⟨hcover, hbeside⟩]
      exact Option.some_ne_none r
  · intro r hr i
    rw [← ((hspan r).mp hr).1.coverage_iff, coverage_some]

end Translation

/-- `A` is aligned to the first and the last word, `B` to the one between. -/
def aroundB : Translation where
  etree := ⟨"S", .node "A" .nil (.node "B" .nil .nil)⟩
  f := ["x", "y", "z"]
  efpairs := [(0, 0), (0, 2), (1, 1)]
  bounded := by decide

theorem aligned_aroundB {j : ℕ} (h : aroundB.Aligned [1] j) : j = 1 := by
  obtain ⟨e, l, hl, hsuffix, hpair⟩ := Translation.aligned_iff.mp h
  have hpairs : (e, j) = (0, 0) ∨ (e, j) = (0, 2) ∨ (e, j) = (1, 1) := by
    simpa [aroundB] using hpair
  have hfirst : aroundB.etree.leaves[0]? = some [0] := rfl
  have hnot : ¬ [1] <:+ [0] := by decide
  rcases hpairs with heq | heq | heq <;> obtain ⟨rfl, rfl⟩ := Prod.mk.inj heq
  · rw [← Option.some.inj (hfirst.symm.trans hl)] at hsuffix
    exact absurd hsuffix hnot
  · rw [← Option.some.inj (hfirst.symm.trans hl)] at hsuffix
    exact absurd hsuffix hnot
  · rfl

/-- No word between those of `B` is aligned to a leaf that is not below it, but it has no span. -/
theorem not_frontier_aroundB :
    ∃ n, (aroundB.ghkm true false).subtree [1] = some n ∧ n.attr.span = none ∧
      (∃ j, aroundB.Aligned [1] j) ∧
      ∀ i, Between (aroundB.Aligned [1]) i → ∀ e l, aroundB.etree.leaves[e]? = some l →
        (e, i) ∈ aroundB.efpairs → [1] <:+ l := by
  refine ⟨_, rfl, by decide,
    ⟨1, Translation.aligned_iff.mpr ⟨1, [1], rfl, List.suffix_rfl, by decide⟩⟩, ?_⟩
  intro i ⟨a, b, ha, hb, hai, hib⟩ e l hl hpair
  have hi : i = 1 := by
    have h1 := aligned_aroundB ha
    have h2 := aligned_aroundB hb
    omega
  rw [hi] at hpair
  have he : e = 1 := by
    have hpairs : (e, 1) = (0, 0) ∨ (e, 1) = (0, 2) ∨ (e, 1) = (1, 1) := by
      simpa [aroundB] using hpair
    simpa using hpairs
  have hsecond : aroundB.etree.leaves[1]? = some [1] := rfl
  rw [he] at hl
  rw [← Option.some.inj (hsecond.symm.trans hl)]

theorem ghkm_frontier_aroundB :
    ∃ n, (aroundB.ghkm true false).subtree [0] = some n ∧
      (n.attr.span ≠ none ↔ (∃ j, aroundB.Aligned [0] j) ∧
        ∀ v, Beside [0] v → ∀ i, Between (aroundB.Aligned [0]) i →
          ¬ Between (aroundB.Aligned v) i) :=
  ⟨_, rfl, (aroundB.ghkm_frontier false (by decide) rfl).1⟩

end Carmel.Gextract
