/-
# Frontier nodes tile

The count on the way down is at least what the siblings cover, so a frontier node
shares no word with a sibling of its own or of an ancestor. The nodes that a rule
has variables for therefore cover separate parts of the words of the rule.
-/

import Carmel.Gextract.Spans

namespace Carmel.Gextract

/-- The spans of the nodes below which a rule stops. -/
def Nodes.varSpans (ts : Nodes Attr) : List Span := ts.xrsfrontier.filterMap fun c => c.attr.span

/-- Two spans share no word. -/
def Apart (r s : Span) : Prop := r.2 ≤ s.1 ∨ s.2 ≤ r.1

/-- Separate parts of a span. -/
structure Tiles (whole : Span) (parts : List Span) : Prop where
  within : ∀ r ∈ parts, whole.1 ≤ r.1 ∧ r.1 < r.2 ∧ r.2 ≤ whole.2
  apart : parts.Pairwise Apart

/-- The variables of every rule below are for separate parts of its words. -/
def Nodes.Tiled : Nodes Attr → Prop
  | nil => True
  | node attr children rest =>
    (∀ s, attr.span = some s → Tiles s children.varSpans) ∧ children.Tiled ∧ rest.Tiled

def Node.Tiled (t : Node Attr) : Prop :=
  (∀ s, t.attr.span = some s → Tiles s t.children.varSpans) ∧ t.children.Tiled

theorem Tiles.sublist {whole : Span} {parts parts' : List Span} (h : Tiles whole parts)
    (hsub : parts'.Sublist parts) : Tiles whole parts' :=
  ⟨fun r hr => h.within r (hsub.subset hr), h.apart.sublist hsub⟩

theorem Nodes.varSpans_node (attr : Attr) (children rest : Nodes Attr) :
    (node attr children rest).varSpans = (match attr.span with
        | some s => [s]
        | none => children.varSpans) ++ rest.varSpans := by
  unfold varSpans
  rw [xrsfrontier, List.filterMap_append]
  congr 1
  cases hspan : attr.span with
  | none => rw [if_neg (not_not.mpr rfl)]
  | some s => simp [hspan]

/-- A word in both of two proper spans keeps them together. -/
theorem apart_of_coverage {r s : Span} (hr : r.1 < r.2) (hs : s.1 < s.2)
    (h : ∀ i, coverage (some r) i = 1 → coverage (some s) i ≠ 1) : Apart r s := by
  by_contra hnot
  unfold Apart at hnot
  push Not at hnot
  have hboth : coverage (some r) (max r.1 s.1) = 1 ∧ coverage (some s) (max r.1 s.1) = 1 := by
    constructor
    · exact coverage_some.mpr ⟨le_max_left _ _, max_lt hr hnot.1⟩
    · exact coverage_some.mpr ⟨le_max_right _ _, max_lt hnot.2 hs⟩
  exact h _ hboth.1 hboth.2

/-- How often siblings cover a word. -/
def Nodes.coverage : Nodes Attr → ℕ → ℤ
  | nil, _ => 0
  | node attr _ rest, i => Gextract.coverage attr.fspan i + rest.coverage i

theorem Nodes.coverage_nonneg (ts : Nodes Attr) (i : ℕ) : 0 ≤ ts.coverage i := by
  induction ts with
  | nil => exact le_rfl
  | node attr _ rest _ ih => exact add_nonneg (Gextract.coverage_nonneg _ _) ih

theorem Nodes.addSpans_eq (d : ℤ) (ts : Nodes Attr) (cspan : ℕ → ℤ) :
    ts.addSpans d cspan = fun i => cspan i + d * ts.coverage i := by
  induction ts generalizing cspan with
  | nil =>
    funext i
    rw [addSpans, coverage, mul_zero, add_zero]
  | node attr _ rest _ ih =>
    funext i
    rw [addSpans, ih]
    simp only [coverage, addSpan]
    ring

/-- The count at the children of a node: that at the node less the node itself. -/
theorem Nodes.findFrontier_children (attr : Attr) (children : Nodes Attr) (cspan : ℕ → ℤ) :
    children.addSpans 1 (addSpan (-1) attr.fspan cspan) = fun i =>
      cspan i - Gextract.coverage attr.fspan i + children.coverage i := by
  rw [addSpans_eq]
  funext i
  rw [addSpan]
  ring

/-- The count is put back. -/
theorem Nodes.findFrontier_count (eps : Bool) (ts : Nodes Attr) (cspan : ℕ → ℤ) :
    (ts.findFrontier eps cspan).2 = cspan := by
  induction ts generalizing cspan with
  | nil => rfl
  | node attr children rest ihc ihr =>
    rw [findFrontier]
    simp only [ihc, ihr]
    rw [addSpans_eq, addSpans_eq]
    funext i
    simp only [addSpan]
    ring

theorem Nodes.findFrontier_node (eps : Bool) (attr : Attr) (children rest : Nodes Attr)
    (cspan : ℕ → ℤ) :
    ((node attr children rest).findFrontier eps cspan).1 =
      node { attr with span := frontierSpan eps attr.fspan (addSpan (-1) attr.fspan cspan) }
        (children.findFrontier eps fun i =>
          cspan i - Gextract.coverage attr.fspan i + children.coverage i).1
        (rest.findFrontier eps cspan).1 := by
  have hcount := findFrontier_count eps (node attr children nil) cspan
  rw [findFrontier, findFrontier_children] at hcount
  rw [findFrontier, findFrontier_children]
  simp only [findFrontier] at hcount ⊢
  rw [hcount]

/-- What holds of a span below siblings: it lies in theirs, and where it lies the
count is that of one of them. -/
structure Alone (ts : Nodes Attr) (outer : Option Span) (cspan : ℕ → ℤ) (r : Span) : Prop where
  proper : r.1 < r.2
  within : SpanIn (some r) outer
  covered : ∀ i, coverage (some r) i = 1 → 1 ≤ ts.coverage i
  once : ∀ i, coverage (some r) i = 1 → cspan i ≤ 1

/-- **The frontier** below siblings whose spans have been counted. -/
theorem Nodes.findFrontier_spec (eps : Bool) (ts : Nodes Attr) :
    ∀ (outer : Option Span) (cspan : ℕ → ℤ), ts.Nested outer → (∀ i, ts.coverage i ≤ cspan i) →
      (∀ r ∈ (ts.findFrontier eps cspan).1.varSpans, Alone ts outer cspan r) ∧
        (ts.findFrontier eps cspan).1.varSpans.Pairwise Apart ∧
        (ts.findFrontier eps cspan).1.Tiled := by
  induction ts with
  | nil =>
    intro outer cspan _ _
    exact ⟨by simp [findFrontier, varSpans, xrsfrontier],
      by simp [findFrontier, varSpans, xrsfrontier], trivial⟩
  | node attr children rest ihc ihr =>
    intro outer cspan ⟨hin, hproper, hchildren, hrest⟩ hcount
    have hcover : ∀ i, (node attr children rest).coverage i =
        Gextract.coverage attr.fspan i + rest.coverage i := fun _ => rfl
    have hbase : ∀ i, children.coverage i ≤
        cspan i - Gextract.coverage attr.fspan i + children.coverage i := by
      intro i
      have h := hcount i
      have hnonneg := rest.coverage_nonneg i
      rw [hcover] at h
      omega
    obtain ⟨halone, hapart, htiled⟩ := ihc attr.fspan _ hchildren hbase
    obtain ⟨halone', hapart', htiled'⟩ := ihr outer cspan hrest fun i => by
      have h := hcount i
      have hnonneg := Gextract.coverage_nonneg attr.fspan i
      rw [hcover] at h
      omega
    rw [findFrontier_node]
    generalize hch : (children.findFrontier eps fun i =>
      cspan i - Gextract.coverage attr.fspan i + children.coverage i).1 = children' at *
    generalize hrt : (rest.findFrontier eps cspan).1 = rest' at *
    generalize hsp : frontierSpan eps attr.fspan (addSpan (-1) attr.fspan cspan) = span
    -- the spans at or below the first sibling
    have hfirst : ∀ r ∈ (match span with | some s => [s] | none => children'.varSpans),
        Alone (node attr children rest) outer cspan r ∧
          ∀ i, Gextract.coverage (some r) i = 1 → Gextract.coverage attr.fspan i = 1 := by
      intro r hr
      cases hspan : span with
      | some s =>
        rw [hspan] at hr hsp
        rw [List.mem_singleton.mp hr]
        obtain ⟨hfspan, hclear⟩ := frontierSpan_eq_some hsp
        refine ⟨⟨hproper s hfspan, hfspan ▸ hin, ?_, ?_⟩, fun i hi => hfspan ▸ hi⟩
        · intro i hi
          have hnonneg := rest.coverage_nonneg i
          rw [hcover, hfspan]
          omega
        · intro i hi
          have h := hclear i (hfspan ▸ hi)
          rw [addSpan, hfspan] at h
          omega
      | none =>
        rw [hspan] at hr
        obtain ⟨hproper', hwithin, hcovered, honce⟩ := halone r hr
        have hup : ∀ i, Gextract.coverage (some r) i = 1 → Gextract.coverage attr.fspan i = 1 :=
          fun i hi => coverage_mono hwithin hi
        refine ⟨⟨hproper', hwithin.trans hin, ?_, ?_⟩, hup⟩
        · intro i hi
          have hnonneg := rest.coverage_nonneg i
          rw [hcover, hup i hi]
          omega
        · intro i hi
          have h := honce i hi
          have hc := hcovered i hi
          have h1 := hup i hi
          omega
    rw [varSpans_node]
    refine ⟨?_, ?_, ?_, htiled, htiled'⟩
    · intro r hr
      rcases List.mem_append.mp hr with hr | hr
      · exact (hfirst r hr).1
      · obtain ⟨hproper', hwithin, hcovered, honce⟩ := halone' r hr
        refine ⟨hproper', hwithin, ?_, honce⟩
        intro i hi
        have h := hcovered i hi
        have hnonneg := Gextract.coverage_nonneg attr.fspan i
        rw [hcover]
        omega
    · rw [List.pairwise_append]
      refine ⟨?_, hapart', ?_⟩
      · cases span with
        | some s => exact List.pairwise_singleton _ _
        | none => exact hapart
      · -- a word of the first sibling that is counted once is no word of the others
        intro r hr s hs
        obtain ⟨halone_r, hup⟩ := hfirst r hr
        have halone_s := halone' s hs
        apply apart_of_coverage halone_r.proper halone_s.proper
        intro i hi hi'
        have honce := halone_r.once i hi
        have h1 := hup i hi
        have h2 := halone_s.covered i hi'
        have h := hcount i
        rw [hcover] at h
        omega
    · intro s hs
      have hs' : span = some s := hs
      rw [hs'] at hsp
      obtain ⟨hfspan, _⟩ := frontierSpan_eq_some hsp
      refine ⟨?_, hapart⟩
      intro r hr
      have halone_r := halone r hr
      have hwithin := halone_r.within
      rw [hfspan] at hwithin
      exact ⟨hwithin.1, halone_r.proper, hwithin.2⟩

/-- Without the spans of the terminals, fewer variables are left. -/
theorem Nodes.varSpans_mapTerminals (ts : Nodes Attr) :
    (ts.mapTerminals fun attr => { attr with span := none }).varSpans.Sublist ts.varSpans := by
  induction ts with
  | nil => exact List.Sublist.refl _
  | node attr children rest ihc ihr =>
    cases children with
    | nil =>
      rw [mapTerminals, varSpans_node, varSpans_node]
      apply List.Sublist.append _ ihr
      simp only
      cases attr.span with
      | none => exact List.Sublist.refl _
      | some s => exact List.nil_sublist _
    | node a c r =>
      rw [mapTerminals, varSpans_node, varSpans_node]
      apply List.Sublist.append _ ihr
      cases attr.span with
      | none => exact ihc
      | some s => exact List.Sublist.refl _

theorem Nodes.Tiled.mapTerminals {ts : Nodes Attr} (h : ts.Tiled) :
    (ts.mapTerminals fun attr => { attr with span := none }).Tiled := by
  induction ts with
  | nil => trivial
  | node attr children rest ihc ihr =>
    obtain ⟨hroot, hchildren, hrest⟩ := h
    cases children with
    | nil => exact ⟨nofun, trivial, ihr hrest⟩
    | node a c r =>
      exact ⟨fun s hs => (hroot s hs).sublist (varSpans_mapTerminals _), ihc hchildren, ihr hrest⟩

theorem Node.Tiled.mapTerminals {t : Node Attr} (h : t.Tiled) :
    (t.mapTerminals fun attr => { attr with span := none }).Tiled := by
  obtain ⟨attr, children⟩ := t
  cases children with
  | nil => exact ⟨nofun, trivial⟩
  | node a c r =>
    exact ⟨fun s hs => (h.1 s hs).sublist (Nodes.varSpans_mapTerminals _), h.2.mapTerminals⟩

/-- The top node gets all words of the sentence. -/
theorem frontierSpan_top (eps : Bool) (n : ℕ) :
    frontierSpan eps (some (0, n)) (addSpan (-1) (some (0, n)) fun _ => 1) = some (0, n) := by
  have hall : ((List.range' 0 (n - 0)).all fun i =>
      addSpan (-1) (some (0, n)) (fun _ => 1) i ≤ 0) = true → frontierSpan eps (some (0, n))
        (addSpan (-1) (some (0, n)) fun _ => 1) = some (0, n) := fun h => if_pos h
  apply hall
  rw [List.all_eq_true]
  intro i hi
  rw [List.mem_range'_1] at hi
  have hcover : coverage (some (0, n)) i = 1 := coverage_some.mpr ⟨by omega, by omega⟩
  simp [addSpan, hcover]

namespace Translation

variable (x : Translation) (leavesAreFrontier allowEpsilonRhs : Bool)

theorem tiled_findFrontier {attr : Attr} {children : Nodes Attr} {n : ℕ}
    (hfspan : attr.fspan = some (0, n)) (hnested : children.Nested (some (0, n))) :
    ((⟨attr, children⟩ : Node Attr).findFrontier allowEpsilonRhs fun _ => 1).attr.span = some (0, n) ∧
      ((⟨attr, children⟩ : Node Attr).findFrontier allowEpsilonRhs fun _ => 1).Tiled := by
  have hspan : ((⟨attr, children⟩ : Node Attr).findFrontier allowEpsilonRhs fun _ => 1).attr.span =
      some (0, n) := by
    show frontierSpan allowEpsilonRhs attr.fspan (addSpan (-1) attr.fspan fun _ => 1) = _
    rw [hfspan]
    exact frontierSpan_top allowEpsilonRhs n
  refine ⟨hspan, ?_⟩
  have hcount : ∀ i, children.coverage i ≤ 1 - coverage attr.fspan i + children.coverage i := by
    intro i
    have hle : coverage attr.fspan i ≤ 1 := by
      unfold coverage
      split
      · decide
      · split <;> decide
    omega
  obtain ⟨halone, hapart, htiled⟩ :=
    children.findFrontier_spec allowEpsilonRhs (some (0, n)) _ hnested hcount
  have hchildren : ((⟨attr, children⟩ : Node Attr).findFrontier allowEpsilonRhs fun _ => 1).children =
      (children.findFrontier allowEpsilonRhs fun i =>
        1 - coverage attr.fspan i + children.coverage i).1 := by
    show (children.findFrontier allowEpsilonRhs
      (children.addSpans 1 (addSpan (-1) attr.fspan fun _ => 1))).1 = _
    rw [Nodes.findFrontier_children]
  constructor
  · intro s hs
    rw [hspan] at hs
    rw [← Option.some.inj hs, hchildren]
    refine ⟨?_, hapart⟩
    intro r hr
    have halone_r := halone r hr
    exact ⟨halone_r.within.1, halone_r.proper, halone_r.within.2⟩
  · rw [hchildren]
    exact htiled

/-- **After `ghkm`** the variables of every rule are for separate parts of its words. -/
theorem tiled_ghkm : (x.ghkm leavesAreFrontier allowEpsilonRhs).Tiled := by
  have hfspan : ({ x.spanned.attr with fspan := some (0, x.f.length) } : Attr).fspan =
      some (0, x.f.length) := rfl
  have h := tiled_findFrontier allowEpsilonRhs hfspan x.spanned_nested
  unfold ghkm
  cases leavesAreFrontier with
  | true => exact h.2
  | false => exact h.2.mapTerminals

/-- The top node heads a rule for the whole sentence unless it is a terminal. -/
theorem span_ghkm : (x.ghkm leavesAreFrontier allowEpsilonRhs).attr.span =
    if leavesAreFrontier = true ∨ ¬ (x.ghkm leavesAreFrontier allowEpsilonRhs).IsTerminal then
      some (0, x.f.length) else none := by
  have hfspan : ({ x.spanned.attr with fspan := some (0, x.f.length) } : Attr).fspan =
      some (0, x.f.length) := rfl
  have h := tiled_findFrontier allowEpsilonRhs hfspan x.spanned_nested
  unfold ghkm
  cases leavesAreFrontier with
  | true => simpa using h.1
  | false =>
    simp only [Bool.false_eq_true, if_false, false_or]
    generalize (⟨{ x.spanned.attr with fspan := some (0, x.f.length) }, x.spanned.children⟩ :
      Node Attr).findFrontier allowEpsilonRhs (fun _ => 1) = t at h
    obtain ⟨attr, children⟩ := t
    cases children with
    | nil => simp [Node.mapTerminals, Node.IsTerminal]
    | node a c r =>
      have hne : ¬ ((⟨attr, .node a c r⟩ : Node Attr).mapTerminals fun attr =>
          { attr with span := none }).IsTerminal := by
        cases c <;> rintro ⟨⟩
      rw [if_pos hne]
      exact h.1

end Translation

end Carmel.Gextract
