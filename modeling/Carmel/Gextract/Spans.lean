/-
# Spans and the frontier

Every node covers the foreign words that its yield is aligned to. A node is a frontier node
when no sibling of it or of one of its ancestors covers any of these words. What a sibling
covers is counted in an array that is brought up to date on the way down and put back on the
way up.
-/

import Carmel.Gextract.Tree

namespace Carmel.Gextract

/-- A half-open interval of foreign words. -/
abbrev Span := ℕ × ℕ

def spanCoverPoints (points : List ℕ) : Option Span :=
  match points.min?, points.max? with
  | some a, some b => some (a, b + 1)
  | _, _ => none

/-- The smallest span covering both. -/
def spanCover : Option Span → Option Span → Option Span
  | none, sb => sb
  | sa, none => sa
  | some sa, some sb => some (min sa.1 sb.1, max sa.2 sb.2)

/-- `span_in`. -/
def SpanIn : Option Span → Option Span → Prop
  | none, _ => True
  | some _, none => False
  | some a, some b => b.1 ≤ a.1 ∧ a.2 ≤ b.2

/-- The attributes of a node; those that are not set yet are `none`. -/
structure Attr where
  label : String
  fspan : Option Span := none
  span : Option Span := none
  closureSpan : Option Span := none
  count : Option ℕ := none
deriving DecidableEq, Repr

section Code

/-- `set_spans` for the children of a node, from the position `epos` of the yield;
`span` covers the children before. -/
def Nodes.setSpans (fspane : List (Option Span)) :
    Nodes Attr → ℕ → Option Span → Nodes Attr × Option Span × ℕ
  | nil, epos, span => (nil, span, epos)
  | node attr children rest, epos, span =>
    let (fspan, children', epos) :=
      match children with
      | nil => (fspane.getD epos none, nil, epos + 1)
      | node .. =>
        let (children', fspan, epos) := children.setSpans fspane epos none
        (fspan, children', epos)
    let (rest', span, epos) := rest.setSpans fspane epos (spanCover span fspan)
    (node { attr with fspan := fspan } children' rest', span, epos)

def Node.setSpans (fspane : List (Option Span)) (t : Node Attr) : Node Attr :=
  match t.children with
  | .nil => ⟨{ t.attr with fspan := fspane.getD 0 none }, .nil⟩
  | .node .. =>
    let (children, fspan, _) := t.children.setSpans fspane 0 none
    ⟨{ t.attr with fspan := fspan }, children⟩

/-- How often a span covers a word. -/
def coverage (s : Option Span) (i : ℕ) : ℤ :=
  match s with
  | none => 0
  | some (a, b) => if a ≤ i ∧ i < b then 1 else 0

/-- Add `d` at the words of a span. -/
def addSpan (d : ℤ) (s : Option Span) (cspan : ℕ → ℤ) (i : ℕ) : ℤ := cspan i + d * coverage s i

/-- Add `d` at the words of the spans of siblings. -/
def Nodes.addSpans (d : ℤ) : Nodes Attr → (ℕ → ℤ) → ℕ → ℤ
  | nil, cspan => cspan
  | node attr _ rest, cspan => rest.addSpans d (addSpan d attr.fspan cspan)

/-- The span of a node, when `cspan` does not count the node itself. -/
def frontierSpan (allowEpsilonRhs : Bool) (fspan : Option Span) (cspan : ℕ → ℤ) : Option Span :=
  match fspan with
  | none => if allowEpsilonRhs then fspan else none
  | some (a, b) => if (List.range' a (b - a)).all fun i => cspan i ≤ 0 then fspan else none

/-- `find_frontier` for the children of a node. -/
def Nodes.findFrontier (allowEpsilonRhs : Bool) :
    Nodes Attr → (ℕ → ℤ) → Nodes Attr × (ℕ → ℤ)
  | nil, cspan => (nil, cspan)
  | node attr children rest, cspan =>
    let cspan := addSpan (-1) attr.fspan cspan
    let span := frontierSpan allowEpsilonRhs attr.fspan cspan
    let (children', cspan) := children.findFrontier allowEpsilonRhs (children.addSpans 1 cspan)
    let cspan := addSpan 1 attr.fspan (children.addSpans (-1) cspan)
    let (rest', cspan) := rest.findFrontier allowEpsilonRhs cspan
    (node { attr with span := span } children' rest', cspan)

def Node.findFrontier (allowEpsilonRhs : Bool) (t : Node Attr) (cspan : ℕ → ℤ) : Node Attr :=
  let cspan := addSpan (-1) t.attr.fspan cspan
  let span := frontierSpan allowEpsilonRhs t.attr.fspan cspan
  let (children, _) := t.children.findFrontier allowEpsilonRhs (t.children.addSpans 1 cspan)
  ⟨{ t.attr with span := span }, children⟩

/-- `adjlist`. -/
def adjlist (pairs : List (ℕ × ℕ)) (na : ℕ) : List (List ℕ) :=
  (List.range na).map fun a => (pairs.filter fun p => p.1 = a).map Prod.snd

/-- A parse, a foreign sentence, and an alignment within their bounds. -/
structure Translation where
  etree : Node String
  f : List String
  efpairs : List (ℕ × ℕ)
  bounded : ∀ p ∈ efpairs, p.1 < etree.yieldLabels.length ∧ p.2 < f.length

def Translation.spanadje (x : Translation) : List (Option Span) :=
  (adjlist x.efpairs x.etree.yieldLabels.length).map spanCoverPoints

/-- The tree that the constructor leaves. -/
def Translation.spanned (x : Translation) : Node Attr :=
  (x.etree.map fun label => { label := label }).setSpans x.spanadje

/-- The tree after `ghkm`. -/
def Translation.ghkm (x : Translation) (leavesAreFrontier allowEpsilonRhs : Bool) : Node Attr :=
  let t := x.spanned
  let t : Node Attr := ⟨{ t.attr with fspan := some (0, x.f.length) }, t.children⟩
  let t := t.findFrontier allowEpsilonRhs fun _ => 1
  if leavesAreFrontier then t else t.mapTerminals fun attr => { attr with span := none }

/-- `xrsfrontier_rec`: the nodes with a span that no other such node lies above. -/
def Nodes.xrsfrontier : Nodes Attr → List (Node Attr)
  | nil => []
  | node attr children rest =>
    (if attr.span ≠ none then [⟨attr, children⟩] else children.xrsfrontier) ++ rest.xrsfrontier

end Code

section Spans

variable {a b c s t : Option Span} {i : ℕ}

theorem SpanIn.refl (s : Option Span) : SpanIn s s := by
  cases s with
  | none => trivial
  | some s => exact ⟨le_rfl, le_rfl⟩

theorem SpanIn.trans (h : SpanIn a b) (h' : SpanIn b c) : SpanIn a c := by
  cases a with
  | none => trivial
  | some a =>
    cases b with
    | none => exact absurd h id
    | some b =>
      cases c with
      | none => exact absurd h' id
      | some c => exact ⟨h'.1.trans h.1, h.2.trans h'.2⟩

theorem spanIn_spanCover_left (a b : Option Span) : SpanIn a (spanCover a b) := by
  cases a with
  | none => trivial
  | some a =>
    cases b with
    | none => exact SpanIn.refl _
    | some b => exact ⟨min_le_left _ _, le_max_left _ _⟩

theorem spanIn_spanCover_right (a b : Option Span) : SpanIn b (spanCover a b) := by
  cases a with
  | none => exact SpanIn.refl _
  | some a =>
    cases b with
    | none => trivial
    | some b => exact ⟨min_le_right _ _, le_max_right _ _⟩

theorem spanCover_in (h : SpanIn a c) (h' : SpanIn b c) : SpanIn (spanCover a b) c := by
  cases a with
  | none => exact h'
  | some a =>
    cases b with
    | none => exact h
    | some b =>
      cases c with
      | none => exact absurd h id
      | some c => exact ⟨le_min h.1 h'.1, max_le h.2 h'.2⟩

/-- A span has a word. -/
def Proper (s : Option Span) : Prop := ∀ r, s = some r → r.1 < r.2

theorem Proper.spanCover (h : Proper a) (h' : Proper b) : Proper (spanCover a b) := by
  cases a with
  | none => exact h'
  | some a =>
    cases b with
    | none => exact h
    | some b =>
      intro r hr
      rw [← Option.some.inj hr]
      exact (min_le_left _ _).trans_lt ((h a rfl).trans_le (le_max_left _ _))

theorem coverage_nonneg (s : Option Span) (i : ℕ) : 0 ≤ coverage s i := by
  unfold coverage
  split
  · exact le_rfl
  · split <;> decide

theorem coverage_some {r : Span} : coverage (some r) i = 1 ↔ r.1 ≤ i ∧ i < r.2 := by
  unfold coverage
  by_cases h : r.1 ≤ i ∧ i < r.2
  · simp [h]
  · simp [h]

theorem coverage_mono (h : SpanIn s t) (hi : coverage s i = 1) : coverage t i = 1 := by
  cases s with
  | none => exact absurd hi (by simp [coverage])
  | some s =>
    cases t with
    | none => exact absurd h id
    | some t =>
      have hs := coverage_some.mp hi
      exact coverage_some.mpr ⟨h.1.trans hs.1, hs.2.trans_le h.2⟩

theorem frontierSpan_eq_some {eps : Bool} {fspan : Option Span} {cspan : ℕ → ℤ} {r : Span}
    (h : frontierSpan eps fspan cspan = some r) :
    fspan = some r ∧ ∀ i, coverage fspan i = 1 → cspan i ≤ 0 := by
  cases fspan with
  | none => simp [frontierSpan] at h
  | some q =>
    by_cases hall : ((List.range' q.1 (q.2 - q.1)).all fun i => cspan i ≤ 0) = true
    · simp only [frontierSpan, hall, if_true] at h
      refine ⟨h, ?_⟩
      intro i hi
      rw [List.all_eq_true] at hall
      have hin := coverage_some.mp hi
      have hmem : i ∈ List.range' q.1 (q.2 - q.1) := List.mem_range'_1.mpr ⟨hin.1, by omega⟩
      exact of_decide_eq_true (hall i hmem)
    · simp only [frontierSpan, hall] at h
      cases h

end Spans

section Nested

/-- The spans of the children of every node lie in that of the node. -/
def Nodes.Nested (outer : Option Span) : Nodes Attr → Prop
  | nil => True
  | node attr children rest => SpanIn attr.fspan outer ∧ Proper attr.fspan ∧
      children.Nested attr.fspan ∧ rest.Nested outer

theorem Nodes.Nested.mono {outer outer' : Option Span} {ts : Nodes Attr} (h : ts.Nested outer)
    (hin : SpanIn outer outer') : ts.Nested outer' := by
  induction ts with
  | nil => trivial
  | node attr children rest _ ih => exact ⟨h.1.trans hin, h.2.1, h.2.2.1, ih h.2.2.2⟩

variable {fspane : List (Option Span)} {whole : Option Span}

/-- `set_spans` covers the children, and stays within what covers every word of the yield. -/
theorem Nodes.setSpans_nested (hfspane : ∀ s ∈ fspane, SpanIn s whole ∧ Proper s) (ts : Nodes Attr) :
    ∀ (epos : ℕ) (span : Option Span), SpanIn span whole → Proper span →
      (ts.setSpans fspane epos span).1.Nested (ts.setSpans fspane epos span).2.1 ∧
        SpanIn span (ts.setSpans fspane epos span).2.1 ∧
        SpanIn (ts.setSpans fspane epos span).2.1 whole ∧
        Proper (ts.setSpans fspane epos span).2.1 := by
  have hgetD : ∀ epos, SpanIn (fspane.getD epos none) whole ∧ Proper (fspane.getD epos none) := by
    intro epos
    by_cases hlt : epos < fspane.length
    · rw [List.getD_eq_getElem _ _ hlt]
      exact hfspane _ (List.getElem_mem hlt)
    · rw [List.getD_eq_default _ _ (not_lt.mp hlt)]
      exact ⟨trivial, nofun⟩
  induction ts with
  | nil =>
    intro epos span hin hproper
    exact ⟨trivial, SpanIn.refl _, hin, hproper⟩
  | node attr children rest ihc ihr =>
    intro epos span hin hproper
    cases children with
    | nil =>
      obtain ⟨hword, hproper'⟩ := hgetD epos
      obtain ⟨hnested, hcover, hwhole, hp⟩ := ihr (epos + 1)
        (spanCover span (fspane.getD epos none)) (spanCover_in hin hword)
        (hproper.spanCover hproper')
      exact ⟨⟨(spanIn_spanCover_right _ _).trans hcover, hproper', trivial, hnested⟩,
        (spanIn_spanCover_left _ _).trans hcover, hwhole, hp⟩
    | node a c r =>
      obtain ⟨hchildren, _, hword, hproper'⟩ := ihc epos none trivial nofun
      generalize hset : (Nodes.node a c r).setSpans fspane epos none = found at *
      obtain ⟨children', fspan, epos'⟩ := found
      obtain ⟨hnested, hcover, hwhole, hp⟩ := ihr epos' (spanCover span fspan)
        (spanCover_in hin hword) (hproper.spanCover hproper')
      have hunfold : (Nodes.node attr (Nodes.node a c r) rest).setSpans fspane epos span =
          (Nodes.node { attr with fspan := fspan } children'
            (rest.setSpans fspane epos' (spanCover span fspan)).1,
            (rest.setSpans fspane epos' (spanCover span fspan)).2.1,
            (rest.setSpans fspane epos' (spanCover span fspan)).2.2) := by
        rw [Nodes.setSpans]
        simp only [hset]
      rw [hunfold]
      exact ⟨⟨(spanIn_spanCover_right _ _).trans hcover, hproper', hchildren, hnested⟩,
        (spanIn_spanCover_left _ _).trans hcover, hwhole, hp⟩

theorem spanCoverPoints_spec {points : List ℕ} {n : ℕ} (h : ∀ p ∈ points, p < n) :
    SpanIn (spanCoverPoints points) (some (0, n)) ∧ Proper (spanCoverPoints points) := by
  unfold spanCoverPoints
  cases hmin : points.min? with
  | none => exact ⟨trivial, nofun⟩
  | some a =>
    cases hmax : points.max? with
    | none => exact ⟨trivial, nofun⟩
    | some b =>
      have hb := List.max?_mem hmax
      have hle : b ≤ b := le_rfl
      have hab : a ≤ b := ((List.le_min?_iff hmin).mp le_rfl) b hb
      refine ⟨⟨Nat.zero_le _, h b hb⟩, ?_⟩
      intro r hr
      rw [← Option.some.inj hr]
      exact Nat.lt_succ_of_le hab

/-- The children of the top node cover words of the sentence only. -/
theorem Translation.spanned_nested (x : Translation) :
    x.spanned.children.Nested (some (0, x.f.length)) := by
  have hspanadje : ∀ s ∈ x.spanadje, SpanIn s (some (0, x.f.length)) ∧ Proper s := by
    intro s hs
    obtain ⟨points, hpoints, rfl⟩ := List.mem_map.mp hs
    obtain ⟨e, _, rfl⟩ := List.mem_map.mp hpoints
    apply spanCoverPoints_spec
    intro p hp
    obtain ⟨pair, hpair, rfl⟩ := List.mem_map.mp hp
    exact (x.bounded pair (List.mem_of_mem_filter hpair)).2
  unfold spanned Node.setSpans
  split
  · trivial
  · rename_i a c r hchildren
    have h := Nodes.setSpans_nested hspanadje
      (x.etree.map fun label => ({ label := label } : Attr)).children 0 none trivial nofun
    exact h.1.mono h.2.2.1

end Nested

end Carmel.Gextract
