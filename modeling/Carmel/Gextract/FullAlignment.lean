/-
# The full alignment of a derivation

`full_alignment` visits the nodes with spans, each after the nodes below it, and links all
English and foreign words of the node that no node before it has marked. So two words are
linked when they belong to one node.
-/

import Carmel.Gextract.DerivationSpans

namespace Carmel.Gextract

section Code

/-- `set_espan` for the children of a node: the interval of the yield below each. -/
def Nodes.setEspan : Nodes Attr → ℕ → Nodes (Attr × Span) × ℕ
  | nil, ebase => (nil, ebase)
  | node attr children rest, ebase =>
    let (children', ep) :=
      match children with
      | nil => (nil, ebase + 1)
      | node .. => children.setEspan ebase
    let (rest', e) := rest.setEspan ep
    (node (attr, ebase, ep) children' rest', e)

/-- `set_espans` -/
def Node.setEspan (t : Node Attr) : Node (Attr × Span) :=
  match t.children with
  | .nil => ⟨(t.attr, 0, 1), .nil⟩
  | .node .. => ⟨(t.attr, 0, (t.children.setEspan 0).2), (t.children.setEspan 0).1⟩

/-- The words of a span that are not marked, and the marks with them. -/
def spanPointsFresh (s : Span) (marks : ℕ → Bool) : List ℕ × (ℕ → Bool) :=
  (List.range' s.1 (s.2 - s.1)).foldl (fun r i =>
    if r.2 i then r else (r.1 ++ [i], Function.update r.2 i true)) ([], marks)

/-- The alignment so far, and the words that belong to some node. -/
structure Marks where
  efpairs : List (ℕ × ℕ)
  emarks : ℕ → Bool
  fmarks : ℕ → Bool

/-- One node of `full_align`: `fully_connect` for the words that are new. -/
def connect (s : Marks) (a : Attr × Span) : Marks :=
  match a.1.span with
  | none => s
  | some span =>
    let (es, emarks) := spanPointsFresh a.2 s.emarks
    let (fs, fmarks) := spanPointsFresh span s.fmarks
    ⟨s.efpairs ++ es.flatMap fun e => fs.map fun f => (e, f), emarks, fmarks⟩

/-- `full_align` for the children of a node. -/
def Nodes.fullAlign : Nodes (Attr × Span) → Marks → Marks
  | nil, s => s
  | node a children rest, s => rest.fullAlign (connect (children.fullAlign s) a)

def Node.fullAlign (t : Node (Attr × Span)) (s : Marks) : Marks :=
  connect (t.children.fullAlign s) t.attr

/-- `full_alignment`. The top node has to have a span. -/
def Translation.fullAlignment (x : Translation) (leavesAreFrontier : Bool) :
    Option (List (ℕ × ℕ)) :=
  let t := x.ghkm leavesAreFrontier false
  if t.attr.span = none then none
  else some (t.setEspan.fullAlign ⟨[], fun _ => false, fun _ => false⟩).efpairs

end Code

section Postorder

variable {α : Type*} {ts : Nodes α} {up u : Addr} {k : ℕ}

/-- The attributes of the nodes with their addresses, in postorder. -/
def Nodes.postAttrs (up : Addr) : ℕ → Nodes α → List (Addr × α)
  | _, nil => []
  | k, node attr children rest =>
    children.postAttrs (k :: up) 0 ++ (k :: up, attr) :: rest.postAttrs up (k + 1)

def Node.postAttrs (t : Node α) : List (Addr × α) := t.children.postAttrs [] 0 ++ [([], t.attr)]

theorem Nodes.mem_postAttrs_iff {a : α} :
    (u, a) ∈ ts.postAttrs up k ↔ ∃ n, (u, n) ∈ ts.entries up k ∧ n.attr = a := by
  induction ts generalizing up k with
  | nil => simp [postAttrs, entries]
  | node attr children rest ihc ihr =>
    simp only [postAttrs, entries, List.mem_append, List.mem_cons, ihc, ihr, or_and_right,
      exists_or, Prod.mk.injEq]
    constructor
    · rintro (h | ⟨rfl, rfl⟩ | h)
      · exact Or.inr (Or.inl h)
      · exact Or.inl ⟨_, ⟨rfl, rfl⟩, rfl⟩
      · exact Or.inr (Or.inr h)
    · rintro (⟨n, ⟨rfl, rfl⟩, rfl⟩ | h | h)
      · exact Or.inr (Or.inl ⟨rfl, rfl⟩)
      · exact Or.inl h
      · exact Or.inr (Or.inr h)

theorem Node.mem_postAttrs_iff {t : Node α} {a : α} :
    (u, a) ∈ t.postAttrs ↔ ∃ n, t.subtree u = some n ∧ n.attr = a := by
  rw [postAttrs, List.mem_append, List.mem_singleton, Nodes.mem_postAttrs_iff, Prod.mk.injEq]
  simp only [← mem_entries_iff, entries, List.mem_cons, or_and_right, exists_or, Prod.mk.injEq]
  constructor
  · rintro (h | ⟨rfl, rfl⟩)
    · exact Or.inr h
    · exact Or.inl ⟨t, ⟨rfl, rfl⟩, rfl⟩
  · rintro (⟨n, ⟨rfl, rfl⟩, rfl⟩ | h)
    · exact Or.inr ⟨rfl, rfl⟩
    · exact Or.inl h

/-- No node comes before one at or below it. -/
theorem Nodes.pairwise_postAttrs (ts : Nodes α) (up : Addr) (k : ℕ) :
    (ts.postAttrs up k).Pairwise fun p q => ¬ p.1 <:+ q.1 := by
  have hsuffix : ∀ (ts : Nodes α) (up : Addr) (k : ℕ), ∀ p ∈ ts.postAttrs up k,
      ∃ j, k ≤ j ∧ (j :: up) <:+ p.1 := by
    intro ts up k p hp
    obtain ⟨n, hn, -⟩ := mem_postAttrs_iff.mp (show (p.1, p.2) ∈ ts.postAttrs up k from hp)
    exact exists_suffix_of_mem_entries hn
  induction ts generalizing up k with
  | nil => exact List.Pairwise.nil
  | node attr children rest ihc ihr =>
    rw [postAttrs, List.pairwise_append]
    refine ⟨ihc _ _, List.pairwise_cons.mpr ⟨?_, ihr _ _⟩, ?_⟩
    · intro q hq h
      obtain ⟨j, hle, hj⟩ := hsuffix rest up (k + 1) q hq
      have := place_eq_of_suffix h hj
      omega
    · intro p hp q hq h
      obtain ⟨i, -, hi⟩ := hsuffix children (k :: up) 0 p hp
      rcases List.mem_cons.mp hq with rfl | hq
      · have hlen : (i :: k :: up).length ≤ (k :: up).length := (hi.trans h).length_le
        rw [List.length_cons] at hlen
        omega
      · obtain ⟨j, hle, hj⟩ := hsuffix rest up (k + 1) q hq
        have := place_eq_of_suffix (((List.suffix_cons _ _).trans hi).trans h) hj
        omega

theorem Node.pairwise_postAttrs (t : Node α) :
    t.postAttrs.Pairwise fun p q => ¬ p.1 <:+ q.1 := by
  rw [postAttrs, List.pairwise_append]
  refine ⟨t.children.pairwise_postAttrs [] 0, List.pairwise_singleton _ _, ?_⟩
  intro p hp q hq h
  rw [List.mem_singleton.mp hq] at h
  obtain ⟨n, hn, -⟩ := Nodes.mem_postAttrs_iff.mp
    (show (p.1, p.2) ∈ t.children.postAttrs [] 0 from hp)
  obtain ⟨j, -, hj⟩ := Nodes.exists_suffix_of_mem_entries hn
  have := (hj.trans h).length_le
  exact absurd this (by simp)

end Postorder

section Marking

theorem foldl_fresh (l : List ℕ) (r : List ℕ × (ℕ → Bool)) (i : ℕ) :
    (i ∈ (l.foldl (fun r i =>
        if r.2 i then r else (r.1 ++ [i], Function.update r.2 i true)) r).1 ↔
      i ∈ r.1 ∨ i ∈ l ∧ r.2 i = false) ∧
    ((l.foldl (fun r i =>
        if r.2 i then r else (r.1 ++ [i], Function.update r.2 i true)) r).2 i = true ↔
      i ∈ l ∨ r.2 i = true) := by
  induction l generalizing r with
  | nil => simp
  | cons j l ih =>
    rw [List.foldl_cons]
    obtain ⟨hmem, hmark⟩ := ih (if r.2 j then r else (r.1 ++ [j], Function.update r.2 j true))
    rw [hmem, hmark]
    by_cases hj : r.2 j = true
    · rw [if_pos hj]
      by_cases hij : i = j
      · rw [hij]
        simp [hj]
      · simp [hij]
    · rw [if_neg hj]
      by_cases hij : i = j
      · rw [hij]
        simp [hj]
      · simp [hij]

theorem mem_spanPointsFresh {s : Span} {marks : ℕ → Bool} {i : ℕ} :
    i ∈ (spanPointsFresh s marks).1 ↔ InSpan s i ∧ marks i = false := by
  rw [spanPointsFresh, (foldl_fresh _ _ _).1, List.mem_range'_1, InSpan]
  have hrange : s.1 ≤ i ∧ i < s.1 + (s.2 - s.1) ↔ s.1 ≤ i ∧ i < s.2 := by omega
  rw [hrange]
  simp

theorem spanPointsFresh_marks {s : Span} {marks : ℕ → Bool} {i : ℕ} :
    (spanPointsFresh s marks).2 i = true ↔ InSpan s i ∨ marks i = true := by
  rw [spanPointsFresh, (foldl_fresh _ _ _).2, List.mem_range'_1, InSpan]
  have hrange : s.1 ≤ i ∧ i < s.1 + (s.2 - s.1) ↔ s.1 ≤ i ∧ i < s.2 := by omega
  rw [hrange]

/-- A node has an English word, or a foreign word, if it has a span and covers it. -/
def HasE (a : Attr × Span) (e : ℕ) : Prop := a.1.span ≠ none ∧ InSpan a.2 e

def HasF (a : Attr × Span) (f : ℕ) : Prop := ∃ r, a.1.span = some r ∧ InSpan r f

/-- One node links what it has and nobody had before. -/
theorem mem_connect {s : Marks} {a : Attr × Span} {e f : ℕ} :
    ((e, f) ∈ (connect s a).efpairs ↔ (e, f) ∈ s.efpairs ∨
      (HasE a e ∧ s.emarks e = false) ∧ HasF a f ∧ s.fmarks f = false) ∧
    ((connect s a).emarks e = false ↔ s.emarks e = false ∧ ¬ HasE a e) ∧
    ((connect s a).fmarks f = false ↔ s.fmarks f = false ∧ ¬ HasF a f) := by
  unfold connect HasE HasF
  cases hspan : a.1.span with
  | none => simp
  | some r =>
    have hmarks : ∀ (s : Span) (marks : ℕ → Bool) (i : ℕ),
        (spanPointsFresh s marks).2 i = false ↔ marks i = false ∧ ¬ InSpan s i := by
      intro s marks i
      rw [← Bool.not_eq_true, spanPointsFresh_marks, not_or, Bool.not_eq_true, and_comm]
    simp only [List.mem_append, List.mem_flatMap, List.mem_map, Prod.mk.injEq, hmarks]
    refine ⟨or_congr_right ?_, ?_, ?_⟩
    · constructor
      · rintro ⟨e', he', f', hf', rfl, rfl⟩
        have he := mem_spanPointsFresh.mp he'
        have hf := mem_spanPointsFresh.mp hf'
        exact ⟨⟨⟨nofun, he.1⟩, he.2⟩, ⟨r, rfl, hf.1⟩, hf.2⟩
      · rintro ⟨⟨⟨-, he⟩, hemark⟩, ⟨r', hr', hf⟩, hfmark⟩
        rw [← Option.some.inj hr'] at hf
        exact ⟨e, mem_spanPointsFresh.mpr ⟨he, hemark⟩, f, mem_spanPointsFresh.mpr ⟨hf, hfmark⟩,
          rfl, rfl⟩
    · simp
    · simp

/-- A link is made by the first node that has its English word, if this is the first that has
its foreign word. -/
theorem mem_foldl_connect (as : List (Attr × Span)) (s : Marks) (e f : ℕ) :
    (e, f) ∈ (as.foldl connect s).efpairs ↔ (e, f) ∈ s.efpairs ∨
      s.emarks e = false ∧ s.fmarks f = false ∧
        ∃ front a back, as = front ++ a :: back ∧ HasE a e ∧ HasF a f ∧
          ∀ b ∈ front, ¬ HasE b e ∧ ¬ HasF b f := by
  induction as generalizing s with
  | nil => simp
  | cons a as ih =>
    obtain ⟨hpairs, hemarks, hfmarks⟩ := mem_connect (s := s) (a := a) (e := e) (f := f)
    rw [List.foldl_cons, ih, hpairs, hemarks, hfmarks]
    constructor
    · rintro ((h | ⟨⟨he, hemark⟩, hf, hfmark⟩) | ⟨⟨hemark, he⟩, ⟨hfmark, hf⟩, front, b, back, rfl, hb⟩)
      · exact Or.inl h
      · exact Or.inr ⟨hemark, hfmark, [], a, as, rfl, he, hf, by simp⟩
      · refine Or.inr ⟨hemark, hfmark, a :: front, b, back, rfl, hb.1, hb.2.1, ?_⟩
        intro c hc
        rcases List.mem_cons.mp hc with rfl | hc
        · exact ⟨he, hf⟩
        · exact hb.2.2 c hc
    · rintro (h | ⟨hemark, hfmark, front, b, back, heq, he, hf, hfront⟩)
      · exact Or.inl (Or.inl h)
      · cases front with
        | nil =>
          obtain ⟨rfl, rfl⟩ := List.cons.inj heq
          exact Or.inl (Or.inr ⟨⟨he, hemark⟩, hf, hfmark⟩)
        | cons c front =>
          obtain ⟨rfl, rfl⟩ := List.cons.inj heq
          obtain ⟨hce, hcf⟩ := hfront a List.mem_cons_self
          exact Or.inr ⟨⟨hemark, hce⟩, ⟨hfmark, hcf⟩, front, b, back, rfl, he, hf,
            fun d hd => hfront d (List.mem_cons_of_mem _ hd)⟩

theorem Nodes.fullAlign_eq (ts : Nodes (Attr × Span)) (up : Addr) (k : ℕ) (s : Marks) :
    ts.fullAlign s = ((ts.postAttrs up k).map Prod.snd).foldl connect s := by
  induction ts generalizing up k s with
  | nil => rfl
  | node a children rest ihc ihr =>
    rw [fullAlign, postAttrs, List.map_append, List.map_cons, List.foldl_append, List.foldl_cons,
      ← ihc, ← ihr]

theorem Node.fullAlign_eq (t : Node (Attr × Span)) (s : Marks) :
    t.fullAlign s = (t.postAttrs.map Prod.snd).foldl connect s := by
  rw [fullAlign, Nodes.fullAlign_eq _ [] 0, postAttrs, List.map_append, List.foldl_append]
  rfl

end Marking

section Espan

variable {up u : Addr} {k : ℕ}

theorem Nodes.postAttrs_map {α β : Type*} (f : α → β) (ts : Nodes α) (up : Addr) (k : ℕ) :
    (ts.map f).postAttrs up k = (ts.postAttrs up k).map fun p => (p.1, f p.2) := by
  induction ts generalizing up k with
  | nil => rfl
  | node attr children rest ihc ihr =>
    rw [map, postAttrs, postAttrs, ihc, ihr, List.map_append, List.map_cons]

theorem Nodes.map_fst_setEspan (ts : Nodes Attr) :
    ∀ ebase, (ts.setEspan ebase).1.map Prod.fst = ts := by
  induction ts with
  | nil => exact fun _ => rfl
  | node attr children rest ihc ihr =>
    intro ebase
    cases children with
    | nil => simp only [setEspan, map, ihr]
    | node a c r =>
      have hchildren := ihc ebase
      rw [setEspan]
      simp only [map] at hchildren ⊢
      rw [hchildren, ihr]

/-- The places of a part of the yield. -/
theorem inSpan_iff_yieldAligned {leaves : List Addr} (ebase e : ℕ) (h : ∀ l ∈ leaves, u <:+ l) :
    InSpan (ebase, ebase + leaves.length) e ↔
      YieldAligned (fun e j => e = j) (leaves.zipIdx ebase) u e := by
  constructor
  · intro ⟨hle, hlt⟩
    have hlen : e - ebase < leaves.length := by
      have hlt' : e < ebase + leaves.length := hlt
      have hle' : ebase ≤ e := hle
      omega
    refine ⟨(leaves[e - ebase], e), ?_, h _ (List.getElem_mem hlen), rfl⟩
    rw [List.mk_mem_zipIdx_iff_le_and_getElem?_sub]
    exact ⟨hle, List.getElem?_eq_getElem hlen⟩
  · intro ⟨q, hq, _, heq⟩
    have hle := List.le_snd_of_mem_zipIdx hq
    have hlt := List.snd_lt_of_mem_zipIdx hq
    rw [heq] at hle hlt
    exact ⟨hle, by rw [Nat.add_comm]; exact hlt⟩

/-- **`set_espan`**: the interval of a node is that of the terminals at or below it. -/
theorem Nodes.setEspan_spec (ts : Nodes Attr) :
    ∀ (up : Addr) (k ebase : ℕ), (ts.setEspan ebase).2 = ebase + (ts.leaves up k).length ∧
      ∀ p ∈ (ts.setEspan ebase).1.postAttrs up k, ∀ e, InSpan p.2.2 e ↔
        YieldAligned (fun e j => e = j) ((ts.leaves up k).zipIdx ebase) p.1 e := by
  induction ts with
  | nil => exact fun _ _ _ => ⟨rfl, by simp [setEspan, postAttrs]⟩
  | node attr children rest ihc ihr =>
    intro up k ebase
    obtain ⟨children', hunfold, hbelow⟩ :
        ∃ children' : Nodes (Attr × Span), (node attr children rest).setEspan ebase =
            (node (attr, ebase, ebase + (children.childLeaves up k).length) children'
              (rest.setEspan (ebase + (children.childLeaves up k).length)).1,
              (rest.setEspan (ebase + (children.childLeaves up k).length)).2) ∧
          ∀ p ∈ children'.postAttrs (k :: up) 0, ∀ e, InSpan p.2.2 e ↔
            YieldAligned (fun e j => e = j) ((children.childLeaves up k).zipIdx ebase) p.1 e := by
      cases children with
      | nil => exact ⟨nil, rfl, by simp [postAttrs]⟩
      | node a c r =>
        obtain ⟨hend, hbelow⟩ := ihc (k :: up) 0 ebase
        refine ⟨_, ?_, hbelow⟩
        rw [setEspan]
        simp only [hend]
        rfl
    obtain ⟨hend, hrest⟩ := ihr up (k + 1) (ebase + (children.childLeaves up k).length)
    have hzip : ((node attr children rest).leaves up k).zipIdx ebase =
        (children.childLeaves up k).zipIdx ebase ++
          (rest.leaves up (k + 1)).zipIdx (ebase + (children.childLeaves up k).length) := by
      rw [leaves_cons, ← List.zipIdx_append]
      rfl
    have hlater : ∀ l ∈ rest.leaves up (k + 1), ∃ i ≠ k, (i :: up) <:+ l := by
      intro l hl
      obtain ⟨j, hle, hj⟩ := exists_suffix_of_mem_leaves hl
      exact ⟨j, by omega, hj⟩
    have hsuffix : ∀ {ts : Nodes (Attr × Span)} {up : Addr} {k : ℕ}, ∀ p ∈ ts.postAttrs up k,
        ∃ j, k ≤ j ∧ (j :: up) <:+ p.1 := by
      intro ts up k p hp
      obtain ⟨n, hn, -⟩ := mem_postAttrs_iff.mp (show (p.1, p.2) ∈ ts.postAttrs up k from hp)
      exact exists_suffix_of_mem_entries hn
    rw [hunfold, hzip]
    refine ⟨?_, ?_⟩
    · rw [hend, leaves_cons, List.length_append, ← Nat.add_assoc]
      rfl
    · intro p hp e
      rw [yieldAligned_append]
      rcases List.mem_append.mp hp with hp | hp
      · obtain ⟨i, -, hi⟩ := hsuffix p hp
        rw [or_iff_left (not_yieldAligned ((List.suffix_cons _ _).trans hi) hlater)]
        exact hbelow p hp e
      · rcases List.mem_cons.mp hp with rfl | hp
        · rw [or_iff_left (not_yieldAligned List.suffix_rfl hlater)]
          exact inSpan_iff_yieldAligned ebase e fun l hl => suffix_of_mem_childLeaves hl
        · obtain ⟨i, hle, hi⟩ := hsuffix p hp
          rw [or_iff_right (not_yieldAligned hi fun l hl =>
            ⟨k, by omega, suffix_of_mem_childLeaves hl⟩)]
          exact hrest p hp e

theorem Node.map_fst_setEspan (t : Node Attr) : t.setEspan.map Prod.fst = t := by
  obtain ⟨attr, children⟩ := t
  cases children with
  | nil => rfl
  | node a c r => exact congrArg (Node.mk attr) (Nodes.map_fst_setEspan _ 0)

/-- The nodes visited are those of the tree. -/
theorem Node.mem_postAttrs_setEspan {t : Node Attr} {a : Attr} :
    (u, a) ∈ t.postAttrs ↔ ∃ p ∈ t.setEspan.postAttrs, p.1 = u ∧ p.2.1 = a := by
  have hmap : t.postAttrs = t.setEspan.postAttrs.map fun p => (p.1, p.2.1) := by
    conv_lhs => rw [← t.map_fst_setEspan]
    rw [postAttrs, map, Nodes.postAttrs_map, postAttrs, List.map_append]
    rfl
  rw [hmap, List.mem_map]
  simp only [Prod.mk.injEq]

theorem Node.setEspan_spec (t : Node Attr) : ∀ p ∈ t.setEspan.postAttrs, ∀ e, InSpan p.2.2 e ↔
    YieldAligned (fun e j => e = j) t.leaves.zipIdx p.1 e := by
  obtain ⟨attr, children⟩ := t
  cases children with
  | nil =>
    intro p hp e
    rw [List.mem_singleton.mp hp]
    have hleaf : ∀ l ∈ [([] : Addr)], [] <:+ l := fun l _ => List.nil_suffix
    exact inSpan_iff_yieldAligned 0 e hleaf
  | node a c r =>
    intro p hp e
    obtain ⟨hend, hbelow⟩ := (Nodes.node a c r).setEspan_spec [] 0 0
    rcases List.mem_append.mp hp with hp | hp
    · exact hbelow p hp e
    · rw [List.mem_singleton.mp hp]
      have hleaf : ∀ l ∈ (Nodes.node a c r).leaves [] 0, [] <:+ l := fun l _ => List.nil_suffix
      have h := inSpan_iff_yieldAligned 0 e hleaf
      rw [← hend] at h
      exact h

end Espan

namespace Translation

variable {x : Translation} {leaves : Bool} {u v : Addr} {i : ℕ} {r : Span}

theorem leaves_ghkm_eq (x : Translation) (leaves : Bool) :
    (x.ghkm leaves false).leaves = x.etree.leaves := by
  cases leaves with
  | true => exact x.leaves_ghkm
  | false =>
    have hghkm : x.ghkm false false =
        (x.ghkm true false).mapTerminals fun attr => { attr with span := none } := rfl
    have hmap := Node.map_mapTerminals (g := fun _ : Attr => ())
      (f := fun attr => { attr with span := none }) (fun _ => rfl) (x.ghkm true false)
    rw [hghkm, ← x.leaves_ghkm, ← Node.leaves_map (fun _ => ()), hmap, Node.leaves_map]

theorem inSpan_iff (hu : u ≠ []) (h : x.spanAt leaves u = some r) :
    InSpan r i ↔ Between (x.Aligned u) i := by
  rw [← ((spanAt_eq_some_iff hu).mp h).2.1.coverage_iff, coverage_some]
  rfl

theorem not_covers_of_beside (hbeside : Beside u v) (hu : Covers (x.spanAt leaves) i u) :
    ¬ Covers (x.spanAt leaves) i v := by
  intro ⟨s, hs, hvi⟩
  obtain ⟨r, hr, hui⟩ := hu
  have hu0 : u ≠ [] := fun h => hbeside.1 (h ▸ List.nil_suffix)
  have hv0 : v ≠ [] := fun h => hbeside.2 (h ▸ List.nil_suffix)
  exact ((spanAt_eq_some_iff hu0).mp hr).2.2 v hbeside i ((inSpan_iff hu0 hr).mp hui)
    ((inSpan_iff hv0 hs).mp hvi)

/-- The leaf and the word belong to one node. -/
def Linked (x : Translation) (leaves : Bool) (l : Addr) (f : ℕ) : Prop :=
  ∃ m, Lowest (x.spanAt leaves) (· <:+ l) m ∧ Lowest (x.spanAt leaves) (Covers (x.spanAt leaves) f) m

/-- **`full_alignment`** links a leaf and a word if they belong to one node. -/
theorem mem_fullAlignment {pairs : List (ℕ × ℕ)} (h : x.fullAlignment leaves = some pairs)
    (e f : ℕ) : (e, f) ∈ pairs ↔ ∃ l, x.etree.leaves[e]? = some l ∧ x.Linked leaves l f := by
  have hghkm := x.leaves_ghkm_eq leaves
  have hspanAt : x.spanAt leaves = fun u =>
      ((x.ghkm leaves false).subtree u).bind fun n => n.attr.span := rfl
  unfold fullAlignment at h
  generalize x.ghkm leaves false = t at h hghkm hspanAt
  rw [← hghkm]
  by_cases hroot : t.attr.span = none
  · rw [if_pos hroot] at h
    cases h
  rw [if_neg hroot] at h
  rw [← Option.some.inj h, Node.fullAlign_eq, mem_foldl_connect]
  -- the nodes visited, and what they have
  have hnode : ∀ p ∈ t.setEspan.postAttrs, p.2.1.span = x.spanAt leaves p.1 := by
    intro p hp
    obtain ⟨n, hn, hattr⟩ :=
      Node.mem_postAttrs_iff.mp (Node.mem_postAttrs_setEspan.mpr ⟨p, hp, rfl, rfl⟩)
    rw [hspanAt, ← hattr]
    simp only [hn, Option.bind_some]
  have hvisited : ∀ m, x.spanAt leaves m ≠ none → ∃ p ∈ t.setEspan.postAttrs, p.1 = m := by
    intro m hm
    rw [hspanAt] at hm
    obtain ⟨n, hn⟩ : ∃ n, t.subtree m = some n := by
      cases hn : t.subtree m with
      | none => exact absurd (by simp only [hn, Option.bind_none]) hm
      | some n => exact ⟨n, rfl⟩
    obtain ⟨p, hp, hpm, -⟩ :=
      Node.mem_postAttrs_setEspan.mp (Node.mem_postAttrs_iff.mpr ⟨n, hn, rfl⟩)
    exact ⟨p, hp, hpm⟩
  have hasE : ∀ p ∈ t.setEspan.postAttrs, HasE p.2 e ↔
      x.spanAt leaves p.1 ≠ none ∧ ∃ l, t.leaves[e]? = some l ∧ p.1 <:+ l := by
    intro p hp
    rw [HasE, hnode p hp, t.setEspan_spec p hp e]
    refine and_congr_right fun _ => ?_
    constructor
    · intro ⟨q, hq, hsuffix, heq⟩
      rw [List.mem_zipIdx_iff_getElem?, heq] at hq
      exact ⟨q.1, hq, hsuffix⟩
    · intro ⟨l, hl, hsuffix⟩
      exact ⟨(l, e), List.mem_zipIdx_iff_getElem?.mpr hl, hsuffix, rfl⟩
  have hasF : ∀ p ∈ t.setEspan.postAttrs, HasF p.2 f ↔ Covers (x.spanAt leaves) f p.1 := by
    intro p hp
    rw [HasF, hnode p hp]
    rfl
  have hpairwise := t.setEspan.pairwise_postAttrs
  generalize t.setEspan.postAttrs = visited at hnode hvisited hasE hasF hpairwise
  simp only [List.not_mem_nil, false_or, true_and]
  constructor
  · intro ⟨front, a, back, heq, he, hf, hfront⟩
    obtain ⟨front', rest, rfl, hfront', hrest⟩ := List.map_eq_append_iff.mp heq
    obtain ⟨p, back', rfl, rfl, -⟩ := List.map_eq_cons_iff.mp hrest
    have hp : p ∈ front' ++ p :: back' := by simp
    obtain ⟨hspan, l, hl, hsuffix⟩ := (hasE p hp).mp he
    -- a node strictly below comes before
    have hbefore : ∀ m', x.spanAt leaves m' ≠ none → p.1 <:+ m' → m' ≠ p.1 →
        ∃ q ∈ front', q.1 = m' := by
      intro m' hm' hbelow hne
      obtain ⟨q, hq, rfl⟩ := hvisited m' hm'
      rcases List.mem_append.mp hq with hq | hq
      · exact ⟨q, hq, rfl⟩
      · rcases List.mem_cons.mp hq with rfl | hq
        · exact absurd rfl hne
        · have hlater := (List.pairwise_cons.mp (List.pairwise_append.mp hpairwise).2.1).1 q hq
          exact absurd hbelow hlater
    refine ⟨l, hl, p.1, ⟨hspan, hsuffix, ?_⟩, ⟨hspan, (hasF p hp).mp hf, ?_⟩⟩
    · intro m' hm' hbelow hne hl'
      obtain ⟨q, hq, rfl⟩ := hbefore m' hm' hbelow hne
      have hnot := (hfront q.2 (hfront' ▸ List.mem_map_of_mem hq)).1
      exact hnot ((hasE q (List.mem_append_left _ hq)).mpr ⟨hm', l, hl, hl'⟩)
    · intro m' hm' hbelow hne hf'
      obtain ⟨q, hq, rfl⟩ := hbefore m' hm' hbelow hne
      have hnot := (hfront q.2 (hfront' ▸ List.mem_map_of_mem hq)).2
      exact hnot ((hasF q (List.mem_append_left _ hq)).mpr hf')
  · intro ⟨l, hl, m, hlowE, hlowF⟩
    obtain ⟨p, hp, rfl⟩ := hvisited m hlowE.span
    obtain ⟨front, back, rfl⟩ := List.append_of_mem hp
    refine ⟨front.map Prod.snd, p.2, back.map Prod.snd, by simp, (hasE p hp).mpr
      ⟨hlowE.span, l, hl, hlowE.has⟩, (hasF p hp).mpr hlowF.has, ?_⟩
    intro b hb
    obtain ⟨q, hq, rfl⟩ := List.mem_map.mp hb
    have hq' : q ∈ front ++ p :: back := List.mem_append_left _ hq
    have hnot : ¬ q.1 <:+ p.1 :=
      (List.pairwise_append.mp hpairwise).2.2 q hq p List.mem_cons_self
    have hne : q.1 ≠ p.1 := fun heq => hnot (heq ▸ List.suffix_rfl)
    constructor
    · intro he
      obtain ⟨hspan, l', hl', hsuffix⟩ := (hasE q hq').mp he
      rw [← Option.some.inj (hl.symm.trans hl')] at hsuffix
      rcases List.suffix_or_suffix_of_suffix hlowE.has hsuffix with hbelow | habove
      · exact hlowE.lowest q.1 hspan hbelow hne hsuffix
      · exact hnot habove
    · intro hf
      have hcovers := (hasF q hq').mp hf
      obtain ⟨r, hr, -⟩ := hcovers
      by_cases hbelow : p.1 <:+ q.1
      · exact hlowF.lowest q.1 (by rw [hr]; exact Option.some_ne_none r) hbelow hne
          ((hasF q hq').mp hf)
      · exact not_covers_of_beside ⟨hbelow, hnot⟩ hlowF.has ((hasF q hq').mp hf)

end Translation

end Carmel.Gextract
