/-
# Nodes by spans and spans by nodes

`spans_bynode` gives every node the interval of the leaves below it. `nodes_byspan` goes
down and moves on by the `length` of each child, which counts inner nodes too. With the
number of leaves in its place the two would be inverse views; with `length` they differ at
every root that has a child.
-/

import Carmel.Gextract.DerivationSpans

namespace Carmel.Gextract

variable {α : Type*}

section Code

/-- `length`, as `update_children` adds it up. -/
def Node.length (t : Node α) : ℕ := 1 + t.children.size

/-- `visit` of `nodes_byspan` over the children of `up` from the place `k`, the first of
them at `i`, with the spans in the order they are entered. A node takes `size` places. -/
def Nodes.visitSpans (size : Node α → ℕ) (up : Addr) : ℕ → ℕ → Nodes α → List (Span × Addr)
  | _, _, nil => []
  | k, i, node attr children rest =>
    ((i, i + size ⟨attr, children⟩), k :: up) :: (children.visitSpans size (k :: up) 0 i ++
        rest.visitSpans size up (k + 1) (i + size ⟨attr, children⟩))

def Node.visitSpans (size : Node α → ℕ) (t : Node α) : List (Span × Addr) :=
  ((0, size t), []) :: t.children.visitSpans size [] 0 0

/-- The nodes that are entered under a span. -/
def nodesAt (visits : List (Span × Addr)) (s : Span) : List Addr :=
  (visits.filter fun e => e.1 = s).map Prod.snd

/-- `nodes_byspan`. -/
def Node.nodesBySpan (t : Node α) : Span → List Addr := nodesAt (t.visitSpans Node.length)

/-- The children of `up` from the place `k` and the nodes below in postorder, each with its
address. -/
def Nodes.postEntries (up : Addr) : ℕ → Nodes α → List (Addr × Node α)
  | _, nil => []
  | k, node attr children rest =>
    children.postEntries (k :: up) 0 ++ (k :: up, ⟨attr, children⟩) :: rest.postEntries up (k + 1)

/-- `postorder`. -/
def Node.postEntries (t : Node α) : List (Addr × Node α) :=
  t.children.postEntries [] 0 ++ [([], t)]

/-- The variables of `spans_bynode`. -/
structure BynodeState where
  spans : Addr → Option Span
  nj : ℕ

/-- One round of the loop of `spans_bynode`. There is none when a child has no span. -/
def BynodeState.visit (s : BynodeState) (entry : Addr × Node α) : Option BynodeState :=
  match entry with
  | (u, ⟨_, .nil⟩) => some ⟨Function.update s.spans u (some (s.nj, s.nj + 1)), s.nj + 1⟩
  | (u, ⟨_, children⟩) => do
    let first ← s.spans (0 :: u)
    let last ← s.spans ((children.toList.length - 1) :: u)
    some ⟨Function.update s.spans u (some (first.1, last.2)), s.nj⟩

/-- `spans_bynode`. -/
def Node.spansByNode (t : Node α) : Option (Addr → Option Span) :=
  (t.postEntries.foldlM BynodeState.visit ⟨fun _ => none, 0⟩).map BynodeState.spans

end Code

/-- The nodes under `byspan s` are those with the span `s` in `bynode`, this is the interval
of the positions of the leaves below, and no node comes before one above it. -/
structure InverseViews (t : Node α) (byspan : Span → List Addr) (bynode : Addr → Option Span) :
    Prop where
  views : ∀ u ∈ t.addrs, ∀ s, u ∈ byspan s ↔ bynode u = some s
  interval : ∀ u ∈ t.addrs, ∀ s, bynode u = some s →
    ∀ p, s.1 ≤ p ∧ p < s.2 ↔ ∃ l, t.leaves[p]? = some l ∧ u <:+ l
  topDown : ∀ s, (byspan s).Pairwise fun u v => ¬ v <:+ u

section Down

variable {size : Node α → ℕ} {ts : Nodes α} {t : Node α} {up u : Addr} {k i : ℕ} {s : Span}

theorem Nodes.map_snd_visitSpans (size : Node α → ℕ) (ts : Nodes α) (up : Addr) (k i : ℕ) :
    (ts.visitSpans size up k i).map Prod.snd = ts.addrs up k := by
  induction ts generalizing up k i with
  | nil => rfl
  | node attr children rest ihc ihr =>
    rw [visitSpans, addrs, List.map_cons, List.map_append, ihc, ihr]

theorem Node.map_snd_visitSpans (size : Node α → ℕ) (t : Node α) :
    (t.visitSpans size).map Prod.snd = t.addrs := by
  rw [visitSpans, addrs, List.map_cons, Nodes.map_snd_visitSpans]

theorem mem_nodesAt {visits : List (Span × Addr)} :
    u ∈ nodesAt visits s ↔ (s, u) ∈ visits := by
  simp only [nodesAt, List.mem_map, List.mem_filter, decide_eq_true_eq]
  constructor
  · rintro ⟨⟨r, v⟩, ⟨hmem, rfl⟩, rfl⟩
    exact hmem
  · exact fun h => ⟨(s, u), ⟨h, rfl⟩, rfl⟩

variable (size) in
theorem Node.exists_visit (hu : u ∈ t.addrs) : ∃ s, (s, u) ∈ t.visitSpans size := by
  rw [← map_snd_visitSpans size] at hu
  rcases List.mem_map.mp hu with ⟨⟨s, v⟩, hmem, rfl⟩
  exact ⟨s, hmem⟩

theorem Nodes.pairwise_addrs (ts : Nodes α) (up : Addr) (k : ℕ) :
    (ts.addrs up k).Pairwise fun u v => ¬ v <:+ u := by
  induction ts generalizing up k with
  | nil => exact List.Pairwise.nil
  | node attr children rest ihc ihr =>
    rw [addrs, List.pairwise_cons]
    constructor
    · intro v hv hsuffix
      rcases List.mem_append.mp hv with hv | hv
      · rcases exists_suffix_of_mem_addrs hv with ⟨j, -, hj⟩
        have hle := (hj.trans hsuffix).length_le
        simp at hle
      · rcases exists_suffix_of_mem_addrs hv with ⟨j, hlt, hj⟩
        have heq := place_eq_of_suffix List.suffix_rfl (hj.trans hsuffix)
        omega
    · apply List.pairwise_append.mpr
      refine ⟨ihc _ _, ihr _ _, ?_⟩
      intro v hv w hw hsuffix
      rcases exists_suffix_of_mem_addrs hv with ⟨i, -, hi⟩
      rcases exists_suffix_of_mem_addrs hw with ⟨j, hlt, hj⟩
      have heq := place_eq_of_suffix ((List.suffix_cons _ _).trans hi) (hj.trans hsuffix)
      omega

theorem Node.pairwise_addrs (t : Node α) : t.addrs.Pairwise fun u v => ¬ v <:+ u := by
  rw [addrs, List.pairwise_cons]
  refine ⟨?_, t.children.pairwise_addrs _ _⟩
  intro v hv hsuffix
  rcases Nodes.exists_suffix_of_mem_addrs hv with ⟨j, -, hj⟩
  have hle := (hj.trans hsuffix).length_le
  simp at hle

/-- Nodes of one span are listed top-down, whatever a node takes. -/
theorem Node.pairwise_nodesAt (size : Node α → ℕ) (t : Node α) (s : Span) :
    (nodesAt (t.visitSpans size) s).Pairwise fun u v => ¬ v <:+ u := by
  have hsub : (nodesAt (t.visitSpans size) s).Sublist t.addrs := by
    rw [← map_snd_visitSpans size]
    exact List.filter_sublist.map _
  exact t.pairwise_addrs.sublist hsub

end Down

section Leaves

/-- The length of `frontier()`. -/
def Node.leafCount (t : Node α) : ℕ := t.yieldLabels.length

/-- The leaves at or below `u` are those at the positions of `s`, counted from `i`. -/
def LeafInterval (leaves : List Addr) (i : ℕ) (u : Addr) (s : Span) : Prop :=
  ∀ p, s.1 ≤ p ∧ p < s.2 ↔ ∃ q l, p = i + q ∧ leaves[q]? = some l ∧ u <:+ l

variable {ts : Nodes α} {t : Node α} {up u : Addr} {k i : ℕ} {s : Span} {xs ys : List Addr}

theorem LeafInterval.whole (h : ∀ l ∈ xs, u <:+ l) : LeafInterval xs i u (i, i + xs.length) := by
  intro p
  constructor
  · rintro ⟨hle, hlt⟩
    have hq : p - i < xs.length := by omega
    exact ⟨p - i, xs[p - i], by omega, List.getElem?_eq_getElem hq, h _ (List.getElem_mem hq)⟩
  · rintro ⟨q, l, rfl, hl, -⟩
    rcases List.getElem?_eq_some_iff.mp hl with ⟨hq, -⟩
    omega

theorem LeafInterval.append_right (hs : LeafInterval xs i u s) (h : ∀ l ∈ ys, ¬ u <:+ l) :
    LeafInterval (xs ++ ys) i u s := by
  intro p
  rw [hs p]
  constructor
  · rintro ⟨q, l, rfl, hl, hsuffix⟩
    have hq := (List.getElem?_eq_some_iff.mp hl).1
    exact ⟨q, l, rfl, by rw [List.getElem?_append_left hq, hl], hsuffix⟩
  · rintro ⟨q, l, rfl, hl, hsuffix⟩
    by_cases hq : q < xs.length
    · rw [List.getElem?_append_left hq] at hl
      exact ⟨q, l, rfl, hl, hsuffix⟩
    · rw [List.getElem?_append_right (by omega)] at hl
      exact absurd hsuffix (h l (List.mem_of_getElem? hl))

theorem LeafInterval.append_left (hs : LeafInterval ys (i + xs.length) u s)
    (h : ∀ l ∈ xs, ¬ u <:+ l) : LeafInterval (xs ++ ys) i u s := by
  intro p
  rw [hs p]
  constructor
  · rintro ⟨q, l, rfl, hl, hsuffix⟩
    refine ⟨xs.length + q, l, by omega, ?_, hsuffix⟩
    rw [List.getElem?_append_right (by omega), Nat.add_sub_cancel_left, hl]
  · rintro ⟨q, l, rfl, hl, hsuffix⟩
    by_cases hq : q < xs.length
    · rw [List.getElem?_append_left hq] at hl
      exact absurd hsuffix (h l (List.mem_of_getElem? hl))
    · rw [List.getElem?_append_right (by omega)] at hl
      exact ⟨q - xs.length, l, by omega, hl, hsuffix⟩

theorem Nodes.length_childLeaves (attr : α) (children : Nodes α) (up : Addr) (k : ℕ) :
    (children.childLeaves up k).length = Node.leafCount ⟨attr, children⟩ := by
  cases children with
  | nil => rfl
  | node a c r => exact length_leaves (node a c r) (k :: up) 0

theorem Nodes.yieldLabels_length_cons (attr : α) (children rest : Nodes α) :
    (node attr children rest).yieldLabels.length =
      Node.leafCount ⟨attr, children⟩ + rest.yieldLabels.length := by
  cases children with
  | nil => simp [yieldLabels, Node.leafCount, Node.yieldLabels, Nat.add_comm]
  | node a c r => rw [yieldLabels, List.length_append]; rfl

/-- The leaves below the later children are not below this one. -/
theorem Nodes.not_suffix_of_mem_leaves {l : Addr} (hl : l ∈ ts.leaves up (k + 1))
    (hu : (k :: up) <:+ u) : ¬ u <:+ l := by
  intro hsuffix
  rcases exists_suffix_of_mem_leaves hl with ⟨j, hlt, hj⟩
  have heq := place_eq_of_suffix (hu.trans hsuffix) hj
  omega

/-- With the number of leaves for `size`, every node is entered under the interval of its leaves. -/
theorem Nodes.leafInterval_of_visit (h : (s, u) ∈ ts.visitSpans Node.leafCount up k i) :
    LeafInterval (ts.leaves up k) i u s := by
  induction ts generalizing up k i with
  | nil => cases h
  | node attr children rest ihc ihr =>
    have hlen := length_childLeaves attr children up k
    have hleaves : (node attr children rest).leaves up k =
        children.childLeaves up k ++ rest.leaves up (k + 1) := leaves_cons ..
    rw [hleaves]
    rcases List.mem_cons.mp h with heq | h
    · rcases Prod.mk.inj heq with ⟨rfl, rfl⟩
      rw [← hlen]
      apply LeafInterval.append_right
      · exact LeafInterval.whole fun l hl => suffix_of_mem_childLeaves hl
      · exact fun l hl => not_suffix_of_mem_leaves hl List.suffix_rfl
    · rcases List.mem_append.mp h with h | h
      · have hu : u ∈ children.addrs (k :: up) 0 := by
          rw [← map_snd_visitSpans Node.leafCount children (k :: up) 0 i]
          exact List.mem_map_of_mem h
        rcases exists_suffix_of_mem_addrs hu with ⟨j, -, hj⟩
        have hbelow : (k :: up) <:+ u := (List.suffix_cons _ _).trans hj
        apply LeafInterval.append_right
        · cases children with
          | nil => cases h
          | node a c r => exact ihc h
        · exact fun l hl => not_suffix_of_mem_leaves hl hbelow
      · have hu : u ∈ rest.addrs up (k + 1) := by
          rw [← map_snd_visitSpans Node.leafCount rest up (k + 1) (i + Node.leafCount ⟨attr, children⟩)]
          exact List.mem_map_of_mem h
        rcases exists_suffix_of_mem_addrs hu with ⟨j, hlt, hj⟩
        apply LeafInterval.append_left
        · rw [hlen]
          exact ihr h
        · intro l hl hsuffix
          have heq := place_eq_of_suffix (suffix_of_mem_childLeaves hl) (hj.trans hsuffix)
          omega

theorem Node.leafInterval_of_visit (h : (s, u) ∈ t.visitSpans Node.leafCount) :
    LeafInterval t.leaves 0 u s := by
  have hall : LeafInterval t.leaves 0 [] (0, 0 + t.leaves.length) :=
    LeafInterval.whole fun l _ => List.nil_suffix
  rcases t with ⟨attr, children⟩
  cases children with
  | nil =>
    have heq := List.mem_singleton.mp h
    rcases Prod.mk.inj heq with ⟨rfl, rfl⟩
    exact hall
  | node a c r =>
    rcases List.mem_cons.mp h with heq | h
    · rcases Prod.mk.inj heq with ⟨rfl, rfl⟩
      have hlen : (Node.leaves ⟨attr, .node a c r⟩).length = Node.leafCount ⟨attr, .node a c r⟩ :=
        Nodes.length_leaves (.node a c r) [] 0
      rw [← hlen]
      simpa using hall
    · exact Nodes.leafInterval_of_visit h

end Leaves

section Up

variable {ts : Nodes α} {up u : Addr} {k i : ℕ}

/-- The last child ends where all of them do. -/
theorem Nodes.exists_last_visit (attr : α) (children rest : Nodes α) (up : Addr) (k i : ℕ) :
    ∃ j, ((j, i + (node attr children rest).yieldLabels.length),
      (k + (node attr children rest).toList.length - 1) :: up) ∈
        (node attr children rest).visitSpans Node.leafCount up k i := by
  induction rest generalizing attr children k i with
  | nil =>
    refine ⟨i, ?_⟩
    rw [yieldLabels_length_cons, visitSpans]
    exact List.mem_cons_self
  | node a c r _ ih =>
    rcases ih a c (k + 1) (i + Node.leafCount ⟨attr, children⟩) with ⟨j, hj⟩
    refine ⟨j, ?_⟩
    rw [yieldLabels_length_cons, visitSpans, ← Nat.add_assoc]
    apply List.mem_cons_of_mem
    apply List.mem_append_right
    have hplace : k + (node attr children (node a c r)).toList.length - 1 =
        k + 1 + (node a c r).toList.length - 1 := by
      rw [toList, List.length_cons]
      omega
    rw [hplace]
    exact hj

theorem BynodeState.visit_terminal (s : BynodeState) (u : Addr) (attr : α) :
    s.visit (u, ⟨attr, .nil⟩) =
      some ⟨Function.update s.spans u (some (s.nj, s.nj + 1)), s.nj + 1⟩ := rfl

theorem BynodeState.visit_inner {s : BynodeState} {u : Addr} {attr a : α} {c r : Nodes α}
    {first last : Span} (hfirst : s.spans (0 :: u) = some first)
    (hlast : s.spans (((Nodes.node a c r).toList.length - 1) :: u) = some last) :
    s.visit (u, ⟨attr, .node a c r⟩) =
      some ⟨Function.update s.spans u (some (first.1, last.2)), s.nj⟩ := by
  rw [visit]
  simp only [hfirst, hlast, Option.bind_eq_bind, Option.bind_some]
  intro heq
  cases heq

/-- What the rounds over some nodes, the first of their leaves at `s.nj`, do to the state. -/
structure BynodeState.Entered (s s' : BynodeState) (leaves : ℕ) (visits : List (Span × Addr)) :
    Prop where
  count : s'.nj = s.nj + leaves
  entered : ∀ r u, (r, u) ∈ visits → s'.spans u = some r
  frame : ∀ u, u ∉ visits.map Prod.snd → s'.spans u = s.spans u

theorem BynodeState.Entered.trans {s s' s'' : BynodeState} {m n : ℕ} {xs ys : List (Span × Addr)}
    (h : s.Entered s' m xs) (h' : s'.Entered s'' n ys)
    (hdisj : ∀ u ∈ xs.map Prod.snd, u ∉ ys.map Prod.snd) : s.Entered s'' (m + n) (xs ++ ys) where
  count := by rw [h'.count, h.count, Nat.add_assoc]
  entered := by
    intro r u hmem
    rcases List.mem_append.mp hmem with hmem | hmem
    · rw [h'.frame u (hdisj u (List.mem_map_of_mem hmem))]
      exact h.entered r u hmem
    · exact h'.entered r u hmem
  frame := by
    intro u hu
    rw [List.map_append, List.mem_append, not_or] at hu
    rw [h'.frame u hu.2, h.frame u hu.1]

theorem BynodeState.exists_visit {s s' : BynodeState} (attr : α) {children : Nodes α}
    (h : s.Entered s' children.yieldLabels.length
      (children.visitSpans Node.leafCount u 0 s.nj)) :
    ∃ s'', s'.visit (u, ⟨attr, children⟩) = some s'' ∧
      s.Entered s'' (Node.leafCount ⟨attr, children⟩)
        (((s.nj, s.nj + Node.leafCount ⟨attr, children⟩), u) ::
          children.visitSpans Node.leafCount u 0 s.nj) := by
  have hself : u ∉ (children.visitSpans Node.leafCount u 0 s.nj).map Prod.snd := by
    rw [Nodes.map_snd_visitSpans]
    intro hu
    rcases Nodes.exists_suffix_of_mem_addrs hu with ⟨j, -, hj⟩
    have hle := hj.length_le
    simp at hle
  -- entering `u` under the interval of its leaves leaves the nodes below as they are
  have hupdate : ∀ n span, n = s.nj + Node.leafCount ⟨attr, children⟩ →
      span = (s.nj, s.nj + Node.leafCount ⟨attr, children⟩) →
      s.Entered ⟨Function.update s'.spans u (some span), n⟩ (Node.leafCount ⟨attr, children⟩)
        (((s.nj, s.nj + Node.leafCount ⟨attr, children⟩), u) ::
          children.visitSpans Node.leafCount u 0 s.nj) := by
    intro n span hn hspan
    refine ⟨hn, ?_, ?_⟩
    · intro r v hmem
      rcases List.mem_cons.mp hmem with heq | hmem
      · rcases Prod.mk.inj heq with ⟨rfl, rfl⟩
        rw [hspan]
        exact Function.update_self ..
      · have hne : v ≠ u := by
          intro heq
          subst heq
          exact hself (List.mem_map_of_mem (f := Prod.snd) hmem)
        exact (Function.update_of_ne hne _ _).trans (h.entered r v hmem)
    · intro v hv
      rw [List.map_cons, List.mem_cons, not_or] at hv
      exact (Function.update_of_ne hv.1 _ _).trans (h.frame v hv.2)
  have hcount := h.count
  cases children with
  | nil =>
    have hnj : s'.nj = s.nj := by simpa [Nodes.yieldLabels] using hcount
    exact ⟨_, visit_terminal s' u attr, hupdate _ _ (by rw [hnj]; rfl) (by rw [hnj]; rfl)⟩
  | node a c r =>
    have hfirst : s'.spans (0 :: u) = some (s.nj, s.nj + Node.leafCount ⟨a, c⟩) :=
      h.entered _ _ List.mem_cons_self
    rcases Nodes.exists_last_visit a c r u 0 s.nj with ⟨j, hlast⟩
    rw [Nat.zero_add] at hlast
    exact ⟨_, visit_inner hfirst (h.entered _ _ hlast), hupdate _ _ hcount rfl⟩

/-- The rounds over the children of a node and below. -/
theorem Nodes.exists_visits (ts : Nodes α) : ∀ (up : Addr) (k : ℕ) (s : BynodeState),
    ∃ s', (ts.postEntries up k).foldlM BynodeState.visit s = some s' ∧
      s.Entered s' ts.yieldLabels.length (ts.visitSpans Node.leafCount up k s.nj) := by
  induction ts with
  | nil =>
    intro up k s
    exact ⟨s, rfl, rfl, fun _ _ h => absurd h List.not_mem_nil, fun _ _ => rfl⟩
  | node attr children rest ihc ihr =>
    intro up k s
    rcases ihc (k :: up) 0 s with ⟨s₁, hrun₁, h₁⟩
    rcases BynodeState.exists_visit attr h₁ with ⟨s₂, hrun₂, h₂⟩
    rcases ihr up (k + 1) s₂ with ⟨s₃, hrun₃, h₃⟩
    refine ⟨s₃, ?_, ?_⟩
    · rw [postEntries, List.foldlM_append, hrun₁]
      simp only [Option.bind_eq_bind, Option.bind_some, List.foldlM_cons, hrun₂]
      exact hrun₃
    · rw [h₂.count] at h₃
      rw [yieldLabels_length_cons, visitSpans]
      apply h₂.trans h₃
      intro u hu hrest
      rw [map_snd_visitSpans] at hrest
      rw [List.map_cons, map_snd_visitSpans] at hu
      rcases exists_suffix_of_mem_addrs hrest with ⟨j, hlt, hj⟩
      have hbelow : (k :: up) <:+ u := by
        rcases List.mem_cons.mp hu with rfl | hu
        · exact List.suffix_rfl
        · rcases exists_suffix_of_mem_addrs hu with ⟨i, -, hi⟩
          exact (List.suffix_cons _ _).trans hi
      have heq := place_eq_of_suffix hbelow hj
      omega

/-- `spans_bynode` returns, with the span under which each node is entered when going down
by the numbers of leaves. -/
theorem Node.exists_spansByNode (t : Node α) : ∃ spans, t.spansByNode = some spans ∧
    ∀ u ∈ t.addrs, ∀ s, spans u = some s ↔ (s, u) ∈ t.visitSpans Node.leafCount := by
  rcases t with ⟨attr, children⟩
  rcases children.exists_visits [] 0 ⟨fun _ => none, 0⟩ with ⟨s₁, hrun₁, h₁⟩
  rcases BynodeState.exists_visit attr h₁ with ⟨s₂, hrun₂, h₂⟩
  refine ⟨s₂.spans, ?_, ?_⟩
  · rw [spansByNode, postEntries, List.foldlM_append, hrun₁]
    simp only [Option.bind_eq_bind, Option.bind_some, List.foldlM_cons, hrun₂]
    rfl
  · have hvisits : ((((0 : ℕ), 0 + Node.leafCount ⟨attr, children⟩), ([] : Addr)) ::
        children.visitSpans Node.leafCount [] 0 0) =
          Node.visitSpans Node.leafCount ⟨attr, children⟩ := by
      rw [visitSpans, Nat.zero_add]
    have hentered := h₂.entered
    simp only [hvisits] at hentered
    intro u hu s
    constructor
    · intro hs
      rcases exists_visit Node.leafCount hu with ⟨r, hr⟩
      have heq := hentered r u hr
      rw [hs, Option.some.injEq] at heq
      exact heq ▸ hr
    · exact hentered s u

end Up

section Views

variable {t : Node α}

/-- Going down by the numbers of leaves gives the inverse of `spans_bynode`. -/
theorem inverseViews_leafCount {spans : Addr → Option Span} (h : t.spansByNode = some spans) :
    InverseViews t (nodesAt (t.visitSpans Node.leafCount)) spans := by
  rcases t.exists_spansByNode with ⟨spans', h', hspans⟩
  rw [h, Option.some.injEq] at h'
  subst h'
  refine ⟨?_, ?_, t.pairwise_nodesAt Node.leafCount⟩
  · intro u hu s
    rw [mem_nodesAt, hspans u hu]
  · intro u hu s hs p
    rw [Node.leafInterval_of_visit ((hspans u hu s).mp hs) p]
    simp

theorem Nodes.yieldLabels_length_le (ts : Nodes α) : ts.yieldLabels.length ≤ ts.size := by
  induction ts with
  | nil => exact le_rfl
  | node attr children rest ihc ihr =>
    rw [yieldLabels_length_cons, size]
    cases children with
    | nil => simp only [Node.leafCount, Node.yieldLabels, List.length_singleton]; omega
    | node a c r => simp only [Node.leafCount, Node.yieldLabels] at ihc ⊢; omega

/-- Only for a terminal does `length` count the leaves. -/
theorem Node.length_eq_leafCount_iff : t.length = t.leafCount ↔ t.IsTerminal := by
  rcases t with ⟨attr, children⟩
  cases children with
  | nil => exact iff_of_true rfl rfl
  | node a c r =>
    have hle := (Nodes.node a c r).yieldLabels_length_le
    apply iff_of_false
    · simp only [length, leafCount, yieldLabels]
      omega
    · intro h
      cases h

theorem Node.isTerminal_of_inverseViews {spans : Addr → Option Span}
    (h : t.spansByNode = some spans) (hviews : InverseViews t t.nodesBySpan spans) :
    t.IsTerminal := by
  have hroot : [] ∈ t.addrs := List.mem_cons_self
  rcases t.exists_spansByNode with ⟨spans', h', hspans⟩
  rw [h, Option.some.injEq] at h'
  subst h'
  have hbynode : spans [] = some (0, t.leafCount) := (hspans _ hroot _).mpr List.mem_cons_self
  have hbyspan : spans [] = some (0, t.length) :=
    (hviews.views _ hroot _).mp (mem_nodesAt.mpr List.mem_cons_self)
  rw [hbynode, Option.some.injEq] at hbyspan
  exact length_eq_leafCount_iff.mp (Prod.mk.inj hbyspan).2.symm

/-- `nodes_byspan` and `spans_bynode` are inverse views of a tree without children, and of
no other. -/
theorem Node.inverseViews_iff (t : Node α) :
    (∃ spans, t.spansByNode = some spans ∧ InverseViews t t.nodesBySpan spans) ↔ t.IsTerminal := by
  constructor
  · rintro ⟨spans, h, hviews⟩
    exact isTerminal_of_inverseViews h hviews
  · intro hterminal
    rcases t.exists_spansByNode with ⟨spans, h, -⟩
    have hsame : t.nodesBySpan = nodesAt (t.visitSpans Node.leafCount) := by
      rcases t with ⟨attr, children⟩
      cases hterminal
      rfl
    exact ⟨spans, h, hsame ▸ inverseViews_leafCount h⟩

/-- One word under one tag. -/
theorem Node.not_inverseViews_preterminal :
    ¬ ∃ spans, Node.spansByNode ⟨"NN", .node "cat" .nil .nil⟩ = some spans ∧
      InverseViews ⟨"NN", .node "cat" .nil .nil⟩
        (Node.nodesBySpan ⟨"NN", .node "cat" .nil .nil⟩) spans := by
  rintro ⟨spans, h, hviews⟩
  have hterminal := isTerminal_of_inverseViews h hviews
  cases hterminal

end Views

end Carmel.Gextract
