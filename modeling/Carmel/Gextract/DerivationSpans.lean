/-
# The spans of a derivation

A minimal derivation is the nodes that have spans after `ghkm`, with or without the
leaves. The spans are a function of the addresses of the tree.
-/

import Carmel.Gextract.FrontierNodes

namespace Carmel.Gextract

variable {α : Type*} {β : Type*}

section Shapes

/-- A tree without its attributes. -/
def Nodes.shape (ts : Nodes α) : Nodes Unit := ts.map fun _ => ()

variable {ts : Nodes α} {ts' : Nodes β} {up : Addr} {k : ℕ}

theorem Nodes.addrs_of_shape (h : ts.shape = ts'.shape) (up : Addr) (k : ℕ) :
    ts.addrs up k = ts'.addrs up k := by
  rw [← addrs_map (fun _ => ()) ts, ← addrs_map (fun _ => ()) ts']
  exact congrArg (fun s => Nodes.addrs up k s) h

theorem Nodes.leaves_of_shape (h : ts.shape = ts'.shape) (up : Addr) (k : ℕ) :
    ts.leaves up k = ts'.leaves up k := by
  rw [← leaves_map (fun _ => ()) ts, ← leaves_map (fun _ => ()) ts']
  exact congrArg (fun s => Nodes.leaves up k s) h

theorem Nodes.shape_map (f : α → β) (ts : Nodes α) : (ts.map f).shape = ts.shape := by
  rw [shape, map_map]
  rfl

theorem Nodes.shape_setSpans (fspane : List (Option Span)) (ts : Nodes Attr) :
    ∀ (epos : ℕ) (span : Option Span), (ts.setSpans fspane epos span).1.shape = ts.shape := by
  induction ts with
  | nil => exact fun _ _ => rfl
  | node attr children rest ihc ihr =>
    intro epos span
    cases children with
    | nil =>
      have hrest := ihr (epos + 1) (spanCover span (fspane.getD epos none))
      simp only [shape] at hrest ⊢
      rw [setSpans, map, map, hrest]
      rfl
    | node a c r =>
      have hchildren := ihc epos none
      rw [setSpans]
      simp only [shape] at hchildren ihr ⊢
      rw [map, map, hchildren, ihr]

theorem Nodes.shape_findFrontier (eps : Bool) (ts : Nodes Attr) :
    ∀ cspan, (ts.findFrontier eps cspan).1.shape = ts.shape := by
  induction ts with
  | nil => exact fun _ => rfl
  | node attr children rest ihc ihr =>
    intro cspan
    rw [findFrontier_node]
    simp only [shape] at ihc ihr ⊢
    rw [map, map, ihc, ihr]

end Shapes

section Terminals

variable {t n : Node α} {ts : Nodes α} {up u : Addr} {k : ℕ}

theorem Node.subtree_of_mem_entries (h : (u, n) ∈ t.entries) : t.subtree u = some n := by
  have hbelow : ∀ (ts : Nodes α) (up : Addr) (k : ℕ) (p : Node α), t.subtree up = some p →
      p.children.toList.drop k = ts.toList → ∀ q ∈ ts.entries up k, t.subtree q.1 = some q.2 := by
    intro ts
    induction ts with
    | nil =>
      intro up k p _ _ q hq
      cases hq
    | node attr children rest ihc ihr =>
      intro up k p hp hdrop q hq
      have hat : t.subtree (k :: up) = some ⟨attr, children⟩ := by
        have hplace : p.children.toList[k]? = some ⟨attr, children⟩ := by
          have := congrArg (·[0]?) hdrop
          simpa [Nodes.toList] using this
        rw [subtree, hp, Option.bind_some, hplace]
      rcases List.mem_cons.mp hq with rfl | hq
      · exact hat
      · rcases List.mem_append.mp hq with hq | hq
        · exact ihc (k :: up) 0 _ hat rfl q hq
        · apply ihr up (k + 1) p hp _ q hq
          rw [← List.drop_drop, hdrop]
          rfl
  rcases List.mem_cons.mp h with heq | h
  · rw [(Prod.mk.inj heq).1, (Prod.mk.inj heq).2]
    rfl
  · exact hbelow t.children [] 0 t rfl rfl _ h

theorem Node.mem_entries_iff : (u, n) ∈ t.entries ↔ t.subtree u = some n :=
  ⟨subtree_of_mem_entries, mem_entries_of_subtree⟩

theorem Node.map_fst_entries (t : Node α) : t.entries.map Prod.fst = t.addrs := by
  rw [entries, addrs, List.map_cons, Nodes.map_fst_entries]

theorem Node.mem_addrs_iff : u ∈ t.addrs ↔ ∃ n, t.subtree u = some n := by
  rw [← map_fst_entries, List.mem_map]
  constructor
  · intro ⟨q, hq, heq⟩
    exact ⟨q.2, heq ▸ subtree_of_mem_entries hq⟩
  · intro ⟨n, hn⟩
    exact ⟨(u, n), mem_entries_of_subtree hn, rfl⟩

/-- No address is at or below two children. -/
theorem Nodes.notMem_leaves {i : ℕ} (hi : (i :: up) <:+ u) (hik : i < k) :
    u ∉ ts.leaves up k := by
  intro h
  obtain ⟨j, hle, hj⟩ := exists_suffix_of_mem_leaves h
  have := place_eq_of_suffix hi hj
  omega

theorem Nodes.mem_leaves_iff (h : (u, n) ∈ ts.entries up k) :
    u ∈ ts.leaves up k ↔ n.IsTerminal := by
  induction ts generalizing up k with
  | nil => cases h
  | node attr children rest ihc ihr =>
    have hsplit : u ∈ (node attr children rest).leaves up k ↔
        u ∈ children.childLeaves up k ∨ u ∈ rest.leaves up (k + 1) := by
      rw [leaves_cons, List.mem_append]
      rfl
    rw [hsplit]
    rcases List.mem_cons.mp h with heq | h
    · rw [(Prod.mk.inj heq).1, (Prod.mk.inj heq).2,
        or_iff_left (notMem_leaves List.suffix_rfl (Nat.lt_succ_self k))]
      cases children with
      | nil => exact iff_of_true (List.mem_singleton_self _) rfl
      | node a c r =>
        apply iff_of_false _ (by rintro ⟨⟩)
        intro hmem
        obtain ⟨j, -, hj⟩ := exists_suffix_of_mem_leaves hmem
        have := hj.length_le
        rw [List.length_cons] at this
        omega
    · rcases List.mem_append.mp h with h | h
      · obtain ⟨j, -, hj⟩ := exists_suffix_of_mem_entries h
        have hbelow : (k :: up) <:+ u := (List.suffix_cons _ _).trans hj
        rw [or_iff_left (notMem_leaves hbelow (Nat.lt_succ_self k)), ← ihc h]
        cases children with
        | nil => cases h
        | node a c r => rfl
      · obtain ⟨j, hle, hj⟩ := exists_suffix_of_mem_entries h
        rw [or_iff_right, ihr h]
        intro hmem
        have := place_eq_of_suffix (suffix_of_mem_childLeaves hmem) hj
        omega

theorem Node.mem_leaves_iff (h : t.subtree u = some n) : u ∈ t.leaves ↔ n.IsTerminal := by
  obtain ⟨attr, children⟩ := t
  rcases List.mem_cons.mp (mem_entries_of_subtree h) with heq | hmem
  · rw [(Prod.mk.inj heq).1, (Prod.mk.inj heq).2]
    cases children with
    | nil => exact iff_of_true (List.mem_singleton_self _) rfl
    | node a c r =>
      apply iff_of_false _ (by rintro ⟨⟩)
      intro hleaf
      obtain ⟨j, -, hj⟩ := Nodes.exists_suffix_of_mem_leaves hleaf
      exact absurd hj.length_le (by simp)
  · cases children with
    | nil => cases hmem
    | node a c r => exact Nodes.mem_leaves_iff hmem

/-- Nothing is below a terminal. -/
theorem Node.eq_of_leaf_suffix {v : Addr} (hleaf : v ∈ t.leaves) (hu : u ∈ t.addrs) (h : v <:+ u) :
    u = v := by
  by_contra hne
  obtain ⟨down, rfl⟩ := h
  have hdown : down ≠ [] := fun h0 => hne (by rw [h0]; rfl)
  -- the child of the terminal on the way
  obtain ⟨front, i, rfl⟩ := List.eq_nil_or_concat down |>.resolve_left hdown
  have hchild : i :: v ∈ t.addrs := mem_addrs_of_suffix ⟨front, by simp⟩ hu
  obtain ⟨n, hn⟩ := mem_addrs_iff.mp hchild
  obtain ⟨p, hp, hi⟩ := Option.bind_eq_some_iff.mp hn
  have hterminal : p.children = .nil := (mem_leaves_iff hp).mp hleaf
  rw [hterminal] at hi
  cases hi

/-- Every node has a terminal at or below it. -/
theorem Nodes.exists_leaf (h : u ∈ ts.addrs up k) : ∃ l ∈ ts.leaves up k, u <:+ l := by
  induction ts generalizing u up k with
  | nil => cases h
  | node attr children rest ihc ihr =>
    rw [leaves_cons]
    cases children with
    | nil =>
      rcases List.mem_cons.mp h with rfl | h
      · exact ⟨_, List.mem_append_left _ (List.mem_singleton_self _), List.suffix_rfl⟩
      · obtain ⟨l, hl, hsuffix⟩ := ihr h
        exact ⟨l, List.mem_append_right _ hl, hsuffix⟩
    | node a c r =>
      rcases List.mem_cons.mp h with rfl | h
      · obtain ⟨l, hl, hsuffix⟩ := ihc (u := 0 :: k :: up) List.mem_cons_self
        exact ⟨l, List.mem_append_left _ hl, (List.suffix_cons _ _).trans hsuffix⟩
      · rcases List.mem_append.mp h with h | h
        · obtain ⟨l, hl, hsuffix⟩ := ihc h
          exact ⟨l, List.mem_append_left _ hl, hsuffix⟩
        · obtain ⟨l, hl, hsuffix⟩ := ihr h
          exact ⟨l, List.mem_append_right _ hl, hsuffix⟩

theorem Node.exists_leaf (h : u ∈ t.addrs) : ∃ l ∈ t.leaves, u <:+ l := by
  obtain ⟨attr, children⟩ := t
  cases children with
  | nil =>
    rw [List.mem_singleton.mp h]
    exact ⟨[], List.mem_singleton_self _, List.suffix_rfl⟩
  | node a c r =>
    rcases List.mem_cons.mp h with rfl | h
    · have hfirst : [0] ∈ (Nodes.node a c r).addrs [] 0 := List.mem_cons_self
      obtain ⟨l, hl, _⟩ := Nodes.exists_leaf hfirst
      exact ⟨l, hl, List.nil_suffix⟩
    · exact Nodes.exists_leaf h

/-- The node below changed terminals. -/
theorem Node.subtree_mapTerminals (f : α → α) (t : Node α) (u : Addr) :
    (t.mapTerminals f).subtree u = (t.subtree u).map fun n => n.mapTerminals f := by
  have hplace : ∀ (ts : Nodes α) (k : ℕ), (ts.mapTerminals f).toList[k]? =
      (ts.toList[k]?).map fun n => n.mapTerminals f := by
    intro ts
    induction ts with
    | nil => exact fun _ => rfl
    | node attr children rest _ ih =>
      intro k
      cases children <;> cases k <;> simp [Nodes.mapTerminals, Nodes.toList, mapTerminals, ih]
  induction u with
  | nil => rfl
  | cons k up ih =>
    rw [subtree, ih, subtree, Option.bind_map, Option.map_bind]
    congr 1
    funext p
    obtain ⟨attr, children⟩ := p
    cases children with
    | nil => rfl
    | node a c r => exact hplace (.node a c r) k

end Terminals

namespace Translation

variable (x : Translation)

/-- The span of the node at an address after `ghkm`. -/
def spanAt (leavesAreFrontier : Bool) (u : Addr) : Option Span :=
  ((x.ghkm leavesAreFrontier false).subtree u).bind fun n => n.attr.span

theorem shape_ghkm : (x.ghkm true false).children.shape = x.etree.children.shape := by
  have hchildren : (x.ghkm true false).children.shape = x.spanned.children.shape :=
    Nodes.shape_findFrontier _ _ _
  have hmap : (x.etree.map fun label => ({ label := label } : Attr)).children.shape =
      x.etree.children.shape := Nodes.shape_map _ _
  rw [hchildren, ← hmap, spanned, Node.setSpans]
  split
  · next hnil => rw [hnil]
  · exact Nodes.shape_setSpans _ _ _ _

theorem addrs_ghkm : (x.ghkm true false).addrs = x.etree.addrs := by
  rw [Node.addrs, Node.addrs, Nodes.addrs_of_shape x.shape_ghkm]

theorem leaves_ghkm : (x.ghkm true false).leaves = x.etree.leaves := by
  have hshape := x.shape_ghkm
  have hleaves := Nodes.leaves_of_shape hshape [] 0
  unfold Node.leaves
  generalize (x.ghkm true false).children = ts at *
  generalize x.etree.children = ts' at *
  cases ts <;> cases ts'
  · rfl
  · cases hshape
  · cases hshape
  · exact hleaves

variable {x} {leaves : Bool} {u v : Addr} {r : Span}

/-- A terminal has a span only where leaves are frontier nodes. -/
theorem spanAt_eq : x.spanAt leaves u =
    if leaves = true ∨ u ∉ x.etree.leaves then x.spanAt true u else none := by
  cases leaves with
  | true => simp
  | false =>
    have hghkm : x.ghkm false false =
        (x.ghkm true false).mapTerminals fun attr => { attr with span := none } := rfl
    simp only [spanAt, hghkm, Node.subtree_mapTerminals, Bool.false_eq_true, false_or]
    rw [← leaves_ghkm]
    cases hn : (x.ghkm true false).subtree u with
    | none => simp
    | some n =>
      have hleaf := Node.mem_leaves_iff hn
      obtain ⟨attr, children⟩ := n
      cases children with
      | nil =>
        rw [if_neg (not_not.mpr (hleaf.mpr rfl))]
        rfl
      | node a c r =>
        rw [if_pos (mt hleaf.mp nofun)]
        rfl

theorem spanAt_nil_true : x.spanAt true [] = some (0, x.f.length) := by
  have h := x.span_ghkm true false
  rw [if_pos (Or.inl rfl)] at h
  exact h

/-- A node below the top has a span if it is a frontier node. -/
theorem spanAt_eq_some_iff (hu : u ≠ []) : x.spanAt leaves u = some r ↔
    (leaves = true ∨ u ∉ x.etree.leaves) ∧ IsCover (some r) (x.Aligned u) ∧
      ∀ v, Beside u v → ∀ i, Between (x.Aligned u) i → ¬ Between (x.Aligned v) i := by
  rw [spanAt_eq]
  by_cases hleaf : leaves = true ∨ u ∉ x.etree.leaves
  · rw [if_pos hleaf, and_iff_right hleaf]
    unfold spanAt
    cases hn : (x.ghkm true false).subtree u with
    | some n => exact x.span_eq_some_iff false hu hn r
    | none =>
      apply iff_of_false (by simp)
      intro ⟨hcover, _⟩
      obtain ⟨e, l, hl, hsuffix, -⟩ := aligned_iff.mp hcover.1
      have hmem : u ∈ (x.ghkm true false).addrs := by
        rw [addrs_ghkm]
        exact Node.mem_addrs_of_suffix hsuffix (x.etree.leaves_subset (List.mem_of_getElem? hl))
      obtain ⟨n, hn'⟩ := Node.mem_addrs_iff.mp hmem
      exact absurd (hn.symm.trans hn') nofun
  · rw [if_neg hleaf]
    exact iff_of_false nofun fun h => hleaf h.1

end Translation

end Carmel.Gextract
