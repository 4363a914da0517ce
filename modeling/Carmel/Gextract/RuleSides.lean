/-
# The two sides of a rule

The left-hand side with the subtrees of its variables is the tree below its node;
the right-hand side with the words of its variables is the words of its span.
-/

import Carmel.Gextract.Frontier
import Carmel.Gextract.Rules

namespace Carmel.Gextract

/-- The tree without its attributes. -/
def Node.plain (t : Node Attr) : Node String := t.map Attr.label

def Nodes.plain (ts : Nodes Attr) : Nodes String := ts.map Attr.label

/-- The part of a list from `a` to `b`. -/
def slice {α : Type*} (xs : List α) (a b : ℕ) : List α := (xs.drop a).take (b - a)

section Combine

/-- Put the trees in for the variables with their labels. -/
def Nodes.substitute (subs : List (Node String)) : Nodes LhsSym → Option (Nodes String)
  | nil => some nil
  | node (.var xn label _) _ rest =>
    subs[xn]?.bind fun s =>
      if s.attr = label then (rest.substitute subs).map (node s.attr s.children) else none
  | node (.word label) _ rest => (rest.substitute subs).map (node label nil)
  | node (.nonterm label) children rest =>
    (children.substitute subs).bind fun below => (rest.substitute subs).map (node label below)

def Node.substitute (subs : List (Node String)) (t : Node LhsSym) : Option (Node String) :=
  match t.attr with
  | .var .. => none
  | .word label => some ⟨label, .nil⟩
  | .nonterm label => (t.children.substitute subs).map (⟨label, ·⟩)

/-- Put the words in for the variables. -/
def RhsSym.expand (subs : List (List String)) : RhsSym → Option (List String)
  | .word f => some [f]
  | .var xn => subs[xn]?

def expandRhs (subs : List (List String)) (rhs : List RhsSym) : Option (List String) :=
  (rhs.mapM (RhsSym.expand subs)).map List.flatten

/-- The labels in a left-hand side that are not variables. -/
def Nodes.ownLabels : Nodes LhsSym → List String
  | nil => []
  | node (.var ..) _ rest => rest.ownLabels
  | node (.word label) _ rest => label :: rest.ownLabels
  | node (.nonterm label) children rest => label :: (children.ownLabels ++ rest.ownLabels)

def Node.ownLabels (t : Node LhsSym) : List String :=
  (Nodes.node t.attr t.children .nil).ownLabels

/-- The words in a right-hand side. -/
def ownWords (rhs : List RhsSym) : List String :=
  rhs.filterMap fun
    | .word f => some f
    | .var _ => none

/-- The variables in a right-hand side. -/
def rhsVars (rhs : List RhsSym) : List ℕ :=
  rhs.filterMap fun
    | .word _ => none
    | .var xn => some xn

end Combine

section Lhs

variable {b xn : ℕ} {foreign : List FSym}

/-- Variables written over the first words of their spans. -/
def writeVars (b : ℕ) : ℕ → List Span → List FSym → List FSym
  | _, [], foreign => foreign
  | xn, s :: spans, foreign => writeVars b (xn + 1) spans (foreign.set (s.1 - b) (.var xn s.2))

theorem length_writeVars (spans : List Span) : ∀ (xn : ℕ) (foreign : List FSym),
    (writeVars b xn spans foreign).length = foreign.length := by
  induction spans with
  | nil => exact fun _ _ => rfl
  | cons s spans ih =>
    intro xn foreign
    rw [writeVars, ih, List.length_set]

theorem writeVars_append (spans more : List Span) : ∀ (xn : ℕ) (foreign : List FSym),
    writeVars b xn (spans ++ more) foreign =
      writeVars b (xn + spans.length) more (writeVars b xn spans foreign) := by
  induction spans with
  | nil => exact fun _ _ => rfl
  | cons s spans ih =>
    intro xn foreign
    rw [List.cons_append, writeVars, writeVars, ih, List.length_cons]
    congr 1
    omega

/-- The nodes that become variables are those with the spans. -/
theorem Nodes.length_varSpans (ts : Nodes Attr) : ts.varSpans.length = ts.xrsfrontier.length := by
  induction ts with
  | nil => rfl
  | node attr children rest ihc ihr =>
    rw [varSpans_node, xrsfrontier, List.length_append, List.length_append, ihr]
    congr 1
    cases attr.span with
    | none => exact ihc
    | some s => rfl

/-- The labels above the nodes with a span. -/
def Nodes.fragmentLabels : Nodes Attr → List String
  | nil => []
  | node attr children rest =>
    (match attr.span with
      | some _ => []
      | none => attr.label :: children.fragmentLabels) ++ rest.fragmentLabels

/-- What the left-hand side below some nodes is. -/
structure LhsOf (ts : Nodes Attr) (xn : ℕ) (lhs : Nodes LhsSym) : Prop where
  substitute : ∀ subs : List (Node String),
    (∀ k c, ts.xrsfrontier[k]? = some c → subs[xn + k]? = some c.plain) →
      lhs.substitute subs = some ts.plain
  labels : lhs.ownLabels = ts.fragmentLabels

theorem Nodes.xrsLhs_spec (ts : Nodes Attr) : ∀ (xn : ℕ) (foreign : List FSym),
    (∀ s ∈ ts.varSpans, b ≤ s.1 ∧ s.1 < b + foreign.length) → ∃ lhs, ts.xrsLhs b foreign xn =
          some (lhs, writeVars b xn ts.varSpans foreign, xn + ts.xrsfrontier.length) ∧
        LhsOf ts xn lhs := by
  induction ts with
  | nil =>
    intro xn foreign _
    exact ⟨nil, rfl, fun _ _ => rfl, rfl⟩
  | node attr children rest ihc ihr =>
    intro xn foreign hin
    rw [varSpans_node] at hin
    cases hspan : attr.span with
    | some s =>
      rw [hspan] at hin
      have hs := hin s (List.mem_append_left _ (List.mem_singleton_self s))
      have hset : setItem foreign ((s.1 : ℤ) - b) (.var xn s.2) =
          some (foreign.set (s.1 - b) (.var xn s.2)) := by
        rw [setItem, place_sub hs.1 hs.2]
        rfl
      obtain ⟨lhs, heq, hlhs⟩ := ihr (xn + 1) (foreign.set (s.1 - b) (.var xn s.2)) (by
        intro r hr
        rw [List.length_set]
        exact hin r (List.mem_append_right _ hr))
      refine ⟨node (.var xn attr.label (children = nil)) nil lhs, ?_, ?_, ?_⟩
      · obtain ⟨a, stop⟩ := s
        rw [xrsLhs.eq_def, varSpans_node, xrsfrontier]
        simp only [hspan, hset, heq, Option.bind_eq_bind, Option.bind_some, ne_eq,
          reduceCtorEq, not_false_eq_true, if_true, List.singleton_append, writeVars,
          List.length_cons]
        rw [Nat.add_assoc, Nat.add_comm 1]
      · intro subs hsubs
        rw [xrsfrontier, hspan, if_pos (Option.some_ne_none s)] at hsubs
        have hfirst := hsubs 0 ⟨attr, children⟩ rfl
        rw [Nat.add_zero] at hfirst
        have hrest : lhs.substitute subs = some rest.plain := by
          apply hlhs.substitute
          intro k c hc
          have hk := hsubs (k + 1) c (by rw [List.singleton_append, List.getElem?_cons_succ, hc])
          rwa [show xn + 1 + k = xn + (k + 1) by omega]
        rw [substitute, hfirst, Option.bind_some]
        simp only [Node.plain, Node.map, if_true, hrest, Option.map_some]
        rfl
      · rw [ownLabels, hlhs.labels, fragmentLabels, hspan]
        rfl
    | none =>
      rw [hspan] at hin
      cases hchildren : children with
      | nil =>
        rw [hchildren] at hin
        obtain ⟨lhs, heq, hlhs⟩ := ihr xn foreign fun r hr =>
          hin r (List.mem_append_right _ hr)
        refine ⟨node (.word attr.label) nil lhs, ?_, ?_, ?_⟩
        · rw [varSpans_node, xrsfrontier, hspan, if_neg (not_not.mpr rfl), xrsLhs.eq_def]
          simp only [hspan, heq, Option.bind_eq_bind, Option.bind_some]
          rfl
        · intro subs hsubs
          rw [xrsfrontier, hspan, if_neg (not_not.mpr rfl)] at hsubs
          rw [substitute, hlhs.substitute subs hsubs]
          rfl
        · rw [ownLabels, hlhs.labels, fragmentLabels, hspan]
          rfl
      | node a c r =>
        rw [← hchildren]
        obtain ⟨below, heq, hbelow⟩ := ihc xn foreign fun s hs =>
          hin s (List.mem_append_left _ hs)
        obtain ⟨lhs, heq', hlhs⟩ := ihr (xn + children.xrsfrontier.length)
          (writeVars b xn children.varSpans foreign) (by
            intro s hs
            rw [length_writeVars]
            exact hin s (List.mem_append_right _ hs))
        refine ⟨node (.nonterm attr.label) below lhs, ?_, ?_, ?_⟩
        · rw [varSpans_node, xrsfrontier, hspan, if_neg (not_not.mpr rfl), writeVars_append,
            length_varSpans, List.length_append, ← Nat.add_assoc]
          rw [hchildren] at heq heq' ⊢
          rw [xrsLhs]
          simp only [hspan, heq, heq', Option.bind_eq_bind, Option.bind_some]
        · intro subs hsubs
          rw [xrsfrontier, hspan, if_neg (not_not.mpr rfl)] at hsubs
          have hbelow' := hbelow.substitute subs fun k c hc =>
            hsubs k c (by
              rw [List.getElem?_append_left, hc]
              exact (List.getElem?_eq_some_iff.mp hc).1)
          have hrest := hlhs.substitute subs fun k c hc => by
            have hk := hsubs (children.xrsfrontier.length + k) c (by
              rw [List.getElem?_append_right (Nat.le_add_right _ _), Nat.add_sub_cancel_left, hc])
            rwa [← Nat.add_assoc] at hk
          rw [substitute, hbelow', hrest]
          rfl
        · rw [ownLabels, hbelow.labels, hlhs.labels, fragmentLabels, hspan]
          rfl

end Lhs

section Rhs

variable {b e : ℕ} {f : List String} {spans : List Span}

theorem writeVars_of_ne {i : ℕ} (spans : List Span) : ∀ (xn : ℕ) (foreign : List FSym),
    (∀ s ∈ spans, s.1 - b ≠ i) → (writeVars b xn spans foreign)[i]? = foreign[i]? := by
  induction spans with
  | nil => exact fun _ _ _ => rfl
  | cons s spans ih =>
    intro xn foreign hne
    rw [writeVars, ih _ _ fun r hr => hne r (List.mem_cons_of_mem _ hr),
      List.getElem?_set_ne (hne s (List.mem_cons_self ..))]

theorem Tiles.tail {whole s : Span} (h : Tiles whole (s :: spans)) : Tiles whole spans :=
  h.sublist (List.sublist_cons_self s spans)

theorem Tiles.first_ne {whole s r : Span} (h : Tiles whole (s :: spans)) (hr : r ∈ spans) :
    r.1 ≠ s.1 := by
  have hapart := List.rel_of_pairwise_cons h.apart hr
  have hs := h.within s (List.mem_cons_self ..)
  have hr' := h.within r (List.mem_cons_of_mem _ hr)
  unfold Apart at hapart
  omega

/-- Every variable stands over the first word of its span. -/
theorem writeVars_of_tiles (spans : List Span) : ∀ (xn k : ℕ) (foreign : List FSym) (s : Span),
    Tiles (b, e) spans → e - b ≤ foreign.length → spans[k]? = some s →
      (writeVars b xn spans foreign)[s.1 - b]? = some (.var (xn + k) s.2) := by
  induction spans with
  | nil =>
    intro xn k foreign s _ _ hk
    simp at hk
  | cons r spans ih =>
    intro xn k foreign s htiles hlen hk
    have hwithin := htiles.within r (List.mem_cons_self ..)
    cases k with
    | zero =>
      rw [List.getElem?_cons_zero] at hk
      rw [← Option.some.inj hk, writeVars, writeVars_of_ne, List.getElem?_set_self]
      · rfl
      · show r.1 - b < foreign.length
        omega
      · intro t ht heq
        have hne := htiles.first_ne ht
        have ht' := htiles.within t (List.mem_cons_of_mem _ ht)
        simp only at ht' hwithin
        omega
    | succ k =>
      rw [List.getElem?_cons_succ] at hk
      rw [writeVars, ih (xn + 1) k _ s htiles.tail (by rw [List.length_set]; exact hlen) hk]
      congr 2
      omega

theorem slice_cons {α : Type*} {xs : List α} {i stop : ℕ} {x : α} (hx : xs[i]? = some x)
    (hlt : i < stop) : slice xs i stop = x :: slice xs (i + 1) stop := by
  obtain ⟨hi, hat⟩ := List.getElem?_eq_some_iff.mp hx
  unfold slice
  rw [List.drop_eq_getElem_cons hi, show stop - i = (stop - (i + 1)) + 1 by omega, List.take_succ_cons,
    hat]

theorem slice_append {α : Type*} (xs : List α) {i j stop : ℕ} (hij : i ≤ j) (hj : j ≤ stop) :
    slice xs i stop = slice xs i j ++ slice xs j stop := by
  unfold slice
  rw [show stop - i = (j - i) + (stop - j) by omega, List.take_add, List.drop_drop,
    show i + (j - i) = j by omega]

theorem slice_self {α : Type*} (xs : List α) (i : ℕ) : slice xs i i = [] := by
  rw [slice, Nat.sub_self, List.take_zero]

/-- What a right-hand side read from `gi` on is. -/
structure RhsFrom (f : List String) (spans : List Span) (gi e : ℕ) (rhs : List RhsSym) : Prop where
  expand : ∀ subs : List (List String),
    (∀ (k : ℕ) (s : Span), spans[k]? = some s → subs[k]? = some (slice f s.1 s.2)) →
      expandRhs subs rhs = some (slice f gi e)
  nodup : (rhsVars rhs).Nodup
  vars : ∀ k, k ∈ rhsVars rhs ↔ ∃ s : Span, spans[k]? = some s ∧ gi ≤ s.1

theorem expandRhs_cons {subs : List (List String)} {sym : RhsSym} {rhs : List RhsSym}
    {words more : List String} (hsym : sym.expand subs = some words)
    (hrhs : expandRhs subs rhs = some more) : expandRhs subs (sym :: rhs) = some (words ++ more) := by
  unfold expandRhs at hrhs ⊢
  obtain ⟨parts, hparts, rfl⟩ := Option.map_eq_some_iff.mp hrhs
  rw [List.mapM_cons, hsym, hparts]
  rfl

theorem xrsRhs_spec (hlen : e ≤ f.length) (htiles : Tiles (b, e) spans) (rounds : ℕ) :
    ∀ gi, b ≤ gi → gi ≤ e → e - gi ≤ rounds → (∀ s ∈ spans, s.1 < gi → s.2 ≤ gi) →
      ∃ rhs, xrsRhs (writeVars b 0 spans ((slice f b e).map .word)) b e rounds gi = some rhs ∧
        RhsFrom f spans gi e rhs := by
  have hend : ∀ gi, gi = e → RhsFrom f spans gi e [] := by
    intro gi hgi
    refine ⟨?_, List.nodup_nil, ?_⟩
    · intro subs _
      rw [hgi, slice_self]
      rfl
    · intro k
      refine iff_of_false List.not_mem_nil ?_
      intro ⟨s, hk, hle⟩
      have hs := htiles.within s (List.mem_of_getElem? hk)
      simp only at hs
      omega
  have hwords : ((slice f b e).map FSym.word).length = e - b := by
    unfold slice
    simp only [List.length_map, List.length_take, List.length_drop]
    omega
  induction rounds with
  | zero =>
    intro gi hb he hrounds _
    have hgi : gi = e := by omega
    exact ⟨[], if_neg (by omega), hend gi hgi⟩
  | succ rounds ih =>
    intro gi hb he hrounds hoff
    by_cases hlt : gi < e
    · have hplace : getItem (writeVars b 0 spans ((slice f b e).map .word)) ((gi : ℤ) - b) =
          (writeVars b 0 spans ((slice f b e).map .word))[gi - b]? := by
        rw [getItem, length_writeVars, hwords, place_sub hb (by omega)]
        rfl
      by_cases hvar : ∃ (k : ℕ) (s : Span), spans[k]? = some s ∧ s.1 = gi
      · -- a variable begins here, and the words go on behind its span
        obtain ⟨k, s, hk, hs⟩ := hvar
        have hmem := List.mem_of_getElem? hk
        have hwithin := htiles.within s hmem
        simp only at hwithin
        have hread := writeVars_of_tiles (b := b) spans 0 k ((slice f b e).map .word) s htiles
          hwords.ge hk
        rw [hs, Nat.zero_add] at hread
        have hother : ∀ j r, spans[j]? = some r → j ≠ k → Apart r s := by
          intro j r hj hne
          obtain ⟨hjlt, hjat⟩ := List.getElem?_eq_some_iff.mp hj
          obtain ⟨hklt, hkat⟩ := List.getElem?_eq_some_iff.mp hk
          rcases Nat.lt_or_gt_of_ne hne with hjk | hjk
          · have h := List.pairwise_iff_getElem.mp htiles.apart j k hjlt hklt hjk
            rwa [hjat, hkat] at h
          · have h := List.pairwise_iff_getElem.mp htiles.apart k j hklt hjlt hjk
            rw [hjat, hkat] at h
            exact h.symm
        obtain ⟨rhs, heq, hrhs⟩ := ih s.2 (by omega) (by omega) (by omega) (by
          intro r hr hrlt
          obtain ⟨j, hj⟩ := List.getElem?_of_mem hr
          by_cases hjk : j = k
          · rw [hjk, hk] at hj
            rw [← Option.some.inj hj]
          · have hapart := hother j r hj hjk
            unfold Apart at hapart
            have hr' := htiles.within r hr
            omega)
        refine ⟨.var k :: rhs, ?_, ?_, ?_, ?_⟩
        · rw [xrsRhs, if_pos hlt, hplace, hread, Option.bind_some]
          simp only [heq, Option.map_some]
        · intro subs hsubs
          rw [slice_append f (show gi ≤ s.2 by omega) hwithin.2.2, ← hs]
          exact expandRhs_cons (hsubs k s hk) (hrhs.expand subs hsubs)
        · show (k :: rhsVars rhs).Nodup
          rw [List.nodup_cons]
          refine ⟨?_, hrhs.nodup⟩
          intro hin
          obtain ⟨r, hr, hle⟩ := (hrhs.vars k).mp hin
          rw [hk] at hr
          rw [← Option.some.inj hr] at hle
          omega
        · intro j
          show j ∈ k :: rhsVars rhs ↔ _
          rw [List.mem_cons, hrhs.vars j]
          constructor
          · rintro (rfl | ⟨r, hr, hle⟩)
            · exact ⟨s, hk, hs.ge⟩
            · exact ⟨r, hr, by omega⟩
          · intro ⟨r, hr, hle⟩
            by_cases hjk : j = k
            · exact Or.inl hjk
            · right
              have hapart := hother j r hr hjk
              have hr' := htiles.within r (List.mem_of_getElem? hr)
              unfold Apart at hapart
              exact ⟨r, hr, by omega⟩
      · -- a word is read
        obtain ⟨w, hw⟩ : ∃ w, f[gi]? = some w := ⟨f[gi], List.getElem?_eq_getElem (by omega)⟩
        have hread : (writeVars b 0 spans ((slice f b e).map .word))[gi - b]? = some (.word w) := by
          rw [writeVars_of_ne]
          · rw [List.getElem?_map, slice, List.getElem?_take_of_lt (by omega), List.getElem?_drop,
              show b + (gi - b) = gi by omega, hw]
            rfl
          · intro s hs heq
            obtain ⟨k, hk⟩ := List.getElem?_of_mem hs
            have hwithin := htiles.within s hs
            simp only at hwithin
            exact hvar ⟨k, s, hk, by omega⟩
        obtain ⟨rhs, heq, hrhs⟩ := ih (gi + 1) (by omega) (by omega) (by omega) (by
          intro s hs hslt
          obtain ⟨k, hk⟩ := List.getElem?_of_mem hs
          have hne : s.1 ≠ gi := fun h => hvar ⟨k, s, hk, h⟩
          have := hoff s hs (by omega)
          omega)
        refine ⟨.word w :: rhs, ?_, ?_, hrhs.nodup, ?_⟩
        · rw [xrsRhs, if_pos hlt, hplace, hread, Option.bind_some]
          simp only [heq, Option.map_some]
        · intro subs hsubs
          have hword : (RhsSym.word w).expand subs = some [w] := rfl
          rw [slice_cons hw hlt]
          exact expandRhs_cons hword (hrhs.expand subs hsubs)
        · intro k
          show k ∈ rhsVars rhs ↔ _
          rw [hrhs.vars k]
          refine exists_congr fun s => and_congr_right fun hk => ?_
          have hne : s.1 ≠ gi := fun h => hvar ⟨k, s, hk, h⟩
          omega
    · exact ⟨[], if_neg hlt, hend gi (by omega)⟩

/-- The words of an expansion are those of the right-hand side and of its variables. -/
theorem perm_expandRhs {subs : List (List String)} (rhs : List RhsSym) :
    ∀ {words : List String}, expandRhs subs rhs = some words →
      words.Perm (ownWords rhs ++ (rhsVars rhs).flatMap fun k => subs.getD k []) := by
  induction rhs with
  | nil =>
    intro words h
    rw [← Option.some.inj h]
    exact List.Perm.refl _
  | cons sym rhs ih =>
    intro words h
    unfold expandRhs at h
    obtain ⟨parts, hparts, rfl⟩ := Option.map_eq_some_iff.mp h
    rw [List.mapM_cons] at hparts
    obtain ⟨first, hfirst, hrest⟩ := Option.bind_eq_some_iff.mp hparts
    obtain ⟨more, hmore, heq⟩ := Option.bind_eq_some_iff.mp hrest
    have hmore' : expandRhs subs rhs = some more.flatten := by
      rw [expandRhs, hmore]
      rfl
    have hperm := ih hmore'
    rw [← Option.some.inj heq, List.flatten_cons]
    cases sym with
    | word f =>
      rw [← Option.some.inj hfirst]
      exact hperm.cons f
    | var xn =>
      have hsub : subs.getD xn [] = first := by
        rw [List.getD_eq_getElem?_getD]
        show (RhsSym.expand subs (.var xn)).getD [] = first
        rw [hfirst]
        rfl
      show (first ++ more.flatten).Perm (ownWords rhs ++
        (subs.getD xn [] ++ (rhsVars rhs).flatMap fun k => subs.getD k []))
      rw [hsub]
      exact (hperm.append_left first).trans (List.perm_append_comm_assoc _ _ _)

end Rhs

end Carmel.Gextract
