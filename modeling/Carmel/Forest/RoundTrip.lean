/-
# Reading, printing and reading again

The printer names the nodes that are shared, in the order of the first pointer to
them. Different nodes get different names and every name is defined before its
uses, so that the printed text is a forest text of the same nodes.
-/

import Carmel.Forest.Print
import Carmel.Forest.ReadText

namespace Carmel.Forest

open Carmel.Math

namespace BackrefIds

/-- The nodes in `targets` have names, all different. -/
structure Names (b : BackrefIds) (targets : ℕ → Prop) : Prop where
  named : ∀ j, b.ids j ≠ 0 ↔ targets j
  injective : ∀ j j', b.ids j ≠ 0 → b.ids j = b.ids j' → j = j'
  le : ∀ j, b.ids j ≤ b.lastid

variable {b : BackrefIds} {targets : ℕ → Prop}

theorem Names.assign (h : b.Names targets) (node : ForestNode) :
    (b.assign node).Names fun j => targets j ∨ node.label = .pointer j := by
  cases hlabel : node.label with
  | integer rule =>
    simp only [BackrefIds.assign, hlabel, reduceCtorEq, or_false]
    exact h
  | pointer index =>
    by_cases hid : b.ids index = 0
    · simp only [BackrefIds.assign, hlabel, if_pos hid]
      refine ⟨fun j => ?_, fun j j' hj heq => ?_, fun j => ?_⟩
      · by_cases hj : j = index
        · simp [hj]
        · simp [Function.update_of_ne hj, h.named, Ne.symm hj]
      · dsimp only at hj heq
        by_cases hjx : j = index
        · by_cases hjx' : j' = index
          · rw [hjx, hjx']
          · have := h.le j'
            rw [hjx, Function.update_self, Function.update_of_ne hjx'] at heq
            omega
        · by_cases hjx' : j' = index
          · have := h.le j
            rw [hjx', Function.update_self, Function.update_of_ne hjx] at heq
            omega
          · rw [Function.update_of_ne hjx, Function.update_of_ne hjx'] at heq
            rw [Function.update_of_ne hjx] at hj
            exact h.injective j j' hj heq
      · by_cases hj : j = index
        · simp [hj]
        · have := h.le j
          simp only [Function.update_of_ne hj]
          omega
    · simp only [BackrefIds.assign, hlabel, if_neg hid]
      refine ⟨fun j => ?_, h.injective, h.le⟩
      rw [h.named, Label.pointer.injEq]
      constructor
      · exact Or.inl
      · rintro (hj | rfl)
        · exact hj
        · exact (h.named _).mp hid

theorem Names.foldl_assign (h : b.Names targets) (nodes : List ForestNode) :
    (nodes.foldl BackrefIds.assign b).Names fun j =>
      targets j ∨ ∃ node ∈ nodes, node.label = .pointer j := by
  induction nodes generalizing b targets with
  | nil => simpa using h
  | cons node nodes ih =>
    have := ih (h.assign node)
    simpa [or_assoc] using this

end BackrefIds

/-- The nodes that are shared have names, all different. -/
theorem names_assignBackrefIds (f : FForest) :
    (∀ j, f.assignBackrefIds j ≠ 0 ↔ ∃ node ∈ f.nodes, node.label = .pointer j) ∧
      ∀ j j', f.assignBackrefIds j ≠ 0 → f.assignBackrefIds j = f.assignBackrefIds j' → j = j' := by
  have hnone : (⟨fun _ => 0, 0⟩ : BackrefIds).Names fun _ => False :=
    ⟨by simp, by simp, by simp⟩
  have h := hnone.foldl_assign f.nodes
  refine ⟨fun j => ?_, h.injective⟩
  have hj := h.named j
  rw [false_or] at hj
  exact hj

namespace Items

/-- The pointers go to places with the property `P`. -/
def AllTargets (P : ℕ → Prop) : Items → Prop
  | nil => True
  | ref target rest => P target ∧ rest.AllTargets P
  | node _ kids rest => kids.AllTargets P ∧ rest.AllTargets P

theorem allTargets_iff {P : ℕ → Prop} {items : Items} (i : ℕ) :
    items.AllTargets P ↔ ∀ node ∈ items.layout i, ∀ target, node.label = .pointer target → P target := by
  induction items generalizing i with
  | nil => simp [AllTargets, layout]
  | ref target rest ih => simp [AllTargets, layout, ih (i + 1)]
  | node label kids rest ihk ihr =>
    simp [AllTargets, layout, ihk (i + 1), ihr (i + 1 + kids.size), or_imp, forall_and]

end Items

/-- The names stand for nodes, not for pointers. -/
def Backrefs.NameNodes (backrefs : Backrefs) (memory : ℕ → ForestNode) : Prop :=
  ∀ id j, backrefs id = some j → ∃ label, (memory j).label = .integer label

theorem Backrefs.NameNodes.define {backrefs : Backrefs} {memory : ℕ → ForestNode}
    (h : backrefs.NameNodes memory) {i label : ℕ} (hi : (memory i).label = .integer label)
    (id? : Option ℕ) : (backrefs.define id? i).NameNodes memory := by
  cases id? with
  | none => exact h
  | some id =>
    intro id' j hj
    by_cases hid : id' = id
    · simp only [Backrefs.define, hid, Function.update_self, Option.some.injEq] at hj
      exact ⟨label, hj ▸ hi⟩
    · simp only [Backrefs.define, Function.update_of_ne hid] at hj
      exact h id' j hj

namespace TextItems

variable {t : TextItems} {backrefs backrefs' : Backrefs} {i : ℕ} {items : Items}
  {memory : ℕ → ForestNode} {ids : ℕ → ℕ}

/-- In what a text stands for, the pointers go to nodes. -/
theorem targets_of_resolve (h : t.resolve backrefs i = some (items, backrefs'))
    (hlaid : items.Laid memory i) (hnodes : backrefs.NameNodes memory) :
    items.AllTargets (fun j => ∃ label, (memory j).label = .integer label) ∧
      backrefs'.NameNodes memory := by
  induction t generalizing backrefs backrefs' i items with
  | nil =>
    simp only [resolve, Option.some.injEq, Prod.mk.injEq] at h
    rcases h with ⟨rfl, rfl⟩
    exact ⟨trivial, hnodes⟩
  | ref id rest ih =>
    rcases resolve_ref h with ⟨target, items', htarget, hrest, rfl⟩
    rcases ih hrest hlaid.2 hnodes with ⟨hall, hnodes'⟩
    exact ⟨⟨hnodes id target htarget, hall⟩, hnodes'⟩
  | leaf rule rest ih =>
    rcases resolve_leaf h with ⟨items', hrest, rfl⟩
    rcases ih hrest hlaid.2.2 hnodes with ⟨hall, hnodes'⟩
    exact ⟨⟨trivial, hall⟩, hnodes'⟩
  | node id? label kids rest ihk ihr =>
    rcases resolve_node h with ⟨kids', backrefs₁, items', hkids, hrest, rfl⟩
    have hi : (memory i).label = .integer label := by rw [hlaid.1]
    rcases ihk hkids hlaid.2.1 (hnodes.define hi id?) with ⟨hallk, hnodes₁⟩
    rcases ihr hrest hlaid.2.2 hnodes₁ with ⟨hallr, hnodes'⟩
    exact ⟨⟨hallk, hallr⟩, hnodes'⟩

/-- The siblings are nested no deeper than their text. -/
theorem height_le_of_resolve (h : t.resolve backrefs i = some (items, backrefs')) :
    items.height ≤ t.depth := by
  induction t generalizing backrefs backrefs' i items with
  | nil =>
    simp only [resolve, Option.some.injEq, Prod.mk.injEq] at h
    rw [← h.1]
    exact Nat.le_refl _
  | ref id rest ih =>
    rcases resolve_ref h with ⟨target, items', -, hrest, rfl⟩
    change items'.height ≤ rest.depth
    exact ih hrest
  | leaf rule rest ih =>
    rcases resolve_leaf h with ⟨items', hrest, rfl⟩
    simpa [Items.height, depth] using ih hrest
  | node id? label kids rest ihk ihr =>
    rcases resolve_node h with ⟨kids', backrefs₁, items', hkids, hrest, rfl⟩
    have hk := ihk hkids
    have hr := ihr hrest
    simp only [Items.height, depth]
    split <;> omega

/-- The rules of a text are numbers that fit. -/
theorem rulesFit_of_resolve {text rest : List Char} (hspells : Spells t text rest)
    (h : t.resolve backrefs i = some (items, backrefs')) : items.RulesFit := by
  induction hspells generalizing backrefs backrefs' i items with
  | nil =>
    simp only [resolve, Option.some.injEq, Prod.mk.injEq] at h
    rw [← h.1]
    trivial
  | ref _ _ _ _ _ _ ih =>
    rcases resolve_ref h with ⟨target, items', -, hrest, rfl⟩
    change items'.RulesFit
    exact ih hrest
  | leaf _ hrule _ _ ih =>
    rcases resolve_leaf h with ⟨items', hrest, rfl⟩
    exact ⟨hrule.lt, trivial, ih hrest⟩
  | node _ _ _ hlabel _ _ _ ihk ihr =>
    rcases resolve_node h with ⟨kids', backrefs₁, items', hkids, hrest, rfl⟩
    refine ⟨?_, ihk hkids, ihr hrest⟩
    cases hlabel with
    | or => decide
    | rule hrule => exact hrule.lt

/-- Names `backrefs` of the text that was read and names `printed` of the printed text
stand for the same nodes. -/
def Renamed (ids : ℕ → ℕ) (backrefs printed : Backrefs) : Prop :=
  ∀ id j, backrefs id = some j → ids j ≠ 0 → printed (ids j) = some j

theorem Renamed.define {printed : Backrefs} (h : Renamed ids backrefs printed)
    (hinj : ∀ j j', ids j ≠ 0 → ids j = ids j' → j = j') (id? : Option ℕ) (i : ℕ) :
    Renamed ids (backrefs.define id? i) (printed.define (Items.nameOf (ids i)) i) := by
  intro id j hj hid
  have hcase : j = i ∨ backrefs id = some j := by
    cases id? with
    | none => exact Or.inr hj
    | some id' =>
      by_cases heq : id = id'
      · simp only [Backrefs.define, heq, Function.update_self, Option.some.injEq] at hj
        exact Or.inl hj.symm
      · simp only [Backrefs.define, Function.update_of_ne heq] at hj
        exact Or.inr hj
  by_cases hji : j = i
  · subst hji
    simp [Backrefs.define, Items.nameOf, hid]
  · have hold := h id j (hcase.resolve_left hji) hid
    by_cases hi : ids i = 0
    · simpa [Backrefs.define, Items.nameOf, hi] using hold
    · have hne : ids j ≠ ids i := fun heq => hji (hinj j i hid heq)
      simpa [Backrefs.define, Items.nameOf, hi, Function.update_of_ne hne] using hold

/-- The text of siblings stands for these siblings. -/
theorem resolve_toText {printed : Backrefs} (h : t.resolve backrefs i = some (items, backrefs'))
    (hinj : ∀ j j', ids j ≠ 0 → ids j = ids j' → j = j') (htargets : items.AllTargets (ids · ≠ 0))
    (hrenamed : Renamed ids backrefs printed) :
    ∃ printed', (items.toText ids i).resolve printed i = some (items, printed') ∧
      Renamed ids backrefs' printed' := by
  induction t generalizing backrefs backrefs' i items printed with
  | nil =>
    simp only [resolve, Option.some.injEq, Prod.mk.injEq] at h
    rcases h with ⟨rfl, rfl⟩
    exact ⟨printed, rfl, hrenamed⟩
  | ref id rest ih =>
    rcases resolve_ref h with ⟨target, items', htarget, hrest, rfl⟩
    rcases ih hrest htargets.2 hrenamed with ⟨printed', hresolve, hrenamed'⟩
    refine ⟨printed', ?_, hrenamed'⟩
    simp only [Items.toText, resolve, hrenamed id target htarget htargets.1, hresolve]
  | leaf rule rest ih =>
    rcases resolve_leaf h with ⟨items', hrest, rfl⟩
    by_cases hid : ids i = 0
    · rcases ih hrest htargets.2 hrenamed with ⟨printed', hresolve, hrenamed'⟩
      refine ⟨printed', ?_, hrenamed'⟩
      rw [Items.toText_leaf hid]
      simp only [resolve, hresolve]
    · -- a leaf with a name is printed in parentheses
      have hdefine := hrenamed.define hinj none i
      rcases ih hrest htargets.2 hdefine with ⟨printed', hresolve, hrenamed'⟩
      refine ⟨printed', ?_, hrenamed'⟩
      rw [Items.toText_node (Or.inr hid)]
      simp only [Items.toText, resolve, Items.size_nil, Nat.add_zero, hresolve]
  | node id? label kids rest ihk ihr =>
    rcases resolve_node h with ⟨kids', backrefs₁, items', hkids, hrest, rfl⟩
    rcases ihk hkids htargets.1 (hrenamed.define hinj id? i) with ⟨printed₁, hresolvek, hrenamed₁⟩
    rcases ihr hrest htargets.2 hrenamed₁ with ⟨printed', hresolver, hrenamed'⟩
    refine ⟨printed', ?_, hrenamed'⟩
    by_cases hleaf : kids'.size = 0 ∧ ids i = 0
    · -- a node whose parentheses hold a rule alone is printed without them
      have hnil := Items.size_eq_zero.mp hleaf.1
      subst hnil
      simp only [Items.toText, resolve, Items.nameOf, if_pos hleaf.2, Backrefs.define,
        Option.some.injEq, Prod.mk.injEq, true_and] at hresolvek
      subst hresolvek
      rw [Items.toText_leaf hleaf.2]
      simp only [Items.size_nil, Nat.add_zero] at hresolver
      simp only [resolve, hresolver]
    · rw [Items.toText, if_neg hleaf]
      simp only [resolve, hresolvek, hresolver]

end TextItems

theorem isNumeral_decimal (n : ℕ) : IsNumeral (decimal n) n where
  ne_nil := Nat.toDigits_ne_nil
  isDigit _ hc := Nat.isDigit_of_mem_toDigits (by decide) (by decide) hc
  value := Nat.ofDigitChars_ten_toDigits

theorem isRuleNumeral_decimal {n : ℕ} (hn : n ≠ 0) (hlt : n < 4294967296) :
    IsRuleNumeral (decimal n) n where
  toIsNumeral := isNumeral_decimal n
  head := head?_toDigits_ne hn
  lt := hlt

/-- What can follow a sibling: something that no token runs into. -/
structure Separates (text : List Char) : Prop where
  ne_nil : text ≠ []
  noDigit : NoDigitAhead text
  noParen : text.head? ≠ some '('

theorem separates_cons {c : Char} {text : List Char} (hdigit : c.isDigit = false) (hparen : c ≠ '(') :
    Separates (c :: text) :=
  ⟨by simp, noDigitAhead_cons.mpr hdigit, by simpa using hparen⟩

theorem separates_render (t : TextItems) {text : List Char} (h : Separates text) :
    Separates (t.render ++ text) := by
  cases t with
  | nil => exact h
  | ref | leaf | node => exact separates_cons (by decide) (by decide)

theorem spellsLabel_printOrInt {label : ℕ} {text : List Char} (hlt : label < 4294967296)
    (h : NoDigitAhead text) : SpellsLabel label (printOrInt label ++ text) text := by
  by_cases hor : label = orInt
  · subst hor
    exact .or text
  · rw [printOrInt, if_neg hor]
    exact .rule (isRuleNumeral_decimal hor hlt) h

theorem spellsOpen_openText (id? : Option ℕ) (text : List Char) :
    SpellsOpen id? (TextItems.openText id? ++ text) text := by
  cases id? with
  | none => exact .plain text
  | some id =>
    have htext : TextItems.openText (some id) ++ text = '#' :: (decimal id ++ '(' :: text) := by
      simp [TextItems.openText]
    rw [htext]
    exact .named (isNumeral_decimal id) text

theorem spaces_space : Spaces [' '] := by simp [Spaces, isSpace]

theorem spaces_nil : Spaces [] := by simp [Spaces]

namespace TextItems

/-- Every rule is one that the readers take, and a leaf is no alternative. -/
def Fit : TextItems → Prop
  | nil => True
  | ref _ rest => rest.Fit
  | leaf rule rest => rule ≠ orInt ∧ rule < 4294967296 ∧ rest.Fit
  | node _ label kids rest => label < 4294967296 ∧ kids.Fit ∧ rest.Fit

theorem fit_toText {ids : ℕ → ℕ} {i : ℕ} {items : Items} (hfit : items.RulesFit)
    (hor : items.NoEmptyOr) : (items.toText ids i).Fit := by
  induction items generalizing i with
  | nil => trivial
  | ref target items ih => exact ih hfit hor
  | node label kids items ihk ihr =>
    rw [Items.toText]
    split_ifs with hleaf
    · exact ⟨fun heq => hor.1 heq (Items.size_eq_zero.mp hleaf.1), hfit.1, ihr hfit.2.2 hor.2.2⟩
    · exact ⟨hfit.1, ihk hfit.2.1 hor.2.1, ihr hfit.2.2 hor.2.2⟩

/-- What is printed for siblings spells them. -/
theorem spells_render {t : TextItems} (hfit : t.Fit) {rest : List Char} (hrest : Separates rest) :
    Spells t (t.render ++ rest) rest := by
  induction t generalizing rest with
  | nil => exact .nil rest
  | ref id t ih =>
    have hafter := separates_render t hrest
    have h := Spells.ref spaces_space (isNumeral_decimal id) hafter.noDigit hafter.ne_nil
      hafter.noParen (ih hfit hrest)
    simpa [render] using h
  | leaf rule t ih =>
    have h := Spells.leaf spaces_space (isRuleNumeral_decimal hfit.1 hfit.2.1)
      (separates_render t hrest).noDigit (ih hfit.2.2 hrest)
    simpa [render] using h
  | node id? label kids t ihk ihr =>
    have hclose : Separates (')' :: (t.render ++ rest)) := separates_cons (by decide) (by decide)
    have h := Spells.node spaces_space (spellsOpen_openText id? _) spaces_nil
      (spellsLabel_printOrInt hfit.1 (separates_render kids hclose).noDigit) (ihk hfit.2.1 hclose)
      spaces_nil (ihr hfit.2.2 hrest)
    simpa [render] using h

end TextItems

/-- One node printed, without the space before it. -/
theorem isForestText_render {id? : Option ℕ} {label : ℕ} {kids : TextItems} {items : Items}
    {backrefs : Backrefs} {text : List Char} (hfit : (TextItems.node id? label kids .nil).Fit)
    (hresolve : kids.resolve (Backrefs.define (fun _ => none) id? 0) 1 = some (items, backrefs))
    (htext : (TextItems.node id? label kids .nil).render = ' ' :: text) :
    IsForestText (.node id? label kids .nil) (.node label items .nil) text [] := by
  have hclose : Separates [')'] := separates_cons (by decide) (by decide)
  have h := Spells.node spaces_nil (spellsOpen_openText id? _) spaces_nil
    (spellsLabel_printOrInt hfit.1 (separates_render kids hclose).noDigit)
    (TextItems.spells_render hfit.2.1 hclose) spaces_nil (.nil [])
  rw [← (List.cons.inj htext).2]
  exact .node h hresolve

theorem IsForestText.root {t : TextItems} {items : Items} {text rest : List Char}
    (h : IsForestText t items text rest) : ∃ label kids backrefs, items = .node label kids .nil ∧
      t.resolve (fun _ => none) 0 = some (items, backrefs) ∧ Spells t text rest := by
  cases h with
  | @leaf rule _ _ h => exact ⟨rule, .nil, _, rfl, rfl, h⟩
  | @node id? label kids items backrefs _ _ h hresolve =>
    refine ⟨label, items, backrefs, rfl, ?_, h⟩
    simp only [TextItems.resolve, Nat.zero_add, hresolve]

section Root

variable {ids : ℕ → ℕ} {label : ℕ} {kids : Items} {memory : ℕ → ForestNode}

/-- The printer's output for one tree, closing the parentheses that are open at the end. -/
theorem printNodes_root (hlaid : (Items.node label kids .nil).Laid memory 0)
    (hids : ∀ j target, (memory j).label = .pointer target → ids j = 0)
    (hor : (Items.node label kids .nil).NoEmptyOr)
    (hdepth : (Items.node label kids .nil).height < maxForestDepth) :
    (printNodes ids 0 ((Items.node label kids .nil).layout 0)
        ⟨[(Items.node label kids .nil).size], true, []⟩).map (fun s =>
          ' ' :: (s.out ++ List.replicate (s.ends.length - 1) ')')) =
      some ((Items.node label kids .nil).toText ids 0).render := by
  have hlt : ∀ x ∈ [(Items.node label kids .nil).size], 0 < x := by
    intro x hx
    rw [List.mem_singleton.mp hx, Items.size_node]
    omega
  by_cases hkids : kids.size = 0
  · -- a leaf is printed without parentheses unless it is shared
    have hnil := Items.size_eq_zero.mp hkids
    subst hnil
    have hlabel : label ≠ orInt := fun heq => hor.1 heq rfl
    have hprint := (printNode_leaf hlt hlabel :
      printNode ids 0 _ ⟨List.replicate 0 0 ++ _, true, []⟩ = _)
    have hnode : (Items.node label .nil .nil).layout 0 = [⟨0 + 1, .integer label⟩] := rfl
    simp only [List.replicate_zero, List.nil_append] at hprint
    rw [hnode, printNodes_cons hprint, printNodes]
    by_cases hid : ids 0 = 0
    · simp [Items.toText, TextItems.render, lead, hid]
    · simp [Items.toText, TextItems.render, lead, hid]
  · have hpush : [(Items.node label kids .nil).size].length < maxForestDepth :=
      show 1 < maxForestDepth by decide
    have hends : ∀ x ∈ [0 + 1 + kids.size, (Items.node label kids .nil).size],
        1 + kids.size ≤ x := by
      simp
    rcases printNodes_layout hlaid.2.1 hids hor.2.1 hends
      (by simp only [Items.height, if_neg hkids] at hdepth; simp; omega) 0
      (lead true ++ (TextItems.openText (Items.nameOf (ids 0)) ++ printOrInt label)) [] with
      ⟨m, out, hprint, hout⟩
    have hnode : (Items.node label kids .nil).layout 0 =
        ⟨0 + 1 + kids.size, .integer label⟩ :: (kids.layout (0 + 1) ++ []) := by
      simp [Items.layout]
    have hroot := (printNode_node hlt hpush label (show 0 + 1 + kids.size ≠ 0 + 1 by omega) :
      printNode ids 0 _ ⟨List.replicate 0 0 ++ _, true, []⟩ = _)
    simp only [List.replicate_zero, List.nil_append] at hprint hroot hout
    rw [hnode, printNodes_cons hroot, hprint, printNodes, Items.toText_node (Or.inl hkids)]
    have hclose : out ++ List.replicate (m + 1) ')' = TextItems.openText (Items.nameOf (ids 0)) ++
        (printOrInt label ++ ((kids.toText ids 1).render ++ [')'])) := by
      rw [List.replicate_succ', ← List.append_assoc, hout]
      simp [lead]
    simp [TextItems.render, Items.toText, hclose]

end Root

/-- The text that the printer makes of a forest that was read, without the space in front. -/
theorem isForestText_toText {ids : ℕ → ℕ} {label : ℕ} {kids : Items} {backrefs : Backrefs}
    (hfit : (Items.node label kids .nil).RulesFit) (hor : (Items.node label kids .nil).NoEmptyOr)
    (hresolve : ((Items.node label kids .nil).toText ids 0).resolve (fun _ => none) 0 =
      some (.node label kids .nil, backrefs)) :
    ∃ printed, ((Items.node label kids .nil).toText ids 0).render = ' ' :: printed ∧
      IsForestText ((Items.node label kids .nil).toText ids 0) (.node label kids .nil) printed [] := by
  by_cases hleaf : kids.size = 0 ∧ ids 0 = 0
  · have hnil := Items.size_eq_zero.mp hleaf.1
    subst hnil
    have hrule := isRuleNumeral_decimal (fun heq => hor.1 heq rfl) hfit.1
    rw [Items.toText_leaf hleaf.2]
    refine ⟨decimal label, by simp [TextItems.render, Items.toText], ?_⟩
    have h := Spells.leaf spaces_nil hrule noDigitAhead_nil (.nil [])
    rw [List.nil_append, List.append_nil] at h
    exact .leaf h
  · rw [Items.toText, if_neg hleaf] at hresolve ⊢
    have hkids := @TextItems.fit_toText ids (0 + 1) _ hfit.2.1 hor.2.1
    rcases TextItems.resolve_node hresolve with ⟨kids', backrefs₁, items', hresolve', -, heq⟩
    rw [Items.node.injEq] at heq
    rcases heq with ⟨-, rfl, -⟩
    exact ⟨_, rfl, isForestText_render ⟨hfit.1, hkids, trivial⟩ hresolve' rfl⟩

/-- **The printer** prints a forest text of the nodes that were read. -/
theorem print_forest {t : TextItems} {items : Items} {text rest : List Char}
    (h : IsForestText t items text rest) (hor : items.NoEmptyOr) (hdepth : t.depth < maxForestDepth) :
    ∃ printed t', FForest.print ⟨items.layout 0⟩ = some printed ∧ IsForestText t' items printed [] := by
  rcases h.root with ⟨label, kids, backrefs, rfl, hresolve, hspells⟩
  have hlaid : (Items.node label kids .nil).Laid
      (FForest.mk ((Items.node label kids .nil).layout 0)).node 0 := by
    have := Items.laid_of_nodes (.node label kids .nil) [] []
    simpa using this
  generalize hids : FForest.assignBackrefIds ⟨(Items.node label kids .nil).layout 0⟩ = ids
  rcases names_assignBackrefIds ⟨(Items.node label kids .nil).layout 0⟩ with ⟨hnamed, hinj⟩
  rw [hids] at hnamed hinj
  have htargets := (TextItems.targets_of_resolve hresolve hlaid (by simp [Backrefs.NameNodes])).1
  have hnodes := (Items.allTargets_iff 0).mp htargets
  have hnames : (Items.node label kids .nil).AllTargets (ids · ≠ 0) :=
    (Items.allTargets_iff 0).mpr fun node hnode target hlabel =>
      (hnamed target).mpr ⟨node, hnode, hlabel⟩
  -- a pointer has no name
  have hpointers : ∀ j target,
      ((FForest.mk ((Items.node label kids .nil).layout 0)).node j).label = .pointer target →
        ids j = 0 := by
    intro j target hj
    by_contra hne
    rcases (hnamed j).mp hne with ⟨node, hnode, hlabel⟩
    rcases hnodes node hnode j hlabel with ⟨l, hl⟩
    rw [hj] at hl
    cases hl
  rcases TextItems.resolve_toText hresolve hinj hnames
    (show TextItems.Renamed ids (fun _ => none) (fun _ => none) by simp [TextItems.Renamed]) with
    ⟨backrefs', hresolve', -⟩
  rcases isForestText_toText (TextItems.rulesFit_of_resolve hspells hresolve) hor hresolve' with
    ⟨printed, hrender, htext⟩
  refine ⟨printed, _, ?_, htext⟩
  have hprint := printNodes_root hlaid hpointers hor
    (Nat.lt_of_le_of_lt (TextItems.height_le_of_resolve hresolve) hdepth)
  have hsize : (FForest.mk ((Items.node label kids .nil).layout 0)).size =
      (Items.node label kids .nil).size := Items.length_layout ..
  rw [FForest.print, hids, hsize]
  rw [hrender] at hprint
  rcases Option.map_eq_some_iff.mp hprint with ⟨s, hs, heq⟩
  rw [hs, Option.map_some, (List.cons.inj heq).2]

/-- The text `(1 #1(2) #1)`. -/
theorem isForestText_shared : IsForestText
    (.node none 1 (.node (some 1) 2 .nil (.ref 1 .nil)) .nil)
    (.node 1 (.node 2 .nil (.ref 1 .nil)) .nil) "(1 #1(2) #1)".toList [] :=
  isForestText_render (by simp [TextItems.Fit]) rfl (by decide)

end Carmel.Forest
