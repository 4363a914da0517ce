/-
# Rebuilding a sentence pair from its rules

The derivation tree says which rule is used where. Put together as it says, the
rules give back the English tree and the foreign sentence, each rule is used once,
and what the rules have that is not a variable is the tree and the sentence.
-/

import Carmel.Gextract.RuleSides

namespace Carmel.Gextract

/-- Put rules together as derivations say: the tree and the words of each of them. -/
def combine (rules : List Rule) : Nodes ℕ → Option (List (Node String × List String))
  | .nil => some []
  | .node rulei children rest =>
    (combine rules children).bind fun subs =>
      rules[rulei]?.bind fun r =>
        (r.lhs.substitute (subs.map Prod.fst)).bind fun tree =>
          (expandRhs (subs.map Prod.snd) r.rhs).bind fun words =>
            (combine rules rest).map ((tree, words) :: ·)

/-- The rules rebuild the pair, each is used once, and they share its parts. -/
structure Rebuilds (etree : Node String) (f : List String) (rules : List Rule) (deriv : Node ℕ) :
    Prop where
  combined : combine rules (.node deriv.attr deriv.children .nil) = some [(etree, f)]
  once : (deriv.preorder.map Node.attr) = List.range rules.length
  labels : (rules.flatMap fun r => r.lhs.ownLabels).Perm (etree.preorder.map Node.attr)
  words : (rules.flatMap fun r => ownWords r.rhs).Perm f

/-- The words of the span of a node. -/
def spanWords (f : List String) (s : Span) : List String := slice f s.1 s.2

section One

variable {f : List String} {root : Node Attr} {b e : ℕ}

/-- What one rule is: with the trees and words of the variables it gives those of its node. -/
structure RuleOf (f : List String) (root : Node Attr) (s : Span) (r : Rule) : Prop where
  substitute : r.lhs.substitute (root.children.xrsfrontier.map Node.plain) = some root.plain
  expand : expandRhs (root.children.varSpans.map (spanWords f)) r.rhs = some (spanWords f s)
  labels : r.lhs.ownLabels = root.attr.label :: root.children.fragmentLabels
  vars : (rhsVars r.rhs).Perm (List.range root.children.varSpans.length)

theorem xrsStr_spec (hspan : root.attr.span = some (b, e)) (hbe : b ≤ e) (hlen : e ≤ f.length)
    (htiles : Tiles (b, e) root.children.varSpans) :
    ∃ r, xrsStr f root = some r ∧ RuleOf f root (b, e) r := by
  have hwords : (slice f b e).length = e - b := by
    unfold slice
    rw [List.length_take, List.length_drop]
    omega
  have hin : ∀ s ∈ root.children.varSpans,
      b ≤ s.1 ∧ s.1 < b + ((slice f b e).map FSym.word).length := by
    intro s hs
    have hwithin := htiles.within s hs
    simp only at hwithin
    rw [List.length_map, hwords]
    omega
  obtain ⟨rhs, hrhs, hfrom⟩ := xrsRhs_spec hlen htiles e b le_rfl hbe (by omega) fun s hs hlt => by
    have hwithin := htiles.within s hs
    simp only at hwithin
    omega
  have hexpand : expandRhs (root.children.varSpans.map (spanWords f)) rhs = some (spanWords f (b, e)) := by
    apply hfrom.expand
    intro k s hk
    rw [List.getElem?_map, hk]
    rfl
  have hvars : (rhsVars rhs).Perm (List.range root.children.varSpans.length) := by
    rw [List.perm_ext_iff_of_nodup hfrom.nodup List.nodup_range]
    intro k
    rw [hfrom.vars k, List.mem_range]
    constructor
    · intro ⟨s, hk, _⟩
      exact (List.getElem?_eq_some_iff.mp hk).1
    · intro hk
      exact ⟨_, List.getElem?_eq_getElem hk, (htiles.within _ (List.getElem_mem hk)).1⟩
  obtain ⟨attr, children⟩ := root
  cases hchildren : children with
  | nil =>
    rw [hchildren] at hexpand hvars hrhs
    refine ⟨⟨⟨.word attr.label, .nil⟩, rhs⟩, ?_, rfl, hexpand, rfl, hvars⟩
    have hspan' : attr.span = some (b, e) := hspan
    rw [xrsStr, hspan', Option.bind_some]
    show ((xrsRhs _ b e e b).map _) = _
    rw [show (List.map FSym.word ((f.drop b).take (e - b))) =
      writeVars b 0 Nodes.nil.varSpans ((slice f b e).map .word) from rfl, hrhs]
    rfl
  | node a c r =>
    rw [← hchildren]
    obtain ⟨lhs, hlhs, hof⟩ := children.xrsLhs_spec 0 ((slice f b e).map .word) hin
    refine ⟨⟨⟨.nonterm attr.label, lhs⟩, rhs⟩, ?_, ?_, hexpand, ?_, hvars⟩
    · have hspan' : attr.span = some (b, e) := hspan
      have hroot : (⟨attr, children⟩ : Node Attr).xrsLhs b ((slice f b e).map .word) =
          some (⟨.nonterm attr.label, lhs⟩,
            writeVars b 0 children.varSpans ((slice f b e).map .word)) := by
        rw [hchildren] at hlhs ⊢
        rw [Node.xrsLhs]
        simp only [hlhs, Option.map_some]
      rw [xrsStr, hspan', Option.bind_some]
      show (Node.xrsLhs b ⟨attr, children⟩ ((slice f b e).map .word)).bind _ = _
      rw [hroot, Option.bind_some]
      show (xrsRhs _ b e e b).map _ = _
      rw [hrhs]
      rfl
    · show (lhs.substitute _).map _ = _
      rw [hof.substitute _ fun k c hc => by rw [Nat.zero_add, List.getElem?_map, hc]; rfl]
      rfl
    · show attr.label :: (lhs.ownLabels ++ []) = _
      rw [hof.labels, List.append_nil]

end One

section All

variable {f : List String}

/-- The nodes with a span below some nodes, and these themselves, from the top. -/
def Nodes.ruleNodes (ts : Nodes Attr) : List (Node Attr) :=
  ts.preorder.filter fun c => c.attr.span ≠ none

theorem Nodes.ruleNodes_node (attr : Attr) (children rest : Nodes Attr) :
    (node attr children rest).ruleNodes = (if attr.span ≠ none then [⟨attr, children⟩] else []) ++
        (children.ruleNodes ++ rest.ruleNodes) := by
  unfold ruleNodes
  rw [preorder, List.filter_cons, List.filter_append]
  cases hspan : attr.span with
  | none => simp
  | some s => simp

/-- The spans of variables lie in the sentence. -/
def Nodes.Within (n : ℕ) (ts : Nodes Attr) : Prop := ∀ s ∈ ts.varSpans, s.1 ≤ s.2 ∧ s.2 ≤ n

theorem Tiles.within_of_le {whole : Span} {n : ℕ} {ts : Nodes Attr} (h : Tiles whole ts.varSpans)
    (hle : whole.2 ≤ n) : ts.Within n := by
  intro s hs
  have hs' := h.within s hs
  omega

theorem mapM_append {α β : Type*} (g : α → Option β) {xs ys : List α} {us vs : List β}
    (hx : xs.mapM g = some us) (hy : ys.mapM g = some vs) : (xs ++ ys).mapM g = some (us ++ vs) := by
  rw [List.mapM_append, hx, hy]
  rfl

theorem flatMap_range_getD {α β : Type*} (g : α → List β) (xs : List α) :
    (List.range xs.length).flatMap (fun k => (xs.map g).getD k []) = xs.flatMap g := by
  have hlist : (List.range xs.length).map (fun k => (xs.map g).getD k []) = xs.map g := by
    apply List.ext_getElem
    · rw [List.length_map, List.length_range, List.length_map]
    · intro k hk hk'
      rw [List.getElem_map, List.getElem_range, List.getD_eq_getElem _ _ hk']
  rw [List.flatMap_def, hlist, List.flatMap_def]

/-- What the rules below some nodes come to. -/
structure RulesOf (f : List String) (ts : Nodes Attr) (rules : List Rule) : Prop where
  mapM : ts.ruleNodes.mapM (xrsStr f) = some rules
  combined : ∀ before after : List Rule,
    combine (before ++ (rules ++ after)) (ts.xrsDerivs before.length).1 =
      some (ts.xrsfrontier.map Node.plain |>.zip (ts.varSpans.map (spanWords f)))
  count : ∀ rulei, (ts.xrsDerivs rulei).2 = rulei + rules.length
  once : ∀ rulei, (ts.xrsDerivs rulei).1.preorder.map Node.attr = List.range' rulei rules.length
  labels : (ts.fragmentLabels ++ rules.flatMap fun r => r.lhs.ownLabels).Perm
    (ts.plain.preorder.map Node.attr)
  words : (rules.flatMap fun r => ownWords r.rhs).Perm (ts.varSpans.flatMap (spanWords f))

theorem Nodes.preorder_append {α : Type*} (ts us : Nodes α) :
    (ts.append us).preorder = ts.preorder ++ us.preorder := by
  induction ts with
  | nil => rfl
  | node attr children rest _ ih =>
    rw [append, preorder, preorder, ih, List.cons_append, List.append_assoc]

theorem combine_append (rules : List Rule) (ts us : Nodes ℕ) {xs ys}
    (hx : combine rules ts = some xs) (hy : combine rules us = some ys) :
    combine rules (ts.append us) = some (xs ++ ys) := by
  induction ts generalizing xs with
  | nil =>
    rw [← Option.some.inj hx]
    exact hy
  | node rulei children rest _ ih =>
    rw [combine] at hx
    obtain ⟨subs, hsubs, hx⟩ := Option.bind_eq_some_iff.mp hx
    obtain ⟨r, hr, hx⟩ := Option.bind_eq_some_iff.mp hx
    obtain ⟨tree, htree, hx⟩ := Option.bind_eq_some_iff.mp hx
    obtain ⟨words, hwords, hx⟩ := Option.bind_eq_some_iff.mp hx
    obtain ⟨more, hmore, rfl⟩ := Option.map_eq_some_iff.mp hx
    rw [Nodes.append, combine, hsubs, Option.bind_some, hr, Option.bind_some, htree,
      Option.bind_some, hwords, Option.bind_some, ih hmore]
    rfl

theorem rulesOf_nil : RulesOf f .nil [] := by
  constructor
  · rfl
  · exact fun _ _ => rfl
  · exact fun _ => rfl
  · exact fun _ => rfl
  · exact List.Perm.refl _
  · exact List.Perm.refl _

/-- A node without a span: its children are in the fragment that it is in. -/
theorem RulesOf.fragment {attr : Attr} {children rest : Nodes Attr} {below behind : List Rule}
    (hspan : attr.span = none) (hc : RulesOf f children below) (hr : RulesOf f rest behind) :
    RulesOf f (.node attr children rest) (below ++ behind) := by
  have hderivs : ∀ rulei, (Nodes.node attr children rest).xrsDerivs rulei =
      ((children.xrsDerivs rulei).1.append (rest.xrsDerivs (rulei + below.length)).1,
        (rest.xrsDerivs (rulei + below.length)).2) := by
    intro rulei
    rw [Nodes.xrsDerivs, if_neg (not_not.mpr hspan)]
    simp only [hc.count]
  have hvar : (Nodes.node attr children rest).varSpans = children.varSpans ++ rest.varSpans := by
    rw [Nodes.varSpans_node, hspan]
  have hfrontier : (Nodes.node attr children rest).xrsfrontier =
      children.xrsfrontier ++ rest.xrsfrontier := by
    rw [Nodes.xrsfrontier, if_neg (not_not.mpr hspan)]
  constructor
  case mapM =>
    rw [Nodes.ruleNodes_node, if_neg (not_not.mpr hspan), List.nil_append]
    exact mapM_append _ hc.mapM hr.mapM
  case combined =>
    intro before after
    rw [hderivs, hvar, hfrontier, List.map_append, List.map_append, List.zip_append]
    · apply combine_append
      · rw [List.append_assoc]
        exact hc.combined before (behind ++ after)
      · rw [List.append_assoc, ← List.append_assoc before, ← List.length_append]
        exact hr.combined (before ++ below) after
    · rw [List.length_map, List.length_map, Nodes.length_varSpans]
  case count =>
    intro rulei
    rw [hderivs, hr.count, List.length_append, Nat.add_assoc]
  case once =>
    intro rulei
    rw [hderivs, Nodes.preorder_append, List.map_append, hc.once, hr.once, List.length_append,
      List.range'_append_1]
  case labels =>
    rw [Nodes.fragmentLabels, hspan, List.flatMap_append]
    show (attr.label :: _ ++ _ ++ _).Perm (attr.label :: (children.plain.preorder ++
      rest.plain.preorder).map Node.attr)
    rw [List.map_append, List.cons_append, List.cons_append, List.perm_cons]
    refine List.Perm.trans ?_ (hc.labels.append hr.labels)
    rw [List.append_assoc, List.append_assoc]
    apply List.Perm.append_left
    rw [← List.append_assoc, ← List.append_assoc]
    exact List.perm_append_comm.append_right _
  case words =>
    rw [hvar, List.flatMap_append, List.flatMap_append]
    exact hc.words.append hr.words

/-- A node with a span: its rule is before those below it. -/
theorem RulesOf.root {attr : Attr} {children rest : Nodes Attr} {below behind : List Rule}
    {s : Span} {r : Rule} (hspan : attr.span = some s) (hrule : xrsStr f ⟨attr, children⟩ = some r)
    (hof : RuleOf f ⟨attr, children⟩ s r) (hc : RulesOf f children below)
    (hr : RulesOf f rest behind) :
    RulesOf f (.node attr children rest) (r :: (below ++ behind)) := by
  have hne : attr.span ≠ none := by
    rw [hspan]
    exact Option.some_ne_none s
  have hderivs : ∀ rulei, (Nodes.node attr children rest).xrsDerivs rulei =
      (.node rulei (children.xrsDerivs (rulei + 1)).1
        (rest.xrsDerivs (rulei + 1 + below.length)).1,
        (rest.xrsDerivs (rulei + 1 + below.length)).2) := by
    intro rulei
    rw [Nodes.xrsDerivs, if_pos hne]
    simp only [hc.count]
  have hvar : (Nodes.node attr children rest).varSpans = s :: rest.varSpans := by
    rw [Nodes.varSpans_node, hspan]
    rfl
  have hfrontier : (Nodes.node attr children rest).xrsfrontier =
      ⟨attr, children⟩ :: rest.xrsfrontier := by
    rw [Nodes.xrsfrontier, if_pos hne]
    rfl
  constructor
  case mapM =>
    rw [Nodes.ruleNodes_node, if_pos hne]
    show _ = some ([r] ++ (below ++ behind))
    apply mapM_append
    · rw [List.mapM_cons, hrule]
      rfl
    · exact mapM_append _ hc.mapM hr.mapM
  case combined =>
    intro before after
    rw [hderivs, hvar, hfrontier, combine]
    have hbelow := hc.combined (before ++ [r]) (behind ++ after)
    rw [List.length_append, List.length_singleton, List.append_assoc, List.singleton_append,
      ← List.append_assoc] at hbelow
    have hbehind := hr.combined (before ++ r :: below) after
    rw [List.length_append, List.length_cons, List.append_assoc, List.cons_append,
      ← List.append_assoc below, Nat.add_comm below.length, ← Nat.add_assoc] at hbehind
    have hat : (before ++ (r :: (below ++ behind) ++ after))[before.length]? = some r := by
      rw [List.getElem?_append_right le_rfl, Nat.sub_self]
      rfl
    have hlen : (children.xrsfrontier.map Node.plain).length =
        (children.varSpans.map (spanWords f)).length := by
      rw [List.length_map, List.length_map, Nodes.length_varSpans]
    rw [List.cons_append, hbelow, Option.bind_some, ← List.cons_append, hat, Option.bind_some,
      List.map_fst_zip hlen.le, List.map_snd_zip hlen.ge, hof.substitute, Option.bind_some,
      hof.expand, Option.bind_some, List.cons_append, hbehind]
    rfl
  case count =>
    intro rulei
    rw [hderivs, hr.count, List.length_cons, List.length_append]
    omega
  case once =>
    intro rulei
    rw [hderivs, Nodes.preorder, List.map_cons, List.map_append, hc.once, hr.once,
      List.length_cons, List.length_append, List.range'_succ, List.range'_append_1]
  case labels =>
    rw [Nodes.fragmentLabels, hspan, List.flatMap_cons, List.flatMap_append, hof.labels]
    show (rest.fragmentLabels ++ (attr.label :: children.fragmentLabels ++ _)).Perm
      (attr.label :: (children.plain.preorder ++ rest.plain.preorder).map Node.attr)
    rw [List.map_append, List.cons_append]
    refine List.perm_middle.trans (List.Perm.cons _ ?_)
    refine List.Perm.trans ?_ (hc.labels.append hr.labels)
    rw [← List.append_assoc, ← List.append_assoc, ← List.append_assoc]
    apply List.Perm.append_right
    rw [List.append_assoc]
    exact List.perm_append_comm
  case words =>
    rw [hvar, List.flatMap_cons, List.flatMap_cons, List.flatMap_append]
    rw [← List.append_assoc]
    refine List.Perm.append ?_ hr.words
    have hperm := perm_expandRhs r.rhs hof.expand
    refine List.Perm.trans ?_ hperm.symm
    apply List.Perm.append_left
    refine hc.words.trans (List.Perm.trans ?_ (List.Perm.flatMap_right _ hof.vars).symm)
    rw [flatMap_range_getD]

/-- **All rules** below nodes whose rules tile. -/
theorem exists_rulesOf (ts : Nodes Attr) : ts.Tiled → ts.Within f.length →
    ∃ rules, RulesOf f ts rules := by
  induction ts with
  | nil => exact fun _ _ => ⟨[], rulesOf_nil⟩
  | node attr children rest ihc ihr =>
    intro ⟨hroot, hchildren, hrest⟩ hwithin
    unfold Nodes.Within at hwithin
    rw [Nodes.varSpans_node] at hwithin
    obtain ⟨behind, hbehind⟩ := ihr hrest fun s hs => hwithin s (List.mem_append_right _ hs)
    cases hspan : attr.span with
    | none =>
      rw [hspan] at hwithin
      obtain ⟨below, hbelow⟩ := ihc hchildren fun s hs => hwithin s (List.mem_append_left _ hs)
      exact ⟨below ++ behind, hbelow.fragment hspan hbehind⟩
    | some s =>
      rw [hspan] at hwithin
      have hs := hwithin s (List.mem_append_left _ (List.mem_singleton_self s))
      have htiles := hroot s hspan
      obtain ⟨below, hbelow⟩ := ihc hchildren (htiles.within_of_le hs.2)
      obtain ⟨r, hr, hof⟩ := @xrsStr_spec f ⟨attr, children⟩ s.1 s.2 hspan hs.1 hs.2 htiles
      exact ⟨r :: (below ++ behind), hbelow.root hspan hr hof hbehind⟩

end All

section Labels

theorem Nodes.map_setSpans {β : Type*} {g : Attr → β}
    (hsame : ∀ attr fspan, g { attr with fspan := fspan } = g attr) (fspane : List (Option Span))
    (ts : Nodes Attr) : ∀ (epos : ℕ) (span : Option Span),
      (ts.setSpans fspane epos span).1.map g = ts.map g := by
  induction ts with
  | nil => exact fun _ _ => rfl
  | node attr children rest ihc ihr =>
    intro epos span
    cases children with
    | nil =>
      rw [setSpans]
      simp only [map, ihr, hsame]
    | node a c r =>
      rw [setSpans]
      simp only [map, ihr, hsame]
      congr 1
      exact ihc epos none

theorem Nodes.map_findFrontier {β : Type*} {g : Attr → β}
    (hsame : ∀ attr span, g { attr with span := span } = g attr) (eps : Bool) (ts : Nodes Attr) :
    ∀ cspan : ℕ → ℤ, (ts.findFrontier eps cspan).1.map g = ts.map g := by
  induction ts with
  | nil => exact fun _ => rfl
  | node attr children rest ihc ihr =>
    intro cspan
    rw [findFrontier_node, map, map, ihc, ihr, hsame]

theorem Node.map_setSpans (fspane : List (Option Span)) (t : Node Attr) :
    (t.setSpans fspane).plain = t.plain := by
  obtain ⟨attr, children⟩ := t
  unfold Node.setSpans plain map
  cases children with
  | nil => rfl
  | node a c r =>
    simp only
    rw [Nodes.map_setSpans fun _ _ => rfl]

end Labels

namespace Translation

variable (x : Translation) (leavesAreFrontier allowEpsilonRhs : Bool)

theorem plain_spanned : x.spanned.plain = x.etree := by
  unfold spanned
  rw [Node.map_setSpans]
  show (⟨x.etree.attr, (x.etree.children.map _).map Attr.label⟩ : Node String) = x.etree
  have hlabels : (x.etree.children.map fun label => ({ label := label } : Attr)).map Attr.label =
      x.etree.children := by
    rw [Nodes.map_map]
    exact Nodes.map_id _
  rw [hlabels]

theorem plain_ghkm : (x.ghkm leavesAreFrontier allowEpsilonRhs).plain = x.etree := by
  have hspanned := x.plain_spanned
  unfold Node.plain Node.map at hspanned
  have hfrontier : ∀ attr : Attr, attr.label = x.spanned.attr.label →
      ((⟨attr, x.spanned.children⟩ : Node Attr).findFrontier allowEpsilonRhs fun _ => 1).plain =
        x.etree := by
    intro attr hlabel
    rw [← hspanned]
    show (⟨attr.label, (Nodes.findFrontier _ _ _).1.map Attr.label⟩ : Node String) = _
    rw [Nodes.map_findFrontier fun _ _ => rfl, hlabel]
  unfold ghkm
  cases leavesAreFrontier with
  | true => exact hfrontier _ rfl
  | false =>
    simp only [Bool.false_eq_true, if_false, Node.plain]
    apply (Node.map_mapTerminals _ _).trans
    · exact hfrontier _ rfl
    · exact fun _ => rfl

theorem isTerminal_ghkm : (x.ghkm leavesAreFrontier allowEpsilonRhs).IsTerminal ↔
    x.etree.IsTerminal := by
  have hplain := x.plain_ghkm leavesAreFrontier allowEpsilonRhs
  rw [← hplain]
  unfold Node.IsTerminal Node.plain Node.map
  cases (x.ghkm leavesAreFrontier allowEpsilonRhs).children with
  | nil => exact iff_of_true rfl rfl
  | node a c r => exact iff_of_false nofun nofun

/-- **Rules and derivation tree** rebuild the pair exactly when the top node heads a rule. -/
theorem rebuilds_iff :
    (∃ rules, allRules x.f (x.ghkm leavesAreFrontier allowEpsilonRhs) = some rules ∧
      Rebuilds x.etree x.f rules (derivationTree (x.ghkm leavesAreFrontier allowEpsilonRhs))) ↔
    leavesAreFrontier = true ∨ ¬ x.etree.IsTerminal := by
  have htiled := x.tiled_ghkm leavesAreFrontier allowEpsilonRhs
  have hspan := x.span_ghkm leavesAreFrontier allowEpsilonRhs
  have hplain := x.plain_ghkm leavesAreFrontier allowEpsilonRhs
  simp only [x.isTerminal_ghkm leavesAreFrontier allowEpsilonRhs] at hspan
  have hterminal := x.isTerminal_ghkm leavesAreFrontier allowEpsilonRhs
  generalize x.ghkm leavesAreFrontier allowEpsilonRhs = t at *
  obtain ⟨attr, children⟩ := t
  have hderiv : derivationTree ⟨attr, children⟩ = ⟨0, (children.xrsDerivs 1).1⟩ := by
    rw [derivationTree, xrsDeriv_eq]
  by_cases hhead : leavesAreFrontier = true ∨ ¬ x.etree.IsTerminal
  · apply iff_of_true _ hhead
    rw [if_pos hhead] at hspan
    have hspan' : attr.span = some (0, x.f.length) := hspan
    have hne : attr.span ≠ none := by
      rw [hspan']
      exact Option.some_ne_none _
    obtain ⟨rules, hrules⟩ := exists_rulesOf (f := x.f) (.node attr children .nil)
      ⟨htiled.1, htiled.2, trivial⟩ (by
        intro s hs
        rw [Nodes.varSpans_node, hspan'] at hs
        rw [List.mem_singleton.mp hs]
        exact ⟨Nat.zero_le _, le_rfl⟩)
    have hderivs : ((Nodes.node attr children .nil).xrsDerivs 0).1 =
        .node 0 (children.xrsDerivs 1).1 .nil := by
      rw [Nodes.xrsDerivs, if_pos hne]
      rfl
    have hvar : (Nodes.node attr children .nil).varSpans = [(0, x.f.length)] := by
      rw [Nodes.varSpans_node, hspan']
      rfl
    refine ⟨rules, ?_, ?_⟩
    · have hmapM := hrules.mapM
      unfold Nodes.ruleNodes at hmapM
      rw [Nodes.preorder, Nodes.preorder, List.append_nil] at hmapM
      exact hmapM
    · rw [hderiv]
      have hwords : spanWords x.f (0, x.f.length) = x.f := by
        unfold spanWords slice
        simp
      constructor
      case combined =>
        have hcombined := hrules.combined [] []
        rw [List.append_nil, List.nil_append, List.length_nil, hderivs, hvar] at hcombined
        rw [hcombined, Nodes.xrsfrontier, if_pos hne]
        show some [(Node.plain ⟨attr, children⟩, spanWords x.f (0, x.f.length))] = _
        rw [hplain, hwords]
      case once =>
        have honce := hrules.once 0
        rw [hderivs] at honce
        rw [List.range_eq_range', ← honce]
        simp [Node.preorder, Nodes.preorder]
      case labels =>
        have hlabels := hrules.labels
        rw [Nodes.fragmentLabels, hspan'] at hlabels
        rw [← hplain]
        simpa [Nodes.fragmentLabels, Nodes.plain, Nodes.map, Nodes.preorder, Node.preorder,
          Node.plain, Node.map] using hlabels
      case words =>
        have hall := hrules.words
        rw [hvar] at hall
        simpa [hwords] using hall
  · apply iff_of_false _ hhead
    rw [if_neg hhead] at hspan
    push Not at hhead
    have hspan' : attr.span = none := hspan
    have hchildren : children = .nil := hterminal.mpr hhead.2
    rintro ⟨rules, hrules, hrebuilds⟩
    have hnone : allRules x.f ⟨attr, children⟩ = some [] := by
      rw [hchildren]
      unfold allRules Node.ruleNodes Node.preorder
      simp [hspan', Nodes.preorder]
    rw [hnone] at hrules
    have honce := hrebuilds.once
    rw [← Option.some.inj hrules, hderiv] at honce
    simp [Node.preorder] at honce

/-- A parse of one word. -/
def word : Translation := ⟨⟨"hello", .nil⟩, ["bonjour"], [(0, 0)], by decide⟩

/-- One word: the derivation tree has a rule 0, and there is none. -/
theorem not_rebuilds_word : ¬ ∃ rules, allRules word.f (word.ghkm false false) = some rules ∧
    Rebuilds word.etree word.f rules (derivationTree (word.ghkm false false)) := by
  intro ⟨rules, hrules, hrebuilds⟩
  have hnone : allRules word.f (word.ghkm false false) = some [] := by decide
  rw [hnone] at hrules
  have honce := hrebuilds.once
  rw [← Option.some.inj hrules] at honce
  simp [Node.preorder] at honce

end Translation

end Carmel.Gextract
