/-
# The states that a composition creates

A state of the composition is created when an arc first leads to its key, so what holds of
the initial key and goes along the moves of the filter automaton holds of every state
created.
-/

import Carmel.Compose.Result

namespace Carmel

universe u

variable {W : Type u} [CommMonoid W] [DecidableEq W]

namespace Builder

/-- What is known of all keys, and that a mediate key is entered once. -/
structure AllKeys (P : Node → Prop) (B : Builder W) : Prop where
  trio : ∀ p ∈ B.stateMap, P (.trio p.1)
  queued : ∀ q ∈ B.queue, P (.trio q.2)
  mediate : ∀ p ∈ B.arcStateMap, P (.mediate p.1)
  nodup : (B.arcStateMap.map Prod.fst).Nodup

variable {o : Operands W} {pg : Bool} {P : Node → Prop} {B : Builder W}

omit [CommMonoid W] [DecidableEq W] in
theorem AllKeys.stateOf (h : B.AllKeys P) {k : TrioKey} (hk : P (.trio k)) :
    (B.stateOf k).2.AllKeys P := by
  rw [Builder.stateOf]
  split
  · exact h
  · refine ⟨?_, ?_, h.mediate, h.nodup⟩
    · intro p hp
      rcases List.mem_cons.mp hp with rfl | hp
      · exact hk
      · exact h.trio p hp
    · intro q hq
      rcases List.mem_cons.mp hq with rfl | hq
      · exact hk
      · exact h.queued q hq

theorem AllKeys.composeArc (h : B.AllKeys P) {e : ComposeArc W} (he : P (.trio e.triDest)) (s : ℕ) :
    (B.composeArc o s e).AllKeys P := by
  have hstate := h.stateOf he
  exact ⟨hstate.trio, hstate.queued, hstate.mediate, hstate.nodup⟩

theorem AllKeys.foldl_composeArc (h : B.AllKeys P) {es : List (ComposeArc W)}
    (hes : ∀ e ∈ es, P (.trio e.triDest)) (s : ℕ) : (es.foldl (Builder.composeArc o s) B).AllKeys P := by
  induction es generalizing B with
  | nil => exact h
  | cons e es ih =>
    exact ih (h.composeArc (hes e List.mem_cons_self) s) fun e he => hes e (List.mem_cons_of_mem _ he)

omit [CommMonoid W] [DecidableEq W] in
theorem notMem_keys_of_lookup {m : HalfArcState} (h : B.arcStateMap.lookup m = none) :
    m ∉ B.arcStateMap.map Prod.fst := by
  rw [List.lookup_eq_none_iff] at h
  intro hm
  obtain ⟨p, hp, rfl⟩ := List.mem_map.mp hm
  simpa using h p hp

theorem AllKeys.mediateStateOf (h : B.AllKeys P) {m : HalfArcState} (hm : P (.mediate m))
    {inner : List (ComposeArc W)} (hinner : ∀ e ∈ inner, P (.trio e.triDest)) :
    (B.mediateStateOf o m inner).2.AllKeys P := by
  rw [Builder.mediateStateOf]
  split
  · exact h
  case h_2 hlookup =>
    have hentered : AllKeys P { B with
        arcStateMap := (m, B.states.length) :: B.arcStateMap
        states := B.states ++ [State.empty] } := by
      refine ⟨h.trio, h.queued, ?_, List.nodup_cons.mpr ⟨notMem_keys_of_lookup hlookup, h.nodup⟩⟩
      intro p hp
      rcases List.mem_cons.mp hp with rfl | hp
      · exact hm
      · exact h.mediate p hp
    exact hentered.foldl_composeArc hinner _

variable (hmove : ∀ {n n' : Node} {made : Record W}, Move o pg n made n' → P n → P n')

include hmove in
theorem AllKeys.emit (h : B.AllKeys P) {n : Node} (hn : P n) {e : Emission W}
    (he : e.Faithful o pg) (hen : Move o pg n e.item.made e.item.dest) (s : ℕ) :
    (B.emit o s e).AllKeys P := by
  have hdest := hmove hen hn
  cases e with
  | arc e => exact h.composeArc hdest s
  | viaMediate m la inner =>
    obtain ⟨rfl, rfl⟩ := he
    have hinner : ∀ e ∈ mediateArcs o m, P (.trio e.triDest) := by
      intro e he
      have hstep := ((mem_mediateArcs o m e).mp he).2
      exact hmove (by rwa [Move, if_pos rfl]) hdest
    have hstate := h.mediateStateOf (o := o) hdest hinner
    exact ⟨hstate.trio, hstate.queued, hstate.mediate, hstate.nodup⟩

include hmove in
theorem AllKeys.composeLoop (h : B.AllKeys P) (fuel : ℕ) : (composeLoop o pg fuel B).AllKeys P := by
  induction fuel generalizing B with
  | zero => exact h
  | succ fuel ih =>
    rw [Carmel.composeLoop]
    split
    · exact h
    case h_2 num tri rest hqueue =>
      apply ih
      have htri : P (.trio tri) := h.queued (num, tri) (hqueue ▸ List.mem_cons_self)
      have hes : ∀ e ∈ loopOf o pg tri,
          e.Faithful o pg ∧ Move o pg (.trio tri) e.item.made e.item.dest := by
        intro e he
        exact ⟨loopOf_faithful o pg tri e he,
          (mem_nodeItems o pg (.trio tri) _).mp (List.mem_map_of_mem he)⟩
      have h₀ : AllKeys P { B with queue := rest } :=
        ⟨h.trio, fun q hq => h.queued q (hqueue ▸ List.mem_cons_of_mem _ hq), h.mediate, h.nodup⟩
      generalize { B with queue := rest } = B₀ at h₀
      generalize loopOf o pg tri = es at hes
      induction es generalizing B₀ with
      | nil => exact h₀
      | cons e es ihes =>
        obtain ⟨he, hen⟩ := hes e List.mem_cons_self
        exact ihes _ (h₀.emit hmove htri he hen num) fun e he => hes e (List.mem_cons_of_mem _ he)

include hmove in
/-- **What holds of the initial state and goes along moves holds of every state created.** -/
theorem allKeys_result (c₀ : CascadeParameters) (hstart : P startNode) :
    (result o pg c₀).AllKeys P := by
  have h₀ : (composeStart c₀ : Builder W).AllKeys P := by
    constructor
    case trio =>
      intro p hp
      obtain rfl := List.mem_singleton.mp hp
      exact hstart
    case queued =>
      intro q hq
      obtain rfl := List.mem_singleton.mp hq
      exact hstart
    case mediate =>
      intro p hp
      cases hp
    case nodup => exact List.nodup_nil
  exact h₀.composeLoop hmove _

end Builder

omit [CommMonoid W] [DecidableEq W] in
theorem WFST.Valid.out_lt' {x : WFST W} (hx : x.Valid) {s : ℕ} {h : HalfArc W}
    (hmem : h ∈ x.outArcs s) : h.arc.out < x.outAlph.size := by
  obtain ⟨state, hstate, harc⟩ := WFST.mem_state_arcs_of_mem_outArcs hmem
  exact hx.out_lt state hstate h.arc harc

/-- The operand states and the letter that a state stands for are there. -/
def Node.Grounded (o : Operands W) : Node → Prop
  | .trio k => k.qa < o.a.numStates ∧ k.qb < o.b.numStates
  | .mediate m => m.lDest < o.a.numStates ∧ m.rSource < o.b.numStates ∧
      m.lHiddenLetter < o.a.outAlph.size
  | .merged => True

omit [CommMonoid W] [DecidableEq W] in
theorem Move.grounded {o : Operands W} {pg : Bool} (ha : o.a.Valid) (hb : o.b.Valid) {n n' : Node}
    {made : Record W} (hmove : Move o pg n made n') (hn : n.Grounded o) : n'.Grounded o := by
  cases pg with
  | true =>
    rw [Move, if_pos rfl] at hmove
    cases hmove with
    | left hl _ _ => exact ⟨ha.dest_lt' hl, hn.2⟩
    | right hr _ => exact ⟨hn.1, hb.dest_lt' hr⟩
    | hide hl _ _ => exact ⟨ha.dest_lt' hl, hn.2, ha.out_lt' hl⟩
    | «show» hr _ => exact ⟨hn.1, hb.dest_lt' hr⟩
  | false =>
    rw [Move, if_neg Bool.false_ne_true] at hmove
    cases hmove with
    | left hl _ _ => exact ⟨ha.dest_lt' hl, hn.2⟩
    | right hr _ _ => exact ⟨hn.1, hb.dest_lt' hr⟩
    | epsilons hl hr _ _ _ => exact ⟨ha.dest_lt' hl, hb.dest_lt' hr⟩
    | matching hl hr _ _ => exact ⟨ha.dest_lt' hl, hb.dest_lt' hr⟩

/-- The keys entered, with the numbers of their states. -/
def Builder.keys (B : Builder W) : List (ℕ × Node) :=
  (B.stateMap.map fun p => (p.2, .trio p.1)) ++ B.arcStateMap.map fun p => (p.2, .mediate p.1)

/-- The states that `set_compose` creates, with their numbers. Copies of the final pair are
joined if there are several. -/
def createdNodes (o : Operands W) (pg : Bool) (c₀ : CascadeParameters) : List (ℕ × Node) :=
  match o.a.final, o.b.final with
  | some finalA, some finalB =>
    let B := Builder.result o pg c₀
    match B.pFinal finalA finalB with
    | _ :: _ :: _ => B.keys ++ [(B.states.length, .merged)]
    | _ => B.keys
  | _, _ => []

variable {o : Operands W} {pg : Bool} {c₀ : CascadeParameters} {i i' : ℕ} {n n' : Node}

omit [CommMonoid W] [DecidableEq W] in
theorem Builder.mem_keys_iff {B : Builder W} (htrio : (B.stateMap.map Prod.fst).Nodup)
    (hmediate : (B.arcStateMap.map Prod.fst).Nodup) : (i, n) ∈ B.keys ↔ B.num n = some i := by
  rw [keys, List.mem_append, List.mem_map, List.mem_map]
  constructor
  · rintro (⟨p, hp, heq⟩ | ⟨p, hp, heq⟩)
    · obtain ⟨rfl, rfl⟩ := Prod.mk.inj heq
      exact (mem_iff_lookup htrio).mp hp
    · obtain ⟨rfl, rfl⟩ := Prod.mk.inj heq
      exact (mem_iff_lookup hmediate).mp hp
  · intro hnum
    cases n with
    | trio k => exact .inl ⟨(k, i), (mem_iff_lookup htrio).mpr hnum, rfl⟩
    | mediate m => exact .inr ⟨(m, i), (mem_iff_lookup hmediate).mpr hnum, rfl⟩
    | merged => cases hnum

/-- The created states, by number: each has its own, those of the result have one, and what
they stand for is there. -/
structure Numbered (o : Operands W) (pg : Bool) (c₀ : CascadeParameters) : Prop where
  number : ∀ {i i' : ℕ} {n : Node},
    (i, n) ∈ createdNodes o pg c₀ → (i', n) ∈ createdNodes o pg c₀ → i = i'
  node : ∀ {i : ℕ} {n n' : Node},
    (i, n) ∈ createdNodes o pg c₀ → (i, n') ∈ createdNodes o pg c₀ → n = n'
  grounded : ∀ {i : ℕ} {n : Node}, (i, n) ∈ createdNodes o pg c₀ → n.Grounded o
  onto : ∀ i < (setCompose o c₀ pg).1.numStates, ∃ n, (i, n) ∈ createdNodes o pg c₀

theorem numbered_of_valid (ha : o.a.Valid) (hb : o.b.Valid) (pg : Bool) (c₀ : CascadeParameters) :
    Numbered o pg c₀ := by
  obtain ⟨finalA, hfinalA, -⟩ := ha.final_lt
  obtain ⟨finalB, hfinalB, -⟩ := hb.final_lt
  obtain ⟨done, hB, hdone⟩ := Builder.result_spec pg (fun _ => none) c₀ ha hb
  have hkeep {n n' : Node} {made : Record W} (hmove : Move o pg n made n') (hn : n.Grounded o) :
      n'.Grounded o := hmove.grounded ha hb hn
  have hkeys := Builder.allKeys_result hkeep c₀
    (show startNode.Grounded o from ⟨ha.start_lt, hb.start_lt⟩)
  have hmem (i : ℕ) (n : Node) : (i, n) ∈ (Builder.result o pg c₀).keys ↔ _ :=
    Builder.mem_keys_iff hB.keys_nodup hkeys.nodup
  -- the joined state has a number past all others
  have hcases {i : ℕ} {n : Node} (h : (i, n) ∈ createdNodes o pg c₀) :
      (Builder.result o pg c₀).num n = some i ∨
        i = (Builder.result o pg c₀).states.length ∧ n = .merged := by
    rw [createdNodes, hfinalA, hfinalB] at h
    dsimp only at h
    split at h
    · rcases List.mem_append.mp h with h | h
      · exact .inl ((hmem i n).mp h)
      · exact .inr (Prod.mk.inj (List.mem_singleton.mp h))
    · exact .inl ((hmem i n).mp h)
  constructor
  case number =>
    intro i i' n h h'
    rcases hcases h with h | ⟨rfl, rfl⟩
    · rcases hcases h' with h' | ⟨-, rfl⟩
      · exact Option.some.inj (h.symm.trans h')
      · cases h
    · rcases hcases h' with h' | ⟨rfl, -⟩
      · cases h'
      · rfl
  case node =>
    intro i n n' h h'
    rcases hcases h with h | ⟨rfl, rfl⟩
    · rcases hcases h' with h' | ⟨rfl, -⟩
      · exact hB.num_inj h h'
      · exact absurd (hB.num_lt h) (Nat.lt_irrefl _)
    · rcases hcases h' with h' | ⟨-, rfl⟩
      · exact absurd (hB.num_lt h') (Nat.lt_irrefl _)
      · rfl
  case grounded =>
    intro i n h
    rcases hcases h with h | ⟨-, rfl⟩
    · rcases List.mem_append.mp ((hmem i n).mpr h) with h | h <;>
        obtain ⟨p, hp, heq⟩ := List.mem_map.mp h
      · exact (Prod.mk.inj heq).2 ▸ hkeys.trio p hp
      · exact (Prod.mk.inj heq).2 ▸ hkeys.mediate p hp
    · trivial
  case onto =>
    intro i hi
    have hresult : (setCompose o c₀ pg).1 =
        composeFinal o finalA finalB (Builder.result o pg c₀) := by
      rw [setCompose, hfinalA, hfinalB]
      rfl
    rw [hresult] at hi
    rw [createdNodes, hfinalA, hfinalB]
    dsimp only
    rcases hlist : (Builder.result o pg c₀).pFinal finalA finalB with _ | ⟨f, _ | ⟨g, rest⟩⟩
    · rw [composeFinal, hlist] at hi
      exact absurd hi (Nat.not_lt_zero i)
    · rw [composeFinal, hlist] at hi
      obtain ⟨n, hn⟩ := hB.onto i hi
      exact ⟨n, (hmem i n).mpr hn⟩
    · have hlen : ((Builder.result o pg c₀).joined finalA finalB).states.length =
          (Builder.result o pg c₀).states.length + 1 := by
        rw [Builder.joined, Builder.length_foldl_addArc]
        simp
      rw [composeFinal, hlist] at hi
      dsimp only [WFST.numStates] at hi
      rw [hlen] at hi
      rcases Nat.lt_succ_iff_lt_or_eq.mp hi with hi | rfl
      · obtain ⟨n, hn⟩ := hB.onto i hi
        exact ⟨n, List.mem_append_left _ ((hmem i n).mpr hn)⟩
      · exact ⟨.merged, List.mem_append_right _ List.mem_cons_self⟩

end Carmel
