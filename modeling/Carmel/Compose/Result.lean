/-
# The paths of a composition

Joining the final nodes adds at most one more state. So the start-to-final paths of the
composition are the walks of the automaton from the initial pair to the final pair, followed
by a locked epsilon arc if final states were joined.
-/

import Carmel.Compose.Worklist

namespace Carmel

open Carmel.Math

universe u

variable {W : Type u} [CommMonoid W] [DecidableEq W]

/-- A composed arc shows what it was made from. -/
structure ArcShows (o : Operands W) (mem : Param → Option (FSTArc W)) (c₀ c : CascadeParameters)
    (arc : FSTArc W) (made : Record W) : Prop where
  inp : arc.inp = made.inp
  out : arc.out = made.out
  weight : arc.weight = made.weight
  group : o.Recordable c₀ mem → c.chains[arc.groupId]? = some (o.recordedChain c₀ made)

/-- The graph given by the items of each node. -/
def ItemAdj (items : Node → List (Item W)) (n : Node) (made : Record W) (n' : Node) : Prop :=
  ⟨made, n'⟩ ∈ items n

section Realize

variable (o : Operands W) (mem : Param → Option (FSTArc W)) (c₀ : CascadeParameters)

/-- Transducer `x` is the graph of `items`, with the nodes numbered by `num`. -/
structure Realizes (x : WFST W) (c : CascadeParameters) (num : Node → Option ℕ)
    (items : Node → List (Item W)) : Prop where
  num_inj : ∀ {n n' i}, num n = some i → num n' = some i → n = n'
  start : num startNode = some 0
  arcs : ∀ {n i}, num n = some i →
    List.Forall₂ (ArcMade o mem c₀ num c) (x.state i).arcs (items n).reverse
  nodup : ∀ n, ((items n).map Item.made).Nodup
  num_lt : ∀ {n i}, num n = some i → i < x.numStates
  onto : ∀ i < x.numStates, ∃ n, num n = some i
  owns : ∀ {n it}, it ∈ items n → o.Owns it.made

variable {o mem c₀} {x : WFST W} {c : CascadeParameters} {num : Node → Option ℕ}
variable {items : Node → List (Item W)}

/-- The item at the position of an arc. -/
theorem Realizes.exists_item (hx : Realizes o mem c₀ x c num items) {n : Node} {i : ℕ}
    (hn : num n = some i) {h : HalfArc W} (hh : h ∈ x.outArcs i) :
    ∃ it, (items n).reverse[h.pos]? = some it ∧ ArcMade o mem c₀ num c h.arc it := by
  obtain ⟨-, harc⟩ := WFST.mem_outArcs.mp hh
  obtain ⟨hlt, harc⟩ := List.getElem?_eq_some_iff.mp harc
  have hlen := (hx.arcs hn).length_eq
  refine ⟨(items n).reverse[h.pos], List.getElem?_eq_getElem _, ?_⟩
  have hget := (hx.arcs hn).get hlt (hlen ▸ hlt)
  rwa [List.get_eq_getElem, List.get_eq_getElem, harc] at hget

theorem Realizes.exists_arc (hx : Realizes o mem c₀ x c num items) {n : Node} {i : ℕ}
    (hn : num n = some i) {it : Item W} (hit : it ∈ items n) :
    ∃ h ∈ x.outArcs i, (items n).reverse[h.pos]? = some it ∧ ArcMade o mem c₀ num c h.arc it := by
  obtain ⟨pos, hlt, rfl⟩ := List.getElem_of_mem (List.mem_reverse.mpr hit)
  have hlen := (hx.arcs hn).length_eq
  have hlt' : pos < (x.state i).arcs.length := hlen ▸ hlt
  refine ⟨⟨i, pos, (x.state i).arcs[pos]⟩, WFST.mem_outArcs.mpr ⟨rfl, List.getElem?_eq_getElem _⟩,
    List.getElem?_eq_getElem _, ?_⟩
  have hget := (hx.arcs hn).get hlt' hlt
  rwa [List.get_eq_getElem, List.get_eq_getElem] at hget

theorem Realizes.item_unique (hx : Realizes o mem c₀ x c num items) {n : Node} {it it' : Item W}
    (hit : it ∈ items n) (hit' : it' ∈ items n) (hmade : it.made = it'.made) : it = it' :=
  List.inj_on_of_nodup_map (hx.nodup n) hit hit' hmade

/-- The arcs out of a state correspond, by position, to the items of its node. -/
def Realizes.correspondence (hx : Realizes o mem c₀ x c num items) :
    Correspondence x.Adj (ItemAdj items) where
  rel i n := num n = some i
  edge i h made := ∃ n it, num n = some i ∧ (items n).reverse[h.pos]? = some it ∧ it.made = made ∧
    ArcMade o mem c₀ num c h.arc it
  det := WFST.Adj.det
  det' := fun {n made b c} hb hc =>
    congrArg Item.dest
      (hx.item_unique (show (⟨made, b⟩ : Item W) ∈ items n from hb)
        (show (⟨made, c⟩ : Item W) ∈ items n from hc) rfl)
  forth := by
    rintro i n h t hn ⟨hh, rfl⟩
    obtain ⟨it, hpos, harc⟩ := hx.exists_item hn hh
    exact ⟨it.made, it.dest, ⟨n, it, hn, hpos, rfl, harc⟩,
      List.mem_reverse.mp (List.mem_of_getElem? hpos), harc.dest⟩
  back := by
    intro i n made n' hn hit
    obtain ⟨h, hh, hpos, harc⟩ := hx.exists_arc hn hit
    exact ⟨h, h.arc.dest, ⟨n, _, hn, hpos, rfl, harc⟩, ⟨hh, rfl⟩, harc.dest⟩
  right_unique := by
    rintro i h t made₁ made₂ - ⟨n₁, it₁, hn₁, hpos₁, rfl, -⟩ ⟨n₂, it₂, hn₂, hpos₂, rfl, -⟩
    obtain rfl := hx.num_inj hn₁ hn₂
    rw [Option.some.inj (hpos₁.symm.trans hpos₂)]
  left_unique := by
    rintro i h₁ h₂ t₁ t₂ made ⟨hh₁, -⟩ ⟨hh₂, -⟩ ⟨n₁, it₁, hn₁, hpos₁, rfl, -⟩
      ⟨n₂, it₂, hn₂, hpos₂, hmade, -⟩
    obtain rfl := hx.num_inj hn₁ hn₂
    have hit := hx.item_unique (List.mem_reverse.mp (List.mem_of_getElem? hpos₂))
      (List.mem_reverse.mp (List.mem_of_getElem? hpos₁)) hmade
    subst hit
    have hnodup : (items n₁).reverse.Nodup := List.nodup_reverse.mpr (hx.nodup n₁).of_map
    obtain ⟨hlt₁, heq₁⟩ := List.getElem?_eq_some_iff.mp hpos₁
    obtain ⟨hlt₂, heq₂⟩ := List.getElem?_eq_some_iff.mp hpos₂
    exact WFST.outArcs_eq_of_pos hh₁ hh₂ ((hnodup.getElem_inj_iff).mp (heq₁.trans heq₂.symm))

/-- The paths of `x` are the accepted walks of its nodes. -/
theorem Realizes.exists_equiv (hx : Realizes o mem c₀ x c num items) {goal : Node → Prop}
    (hgoal : ∀ {n i}, num n = some i → (x.final = some i ↔ goal n)) :
    ∃ e : {π // x.IsPath π} ≃ {rs // Accepted (ItemAdj items) goal startNode rs},
      ∀ π, List.Forall₂ (fun h made => ArcShows o mem c₀ c h.arc made) π.1 (e π).1 := by
  obtain ⟨e, he⟩ := hx.correspondence.exists_equiv (fun s => x.final = some s) goal hx.start hgoal
  refine ⟨e, fun π => (he π).forall₂ ?_⟩
  rintro i h t made - ⟨n, it, -, -, rfl, harc⟩
  exact ⟨harc.inp, harc.out, harc.weight, harc.group⟩

/-- Every arc of `x` was made from operand arcs. -/
theorem Realizes.exists_made (hx : Realizes o mem c₀ x c num items) {state : State W}
    (hstate : state ∈ x.states) {arc : FSTArc W} (harc : arc ∈ state.arcs) :
    ∃ made, o.Owns made ∧ ArcShows o mem c₀ c arc made ∧ arc.dest < x.numStates := by
  obtain ⟨i, hi, rfl⟩ := List.getElem_of_mem hstate
  obtain ⟨pos, hpos, rfl⟩ := List.getElem_of_mem harc
  obtain ⟨n, hn⟩ := hx.onto i hi
  have hmem : (⟨i, pos, x.states[i].arcs[pos]⟩ : HalfArc W) ∈ x.outArcs i := by
    rw [WFST.mem_outArcs, WFST.state, List.getD_eq_getElem?_getD, List.getElem?_eq_getElem hi,
      Option.getD_some]
    exact ⟨rfl, List.getElem?_eq_getElem hpos⟩
  obtain ⟨it, hit, hmade⟩ := hx.exists_item hn hmem
  exact ⟨it.made, hx.owns (List.mem_reverse.mp (List.mem_of_getElem? hit)),
    ⟨hmade.inp, hmade.out, hmade.weight, hmade.group⟩, hx.num_lt hmade.dest⟩

omit [DecidableEq W] [CommMonoid W] in
theorem Operands.Owns.inp_lt (ha : o.a.Valid) {made : Record W} (hmade : o.Owns made) :
    made.inp < o.a.inAlph.size := by
  have hepsilon : epsilonIndex < o.a.inAlph.size :=
    (List.getElem?_eq_some_iff.mp o.a.inAlph.epsilon).1
  have hleft : ∀ {l : HalfArc W}, (∃ s, l ∈ o.a.outArcs s) → l.arc.inp < o.a.inAlph.size := by
    rintro l ⟨s, hl⟩
    obtain ⟨state, hstate, harc⟩ := WFST.mem_state_arcs_of_mem_outArcs hl
    exact ha.inp_lt state hstate _ harc
  cases made with
  | left l => exact hleft hmade
  | right r => exact hepsilon
  | both l r => exact hleft hmade.1
  | locked => exact hepsilon

omit [DecidableEq W] [CommMonoid W] in
theorem Operands.Owns.out_lt (hb : o.b.Valid) {made : Record W} (hmade : o.Owns made) :
    made.out < o.b.outAlph.size := by
  have hepsilon : epsilonIndex < o.b.outAlph.size :=
    (List.getElem?_eq_some_iff.mp o.b.outAlph.epsilon).1
  have hright : ∀ {r : HalfArc W}, (∃ s, r ∈ o.b.outArcs s) → r.arc.out < o.b.outAlph.size := by
    rintro r ⟨s, hr⟩
    obtain ⟨state, hstate, harc⟩ := WFST.mem_state_arcs_of_mem_outArcs hr
    exact hb.out_lt state hstate _ harc
  cases made with
  | left l => exact hepsilon
  | right r => exact hright hmade
  | both l r => exact hright hmade.2
  | locked => exact hepsilon

theorem Realizes.valid (hx : Realizes o mem c₀ x c num items) (ha : o.a.Valid) (hb : o.b.Valid)
    (hinp : x.inAlph = o.a.inAlph) (hout : x.outAlph = o.b.outAlph)
    (hfinal : ∃ f, x.final = some f ∧ f < x.numStates) : x.Valid where
  start_lt := hx.num_lt hx.start
  final_lt := hfinal
  dest_lt _ hstate _ harc := by
    obtain ⟨_, -, -, hdest⟩ := hx.exists_made hstate harc
    exact hdest
  inp_lt _ hstate _ harc := by
    obtain ⟨_, howns, hshows, -⟩ := hx.exists_made hstate harc
    rw [hshows.inp, hinp]
    exact howns.inp_lt ha
  out_lt _ hstate _ harc := by
    obtain ⟨_, howns, hshows, -⟩ := hx.exists_made hstate harc
    rw [hshows.out, hout]
    exact howns.out_lt hb

/-- Every arc of a recorded composition refers to a chain. -/
theorem Realizes.chained (hx : Realizes o mem c₀ x c num items) (hrec : o.Recordable c₀ mem) :
    c.Chained x := by
  intro s h hh
  obtain ⟨state, hstate, harc⟩ := WFST.mem_state_arcs_of_mem_outArcs hh
  obtain ⟨_, -, hshows, -⟩ := hx.exists_made hstate harc
  exact (List.getElem?_eq_some_iff.mp (hshows.group hrec)).1

end Realize

/-- The copies of the final pair. -/
def FinalNode (finalA finalB : ℕ) (n : Node) : Prop := ∃ f : Fin 3, n = .trio ⟨finalA, finalB, f⟩

instance (finalA finalB : ℕ) (n : Node) : Decidable (FinalNode finalA finalB n) :=
  inferInstanceAs (Decidable (∃ _ : Fin 3, _))

section Join

variable {finalA finalB : ℕ}

/-- The items once every final node has got an arc to the joining state. -/
def joinItems (finalA finalB : ℕ) (items : Node → List (Item W)) (n : Node) : List (Item W) :=
  if FinalNode finalA finalB n then items n ++ [⟨.locked, .merged⟩] else items n

variable {o : Operands W} {pg : Bool}

omit [CommMonoid W] [DecidableEq W] in
theorem Move.ne_merged {n n' : Node} {made : Record W} (h : Move o pg n made n') :
    n ≠ .merged ∧ n' ≠ .merged ∧ made ≠ .locked := by
  cases pg with
  | true =>
    rw [Move, if_pos rfl] at h
    cases h <;> simp
  | false =>
    rw [Move, if_neg Bool.false_ne_true] at h
    cases h <;> simp

omit [DecidableEq W]

theorem itemAdj_nodeItems_iff {n n' : Node} {made : Record W} :
    ItemAdj (nodeItems o pg) n made n' ↔ Move o pg n made n' :=
  mem_nodeItems o pg n ⟨made, n'⟩

theorem itemAdj_joinItems_iff {n n' : Node} {made : Record W} :
    ItemAdj (joinItems finalA finalB (nodeItems o pg)) n made n' ↔
      Move o pg n made n' ∨ FinalNode finalA finalB n ∧ made = .locked ∧ n' = .merged := by
  rw [← itemAdj_nodeItems_iff, ItemAdj, ItemAdj, joinItems]
  by_cases hn : FinalNode finalA finalB n <;> simp [hn]

theorem joinItems_nodup (n : Node) :
    ((joinItems finalA finalB (nodeItems o pg) n).map Item.made).Nodup := by
  have hnodup := nodeItems_nodup o pg n
  rw [joinItems]
  split
  case isTrue =>
    rw [List.map_append, List.map_singleton]
    refine List.Nodup.append hnodup (List.nodup_singleton _) ?_
    intro made hmade hlocked
    obtain ⟨it, hit, rfl⟩ := List.mem_map.mp hmade
    exact ((mem_nodeItems o pg n it).mp hit).ne_merged.2.2 (List.mem_singleton.mp hlocked)
  case isFalse => exact hnodup

/-- A walk to the joining state is a walk to a final node and one locked arc. -/
theorem walk_merged_iff {n : Node} (hn : n ≠ .merged) {rs : List (Record W)} :
    Walk (ItemAdj (joinItems finalA finalB (nodeItems o pg))) n rs .merged ↔
      ∃ rs', rs = rs' ++ [.locked] ∧ Accepted (Move o pg) (FinalNode finalA finalB) n rs' := by
  constructor
  · intro walk
    induction rs generalizing n with
    | nil => exact absurd (Walk.nil_iff.mp walk) hn
    | cons made rs ih =>
      obtain ⟨m, step, rest⟩ := Walk.cons_iff.mp walk
      rcases itemAdj_joinItems_iff.mp step with hmove | ⟨hfinal, rfl, rfl⟩
      · obtain ⟨rs', rfl, v, walk', hv⟩ := ih hmove.ne_merged.2.1 rest
        exact ⟨made :: rs', rfl, v, .cons hmove walk', hv⟩
      · cases rs with
        | nil => exact ⟨[], rfl, n, .nil n, hfinal⟩
        | cons made' rs' =>
          obtain ⟨m, step', -⟩ := Walk.cons_iff.mp rest
          rcases itemAdj_joinItems_iff.mp step' with hmove | ⟨⟨f, hf⟩, -⟩
          · exact absurd rfl hmove.ne_merged.1
          · cases hf
  · rintro ⟨rs', rfl, v, walk, hv⟩
    have walk' : Walk (ItemAdj (joinItems finalA finalB (nodeItems o pg))) n rs' v :=
      walk.mono fun h => itemAdj_joinItems_iff.mpr (.inl h)
    exact walk'.append (.single (itemAdj_joinItems_iff.mpr (.inr ⟨hv, rfl, rfl⟩)))

end Join

namespace Builder

variable {o : Operands W} {pg : Bool} {mem : Param → Option (FSTArc W)} {c₀ : CascadeParameters}
variable {finalA finalB : ℕ}

omit [CommMonoid W] [DecidableEq W] in
theorem mem_pFinal {B : Builder W} {i : ℕ} :
    i ∈ B.pFinal finalA finalB ↔ ∃ n, FinalNode finalA finalB n ∧ B.num n = some i := by
  rw [pFinal, List.mem_filterMap]
  constructor
  · rintro ⟨f, -, hf⟩
    exact ⟨_, ⟨f, rfl⟩, hf⟩
  · rintro ⟨-, ⟨f, rfl⟩, hf⟩
    exact ⟨f, (by decide : ∀ f : Fin 3, f ∈ ([0, 1, 2] : List (Fin 3))) f, hf⟩

theorem Inv.pFinal_nodup {B : Builder W} {done : Node → List (Item W)} (hB : B.Inv o mem c₀ done) :
    (B.pFinal finalA finalB).Nodup := by
  refine List.Nodup.filterMap ?_ (by decide)
  intro f f' i hf hf'
  have hi : B.num (.trio ⟨finalA, finalB, f⟩) = some i := hf
  have hi' : B.num (.trio ⟨finalA, finalB, f'⟩) = some i := hf'
  cases hB.num_inj hi hi'
  rfl

theorem Inv.realizes {B : Builder W} {done : Node → List (Item W)} (hB : B.Inv o mem c₀ done)
    (hdone : ∀ n i, B.num n = some i → done n = nodeItems o pg n) (final : Option ℕ) :
    Realizes o mem c₀ ⟨B.states, final, o.a.inAlph, o.b.outAlph⟩ B.cascade B.num (nodeItems o pg) where
  num_inj := hB.num_inj
  start := hB.start
  arcs h := hdone _ _ h ▸ hB.arcs h
  nodup := nodeItems_nodup o pg
  num_lt := hB.num_lt
  onto := hB.onto
  owns hit := ((mem_nodeItems o pg _ _).mp hit).owns

omit [DecidableEq W] [CommMonoid W] in
theorem length_foldl_addArc (arc : FSTArc W) (ss : List ℕ) (B : Builder W) :
    (ss.foldl (fun B s => B.addArc s arc) B).states.length = B.states.length := by
  induction ss generalizing B with
  | nil => rfl
  | cons s ss ih => rw [List.foldl_cons, ih]; simp [addArc]

omit [DecidableEq W] [CommMonoid W] in
/-- Adding the same arc to several states. -/
theorem arcs_foldl_addArc (arc : FSTArc W) (ss : List ℕ) (hss : ss.Nodup) (B : Builder W)
    (hlt : ∀ s ∈ ss, s < B.states.length) (i : ℕ) :
    (ss.foldl (fun B s => B.addArc s arc) B).arcs i = if i ∈ ss then arc :: B.arcs i else B.arcs i := by
  induction ss generalizing B with
  | nil => simp
  | cons s ss ih =>
    obtain ⟨hs, hss⟩ := List.nodup_cons.mp hss
    have hlen : (B.addArc s arc).states.length = B.states.length := by simp [addArc]
    rw [List.foldl_cons, ih hss _ fun t ht => hlen ▸ hlt t (List.mem_cons_of_mem _ ht),
      arcs_addArc B (hlt s List.mem_cons_self)]
    by_cases hi : i = s
    · subst hi
      simp [hs]
    · simp [hi]

/-- The numbers of the nodes after joining. -/
def joinedNum (B : Builder W) (n : Node) : Option ℕ :=
  if n = .merged then some B.states.length else B.num n

theorem Inv.joined_realizes {B : Builder W} {done : Node → List (Item W)}
    (hB : B.Inv o mem c₀ done) (hdone : ∀ n i, B.num n = some i → done n = nodeItems o pg n)
    (finalA finalB : ℕ) (final : Option ℕ) :
    Realizes o mem c₀ ⟨(B.joined finalA finalB).states, final, o.a.inAlph, o.b.outAlph⟩ B.cascade
      B.joinedNum (joinItems finalA finalB (nodeItems o pg)) := by
  have hkeep {n : Node} {i : ℕ} (h : B.num n = some i) : B.joinedNum n = some i := by
    rw [joinedNum, if_neg, h]
    rintro rfl
    cases h
  have hcases {n : Node} {i : ℕ} (h : B.joinedNum n = some i) :
      (n = .merged ∧ i = B.states.length) ∨ (n ≠ .merged ∧ B.num n = some i) := by
    rw [joinedNum] at h
    split at h
    case isTrue heq => exact .inl ⟨heq, (Option.some.inj h).symm⟩
    case isFalse hne => exact .inr ⟨hne, h⟩
  have hpFinal_lt : ∀ s ∈ B.pFinal finalA finalB, s < B.states.length := by
    intro s hs
    obtain ⟨n, -, hn⟩ := mem_pFinal.mp hs
    exact hB.num_lt hn
  have harcs (i : ℕ) : (B.joined finalA finalB).arcs i = if i ∈ B.pFinal finalA finalB then
      ⟨epsilonIndex, epsilonIndex, B.states.length, 1, B.cascade.locked1GroupId⟩ :: B.arcs i
      else B.arcs i := by
    rw [joined, arcs_foldl_addArc _ _ hB.pFinal_nodup]
    · simp only [Builder.arcs, arcs_append_empty]
    · intro s hs
      have := hpFinal_lt s hs
      simp only [List.length_append, List.length_singleton]
      omega
  have hmade {arc : FSTArc W} {it : Item W} (h : ArcMade o mem c₀ B.num B.cascade arc it) :
      ArcMade o mem c₀ B.joinedNum B.cascade arc it := ArcMade.later hkeep (fun _ => .refl _) h
  have hlen : (B.joined finalA finalB).states.length = B.states.length + 1 := by
    rw [joined, length_foldl_addArc]
    simp
  refine ⟨?_, hkeep hB.start, ?_, joinItems_nodup, ?_, ?_, ?_⟩
  · intro n n' i h h'
    rcases hcases h with ⟨rfl, rfl⟩ | ⟨-, h⟩ <;> rcases hcases h' with ⟨rfl, hi⟩ | ⟨-, h'⟩
    · rfl
    · exact absurd (hB.num_lt h') (Nat.lt_irrefl _)
    · exact absurd (hB.num_lt h) (by omega)
    · exact hB.num_inj h h'
  · intro n i h
    change List.Forall₂ _ ((B.joined finalA finalB).arcs i) _
    rw [harcs]
    rcases hcases h with ⟨rfl, rfl⟩ | ⟨hne, hn⟩
    · have hnotFinal : ¬ FinalNode finalA finalB .merged := by
        rintro ⟨f, hf⟩
        cases hf
      rw [if_neg fun hmem => Nat.lt_irrefl _ (hpFinal_lt _ hmem), joinItems, if_neg hnotFinal,
        Builder.arcs, List.getD_eq_getElem?_getD, List.getElem?_eq_none (Nat.le_refl _)]
      exact .nil
    · have hold := (hdone n i hn ▸ hB.arcs hn).imp fun _ _ => hmade
      by_cases hfinal : FinalNode finalA finalB n
      · rw [if_pos (mem_pFinal.mpr ⟨n, hfinal, hn⟩), joinItems, if_pos hfinal, List.reverse_append,
          List.reverse_singleton, List.singleton_append]
        refine .cons ⟨rfl, rfl, rfl, if_pos rfl, fun hrec => ?_⟩ hold
        obtain ⟨hsound, -⟩ := hB.recorder hrec
        have hid : B.cascade.locked1GroupId = CascadeParameters.nilChain := by
          rw [CascadeParameters.locked1GroupId, hsound.nontrivial, if_neg Bool.false_ne_true]
        rw [hid]
        exact hsound.nil
      · rw [if_neg, joinItems, if_neg hfinal]
        · exact hold
        · intro hmem
          obtain ⟨n', hfinal', hn'⟩ := mem_pFinal.mp hmem
          exact hfinal (hB.num_inj hn hn' ▸ hfinal')
  · intro n i h
    rw [WFST.numStates, hlen]
    rcases hcases h with ⟨-, rfl⟩ | ⟨-, h⟩
    · omega
    · have := hB.num_lt h
      omega
  · intro i hi
    rw [WFST.numStates, hlen] at hi
    rcases Nat.lt_or_ge i B.states.length with hlt | hge
    · obtain ⟨n, hn⟩ := hB.onto i hlt
      exact ⟨n, hkeep hn⟩
    · exact ⟨.merged, by rw [joinedNum, if_pos rfl]; congr 1; omega⟩
  · intro n it hit
    rcases itemAdj_joinItems_iff.mp hit with hmove | ⟨-, hlocked, -⟩
    · exact hmove.owns
    · rw [hlocked]
      trivial

end Builder

theorem Builder.Inv.composeFinal_cases {o : Operands W} {pg : Bool}
    {mem : Param → Option (FSTArc W)} {c₀ : CascadeParameters} {B : Builder W}
    {done : Node → List (Item W)} (hB : B.Inv o mem c₀ done)
    (hdone : ∀ n i, B.num n = some i → done n = nodeItems o pg n) (finalA finalB : ℕ) :
    composeFinal o finalA finalB B = invalidResult o ∨
      (∃ f, (composeFinal o finalA finalB B).final = some f ∧
        f < (composeFinal o finalA finalB B).numStates) ∧
      ∃ num items, Realizes o mem c₀ (composeFinal o finalA finalB B) B.cascade num items := by
  rcases hlist : B.pFinal finalA finalB with _ | ⟨f, _ | ⟨g, rest⟩⟩
  · exact .inl (by rw [composeFinal, hlist])
  · obtain ⟨n, -, hn⟩ := Builder.mem_pFinal.mp (hlist ▸ List.mem_cons_self)
    refine .inr ?_
    rw [composeFinal, hlist]
    exact ⟨⟨f, rfl, hB.num_lt hn⟩, _, _, hB.realizes hdone (some f)⟩
  · have hresult : composeFinal o finalA finalB B =
        ⟨(B.joined finalA finalB).states, some B.states.length, o.a.inAlph, o.b.outAlph⟩ := by
      rw [composeFinal, hlist]
    have hrealizes := hB.joined_realizes hdone finalA finalB (some B.states.length)
    rw [hresult]
    exact .inr ⟨⟨_, rfl, hrealizes.num_lt (if_pos rfl : B.joinedNum .merged = _)⟩, _, _, hrealizes⟩

section Paths

variable (o : Operands W) (pg : Bool) (mem : Param → Option (FSTArc W)) (c₀ : CascadeParameters)

/-- A walk of the filter automaton from the initial to the final pair. -/
def RecordPath (rs : List (Record W)) : Prop :=
  ∃ finalA finalB, o.a.final = some finalA ∧ o.b.final = some finalB ∧
    Accepted (Move o pg) (FinalNode finalA finalB) startNode rs

/-- A composed path shows a walk of the automaton: arc by arc what the arcs were
made from, and perhaps a last arc that only joins final states. -/
def PathShows (c : CascadeParameters) (path : List (HalfArc W)) (rs : List (Record W)) : Prop :=
  ∃ join, (join = [] ∨ join = [Record.locked]) ∧
    List.Forall₂ (fun h made => ArcShows o mem c₀ c h.arc made) path (rs ++ join)

variable {o pg}

theorem Builder.Inv.exists_equiv_final {B : Builder W} {done : Node → List (Item W)}
    (hB : B.Inv o mem c₀ done) (hdone : ∀ n i, B.num n = some i → done n = nodeItems o pg n)
    (finalA finalB : ℕ) :
    ∃ e : {π // (composeFinal o finalA finalB B).IsPath π} ≃
        {rs // Accepted (Move o pg) (FinalNode finalA finalB) startNode rs},
      ∀ π, PathShows o mem c₀ B.cascade π.1 (e π).1 := by
  have hadj : ItemAdj (nodeItems o pg) = Move o pg := by
    funext n made n'
    exact propext itemAdj_nodeItems_iff
  rcases hlist : B.pFinal finalA finalB with _ | ⟨f, _ | ⟨g, rest⟩⟩
  · -- No copy of the final pair was reached.
    have hresult : composeFinal o finalA finalB B = invalidResult o := by
      rw [composeFinal, hlist]
    have hnone : ∀ rs, ¬ Accepted (Move o pg) (FinalNode finalA finalB) startNode rs := by
      rintro rs ⟨n, walk, hn⟩
      have hnum := Walk.invariant (P := fun n => ∃ i, B.num n = some i) ?_ walk ⟨0, hB.start⟩
      · obtain ⟨i, hi⟩ := hnum
        exact absurd (hlist ▸ mem_pFinal.mpr ⟨n, hn, hi⟩) List.not_mem_nil
      · rintro n made n' hmove ⟨i, hi⟩
        obtain ⟨h, -, -, harc⟩ := (hB.realizes hdone none).exists_arc hi
          (itemAdj_nodeItems_iff.mpr hmove)
        exact ⟨_, harc.dest⟩
    have hempty : IsEmpty {π // (composeFinal o finalA finalB B).IsPath π} := by
      rw [hresult]
      constructor
      rintro ⟨π, s, -, hs⟩
      cases hs
    have hempty' : IsEmpty {rs // Accepted (Move o pg) (FinalNode finalA finalB) startNode rs} :=
      ⟨fun rs => hnone rs.1 rs.2⟩
    exact ⟨Equiv.equivOfIsEmpty _ _, fun π => hempty.elim π⟩
  · -- One copy: it is the final state.
    have hresult : composeFinal o finalA finalB B =
        ⟨B.states, some f, o.a.inAlph, o.b.outAlph⟩ := by
      rw [composeFinal, hlist]
    have hgoal {n : Node} {i : ℕ} (hn : B.num n = some i) :
        some f = some i ↔ FinalNode finalA finalB n := by
      rw [Option.some.injEq]
      have hmem : ∀ {j}, j ∈ B.pFinal finalA finalB ↔ j = f := by simp [hlist]
      constructor
      · rintro rfl
        obtain ⟨n', hfinal, hn'⟩ := mem_pFinal.mp (hmem.mpr rfl)
        exact hB.num_inj hn hn' ▸ hfinal
      · intro hfinal
        exact (hmem.mp (mem_pFinal.mpr ⟨n, hfinal, hn⟩)).symm
    have hpaths := (hB.realizes hdone (some f)).exists_equiv hgoal
    rw [hadj] at hpaths
    obtain ⟨e, he⟩ := hpaths
    rw [hresult]
    exact ⟨e, fun π => ⟨[], .inl rfl, by rw [List.append_nil]; exact he π⟩⟩
  · -- Several copies: they are joined.
    have hresult : composeFinal o finalA finalB B =
        ⟨(B.joined finalA finalB).states, some B.states.length, o.a.inAlph, o.b.outAlph⟩ := by
      rw [composeFinal, hlist]
    have hgoal {n : Node} {i : ℕ} (hn : B.joinedNum n = some i) :
        some B.states.length = some i ↔ n = .merged := by
      rw [Builder.joinedNum] at hn
      split at hn
      case isTrue heq => exact iff_of_true hn heq
      case isFalse hne =>
        refine iff_of_false (fun h => ?_) hne
        have := hB.num_lt hn
        rw [Option.some.inj h] at this
        exact Nat.lt_irrefl _ this
    obtain ⟨e, he⟩ :=
      (hB.joined_realizes hdone finalA finalB _).exists_equiv hgoal
    obtain ⟨e', he'⟩ := exists_equiv_of_unique
      (fun (rs : {rs // Accepted (ItemAdj (joinItems finalA finalB (nodeItems o pg)))
          (· = .merged) startNode rs})
        (rs' : {rs // Accepted (Move o pg) (FinalNode finalA finalB) startNode rs}) =>
        rs.1 = rs'.1 ++ [.locked])
      (by
        rintro ⟨rs, hrs⟩
        obtain ⟨rs', rfl, hrs'⟩ := (walk_merged_iff (by simp [startNode])).mp
          (accepted_eq_iff.mp hrs)
        exact ⟨⟨rs', hrs'⟩, rfl, fun other hother =>
          Subtype.ext (List.append_cancel_right hother).symm⟩)
      (by
        rintro ⟨rs', hrs'⟩
        have hwalk := (walk_merged_iff (by simp [startNode])).mpr ⟨rs', rfl, hrs'⟩
        exact ⟨⟨rs' ++ [.locked], accepted_eq_iff.mpr hwalk⟩, rfl,
          fun other hother => Subtype.ext hother⟩)
    rw [hresult]
    refine ⟨e.trans e', fun π => ⟨[.locked], .inr rfl, ?_⟩⟩
    rw [Equiv.trans_apply, ← he']
    exact he π

/-- **The paths of a composition are the walks of the filter automaton.** -/
theorem exists_recordPath_equiv (pg : Bool) (ha : o.a.Valid) (hb : o.b.Valid) :
    ∃ e : {π // (setCompose o c₀ pg).1.IsPath π} ≃ {rs // RecordPath o pg rs},
      ∀ π, PathShows o mem c₀ (setCompose o c₀ pg).2 π.1 (e π).1 := by
  obtain ⟨finalA, hfinalA, -⟩ := ha.final_lt
  obtain ⟨finalB, hfinalB, -⟩ := hb.final_lt
  obtain ⟨done, hB, hdone⟩ := Builder.result_spec pg mem c₀ ha hb
  have hcompose : setCompose o c₀ pg =
      (composeFinal o finalA finalB (Builder.result o pg c₀), (Builder.result o pg c₀).cascade) := by
    rw [setCompose, hfinalA, hfinalB]
    rfl
  have hrecord : ∀ rs, RecordPath o pg rs ↔
      Accepted (Move o pg) (FinalNode finalA finalB) startNode rs := by
    intro rs
    constructor
    · rintro ⟨fa, fb, hfa, hfb, hrs⟩
      obtain rfl := Option.some.inj (hfa.symm.trans hfinalA)
      obtain rfl := Option.some.inj (hfb.symm.trans hfinalB)
      exact hrs
    · exact fun hrs => ⟨finalA, finalB, hfinalA, hfinalB, hrs⟩
  obtain ⟨e, he⟩ := hB.exists_equiv_final mem c₀ hdone finalA finalB
  rw [hcompose]
  exact ⟨e.trans (Equiv.subtypeEquivRight fun rs => (hrecord rs).symm), he⟩

omit [DecidableEq W] in
theorem composeFinal_alphabets (finalA finalB : ℕ) (B : Builder W) :
    (composeFinal o finalA finalB B).inAlph = o.a.inAlph ∧
      (composeFinal o finalA finalB B).outAlph = o.b.outAlph := by
  unfold composeFinal
  split <;> exact ⟨rfl, rfl⟩

theorem setCompose_alphabets (o : Operands W) (pg : Bool) (c₀ : CascadeParameters) :
    (setCompose o c₀ pg).1.inAlph = o.a.inAlph ∧ (setCompose o c₀ pg).1.outAlph = o.b.outAlph := by
  rw [setCompose]
  split
  · exact composeFinal_alphabets ..
  · exact ⟨rfl, rfl⟩

/-- **A composition is valid or invalidated**, and the recorder keeps track of
all its arcs. -/
theorem setCompose_spec (pg : Bool) (ha : o.a.Valid) (hb : o.b.Valid) :
    ((setCompose o c₀ pg).1.Valid ∨ (setCompose o c₀ pg).1.final = none) ∧
      (o.Recordable c₀ mem → (setCompose o c₀ pg).2.Sound mem ∧ c₀.Extends (setCompose o c₀ pg).2 ∧
        (setCompose o c₀ pg).2.Chained (setCompose o c₀ pg).1) := by
  obtain ⟨finalA, hfinalA, -⟩ := ha.final_lt
  obtain ⟨finalB, hfinalB, -⟩ := hb.final_lt
  obtain ⟨done, hB, hdone⟩ := Builder.result_spec pg mem c₀ ha hb
  obtain ⟨hinp, hout⟩ := setCompose_alphabets o pg c₀
  have hcompose : setCompose o c₀ pg =
      (composeFinal o finalA finalB (Builder.result o pg c₀), (Builder.result o pg c₀).cascade) := by
    rw [setCompose, hfinalA, hfinalB]
    rfl
  rw [hcompose] at hinp hout ⊢
  rcases hB.composeFinal_cases hdone finalA finalB with hinvalid | ⟨hfinal, num, items, hx⟩
  · rw [hinvalid]
    refine ⟨.inr rfl, fun hrec => ⟨(hB.recorder hrec).1, (hB.recorder hrec).2, fun s h hh => ?_⟩⟩
    simp [invalidResult, WFST.outArcs, WFST.state] at hh
  · exact ⟨.inl (hx.valid ha hb hinp hout hfinal),
      fun hrec => ⟨(hB.recorder hrec).1, (hB.recorder hrec).2, hx.chained hrec⟩⟩

/-- An invalidated operand gives an invalidated composition. -/
theorem setCompose_of_invalid (pg : Bool) (h : o.a.final = none ∨ o.b.final = none) :
    setCompose o c₀ pg = (invalidResult o, c₀) := by
  rw [setCompose]
  split
  case h_1 hfa hfb => exact absurd h (by simp [hfa, hfb])
  case h_2 => rfl

end Paths

end Carmel
