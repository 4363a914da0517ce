/-
# The worklist builds the graph of the filter automaton

`done` tells which arcs of a numbered node have been added: none while the node waits in the
queue, all once its loop has run. Adding an arc keeps this bookkeeping, so the worklist
does; and it ends, because a key is queued only once and there are finitely many.
-/

import Carmel.Compose.Moves
import Carmel.Compose.Recording

namespace Carmel

universe u

variable {W : Type u} [CommMonoid W] [DecidableEq W]

/-- The operand states a node mentions exist. -/
def Node.InRange (o : Operands W) : Node → Prop
  | .trio k => k.qa < o.a.numStates ∧ k.qb < o.b.numStates
  | .mediate m => m.lDest < o.a.numStates
  | .merged => True

omit [CommMonoid W] [DecidableEq W] in
theorem Move.inRange {o : Operands W} {pg : Bool} (ha : o.a.Valid) (hb : o.b.Valid) {n n' : Node}
    {made : Record W} (hmove : Move o pg n made n') (hn : n.InRange o) : n'.InRange o := by
  cases pg with
  | true =>
    rw [Move, if_pos rfl] at hmove
    cases hmove with
    | left hl _ _ => exact ⟨ha.dest_lt' hl, hn.2⟩
    | right hr _ => exact ⟨hn.1, hb.dest_lt' hr⟩
    | hide hl _ _ => exact ha.dest_lt' hl
    | «show» hr _ => exact ⟨hn, hb.dest_lt' hr⟩
  | false =>
    rw [Move, if_neg Bool.false_ne_true] at hmove
    cases hmove with
    | left hl _ _ => exact ⟨ha.dest_lt' hl, hn.2⟩
    | right hr _ _ => exact ⟨hn.1, hb.dest_lt' hr⟩
    | epsilons hl hr _ _ _ => exact ⟨ha.dest_lt' hl, hb.dest_lt' hr⟩
    | matching hl hr _ _ => exact ⟨ha.dest_lt' hl, hb.dest_lt' hr⟩

omit [CommMonoid W] [DecidableEq W] in
theorem Move.owns {o : Operands W} {pg : Bool} {n n' : Node} {made : Record W}
    (hmove : Move o pg n made n') : o.Owns made := by
  cases pg with
  | true =>
    rw [Move, if_pos rfl] at hmove
    cases hmove with
    | left hl _ _ => exact ⟨_, hl⟩
    | right hr _ => exact ⟨_, hr⟩
    | hide hl _ _ => exact ⟨_, hl⟩
    | «show» hr _ => exact ⟨_, hr⟩
  | false =>
    rw [Move, if_neg Bool.false_ne_true] at hmove
    cases hmove with
    | left hl _ _ => exact ⟨_, hl⟩
    | right hr _ _ => exact ⟨_, hr⟩
    | epsilons hl hr _ _ _ => exact ⟨⟨_, hl⟩, _, hr⟩
    | matching hl hr _ _ => exact ⟨⟨_, hl⟩, _, hr⟩

/-- The initial node. -/
def startNode : Node := .trio ⟨0, 0, 0⟩

namespace Builder

/-- The number of a node, if it has been created. -/
def num (B : Builder W) : Node → Option ℕ
  | .trio k => B.stateMap.lookup k
  | .mediate m => B.arcStateMap.lookup m
  | .merged => none

/-- The arcs of a state built so far. -/
def arcs (B : Builder W) (i : ℕ) : List (FSTArc W) := (B.states.getD i State.empty).arcs

end Builder

section Invariant

variable (o : Operands W) (pg : Bool) (mem : Param → Option (FSTArc W)) (c₀ : CascadeParameters)

/-- A composed arc that stands for an item: it has the labels and the weight of
what it was made from, leads to the number of the item's target, and refers to
the right chain if the recorder can keep track. -/
structure ArcMade (num : Node → Option ℕ) (c : CascadeParameters) (arc : FSTArc W)
    (it : Item W) : Prop where
  inp : arc.inp = it.made.inp
  out : arc.out = it.made.out
  weight : arc.weight = it.made.weight
  dest : num it.dest = some arc.dest
  group : o.Recordable c₀ mem → c.chains[arc.groupId]? = some (o.recordedChain c₀ it.made)

/-- The bookkeeping that every step keeps. -/
structure Builder.Inv (B : Builder W) (done : Node → List (Item W)) : Prop where
  num_lt : ∀ {n i}, B.num n = some i → i < B.states.length
  num_inj : ∀ {n n' i}, B.num n = some i → B.num n' = some i → n = n'
  onto : ∀ i < B.states.length, ∃ n, B.num n = some i
  inRange : ∀ {n i}, B.num n = some i → n.InRange o
  arcs : ∀ {n i}, B.num n = some i →
    List.Forall₂ (ArcMade o mem c₀ B.num B.cascade) (B.arcs i) (done n).reverse
  fresh : ∀ {n}, B.num n = none → done n = []
  queued : ∀ q ∈ B.queue, B.num (.trio q.2) = some q.1 ∧ done (.trio q.2) = []
  queue_nodup : (B.queue.map Prod.snd).Nodup
  keys_nodup : (B.stateMap.map Prod.fst).Nodup
  start : B.num startNode = some 0
  recorder : o.Recordable c₀ mem → B.cascade.Sound mem ∧ c₀.Extends B.cascade

/-- Every node outside `open_` waits in the queue or has all its arcs. -/
def Builder.Settled (B : Builder W) (done : Node → List (Item W)) (open_ : Node → Prop) : Prop :=
  ∀ n i, B.num n = some i → ¬ open_ n → (∃ q ∈ B.queue, n = .trio q.2) ∨ done n = nodeItems o pg n

/-- Node `s` has number `i` and has left the queue. -/
def Builder.Active (B : Builder W) (s : Node) (i : ℕ) : Prop :=
  B.num s = some i ∧ ∀ q ∈ B.queue, s ≠ .trio q.2

/-- `B'` is a later state of the builder: numbers stay, and only new nodes have
been queued. The count of queued and created keys grows evenly. -/
structure Builder.Later (B B' : Builder W) : Prop where
  num : ∀ {n i}, B.num n = some i → B'.num n = some i
  queue : ∀ q ∈ B'.queue, q ∈ B.queue ∨ B.num (.trio q.2) = none
  count : B'.stateMap.length + B.queue.length = B.stateMap.length + B'.queue.length

end Invariant

namespace Builder

variable {o : Operands W} {pg : Bool} {mem : Param → Option (FSTArc W)} {c₀ : CascadeParameters}
variable {B B' B'' : Builder W} {done : Node → List (Item W)} {open_ : Node → Prop}

section

omit [CommMonoid W] [DecidableEq W]

theorem Later.refl (B : Builder W) : B.Later B := ⟨id, fun _ h => .inl h, rfl⟩

theorem Later.trans (first : B.Later B') (second : B'.Later B'') : B.Later B'' where
  num h := second.num (first.num h)
  queue q hq := by
    rcases second.queue q hq with hq | hq
    · exact first.queue q hq
    · refine .inr (Option.eq_none_iff_forall_ne_some.mpr fun i hi => ?_)
      exact absurd (first.num hi) (by simp [hq])
  count := by
    have := first.count
    have := second.count
    omega

theorem Active.later {s : Node} {i : ℕ} (hs : B.Active s i) (h : B.Later B') : B'.Active s i := by
  refine ⟨h.num hs.1, ?_⟩
  rintro q hq rfl
  rcases h.queue q hq with hq | hq
  · exact hs.2 q hq rfl
  · exact absurd hs.1 (by simp [hq])

end

/-! ## Creating a state -/

omit [CommMonoid W] [DecidableEq W] in
theorem arcs_append_empty (states : List (State W)) (i : ℕ) :
    ((states ++ [State.empty]).getD i State.empty).arcs = (states.getD i State.empty).arcs := by
  simp only [List.getD_eq_getElem?_getD]
  rcases Nat.lt_trichotomy i states.length with hi | rfl | hi
  · rw [List.getElem?_append_left hi]
  · simp
  · rw [List.getElem?_eq_none (by simp; omega), List.getElem?_eq_none (by omega)]

theorem ArcMade.later {num num' : Node → Option ℕ} {c c' : CascadeParameters} {arc : FSTArc W}
    {it : Item W} (hnum : ∀ {n i}, num n = some i → num' n = some i)
    (hc : o.Recordable c₀ mem → c.Extends c') (h : ArcMade o mem c₀ num c arc it) :
    ArcMade o mem c₀ num' c' arc it where
  inp := h.inp
  out := h.out
  weight := h.weight
  dest := hnum h.dest
  group hrec := (hc hrec).chain (h.group hrec)

/-- Creating a state for a node that has none, whether or not it is queued. -/
theorem Inv.create (hB : B.Inv o mem c₀ done) {n : Node} (hn : B.num n = none)
    (hrange : n.InRange o) (hstates : B'.states = B.states ++ [State.empty])
    (hcascade : B'.cascade = B.cascade)
    (hnum : ∀ n', B'.num n' = if n' = n then some B.states.length else B.num n')
    (hqueue : ∀ q ∈ B'.queue, q ∈ B.queue ∨ q.1 = B.states.length ∧ n = .trio q.2)
    (hnodup : (B'.queue.map Prod.snd).Nodup) (hkeys : (B'.stateMap.map Prod.fst).Nodup) :
    B'.Inv o mem c₀ done := by
  have hkeep {n' : Node} {i : ℕ} (h : B.num n' = some i) : B'.num n' = some i := by
    rw [hnum, if_neg, h]
    rintro rfl
    exact absurd h (by simp [hn])
  have hcases {n' : Node} {i : ℕ} (h : B'.num n' = some i) :
      (n' = n ∧ i = B.states.length) ∨ (n' ≠ n ∧ B.num n' = some i) := by
    rw [hnum] at h
    split at h
    case isTrue heq => exact .inl ⟨heq, (Option.some.inj h).symm⟩
    case isFalse hne => exact .inr ⟨hne, h⟩
  have harcs (i : ℕ) : B'.arcs i = B.arcs i := by
    rw [Builder.arcs, hstates, arcs_append_empty, Builder.arcs]
  refine ⟨?_, ?_, ?_, ?_, ?_, ?_, ?_, hnodup, hkeys, hkeep hB.start, by rw [hcascade]; exact hB.recorder⟩
  · intro n' i h
    rw [hstates, List.length_append, List.length_singleton]
    rcases hcases h with ⟨-, rfl⟩ | ⟨-, h⟩
    · omega
    · have := hB.num_lt h
      omega
  · intro n₁ n₂ i h₁ h₂
    rcases hcases h₁ with ⟨rfl, rfl⟩ | ⟨-, h₁⟩ <;> rcases hcases h₂ with ⟨rfl, hi⟩ | ⟨-, h₂⟩
    · rfl
    · exact absurd (hB.num_lt h₂) (Nat.lt_irrefl _)
    · exact absurd (hB.num_lt h₁) (by omega)
    · exact hB.num_inj h₁ h₂
  · intro i hi
    rw [hstates, List.length_append, List.length_singleton] at hi
    rcases Nat.lt_or_ge i B.states.length with hlt | hge
    · obtain ⟨n', h⟩ := hB.onto i hlt
      exact ⟨n', hkeep h⟩
    · exact ⟨n, by rw [hnum, if_pos rfl]; congr 1; omega⟩
  · intro n' i h
    rcases hcases h with ⟨rfl, -⟩ | ⟨-, h⟩
    · exact hrange
    · exact hB.inRange h
  · intro n' i h
    rw [harcs]
    rcases hcases h with ⟨rfl, rfl⟩ | ⟨-, h⟩
    · rw [hB.fresh hn, Builder.arcs, List.getD_eq_getElem?_getD,
        List.getElem?_eq_none (Nat.le_refl _)]
      exact .nil
    · refine (hB.arcs h).imp fun _ _ => ArcMade.later hkeep fun _ => ?_
      rw [hcascade]
      exact .refl _
  · intro n' h
    refine hB.fresh ?_
    rw [hnum] at h
    split at h
    case isTrue => simp at h
    case isFalse => exact h
  · intro q hq
    rcases hqueue q hq with hq | ⟨hq, rfl⟩
    · exact ⟨hkeep (hB.queued q hq).1, (hB.queued q hq).2⟩
    · exact ⟨by rw [hnum, if_pos rfl, hq], hB.fresh hn⟩

/-- `stateOf` finds the number of a key, or creates and queues it. -/
theorem stateOf_spec (hB : B.Inv o mem c₀ done) (hset : B.Settled o pg done open_) {k : TrioKey}
    (hk : (Node.trio k).InRange o) :
    (B.stateOf k).2.Inv o mem c₀ done ∧ (B.stateOf k).2.Settled o pg done open_ ∧
      (B.stateOf k).2.num (.trio k) = some (B.stateOf k).1 ∧ B.Later (B.stateOf k).2 := by
  rw [stateOf]
  cases hlookup : B.stateMap.lookup k with
  | some i => exact ⟨hB, hset, hlookup, .refl B⟩
  | none =>
    have hn : B.num (.trio k) = none := hlookup
    let B₁ : Builder W :=
      { B with
        stateMap := (k, B.states.length) :: B.stateMap
        queue := (B.states.length, k) :: B.queue
        states := B.states ++ [State.empty] }
    have hnum : ∀ n, B₁.num n = if n = .trio k then some B.states.length else B.num n := by
      intro n
      cases n with
      | trio k' =>
        by_cases hk' : k' = k
        · subst hk'; simp [B₁, Builder.num]
        · simp [B₁, Builder.num, List.lookup_cons, beq_eq_false_iff_ne.mpr hk', hk']
      | mediate m => simp [B₁, Builder.num]
      | merged => simp [Builder.num]
    have hqueued : ∀ q ∈ B₁.queue, q ∈ B.queue ∨ q.1 = B.states.length ∧ Node.trio k = .trio q.2 := by
      intro q hq
      rcases List.mem_cons.mp hq with rfl | hq
      · exact .inr ⟨rfl, rfl⟩
      · exact .inl hq
    have hnodup : (B₁.queue.map Prod.snd).Nodup := by
      refine List.nodup_cons.mpr ⟨fun hmem => ?_, hB.queue_nodup⟩
      obtain ⟨q, hq, rfl⟩ := List.mem_map.mp hmem
      exact absurd (hB.queued q hq).1 (by simp [hn])
    have hkeys : (B₁.stateMap.map Prod.fst).Nodup := by
      refine List.nodup_cons.mpr ⟨fun hmem => ?_, hB.keys_nodup⟩
      obtain ⟨entry, hentry, rfl⟩ := List.mem_map.mp hmem
      exact absurd (List.lookup_eq_none_iff.mp hlookup entry hentry) (by simp)
    refine ⟨hB.create hn hk rfl rfl hnum hqueued hnodup hkeys, ?_, by simp [Builder.num], ?_⟩
    · intro n i hni hopen
      change B₁.num n = some i at hni
      rw [hnum] at hni
      split at hni
      case isTrue heq => exact .inl ⟨_, List.mem_cons_self, heq⟩
      case isFalse =>
        rcases hset n i hni hopen with ⟨q, hq, rfl⟩ | hdone
        · exact .inl ⟨q, List.mem_cons_of_mem _ hq, rfl⟩
        · exact .inr hdone
    · refine ⟨?_, ?_, ?_⟩
      · intro n i hni
        change B₁.num n = some i
        rw [hnum, if_neg, hni]
        rintro rfl
        exact absurd hni (by simp [hn])
      · intro q hq
        rcases List.mem_cons.mp hq with rfl | hq
        · exact .inr hn
        · exact .inl hq
      · simp only [List.length_cons]
        omega

/-! ## Adding an arc -/

omit [CommMonoid W] [DecidableEq W] in
theorem arcs_addArc (B : Builder W) {s : ℕ} (hs : s < B.states.length) (arc : FSTArc W) (i : ℕ) :
    (B.addArc s arc).arcs i = if i = s then arc :: B.arcs i else B.arcs i := by
  simp only [Builder.arcs, addArc, List.getD_eq_getElem?_getD, List.getElem?_modify]
  by_cases hi : i = s
  · subst hi
    simp [hs]
  · simp [hi, Ne.symm hi]

theorem addRecorded_spec (hB : B.Inv o mem c₀ done) (hset : B.Settled o pg done open_) {s dest : Node}
    {i j : ℕ} (hs : B.Active s i) (hopen : open_ s) (hdest : B.num dest = some j) {made : Record W}
    (hmade : o.Owns made) :
    let B' := B.addRecorded o i made.inp made.out j made.weight made
    let done' := Function.update done s (done s ++ [⟨made, dest⟩])
    B'.Inv o mem c₀ done' ∧ B'.Settled o pg done' open_ ∧ B.Later B' := by
  intro B' done'
  have hnum : ∀ n, B'.num n = B.num n := fun n => by cases n <;> rfl
  have hcascade : B'.cascade = (o.recordGroup B.cascade made).2 := rfl
  have hrecord (hrec : o.Recordable c₀ mem) := Operands.recordGroup_spec hrec
    (hB.recorder hrec).1 (hB.recorder hrec).2 hmade
  have hlen : B'.states.length = B.states.length := by
    simp [B', addRecorded, addArc]
  have harcs : ∀ t, B'.arcs t = if t = i then
      ⟨made.inp, made.out, j, made.weight, (o.recordGroup B.cascade made).1⟩ :: B.arcs t
      else B.arcs t := fun t => arcs_addArc _ (hB.num_lt hs.1) _ t
  have hkeep : ∀ {arc : FSTArc W} {it : Item W}, ArcMade o mem c₀ B.num B.cascade arc it →
      ArcMade o mem c₀ B'.num B'.cascade arc it := fun h =>
    ArcMade.later (fun h => (hnum _).trans h) (fun hrec => (hrecord hrec).2.1) h
  have hother {n : Node} (hn : n ≠ s) : done' n = done n := Function.update_of_ne hn ..
  refine ⟨⟨?_, ?_, ?_, ?_, ?_, ?_, ?_, hB.queue_nodup, hB.keys_nodup,
    (hnum _).trans hB.start, ?_⟩, ?_, ?_⟩
  · intro n t h
    rw [hlen]
    exact hB.num_lt ((hnum n).symm.trans h)
  · intro n n' t h h'
    exact hB.num_inj ((hnum n).symm.trans h) ((hnum n').symm.trans h')
  · intro t ht
    rw [hlen] at ht
    obtain ⟨n, h⟩ := hB.onto t ht
    exact ⟨n, (hnum n).trans h⟩
  · intro n t h
    exact hB.inRange ((hnum n).symm.trans h)
  · intro n t h
    rw [hnum] at h
    rw [harcs]
    by_cases hn : n = s
    · subst hn
      obtain rfl := Option.some.inj (hs.1.symm.trans h)
      rw [if_pos rfl, show done' n = done n ++ [⟨made, dest⟩] from Function.update_self ..,
        List.reverse_append, List.reverse_singleton, List.singleton_append]
      refine .cons ⟨rfl, rfl, rfl, (hnum _).trans hdest, fun hrec => ?_⟩
        ((hB.arcs h).imp fun _ _ => hkeep)
      rw [hcascade]
      exact (hrecord hrec).2.2
    · rw [if_neg, hother hn]
      · exact (hB.arcs h).imp fun _ _ => hkeep
      · rintro rfl
        exact hn (hB.num_inj h hs.1)
  · intro n h
    rw [hnum] at h
    rw [hother, hB.fresh h]
    rintro rfl
    exact absurd hs.1 (by simp [h])
  · intro q hq
    obtain ⟨hqnum, hqdone⟩ := hB.queued q hq
    exact ⟨(hnum _).trans hqnum, by rw [hother (hs.2 q hq).symm, hqdone]⟩
  · intro hrec
    rw [hcascade]
    exact ⟨(hrecord hrec).1, (hB.recorder hrec).2.trans (hrecord hrec).2.1⟩
  · intro n t h hn
    rw [hnum] at h
    rw [hother]
    · exact hset n t h hn
    · rintro rfl
      exact hn hopen
  · exact ⟨fun h => (hnum _).trans h, fun q hq => .inl hq, rfl⟩

/-- **One use of `COMPOSEARC_GROUP`** adds one item to the source node. -/
theorem composeArc_spec (hB : B.Inv o mem c₀ done) (hset : B.Settled o pg done open_) {s : Node}
    {i : ℕ} (hs : B.Active s i) (hopen : open_ s) {e : ComposeArc W}
    (he : e = e.made.composeArc e.triDest) (hmade : o.Owns e.made)
    (hrange : (Node.trio e.triDest).InRange o) :
    let B' := B.composeArc o i e
    let done' := Function.update done s (done s ++ [e.item])
    B'.Inv o mem c₀ done' ∧ B'.Settled o pg done' open_ ∧ B.Later B' := by
  intro B' done'
  obtain ⟨hB₁, hset₁, hnum₁, hlater₁⟩ := stateOf_spec hB hset hrange
  obtain ⟨hB₂, hset₂, hlater₂⟩ :=
    addRecorded_spec hB₁ hset₁ (hs.later hlater₁) hopen hnum₁ hmade
  have hB' : B' = (B.stateOf e.triDest).2.addRecorded o i e.made.inp e.made.out
      (B.stateOf e.triDest).1 e.made.weight e.made := by
    have hinp : e.inp = e.made.inp := congrArg ComposeArc.inp he
    have hout : e.out = e.made.out := congrArg ComposeArc.out he
    have hweight : e.weight = e.made.weight := congrArg ComposeArc.weight he
    simp only [B', Builder.composeArc, hinp, hout, hweight]
  rw [hB']
  exact ⟨hB₂, hset₂, hlater₁.trans hlater₂⟩

/-- A run of `COMPOSEARC_GROUP` adds its items in order. -/
theorem foldl_composeArc_spec {s : Node} {i : ℕ} (hopen : open_ s) (hs : B.Active s i)
    (es : List (ComposeArc W))
    (hes : ∀ e ∈ es, e = e.made.composeArc e.triDest ∧ o.Owns e.made ∧
      (Node.trio e.triDest).InRange o)
    (hB : B.Inv o mem c₀ done) (hset : B.Settled o pg done open_) :
    let B' := es.foldl (composeArc o i) B
    let done' := Function.update done s (done s ++ es.map ComposeArc.item)
    B'.Inv o mem c₀ done' ∧ B'.Settled o pg done' open_ ∧ B.Later B' := by
  induction es generalizing B done with
  | nil => simpa using ⟨hB, hset, Later.refl B⟩
  | cons e es ih =>
    obtain ⟨he, hmade, hrange⟩ := hes e List.mem_cons_self
    obtain ⟨hB₁, hset₁, hlater₁⟩ := composeArc_spec hB hset hs hopen he hmade hrange
    obtain ⟨hB₂, hset₂, hlater₂⟩ := ih (hs.later hlater₁)
      (fun e' he' => hes e' (List.mem_cons_of_mem _ he')) hB₁ hset₁
    simp only [Function.update_self, Function.update_idem, List.append_assoc,
      List.singleton_append] at hB₂ hset₂
    exact ⟨hB₂, hset₂, hlater₁.trans hlater₂⟩

/-! ## Mediate states -/

/-- A mediate state is complete from its creation on. -/
theorem mediateStateOf_spec (ha : o.a.Valid) (hb : o.b.Valid) (hB : B.Inv o mem c₀ done) {s : Node}
    {i : ℕ} (hs : B.Active s i) (hset : B.Settled o true done (· = s)) {m : HalfArcState}
    (hm : (Node.mediate m).InRange o) :
    ∃ done', (B.mediateStateOf o m (mediateArcs o m)).2.Inv o mem c₀ done' ∧
      (B.mediateStateOf o m (mediateArcs o m)).2.Settled o true done' (· = s) ∧
      (B.mediateStateOf o m (mediateArcs o m)).2.num (.mediate m) =
        some (B.mediateStateOf o m (mediateArcs o m)).1 ∧
      B.Later (B.mediateStateOf o m (mediateArcs o m)).2 ∧ done' s = done s := by
  rw [mediateStateOf]
  cases hlookup : B.arcStateMap.lookup m with
  | some j => exact ⟨done, hB, hset, hlookup, .refl B, rfl⟩
  | none =>
    have hn : B.num (.mediate m) = none := hlookup
    let B₁ : Builder W :=
      { B with
        arcStateMap := (m, B.states.length) :: B.arcStateMap
        states := B.states ++ [State.empty] }
    have hnum : ∀ n, B₁.num n = if n = .mediate m then some B.states.length else B.num n := by
      intro n
      cases n with
      | trio k => simp [B₁, Builder.num]
      | mediate m' =>
        by_cases hm' : m' = m
        · subst hm'; simp [B₁, Builder.num]
        · simp [B₁, Builder.num, List.lookup_cons, beq_eq_false_iff_ne.mpr hm', hm']
      | merged => simp [Builder.num]
    have hB₁ : B₁.Inv o mem c₀ done :=
      hB.create hn hm rfl rfl hnum (fun q hq => .inl hq) hB.queue_nodup hB.keys_nodup
    have hset₁ : B₁.Settled o true done fun n => n = s ∨ n = .mediate m := by
      intro n t h hopen
      rw [hnum, if_neg fun heq => hopen (.inr heq)] at h
      exact hset n t h fun heq => hopen (.inl heq)
    have hlater₁ : B.Later B₁ := by
      refine ⟨fun {n t} h => ?_, fun q hq => .inl hq, rfl⟩
      rw [hnum, if_neg, h]
      rintro rfl
      exact absurd h (by simp [hn])
    have hactive : B₁.Active (.mediate m) B.states.length :=
      ⟨(hnum _).trans (if_pos rfl), fun q _ => by simp⟩
    have hes : ∀ e ∈ mediateArcs o m, e = e.made.composeArc e.triDest ∧ o.Owns e.made ∧
        (Node.trio e.triDest).InRange o := by
      intro e he
      obtain ⟨hfaithful, hmove⟩ := (mem_mediateArcs o m e).mp he
      have hmove' : Move o true (.mediate m) e.made (.trio e.triDest) := by
        rwa [Move, if_pos rfl]
      exact ⟨hfaithful, hmove'.owns, hmove'.inRange ha hb hm⟩
    obtain ⟨hB₂, hset₂, hlater₂⟩ :=
      foldl_composeArc_spec (.inr rfl) hactive (mediateArcs o m) hes hB₁ hset₁
    rw [hB.fresh hn, List.nil_append] at hB₂ hset₂
    refine ⟨_, hB₂, ?_, (hactive.later hlater₂).1, hlater₁.trans hlater₂, ?_⟩
    · intro n t h hopen
      by_cases hnm : n = .mediate m
      · subst hnm
        exact .inr (Function.update_self ..)
      · exact hset₂ n t h (by simp [hopen, hnm])
    · refine Function.update_of_ne ?_ ..
      rintro rfl
      exact absurd hs.1 (by simp [hn])

/-- **One emission of a loop** adds one item to the node the loop is run for. -/
theorem emit_spec (ha : o.a.Valid) (hb : o.b.Valid) (hB : B.Inv o mem c₀ done) {s : Node} {i : ℕ}
    (hs : B.Active s i) (hset : B.Settled o pg done (· = s)) {e : Emission W}
    (he : e.Faithful o pg) (hmove : Move o pg s e.item.made e.item.dest) :
    ∃ done', (B.emit o i e).Inv o mem c₀ done' ∧ (B.emit o i e).Settled o pg done' (· = s) ∧
      B.Later (B.emit o i e) ∧ done' s = done s ++ [e.item] := by
  have hrange := hmove.inRange ha hb (hB.inRange hs.1)
  cases e with
  | arc e =>
    obtain ⟨hB', hset', hlater⟩ := composeArc_spec hB hset hs rfl he hmove.owns hrange
    exact ⟨_, hB', hset', hlater, Function.update_self ..⟩
  | viaMediate m la inner =>
    obtain ⟨rfl, rfl⟩ := he
    obtain ⟨done₁, hB₁, hset₁, hnum₁, hlater₁, hdone₁⟩ := mediateStateOf_spec ha hb hB hs hset hrange
    obtain ⟨hB₂, hset₂, hlater₂⟩ :=
      addRecorded_spec hB₁ hset₁ (hs.later hlater₁) rfl hnum₁
        (show o.Owns (.left la) from hmove.owns)
    exact ⟨_, hB₂, hset₂, hlater₁.trans hlater₂, by rw [Function.update_self, hdone₁]; rfl⟩

/-! ## The worklist -/

theorem foldl_emit_spec (ha : o.a.Valid) (hb : o.b.Valid) {s : Node} {i : ℕ} (es : List (Emission W))
    (hes : ∀ e ∈ es, e.Faithful o pg ∧ Move o pg s e.item.made e.item.dest)
    (hB : B.Inv o mem c₀ done) (hs : B.Active s i) (hset : B.Settled o pg done (· = s)) :
    ∃ done', (es.foldl (emit o i) B).Inv o mem c₀ done' ∧
      (es.foldl (emit o i) B).Settled o pg done' (· = s) ∧ B.Later (es.foldl (emit o i) B) ∧
      done' s = done s ++ es.map Emission.item := by
  induction es generalizing B done with
  | nil => exact ⟨done, hB, hset, .refl B, by simp⟩
  | cons e es ih =>
    obtain ⟨he, hmove⟩ := hes e List.mem_cons_self
    obtain ⟨done₁, hB₁, hset₁, hlater₁, hdone₁⟩ := emit_spec ha hb hB hs hset he hmove
    obtain ⟨done₂, hB₂, hset₂, hlater₂, hdone₂⟩ :=
      ih (fun e' he' => hes e' (List.mem_cons_of_mem _ he')) hB₁ (hs.later hlater₁) hset₁
    exact ⟨done₂, hB₂, hset₂, hlater₁.trans hlater₂, by simp [hdone₂, hdone₁]⟩

/-- Nothing is being worked on: every node is queued or complete. -/
def Idle (o : Operands W) (pg : Bool) (mem : Param → Option (FSTArc W)) (c₀ : CascadeParameters)
    (B : Builder W) : Prop :=
  ∃ done, B.Inv o mem c₀ done ∧ B.Settled o pg done fun _ => False

/-- **One round of the worklist**: the key at the front becomes complete. -/
theorem round_spec (ha : o.a.Valid) (hb : o.b.Valid) (hB : B.Idle o pg mem c₀) {i : ℕ}
    {k : TrioKey} {rest : List (ℕ × TrioKey)} (hqueue : B.queue = (i, k) :: rest) :
    let B' := (loopOf o pg k).foldl (emit o i) { B with queue := rest }
    B'.Idle o pg mem c₀ ∧ B'.stateMap.length + rest.length = B.stateMap.length + B'.queue.length := by
  intro B'
  obtain ⟨done, hB, hset⟩ := hB
  let B₀ : Builder W := { B with queue := rest }
  have hnum₀ : ∀ n, B₀.num n = B.num n := fun n => by cases n <;> rfl
  have hsub : ∀ q ∈ rest, q ∈ B.queue := fun q hq => hqueue ▸ List.mem_cons_of_mem _ hq
  have hfront := hB.queued (i, k) (hqueue ▸ List.mem_cons_self)
  have hnodup := hB.queue_nodup
  rw [hqueue, List.map_cons, List.nodup_cons] at hnodup
  have hB₀ : B₀.Inv o mem c₀ done :=
    { num_lt := fun h => hB.num_lt ((hnum₀ _).symm.trans h)
      num_inj := fun h h' => hB.num_inj ((hnum₀ _).symm.trans h) ((hnum₀ _).symm.trans h')
      onto := fun t ht => (hB.onto t ht).imp fun n h => (hnum₀ n).trans h
      inRange := fun h => hB.inRange ((hnum₀ _).symm.trans h)
      arcs := fun h => (hB.arcs ((hnum₀ _).symm.trans h)).imp fun _ _ =>
        ArcMade.later (fun h => (hnum₀ _).trans h) fun _ => .refl _
      fresh := fun h => hB.fresh ((hnum₀ _).symm.trans h)
      queued := fun q hq => ⟨(hnum₀ _).trans (hB.queued q (hsub q hq)).1,
        (hB.queued q (hsub q hq)).2⟩
      queue_nodup := hnodup.2
      keys_nodup := hB.keys_nodup
      start := (hnum₀ _).trans hB.start
      recorder := hB.recorder }
  have hactive : B₀.Active (.trio k) i := by
    refine ⟨(hnum₀ _).trans hfront.1, ?_⟩
    rintro q hq heq
    cases heq
    exact hnodup.1 (List.mem_map.mpr ⟨q, hq, rfl⟩)
  have hset₀ : B₀.Settled o pg done (· = .trio k) := by
    intro n t h hne
    rcases hset n t ((hnum₀ n).symm.trans h) id with ⟨q, hq, rfl⟩ | hdone
    · rw [hqueue] at hq
      rcases List.mem_cons.mp hq with rfl | hq
      · exact absurd rfl hne
      · exact .inl ⟨q, hq, rfl⟩
    · exact .inr hdone
  have hes : ∀ e ∈ loopOf o pg k, e.Faithful o pg ∧ Move o pg (.trio k) e.item.made e.item.dest :=
    fun e he => ⟨loopOf_faithful o pg k e he,
      (mem_nodeItems o pg (.trio k) e.item).mp (List.mem_map_of_mem he)⟩
  obtain ⟨done', hB', hset', hlater, hdone⟩ :=
    foldl_emit_spec ha hb (loopOf o pg k) hes hB₀ hactive hset₀
  refine ⟨⟨done', hB', fun n t h _ => ?_⟩, hlater.count⟩
  by_cases hn : n = .trio k
  · subst hn
    exact .inr (by rw [hdone, hfront.2]; rfl)
  · exact hset' n t h hn

/-- There are only so many keys. -/
theorem Inv.length_stateMap_le (hB : B.Inv o mem c₀ done) : B.stateMap.length ≤ composeFuel o := by
  let code (k : TrioKey) : ℕ × ℕ × Fin 3 := (k.qa, k.qb, k.filter)
  have hinj : Function.Injective code := by
    rintro ⟨qa, qb, filter⟩ ⟨qa', qb', filter'⟩ h
    simpa [code] using h
  let keys := (B.stateMap.map Prod.fst).toFinset
  have hcard : keys.card = B.stateMap.length := by
    rw [List.toFinset_card_of_nodup hB.keys_nodup, List.length_map]
  have hsub : keys.image code ⊆
      Finset.range o.a.numStates ×ˢ Finset.range o.b.numStates ×ˢ (Finset.univ : Finset (Fin 3)) := by
    intro t ht
    obtain ⟨k, hk, rfl⟩ := Finset.mem_image.mp ht
    have hmem : k ∈ B.stateMap.map Prod.fst := List.mem_toFinset.mp hk
    have hsome : (B.num (.trio k)).isSome := by
      rw [Option.isSome_iff_ne_none]
      intro hnone
      obtain ⟨entry, hentry, rfl⟩ := List.mem_map.mp hmem
      exact absurd (List.lookup_eq_none_iff.mp hnone entry hentry) (by simp)
    obtain ⟨i, hi⟩ := Option.isSome_iff_exists.mp hsome
    obtain ⟨hqa, hqb⟩ := hB.inRange hi
    simp [code, hqa, hqb]
  have hle := Finset.card_le_card hsub
  rw [Finset.card_image_of_injective _ hinj, hcard, Finset.card_product, Finset.card_product,
    Finset.card_range, Finset.card_range, Finset.card_univ, Fintype.card_fin] at hle
  rw [composeFuel]
  calc B.stateMap.length ≤ o.a.numStates * (o.b.numStates * 3) := hle
    _ = 3 * o.a.numStates * o.b.numStates := by
      rw [← Nat.mul_assoc, Nat.mul_comm, Nat.mul_assoc]

/-- The keys taken from the queue so far are those created and not queued, so
the worklist runs dry before its fuel does. -/
theorem composeLoop_spec (ha : o.a.Valid) (hb : o.b.Valid) (fuel : ℕ) (hB : B.Idle o pg mem c₀)
    (hfuel : composeFuel o + B.queue.length ≤ fuel + B.stateMap.length) :
    (composeLoop o pg fuel B).Idle o pg mem c₀ ∧ (composeLoop o pg fuel B).queue = [] := by
  induction fuel generalizing B with
  | zero =>
    obtain ⟨done, hinv, hset⟩ := hB
    have hle := hinv.length_stateMap_le
    exact ⟨⟨done, hinv, hset⟩, List.length_eq_zero_iff.mp (by rw [composeLoop]; omega)⟩
  | succ fuel ih =>
    rw [composeLoop]
    cases hqueue : B.queue with
    | nil => exact ⟨hB, hqueue⟩
    | cons front rest =>
      obtain ⟨i, k⟩ := front
      obtain ⟨hB', hcount⟩ := round_spec ha hb hB hqueue
      rw [hqueue, List.length_cons] at hfuel
      exact ih hB' (by omega)

/-- The builder the worklist starts from. -/
theorem composeStart_idle (ha : o.a.Valid) (hb : o.b.Valid) :
    (composeStart (W := W) c₀).Idle o pg mem c₀ := by
  have hnum {n : Node} {i : ℕ} : (composeStart (W := W) c₀).num n = some i ↔
      n = startNode ∧ i = 0 := by
    cases n with
    | trio k =>
      by_cases hk : k = ⟨0, 0, 0⟩
      · subst hk; simp [composeStart, Builder.num, startNode, eq_comm]
      · have hne : (k == (⟨0, 0, 0⟩ : TrioKey)) = false := beq_eq_false_iff_ne.mpr hk
        simp [composeStart, Builder.num, startNode, hk, List.lookup_cons, hne]
    | mediate m => simp [composeStart, Builder.num, startNode]
    | merged => simp [Builder.num, startNode]
  refine ⟨fun _ => [], ⟨?_, ?_, ?_, ?_, ?_, fun _ => rfl, ?_, ?_, ?_, hnum.mpr ⟨rfl, rfl⟩, ?_⟩, ?_⟩
  · intro n i h
    obtain ⟨rfl, rfl⟩ := hnum.mp h
    simp [composeStart]
  · intro n n' i h h'
    exact (hnum.mp h).1.trans (hnum.mp h').1.symm
  · intro i hi
    have hzero : i = 0 := by simpa [composeStart] using hi
    exact ⟨startNode, hnum.mpr ⟨rfl, hzero⟩⟩
  · intro n i h
    obtain ⟨rfl, rfl⟩ := hnum.mp h
    exact ⟨ha.start_lt, hb.start_lt⟩
  · intro n i h
    obtain ⟨rfl, rfl⟩ := hnum.mp h
    exact .nil
  · intro q hq
    obtain rfl := List.mem_singleton.mp hq
    exact ⟨hnum.mpr ⟨rfl, rfl⟩, rfl⟩
  · simp [composeStart]
  · simp [composeStart]
  · intro hrec
    exact ⟨hrec.sound, .refl c₀⟩
  · intro n i h _
    obtain ⟨rfl, rfl⟩ := hnum.mp h
    exact .inl ⟨_, List.mem_cons_self, rfl⟩

/-- What the worklist of `set_compose` ends with. -/
def result (o : Operands W) (pg : Bool) (c₀ : CascadeParameters) : Builder W :=
  composeLoop o pg (composeFuel o) (composeStart c₀)

/-- **The worklist ends with every created node complete.** -/
theorem result_spec (pg : Bool) (mem : Param → Option (FSTArc W)) (c₀ : CascadeParameters)
    (ha : o.a.Valid) (hb : o.b.Valid) :
    ∃ done, (result o pg c₀).Inv o mem c₀ done ∧
      ∀ n i, (result o pg c₀).num n = some i → done n = nodeItems o pg n := by
  have hfuel : composeFuel o + (composeStart (W := W) c₀).queue.length ≤
      composeFuel o + (composeStart (W := W) c₀).stateMap.length := le_refl _
  have hstart : (composeStart c₀).Idle o pg mem c₀ := composeStart_idle ha hb
  obtain ⟨⟨done, hinv, hset⟩, hempty⟩ := composeLoop_spec ha hb _ hstart hfuel
  refine ⟨done, hinv, fun n i h => ?_⟩
  rcases hset n i h id with ⟨q, hq, -⟩ | hdone
  · exact absurd (hempty ▸ hq) List.not_mem_nil
  · exact hdone

end Builder

end Carmel
