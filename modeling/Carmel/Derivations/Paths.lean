/-
# Lattice paths and transducer paths

A path of the lattice is a walk of the candidates from the start to the goal,
and such a walk is a path of the transducer together with the positions passed
on the way. Where the sequences contain no `*e*`, the positions are determined
by the arcs taken.
-/

import Carmel.Derivations.Lattice

namespace Carmel

open Carmel.Math

universe u

variable {W : Type u} {x : WFST W} {inp out : List ℕ}

namespace Represents

variable {g : List (List GraphArc)} {num : DerivState → Option ℕ} {keep : DerivState → Prop}
variable {d d' : DerivState} {i j fin : ℕ} {a : GraphArc} {c : Candidate}

theorem exists_candidate (h : Represents x inp out g num keep) (hd : num d = some i)
    (ha : a ∈ g.getD i []) :
    ∃ c ∈ live x inp out (candidates x inp out d), ArcFor num i a c := by
  obtain ⟨pos, hpos, rfl⟩ := List.getElem_of_mem (List.mem_reverse.mpr ha)
  have hlen := (h.arcs hd).length_eq
  exact ⟨_, List.getElem_mem (hlen ▸ hpos), (h.arcs hd).get hpos (hlen ▸ hpos)⟩

theorem exists_arc (h : Represents x inp out g num keep) (hd : num d = some i)
    (hc : c ∈ live x inp out (candidates x inp out d)) :
    ∃ a ∈ g.getD i [], ArcFor num i a c := by
  obtain ⟨pos, hpos, rfl⟩ := List.getElem_of_mem hc
  have hlen := (h.arcs hd).length_eq
  exact ⟨_, List.mem_reverse.mp (List.getElem_mem (hlen.symm ▸ hpos)),
    (h.arcs hd).get (hlen.symm ▸ hpos) hpos⟩

theorem arcs_nodup (h : Represents x inp out g num keep) (i : ℕ) : (g.getD i []).Nodup := by
  by_cases hi : i < g.length
  · obtain ⟨d, hd⟩ := h.onto i hi
    have hmap : (g.getD i []).reverse.map (fun a => (a.id, some a.dest)) =
        (live x inp out (candidates x inp out d)).map fun c => (c.id, num c.state) :=
      map_eq_map_of_forall₂ (fun a c hac => by rw [hac.id, hac.dest]) (h.arcs hd)
    apply List.nodup_reverse.mp
    apply List.Nodup.of_map fun a : GraphArc => (a.id, some a.dest)
    rw [hmap]
    refine List.Nodup.map_on ?_ ((candidates_nodup d).filter _)
    -- two live candidates have numbers, so they differ where their numbers or ids do
    intro c hc c' hc' heq
    obtain ⟨hid, hnum⟩ := Prod.mk.inj heq
    obtain ⟨a, -, ha⟩ := h.exists_arc hd hc
    have hstate : c.state = c'.state := h.num_inj ha.dest (hnum ▸ ha.dest)
    cases c
    cases c'
    cases hid
    cases hstate
    rfl
  · rw [List.getD_eq_getElem?_getD, List.getElem?_eq_none (Nat.le_of_not_lt hi)]
    exact List.nodup_nil

/-- The arcs of the lattice correspond to the live candidates. -/
def correspondence (h : Represents x inp out g num keep) (fin : ℕ) (noGoal : Bool) :
    Correspondence (Derivations.mk g fin noGoal).Adj
      (Live (CandAdj x inp out) fun d => isGoal x inp out d) where
  rel i d := num d = some i
  edge i a c := ArcFor num i a c
  det := fun ha hb => ha.2.symm.trans hb.2
  det' := fun hb hc => hb.1.2.symm.trans hc.1.2
  forth := by
    rintro i d a j hd ⟨ha, rfl⟩
    obtain ⟨c, hc, hac⟩ := h.exists_candidate hd ha
    exact ⟨c, c.state, hac, ⟨⟨(mem_live.mp hc).1, rfl⟩, (mem_live.mp hc).2⟩, hac.dest⟩
  back := by
    rintro i d c d' hd ⟨⟨hc, rfl⟩, hlive⟩
    obtain ⟨a, ha, hac⟩ := h.exists_arc hd (mem_live.mpr ⟨hc, hlive⟩)
    exact ⟨a, a.dest, hac, ⟨ha, rfl⟩, hac.dest⟩
  right_unique := by
    rintro i a j ⟨id, state⟩ ⟨id', state'⟩ - hac hac'
    obtain rfl : state = state' := h.num_inj hac.dest hac'.dest
    obtain rfl : id = id' := hac.id.symm.trans hac'.id
    rfl
  left_unique := by
    rintro i ⟨src, dest, id⟩ ⟨src', dest', id'⟩ j j' c - - hac hac'
    obtain rfl : src = src' := hac.src.trans hac'.src.symm
    obtain rfl : id = id' := hac.id.trans hac'.id.symm
    obtain rfl : dest = dest' := Option.some.inj (hac.dest.symm.trans hac'.dest)
    rfl

/-- A state from which there is something to find is reached from state 0. -/
theorem exists_walk_to {D : Derivations} (h : Represents x inp out D.g num keep)
    (hd : num d = some i) (hlive : ¬ DeadEnd x inp out d) : ∃ p, Walk D.Adj 0 p i := by
  obtain ⟨⟨cs, hwalk⟩, -⟩ := h.kept.mp ⟨i, hd⟩
  obtain ⟨p, j, -, hp, hj⟩ := Correspondence.exists_lift_back
    (C := h.correspondence D.fin D.noGoal) h.start (hwalk.live hlive)
  obtain rfl : i = j := Option.some.inj (hd.symm.trans hj)
  exact ⟨p, hp⟩

end Represents

/-- Taking an arc of the transducer, with the positions in the sequences. -/
def ConsumeAdj (x : WFST W) (inp out : List ℕ) (d : DerivState) (h : HalfArc W)
    (d' : DerivState) : Prop :=
  h ∈ x.outArcs d.s ∧ Consumes inp out d h d'

section Consume

variable {d d' : DerivState} {c : Candidate} {h : HalfArc W}

theorem consumeAdj_iff : ConsumeAdj x inp out d h d' ↔
    ∃ c, x.arcsTable[c.id]? = some h ∧ CandAdj x inp out d c d' := by
  constructor
  · rintro ⟨hh, hcons⟩
    have hmem : h ∈ x.arcsTable := WFST.mem_arcsTable.mpr (hcons.source.symm ▸ hh)
    obtain ⟨id, hid⟩ := List.getElem?_of_mem hmem
    exact ⟨⟨id, d'⟩, hid, mem_candidates.mpr ⟨h, hid, hcons⟩, rfl⟩
  · rintro ⟨c, hid, hc, rfl⟩
    obtain ⟨h', hid', hcons⟩ := mem_candidates.mp hc
    obtain rfl := Option.some.inj (hid.symm.trans hid')
    refine ⟨?_, hcons⟩
    rw [← hcons.source]
    exact WFST.mem_arcsTable.mp (List.mem_of_getElem? hid)

variable (x inp out) in
theorem exists_candAdj_iff (d d' : DerivState) :
    (∃ c, CandAdj x inp out d c d') ↔ ∃ h, ConsumeAdj x inp out d h d' := by
  simp only [consumeAdj_iff]
  constructor
  · rintro ⟨c, hc⟩
    obtain ⟨h, hid, -⟩ := mem_candidates.mp hc.1
    exact ⟨h, c, hid, hc⟩
  · rintro ⟨_, c, -, hc⟩
    exact ⟨c, hc⟩

theorem Reads.unique {symbols : List ℕ} (hsym : epsilonIndex ∉ symbols) {pos label pos₁ pos₂ : ℕ}
    (h₁ : Reads symbols pos label pos₁) (h₂ : Reads symbols pos label pos₂) : pos₁ = pos₂ := by
  rcases h₁ with ⟨h₁, rfl⟩ | ⟨h₁, rfl⟩ <;> rcases h₂ with ⟨h₂, rfl⟩ | ⟨h₂, rfl⟩
  · rfl
  · exact absurd (List.mem_of_getElem? (h₁ ▸ h₂)) hsym
  · exact absurd (List.mem_of_getElem? (h₂ ▸ h₁)) hsym
  · rfl

theorem Consumes.unique (hin : epsilonIndex ∉ inp) (hout : epsilonIndex ∉ out) {d₁ d₂ : DerivState}
    (h₁ : Consumes inp out d h d₁) (h₂ : Consumes inp out d h d₂) : d₁ = d₂ := by
  obtain ⟨i₁, s₁, o₁⟩ := d₁
  obtain ⟨i₂, s₂, o₂⟩ := d₂
  obtain rfl : i₁ = i₂ := h₁.inp.unique hin h₂.inp
  obtain rfl : o₁ = o₂ := h₁.out.unique hout h₂.out
  obtain rfl : s₁ = s₂ := h₁.dest.symm.trans h₂.dest
  rfl

/-- Without `*e*` in the sequences, a candidate is just an arc of the transducer. -/
def candCorrespondence (x : WFST W) (hin : epsilonIndex ∉ inp) (hout : epsilonIndex ∉ out) :
    Correspondence (CandAdj x inp out) (ConsumeAdj x inp out) where
  rel d d' := d = d'
  edge _ c h := x.arcsTable[c.id]? = some h
  det := CandAdj.det
  det' := fun hb hc => hb.2.unique hin hout hc.2
  forth := by
    rintro d _ c d' rfl hc
    obtain ⟨h, hid, -⟩ := mem_candidates.mp hc.1
    exact ⟨h, d', hid, consumeAdj_iff.mpr ⟨c, hid, hc⟩, rfl⟩
  back := by
    rintro d _ h d' rfl hh
    obtain ⟨c, hid, hc⟩ := consumeAdj_iff.mp hh
    exact ⟨c, d', hid, hc, rfl⟩
  right_unique := fun _ h₁ h₂ => Option.some.inj (h₁.symm.trans h₂)
  left_unique := by
    rintro d ⟨id₁, s₁⟩ ⟨id₂, s₂⟩ b₁ b₂ h hc₁ hc₂ hid₁ hid₂
    obtain rfl : id₁ = id₂ :=
      (List.getElem?_inj (List.getElem?_eq_some_iff.mp hid₁).1 x.arcsTable_nodup).mp
        (hid₁.trans hid₂.symm)
    obtain ⟨h₁, hh₁, hcons₁⟩ := mem_candidates.mp hc₁.1
    obtain ⟨h₂, hh₂, hcons₂⟩ := mem_candidates.mp hc₂.1
    obtain rfl := Option.some.inj (hh₁.symm.trans hh₂)
    obtain rfl : s₁ = s₂ := hcons₁.unique hin hout hcons₂
    rfl

theorem Reads.drop {symbols : List ℕ} (hsym : epsilonIndex ∉ symbols) {pos label pos' : ℕ}
    (h : Reads symbols pos label pos') :
    symbols.drop pos = nonEpsilon [label] ++ symbols.drop pos' := by
  rcases h with ⟨rfl, rfl⟩ | ⟨hget, rfl⟩
  · simp
  · obtain ⟨hlt, rfl⟩ := List.getElem?_eq_some_iff.mp hget
    have hne : symbols[pos] ≠ epsilonIndex := fun h => hsym (h ▸ List.getElem_mem hlt)
    rw [nonEpsilon_cons_of_ne hne, nonEpsilon_nil]
    exact List.drop_eq_getElem_cons hlt

theorem exists_reads {symbols rest : List ℕ} {pos label : ℕ} (hpos : pos ≤ symbols.length)
    (h : symbols.drop pos = nonEpsilon [label] ++ rest) :
    ∃ pos', Reads symbols pos label pos' ∧ symbols.drop pos' = rest ∧ pos' ≤ symbols.length := by
  by_cases hlabel : label = epsilonIndex
  · exact ⟨pos, .inl ⟨hlabel, rfl⟩, by simpa [hlabel] using h, hpos⟩
  · rw [nonEpsilon_cons_of_ne hlabel, nonEpsilon_nil] at h
    have hlt : pos < symbols.length := by
      by_contra hge
      rw [List.drop_eq_nil_of_le (Nat.le_of_not_lt hge)] at h
      cases h
    rw [List.drop_eq_getElem_cons hlt] at h
    obtain ⟨hhead, htail⟩ := List.cons.inj h
    exact ⟨pos + 1, .inr ⟨by rw [List.getElem?_eq_getElem hlt, hhead], rfl⟩, htail, hlt⟩

theorem pathInput_cons' (h : HalfArc W) (path : List (HalfArc W)) :
    pathInput (h :: path) = nonEpsilon [h.arc.inp] ++ pathInput path :=
  nonEpsilon_cons ..

theorem pathOutput_cons' (h : HalfArc W) (path : List (HalfArc W)) :
    pathOutput (h :: path) = nonEpsilon [h.arc.out] ++ pathOutput path :=
  nonEpsilon_cons ..

/-- What a walk reads lies between its ends. -/
theorem walk_of_consume (hin : epsilonIndex ∉ inp) (hout : epsilonIndex ∉ out)
    {path : List (HalfArc W)} (hwalk : Walk (ConsumeAdj x inp out) d path d') :
    Walk x.Adj d.s path d'.s ∧ inp.drop d.i = pathInput path ++ inp.drop d'.i ∧
      out.drop d.o = pathOutput path ++ out.drop d'.o := by
  induction hwalk with
  | nil d => exact ⟨.nil _, rfl, rfl⟩
  | cons step _ ih =>
    obtain ⟨hh, hcons⟩ := step
    obtain ⟨hpath, hi, ho⟩ := ih
    refine ⟨.cons ⟨hh, hcons.dest⟩ hpath, ?_, ?_⟩
    · rw [hcons.inp.drop hin, hi, pathInput_cons', List.append_assoc]
    · rw [hcons.out.drop hout, ho, pathOutput_cons', List.append_assoc]

theorem consume_of_walk {s t i o : ℕ} {path : List (HalfArc W)} (hwalk : Walk x.Adj s path t)
    (hi : i ≤ inp.length) (ho : o ≤ out.length) (hinp : inp.drop i = pathInput path)
    (hout : out.drop o = pathOutput path) :
    Walk (ConsumeAdj x inp out) ⟨i, s, o⟩ path ⟨inp.length, t, out.length⟩ := by
  induction hwalk generalizing i o with
  | nil s =>
    obtain rfl : i = inp.length := Nat.le_antisymm hi (List.drop_eq_nil_iff.mp hinp)
    obtain rfl : o = out.length := Nat.le_antisymm ho (List.drop_eq_nil_iff.mp hout)
    exact .nil _
  | cons step _ ih =>
    obtain ⟨hh, hdest⟩ := step
    rw [pathInput_cons'] at hinp
    rw [pathOutput_cons'] at hout
    obtain ⟨i', hreadI, hinp', hi'⟩ := exists_reads hi hinp
    obtain ⟨o', hreadO, hout', ho'⟩ := exists_reads ho hout
    exact .cons ⟨hh, (WFST.mem_outArcs.mp hh).1, hdest, hreadI, hreadO⟩ (ih hi' ho' hinp' hout')

theorem accepted_consume_iff (hin : epsilonIndex ∉ inp) (hout : epsilonIndex ∉ out)
    {path : List (HalfArc W)} :
    Accepted (ConsumeAdj x inp out) (fun d => isGoal x inp out d) .start path ↔
      x.IsPath path ∧ pathInput path = inp ∧ pathOutput path = out := by
  constructor
  · rintro ⟨⟨i, s, o⟩, hwalk, hgoal⟩
    obtain ⟨hs, rfl, rfl⟩ := isGoal_iff.mp hgoal
    obtain ⟨hpath, hi, ho⟩ := walk_of_consume hin hout hwalk
    refine ⟨⟨s, hpath, hs⟩, ?_, ?_⟩
    · simpa [DerivState.start] using hi.symm
    · simpa [DerivState.start] using ho.symm
  · rintro ⟨⟨s, hpath, hs⟩, hi, ho⟩
    exact ⟨_, consume_of_walk hpath (Nat.zero_le _) (Nat.zero_le _) hi.symm ho.symm,
      isGoal_iff.mpr ⟨hs, rfl, rfl⟩⟩

end Consume

theorem epsilon_notMem_pathInput (path : List (HalfArc W)) : epsilonIndex ∉ pathInput path := by
  simp [pathInput, nonEpsilon]

/-- The lattice paths are the walks of the candidates, arc id by arc id. -/
theorem exists_candidate_equiv {D : Derivations} {num : DerivState → Option ℕ}
    {keep : DerivState → Prop} {goal : DerivState} (h : Represents x inp out D.g num keep)
    (hgoal : isGoal x inp out goal = true) (hnum : num goal = some D.fin) :
    ∃ e : {p // D.IsPath p} ≃
        {cs // Accepted (CandAdj x inp out) (fun d => isGoal x inp out d) .start cs},
      ∀ p, p.1.map GraphArc.id = (e p).1.map Candidate.id := by
  obtain ⟨e, he⟩ := (h.correspondence D.fin D.noGoal).exists_equiv (· = D.fin)
    (fun d => isGoal x inp out d) h.start fun {i d} hd => by
      constructor
      · rintro rfl
        rwa [h.num_inj hd hnum]
      · intro hd'
        exact Option.some.inj (hd.symm.trans ((isGoal_unique hd' hgoal) ▸ hnum))
  refine ⟨e.trans (Equiv.subtypeEquivRight fun cs => accepted_live_iff), fun p => ?_⟩
  have hids : List.Forall₂ (fun (a : GraphArc) (c : Candidate) => a.id = c.id) p.1
      (e p).1 := (he p).forall₂ fun _ hac => ArcFor.id hac
  exact map_eq_map_of_forall₂ (fun _ _ h => h) hids

theorem exists_path_equiv (x : WFST W) (hin : epsilonIndex ∉ inp) (hout : epsilonIndex ∉ out) :
    ∃ e : {cs // Accepted (CandAdj x inp out) (fun d => isGoal x inp out d) .start cs} ≃
        {π // x.IsPath π ∧ pathInput π = inp ∧ pathOutput π = out},
      ∀ cs, cs.1.map (fun c => x.arcsTable[c.id]?) = (e cs).1.map some := by
  have hstart : (candCorrespondence x hin hout).rel .start .start := rfl
  obtain ⟨e, he⟩ := (candCorrespondence x hin hout).exists_equiv (fun d => isGoal x inp out d)
    (fun d => isGoal x inp out d) hstart fun {b b'} hb => by rw [show b = b' from hb]
  refine ⟨e.trans (Equiv.subtypeEquivRight fun π => accepted_consume_iff hin hout), fun cs => ?_⟩
  have hids : List.Forall₂ (fun (c : Candidate) h => x.arcsTable[c.id]? = some h) cs.1
      (e cs).1 := (he cs).forall₂ fun _ hid => hid
  exact map_eq_map_of_forall₂ (fun _ _ h => h) hids

/-- **Derivations are paths.** For sequences without `*e*`, the paths of the
pruned lattice correspond one to one, arc id by arc id, to the paths of the
transducer that spell the two sequences; there is no lattice exactly when there
is no such path. -/
theorem compute_paths (x : WFST W) (hin : epsilonIndex ∉ inp) (hout : epsilonIndex ∉ out) :
    ∃ D, compute x inp out true = some D ∧
      (D.noGoal = true ↔ ¬ ∃ π, x.IsPath π ∧ pathInput π = inp ∧ pathOutput π = out) ∧
      (D.noGoal = false → (∀ i, (D.arcs i).Nodup) ∧
        ∃ e : {p // D.IsPath p} ≃ {π // x.IsPath π ∧ pathInput π = inp ∧ pathOutput π = out},
          ∀ p, p.1.map (fun a => x.arcsTable[a.id]?) = (e p).1.map some) := by
  obtain ⟨D, hD, hfound, hlattice⟩ := compute_spec x inp out true
  obtain ⟨e₂, he₂⟩ := exists_path_equiv x hin hout
  refine ⟨D, hD, ?_, fun hgoal => ?_⟩
  · rw [← Bool.not_eq_false, hfound, not_iff_not]
    constructor
    · rintro ⟨cs, hcs⟩
      exact ⟨_, (e₂ ⟨cs, hcs⟩).2⟩
    · rintro ⟨π, hπ⟩
      exact ⟨_, (e₂.symm ⟨π, hπ⟩).2⟩
  · obtain ⟨num, goal, hrep, hisGoal, hnum⟩ := hlattice hgoal
    obtain ⟨e₁, he₁⟩ := exists_candidate_equiv hrep hisGoal hnum
    refine ⟨hrep.arcs_nodup, e₁.trans e₂, fun p => ?_⟩
    calc p.1.map (fun a => x.arcsTable[a.id]?)
        = (p.1.map GraphArc.id).map fun id => x.arcsTable[id]? := by rw [List.map_map]; rfl
      _ = ((e₁ p).1.map Candidate.id).map fun id => x.arcsTable[id]? := by rw [he₁]
      _ = (e₁ p).1.map fun c => x.arcsTable[c.id]? := by rw [List.map_map]; rfl
      _ = (e₂ (e₁ p)).1.map some := he₂ _

/-- The two reserved symbols and `a`. -/
def letterA : Alphabet := ⟨["*e*", "*w*", "a"], by decide, by decide⟩

/-- Two arcs read and write `a`: one leads to the final state, the other to a
state with a loop that neither reads nor writes. -/
def loopBeside : WFST ℕ where
  states := [⟨[⟨2, 2, 1, 1, FSTArc.noGroup⟩, ⟨2, 2, 2, 1, FSTArc.noGroup⟩], 2⟩, .empty,
    ⟨[⟨0, 0, 2, 1, FSTArc.noGroup⟩], 1⟩]
  final := some 1
  inAlph := letterA
  outAlph := letterA

theorem compute_paths_sample :
    ∃ D, compute loopBeside [2] [2] true = some D ∧ (D.noGoal = true ↔
        ¬ ∃ π, loopBeside.IsPath π ∧ pathInput π = [2] ∧ pathOutput π = [2]) ∧
      (D.noGoal = false → (∀ i, (D.arcs i).Nodup) ∧ ∃ e : {p // D.IsPath p} ≃
            {π // loopBeside.IsPath π ∧ pathInput π = [2] ∧ pathOutput π = [2]},
          ∀ p, p.1.map (fun a => loopBeside.arcsTable[a.id]?) = (e p).1.map some) :=
  compute_paths loopBeside (by decide) (by decide)

/-- One arc that neither reads nor writes, into the final state. -/
def epsilonStep : WFST ℕ where
  states := [⟨[⟨0, 0, 1, 1, FSTArc.noGroup⟩], 1⟩, .empty]
  final := some 1
  inAlph := letterA
  outAlph := letterA

/-- A `*e*` in the input is read off by an epsilon arc: there is a derivation,
but no path spells a sequence with `*e*` in it. -/
theorem compute_epsilonStep :
    ∃ D, compute epsilonStep [epsilonIndex] [] true = some D ∧ D.noGoal = false ∧
      ¬ ∃ π, epsilonStep.IsPath π ∧ pathInput π = [epsilonIndex] ∧ pathOutput π = [] := by
  refine ⟨⟨[[⟨0, 1, 0⟩], []], 1, false⟩, by decide, rfl, ?_⟩
  rintro ⟨π, -, hinput, -⟩
  exact epsilon_notMem_pathInput π (hinput ▸ List.mem_singleton.mpr rfl)

end Carmel

/-!
## Which states pruning leaves

A state that cannot reach the goal and is no dead end stays, and a walk that enters it goes
round for ever, taking epsilon arcs only.
-/

namespace Carmel

open Carmel.Math

universe u

variable {W : Type u}

/-- The state lies on a cycle of arcs that neither read nor write. -/
def WFST.EpsilonCycle (x : WFST W) (s : ℕ) : Prop :=
  ∃ h path, Walk x.Adj s (h :: path) s ∧
    ∀ h' ∈ h :: path, h'.arc.inp = epsilonIndex ∧ h'.arc.out = epsilonIndex

variable {x : WFST W} {inp out : List ℕ} {d d' : DerivState} {path : List (HalfArc W)}

theorem Reads.mono {symbols : List ℕ} {pos label pos' : ℕ} (h : Reads symbols pos label pos') :
    pos ≤ pos' ∧ (pos = pos' → label = epsilonIndex) := by
  rcases h with ⟨hlabel, rfl⟩ | ⟨-, rfl⟩
  · exact ⟨Nat.le_refl _, fun _ => hlabel⟩
  · exact ⟨Nat.le_succ _, fun h => absurd h (Nat.ne_of_lt (Nat.lt_succ_self _))⟩

/-- Positions never move back, and stay only on epsilon arcs. -/
theorem consume_mono (hwalk : Walk (ConsumeAdj x inp out) d path d') :
    Walk x.Adj d.s path d'.s ∧ d.i ≤ d'.i ∧ d.o ≤ d'.o ∧ (d.i = d'.i → d.o = d'.o →
      ∀ h ∈ path, h.arc.inp = epsilonIndex ∧ h.arc.out = epsilonIndex) := by
  induction hwalk with
  | nil d => exact ⟨.nil _, Nat.le_refl _, Nat.le_refl _, fun _ _ _ h => absurd h List.not_mem_nil⟩
  | @cons d m d' h path step _ ih =>
    obtain ⟨hh, hcons⟩ := step
    obtain ⟨hpath, hi, ho, heps⟩ := ih
    obtain ⟨hi₁, heps₁⟩ := hcons.inp.mono
    obtain ⟨ho₁, heps₂⟩ := hcons.out.mono
    refine ⟨.cons ⟨hh, hcons.dest⟩ hpath, hi₁.trans hi, ho₁.trans ho, fun heqi heqo h' hh' => ?_⟩
    have hi₂ : d.i = m.i := by omega
    have ho₂ : d.o = m.o := by omega
    rcases List.mem_cons.mp hh' with rfl | hh'
    · exact ⟨heps₁ hi₂, heps₂ ho₂⟩
    · exact heps (by omega) (by omega) h' hh'

theorem consume_of_epsilons {s t : ℕ} (hwalk : Walk x.Adj s path t)
    (heps : ∀ h ∈ path, h.arc.inp = epsilonIndex ∧ h.arc.out = epsilonIndex) (i o : ℕ) :
    Walk (ConsumeAdj x inp out) ⟨i, s, o⟩ path ⟨i, t, o⟩ := by
  induction hwalk with
  | nil s => exact .nil _
  | cons step _ ih =>
    obtain ⟨hh, hdest⟩ := step
    obtain ⟨hin, hout⟩ := heps _ List.mem_cons_self
    refine .cons (m := ⟨i, _, o⟩) ⟨hh, (WFST.mem_outArcs.mp hh).1, hdest, ?_, ?_⟩
      (ih fun h hmem => heps h (List.mem_cons_of_mem _ hmem))
    · exact .inl ⟨hin, rfl⟩
    · exact .inl ⟨hout, rfl⟩

variable (inp out) in
theorem onCycle_consume_iff : OnCycle (ConsumeAdj x inp out) d ↔ x.EpsilonCycle d.s := by
  constructor
  · rintro ⟨h, path, hwalk⟩
    obtain ⟨hpath, -, -, heps⟩ := consume_mono hwalk
    exact ⟨h, path, hpath, heps rfl rfl⟩
  · rintro ⟨h, path, hpath, heps⟩
    exact ⟨h, path, consume_of_epsilons hpath heps d.i d.o⟩

namespace Represents

variable {D : Derivations} {num : DerivState → Option ℕ} {keep : DerivState → Prop} {i : ℕ}

/-- The final state is reached from a state exactly when the goal is. -/
theorem exists_walk_from_iff (h : Represents x inp out D.g num keep) (hd : num d = some i)
    {goal : DerivState} (hgoal : isGoal x inp out goal = true) (hnum : num goal = some D.fin) :
    (∃ q, Walk D.Adj i q D.fin) ↔ CanFinish x inp out d := by
  constructor
  · rintro ⟨q, hq⟩
    obtain ⟨cs, d', -, hwalk, hd'⟩ :=
      Correspondence.exists_lift (C := h.correspondence D.fin D.noGoal) hd hq
    obtain rfl : d' = goal := h.num_inj hd' hnum
    exact ⟨cs, accepted_live_iff.mp ⟨d', hwalk, hgoal⟩⟩
  · rintro ⟨cs, hcs⟩
    obtain ⟨d', hwalk, hd'⟩ := accepted_live_iff.mpr hcs
    obtain ⟨q, j, -, hq, hj⟩ :=
      Correspondence.exists_lift_back (C := h.correspondence D.fin D.noGoal) hd hwalk
    obtain rfl : d' = goal := isGoal_unique hd' hgoal
    obtain rfl : j = D.fin := Option.some.inj (hj.symm.trans hnum)
    exact ⟨q, hq⟩

end Represents

/-- Every state of the lattice lies on a path from state 0 to the final state. -/
def Derivations.Trim (D : Derivations) : Prop :=
  ∀ i < D.g.length, (∃ p, Walk D.Adj 0 p i) ∧ ∃ q, Walk D.Adj i q D.fin

/-- **When pruning leaves no state behind.** The pruned lattice has only states
on paths to `fin` exactly when no state that can be met while reading the pair,
and from which the pair cannot be finished, lies on a cycle of epsilon arcs. -/
theorem trim_iff (x : WFST W) (inp out : List ℕ) :
    ∃ D, compute x inp out true = some D ∧ (D.noGoal = false → (D.Trim ↔
      ∀ d, Reaches (ConsumeAdj x inp out) .start d →
        ¬ Productive (ConsumeAdj x inp out) (fun d => isGoal x inp out d) d →
          ¬ x.EpsilonCycle d.s)) := by
  obtain ⟨D, hD, -, hlattice⟩ := compute_spec x inp out true
  refine ⟨D, hD, fun hfound => ?_⟩
  obtain ⟨num, goal, hrep, hgoal, hnum⟩ := hlattice hfound
  have hprod : ∀ {d i}, num d = some i → ((∃ q, Walk D.Adj i q D.fin) ↔ CanFinish x inp out d) :=
    fun hd => hrep.exists_walk_from_iff hd hgoal hnum
  have htrim : D.Trim ↔ ∀ d, Reaches (CandAdj x inp out) .start d → ¬ DeadEnd x inp out d →
      CanFinish x inp out d := by
    constructor
    · intro h d hreach hlive
      obtain ⟨i, hi⟩ := hrep.kept.mpr ⟨hreach, fun _ => hlive⟩
      exact (hprod hi).mp (h i (hrep.num_lt hi)).2
    · intro h i hi
      obtain ⟨d, hd⟩ := hrep.onto i hi
      obtain ⟨hreach, hlive⟩ := hrep.kept.mp ⟨i, hd⟩
      exact ⟨hrep.exists_walk_to hd (hlive rfl), (hprod hd).mpr (h d hreach (hlive rfl))⟩
  rw [htrim]
  simp only [← onCycle_consume_iff inp out, ← reaches_congr (exists_candAdj_iff x inp out),
    ← productive_congr (exists_candAdj_iff x inp out),
    ← onCycle_congr (exists_candAdj_iff x inp out)]
  exact live_productive_iff (finite_reaches _ (.refl _))

/-- The loop beside the path stays in the lattice, and nothing leads out of it. -/
theorem not_trim_loopBeside :
    ∃ D, compute loopBeside [2] [2] true = some D ∧ D.noGoal = false ∧ ¬ D.Trim := by
  refine ⟨⟨[[⟨0, 2, 1⟩, ⟨0, 1, 0⟩], [], [⟨2, 2, 2⟩]], 1, false⟩, by decide, rfl, fun h => ?_⟩
  obtain ⟨-, q, hq⟩ := h 2 (by decide)
  have hstay := hq.invariant (P := (· = 2)) (fun {i a j} hstep hi => by
    subst hi
    obtain ⟨ha, rfl⟩ := hstep
    rw [List.mem_singleton.mp ha]) rfl
  exact absurd hstay (by decide)

end Carmel
