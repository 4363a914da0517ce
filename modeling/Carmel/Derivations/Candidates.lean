/-
# Candidates for lattice arcs

What `derive` tries from a state depends on the transducer and the two sequences only. The
states and the candidates form a finite graph; its dead ends are the states that `derive`
ought to mark.
-/

import Carmel.Derivations.Derive

namespace Carmel

open Carmel.Math

universe u

variable {W : Type u}

theorem WFST.mem_arcsTable {x : WFST W} {h : HalfArc W} :
    h ∈ x.arcsTable ↔ h ∈ x.outArcs h.source := by
  rw [WFST.arcsTable, List.mem_flatMap]
  constructor
  · intro ⟨s, _, hs⟩
    rwa [(WFST.mem_outArcs.mp hs).1]
  · intro hh
    refine ⟨h.source, List.mem_range.mpr ?_, hh⟩
    by_contra hlt
    have hnone : x.states[h.source]? = none := List.getElem?_eq_none (Nat.le_of_not_lt hlt)
    have harc := (WFST.mem_outArcs.mp hh).2
    rw [WFST.state, List.getD_eq_getElem?_getD, hnone] at harc
    simp at harc

theorem WFST.arcsTable_nodup (x : WFST W) : x.arcsTable.Nodup := by
  apply List.nodup_flatMap.mpr
  refine ⟨fun s _ => x.outArcs_nodup s, List.nodup_range.imp ?_⟩
  intro s t hst h hs ht
  exact hst ((WFST.mem_outArcs.mp hs).1.symm.trans (WFST.mem_outArcs.mp ht).1)

namespace IoIndex

theorem visit_st (io : IoIndex) (h : HalfArc W) (s : ℕ) (key : ℕ × ℕ) :
    (io.visit h).st s key =
      if s = h.source ∧ key = (h.arc.inp, h.arc.out) then io.st s key ++ [io.i] else io.st s key :=
  rfl

/-- The index of the arcs visited so far. -/
structure Indexes (io : IoIndex) (l : List (HalfArc W)) : Prop where
  i : io.i = l.length
  mem : ∀ s key id, id ∈ io.st s key ↔
    ∃ h, l[id]? = some h ∧ h.source = s ∧ (h.arc.inp, h.arc.out) = key
  sorted : ∀ s key, (io.st s key).Pairwise (· < ·)

theorem Indexes.lt {io : IoIndex} {l : List (HalfArc W)} (hio : io.Indexes l) {s id : ℕ}
    {key : ℕ × ℕ} (hid : id ∈ io.st s key) : id < l.length := by
  obtain ⟨h, hh, -⟩ := (hio.mem s key id).mp hid
  exact (List.getElem?_eq_some_iff.mp hh).1

/-- The ids after one more arc: the old ones, and the new arc's if its labels are the key. -/
theorem Indexes.mem_concat {io : IoIndex} {l : List (HalfArc W)} (hio : io.Indexes l)
    (h : HalfArc W) (s : ℕ) (key : ℕ × ℕ) (id : ℕ) :
    (∃ h', (l ++ [h])[id]? = some h' ∧ h'.source = s ∧ (h'.arc.inp, h'.arc.out) = key) ↔
      id ∈ io.st s key ∨ id = l.length ∧ h.source = s ∧ (h.arc.inp, h.arc.out) = key := by
  rw [hio.mem]
  rcases Nat.lt_trichotomy id l.length with hid | rfl | hid
  · simp [List.getElem?_append_left hid, Nat.ne_of_lt hid]
  · simp
  · have hnone : (l ++ [h])[id]? = none := List.getElem?_eq_none (by simp; omega)
    have hnone' : l[id]? = none := List.getElem?_eq_none (Nat.le_of_lt hid)
    simp [hnone, hnone', Nat.ne_of_gt hid]

theorem Indexes.visit {io : IoIndex} {l : List (HalfArc W)} (hio : io.Indexes l) (h : HalfArc W) :
    (io.visit h).Indexes (l ++ [h]) where
  i := by simp [IoIndex.visit, hio.i]
  mem s key id := by
    rw [hio.mem_concat, visit_st]
    split
    · next hkey => simp [hkey.1, hkey.2, hio.i]
    · next hkey =>
        have : ¬ (h.source = s ∧ (h.arc.inp, h.arc.out) = key) :=
          fun hk => hkey ⟨hk.1.symm, hk.2.symm⟩
        simp [this]
  sorted s key := by
    rw [visit_st]
    split
    · apply List.pairwise_append.mpr
      refine ⟨hio.sorted s key, List.pairwise_singleton .., fun id hid j hj => ?_⟩
      rw [List.mem_singleton.mp hj, hio.i]
      exact hio.lt hid
    · exact hio.sorted s key

theorem indexes_foldl (l : List (HalfArc W)) :
    (l.foldl IoIndex.visit ⟨fun _ _ => [], 0⟩).Indexes l := by
  induction l using List.reverseRecOn with
  | nil => exact ⟨rfl, by simp, by simp⟩
  | append_singleton l h ih =>
    rw [List.foldl_append]
    exact ih.visit h

end IoIndex

theorem WFST.mem_ioIndex {x : WFST W} {s id : ℕ} {key : ℕ × ℕ} : id ∈ x.ioIndex.st s key ↔
    ∃ h, x.arcsTable[id]? = some h ∧ h.source = s ∧ (h.arc.inp, h.arc.out) = key :=
  (IoIndex.indexes_foldl x.arcsTable).mem s key id

theorem WFST.ioIndex_nodup (x : WFST W) (s : ℕ) (key : ℕ × ℕ) : (x.ioIndex.st s key).Nodup :=
  ((IoIndex.indexes_foldl x.arcsTable).sorted s key).imp Nat.ne_of_lt

theorem WFST.arcDest_eq {x : WFST W} {id : ℕ} {h : HalfArc W} (hid : x.arcsTable[id]? = some h) :
    x.arcDest id = h.arc.dest := by
  simp [WFST.arcDest, hid]

/-- An arc id tried from a state, and the state it leads to. -/
structure Candidate where
  id : ℕ
  state : DerivState
deriving DecidableEq, Repr

/-- The label is read off the sequence at a position, or is epsilon and reads nothing. -/
def Reads (symbols : List ℕ) (pos label pos' : ℕ) : Prop :=
  label = epsilonIndex ∧ pos' = pos ∨ symbols[pos]? = some label ∧ pos' = pos + 1

/-- Taking the arc from the first state, reading its labels, leads to the second. -/
structure Consumes (inp out : List ℕ) (d : DerivState) (h : HalfArc W) (d' : DerivState) :
    Prop where
  source : h.source = d.s
  dest : h.arc.dest = d'.s
  inp : Reads inp d.i h.arc.inp d'.i
  out : Reads out d.o h.arc.out d'.o

section Candidates

variable (x : WFST W) (inp out : List ℕ)

/-- What one use of `add_arcs` tries. -/
def candidatesOf (d : DerivState) (q : Lookup) : List Candidate :=
  (x.ioIndex.st d.s (q.sIn, q.sOut)).map fun id => ⟨id, ⟨q.iIn, x.arcDest id, q.iOut⟩⟩

/-- What `derive` tries from a state, in order. -/
def candidates (d : DerivState) : List Candidate :=
  (lookups inp out d).flatMap (candidatesOf x d)

/-- The graph that `derive` explores. -/
def CandAdj (d : DerivState) (c : Candidate) (d' : DerivState) : Prop :=
  c ∈ candidates x inp out d ∧ c.state = d'

/-- Reading on from the state can neither go on for ever nor arrive at the goal. -/
def DeadEnd (d : DerivState) : Prop := Dead (CandAdj x inp out) (fun d => isGoal x inp out d) d

open Classical in
/-- Those of some candidates that do not lead to dead ends. -/
noncomputable def live (cs : List Candidate) : List Candidate :=
  cs.filter fun c => ¬ DeadEnd x inp out c.state

variable {x inp out} {d d' : DerivState} {c : Candidate} {q : Lookup}

theorem mem_lookups : q ∈ lookups inp out d ↔
    Reads inp d.i q.sIn q.iIn ∧ Reads out d.o q.sOut q.iOut := by
  obtain ⟨sIn, sOut, iIn, iOut⟩ := q
  simp only [lookups, Reads]
  cases hi : inp[d.i]? <;> cases ho : out[d.o]? <;> simp <;> grind

variable (inp out) in
theorem lookups_nodup (d : DerivState) :
    ((lookups inp out d).map fun q => (q.iIn, q.iOut)).Nodup := by
  simp only [lookups]
  cases inp[d.i]? <;> cases out[d.o]? <;> simp

theorem mem_candidates : c ∈ candidates x inp out d ↔
    ∃ h, x.arcsTable[c.id]? = some h ∧ Consumes inp out d h c.state := by
  obtain ⟨id, i, s, o⟩ := c
  simp only [candidates, candidatesOf, List.mem_flatMap, List.mem_map, WFST.mem_ioIndex,
    Candidate.mk.injEq, DerivState.mk.injEq]
  constructor
  · rintro ⟨q, hq, _, ⟨h, hid, hs, hkey⟩, rfl, rfl, hdest, rfl⟩
    obtain ⟨hin, hout⟩ := mem_lookups.mp hq
    obtain ⟨hsin, hsout⟩ := Prod.mk.inj hkey
    rw [WFST.arcDest_eq hid] at hdest
    exact ⟨h, hid, hs, hdest, hsin ▸ hin, hsout ▸ hout⟩
  · rintro ⟨h, hid, hs, hdest, hin, hout⟩
    refine ⟨⟨h.arc.inp, h.arc.out, i, o⟩, mem_lookups.mpr ⟨hin, hout⟩, id, ?_⟩
    exact ⟨⟨h, hid, hs, rfl⟩, rfl, rfl, (WFST.arcDest_eq hid).trans hdest, rfl⟩

theorem candidates_nodup (d : DerivState) : (candidates x inp out d).Nodup := by
  apply List.nodup_flatMap.mpr
  constructor
  · intro q _
    exact (x.ioIndex_nodup ..).map fun _ _ h => congrArg Candidate.id h
  · refine (List.pairwise_map.mp (lookups_nodup inp out d)).imp ?_
    intro q q' hne c hc hc'
    obtain ⟨_, _, rfl⟩ := List.mem_map.mp hc
    obtain ⟨_, _, hc'⟩ := List.mem_map.mp hc'
    exact hne (Prod.ext (congrArg (·.state.i) hc').symm (congrArg (·.state.o) hc').symm)

theorem mem_live {cs : List Candidate} :
    c ∈ live x inp out cs ↔ c ∈ cs ∧ ¬ DeadEnd x inp out c.state := by
  simp [live]

@[simp] theorem live_nil : live x inp out [] = [] := rfl

theorem live_cons_of_dead {cs : List Candidate} (h : DeadEnd x inp out c.state) :
    live x inp out (c :: cs) = live x inp out cs := by
  simp [live, h]

theorem live_cons_of_not_dead {cs : List Candidate} (h : ¬ DeadEnd x inp out c.state) :
    live x inp out (c :: cs) = c :: live x inp out cs := by
  simp [live, h]

theorem deadEnd_iff : DeadEnd x inp out d ↔
    isGoal x inp out d = false ∧ live x inp out (candidates x inp out d) = [] := by
  rw [DeadEnd, dead_iff, Bool.not_eq_true, List.eq_nil_iff_forall_not_mem]
  refine and_congr_right fun _ => ⟨fun h c hc => ?_, ?_⟩
  · exact (mem_live.mp hc).2 (h c c.state ⟨(mem_live.mp hc).1, rfl⟩)
  · rintro h c - ⟨hc, rfl⟩
    by_contra hnot
    exact h c (mem_live.mpr ⟨hc, hnot⟩)

theorem CandAdj.det {c : Candidate} {b b' : DerivState} (first : CandAdj x inp out d c b)
    (second : CandAdj x inp out d c b') : b = b' :=
  first.2.symm.trans second.2

variable (x inp out) in
/-- All states in range, as triples. -/
def box : Finset (ℕ × ℕ × ℕ) :=
  Finset.range (inp.length + 1) ×ˢ
    insert 0 (x.arcsTable.map (·.arc.dest)).toFinset ×ˢ Finset.range (out.length + 1)

theorem Reads.le {symbols : List ℕ} {pos label pos' : ℕ} (h : Reads symbols pos label pos')
    (hpos : pos ≤ symbols.length) : pos' ≤ symbols.length := by
  rcases h with ⟨-, rfl⟩ | ⟨hget, rfl⟩
  · exact hpos
  · exact (List.getElem?_eq_some_iff.mp hget).1

theorem mem_box_of_reaches (h : Reaches (CandAdj x inp out) ⟨0, 0, 0⟩ d) :
    (d.i, d.s, d.o) ∈ box x inp out := by
  obtain ⟨cs, hwalk⟩ := h
  have hstart : (0, 0, 0) ∈ box x inp out := by simp [box]
  refine hwalk.invariant (P := fun d => (d.i, d.s, d.o) ∈ box x inp out) ?_ hstart
  rintro d c - ⟨hc, rfl⟩ hd
  obtain ⟨h, hid, hcons⟩ := mem_candidates.mp hc
  simp only [box, Finset.mem_product, Finset.mem_range, Finset.mem_insert, List.mem_toFinset,
    Nat.lt_succ_iff] at hd ⊢
  refine ⟨hcons.inp.le hd.1, .inr ?_, hcons.out.le hd.2.2⟩
  rw [← hcons.dest]
  exact List.mem_map.mpr ⟨h, List.mem_of_getElem? hid, rfl⟩

theorem finite_reaches (d : DerivState) (hd : Reaches (CandAdj x inp out) ⟨0, 0, 0⟩ d) :
    {d' | Reaches (CandAdj x inp out) d d'}.Finite := by
  have hinj : Function.Injective fun d : DerivState => (d.i, d.s, d.o) := by
    rintro ⟨_, _, _⟩ ⟨_, _, _⟩ h
    simpa using h
  refine Set.Finite.of_finite_image ((box x inp out).finite_toSet.subset ?_) hinj.injOn
  rintro _ ⟨d', hd', rfl⟩
  exact mem_box_of_reaches (hd.trans hd')

theorem card_box_lt : (box x inp out).card < deriveFuel x inp out := by
  have hdests : (insert 0 (x.arcsTable.map (·.arc.dest)).toFinset).card ≤ x.arcsTable.length + 1 := by
    refine (Finset.card_insert_le ..).trans (Nat.succ_le_succ ?_)
    exact (List.toFinset_card_le _).trans_eq (List.length_map ..)
  rw [deriveFuel, Nat.lt_succ_iff, box, Finset.card_product, Finset.card_product,
    Finset.card_range, Finset.card_range, Nat.mul_assoc]
  exact Nat.mul_le_mul_left _ (Nat.mul_le_mul_right _ hdests)

end Candidates

end Carmel
