/-
# What the two tables of an example say

The backward table is filled for the reversed sequences along the arcs turned round, and
then turned by 180 degrees; so it solves the backward equations of the graph whose forward
equations the forward table solves. The walks of this graph are the derivations of the
example.
-/

import Carmel.Train.MatrixIndex

namespace Carmel

open Carmel.Math

universe u v

section Turn

variable {α : Type v} {R : Type u}

theorem foldl_swap_apply (maxI k : ℕ) (hk : k ≤ maxI / 2 + 1) (w : ℕ → α) {p : ℕ} (hp : p ≤ maxI) :
    (List.range k).foldl (fun w i =>
        Function.update (Function.update w i (w (maxI - i))) (maxI - i) (w i)) w p =
      if p < k ∨ maxI - p < k then w (maxI - p) else w p := by
  induction k generalizing p with
  | zero => simp
  | succ k ih =>
    have ih' := fun {p} => ih (p := p) (by omega)
    rw [List.range_succ, List.foldl_append, List.foldl_cons, List.foldl_nil]
    by_cases hlast : p = maxI - k
    · subst hlast
      rw [Function.update_self, ih' (by omega), if_neg (by omega), if_pos (by omega)]
      congr 1
      omega
    · rw [Function.update_of_ne hlast]
      by_cases hfirst : p = k
      · subst hfirst
        rw [Function.update_self, ih' (by omega), if_neg (by omega), if_pos (by omega)]
      · rw [Function.update_of_ne hfirst, ih' hp]
        by_cases hc : p < k ∨ maxI - p < k
        · rw [if_pos hc, if_pos (by omega)]
        · rw [if_neg hc, if_neg (by omega)]

theorem reverseRows_apply {maxI p : ℕ} (w : ℕ → α) (hp : p ≤ maxI) :
    reverseRows maxI w p = w (maxI - p) := by
  rw [reverseRows, foldl_swap_apply maxI _ (Nat.le_refl _) w hp, if_pos (by omega)]

theorem foldl_update_apply (g : α → α) (n i : ℕ) (rows : ℕ → α) :
    (List.range n).foldl (fun rows i => Function.update rows i (g (rows i))) rows i =
      if i < n then g (rows i) else rows i := by
  induction n with
  | zero => simp
  | succ n ih =>
    rw [List.range_succ, List.foldl_append, List.foldl_cons, List.foldl_nil]
    by_cases hi : i = n
    · subst hi
      rw [Function.update_self, ih, if_neg (Nat.lt_irrefl _), if_pos (Nat.lt_succ_self _)]
    · rw [Function.update_of_ne hi, ih]
      by_cases hlt : i < n
      · rw [if_pos hlt, if_pos (by omega)]
      · rw [if_neg hlt, if_neg (by omega)]

theorem matrixReverseIo_apply {maxI maxO : ℕ} (w : DerivState → R) {d : DerivState}
    (hi : d.i ≤ maxI) (ho : d.o ≤ maxO) :
    matrixReverseIo maxI maxO w d = w ⟨maxI - d.i, d.s, maxO - d.o⟩ := by
  rw [matrixReverseIo]
  simp only
  rw [foldl_update_apply, if_pos (by omega), reverseRows_apply _ ho, reverseRows_apply _ hi]

end Turn

section Rotate

variable {nSt : ℕ} {inp out : List ℕ} {d : DerivState} {e : MatrixEdge}

variable (nSt inp out) in
/-- The entries of the tables. -/
def tableEntries : Finset DerivState :=
  (Finset.range (inp.length + 1) ×ˢ Finset.range nSt ×ˢ Finset.range (out.length + 1)).image
    fun p => ⟨p.1, p.2.1, p.2.2⟩

theorem mem_tableEntries : d ∈ tableEntries nSt inp out ↔ InTable nSt inp out d := by
  simp only [tableEntries, Finset.mem_image, Finset.mem_product, Finset.mem_range,
    Nat.lt_succ_iff, Prod.exists, InTable]
  constructor
  · rintro ⟨i, s, o, h, rfl⟩
    exact h
  · intro h
    exact ⟨d.i, d.s, d.o, h, rfl⟩

variable (inp out) in
/-- The entry that turning by 180 degrees exchanges with `d`. -/
def DerivState.turn (d : DerivState) : DerivState := ⟨inp.length - d.i, d.s, out.length - d.o⟩

variable (inp out) in
/-- The edge between the turned entries, the other way. -/
def MatrixEdge.turn (e : MatrixEdge) : MatrixEdge := ⟨e.dest.turn inp out, e.id, e.src.turn inp out⟩

theorem InTable.turn (h : InTable nSt inp out d) : InTable nSt inp out (d.turn inp out) :=
  ⟨Nat.sub_le .., h.2.1, Nat.sub_le ..⟩

theorem InTable.turn_turn (h : InTable nSt inp out d) : (d.turn inp out).turn inp out = d := by
  obtain ⟨i, s, o⟩ := d
  obtain ⟨hi, -, ho⟩ := h
  exact congrArg₂ (fun i o => (⟨i, s, o⟩ : DerivState)) (Nat.sub_sub_self hi) (Nat.sub_sub_self ho)

theorem inTable_reverse : InTable nSt inp.reverse out.reverse d ↔ InTable nSt inp out d := by
  simp [InTable]

theorem reads_reverse {symbols : List ℕ} {pos label pos' : ℕ} (hpos : pos ≤ symbols.length)
    (hpos' : pos' ≤ symbols.length) : Reads symbols.reverse pos label pos' ↔
      Reads symbols (symbols.length - pos') label (symbols.length - pos) := by
  constructor
  · rintro (⟨hlabel, rfl⟩ | ⟨hget, rfl⟩)
    · exact .inl ⟨hlabel, rfl⟩
    · rw [List.getElem?_reverse (by omega)] at hget
      exact .inr ⟨by rwa [Nat.sub_sub, Nat.add_comm] at hget, by omega⟩
  · rintro (⟨hlabel, heq⟩ | ⟨hget, heq⟩)
    · exact .inl ⟨hlabel, by omega⟩
    · refine .inr ⟨?_, by omega⟩
      rw [List.getElem?_reverse (by omega), ← hget]
      congr 1
      omega

variable {W : Type u} {x : WFST W}

theorem IsMatrixEdge.dest_inTable {io : ℕ → ℕ × ℕ → List DWPair} {eTopo : List ℕ}
    {succ : ℕ → List ℕ} (hio : IndexOrder nSt io eTopo succ) (h : IsMatrixEdge nSt inp out io e) :
    InTable nSt inp out e.dest := by
  obtain ⟨⟨hi, -, ho⟩, key, hdw, hin, hout⟩ := h
  exact ⟨hin.le hi, hio.dest_lt hdw, hout.le ho⟩

theorem isMatrixEdge_turn (hsrc : InTable nSt inp out e.src) (hdest : InTable nSt inp out e.dest) :
    IsMatrixEdge nSt inp out x.matrixIoIndex.forward e ↔
      IsMatrixEdge nSt inp.reverse out.reverse x.matrixIoIndex.backward (e.turn inp out) := by
  have hreads : ∀ key : ℕ × ℕ, (Reads inp e.src.i key.1 e.dest.i ∧ Reads out e.src.o key.2 e.dest.o) ↔
      Reads inp.reverse (e.turn inp out).src.i key.1 (e.turn inp out).dest.i ∧
        Reads out.reverse (e.turn inp out).src.o key.2 (e.turn inp out).dest.o := by
    intro key
    simp only [DerivState.turn, MatrixEdge.turn]
    rw [reads_reverse (Nat.sub_le ..) (Nat.sub_le ..), reads_reverse (Nat.sub_le ..) (Nat.sub_le ..)]
    rw [Nat.sub_sub_self hsrc.1, Nat.sub_sub_self hdest.1, Nat.sub_sub_self hsrc.2.2,
      Nat.sub_sub_self hdest.2.2]
  constructor
  · rintro ⟨-, key, hdw, hkey⟩
    exact ⟨inTable_reverse.mpr hdest.turn, key, WFST.mem_backward_iff.mpr hdw, (hreads key).mp hkey⟩
  · rintro ⟨-, key, hdw, hkey⟩
    exact ⟨hsrc, key, WFST.mem_backward_iff.mp hdw, (hreads key).mpr hkey⟩

end Rotate

section Backward

variable {W : Type v} {x : WFST W} {R : Type u} [CommSemiring R] [DecidableEq R]
variable {inp out lf lb : List ℕ} {wt : ℕ → R} {succ pred : ℕ → List ℕ}

/-- **The backward table solves the backward equations.** -/
theorem solvesBackward_matrixReverseIo
    (hf : IndexOrder x.numStates x.matrixIoIndex.forward lf succ)
    (hb : IndexOrder x.numStates x.matrixIoIndex.backward lb pred) (final : ℕ) :
    SolvesBackward MatrixEdge.src MatrixEdge.dest (fun e => wt e.id)
      (passEdges x.numStates inp out x.matrixIoIndex.forward lf).toFinset
      (tableEntries x.numStates inp out) (atVertex ⟨inp.length, final, out.length⟩)
      (matrixReverseIo inp.length out.length
        (matrixCompute wt x.numStates inp.reverse out.reverse final x.matrixIoIndex.backward lb)) := by
  have hsolve := hb.solvesForward inp.reverse out.reverse wt final
    (tableEntries x.numStates inp out)
  have hends : ∀ {e}, e ∈ passEdges x.numStates inp out x.matrixIoIndex.forward lf →
      InTable x.numStates inp out e.src ∧ InTable x.numStates inp out e.dest := by
    intro e he
    have he := hf.mem_passEdges.mp he
    exact ⟨he.inTable, he.dest_inTable hf⟩
  have hends' : ∀ {e},
      e ∈ passEdges x.numStates inp.reverse out.reverse x.matrixIoIndex.backward lb →
        InTable x.numStates inp out e.src ∧ InTable x.numStates inp out e.dest := by
    intro e he
    have he := hb.mem_passEdges.mp he
    exact ⟨inTable_reverse.mp he.inTable, inTable_reverse.mp (he.dest_inTable hb)⟩
  have hturn : ∀ {d}, InTable x.numStates inp out d → matrixReverseIo inp.length out.length
        (matrixCompute wt x.numStates inp.reverse out.reverse final x.matrixIoIndex.backward lb) d =
      matrixCompute wt x.numStates inp.reverse out.reverse final x.matrixIoIndex.backward lb
        (d.turn inp out) := fun hd => matrixReverseIo_apply _ hd.1 hd.2.2
  have hedge : ∀ {e : MatrixEdge}, InTable x.numStates inp out e.src →
      InTable x.numStates inp out e.dest → (e.turn inp out).turn inp out = e := by
    intro e hs hd
    obtain ⟨src, id, dest⟩ := e
    simp only [MatrixEdge.turn]
    rw [hs.turn_turn, hd.turn_turn]
  intro d hd
  have hd := mem_tableEntries.mp hd
  rw [hturn hd, hsolve _ (mem_tableEntries.mpr hd.turn)]
  refine congrArg₂ _ ?_ ?_
  · -- the turned entry is the start exactly when the entry is the end
    have hstart : d.turn inp out = ⟨0, final, 0⟩ ↔ d = ⟨inp.length, final, out.length⟩ := by
      obtain ⟨i, s, o⟩ := d
      obtain ⟨hi, -, ho⟩ := hd
      simp only at hi ho
      simp only [DerivState.turn, DerivState.mk.injEq]
      omega
    by_cases h : d = ⟨inp.length, final, out.length⟩
    · rw [atVertex, if_pos (hstart.mpr h), atVertex, if_pos h]
    · rw [atVertex, if_neg (fun h' => h (hstart.mp h')), atVertex, if_neg h]
  · refine Finset.sum_nbij' (MatrixEdge.turn inp out) (MatrixEdge.turn inp out) ?_ ?_ ?_ ?_ ?_
    · intro e he
      obtain ⟨he, hdest⟩ := Finset.mem_filter.mp he
      obtain ⟨hs, ht⟩ := hends' (List.mem_toFinset.mp he)
      refine Finset.mem_filter.mpr ⟨List.mem_toFinset.mpr (hf.mem_passEdges.mpr ?_), ?_⟩
      · refine (isMatrixEdge_turn ht.turn hs.turn).mpr ?_
        rw [hedge hs ht]
        exact hb.mem_passEdges.mp (List.mem_toFinset.mp he)
      · change e.dest.turn inp out = d
        rw [hdest, hd.turn_turn]
    · intro e he
      obtain ⟨he, hsrc⟩ := Finset.mem_filter.mp he
      obtain ⟨hs, ht⟩ := hends (List.mem_toFinset.mp he)
      refine Finset.mem_filter.mpr ⟨List.mem_toFinset.mpr (hb.mem_passEdges.mpr ?_), ?_⟩
      · exact (isMatrixEdge_turn hs ht).mp (hf.mem_passEdges.mp (List.mem_toFinset.mp he))
      · exact congrArg (DerivState.turn inp out) hsrc
    · intro e he
      obtain ⟨hs, ht⟩ := hends' (List.mem_toFinset.mp (Finset.mem_filter.mp he).1)
      exact hedge hs ht
    · intro e he
      obtain ⟨hs, ht⟩ := hends (List.mem_toFinset.mp (Finset.mem_filter.mp he).1)
      exact hedge hs ht
    · intro e he
      obtain ⟨hs, ht⟩ := hends' (List.mem_toFinset.mp (Finset.mem_filter.mp he).1)
      rw [mul_comm]
      change _ = wt e.id * matrixReverseIo _ _ _ (e.src.turn inp out)
      rw [hturn hs.turn, hs.turn_turn]

end Backward

/-- The candidates of a derivation, from the start to the goal. -/
def IsDerivation {W : Type v} (x : WFST W) (inp out : List ℕ) (cs : List Candidate) : Prop :=
  Accepted (CandAdj x inp out) (fun d => isGoal x inp out d) .start cs

section Walks

variable {W : Type v} {x : WFST W} {inp out lf : List ℕ} {succ : ℕ → List ℕ}

theorem isMatrixEdge_iff {e : MatrixEdge} :
    IsMatrixEdge x.numStates inp out x.matrixIoIndex.forward e ↔
      InTable x.numStates inp out e.src ∧ CandAdj x inp out e.src ⟨e.id, e.dest⟩ e.dest := by
  constructor
  · rintro ⟨htable, key, hdw, hin, hout⟩
    obtain ⟨h, hid, hsrc, rfl, hdest⟩ := WFST.mem_forward.mp hdw
    exact ⟨htable, mem_candidates.mpr ⟨h, hid, hsrc, hdest, hin, hout⟩, rfl⟩
  · rintro ⟨htable, hc, -⟩
    obtain ⟨h, hid, hcons⟩ := mem_candidates.mp hc
    exact ⟨htable, _, WFST.mem_forward.mpr ⟨h, hid, hcons.source, rfl, hcons.dest⟩,
      hcons.inp, hcons.out⟩

variable (inp out) in
/-- Walks over table entries and walks of candidates. -/
def tableCorrespondence (hf : IndexOrder x.numStates x.matrixIoIndex.forward lf succ) :
    Correspondence (EdgeAdj MatrixEdge.src MatrixEdge.dest
      (passEdges x.numStates inp out x.matrixIoIndex.forward lf).toFinset) (CandAdj x inp out) where
  rel d d' := d = d' ∧ InTable x.numStates inp out d
  edge d e c := c = ⟨e.id, e.dest⟩ ∧ e.src = d
  det := fun h h' => h.2.2.symm.trans h'.2.2
  det' := CandAdj.det
  forth := by
    rintro d _ e b ⟨rfl, -⟩ ⟨he, rfl, rfl⟩
    have he := hf.mem_passEdges.mp (List.mem_toFinset.mp he)
    exact ⟨_, _, ⟨rfl, rfl⟩, (isMatrixEdge_iff.mp he).2, rfl, he.dest_inTable hf⟩
  back := by
    rintro d _ ⟨id, b⟩ _ ⟨rfl, hd⟩ ⟨hc, rfl⟩
    have he : IsMatrixEdge x.numStates inp out x.matrixIoIndex.forward ⟨d, id, b⟩ :=
      isMatrixEdge_iff.mpr ⟨hd, hc, rfl⟩
    exact ⟨⟨d, id, b⟩, b, ⟨rfl, rfl⟩,
      ⟨List.mem_toFinset.mpr (hf.mem_passEdges.mpr he), rfl, rfl⟩, rfl, he.dest_inTable hf⟩
  right_unique := fun _ h₁ h₂ => h₁.1.trans h₂.1.symm
  left_unique := by
    rintro d ⟨s₁, id₁, d₁⟩ ⟨s₂, id₂, d₂⟩ b₁ b₂ c - - ⟨hc₁, hs₁⟩ ⟨hc₂, hs₂⟩
    obtain ⟨hid, hdest⟩ := Candidate.mk.inj (hc₁.symm.trans hc₂)
    rw [MatrixEdge.mk.injEq]
    exact ⟨hs₁.trans hs₂.symm, hid, hdest⟩

/-- Without cycles of `*e*`/`*e*` arcs, no walk over table entries goes on for ever. -/
theorem dead_table (hf : IndexOrder x.numStates x.matrixIoIndex.forward lf succ)
    (hcycle : ∀ s, ¬ x.EpsilonCycle s) {d : DerivState}
    (hd : d ∈ tableEntries x.numStates inp out) :
    Dead (EdgeAdj MatrixEdge.src MatrixEdge.dest
      (passEdges x.numStates inp out x.matrixIoIndex.forward lf).toFinset) (fun _ => False) d := by
  refine dead_of_no_cycle ?_ (fun _ _ => id) fun d' _ hcyc => ?_
  · refine (tableEntries x.numStates inp out).finite_toSet.subset fun d' hreach => ?_
    obtain ⟨es, hwalk⟩ := hreach
    refine hwalk.invariant (P := (· ∈ tableEntries x.numStates inp out)) ?_ hd
    rintro a e - ⟨he, -, rfl⟩ -
    have he := hf.mem_passEdges.mp (List.mem_toFinset.mp he)
    exact mem_tableEntries.mpr (he.dest_inTable hf)
  · refine hcycle d'.s ((onCycle_consume_iff inp out).mp (hcyc.mono fun {u e w} hstep => ?_))
    obtain ⟨he, rfl, rfl⟩ := hstep
    have he := hf.mem_passEdges.mp (List.mem_toFinset.mp he)
    exact (exists_candAdj_iff x inp out _ _).mp ⟨_, (isMatrixEdge_iff.mp he).2⟩

end Walks

section Sums

variable {F : Type u} [Field F] [LinearOrder F] [IsStrictOrderedRing F]
variable {x : WFST (Weight F)} {final : ℕ}

/-- **The tables of an example** hold the sum over its derivations, and, in the
products at the edges, the expected number of uses of each arc. -/
theorem matrixFb_spec (hx : x.Valid) (hfinal : x.final = some final)
    (hcycle : ∀ s, ¬ x.EpsilonCycle s) (wt : ℕ → Weight F) (ex : IOSymSeq F) :
    ∃ f b, matrixFb x wt final ex = some (f, b) ∧ ∃ A : Finset MatrixEdge,
        (∀ e, e ∈ A ↔ IsMatrixEdge x.numStates ex.i ex.o x.matrixIoIndex.forward e) ∧
        PathSums (IsDerivation x ex.i ex.o) (fun c => wt c.id) Candidate.id
          (f ⟨ex.i.length, final, ex.o.length⟩)
          fun k => ∑ e ∈ A with e.id = k, f e.src * wt e.id * b e.dest := by
  obtain ⟨lf, hlf, hf⟩ := WFST.indexOrder_forward hx hcycle
  obtain ⟨lb, hlb, hb⟩ := WFST.indexOrder_backward hx hcycle
  obtain ⟨fin, hfin, hfinlt⟩ := hx.final_lt
  obtain rfl := Option.some.inj (hfinal.symm.trans hfin)
  refine ⟨_, _, by rw [matrixFb, hlf, hlb]; rfl, _,
    fun e => List.mem_toFinset.trans hf.mem_passEdges, ?_⟩
  have hmem : ∀ {e}, e ∈ (passEdges x.numStates ex.i ex.o x.matrixIoIndex.forward lf).toFinset →
      e.src ∈ tableEntries x.numStates ex.i ex.o ∧ e.dest ∈ tableEntries x.numStates ex.i ex.o := by
    intro e he
    have he := hf.mem_passEdges.mp (List.mem_toFinset.mp he)
    exact ⟨mem_tableEntries.mpr he.inTable, mem_tableEntries.mpr (he.dest_inTable hf)⟩
  have hstart : InTable x.numStates ex.i ex.o .start := ⟨Nat.zero_le _, hx.start_lt, Nat.zero_le _⟩
  have hsums := pathSums_of_solutions MatrixEdge.id (mem_tableEntries.mpr hstart)
    (mem_tableEntries.mpr ⟨Nat.le_refl _, hfinlt, Nat.le_refl _⟩) (fun e he => (hmem he).1)
    (fun e he => (hmem he).2) (fun d hd => dead_table hf hcycle hd)
    (hf.solvesForward _ _ wt 0 _) (solvesBackward_matrixReverseIo hf hb final)
  obtain ⟨e, he⟩ := (tableCorrespondence ex.i ex.o hf).exists_equiv
    (· = ⟨ex.i.length, final, ex.o.length⟩) (fun d => isGoal x ex.i ex.o d) ⟨rfl, hstart⟩
    (by
      rintro d _ ⟨rfl, -⟩
      rw [isGoal_iff, hfinal, Option.some.injEq]
      obtain ⟨i, s, o⟩ := d
      simp only [DerivState.mk.injEq]
      tauto)
  refine (hsums.congr_isPath fun p => accepted_eq_iff.symm).map_equiv e fun p => ?_
  refine map_eq_map_of_forall₂ (R := fun e c => c = ⟨e.id, e.dest⟩) ?_ ((he p).forall₂ ?_)
  · rintro e _ rfl
    rfl
  · exact fun _ hec => hec.1

end Sums

end Carmel

/-!
## One example, in the tables and in the lattice

What `estimate_matrix` adds to the counts is what `collect_counts` adds from the lattice.
-/

namespace Carmel

open Carmel.Math

universe u v

section Edges

variable (nSt : ℕ) (letIn letOut : List ℕ) (io : ℕ → ℕ × ℕ → List DWPair)

/-- The edges out of one entry. -/
def countEdges (d : DerivState) : List MatrixEdge :=
  (letIn[d.i]?.toList.flatMap fun si =>
    (letOut[d.o]?.toList.flatMap fun so => edgesOf io d (si, so) 1 1) ++
      edgesOf io d (si, epsilonIndex) 1 0) ++
  (letOut[d.o]?.toList.flatMap fun so => edgesOf io d (epsilonIndex, so) 0 1) ++
  epsilonEdges io d

/-- The edges of all entries. -/
def tableEdges : List MatrixEdge :=
  (List.range (letIn.length + 1)).flatMap fun i => (List.range (letOut.length + 1)).flatMap fun o =>
    (List.range nSt).flatMap fun s => countEdges letIn letOut io ⟨i, s, o⟩

variable {nSt letIn letOut io} {d : DerivState} {e : MatrixEdge}

theorem countEdges_perm :
    (countEdges letIn letOut io d).Perm (epsilonEdges io d ++ symbolEdges letIn letOut io d) := by
  refine List.perm_append_comm.trans (List.Perm.append_left _ ?_)
  rw [symbolEdges]
  cases letIn[d.i]? <;> cases letOut[d.o]? <;> simp
  rw [← List.append_assoc, ← List.append_assoc]
  exact List.perm_append_comm.trans (by simp [List.append_assoc])

theorem mem_countEdges : e ∈ countEdges letIn letOut io d ↔
    e.src = d ∧ (e ∈ epsilonEdges io d ∨ e ∈ symbolEdges letIn letOut io d) := by
  rw [countEdges_perm.mem_iff, List.mem_append]
  constructor
  · rintro (he | he)
    · exact ⟨(mem_epsilonEdges.mp he).1, .inl he⟩
    · exact ⟨(mem_symbolEdges.mp he).1, .inr he⟩
  · exact And.right

theorem nodup_countEdges (hio : ∀ s key, (io s key).Nodup) :
    (countEdges letIn letOut io d).Nodup := by
  rw [countEdges_perm.nodup_iff]
  refine List.nodup_append'.mpr ⟨nodup_edgesOf hio, nodup_symbolEdges hio, fun e he he' => ?_⟩
  obtain ⟨-, -, hi, ho⟩ := mem_epsilonEdges.mp he
  obtain ⟨-, ⟨_, -, -, hi', ho'⟩ | ⟨_, -, _, -, -, hi', ho'⟩ | ⟨_, -, -, hi', ho'⟩⟩ :=
    mem_symbolEdges.mp he' <;> omega

theorem mem_tableEdges : e ∈ tableEdges nSt letIn letOut io ↔ IsMatrixEdge nSt letIn letOut io e := by
  simp only [tableEdges, List.mem_flatMap, List.mem_range, Nat.lt_succ_iff, mem_countEdges]
  constructor
  · rintro ⟨i, hi, o, ho, s, hs, hsrc, he⟩
    refine ⟨hsrc ▸ ⟨hi, hs, ho⟩, listed_iff.mpr (hsrc ▸ he)⟩
  · rintro ⟨⟨hi, hs, ho⟩, he⟩
    exact ⟨_, hi, _, ho, _, hs, rfl, listed_iff.mp he⟩

variable (nSt letIn letOut) in
theorem nodup_tableEdges (hio : ∀ s key, (io s key).Nodup) :
    (tableEdges nSt letIn letOut io).Nodup := by
  refine List.nodup_flatMap.mpr ⟨fun i _ => List.nodup_flatMap.mpr ⟨fun o _ =>
    List.nodup_flatMap.mpr ⟨fun s _ => nodup_countEdges hio, List.nodup_range.imp ?_⟩,
      List.nodup_range.imp ?_⟩, List.nodup_range.imp ?_⟩
  · intro s s' hne e he he'
    have h := (mem_countEdges.mp he).1.symm.trans (mem_countEdges.mp he').1
    exact hne (congrArg DerivState.s h)
  · intro o o' hne e he he'
    obtain ⟨s, -, he⟩ := List.mem_flatMap.mp he
    obtain ⟨s', -, he'⟩ := List.mem_flatMap.mp he'
    have h := (mem_countEdges.mp he).1.symm.trans (mem_countEdges.mp he').1
    exact hne (congrArg DerivState.o h)
  · intro i i' hne e he he'
    obtain ⟨o, -, he⟩ := List.mem_flatMap.mp he
    obtain ⟨o', -, he'⟩ := List.mem_flatMap.mp he'
    obtain ⟨s, -, he⟩ := List.mem_flatMap.mp he
    obtain ⟨s', -, he'⟩ := List.mem_flatMap.mp he'
    have h := (mem_countEdges.mp he).1.symm.trans (mem_countEdges.mp he').1
    exact hne (congrArg DerivState.i h)

end Edges

section Counts

variable {F : Type u} [Field F] [LinearOrder F] [IsStrictOrderedRing F]
variable {x : WFST (Weight F)} {f b : DerivState → Weight F} {t : List (ArcCounts F)}

/-- The addition of `matrix_count` for one edge. -/
def countEdge (f b : DerivState → Weight F) (t : List (ArcCounts F)) (e : MatrixEdge) :
    List (ArcCounts F) :=
  t.modify e.id fun ac => ac.addScratch (f e.src * ac.weight * b e.dest)

theorem matrixCount_eq (io : ℕ → ℕ × ℕ → List DWPair) (d : DerivState) (key : ℕ × ℕ) (dI dO : ℕ) :
    matrixCount f b (io d.s key) d dI dO t = (edgesOf io d key dI dO).foldl (countEdge f b) t := by
  rw [matrixCount, edgesOf, List.foldl_map]
  rfl

theorem matrixCountEntry_eq (letIn letOut : List ℕ) (d : DerivState) :
    matrixCountEntry x f b letIn letOut d t =
      (countEdges letIn letOut x.matrixIoIndex.forward d).foldl (countEdge f b) t := by
  cases hsi : letIn[d.i]? <;> cases hso : letOut[d.o]? <;>
    simp [matrixCountEntry, countEdges, epsilonEdges, hsi, hso, matrixCount_eq]

theorem matrixCountExample_eq (ex : IOSymSeq F) {A : Finset MatrixEdge}
    (hA : ∀ e, e ∈ A ↔ IsMatrixEdge x.numStates ex.i ex.o x.matrixIoIndex.forward e) :
    matrixCountExample x f b ex t = addEach .addScratch t fun k =>
      ∑ e ∈ A with e.id = k, f e.src * weightOf t e.id * b e.dest := by
  have hlist : matrixCountExample x f b ex t =
      (tableEdges x.numStates ex.i ex.o x.matrixIoIndex.forward).foldl (countEdge f b) t := by
    simp only [matrixCountExample, tableEdges, List.foldl_flatMap, matrixCountEntry_eq]
  have hnodup := nodup_tableEdges x.numStates ex.i ex.o x.nodup_forward
  rw [hlist]
  refine (accumulates_addScratch.foldl_modify _ MatrixEdge.id
    (fun w e => f e.src * w * b e.dest) t).trans ?_
  congr 1
  funext k
  rw [← List.sum_toFinset _ (hnodup.filter _)]
  refine Finset.sum_congr (Finset.ext fun e => ?_) fun e he => ?_
  · simp [hA, mem_tableEdges]
  · rw [(Finset.mem_filter.mp he).2]

end Counts

end Carmel
