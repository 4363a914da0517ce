/-
# The tables of `matrix_compute`

Each use of `matrix_forward_prop` relaxes edges of a graph whose vertices are the table
entries. Row by row and column by column, with the `*e*`/`*e*` arcs first, no entry is
entered again once it was passed on, so a table solves the forward equations.
-/

import Carmel.Train.ForwardBackward

namespace Carmel

open Carmel.Math

universe u

/-- One addition of `matrix_forward_prop`, from one table entry to another. -/
structure MatrixEdge where
  src : DerivState
  id : ℕ
  dest : DerivState
deriving DecidableEq, Repr

section Edges

variable (nSt : ℕ) (inLet outLet : List ℕ) (io : ℕ → ℕ × ℕ → List DWPair)

/-- Positions in the sequences, and a state. -/
def InTable (d : DerivState) : Prop := d.i ≤ inLet.length ∧ d.s < nSt ∧ d.o ≤ outLet.length

/-- An arc of the index that fits what is read between the ends. -/
structure IsMatrixEdge (e : MatrixEdge) : Prop where
  inTable : InTable nSt inLet outLet e.src
  listed : ∃ key, ⟨e.dest.s, e.id⟩ ∈ io e.src.s key ∧ Reads inLet e.src.i key.1 e.dest.i ∧
    Reads outLet e.src.o key.2 e.dest.o

/-- The edges of one use of `matrix_forward_prop`. -/
def edgesOf (d : DerivState) (key : ℕ × ℕ) (dI dO : ℕ) : List MatrixEdge :=
  (io d.s key).map fun dw => ⟨d, dw.id, ⟨d.i + dI, dw.dest, d.o + dO⟩⟩

/-- The edges of `matrixSymbols`. -/
def symbolEdges (d : DerivState) : List MatrixEdge :=
  (outLet[d.o]?.toList.flatMap fun so => edgesOf io d (epsilonIndex, so) 0 1 ++
    inLet[d.i]?.toList.flatMap fun si => edgesOf io d (si, so) 1 1) ++
  inLet[d.i]?.toList.flatMap fun si => edgesOf io d (si, epsilonIndex) 1 0

/-- The `*e*`/`*e*` edges out of an entry. -/
def epsilonEdges (d : DerivState) : List MatrixEdge :=
  edgesOf io d (epsilonIndex, epsilonIndex) 0 0

/-- The edges of one cell of the table, in the order of `matrix_compute`. -/
def cellEdges (eTopo : List ℕ) (i o : ℕ) : List MatrixEdge :=
  (eTopo.flatMap fun s => epsilonEdges io ⟨i, s, o⟩) ++
    (List.range nSt).flatMap fun s => symbolEdges inLet outLet io ⟨i, s, o⟩

/-- All edges, in the order of `matrix_compute`. -/
def passEdges (eTopo : List ℕ) : List MatrixEdge :=
  (List.range (inLet.length + 1)).flatMap fun i =>
    (List.range (outLet.length + 1)).flatMap fun o => cellEdges nSt inLet outLet io eTopo i o

end Edges

section Mem

variable {inLet outLet : List ℕ} {io : ℕ → ℕ × ℕ → List DWPair}
variable {d : DerivState} {e : MatrixEdge} {key : ℕ × ℕ} {dI dO : ℕ}

theorem mem_edgesOf : e ∈ edgesOf io d key dI dO ↔ e.src = d ∧ ⟨e.dest.s, e.id⟩ ∈ io d.s key ∧
    e.dest.i = d.i + dI ∧ e.dest.o = d.o + dO := by
  rw [edgesOf, List.mem_map]
  constructor
  · rintro ⟨dw, hdw, rfl⟩
    exact ⟨rfl, hdw, rfl, rfl⟩
  · rintro ⟨rfl, hdw, hi, ho⟩
    refine ⟨_, hdw, ?_⟩
    rw [← hi, ← ho]

theorem mem_epsilonEdges : e ∈ epsilonEdges io d ↔ e.src = d ∧
    ⟨e.dest.s, e.id⟩ ∈ io d.s (epsilonIndex, epsilonIndex) ∧ e.dest.i = d.i ∧ e.dest.o = d.o :=
  mem_edgesOf

theorem mem_symbolEdges : e ∈ symbolEdges inLet outLet io d ↔ e.src = d ∧
    ((∃ so, outLet[d.o]? = some so ∧ ⟨e.dest.s, e.id⟩ ∈ io d.s (epsilonIndex, so) ∧
        e.dest.i = d.i ∧ e.dest.o = d.o + 1) ∨
      (∃ so, outLet[d.o]? = some so ∧ ∃ si, inLet[d.i]? = some si ∧
        ⟨e.dest.s, e.id⟩ ∈ io d.s (si, so) ∧ e.dest.i = d.i + 1 ∧ e.dest.o = d.o + 1) ∨
      ∃ si, inLet[d.i]? = some si ∧ ⟨e.dest.s, e.id⟩ ∈ io d.s (si, epsilonIndex) ∧
        e.dest.i = d.i + 1 ∧ e.dest.o = d.o) := by
  simp only [symbolEdges, List.mem_append, List.mem_flatMap, Option.mem_toList, mem_edgesOf,
    add_zero]
  constructor
  · rintro (⟨so, hso, ⟨rfl, h⟩ | ⟨si, hsi, rfl, h⟩⟩ | ⟨si, hsi, rfl, h⟩)
    · exact ⟨rfl, .inl ⟨so, hso, h⟩⟩
    · exact ⟨rfl, .inr (.inl ⟨so, hso, si, hsi, h⟩)⟩
    · exact ⟨rfl, .inr (.inr ⟨si, hsi, h⟩)⟩
  · rintro ⟨rfl, ⟨so, hso, h⟩ | ⟨so, hso, si, hsi, h⟩ | ⟨si, hsi, h⟩⟩
    · exact .inl ⟨so, hso, .inl ⟨rfl, h⟩⟩
    · exact .inl ⟨so, hso, .inr ⟨si, hsi, rfl, h⟩⟩
    · exact .inr ⟨si, hsi, rfl, h⟩

/-- An edge either moves on in one of the sequences or is an `*e*`/`*e*` edge. -/
theorem listed_iff : (∃ key, ⟨e.dest.s, e.id⟩ ∈ io e.src.s key ∧ Reads inLet e.src.i key.1 e.dest.i ∧
      Reads outLet e.src.o key.2 e.dest.o) ↔
    e ∈ epsilonEdges io e.src ∨ e ∈ symbolEdges inLet outLet io e.src := by
  rw [mem_epsilonEdges, mem_symbolEdges]
  constructor
  · rintro ⟨⟨si, so⟩, hdw, ⟨hsi, hi⟩ | ⟨hsi, hi⟩, ⟨hso, ho⟩ | ⟨hso, ho⟩⟩
    · simp only at hsi hso
      subst hsi hso
      exact .inl ⟨rfl, hdw, hi, ho⟩
    · simp only at hsi
      subst hsi
      exact .inr ⟨rfl, .inl ⟨so, hso, hdw, hi, ho⟩⟩
    · simp only at hso
      subst hso
      exact .inr ⟨rfl, .inr (.inr ⟨si, hsi, hdw, hi, ho⟩)⟩
    · exact .inr ⟨rfl, .inr (.inl ⟨so, hso, si, hsi, hdw, hi, ho⟩)⟩
  · rintro (⟨-, hdw, hi, ho⟩ | ⟨-, ⟨so, hso, hdw, hi, ho⟩ | ⟨so, hso, si, hsi, hdw, hi, ho⟩ |
      ⟨si, hsi, hdw, hi, ho⟩⟩)
    · exact ⟨_, hdw, .inl ⟨rfl, hi⟩, .inl ⟨rfl, ho⟩⟩
    · exact ⟨_, hdw, .inl ⟨rfl, hi⟩, .inr ⟨hso, ho⟩⟩
    · exact ⟨_, hdw, .inr ⟨hsi, hi⟩, .inr ⟨hso, ho⟩⟩
    · exact ⟨_, hdw, .inr ⟨hsi, hi⟩, .inl ⟨rfl, ho⟩⟩

theorem nodup_edgesOf (hio : ∀ s key, (io s key).Nodup) : (edgesOf io d key dI dO).Nodup := by
  refine (hio d.s key).map fun dw dw' h => ?_
  obtain ⟨dest, id⟩ := dw
  obtain ⟨dest', id'⟩ := dw'
  simpa [and_comm] using h

theorem nodup_symbolEdges (hio : ∀ s key, (io s key).Nodup) :
    (symbolEdges inLet outLet io d).Nodup := by
  have hne : ∀ {k k' : ℕ × ℕ} {a b a' b' : ℕ}, (a, b) ≠ (a', b') →
      (edgesOf io d k a b).Disjoint (edgesOf io d k' a' b') := by
    intro k k' a b a' b' hne e he he'
    obtain ⟨-, -, hi, ho⟩ := mem_edgesOf.mp he
    obtain ⟨-, -, hi', ho'⟩ := mem_edgesOf.mp he'
    exact hne (Prod.ext (by omega) (by omega))
  cases hso : outLet[d.o]? <;> cases hsi : inLet[d.i]? <;>
    simp [symbolEdges, hso, hsi, List.nodup_append', nodup_edgesOf hio, hne]

end Mem

/-- An index whose arcs stay among the states, with an order of its `*e*`/`*e*` arcs. -/
structure IndexOrder (nSt : ℕ) (io : ℕ → ℕ × ℕ → List DWPair) (eTopo : List ℕ)
    (succ : ℕ → List ℕ) : Prop where
  nodup : ∀ s key, (io s key).Nodup
  source_lt : ∀ {s key dw}, dw ∈ io s key → s < nSt
  dest_lt : ∀ {s key dw}, dw ∈ io s key → dw.dest < nSt
  topo : TopoList succ eTopo
  mem : ∀ {s dw}, dw ∈ io s (epsilonIndex, epsilonIndex) → s ∈ eTopo
  succ : ∀ {s dw}, dw ∈ io s (epsilonIndex, epsilonIndex) → dw.dest ∈ succ s

namespace IndexOrder

variable {nSt : ℕ} {inLet outLet eTopo : List ℕ} {io : ℕ → ℕ × ℕ → List DWPair}
variable {succ : ℕ → List ℕ} {e : MatrixEdge} {i o : ℕ}

theorem cell_of_mem (he : e ∈ cellEdges nSt inLet outLet io eTopo i o) :
    e.src.i = i ∧ e.src.o = o ∧ i ≤ e.dest.i ∧ o ≤ e.dest.o := by
  rcases List.mem_append.mp he with he | he
  · obtain ⟨s, -, he⟩ := List.mem_flatMap.mp he
    obtain ⟨hsrc, -, hi, ho⟩ := mem_epsilonEdges.mp he
    simp [hsrc, hi, ho]
  · obtain ⟨s, -, he⟩ := List.mem_flatMap.mp he
    obtain ⟨hsrc, ⟨_, -, -, hi, ho⟩ | ⟨_, -, _, -, -, hi, ho⟩ | ⟨_, -, -, hi, ho⟩⟩ :=
      mem_symbolEdges.mp he <;> simp [hsrc, hi, ho]

theorem mem_passEdges (h : IndexOrder nSt io eTopo succ) :
    e ∈ passEdges nSt inLet outLet io eTopo ↔ IsMatrixEdge nSt inLet outLet io e := by
  have hcell : e ∈ cellEdges nSt inLet outLet io eTopo e.src.i e.src.o ↔ e.src.s < nSt ∧
      (e ∈ epsilonEdges io e.src ∨ e ∈ symbolEdges inLet outLet io e.src) := by
    simp only [cellEdges, List.mem_append, List.mem_flatMap, List.mem_range]
    constructor
    · rintro (⟨s, -, he⟩ | ⟨s, hs, he⟩)
      · obtain ⟨hsrc, hdw, -⟩ := mem_epsilonEdges.mp he
        exact ⟨hsrc ▸ h.source_lt hdw, .inl (hsrc ▸ he)⟩
      · obtain ⟨hsrc, -⟩ := mem_symbolEdges.mp he
        exact ⟨hsrc ▸ hs, .inr (hsrc ▸ he)⟩
    · rintro ⟨hs, he | he⟩
      · exact .inl ⟨e.src.s, h.mem (mem_epsilonEdges.mp he).2.1, he⟩
      · exact .inr ⟨e.src.s, hs, he⟩
  have hpass : e ∈ passEdges nSt inLet outLet io eTopo ↔ e.src.i ≤ inLet.length ∧
      e.src.o ≤ outLet.length ∧ e ∈ cellEdges nSt inLet outLet io eTopo e.src.i e.src.o := by
    simp only [passEdges, List.mem_flatMap, List.mem_range, Nat.lt_succ_iff]
    constructor
    · rintro ⟨i, hi, o, ho, he⟩
      obtain ⟨rfl, rfl, -⟩ := cell_of_mem he
      exact ⟨hi, ho, he⟩
    · rintro ⟨hi, ho, he⟩
      exact ⟨_, hi, _, ho, he⟩
  rw [hpass, hcell, ← listed_iff]
  constructor
  · rintro ⟨hi, ho, hs, hlisted⟩
    exact ⟨⟨hi, hs, ho⟩, hlisted⟩
  · rintro ⟨⟨hi, hs, ho⟩, hlisted⟩
    exact ⟨hi, ho, hs, hlisted⟩

theorem nodup_cellEdges (h : IndexOrder nSt io eTopo succ) (i o : ℕ) :
    (cellEdges nSt inLet outLet io eTopo i o).Nodup := by
  have hsrc : ∀ {s s' : ℕ}, s ≠ s' → (⟨i, s, o⟩ : DerivState) ≠ ⟨i, s', o⟩ :=
    fun hne heq => hne (congrArg DerivState.s heq)
  refine List.nodup_append'.mpr ⟨?_, ?_, ?_⟩
  · refine List.nodup_flatMap.mpr ⟨fun s _ => nodup_edgesOf h.nodup, h.topo.nodup.imp ?_⟩
    intro s s' hne e he he'
    exact hsrc hne ((mem_epsilonEdges.mp he).1.symm.trans (mem_epsilonEdges.mp he').1)
  · refine List.nodup_flatMap.mpr ⟨fun s _ => nodup_symbolEdges h.nodup, List.nodup_range.imp ?_⟩
    intro s s' hne e he he'
    exact hsrc hne ((mem_symbolEdges.mp he).1.symm.trans (mem_symbolEdges.mp he').1)
  · intro e he he'
    obtain ⟨s, -, he⟩ := List.mem_flatMap.mp he
    obtain ⟨s', -, he'⟩ := List.mem_flatMap.mp he'
    obtain ⟨-, -, hi, ho⟩ := mem_epsilonEdges.mp he
    obtain ⟨-, ⟨_, -, -, hi', ho'⟩ | ⟨_, -, _, -, -, hi', ho'⟩ | ⟨_, -, -, hi', ho'⟩⟩ :=
      mem_symbolEdges.mp he' <;> simp only at * <;> omega

theorem nodup_passEdges (h : IndexOrder nSt io eTopo succ) :
    (passEdges nSt inLet outLet io eTopo).Nodup := by
  refine List.nodup_flatMap.mpr ⟨fun i _ => List.nodup_flatMap.mpr
    ⟨fun o _ => h.nodup_cellEdges i o, List.nodup_range.imp ?_⟩, List.nodup_range.imp ?_⟩
  · intro o o' hne e he he'
    exact hne ((cell_of_mem he).2.1.symm.trans (cell_of_mem he').2.1)
  · intro i i' hne e he he'
    obtain ⟨o, -, he⟩ := List.mem_flatMap.mp he
    obtain ⟨o', -, he'⟩ := List.mem_flatMap.mp he'
    exact hne ((cell_of_mem he).1.symm.trans (cell_of_mem he').1)

/-- Within a cell, the `*e*`/`*e*` edges are in topological order and the others leave it. -/
theorem relaxOrder_cellEdges (h : IndexOrder nSt io eTopo succ) (i o : ℕ) :
    RelaxOrder MatrixEdge.src MatrixEdge.dest (cellEdges nSt inLet outLet io eTopo i o) := by
  have hleave : ∀ {s : ℕ} {e : MatrixEdge}, e ∈ symbolEdges inLet outLet io ⟨i, s, o⟩ →
      ∀ s', e.dest ≠ ⟨i, s', o⟩ := by
    intro s e he s' heq
    obtain ⟨-, ⟨_, -, -, hi, ho⟩ | ⟨_, -, _, -, -, hi, ho⟩ | ⟨_, -, -, hi, ho⟩⟩ :=
      mem_symbolEdges.mp he <;> simp only [heq] at hi ho <;> omega
  refine relaxOrder_append ?_ ?_ ?_
  · refine RelaxOrder.of_map DerivState.s (h.topo.relaxOrder (fun s e he => ?_) fun s e he => ?_)
    · rw [(mem_epsilonEdges.mp he).1]
    · exact h.succ (mem_epsilonEdges.mp he).2.1
  · constructor
    · refine List.pairwise_of_forall_mem_list fun e he e' he' => ?_
      obtain ⟨s, -, he⟩ := List.mem_flatMap.mp he
      obtain ⟨s', -, he'⟩ := List.mem_flatMap.mp he'
      rw [(mem_symbolEdges.mp he).1]
      exact hleave he' s
    · intro e he
      obtain ⟨s, -, he⟩ := List.mem_flatMap.mp he
      rw [(mem_symbolEdges.mp he).1]
      exact hleave he s
  · intro e he e' he'
    obtain ⟨s, -, he⟩ := List.mem_flatMap.mp he
    obtain ⟨s', -, he'⟩ := List.mem_flatMap.mp he'
    rw [(mem_epsilonEdges.mp he).1]
    exact hleave he' s

theorem relaxOrder_passEdges (h : IndexOrder nSt io eTopo succ) :
    RelaxOrder MatrixEdge.src MatrixEdge.dest (passEdges nSt inLet outLet io eTopo) := by
  refine relaxOrder_flatMap (fun i _ => relaxOrder_flatMap (fun o _ => h.relaxOrder_cellEdges i o)
    (List.pairwise_lt_range.imp ?_)) (List.pairwise_lt_range.imp ?_)
  · intro o o' hlt e he e' he' heq
    obtain ⟨-, ho, -⟩ := cell_of_mem he
    obtain ⟨-, -, -, ho'⟩ := cell_of_mem he'
    rw [heq, ho] at ho'
    omega
  · intro i i' hlt e he e' he' heq
    obtain ⟨o, -, he⟩ := List.mem_flatMap.mp he
    obtain ⟨o', -, he'⟩ := List.mem_flatMap.mp he'
    obtain ⟨hi, -⟩ := cell_of_mem he
    obtain ⟨-, -, hi', -⟩ := cell_of_mem he'
    rw [heq, hi] at hi'
    omega

end IndexOrder

section Pass

variable {R : Type u} [CommSemiring R] {nSt : ℕ} {inLet outLet : List ℕ}
variable {io : ℕ → ℕ × ℕ → List DWPair} {wt : ℕ → R}

theorem matrixForwardProp_eq (d : DerivState) (key : ℕ × ℕ) (dI dO : ℕ) (m : DerivState → R) :
    matrixForwardProp wt (io d.s key) d dI dO m = (edgesOf io d key dI dO).foldl
        (relax MatrixEdge.src MatrixEdge.dest fun e => wt e.id) m := by
  rw [matrixForwardProp, edgesOf, List.foldl_map]
  rfl

theorem matrixSymbols_eq (d : DerivState) (w : DerivState → R) :
    matrixSymbols wt inLet outLet io d w = (symbolEdges inLet outLet io d).foldl
        (relax MatrixEdge.src MatrixEdge.dest fun e => wt e.id) w := by
  cases hso : outLet[d.o]? <;> cases hsi : inLet[d.i]? <;>
    simp [matrixSymbols, symbolEdges, hso, hsi, matrixForwardProp_eq]

variable [DecidableEq R]

theorem matrixCompute_eq (start : ℕ) (eTopo : List ℕ) :
    matrixCompute wt nSt inLet outLet start io eTopo = (passEdges nSt inLet outLet io eTopo).foldl
        (relax MatrixEdge.src MatrixEdge.dest fun e => wt e.id) (atVertex ⟨0, start, 0⟩) := by
  have hstart : (Function.update 0 ⟨0, start, 0⟩ 1 : DerivState → R) = atVertex ⟨0, start, 0⟩ := by
    funext d
    by_cases h : d = ⟨0, start, 0⟩ <;> simp [atVertex, h]
  -- entries that are zero may be skipped
  have hskip : ∀ (d : DerivState) (w : DerivState → R),
      (if w d = 0 then w else matrixSymbols wt inLet outLet io d w) =
        (symbolEdges inLet outLet io d).foldl
          (relax MatrixEdge.src MatrixEdge.dest fun e => wt e.id) w := by
    intro d w
    split
    case isFalse => exact matrixSymbols_eq d w
    case isTrue h =>
      refine (foldl_relax_of_eq_zero fun e he => ?_).symm
      rw [(mem_symbolEdges.mp he).1, h]
  rw [matrixCompute, hstart, passEdges, List.foldl_flatMap]
  refine List.foldl_ext _ _ _ fun w i _ => ?_
  rw [List.foldl_flatMap]
  refine List.foldl_ext _ _ _ fun w o _ => ?_
  simp only [cellEdges, List.foldl_append, List.foldl_flatMap, hskip]
  congr 1
  refine List.foldl_ext _ _ _ fun w s _ => ?_
  exact matrixForwardProp_eq ⟨i, s, o⟩ _ 0 0 w

variable (inLet outLet wt) in
/-- **A table solves the forward equations.** -/
theorem IndexOrder.solvesForward {eTopo : List ℕ} {succ : ℕ → List ℕ}
    (h : IndexOrder nSt io eTopo succ) (start : ℕ) (S : Finset DerivState) :
    SolvesForward MatrixEdge.src MatrixEdge.dest (fun e => wt e.id)
      (passEdges nSt inLet outLet io eTopo).toFinset S (atVertex ⟨0, start, 0⟩)
      (matrixCompute wt nSt inLet outLet start io eTopo) := by
  rw [matrixCompute_eq]
  exact solvesForward_foldl_relax h.relaxOrder_passEdges h.nodup_passEdges S _

end Pass

end Carmel
