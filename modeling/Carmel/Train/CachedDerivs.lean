/-
# Deriving every example of a corpus

`cached_derivs` either builds the derivation lattices of the examples each time or takes
them from a cache that is filled once. On both ways examples without derivations are left
out and the statistics of the corpus are taken again, and not alike.
-/

import Carmel.Derivations.Paths
import Carmel.Train.Corpus

namespace Carmel

universe u v

/-- A lattice and the weight of the example it belongs to. -/
structure WeightedDerivations (F : Type u) where
  lattice : Derivations
  weight : F
deriving DecidableEq, Repr

/-- `init_and_compute`: the lattice, or nothing where `compute` returns false. -/
def initAndCompute {W : Type v} {F : Type u} (x : WFST W) (prune : Bool) (ex : IOSymSeq F) :
    Option (WeightedDerivations F) :=
  match compute x ex.i ex.o prune with
  | some D => if D.noGoal then none else some ⟨D, ex.weight⟩
  | none => none

/-- The state of `cached_derivs`; `first` holds until the first `foreach_deriv` is over. -/
structure CachedDerivs (F : Type u) where
  derivs : List (WeightedDerivations F)
  corpus : TrainingCorpus F
  cached : Bool
  first : Bool

namespace CachedDerivs

section Model

variable {W : Type v} {F : Type u} [Semiring F] {σ : Type*} (x : WFST W) (prune : Bool)

/-- The body of the loop of `cache_derivations`. -/
def cacheStep (cd : CachedDerivs F) (ex : IOSymSeq F) : CachedDerivs F :=
  let cd := { cd with corpus := cd.corpus.clearCounts }
  match initAndCompute x prune ex with
  | none => cd
  | some d => { cd with derivs := cd.derivs ++ [d], corpus := cd.corpus.count ex }

def cacheDerivations (cd : CachedDerivs F) : CachedDerivs F :=
  cd.corpus.examples.foldl (cacheStep x prune) { cd with cached := true, derivs := [] }

/-- The constructor. `cache` is false for the levels that cache nothing. -/
def make (cache : Bool) (corpus : TrainingCorpus F) : CachedDerivs F :=
  if cache then
    { cacheDerivations x prune ⟨[], corpus, true, true⟩ with first := true }
  else
    ⟨[], corpus, false, true⟩

/-- The loop of `foreach_deriv` without a cache: the examples that stay, and what
`f` was applied to. `n` counts the examples passed. -/
def foreachExample (first : Bool) (f : ℕ → WeightedDerivations F → σ → σ) :
    ℕ → List (IOSymSeq F) → σ → List (IOSymSeq F) × σ
  | _, [], s => ([], s)
  | n, ex :: rest, s =>
    match initAndCompute x prune ex with
    | some d =>
      let (kept, s) := foreachExample first f (n + 1) rest (f (n + 1) d s)
      (ex :: kept, s)
    | none =>
      let (kept, s) := foreachExample first f (n + 1) rest s
      (if first && prune then kept else ex :: kept, s)

def foreachDeriv (cd : CachedDerivs F) (f : ℕ → WeightedDerivations F → σ → σ) (s : σ) :
    CachedDerivs F × σ :=
  if cd.cached then
    ({ cd with first := false }, cd.derivs.zipIdx.foldl (fun s (d, n) => f (n + 1) d s) s)
  else
    let (kept, s) := foreachExample x prune cd.first f 0 cd.corpus.examples s
    let corpus := { cd.corpus with examples := kept }
    ({ cd with corpus := if cd.first then corpus.countAll else corpus, first := false }, s)

end Model

end CachedDerivs

section Statistics

variable {W : Type v} {F : Type u} {x : WFST W} {prune : Bool} {ex : IOSymSeq F}

/-- The example has a derivation. -/
def hasDerivation (x : WFST W) (ex : IOSymSeq F) : Bool := (initAndCompute x true ex).isSome

theorem initAndCompute_isSome_iff :
    (initAndCompute x prune ex).isSome = true ↔ CanFinish x ex.i ex.o .start := by
  obtain ⟨D, hD, hfound, -⟩ := compute_spec x ex.i ex.o prune
  rw [← hfound, initAndCompute, hD]
  cases hgoal : D.noGoal <;> simp [hgoal]

theorem initAndCompute_isSome (prune : Bool) :
    (initAndCompute x prune ex).isSome = hasDerivation x ex := by
  rw [Bool.eq_iff_iff, hasDerivation, initAndCompute_isSome_iff, initAndCompute_isSome_iff]

theorem initAndCompute_eq_none_iff :
    initAndCompute x prune ex = none ↔ hasDerivation x ex = false := by
  rw [← initAndCompute_isSome prune, Option.isSome_eq_false_iff, Option.isNone_iff_eq_none]

theorem hasDerivation_of_eq_some {d : WeightedDerivations F}
    (h : initAndCompute x prune ex = some d) : hasDerivation x ex = true := by
  rw [← initAndCompute_isSome prune, h, Option.isSome_some]

namespace CachedDerivs

variable [Semiring F] {cd : CachedDerivs F}

theorem countsOf_foldl_cacheStep (exs : List (IOSymSeq F)) (ex : IOSymSeq F) :
    ((exs ++ [ex]).foldl (cacheStep x prune) cd).corpus.CountsOf
      ([ex].filter (hasDerivation x)) := by
  rw [List.foldl_append, List.foldl_cons, List.foldl_nil, cacheStep]
  cases hd : initAndCompute x prune ex with
  | none =>
    rw [List.filter_cons_of_neg (by simp [initAndCompute_eq_none_iff.mp hd])]
    exact TrainingCorpus.countsOf_clearCounts
  | some d =>
    rw [List.filter_cons_of_pos (hasDerivation_of_eq_some hd)]
    exact TrainingCorpus.countsOf_clearCounts.count

omit [Semiring F] in
theorem fst_foreachExample {σ : Type*} (first : Bool) (f : ℕ → WeightedDerivations F → σ → σ)
    (n : ℕ) (exs : List (IOSymSeq F)) (s : σ) :
    (foreachExample x prune first f n exs s).1 =
      exs.filter fun ex => hasDerivation x ex || !(first && prune) := by
  induction exs generalizing n s with
  | nil => rfl
  | cons ex exs ih =>
    rw [foreachExample]
    cases hd : initAndCompute x prune ex with
    | none =>
      have hnone := initAndCompute_eq_none_iff.mp hd
      cases hfp : first && prune <;> simp [ih, hnone, hfp]
    | some d => simp [ih, hasDerivation_of_eq_some hd]

/-- **The statistics after filling the cache** are those of the examples with
derivations only where no example before the last one has any. -/
theorem countsOf_make_cached_iff (exs : List (IOSymSeq F)) :
    (make x prune true (.read exs)).corpus.CountsOf (exs.filter (hasDerivation x)) ↔
      ∀ ex ∈ exs.dropLast, hasDerivation x ex = false := by
  have hmake : (make x prune true (.read exs)).corpus =
      (exs.foldl (cacheStep x prune) ⟨[], .read exs, true, true⟩).corpus := by
    simp [make, cacheDerivations, TrainingCorpus.examples_read]
  rw [hmake]
  induction exs using List.reverseRecOn with
  | nil => simpa using TrainingCorpus.countsOf_read (F := F) []
  | append_singleton exs ex _ =>
    rw [List.dropLast_concat]
    have hlast : ((exs ++ [ex]).foldl (cacheStep x prune)
        ⟨[], .read (exs ++ [ex]), true, true⟩).corpus.CountsOf ([ex].filter (hasDerivation x)) :=
      countsOf_foldl_cacheStep exs ex
    rw [List.filter_append]
    constructor
    · intro h ex' hex'
      have hlen := h.nPairs.symm.trans hlast.nPairs
      rw [List.length_append] at hlen
      have hnil : exs.filter (hasDerivation x) = [] := List.length_eq_zero_iff.mp (by omega)
      simpa using List.filter_eq_nil_iff.mp hnil ex' hex'
    · intro h
      have hnil : exs.filter (hasDerivation x) = [] :=
        List.filter_eq_nil_iff.mpr fun ex' hex' => by simp [h ex' hex']
      rwa [hnil, List.nil_append]

/-- Without a cache, the statistics after the first `foreach_deriv` are those of
the examples with derivations if the others were erased or there are none. -/
theorem countsOf_foreachDeriv_iff {σ : Type*} (exs : List (IOSymSeq F))
    (f : ℕ → WeightedDerivations F → σ → σ) (s : σ) :
    ((make x prune false (.read exs)).foreachDeriv x prune f s).1.corpus.CountsOf
        (exs.filter (hasDerivation x)) ↔
      prune = true ∨ ∀ ex ∈ exs, hasDerivation x ex = true := by
  have hcorpus : ((make x prune false (.read exs)).foreachDeriv x prune f s).1.corpus.CountsOf
      (exs.filter fun ex => hasDerivation x ex || !(true && prune)) := by
    simp only [make, foreachDeriv, Bool.false_eq_true, if_false, if_true,
      TrainingCorpus.examples_read]
    rw [← fst_foreachExample true f 0 exs s]
    exact TrainingCorpus.countsOf_countAll
  cases prune with
  | true => simpa using hcorpus
  | false =>
    have hall : exs.filter (fun ex => hasDerivation x ex || !(true && false)) =
        exs.filter fun _ => true := by simp
    rw [hall] at hcorpus
    constructor
    · intro h
      exact .inr fun ex hex => h.filter_le hcorpus (fun _ _ _ => rfl) ex hex rfl
    · rintro (h | h)
      · cases h
      · rwa [List.filter_congr (q := fun _ => true) h]

/-- **When the statistics are those of the examples with derivations.** On both
ways they are exactly when no example before the last has a derivation, and
examples without derivations are erased or absent. -/
theorem statistics_iff {σ : Type*} (x : WFST W) (prune : Bool) (exs : List (IOSymSeq F))
    (f : ℕ → WeightedDerivations F → σ → σ) (s : σ) :
    (make x prune true (.read exs)).corpus.CountsOf (exs.filter (hasDerivation x)) ∧
        ((make x prune false (.read exs)).foreachDeriv x prune f s).1.corpus.CountsOf
          (exs.filter (hasDerivation x)) ↔
      (∀ ex ∈ exs.dropLast, hasDerivation x ex = false) ∧
        (prune = true ∨ ∀ ex ∈ exs, hasDerivation x ex = true) :=
  and_congr (countsOf_make_cached_iff exs) (countsOf_foreachDeriv_iff exs f s)

/-- Reads and writes one `a`. -/
def pairA : IOSymSeq ℚ := ⟨[2], [2], 1⟩

/-- Two copies of a pair that has a derivation: the cache holds both lattices,
the statistics count one pair. -/
theorem not_countsOf_two_pairs :
    ¬ (make loopBeside true true (.read [pairA, pairA])).corpus.CountsOf
      ([pairA, pairA].filter (hasDerivation loopBeside)) := by
  intro h
  have hcounted : (make loopBeside true true (.read [pairA, pairA])).corpus.nPairs = 1 := by decide
  have hderivable : [pairA, pairA].filter (hasDerivation loopBeside) = [pairA, pairA] := by decide
  have hpairs := h.nPairs
  rw [hcounted, hderivable] at hpairs
  exact absurd hpairs (by decide)

end CachedDerivs

end Statistics

end Carmel
