/-
# The state of a Gibbs sampler

The sampler keeps a count for each parameter and the sum of each normalization group; locked
parameters belong to none. The cache model counts on its own how often each parameter was
used so far. The state also lists what the program does not keep: what there was when a
block was about to be resampled, and the sample at the end of each iteration.
-/

import Carmel.Gibbs.ValueOverTime
import Carmel.Math.Lists

namespace Carmel

open Math

universe u

/-- `gibbs_opts`. -/
structure GibbsOpts (F : Type u) where
  iter : ℕ
  burnin : ℕ
  restarts : ℕ
  excludePrior : Bool
  finalCounts : Bool
  includeSelf : Bool
  expectation : Bool
  randomStart : Bool
  cacheProb : Bool
  noProb : Bool
  argmaxFinal : Bool
  argmaxSum : Bool
  priorInferenceStddev : F
  priorInferenceRestartFresh : Bool
  priorInferenceStart : ℕ
  priorInferenceEnd : ℕ

namespace GibbsOpts

variable {F : Type u} [Field F] [LinearOrder F]

/-- `validate`. -/
def validate (o : GibbsOpts F) : GibbsOpts F :=
  let burnin := if o.finalCounts then o.iter else o.burnin
  { o with
    burnin := if burnin > o.iter then o.iter else burnin
    cacheProb := (if o.noProb then false else o.cacheProb) || decide (0 < o.restarts) }

/-- `use_cache_prob`. -/
def useCacheProb (o : GibbsOpts F) : Bool :=
  !o.expectation && (o.cacheProb || decide (0 < o.priorInferenceStddev))

/-- `inferring`, in iteration `iter`. -/
def inferring (o : GibbsOpts F) (iter : ℕ) : Bool :=
  let start := if o.priorInferenceStart ≠ 0 then o.priorInferenceStart else o.burnin
  decide (0 < o.priorInferenceStddev) && decide (start ≤ iter) &&
    (decide (o.priorInferenceEnd = 0) || decide (iter < o.priorInferenceEnd))

/-- `final_t`. -/
def finalT (o : GibbsOpts F) : F := ((o.iter - o.burnin : ℕ) : F)

omit [Field F] [LinearOrder F] in
theorem validate_burnin_le (o : GibbsOpts F) : o.validate.burnin ≤ o.validate.iter := by
  simp only [validate]
  split_ifs with h h' <;> omega

end GibbsOpts

/-- `gibbs_stats`. -/
structure GibbsStats (F : Type u) where
  sumprob : F
  allprob : F
  finalprob : F

namespace GibbsStats

variable {F : Type u} [Field F] [LinearOrder F]

def clear : GibbsStats F := ⟨0, 1, 1⟩

def record (t p : F) (s : GibbsStats F) : GibbsStats F :=
  if t ≥ 0 then ⟨s.sumprob + p, s.allprob * p, p⟩ else s

/-- What restarts are compared by. -/
def statistic (o : GibbsOpts F) (s : GibbsStats F) : F :=
  if o.argmaxFinal then s.finalprob else if o.argmaxSum then s.sumprob else s.allprob

/-- `better`. -/
def better (o : GibbsOpts F) (s best : GibbsStats F) : Bool :=
  if o.argmaxFinal then decide (s.finalprob > best.finalprob)
  else if o.argmaxSum then decide (s.sumprob > best.sumprob)
  else decide (s.allprob > best.allprob)

omit [Field F] in
theorem better_iff {o : GibbsOpts F} {s best : GibbsStats F} :
    s.better o best = true ↔ best.statistic o < s.statistic o := by
  unfold better statistic
  split_ifs <;> exact decide_eq_true_iff

end GibbsStats

/-- The sums of the normalization groups. -/
abbrev Normsum (F : Type u) (nnorm : ℕ) := Fin nnorm → F

/-- `gibbs_param`. -/
structure GibbsParam (F : Type u) (nnorm : ℕ) where
  /-- What the count starts from; the probability of a locked parameter. -/
  prior : F
  /-- The normalization group, if the parameter is not locked. -/
  norm : Option (Fin nnorm)
  sumcount : DeltaSum F

namespace GibbsParam

variable {F : Type u} [Field F] [LinearOrder F] {nnorm m : ℕ}

def count (p : GibbsParam F nnorm) : F := p.sumcount.x

/-- `restore_p0`. -/
def restoreP0 (p : GibbsParam F nnorm) (ns : Normsum F nnorm) : GibbsParam F nnorm × Normsum F nnorm :=
  match p.norm with
  | none => (p, ns)
  | some g => ({ p with sumcount := .clear p.prior }, Function.update ns g (ns g + p.prior))

/-- `add_norm`. -/
def addNorm (p : GibbsParam F nnorm) (ns : Normsum F nnorm) : Normsum F nnorm :=
  match p.norm with
  | none => ns
  | some g => Function.update ns g (ns g + p.count)

/-- `addc`. -/
def addc (d t : F) (p : GibbsParam F nnorm) (ns : Normsum F nnorm) :
    GibbsParam F nnorm × Normsum F nnorm :=
  match p.norm with
  | none => (p, ns)
  | some g => ({ p with sumcount := p.sumcount.addDelta d t }, Function.update ns g (ns g + d))

/-- `scale_prior`. Group 0 of the scales is never scaled. -/
def scalePrior (normi : Fin nnorm → Fin (m + 1)) (scale : Fin (m + 1) → F) (invert : Bool)
    (p : GibbsParam F nnorm) (ns : Normsum F nnorm) : GibbsParam F nnorm × Normsum F nnorm :=
  match p.norm with
  | none => (p, ns)
  | some g =>
    if 0 < normi g then
      let f := if invert then 1 / scale (normi g) else scale (normi g)
      let s := f * p.prior
      let d := s - p.prior
      ({ p with sumcount := p.sumcount.addbase d, prior := s }, Function.update ns g (ns g + d))
    else (p, ns)

/-- `exclude_prior`. -/
def excludePrior (p : GibbsParam F nnorm) : GibbsParam F nnorm :=
  match p.norm with
  | none => p
  | some _ => { p with sumcount := p.sumcount.addbase (-p.prior) }

/-- `final_counts`. -/
def finalCounts (tmax1 : F) (p : GibbsParam F nnorm) : Option (GibbsParam F nnorm) :=
  match p.norm with
  | none => some p
  | some _ => (p.sumcount.extend tmax1).map fun D => { p with sumcount := { D with x := D.s } }

/-- `restore_count`. -/
def restoreCount (saved : F) (p : GibbsParam F nnorm) : GibbsParam F nnorm :=
  { p with sumcount := { p.sumcount with x := saved } }

/-- `proposal_prob`. -/
def proposalProb (p : GibbsParam F nnorm) (ns : Normsum F nnorm) : F :=
  match p.norm with
  | none => p.prior
  | some g => p.count / ns g

end GibbsParam

/-- `metanorm`: which groups are scaled by the same factor, and by what they were scaled so far. -/
structure Metanorm (F : Type u) (nnorm m : ℕ) where
  group : Fin nnorm → Fin (m + 1)
  cumulative : Fin m → F

/-- `block_delta`: the parameters that a block uses, with weights in an expectation. -/
structure BlockDelta (F : Type u) (n : ℕ) where
  prob : F
  id : List (Fin n)
  wt : List F

namespace BlockDelta

variable {F : Type u} [Field F] {n : ℕ}

/-- `clear`. -/
def clear (b : BlockDelta F n) : BlockDelta F n := { b with id := [], wt := [] }

/-- `force_weights`. -/
def forceWeights (b : BlockDelta F n) : BlockDelta F n :=
  if b.wt.length = b.id.length then b else { b with wt := List.replicate b.id.length 1 }

/-- `randomize`, given the numbers drawn. -/
def randomize (random01 : ℕ → F) (b : BlockDelta F n) : BlockDelta F n :=
  let b := b.forceWeights
  { b with wt := b.wt.mapIdx fun k w => w * random01 k }

/-- The uses of parameters, each with its weight: in an expectation the one beside it, else 1. -/
def uses (expectation : Bool) (b : BlockDelta F n) : List (Fin n × F) :=
  if expectation then b.id.zip b.wt else b.id.map (·, 1)

/-- The weighted number of uses of a parameter. -/
def occurrences (expectation : Bool) (b : BlockDelta F n) (i : Fin n) : F :=
  ((b.uses expectation).map fun u => if u.1 = i then u.2 else 0).sum

end BlockDelta

/-- The blocks and the parameters each uses. -/
abbrev Sample (F : Type u) (n nb : ℕ) := Fin nb → BlockDelta F n

/-! ## The cache model -/

/-- `ccount` and `csum`, or `pcount` and `psum`. -/
structure CacheArrays (F : Type u) (n nnorm : ℕ) where
  count : Fin n → F
  sum : Normsum F nnorm

namespace CacheArrays

variable {F : Type u} [Field F] {n nnorm : ℕ} (gps : Fin n → GibbsParam F nnorm)

/-- `init_cache` of a parameter. -/
def initCache (i : Fin n) (count : F) (sum : Normsum F nnorm) : F × Normsum F nnorm :=
  match (gps i).norm with
  | none => (count, sum)
  | some g => ((gps i).prior, Function.update sum g (sum g + (gps i).prior))

/-- The loops of `recompute_cache_priors`. -/
def recompute (p : CacheArrays F n nnorm) : CacheArrays F n nnorm :=
  let r := scatterAll (initCache gps) (p.count, fun _ => 0)
  ⟨r.1, r.2⟩

/-- `cache_prob` of a parameter. -/
def cacheProb (c : CacheArrays F n nnorm) (i : Fin n) : F × CacheArrays F n nnorm :=
  match (gps i).norm with
  | none => ((gps i).prior, c)
  | some g =>
    (c.count i / c.sum g,
      ⟨Function.update c.count i (c.count i + 1), Function.update c.sum g (c.sum g + 1)⟩)

/-- `cache_prob` of the parameters of a block. -/
def cacheProbIds (c : CacheArrays F n nnorm) (ids : List (Fin n)) : F × CacheArrays F n nnorm :=
  ids.foldl (fun r i =>
    let q := r.2.cacheProb gps i
    (r.1 * q.1, q.2)) (1, c)

/-- `cache_prob` of a block. -/
def cacheProbBlock (expectation : Bool) (c : CacheArrays F n nnorm) (b : BlockDelta F n) :
    F × CacheArrays F n nnorm :=
  if expectation then (b.prob, c) else c.cacheProbIds gps b.id

/-- The loop of `cache_prob` over the blocks. -/
def cacheProbBlocks (expectation : Bool) (c : CacheArrays F n nnorm) (bs : List (BlockDelta F n)) :
    F × CacheArrays F n nnorm :=
  bs.foldl (fun r b =>
    let q := r.2.cacheProbBlock gps expectation b
    (r.1 * q.1, q.2)) (1, c)

end CacheArrays

/-! ## The sampler -/

/-- What there is when `resample_block` is called. -/
structure ResampleCall (F : Type u) (n nnorm nb : ℕ) where
  gps : Fin n → GibbsParam F nnorm
  normsum : Normsum F nnorm
  sample : Sample F n nb
  /-- The block to be resampled. -/
  block : Fin nb
  /-- Its sample until now. -/
  own : BlockDelta F n

/-- `gibbs_base`. -/
structure GibbsBase (F : Type u) (n nnorm nb m : ℕ) where
  gps : Fin n → GibbsParam F nnorm
  normsum : Normsum F nnorm
  sample : Sample F n nb
  priorScale : Metanorm F nnorm m
  /-- `ccount` and `csum`. -/
  cache : CacheArrays F n nnorm
  /-- `pcount` and `psum`. -/
  cachePriors : CacheArrays F n nnorm
  scales : Fin (m + 1) → F
  iter : ℕ
  time : F
  stats : GibbsStats F
  calls : List (ResampleCall F n nnorm nb)
  samples : List (Sample F n nb)

namespace GibbsBase

variable {F : Type u} [Field F] [LinearOrder F] {n nnorm nb m : ℕ}

/-- `restore_p0`. -/
def restoreP0 (s : GibbsBase F n nnorm nb m) : GibbsBase F n nnorm nb m :=
  let r := scatterAll (fun _ p ns => p.restoreP0 ns) (s.gps, fun _ => 0)
  { s with gps := r.1, normsum := r.2 }

/-- `compute_norms`. -/
def computeNorms (s : GibbsBase F n nnorm nb m) : GibbsBase F n nnorm nb m :=
  { s with normsum := (List.finRange n).foldl (fun ns i => (s.gps i).addNorm ns) fun _ => 0 }

/-- `recompute_cache_priors`. -/
def recomputeCachePriors (o : GibbsOpts F) (s : GibbsBase F n nnorm nb m) : GibbsBase F n nnorm nb m :=
  if o.useCacheProb then { s with cachePriors := s.cachePriors.recompute s.gps } else s

/-- `reset_cache`. -/
def resetCache (o : GibbsOpts F) (s : GibbsBase F n nnorm nb m) : GibbsBase F n nnorm nb m :=
  if o.useCacheProb then { s with cache := s.cachePriors } else s

/-- `init_cache`. -/
def initCache (o : GibbsOpts F) (s : GibbsBase F n nnorm nb m) : GibbsBase F n nnorm nb m :=
  if o.useCacheProb then
    let zeros : CacheArrays F n nnorm := ⟨fun _ => 0, fun _ => 0⟩
    (({ s with cache := zeros, cachePriors := zeros }).recomputeCachePriors o).resetCache o
  else s

/-- `cache_prob` of the sample. -/
def cacheProb (o : GibbsOpts F) (recompute : Bool) (s : GibbsBase F n nnorm nb m) :
    F × GibbsBase F n nnorm nb m :=
  let s := if recompute then s.recomputeCachePriors o else s
  let s := s.resetCache o
  let r := s.cache.cacheProbBlocks s.gps o.expectation (List.ofFn s.sample)
  (r.1, { s with cache := r.2 })

/-- `proposal_prob` of the parameters of a block. -/
def proposalProb (s : GibbsBase F n nnorm nb m) (ids : List (Fin n)) : F :=
  (ids.map fun i => (s.gps i).proposalProb s.normsum).prod

/-- `prob` of the parameters of a block. -/
def prob (o : GibbsOpts F) (s : GibbsBase F n nnorm nb m) (ids : List (Fin n)) :
    F × GibbsBase F n nnorm nb m :=
  if o.cacheProb then
    let r := s.cache.cacheProbIds s.gps ids
    (r.1, { s with cache := r.2 })
  else (s.proposalProb ids, s)

/-- `addc` of a parameter. -/
def addcParam (i : Fin n) (d : F) (s : GibbsBase F n nnorm nb m) : GibbsBase F n nnorm nb m :=
  let r := (s.gps i).addc d s.time s.normsum
  { s with gps := Function.update s.gps i r.1, normsum := r.2 }

/-- `addc` of a block. -/
def addc (o : GibbsOpts F) (b : BlockDelta F n) (scale : F) (s : GibbsBase F n nnorm nb m) :
    GibbsBase F n nnorm nb m :=
  (b.uses o.expectation).foldl (fun s u => s.addcParam u.1 (u.2 * scale)) s

def setBlock (b : Fin nb) (bd : BlockDelta F n) (s : GibbsBase F n nnorm nb m) :
    GibbsBase F n nnorm nb m :=
  { s with sample := Function.update s.sample b bd }

/-- `clear_blocks`. -/
def clearBlocks (s : GibbsBase F n nnorm nb m) : GibbsBase F n nnorm nb m :=
  { s with sample := fun b => (s.sample b).clear }

end GibbsBase

end Carmel
