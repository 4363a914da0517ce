/-
# Generating input and output pairs

`generate` walks from the start: at each state it picks one of the input symbols that
the index of the state has, all alike, and then an arc among those that read the symbol,
by weight. The symbols of the arcs go to two buffers, `*e*` does not. An attempt is given
up when a symbol does not fit into its buffer. Arcs that write nothing to the buffers are
not limited, and at a state without arcs that is not final nothing is picked at all.
-/

import Carmel.Compose.Moves
import Carmel.Fst.RandomPath

namespace Carmel

open Carmel.Math

universe u

variable {F : Type u} [Field F] [LinearOrder F] [IsStrictOrderedRing F] [FloorSemiring F]

/-- The variables of the loop. How much of a buffer is written is `i` and `o` in the source. -/
structure GenerateState where
  inSeq : List ℕ
  outSeq : List ℕ
  nArcs : ℕ
  s : ℕ

def GenerateState.start : GenerateState := ⟨[], [], 0, 0⟩

/-- The two random numbers of a pass. -/
abbrev TwoFractions (F : Type u) [Field F] [LinearOrder F] [IsStrictOrderedRing F] : Type u :=
  Fraction F × Fraction F

/-- The test for the end. -/
def WFST.stops (x : WFST (Weight F)) (minArcs s nArcs : ℕ) : Bool :=
  x.final = some s ∧ ((x.state s).arcs.isEmpty = true ∨ minArcs ≤ nArcs)

/-- The list of arcs at `whichInput` in the index. -/
def WFST.whichList (x : WFST (Weight F)) (order : HashOrder (ℕ × List (HalfArc (Weight F)))) (s : ℕ)
    (r : Fraction F) : Option (List (HalfArc (Weight F))) :=
  let index := indexBy .kInput (x.outArcs s)
  (order.iter index)[⌊(index.length : F) * r⌋₊]?.map Prod.snd

/-- Write a symbol to a buffer. -/
def putSymbol (maxArcs symbol : ℕ) (seq : List ℕ) : Option (List ℕ) :=
  if symbol = epsilonIndex then some seq
  else if maxArcs ≤ seq.length then none
  else some (seq ++ [symbol])

/-- One pass of the loop of `generate`. The result is what the buffers hold, if it is not zero. -/
def generateStep (x : WFST (Weight F)) (order : HashOrder (ℕ × List (HalfArc (Weight F))))
    (minArcs : ℕ) (bufLen : Fin (2 ^ 32)) (st : GenerateState) (r : TwoFractions F) :
    Pass GenerateState (Option (List ℕ × List ℕ)) :=
  let maxArcs := (bufLen - 1).val
  if x.stops minArcs st.s st.nArcs = true then .done (some (st.inSeq, st.outSeq))
  else
    match x.whichList order st.s r.1 with
    | none => .again st
    | some arcs =>
      match chooseArc (·.arc.weight) arcs r.2 with
      | none => .done none
      | some h =>
        match putSymbol maxArcs h.arc.inp st.inSeq with
        | none => .done none
        | some inSeq =>
          match putSymbol maxArcs h.arc.out st.outSeq with
          | none => .done none
          | some outSeq => .again ⟨inSeq, outSeq, increment st.nArcs, h.arc.dest⟩

variable {x : WFST (Weight F)} {order : HashOrder (ℕ × List (HalfArc (Weight F)))} {minArcs s : ℕ}
  {bufLen : Fin (2 ^ 32)} {c : ℕ → TwoFractions F} {p : List (HalfArc (Weight F))}
  {h : HalfArc (Weight F)} {r : TwoFractions F}

/-! ## The arcs that can be picked -/

/-- A pass picks an arc. -/
def WFST.Picks (x : WFST (Weight F)) (order : HashOrder (ℕ × List (HalfArc (Weight F)))) (s : ℕ)
    (r : TwoFractions F) (h : HalfArc (Weight F)) : Prop :=
  ∃ arcs, x.whichList order s r.1 = some arcs ∧ chooseArc (·.arc.weight) arcs r.2 = some h

/-- An arc that can be picked at its state: it has some weight, or is the last arc of the state
that reads its symbol. -/
def WFST.Eligible (x : WFST (Weight F)) (s : ℕ) (h : HalfArc (Weight F)) : Prop :=
  ((x.outArcs s).filter (·.arc.inp = h.arc.inp)).getLast? = some h ∨
    (h ∈ x.outArcs s ∧ h.arc.weight ≠ 0)

omit [FloorSemiring F] [IsStrictOrderedRing F] in
theorem mem_indexBy_iff_filter {i : ℕ} {arcs : List (HalfArc (Weight F))} :
    (i, arcs) ∈ indexBy .kInput (x.outArcs s) ↔
      arcs = ((x.outArcs s).filter (·.arc.inp = i)).reverse ∧ arcs ≠ [] := by
  have hsymbol : ((x.outArcs s).filter fun h => h.arc.symbol .kInput = i) =
      (x.outArcs s).filter (·.arc.inp = i) := rfl
  rw [mem_indexBy_iff, lookup_indexBy, hsymbol]
  by_cases hnil : (x.outArcs s).filter (·.arc.inp = i) = []
  · simp [hnil]
  · rw [if_neg hnil, Option.some.injEq]
    constructor
    · rintro rfl
      exact ⟨rfl, by simpa using hnil⟩
    · rintro ⟨rfl, -⟩
      rfl

theorem exists_of_whichList {arcs : List (HalfArc (Weight F))} {r : Fraction F}
    (hlist : x.whichList order s r = some arcs) : ∃ i, (i, arcs) ∈ indexBy .kInput (x.outArcs s) := by
  obtain ⟨entry, hentry, rfl⟩ := Option.map_eq_some_iff.mp hlist
  exact ⟨entry.1, (order.perm _).mem_iff.mp (List.mem_of_getElem? hentry)⟩

theorem exists_floor_eq {i n : ℕ} (hlt : i < n) : ∃ r : Fraction F, ⌊(n : F) * r⌋₊ = i := by
  have hn : (0 : F) < n := Nat.cast_pos.mpr (Nat.zero_lt_of_lt hlt)
  refine ⟨⟨⟨(i : F) / n, div_nonneg (Nat.cast_nonneg i) hn.le⟩, ?_⟩, ?_⟩
  · exact Subtype.coe_lt_coe.mp ((div_lt_one hn).mpr (Nat.cast_lt.mpr hlt))
  · show ⌊(n : F) * ((i : F) / n)⌋₊ = i
    rw [mul_div_cancel₀ _ hn.ne', Nat.floor_natCast]

variable (order) in
theorem exists_whichList {i : ℕ} {arcs : List (HalfArc (Weight F))}
    (hmem : (i, arcs) ∈ indexBy .kInput (x.outArcs s)) :
    ∃ r : Fraction F, x.whichList order s r = some arcs := by
  obtain ⟨k, hk, hentry⟩ := List.mem_iff_getElem.mp ((order.perm _).mem_iff.mpr hmem)
  obtain ⟨r, hr⟩ := exists_floor_eq (F := F) ((order.perm _).length_eq ▸ hk)
  refine ⟨r, ?_⟩
  simp only [WFST.whichList, hr, List.getElem?_eq_getElem hk, hentry, Option.map_some]

variable (order) in
/-- **The arcs that can be picked.** -/
theorem exists_picks_iff : (∃ r, x.Picks order s r h) ↔ x.Eligible s h := by
  constructor
  · rintro ⟨r, arcs, hlist, hchoose⟩
    obtain ⟨i, hmem⟩ := exists_of_whichList hlist
    obtain ⟨rfl, -⟩ := mem_indexBy_iff_filter.mp hmem
    have hin := List.mem_filter.mp (List.mem_reverse.mp (mem_of_chooseArc hchoose))
    have hi : h.arc.inp = i := of_decide_eq_true hin.2
    rcases exists_chooseArc_eq_iff.mp ⟨r.2, hchoose⟩ with hhead | ⟨-, hweight⟩
    · left
      rwa [hi, ← List.head?_reverse]
    · exact .inr ⟨hin.1, hweight⟩
  · intro helig
    have hin : h ∈ (x.outArcs s).filter (·.arc.inp = h.arc.inp) := by
      rcases helig with hlast | ⟨hmem, -⟩
      · exact List.mem_of_getLast? hlast
      · exact List.mem_filter.mpr ⟨hmem, decide_eq_true rfl⟩
    have hlist : (h.arc.inp, ((x.outArcs s).filter (·.arc.inp = h.arc.inp)).reverse) ∈
        indexBy .kInput (x.outArcs s) :=
      mem_indexBy_iff_filter.mpr ⟨rfl, List.ne_nil_of_mem (List.mem_reverse.mpr hin)⟩
    obtain ⟨r, hr⟩ := exists_whichList order hlist
    have hchoose : ∃ r', chooseArc (·.arc.weight)
        ((x.outArcs s).filter (·.arc.inp = h.arc.inp)).reverse r' = some h := by
      rw [exists_chooseArc_eq_iff, List.head?_reverse]
      exact helig.imp id fun hmem => ⟨List.mem_reverse.mpr hin, hmem.2⟩
    obtain ⟨r', hr'⟩ := hchoose
    exact ⟨(r, r'), _, hr, hr'⟩

theorem whichList_eq_none_iff {r : Fraction F} :
    x.whichList order s r = none ↔ x.outArcs s = [] := by
  constructor
  · intro hnone
    by_contra hne
    obtain ⟨a, ha⟩ := List.exists_mem_of_ne_nil _ hne
    have hmem : (a.arc.inp, ((x.outArcs s).filter (·.arc.inp = a.arc.inp)).reverse) ∈
        indexBy .kInput (x.outArcs s) :=
      mem_indexBy_iff_filter.mpr ⟨rfl, List.ne_nil_of_mem (List.mem_reverse.mpr
        (List.mem_filter.mpr ⟨ha, decide_eq_true rfl⟩))⟩
    have hpos : (0 : F) < (indexBy .kInput (x.outArcs s)).length :=
      Nat.cast_pos.mpr (List.length_pos_of_mem hmem)
    have hlt : ⌊((indexBy .kInput (x.outArcs s)).length : F) * r⌋₊ <
        (indexBy .kInput (x.outArcs s)).length := by
      rw [Nat.floor_lt (mul_nonneg hpos.le r.1.2)]
      exact mul_lt_of_lt_one_right hpos (Subtype.coe_lt_coe.mpr r.2)
    have hget := List.getElem?_eq_getElem (hlt.trans_eq (order.perm _).length_eq.symm)
    simp only [WFST.whichList, hget, Option.map_some] at hnone
    cases hnone
  · intro hnil
    rw [Option.eq_none_iff_forall_ne_some]
    intro arcs hlist
    obtain ⟨i, hmem⟩ := exists_of_whichList hlist
    rw [hnil] at hmem
    cases hmem

omit [FloorSemiring F] [IsStrictOrderedRing F] in
theorem mem_of_eligible (helig : x.Eligible s h) : h ∈ x.outArcs s := by
  rcases helig with hlast | ⟨hmem, -⟩
  · exact (List.mem_filter.mp (List.mem_of_getLast? hlast)).1
  · exact hmem

/-! ## What a pass does -/

/-- The variables after the arcs of `p`, which lead to `s`. -/
def generateState (p : List (HalfArc (Weight F))) (s : ℕ) : GenerateState :=
  ⟨pathInput p, pathOutput p, p.length % 2 ^ 32, s⟩

/-- What the arcs write fits into the buffers. -/
def FitsBuffers (bufLen : Fin (2 ^ 32)) (p : List (HalfArc (Weight F))) : Prop :=
  (pathInput p).length ≤ (bufLen - 1).val ∧ (pathOutput p).length ≤ (bufLen - 1).val

instance (bufLen : Fin (2 ^ 32)) (p : List (HalfArc (Weight F))) : Decidable (FitsBuffers bufLen p) :=
  inferInstanceAs (Decidable (_ ∧ _))

theorem putSymbol_eq {maxArcs symbol : ℕ} {seq : List ℕ} (hle : seq.length ≤ maxArcs) :
    putSymbol maxArcs symbol seq =
      if (seq ++ nonEpsilon [symbol]).length ≤ maxArcs then some (seq ++ nonEpsilon [symbol])
      else none := by
  rw [putSymbol]
  by_cases hepsilon : symbol = epsilonIndex
  · simp [hepsilon, hle]
  · rw [if_neg hepsilon, nonEpsilon_cons_of_ne hepsilon, nonEpsilon_nil, List.length_append,
      List.length_singleton]
    by_cases hfull : maxArcs ≤ seq.length
    · rw [if_pos hfull, if_neg (by lia)]
    · rw [if_neg hfull, if_pos (by lia)]

theorem pathInput_concat {W : Type u} (p : List (HalfArc W)) (h : HalfArc W) :
    pathInput (p ++ [h]) = pathInput p ++ nonEpsilon [h.arc.inp] := by
  rw [pathInput, List.map_append, nonEpsilon_append]
  rfl

theorem pathOutput_concat {W : Type u} (p : List (HalfArc W)) (h : HalfArc W) :
    pathOutput (p ++ [h]) = pathOutput p ++ nonEpsilon [h.arc.out] := by
  rw [pathOutput, List.map_append, nonEpsilon_append]
  rfl

theorem increment_length {W : Type u} (p : List (HalfArc W)) (h : HalfArc W) :
    increment (p.length % 2 ^ 32) = (p ++ [h]).length % 2 ^ 32 := by
  rw [increment, List.length_append, List.length_singleton]
  lia

theorem generateStep_of_stops (hstops : x.stops minArcs s (p.length % 2 ^ 32) = true) :
    generateStep x order minArcs bufLen (generateState p s) r =
      .done (some (pathInput p, pathOutput p)) := by
  simp only [generateStep, generateState, hstops, if_true]

theorem generateStep_of_nil (hstops : x.stops minArcs s (p.length % 2 ^ 32) = false)
    (hnil : x.outArcs s = []) :
    generateStep x order minArcs bufLen (generateState p s) r = .again (generateState p s) := by
  simp only [generateStep, generateState, hstops, Bool.false_eq_true, if_false,
    whichList_eq_none_iff.mpr hnil]

theorem generateStep_of_picks (hstops : x.stops minArcs s (p.length % 2 ^ 32) = false)
    (hfits : FitsBuffers bufLen p) (hpicks : x.Picks order s r h) :
    generateStep x order minArcs bufLen (generateState p s) r =
      if FitsBuffers bufLen (p ++ [h]) then .again (generateState (p ++ [h]) h.arc.dest)
      else .done none := by
  obtain ⟨arcs, hlist, hchoose⟩ := hpicks
  simp only [generateStep, generateState, hstops, Bool.false_eq_true, if_false, hlist, hchoose,
    putSymbol_eq hfits.1, putSymbol_eq hfits.2, ← pathInput_concat, ← pathOutput_concat,
    increment_length p h, FitsBuffers]
  by_cases hin : (pathInput (p ++ [h])).length ≤ (bufLen - 1).val
  · by_cases hout : (pathOutput (p ++ [h])).length ≤ (bufLen - 1).val
    · simp only [hin, hout, and_self, if_true]
    · simp only [hin, hout, and_false, if_true, if_false]
  · simp only [hin, false_and, if_false]

variable (order) in
theorem exists_picks (hne : x.outArcs s ≠ []) (r : TwoFractions F) : ∃ h, x.Picks order s r h := by
  obtain ⟨arcs, hlist⟩ := Option.ne_none_iff_exists'.mp
    fun hnone => hne (whichList_eq_none_iff.mp (hnone : x.whichList order s r.1 = none))
  obtain ⟨i, hmem⟩ := exists_of_whichList hlist
  obtain ⟨h, hh⟩ := exists_chooseArc (fun h : HalfArc (Weight F) => h.arc.weight)
    (mem_indexBy_iff_filter.mp hmem).2 r.2
  exact ⟨h, arcs, hlist, hh⟩

/-! ## The walks of an attempt -/

/-- The arcs that an attempt can have taken, and where they lead. -/
inductive WFST.Roams (x : WFST (Weight F)) (minArcs : ℕ) (bufLen : Fin (2 ^ 32)) :
    List (HalfArc (Weight F)) → ℕ → Prop
  | start : Roams x minArcs bufLen [] 0
  | take {p : List (HalfArc (Weight F))} {s : ℕ} {h : HalfArc (Weight F)}
      (rest : Roams x minArcs bufLen p s) (goes : x.stops minArcs s (p.length % 2 ^ 32) = false)
      (picks : x.Eligible s h) (fits : FitsBuffers bufLen (p ++ [h])) :
      Roams x minArcs bufLen (p ++ [h]) h.arc.dest

section

omit [FloorSemiring F] [IsStrictOrderedRing F]

theorem WFST.Roams.fits (h : x.Roams minArcs bufLen p s) : FitsBuffers bufLen p := by
  cases h with
  | start => exact ⟨Nat.zero_le _, Nat.zero_le _⟩
  | take _ _ _ fits => exact fits

theorem WFST.Roams.walk (h : x.Roams minArcs bufLen p s) : Walk x.Adj 0 p s := by
  induction h with
  | start => exact .nil 0
  | take rest goes picks fits ih =>
    exact Walk.concat_iff.mpr ⟨_, ih, mem_of_eligible picks, rfl⟩

end

/-- **What an attempt has taken it can have taken.** Passes that take no arc are at a state that
the attempt does not leave. -/
theorem roams_of_after {k : ℕ} {st : GenerateState}
    (hafter : after (generateStep x order minArcs bufLen) c .start k = some st) :
    ∃ p, x.Roams minArcs bufLen p st.s ∧ st = generateState p st.s ∧
      (p.length = k ∨ (x.outArcs st.s = [] ∧ x.final ≠ some st.s)) := by
  apply after_induction (P := fun k st => ∃ p, x.Roams minArcs bufLen p st.s ∧
    st = generateState p st.s ∧ (p.length = k ∨ (x.outArcs st.s = [] ∧ x.final ≠ some st.s))) _ _
    hafter
  · exact ⟨[], .start, rfl, .inl rfl⟩
  · rintro k t t' - ⟨p, hroams, ht, hlength⟩ hstep
    rw [ht] at hstep
    cases hstops : x.stops minArcs t.s (p.length % 2 ^ 32) with
    | true =>
      rw [generateStep_of_stops hstops] at hstep
      cases hstep
    | false =>
      by_cases hnil : x.outArcs t.s = []
      · rw [generateStep_of_nil hstops hnil] at hstep
        obtain rfl := Pass.again.inj hstep
        refine ⟨p, hroams, rfl, .inr ⟨hnil, fun hfinal => ?_⟩⟩
        have harcs : (x.state t.s).arcs = [] := by
          rw [← WFST.map_arc_outArcs, hnil, List.map_nil]
        have hfinal : x.final = some t.s := hfinal
        simp [WFST.stops, hfinal, harcs] at hstops
      · obtain ⟨h, hpicks⟩ := exists_picks order hnil (c k)
        rw [generateStep_of_picks hstops hroams.fits hpicks] at hstep
        split at hstep
        · rename_i hfits
          obtain rfl := Pass.again.inj hstep
          refine ⟨p ++ [h], hroams.take hstops ((exists_picks_iff order).mp ⟨_, hpicks⟩) hfits, rfl, ?_⟩
          left
          rcases hlength with rfl | ⟨hnil', -⟩
          · exact List.length_append
          · exact absurd hnil' hnil
        · cases hstep

/-- What an attempt can have taken, it takes for some choices. -/
theorem exists_after_of_roams (order : HashOrder (ℕ × List (HalfArc (Weight F))))
    (hroams : x.Roams minArcs bufLen p s) :
    ∃ c, after (generateStep x order minArcs bufLen) c .start p.length =
      some (generateState p s) := by
  induction hroams with
  | start => exact ⟨fun _ => (⟨0, zero_lt_one⟩, ⟨0, zero_lt_one⟩), rfl⟩
  | @take p s h rest goes picks fits ih =>
    obtain ⟨c, hc⟩ := ih
    obtain ⟨r, hr⟩ := (exists_picks_iff order).mpr picks
    refine ⟨Function.update c p.length r, ?_⟩
    rw [List.length_append, List.length_singleton]
    refine after_succ_eq_some_iff.mpr ⟨generateState p s, ?_, ?_⟩
    · rw [← hc]
      apply after_congr
      intro i hi
      exact Function.update_of_ne hi.ne r c
    · rw [Function.update_self, generateStep_of_picks goes rest.fits hr]
      exact if_pos fits

/-- An attempt does not leave a state without arcs. -/
theorem after_of_nil {k j : ℕ} (hnil : x.outArcs s = []) (hfinal : x.final ≠ some s)
    (h : after (generateStep x order minArcs bufLen) c .start k = some (generateState p s)) :
    after (generateStep x order minArcs bufLen) c .start (k + j) = some (generateState p s) := by
  have hstops : x.stops minArcs s (p.length % 2 ^ 32) = false := by
    simp [WFST.stops, hfinal]
  induction j with
  | zero => exact h
  | succ j ih => exact after_succ_eq_some_iff.mpr ⟨_, ih, generateStep_of_nil hstops hnil⟩

/-! ## Attempts that end -/

/-- An attempt is over after `fuel` arcs. -/
def WFST.generateWithin (x : WFST (Weight F)) (order : HashOrder (ℕ × List (HalfArc (Weight F))))
    (minArcs : ℕ) (bufLen : Fin (2 ^ 32)) (c : ℕ → TwoFractions F) (fuel : ℕ) :
    Option (Option (List ℕ × List ℕ)) :=
  loopFrom (generateStep x order minArcs bufLen) c (fuel + 1) 0 .start

/-- Whatever is chosen, an attempt is over after as many arcs as the limit says, and what it
returns are the symbols of a path, or it has given up. -/
def WFST.AttemptsEnd (x : WFST (Weight F)) (order : HashOrder (ℕ × List (HalfArc (Weight F))))
    (minArcs : ℕ) (bufLen : Fin (2 ^ 32)) : Prop :=
  ∀ c, ∃ result, x.generateWithin order minArcs bufLen c bufLen.val = some result ∧
    ∀ inSeq outSeq, result = some (inSeq, outSeq) →
      ∃ path, x.IsPath path ∧ path.length ≤ bufLen.val ∧ inSeq = pathInput path ∧
        outSeq = pathOutput path

/-- What an attempt can take is within the limit, and does not lead to a state without arcs other
than the final one. -/
def WFST.NoEndlessAttempt (x : WFST (Weight F)) (minArcs : ℕ) (bufLen : Fin (2 ^ 32)) : Prop :=
  ∀ p s, x.Roams minArcs bufLen p s → p.length ≤ bufLen.val ∧ (x.outArcs s = [] → x.final = some s)

theorem path_of_done {k : ℕ} {st : GenerateState} {inSeq outSeq : List ℕ}
    (hafter : after (generateStep x order minArcs bufLen) c .start k = some st)
    (hdone : generateStep x order minArcs bufLen st (c k) = .done (some (inSeq, outSeq))) :
    ∃ path, x.IsPath path ∧ path.length = k ∧ x.Roams minArcs bufLen path st.s ∧
      inSeq = pathInput path ∧ outSeq = pathOutput path := by
  obtain ⟨p, hroams, hst, hlength⟩ := roams_of_after hafter
  rw [hst] at hdone
  cases hstops : x.stops minArcs st.s (p.length % 2 ^ 32) with
  | true =>
    rw [generateStep_of_stops hstops] at hdone
    cases hdone
    have hfinal : x.final = some st.s := (of_decide_eq_true hstops).1
    refine ⟨p, ⟨st.s, hroams.walk, hfinal⟩, ?_, hroams, rfl, rfl⟩
    rcases hlength with hlength | ⟨-, hne⟩
    · exact hlength
    · exact absurd hfinal hne
  | false =>
    by_cases hnil : x.outArcs st.s = []
    · rw [generateStep_of_nil hstops hnil] at hdone
      cases hdone
    · obtain ⟨h, hpicks⟩ := exists_picks order hnil (c k)
      rw [generateStep_of_picks hstops hroams.fits hpicks] at hdone
      split at hdone <;> cases hdone

variable (order) in
/-- **Attempts end exactly when none can go on forever.** -/
theorem attemptsEnd_iff : x.AttemptsEnd order minArcs bufLen ↔ x.NoEndlessAttempt minArcs bufLen := by
  constructor
  · intro hends p s hroams
    obtain ⟨c, hc⟩ := exists_after_of_roams order hroams
    obtain ⟨result, hresult, -⟩ := hends c
    have hstops : ¬ ∃ t, after (generateStep x order minArcs bufLen) c .start (bufLen.val + 1) =
        some t := by
      rw [← loopFrom_eq_none_iff, ← ne_eq, Option.ne_none_iff_exists']
      exact ⟨result, hresult⟩
    have hle : p.length ≤ bufLen.val := by
      by_contra hlt
      exact hstops (after_ne_none_of_le (Nat.lt_of_not_le hlt) hc)
    refine ⟨hle, fun hnil => ?_⟩
    by_contra hfinal
    have hstuck := after_of_nil (j := bufLen.val + 1 - p.length) hnil hfinal hc
    rw [Nat.add_sub_cancel' (hle.trans (Nat.le_succ _))] at hstuck
    exact hstops ⟨_, hstuck⟩
  · intro hnone c
    have hsome : x.generateWithin order minArcs bufLen c bufLen.val ≠ none := by
      rw [WFST.generateWithin, ne_eq, loopFrom_eq_none_iff]
      rintro ⟨st, hst⟩
      obtain ⟨p, hroams, -, hlength | ⟨hnil, hfinal⟩⟩ := roams_of_after hst
      · have hle := (hnone p st.s hroams).1
        rw [hlength] at hle
        exact absurd hle (Nat.not_succ_le_self _)
      · exact hfinal ((hnone p st.s hroams).2 hnil)
    obtain ⟨result, hresult⟩ := Option.ne_none_iff_exists'.mp hsome
    refine ⟨result, hresult, ?_⟩
    rintro inSeq outSeq rfl
    obtain ⟨k, st, hst, hdone⟩ := loopReturns_iff.mp ⟨_, hresult⟩
    obtain ⟨path, hpath, -, hroams, hin, hout⟩ := path_of_done hst hdone
    exact ⟨path, hpath, (hnone path st.s hroams).1, hin, hout⟩

/-! ## Attempts until one succeeds -/

/-- An attempt returns a result. -/
def WFST.Generates (x : WFST (Weight F)) (order : HashOrder (ℕ × List (HalfArc (Weight F))))
    (minArcs : ℕ) (bufLen : Fin (2 ^ 32)) (c : ℕ → TwoFractions F)
    (result : Option (List ℕ × List ℕ)) : Prop :=
  LoopReturns (generateStep x order minArcs bufLen) c .start result

/-- The loop that makes attempts until one does not return zero comes to its end, whatever is
chosen in the attempts. -/
def WFST.GeneratingEnds (x : WFST (Weight F)) (order : HashOrder (ℕ × List (HalfArc (Weight F))))
    (minArcs : ℕ) (bufLen : Fin (2 ^ 32)) : Prop :=
  ∀ attempts : ℕ → ℕ → TwoFractions F, ∃ n out,
    (∀ j < n, x.Generates order minArcs bufLen (attempts j) none) ∧
      x.Generates order minArcs bufLen (attempts n) (some out)

/-- Whatever an attempt can pick fits into the buffers. -/
def WFST.NoAttemptGivesUp (x : WFST (Weight F)) (minArcs : ℕ) (bufLen : Fin (2 ^ 32)) : Prop :=
  ∀ p s h, x.Roams minArcs bufLen p s → x.stops minArcs s (p.length % 2 ^ 32) = false →
    x.Eligible s h → FitsBuffers bufLen (p ++ [h])

/-- If the attempts with the same choices over and over come to an end, then the first does. -/
theorem generatingEnds_iff : x.GeneratingEnds order minArcs bufLen ↔
    ∀ c, ∃ out, x.Generates order minArcs bufLen c (some out) := by
  constructor
  · intro hends c
    obtain ⟨n, out, -, hout⟩ := hends fun _ => c
    exact ⟨out, hout⟩
  · intro hall attempts
    obtain ⟨out, hout⟩ := hall (attempts 0)
    exact ⟨0, out, fun j hj => absurd hj (Nat.not_lt_zero j), hout⟩

theorem noAttemptGivesUp_of_generatingEnds (hends : x.GeneratingEnds order minArcs bufLen) :
    x.NoAttemptGivesUp minArcs bufLen := by
  intro p s h hroams hgoes hpicks
  by_contra hfits
  obtain ⟨c, hc⟩ := exists_after_of_roams order hroams
  obtain ⟨r, hr⟩ := (exists_picks_iff order).mpr hpicks
  -- the attempt that takes `p` and then picks `h`
  have hafter : after (generateStep x order minArcs bufLen) (Function.update c p.length r) .start
      p.length = some (generateState p s) := by
    rw [← hc]
    apply after_congr
    intro i hi
    exact Function.update_of_ne hi.ne r c
  have hgivesUp : x.Generates order minArcs bufLen (Function.update c p.length r) none := by
    apply loopReturns_of_done hafter
    rw [Function.update_self, generateStep_of_picks hgoes hroams.fits hr]
    exact if_neg hfits
  obtain ⟨out, hout⟩ := generatingEnds_iff.mp hends (Function.update c p.length r)
  cases hgivesUp.unique hout

theorem generatingEnds_of_noAttemptGivesUp (hattempts : x.AttemptsEnd order minArcs bufLen)
    (hnone : x.NoAttemptGivesUp minArcs bufLen) : x.GeneratingEnds order minArcs bufLen := by
  apply generatingEnds_iff.mpr
  intro c
  obtain ⟨result, hresult, -⟩ := hattempts c
  cases result with
  | some out => exact ⟨out, _, hresult⟩
  | none =>
    obtain ⟨k, st, hst, hdone⟩ := loopReturns_iff.mp ⟨_, hresult⟩
    obtain ⟨p, hroams, heq, -⟩ := roams_of_after hst
    rw [heq] at hdone
    cases hstops : x.stops minArcs st.s (p.length % 2 ^ 32) with
    | true =>
      rw [generateStep_of_stops hstops] at hdone
      cases hdone
    | false =>
      by_cases hnil : x.outArcs st.s = []
      · rw [generateStep_of_nil hstops hnil] at hdone
        cases hdone
      · obtain ⟨h, hpicks⟩ := exists_picks order hnil (c k)
        rw [generateStep_of_picks hstops hroams.fits hpicks,
          if_pos (hnone p st.s h hroams hstops ((exists_picks_iff order).mp ⟨_, hpicks⟩))] at hdone
        cases hdone

/-- **When attempts end, and when they come to a success.** -/
theorem generate_ends_iff (x : WFST (Weight F)) (order : HashOrder (ℕ × List (HalfArc (Weight F))))
    (minArcs : ℕ) (bufLen : Fin (2 ^ 32)) :
    (x.AttemptsEnd order minArcs bufLen ↔ x.NoEndlessAttempt minArcs bufLen) ∧
      (x.AttemptsEnd order minArcs bufLen ∧ x.GeneratingEnds order minArcs bufLen ↔
        x.NoEndlessAttempt minArcs bufLen ∧ x.NoAttemptGivesUp minArcs bufLen) := by
  refine ⟨attemptsEnd_iff order, ?_⟩
  constructor
  · rintro ⟨hattempts, hends⟩
    exact ⟨(attemptsEnd_iff order).mp hattempts, noAttemptGivesUp_of_generatingEnds hends⟩
  · rintro ⟨hendless, hnone⟩
    have hattempts := (attemptsEnd_iff order).mpr hendless
    exact ⟨hattempts, generatingEnds_of_noAttemptGivesUp hattempts hnone⟩

omit [FloorSemiring F] [IsStrictOrderedRing F] in
theorem fitsBuffers_of_length_le (hle : p.length ≤ (bufLen - 1).val) : FitsBuffers bufLen p := by
  constructor
  · exact ((List.length_filter_le ..).trans_eq (List.length_map _)).trans hle
  · exact ((List.length_filter_le ..).trans_eq (List.length_map _)).trans hle

/-- With three arcs in a row, attempts end and succeed. -/
theorem generate_ends_threeSteps :
    threeSteps.AttemptsEnd ⟨id, fun _ => .refl _⟩ 0 1000 ∧
      threeSteps.GeneratingEnds ⟨id, fun _ => .refl _⟩ 0 1000 := by
  have hnext : ∀ s < 4, ∀ h ∈ threeSteps.outArcs s, h.arc.dest = s + 1 ∧ s < 3 := by
    decide
  have hends : ∀ s < 4, threeSteps.outArcs s = [] → threeSteps.final = some s := by
    decide
  have hroams : ∀ p s, threeSteps.Roams 0 1000 p s → p.length = s ∧ s < 4 := by
    intro p s h
    induction h with
    | start => exact ⟨rfl, by decide⟩
    | @take p s h rest goes picks fits ih =>
      obtain ⟨rfl, hlt⟩ := ih
      obtain ⟨hdest, hlt⟩ := hnext p.length hlt h (mem_of_eligible picks)
      rw [List.length_append, List.length_singleton, hdest]
      exact ⟨rfl, Nat.succ_lt_succ hlt⟩
  apply (generate_ends_iff ..).2.mpr
  constructor
  · intro p s h
    obtain ⟨rfl, hlt⟩ := hroams p s h
    exact ⟨hlt.le.trans (by decide), hends _ hlt⟩
  · intro p s h hp hgoes hpicks
    obtain ⟨rfl, hlt⟩ := hroams p s hp
    apply fitsBuffers_of_length_le
    rw [List.length_append, List.length_singleton]
    exact (Nat.succ_le_of_lt hlt).trans (by decide)

/-- A transducer with a loop that neither reads nor writes, beside the way to the final state. -/
def silentLoop : WFST (Weight ℚ) where
  states := [⟨[⟨0, 0, 1, 1, FSTArc.noGroup⟩, ⟨0, 0, 0, 1, FSTArc.noGroup⟩], 2⟩, State.empty]
  final := some 1
  inAlph := ⟨["*e*"], Alphabet.nodup_epsilon, Alphabet.epsilon_first⟩
  outAlph := ⟨["*e*"], Alphabet.nodup_epsilon, Alphabet.epsilon_first⟩

theorem silentLoop_valid : silentLoop.Valid where
  start_lt := by decide
  final_lt := ⟨1, rfl, by decide⟩
  dest_lt := by decide
  inp_lt := by decide
  out_lt := by decide

/-- An attempt can go round the loop forever. -/
theorem not_attemptsEnd_silentLoop :
    ¬ ∀ (x : WFST (Weight ℚ)) (order : HashOrder (ℕ × List (HalfArc (Weight ℚ)))) (minArcs : ℕ)
      (bufLen : Fin (2 ^ 32)), x.Valid → x.AttemptsEnd order minArcs bufLen := by
  intro hall
  have hends := hall silentLoop ⟨id, fun _ => .refl _⟩ 0 1000 silentLoop_valid
  have hround : ∀ n, silentLoop.Roams 0 1000
      (List.replicate n ⟨0, 1, 0, 0, 0, 1, FSTArc.noGroup⟩) 0 := by
    intro n
    induction n with
    | zero => exact .start
    | succ n ih =>
      rw [List.replicate_succ']
      refine ih.take rfl (.inr ⟨by decide, one_ne_zero⟩) ?_
      have hempty : ∀ m, nonEpsilon (List.replicate m 0) = [] := fun m => by
        simp [nonEpsilon, epsilonIndex]
      constructor
      · rw [pathInput, ← List.replicate_succ', List.map_replicate, hempty]
        exact Nat.zero_le _
      · rw [pathOutput, ← List.replicate_succ', List.map_replicate, hempty]
        exact Nat.zero_le _
  have hle := ((attemptsEnd_iff _).mp hends _ _ (hround 1001)).1
  rw [List.length_replicate] at hle
  exact absurd hle (by decide)

end Carmel
