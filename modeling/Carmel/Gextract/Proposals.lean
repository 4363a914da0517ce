/-
# The choices of `expand`

`expand` should give a node no span, or one within the span of its rule parent that contains
its closure span and shares no word with the other nodes of the rule. The loops stop one
short of the end of the parent's span, never begin at the closure span itself, and do not
test every word, so the choices are these spans only in some states.
-/

import Carmel.Gextract.SamplerStates

namespace Carmel.Gextract

/-- A word of another node of the rule, one that is not at or below `n`. -/
def Blocked (spans : Addr → Option Span) (n P : Addr) (k : ℕ) : Prop :=
  ∃ w, ruleParent spans w = some P ∧ ¬ n <:+ w ∧ Covers spans k w

/-- No span, or one in the span of the rule parent that contains the closure span and
overlaps no other node of the rule. -/
def Example.Choice (x : Example) (n P : Addr) (parspan : Span) : Option Span → Prop
  | none => True
  | some s => s.1 < s.2 ∧ parspan.1 ≤ s.1 ∧ s.2 ≤ parspan.2 ∧ SpanIn (x.closureSpan n) (some s) ∧
      ∀ w r, ruleParent x.span w = some P → ¬ n <:+ w → x.span w = some r → Apart s r

/-- When the spans that are proposed are all there are. -/
def ExactlyProposed (blocked : ℕ → Prop) (a b : ℕ) (old : Option Span) : Option Span → Prop
  | none => a = b ∨ blocked (b - 1) ∨ old = some (b - 1, b) ∧ (b - 1 = a ∨ blocked (b - 2))
  | some (c, d) =>
    (∃ k, c ≤ k ∧ k < d ∧ blocked k) ∧ (d = b ∨ ∀ i, a ≤ i → i < c → blocked i) ∨
    (∀ k, c ≤ k → k < d → ¬ blocked k) ∧ old = some (c, d) ∧ (d = b ∧ (c = a ∨ blocked (c - 1)) ∨
        d < b ∧ blocked d ∧ ∀ i, a ≤ i → i < c → ¬ blocked i → ∀ k, i ≤ k → k < c → ¬ blocked k)

section Loops

variable {free : ℕ → Option Bool} {Q : ℕ → Prop}

/-- The ends of spans go on as long as the words before are free. -/
theorem spanEnds_spec (rounds : ℕ) : ∀ j, (∀ k, j ≤ k → k < j + rounds →
      ∃ b, free k = some b ∧ (b = true ↔ Q k)) →
    ∃ js, Example.spanEnds free rounds j = some js ∧
      ∀ e, e ∈ js ↔ j ≤ e ∧ e < j + rounds ∧ ∀ k, j ≤ k → k < e → Q k := by
  induction rounds with
  | zero =>
    intro j _
    refine ⟨[], rfl, ?_⟩
    intro e
    simp only [List.not_mem_nil, false_iff]
    omega
  | succ rounds ih =>
    intro j hfree
    obtain ⟨b, hb, hQ⟩ := hfree j le_rfl (by omega)
    rw [Example.spanEnds, hb, Option.bind_some]
    cases b with
    | false =>
      have hnot : ¬ Q j := fun h => Bool.false_ne_true (hQ.mpr h)
      refine ⟨[j], rfl, ?_⟩
      intro e
      rw [List.mem_singleton]
      constructor
      · rintro rfl
        exact ⟨le_rfl, by omega, fun k hk hke => absurd hke (by omega)⟩
      · intro ⟨hje, _, hall⟩
        by_contra hne
        exact hnot (hall j le_rfl (by omega))
    | true =>
      obtain ⟨js, hjs, hmem⟩ := ih (j + 1) fun k hk hkr => hfree k (by omega) (by omega)
      refine ⟨j :: js, by rw [if_pos rfl, hjs]; rfl, ?_⟩
      intro e
      rw [List.mem_cons, hmem]
      constructor
      · rintro (rfl | ⟨hje, her, hall⟩)
        · exact ⟨le_rfl, by omega, fun k hk hke => absurd hke (by omega)⟩
        · refine ⟨by omega, by omega, ?_⟩
          intro k hk hke
          by_cases hkj : k = j
          · exact hkj ▸ hQ.mp rfl
          · exact hall k (by omega) hke
      · intro ⟨hje, her, hall⟩
        by_cases heq : e = j
        · exact Or.inl heq
        · exact Or.inr ⟨by omega, by omega, fun k hk hke => hall k (by omega) hke⟩

theorem exists_mapM_flatten {α β : Type*} {g : α → Option (List β)} {R : α → β → Prop} (l : List α)
    (h : ∀ i ∈ l, ∃ ys, g i = some ys ∧ ∀ y, y ∈ ys ↔ R i y) :
    ∃ yss, l.mapM g = some yss ∧ ∀ y, y ∈ yss.flatten ↔ ∃ i ∈ l, R i y := by
  induction l with
  | nil => exact ⟨[], rfl, fun y => by simp⟩
  | cons i l ih =>
    obtain ⟨ys, hys, hmem⟩ := h i List.mem_cons_self
    obtain ⟨yss, hyss, hmems⟩ := ih fun j hj => h j (List.mem_cons_of_mem i hj)
    refine ⟨ys :: yss, by rw [List.mapM_cons, hys, hyss]; rfl, ?_⟩
    intro y
    rw [List.flatten_cons, List.mem_append, hmem, hmems, List.exists_mem_cons_iff]

end Loops

namespace Example

variable {x : Example} {n P : Addr} {a b k : ℕ} {s : Span}

/-- The bounds of the two loops. -/
def imax (closure : Option Span) (b : ℕ) : ℕ :=
  match closure with
  | none => b
  | some c => c.1

def jmin (closure : Option Span) (a : ℕ) : ℕ :=
  match closure with
  | none => a + 1
  | some c => c.2

/-- The spans of the loops, when words are free according to `Q`. -/
def Looped (Q : ℕ → Prop) (a b : ℕ) (closure : Option Span) (i j : ℕ) : Prop :=
  a ≤ i ∧ i < imax closure b ∧ Q i ∧ max (i + 1) (jmin closure a) ≤ j ∧ j < b ∧
    ∀ k, max (i + 1) (jmin closure a) ≤ k → k < j → Q k

/-- The spans that are proposed with the left end `i`. -/
def proposalsFrom (x : Example) (n P : Addr) (a b i : ℕ) : Option (List (Option Span)) :=
  (x.isFree n P i).bind fun isFree =>
    if isFree then
      let first := max (i + 1) (jmin (x.closureSpan n) a)
      (spanEnds (x.isFree n P) (b - first) first).map fun js =>
        (js.map fun j => some (i, j)).filter (· ≠ x.span n)
    else some []

theorem proposals_eq (x : Example) (n P : Addr) (a b : ℕ) : x.proposals n P (a, b) =
    ((List.range' a (imax (x.closureSpan n) b - a)).mapM (x.proposalsFrom n P a b)).map
      fun spans => (if x.span n ≠ none then [none] else []) ++ spans.flatten := by
  unfold proposals proposalsFrom
  cases x.closureSpan n <;> rfl

theorem proposals_spec {Q : ℕ → Prop} (himax : imax (x.closureSpan n) b ≤ b)
    (hfree : ∀ k, a ≤ k → k < b → (∀ c, x.closureSpan n = some c → ¬ InSpan c k) →
      ∃ f, x.isFree n P k = some f ∧ (f = true ↔ Q k))
    (hproper : ∀ c, x.closureSpan n = some c → c.1 < c.2) :
    ∃ spans, x.proposals n P (a, b) = some spans ∧ ∀ o, o ∈ x.span n :: spans ↔
      o = x.span n ∨ o = none ∨ ∃ i j, o = some (i, j) ∧ Looped Q a b (x.closureSpan n) i j := by
  have houtside : ∀ k, k < imax (x.closureSpan n) b ∨ jmin (x.closureSpan n) a ≤ k →
      ∀ c, x.closureSpan n = some c → ¬ InSpan c k := by
    intro k hk c hc hin
    have := hproper c hc
    simp only [hc, imax, jmin] at hk
    unfold InSpan at hin
    omega
  obtain ⟨spans, hspans, hmem⟩ := exists_mapM_flatten (g := x.proposalsFrom n P a b)
    (R := fun i o => o ≠ x.span n ∧ ∃ j, o = some (i, j) ∧ Looped Q a b (x.closureSpan n) i j)
    (List.range' a (imax (x.closureSpan n) b - a)) (by
      intro i hi
      have hi' := List.mem_range'_1.mp hi
      obtain ⟨f, hf, hQ⟩ := hfree i (by omega) (by omega) (houtside i (Or.inl (by omega)))
      rw [proposalsFrom, hf, Option.bind_some]
      cases f with
      | false =>
        refine ⟨[], rfl, ?_⟩
        intro o
        simp only [List.not_mem_nil, false_iff]
        rintro ⟨_, j, _, _, _, hQi, _⟩
        exact Bool.false_ne_true (hQ.mpr hQi)
      | true =>
        obtain ⟨js, hjs, hends⟩ := spanEnds_spec
          (b - max (i + 1) (jmin (x.closureSpan n) a)) (max (i + 1) (jmin (x.closureSpan n) a))
          fun k hk hkb => hfree k (by omega) (by omega) (houtside k (Or.inr (by omega)))
        refine ⟨(js.map fun j => some (i, j)).filter (· ≠ x.span n), ?_, ?_⟩
        · simp only [if_true, hjs]
          rfl
        intro o
        simp only [List.mem_filter, List.mem_map, decide_eq_true_eq, Looped]
        constructor
        · rintro ⟨⟨j, hj, rfl⟩, hne⟩
          obtain ⟨hfirst, hlast, hall⟩ := (hends j).mp hj
          exact ⟨hne, j, rfl, by omega, by omega, hQ.mp rfl, hfirst, by omega, hall⟩
        · rintro ⟨hne, j, rfl, _, _, _, hfirst, hlast, hall⟩
          exact ⟨⟨j, (hends j).mpr ⟨hfirst, by omega, hall⟩, rfl⟩, hne⟩)
  refine ⟨(if x.span n ≠ none then [none] else []) ++ spans.flatten, ?_, ?_⟩
  · rw [proposals_eq, hspans]
    rfl
  · intro o
    rw [List.mem_cons, List.mem_append, hmem]
    by_cases hold : o = x.span n
    · simp [hold]
    · simp only [hold, false_or]
      constructor
      · rintro (hnone | ⟨i, hi, _, j, rfl, hloop⟩)
        · left
          by_cases hspan : x.span n = none
          · rw [if_neg (not_not.mpr hspan)] at hnone
            cases hnone
          · rw [if_pos hspan] at hnone
            exact List.mem_singleton.mp hnone
        · exact Or.inr ⟨i, j, rfl, hloop⟩
      · rintro (rfl | ⟨i, j, rfl, hloop⟩)
        · left
          rw [if_pos fun h => hold h.symm]
          exact List.mem_singleton_self none
        · right
          refine ⟨i, List.mem_range'_1.mpr ?_, fun h => hold h, j, rfl, hloop⟩
          obtain ⟨hai, hlt, _⟩ := hloop
          omega

namespace WellFormed

/-! ## Free words -/

theorem root_ne_none (h : x.WellFormed) : x.span [] ≠ none := by
  rw [h.top]
  exact Option.some_ne_none _

/-- A word of a node below is in the closure span. -/
theorem exists_closure_of_below (h : x.WellFormed) (hn : n ∈ x.etree.addrs) (hbelow : Below x n k) :
    ∃ c, x.closureSpan n = some c ∧ InSpan c k := by
  have hcover := h.isCover_closureSpan hn
  cases hc : x.closureSpan n with
  | none =>
    rw [hc] at hcover
    exact absurd hbelow (hcover k)
  | some c =>
    rw [hc] at hcover
    exact ⟨c, rfl, hcover.2.2 k hbelow⟩

/-- Outside the closure span, `f2enode` tells whether another node of the rule has a word. -/
theorem isFree_spec (h : x.WellFormed) (hn : n ∈ x.etree.addrs)
    (hP : ruleParent x.span n = some P) (hspan : x.span P = some (a, b)) (hak : a ≤ k) (hkb : k < b)
    (hout : ∀ c, x.closureSpan n = some c → ¬ InSpan c k) :
    ∃ f, x.isFree n P k = some f ∧ (f = true ↔ ¬ Blocked x.span n P k) := by
  have hwithin := h.nested_below h.top hspan List.nil_suffix
  obtain ⟨t, howner, htspan, htcovers, hlowest⟩ := h.exists_owner (i := k) (by omega)
  obtain ⟨hPspan, ⟨hPn, hPne⟩, hbetween⟩ := ruleParent_eq_some_iff.mp hP
  refine ⟨_, by rw [isFree, howner]; rfl, ?_⟩
  simp only [Option.some.injEq, decide_eq_true_eq]
  constructor
  · rintro htn ⟨w, hw, hnw, hwcovers⟩
    obtain ⟨-, ⟨hPw, hPwne⟩, -⟩ := ruleParent_eq_some_iff.mp hw
    have hwspan : x.span w ≠ none := by
      obtain ⟨r, hr, _⟩ := hwcovers
      rw [hr]
      exact Option.some_ne_none r
    rcases htn with rfl | rfl
    · exact hlowest w hwspan hPw (Ne.symm hPwne) hwcovers
    · rcases h.suffix_or_suffix htcovers hwcovers with htw | hwt
      · exact hnw htw
      · have hne : w ≠ t := by
          rintro rfl
          exact hnw List.suffix_rfl
        exact hbetween w hwspan hPw (Ne.symm hPwne) ⟨hwt, hne⟩
  · intro hfree
    by_contra hnot
    obtain ⟨htP, htn⟩ := not_or.mp hnot
    have hPcovers : Covers x.span k P := ⟨(a, b), hspan, hak, hkb⟩
    have hPt : P <:+ t := by
      rcases h.suffix_or_suffix htcovers hPcovers with htP' | hPt
      · exact absurd hPcovers (hlowest P hPspan htP' (Ne.symm htP))
      · exact hPt
    obtain ⟨w, hw, hwt, hwor⟩ := exists_below hPspan h.root_ne_none hPt (Ne.symm htP)
    have hwspan : x.span w ≠ none := by
      rcases hwor with rfl | hwspan
      · exact htspan
      · exact hwspan
    have hwcovers := h.covers_of_suffix hwt hwspan htcovers
    have hnw : n <:+ w := by
      by_contra hnw
      exact hfree ⟨w, hw, hnw, hwcovers⟩
    -- the word belongs to a node below, and so to the closure span
    have hbelow : Below x n k := by
      by_cases hwn : w = n
      · subst hwn
        exact ⟨t, hwt, htn, htcovers⟩
      · exact ⟨w, hnw, hwn, hwcovers⟩
    obtain ⟨c, hc, hin⟩ := h.exists_closure_of_below hn hbelow
    exact hout c hc hin

/-! ## What is known of the node itself -/

/-- The closure span is in the span of the rule parent, and in that of the node. -/
theorem closure_within (h : x.WellFormed) (hn : n ∈ x.etree.addrs) {m : Addr} (hmn : m <:+ n)
    (hm : x.span m = some s) {c : Span} (hc : x.closureSpan n = some c) :
    c.1 < c.2 ∧ s.1 ≤ c.1 ∧ c.2 ≤ s.2 := by
  have hcover := h.isCover_closureSpan hn
  rw [hc] at hcover
  obtain ⟨hfirst, ⟨j, hlast, hj⟩, hall⟩ := hcover
  have hin : ∀ k, Below x n k → InSpan s k := by
    intro k ⟨u, hnu, _, hu⟩
    obtain ⟨r, hr, hk⟩ := h.covers_of_suffix (hmn.trans hnu) (by rw [hm]; nofun) hu
    rw [hm] at hr
    exact Option.some.inj hr ▸ hk
  have h1 := hin _ hfirst
  have h2 := hin _ hlast
  have h3 := hall _ hlast
  unfold InSpan at h1 h2
  omega

/-- A choice, told by the words that are blocked. -/
theorem choice_iff (h : x.WellFormed) {i j : ℕ} : x.Choice n P (a, b) (some (i, j)) ↔
    i < j ∧ a ≤ i ∧ j ≤ b ∧ SpanIn (x.closureSpan n) (some (i, j)) ∧
      ∀ k, i ≤ k → k < j → ¬ Blocked x.span n P k := by
  unfold Choice
  refine and_congr_right fun hij => and_congr_right fun _ => and_congr_right fun _ =>
    and_congr_right fun _ => ?_
  constructor
  · rintro hapart k hik hkj ⟨w, hw, hnw, r, hr, hk⟩
    have := hapart w r hw hnw hr
    unfold Apart at this
    unfold InSpan at hk
    omega
  · intro hfree w r hw hnw hr
    have hw0 : w ≠ [] := by
      rintro rfl
      cases hw
    have hproper := h.proper w r hw0 hr
    unfold Apart
    by_contra hnot
    have hcommon : InSpan r (max i r.1) := by
      unfold InSpan
      omega
    exact hfree (max i r.1) (by omega) (by omega) ⟨w, hw, hnw, r, hr, hcommon⟩

/-- The span that the node has is a choice. -/
theorem choice_self (h : x.WellFormed) (hn : n ∈ x.etree.addrs) (hP : ruleParent x.span n = some P)
    (hspan : x.span P = some (a, b)) : x.Choice n P (a, b) (x.span n) := by
  cases hold : x.span n with
  | none => trivial
  | some s =>
    have hn0 : n ≠ [] := by
      rintro rfl
      cases hP
    have hwithin := h.nested n P s (a, b) hP hold hspan
    refine ⟨h.proper n s hn0 hold, hwithin.1, hwithin.2, ?_, ?_⟩
    · cases hc : x.closureSpan n with
      | none => trivial
      | some c => exact (h.closure_within hn List.suffix_rfl hold hc).2
    · intro w r hw hnw hr
      have hne : n ≠ w := by
        rintro rfl
        exact hnw List.suffix_rfl
      exact h.apart n w P s r hne hP hw hold hr

end WellFormed

section Exactly

variable {blocked : ℕ → Prop} {i j c d : ℕ} {old : Option Span}

/-- The choices, when the words that are not blocked are free. -/
def Open (blocked : ℕ → Prop) (a b : ℕ) (closure : Option Span) (i j : ℕ) : Prop :=
  i < j ∧ a ≤ i ∧ j ≤ b ∧ SpanIn closure (some (i, j)) ∧ ∀ k, i ≤ k → k < j → ¬ blocked k

/-- Without a closure span the loops only miss the spans up to the end of the parent's. -/
theorem looped_none_iff : Looped (fun k => ¬ blocked k) a b none i j ↔
    Open blocked a b none i j ∧ j < b := by
  simp only [Looped, Open, imax, jmin, SpanIn, true_and]
  constructor
  · intro ⟨ha, hi, hfree, hfirst, hj, hall⟩
    refine ⟨⟨by omega, ha, by omega, ?_⟩, hj⟩
    intro k hik hkj
    by_cases hk : k = i
    · exact hk ▸ hfree
    · exact hall k (by omega) hkj
  · intro ⟨⟨hij, ha, hjb, hall⟩, hj⟩
    exact ⟨ha, by omega, hall i le_rfl hij, by omega, hj, fun k hk hkj => hall k (by omega) hkj⟩

theorem exactlyProposed_none_iff (hab : a ≤ b) :
    (∀ i j, some (i, j) = old ∨ Looped (fun k => ¬ blocked k) a b none i j ↔
      some (i, j) = old ∨ Open blocked a b none i j) ↔ ExactlyProposed blocked a b old none := by
  have hopen : ∀ i, a ≤ i → i < b → (∀ k, i ≤ k → k < b → ¬ blocked k) →
      Open blocked a b none i b := fun i hai hib hall => ⟨hib, hai, le_rfl, trivial, hall⟩
  unfold ExactlyProposed
  constructor
  · intro hall
    by_contra hnot
    simp only [not_or] at hnot
    obtain ⟨hne, hlast, hold⟩ := hnot
    -- a span up to the end of the parent's has to be the old one
    have hmust : ∀ i, a ≤ i → i < b → (∀ k, i ≤ k → k < b → ¬ blocked k) → old = some (i, b) := by
      intro i hai hib hfree
      rcases (hall i b).mpr (Or.inr (hopen i hai hib hfree)) with heq | hloop
      · exact heq.symm
      · exact absurd (looped_none_iff.mp hloop).2 (lt_irrefl b)
    have hold1 : old = some (b - 1, b) := by
      apply hmust (b - 1) (by omega) (by omega)
      intro k hk hkb
      exact (show k = b - 1 by omega) ▸ hlast
    apply hold
    refine ⟨hold1, ?_⟩
    by_contra hnot
    obtain ⟨hne1, hlast2⟩ := not_or.mp hnot
    have hold2 : old = some (b - 2, b) := by
      apply hmust (b - 2) (by omega) (by omega)
      intro k hk hkb
      by_cases hk1 : k = b - 1
      · exact hk1 ▸ hlast
      · exact (show k = b - 2 by omega) ▸ hlast2
    rw [hold1, Option.some.injEq, Prod.mk.injEq] at hold2
    omega
  · intro hcond i j
    refine or_congr_right' fun hne => ?_
    rw [looped_none_iff]
    refine ⟨fun h => h.1, fun h => ⟨h, ?_⟩⟩
    obtain ⟨hij, hai, hjb, -, hfree⟩ := h
    by_contra hlt
    have hj : j = b := by omega
    subst hj
    rcases hcond with hempty | hlast | ⟨hold, hfirst⟩
    · omega
    · exact hfree (j - 1) (by omega) (by omega) hlast
    · apply hne
      rw [hold, Option.some.injEq, Prod.mk.injEq]
      refine ⟨?_, rfl⟩
      rcases hfirst with heq | hblocked
      · omega
      · by_contra hi
        exact hfree (j - 2) (by omega) (by omega) hblocked

/-- Around a closure span the loops begin before it, and only look at the words after it. -/
theorem looped_some_iff : Looped (fun k => ¬ blocked k) a b (some (c, d)) i j ↔
    a ≤ i ∧ i < c ∧ ¬ blocked i ∧ max (i + 1) d ≤ j ∧ j < b ∧
      ∀ k, max (i + 1) d ≤ k → k < j → ¬ blocked k := Iff.rfl

/-- With a blocked word in the closure span nothing is a choice, and nothing may be proposed. -/
theorem exactlyProposed_of_blocked (hcd : c < d) (hdb : d ≤ b)
    (hold : ∀ i j, old = some (i, j) → Open blocked a b (some (c, d)) i j)
    (hblock : ∃ k, c ≤ k ∧ k < d ∧ blocked k) :
    (∀ i j, some (i, j) = old ∨ Looped (fun k => ¬ blocked k) a b (some (c, d)) i j ↔
      some (i, j) = old ∨ Open blocked a b (some (c, d)) i j) ↔
    d = b ∨ ∀ i, a ≤ i → i < c → blocked i := by
  have hnone : ∀ i j, ¬ Open blocked a b (some (c, d)) i j := by
    intro i j ⟨_, _, _, ⟨hic, hdj⟩, hfree⟩
    obtain ⟨k, hck, hkd, hk⟩ := hblock
    exact hfree k (hic.trans hck) (hkd.trans_le hdj) hk
  have hne : ∀ i j, some (i, j) ≠ old := fun i j h => hnone i j (hold i j h.symm)
  simp only [hne, hnone, false_or, iff_false, looped_some_iff]
  constructor
  · intro hall
    by_contra hnot
    obtain ⟨hdb', hfree⟩ := not_or.mp hnot
    push Not at hfree
    obtain ⟨i, hai, hic, hi⟩ := hfree
    exact hall i d ⟨hai, hic, hi, by omega, by omega, fun k hk hkd => absurd hkd (by omega)⟩
  · intro hcond i j ⟨hai, hic, hi, hdj, hjb, _⟩
    rcases hcond with hdb' | hall
    · omega
    · exact hi (hall i hai hic)

/-- Otherwise the closure span is a choice that is never proposed, so it must be the old span
and each of the others has to begin before it. -/
theorem exactlyProposed_of_free (hcd : c < d) (hac : a ≤ c) (hdb : d ≤ b)
    (hfree : ∀ k, c ≤ k → k < d → ¬ blocked k) :
    (∀ i j, some (i, j) = old ∨ Looped (fun k => ¬ blocked k) a b (some (c, d)) i j ↔
      some (i, j) = old ∨ Open blocked a b (some (c, d)) i j) ↔
    old = some (c, d) ∧ (d = b ∧ (c = a ∨ blocked (c - 1)) ∨
      d < b ∧ blocked d ∧ ∀ i, a ≤ i → i < c → ¬ blocked i → ∀ k, i ≤ k → k < c → ¬ blocked k) := by
  have hopen : ∀ i j, i ≤ c → d ≤ j → (Open blocked a b (some (c, d)) i j ↔
      a ≤ i ∧ j ≤ b ∧ (∀ k, i ≤ k → k < c → ¬ blocked k) ∧ ∀ k, d ≤ k → k < j → ¬ blocked k) := by
    intro i j hic hdj
    constructor
    · intro ⟨_, hai, hjb, _, hall⟩
      exact ⟨hai, hjb, fun k hk hkc => hall k hk (by omega), fun k hk hkj => hall k (by omega) hkj⟩
    · intro ⟨hai, hjb, hbefore, hafter⟩
      refine ⟨by omega, hai, hjb, ⟨hic, hdj⟩, ?_⟩
      intro k hik hkj
      by_cases hkc : k < c
      · exact hbefore k hik hkc
      · by_cases hkd : k < d
        · exact hfree k (by omega) hkd
        · exact hafter k (by omega) hkj
  have hlooped : ∀ i, a ≤ i → i < c → ¬ blocked i → d < b →
      Looped (fun k => ¬ blocked k) a b (some (c, d)) i d := fun i hai hic hi hd =>
    looped_some_iff.mpr ⟨hai, hic, hi, by omega, hd, fun k hk hkd => absurd hkd (by omega)⟩
  constructor
  · intro hall
    have hself := (hopen c d le_rfl le_rfl).mpr ⟨hac, hdb, fun k hk hkc => absurd hkc (by omega),
      fun k hk hkd => absurd hkd (by omega)⟩
    have hclosure : old = some (c, d) := by
      rcases (hall c d).mpr (Or.inr hself) with heq | hloop
      · exact heq.symm
      · exact absurd (looped_some_iff.mp hloop).2.1 (lt_irrefl c)
    have hmissed : ∀ i j, (i, j) ≠ (c, d) → Open blocked a b (some (c, d)) i j → i < c ∧ j < b := by
      intro i j hne h
      rcases (hall i j).mpr (Or.inr h) with heq | hloop
      · rw [hclosure] at heq
        exact absurd (Option.some.inj heq) hne
      · have hloop' := looped_some_iff.mp hloop
        exact ⟨hloop'.2.1, hloop'.2.2.2.2.1⟩
    refine ⟨hclosure, ?_⟩
    by_cases hd : d = b
    · left
      refine ⟨hd, ?_⟩
      by_contra hnot
      obtain ⟨hca, hbefore⟩ := not_or.mp hnot
      have hlonger := hmissed (c - 1) d (by intro h; injection h; omega)
        ((hopen (c - 1) d (by omega) le_rfl).mpr ⟨by omega, hdb,
          fun k hk hkc => (show k = c - 1 by omega) ▸ hbefore, fun k hk hkd => absurd hkd (by omega)⟩)
      omega
    · right
      refine ⟨by omega, ?_, ?_⟩
      · by_contra hafter
        have hlonger := hmissed c (d + 1) (by intro h; injection h; omega)
          ((hopen c (d + 1) le_rfl (by omega)).mpr ⟨hac, by omega,
            fun k hk hkc => absurd hkc (by omega), fun k hk hkd => (show k = d by omega) ▸ hafter⟩)
        omega
      · intro i hai hic hi
        rcases (hall i d).mp (Or.inr (hlooped i hai hic hi (by omega))) with heq | h
        · rw [hclosure, Option.some.injEq, Prod.mk.injEq] at heq
          omega
        · exact ((hopen i d hic.le le_rfl).mp h).2.2.1
  · intro ⟨hclosure, hcond⟩ i j
    refine or_congr_right' fun hne => ?_
    have hne' : i = c → j ≠ d := by
      intro hi hj
      apply hne
      rw [hclosure, hi, hj]
    rcases hcond with ⟨hd, hfirst⟩ | ⟨hd, hblocked, hbefore⟩
    · apply iff_of_false
      · intro hloop
        have hloop' := looped_some_iff.mp hloop
        omega
      · intro ⟨hij, hai, hjb, ⟨hic, hdj⟩, hall⟩
        rcases hfirst with hca | hblocked
        · exact hne' (by omega) (by omega)
        · by_cases hi : i = c
          · exact hne' hi (by omega)
          · exact hall (c - 1) (by omega) (by omega) hblocked
    · constructor
      · intro hloop
        obtain ⟨hai, hic, hi, hdj, hjb, hafter⟩ := looped_some_iff.mp hloop
        exact (hopen i j hic.le (by omega)).mpr ⟨hai, hjb.le, hbefore i hai hic hi,
          fun k hk hkj => hafter k (by omega) hkj⟩
      · intro ⟨hij, hai, hjb, ⟨hic, hdj⟩, hall⟩
        have hj : j = d := by
          by_contra hjd
          exact hall d (by omega) (by omega) hblocked
        subst hj
        have hi : i ≠ c := fun hi => hne' hi rfl
        exact hlooped i hai (by omega) (hall i le_rfl hij) hd

theorem exactlyProposed_some_iff (hcd : c < d) (hac : a ≤ c) (hdb : d ≤ b)
    (hold : ∀ i j, old = some (i, j) → Open blocked a b (some (c, d)) i j) :
    (∀ i j, some (i, j) = old ∨ Looped (fun k => ¬ blocked k) a b (some (c, d)) i j ↔
      some (i, j) = old ∨ Open blocked a b (some (c, d)) i j) ↔
    ExactlyProposed blocked a b old (some (c, d)) := by
  by_cases hblock : ∃ k, c ≤ k ∧ k < d ∧ blocked k
  · rw [exactlyProposed_of_blocked hcd hdb hold hblock]
    constructor
    · intro hcond
      exact Or.inl ⟨hblock, hcond⟩
    · rintro (⟨_, hcond⟩ | ⟨hfree, _⟩)
      · exact hcond
      · obtain ⟨k, hck, hkd, hk⟩ := hblock
        exact absurd hk (hfree k hck hkd)
  · push Not at hblock
    rw [exactlyProposed_of_free hcd hac hdb hblock]
    constructor
    · intro hcond
      exact Or.inr ⟨hblock, hcond⟩
    · rintro (⟨⟨k, hck, hkd, hk⟩, _⟩ | ⟨_, hcond⟩)
      · exact absurd hk (hblock k hck hkd)
      · exact hcond

/-- A state without a span is the hardest: nothing but the loops proposes a span there. -/
theorem exactlyProposed_of_none {closure : Option Span}
    (h : ExactlyProposed blocked a b none closure) : ExactlyProposed blocked a b old closure := by
  cases closure with
  | none =>
    rcases h with hempty | hlast | ⟨hold, _⟩
    · exact Or.inl hempty
    · exact Or.inr (Or.inl hlast)
    · cases hold
  | some c =>
    rcases h with hblock | ⟨_, hold, _⟩
    · exact Or.inl hblock
    · cases hold

end Exactly

/-- The old span and the proposed ones are the choices, and no others are. -/
def Proposes (x : Example) (n P : Addr) (parspan : Span) (choice : Option Span → Prop) : Prop :=
  ∃ spans, x.proposals n P parspan = some spans ∧ ∀ o, o ∈ x.span n :: spans ↔ choice o

namespace WellFormed

/-- In a state exactly the choices are proposed when `ExactlyProposed` says so. -/
theorem proposes_iff (h : x.WellFormed) (hn : n ∈ x.etree.addrs)
    (hP : ruleParent x.span n = some P) (hspan : x.span P = some (a, b)) :
    x.Proposes n P (a, b) (x.Choice n P (a, b)) ↔
      ExactlyProposed (Blocked x.span n P) a b (x.span n) (x.closureSpan n) := by
  have hPn := (ruleParent_eq_some_iff.mp hP).has
  have hab : a ≤ b := by
    by_cases hP0 : P = []
    · rw [hP0, h.top] at hspan
      injection hspan with hspan
      injection hspan
      omega
    · exact (h.proper P (a, b) hP0 hspan).le
  have hwithin : ∀ c, x.closureSpan n = some c → c.1 < c.2 ∧ a ≤ c.1 ∧ c.2 ≤ b :=
    fun c hc => h.closure_within hn hPn.1 hspan hc
  obtain ⟨spans, hspans, hmem⟩ := proposals_spec (x := x) (n := n) (P := P) (a := a) (b := b)
    (Q := fun k => ¬ Blocked x.span n P k) (by
      cases hc : x.closureSpan n with
      | none => exact le_rfl
      | some c =>
        have := hwithin c hc
        simp only [imax]
        omega)
    (fun k hak hkb hout => h.isFree_spec hn hP hspan hak hkb hout) (fun c hc => (hwithin c hc).1)
  have hold := h.choice_self hn hP hspan
  have hopen : ∀ i j, x.Choice n P (a, b) (some (i, j)) ↔
      Open (Blocked x.span n P) a b (x.closureSpan n) i j := fun i j => h.choice_iff
  have hpairs : x.Proposes n P (a, b) (x.Choice n P (a, b)) ↔ ∀ i j, some (i, j) = x.span n ∨
          Looped (fun k => ¬ Blocked x.span n P k) a b (x.closureSpan n) i j ↔
        some (i, j) = x.span n ∨ Open (Blocked x.span n P) a b (x.closureSpan n) i j := by
    constructor
    · rintro ⟨spans', hspans', hall⟩ i j
      rw [hspans] at hspans'
      cases Option.some.inj hspans'
      have hij := (hmem (some (i, j))).symm.trans (hall (some (i, j)))
      constructor
      · rintro (heq | hloop)
        · exact Or.inl heq
        · exact Or.inr ((hopen i j).mp (hij.mp (Or.inr (Or.inr ⟨i, j, rfl, hloop⟩))))
      · rintro (heq | h')
        · exact Or.inl heq
        · rcases hij.mpr ((hopen i j).mpr h') with heq | hnone | ⟨i', j', heq, hloop⟩
          · exact Or.inl heq
          · cases hnone
          · cases heq
            exact Or.inr hloop
    · intro hall
      refine ⟨spans, hspans, ?_⟩
      intro o
      rw [hmem]
      constructor
      · rintro (rfl | rfl | ⟨i, j, rfl, hloop⟩)
        · exact hold
        · trivial
        · rcases (hall i j).mp (Or.inr hloop) with heq | h'
          · exact heq ▸ hold
          · exact (hopen i j).mpr h'
      · intro hchoice
        match o, hchoice with
        | none, _ => exact Or.inr (Or.inl rfl)
        | some (i, j), hchoice =>
          rcases (hall i j).mpr (Or.inr ((hopen i j).mp hchoice)) with heq | hloop
          · exact Or.inl heq
          · exact Or.inr (Or.inr ⟨i, j, rfl, hloop⟩)
  rw [hpairs]
  cases hc : x.closureSpan n with
  | none => exact exactlyProposed_none_iff hab
  | some c =>
    have hc' := hwithin c hc
    apply exactlyProposed_some_iff hc'.1 hc'.2.1 hc'.2.2
    intro i j heq
    rw [heq] at hold
    have h' := (hopen i j).mp hold
    rwa [hc] at h'

end WellFormed

section LikeBut

variable {y : Example} {o : Option Span}

theorem LikeBut.blocked_eq (h : x.LikeBut n y) : Blocked y.span n P = Blocked x.span n P := by
  funext k
  apply propext
  apply exists_congr
  intro w
  have hkept : ¬ n <:+ w → ruleParent y.span w = ruleParent x.span w ∧ y.span w = x.span w := by
    intro hnw
    refine ⟨h.ruleParent_eq (Or.inl hnw), h.span w ?_⟩
    rintro rfl
    exact hnw List.suffix_rfl
  constructor
  · intro ⟨hw, hnw, hcovers⟩
    rw [(hkept hnw).1] at hw
    rw [Covers, (hkept hnw).2] at hcovers
    exact ⟨hw, hnw, hcovers⟩
  · intro ⟨hw, hnw, hcovers⟩
    rw [← (hkept hnw).1] at hw
    rw [Covers, ← (hkept hnw).2] at hcovers
    exact ⟨hw, hnw, hcovers⟩

theorem WellFormed.choice_eq (hx : x.WellFormed) (hy : y.WellFormed) (h : x.LikeBut n y)
    (hn : n ∈ x.etree.addrs) : y.Choice n P (a, b) = x.Choice n P (a, b) := by
  funext o
  apply propext
  match o with
  | none => exact Iff.rfl
  | some (i, j) => rw [hy.choice_iff, hx.choice_iff, h.blocked_eq, hx.closureSpan_eq hy h hn]

/-- Exactly the choices are proposed in a state, and whatever span the node has. -/
theorem WellFormed.proposes_choices_iff (h : x.WellFormed) (hn : n ∈ x.etree.addrs)
    (hP : ruleParent x.span n = some P) (hspan : x.span P = some (a, b)) :
    (x.Proposes n P (a, b) (x.Choice n P (a, b)) ↔
      ExactlyProposed (Blocked x.span n P) a b (x.span n) (x.closureSpan n)) ∧
    ((∀ y : Example, y.WellFormed → x.LikeBut n y → y.Proposes n P (a, b) (x.Choice n P (a, b))) ↔
      ExactlyProposed (Blocked x.span n P) a b none (x.closureSpan n)) := by
  refine ⟨h.proposes_iff hn hP hspan, ?_⟩
  have hother : ∀ y : Example, y.WellFormed → x.LikeBut n y →
      (y.Proposes n P (a, b) (x.Choice n P (a, b)) ↔
        ExactlyProposed (Blocked x.span n P) a b (y.span n) (x.closureSpan n)) := by
    intro y hy hlike
    have hPn := (ruleParent_eq_some_iff.mp hP).has.2
    have hiff := hy.proposes_iff (hlike.etree.symm ▸ hn)
      ((hlike.ruleParent_eq (Or.inr rfl)).trans hP) ((hlike.span P hPn).trans hspan)
    rwa [h.choice_eq hy hlike hn, hlike.blocked_eq, h.closureSpan_eq hy hlike hn] at hiff
  constructor
  · intro hall
    have hn0 : n ≠ [] := by
      rintro rfl
      cases hP
    obtain ⟨y, hy, hlike, hnone⟩ := h.exists_withoutSpan hn0
    have hexact := (hother y hy hlike).mp (hall y hy hlike)
    rwa [hnone] at hexact
  · intro hexact y hy hlike
    exact (hother y hy hlike).mpr (exactlyProposed_of_none hexact)

end LikeBut

/-! ## Two words -/

/-- A top with two leaves, the second of which may have no span. -/
def twoLeaves (second : Option Span) : Example where
  etree := ⟨"S", .node "A" .nil (.node "B" .nil .nil)⟩
  f := ["x", "y"]
  span
    | [] => some (0, 2)
    | [0] => some (0, 1)
    | [1] => second
    | _ => none
  closureSpan
    | [] => if second = none then some (0, 1) else some (0, 2)
    | _ => none
  count := fun _ => none
  f2enode := [some [0], if second = none then some [] else some [1]]

theorem wellFormed_twoLeaves {second : Option Span} (h : second = none ∨ second = some (1, 2)) :
    (twoLeaves second).WellFormed := by
  have hspan : ∀ {u r}, (twoLeaves second).span u = some r →
      u = [] ∧ r = (0, 2) ∨ u = [0] ∧ r = (0, 1) ∨ u = [1] ∧ r = (1, 2) := by
    intro u r hu
    match u, hu with
    | [], hu => exact Or.inl ⟨rfl, (Option.some.inj hu).symm⟩
    | [0], hu => exact Or.inr (Or.inl ⟨rfl, (Option.some.inj hu).symm⟩)
    | [1], hu =>
      rcases h with rfl | rfl
      · cases hu
      · exact Or.inr (Or.inr ⟨rfl, (Option.some.inj hu).symm⟩)
  have hparent : ∀ {u m r}, ruleParent (twoLeaves second).span u = some m →
      (twoLeaves second).span u = some r →
      m = [] ∧ (u = [0] ∧ r = (0, 1) ∨ u = [1] ∧ r = (1, 2)) := by
    intro u m r hm hr
    rcases hspan hr with ⟨rfl, -⟩ | ⟨rfl, rfl⟩ | ⟨rfl, rfl⟩
    · cases hm
    · exact ⟨(Option.some.inj hm).symm, Or.inl ⟨rfl, rfl⟩⟩
    · exact ⟨(Option.some.inj hm).symm, Or.inr ⟨rfl, rfl⟩⟩
  have haddrs : (twoLeaves second).etree.addrs = [[], [0], [1]] := rfl
  refine ⟨rfl, ?_, ?_, ?_, ?_, ?_, ?_⟩
  · intro u hu
    obtain ⟨r, hr⟩ := Option.ne_none_iff_exists'.mp hu
    rw [haddrs]
    rcases hspan hr with ⟨rfl, -⟩ | ⟨rfl, -⟩ | ⟨rfl, -⟩ <;> decide
  · intro u r _ hr
    rcases hspan hr with ⟨-, rfl⟩ | ⟨-, rfl⟩ | ⟨-, rfl⟩ <;> decide
  · intro u m r s hm hr hs
    obtain ⟨rfl, hcases⟩ := hparent hm hr
    cases Option.some.inj hs
    rcases hcases with ⟨-, rfl⟩ | ⟨-, rfl⟩ <;> decide
  · intro u v m r s hne hu hv hr hs
    obtain ⟨-, ⟨rfl, rfl⟩ | ⟨rfl, rfl⟩⟩ := hparent hu hr
    · obtain ⟨-, ⟨rfl, rfl⟩ | ⟨rfl, rfl⟩⟩ := hparent hv hs
      · exact absurd rfl hne
      · exact Or.inl le_rfl
    · obtain ⟨-, ⟨rfl, rfl⟩ | ⟨rfl, rfl⟩⟩ := hparent hv hs
      · exact Or.inr le_rfl
      · exact absurd rfl hne
  · intro u hu
    simp only [haddrs, List.mem_cons, List.not_mem_nil, or_false] at hu
    rcases h with rfl | rfl
    · rcases hu with rfl | rfl | rfl <;> rfl
    · rcases hu with rfl | rfl | rfl <;> rfl
  · rcases h with rfl | rfl <;> rfl

theorem proposes_choices_iff_twoLeaves :
    (twoLeaves (some (1, 2))).Proposes [1] [] (0, 2)
      ((twoLeaves (some (1, 2))).Choice [1] [] (0, 2)) := by
  apply ((wellFormed_twoLeaves (Or.inr rfl)).proposes_choices_iff
    (show [1] ∈ (twoLeaves (some (1, 2))).etree.addrs by decide) rfl rfl).1.mpr
  right
  right
  exact ⟨rfl, Or.inr ⟨[0], rfl, by decide, (0, 1), rfl, le_rfl, Nat.one_pos⟩⟩

/-- Once the second leaf has lost its span it never gets it back. -/
theorem not_proposes_twoLeaves :
    (twoLeaves none).WellFormed ∧ [1] ∈ (twoLeaves none).etree.addrs ∧
    ruleParent (twoLeaves none).span [1] = some [] ∧ (twoLeaves none).span [] = some (0, 2) ∧
    (twoLeaves none).Choice [1] [] (0, 2) (some (1, 2)) ∧
    (twoLeaves none).proposals [1] [] (0, 2) = some [] ∧
    ¬ (twoLeaves none).Proposes [1] [] (0, 2) ((twoLeaves none).Choice [1] [] (0, 2)) := by
  have hchoice : (twoLeaves none).Choice [1] [] (0, 2) (some (1, 2)) := by
    refine ⟨by decide, by decide, by decide, trivial, ?_⟩
    intro w r hw hnw hr
    match w, hr with
    | [], _ => cases hw
    | [0], hr =>
      cases Option.some.inj hr
      exact Or.inr le_rfl
    | [1], hr => cases hr
  have hnone : (twoLeaves none).proposals [1] [] (0, 2) = some [] := by decide
  refine ⟨wellFormed_twoLeaves (Or.inl rfl), by decide, rfl, rfl, hchoice, hnone, ?_⟩
  intro ⟨spans, hspans, hall⟩
  rw [hnone] at hspans
  cases Option.some.inj hspans
  have hmem := (hall (some (1, 2))).mpr hchoice
  cases List.mem_singleton.mp hmem

end Example

end Carmel.Gextract
