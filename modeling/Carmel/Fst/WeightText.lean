/-
# The two readers of a weight

A weight is written as `num`, `e^num`, `10^num`, `numln` or `numlog`. `setStringPartial`
looks at the marks of a string before it reads a number; `read` has the number from a stream
before it sees what follows. Both set the stored logarithm, kept here without the rounding
of the logarithm.
-/

import Carmel.Math.DecimalText

namespace Carmel

open Math

/-! ## Setting a weight -/

/-- How a weight is set from a number. -/
inductive Setter
  | setReal (f : Double)
  | setLn (w : Double)
  | setLog10 (w : Double)
deriving DecidableEq, Repr

namespace Setter

/-- A logarithm to the base of which `scale` is the natural logarithm. -/
noncomputable def exponent (scale : ℝ) : Double → EReal
  | .finite q => ((q * scale : ℝ) : EReal)
  | .inf negative => if negative then ⊥ else ⊤

/-- The stored logarithm: `setReal` sets zero for what is not positive. -/
noncomputable def weight : Setter → EReal
  | .setReal (.finite q) => if 0 < q then (Real.log q : EReal) else ⊥
  | .setReal (.inf negative) => if negative then ⊥ else ⊤
  | .setLn w => exponent 1 w
  | .setLog10 w => exponent (Real.log 10) w

end Setter

/-! ## The string reader -/

/-- What is set by the mark behind a number; nothing if a mark was begun but is none. -/
def setSuffix (d : Double) : List Char → Option (Setter × List Char)
  | 'l' :: 'n' :: rest => some (.setLn d, rest)
  | 'l' :: 'o' :: 'g' :: rest => some (.setLog10 d, rest)
  | 'l' :: _ => none
  | rest => some (.setReal d, rest)

def setStringPartial : List Char → Option (Setter × List Char)
  | 'e' :: '^' :: text => some (.setLn (strtod text).1, (strtod text).2)
  | '1' :: '0' :: '^' :: text => some (.setLog10 (strtod text).1, (strtod text).2)
  | text => setSuffix (strtod text).1 (strtod text).2

/-! ## The stream reader -/

/-- What `read` comes to: a weight with the text that is left, `GENIOBAD`, or an exception. -/
inductive ReadResult
  | good (w : Setter) (rest : List Char)
  | bad
  | throws
deriving DecidableEq, Repr

/-- The end of `read`, with the number and whether taking it failed. At the end of the text it
does not matter whether it did. -/
def readTail (f : Double) (fail : Bool) : List Char → ReadResult
  | [] => .good (.setReal f) []
  | c :: rest =>
    if fail then .bad
    else if c = 'l' then
      match rest with
      | 'n' :: rest => .good (.setLn f) rest
      | 'o' :: 'g' :: rest => .good (.setLog10 f) rest
      | _ => .bad
    else .good (.setReal f) (c :: rest)

/-- `EXPECTI(in >> f)`: the stream must be good behind the number, so the text must go on. -/
def expect (text : List Char) (k : Double → List Char → ReadResult) : ReadResult :=
  if (numGet text).fail = true ∨ (numGet text).rest = [] then .throws
  else k (numGet text).value (numGet text).rest

/-- `read` behind its first number. Behind a ten, white space is passed over and a power is
looked for; the exponent then takes the place of the number, and the end of `read` sets the
weight again. -/
def readNumeral (x : Extracted) : ReadResult :=
  if x.value = .finite 10 then
    match skipSpaces x.rest with
    | [] => .good (.setReal x.value) []
    | c :: rest =>
      if c = '^' then expect rest fun f rest => readTail f false rest
      else .good (.setReal x.value) (c :: rest)
  else readTail x.value x.fail x.rest

/-- `read`. -/
def read (text : List Char) : ReadResult :=
  match skipSpaces text with
  | [] => .bad
  | c :: rest =>
    if c = 'e' then
      match rest with
      | '^' :: rest => expect rest fun f rest => .good (.setLn f) rest
      | _ => .throws
    else readNumeral (numGet (c :: rest))

/-! ## Legal texts -/

/-- The five spellings of a weight. -/
inductive WeightText
  | num (d : Decimal)
  | expE (d : Decimal)
  | exp10 (d : Decimal)
  | numln (d : Decimal)
  | numlog (d : Decimal)

namespace WeightText

def decimal : WeightText → Decimal
  | num d | expE d | exp10 d | numln d | numlog d => d

def text : WeightText → List Char
  | num d => d.text
  | expE d => 'e' :: '^' :: d.text
  | exp10 d => '1' :: '0' :: '^' :: d.text
  | numln d => d.text ++ ['l', 'n']
  | numlog d => d.text ++ ['l', 'o', 'g']

/-- The characters that may go on with a text: those of the numeral it ends with, and those of a
longer spelling that it begins. -/
def Continues : WeightText → Char → Prop
  | num d, c => d.Continues c ∨ c = 'l' ∨ (c = '^' ∧ d.text = ['1', '0'])
  | expE d, c | exp10 d, c => d.Continues c
  | numln _, _ | numlog _, _ => False

/-- What a text says. -/
def setter : WeightText → Setter
  | num d => .setReal (toDouble d.value)
  | expE d | numln d => .setLn (toDouble d.value)
  | exp10 d | numlog d => .setLog10 (toDouble d.value)

end WeightText

/-- Both readers take the text and nothing else, and set the same weight. -/
def Agrees (t : WeightText) (rest : List Char) : Prop :=
  ∃ w w', setStringPartial (t.text ++ rest) = some (w, rest) ∧
    read (t.text ++ rest) = .good w' rest ∧ w.weight = w'.weight

/-- Where the stream reader is right about a number with no mark: in range, a ten must not have
white space or a power's mark behind it; out of range, the number must be negative, which sets
zero, and stand at the end. -/
def NumberAlike : Double → List Char → Prop
  | .finite q, rest => q = 10 → ∀ c ∈ rest.head?, c ≠ '^' ∧ isSpace c = false
  | .inf negative, rest => negative = true ∧ rest = []

/-- Where the stream reader is right about a text: about a power of ten it never is; a power of
`e` must not stand at the end; with a mark behind it, a number must not be ten. -/
def ReadAlike : WeightText → List Char → Prop
  | .num d, rest => NumberAlike (toDouble d.value) rest
  | .expE d, rest => rest ≠ [] ∧ ∃ q, toDouble d.value = .finite q
  | .exp10 _, _ => False
  | .numln d, _ | .numlog d, _ => ∃ q, toDouble d.value = .finite q ∧ q ≠ 10

/-! ## The string reader takes every text -/

variable {d : Decimal} {t : WeightText} {rest : List Char}

/-- A numeral has no mark of a power in it. -/
theorem hat_not_mem_text : '^' ∉ d.text := by
  intro h
  rcases mem_text h with h | h
  · exact absurd h (by decide)
  · exact absurd h (by decide)

theorem text_ne_e (text : List Char) : d.text ++ rest ≠ 'e' :: text := by
  obtain ⟨c, tail, htext, hc⟩ := text_eq_cons (d := d)
  rw [htext, List.cons_append]
  intro h
  obtain rfl := (List.cons.inj h).1
  exact absurd hc (by decide)

theorem text_ne_ten (hrest : ∀ c ∈ rest.head?, ¬ d.Continues c)
    (hhat : ∀ c ∈ rest.head?, ¬ (c = '^' ∧ d.text = ['1', '0'])) (text : List Char) :
    d.text ++ rest ≠ '1' :: '0' :: '^' :: text := by
  obtain ⟨c, tail, htext, hc⟩ := text_eq_cons (d := d)
  have hmem := hat_not_mem_text (d := d)
  intro h
  rw [htext, List.cons_append, List.cons.injEq] at h
  rw [htext] at hhat hmem
  obtain ⟨rfl, h⟩ := h
  cases tail with
  | nil =>
    rw [List.nil_append] at h
    exact hrest '0' (by rw [h]; rfl) (.inl (by decide))
  | cons c tail =>
    rw [List.cons_append, List.cons.injEq] at h
    obtain ⟨rfl, h⟩ := h
    cases tail with
    | nil =>
      rw [List.nil_append] at h
      exact hhat '^' (by rw [h]; rfl) ⟨rfl, rfl⟩
    | cons c tail =>
      rw [List.cons_append, List.cons.injEq] at h
      obtain ⟨rfl, -⟩ := h
      simp at hmem

theorem setStringPartial_numeral (hrest : ∀ c ∈ rest.head?, ¬ d.Continues c)
    (hhat : ∀ c ∈ rest.head?, ¬ (c = '^' ∧ d.text = ['1', '0'])) :
    setStringPartial (d.text ++ rest) = setSuffix (toDouble d.value) rest := by
  rw [setStringPartial, strtod_append hrest]
  · exact fun text => text_ne_e _
  · exact text_ne_ten hrest hhat

/-- The mark of a suffix does not go on with a numeral. -/
theorem not_continues_l : ¬ d.Continues 'l' := by
  rintro (h | h | h | h)
  · exact absurd h (by decide)
  · exact absurd h.1 (by decide)
  · exact absurd h.1 (by decide)
  · exact absurd h.1 (by decide)

theorem not_continues_suffix (suffix : List Char) : ∀ c ∈ ('l' :: suffix).head?, ¬ d.Continues c := by
  intro c hc
  obtain rfl := Option.some.inj hc
  exact not_continues_l

theorem setStringPartial_suffix (suffix : List Char) :
    setStringPartial (d.text ++ 'l' :: suffix) = setSuffix (toDouble d.value) ('l' :: suffix) := by
  apply setStringPartial_numeral (not_continues_suffix suffix)
  intro c hc h
  obtain rfl := Option.some.inj hc
  exact absurd h.1 (by decide)

/-- **The string reader takes every legal text whole** and sets what it says. -/
theorem setStringPartial_text (hrest : ∀ c ∈ rest.head?, ¬ t.Continues c) :
    setStringPartial (t.text ++ rest) = some (t.setter, rest) := by
  cases t with
  | num d =>
    have hnum := setStringPartial_numeral (fun c hc h => hrest c hc (.inl h))
      (fun c hc h => hrest c hc (.inr (.inr h)))
    cases rest with
    | nil => exact hnum
    | cons c rest =>
      have hc : c ≠ 'l' := fun h => hrest c rfl (.inr (.inl h))
      rw [WeightText.text, hnum, setSuffix]
      · rfl
      all_goals exact fun _ h => hc (List.cons.inj h).1
  | expE d => simp only [WeightText.text, List.cons_append, setStringPartial, strtod_append hrest]; rfl
  | exp10 d => simp only [WeightText.text, List.cons_append, setStringPartial, strtod_append hrest]; rfl
  | numln d =>
    rw [WeightText.text, List.append_assoc]
    exact setStringPartial_suffix _
  | numlog d =>
    rw [WeightText.text, List.append_assoc]
    exact setStringPartial_suffix _

/-! ## What the stream reader makes of a number -/

theorem readTail_cases {f : Double} {fail : Bool} {text : List Char} {w : Setter}
    (h : readTail f fail text = .good w rest) :
    rest.length < text.length ∨ (rest = text ∧ w = .setReal f) := by
  cases text with
  | nil =>
    obtain ⟨rfl, rfl⟩ := ReadResult.good.inj h
    exact .inr ⟨rfl, rfl⟩
  | cons c text =>
    rw [readTail.eq_def] at h
    dsimp only at h
    split at h
    · cases h
    · split at h
      · split at h
        · obtain ⟨-, rfl⟩ := ReadResult.good.inj h
          exact .inl (by simp only [List.length_cons]; lia)
        · obtain ⟨-, rfl⟩ := ReadResult.good.inj h
          exact .inl (by simp only [List.length_cons]; lia)
        · cases h
      · obtain ⟨rfl, rfl⟩ := ReadResult.good.inj h
        exact .inr ⟨rfl, rfl⟩

theorem readTail_of_ne {f : Double} (h : ∀ c ∈ rest.head?, c ≠ 'l') :
    readTail f false rest = .good (.setReal f) rest := by
  cases rest with
  | nil => rfl
  | cons c rest =>
    rw [readTail.eq_def]
    dsimp only
    rw [if_neg Bool.false_ne_true, if_neg (h c rfl)]

theorem length_readTail_le {f : Double} {fail : Bool} {text : List Char} {w : Setter}
    (h : readTail f fail text = .good w rest) : rest.length ≤ text.length := by
  rcases readTail_cases h with h | ⟨rfl, -⟩
  · exact h.le
  · exact le_rfl

theorem eq_setReal_of_readTail {f : Double} {fail : Bool} {w : Setter}
    (h : readTail f fail rest = .good w rest) : w = .setReal f := by
  rcases readTail_cases h with h | ⟨-, h⟩
  · exact absurd h (lt_irrefl _)
  · exact h

theorem expect_of_finite (hrest : ∀ c ∈ rest.head?, ¬ d.Continues c) {q : ℚ}
    (hq : toDouble d.value = .finite q) (hne : rest ≠ []) (k : Double → List Char → ReadResult) :
    expect (d.text ++ rest) k = k (.finite q) rest := by
  rw [expect, numGet_of_finite hrest hq, if_neg (by simp [hne])]

theorem expect_throws (hrest : ∀ c ∈ rest.head?, ¬ d.Continues c)
    (h : rest = [] ∨ ∃ negative, toDouble d.value = .inf negative)
    (k : Double → List Char → ReadResult) : expect (d.text ++ rest) k = .throws := by
  rw [expect, if_pos]
  cases hd : toDouble d.value with
  | inf negative =>
    rw [numGet_of_inf hrest hd]
    exact .inl rfl
  | finite q =>
    rw [numGet_of_finite hrest hd]
    rcases h with h | ⟨negative, h⟩
    · exact .inr h
    · rw [hd] at h
      cases h

theorem read_numeral : read (d.text ++ rest) = readNumeral (numGet (d.text ++ rest)) := by
  have hspaces : skipSpaces (d.text ++ rest) = d.text ++ rest := skipSpaces_text
  have hne : ∀ text, d.text ++ rest ≠ 'e' :: text := text_ne_e
  obtain ⟨c, tail, htext, -⟩ := text_eq_cons (d := d)
  rw [htext, List.cons_append] at hspaces hne ⊢
  have hc : c ≠ 'e' := by
    rintro rfl
    exact hne _ rfl
  rw [read, hspaces]
  exact if_neg hc

theorem readNumeral_of_ne_ten {x : Extracted} (h : x.value ≠ .finite 10) :
    readNumeral x = readTail x.value x.fail x.rest := if_neg h

theorem readNumeral_ten {fail : Bool} {c : Char} (hspace : isSpace c = false) (hc : c ≠ '^') :
    readNumeral ⟨.finite 10, fail, c :: rest⟩ = .good (.setReal (.finite 10)) (c :: rest) := by
  rw [readNumeral, if_pos rfl, skipSpaces_cons hspace]
  exact if_neg hc

theorem readNumeral_power {fail : Bool} :
    readNumeral ⟨.finite 10, fail, '^' :: rest⟩ = expect rest fun f rest => readTail f false rest := by
  rw [readNumeral, if_pos rfl, skipSpaces_cons rfl]
  exact if_pos rfl

theorem length_expect_le {text : List Char} {w : Setter}
    (h : (expect text fun f rest => readTail f false rest) = .good w rest) :
    rest.length ≤ text.length := by
  rw [expect] at h
  split at h
  · cases h
  · exact (length_readTail_le h).trans (length_numGet_le text)

theorem readNumeral_ten_ne {fail : Bool} {c : Char} (hc : c = '^' ∨ isSpace c = true) (w : Setter) :
    readNumeral ⟨.finite 10, fail, c :: rest⟩ ≠ .good w (c :: rest) := by
  intro h
  rcases hc with rfl | hc
  · rw [readNumeral_power] at h
    exact absurd (length_expect_le h) (by simp)
  · have hskip : skipSpaces (c :: rest) = skipSpaces rest := List.dropWhile_cons_of_pos hc
    have hle : (skipSpaces rest).length ≤ rest.length := length_dropWhile_le isSpace rest
    rw [readNumeral, if_pos rfl] at h
    simp only [hskip] at h
    cases htext : skipSpaces rest with
    | nil =>
      rw [htext] at h
      exact absurd (ReadResult.good.inj h).2 (by simp)
    | cons a tail =>
      rw [htext] at h hle
      dsimp only at h
      rw [List.length_cons] at hle
      split at h
      · have hlength := length_expect_le h
        rw [List.length_cons] at hlength
        lia
      · have hlength := congrArg List.length (ReadResult.good.inj h).2
        simp only [List.length_cons] at hlength
        lia

theorem one_le_log_ten : 1 ≤ Real.log 10 := by
  rw [Real.le_log_iff_exp_le (by norm_num)]
  linarith [Real.exp_one_lt_d9]

/-- A number is never the logarithm, to the base ten, of itself. -/
theorem weight_setLog10_ne (q : ℚ) :
    (Setter.setLog10 (.finite q)).weight ≠ (Setter.setReal (.finite q)).weight := by
  simp only [Setter.weight, Setter.exponent]
  split
  · rename_i hpos
    have hq : (0 : ℝ) < q := by exact_mod_cast hpos
    have hlog := Real.log_le_sub_one_of_pos hq
    have hmul : (q : ℝ) * 1 ≤ q * Real.log 10 := mul_le_mul_of_nonneg_left one_le_log_ten hq.le
    intro h
    have h : (q : ℝ) * Real.log 10 = Real.log q := EReal.coe_injective h
    linarith
  · exact EReal.coe_ne_bot _

theorem ten_lt_maxDouble : 10 < maxDouble := by
  have hone : (1 : ℚ) ≤ 2 ^ 971 := one_le_pow₀ one_le_two
  have hten : (10 : ℚ) < (2 ^ 53 - 1) * 1 := by norm_num
  exact hten.trans_le (mul_le_mul_of_nonneg_left hone (by norm_num))

/-- Past the largest number there is an infinite weight, which is not that of the largest one. -/
theorem weight_inf_eq_iff (negative : Bool) :
    (Setter.setReal (.inf negative)).weight =
        (Setter.setReal (.finite (if negative then -maxDouble else maxDouble))).weight ↔
      negative = true := by
  have hpos : 0 < maxDouble := lt_trans (by norm_num) ten_lt_maxDouble
  cases negative with
  | true =>
    have hneg : ¬ 0 < -maxDouble := not_lt.mpr (neg_nonpos.mpr hpos.le)
    simp only [Setter.weight, if_true, if_neg hneg]
  | false =>
    simp only [Setter.weight, Bool.false_eq_true, if_false, if_pos hpos, iff_false]
    exact (EReal.coe_ne_top _).symm

/-! ## Where the readers agree -/

/-- The string reader being right, agreement is a matter of the stream reader. -/
theorem agrees_iff (hrest : ∀ c ∈ rest.head?, ¬ t.Continues c) :
    Agrees t rest ↔ ∃ w, read (t.text ++ rest) = .good w rest ∧ t.setter.weight = w.weight := by
  simp only [Agrees, setStringPartial_text hrest, Option.some.injEq, Prod.mk.injEq, and_true]
  constructor
  · rintro ⟨w, w', rfl, h⟩
    exact ⟨w', h⟩
  · rintro ⟨w', h⟩
    exact ⟨t.setter, w', rfl, h⟩

theorem finite_ne_ten {q : ℚ} (h : q ≠ 10) : Double.finite q ≠ .finite 10 :=
  fun hq => h (Double.finite.inj hq)

theorem agrees_num_of_finite (hrest : ∀ c ∈ rest.head?, ¬ (WeightText.num d).Continues c) {q : ℚ}
    (hq : toDouble d.value = .finite q) :
    Agrees (.num d) rest ↔ (q = 10 → ∀ c ∈ rest.head?, c ≠ '^' ∧ isSpace c = false) := by
  have hd : ∀ c ∈ rest.head?, ¬ d.Continues c := fun c hc h => hrest c hc (.inl h)
  have hl : ∀ c ∈ rest.head?, c ≠ 'l' := fun c hc h => hrest c hc (.inr (.inl h))
  rw [agrees_iff hrest, WeightText.text, read_numeral, numGet_of_finite hd hq, WeightText.setter, hq]
  by_cases hten : q = 10
  · subst hten
    cases rest with
    | nil => exact ⟨fun _ _ _ hc => (Option.not_mem_none _ hc).elim, fun _ => ⟨_, rfl, rfl⟩⟩
    | cons c rest =>
      constructor
      · rintro ⟨w, hread, -⟩ - a ha
        obtain rfl := Option.some.inj ha
        by_contra hc
        apply readNumeral_ten_ne _ w hread
        by_cases hhat : c = '^'
        · exact .inl hhat
        · by_contra hspace
          exact hc ⟨hhat, Bool.eq_false_iff.mpr fun h => hspace (.inr h)⟩
      · intro h
        obtain ⟨hhat, hspace⟩ := h rfl c rfl
        exact ⟨_, readNumeral_ten hspace hhat, rfl⟩
  · rw [readNumeral_of_ne_ten (finite_ne_ten hten), readTail_of_ne hl]
    exact ⟨fun _ h => absurd h hten, fun _ => ⟨_, rfl, rfl⟩⟩

/-- Out of range, a number is taken only at the end, as the largest one. -/
theorem agrees_num_of_inf (hrest : ∀ c ∈ rest.head?, ¬ (WeightText.num d).Continues c)
    {negative : Bool} (hinf : toDouble d.value = .inf negative) :
    Agrees (.num d) rest ↔ negative = true ∧ rest = [] := by
  have hd : ∀ c ∈ rest.head?, ¬ d.Continues c := fun c hc h => hrest c hc (.inl h)
  have hne : (if negative then -maxDouble else maxDouble) ≠ 10 := by
    have := ten_lt_maxDouble
    cases negative <;> grind
  have hweight := weight_inf_eq_iff negative
  rw [agrees_iff hrest, WeightText.text, read_numeral, numGet_of_inf hd hinf, WeightText.setter, hinf]
  -- the largest number matters only through the weight it sets
  generalize (if negative then -maxDouble else maxDouble) = largest at hne hweight ⊢
  rw [readNumeral_of_ne_ten (finite_ne_ten hne)]
  cases rest with
  | nil =>
    constructor
    · rintro ⟨w, hread, hw⟩
      obtain ⟨rfl, -⟩ := ReadResult.good.inj hread
      exact ⟨hweight.mp hw, rfl⟩
    · rintro ⟨hneg, -⟩
      exact ⟨_, rfl, hweight.mpr hneg⟩
  | cons c rest =>
    constructor
    · rintro ⟨w, hread, -⟩
      cases hread
    · rintro ⟨-, hnil⟩
      cases hnil

theorem agrees_num (hrest : ∀ c ∈ rest.head?, ¬ (WeightText.num d).Continues c) :
    Agrees (.num d) rest ↔ ReadAlike (.num d) rest := by
  rw [ReadAlike]
  cases hv : toDouble d.value with
  | finite q => exact agrees_num_of_finite hrest hv
  | inf negative => exact agrees_num_of_inf hrest hv

theorem agrees_expE (hrest : ∀ c ∈ rest.head?, ¬ d.Continues c) :
    Agrees (.expE d) rest ↔ ReadAlike (.expE d) rest := by
  have hread : read ('e' :: '^' :: d.text ++ rest) =
      expect (d.text ++ rest) fun f rest => .good (.setLn f) rest := rfl
  rw [agrees_iff hrest, WeightText.text, hread]
  simp only [ReadAlike, WeightText.setter]
  constructor
  · rintro ⟨w, hgood, -⟩
    by_contra h
    rw [expect_throws hrest] at hgood
    · cases hgood
    · cases hv : toDouble d.value with
      | inf negative => exact .inr ⟨negative, rfl⟩
      | finite q =>
        by_contra hne
        exact h ⟨fun hnil => hne (.inl hnil), q, hv⟩
  · rintro ⟨hne, q, hq⟩
    rw [expect_of_finite hrest hq hne, hq]
    exact ⟨_, rfl, rfl⟩

/-- The numeral in front of the power's mark. -/
def ten : Decimal where
  sign := none
  int := ['1', '0']
  frac := none
  exp := none
  isDigit_int := by simp
  isDigit_frac := by simp
  mantissa_ne_nil := by decide
  isDigit_exp := by simp
  exp_ne_nil := by simp
  mark := by simp

theorem toDouble_ten : toDouble ten.value = .finite 10 := by decide +kernel

/-- The stream reader goes on behind a power of ten as if its exponent were a number that it had
just read. -/
theorem read_exp10 : read ((WeightText.exp10 d).text ++ rest) =
    expect (d.text ++ rest) fun f rest => readTail f false rest := by
  have hhat : ∀ c ∈ ('^' :: (d.text ++ rest)).head?, ¬ ten.Continues c := by
    intro c hc
    obtain rfl := Option.some.inj hc
    rintro (h | h | h | h)
    · exact absurd h (by decide)
    · exact absurd h.1 (by decide)
    · exact absurd h.1 (by decide)
    · exact absurd h.1 (by decide)
  have htext : (WeightText.exp10 d).text ++ rest = ten.text ++ '^' :: (d.text ++ rest) := rfl
  rw [htext, read_numeral, numGet_of_finite hhat toDouble_ten, readNumeral_power]

theorem agrees_exp10 (hrest : ∀ c ∈ rest.head?, ¬ d.Continues c) : ¬ Agrees (.exp10 d) rest := by
  rw [agrees_iff hrest, read_exp10]
  rintro ⟨w, hread, hw⟩
  by_cases h : rest = [] ∨ ∃ negative, toDouble d.value = .inf negative
  · rw [expect_throws hrest h] at hread
    cases hread
  · rw [not_or] at h
    obtain ⟨hne, hinf⟩ := h
    cases hv : toDouble d.value with
    | inf negative => exact hinf ⟨negative, hv⟩
    | finite q =>
      rw [expect_of_finite hrest hv hne] at hread
      obtain rfl := eq_setReal_of_readTail hread
      rw [WeightText.setter, hv] at hw
      exact weight_setLog10_ne q hw

/-- A suffix behind a number: it is looked for only if the number is not ten. -/
theorem read_suffix (suffix : List Char) :
    read (d.text ++ 'l' :: suffix) = match toDouble d.value with
      | .finite q =>
        if q = 10 then .good (.setReal (.finite 10)) ('l' :: suffix)
        else readTail (.finite q) false ('l' :: suffix)
      | .inf _ => .bad := by
  have hl := not_continues_suffix (d := d) suffix
  rw [read_numeral]
  cases hv : toDouble d.value with
  | finite q =>
    rw [numGet_of_finite hl hv]
    by_cases hq : q = 10
    · subst hq
      exact readNumeral_ten rfl (by decide)
    · rw [readNumeral_of_ne_ten (finite_ne_ten hq)]
      exact (if_neg hq).symm
  | inf negative =>
    have hne : (if negative then -maxDouble else maxDouble) ≠ 10 := by
      have := ten_lt_maxDouble
      cases negative <;> grind
    rw [numGet_of_inf hl hv, readNumeral_of_ne_ten (finite_ne_ten hne)]
    rfl

theorem agrees_numln : Agrees (.numln d) rest ↔ ReadAlike (.numln d) rest := by
  have htext : (WeightText.numln d).text ++ rest = d.text ++ 'l' :: 'n' :: rest :=
    List.append_assoc ..
  rw [agrees_iff fun _ _ => id, htext, read_suffix]
  simp only [ReadAlike, WeightText.setter]
  cases toDouble d.value with
  | inf negative => simp
  | finite q =>
    by_cases hq : q = 10
    · have hne : 'l' :: 'n' :: rest ≠ rest := by
        intro h
        have hlength := congrArg List.length h
        simp only [List.length_cons] at hlength
        lia
      simp [hq, hne]
    · simp [hq, readTail]

theorem agrees_numlog : Agrees (.numlog d) rest ↔ ReadAlike (.numlog d) rest := by
  have htext : (WeightText.numlog d).text ++ rest = d.text ++ 'l' :: 'o' :: 'g' :: rest :=
    List.append_assoc ..
  rw [agrees_iff fun _ _ => id, htext, read_suffix]
  simp only [ReadAlike, WeightText.setter]
  cases toDouble d.value with
  | inf negative => simp
  | finite q =>
    by_cases hq : q = 10
    · have hne : 'l' :: 'o' :: 'g' :: rest ≠ rest := by
        intro h
        have hlength := congrArg List.length h
        simp only [List.length_cons] at hlength
        lia
      simp [hq, hne]
    · simp [hq, readTail]

/-- **Where the two readers agree.** For every spelling of every numeral, and every way for the
text to go on without continuing the spelling. -/
theorem agrees_iff_readAlike (t : WeightText) (rest : List Char)
    (hrest : ∀ c ∈ rest.head?, ¬ t.Continues c) : Agrees t rest ↔ ReadAlike t rest := by
  cases t with
  | num d => exact agrees_num hrest
  | expE d => exact agrees_expE hrest
  | exp10 d => exact iff_of_false (agrees_exp10 hrest) id
  | numln d => exact agrees_numln
  | numlog d => exact agrees_numlog

/-- The numeral `0.5`. -/
def half : Decimal where
  sign := none
  int := ['0']
  frac := some ['5']
  exp := none
  isDigit_int := by simp
  isDigit_frac := by simp
  mantissa_ne_nil := by decide
  isDigit_exp := by simp
  exp_ne_nil := by simp
  mark := by simp

theorem agrees_half : Agrees (.numln half) [')'] ↔ ReadAlike (.numln half) [')'] :=
  agrees_iff_readAlike (.numln half) [')'] fun _ _ => id

/-- `10ln)` is ten to the stream reader, which leaves `ln)`. -/
theorem not_agrees_tenln :
    ¬ ∀ (t : WeightText) (rest : List Char), (∀ c ∈ rest.head?, ¬ t.Continues c) → Agrees t rest := by
  intro h
  obtain ⟨w, w', -, hread, -⟩ := h (.numln ten) [')'] fun _ _ => id
  have htext : (WeightText.numln ten).text ++ [')'] = ten.text ++ ['l', 'n', ')'] := rfl
  rw [htext, read_suffix, toDouble_ten] at hread
  cases hread

end Carmel
