/-
# How the states of a composition are named

`TrioNamer` joins the names of the component states by separators in a bounded buffer, and
puts a joined text in quotes that begins with a quote, or has a space or a parenthesis in
it. What is said of a name here is whether `getString` reads it back.
-/

import Carmel.Train.SymbolText

namespace Carmel

namespace TrioNamer

/-- `limit - buf`, for a buffer of `MAX_STATENAME_LEN + 1` characters. -/
def room : ℕ := 15000 + 1 - 6

/-- `append_safe`: the text in the buffer and `str` behind it, unless that is too long. A
character that is not ASCII has no entry in `special`. -/
def appendSafe (buf str : List Char) : Option (List Char) :=
  if (str.all fun c => c.toNat < 128) ∧ (str = [] ∨ buf.length + str.length ≤ room) then
    some (buf ++ str)
  else none

def shouldQuote (buf : List Char) : Bool :=
  buf.head? = some '"' || buf.any fun c => c = '(' || c = ')' || c = ' '

/-- The loop of `finish`: a backslash before each quote and each backslash. -/
def escape : List Char → List Char
  | [] => []
  | c :: buf => if c = '"' ∨ c = '\\' then '\\' :: c :: escape buf else c :: escape buf

def finish (buf : List Char) : List Char :=
  if shouldQuote buf then '"' :: escape buf ++ ['"'] else buf

/-- What stands between the names of the two states. -/
def filterText (filter : Fin 3) : List Char := ['|', Char.ofNat (filter + '0'.toNat), '|']

/-- `make`. -/
def make (qa qb : List Char) (filter : Fin 3) : Option (List Char) :=
  (appendSafe [] qa).bind fun buf =>
    (appendSafe (buf ++ filterText filter) qb).map finish

/-- `make_mediate`. -/
def makeMediate (astate bstate middleLetter : List Char) : Option (List Char) :=
  (appendSafe [] bstate).bind fun buf =>
    (appendSafe (buf ++ [',']) middleLetter).bind fun buf =>
      (appendSafe (buf ++ ['-', '>']) astate).map finish

variable {buf buf' : List Char}

theorem escape_injective : Function.Injective escape := by
  intro buf
  induction buf with
  | nil =>
    intro buf' h
    cases buf' with
    | nil => rfl
    | cons c buf' =>
      rw [escape, escape] at h
      split at h <;> cases h
  | cons c buf ih =>
    intro buf' h
    cases buf' with
    | nil =>
      rw [escape, escape] at h
      split at h <;> cases h
    | cons c' buf' =>
      rw [escape, escape] at h
      -- an escaped character begins with a backslash, one that is not does not
      split at h
      case isTrue hc =>
        split at h
        · simp only [List.cons.injEq, true_and] at h
          rw [h.1, ih h.2]
        case isFalse hc' =>
          simp only [List.cons.injEq] at h
          exact absurd (.inr h.1.symm) hc'
      case isFalse hc =>
        split at h
        · simp only [List.cons.injEq] at h
          exact absurd (.inr h.1) hc
        · simp only [List.cons.injEq] at h
          rw [h.1, ih h.2]

theorem head?_ne_of_not_shouldQuote (h : shouldQuote buf = false) : buf.head? ≠ some '"' := by
  intro hhead
  simp [shouldQuote, hhead] at h

theorem finish_injective : Function.Injective finish := by
  intro buf buf' h
  rw [finish, finish] at h
  cases hq : shouldQuote buf with
  | true =>
    cases hq' : shouldQuote buf' with
    | true =>
      simp only [hq, hq', if_true, List.cons_append, List.cons.injEq, true_and,
        List.append_cancel_right_eq] at h
      exact escape_injective h
    | false =>
      simp only [hq, hq', if_true, Bool.false_eq_true, if_false] at h
      exact absurd (by rw [← h]; rfl) (head?_ne_of_not_shouldQuote hq')
  | false =>
    cases hq' : shouldQuote buf' with
    | true =>
      simp only [hq, hq', if_true, Bool.false_eq_true, if_false] at h
      exact absurd (by rw [h]; rfl) (head?_ne_of_not_shouldQuote hq)
    | false =>
      simpa only [hq, hq', Bool.false_eq_true, if_false] using h

end TrioNamer

open TrioNamer

/-- Before whatever ends a symbol, the name is the next symbol, and what ended it may be
consumed. -/
def ReadsBack (name : List Char) : Prop :=
  ∀ c, EndsPlain c → ∀ text, getString (name ++ c :: text) = some (name, c :: text) ∨
    getString (name ++ c :: text) = some (name, text)

/-- A text that is read as a symbol without quotes: it has nothing behind its first character
that ends a symbol, and no carriage return at the end; or it stands between stars and is in
lower case. -/
def Bare : List Char → Prop
  | [] => False
  | c :: v => isSpace c = false ∧ if c = '*' then
        v.getLast? = some '*' ∧ (∀ d ∈ v.dropLast, d ≠ '*' ∧ d.toLower = d) ∧ v.length ≤ bufferRoom
      else (∀ d ∈ v, ¬EndsPlain d) ∧ (c :: v).getLast? ≠ some '\r' ∧ v.length < bufferRoom

/-- A joined text whose name is read back: one that is quoted and short enough, or one that
needs no quotes. -/
def Readable (buf : List Char) : Prop :=
  if shouldQuote buf then (escape buf).length < bufferRoom else Bare buf

instance : DecidablePred EndsPlain :=
  fun c => inferInstanceAs (Decidable (c = '\n' ∨ c = '\t' ∨ c = ' ' ∨ c = '!' ∨ c = ')'))

instance : DecidablePred Bare
  | [] => inferInstanceAs (Decidable False)
  | c :: v =>
    have : Decidable (∀ d ∈ v.dropLast, d ≠ '*' ∧ d.toLower = d) := List.decidableBAll ..
    have : Decidable (∀ d ∈ v, ¬EndsPlain d) := List.decidableBAll ..
    inferInstanceAs (Decidable (isSpace c = false ∧ if c = '*' then _ else _))

instance : DecidablePred Readable :=
  fun buf => inferInstanceAs (Decidable (if shouldQuote buf then _ else _))

section Reading

variable {buf v rest text : List Char} {c : Char}

theorem quotedRest_escape (buf rest : List Char) (room : ℕ) :
    quotedRest false room (escape buf ++ '"' :: rest) =
      if (escape buf).length < room then some (escape buf ++ ['"'], rest) else none := by
  induction buf generalizing room with
  | nil =>
    cases room with
    | zero => rfl
    | succ room => simp [escape, quotedRest]
  | cons c buf ih =>
    by_cases hc : c = '"' ∨ c = '\\'
    · have hesc : escape (c :: buf) = '\\' :: c :: escape buf := by rw [escape, if_pos hc]
      rw [hesc]
      cases room with
      | zero => rfl
      | succ room =>
        cases room with
        | zero => rfl
        | succ room =>
          -- the backslash is read, and the character after it does not end the symbol
          simp only [List.cons_append, quotedRest, Char.reduceEq, false_and, if_false,
            decide_true, Bool.not_false, Bool.and_true, Bool.true_eq_false, and_false,
            Bool.not_true, Bool.and_false, ih, List.length_cons,
            Nat.add_lt_add_iff_right]
          split <;> rfl
    · have hesc : escape (c :: buf) = c :: escape buf := by rw [escape, if_neg hc]
      rw [not_or] at hc
      rw [hesc]
      cases room with
      | zero => rfl
      | succ room =>
        simp only [List.cons_append, quotedRest, hc.1, hc.2, false_and, if_false, decide_false,
          Bool.false_and, ih, List.length_cons, Nat.add_lt_add_iff_right]
        split <;> rfl

theorem specialRest_eq_some_iff {room : ℕ} : specialRest room text = some (v, rest) ↔
    ∃ u, text = u ++ '*' :: rest ∧ '*' ∉ u ∧ v = u.map Char.toLower ++ ['*'] ∧ u.length < room := by
  induction text generalizing room v with
  | nil =>
    constructor
    · intro h
      simp [specialRest] at h
    · rintro ⟨u, hu, -⟩
      cases u <;> cases hu
  | cons c text ih =>
    cases room with
    | zero => simp [specialRest]
    | succ room =>
      by_cases hc : c = '*'
      · subst hc
        simp only [specialRest, if_true, Option.some.injEq, Prod.mk.injEq]
        constructor
        · rintro ⟨rfl, rfl⟩
          exact ⟨[], rfl, List.not_mem_nil, rfl, Nat.succ_pos room⟩
        · rintro ⟨u, hu, hstar, rfl, -⟩
          cases u with
          | nil => exact ⟨rfl, (List.cons.inj hu).2⟩
          | cons d u => exact absurd ((List.cons.inj hu).1 ▸ List.mem_cons_self) hstar
      · simp only [specialRest, if_neg hc, Option.map_eq_some_iff, Prod.mk.injEq, Prod.exists]
        constructor
        · rintro ⟨v, rest', hv, rfl, rfl⟩
          obtain ⟨u, rfl, hstar, rfl, hlen⟩ := ih.mp hv
          refine ⟨c :: u, rfl, ?_, rfl, by simpa using hlen⟩
          simp [hstar, Ne.symm hc]
        · rintro ⟨u, hu, hstar, rfl, hlen⟩
          cases u with
          | nil => exact absurd (List.cons.inj hu).1 hc
          | cons d u =>
            obtain ⟨rfl, rfl⟩ := List.cons.inj hu
            exact ⟨_, rest, ih.mpr ⟨u, rfl, fun h => hstar (List.mem_cons_of_mem _ h), rfl,
              by simpa using hlen⟩, rfl, rfl⟩

/-- A symbol without delimiters is read up to what ends it. -/
theorem plainRest_append {room : ℕ} (hv : ∀ d ∈ v, ¬EndsPlain d) (hlen : v.length < room)
    (hc : EndsPlain c) (tail : List Char) :
    plainRest room (v ++ c :: tail) = some (v, c :: tail) ∨
      plainRest room (v ++ c :: tail) = some (v, tail) := by
  induction v generalizing room with
  | nil =>
    cases room with
    | zero => simp at hlen
    | succ room => rcases hc with rfl | rfl | rfl | rfl | rfl <;> simp [plainRest]
  | cons d v ih =>
    cases room with
    | zero => simp at hlen
    | succ room =>
      rw [List.cons_append, plainRest_cons (hv d List.mem_cons_self)]
      rcases ih (fun e he => hv e (List.mem_cons_of_mem _ he)) (by simpa using hlen) with h | h
      · exact .inl (by rw [h]; rfl)
      · exact .inr (by rw [h]; rfl)

theorem Bare.readsBack (h : Bare buf) (hq : shouldQuote buf = false) : ReadsBack buf := by
  cases buf with
  | nil => exact h.elim
  | cons d v =>
    obtain ⟨hspace, h⟩ := h
    have hquote : d ≠ '"' := fun hd => head?_ne_of_not_shouldQuote hq (by rw [hd]; rfl)
    intro c hc text
    by_cases hstar : d = '*'
    · left
      rw [if_pos hstar] at h
      obtain ⟨hlast, hchars, hlen⟩ := h
      have hv : v = v.dropLast ++ ['*'] := (List.dropLast_append_getLast? _ hlast).symm
      have hread : specialRest bufferRoom (v ++ c :: text) = some (v, c :: text) := by
        refine specialRest_eq_some_iff.mpr ⟨v.dropLast, ?_, fun h => (hchars _ h).1 rfl, ?_, ?_⟩
        · conv_lhs => rw [hv, List.append_assoc, List.singleton_append]
        · rw [List.map_congr_left fun d hd => (hchars d hd).2, List.map_id']
          exact hv
        · rw [hv, List.length_append, List.length_singleton] at hlen
          exact hlen
      simp only [getString, List.cons_append, List.dropWhile_cons, hspace, Bool.false_eq_true,
        if_false, if_neg hquote, if_pos hstar, hread, Option.map_some]
    · rw [if_neg hstar] at h
      obtain ⟨hv, hlast, hlen⟩ := h
      have hparen : ¬ (d = '(' ∨ d = ')') := by
        rintro (rfl | rfl) <;> simp [shouldQuote] at hq
      have hdrop : dropCr (d :: v) = d :: v := dropCr_of_getLast? hlast
      simp only [getString, List.cons_append, List.dropWhile_cons, hspace, Bool.false_eq_true,
        if_false, if_neg hquote, if_neg hstar, if_neg hparen]
      rcases plainRest_append hv hlen hc text with h | h
      · exact .inl (by rw [h, Option.map_some, hdrop])
      · exact .inr (by rw [h, Option.map_some, hdrop])

/-- A name without quotes that is read back before a space. -/
theorem bare_of_getString (hq : shouldQuote buf = false) (hrest : rest ≠ [])
    (h : getString (buf ++ ' ' :: text) = some (buf, rest)) : Bare buf := by
  obtain ⟨c, tail, v, htext, hspace, hcase⟩ := getString_cases h
  have hname : ∃ w, buf = c :: w := by
    rcases hcase with ⟨-, -, hname⟩ | ⟨-, -, hname⟩ | ⟨-, -, hname⟩
    · exact ⟨_, hname⟩
    · exact ⟨_, hname⟩
    · obtain ⟨w, hdrop, -⟩ := dropCr_cons hspace v
      exact ⟨w, hname.trans hdrop⟩
  obtain ⟨w, hw⟩ := hname
  have htail : tail = w ++ ' ' :: text := by
    rw [hw, List.cons_append, List.dropWhile_cons, hspace] at htext
    exact (List.cons.inj htext).2.symm
  rw [hw]
  refine ⟨hspace, ?_⟩
  rcases hcase with ⟨rfl, -, -⟩ | ⟨rfl, hv, hname⟩ | ⟨hc, hv, hname⟩
  · exact absurd (by rw [hw]; rfl) (head?_ne_of_not_shouldQuote hq)
  · -- the symbol is as long as what it was read from
    obtain ⟨u, hu, hstar, rfl, hlen⟩ := specialRest_eq_some_iff.mp hv
    have hwu : w = u.map Char.toLower ++ ['*'] := (List.cons.inj (hw.symm.trans hname)).2
    have hlower : u.map Char.toLower = u := by
      have := hu.symm.trans (htail.trans (by rw [hwu, List.append_assoc]))
      exact (List.append_inj_left this (by simp)).symm
    rw [hlower] at hwu
    rw [if_pos rfl, hwu, List.getLast?_concat, List.dropLast_concat, List.length_append,
      List.length_singleton]
    refine ⟨rfl, fun d hd => ⟨fun hd' => hstar (hd' ▸ hd), ?_⟩, hlen⟩
    exact List.map_inj_left.mp (hlower.trans (List.map_id u).symm) d hd
  · obtain ⟨hchars, -, hlt, u, hu⟩ := plainRest_spec hv
    by_cases hcr : (c :: v).getLast? = some '\r'
    · -- a carriage return that was dropped would stand where the space is
      rw [dropCr, if_pos hcr] at hname
      have hcv : c :: v = buf ++ ['\r'] := by
        rw [hname]
        exact (List.dropLast_append_getLast? _ hcr).symm
      have htext' : buf ++ ' ' :: text = buf ++ '\r' :: (u ++ rest) := by
        calc buf ++ ' ' :: text = c :: tail := by rw [htail, hw, List.cons_append]
          _ = c :: v ++ (u ++ rest) := by rw [hu, List.append_assoc, List.cons_append]
          _ = buf ++ '\r' :: (u ++ rest) := by rw [hcv, List.append_assoc, List.singleton_append]
      exact absurd (List.cons.inj (List.append_cancel_left htext')).1 (by decide)
    · have hwv : w = v := by
        rw [dropCr_of_getLast? hcr] at hname
        exact (List.cons.inj (hw.symm.trans hname)).2
      subst hwv
      rw [if_neg hc.2.1]
      exact ⟨hchars, hcr, hlt hrest⟩

theorem readsBack_finish_iff : ReadsBack (finish buf) ↔ Readable buf := by
  have hspace : EndsPlain ' ' := .inr (.inr (.inl rfl))
  rw [Readable, finish]
  cases hq : shouldQuote buf with
  | true =>
    simp only [if_true]
    have hread (c : Char) (text : List Char) : getString (('"' :: escape buf ++ ['"']) ++ c :: text) =
        if (escape buf).length < bufferRoom then some ('"' :: escape buf ++ ['"'], c :: text)
        else none := by
      have := quotedRest_escape buf (c :: text) bufferRoom
      simp only [getString, List.cons_append, List.append_assoc, List.nil_append, isSpace,
        List.dropWhile_cons, Char.reduceEq, decide_false, Bool.or_self, Bool.false_eq_true,
        if_false, if_true, this]
      split <;> rfl
    constructor
    · intro h
      by_contra hlen
      have := h ' ' hspace []
      rw [hread, if_neg hlen] at this
      simp at this
    · intro hlen c _ text
      exact .inl (by rw [hread, if_pos hlen])
  | false =>
    simp only [Bool.false_eq_true, if_false]
    constructor
    · intro h
      rcases h ' ' hspace ['x'] with h | h
      · exact bare_of_getString hq (by simp) h
      · exact bare_of_getString hq (by simp) h
    · intro h
      exact h.readsBack hq

end Reading

end Carmel
