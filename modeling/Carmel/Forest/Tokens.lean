/-
# Any text as tokens

Whatever the text is, the readers take a token from its front in each turn, or report that
they cannot. What a token does depends on the places of the parentheses that are open, the
names and the room, and not on the nodes that were read before.
-/

import Carmel.Forest.ReadText

namespace Carmel.Forest

open Carmel.Math

inductive Token
  | opening (id? : Option ℕ)
  | ref (id : ℕ)
  | rule
  | or
  | closing
deriving DecidableEq, Repr

/-- The token at the front of a text, and the text that can be read after it. -/
def lex (text : List Char) : Option (Token × List Char) :=
  match skipSpaces text with
  | [] => none
  | c :: text =>
    if c = '#' then
      match ReadState.readBackref text with
      | .error _ => none
      | .ok (id, c, text) =>
        if c = '(' then some (.opening (some id), text) else some (.ref id, c :: text)
    else if c = '(' then some (.opening none, text)
    else if c.isDigit && c ≠ '0' then
      match readNumber (c :: text) with
      | none => none
      | some (n, rest) => some (.rule, if n < 4294967296 then rest else [])
    else if c = 'O' then
      match ReadState.expectR text with
      | .error _ => none
      | .ok text => some (.or, text)
    else if c = ')' then some (.closing, text)
    else none

/-- At most `rounds` tokens. -/
def lexAll : ℕ → List Char → List Token
  | 0, _ => []
  | rounds + 1, text =>
    match lex text with
    | none => []
    | some (token, rest) => token :: lexAll rounds rest

/-- The tokens of a text, up to where a reader can read no more. -/
def tokens (text : List Char) : List Token := lexAll text.length text

/-- What is still to be read from a stream. -/
def ReadState.ahead (s : ReadState) : List Char := if s.good then s.text else []

section Length

variable {text rest : List Char} {id n : ℕ} {c : Char}

theorem length_skipSpaces_le (text : List Char) : (skipSpaces text).length ≤ text.length :=
  (List.dropWhile_suffix _).length_le

theorem length_lt_of_readNumber (h : readNumber text = some (n, rest)) :
    rest.length < text.length := by
  unfold readNumber at h
  split at h
  · cases h
  · rename_i d ds htake
    cases Option.some.inj h
    have hlen := congrArg List.length (List.takeWhile_append_dropWhile (p := Char.isDigit) (l := text))
    rw [htake, List.length_append, List.length_cons] at hlen
    omega

theorem exists_readNumber (hc : c.isDigit = true) (text : List Char) :
    ∃ n rest, readNumber (c :: text) = some (n, rest) := by
  unfold readNumber
  rw [List.takeWhile_cons_of_pos hc]
  exact ⟨_, _, rfl⟩

theorem length_lt_of_readBackref (h : ReadState.readBackref text = .ok (id, c, rest)) :
    rest.length + 1 < text.length := by
  unfold ReadState.readBackref at h
  split at h
  · cases h
  · cases h
  · rename_i id' c' text' hread
    cases Except.ok.inj h
    have hlt := length_lt_of_readNumber hread
    have hle := length_skipSpaces_le text
    rw [List.length_cons] at hlt
    omega

theorem ne_undefined_of_readBackref {e : ReadFailure} (h : ReadState.readBackref text = .error e) :
    e ≠ .undefined := by
  unfold ReadState.readBackref at h
  split at h
  · cases Except.error.inj h
    nofun
  · cases Except.error.inj h
    nofun
  · cases h

theorem eq_of_expectR (h : ReadState.expectR text = .ok rest) : text = 'R' :: rest := by
  unfold ReadState.expectR at h
  split at h
  · cases h
  · split_ifs at h with hc
    rw [hc, Except.ok.inj h]

theorem ne_undefined_of_expectR {e : ReadFailure} (h : ReadState.expectR text = .error e) :
    e ≠ .undefined := by
  unfold ReadState.expectR at h
  split at h
  · cases Except.error.inj h
    nofun
  · split_ifs at h
    cases Except.error.inj h
    nofun

end Length

/-! ## What a token is spelled like -/

/-- Where white space has been passed over, a token is in front. -/
inductive Lexes : List Char → Token → List Char → Prop
  | named {id : ℕ} {tail rest : List Char} (h : ReadState.readBackref tail = .ok (id, '(', rest)) :
      Lexes ('#' :: tail) (.opening (some id)) rest
  | paren (rest : List Char) : Lexes ('(' :: rest) (.opening none) rest
  | ref {id : ℕ} {c : Char} {tail rest : List Char}
      (h : ReadState.readBackref tail = .ok (id, c, rest)) (hc : c ≠ '(') :
      Lexes ('#' :: tail) (.ref id) (c :: rest)
  | rule {d : Char} {n : ℕ} {tail rest : List Char} (hd : d.isDigit = true) (hzero : d ≠ '0')
      (h : readNumber (d :: tail) = some (n, rest)) :
      Lexes (d :: tail) .rule (if n < 4294967296 then rest else [])
  | or (rest : List Char) : Lexes ('O' :: 'R' :: rest) .or rest
  | closing (rest : List Char) : Lexes (')' :: rest) .closing rest

/-- Where white space has been passed over, no token is in front. -/
inductive Unlexed : List Char → Prop
  | nil : Unlexed []
  | name {tail : List Char} {e : ReadFailure} (h : ReadState.readBackref tail = .error e) :
      Unlexed ('#' :: tail)
  | or {tail : List Char} {e : ReadFailure} (h : ReadState.expectR tail = .error e) :
      Unlexed ('O' :: tail)
  | other {c : Char} {tail : List Char} (hname : c ≠ '#') (hparen : c ≠ '(')
      (hdigit : (c.isDigit && c ≠ '0') = false) (hO : c ≠ 'O') (hclose : c ≠ ')') :
      Unlexed (c :: tail)

section Lexes

variable {text rest : List Char} {token : Token}

theorem unlexed_of_lex (h : lex text = none) : Unlexed (skipSpaces text) := by
  unfold lex at h
  split at h
  · rename_i hskip
    rw [hskip]
    exact .nil
  · rename_i c tail hskip
    rw [hskip]
    split at h
    · rename_i hc
      subst hc
      split at h
      · rename_i e hread
        exact .name hread
      · split_ifs at h
    · rename_i hname
      split_ifs at h with hparen hdigit hO hclose
      · obtain ⟨n, rest, hread⟩ := exists_readNumber (Bool.and_eq_true _ _ ▸ hdigit).1 tail
        rw [hread] at h
        cases h
      · subst hO
        split at h
        · rename_i e hexpect
          exact .or hexpect
        · cases h
      · exact .other hname hparen (Bool.not_eq_true _ ▸ hdigit) hO hclose

theorem lexes_of_lex (h : lex text = some (token, rest)) : Lexes (skipSpaces text) token rest := by
  unfold lex at h
  split at h
  · cases h
  · rename_i c tail hskip
    rw [hskip]
    split at h
    · rename_i hc
      subst hc
      split at h
      · cases h
      · rename_i id d t hread
        split_ifs at h with hd
        · subst hd
          cases h
          exact .named hread
        · cases h
          exact .ref hread hd
    · split_ifs at h with hparen hdigit hO hclose
      · cases h
        exact hparen ▸ .paren _
      · split at h
        · cases h
        · rename_i n t hread
          cases h
          simp only [Bool.and_eq_true, decide_eq_true_eq] at hdigit
          exact .rule hdigit.1 hdigit.2 hread
      · split at h
        · cases h
        · rename_i t hexpect
          cases h
          rw [hO, eq_of_expectR hexpect]
          exact .or _
      · cases h
        exact hclose ▸ .closing _

theorem Lexes.length_lt (h : Lexes text token rest) : rest.length < text.length := by
  cases h with
  | named h =>
    have := length_lt_of_readBackref h
    rw [List.length_cons]
    omega
  | paren => exact Nat.lt_succ_self _
  | ref h =>
    have := length_lt_of_readBackref h
    rw [List.length_cons, List.length_cons]
    omega
  | rule _ _ h =>
    have := length_lt_of_readNumber h
    split_ifs
    · exact this
    · exact Nat.succ_pos _
  | or => exact Nat.lt_succ_of_lt (Nat.lt_succ_self _)
  | closing => exact Nat.lt_succ_self _

theorem length_lt_of_lex (h : lex text = some (token, rest)) : rest.length < text.length :=
  Nat.lt_of_lt_of_le (lexes_of_lex h).length_lt (length_skipSpaces_le text)

end Lexes

section Rounds

/-- A failure that the caller is told of. -/
def Reported {α : Type*} (result : Except ReadFailure α) : Prop :=
  ∃ e, result = .error e ∧ e ≠ .undefined

/-- The reader reports in its next round. -/
def ReportsAt (loop : ℕ → ReadState → Except ReadFailure ReadState) (s : ReadState) : Prop :=
  ∀ fuel, Reported (loop (fuel + 1) s)

/-- The reader reports in the round after the next. -/
def ReportsSoon (loop : ℕ → ReadState → Except ReadFailure ReadState) (s : ReadState) : Prop :=
  ∀ fuel, Reported (loop (fuel + 2) s)

/-- In its next round the reader does what the source leaves undefined. -/
def UndefinedAt (loop : ℕ → ReadState → Except ReadFailure ReadState) (s : ReadState) : Prop :=
  ∀ fuel, loop (fuel + 1) s = .error .undefined

/-- The reader returns after its next round. -/
def Returns (loop : ℕ → ReadState → Except ReadFailure ReadState) (s s' : ReadState) : Prop :=
  ∀ fuel, loop (fuel + 1) s = .ok s'

namespace ReadState

/-- One node more has been read. -/
structure Adds (s s' : ReadState) (node : ForestNode) (rest : List Char) : Prop where
  memory : s'.memory = Function.update s.memory s.stop node
  stop : s'.stop = s.stop + 1
  openParens : s'.openParens = s.openParens
  backrefs : s'.backrefs = s.backrefs
  followsParen : s'.followsParen = false
  ahead : s'.ahead = rest

/-- The parenthesis at `top` has been closed. Where no node was read after it, only the
reader of streams (`streams`) writes to the place of the next node. -/
structure Closes (streams : Bool) (s s' : ReadState) (top : ℕ) (openParens : List ℕ)
    (rest : List Char) : Prop where
  next : streams = true ∨ top < s.stop → (s'.memory top).next = s.stop
  kept : streams = false → ¬ top < s.stop → s'.memory top = s.memory top
  label : (s'.memory top).label = (s.memory top).label
  memory : ∀ i, i ≠ top → s'.memory i = s.memory i
  stop : s'.stop = s.stop
  openParens : s'.openParens = openParens
  backrefs : s'.backrefs = s.backrefs
  followsParen : s'.followsParen = s.followsParen
  ahead : s'.ahead = rest

end ReadState

/-- What each token does in a reader, at a state with or without room for a node. The reader
of streams runs out of space when a parenthesis of the root is closed and it has to go on. -/
structure TokenRounds (loop : ℕ → ReadState → Except ReadFailure ReadState) (streams : Bool)
    (full : Prop) (s : ReadState) : Prop where
  none : lex s.ahead = none → ReportsAt loop s
  refused : ∀ {id? rest}, lex s.ahead = some (.opening id?, rest) → id?.isSome = true →
    s.followsParen = true → ReportsAt loop s
  opened : ∀ {id? rest}, lex s.ahead = some (.opening id?, rest) →
    (id?.isSome = true → s.followsParen = false) → Reads loop s (s.opened id? rest)
  noPointer : ∀ {id rest}, lex s.ahead = some (.ref id, rest) → s.followsParen = true ∨ full →
    ReportsAt loop s
  noName : ∀ {id rest}, lex s.ahead = some (.ref id, rest) → s.followsParen = false → ¬ full →
    s.backrefs id = Option.none → UndefinedAt loop s
  shared : ∀ {id rest target}, lex s.ahead = some (.ref id, rest) → s.followsParen = false →
    ¬ full → s.openParens ≠ [] → s.backrefs id = some target → Reads loop s (s.shared target rest)
  noRoom : ∀ {token rest}, lex s.ahead = some (token, rest) → token = .rule ∨ token = .or → full →
    ReportsAt loop s
  noParen : ∀ {rest}, lex s.ahead = some (.or, rest) → s.followsParen = false → ReportsAt loop s
  leaf : ∀ {rest}, lex s.ahead = some (.rule, rest) → s.followsParen = false → ¬ full →
    ∃ s' rule, s.Adds s' ⟨s.stop + 1, .integer rule⟩ rest ∧
      (s.openParens = [] → Returns loop s s') ∧ (s.openParens ≠ [] → Reads loop s s')
  labelled : ∀ {token rest}, lex s.ahead = some (token, rest) → token = .rule ∨ token = .or →
    s.followsParen = true → ¬ full → s.openParens ≠ [] →
    ∃ s' label, s.Adds s' ⟨(s.memory s.stop).next, .integer label⟩ rest ∧ Reads loop s s'
  noOpen : ∀ {rest}, lex s.ahead = some (.closing, rest) → s.openParens = [] → UndefinedAt loop s
  early : ∀ {rest openParens}, streams = true → lex s.ahead = some (.closing, rest) →
    s.openParens = 0 :: openParens → openParens ≠ [] ∨ s.stop = 0 → ReportsSoon loop s
  closed : ∀ {rest top openParens}, lex s.ahead = some (.closing, rest) →
    s.openParens = top :: openParens → top ≤ s.stop →
    (streams = true → top = 0 → openParens = [] ∧ s.stop ≠ 0) →
    ∃ s', ReadState.Closes streams s s' top openParens rest ∧
      (openParens = [] → Returns loop s s') ∧ (openParens ≠ [] → Reads loop s s')

variable {s : ReadState} {c : Char} {text rest : List Char} {token : Token}

namespace ReadState

theorem extract_ahead : s.extract = match skipSpaces s.ahead with
    | [] => none
    | c :: text => some (c, text) := by
  unfold extract ahead
  cases s.good <;> rfl

theorem good_of_lex (h : lex s.ahead = some (token, rest)) : s.good = true := by
  by_contra hbad
  rw [ahead, if_neg hbad] at h
  cases h

theorem ahead_of_good (h : s.good = true) : s.ahead = s.text := if_pos h

theorem exists_extract (h : lex s.ahead = some (token, rest)) : ∃ c tail,
    s.extract = some (c, tail) ∧ Lexes (c :: tail) token rest ∧
      (c :: tail).length ≤ s.text.length ∧ rest.length < s.text.length := by
  have hlexes := lexes_of_lex h
  have hle := length_skipSpaces_le s.ahead
  have hlt := length_lt_of_lex h
  rw [extract_ahead]
  rw [ahead_of_good (good_of_lex h)] at hlexes hle hlt ⊢
  cases hskip : skipSpaces s.text with
  | nil =>
    rw [hskip] at hlexes
    cases hlexes
  | cons c tail => exact ⟨c, tail, rfl, hskip ▸ hlexes, hskip ▸ hle, hlt⟩

theorem ne_undefined_noInput : s.noInput ≠ .undefined := by
  unfold noInput
  split_ifs <;> nofun

end ReadState

open ReadState

/-- A reader that cannot read a token reports it. -/
theorem reported_genioStep (h : lex s.ahead = none) : Reported (genioStep s) := by
  have hno := unlexed_of_lex h
  unfold genioStep
  by_cases hfull : (s.memory 0).next ≤ s.stop
  · rw [if_pos hfull]
    exact ⟨_, rfl, nofun⟩
  rw [if_neg hfull, extract_ahead]
  generalize skipSpaces s.ahead = text at hno
  cases hno with
  | nil => exact ⟨_, rfl, ne_undefined_noInput⟩
  | @name _ e hread =>
    cases hfollows : s.followsParen with
    | true => exact ⟨_, rfl, nofun⟩
    | false =>
      simp only [hread]
      exact ⟨e, rfl, ne_undefined_of_readBackref hread⟩
  | @or _ e hexpect =>
    simp only [hexpect]
    exact ⟨e, rfl, ne_undefined_of_expectR hexpect⟩
  | other hname hparen hdigit hO hclose =>
    simp only [hname, hparen, hdigit, hO, hclose, if_false]
    exact ⟨_, rfl, nofun⟩

theorem reported_allocStep {limit : ℕ} (h : lex s.ahead = none) : Reported (allocStep limit s) := by
  have hno := unlexed_of_lex h
  unfold allocStep
  rw [extract_ahead]
  generalize skipSpaces s.ahead = text at hno
  cases hno with
  | nil => exact ⟨_, rfl, ne_undefined_noInput⟩
  | @name _ e hread =>
    cases hfollows : s.followsParen with
    | true => exact ⟨_, rfl, nofun⟩
    | false =>
      simp only [hread]
      exact ⟨e, rfl, ne_undefined_of_readBackref hread⟩
  | @or _ e hexpect =>
    simp only [hexpect]
    exact ⟨e, rfl, ne_undefined_of_expectR hexpect⟩
  | other hname hparen hdigit hO hclose =>
    simp only [hname, hparen, hdigit, hO, hclose, if_false]
    exact ⟨_, rfl, nofun⟩

/-- After the characters of a token. -/
def ReadState.passed (s : ReadState) (maxRuleid : ℕ) (good : Bool) (text : List Char) : ReadState :=
  { s with maxRuleid := maxRuleid, good := good, text := text, first := false }

theorem exists_readRule {d : Char} {n : ℕ} (h : readNumber (d :: text) = some (n, rest)) :
    ∃ rule m good, s.readRule d text = (rule, s.passed m good rest) ∧
      (s.passed m good rest).ahead = if n < 4294967296 then rest else [] := by
  refine ⟨_, _, decide (n < 4294967296), by rw [readRule, h]; rfl, ?_⟩
  simp only [passed, ReadState.ahead, decide_eq_true_eq]

section Adds

variable {m rule : ℕ} {good : Bool}

theorem adds_leaf (hahead : (s.passed m good text).ahead = rest) (h : s.followsParen = false) :
    s.Adds ((s.passed m good text).setLabel (.integer rule)).stopNext
      ⟨s.stop + 1, .integer rule⟩ rest := by
  refine ⟨?_, rfl, rfl, rfl, h, hahead⟩
  simp [passed, stopNext, setLabel, setNext]

theorem adds_labelled (hahead : (s.passed m good text).ahead = rest) :
    s.Adds { (s.passed m good text).setLabel (.integer rule) with
      followsParen := false, stop := s.stop + 1 } ⟨(s.memory s.stop).next, .integer rule⟩ rest :=
  ⟨rfl, rfl, rfl, rfl, rfl, hahead⟩

variable (rest) in
theorem adds_shared (target : ℕ) (hgood : s.good = true) (h : s.followsParen = false) :
    s.Adds (s.shared target rest) ⟨s.stop + 1, .pointer target⟩ rest := by
  refine ⟨?_, rfl, rfl, rfl, h, if_pos hgood⟩
  simp [shared, stopNext, setLabel, setNext]

theorem closes_closed {streams : Bool} {top : ℕ} {openParens : List ℕ} (hgood : s.good = true)
    (h : streams = true ∨ top < s.stop) :
    ReadState.Closes streams s (s.closed top openParens rest) top openParens rest := by
  refine ⟨fun _ => ?_, ?_, ?_, ?_, rfl, rfl, rfl, rfl, if_pos hgood⟩
  · simp [ReadState.closed, setNext]
  · intro hno hstop
    rcases h with hyes | hlt
    · rw [hno] at hyes
      cases hyes
    · exact absurd hlt hstop
  · simp [ReadState.closed, setNext]
  · intro i hi
    simp [ReadState.closed, setNext, Function.update_of_ne hi]

end Adds

/-! ## A step of both readers -/

/-- In its next round a reader does a step, which tells whether it is done. -/
structure Rounds (loop : ℕ → ReadState → Except ReadFailure ReadState)
    (step : ReadState → Except ReadFailure (Bool × ReadState)) (s : ReadState) : Prop where
  error : ∀ {e}, step s = .error e → ∀ fuel, loop (fuel + 1) s = .error e
  done : ∀ {s'}, step s = .ok (true, s') → Returns loop s s'
  more : ∀ {s'}, step s = .ok (false, s') → ∀ fuel, loop (fuel + 1) s = loop fuel s'

theorem Rounds.reported {loop : ℕ → ReadState → Except ReadFailure ReadState}
    {step : ReadState → Except ReadFailure (Bool × ReadState)} (h : Rounds loop step s)
    (hstep : Reported (step s)) : ReportsAt loop s := by
  intro fuel
  rcases hstep with ⟨e, he, hne⟩
  exact ⟨e, h.error he fuel, hne⟩

/-- The tokens that both readers take alike. -/
def Token.Plain (s : ReadState) : Token → Prop
  | .opening _ => False
  | .ref _ => s.followsParen = false
  | .closing => s.openParens = []
  | _ => True

/-- What the plain tokens do is told by a step of the reader with an allocator. -/
theorem tokenRounds_of {loop : ℕ → ReadState → Except ReadFailure ReadState} {streams : Bool}
    {full : Prop} {limit : ℕ} (hfull : full ↔ limit ≤ s.stop)
    (hplain : ∀ {token rest}, lex s.ahead = some (token, rest) → token.Plain s →
      Rounds loop (allocStep limit) s)
    (hnone : lex s.ahead = none → ReportsAt loop s)
    (hname : ∀ {tail}, s.extract = some ('#', tail) → s.followsParen = true → ReportsAt loop s)
    (hopened : ∀ {id? rest}, lex s.ahead = some (.opening id?, rest) →
      (id?.isSome = true → s.followsParen = false) → Reads loop s (s.opened id? rest))
    (hearly : ∀ {rest openParens}, streams = true → lex s.ahead = some (.closing, rest) →
      s.openParens = 0 :: openParens → openParens ≠ [] ∨ s.stop = 0 → ReportsSoon loop s)
    (hclosed : ∀ {rest top openParens}, lex s.ahead = some (.closing, rest) →
      s.openParens = top :: openParens → top ≤ s.stop →
      (streams = true → top = 0 → openParens = [] ∧ s.stop ≠ 0) →
      ∃ s', ReadState.Closes streams s s' top openParens rest ∧
        (openParens = [] → Returns loop s s') ∧ (openParens ≠ [] → Reads loop s s')) :
    TokenRounds loop streams full s where
  none := hnone
  refused {id? rest} h hid hfollows := by
    obtain ⟨c, tail, hextract, hlexes, -⟩ := exists_extract h
    cases hlexes with
    | named => exact hname hextract hfollows
    | paren => cases hid
  opened := hopened
  noPointer {id rest} h hor := by
    obtain ⟨c, tail, hextract, hlexes, -⟩ := exists_extract h
    cases hlexes with
    | ref hread hc =>
      cases hfollows : s.followsParen with
      | true => exact hname hextract hfollows
      | false =>
        have hle := hfull.mp (hor.resolve_left (by simp [hfollows]))
        apply (hplain h hfollows).reported
        rw [allocStep, hextract]
        simp only [hfollows, if_true, hread, if_neg hc, if_pos hle]
        exact ⟨_, rfl, by rintro ⟨⟩⟩
  noName {id rest} h hfollows hroom hname := by
    rw [hfull] at hroom
    obtain ⟨c, tail, hextract, hlexes, -⟩ := exists_extract h
    apply (hplain h hfollows).error
    rw [allocStep, hextract]
    cases hlexes with
    | ref hread hc => simp [hfollows, hread, hc, hname, hroom]
  shared {id rest target} h hfollows hroom hopen hname := by
    rw [hfull] at hroom
    obtain ⟨c, tail, hextract, hlexes, -, hlt⟩ := exists_extract h
    apply Reads.step (show (s.shared target rest).text.length < s.text.length from hlt)
    apply (hplain h hfollows).more
    rw [allocStep, hextract]
    cases hlexes with
    | ref hread hc => simp [hfollows, hread, hc, hname, hroom, ReadState.shared]
  noRoom {token rest} h htoken hno := by
    rw [hfull] at hno
    obtain ⟨c, tail, hextract, hlexes, -⟩ := exists_extract h
    cases hlexes with
    | @rule d n tail rest' hd hzero hread =>
      obtain ⟨rule, m, good, hrule, -⟩ := exists_readRule (s := s) hread
      have hfull' : limit ≤ (s.passed m good rest').stop := hno
      apply (hplain h trivial).reported
      rw [allocStep, hextract]
      refine ⟨.outOfSpace, ?_, by rintro ⟨⟩⟩
      simp [rule_tests hd hzero, hrule, hfull']
    | or =>
      apply (hplain h trivial).reported
      rw [allocStep, hextract]
      cases hfollows : s.followsParen with
      | true =>
        refine ⟨.outOfSpace, ?_, by rintro ⟨⟩⟩
        simp [expectR, hno]
      | false => exact ⟨_, rfl, by rintro ⟨⟩⟩
    | _ => simp at htoken
  noParen {rest} h hfollows := by
    obtain ⟨c, tail, hextract, hlexes, -⟩ := exists_extract h
    apply (hplain h trivial).reported
    rw [allocStep, hextract]
    cases hlexes with
    | or =>
      rw [hfollows]
      exact ⟨_, rfl, by rintro ⟨⟩⟩
  leaf {rest} h hfollows hroom := by
    rw [hfull] at hroom
    obtain ⟨c, tail, hextract, hlexes, hle, -⟩ := exists_extract h
    cases hlexes with
    | @rule d n tail rest' hd hzero hread =>
      obtain ⟨rule, m, good, hrule, hahead⟩ := exists_readRule (s := s) hread
      have hstep : allocStep limit s = .ok (s.openParens.isEmpty,
          ((s.passed m good rest').setLabel (.integer rule)).stopNext) := by
        have hfollows' : (s.passed m good rest').followsParen = false := hfollows
        have hroom' : ¬ limit ≤ (s.passed m good rest').stop := hroom
        rw [allocStep, hextract]
        simp [rule_tests hd hzero, hrule, hfollows', hroom']
        rfl
      refine ⟨_, rule, adds_leaf hahead hfollows, ?_, ?_⟩
      · intro hopen
        apply (hplain h trivial).done
        rw [hstep, hopen]
        rfl
      · intro hopen
        rw [List.isEmpty_eq_false_iff.mpr hopen] at hstep
        exact Reads.step (Nat.lt_of_lt_of_le (length_lt_of_readNumber hread) hle)
          ((hplain h trivial).more hstep)
  labelled {token rest} h htoken hfollows hroom hopen := by
    rw [hfull] at hroom
    obtain ⟨c, tail, hextract, hlexes, hle, -⟩ := exists_extract h
    cases hlexes with
    | @rule d n tail rest' hd hzero hread =>
      obtain ⟨rule, m, good, hrule, hahead⟩ := exists_readRule (s := s) hread
      have hstep : allocStep limit s = .ok (false,
          { (s.passed m good rest').setLabel (.integer rule) with
            followsParen := false, stop := s.stop + 1 }) := by
        rw [allocStep, hextract]
        simp [rule_tests hd hzero, hrule, hfollows, setLabel, passed, hroom]
      exact ⟨_, rule, adds_labelled hahead, Reads.step
        (Nat.lt_of_lt_of_le (length_lt_of_readNumber hread) hle) ((hplain h trivial).more hstep)⟩
    | or =>
      have hstep : allocStep limit s = .ok (false,
          { (s.passed s.maxRuleid s.good rest).setLabel (.integer orInt) with
            followsParen := false, stop := s.stop + 1 }) := by
        rw [allocStep, hextract]
        simp [expectR, hfollows, setLabel, passed, hroom]
      exact ⟨_, orInt, adds_labelled (if_pos (good_of_lex h)), Reads.step
        (Nat.lt_of_lt_of_le (Nat.lt_succ_of_lt (Nat.lt_succ_self _)) hle)
        ((hplain h trivial).more hstep)⟩
    | _ => simp at htoken
  noOpen {rest} h hopen := by
    obtain ⟨c, tail, hextract, hlexes, -⟩ := exists_extract h
    apply (hplain h hopen).error
    rw [allocStep, hextract]
    cases hlexes with
    | closing => simp [hopen]
  early := hearly
  closed := hclosed

/-! ## The reader of streams -/

theorem genioLoop_error {e : ReadFailure} (hrun : s.stop = 0 ∨ s.openParens ≠ [])
    (h : genioStep s = .error e) (fuel : ℕ) : genioLoop (fuel + 1) s = .error e := by
  have hunfinished : s.unfinished = true := by
    simpa [ReadState.unfinished] using hrun
  rw [genioLoop, if_pos hunfinished, h]

theorem genioLoop_reported (hrun : s.stop = 0 ∨ s.openParens ≠ []) (h : Reported (genioStep s)) :
    ReportsAt genioLoop s := by
  intro fuel
  obtain ⟨e, he, hne⟩ := h
  exact ⟨e, genioLoop_error hrun he fuel, hne⟩

/-- A step that reads a token. -/
theorem genioLoop_reads {s' : ReadState} (hrun : s.stop = 0 ∨ s.openParens ≠ [])
    (h : genioStep s = .ok s') (hlen : s'.text.length < s.text.length) : Reads genioLoop s s' :=
  Reads.step hlen (genioLoop_step hrun h)

theorem genioStep_full (h : (s.memory 0).next ≤ s.stop) : genioStep s = .error .outOfSpace := by
  rw [genioStep, if_pos h]

/-- Where there is room the readers take a plain token alike. -/
theorem genioStep_plain (hroom : s.stop < (s.memory 0).next)
    (h : lex s.ahead = some (token, rest)) (hplain : token.Plain s) :
    genioStep s = (allocStep (s.stop + 1) s).map Prod.snd ∧
      ∀ s', allocStep (s.stop + 1) s = .ok (true, s') → s'.stop ≠ 0 ∧ s'.openParens = [] := by
  have hlimit : ¬s.stop + 1 ≤ s.stop := Nat.not_succ_le_self _
  obtain ⟨c, tail, hextract, hlexes, -⟩ := exists_extract h
  rw [genioStep, if_neg (Nat.not_le.mpr hroom), allocStep, hextract]
  cases hlexes with
  | named => exact hplain.elim
  | paren => exact hplain.elim
  | @ref id c tail rest hread hc =>
    have hfollows : s.followsParen = false := hplain
    simp only [hfollows, if_true, hread, if_neg hc, if_neg hlimit]
    cases s.backrefs id with
    | none => exact ⟨rfl, by rintro _ ⟨⟩⟩
    | some target => exact ⟨rfl, by rintro _ ⟨⟩⟩
  | @rule d n tail rest' hd hzero hread =>
    obtain ⟨rule, m, good, hrule, -⟩ := exists_readRule (s := s) hread
    have hlimit' : ¬s.stop + 1 ≤ (s.passed m good rest').stop := hlimit
    cases hfollows : (s.passed m good rest').followsParen <;>
      simp [rule_tests hd hzero, hrule, hlimit', hfollows, Except.map]
    -- the reader is done after a leaf alone
    exact fun hempty => ⟨Nat.succ_ne_zero _, hempty⟩
  | or =>
    cases hfollows : s.followsParen <;> simp [expectR, Except.map, hlimit]
  | closing =>
    have hopen : s.openParens = [] := hplain
    simp [hopen, Except.map]

theorem genio_rounds (hrun : s.stop = 0 ∨ s.openParens ≠ []) (hroom : s.stop < (s.memory 0).next)
    (h : lex s.ahead = some (token, rest)) (hplain : token.Plain s) :
    Rounds genioLoop (allocStep (s.stop + 1)) s := by
  rcases genioStep_plain hroom h hplain with ⟨heq, hdone⟩
  constructor
  · intro e he
    exact genioLoop_error hrun (by rw [heq, he]; rfl)
  · intro s' hs' fuel
    rw [genioLoop_step hrun (show genioStep s = .ok s' by rw [heq, hs']; rfl)]
    exact genioLoop_done (hdone s' hs').1 (hdone s' hs').2 fuel
  · intro s' hs'
    exact genioLoop_step hrun (by rw [heq, hs']; rfl)

/-- A named parenthesis takes two rounds, one for the name and one for itself. -/
theorem genio_reads_opened {id? : Option ℕ} (hrun : s.stop = 0 ∨ s.openParens ≠ [])
    (hroom : s.stop < (s.memory 0).next) (h : lex s.ahead = some (.opening id?, rest))
    (hfollows : id?.isSome = true → s.followsParen = false) :
    Reads genioLoop s (s.opened id? rest) := by
  have hgood := good_of_lex h
  obtain ⟨c, tail, hextract, hlexes, hle, hlt⟩ := exists_extract h
  cases hlexes with
  | @named id tail _ hread =>
    have hshorter := length_lt_of_readBackref hread
    rw [List.length_cons] at hle
    have hname : genioStep s = .ok { s with
        backrefs := Function.update s.backrefs id (some s.stop), text := '(' :: rest
        first := false } := by
      rw [genioStep, if_neg (Nat.not_le.mpr hroom), hextract]
      simp only [hfollows rfl, if_true, hread]
      rfl
    have hparen := genioStep_paren (s := { s with
        backrefs := Function.update s.backrefs id (some s.stop), text := '(' :: rest
        first := false }) ⟨hgood, hroom⟩ (show '(' :: rest = [] ++ '(' :: rest from rfl)
      (by simp [Spaces])
    exact (genioLoop_reads hrun hname (by rw [List.length_cons]; omega)).trans
      (genioLoop_reads hrun hparen (Nat.lt_succ_self _))
  | paren =>
    apply genioLoop_reads hrun _ hlt
    rw [genioStep, if_neg (Nat.not_le.mpr hroom), hextract]
    simp [opened, Backrefs.define]

theorem genioStep_closing {top : ℕ} {openParens : List ℕ} (hroom : s.stop < (s.memory 0).next)
    (h : lex s.ahead = some (.closing, rest)) (hopen : s.openParens = top :: openParens) :
    genioStep s = .ok (s.closed top openParens rest) := by
  obtain ⟨c, tail, hextract, hlexes, -⟩ := exists_extract h
  cases hlexes with
  | closing =>
    rw [genioStep, if_neg (Nat.not_le.mpr hroom), hextract]
    simp [hopen, ReadState.closed, setNext]

theorem genio_tokenRounds {full : Prop} (hfull : ¬ full) (hrun : s.stop = 0 ∨ s.openParens ≠ [])
    (hroom : s.stop < (s.memory 0).next) : TokenRounds genioLoop true full s := by
  apply tokenRounds_of (show full ↔ s.stop + 1 ≤ s.stop from ⟨fun h => absurd h hfull, by omega⟩)
    (genio_rounds hrun hroom) (fun h => genioLoop_reported hrun (reported_genioStep h))
  · intro tail hextract hfollows
    apply genioLoop_reported hrun
    rw [genioStep, if_neg (Nat.not_le.mpr hroom), hextract]
    simp only [hfollows, if_true]
    exact ⟨_, rfl, by rintro ⟨⟩⟩
  · exact genio_reads_opened hrun hroom
  · intro rest openParens _ h hopen hor
    have hstep := genioStep_closing hroom h hopen
    intro fuel
    rw [genioLoop_step hrun hstep]
    have hrun' : (s.closed 0 openParens rest).stop = 0 ∨
        (s.closed 0 openParens rest).openParens ≠ [] := hor.symm
    refine ⟨_, genioLoop_error hrun' (genioStep_full ?_) fuel, by rintro ⟨⟩⟩
    simp [ReadState.closed, setNext]
  · intro rest top openParens h hopen htop hearly
    have hstep := genioStep_closing hroom h hopen
    obtain ⟨-, -, -, -, -, hlt⟩ := exists_extract h
    refine ⟨s.closed top openParens rest, closes_closed (good_of_lex h) (Or.inl rfl), ?_,
      fun _ => genioLoop_reads hrun hstep hlt⟩
    intro hlast fuel
    have hstop : s.stop ≠ 0 := by
      by_cases htop0 : top = 0
      · exact (hearly rfl htop0).2
      · omega
    rw [genioLoop_step hrun hstep]
    exact genioLoop_done (s := s.closed top openParens rest) hstop hlast fuel

section Alloc

variable {limit : ℕ}

theorem alloc_rounds (limit : ℕ) (s : ReadState) : Rounds (allocLoop limit) (allocStep limit) s := by
  constructor
  · intro e h fuel
    rw [allocLoop, h]
  · intro s' h fuel
    rw [allocLoop, h]
  · intro s' h
    exact allocLoop_step h

variable (limit) in
/-- With the last parenthesis the reader is done. -/
theorem allocStep_closing {top : ℕ} {openParens : List ℕ}
    (h : lex s.ahead = some (.closing, rest)) (hopen : s.openParens = top :: openParens)
    (htop : top ≤ s.stop) : ∃ s', ReadState.Closes false s s' top openParens rest ∧
      s'.text = rest ∧ allocStep limit s = .ok (openParens.isEmpty, s') := by
  have hgood := good_of_lex h
  obtain ⟨c, tail, hextract, hlexes, -⟩ := exists_extract h
  cases hlexes with
  | closing =>
    rw [allocStep, hextract]
    by_cases heq : top = s.stop
    · refine ⟨{ s with openParens := openParens, text := rest, first := false },
        ⟨?_, fun _ _ => rfl, rfl, fun _ _ => rfl, rfl, rfl, rfl, rfl, if_pos hgood⟩, rfl, ?_⟩
      · rintro (hno | hlt)
        · cases hno
        · omega
      · simp [hopen, heq]
    · refine ⟨s.closed top openParens rest, closes_closed hgood (Or.inr (by omega)), rfl, ?_⟩
      simp [hopen, heq, ReadState.closed, setNext]

theorem alloc_tokenRounds {full : Prop} (hfull : full ↔ limit ≤ s.stop) :
    TokenRounds (allocLoop limit) false full s := by
  apply tokenRounds_of hfull (fun _ _ => alloc_rounds limit s)
    (fun h => (alloc_rounds limit s).reported (reported_allocStep h))
  · intro tail hextract hfollows
    apply (alloc_rounds limit s).reported
    rw [allocStep, hextract]
    simp only [hfollows, if_true]
    exact ⟨_, rfl, by rintro ⟨⟩⟩
  · intro id? rest h hfollows
    obtain ⟨c, tail, hextract, hlexes, -, hlt⟩ := exists_extract h
    apply Reads.step (show (s.opened id? rest).text.length < s.text.length from hlt)
    apply (alloc_rounds limit s).more
    rw [allocStep, hextract]
    cases hlexes with
    | named hread => simp [hfollows rfl, hread, opened, Backrefs.define]
    | paren => simp [opened, Backrefs.define]
  · rintro _ _ ⟨⟩
  · intro rest top openParens h hopen htop _
    obtain ⟨s', hcloses, htext, hstep⟩ := allocStep_closing limit h hopen htop
    refine ⟨s', hcloses, ?_, ?_⟩
    · intro hlast
      apply (alloc_rounds limit s).done
      rw [hstep, hlast]
      rfl
    · intro hlast
      obtain ⟨-, -, -, -, -, hlt⟩ := exists_extract h
      rw [List.isEmpty_eq_false_iff.mpr hlast] at hstep
      exact Reads.step (htext ▸ hlt) ((alloc_rounds limit s).more hstep)

end Alloc

end Rounds

end Carmel.Forest
