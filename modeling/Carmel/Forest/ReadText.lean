/-
# Reading a forest text

Both readers do the same for each token of a text: the nodes of a list of siblings come to
lie behind the nodes already read, nothing else in the memory changes, and the parentheses
that were open stay open. A text is therefore read as the same array by both.
-/

import Carmel.Forest.Read

namespace Carmel.Forest

open Carmel.Math

namespace ReadState

/-! ## What a token does -/

variable (s : ReadState)

/-- After a rule that is a leaf. -/
def leafed (rule : ℕ) (tail : List Char) : ReadState :=
  { (s.setLabel (.integer rule)).stopNext with
    maxRuleid := max s.maxRuleid rule, first := false, text := tail }

/-- After a pointer to a shared node. -/
def shared (target : ℕ) (tail : List Char) : ReadState :=
  { (s.setLabel (.pointer target)).stopNext with first := false, text := tail }

/-- After an opening parenthesis, with the name before it. -/
def opened (id? : Option ℕ) (tail : List Char) : ReadState :=
  { s with backrefs := s.backrefs.define id? s.stop, followsParen := true,
           openParens := s.stop :: s.openParens, first := false, text := tail }

/-- After the rule or the `OR` that follows an opening parenthesis. -/
def labelled (label : ℕ) (tail : List Char) : ReadState :=
  { s.setLabel (.integer label) with
    followsParen := false, stop := s.stop + 1, maxRuleid := max s.maxRuleid label
    first := false, text := tail }

/-- After the closing parenthesis of the node `top`. -/
def closed (top : ℕ) (openParens : List ℕ) (tail : List Char) : ReadState :=
  { s.setNext top s.stop with openParens := openParens, first := false, text := tail }

variable {s} {ws tail : List Char} {c : Char}

theorem extract_eq (hgood : s.good = true) (htext : s.text = ws ++ c :: tail) (hws : Spaces ws)
    (hc : isSpace c = false) : s.extract = some (c, tail) := by
  rw [extract, hgood, htext, skipSpaces_append hws, skipSpaces_cons hc]
  rfl

end ReadState

theorem IsNumeral.readNumber {digits tail : List Char} {n : ℕ} (h : IsNumeral digits n)
    (hahead : NoDigitAhead tail) : readNumber (digits ++ tail) = some (n, tail) := by
  rw [readNumber_append h.ne_nil h.isDigit hahead, h.value]

theorem IsNumeral.skipSpaces {digits : List Char} {n : ℕ} (h : IsNumeral digits n)
    (tail : List Char) : skipSpaces (digits ++ tail) = digits ++ tail := by
  cases digits with
  | nil => exact absurd rfl h.ne_nil
  | cons d ds => exact skipSpaces_cons (isSpace_of_isDigit (h.isDigit d (List.mem_cons_self ..))) _

/-- A digit that begins a rule begins no other token. -/
theorem rule_tests {d : Char} (hd : d.isDigit = true) (hzero : d ≠ '0') :
    d ≠ '#' ∧ d ≠ '(' ∧ d.isDigit = true ∧ d ≠ '0' := by
  refine ⟨?_, ?_, hd, hzero⟩ <;> intro heq <;> simp [heq] at hd

theorem readBackref_eq {digits tail : List Char} {id : ℕ} {c : Char} (hid : IsNumeral digits id)
    (hc : c.isDigit = false) :
    ReadState.readBackref (digits ++ c :: tail) = .ok (id, c, tail) := by
  rw [ReadState.readBackref, hid.skipSpaces, hid.readNumber (noDigitAhead_cons.mpr hc)]

theorem readRule_eq {s : ReadState} {d : Char} {ds digits tail : List Char} {rule : ℕ}
    (hrule : IsRuleNumeral digits rule) (hdigits : digits = d :: ds) (hahead : NoDigitAhead tail) :
    s.readRule d (ds ++ tail) = (rule, { s with
      maxRuleid := max s.maxRuleid rule, good := true, text := tail, first := false }) := by
  have hread := hrule.toIsNumeral.readNumber hahead
  rw [hdigits, List.cons_append] at hread
  simp [ReadState.readRule, hread, hrule.lt]

/-- What a reader needs to go on: its stream is good and it has room for a node. -/
structure ReadState.Ready (s : ReadState) (capacity : ℕ) : Prop where
  good : s.good = true
  room : s.stop < capacity

/-- The first digit of a rule, as the readers see it. -/
theorem ReadState.extract_rule {s : ReadState} {ws digits tail : List Char} {rule : ℕ}
    (hgood : s.good = true) (htext : s.text = ws ++ (digits ++ tail)) (hws : Spaces ws)
    (hrule : IsRuleNumeral digits rule) :
    ∃ d ds, digits = d :: ds ∧ (d ≠ '#' ∧ d ≠ '(' ∧ d.isDigit = true ∧ d ≠ '0') ∧
      s.extract = some (d, ds ++ tail) := by
  cases digits with
  | nil => exact absurd rfl hrule.ne_nil
  | cons d ds =>
    have hd := hrule.isDigit d (List.mem_cons_self ..)
    exact ⟨d, ds, rfl, rule_tests hd fun heq => hrule.head (by rw [heq]; rfl),
      extract_eq hgood htext hws (isSpace_of_isDigit hd)⟩

section GenioSteps

variable {s : ReadState} {ws digits text tail : List Char}

theorem genioStep_leaf (hready : s.Ready (s.memory 0).next) (hfollows : s.followsParen = false)
    {rule : ℕ} (htext : s.text = ws ++ (digits ++ tail)) (hws : Spaces ws)
    (hrule : IsRuleNumeral digits rule) (hahead : NoDigitAhead tail) :
    genioStep s = .ok (s.leafed rule tail) := by
  rcases ReadState.extract_rule hready.good htext hws hrule with ⟨d, ds, hdigits, hd, hextract⟩
  rw [genioStep, if_neg (Nat.not_le.mpr hready.room), hextract]
  simp [hd, readRule_eq hrule hdigits hahead, hfollows, ReadState.leafed, ReadState.stopNext,
    ReadState.setLabel, ReadState.setNext, hready.good]

theorem genioStep_shared (hready : s.Ready (s.memory 0).next) (hfollows : s.followsParen = false)
    {id target : ℕ} {c : Char} (htext : s.text = ws ++ '#' :: (digits ++ c :: tail))
    (hws : Spaces ws) (hid : IsNumeral digits id) (hc : c.isDigit = false) (hparen : c ≠ '(')
    (htarget : s.backrefs id = some target) :
    genioStep s = .ok (s.shared target (c :: tail)) := by
  have hextract : s.extract = some ('#', digits ++ c :: tail) :=
    ReadState.extract_eq hready.good htext hws (by decide)
  rw [genioStep, if_neg (Nat.not_le.mpr hready.room), hextract]
  simp [readBackref_eq hid hc, hfollows, hparen, htarget, ReadState.shared, ReadState.stopNext,
    ReadState.setLabel, ReadState.setNext]

/-- A name is noted before its parenthesis is read. -/
theorem genioStep_name (hready : s.Ready (s.memory 0).next) (hfollows : s.followsParen = false)
    {id : ℕ} (htext : s.text = ws ++ '#' :: (digits ++ '(' :: tail)) (hws : Spaces ws)
    (hid : IsNumeral digits id) :
    genioStep s = .ok { s with
      backrefs := Function.update s.backrefs id (some s.stop), text := '(' :: tail
      first := false } := by
  have hextract : s.extract = some ('#', digits ++ '(' :: tail) :=
    ReadState.extract_eq hready.good htext hws (by decide)
  rw [genioStep, if_neg (Nat.not_le.mpr hready.room), hextract]
  simp [readBackref_eq hid (c := '(') (by decide), hfollows]

theorem genioStep_paren (hready : s.Ready (s.memory 0).next) (htext : s.text = ws ++ '(' :: tail)
    (hws : Spaces ws) : genioStep s = .ok (s.opened none tail) := by
  have hextract : s.extract = some ('(', tail) :=
    ReadState.extract_eq hready.good htext hws (by decide)
  rw [genioStep, if_neg (Nat.not_le.mpr hready.room), hextract]
  simp [ReadState.opened, Backrefs.define]

theorem genioStep_label (hready : s.Ready (s.memory 0).next) (hfollows : s.followsParen = true)
    {label : ℕ} {text : List Char} (htext : s.text = ws ++ text) (hws : Spaces ws)
    (hlabel : SpellsLabel label text tail) : genioStep s = .ok (s.labelled label tail) := by
  cases hlabel with
  | or =>
    have hextract : s.extract = some ('O', 'R' :: tail) :=
      ReadState.extract_eq hready.good htext hws (by decide)
    rw [genioStep, if_neg (Nat.not_le.mpr hready.room), hextract]
    simp [ReadState.expectR, hfollows, ReadState.labelled, ReadState.setLabel, orInt]
  | @rule _ digits _ hrule hahead =>
    rcases ReadState.extract_rule hready.good htext hws hrule with ⟨d, ds, hdigits, hd, hextract⟩
    rw [genioStep, if_neg (Nat.not_le.mpr hready.room), hextract]
    simp [hd, readRule_eq hrule hdigits hahead, hfollows, ReadState.labelled, ReadState.setLabel,
      hready.good]

theorem genioStep_close (hready : s.Ready (s.memory 0).next) {top : ℕ} {openParens : List ℕ}
    (hopen : s.openParens = top :: openParens) (htext : s.text = ws ++ ')' :: tail)
    (hws : Spaces ws) : genioStep s = .ok (s.closed top openParens tail) := by
  have hextract : s.extract = some (')', tail) :=
    ReadState.extract_eq hready.good htext hws (by decide)
  rw [genioStep, if_neg (Nat.not_le.mpr hready.room), hextract]
  simp [hopen, ReadState.closed, ReadState.setNext]

end GenioSteps

section AllocSteps

variable {s : ReadState} {ws digits text tail : List Char} {limit : ℕ}

theorem allocStep_leaf (hready : s.Ready limit) (hfollows : s.followsParen = false)
    {rule : ℕ} (htext : s.text = ws ++ (digits ++ tail)) (hws : Spaces ws)
    (hrule : IsRuleNumeral digits rule) (hahead : NoDigitAhead tail) :
    allocStep limit s = .ok (s.openParens.isEmpty, s.leafed rule tail) := by
  rcases ReadState.extract_rule hready.good htext hws hrule with ⟨d, ds, hdigits, hd, hextract⟩
  rw [allocStep, hextract]
  simp [hd, readRule_eq hrule hdigits hahead, hfollows, ReadState.leafed, ReadState.stopNext,
    ReadState.setLabel, ReadState.setNext, hready.good, Nat.not_le.mpr hready.room]

theorem allocStep_shared (hready : s.Ready limit) (hfollows : s.followsParen = false)
    {id target : ℕ} {c : Char} (htext : s.text = ws ++ '#' :: (digits ++ c :: tail))
    (hws : Spaces ws) (hid : IsNumeral digits id) (hc : c.isDigit = false) (hparen : c ≠ '(')
    (htarget : s.backrefs id = some target) :
    allocStep limit s = .ok (false, s.shared target (c :: tail)) := by
  have hextract : s.extract = some ('#', digits ++ c :: tail) :=
    ReadState.extract_eq hready.good htext hws (by decide)
  rw [allocStep, hextract]
  simp [readBackref_eq hid hc, hfollows, hparen, htarget, ReadState.shared, ReadState.stopNext,
    ReadState.setLabel, ReadState.setNext, Nat.not_le.mpr hready.room]

theorem allocStep_open (hgood : s.good = true) (hfollows : s.followsParen = false)
    {id? : Option ℕ} {text : List Char} (htext : s.text = ws ++ text) (hws : Spaces ws)
    (hopen : SpellsOpen id? text tail) : allocStep limit s = .ok (false, s.opened id? tail) := by
  cases hopen with
  | plain =>
    have hextract : s.extract = some ('(', tail) :=
      ReadState.extract_eq hgood htext hws (by decide)
    rw [allocStep, hextract]
    simp [ReadState.opened, Backrefs.define]
  | @named _ digits hid =>
    have hextract : s.extract = some ('#', digits ++ '(' :: tail) :=
      ReadState.extract_eq hgood htext hws (by decide)
    rw [allocStep, hextract]
    simp [readBackref_eq hid (c := '(') (by decide), hfollows, ReadState.opened, Backrefs.define]

theorem allocStep_label (hready : s.Ready limit) (hfollows : s.followsParen = true)
    {label : ℕ} {text : List Char} (htext : s.text = ws ++ text) (hws : Spaces ws)
    (hlabel : SpellsLabel label text tail) :
    allocStep limit s = .ok (false, s.labelled label tail) := by
  cases hlabel with
  | or =>
    have hextract : s.extract = some ('O', 'R' :: tail) :=
      ReadState.extract_eq hready.good htext hws (by decide)
    rw [allocStep, hextract]
    simp [ReadState.expectR, hfollows, ReadState.labelled, ReadState.setLabel, orInt,
      Nat.not_le.mpr hready.room]
  | @rule _ digits _ hrule hahead =>
    rcases ReadState.extract_rule hready.good htext hws hrule with ⟨d, ds, hdigits, hd, hextract⟩
    rw [allocStep, hextract]
    simp [hd, readRule_eq hrule hdigits hahead, hfollows, ReadState.labelled, ReadState.setLabel,
      hready.good, Nat.not_le.mpr hready.room]

/-- The node that a parenthesis closes has been read, so its `next` is written. -/
theorem allocStep_close (hgood : s.good = true) {top : ℕ} {openParens : List ℕ}
    (hopen : s.openParens = top :: openParens) (htop : top < s.stop)
    (htext : s.text = ws ++ ')' :: tail) (hws : Spaces ws) :
    allocStep limit s = .ok (openParens.isEmpty, s.closed top openParens tail) := by
  have hextract : s.extract = some (')', tail) :=
    ReadState.extract_eq hgood htext hws (by decide)
  rw [allocStep, hextract]
  simp [hopen, ReadState.closed, ReadState.setNext, Nat.ne_of_lt htop]

end AllocSteps

/-! ## Reading siblings -/

/-- A loop that goes on from `s` comes to `s'`, in a round for each character at most. -/
def Reads (loop : ℕ → ReadState → Except ReadFailure ReadState) (s s' : ReadState) : Prop :=
  ∃ k, k + s'.text.length ≤ s.text.length ∧ ∀ fuel, loop (k + fuel) s = loop fuel s'

namespace Reads

variable {loop : ℕ → ReadState → Except ReadFailure ReadState} {s s' s'' : ReadState}

theorem refl (s : ReadState) : Reads loop s s := ⟨0, by omega, fun fuel => by rw [Nat.zero_add]⟩

theorem trans (h : Reads loop s s') (h' : Reads loop s' s'') : Reads loop s s'' := by
  rcases h with ⟨k, hk, hloop⟩
  rcases h' with ⟨k', hk', hloop'⟩
  exact ⟨k + k', by omega, fun fuel => by rw [Nat.add_assoc, hloop, hloop']⟩

theorem step (hlen : s'.text.length < s.text.length) (h : ∀ fuel, loop (fuel + 1) s = loop fuel s') :
    Reads loop s s' :=
  ⟨1, by omega, fun fuel => by rw [Nat.add_comm, h]⟩

end Reads

/-- What a reader does with the tokens inside of a node. `capacity` tells the space, which is
kept by what leaves the `next` of the first node alone. -/
structure ReadsTokens (loop : ℕ → ReadState → Except ReadFailure ReadState)
    (capacity : ReadState → ℕ) : Prop where
  capacity_eq : ∀ {s s' : ReadState}, (s'.memory 0).next = (s.memory 0).next →
    capacity s' = capacity s
  leaf : ∀ {s : ReadState} {ws digits tail : List Char} {rule : ℕ}, s.Ready (capacity s) →
    s.openParens ≠ [] → s.followsParen = false → s.text = ws ++ (digits ++ tail) → Spaces ws →
    IsRuleNumeral digits rule → NoDigitAhead tail → Reads loop s (s.leafed rule tail)
  shared : ∀ {s : ReadState} {ws digits tail : List Char} {id target : ℕ} {c : Char},
    s.Ready (capacity s) → s.openParens ≠ [] → s.followsParen = false →
    s.text = ws ++ '#' :: (digits ++ c :: tail) → Spaces ws → IsNumeral digits id →
    c.isDigit = false → c ≠ '(' → s.backrefs id = some target → Reads loop s (s.shared target (c :: tail))
  opened : ∀ {s : ReadState} {ws text tail : List Char} {id? : Option ℕ}, s.Ready (capacity s) →
    s.stop = 0 ∨ s.openParens ≠ [] → s.followsParen = false → s.text = ws ++ text → Spaces ws →
    SpellsOpen id? text tail → Reads loop s (s.opened id? tail)
  labelled : ∀ {s : ReadState} {ws text tail : List Char} {label : ℕ}, s.Ready (capacity s) →
    s.openParens ≠ [] → s.followsParen = true → s.text = ws ++ text → Spaces ws →
    SpellsLabel label text tail → Reads loop s (s.labelled label tail)
  closed : ∀ {s : ReadState} {ws tail : List Char} {top : ℕ} {openParens : List ℕ},
    s.Ready (capacity s) → s.openParens = top :: openParens → openParens ≠ [] → top < s.stop →
    s.text = ws ++ ')' :: tail → Spaces ws → Reads loop s (s.closed top openParens tail)

/-- The state `s'` is what `s` becomes by reading the siblings up to the text `rest`. -/
structure After (s s' : ReadState) (items : Items) (backrefs : Backrefs) (rest : List Char) :
    Prop where
  stop : s'.stop = s.stop + items.size
  openParens : s'.openParens = s.openParens
  backrefs : s'.backrefs = backrefs
  followsParen : s'.followsParen = false
  maxRuleid : s'.maxRuleid = max s.maxRuleid items.maxRule
  good : s'.good = true
  text : s'.text = rest
  laid : items.Laid s'.memory s.stop
  frame : ∀ j, j < s.stop ∨ s.stop + items.size ≤ j → s'.memory j = s.memory j

namespace ReadState

variable (s : ReadState) (rule target label : ℕ) (tail : List Char)

@[simp] theorem stop_leafed : (s.leafed rule tail).stop = s.stop + 1 := rfl

@[simp] theorem stop_shared : (s.shared target tail).stop = s.stop + 1 := rfl

@[simp] theorem stop_labelled : (s.labelled label tail).stop = s.stop + 1 := rfl

@[simp] theorem memory_labelled : (s.labelled label tail).memory =
    Function.update s.memory s.stop { s.memory s.stop with label := .integer label } := rfl

theorem memory_zero_labelled (h : 0 < s.stop) : (s.labelled label tail).memory 0 = s.memory 0 :=
  Function.update_of_ne (Nat.ne_of_lt h) ..

@[simp] theorem memory_closed (top : ℕ) (openParens : List ℕ) : (s.closed top openParens tail).memory =
    Function.update s.memory top { s.memory top with next := s.stop } := rfl

@[simp] theorem memory_leafed : (s.leafed rule tail).memory =
    Function.update s.memory s.stop ⟨s.stop + 1, .integer rule⟩ := by
  simp [leafed, stopNext, setNext, setLabel]

@[simp] theorem memory_shared : (s.shared target tail).memory =
    Function.update s.memory s.stop ⟨s.stop + 1, .pointer target⟩ := by
  simp [shared, stopNext, setNext, setLabel]

end ReadState

section Items

variable {loop : ℕ → ReadState → Except ReadFailure ReadState} {capacity : ReadState → ℕ}

namespace After

variable {s s' : ReadState} {items : Items} {backrefs : Backrefs} {rest tail : List Char}

theorem frame_cons {s₁ : ReadState} {node : ForestNode}
    (hmemory : s₁.memory = Function.update s.memory s.stop node) (hstop : s₁.stop = s.stop + 1)
    (h : After s₁ s' items backrefs rest) :
    s'.memory s.stop = node ∧
      ∀ j, j < s.stop ∨ s.stop + (1 + items.size) ≤ j → s'.memory j = s.memory j := by
  constructor
  · rw [h.frame s.stop (by omega), hmemory, Function.update_self]
  · intro j hj
    rw [h.frame j (by omega), hmemory, Function.update_of_ne (by omega)]

theorem ref {target : ℕ} (h : After (s.shared target tail) s' items backrefs rest) :
    After s s' (.ref target items) backrefs rest where
  stop := by rw [h.stop, Items.size_ref, ReadState.stop_shared, Nat.add_assoc]
  openParens := h.openParens
  backrefs := h.backrefs
  followsParen := h.followsParen
  maxRuleid := h.maxRuleid
  good := h.good
  text := h.text
  laid := ⟨(h.frame_cons (s.memory_shared target tail) rfl).1, h.laid⟩
  frame := (h.frame_cons (s.memory_shared target tail) rfl).2

theorem leaf {rule : ℕ} (h : After (s.leafed rule tail) s' items backrefs rest) :
    After s s' (.node rule .nil items) backrefs rest where
  stop := by rw [h.stop, Items.size_node, Items.size_nil, ReadState.stop_leafed, Nat.add_assoc]
  openParens := h.openParens
  backrefs := h.backrefs
  followsParen := h.followsParen
  maxRuleid := by
    rw [h.maxRuleid]
    simp [ReadState.leafed, Items.maxRule, Nat.max_assoc]
  good := h.good
  text := h.text
  laid := ⟨(h.frame_cons (s.memory_leafed rule tail) rfl).1, trivial, h.laid⟩
  frame := (h.frame_cons (s.memory_leafed rule tail) rfl).2

/-- A node in parentheses, then its siblings: `next` is written when the children are known. -/
theorem node {s₃ : ReadState} {id? : Option ℕ} {label : ℕ} {kids : Items} {backrefs₁ : Backrefs}
    {tail₁ tail₂ tail₃ : List Char}
    (hk : After ((s.opened id? tail₁).labelled label tail₂) s₃ kids backrefs₁ tail₃)
    (hr : After (s₃.closed s.stop s.openParens tail) s' items backrefs rest) :
    After s s' (.node label kids items) backrefs rest := by
  have hstop₃ : s₃.stop = s.stop + 1 + kids.size := hk.stop
  have hlabel : s₃.memory s.stop = { s.memory s.stop with label := .integer label } := by
    rw [hk.frame s.stop (Or.inl (Nat.lt_succ_self _)), ReadState.memory_labelled]
    exact Function.update_self ..
  have hclosed : (s₃.closed s.stop s.openParens tail).memory =
      Function.update s₃.memory s.stop ⟨s.stop + 1 + kids.size, .integer label⟩ := by
    rw [ReadState.memory_closed, hlabel, hstop₃]
  have hframe : ∀ j, j ≠ s.stop → j < s.stop + 1 + kids.size → s'.memory j = s₃.memory j := by
    intro j hj hlt
    rw [hr.frame j (Or.inl (by rw [← hstop₃] at hlt; exact hlt)), hclosed, Function.update_of_ne hj]
  refine ⟨?_, hr.openParens, hr.backrefs, hr.followsParen, ?_, hr.good, hr.text, ⟨?_, ?_, ?_⟩, ?_⟩
  · rw [hr.stop, Items.size_node]
    change s₃.stop + items.size = _
    omega
  · rw [hr.maxRuleid]
    change max s₃.maxRuleid items.maxRule = _
    rw [hk.maxRuleid]
    simp [ReadState.labelled, ReadState.opened, ReadState.setLabel, Items.maxRule, Nat.max_assoc]
  · rw [hr.frame s.stop (Or.inl (by change s.stop < s₃.stop; omega)), hclosed, Function.update_self]
  · refine hk.laid.congr fun j hj hlt => ?_
    change s.stop + 1 ≤ j at hj
    change j < s.stop + 1 + kids.size at hlt
    exact hframe j (by omega) hlt
  · rw [← hstop₃]
    exact hr.laid
  · intro j hj
    rw [Items.size_node] at hj
    have hj' : j < s₃.stop ∨ s₃.stop + items.size ≤ j := by omega
    rw [hr.frame j hj', hclosed, Function.update_of_ne (by omega),
      hk.frame j (by change j < s.stop + 1 ∨ s.stop + 1 + kids.size ≤ j; omega),
      ReadState.memory_labelled]
    exact Function.update_of_ne (show j ≠ s.stop by omega) ..

end After

/-- Siblings inside of a node are read by any reader that reads their tokens. -/
theorem reads_items (htokens : ReadsTokens loop capacity) {t : TextItems} {text rest : List Char}
    (h : Spells t text rest) {s : ReadState} {items : Items} {backrefs : Backrefs}
    (hgood : s.good = true) (htext : s.text = text) (hfollows : s.followsParen = false)
    (hopen : s.openParens ≠ []) (hstop : 0 < s.stop) (hroom : s.stop + items.size < capacity s)
    (hresolve : t.resolve s.backrefs s.stop = some (items, backrefs)) :
    ∃ s', Reads loop s s' ∧ After s s' items backrefs rest := by
  induction h generalizing s items backrefs with
  | nil rest =>
    simp only [TextItems.resolve, Option.some.injEq, Prod.mk.injEq] at hresolve
    rcases hresolve with ⟨rfl, rfl⟩
    exact ⟨s, Reads.refl s, rfl, rfl, rfl, hfollows, by simp [Items.maxRule], hgood, htext, trivial,
      fun j _ => rfl⟩
  | @ref id t ws digits tail rest hws hid hahead hne hparen _ ih =>
    rcases TextItems.resolve_ref hresolve with ⟨target, items', htarget, hrest, rfl⟩
    rw [Items.size_ref] at hroom
    rcases List.exists_cons_of_ne_nil hne with ⟨c, tail, rfl⟩
    have hread := htokens.shared ⟨hgood, by omega⟩ hopen hfollows htext hws hid
      (noDigitAhead_cons.mp hahead) (by simpa using hparen) htarget
    have hcap : capacity (s.shared target (c :: tail)) = capacity s :=
      htokens.capacity_eq (by rw [ReadState.memory_shared, Function.update_of_ne (by omega)])
    rcases ih (s := s.shared target (c :: tail)) hgood rfl hfollows hopen (Nat.succ_pos _)
      (by rw [hcap, ReadState.stop_shared]; omega) hrest with ⟨s', hreads, hafter⟩
    exact ⟨s', hread.trans hreads, hafter.ref⟩
  | @leaf rule t ws digits tail rest hws hrule hahead _ ih =>
    rcases TextItems.resolve_leaf hresolve with ⟨items', hrest, rfl⟩
    rw [Items.size_node, Items.size_nil] at hroom
    have hread := htokens.leaf ⟨hgood, by omega⟩ hopen hfollows htext hws hrule hahead
    have hcap : capacity (s.leafed rule tail) = capacity s :=
      htokens.capacity_eq (by rw [ReadState.memory_leafed, Function.update_of_ne (by omega)])
    rcases ih (s := s.leafed rule tail) hgood rfl hfollows hopen (Nat.succ_pos _)
      (by rw [hcap, ReadState.stop_leafed]; omega) hrest with ⟨s', hreads, hafter⟩
    exact ⟨s', hread.trans hreads, hafter.leaf⟩
  | @node id? label kidsText t ws ws' ws'' opening labelled children tail rest hws hname hws' hlabel
      _ hws'' _ ihk ihr =>
      rcases TextItems.resolve_node hresolve with ⟨kids, backrefs₁, items', hkids, hrest, rfl⟩
      rw [Items.size_node] at hroom
      -- the parenthesis and the label
      have hread₁ := htokens.opened ⟨hgood, by omega⟩ (Or.inr hopen) hfollows htext hws hname
      have hcap₁ : capacity (s.opened id? (ws' ++ labelled)) = capacity s :=
        htokens.capacity_eq rfl
      have hread₂ : Reads loop (s.opened id? (ws' ++ labelled))
          ((s.opened id? (ws' ++ labelled)).labelled label children) := htokens.labelled
        ⟨hgood, by rw [hcap₁]; simp only [ReadState.opened]; omega⟩ (by simp [ReadState.opened]) rfl
        rfl hws' hlabel
      have hcap₂ : capacity ((s.opened id? (ws' ++ labelled)).labelled label children) =
          capacity s := by
        rw [htokens.capacity_eq (s := s.opened id? (ws' ++ labelled)), hcap₁]
        rw [(s.opened id? (ws' ++ labelled)).memory_zero_labelled label children hstop]
      -- the children
      rcases ihk (s := (s.opened id? (ws' ++ labelled)).labelled label children) hgood rfl rfl
        (by simp [ReadState.labelled, ReadState.opened, ReadState.setLabel]) (Nat.succ_pos _)
        (by rw [hcap₂, ReadState.stop_labelled]; simp only [ReadState.opened]; omega) hkids with
        ⟨s₃, hreads₃, hafter₃⟩
      have hstop₃ : s₃.stop = s.stop + 1 + kids.size := hafter₃.stop
      have hzero₃ : (s₃.memory 0).next = (s.memory 0).next := by
        rw [hafter₃.frame 0 (Or.inl (Nat.succ_pos _)),
          (s.opened id? (ws' ++ labelled)).memory_zero_labelled label children hstop]
        rfl
      have hcap₃ : capacity s₃ = capacity s := htokens.capacity_eq hzero₃
      -- the closing parenthesis and the siblings
      have hread₄ := htokens.closed ⟨hafter₃.good, by omega⟩ hafter₃.openParens hopen (by omega)
        hafter₃.text hws''
      have hcap₄ : capacity (s₃.closed s.stop s.openParens tail) = capacity s := by
        rw [htokens.capacity_eq (s := s₃), hcap₃]
        rw [ReadState.memory_closed, Function.update_of_ne (by omega)]
      rcases ihr (s := s₃.closed s.stop s.openParens tail) hafter₃.good rfl hafter₃.followsParen
        hopen (by change 0 < s₃.stop; omega) (by rw [hcap₄]; change s₃.stop + items'.size < capacity s; omega)
        (by
          change t.resolve s₃.backrefs s₃.stop = _
          rw [hafter₃.backrefs, hstop₃]
          exact hrest) with ⟨s', hreads', hafter'⟩
      exact ⟨s', hread₁.trans (hread₂.trans (hreads₃.trans (hread₄.trans hreads'))),
        hafter₃.node hafter'⟩

end Items

/-! ## The two readers -/

theorem length_lt_of_spaced {text ws spelled tail : List Char} (h : text = ws ++ spelled)
    (hlt : tail.length < spelled.length) : tail.length < text.length := by
  rw [h, List.length_append]
  omega

theorem IsNumeral.length_lt {digits : List Char} {n : ℕ} (h : IsNumeral digits n)
    (tail : List Char) : tail.length < (digits ++ tail).length := by
  have := List.length_pos_of_ne_nil h.ne_nil
  rw [List.length_append]
  omega

theorem SpellsOpen.length_lt {id? : Option ℕ} {text tail : List Char} (h : SpellsOpen id? text tail) :
    tail.length < text.length := by
  cases h with
  | plain => simp
  | named hid =>
    have := hid.length_lt ('(' :: tail)
    rw [List.length_cons] at this ⊢
    omega

theorem SpellsLabel.length_lt {label : ℕ} {text tail : List Char} (h : SpellsLabel label text tail) :
    tail.length < text.length := by
  cases h with
  | or => exact Nat.lt_succ_of_lt (Nat.lt_succ_self _)
  | rule hrule => exact hrule.length_lt tail

theorem length_lt_shared {digits tail : List Char} {id : ℕ} (hid : IsNumeral digits id) (c : Char) :
    (c :: tail).length < ('#' :: (digits ++ c :: tail)).length :=
  Nat.lt_succ_of_lt (hid.length_lt (c :: tail))

theorem genioLoop_step {s s' : ReadState} (hrun : s.stop = 0 ∨ s.openParens ≠ [])
    (h : genioStep s = .ok s') (fuel : ℕ) : genioLoop (fuel + 1) s = genioLoop fuel s' := by
  have hunfinished : s.unfinished = true := by
    simpa [ReadState.unfinished] using hrun
  rw [genioLoop, if_pos hunfinished]
  simp only [h]

theorem genioLoop_done {s : ReadState} (hstop : s.stop ≠ 0) (hopen : s.openParens = []) (fuel : ℕ) :
    genioLoop fuel s = .ok s := by
  have hfinished : ¬s.unfinished = true := by
    simp [ReadState.unfinished, hstop, hopen]
  cases fuel with
  | zero => rw [genioLoop, if_neg hfinished]
  | succ fuel => rw [genioLoop, if_neg hfinished]

/-- The stream reader reads tokens, as long as the first node's `next` marks the space. -/
theorem genio_readsTokens : ReadsTokens genioLoop (fun s => (s.memory 0).next) where
  capacity_eq h := h
  leaf hready hopen hfollows htext hws hrule hahead :=
    Reads.step (length_lt_of_spaced htext (hrule.length_lt _))
      (genioLoop_step (Or.inr hopen) (genioStep_leaf hready hfollows htext hws hrule hahead))
  shared hready hopen hfollows htext hws hid hc hparen htarget :=
    Reads.step (length_lt_of_spaced htext (length_lt_shared hid _))
      (genioLoop_step (Or.inr hopen) (genioStep_shared hready hfollows htext hws hid hc hparen htarget))
  opened {s ws text tail _} hready hrun hfollows htext hws hopen := by
    cases hopen with
    | plain =>
      exact Reads.step (length_lt_of_spaced htext (Nat.lt_succ_self _))
        (genioLoop_step hrun (genioStep_paren hready htext hws))
    | @named id digits hid =>
      -- the name first, then the parenthesis
      have hname := Reads.step (length_lt_of_spaced htext (length_lt_shared hid _))
        (genioLoop_step hrun (genioStep_name hready hfollows htext hws hid))
      have hnospace : Spaces [] := by simp [Spaces]
      exact hname.trans (Reads.step (Nat.lt_succ_self _) (genioLoop_step hrun
        (genioStep_paren ⟨hready.good, hready.room⟩ rfl hnospace)))
  labelled hready hopen hfollows htext hws hlabel :=
    Reads.step (length_lt_of_spaced htext hlabel.length_lt) (genioLoop_step (Or.inr hopen)
      (genioStep_label hready hfollows htext hws hlabel))
  closed hready hparens _ _ htext hws :=
    Reads.step (length_lt_of_spaced htext (Nat.lt_succ_self _)) (genioLoop_step
      (Or.inr (by simp [hparens])) (genioStep_close hready hparens htext hws))

theorem allocLoop_step {limit : ℕ} {s s' : ReadState} (h : allocStep limit s = .ok (false, s'))
    (fuel : ℕ) : allocLoop limit (fuel + 1) s = allocLoop limit fuel s' := by
  rw [allocLoop, h]

/-- The reader with an allocator reads tokens, as long as nodes are to be had. -/
theorem alloc_readsTokens (limit : ℕ) : ReadsTokens (allocLoop limit) (fun _ => limit) where
  capacity_eq _ := rfl
  leaf hready hopen hfollows htext hws hrule hahead := by
    refine Reads.step (length_lt_of_spaced htext (hrule.length_lt _)) (allocLoop_step ?_)
    rw [allocStep_leaf hready hfollows htext hws hrule hahead, List.isEmpty_eq_false_iff.mpr hopen]
  shared hready hopen hfollows htext hws hid hc hparen htarget :=
    Reads.step (length_lt_of_spaced htext (length_lt_shared hid _))
      (allocLoop_step (allocStep_shared hready hfollows htext hws hid hc hparen htarget))
  opened hready hrun hfollows htext hws hopen :=
    Reads.step (length_lt_of_spaced htext hopen.length_lt)
      (allocLoop_step (allocStep_open hready.good hfollows htext hws hopen))
  labelled hready hopen hfollows htext hws hlabel :=
    Reads.step (length_lt_of_spaced htext hlabel.length_lt)
      (allocLoop_step (allocStep_label hready hfollows htext hws hlabel))
  closed hready hparens hopen htop htext hws := by
    refine Reads.step (length_lt_of_spaced htext (Nat.lt_succ_self _)) (allocLoop_step ?_)
    rw [allocStep_close hready.good hparens htop htext hws, List.isEmpty_eq_false_iff.mpr hopen]

/-! ## Reading a whole text -/

/-- A reader returned with the forest, and left the text behind it. -/
def ReadsForest (result : Except ReadFailure ReadState) (items : Items) (maxRuleid : ℕ)
    (rest : List Char) : Prop :=
  ∃ s, result = .ok s ∧ s.forest = ⟨items.layout 0⟩ ∧ s.text = rest ∧ s.good = true ∧
    s.maxRuleid = max maxRuleid items.maxRule

/-- A reader has read the children of a tree and is about to close it. -/
structure BeforeLast (s s' : ReadState) (label : ℕ) (kids : Items) (rest : List Char) : Prop where
  stop : s'.stop = 1 + kids.size
  openParens : s'.openParens = [0]
  maxRuleid : s'.maxRuleid = max s.maxRuleid (Items.node label kids .nil).maxRule
  good : s'.good = true
  text : ∃ ws, Spaces ws ∧ s'.text = ws ++ ')' :: rest
  next : (s'.memory 0).next = (s.memory 0).next
  label : (s'.memory 0).label = .integer label
  laid : kids.Laid s'.memory 1

/-- A tree in parentheses is read up to its closing parenthesis. -/
theorem reads_root {loop : ℕ → ReadState → Except ReadFailure ReadState}
    {capacity : ReadState → ℕ} (htokens : ReadsTokens loop capacity) {id? : Option ℕ} {label : ℕ}
    {kidsText : TextItems} {text rest : List Char} (h : Spells (.node id? label kidsText .nil) text rest)
    {s : ReadState} {kids : Items} {backrefs : Backrefs} (hgood : s.good = true)
    (htext : s.text = text) (hfollows : s.followsParen = false) (hopen : s.openParens = [])
    (hstop : s.stop = 0) (hroom : 1 + kids.size < capacity s)
    (hresolve : kidsText.resolve (s.backrefs.define id? 0) 1 = some (kids, backrefs)) :
    ∃ s', Reads loop s s' ∧ BeforeLast s s' label kids rest := by
  cases h with
  | @node _ _ _ _ ws ws' ws'' opening labelled children tail _ hws hname hws' hlabel hkids hws'' hrest =>
    cases hrest with
    | nil =>
      have hread₁ := htokens.opened ⟨hgood, by omega⟩ (Or.inl hstop) hfollows htext hws hname
      have hcap₁ : capacity (s.opened id? (ws' ++ labelled)) = capacity s := htokens.capacity_eq rfl
      have hstop₁ : (s.opened id? (ws' ++ labelled)).stop = 0 := hstop
      have hread₂ : Reads loop (s.opened id? (ws' ++ labelled))
          ((s.opened id? (ws' ++ labelled)).labelled label children) := htokens.labelled
        ⟨hgood, by rw [hcap₁]; omega⟩ (by simp [ReadState.opened]) rfl rfl hws' hlabel
      have hnode : ((s.opened id? (ws' ++ labelled)).labelled label children).memory 0 =
          { s.memory 0 with label := .integer label } := by
        rw [ReadState.memory_labelled, hstop₁, Function.update_self]
        rfl
      have hcap₂ : capacity ((s.opened id? (ws' ++ labelled)).labelled label children) =
          capacity s := by
        apply htokens.capacity_eq
        rw [hnode]
      have hstop₂ : ((s.opened id? (ws' ++ labelled)).labelled label children).stop = 1 := by
        rw [ReadState.stop_labelled, hstop₁]
      rcases reads_items htokens hkids (s := (s.opened id? (ws' ++ labelled)).labelled label children)
        hgood rfl rfl (by simp [ReadState.labelled, ReadState.opened, ReadState.setLabel])
        (by omega) (by rw [hcap₂, hstop₂]; exact hroom)
        (by
          rw [hstop₂]
          change kidsText.resolve (s.backrefs.define id? s.stop) 1 = _
          rw [hstop]
          exact hresolve) with ⟨s₃, hreads₃, hafter₃⟩
      have hzero : s₃.memory 0 = { s.memory 0 with label := .integer label } := by
        rw [hafter₃.frame 0 (Or.inl (by omega)), hnode]
      refine ⟨s₃, hread₁.trans (hread₂.trans hreads₃), ?_, ?_, ?_, hafter₃.good,
        ⟨ws'', hws'', hafter₃.text⟩, by rw [hzero], by rw [hzero], ?_⟩
      · rw [hafter₃.stop, hstop₂]
      · rw [hafter₃.openParens]
        change s.stop :: s.openParens = [0]
        rw [hstop, hopen]
      · rw [hafter₃.maxRuleid]
        simp [ReadState.labelled, ReadState.opened, ReadState.setLabel, Items.maxRule,
          Nat.max_assoc]
      · rw [← hstop₂]
        exact hafter₃.laid

/-- After the last parenthesis the forest is complete. -/
theorem BeforeLast.readsForest {s s' : ReadState} {label : ℕ} {kids : Items} {rest : List Char}
    (h : BeforeLast s s' label kids rest) :
    ReadsForest (.ok (s'.closed 0 [] rest).finish) (.node label kids .nil) s.maxRuleid rest := by
  have hzero : (s'.closed 0 [] rest).finish.memory 0 = ⟨1 + kids.size, .integer label⟩ := by
    simp [ReadState.finish, ReadState.setNext, ReadState.closed, h.label, h.stop]
  have hlaid : (Items.node label kids .nil).Laid (s'.closed 0 [] rest).finish.memory 0 := by
    refine ⟨by rw [hzero, Nat.zero_add], h.laid.congr fun j hj _ => ?_, trivial⟩
    simp [ReadState.finish, ReadState.setNext, ReadState.closed,
      Function.update_of_ne (show j ≠ 0 by omega)]
  refine ⟨_, rfl, ?_, rfl, h.good, h.maxRuleid⟩
  rw [ReadState.forest, ← hlaid.map_range']
  have hstop : (s'.closed 0 [] rest).finish.stop = (Items.node label kids .nil).size := by
    simp [ReadState.finish, ReadState.setNext, ReadState.closed, h.stop]
  rw [hstop]

theorem readsForest_leafed {s : ReadState} (hstop : s.stop = 0) (hgood : s.good = true) (rule : ℕ)
    (rest : List Char) :
    ReadsForest (.ok (s.leafed rule rest).finish) (.node rule .nil .nil) s.maxRuleid rest := by
  refine ⟨_, rfl, ?_, rfl, hgood, by simp [ReadState.finish, ReadState.setNext, ReadState.leafed,
    Items.maxRule]⟩
  simp [ReadState.forest, ReadState.finish, ReadState.setNext, hstop, Items.layout]

/-- **The stream reader** reads a forest text as the array of its nodes, whatever the
memory held, if there is room for one node more. -/
theorem genioRead_text {t : TextItems} {items : Items} {text rest : List Char}
    (h : IsForestText t items text rest) (memory : ℕ → ForestNode) {space : ℕ} (maxRuleid : ℕ)
    (hspace : items.size < space) :
    ReadsForest (genioRead memory space maxRuleid text) items maxRuleid rest := by
  have hnext : (((ReadState.start memory maxRuleid text).setNext 0 space).memory 0).next = space := by
    simp [ReadState.setNext, ReadState.start]
  cases h with
  | leaf h =>
    cases h with
    | @leaf _ _ ws digits tail _ hws hrule hahead hrest =>
      cases hrest with
      | nil =>
        have hstep := genioStep_leaf (s := (ReadState.start memory maxRuleid
            (ws ++ (digits ++ rest))).setNext 0 space)
          ⟨rfl, by rw [hnext]; exact Nat.lt_of_le_of_lt (Nat.zero_le _) hspace⟩ rfl rfl hws hrule hahead
        rw [genioRead, genioLoop_step (Or.inl rfl) hstep, genioLoop_done (Nat.succ_ne_zero _) rfl]
        exact readsForest_leafed rfl rfl _ _
  | node h hresolve =>
    rcases reads_root genio_readsTokens h
      (s := (ReadState.start memory maxRuleid text).setNext 0 space) rfl rfl rfl rfl rfl
      (by rw [hnext]; simpa using hspace) hresolve with ⟨s', ⟨k, hk, hloop⟩, hlast⟩
    rcases hlast.text with ⟨ws, hws, htext⟩
    have hready : s'.Ready (s'.memory 0).next :=
      ⟨hlast.good, by rw [hlast.next, hnext, hlast.stop]; simpa using hspace⟩
    have hstep := genioStep_close hready hlast.openParens htext hws
    have hfuel : text.length + 1 = k + (text.length - k + 1) := by
      change k + s'.text.length ≤ text.length at hk
      omega
    rw [genioRead, hfuel, hloop, genioLoop_step (Or.inr (by simp [hlast.openParens])) hstep,
      genioLoop_done (by change s'.stop ≠ 0; rw [hlast.stop]; omega) rfl]
    exact hlast.readsForest

/-- **The reader with an allocator** reads the same array. -/
theorem allocRead_text {t : TextItems} {items : Items} {text rest : List Char}
    (h : IsForestText t items text rest) (memory : ℕ → ForestNode) {limit : ℕ} (maxRuleid : ℕ)
    (hlimit : items.size < limit) :
    ReadsForest (allocRead memory limit maxRuleid text) items maxRuleid rest := by
  cases h with
  | leaf h =>
    cases h with
    | @leaf _ _ ws digits tail _ hws hrule hahead hrest =>
      cases hrest with
      | nil =>
        have hstep := allocStep_leaf (s := ReadState.start memory maxRuleid
            (ws ++ (digits ++ rest)))
          ⟨rfl, Nat.lt_of_le_of_lt (Nat.zero_le _) hlimit⟩ rfl rfl hws hrule hahead
        rw [allocRead, allocLoop, hstep]
        exact readsForest_leafed rfl rfl _ _
  | node h hresolve =>
    rcases reads_root (alloc_readsTokens limit) h
      (s := ReadState.start memory maxRuleid text) rfl rfl rfl rfl rfl
      (by simpa using hlimit) hresolve with ⟨s', ⟨k, hk, hloop⟩, hlast⟩
    rcases hlast.text with ⟨ws, hws, htext⟩
    have hstep : allocStep limit s' = .ok (true, s'.closed 0 [] rest) :=
      allocStep_close hlast.good hlast.openParens (by rw [hlast.stop]; omega) htext hws
    have hfuel : text.length + 1 = k + (text.length - k + 1) := by
      change k + s'.text.length ≤ text.length at hk
      omega
    rw [allocRead, hfuel, hloop, allocLoop, hstep]
    exact hlast.readsForest

end Carmel.Forest
