/-
# Symbols in a text

A symbol is quoted, or stands between stars and is put in lower case, or runs up to a
separator. The buffer is bounded, and a symbol that does not fit ends the reading. Texts are
lists of characters other than the one that ends a C string.
-/

import Carmel.Fst.Wfst
import Carmel.Math.Extraction

namespace Carmel

/-- `DEFAULTSTRBUFSIZE`. -/
def defaultStrBufSize : ℕ := 4096

/-- What the buffer has left for the characters after the first. -/
def bufferRoom : ℕ := defaultStrBufSize - 3

/-- The rest of a quoted symbol; `l` tells that a backslash came last. A symbol
too long for the buffer is not modelled as a name: the source leaves a character
of it undefined. -/
def quotedRest : Bool → ℕ → List Char → Option (List Char × List Char)
  | _, _, [] => none
  | _, 0, _ :: _ => none
  | l, room + 1, c :: text =>
    if c = '"' ∧ l = false then some ([c], text)
    else (quotedRest (c = '\\' && !l) room text).map fun p => (c :: p.1, p.2)

/-- The rest of a symbol that began with a star. -/
def specialRest : ℕ → List Char → Option (List Char × List Char)
  | _, [] => none
  | 0, _ :: _ => none
  | room + 1, c :: text =>
    if c = '*' then some ([c], text)
    else (specialRest room text).map fun p => (c.toLower :: p.1, p.2)

/-- A separator is consumed, `!` and `)` are put back. -/
def plainRest : ℕ → List Char → Option (List Char × List Char)
  | _, [] => some ([], [])
  | 0, _ :: _ => none
  | room + 1, c :: text =>
    if c = '\n' ∨ c = '\t' ∨ c = ' ' then some ([], text)
    else if c = '!' ∨ c = ')' then some ([], c :: text)
    else (plainRest room text).map fun p => (c :: p.1, p.2)

/-- A carriage return at the end is dropped. -/
def dropCr (name : List Char) : List Char :=
  if name.getLast? = some '\r' then name.dropLast else name

/-- `getString`: the next symbol and the text after it. -/
def getString (text : List Char) : Option (List Char × List Char) :=
  match text.dropWhile isSpace with
  | [] => none
  | c :: text =>
    if c = '"' then (quotedRest false bufferRoom text).map fun p => (c :: p.1, p.2)
    else if c = '*' then (specialRest bufferRoom text).map fun p => (c :: p.1, p.2)
    else if c = '(' ∨ c = ')' then none
    else (plainRest bufferRoom text).map fun p => (dropCr (c :: p.1), p.2)

/-- The symbols that are read one after another, `fuel` of them at most. -/
def getStrings : ℕ → List Char → List (List Char)
  | 0, _ => []
  | fuel + 1, text =>
    match getString text with
    | none => []
    | some (symbol, rest) => symbol :: getStrings fuel rest

/-- The symbols of a text, up to the first place where none can be read. -/
def symbolsOf (text : List Char) : List (List Char) := getStrings text.length text

/-- `index_of`: the index of a name, which is added when it is new. -/
def Alphabet.indexOf (alph : Alphabet) (name : String) : ℕ × Alphabet :=
  if h : name ∈ alph.names then (alph.names.idxOf name, alph)
  else
    (alph.size,
      { names := alph.names ++ [name]
        nodup := by simpa [List.nodup_append] using ⟨alph.nodup, fun a ha hn => h (hn ▸ ha)⟩
        epsilon := by rw [List.getElem?_append_left]; exact alph.epsilon; exact
          (List.getElem?_eq_some_iff.mp alph.epsilon).1 })

/-- The indices of the names, each looked up in the table as it then is. -/
def Alphabet.indicesOf : Alphabet → List String → List ℕ × Alphabet
  | alph, [] => ([], alph)
  | alph, name :: names =>
    let found := alph.indexOf name
    let rest := found.2.indicesOf names
    (found.1 :: rest.1, rest.2)

/-- `symbolList`. -/
def symbolList (alph : Alphabet) (buf : List Char) : List ℕ × Alphabet :=
  alph.indicesOf ((symbolsOf buf).map String.ofList)

section Rests

variable {room : ℕ} {l : Bool} {text v rest : List Char}

/-- A quoted symbol is what the text begins with, ends in its quote, and is read again
whatever follows it. -/
theorem quotedRest_spec (h : quotedRest l room text = some (v, rest)) :
    text = v ++ rest ∧ v.getLast? = some '"' ∧
      ∀ tail, quotedRest l room (v ++ tail) = some (v, tail) := by
  induction text generalizing l room v with
  | nil => simp [quotedRest] at h
  | cons c text ih =>
    cases room with
    | zero => simp [quotedRest] at h
    | succ room =>
      by_cases hc : c = '"' ∧ l = false
      · simp only [quotedRest, if_pos hc, Option.some.injEq, Prod.mk.injEq] at h
        simp [← h.1, h.2, quotedRest, hc]
      · simp only [quotedRest, if_neg hc, Option.map_eq_some_iff, Prod.mk.injEq, Prod.exists] at h
        rcases h with ⟨v, rest', hv, rfl, rfl⟩
        rcases ih hv with ⟨rfl, hlast, hagain⟩
        refine ⟨rfl, by simp [List.getLast?_cons, hlast], fun tail => ?_⟩
        simp only [List.cons_append, quotedRest, if_neg hc, hagain, Option.map_some]

/-- Lower case changes capitals, which become small letters. -/
theorem toLower_eq_or (c : Char) :
    c.toLower = c ∨ 65 ≤ c.toNat ∧ c.toNat ≤ 90 ∧ c.toLower.toNat = c.toNat + 32 := by
  unfold Char.toLower
  split
  · rename_i h
    have hlow : 65 ≤ c.val.toNat := h.1
    have hhigh : c.val.toNat ≤ 90 := h.2
    have hsum : (c.val + ('a'.val - 'A'.val)).toNat = c.val.toNat + 32 := by
      rw [UInt32.toNat_add, show ('a'.val - 'A'.val).toNat = 32 by decide]
      omega
    exact Or.inr ⟨hlow, hhigh, hsum⟩
  · exact Or.inl rfl

theorem toLower_toLower (c : Char) : c.toLower.toLower = c.toLower := by
  rcases toLower_eq_or c with h | ⟨hlow, -, hsum⟩
  · rw [h, h]
  · rcases toLower_eq_or c.toLower with h' | ⟨-, hhigh, -⟩
    · exact h'
    · omega

/-- Lower case makes no character that is not a small letter. -/
theorem eq_of_toLower_eq {c d : Char} (hd : d.toNat < 97) (h : c.toLower = d) : c = d := by
  rcases toLower_eq_or c with hc | ⟨hlow, -, hsum⟩
  · exact hc.symm.trans h
  · rw [h] at hsum
    omega

theorem toLower_ne_star {c : Char} (h : c ≠ '*') : c.toLower ≠ '*' :=
  fun hc => h (eq_of_toLower_eq (by decide) hc)

/-- A symbol between stars is what the text begins with in lower case, ends in its star,
and is read again whatever follows it. -/
theorem specialRest_spec (h : specialRest room text = some (v, rest)) :
    (∃ u, text = u ++ rest ∧ v = u.map Char.toLower) ∧ v.getLast? = some '*' ∧
      ∀ tail, specialRest room (v ++ tail) = some (v, tail) := by
  induction text generalizing room v with
  | nil => simp [specialRest] at h
  | cons c text ih =>
    cases room with
    | zero => simp [specialRest] at h
    | succ room =>
      by_cases hc : c = '*'
      · simp only [specialRest, if_pos hc, Option.some.injEq, Prod.mk.injEq] at h
        exact ⟨⟨[c], by simp [h.2], by simp [← h.1, hc]⟩, by simp [← h.1, hc],
          by simp [← h.1, specialRest, hc]⟩
      · simp only [specialRest, if_neg hc, Option.map_eq_some_iff, Prod.mk.injEq, Prod.exists] at h
        rcases h with ⟨v, rest', hv, rfl, rfl⟩
        rcases ih hv with ⟨⟨u, rfl, rfl⟩, hlast, hagain⟩
        refine ⟨⟨c :: u, rfl, rfl⟩, by simp [List.getLast?_cons, hlast], fun tail => ?_⟩
        simp only [List.cons_append, specialRest, if_neg (toLower_ne_star hc), hagain,
          Option.map_some, toLower_toLower]

/-- Characters that end a symbol without delimiters. -/
def EndsPlain (c : Char) : Prop := c = '\n' ∨ c = '\t' ∨ c = ' ' ∨ c = '!' ∨ c = ')'

theorem plainRest_cons {c : Char} (hc : ¬EndsPlain c) (room : ℕ) (text : List Char) :
    plainRest (room + 1) (c :: text) = (plainRest room text).map fun p => (c :: p.1, p.2) := by
  simp only [EndsPlain, not_or] at hc
  rw [plainRest, if_neg (by simp [hc]), if_neg (by simp [hc])]

/-- What a symbol without delimiters takes, and that it left room for the
character that ended it. -/
theorem plainRest_spec (h : plainRest room text = some (v, rest)) :
    (∀ c ∈ v, ¬EndsPlain c) ∧ v.length ≤ room ∧ (rest ≠ [] → v.length < room) ∧
      ∃ u, text = v ++ u ++ rest := by
  induction text generalizing room v with
  | nil =>
    simp only [plainRest, Option.some.injEq, Prod.mk.injEq] at h
    simp [← h.1, ← h.2]
  | cons c text ih =>
    cases room with
    | zero => simp [plainRest] at h
    | succ room =>
      by_cases hc : EndsPlain c
      · have hv : v = [] ∧ ∃ u, c :: text = u ++ rest := by
          rcases hc with rfl | rfl | rfl | rfl | rfl <;>
            simp only [plainRest, Option.some.injEq, Prod.mk.injEq, if_true, if_false,
              true_or, or_true, false_or, Char.reduceEq] at h
          · exact ⟨h.1.symm, [_], by rw [h.2]; rfl⟩
          · exact ⟨h.1.symm, [_], by rw [h.2]; rfl⟩
          · exact ⟨h.1.symm, [_], by rw [h.2]; rfl⟩
          · exact ⟨h.1.symm, [], by rw [h.2]; rfl⟩
          · exact ⟨h.1.symm, [], by rw [h.2]; rfl⟩
        simpa [hv.1] using hv.2
      · rw [plainRest_cons hc] at h
        simp only [Option.map_eq_some_iff, Prod.mk.injEq, Prod.exists] at h
        rcases h with ⟨v, rest', hv, rfl, rfl⟩
        rcases ih hv with ⟨hchars, hlen, hlt, u, rfl⟩
        exact ⟨by simpa [hc] using hchars, by simpa using hlen, fun hne => by simpa using hlt hne,
          u, rfl⟩

theorem plainRest_self (hv : ∀ c ∈ v, ¬EndsPlain c) (hlen : v.length ≤ room) :
    plainRest room v = some (v, []) := by
  induction v generalizing room with
  | nil => cases room <;> rfl
  | cons c v ih =>
    cases room with
    | zero => simp at hlen
    | succ room =>
      rw [plainRest_cons (hv c (List.mem_cons_self ..)),
        ih (fun d hd => hv d (List.mem_cons_of_mem _ hd)) (by simpa using hlen)]
      rfl

theorem plainRest_append_space (hv : ∀ c ∈ v, ¬EndsPlain c) (hlen : v.length < room)
    (tail : List Char) : plainRest room (v ++ ' ' :: tail) = some (v, tail) := by
  induction v generalizing room with
  | nil =>
    cases room with
    | zero => simp at hlen
    | succ room => simp [plainRest]
  | cons c v ih =>
    cases room with
    | zero => simp at hlen
    | succ room =>
      rw [List.cons_append, plainRest_cons (hv c (List.mem_cons_self ..)),
        ih (fun d hd => hv d (List.mem_cons_of_mem _ hd)) (by simpa using hlen)]
      rfl

end Rests

theorem dropCr_cons {c : Char} (hc : isSpace c = false) (v : List Char) :
    ∃ v', dropCr (c :: v) = c :: v' ∧ v'.length ≤ v.length ∧ ∀ d ∈ v', d ∈ v := by
  by_cases hlast : (c :: v).getLast? = some '\r'
  · cases v with
    | nil =>
      simp only [List.getLast?_singleton, Option.some.injEq] at hlast
      simp [hlast, isSpace] at hc
    | cons d v =>
      refine ⟨(d :: v).dropLast, by rw [dropCr, if_pos hlast]; rfl, by simp, fun e he => ?_⟩
      exact List.dropLast_subset _ he
  · exact ⟨v, if_neg hlast, Nat.le_refl _, fun d hd => hd⟩

/-- A name that a transducer can have: one that is read from a text that goes on. -/
def IsSymbol (name : List Char) : Prop :=
  ∃ text rest, rest ≠ [] ∧ getString text = some (name, rest)

/-- How a symbol begins, and what follows its first character. -/
inductive SymbolShape : List Char → Prop
  | quoted {v : List Char} (h : ∀ tail, quotedRest false bufferRoom (v ++ tail) = some (v, tail)) :
      SymbolShape ('"' :: v)
  | special {v : List Char} (h : ∀ tail, specialRest bufferRoom (v ++ tail) = some (v, tail)) :
      SymbolShape ('*' :: v)
  | plain {c : Char} {v : List Char} (hspace : isSpace c = false)
      (hc : c ≠ '"' ∧ c ≠ '*' ∧ c ≠ '(' ∧ c ≠ ')') (hv : ∀ d ∈ v, ¬EndsPlain d)
      (hlen : v.length < bufferRoom) : SymbolShape (c :: v)

theorem dropCr_of_getLast? {name : List Char} (h : name.getLast? ≠ some '\r') : dropCr name = name :=
  if_neg h

theorem getLast?_ne_of_dropCr {name : List Char} (hne : name ≠ []) (h : dropCr name = name) :
    name.getLast? ≠ some '\r' := by
  intro hlast
  rw [dropCr, if_pos hlast] at h
  have hlen := congrArg List.length h
  have hpos := List.length_pos_of_ne_nil hne
  rw [List.length_dropLast] at hlen
  omega

/-- The three ways in which a symbol is read. -/
theorem getString_cases {text name rest : List Char} (h : getString text = some (name, rest)) :
    ∃ c tail v, text.dropWhile isSpace = c :: tail ∧ isSpace c = false ∧
      (c = '"' ∧ quotedRest false bufferRoom tail = some (v, rest) ∧ name = c :: v ∨
        c = '*' ∧ specialRest bufferRoom tail = some (v, rest) ∧ name = c :: v ∨
        (c ≠ '"' ∧ c ≠ '*' ∧ c ≠ '(' ∧ c ≠ ')') ∧ plainRest bufferRoom tail = some (v, rest) ∧
          name = dropCr (c :: v)) := by
  unfold getString at h
  cases htext : text.dropWhile isSpace with
  | nil => simp [htext] at h
  | cons c tail =>
    have hspace : isSpace c = false := by
      have := List.head?_dropWhile_not isSpace text
      simpa [htext] using this
    simp only [htext] at h
    split at h
    · rename_i hc
      simp only [Option.map_eq_some_iff, Prod.mk.injEq, Prod.exists] at h
      rcases h with ⟨v, rest', hv, rfl, rfl⟩
      exact ⟨c, tail, v, rfl, hspace, Or.inl ⟨hc, hv, rfl⟩⟩
    · split at h
      · rename_i hc
        simp only [Option.map_eq_some_iff, Prod.mk.injEq, Prod.exists] at h
        rcases h with ⟨v, rest', hv, rfl, rfl⟩
        exact ⟨c, tail, v, rfl, hspace, Or.inr (Or.inl ⟨hc, hv, rfl⟩)⟩
      · split at h
        · simp at h
        · rename_i hquote hstar hparen
          simp only [Option.map_eq_some_iff, Prod.mk.injEq, Prod.exists] at h
          rcases h with ⟨v, rest', hv, rfl, rfl⟩
          rw [not_or] at hparen
          exact ⟨c, tail, v, rfl, hspace, Or.inr (Or.inr ⟨⟨hquote, hstar, hparen⟩, hv, rfl⟩)⟩

/-- Where a symbol comes from: a stretch of the text, of which the symbol has the
characters or their lower case. -/
theorem getString_stretch {text name rest : List Char} (h : getString text = some (name, rest)) :
    ∃ before c u, text = before ++ c :: u ++ rest ∧ name ≠ [] ∧
      ∀ d ∈ name, d ∈ c :: u ∨ ∃ d' ∈ c :: u, d = d'.toLower := by
  rcases getString_cases h with ⟨c, tail, v, htext, hspace, hcase⟩
  have hsplit : text = text.takeWhile isSpace ++ c :: tail := by
    rw [← htext, List.takeWhile_append_dropWhile]
  rcases hcase with ⟨-, hv, rfl⟩ | ⟨-, hv, rfl⟩ | ⟨hc, hv, rfl⟩
  · rw [(quotedRest_spec hv).1] at hsplit
    exact ⟨_, c, v, by simpa using hsplit, by simp, fun d hd => Or.inl hd⟩
  · rcases (specialRest_spec hv).1 with ⟨u, rfl, rfl⟩
    refine ⟨_, c, u, by simpa using hsplit, by simp, fun d hd => ?_⟩
    cases hd with
    | head => exact Or.inl (List.mem_cons_self ..)
    | tail _ hd =>
      rcases List.mem_map.mp hd with ⟨d', hd', rfl⟩
      exact Or.inr ⟨d', List.mem_cons_of_mem _ hd', rfl⟩
  · rcases plainRest_spec hv with ⟨-, -, -, u, rfl⟩
    rcases dropCr_cons hspace v with ⟨v', hdrop, -, hsub⟩
    refine ⟨_, c, v ++ u, by simpa using hsplit, by simp [hdrop], fun d hd => Or.inl ?_⟩
    rw [hdrop] at hd
    cases hd with
    | head => exact List.mem_cons_self ..
    | tail _ hd => exact List.mem_cons_of_mem _ (List.mem_append_left _ (hsub d hd))

theorem length_lt_of_getString {text name rest : List Char}
    (h : getString text = some (name, rest)) : rest.length < text.length := by
  rcases getString_stretch h with ⟨before, c, u, rfl, -⟩
  simp only [List.length_append, List.length_cons]
  omega

theorem newline_notMem_of_getString {text name rest : List Char}
    (h : getString text = some (name, rest)) (hline : '\n' ∉ text) : '\n' ∉ name ∧ '\n' ∉ rest := by
  rcases getString_stretch h with ⟨before, c, u, rfl, -, hchars⟩
  simp only [List.mem_append, not_or] at hline
  refine ⟨fun hmem => ?_, hline.2⟩
  rcases hchars '\n' hmem with hd | ⟨d, hd, hlow⟩
  · exact hline.1.2 hd
  · have := eq_of_toLower_eq (by decide) hlow.symm
    exact hline.1.2 (this ▸ hd)

theorem IsSymbol.shape {name : List Char} (h : IsSymbol name) : SymbolShape name := by
  rcases h with ⟨text, rest, hne, h⟩
  rcases getString_cases h with ⟨c, tail, v, -, hspace, hcase⟩
  rcases hcase with ⟨rfl, hv, rfl⟩ | ⟨rfl, hv, rfl⟩ | ⟨hc, hv, rfl⟩
  · exact .quoted (quotedRest_spec hv).2.2
  · exact .special (specialRest_spec hv).2.2
  · rcases plainRest_spec hv with ⟨hchars, -, hlt, -⟩
    rcases dropCr_cons hspace v with ⟨v', hdrop, hlen, hsub⟩
    rw [hdrop]
    exact .plain hspace hc (fun d hd => hchars d (hsub d hd)) (Nat.lt_of_le_of_lt hlen (hlt hne))

/-- At the end of a line a name is read back, less a carriage return. -/
theorem SymbolShape.getString_self {name : List Char} (h : SymbolShape name) :
    getString name = some (dropCr name, []) := by
  cases h with
  | @quoted v h =>
    have hv := h []
    rw [List.append_nil] at hv
    have hlast : ('"' :: v).getLast? ≠ some '\r' := by
      simp [List.getLast?_cons, (quotedRest_spec hv).2.1]
    simp [getString, isSpace, hv, dropCr_of_getLast? hlast]
  | @special v h =>
    have hv := h []
    rw [List.append_nil] at hv
    have hlast : ('*' :: v).getLast? ≠ some '\r' := by
      simp [List.getLast?_cons, (specialRest_spec hv).2.1]
    simp [getString, isSpace, hv, dropCr_of_getLast? hlast]
  | @plain c v hspace hc hv hlen =>
    simp [getString, hspace, hc, plainRest_self hv (Nat.le_of_lt hlen)]

/-- Before a space a name is read back, less a carriage return. -/
theorem SymbolShape.getString_space {name : List Char} (h : SymbolShape name) (tail : List Char) :
    getString (name ++ ' ' :: tail) = some (dropCr name, tail) ∨
      getString (name ++ ' ' :: tail) = some (dropCr name, ' ' :: tail) := by
  cases h with
  | @quoted v h =>
    have hv := h (' ' :: tail)
    have hlast : ('"' :: v).getLast? ≠ some '\r' := by
      simp [List.getLast?_cons, (quotedRest_spec hv).2.1]
    exact Or.inr (by simp [getString, isSpace, hv, dropCr_of_getLast? hlast])
  | @special v h =>
    have hv := h (' ' :: tail)
    have hlast : ('*' :: v).getLast? ≠ some '\r' := by
      simp [List.getLast?_cons, (specialRest_spec hv).2.1]
    exact Or.inr (by simp [getString, isSpace, hv, dropCr_of_getLast? hlast])
  | @plain c v hspace hc hv hlen =>
    exact Or.inl (by simp [getString, hspace, hc, plainRest_append_space hv hlen])

theorem getStrings_of_le {fuel fuel' : ℕ} {text : List Char} (h : text.length ≤ fuel)
    (h' : text.length ≤ fuel') : getStrings fuel text = getStrings fuel' text := by
  have hnil : getString [] = none := rfl
  induction fuel generalizing fuel' text with
  | zero =>
    rw [List.length_eq_zero_iff.mp (Nat.le_zero.mp h)]
    cases fuel' with
    | zero => rfl
    | succ fuel' => rw [getStrings, getStrings, hnil]
  | succ fuel ih =>
    cases fuel' with
    | zero => rw [List.length_eq_zero_iff.mp (Nat.le_zero.mp h'), getStrings, getStrings, hnil]
    | succ fuel' =>
      simp only [getStrings]
      cases hsymbol : getString text with
      | none => rfl
      | some p =>
        have hlt := length_lt_of_getString hsymbol
        simp only [ih (Nat.le_of_lt_succ (Nat.lt_of_lt_of_le hlt h))
          (Nat.le_of_lt_succ (Nat.lt_of_lt_of_le hlt h'))]

@[simp] theorem symbolsOf_nil : symbolsOf [] = [] := rfl

theorem symbolsOf_of_none {text : List Char} (h : getString text = none) : symbolsOf text = [] := by
  cases hlen : text.length with
  | zero => rw [symbolsOf, hlen, getStrings]
  | succ n => rw [symbolsOf, hlen, getStrings, h]

theorem symbolsOf_of_some {text name rest : List Char} (h : getString text = some (name, rest)) :
    symbolsOf text = name :: symbolsOf rest := by
  have hlt := length_lt_of_getString h
  rw [symbolsOf, getStrings_of_le (Nat.le_refl _) (Nat.le_succ text.length), getStrings, h]
  exact congrArg _ (getStrings_of_le (Nat.le_of_lt hlt) (Nat.le_refl _))

theorem symbolsOf_space (text : List Char) : symbolsOf (' ' :: text) = symbolsOf text := by
  have hspace : getString (' ' :: text) = getString text := rfl
  cases h : getString text with
  | none => rw [symbolsOf_of_none h, symbolsOf_of_none (hspace.trans h)]
  | some p => rw [symbolsOf_of_some h, symbolsOf_of_some (hspace.trans h)]

theorem newline_notMem_of_mem_symbolsOf {text : List Char} (hline : '\n' ∉ text) :
    ∀ name ∈ symbolsOf text, '\n' ∉ name := by
  rw [symbolsOf]
  generalize text.length = fuel
  induction fuel generalizing text with
  | zero => simp [getStrings]
  | succ fuel ih =>
    simp only [getStrings]
    cases hsymbol : getString text with
    | none => simp
    | some p =>
      rcases newline_notMem_of_getString hsymbol hline with ⟨hname, hrest⟩
      intro name hmem
      cases hmem with
      | head => exact hname
      | tail _ hmem => exact ih hrest name hmem

/-- What a `symSeq` prints, given the spellings: they stand one space apart. -/
def printSpaced : List (List Char) → List Char
  | [] => []
  | [name] => name
  | name :: names => name ++ ' ' :: printSpaced names

@[simp] theorem printSpaced_cons_cons (name next : List Char) (names : List (List Char)) :
    printSpaced (name :: next :: names) = name ++ ' ' :: printSpaced (next :: names) := rfl

theorem mem_printSpaced {names : List (List Char)} {c : Char} (hc : c ≠ ' ') :
    c ∈ printSpaced names ↔ ∃ name ∈ names, c ∈ name := by
  induction names with
  | nil => simp [printSpaced]
  | cons name names ih =>
    cases names with
    | nil => simp [printSpaced]
    | cons next names => simp [ih, hc]

/-- Names that are printed are read back, less a carriage return at their end. -/
theorem symbolsOf_printSpaced {names : List (List Char)} (h : ∀ name ∈ names, IsSymbol name) :
    symbolsOf (printSpaced names) = names.map dropCr := by
  induction names with
  | nil => rfl
  | cons name names ih =>
    have hshape := (h name (List.mem_cons_self ..)).shape
    cases names with
    | nil => exact symbolsOf_of_some hshape.getString_self
    | cons next names =>
      have htail := ih fun name hname => h name (List.mem_cons_of_mem _ hname)
      rw [printSpaced_cons_cons, List.map_cons, ← htail]
      rcases hshape.getString_space (printSpaced (next :: names)) with hread | hread
      · exact symbolsOf_of_some hread
      · rw [symbolsOf_of_some hread, symbolsOf_space]

example : (symbolsOf "a  \"b c\" *E* d!2 e)f".toList).map String.ofList =
    ["a", "\"b c\"", "*e*", "d", "!2", "e"] := by decide


namespace Alphabet

variable {alph alph' : Alphabet} {name : String} {i : ℕ}

/-- The names of an index, as it is spelled. -/
def spelling (alph : Alphabet) (i : ℕ) : List Char := ((alph.name? i).getD "").toList

theorem name?_of_isPrefix (h : alph.names <+: alph'.names) (hi : alph.name? i = some name) :
    alph'.name? i = some name := by
  rcases h with ⟨more, hmore⟩
  rw [name?, ← hmore, List.getElem?_append_left (List.getElem?_eq_some_iff.mp hi).1]
  exact hi

theorem isPrefix_indexOf (alph : Alphabet) (name : String) :
    alph.names <+: (alph.indexOf name).2.names := by
  unfold indexOf
  split
  · exact List.prefix_rfl
  · exact List.prefix_append ..

theorem name?_indexOf (alph : Alphabet) (name : String) :
    (alph.indexOf name).2.name? (alph.indexOf name).1 = some name := by
  unfold indexOf
  split
  · rename_i h
    exact List.getElem?_idxOf h
  · simp [name?, size]

theorem indexOf_of_name? (h : alph.name? i = some name) : alph.indexOf name = (i, alph) := by
  rcases List.getElem?_eq_some_iff.mp h with ⟨hi, hname⟩
  have hmem : name ∈ alph.names := hname ▸ List.getElem_mem hi
  have hidx : alph.names.idxOf name = i := by
    rw [← hname]
    exact alph.nodup.idxOf_getElem i hi
  rw [indexOf, dif_pos hmem, hidx]

theorem isPrefix_indicesOf (alph : Alphabet) (names : List String) :
    alph.names <+: (alph.indicesOf names).2.names := by
  induction names generalizing alph with
  | nil => exact List.prefix_rfl
  | cons name names ih => exact (alph.isPrefix_indexOf name).trans (ih _)

theorem map_name?_indicesOf (alph : Alphabet) (names : List String) :
    (alph.indicesOf names).1.map (alph.indicesOf names).2.name? = names.map some := by
  induction names generalizing alph with
  | nil => rfl
  | cons name names ih =>
    have hhead := name?_of_isPrefix (isPrefix_indicesOf (alph.indexOf name).2 names)
      (alph.name?_indexOf name)
    simp only [indicesOf, List.map_cons, hhead, ih]

theorem indicesOf_of_map_name? {names : List String} {indices : List ℕ}
    (h : indices.map alph.name? = names.map some) : alph.indicesOf names = (indices, alph) := by
  induction names generalizing indices with
  | nil => simp_all [indicesOf]
  | cons name names ih =>
    cases indices with
    | nil => simp at h
    | cons i indices =>
      simp only [List.map_cons, List.cons.injEq] at h
      simp only [indicesOf, indexOf_of_name? h.1, ih h.2]

end Alphabet

section PrintedSequences

variable {alph : Alphabet} {indices : List ℕ}

/-- `symSeq::print`. -/
def printSymSeq (alph : Alphabet) (indices : List ℕ) : List Char :=
  printSpaced (indices.map alph.spelling)

theorem Alphabet.name?_eq_spelling {i : ℕ} (hi : i < alph.size) :
    alph.name? i = some (String.ofList (alph.spelling i)) := by
  have hname : alph.name? i = some (alph.names.get ⟨i, hi⟩) := List.getElem?_eq_getElem hi
  simp [spelling, hname]

/-- The indices of printed names lead to the names, also in a table that has grown. -/
theorem map_name?_eq_spelling {alph' : Alphabet} (hmore : alph.names <+: alph'.names)
    (hlt : ∀ i ∈ indices, i < alph.size) :
    indices.map alph'.name? = ((indices.map alph.spelling).map String.ofList).map some := by
  rw [List.map_map, List.map_map]
  exact List.map_congr_left fun i hi =>
    Alphabet.name?_of_isPrefix hmore (Alphabet.name?_eq_spelling (hlt i hi))

theorem isSymbol_spelling (hsymbols : ∀ name ∈ alph.names, IsSymbol name.toList)
    {i : ℕ} (hi : i < alph.size) : IsSymbol (alph.spelling i) := by
  have hname : alph.name? i = some (alph.names.get ⟨i, hi⟩) := List.getElem?_eq_getElem hi
  rw [Alphabet.spelling, hname]
  exact hsymbols _ (List.get_mem ..)

theorem ne_nil_of_isSymbol {name : List Char} (h : IsSymbol name) : name ≠ [] := by
  cases h.shape <;> simp

theorem symbolsOf_printSymSeq (hsymbols : ∀ name ∈ alph.names, IsSymbol name.toList)
    (hlt : ∀ i ∈ indices, i < alph.size) :
    symbolsOf (printSymSeq alph indices) = (indices.map alph.spelling).map dropCr := by
  apply symbolsOf_printSpaced
  intro name hname
  rcases List.mem_map.mp hname with ⟨i, hi, rfl⟩
  exact isSymbol_spelling hsymbols (hlt i hi)

/-- Reading a printed sequence in a table that has grown gives the sequence and
leaves the table as it is, when no name ends in a carriage return. -/
theorem symbolList_printSymSeq {alph' : Alphabet} (hmore : alph.names <+: alph'.names)
    (hsymbols : ∀ name ∈ alph.names, IsSymbol name.toList) (hlt : ∀ i ∈ indices, i < alph.size)
    (h : ∀ i ∈ indices, (alph.spelling i).getLast? ≠ some '\r') :
    symbolList alph' (printSymSeq alph indices) = (indices, alph') := by
  have hsame : (indices.map alph.spelling).map dropCr = indices.map alph.spelling := by
    rw [List.map_map]
    exact List.map_congr_left fun i hi => dropCr_of_getLast? (h i hi)
  rw [symbolList, symbolsOf_printSymSeq hsymbols hlt, hsame,
    Alphabet.indicesOf_of_map_name? (map_name?_eq_spelling hmore hlt)]

/-- When a printed sequence is read back, no name in it ends in a carriage return. -/
theorem getLast?_ne_of_symbolList_eq {alph' : Alphabet} (hmore : alph.names <+: alph'.names)
    (hsymbols : ∀ name ∈ alph.names, IsSymbol name.toList) (hlt : ∀ i ∈ indices, i < alph.size)
    (h : (symbolList alph' (printSymSeq alph indices)).1 = indices) :
    ∀ i ∈ indices, (alph.spelling i).getLast? ≠ some '\r' := by
  intro i hi
  have hfound := alph'.map_name?_indicesOf ((symbolsOf (printSymSeq alph indices)).map String.ofList)
  have hgrown := hmore.trans
    (alph'.isPrefix_indicesOf ((symbolsOf (printSymSeq alph indices)).map String.ofList))
  rw [← symbolList] at hfound hgrown
  rw [h, map_name?_eq_spelling hgrown hlt, symbolsOf_printSymSeq hsymbols hlt] at hfound
  have hdrop := List.map_injective_iff.mpr (fun a b hab => String.ofList_injective hab)
    (List.map_injective_iff.mpr (fun a b => Option.some.inj) hfound)
  rw [List.map_map, List.map_inj_left] at hdrop
  exact getLast?_ne_of_dropCr (ne_nil_of_isSymbol (isSymbol_spelling hsymbols (hlt i hi)))
    (hdrop i hi).symm

end PrintedSequences

end Carmel
