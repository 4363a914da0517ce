/-
# The two views of an alphabet

An `Alphabet` keeps every name as a key of its hash table and in the array of names.
Positions used before they are named hold default symbols, which are in no table, and the
call operator names a position by its decimal. The two views stay inverse to each other as
long as a decimal is not already the name of another position.
-/

import Carmel.Fst.RemoveStates

namespace Carmel

/-- The default symbol, which `isDefault` tests: the name of an unnamed position. -/
def defaultSym : String := ""

namespace StateNames

/-! ## The operations -/

def empty : StateNames := ⟨[], fun _ => none⟩

def size (sn : StateNames) : ℕ := sn.names.length

/-- `add(s, n)`: the name must be new, and the position the next one. -/
def addAt (s : String) (n : ℕ) (sn : StateNames) : Option StateNames :=
  if sn.ht s = none ∧ sn.size = n then
    some { names := sn.names ++ [s], ht := Function.update sn.ht s (some sn.size) }
  else none

/-- `add(s)`. -/
def add (s : String) (sn : StateNames) : Option (ℕ × StateNames) :=
  (sn.addAt s sn.size).map (sn.size, ·)

/-- `indexOf`. -/
def indexOf (s : String) (sn : StateNames) : ℕ × StateNames :=
  match sn.ht s with
  | some i => (i, sn)
  | none => (sn.size, { names := sn.names ++ [s], ht := Function.update sn.ht s (some sn.size) })

/-- `names.at_grow(pos)`: the array, with default symbols up to the position. -/
def atGrow (pos : ℕ) (names : List String) : List String :=
  names ++ List.replicate (pos + 1 - names.length) defaultSym

/-- `operator()`: the name of a position, its decimal if it has none. -/
def nameAt (pos : ℕ) (sn : StateNames) : String × StateNames :=
  let names := atGrow pos sn.names
  if names.getD pos defaultSym = defaultSym then
    (toString pos,
      { names := names.set pos (toString pos)
        ht := Function.update sn.ht (toString pos) (some pos) })
  else (names.getD pos defaultSym, { sn with names := names })

/-- The loop of `removeMarked`, with what it may read: `marked[i]` must be there, and a name
that stays must be in the table, under an index that stays. -/
def syncTable? (marked : List Bool) :
    List (String × ℕ) → (String → Option ℕ) → Option (String → Option ℕ)
  | [], ht => some ht
  | (s, i) :: rest, ht =>
    match marked[i]? with
    | none => none
    | some true => syncTable? marked rest (Function.update ht s none)
    | some false =>
      match (ht s).bind (newIndex marked) with
      | none => none
      | some j => syncTable? marked rest (Function.update ht s (some j))

/-- `removeMarked`, where it reads nothing that is not there. -/
def removeMarked? (marked : List Bool) (sn : StateNames) : Option StateNames :=
  (syncTable? marked sn.names.zipIdx sn.ht).map fun ht =>
    { names := removeMarkedSwap marked sn.names, ht := ht }

/-- The operations that change an alphabet. -/
inductive Op where
  | add (s : String)
  | indexOf (s : String)
  | nameAt (pos : ℕ)
  | removeMarked (marked : List Bool)

def step (sn : StateNames) : Op → Option StateNames
  | .add s => (sn.add s).map Prod.snd
  | .indexOf s => some (sn.indexOf s).2
  | .nameAt pos => some (sn.nameAt pos).2
  | .removeMarked marked => sn.removeMarked? marked

def run (sn : StateNames) : List Op → Option StateNames
  | [] => some sn
  | op :: ops => (sn.step op).bind fun sn' => sn'.run ops

/-! ## What holds of the two views -/

/-- **The table and the named positions are inverse to each other.** -/
structure Inverse (sn : StateNames) : Prop where
  /-- What the table finds of a name is a position of this name. -/
  named : ∀ {s : String} {i : ℕ}, sn.ht s = some i → sn.names[i]? = some s
  /-- The table finds every named position from its name. -/
  found : ∀ {i : ℕ} {s : String}, sn.names[i]? = some s → s ≠ defaultSym → sn.ht s = some i
  /-- No name is at two positions. -/
  once : ∀ {i j : ℕ} {s : String},
    sn.names[i]? = some s → sn.names[j]? = some s → s ≠ defaultSym → i = j
  /-- The default symbol is not in the table. -/
  hidden : sn.ht defaultSym = none

/-- What an operation asks for: names are no default symbols, an added name is new, a
generated name is new, and what is removed has a flag for every position and leaves none
unnamed. -/
def Allows (sn : StateNames) : Op → Prop
  | .add s => s ≠ defaultSym ∧ sn.ht s = none
  | .indexOf s => s ≠ defaultSym
  | .nameAt pos => sn.names.getD pos defaultSym = defaultSym → sn.ht (toString pos) = none
  | .removeMarked marked => sn.size ≤ marked.length ∧
      ∀ i < sn.size, marked[i]? = some false → sn.names[i]? ≠ some defaultSym

/-- Every step of a run is allowed where it is taken. -/
def AllowsRun (sn : StateNames) : List Op → Prop
  | [] => True
  | op :: ops => sn.Allows op ∧ match sn.step op with
      | some sn' => sn'.AllowsRun ops
      | none => True

instance (sn : StateNames) : (op : Op) → Decidable (sn.Allows op)
  | .add s => inferInstanceAs (Decidable (s ≠ defaultSym ∧ sn.ht s = none))
  | .indexOf s => inferInstanceAs (Decidable (s ≠ defaultSym))
  | .nameAt pos => inferInstanceAs
      (Decidable (sn.names.getD pos defaultSym = defaultSym → sn.ht (toString pos) = none))
  | .removeMarked marked => inferInstanceAs (Decidable (sn.size ≤ marked.length ∧
      ∀ i < sn.size, marked[i]? = some false → sn.names[i]? ≠ some defaultSym))

instance decidableAllowsRun (sn : StateNames) : (ops : List Op) → Decidable (sn.AllowsRun ops)
  | [] => inferInstanceAs (Decidable True)
  | op :: ops =>
    match h : sn.step op with
    | some sn' =>
      have := decidableAllowsRun sn' ops
      decidable_of_iff (sn.Allows op ∧ sn'.AllowsRun ops) (by rw [AllowsRun, h])
    | none => decidable_of_iff (sn.Allows op) (by rw [AllowsRun, h, and_true])

variable {sn sn' : StateNames} {s : String} {i j pos : ℕ} {marked : List Bool}

theorem inverse_iff : sn.Inverse ↔
    ∀ s i, sn.ht s = some i ↔ sn.names[i]? = some s ∧ s ≠ defaultSym := by
  constructor
  · intro h s i
    constructor
    · intro hs
      refine ⟨h.named hs, ?_⟩
      rintro rfl
      rw [h.hidden] at hs
      cases hs
    · intro hs
      exact h.found hs.1 hs.2
  · intro h
    refine ⟨fun hs => ((h _ _).mp hs).1, fun hi hs => (h _ _).mpr ⟨hi, hs⟩, fun hi hj hs => ?_, ?_⟩
    · have hfound := (h _ _).mpr ⟨hi, hs⟩
      rw [(h _ _).mpr ⟨hj, hs⟩] at hfound
      exact (Option.some.inj hfound).symm
    · cases hd : sn.ht defaultSym with
      | none => rfl
      | some i => exact absurd rfl ((h _ _).mp hd).2

theorem inverse_empty : empty.Inverse := by
  rw [inverse_iff]
  intro s i
  simp [empty]

/-! ## One step -/

theorem Inverse.append (h : sn.Inverse) (hs : s ≠ defaultSym) (hnew : sn.ht s = none) :
    Inverse ⟨sn.names ++ [s], Function.update sn.ht s (some sn.size)⟩ := by
  rw [inverse_iff] at h ⊢
  intro s' i
  rcases lt_trichotomy i sn.names.length with hlt | rfl | hgt
  · have hget : (sn.names ++ [s])[i]? = sn.names[i]? := List.getElem?_append_left hlt
    by_cases hs' : s' = s
    · subst hs'
      have hnot : sn.names[i]? ≠ some s' := by
        intro hi
        rw [(h s' i).mpr ⟨hi, hs⟩] at hnew
        cases hnew
      simp only [Function.update_self, hget, size]
      constructor
      · intro hi
        exact absurd (Option.some.inj hi) (Nat.ne_of_gt hlt)
      · intro hi
        exact absurd hi.1 hnot
    · simp only [Function.update_of_ne hs', hget]
      exact h s' i
  · simp only [List.getElem?_concat_length, size]
    by_cases hs' : s' = s
    · subst hs'
      simp [hs]
    · simp only [Function.update_of_ne hs', h s', List.getElem?_eq_none le_rfl]
      simp [Ne.symm hs']
  · have hnone : (sn.names ++ [s])[i]? = none := List.getElem?_eq_none (by simp; omega)
    have hnone' : sn.names[i]? = none := List.getElem?_eq_none hgt.le
    by_cases hs' : s' = s
    · subst hs'
      simp [hnone, size, hgt.ne]
    · simp only [Function.update_of_ne hs', h s', hnone, hnone']

theorem Inverse.indexOf (h : sn.Inverse) (hs : s ≠ defaultSym) : (sn.indexOf s).2.Inverse := by
  rw [StateNames.indexOf]
  cases hfind : sn.ht s with
  | some i => exact h
  | none => exact h.append hs hfind

theorem getElem?_atGrow (names : List String) : (atGrow pos names)[i]? =
    if i < names.length then names[i]? else if i ≤ pos then some defaultSym else none := by
  rw [atGrow, List.getElem?_append, List.getElem?_replicate]
  split
  · rfl
  · split <;> split <;> first | rfl | omega

theorem getElem?_atGrow_named (names : List String) (hs : s ≠ defaultSym) :
    (atGrow pos names)[i]? = some s ↔ names[i]? = some s := by
  rw [getElem?_atGrow]
  split
  · rfl
  case isFalse hi =>
    rw [List.getElem?_eq_none (Nat.le_of_not_lt hi)]
    split <;> simp [Ne.symm hs]

theorem toString_ne_defaultSym (n : ℕ) : toString n ≠ defaultSym := Nat.repr_ne_empty

theorem Inverse.nameAt (h : sn.Inverse)
    (hnew : sn.names.getD pos defaultSym = defaultSym → sn.ht (toString pos) = none) :
    (sn.nameAt pos).2.Inverse := by
  have hgrown : (atGrow pos sn.names).getD pos defaultSym = sn.names.getD pos defaultSym := by
    rw [List.getD_eq_getElem?_getD, getElem?_atGrow, List.getD_eq_getElem?_getD]
    split
    · rfl
    case isFalse hpos => simp [List.getElem?_eq_none (Nat.le_of_not_lt hpos)]
  rw [inverse_iff] at h ⊢
  rw [StateNames.nameAt]
  simp only [hgrown]
  by_cases hunnamed : sn.names.getD pos defaultSym = defaultSym
  · have hnew := hnew hunnamed
    have hlt : pos < (atGrow pos sn.names).length := by
      rw [atGrow, List.length_append, List.length_replicate]
      omega
    simp only [if_pos hunnamed]
    intro s i
    rw [List.getElem?_set]
    by_cases hs : s = toString pos
    · subst hs
      have hk := toString_ne_defaultSym pos
      simp only [Function.update_self, Option.some.injEq]
      by_cases hi : pos = i
      · subst hi
        simp only [if_true, if_pos hlt, true_and]
        exact ⟨fun _ => hk, fun _ => trivial⟩
      · rw [if_neg hi, getElem?_atGrow_named _ hk, ← h, hnew]
        simp [hi]
    · rw [Function.update_of_ne hs, h]
      by_cases hsd : s = defaultSym
      · simp [hsd]
      by_cases hi : pos = i
      · subst hi
        simp only [if_true, if_pos hlt, Option.some.injEq, Ne.symm hs, false_and, iff_false,
          not_and]
        intro hi'
        rw [List.getD_eq_getElem?_getD, hi', Option.getD_some] at hunnamed
        exact absurd hunnamed
      · simp only [if_neg hi, getElem?_atGrow_named _ hsd]
  · simp only [if_neg hunnamed]
    intro s i
    rw [h]
    by_cases hsd : s = defaultSym
    · simp [hsd]
    · simp only [getElem?_atGrow_named _ hsd]

theorem removeMarkedSwapFrom_take {α : Type} {k : ℕ} (n to_ : ℕ) (v : List α) (h : i + n ≤ k) :
    removeMarkedSwapFrom (marked.take k) n i to_ v = removeMarkedSwapFrom marked n i to_ v := by
  induction n generalizing i to_ v with
  | zero => rfl
  | succ n ih =>
    have hget : (marked.take k).getD i false = marked.getD i false := by
      rw [List.getD_eq_getElem?_getD, List.getElem?_take_of_lt (by omega),
        List.getD_eq_getElem?_getD]
    rw [removeMarkedSwapFrom, removeMarkedSwapFrom, hget, ih _ _ (by omega), ih _ _ (by omega)]

/-- Flags past the end of the array do nothing. -/
theorem removeMarkedSwap_take {α : Type} (v : List α) :
    removeMarkedSwap (marked.take v.length) v = removeMarkedSwap marked v := by
  rw [removeMarkedSwap, removeMarkedSwap, List.take_take, min_self]
  by_cases hi : (marked.take v.length).findIdx id ≤ v.length
  · simp only [removeMarkedSwapFrom_take _ _ _ (Nat.add_sub_cancel' hi).le]
  · have hle : (marked.take v.length).findIdx id ≤ v.length :=
      List.findIdx_le_length.trans (List.length_take_le _ _)
    exact absurd hle hi

theorem newIndex_take {k : ℕ} (hi : i < k) (hlt : i < marked.length) :
    newIndex (marked.take k) i = newIndex marked i := by
  have hget : marked[i]? = some marked[i] := List.getElem?_eq_getElem hlt
  rw [newIndex_eq ((List.getElem?_take_of_lt hi).trans hget), newIndex_eq hget, List.take_take,
    min_eq_left hi.le]

theorem syncTable?_eq {l : List (String × ℕ)} {ht : String → Option ℕ}
    (hflag : ∀ p ∈ l, p.2 < marked.length)
    (hkept : ∀ p ∈ l, marked[p.2]? = some false → p.1 ≠ defaultSym)
    (hfound : ∀ p ∈ l, p.1 ≠ defaultSym → ht p.1 = some p.2)
    (honce : l.Pairwise fun p q => p.1 ≠ defaultSym → p.1 ≠ q.1) (hhidden : ht defaultSym = none) :
    syncTable? marked l ht =
      some fun s => if s ∈ l.map Prod.fst then (ht s).bind (newIndex marked) else ht s := by
  induction l generalizing ht with
  | nil => rfl
  | cons p l ih =>
    obtain ⟨s, i⟩ := p
    have hlt := hflag _ List.mem_cons_self
    have hmarked : marked[i]? = some marked[i] := List.getElem?_eq_getElem hlt
    rw [List.pairwise_cons] at honce
    -- in both cases the name gets the new index, none if it is marked
    have hrest (new : Option ℕ) (hnew : new = (ht s).bind (newIndex marked)) :
        syncTable? marked l (Function.update ht s new) = some fun s' =>
          if s' ∈ ((s, i) :: l).map Prod.fst then (ht s').bind (newIndex marked) else ht s' := by
      rw [ih (fun p hp => hflag p (List.mem_cons_of_mem _ hp))
        (fun p hp => hkept p (List.mem_cons_of_mem _ hp)) _ honce.2]
      · congr 1
        funext s'
        by_cases hs : s' = s
        · subst hs
          by_cases hsd : s' = defaultSym
          · simp [hsd ▸ hnew, hsd, hhidden]
          · have hnot : s' ∉ l.map Prod.fst := by
              intro hmem
              obtain ⟨q, hq, hqs⟩ := List.mem_map.mp hmem
              exact honce.1 q hq hsd hqs.symm
            rw [if_neg hnot, Function.update_self, hnew, List.map_cons, if_pos List.mem_cons_self]
        · simp only [Function.update_of_ne hs, List.map_cons, List.mem_cons, hs, false_or]
      · by_cases hsd : defaultSym = s
        · rw [← hsd, Function.update_self, hnew, ← hsd, hhidden]
          rfl
        · rw [Function.update_of_ne hsd, hhidden]
      · intro q hq hqd
        by_cases hqs : q.1 = s
        · exact absurd hqs.symm (honce.1 q hq (hqs ▸ hqd))
        · rw [Function.update_of_ne hqs, hfound q (List.mem_cons_of_mem _ hq) hqd]
    rw [syncTable?, hmarked]
    cases hb : marked[i] with
    | true =>
      refine hrest none ?_
      by_cases hsd : s = defaultSym
      · rw [hsd, hhidden]
        rfl
      · rw [hfound _ List.mem_cons_self hsd, Option.bind_some, newIndex_eq hmarked, hb]
        rfl
    | false =>
      have hsd := hkept _ List.mem_cons_self (hmarked.trans (congrArg some hb))
      have hnew : (ht s).bind (newIndex marked) = some (numKept (marked.take i)) := by
        rw [hfound _ List.mem_cons_self hsd, Option.bind_some, newIndex_eq hmarked, hb]
        rfl
      simp only [hnew]
      exact hrest _ hnew.symm

theorem Inverse.removeMarked? (h : sn.Inverse) (hlen : sn.size ≤ marked.length)
    (hkept : ∀ i < sn.size, marked[i]? = some false → sn.names[i]? ≠ some defaultSym) :
    ∃ sn', sn.removeMarked? marked = some sn' ∧ sn'.Inverse := by
  have hplace {p : String × ℕ} (hp : p ∈ sn.names.zipIdx) : sn.names[p.2]? = some p.1 :=
    List.mk_mem_zipIdx_iff_getElem?.mp hp
  have hlt {p : String × ℕ} (hp : p ∈ sn.names.zipIdx) : p.2 < sn.size :=
    (List.getElem?_eq_some_iff.mp (hplace hp)).1
  have honce : sn.names.zipIdx.Pairwise fun p q => p.1 ≠ defaultSym → p.1 ≠ q.1 := by
    rw [List.pairwise_iff_getElem]
    intro a b ha hb hab hd heq
    rw [List.getElem_zipIdx, List.getElem_zipIdx] at heq
    rw [List.getElem_zipIdx] at hd
    simp only at heq hd
    rw [List.length_zipIdx] at ha hb
    have ha' : sn.names[a]? = some sn.names[a] := List.getElem?_eq_getElem ha
    have hb' : sn.names[b]? = some sn.names[a] := heq ▸ List.getElem?_eq_getElem hb
    exact hab.ne (h.once ha' hb' hd)
  have hsync := syncTable?_eq (fun p hp => (hlt hp).trans_le hlen)
    (fun p hp hp' hd => hkept p.2 (hlt hp) hp' (hd ▸ hplace hp))
    (fun p hp hd => h.found (hplace hp) hd) honce h.hidden
  rw [List.zipIdx_map_fst] at hsync
  refine ⟨_, by rw [StateNames.removeMarked?, hsync, Option.map_some], ?_⟩
  rw [inverse_iff] at h ⊢
  -- a name that is not in the array is not in the table either
  have hht (s : String) : (if s ∈ sn.names then (sn.ht s).bind (newIndex marked) else sn.ht s) =
      (sn.ht s).bind (newIndex marked) := by
    split
    · rfl
    case isFalse hs =>
      cases hfind : sn.ht s with
      | none => rfl
      | some i => exact absurd (List.mem_of_getElem? ((h s i).mp hfind).1) hs
  have htake : sn.names.length = (marked.take sn.names.length).length := by
    exact (List.length_take_of_le hlen).symm
  have hnames : removeMarkedSwap marked sn.names =
      unmarked (marked.take sn.names.length) sn.names := by
    rw [← removeMarkedSwap_take, removeMarkedSwap_eq htake]
  intro s j
  simp only [hht, hnames, Option.bind_eq_some_iff]
  constructor
  · rintro ⟨i, hi, hj⟩
    obtain ⟨hi, hs⟩ := (h s i).mp hi
    have hlt := (List.getElem?_eq_some_iff.mp hi).1
    rw [← newIndex_take hlt (hlt.trans_le hlen)] at hj
    rw [unmarked_getElem? htake hj]
    exact ⟨hi, hs⟩
  · rintro ⟨hj, hs⟩
    obtain ⟨i, hi⟩ := exists_newIndex_of_lt htake (List.getElem?_eq_some_iff.mp hj).1
    rw [unmarked_getElem? htake hi] at hj
    have hlt := (List.getElem?_eq_some_iff.mp hj).1
    rw [newIndex_take hlt (hlt.trans_le hlen)] at hi
    exact ⟨i, (h s i).mpr ⟨hj, hs⟩, hi⟩

/-- An allowed operation has a result, and the views stay inverse to each other. -/
theorem Inverse.step (h : sn.Inverse) (op : Op) (hop : sn.Allows op) :
    ∃ sn', sn.step op = some sn' ∧ sn'.Inverse := by
  cases op with
  | add s =>
    have hadd : sn.step (.add s) =
        some ⟨sn.names ++ [s], Function.update sn.ht s (some sn.size)⟩ := by
      rw [StateNames.step, add, addAt, if_pos ⟨hop.2, rfl⟩]
      rfl
    exact ⟨_, hadd, h.append hop.1 hop.2⟩
  | indexOf s => exact ⟨_, rfl, h.indexOf hop⟩
  | nameAt pos => exact ⟨_, rfl, h.nameAt hop⟩
  | removeMarked marked => exact h.removeMarked? hop.1 hop.2

/-- **The views stay inverse to each other** over every run of allowed operations. -/
theorem inverse_of_allowsRun (h : sn.Inverse) (ops : List Op) (hops : sn.AllowsRun ops) :
    ∃ sn', sn.run ops = some sn' ∧ sn'.Inverse := by
  induction ops generalizing sn with
  | nil => exact ⟨sn, rfl, h⟩
  | cons op ops ih =>
    obtain ⟨sn', hstep, h'⟩ := h.step op hops.1
    rw [AllowsRun, hstep] at hops
    obtain ⟨last, hrun, hlast⟩ := ih h' hops.2
    exact ⟨last, by rw [run, hstep, Option.bind_some, hrun], hlast⟩

theorem inverse_run (ops : List Op) (hops : empty.AllowsRun ops) :
    ∃ sn, empty.run ops = some sn ∧ sn.Inverse :=
  inverse_of_allowsRun inverse_empty ops hops

/-- A position named ahead of its turn leaves an unnamed one behind it, which goes again. -/
theorem inverse_run_skip :
    ∃ sn, empty.run [.indexOf "a", .nameAt 2, .indexOf "b", .removeMarked [true, true, false, false],
      .add "a"] = some sn ∧ sn.Inverse :=
  inverse_run _ (by decide)

/-- What the call operator leaves unnamed is found nowhere, and the decimal it generates may be
the name of another position. -/
theorem not_inverse_nameAt :
    (∃ sn, empty.run [.nameAt 1] = some sn ∧ sn.size = 2 ∧ sn.names[0]? = some "" ∧
      sn.ht "" = none) ∧
    ∃ sn, empty.run [.indexOf "1", .nameAt 1] = some sn ∧ sn.names = ["1", "1"] ∧
      sn.ht "1" = some 1 :=
  ⟨⟨_, rfl, by decide, by decide, by decide⟩, ⟨_, rfl, by decide, by decide⟩⟩

end StateNames

end Carmel
