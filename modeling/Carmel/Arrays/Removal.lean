/-
# Removing marked elements

`remove_marked_swap`, `remove_if_swap` and `shuffle_removing` go over the elements that stay
where they are and exchange those that are kept to the front. The first two hold the number
of elements in an `unsigned`, and `remove_if_swap` keeps the marked ones behind the first.
-/

import Carmel.Arrays.IndicesAfter

namespace Carmel.Arrays

open Carmel.Math

variable {T : Type}

section Code

/-- The body of the second loop of `remove_marked_swap`, with the place to exchange with. -/
def removeMarkedOne (marked : ℕ → Bool) (s : List T × ℕ) (i : ℕ) : Option (List T × ℕ) :=
  if !marked i then (swapElems s.1 s.2 i).map fun v => (v, s.2 + 1) else some s

/-- `remove_marked_swap`. -/
def removeMarkedSwap [Inhabited T] (v : List T) (marked : ℕ → Bool) : Option (List T) :=
  let sz := v.length % 2 ^ 32
  if sz = 0 then some v
  else do
    let i ← skipWhile (fun i => some (!marked i)) sz 0
    let s ← (List.range' i (sz - i)).foldlM (removeMarkedOne marked) (v, i)
    some (resizeTo s.1 s.2)

/-- The body of the second loop of `remove_if_swap`. -/
def removeIfOne (pred : T → Bool) (s : List T × ℕ) (i : ℕ) : Option (List T × ℕ) := do
  let x ← s.1[i]?
  if pred x then (swapElems s.1 s.2 i).map fun v => (v, s.2 + 1) else some s

/-- `remove_if_swap`. -/
def removeIfSwap [Inhabited T] (v : List T) (pred : T → Bool) : Option (List T) :=
  let sz := v.length % 2 ^ 32
  if sz = 0 then some v
  else do
    let i ← skipWhile (fun i => (v[i]?).map fun x => !pred x) sz 0
    let s ← (List.range' i (sz - i)).foldlM (removeIfOne pred) (v, i)
    some (resizeTo s.1 s.2)

/-- The first loop of `shuffle_removing`, with `n` more places. -/
def rewriteWhile (ttable : IndicesAfter) (r : T → T) : ℕ → List T → ℕ → Option (List T × ℕ)
  | 0, v, i => some (v, i)
  | n + 1, v, i => do
    if ← ttable.removing i then some (v, i)
    else rewriteWhile ttable r n (← assignAt v i (r (← v[i]?))) (i + 1)

/-- The body of the second loop of `shuffle_removing`; `removed` rewrites for deletion. -/
def shuffleOne (ttable : IndicesAfter) (r removed : T → T) (s : List T × ℕ) (i : ℕ) :
    Option (List T × ℕ) := do
  if ← ttable.removing i then (assignAt s.1 i (removed (← s.1[i]?))).map fun v => (v, s.2)
  else do
    let v ← assignAt s.1 i (r (← s.1[i]?))
    (swapElems v s.2 i).map fun v => (v, s.2 + 1)

/-- `shuffle_removing`. -/
def shuffleRemoving (v : List T) (ttable : IndicesAfter) (r removed : T → T) :
    Option (List T × ℕ) := do
  let (v, i) ← rewriteWhile ttable r ttable.nMapped v 0
  (List.range' i (ttable.nMapped - i)).foldlM (shuffleOne ttable r removed) (v, i)

end Code

variable {v : List T} {marked keep : ℕ → Bool} {n : ℕ}

/-- The elements that are not marked. -/
def leaves (v : List T) (marked : ℕ → Bool) : List T := kept (unmarked marked) v

/-- The marks that a predicate gives. -/
def marksOf (pred : T → Bool) (v : List T) (i : ℕ) : Bool := (v[i]?).any pred

/-! ## Exchanging to the front -/

/-- A pass that exchanges every kept element with the place behind those kept before. -/
theorem exists_exchanges {f : T → T} (body : List T × ℕ → ℕ → Option (List T × ℕ)) {k : ℕ}
    (hn : n ≤ v.length) (hk : k ≤ n)
    (hkeep : ∀ i w x, i < n → keep i = true → Compacted keep f v i w → w[i]? = some x →
      ∃ w', body (w, countKept keep i) i = some (w', countKept keep i + 1) ∧
        Compacted keep f v (i + 1) w')
    (hskip : ∀ i w x, i < n → keep i = false → w[i]? = some x → ∃ y,
      ∀ a, body (w, a) i = some (w.set i y, a))
    {w : List T} (hw : Compacted keep f v k w) :
    ∃ w', (List.range' k (n - k)).foldlM body (w, countKept keep k) =
        some (w', countKept keep n) ∧ Compacted keep f v n w' := by
  let P : ℕ → List T × ℕ → Prop := fun i s => s.2 = countKept keep i ∧ Compacted keep f v i s.1
  have hstep : ∀ i s, i < k + (n - k) → P i s → ∃ s', body s i = some s' ∧ P (i + 1) s' := by
    intro i s hi hs
    obtain ⟨w, a⟩ := s
    obtain ⟨rfl, hw⟩ : a = countKept keep i ∧ Compacted keep f v i w := hs
    have hin : i < n := by omega
    have hiw : i < w.length := by
      rw [hw.length]
      omega
    have hx : w[i]? = some w[i] := List.getElem?_eq_getElem hiw
    have hcount := countKept_succ keep i
    cases hki : keep i with
    | true =>
      obtain ⟨w', hbody, hnext⟩ := hkeep i w _ hin hki hw hx
      rw [hki, if_pos rfl] at hcount
      exact ⟨_, hbody, hcount.symm, hnext⟩
    | false =>
      obtain ⟨y, hbody⟩ := hskip i w _ hin hki hx
      rw [hki, if_neg Bool.false_ne_true] at hcount
      exact ⟨_, hbody _, hcount.symm, hw.skip (by omega) hki y⟩
  obtain ⟨⟨w', a⟩, hpass, ha, hw'⟩ := exists_foldlM_range' hstep (w, countKept keep k) ⟨rfl, hw⟩
  rw [show k + (n - k) = n by omega] at ha hw'
  exact ⟨w', by rw [hpass, show a = countKept keep n from ha], hw'⟩

theorem countKept_eq_self {k : ℕ} (hall : ∀ j < k, keep j = true) : countKept keep k = k := by
  have hcount : (List.range k).countP keep = (List.range k).length :=
    List.countP_eq_length.mpr fun j hj => hall j (List.mem_range.mp hj)
  rwa [List.length_range] at hcount

theorem set_of_getElem? {w : List T} {i : ℕ} {x : T} (hx : w[i]? = some x) : w.set i x = w := by
  obtain ⟨hlt, rfl⟩ := List.getElem?_eq_some_iff.mp hx
  exact List.set_getElem_self hlt

variable [Inhabited T]

/-- The elements are those not marked among as many as an `unsigned` counts. -/
theorem removeMarkedSwap_eq (hne : v.length % 2 ^ 32 ≠ 0) :
    removeMarkedSwap v marked = some (kept (unmarked marked) (v.take (v.length % 2 ^ 32))) := by
  have hn : v.length % 2 ^ 32 ≤ v.length := Nat.mod_le _ _
  rw [removeMarkedSwap]
  generalize v.length % 2 ^ 32 = n at hne hn
  have hskip := skipWhile_spec (unmarked marked)
    (fun i => some (unmarked marked i)) n 0 fun _ _ _ => rfl
  obtain ⟨k, hskip, -, hk, hall, -⟩ := hskip
  rw [Nat.zero_add] at hk
  have hall : ∀ j < k, unmarked marked j = true := fun j hj => hall j (Nat.zero_le j) hj
  have hkeep : ∀ i w x, i < n → unmarked marked i = true →
      Compacted (unmarked marked) id v i w → w[i]? = some x →
      ∃ w', removeMarkedOne marked (w, countKept (unmarked marked) i) i =
          some (w', countKept (unmarked marked) i + 1) ∧
        Compacted (unmarked marked) id v (i + 1) w' := by
    intro i w x hi hki hw hx
    obtain ⟨w', hswap, hnext⟩ := exists_swapElems hw hx hki
    refine ⟨w', ?_, hnext⟩
    rw [removeMarkedOne, if_pos (show (!marked i) = true from hki), hswap]
    rfl
  have hpass : ∀ i (w : List T) x, i < n → unmarked marked i = false → w[i]? = some x → ∃ y,
      ∀ a, removeMarkedOne marked (w, a) i = some (w.set i y, a) := by
    intro i w x hi hki hx
    refine ⟨x, fun a => ?_⟩
    rw [unmarked] at hki
    rw [removeMarkedOne, hki, set_of_getElem? hx]
    rfl
  obtain ⟨w, hloop, hw⟩ := exists_exchanges _ hn hk hkeep hpass (Compacted.whole hall (by omega))
  rw [countKept_eq_self hall] at hloop
  have hle := countKept_le (unmarked marked) n
  rw [if_neg hne]
  show (skipWhile (fun i => some (unmarked marked i)) n 0 >>= _) = _
  rw [hskip, Option.bind_eq_bind, Option.bind_some, hloop, Option.bind_eq_bind, Option.bind_some,
    resizeTo_of_le (by rw [hw.length]; omega), hw.front, List.map_id]

/-- It leaves the unmarked elements if and only if there are fewer than `2 ^ 32` elements, or those
that are not counted all stay and are unmarked, or are all cut off and marked. -/
theorem removeMarkedSwap_iff (v : List T) (marked : ℕ → Bool) :
    removeMarkedSwap v marked = some (leaves v marked) ↔
      if v.length % 2 ^ 32 = 0 then ∀ i < v.length, marked i = false
      else ∀ i, v.length % 2 ^ 32 ≤ i → i < v.length → marked i = true := by
  split
  next hzero =>
    have hsame : removeMarkedSwap v marked = some (kept (fun _ => true) v) := by
      rw [removeMarkedSwap, if_pos hzero, kept, List.filter_eq_self.mpr fun _ _ => rfl,
        List.zipIdx_map_fst]
    rw [hsame, leaves]
    constructor
    · intro h i hi
      have hlen := congrArg List.length (Option.some.inj h)
      rw [length_kept, length_kept, countKept, countKept,
        List.countP_eq_length.mpr fun _ _ => rfl] at hlen
      have hall := List.countP_eq_length.mp hlen.symm i (List.mem_range.mpr hi)
      simpa [unmarked] using hall
    · intro h
      congr 1
      exact kept_congr fun i hi => by rw [unmarked, h i hi, Bool.not_false]
  next hne =>
    rw [removeMarkedSwap_eq hne, leaves, Option.some_inj, kept_take_eq_iff (Nat.mod_le _ _)]
    simp [unmarked]

variable {pred : T → Bool}

omit [Inhabited T] in
theorem marksOf_eq {i : ℕ} {x : T} (hx : v[i]? = some x) : marksOf pred v i = pred x := by
  rw [marksOf, hx]
  rfl

omit [Inhabited T] in
theorem not_pred_of_mem_leaves {x : T} (h : x ∈ leaves v (marksOf pred v)) : pred x = false := by
  obtain ⟨i, hx, hkeep⟩ := exists_of_mem_kept h
  rw [unmarked, marksOf_eq hx] at hkeep
  simpa using hkeep

/-- Where the first marked element is at `k`, a marked element is there at the end. -/
theorem removeIfSwap_of_marked (hn : n ≤ v.length) {k : ℕ} (hk : k < n)
    (hmark : marksOf pred v k = true) :
    ∃ s, (List.range' k (n - k)).foldlM (removeIfOne pred) (v, k) = some s ∧
      ∃ x ∈ resizeTo s.1 s.2, pred x = true := by
  let P : ℕ → List T × ℕ → Prop := fun i s => s.1.length = v.length ∧ s.2 ≤ i ∧
    ((i = k ∧ s = (v, k)) ∨ (k < s.2 ∧ ∃ x, s.1[k]? = some x ∧ pred x = true))
  have hstep : ∀ i s, i < k + (n - k) → P i s →
      ∃ s', removeIfOne pred s i = some s' ∧ P (i + 1) s' := by
    rintro i ⟨w, a⟩ hi ⟨hlen, ha, hcase⟩
    have hiw : i < w.length := by
      rw [hlen]
      omega
    have hx : w[i]? = some w[i] := List.getElem?_eq_getElem hiw
    obtain ⟨w', hswap, htake, hget, -, hlen'⟩ := swapElems_spec hx ha
    rw [removeIfOne, hx, Option.bind_eq_bind, Option.bind_some]
    by_cases hpred : pred w[i] = true
    · rw [if_pos hpred, hswap]
      refine ⟨_, rfl, hlen'.trans hlen, Nat.succ_le_succ ha, Or.inr ?_⟩
      rcases hcase with ⟨rfl, hs⟩ | ⟨hka, x, hxk, hpx⟩
      · obtain ⟨rfl, rfl⟩ : w = v ∧ a = i := Prod.mk.inj hs
        exact ⟨Nat.lt_succ_self a, _, hget, hpred⟩
      · refine ⟨Nat.lt_succ_of_lt hka, x, ?_, hpx⟩
        rw [← List.getElem?_take_of_lt hka, htake, List.getElem?_take_of_lt hka]
        exact hxk
    · rw [if_neg hpred]
      refine ⟨_, rfl, hlen, Nat.le_succ_of_le ha, Or.inr ?_⟩
      rcases hcase with ⟨rfl, hs⟩ | h
      · obtain ⟨rfl, rfl⟩ : w = v ∧ a = i := Prod.mk.inj hs
        exact absurd ((marksOf_eq hx).symm.trans hmark) hpred
      · exact h
  have hstart : P k (v, k) := ⟨rfl, Nat.le_refl k, Or.inl ⟨rfl, rfl⟩⟩
  obtain ⟨⟨w, a⟩, hpass, hlen, ha, hcase⟩ := exists_foldlM_range' hstep _ hstart
  refine ⟨_, hpass, ?_⟩
  rcases hcase with ⟨h, -⟩ | ⟨hka, x, hxk, hpx⟩
  · omega
  · refine ⟨x, ?_, hpx⟩
    rw [resizeTo_of_le (by omega)]
    apply List.mem_of_getElem? (i := k)
    rw [List.getElem?_take_of_lt hka]
    exact hxk

/-- It leaves the unmarked elements if and only if none is marked, or those that are not counted
are the marked ones. -/
theorem removeIfSwap_iff (v : List T) (pred : T → Bool) :
    removeIfSwap v pred = some (leaves v (marksOf pred v)) ↔
      ∀ i < v.length, marksOf pred v i = true ↔ v.length % 2 ^ 32 ≠ 0 ∧ v.length % 2 ^ 32 ≤ i := by
  by_cases hzero : v.length % 2 ^ 32 = 0
  · have hsame : removeIfSwap v pred = removeMarkedSwap v (marksOf pred v) := by
      rw [removeIfSwap, removeMarkedSwap, if_pos hzero, if_pos hzero]
    rw [hsame, removeMarkedSwap_iff, if_pos hzero, hzero]
    simp only [ne_eq, not_true_eq_false, false_and, iff_false, Bool.not_eq_true]
  · have hn : v.length % 2 ^ 32 ≤ v.length := Nat.mod_le _ _
    have htest : ∀ j, 0 ≤ j → j < 0 + v.length % 2 ^ 32 →
        (v[j]?).map (fun x => !pred x) = some (unmarked (marksOf pred v) j) := by
      intro j _ hj
      have hx : v[j]? = some v[j] := List.getElem?_eq_getElem (by omega)
      rw [unmarked, marksOf_eq hx, hx, Option.map_some]
    obtain ⟨k, hskip, -, hk, hall, hstop⟩ := skipWhile_spec _ _ (v.length % 2 ^ 32) 0 htest
    have hall : ∀ j < k, unmarked (marksOf pred v) j = true :=
      fun j hj => hall j (Nat.zero_le j) hj
    rw [Nat.zero_add] at hk hstop
    rw [removeIfSwap, if_neg hzero, hskip, Option.bind_eq_bind, Option.bind_some]
    rcases Nat.lt_or_eq_of_le hk with hlt | heq
    · have hmark : marksOf pred v k = true := by simpa [unmarked] using hstop hlt
      obtain ⟨s, hpass, x, hx, hpx⟩ := removeIfSwap_of_marked hn hlt hmark
      rw [hpass, Option.bind_eq_bind, Option.bind_some]
      constructor
      · intro h
        rw [Option.some.inj h] at hx
        rw [not_pred_of_mem_leaves hx] at hpx
        exact absurd hpx Bool.false_ne_true
      · intro h
        have hbeyond := ((h k (by omega)).mp hmark).2
        omega
    · rw [heq, Nat.sub_self]
      rw [heq] at hall
      have hwhole := (Compacted.whole hall hn).front
      rw [countKept_eq_self hall, List.map_id] at hwhole
      show some (resizeTo v (v.length % 2 ^ 32)) = _ ↔ _
      rw [resizeTo_of_le hn, hwhole, leaves, Option.some_inj, kept_take_eq_iff hn]
      constructor
      · intro h i hi
        constructor
        · intro hmark
          refine ⟨hzero, Nat.le_of_not_lt fun hlt => ?_⟩
          have hun := hall i hlt
          rw [unmarked, hmark] at hun
          exact absurd hun Bool.false_ne_true
        · intro hbeyond
          simpa [unmarked] using h i hbeyond.2 hi
      · intro h i hbeyond hi
        rw [unmarked, (h i hi).mpr ⟨hzero, hbeyond⟩, Bool.not_true]

section Shuffle

omit [Inhabited T]

variable {t : IndicesAfter} {r removed : T → T}

theorem assignAt_eq {w : List T} {i : ℕ} (hi : i < w.length) (x : T) :
    assignAt w i x = some (w.set i x) := if_pos hi

theorem rewriteWhile_spec (h : t.IsFor keep v.length) (m : ℕ) : ∀ {i : ℕ} {w : List T},
    i + m = v.length → Compacted keep r v i w → (∀ j < i, keep j = true) →
    ∃ w' k, rewriteWhile t r m w i = some (w', k) ∧ k ≤ v.length ∧ Compacted keep r v k w' ∧
      ∀ j < k, keep j = true := by
  induction m with
  | zero => exact fun {i w} hi hw hall => ⟨w, i, rfl, by omega, hw, hall⟩
  | succ m ih =>
    intro i w hi hw hall
    have hiv : i < v.length := by omega
    have hiw : i < w.length := by rwa [hw.length]
    have hx : w[i]? = some w[i] := List.getElem?_eq_getElem hiw
    rw [rewriteWhile, h.removing hiv]
    cases hki : keep i with
    | false => exact ⟨w, i, rfl, Nat.le_of_lt hiv, hw, hall⟩
    | true =>
      have hcount := countKept_eq_self hall
      have hnext := hw.assign hx hki
      rw [hcount] at hnext
      have hall' : ∀ j < i + 1, keep j = true := by
        intro j hj
        rcases Nat.lt_succ_iff_lt_or_eq.mp hj with hlt | rfl
        · exact hall j hlt
        · exact hki
      obtain ⟨w', k, hloop, hk, hw', hkall⟩ := ih (by omega) hnext hall'
      refine ⟨w', k, ?_, hk, hw', hkall⟩
      rw [← hloop, hx, Option.bind_eq_bind, Option.bind_some, Bool.not_true,
        if_neg Bool.false_ne_true, Option.bind_eq_bind, Option.bind_some, assignAt_eq hiw]
      rfl

theorem shuffleOne_of_keep (h : t.IsFor keep v.length) {i : ℕ} {w : List T} {x : T}
    (hi : i < v.length) (hki : keep i = true) (hw : Compacted keep r v i w) (hx : w[i]? = some x) :
    ∃ w', shuffleOne t r removed (w, countKept keep i) i = some (w', countKept keep i + 1) ∧
      Compacted keep r v (i + 1) w' := by
  have hiw : i < w.length := by rwa [hw.length]
  have hle := countKept_le keep i
  have hget : (w.set i (r x))[i]? = some (r x) := List.getElem?_set_self hiw
  obtain ⟨w', hswap, htake, hto, hdrop, hlen⟩ := swapElems_spec hget hle
  rw [List.take_set_of_le hle] at htake
  rw [List.drop_set_of_lt (Nat.lt_succ_self i)] at hdrop
  rw [List.length_set] at hlen
  refine ⟨w', ?_, hw.move hx hki htake hto hdrop hlen⟩
  rw [shuffleOne, h.removing hi, hki, Option.bind_eq_bind, Option.bind_some, Bool.not_true,
    if_neg Bool.false_ne_true, hx, Option.bind_eq_bind, Option.bind_some, assignAt_eq hiw,
    Option.bind_eq_bind, Option.bind_some, hswap, Option.map_some]

theorem shuffleOne_of_not_keep (h : t.IsFor keep v.length) {i : ℕ} {w : List T} {x : T}
    (hi : i < v.length) (hki : keep i = false) (hx : w[i]? = some x) :
    ∃ y, ∀ a, shuffleOne t r removed (w, a) i = some (w.set i y, a) := by
  have hiw := (List.getElem?_eq_some_iff.mp hx).1
  refine ⟨removed x, fun a => ?_⟩
  rw [shuffleOne, h.removing hi, hki, Option.bind_eq_bind, Option.bind_some, Bool.not_false,
    if_pos rfl, hx, Option.bind_eq_bind, Option.bind_some, assignAt_eq hiw, Option.map_some]

/-- The elements up to the returned place are those the table keeps, rewritten. -/
theorem shuffleRemoving_eq (h : t.IsFor keep v.length) (r removed : T → T) :
    (shuffleRemoving v t r removed).map (fun s => s.1.take s.2) = some ((kept keep v).map r) := by
  obtain ⟨w, k, hskip, hk, hw, hall⟩ := rewriteWhile_spec (r := r) h v.length (Nat.zero_add _)
    (Compacted.start keep r v) fun j hj => absurd hj (Nat.not_lt_zero j)
  have hcount := countKept_eq_self hall
  obtain ⟨w', hloop, hw'⟩ := exists_exchanges (shuffleOne t r removed) (Nat.le_refl _) hk
    (fun i w x hi hki hw hx => shuffleOne_of_keep h hi hki hw hx)
    (fun i w x hi hki hx => shuffleOne_of_not_keep h hi hki hx) hw
  rw [hcount] at hloop
  rw [shuffleRemoving, h.nMapped, hskip, Option.bind_eq_bind, Option.bind_some]
  show ((List.range' k (v.length - k)).foldlM (shuffleOne t r removed) (w, k)).map _ = _
  have hfront := hw'.front
  rw [List.take_length] at hfront
  rw [hloop, Option.map_some, hfront]

end Shuffle

/-! ## By a table made of the marks -/

open IndicesAfter

section ByTable

omit [Inhabited T]

variable {U : Type} {constructor : Constructor} {meansKeep : Bool}

/-- A table that is made of marks for every element. -/
theorem build_cases (constructor : Constructor) (marked : ℕ → Bool) (n : ℕ) (meansKeep : Bool) :
    (n < 2 ^ 32 ∧ ∃ t, constructor.build (marksFor marked n meansKeep) meansKeep = some t ∧
        t.IsFor (keptBy constructor marked meansKeep) n) ∨
      (n ≠ 0 ∧ n % 2 ^ 32 = 0 ∧ constructor.build (marksFor marked n meansKeep) meansKeep =
        some ⟨[], 0, 0, rfl⟩) ∨
      (¬n < 2 ^ 32 ∧ n % 2 ^ 32 ≠ 0 ∧
        constructor.build (marksFor marked n meansKeep) meansKeep = none) := by
  obtain ⟨means, hbuild, hkeep⟩ := build_eq constructor marked meansKeep
  have h := init_map (fun i => marked i != meansKeep) n means
  rw [hkeep] at h
  rwa [hbuild]

/-- What holds of a routine that leaves the elements a table keeps, changed by `r`. -/
theorem byTable_iff {routine : IndicesAfter → Option U} (out : List T → U)
    (hroutine : ∀ t keep, t.IsFor keep v.length → routine t = some (out (kept keep v))) :
    (constructor.build (marksFor marked v.length meansKeep) meansKeep).bind routine =
        some (out (leaves v marked)) ↔
      (v.length < 2 ^ 32 ∧
        (constructor.Heeds meansKeep ∨ out (kept marked v) = out (leaves v marked))) ∨
      (v.length ≠ 0 ∧ v.length % 2 ^ 32 = 0 ∧
        routine ⟨[], 0, 0, rfl⟩ = some (out (leaves v marked))) := by
  obtain ⟨hlt, t, hbuild, hfor⟩ | ⟨hne, hzero, hbuild⟩ | ⟨hnlt, hne, hbuild⟩ :=
    build_cases constructor marked v.length meansKeep
  · rw [hbuild, Option.bind_some, hroutine t _ hfor, Option.some_inj]
    by_cases hheeds : constructor.Heeds meansKeep
    · rw [keptBy_of_heeds hheeds]
      exact ⟨fun _ => Or.inl ⟨hlt, Or.inl hheeds⟩, fun _ => rfl⟩
    · rw [keptBy_of_not_heeds hheeds]
      constructor
      · exact fun h => Or.inl ⟨hlt, Or.inr h⟩
      · rintro (⟨-, h | h⟩ | ⟨hne, hzero, -⟩)
        · exact absurd h hheeds
        · exact h
        · omega
  · rw [hbuild, Option.bind_some]
    constructor
    · exact fun h => Or.inr ⟨hne, hzero, h⟩
    · rintro (⟨hlt, -⟩ | ⟨-, -, h⟩)
      · omega
      · exact h
  · rw [hbuild, Option.bind_none]
    constructor
    · exact fun h => absurd h.symm (Option.some_ne_none _)
    · rintro (⟨hlt, -⟩ | ⟨-, hzero, -⟩)
      · exact absurd hlt hnlt
      · exact absurd hzero hne

theorem leaves_eq_nil_iff : leaves v marked = [] ↔ ∀ i < v.length, marked i = true := by
  rw [← List.length_eq_zero_iff, leaves, length_kept, countKept, List.countP_eq_zero]
  simp [unmarked]

end ByTable

variable (v marked) (constructor : Constructor) (meansKeep : Bool)

theorem doMoves_iff :
    (constructor.build (marksFor marked v.length meansKeep) meansKeep).bind (·.doMoves v) =
        some (leaves v marked) ↔
      v.length < 2 ^ 32 ∧ (constructor.Heeds meansKeep ∨ kept marked v = leaves v marked) := by
  rw [byTable_iff (fun w => w) fun t keep h => h.doMoves_eq]
  constructor
  · rintro (h | ⟨hne, -, h⟩)
    · exact h
    · rw [doMoves, if_neg hne] at h
      exact absurd h.symm (Option.some_ne_none _)
  · exact Or.inl

theorem doMovesSwap_iff :
    (constructor.build (marksFor marked v.length meansKeep) meansKeep).bind (·.doMovesSwap v) =
        some (leaves v marked) ↔
      v.length < 2 ^ 32 ∧ (constructor.Heeds meansKeep ∨ kept marked v = leaves v marked) := by
  rw [byTable_iff (fun w => w) fun t keep h => h.doMovesSwap_eq]
  constructor
  · rintro (h | ⟨hne, -, h⟩)
    · exact h
    · rw [doMovesSwap, if_neg hne] at h
      exact absurd h.symm (Option.some_ne_none _)
  · exact Or.inl

theorem copyTo_iff (dest : List T) :
    (constructor.build (marksFor marked v.length meansKeep) meansKeep).bind (·.copyTo v dest) =
        some (leaves v marked) ↔
      (v.length < 2 ^ 32 ∧ (constructor.Heeds meansKeep ∨ kept marked v = leaves v marked)) ∨
      (v.length ≠ 0 ∧ v.length % 2 ^ 32 = 0 ∧ ∀ i < v.length, marked i = true) := by
  have hempty : copyTo ⟨[], 0, 0, rfl⟩ v dest = some [] := by
    show some (resizeTo dest 0) = some []
    rw [resizeTo_of_le (Nat.zero_le _), List.take_zero]
  rw [byTable_iff (fun w => w) fun t keep h => h.copyTo_eq dest, hempty, Option.some_inj,
    eq_comm (a := []), leaves_eq_nil_iff]

omit [Inhabited T] in
theorem shuffleRemoving_iff (r removed : T → T) :
    ((constructor.build (marksFor marked v.length meansKeep) meansKeep).bind fun t =>
        (shuffleRemoving v t r removed).map fun s => s.1.take s.2) =
        some ((leaves v marked).map r) ↔
      (v.length < 2 ^ 32 ∧ (constructor.Heeds meansKeep ∨
        (kept marked v).map r = (leaves v marked).map r)) ∨
      (v.length ≠ 0 ∧ v.length % 2 ^ 32 = 0 ∧ ∀ i < v.length, marked i = true) := by
  have hempty : (shuffleRemoving v ⟨[], 0, 0, rfl⟩ r removed).map (fun s => s.1.take s.2) =
      some [] := rfl
  rw [byTable_iff (List.map r) fun t keep h => shuffleRemoving_eq h r removed, hempty,
    Option.some_inj, eq_comm (a := []), List.map_eq_nil_iff, leaves_eq_nil_iff]

/-- When the routines that remove marked elements, and those that number the others, are right:
each leaves the unmarked elements in their order. -/
theorem removal_routines_iff {T : Type} [Inhabited T] (v dest : List T) (marked : ℕ → Bool)
    (pred : T → Bool) (r removed : T → T) (constructor : Constructor) (meansKeep remove : Bool)
    (n : ℕ) (N : UInt32) :
    (removeMarkedSwap v marked = some (leaves v marked) ↔
      if v.length % 2 ^ 32 = 0 then ∀ i < v.length, marked i = false
      else ∀ i, v.length % 2 ^ 32 ≤ i → i < v.length → marked i = true) ∧
    (removeIfSwap v pred = some (leaves v (marksOf pred v)) ↔
      ∀ i < v.length, marksOf pred v i = true ↔ v.length % 2 ^ 32 ≠ 0 ∧ v.length % 2 ^ 32 ≤ i) ∧
    ((constructor.build (marksFor marked v.length meansKeep) meansKeep).bind (·.doMoves v) =
        some (leaves v marked) ↔
      v.length < 2 ^ 32 ∧ (constructor.Heeds meansKeep ∨ kept marked v = leaves v marked)) ∧
    ((constructor.build (marksFor marked v.length meansKeep) meansKeep).bind (·.doMovesSwap v) =
        some (leaves v marked) ↔
      v.length < 2 ^ 32 ∧ (constructor.Heeds meansKeep ∨ kept marked v = leaves v marked)) ∧
    ((constructor.build (marksFor marked v.length meansKeep) meansKeep).bind (·.copyTo v dest) =
        some (leaves v marked) ↔
      (v.length < 2 ^ 32 ∧ (constructor.Heeds meansKeep ∨ kept marked v = leaves v marked)) ∨
      (v.length ≠ 0 ∧ v.length % 2 ^ 32 = 0 ∧ ∀ i < v.length, marked i = true)) ∧
    (((constructor.build (marksFor marked v.length meansKeep) meansKeep).bind fun t =>
        (shuffleRemoving v t r removed).map fun s => s.1.take s.2) =
        some ((leaves v marked).map r) ↔
      (v.length < 2 ^ 32 ∧ (constructor.Heeds meansKeep ∨
        (kept marked v).map r = (leaves v marked).map r)) ∨
      (v.length ≠ 0 ∧ v.length % 2 ^ 32 = 0 ∧ ∀ i < v.length, marked i = true)) ∧
    (IndicesFor (unmarked marked) n (newIndices (marksFor marked n !remove) remove) ↔
      n = 0 ∨ remove = true ∧ countKept (unmarked marked) n < 2 ^ 32) ∧
    (IndicesFor (unmarked marked) n (newIndicesKeep (marksFor marked n meansKeep) meansKeep) ↔
      countKept (unmarked marked) n < 2 ^ 32) ∧
    (indicesAfterRemoveMarked marked N = some (intIndices marked N.toNat) ↔
      countKept (unmarked marked) N.toNat < 2 ^ 31) :=
  ⟨removeMarkedSwap_iff v marked, removeIfSwap_iff v pred, doMoves_iff v marked _ _,
    doMovesSwap_iff v marked _ _, copyTo_iff v marked _ _ dest,
    shuffleRemoving_iff v marked _ _ r removed, newIndices_iff marked n remove,
    newIndicesKeep_iff marked n meansKeep, indicesAfterRemoveMarked_iff marked N⟩

/-- Of two elements of which the second is marked, `do_moves` leaves the marked one when its table
comes from two iterators over marks that mean removal, and `remove_if_swap` leaves both.
`new_indices` takes a mark for removal when it is told that it means keeping. -/
theorem not_removal_routines :
    ¬(∀ (v : List ℕ) (marked : ℕ → Bool) (meansKeep : Bool),
      (Constructor.range.build (marksFor marked v.length meansKeep) meansKeep).bind (·.doMoves v) =
        some (leaves v marked)) ∧
    ¬(∀ (v : List ℕ) (pred : ℕ → Bool), removeIfSwap v pred = some (leaves v (marksOf pred v))) ∧
    ¬(∀ (marked : ℕ → Bool) (n : ℕ) (remove : Bool),
      IndicesFor (unmarked marked) n (newIndices (marksFor marked n !remove) remove)) := by
  refine ⟨fun h => ?_, fun h => ?_, fun h => ?_⟩
  · have hmoves := h [5, 7] (fun i => i == 1) false
    exact absurd hmoves (by decide)
  · have hswap := h [5, 7] fun x => x == 7
    exact absurd hswap (by decide)
  · have hindices := (h (fun i => i == 1) 2 false).2.2 1 (by decide)
    exact absurd hindices (by decide)

end Carmel.Arrays
