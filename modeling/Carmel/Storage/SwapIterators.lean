/-
# Where an iterator of a swap batch is

An iterator points at a place of the sequence of all items if its batch and its header are
those of the item there. Reading through an iterator maps its batch first and so is always
right; going on from it reads the batch that is mapped, whichever that is.
-/

import Carmel.Storage.SwapBatch

namespace Carmel.SwapBatch

open Math

variable {B : Type} {footprint : Footprint B} {groups front back : List (List B)} {l r : List B}
  {b : B} {s : SwapBatch B} {it : SwapIterator} {p : ℕ}

/-- Both the batches and the batch of the iterator are given by what is before it. -/
def Points (footprint : Footprint B) (groups : List (List B)) : SwapIterator → ℕ → Prop
  | none, p => p = groups.flatten.length
  | some q, p => ∃ front l b r back, groups = front ++ (l ++ b :: r) :: back ∧
      q = ⟨front.length, offset footprint l⟩ ∧ p = front.flatten.length + l.length

/-- The batch of the iterator is mapped. -/
def Here (it : SwapIterator) (s : SwapBatch B) : Prop := ∀ q, it = some q → s.loadedBatch = q.batch

instance (it : SwapIterator) (s : SwapBatch B) : Decidable (Here it s) :=
  match it with
  | none => isTrue fun _ h => by cases h
  | some q => decidable_of_iff (s.loadedBatch = q.batch)
      ⟨fun h _ hq => Option.some.inj hq ▸ h, fun h => h q rfl⟩

/-! ## The mapped batch -/

theorem Holds.load (h : Holds footprint groups s) (n : ℕ) :
    Holds footprint groups { s with loadedBatch := n } :=
  ⟨h.files, h.totalItems, h.nonempty⟩

theorem Holds.nBatch (h : Holds footprint groups s) : s.nBatch = groups.length := by
  rw [SwapBatch.nBatch, h.files, List.length_map]

theorem Holds.memmap (h : Holds footprint (front ++ l :: back) s)
    (hload : s.loadedBatch = front.length) : s.memmap = layout footprint l := by
  rw [SwapBatch.memmap, h.files, hload, List.getD_eq_getElem?_getD, List.map_append,
    List.getElem?_append_right (by simp)]
  simp

theorem Holds.returns_loadBatch (h : Holds footprint (front ++ l :: back) s) :
    Returns (loadBatch front.length) s fun _ t => t = { s with loadedBatch := front.length } := by
  have hsmall : ¬ s.nBatch ≤ front.length := by
    rw [h.nBatch, List.length_append, List.length_cons]
    omega
  unfold loadBatch
  rw [returns_bind, returns_get]
  split_ifs with hsame
  · rw [returns_pure, ← hsame]
  · rw [returns_bind, returns_get, if_neg hsmall]
    exact rfl

theorem returns_readHeader {header d : ℕ} (h : s.memmap[header]? = some (.header d))
    {P : ℕ → SwapBatch B → Prop} : Returns (readHeader header) s P ↔ P d s := by
  unfold readHeader
  simp only [returns_bind, returns_get, h, returns_pure]

theorem returns_readData {header : ℕ} (h : s.memmap[header + 1]? = some (.item b))
    {P : B → SwapBatch B → Prop} : Returns (readData header) s P ↔ P b s := by
  unfold readData
  simp only [returns_bind, returns_get, h, returns_pure]

theorem returns_visitBatch (hmemmap : s.memmap = layout footprint (l ++ r)) {fuel : ℕ}
    (hfuel : r.length < fuel) :
    Returns (visitBatch fuel (offset footprint l)) s fun read t => read = r ∧ t = s := by
  induction fuel generalizing l r with
  | zero => omega
  | succ fuel ih =>
    unfold visitBatch
    cases r with
    | nil =>
      have hheader : s.memmap[offset footprint l]? = some (.header 0) := by
        rw [hmemmap, List.append_nil, layout_end]
      rw [returns_bind, returns_readHeader hheader, if_pos rfl]
      exact ⟨rfl, rfl⟩
    | cons b r =>
      have hheader : s.memmap[offset footprint l]? = some (.header (footprint.more b + 2)) := by
        rw [hmemmap, layout_header]
      have hitem : s.memmap[offset footprint l + 1]? = some (.item b) := by
        rw [hmemmap, layout_item]
      rw [returns_bind, returns_readHeader hheader, if_neg (Nat.succ_ne_zero _), returns_bind,
        returns_readData hitem, returns_bind, ← offset_singleton, ← offset_append]
      refine (ih (by rw [hmemmap, List.append_assoc]; rfl) (Nat.lt_of_succ_lt_succ hfuel)).mono
        fun read t ht => ?_
      rw [returns_pure, ht.1]
      exact ⟨rfl, ht.2⟩

variable (front) in
theorem Holds.returns_visitBatches (h : Holds footprint (front ++ back) s) :
    Returns (visitBatches back.length front.length) s fun read t =>
      read = back.flatten ∧ t = { s with loadedBatch := t.loadedBatch } := by
  induction back generalizing front s with
  | nil => exact ⟨rfl, rfl⟩
  | cons l back ih =>
    rw [List.length_cons]
    unfold visitBatches
    rw [returns_bind]
    refine h.returns_loadBatch.mono fun _ t ht => ?_
    have hholds : Holds footprint (front ++ l :: back) t := by
      rw [ht]
      exact h.load _
    have hmemmap : t.memmap = layout footprint ([] ++ l) := hholds.memmap (by rw [ht])
    have hlen := length_le_offset footprint l
    rw [returns_bind, returns_get, returns_bind]
    refine (returns_visitBatch hmemmap ?_).mono fun here u hu => ?_
    · rw [hmemmap, length_layout, List.nil_append]
      omega
    · rw [returns_bind, hu.2]
      have hnext : Holds footprint ((front ++ [l]) ++ back) t := by
        rw [List.append_assoc]
        exact hholds
      have hvisit := ih (front ++ [l]) hnext
      rw [List.length_append] at hvisit
      refine hvisit.mono fun rest v hv => ?_
      rw [returns_pure, hu.1, hv.1]
      refine ⟨rfl, ?_⟩
      rw [hv.2, ht]

/-- **`enumerate`** visits the items in order, whichever batch is mapped. -/
theorem Holds.returns_enumerate (h : Holds footprint groups s) :
    Returns enumerate s fun read t =>
      read = groups.flatten ∧ t = { s with loadedBatch := t.loadedBatch } := by
  unfold enumerate
  rw [returns_bind, returns_get, h.nBatch]
  exact Holds.returns_visitBatches [] h

theorem Holds.points_begin (h : Holds footprint groups s) : Points footprint groups s.begin 0 := by
  unfold begin
  split_ifs with hempty
  · exact (h.totalItems.symm.trans hempty).symm
  · obtain ⟨l, groups', rfl, hl⟩ := h.nonempty fun hflat => hempty (by rw [h.totalItems, hflat]; rfl)
    obtain ⟨b, r, rfl⟩ := List.exists_cons_of_ne_nil hl
    exact ⟨[], [], b, r, groups', rfl, rfl, rfl⟩

theorem Points.le (h : Points footprint groups it p) : p ≤ groups.flatten.length := by
  cases it with
  | none => exact Nat.le_of_eq h
  | some q =>
    obtain ⟨front, l, b, r, back, rfl, -, rfl⟩ := h
    simp

theorem Points.eq_none_iff (h : Points footprint groups it p) :
    it = none ↔ p = groups.flatten.length := by
  cases it with
  | none => exact ⟨fun _ => h, fun _ => rfl⟩
  | some q =>
    obtain ⟨front, l, b, r, back, rfl, -, rfl⟩ := h
    simp

theorem Holds.returns_deref (h : Holds footprint groups s) (hit : Points footprint groups it p)
    (hb : groups.flatten[p]? = some b) :
    Returns (deref it) s fun a t => a = b ∧ t = { s with loadedBatch := t.loadedBatch } ∧
      Here it t := by
  cases it with
  | none =>
    rw [show p = _ from hit, List.getElem?_eq_none (Nat.le_refl _)] at hb
    cases hb
  | some q =>
    obtain ⟨front, l, b', r, back, rfl, rfl, rfl⟩ := hit
    have hb' : b' = b := by
      simpa [List.getElem?_append_right, Nat.le_add_right] using hb
    subst hb'
    unfold deref
    rw [returns_bind]
    refine h.returns_loadBatch.mono fun _ t ht => ?_
    have hmemmap : t.memmap = layout footprint (l ++ b' :: r) := by
      rw [ht]
      exact (h.load _).memmap rfl
    rw [returns_readData (by rw [hmemmap, layout_item]), ht]
    exact ⟨rfl, rfl, fun q hq => by rw [← Option.some.inj hq]⟩

/-! ## Going on -/

/-- At the end of a chain, the next item is the first of the next batch that has one. The
induction is on the batches behind. -/
theorem Holds.returns_increment_end (h : Holds footprint (front ++ l :: back) s)
    (hload : s.loadedBatch = front.length) {fuel : ℕ} (hfuel : back.length < fuel) :
    Returns (increment fuel ⟨front.length, offset footprint l⟩) s fun it t =>
      Points footprint (front ++ l :: back) it (front.flatten.length + l.length) ∧
        t = { s with loadedBatch := t.loadedBatch } ∧ Here it t := by
  induction fuel generalizing front l back s with
  | zero => omega
  | succ fuel ih =>
    have hheader : s.memmap[offset footprint l]? = some (.header 0) := by
      rw [h.memmap hload, layout_end]
    unfold increment
    rw [returns_bind, returns_readHeader hheader, if_neg (not_not.mpr rfl), returns_bind, returns_get,
      h.nBatch, List.length_append, List.length_cons]
    dsimp only
    cases back with
    | nil =>
      rw [if_pos (by rfl), returns_pure]
      refine ⟨?_, rfl, fun q hq => by cases hq⟩
      show _ = _
      simp
    | cons g back =>
      have hgroups : front ++ l :: g :: back = (front ++ [l]) ++ g :: back := by simp
      have hlen : (front ++ [l]).length = front.length + 1 := List.length_append
      have hflat : (front ++ [l]).flatten.length = front.flatten.length + l.length := by simp
      rw [hgroups] at h ⊢
      rw [if_neg (by rw [List.length_cons]; omega), returns_bind, ← hlen]
      refine h.returns_loadBatch.mono fun _ t ht => ?_
      have hholds : Holds footprint ((front ++ [l]) ++ g :: back) t := by
        rw [ht]
        exact h.load _
      have hload' : t.loadedBatch = (front ++ [l]).length := by rw [ht]
      have hmemmap := hholds.memmap hload'
      cases g with
      | nil =>
        have hzero : t.memmap[0]? = some (.header 0) := by
          rw [hmemmap]
          exact layout_end footprint []
        rw [returns_bind, returns_readHeader hzero, if_pos rfl]
        refine (ih hholds hload' (Nat.lt_of_succ_lt_succ hfuel)).mono fun it u hu => ?_
        refine ⟨?_, ?_, hu.2.2⟩
        · rw [← hflat]
          exact hu.1
        · rw [hu.2.1, ht]
      | cons b r =>
        have hnext : t.memmap[0]? = some (.header (footprint.more b + 2)) := by
          rw [hmemmap]
          exact layout_header footprint [] r b
        rw [returns_bind, returns_readHeader hnext, if_neg (Nat.succ_ne_zero _), returns_pure]
        refine ⟨⟨front ++ [l], [], b, r, back, rfl, rfl, hflat.symm⟩, ?_, ?_⟩
        · rw [ht]
        · rintro q ⟨⟩
          exact hload'

/-- **`operator ++`** goes to the next place, if the batch of the iterator is mapped. -/
theorem Holds.returns_next (h : Holds footprint groups s) (hit : Points footprint groups it p)
    (hp : p < groups.flatten.length) (hhere : Here it s) :
    Returns (next it) s fun it' t => Points footprint groups it' (p + 1) ∧
      t = { s with loadedBatch := t.loadedBatch } ∧ Here it' t := by
  cases it with
  | none => exact absurd (show p = _ from hit) (Nat.ne_of_lt hp)
  | some q =>
    obtain ⟨front, l, b, r, back, rfl, rfl, rfl⟩ := hit
    have hload : s.loadedBatch = front.length := hhere _ rfl
    have hmemmap := h.memmap hload
    have hheader : s.memmap[offset footprint l]? = some (.header (footprint.more b + 2)) := by
      rw [hmemmap, layout_header]
    have happend : l ++ b :: r = l ++ [b] ++ r := by simp
    have hp' : front.flatten.length + l.length + 1 = front.flatten.length + (l ++ [b]).length := by
      simp [Nat.add_assoc]
    unfold next increment
    rw [returns_bind, returns_get, returns_bind, returns_readHeader hheader,
      if_pos (Nat.succ_ne_zero _)]
    simp only [← offset_singleton, ← offset_append]
    rw [happend] at h hmemmap ⊢
    rw [hp']
    cases r with
    | nil =>
      rw [List.append_nil] at h hmemmap ⊢
      rw [returns_bind, returns_readHeader (by rw [hmemmap, layout_end]), if_pos rfl]
      refine h.returns_increment_end hload ?_
      rw [h.nBatch, List.length_append, List.length_cons]
      omega
    | cons c r =>
      rw [returns_bind, returns_readHeader (by rw [hmemmap, layout_header]),
        if_neg (Nat.succ_ne_zero _), returns_pure]
      refine ⟨⟨front, l ++ [b], c, r, back, rfl, rfl, rfl⟩, rfl, ?_⟩
      rintro q ⟨⟩
      exact hload

/-- The files hold the items, and the iterator of `operator[]` is at its index. -/
structure Tracks (footprint : Footprint B) (groups : List (List B)) (s : SwapBatch B) : Prop where
  holds : Holds footprint groups s
  current : ∀ c, s.currentI = some c → Points footprint groups s.currentIter c

theorem Tracks.load (h : Tracks footprint groups s) (n : ℕ) :
    Tracks footprint groups { s with loadedBatch := n } :=
  ⟨h.holds.load n, h.current⟩

theorem returns_getCurrentI {c : ℕ} (hc : s.currentI = some c) {P : ℕ → SwapBatch B → Prop} :
    Returns getCurrentI s P ↔ P c s := by
  unfold getCurrentI
  simp only [returns_bind, returns_get, hc, returns_pure]

theorem Tracks.round (h : Tracks footprint groups s) {c : ℕ} (hc : s.currentI = some c)
    (hhere : Here s.currentIter s) (hlt : c < groups.flatten.length) :
    Returns (next s.currentIter) { s with currentI := some (c + 1) } fun it t =>
      Tracks footprint groups { t with currentIter := it } ∧ t.currentI = some (c + 1) ∧
        Here it t ∧ Points footprint groups it (c + 1) := by
  have hholds : Holds footprint groups { s with currentI := some (c + 1) } :=
    ⟨h.holds.files, h.holds.totalItems, h.holds.nonempty⟩
  refine (hholds.returns_next (h.current c hc) hlt hhere).mono fun it t ht => ?_
  obtain ⟨hpoints, hsame, hhere'⟩ := ht
  refine ⟨⟨?_, ?_⟩, ?_, hhere', hpoints⟩
  · rw [hsame]
    exact ⟨h.holds.files, h.holds.totalItems, h.holds.nonempty⟩
  · intro c' hc'
    rw [hsame] at hc'
    rw [← Option.some.inj hc']
    exact hpoints
  · rw [hsame]

theorem Tracks.returns_scan (h : Tracks footprint groups s) {c i : ℕ} (hc : s.currentI = some c)
    (hci : c ≤ i) (hi : i < groups.flatten.length) (hhere : c < i → Here s.currentIter s) {fuel : ℕ}
    (hfuel : i ≤ c + fuel) :
    Returns (scan i fuel) s fun _ t => Tracks footprint groups t ∧ t.currentI = some i := by
  induction fuel generalizing c s with
  | zero =>
    obtain rfl : c = i := by omega
    exact ⟨h, hc⟩
  | succ fuel ih =>
    unfold scan
    rw [returns_bind, returns_getCurrentI hc]
    rcases Nat.lt_or_eq_of_le hci with hlt | rfl
    · rw [if_pos hlt]
      simp only [returns_bind, returns_modify, returns_get]
      refine (h.round hc (hhere hlt) (by omega)).mono fun it t ht => ?_
      obtain ⟨htracks, hindex, hhere', hpoints⟩ := ht
      rw [if_neg fun hnone => by have := hpoints.eq_none_iff.mp hnone; omega]
      exact ih htracks hindex hlt (fun _ => hhere') (by omega)
    · rw [if_neg (Nat.lt_irrefl _), returns_pure]
      exact ⟨h, hc⟩

theorem Tracks.fails_scan (h : Tracks footprint groups s) {c i : ℕ} (hc : s.currentI = some c)
    (hlt : c < groups.flatten.length) (hi : groups.flatten.length ≤ i)
    (hhere : Here s.currentIter s) {fuel : ℕ} (hfuel : i ≤ c + fuel) :
    Fails (scan i fuel) s fun e t => e = .rangeError ∧ Tracks footprint groups t := by
  induction fuel generalizing c s with
  | zero => omega
  | succ fuel ih =>
    unfold scan
    rw [fails_bind]
    refine .inr ((returns_getCurrentI hc).mpr ?_)
    rw [if_pos (by omega)]
    simp only [fails_bind, returns_modify, returns_get, fails_modify, fails_get, false_or]
    refine .inr ((h.round hc hhere hlt).mono fun it t ht => ?_)
    obtain ⟨htracks, hindex, hhere', hpoints⟩ := ht
    by_cases hend : it = none
    · rw [if_pos hend, fails_throw]
      exact ⟨rfl, htracks⟩
    · rw [if_neg hend]
      have hlt' : c + 1 < groups.flatten.length :=
        Nat.lt_of_le_of_ne hpoints.le fun heq => hend (hpoints.eq_none_iff.mpr heq)
      exact ih htracks hindex hlt' hhere' (by omega)

end Carmel.SwapBatch
