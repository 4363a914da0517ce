/-
# Runs of a swap batch

A program reads a sequence of items into a swap batch, and then enumerates it, indexes it
and moves iterators over it. It sees the items in order if nothing goes on from an iterator
whose batch is not mapped, and no two iterators of one batch are compared at different items
of it.
-/

import Carmel.Storage.SwapIterators
import Carmel.Math.Lists

namespace Carmel

open Math SwapBatch

namespace SwapBatch

variable {B : Type} {footprint : Footprint B} {groups : List (List B)} {s : SwapBatch B} {i : ℕ}

/-- `operator[]` goes on from the first item, or from where it has been last; if it has to go
on at all, the batch is mapped. -/
def AccessHere (s : SwapBatch B) (i : ℕ) : Prop :=
  i = 0 ∨ ∃ c, s.currentI = some c ∧ if i < c then Here s.begin s else c < i → Here s.currentIter s

instance (s : SwapBatch B) (i : ℕ) : Decidable (AccessHere s i) :=
  decidable_of_iff (i = 0 ∨ (s.currentI.any fun c =>
      decide (if i < c then Here s.begin s else c < i → Here s.currentIter s)) = true) (by
    rw [AccessHere, Option.any_eq_true]
    simp only [decide_eq_true_eq])

/-- What `operator[]` does is right, and keeps its iterator at its index. -/
def Accesses (footprint : Footprint B) (groups : List (List B)) (i : ℕ) (s : SwapBatch B)
    (m : SwapM B B) : Prop :=
  if i < groups.flatten.length then
    Returns m s fun b t => groups.flatten[i]? = some b ∧ Tracks footprint groups t
  else Fails m s fun e t => e = .rangeError ∧ Tracks footprint groups t

/-- From the index on that has been set, once the iterator is there. -/
theorem Tracks.accesses_rest (h : Tracks footprint groups s) {c : ℕ} (hc : s.currentI = some c)
    (hci : c ≤ i) (hhere : c < i → Here s.currentIter s) :
    Accesses footprint groups i s (do
      if (← get).currentIter = none then throw .rangeError
      scan i i
      deref (← get).currentIter) := by
  have hpoints := h.current c hc
  unfold Accesses
  split_ifs with hi
  · rw [returns_bind, returns_get, if_neg fun hnone => by
      have := hpoints.eq_none_iff.mp hnone; omega]
    rw [returns_bind]
    refine (h.returns_scan hc hci hi hhere (by omega)).mono fun _ t ht => ?_
    have hb := List.getElem?_eq_getElem hi
    rw [returns_bind, returns_get]
    refine (ht.1.holds.returns_deref (ht.1.current i ht.2) hb).mono fun b u hu => ?_
    rw [hu.1, hu.2.1]
    exact ⟨hb, ht.1.load _⟩
  · rw [fails_bind]
    refine .inr (returns_get.mpr ?_)
    by_cases hnone : s.currentIter = none
    · rw [if_pos hnone, fails_bind]
      exact .inl (fails_throw.mpr ⟨rfl, h⟩)
    · have hlt : c < groups.flatten.length :=
        Nat.lt_of_le_of_ne hpoints.le fun heq => hnone (hpoints.eq_none_iff.mpr heq)
      rw [if_neg hnone, fails_bind]
      exact .inl (h.fails_scan hc hlt (by omega) (hhere (by omega)) (by omega))

theorem Accesses.bind {α : Type} {m : SwapM B α} {f : α → SwapM B B} {a : α} {t : SwapBatch B}
    (hm : Returns m s fun b u => b = a ∧ u = t) (hf : Accesses footprint groups i t (f a)) :
    Accesses footprint groups i s (m >>= f) := by
  unfold Accesses at hf ⊢
  split_ifs at hf ⊢ with hi
  · rw [returns_bind]
    exact hm.mono fun b u hu => by rw [hu.1, hu.2]; exact hf
  · rw [fails_bind]
    exact .inr (hm.mono fun b u hu => by rw [hu.1, hu.2]; exact hf)

theorem Tracks.rewind (h : Tracks footprint groups s) :
    Tracks footprint groups { s with currentI := some 0, currentIter := s.begin } := by
  refine ⟨⟨h.holds.files, h.holds.totalItems, h.holds.nonempty⟩, fun c hc => ?_⟩
  rw [← Option.some.inj hc]
  exact h.holds.points_begin

theorem Tracks.accesses (h : Tracks footprint groups s) (hhere : AccessHere s i) :
    Accesses footprint groups i s (access i) := by
  unfold access
  have hback : ∀ hgo : 0 < i → Here s.begin s, Accesses footprint groups i s (do
        modify fun s => { s with currentI := some 0, currentIter := s.begin }
        if (← get).currentIter = none then throw .rangeError
        scan i i
        deref (← get).currentIter) := by
    intro hgo
    refine Accesses.bind (a := ⟨⟩) (returns_modify.mpr ⟨rfl, rfl⟩) ?_
    exact h.rewind.accesses_rest rfl (Nat.zero_le _) hgo
  rcases hhere with rfl | ⟨c, hc, hhere⟩
  · refine Accesses.bind (a := true) (t := s) ⟨rfl, rfl⟩ ?_
    exact hback fun hlt => absurd hlt (Nat.lt_irrefl _)
  · by_cases hzero : i = 0
    · subst hzero
      refine Accesses.bind (a := true) (t := s) ⟨rfl, rfl⟩ ?_
      exact hback fun hlt => absurd hlt (Nat.lt_irrefl _)
    · have hgoes : Returns (goesBack i) s fun back t => back = decide (i < c) ∧ t = s := by
        unfold goesBack
        rw [if_neg hzero, returns_bind, returns_getCurrentI hc, returns_pure]
        exact ⟨rfl, rfl⟩
      refine Accesses.bind hgoes ?_
      split_ifs at hhere with hlt
      · rw [decide_eq_true hlt, if_pos rfl]
        exact hback fun _ => hhere
      · rw [decide_eq_false hlt, if_neg Bool.false_ne_true]
        exact h.accesses_rest hc (by omega) hhere

end SwapBatch

/-- What a program does with a swap batch that has been read. It numbers its iterators. -/
inductive SwapOp
  | begin
  | pastEnd
  | copy (j : ℕ)
  | increment (j : ℕ)
  | deref (j : ℕ)
  | equal (j k : ℕ)
  | enumerate
  | access (i : ℕ)
  | size

/-- What it gets to see. -/
inductive SwapOutcome (B : Type)
  | done
  | visited (read : List B)
  | item (b : B)
  | flag (b : Bool)
  | count (n : ℕ)
  | error (e : SwapError)

structure SwapProgram (B : Type) where
  batch : SwapBatch B
  iterators : List SwapIterator

namespace SwapProgram

variable {B : Type}

/-- An operation on the batch. If it returns, the iterators may change. -/
def observe {α : Type} (p : SwapProgram B) (m : SwapM B α) (f : α → SwapOutcome B)
    (iterators : α → List SwapIterator) : SwapOutcome B × SwapProgram B :=
  match m p.batch with
  | .ok a t => (f a, ⟨t, iterators a⟩)
  | .error e t => (.error e, { p with batch := t })

def perform (p : SwapProgram B) : SwapOp → SwapOutcome B × SwapProgram B
  | .begin => (.done, { p with iterators := p.iterators ++ [p.batch.begin] })
  | .pastEnd => (.done, { p with iterators := p.iterators ++ [none] })
  | .copy j => (.done, { p with iterators := p.iterators ++ p.iterators[j]?.toList })
  | .increment j =>
    match p.iterators[j]? with
    | none => (.done, p)
    | some it => p.observe (next it) (fun _ => .done) (p.iterators.set j ·)
  | .deref j =>
    match p.iterators[j]? with
    | none => (.done, p)
    | some it => p.observe (SwapBatch.deref it) .item fun _ => p.iterators
  | .equal j k =>
    match p.iterators[j]?, p.iterators[k]? with
    | some a, some b => (.flag (iteratorsEqual a b), p)
    | _, _ => (.done, p)
  | .enumerate => p.observe SwapBatch.enumerate .visited fun _ => p.iterators
  | .access i => p.observe (SwapBatch.access i) .item fun _ => p.iterators
  | .size => (.count p.batch.totalItems, p)

def run (p : SwapProgram B) : List SwapOp → SwapProgram B
  | [] => p
  | op :: ops => (p.perform op).2.run ops

end SwapProgram

namespace SwapOp

variable {B : Type}

/-- What the operation should let the program see, of the items and of the places where its
iterators should be. -/
def Right (items : List B) (places : List ℕ) : SwapOp → SwapOutcome B → Prop
  | .increment j, out => ∀ p, places[j]? = some p → p < items.length → out = .done
  | .deref j, out => ∀ p b, places[j]? = some p → items[p]? = some b → out = .item b
  | .equal j k, out => ∀ p q, places[j]? = some p → places[k]? = some q →
      out = .flag (decide (p = q))
  | .enumerate, out => out = .visited items
  | .access i, out => (∀ b, items[i]? = some b → out = .item b) ∧
      (items.length ≤ i → out = .error .rangeError)
  | .size, out => out = .count items.length
  | _, out => out = .done

/-- The places after the operation. -/
def after (items : List B) (places : List ℕ) : SwapOp → List ℕ
  | .begin => places ++ [0]
  | .pastEnd => places ++ [items.length]
  | .copy j => places ++ places[j]?.toList
  | .increment j =>
    match places[j]? with
    | some p => if p < items.length then places.set j (p + 1) else places
    | none => places
  | _ => places

/-- Two iterators that are not at different items of one batch. -/
def Comparable : SwapIterator → SwapIterator → Prop
  | some a, some b => a.batch = b.batch → a.header = b.header
  | _, _ => True

instance : (a b : SwapIterator) → Decidable (Comparable a b)
  | some a, some b => inferInstanceAs (Decidable (a.batch = b.batch → a.header = b.header))
  | none, _ => isTrue trivial
  | some _, none => isTrue trivial

/-- Nothing goes on from an iterator whose batch is not mapped, and the iterators that are
compared can be told apart. -/
def Allowed (p : SwapProgram B) : SwapOp → Prop
  | .increment j => ∀ it ∈ p.iterators[j]?, Here it p.batch
  | .equal j k => ∀ a ∈ p.iterators[j]?, ∀ b ∈ p.iterators[k]?, Comparable a b
  | .access i => AccessHere p.batch i
  | _ => True

instance (p : SwapProgram B) (op : SwapOp) : Decidable (op.Allowed p) := by
  cases op <;> unfold Allowed <;> infer_instance

end SwapOp

namespace SwapProgram

variable {B : Type}

/-- Every operation of the run is allowed when it comes. -/
def AllowedRun : List SwapOp → SwapProgram B → Prop
  | [], _ => True
  | op :: ops, p => op.Allowed p ∧ AllowedRun ops (p.perform op).2

instance AllowedRun.decidable : ∀ (ops : List SwapOp) (p : SwapProgram B), Decidable (AllowedRun ops p)
  | [], _ => isTrue trivial
  | op :: ops, p =>
    have := AllowedRun.decidable ops (p.perform op).2
    inferInstanceAs (Decidable (op.Allowed p ∧ _))

/-- Every operation of the run lets the program see what it should. -/
def RightRun (items : List B) : List SwapOp → List ℕ → SwapProgram B → Prop
  | [], _, _ => True
  | op :: ops, places, p =>
    op.Right items places (p.perform op).1 ∧
      RightRun items ops (op.after items places) (p.perform op).2

/-- The places after a run. -/
def placesAfter (items : List B) : List SwapOp → List ℕ → List ℕ
  | [], places => places
  | op :: ops, places => placesAfter items ops (op.after items places)

variable {footprint : Footprint B} {groups : List (List B)} {p : SwapProgram B} {places : List ℕ}

/-- The iterators are where they should be. -/
structure Follows (footprint : Footprint B) (groups : List (List B)) (places : List ℕ)
    (p : SwapProgram B) : Prop where
  tracks : Tracks footprint groups p.batch
  points : List.Forall₂ (Points footprint groups) p.iterators places

theorem observe_of_returns {α : Type} {m : SwapM B α} {f : α → SwapOutcome B}
    {g : α → List SwapIterator} {Q : α → SwapBatch B → Prop} (hm : Returns m p.batch Q) :
    ∃ a t, p.observe m f g = (f a, ⟨t, g a⟩) ∧ Q a t := by
  obtain ⟨a, t, hms, ha⟩ := returns_iff.mp hm
  unfold SwapProgram.observe
  rw [hms]
  exact ⟨a, t, rfl, ha⟩

theorem observe_of_fails {α : Type} {m : SwapM B α} {f : α → SwapOutcome B}
    {g : α → List SwapIterator} {Q : SwapError → SwapBatch B → Prop}
    (hm : Fails m p.batch Q) :
    ∃ e t, p.observe m f g = (.error e, ⟨t, p.iterators⟩) ∧ Q e t := by
  obtain ⟨e, t, hms, he⟩ := fails_iff.mp hm
  unfold SwapProgram.observe
  rw [hms]
  exact ⟨e, t, rfl, he⟩

theorem tracks_of_load {t : SwapBatch B} (h : Tracks footprint groups p.batch)
    (ht : t = { p.batch with loadedBatch := t.loadedBatch }) : Tracks footprint groups t := by
  rw [ht]
  exact h.load _

theorem Follows.place (h : Follows footprint groups places p) {j : ℕ} (hit : p.iterators[j]? = none) :
    places[j]? = none := by
  rw [List.getElem?_eq_none_iff] at hit ⊢
  exact h.points.length_eq ▸ hit

theorem Follows.increment (h : Follows footprint groups places p) {j : ℕ}
    (hop : (SwapOp.increment j).Allowed p) :
    (SwapOp.increment j).Right groups.flatten places (p.perform (.increment j)).1 ∧
      Follows footprint groups ((SwapOp.increment j).after groups.flatten places)
        (p.perform (.increment j)).2 := by
  cases hit : p.iterators[j]? with
  | none =>
    simp only [SwapProgram.perform, SwapOp.Right, SwapOp.after, hit, h.place hit]
    exact ⟨fun q hq => (by cases hq), h⟩
  | some it =>
    obtain ⟨place, hplace, hpoints⟩ := forall₂_getElem? h.points hit
    simp only [SwapProgram.perform, SwapOp.Right, SwapOp.after, hit, hplace]
    by_cases hlt : place < groups.flatten.length
    · obtain ⟨it', t, hrun, hpoints', hsame, -⟩ := observe_of_returns (f := fun _ => SwapOutcome.done)
        (g := (p.iterators.set j ·)) (h.tracks.holds.returns_next hpoints hlt (hop it hit))
      rw [if_pos hlt, hrun]
      exact ⟨fun q _ _ => rfl, tracks_of_load h.tracks hsame, forall₂_set h.points j hpoints'⟩
    · have hend : place = groups.flatten.length := Nat.le_antisymm hpoints.le (Nat.le_of_not_lt hlt)
      obtain rfl : it = none := hpoints.eq_none_iff.mpr hend
      rw [if_neg hlt]
      exact ⟨fun q hq hlt' => absurd (Option.some.inj hq ▸ hlt') hlt, h⟩

theorem Follows.deref (h : Follows footprint groups places p) (j : ℕ) :
    (SwapOp.deref j).Right groups.flatten places (p.perform (.deref j)).1 ∧
      Follows footprint groups places (p.perform (.deref j)).2 := by
  cases hit : p.iterators[j]? with
  | none =>
    simp only [SwapProgram.perform, SwapOp.Right, hit, h.place hit]
    exact ⟨fun q b hq => (by cases hq), h⟩
  | some it =>
    obtain ⟨place, hplace, hpoints⟩ := forall₂_getElem? h.points hit
    simp only [SwapProgram.perform, SwapOp.Right, hit, hplace]
    by_cases hlt : place < groups.flatten.length
    · have hb := List.getElem?_eq_getElem hlt
      obtain ⟨a, t, hrun, ha, hsame, -⟩ := observe_of_returns (f := SwapOutcome.item)
        (g := fun _ => p.iterators) (h.tracks.holds.returns_deref hpoints hb)
      rw [hrun]
      refine ⟨fun q b hq hqb => ?_, tracks_of_load h.tracks hsame, h.points⟩
      obtain rfl : place = q := Option.some.inj hq
      rw [ha]
      exact congrArg _ (Option.some.inj (hb.symm.trans hqb))
    · have hend : place = groups.flatten.length := Nat.le_antisymm hpoints.le (Nat.le_of_not_lt hlt)
      obtain rfl : it = none := hpoints.eq_none_iff.mpr hend
      refine ⟨fun q b hq hqb => ?_, h⟩
      obtain rfl : place = q := Option.some.inj hq
      rw [List.getElem?_eq_none (Nat.le_of_not_lt hlt)] at hqb
      cases hqb

theorem Follows.access (h : Follows footprint groups places p) {i : ℕ}
    (hop : AccessHere p.batch i) :
    (SwapOp.access i).Right groups.flatten places (p.perform (.access i)).1 ∧
      Follows footprint groups places (p.perform (.access i)).2 := by
  have haccess := h.tracks.accesses hop
  unfold Accesses at haccess
  simp only [SwapProgram.perform, SwapOp.Right]
  split_ifs at haccess with hi
  · obtain ⟨a, t, hrun, ha, htracks⟩ := observe_of_returns (f := SwapOutcome.item)
      (g := fun _ => p.iterators) haccess
    rw [hrun]
    refine ⟨⟨fun b hb => ?_, fun hlarge => by omega⟩, htracks, h.points⟩
    exact congrArg _ (Option.some.inj (ha.symm.trans hb))
  · obtain ⟨e, t, hrun, he, htracks⟩ := observe_of_fails (f := SwapOutcome.item)
      (g := fun _ => p.iterators) haccess
    rw [hrun, he]
    refine ⟨⟨fun b hb => ?_, fun _ => rfl⟩, htracks, h.points⟩
    rw [List.getElem?_eq_none (by omega)] at hb
    cases hb

theorem length_flatten_lt {front front' back back' : List (List B)} {l r g : List B} {b : B}
    (h : front ++ (l ++ b :: r) :: back = front' ++ g :: back')
    (hlt : front.length < front'.length) :
    front.flatten.length + l.length < front'.flatten.length := by
  rcases List.append_eq_append_iff.mp h with ⟨c, rfl, hc⟩ | ⟨c, rfl, hc⟩
  · cases c with
    | nil => simp at hlt
    | cons d c =>
      obtain ⟨rfl, -⟩ := List.cons.inj hc
      simp
  · rw [List.length_append] at hlt
    omega

variable (footprint) in
theorem offset_eq_iff {l l' r r' : List B} (h : l ++ r = l' ++ r') :
    offset footprint l = offset footprint l' ↔ l.length = l'.length := by
  have hone : ∀ l c : List B, offset footprint l = offset footprint (l ++ c) ↔
      l.length = (l ++ c).length := by
    intro l c
    have := length_le_offset footprint c
    rw [offset_append, List.length_append]
    cases c with
    | nil => simp
    | cons b c =>
      rw [List.length_cons] at this ⊢
      omega
  rcases List.append_eq_append_iff.mp h with ⟨c, rfl, -⟩ | ⟨c, rfl, -⟩
  · exact hone l c
  · exact ⟨fun h => ((hone l' c).mp h.symm).symm, fun h => ((hone l' c).mpr h.symm).symm⟩

theorem iteratorsEqual_of_batch_ne {a b : Position} {q r : ℕ} (hbatch : a.batch ≠ b.batch)
    (hne : q ≠ r) :
    iteratorsEqual (some a) (some b) = decide (q = r) ↔ SwapOp.Comparable (some a) (some b) := by
  constructor
  · intro _ heq
    exact absurd heq hbatch
  · intro _
    rw [decide_eq_false hne, iteratorsEqual, beq_eq_false_iff_ne.mpr hbatch.symm, Bool.false_and]

/-- **`operator ==`** is right unless it is asked about different items of one batch: it does
not look at their headers. -/
theorem iteratorsEqual_iff {a b : SwapIterator} {q r : ℕ} (ha : Points footprint groups a q)
    (hb : Points footprint groups b r) :
    iteratorsEqual a b = decide (q = r) ↔ SwapOp.Comparable a b := by
  cases a with
  | none =>
    cases b with
    | none =>
      have heq : q = r := Eq.trans ha (Eq.symm hb)
      simp [iteratorsEqual, SwapOp.Comparable, heq]
    | some b =>
      have hne : q ≠ r := fun heq => by
        have := hb.eq_none_iff.mpr (heq.symm.trans ha)
        cases this
      simp [iteratorsEqual, SwapOp.Comparable, hne]
  | some a =>
    cases b with
    | none =>
      have hne : q ≠ r := fun heq => by
        have := ha.eq_none_iff.mpr (heq.trans hb)
        cases this
      simp [iteratorsEqual, SwapOp.Comparable, hne]
    | some b =>
      obtain ⟨front, l, x, m, back, rfl, rfl, rfl⟩ := ha
      obtain ⟨front', l', x', m', back', hgroups, rfl, rfl⟩ := hb
      rcases Nat.lt_trichotomy front.length front'.length with hlt | heq | hlt
      · have := length_flatten_lt hgroups hlt
        have hne : front.flatten.length + l.length ≠ front'.flatten.length + l'.length := by omega
        exact iteratorsEqual_of_batch_ne (Nat.ne_of_lt hlt) hne
      · obtain ⟨rfl, hcons⟩ := List.append_inj hgroups heq
        obtain ⟨hitems, -⟩ := List.cons.inj hcons
        have hiff := offset_eq_iff footprint hitems
        simp [iteratorsEqual, SwapOp.Comparable, hiff]
      · have := length_flatten_lt hgroups.symm hlt
        have hne : front.flatten.length + l.length ≠ front'.flatten.length + l'.length := by omega
        exact iteratorsEqual_of_batch_ne (Nat.ne_of_gt hlt) hne

theorem Follows.equal_iff (h : Follows footprint groups places p) (j k : ℕ) :
    (SwapOp.equal j k).Right groups.flatten places (p.perform (.equal j k)).1 ↔
      (SwapOp.equal j k).Allowed p := by
  cases hj : p.iterators[j]? with
  | none =>
    simp only [SwapProgram.perform, SwapOp.Right, SwapOp.Allowed, hj, h.place hj]
    exact ⟨fun _ _ ha => (by cases ha), fun _ _ _ hq => by cases hq⟩
  | some a =>
    obtain ⟨q, hq, ha⟩ := forall₂_getElem? h.points hj
    cases hk : p.iterators[k]? with
    | none =>
      simp only [SwapProgram.perform, SwapOp.Right, SwapOp.Allowed, hj, hk, hq, h.place hk]
      exact ⟨fun _ _ _ _ hb => (by cases hb), fun _ _ _ _ hr => by cases hr⟩
    | some b =>
      obtain ⟨r, hr, hb⟩ := forall₂_getElem? h.points hk
      have hiff := iteratorsEqual_iff ha hb
      simp only [SwapProgram.perform, SwapOp.Right, SwapOp.Allowed, hj, hk, hq, hr]
      constructor
      · rintro hright _ ⟨⟩ _ ⟨⟩
        exact hiff.mp (SwapOutcome.flag.inj (hright q r rfl rfl))
      · intro hallowed q' r' hq' hr'
        rw [← Option.some.inj hq', ← Option.some.inj hr', hiff.mpr (hallowed a rfl b rfl)]

/-- **An allowed operation** lets the program see what it should, and moves its iterators to
where they should be. -/
theorem Follows.step (h : Follows footprint groups places p) {op : SwapOp} (hop : op.Allowed p) :
    op.Right groups.flatten places (p.perform op).1 ∧
      Follows footprint groups (op.after groups.flatten places) (p.perform op).2 := by
  cases op with
  | begin =>
    exact ⟨rfl, h.tracks, List.rel_append h.points (.cons h.tracks.holds.points_begin .nil)⟩
  | pastEnd => exact ⟨rfl, h.tracks, List.rel_append h.points (.cons rfl .nil)⟩
  | copy j =>
    exact ⟨rfl, h.tracks, List.rel_append h.points (forall₂_getElem?_toList h.points j)⟩
  | increment j => exact h.increment hop
  | deref j => exact h.deref j
  | equal j k =>
    refine ⟨(h.equal_iff j k).mpr hop, ?_⟩
    have hsame : (p.perform (.equal j k)).2 = p := by
      simp only [SwapProgram.perform]
      split <;> rfl
    rw [hsame]
    exact h
  | enumerate =>
    obtain ⟨read, t, hrun, hread, hsame⟩ := observe_of_returns (f := SwapOutcome.visited)
      (g := fun _ => p.iterators) h.tracks.holds.returns_enumerate
    simp only [SwapProgram.perform, SwapOp.Right]
    rw [hrun, hread]
    exact ⟨rfl, tracks_of_load h.tracks hsame, h.points⟩
  | access i => exact h.access hop
  | size => exact ⟨congrArg _ h.tracks.holds.totalItems, h⟩

theorem Follows.run {ops : List SwapOp} (h : Follows footprint groups places p)
    (hallowed : AllowedRun ops p) : RightRun groups.flatten ops places p ∧
      Follows footprint groups (placesAfter groups.flatten ops places) (p.run ops) := by
  induction ops generalizing places p with
  | nil => exact ⟨trivial, h⟩
  | cons op ops ih =>
    obtain ⟨hright, hnext⟩ := h.step hallowed.1
    obtain ⟨hrights, hlast⟩ := ih hnext hallowed.2
    exact ⟨⟨hright, hrights⟩, hlast⟩

theorem follows_readAll {items : List B} {batchsize : ℕ} {s : SwapBatch B}
    (hread : readAll footprint items (make batchsize) = .ok () s) :
    ∃ groups, groups.flatten = items ∧ Follows footprint groups [] ⟨s, []⟩ := by
  obtain ⟨groups, hholds, hitems, hindex, -⟩ := yields_readAll footprint items batchsize () s hread
  refine ⟨groups, hitems, ⟨hholds, fun c hc => ?_⟩, .nil⟩
  cases hindex.symm.trans hc

/-- **A swap batch shows the items** in order, in every run whose operations are all allowed:
through `enumerate`, through iterators and through `operator[]`. In the states of these runs,
two iterators compare as they should exactly if they are not at different items of one
batch. -/
theorem swapBatch_runs (footprint : Footprint B) (items : List B) (batchsize : ℕ)
    (s : SwapBatch B) (hread : readAll footprint items (make batchsize) = .ok () s)
    (ops : List SwapOp) (hallowed : AllowedRun ops ⟨s, []⟩) :
    RightRun items ops [] ⟨s, []⟩ ∧ ∀ j k, (SwapOp.equal j k).Right items (placesAfter items ops [])
          ((SwapProgram.run ⟨s, []⟩ ops).perform (.equal j k)).1 ↔
        (SwapOp.equal j k).Allowed (SwapProgram.run ⟨s, []⟩ ops) := by
  obtain ⟨groups, rfl, hfollows⟩ := follows_readAll hread
  obtain ⟨hright, hlast⟩ := hfollows.run hallowed
  exact ⟨hright, hlast.equal_iff⟩

/-- Items of one word. -/
def wordFootprint : Footprint UInt8 := ⟨fun _ => 0, 0⟩

/-- Batches of five words: three headers and two items. -/
def threeItems : SwapBatch UInt8 where
  capacity := 5
  files := [[.header 2, .item 7, .header 2, .item 8, .header 0], [.header 2, .item 9, .header 0]]
  loadedBatch := 1
  totalItems := 3
  currentI := none
  currentIter := none

theorem readAll_threeItems : readAll wordFootprint [7, 8, 9] (make 40) = .ok () threeItems := rfl

/-- The usual loop, and indexes in order, whichever batch was mapped before. -/
theorem rightRun_threeItems : RightRun [7, 8, 9]
    [.enumerate, .begin, .pastEnd, .equal 0 1, .deref 0, .increment 0, .deref 0, .increment 0,
      .deref 0, .increment 0, .equal 0 1, .access 0, .access 1, .access 2, .access 0]
    [] ⟨threeItems, []⟩ :=
  (swapBatch_runs wordFootprint [7, 8, 9] 40 threeItems readAll_threeItems _ (by decide)).1

/-- The first two items compare equal. After all items have been visited the last batch is
mapped, and `operator[]` goes on from the first item through the headers of the last. -/
theorem not_rightRun_threeItems :
    ¬ RightRun [7, 8, 9] [.begin, .copy 0, .deref 0, .increment 1, .equal 0 1] [] ⟨threeItems, []⟩ ∧
    ¬ RightRun [7, 8, 9] [.access 0, .enumerate, .access 1] [] ⟨threeItems, []⟩ := by
  constructor
  · rintro ⟨-, -, -, -, hequal, -⟩
    have := hequal 0 1 rfl rfl
    cases this
  · rintro ⟨-, -, haccess, -⟩
    have := haccess.1 8 rfl
    cases this

end SwapProgram

end Carmel
