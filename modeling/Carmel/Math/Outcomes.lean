/-
# Programs with a state that may throw

A program that throws keeps the state it had when it threw. `Returns m s P` says that `m`
returns from `s`, with a value and a state of which `P` holds; `Fails m s P` that it throws;
`Yields m s P` what holds if it returns. Each has one rule for a sequence of two programs.
-/

import Carmel.Math.Instances

namespace Carmel.Math

universe u

variable {ε σ α β : Type u}

def Returns (m : EStateM ε σ α) (s : σ) (P : α → σ → Prop) : Prop :=
  match m s with
  | .ok a t => P a t
  | .error _ _ => False

def Fails (m : EStateM ε σ α) (s : σ) (P : ε → σ → Prop) : Prop :=
  match m s with
  | .ok _ _ => False
  | .error e t => P e t

def Yields (m : EStateM ε σ α) (s : σ) (P : α → σ → Prop) : Prop :=
  ∀ a t, m s = .ok a t → P a t

theorem returns_iff {m : EStateM ε σ α} {s : σ} {P : α → σ → Prop} :
    Returns m s P ↔ ∃ a t, m s = .ok a t ∧ P a t := by
  unfold Returns
  cases h : m s with
  | ok a t => exact ⟨fun hP => ⟨a, t, rfl, hP⟩, by rintro ⟨_, _, ⟨⟩, hP⟩; exact hP⟩
  | error e t => simp

theorem fails_iff {m : EStateM ε σ α} {s : σ} {P : ε → σ → Prop} :
    Fails m s P ↔ ∃ e t, m s = .error e t ∧ P e t := by
  unfold Fails
  cases h : m s with
  | ok a t => simp
  | error e t => exact ⟨fun hP => ⟨e, t, rfl, hP⟩, by rintro ⟨_, _, ⟨⟩, hP⟩; exact hP⟩

theorem Returns.mono {m : EStateM ε σ α} {s : σ} {P P' : α → σ → Prop} (h : Returns m s P)
    (hP : ∀ a t, P a t → P' a t) : Returns m s P' := by
  obtain ⟨a, t, hm, ha⟩ := returns_iff.mp h
  exact returns_iff.mpr ⟨a, t, hm, hP a t ha⟩

theorem Yields.mono {m : EStateM ε σ α} {s : σ} {P P' : α → σ → Prop} (h : Yields m s P)
    (hP : ∀ a t, P a t → P' a t) : Yields m s P' :=
  fun a t hm => hP a t (h a t hm)

@[simp] theorem returns_pure {a : α} {s : σ} {P : α → σ → Prop} :
    Returns (pure a : EStateM ε σ α) s P ↔ P a s := .rfl

@[simp] theorem returns_get {s : σ} {P : σ → σ → Prop} :
    Returns (get : EStateM ε σ σ) s P ↔ P s s := .rfl

@[simp] theorem returns_set {s t : σ} {P : PUnit → σ → Prop} :
    Returns (set t : EStateM ε σ PUnit) s P ↔ P ⟨⟩ t := .rfl

@[simp] theorem returns_modify {f : σ → σ} {s : σ} {P : PUnit → σ → Prop} :
    Returns (modify f : EStateM ε σ PUnit) s P ↔ P ⟨⟩ (f s) := .rfl

@[simp] theorem returns_bind {m : EStateM ε σ α} {f : α → EStateM ε σ β} {s : σ}
    {P : β → σ → Prop} :
    Returns (m >>= f) s P ↔ Returns m s fun a t => Returns (f a) t P := by
  unfold Returns
  simp only [bind, EStateM.bind]
  cases m s <;> rfl

@[simp] theorem yields_throw {e : ε} {s : σ} {P : α → σ → Prop} :
    Yields (throw e : EStateM ε σ α) s P := by
  intro a t hm
  cases hm

@[simp] theorem yields_pure {a : α} {s : σ} {P : α → σ → Prop} :
    Yields (pure a : EStateM ε σ α) s P ↔ P a s :=
  ⟨fun h => h a s rfl, fun h _ _ hm => by cases hm; exact h⟩

@[simp] theorem yields_get {s : σ} {P : σ → σ → Prop} :
    Yields (get : EStateM ε σ σ) s P ↔ P s s :=
  ⟨fun h => h s s rfl, fun h _ _ hm => by cases hm; exact h⟩

@[simp] theorem yields_modify {f : σ → σ} {s : σ} {P : PUnit → σ → Prop} :
    Yields (modify f : EStateM ε σ PUnit) s P ↔ P ⟨⟩ (f s) :=
  ⟨fun h => h ⟨⟩ (f s) rfl, fun h _ _ hm => by cases hm; exact h⟩

@[simp] theorem yields_bind {m : EStateM ε σ α} {f : α → EStateM ε σ β} {s : σ} {P : β → σ → Prop} :
    Yields (m >>= f) s P ↔ Yields m s fun a t => Yields (f a) t P := by
  unfold Yields
  simp only [bind, EStateM.bind]
  cases m s <;> simp

@[simp] theorem fails_throw {e : ε} {s : σ} {P : ε → σ → Prop} :
    Fails (throw e : EStateM ε σ α) s P ↔ P e s := .rfl

@[simp] theorem fails_get {s : σ} {P : ε → σ → Prop} :
    ¬ Fails (get : EStateM ε σ σ) s P := id

@[simp] theorem fails_modify {f : σ → σ} {s : σ} {P : ε → σ → Prop} :
    ¬ Fails (modify f : EStateM ε σ PUnit) s P := id

@[simp] theorem fails_bind {m : EStateM ε σ α} {f : α → EStateM ε σ β} {s : σ}
    {P : ε → σ → Prop} :
    Fails (m >>= f) s P ↔ Fails m s P ∨ Returns m s fun a t => Fails (f a) t P := by
  unfold Fails Returns
  simp only [bind, EStateM.bind]
  cases m s <;> simp

section Drain

variable {ε σ α : Type}

/-- What `current` returns after each `advance` that returns `true`, in at most `fuel` rounds. -/
def drain (advance : EStateM ε σ Bool) (current : EStateM ε σ α) : ℕ → EStateM ε σ (List α)
  | 0 => pure []
  | fuel + 1 => do
    if ← advance then
      let a ← current
      let rest ← drain advance current fuel
      return a :: rest
    else return []

variable {advance : EStateM ε σ Bool} {current : EStateM ε σ α} {l : List α}
  {At : ℕ → σ → Prop} {Ended : σ → Prop}

theorem returns_drain
    (hadvance : ∀ k s, At k s → k < l.length →
      Returns advance s fun more t => more = true ∧ At (k + 1) t)
    (hcurrent : ∀ k s a, At (k + 1) s → l[k]? = some a →
      Returns current s fun b t => b = a ∧ At (k + 1) t)
    (hend : ∀ s, At l.length s → Returns advance s fun more t => more = false ∧ Ended t) :
    ∀ {fuel k : ℕ} {s : σ}, At k s → k ≤ l.length → l.length < k + fuel →
      Returns (drain advance current fuel) s fun read t => read = l.drop k ∧ Ended t
  | 0, k, s, _, hk, hfuel => by omega
  | fuel + 1, k, s, hs, hk, hfuel => by
    unfold drain
    rw [returns_bind]
    rcases Nat.lt_or_eq_of_le hk with hlt | rfl
    · refine (hadvance k s hs hlt).mono fun more t h => ?_
      rw [h.1, if_pos rfl, returns_bind]
      refine (hcurrent k t l[k] h.2 (List.getElem?_eq_getElem hlt)).mono fun a t' ha => ?_
      rw [returns_bind]
      refine (returns_drain hadvance hcurrent hend ha.2 hlt (by omega)).mono fun rest u hrest => ?_
      rw [returns_pure, ha.1, hrest.1, List.getElem_cons_drop]
      exact ⟨rfl, hrest.2⟩
    · refine (hend s hs).mono fun more t h => ?_
      rw [h.1, if_neg Bool.false_ne_true, returns_pure, List.drop_length]
      exact ⟨rfl, h.2⟩

end Drain

end Carmel.Math

/-!
## Programs that may throw

`Holds Q P` says `P` of what a step returned, `Q` of what it threw. A loop is reasoned about
by an invariant that may mention the elements gone through.
-/

namespace Carmel.Math

universe u v w

variable {ε : Type u} {α : Type v} {β : Type v} {σ : Type v} {ι : Type w}

def Holds (Q : ε → Prop) (P : α → Prop) : Except ε α → Prop
  | .ok a => P a
  | .error e => Q e

variable {Q : ε → Prop}

@[simp] theorem holds_ok {P : α → Prop} {a : α} : Holds Q P (.ok a) ↔ P a := .rfl

theorem Holds.bind {P : α → Prop} {P' : β → Prop} {m : Except ε α} {f : α → Except ε β}
    (h : Holds Q P m) (hf : ∀ a, P a → Holds Q P' (f a)) : Holds Q P' (m >>= f) := by
  cases m with
  | ok a => exact hf a h
  | error e => exact h

theorem Holds.returns {P : α → Prop} {m : Except ε α} (h : Holds (fun _ => False) P m) :
    ∃ a, m = .ok a ∧ P a := by
  cases m with
  | ok a => exact ⟨a, rfl, h⟩
  | error e => exact h.elim

/-- The invariant of a loop may mention what the loop has gone through. -/
theorem Holds.foldlM {I : List ι → σ → Prop} {f : σ → ι → Except ε σ} {l : List ι} {s : σ}
    (hstart : I [] s)
    (hstep : ∀ front a rest s, l = front ++ a :: rest → I front s →
      Holds Q (I (front ++ [a])) (f s a)) :
    Holds Q (I l) (l.foldlM f s) := by
  suffices h : ∀ (rest front : List ι) (s : σ), l = front ++ rest → I front s →
      Holds Q (I l) (rest.foldlM f s) from h l [] s rfl hstart
  intro rest
  induction rest with
  | nil =>
    intro front s hl hs
    rw [List.append_nil] at hl
    subst hl
    exact hs
  | cons a rest ih =>
    intro front s hl hs
    rw [List.foldlM_cons]
    exact (hstep front a rest s hl hs).bind fun t ht => ih (front ++ [a]) t (by simp [hl]) ht

theorem Holds.foldlM_range' {I : ℕ → σ → Prop} {f : σ → ℕ → Except ε σ} {start len : ℕ} {s : σ}
    (hzero : I 0 s) (hstep : ∀ k < len, ∀ s, I k s → Holds Q (I (k + 1)) (f s (start + k))) :
    Holds Q (I len) ((List.range' start len).foldlM f s) := by
  have h := Holds.foldlM (Q := Q) (I := fun front s => I front.length s) (f := f)
    (l := List.range' start len) (s := s) hzero
  rw [List.length_range'] at h
  refine h fun front a rest s hl hs => ?_
  have hlen : front.length < len := by
    have := congrArg List.length hl
    simp only [List.length_range', List.length_append, List.length_cons] at this
    omega
  have ha : a = start + front.length := by
    have hget : (List.range' start len)[front.length]? = some a := by rw [hl]; simp
    rw [List.getElem?_range' hlen] at hget
    simpa using hget.symm
  rw [List.length_append, List.length_singleton, ha]
  exact hstep _ hlen s hs

end Carmel.Math

/-!
## Calls that change a state

A call may not come back; if it does, it returns or raises, and leaves a state in either
case.
-/

namespace Carmel.Math

universe u

/-- A call on states of type `S`. -/
def Call (S : Type u) (α : Type) : Type u := S → Option (Option α × S)

namespace Call

variable {S : Type u} {α β : Type} {s t : S} {a : α}

instance : Monad (Call S) where
  pure a := fun s => some (some a, s)
  bind m f := fun s => (m s).bind fun y =>
    match y.1 with
    | none => some (none, y.2)
    | some a => f a y.2

def raise : Call S α := fun s => some (none, s)

/-- A call that does not come back. -/
def stuck : Call S α := fun _ => none

/-- What the state shows, if it does. -/
def look (f : S → Option α) : Call S α := fun s => some (f s, s)

def change (f : S → S) : Call S Unit := fun s => some (some (), f s)

theorem pure_apply (a : α) (s : S) : (pure a : Call S α) s = some (some a, s) := rfl

theorem change_apply (f : S → S) (s : S) : change f s = some (some (), f s) := rfl

theorem look_apply {f : S → Option α} (h : f s = some a) : look f s = some (some a, s) := by
  rw [look, h]

theorem bind_of_returns {m : Call S α} (h : m s = some (some a, t)) (f : α → Call S β) :
    (m >>= f) s = f a t := by
  change (m s).bind _ = _
  rw [h, Option.bind_some]

theorem bind_of_raises {m : Call S α} (h : m s = some (none, t)) (f : α → Call S β) :
    (m >>= f) s = some (none, t) := by
  change (m s).bind _ = _
  rw [h, Option.bind_some]

theorem change_bind (g : S → S) (f : Unit → Call S β) (s : S) : (change g >>= f) s = f () (g s) :=
  rfl

theorem look_bind {g : S → Option α} (h : g s = some a) (f : α → Call S β) :
    (look g >>= f) s = f a s :=
  bind_of_returns (look_apply h) f

theorem look_bind_none {g : S → Option α} (h : g s = none) (f : α → Call S β) :
    (look g >>= f) s = some (none, s) :=
  bind_of_raises (by rw [look, h]) f

end Call

end Carmel.Math
