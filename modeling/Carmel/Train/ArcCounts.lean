/-
# Weights and counts of arcs

A weight is a number that is not negative; the program keeps its logarithm. A number that
may be negative becomes zero where it is. A quotient by the weight zero is no number, and
neither is a count that such a quotient was added to.
-/

import Carmel.Derivations.Derive

namespace Carmel

universe u

/-- `logweight`, in exact arithmetic. -/
abbrev Weight (F : Type u) [Zero F] [LE F] : Type u := {r : F // 0 ≤ r}

/-- `setReal`: what is not positive becomes zero. -/
def Weight.setReal {F : Type u} [Zero F] [LinearOrder F] (f : F) : Weight F :=
  if h : 0 < f then ⟨f, le_of_lt h⟩ else ⟨0, le_refl 0⟩

/-- A sum of quotients; `⊤` is one that is no number. -/
abbrev Count (F : Type u) [Zero F] [LE F] : Type u := WithTop (Weight F)

/-- `arc_counts`: a transducer arc, and what training adds up for it. -/
structure ArcCounts (F : Type u) [Zero F] [LE F] where
  arc : HalfArc (Weight F)
  scratch : Weight F
  counts : Count F
deriving DecidableEq

/-- `a.weight()`, the weight stored in the transducer. -/
def ArcCounts.weight {F : Type u} [Zero F] [LE F] (ac : ArcCounts F) : Weight F := ac.arc.arc.weight

/-- `t[id].weight()`. -/
def weightOf {F : Type u} [Zero F] [Preorder F] (t : List (ArcCounts F)) (id : ℕ) : Weight F :=
  (t[id]?.map (·.weight)).getD 0

section Table

variable {F : Type u} [Field F] [LinearOrder F] [IsStrictOrderedRing F]

/-- `arcs_table`: the arcs of a transducer by id. -/
def WFST.arcCounts (x : WFST (Weight F)) : List (ArcCounts F) :=
  x.arcsTable.map fun h => ⟨h, 0, 0⟩

/-- `operator/`. -/
def Weight.quotient (a b : Weight F) : Count F :=
  if b = 0 then ⊤ else ((a / b : Weight F) : Count F)

/-- `counts += c`. -/
def ArcCounts.addCounts (ac : ArcCounts F) (c : Count F) : ArcCounts F :=
  { ac with counts := ac.counts + c }

/-- `scratch += c`. -/
def ArcCounts.addScratch (ac : ArcCounts F) (c : Weight F) : ArcCounts F :=
  { ac with scratch := ac.scratch + c }

/-- `upd` adds to something else than the weight. -/
structure Accumulates {M : Type u} [AddMonoid M] (upd : ArcCounts F → M → ArcCounts F) : Prop where
  zero : ∀ ac, upd ac 0 = ac
  add : ∀ ac c c', upd (upd ac c) c' = upd ac (c + c')
  weight : ∀ ac c, (upd ac c).weight = ac.weight

theorem accumulates_addCounts : Accumulates (F := F) ArcCounts.addCounts where
  zero ac := by simp [ArcCounts.addCounts]
  add ac c c' := by simp [ArcCounts.addCounts, add_assoc]
  weight _ _ := rfl

theorem accumulates_addScratch : Accumulates (F := F) ArcCounts.addScratch where
  zero ac := by simp [ArcCounts.addScratch]
  add ac c c' := by simp [ArcCounts.addScratch, add_assoc]
  weight _ _ := rfl

/-- Add to every arc of the table. -/
def addEach {M : Type u} (upd : ArcCounts F → M → ArcCounts F) (t : List (ArcCounts F))
    (c : ℕ → M) : List (ArcCounts F) :=
  t.mapIdx fun id ac => upd ac (c id)

variable {M : Type u} {upd : ArcCounts F → M → ArcCounts F} {t : List (ArcCounts F)} {id : ℕ}

omit [IsStrictOrderedRing F] in
theorem weightOf_eq {ac : ArcCounts F} (h : t[id]? = some ac) : weightOf t id = ac.weight := by
  simp [weightOf, h]

omit [IsStrictOrderedRing F] in
@[simp] theorem addEach_getElem? (c : ℕ → M) :
    (addEach upd t c)[id]? = t[id]?.map (upd · (c id)) :=
  List.getElem?_mapIdx

namespace Accumulates

variable [AddMonoid M]

omit [IsStrictOrderedRing F]

theorem addEach_zero (hupd : Accumulates upd) : (addEach upd t fun _ => 0) = t := by
  refine List.ext_getElem? fun id => ?_
  cases h : t[id]? <;> simp [h, hupd.zero]

theorem addEach_addEach (hupd : Accumulates upd) (c c' : ℕ → M) :
    addEach upd (addEach upd t c) c' = addEach upd t fun id => c id + c' id := by
  refine List.ext_getElem? fun id => ?_
  cases h : t[id]? <;> simp [h, hupd.add]

theorem weightOf_addEach (hupd : Accumulates upd) (c : ℕ → M) :
    weightOf (addEach upd t c) = weightOf t := by
  funext id
  cases h : t[id]? <;> simp [weightOf, h, hupd.weight]

theorem foldl_modify {α : Type*} (hupd : Accumulates upd) (l : List α) (id : α → ℕ)
    (c : Weight F → α → M) (t : List (ArcCounts F)) :
    l.foldl (fun t a => t.modify (id a) fun ac => upd ac (c ac.weight a)) t =
      addEach upd t fun k => ((l.filter (id · = k)).map (c (weightOf t k))).sum := by
  induction l generalizing t with
  | nil => simp [hupd.addEach_zero]
  | cons a l ih =>
    have hhead : t.modify (id a) (fun ac => upd ac (c ac.weight a)) =
        addEach upd t fun k => if id a = k then c (weightOf t k) a else 0 := by
      refine List.ext_getElem? fun k => ?_
      rw [List.getElem?_modify, addEach_getElem?]
      cases hk : t[k]? with
      | none => rfl
      | some ac => by_cases h : id a = k <;> simp [h, weightOf_eq hk, hupd.zero]
    rw [List.foldl_cons, hhead, ih, hupd.addEach_addEach, hupd.weightOf_addEach]
    congr 1
    funext k
    by_cases h : id a = k <;> simp [h]

end Accumulates

end Table

end Carmel
