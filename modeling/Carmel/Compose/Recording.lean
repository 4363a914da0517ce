/-
# What the recorder records

During a composition the recorder's table of chains only grows, and the id it
hands out for an arc refers, then and later, to the chain of what the arc was
made from.
-/

import Carmel.Compose.Loops

namespace Carmel

universe u

variable {W : Type u} [CommMonoid W] [DecidableEq W]

namespace CascadeParameters

/-- A remembering recorder whose empty chain is in place, and whose table of
arcs recorded alone tells the truth about the arcs in memory. -/
structure Sound (c : CascadeParameters) (mem : Param → Option (FSTArc W)) : Prop where
  nontrivial : c.trivial = false
  nil : c.chains[nilChain]? = some []
  epsilon : ∀ p id, c.epsilonChains.lookup p = some id →
    ∃ arc, mem p = some arc ∧ c.chains[id]? = some (if isLocked1 arc then [] else [p])

/-- Chains have been added, and nothing else is different for later recording. -/
structure Extends (c c' : CascadeParameters) : Prop where
  isChain : c'.isChain = c.isChain
  chains : c.chains <+: c'.chains

theorem Extends.refl (c : CascadeParameters) : c.Extends c := ⟨rfl, List.prefix_rfl⟩

/-- Appending a chain. -/
theorem Extends.push (c : CascadeParameters) (v : List Param) :
    c.Extends { c with chains := c.chains ++ [v] } :=
  ⟨rfl, List.prefix_append ..⟩

theorem Extends.trans {c c' c'' : CascadeParameters} (first : c.Extends c')
    (second : c'.Extends c'') : c.Extends c'' :=
  ⟨second.isChain.trans first.isChain, first.chains.trans second.chains⟩

theorem Extends.chain {c c' : CascadeParameters} (h : c.Extends c') {id : ℕ} {chain : List Param}
    (hid : c.chains[id]? = some chain) : c'.chains[id]? = some chain := by
  obtain ⟨more, hmore⟩ := h.chains
  obtain ⟨hlt, -⟩ := List.getElem?_eq_some_iff.mp hid
  rw [← hmore, List.getElem?_append_left hlt, hid]

omit [CommMonoid W] [DecidableEq W] in
theorem Extends.chainOf {c c' : CascadeParameters} (h : c.Extends c') {a : HalfArc W}
    (ha : a.arc.groupId < c.chains.length) : c'.chainOf a = c.chainOf a := by
  have hid := List.getElem?_eq_getElem ha
  rw [CascadeParameters.chainOf, CascadeParameters.chainOf, List.getD_eq_getElem?_getD,
    List.getD_eq_getElem?_getD, hid, h.chain hid]

/-- Every arc of `x` refers to a chain. -/
def Chained (c : CascadeParameters) (x : WFST W) : Prop :=
  ∀ s, ∀ h ∈ x.outArcs s, h.arc.groupId < c.chains.length

end CascadeParameters

/-- The arcs of `x` are what memory holds at address `addr`. -/
def StoredAt (mem : Param → Option (FSTArc W)) (addr : ℕ) (x : WFST W) : Prop :=
  ∀ s, ∀ h ∈ x.outArcs s, mem (h.param addr) = some h.arc

open CascadeParameters

namespace Operands

variable (o : Operands W)

/-- The recorder can keep track of a composition of these operands. -/
structure Recordable (c : CascadeParameters) (mem : Param → Option (FSTArc W)) : Prop where
  sound : c.Sound mem
  left : if c.isChain.1 then c.Chained o.a else StoredAt mem o.addrA o.a
  right : if c.isChain.2 then c.Chained o.b else StoredAt mem o.addrB o.b

/-- The chain of what an arc was made from. -/
def recordedChain (c : CascadeParameters) : Record W → List Param
  | .left l => if c.isChain.1 then c.chainOf l else cons o.addrA l []
  | .right r => if c.isChain.2 then c.chainOf r else cons o.addrB r []
  | .both l r => c.consChain o.addrA o.addrB l r
  | .locked => []

/-- The record is about arcs of the operands. -/
def Owns : Record W → Prop
  | .left l => ∃ s, l ∈ o.a.outArcs s
  | .right r => ∃ s, r ∈ o.b.outArcs s
  | .both l r => (∃ s, l ∈ o.a.outArcs s) ∧ ∃ s, r ∈ o.b.outArcs s
  | .locked => True

end Operands

section Record

variable {mem : Param → Option (FSTArc W)} {c : CascadeParameters}

theorem originalId_eq (e : FSTArc W) : originalId e = e.groupId := by
  rw [originalId, isLocked1]
  split
  case isTrue h =>
    obtain ⟨hlocked, -⟩ := Bool.and_eq_true_iff.mp h
    exact (of_decide_eq_true hlocked).symm
  case isFalse => rfl

theorem Sound.extend (hc : c.Sound mem) (v : List Param) :
    ({ c with chains := c.chains ++ [v] } : CascadeParameters).Sound mem where
  nontrivial := hc.nontrivial
  nil := (Extends.push c v).chain hc.nil
  epsilon p id hp := by
    obtain ⟨arc, harc, hid⟩ := hc.epsilon p id hp
    exact ⟨arc, harc, (Extends.push c v).chain hid⟩

theorem Sound.remember (hc : c.Sound mem) {p : Param} {arc : FSTArc W} {id : ℕ}
    (harc : mem p = some arc) (hid : c.chains[id]? = some (if isLocked1 arc then [] else [p])) :
    ({ c with epsilonChains := (p, id) :: c.epsilonChains } : CascadeParameters).Sound mem where
  nontrivial := hc.nontrivial
  nil := hc.nil
  epsilon p' id' hp' := by
    rw [List.lookup_cons] at hp'
    split at hp'
    case h_1 heq =>
      obtain rfl := eq_of_beq heq
      obtain rfl := Option.some.inj hp'
      exact ⟨arc, harc, hid⟩
    case h_2 => exact hc.epsilon p' id' hp'

theorem recordEps_spec (hc : c.Sound mem) (p : ℕ) (e : HalfArc W) (chain : Bool)
    (he : if chain then e.arc.groupId < c.chains.length else mem (e.param p) = some e.arc) :
    (c.recordEps p e chain).2.Sound mem ∧ c.Extends (c.recordEps p e chain).2 ∧
      (c.recordEps p e chain).2.chains[(c.recordEps p e chain).1]? =
        some (if chain then c.chainOf e else cons p e []) := by
  rw [recordEps, if_neg (by simp [hc.nontrivial])]
  cases chain with
  | true =>
    refine ⟨hc, .refl c, ?_⟩
    have hlt : e.arc.groupId < c.chains.length := he
    simp [originalId_eq, chainOf, hlt]
  | false =>
    have harc : mem (e.param p) = some e.arc := he
    simp only [Bool.false_eq_true, if_false]
    cases hlookup : c.epsilonChains.lookup (e.param p) with
    | some id =>
      obtain ⟨arc, harc', hid⟩ := hc.epsilon _ id hlookup
      obtain rfl := Option.some.inj (harc'.symm.trans harc)
      exact ⟨hc, .refl c, hid⟩
    | none =>
      dsimp only
      by_cases hlocked : isLocked1 e.arc = true
      · have hcons : cons p e [] = [] := by rw [cons, if_pos hlocked]
        rw [hcons]
        refine ⟨Sound.remember hc harc ?_, ⟨rfl, List.prefix_rfl⟩, hc.nil⟩
        rw [if_pos hlocked]
        exact hc.nil
      · have hcons : cons p e [] = [e.param p] := by rw [cons, if_neg hlocked]
        have hnew : (c.chains ++ [[e.param p]])[c.chains.length]? = some [e.param p] := by simp
        rw [hcons]
        refine ⟨Sound.remember (Sound.extend hc _) harc ?_, ⟨rfl, List.prefix_append ..⟩, hnew⟩
        rw [if_neg hlocked]
        exact hnew

theorem record_spec (hc : c.Sound mem) (pa pb : ℕ) (a b : HalfArc W) :
    (c.record pa pb a b).2.Sound mem ∧ c.Extends (c.record pa pb a b).2 ∧
      (c.record pa pb a b).2.chains[(c.record pa pb a b).1]? = some (c.consChain pa pb a b) := by
  rw [CascadeParameters.record, if_neg (by simp [hc.nontrivial])]
  cases hchain : c.consChain pa pb a b with
  | nil => exact ⟨hc, .refl c, hc.nil⟩
  | cons p ps => exact ⟨Sound.extend hc _, .push c _, by simp⟩

end Record

/-- **The recorder hands out the chain of what the arc was made from**, and keeps
every chain it handed out before. `c₀` is the recorder when the composition
started. -/
theorem Operands.recordGroup_spec {o : Operands W} {mem : Param → Option (FSTArc W)}
    {c₀ c : CascadeParameters} (hrec : o.Recordable c₀ mem) (hc : c.Sound mem)
    (hext : c₀.Extends c) {made : Record W} (hmade : o.Owns made) :
    (o.recordGroup c made).2.Sound mem ∧ c.Extends (o.recordGroup c made).2 ∧
      (o.recordGroup c made).2.chains[(o.recordGroup c made).1]? =
        some (o.recordedChain c₀ made) := by
  have hlen : c₀.chains.length ≤ c.chains.length := hext.chains.length_le
  have hchainOf {h : HalfArc W} (hlt : h.arc.groupId < c₀.chains.length) :
      c.chainOf h = c₀.chainOf h := hext.chainOf hlt
  cases made with
  | left l =>
    obtain ⟨s, hl⟩ := hmade
    have hoperand := hrec.left
    rw [Operands.recordGroup, record1, Operands.recordedChain, hext.isChain]
    cases hchain : c₀.isChain.1 with
    | true =>
      rw [if_pos hchain] at hoperand
      have hlt := hoperand s l hl
      have hspec := recordEps_spec hc o.addrA l true (Nat.lt_of_lt_of_le hlt hlen)
      rwa [if_pos rfl, hchainOf hlt] at hspec
    | false =>
      rw [hchain, if_neg Bool.false_ne_true] at hoperand
      exact recordEps_spec hc o.addrA l false (hoperand s l hl)
  | right r =>
    obtain ⟨s, hr⟩ := hmade
    have hoperand := hrec.right
    rw [Operands.recordGroup, record2, Operands.recordedChain, hext.isChain]
    cases hchain : c₀.isChain.2 with
    | true =>
      rw [if_pos hchain] at hoperand
      have hlt := hoperand s r hr
      have hspec := recordEps_spec hc o.addrB r true (Nat.lt_of_lt_of_le hlt hlen)
      rwa [if_pos rfl, hchainOf hlt] at hspec
    | false =>
      rw [hchain, if_neg Bool.false_ne_true] at hoperand
      exact recordEps_spec hc o.addrB r false (hoperand s r hr)
  | both l r =>
    obtain ⟨⟨s, hl⟩, t, hr⟩ := hmade
    have hcons : c.consChain o.addrA o.addrB l r = c₀.consChain o.addrA o.addrB l r := by
      have hleft := hrec.left
      have hright := hrec.right
      rw [consChain, consChain, hext.isChain]
      rcases hchain : c₀.isChain with ⟨_ | _, _ | _⟩ <;> simp only [hchain] at hleft hright ⊢
      · rw [hchainOf (hright t r hr)]
      · rw [hchainOf (hleft s l hl)]
      · rw [hchainOf (hleft s l hl), hchainOf (hright t r hr)]
    rw [Operands.recordGroup, Operands.recordedChain, ← hcons]
    exact record_spec hc ..
  | locked =>
    have hid : c.locked1GroupId = nilChain := by
      rw [locked1GroupId, hc.nontrivial, if_neg Bool.false_ne_true]
    rw [Operands.recordGroup, hid]
    exact ⟨hc, .refl c, hc.nil⟩

end Carmel
