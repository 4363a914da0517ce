/-
# Nodes by their addresses

A node is named by the way up from it: its place among the children of its parent, the place
of the parent, and so on. The attributes of nodes are functions of these addresses. The rule
below `v` sees no span but that of `v` and those of the nodes that have `v` as their rule
parent.
-/

import Carmel.Gextract.Rules

namespace Carmel.Gextract

abbrev Addr := List ℕ

/-- Neither node is at or below the other. -/
def Beside (u v : Addr) : Prop := ¬ u <:+ v ∧ ¬ v <:+ u

theorem Beside.symm {u v : Addr} (h : Beside u v) : Beside v u := ⟨h.2, h.1⟩

section Code

/-- The node at an address. -/
def Node.subtree {α : Type*} (t : Node α) : Addr → Option (Node α)
  | [] => some t
  | k :: up => (t.subtree up).bind fun p => p.children.toList[k]?

/-- The addresses of the children of `up` from the place `k`, and of the nodes below them,
in preorder. -/
def Nodes.addrs {α : Type*} (up : Addr) : ℕ → Nodes α → List Addr
  | _, nil => []
  | k, node _ children rest =>
    (k :: up) :: (children.addrs (k :: up) 0 ++ rest.addrs up (k + 1))

/-- The same addresses in postorder. -/
def Nodes.postAddrs {α : Type*} (up : Addr) : ℕ → Nodes α → List Addr
  | _, nil => []
  | k, node _ children rest =>
    children.postAddrs (k :: up) 0 ++ (k :: up) :: rest.postAddrs up (k + 1)

def Node.addrs {α : Type*} (t : Node α) : List Addr := [] :: t.children.addrs [] 0

def Node.postAddrs {α : Type*} (t : Node α) : List Addr := t.children.postAddrs [] 0 ++ [[]]

/-- `rule_parent`: the closest ancestor with a span. -/
def ruleParent (span : Addr → Option Span) : Addr → Option Addr
  | [] => none
  | _ :: up => if span up ≠ none then some up else ruleParent span up

end Code

section Addresses

variable {α : Type*} {up u : Addr} {k : ℕ}

theorem Nodes.exists_suffix_of_mem_addrs {ts : Nodes α} (h : u ∈ ts.addrs up k) :
    ∃ j, k ≤ j ∧ (j :: up) <:+ u := by
  induction ts generalizing up k with
  | nil => cases h
  | node attr children rest ihc ihr =>
    rcases List.mem_cons.mp h with rfl | h
    · exact ⟨k, le_rfl, List.suffix_rfl⟩
    · rcases List.mem_append.mp h with h | h
      · obtain ⟨j, -, hj⟩ := ihc h
        exact ⟨k, le_rfl, (List.suffix_cons _ _).trans hj⟩
      · obtain ⟨j, hle, hj⟩ := ihr h
        exact ⟨j, by omega, hj⟩

/-- Two places of one parent have no address in common. -/
theorem place_eq_of_suffix {i j : ℕ} (hi : (i :: up) <:+ u) (hj : (j :: up) <:+ u) : i = j := by
  have h := List.suffix_of_suffix_length_le hi hj (by rw [List.length_cons, List.length_cons])
  exact (List.cons.inj (h.eq_of_length (by rw [List.length_cons, List.length_cons]))).1

theorem Nodes.parent_mem_addrs {ts : Nodes α} {i : ℕ} (h : i :: u ∈ ts.addrs up k) :
    u = up ∨ u ∈ ts.addrs up k := by
  induction ts generalizing up k with
  | nil => cases h
  | node attr children rest ihc ihr =>
    rcases List.mem_cons.mp h with heq | h
    · exact Or.inl (List.cons.inj heq).2
    · rcases List.mem_append.mp h with h | h
      · apply Or.inr
        rcases ihc h with rfl | h
        · exact List.mem_cons_self
        · exact List.mem_cons_of_mem _ (List.mem_append_left _ h)
      · rcases ihr h with rfl | h
        · exact Or.inl rfl
        · exact Or.inr (List.mem_cons_of_mem _ (List.mem_append_right _ h))

theorem Node.parent_mem_addrs {t : Node α} {i : ℕ} (h : i :: u ∈ t.addrs) : u ∈ t.addrs := by
  rcases List.mem_cons.mp h with h | h
  · cases h
  · rcases Nodes.parent_mem_addrs h with rfl | h
    · exact List.mem_cons_self
    · exact List.mem_cons_of_mem _ h

end Addresses

end Carmel.Gextract

/-! ## The lowest node with a span -/

namespace Carmel.Gextract

/-- The words of a span. -/
def InSpan (s : Span) (i : ℕ) : Prop := s.1 ≤ i ∧ i < s.2

/-- The lowest node with a span that has some property. -/
structure Lowest (spans : Addr → Option Span) (P : Addr → Prop) (m : Addr) : Prop where
  span : spans m ≠ none
  has : P m
  lowest : ∀ m', spans m' ≠ none → m <:+ m' → m' ≠ m → ¬ P m'

/-- The span of a node covers a word. -/
def Covers (spans : Addr → Option Span) (f : ℕ) (m : Addr) : Prop :=
  ∃ r, spans m = some r ∧ InSpan r f

section Lowest

variable {spans : Addr → Option Span} {v w m n l : Addr}

/-- The nodes with spans at or above a node end at the top. -/
theorem exists_lowest_suffix (hroot : spans [] ≠ none) (l : Addr) :
    ∃ m, Lowest spans (· <:+ l) m := by
  induction l with
  | nil =>
    refine ⟨[], hroot, List.suffix_rfl, ?_⟩
    intro m' _ _ hne h
    exact hne (List.suffix_nil.mp h)
  | cons k up ih =>
    by_cases hspan : spans (k :: up) = none
    · obtain ⟨m, hm, hsuffix, hlowest⟩ := ih
      refine ⟨m, hm, hsuffix.trans (List.suffix_cons _ _), ?_⟩
      intro m' hm' hbelow hne h
      rcases List.suffix_cons_iff.mp h with rfl | h
      · exact hm' hspan
      · exact hlowest m' hm' hbelow hne h
    · refine ⟨k :: up, hspan, List.suffix_rfl, ?_⟩
      intro m' _ hbelow hne h
      exact hne (h.eq_of_length_le hbelow.length_le)

/-- There is only one lowest node at or above a node. -/
theorem Lowest.eq_of_suffix (h : Lowest spans (· <:+ l) m) (h' : Lowest spans (· <:+ l) n) :
    m = n := by
  by_contra hne
  rcases List.suffix_or_suffix_of_suffix h.has h'.has with hmn | hnm
  · exact h.lowest n h'.span hmn (Ne.symm hne) h'.has
  · exact h'.lowest m h.span hnm hne h.has

/-- The rule parent of a node is the lowest node with a span strictly above it. -/
theorem ruleParent_eq_some_iff : ruleParent spans v = some m ↔
    Lowest spans (fun m => m <:+ v ∧ m ≠ v) m := by
  induction v with
  | nil =>
    apply iff_of_false nofun
    intro h
    exact h.has.2 (List.suffix_nil.mp h.has.1)
  | cons k up ih =>
    have hproper : ∀ m : Addr, m <:+ k :: up ∧ m ≠ k :: up ↔ m <:+ up := by
      intro m
      rw [List.suffix_cons_iff]
      constructor
      · rintro ⟨rfl | h, hne⟩
        · exact absurd rfl hne
        · exact h
      · intro h
        refine ⟨Or.inr h, ?_⟩
        intro heq
        have := h.length_le
        rw [heq, List.length_cons] at this
        omega
    simp only [hproper]
    rw [ruleParent]
    by_cases hspan : spans up = none
    · rw [if_neg (not_not.mpr hspan), ih]
      constructor
      · intro ⟨hm, hhas, hlowest⟩
        refine ⟨hm, hhas.1, ?_⟩
        intro m' hm' hbelow hne h
        exact hlowest m' hm' hbelow hne ⟨h, fun heq => hm' (heq ▸ hspan)⟩
      · intro ⟨hm, hhas, hlowest⟩
        refine ⟨hm, ⟨hhas, fun heq => hm (heq ▸ hspan)⟩, ?_⟩
        intro m' hm' hbelow hne h
        exact hlowest m' hm' hbelow hne h.1
    · rw [if_pos hspan, Option.some.injEq]
      have hup : Lowest spans (· <:+ up) up := by
        refine ⟨hspan, List.suffix_rfl, ?_⟩
        intro m' _ hbelow hne h
        exact hne (h.eq_of_length_le hbelow.length_le)
      constructor
      · intro heq
        exact heq ▸ hup
      · intro h
        exact hup.eq_of_suffix h

theorem exists_ruleParent (hroot : spans [] ≠ none) (hv : v ≠ []) :
    ∃ m, ruleParent spans v = some m := by
  induction v with
  | nil => exact absurd rfl hv
  | cons k up ih =>
    rw [ruleParent]
    by_cases hspan : spans up = none
    · rw [if_neg (not_not.mpr hspan)]
      exact ih fun h0 => hroot (h0 ▸ hspan)
    · exact ⟨up, if_pos hspan⟩

/-- On the way down from a node with a span there is a node that has it as its rule parent. -/
theorem exists_below (hm : spans m ≠ none) (hroot : spans [] ≠ none) (h : m <:+ n) (hne : m ≠ n) :
    ∃ w, ruleParent spans w = some m ∧ w <:+ n ∧ (w = n ∨ spans w ≠ none) := by
  induction hlen : n.length using Nat.strong_induction_on generalizing n with
  | _ len ih =>
    have hn : n ≠ [] := by
      intro h0
      rw [h0] at h hne
      exact hne (List.suffix_nil.mp h)
    obtain ⟨k, hk⟩ := exists_ruleParent hroot hn
    obtain ⟨hkspan, ⟨hkn, hkne⟩, hlowest⟩ := ruleParent_eq_some_iff.mp hk
    by_cases hmk : m = k
    · exact ⟨n, hmk ▸ hk, List.suffix_rfl, Or.inl rfl⟩
    · have habove : m <:+ k := by
        rcases List.suffix_or_suffix_of_suffix h hkn with hmk' | hkm
        · exact hmk'
        · exact absurd ⟨h, hne⟩ (hlowest m hm hkm hmk)
      have hlt : k.length < len := by
        rw [← hlen]
        exact lt_of_le_of_ne hkn.length_le fun heq => hkne (hkn.eq_of_length heq)
      obtain ⟨w, hw, hwk, hor⟩ := ih k.length hlt habove hmk rfl
      refine ⟨w, hw, hwk.trans hkn, Or.inr ?_⟩
      rcases hor with rfl | hspan
      · exact hkspan
      · exact hspan

/-- Two nodes with one rule parent, the first without a span, are beside each other unless the
first is above. -/
theorem beside_of_ruleParent (hv : spans v = none) (hvm : ruleParent spans v = some m)
    (hwm : ruleParent spans w = some m) (hw : w = n ∨ spans w ≠ none) (hwn : w <:+ n)
    (hbeside : Beside v n) : Beside v w := by
  refine ⟨fun h => hbeside.1 (h.trans hwn), ?_⟩
  intro h
  rcases hw with rfl | hspan
  · exact hbeside.2 h
  · obtain ⟨-, -, hlowest⟩ := ruleParent_eq_some_iff.mp hvm
    obtain ⟨-, ⟨hmw, hne⟩, -⟩ := ruleParent_eq_some_iff.mp hwm
    have hwv : w ≠ v := fun heq => hspan (heq ▸ hv)
    exact hlowest w hspan hmw (Ne.symm hne) ⟨h, hwv⟩

end Lowest

end Carmel.Gextract
