/-
# Counting the nodes below a node

Every node of a forest has a list of children, and no node has two parents. If a number is
assigned to each node that is one more than what its children have together, it is the
number of nodes at or below the node.
-/

import Carmel.Math.Instances

namespace Carmel.Math

open Relation

universe u

variable {α : Type u} (kids : α → List α)

/-- The nodes at or below a node. -/
def below (a : α) : Set α := {b | ReflTransGen (fun a c => c ∈ kids a) a b}

/-- The numbers count the nodes, which have one parent each. -/
structure CountsNodes (size : α → ℕ) : Prop where
  size : ∀ a, size a = 1 + ((kids a).map size).sum
  parent : ∀ a b c, c ∈ kids a → c ∈ kids b → a = b
  nodup : ∀ a, (kids a).Nodup

variable {kids} {size : α → ℕ} {a b c d : α}

theorem CountsNodes.size_lt (h : CountsNodes kids size) (hc : c ∈ kids a) : size c < size a := by
  have hle : size c ≤ ((kids a).map size).sum :=
    List.single_le_sum (fun _ _ => Nat.zero_le _) _ (List.mem_map_of_mem hc)
  rw [h.size a]
  omega

theorem CountsNodes.size_le (h : CountsNodes kids size) (hb : b ∈ below kids a) :
    size b ≤ size a := by
  induction hb with
  | refl => exact Nat.le_refl _
  | tail _ hc ih => exact Nat.le_trans (Nat.le_of_lt (h.size_lt hc)) ih

theorem CountsNodes.notMem_below (h : CountsNodes kids size) (hc : c ∈ kids a) : a ∉ below kids c :=
  fun ha => absurd (h.size_le ha) (Nat.not_le.mpr (h.size_lt hc))

/-- Nothing is below two children of a node. -/
theorem CountsNodes.disjoint (h : CountsNodes kids size) (hc : c ∈ kids a) (hd : d ∈ kids a)
    (hne : c ≠ d) : Disjoint (below kids c) (below kids d) := by
  -- of two children above one node one is below the other, and so is their parent
  have habove : ∀ c d, c ∈ kids a → d ∈ kids a → c ≠ d →
      ¬ ReflTransGen (fun a c => c ∈ kids a) c d := by
    intro c d hc hd hne hpath
    rcases hpath.cases_tail with heq | ⟨e, hpath, hde⟩
    · exact hne heq.symm
    · rw [h.parent e a d hde hd] at hpath
      exact h.notMem_below hc hpath
  rw [Set.disjoint_left]
  intro x hx hx'
  have hunique : Relator.RightUnique (Function.swap fun a c => c ∈ kids a) :=
    fun x a b ha hb => h.parent a b x ha hb
  rcases ReflTransGen.total_of_right_unique hunique (reflTransGen_swap.mpr hx)
    (reflTransGen_swap.mpr hx') with hcd | hdc
  · exact habove d c hd hc (Ne.symm hne) (reflTransGen_swap.mp hcd)
  · exact habove c d hc hd hne (reflTransGen_swap.mp hdc)

theorem below_eq (a : α) : below kids a = insert a (⋃ c ∈ kids a, below kids c) := by
  ext b
  rw [Set.mem_insert_iff, Set.mem_iUnion₂]
  constructor
  · intro hb
    rcases ReflTransGen.cases_head hb with heq | ⟨c, hc, hpath⟩
    · exact .inl heq.symm
    · exact .inr ⟨c, hc, hpath⟩
  · intro hb
    rcases hb with rfl | ⟨c, hc, hpath⟩
    · exact ReflTransGen.refl
    · exact ReflTransGen.head hc hpath

/-- **The nodes at or below a node** are as many as its number says. -/
theorem CountsNodes.ncard_below (h : CountsNodes kids size) (a : α) :
    (below kids a).Finite ∧ (below kids a).ncard = size a := by
  induction hk : size a using Nat.strong_induction_on generalizing a with
  | _ k ih =>
    subst hk
    have hunion : ∀ cs : List α, cs.Nodup → cs ⊆ kids a → (⋃ c ∈ cs, below kids c).Finite ∧
          (⋃ c ∈ cs, below kids c).ncard = (cs.map size).sum := by
      intro cs
      induction cs with
      | nil =>
        intro _ _
        simp
      | cons c cs ihcs =>
        intro hnodup hsub
        rcases List.nodup_cons.mp hnodup with ⟨hnotin, hnodup⟩
        have hc := hsub List.mem_cons_self
        have hsub' : cs ⊆ kids a := fun d hd => hsub (List.mem_cons_of_mem _ hd)
        rcases ih _ (h.size_lt hc) c rfl with ⟨hfin, hcard⟩
        rcases ihcs hnodup hsub' with ⟨hfins, hcards⟩
        have hsplit : (⋃ d ∈ c :: cs, below kids d) = below kids c ∪ ⋃ d ∈ cs, below kids d := by
          simp only [List.mem_cons, Set.iUnion_iUnion_eq_or_left]
        have hdisjoint : Disjoint (below kids c) (⋃ d ∈ cs, below kids d) := by
          rw [Set.disjoint_iUnion₂_right]
          intro d hd
          exact h.disjoint hc (hsub' hd) fun heq => hnotin (heq ▸ hd)
        rw [hsplit, List.map_cons, List.sum_cons]
        exact ⟨hfin.union hfins, by rw [Set.ncard_union_eq hdisjoint hfin hfins, hcard, hcards]⟩
    rcases hunion (kids a) (h.nodup a) (List.Subset.refl _) with ⟨hfin, hcard⟩
    have hnotin : a ∉ ⋃ c ∈ kids a, below kids c := by
      rw [Set.mem_iUnion₂]
      intro ⟨c, hc, hin⟩
      exact h.notMem_below hc hin
    rw [below_eq, Set.ncard_insert_of_notMem hnotin hfin, hcard, h.size a, Nat.add_comm]
    exact ⟨hfin.insert a, rfl⟩

end Carmel.Math
