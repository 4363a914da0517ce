/-
# The derivation of the full alignment

Linking all words that belong to one node keeps every link. But a leaf is then linked to all
foreign words of its rule, and the smallest interval around these may take in a variable of
the rule, which loses its span; and a part of the rule that no word was aligned to may get a
span.
-/

import Carmel.Gextract.FullAlignment

namespace Carmel.Gextract

/-! ## Words and links -/

theorem Between.mono {P Q : ℕ → Prop} {i : ℕ} (h : ∀ j, P j → Between Q j) (hi : Between P i) :
    Between Q i := by
  obtain ⟨a, b, ha, hb, hai, hib⟩ := hi
  obtain ⟨a', -, ha', -, hle, -⟩ := h a ha
  obtain ⟨-, b', -, hb', -, hle'⟩ := h b hb
  exact ⟨a', b', ha', hb', by omega, by omega⟩

theorem Between.of_mem {P : ℕ → Prop} {i : ℕ} (h : P i) : Between P i := ⟨i, i, h, h, le_rfl, le_rfl⟩

namespace Translation

variable {x : Translation} {leaves : Bool} {u v w m n l : Addr} {i j : ℕ} {r : Span}

theorem Aligned.mono (h : u <:+ v) (hj : x.Aligned v j) : x.Aligned u j := by
  obtain ⟨q, hq, hsuffix, hpair⟩ := hj
  exact ⟨q, hq, h.trans hsuffix, hpair⟩

theorem Aligned.lt_length (h : x.Aligned u j) : j < x.f.length := by
  obtain ⟨q, -, -, hpair⟩ := h
  exact (x.bounded _ hpair).2

theorem spanAt_nil (hroot : x.spanAt leaves [] ≠ none) :
    x.spanAt leaves [] = some (0, x.f.length) := by
  rw [spanAt_eq] at hroot ⊢
  split
  · exact spanAt_nil_true
  · next h => exact absurd (if_neg h) hroot

theorem covers_iff (hn : n ≠ []) (hspan : x.spanAt leaves n ≠ none) :
    Covers (x.spanAt leaves) i n ↔ Between (x.Aligned n) i := by
  obtain ⟨r, hr⟩ := Option.ne_none_iff_exists'.mp hspan
  rw [← inSpan_iff hn hr]
  constructor
  · intro ⟨s, hs, hi⟩
    rw [← Option.some.inj (hr.symm.trans hs)] at hi
    exact hi
  · exact fun hi => ⟨r, hr, hi⟩

theorem covers_nil_iff (hroot : x.spanAt leaves [] ≠ none) :
    Covers (x.spanAt leaves) i [] ↔ i < x.f.length := by
  unfold Covers
  rw [spanAt_nil hroot]
  constructor
  · intro ⟨s, hs, hi⟩
    rw [← Option.some.inj hs] at hi
    exact hi.2
  · exact fun hi => ⟨_, rfl, Nat.zero_le _, hi⟩

/-- A node with a span covers all that lies between words aligned to it. -/
theorem covers_of_between (hroot : x.spanAt leaves [] ≠ none) (hspan : x.spanAt leaves m ≠ none)
    (h : m <:+ v) (hi : Between (x.Aligned v) i) : Covers (x.spanAt leaves) i m := by
  by_cases hm : m = []
  · subst hm
    obtain ⟨_, b, _, hb, _, hib⟩ := hi
    exact (covers_nil_iff hroot).mpr (hib.trans_lt hb.lt_length)
  · rw [covers_iff hm hspan]
    exact hi.mono fun j hj => Between.of_mem (hj.mono h)

theorem Covers.mono (hroot : x.spanAt leaves [] ≠ none) (hspan : x.spanAt leaves m ≠ none)
    (h : m <:+ n) (hi : Covers (x.spanAt leaves) i n) : Covers (x.spanAt leaves) i m := by
  obtain ⟨r, hr, hri⟩ := hi
  by_cases hn : n = []
  · subst hn
    rw [List.suffix_nil.mp h]
    exact ⟨r, hr, hri⟩
  · exact covers_of_between hroot hspan h ((inSpan_iff hn hr).mp hri)

/-- **Every link is kept.** -/
theorem linked_of_aligned (hroot : x.spanAt leaves [] ≠ none) (hl : l ∈ x.etree.leaves)
    (h : x.Aligned l j) : x.Linked leaves l j := by
  obtain ⟨m, hlow⟩ := exists_lowest_suffix hroot l
  refine ⟨m, hlow, hlow.span, covers_of_between hroot hlow.span hlow.has (Between.of_mem h), ?_⟩
  intro m' hm' hbelow hne hcovers
  have hm'0 : m' ≠ [] := fun h0 => hne (h0 ▸ (List.suffix_nil.mp (h0 ▸ hbelow)).symm)
  have hnot : ¬ m' <:+ l := hlow.lowest m' hm' hbelow hne
  by_cases habove : l <:+ m'
  · -- nothing is below a leaf
    have hmem : m' ∈ x.etree.addrs := by
      obtain ⟨r, hr⟩ := Option.ne_none_iff_exists'.mp hm'
      obtain ⟨e, l', hl', hsuffix, -⟩ :=
        aligned_iff.mp ((spanAt_eq_some_iff hm'0).mp hr).2.1.1
      exact Node.mem_addrs_of_suffix hsuffix (x.etree.leaves_subset (List.mem_of_getElem? hl'))
    exact hnot (Node.eq_of_leaf_suffix hl hmem habove ▸ List.suffix_rfl)
  · obtain ⟨r, hr, hri⟩ := hcovers
    exact ((spanAt_eq_some_iff hm'0).mp hr).2.2 l ⟨hnot, habove⟩ j ((inSpan_iff hm'0 hr).mp hri)
      (Between.of_mem h)

/-- A leaf is linked to words of the nodes with spans above it. -/
theorem covers_of_linked (hroot : x.spanAt leaves [] ≠ none) (hspan : x.spanAt leaves n ≠ none)
    (h : n <:+ l) (hj : x.Linked leaves l j) : Covers (x.spanAt leaves) j n := by
  obtain ⟨m, hlow, hcovers⟩ := hj
  rcases List.suffix_or_suffix_of_suffix h hlow.has with hnm | hmn
  · exact Covers.mono hroot hspan hnm hcovers.has
  · by_cases heq : n = m
    · exact heq ▸ hcovers.has
    · exact absurd h (hlow.lowest n hspan hmn heq)

/-- A leaf below a node without a span is linked to words between those of the node, or it
is a leaf of the rule and linked to words of the rule. -/
theorem linked_cases (hv : x.spanAt leaves v = none)
    (hparent : ruleParent (x.spanAt leaves) v = some m) (h : v <:+ l) (hj : x.Linked leaves l j) :
    Between (x.Aligned v) j ∨ Lowest (x.spanAt leaves) (· <:+ l) m ∧
        Lowest (x.spanAt leaves) (Covers (x.spanAt leaves) j) m := by
  obtain ⟨k, hlow, hcovers⟩ := hj
  obtain ⟨hm, ⟨hmv, -⟩, hlowest⟩ := ruleParent_eq_some_iff.mp hparent
  by_cases hbelow : v <:+ k
  · left
    have hk0 : k ≠ [] := by
      intro h0
      rw [h0] at hbelow
      have hv0 : v = [] := List.suffix_nil.mp hbelow
      rw [hv0] at hv
      exact hlow.span (h0 ▸ hv)
    exact ((covers_iff hk0 hlow.span).mp hcovers.has).mono fun j hj => Between.of_mem (hj.mono hbelow)
  · right
    -- the lowest node above the leaf is the rule parent
    have hkv : k <:+ v :=
      (List.suffix_or_suffix_of_suffix h hlow.has).resolve_left hbelow
    have heq : k = m := by
      by_contra hne
      rcases List.suffix_or_suffix_of_suffix hkv hmv with hkm | hmk
      · exact hlow.lowest m hm hkm (Ne.symm hne) (hmv.trans h)
      · exact hlowest k hlow.span hmk hne ⟨hkv, fun heq => hbelow (heq ▸ List.suffix_rfl)⟩
    exact heq ▸ ⟨hlow, hcovers⟩

/-! ## What may change -/

/-- A node of the rule of `m` that is not a variable of it. -/
structure Inner (x : Translation) (leaves : Bool) (m v : Addr) : Prop where
  mem : v ∈ x.etree.addrs
  span : x.spanAt leaves v = none
  parent : ruleParent (x.spanAt leaves) v = some m

/-- A leaf of the rule of `m`. -/
def OwnLeaf (x : Translation) (leaves : Bool) (m l : Addr) : Prop :=
  l ∈ x.etree.leaves ∧ Lowest (x.spanAt leaves) (· <:+ l) m

/-- A foreign word of the rule of `m`. -/
def OwnWord (x : Translation) (leaves : Bool) (m : Addr) (j : ℕ) : Prop :=
  Lowest (x.spanAt leaves) (Covers (x.spanAt leaves) j) m

/-- In some rule, the words aligned to a node with leaves of the rule and the foreign words
of the rule have a variable between them that is not below the node. -/
def LosesVariable (x : Translation) (leaves : Bool) : Prop :=
  ∃ m v n i, x.Inner leaves m v ∧ (∃ l, x.OwnLeaf leaves m l ∧ v <:+ l) ∧
    x.spanAt leaves n ≠ none ∧ ruleParent (x.spanAt leaves) n = some m ∧ Beside v n ∧
    Between (fun j => x.Aligned v j ∨ x.OwnWord leaves m j) i ∧ Covers (x.spanAt leaves) i n

/-- In some rule with foreign words, all leaves of the rule are below a node that no word is
aligned to, and the foreign words of the rule are apart from those of the nodes beside it. -/
def AddsVariable (x : Translation) (leaves : Bool) : Prop :=
  ∃ m v, x.Inner leaves m v ∧ (leaves = true ∨ v ∉ x.etree.leaves) ∧
    (∀ j, ¬ x.Aligned v j) ∧ (∃ j, x.OwnWord leaves m j) ∧
    (∀ l, x.OwnLeaf leaves m l → v <:+ l) ∧
    ∀ w, Beside v w → ruleParent (x.spanAt leaves) w = some m →
      ∀ i, Between (x.OwnWord leaves m) i → ¬ Between (x.Aligned w) i

/-- The same tree and sentence with the alignment of the links. -/
structure Relinked (x : Translation) (leaves : Bool) (x' : Translation) : Prop where
  etree : x'.etree = x.etree
  length : x'.f.length = x.f.length
  root : x.spanAt leaves [] ≠ none
  links : ∀ e f, (e, f) ∈ x'.efpairs ↔ ∃ l, x.etree.leaves[e]? = some l ∧ x.Linked leaves l f

namespace Relinked

variable {x' : Translation}

theorem aligned_iff (h : Relinked x leaves x') :
    x'.Aligned u j ↔ ∃ l ∈ x.etree.leaves, u <:+ l ∧ x.Linked leaves l j := by
  rw [Translation.aligned_iff, h.etree]
  constructor
  · intro ⟨e, l, hl, hsuffix, hpair⟩
    obtain ⟨l', hl', hlinked⟩ := (h.links e j).mp hpair
    rw [← Option.some.inj (hl.symm.trans hl')] at hlinked
    exact ⟨l, List.mem_of_getElem? hl, hsuffix, hlinked⟩
  · intro ⟨l, hl, hsuffix, hlinked⟩
    obtain ⟨e, hl⟩ := List.mem_iff_getElem?.mp hl
    exact ⟨e, l, hl, hsuffix, (h.links e j).mpr ⟨l, hl, hlinked⟩⟩

/-- Every word that was aligned still is. -/
theorem aligned (h : Relinked x leaves x') (hj : x.Aligned u j) : x'.Aligned u j := by
  obtain ⟨e, l, hl, hsuffix, hpair⟩ := Translation.aligned_iff.mp hj
  have hmem := List.mem_of_getElem? hl
  exact h.aligned_iff.mpr ⟨l, hmem, hsuffix, linked_of_aligned h.root hmem
    (Translation.aligned_iff.mpr ⟨e, l, hl, List.suffix_rfl, hpair⟩)⟩

theorem covers_of_aligned (h : Relinked x leaves x') (hspan : x.spanAt leaves n ≠ none)
    (hj : x'.Aligned n j) : Covers (x.spanAt leaves) j n := by
  obtain ⟨l, -, hsuffix, hlinked⟩ := h.aligned_iff.mp hj
  exact covers_of_linked h.root hspan hsuffix hlinked

/-- A node with a span covers the same words as before. -/
theorem between_iff (h : Relinked x leaves x') (hn : n ≠ []) (hspan : x.spanAt leaves n ≠ none) :
    Between (x'.Aligned n) i ↔ Between (x.Aligned n) i := by
  constructor
  · intro hi
    exact hi.mono fun j hj => (covers_iff hn hspan).mp (h.covers_of_aligned hspan hj)
  · intro hi
    exact hi.mono fun j hj => Between.of_mem (h.aligned hj)

theorem isCover (h : Relinked x leaves x') (hn : n ≠ []) (hr : x.spanAt leaves n = some r) :
    IsCover (some r) (x'.Aligned n) := by
  obtain ⟨-, ⟨hfirst, ⟨b, hb, hlast⟩, -⟩, -⟩ := (spanAt_eq_some_iff hn).mp hr
  refine ⟨h.aligned hfirst, ⟨b, h.aligned hb, hlast⟩, ?_⟩
  intro j hj
  obtain ⟨s, hs, hin⟩ := h.covers_of_aligned (by rw [hr]; exact Option.some_ne_none r) hj
  rw [← Option.some.inj (hr.symm.trans hs)] at hin
  exact hin

theorem spanAt_nil (h : Relinked x leaves x') :
    x'.spanAt leaves [] = x.spanAt leaves [] := by
  have hroot := h.root
  rw [spanAt_eq] at hroot ⊢
  rw [spanAt_eq (x := x), h.etree]
  split
  · rw [spanAt_nil_true, spanAt_nil_true, h.length]
  · rfl

/-- A node keeps its span if no node beside it gets words around it. -/
theorem spanAt_eq_iff (h : Relinked x leaves x') (hn : n ≠ [])
    (hspan : x.spanAt leaves n ≠ none) : x'.spanAt leaves n = x.spanAt leaves n ↔
      ∀ v, Beside n v → ∀ i, Between (x.Aligned n) i → ¬ Between (x'.Aligned v) i := by
  obtain ⟨r, hr⟩ := Option.ne_none_iff_exists'.mp hspan
  have hleaf := ((spanAt_eq_some_iff hn).mp hr).1
  rw [hr, spanAt_eq_some_iff hn, h.etree, and_iff_right hleaf, and_iff_right (h.isCover hn hr)]
  refine forall_congr' fun v => imp_congr_right fun _ => forall_congr' fun i => ?_
  rw [h.between_iff hn hspan]

/-- Words that a part of a rule gets are words of the rule, and it has leaves of the rule. -/
theorem aligned_cases (h : Relinked x leaves x') (hv : x.Inner leaves m v) (hj : x'.Aligned v j) :
    Between (x.Aligned v) j ∨ x.OwnWord leaves m j ∧ ∃ l, x.OwnLeaf leaves m l ∧ v <:+ l := by
  obtain ⟨l, hl, hsuffix, hlinked⟩ := h.aligned_iff.mp hj
  rcases linked_cases hv.span hv.parent hsuffix hlinked with hbetween | ⟨hleaf, hword⟩
  · exact Or.inl hbetween
  · exact Or.inr ⟨hword, l, ⟨hl, hleaf⟩, hsuffix⟩

theorem aligned_of_own (h : Relinked x leaves x') (hl : x.OwnLeaf leaves m l) (hsuffix : v <:+ l)
    (hj : x.OwnWord leaves m j) : x'.Aligned v j :=
  h.aligned_iff.mpr ⟨l, hl.1, hsuffix, m, hl.2, hj⟩

theorem mem_addrs_of_aligned (h : Relinked x leaves x') (hj : x'.Aligned v j) :
    v ∈ x.etree.addrs := by
  obtain ⟨l, hl, hsuffix, -⟩ := h.aligned_iff.mp hj
  exact Node.mem_addrs_of_suffix hsuffix (x.etree.leaves_subset hl)

/-- Nodes beside each other that are below no common rule do not come together. -/
theorem not_between_of_beside (h : Relinked x leaves x') (hspan : x.spanAt leaves m ≠ none)
    (hn : x.spanAt leaves n ≠ none) (hn0 : n ≠ []) (hmv : m <:+ v) (hbeside : Beside m n)
    (hi : Between (x.Aligned n) i) : ¬ Between (x'.Aligned v) i := by
  intro hi'
  have hm0 : m ≠ [] := fun h0 => hbeside.1 (h0 ▸ List.nil_suffix)
  have hcovers : Covers (x.spanAt leaves) i m := by
    rw [covers_iff hm0 hspan]
    rw [← h.between_iff hm0 hspan]
    exact hi'.mono fun j hj => Between.of_mem (hj.mono hmv)
  exact not_covers_of_beside hbeside hcovers ((covers_iff hn0 hn).mpr hi)

/-- If no variable is lost, every node with a span keeps it. -/
theorem keeps (h : Relinked x leaves x') (hnot : ¬ x.LosesVariable leaves) (hn : n ≠ [])
    (hspan : x.spanAt leaves n ≠ none) : x'.spanAt leaves n = x.spanAt leaves n := by
  rw [h.spanAt_eq_iff hn hspan]
  intro v hbeside i hi hi'
  have hv0 : v ≠ [] := fun h0 => hbeside.2 (h0 ▸ List.nil_suffix)
  by_cases hv : x.spanAt leaves v = none
  · obtain ⟨m, hm⟩ := exists_ruleParent h.root hv0
    obtain ⟨hmspan, ⟨hmv, hmne⟩, -⟩ := ruleParent_eq_some_iff.mp hm
    have hmem : v ∈ x.etree.addrs := by
      obtain ⟨a, _, ha, _⟩ := hi'
      exact h.mem_addrs_of_aligned ha
    by_cases hmn : m <:+ n
    · have hne : m ≠ n := fun heq => hbeside.1 (heq ▸ hmv)
      obtain ⟨w, hw, hwn, hor⟩ := exists_below hmspan h.root hmn hne
      have hwspan : x.spanAt leaves w ≠ none := by
        rcases hor with rfl | hw'
        · exact hspan
        · exact hw'
      have hbeside' := beside_of_ruleParent hv hm hw hor hwn hbeside.symm
      have hcovers : Covers (x.spanAt leaves) i w :=
        covers_of_between h.root hwspan hwn hi
      by_cases hown : ∃ l, x.OwnLeaf leaves m l ∧ v <:+ l
      · apply hnot
        refine ⟨m, v, w, i, ⟨hmem, hv, hm⟩, hown, hwspan, hw, hbeside', ?_, hcovers⟩
        apply hi'.mono
        intro j hj
        rcases h.aligned_cases ⟨hmem, hv, hm⟩ hj with hj | ⟨hj, -⟩
        · exact hj.mono fun j hj => Between.of_mem (Or.inl hj)
        · exact Between.of_mem (Or.inr hj)
      · -- without a leaf of the rule it covers what it did
        have hbetween : Between (x.Aligned v) i := by
          apply hi'.mono
          intro j hj
          rcases h.aligned_cases ⟨hmem, hv, hm⟩ hj with hj | ⟨-, hj⟩
          · exact hj
          · exact absurd hj hown
        obtain ⟨r, hr⟩ := Option.ne_none_iff_exists'.mp hspan
        exact ((spanAt_eq_some_iff hn).mp hr).2.2 v hbeside i hi hbetween
    · have hbeside' : Beside m n := ⟨hmn, fun hnm => hbeside.1 (hnm.trans hmv)⟩
      exact h.not_between_of_beside hmspan hspan hn hmv hbeside' hi hi'
  · rw [h.between_iff hv0 hv] at hi'
    obtain ⟨r, hr⟩ := Option.ne_none_iff_exists'.mp hspan
    exact ((spanAt_eq_some_iff hn).mp hr).2.2 v hbeside i hi hi'

/-- A variable between the words of a part of its rule loses its span. -/
theorem not_keeps (h : Relinked x leaves x') (hloses : x.LosesVariable leaves) :
    ∃ n, x'.spanAt leaves n ≠ x.spanAt leaves n := by
  obtain ⟨m, v, n, i, hv, ⟨l, hl, hsuffix⟩, hspan, -, hbeside, hi, hcovers⟩ := hloses
  have hn0 : n ≠ [] := fun h0 => hbeside.2 (h0 ▸ List.nil_suffix)
  refine ⟨n, ?_⟩
  rw [Ne, h.spanAt_eq_iff hn0 hspan]
  intro hall
  apply hall v hbeside.symm i ((covers_iff hn0 hspan).mp hcovers)
  apply hi.mono
  rintro j (hj | hj)
  · exact Between.of_mem (h.aligned hj)
  · exact Between.of_mem (h.aligned_of_own hl hsuffix hj)

/-- A part of a rule that no word is aligned to has leaves of the rule only. -/
theorem exists_ownLeaf (h : Relinked x leaves x') (hv : x.Inner leaves m v)
    (hnone : ∀ j, ¬ x.Aligned v j) : ∃ l, x.OwnLeaf leaves m l ∧ v <:+ l := by
  obtain ⟨l, hl, hsuffix⟩ := Node.exists_leaf hv.mem
  refine ⟨l, ⟨hl, ?_⟩, hsuffix⟩
  obtain ⟨k, hlow⟩ := exists_lowest_suffix h.root l
  obtain ⟨hm, ⟨hmv, hmne⟩, hlowest⟩ := ruleParent_eq_some_iff.mp hv.parent
  rcases List.suffix_or_suffix_of_suffix hsuffix hlow.has with hvk | hkv
  · -- a node with a span below has words
    have hk0 : k ≠ [] := by
      intro h0
      rw [h0] at hvk
      have hv0 : v = [] := List.suffix_nil.mp hvk
      rw [hv0] at hmv hmne
      exact hmne (List.suffix_nil.mp hmv)
    obtain ⟨r, hr⟩ := Option.ne_none_iff_exists'.mp hlow.span
    exact absurd (((spanAt_eq_some_iff hk0).mp hr).2.1.1.mono hvk) (hnone _)
  · have heq : k = m := by
      by_contra hne
      rcases List.suffix_or_suffix_of_suffix hkv hmv with hkm | hmk
      · exact hlow.lowest m hm hkm (Ne.symm hne) (hmv.trans hsuffix)
      · refine hlowest k hlow.span hmk hne ⟨hkv, ?_⟩
        intro hkv'
        exact hlow.span (hkv' ▸ hv.span)
    exact heq ▸ hlow

/-- If no variable is added, every node without a span stays so. -/
theorem stays (h : Relinked x leaves x') (hnot : ¬ x.AddsVariable leaves) (hv0 : v ≠ [])
    (hv : x.spanAt leaves v = none) : x'.spanAt leaves v = none := by
  by_contra hne
  obtain ⟨r, hr⟩ := Option.ne_none_iff_exists'.mp hne
  obtain ⟨hleaf, hcover, hfrontier⟩ := (spanAt_eq_some_iff hv0).mp hr
  rw [h.etree] at hleaf
  obtain ⟨m, hm⟩ := exists_ruleParent h.root hv0
  have hinner : x.Inner leaves m v := ⟨h.mem_addrs_of_aligned hcover.1, hv, hm⟩
  -- with words of its own it was no frontier node because of a node beside it
  have hnone : ∀ j, ¬ x.Aligned v j := by
    intro j hj
    obtain ⟨s, hs⟩ := x.exists_isCover hv0 hj
    have hold : ∃ w, Beside v w ∧ ∃ i, Between (x.Aligned v) i ∧ Between (x.Aligned w) i := by
      by_contra hnone
      have hsome : x.spanAt leaves v = some s := by
        rw [spanAt_eq_some_iff hv0]
        refine ⟨hleaf, hs, ?_⟩
        intro w hw i hi hi'
        exact hnone ⟨w, hw, i, hi, hi'⟩
      exact absurd (hv.symm.trans hsome) nofun
    obtain ⟨w, hw, i, hi, hi'⟩ := hold
    exact hfrontier w hw i (hi.mono fun j hj => Between.of_mem (h.aligned hj))
      (hi'.mono fun j hj => Between.of_mem (h.aligned hj))
  have hcases : ∀ j, x'.Aligned v j → x.OwnWord leaves m j := by
    intro j hj
    rcases h.aligned_cases hinner hj with ⟨a, _, ha, _⟩ | ⟨hword, -⟩
    · exact absurd ha (hnone a)
    · exact hword
  obtain ⟨l, hl, hsuffix⟩ := h.exists_ownLeaf hinner hnone
  have hword : ∀ j, x.OwnWord leaves m j → x'.Aligned v j :=
    fun j hj => h.aligned_of_own hl hsuffix hj
  apply hnot
  refine ⟨m, v, hinner, hleaf, hnone, ⟨r.1, hcases _ hcover.1⟩, ?_, ?_⟩
  · intro l' hl'
    by_contra hout
    have hbeside : Beside v l' := by
      refine ⟨hout, ?_⟩
      intro habove
      exact hout (Node.eq_of_leaf_suffix hl'.1 hinner.mem habove ▸ List.suffix_rfl)
    exact hfrontier l' hbeside r.1 (Between.of_mem hcover.1)
      (Between.of_mem (h.aligned_of_own hl' List.suffix_rfl (hcases _ hcover.1)))
  · intro w hw _ i hi hi'
    exact hfrontier w hw i (hi.mono fun j hj => Between.of_mem (hword j hj))
      (hi'.mono fun j hj => Between.of_mem (h.aligned hj))

/-- A node that may be added is, if no span is lost. -/
theorem not_stays (h : Relinked x leaves x')
    (hkeeps : ∀ n, x.spanAt leaves n ≠ none → x'.spanAt leaves n = x.spanAt leaves n)
    (hadds : x.AddsVariable leaves) : ∃ v, x'.spanAt leaves v ≠ x.spanAt leaves v := by
  obtain ⟨m, v, hinner, hleaf, hnone, ⟨j, hj⟩, hall, hfree⟩ := hadds
  obtain ⟨hm, ⟨hmv, hmne⟩, -⟩ := ruleParent_eq_some_iff.mp hinner.parent
  have hv0 : v ≠ [] := by
    intro h0
    rw [h0] at hmv hmne
    exact hmne (List.suffix_nil.mp hmv)
  obtain ⟨l, hl, hsuffix⟩ := h.exists_ownLeaf hinner hnone
  have hword : ∀ {j}, x'.Aligned v j ↔ x.OwnWord leaves m j := by
    intro j
    constructor
    · intro hj
      rcases h.aligned_cases hinner hj with ⟨a, _, ha, _⟩ | ⟨hword, -⟩
      · exact absurd ha (hnone a)
      · exact hword
    · exact fun hj => h.aligned_of_own hl hsuffix hj
  obtain ⟨r, hr⟩ := x'.exists_isCover hv0 (hword.mpr hj)
  refine ⟨v, ?_⟩
  have hsome : x'.spanAt leaves v = some r := by
    rw [spanAt_eq_some_iff hv0, h.etree]
    refine ⟨hleaf, hr, ?_⟩
    intro w hbeside i hi hi'
    have hi'' : Between (x.OwnWord leaves m) i := hi.mono fun j hj => Between.of_mem (hword.mp hj)
    have hw0 : w ≠ [] := fun h0 => hbeside.2 (h0 ▸ List.nil_suffix)
    by_cases hmw : m <:+ w
    · have hne : m ≠ w := fun heq => hbeside.2 (heq ▸ hmv)
      obtain ⟨w', hw', hww, hor⟩ := exists_below hm h.root hmw hne
      have hbeside' := beside_of_ruleParent hinner.span hinner.parent hw' hor hww hbeside
      have hw'0 : w' ≠ [] := fun h0 => hbeside'.2 (h0 ▸ List.nil_suffix)
      apply hfree w' hbeside' hw' i hi''
      by_cases hspan : x.spanAt leaves w' = none
      · -- a part of the rule beside all leaves of the rule gets no words
        have heq : w' = w := hor.resolve_right (not_not.mpr hspan)
        subst heq
        apply hi'.mono
        intro j hj
        rcases h.aligned_cases ⟨h.mem_addrs_of_aligned hj, hspan, hw'⟩ hj with
          hj | ⟨-, l', hl', hsuffix'⟩
        · exact hj
        · rcases List.suffix_or_suffix_of_suffix (hall l' hl') hsuffix' with hvw | hwv
          · exact absurd hvw hbeside.1
          · exact absurd hwv hbeside.2
      · rw [← h.between_iff hw'0 hspan]
        exact hi'.mono fun j hj => Between.of_mem (hj.mono hww)
    · have hbeside' : Beside m w := ⟨hmw, fun hwm => hbeside.2 (hwm.trans hmv)⟩
      have hm0 : m ≠ [] := fun h0 => hmw (h0 ▸ List.nil_suffix)
      -- the rule node has kept its span
      obtain ⟨s, hs⟩ := Option.ne_none_iff_exists'.mp hm
      have hs' : x'.spanAt leaves m = some s := (hkeeps m hm).trans hs
      exact ((spanAt_eq_some_iff hm0).mp hs').2.2 w hbeside' i
        (hi.mono fun j hj => Between.of_mem (hj.mono hmv)) hi'
  rw [hsome, hinner.span]
  exact Option.some_ne_none r

/-- All spans stay if and only if no variable is lost and none is added. -/
theorem spanAt_iff (h : Relinked x leaves x') :
    (∀ u, x'.spanAt leaves u = x.spanAt leaves u) ↔
      ¬ x.LosesVariable leaves ∧ ¬ x.AddsVariable leaves := by
  constructor
  · intro hall
    constructor
    · intro hloses
      obtain ⟨n, hn⟩ := h.not_keeps hloses
      exact hn (hall n)
    · intro hadds
      obtain ⟨v, hv⟩ := h.not_stays (fun n _ => hall n) hadds
      exact hv (hall v)
  · intro ⟨hloses, hadds⟩ u
    by_cases hu : u = []
    · rw [hu, h.spanAt_nil]
    · by_cases hspan : x.spanAt leaves u = none
      · rw [hspan, h.stays hadds hu hspan]
      · exact h.keeps hloses hu hspan

end Relinked

end Translation

/-! ## The full alignment as the alignment -/

theorem Node.length_leaves {α : Type*} (t : Node α) : t.leaves.length = t.yieldLabels.length := by
  obtain ⟨attr, children⟩ := t
  cases children with
  | nil => rfl
  | node a c r => exact Nodes.length_leaves _ [] 0

namespace Translation

variable {x : Translation} {leaves : Bool} {pairs : List (ℕ × ℕ)}

theorem root_of_fullAlignment (h : x.fullAlignment leaves = some pairs) :
    x.spanAt leaves [] ≠ none := by
  have hspan : x.spanAt leaves [] = (x.ghkm leaves false).attr.span := rfl
  rw [hspan]
  intro hnone
  simp only [fullAlignment, hnone, if_true] at h
  cases h

theorem bounded_of_fullAlignment (h : x.fullAlignment leaves = some pairs) :
    ∀ p ∈ pairs, p.1 < x.etree.yieldLabels.length ∧ p.2 < x.f.length := by
  intro p hp
  have hroot := root_of_fullAlignment h
  obtain ⟨l, hl, m, hlow, hcovers⟩ := (mem_fullAlignment h p.1 p.2).mp hp
  constructor
  · rw [← Node.length_leaves]
    exact (List.getElem?_eq_some_iff.mp hl).1
  · exact (covers_nil_iff hroot).mp (Covers.mono hroot hroot List.nil_suffix hcovers.has)

/-- The example with its full alignment as the alignment. -/
def realigned (x : Translation) (h : x.fullAlignment leaves = some pairs) : Translation :=
  { x with efpairs := pairs, bounded := bounded_of_fullAlignment h }

/-- **`full_alignment`**: `ghkm` gives the same spans again if and only if in no rule the words
of a part and those of the rule surround a variable, and in no rule a part without words has all
the leaves of the rule and could take its foreign words. -/
theorem spanAt_realigned_iff (h : x.fullAlignment leaves = some pairs) :
    (∀ u, (x.realigned h).spanAt leaves u = x.spanAt leaves u) ↔
      ¬ x.LosesVariable leaves ∧ ¬ x.AddsVariable leaves :=
  Relinked.spanAt_iff ⟨rfl, rfl, root_of_fullAlignment h, mem_fullAlignment h⟩

end Translation

/-- The rule of `S` has the words of `a` and `c`, and `N` is its variable. -/
def variableBetween : Translation where
  etree := ⟨"S", .node "a" .nil (.node "N" (.node "b" .nil .nil) (.node "c" .nil .nil))⟩
  f := ["x", "y", "z"]
  efpairs := [(0, 0), (1, 1), (2, 2)]
  bounded := by decide

theorem fullAlignment_variableBetween :
    variableBetween.fullAlignment false = some [(1, 1), (0, 0), (0, 2), (2, 0), (2, 2)] := by
  decide

/-- After the full alignment `N` has no span. -/
theorem not_spanAt_variableBetween :
    variableBetween.spanAt false [1] = some (1, 2) ∧
      (variableBetween.realigned fullAlignment_variableBetween).spanAt false [1] = none := by
  decide

theorem spanAt_realigned_variableBetween :
    (∀ u, (variableBetween.realigned fullAlignment_variableBetween).spanAt false u =
        variableBetween.spanAt false u) ↔
      ¬ variableBetween.LosesVariable false ∧ ¬ variableBetween.AddsVariable false :=
  Translation.spanAt_realigned_iff fullAlignment_variableBetween

end Carmel.Gextract
