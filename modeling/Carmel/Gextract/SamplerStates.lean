/-
# Well-formed states of the sampler

The spans of a state nest: a node has its span within that of its rule parent, and nodes
with one rule parent share no word. The closure span of a node covers the spans below it,
and `f2enode` has for every word the lowest node whose span covers it.
-/

import Carmel.Gextract.FullAlignment
import Carmel.Gextract.Sampler

namespace Carmel.Gextract

/-- Rule spans are nested and those of siblings are disjoint; closure spans and `f2enode`
are what `set_closure_span` and `set_f2enode` compute. -/
structure Example.WellFormed (x : Example) : Prop where
  top : x.span [] = some (0, x.f.length)
  mem : ∀ u, x.span u ≠ none → u ∈ x.etree.addrs
  proper : ∀ u r, u ≠ [] → x.span u = some r → r.1 < r.2
  nested : ∀ u m r s, ruleParent x.span u = some m → x.span u = some r → x.span m = some s →
    s.1 ≤ r.1 ∧ r.2 ≤ s.2
  apart : ∀ u v m r s, u ≠ v → ruleParent x.span u = some m → ruleParent x.span v = some m →
    x.span u = some r → x.span v = some s → Apart r s
  closure : ∀ u ∈ x.etree.addrs, x.closureSpan u = x.childCover u
  f2enode : x.setF2enode = some x

section Taking

variable {span : Addr → Option Span} {fe fe' : List (Option Addr)} {i : ℕ} {t : Addr}

theorem mem_spanPoints {s : Option Span} : i ∈ spanPoints s ↔ ∃ r, s = some r ∧ InSpan r i := by
  cases s with
  | none => simp [spanPoints]
  | some r =>
    simp only [spanPoints, List.mem_range'_1, Option.some.injEq, exists_eq_left', InSpan]
    omega

theorem mem_spanPoints_iff : i ∈ spanPoints (span t) ↔ Covers span i t := mem_spanPoints

/-- The words of a node that nobody has yet. -/
theorem foldlM_take (points : List ℕ) (fe : List (Option Addr))
    (h : points.foldlM (fun fe p => (fe[p]?).map fun owner =>
      if owner = none then fe.set p (some t) else fe) fe = some fe') :
    fe'.length = fe.length ∧ ∀ i : ℕ, fe'[i]? = (fe[i]?).map fun owner =>
      owner.or (if i ∈ points then some t else none) := by
  induction points generalizing fe with
  | nil =>
    rw [List.foldlM_nil] at h
    rw [← Option.some.inj h]
    simp
  | cons p points ih =>
    rw [List.foldlM_cons] at h
    obtain ⟨fe₁, hfirst, hrest⟩ := Option.bind_eq_some_iff.mp h
    obtain ⟨owner, howner, rfl⟩ := Option.map_eq_some_iff.mp hfirst
    obtain ⟨hlen, hall⟩ := ih _ hrest
    by_cases hnone : owner = none
    · subst hnone
      simp only [if_true] at hlen hall
      refine ⟨hlen.trans (List.length_set ..), ?_⟩
      intro i
      rw [hall i]
      by_cases hip : i = p
      · subst hip
        have hlt := (List.getElem?_eq_some_iff.mp howner).1
        rw [List.getElem?_set_self hlt, howner]
        simp
      · rw [List.getElem?_set_ne (Ne.symm hip)]
        simp [hip]
    · simp only [if_neg hnone] at hlen hall
      refine ⟨hlen, ?_⟩
      intro i
      rw [hall i]
      by_cases hip : i = p
      · subst hip
        rw [howner]
        cases owner with
        | none => exact absurd rfl hnone
        | some o => rfl
      · simp [hip]

/-- Nodes take words one after another: the first one that covers a word gets it. -/
theorem foldlM_alignFree {x : Example} (ts : List Addr) (fe : List (Option Addr))
    (h : ts.foldlM x.alignFree fe = some fe') :
    fe'.length = fe.length ∧ ∀ i : ℕ, fe'[i]? = (fe[i]?).map fun owner =>
      owner.or (ts.find? fun t => decide (i ∈ spanPoints (x.span t))) := by
  induction ts generalizing fe with
  | nil =>
    rw [List.foldlM_nil] at h
    rw [← Option.some.inj h]
    simp
  | cons t ts ih =>
    rw [List.foldlM_cons] at h
    obtain ⟨fe₁, hfirst, hrest⟩ := Option.bind_eq_some_iff.mp h
    obtain ⟨hlen₁, hall₁⟩ := foldlM_take _ _ hfirst
    obtain ⟨hlen, hall⟩ := ih _ hrest
    refine ⟨hlen.trans hlen₁, ?_⟩
    intro i
    rw [hall i, hall₁ i, Option.map_map]
    congr 1
    funext owner
    rw [Function.comp_apply, Option.or_assoc, List.find?_cons]
    by_cases hi : i ∈ spanPoints (x.span t)
    · simp [hi]
    · simp [hi]

end Taking

section Postorder

variable {t : Node String} {u v : Addr}

theorem Nodes.map_fst_postAttrs (ts : Nodes String) (up : Addr) (k : ℕ) :
    (ts.postAttrs up k).map Prod.fst = ts.postAddrs up k := by
  induction ts generalizing up k with
  | nil => rfl
  | node attr children rest ihc ihr =>
    rw [postAttrs, postAddrs, List.map_append, List.map_cons, ihc, ihr]

theorem Node.map_fst_postAttrs (t : Node String) : t.postAttrs.map Prod.fst = t.postAddrs := by
  rw [postAttrs, postAddrs, List.map_append, Nodes.map_fst_postAttrs]
  rfl

theorem Node.mem_postAddrs : u ∈ t.postAddrs ↔ u ∈ t.addrs := by
  rw [← map_fst_postAttrs, List.mem_map, mem_addrs_iff]
  constructor
  · intro ⟨p, hp, heq⟩
    obtain ⟨n, hn, -⟩ := mem_postAttrs_iff.mp (show (p.1, p.2) ∈ t.postAttrs from hp)
    exact ⟨n, heq ▸ hn⟩
  · intro ⟨n, hn⟩
    exact ⟨(u, n.attr), mem_postAttrs_iff.mpr ⟨n, hn, rfl⟩, rfl⟩

/-- No node comes before one at or below it. -/
theorem Node.pairwise_postAddrs (t : Node String) :
    t.postAddrs.Pairwise fun u v => ¬ u <:+ v := by
  rw [← map_fst_postAttrs, List.pairwise_map]
  exact t.pairwise_postAttrs

end Postorder

namespace Example

variable {x : Example} {u v m n : Addr} {r s : Span} {i : ℕ}

/-- `set_f2enode` gives a word to a lowest node that covers it. -/
theorem lowest_of_setF2enode (hset : x.setF2enode = some x)
    (hmem : ∀ u, x.span u ≠ none → u ∈ x.etree.addrs) (hi : i < x.f.length)
    (hcovered : ∃ u, Covers x.span i u) :
    ∃ t, x.f2enode[i]? = some (some t) ∧ Lowest x.span (Covers x.span i) t := by
  obtain ⟨fe, hfold, hx⟩ := Option.map_eq_some_iff.mp hset
  have hfe : fe = x.f2enode := congrArg Example.f2enode hx
  subst hfe
  obtain ⟨-, hall⟩ := foldlM_alignFree _ _ hfold
  rw [hall i, List.getElem?_replicate, if_pos hi, Option.map_some, Option.none_or]
  obtain ⟨u, hu⟩ := hcovered
  have hspan : ∀ {u}, Covers x.span i u → x.span u ≠ none := by
    intro u ⟨r, hr, _⟩ hnone
    rw [hr] at hnone
    cases hnone
  have hfound : (x.etree.postAddrs.find? fun t => decide (i ∈ spanPoints (x.span t))).isSome := by
    rw [List.find?_isSome]
    exact ⟨u, Node.mem_postAddrs.mpr (hmem u (hspan hu)), decide_eq_true (mem_spanPoints_iff.mpr hu)⟩
  obtain ⟨t, ht⟩ := Option.isSome_iff_exists.mp hfound
  refine ⟨t, congrArg some ht, ?_⟩
  obtain ⟨htcovers, as, bs, hsplit, hbefore⟩ := List.find?_eq_some_iff_append.mp ht
  have htcovers' := mem_spanPoints_iff.mp (of_decide_eq_true htcovers)
  refine ⟨hspan htcovers', htcovers', ?_⟩
  -- a lower node that covers the word comes before, and would have it
  intro m' hm' hbelow hne hcovers
  have hpost := x.etree.pairwise_postAddrs
  have hm'mem := Node.mem_postAddrs.mpr (hmem m' hm')
  rw [hsplit] at hpost hm'mem
  rcases List.mem_append.mp hm'mem with hbef | haft
  · have hnot := hbefore m' hbef
    simp only [Bool.not_eq_true', decide_eq_false_iff_not] at hnot
    exact hnot (mem_spanPoints_iff.mpr hcovers)
  · rcases List.mem_cons.mp haft with heq | haft
    · exact hne heq
    · have hlater := (List.pairwise_cons.mp (List.pairwise_append.mp hpost).2.1).1 m' haft
      exact hlater hbelow

namespace WellFormed

/-! ## Nested and disjoint spans -/

/-- A node has its span within that of a node above it. -/
theorem nested_below (h : x.WellFormed) (hu : x.span u = some s) (hv : x.span v = some r)
    (habove : u <:+ v) : s.1 ≤ r.1 ∧ r.2 ≤ s.2 := by
  induction hlen : v.length using Nat.strong_induction_on generalizing v r with
  | _ len ih =>
    by_cases huv : u = v
    · subst huv
      rw [hu] at hv
      rw [Option.some.inj hv]
      exact ⟨le_rfl, le_rfl⟩
    · have hroot : x.span [] ≠ none := by
        rw [h.top]
        exact Option.some_ne_none _
      have hv0 : v ≠ [] := by
        intro h0
        rw [h0] at habove huv
        exact huv (List.suffix_nil.mp habove)
      obtain ⟨k, hk⟩ := exists_ruleParent hroot hv0
      obtain ⟨hkspan, ⟨hkv, hkne⟩, hlowest⟩ := ruleParent_eq_some_iff.mp hk
      obtain ⟨q, hq⟩ := Option.ne_none_iff_exists'.mp hkspan
      have hstep := h.nested v k r q hk hv hq
      have huk : u <:+ k := by
        rcases List.suffix_or_suffix_of_suffix habove hkv with huk | hku
        · exact huk
        · by_cases heq : u = k
          · exact heq ▸ List.suffix_rfl
          · have huspan : x.span u ≠ none := by
              rw [hu]
              exact Option.some_ne_none _
            exact absurd ⟨habove, huv⟩ (hlowest u huspan hku heq)
      have hlt : k.length < len := by
        rw [← hlen]
        exact lt_of_le_of_ne hkv.length_le fun heq => hkne (hkv.eq_of_length heq)
      have hrest := ih k.length hlt hq huk rfl
      omega

/-- Nodes beside each other share no word. -/
theorem apart_of_beside (h : x.WellFormed) (hbeside : Beside u v) (hu : x.span u = some r)
    (hv : x.span v = some s) : Apart r s := by
  induction hlen : u.length using Nat.strong_induction_on generalizing u r with
  | _ len ih =>
    have hroot : x.span [] ≠ none := by
      rw [h.top]
      exact Option.some_ne_none _
    have hu0 : u ≠ [] := by
      intro h0
      rw [h0] at hbeside
      exact hbeside.1 List.nil_suffix
    obtain ⟨k, hk⟩ := exists_ruleParent hroot hu0
    obtain ⟨hkspan, ⟨hku, hkne⟩, -⟩ := ruleParent_eq_some_iff.mp hk
    obtain ⟨q, hq⟩ := Option.ne_none_iff_exists'.mp hkspan
    by_cases hkv : k <:+ v
    · have hne : k ≠ v := by
        intro heq
        exact hbeside.2 (heq ▸ hku)
      obtain ⟨w, hw, hwv, hwspan⟩ := exists_below hkspan hroot hkv hne
      have hwsome : ∃ p, x.span w = some p := by
        rcases hwspan with rfl | hwspan
        · exact ⟨s, hv⟩
        · exact Option.ne_none_iff_exists'.mp hwspan
      obtain ⟨p, hp⟩ := hwsome
      have huw : u ≠ w := by
        intro heq
        exact hbeside.1 (heq ▸ hwv)
      have hapart := h.apart u w k r p huw hk hw hu hp
      have hwithin := h.nested_below hp hv hwv
      unfold Apart at hapart ⊢
      omega
    · have hbeside' : Beside k v := ⟨hkv, fun hvk => hbeside.2 (hvk.trans hku)⟩
      have hlt : k.length < len := by
        rw [← hlen]
        exact lt_of_le_of_ne hku.length_le fun heq => hkne (hku.eq_of_length heq)
      have hapart := ih k.length hlt hbeside' hq rfl
      have hwithin := h.nested_below hq hu hku
      unfold Apart at hapart ⊢
      omega

/-- Of two nodes that cover a word, one is at or below the other. -/
theorem suffix_or_suffix (h : x.WellFormed) (hu : Covers x.span i u) (hv : Covers x.span i v) :
    u <:+ v ∨ v <:+ u := by
  by_contra hnot
  obtain ⟨r, hr, hir⟩ := hu
  obtain ⟨s, hs, his⟩ := hv
  have hapart := h.apart_of_beside (not_or.mp hnot) hr hs
  unfold Apart at hapart
  unfold InSpan at hir his
  omega

theorem covers_of_suffix (h : x.WellFormed) (huv : u <:+ v) (hu : x.span u ≠ none)
    (hv : Covers x.span i v) : Covers x.span i u := by
  obtain ⟨r, hr, hir⟩ := hv
  obtain ⟨s, hs⟩ := Option.ne_none_iff_exists'.mp hu
  have hwithin := h.nested_below hs hr huv
  unfold InSpan at hir
  exact ⟨s, hs, by unfold InSpan; omega⟩

/-! ## The owner of a word -/

/-- `f2enode` has a lowest node that covers the word. -/
theorem exists_owner (h : x.WellFormed) (hi : i < x.f.length) :
    ∃ t, x.f2enode[i]? = some (some t) ∧ Lowest x.span (Covers x.span i) t :=
  lowest_of_setF2enode h.f2enode h.mem hi ⟨[], (0, x.f.length), h.top, Nat.zero_le i, hi⟩

/-! ## Closure spans -/

/-- A word of a node strictly below. -/
def Below (x : Example) (u : Addr) (j : ℕ) : Prop := ∃ m, u <:+ m ∧ m ≠ u ∧ Covers x.span j m

theorem mem_childAddrs (hm : m ∈ x.etree.addrs) (hum : u <:+ m) (hne : m ≠ u) :
    ∃ y ∈ x.childAddrs u, y <:+ m := by
  obtain ⟨down, rfl⟩ := hum
  have hdown : down ≠ [] := by
    intro h0
    exact hne (by rw [h0]; rfl)
  obtain ⟨down, k, rfl⟩ : ∃ d k, down = d ++ [k] :=
    ⟨down.dropLast, down.getLast hdown, (List.dropLast_append_getLast hdown).symm⟩
  have hsuffix : (k :: u) <:+ (down ++ [k]) ++ u := by
    rw [List.append_assoc]
    exact List.suffix_append ..
  obtain ⟨n, hn⟩ := Node.mem_addrs_iff.mp (Node.mem_addrs_of_suffix hsuffix hm)
  rw [Node.subtree] at hn
  obtain ⟨p, hp, hplace⟩ := Option.bind_eq_some_iff.mp hn
  refine ⟨k :: u, ?_, hsuffix⟩
  rw [childAddrs, hp]
  exact List.mem_map_of_mem (List.mem_range.mpr (List.getElem?_eq_some_iff.mp hplace).1)

theorem addrs_of_mem_childAddrs (hv : v ∈ x.childAddrs u) :
    v ∈ x.etree.addrs ∧ ∃ k, v = k :: u := by
  unfold childAddrs at hv
  split at hv
  · cases hv
  · rename_i p hp
    obtain ⟨k, hk, rfl⟩ := List.mem_map.mp hv
    refine ⟨Node.mem_addrs_iff.mpr ?_, k, rfl⟩
    rw [Node.subtree, hp, Option.bind_some]
    exact ⟨_, List.getElem?_eq_getElem (List.mem_range.mp hk)⟩

theorem isCover_foldl {f : Addr → Option Span} {P : Addr → ℕ → Prop} {ys : List Addr}
    (hf : ∀ y ∈ ys, IsCover (f y) (P y)) {s : Option Span} {Q : ℕ → Prop} (hs : IsCover s Q) :
    IsCover (ys.foldl (fun s y => spanCover s (f y)) s) fun j => Q j ∨ ∃ y ∈ ys, P y j := by
  induction ys generalizing s Q with
  | nil => exact hs.congr fun j => by simp
  | cons y ys ih =>
    rw [List.foldl_cons]
    have hfirst := hs.spanCover (hf y List.mem_cons_self)
    apply (ih (fun z hz => hf z (List.mem_cons_of_mem y hz)) hfirst).congr
    intro j
    rw [List.exists_mem_cons_iff, or_assoc]

theorem isCover_childCover (h : x.WellFormed)
    (hclosure : ∀ y ∈ x.childAddrs u, IsCover (x.closureSpan y) (Below x y)) :
    IsCover (x.childCover u) (Below x u) := by
  have hchild : ∀ y ∈ x.childAddrs u, IsCover ((x.span y).or (x.closureSpan y))
      fun j => ∃ m, y <:+ m ∧ Covers x.span j m := by
    intro y hy
    cases hspan : x.span y with
    | none =>
      apply (hclosure y hy).congr
      intro j
      constructor
      · intro ⟨m, hym, _, hm⟩
        exact ⟨m, hym, hm⟩
      · intro ⟨m, hym, hm⟩
        refine ⟨m, hym, ?_, hm⟩
        rintro rfl
        obtain ⟨r, hr, _⟩ := hm
        rw [hspan] at hr
        cases hr
    | some r =>
      obtain ⟨-, k, hk⟩ := addrs_of_mem_childAddrs hy
      have hproper := h.proper y r (by rw [hk]; exact List.cons_ne_nil _ _) hspan
      have hin : ∀ j, (∃ m, y <:+ m ∧ Covers x.span j m) ↔ InSpan r j := by
        intro j
        constructor
        · intro ⟨m, hym, hm⟩
          obtain ⟨r', hr', hj⟩ := h.covers_of_suffix hym (by rw [hspan]; nofun) hm
          rw [hspan] at hr'
          exact Option.some.inj hr' ▸ hj
        · intro hj
          exact ⟨y, List.suffix_rfl, r, hspan, hj⟩
      have hcover : IsCover (some r) (InSpan r) :=
        ⟨⟨le_rfl, hproper⟩, ⟨r.2 - 1, ⟨by omega, by omega⟩, by omega⟩, fun j hj => hj⟩
      exact hcover.congr fun j => (hin j).symm
  apply (isCover_foldl hchild isCover_none).congr
  intro j
  rw [false_or]
  constructor
  · intro ⟨y, hy, m, hym, hm⟩
    obtain ⟨-, k, rfl⟩ := addrs_of_mem_childAddrs hy
    refine ⟨m, (List.suffix_cons _ _).trans hym, ?_, hm⟩
    rintro rfl
    have := hym.length_le
    rw [List.length_cons] at this
    omega
  · intro ⟨m, hum, hne, hm⟩
    have hspan : x.span m ≠ none := by
      obtain ⟨r, hr, _⟩ := hm
      rw [hr]
      exact Option.some_ne_none r
    obtain ⟨y, hy, hym⟩ := mem_childAddrs (h.mem m hspan) hum hne
    exact ⟨y, hy, m, hym, hm⟩

/-- The closure span is the smallest interval that covers the words of the nodes below. -/
theorem isCover_closureSpan (h : x.WellFormed) (hu : u ∈ x.etree.addrs) :
    IsCover (x.closureSpan u) (Below x u) := by
  -- the induction is on how far down the tree goes below the node
  obtain ⟨depth, hdepth⟩ : ∃ depth, ∀ m ∈ x.etree.addrs, m.length ≤ u.length + depth := by
    refine ⟨(x.etree.addrs.map List.length).sum, ?_⟩
    intro m hm
    have := List.single_le_sum (fun _ _ => Nat.zero_le _) _ (List.mem_map_of_mem (f := List.length) hm)
    omega
  induction depth generalizing u with
  | zero =>
    rw [h.closure u hu]
    apply h.isCover_childCover
    intro y hy
    obtain ⟨hmem, k, rfl⟩ := addrs_of_mem_childAddrs hy
    have := hdepth _ hmem
    rw [List.length_cons] at this
    omega
  | succ depth ih =>
    rw [h.closure u hu]
    apply h.isCover_childCover
    intro y hy
    obtain ⟨hmem, k, rfl⟩ := addrs_of_mem_childAddrs hy
    apply ih hmem
    intro m hm
    have := hdepth m hm
    rw [List.length_cons]
    omega

end WellFormed

end Example

/-! ## States that differ in one span -/

theorem ruleParent_congr {spans spans' : Addr → Option Span} {v : Addr}
    (h : ∀ m, m <:+ v → m ≠ v → spans m = spans' m) : ruleParent spans v = ruleParent spans' v := by
  induction v with
  | nil => rfl
  | cons k up ih =>
    have hup : spans up = spans' up := h up (List.suffix_cons _ _) (List.cons_ne_self k up).symm
    rw [ruleParent, ruleParent, hup, ih]
    intro m hm hne
    apply h m (hm.trans (List.suffix_cons _ _))
    rintro rfl
    have := hm.length_le
    rw [List.length_cons] at this
    omega

/-- Nodes that head rules directly below the same node are beside each other. -/
theorem beside_of_siblings {spans : Addr → Option Span} {u v m : Addr} (hne : u ≠ v)
    (hu : ruleParent spans u = some m) (hv : ruleParent spans v = some m)
    (huspan : spans u ≠ none) (hvspan : spans v ≠ none) : Beside u v := by
  obtain ⟨-, ⟨hmu, hmune⟩, hulowest⟩ := ruleParent_eq_some_iff.mp hu
  obtain ⟨-, ⟨hmv, hmvne⟩, hvlowest⟩ := ruleParent_eq_some_iff.mp hv
  constructor
  · intro huv
    exact hvlowest u huspan hmu (Ne.symm hmune) ⟨huv, hne⟩
  · intro hvu
    exact hulowest v hvspan hmv (Ne.symm hmvne) ⟨hvu, hne.symm⟩

theorem exists_foldlM_take {t : Addr} (points : List ℕ) (fe : List (Option Addr))
    (h : ∀ p ∈ points, p < fe.length) :
    ∃ fe', points.foldlM (fun fe p => (fe[p]?).map fun owner =>
      if owner = none then fe.set p (some t) else fe) fe = some fe' := by
  induction points generalizing fe with
  | nil => exact ⟨fe, rfl⟩
  | cons p points ih =>
    rw [List.foldlM_cons, List.getElem?_eq_getElem (h p List.mem_cons_self), Option.map_some]
    apply ih
    intro q hq
    have hlt := h q (List.mem_cons_of_mem p hq)
    split_ifs
    · rwa [List.length_set]
    · exact hlt

namespace Example

variable {x y : Example} {n u : Addr}

theorem exists_foldlM_alignFree (ts : List Addr) (fe : List (Option Addr))
    (h : ∀ u r, x.span u = some r → r.2 ≤ fe.length) : ∃ fe', ts.foldlM x.alignFree fe = some fe' := by
  induction ts generalizing fe with
  | nil => exact ⟨fe, rfl⟩
  | cons t ts ih =>
    obtain ⟨fe₁, hfirst⟩ := exists_foldlM_take (t := t) (spanPoints (x.span t)) fe (by
      intro p hp
      obtain ⟨r, hr, hin⟩ := mem_spanPoints.mp hp
      have := h t r hr
      unfold InSpan at hin
      omega)
    rw [List.foldlM_cons, alignFree, hfirst]
    apply ih
    rw [(foldlM_take _ _ hfirst).1]
    exact h

/-- The closure spans of a tree, from the leaves up. -/
def coverAt (x : Example) : ℕ → Addr → Option Span
  | 0, _ => none
  | depth + 1, p =>
    (x.childAddrs p).foldl (fun s y => spanCover s ((x.span y).or (x.coverAt depth y))) none

/-- Closure spans and `f2enode` can be set for all spans within the sentence. -/
theorem exists_closures (x : Example) (h : ∀ u r, x.span u = some r → r.2 ≤ x.f.length) :
    ∃ y : Example, y.etree = x.etree ∧ y.f = x.f ∧ y.span = x.span ∧
      (∀ u ∈ y.etree.addrs, y.closureSpan u = y.childCover u) ∧ y.setF2enode = some y := by
  obtain ⟨depth, hdepth⟩ : ∃ depth, ∀ m ∈ x.etree.addrs, m.length < depth := by
    refine ⟨(x.etree.addrs.map List.length).sum + 1, ?_⟩
    intro m hm
    have := List.single_le_sum (fun _ _ => Nat.zero_le _) _ (List.mem_map_of_mem (f := List.length) hm)
    omega
  obtain ⟨fe, hfe⟩ := exists_foldlM_alignFree x.etree.postAddrs
    (List.replicate x.f.length none) (by rwa [List.length_replicate])
  refine ⟨{ x with
    closureSpan := fun u => x.coverAt (depth - u.length) u
    f2enode := fe }, rfl, rfl, rfl, ?_, ?_⟩
  · intro u hu
    obtain ⟨d, hd⟩ := Nat.exists_eq_add_of_lt (hdepth u hu)
    rw [childCover]
    simp only
    rw [show depth - u.length = d + 1 by omega, coverAt]
    apply List.foldl_ext
    intro s y hy
    obtain ⟨-, k, rfl⟩ := WellFormed.addrs_of_mem_childAddrs (x := x) hy
    rw [List.length_cons, show depth - (u.length + 1) = d by omega]
  · change Option.map _ (x.etree.postAddrs.foldlM x.alignFree _) = _
    rw [hfe]
    rfl

/-- Only the span of `n` may be another, and what is computed from the spans. -/
structure LikeBut (x : Example) (n : Addr) (y : Example) : Prop where
  etree : y.etree = x.etree
  f : y.f = x.f
  span : ∀ m, m ≠ n → y.span m = x.span m

theorem LikeBut.ruleParent_eq (h : x.LikeBut n y) (hu : ¬ n <:+ u ∨ u = n) :
    ruleParent y.span u = ruleParent x.span u := by
  apply ruleParent_congr
  intro m hmu hne
  apply h.span
  rintro rfl
  rcases hu with hnu | rfl
  · exact hnu hmu
  · exact hne rfl

namespace WellFormed

theorem closureSpan_eq (hx : x.WellFormed) (hy : y.WellFormed) (h : x.LikeBut n y)
    (hn : n ∈ x.etree.addrs) : y.closureSpan n = x.closureSpan n := by
  apply (hy.isCover_closureSpan (h.etree.symm ▸ hn)).unique
  apply (hx.isCover_closureSpan hn).congr
  intro j
  apply exists_congr
  intro m
  refine and_congr_right fun _ => and_congr_right fun hne => ?_
  unfold Covers
  rw [h.span m hne]

/-- There is a state without the span of a node, and else the same. -/
theorem exists_withoutSpan (h : x.WellFormed) (hn : n ≠ []) :
    ∃ y : Example, y.WellFormed ∧ x.LikeBut n y ∧ y.span n = none := by
  have hkept : ∀ {u r}, Function.update x.span n none u = some r → u ≠ n ∧ x.span u = some r := by
    intro u r hu
    by_cases heq : u = n
    · subst heq
      rw [Function.update_self] at hu
      cases hu
    · rw [Function.update_of_ne heq] at hu
      exact ⟨heq, hu⟩
  obtain ⟨y, htree, hf, hspan, hclosure, hset⟩ := exists_closures
    { x with span := Function.update x.span n none } (by
      intro u r hu
      exact (h.nested_below h.top (hkept hu).2 List.nil_suffix).2)
  have hspan' : ∀ {u r}, y.span u = some r → u ≠ n ∧ x.span u = some r := by
    intro u r hu
    rw [hspan] at hu
    exact hkept hu
  refine ⟨y, ⟨?_, ?_, ?_, ?_, ?_, hclosure, hset⟩, ⟨htree, hf, ?_⟩, ?_⟩
  · rw [hspan, hf]
    exact (Function.update_of_ne hn.symm _ _).trans h.top
  · intro u hu
    obtain ⟨r, hr⟩ := Option.ne_none_iff_exists'.mp hu
    rw [htree]
    apply h.mem
    rw [(hspan' hr).2]
    exact Option.some_ne_none r
  · intro u r hu hr
    exact h.proper u r hu (hspan' hr).2
  · intro u m r s hparent hr hs
    have hmu := (ruleParent_eq_some_iff.mp hparent).has.1
    exact h.nested_below (hspan' hs).2 (hspan' hr).2 hmu
  · intro u v m r s hne hu hv hr hs
    have hbeside := beside_of_siblings hne hu hv (by rw [hr]; nofun) (by rw [hs]; nofun)
    exact h.apart_of_beside hbeside (hspan' hr).2 (hspan' hs).2
  · intro m hm
    rw [hspan]
    exact Function.update_of_ne hm _ _
  · rw [hspan]
    exact Function.update_self ..

end WellFormed

end Example

end Carmel.Gextract
