/-
# Dictionaries

A dictionary lists its entries in the order in which the keys came in; no key comes
twice. A tally adds up numbers under keys, and a key is in it once something was
added there, be it zero.
-/

import Carmel.Math.Instances

namespace Carmel.Math

universe u v w

/-- A finite map by its entries. -/
structure Dict (K : Type u) (V : Type v) where
  entries : List (K × V)
  nodup : (entries.map Prod.fst).Nodup

namespace Dict

variable {K : Type u} {V : Type v} {V' : Type w}

@[ext] theorem ext {d d' : Dict K V} (h : d.entries = d'.entries) : d = d' := by
  cases d
  cases d'
  cases h
  rfl

def keys (d : Dict K V) : List K := d.entries.map Prod.fst

def empty : Dict K V := ⟨[], List.nodup_nil⟩

/-- Another value under each key. -/
def mapValues (f : K → V → V') (d : Dict K V) : Dict K V' where
  entries := d.entries.map fun e => (e.1, f e.1 e.2)
  nodup := by
    rw [List.map_map]
    exact d.nodup

variable {d : Dict K V} {j k : K} {v : V}

theorem entries_mapValues (f : K → V → V') :
    (d.mapValues f).entries = d.entries.map fun e => (e.1, f e.1 e.2) := rfl

theorem nodup_keys (d : Dict K V) : d.keys.Nodup := d.nodup

@[simp] theorem keys_empty : (empty : Dict K V).keys = [] := rfl

@[simp] theorem keys_mapValues (f : K → V → V') : (d.mapValues f).keys = d.keys := by
  rw [keys, mapValues, List.map_map]
  rfl

/-- Another value under each key, unless there is a key for which `f` fails. -/
def mapValues? (f : K → V → Option V) (d : Dict K V) : Option (Dict K V) :=
  if ∀ e ∈ d.entries, (f e.1 e.2).isSome then some (d.mapValues fun k v => (f k v).getD v) else none

section MapValues

variable {f g : K → V → Option V} {d' : Dict K V}

theorem eq_of_mapValues? (h : d.mapValues? f = some d') :
    (∀ e ∈ d.entries, f e.1 e.2 = some ((f e.1 e.2).getD e.2)) ∧
      d'.entries = d.entries.map fun e => (e.1, (f e.1 e.2).getD e.2) := by
  rw [mapValues?] at h
  by_cases hall : ∀ e ∈ d.entries, (f e.1 e.2).isSome
  · rw [if_pos hall, Option.some.injEq] at h
    constructor
    · intro e he
      rcases Option.isSome_iff_exists.mp (hall e he) with ⟨v, hv⟩
      rw [hv, Option.getD_some]
    · rw [← h]
      rfl
  · rw [if_neg hall] at h
    cases h

theorem exists_mapValues? (h : ∀ e ∈ d.entries, ∃ v, f e.1 e.2 = some v) :
    ∃ d', d.mapValues? f = some d' := by
  refine ⟨_, if_pos ?_⟩
  intro e he
  exact Option.isSome_iff_exists.mpr (h e he)

theorem keys_of_mapValues? (h : d.mapValues? f = some d') : d'.keys = d.keys := by
  rw [keys, (eq_of_mapValues? h).2, List.map_map]
  rfl

theorem exists_entry_of_mapValues? (h : d.mapValues? f = some d') (hk : (k, v) ∈ d'.entries) :
    ∃ w, (k, w) ∈ d.entries ∧ f k w = some v := by
  rcases eq_of_mapValues? h with ⟨hall, heq⟩
  rw [heq] at hk
  rcases List.mem_map.mp hk with ⟨e, he, heq⟩
  rcases Prod.mk.inj heq with ⟨rfl, rfl⟩
  exact ⟨e.2, he, hall e he⟩

theorem mapValues?_inverse (h : d.mapValues? f = some d')
    (hinv : ∀ k v v', (k, v) ∈ d.entries → f k v = some v' → g k v' = some v) :
    d'.mapValues? g = some d := by
  rcases eq_of_mapValues? h with ⟨hall, heq⟩
  have hback : ∀ e ∈ d.entries, g e.1 ((f e.1 e.2).getD e.2) = some e.2 :=
    fun e he => hinv e.1 e.2 _ he (hall e he)
  have hall' : ∀ e ∈ d'.entries, (g e.1 e.2).isSome := by
    rw [heq]
    intro e he
    rcases List.mem_map.mp he with ⟨e', he', rfl⟩
    rw [hback e' he', Option.isSome_some]
  rw [mapValues?, if_pos hall', Option.some.injEq]
  apply Dict.ext
  have hsame : ∀ e ∈ d.entries,
      (e.1, (g e.1 ((f e.1 e.2).getD e.2)).getD ((f e.1 e.2).getD e.2)) = e := by
    intro e he
    rw [hback e he, Option.getD_some]
  rw [entries_mapValues, heq, List.map_map]
  exact (List.map_congr_left hsame).trans (List.map_id' _)

end MapValues

variable [DecidableEq K]

/-- The value under a key. -/
def get? (d : Dict K V) (k : K) : Option V := (d.entries.find? fun e => e.1 = k).map Prod.snd

/-- Put a value under a key, which is a new one if it was not there. -/
def set (d : Dict K V) (k : K) (v : V) : Dict K V :=
  if h : k ∈ d.keys then
    d.mapValues fun j w => if j = k then v else w
  else
    { entries := d.entries ++ [(k, v)]
      nodup := by
        rw [List.map_append, List.map_singleton, ← List.concat_eq_append]
        exact List.Nodup.concat h d.nodup }

/-- `d[k] += x`, where a key that is not there counts as zero. -/
def addTo [Add V] [Zero V] (d : Dict K V) (k : K) (x : V) : Dict K V :=
  d.set k ((d.get? k).getD 0 + x)

/-- `if not k in d: d[k] = v`. -/
def setDefault (d : Dict K V) (v : V) (k : K) : Dict K V :=
  if k ∈ d.keys then d else d.set k v

/-- For each of `xs` in turn, `d[key x] += val x`. -/
def tally {α : Type*} [Add V] [Zero V] (key : α → K) (val : α → V) (xs : List α) (d : Dict K V) :
    Dict K V :=
  xs.foldl (fun d x => d.addTo (key x) (val x)) d

theorem mem_entries_iff : (k, v) ∈ d.entries ↔ d.get? k = some v := by
  constructor
  · intro hmem
    rw [get?, Option.map_eq_some_iff]
    cases hfind : d.entries.find? fun e => e.1 = k with
    | none =>
      have hne := List.find?_eq_none.mp hfind (k, v) hmem
      simp at hne
    | some e =>
      have hkey : e.1 = k := by simpa using List.find?_some hfind
      have heq := List.inj_on_of_nodup_map d.nodup (List.mem_of_find?_eq_some hfind) hmem hkey
      exact ⟨e, rfl, by rw [heq]⟩
  · intro h
    rcases Option.map_eq_some_iff.mp h with ⟨e, hfind, rfl⟩
    have hkey : e.1 = k := by simpa using List.find?_some hfind
    rw [← hkey]
    exact List.mem_of_find?_eq_some hfind

theorem mem_keys_iff : k ∈ d.keys ↔ ∃ v, d.get? k = some v := by
  rw [keys, List.mem_map]
  constructor
  · rintro ⟨e, hmem, rfl⟩
    exact ⟨e.2, mem_entries_iff.mp hmem⟩
  · rintro ⟨v, hv⟩
    exact ⟨(k, v), mem_entries_iff.mpr hv, rfl⟩

theorem get?_eq_none_iff : d.get? k = none ↔ k ∉ d.keys := by
  rw [mem_keys_iff]
  cases d.get? k with
  | none => simp
  | some v => simp

@[simp] theorem get?_empty : (empty : Dict K V).get? k = none := rfl

@[simp] theorem get?_mapValues (f : K → V → V') : (d.mapValues f).get? k = (d.get? k).map (f k) := by
  cases hget : d.get? k with
  | none =>
    rw [get?_eq_none_iff] at hget
    rw [Option.map_none, get?_eq_none_iff, keys_mapValues]
    exact hget
  | some v =>
    rw [Option.map_some, ← mem_entries_iff]
    exact List.mem_map.mpr ⟨(k, v), mem_entries_iff.mpr hget, rfl⟩

theorem entries_perm_of_get? {ks : List K} (hks : ks.Nodup) (f : K → V)
    (h : ∀ k, d.get? k = if k ∈ ks then some (f k) else none) :
    d.entries.Perm (ks.map fun k => (k, f k)) := by
  have hleft : d.entries.Nodup := List.Nodup.of_map Prod.fst d.nodup
  have hright : (ks.map fun k => (k, f k)).Nodup :=
    hks.map fun a b hab => (Prod.mk.inj hab).1
  rw [List.perm_ext_iff_of_nodup hleft hright]
  rintro ⟨k, v⟩
  rw [mem_entries_iff, h, List.mem_map]
  by_cases hk : k ∈ ks
  · rw [if_pos hk, Option.some.injEq]
    constructor
    · rintro rfl
      exact ⟨k, hk, rfl⟩
    · rintro ⟨k', -, heq⟩
      rcases Prod.mk.inj heq with ⟨rfl, rfl⟩
      rfl
  · rw [if_neg hk]
    constructor
    · intro hnone
      cases hnone
    · rintro ⟨k', hk', heq⟩
      rcases Prod.mk.inj heq with ⟨rfl, rfl⟩
      exact absurd hk' hk

theorem mem_keys_set : j ∈ (d.set k v).keys ↔ j = k ∨ j ∈ d.keys := by
  rw [set]
  by_cases hk : k ∈ d.keys
  · rw [dif_pos hk, keys_mapValues]
    constructor
    · exact Or.inr
    · rintro (rfl | hj)
      · exact hk
      · exact hj
  · rw [dif_neg hk]
    simp [keys, or_comm]

theorem get?_set : (d.set k v).get? j = if j = k then some v else d.get? j := by
  by_cases hk : k ∈ d.keys
  · rw [set, dif_pos hk, get?_mapValues]
    by_cases hj : j = k
    · subst hj
      rcases mem_keys_iff.mp hk with ⟨w, hw⟩
      simp [hw]
    · simp [hj]
  · by_cases hj : j = k
    · subst hj
      rw [if_pos rfl, ← mem_entries_iff, set, dif_neg hk]
      exact List.mem_append_right _ List.mem_cons_self
    · rw [if_neg hj]
      cases hget : d.get? j with
      | none =>
        rw [get?_eq_none_iff] at hget ⊢
        rw [mem_keys_set]
        exact fun h => h.elim hj hget
      | some w =>
        rw [← mem_entries_iff, set, dif_neg hk]
        exact List.mem_append_left _ (mem_entries_iff.mpr hget)

theorem get?_foldl_set (f : K → V) (ks : List K) (d : Dict K V) :
    (ks.foldl (fun d k => d.set k (f k)) d).get? j = if j ∈ ks then some (f j) else d.get? j := by
  induction ks generalizing d with
  | nil => rfl
  | cons k ks ih =>
    rw [List.foldl_cons, ih, get?_set]
    by_cases hj : j ∈ ks
    · rw [if_pos hj, if_pos (List.mem_cons_of_mem k hj)]
    · by_cases hk : j = k
      · rw [if_neg hj, if_pos hk, hk, if_pos List.mem_cons_self]
      · have hnot : ¬ j ∈ k :: ks := by simp [hk, hj]
        rw [if_neg hj, if_neg hk, if_neg hnot]

theorem mem_keys_setDefault : j ∈ (d.setDefault v k).keys ↔ j = k ∨ j ∈ d.keys := by
  rw [setDefault]
  by_cases hk : k ∈ d.keys
  · rw [if_pos hk]
    constructor
    · exact Or.inr
    · rintro (rfl | hj)
      · exact hk
      · exact hj
  · rw [if_neg hk, mem_keys_set]

theorem get?_setDefault_of_mem (hj : j ∈ d.keys) : (d.setDefault v k).get? j = d.get? j := by
  rw [setDefault]
  by_cases hk : k ∈ d.keys
  · rw [if_pos hk]
  · have hne : j ≠ k := fun heq => hk (heq ▸ hj)
    rw [if_neg hk, get?_set, if_neg hne]

/-- A new key gets the default. -/
theorem get?_setDefault_of_notMem (hj : j ∉ d.keys) :
    (d.setDefault v k).get? j = if j = k then some v else none := by
  rw [setDefault]
  by_cases hk : k ∈ d.keys
  · have hne : j ≠ k := fun heq => hj (heq ▸ hk)
    rw [if_pos hk, if_neg hne, get?_eq_none_iff]
    exact hj
  · rw [if_neg hk, get?_set, get?_eq_none_iff.mpr hj]

theorem foldl_setDefault_of_mem {ks : List K} (h : ∀ k ∈ ks, k ∈ d.keys) :
    ks.foldl (fun d k => d.setDefault v k) d = d := by
  induction ks with
  | nil => rfl
  | cons k ks ih =>
    have hk : d.setDefault v k = d := if_pos (h k List.mem_cons_self)
    rw [List.foldl_cons, hk]
    exact ih fun j hj => h j (List.mem_cons_of_mem _ hj)

theorem get?_foldl_setDefault (ks : List K) (d : Dict K V) :
    (ks.foldl (fun d k => d.setDefault v k) d).get? j =
      if j ∈ d.keys then d.get? j else if j ∈ ks then some v else none := by
  induction ks generalizing d with
  | nil =>
    by_cases hj : j ∈ d.keys
    · rw [if_pos hj]
      rfl
    · rw [if_neg hj, if_neg List.not_mem_nil]
      exact get?_eq_none_iff.mpr hj
  | cons k ks ih =>
    rw [List.foldl_cons, ih]
    by_cases hj : j ∈ d.keys
    · rw [if_pos hj, if_pos (mem_keys_setDefault.mpr (Or.inr hj)), get?_setDefault_of_mem hj]
    · rw [if_neg hj, get?_setDefault_of_notMem hj]
      by_cases hk : j = k
      · rw [if_pos (mem_keys_setDefault.mpr (Or.inl hk)), if_pos hk,
          if_pos (List.mem_cons.mpr (Or.inl hk))]
      · have hnot : ¬ j ∈ (d.setDefault v k).keys := by
          rw [mem_keys_setDefault]
          exact fun h => h.elim hk hj
        rw [if_neg hnot]
        simp [hk]

theorem get?_of_mapValues? {f : K → V → Option V} {d' : Dict K V} {w : V}
    (h : d.mapValues? f = some d') (hget : d.get? k = some v) (hf : f k v = some w) :
    d'.get? k = some w := by
  rw [← mem_entries_iff, (eq_of_mapValues? h).2]
  refine List.mem_map.mpr ⟨(k, v), mem_entries_iff.mpr hget, ?_⟩
  rw [hf, Option.getD_some]

section Tally

variable {α : Type*} {N : Type*} [AddCommMonoid N] {key : α → K} {val : α → N} {xs : List α}
variable {d : Dict K N}

theorem get?_addTo {x : N} : (d.addTo k x).get? j =
    if j = k then some ((d.get? k).getD 0 + x) else d.get? j := get?_set

theorem mem_keys_tally : k ∈ (tally key val xs d).keys ↔ k ∈ d.keys ∨ ∃ x ∈ xs, key x = k := by
  induction xs generalizing d with
  | nil => simp [tally]
  | cons x xs ih =>
    have hstep : tally key val (x :: xs) d = tally key val xs (d.addTo (key x) (val x)) := rfl
    rw [hstep, ih, addTo, mem_keys_set]
    simp only [List.mem_cons, exists_eq_or_imp]
    constructor
    · rintro ((rfl | hd) | hxs)
      · exact Or.inr (Or.inl rfl)
      · exact Or.inl hd
      · exact Or.inr (Or.inr hxs)
    · rintro (hd | rfl | hxs)
      · exact Or.inl (Or.inr hd)
      · exact Or.inl (Or.inl rfl)
      · exact Or.inr hxs

theorem getD_tally : ((tally key val xs d).get? k).getD 0 =
    (d.get? k).getD 0 + ((xs.filter fun x => key x = k).map val).sum := by
  induction xs generalizing d with
  | nil => simp [tally]
  | cons x xs ih =>
    have hstep : tally key val (x :: xs) d = tally key val xs (d.addTo (key x) (val x)) := rfl
    rw [hstep, ih, get?_addTo]
    by_cases hx : key x = k
    · subst hx
      simp [add_assoc]
    · have hx' : k ≠ key x := fun h => hx h.symm
      simp [hx, hx']

/-- A tally from the start: under its keys are the sums. -/
theorem get?_tally_empty : (tally key val xs empty).get? k =
    if ∃ x ∈ xs, key x = k then some ((xs.filter fun x => key x = k).map val).sum else none := by
  have hsum : ((tally key val xs empty).get? k).getD 0 = _ := getD_tally
  have hkeys : k ∈ (tally key val xs empty).keys ↔ _ := mem_keys_tally
  rw [keys_empty, mem_keys_iff] at hkeys
  rw [get?_empty, Option.getD_none, zero_add] at hsum
  by_cases h : ∃ x ∈ xs, key x = k
  · rcases hkeys.mpr (Or.inr h) with ⟨v, hv⟩
    rw [hv, Option.getD_some] at hsum
    rw [if_pos h, hv, hsum]
  · rw [if_neg h, get?_eq_none_iff, mem_keys_iff, hkeys]
    rintro (hnil | hx)
    · cases hnil
    · exact h hx

theorem get?_tally_one (key : α → K) (xs : List α) :
    (tally key (fun _ => 1) xs empty : Dict K ℕ).get? k =
      if k ∈ xs.map key then some (xs.countP (key · = k)) else none := by
  have hcount : ((xs.filter fun x => key x = k).map fun _ => 1).sum = xs.countP (key · = k) := by
    rw [List.map_const', List.sum_replicate_nat, Nat.mul_one, List.countP_eq_length_filter]
  rw [get?_tally_empty, hcount]
  simp only [List.mem_map]

end Tally

end Dict

end Carmel.Math

/-! ## Association lists -/

namespace Carmel.Math

universe u v

section Maps

variable {K : Type u} {V : Type v} {l l' : List (K × V)} {m : K → Option V} {k : K} {v w : V}

/-- The pairs are those of the map, each once. -/
structure IsMap (l : List (K × V)) (m : K → Option V) : Prop where
  nodup : (l.map Prod.fst).Nodup
  mem_iff : ∀ k v, (k, v) ∈ l ↔ m k = some v

namespace IsMap

theorem nil : IsMap ([] : List (K × V)) fun _ => none where
  nodup := List.nodup_nil
  mem_iff _ _ := by simp

theorem perm (h : IsMap l m) (hperm : l.Perm l') : IsMap l' m where
  nodup := (hperm.map Prod.fst).nodup_iff.mp h.nodup
  mem_iff k v := hperm.mem_iff.symm.trans (h.mem_iff k v)

theorem mem_keys_iff (h : IsMap l m) (k : K) : k ∈ l.map Prod.fst ↔ m k ≠ none := by
  rw [List.mem_map, Option.ne_none_iff_exists']
  constructor
  · rintro ⟨⟨k, v⟩, hmem, rfl⟩
    exact ⟨v, (h.mem_iff k v).mp hmem⟩
  · rintro ⟨v, hv⟩
    exact ⟨(k, v), (h.mem_iff k v).mpr hv, rfl⟩

variable [DecidableEq K]

theorem cons (h : IsMap l m) (hk : m k = none) (v : V) :
    IsMap ((k, v) :: l) (Function.update m k (some v)) where
  nodup := by
    rw [List.map_cons, List.nodup_cons, h.mem_keys_iff]
    exact ⟨fun hne => hne hk, h.nodup⟩
  mem_iff k' v' := by
    rw [List.mem_cons, Prod.mk.injEq, h.mem_iff]
    by_cases heq : k' = k
    · subst heq
      simp [hk, eq_comm]
    · simp [heq]

theorem tail (h : IsMap ((k, v) :: l) m) : IsMap l (Function.update m k none) where
  nodup := (List.nodup_cons.mp h.nodup).2
  mem_iff k' v' := by
    have hnotMem : k ∉ l.map Prod.fst := (List.nodup_cons.mp h.nodup).1
    by_cases heq : k' = k
    · subst heq
      simpa using fun hmem => hnotMem (List.mem_map.mpr ⟨(k', v'), hmem, rfl⟩)
    · rw [Function.update_of_ne heq, ← h.mem_iff]
      simp [heq]

theorem replace (h : IsMap ((k, v) :: l) m) (w : V) :
    IsMap ((k, w) :: l) (Function.update m k (some w)) := by
  have hcons := h.tail.cons (Function.update_self ..) w
  rwa [Function.update_idem] at hcons

end IsMap

end Maps

/-- One chain is changed, and the pairs in the others stay. -/
theorem flatten_modify_perm {α : Type u} {table : List (List α)} {i : ℕ} {c : List α}
    (h : table[i]? = some c) :
    ∃ rest, table.flatten.Perm (c ++ rest) ∧
      ∀ g : List α → List α, (table.modify i g).flatten.Perm (g c ++ rest) := by
  induction table generalizing i with
  | nil => simp at h
  | cons d table ih =>
    cases i with
    | zero =>
      obtain rfl : d = c := by simpa using h
      exact ⟨table.flatten, .refl _, fun g => by simp⟩
    | succ i =>
      obtain ⟨rest, hperm, hmodify⟩ := ih (by simpa using h)
      have hswap : ∀ {table' c' : List α}, table'.Perm (c' ++ rest) →
          (d ++ table').Perm (c' ++ (d ++ rest)) := fun hp =>
        (hp.append_left d).trans (List.perm_append_comm_assoc ..)
      refine ⟨d ++ rest, hswap hperm, fun g => ?_⟩
      rw [List.modify_succ_cons, List.flatten_cons]
      exact hswap (hmodify g)

end Carmel.Math
