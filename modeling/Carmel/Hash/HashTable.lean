/-
# Hash tables

`HashTable` keeps its entries in chains, one for each value of the last bits of the hash,
and is built again with twice as many when their number reaches a bound. Numbers that are
`unsigned` in the source wrap around. What comes of the arithmetic in floats, when the bound
is set and when it grows, may be anything.
-/

import Carmel.Math.Dictionary

namespace Carmel

open Carmel.Math

universe u v

/-- `siz` is one less than the number of chains. -/
structure HashTable (K : Type u) (V : Type v) where
  siz : ℕ
  cnt : ℕ
  growAt : ℕ
  table : List (List (K × V))

/-- The hash function, and the bound of a table with more chains: `scale growAt new old`
stands for `unsigned((float(growAt) * new) / old)`. -/
structure HashSettings (K : Type u) where
  hash : K → ℕ
  scale : ℕ → ℕ → ℕ → ℕ

/-- Where `find` and iterators are in the table: the chain from the current entry on, or
nothing at the end, and the chains to come. -/
structure HashIter (K : Type u) (V : Type v) where
  entry : List (K × V)
  bucket : List (List (K × V))

variable {K : Type u} {V : Type v}

/-- The loop of `pow2Bound`. With so many rounds the mask is an `int`. -/
def pow2BoundFrom (request : ℕ) : ℕ → ℕ → ℕ
  | 0, mask => mask
  | fuel + 1, mask => if mask < request then pow2BoundFrom request fuel (2 * mask) else mask

/-- The least power of two from 2 on that is not below `request`. -/
def pow2Bound (request : ℕ) : ℕ := pow2BoundFrom request 29 2

/-- A write through a reference to the value of a key. -/
def modifyEntry [DecidableEq K] (first : K) (write : V → V) : List (K × V) → List (K × V)
  | [] => []
  | e :: chain => if e.1 = first then (e.1, write e.2) :: chain else e :: modifyEntry first write chain

namespace HashIter

/-- On to the next chain that has entries. -/
def nextBucket : List (List (K × V)) → HashIter K V
  | [] => ⟨[], []⟩
  | [] :: bucket => nextBucket bucket
  | (e :: entry) :: bucket => ⟨e :: entry, bucket⟩

/-- `operator++`. -/
def next (it : HashIter K V) : HashIter K V :=
  match it.entry with
  | [] => it
  | [_] => nextBucket it.bucket
  | _ :: e :: entry => ⟨e :: entry, it.bucket⟩

/-- What a loop up to the end visits. -/
def visits : ℕ → HashIter K V → Option (List (K × V))
  | 0, _ => none
  | fuel + 1, it =>
    match it.entry with
    | [] => some []
    | e :: _ => (visits fuel it.next).map (e :: ·)

/-- The first chain that has entries. Without one the loop leaves the table. -/
def firstBucket : List (List (K × V)) → Option (HashIter K V)
  | [] => none
  | [] :: bucket => firstBucket bucket
  | (e :: entry) :: bucket => some ⟨e :: entry, bucket⟩

end HashIter

namespace HashTable

section Model

variable (P : HashSettings K) (t : HashTable K V)

/-- `init`, where `load` is what `(unsigned)(mLoad * siz)` comes to. -/
def init (sz load : ℕ) : HashTable K V :=
  let siz := if sz < 4 then 4 else pow2Bound sz
  ⟨siz - 1, 0, max 2 load, List.replicate siz []⟩

def bucketCount : ℕ := t.siz + 1

/-- `size`, an `int`. -/
def size : ℤ := if t.cnt < 2 ^ 31 then t.cnt else t.cnt - 2 ^ 32

def bucket (first : K) : ℕ := P.hash first &&& t.siz

def chain (first : K) : List (K × V) := t.table.getD (t.bucket P first) []

/-- A new node at the front of a chain. -/
def pushNode (siz : ℕ) (table : List (List (K × V))) (e : K × V) : List (List (K × V)) :=
  table.modify (P.hash e.1 &&& siz) (e :: ·)

/-- `rehash_pow2`, from a number of chains in range. -/
def rehashPow2 (request : ℕ) : Option (HashTable K V) :=
  if request = 0 then none
  else
    some {
      siz := request - 1
      cnt := t.cnt
      growAt := (P.scale t.growAt request t.bucketCount + 1) % 2 ^ 32
      table := t.table.foldl (fun table chain => chain.foldl (pushNode P (request - 1)) table)
        (List.replicate request []) }

def grow : Option (HashTable K V) := t.rehashPow2 P (2 * t.bucketCount % 2 ^ 32)

/-- `add`, for a key that is not there. -/
def add (first : K) (second : V) : Option (HashTable K V) :=
  let t := { t with cnt := (t.cnt + 1) % 2 ^ 32 }
  (if t.growAt ≤ t.cnt then t.grow P else some t).map fun t =>
    { t with table := pushNode P t.siz t.table (first, second) }

def clear : HashTable K V := { t with cnt := 0, table := t.table.map fun _ => [] }

/-- The copy constructor. It copies the chains and the bound, but the counter of the new
table stays what the memory holds. -/
def copy (memory : ℕ) : HashTable K V := { t with cnt := memory }

/-- `begin`. -/
def begin : Option (HashIter K V) :=
  if 0 < t.size then HashIter.firstBucket t.table else some ⟨[], []⟩

variable [DecidableEq K]

/-- `find`, with the value of the node. -/
def find (first : K) : Option V := ((t.chain P first).find? (·.1 = first)).map Prod.snd

/-- `insert`, with whether it was performed. -/
def insert (first : K) (second : V) : Option (Bool × HashTable K V) :=
  match t.find P first with
  | some _ => some (false, t)
  | none => (t.add P first second).map (true, ·)

/-- `operator[]`, and what is written through the reference. -/
def subscript [Inhabited V] (first : K) (write : V → V) : Option (V × HashTable K V) :=
  (t.insert P first default).map fun r =>
    let t := r.2
    ((t.find P first).getD default,
      { t with table := t.table.modify (t.bucket P first) (modifyEntry first write) })

/-- `erase`, with whether it was performed. -/
def erase (first : K) : Bool × HashTable K V :=
  if (t.chain P first).any (·.1 = first) then
    (true, { t with
      cnt := (t.cnt + (2 ^ 32 - 1)) % 2 ^ 32
      table := t.table.modify (t.bucket P first) (·.eraseP (·.1 = first)) })
  else (false, t)

end Model

section Placed

variable {P : HashSettings K} {siz : ℕ} {table : List (List (K × V))}

/-- There are enough chains, and every entry is in the chain of its key. -/
structure Placed (P : HashSettings K) (siz : ℕ) (table : List (List (K × V))) : Prop where
  length : table.length = siz + 1
  hash_eq : ∀ i c, table[i]? = some c → ∀ e ∈ c, P.hash e.1 &&& siz = i

namespace Placed

theorem replicate (P : HashSettings K) (siz : ℕ) :
    Placed P siz (List.replicate (siz + 1) ([] : List (K × V))) where
  length := List.length_replicate
  hash_eq i c hc e he := by
    obtain ⟨-, rfl⟩ := List.mem_replicate.mp (List.mem_of_getElem? hc)
    exact absurd he List.not_mem_nil

theorem exists_chain (h : Placed P siz table) (first : K) :
    ∃ c, table[P.hash first &&& siz]? = some c := by
  have hlt : P.hash first &&& siz < table.length := by
    rw [h.length]
    exact Nat.lt_succ_of_le Nat.and_le_right
  exact ⟨_, List.getElem?_eq_getElem hlt⟩

/-- A change to one chain that brings no entry from elsewhere. -/
theorem modify (h : Placed P siz table) {i : ℕ} {c : List (K × V)} (hc : table[i]? = some c)
    {g : List (K × V) → List (K × V)} (hg : ∀ e ∈ g c, P.hash e.1 &&& siz = i) :
    Placed P siz (table.modify i g) where
  length := by rw [List.length_modify, h.length]
  hash_eq j d hd e he := by
    rw [List.getElem?_modify] at hd
    obtain ⟨d', hd', rfl⟩ := Option.map_eq_some_iff.mp hd
    by_cases hij : i = j
    · subst hij
      obtain rfl : c = d' := Option.some.inj (hc.symm.trans hd')
      rw [if_pos rfl] at he
      exact hg e he
    · rw [if_neg hij] at he
      exact h.hash_eq j d' hd' e he

theorem pushNode (h : Placed P siz table) (e : K × V) : Placed P siz (pushNode P siz table e) := by
  obtain ⟨c, hc⟩ := h.exists_chain e.1
  apply h.modify hc
  intro e' he'
  rcases List.mem_cons.mp he' with rfl | he'
  · rfl
  · exact h.hash_eq _ c hc e' he'

end Placed

theorem flatten_pushNode (h : Placed P siz table) (e : K × V) :
    (pushNode P siz table e).flatten.Perm (e :: table.flatten) := by
  obtain ⟨c, hc⟩ := h.exists_chain e.1
  obtain ⟨rest, hperm, hmodify⟩ := flatten_modify_perm hc
  exact (hmodify (e :: ·)).trans ((List.Perm.cons e hperm).symm)

theorem foldl_pushNode (es : List (K × V)) (h : Placed P siz table) :
    Placed P siz (es.foldl (pushNode P siz) table) ∧
      (es.foldl (pushNode P siz) table).flatten.Perm (es ++ table.flatten) := by
  induction es generalizing table with
  | nil => exact ⟨h, .refl _⟩
  | cons e es ih =>
    obtain ⟨hplaced, hperm⟩ := ih (h.pushNode e)
    refine ⟨hplaced, hperm.trans ?_⟩
    exact ((flatten_pushNode h e).append_left es).trans List.perm_middle

end Placed

/-- **Growing** moves the entries. -/
theorem rehashPow2_spec (P : HashSettings K) (t : HashTable K V) {request : ℕ} (hpos : 0 < request) :
    ∃ t', t.rehashPow2 P request = some t' ∧ t'.siz + 1 = request ∧ Placed P t'.siz t'.table ∧
      t'.cnt = t.cnt ∧ t'.table.flatten.Perm t.table.flatten := by
  have hsucc : request - 1 + 1 = request := Nat.succ_pred_eq_of_pos hpos
  have hempty := Placed.replicate (V := V) P (request - 1)
  rw [hsucc] at hempty
  have hfold := foldl_pushNode t.table.flatten hempty
  rw [List.foldl_flatten, List.flatten_replicate_nil, List.append_nil] at hfold
  refine ⟨_, if_neg (Nat.ne_of_gt hpos), hsucc, hfold.1, rfl, hfold.2⟩

/-- The table holds the entries of `m` and counts them right. -/
structure Represents (P : HashSettings K) (t : HashTable K V) (m : K → Option V) : Prop where
  placed : Placed P t.siz t.table
  isMap : IsMap t.table.flatten m
  cnt_eq : t.cnt = t.table.flatten.length
  cnt_lt : t.cnt < 2 ^ 31

/-- One more entry can be counted, and if the table grows so can the chains. -/
def HasRoom (t : HashTable K V) : Prop :=
  t.cnt + 1 < 2 ^ 31 ∧ (t.cnt + 1 < t.growAt ∨ t.bucketCount < 2 ^ 31)

section Spec

variable {P : HashSettings K} {t : HashTable K V} {m : K → Option V}

theorem Represents.table_bucket (h : Represents P t m) (first : K) :
    t.table[t.bucket P first]? = some (t.chain P first) := by
  obtain ⟨c, hc⟩ := h.placed.exists_chain first
  rw [chain, List.getD_eq_getElem?_getD, bucket, hc, Option.getD_some]

theorem Represents.mem_chain_iff (h : Represents P t m) (first : K) (v : V) :
    (first, v) ∈ t.chain P first ↔ m first = some v := by
  rw [← h.isMap.mem_iff, List.mem_flatten]
  constructor
  · exact fun hmem => ⟨_, List.mem_of_getElem? (h.table_bucket first), hmem⟩
  · rintro ⟨c, hc, hmem⟩
    obtain ⟨i, hi⟩ := List.mem_iff_getElem?.mp hc
    have hpos : t.bucket P first = i := h.placed.hash_eq i c hi _ hmem
    rw [← hpos, h.table_bucket first] at hi
    rwa [Option.some.inj hi]

theorem Represents.nodup_chain (h : Represents P t m) (first : K) :
    ((t.chain P first).map Prod.fst).Nodup := by
  have hsub := List.sublist_flatten_of_mem (List.mem_of_getElem? (h.table_bucket first))
  exact h.isMap.nodup.sublist (hsub.map Prod.fst)

/-- Something comes in place of the entry of a key. -/
theorem Represents.change (h : Represents P t m) {first : K} {v : V}
    {g : List (K × V) → List (K × V)} (front : List (K × V)) (hfront : ∀ e ∈ front, e.1 = first)
    (hg : ∃ rest, (t.chain P first).Perm ((first, v) :: rest) ∧
      (g (t.chain P first)).Perm (front ++ rest)) :
    Placed P t.siz (t.table.modify (t.bucket P first) g) ∧
      ∃ rest, t.table.flatten.Perm ((first, v) :: rest) ∧
        (t.table.modify (t.bucket P first) g).flatten.Perm (front ++ rest) := by
  obtain ⟨rest, hold, hnew⟩ := hg
  constructor
  · apply h.placed.modify (h.table_bucket first)
    intro e he
    rcases List.mem_append.mp (hnew.mem_iff.mp he) with he | he
    · rw [hfront e he]
      rfl
    · exact h.placed.hash_eq _ _ (h.table_bucket first) e
        (hold.mem_iff.mpr (List.mem_cons_of_mem _ he))
  · obtain ⟨others, hperm, hmodify⟩ := flatten_modify_perm (h.table_bucket first)
    refine ⟨rest ++ others, hperm.trans (hold.append_right others), ?_⟩
    rw [← List.append_assoc]
    exact (hmodify g).trans (hnew.append_right others)

variable [DecidableEq K]

/-- **Looking up.** -/
theorem Represents.find_eq (h : Represents P t m) (first : K) : t.find P first = m first := by
  rw [find]
  cases hfind : (t.chain P first).find? (·.1 = first) with
  | none =>
    cases hm : m first with
    | none => rfl
    | some v =>
      have hmem := (h.mem_chain_iff first v).mpr hm
      have hne := List.find?_eq_none.mp hfind _ hmem
      exact absurd (decide_eq_true rfl) hne
  | some e =>
    obtain ⟨k, v⟩ := e
    obtain rfl : k = first := by simpa using List.find?_some hfind
    exact ((h.mem_chain_iff k v).mp (List.mem_of_find?_eq_some hfind)).symm

/-- **Adding** a key. -/
theorem Represents.add (h : Represents P t m) {first : K} (hnew : m first = none)
    (hroom : t.HasRoom) (second : V) :
    ∃ t', t.add P first second = some t' ∧
      Represents P t' (Function.update m first (some second)) := by
  obtain ⟨hcount, hchains⟩ := hroom
  have hcnt : (t.cnt + 1) % 2 ^ 32 = t.cnt + 1 := Nat.mod_eq_of_lt (by omega)
  -- whether it grows or not, the entries are those from before
  have hstep : ∃ t₁ : HashTable K V,
      (if t.growAt ≤ t.cnt + 1 then ({ t with cnt := t.cnt + 1 } : HashTable K V).grow P
        else some { t with cnt := t.cnt + 1 }) = some t₁ ∧
      Placed P t₁.siz t₁.table ∧ t₁.cnt = t.cnt + 1 ∧ t₁.table.flatten.Perm t.table.flatten := by
    by_cases hgrow : t.growAt ≤ t.cnt + 1
    · have hlt : t.siz + 1 < 2 ^ 31 := hchains.resolve_left (Nat.not_lt_of_le hgrow)
      have hrequest : 2 * (t.siz + 1) % 2 ^ 32 = 2 * (t.siz + 1) := Nat.mod_eq_of_lt (by omega)
      obtain ⟨t₁, ht₁, -, hplaced, hcnt₁, hperm⟩ := rehashPow2_spec P
        ({ t with cnt := t.cnt + 1 } : HashTable K V) (Nat.succ_pos (2 * t.siz + 1))
      refine ⟨t₁, ?_, hplaced, hcnt₁, hperm⟩
      rw [if_pos hgrow, grow, bucketCount, hrequest]
      exact ht₁
    · exact ⟨_, if_neg hgrow, h.placed, rfl, .refl _⟩
  obtain ⟨t₁, ht₁, hplaced, hcnt₁, hperm⟩ := hstep
  have hentries := (flatten_pushNode hplaced (first, second)).trans (hperm.cons _)
  refine ⟨{ t₁ with table := pushNode P t₁.siz t₁.table (first, second) }, ?_, hplaced.pushNode _,
    (h.isMap.cons hnew second).perm hentries.symm, ?_, ?_⟩
  · rw [HashTable.add]
    simp only [hcnt]
    rw [ht₁, Option.map_some]
  · rw [hentries.length_eq, List.length_cons, ← h.cnt_eq]
    exact hcnt₁
  · change t₁.cnt < 2 ^ 31
    rw [hcnt₁]
    exact hcount

/-- **Inserting.** A value that is there stays. -/
theorem Represents.insert (h : Represents P t m) {first : K}
    (hroom : m first = none → t.HasRoom) (second : V) :
    ∃ t', t.insert P first second = some ((m first).isNone, t') ∧
      Represents P t' (Function.update m first (some ((m first).getD second))) := by
  rw [HashTable.insert, h.find_eq]
  cases hm : m first with
  | none =>
    obtain ⟨t', ht', hrep⟩ := h.add hm (hroom hm) second
    exact ⟨t', by rw [ht', Option.map_some, Option.isNone_none], hrep⟩
  | some v =>
    refine ⟨t, rfl, ?_⟩
    rwa [Option.getD_some, ← hm, Function.update_eq_self]

theorem modifyEntry_perm {first : K} {v : V} (write : V → V) {chain : List (K × V)}
    (hkeys : (chain.map Prod.fst).Nodup) (hmem : (first, v) ∈ chain) :
    ∃ rest, chain.Perm ((first, v) :: rest) ∧
      (modifyEntry first write chain).Perm ((first, write v) :: rest) := by
  induction chain with
  | nil => exact absurd hmem List.not_mem_nil
  | cons e chain ih =>
    obtain ⟨hnotMem, hkeys⟩ := List.nodup_cons.mp hkeys
    rw [modifyEntry]
    by_cases heq : e.1 = first
    · obtain rfl : e = (first, v) := by
        rcases List.mem_cons.mp hmem with h | h
        · exact h.symm
        · exact absurd (List.mem_map.mpr ⟨_, h, heq.symm⟩) hnotMem
      rw [if_pos rfl]
      exact ⟨chain, .refl _, .refl _⟩
    · have htail : (first, v) ∈ chain := by
        rcases List.mem_cons.mp hmem with rfl | h
        · exact absurd rfl heq
        · exact h
      obtain ⟨rest, hperm, hperm'⟩ := ih hkeys htail
      rw [if_neg heq]
      exact ⟨e :: rest, (hperm.cons e).trans (.swap ..), (hperm'.cons e).trans (.swap ..)⟩

/-- **Writing** through the reference to a value. -/
theorem Represents.modifyEntry (h : Represents P t m) {first : K} {v : V} (hv : m first = some v)
    (write : V → V) :
    Represents P { t with table := t.table.modify (t.bucket P first) (modifyEntry first write) }
      (Function.update m first (some (write v))) := by
  have hchain := modifyEntry_perm write (h.nodup_chain first) ((h.mem_chain_iff first v).mpr hv)
  obtain ⟨hplaced, rest, hold, hnew⟩ :=
    h.change [(first, write v)] (fun e he => by rw [List.mem_singleton.mp he]) hchain
  exact ⟨hplaced, ((h.isMap.perm hold).replace (write v)).perm hnew.symm,
    h.cnt_eq.trans (hold.length_eq.trans hnew.length_eq.symm), h.cnt_lt⟩

/-- **The reference that `operator[]` returns** is to the value of the key, or to a new one. -/
theorem Represents.subscript [Inhabited V] (h : Represents P t m) {first : K}
    (hroom : m first = none → t.HasRoom) (write : V → V) :
    ∃ t', t.subscript P first write = some ((m first).getD default, t') ∧
      Represents P t' (Function.update m first (some (write ((m first).getD default)))) := by
  obtain ⟨t₁, ht₁, h₁⟩ := h.insert hroom default
  have hwrite := h₁.modifyEntry (Function.update_self ..) write
  rw [Function.update_idem] at hwrite
  refine ⟨_, ?_, hwrite⟩
  rw [HashTable.subscript, ht₁, Option.map_some]
  simp only [h₁.find_eq, Function.update_self, Option.getD_some]

/-- **Erasing** a key. -/
theorem Represents.erase (h : Represents P t m) (first : K) :
    (t.erase P first).1 = (m first).isSome ∧
      Represents P (t.erase P first).2 (Function.update m first none) := by
  rw [HashTable.erase]
  cases hm : m first with
  | none =>
    have hany : (t.chain P first).any (·.1 = first) = false := by
      rw [List.any_eq_false]
      rintro ⟨k, v⟩ hmem heq
      obtain rfl : k = first := of_decide_eq_true heq
      exact absurd (hm.symm.trans ((h.mem_chain_iff k v).mp hmem)) (Option.some_ne_none v).symm
    rw [hany, if_neg Bool.false_ne_true]
    refine ⟨rfl, ?_⟩
    rwa [← hm, Function.update_eq_self]
  | some v =>
    have hmem := (h.mem_chain_iff first v).mpr hm
    obtain ⟨⟨k, v'⟩, before, behind, -, heq, hchain, herase⟩ :=
      List.exists_of_eraseP (p := fun e : K × V => decide (e.1 = first)) hmem (decide_eq_true rfl)
    obtain rfl : k = first := of_decide_eq_true heq
    have hfirst : (k, v') ∈ t.chain P k := by
      rw [hchain]
      exact List.mem_append_right _ List.mem_cons_self
    obtain rfl : v = v' := Option.some.inj (hm.symm.trans ((h.mem_chain_iff k v').mp hfirst))
    have hany : (t.chain P k).any (·.1 = k) = true :=
      List.any_eq_true.mpr ⟨_, hmem, decide_eq_true rfl⟩
    obtain ⟨hplaced, rest, hold, hnew⟩ := h.change (v := v) (g := (·.eraseP (·.1 = k))) []
      (by simp) ⟨before ++ behind, by rw [hchain]; exact List.perm_middle, by rw [herase]; rfl⟩
    have hcnt : (t.cnt + (2 ^ 32 - 1)) % 2 ^ 32 = rest.length ∧ rest.length < 2 ^ 31 := by
      have hlength := h.cnt_eq.trans hold.length_eq
      rw [List.length_cons] at hlength
      have hlt := h.cnt_lt
      omega
    rw [hany, if_pos rfl, hcnt.1]
    exact ⟨rfl, hplaced, (h.isMap.perm hold).tail.perm hnew.symm, hnew.length_eq.symm, hcnt.2⟩

end Spec

section Whole

variable {P : HashSettings K} {t : HashTable K V} {m : K → Option V}

theorem le_pow2BoundFrom (request fuel mask : ℕ) : mask ≤ pow2BoundFrom request fuel mask := by
  induction fuel generalizing mask with
  | zero => exact Nat.le_refl _
  | succ fuel ih =>
    rw [pow2BoundFrom]
    split
    · exact Nat.le_trans (Nat.le_mul_of_pos_left mask Nat.two_pos) (ih _)
    · exact Nat.le_refl _

variable (P) in
theorem represents_init (sz load : ℕ) :
    Represents P (init sz load : HashTable K V) fun _ => none := by
  have hpos : 1 ≤ if sz < 4 then 4 else pow2Bound sz := by
    split
    · decide
    · exact Nat.le_trans (by decide) (le_pow2BoundFrom sz 29 2)
  rw [init]
  generalize (if sz < 4 then 4 else pow2Bound sz) = siz at hpos ⊢
  have hplaced := Placed.replicate (V := V) P (siz - 1)
  rw [Nat.sub_add_cancel hpos] at hplaced
  refine ⟨hplaced, ?_, ?_, Nat.two_pow_pos 31⟩
  · rw [List.flatten_replicate_nil]
    exact .nil
  · rw [List.flatten_replicate_nil]
    rfl

theorem Represents.clear (h : Represents P t m) : Represents P t.clear fun _ => none := by
  have hflatten : (t.table.map fun _ => ([] : List (K × V))).flatten = [] := by
    rw [List.map_const', List.flatten_replicate_nil]
  refine ⟨⟨by rw [HashTable.clear, List.length_map, h.placed.length], ?_⟩, ?_, ?_,
    Nat.two_pow_pos 31⟩
  · intro i c hc e he
    obtain ⟨d, -, rfl⟩ := List.mem_map.mp (List.mem_of_getElem? hc)
    exact absurd he List.not_mem_nil
  · rw [HashTable.clear, hflatten]
    exact .nil
  · rw [HashTable.clear, hflatten]
    rfl

end Whole

end HashTable

namespace HashIter

theorem nextBucket_eq (bucket : List (List (K × V))) :
    (nextBucket bucket).entry ++ (nextBucket bucket).bucket.flatten = bucket.flatten ∧
      ((nextBucket bucket).entry = [] → bucket.flatten = []) := by
  induction bucket with
  | nil => exact ⟨rfl, fun _ => rfl⟩
  | cons c bucket ih =>
    cases c with
    | nil => exact ih
    | cons e entry => exact ⟨rfl, fun h => absurd h (List.cons_ne_nil _ _)⟩

/-- A loop visits the rest of the chain, and then the chains to come. -/
theorem visits_eq (n : ℕ) (it : HashIter K V) (hend : it.entry = [] → it.bucket.flatten = [])
    (hn : (it.entry ++ it.bucket.flatten).length = n) :
    it.visits (n + 1) = some (it.entry ++ it.bucket.flatten) := by
  induction n generalizing it with
  | zero =>
    have hnil := List.length_eq_zero_iff.mp hn
    rw [hnil, visits, (List.append_eq_nil_iff.mp hnil).1]
  | succ n ih =>
    obtain ⟨entry, bucket⟩ := it
    match entry with
    | [] => simp [hend rfl] at hn
    | [e] =>
      obtain ⟨hentries, hstop⟩ := nextBucket_eq bucket
      have hrest := ih (nextBucket bucket) (fun h => by simpa [h, hstop h] using hentries)
        (by rw [hentries]; simpa using hn)
      rw [hentries] at hrest
      exact congrArg (Option.map (e :: ·)) hrest
    | e :: e' :: entry =>
      have hrest := ih ⟨e' :: entry, bucket⟩ (fun h => absurd h (List.cons_ne_nil _ _))
        (by simpa using hn)
      exact congrArg (Option.map (e :: ·)) hrest

theorem firstBucket_eq {table : List (List (K × V))} (h : table.flatten ≠ []) :
    ∃ it, firstBucket table = some it ∧ it.entry ≠ [] ∧
      it.entry ++ it.bucket.flatten = table.flatten := by
  induction table with
  | nil => exact absurd rfl h
  | cons c table ih =>
    cases c with
    | nil => exact ih h
    | cons e entry => exact ⟨_, rfl, List.cons_ne_nil _ _, rfl⟩

end HashIter

namespace HashTable

section Behaviour

variable [DecidableEq K]

/-- What can be seen of the table is the map: every key has its value, the size is the
number of keys, and a loop over the table visits every entry once. -/
structure BehavesAs (P : HashSettings K) (t : HashTable K V) (m : K → Option V) : Prop where
  find_eq : ∀ first, t.find P first = m first
  size_eq : ∃ keys : List K, keys.Nodup ∧ (∀ k, k ∈ keys ↔ m k ≠ none) ∧ t.size = keys.length
  visits : ∃ it fuel visited, t.begin = some it ∧ it.visits fuel = some visited ∧ IsMap visited m

variable {P : HashSettings K} {t : HashTable K V} {m : K → Option V}

omit [DecidableEq K] in
theorem Represents.size_eq (h : Represents P t m) : t.size = t.table.flatten.length := by
  rw [size, if_pos h.cnt_lt, h.cnt_eq]

theorem Represents.behavesAs (h : Represents P t m) : BehavesAs P t m where
  find_eq := h.find_eq
  size_eq := ⟨_, h.isMap.nodup, h.isMap.mem_keys_iff, by rw [h.size_eq, List.length_map]⟩
  visits := by
    rw [begin, h.size_eq]
    by_cases hempty : t.table.flatten = []
    · refine ⟨_, 1, [], if_neg (by rw [hempty]; exact Int.lt_irrefl 0), rfl, ?_⟩
      rw [← hempty]
      exact h.isMap
    · obtain ⟨it, hit, hentry, hentries⟩ := HashIter.firstBucket_eq hempty
      have hpos : (0 : ℤ) < t.table.flatten.length :=
        Int.natCast_pos.mpr (List.length_pos_iff.mpr hempty)
      refine ⟨it, _, _, (if_pos hpos).trans hit,
        it.visits_eq _ (fun hnil => absurd hnil hentry) rfl, ?_⟩
      rw [hentries]
      exact h.isMap

/-- **A copy** is right exactly if the memory of its counter holds the number of entries. -/
theorem Represents.behavesAs_copy_iff (h : Represents P t m) {memory : ℕ}
    (hmemory : memory < 2 ^ 32) : BehavesAs P (t.copy memory) m ↔ memory = t.cnt := by
  constructor
  · intro hcopy
    obtain ⟨keys, hnodup, hkeys, hsize⟩ := hcopy.size_eq
    have hlength : keys.length = t.cnt := by
      have hperm : keys.Perm (t.table.flatten.map Prod.fst) :=
        (List.perm_ext_iff_of_nodup hnodup h.isMap.nodup).mpr fun k =>
          (hkeys k).trans (h.isMap.mem_keys_iff k).symm
      rw [hperm.length_eq, List.length_map, h.cnt_eq]
    rw [hlength, size, copy] at hsize
    simp only at hsize
    split at hsize <;> omega
  · rintro rfl
    exact h.behavesAs

end Behaviour

end HashTable

end Carmel
