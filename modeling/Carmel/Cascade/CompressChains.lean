/-
# Compressing the chain table

Reducing a composed transducer leaves chains that no arc refers to any more. When
a composition is done the table may be compressed: the chains still in use move to
the front, and the arcs get the new chain ids. Every arc refers to the chain it
referred to before.
-/

import Carmel.Cascade.DistributeCounts
import Carmel.Fst.RemoveStates

namespace Carmel

universe u

variable {W : Type u}

section Moves

variable {α : Type u}

/-- The loop of `do_moves`, with `n` elements to go. -/
def doMovesFrom (map : ℕ → Option ℕ) : ℕ → ℕ → List α → List α
  | 0, _, v => v
  | n + 1, i, v =>
    match map i, v[i]? with
    | some to_, some a => doMovesFrom map n (i + 1) (v.set to_ a)
    | _, _ => doMovesFrom map n (i + 1) v

/-- `do_moves`: skip to the first element that is removed, move down what is kept, and
resize. -/
def doMoves (remove : List Bool) (v : List α) : List α :=
  let i := remove.findIdx id
  (doMovesFrom (newIndex remove) (remove.length - i) i v).take (numKept remove)

theorem doMovesFrom_spec {remove : List Bool} (moved free rest : List α)
    (hlen : rest.length + (moved ++ free).length = remove.length)
    (hmoved : moved.length = numKept (remove.take (moved ++ free).length)) :
    ∃ left, doMovesFrom (newIndex remove) rest.length (moved ++ free).length (moved ++ free ++ rest) =
      moved ++ unmarked (remove.drop (moved ++ free).length) rest ++ left := by
  induction rest generalizing moved free with
  | nil =>
    have hdrop : remove.drop (moved ++ free).length = [] :=
      List.drop_eq_nil_of_le (by rw [← hlen]; simp)
    refine ⟨free, ?_⟩
    rw [hdrop]
    simp [doMovesFrom, unmarked]
  | cons a rest ih =>
    have hlt : (moved ++ free).length < remove.length := by
      rw [← hlen, List.length_cons]
      omega
    have hdrop := List.drop_eq_getElem_cons hlt
    have hget : (moved ++ free ++ a :: rest)[(moved ++ free).length]? = some a := by simp
    have htake := List.take_succ_eq_append_getElem hlt
    have hnew := newIndex_eq (List.getElem?_eq_getElem hlt)
    rw [List.length_cons, doMovesFrom, hnew, hget, hdrop]
    generalize remove[(moved ++ free).length] = b at htake
    cases b with
    | true =>
      -- a removed element: its place may be overwritten
      have hi : (moved ++ (free ++ [a])).length = (moved ++ free).length + 1 := by simp; omega
      obtain ⟨left, hstep⟩ := ih moved (free ++ [a]) (by simp at hlen ⊢; omega)
        (by rw [hi, htake, hmoved]; simp [numKept])
      rw [hi, ← List.append_assoc moved, List.append_assoc (moved ++ free),
        List.singleton_append] at hstep
      exact ⟨left, by simpa [unmarked] using hstep⟩
    | false =>
      obtain ⟨free', hset, hfree'⟩ : ∃ free',
          (moved ++ free ++ a :: rest).set moved.length a = (moved ++ [a]) ++ free' ++ rest ∧
            free'.length = free.length := by
        cases free with
        | nil => exact ⟨[], by simp, rfl⟩
        | cons b free => exact ⟨free ++ [a], by simp, by simp⟩
      have hi : (moved ++ [a] ++ free').length = (moved ++ free).length + 1 := by
        simp [hfree']
        omega
      obtain ⟨left, hstep⟩ := ih (moved ++ [a]) free' (by simp [hfree'] at hlen ⊢; omega)
        (by rw [hi, htake, List.length_append, hmoved]; simp [numKept])
      rw [hi] at hstep
      refine ⟨left, ?_⟩
      simp only [Bool.false_eq_true, if_false, ← hmoved, hset, unmarked]
      simpa using hstep

theorem doMoves_eq {remove : List Bool} {v : List α} (hlen : v.length = remove.length) :
    doMoves remove v = unmarked remove v := by
  have hi : remove.findIdx id ≤ remove.length := List.findIdx_le_length
  rw [doMoves]
  generalize hgen : remove.findIdx id = i at hi
  have htake : (v.take i).length = i := by rw [List.length_take]; omega
  have hleading : ∀ b ∈ remove.take i, b = false := by
    intro b hb
    obtain ⟨j, hj, rfl⟩ := List.getElem_of_mem hb
    rw [List.getElem_take]
    have hji : j < i := by simp at hj; omega
    simpa using List.not_of_lt_findIdx (p := id) (hgen ▸ hji)
  have hlengths : (v.drop i).length + (v.take i ++ []).length = remove.length := by
    simp
    omega
  have hkept : (v.take i).length = numKept (remove.take (v.take i ++ []).length) := by
    have hcount : numKept (remove.take i) = (remove.take i).length :=
      List.count_eq_length.mpr fun b hb => (hleading b hb).symm
    rw [List.append_nil, htake, hcount, List.length_take]
    omega
  obtain ⟨left, hrun⟩ := doMovesFrom_spec (v.take i) [] (v.drop i) hlengths hkept
  have hunmarked : unmarked remove v = v.take i ++ unmarked (remove.drop i) (v.drop i) := by
    conv_lhs => rw [← List.take_append_drop i v, ← List.take_append_drop i remove,
      unmarked_append hleading (by simp; omega)]
  rw [List.append_nil, htake, List.take_append_drop, List.length_drop, hlen, ← hunmarked] at hrun
  rw [hrun, ← length_unmarked hlen, List.take_left']
  rfl

end Moves

/-- A pass over all arcs that erases none. -/
def WFST.mapArcs (f : FSTArc W → FSTArc W) (x : WFST W) : WFST W :=
  { x with states := x.states.map fun st => { st with arcs := st.arcs.map f } }

theorem WFST.arcsTable_mapArcs (f : FSTArc W → FSTArc W) (x : WFST W) :
    (x.mapArcs f).arcsTable = x.arcsTable.map fun h => { h with arc := f h.arc } := by
  have hout (s : ℕ) : (x.mapArcs f).outArcs s = (x.outArcs s).map fun h => { h with arc := f h.arc } := by
    have harcs : ((x.mapArcs f).state s).arcs = (x.state s).arcs.map f := by
      rw [state, state, mapArcs, List.getD_eq_getElem?_getD, List.getD_eq_getElem?_getD,
        List.getElem?_map]
      cases x.states[s]? <;> rfl
    rw [outArcs, outArcs, harcs]
    refine List.ext_getElem? fun i => ?_
    rw [List.getElem?_mapIdx, List.getElem?_map, List.getElem?_map, List.getElem?_mapIdx,
      Option.map_map, Option.map_map]
    rfl
  have hstates : (x.mapArcs f).numStates = x.numStates := List.length_map ..
  rw [arcsTable, arcsTable, hstates, List.map_flatMap]
  exact List.flatMap_congr fun s _ => hout s

namespace CascadeParameters

section Model

variable (c : CascadeParameters) (composed : WFST W)

/-- The visitor of `find_used`: the chain of the arc is in use. -/
def markUsed (remove : List Bool) (h : HalfArc W) : List Bool :=
  if h.arc.isLocked then remove else remove.set h.arc.groupId false

/-- `find_used`, which leaves a mark on the chains no arc refers to. -/
def findUsed : List Bool :=
  composed.arcsTable.foldl markUsed ((List.replicate c.chains.length true).set nilChain false)

/-- What `rewrite_arcs` does with an arc. The id of a chain in use is not removed. -/
def rewriteArc (newids : ℕ → Option ℕ) (a : FSTArc W) : FSTArc W :=
  if a.isLocked then a else { a with groupId := (newids a.groupId).getD a.groupId }

/-- `compress_chains`. -/
def compressChains : CascadeParameters × WFST W :=
  let remove := c.findUsed composed
  ({ c with chains := doMoves remove c.chains }, composed.mapArcs (rewriteArc (newIndex remove)))

/-- `done_composing`, with the recorder and the composed transducer it leaves. -/
def doneComposingCompress (compressRemovedArcs : Bool) : CascadeParameters × WFST W :=
  let c := c.doneComposing
  if ¬ c.trivial ∧ compressRemovedArcs then c.compressChains composed else (c, composed)

end Model

section Used

variable {c : CascadeParameters} {composed : WFST W} {h : HalfArc W}

theorem length_markUsed (remove : List Bool) : (markUsed remove h).length = remove.length := by
  rw [markUsed]
  split
  case isTrue => rfl
  case isFalse => rw [List.length_set]

theorem markUsed_getElem? {remove : List Bool} {i : ℕ} (hi : i < remove.length)
    (h' : remove[i]? = some false ∨ h.arc.isLocked = false ∧ h.arc.groupId = i) :
    (markUsed remove h)[i]? = some false := by
  rw [markUsed]
  split
  case isTrue hlocked =>
    exact h'.resolve_right fun ⟨hunlocked, _⟩ => by simp [hlocked] at hunlocked
  case isFalse =>
    by_cases hid : h.arc.groupId = i
    · rw [hid, List.getElem?_set_self hi]
    · rw [List.getElem?_set_ne hid]
      exact h'.resolve_right fun ⟨_, heq⟩ => hid heq

theorem foldl_markUsed_getElem? (arcs : List (HalfArc W)) (remove : List Bool) {i : ℕ}
    (hi : i < remove.length)
    (hused : remove[i]? = some false ∨ ∃ h ∈ arcs, h.arc.isLocked = false ∧ h.arc.groupId = i) :
    (arcs.foldl markUsed remove)[i]? = some false := by
  induction arcs generalizing remove with
  | nil => exact hused.resolve_right (by simp)
  | cons h arcs ih =>
    apply ih _ (by rwa [length_markUsed])
    rcases hused with hfalse | ⟨h', hmem, hh'⟩
    · exact .inl (markUsed_getElem? hi (.inl hfalse))
    · rcases List.mem_cons.mp hmem with rfl | hmem
      · exact .inl (markUsed_getElem? hi (.inr hh'))
      · exact .inr ⟨h', hmem, hh'⟩

theorem length_findUsed : (c.findUsed composed).length = c.chains.length :=
  List.foldlRecOn (motive := fun remove : List Bool => remove.length = c.chains.length) _ _
    (by simp) fun remove hremove _ _ => (length_markUsed remove).trans hremove

theorem findUsed_getElem? (hh : h ∈ composed.arcsTable) (hlt : h.arc.groupId < c.chains.length) :
    (c.findUsed composed)[h.arc.groupId]? = some false := by
  apply foldl_markUsed_getElem? _ _ (by simpa using hlt)
  cases hlocked : h.arc.isLocked with
  | true =>
    left
    have hid : h.arc.groupId = nilChain := of_decide_eq_true hlocked
    rw [hid] at hlt ⊢
    exact List.getElem?_set_self (by simpa using hlt)
  | false => exact .inr ⟨h, hh, hlocked, rfl⟩

end Used

section Compressed

variable {c : CascadeParameters} {composed : WFST W} {h : HalfArc W}

theorem chainOf_compressChains (hh : h ∈ composed.arcsTable) (hlt : h.arc.groupId < c.chains.length) :
    (c.compressChains composed).1.chainOf
      { h with arc := rewriteArc (newIndex (c.findUsed composed)) h.arc } = c.chainOf h := by
  have hused := findUsed_getElem? hh hlt
  have hnew := newIndex_eq hused
  rw [if_neg (by simp)] at hnew
  have hid : (rewriteArc (newIndex (c.findUsed composed)) h.arc).groupId =
      numKept ((c.findUsed composed).take h.arc.groupId) := by
    rw [rewriteArc]
    split
    case isTrue hlocked =>
      have hid : h.arc.groupId = nilChain := of_decide_eq_true hlocked
      rw [hid]
      rfl
    case isFalse => rw [hnew, Option.getD_some]
  have hlen : c.chains.length = (c.findUsed composed).length := length_findUsed.symm
  rw [compressChains, chainOf, chainOf, hid, doMoves_eq hlen, List.getD_eq_getElem?_getD,
    List.getD_eq_getElem?_getD, unmarked_getElem? hlen hnew]

/-- Compressing does not change what reaches an arc of the cascade. -/
theorem chainTotal_compressChains [AddCommMonoid W] (hchained : c.Chained composed) (k : ℕ)
    (counts : Param → W) (p : Param) :
    (c.compressChains composed).1.chainTotal (c.compressChains composed).2
        (fun h => counts (h.param k)) p =
      c.chainTotal composed (fun h => counts (h.param k)) p := by
  have hcomposed : (c.compressChains composed).2 =
      composed.mapArcs (rewriteArc (newIndex (c.findUsed composed))) := rfl
  rw [chainTotal, chainTotal, hcomposed, WFST.arcsTable_mapArcs, List.map_map]
  congr 1
  refine List.map_congr_left fun h hh => ?_
  have hlt : h.arc.groupId < c.chains.length := hchained _ h (WFST.mem_arcsTable.mp hh)
  rw [Function.comp_apply, chainOf_compressChains hh hlt]
  rfl

/-- **After counts are distributed** every unlocked arc of the cascade weighs what the
composed arcs give to it, each its count as often as its chain holds the arc, and every
locked arc weighs what it did; whether or not the chain table was compressed. -/
theorem distributeCounts_spec [AddCommMonoid W] (c : CascadeParameters) (Ts : List (WFST W))
    (composed : WFST W) (hc : c.trivial = false) (hchained : c.Chained composed)
    (compressRemovedArcs : Bool) (k : ℕ) (counts w : Param → W) :
    ∀ p arc, memory Ts p = some arc →
      (c.doneComposingCompress composed compressRemovedArcs).1.distributeCounts Ts
          (c.doneComposingCompress composed compressRemovedArcs).2 (fun h => counts (h.param k)) w p =
        if arc.isLocked then w p
        else (composed.arcsTable.map fun h => (c.chainOf h).count p • counts (h.param k)).sum := by
  intro p arc harc
  have hdone : c.doneComposing.trivial = false ∧ c.doneComposing.chains = c.chains := by
    rw [doneComposing, hc]
    exact ⟨rfl, rfl⟩
  obtain ⟨htrivial, hchains⟩ := hdone
  split
  case isTrue hlocked =>
    apply distributeCounts_of_not_unlocked
    intro arc' harc'
    rwa [Option.some.inj (harc'.symm.trans harc)]
  case isFalse hlocked =>
    have hunlocked := eq_false_of_ne_true hlocked
    have htotal : c.doneComposing.chainTotal composed (fun h => counts (h.param k)) p =
        (composed.arcsTable.map fun h => (c.chainOf h).count p • counts (h.param k)).sum := by
      simp only [chainTotal, chainOf, hchains]
    rw [doneComposingCompress]
    split
    case isTrue =>
      have htrivial' : (c.doneComposing.compressChains composed).1.trivial = false := htrivial
      rw [distributeCounts_of_unlocked htrivial' harc hunlocked, chainTotal_compressChains, htotal]
      intro s h hh
      rw [hchains]
      exact hchained s h hh
    case isFalse => rw [distributeCounts_of_unlocked htrivial harc hunlocked, htotal]

theorem distributeCounts_spec_sample :
    ∃ R c, composeCascade ⟨12, ⟨id, fun _ => .refl _⟩, true⟩ true (make true)
        [sampleLeft, sampleRight] = some (R, c) ∧
      ∀ counts w : Param → ℕ,
        (c.doneComposingCompress R true).1.distributeCounts [sampleLeft, sampleRight]
            (c.doneComposingCompress R true).2 (fun h => counts (h.param 2)) w ⟨1, 0, 1⟩ =
          (R.arcsTable.map fun h => (c.chainOf h).count ⟨1, 0, 1⟩ • counts (h.param 2)).sum := by
  have hvalid : ∀ T ∈ [sampleLeft, sampleRight], T.Valid := by
    intro T hT
    rcases List.mem_pair.mp hT with rfl | rfl
    · exact sampleLeft_valid
    · exact sampleRight_valid
  obtain ⟨R, c, hR, hc, hchained⟩ := composeCascade_recorded ⟨12, ⟨id, fun _ => .refl _⟩, true⟩ true
    (by decide) hvalid
  exact ⟨R, c, hR, fun counts w =>
    distributeCounts_spec c [sampleLeft, sampleRight] R hc hchained true 2 counts w ⟨1, 0, 1⟩
      ⟨0, 2, 0, 7, FSTArc.noGroup⟩ rfl⟩

end Compressed

section Left

variable {c : CascadeParameters} {composed : WFST W} {h : HalfArc W}

/-- The chain ids in use: that of the nil chain, and those in the arcs. -/
def Used (composed : WFST W) (i : ℕ) : Prop :=
  i = nilChain ∨ ∃ h ∈ composed.arcsTable, h.arc.groupId = i

/-- A chain stays for no other reason than that an arc refers to it. -/
theorem of_foldl_markUsed (arcs : List (HalfArc W)) (remove : List Bool) {i : ℕ}
    (h : (arcs.foldl markUsed remove)[i]? = some false) :
    remove[i]? = some false ∨ ∃ h ∈ arcs, h.arc.groupId = i := by
  induction arcs generalizing remove with
  | nil => exact .inl h
  | cons a arcs ih =>
    rcases ih _ h with hstep | ⟨b, hb, hid⟩
    · rw [markUsed] at hstep
      split at hstep
      · exact .inl hstep
      · by_cases hid : a.arc.groupId = i
        · exact .inr ⟨a, List.mem_cons_self, hid⟩
        · rw [List.getElem?_set_ne hid] at hstep
          exact .inl hstep
    · exact .inr ⟨b, List.mem_cons_of_mem a hb, hid⟩

/-- **What `find_used` finds**: the marks are off the chains in use, and on the others. -/
theorem findUsed_eq_false_iff (hchained : c.Chained composed) (hnil : nilChain < c.chains.length)
    (i : ℕ) : (c.findUsed composed)[i]? = some false ↔ Used composed i := by
  constructor
  · intro h
    rcases of_foldl_markUsed _ _ h with h | h
    · left
      by_contra hne
      rw [List.getElem?_set_ne (Ne.symm hne), List.getElem?_replicate] at h
      split at h <;> simp at h
    · exact .inr h
  · rintro (rfl | ⟨h, hh, rfl⟩)
    · apply foldl_markUsed_getElem? _ _ (by simpa using hnil)
      exact .inl (List.getElem?_set_self (by simpa using hnil))
    · exact findUsed_getElem? hh (hchained _ h (WFST.mem_arcsTable.mp hh))

/-- The new id of a chain. -/
def newChainId (c : CascadeParameters) (composed : WFST W) (i : ℕ) : ℕ :=
  (newIndex (c.findUsed composed) i).getD i

theorem newIndex_findUsed (hchained : c.Chained composed) (hnil : nilChain < c.chains.length) {i : ℕ}
    (hi : Used composed i) :
    newIndex (c.findUsed composed) i = some (c.newChainId composed i) := by
  have hfalse := (findUsed_eq_false_iff hchained hnil i).mpr hi
  rw [newChainId, newIndex_eq hfalse]
  rfl

theorem newChainId_nilChain (hchained : c.Chained composed) (hnil : nilChain < c.chains.length) :
    c.newChainId composed nilChain = nilChain := by
  have hfalse := (findUsed_eq_false_iff hchained hnil nilChain).mpr (.inl rfl)
  have hzero : newIndex (c.findUsed composed) nilChain = some nilChain := by
    apply newIndex_zero
    rw [List.getD_eq_getElem?_getD]
    exact congrArg (·.getD true) hfalse
  exact Option.some.inj ((newIndex_findUsed hchained hnil (.inl rfl)).symm.trans hzero)

/-- Locked arcs are exempt because their id is that of the nil chain. -/
theorem rewriteArc_eq (hchained : c.Chained composed) (hnil : nilChain < c.chains.length)
    (a : FSTArc W) :
    rewriteArc (newIndex (c.findUsed composed)) a =
      { a with groupId := c.newChainId composed a.groupId } := by
  rw [rewriteArc]
  split
  case isTrue hlocked =>
    have hid : a.groupId = nilChain := of_decide_eq_true hlocked
    have hsame : c.newChainId composed a.groupId = a.groupId := by
      rw [hid]
      exact newChainId_nilChain hchained hnil
    rw [hsame]
  case isFalse => rfl

/-- **What `compress_chains` does**: the chains are renumbered, the nil chain keeping its id. Every
arc refers to the chain it referred to before and is otherwise as it was. Ids in use stay apart, and
the table is left with the chains in use. -/
theorem compressChains_spec (c : CascadeParameters) (composed : WFST W)
    (hchained : c.Chained composed) (hnil : nilChain < c.chains.length) :
    ∃ newId : ℕ → ℕ, newId nilChain = nilChain ∧ (c.compressChains composed).2 =
        composed.mapArcs (fun a => { a with groupId := newId a.groupId }) ∧
      (∀ h ∈ composed.arcsTable, (c.compressChains composed).1.chainOf
          { h with arc := { h.arc with groupId := newId h.arc.groupId } } = c.chainOf h) ∧
      (∀ i, Used composed i → (c.compressChains composed).1.chains[newId i]? = c.chains[i]?) ∧
      (∀ i j, Used composed i → Used composed j → newId i = newId j → i = j) ∧
      ∀ j, j < (c.compressChains composed).1.chains.length ↔ ∃ i, Used composed i ∧ newId i = j := by
  have hlen : c.chains.length = (c.findUsed composed).length := length_findUsed.symm
  have hchains : (c.compressChains composed).1.chains = unmarked (c.findUsed composed) c.chains :=
    doMoves_eq hlen
  have hnew {i : ℕ} (hi : Used composed i) := newIndex_findUsed hchained hnil hi
  refine ⟨c.newChainId composed, newChainId_nilChain hchained hnil, ?_, ?_, ?_, ?_, ?_⟩
  · exact congrArg (composed.mapArcs ·) (funext (rewriteArc_eq hchained hnil))
  · intro h hh
    rw [← rewriteArc_eq hchained hnil]
    exact chainOf_compressChains hh (hchained _ h (WFST.mem_arcsTable.mp hh))
  · intro i hi
    rw [hchains, unmarked_getElem? hlen (hnew hi)]
  · intro i j hi hj heq
    apply newIndex_inj (hnew hi)
    rw [heq]
    exact hnew hj
  · intro j
    rw [hchains]
    constructor
    · intro hj
      obtain ⟨i, hi⟩ := exists_newIndex_of_lt hlen hj
      obtain ⟨hlt, hfalse⟩ := exists_newIndex_iff'.mp ⟨j, hi⟩
      have hused : Used composed i := by
        rw [← findUsed_eq_false_iff hchained hnil, List.getElem?_eq_getElem hlt]
        rw [List.getD_eq_getElem?_getD, List.getElem?_eq_getElem hlt] at hfalse
        exact congrArg some hfalse
      exact ⟨i, hused, Option.some.inj ((hnew hused).symm.trans hi)⟩
    · rintro ⟨i, hi, rfl⟩
      have hget := unmarked_getElem? hlen (hnew hi)
      have hlt : i < c.chains.length := by
        rw [hlen]
        exact lt_of_newIndex (hnew hi)
      rw [List.getElem?_eq_getElem hlt] at hget
      exact (List.getElem?_eq_some_iff.mp hget).1

/-- A composed transducer with an arc of the third chain and a locked one. -/
def thirdChainArc : WFST ℕ where
  states := [⟨[⟨2, 2, 0, 1, 2⟩, ⟨2, 0, 0, 1, FSTArc.lockedGroup⟩], 2⟩]
  final := some 0
  inAlph := ⟨["*e*", "*w*", "a"], Alphabet.nodup_letter, Alphabet.letter_first⟩
  outAlph := ⟨["*e*", "*w*", "a"], Alphabet.nodup_letter, Alphabet.letter_first⟩

def threeChains : CascadeParameters := { make true with chains := [[], [⟨0, 0, 0⟩], [⟨0, 0, 1⟩]] }

theorem threeChains_chained : threeChains.Chained thirdChainArc := by
  intro s h hh
  obtain ⟨state, hstate, harc⟩ := WFST.mem_state_arcs_of_mem_outArcs hh
  have hall : ∀ state ∈ thirdChainArc.states, ∀ arc ∈ state.arcs, arc.groupId < 3 := by decide
  exact hall state hstate h.arc harc

theorem compressChains_spec_threeChains :
    ∃ newId : ℕ → ℕ, newId nilChain = nilChain ∧ (threeChains.compressChains thirdChainArc).2 =
        thirdChainArc.mapArcs (fun a => { a with groupId := newId a.groupId }) ∧
      (∀ h ∈ thirdChainArc.arcsTable, (threeChains.compressChains thirdChainArc).1.chainOf
          { h with arc := { h.arc with groupId := newId h.arc.groupId } } = threeChains.chainOf h) ∧
      (∀ i, Used thirdChainArc i →
        (threeChains.compressChains thirdChainArc).1.chains[newId i]? = threeChains.chains[i]?) ∧
      (∀ i j, Used thirdChainArc i → Used thirdChainArc j → newId i = newId j → i = j) ∧
      ∀ j, j < (threeChains.compressChains thirdChainArc).1.chains.length ↔
        ∃ i, Used thirdChainArc i ∧ newId i = j :=
  compressChains_spec threeChains thirdChainArc threeChains_chained (by decide)

end Left

end CascadeParameters

end Carmel
