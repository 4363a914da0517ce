/-
# Child sequences under each parent

`read_radu` counts the children of every inner node as a sentence, in the model of all
parents and, with `parent`, in a model of the parent's label. The sentence with which a
label comes up first makes its model, and is not counted in it.
-/

import Carmel.Gextract.Tree
import Carmel.Sblm.Ngram

namespace Carmel.Sblm

open Carmel.Math Carmel.Gextract

universe u

section Code

/-- The counts of `tag_word_unigram`. -/
structure TagWordCounts (T : Type*) (W : Type*) where
  tagword : Dict (T × W) ℕ
  word : Dict W ℕ

/-- `count_tw`. -/
def TagWordCounts.countTw {T : Type*} {W : Type*} [DecidableEq T] [DecidableEq W]
    (c : TagWordCounts T W) (tw : T × W) : TagWordCounts T W where
  tagword := c.tagword.addTo tw 1
  word := c.word.addTo tw.2 1

/-- `paren2lrb`. -/
def paren2lrb (s : String) : String := (s.replace "(" "-LRB-").replace ")" "-RRB-"

/-- `pcfg_quote_terminal`. -/
def pcfgQuoteTerminal (s : String) (num2at : Bool) : String :=
  "\"" ++ (if num2at then s.map fun c => if c.isDigit then '@' else c else s) ++ "\""

/-- `sbmt_lhs_label`. -/
def sbmtLhsLabel (num2at : Bool) (t : Gextract.Node String) : String :=
  if t.IsTerminal then pcfgQuoteTerminal t.attr num2at else paren2lrb t.attr

/-- `sbmt_lhs_pcfg_event`: the label of a node and the labels of its children. -/
def sbmtLhsPcfgEvent (num2at : Bool) (t : Gextract.Node String) : String × List String :=
  (sbmtLhsLabel num2at t, t.children.toList.map (sbmtLhsLabel num2at))

/-- `is_preterminal`. -/
def isPreterminal (t : Gextract.Node String) : Bool :=
  match t.children.toList with
  | [c] => c.IsTerminal
  | _ => false

/-- What `gen_pcfg_events_radu` yields: a tuple for leaves and preterminals, and a list. -/
inductive PcfgEvent
  | tuple (lhs : String) (children : List String)
  | list (lhs : String) (children : List String)
deriving DecidableEq, Repr

/-- `gen_pcfg_events_radu`. -/
def genPcfgEventsRadu (terminals digit2at : Bool) (t : Gextract.Node String) : List PcfgEvent :=
  t.preorder.flatMap fun n =>
    let ev := sbmtLhsPcfgEvent digit2at n
    if n.IsTerminal then (if terminals then [.tuple ev.1 ev.2] else [])
    else if isPreterminal n then [.tuple ev.1 ev.2]
    else [.list ev.1 ev.2]

/-- `sblm_ngram`: its settings, the model of all parents, those of the parents, and the counts
of tags and words. -/
structure SblmNgram (K : Type u) where
  parentStart : Bool
  condParent : Bool
  parent : Bool
  digit2at : Bool
  order : ℕ
  ng : Ngram String (Log10 K)
  png : Dict String (Ngram String (Log10 K))
  terminals : TagWordCounts String String

namespace SblmNgram

variable {K : Type u} [Field K]

/-- `start_for_parent`. -/
def startForParent (s : SblmNgram K) (p : String) : String :=
  if s.parentStart then "<s:" ++ p ++ ">" else "<s>"

/-- `sent_for_event`. -/
def sentForEvent (s : SblmNgram K) (p : String) (ch : List String) : List String :=
  [s.startForParent p] ++ ch ++ ["</s>"]

/-- The loop of `read_radu` with `cond_parent`: every word but the first is counted behind the
parent, the last word first. -/
def countBehindParent (p : String) : ℕ → List String → Ngram String (Log10 K) → Ngram String (Log10 K)
  | i + 2, sent, ng =>
    let sent := (sent.set (i + 2) (sent.getD (i + 1) "")).set (i + 1) p
    countBehindParent p (i + 1) sent (ng.countWord sent (i + 2))
  | _, _, ng => ng

/-- What `read_radu` does with the sentence of a parent, with `parent` and without
`cond_parent`. -/
def countUnder (s : SblmNgram K) (p : String) (sent : List String) : SblmNgram K :=
  match s.png.get? p with
  | none => { s with png := s.png.set p (Ngram.new (.zeroProb : Log10 K) String s.order) }
  | some pn => { s with png := s.png.set p (pn.countText sent 1 none none) }

/-- One round of the inner loop of `read_radu`. -/
def readEvent (s : SblmNgram K) : PcfgEvent → SblmNgram K
  | .tuple t [w] => { s with terminals := s.terminals.countTw (t, w) }
  | .tuple _ _ => s
  | .list p ch =>
    let sent := s.sentForEvent p ch
    if s.condParent then
      { s with ng := countBehindParent p sent.length (sent ++ [""]) s.ng }
    else
      let s := { s with ng := s.ng.countText sent 1 none none }
      if s.parent then s.countUnder p sent else s

/-- `read_radu` on the trees of its lines, and the number of nodes that it returns. -/
def readRadu (s : SblmNgram K) (trees : List (Gextract.Node String)) : SblmNgram K × ℕ :=
  trees.foldl (fun r t =>
    ((genPcfgEventsRadu false s.digit2at t).foldl readEvent r.1, r.2 + (1 + t.children.size)))
    (s, 0)

/-- A new `sblm_ngram`. -/
def new (logpUnk : Log10 K) (parentStart condParent parent digit2at : Bool) (order : ℕ) :
    SblmNgram K where
  parentStart := parentStart
  condParent := condParent
  parent := parent
  digit2at := digit2at
  order := order
  ng := Ngram.new logpUnk String order
  png := .empty
  terminals := ⟨.empty, .empty⟩

end SblmNgram

end Code

section Sentences

/-- The sentence of an event. -/
def sentence (parentStart : Bool) (p : String) (ch : List String) : List String :=
  [if parentStart then "<s:" ++ p ++ ">" else "<s>"] ++ ch ++ ["</s>"]

/-- The sentence of an event with its parent, which tuples do not have. -/
def PcfgEvent.sentence? (parentStart : Bool) : PcfgEvent → Option (String × List String)
  | .list p ch => some (p, sentence parentStart p ch)
  | .tuple .. => none

/-- The sentences of the events under a parent. -/
def sentencesUnder (parentStart : Bool) (events : List PcfgEvent) (p : String) :
    List (List String) :=
  ((events.filterMap (PcfgEvent.sentence? parentStart)).filter (·.1 = p)).map Prod.snd

/-- The n-grams of some sentences. -/
def sentenceWindows (sents : List (List String)) (o : ℕ) : List (List String) :=
  sents.flatMap fun sent => windows o sent 1

/-- The n-gram counts of some sentences. -/
def sentenceCounts (sents : List (List String)) (o : ℕ) : Dict (List String) ℕ :=
  Dict.tally id (fun _ => 1) (sentenceWindows sents o) .empty

variable {parentStart : Bool} {events : List PcfgEvent} {p : String} {ch : List String}

theorem getD_sentenceCounts (sents : List (List String)) (o : ℕ) (k : List String) :
    ((sentenceCounts sents o).get? k).getD 0 = (sentenceWindows sents o).count k := by
  rw [sentenceCounts, Dict.getD_tally, Dict.get?_empty, Option.getD_none, Nat.zero_add,
    List.map_const', List.sum_replicate_nat, Nat.mul_one, List.count_eq_countP,
    List.countP_eq_length_filter]
  exact congrArg List.length (List.filter_congr fun x _ => by simp [beq_eq_decide])

/-- Another sentence. -/
theorem sentenceCounts_concat (sents : List (List String)) (sent : List String) (o : ℕ) :
    sentenceCounts (sents ++ [sent]) o =
      Dict.tally id (fun _ => 1) (windows o sent 1) (sentenceCounts sents o) := by
  simp only [sentenceCounts, sentenceWindows, List.flatMap_append, List.flatMap_cons,
    List.flatMap_nil, List.append_nil, Dict.tally, List.foldl_append]

theorem sentencesUnder_concat_list {q : String} :
    sentencesUnder parentStart (events ++ [.list q ch]) p = sentencesUnder parentStart events p ++
        if q = p then [sentence parentStart q ch] else [] := by
  have hlast : [PcfgEvent.list q ch].filterMap (PcfgEvent.sentence? parentStart) =
      [(q, sentence parentStart q ch)] := rfl
  rw [sentencesUnder, List.filterMap_append, hlast, List.filter_append, List.map_append]
  by_cases hq : q = p
  · simp [hq, sentencesUnder]
  · simp [hq, sentencesUnder]

theorem sentencesUnder_concat_tuple {t : String} :
    sentencesUnder parentStart (events ++ [.tuple t ch]) p =
      sentencesUnder parentStart events p := by
  have hlast : [PcfgEvent.tuple t ch].filterMap (PcfgEvent.sentence? parentStart) = [] := rfl
  rw [sentencesUnder, List.filterMap_append, hlast, List.append_nil]
  rfl
variable (parentStart) in

theorem mem_sentencesUnder (h : .list p ch ∈ events) :
    sentence parentStart p ch ∈ sentencesUnder parentStart events p := by
  rw [sentencesUnder, List.mem_map]
  refine ⟨(p, sentence parentStart p ch), List.mem_filter.mpr ⟨?_, by simp⟩, rfl⟩
  exact List.mem_filterMap.mpr ⟨.list p ch, h, rfl⟩

/-- Every sentence ends in a mark that is counted. -/
theorem end_mem_windows {sent : List String} (h : sent ∈ sentencesUnder parentStart events p) :
    ["</s>"] ∈ windows 0 sent 1 := by
  rcases List.mem_map.mp h with ⟨⟨q, sent⟩, hmem, rfl⟩
  rcases List.mem_filterMap.mp (List.mem_filter.mp hmem).1 with ⟨e, -, he⟩
  cases e with
  | tuple t ch => cases he
  | list q' ch =>
    rcases Prod.mk.inj (Option.some.inj he) with ⟨-, rfl⟩
    rw [mem_windows_iff]
    exact ⟨rfl, [if parentStart then "<s:" ++ q' ++ ">" else "<s>"] ++ ch, [],
      by simp [sentence], by simp⟩

end Sentences

section Reading

variable {K : Type u} [Field K] {s s₀ : SblmNgram K} {events : List PcfgEvent}

/-- What `read_radu` has counted of some events: all sentences in the model of all parents, and
in that of a parent those after its first. -/
structure HasRead (s₀ : SblmNgram K) (events : List PcfgEvent) (s : SblmNgram K) : Prop where
  parentStart : s.parentStart = s₀.parentStart
  condParent : s.condParent = s₀.condParent
  parent : s.parent = s₀.parent
  order : s.order = s₀.order
  orderNg : s.ng.order = s₀.order
  ng : ∀ o < s₀.order, s.ng.ngrams o = sentenceCounts
    ((events.filterMap (PcfgEvent.sentence? s₀.parentStart)).map Prod.snd) o
  absent : ∀ p, s.png.get? p = none → sentencesUnder s₀.parentStart events p = []
  present : ∀ p pn, s.png.get? p = some pn → pn.order = s₀.order ∧
    ∃ first rest, sentencesUnder s₀.parentStart events p = first :: rest ∧
      ∀ o < s₀.order, pn.ngrams o = sentenceCounts rest o

omit [Field K] in
theorem hasRead_new (logpUnk : Log10 K) (parentStart condParent parent digit2at : Bool)
    (order : ℕ) : HasRead (SblmNgram.new logpUnk parentStart condParent parent digit2at order) []
      (SblmNgram.new logpUnk parentStart condParent parent digit2at order) where
  parentStart := rfl
  condParent := rfl
  parent := rfl
  order := rfl
  orderNg := rfl
  ng _ _ := rfl
  absent _ _ := rfl
  present p pn h := by cases h

omit [Field K] in
theorem countText_sentence (m : Ngram String (Log10 K)) (sent : List String) :
    (m.countText sent 1 none none).order = m.order ∧ ∀ o < m.order,
      (m.countText sent 1 none none).ngrams o =
        Dict.tally id (fun _ => 1) (windows o sent 1) (m.ngrams o) := by
  have heq : m.countText sent 1 none none = m.countFrom sent 1 := by
    simp [Ngram.countText]
  rw [heq]
  exact ⟨m.order_countFrom sent 1, fun o ho => m.ngrams_countFrom sent 1 ho⟩

/-- A tuple goes to the counts of tags and words. -/
theorem HasRead.tuple (h : HasRead s₀ events s) (t : String) (ch : List String) :
    HasRead s₀ (events ++ [.tuple t ch]) (s.readEvent (.tuple t ch)) := by
  have hsame : ∃ c, s.readEvent (.tuple t ch) = { s with terminals := c } := by
    match ch with
    | [w] => exact ⟨s.terminals.countTw (t, w), rfl⟩
    | [] => exact ⟨s.terminals, rfl⟩
    | _ :: _ :: _ => exact ⟨s.terminals, rfl⟩
  have hlast : [PcfgEvent.tuple t ch].filterMap (PcfgEvent.sentence? s₀.parentStart) = [] := rfl
  rcases hsame with ⟨c, hc⟩
  rw [hc]
  constructor
  · exact h.parentStart
  · exact h.condParent
  · exact h.parent
  · exact h.order
  · exact h.orderNg
  · intro o ho
    rw [List.filterMap_append, hlast, List.append_nil]
    exact h.ng o ho
  · intro p hp
    rw [sentencesUnder_concat_tuple]
    exact h.absent p hp
  · intro p pn hp
    rw [sentencesUnder_concat_tuple]
    exact h.present p pn hp

/-- A sentence is counted in the model of all parents, and in that of its parent if there is one. -/
theorem HasRead.list (h : HasRead s₀ events s) (hcond : s₀.condParent = false)
    (hparent : s₀.parent = true) (p : String) (ch : List String) :
    HasRead s₀ (events ++ [.list p ch]) (s.readEvent (.list p ch)) := by
  have hsent : s.sentForEvent p ch = sentence s₀.parentStart p ch := by
    rw [← h.parentStart]
    rfl
  generalize hs : sentence s₀.parentStart p ch = sent at hsent
  have hlast : [PcfgEvent.list p ch].filterMap (PcfgEvent.sentence? s₀.parentStart) = [(p, sent)] := by
    rw [← hs]
    rfl
  have hrun : s.readEvent (.list p ch) =
      SblmNgram.countUnder { s with ng := s.ng.countText sent 1 none none } p sent := by
    rw [SblmNgram.readEvent, h.condParent, hcond, hsent]
    simp only [Bool.false_eq_true, if_false, h.parent, hparent, if_true]
  rcases countText_sentence s.ng sent with ⟨hng, hngrams⟩
  rw [h.orderNg] at hng hngrams
  have hall : ∀ o < s₀.order, (s.ng.countText sent 1 none none).ngrams o = sentenceCounts
      (((events ++ [PcfgEvent.list p ch]).filterMap
        (PcfgEvent.sentence? s₀.parentStart)).map Prod.snd) o := by
    intro o ho
    rw [hngrams o ho, h.ng o ho, List.filterMap_append, hlast, List.map_append, List.map_singleton,
      sentenceCounts_concat]
  have hunder : ∀ q, sentencesUnder s₀.parentStart (events ++ [.list p ch]) q =
      sentencesUnder s₀.parentStart events q ++ if p = q then [sent] else [] := by
    intro q
    rw [sentencesUnder_concat_list, hs]
  rw [hrun, SblmNgram.countUnder]
  cases hget : s.png.get? p with
  | none =>
    -- the first sentence under the parent makes its model
    refine ⟨h.parentStart, h.condParent, h.parent, h.order, hng, hall, ?_, ?_⟩
    · intro q hq
      rw [Dict.get?_set] at hq
      by_cases hqp : q = p
      · rw [if_pos hqp] at hq
        cases hq
      · rw [if_neg hqp] at hq
        rw [hunder, if_neg (Ne.symm hqp), List.append_nil]
        exact h.absent q hq
    · intro q pn hq
      rw [Dict.get?_set] at hq
      by_cases hqp : q = p
      · subst hqp
        rw [if_pos rfl, Option.some.injEq] at hq
        subst hq
        refine ⟨h.order, sent, [], ?_, fun _ _ => rfl⟩
        rw [hunder, if_pos rfl, h.absent q hget, List.nil_append]
      · rw [if_neg hqp] at hq
        rw [hunder, if_neg (Ne.symm hqp), List.append_nil]
        exact h.present q pn hq
  | some pn =>
    rcases h.present p pn hget with ⟨horder, first, rest, hsents, hrest⟩
    rcases countText_sentence pn sent with ⟨hpn, hpngrams⟩
    rw [horder] at hpn hpngrams
    refine ⟨h.parentStart, h.condParent, h.parent, h.order, hng, hall, ?_, ?_⟩
    · intro q hq
      rw [Dict.get?_set] at hq
      by_cases hqp : q = p
      · rw [if_pos hqp] at hq
        cases hq
      · rw [if_neg hqp] at hq
        rw [hunder, if_neg (Ne.symm hqp), List.append_nil]
        exact h.absent q hq
    · intro q qn hq
      rw [Dict.get?_set] at hq
      by_cases hqp : q = p
      · subst hqp
        rw [if_pos rfl, Option.some.injEq] at hq
        subst hq
        refine ⟨hpn, first, rest ++ [sent], ?_, ?_⟩
        · rw [hunder, if_pos rfl, hsents, List.cons_append]
        · intro o ho
          rw [hpngrams o ho, hrest o ho, sentenceCounts_concat]
      · rw [if_neg hqp] at hq
        rw [hunder, if_neg (Ne.symm hqp), List.append_nil]
        exact h.present q qn hq

theorem HasRead.foldl (hcond : s₀.condParent = false) (hparent : s₀.parent = true)
    (more : List PcfgEvent) (h : HasRead s₀ events s) :
    HasRead s₀ (events ++ more) (more.foldl SblmNgram.readEvent s) := by
  induction more generalizing events s with
  | nil => simpa using h
  | cons e more ih =>
    have hstep : HasRead s₀ (events ++ [e]) (s.readEvent e) := by
      cases e with
      | tuple t ch => exact h.tuple t ch
      | list p ch => exact h.list hcond hparent p ch
    have hrest := ih hstep
    rwa [List.append_assoc, List.singleton_append] at hrest

end Reading

section File

variable {K : Type u} [Field K] {trees : List (Gextract.Node String)}

/-- The events of some trees. -/
def eventsOf (digit2at : Bool) (trees : List (Gextract.Node String)) : List PcfgEvent :=
  trees.flatMap (genPcfgEventsRadu false digit2at)

theorem readRadu_fst (s : SblmNgram K) (trees : List (Gextract.Node String)) :
    (s.readRadu trees).1 = (eventsOf s.digit2at trees).foldl SblmNgram.readEvent s := by
  have hfold : ∀ (trees : List (Gextract.Node String)) (r : SblmNgram K × ℕ),
      (trees.foldl (fun r t => ((genPcfgEventsRadu false s.digit2at t).foldl SblmNgram.readEvent r.1,
        r.2 + (1 + t.children.size))) r).1 =
        (eventsOf s.digit2at trees).foldl SblmNgram.readEvent r.1 := by
    intro trees
    induction trees with
    | nil => exact fun _ => rfl
    | cons t trees ih =>
      intro r
      have hcons : eventsOf s.digit2at (t :: trees) =
          genPcfgEventsRadu false s.digit2at t ++ eventsOf s.digit2at trees := List.flatMap_cons
      rw [List.foldl_cons, ih, hcons, List.foldl_append]
  exact hfold trees (s, 0)

/-- The count of an n-gram. -/
def Ngram.countOf (m : Ngram String (Log10 K)) (o : ℕ) (k : List String) : ℕ := ((m.ngrams o).get? k).getD 0

/-- Every n-gram is counted under each parent as often as it comes in the sentences under it, and
over all parents as often as in the model of all parents. -/
structure CountsByParent (events : List PcfgEvent) (s : SblmNgram K) : Prop where
  exact : ∀ p, ∀ o < s.order, ∀ k, ((s.png.get? p).map fun pn => pn.countOf o k).getD 0 =
      (sentenceWindows (sentencesUnder s.parentStart events p) o).count k
  total : ∀ o < s.order, ∀ k, (s.png.entries.map fun e => e.2.countOf o k).sum = s.ng.countOf o k

theorem mem_eventsOf_list {digit2at : Bool} :
    (∃ p ch, .list p ch ∈ eventsOf digit2at trees) ↔
      ∃ t ∈ trees, ∃ n ∈ t.preorder, ¬ n.IsTerminal ∧ isPreterminal n = false := by
  simp only [eventsOf, genPcfgEventsRadu, List.mem_flatMap]
  constructor
  · rintro ⟨p, ch, t, ht, n, hn, hev⟩
    refine ⟨t, ht, n, hn, ?_⟩
    by_cases hterminal : n.IsTerminal
    · simp [hterminal] at hev
    · by_cases hpre : isPreterminal n = true
      · simp [hterminal, hpre] at hev
      · exact ⟨hterminal, by simpa using hpre⟩
  · rintro ⟨t, ht, n, hn, hterminal, hpre⟩
    refine ⟨(sbmtLhsPcfgEvent digit2at n).1, (sbmtLhsPcfgEvent digit2at n).2, t, ht, n, hn, ?_⟩
    simp [hterminal, hpre]

variable (logpUnk : Log10 K) (parentStart digit2at : Bool) (order : ℕ)

theorem hasRead_readRadu (trees : List (Gextract.Node String)) :
    HasRead (SblmNgram.new logpUnk parentStart false true digit2at order) (eventsOf digit2at trees)
      ((SblmNgram.new logpUnk parentStart false true digit2at order).readRadu trees).1 := by
  rw [readRadu_fst]
  have h := (hasRead_new logpUnk parentStart false true digit2at order).foldl rfl rfl
    (eventsOf digit2at trees)
  rwa [List.nil_append] at h

variable {logpUnk parentStart digit2at order} {events : List PcfgEvent} {s₀ s : SblmNgram K}

omit [Field K] in
/-- The first sentence under a parent is missing from its model. -/
theorem not_countsByParent {p : String} {ch : List String} (h : HasRead s₀ events s)
    (horder : s₀.order ≠ 0) (he : .list p ch ∈ events) : ¬ CountsByParent events s := by
  intro hcounts
  have hsent := mem_sentencesUnder s₀.parentStart he
  cases hget : s.png.get? p with
  | none =>
    rw [h.absent p hget] at hsent
    cases hsent
  | some pn =>
    rcases h.present p pn hget with ⟨-, first, rest, hsents, hrest⟩
    have hfirst : first ∈ sentencesUnder s₀.parentStart events p := by
      rw [hsents]
      exact List.mem_cons_self
    have hexact := hcounts.exact p 0 (h.order ▸ Nat.pos_of_ne_zero horder) ["</s>"]
    have hcount := List.count_pos_iff.mpr (end_mem_windows hfirst)
    rw [hget, Option.map_some, Option.getD_some, Ngram.countOf,
      hrest 0 (Nat.pos_of_ne_zero horder), getD_sentenceCounts, h.parentStart, hsents,
      sentenceWindows, sentenceWindows, List.flatMap_cons, List.count_append] at hexact
    omega

omit [Field K] in
/-- Where there is nothing to count, nothing is missing. -/
theorem countsByParent_of_no_list (h : HasRead s₀ events s)
    (hevents : ∀ p ch, .list p ch ∉ events) : CountsByParent events s := by
  have hnil : ∀ b, events.filterMap (PcfgEvent.sentence? b) = [] := by
    intro b
    rw [List.filterMap_eq_nil_iff]
    intro e he
    cases e with
    | tuple t ch => rfl
    | list p ch => exact absurd he (hevents p ch)
  have hunder : ∀ b p, sentencesUnder b events p = [] := by
    intro b p
    rw [sentencesUnder, hnil]
    rfl
  have habsent : ∀ p, s.png.get? p = none := by
    intro p
    cases hget : s.png.get? p with
    | none => rfl
    | some pn =>
      rcases h.present p pn hget with ⟨-, first, rest, hsents, -⟩
      rw [hunder] at hsents
      cases hsents
  constructor
  · intro p o ho k
    rw [habsent, hunder]
    rfl
  · intro o ho k
    have hentries : s.png.entries = [] := by
      rw [List.eq_nil_iff_forall_not_mem]
      rintro ⟨p, pn⟩ hmem
      rw [Dict.mem_entries_iff, habsent] at hmem
      cases hmem
    rw [hentries, Ngram.countOf, h.ng o (h.order ▸ ho), hnil]
    rfl

variable (logpUnk parentStart digit2at order)

/-- The counts under the parents are those of the sentences exactly when the order is zero or
every node of every tree is a leaf or a preterminal. -/
theorem SblmNgram.countsByParent_iff (trees : List (Gextract.Node String)) :
    CountsByParent (eventsOf digit2at trees)
        ((new logpUnk parentStart false true digit2at order).readRadu trees).1 ↔
      order = 0 ∨ ∀ t ∈ trees, ∀ n ∈ t.preorder, n.IsTerminal ∨ isPreterminal n = true := by
  have hread := hasRead_readRadu logpUnk parentStart digit2at order trees
  constructor
  · intro hcounts
    by_cases horder : order = 0
    · exact Or.inl horder
    · apply Or.inr
      intro t ht n hn
      by_contra hnot
      rw [not_or, Bool.not_eq_true] at hnot
      rcases mem_eventsOf_list.mpr ⟨t, ht, n, hn, hnot⟩ with ⟨p, ch, he⟩
      exact not_countsByParent hread horder he hcounts
  · rintro (horder | hnodes)
    · have hzero : ((new logpUnk parentStart false true digit2at order).readRadu trees).1.order = 0 :=
        hread.order.trans horder
      constructor
      · intro p o ho
        rw [hzero] at ho
        cases ho
      · intro o ho
        rw [hzero] at ho
        cases ho
    · apply countsByParent_of_no_list hread
      intro p ch he
      rcases mem_eventsOf_list.mp ⟨p, ch, he⟩ with ⟨t, ht, n, hn, hterminal, hpre⟩
      rcases hnodes t ht n hn with h | h
      · exact hterminal h
      · rw [hpre] at h
        cases h

/-- One sentence under `S`. -/
theorem SblmNgram.not_countsByParent_one_sentence :
    ¬ CountsByParent (eventsOf false [⟨"S", .node "NN" (.node "dogs" .nil .nil) .nil⟩])
      ((new (0 : Log10 ℚ) false false true false 1).readRadu
        [⟨"S", .node "NN" (.node "dogs" .nil .nil) .nil⟩]).1 := by
  have hread := hasRead_readRadu (0 : Log10 ℚ) false false 1
    [⟨"S", .node "NN" (.node "dogs" .nil .nil) .nil⟩]
  have hevent : ∃ p ch, PcfgEvent.list p ch ∈
      eventsOf false [⟨"S", .node "NN" (.node "dogs" .nil .nil) .nil⟩] :=
    mem_eventsOf_list.mpr ⟨_, List.mem_cons_self, _, List.mem_cons_self, by decide, by decide⟩
  rcases hevent with ⟨p, ch, he⟩
  exact Sblm.not_countsByParent hread Nat.one_ne_zero he

end File

end Carmel.Sblm
