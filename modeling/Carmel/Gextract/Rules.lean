/-
# Rules and derivation trees

A rule is read off below a node with a span: the left-hand side goes down to the next nodes
with a span, which become variables, and each is written over the first of its words in the
foreign side; the right-hand side is then read from left to right.
-/

import Carmel.Gextract.Spans

namespace Carmel.Gextract

/-- A node of a left-hand side. A variable has the label of its node. -/
inductive LhsSym
  | var (xn : ℕ) (label : String) (terminal : Bool)
  | word (label : String)
  | nonterm (label : String)
deriving DecidableEq, Repr

/-- A foreign word, or the variable that stands over it; its words end at `stop`. -/
inductive FSym
  | word (f : String)
  | var (xn stop : ℕ)
deriving DecidableEq, Repr

inductive RhsSym
  | word (f : String)
  | var (xn : ℕ)
deriving DecidableEq, Repr

structure Rule where
  lhs : Node LhsSym
  rhs : List RhsSym
deriving DecidableEq, Repr

section Items

variable {α : Type*}

/-- The place in a list that an index means, if there is one. -/
def place (n : ℕ) (i : ℤ) : Option ℕ :=
  let i := if i < 0 then i + n else i
  if 0 ≤ i ∧ i < n then some i.toNat else none

def getItem (xs : List α) (i : ℤ) : Option α := (place xs.length i).bind fun k => xs[k]?

def setItem (xs : List α) (i : ℤ) (x : α) : Option (List α) :=
  (place xs.length i).map fun k => xs.set k x

theorem place_sub {n i b : ℕ} (hb : b ≤ i) (hi : i < b + n) :
    place n ((i : ℤ) - b) = some (i - b) := by
  have hneg : ¬ ((i : ℤ) - b < 0) := by omega
  have hin : (0 : ℤ) ≤ (i : ℤ) - b ∧ (i : ℤ) - b < n := by omega
  rw [place]
  simp only [hneg, if_false, hin, and_self, if_true, Option.some.injEq]
  omega

end Items

section Code

/-- `xrs_lhs_str_r` for the children of a node: the left-hand side, the foreign
words with the variables, and the next variable. -/
def Nodes.xrsLhs (fbase : ℕ) :
    Nodes Attr → List FSym → ℕ → Option (Nodes LhsSym × List FSym × ℕ)
  | nil, foreign, xn => some (nil, foreign, xn)
  | node attr children rest, foreign, xn =>
    match attr.span with
    | some (a, b) => do
      let foreign ← setItem foreign ((a : ℤ) - fbase) (.var xn b)
      let (rest, foreign, next) ← rest.xrsLhs fbase foreign (xn + 1)
      some (node (.var xn attr.label (children = nil)) nil rest, foreign, next)
    | none =>
      match children with
      | nil => do
        let (rest, foreign, next) ← rest.xrsLhs fbase foreign xn
        some (node (.word attr.label) nil rest, foreign, next)
      | node .. => do
        let (children, foreign, xn) ← children.xrsLhs fbase foreign xn
        let (rest, foreign, next) ← rest.xrsLhs fbase foreign xn
        some (node (.nonterm attr.label) children rest, foreign, next)

/-- `xrs_lhs_str`. -/
def Node.xrsLhs (fbase : ℕ) (t : Node Attr) (foreign : List FSym) :
    Option (Node LhsSym × List FSym) :=
  match t.children with
  | .nil => some (⟨.word t.attr.label, .nil⟩, foreign)
  | .node .. => (t.children.xrsLhs fbase foreign 0).map fun (children, foreign, _) =>
    (⟨.nonterm t.attr.label, children⟩, foreign)

/-- The loop of `xrs_rhs_str`. A place that is met again is met without end, so
`ge` rounds are enough for a loop that ends. -/
def xrsRhs (frhs : List FSym) (b ge : ℕ) : ℕ → ℕ → Option (List RhsSym)
  | 0, gi => if gi < ge then none else some []
  | rounds + 1, gi =>
    if gi < ge then
      (getItem frhs ((gi : ℤ) - b)).bind fun c =>
        match c with
        | .var xn stop => (xrsRhs frhs b ge rounds stop).map (.var xn :: ·)
        | .word f => (xrsRhs frhs b ge rounds (gi + 1)).map (.word f :: ·)
    else some []

/-- `xrs_str`: no rule without a span, or where an index fails. -/
def xrsStr (f : List String) (root : Node Attr) : Option Rule :=
  root.attr.span.bind fun (b, e) =>
    (root.xrsLhs b (((f.drop b).take (e - b)).map .word)).bind fun (lhs, frhs) =>
      (xrsRhs frhs b e e b).map fun rhs => ⟨lhs, rhs⟩

/-- `frontier`: the nodes with a span, from the top. -/
def Node.ruleNodes (t : Node Attr) : List (Node Attr) := t.preorder.filter fun c => c.attr.span ≠ none

def allRules (f : List String) (t : Node Attr) : Option (List Rule) := t.ruleNodes.mapM (xrsStr f)

end Code

/-- The nodes found below some nodes have fewer below them. -/
theorem Nodes.size_lt_of_mem_xrsfrontier {ts : Nodes Attr} {c : Node Attr}
    (h : c ∈ ts.xrsfrontier) : c.children.size < ts.size := by
  induction ts with
  | nil => exact absurd h List.not_mem_nil
  | node attr children rest ihc ihr =>
    rw [xrsfrontier] at h
    rw [size]
    rcases List.mem_append.mp h with h | h
    · by_cases hspan : attr.span ≠ none
      · rw [if_pos hspan] at h
        rw [List.mem_singleton.mp h]
        show children.size < _
        omega
      · rw [if_neg hspan] at h
        have := ihc h
        omega
    · have := ihr h
      omega

/-- `xrs_deriv`, with the counter before and after. -/
def xrsDeriv (t : Node Attr) (rulei : ℕ) : Node ℕ × ℕ :=
  let found := t.children.xrsfrontier.attach.foldl (fun (derivs : Nodes ℕ × ℕ) c =>
    let (d, next) := xrsDeriv c.1 derivs.2
    (derivs.1.append (.node d.attr d.children .nil), next)) (.nil, rulei + 1)
  (⟨rulei, found.1⟩, found.2)
termination_by t.children.size
decreasing_by exact Nodes.size_lt_of_mem_xrsfrontier c.2

def derivationTree (t : Node Attr) : Node ℕ := (xrsDeriv t 0).1

/-- The derivations below some nodes, in one recursion. -/
def Nodes.xrsDerivs : Nodes Attr → ℕ → Nodes ℕ × ℕ
  | nil, rulei => (nil, rulei)
  | node attr children rest, rulei =>
    if attr.span ≠ none then
      let below := children.xrsDerivs (rulei + 1)
      let behind := rest.xrsDerivs below.2
      (node rulei below.1 behind.1, behind.2)
    else
      let below := children.xrsDerivs rulei
      let behind := rest.xrsDerivs below.2
      (below.1.append behind.1, behind.2)

theorem Nodes.append_assoc {α : Type*} (ts us vs : Nodes α) :
    (ts.append us).append vs = ts.append (us.append vs) := by
  induction ts with
  | nil => rfl
  | node attr children rest _ ih => rw [append, append, append, ih]

/-- The loop over the nodes found, when each gives what the one recursion does. -/
theorem foldl_xrsDeriv (ts : Nodes Attr) : ∀ (derivs : Nodes ℕ) (rulei : ℕ),
    (∀ c ∈ ts.xrsfrontier, ∀ i, xrsDeriv c i =
      (⟨i, (c.children.xrsDerivs (i + 1)).1⟩, (c.children.xrsDerivs (i + 1)).2)) →
    ts.xrsfrontier.foldl (fun (derivs : Nodes ℕ × ℕ) c =>
        ((derivs.1.append (.node (xrsDeriv c derivs.2).1.attr (xrsDeriv c derivs.2).1.children .nil)),
          (xrsDeriv c derivs.2).2)) (derivs, rulei) =
      (derivs.append (ts.xrsDerivs rulei).1, (ts.xrsDerivs rulei).2) := by
  induction ts with
  | nil =>
    intro derivs rulei _
    rw [Nodes.xrsDerivs, Nodes.append_nil]
    rfl
  | node attr children rest ihc ihr =>
    intro derivs rulei h
    rw [Nodes.xrsfrontier] at h ⊢
    rw [List.foldl_append, Nodes.xrsDerivs]
    have hrest : ∀ c ∈ rest.xrsfrontier, ∀ i, xrsDeriv c i =
        (⟨i, (c.children.xrsDerivs (i + 1)).1⟩, (c.children.xrsDerivs (i + 1)).2) :=
      fun c hc => h c (List.mem_append_right _ hc)
    by_cases hspan : attr.span ≠ none
    · simp only [hspan, if_true, ne_eq, not_false_eq_true] at h ⊢
      have hself := h ⟨attr, children⟩ (List.mem_append_left _ (List.mem_singleton_self _)) rulei
      rw [List.foldl_cons, List.foldl_nil]
      simp only [hself]
      rw [ihr _ _ hrest, Nodes.append_assoc]
      rfl
    · simp only [hspan, if_false] at h ⊢
      rw [ihc _ _ fun c hc => h c (List.mem_append_left _ hc), ihr _ _ hrest, Nodes.append_assoc]

theorem xrsDeriv_eq (t : Node Attr) (rulei : ℕ) : xrsDeriv t rulei =
    (⟨rulei, (t.children.xrsDerivs (rulei + 1)).1⟩, (t.children.xrsDerivs (rulei + 1)).2) := by
  induction hn : t.children.size using Nat.strongRecOn generalizing t rulei with
  | ind n ih =>
    subst hn
    have hloop := foldl_xrsDeriv t.children .nil (rulei + 1) fun c hc i =>
      ih _ (Nodes.size_lt_of_mem_xrsfrontier hc) c i rfl
    rw [xrsDeriv]
    have hattach := List.foldl_attach (l := t.children.xrsfrontier)
      (f := fun (derivs : Nodes ℕ × ℕ) c =>
        ((derivs.1.append (.node (xrsDeriv c derivs.2).1.attr (xrsDeriv c derivs.2).1.children .nil)),
          (xrsDeriv c derivs.2).2)) (b := ((.nil, rulei + 1) : Nodes ℕ × ℕ))
    rw [hloop] at hattach
    simp only at hattach ⊢
    rw [hattach]
    rfl

end Carmel.Gextract
