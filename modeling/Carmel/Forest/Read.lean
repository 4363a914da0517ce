/-
# The two forest readers

`GENIO_read` reads from a stream, and another reader takes its nodes from a `StackAlloc`.
Both go over the characters once, with a stack of the open nodes and a table of named nodes.
The readers throw, run out of space, or are undefined: at a closing parenthesis that nothing
opened, or a name that was never defined.
-/

import Carmel.Forest.Nodes

namespace Carmel.Forest

open Carmel.Math

inductive ReadFailure
  | failed
  | outOfSpace
  | threw (message : String)
  | undefined
deriving DecidableEq, Repr

/-- The variables of a reader. `stop` is one past the last node; `good` is the
state of the stream, and `first` is gone once a character has been read. -/
structure ReadState where
  memory : ℕ → ForestNode
  stop : ℕ
  openParens : List ℕ
  backrefs : Backrefs
  followsParen : Bool
  maxRuleid : ℕ
  first : Bool
  good : Bool
  text : List Char

namespace ReadState

/-- `in >> c`. -/
def extract (s : ReadState) : Option (Char × List Char) :=
  if s.good then
    match skipSpaces s.text with
    | [] => none
    | c :: text => some (c, text)
  else none

def setLabel (s : ReadState) (label : Label) : ReadState :=
  { s with memory := Function.update s.memory s.stop { s.memory s.stop with label := label } }

def setNext (s : ReadState) (i next : ℕ) : ReadState :=
  { s with memory := Function.update s.memory i { s.memory i with next := next } }

/-- `STOPNEXT`: the node is complete without children. -/
def stopNext (s : ReadState) : ReadState :=
  { s.setNext s.stop (s.stop + 1) with stop := s.stop + 1 }

/-- `in >> rule_id` when the next character is the digit `d`. A number that is no
`unsigned` leaves the largest one and a stream that has failed. -/
def readRule (s : ReadState) (d : Char) (text : List Char) : ℕ × ReadState :=
  match readNumber (d :: text) with
  | none => (0, s)
  | some (n, text) =>
    let rule := if n < 4294967296 then n else 4294967295
    (rule, { s with
      maxRuleid := max s.maxRuleid rule, good := n < 4294967296, text := text, first := false })

/-- `EXPECTI(in >> backref_id); EXPECTI(in.get(c))`. -/
def readBackref (text : List Char) : Except ReadFailure (ℕ × Char × List Char) :=
  match readNumber (skipSpaces text) with
  | none => .error (.threw "expected input failed: in >> backref_id")
  | some (_, []) => .error (.threw "expected input failed: in >> backref_id")
  | some (id, c :: text) => .ok (id, c, text)

/-- `EXPECTCH('R')`. -/
def expectR (text : List Char) : Except ReadFailure (List Char) :=
  match text with
  | [] => .error (.threw "expected input unavailable: 'R'")
  | c :: text => if c = 'R' then .ok text else .error (.threw "expected input failed: 'R'")

/-- The failure of `EXPECTI_FIRST(in >> c)` or of `EXPECTI(in >> c)`. -/
def noInput (s : ReadState) : ReadFailure :=
  if s.first then .failed else .threw "expected input failed: in >> c"

end ReadState

open ReadState

/-- One round of the loop of `GENIO_read`. The space ends where the `next` of the
first node says, until that node is complete. -/
def genioStep (s : ReadState) : Except ReadFailure ReadState :=
  if (s.memory 0).next ≤ s.stop then .error .outOfSpace
  else
    match s.extract with
    | none => .error s.noInput
    | some (c, text) =>
      if c = '#' then
        if s.followsParen then .error (.threw "Bad # following paren in Forest")
        else
          match readBackref text with
          | .error e => .error e
          | .ok (id, c, text) =>
            if c = '(' then
              .ok { s with
                backrefs := Function.update s.backrefs id (some s.stop)
                text := c :: text, first := false }
            else
              match s.backrefs id with
              | none => .error .undefined
              | some target =>
                .ok { (s.setLabel (.pointer target)).stopNext with
                  text := c :: text, first := false }
      else if c = '(' then
        .ok { s with followsParen := true, openParens := s.stop :: s.openParens,
                     text := text, first := false }
      else if c.isDigit && c ≠ '0' then
        let (rule, s) := s.readRule c text
        if s.followsParen then
          .ok { s.setLabel (.integer rule) with followsParen := false, stop := s.stop + 1 }
        else .ok (s.setLabel (.integer rule)).stopNext
      else if c = 'O' then
        match expectR text with
        | .error e => .error e
        | .ok text =>
          if s.followsParen then
            .ok { s.setLabel (.integer orInt) with
              followsParen := false, stop := s.stop + 1, text := text, first := false }
          else .error (.threw "OR not following paren in Forest")
      else if c = ')' then
        match s.openParens with
        | [] => .error .undefined
        | top :: openParens =>
          .ok { s.setNext top s.stop with openParens := openParens, text := text, first := false }
      else .error (.threw ("Forest: unexpected char " ++ c.toString))

/-- Whether `GENIO_read` goes on: nothing was read yet, or a parenthesis is open. -/
def ReadState.unfinished (s : ReadState) : Bool := s.stop = 0 || !s.openParens.isEmpty

/-- The loop of `GENIO_read`, of at most `fuel` rounds. -/
def genioLoop : ℕ → ReadState → Except ReadFailure ReadState
  | 0, s => if s.unfinished then .error .undefined else .ok s
  | fuel + 1, s =>
    if s.unfinished then
      match genioStep s with
      | .error e => .error e
      | .ok s => genioLoop fuel s
    else .ok s

/-- One round of the `StackAlloc` reader, and whether it is done. `limit` is what the
allocator has; `stop` is the next node it hands out. -/
def allocStep (limit : ℕ) (s : ReadState) : Except ReadFailure (Bool × ReadState) :=
  match s.extract with
  | none => .error s.noInput
  | some (c, text) =>
    if c = '#' then
      if s.followsParen then .error (.threw "Unexpected '#' following paren in Forest")
      else
        match readBackref text with
        | .error e => .error e
        | .ok (id, c, text) =>
          if c = '(' then
            .ok (false, { s with
              backrefs := Function.update s.backrefs id (some s.stop), followsParen := true
              openParens := s.stop :: s.openParens, text := text, first := false })
          else
            if limit ≤ s.stop then .error .outOfSpace
            else
              match s.backrefs id with
              | none => .error .undefined
              | some target =>
                .ok (false, { (s.setLabel (.pointer target)).stopNext with
                  text := c :: text, first := false })
    else if c = '(' then
      .ok (false, { s with followsParen := true, openParens := s.stop :: s.openParens,
                           text := text, first := false })
    else if c.isDigit && c ≠ '0' then
      let (rule, s) := s.readRule c text
      if limit ≤ s.stop then .error .outOfSpace
      else if s.followsParen then
        .ok (false, { s.setLabel (.integer rule) with followsParen := false, stop := s.stop + 1 })
      else .ok (s.openParens.isEmpty, (s.setLabel (.integer rule)).stopNext)
    else if c = 'O' then
      match expectR text with
      | .error e => .error e
      | .ok text =>
        if s.followsParen then
          if limit ≤ s.stop then .error .outOfSpace
          else
            .ok (false, { s.setLabel (.integer orInt) with
              followsParen := false, stop := s.stop + 1, text := text, first := false })
        else .error (.threw "OR not following paren in Forest")
    else if c = ')' then
      match s.openParens with
      | [] => .error .undefined
      | top :: openParens =>
        let s := if top ≠ s.stop then s.setNext top s.stop else s
        .ok (openParens.isEmpty, { s with openParens := openParens, text := text, first := false })
    else .error (.threw ("Forest: unexpected char " ++ c.toString))

def allocLoop (limit : ℕ) : ℕ → ReadState → Except ReadFailure ReadState
  | 0, _ => .error .undefined
  | fuel + 1, s =>
    match allocStep limit s with
    | .error e => .error e
    | .ok (true, s) => .ok s
    | .ok (false, s) => allocLoop limit fuel s

/-- A reader before its first character. -/
def ReadState.start (memory : ℕ → ForestNode) (maxRuleid : ℕ) (text : List Char) : ReadState where
  memory := memory
  stop := 0
  openParens := []
  backrefs := fun _ => none
  followsParen := false
  maxRuleid := maxRuleid
  first := true
  good := true
  text := text

/-- `end() = stop` at the end of both readers. -/
def ReadState.finish (s : ReadState) : ReadState := s.setNext 0 s.stop

/-- The forest that was read: the nodes before `stop`. -/
def ReadState.forest (s : ReadState) : FForest := ⟨(List.range' 0 s.stop).map s.memory⟩

/-- `GENIO_read` into a space of `space` nodes. Every round reads a character, so
the fuel is enough. -/
def genioRead (memory : ℕ → ForestNode) (space maxRuleid : ℕ) (text : List Char) :
    Except ReadFailure ReadState :=
  let s := (ReadState.start memory maxRuleid text).setNext 0 space
  (genioLoop (text.length + 1) s).map finish

/-- The `StackAlloc` reader with `limit` nodes to be had. -/
def allocRead (memory : ℕ → ForestNode) (limit maxRuleid : ℕ) (text : List Char) :
    Except ReadFailure ReadState :=
  (allocLoop limit (text.length + 1) (ReadState.start memory maxRuleid text)).map finish

end Carmel.Forest
