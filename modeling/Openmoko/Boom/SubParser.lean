import Openmoko.Library.CString
import Mathlib.Logic.Function.Basic

/-!
# Substitution rules (`sub` in `parser.pl`)

A line either begins a rule or continues the one before. The parser pushes a rule at the end of each
line and pops it again when a continuation follows. Two stacks hold the conditions and assignments
of the enclosing blocks, innermost first.
-/

namespace Openmoko.Boom

abbrev Word := List Byte

/-- A hash from field names. -/
abbrev Table (α : Type) := Word → Option α

/-- `[ original-pattern, RE1, RE2 ]`; the shortcut for `REF` leaves the first out. -/
abbrev Pattern := List Word

def ARROW : Word := [45, 62]
def OPEN : Word := [123]
def CLOSE : Word := [125]
def BANG : Word := [33]
def EQ : Byte := 61

/-- A line without its comment: leading blanks, and what `split` finds behind them. -/
structure SubLine where
  indent : List Byte
  words : List Word
  deriving DecidableEq, Repr

def column (at_ : Nat) : List Byte → Option Nat
  | [] => some at_
  | c :: indent =>
    if c = 32 then column (at_ + 1) indent
    else if c = 9 then column ((at_ + 8) / 8 * 8) indent
    else none

def uc (word : Word) : Word := word.map fun c => if islower c then c - 32 else c

/-- What stands before the first `=`, in upper case. -/
def fieldOf (word : Word) : Word := uc (word.takeWhile (· ≠ EQ))

def valueOf (word : Word) : Word := (word.dropWhile (· ≠ EQ)).tail

section Parser

-- `sub_pattern` makes two regular expressions of a pattern and numbers the values to convert.
variable {γ : Type} (subPattern : γ → Word → Word → γ × Word × Word)

structure SubState (γ : Type) where
  cvn : γ
  matchStack : List (Table Pattern)
  actionStack : List (Table Word)
  last : Nat
  lastAction : Bool
  mayCont : Bool
  matchTable : List (Table Pattern)
  actionTable : List (Table Word)
  endTable : List Bool

def noFields {α : Type} : Table α := fun _ => none

/-- `$stack[0]{$field} = $value` -/
def setField {α : Type} (field : Word) (value : α) (stack : List (Table α)) : List (Table α) :=
  Function.update (stack.headD noFields) field (some value) :: stack.tail

def override {α : Type} (outer inner : Table α) : Table α := fun field =>
  (inner field).or (outer field)

/-- The fields of all levels, from the outermost to the innermost. -/
def flatten {α : Type} (stack : List (Table α)) : Table α := stack.reverse.foldl override noFields

def condition (cvn : γ) (word : Word) : γ × Word × Pattern :=
  if EQ ∈ word then
    let (cvn, re1, re2) := subPattern cvn (fieldOf word) (valueOf word)
    (cvn, fieldOf word, [valueOf word, re1, re2])
  else
    let (cvn, re1, re2) := subPattern cvn (ascii "REF") word
    (cvn, ascii "REF", [re1, re2])

variable (s : SubState γ)

def addCondition (word : Word) : SubState γ :=
  let read := condition subPattern s.cvn word
  { s with cvn := read.1, matchStack := setField read.2.1 read.2.2 s.matchStack }

def addAssignment (word : Word) : SubState γ :=
  { s with actionStack := setField (fieldOf word) (valueOf word) s.actionStack }

def readConditions (f : Word) (s : SubState γ) : List Word → SubState γ × Word × List Word
  | [] => (s, f, [])
  | word :: words =>
    if word = ARROW ∨ word = OPEN ∨ word = CLOSE ∨ word = BANG then (s, word, words)
    else readConditions word (addCondition subPattern s word) words

def readAssignments (f : Word) (s : SubState γ) :
    List Word → Option (SubState γ × Word × List Word)
  | [] => some (s, f, [])
  | word :: words =>
    if word = OPEN ∨ word = BANG then some (s, word, words)
    else if EQ ∈ word then readAssignments word (addAssignment s word) words
    else none

def readWords (words : List Word) : Option (SubState γ × Word × List Word) :=
  let (s, f, words) := if s.lastAction then (s, [], words) else readConditions subPattern [] s words
  let s := if f = ARROW then { s with lastAction := true } else s
  if s.lastAction then readAssignments f s words else some (s, f, words)

def finish (f : Word) (words : List Word) : Option (SubState γ) :=
  if f = OPEN then
    if words ≠ [] then none
    else some
      { s with
        mayCont := false
        matchStack := noFields :: s.matchStack
        actionStack := noFields :: s.actionStack }
  else if f = CLOSE then
    if words ≠ [] then none
    else some
      { s with
        mayCont := false
        matchStack := s.matchStack.tail
        actionStack := s.actionStack.tail }
  else if f = BANG ∧ words ≠ [] then none
  else some
    { s with
      mayCont := f ≠ BANG
      matchTable := s.matchTable ++ [flatten s.matchStack]
      actionTable := s.actionTable ++ [flatten s.actionStack]
      endTable := s.endTable ++ [decide (f = BANG)] }

def popRule : SubState γ :=
  { s with
    matchTable := s.matchTable.dropLast
    actionTable := s.actionTable.dropLast
    endTable := s.endTable.dropLast }

def newRule (column : Nat) (s : SubState γ) : SubState γ :=
  { s with
    matchStack := noFields :: s.matchStack.tail
    actionStack := noFields :: s.actionStack.tail
    lastAction := false
    last := column }

def readLine (words : List Word) : Option (SubState γ) := do
  let (s, f, rest) ← readWords subPattern s words
  finish s f rest

def sub (line : SubLine) : Option (SubState γ) := do
  let column ← column 0 line.indent
  readLine subPattern (if s.mayCont ∧ s.last < column then popRule s else newRule column s) line.words

def startSub (cvn : γ) : SubState γ :=
  { cvn
    matchStack := []
    actionStack := []
    last := 0
    lastAction := false
    mayCont := false
    matchTable := []
    actionTable := []
    endTable := [] }

def parseSub (cvn : γ) (lines : List SubLine) : Option (SubState γ) :=
  lines.foldlM (sub subPattern) (startSub cvn)

end Parser

end Openmoko.Boom
