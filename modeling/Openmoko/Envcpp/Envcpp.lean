import Mathlib.Data.List.DropRight

/-!
# The preprocessor of environment files (`envcpp.pl`, `envedit.pl`)

Both programs read the lines of a file in the same loop: conditionals decide which lines are
skipped, macros are expanded in the others, comments are removed, and indented lines are joined to
the line before them. `envcpp.pl` prints the lines it has put together, and `envedit.pl` takes them
as settings of variables.
-/

namespace Openmoko.Envcpp

abbrev Line := List Char

/-- `\s` -/
def blank (c : Char) : Bool :=
  c = ' ' || c = '\t' || c = '\n' || c = '\r' || c = '\x0c'

/-- `\w` -/
def wordChar (c : Char) : Bool := c.isAlphanum || c = '_'

/-- `\b` after a word. -/
def atBoundary : Line → Bool
  | [] => true
  | c :: _ => !wordChar c

def skip (word text : Line) : Option Line :=
  if word <+: text then some (text.drop word.length) else none

variable (text : Line)

/-- `\s+(\S+)`, and what follows. -/
def readName : Option (Line × Line) :=
  let rest := text.dropWhile blank
  let name := rest.takeWhile (!blank ·)
  if text.takeWhile blank = [] ∨ name = [] then none
  else some (name, rest.dropWhile (!blank ·))

/-- `/^\s*#if(n?)def\s+(\S+)/`. An `n` after `#if` is taken, since no `def` begins with it. -/
def readIf : Option (Bool × Line) := do
  let rest ← skip "#if".toList (text.dropWhile blank)
  let negated := rest.head? = some 'n'
  let rest ← skip "def".toList (if negated then rest.tail else rest)
  let (name, _) ← readName rest
  return (negated, name)

/-- `/^\s*#else\b/`, `/^\s*#endif\b/` -/
def isWord (word text : Line) : Bool :=
  match skip word (text.dropWhile blank) with
  | some rest => atBoundary rest
  | none => false

/-- `/^\s*#define\s+(\S+)(\s*(.*?))?\s*$/` -/
def readDefine : Option (Line × Line) := do
  let rest ← skip "#define".toList (text.dropWhile blank)
  let (name, rest) ← readName rest
  return (name, (rest.dropWhile blank).rdropWhile blank)

inductive Directive where
  | ifdef (negated : Bool) (name : Line)
  | else
  | endif
  | none
  deriving DecidableEq, Repr

def directive : Directive :=
  match readIf text with
  | some (negated, name) => .ifdef negated name
  | none =>
    if isWord "#else".toList text then .else
    else if isWord "#endif".toList text then .endif
    else .none

abbrev Hash (α : Type) := List (Line × α)

namespace Hash

variable {α : Type}

def get (hash : Hash α) (key : Line) : Option α := hash.lookup key

def put (hash : Hash α) (key : Line) (value : α) : Hash α :=
  (key, value) :: hash.filter (·.1 ≠ key)

end Hash

inductive Program where
  | envcpp
  | envedit
  deriving DecidableEq, Repr

/-- Why a program stops before the end. `expansion` stands for a macro whose name is no pattern. -/
inductive Exit where
  | elseWithoutIf (lineno : ℕ)
  | endifWithoutIf (lineno : ℕ)
  | redefinition (lineno : ℕ) (name : Line)
  | firstContinuation
  | invalidSetting (line : Line)
  | expansion
  deriving DecidableEq, Repr

structure State where
  -- the number of the last line read
  lineno : ℕ
  nTrue : ℕ
  nFalse : ℕ
  -- a variable that was removed stays without a value
  env : Hash (Option Line)
  defs : Hash Line
  -- what was put together so far
  line : Option Line
  printed : List Line
  deriving DecidableEq, Repr

namespace State

def start (env : Hash (Option Line)) (defs : Hash Line) : State :=
  { lineno := 0, nTrue := 0, nFalse := 0, env, defs, line := none, printed := [] }

def isDefined (s : State) (name : Line) : Bool :=
  ((s.env.get name).getD none).isSome || (s.defs.get name).isSome

def conditional (s : State) (text : Line) : Except Exit State :=
  match directive text with
  | .ifdef negated name =>
    if s.nFalse = 0 ∧ s.isDefined name = !negated then .ok { s with nTrue := s.nTrue + 1 }
    else .ok { s with nFalse := s.nFalse + 1 }
  | .else =>
    if s.nFalse = 0 ∧ s.nTrue = 0 then .error (.elseWithoutIf s.lineno)
    else if s.nFalse = 0 then .ok { s with nTrue := s.nTrue - 1, nFalse := s.nFalse + 1 }
    else if s.nFalse = 1 then .ok { s with nFalse := s.nFalse - 1, nTrue := s.nTrue + 1 }
    else .ok s
  | .endif =>
    if s.nFalse = 0 ∧ s.nTrue = 0 then .error (.endifWithoutIf s.lineno)
    else if s.nFalse ≠ 0 then .ok { s with nFalse := s.nFalse - 1 }
    else .ok { s with nTrue := s.nTrue - 1 }
  | .none => .ok s

def define (s : State) (text : Line) : Except Exit State :=
  match readDefine text with
  | none => .ok s
  | some (name, value) =>
    match s.defs.get name with
    | some value' =>
      if value' ≠ value then .error (.redefinition s.lineno name)
      else .ok { s with defs := s.defs.put name value }
    | none => .ok { s with defs := s.defs.put name value }

/-- `set` of `envedit.pl`, for `/^([^=]+)=\s*(.+)?$/`. -/
def set (s : State) (text : Line) : Option State :=
  let var := text.takeWhile (· ≠ '=')
  match text.dropWhile (· ≠ '=') with
  | [] => none
  | _ :: rest =>
    let value := rest.dropWhile blank
    if var = [] ∨ '\n' ∈ value then none
    else some { s with env := s.env.put var (if value ≠ [] then some value else none) }

end State

/-- `s/#.*//` -/
def stripComment : Line :=
  text.takeWhile (· ≠ '#') ++ (text.dropWhile (· ≠ '#')).dropWhile (· ≠ '\n')

namespace Program

variable (program : Program) (expand : Hash Line → Line → Option Line)

def emit (s : State) (text : Line) : Except Exit State :=
  match program with
  | envcpp => .ok { s with printed := s.printed ++ [text] }
  | envedit =>
    match s.set text with
    | some s => .ok s
    | none => .error (.invalidSetting text)

def emitLine (s : State) : Except Exit State :=
  match s.line with
  | some line => program.emit s line
  | none => .ok s

def takeLine (s : State) (text : Line) : Except Exit State := do
  let s ← s.define text
  match expand s.defs text with
  | none => .error .expansion
  | some text =>
    let text := (stripComment text).rdropWhile blank
    if text.all blank then return s
    else if (text.head?.map blank).getD false then
      match s.line with
      | none => .error .firstContinuation
      | some line => return { s with line := some (line ++ ' ' :: text.dropWhile blank) }
    else
      let s ← program.emitLine s
      return { s with line := some text }

def chop (raw : Line) : Line := raw.dropLast

def turn (s : State) (raw : Line) : Except Exit State := do
  let s ← { s with lineno := s.lineno + 1 }.conditional (chop raw)
  if s.nFalse ≠ 0 then return s
  else program.takeLine expand s (chop raw)

/-- `<FILE>`: every line with its newline, which the last one may lack. -/
def readLines : List Char → List Line
  | [] => []
  | c :: text =>
    if c = '\n' then [c] :: readLines text
    else
      match readLines text with
      | [] => [[c]]
      | raw :: raws => (c :: raw) :: raws

def processFile (s : State) (text : List Char) : Except Exit State := do
  let s ← (readLines text).foldlM (program.turn expand) { s with lineno := 0, line := none }
  program.emitLine s

end Program

end Openmoko.Envcpp
