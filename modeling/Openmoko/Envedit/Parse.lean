import Mathlib.Data.List.DropRight
import Openmoko.Envedit.Env

/-!
# The settings parser (`parse.c`)

Settings are lines `name = value`. A value goes on over lines that are indented, and a name alone
without a value deletes the variable. A comment runs from `#` to the end of its line.
-/

namespace Openmoko.Envedit

def HASH : Byte := 35
def SPACE : Byte := 32

inductive ParseMode where
  -- waiting for variable
  | st0
  -- in variable name
  | stVar
  -- skipping whitespace after variable name
  | stSpcVar
  -- in value
  | stVal
  -- skipping whitespace in value
  | stSpcVal
  -- add whitespace to value, then skip
  | stSpcValAdd
  deriving DecidableEq, Repr

/-- A string that is used although it is a null pointer is undefined behaviour. -/
inductive ParseExit where
  | syntaxError (line : ℕ)
  | assertionFailed
  | aborted
  | nullPointer
  deriving DecidableEq, Repr

structure Parser where
  state : ParseMode
  var : Option (List Byte)
  value : Option (List Byte)
  line : ℕ
  comment : Bool
  nl : Bool
  -- the calls of `set_var` and `del_var`
  edits : List Edit
  deriving DecidableEq, Repr

def trim (s : List Byte) : List Byte := s.rdropWhile isspace

def addChar (base : Option (List Byte)) (c : Byte) : List Byte := cstr (base.getD [] ++ [c])

def alpha (c : Byte) : Bool := c == 95 || isupper c || islower c

def alnum (c : Byte) : Bool := if isdigit c then true else alpha c

namespace Parser

def start : Parser :=
  { state := .st0, var := none, value := none, line := 1, comment := false, nl := true,
    edits := [] }

def syntaxError (s : Parser) : Except ParseExit Parser := .error (.syntaxError s.line)

variable (s : Parser)

variable (c : Byte)

def addToVar : Parser := { s with var := some (addChar s.var c) }

def addToValue : Parser := { s with value := some (addChar s.value c) }

def trimValue : Except ParseExit Parser :=
  match s.value with
  | none => .error .nullPointer
  | some value => .ok { s with value := some (trim value) }

def flush : Except ParseExit Parser :=
  match s.var, s.value with
  | none, _ => .error .assertionFailed
  | some var, none => .ok { s with var := none, edits := s.edits ++ [.del var] }
  | some var, some value =>
    .ok { s with var := none, value := none, edits := s.edits ++ [.set ⟨var, trim value⟩] }

def inLine : Except ParseExit Parser :=
  match s.state with
  | .stVar =>
    if isspace c then .ok { s with state := .stSpcVar }
    else if c = EQUALS then .ok { s with state := .stSpcVal }
    else if !alnum c then s.syntaxError
    else .ok (s.addToVar c)
  | .stSpcVar =>
    if isspace c then .ok s
    else if c = EQUALS then .ok { s with state := .stSpcVal }
    else s.syntaxError
  | .stSpcValAdd =>
    if isspace c then .ok { s.addToValue SPACE with state := .stSpcVal }
    else .ok { s.addToValue c with state := .stVal }
  | .stSpcVal => if isspace c then .ok s else .ok { s.addToValue c with state := .stVal }
  | .stVal => if !isspace c then .ok (s.addToValue c) else .ok (s.addToValue SPACE)
  | .st0 => .error .aborted

/-- `case st_0` of `newline`. -/
def beginVar : Except ParseExit Parser :=
  if isspace c then s.syntaxError
  else if !alpha c then s.syntaxError
  else .ok { s.addToVar c with state := .stVar }

/-- `case st_spc_val` of `newline`; from the label `flush` on it goes on as in `st_0`. -/
def continueValue : Except ParseExit Parser :=
  if !isspace c then do
    let s ← s.flush
    beginVar { s with state := .st0 } c
  else .ok s

def newline : Except ParseExit Parser :=
  match s.state with
  | .st0 => s.beginVar c
  | .stVar => if !isspace c then s.syntaxError else inLine { s with state := .stSpcVar } c
  | .stSpcVar => s.inLine c
  | .stSpcValAdd | .stVal => do
    let s ← s.trimValue
    continueValue { s.addToValue SPACE with state := .stSpcVal } c
  | .stSpcVal => s.continueValue c

def doubleNewline : Except ParseExit Parser :=
  match s.state with
  | .st0 => .ok s
  | .stVar | .stSpcVar => s.syntaxError
  | .stVal | .stSpcVal => do
    let s ← s.flush
    return { s with state := .st0 }
  | .stSpcValAdd => .error .aborted

def takeChar : Except ParseExit Parser :=
  if c = LF then do
    let s ← if s.nl then s.doubleNewline else .ok s
    return { s with nl := true }
  else do
    let s ← if s.nl then s.newline c else s.inLine c
    return { s with nl := false }

/-- One turn of the loop of `parse_edit`. -/
def turn : Except ParseExit Parser :=
  let s := if c = HASH then { s with comment := true } else s
  let s := if c = LF then { s with line := s.line + 1 } else s
  if s.comment then
    if c ≠ LF then .ok s else takeChar { s with comment := false, nl := false } c
  else s.takeChar c

def finish : Except ParseExit (List Edit) :=
  match s.state with
  | .st0 => .ok s.edits
  | .stVar | .stSpcVar => .error (.syntaxError s.line)
  | .stVal | .stSpcVal => do
    let s ← s.flush
    return s.edits
  | .stSpcValAdd => .error .aborted

end Parser

def parseEdit (file : List Byte) : Except ParseExit (List Edit) := do
  let s ← file.foldlM Parser.turn Parser.start
  s.finish

end Openmoko.Envedit
