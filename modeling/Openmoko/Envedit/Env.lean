import Openmoko.Library.CString

/-!
# The U-Boot environment editor

An environment image is a CRC of four bytes, the entries `name=value`, each with its terminator, and
an empty entry at the end; zeros fill what is left of it. `var.c` keeps the variables in an array
that grows, with slots that were deleted in between.
-/

namespace Openmoko.Envedit

structure Var where
  name : List Byte
  value : List Byte
  deriving DecidableEq, Repr

/-- An element of `vars`; a deleted one holds two null pointers. -/
abbrev Slot := Option Var

def replaceValue (name value : List Byte) : List Slot → Option (List Slot)
  | [] => none
  | some v :: vars =>
    if v.name = name then some (some ⟨v.name, value⟩ :: vars)
    else (replaceValue name value vars).map (some v :: ·)
  | none :: vars => (replaceValue name value vars).map (none :: ·)

def fillUnused (name value : List Byte) : List Slot → Option (List Slot)
  | [] => none
  | slot :: vars =>
    match fillUnused name value vars with
    | some vars => some (slot :: vars)
    | none => if slot = none then some (some ⟨name, value⟩ :: vars) else none

/-- The array grows from `n` to `2 * (n + 1)` slots. -/
def grow (name value : List Byte) (vars : List Slot) : List Slot :=
  vars ++ some ⟨name, value⟩ :: List.replicate (vars.length + 1) none

def setVar (vars : List Slot) (name value : List Byte) : List Slot :=
  match replaceValue name value vars with
  | some vars => vars
  | none =>
    match fillUnused name value vars with
    | some vars => vars
    | none => grow name value vars

def delVar (name : List Byte) : List Slot → List Slot
  | [] => []
  | some v :: vars => if v.name = name then none :: vars else some v :: delVar name vars
  | none :: vars => none :: delVar name vars

def comp : Slot → Slot → Int
  | some a, some b => strcmp a.name b.name
  | some _, none => 1
  | none, some _ => -1
  | none, none => 0

def resetVar (vars : List Slot) : List Slot := vars.mergeSort fun a b => comp a b ≤ 0

/-- A call that changes the array. -/
inductive Edit where
  | set (v : Var)
  | del (name : List Byte)
  deriving DecidableEq, Repr

def Edit.apply (vars : List Slot) : Edit → List Slot
  | .set v => setVar vars v.name v.value
  | .del name => delVar name vars

inductive Message where
  | sizeMismatch (got : Nat)
  | crcMismatch (orig crc : UInt32)
  | unterminatedEntry (entry : List Byte)
  | invalidEntry (entry : List Byte)
  | emptyEntry (entry : List Byte)
  deriving DecidableEq, Repr

/-- What the program ends with; a store outside the image is undefined behaviour. -/
inductive Exit where
  | environmentTooSmall (got : Nat)
  | crcError
  | environmentTooBig
  | outOfBounds
  deriving DecidableEq, Repr

def store (env : List Byte) (p : Nat) (bytes : List Byte) : Except Exit (List Byte) :=
  if p + bytes.length ≤ env.length then
    .ok (env.take p ++ bytes ++ env.drop (p + bytes.length))
  else .error .outOfBounds

def EQUALS : Byte := 61

/-- `"%s=%s"` -/
def Var.text (v : Var) : List Byte := v.name ++ EQUALS :: v.value

def printVars : List Slot → List Byte
  | [] => []
  | none :: curr => printVars curr
  | some v :: curr => v.text ++ LF :: printVars curr

def printEnv (vars : List Slot) : List Byte := printVars (resetVar vars)

def sprintf (env : List Byte) (p : Nat) (text : List Byte) : Except Exit (List Byte × Nat) := do
  let env ← store env p (text ++ [NUL])
  return (env, text.length)

def writeVars (envSize : Nat) : List Slot → List Byte → Nat → Except Exit (List Byte)
  | [], env, _ => .ok env
  | none :: curr, env, p => writeVars envSize curr env p
  | some v :: curr, env, p =>
    if envSize < p + v.name.length + v.value.length + 3 then .error .environmentTooBig
    else
      match sprintf env p v.text with
      | .error exit => .error exit
      | .ok (env, n) => writeVars envSize curr env (p + n + 1)

/-- Little endian, as `env[i] = crc >> 8 * i` stores it. -/
def crcBytes (crc : UInt32) : List Byte :=
  [crc.toUInt8, (crc >>> 8).toUInt8, (crc >>> 16).toUInt8, (crc >>> 24).toUInt8]

def loadCrc : List Byte → UInt32
  | b0 :: b1 :: b2 :: b3 :: _ =>
    b0.toUInt32 ||| b1.toUInt32 <<< 8 ||| b2.toUInt32 <<< 16 ||| b3.toUInt32 <<< 24
  | _ => 0

section Image

variable (crc32 : List Byte → UInt32) (envSize : Nat)

def crcEnv (env : List Byte) : UInt32 := crc32 (env.drop 4)

def writeEnv (vars : List Slot) : Except Exit (List Byte) := do
  let env ← writeVars envSize (resetVar vars) (List.replicate envSize NUL) 4
  store env 0 (crcBytes (crcEnv crc32 env))

/-- What a short file lacks is zero, what a long one has too much is only counted. -/
def readEnv (warnCrc : Bool) (file : List Byte) : List Message × Except Exit (List Byte) :=
  let got := (file.take envSize).length
  if got < 6 then ([], .error (.environmentTooSmall got))
  else
    let env := file.take envSize ++ List.replicate (envSize - got) NUL
    let size := if file.length = envSize then [] else [.sizeMismatch file.length]
    let orig := loadCrc env
    let crc := crcEnv crc32 env
    if crc = orig then (size, .ok env)
    else (size ++ [.crcMismatch orig crc], if warnCrc then .ok env else .error .crcError)

end Image

/-- `parse_env` from `p` to the end of the image; the byte behind it is NUL. -/
def parseEnv (rest : List Byte) (vars : List Slot) : List Message × List Slot :=
  if rest = [] then ([], vars)
  else
    let entry := cstr rest
    if entry = [] then ([], vars)
    else if entry.length = rest.length then ([.unterminatedEntry entry], vars)
    else
      let next := rest.drop (entry.length + 1)
      match strchr entry EQUALS with
      | none =>
        let (messages, vars) := parseEnv next vars
        (.invalidEntry entry :: messages, vars)
      | some eq =>
        if entry.length = eq + 1 then
          let (messages, vars) := parseEnv next vars
          (.emptyEntry entry :: messages, vars)
        else parseEnv next (setVar vars (entry.take eq) (entry.drop (eq + 1)))
termination_by rest.length
decreasing_by
  all_goals
    have hpos : 0 < rest.length := List.length_pos_of_ne_nil (by assumption)
    rw [List.length_drop]
    omega

end Openmoko.Envedit
