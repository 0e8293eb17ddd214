import Openmoko.Fped.Expr
import Openmoko.Library.Buffer
import Mathlib.Data.Nat.Digits.Defs

/-!
# Expanding names (`expr.c`)

A name is a template: `$id` and `${id}` stand for the value of a variable. The result is built in a
buffer that is resized at each of them. A number that an `int` cannot hold is an outcome of its own:
the language does not define what happens then.
-/

namespace Openmoko.Fped.Template

inductive ExpandError where
  | incompleteName
  | invalidCharacter
  | unfinished
  | undefinedVariable (name : Name)
  deriving DecidableEq, Repr

inductive ExpandStop where
  -- after `fail`, the result is NULL
  | failed (error : ExpandError)
  | aborted
  | overflow
  | outOfBounds
  deriving DecidableEq, Repr

def INT_MAX : ℤ := 0x7fffffff

def INT_MIN : ℤ := -0x80000000

def toInt (n : ℤ) : Except ExpandStop ℤ :=
  if INT_MIN ≤ n ∧ n ≤ INT_MAX then .ok n else .error .overflow

def NUL : Char := '\x00'

def isIdChar (c : Char) (first : Bool) : Bool :=
  if ('A' ≤ c && c ≤ 'Z') || ('a' ≤ c && c ≤ 'z') || c == '_' then true
  else if first then false
  else '0' ≤ c && c ≤ '9'

def isId : Name → Bool
  | [] => false
  | c :: s => isIdChar c true && s.all (isIdChar · false)

def formatExponent (exponent : ℤ) : List Char :=
  (if exponent < 0 then ['-'] else []) ++ Nat.toDigits 10 exponent.natAbs

def strUnit (n : Num) : List Char :=
  if n.exponent = 0 then []
  else
    let unit := match n.type with
      | .mm => ['m', 'm']
      | .mil => ['m', 'i', 'l']
    if n.exponent = 1 then unit else unit ++ '^' :: formatExponent n.exponent

/-- What the variables seen from a frame evaluate to, and `%lg`, which prints six digits at most. -/
structure Environment extends VarEnv where
  lg : ℚ → List Char
  lgShort : ∀ n, (lg n).length ≤ 13
  exponentInt : ∀ name value, evalVar name = some value →
    INT_MIN ≤ value.exponent ∧ value.exponent ≤ INT_MAX
  named : ∀ name, evalStringVar name ≠ none ∨ evalVar name ≠ none → isId name = true

def NUM_BUF_SIZE : ℕ := 100

def valueString (env : Environment) (var : Name) : Option (ℕ × List Char) :=
  match env.evalStringVar var with
  | some string => some (string.length, string)
  | none =>
    match env.evalVar var with
    | some value =>
      let text := env.lg value.n ++ strUnit value
      some (text.length, text.take (NUM_BUF_SIZE - 1))
    | none => none

/-- The loop behind `$`. -/
def readId : List Char → Name
  | [] => []
  | c :: s => if isIdChar c true then c :: s.takeWhile (isIdChar · false) else []

/-- The loop behind `${`. -/
def readBraced (first : Bool) : List Char → Except ExpandError (Name × List Char)
  | [] => .error .unfinished
  | c :: s =>
    if c = '}' then .ok ([], s)
    else if !isIdChar c first then .error .invalidCharacter
    else
      match readBraced false s with
      | .ok (var, rest) => .ok (c :: var, rest)
      | .error e => .error e

def readReference : List Char → Except ExpandError (Name × ℕ × List Char)
  | '{' :: s =>
    match readBraced true s with
    | .ok (var, rest) => .ok (var, var.length + 3, rest)
    | .error e => .error e
  | s =>
    if readId s = [] then .error (if s ≠ [] then .invalidCharacter else .incompleteName)
    else .ok (readId s, (readId s).length + 1, s.drop (readId s).length)

theorem length_readBraced {first : Bool} {s rest : List Char} {var : Name}
    (h : readBraced first s = .ok (var, rest)) : var.length + 1 + rest.length = s.length := by
  induction s generalizing first var with
  | nil => cases h
  | cons c s ih =>
    rw [readBraced] at h
    split at h
    · cases h
      exact Nat.add_comm _ _
    · split at h
      · cases h
      · split at h
        · next heq =>
          cases h
          have hs := ih heq
          rw [List.length_cons, List.length_cons]
          omega
        · cases h

theorem length_readReference {s rest : List Char} {var : Name} {n : ℕ}
    (h : readReference s = .ok (var, n, rest)) : rest.length ≤ s.length := by
  unfold readReference at h
  split at h
  · split at h
    · next heq =>
      cases h
      have hs := length_readBraced heq
      rw [List.length_cons]
      omega
    · cases h
  · split at h
    · cases h
    · cases h
      rw [List.length_drop]
      omega

structure Expansion where
  len : ℤ
  i : ℤ
  buf : Buffer Char

namespace Expansion

/-- The argument `len+1` of `alloc_size` and `realloc`; a negative one is a size that is not to be
had. -/
def allocSize (len : ℤ) : Except ExpandStop ℕ := do
  let size ← toInt (len + 1)
  if size < 0 then .error .aborted else .ok size.toNat

def put (st : Expansion) (c : Char) : Except ExpandStop Expansion :=
  match st.buf.write st.i.toNat c with
  | some buf => do
    let i ← toInt (st.i + 1)
    return { st with buf, i }
  | none => .error .outOfBounds

def putValue (st : Expansion) (length : ℕ) (string : List Char) :
    Except ExpandStop Expansion := do
  let valueLen ← toInt length
  let len ← toInt (st.len + valueLen)
  let size ← allocSize len
  match (st.buf.realloc size).writeAll st.i.toNat (string ++ [NUL]) with
  | some buf => do
    let i ← toInt (st.i + valueLen)
    return { len, i, buf }
  | none => .error .outOfBounds

def close (st : Expansion) : Except ExpandStop (Buffer Char) :=
  match st.buf.write st.i.toNat NUL with
  | some buf => .ok buf
  | none => .error .outOfBounds

end Expansion

def expandFrom (frame : Option Environment) :
    List Char → Expansion → Except ExpandStop (Buffer Char)
  | [], st => st.close
  | c :: s, st =>
    if c ≠ '$' then do
      let st ← st.put c
      expandFrom frame s st
    else
      match h : readReference s with
      | .error e => .error (.failed e)
      | .ok (var, n, rest) =>
        have := length_readReference h
        let st := { st with len := st.len - n }
        match frame with
        | none => expandFrom frame rest st
        | some env =>
          match valueString env var with
          | none => .error (.failed (.undefinedVariable var))
          | some (length, string) => do
            let st ← st.putValue length string
            expandFrom frame rest st
termination_by s => s.length

def expand (name : List Char) (frame : Option Environment) : Except ExpandStop (Buffer Char) := do
  let len ← toInt name.length
  let size ← Expansion.allocSize len
  expandFrom frame name { len, i := 0, buf := Buffer.alloc size }

end Openmoko.Fped.Template
