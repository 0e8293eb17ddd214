import Mathlib.Algebra.Order.Field.Rat
import Openmoko.Library.Decimal
import Openmoko.Boom.Match

/-!
# Characteristics (`bom2part`)

The characteristic of a part is compared with what the component asks for. Arithmetic is exact.
-/

namespace Openmoko.Boom

/-- `[0-9.]` -/
def isNumberByte (c : Byte) : Bool := isdigit c || c == POINT

def COMPAT_MULTIPLIERS : List Byte := [71, 77, 107, 109, 117, 110, 112]

def perlNumber (s : List Byte) : ℚ :=
  let whole := s.takeWhile isdigit
  let frac :=
    match s.dropWhile isdigit with
    | 46 :: rest => rest.takeWhile isdigit
    | _ => []
  decimalValue (whole ++ frac) / 10 ^ frac.length

def scale (v : ℚ) : Option Byte → ℚ
  | some 112 => v / 10 ^ 12
  | some 110 => v / 10 ^ 9
  | some 117 => v / 10 ^ 6
  | some 109 => v / 10 ^ 3
  | some 107 => v * 10 ^ 3
  | some 77 => v * 10 ^ 6
  | some 71 => v * 10 ^ 9
  | _ => v

inductive Rel where
  | gt
  | ge
  | lt
  | le
  deriving DecidableEq, Repr

def Rel.text : Rel → List Byte
  | gt => ascii ">"
  | ge => ascii ">="
  | lt => ascii "<"
  | le => ascii "<="

def Rel.Holds : Rel → ℚ → ℚ → Prop
  | gt, x, y => y < x
  | ge, x, y => y ≤ x
  | lt, x, y => x < y
  | le, x, y => x ≤ y

instance (x y : ℚ) : ∀ rel : Rel, Decidable (rel.Holds x y)
  | .gt => inferInstanceAs (Decidable (y < x))
  | .ge => inferInstanceAs (Decidable (y ≤ x))
  | .lt => inferInstanceAs (Decidable (x < y))
  | .le => inferInstanceAs (Decidable (x ≤ y))

/-- `([0-9.]+)([GMkmunp]?)`, and what follows. -/
def splitNumber (s : List Byte) : Option (List Byte × Option Byte × List Byte) :=
  let number := s.takeWhile isNumberByte
  if number = [] then none
  else
    match s.dropWhile isNumberByte with
    | [] => some (number, none, [])
    | c :: rest =>
      if c ∈ COMPAT_MULTIPLIERS then some (number, some c, rest)
      else some (number, none, c :: rest)

/-- `(>|>=|<|<=)`; as a number has to follow, it does not matter which one is tried first. -/
def splitRel : List Byte → Option (Rel × List Byte)
  | 62 :: 61 :: s => some (.ge, s)
  | 62 :: s => some (.gt, s)
  | 60 :: 61 :: s => some (.le, s)
  | 60 :: s => some (.lt, s)
  | _ => none

/-- `$a` is the characteristic of a part, `$b` what the component asks for. -/
def compat (a b : List Byte) : Bool :=
  if a = b then true
  else
    match splitNumber a with
    | none => false
    | some (av, am, au) =>
      match splitRel b with
      | none => false
      | some (rel, s) =>
        match splitNumber s with
        | none => false
        | some (bv, bm, bu) =>
          if au ≠ bu then false
          else decide (rel.Holds (scale (perlNumber av) am) (scale (perlNumber bv) bm))

end Openmoko.Boom
