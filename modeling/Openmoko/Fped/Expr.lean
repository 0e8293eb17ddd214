import Mathlib.Data.Rat.Defs
import Mathlib.Algebra.Field.Rat

/-!
# Expressions and values (`expr.c`)

Numbers are kept as exact fractions. The functions of the mathematical library and the values of
variables, which depend on tables, loops and parent frames, are given from outside.
-/

namespace Openmoko.Fped

abbrev Name := List Char

instance : LawfulBEq Name := inferInstance

inductive NumType where
  | mm
  | mil
  deriving DecidableEq, Repr

/-- `struct num`; what is undefined (`nt_none`) is `none`. -/
structure Num where
  type : NumType
  exponent : ℤ
  n : ℚ
  deriving DecidableEq, Repr

inductive Expr where
  | num (num : Num)
  | var (name : Name)
  | string (str : List Char)
  | sin (a : Expr)
  | cos (a : Expr)
  | sqrt (a : Expr)
  | minus (a : Expr)
  | add (a b : Expr)
  | sub (a b : Expr)
  | mult (a b : Expr)
  | div (a b : Expr)
  deriving DecidableEq, Repr

/-- `M_PI` and the functions of the mathematical library. -/
structure Libm where
  pi : ℚ
  sin : ℚ → ℚ
  cos : ℚ → ℚ
  sqrt : ℚ → ℚ

/-- What variables evaluate to, as numbers and as strings. -/
structure VarEnv where
  evalVar : Name → Option Num
  evalStringVar : Name → Option (List Char)

def MIL_IN_MM : ℚ := 254 / 10000

def milToMm (mil : ℚ) (exponent : ℤ) : ℚ := mil * MIL_IN_MM ^ exponent

def compatible (a b : Num) : Num × Num :=
  let toMm := fun num : Num =>
    match num.type with
    | .mm => num
    | .mil => { num with type := .mm, n := milToMm num.n num.exponent }
  if a.type = b.type then (a, b) else (toMm a, toMm b)

/-- `op_add` and `op_sub` of two defined values. `compatible_sum` converts `b` with the exponent of
`a`, which makes no difference: the exponents have to be the same. -/
def opSum (op : ℚ → ℚ → ℚ) (a b : Num) : Option Num :=
  let (a', b') := compatible a b
  if a.exponent ≠ b.exponent then none
  else some { type := a'.type, exponent := a.exponent, n := op a'.n b'.n }

def opAdd (a b : Num) : Option Num := opSum (· + ·) a b

def opSub (a b : Num) : Option Num := opSum (· - ·) a b

def opMult (a b : Num) : Option Num :=
  let (a', b') := compatible a b
  some { type := a'.type, exponent := a.exponent + b.exponent, n := a'.n * b'.n }

def opDiv (a b : Num) : Option Num :=
  if b.n = 0 then none
  else
    let (a', b') := compatible a b
    some { type := a'.type, exponent := a.exponent - b.exponent, n := a'.n / b'.n }

def opMinus (a : Num) : Num := { a with n := -a.n }

def sinCos (libm : Libm) (fn : ℚ → ℚ) (res : Num) : Option Num :=
  if res.exponent ≠ 0 then none else some { res with n := fn (res.n / 180 * libm.pi) }

def opSqrt (libm : Libm) (res : Num) : Option Num :=
  if res.exponent % 2 ≠ 0 then none
  else if res.n < 0 then none
  else some { res with n := libm.sqrt res.n, exponent := res.exponent / 2 }

def binary (op : Num → Num → Option Num) (a b : Option Num) : Option Num :=
  a.bind fun x => b.bind (op x)

def evalNum (libm : Libm) (env : VarEnv) : Expr → Option Num
  | .num num => some num
  | .var name => env.evalVar name
  | .string _ => none
  | .sin a => (evalNum libm env a).bind (sinCos libm libm.sin)
  | .cos a => (evalNum libm env a).bind (sinCos libm libm.cos)
  | .sqrt a => (evalNum libm env a).bind (opSqrt libm)
  | .minus a => (evalNum libm env a).map opMinus
  | .add a b => binary opAdd (evalNum libm env a) (evalNum libm env b)
  | .sub a b => binary opSub (evalNum libm env a) (evalNum libm env b)
  | .mult a b => binary opMult (evalNum libm env a) (evalNum libm env b)
  | .div a b => binary opDiv (evalNum libm env a) (evalNum libm env b)

def evalStr (env : VarEnv) : Expr → Option (List Char)
  | .string str => some str
  | .var name => env.evalStringVar name
  | _ => none

end Openmoko.Fped
