import Openmoko.Fped.Scanner

/-!
# Writing and reading expressions (`unparse.c`, `fpd.y`)

`unparse` puts parentheses where the precedence of an operator is below that of its place. The
grammar has rules for expressions of each precedence; operators of the same one associate to the
left.
-/

namespace Openmoko.Fped

inductive Prec where
  | add
  | mult
  | unary
  | primary
  deriving DecidableEq, Repr

def Prec.rank : Prec → Nat
  | .add => 0
  | .mult => 1
  | .unary => 2
  | .primary => 3

def precedence : Expr → Prec
  | .add _ _ | .sub _ _ => .add
  | .mult _ _ | .div _ _ => .mult
  | .minus _ => .unary
  | .num _ | .string _ | .var _ | .sin _ | .cos _ | .sqrt _ => .primary

/-- What `unparse_op` writes for an operator of precedence `own`; inside of the parentheses it is
called with the lowest precedence and writes the same text. -/
def parens (prec own : Prec) (s : Text) : Text :=
  if prec.rank > own.rank then text "(" ++ s ++ text ")" else s

def unparseOp : Expr → Prec → Text
  | .num num, _ => [.lit num]
  | .string str, _ => text "\"" ++ nameText str ++ text "\""
  | .var name, _ => nameText name
  | .minus a, prec => parens prec .unary (text "-" ++ unparseOp a .unary)
  | .add a b, prec => parens prec .add (unparseOp a .add ++ text "+" ++ unparseOp b .add)
  | .sub a b, prec => parens prec .add (unparseOp a .add ++ text "-" ++ unparseOp b .mult)
  | .mult a b, prec => parens prec .mult (unparseOp a .mult ++ text "*" ++ unparseOp b .mult)
  | .div a b, prec => parens prec .mult (unparseOp a .mult ++ text "/" ++ unparseOp b .primary)
  | .sin a, _ => text "sin(" ++ unparseOp a .add ++ text ")"
  | .cos a, _ => text "cos(" ++ unparseOp a .add ++ text ")"
  | .sqrt a, _ => text "sqrt(" ++ unparseOp a .add ++ text ")"

def unparse (expr : Option Expr) : Text :=
  match expr with
  | none => []
  | some e => unparseOp e .add

def mkFunction (name : Name) (a : Expr) : Option Expr :=
  if name = "sin".toList then some (.sin a)
  else if name = "cos".toList then some (.cos a)
  else if name = "sqrt".toList then some (.sqrt a)
  else none

/-- The rules for `add_expr` (and so `expr`), `mult_expr`, `unary_expr` and `primary_expr`, told
apart by their precedence: what is derived, and the expression that is made of it. -/
inductive Derives : Prec → List Token → Expr → Prop where
  | addMult {ts e} : Derives .mult ts e → Derives .add ts e
  | addAdd {ts us a b} : Derives .add ts a → Derives .mult us b →
      Derives .add (ts ++ .ch '+' :: us) (.add a b)
  | addSub {ts us a b} : Derives .add ts a → Derives .mult us b →
      Derives .add (ts ++ .ch '-' :: us) (.sub a b)
  | multUnary {ts e} : Derives .unary ts e → Derives .mult ts e
  | multMult {ts us a b} : Derives .mult ts a → Derives .unary us b →
      Derives .mult (ts ++ .ch '*' :: us) (.mult a b)
  | multDiv {ts us a b} : Derives .mult ts a → Derives .unary us b →
      Derives .mult (ts ++ .ch '/' :: us) (.div a b)
  | unaryPrimary {ts e} : Derives .primary ts e → Derives .unary ts e
  | unaryMinus {ts e} : Derives .primary ts e → Derives .unary (.ch '-' :: ts) (.minus e)
  | number (num) : Derives .primary [.number num] (.num num)
  | id (name) : Derives .primary [.id name] (.var name)
  | string (str) : Derives .primary [.string str] (.string str)
  | parens {ts e} : Derives .add ts e → Derives .primary (.ch '(' :: ts ++ [.ch ')']) e
  | function {ts name a e} : Derives .add ts a → mkFunction name a = some e →
      Derives .primary (.id name :: .ch '(' :: ts ++ [.ch ')']) e

end Openmoko.Fped

/-!
## The parser of expressions

What the parser generated from the rules for expressions does: it reads one token after the other
and keeps what is not complete yet. A token that cannot go on with an expression is left for the
rule that wanted one.
-/

namespace Openmoko.Fped

/-- The incomplete rules of one level of parentheses: a sum and a product that wait for their right
operand, and a sign that waits for its own. -/
structure Pending where
  sum : Expr → Expr
  prod : Expr → Expr
  neg : Bool

def Pending.empty : Pending := { sum := id, prod := id, neg := false }

def Pending.unary (p : Pending) (e : Expr) : Expr := if p.neg then .minus e else e

def Pending.mult (p : Pending) (e : Expr) : Expr := p.prod (p.unary e)

def Pending.add (p : Pending) (e : Expr) : Expr := p.sum (p.mult e)

abbrev Levels := List (Pending × Option Name)

def closeLevel (name : Option Name) (e : Expr) : Option Expr :=
  match name with
  | none => some e
  | some name => mkFunction name e

mutual

def parseOperand (levels : Levels) (p : Pending) : List Token → Option (Expr × List Token)
  | .number num :: ts => parseOperator levels p (.num num) ts
  | .string str :: ts => parseOperator levels p (.string str) ts
  | .id name :: .ch '(' :: ts => parseOperand ((p, some name) :: levels) .empty ts
  | .id name :: ts => parseOperator levels p (.var name) ts
  | .ch '(' :: ts => parseOperand ((p, none) :: levels) .empty ts
  | .ch '-' :: ts => if p.neg then none else parseOperand levels { p with neg := true } ts
  | _ => none

def parseOperator (levels : Levels) (p : Pending) (e : Expr) :
    List Token → Option (Expr × List Token)
  | .ch '*' :: ts => parseOperand levels { p with prod := .mult (p.mult e), neg := false } ts
  | .ch '/' :: ts => parseOperand levels { p with prod := .div (p.mult e), neg := false } ts
  | .ch '+' :: ts => parseOperand levels { sum := .add (p.add e), prod := id, neg := false } ts
  | .ch '-' :: ts => parseOperand levels { sum := .sub (p.add e), prod := id, neg := false } ts
  | .ch ')' :: ts =>
    match levels with
    | [] => some (p.add e, .ch ')' :: ts)
    | (q, name) :: levels =>
      match closeLevel name (p.add e) with
      | none => none
      | some e => parseOperator levels q e ts
  | ts =>
    match levels with
    | [] => some (p.add e, ts)
    | _ :: _ => none

end

def parseExpr (ts : List Token) : Option (Expr × List Token) := parseOperand [] .empty ts

end Openmoko.Fped
