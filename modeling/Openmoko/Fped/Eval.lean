import Openmoko.Fped.Delete

/-!
# Evaluating variables (`expr.c`)

A variable is looked up in the tables and loops of its frame, then in the frame around it. While its
expression is evaluated it is marked as visited. An evaluation returns what is undefined as `none`,
next to the marks and the errors it leaves; it does not return (`none` around it all) when the number
of calls that it is given does not suffice, or when it follows a pointer that is NULL.
-/

namespace Openmoko.Fped

/-- What is read of `struct loop`; a value that is `UNDEF` is `none`. -/
structure LoopState where
  currValue : Option ℚ
  n : ℚ
  active : ℤ
  initialized : Bool

/-- The model, with the choices made while it is instantiated. -/
structure Scene where
  model : Model
  currRow : Addr → Option Addr
  currParent : Addr → Option Addr
  loopState : Addr → LoopState

/-- What is reported by `fail`. -/
inductive EvalError where
  | recursive (name : Name)
  | uninitialized (name : Name)
  | undefinedVar (name : Name)
  | string
  | exponents (a b : ℤ)
  | angle
  | sqrtExponent
  | sqrtNegative
  | zeroDivision
  deriving DecidableEq, Repr

structure Visit where
  visited : Addr → Bool
  errors : List EvalError

namespace Visit

def fail (st : Visit) (error : EvalError) : Visit := { st with errors := st.errors ++ [error] }

def mark (st : Visit) (v : Addr) (visited : Bool) : Visit :=
  { st with visited := Function.update st.visited v visited }

end Visit

abbrev Eval (β : Type) := Visit → Option (Option β × Visit)

def makeNum (n : ℚ) : Num := { type := .mm, exponent := 0, n := n }

section Operators

variable {β : Type}

def orFail (error : EvalError) : Option β × Visit → Option β × Visit
  | (none, st) => (none, st.fail error)
  | (some res, st) => (some res, st)

def evalUnary (op : Num → Option Num) (error : Num → EvalError) (a : Eval Num) : Eval Num :=
  fun st => do
    let (x, st) ← a st
    match x with
    | none => return (none, st)
    | some x => return orFail (error x) (op x, st)

def evalBinary (op : Num → Num → Option Num) (error : Num → Num → EvalError) (a b : Eval Num) :
    Eval Num := fun st => do
  let (x, st) ← a st
  match x with
  | none => return (none, st)
  | some x => do
    let (y, st) ← b st
    match y with
    | none => return (none, st)
    | some y => return orFail (error x y) (op x y, st)

end Operators

def sumError (a b : Num) : EvalError := .exponents a.exponent b.exponent

def sqrtError (res : Num) : EvalError :=
  if res.exponent % 2 ≠ 0 then .sqrtExponent else .sqrtNegative

def evalExpr (libm : Libm) (var : Name → Eval Num) : Expr → Eval Num
  | .num num => fun st => some (some num, st)
  | .var name => fun st => (var name st).map (orFail (.undefinedVar name))
  | .string _ => fun st => some (none, st.fail .string)
  | .sin a => evalUnary (sinCos libm libm.sin) (fun _ => .angle) (evalExpr libm var a)
  | .cos a => evalUnary (sinCos libm libm.cos) (fun _ => .angle) (evalExpr libm var a)
  | .sqrt a => evalUnary (opSqrt libm) sqrtError (evalExpr libm var a)
  | .minus a => evalUnary (fun x => some (opMinus x)) (fun _ => .angle) (evalExpr libm var a)
  | .add a b => evalBinary opAdd sumError (evalExpr libm var a) (evalExpr libm var b)
  | .sub a b => evalBinary opSub sumError (evalExpr libm var a) (evalExpr libm var b)
  | .mult a b =>
    evalBinary opMult (fun _ _ => .zeroDivision) (evalExpr libm var a) (evalExpr libm var b)
  | .div a b =>
    evalBinary opDiv (fun _ _ => .zeroDivision) (evalExpr libm var a) (evalExpr libm var b)

def evalStrExpr (var : Name → Eval (List Char)) : Expr → Eval (List Char)
  | .string str => fun st => some (some str, st)
  | .var name => var name
  | _ => fun st => some (none, st)

/-- What a name stands for in a frame; `null` when a row or a value is missing on the way. -/
inductive Found where
  | var (v : Addr) (expr : Expr)
  | loop (l : Addr)
  | absent
  | null
  deriving DecidableEq

def Found.orElse : Found → Found → Found
  | .absent, found => found
  | found, _ => found

namespace Scene

def findInRow (m : Model) (name : Name) : List Addr → List Addr → Found
  | [], _ => .absent
  | _ :: _, [] => .null
  | v :: vars, x :: values =>
    if (m.var v).name = name then .var v (m.value x).expr else findInRow m name vars values

variable (s : Scene)

def rowOf (t : Addr) : Option Addr := (s.currRow t).or (s.model.activeRow t)

def findInTables (s : Scene) (name : Name) : List Addr → Found
  | [] => .absent
  | t :: tables =>
    match s.rowOf t with
    | none => .null
    | some row =>
      (findInRow s.model name (s.model.vars t) (s.model.values row)).orElse
        (findInTables s name tables)

def findLoop (name : Name) (loops : List Addr) : Found :=
  match loops.find? fun l => (s.model.loop l).name = name with
  | some l => .loop l
  | none => .absent

def find (f : Addr) (name : Name) : Found :=
  (s.findInTables name (s.model.tables f)).orElse (s.findLoop name (s.model.loops f))

def outer (f : Addr) : Option Addr :=
  (s.currParent f).or ((s.model.activeRef f).map fun o => (s.model.obj o).frame)

def evalLoop (name : Name) (l : Addr) : Eval Num := fun st =>
  let loop := s.loopState l
  match loop.currValue with
  | none => some (some (makeNum (loop.n + loop.active)), st)
  | some value =>
    if loop.initialized then some (some (makeNum value), st)
    else some (none, st.fail (.uninitialized name))

/-- What `eval_var` and `eval_string_var` have in common: how an expression is evaluated with the
variables, and what is made of a variable that is visited already and of a loop. -/
def evalName {β : Type} (s : Scene) (eval : (Name → Eval β) → Expr → Eval β)
    (again : Name → Visit → Visit) (loop : Name → Addr → Eval β) : ℕ → Addr → Name → Eval β
  | 0, _, _ => fun _ => none
  | n + 1, f, name => fun st =>
    match s.find f name with
    | .var v expr =>
      if st.visited v then some (none, again name st)
      else (eval (evalName s eval again loop n f) expr (st.mark v true)).map fun (res, st) =>
        (res, st.mark v false)
    | .loop l => loop name l st
    | .absent =>
      match s.outer f with
      | none => some (none, st)
      | some g => evalName s eval again loop n g name st
    | .null => none

def evalVar (libm : Libm) (s : Scene) : ℕ → Addr → Name → Eval Num :=
  s.evalName (evalExpr libm) (fun name st => st.fail (.recursive name)) s.evalLoop

def evalStringVar : ℕ → Addr → Name → Eval (List Char) :=
  s.evalName evalStrExpr (fun _ st => st) fun _ _ st => some (none, st)

def evalNum (libm : Libm) (s : Scene) (n : ℕ) (f : Addr) (expr : Expr) : Eval Num :=
  evalExpr libm (s.evalVar libm n f) expr

def evalStr (n : ℕ) (f : Addr) (expr : Expr) : Eval (List Char) :=
  evalStrExpr (s.evalStringVar n f) expr

end Scene

end Openmoko.Fped
