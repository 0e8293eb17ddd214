import Mathlib.Algebra.Order.Ring.Rat
import Mathlib.Tactic.NormNum
import Mathlib.Tactic.Ring
import Openmoko.Fped.ExprParser

/-!
# The grammar of expressions is unambiguous

What the rules derive, the parser reads, one level of precedence at a time: before the last operand
of a level, the incomplete rules are those that the operand completes. So the tokens of an expression
tell which one it is.
-/

namespace Openmoko.Fped

def NotCall (rest : List Token) : Prop := rest.head? ≠ some (.ch '(')

def Stops (rest : List Token) : Prop :=
  ∀ t ∈ rest.head?, t ≠ .ch '+' ∧ t ≠ .ch '-' ∧ t ≠ .ch '*' ∧ t ≠ .ch '/' ∧ t ≠ .ch '('

variable {rest ts : List Token}

theorem Stops.notCall (hrest : Stops rest) : NotCall rest := fun heq =>
  (hrest _ heq).2.2.2.2 rfl

def Parses : Prec → List Token → Expr → Prop
  | .primary, ts, e => ∀ levels p rest, NotCall rest →
      parseOperand levels p (ts ++ rest) = parseOperator levels p e rest
  | .unary, ts, e => ∀ levels p rest, NotCall rest → p.neg = false →
      ∃ p' e', p'.sum = p.sum ∧ p'.prod = p.prod ∧ p'.unary e' = e ∧
        parseOperand levels p (ts ++ rest) = parseOperator levels p' e' rest
  | .mult, ts, e => ∀ levels p rest, NotCall rest → p.neg = false → p.prod = id →
      ∃ p' e', p'.sum = p.sum ∧ p'.mult e' = e ∧
        parseOperand levels p (ts ++ rest) = parseOperator levels p' e' rest
  | .add, ts, e => ∀ levels rest, NotCall rest →
      ∃ p' e', p'.add e' = e ∧
        parseOperand levels .empty (ts ++ rest) = parseOperator levels p' e' rest

theorem notCall_ch {c : Char} (hc : c ≠ '(') (rest : List Token) : NotCall (.ch c :: rest) := by
  intro heq
  rw [List.head?_cons, Option.some_inj, Token.ch.injEq] at heq
  exact hc heq

theorem parseOperand_id {levels : Levels} {p : Pending} {name : Name} (hrest : NotCall rest) :
    parseOperand levels p (.id name :: rest) = parseOperator levels p (.var name) rest := by
  cases rest with
  | nil => rw [parseOperand]; simp
  | cons t rest =>
    rw [parseOperand]
    intro ts heq
    obtain ⟨rfl, -⟩ := List.cons.inj heq
    exact hrest rfl

theorem parseOperand_level {a e : Expr} (hts : Parses .add ts a)
    {name : Option Name} (hclose : closeLevel name a = some e) (levels : Levels) (p : Pending)
    (rest : List Token) :
    parseOperand ((p, name) :: levels) .empty (ts ++ .ch ')' :: rest) =
      parseOperator levels p e rest := by
  obtain ⟨p', e', hvalue, hparse⟩ :=
    hts ((p, name) :: levels) (.ch ')' :: rest) (notCall_ch (by decide) rest)
  rw [hparse, parseOperator, hvalue, hclose]

theorem parses_of_derives {prec : Prec} {e : Expr} (h : Derives prec ts e) : Parses prec ts e := by
  induction h with
  | addMult _ ih =>
    intro levels rest hrest
    obtain ⟨p', e', hsum, hvalue, hparse⟩ := ih levels .empty rest hrest rfl rfl
    refine ⟨p', e', ?_, hparse⟩
    rw [Pending.add, hsum, hvalue]
    rfl
  | @addAdd ts us a b _ _ iha ihb =>
    intro levels rest hrest
    obtain ⟨p, x, hx, hparse⟩ := iha levels (.ch '+' :: us ++ rest) (notCall_ch (by decide) _)
    obtain ⟨p', y, hsum, hy, hparse'⟩ :=
      ihb levels { sum := .add (p.add x), prod := id, neg := false } rest hrest rfl rfl
    refine ⟨p', y, ?_, ?_⟩
    · rw [Pending.add, hsum, hy, hx]
    · rw [List.append_assoc, hparse, ← hparse', List.cons_append, parseOperator]
  | @addSub ts us a b _ _ iha ihb =>
    intro levels rest hrest
    obtain ⟨p, x, hx, hparse⟩ := iha levels (.ch '-' :: us ++ rest) (notCall_ch (by decide) _)
    obtain ⟨p', y, hsum, hy, hparse'⟩ :=
      ihb levels { sum := .sub (p.add x), prod := id, neg := false } rest hrest rfl rfl
    refine ⟨p', y, ?_, ?_⟩
    · rw [Pending.add, hsum, hy, hx]
    · rw [List.append_assoc, hparse, ← hparse', List.cons_append, parseOperator]
  | multUnary _ ih =>
    intro levels p rest hrest hneg hprod
    obtain ⟨p', e', hsum, hprod', hvalue, hparse⟩ := ih levels p rest hrest hneg
    refine ⟨p', e', hsum, ?_, hparse⟩
    rw [Pending.mult, hprod', hprod, hvalue]
    rfl
  | @multMult ts us a b _ _ iha ihb =>
    intro levels p rest hrest hneg hprod
    obtain ⟨q, x, hsum, hx, hparse⟩ :=
      iha levels p (.ch '*' :: us ++ rest) (notCall_ch (by decide) _) hneg hprod
    obtain ⟨p', y, hsum', hprod', hy, hparse'⟩ :=
      ihb levels { q with prod := .mult (q.mult x), neg := false } rest hrest rfl
    refine ⟨p', y, hsum'.trans hsum, ?_, ?_⟩
    · rw [Pending.mult, hprod', hy, hx]
    · rw [List.append_assoc, hparse, ← hparse', List.cons_append, parseOperator]
  | @multDiv ts us a b _ _ iha ihb =>
    intro levels p rest hrest hneg hprod
    obtain ⟨q, x, hsum, hx, hparse⟩ :=
      iha levels p (.ch '/' :: us ++ rest) (notCall_ch (by decide) _) hneg hprod
    obtain ⟨p', y, hsum', hprod', hy, hparse'⟩ :=
      ihb levels { q with prod := .div (q.mult x), neg := false } rest hrest rfl
    refine ⟨p', y, hsum'.trans hsum, ?_, ?_⟩
    · rw [Pending.mult, hprod', hy, hx]
    · rw [List.append_assoc, hparse, ← hparse', List.cons_append, parseOperator]
  | unaryPrimary _ ih =>
    intro levels p rest hrest hneg
    refine ⟨p, _, rfl, rfl, ?_, ih levels p rest hrest⟩
    rw [Pending.unary, hneg]
    rfl
  | unaryMinus _ ih =>
    intro levels p rest hrest hneg
    refine ⟨{ p with neg := true }, _, rfl, rfl, rfl, ?_⟩
    rw [← ih levels { p with neg := true } rest hrest, List.cons_append, parseOperand, hneg]
    rfl
  | number num =>
    intro levels p rest hrest
    rw [List.singleton_append, parseOperand]
  | id name =>
    intro levels p rest hrest
    rw [List.singleton_append, parseOperand_id hrest]
  | string str =>
    intro levels p rest hrest
    rw [List.singleton_append, parseOperand]
  | parens _ ih =>
    intro levels p rest hrest
    rw [List.append_assoc, List.cons_append, parseOperand]
    exact parseOperand_level ih rfl levels p rest
  | @function ts name a e _ hfn ih =>
    intro levels p rest hrest
    have hclose : closeLevel (some name) a = some e := hfn
    rw [List.append_assoc, List.cons_append, List.cons_append, parseOperand]
    exact parseOperand_level ih hclose levels p rest

/-- **The parser reads what the rules derive,** up to a token that cannot go on with it. -/
theorem parseExpr_of_derives {e : Expr} (h : Derives .add ts e) (hrest : Stops rest) : parseExpr
    (ts ++ rest) = some (e, rest) := by
  obtain ⟨p', e', hvalue, hparse⟩ := parses_of_derives h [] rest hrest.notCall
  rw [parseExpr, hparse, ← hvalue]
  cases rest with
  | nil => simp [parseOperator]
  | cons t rest =>
    obtain ⟨h1, h2, h3, h4, -⟩ := hrest t rfl
    by_cases hclose : t = .ch ')'
    · rw [hclose, parseOperator]
    · rw [parseOperator]
      all_goals simp_all

/-- **The grammar is unambiguous.** -/
theorem derives_unique {e e' : Expr} (h : Derives .add ts e)
    (h' : Derives .add ts e') : e = e' := by
  have hstops : Stops [] := fun t ht => by cases ht
  have heq := parseExpr_of_derives h hstops
  rw [parseExpr_of_derives h' hstops] at heq
  exact (Prod.mk.inj (Option.some.inj heq)).1.symm

end Openmoko.Fped

/-!
## Sums and products associate

On exact numbers with units, where an operation is undefined for numbers that do not fit, a chain of
operators of the same precedence has the same value however it is nested to the right.
-/

namespace Openmoko.Fped

theorem milInMm_ne_zero : MIL_IN_MM ≠ 0 := by norm_num [MIL_IN_MM]

theorem milToMm_mul (x y : ℚ) (e f : ℤ) : milToMm (x * y) (e + f) = milToMm x e * milToMm y f := by
  rw [milToMm, milToMm, milToMm, zpow_add₀ milInMm_ne_zero]
  ring

theorem milToMm_div (x y : ℚ) (e f : ℤ) : milToMm (x / y) (e - f) = milToMm x e / milToMm y f := by
  rw [milToMm, milToMm, milToMm, zpow_sub₀ milInMm_ne_zero]
  ring

section Operations

variable (a b c : Num)

theorem opSum_assoc {op : ℚ → ℚ → ℚ} (hassoc : ∀ x y z, op (x + y) z = x + op y z)
    (hscale : ∀ x y k, op x y * k = op (x * k) (y * k)) :
    (opAdd a b).bind (fun s => opSum op s c) = (opSum op b c).bind (opAdd a) := by
  obtain ⟨ta, ea, na⟩ := a
  obtain ⟨tb, eb, nb⟩ := b
  obtain ⟨tc, ec, nc⟩ := c
  by_cases hab : ea = eb
  · by_cases hbc : eb = ec
    · subst hab hbc
      cases ta <;> cases tb <;> cases tc <;>
        simp [opAdd, opSum, compatible, milToMm, hassoc, hscale, add_mul]
    · subst hab
      simp [opAdd, opSum, hbc]
  · by_cases hbc : eb = ec
    · subst hbc
      simp [opAdd, opSum, hab]
    · simp [opAdd, opSum, hab, hbc]

theorem opMult_assoc : (opMult a b).bind (fun s => opMult s c) = (opMult b c).bind (opMult a) := by
  obtain ⟨ta, ea, na⟩ := a
  obtain ⟨tb, eb, nb⟩ := b
  obtain ⟨tc, ec, nc⟩ := c
  cases ta <;> cases tb <;> cases tc <;>
    simp [opMult, compatible, milToMm_mul, mul_assoc, add_assoc]

theorem opDiv_assoc : (opMult a b).bind (fun s => opDiv s c) = (opDiv b c).bind (opMult a) := by
  obtain ⟨ta, ea, na⟩ := a
  obtain ⟨tb, eb, nb⟩ := b
  obtain ⟨tc, ec, nc⟩ := c
  by_cases hzero : nc = 0
  · simp [opMult, opDiv, hzero]
  · cases ta <;> cases tb <;> cases tc <;>
      simp [opMult, opDiv, compatible, milToMm_mul, milToMm_div, hzero, mul_div_assoc,
        add_sub_assoc]

end Operations

section Values

variable (x y z : Option Num)

theorem binary_assoc {op₁ op₂ : Num → Num → Option Num} (outer : Num → Num → Option Num)
    (h : ∀ a b c, (op₁ a b).bind (fun s => op₂ s c) = (op₂ b c).bind (outer a)) :
    binary op₂ (binary op₁ x y) z = binary outer x (binary op₂ y z) := by
  cases x with
  | none => rfl
  | some a =>
    cases y with
    | none => rfl
    | some b =>
      cases z with
      | none => simp [binary]
      | some c => exact h a b c

theorem binary_add_assoc : binary opAdd (binary opAdd x y) z = binary opAdd x (binary opAdd y z) :=
  binary_assoc x y z opAdd fun a b c => opSum_assoc a b c add_assoc add_mul

theorem binary_sub_assoc : binary opSub (binary opAdd x y) z = binary opAdd x (binary opSub y z) :=
  binary_assoc x y z opAdd fun a b c => opSum_assoc a b c add_sub_assoc sub_mul

theorem binary_mult_assoc :
    binary opMult (binary opMult x y) z = binary opMult x (binary opMult y z) :=
  binary_assoc x y z opMult opMult_assoc

theorem binary_div_assoc :
    binary opDiv (binary opMult x y) z = binary opMult x (binary opDiv y z) :=
  binary_assoc x y z opMult opDiv_assoc

end Values

end Openmoko.Fped
