import Mathlib.Tactic.FieldSimp
import Mathlib.Tactic.Ring
import Openmoko.Fped.Proof.VariableEvaluation

/-!
# Units do not matter

An expression is given a meaning for any meaning of the literals and operators: the numbers that the
code computes, their exponents alone, or their values in millimeters. Where two meanings agree on
every operator, they agree on every expression. The conversion to millimeters agrees with all the
operators of the code.
-/

namespace Openmoko.Fped

def Num.mm (num : Num) : ℚ :=
  match num.type with
  | .mm => num.n
  | .mil => milToMm num.n num.exponent

def Num.inMm (num : Num) : Num := { type := .mm, exponent := num.exponent, n := num.mm }

theorem MIL_IN_MM_ne_zero : MIL_IN_MM ≠ 0 := by norm_num [MIL_IN_MM]

theorem inMm_opMinus (a : Num) : (opMinus a).inMm = opMinus a.inMm := by
  obtain ⟨type, exponent, n⟩ := a
  cases type with
  | mm => rfl
  | mil =>
    simp only [opMinus, Num.inMm, Num.mm, milToMm, Num.mk.injEq, true_and]
    ring

theorem inMm_opSum {op : ℚ → ℚ → ℚ} (hop : ∀ x y k, op (x * k) (y * k) = op x y * k) (a b : Num) :
    (opSum op a b).map Num.inMm = opSum op a.inMm b.inMm := by
  obtain ⟨ta, ea, x⟩ := a
  obtain ⟨tb, eb, y⟩ := b
  by_cases he : ea = eb
  · subst he
    cases ta <;> cases tb <;> simp [opSum, compatible, Num.inMm, Num.mm, milToMm, hop]
  · cases ta <;> cases tb <;> simp [opSum, Num.inMm, he]

theorem inMm_opAdd (a b : Num) : (opAdd a b).map Num.inMm = opAdd a.inMm b.inMm :=
  inMm_opSum (fun x y k => (add_mul x y k).symm) a b

theorem inMm_opSub (a b : Num) : (opSub a b).map Num.inMm = opSub a.inMm b.inMm :=
  inMm_opSum (fun x y k => (sub_mul x y k).symm) a b

theorem inMm_opMult (a b : Num) : (opMult a b).map Num.inMm = opMult a.inMm b.inMm := by
  obtain ⟨ta, ea, x⟩ := a
  obtain ⟨tb, eb, y⟩ := b
  have hpow := zpow_add₀ MIL_IN_MM_ne_zero ea eb
  cases ta <;> cases tb <;> simp [opMult, compatible, Num.inMm, Num.mm, milToMm, hpow]
  ring

theorem mm_eq_zero_iff (num : Num) : num.mm = 0 ↔ num.n = 0 := by
  obtain ⟨type, exponent, n⟩ := num
  cases type with
  | mm => exact Iff.rfl
  | mil =>
    have hpow := zpow_ne_zero exponent MIL_IN_MM_ne_zero
    exact ⟨fun h => (mul_eq_zero.mp h).resolve_right hpow, fun h => mul_eq_zero_of_left h _⟩

theorem inMm_opDiv (a b : Num) : (opDiv a b).map Num.inMm = opDiv a.inMm b.inMm := by
  have hzero : b.inMm.n = 0 ↔ b.n = 0 := mm_eq_zero_iff b
  obtain ⟨ta, ea, x⟩ := a
  obtain ⟨tb, eb, y⟩ := b
  by_cases hy : y = 0
  · rw [opDiv, opDiv, if_pos hy, if_pos (hzero.mpr hy), Option.map_none]
  · rw [opDiv, opDiv, if_neg hy, if_neg (fun h => hy (hzero.mp h))]
    have hpow := zpow_sub₀ MIL_IN_MM_ne_zero ea eb
    have hne := zpow_ne_zero eb MIL_IN_MM_ne_zero
    cases ta <;> cases tb <;> simp [compatible, Num.inMm, Num.mm, milToMm, hpow]
    field_simp

structure Interpretation (α : Type) where
  num : Num → α
  minus : α → α
  add : α → α → Option α
  sub : α → α → Option α
  mult : α → α → Option α
  div : α → α → Option α

def numbers : Interpretation Num where
  num := id
  minus := opMinus
  add := opAdd
  sub := opSub
  mult := opMult
  div := opDiv

def exponents : Interpretation ℤ where
  num := Num.exponent
  minus := id
  add a b := if a ≠ b then none else some a
  sub a b := if a ≠ b then none else some a
  mult a b := some (a + b)
  div a b := some (a - b)

def millimeters : Interpretation ℚ where
  num := Num.mm
  minus x := -x
  add x y := some (x + y)
  sub x y := some (x - y)
  mult x y := some (x * y)
  div x y := if y = 0 then none else some (x / y)

def Scene.loopValue (s : Scene) (l : Addr) : Option ℚ :=
  match (s.loopState l).currValue with
  | none => some ((s.loopState l).n + (s.loopState l).active)
  | some value => if (s.loopState l).initialized then some value else none

/-- What an arithmetic expression means in a frame, with some variables being evaluated. -/
inductive Denotes {α : Type} (I : Interpretation α) (s : Scene) :
    (Addr → Bool) → Addr → Expr → α → Prop
  | num {visited : Addr → Bool} {f : Addr} {n : Num} : Denotes I s visited f (.num n) (I.num n)
  | var {visited : Addr → Bool} {f g v : Addr} {name : Name} {expr : Expr} {a : α}
      (hfound : Resolves s name f g (.var v expr)) (hv : visited v = false)
      (hexpr : Denotes I s (Function.update visited v true) g expr a) :
      Denotes I s visited f (.var name) a
  | loop {visited : Addr → Bool} {f g l : Addr} {name : Name} {x : ℚ}
      (hfound : Resolves s name f g (.loop l)) (hvalue : s.loopValue l = some x) :
      Denotes I s visited f (.var name) (I.num (makeNum x))
  | minus {visited : Addr → Bool} {f : Addr} {e : Expr} {a : α} (ha : Denotes I s visited f e a) :
      Denotes I s visited f (.minus e) (I.minus a)
  | add {visited : Addr → Bool} {f : Addr} {e₁ e₂ : Expr} {a b c : α}
      (ha : Denotes I s visited f e₁ a) (hb : Denotes I s visited f e₂ b)
      (hop : I.add a b = some c) : Denotes I s visited f (.add e₁ e₂) c
  | sub {visited : Addr → Bool} {f : Addr} {e₁ e₂ : Expr} {a b c : α}
      (ha : Denotes I s visited f e₁ a) (hb : Denotes I s visited f e₂ b)
      (hop : I.sub a b = some c) : Denotes I s visited f (.sub e₁ e₂) c
  | mult {visited : Addr → Bool} {f : Addr} {e₁ e₂ : Expr} {a b c : α}
      (ha : Denotes I s visited f e₁ a) (hb : Denotes I s visited f e₂ b)
      (hop : I.mult a b = some c) : Denotes I s visited f (.mult e₁ e₂) c
  | div {visited : Addr → Bool} {f : Addr} {e₁ e₂ : Expr} {a b c : α}
      (ha : Denotes I s visited f e₁ a) (hb : Denotes I s visited f e₂ b)
      (hop : I.div a b = some c) : Denotes I s visited f (.div e₁ e₂) c

inductive Expr.Related (L : Num → Num → Prop) : Expr → Expr → Prop
  | num {n n' : Num} (h : L n n') : Related L (.num n) (.num n')
  | var (name : Name) : Related L (.var name) (.var name)
  | string (str : List Char) : Related L (.string str) (.string str)
  | sin {a a' : Expr} (ha : Related L a a') : Related L (.sin a) (.sin a')
  | cos {a a' : Expr} (ha : Related L a a') : Related L (.cos a) (.cos a')
  | sqrt {a a' : Expr} (ha : Related L a a') : Related L (.sqrt a) (.sqrt a')
  | minus {a a' : Expr} (ha : Related L a a') : Related L (.minus a) (.minus a')
  | add {a a' b b' : Expr} (ha : Related L a a') (hb : Related L b b') :
      Related L (.add a b) (.add a' b')
  | sub {a a' b b' : Expr} (ha : Related L a a') (hb : Related L b b') :
      Related L (.sub a b) (.sub a' b')
  | mult {a a' b b' : Expr} (ha : Related L a a') (hb : Related L b b') :
      Related L (.mult a b) (.mult a' b')
  | div {a a' b b' : Expr} (ha : Related L a a') (hb : Related L b b') :
      Related L (.div a b) (.div a' b')

def Scene.withValues (s : Scene) (value : Addr → ValueNode) : Scene :=
  { s with model := { s.model with value := value } }

inductive Found.Related (L : Num → Num → Prop) : Found → Found → Prop
  | var {v : Addr} {e e' : Expr} (h : e.Related L e') : Related L (.var v e) (.var v e')
  | loop (l : Addr) : Related L (.loop l) (.loop l)
  | absent : Related L .absent .absent
  | null : Related L .null .null

theorem Found.Related.orElse {L : Num → Num → Prop} {x x' y y' : Found} (hx : x.Related L x')
    (hy : y.Related L y') : (x.orElse y).Related L (x'.orElse y') := by
  cases hx with
  | var h => exact .var h
  | loop l => exact .loop l
  | absent => exact hy
  | null => exact .null

variable {found : Found} {name : Name} {exprs : Addr → Expr → Prop}

section Related

variable {L : Num → Num → Prop} {s : Scene} {value' : Addr → ValueNode}

theorem findInRow_related (hvalues : ∀ x, (s.model.value x).expr.Related L (value' x).expr)
    (name : Name) (vars values : List Addr) :
    (Scene.findInRow s.model name vars values).Related L
      (Scene.findInRow (s.withValues value').model name vars values) := by
  induction vars generalizing values with
  | nil => exact .absent
  | cons v vars ih =>
    cases values with
    | nil => exact .null
    | cons x values =>
      have hvar : (s.withValues value').model.var v = s.model.var v := rfl
      rw [Scene.findInRow, Scene.findInRow, hvar]
      split
      next => exact .var (hvalues x)
      next => exact ih values

theorem findInTables_related (hvalues : ∀ x, (s.model.value x).expr.Related L (value' x).expr)
    (name : Name) (tables : List Addr) :
    (s.findInTables name tables).Related L ((s.withValues value').findInTables name tables) := by
  induction tables with
  | nil => exact .absent
  | cons t tables ih =>
    have hrow : (s.withValues value').rowOf t = s.rowOf t := rfl
    rw [Scene.findInTables, Scene.findInTables, hrow]
    cases s.rowOf t with
    | none => exact .null
    | some row =>
      exact (findInRow_related hvalues name (s.model.vars t) (s.model.values row)).orElse ih

theorem find_related (hvalues : ∀ x, (s.model.value x).expr.Related L (value' x).expr)
    (f : Addr) (name : Name) :
    (s.find f name).Related L ((s.withValues value').find f name) := by
  have hloop : (s.findLoop name (s.model.loops f)).Related L
      ((s.withValues value').findLoop name (s.model.loops f)) := by
    change Found.Related L _ (s.findLoop name (s.model.loops f))
    rcases findLoop_cases s name (s.model.loops f) with ⟨l, hl⟩ | habsent
    · rw [hl]
      exact .loop l
    · rw [habsent]
      exact .absent
  exact (findInTables_related hvalues name (s.model.tables f)).orElse hloop

theorem resolves_related (hvalues : ∀ x, (s.model.value x).expr.Related L (value' x).expr)
    {f g : Addr} (h : Resolves s name f g found) :
    ∃ found', Resolves (s.withValues value') name f g found' ∧ found.Related L found' := by
  induction h with
  | @here f h =>
    have hfind := find_related hvalues f name
    refine ⟨_, .here fun habsent => h ?_, hfind⟩
    rw [habsent] at hfind
    generalize s.find f name = found at hfind
    cases hfind
    rfl
  | @outward f _ _ _ habsent houter _ ih =>
    obtain ⟨found', hresolves, hrelated⟩ := ih
    refine ⟨found', .outward ?_ houter hresolves, hrelated⟩
    have hfind := find_related hvalues f name
    rw [habsent] at hfind
    generalize (s.withValues value').find f name = found at hfind
    cases hfind
    rfl

end Related

structure Agree {α β γ : Type} (I : Interpretation α) (J : Interpretation β) (h : α → γ)
    (h' : β → γ) : Prop where
  loop : ∀ x, h (I.num (makeNum x)) = h' (J.num (makeNum x))
  minus : ∀ a b, h a = h' b → h (I.minus a) = h' (J.minus b)
  add : ∀ a a' b b', h a = h' b → h a' = h' b' → (I.add a a').map h = (J.add b b').map h'
  sub : ∀ a a' b b', h a = h' b → h a' = h' b' → (I.sub a a').map h = (J.sub b b').map h'
  mult : ∀ a a' b b', h a = h' b → h a' = h' b' → (I.mult a a').map h = (J.mult b b').map h'
  div : ∀ a a' b b', h a = h' b → h a' = h' b' → (I.div a a').map h = (J.div b b').map h'

section Agree

variable {α β γ : Type} {I : Interpretation α} {J : Interpretation β} {h : α → γ} {h' : β → γ}
  {s : Scene}

theorem Agree.symm (hagree : Agree I J h h') : Agree J I h' h where
  loop x := (hagree.loop x).symm
  minus a b hab := (hagree.minus b a hab.symm).symm
  add a a' b b' hab hab' := (hagree.add b b' a a' hab.symm hab'.symm).symm
  sub a a' b b' hab hab' := (hagree.sub b b' a a' hab.symm hab'.symm).symm
  mult a a' b b' hab hab' := (hagree.mult b b' a a' hab.symm hab'.symm).symm
  div a a' b b' hab hab' := (hagree.div b b' a a' hab.symm hab'.symm).symm

theorem exists_of_map_eq {x : Option α} {y : Option β} (hmap : x.map h = y.map h') {a : α}
    (ha : x = some a) : ∃ b, y = some b ∧ h a = h' b := by
  subst ha
  obtain ⟨b, hb, heq⟩ := Option.map_eq_some_iff.mp hmap.symm
  exact ⟨b, hb, heq.symm⟩

theorem Denotes.transfer (hagree : Agree I J h h') {L : Num → Num → Prop}
    (hnum : ∀ n n', L n n' → h (I.num n) = h' (J.num n')) (value' : Addr → ValueNode)
    (hvalues : ∀ x, (s.model.value x).expr.Related L (value' x).expr) {visited : Addr → Bool}
    {f : Addr} {e e' : Expr} {a : α} (hd : Denotes I s visited f e a) (he : e.Related L e') :
    ∃ b, Denotes J (s.withValues value') visited f e' b ∧ h a = h' b := by
  induction hd generalizing e' with
  | num =>
    cases he with
    | num hn => exact ⟨_, .num, hnum _ _ hn⟩
  | var hfound hv _ ih =>
    cases he
    obtain ⟨found', hresolves, hrelated⟩ := resolves_related hvalues hfound
    cases hrelated with
    | var hexpr =>
      obtain ⟨b, hb, heq⟩ := ih hexpr
      exact ⟨b, .var hresolves hv hb, heq⟩
  | loop hfound hvalue =>
    cases he
    obtain ⟨found', hresolves, hrelated⟩ := resolves_related hvalues hfound
    cases hrelated
    exact ⟨_, .loop hresolves hvalue, hagree.loop _⟩
  | minus _ ih =>
    cases he with
    | minus he =>
      obtain ⟨b, hb, heq⟩ := ih he
      exact ⟨_, .minus hb, hagree.minus _ _ heq⟩
  | add _ _ hop iha ihb =>
    cases he with
    | add ha hb =>
      obtain ⟨x, hx, hax⟩ := iha ha
      obtain ⟨y, hy, hby⟩ := ihb hb
      obtain ⟨z, hz, heq⟩ := exists_of_map_eq (hagree.add _ _ _ _ hax hby) hop
      exact ⟨z, .add hx hy hz, heq⟩
  | sub _ _ hop iha ihb =>
    cases he with
    | sub ha hb =>
      obtain ⟨x, hx, hax⟩ := iha ha
      obtain ⟨y, hy, hby⟩ := ihb hb
      obtain ⟨z, hz, heq⟩ := exists_of_map_eq (hagree.sub _ _ _ _ hax hby) hop
      exact ⟨z, .sub hx hy hz, heq⟩
  | mult _ _ hop iha ihb =>
    cases he with
    | mult ha hb =>
      obtain ⟨x, hx, hax⟩ := iha ha
      obtain ⟨y, hy, hby⟩ := ihb hb
      obtain ⟨z, hz, heq⟩ := exists_of_map_eq (hagree.mult _ _ _ _ hax hby) hop
      exact ⟨z, .mult hx hy hz, heq⟩
  | div _ _ hop iha ihb =>
    cases he with
    | div ha hb =>
      obtain ⟨x, hx, hax⟩ := iha ha
      obtain ⟨y, hy, hby⟩ := ihb hb
      obtain ⟨z, hz, heq⟩ := exists_of_map_eq (hagree.div _ _ _ _ hax hby) hop
      exact ⟨z, .div hx hy hz, heq⟩

theorem Expr.Related.refl {L : Num → Num → Prop} (hL : ∀ n, L n n) (e : Expr) :
    e.Related L e := by
  induction e with
  | num n => exact .num (hL n)
  | var name => exact .var name
  | string str => exact .string str
  | sin a ih => exact .sin ih
  | cos a ih => exact .cos ih
  | sqrt a ih => exact .sqrt ih
  | minus a ih => exact .minus ih
  | add a b iha ihb => exact .add iha ihb
  | sub a b iha ihb => exact .sub iha ihb
  | mult a b iha ihb => exact .mult iha ihb
  | div a b iha ihb => exact .div iha ihb

theorem Denotes.agree (hagree : Agree I J h h') (hnum : ∀ n, h (I.num n) = h' (J.num n))
    {visited : Addr → Bool} {f : Addr} {e : Expr} {a : α} (hd : Denotes I s visited f e a) :
    ∃ b, Denotes J s visited f e b ∧ h a = h' b := by
  have hrefl := fun e : Expr => Expr.Related.refl (L := Eq) (fun _ => rfl) e
  refine hd.transfer hagree ?_ s.model.value (fun x => hrefl _) (hrefl e)
  rintro n _ rfl
  exact hnum n

end Agree

/-! ### What is evaluated -/

def Scene.Evaluates (libm : Libm) (s : Scene) (f : Addr) (e : Expr) (st : Visit) (num : Num) :
    Prop := ∃ st', EndsWith (fun n => s.evalNum libm n f e st) (some num, st')

def Expr.Arith : Expr → Prop
  | .num _ | .var _ => True
  | .minus a => a.Arith
  | .add a b | .sub a b | .mult a b | .div a b => a.Arith ∧ b.Arith
  | .string _ | .sin _ | .cos _ | .sqrt _ => False

/-- These expressions, each in its frame, are arithmetic, and so is all that they refer to. -/
def Scene.Arithmetic (s : Scene) (exprs : Addr → Expr → Prop) : Prop :=
  ∀ f e, exprs f e → e.Arith ∧
    ∀ name ∈ e.vars, ∀ g v expr, Resolves s name f g (.var v expr) → exprs g expr

theorem Resolves.of_find {s : Scene} {f : Addr}
    (hfind : s.find f name = found) (h : found ≠ .absent) : Resolves s name f f found := by
  subst hfind
  exact .here h

section Evaluates

variable {libm : Libm} {s : Scene} {f : Addr}

theorem evalLoop_eq (name : Name) (l : Addr) (st : Visit) : s.evalLoop name l st =
    match s.loopValue l with
    | some x => some (some (makeNum x), st)
    | none => some (none, st.fail (.uninitialized name)) := by
  unfold Scene.evalLoop Scene.loopValue
  obtain ⟨currValue, n, active, initialized⟩ := s.loopState l
  cases currValue with
  | none => rfl
  | some value => cases initialized <;> rfl

theorem evalLoop_of_value {l : Addr} {x : ℚ} (h : s.loopValue l = some x) (name : Name)
    (st : Visit) : s.evalLoop name l st = some (some (makeNum x), st) := by
  rw [evalLoop_eq, h]

variable {num c : Num} {st : Visit} {error : Num → Num → EvalError} {op : Num → Num → Option Num}

theorem evalLoop_eq_some {l : Addr} {st' : Visit}
    (h : s.evalLoop name l st = some (some num, st')) :
    ∃ x, s.loopValue l = some x ∧ num = makeNum x := by
  rw [evalLoop_eq] at h
  cases hvalue : s.loopValue l with
  | none =>
    rw [hvalue] at h
    cases h
  | some x =>
    rw [hvalue] at h
    cases h
    exact ⟨x, rfl, rfl⟩

theorem orFail_eq_some {β : Type} {error : EvalError} {x : Option β} {st' : Visit} {res : β}
    (h : orFail error (x, st) = (some res, st')) : x = some res := by
  cases x with
  | none => cases h
  | some x =>
    cases h
    rfl

theorem evalUnary_eq_some {op : Num → Option Num} {error : Num → EvalError} {a : Eval Num}
    {st' : Visit} (h : evalUnary op error a st = some (some c, st')) :
    ∃ x st₁, a st = some (some x, st₁) ∧ op x = some c := by
  obtain ⟨⟨x, st₁⟩, hrun, h⟩ := Option.bind_eq_some_iff.mp h
  cases x with
  | none => cases h
  | some x => exact ⟨x, st₁, hrun, orFail_eq_some (Option.some.inj h)⟩

theorem evalBinary_eq_some {a b : Eval Num} {st' : Visit}
    (h : evalBinary op error a b st = some (some c, st')) :
    ∃ x st₁ y st₂, a st = some (some x, st₁) ∧ b st₁ = some (some y, st₂) ∧ op x y = some c := by
  obtain ⟨⟨x, st₁⟩, hrun, h⟩ := Option.bind_eq_some_iff.mp h
  cases x with
  | none => cases h
  | some x =>
    obtain ⟨⟨y, st₂⟩, hrun', h⟩ := Option.bind_eq_some_iff.mp h
    cases y with
    | none => cases h
    | some y => exact ⟨x, st₁, y, st₂, hrun, hrun', orFail_eq_some (Option.some.inj h)⟩

variable (libm s f) in
def DenotesRuns (var : Name → Eval Num) (e : Expr) : Prop :=
  ∀ st num st', evalExpr libm var e st = some (some num, st') → Denotes numbers s st.visited f e num

variable (s f) in
def DenotesVars (var : Name → Eval Num) (names : List Name) : Prop :=
  ∀ name ∈ names, ∀ st num st', var name st = some (some num, st') →
    Denotes numbers s st.visited f (.var name) num

theorem denotes_operands {var : Name → Eval Num} (hvar : ∀ name, Restores (var name)) {a b : Expr}
    {st' : Visit} (iha : DenotesVars s f var a.vars → DenotesRuns libm s f var a)
    (ihb : DenotesVars s f var b.vars → DenotesRuns libm s f var b)
    (hdenotes : DenotesVars s f var (a.vars ++ b.vars))
    (h : evalBinary op error (evalExpr libm var a) (evalExpr libm var b) st = some (some c, st')) :
    ∃ x y, Denotes numbers s st.visited f a x ∧ Denotes numbers s st.visited f b y ∧
      op x y = some c := by
  obtain ⟨x, st₁, y, st₂, ha, hb, hop⟩ := evalBinary_eq_some h
  have hvisited := ((reports_evalExpr libm hvar a).restores st _ st₁ ha).visited
  exact ⟨x, y, iha (fun name hname => hdenotes name (List.mem_append_left _ hname)) st x st₁ ha,
    hvisited ▸ ihb (fun name hname => hdenotes name (List.mem_append_right _ hname)) st₁ y st₂ hb,
    hop⟩

theorem denotes_evalExpr {var : Name → Eval Num} (hvar : ∀ name, Restores (var name)) {e : Expr}
    (harith : e.Arith) (hdenotes : DenotesVars s f var e.vars) : DenotesRuns libm s f var e := by
  intro st num st' h
  induction e generalizing st st' num with
  | num n =>
    cases h
    exact .num
  | var name =>
    obtain ⟨⟨x, st₁⟩, hrun, h⟩ := Option.map_eq_some_iff.mp h
    cases orFail_eq_some h
    exact hdenotes name List.mem_cons_self st num st₁ hrun
  | string str | sin a _ | cos a _ | sqrt a _ => cases harith
  | minus a ih =>
    obtain ⟨x, st₁, hrun, hop⟩ := evalUnary_eq_some h
    cases hop
    exact .minus (ih harith hdenotes st x st₁ hrun)
  | add a b iha ihb =>
    obtain ⟨x, y, hx, hy, hop⟩ := denotes_operands hvar (iha harith.1) (ihb harith.2) hdenotes h
    exact .add hx hy hop
  | sub a b iha ihb =>
    obtain ⟨x, y, hx, hy, hop⟩ := denotes_operands hvar (iha harith.1) (ihb harith.2) hdenotes h
    exact .sub hx hy hop
  | mult a b iha ihb =>
    obtain ⟨x, y, hx, hy, hop⟩ := denotes_operands hvar (iha harith.1) (ihb harith.2) hdenotes h
    exact .mult hx hy hop
  | div a b iha ihb =>
    obtain ⟨x, y, hx, hy, hop⟩ := denotes_operands hvar (iha harith.1) (ihb harith.2) hdenotes h
    exact .div hx hy hop

theorem Denotes.outward {α : Type} {I : Interpretation α} {visited : Addr → Bool} {g : Addr} {a : α}
    (habsent : s.find f name = .absent) (houter : s.outer f = some g)
    (h : Denotes I s visited g (.var name) a) : Denotes I s visited f (.var name) a := by
  cases h with
  | var hfound hv hexpr => exact .var (.outward habsent houter hfound) hv hexpr
  | loop hfound hvalue => exact .loop (.outward habsent houter hfound) hvalue

theorem denotes_evalVar (hexprs : s.Arithmetic exprs) {n : ℕ}
    (hname : ∀ g v expr, Resolves s name f g (.var v expr) → exprs g expr)
    {st' : Visit} (h : s.evalVar libm n f name st = some (some num, st')) :
    Denotes numbers s st.visited f (.var name) num := by
  have hrestores := (nameRule_evalVar libm s).restores (s := s)
  induction n generalizing f name st st' num with
  | zero => cases h
  | succ n ih =>
    cases hfind : s.find f name with
    | var v expr =>
      have hresolves := Resolves.of_find hfind nofun
      cases hv : st.visited v with
      | true => cases h.symm.trans (evalName_again hfind hv)
      | false =>
        obtain ⟨⟨x, st₁⟩, heval, hmark⟩ := Option.map_eq_some_iff.mp
          ((evalName_var hfind hv).symm.trans h)
        cases hmark
        obtain ⟨harith, hvars⟩ := hexprs f expr (hname f v expr hresolves)
        exact .var hresolves hv (denotes_evalExpr (hrestores n f) harith
          (fun name hmem st num st' => ih (hvars name hmem)) _ _ _ heval)
    | loop l =>
      obtain ⟨x, hvalue, rfl⟩ := evalLoop_eq_some ((evalName_loop hfind).symm.trans h)
      exact .loop (Resolves.of_find hfind nofun) hvalue
    | absent =>
      cases houter : s.outer f with
      | none => cases h.symm.trans (evalName_outermost hfind houter)
      | some g =>
        exact .outward hfind houter (ih (fun g v expr hresolves =>
          hname g v expr (.outward hfind houter hresolves))
          ((evalName_outer hfind houter).symm.trans h))
    | null => cases h.symm.trans (evalName_null hfind (n + 1))

theorem endsWith_of_resolves {g : Addr} {r : Option Num × Visit} (h : Resolves s name f g found)
    (hends : EndsWith (fun n => s.evalVar libm n g name st) r) :
    EndsWith (fun n => s.evalVar libm n f name st) r := by
  induction h with
  | here => exact hends
  | outward habsent houter _ ih => exact (ih hends).succ fun n => evalName_outer habsent houter

theorem endsWith_var {st' : Visit}
    (h : EndsWith (fun n => s.evalVar libm n f name st) (some num, st')) :
    EndsWith (fun n => s.evalNum libm n f (.var name) st) (some num, st') :=
  h.map (orFail (.undefinedVar name))

theorem endsWith_binary {a b : Expr} {visited : Addr → Bool} {x y : Num}
    (ha : ∀ st, st.visited = visited → s.Evaluates libm f a st x)
    (hb : ∀ st, st.visited = visited → s.Evaluates libm f b st y) (hop : op x y = some c)
    (st : Visit) (hst : st.visited = visited) :
    ∃ st', EndsWith (fun n => evalBinary op error (s.evalNum libm n f a) (s.evalNum libm n f b) st)
      (some c, st') := by
  obtain ⟨st₁, k, hk⟩ := ha st hst
  have hrestores := (nameRule_evalVar libm s).restores (s := s) k f
  have hvisited := ((reports_evalExpr libm hrestores a).restores st _ st₁ (hk k le_rfl)).visited
  obtain ⟨st₂, hends⟩ := hb st₁ (hvisited.trans hst)
  refine ⟨st₂, EndsWith.bind ⟨k, hk⟩ (hends.bind ?_)⟩
  simp only [hop]
  exact endsWith_const (some c, st₂)

theorem evaluates_of_denotes {visited : Addr → Bool} {e : Expr}
    (h : Denotes numbers s visited f e num) (st : Visit) (hst : st.visited = visited) :
    s.Evaluates libm f e st num := by
  induction h generalizing st with
  | @num _ _ n => exact ⟨st, endsWith_const (some n, st)⟩
  | @var visited _ g v name expr _ hfound hv _ ih =>
    have hmarked : (st.mark v true).visited = Function.update visited v true := by
      rw [Visit.mark, hst]
    obtain ⟨st', hends⟩ := ih (st.mark v true) hmarked
    have hcall : ∀ n, s.evalVar libm (n + 1) g name st =
        (s.evalNum libm n g expr (st.mark v true)).map fun p => (p.1, p.2.mark v false) :=
      fun n => evalName_var hfound.find (by rw [hst, hv])
    have hmap := hends.map fun p => (p.1, p.2.mark v false)
    exact ⟨st'.mark v false, endsWith_var (endsWith_of_resolves hfound (hmap.succ hcall))⟩
  | @loop _ _ g l name x hfound hvalue =>
    refine ⟨st, endsWith_var (endsWith_of_resolves hfound ?_)⟩
    exact (endsWith_const (some (makeNum x), st)).succ fun n =>
      (evalName_loop hfound.find).trans (evalLoop_of_value hvalue name st)
  | @minus _ _ _ a _ ih =>
    obtain ⟨st', hends⟩ := ih st hst
    exact ⟨st', hends.bind (endsWith_const (some (opMinus a), st'))⟩
  | add _ _ hop iha ihb => exact endsWith_binary iha ihb hop st hst
  | sub _ _ hop iha ihb => exact endsWith_binary iha ihb hop st hst
  | mult _ _ hop iha ihb => exact endsWith_binary iha ihb hop st hst
  | div _ _ hop iha ihb => exact endsWith_binary iha ihb hop st hst

theorem evaluates_iff_denotes (libm : Libm)
    (hexprs : s.Arithmetic exprs) {e : Expr} (he : exprs f e) (st : Visit) (num : Num) :
    s.Evaluates libm f e st num ↔ Denotes numbers s st.visited f e num := by
  refine ⟨fun ⟨st', k, hk⟩ => ?_, fun h => evaluates_of_denotes h st rfl⟩
  obtain ⟨harith, hvars⟩ := hexprs f e he
  exact denotes_evalExpr ((nameRule_evalVar libm s).restores k f) harith
    (fun name hname st num st' => denotes_evalVar hexprs (hvars name hname)) _ _ _ (hk k le_rfl)

end Evaluates

/-! ### Units do not matter -/

def Interpretation.prod {α β : Type} (I : Interpretation α) (J : Interpretation β) :
    Interpretation (α × β) where
  num n := (I.num n, J.num n)
  minus a := (I.minus a.1, J.minus a.2)
  add a b := (I.add a.1 b.1).bind fun c => (J.add a.2 b.2).map (c, ·)
  sub a b := (I.sub a.1 b.1).bind fun c => (J.sub a.2 b.2).map (c, ·)
  mult a b := (I.mult a.1 b.1).bind fun c => (J.mult a.2 b.2).map (c, ·)
  div a b := (I.div a.1 b.1).bind fun c => (J.div a.2 b.2).map (c, ·)

section Units

variable {s : Scene} {f : Addr} {visited : Addr → Bool} {e : Expr}

theorem Resolves.unique {g g' : Addr} {found' : Found}
    (h : Resolves s name f g found) (h' : Resolves s name f g' found') :
    g = g' ∧ found = found' := by
  induction h with
  | here hne =>
    cases h' with
    | here => exact ⟨rfl, rfl⟩
    | outward habsent => exact absurd habsent hne
  | outward habsent houter _ ih =>
    cases h' with
    | here hne => exact absurd habsent hne
    | outward _ houter' hresolves =>
      cases houter.symm.trans houter'
      exact ih hresolves

theorem Denotes.prod {α β : Type} {I : Interpretation α} {J : Interpretation β} {a : α} {b : β}
    (ha : Denotes I s visited f e a) (hb : Denotes J s visited f e b) :
    Denotes (I.prod J) s visited f e (a, b) := by
  have hbind : ∀ {x : Option α} {y : Option β} {c d}, x = some c → y = some d →
      (x.bind fun c => y.map (c, ·)) = some (c, d) := by
    rintro _ _ c d rfl rfl
    rfl
  induction ha generalizing b with
  | num =>
    cases hb
    exact .num (I := I.prod J)
  | var hfound hv _ ih =>
    cases hb with
    | var hfound' _ hexpr =>
      obtain ⟨rfl, heq⟩ := hfound.unique hfound'
      cases heq
      exact .var hfound hv (ih hexpr)
    | loop hfound' _ => cases (hfound.unique hfound').2
  | loop hfound hvalue =>
    cases hb with
    | var hfound' _ _ => cases (hfound.unique hfound').2
    | loop hfound' hvalue' =>
      cases (hfound.unique hfound').2
      cases hvalue.symm.trans hvalue'
      exact .loop (I := I.prod J) hfound hvalue
  | minus _ ih =>
    cases hb with
    | minus hb => exact .minus (I := I.prod J) (ih hb)
  | add _ _ hop iha ihb =>
    cases hb with
    | add hx hy hop' => exact .add (iha hx) (ihb hy) (hbind hop hop')
  | sub _ _ hop iha ihb =>
    cases hb with
    | sub hx hy hop' => exact .sub (iha hx) (ihb hy) (hbind hop hop')
  | mult _ _ hop iha ihb =>
    cases hb with
    | mult hx hy hop' => exact .mult (iha hx) (ihb hy) (hbind hop hop')
  | div _ _ hop iha ihb =>
    cases hb with
    | div hx hy hop' => exact .div (iha hx) (ihb hy) (hbind hop hop')

theorem bind_map_eq_some {α β : Type} {x : Option α} {y : Option β} {p : α × β}
    (h : (x.bind fun c => y.map (c, ·)) = some p) : x = some p.1 ∧ y = some p.2 := by
  obtain ⟨c, hc, h⟩ := Option.bind_eq_some_iff.mp h
  obtain ⟨d, hd, rfl⟩ := Option.map_eq_some_iff.mp h
  exact ⟨hc, hd⟩

theorem Denotes.of_prod {α β : Type} {I : Interpretation α} {J : Interpretation β} {p : α × β}
    (h : Denotes (I.prod J) s visited f e p) :
    Denotes I s visited f e p.1 ∧ Denotes J s visited f e p.2 := by
  induction h with
  | num => exact ⟨.num, .num⟩
  | var hfound hv _ ih => exact ⟨.var hfound hv ih.1, .var hfound hv ih.2⟩
  | loop hfound hvalue => exact ⟨.loop hfound hvalue, .loop hfound hvalue⟩
  | minus _ ih => exact ⟨.minus ih.1, .minus ih.2⟩
  | add _ _ hop iha ihb =>
    obtain ⟨h, h'⟩ := bind_map_eq_some hop
    exact ⟨.add iha.1 ihb.1 h, .add iha.2 ihb.2 h'⟩
  | sub _ _ hop iha ihb =>
    obtain ⟨h, h'⟩ := bind_map_eq_some hop
    exact ⟨.sub iha.1 ihb.1 h, .sub iha.2 ihb.2 h'⟩
  | mult _ _ hop iha ihb =>
    obtain ⟨h, h'⟩ := bind_map_eq_some hop
    exact ⟨.mult iha.1 ihb.1 h, .mult iha.2 ihb.2 h'⟩
  | div _ _ hop iha ihb =>
    obtain ⟨h, h'⟩ := bind_map_eq_some hop
    exact ⟨.div iha.1 ihb.1 h, .div iha.2 ihb.2 h'⟩

end Units

theorem agree_prod : Agree numbers (exponents.prod millimeters) Num.inMm
    fun p => { type := .mm, exponent := p.1, n := p.2 } where
  loop x := rfl
  minus a p hp := by
    change (opMinus a).inMm = _
    rw [inMm_opMinus, hp]
    rfl
  add a a' p p' hp hp' := by
    change (opAdd a a').map Num.inMm = _
    rw [inMm_opAdd, hp, hp']
    change (if p.1 ≠ p'.1 then none else some _) = Option.map _ (Option.bind (if _ then _ else _) _)
    split <;> rfl
  sub a a' p p' hp hp' := by
    change (opSub a a').map Num.inMm = _
    rw [inMm_opSub, hp, hp']
    change (if p.1 ≠ p'.1 then none else some _) = Option.map _ (Option.bind (if _ then _ else _) _)
    split <;> rfl
  mult a a' p p' hp hp' := by
    change (opMult a a').map Num.inMm = _
    rw [inMm_opMult, hp, hp']
    rfl
  div a a' p p' hp hp' := by
    change (opDiv a a').map Num.inMm = _
    rw [inMm_opDiv, hp, hp']
    change (if p'.2 = 0 then none else some _) = Option.map _ (Option.map _ (if _ then _ else _))
    split <;> rfl

theorem agree_numbers : Agree numbers numbers Num.inMm Num.inMm where
  loop x := rfl
  minus a b h := by
    change (opMinus a).inMm = (opMinus b).inMm
    rw [inMm_opMinus, inMm_opMinus, h]
  add a a' b b' h h' := by
    change (opAdd a a').map Num.inMm = (opAdd b b').map Num.inMm
    rw [inMm_opAdd, inMm_opAdd, h, h']
  sub a a' b b' h h' := by
    change (opSub a a').map Num.inMm = (opSub b b').map Num.inMm
    rw [inMm_opSub, inMm_opSub, h, h']
  mult a a' b b' h h' := by
    change (opMult a a').map Num.inMm = (opMult b b').map Num.inMm
    rw [inMm_opMult, inMm_opMult, h, h']
  div a a' b b' h h' := by
    change (opDiv a a').map Num.inMm = (opDiv b b').map Num.inMm
    rw [inMm_opDiv, inMm_opDiv, h, h']

theorem agree_inMm : Agree numbers numbers Num.inMm id where
  loop x := rfl
  minus a b h := by
    change (opMinus a).inMm = opMinus b
    rw [inMm_opMinus, h, id]
  add a a' b b' h h' := by
    change (opAdd a a').map Num.inMm = (opAdd b b').map id
    rw [inMm_opAdd, h, h', Option.map_id, id, id, id]
  sub a a' b b' h h' := by
    change (opSub a a').map Num.inMm = (opSub b b').map id
    rw [inMm_opSub, h, h', Option.map_id, id, id, id]
  mult a a' b b' h h' := by
    change (opMult a a').map Num.inMm = (opMult b b').map id
    rw [inMm_opMult, h, h', Option.map_id, id, id, id]
  div a a' b b' h h' := by
    change (opDiv a a').map Num.inMm = (opDiv b b').map id
    rw [inMm_opDiv, h, h', Option.map_id, id, id, id]

def Expr.inMm : Expr → Expr
  | .num n => .num n.inMm
  | .var name => .var name
  | .string str => .string str
  | .sin a => .sin a.inMm
  | .cos a => .cos a.inMm
  | .sqrt a => .sqrt a.inMm
  | .minus a => .minus a.inMm
  | .add a b => .add a.inMm b.inMm
  | .sub a b => .sub a.inMm b.inMm
  | .mult a b => .mult a.inMm b.inMm
  | .div a b => .div a.inMm b.inMm

def Scene.inMm (s : Scene) : Scene :=
  s.withValues fun x => { s.model.value x with expr := (s.model.value x).expr.inMm }

theorem Expr.related_inMm (e : Expr) : e.Related (fun n n' => n.inMm = n') e.inMm := by
  induction e with
  | num n => exact .num rfl
  | var name => exact .var name
  | string str => exact .string str
  | sin a ih => exact .sin ih
  | cos a ih => exact .cos ih
  | sqrt a ih => exact .sqrt ih
  | minus a ih => exact .minus ih
  | add a b iha ihb => exact .add iha ihb
  | sub a b iha ihb => exact .sub iha ihb
  | mult a b iha ihb => exact .mult iha ihb
  | div a b iha ihb => exact .div iha ihb

abbrev Expr.SameLengths : Expr → Expr → Prop := Expr.Related fun n n' => n.inMm = n'.inMm

theorem Expr.Related.symm {L : Num → Num → Prop} {e e' : Expr} (h : e.Related L e') :
    e'.Related (fun n n' => L n' n) e := by
  induction h with
  | num h => exact .num h
  | var name => exact .var name
  | string str => exact .string str
  | sin _ ih => exact .sin ih
  | cos _ ih => exact .cos ih
  | sqrt _ ih => exact .sqrt ih
  | minus _ ih => exact .minus ih
  | add _ _ iha ihb => exact .add iha ihb
  | sub _ _ iha ihb => exact .sub iha ihb
  | mult _ _ iha ihb => exact .mult iha ihb
  | div _ _ iha ihb => exact .div iha ihb

theorem Expr.Related.arith {L : Num → Num → Prop} {e e' : Expr} (h : e.Related L e')
    (harith : e.Arith) : e'.Arith := by
  induction h with
  | num | var => trivial
  | string | sin | cos | sqrt => cases harith
  | minus _ ih => exact ih harith
  | add _ _ iha ihb | sub _ _ iha ihb | mult _ _ iha ihb | div _ _ iha ihb =>
    exact ⟨iha harith.1, ihb harith.2⟩

theorem Expr.Related.vars {L : Num → Num → Prop} {e e' : Expr} (h : e.Related L e') :
    e'.vars = e.vars := by
  induction h with
  | num | var | string => rfl
  | sin _ ih | cos _ ih | sqrt _ ih | minus _ ih => exact ih
  | add _ _ iha ihb | sub _ _ iha ihb | mult _ _ iha ihb | div _ _ iha ihb =>
    exact congrArg₂ _ iha ihb

theorem Scene.Arithmetic.withValues {L : Num → Num → Prop} {s : Scene} (hexprs : s.Arithmetic exprs)
    {value' : Addr → ValueNode}
    (hvalues : ∀ x, (s.model.value x).expr.Related L (value' x).expr) :
    (s.withValues value').Arithmetic fun f e' => ∃ e, exprs f e ∧ e.Related L e' := by
  rintro f e' ⟨e, he, hrelated⟩
  obtain ⟨harith, hvars⟩ := hexprs f e he
  refine ⟨hrelated.arith harith, fun name hname g v expr' hresolves => ?_⟩
  rw [hrelated.vars] at hname
  obtain ⟨found, hfound, hback⟩ := resolves_related (s := s.withValues value')
    (fun x => (hvalues x).symm) hresolves
  cases hback with
  | var hexpr => exact ⟨_, hvars name hname g v _ hfound, hexpr.symm⟩

/-- **Units do not matter.** An evaluation returns a number when the exponents fit and no divisor is
zero, and that number is the one computed in millimeters; equal literals in other units lead to an
equal number. -/
theorem Scene.units_do_not_matter (libm : Libm) {s : Scene} {exprs : Addr → Expr → Prop}
    (hexprs : s.Arithmetic exprs) {f : Addr} {e : Expr} (he : exprs f e) (st : Visit) :
    ((∃ num, s.Evaluates libm f e st num) ↔
      (∃ d, Denotes exponents s st.visited f e d) ∧ ∃ x, Denotes millimeters s st.visited f e x) ∧
    (∀ num, s.Evaluates libm f e st num →
      Denotes exponents s st.visited f e num.exponent ∧
      Denotes millimeters s st.visited f e num.mm ∧
      s.inMm.Evaluates libm f e.inMm st num.inMm) ∧
    ∀ value' e', (∀ x, (s.model.value x).expr.SameLengths (value' x).expr) → e.SameLengths e' →
      (∀ num, s.Evaluates libm f e st num →
        ∃ num', (s.withValues value').Evaluates libm f e' st num' ∧ num.inMm = num'.inMm) ∧
      ∀ num', (s.withValues value').Evaluates libm f e' st num' →
        ∃ num, s.Evaluates libm f e st num ∧ num.inMm = num'.inMm := by
  have hiff := fun num => evaluates_iff_denotes libm hexprs he st num
  have hmeasured : ∀ num, s.Evaluates libm f e st num →
      Denotes exponents s st.visited f e num.exponent ∧
        Denotes millimeters s st.visited f e num.mm := by
    intro num hnum
    obtain ⟨⟨d, x⟩, hp, heq⟩ := ((hiff num).mp hnum).agree agree_prod fun _ => rfl
    cases heq
    exact hp.of_prod
  refine ⟨⟨?_, ?_⟩, fun num hnum => ?_, fun value' e' hvalues hsame => ⟨fun num hnum => ?_,
    fun num' hnum' => ?_⟩⟩
  · rintro ⟨num, hnum⟩
    exact ⟨⟨_, (hmeasured num hnum).1⟩, _, (hmeasured num hnum).2⟩
  · rintro ⟨⟨d, hd⟩, x, hx⟩
    obtain ⟨num, hnum, -⟩ := (hd.prod hx).agree agree_prod.symm fun _ => rfl
    exact ⟨num, (hiff num).mpr hnum⟩
  · obtain ⟨num', hnum', heq⟩ := ((hiff num).mp hnum).transfer (L := fun n n' => n.inMm = n')
      agree_inMm (fun _ _ h => h) s.inMm.model.value
      (fun x => (s.model.value x).expr.related_inMm) e.related_inMm
    cases heq
    exact ⟨(hmeasured num hnum).1, (hmeasured num hnum).2, evaluates_of_denotes hnum' st rfl⟩
  · obtain ⟨num', hnum', heq⟩ := ((hiff num).mp hnum).transfer agree_numbers (fun _ _ h => h)
      value' hvalues hsame
    exact ⟨num', evaluates_of_denotes hnum' st rfl, heq⟩
  · have hiff' := evaluates_iff_denotes libm (hexprs.withValues hvalues)
      ⟨e, he, hsame⟩ st num'
    obtain ⟨num, hnum, heq⟩ := (hiff'.mp hnum').transfer agree_numbers (fun _ _ h => h.symm)
      s.model.value (fun x => (hvalues x).symm) hsame.symm
    exact ⟨num, (hiff num).mpr hnum, heq.symm⟩

def unitScene : Scene :=
  (tableScene [15]).withValues fun x =>
    { expr := .num (if x = 20 then ⟨.mil, 1, 100⟩ else ⟨.mm, 1, 2⟩), row := 15 }

theorem Scene.units_do_not_matter_sum : ∃ num, unitScene.Evaluates libmAtZero 1
    (.add (.var ['x']) (.num ⟨.mm, 1, 1⟩)) ⟨fun _ => false, []⟩ num := by
  have hfound : Resolves unitScene ['x'] 1 1 (.var 10 (.num ⟨.mil, 1, 100⟩)) :=
    Resolves.of_find rfl nofun
  have hexprs : unitScene.Arithmetic fun f e =>
      (f = 1 ∧ e = .add (.var ['x']) (.num ⟨.mm, 1, 1⟩)) ∨ e = .num ⟨.mil, 1, 100⟩ := by
    rintro f e (⟨rfl, rfl⟩ | rfl)
    · refine ⟨⟨trivial, trivial⟩, fun name hname g v expr hresolves => Or.inr ?_⟩
      cases List.mem_singleton.mp hname
      cases (hfound.unique hresolves).2
      rfl
    · exact ⟨trivial, fun name hname => absurd hname List.not_mem_nil⟩
  have hunits := Scene.units_do_not_matter libmAtZero hexprs (Or.inl ⟨rfl, rfl⟩)
    ⟨fun _ => false, []⟩
  exact hunits.1.mpr ⟨⟨1, .add (.var hfound rfl .num) .num rfl⟩,
    ⟨_, .add (.var hfound rfl .num) .num rfl⟩⟩

end Openmoko.Fped
