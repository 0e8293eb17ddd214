import Openmoko.Fped.Proof.ExprGrammar
import Openmoko.Fped.Proof.UnparseScan

/-!
# Expressions are read back

A sum or product that stands on the right of another one is written without parentheses and is read
back nested to the left, which has the same value. Only a minus under a minus is not read back: a
unary minus takes a primary expression, but is written in front of another one.
-/

namespace Openmoko.Fped

def isMinus : Expr → Bool
  | .minus _ => true
  | _ => false

def noDoubleMinus : Expr → Bool
  | .num _ | .var _ | .string _ => true
  | .minus a => !isMinus a && noDoubleMinus a
  | .sin a | .cos a | .sqrt a => noDoubleMinus a
  | .add a b | .sub a b | .mult a b | .div a b => noDoubleMinus a && noDoubleMinus b

def Produced (e : Expr) : Prop := ∃ s, Derives .add (scan .noKeyword s) e

/-- What is unparsed is accepted, and what it is read as has the value of the expression. -/
def RoundTrips (e : Expr) : Prop :=
  (∃ e', Derives .add (scan .noKeyword (unparse (some e))) e') ∧
    ∀ e', Derives .add (scan .noKeyword (unparse (some e))) e' →
      ∀ libm env, evalNum libm env e' = evalNum libm env e ∧ evalStr env e' = evalStr env e

def graftAdd (a : Expr) : Expr → Expr
  | .add x y => .add (graftAdd a x) y
  | .sub x y => .sub (graftAdd a x) y
  | b => .add a b

def graftMult (a : Expr) : Expr → Expr
  | .mult x y => .mult (graftMult a x) y
  | .div x y => .div (graftMult a x) y
  | b => .mult a b

def reparse : Expr → Expr
  | .num num => .num num
  | .var name => .var name
  | .string str => .string str
  | .sin a => .sin (reparse a)
  | .cos a => .cos (reparse a)
  | .sqrt a => .sqrt (reparse a)
  | .minus a => .minus (reparse a)
  | .add a b => graftAdd (reparse a) (reparse b)
  | .sub a b => .sub (reparse a) (reparse b)
  | .mult a b => graftMult (reparse a) (reparse b)
  | .div a b => .div (reparse a) (reparse b)

theorem precedence_graftAdd (a b : Expr) : precedence (graftAdd a b) = .add := by
  cases b <;> rfl

theorem precedence_graftMult (a b : Expr) : precedence (graftMult a b) = .mult := by
  cases b <;> rfl

theorem precedence_reparse (e : Expr) : precedence (reparse e) = precedence e := by
  cases e with
  | add a b => exact precedence_graftAdd _ _
  | mult a b => exact precedence_graftMult _ _
  | _ => rfl

theorem graftAdd_of_precedence (a : Expr) {b : Expr} (hb : precedence b ≠ .add) :
    graftAdd a b = .add a b := by
  cases b with
  | add x y => exact absurd rfl hb
  | sub x y => exact absurd rfl hb
  | _ => rfl

theorem graftMult_of_precedence (a : Expr) {b : Expr} (hb : precedence b ≠ .mult) :
    graftMult a b = .mult a b := by
  cases b with
  | mult x y => exact absurd rfl hb
  | div x y => exact absurd rfl hb
  | _ => rfl

theorem graftAdd_assoc (a b c : Expr) : graftAdd (graftAdd a b) c = graftAdd a (graftAdd b c) := by
  induction c with
  | add x y ihx _ => simp only [graftAdd, ihx]
  | sub x y ihx _ => simp only [graftAdd, ihx]
  | _ => rfl

theorem graftMult_assoc (a b c : Expr) :
    graftMult (graftMult a b) c = graftMult a (graftMult b c) := by
  induction c with
  | mult x y ihx _ => simp only [graftMult, ihx]
  | div x y ihx _ => simp only [graftMult, ihx]
  | _ => rfl

section Value

variable (libm : Libm) (env : VarEnv)

theorem evalNum_graftAdd (a b : Expr) :
    evalNum libm env (graftAdd a b) =
      binary opAdd (evalNum libm env a) (evalNum libm env b) := by
  induction b with
  | add x y ihx _ => rw [graftAdd, evalNum, evalNum, ihx, binary_add_assoc]
  | sub x y ihx _ => rw [graftAdd, evalNum, evalNum, ihx, binary_sub_assoc]
  | _ => rfl

theorem evalNum_graftMult (a b : Expr) :
    evalNum libm env (graftMult a b) =
      binary opMult (evalNum libm env a) (evalNum libm env b) := by
  induction b with
  | mult x y ihx _ => rw [graftMult, evalNum, evalNum, ihx, binary_mult_assoc]
  | div x y ihx _ => rw [graftMult, evalNum, evalNum, ihx, binary_div_assoc]
  | _ => rfl

theorem evalNum_reparse (e : Expr) : evalNum libm env (reparse e) = evalNum libm env e := by
  induction e with
  | num _ | var _ | string _ => rfl
  | sin a ih | cos a ih | sqrt a ih | minus a ih => simp only [reparse, evalNum, ih]
  | add a b iha ihb => rw [reparse, evalNum_graftAdd, iha, ihb, evalNum]
  | mult a b iha ihb => rw [reparse, evalNum_graftMult, iha, ihb, evalNum]
  | sub a b iha ihb | div a b iha ihb => simp only [reparse, evalNum, iha, ihb]

theorem evalStr_of_precedence {e : Expr} (he : precedence e ≠ .primary) : evalStr env e = none := by
  cases e with
  | var name => exact absurd rfl he
  | string str => exact absurd rfl he
  | _ => rfl

theorem evalStr_reparse (e : Expr) : evalStr env (reparse e) = evalStr env e := by
  cases e with
  | add a b =>
    apply evalStr_of_precedence
    rw [precedence_reparse]
    exact nofun
  | mult a b =>
    apply evalStr_of_precedence
    rw [precedence_reparse]
    exact nofun
  | _ => rfl

end Value

theorem Derives.lift {p q : Prec} {ts : List Token} {e : Expr} (h : Derives p ts e)
    (hle : q.rank ≤ p.rank) : Derives q ts e := by
  have hunary : Derives .primary ts e → Derives .unary ts e := .unaryPrimary
  have hmult : Derives .unary ts e → Derives .mult ts e := .multUnary
  have hadd : Derives .mult ts e → Derives .add ts e := .addMult
  cases p <;> cases q <;> first
    | exact absurd hle (by decide)
    | tauto

theorem derives_parenTokens {own : Prec} {ts : List Token} {e : Expr} (h : Derives own ts e)
    (prec : Prec) : Derives prec (parenTokens prec own ts) e := by
  unfold parenTokens
  split
  · have hprimary : Derives .primary (.ch '(' :: ts ++ [.ch ')']) e :=
      .parens (h.lift (Nat.zero_le _))
    exact hprimary.lift (by cases prec <;> decide)
  · rename_i hle
    exact h.lift (Nat.not_lt.mp hle)

theorem exprTokens_eq (e : Expr) (prec : Prec) :
    exprTokens e prec = parenTokens prec (precedence e) (exprTokens e .add) := by
  cases e <;> cases prec <;> rfl

theorem exprTokens_congr {e : Expr} {p q : Prec}
    (h : p.rank > (precedence e).rank ↔ q.rank > (precedence e).rank) :
    exprTokens e p = exprTokens e q := by
  rw [exprTokens_eq e p, exprTokens_eq e q, parenTokens, parenTokens]
  simp only [h]

theorem exprTokens_unary {a : Expr} (ha : isMinus a = false) :
    exprTokens a .unary = exprTokens a .primary := by
  apply exprTokens_congr
  have hne : precedence a ≠ .unary := by
    cases a with
    | minus b => cases ha
    | _ => exact nofun
  cases hprec : precedence a with
  | unary => exact absurd hprec hne
  | _ => decide

/-- The text of an expression is derived by the rules for its precedence, and may also go on with a
sum or a product. -/
structure Readable (e : Expr) : Prop where
  own : Derives (precedence e) (exprTokens e .add) (reparse e)
  afterAdd : ∀ ts a, Derives .add ts a →
    Derives .add (ts ++ .ch '+' :: exprTokens e .add) (graftAdd a (reparse e))
  afterMult : ∀ ts a, Derives .mult ts a →
    Derives .mult (ts ++ .ch '*' :: exprTokens e .mult) (graftMult a (reparse e))

section Readable

variable {e : Expr}

theorem derives_of_own (hown : Derives (precedence e) (exprTokens e .add) (reparse e))
    (prec : Prec) : Derives prec (exprTokens e prec) (reparse e) := by
  rw [exprTokens_eq]
  exact derives_parenTokens hown prec

theorem Readable.derives (he : Readable e) (prec : Prec) :
    Derives prec (exprTokens e prec) (reparse e) := derives_of_own he.own prec

theorem afterAdd_of_precedence (hown : Derives (precedence e) (exprTokens e .add) (reparse e))
    (hprec : precedence e ≠ .add) (ts : List Token) (a : Expr) (ha : Derives .add ts a) :
    Derives .add (ts ++ .ch '+' :: exprTokens e .add) (graftAdd a (reparse e)) := by
  rw [graftAdd_of_precedence a (by rwa [precedence_reparse])]
  apply Derives.addAdd ha
  apply hown.lift
  cases hp : precedence e with
  | add => exact absurd hp hprec
  | _ => decide

theorem afterMult_of_precedence (hown : Derives (precedence e) (exprTokens e .add) (reparse e))
    (hprec : precedence e ≠ .mult) (ts : List Token) (a : Expr) (ha : Derives .mult ts a) :
    Derives .mult (ts ++ .ch '*' :: exprTokens e .mult) (graftMult a (reparse e)) := by
  rw [graftMult_of_precedence a (by rwa [precedence_reparse])]
  have hsame : exprTokens e .mult = exprTokens e .unary := by
    apply exprTokens_congr
    cases hp : precedence e with
    | mult => exact absurd hp hprec
    | _ => decide
  rw [hsame]
  exact Derives.multMult ha (derives_of_own hown .unary)

theorem readable_of_primary (hown : Derives (precedence e) (exprTokens e .add) (reparse e))
    (hadd : precedence e ≠ .add) (hmult : precedence e ≠ .mult) : Readable e :=
  ⟨hown, afterAdd_of_precedence hown hadd, afterMult_of_precedence hown hmult⟩

theorem readable_of_noDoubleMinus (he : noDoubleMinus e = true) : Readable e := by
  induction e with
  | num num => exact readable_of_primary (.number num) nofun nofun
  | var name => exact readable_of_primary (.id name) nofun nofun
  | string str => exact readable_of_primary (.string str) nofun nofun
  | sin a ih => exact readable_of_primary (.function ((ih he).derives .add) rfl) nofun nofun
  | cos a ih => exact readable_of_primary (.function ((ih he).derives .add) rfl) nofun nofun
  | sqrt a ih => exact readable_of_primary (.function ((ih he).derives .add) rfl) nofun nofun
  | minus a ih =>
    rw [noDoubleMinus, Bool.and_eq_true, Bool.not_eq_true'] at he
    have ha := (ih he.2).derives .primary
    rw [← exprTokens_unary he.1] at ha
    exact readable_of_primary (.unaryMinus ha) nofun nofun
  | add a b iha ihb =>
    rw [noDoubleMinus, Bool.and_eq_true] at he
    have ha := iha he.1
    have hb := ihb he.2
    have hown := hb.afterAdd _ _ (ha.derives .add)
    refine ⟨hown, ?_, afterMult_of_precedence hown nofun⟩
    intro ts x hx
    have hchain := hb.afterAdd _ _ (ha.afterAdd ts x hx)
    rw [graftAdd_assoc] at hchain
    simpa [exprTokens, parenTokens, Prec.rank, reparse, graftAdd] using hchain
  | sub a b iha ihb =>
    rw [noDoubleMinus, Bool.and_eq_true] at he
    have ha := iha he.1
    have hb := (ihb he.2).derives .mult
    have hown := Derives.addSub (ha.derives .add) hb
    refine ⟨hown, ?_, afterMult_of_precedence hown nofun⟩
    intro ts x hx
    have hchain := Derives.addSub (ha.afterAdd ts x hx) hb
    simpa [exprTokens, parenTokens, Prec.rank, reparse, graftAdd] using hchain
  | mult a b iha ihb =>
    rw [noDoubleMinus, Bool.and_eq_true] at he
    have ha := iha he.1
    have hb := ihb he.2
    have hown := hb.afterMult _ _ (ha.derives .mult)
    refine ⟨hown, afterAdd_of_precedence hown nofun, ?_⟩
    intro ts x hx
    have hchain := hb.afterMult _ _ (ha.afterMult ts x hx)
    rw [graftMult_assoc] at hchain
    simpa [exprTokens, parenTokens, Prec.rank, reparse, graftMult] using hchain
  | div a b iha ihb =>
    rw [noDoubleMinus, Bool.and_eq_true] at he
    have ha := iha he.1
    have hb := ((ihb he.2).derives .primary).lift (q := .unary) (by decide)
    have hown := Derives.multDiv (ha.derives .mult) hb
    refine ⟨hown, afterAdd_of_precedence hown nofun, ?_⟩
    intro ts x hx
    have hchain := Derives.multDiv (ha.afterMult ts x hx) hb
    simpa [exprTokens, parenTokens, Prec.rank, reparse, graftMult] using hchain

end Readable

def GetsOver (p : Pending) (ts : List Token) (ok : Bool) : Prop :=
  ∀ levels rest, NotCall rest →
    if ok then ∃ p' e', parseOperand levels p (ts ++ rest) = parseOperator levels p' e' rest
    else parseOperand levels p (ts ++ rest) = none

section GetsOver

variable {p : Pending} {ts us : List Token} {ok ok' : Bool}

theorem getsOver_level {name : Option Name} (hname : ∀ e, ∃ e', closeLevel name e = some e')
    (hts : GetsOver .empty ts ok) (p : Pending) (levels : Levels) (rest : List Token) :
    if ok then ∃ p' e', parseOperand ((p, name) :: levels) .empty (ts ++ .ch ')' :: rest) =
      parseOperator levels p' e' rest
    else parseOperand ((p, name) :: levels) .empty (ts ++ .ch ')' :: rest) = none := by
  have hlevel := hts ((p, name) :: levels) (.ch ')' :: rest) (notCall_ch (by decide) rest)
  cases ok with
  | false => exact hlevel
  | true =>
    obtain ⟨p', e', hparse⟩ := hlevel
    obtain ⟨e, hclose⟩ := hname (p'.add e')
    refine ⟨p, e, ?_⟩
    rw [hparse, parseOperator, hclose]

theorem getsOver_parens (hts : GetsOver .empty ts ok) (p : Pending) :
    GetsOver p (.ch '(' :: ts ++ [.ch ')']) ok := by
  intro levels rest hrest
  have hclose : ∀ e, ∃ e', closeLevel none e = some e' := fun e => ⟨e, rfl⟩
  have hlevel := getsOver_level hclose hts p levels rest
  rw [List.append_assoc, List.cons_append, parseOperand]
  exact hlevel

theorem getsOver_function {name : Name} (hname : ∀ e, ∃ e', mkFunction name e = some e')
    (hts : GetsOver .empty ts ok) (p : Pending) :
    GetsOver p (.id name :: .ch '(' :: ts ++ [.ch ')']) ok := by
  intro levels rest hrest
  have hlevel := @getsOver_level ts ok (some name) hname hts p levels rest
  rw [List.append_assoc, List.cons_append, List.cons_append, parseOperand]
  exact hlevel

theorem getsOver_parenTokens {prec own : Prec} (hts : ∀ p, p.neg = false → GetsOver p ts ok)
    (hown : own ≠ .primary) (hp : p.neg = false ∨ prec = .primary) :
    GetsOver p (parenTokens prec own ts) ok := by
  unfold parenTokens
  split
  · exact getsOver_parens (hts .empty rfl) p
  · rename_i hle
    rcases hp with hneg | rfl
    · exact hts p hneg
    · cases own with
      | primary => exact absurd rfl hown
      | _ => exact absurd (by decide) hle

theorem getsOver_binary {op : Char} (hop : op = '+' ∨ op = '-' ∨ op = '*' ∨ op = '/')
    (hts : GetsOver p ts ok) (hus : ∀ p, p.neg = false → GetsOver p us ok') :
    GetsOver p (ts ++ .ch op :: us) (ok && ok') := by
  intro levels rest hrest
  have hne : op ≠ '(' := by
    rintro rfl
    simp at hop
  have hfirst := hts levels (.ch op :: us ++ rest) (notCall_ch hne _)
  rw [List.append_assoc]
  cases ok with
  | false => exact hfirst
  | true =>
    obtain ⟨p', e', hparse⟩ := hfirst
    rw [hparse, Bool.true_and, List.cons_append]
    rcases hop with rfl | rfl | rfl | rfl
    all_goals
      rw [parseOperator]
      exact hus _ rfl levels rest hrest

end GetsOver

theorem getsOver_exprTokens (e : Expr) {prec : Prec} {p : Pending}
    (hp : p.neg = false ∨ prec = .primary) :
    GetsOver p (exprTokens e prec) (noDoubleMinus e) := by
  have hleft : ∀ {p : Pending} {prec : Prec}, p.neg = false → p.neg = false ∨ prec = .primary :=
    Or.inl
  induction e generalizing prec p with
  | num _ | string _ =>
    intro levels rest hrest
    exact ⟨p, _, by rw [exprTokens, List.singleton_append, parseOperand]⟩
  | var name =>
    intro levels rest hrest
    exact ⟨p, _, by rw [exprTokens, List.singleton_append, parseOperand_id hrest]⟩
  | sin a ih => exact getsOver_function (fun e => ⟨.sin e, rfl⟩) (ih (hleft rfl)) p
  | cos a ih => exact getsOver_function (fun e => ⟨.cos e, rfl⟩) (ih (hleft rfl)) p
  | sqrt a ih => exact getsOver_function (fun e => ⟨.sqrt e, rfl⟩) (ih (hleft rfl)) p
  | minus a ih =>
    refine getsOver_parenTokens ?_ (by decide) hp
    intro p hneg levels rest hrest
    have hsign : parseOperand levels p (.ch '-' :: (exprTokens a .unary ++ rest)) =
        parseOperand levels { p with neg := true } (exprTokens a .unary ++ rest) := by
      rw [parseOperand, hneg]
      rfl
    rw [List.cons_append, hsign]
    cases hminus : isMinus a with
    | true =>
      have hno : noDoubleMinus (.minus a) = false := by
        rw [noDoubleMinus, hminus]
        rfl
      rw [hno]
      cases a with
      | minus b =>
        change parseOperand _ _ (.ch '-' :: _) = none
        rw [parseOperand]
        rfl
      | _ => cases hminus
    | false =>
      have hsame : noDoubleMinus (.minus a) = noDoubleMinus a := by
        rw [noDoubleMinus, hminus]
        rfl
      rw [hsame, exprTokens_unary hminus]
      exact ih (Or.inr rfl) levels rest hrest
  | add a b iha ihb | sub a b iha ihb | mult a b iha ihb | div a b iha ihb =>
    refine getsOver_parenTokens ?_ (by decide) hp
    intro p hneg
    exact getsOver_binary (by simp) (iha (hleft hneg)) fun p hneg => ihb (hleft hneg)

theorem parseExpr_exprTokens {e : Expr} (hno : noDoubleMinus e = false) {rest : List Token}
    (hrest : NotCall rest) : parseExpr (exprTokens e .add ++ rest) = none := by
  have hover : GetsOver .empty (exprTokens e .add) (noDoubleMinus e) :=
    getsOver_exprTokens e (Or.inl rfl)
  rw [hno] at hover
  exact hover [] rest hrest

theorem scan_unparse {e : Expr} (he : Produced e) :
    scan .noKeyword (unparse (some e)) = exprTokens e .add := by
  obtain ⟨s, hs⟩ := he
  have hscannable := scannable_of_derives hs valid_of_mem_scan
  have hscan : scan .noKeyword (unparseOp e .add ++ []) = exprTokens e .add ++ scan .noKeyword [] :=
    scan_unparseOp rfl hscannable .add rfl
  rw [List.append_nil] at hscan
  rw [unparse, hscan, scan, List.append_nil]

theorem not_roundTrips {e : Expr} (he : Produced e) (hno : noDoubleMinus e ≠ true) :
    ¬ RoundTrips e := by
  rw [RoundTrips, scan_unparse he]
  rintro ⟨⟨e', hderives⟩, -⟩
  have hstops : Stops [] := fun t ht => by cases ht
  have hparse := parseExpr_of_derives hderives hstops
  rw [parseExpr_exprTokens (Bool.eq_false_iff.mpr hno) hstops.notCall] at hparse
  cases hparse

/-- **An expression is read back exactly if no minus has another one directly below it.** -/
theorem unparse_roundTrips_iff (e : Expr) (he : Produced e) :
    RoundTrips e ↔ noDoubleMinus e = true := by
  constructor
  · intro hround
    by_contra hno
    exact not_roundTrips he hno hround
  · intro hok
    have hreadable := (readable_of_noDoubleMinus hok).derives .add
    rw [RoundTrips, scan_unparse he]
    refine ⟨⟨_, hreadable⟩, ?_⟩
    intro e' hderives libm env
    rw [derives_unique hderives hreadable]
    exact ⟨evalNum_reparse libm env e, evalStr_reparse env e⟩

/-- `1mm+(2mil+3mm)`, which is written without the parentheses. -/
theorem unparse_roundTrips_sum :
    RoundTrips (.add (.num ⟨.mm, 1, 1⟩) (.add (.num ⟨.mil, 1, 2⟩) (.num ⟨.mm, 1, 3⟩))) := by
  refine (unparse_roundTrips_iff _ ⟨[.lit ⟨.mm, 1, 1⟩, .chr '+', .chr '(', .lit ⟨.mil, 1, 2⟩,
    .chr '+', .lit ⟨.mm, 1, 3⟩, .chr ')'], ?_⟩).mpr rfl
  rw [scan, scan_single (by simp), scan_single (by simp), scan, scan_single (by simp), scan,
    scan_single (by simp), scan]
  have hsum : Derives .add [.number ⟨.mil, 1, 2⟩, .ch '+', .number ⟨.mm, 1, 3⟩]
      (.add (.num ⟨.mil, 1, 2⟩) (.num ⟨.mm, 1, 3⟩)) :=
    .addAdd (.addMult (.multUnary (.unaryPrimary (.number _))))
      (.multUnary (.unaryPrimary (.number _)))
  exact .addAdd (.addMult (.multUnary (.unaryPrimary (.number _))))
    (.multUnary (.unaryPrimary (.parens hsum)))

/-- `-(-1)` is written as `--1`. -/
theorem unparse_minus_of_minus : ¬ ∀ e, Produced e → RoundTrips e := by
  intro hall
  have hproduced : Produced (.minus (.minus (.num ⟨.mm, 0, 1⟩))) := by
    refine ⟨[.chr '-', .chr '(', .chr '-', .lit ⟨.mm, 0, 1⟩, .chr ')'], ?_⟩
    rw [scan_minus (by simp), scan_single (by simp), scan_minus (by simp), scan,
      scan_single (by simp), scan]
    have hinner : Derives .add [.ch '-', .number ⟨.mm, 0, 1⟩] (.minus (.num ⟨.mm, 0, 1⟩)) :=
      .addMult (.multUnary (.unaryMinus (.number _)))
    exact .addMult (.multUnary (.unaryMinus (.parens hinner)))
  exact not_roundTrips hproduced (by decide) (hall _ hproduced)

end Openmoko.Fped
