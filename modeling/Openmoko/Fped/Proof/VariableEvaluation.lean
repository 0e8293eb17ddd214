import Mathlib.Data.Fintype.EquivFin
import Mathlib.Data.List.Count
import Openmoko.Fped.Eval
import Openmoko.Library.Acyclic
import Openmoko.Library.Loop

/-!
# Evaluation of variables ends

Every variable that is entered is marked, and every frame is left for the one around it, so that an
evaluation comes to an end when there are rows to evaluate. What would enter a variable again is
undefined.
-/

namespace Openmoko.Fped

open Relation

structure Visit.Restored (st st' : Visit) : Prop where
  visited : st'.visited = st.visited
  errors : st.errors <+: st'.errors

theorem Visit.Restored.refl (st : Visit) : st.Restored st := ⟨rfl, List.prefix_refl _⟩

theorem Visit.Restored.trans {st st' st'' : Visit} (h : st.Restored st') (h' : st'.Restored st'') :
    st.Restored st'' := ⟨h'.visited.trans h.visited, h.errors.trans h'.errors⟩

theorem Visit.restored_fail (st : Visit) (error : EvalError) : st.Restored (st.fail error) :=
  ⟨rfl, List.prefix_append _ _⟩

theorem Visit.mark_mark (st : Visit) {v : Addr} (hv : st.visited v = false) {st' : Visit}
    (h : (st.mark v true).Restored st') : st.Restored (st'.mark v false) := by
  refine ⟨?_, h.errors⟩
  change Function.update st'.visited v false = st.visited
  rw [h.visited]
  change Function.update (Function.update st.visited v true) v false = st.visited
  rw [Function.update_idem, ← hv, Function.update_eq_self]

section Rules

variable {β : Type}

def Restores (ev : Eval β) : Prop := ∀ st res st', ev st = some (res, st') → st.Restored st'

def Reports (ev : Eval β) : Prop :=
  ∀ st res st', ev st = some (res, st') →
    st.Restored st' ∧ (res = none → st.errors.length < st'.errors.length)

theorem Reports.restores {ev : Eval β} (h : Reports ev) : Restores ev := fun st res st' hrun =>
  (h st res st' hrun).1

def Undefined (visited : Addr → Bool) (ev : Eval β) : Prop :=
  ∀ st, st.visited = visited → ∀ res st', ev st = some (res, st') → res = none

def Returns (visited : Addr → Bool) (ev : ℕ → Eval β) : Prop :=
  ∀ st, st.visited = visited → ∃ res st', EndsWith (fun n => ev n st) (res, st')

structure EvalRule (eval : (Name → Eval β) → Expr → Eval β) (names : Expr → List Name) : Prop where
  restores : ∀ var, (∀ name, Restores (var name)) → ∀ e, Restores (eval var e)
  undefined : ∀ var visited, (∀ name, Restores (var name)) → ∀ e, ∀ name ∈ names e,
    Undefined visited (var name) → Undefined visited (eval var e)
  returns : ∀ (var : ℕ → Name → Eval β) visited, (∀ n name, Restores (var n name)) →
    (∀ name, Returns visited fun n => var n name) →
    ∀ e, Returns visited fun n => eval (var n) e

end Rules

/-! ### Numbers -/

def Expr.vars : Expr → List Name
  | .num _ | .string _ => []
  | .var name => [name]
  | .sin a | .cos a | .sqrt a | .minus a => a.vars
  | .add a b | .sub a b | .mult a b | .div a b => a.vars ++ b.vars

theorem restored_orFail {β : Type} {error : EvalError} {x : Option β} {st st' : Visit}
    {res : Option β} (h : orFail error (x, st) = (res, st')) :
    st.Restored st' ∧ (res = none → st.errors.length < st'.errors.length) := by
  cases x with
  | none =>
    cases h
    refine ⟨st.restored_fail error, fun _ => ?_⟩
    change _ < (st.errors ++ [error]).length
    rw [List.length_append, List.length_singleton]
    exact Nat.lt_succ_self _
  | some x =>
    cases h
    exact ⟨.refl _, nofun⟩

theorem orFail_none {β : Type} {error : EvalError} {st st' : Visit} {res : Option β}
    (h : orFail error (none, st) = (res, st')) : res = none := by
  cases h
  rfl

section Operators

variable {op : Num → Num → Option Num} {op₁ : Num → Option Num} {error : Num → Num → EvalError}
  {error₁ : Num → EvalError} {a b : Eval Num} {visited : Addr → Bool}

theorem Reports.unary (ha : Reports a) : Reports (evalUnary op₁ error₁ a) := by
  intro st res st' h
  obtain ⟨⟨x, st₁⟩, hrun, h⟩ := Option.bind_eq_some_iff.mp h
  have hst₁ := ha st x st₁ hrun
  cases x with
  | none =>
    cases h
    exact hst₁
  | some x =>
    obtain ⟨hres, hreport⟩ := restored_orFail (Option.some.inj h)
    exact ⟨hst₁.1.trans hres, fun hnone => hst₁.1.errors.length_le.trans_lt (hreport hnone)⟩

theorem Reports.binary (ha : Reports a) (hb : Reports b) : Reports (evalBinary op error a b) := by
  intro st res st' h
  obtain ⟨⟨x, st₁⟩, hrun, h⟩ := Option.bind_eq_some_iff.mp h
  have hst₁ := ha st x st₁ hrun
  cases x with
  | none =>
    cases h
    exact hst₁
  | some x =>
    obtain ⟨⟨y, st₂⟩, hrun, h⟩ := Option.bind_eq_some_iff.mp h
    have hst₂ := hb st₁ y st₂ hrun
    have hle := hst₁.1.errors.length_le
    cases y with
    | none =>
      cases h
      exact ⟨hst₁.1.trans hst₂.1, fun hnone => hle.trans_lt (hst₂.2 hnone)⟩
    | some y =>
      obtain ⟨hres, hreport⟩ := restored_orFail (Option.some.inj h)
      exact ⟨(hst₁.1.trans hst₂.1).trans hres, fun hnone =>
        (hle.trans hst₂.1.errors.length_le).trans_lt (hreport hnone)⟩

theorem Undefined.unary (ha : Undefined visited a) :
    Undefined visited (evalUnary op₁ error₁ a) := by
  intro st hst res st' h
  obtain ⟨⟨x, st₁⟩, hrun, h⟩ := Option.bind_eq_some_iff.mp h
  cases ha st hst x st₁ hrun
  cases h
  rfl

theorem Undefined.left (ha : Undefined visited a) :
    Undefined visited (evalBinary op error a b) := by
  intro st hst res st' h
  obtain ⟨⟨x, st₁⟩, hrun, h⟩ := Option.bind_eq_some_iff.mp h
  cases ha st hst x st₁ hrun
  cases h
  rfl

theorem Undefined.right (ha : Restores a) (hb : Undefined visited b) :
    Undefined visited (evalBinary op error a b) := by
  intro st hst res st' h
  obtain ⟨⟨x, st₁⟩, hrun, h⟩ := Option.bind_eq_some_iff.mp h
  cases x with
  | none =>
    cases h
    rfl
  | some x =>
    obtain ⟨⟨y, st₂⟩, hrun', h⟩ := Option.bind_eq_some_iff.mp h
    cases hb st₁ ((ha _ _ _ hrun).visited.trans hst) y st₂ hrun'
    cases h
    rfl

theorem Returns.unary {a : ℕ → Eval Num} (ha : Returns visited a) :
    Returns visited fun n => evalUnary op₁ error₁ (a n) := by
  intro st hst
  obtain ⟨x, st₁, hends⟩ := ha st hst
  cases x with
  | none => exact ⟨_, _, hends.bind (endsWith_const (none, st₁))⟩
  | some x => exact ⟨_, _, hends.bind (endsWith_const (orFail (error₁ x) (op₁ x, st₁)))⟩

theorem Returns.binary {a b : ℕ → Eval Num} (hrestores : ∀ n, Restores (a n))
    (ha : Returns visited a) (hb : Returns visited b) :
    Returns visited fun n => evalBinary op error (a n) (b n) := by
  intro st hst
  obtain ⟨x, st₁, hends⟩ := ha st hst
  cases x with
  | none => exact ⟨_, _, hends.bind (endsWith_const (none, st₁))⟩
  | some x =>
    obtain ⟨k, hk⟩ := hends
    have hst₁ := (hrestores k _ _ _ (hk k le_rfl)).visited.trans hst
    obtain ⟨y, st₂, hends'⟩ := hb st₁ hst₁
    cases y with
    | none => exact ⟨_, _, EndsWith.bind ⟨k, hk⟩ (hends'.bind (endsWith_const (none, st₂)))⟩
    | some y =>
      exact ⟨_, _, EndsWith.bind ⟨k, hk⟩
        (hends'.bind (endsWith_const (orFail (error x y) (op x y, st₂))))⟩

end Operators

variable (libm : Libm)

theorem reports_evalExpr {var : Name → Eval Num} (hvar : ∀ name, Restores (var name))
    (e : Expr) : Reports (evalExpr libm var e) := by
  induction e with
  | num num =>
    intro st res st' h
    cases h
    exact ⟨.refl _, nofun⟩
  | var name =>
    intro st res st' h
    obtain ⟨⟨x, st₁⟩, hrun, h⟩ := Option.map_eq_some_iff.mp h
    have hst₁ := hvar name st x st₁ hrun
    obtain ⟨hres, hreport⟩ := restored_orFail h
    exact ⟨hst₁.trans hres, fun hnone => hst₁.errors.length_le.trans_lt (hreport hnone)⟩
  | string str =>
    intro st res st' h
    cases h
    exact restored_orFail (β := Num) (x := none) rfl
  | sin a iha | cos a iha | sqrt a iha | minus a iha => exact iha.unary
  | add a b iha ihb | sub a b iha ihb | mult a b iha ihb | div a b iha ihb => exact iha.binary ihb

theorem undefined_evalExpr {var : Name → Eval Num}
    (hvar : ∀ name, Restores (var name)) {visited : Addr → Bool} {name : Name}
    (hname : Undefined visited (var name)) {e : Expr} (he : name ∈ e.vars) :
    Undefined visited (evalExpr libm var e) := by
  induction e with
  | num num | string str => cases he
  | var name' =>
    cases List.mem_singleton.mp he
    intro st hst res st' h
    obtain ⟨⟨x, st₁⟩, hrun, h⟩ := Option.map_eq_some_iff.mp h
    cases hname st hst x st₁ hrun
    exact orFail_none h
  | sin a iha | cos a iha | sqrt a iha | minus a iha => exact (iha he).unary
  | add a b iha ihb | sub a b iha ihb | mult a b iha ihb | div a b iha ihb =>
    rcases List.mem_append.mp he with ha | hb
    · exact (iha ha).left
    · exact .right (reports_evalExpr libm hvar a).restores (ihb hb)

theorem returns_evalExpr {var : ℕ → Name → Eval Num} {visited : Addr → Bool}
    (hrestores : ∀ n name, Restores (var n name))
    (hvar : ∀ name, Returns visited fun n => var n name) (e : Expr) :
    Returns visited fun n => evalExpr libm (var n) e := by
  have hexpr := fun (a : Expr) n => (reports_evalExpr libm (hrestores n) a).restores
  induction e with
  | num num => exact fun st _ => ⟨_, _, endsWith_const (some num, st)⟩
  | var name =>
    intro st hst
    obtain ⟨x, st₁, hends⟩ := hvar name st hst
    exact ⟨_, _, hends.map _⟩
  | string str => exact fun st _ => ⟨_, _, endsWith_const (none, st.fail .string)⟩
  | sin a iha | cos a iha | sqrt a iha | minus a iha => exact iha.unary
  | add a b iha ihb | sub a b iha ihb | mult a b iha ihb | div a b iha ihb =>
    exact .binary (hexpr a) iha ihb

theorem evalRule_evalExpr : EvalRule (evalExpr libm) Expr.vars where
  restores _ hvar e := (reports_evalExpr libm hvar e).restores
  undefined _ _ hvar _ _ he hname := undefined_evalExpr libm hvar hname he
  returns _ _ hrestores hvar e := returns_evalExpr libm hrestores hvar e

def Expr.stringVars : Expr → List Name
  | .var name => [name]
  | _ => []

theorem evalRule_evalStrExpr : EvalRule evalStrExpr Expr.stringVars where
  restores var hvar e := by
    cases e with
    | var name => exact hvar name
    | _ =>
      intro st res st' h
      cases h
      exact .refl _
  undefined var visited hvar e name he hname := by
    cases e with
    | var name' =>
      cases List.mem_singleton.mp he
      exact hname
    | _ => cases he
  returns var visited hrestores hvar e := by
    cases e with
    | var name => exact hvar name
    | string str => exact fun st _ => ⟨_, _, endsWith_const (some str, st)⟩
    | _ => exact fun st _ => ⟨_, _, endsWith_const (none, st)⟩

inductive Resolves (s : Scene) (name : Name) : Addr → Addr → Found → Prop
  | here {f : Addr} (h : s.find f name ≠ .absent) : Resolves s name f f (s.find f name)
  | outward {f g h : Addr} {found : Found} (habsent : s.find f name = .absent)
      (houter : s.outer f = some g) (hresolves : Resolves s name g h found) :
      Resolves s name f h found

inductive Reenters (s : Scene) (names : Expr → List Name) : (Addr → Bool) → Addr → Expr → Prop
  | again {visited : Addr → Bool} {f g v : Addr} {e expr : Expr} {name : Name}
      (hname : name ∈ names e) (hfound : Resolves s name f g (.var v expr))
      (hv : visited v = true) : Reenters s names visited f e
  | inside {visited : Addr → Bool} {f g v : Addr} {e expr : Expr} {name : Name}
      (hname : name ∈ names e) (hfound : Resolves s name f g (.var v expr))
      (hv : visited v = false) (hexpr : Reenters s names (Function.update visited v true) g expr) :
      Reenters s names visited f e

theorem Resolves.find {s : Scene} {name : Name} {f g : Addr} {found : Found}
    (h : Resolves s name f g found) : s.find g name = found := by
  induction h with
  | here h => rfl
  | outward _ _ _ ih => exact ih

section Names

variable {β : Type} {s : Scene} {eval : (Name → Eval β) → Expr → Eval β}
  {names : Expr → List Name} {again : Name → Visit → Visit} {loop : Name → Addr → Eval β}

section Equations

variable {n : ℕ} {f g l v : Addr} {expr : Expr} {name : Name} {st : Visit}

theorem evalName_again (hfind : s.find f name = .var v expr) (hv : st.visited v = true) :
    s.evalName eval again loop (n + 1) f name st = some (none, again name st) := by
  rw [Scene.evalName, hfind]
  exact if_pos hv

theorem evalName_var (hfind : s.find f name = .var v expr) (hv : st.visited v = false) :
    s.evalName eval again loop (n + 1) f name st =
      (eval (s.evalName eval again loop n f) expr (st.mark v true)).map fun (res, st) =>
        (res, st.mark v false) := by
  rw [Scene.evalName, hfind]
  exact if_neg (Bool.eq_false_iff.mp hv)

theorem evalName_loop (hfind : s.find f name = .loop l) :
    s.evalName eval again loop (n + 1) f name st = loop name l st := by
  rw [Scene.evalName, hfind]

theorem evalName_outermost (hfind : s.find f name = .absent) (houter : s.outer f = none) :
    s.evalName eval again loop (n + 1) f name st = some (none, st) := by
  rw [Scene.evalName, hfind]
  simp only [houter]

theorem evalName_outer (hfind : s.find f name = .absent) (houter : s.outer f = some g) :
    s.evalName eval again loop (n + 1) f name st = s.evalName eval again loop n g name st := by
  rw [Scene.evalName, hfind]
  simp only [houter]

theorem evalName_null (hfind : s.find f name = .null) (n : ℕ) :
    s.evalName eval again loop n f name st = none := by
  cases n with
  | zero => rfl
  | succ n => rw [Scene.evalName, hfind]

end Equations

structure NameRule (eval : (Name → Eval β) → Expr → Eval β) (names : Expr → List Name)
    (again : Name → Visit → Visit) (loop : Name → Addr → Eval β) : Prop where
  eval : EvalRule eval names
  again : ∀ name (st : Visit), st.Restored (again name st)
  loop : ∀ name l (st : Visit), ∃ res st', loop name l st = some (res, st') ∧ st.Restored st'

theorem NameRule.restores (h : NameRule eval names again loop) (n : ℕ) (f : Addr) (name : Name) :
    Restores (s.evalName eval again loop n f name) := by
  induction n generalizing f name with
  | zero => exact nofun
  | succ n ih =>
    intro st res st' hrun
    cases hfind : s.find f name with
    | var v expr =>
      cases hv : st.visited v with
      | true =>
        rw [evalName_again hfind hv] at hrun
        cases hrun
        exact h.again name st
      | false =>
        rw [evalName_var hfind hv] at hrun
        obtain ⟨⟨x, st₁⟩, heval, hmark⟩ := Option.map_eq_some_iff.mp hrun
        cases hmark
        exact st.mark_mark hv (h.eval.restores _ (ih f) expr _ _ _ heval)
    | loop l =>
      obtain ⟨x, st₁, hloop, hst₁⟩ := h.loop name l st
      rw [evalName_loop hfind, hloop] at hrun
      cases hrun
      exact hst₁
    | absent =>
      cases houter : s.outer f with
      | none =>
        rw [evalName_outermost hfind houter] at hrun
        cases hrun
        exact .refl _
      | some g =>
        rw [evalName_outer hfind houter] at hrun
        exact ih g name st res st' hrun
    | null =>
      rw [evalName_null hfind] at hrun
      cases hrun

theorem undefined_of_resolves {visited : Addr → Bool} {f g : Addr} {name : Name} {found : Found}
    (hresolves : Resolves s name f g found)
    (hg : ∀ n, Undefined visited (s.evalName eval again loop n g name)) (n : ℕ) :
    Undefined visited (s.evalName eval again loop n f name) := by
  induction hresolves generalizing n with
  | here => exact hg n
  | outward habsent houter _ ih =>
    cases n with
    | zero => exact fun _ _ _ _ => nofun
    | succ n =>
      intro st hst res st' hrun
      rw [evalName_outer habsent houter] at hrun
      exact ih hg n st hst res st' hrun

theorem NameRule.undefined (h : NameRule eval names again loop) {visited : Addr → Bool} {f : Addr}
    {e : Expr} (hreenters : Reenters s names visited f e) (n : ℕ) :
    Undefined visited (eval (s.evalName eval again loop n f) e) := by
  induction hreenters generalizing n with
  | again hname hfound hv =>
    refine h.eval.undefined _ _ (h.restores n _) _ _ hname (undefined_of_resolves hfound ?_ n)
    intro n st hst res st' hrun
    cases n with
    | zero => cases hrun
    | succ n =>
      rw [evalName_again hfound.find (by rw [hst, hv])] at hrun
      cases hrun
      rfl
  | @inside visited f g v e expr name hname hfound hv _ ih =>
    refine h.eval.undefined _ _ (h.restores n _) _ _ hname (undefined_of_resolves hfound ?_ n)
    intro n st hst res st' hrun
    cases n with
    | zero => cases hrun
    | succ n =>
      rw [evalName_var hfound.find (by rw [hst, hv])] at hrun
      obtain ⟨⟨x, st₁⟩, heval, hmark⟩ := Option.map_eq_some_iff.mp hrun
      have hmarked : (st.mark v true).visited = Function.update visited v true := by
        rw [Visit.mark, hst]
      cases ih n _ hmarked x st₁ heval
      cases hmark
      rfl

/-! ### Evaluation ends -/

def Scene.HasRow (s : Scene) (t : Addr) : Prop :=
  ∃ row, s.rowOf t = some row ∧ (s.model.vars t).length ≤ (s.model.values row).length

/-- The frames that are listed are a forest, with `curr_parent` and the active references. -/
structure Scene.Tree (s : Scene) : Prop where
  listed : ∀ f ∈ s.model.frames, ∀ g, s.outer f = some g → g ∈ s.model.frames
  acyclic : Acyclic fun g f => s.outer f = some g

variable {m : Model} {tables : List Addr}

theorem findInRow_ne_null {name : Name} {vars values : List Addr}
    (hlength : vars.length ≤ values.length) : Scene.findInRow m name vars values ≠ .null := by
  induction vars generalizing values with
  | nil => nofun
  | cons v vars ih =>
    cases values with
    | nil => cases hlength
    | cons x values =>
      rw [Scene.findInRow]
      split
      · nofun
      · exact ih (Nat.le_of_succ_le_succ hlength)

theorem findInRow_mem {name : Name} {vars values : List Addr} {v : Addr} {expr : Expr}
    (h : Scene.findInRow m name vars values = .var v expr) : v ∈ vars := by
  induction vars generalizing values with
  | nil => cases h
  | cons w vars ih =>
    cases values with
    | nil => cases h
    | cons x values =>
      rw [Scene.findInRow] at h
      split at h
      · cases h
        exact List.mem_cons_self
      · exact List.mem_cons_of_mem w (ih h)

theorem Found.orElse_cases (x y : Found) : x.orElse y = x ∨ x = .absent ∧ x.orElse y = y := by
  cases x with
  | absent => exact Or.inr ⟨rfl, rfl⟩
  | _ => exact Or.inl rfl

theorem findInTables_ne_null {name : Name} (h : ∀ t ∈ tables, s.HasRow t) :
    s.findInTables name tables ≠ .null := by
  induction tables with
  | nil => nofun
  | cons t tables ih =>
    obtain ⟨row, hrow, hlength⟩ := h t List.mem_cons_self
    rw [Scene.findInTables, hrow]
    dsimp only
    rcases Found.orElse_cases (Scene.findInRow s.model name (s.model.vars t) (s.model.values row))
      (s.findInTables name tables) with heq | ⟨-, heq⟩
    · rw [heq]
      exact findInRow_ne_null hlength
    · rw [heq]
      exact ih fun t ht => h t (List.mem_cons_of_mem _ ht)

theorem findInTables_mem {name : Name} {v : Addr} {expr : Expr}
    (h : s.findInTables name tables = .var v expr) : ∃ t ∈ tables, v ∈ s.model.vars t := by
  induction tables with
  | nil => cases h
  | cons t tables ih =>
    rw [Scene.findInTables] at h
    split at h
    next => cases h
    next row _ =>
      rcases Found.orElse_cases (Scene.findInRow s.model name (s.model.vars t)
        (s.model.values row)) (s.findInTables name tables) with heq | ⟨-, heq⟩
      · exact ⟨t, List.mem_cons_self, findInRow_mem (heq.symm.trans h)⟩
      · obtain ⟨t', ht', hv⟩ := ih (heq.symm.trans h)
        exact ⟨t', List.mem_cons_of_mem t ht', hv⟩

theorem findLoop_cases (s : Scene) (name : Name) (loops : List Addr) :
    (∃ l, s.findLoop name loops = .loop l) ∨ s.findLoop name loops = .absent := by
  rw [Scene.findLoop]
  split
  · exact Or.inl ⟨_, rfl⟩
  · exact Or.inr rfl

theorem find_ne_null {f : Addr} {name : Name} (h : ∀ t ∈ s.model.tables f, s.HasRow t) :
    s.find f name ≠ .null := by
  intro hnull
  rcases Found.orElse_cases (s.findInTables name (s.model.tables f))
    (s.findLoop name (s.model.loops f)) with heq | ⟨-, heq⟩
  · exact findInTables_ne_null h (heq.symm.trans hnull)
  · rcases findLoop_cases s name (s.model.loops f) with ⟨l, hl⟩ | habsent
    · cases (heq.trans hl).symm.trans hnull
    · cases (heq.trans habsent).symm.trans hnull

theorem find_mem {f v : Addr} {name : Name} {expr : Expr} (h : s.find f name = .var v expr) :
    ∃ t ∈ s.model.tables f, v ∈ s.model.vars t := by
  rcases Found.orElse_cases (s.findInTables name (s.model.tables f))
    (s.findLoop name (s.model.loops f)) with heq | ⟨-, heq⟩
  · exact findInTables_mem (heq.symm.trans h)
  · rcases findLoop_cases s name (s.model.loops f) with ⟨l, hl⟩ | habsent
    · cases (heq.trans hl).symm.trans h
    · cases (heq.trans habsent).symm.trans h

def Scene.allVars (s : Scene) : List Addr :=
  s.model.frames.flatMap fun f => (s.model.tables f).flatMap s.model.vars

theorem mem_allVars {f v : Addr} {name : Name} {expr : Expr} (hf : f ∈ s.model.frames)
    (h : s.find f name = .var v expr) : v ∈ s.allVars := by
  obtain ⟨t, ht, hv⟩ := find_mem h
  exact List.mem_flatMap.mpr ⟨f, hf, List.mem_flatMap.mpr ⟨t, ht, hv⟩⟩

def unvisited (visited : Addr → Bool) (vars : List Addr) : Finset Addr :=
  vars.toFinset.filter fun v => visited v = false

theorem card_unvisited_update_lt {visited : Addr → Bool} {vars : List Addr} {v : Addr}
    (hmem : v ∈ vars) (hv : visited v = false) :
    (unvisited (Function.update visited v true) vars).card < (unvisited visited vars).card := by
  apply Finset.card_lt_card
  rw [Finset.ssubset_iff_of_subset]
  · refine ⟨v, Finset.mem_filter.mpr ⟨List.mem_toFinset.mpr hmem, hv⟩, fun hmarked => ?_⟩
    have hmarked := (Finset.mem_filter.mp hmarked).2
    rw [Function.update_self] at hmarked
    cases hmarked
  · intro w hw
    obtain ⟨hw, hunmarked⟩ := Finset.mem_filter.mp hw
    refine Finset.mem_filter.mpr ⟨hw, ?_⟩
    rw [Function.update_apply] at hunmarked
    split at hunmarked
    · cases hunmarked
    · exact hunmarked

theorem NameRule.returns (h : NameRule eval names again loop) (htree : s.Tree)
    (hrows : ∀ f ∈ s.model.frames, ∀ t ∈ s.model.tables f, s.HasRow t) {visited : Addr → Bool}
    {f : Addr} (hf : f ∈ s.model.frames) (name : Name) :
    Returns visited fun n => s.evalName eval again loop n f name := by
  induction hk : (unvisited visited s.allVars).card using Nat.strong_induction_on
    generalizing visited f name with | _ k ihk
  subst hk
  have hwalk : ∀ f : { f // f ∈ s.model.frames },
      Returns visited fun n => s.evalName eval again loop n f name := by
    intro f
    induction f using (htree.acyclic.wellFounded s.model.frames).induction with | _ f ih
    obtain ⟨f, hf⟩ := f
    intro st hst
    cases hfind : s.find f name with
    | var v expr =>
      cases hv : st.visited v with
      | true => exact ⟨_, _, (endsWith_const (none, again name st)).succ fun n =>
        evalName_again hfind hv⟩
      | false =>
        have hlt := card_unvisited_update_lt (mem_allVars hf hfind) (hst ▸ hv)
        have hmarked : (st.mark v true).visited = Function.update visited v true := by
          rw [Visit.mark, hst]
        obtain ⟨res, st', hends⟩ := h.eval.returns _ _ (fun n name => h.restores n f name)
          (fun name => ihk _ hlt hf name rfl) expr (st.mark v true) hmarked
        exact ⟨_, _, (hends.map fun (res, st) => (res, st.mark v false)).succ fun n =>
          evalName_var hfind hv⟩
    | loop l =>
      obtain ⟨res, st', hloop, -⟩ := h.loop name l st
      exact ⟨_, _, (endsWith_const (res, st')).succ fun n => (evalName_loop hfind).trans hloop⟩
    | absent =>
      cases houter : s.outer f with
      | none => exact ⟨_, _, (endsWith_const (none, st)).succ fun n =>
        evalName_outermost hfind houter⟩
      | some g =>
        obtain ⟨res, st', hends⟩ := ih ⟨g, htree.listed f hf g houter⟩ (.single houter) st hst
        exact ⟨_, _, hends.succ fun n => evalName_outer hfind houter⟩
    | null => exact absurd hfind (find_ne_null (hrows f hf))
  exact hwalk ⟨f, hf⟩

theorem findInRow_other {name : Name} {vars values : List Addr}
    (hname : ∀ v ∈ vars, (m.var v).name ≠ name) :
    Scene.findInRow m name vars values = if vars.length ≤ values.length then .absent else .null := by
  induction vars generalizing values with
  | nil => rfl
  | cons v vars ih =>
    cases values with
    | nil => rfl
    | cons x values =>
      rw [Scene.findInRow, if_neg (hname v List.mem_cons_self),
        ih fun w hw => hname w (List.mem_cons_of_mem v hw)]
      simp only [List.length_cons, Nat.add_le_add_iff_right]

theorem findInTables_null {name : Name}
    (hname : ∀ t ∈ tables, ∀ v ∈ s.model.vars t, (s.model.var v).name ≠ name)
    (hrow : ¬ ∀ t ∈ tables, s.HasRow t) : s.findInTables name tables = .null := by
  induction tables with
  | nil => exact absurd nofun hrow
  | cons t tables ih =>
    have hhead := hname t List.mem_cons_self
    rw [Scene.findInTables]
    cases hcurr : s.rowOf t with
    | none => rfl
    | some row =>
      dsimp only
      by_cases hlength : (s.model.vars t).length ≤ (s.model.values row).length
      · rw [findInRow_other hhead, if_pos hlength, Found.orElse]
        refine ih (fun t' ht' => hname t' (List.mem_cons_of_mem t ht')) fun hrest => hrow ?_
        exact List.forall_mem_cons.mpr ⟨⟨row, hcurr, hlength⟩, hrest⟩
      · rw [findInRow_other hhead, if_neg hlength]
        rfl

theorem exists_find_null {f : Addr} (hrow : ¬ ∀ t ∈ s.model.tables f, s.HasRow t) :
    ∃ name, s.find f name = .null := by
  let names := ((s.model.tables f).flatMap s.model.vars).map fun v => (s.model.var v).name
  obtain ⟨name, hname⟩ := Infinite.exists_notMem_finset names.toFinset
  refine ⟨name, ?_⟩
  have hnull : s.findInTables name (s.model.tables f) = .null := by
    refine findInTables_null (fun t ht v hv heq => hname ?_) hrow
    rw [List.mem_toFinset, ← heq]
    exact List.mem_map.mpr ⟨v, List.mem_flatMap.mpr ⟨t, ht, hv⟩, rfl⟩
  rw [Scene.find, hnull]
  rfl

end Names

/-! ### Evaluation of an expression -/

theorem restores_evalLoop (s : Scene) (name : Name) (l : Addr) (st : Visit) :
    ∃ res st', s.evalLoop name l st = some (res, st') ∧ st.Restored st' := by
  rw [Scene.evalLoop]
  split
  · exact ⟨_, _, rfl, .refl st⟩
  · split
    · exact ⟨_, _, rfl, .refl st⟩
    · exact ⟨_, _, rfl, st.restored_fail _⟩

theorem nameRule_evalVar (s : Scene) :
    NameRule (evalExpr libm) Expr.vars (fun name st => st.fail (.recursive name)) s.evalLoop where
  eval := evalRule_evalExpr libm
  again name st := st.restored_fail (.recursive name)
  loop := restores_evalLoop s

theorem nameRule_evalStringVar :
    NameRule evalStrExpr Expr.stringVars (fun _ st => st) fun _ _ st => some (none, st) where
  eval := evalRule_evalStrExpr
  again _ st := .refl st
  loop _ _ st := ⟨none, st, rfl, .refl st⟩

/-- An evaluation ends with the marks as they were, and undefined when it needs a variable that is
being evaluated. -/
structure Scene.EvaluatesSafely (libm : Libm) (s : Scene) : Prop where
  num : ∀ f ∈ s.model.frames, ∀ e st, ∃ res st',
    EndsWith (fun n => s.evalNum libm n f e st) (res, st') ∧ st'.visited = st.visited ∧
      (Reenters s Expr.vars st.visited f e → res = none ∧ st.errors.length < st'.errors.length)
  str : ∀ f ∈ s.model.frames, ∀ e st, ∃ res st',
    EndsWith (fun n => s.evalStr n f e st) (res, st') ∧ st'.visited = st.visited ∧
      (Reenters s Expr.stringVars st.visited f e → res = none)

theorem evaluatesSafely_of_hasRow {s : Scene} (htree : s.Tree)
    (hrows : ∀ f ∈ s.model.frames, ∀ t ∈ s.model.tables f, s.HasRow t) :
    s.EvaluatesSafely libm where
  num f hf e st := by
    have hrule := nameRule_evalVar libm s
    obtain ⟨res, st', k, hk⟩ := hrule.eval.returns _ _ (fun n name => hrule.restores n f name)
      (hrule.returns htree hrows hf) e st rfl
    have hrun := hk k le_rfl
    obtain ⟨hrestored, hreport⟩ := reports_evalExpr libm (hrule.restores k f) e st res st' hrun
    refine ⟨res, st', ⟨k, hk⟩, hrestored.visited, fun hreenters => ?_⟩
    have hnone := hrule.undefined hreenters k st rfl res st' hrun
    exact ⟨hnone, hreport hnone⟩
  str f hf e st := by
    have hrule := nameRule_evalStringVar
    obtain ⟨res, st', k, hk⟩ := hrule.eval.returns _ _ (fun n name => hrule.restores n f name)
      (hrule.returns htree hrows hf) e st rfl
    have hrun := hk k le_rfl
    have hrestored := hrule.eval.restores _ (hrule.restores k f) e st res st' hrun
    exact ⟨res, st', ⟨k, hk⟩, hrestored.visited, fun hreenters =>
      hrule.undefined hreenters k st rfl res st' hrun⟩

/-- Evaluation of variables ends well in every frame exactly if no table is without a row. -/
theorem Scene.evaluatesSafely_iff {s : Scene} (htree : s.Tree) :
    s.EvaluatesSafely libm ↔ ∀ f ∈ s.model.frames, ∀ t ∈ s.model.tables f, s.HasRow t := by
  refine ⟨fun hsafe f hf => ?_, evaluatesSafely_of_hasRow libm htree⟩
  by_contra hrow
  obtain ⟨name, hfind⟩ := exists_find_null hrow
  obtain ⟨res, st', ⟨k, hk⟩, -⟩ := hsafe.str f hf (.var name) ⟨fun _ => false, []⟩
  cases (hk k le_rfl).symm.trans (evalName_null hfind k)

/-- `table { x, y }` in the inner one of two frames, with these rows; the values of every row are
`y` and `x`. -/
def tableScene (rows : List Addr) : Scene where
  model := {
    frames := [0, 1]
    vecs _ := []
    objs _ := []
    tables f := if f = 1 then [5] else []
    loops _ := []
    vars _ := [10, 11]
    rows _ := rows
    values _ := [20, 21]
    activeRef _ := none
    activeRow _ := rows.head?
    vec _ := { frame := 0, base := none }
    obj _ := { frame := 0, base := none, kind := .item [] }
    var v := { name := if v = 10 then ['x'] else ['y'], frame := 1, table := 5 }
    row _ := 5
    value x := { expr := .var (if x = 20 then ['y'] else ['x']), row := 15 }
    loop _ := { name := [], frame := 0 }
    deletions := []
    groups := 0 }
  currRow _ := none
  currParent f := if f = 1 then some 0 else none
  loopState _ := { currValue := none, n := 0, active := 0, initialized := false }

def libmAtZero : Libm where
  pi := 355 / 113
  sin _ := 0
  cos _ := 1
  sqrt _ := 0

theorem tree_tableScene (rows : List Addr) : (tableScene rows).Tree where
  listed f hf g hg := by
    change (if f = 1 then some 0 else none).or none = some g at hg
    split at hg <;> cases hg
    exact List.mem_cons_self
  acyclic := by
    refine acyclic_of_rank (fun f => f) fun g f houter => ?_
    change (if f = 1 then some 0 else none).or none = some g at houter
    by_cases hf : f = 1
    · rw [if_pos hf] at houter
      cases houter
      exact hf ▸ Nat.zero_lt_one
    · rw [if_neg hf] at houter
      cases houter

theorem Scene.evaluatesSafely_mutual : (tableScene [15]).EvaluatesSafely libmAtZero := by
  apply (Scene.evaluatesSafely_iff libmAtZero (tree_tableScene [15])).mpr
  exact fun f _ t _ => ⟨15, rfl, le_rfl⟩

/-- A table may have no rows. -/
theorem Scene.not_evaluatesSafely_empty :
    ¬ ∀ libm s, Scene.Tree s → Scene.EvaluatesSafely libm s := by
  intro hsafe
  have hsafe := hsafe libmAtZero (tableScene []) (tree_tableScene [])
  obtain ⟨res, st', ⟨k, hk⟩, -⟩ :=
    hsafe.num 1 (List.mem_cons_of_mem _ List.mem_cons_self) (.var ['x']) ⟨fun _ => false, []⟩
  have hfind : (tableScene []).find 1 ['x'] = .null := rfl
  have hvar : (tableScene []).evalVar libmAtZero k 1 ['x'] ⟨fun _ => false, []⟩ = none :=
    evalName_null hfind k
  cases (hk k le_rfl).symm.trans (congrArg (Option.map _) hvar)

end Openmoko.Fped
