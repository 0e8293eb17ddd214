import Mathlib.Data.List.Basic

/-!
# Machines with a log

A machine takes one event at a time and reports what can be seen of it from outside. A property of
a run is a property of the state it ends in and of everything reported on the way; since every
prefix of a run is a run, this covers every state reached. Where a step is required to meet a
condition, the condition looks at the state the step starts from and at its event only.
-/

namespace Openmoko

structure Machine (σ ε ω : Type) where
  step : σ → ε → σ × List ω

namespace Machine

variable {σ ε ω : Type} (m : Machine σ ε ω)

def exec (s : σ) : List ε → σ × List ω
  | [] => (s, [])
  | e :: events =>
    let (s', obs) := m.step s e
    let (s'', log) := exec s' events
    (s'', obs ++ log)

def Meets (cond : σ → ε → Prop) (s : σ) : List ε → Prop
  | [] => True
  | e :: events => cond s e ∧ Meets cond (m.step s e).1 events

instance decidableMeets (cond : σ → ε → Prop) [∀ s e, Decidable (cond s e)] (s : σ)
    (events : List ε) : Decidable (m.Meets cond s events) :=
  match events with
  | [] => inferInstanceAs (Decidable True)
  | e :: events =>
    have := decidableMeets cond (m.step s e).1 events
    inferInstanceAs (Decidable (cond s e ∧ m.Meets cond (m.step s e).1 events))

@[simp]
theorem exec_nil (s : σ) : m.exec s [] = (s, []) := rfl

@[simp]
theorem exec_cons (s : σ) (e : ε) (events : List ε) :
    m.exec s (e :: events) =
      ((m.exec (m.step s e).1 events).1, (m.step s e).2 ++ (m.exec (m.step s e).1 events).2) :=
  rfl

theorem exec_append (s : σ) (before after : List ε) :
    m.exec s (before ++ after) =
      ((m.exec (m.exec s before).1 after).1,
        (m.exec s before).2 ++ (m.exec (m.exec s before).1 after).2) := by
  induction before generalizing s with
  | nil => rfl
  | cons e before ih => simp [ih]

theorem exec_concat (s : σ) (events : List ε) (e : ε) :
    m.exec s (events ++ [e]) =
      ((m.step (m.exec s events).1 e).1,
        (m.exec s events).2 ++ (m.step (m.exec s events).1 e).2) := by
  simp [exec_append]

theorem exec_log (out : ε → ω) (hstep : ∀ s e, (m.step s e).2 = [out e]) (s : σ)
    (events : List ε) : (m.exec s events).2 = events.map out := by
  induction events generalizing s with
  | nil => rfl
  | cons e events ih => rw [exec_cons, hstep, ih, List.singleton_append, List.map_cons]

theorem meets_append {cond : σ → ε → Prop} (s : σ) (before after : List ε) :
    m.Meets cond s (before ++ after) ↔
      m.Meets cond s before ∧ m.Meets cond (m.exec s before).1 after := by
  induction before generalizing s with
  | nil => simp [Meets]
  | cons e before ih => simp [Meets, ih, and_assoc]

/-- **The invariant rule.** What holds of a state with an empty log, and survives every step that
meets the condition, holds after every run whose steps meet it. -/
theorem exec_inv (Inv : σ → List ω → Prop) {cond : σ → ε → Prop} {s : σ} (hinit : Inv s [])
    (hstep : ∀ s log e, Inv s log → cond s e → Inv (m.step s e).1 (log ++ (m.step s e).2))
    {events : List ε} (hmeets : m.Meets cond s events) :
    Inv (m.exec s events).1 (m.exec s events).2 := by
  have hrun : ∀ (events : List ε) (s : σ) (log : List ω), Inv s log → m.Meets cond s events →
      Inv (m.exec s events).1 (log ++ (m.exec s events).2) := by
    intro events
    induction events with
    | nil =>
      intro s log hinv _
      simpa using hinv
    | cons e events ih =>
      intro s log hinv hmeets
      have hnext := ih _ _ (hstep s log e hinv hmeets.1) hmeets.2
      simpa using hnext
  simpa using hrun events s [] hinit hmeets

theorem meets_iff_of_inv (Inv : σ → Prop) {P Q : σ → ε → Prop} {s : σ} (hinit : Inv s)
    (hstep : ∀ s e, Inv s → (P s e ↔ Q s e) ∧ (Q s e → Inv (m.step s e).1)) (events : List ε) :
    m.Meets P s events ↔ m.Meets Q s events := by
  induction events generalizing s with
  | nil => exact Iff.rfl
  | cons e events ih =>
    obtain ⟨hiff, hnext⟩ := hstep s e hinit
    rw [Meets, Meets, hiff]
    exact and_congr_right fun hQ => ih (hnext hQ)

/-- **The exactness rule.** Where a step establishes a property again exactly if it meets the
condition, and never mends it, the property holds after a run exactly if all steps meet it. What the
steps may assume, and what always holds, is given beside. -/
theorem exec_iff_meets (Inv P : σ → List ω → Prop) {assumes cond : σ → ε → Prop} {s : σ}
    (hinit : Inv s [])
    (hstep : ∀ s log e, Inv s log → assumes s e →
      Inv (m.step s e).1 (log ++ (m.step s e).2) ∧
        (P (m.step s e).1 (log ++ (m.step s e).2) ↔ P s log ∧ cond s e))
    {events : List ε} (hmeets : m.Meets assumes s events) :
    P (m.exec s events).1 (m.exec s events).2 ↔ P s [] ∧ m.Meets cond s events := by
  have hrun : ∀ (events : List ε) (s : σ) (log : List ω), Inv s log → m.Meets assumes s events →
      (P (m.exec s events).1 (log ++ (m.exec s events).2) ↔
        P s log ∧ m.Meets cond s events) := by
    intro events
    induction events with
    | nil =>
      intro s log _ _
      simp [Meets]
    | cons e events ih =>
      intro s log hinv hmeets
      obtain ⟨hnext, hiff⟩ := hstep s log e hinv hmeets.1
      rw [exec_cons, ← List.append_assoc, ih _ _ hnext hmeets.2, hiff, Meets, and_assoc]
  simpa using hrun events s [] hinit hmeets

end Machine

section Explained

variable {ω : Type} (P : List ω → ω → Prop)

/-- Each entry of the log stands in the relation to what was reported before it. -/
def Explained (log : List ω) : Prop :=
  ∀ before o after, log = before ++ o :: after → P before o

@[simp]
theorem explained_nil : Explained P [] := by
  intro before o after heq
  simp at heq

theorem explained_cons (o : ω) (log : List ω) :
    Explained P (o :: log) ↔ P [] o ∧ Explained (fun before => P (o :: before)) log := by
  constructor
  · intro hall
    refine ⟨hall [] o log rfl, fun before o' after heq => ?_⟩
    exact hall (o :: before) o' after (by rw [heq]; rfl)
  · rintro ⟨hhead, htail⟩ before o' after heq
    cases before with
    | nil =>
      obtain ⟨rfl, rfl⟩ := List.cons.inj heq
      exact hhead
    | cons p before =>
      obtain ⟨rfl, hlog⟩ := List.cons.inj heq
      exact htail before o' after hlog

theorem explained_append (log obs : List ω) :
    Explained P (log ++ obs) ↔
      Explained P log ∧ Explained (fun before => P (log ++ before)) obs := by
  induction log generalizing P with
  | nil => simp
  | cons o log ih => simp [explained_cons, ih, and_assoc]

theorem Explained.append_of_forall {P : List ω → ω → Prop} {log obs : List ω}
    (hlog : Explained P log) (hobs : ∀ o ∈ obs, ∀ before, P before o) :
    Explained P (log ++ obs) := by
  rw [explained_append]
  refine ⟨hlog, fun before o after heq => ?_⟩
  apply hobs
  rw [heq]
  exact List.mem_append_right _ List.mem_cons_self

theorem explained_singleton (o : ω) : Explained P [o] ↔ P [] o := by
  simp [explained_cons]

end Explained

end Openmoko

/-!
## Runs of a machine that may refuse a step

The states that are reached by steps which all meet a condition on the state that the step starts
from and its event. An invariant is proved for one step and holds for every state reached.
-/

namespace Openmoko

variable {σ ε : Type} {step : σ → ε → Option σ} {cond : σ → ε → Prop} {s : σ}

inductive Reaches (step : σ → ε → Option σ) (cond : σ → ε → Prop) (s : σ) : σ → Prop
  | start : Reaches step cond s s
  | step {t t' : σ} (e : ε) (h : Reaches step cond s t) (hcond : cond t e)
      (hstep : step t e = some t') : Reaches step cond s t'

/-- **The invariant rule.** -/
theorem Reaches.inv (Inv : σ → Prop) (hinit : Inv s)
    (hpreserves : ∀ t e t', Inv t → cond t e → step t e = some t' → Inv t') {t : σ}
    (h : Reaches step cond s t) : Inv t := by
  induction h with
  | start => exact hinit
  | step e _ hcond hstep ih => exact hpreserves _ e _ ih hcond hstep

theorem reaches_of_foldlM (hcond : ∀ t e, cond t e) {events : List ε} {t t' : σ}
    (h : Reaches step cond s t) (hrun : events.foldlM step t = some t') :
    Reaches step cond s t' := by
  induction events generalizing t with
  | nil =>
    cases hrun
    exact h
  | cons e events ih =>
    rw [List.foldlM_cons] at hrun
    obtain ⟨u, hstep, hrest⟩ := Option.bind_eq_some_iff.mp hrun
    exact ih (h.step e (hcond t e) hstep) hrest

end Openmoko
