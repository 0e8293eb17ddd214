import Mathlib.Data.List.Basic

/-!
# Nested branches, counted

A conditional has a condition and two branches, and conditionals nest. A level is one that is open;
the innermost comes first. Two numbers are enough to know the levels that matter: how many are
selected from the outside on, and how many follow from the first one that is not.
-/

namespace Openmoko

structure Level where
  holds : Bool
  inElse : Bool
  deriving DecidableEq, Repr

namespace Level

def selects (level : Level) : Bool := level.holds != level.inElse

def flip (level : Level) : Level := { level with inElse := !level.inElse }

@[simp]
theorem selects_flip (level : Level) : level.flip.selects = !level.selects := by
  obtain ⟨holds, inElse⟩ := level
  cases holds <;> cases inElse <;> rfl

end Level

def counts : List Level → ℕ × ℕ
  | [] => (0, 0)
  | level :: outer =>
    if (counts outer).2 = 0 ∧ level.selects then ((counts outer).1 + 1, 0)
    else ((counts outer).1, (counts outer).2 + 1)

@[simp]
theorem counts_nil : counts [] = (0, 0) := rfl

theorem counts_cons (level : Level) (outer : List Level) :
    counts (level :: outer) =
      if (counts outer).2 = 0 ∧ level.selects then ((counts outer).1 + 1, 0)
      else ((counts outer).1, (counts outer).2 + 1) := rfl

theorem counts_snd_eq_zero (levels : List Level) :
    (counts levels).2 = 0 ↔ ∀ level ∈ levels, level.selects = true := by
  induction levels with
  | nil => simp
  | cons level outer ih =>
    rw [counts_cons, List.forall_mem_cons, ← ih]
    split
    · next h => exact iff_of_true rfl h.symm
    · next h => exact iff_of_false (Nat.succ_ne_zero _) fun hboth => h hboth.symm

theorem counts_tail (level : Level) (outer : List Level) :
    counts outer =
      if (counts (level :: outer)).2 = 0 then
        ((counts (level :: outer)).1 - 1, (counts (level :: outer)).2)
      else ((counts (level :: outer)).1, (counts (level :: outer)).2 - 1) := by
  rw [counts_cons]
  split
  · next h => simp [← h.1]
  · simp

theorem counts_flip (level : Level) (outer : List Level) :
    counts (level.flip :: outer) =
      if (counts (level :: outer)).2 = 0 then
        ((counts (level :: outer)).1 - 1, (counts (level :: outer)).2 + 1)
      else if (counts (level :: outer)).2 = 1 then
        ((counts (level :: outer)).1 + 1, (counts (level :: outer)).2 - 1)
      else counts (level :: outer) := by
  rw [counts_cons, counts_cons, Level.selects_flip]
  by_cases houter : (counts outer).2 = 0
  · cases level.selects <;> simp [houter]
  · simp [houter]

end Openmoko
