import Mathlib.Data.Multiset.AddSub

/-!
# Counted holders

What is loaded when somebody takes it, and let go of when nobody holds it any more. The holders
themselves are not known, only their number; a release without a holder goes unnoticed.
-/

namespace Openmoko

variable {α : Type} [DecidableEq α]

@[ext]
structure RefCounts (α : Type) where
  count : α → ℤ
  loaded : α → Bool

namespace RefCounts

def take (s : RefCounts α) (a : α) : RefCounts α where
  count := Function.update s.count a (s.count a + 1)
  loaded := Function.update s.loaded a true

def release (s : RefCounts α) (a : α) : RefCounts α where
  count := Function.update s.count a (s.count a - 1)
  loaded := Function.update s.loaded a (s.loaded a && 0 < s.count a - 1)

/-- Each of these is held by one, and what nobody holds is not loaded. -/
structure HeldBy (s : RefCounts α) (held : Multiset α) : Prop where
  count : ∀ a, s.count a = held.count a
  loaded : ∀ a, s.loaded a = true ↔ a ∈ held

variable {s : RefCounts α} {held : Multiset α} {a b : α}

theorem HeldBy.take (h : s.HeldBy held) (a : α) : (s.take a).HeldBy (a ::ₘ held) where
  count b := by
    by_cases hb : b = a
    · subst hb
      rw [Multiset.count_cons_self, Int.natCast_succ, ← h.count]
      exact Function.update_self ..
    · rw [Multiset.count_cons_of_ne hb, ← h.count]
      exact Function.update_of_ne hb _ _
  loaded b := by
    rw [Multiset.mem_cons]
    by_cases hb : b = a
    · subst hb
      exact iff_of_true (Function.update_self ..) (Or.inl rfl)
    · rw [or_iff_right hb, ← h.loaded]
      exact iff_of_eq (congrArg (· = true) (Function.update_of_ne hb _ _))

theorem HeldBy.release (h : s.HeldBy (a ::ₘ held)) : (s.release a).HeldBy held where
  count b := by
    by_cases hb : b = a
    · subst hb
      have hcount := h.count b
      rw [Multiset.count_cons_self] at hcount
      refine (Function.update_self ..).trans ?_
      omega
    · rw [← Multiset.count_cons_of_ne hb, ← h.count]
      exact Function.update_of_ne hb _ _
  loaded b := by
    by_cases hb : b = a
    · subst hb
      have hcount := h.count b
      rw [Multiset.count_cons_self] at hcount
      have hloaded : s.loaded b = true := (h.loaded b).mpr (Multiset.mem_cons_self b held)
      have hrelease : (s.release b).loaded b = decide (0 < s.count b - 1) := by
        refine (Function.update_self ..).trans ?_
        rw [hloaded, Bool.true_and]
      rw [hrelease, decide_eq_true_iff, ← Multiset.count_pos]
      omega
    · have hother : (s.release a).loaded b = s.loaded b := Function.update_of_ne hb _ _
      rw [hother, h.loaded, Multiset.mem_cons, or_iff_right hb]

end RefCounts

end Openmoko
