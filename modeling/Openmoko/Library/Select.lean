import Mathlib.Data.List.Induction
import Mathlib.Order.Lattice

/-!
# Selecting from a list

A loop walks through a list and keeps one element, which a later one may replace. When elements are
replaced by those that are better, and whatever is no candidate by anything, the best candidate is
selected, wherever it stands.
-/

namespace Openmoko

variable {α β κ : Type}

/-- The element that is kept, after the next one. -/
def keep (replaces : α → α → Bool) (best : Option α) (s : α) : Option α :=
  match best with
  | none => some s
  | some b => if replaces b s then some s else some b

def select (replaces : α → α → Bool) (l : List α) : Option α := l.foldl (keep replaces) none

section Select

variable [LinearOrder κ] {replaces : α → α → Bool}

theorem select_append_singleton (replaces : α → α → Bool) (l : List α) (s : α) :
    select replaces (l ++ [s]) = keep replaces (select replaces l) s := by
  rw [select, List.foldl_append]
  rfl

variable {l : List α}

theorem exists_select (replaces : α → α → Bool) (hl : l ≠ []) :
    ∃ m ∈ l, select replaces l = some m := by
  induction l using List.reverseRecOn with
  | nil => exact absurd rfl hl
  | append_singleton l s ih =>
    rw [select_append_singleton]
    rcases eq_or_ne l [] with rfl | hne
    · exact ⟨s, List.mem_singleton_self s, rfl⟩
    · obtain ⟨m, hm, hselect⟩ := ih hne
      rw [hselect, keep]
      split
      · exact ⟨s, List.mem_append_right l (List.mem_singleton_self s), rfl⟩
      · exact ⟨m, List.mem_append_left _ hm, rfl⟩

theorem eq_nil_of_select {replaces : α → α → Bool} (h : select replaces l = none) : l = [] := by
  by_contra hne
  obtain ⟨m, -, hm⟩ := exists_select replaces hne
  cases h.symm.trans hm

theorem mem_of_select {replaces : α → α → Bool} {m : α}
    (h : select replaces l = some m) : m ∈ l := by
  have hne : l ≠ [] := by
    rintro rfl
    cases h
  obtain ⟨m', hm', heq⟩ := exists_select replaces hne
  cases h.symm.trans heq
  exact hm'

theorem select_least (key : α → κ) (good : α → Prop)
    (hreplaces : ∀ b s, replaces b s = true ↔ ¬ good b ∨ good s ∧ key s < key b)
    {a m : α} (ha : a ∈ l) (hgood : good a) (hselect : select replaces l = some m) :
    good m ∧ ∀ s ∈ l, good s → key m ≤ key s := by
  induction l using List.reverseRecOn generalizing a m with
  | nil => cases ha
  | append_singleton l s ih =>
    rw [select_append_singleton] at hselect
    cases hbest : select replaces l with
    | none =>
      cases eq_nil_of_select hbest
      rw [hbest] at hselect
      cases hselect
      cases List.mem_singleton.mp ha
      refine ⟨hgood, fun s hs _ => ?_⟩
      cases List.mem_singleton.mp hs
      exact le_rfl
    | some b =>
      rw [hbest, keep] at hselect
      by_cases hb : good b
      · -- the element that was kept is the best candidate so far
        have hleast := (ih (mem_of_select hbest) hb hbest).2
        split at hselect
        next hreplace =>
          cases hselect
          obtain ⟨hs, hlt⟩ := ((hreplaces b s).mp hreplace).resolve_left (not_not_intro hb)
          refine ⟨hs, fun t ht htgood => ?_⟩
          rcases List.mem_append.mp ht with ht | ht
          · exact le_trans (le_of_lt hlt) (hleast t ht htgood)
          · cases List.mem_singleton.mp ht
            exact le_rfl
        next hkeep =>
          cases hselect
          refine ⟨hb, fun t ht htgood => ?_⟩
          rcases List.mem_append.mp ht with ht | ht
          · exact hleast t ht htgood
          · cases List.mem_singleton.mp ht
            exact not_lt.mp fun hlt => hkeep ((hreplaces m s).mpr (Or.inr ⟨htgood, hlt⟩))
      · -- there was no candidate so far
        rw [if_pos ((hreplaces b s).mpr (Or.inl hb))] at hselect
        cases hselect
        have hnone : ∀ t ∈ l, ¬ good t := fun t ht htgood => hb (ih ht htgood hbest).1
        have hs : good s := by
          rcases List.mem_append.mp ha with ha | ha
          · exact absurd hgood (hnone a ha)
          · cases List.mem_singleton.mp ha
            exact hgood
        refine ⟨hs, fun t ht htgood => ?_⟩
        rcases List.mem_append.mp ht with ht | ht
        · exact absurd htgood (hnone t ht)
        · cases List.mem_singleton.mp ht
          exact le_rfl

end Select

theorem select_map_eq_some_iff [LinearOrder κ] {replaces : α → α → Bool} {view : α → β}
    {R : β → β → Prop} {key : β → κ} (good : β → Prop) (hR : ∀ a b, R a b ↔ key a < key b)
    (hkey : ∀ a b, key a = key b → a = b)
    (hreplaces : ∀ b s, replaces b s = true ↔
      ¬ good (view b) ∨ good (view s) ∧ R (view s) (view b)) {l : List α}
    (hgood : ∃ s ∈ l, good (view s)) (p : β) :
    (select replaces l).map view = some p ↔
      (∃ s ∈ l, view s = p) ∧ good p ∧ ∀ s ∈ l, good (view s) → view s ≠ p → R p (view s) := by
  obtain ⟨a, ha, hgood⟩ := hgood
  obtain ⟨m, hm, hselect⟩ := exists_select replaces (List.ne_nil_of_mem ha)
  obtain ⟨hmgood, hleast⟩ := select_least (fun s => key (view s)) (fun s => good (view s))
    (fun b s => by rw [hreplaces, hR]) ha hgood hselect
  rw [hselect, Option.map_some, Option.some.injEq]
  constructor
  · rintro rfl
    refine ⟨⟨m, hm, rfl⟩, hmgood, fun s hs hsgood hne => (hR _ _).mpr ?_⟩
    exact lt_of_le_of_ne (hleast s hs hsgood) fun heq => hne (hkey _ _ heq.symm)
  · rintro ⟨⟨s, hs, rfl⟩, hsgood, hbest⟩
    by_contra hne
    have hlt := (hR _ _).mp (hbest m hm hmgood hne)
    exact not_lt.mpr (hleast s hs hsgood) hlt

end Openmoko
