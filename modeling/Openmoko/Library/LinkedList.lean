import Mathlib.Data.List.Basic
import Mathlib.Data.List.Nodup

/-!
# Taking an element out of a linked list and putting it back

An element that is taken out keeps its pointer to the next one, and its predecessor is remembered.
Putting it back checks that the two are still neighbours.
-/

namespace Openmoko

variable {α : Type} [DecidableEq α]

/-- A list without one of its elements, and the element's neighbours. -/
structure Unlinked (α : Type) where
  rest : List α
  prev : Option α
  next : Option α
  deriving DecidableEq, Repr

/-- The walk runs off the list when the element is not on it. -/
def unlink (x : α) : List α → Option (Unlinked α)
  | [] => none
  | a :: l =>
    if a = x then some { rest := l, prev := none, next := l.head? }
    else
      (unlink x l).map fun u =>
        { rest := a :: u.rest, prev := some (u.prev.getD a), next := u.next }

/-- The element after `prev`, if what follows there is still its successor. -/
def relinkAfter (x prev : α) (next : Option α) : List α → Option (List α)
  | [] => none
  | a :: l =>
    if a = prev then if l.head? = next then some (a :: x :: l) else none
    else (relinkAfter x prev next l).map (a :: ·)

def relink (x : α) (prev next : Option α) (l : List α) : Option (List α) :=
  match prev with
  | none => if l.head? = next then some (x :: l) else none
  | some prev => relinkAfter x prev next l

variable {before l : List α} {x : α} {u : Unlinked α}

theorem takeWhile_ne_of_notMem (h : x ∉ before) (after : List α) :
    (before ++ x :: after).takeWhile (· ≠ x) = before := by
  rw [List.takeWhile_append_of_pos]
  · rw [List.takeWhile_cons_of_neg (by simp), List.append_nil]
  · intro a ha
    rw [decide_eq_true_iff]
    rintro rfl
    exact h ha

theorem dropWhile_ne_of_notMem (h : x ∉ before) (after : List α) :
    (before ++ x :: after).dropWhile (· ≠ x) = x :: after := by
  rw [List.dropWhile_append_of_pos]
  · rw [List.dropWhile_cons_of_neg (by simp)]
  · intro a ha
    rw [decide_eq_true_iff]
    rintro rfl
    exact h ha

theorem unlink_cons_self (x : α) (l : List α) :
    unlink x (x :: l) = some { rest := l, prev := none, next := l.head? } := by
  rw [unlink, if_pos rfl]

theorem unlink_cons_of_ne {a : α} (h : a ≠ x) (l : List α) : unlink x (a :: l) =
      (unlink x l).map fun u =>
        { rest := a :: u.rest, prev := some (u.prev.getD a), next := u.next } := by
  rw [unlink, if_neg h]

theorem exists_append_of_unlink (h : unlink x l = some u) :
    ∃ before after, l = before ++ x :: after ∧ x ∉ before ∧ u.rest = before ++ after ∧
      u.prev = before.getLast? ∧ u.next = after.head? := by
  induction l generalizing u with
  | nil => cases h
  | cons a l ih =>
    by_cases ha : a = x
    · subst ha
      rw [unlink_cons_self] at h
      cases h
      exact ⟨[], l, rfl, List.not_mem_nil, rfl, rfl, rfl⟩
    · rw [unlink_cons_of_ne ha] at h
      obtain ⟨u', hu', rfl⟩ := Option.map_eq_some_iff.mp h
      obtain ⟨before, after, hl, hx, hrest, hprev, hnext⟩ := ih hu'
      refine ⟨a :: before, after, by rw [hl]; rfl, ?_, by rw [hrest]; rfl, ?_, hnext⟩
      · rw [List.mem_cons]
        rintro (rfl | hmem)
        · exact ha rfl
        · exact hx hmem
      · rw [hprev, List.getLast?_cons]

theorem unlink_isSome (h : x ∈ l) : ∃ u, unlink x l = some u := by
  induction l with
  | nil => cases h
  | cons a l ih =>
    by_cases ha : a = x
    · subst ha
      exact ⟨_, unlink_cons_self a l⟩
    · obtain ⟨u, hu⟩ := ih ((List.mem_cons.mp h).resolve_left (Ne.symm ha))
      exact ⟨_, by rw [unlink_cons_of_ne ha, hu]; rfl⟩

theorem mem_of_unlink (h : unlink x l = some u) : x ∈ l := by
  obtain ⟨before, after, rfl, -⟩ := exists_append_of_unlink h
  exact List.mem_append_right _ List.mem_cons_self

theorem sublist_of_unlink (h : unlink x l = some u) : u.rest.Sublist l := by
  obtain ⟨before, after, rfl, -, hrest, -⟩ := exists_append_of_unlink h
  rw [hrest]
  exact List.Sublist.append_left (List.sublist_cons_self x after) before

theorem length_of_unlink (h : unlink x l = some u) : u.rest.length + 1 = l.length := by
  obtain ⟨before, after, rfl, -, hrest, -⟩ := exists_append_of_unlink h
  rw [hrest, List.length_append, List.length_append, List.length_cons, Nat.add_assoc]

theorem rest_eq_erase (h : unlink x l = some u) : u.rest = l.erase x := by
  obtain ⟨before, after, rfl, hx, hrest, -⟩ := exists_append_of_unlink h
  rw [hrest, List.erase_append_right _ hx, List.erase_cons_head]

theorem mem_rest_iff (hl : l.Nodup)
    (h : unlink x l = some u) (y : α) : y ∈ u.rest ↔ y ∈ l ∧ y ≠ x := by
  obtain ⟨before, after, rfl, -, hrest, -⟩ := exists_append_of_unlink h
  obtain ⟨hx, -⟩ := List.nodup_cons.mp (List.nodup_middle.mp hl)
  rw [hrest]
  constructor
  · intro hy
    refine ⟨?_, fun heq => hx (heq ▸ hy)⟩
    obtain hy | hy := List.mem_append.mp hy
    · exact List.mem_append_left _ hy
    · exact List.mem_append_right _ (List.mem_cons_of_mem _ hy)
  · rintro ⟨hy, hne⟩
    obtain hy | hy := List.mem_append.mp hy
    · exact List.mem_append_left _ hy
    · exact List.mem_append_right _ ((List.mem_cons.mp hy).resolve_left hne)

theorem relinkAfter_append {prev : α} {after : List α} (h : prev ∉ before) :
    relinkAfter x prev after.head? (before ++ prev :: after) =
      some (before ++ prev :: x :: after) := by
  induction before with
  | nil => rw [List.nil_append, relinkAfter, if_pos rfl, if_pos rfl, List.nil_append]
  | cons a before ih =>
    rw [List.mem_cons, not_or] at h
    obtain ⟨hne, hbefore⟩ := h
    rw [List.cons_append, relinkAfter, if_neg (Ne.symm hne), ih hbefore, Option.map_some,
      List.cons_append]

theorem relink_unlink (hl : l.Nodup)
    (h : unlink x l = some u) : relink x u.prev u.next u.rest = some l := by
  obtain ⟨before, after, rfl, -, hrest, hprev, hnext⟩ := exists_append_of_unlink h
  rw [hrest, hprev, hnext]
  obtain hnil | ⟨init, prev, rfl⟩ := before.eq_nil_or_concat'
  · subst hnil
    rw [List.getLast?_nil, relink, List.nil_append, if_pos rfl, List.nil_append]
  · rw [List.getLast?_append, List.getLast?_singleton, Option.some_or, relink, List.append_assoc,
      List.append_assoc]
    apply relinkAfter_append
    rw [List.append_assoc] at hl
    exact fun hmem => (List.nodup_append.mp hl).2.2 prev hmem prev List.mem_cons_self rfl

theorem exists_append_of_relink {prev next : Option α} {l' : List α}
    (h : relink x prev next l = some l') :
    ∃ before after, l = before ++ after ∧ l' = before ++ x :: after ∧ prev = before.getLast? ∧
      next = after.head? := by
  cases prev with
  | none =>
    rw [relink] at h
    by_cases hnext : l.head? = next
    · rw [if_pos hnext] at h
      cases h
      exact ⟨[], l, rfl, rfl, rfl, hnext.symm⟩
    · rw [if_neg hnext] at h
      cases h
  | some prev =>
    rw [relink] at h
    induction l generalizing l' with
    | nil => cases h
    | cons a l ih =>
      rw [relinkAfter] at h
      by_cases ha : a = prev
      · rw [if_pos ha] at h
        by_cases hnext : l.head? = next
        · rw [if_pos hnext] at h
          cases h
          exact ⟨[a], l, rfl, rfl, by rw [ha]; rfl, hnext.symm⟩
        · rw [if_neg hnext] at h
          cases h
      · rw [if_neg ha] at h
        obtain ⟨l'', hl'', rfl⟩ := Option.map_eq_some_iff.mp h
        obtain ⟨before, after, hl, hl', hprev, hnext⟩ := ih hl''
        refine ⟨a :: before, after, by rw [hl]; rfl, by rw [hl']; rfl, ?_, hnext⟩
        rw [List.getLast?_cons, ← hprev]
        rfl

end Openmoko
