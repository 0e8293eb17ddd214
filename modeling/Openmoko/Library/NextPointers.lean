import Mathlib.Logic.Function.Basic
import Openmoko.Library.LinkedList

/-!
# Lists linked by pointers

A list in memory is a pointer to its first element, from where each element points to the next one.
A slot is where such a pointer is: the start of the list, or an element. Elements that are taken out
keep their pointers, so that a walk that stands on one of them goes on.
-/

namespace Openmoko

variable {α : Type}

/-- The pointer to the first element, and the pointers in all elements. -/
structure NextLinks (α : Type) where
  first : Option α
  next : α → Option α

/-- From one pointer through the elements of a list to another pointer. -/
def Segment (next : α → Option α) : Option α → List α → Option α → Prop
  | p, [], q => p = q
  | p, a :: l, q => p = some a ∧ Segment next (next a) l q

/-- The elements of the list, up to its end. -/
def Linked (next : α → Option α) (p : Option α) (l : List α) : Prop := Segment next p l none

namespace NextLinks

/-- `*slot`. -/
def get (s : NextLinks α) : Option α → Option α
  | none => s.first
  | some a => s.next a

variable [DecidableEq α]

def set (s : NextLinks α) (slot p : Option α) : NextLinks α :=
  match slot with
  | none => { s with first := p }
  | some a => { s with next := Function.update s.next a p }

/-- The element in front of another one; the walk fails at the end of the list. -/
def findPrev (next : α → Option α) (x : α) : ℕ → Option α → Option α → Option (Option α)
  | 0, _, _ => none
  | _ + 1, none, _ => none
  | n + 1, some a, prev => if a = x then some prev else findPrev next x n (next a) (some a)

/-- An element is taken out of a slot and put into another one. -/
def relink (s : NextLinks α) (slot : Option α) (v : α) (anchor : Option α) : NextLinks α :=
  let s := s.set slot (s.next v)
  let s := s.set (some v) (s.get anchor)
  s.set anchor (some v)

/-- What points to an element then points to the next one. -/
def remove (s : NextLinks α) (x : α) (prev : Option α) : NextLinks α := s.set prev (s.next x)

end NextLinks

section Segment

variable {next : α → Option α} {p q r : Option α} {l l' : List α} {a : α}

theorem segment_append :
    Segment next p (l ++ l') q ↔ ∃ r, Segment next p l r ∧ Segment next r l' q := by
  induction l generalizing p with
  | nil => simp [Segment]
  | cons a l ih =>
    rw [List.cons_append, Segment, ih]
    simp only [Segment, and_assoc, exists_and_left]

theorem Segment.next_last (h : Segment next p (l ++ [a]) q) : next a = q := by
  obtain ⟨r, -, -, hlast⟩ := segment_append.mp h
  exact hlast

theorem Segment.get {s : NextLinks α} (h : Segment s.next s.first l q) : s.get l.getLast? = q := by
  obtain hnil | ⟨init, a, rfl⟩ := l.eq_nil_or_concat'
  · subst hnil
    exact h
  · rw [List.getLast?_append, List.getLast?_singleton, Option.some_or]
    exact h.next_last

variable [DecidableEq α]

theorem Segment.update (h : Segment next p l q) (ha : a ∉ l) (r : Option α) :
    Segment (Function.update next a r) p l q := by
  induction l generalizing p with
  | nil => exact h
  | cons b l ih =>
    rw [List.mem_cons, not_or] at ha
    refine ⟨h.1, ?_⟩
    rw [Function.update_of_ne (Ne.symm ha.1)]
    exact ih h.2 ha.2

theorem Segment.set {s : NextLinks α} (h : Segment s.next p l q) {slot : Option α}
    (hslot : ∀ a ∈ slot, a ∉ l) (r : Option α) : Segment (s.set slot r).next p l q := by
  cases slot with
  | none => exact h
  | some a => exact h.update (hslot a rfl) r

theorem Segment.update_last (h : Segment next p (l ++ [a]) q) (ha : a ∉ l) (r : Option α) :
    Segment (Function.update next a r) p (l ++ [a]) r := by
  obtain ⟨q', hinit, hlast⟩ := segment_append.mp h
  exact segment_append.mpr ⟨q', hinit.update ha r, hlast.1, Function.update_self ..⟩

theorem Segment.set_last {s : NextLinks α} (h : Segment s.next s.first l q) (hl : l.Nodup)
    (r : Option α) : Segment (s.set l.getLast? r).next (s.set l.getLast? r).first l r := by
  obtain hnil | ⟨init, a, rfl⟩ := l.eq_nil_or_concat'
  · subst hnil
    rfl
  · have ha : a ∉ init := fun hmem =>
      (List.nodup_append.mp hl).2.2 a hmem a List.mem_cons_self rfl
    rw [List.getLast?_append, List.getLast?_singleton, Option.some_or]
    exact h.update_last ha r

end Segment

section Remove

variable [DecidableEq α] {s : NextLinks α} {l : List α} {x : α} {u : Unlinked α}

theorem findPrev_segment {next : α → Option α} {p : Option α} {before after : List α}
    {n : ℕ} {prev : Option α} (h : Segment next p (before ++ x :: after) none) (hx : x ∉ before)
    (hn : before.length < n) :
    NextLinks.findPrev next x n p prev = some (before.getLast?.or prev) := by
  induction before generalizing p n prev with
  | nil =>
    obtain ⟨rfl, -⟩ := h
    cases n with
    | zero => exact absurd hn (Nat.not_lt_zero _)
    | succ n => rw [NextLinks.findPrev, if_pos rfl, List.getLast?_nil, Option.none_or]
  | cons a before ih =>
    obtain ⟨rfl, h⟩ := h
    rw [List.mem_cons, not_or] at hx
    cases n with
    | zero => exact absurd hn (Nat.not_lt_zero _)
    | succ n =>
      rw [NextLinks.findPrev, if_neg (Ne.symm hx.1), ih h hx.2 (Nat.lt_of_succ_lt_succ hn),
        List.getLast?_cons]
      cases before.getLast? <;> rfl

theorem Linked.findPrev (h : Linked s.next s.first l) (hu : unlink x l = some u) {n : ℕ}
    (hn : l.length ≤ n) : NextLinks.findPrev s.next x n s.first none = some u.prev := by
  obtain ⟨before, after, rfl, hx, -, hprev, -⟩ := exists_append_of_unlink hu
  rw [List.length_append, List.length_cons] at hn
  rw [findPrev_segment h hx (by omega), hprev, Option.or_none]

theorem Linked.next_eq (h : Linked s.next s.first l) (hu : unlink x l = some u) :
    s.next x = u.next := by
  obtain ⟨before, after, rfl, hx, -, -, hnext⟩ := exists_append_of_unlink hu
  obtain ⟨p, -, rfl, hafter⟩ := segment_append.mp h
  rw [hnext]
  cases after with
  | nil => exact hafter
  | cons a after => exact hafter.1

theorem Linked.remove (h : Linked s.next s.first l) (hl : l.Nodup) (hu : unlink x l = some u) :
    Linked (s.remove x u.prev).next (s.remove x u.prev).first u.rest := by
  obtain ⟨before, after, rfl, hx, hrest, hprev, -⟩ := exists_append_of_unlink hu
  obtain ⟨p, hbefore, rfl, hafter⟩ := segment_append.mp h
  rw [hrest, hprev, NextLinks.remove]
  refine segment_append.mpr ⟨s.next x, hbefore.set_last (List.nodup_append.mp hl).1 _, ?_⟩
  refine hafter.set (fun a ha hmem => ?_) _
  exact (List.nodup_append.mp hl).2.2 a (List.mem_of_getLast? ha) a
    (List.mem_cons_of_mem x hmem) rfl

theorem Linked.remove_of_disjoint {p : Option α} {l' : List α} (h : Linked s.next p l')
    (hu : unlink x l = some u) (hdisjoint : ∀ a ∈ l, a ∉ l') :
    Linked (s.remove x u.prev).next p l' := by
  obtain ⟨before, after, rfl, -, -, hprev, -⟩ := exists_append_of_unlink hu
  refine Segment.set h (fun a ha => hdisjoint a ?_) _
  rw [hprev] at ha
  exact List.mem_append_left _ (List.mem_of_getLast? ha)

end Remove

section Relink

variable [DecidableEq α] {s : NextLinks α} {pre l post : List α} {v a : α}

theorem Linked.relink (hl : Linked s.next s.first (pre ++ v :: (l ++ [a] ++ post)))
    (hnodup : (pre ++ v :: (l ++ [a] ++ post)).Nodup) :
    Linked (s.relink pre.getLast? v (some a)).next (s.relink pre.getLast? v (some a)).first
      (pre ++ (l ++ [a] ++ v :: post)) := by
  obtain ⟨_, hpre, rfl, hrest⟩ := segment_append.mp hl
  obtain ⟨r, hmid, hpost⟩ := segment_append.mp hrest
  -- where the elements are not
  obtain ⟨hpreNodup, hbehind, hdisjoint⟩ := List.nodup_append.mp hnodup
  obtain ⟨hv, hbehind⟩ := List.nodup_cons.mp hbehind
  obtain ⟨hmidNodup, hpostNodup, hmidPost⟩ := List.nodup_append.mp hbehind
  rw [List.mem_append, not_or] at hv
  have hpreNot : ∀ x ∈ pre.getLast?, x ∉ v :: (l ++ [a] ++ post) := fun x hx hmem =>
    hdisjoint x (List.mem_of_getLast? hx) x hmem rfl
  have hpreMid : ∀ x ∈ pre.getLast?, x ∉ l ++ [a] := fun x hx hmem =>
    hpreNot x hx (List.mem_cons_of_mem v (List.mem_append_left _ hmem))
  have hprePost : ∀ x ∈ pre.getLast?, x ∉ post := fun x hx hmem =>
    hpreNot x hx (List.mem_cons_of_mem v (List.mem_append_right _ hmem))
  have ha : a ∈ l ++ [a] := List.mem_append_right l List.mem_cons_self
  have hvpre : v ∉ pre := fun hmem => hdisjoint v hmem v List.mem_cons_self rfl
  have hapre : a ∉ pre := fun hmem =>
    hdisjoint a hmem a (List.mem_cons_of_mem v (List.mem_append_left post ha)) rfl
  have hapost : a ∉ post := fun hmem => hmidPost a ha a hmem rfl
  have hav : a ≠ v := by
    rintro rfl
    exact hv.1 ha
  have hal : a ∉ l := fun hmem =>
    (List.nodup_append.mp hmidNodup).2.2 a hmem a List.mem_cons_self rfl
  -- the three assignments
  set s1 := s.set pre.getLast? (s.next v) with hs1
  have hpre1 : Segment s1.next s1.first pre (s.next v) := hpre.set_last hpreNodup _
  have hmid1 : Segment s1.next (s.next v) (l ++ [a]) r := hmid.set hpreMid _
  have hpost1 : Segment s1.next r post none := hpost.set hprePost _
  have hr : s1.get (some a) = r := hmid1.next_last
  have heq : s.relink pre.getLast? v (some a) = (s1.set (some v) r).set (some a) (some v) := by
    rw [← hr, hs1]
    rfl
  rw [heq]
  refine segment_append.mpr ⟨s.next v, (hpre1.update hvpre r).update hapre _, ?_⟩
  refine segment_append.mpr ⟨some v, (hmid1.update hv.1 r).update_last hal _, rfl, ?_⟩
  have hnext : ((s1.set (some v) r).set (some a) (some v)).next v = r := by
    change Function.update (Function.update s1.next v r) a (some v) v = r
    rw [Function.update_of_ne (Ne.symm hav), Function.update_self]
  rw [hnext]
  exact (hpost1.update hv.2 r).update hapost _

theorem Linked.relink_of_disjoint {p : Option α} {l' : List α} (hl' : Linked s.next p l')
    (hpre : ∀ x ∈ pre, x ∉ l') (hv : v ∉ l') (ha : a ∉ l') :
    Linked (s.relink pre.getLast? v (some a)).next p l' := by
  have h1 : Segment (s.set pre.getLast? (s.next v)).next p l' none :=
    Segment.set hl' (fun x hx => hpre x (List.mem_of_getLast? hx)) _
  exact (h1.update hv _).update ha _

end Relink

/-- A walk from a pointer passes some elements of a list; what it leaves out is no longer live. -/
inductive Passes (next : α → Option α) (live : α → Prop) : Option α → List α → Prop
  | done : Passes next live none []
  | here {a : α} {l : List α} (h : Passes next live (next a) l) : Passes next live (some a) (a :: l)
  | skip {a : α} {l : List α} {p : Option α} (ha : ¬live a) (h : Passes next live p l) :
      Passes next live p (a :: l)

section Passes

variable {next : α → Option α} {live live' : α → Prop} {p : Option α} {l : List α} {a : α}

theorem Linked.passes (h : Linked next p l) (live : α → Prop) : Passes next live p l := by
  induction l generalizing p with
  | nil => exact h ▸ .done
  | cons a l ih => exact h.1 ▸ .here (ih h.2)

theorem Passes.mono (h : Passes next live p l) (hlive : ∀ a, live' a → live a) :
    Passes next live' p l := by
  induction h with
  | done => exact .done
  | here _ ih => exact .here ih
  | skip ha _ ih => exact .skip (fun hlive' => ha (hlive _ hlive')) ih

theorem Passes.tail (h : Passes next live (some a) (a :: l)) (ha : a ∉ l) :
    Passes next live (next a) l := by
  have hmem : ∀ {p : Option α} {l : List α}, Passes next live p l → ∀ a ∈ p, a ∈ l := by
    intro p l h
    induction h with
    | done => exact nofun
    | here _ _ =>
      intro a ha
      cases ha
      exact List.mem_cons_self
    | skip _ _ ih => exact fun a hap => List.mem_cons_of_mem _ (ih a hap)
  cases h with
  | here h => exact h
  | skip _ h => exact absurd (hmem h a rfl) ha

theorem Passes.bypass (h : Passes next live p l) (hp : p = some a) (ha : ¬live a) :
    Passes next live (next a) l := by
  induction h with
  | done => cases hp
  | here h _ =>
    cases hp
    exact .skip ha h
  | skip hb _ ih => exact .skip hb (ih hp)

variable [DecidableEq α]

theorem Passes.update {x : α} (h : Passes next live p l) (ha : next a = some x) (hx : ¬live x)
    (hne : x ≠ a) : Passes (Function.update next a (next x)) live p l := by
  induction h with
  | done => exact .done
  | @here b l _ ih =>
    refine .here ?_
    by_cases hb : b = a
    · rw [hb, ha] at ih
      have hpast := ih.bypass rfl hx
      rw [Function.update_of_ne hne] at hpast
      rwa [hb, Function.update_self]
    · rw [Function.update_of_ne hb]
      exact ih
  | skip hb _ ih => exact .skip hb ih

/-- **Walks survive a removal**: whatever pointer they stand on, they come to all that is live. -/
theorem Passes.remove {s : NextLinks α} {l' : List α} {x : α} {u : Unlinked α}
    (h : Passes s.next live p l) (hlinked : Linked s.next s.first l')
    (hu : unlink x l' = some u) :
    Passes (s.remove x u.prev).next (fun a => live a ∧ a ≠ x) p l := by
  have hshrink : Passes s.next (fun a => live a ∧ a ≠ x) p l := h.mono fun _ => And.left
  obtain ⟨before, after, rfl, hx, -, hprev, -⟩ := exists_append_of_unlink hu
  rw [hprev, NextLinks.remove]
  obtain hnil | ⟨init, a, rfl⟩ := before.eq_nil_or_concat'
  · subst hnil
    exact hshrink
  · have hax : s.next a = some x := by
      rw [List.append_assoc] at hlinked
      obtain ⟨p, -, rfl, hx, -⟩ := segment_append.mp hlinked
      exact hx
    have hxa : x ≠ a := by
      rintro rfl
      exact hx (List.mem_append_right _ List.mem_cons_self)
    rw [List.getLast?_append, List.getLast?_singleton, Option.some_or]
    exact hshrink.update hax (fun hlive => hlive.2 rfl) hxa

end Passes

end Openmoko
