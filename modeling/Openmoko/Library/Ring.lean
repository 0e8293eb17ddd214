import Mathlib.Data.List.Chain
import Mathlib.Data.List.Nodup
import Mathlib.Logic.Function.Basic

/-!
# Doubly linked rings

Every address has a successor and a predecessor. Some addresses head a ring, whose content is the
list of addresses met between the head and itself; an address in no ring's content heads a ring of
its own. Unlinking an address takes it out of the content it is in, and linking it before a head
appends it to that head's content.
-/

namespace Openmoko

structure Links (A : Type) where
  next : A → A
  prev : A → A

namespace Links

variable {A : Type}

def selfLinked : Links A where
  next a := a
  prev a := a

def Linked (l : Links A) (a b : A) : Prop := l.next a = b ∧ l.prev b = a

def Coherent (l : Links A) : Prop := ∀ a, l.prev (l.next a) = a ∧ l.next (l.prev a) = a

/-- From `a` through `xs` to `b`, and back. -/
def Segment (l : Links A) (a : A) (xs : List A) (b : A) : Prop :=
  (a :: xs ++ [b]).IsChain l.Linked

variable {l : Links A}

variable {a x head : A} {xs : List A} {content : A → List A}

@[simp]
theorem segment_nil {b : A} : l.Segment a [] b ↔ l.Linked a b := by
  simp [Segment]

@[simp]
theorem segment_cons {b : A} : l.Segment a (x :: xs) b ↔ l.Linked a x ∧ l.Segment x xs b := by
  simp [Segment]

theorem segment_concat {b : A} : l.Segment a (xs ++ [x]) b ↔ l.Segment a xs x ∧ l.Linked x b := by
  induction xs generalizing a with
  | nil => simp
  | cons y xs ih => simp [ih, and_assoc]

theorem segment_append {y b : A} {ys : List A} :
    l.Segment a (xs ++ y :: ys) b ↔ l.Segment a xs y ∧ l.Segment y ys b := by
  induction xs generalizing a with
  | nil => simp
  | cons x xs ih => simp [ih, and_assoc]

theorem Segment.imp {l' : Links A} {b : A} (hseg : l.Segment a xs b)
    (himp : ∀ u v, u ∈ a :: xs → v ∈ xs ++ [b] → l.Linked u v → l'.Linked u v) :
    l'.Segment a xs b := by
  induction xs generalizing a with
  | nil =>
    rw [segment_nil] at hseg ⊢
    exact himp a b (by simp) (by simp) hseg
  | cons x xs ih =>
    rw [segment_cons] at hseg ⊢
    constructor
    · exact himp a x (by simp) (by simp) hseg.1
    · apply ih hseg.2
      intro u v hu hv
      exact himp u v (List.mem_cons_of_mem a hu) (List.mem_cons_of_mem x hv)

theorem Segment.next_eq {b : A} (hseg : l.Segment a xs b) : l.next a = xs.head?.getD b := by
  cases xs with
  | nil => exact (segment_nil.mp hseg).1
  | cons x xs => exact (segment_cons.mp hseg).1.1

theorem Segment.prev_eq {b : A} (hseg : l.Segment a xs b) : l.prev b = xs.getLast?.getD a := by
  cases xs using List.reverseRecOn with
  | nil => exact (segment_nil.mp hseg).2
  | append_singleton xs x => simpa using (segment_concat.mp hseg).2.2

theorem Segment.next_getLast {b : A} {ys : List A} (hseg : l.Segment a (xs ++ ys) b) :
    l.next (xs.getLast?.getD a) = ys.head?.getD b := by
  cases xs using List.reverseRecOn with
  | nil => exact hseg.next_eq
  | append_singleton xs x =>
    rw [List.append_assoc] at hseg
    simpa using (segment_append.mp hseg).2.next_eq

/-- What every head's ring contains. -/
structure Rings (l : Links A) (content : A → List A) : Prop where
  coherent : l.Coherent
  ring : ∀ a, (∀ b, a ∉ content b) → l.Segment a (content a) a
  nodup : ∀ a, (content a).Nodup
  unique : ∀ x a b, x ∈ content a → x ∈ content b → a = b
  flat : ∀ x a, x ∈ content a → content x = []

theorem rings_selfLinked : (selfLinked : Links A).Rings fun _ => [] where
  coherent _ := ⟨rfl, rfl⟩
  ring _ _ := segment_nil.mpr ⟨rfl, rfl⟩
  nodup _ := List.nodup_nil
  unique _ _ _ hmem := absurd hmem List.not_mem_nil
  flat _ _ hmem := absurd hmem List.not_mem_nil

theorem Rings.mem_of_next (h : l.Rings content)
    (hhead : ∀ b, a ∉ content b) (hne : x ≠ a) (hnext : l.next x = a) : x ∈ content a := by
  have hprev : l.prev a = x := by rw [← hnext, (h.coherent x).1]
  rw [(h.ring a hhead).prev_eq] at hprev
  cases hlast : (content a).getLast? with
  | none =>
    rw [hlast] at hprev
    exact absurd hprev.symm hne
  | some y =>
    rw [hlast] at hprev
    obtain rfl : y = x := hprev
    exact List.mem_of_getLast? hlast

theorem Rings.mem_of_prev (h : l.Rings content)
    (hhead : ∀ b, a ∉ content b) (hne : x ≠ a) (hprev : l.prev x = a) :
    (content a).head? = some x := by
  have hnext : l.next a = x := by rw [← hprev, (h.coherent x).2]
  rw [(h.ring a hhead).next_eq] at hnext
  cases hfirst : (content a).head? with
  | none =>
    rw [hfirst] at hnext
    exact absurd hnext.symm hne
  | some y =>
    rw [hfirst] at hnext
    rw [← hnext]
    rfl

variable [DecidableEq A]

/-- The successor and the predecessor are joined, and then the address is left linked to itself. -/
def unlink (l : Links A) (x : A) : Links A where
  next := Function.update (Function.update l.next (l.prev x) (l.next x)) x x
  prev := Function.update (Function.update l.prev (l.next x) (l.prev x)) x x

def removed (content : A → List A) (x : A) : A → List A :=
  fun a => (content a).filter (· ≠ x)

theorem mem_removed {y : A} : y ∈ removed content x a ↔ y ∈ content a ∧ y ≠ x := by
  simp [removed]

theorem filter_ne_of_notMem (hx : x ∉ xs) : xs.filter (· ≠ x) = xs := by
  rw [List.filter_eq_self]
  intro y hy
  simpa using ne_of_mem_of_not_mem hy hx

theorem linked_unlink_self (x : A) : (l.unlink x).Linked x x := by
  simp [Linked, unlink]

theorem linked_unlink_across {u v : A} (hu : l.Linked u x) (hv : l.Linked x v) (hux : u ≠ x)
    (hvx : v ≠ x) : (l.unlink x).Linked u v := by
  obtain ⟨-, rfl⟩ := hu
  obtain ⟨rfl, -⟩ := hv
  simp [Linked, unlink, hux, hvx]

theorem linked_unlink_of_ne (hcoh : l.Coherent) {u v : A} (hlinked : l.Linked u v) (hux : u ≠ x)
    (hvx : v ≠ x) : (l.unlink x).Linked u v := by
  obtain ⟨hnext, hprev⟩ := hlinked
  have hu : u ≠ l.prev x := by
    intro heq
    rw [heq, (hcoh x).2] at hnext
    exact hvx hnext.symm
  have hv : v ≠ l.next x := by
    intro heq
    rw [heq, (hcoh x).1] at hprev
    exact hux hprev.symm
  simp [Linked, unlink, hux, hvx, hu, hv, hnext, hprev]

theorem Coherent.unlink (hcoh : l.Coherent) (x : A) : (l.unlink x).Coherent := by
  intro a
  by_cases hax : a = x
  · subst hax
    simp [Links.unlink]
  -- Every address but `x` is linked to the two that were around it, `x` left out.
  have hnext : ∃ b, (l.unlink x).Linked a b := by
    by_cases hb : l.next a = x
    · refine ⟨l.next x, linked_unlink_across ⟨hb, ?_⟩ ⟨rfl, (hcoh x).1⟩ hax ?_⟩
      · rw [← hb, (hcoh a).1]
      · intro heq
        have hself : l.prev x = x := by rw [← heq, (hcoh x).1, heq]
        rw [← hb, (hcoh a).1, hb] at hself
        exact hax hself
    · exact ⟨l.next a, linked_unlink_of_ne hcoh ⟨rfl, (hcoh a).1⟩ hax hb⟩
  have hprev : ∃ b, (l.unlink x).Linked b a := by
    by_cases hb : l.prev a = x
    · refine ⟨l.prev x, linked_unlink_across ⟨(hcoh x).2, rfl⟩ ⟨?_, hb⟩ ?_ hax⟩
      · rw [← hb, (hcoh a).2]
      · intro heq
        have hself : l.next x = x := by rw [← heq, (hcoh x).2, heq]
        rw [← hb, (hcoh a).2, hb] at hself
        exact hax hself
    · exact ⟨l.prev a, linked_unlink_of_ne hcoh ⟨(hcoh a).2, rfl⟩ hb hax⟩
  obtain ⟨b, hab, hba⟩ := hnext
  obtain ⟨c, hca, hac⟩ := hprev
  rw [hab, hba, hac, hca]
  exact ⟨rfl, rfl⟩

theorem Segment.unlink_notMem (hcoh : l.Coherent) {b : A}
    (hseg : l.Segment a xs b) (ha : x ∉ a :: xs) (hb : x ∉ xs ++ [b]) :
    (l.unlink x).Segment a xs b := by
  apply hseg.imp
  intro u v hu hv hlinked
  exact linked_unlink_of_ne hcoh hlinked (ne_of_mem_of_not_mem hu ha) (ne_of_mem_of_not_mem hv hb)

theorem Segment.unlink_mem (hcoh : l.Coherent) {b : A} {ys : List A}
    (hseg : l.Segment a (xs ++ x :: ys) b) (ha : x ∉ a :: xs) (hb : x ∉ ys ++ [b]) :
    (l.unlink x).Segment a (xs ++ ys) b := by
  induction xs generalizing a with
  | nil =>
    rw [List.nil_append, segment_cons] at hseg
    have hax : a ≠ x := (List.ne_of_not_mem_cons ha).symm
    cases ys with
    | nil =>
      have hbx : b ≠ x := by simpa using Ne.symm (by simpa using hb)
      simpa using linked_unlink_across hseg.1 (segment_nil.mp hseg.2) hax hbx
    | cons y ys =>
      obtain ⟨hxy, hrest⟩ := segment_cons.mp hseg.2
      have hyx : y ≠ x := (List.ne_of_not_mem_cons hb).symm
      refine segment_cons.mpr ⟨linked_unlink_across hseg.1 hxy hax hyx, ?_⟩
      apply hrest.unlink_notMem hcoh
      · intro hmem
        exact hb (List.mem_append_left [b] hmem)
      · exact fun hmem => hb (List.mem_cons_of_mem y hmem)
  | cons z xs ih =>
    rw [List.cons_append, segment_cons] at hseg ⊢
    have hrest : x ∉ z :: xs := fun hmem => ha (List.mem_cons_of_mem a hmem)
    constructor
    · apply linked_unlink_of_ne hcoh hseg.1
      · exact (List.ne_of_not_mem_cons ha).symm
      · exact (List.ne_of_not_mem_cons hrest).symm
    · exact ih hseg.2 hrest

theorem Rings.unlink (h : l.Rings content)
    (hx : content x = []) : (l.unlink x).Rings (removed content x) where
  coherent := h.coherent.unlink x
  ring a ha := by
    by_cases hax : a = x
    · subst hax
      have hnil : removed content a a = [] := by simp [removed, hx]
      rw [hnil, segment_nil]
      exact linked_unlink_self a
    have hhead : ∀ b, a ∉ content b := fun b hmem => ha b (mem_removed.mpr ⟨hmem, hax⟩)
    have hring := h.ring a hhead
    by_cases hmem : x ∈ content a
    · obtain ⟨xs, ys, heq⟩ := List.append_of_mem hmem
      have hnodup := h.nodup a
      rw [heq] at hring hnodup
      obtain ⟨hxs, hys⟩ : x ∉ xs ∧ x ∉ ys := by
        simp only [List.nodup_append, List.nodup_cons] at hnodup
        exact ⟨fun hx => hnodup.2.2 x hx x (by simp) rfl, hnodup.2.1.1⟩
      have hrest : removed content x a = xs ++ ys := by
        rw [removed, heq, List.filter_append, filter_ne_of_notMem hxs,
          List.filter_cons_of_neg (by simp), filter_ne_of_notMem hys]
      rw [hrest]
      apply hring.unlink_mem h.coherent
      · simp [Ne.symm hax, hxs]
      · simp [Ne.symm hax, hys]
    · rw [removed, filter_ne_of_notMem hmem]
      apply hring.unlink_notMem h.coherent
      · simp [Ne.symm hax, hmem]
      · simp [Ne.symm hax, hmem]
  nodup a := (h.nodup a).filter _
  unique y a b ha hb := h.unique y a b (mem_removed.mp ha).1 (mem_removed.mp hb).1
  flat y a hy := by
    rw [removed, h.flat y a (mem_removed.mp hy).1, List.filter_nil]

/-- `x` comes between the head's predecessor and the head. -/
def linkBefore (l : Links A) (x head : A) : Links A where
  next := Function.update (Function.update l.next x head) (l.prev head) x
  prev := Function.update (Function.update l.prev head x) x (l.prev head)

def appended (content : A → List A) (x head : A) : A → List A :=
  Function.update content head (content head ++ [x])

theorem mem_appended {y : A} :
    y ∈ appended content x head a ↔ y ∈ content a ∨ (y = x ∧ a = head) := by
  by_cases ha : a = head
  · subst ha
    simp [appended]
  · simp [appended, ha]

theorem linked_linkBefore_of_ne (hcoh : l.Coherent) {u v : A} (hlinked : l.Linked u v)
    (hux : u ≠ x) (hvx : v ≠ x) (hv : v ≠ head) : (l.linkBefore x head).Linked u v := by
  obtain ⟨hnext, hprev⟩ := hlinked
  have hu : u ≠ l.prev head := by
    intro heq
    rw [heq, (hcoh head).2] at hnext
    exact hv hnext.symm
  simp [Linked, linkBefore, hu, hux, hvx, hv, hnext, hprev]

theorem linked_linkBefore_prev (x head : A) : (l.linkBefore x head).Linked (l.prev head) x := by
  simp [Linked, linkBefore]

theorem linked_linkBefore_head (hne : x ≠ head) (hprev : l.prev head ≠ x) :
    (l.linkBefore x head).Linked x head := by
  simp [Linked, linkBefore, Ne.symm hne, Ne.symm hprev]

theorem Coherent.linkBefore (hcoh : l.Coherent) (hself : l.Linked x x)
    (hne : x ≠ head) : (l.linkBefore x head).Coherent := by
  have hback : l.prev head ≠ x := by
    intro heq
    have hnext := (hcoh head).2
    rw [heq, hself.1] at hnext
    exact hne hnext
  have hhead := linked_linkBefore_head (l := l) hne hback
  have hprev := linked_linkBefore_prev (l := l) x head
  intro a
  have hnext : ∃ b, (l.linkBefore x head).Linked a b := by
    by_cases hax : a = x
    · exact ⟨head, hax ▸ hhead⟩
    by_cases ha : a = l.prev head
    · exact ⟨x, ha ▸ hprev⟩
    refine ⟨l.next a, linked_linkBefore_of_ne hcoh ⟨rfl, (hcoh a).1⟩ hax ?_ ?_⟩
    · intro heq
      rw [← (hcoh a).1, heq, hself.2] at hax
      exact hax rfl
    · intro heq
      rw [← heq, (hcoh a).1] at ha
      exact ha rfl
  have hbefore : ∃ b, (l.linkBefore x head).Linked b a := by
    by_cases hax : a = x
    · exact ⟨l.prev head, hax ▸ hprev⟩
    by_cases ha : a = head
    · exact ⟨x, ha ▸ hhead⟩
    refine ⟨l.prev a, linked_linkBefore_of_ne hcoh ⟨(hcoh a).2, rfl⟩ ?_ hax ha⟩
    intro heq
    rw [← (hcoh a).2, heq, hself.1] at hax
    exact hax rfl
  obtain ⟨b, hab, hba⟩ := hnext
  obtain ⟨c, hca, hac⟩ := hbefore
  rw [hab, hba, hac, hca]
  exact ⟨rfl, rfl⟩

theorem Segment.linkBefore_head (hcoh : l.Coherent)
    (hseg : l.Segment a xs head) (hx : x ∉ a :: xs) (hhead : head ∉ xs) :
    (l.linkBefore x head).Segment a xs x := by
  cases xs using List.reverseRecOn with
  | nil =>
    obtain ⟨-, rfl⟩ := segment_nil.mp hseg
    exact segment_nil.mpr (linked_linkBefore_prev x head)
  | append_singleton xs y =>
    obtain ⟨hbefore, -, rfl⟩ := segment_concat.mp hseg
    refine segment_concat.mpr ⟨?_, linked_linkBefore_prev x head⟩
    apply hbefore.imp
    intro u v hu hv hlinked
    apply linked_linkBefore_of_ne hcoh hlinked
    · intro heq
      apply hx
      rw [← heq]
      exact List.mem_cons.mpr ((List.mem_cons.mp hu).imp_right (List.mem_append_left _))
    · exact ne_of_mem_of_not_mem hv fun hmem => hx (List.mem_cons_of_mem a hmem)
    · exact ne_of_mem_of_not_mem hv hhead

theorem Rings.linkBefore (h : l.Rings content)
    (hx : content x = []) (hfree : ∀ b, x ∉ content b) (hhead : ∀ b, head ∉ content b)
    (hne : x ≠ head) : (l.linkBefore x head).Rings (appended content x head) where
  coherent := by
    have hself := h.ring x hfree
    rw [hx, segment_nil] at hself
    exact h.coherent.linkBefore hself hne
  ring a ha := by
    have hin : ∀ b, a ∉ content b := fun b hmem => ha b (mem_appended.mpr (Or.inl hmem))
    have hax : a ≠ x := fun heq => ha head (mem_appended.mpr (Or.inr ⟨heq, rfl⟩))
    have hring := h.ring a hin
    by_cases hah : a = head
    · subst hah
      rw [appended, Function.update_self, segment_concat]
      have hback : l.prev a ≠ x := by
        intro heq
        exact hfree a (h.mem_of_next hhead hne (heq ▸ (h.coherent a).2))
      refine ⟨hring.linkBefore_head h.coherent ?_ (hhead a), linked_linkBefore_head hne hback⟩
      simp [Ne.symm hax, hfree a]
    · rw [appended, Function.update_of_ne hah]
      apply hring.imp
      intro u v hu hv hlinked
      have hux : u ≠ x := by
        rcases List.mem_cons.mp hu with rfl | hmem
        · exact hax
        · exact ne_of_mem_of_not_mem hmem (hfree a)
      have hvmem : v ∈ content a ∨ v = a := by simpa using hv
      rcases hvmem with hmem | rfl
      · exact linked_linkBefore_of_ne h.coherent hlinked hux
          (ne_of_mem_of_not_mem hmem (hfree a)) (ne_of_mem_of_not_mem hmem (hhead a))
      · exact linked_linkBefore_of_ne h.coherent hlinked hux hax hah
  nodup a := by
    by_cases ha : a = head
    · subst ha
      rw [appended, Function.update_self]
      exact (h.nodup a).append (List.nodup_singleton x) (by simpa using hfree a)
    · rw [appended, Function.update_of_ne ha]
      exact h.nodup a
  unique y a b ha hb := by
    rcases mem_appended.mp ha with hina | ⟨rfl, rfl⟩
    · rcases mem_appended.mp hb with hinb | ⟨rfl, rfl⟩
      · exact h.unique y a b hina hinb
      · exact absurd hina (hfree a)
    · rcases mem_appended.mp hb with hinb | ⟨-, rfl⟩
      · exact absurd hinb (hfree b)
      · rfl
  flat y a hy := by
    have hyhead : y ≠ head := by
      rcases mem_appended.mp hy with hmem | ⟨rfl, rfl⟩
      · exact fun heq => hhead a (heq ▸ hmem)
      · exact hne
    rw [appended, Function.update_of_ne hyhead]
    rcases mem_appended.mp hy with hmem | ⟨rfl, rfl⟩
    · exact h.flat y a hmem
    · exact hx

theorem Rings.move (h : l.Rings content) (hx : content x = [])
    (hhead : ∀ b, head ∉ content b) (hne : x ≠ head) :
    ((l.unlink x).linkBefore x head).Rings (appended (removed content x) x head) := by
  apply (h.unlink hx).linkBefore
  · rw [removed, hx, List.filter_nil]
  · intro b hmem
    exact (mem_removed.mp hmem).2 rfl
  · intro b hmem
    exact hhead b (mem_removed.mp hmem).1
  · exact hne

end Links

end Openmoko
