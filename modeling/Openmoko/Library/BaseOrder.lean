import Mathlib.Data.List.Induction
import Mathlib.Data.List.Nodup

/-!
# Lists in which bases come first

Elements may each be based on another one. In a list in this order, the base of an element is one of
those in front of it, or of those that were seen before the list begins.
-/

namespace Openmoko

variable {α : Type} {base base' : α → Option α} {seen seen' : α → Prop} {l l' : List α} {x : α}

def FollowsFrom (base : α → Option α) : (α → Prop) → List α → Prop
  | _, [] => True
  | seen, x :: l =>
    (∀ b, base x = some b → seen b) ∧ FollowsFrom base (fun y => seen y ∨ y = x) l

theorem FollowsFrom.imp (h : FollowsFrom base seen l)
    (hseen : ∀ x ∈ l, ∀ b, base x = some b → seen b → seen' b) : FollowsFrom base seen' l := by
  induction l generalizing seen seen' with
  | nil => trivial
  | cons a l ih =>
    refine ⟨fun b hb => hseen a List.mem_cons_self b hb (h.1 b hb), ih h.2 ?_⟩
    intro x hx b hb hs
    exact hs.imp_left (hseen x (List.mem_cons_of_mem a hx) b hb)

theorem FollowsFrom.mono (h : FollowsFrom base seen l) (hseen : ∀ b, seen b → seen' b) :
    FollowsFrom base seen' l :=
  h.imp fun _ _ b _ => hseen b

theorem FollowsFrom.congr (h : FollowsFrom base seen l) (hbase : ∀ x ∈ l, base' x = base x) :
    FollowsFrom base' seen l := by
  induction l generalizing seen with
  | nil => trivial
  | cons a l ih =>
    refine ⟨?_, ih h.2 fun x hx => hbase x (List.mem_cons_of_mem a hx)⟩
    rw [hbase a List.mem_cons_self]
    exact h.1

theorem followsFrom_append :
    FollowsFrom base seen (l ++ l') ↔
      FollowsFrom base seen l ∧ FollowsFrom base (fun y => seen y ∨ y ∈ l) l' := by
  induction l generalizing seen with
  | nil =>
    have hseen : (fun y => seen y ∨ y ∈ ([] : List α)) = seen := by
      funext y
      rw [eq_iff_iff, or_iff_left List.not_mem_nil]
    rw [hseen]
    exact (and_iff_right trivial).symm
  | cons a l ih =>
    have hseen : (fun y => seen y ∨ y ∈ a :: l) = fun y => (seen y ∨ y = a) ∨ y ∈ l := by
      funext y
      rw [List.mem_cons, or_assoc]
    rw [hseen, List.cons_append, FollowsFrom, FollowsFrom, ih, and_assoc]

theorem followsFrom_concat :
    FollowsFrom base seen (l ++ [x]) ↔
      FollowsFrom base seen l ∧ ∀ b, base x = some b → seen b ∨ b ∈ l := by
  rw [followsFrom_append]
  exact and_congr_right fun _ => and_iff_left trivial

theorem followsFrom_iff :
    FollowsFrom base seen l ↔
      ∀ before x after, l = before ++ x :: after → ∀ b, base x = some b → seen b ∨ b ∈ before := by
  constructor
  · rintro h before x after rfl
    exact (followsFrom_append.mp h).2.1
  · intro h
    induction l using List.reverseRecOn with
    | nil => trivial
    | append_singleton l x ih =>
      rw [followsFrom_concat]
      refine ⟨ih ?_, h l x [] rfl⟩
      rintro before y after rfl
      exact h before y (after ++ [x]) (by rw [List.append_assoc, List.cons_append])

theorem FollowsFrom.seen_or_mem (h : FollowsFrom base seen l) {b : α} (hx : x ∈ l)
    (hb : base x = some b) : seen b ∨ b ∈ l := by
  obtain ⟨before, after, rfl⟩ := List.append_of_mem hx
  exact (followsFrom_iff.mp h before x after rfl b hb).imp_right (List.mem_append_left _)

theorem FollowsFrom.filter (p : α → Bool) (h : FollowsFrom base seen l)
    (hbase : ∀ x ∈ l, p x = true → ∀ b, base x = some b → p b = true)
    (hseen : ∀ b, seen b → p b = true → seen' b) : FollowsFrom base seen' (l.filter p) := by
  induction l generalizing seen seen' with
  | nil => trivial
  | cons a l ih =>
    have hrest : ∀ x ∈ l, p x = true → ∀ b, base x = some b → p b = true := fun x hx =>
      hbase x (List.mem_cons_of_mem a hx)
    by_cases ha : p a = true
    · rw [List.filter_cons_of_pos ha]
      refine ⟨fun b hb => hseen b (h.1 b hb) (hbase a List.mem_cons_self ha b hb), ?_⟩
      exact ih h.2 hrest fun b hb hpb => hb.imp_left fun hs => hseen b hs hpb
    · rw [List.filter_cons_of_neg ha]
      refine ih h.2 hrest fun b hb hpb => ?_
      obtain hs | rfl := hb
      · exact hseen b hs hpb
      · exact absurd hpb ha

theorem FollowsFrom.sublist (h : FollowsFrom base seen l) (hl : l.Nodup) (hsub : l'.Sublist l)
    (hbase : ∀ x ∈ l', ∀ b, base x = some b → b ∈ l') : FollowsFrom base seen l' := by
  rw [followsFrom_iff]
  intro before x after heq b hb
  have hmem : b ∈ before ∨ b ∈ x :: after := by
    rw [← List.mem_append, ← heq]
    exact hbase x (heq ▸ List.mem_append_right _ List.mem_cons_self) b hb
  rw [heq] at hsub
  -- where the two parts are on the longer list
  obtain ⟨r, s, rfl, -, hs⟩ := List.append_sublist_iff.mp hsub
  obtain ⟨t, u, rfl, hx, hafter⟩ := List.cons_sublist_iff.mp hs
  obtain ⟨v, w, rfl⟩ := List.append_of_mem hx
  have hsplit : r ++ (v ++ x :: w ++ u) = r ++ v ++ x :: (w ++ u) := by
    rw [List.append_assoc, List.append_assoc, List.cons_append]
  rw [hsplit] at h hl
  refine (followsFrom_iff.mp h _ x _ rfl b hb).imp_right fun hfront => ?_
  refine hmem.resolve_right fun hback => ?_
  have hback' : b ∈ x :: (w ++ u) := by
    obtain rfl | hback := List.mem_cons.mp hback
    · exact List.mem_cons_self
    · exact List.mem_cons_of_mem x (List.mem_append_right w (hafter.subset hback))
  exact (List.nodup_append.mp hl).2.2 b hfront b hback' rfl

theorem FollowsFrom.update_notMem [DecidableEq α] {b : Option α} (h : FollowsFrom base seen l)
    (hx : x ∉ l) : FollowsFrom (Function.update base x b) seen l :=
  h.congr fun y hy => Function.update_of_ne (fun heq : y = x => hx (heq ▸ hy)) _ _

theorem FollowsFrom.update [DecidableEq α] {before after : List α} {b : Option α}
    (h : FollowsFrom base seen (before ++ x :: after)) (hbefore : x ∉ before) (hafter : x ∉ after)
    (hb : ∀ y, b = some y → seen y ∨ y ∈ before) :
    FollowsFrom (Function.update base x b) seen (before ++ x :: after) := by
  rw [followsFrom_append] at h ⊢
  refine ⟨h.1.update_notMem hbefore, ?_, h.2.2.update_notMem hafter⟩
  intro y hy
  rw [Function.update_self] at hy
  exact hb y hy

end Openmoko
