import Mathlib.Data.Prod.Lex
import Mathlib.Order.PiLex
import Mathlib.Order.Compare
import Mathlib.Data.Int.Order.Basic
import Mathlib.Data.List.Sort
import Mathlib.Data.List.Lex

/-!
# Comparison functions and the orders they decide

A comparison function in the manner of `strcmp` returns an integer whose sign is the result. It
`Compares` by a key when that sign is the comparison of the keys in a linear order, and then it is a
total preorder. The keys of composite values are compared lexicographically: `cmp_prod` for pairs,
`cmp_seq` for sequences.
-/

namespace Openmoko

def outcome (r : Int) : Ordering := cmp r 0

@[simp]
theorem outcome_lt {r : Int} : outcome r = .lt ↔ r < 0 := cmp_eq_lt_iff r 0

@[simp]
theorem outcome_eq {r : Int} : outcome r = .eq ↔ r = 0 := cmp_eq_eq_iff r 0

@[simp]
theorem outcome_gt {r : Int} : outcome r = .gt ↔ 0 < r := cmp_eq_gt_iff r 0

theorem outcome_sub (a b : Int) : outcome (a - b) = cmp a b := by
  apply Eq.symm
  rcases lt_trichotomy a b with hlt | rfl | hgt
  · rw [(cmp_eq_lt_iff a b).mpr hlt, eq_comm, outcome_lt]
    omega
  · rw [cmp_self_eq_eq, eq_comm, outcome_eq]
    omega
  · rw [(cmp_eq_gt_iff a b).mpr hgt, eq_comm, outcome_gt]
    omega

theorem then_of_ne_eq {o o' : Ordering} (ho : o ≠ .eq) : o.then o' = o := by
  cases o with
  | lt => rfl
  | eq => exact absurd rfl ho
  | gt => rfl

section Lexicographic

variable {α β : Type} [LinearOrder α] [LinearOrder β]

theorem cmp_prod (a c : α) (b d : β) :
    cmp (toLex (a, b)) (toLex (c, d)) = (cmp a c).then (cmp b d) := by
  rcases lt_trichotomy a c with hlt | rfl | hgt
  · rw [(cmp_eq_lt_iff a c).mpr hlt, Ordering.lt_then, cmp_eq_lt_iff]
    exact Prod.Lex.toLex_lt_toLex.mpr (.inl hlt)
  · rw [cmp_self_eq_eq, Ordering.eq_then]
    rcases lt_trichotomy b d with hlt | rfl | hgt
    · rw [(cmp_eq_lt_iff b d).mpr hlt, cmp_eq_lt_iff]
      exact Prod.Lex.toLex_lt_toLex.mpr (.inr ⟨rfl, hlt⟩)
    · rw [cmp_self_eq_eq, cmp_self_eq_eq]
    · rw [(cmp_eq_gt_iff b d).mpr hgt, cmp_eq_gt_iff]
      exact Prod.Lex.toLex_lt_toLex.mpr (.inr ⟨rfl, hgt⟩)
  · rw [(cmp_eq_gt_iff a c).mpr hgt, Ordering.gt_then, cmp_eq_gt_iff]
    exact Prod.Lex.toLex_lt_toLex.mpr (.inl hgt)

theorem outcome_ite (a b : α) (r : Int) :
    outcome (if b < a then 1 else if a < b then -1 else r) = (cmp a b).then (outcome r) := by
  rcases lt_trichotomy a b with hlt | rfl | hgt
  · rw [if_neg hlt.not_gt, if_pos hlt, (cmp_eq_lt_iff a b).mpr hlt]
    rfl
  · rw [if_neg (lt_irrefl a), if_neg (lt_irrefl a), cmp_self_eq_eq, Ordering.eq_then]
  · rw [if_pos hgt, (cmp_eq_gt_iff a b).mpr hgt]
    rfl

/-- Sequences, in the order of their first difference. -/
def SeqLex (α : Type) : Type := Lex (ℕ → α)

noncomputable instance : LinearOrder (SeqLex α) := Pi.Lex.linearOrder

def seqLex (f : ℕ → α) : SeqLex α := toLex f

def seqTail (f : ℕ → α) : ℕ → α := fun k => f (k + 1)

theorem seq_lt_of_head {f g : ℕ → α} (hlt : f 0 < g 0) : seqLex f < seqLex g :=
  ⟨0, fun _ hj => absurd hj (Nat.not_lt_zero _), hlt⟩

theorem seq_lt_of_tail {f g : ℕ → α} (hhead : f 0 = g 0)
    (hlt : seqLex (seqTail f) < seqLex (seqTail g)) : seqLex f < seqLex g := by
  obtain ⟨k, heq, hk⟩ := hlt
  refine ⟨k + 1, fun j hj => ?_, hk⟩
  cases j with
  | zero => exact hhead
  | succ j => exact heq j (Nat.lt_of_succ_lt_succ hj)

omit [LinearOrder α] in
theorem seq_eq_of_tail {f g : ℕ → α} (hhead : f 0 = g 0)
    (htail : seqLex (seqTail f) = seqLex (seqTail g)) : seqLex f = seqLex g := by
  apply congrArg seqLex
  funext k
  cases k with
  | zero => exact hhead
  | succ k => exact congrFun htail k

theorem cmp_seq (f g : ℕ → α) :
    cmp (seqLex f) (seqLex g) =
      (cmp (f 0) (g 0)).then (cmp (seqLex (seqTail f)) (seqLex (seqTail g))) := by
  rcases lt_trichotomy (f 0) (g 0) with hlt | heq | hgt
  · rw [(cmp_eq_lt_iff _ _).mpr hlt, Ordering.lt_then, cmp_eq_lt_iff]
    exact seq_lt_of_head hlt
  · rw [(cmp_eq_eq_iff _ _).mpr heq, Ordering.eq_then]
    rcases lt_trichotomy (seqLex (seqTail f)) (seqLex (seqTail g)) with hlt | htail | hgt
    · rw [(cmp_eq_lt_iff _ _).mpr hlt, cmp_eq_lt_iff]
      exact seq_lt_of_tail heq hlt
    · rw [(cmp_eq_eq_iff _ _).mpr htail, cmp_eq_eq_iff]
      exact seq_eq_of_tail heq htail
    · rw [(cmp_eq_gt_iff _ _).mpr hgt, cmp_eq_gt_iff]
      exact seq_lt_of_tail heq.symm hgt
  · rw [(cmp_eq_gt_iff _ _).mpr hgt, Ordering.gt_then, cmp_eq_gt_iff]
    exact seq_lt_of_head hgt

end Lexicographic

/-- Strings, in the order of their first different byte. -/
def Bytes : Type := List ℕ

instance : LinearOrder Bytes := inferInstanceAs (LinearOrder (List ℕ))

def bytes (s : List UInt8) : Bytes := s.map UInt8.toNat

theorem lt_iff_bytes {s t : List UInt8} : s < t ↔ bytes s < bytes t := by
  have hlist : bytes s < bytes t ↔ s.map UInt8.toNat < t.map UInt8.toNat := Iff.rfl
  rw [hlist]
  clear hlist
  induction s generalizing t with
  | nil =>
    cases t with
    | nil => exact iff_of_false (List.lt_irrefl _) (lt_irrefl _)
    | cons d t => exact iff_of_true (List.nil_lt_cons d t) (List.nil_lt_cons _ _)
  | cons c s ih =>
    cases t with
    | nil => exact iff_of_false (List.not_lt_nil _) (List.not_lt_nil _)
    | cons d t =>
      rw [List.map_cons, List.map_cons, List.cons_lt_cons_iff, List.cons_lt_cons_iff,
        UInt8.lt_iff_toNat_lt, UInt8.toNat_inj]
      exact or_congr_right (and_congr_right fun _ => ih)

def ComparesBy {α κ : Type} [LinearOrder κ] (r : α → α → Int) (key : α → κ) : Prop :=
  ∀ a b, outcome (r a b) = cmp (key a) (key b)

namespace ComparesBy

variable {α κ : Type} [LinearOrder κ] {r : α → α → Int} {key : α → κ}

theorem lt_iff (hr : ComparesBy r key) (a b : α) : r a b < 0 ↔ key a < key b := by
  rw [← outcome_lt, hr, cmp_eq_lt_iff]

theorem eq_iff (hr : ComparesBy r key) (a b : α) : r a b = 0 ↔ key a = key b := by
  rw [← outcome_eq, hr, cmp_eq_eq_iff]

theorem gt_iff (hr : ComparesBy r key) (a b : α) : 0 < r a b ↔ key b < key a := by
  rw [← outcome_gt, hr, cmp_eq_gt_iff]

theorem le_iff (hr : ComparesBy r key) (a b : α) : r a b ≤ 0 ↔ key a ≤ key b := by
  rw [← not_lt, ← not_lt, hr.gt_iff]

theorem self (hr : ComparesBy r key) (a : α) : r a a = 0 := (hr.eq_iff a a).mpr rfl

theorem swap (hr : ComparesBy r key) (a b : α) : (r a b).sign = -(r b a).sign := by
  rcases lt_trichotomy (key a) (key b) with hlt | heq | hgt
  · rw [Int.sign_eq_neg_one_of_neg ((hr.lt_iff a b).mpr hlt),
      Int.sign_eq_one_of_pos ((hr.gt_iff b a).mpr hlt)]
  · rw [(hr.eq_iff a b).mpr heq, (hr.eq_iff b a).mpr heq.symm]
    rfl
  · rw [Int.sign_eq_one_of_pos ((hr.gt_iff a b).mpr hgt),
      Int.sign_eq_neg_one_of_neg ((hr.lt_iff b a).mpr hgt)]
    rfl

theorem trans (hr : ComparesBy r key) {a b c : α} (hab : r a b ≤ 0) (hbc : r b c ≤ 0) :
    r a c ≤ 0 :=
  (hr.le_iff a c).mpr (((hr.le_iff a b).mp hab).trans ((hr.le_iff b c).mp hbc))

theorem trans_lt_left (hr : ComparesBy r key) {a b c : α} (hab : r a b < 0) (hbc : r b c ≤ 0) :
    r a c < 0 :=
  (hr.lt_iff a c).mpr (((hr.lt_iff a b).mp hab).trans_le ((hr.le_iff b c).mp hbc))

theorem trans_lt_right (hr : ComparesBy r key) {a b c : α} (hab : r a b ≤ 0) (hbc : r b c < 0) :
    r a c < 0 :=
  (hr.lt_iff a c).mpr (((hr.le_iff a b).mp hab).trans_lt ((hr.lt_iff b c).mp hbc))

end ComparesBy

/-- A `qsort`: it permutes the array. How it orders what the comparison function calls equal, or
what it makes of a comparison that is no order, is left open. -/
structure Qsort (α : Type) where
  sort : (α → α → Int) → List α → List α
  perm : ∀ compare l, (sort compare l).Perm l

def Qsort.stable (α : Type) : Qsort α where
  sort compare l := l.insertionSort fun a b => compare a b ≤ 0
  perm _ l := List.perm_insertionSort _ l

/-- What `qsort` is documented to do: the array is sorted where the comparison is one. -/
structure SortingQsort (α : Type) extends Qsort α where
  sorted : ∀ (compare : α → α → Int) (l : List α),
    (∀ a b, compare a b ≤ 0 ∨ compare b a ≤ 0) →
    (∀ a b c, compare a b ≤ 0 → compare b c ≤ 0 → compare a c ≤ 0) →
    (sort compare l).Pairwise fun a b => compare a b ≤ 0

def SortingQsort.stable (α : Type) : SortingQsort α where
  toQsort := Qsort.stable α
  sorted compare l htotal htrans := by
    have : Std.Total fun a b => compare a b ≤ 0 := ⟨htotal⟩
    have : IsTrans α fun a b => compare a b ≤ 0 := ⟨htrans⟩
    exact List.pairwise_insertionSort _ l

section Favouring

open Classical in
/-- A `qsort` that puts `x` last of what it compares equal to. -/
noncomputable def favour {α : Type} (x : α) (compare : α → α → Int) (l : List α) : List α :=
  let others := l.filter (· ≠ x)
  let sorted : List α → List α := List.insertionSort fun a b => compare a b ≤ 0
  (sorted (others.filter (compare · x ≤ 0)) ++ l.filter (· = x)) ++
    sorted (others.filter (0 < compare · x))

variable {α : Type} {x : α} {compare : α → α → Int} {l : List α}

theorem favour_perm : (favour x compare l).Perm l := by
  classical
  have hothers := (l.filter (· ≠ x)).filter_append_perm (compare · x ≤ 0)
  have hall := l.filter_append_perm (· ≠ x)
  simp only [← decide_not, not_le, not_not] at hothers hall
  rw [favour, List.append_assoc]
  refine List.Perm.trans ?_ hall
  refine .trans (.append (List.perm_insertionSort _ _)
    (.append_left _ (List.perm_insertionSort _ _))) ?_
  exact .trans (.append_left _ List.perm_append_comm)
    (by rw [← List.append_assoc]; exact hothers.append_right _)

noncomputable def SortingQsort.favouring (x : α) : SortingQsort α where
  sort := favour x
  perm _ _ := favour_perm
  sorted compare l htotal htrans := by
    have : Std.Total fun a b => compare a b ≤ 0 := ⟨htotal⟩
    have : IsTrans α fun a b => compare a b ≤ 0 := ⟨htrans⟩
    have hself : compare x x ≤ 0 := (htotal x x).elim id id
    refine List.pairwise_append.mpr ⟨List.pairwise_append.mpr
      ⟨List.pairwise_insertionSort _ _, List.pairwise_of_forall_mem_list ?_, ?_⟩,
      List.pairwise_insertionSort _ _, ?_⟩
    · simp only [List.mem_filter, decide_eq_true_eq]
      rintro a ⟨-, rfl⟩ b ⟨-, rfl⟩
      exact hself
    · simp only [List.mem_insertionSort, List.mem_filter, decide_eq_true_eq]
      rintro a ⟨-, hax⟩ b ⟨-, rfl⟩
      exact hax
    · intro a ha b hb
      have hax : compare a x ≤ 0 := by
        rcases List.mem_append.mp ha with hmem | hmem
        · simp_all
        · simp_all
      have hxb : compare x b ≤ 0 := by
        refine (htotal x b).resolve_right ?_
        simp_all
      exact htrans a x b hax hxb

theorem favour_eq (hx : x ∈ l) :
    ∃ before after, favour x compare l = before ++ x :: after ∧ ∀ y ∈ after, 0 < compare y x := by
  classical
  have hne : l.filter (· = x) ≠ [] := List.ne_nil_of_mem (List.mem_filter.mpr ⟨hx, by simp⟩)
  have hlast : (l.filter (· = x)).getLast hne = x := by
    simpa using (List.mem_filter.mp (List.getLast_mem hne)).2
  have hsplit := (List.dropLast_append_getLast hne).symm
  rw [hlast] at hsplit
  rw [favour, hsplit, ← List.append_assoc, List.append_assoc _ [x]]
  refine ⟨_, _, rfl, fun y hy => ?_⟩
  simpa using (List.mem_filter.mp ((List.mem_insertionSort _).mp hy)).2

end Favouring

end Openmoko
