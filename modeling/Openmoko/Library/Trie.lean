import Mathlib.Data.List.Infix
import Mathlib.Logic.Function.Basic

/-!
# Tries with bounded lists

A trie that keeps at every node the first few values whose key runs through it. The list at the end
of a path is then what a filter over the whole history of insertions gives, cut to its first few:
one insertion touches the lists along its key and no other, and appending to a bounded list is the
same as bounding the appended list.
-/

namespace Openmoko

variable {κ α : Type}

inductive Trie (κ α : Type) where
  | node (children : κ → Option (Trie κ α)) (values : List α)

namespace Trie

def children : Trie κ α → κ → Option (Trie κ α)
  | node children _ => children

def values : Trie κ α → List α
  | node _ values => values

@[simp]
theorem values_node (children : κ → Option (Trie κ α)) (values : List α) :
    (node children values).values = values := rfl

@[simp]
theorem children_node (children : κ → Option (Trie κ α)) (values : List α) :
    (node children values).children = children := rfl

def empty : Trie κ α := node (fun _ => none) []

def push (cap : Nat) (values : List α) (a : α) : List α :=
  if values.length < cap then values ++ [a] else values

def child (t : Trie κ α) (k : κ) : Trie κ α := (t.children k).getD empty

section Insert

variable [DecidableEq κ] (cap : Nat) (a : α)

/-- `a` goes to every node below the root that the key runs through. -/
def insert : List κ → Trie κ α → Trie κ α
  | [], t => t
  | k :: key, t =>
    let child := t.child k
    let child := node child.children (push cap child.values a)
    node (Function.update t.children k (some (insert key child))) t.values

end Insert

/-- The list at the end of a path, empty where there is no node. -/
def valuesAt (t : Trie κ α) : List κ → List α
  | [] => t.values
  | k :: path => (t.child k).valuesAt path

@[simp]
theorem valuesAt_empty (path : List κ) : (empty : Trie κ α).valuesAt path = [] := by
  induction path with
  | nil => rfl
  | cons k path ih => exact ih

@[simp]
theorem valuesAt_nil (t : Trie κ α) : t.valuesAt [] = t.values := rfl

@[simp]
theorem valuesAt_cons (t : Trie κ α) (k : κ) (path : List κ) :
    t.valuesAt (k :: path) = (t.child k).valuesAt path := rfl

theorem valuesAt_node_cons (t : Trie κ α) (values : List α) (k : κ) (path : List κ) :
    (node t.children values).valuesAt (k :: path) = t.valuesAt (k :: path) := rfl

section Insert

variable [DecidableEq κ] (cap : Nat) (a : α)

@[simp]
theorem values_insert (key : List κ) (t : Trie κ α) : (t.insert cap a key).values = t.values := by
  cases key <;> rfl

theorem child_insert_self (t : Trie κ α) (k : κ) (key : List κ) :
    (t.insert cap a (k :: key)).child k =
      (node (t.child k).children (push cap (t.child k).values a)).insert cap a key := by
  simp [insert, child]

theorem child_insert_of_ne (t : Trie κ α) {k k' : κ} (hne : k' ≠ k) (key : List κ) :
    (t.insert cap a (k :: key)).child k' = t.child k' := by
  simp [insert, child, hne]

theorem valuesAt_insert (t : Trie κ α) (key : List κ) {path : List κ} (hne : path ≠ []) :
    (t.insert cap a key).valuesAt path =
      if path <+: key then push cap (t.valuesAt path) a else t.valuesAt path := by
  induction key generalizing t path with
  | nil =>
    have hnot : ¬path <+: [] := fun h => hne (List.prefix_nil.mp h)
    rw [if_neg hnot]
    rfl
  | cons k key ih =>
    obtain ⟨k', path, rfl⟩ := List.exists_cons_of_ne_nil hne
    simp only [valuesAt_cons, List.cons_prefix_cons]
    by_cases hk : k' = k
    · subst hk
      rw [child_insert_self]
      cases path with
      | nil =>
        simp only [valuesAt_nil, values_insert, values_node, List.nil_prefix, and_self, if_true]
      | cons next path =>
        rw [ih _ (List.cons_ne_nil _ _), valuesAt_node_cons]
        simp
    · rw [child_insert_of_ne cap a t hk]
      simp [hk]

end Insert

theorem push_take (cap : Nat) (values : List α) (a : α) :
    push cap (values.take cap) a = (values ++ [a]).take cap := by
  unfold push
  rw [List.length_take, List.take_append]
  by_cases hroom : values.length < cap
  · have hmin : min cap values.length < cap := by omega
    have hone : [a].length ≤ cap - values.length := by
      rw [List.length_singleton]
      omega
    rw [if_pos hmin, List.take_of_length_le hone]
  · have hmin : ¬min cap values.length < cap := by omega
    have hzero : cap - values.length = 0 := by omega
    rw [if_neg hmin, hzero, List.take_zero, List.append_nil]

/-- **The trie is a filter over its history.** -/
theorem valuesAt_foldl_insert [DecidableEq κ] (cap : Nat) (key : α → List κ) (history : List α)
    {path : List κ} (hne : path ≠ []) :
    (history.foldl (fun t a => t.insert cap a (key a)) (empty : Trie κ α)).valuesAt path =
      (history.filter fun a => path <+: key a).take cap := by
  induction history using List.reverseRecOn with
  | nil => simp
  | append_singleton history a ih =>
    rw [List.foldl_concat, valuesAt_insert _ _ _ _ hne, ih, List.filter_append]
    by_cases hmatch : path <+: key a
    · rw [if_pos hmatch, push_take]
      simp [hmatch]
    · rw [if_neg hmatch]
      simp [hmatch]

end Trie

end Openmoko
