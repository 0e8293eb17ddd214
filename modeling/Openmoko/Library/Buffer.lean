import Mathlib.Data.List.Basic
import Mathlib.Data.List.Infix

/-!
# Buffers

Memory of a fixed size, as far as it was written. A write beyond the end is refused.
-/

namespace Openmoko

abbrev Buffer (α : Type) := List (Option α)

namespace Buffer

variable {α : Type}

def alloc (size : ℕ) : Buffer α := List.replicate size none

def realloc (buf : Buffer α) (size : ℕ) : Buffer α :=
  buf.take size ++ List.replicate (size - buf.length) none

def write (buf : Buffer α) (i : ℕ) (a : α) : Option (Buffer α) :=
  if i < buf.length then some (buf.set i (some a)) else none

/-- An element that was written. -/
def read (buf : Buffer α) (i : ℕ) : Option α := buf[i]?.join

def writeAll (buf : Buffer α) (i : ℕ) : List α → Option (Buffer α)
  | [] => some buf
  | a :: l => (buf.write i a).bind fun buf => buf.writeAll (i + 1) l

/-- The buffer begins with these elements. -/
def Holds (buf : Buffer α) (l : List α) : Prop := l.map some <+: buf

@[simp]
theorem length_alloc (size : ℕ) : (alloc size : Buffer α).length = size := List.length_replicate

@[simp]
theorem length_realloc (buf : Buffer α) (size : ℕ) : (buf.realloc size).length = size := by
  rw [realloc, List.length_append, List.length_take, List.length_replicate]
  omega

theorem holds_nil (buf : Buffer α) : buf.Holds [] := List.nil_prefix

variable {buf : Buffer α} {l : List α} {size : ℕ} {pad : Option α}

theorem Holds.of_prefix {l' : List α} (h : buf.Holds l) (hl : l' <+: l) :
    buf.Holds l' := (hl.map some).trans h

theorem Holds.realloc (h : buf.Holds l) (hsize : l.length ≤ size) : (buf.realloc size).Holds l := by
  have htake : l.map some <+: buf.take size := by
    rw [List.prefix_take_iff]
    exact ⟨h, by rwa [List.length_map]⟩
  exact htake.trans (List.prefix_append _ _)

theorem Holds.write (h : buf.Holds l) (hlength : l.length < buf.length) (a : α) :
    ∃ buf', buf.write l.length a = some buf' ∧ buf'.Holds (l ++ [a]) ∧
      buf'.length = buf.length := by
  obtain ⟨rest, rfl⟩ := h
  refine ⟨_, if_pos hlength, ?_, List.length_set⟩
  cases rest with
  | nil => simp at hlength
  | cons b rest =>
    refine ⟨rest, ?_⟩
    rw [List.set_append_right _ _ (by simp), List.length_map, Nat.sub_self]
    simp

theorem Holds.writeAll {l' : List α} (h : buf.Holds l)
    (hlength : l.length + l'.length ≤ buf.length) :
    ∃ buf', buf.writeAll l.length l' = some buf' ∧ buf'.Holds (l ++ l') ∧
      buf'.length = buf.length := by
  induction l' generalizing buf l with
  | nil => exact ⟨buf, rfl, by rwa [List.append_nil], rfl⟩
  | cons a l' ih =>
    rw [List.length_cons] at hlength
    obtain ⟨buf', hwrite, hholds, hsize⟩ := h.write (by omega) a
    have hrest : (l ++ [a]).length + l'.length ≤ buf'.length := by
      rw [List.length_append, List.length_singleton]
      omega
    obtain ⟨buf'', hall, hholds', hsize'⟩ := ih hholds hrest
    rw [List.length_append, List.length_singleton] at hall
    refine ⟨buf'', ?_, by simpa using hholds', hsize'.trans hsize⟩
    rw [Buffer.writeAll, hwrite]
    exact hall

theorem writeAll_over (before : Buffer α) {old rest : Buffer α} (hlength : old.length = l.length) :
    Buffer.writeAll (before ++ old ++ rest) before.length l =
      some (before ++ l.map some ++ rest) := by
  induction l generalizing before old with
  | nil =>
    rw [List.length_eq_zero_iff.mp hlength]
    rfl
  | cons a l ih =>
    obtain ⟨b, old, rfl⟩ := List.exists_cons_of_length_eq_add_one hlength
    have hwrite : Buffer.write (before ++ b :: old ++ rest) before.length a =
        some (before ++ [some a] ++ old ++ rest) := by
      rw [write, if_pos (by simp), List.append_assoc, List.set_append_right _ _ (Nat.le_refl _)]
      simp
    have hrest := ih (before ++ [some a]) (Nat.succ.inj hlength)
    rw [List.length_append] at hrest
    rw [writeAll, hwrite, Option.bind_some, List.map_cons,
      List.append_cons before (some a) (l.map some)]
    exact hrest

/-- These elements, and behind them what the buffer had at first. -/
def padded (size : ℕ) (pad : Option α) (l : List α) : Buffer α :=
  l.map some ++ List.replicate (size - l.length) pad

theorem length_padded (h : l.length ≤ size) : (padded size pad l).length = size := by
  rw [padded, List.length_append, List.length_map, List.length_replicate]
  omega

theorem read_padded (size : ℕ) (pad : Option α) (l : List α) (a : α) (l' : List α) :
    (padded size pad (l ++ a :: l')).read l.length = some a := by
  simp [read, padded]

theorem write_isSome_iff {i : ℕ} {a : α} : (buf.write i a).isSome = true ↔ i < buf.length := by
  unfold write
  split_ifs with h
  · exact ⟨fun _ => h, fun _ => rfl⟩
  · exact ⟨fun hsome => absurd hsome Bool.false_ne_true, fun hlt => absurd hlt h⟩

theorem write_padded (h : l.length < size) (a : α) :
    (padded size pad l).write l.length a = some (padded size pad (l ++ [a])) := by
  have hrest : List.replicate (size - l.length) pad =
      pad :: List.replicate (size - (l ++ [a]).length) pad := by
    rw [← List.replicate_succ, List.length_append, List.length_singleton]
    congr 1
    omega
  rw [write, if_pos (by rw [length_padded h.le]; exact h)]
  rw [padded, List.set_append_right _ _ (by simp), List.length_map, Nat.sub_self, hrest]
  simp [padded]

theorem writeAll_padded {l' : List α} (h : l.length + l'.length ≤ size) :
    (padded size pad l).writeAll l.length l' = some (padded size pad (l ++ l')) := by
  induction l' generalizing l with
  | nil => rw [List.append_nil, writeAll]
  | cons a l' ih =>
    rw [List.length_cons] at h
    have hrest := ih (l := l ++ [a]) (by rw [List.length_append, List.length_singleton]; omega)
    rw [writeAll, write_padded (by omega), Option.bind_some]
    rw [List.length_append, List.length_singleton] at hrest
    rw [hrest, List.append_assoc, List.singleton_append]

theorem writeAll_alloc (h : l.length ≤ size) :
    (alloc size).writeAll 0 l = some (padded size none l) :=
  writeAll_padded (l := []) ((Nat.zero_add _).trans_le h)

theorem writeAll_isSome_iff {i : ℕ} (hne : l ≠ []) :
    (buf.writeAll i l).isSome = true ↔ i + l.length ≤ buf.length := by
  induction l generalizing buf i with
  | nil => exact absurd rfl hne
  | cons a l ih =>
    rw [writeAll, write, List.length_cons]
    split_ifs with hlt
    · rw [Option.bind_some]
      cases l with
      | nil =>
        refine ⟨fun _ => ?_, fun _ => rfl⟩
        rw [List.length_nil]
        omega
      | cons b l =>
        rw [ih (List.cons_ne_nil b l), List.length_set]
        omega
    · rw [Option.bind_none]
      refine ⟨fun h => absurd h Bool.false_ne_true, fun h => ?_⟩
      omega

end Buffer

end Openmoko
