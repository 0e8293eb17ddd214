import Mathlib.Algebra.Order.BigOperators.Group.Finset
import Mathlib.Data.List.Perm.Subperm
import Mathlib.Logic.Relation

/-!
# Worklists

The vertices of a graph are taken from the front of a queue, each of them once, and those that its
edges lead to are put at the end. The search meets what can be reached from the queue, and first of
all the queue itself.
-/

namespace Openmoko.Worklist

variable {α : Type} [DecidableEq α]

/-- A graph in which finitely many vertices have edges. -/
structure Graph (α : Type) where
  succ : α → List α
  sources : Finset α
  mem_sources : ∀ x, succ x ≠ [] → x ∈ sources

def Graph.Edge (g : Graph α) (x y : α) : Prop := y ∈ g.succ x

def Graph.Reaches (g : Graph α) : α → α → Prop := Relation.ReflTransGen g.Edge

variable (g : Graph α) {seen queue : List α} {x y : α}

/-- The edges that can still be followed. -/
def Graph.left (seen : List α) : ℕ := ∑ x ∈ g.sources \ seen.toFinset, (g.succ x).length

theorem Graph.left_cons (hx : x ∉ seen) : g.left (x :: seen) + (g.succ x).length ≤ g.left seen := by
  have herase : g.sources \ (x :: seen).toFinset = (g.sources \ seen.toFinset).erase x := by
    ext y
    simp [and_left_comm]
  rw [Graph.left, Graph.left, herase]
  by_cases hsource : x ∈ g.sources
  · have hmem : x ∈ g.sources \ seen.toFinset := by simp [hsource, hx]
    rw [Finset.sum_erase_add _ _ hmem]
  · have hsucc : g.succ x = [] := not_not.mp (mt (g.mem_sources x) hsource)
    rw [hsucc, List.length_nil, Nat.add_zero]
    exact Finset.sum_le_sum_of_subset (Finset.erase_subset _ _)

/-- The vertices in the order in which they are first taken from the queue. -/
def Graph.visit (seen queue : List α) : List α :=
  match queue with
  | [] => []
  | x :: queue =>
    if x ∈ seen then Graph.visit seen queue
    else x :: Graph.visit (x :: seen) (queue ++ g.succ x)
termination_by g.left seen + queue.length
decreasing_by
  · simp
  · rename_i hx
    have hleft := g.left_cons hx
    simp only [List.length_append, List.length_cons]
    omega

theorem Graph.visit_nil (seen : List α) : g.visit seen [] = [] := by rw [Graph.visit]

theorem Graph.visit_of_mem (hx : x ∈ seen) : g.visit seen (x :: queue) = g.visit seen queue := by
  rw [Graph.visit, if_pos hx]

theorem Graph.visit_of_notMem (hx : x ∉ seen) :
    g.visit seen (x :: queue) = x :: g.visit (x :: seen) (queue ++ g.succ x) := by
  rw [Graph.visit, if_neg hx]

theorem Graph.notMem_seen_of_mem_visit (hy : y ∈ g.visit seen queue) : y ∉ seen := by
  fun_induction Graph.visit g seen queue with
  | case1 => exact absurd hy List.not_mem_nil
  | case2 seen x queue hx ih => exact ih hy
  | case3 seen x queue hx ih =>
    rcases List.mem_cons.mp hy with rfl | hy
    · exact hx
    · exact fun hmem => ih hy (List.mem_cons_of_mem _ hmem)

theorem Graph.nodup_visit (seen queue : List α) : (g.visit seen queue).Nodup := by
  fun_induction Graph.visit g seen queue with
  | case1 => exact List.nodup_nil
  | case2 seen x queue hx ih => exact ih
  | case3 seen x queue hx ih =>
    exact List.nodup_cons.mpr
      ⟨fun hmem => g.notMem_seen_of_mem_visit hmem List.mem_cons_self, ih⟩

theorem Graph.reached_of_mem_visit (hy : y ∈ g.visit seen queue) : ∃ x ∈ queue, g.Reaches x y := by
  fun_induction Graph.visit g seen queue with
  | case1 => exact absurd hy List.not_mem_nil
  | case2 seen x queue hx ih =>
    obtain ⟨z, hz, hreach⟩ := ih hy
    exact ⟨z, List.mem_cons_of_mem _ hz, hreach⟩
  | case3 seen x queue hx ih =>
    rcases List.mem_cons.mp hy with rfl | hy
    · exact ⟨y, List.mem_cons_self, .refl⟩
    · obtain ⟨z, hz, hreach⟩ := ih hy
      rcases List.mem_append.mp hz with hz | hz
      · exact ⟨z, List.mem_cons_of_mem _ hz, hreach⟩
      · exact ⟨x, List.mem_cons_self, .head hz hreach⟩

/-- The edges of what has been seen lead to what has been seen or is queued. -/
def Graph.Closed (seen queue : List α) : Prop :=
  ∀ x ∈ seen, ∀ y ∈ g.succ x, y ∈ seen ∨ y ∈ queue

theorem Graph.mem_visit_of_reached (hclosed : g.Closed seen queue) (hx : x ∈ seen ∨ x ∈ queue)
    (hreach : g.Reaches x y) : y ∈ seen ∨ y ∈ g.visit seen queue := by
  fun_induction Graph.visit g seen queue generalizing x with
  | case1 seen =>
    refine Or.inl ?_
    have hx : x ∈ seen := hx.resolve_right List.not_mem_nil
    induction hreach with
    | refl => exact hx
    | tail _ hedge ih => exact (hclosed _ ih _ hedge).resolve_right List.not_mem_nil
  | case2 seen z queue hz ih =>
    have hcases : ∀ {w}, w ∈ seen ∨ w ∈ z :: queue → w ∈ seen ∨ w ∈ queue := by
      rintro w (hw | hw)
      · exact Or.inl hw
      · rcases List.mem_cons.mp hw with rfl | hw
        · exact Or.inl hz
        · exact Or.inr hw
    exact ih (fun u hu w hw => hcases (hclosed u hu w hw)) (hcases hx) hreach
  | case3 seen z queue hz ih =>
    have hcases : ∀ {w}, w ∈ seen ∨ w ∈ z :: queue →
        w ∈ z :: seen ∨ w ∈ queue ++ g.succ z := by
      rintro w (hw | hw)
      · exact Or.inl (List.mem_cons_of_mem _ hw)
      · rcases List.mem_cons.mp hw with rfl | hw
        · exact Or.inl List.mem_cons_self
        · exact Or.inr (List.mem_append_left _ hw)
    have hnext : g.Closed (z :: seen) (queue ++ g.succ z) := by
      intro u hu w hw
      rcases List.mem_cons.mp hu with rfl | hu
      · exact Or.inr (List.mem_append_right _ hw)
      · exact hcases (hclosed u hu w hw)
    rcases ih hnext (hcases hx) hreach with hy | hy
    · rcases List.mem_cons.mp hy with rfl | hy
      · exact Or.inr List.mem_cons_self
      · exact Or.inl hy
    · exact Or.inr (List.mem_cons_of_mem _ hy)

theorem Graph.mem_visit_iff : y ∈ g.visit [] queue ↔ ∃ x ∈ queue, g.Reaches x y := by
  refine ⟨g.reached_of_mem_visit, fun ⟨x, hx, hreach⟩ => ?_⟩
  exact (g.mem_visit_of_reached (fun _ h => absurd h List.not_mem_nil) (Or.inr hx)
    hreach).resolve_left List.not_mem_nil

/-- The first occurrences in a list of what has not been seen. -/
def firsts : List α → List α → List α
  | _, [] => []
  | seen, x :: queue => if x ∈ seen then firsts seen queue else x :: firsts (x :: seen) queue

theorem firsts_sublist (seen queue : List α) : (firsts seen queue).Sublist queue := by
  fun_induction firsts seen queue with
  | case1 => exact List.Sublist.refl []
  | case2 seen x queue hx ih => exact ih.cons _
  | case3 seen x queue hx ih => exact ih.cons_cons _

theorem mem_firsts : y ∈ firsts seen queue ↔ y ∈ queue ∧ y ∉ seen := by
  fun_induction firsts seen queue with
  | case1 => simp
  | case2 seen x queue hx ih =>
    rw [ih, List.mem_cons]
    constructor
    · exact fun ⟨hmem, hy⟩ => ⟨Or.inr hmem, hy⟩
    · rintro ⟨rfl | hmem, hy⟩
      · exact absurd hx hy
      · exact ⟨hmem, hy⟩
  | case3 seen x queue hx ih =>
    rw [List.mem_cons, ih, List.mem_cons, List.mem_cons, not_or]
    by_cases heq : y = x
    · subst heq
      simp [hx]
    · simp [heq]

theorem nodup_firsts (seen queue : List α) : (firsts seen queue).Nodup := by
  fun_induction firsts seen queue with
  | case1 => exact List.nodup_nil
  | case2 seen x queue hx ih => exact ih
  | case3 seen x queue hx ih =>
    exact List.nodup_cons.mpr ⟨fun hmem => (mem_firsts.mp hmem).2 List.mem_cons_self, ih⟩

theorem Graph.visit_append (seen queue more : List α) :
    ∃ seen' more', g.visit seen (queue ++ more) = firsts seen queue ++ g.visit seen' more' ∧
      ∀ x, x ∈ seen ∨ x ∈ queue → x ∈ seen' := by
  induction queue generalizing seen more with
  | nil =>
    refine ⟨seen, more, by rw [firsts]; rfl, fun x hx => hx.resolve_right List.not_mem_nil⟩
  | cons x queue ih =>
    rw [List.cons_append]
    by_cases hx : x ∈ seen
    · obtain ⟨seen', more', heq, hmem⟩ := ih seen more
      rw [g.visit_of_mem hx, firsts, if_pos hx]
      refine ⟨seen', more', heq, fun y hy => hmem y ?_⟩
      rcases hy with hy | hy
      · exact Or.inl hy
      · rcases List.mem_cons.mp hy with rfl | hy
        · exact Or.inl hx
        · exact Or.inr hy
    · obtain ⟨seen', more', heq, hmem⟩ := ih (x :: seen) (more ++ g.succ x)
      rw [g.visit_of_notMem hx, List.append_assoc, heq, firsts, if_neg hx]
      refine ⟨seen', more', rfl, fun y hy => hmem y ?_⟩
      rcases hy with hy | hy
      · exact Or.inl (List.mem_cons_of_mem _ hy)
      · rcases List.mem_cons.mp hy with rfl | hy
        · exact Or.inl List.mem_cons_self
        · exact Or.inr hy

theorem Graph.visit_eq (queue : List α) :
    ∃ rest, g.visit [] queue = firsts [] queue ++ rest ∧ rest.Nodup ∧
      ∀ y, y ∈ rest ↔ (∃ x ∈ queue, g.Reaches x y) ∧ y ∉ queue := by
  obtain ⟨seen', more', heq, hmem⟩ := g.visit_append [] queue []
  rw [List.append_nil] at heq
  refine ⟨g.visit seen' more', heq, g.nodup_visit _ _, fun y => ?_⟩
  rw [← g.mem_visit_iff, heq, List.mem_append, mem_firsts]
  constructor
  · intro hy
    exact ⟨Or.inr hy, fun hqueue => g.notMem_seen_of_mem_visit hy (hmem y (Or.inr hqueue))⟩
  · rintro ⟨⟨hqueue, -⟩ | hy, hnot⟩
    · exact absurd hqueue hnot
    · exact hy

theorem firsts_eq_self (hnodup : queue.Nodup) : firsts [] queue = queue := by
  refine (firsts_sublist [] queue).eq_of_length_le ?_
  have hsub : queue ⊆ firsts [] queue := fun x hx => mem_firsts.mpr ⟨hx, List.not_mem_nil⟩
  exact (hnodup.subperm hsub).length_le

theorem length_firsts_lt (hnodup : ¬ queue.Nodup) : (firsts [] queue).length < queue.length := by
  refine lt_of_le_of_ne (firsts_sublist [] queue).length_le fun heq => hnodup ?_
  rw [← (firsts_sublist [] queue).eq_of_length heq]
  exact nodup_firsts [] queue

end Openmoko.Worklist
