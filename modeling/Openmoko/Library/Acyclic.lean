import Mathlib.Data.List.Chain
import Mathlib.Data.Set.Finite.Basic
import Mathlib.Logic.Relation
import Mathlib.Order.WellFounded

/-!
# Acyclic relations

A relation has a cycle when some element is related to itself along a path. Among finitely many
elements of an acyclic one there is always one that nothing else among them leads to, and a relation
along which a number grows is acyclic.
-/

namespace Openmoko

open Relation

variable {α : Type} {r : α → α → Prop}

def Acyclic (r : α → α → Prop) : Prop := ∀ a, ¬ TransGen r a a

theorem acyclic_of_rank (rank : α → ℕ) (hrank : ∀ a b, r a b → rank a < rank b) : Acyclic r := by
  have hpath : ∀ a b, TransGen r a b → rank a < rank b := by
    intro a b hab
    induction hab with
    | single hstep => exact hrank _ _ hstep
    | tail _ hstep ih => exact ih.trans (hrank _ _ hstep)
  exact fun a haa => Nat.lt_irrefl _ (hpath a a haa)

theorem Acyclic.wellFounded (hr : Acyclic r) (l : List α) :
    WellFounded fun a b : { x // x ∈ l } => TransGen r a.1 b.1 := by
  have : IsTrans { x // x ∈ l } fun a b => TransGen r a.1 b.1 := ⟨fun _ _ _ => TransGen.trans⟩
  have : Std.Irrefl fun a b : { x // x ∈ l } => TransGen r a.1 b.1 := ⟨fun a => hr a.1⟩
  have : Finite { x // x ∈ l } := List.finite_toSet l
  exact Finite.wellFounded_of_trans_of_irrefl _

theorem Acyclic.exists_source (hr : Acyclic r) {l : List α} (hl : l ≠ []) :
    ∃ a ∈ l, ∀ b ∈ l, ¬ r b a := by
  obtain ⟨x, hx⟩ := List.exists_mem_of_ne_nil l hl
  obtain ⟨a, -, hmin⟩ := (hr.wellFounded l).has_min Set.univ ⟨⟨x, hx⟩, trivial⟩
  exact ⟨a.1, a.2, fun b hb hba => hmin ⟨b, hb⟩ trivial (TransGen.single hba)⟩

theorem Acyclic.mono {r' : α → α → Prop} (hr : Acyclic r) (hle : r' ≤ r) :
    Acyclic r' := fun a haa => hr a (TransGen.mono hle _ _ haa)

theorem Acyclic.insert {r' : α → α → Prop} (hr : Acyclic r) {a b : α}
    (hback : ¬ ReflTransGen r b a) (hle : ∀ x y, r' x y → r x y ∨ (x = a ∧ y = b)) :
    Acyclic r' := by
  have hpath : ∀ x y, TransGen r' x y →
      TransGen r x y ∨ (ReflTransGen r x a ∧ ReflTransGen r b y) := by
    intro x y hxy
    induction hxy with
    | single hstep =>
      rcases hle _ _ hstep with hold | ⟨rfl, rfl⟩
      · exact Or.inl (.single hold)
      · exact Or.inr ⟨.refl, .refl⟩
    | @tail y z _ hstep ih =>
      rcases hle _ _ hstep with hold | ⟨rfl, rfl⟩
      · rcases ih with hxy | ⟨hxa, hby⟩
        · exact Or.inl (hxy.tail hold)
        · exact Or.inr ⟨hxa, hby.tail hold⟩
      · rcases ih with hxy | ⟨hxa, -⟩
        · exact Or.inr ⟨hxy.to_reflTransGen, .refl⟩
        · exact Or.inr ⟨hxa, .refl⟩
  intro x hxx
  rcases hpath x x hxx with hold | ⟨hxa, hbx⟩
  · exact hr x hold
  · exact hback (hbx.trans hxa)

theorem Acyclic.length_le (hr : Acyclic r) {nodes : List α} (hnodes : ∀ a b, r a b → a ∈ nodes)
    {l : List α} (hl : l.IsChain r) : l.length ≤ nodes.length + 1 := by
  have htrans : IsTrans α (TransGen r) := ⟨fun _ _ _ => TransGen.trans⟩
  have hpairs : l.Pairwise (TransGen r) := (hl.imp fun _ _ => TransGen.single).pairwise
  have hnodup : l.Nodup := by
    apply hpairs.imp
    rintro a b hab rfl
    exact hr a hab
  have hsub : l.dropLast ⊆ nodes := by
    clear hpairs hnodup
    induction l with
    | nil => exact nofun
    | cons a l ih =>
      cases l with
      | nil => exact nofun
      | cons b l =>
        rw [List.isChain_cons_cons] at hl
        rw [List.dropLast_cons_cons, List.cons_subset]
        exact ⟨hnodes a b hl.1, ih hl.2⟩
  have hle := (hnodup.sublist (List.dropLast_sublist l)).subperm hsub |>.length_le
  rw [List.length_dropLast] at hle
  omega

theorem exists_chain_of_cycle {a b : α} (hcycle : TransGen r a a) (hb : TransGen r b a) (n : ℕ) :
    ∃ l, (b :: l).IsChain r ∧ l.length = n := by
  induction n generalizing b with
  | zero => exact ⟨[], .singleton b, rfl⟩
  | succ n ih =>
    obtain ⟨c, hbc, hca⟩ := TransGen.head'_iff.mp hb
    obtain ⟨l, hl, hlength⟩ := ih (TransGen.trans_right hca hcycle)
    exact ⟨c :: l, hl.cons_cons hbc, congrArg Nat.succ hlength⟩

end Openmoko

/-!
## Walks along labelled edges

A walk is known by the labels of its edges. In a forest, where every node is entered by one edge at
most, the walk from a root to a node is unique, and one exists where the edges make no cycle.
-/

namespace Openmoko

open Relation

variable {α ι : Type} {edge : α → ι → α → Prop}

inductive Walk (edge : α → ι → α → Prop) (a : α) : List ι → α → Prop
  | nil : Walk edge a [] a
  | snoc {is : List ι} {i : ι} {b c : α} (h : Walk edge a is b) (hstep : edge b i c) :
      Walk edge a (is ++ [i]) c

variable {is : List ι}

theorem Walk.take {a b : α} (h : Walk edge a is b) (n : ℕ) : ∃ c, Walk edge a (is.take n) c := by
  induction h with
  | nil => exact ⟨a, by simpa using Walk.nil⟩
  | @snoc is i b c h hstep ih =>
    rcases Nat.lt_or_ge is.length n with hlt | hge
    · rw [List.take_of_length_le (by rw [List.length_append, List.length_singleton]; exact hlt)]
      exact ⟨c, h.snoc hstep⟩
    · rw [List.take_append_of_le_length hge]
      exact ih

theorem Walk.inv {P : α → Prop} (hstep : ∀ b i c, edge b i c → P b → P c) {a b : α}
    (h : Walk edge a is b) (ha : P a) : P b := by
  induction h with
  | nil => exact ha
  | snoc _ hbc ih => exact hstep _ _ _ hbc ih

theorem Walk.unique (hin : ∀ b b' i i' c, edge b i c → edge b' i' c → b = b' ∧ i = i') {a a' : α}
    (ha : ∀ b i, ¬ edge b i a) (ha' : ∀ b i, ¬ edge b i a') {b : α} {is' : List ι}
    (h : Walk edge a is b) (h' : Walk edge a' is' b) : is = is' := by
  induction h generalizing is' with
  | nil =>
    cases h' with
    | nil => rfl
    | snoc _ hstep => exact absurd hstep (ha _ _)
  | snoc _ hstep ih =>
    cases h' with
    | nil => exact absurd hstep (ha' _ _)
    | snoc h' hstep' =>
      obtain ⟨rfl, rfl⟩ := hin _ _ _ _ _ hstep hstep'
      rw [ih h']

theorem Walk.chain {r : α → α → Prop} (hedge : ∀ b i c, edge b i c → r b c) {a b : α}
    (h : Walk edge a is b) :
    ∃ l, (l ++ [b]).IsChain r ∧ l.length = is.length := by
  induction h with
  | nil => exact ⟨[], .singleton a, rfl⟩
  | @snoc is i b c _ hstep ih =>
    obtain ⟨l, hl, hlength⟩ := ih
    refine ⟨l ++ [b], ?_, by simp [hlength]⟩
    rw [List.isChain_append]
    refine ⟨hl, .singleton c, ?_⟩
    intro x hx y hy
    rw [List.getLast?_concat, Option.mem_some_iff] at hx
    rw [List.head?_singleton, Option.mem_some_iff] at hy
    subst hx hy
    exact hedge _ _ _ hstep

theorem Walk.length_le {r : α → α → Prop} (hr : Acyclic r) (hedge : ∀ b i c, edge b i c → r b c)
    {nodes : List α} (hnodes : ∀ a b, r a b → a ∈ nodes) {a b : α}
    (h : Walk edge a is b) : is.length ≤ nodes.length := by
  obtain ⟨l, hl, hlength⟩ := h.chain hedge
  have hle := hr.length_le hnodes hl
  rw [List.length_append, List.length_singleton] at hle
  omega

theorem exists_walk (edge : α → ι → α → Prop) {r : α → α → Prop} (hr : Acyclic r)
    {nodes : List α} (hnodes : ∀ a b, r a b → a ∈ nodes) (hedge : ∀ a b, r a b → ∃ i, edge a i b)
    {b : α}
    (hb : b ∈ nodes) : ∃ a ∈ nodes, (∀ c, ¬ r c a) ∧ ∃ is, Walk edge a is b := by
  have hwf := hr.wellFounded nodes
  suffices hall : ∀ b : { x // x ∈ nodes },
      ∃ a ∈ nodes, (∀ c, ¬ r c a) ∧ ∃ is, Walk edge a is b.1 from hall ⟨b, hb⟩
  intro b
  induction b using hwf.induction with
  | h b ih =>
    by_cases hparent : ∃ a, r a b.1
    · obtain ⟨a, hab⟩ := hparent
      obtain ⟨root, hroot, hfirst, is, hwalk⟩ := ih ⟨a, hnodes a b.1 hab⟩ (TransGen.single hab)
      obtain ⟨i, hi⟩ := hedge a b.1 hab
      exact ⟨root, hroot, hfirst, is ++ [i], hwalk.snoc hi⟩
    · exact ⟨b.1, b.2, fun c hc => hparent ⟨c, hc⟩, [], Walk.nil⟩

end Openmoko
