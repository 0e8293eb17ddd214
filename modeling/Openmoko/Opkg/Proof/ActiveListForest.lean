import Mathlib.Logic.Relation
import Mathlib.Order.WellFoundedSet
import Openmoko.Opkg.ActiveList

/-!
# The forest that an active list stands for

The forest is given by the list of nodes in every ring. A call takes its node out of the list it is
in and puts it at the end of another. The heap that the calls build holds this forest, and the
nodes that hang from the head are put in postorder by following the lists.
-/

namespace Openmoko.Opkg

variable {N : Type}

abbrev Children (N : Type) := ListHead N → List N

def DependOf (c : Children N) (y x : N) : Prop := y ∈ c (.depend x)

inductive Hangs (c : Children N) (head : N) : N → Prop where
  | top {x : N} (hmem : x ∈ c (.node head)) : Hangs c head x
  | dep {p x : N} (hp : Hangs c head p) (hmem : x ∈ c (.depend p)) : Hangs c head x

structure IsForest (head : N) (c : Children N) : Prop where
  nodup : ∀ a, (c a).Nodup
  unique : ∀ x a b, x ∈ c a → x ∈ c b → a = b
  head_free : ∀ a, head ∉ c a
  bare : ∀ x, x ≠ head → c (.node x) = []
  finite : {x | ∃ a, x ∈ c a}.Finite

section Shape

variable {a : ListHead N}

theorem Call.moved_ne {head : N} (call : Call head) : call.moved ≠ head := by
  cases call <;> assumption

theorem Call.target_ne {head : N} (call : Call head) {y : N} (hy : y ≠ head) :
    call.target ≠ .node y := by
  cases call with
  | add node hnode =>
    intro heq
    exact hy (ListHead.node.inj heq).symm
  | addDepend node depend hdepend => simp [target]

def ringContent (c : Children N) (a : ListHead N) : List (ListHead N) := (c a).map .node

@[simp]
theorem mem_ringContent {c : Children N} {x : N} : .node x ∈ ringContent c a ↔ x ∈ c a := by
  simp [ringContent]

@[simp]
theorem depend_notMem_ringContent {c : Children N} {x : N} : .depend x ∉ ringContent c a := by
  simp [ringContent]

structure HoldsForest (head : N) (h : ActiveHeap N) (c : Children N) : Prop where
  forest : IsForest head c
  rings : h.links.Rings (ringContent c)
  depended : ∀ x a, x ∈ c a → h.depended x = some a.owner

theorem isForest_empty (head : N) : IsForest head fun _ => [] where
  nodup _ := List.nodup_nil
  unique _ _ _ hmem := absurd hmem List.not_mem_nil
  head_free _ := List.not_mem_nil
  bare _ _ := rfl
  finite := by simp

variable [DecidableEq N]

def place (c : Children N) (x : N) (a : ListHead N) : Children N :=
  fun b => (c b).filter (· ≠ x) ++ if b = a then [x] else []

def shape {head : N} (calls : List (Call head)) : Children N :=
  calls.foldl (fun c call => place c call.moved call.target) fun _ => []

theorem mem_place {c : Children N} {x y : N} {b : ListHead N} :
    y ∈ place c x a b ↔ (y ∈ c b ∧ y ≠ x) ∨ (y = x ∧ b = a) := by
  by_cases hb : b = a <;> simp [place, hb]

theorem IsForest.place {head : N} {c : Children N} (hc : IsForest head c) {x : N}
    (hx : x ≠ head) (ha : ∀ y, y ≠ head → a ≠ .node y) : IsForest head (place c x a) where
  nodup b := by
    rw [Opkg.place, List.nodup_append]
    refine ⟨(hc.nodup b).filter _, ?_, ?_⟩
    · split <;> simp
    · intro y hy z hz
      have hyx : y ≠ x := by simpa using (List.mem_filter.mp hy).2
      by_cases hb : b = a
      · have hzx : z = x := by simpa [hb] using hz
        exact hzx ▸ hyx
      · simp [hb] at hz
  unique y b b' hy hy' := by
    rcases mem_place.mp hy with ⟨hmem, hyx⟩ | ⟨rfl, rfl⟩
    · rcases mem_place.mp hy' with ⟨hmem', -⟩ | ⟨heq, -⟩
      · exact hc.unique y b b' hmem hmem'
      · exact absurd heq hyx
    · rcases mem_place.mp hy' with ⟨-, hne⟩ | ⟨-, rfl⟩
      · exact absurd rfl hne
      · rfl
  head_free b hmem := by
    rcases mem_place.mp hmem with ⟨hin, -⟩ | ⟨heq, -⟩
    · exact hc.head_free b hin
    · exact hx heq.symm
  bare y hy := by
    rw [Opkg.place, hc.bare y hy, if_neg (ha y hy).symm]
    rfl
  finite := by
    apply (hc.finite.insert x).subset
    rintro y ⟨b, hy⟩
    rcases mem_place.mp hy with ⟨hmem, -⟩ | ⟨rfl, -⟩
    · exact Set.mem_insert_of_mem x ⟨b, hmem⟩
    · exact Set.mem_insert y _

theorem ringContent_place (c : Children N) (x : N) (a : ListHead N) :
    ringContent (place c x a) =
      Links.appended (Links.removed (ringContent c) (.node x)) (.node x) a := by
  funext b
  have hfilter : ((c b).filter (· ≠ x)).map ListHead.node =
      ((c b).map ListHead.node).filter (· ≠ .node x) := by
    rw [List.filter_map]
    congr 2
    funext y
    simp
  by_cases hb : b = a
  · subst hb
    simp only [ringContent, place, Links.appended, Links.removed, Function.update_self, if_true,
      List.map_append, hfilter, List.map_cons, List.map_nil]
  · simp only [ringContent, place, Links.appended, Links.removed, Function.update_of_ne hb,
      if_neg hb, List.append_nil, hfilter]

theorem HoldsForest.run {head : N} {h : ActiveHeap N} {c : Children N} (hh : HoldsForest head h c)
    (call : Call head) : HoldsForest head (call.run h) (place c call.moved call.target) where
  forest := hh.forest.place call.moved_ne fun _ hy => call.target_ne hy
  rings := by
    have hlinks : (call.run h).links =
        (h.links.unlink (.node call.moved)).linkBefore (.node call.moved) call.target := by
      cases call <;> rfl
    have hbare : ringContent c (.node call.moved) = [] := by
      rw [ringContent, hh.forest.bare _ call.moved_ne, List.map_nil]
    have htarget : ∀ b, call.target ∉ ringContent c b := by
      intro b
      cases call with
      | add node hnode => simpa [Call.target] using hh.forest.head_free b
      | addDepend node depend hdepend => simp [Call.target]
    rw [ringContent_place, hlinks]
    exact hh.rings.move hbare htarget (call.target_ne call.moved_ne).symm
  depended y b hy := by
    have hdep : (call.run h).depended =
        Function.update h.depended call.moved (some call.target.owner) := by
      cases call <;> rfl
    rw [hdep]
    rcases mem_place.mp hy with ⟨hmem, hne⟩ | ⟨rfl, rfl⟩
    · rw [Function.update_of_ne hne]
      exact hh.depended y b hmem
    · rw [Function.update_self]

/-- **What the calls build.** The heap holds the forest whose lists the calls fill. -/
theorem holdsForest_built {head : N} (calls : List (Call head)) :
    HoldsForest head (built calls) (shape calls) := by
  have hrun : ∀ (calls : List (Call head)) (h : ActiveHeap N) (c : Children N),
      HoldsForest head h c → HoldsForest head (calls.foldl Call.run h)
        (calls.foldl (fun c call => place c call.moved call.target) c) := by
    intro calls
    induction calls with
    | nil =>
      intro h c hh
      exact hh
    | cons call calls ih =>
      intro h c hh
      exact ih _ _ (hh.run call)
  apply hrun
  exact ⟨isForest_empty head, Links.rings_selfLinked, fun _ _ hmem => absurd hmem List.not_mem_nil⟩

end Shape

inductive Postorder (c : Children N) : List N → List N → Prop where
  | nil : Postorder c [] []
  | cons {x : N} {below xs rest : List N} (hbelow : Postorder c (c (.depend x)) below)
      (hrest : Postorder c xs rest) : Postorder c (x :: xs) (below ++ x :: rest)

section Forest

variable {c : Children N} {head : N}

theorem IsForest.dependOf_irrefl (hc : IsForest head c) {x : N} (hx : Hangs c head x) :
    ¬Relation.TransGen (DependOf c) x x := by
  induction hx with
  | top hmem =>
    intro hcycle
    obtain ⟨p, hxp, -⟩ := Relation.TransGen.head'_iff.mp hcycle
    cases hc.unique _ _ _ hmem hxp
  | dep hp hmem ih =>
    intro hcycle
    obtain ⟨p', hxp, hrest⟩ := Relation.TransGen.head'_iff.mp hcycle
    cases hc.unique _ _ _ hmem hxp
    exact ih (Relation.TransGen.tail' hrest hmem)

theorem Postorder.exists_of_forall {xs : List N}
    (hall : ∀ x ∈ xs, ∃ below, Postorder c (c (.depend x)) below) : ∃ out, Postorder c xs out := by
  induction xs with
  | nil => exact ⟨[], .nil⟩
  | cons x xs ih =>
    obtain ⟨below, hbelow⟩ := hall x List.mem_cons_self
    obtain ⟨rest, hrest⟩ := ih fun y hy => hall y (List.mem_cons_of_mem x hy)
    exact ⟨below ++ x :: rest, .cons hbelow hrest⟩

theorem IsForest.exists_postorder (hc : IsForest head c) :
    ∃ out, Postorder c (c (.node head)) out := by
  let Below : N → N → Prop := fun y x => Hangs c head x ∧ Relation.TransGen (DependOf c) y x
  have : IsStrictOrder N Below := {
    irrefl := fun x hx => hc.dependOf_irrefl hx.1 hx.2
    trans := fun x y z hxy hyz => ⟨hyz.1, hxy.2.trans hyz.2⟩ }
  have hwf : {x | ∃ a, x ∈ c a}.WellFoundedOn Below := hc.finite.wellFoundedOn
  have hbelow : ∀ x, Hangs c head x → ∃ below, Postorder c (c (.depend x)) below := by
    intro x hx
    have hplaced : x ∈ {x | ∃ a, x ∈ c a} := by
      cases hx with
      | top hmem => exact ⟨_, hmem⟩
      | dep hp hmem => exact ⟨_, hmem⟩
    refine hwf.induction (P := fun x => Hangs c head x →
      ∃ below, Postorder c (c (.depend x)) below) hplaced ?_ hx
    intro x _ ih hx
    apply Postorder.exists_of_forall
    intro y hy
    exact ih y ⟨_, hy⟩ ⟨hx, .single hy⟩ (hx.dep hy)
  exact Postorder.exists_of_forall fun x hx => hbelow x (.top hx)

theorem Postorder.mem_iff {xs out : List N} (hpost : Postorder c xs out) (y : N) :
    y ∈ out ↔ ∃ x ∈ xs, Relation.ReflTransGen (DependOf c) y x := by
  induction hpost with
  | nil => simp
  | @cons x below xs rest hbelow hrest ihbelow ihrest =>
    have hstep : Relation.ReflTransGen (DependOf c) y x ↔ y ∈ below ∨ y = x := by
      rw [ihbelow, Relation.ReflTransGen.cases_tail_iff]
      constructor
      · rintro (heq | ⟨z, hyz, hzx⟩)
        · exact Or.inr heq.symm
        · exact Or.inl ⟨z, hzx, hyz⟩
      · rintro (⟨z, hzx, hyz⟩ | heq)
        · exact Or.inr ⟨z, hyz, hzx⟩
        · exact Or.inl heq.symm
    simp only [List.mem_append, List.mem_cons, exists_eq_or_imp, hstep, ihrest, or_assoc]

theorem hangs_iff (y : N) :
    Hangs c head y ↔ ∃ x ∈ c (.node head), Relation.ReflTransGen (DependOf c) y x := by
  constructor
  · intro hy
    induction hy with
    | top hmem => exact ⟨_, hmem, .refl⟩
    | dep hp hmem ih =>
      obtain ⟨x, hx, hpx⟩ := ih
      exact ⟨x, hx, .head hmem hpx⟩
  · rintro ⟨x, hx, hyx⟩
    induction hyx using Relation.ReflTransGen.head_induction_on with
    | refl => exact .top hx
    | head hstep _ ih => exact ih.dep hstep

theorem Postorder.mem_iff_hangs {out : List N} (hpost : Postorder c (c (.node head)) out) (y : N) :
    y ∈ out ↔ Hangs c head y := by
  rw [hpost.mem_iff, hangs_iff]

theorem Postorder.siblings {xs out : List N} (hpost : Postorder c xs out) : xs.Sublist out := by
  induction hpost with
  | nil => exact List.Sublist.refl []
  | cons hbelow hrest _ ih => exact (ih.cons_cons _).trans (List.sublist_append_right _ _)

theorem Postorder.depends_sublist {xs out : List N} (hpost : Postorder c xs out) {x : N}
    (hx : x ∈ out) : (c (.depend x)).Sublist out := by
  induction hpost with
  | nil => cases hx
  | @cons y below xs rest hbelow hrest ihbelow ihrest =>
    rcases List.mem_append.mp hx with hmem | hmem
    · exact (ihbelow hmem).trans (List.sublist_append_left _ _)
    rcases List.mem_cons.mp hmem with rfl | hmem
    · exact hbelow.siblings.trans (List.sublist_append_left _ _)
    · exact ((ihrest hmem).cons y).trans (List.sublist_append_right _ _)

theorem Postorder.below_before {xs out : List N} (hpost : Postorder c xs out) {x y : N}
    (hx : x ∈ out) (hbelow : Relation.TransGen (DependOf c) y x) : [y, x].Sublist out := by
  induction hpost with
  | nil => cases hx
  | @cons z below xs rest hz hrest ihbelow ihrest =>
    rcases List.mem_append.mp hx with hmem | hmem
    · exact (ihbelow hmem).trans (List.sublist_append_left _ _)
    rcases List.mem_cons.mp hmem with rfl | hmem
    · have hy : y ∈ below := by
        rw [hz.mem_iff]
        obtain ⟨p, hyp, hpx⟩ := Relation.TransGen.tail'_iff.mp hbelow
        exact ⟨p, hpx, hyp⟩
      exact (List.singleton_sublist.mpr hy).append
        (List.singleton_sublist.mpr List.mem_cons_self)
    · exact ((ihrest hmem).cons z).trans (List.sublist_append_right _ _)

end Forest

end Openmoko.Opkg
