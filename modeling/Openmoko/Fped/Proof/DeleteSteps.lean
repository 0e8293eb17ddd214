import Mathlib.Logic.Relation
import Openmoko.Fped.Delete
import Openmoko.Library.Loop

/-!
# The steps of a deletion

A cascade takes one item after the other out of its list and sometimes looks for another active
reference. Lists only lose elements on the way, and the items themselves do not change.
-/

namespace Openmoko.Fped.Model

open Relation

variable {l : List Addr} {m m' : Model} {n : ℕ} {v f : Addr}

theorem deleteWhere_preserves {p : Model → Addr → Bool} (Inv : Model → Prop)
    (hobj : ∀ m o m', Inv m → m.doDeleteObj o = some m' → Inv m')
    (hm : Inv m)
    (h : l.foldlM (fun m o => if p m o then m.doDeleteObj o else some m) m = some m') :
    Inv m' := by
  refine foldlM_preserves Inv ?_ hm h
  intro m o m' hm hstep
  by_cases hp : p m o = true
  · rw [if_pos hp] at hstep
    exact hobj m o m' hm hstep
  · rw [if_neg hp] at hstep
    cases hstep
    exact hm

theorem exists_of_doDeleteVec (h : doDeleteVec (n + 1) m v = some m') :
    ∃ m1 m2 m3, m.unlinkVec v = some m1 ∧
      (m1.vecs (m.vec v).frame).foldlM
        (fun m w => if (m.vec w).base = some v then doDeleteVec n m w else some m) m1 = some m2 ∧
      m2.deleteObjsByRef (m.vec v).frame v = some m3 ∧
      (m3.frames = [] ∧ m' = m3 ∨
        ∃ root, m3.frames.head? = some root ∧ m3.deleteObjsByRef root v = some m') := by
  rw [doDeleteVec] at h
  obtain ⟨m1, h1, h⟩ := Option.bind_eq_some_iff.mp h
  obtain ⟨m2, h2, h⟩ := Option.bind_eq_some_iff.mp h
  obtain ⟨m3, h3, h⟩ := Option.bind_eq_some_iff.mp h
  refine ⟨m1, m2, m3, h1, h2, h3, ?_⟩
  cases hframes : m3.frames with
  | nil =>
    rw [hframes] at h
    cases h
    exact .inl ⟨rfl, rfl⟩
  | cons root frames =>
    rw [hframes] at h
    exact .inr ⟨root, rfl, h⟩

theorem doDeleteVec_preserves (Inv : Model → Prop)
    (hvec : ∀ m v m', Inv m → m.unlinkVec v = some m' → Inv m')
    (hobj : ∀ m o m', Inv m → m.doDeleteObj o = some m' → Inv m') (hm : Inv m)
    (h : doDeleteVec n m v = some m') : Inv m' := by
  induction n generalizing m m' v with
  | zero => cases h
  | succ n ih =>
    obtain ⟨m1, m2, m3, h1, h2, h3, hroot⟩ := exists_of_doDeleteVec h
    have hm2 : Inv m2 := by
      refine foldlM_preserves Inv ?_ (hvec m v m1 hm h1) h2
      intro m w m' hm hstep
      by_cases hbase : (m.vec w).base = some v
      · rw [if_pos hbase] at hstep
        exact ih hm hstep
      · rw [if_neg hbase] at hstep
        cases hstep
        exact hm
    have hm3 : Inv m3 :=
      deleteWhere_preserves (p := fun m o => m.objHasRef o v) Inv hobj hm2 h3
    obtain ⟨-, rfl⟩ | ⟨root, -, hroot⟩ := hroot
    · exact hm3
    · exact deleteWhere_preserves (p := fun m o => m.objHasRef o v) Inv hobj hm3 hroot

theorem exists_of_deleteReferences (h : m.deleteReferences f = some m') : ∃ m1, m.frames.foldlM
      (fun m g => (m.objs g).foldlM
        (fun m o => if m.needs f o then m.doDeleteObj o else some m) m) m = some m1 ∧
      m' = (m1.objs f).foldl resetRefsOf m1 := by
  obtain ⟨m1, h1, hreset⟩ := Option.bind_eq_some_iff.mp h
  cases hreset
  exact ⟨m1, h1, rfl⟩

theorem deleteNeeding_preserves (Inv : Model → Prop)
    (hobj : ∀ m o m', Inv m → m.doDeleteObj o = some m' → Inv m') (hm : Inv m)
    (h : l.foldlM (fun m g => (m.objs g).foldlM
      (fun m o => if m.needs f o then m.doDeleteObj o else some m) m) m = some m') : Inv m' :=
  foldlM_preserves Inv (fun _ _ _ hm hstep =>
    deleteWhere_preserves (p := fun m o => m.needs f o) Inv hobj hm hstep) hm h

inductive DeleteStep : Model → Model → Prop
  | vec {m m' : Model} (v : Addr) (h : m.unlinkVec v = some m') : DeleteStep m m'
  | obj {m m' : Model} (o : Addr) (h : m.unlinkObj o = some m') : DeleteStep m m'
  | frame {m m' : Model} (f : Addr) (h : m.unlinkFrame f = some m') : DeleteStep m m'
  | row {m m' : Model} (r : Addr) (h : m.unlinkRow r = some m') : DeleteStep m m'
  | column {m m' : Model} (t : Addr) (n : ℕ) (h : m.unlinkColumn t n = some m') : DeleteStep m m'
  | table {m m' : Model} (t : Addr) (h : m.unlinkTable t = some m') : DeleteStep m m'
  | loop {m m' : Model} (l : Addr) (h : m.unlinkLoop l = some m') : DeleteStep m m'
  | reset (m : Model) (o : Addr) : DeleteStep m (m.resetRefsOf o)

def DeleteSteps : Model → Model → Prop := ReflTransGen DeleteStep

theorem DeleteSteps.trans {m'' : Model} (h : DeleteSteps m m') (h' : DeleteSteps m' m'') :
    DeleteSteps m m'' := ReflTransGen.trans h h'

theorem deleteSteps_doDeleteObj {o : Addr} (h : m.doDeleteObj o = some m') : DeleteSteps m m' := by
  obtain ⟨m1, hunlink, hreset⟩ := Option.bind_eq_some_iff.mp h
  cases hreset
  exact (ReflTransGen.single (.obj o hunlink)).tail (.reset m1 o)

theorem deleteSteps_deleteWhere {p : Model → Addr → Bool}
    (h : l.foldlM (fun m o => if p m o then m.doDeleteObj o else some m) m = some m') :
    DeleteSteps m m' :=
  deleteWhere_preserves (DeleteSteps m) (fun _ _ _ hm h => hm.trans (deleteSteps_doDeleteObj h))
    ReflTransGen.refl h

theorem deleteSteps_deleteObjsByRef {ref : Addr}
    (h : m.deleteObjsByRef f ref = some m') : DeleteSteps m m' :=
  deleteSteps_deleteWhere (p := fun m o => m.objHasRef o ref) h

theorem deleteSteps_doDeleteVec (h : doDeleteVec n m v = some m') : DeleteSteps m m' :=
  doDeleteVec_preserves (DeleteSteps m) (fun _ v _ hm h => hm.tail (.vec v h))
    (fun _ _ _ hm h => hm.trans (deleteSteps_doDeleteObj h)) ReflTransGen.refl h

theorem deleteSteps_resetRefs (l : List Addr) (m : Model) :
    DeleteSteps m (l.foldl resetRefsOf m) := by
  induction l generalizing m with
  | nil => exact ReflTransGen.refl
  | cons o l ih => exact ReflTransGen.head (.reset m o) (ih _)

theorem deleteSteps_deleteReferences (h : m.deleteReferences f = some m') : DeleteSteps m m' := by
  obtain ⟨m1, h1, rfl⟩ := exists_of_deleteReferences h
  exact (deleteNeeding_preserves (DeleteSteps m)
    (fun _ _ _ hm h => hm.trans (deleteSteps_doDeleteObj h)) ReflTransGen.refl h1).trans
    (deleteSteps_resetRefs _ m1)

theorem deleteSteps_delete {op : DeleteOp} (h : m.delete op = some m') :
    DeleteSteps m.newGroup m' := by
  cases op with
  | vec v => exact deleteSteps_doDeleteVec h
  | obj o => exact deleteSteps_doDeleteObj h
  | frame f =>
    obtain ⟨m1, h1, h2⟩ := Option.bind_eq_some_iff.mp h
    exact (ReflTransGen.single (.frame f h1)).trans (deleteSteps_deleteReferences h2)
  | table t => exact ReflTransGen.single (.table t h)
  | row r => exact ReflTransGen.single (.row r h)
  | column t n => exact ReflTransGen.single (.column t n h)
  | loop l => exact ReflTransGen.single (.loop l h)

structure Shrinks (m m' : Model) : Prop where
  frames : m'.frames.Sublist m.frames
  vecs : ∀ f, (m'.vecs f).Sublist (m.vecs f)
  objs : ∀ f, (m'.objs f).Sublist (m.objs f)
  tables : ∀ f, (m'.tables f).Sublist (m.tables f)
  loops : ∀ f, (m'.loops f).Sublist (m.loops f)
  rows : ∀ t, (m'.rows t).Sublist (m.rows t)
  vec : m'.vec = m.vec
  obj : m'.obj = m.obj
  row : m'.row = m.row
  loop : m'.loop = m.loop

theorem Shrinks.refl (m : Model) : m.Shrinks m where
  frames := List.Sublist.refl _
  vecs _ := List.Sublist.refl _
  objs _ := List.Sublist.refl _
  tables _ := List.Sublist.refl _
  loops _ := List.Sublist.refl _
  rows _ := List.Sublist.refl _
  vec := rfl
  obj := rfl
  row := rfl
  loop := rfl

theorem Shrinks.trans {m'' : Model} (h : m.Shrinks m') (h' : m'.Shrinks m'') : m.Shrinks m'' where
  frames := h'.frames.trans h.frames
  vecs f := (h'.vecs f).trans (h.vecs f)
  objs f := (h'.objs f).trans (h.objs f)
  tables f := (h'.tables f).trans (h.tables f)
  loops f := (h'.loops f).trans (h.loops f)
  rows t := (h'.rows t).trans (h.rows t)
  vec := h'.vec.trans h.vec
  obj := h'.obj.trans h.obj
  row := h'.row.trans h.row
  loop := h'.loop.trans h.loop

theorem sublist_update {lists : Addr → List Addr} {i : Addr}
    (h : l.Sublist (lists i)) (j : Addr) : (Function.update lists i l j).Sublist (lists j) := by
  by_cases hj : j = i
  · subst hj
    rwa [Function.update_self]
  · rw [Function.update_of_ne hj]

theorem unlinkVec_eq (h : m.unlinkVec v = some m') :
    ∃ u, unlink v (m.vecs (m.vec v).frame) = some u ∧
      m' = { m with vecs := Function.update m.vecs (m.vec v).frame u.rest }.newDeletion
        (.vec v u.prev u.next) := by
  obtain ⟨u, hu, hm⟩ := Option.bind_eq_some_iff.mp h
  cases hm
  exact ⟨u, hu, rfl⟩

theorem unlinkObj_eq {o : Addr} (h : m.unlinkObj o = some m') :
    ∃ u, unlink o (m.objs (m.obj o).frame) = some u ∧
      m' = { m with objs := Function.update m.objs (m.obj o).frame u.rest }.newDeletion
        (.obj o u.prev u.next) := by
  obtain ⟨u, hu, hm⟩ := Option.bind_eq_some_iff.mp h
  cases hm
  exact ⟨u, hu, rfl⟩

theorem unlinkFrame_eq (h : m.unlinkFrame f = some m') : ∃ u, unlink f m.frames = some u ∧
      m' = { m with frames := u.rest }.newDeletion (.frame f u.prev u.next) := by
  obtain ⟨u, hu, hm⟩ := Option.bind_eq_some_iff.mp h
  cases hm
  exact ⟨u, hu, rfl⟩

theorem unlinkRow_eq {r : Addr} (h : m.unlinkRow r = some m') :
    ∃ u, unlink r (m.rows (m.row r)) = some u ∧
      m' = { m with rows := Function.update m.rows (m.row r) u.rest }.newDeletion
        (.row r u.prev u.next) := by
  obtain ⟨u, hu, hm⟩ := Option.bind_eq_some_iff.mp h
  cases hm
  exact ⟨u, hu, rfl⟩

theorem unlinkTable_eq {t : Addr} (h : m.unlinkTable t = some m') :
    ∃ f u, m.frameOfTable t = some f ∧ unlink t (m.tables f) = some u ∧
      m' = { m with tables := Function.update m.tables f u.rest }.newDeletion
        (.table t u.prev u.next) := by
  obtain ⟨f, hf, h⟩ := Option.bind_eq_some_iff.mp h
  obtain ⟨u, hu, hm⟩ := Option.bind_eq_some_iff.mp h
  cases hm
  exact ⟨f, u, hf, hu, rfl⟩

theorem unlinkLoop_eq {l : Addr} (h : m.unlinkLoop l = some m') :
    ∃ u, unlink l (m.loops (m.loop l).frame) = some u ∧
      m' = { m with loops := Function.update m.loops (m.loop l).frame u.rest }.newDeletion
        (.loop l u.prev u.next) := by
  obtain ⟨u, hu, hm⟩ := Option.bind_eq_some_iff.mp h
  cases hm
  exact ⟨u, hu, rfl⟩

theorem unlinkColumn_eq {t : Addr} (h : m.unlinkColumn t n = some m') :
    ∃ var column values, (m.vars t)[n]? = some var ∧
      takeColumn n (m.rows t) m.values = some (column, values) ∧
      m' = { m with
        vars := Function.update m.vars t ((m.vars t).eraseIdx n)
        values := values }.newDeletion (.column t n var column) := by
  obtain ⟨var, hvar, h⟩ := Option.bind_eq_some_iff.mp h
  obtain ⟨⟨column, values⟩, hcolumn, hm⟩ := Option.bind_eq_some_iff.mp h
  cases hm
  exact ⟨var, column, values, hvar, hcolumn, rfl⟩

theorem resetRefsOf_eq (m : Model) (o : Addr) :
    m.resetRefsOf o = { m with activeRef := (m.resetRefsOf o).activeRef } := by
  rw [resetRefsOf]
  split
  · split <;> rfl
  · rfl

theorem DeleteStep.shrinks (h : DeleteStep m m') : m.Shrinks m' := by
  cases h with
  | vec v h =>
    obtain ⟨u, hu, rfl⟩ := unlinkVec_eq h
    exact { Shrinks.refl m with vecs := sublist_update (sublist_of_unlink hu) }
  | obj o h =>
    obtain ⟨u, hu, rfl⟩ := unlinkObj_eq h
    exact { Shrinks.refl m with objs := sublist_update (sublist_of_unlink hu) }
  | frame f h =>
    obtain ⟨u, hu, rfl⟩ := unlinkFrame_eq h
    exact { Shrinks.refl m with frames := sublist_of_unlink hu }
  | row r h =>
    obtain ⟨u, hu, rfl⟩ := unlinkRow_eq h
    exact { Shrinks.refl m with rows := sublist_update (sublist_of_unlink hu) }
  | column t n h =>
    obtain ⟨var, column, values, -, -, rfl⟩ := unlinkColumn_eq h
    exact { Shrinks.refl m with }
  | table t h =>
    obtain ⟨f, u, -, hu, rfl⟩ := unlinkTable_eq h
    exact { Shrinks.refl m with tables := sublist_update (sublist_of_unlink hu) }
  | loop l h =>
    obtain ⟨u, hu, rfl⟩ := unlinkLoop_eq h
    exact { Shrinks.refl m with loops := sublist_update (sublist_of_unlink hu) }
  | reset o =>
    rw [resetRefsOf_eq]
    exact { Shrinks.refl m with }

theorem DeleteSteps.shrinks (h : DeleteSteps m m') : m.Shrinks m' := by
  induction h with
  | refl => exact Shrinks.refl m
  | tail _ hstep ih => exact ih.trans hstep.shrinks

theorem shrinks_newGroup (m : Model) : m.Shrinks m.newGroup := { Shrinks.refl m with }

theorem newGroup_shrinks (m : Model) : m.newGroup.Shrinks m := { Shrinks.refl m with }

theorem shrinks_delete {op : DeleteOp} (h : m.delete op = some m') : m.Shrinks m' :=
  m.shrinks_newGroup.trans (deleteSteps_delete h).shrinks

structure Distinct (m : Model) : Prop where
  frames : m.frames.Nodup
  vecs : ∀ f, (m.vecs f).Nodup
  objs : ∀ f, (m.objs f).Nodup
  tables : ∀ f, (m.tables f).Nodup
  loops : ∀ f, (m.loops f).Nodup
  rows : ∀ t, (m.rows t).Nodup

theorem Distinct.shrinks (hm : m.Distinct) (h : m.Shrinks m') : m'.Distinct where
  frames := hm.frames.sublist h.frames
  vecs f := (hm.vecs f).sublist (h.vecs f)
  objs f := (hm.objs f).sublist (h.objs f)
  tables f := (hm.tables f).sublist (h.tables f)
  loops f := (hm.loops f).sublist (h.loops f)
  rows t := (hm.rows t).sublist (h.rows t)

end Openmoko.Fped.Model
