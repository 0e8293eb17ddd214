import Openmoko.Fped.Editor
import Openmoko.Fped.Proof.References
import Openmoko.Library.Machine

/-!
# What every edit keeps

An item is on one list at most, and a deleted one is on none. Every edit keeps this, as it keeps that
items and their bases are in the same frame.
-/

namespace Openmoko.Fped.Model

open scoped List

def deadFrame (d : Deletion) : Option Addr :=
  match d.item with
  | .frame f _ _ => some f
  | _ => none

def deadVec (d : Deletion) : Option Addr :=
  match d.item with
  | .vec v _ _ => some v
  | _ => none

def deadObj (d : Deletion) : Option Addr :=
  match d.item with
  | .obj o _ _ => some o
  | _ => none

def deadFrames (ds : List Deletion) : List Addr := ds.filterMap deadFrame

def deadVecs (ds : List Deletion) : List Addr := ds.filterMap deadVec

def deadObjs (ds : List Deletion) : List Addr := ds.filterMap deadObj

def Within (n : Addr) (l : List Addr) : Prop := l.Nodup ∧ ∀ x ∈ l, x < n

variable {l : List Addr} {lists : Addr → List Addr} {ds : List Deletion}

theorem Within.perm {n : Addr} {l' : List Addr} (h : Within n l) (hl : l.Perm l') : Within n l' :=
  ⟨hl.nodup h.1, fun x hx => h.2 x (hl.mem_iff.mpr hx)⟩

theorem Within.sublist {n : Addr} {l' : List Addr} (h : Within n l) (hl : l'.Sublist l) :
    Within n l' :=
  ⟨h.1.sublist hl, fun x hx => h.2 x (hl.subset hx)⟩

theorem Within.succ {n : Addr} (h : Within n l) : Within (n + 1) l :=
  ⟨h.1, fun x hx => (h.2 x hx).trans (Nat.lt_succ_self n)⟩

theorem Within.cons {n x : Addr} (h : Within n l) (hx : x ∉ l) (hn : x < n) :
    Within n (x :: l) := by
  refine ⟨List.nodup_cons.mpr ⟨hx, h.1⟩, fun y hy => ?_⟩
  obtain rfl | hy := List.mem_cons.mp hy
  · exact hn
  · exact h.2 y hy

theorem Within.append_left {n : Addr} {d : List Addr} (h : Within n (l ++ d)) : Within n l :=
  h.sublist (List.sublist_append_left l d)

theorem Within.append_right {n : Addr} {d : List Addr} (h : Within n (l ++ d)) : Within n d :=
  h.sublist (List.sublist_append_right l d)

theorem Within.add {n : Addr} {l' d : List Addr} (h : Within n (l ++ d))
    (hl : l'.Sublist (l ++ [n])) : Within (n + 1) (l' ++ d) := by
  have hnew : Within (n + 1) (n :: (l ++ d)) :=
    h.succ.cons (fun hmem => Nat.lt_irrefl n (h.2 n hmem)) (Nat.lt_succ_self n)
  apply (hnew.perm _).sublist (hl.append_right d)
  rw [List.append_assoc]
  exact List.perm_middle.symm

theorem Within.unlink {n x : Addr} {d : List Addr} {u : Unlinked Addr} (h : Within n (l ++ d))
    (hu : unlink x l = some u) : Within n (u.rest ++ x :: d) := by
  obtain ⟨before, after, rfl, -, hrest, -⟩ := exists_append_of_unlink hu
  rw [hrest]
  apply h.perm
  calc before ++ x :: after ++ d = before ++ x :: (after ++ d) := by
        rw [List.append_assoc, List.cons_append]
    _ ~ x :: (before ++ (after ++ d)) := List.perm_middle
    _ ~ before ++ after ++ x :: d := by
        rw [← List.append_assoc]
        exact List.perm_middle.symm

theorem Within.relink {n x : Addr} {prev next : Option Addr} {l' d : List Addr}
    (h : Within n (l ++ x :: d)) (hl : relink x prev next l = some l') : Within n (l' ++ d) := by
  obtain ⟨before, after, rfl, rfl, -⟩ := exists_append_of_relink hl
  apply h.perm
  calc before ++ after ++ x :: d ~ x :: (before ++ after ++ d) := List.perm_middle
    _ ~ before ++ x :: after ++ d := by
        rw [List.append_assoc, List.append_assoc, List.cons_append]
        exact List.perm_middle.symm

theorem within_update_unlink {n x home : Addr} {d : List Addr}
    {u : Unlinked Addr} (h : ∀ f, Within n (lists f ++ d)) (hhome : ∀ f, x ∈ lists f → home = f)
    (hu : unlink x (lists home) = some u) (f : Addr) :
    Within n (Function.update lists home u.rest f ++ x :: d) := by
  have hmoved := (h home).unlink hu
  by_cases hf : f = home
  · rwa [hf, Function.update_self]
  · rw [Function.update_of_ne hf]
    have hx := hmoved.append_right
    apply ((h f).cons _ (hx.2 x List.mem_cons_self)).perm List.perm_middle.symm
    intro hmem
    obtain hmem | hmem := List.mem_append.mp hmem
    · exact hf (hhome f hmem).symm
    · exact (List.nodup_cons.mp hx.1).1 hmem

theorem within_update_relink {n x home : Addr} {prev next : Option Addr}
    {d : List Addr} (h : ∀ f, Within n (lists f ++ x :: d))
    (hl : relink x prev next (lists home) = some l) (f : Addr) :
    Within n (Function.update lists home l f ++ d) := by
  by_cases hf : f = home
  · rw [hf, Function.update_self]
    exact (h home).relink hl
  · rw [Function.update_of_ne hf]
    exact (h f).sublist ((List.sublist_cons_self x d).append_left _)

theorem mem_update_relink {x y home f : Addr} {prev next : Option Addr}
    (hl : relink x prev next (lists home) = some l)
    (hy : y ∈ Function.update lists home l f) : y = x ∧ f = home ∨ y ∈ lists f := by
  by_cases hf : f = home
  · subst hf
    rw [Function.update_self] at hy
    obtain ⟨before, after, hlists, rfl, -⟩ := exists_append_of_relink hl
    rw [List.perm_middle.mem_iff, ← hlists] at hy
    exact (List.mem_cons.mp hy).imp_left fun h => ⟨h, rfl⟩
  · rw [Function.update_of_ne hf] at hy
    exact .inr hy

theorem mem_update_add {x y home f : Addr}
    (hl : l.Sublist (lists home ++ [x])) (hy : y ∈ Function.update lists home l f) :
    y ∈ lists f ∨ f = home ∧ y = x := by
  by_cases hf : f = home
  · rw [hf, Function.update_self] at hy
    rw [hf]
    exact (List.mem_append.mp (hl.subset hy)).imp_right fun h => ⟨rfl, List.mem_singleton.mp h⟩
  · rw [Function.update_of_ne hf] at hy
    exact .inl hy

theorem within_update_add {n home : Addr} {d : List Addr}
    (h : ∀ f, Within n (lists f ++ d)) (hl : l.Sublist (lists home ++ [n])) (f : Addr) :
    Within (n + 1) (Function.update lists home l f ++ d) := by
  by_cases hf : f = home
  · rw [hf, Function.update_self]
    exact (h home).add hl
  · rw [Function.update_of_ne hf]
    exact (h f).succ

structure Accounted (m : Model) (ds : List Deletion) (n : Addr) : Prop where
  frames : Within n (m.frames ++ deadFrames ds)
  vecs : ∀ f, Within n (m.vecs f ++ deadVecs ds)
  objs : ∀ f, Within n (m.objs f ++ deadObjs ds)

def Deleted.Drawn : Deleted → Prop
  | .vec _ _ _ => True
  | .obj _ _ _ => True
  | .frame _ _ _ => True
  | _ => False

structure Plain (m : Model) : Prop where
  tables : ∀ f, m.tables f = []
  loops : ∀ f, m.loops f = []
  vars : ∀ t, m.vars t = []
  rows : ∀ t, m.rows t = []

structure Below (m : Model) (n : Addr) : Prop where
  vec : ∀ w b, (m.vec w).base = some b → b < n
  obj : ∀ o b, (m.obj o).base = some b → b < n
  ref : ∀ o g, m.RefersTo o g → g < n

structure SoundWith (m : Model) (ds : List Deletion) (n : Addr) : Prop where
  accounted : m.Accounted ds n
  drawn : ∀ d ∈ ds, Deleted.Drawn d.item
  placed : m.Placed
  sameFrame : m.SameFrame
  plain : m.Plain
  below : m.Below n

def Sound (m : Model) (n : Addr) : Prop := m.SoundWith m.deletions n

variable {m m' : Model} {n : Addr}

theorem SoundWith.distinct (hm : m.SoundWith ds n) : m.Distinct where
  frames := hm.accounted.frames.append_left.1
  vecs f := (hm.accounted.vecs f).append_left.1
  objs f := (hm.accounted.objs f).append_left.1
  tables f := by
    rw [hm.plain.tables]
    exact List.nodup_nil
  loops f := by
    rw [hm.plain.loops]
    exact List.nodup_nil
  rows t := by
    rw [hm.plain.rows]
    exact List.nodup_nil

theorem SoundWith.update (hm : m.SoundWith ds n)
    (activeRef : Addr → Option Addr) (deletions : List Deletion) (groups : ℕ) :
    SoundWith { m with activeRef := activeRef, deletions := deletions, groups := groups } ds n :=
  ⟨⟨hm.accounted.frames, hm.accounted.vecs, hm.accounted.objs⟩, hm.drawn,
    ⟨hm.placed.vec, hm.placed.obj⟩, ⟨hm.sameFrame.vec, hm.sameFrame.ref⟩,
    ⟨hm.plain.tables, hm.plain.loops, hm.plain.vars, hm.plain.rows⟩,
    ⟨hm.below.vec, hm.below.obj, hm.below.ref⟩⟩

theorem Plain.shrinks (hm : m.Plain) (h : m.Shrinks m') (hvars : m'.vars = m.vars) : m'.Plain where
  tables f := List.sublist_nil.mp (hm.tables f ▸ h.tables f)
  loops f := List.sublist_nil.mp (hm.loops f ▸ h.loops f)
  vars t := by rw [hvars, hm.vars]
  rows t := List.sublist_nil.mp (hm.rows t ▸ h.rows t)

theorem Below.shrinks (hm : m.Below n) (h : m.Shrinks m') : m'.Below n where
  vec := by
    rw [h.vec]
    exact hm.vec
  obj := by
    rw [h.obj]
    exact hm.obj
  ref := by
    rw [refersTo_shrinks h]
    exact hm.ref

theorem drawn_cons {d : Deletion} (hd : Deleted.Drawn d.item)
    (hds : ∀ d ∈ ds, Deleted.Drawn d.item) : ∀ e ∈ d :: ds, Deleted.Drawn e.item := by
  intro e he
  obtain rfl | he := List.mem_cons.mp he
  · exact hd
  · exact hds e he

theorem accounted_of_step (hm : m.Sound n) (h : DeleteStep m m') :
    m'.Accounted m'.deletions n ∧ m'.vars = m.vars ∧ ∀ d ∈ m'.deletions, Deleted.Drawn d.item := by
  cases h with
  | vec v h =>
    obtain ⟨u, hu, rfl⟩ := unlinkVec_eq h
    refine ⟨⟨hm.accounted.frames, ?_, hm.accounted.objs⟩, rfl, drawn_cons trivial hm.drawn⟩
    intro f
    exact within_update_unlink hm.accounted.vecs (fun g => hm.placed.vec g v) hu f
  | obj o h =>
    obtain ⟨u, hu, rfl⟩ := unlinkObj_eq h
    refine ⟨⟨hm.accounted.frames, hm.accounted.vecs, ?_⟩, rfl, drawn_cons trivial hm.drawn⟩
    intro f
    exact within_update_unlink hm.accounted.objs (fun g => hm.placed.obj g o) hu f
  | frame f h =>
    obtain ⟨u, hu, rfl⟩ := unlinkFrame_eq h
    exact ⟨⟨hm.accounted.frames.unlink hu, hm.accounted.vecs, hm.accounted.objs⟩, rfl,
      drawn_cons trivial hm.drawn⟩
  | row r h =>
    obtain ⟨u, hu, -⟩ := unlinkRow_eq h
    rw [hm.plain.rows] at hu
    cases hu
  | column t k h =>
    obtain ⟨var, column, values, hvar, -, -⟩ := unlinkColumn_eq h
    rw [hm.plain.vars] at hvar
    cases hvar
  | table t h =>
    obtain ⟨f, u, -, hu, -⟩ := unlinkTable_eq h
    rw [hm.plain.tables] at hu
    cases hu
  | loop l h =>
    obtain ⟨u, hu, -⟩ := unlinkLoop_eq h
    rw [hm.plain.loops] at hu
    cases hu
  | reset o =>
    rw [resetRefsOf_eq]
    exact ⟨⟨hm.accounted.frames, hm.accounted.vecs, hm.accounted.objs⟩, rfl, hm.drawn⟩

theorem sound_of_steps (hm : m.Sound n) (h : DeleteSteps m m') : m'.Sound n := by
  induction h with
  | refl => exact hm
  | tail _ hstep ih =>
    have hshrinks := hstep.shrinks
    obtain ⟨haccounted, hvars, hdrawn⟩ := accounted_of_step ih hstep
    exact ⟨haccounted, hdrawn, ih.placed.shrinks hshrinks, ih.sameFrame.shrinks hshrinks,
      ih.plain.shrinks hshrinks hvars, ih.below.shrinks hshrinks⟩

theorem sound_delete {op : DeleteOp} (hm : m.Sound n) (h : m.delete op = some m') : m'.Sound n := by
  have hgroup : m.newGroup.Sound n := SoundWith.update hm m.activeRef m.deletions (m.groups + 1)
  exact sound_of_steps hgroup (deleteSteps_delete h)

/-! ### Undeleting -/

/-- What undeleting an item changes: the list that the item was on, and nothing else that is drawn. -/
inductive PutsBack (m : Model) : Deleted → Model → Prop
  | vec {v : Addr} {prev next : Option Addr} {l : List Addr}
    (h : relink v prev next (m.vecs (m.vec v).frame) = some l) :
    PutsBack m (.vec v prev next) { m with vecs := Function.update m.vecs (m.vec v).frame l }
  | obj {o : Addr} {prev next : Option Addr} {l : List Addr}
    (h : relink o prev next (m.objs (m.obj o).frame) = some l) :
    PutsBack m (.obj o prev next) { m with objs := Function.update m.objs (m.obj o).frame l }
  | frame {f : Addr} {prev next : Option Addr} {l : List Addr}
    (h : relink f prev next m.frames = some l) :
    PutsBack m (.frame f prev next) { m with frames := l }
  | other {item : Deleted} {tables loops vars rows values : Addr → List Addr}
    (h : ¬Deleted.Drawn item) :
    PutsBack m item
      { m with tables := tables, loops := loops, vars := vars, rows := rows, values := values }

theorem putsBack_of_undeleteItem {item : Deleted} (h : m.undeleteItem item = some m') :
    m.PutsBack item m' := by
  cases item with
  | vec v prev next =>
    obtain ⟨l, hl, heq⟩ := Option.bind_eq_some_iff.mp h
    cases heq
    exact .vec hl
  | obj o prev next =>
    obtain ⟨l, hl, heq⟩ := Option.bind_eq_some_iff.mp h
    cases heq
    exact .obj hl
  | frame f prev next =>
    obtain ⟨l, hl, heq⟩ := Option.bind_eq_some_iff.mp h
    cases heq
    exact .frame hl
  | table t prev next =>
    obtain ⟨f, -, h⟩ := Option.bind_eq_some_iff.mp h
    obtain ⟨l, -, heq⟩ := Option.bind_eq_some_iff.mp h
    cases heq
    exact .other id
  | row r prev next =>
    obtain ⟨l, -, heq⟩ := Option.bind_eq_some_iff.mp h
    cases heq
    exact .other id
  | column t k var values =>
    obtain ⟨values, -, h⟩ := Option.bind_eq_some_iff.mp h
    split at h
    next =>
      cases h
      exact .other id
    next => cases h
  | loop l prev next =>
    obtain ⟨loops, -, heq⟩ := Option.bind_eq_some_iff.mp h
    cases heq
    exact .other id

theorem soundWith_undeleteItem {d : Deletion} (hm : m.SoundWith (d :: ds) n)
    (h : m.undeleteItem d.item = some m') : m'.SoundWith ds n := by
  have hdrawn : ∀ e ∈ ds, Deleted.Drawn e.item := fun e he => hm.drawn e (List.mem_cons_of_mem d he)
  obtain ⟨item, group⟩ := d
  cases putsBack_of_undeleteItem h with
  | vec hl =>
    refine ⟨⟨hm.accounted.frames, ?_, hm.accounted.objs⟩, hdrawn, ⟨?_, hm.placed.obj⟩,
      ⟨hm.sameFrame.vec, hm.sameFrame.ref⟩, ⟨hm.plain.tables, hm.plain.loops, hm.plain.vars,
      hm.plain.rows⟩,
    ⟨hm.below.vec, hm.below.obj, hm.below.ref⟩⟩
    · exact within_update_relink hm.accounted.vecs hl
    · intro f w hw
      obtain ⟨rfl, rfl⟩ | hw := mem_update_relink hl hw
      · rfl
      · exact hm.placed.vec f w hw
  | obj hl =>
    refine ⟨⟨hm.accounted.frames, hm.accounted.vecs, ?_⟩, hdrawn, ⟨hm.placed.vec, ?_⟩,
      ⟨hm.sameFrame.vec, hm.sameFrame.ref⟩, ⟨hm.plain.tables, hm.plain.loops, hm.plain.vars,
      hm.plain.rows⟩,
    ⟨hm.below.vec, hm.below.obj, hm.below.ref⟩⟩
    · exact within_update_relink hm.accounted.objs hl
    · intro f w hw
      obtain ⟨rfl, rfl⟩ | hw := mem_update_relink hl hw
      · rfl
      · exact hm.placed.obj f w hw
  | frame hl =>
    exact ⟨⟨hm.accounted.frames.relink hl, hm.accounted.vecs, hm.accounted.objs⟩, hdrawn,
      ⟨hm.placed.vec, hm.placed.obj⟩, ⟨hm.sameFrame.vec, hm.sameFrame.ref⟩,
      ⟨hm.plain.tables, hm.plain.loops, hm.plain.vars, hm.plain.rows⟩,
      ⟨hm.below.vec, hm.below.obj, hm.below.ref⟩⟩
  | other hnot => exact (hnot (hm.drawn _ List.mem_cons_self)).elim

theorem undeleteGroup_preserves (Inv : List Deletion → Model → Prop) {group : ℕ}
    (hstep : ∀ d ds m m', d.group = group → Inv (d :: ds) m → m.undeleteItem d.item = some m' →
      Inv ds m') {m m' : Model} (hm : Inv ds m)
    (h : undeleteGroup group ds m = some m') :
    ∃ s rest, Inv rest s ∧ rest.takeWhile (·.group = group) = [] ∧
      m' = { s with deletions := rest } := by
  induction ds generalizing m with
  | nil =>
    cases h
    exact ⟨m, [], hm, rfl, rfl⟩
  | cons d ds ih =>
    rw [undeleteGroup] at h
    by_cases hd : d.group = group
    · rw [if_pos hd] at h
      obtain ⟨s, hs, h⟩ := Option.bind_eq_some_iff.mp h
      exact ih (hstep d ds m s hd hm hs) h
    · rw [if_neg hd] at h
      cases h
      refine ⟨m, d :: ds, hm, ?_, rfl⟩
      rw [List.takeWhile_cons, if_neg (by rwa [decide_eq_true_iff])]

theorem undelete_preserves (Inv : List Deletion → Model → Prop)
    (hstep : ∀ d ds m m', Inv (d :: ds) m → m.undeleteItem d.item = some m' → Inv ds m')
    (hm : Inv m.deletions m) (h : m.undelete = some m') :
    ∃ s rest, Inv rest s ∧ m' = { s with deletions := rest } := by
  rw [undelete] at h
  cases hds : m.deletions with
  | nil =>
    rw [hds] at h hm
    cases h
    exact ⟨m, [], hm, by rw [← hds]⟩
  | cons d ds =>
    rw [hds] at h hm
    obtain ⟨s, rest, hs, -, hm'⟩ :=
      undeleteGroup_preserves Inv (fun d ds m m' _ => hstep d ds m m') hm h
    exact ⟨s, rest, hs, hm'⟩

structure Fixed (m m' : Model) : Prop where
  vec : m'.vec = m.vec
  obj : m'.obj = m.obj
  activeRef : m'.activeRef = m.activeRef

theorem fixed_undeleteItem {item : Deleted} (h : m.undeleteItem item = some m') : m.Fixed m' := by
  cases putsBack_of_undeleteItem h <;> exact ⟨rfl, rfl, rfl⟩

theorem undelete_fixed (h : m.undelete = some m') : m.Fixed m' := by
  obtain ⟨s, rest, hs, rfl⟩ := undelete_preserves (fun _ s => m.Fixed s)
    (fun _ _ _ _ hs hitem => by
      have hfixed := fixed_undeleteItem hitem
      exact ⟨hfixed.vec.trans hs.vec, hfixed.obj.trans hs.obj,
        hfixed.activeRef.trans hs.activeRef⟩) ⟨rfl, rfl, rfl⟩ h
  exact ⟨hs.vec, hs.obj, hs.activeRef⟩

theorem sound_undelete (hm : m.Sound n) (h : m.undelete = some m') : m'.Sound n := by
  obtain ⟨s, rest, hs, rfl⟩ := undelete_preserves (fun ds s => s.SoundWith ds n)
    (fun _ _ _ _ => soundWith_undeleteItem) hm h
  exact hs.update s.activeRef rest s.groups

/-! ### Adding -/

structure SameItems (ds ds' : List Deletion) : Prop where
  frames : deadFrames ds' = deadFrames ds
  vecs : deadVecs ds' = deadVecs ds
  objs : deadObjs ds' = deadObjs ds
  drawn : (∀ d ∈ ds, Deleted.Drawn d.item) → ∀ d ∈ ds', Deleted.Drawn d.item

theorem SameItems.refl (ds : List Deletion) : SameItems ds ds := ⟨rfl, rfl, rfl, id⟩

theorem sameItems_setNext (slot : Option Addr) (x : Addr) (ds : List Deletion) :
    SameItems ds (ds.map (Editor.setNext slot x)) := by
  have hsame : ∀ d, deadFrame (Editor.setNext slot x d) = deadFrame d ∧
      deadVec (Editor.setNext slot x d) = deadVec d ∧
      deadObj (Editor.setNext slot x d) = deadObj d ∧
      (Deleted.Drawn d.item → Deleted.Drawn (Editor.setNext slot x d).item) := by
    intro d
    obtain ⟨item, group⟩ := d
    cases item <;> exact ⟨rfl, rfl, rfl, id⟩
  refine ⟨?_, ?_, ?_, ?_⟩
  · rw [deadFrames, deadFrames, List.filterMap_map]
    exact List.filterMap_congr fun d _ => (hsame d).1
  · rw [deadVecs, deadVecs, List.filterMap_map]
    exact List.filterMap_congr fun d _ => (hsame d).2.1
  · rw [deadObjs, deadObjs, List.filterMap_map]
    exact List.filterMap_congr fun d _ => (hsame d).2.2.1
  · intro hds d hd
    obtain ⟨e, he, rfl⟩ := List.mem_map.mp hd
    exact (hsame e).2.2.2 (hds e he)

theorem linkBehind_sublist (slot : Option Addr) (x : Addr) (l : List Addr) :
    (Editor.linkBehind slot x l).Sublist (l ++ [x]) := by
  cases slot with
  | none => exact List.sublist_append_right l [x]
  | some s =>
    rw [Editor.linkBehind]
    by_cases hs : s ∈ l
    · rw [if_pos hs]
      obtain ⟨before, after, rfl, hbefore⟩ := List.eq_append_cons_of_mem hs
      rw [takeWhile_ne_of_notMem hbefore, List.append_assoc, List.cons_append]
      exact ((List.singleton_sublist.mpr (List.mem_append_right after
        List.mem_cons_self)).cons_cons s).append_left before
    · rw [if_neg hs]
      exact List.sublist_append_left l [x]

theorem sound_addVec {f : Addr} {base : Option Addr}
    (hm : m.Sound n) (hds : SameItems m.deletions ds) (hl : l.Sublist (m.vecs f ++ [n]))
    (hbase : ∀ b, base = some b → b < n ∧ (m.vec b).frame = f) :
    Sound { m with
      vec := Function.update m.vec n { frame := f, base := base }
      vecs := Function.update m.vecs f l
      deletions := ds } (n + 1) := by
  have hold : ∀ b, b < n → Function.update m.vec n { frame := f, base := base } b = m.vec b :=
    fun b hb => Function.update_of_ne (Nat.ne_of_lt hb) _ _
  refine ⟨⟨?_, ?_, ?_⟩, hds.drawn hm.drawn, ⟨?_, hm.placed.obj⟩, ⟨?_, ?_⟩,
    ⟨hm.plain.tables, hm.plain.loops, hm.plain.vars, hm.plain.rows⟩, ⟨?_, ?_, ?_⟩⟩
  · rw [hds.frames]
    exact hm.accounted.frames.succ
  · rw [hds.vecs]
    exact within_update_add hm.accounted.vecs hl
  · rw [hds.objs]
    exact fun g => (hm.accounted.objs g).succ
  · intro g w hw
    change (Function.update m.vec n { frame := f, base := base } w).frame = g
    obtain hin | ⟨rfl, rfl⟩ := mem_update_add hl hw
    · rw [hold w ((hm.accounted.vecs g).2 w (List.mem_append_left _ hin))]
      exact hm.placed.vec g w hin
    · rw [Function.update_self]
  · intro w b hb
    change (Function.update m.vec n { frame := f, base := base } w).base = some b at hb
    change (Function.update m.vec n { frame := f, base := base } b).frame =
      (Function.update m.vec n { frame := f, base := base } w).frame
    by_cases hw : w = n
    · rw [hw, Function.update_self] at hb ⊢
      rw [hold b (hbase b hb).1]
      exact (hbase b hb).2
    · rw [Function.update_of_ne hw] at hb ⊢
      rw [hold b (hm.below.vec w b hb)]
      exact hm.sameFrame.vec w b hb
  · intro o g b href hb
    change (Function.update m.vec n { frame := f, base := base } b).frame = (m.obj o).frame
    rw [hold b (hm.below.obj o b hb)]
    exact hm.sameFrame.ref o g b href hb
  · exact (Function.forall_update_iff m.vec fun _ vec => ∀ b, vec.base = some b → b < n + 1).mpr
      ⟨fun b hb => (hbase b hb).1.trans n.lt_succ_self,
        fun w _ b hb => (hm.below.vec w b hb).trans n.lt_succ_self⟩
  · exact fun o b hb => (hm.below.obj o b hb).trans (Nat.lt_succ_self n)
  · exact fun o g hg => (hm.below.ref o g hg).trans (Nat.lt_succ_self n)

theorem sound_addObj {f : Addr} {obj : ObjNode}
    (hm : m.Sound n) (hds : SameItems m.deletions ds) (hl : l.Sublist (m.objs f ++ [n]))
    (hframe : obj.frame = f) (hbase : ∀ b, obj.base = some b → b < n)
    (hkind : ∀ g, obj.kind = .frame g → g < n)
    (href : ∀ g b, obj.kind = .frame g → obj.base = some b → (m.vec b).frame = f) :
    Sound { m with
      obj := Function.update m.obj n obj
      objs := Function.update m.objs f l
      deletions := ds } (n + 1) := by
  refine ⟨⟨?_, ?_, ?_⟩, hds.drawn hm.drawn, ⟨hm.placed.vec, ?_⟩, ⟨hm.sameFrame.vec, ?_⟩,
    ⟨hm.plain.tables, hm.plain.loops, hm.plain.vars, hm.plain.rows⟩, ⟨?_, ?_, ?_⟩⟩
  · rw [hds.frames]
    exact hm.accounted.frames.succ
  · rw [hds.vecs]
    exact fun g => (hm.accounted.vecs g).succ
  · rw [hds.objs]
    exact within_update_add hm.accounted.objs hl
  · intro g o ho
    change (Function.update m.obj n obj o).frame = g
    obtain hin | ⟨rfl, rfl⟩ := mem_update_add hl ho
    · rw [Function.update_of_ne
        (Nat.ne_of_lt ((hm.accounted.objs g).2 o (List.mem_append_left _ hin)))]
      exact hm.placed.obj g o hin
    · rw [Function.update_self, hframe]
  · exact (Function.forall_update_iff m.obj fun _ obj => ∀ g b, obj.kind = .frame g →
      obj.base = some b → (m.vec b).frame = obj.frame).mpr
      ⟨fun g b hg hb => (href g b hg hb).trans hframe.symm, fun o _ => hm.sameFrame.ref o⟩
  · exact fun w b hb => (hm.below.vec w b hb).trans (Nat.lt_succ_self n)
  · exact (Function.forall_update_iff m.obj fun _ obj => ∀ b, obj.base = some b → b < n + 1).mpr
      ⟨fun b hb => (hbase b hb).trans n.lt_succ_self,
        fun o _ b hb => (hm.below.obj o b hb).trans n.lt_succ_self⟩
  · exact (Function.forall_update_iff m.obj fun _ obj => ∀ g, obj.kind = .frame g → g < n + 1).mpr
      ⟨fun g hg => (hkind g hg).trans n.lt_succ_self,
        fun o _ g hg => (hm.below.ref o g hg).trans n.lt_succ_self⟩

theorem sound_addFrame (hm : m.Sound n) :
    Sound { m with
      frames := m.frames.take 1 ++ n :: m.frames.drop 1
      vecs := Function.update m.vecs n []
      objs := Function.update m.objs n []
      activeRef := Function.update m.activeRef n none } (n + 1) := by
  have hempty : ∀ {lists : Addr → List Addr} {d : List Addr}, (∀ f, Within n (lists f ++ d)) →
      ∀ f, Within (n + 1) (Function.update lists n [] f ++ d) := fun h =>
    within_update_add h (List.nil_sublist _)
  have hmem : ∀ {lists : Addr → List Addr} {f x : Addr}, x ∈ Function.update lists n [] f →
      x ∈ lists f := by
    intro lists f x hx
    by_cases hf : f = n
    · rw [hf, Function.update_self] at hx
      exact absurd hx List.not_mem_nil
    · rwa [Function.update_of_ne hf] at hx
  refine ⟨⟨?_, hempty hm.accounted.vecs, hempty hm.accounted.objs⟩, hm.drawn, ⟨?_, ?_⟩,
    ⟨hm.sameFrame.vec, hm.sameFrame.ref⟩,
    ⟨hm.plain.tables, hm.plain.loops, hm.plain.vars, hm.plain.rows⟩, ⟨?_, ?_, ?_⟩⟩
  · apply (hm.accounted.frames.add (List.Sublist.refl _)).perm
    apply List.Perm.append_right
    calc m.frames ++ [n] ~ n :: m.frames := List.perm_append_singleton n m.frames
      _ = n :: (m.frames.take 1 ++ m.frames.drop 1) := by rw [List.take_append_drop]
      _ ~ m.frames.take 1 ++ n :: m.frames.drop 1 := List.perm_middle.symm
  · exact fun f w hw => hm.placed.vec f w (hmem hw)
  · exact fun f o ho => hm.placed.obj f o (hmem ho)
  · exact fun w b hb => (hm.below.vec w b hb).trans (Nat.lt_succ_self n)
  · exact fun o b hb => (hm.below.obj o b hb).trans (Nat.lt_succ_self n)
  · exact fun o g hg => (hm.below.ref o g hg).trans (Nat.lt_succ_self n)

theorem sound_rebase {v f : Addr} {base : Option Addr} (hm : m.Sound n)
    (hbase : ∀ b, base = some b → b < n ∧ (m.vec b).frame = (m.vec v).frame)
    (hl : l ~ m.vecs f) :
    Sound { m with
      vec := Function.update m.vec v { m.vec v with base := base }
      vecs := Function.update m.vecs f l } n := by
  have hframe : ∀ w, (Function.update m.vec v { m.vec v with base := base } w).frame =
      (m.vec w).frame :=
    (Function.forall_update_iff m.vec fun w vec => vec.frame = (m.vec w).frame).mpr
      ⟨rfl, fun _ _ => rfl⟩
  have hmem : ∀ g w, w ∈ Function.update m.vecs f l g → w ∈ m.vecs g := by
    intro g w hw
    by_cases hg : g = f
    · rw [hg, Function.update_self] at hw
      rw [hg]
      exact hl.mem_iff.mp hw
    · rwa [Function.update_of_ne hg] at hw
  refine ⟨⟨hm.accounted.frames, ?_, hm.accounted.objs⟩, hm.drawn, ⟨?_, hm.placed.obj⟩, ⟨?_, ?_⟩,
    ⟨hm.plain.tables, hm.plain.loops, hm.plain.vars, hm.plain.rows⟩, ⟨?_, hm.below.obj, hm.below.ref⟩⟩
  · intro g
    change Within n (Function.update m.vecs f l g ++ deadVecs m.deletions)
    by_cases hg : g = f
    · rw [hg, Function.update_self]
      exact (hm.accounted.vecs f).perm (hl.symm.append_right _)
    · rw [Function.update_of_ne hg]
      exact hm.accounted.vecs g
  · intro g w hw
    exact (hframe w).trans (hm.placed.vec g w (hmem g w hw))
  · intro w b hb
    refine (hframe b).trans (Eq.trans ?_ (hframe w).symm)
    change (Function.update m.vec v { m.vec v with base := base } w).base = some b at hb
    by_cases hw : w = v
    · rw [hw, Function.update_self] at hb
      rw [hw]
      exact (hbase b hb).2
    · rw [Function.update_of_ne hw] at hb
      exact hm.sameFrame.vec w b hb
  · intro o g b href hb
    exact (hframe b).trans (hm.sameFrame.ref o g b href hb)
  · exact (Function.forall_update_iff m.vec fun _ vec => ∀ b, vec.base = some b → b < n).mpr
      ⟨fun b hb => (hbase b hb).1, fun w _ => hm.below.vec w⟩

theorem sound_setObj {o : Addr} {obj : ObjNode} (hm : m.Sound n)
    (hframe : obj.frame = (m.obj o).frame) (hbase : ∀ b, obj.base = some b → b < n)
    (hkind : ∀ g, obj.kind = .frame g → (m.obj o).kind = .frame g)
    (href : ∀ g b, obj.kind = .frame g → obj.base = some b → (m.vec b).frame = (m.obj o).frame) :
    Sound { m with obj := Function.update m.obj o obj } n := by
  have hsame : ∀ x, (Function.update m.obj o obj x).frame = (m.obj x).frame :=
    (Function.forall_update_iff m.obj fun x obj => obj.frame = (m.obj x).frame).mpr
      ⟨hframe, fun _ _ => rfl⟩
  refine ⟨⟨hm.accounted.frames, hm.accounted.vecs, hm.accounted.objs⟩, hm.drawn,
    ⟨hm.placed.vec, ?_⟩, ⟨hm.sameFrame.vec, ?_⟩,
    ⟨hm.plain.tables, hm.plain.loops, hm.plain.vars, hm.plain.rows⟩, ⟨hm.below.vec, ?_, ?_⟩⟩
  · exact fun g x hx => (hsame x).trans (hm.placed.obj g x hx)
  · exact (Function.forall_update_iff m.obj fun _ obj => ∀ g b, obj.kind = .frame g →
      obj.base = some b → (m.vec b).frame = obj.frame).mpr
      ⟨fun g b hg hb => (href g b hg hb).trans hframe.symm, fun x _ => hm.sameFrame.ref x⟩
  · exact (Function.forall_update_iff m.obj fun _ obj => ∀ b, obj.base = some b → b < n).mpr
      ⟨hbase, fun x _ => hm.below.obj x⟩
  · exact (Function.forall_update_iff m.obj fun _ obj => ∀ g, obj.kind = .frame g → g < n).mpr
      ⟨fun g hg => hm.below.ref o g (hkind g hg), fun x _ => hm.below.ref x⟩

end Openmoko.Fped.Model

namespace Openmoko.Fped.Editor

variable {e e' : Editor}

/-! ### What each edit does -/

theorem frameDef_eq (h : e.frameDef = some e') :
    e.phase = .defs ∧ e' = ({ e with
      model := { e.model with
        frames := e.model.frames.take 1 ++ e.fresh :: e.model.frames.drop 1
        vecs := Function.update e.model.vecs e.fresh []
        objs := Function.update e.model.objs e.fresh []
        activeRef := Function.update e.model.activeRef e.fresh none }
      phase := .frame
      fresh := e.fresh + 1 } : Editor).setFrame e.fresh := by
  rw [frameDef] at h
  split at h
  next hphase =>
    cases h
    exact ⟨hphase, rfl⟩
  next => cases h

theorem frameEnd_eq (h : e.frameEnd = some e') :
    e.phase = .frame ∧ e' = ({ e with phase := .defs } : Editor).setFrame e.root := by
  rw [frameEnd] at h
  split at h
  next hphase =>
    cases h
    exact ⟨hphase, rfl⟩
  next => cases h

theorem items_eq (h : e.items = some e') : e.phase = .defs ∧ e' = { e with phase := .items } := by
  rw [items] at h
  split at h
  next hphase =>
    cases h
    exact ⟨hphase, rfl⟩
  next => cases h

theorem finish_eq (h : e.finish = some e') : e' = { e with phase := .gui } := by
  rw [finish] at h
  split at h
  next =>
    cases h
    rfl
  next => cases h

theorem vec_eq {base : BaseRef} (h : e.vec base = some e') :
    ∃ b, e.baseVec base = some b ∧ e.reading = true ∧
      e' = { e with
        model := { e.model with
          vec := Function.update e.model.vec e.fresh { frame := e.curr, base := b }
          vecs := Function.update e.model.vecs e.curr
            (linkBehind e.lastVec e.fresh (e.model.vecs e.curr))
          deletions := e.model.deletions.map (setNext e.lastVec e.fresh) }
        lastVec := some e.fresh
        fresh := e.fresh + 1 } := by
  obtain ⟨b, hb, h⟩ := Option.bind_eq_some_iff.mp h
  split at h
  next hreading =>
    cases h
    exact ⟨b, hb, hreading, rfl⟩
  next => cases h

theorem item_eq {base : BaseRef} {others : List BaseRef} (h : e.item base others = some e') :
    ∃ b os, e.baseVec base = some b ∧ e.reading = true ∧ e' = e.addObj b (.item os) := by
  obtain ⟨b, hb, h⟩ := Option.bind_eq_some_iff.mp h
  obtain ⟨os, -, h⟩ := Option.bind_eq_some_iff.mp h
  split at h
  next hreading =>
    cases h
    exact ⟨b, os, hb, hreading, rfl⟩
  next => cases h

theorem ref_eq {g : Addr} {base : BaseRef} (h : e.ref g base = some e') :
    ∃ b, e.baseVec base = some b ∧ e.reading = true ∧ g ∈ e.model.frames.tail ∧
      e' = ({ e with model := activate e.model g e.fresh } : Editor).addObj b (.frame g) := by
  obtain ⟨b, hb, h⟩ := Option.bind_eq_some_iff.mp h
  split at h
  next hreading =>
    cases h
    exact ⟨b, hb, hreading.1, hreading.2, rfl⟩
  next => cases h

theorem meas_eq {base high : Addr} {quals : List Addr} (h : e.meas base high quals = some e') :
    (e.phase = .defs ∨ e.phase = .items) ∧ listedVec e.model base = true ∧
      e' = ({ e with phase := .items } : Editor).addObj (some base) (.meas high quals) := by
  rw [meas] at h
  split at h
  next hmeas =>
    cases h
    exact ⟨hmeas.1, hmeas.2.1, rfl⟩
  next => cases h

theorem move_eq {v to_ : Addr} (h : e.move v to_ = some e') :
    e.reading = true ∧ v ∈ e.model.vecs e.curr ∧ to_ ∈ e.model.vecs e.curr ∧
      e' = { e with model := { e.model with
        vec := Function.update e.model.vec v { e.model.vec v with base := some to_ } } } := by
  rw [move] at h
  dsimp only at h
  split at h
  next hmove =>
    cases h
    exact ⟨hmove.1, hmove.2.1, hmove.2.2, rfl⟩
  next => cases h

theorem moveObj_eq {o to_ : Addr} {anchor : ℕ} (h : e.moveObj o anchor to_ = some e') :
    ∃ obj, setAnchor (e.model.obj o) to_ anchor = some obj ∧ o ∈ e.model.objs e.curr ∧
      to_ ∈ e.model.vecs e.curr ∧
      e' = { e with model := { e.model with obj := Function.update e.model.obj o obj } } := by
  obtain ⟨obj, hobj, h⟩ := Option.bind_eq_some_iff.mp h
  split at h
  next hmove =>
    cases h
    exact ⟨obj, hobj, hmove.2.1, hmove.2.2, rfl⟩
  next => cases h

variable {base : Option Addr} {f : Addr}

theorem link_eq {g : Addr} (h : e.link g f base = some e') :
    e.reading = true ∧ g ∈ e.model.frames.tail ∧ (f = e.curr ∨ f ∈ e.model.frames.tail) ∧
      base.all (e.inFrame f) = true ∧
      e' = { e with
        model := activate { e.model with
          obj := Function.update e.model.obj e.fresh { frame := f, base := base, kind := .frame g }
          objs := Function.update e.model.objs f (e.model.objs f ++ [e.fresh]) } g e.fresh
        fresh := e.fresh + 1 } := by
  rw [link] at h
  dsimp only at h
  split at h
  next hlink =>
    cases h
    exact ⟨hlink.1, hlink.2.1, hlink.2.2.1, hlink.2.2.2, rfl⟩
  next => cases h

theorem newVec_eq (h : e.newVec f base = some e') : e.phase = .gui ∧ base.all (e.inFrame f) = true ∧
      e' = { e with
        model := { e.model with
          vec := Function.update e.model.vec e.fresh { frame := f, base := base }
          vecs := Function.update e.model.vecs f (e.model.vecs f ++ [e.fresh]) }
        fresh := e.fresh + 1 } := by
  rw [newVec] at h
  dsimp only at h
  split at h
  next hnew =>
    cases h
    exact ⟨hnew.1, hnew.2.2, rfl⟩
  next => cases h

theorem delete_eq {op : DeleteOp} (h : e.delete op = some e') :
    e.deletable op = true ∧ ∃ m, e.model.delete op = some m ∧ e' = { e with model := m } := by
  rw [delete] at h
  split at h
  next hdelete =>
    obtain ⟨m, hm, rfl⟩ := Option.map_eq_some_iff.mp h
    exact ⟨hdelete, m, hm, rfl⟩
  next => cases h

theorem undelete_eq (h : e.undelete = some e') :
    e.phase = .gui ∧ ∃ m, e.model.undelete = some m ∧ e' = { e with model := m } := by
  rw [undelete] at h
  split at h
  next hphase =>
    obtain ⟨m, hm, rfl⟩ := Option.map_eq_some_iff.mp h
    exact ⟨hphase, m, hm, rfl⟩
  next => cases h

theorem moveTo_eq {v : Addr} {to_ : Option Addr} (h : e.moveTo v to_ = some e') :
    leadsTo e.model v e.fresh to_ = some false ∧ e.phase = .gui ∧
      v ∈ e.model.vecs (e.model.vec v).frame ∧
      to_.all (e.inFrame (e.model.vec v).frame) = true ∧
      ∃ mark marked, (∀ w ∈ (e.model.vecs (e.model.vec v).frame).takeWhile (· ≠ v),
          mark w = false) ∧
        marked = markDependents { e.model with
          vec := Function.update e.model.vec v { e.model.vec v with base := to_ } } to_
          ((e.model.vecs (e.model.vec v).frame).dropWhile (· ≠ v)).tail
          (Function.update mark v true) ∧
        e' = { e with
          model := { e.model with
            vec := Function.update e.model.vec v { e.model.vec v with base := to_ }
            vecs := Function.update e.model.vecs (e.model.vec v).frame
              (movedVecs (e.model.vecs (e.model.vec v).frame) to_ marked) }
          mark := marked.2 } := by
  obtain ⟨found, hfound, h⟩ := Option.bind_eq_some_iff.mp h
  dsimp only at h
  split at h
  next hmove =>
    obtain ⟨hphase, hv, hto, hnot⟩ := hmove
    rw [Bool.not_eq_true'] at hnot
    rw [hnot] at hfound
    cases h
    refine ⟨hfound, hphase, hv, hto,
      fun w => !(w ∈ (e.model.vecs (e.model.vec v).frame).takeWhile (· ≠ v)) && e.mark w, _, ?_,
      rfl, ?_⟩
    · intro w hw
      dsimp only
      rw [decide_eq_true hw]
      rfl
    · rfl
  next => cases h

/-! ### Every edit keeps the invariant -/

theorem activate_eq (m : Model) (g o : Addr) :
    activate m g o = { m with activeRef := (activate m g o).activeRef } := by
  rw [activate]
  split <;> rfl

theorem mem_of_markDependents {m : Model} {t : Addr} {l : List Addr} {mark : Addr → Bool}
    (h : (markDependents m (some t) l mark).1 = true) : t ∈ l := by
  induction l generalizing mark with
  | nil => cases h
  | cons a l ih =>
    rw [markDependents] at h
    by_cases ha : some t = some a
    · cases ha
      exact List.mem_cons_self
    · rw [if_neg ha] at h
      exact List.mem_cons_of_mem a (ih h)

theorem moveMarked_perm {t : Addr} {l : List Addr} (mark : Addr → Bool) (h : t ∈ l) :
    (moveMarked mark t l).Perm l := by
  obtain ⟨before, after, rfl, hbefore⟩ := List.eq_append_cons_of_mem h
  rw [moveMarked, takeWhile_ne_of_notMem hbefore, dropWhile_ne_of_notMem hbefore,
    List.tail_cons,
    List.append_assoc, List.cons_append]
  have hparts : (before.filter (fun v => !mark v) ++ before.filter fun v => mark v).Perm before :=
    List.perm_append_comm.trans (List.filter_append_perm mark before)
  refine List.perm_middle.trans ?_
  rw [← List.append_assoc]
  exact ((hparts.append_right after).cons t).trans List.perm_middle.symm

theorem movedVecs_perm {m : Model} {l rest : List Addr} {to_ : Option Addr} {mark : Addr → Bool}
    (hrest : rest.Sublist l) : (movedVecs l to_ (markDependents m to_ rest mark)).Perm l := by
  cases to_ with
  | none => exact List.Perm.refl l
  | some t =>
    rw [movedVecs]
    split
    next hfound => exact moveMarked_perm _ (hrest.subset (mem_of_markDependents hfound))
    next => exact List.Perm.refl l

structure Sound (e : Editor) : Prop where
  model : e.model.Sound e.fresh
  curr : e.phase ≠ .gui → e.curr ∈ e.model.frames
  lastVec : ∀ v, e.lastVec = some v → v < e.fresh ∧ (e.model.vec v).frame = e.curr

theorem phase_of_meas (h : e.phase = .defs ∨ e.phase = .items) : e.phase ≠ .gui := by
  intro hgui
  rw [hgui] at h
  obtain h | h := h <;> cases h

theorem phase_of_reading (h : e.reading = true) : e.phase ≠ .gui := by
  intro hgui
  rw [reading, hgui] at h
  cases h

theorem Sound.baseVec (he : e.Sound) {base : BaseRef} {b : Option Addr}
    (h : e.baseVec base = some b) (v : Addr) (hv : b = some v) :
    v < e.fresh ∧ (e.model.vec v).frame = e.curr := by
  subst hv
  cases base with
  | origin => cases h
  | dot =>
    obtain ⟨w, hw, hwv⟩ := Option.map_eq_some_iff.mp h
    cases hwv
    exact he.lastVec v hw
  | named w =>
    rw [Editor.baseVec] at h
    split at h
    next hlisted =>
      cases h
      exact ⟨(he.model.accounted.vecs e.curr).2 v (List.mem_append_left _ hlisted),
        he.model.placed.vec e.curr v hlisted⟩
    next => cases h

theorem Sound.lt_of_mem_tail (he : e.Sound) {g : Addr} (hg : g ∈ e.model.frames.tail) :
    g < e.fresh :=
  he.model.accounted.frames.2 g (List.mem_append_left _ (List.mem_of_mem_tail hg))

theorem Sound.addObj (he : e.Sound) {kind : ObjNodeKind}
    (hbase : ∀ v, base = some v → v < e.fresh) (hkind : ∀ g, kind = .frame g → g < e.fresh)
    (href : ∀ g v, kind = .frame g → base = some v → (e.model.vec v).frame = e.curr) :
    (e.addObj base kind).Sound := by
  refine ⟨?_, he.curr, fun v hv => ⟨((he.lastVec v hv).1).trans (Nat.lt_succ_self _),
    (he.lastVec v hv).2⟩⟩
  exact Model.sound_addObj he.model (Model.sameItems_setNext _ _ _)
    (Model.linkBehind_sublist _ _ _) rfl hbase hkind href

theorem Sound.activate (he : e.Sound) (g o : Addr) :
    ({ e with model := activate e.model g o } : Editor).Sound := by
  rw [activate_eq]
  exact ⟨Model.SoundWith.update he.model _ _ _, he.curr, he.lastVec⟩

theorem inFrame_iff {v : Addr} :
    e.inFrame f v = true ↔ v < e.fresh ∧ (e.model.vec v).frame = f := by
  rw [inFrame, Bool.and_eq_true, decide_eq_true_iff, decide_eq_true_iff]

theorem of_all_inFrame (h : base.all (e.inFrame f) = true)
    (v : Addr) (hv : base = some v) : v < e.fresh ∧ (e.model.vec v).frame = f := by
  rw [hv, Option.all_some] at h
  exact inFrame_iff.mp h

theorem root_mem (h : f ∈ e.model.frames) : e.root ∈ e.model.frames := by
  rw [root]
  cases hframes : e.model.frames with
  | nil =>
    rw [hframes] at h
    exact absurd h List.not_mem_nil
  | cons a l => exact List.mem_cons_self

theorem mem_take_cons_drop {x y : Addr} {l : List Addr} :
    y ∈ l.take 1 ++ x :: l.drop 1 ↔ y = x ∨ y ∈ l := by
  rw [List.perm_middle.mem_iff, List.take_append_drop, List.mem_cons]

theorem setAnchor_spec {o : ObjNode} {obj : ObjNode} {to_ : Addr} {anchor : ℕ}
    (h : setAnchor o to_ anchor = some obj) :
    obj.frame = o.frame ∧ (obj.base = some to_ ∨ obj.base = o.base) ∧
      ∀ g, obj.kind = .frame g ↔ o.kind = .frame g := by
  cases anchor with
  | zero =>
    cases h
    exact ⟨rfl, .inl rfl, fun g => Iff.rfl⟩
  | succ i =>
    rw [setAnchor] at h
    cases hkind : o.kind with
    | frame ref =>
      rw [hkind] at h
      cases h
    | item others =>
      rw [hkind] at h
      dsimp only at h
      split at h
      next =>
        cases h
        exact ⟨rfl, .inr rfl, fun g => ⟨ObjNodeKind.noConfusion, ObjNodeKind.noConfusion⟩⟩
      next => cases h
    | meas high quals =>
      rw [hkind] at h
      dsimp only at h
      split at h
      next =>
        cases h
        exact ⟨rfl, .inr rfl, fun g => ⟨ObjNodeKind.noConfusion, ObjNodeKind.noConfusion⟩⟩
      next => cases h

theorem Sound.vec {base : BaseRef} (he : e.Sound) (h : e.vec base = some e') : e'.Sound := by
  obtain ⟨b, hb, -, rfl⟩ := vec_eq h
  refine ⟨?_, he.curr, ?_⟩
  · exact Model.sound_addVec he.model (Model.sameItems_setNext _ _ _)
      (Model.linkBehind_sublist _ _ _) (he.baseVec hb)
  · intro v hv
    cases hv
    refine ⟨Nat.lt_succ_self _, ?_⟩
    dsimp only
    rw [Function.update_self]

theorem Sound.ref {g : Addr} {base : BaseRef} (he : e.Sound) (h : e.ref g base = some e') :
    e'.Sound := by
  obtain ⟨b, hb, -, hg, rfl⟩ := ref_eq h
  apply (he.activate g e.fresh).addObj
  · exact fun v hv => (he.baseVec hb v hv).1
  · intro g' hkind
    cases hkind
    exact he.lt_of_mem_tail hg
  · intro _ v _ hv
    rw [activate_eq]
    exact (he.baseVec hb v hv).2

theorem Sound.meas {base high : Addr} {quals : List Addr} (he : e.Sound)
    (h : e.meas base high quals = some e') : e'.Sound := by
  obtain ⟨hphase, hlisted, rfl⟩ := meas_eq h
  have he' : ({ e with phase := .items } : Editor).Sound := ⟨he.model,
    fun _ => he.curr (phase_of_meas hphase), he.lastVec⟩
  apply he'.addObj
  · intro v hv
    cases hv
    rw [listedVec, Bool.and_eq_true, decide_eq_true_iff, decide_eq_true_iff] at hlisted
    exact (he.model.accounted.vecs _).2 base (List.mem_append_left _ hlisted.2)
  · exact fun g => ObjNodeKind.noConfusion
  · exact fun g v => ObjNodeKind.noConfusion

theorem Sound.lastVec_rebased (he : e.Sound) (v : Addr) (base : Option Addr) {w : Addr}
    (hw : e.lastVec = some w) : w < e.fresh ∧
      (Function.update e.model.vec v { e.model.vec v with base := base } w).frame = e.curr := by
  obtain ⟨hlt, hframe⟩ := he.lastVec w hw
  have hsame : ∀ w, (Function.update e.model.vec v { e.model.vec v with base := base } w).frame =
      (e.model.vec w).frame :=
    (Function.forall_update_iff e.model.vec fun w vec => vec.frame = (e.model.vec w).frame).mpr
      ⟨rfl, fun _ _ => rfl⟩
  exact ⟨hlt, (hsame w).trans hframe⟩

theorem Sound.move {v to_ : Addr} (he : e.Sound) (h : e.move v to_ = some e') : e'.Sound := by
  obtain ⟨-, hv, hto, rfl⟩ := move_eq h
  have hbase : ∀ b, some to_ = some b →
      b < e.fresh ∧ (e.model.vec b).frame = (e.model.vec v).frame := by
    intro b hb
    cases hb
    refine ⟨(he.model.accounted.vecs _).2 to_ (List.mem_append_left _ hto), ?_⟩
    rw [he.model.placed.vec _ to_ hto, he.model.placed.vec _ v hv]
  have hmoved := Model.sound_rebase he.model hbase (List.Perm.refl (e.model.vecs e.curr))
  rw [Function.update_eq_self] at hmoved
  exact ⟨hmoved, he.curr, fun _ => he.lastVec_rebased v (some to_)⟩

theorem Sound.moveObj {o to_ : Addr} {anchor : ℕ} (he : e.Sound)
    (h : e.moveObj o anchor to_ = some e') : e'.Sound := by
  obtain ⟨obj, hobj, ho, hto, rfl⟩ := moveObj_eq h
  obtain ⟨hframe, hbase, hkind⟩ := setAnchor_spec hobj
  have hto' : to_ < e.fresh := (he.model.accounted.vecs _).2 to_ (List.mem_append_left _ hto)
  refine ⟨Model.sound_setObj he.model hframe ?_ (fun g => (hkind g).mp) ?_, he.curr, he.lastVec⟩
  · intro b hb
    obtain hbase | hbase := hbase
    · cases hbase.symm.trans hb
      exact hto'
    · exact he.model.below.obj o b (hbase.symm.trans hb)
  · intro g b href hb
    obtain hbase | hbase := hbase
    · cases hbase.symm.trans hb
      rw [he.model.placed.vec _ to_ hto, he.model.placed.obj _ o ho]
    · exact he.model.sameFrame.ref o g b ((hkind g).mp href) (hbase.symm.trans hb)

theorem Sound.link {g f : Addr} {base : Option Addr} (he : e.Sound)
    (h : e.link g f base = some e') : e'.Sound := by
  obtain ⟨-, hg, -, hbase, rfl⟩ := link_eq h
  rw [activate_eq]
  have hlinked := Model.sound_addObj he.model (Model.SameItems.refl _)
    (List.Sublist.refl (e.model.objs f ++ [e.fresh])) (rfl : ObjNode.frame
      { frame := f, base := base, kind := .frame g } = f)
    (fun v hv => (of_all_inFrame hbase v hv).1) (fun g' hkind => by
      cases hkind
      exact he.lt_of_mem_tail hg) fun _ v _ hv => (of_all_inFrame hbase v hv).2
  exact ⟨Model.SoundWith.update hlinked _ _ _, he.curr, fun v hv =>
    ⟨((he.lastVec v hv).1).trans (Nat.lt_succ_self _), (he.lastVec v hv).2⟩⟩

theorem Sound.newVec {f : Addr} {base : Option Addr} (he : e.Sound)
    (h : e.newVec f base = some e') : e'.Sound := by
  obtain ⟨hphase, hbase, rfl⟩ := newVec_eq h
  refine ⟨Model.sound_addVec he.model (Model.SameItems.refl _) (List.Sublist.refl _)
    (of_all_inFrame hbase), he.curr, fun v hv => ?_⟩
  obtain ⟨hlt, hframe⟩ := he.lastVec v hv
  refine ⟨hlt.trans (Nat.lt_succ_self _), ?_⟩
  dsimp only
  rw [Function.update_of_ne (Nat.ne_of_lt hlt)]
  exact hframe

theorem Sound.moveTo {v : Addr} {to_ : Option Addr} (he : e.Sound)
    (h : e.moveTo v to_ = some e') : e'.Sound := by
  obtain ⟨-, -, -, hto, mark, marked, -, rfl, rfl⟩ := moveTo_eq h
  have hrest : ((e.model.vecs (e.model.vec v).frame).dropWhile (· ≠ v)).tail.Sublist
      (e.model.vecs (e.model.vec v).frame) :=
    (List.tail_sublist _).trans (List.dropWhile_sublist _)
  exact ⟨Model.sound_rebase he.model (of_all_inFrame hto) (movedVecs_perm hrest), he.curr,
    fun _ => he.lastVec_rebased v to_⟩

theorem Sound.delete {op : DeleteOp} (he : e.Sound) (h : e.delete op = some e') : e'.Sound := by
  obtain ⟨hdelete, m, hm, rfl⟩ := delete_eq h
  have hshrinks := Model.shrinks_delete hm
  refine ⟨Model.sound_delete he.model hm, fun hphase => ?_, fun v hv => ?_⟩
  · rw [Model.frames_delete he.model.distinct he.model.placed hm]
    refine ⟨he.curr hphase, ?_⟩
    rintro f rfl rfl
    rw [deletable, Bool.and_eq_true, Bool.or_eq_true, decide_eq_true_iff, decide_eq_true_iff,
      decide_eq_true_iff] at hdelete
    exact hdelete.2.elim hphase fun hne => hne rfl
  · dsimp only
    rw [hshrinks.vec]
    exact he.lastVec v hv

/-- **Every edit keeps the invariant.** -/
theorem Sound.step (he : e.Sound) {edit : Edit} (h : e.step edit = some e') : e'.Sound := by
  cases edit with
  | frameDef =>
    obtain ⟨-, rfl⟩ := frameDef_eq h
    exact ⟨Model.sound_addFrame he.model, fun _ => mem_take_cons_drop.mpr (.inl rfl), nofun⟩
  | frameEnd =>
    obtain ⟨hphase, rfl⟩ := frameEnd_eq h
    refine ⟨he.model, fun _ => root_mem (he.curr ?_), nofun⟩
    rw [hphase]
    exact EditPhase.noConfusion
  | items =>
    obtain ⟨hphase, rfl⟩ := items_eq h
    refine ⟨he.model, fun _ => he.curr ?_, he.lastVec⟩
    rw [hphase]
    exact EditPhase.noConfusion
  | finish =>
    cases finish_eq h
    exact ⟨he.model, fun hgui => absurd rfl hgui, he.lastVec⟩
  | vec base => exact he.vec h
  | item base others =>
    obtain ⟨b, os, hb, -, rfl⟩ := item_eq h
    exact he.addObj (fun v hv => (he.baseVec hb v hv).1) (fun g => ObjNodeKind.noConfusion)
      fun g v => ObjNodeKind.noConfusion
  | ref g base => exact he.ref h
  | meas base high quals => exact he.meas h
  | move v to_ => exact he.move h
  | moveObj o anchor to_ => exact he.moveObj h
  | link g f base => exact he.link h
  | newVec f base => exact he.newVec h
  | moveTo v to_ => exact he.moveTo h
  | delete op => exact he.delete h
  | undelete =>
    obtain ⟨hphase, m, hm, rfl⟩ := undelete_eq h
    refine ⟨Model.sound_undelete he.model hm, fun hgui => absurd hphase hgui, fun v hv => ?_⟩
    rw [(Model.undelete_fixed hm).vec]
    exact he.lastVec v hv

theorem sound_start (mark : Addr → Bool) : (start mark).Sound where
  model := by
    have hnil : ∀ n, Model.Within n ([] ++ []) := fun n =>
      ⟨List.nodup_nil, fun x hx => absurd hx List.not_mem_nil⟩
    refine ⟨⟨?_, fun _ => hnil 1, fun _ => hnil 1⟩, fun d hd => absurd hd List.not_mem_nil,
      ⟨fun _ v hv => absurd hv List.not_mem_nil, fun _ o ho => absurd ho List.not_mem_nil⟩,
      ⟨fun _ b hb => ?_, fun _ g b hg => ?_⟩, ⟨fun _ => rfl, fun _ => rfl, fun _ => rfl, fun _ => rfl⟩,
      ⟨fun _ b hb => ?_, fun _ b hb => ?_, fun _ g hg => ?_⟩⟩
    · exact (hnil 0).add (List.Sublist.refl _)
    · cases hb
    · cases hg
    · cases hb
    · cases hb
    · cases hg
  curr _ := List.mem_cons_self
  lastVec v hv := by cases hv

end Openmoko.Fped.Editor
