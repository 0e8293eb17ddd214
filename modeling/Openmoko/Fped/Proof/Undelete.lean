import Mathlib.Data.List.InsertIdx
import Openmoko.Fped.Proof.References

/-!
# Undeleting takes a deletion back

The steps of a cascade are taken back from the last to the first, so that each finds the lists as it
has left them. What is not taken back is the search for another active reference.
-/

namespace Openmoko.Fped.Model

open Relation

theorem takeColumn_of_notMem {n : ℕ} {rows column : List Addr} {values values' : Addr → List Addr}
    (h : takeColumn n rows values = some (column, values')) {r : Addr} (hr : r ∉ rows) :
    values' r = values r := by
  induction rows generalizing column values values' with
  | nil =>
    cases h
    rfl
  | cons a rows ih =>
    rw [List.mem_cons, not_or] at hr
    obtain ⟨x, -, h⟩ := Option.bind_eq_some_iff.mp h
    obtain ⟨⟨column', values''⟩, hrest, heq⟩ := Option.bind_eq_some_iff.mp h
    cases heq
    rw [ih hrest hr.2, Function.update_of_ne hr.1]

theorem putColumn_update (n : ℕ) {rows : List Addr} {r : Addr} (hr : r ∉ rows) (l : List Addr)
    (column : List Addr) (values : Addr → List Addr) :
    putColumn n rows column (Function.update values r l) =
      (putColumn n rows column values).map fun values => Function.update values r l := by
  induction rows generalizing column values with
  | nil => rfl
  | cons a rows ih =>
    rw [List.mem_cons, not_or] at hr
    cases column with
    | nil => rfl
    | cons x column =>
      rw [putColumn, putColumn, Function.update_of_ne (Ne.symm hr.1)]
      by_cases hlength : n ≤ (values a).length
      · rw [if_pos hlength, if_pos hlength, Function.update_comm hr.1, ih hr.2]
      · rw [if_neg hlength, if_neg hlength]
        rfl

theorem putColumn_takeColumn {n : ℕ} {rows column : List Addr} {values values' : Addr → List Addr}
    (hrows : rows.Nodup) (h : takeColumn n rows values = some (column, values')) :
    putColumn n rows column values' = some values := by
  induction rows generalizing column values values' with
  | nil =>
    cases h
    rfl
  | cons r rows ih =>
    obtain ⟨hr, hrows⟩ := List.nodup_cons.mp hrows
    obtain ⟨x, hx, h⟩ := Option.bind_eq_some_iff.mp h
    obtain ⟨⟨column', values''⟩, hrest, heq⟩ := Option.bind_eq_some_iff.mp h
    cases heq
    obtain ⟨hn, rfl⟩ := List.getElem?_eq_some_iff.mp hx
    have hvalues : values' r = (values r).eraseIdx n := by
      rw [takeColumn_of_notMem hrest hr, Function.update_self]
    have hlength : n ≤ ((values r).eraseIdx n).length := by
      rw [List.length_eraseIdx_of_lt hn]
      omega
    rw [putColumn, hvalues, if_pos hlength, putColumn_update n hr, ih hrows hrest,
      Option.map_some, List.insertIdx_eraseIdx_getElem hn, Function.update_idem,
      Function.update_eq_self]

/-! ### Taking back the steps -/

def undoAll (deletions : List Deletion) (m : Model) : Option Model :=
  deletions.foldlM (fun m d => m.undeleteItem d.item) m

def listsWith (m : Model) (activeRef : Addr → Option Addr) (deletions : List Deletion)
    (groups : ℕ) : Model :=
  { m with activeRef := activeRef, deletions := deletions, groups := groups }

def Undoes (m m' : Model) : Prop :=
  ∃ ds, m'.deletions = ds ++ m.deletions ∧ (∀ d ∈ ds, d.group = m.groups) ∧
    ∀ activeRef deletions groups,
      undoAll ds (m'.listsWith activeRef deletions groups) =
        some (m.listsWith activeRef deletions groups)

theorem Undoes.refl (m : Model) : m.Undoes m :=
  ⟨[], rfl, fun _ hd => absurd hd List.not_mem_nil, fun _ _ _ => rfl⟩

variable {m m' : Model} {op : DeleteOp} {ops : List DeleteOp}

theorem Undoes.trans {m'' : Model} (h : m.Undoes m') (h' : m'.Undoes m'')
    (hgroups : m'.groups = m.groups) : m.Undoes m'' := by
  obtain ⟨ds, hds, hgroup, hundo⟩ := h
  obtain ⟨ds', hds', hgroup', hundo'⟩ := h'
  refine ⟨ds' ++ ds, by rw [hds', hds, List.append_assoc], ?_, ?_⟩
  · intro d hd
    obtain hd | hd := List.mem_append.mp hd
    · rw [hgroup' d hd, hgroups]
    · exact hgroup d hd
  · intro activeRef deletions groups
    rw [undoAll, List.foldlM_append]
    exact Option.bind_eq_some_iff.mpr ⟨_, hundo' activeRef deletions groups, hundo _ _ _⟩

theorem undoes_newDeletion {item : Deleted} (hdeletions : m'.deletions = m.deletions)
    (hgroups : m'.groups = m.groups)
    (hundo : ∀ activeRef deletions groups,
      (m'.listsWith activeRef deletions groups).undeleteItem item =
        some (m.listsWith activeRef deletions groups)) : m.Undoes (m'.newDeletion item) := by
  refine ⟨[{ item := item, group := m'.groups }], by rw [← hdeletions]; rfl, ?_, ?_⟩
  · intro d hd
    rw [List.mem_singleton.mp hd]
    exact hgroups
  · intro activeRef deletions groups
    have := hundo activeRef deletions groups
    rw [undoAll, List.foldlM_cons]
    exact Option.bind_eq_some_iff.mpr ⟨_, this, rfl⟩

theorem DeleteStep.undoes (hm : m.Distinct) (h : DeleteStep m m') : m.Undoes m' := by
  cases h with
  | vec v h =>
    obtain ⟨u, hu, rfl⟩ := unlinkVec_eq h
    refine undoes_newDeletion rfl rfl fun activeRef deletions groups => ?_
    simp only [undeleteItem, listsWith, Function.update_self, relink_unlink (hm.vecs _) hu,
      Option.bind_eq_bind, Option.bind_some, Option.pure_def, Function.update_idem,
      Function.update_eq_self]
  | obj o h =>
    obtain ⟨u, hu, rfl⟩ := unlinkObj_eq h
    refine undoes_newDeletion rfl rfl fun activeRef deletions groups => ?_
    simp only [undeleteItem, listsWith, Function.update_self, relink_unlink (hm.objs _) hu,
      Option.bind_eq_bind, Option.bind_some, Option.pure_def, Function.update_idem,
      Function.update_eq_self]
  | frame f h =>
    obtain ⟨u, hu, rfl⟩ := unlinkFrame_eq h
    refine undoes_newDeletion rfl rfl fun activeRef deletions groups => ?_
    simp only [undeleteItem, listsWith, relink_unlink hm.frames hu, Option.bind_eq_bind,
      Option.bind_some, Option.pure_def]
  | row r h =>
    obtain ⟨u, hu, rfl⟩ := unlinkRow_eq h
    refine undoes_newDeletion rfl rfl fun activeRef deletions groups => ?_
    simp only [undeleteItem, listsWith, Function.update_self, relink_unlink (hm.rows _) hu,
      Option.bind_eq_bind, Option.bind_some, Option.pure_def, Function.update_idem,
      Function.update_eq_self]
  | column t n h =>
    obtain ⟨var, column, values, hvar, hcolumn, rfl⟩ := unlinkColumn_eq h
    obtain ⟨hn, rfl⟩ := List.getElem?_eq_some_iff.mp hvar
    have hlength : n ≤ ((m.vars t).eraseIdx n).length := by
      rw [List.length_eraseIdx_of_lt hn]
      omega
    refine undoes_newDeletion rfl rfl fun activeRef deletions groups => ?_
    simp only [undeleteItem, listsWith, putColumn_takeColumn (hm.rows t) hcolumn,
      Option.bind_eq_bind, Option.bind_some, Option.pure_def, Function.update_self,
      if_pos hlength, List.insertIdx_eraseIdx_getElem hn, Function.update_idem,
      Function.update_eq_self]
  | table t h =>
    obtain ⟨f, u, hf, hu, rfl⟩ := unlinkTable_eq h
    refine undoes_newDeletion rfl rfl fun activeRef deletions groups => ?_
    have hframe : frameOfTable
        { m with
          tables := Function.update m.tables f u.rest
          activeRef := activeRef
          deletions := deletions
          groups := groups } t = some f := hf
    simp only [undeleteItem, listsWith, hframe, Function.update_self,
      relink_unlink (hm.tables f) hu, Option.bind_eq_bind, Option.bind_some, Option.pure_def,
      Function.update_idem, Function.update_eq_self]
  | loop l h =>
    obtain ⟨u, hu, rfl⟩ := unlinkLoop_eq h
    refine undoes_newDeletion rfl rfl fun activeRef deletions groups => ?_
    simp only [undeleteItem, listsWith, Function.update_self, relink_unlink (hm.loops _) hu,
      Option.bind_eq_bind, Option.bind_some, Option.pure_def, Function.update_idem,
      Function.update_eq_self]
  | reset o =>
    rw [resetRefsOf_eq]
    exact ⟨[], rfl, fun _ hd => absurd hd List.not_mem_nil, fun _ _ _ => rfl⟩

theorem DeleteStep.groups (h : DeleteStep m m') : m'.groups = m.groups := by
  cases h with
  | vec v h => obtain ⟨u, -, rfl⟩ := unlinkVec_eq h; rfl
  | obj o h => obtain ⟨u, -, rfl⟩ := unlinkObj_eq h; rfl
  | frame f h => obtain ⟨u, -, rfl⟩ := unlinkFrame_eq h; rfl
  | row r h => obtain ⟨u, -, rfl⟩ := unlinkRow_eq h; rfl
  | column t n h => obtain ⟨var, column, values, -, -, rfl⟩ := unlinkColumn_eq h; rfl
  | table t h => obtain ⟨f, u, -, -, rfl⟩ := unlinkTable_eq h; rfl
  | loop l h => obtain ⟨u, -, rfl⟩ := unlinkLoop_eq h; rfl
  | reset o => rw [resetRefsOf_eq]

theorem DeleteSteps.groups (h : DeleteSteps m m') : m'.groups = m.groups := by
  induction h with
  | refl => rfl
  | tail _ hstep ih => exact hstep.groups.trans ih

theorem DeleteSteps.undoes (hm : m.Distinct) (h : DeleteSteps m m') : m.Undoes m' := by
  induction h with
  | refl => exact Undoes.refl m
  | tail hsteps hstep ih =>
    exact ih.trans (hstep.undoes (hm.shrinks (DeleteSteps.shrinks hsteps)))
      (DeleteSteps.groups hsteps)

/-! ### One deletion and one undeletion -/

theorem undeleteGroup_append {group : ℕ} {ds rest : List Deletion} {s : Model}
    (hds : ∀ d ∈ ds, d.group = group) (hrest : ∀ d ∈ rest, d.group ≠ group)
    (h : undoAll ds m = some s) :
    undeleteGroup group (ds ++ rest) m = some { s with deletions := rest } := by
  induction ds generalizing m with
  | nil =>
    cases h
    rw [List.nil_append]
    cases rest with
    | nil => rfl
    | cons d rest => rw [undeleteGroup, if_neg (hrest d List.mem_cons_self)]
  | cons d ds ih =>
    rw [undoAll, List.foldlM_cons] at h
    obtain ⟨t, ht, h⟩ := Option.bind_eq_some_iff.mp h
    rw [List.cons_append, undeleteGroup, if_pos (hds d List.mem_cons_self), ht]
    exact ih (fun d hd => hds d (List.mem_cons_of_mem _ hd)) h

theorem exists_first_step (h : m.delete op = some m') :
    ∃ m1 d, m1.deletions = d :: m.deletions ∧ DeleteStep m.newGroup m1 ∧ DeleteSteps m1 m' := by
  cases op with
  | vec v =>
    obtain ⟨n, hn⟩ : ∃ n, (m.vecs (m.vec v).frame).length = n + 1 := by
      apply Nat.exists_eq_succ_of_ne_zero
      intro hzero
      change doDeleteVec (m.vecs (m.vec v).frame).length m.newGroup v = some m' at h
      rw [hzero] at h
      cases h
    change doDeleteVec (m.vecs (m.vec v).frame).length m.newGroup v = some m' at h
    rw [hn] at h
    obtain ⟨m1, m2, m3, h1, h2, h3, hroot⟩ := exists_of_doDeleteVec h
    have hsteps : DeleteSteps m1 m' := by
      have hvecs : DeleteSteps m1 m2 := foldlM_preserves (DeleteSteps m1) (by
        intro s w s' hs hstep
        by_cases hbase : (s.vec w).base = some v
        · rw [if_pos hbase] at hstep
          exact hs.trans (deleteSteps_doDeleteVec hstep)
        · rw [if_neg hbase] at hstep
          cases hstep
          exact hs) ReflTransGen.refl h2
      have hobjs := hvecs.trans (deleteSteps_deleteObjsByRef h3)
      obtain ⟨-, rfl⟩ | ⟨root, -, hroot⟩ := hroot
      · exact hobjs
      · exact hobjs.trans (deleteSteps_deleteObjsByRef hroot)
    have hstep := DeleteStep.vec v h1
    obtain ⟨u, -, rfl⟩ := unlinkVec_eq h1
    exact ⟨_, _, rfl, hstep, hsteps⟩
  | obj o =>
    obtain ⟨m1, h1, hreset⟩ := Option.bind_eq_some_iff.mp h
    cases hreset
    have hstep := DeleteStep.obj o h1
    obtain ⟨u, -, rfl⟩ := unlinkObj_eq h1
    exact ⟨_, _, rfl, hstep, ReflTransGen.single (.reset _ o)⟩
  | frame f =>
    obtain ⟨m1, h1, h2⟩ := Option.bind_eq_some_iff.mp h
    have hstep := DeleteStep.frame f h1
    obtain ⟨u, -, rfl⟩ := unlinkFrame_eq h1
    exact ⟨_, _, rfl, hstep, deleteSteps_deleteReferences h2⟩
  | table t =>
    have hstep := DeleteStep.table t h
    obtain ⟨f, u, -, -, rfl⟩ := unlinkTable_eq h
    exact ⟨_, _, rfl, hstep, ReflTransGen.refl⟩
  | row r =>
    have hstep := DeleteStep.row r h
    obtain ⟨u, -, rfl⟩ := unlinkRow_eq h
    exact ⟨_, _, rfl, hstep, ReflTransGen.refl⟩
  | column t n =>
    have hstep := DeleteStep.column t n h
    obtain ⟨var, column, values, -, -, rfl⟩ := unlinkColumn_eq h
    exact ⟨_, _, rfl, hstep, ReflTransGen.refl⟩
  | loop l =>
    have hstep := DeleteStep.loop l h
    obtain ⟨u, -, rfl⟩ := unlinkLoop_eq h
    exact ⟨_, _, rfl, hstep, ReflTransGen.refl⟩

theorem exists_group_of_delete (hm : m.Distinct) (h : m.delete op = some m') :
    ∃ d ds, m'.deletions = d :: ds ++ m.deletions ∧ (∀ e ∈ d :: ds, e.group = m.groups + 1) ∧
      ∀ activeRef deletions groups,
        undoAll (d :: ds) (m'.listsWith activeRef deletions groups) =
          some (m.listsWith activeRef deletions groups) := by
  have hdistinct := hm.shrinks m.shrinks_newGroup
  obtain ⟨m1, e, hdeletions, hfirst, hsteps⟩ := exists_first_step h
  have hone := ReflTransGen.single hfirst
  obtain ⟨ds1, hds1, hgroup1, hundo1⟩ := DeleteSteps.undoes hdistinct hone
  obtain ⟨ds2, hds2, hgroup2, hundo2⟩ :=
    DeleteSteps.undoes (hdistinct.shrinks hfirst.shrinks) hsteps
  have hsingle : ds1 = [e] := List.append_cancel_right (hds1.symm.trans hdeletions)
  subst hsingle
  obtain ⟨d, ds, hcons⟩ : ∃ d ds, ds2 ++ [e] = d :: ds := by
    cases ds2 with
    | nil => exact ⟨e, [], rfl⟩
    | cons d ds2 => exact ⟨d, ds2 ++ [e], rfl⟩
  refine ⟨d, ds, ?_, ?_, ?_⟩
  · rw [← hcons, hds2, hds1, List.append_assoc]
    rfl
  · rw [← hcons]
    intro x hx
    obtain hx | hx := List.mem_append.mp hx
    · rw [hgroup2 x hx, hfirst.groups]
      rfl
    · exact hgroup1 x hx
  · intro activeRef deletions groups
    rw [← hcons, undoAll, List.foldlM_append]
    exact Option.bind_eq_some_iff.mpr
      ⟨_, hundo2 activeRef deletions groups, hundo1 activeRef deletions groups⟩

def GroupsPast (m : Model) : Prop := ∀ d ∈ m.deletions, d.group ≤ m.groups

theorem undelete_delete (hm : m.Distinct) (hpast : m.GroupsPast)
    (h : m.delete op = some m') (activeRef : Addr → Option Addr) (groups : ℕ) :
    (m'.listsWith activeRef m'.deletions groups).undelete =
      some (m.listsWith activeRef m.deletions groups) := by
  obtain ⟨d, ds, hdeletions, hgroup, hundo⟩ := exists_group_of_delete hm h
  have hrest : ∀ e ∈ m.deletions, e.group ≠ m.groups + 1 := fun e he =>
    Nat.ne_of_lt (Nat.lt_succ_of_le (hpast e he))
  have happend := undeleteGroup_append hgroup hrest (hundo activeRef m'.deletions groups)
  have hundelete : (m'.listsWith activeRef m'.deletions groups).undelete =
      undeleteGroup d.group (d :: ds ++ m.deletions)
        (m'.listsWith activeRef m'.deletions groups) := by
    have hlisted : (m'.listsWith activeRef m'.deletions groups).deletions =
        d :: ds ++ m.deletions := hdeletions
    rw [undelete, hlisted]
    rfl
  rw [hundelete, hgroup d List.mem_cons_self, happend]
  rfl

theorem groupsPast_delete (hm : m.Distinct) (hpast : m.GroupsPast)
    (h : m.delete op = some m') : m'.GroupsPast := by
  obtain ⟨d, ds, hdeletions, hgroup, -⟩ := exists_group_of_delete hm h
  intro e he
  have hgroups : m'.groups = m.groups + 1 := DeleteSteps.groups (deleteSteps_delete h)
  rw [hgroups]
  rw [hdeletions] at he
  obtain he | he := List.mem_append.mp he
  · exact Nat.le_of_eq (hgroup e he)
  · exact (hpast e he).trans (Nat.le_succ _)

structure WellFormed (m : Model) : Prop where
  distinct : m.Distinct
  placed : m.Placed
  sameFrame : m.SameFrame
  refsListed : m.RefsListed
  activeSound : m.ActiveSound
  groupsPast : m.GroupsPast

theorem WellFormed.delete (hm : m.WellFormed) (h : m.delete op = some m') : m'.WellFormed where
  distinct := hm.distinct.shrinks (shrinks_delete h)
  placed := hm.placed.shrinks (shrinks_delete h)
  sameFrame := hm.sameFrame.shrinks (shrinks_delete h)
  refsListed := refsListed_delete hm.distinct hm.placed hm.refsListed h
  activeSound := activeSound_delete hm.distinct hm.placed hm.activeSound h
  groupsPast := groupsPast_delete hm.distinct hm.groupsPast h

def deleteAll (m : Model) (ops : List DeleteOp) : Option Model := ops.foldlM delete m

def undeleteTimes : ℕ → Model → Option Model
  | 0, m => some m
  | k + 1, m => (undeleteTimes k m).bind undelete

def AllListed : Model → List DeleteOp → Prop
  | _, [] => True
  | m, op :: ops => m.Listed op ∧ ∀ m', m.delete op = some m' → AllListed m' ops

def SparesActive : Model → List DeleteOp → Prop
  | _, [] => True
  | m, op :: ops => (∀ g o, m.activeRef g = some o → ¬m.Removed op o) ∧
      ∀ m', m.delete op = some m' → SparesActive m' ops

structure SameLists (m m' : Model) : Prop where
  frames : m'.frames = m.frames
  vecs : m'.vecs = m.vecs
  objs : m'.objs = m.objs
  tables : m'.tables = m.tables
  loops : m'.loops = m.loops
  vars : m'.vars = m.vars
  rows : m'.rows = m.rows
  values : m'.values = m.values

/-- As many undeletions as deletions succeed and lead back to the lists and active references. -/
def Inverse (m : Model) (ops : List DeleteOp) : Prop :=
  ∃ m' m'', m.deleteAll ops = some m' ∧ undeleteTimes ops.length m' = some m'' ∧
    m.SameLists m'' ∧ ∀ f ∈ m.frames, m''.activeRef f = m.activeRef f

theorem deleteAll_isSome (hm : m.WellFormed)
    (h : m.AllListed ops) : ∃ m', m.deleteAll ops = some m' := by
  induction ops generalizing m with
  | nil => exact ⟨m, rfl⟩
  | cons op ops ih =>
    obtain ⟨m1, h1⟩ := delete_isSome hm.distinct hm.placed h.1
    obtain ⟨m', h'⟩ := ih (hm.delete h1) (h.2 m1 h1)
    refine ⟨m', ?_⟩
    rw [deleteAll, List.foldlM_cons]
    exact Option.bind_eq_some_iff.mpr ⟨m1, h1, h'⟩

/-- **The lists.** Undeleting as often as was deleted leads back to them. -/
theorem undeleteTimes_deleteAll (hm : m.WellFormed)
    (h : m.deleteAll ops = some m') (activeRef : Addr → Option Addr) (groups : ℕ) :
    undeleteTimes ops.length (m'.listsWith activeRef m'.deletions groups) =
      some (m.listsWith activeRef m.deletions groups) := by
  induction ops generalizing m with
  | nil =>
    cases h
    rfl
  | cons op ops ih =>
    rw [deleteAll, List.foldlM_cons] at h
    obtain ⟨m1, h1, h⟩ := Option.bind_eq_some_iff.mp h
    rw [List.length_cons, undeleteTimes, ih (hm.delete h1) h, Option.bind_some]
    exact undelete_delete hm.distinct hm.groupsPast h1 activeRef groups

/-! ### The active references -/

theorem activeRef_of_spares (hm : m.WellFormed)
    (h : m.delete op = some m') (hspares : ∀ g o, m.activeRef g = some o → ¬m.Removed op o) :
    m'.activeRef = m.activeRef := by
  funext g
  obtain heq | ⟨o, ho, hgone⟩ := activeRef_delete hm.distinct hm.placed h g
  · exact heq
  · obtain ⟨href, hlive⟩ := hm.activeSound g o ho
    exact absurd ((live_delete_iff hm.distinct hm.placed hm.sameFrame h hlive href).mpr
      (hspares g o ho)) hgone

theorem shrinks_deleteAll (h : m.deleteAll ops = some m') : m.Shrinks m' :=
  foldlM_preserves (fun s => m.Shrinks s) (fun _ _ _ hs hstep => hs.trans (shrinks_delete hstep))
    (Shrinks.refl m) h

theorem WellFormed.deleteAll (hm : m.WellFormed) (h : m.deleteAll ops = some m') : m'.WellFormed :=
  foldlM_preserves WellFormed (fun _ _ _ hs hstep => hs.delete hstep) hm h

theorem activeRef_deleteAll (hm : m.WellFormed)
    (h : m.deleteAll ops = some m') (hspares : m.SparesActive ops) :
    m'.activeRef = m.activeRef := by
  induction ops generalizing m with
  | nil =>
    cases h
    rfl
  | cons op ops ih =>
    rw [Model.deleteAll, List.foldlM_cons] at h
    obtain ⟨m1, h1, h⟩ := Option.bind_eq_some_iff.mp h
    rw [ih (hm.delete h1) h (hspares.2 m1 h1), activeRef_of_spares hm h1 hspares.1]

theorem exists_of_not_spares (hm : m.WellFormed)
    (h : m.deleteAll ops = some m') (hnot : ¬m.SparesActive ops) :
    ∃ g ∈ m.frames, m'.activeRef g ≠ m.activeRef g := by
  induction ops generalizing m with
  | nil => exact absurd trivial hnot
  | cons op ops ih =>
    have hm' := hm.deleteAll h
    rw [Model.deleteAll, List.foldlM_cons] at h
    obtain ⟨m1, h1, h⟩ := Option.bind_eq_some_iff.mp h
    by_cases hspares : ∀ g o, m.activeRef g = some o → ¬m.Removed op o
    · have hrest : ¬m1.SparesActive ops := by
        refine fun hrest => hnot ⟨hspares, fun m2 h2 => ?_⟩
        cases h1.symm.trans h2
        exact hrest
      obtain ⟨g, hg, hne⟩ := ih (hm.delete h1) h hrest
      rw [activeRef_of_spares hm h1 hspares] at hne
      exact ⟨g, (shrinks_delete h1).frames.subset hg, hne⟩
    · push Not at hspares
      obtain ⟨g, o, ho, hremoved⟩ := hspares
      obtain ⟨href, hlive⟩ := hm.activeSound g o ho
      refine ⟨g, hm.refsListed o g hlive href, fun heq => ?_⟩
      have hgone := mt (live_delete_iff hm.distinct hm.placed hm.sameFrame h1 hlive href).mp
        (not_not.mpr hremoved)
      exact hgone ((hm'.activeSound g o (heq.trans ho)).2.of_shrinks (shrinks_deleteAll h))

/-- **When undeleting is the inverse of deleting.** The lists always come back; everything does just
when no deletion removes an active reference. -/
theorem inverse_iff_sparesActive (m : Model) (ops : List DeleteOp) (hm : m.WellFormed)
    (hlisted : m.AllListed ops) : m.Inverse ops ↔ m.SparesActive ops := by
  obtain ⟨m', h⟩ := deleteAll_isSome hm hlisted
  have hundo : undeleteTimes ops.length m' =
      some (m.listsWith m'.activeRef m.deletions m'.groups) :=
    undeleteTimes_deleteAll hm h m'.activeRef m'.groups
  constructor
  · rintro ⟨s, s', hs, hs', -, hactive⟩
    cases h.symm.trans hs
    cases hundo.symm.trans hs'
    by_contra hnot
    obtain ⟨g, hg, hne⟩ := exists_of_not_spares hm h hnot
    exact hne (hactive g hg)
  · intro hspares
    refine ⟨m', _, h, hundo, ⟨rfl, rfl, rfl, rfl, rfl, rfl, rfl, rfl⟩, fun f _ => ?_⟩
    exact congrFun (activeRef_deleteAll hm h hspares) f

/-- A root frame with two references to the other frame, of which the first is active. -/
def twoRefs : Model where
  frames := [0, 1]
  vecs _ := []
  objs f := if f = 0 then [10, 11] else []
  tables _ := []
  loops _ := []
  vars _ := []
  rows _ := []
  values _ := []
  activeRef f := if f = 1 then some 10 else none
  activeRow _ := none
  vec _ := { frame := 0, base := none }
  obj _ := { frame := 0, base := none, kind := .frame 1 }
  var _ := { name := [], frame := 0, table := 0 }
  row _ := 0
  value _ := { expr := .string [], row := 0 }
  loop _ := { name := [], frame := 0 }
  deletions := []
  groups := 0

theorem wellFormed_twoRefs : twoRefs.WellFormed where
  distinct := by
    refine ⟨by decide, fun _ => List.nodup_nil, fun f => ?_, fun _ => List.nodup_nil,
      fun _ => List.nodup_nil, fun _ => List.nodup_nil⟩
    change (if f = 0 then [10, 11] else []).Nodup
    split <;> decide
  placed := by
    refine ⟨fun f v hv => absurd hv List.not_mem_nil, fun f o ho => ?_⟩
    change o ∈ if f = 0 then [10, 11] else [] at ho
    by_cases hf : f = 0
    · exact hf.symm
    · rw [if_neg hf] at ho
      exact absurd ho List.not_mem_nil
  sameFrame := ⟨fun _ _ h => absurd h (Option.some_ne_none _).symm,
    fun _ _ _ _ h => absurd h (Option.some_ne_none _).symm⟩
  refsListed := by
    intro o g _ href
    cases href
    exact List.mem_cons_of_mem _ List.mem_cons_self
  activeSound := by
    intro g o ho
    change (if g = 1 then some 10 else none) = some o at ho
    by_cases hg : g = 1
    · rw [if_pos hg] at ho
      cases ho
      exact ⟨by rw [hg]; rfl, 0, List.mem_cons_self, List.mem_cons_self⟩
    · rw [if_neg hg] at ho
      cases ho
  groupsPast := fun d hd => absurd hd List.not_mem_nil

theorem inverse_twoRefs : twoRefs.Inverse [.obj 11] := by
  apply (inverse_iff_sparesActive twoRefs [.obj 11] wellFormed_twoRefs
    ⟨List.mem_cons_of_mem _ List.mem_cons_self, fun _ _ => trivial⟩).mpr
  refine ⟨fun g o ho hremoved => ?_, fun _ _ => trivial⟩
  change (if g = 1 then some 10 else none) = some o at ho
  change o = 11 at hremoved
  subst hremoved
  split at ho <;> cases ho

/-- The search ends in the second frame, which has no references, and undeleting does not search. -/
theorem not_inverse_twoRefs : ¬twoRefs.Inverse [.obj 10] := by
  rintro ⟨m', m'', h, h', -, hactive⟩
  have hrun : ((twoRefs.deleteAll [.obj 10]).bind (undeleteTimes 1)).map (fun m => m.activeRef 1) =
      some none := rfl
  rw [h, Option.bind_some] at hrun
  change undeleteTimes 1 m' = some m'' at h'
  rw [h', Option.map_some, Option.some.injEq] at hrun
  have hsome := hactive 1 (List.mem_cons_of_mem _ List.mem_cons_self)
  rw [hrun] at hsome
  cases hsome

end Openmoko.Fped.Model
