import Openmoko.Fped.Proof.DeleteCascade

/-!
# References to frames under deletions

Which references a deletion removes can be told beforehand, and an active reference only changes when
it is one of them.
-/

namespace Openmoko.Fped.Model

def Live (m : Model) (o : Addr) : Prop := ∃ f ∈ m.frames, o ∈ m.objs f

def RefersTo (m : Model) (o g : Addr) : Prop := (m.obj o).kind = .frame g

/-- A base lies in the frame of what is based on it. -/
structure SameFrame (m : Model) : Prop where
  vec : ∀ w b, (m.vec w).base = some b → (m.vec b).frame = (m.vec w).frame
  ref : ∀ o g b, m.RefersTo o g → (m.obj o).base = some b → (m.vec b).frame = (m.obj o).frame

def Removed (m : Model) (op : DeleteOp) (o : Addr) : Prop :=
  match op with
  | .vec v => ∃ w, m.Depends v w ∧ (m.obj o).base = some w
  | .obj o' => o = o'
  | .frame f => (m.obj o).frame = f ∨ m.RefersTo o f
  | _ => False

variable {m m' : Model} {o f : Addr} {op : DeleteOp}

theorem Live.of_shrinks (h : m.Shrinks m') (ho : m'.Live o) : m.Live o := by
  obtain ⟨f, hf, ho⟩ := ho
  exact ⟨f, h.frames.subset hf, (h.objs f).subset ho⟩

theorem SameFrame.shrinks (hm : m.SameFrame) (h : m.Shrinks m') : m'.SameFrame where
  vec := by
    rw [h.vec]
    exact hm.vec
  ref := by
    unfold RefersTo
    rw [h.vec, h.obj]
    exact hm.ref

theorem refersTo_shrinks (h : m.Shrinks m') : m'.RefersTo = m.RefersTo := by
  funext o g
  rw [RefersTo, RefersTo, h.obj]

theorem objHasRef_of_refersTo {g : Addr} (h : m.RefersTo o g) (w : Addr) :
    m.objHasRef o w = true ↔ (m.obj o).base = some w := by
  rw [RefersTo] at h
  rw [objHasRef, h, Bool.or_false, decide_eq_true_iff]

theorem needs_of_refersTo {g : Addr} (h : m.RefersTo o g) (f : Addr) :
    m.needs f o = true ↔ g = f := by
  rw [RefersTo] at h
  rw [needs, h, decide_eq_true_iff]

/-! ### Which references are left -/

theorem notMem_of_depends {v w : Addr} (hm : m.SameFrame)
    (hv : v ∈ m.vecs (m.vec v).frame) (hclosed : Closed m m' (m.vec v).frame)
    (hgone : v ∉ m'.vecs (m.vec v).frame) (h : m.Depends v w) :
    (m.vec w).frame = (m.vec v).frame ∧ w ∈ m.vecs (m.vec v).frame ∧
      w ∉ m'.vecs (m.vec v).frame := by
  induction h with
  | self => exact ⟨rfl, hv, hgone⟩
  | @step w u hlisted hbase _ ih =>
    obtain ⟨hframe, hu, hnot⟩ := ih
    have hw : (m.vec w).frame = (m.vec v).frame := (hm.vec w u hbase).symm.trans hframe
    rw [hw] at hlisted
    exact ⟨hw, hlisted, fun hmem => hnot (hclosed.base w hmem u hbase hu)⟩

/-- With a vector go the references whose base depends on it. -/
theorem live_deleteVec_iff {v g : Addr} (hdistinct : m.Distinct)
    (hplaced : m.Placed) (hsame : m.SameFrame) (hv : v ∈ m.vecs (m.vec v).frame)
    (h : m.deleteVec v = some m') (ho : m.Live o) (href : m.RefersTo o g) :
    m'.Live o ↔ ¬m.Removed (.vec v) o := by
  have hgroup := m.shrinks_newGroup
  obtain ⟨hremoves, hgone⟩ :=
    removes_doDeleteVec (hdistinct.shrinks hgroup) (hplaced.shrinks hgroup) h
  have hdepends : ∀ w, m.newGroup.Depends v w ↔ m.Depends v w := fun w =>
    ⟨Depends.shrinks hgroup, Depends.shrinks m.newGroup_shrinks⟩
  obtain ⟨f, hf, hof⟩ := ho
  constructor
  · rintro ⟨f', hf', hof'⟩ ⟨w, hw, hbase⟩
    have hframe : f' = f := by
      rw [← hplaced.obj f o hof]
      exact (hplaced.obj f' o ((hremoves.steps.shrinks.objs f').subset hof')).symm
    subst hframe
    obtain ⟨hwframe, hlisted, hnot⟩ := notMem_of_depends (hsame.shrinks hgroup) hv
      hremoves.closed hgone ((hdepends w).mpr hw)
    have hwo := hsame.ref o g w href hbase
    rw [hplaced.obj f' o hof] at hwo
    have heq : (m.newGroup.vec v).frame = f' := hwframe.symm.trans hwo
    have hclosed := hremoves.closed
    rw [heq] at hlisted hnot hclosed
    exact hnot (hclosed.refs o hof' w ((objHasRef_of_refersTo href w).mpr hbase) hlisted)
  · intro hkept
    refine ⟨f, by rw [hremoves.frames]; exact hf, ?_⟩
    by_contra hnot
    obtain ⟨v', w, rfl, hw, hhas⟩ := hremoves.objs f o hof hnot
    exact hkept ⟨w, (hdepends w).mp hw, (objHasRef_of_refersTo href w).mp hhas⟩

theorem live_doDeleteObj_iff {o' : Addr} (hdistinct : m.Distinct)
    (hplaced : m.Placed) (h : m.doDeleteObj o' = some m') (o : Addr) :
    m'.Live o ↔ m.Live o ∧ o ≠ o' := by
  obtain ⟨-, hframes, -⟩ := doDeleteObj_eq h
  constructor
  · rintro ⟨f, hf, ho⟩
    rw [mem_objs_doDeleteObj hdistinct hplaced h] at ho
    exact ⟨⟨f, hframes ▸ hf, ho.1⟩, ho.2⟩
  · rintro ⟨⟨f, hf, ho⟩, hne⟩
    exact ⟨f, hframes ▸ hf, (mem_objs_doDeleteObj hdistinct hplaced h f o).mpr ⟨ho, hne⟩⟩

theorem needs_shrinks (h : m.Shrinks m') : m'.needs = m.needs := by
  funext ref o
  rw [needs, needs, h.obj, h.vec]

/-- The loops over the objects delete those that need the frame. -/
theorem mem_objs_deleteNeeding {l : List Addr} (hdistinct : m.Distinct) (hplaced : m.Placed)
    (h : l.foldlM (fun m g => (m.objs g).foldlM
      (fun m o => if m.needs f o then m.doDeleteObj o else some m) m) m = some m') (g o : Addr) :
    o ∈ m'.objs g ↔ o ∈ m.objs g ∧ ¬(g ∈ l ∧ m.needs f o = true) := by
  induction l generalizing m with
  | nil =>
    cases h
    simp
  | cons a l ih =>
    rw [List.foldlM_cons] at h
    obtain ⟨s, hs, hrest⟩ := Option.bind_eq_some_iff.mp h
    have hshrinks := (deleteSteps_deleteWhere (p := fun m o => m.needs f o) hs).shrinks
    have hinner := mem_objs_deleteWhere (p := fun m o => m.needs f o) (q := fun o => m.needs f o)
      hdistinct hplaced (fun s hs => by rw [needs_shrinks hs]) hs g o
    rw [ih (hdistinct.shrinks hshrinks) (hplaced.shrinks hshrinks) hrest, hinner,
      needs_shrinks hshrinks, List.mem_cons]
    constructor
    · rintro ⟨⟨ho, hnot⟩, hnot'⟩
      refine ⟨ho, ?_⟩
      rintro ⟨rfl | hg, hneeds⟩
      · exact hnot ⟨ho, hneeds⟩
      · exact hnot' ⟨hg, hneeds⟩
    · rintro ⟨ho, hnot⟩
      refine ⟨⟨ho, ?_⟩, fun ⟨hg, hneeds⟩ => hnot ⟨.inr hg, hneeds⟩⟩
      rintro ⟨hoa, hneeds⟩
      have : g = a := (hplaced.obj g o ho).symm.trans (hplaced.obj a o hoa)
      exact hnot ⟨.inl this, hneeds⟩

theorem foldl_resetRefsOf_eq (l : List Addr) (m : Model) :
    l.foldl resetRefsOf m = { m with activeRef := (l.foldl resetRefsOf m).activeRef } := by
  induction l generalizing m with
  | nil => rfl
  | cons o l ih =>
    rw [List.foldl_cons, ih, resetRefsOf_eq m o]

theorem exists_of_deleteFrame (h : m.deleteFrame f = some m') :
    ∃ m1 m2, m.newGroup.unlinkFrame f = some m1 ∧
      m1.frames.foldlM
        (fun m g => (m.objs g).foldlM
          (fun m o => if m.needs f o then m.doDeleteObj o else some m) m) m1 = some m2 ∧
      m' = (m2.objs f).foldl resetRefsOf m2 := by
  obtain ⟨m1, h1, h⟩ := Option.bind_eq_some_iff.mp h
  obtain ⟨m2, h2, hm⟩ := exists_of_deleteReferences h
  exact ⟨m1, m2, h1, h2, hm⟩

theorem frames_deleteNeeding {l : List Addr} (h : l.foldlM (fun m g => (m.objs g).foldlM
      (fun m o => if m.needs f o then m.doDeleteObj o else some m) m) m = some m') :
    m'.frames = m.frames :=
  deleteNeeding_preserves (fun s => s.frames = m.frames)
    (fun _ _ _ hs hstep => (doDeleteObj_eq hstep).2.1.trans hs) rfl h

/-- With a frame go its objects and the references to it. -/
theorem live_deleteFrame_iff {g : Addr} (hdistinct : m.Distinct)
    (hplaced : m.Placed) (h : m.deleteFrame f = some m') (ho : m.Live o) (href : m.RefersTo o g) :
    m'.Live o ↔ ¬m.Removed (.frame f) o := by
  obtain ⟨m1, m2, h1, h2, rfl⟩ := exists_of_deleteFrame h
  have hs1 : m.Shrinks m1 := m.shrinks_newGroup.trans (DeleteStep.frame f h1).shrinks
  have hlive : ((m2.objs f).foldl resetRefsOf m2).Live o ↔ m2.Live o := by
    rw [foldl_resetRefsOf_eq]
    rfl
  have hmem := mem_objs_deleteNeeding (hdistinct.shrinks hs1) (hplaced.shrinks hs1) h2
  obtain ⟨u, hu, rfl⟩ := unlinkFrame_eq h1
  have hframes : ∀ g, g ∈ m2.frames ↔ g ∈ m.frames ∧ g ≠ f := by
    intro g
    rw [frames_deleteNeeding h2]
    exact mem_rest_iff hdistinct.frames hu g
  have hneeds := needs_of_refersTo href
  obtain ⟨f', hf', hof'⟩ := ho
  have hframe := hplaced.obj f' o hof'
  rw [hlive]
  constructor
  · rintro ⟨h, hh, hoh⟩ (hremoved | hremoved)
    · have hoh' := ((hmem h o).mp hoh).1
      exact ((hframes h).mp hh).2 ((hplaced.obj h o hoh').symm.trans hremoved)
    · have hnot := ((hmem h o).mp hoh).2
      rw [RefersTo] at href hremoved
      rw [href, ObjNodeKind.frame.injEq] at hremoved
      exact hnot ⟨by rw [← frames_deleteNeeding h2]; exact hh, (hneeds f).mpr hremoved⟩
  · intro hkept
    rw [Removed, not_or] at hkept
    have hne : f' ≠ f := fun heq => hkept.1 (hframe.trans heq)
    refine ⟨f', (hframes f').mpr ⟨hf', hne⟩, (hmem f' o).mpr ⟨hof', fun hneeded => ?_⟩⟩
    have hgf : g = f := (hneeds f).mp hneeded.2
    exact hkept.2 (hgf ▸ href)

def Listed (m : Model) : DeleteOp → Prop
  | .vec v => v ∈ m.vecs (m.vec v).frame
  | .obj o => o ∈ m.objs (m.obj o).frame
  | .frame f => f ∈ m.frames
  | .table t => ∃ f, m.frameOfTable t = some f ∧ t ∈ m.tables f
  | .row r => r ∈ m.rows (m.row r)
  | .column t n => n < (m.vars t).length ∧ ∀ r ∈ m.rows t, n < (m.values r).length
  | .loop l => l ∈ m.loops (m.loop l).frame

theorem eq_of_delete_table (h : m.delete op = some m')
    (hop : (∃ t, op = .table t) ∨ (∃ r, op = .row r) ∨ (∃ t n, op = .column t n) ∨
      ∃ l, op = .loop l) :
    m'.frames = m.frames ∧ m'.objs = m.objs ∧ m'.obj = m.obj ∧ m'.activeRef = m.activeRef := by
  obtain ⟨t, rfl⟩ | ⟨r, rfl⟩ | ⟨t, n, rfl⟩ | ⟨l, rfl⟩ := hop
  · obtain ⟨f, u, -, -, rfl⟩ := unlinkTable_eq h
    exact ⟨rfl, rfl, rfl, rfl⟩
  · obtain ⟨u, -, rfl⟩ := unlinkRow_eq h
    exact ⟨rfl, rfl, rfl, rfl⟩
  · obtain ⟨var, column, values, -, -, rfl⟩ := unlinkColumn_eq h
    exact ⟨rfl, rfl, rfl, rfl⟩
  · obtain ⟨u, -, rfl⟩ := unlinkLoop_eq h
    exact ⟨rfl, rfl, rfl, rfl⟩

theorem live_of_eq (hframes : m'.frames = m.frames) (hobjs : m'.objs = m.objs)
    (o : Addr) : m'.Live o ↔ m.Live o := by
  rw [Live, Live, hframes, hobjs]

theorem listed_of_deleteVec {v : Addr} (h : m.deleteVec v = some m') :
    v ∈ m.vecs (m.vec v).frame := by
  have hlength : (m.vecs (m.vec v).frame).length ≠ 0 := by
    intro hzero
    rw [deleteVec, hzero] at h
    cases h
  obtain ⟨n, hn⟩ := Nat.exists_eq_succ_of_ne_zero hlength
  rw [deleteVec, hn] at h
  obtain ⟨m1, -, -, h1, -⟩ := exists_of_doDeleteVec h
  obtain ⟨u, hu, -⟩ := unlinkVec_eq h1
  exact mem_of_unlink hu

/-- **Deletion.** A reference is left if and only if it is not among those to be removed. -/
theorem live_delete_iff {g : Addr} (hdistinct : m.Distinct)
    (hplaced : m.Placed) (hsame : m.SameFrame)
    (h : m.delete op = some m') (ho : m.Live o) (href : m.RefersTo o g) :
    m'.Live o ↔ ¬m.Removed op o := by
  have hother : m'.frames = m.frames ∧ m'.objs = m.objs ∧ m'.obj = m.obj ∧
      m'.activeRef = m.activeRef → (m'.Live o ↔ ¬False) := by
    rintro ⟨hframes, hobjs, -⟩
    rw [live_of_eq hframes hobjs, not_false_eq_true, iff_true]
    exact ho
  cases op with
  | vec v => exact live_deleteVec_iff hdistinct hplaced hsame (listed_of_deleteVec h) h ho href
  | obj o' =>
    have hgroup := m.shrinks_newGroup
    rw [live_doDeleteObj_iff (hdistinct.shrinks hgroup) (hplaced.shrinks hgroup) h]
    exact and_iff_right ho
  | frame f => exact live_deleteFrame_iff hdistinct hplaced h ho href
  | table | row | column | loop => exact hother (eq_of_delete_table h (by simp))

/-! ### Active references -/

/-- What `reset_active_ref` takes: the first reference in the last of the frames. -/
def lastRef (m : Model) (g : Addr) : Option Addr :=
  m.frames.getLast?.bind fun f => (m.objs f).find? (m.isRefTo g)

theorem foldl_last {α β : Type} (F : α → Option β) (l : List α) (b : Option β) :
    l.foldl (fun _ a => F a) b = (l.getLast?.map F).getD b := by
  induction l generalizing b with
  | nil => rfl
  | cons a l ih =>
    rw [List.foldl_cons, ih, List.getLast?_cons]
    cases l.getLast? <;> rfl

theorem activeRef_resetActiveRef (m : Model) (ref : Addr) :
    (m.resetActiveRef ref).activeRef = Function.update m.activeRef ref (m.lastRef ref) := by
  rw [resetActiveRef, lastRef]
  dsimp only
  rw [foldl_last fun f => (m.objs f).find? (m.isRefTo ref)]
  cases m.frames.getLast? <;> rfl

theorem activeRef_resetRefsOf (m : Model) (o g : Addr) :
    (m.RefersTo o g ∧ m.activeRef g = some o ∧ (m.resetRefsOf o).activeRef g = m.lastRef g) ∨
      (¬(m.RefersTo o g ∧ m.activeRef g = some o) ∧
        (m.resetRefsOf o).activeRef g = m.activeRef g) := by
  rw [resetRefsOf, RefersTo]
  cases hkind : (m.obj o).kind with
  | frame ref =>
    dsimp only
    by_cases hactive : m.activeRef ref = some o
    · rw [if_pos hactive, activeRef_resetActiveRef]
      by_cases hg : g = ref
      · subst hg
        rw [Function.update_self]
        exact .inl ⟨rfl, hactive, rfl⟩
      · rw [Function.update_of_ne hg, ObjNodeKind.frame.injEq]
        exact .inr ⟨fun h => hg h.1.symm, rfl⟩
    · rw [if_neg hactive, ObjNodeKind.frame.injEq]
      exact .inr ⟨fun h => hactive (h.1 ▸ h.2), rfl⟩
  | item others => exact .inr ⟨fun h => ObjNodeKind.noConfusion h.1, rfl⟩
  | meas high quals => exact .inr ⟨fun h => ObjNodeKind.noConfusion h.1, rfl⟩

theorem live_of_lastRef {g : Addr} (h : m.lastRef g = some o) :
    m.RefersTo o g ∧ ∃ f, m.frames.getLast? = some f ∧ o ∈ m.objs f := by
  obtain ⟨f, hf, hfind⟩ := Option.bind_eq_some_iff.mp h
  have href := List.find?_some hfind
  rw [isRefTo, decide_eq_true_iff] at href
  exact ⟨href, f, hf, List.mem_of_find?_eq_some hfind⟩

theorem lastRef_live {g : Addr} (h : m.lastRef g = some o) : m.RefersTo o g ∧ m.Live o := by
  obtain ⟨href, f, hf, ho⟩ := live_of_lastRef h
  exact ⟨href, f, List.mem_of_getLast? hf, ho⟩

/-- Only the active reference that is deleted is chosen anew. -/
theorem activeRef_doDeleteObj (h : m.doDeleteObj o = some m') (g : Addr) :
    (m.RefersTo o g ∧ m.activeRef g = some o ∧ m'.activeRef g = m'.lastRef g) ∨
      (¬(m.RefersTo o g ∧ m.activeRef g = some o) ∧ m'.activeRef g = m.activeRef g) := by
  obtain ⟨m1, hunlink, hreset⟩ := Option.bind_eq_some_iff.mp h
  cases hreset
  obtain ⟨u, -, rfl⟩ := unlinkObj_eq hunlink
  have hcases := activeRef_resetRefsOf
    ({ m with objs := Function.update m.objs (m.obj o).frame u.rest }.newDeletion
      (.obj o u.prev u.next)) o g
  obtain ⟨href, hactive, heq⟩ | ⟨hnot, heq⟩ := hcases
  · refine .inl ⟨href, hactive, heq.trans ?_⟩
    rw [resetRefsOf_eq]
    rfl
  · exact .inr ⟨hnot, heq⟩

theorem activeRef_unlinkVec {v : Addr} (h : m.unlinkVec v = some m') :
    m'.activeRef = m.activeRef ∧ m'.frames = m.frames ∧ m'.objs = m.objs ∧ m'.obj = m.obj := by
  obtain ⟨u, -, rfl⟩ := unlinkVec_eq h
  exact ⟨rfl, rfl, rfl, rfl⟩

/-- What the steps of a deletion keep, the deletion keeps. -/
theorem delete_preserves (Inv : Model → Prop) (hdistinct : m.Distinct) (hplaced : m.Placed)
    (hsame : ∀ s s' : Model, Inv s → s'.activeRef = s.activeRef → s'.frames = s.frames →
      s'.objs = s.objs → s'.obj = s.obj → Inv s')
    (hobj : ∀ s o s', s.Distinct → s.Placed → Inv s → s.doDeleteObj o = some s' → Inv s')
    (hframe : ∀ f s, m.newGroup.unlinkFrame f = some s → Inv s)
    (hreset : ∀ s o, Inv s → ¬s.Live o → Inv (s.resetRefsOf o)) (hm : Inv m)
    (h : m.delete op = some m') : Inv m' := by
  have hgroup := m.shrinks_newGroup
  have hnew : Inv m.newGroup := hsame m _ hm rfl rfl rfl rfl
  have hobj' : ∀ s o s', s.Distinct ∧ s.Placed ∧ Inv s → s.doDeleteObj o = some s' →
      s'.Distinct ∧ s'.Placed ∧ Inv s' := by
    rintro s o s' ⟨hd, hp, hs⟩ hstep
    have hshrinks := (deleteSteps_doDeleteObj hstep).shrinks
    exact ⟨hd.shrinks hshrinks, hp.shrinks hshrinks, hobj s o s' hd hp hs hstep⟩
  have hother : m'.frames = m.frames ∧ m'.objs = m.objs ∧ m'.obj = m.obj ∧
      m'.activeRef = m.activeRef → Inv m' := fun ⟨hframes, hobjs, hobj, hactive⟩ =>
    hsame m m' hm hactive hframes hobjs hobj
  cases op with
  | vec v =>
    refine (doDeleteVec_preserves (fun s => s.Distinct ∧ s.Placed ∧ Inv s) ?_ hobj'
      ⟨hdistinct.shrinks hgroup, hplaced.shrinks hgroup, hnew⟩ h).2.2
    rintro s v s' ⟨hd, hp, hs⟩ hstep
    have hshrinks := (DeleteStep.vec v hstep).shrinks
    obtain ⟨hactive, hframes, hobjs, hobj⟩ := activeRef_unlinkVec hstep
    exact ⟨hd.shrinks hshrinks, hp.shrinks hshrinks, hsame s s' hs hactive hframes hobjs hobj⟩
  | obj o => exact hobj _ o m' (hdistinct.shrinks hgroup) (hplaced.shrinks hgroup) hnew h
  | frame f =>
    obtain ⟨m1, m2, h1, h2, rfl⟩ := exists_of_deleteFrame h
    have hs1 := hgroup.trans (DeleteStep.frame f h1).shrinks
    obtain ⟨-, hp2, hinv⟩ := deleteNeeding_preserves (fun s => s.Distinct ∧ s.Placed ∧ Inv s) hobj'
      ⟨hdistinct.shrinks hs1, hplaced.shrinks hs1, hframe f m1 h1⟩ h2
    have hnotLive : ∀ o ∈ m2.objs f, ¬m2.Live o := by
      rintro o ho ⟨f', hf', ho'⟩
      rw [frames_deleteNeeding h2] at hf'
      obtain ⟨u, hu, rfl⟩ := unlinkFrame_eq h1
      have hne := ((mem_rest_iff hdistinct.frames hu f').mp hf').2
      exact hne ((hp2.obj f' o ho').symm.trans (hp2.obj f o ho))
    have hfold : ∀ (l : List Addr) (s : Model), (∀ o ∈ l, ¬s.Live o) → Inv s →
        Inv (l.foldl resetRefsOf s) := by
      intro l
      induction l with
      | nil => exact fun s _ hs => hs
      | cons o l ih =>
        intro s hl hs
        apply ih
        · intro o' ho'
          rw [resetRefsOf_eq]
          exact hl o' (List.mem_cons_of_mem o ho')
        · exact hreset s o hs (hl o List.mem_cons_self)
    exact hfold _ m2 hnotLive hinv
  | table | row | column | loop => exact hother (eq_of_delete_table h (by simp))

/-- An active reference changes only when it is deleted. -/
theorem activeRef_delete (hdistinct : m.Distinct)
    (hplaced : m.Placed) (h : m.delete op = some m') (g : Addr) :
    m'.activeRef g = m.activeRef g ∨ ∃ o, m.activeRef g = some o ∧ ¬m'.Live o := by
  refine delete_preserves (fun s => s.activeRef g = m.activeRef g ∨
    ∃ o, m.activeRef g = some o ∧ ¬s.Live o) hdistinct hplaced ?_ ?_ ?_ ?_ (.inl rfl) h
  · intro s s' hs hactive hframes hobjs _
    rw [hactive]
    obtain hs | ⟨o, ho, hgone⟩ := hs
    · exact .inl hs
    · exact .inr ⟨o, ho, fun hlive => hgone ((live_of_eq hframes hobjs o).mp hlive)⟩
  · intro s o s' hd hp hs hstep
    obtain hs | ⟨o', ho', hgone⟩ := hs
    · obtain ⟨-, hactive, -⟩ | ⟨-, heq⟩ := activeRef_doDeleteObj hstep g
      · refine .inr ⟨o, hs.symm.trans hactive, fun hlive => ?_⟩
        exact ((live_doDeleteObj_iff hd hp hstep o).mp hlive).2 rfl
      · exact .inl (heq.trans hs)
    · exact .inr ⟨o', ho', fun hlive => hgone ((live_doDeleteObj_iff hd hp hstep o').mp hlive).1⟩
  · intro f s hstep
    obtain ⟨u, -, rfl⟩ := unlinkFrame_eq hstep
    exact .inl rfl
  · intro s o hs hnot
    have hlive : ∀ o', (s.resetRefsOf o).Live o' → s.Live o' := by
      intro o' ho'
      rwa [resetRefsOf_eq] at ho'
    obtain hs | ⟨o', ho', hgone⟩ := hs
    · obtain ⟨-, hactive, -⟩ | ⟨-, heq⟩ := activeRef_resetRefsOf s o g
      · exact .inr ⟨o, hs.symm.trans hactive, fun h => hnot (hlive o h)⟩
      · exact .inl (heq.trans hs)
    · exact .inr ⟨o', ho', fun h => hgone (hlive o' h)⟩

theorem lastRef_delete (hdistinct : m.Distinct) (hplaced : m.Placed)
    (h : m.delete op = some m') (g : Addr) (hnone : m'.activeRef g = none) :
    m.activeRef g = none ∨ m'.lastRef g = none := by
  refine delete_preserves (fun s => s.activeRef g = none →
    m.activeRef g = none ∨ s.lastRef g = none) hdistinct hplaced ?_ ?_ ?_ ?_ .inl h hnone
  · intro s s' hs hactive hframes hobjs hobj hnone
    rw [hactive] at hnone
    have hlast : s'.lastRef g = s.lastRef g := by
      unfold lastRef isRefTo
      rw [hframes, hobjs, hobj]
    rw [hlast]
    exact hs hnone
  · intro s o s' hd hp hs hstep hnone
    obtain ⟨-, -, heq⟩ | ⟨-, heq⟩ := activeRef_doDeleteObj hstep g
    · exact .inr (heq.symm.trans hnone)
    · refine (hs (heq.symm.trans hnone)).imp_right fun hlast => ?_
      by_contra hsome
      obtain ⟨x, hx⟩ := Option.ne_none_iff_exists'.mp hsome
      obtain ⟨href, f, hf, hmem⟩ := live_of_lastRef hx
      have hshrinks := (deleteSteps_doDeleteObj hstep).shrinks
      rw [(doDeleteObj_eq hstep).2.1] at hf
      rw [refersTo_shrinks hshrinks] at href
      rw [lastRef, hf, Option.bind_some, List.find?_eq_none] at hlast
      exact hlast x ((hshrinks.objs f).subset hmem) (by rw [isRefTo, decide_eq_true_iff]; exact href)
  · intro f s hstep hnone
    obtain ⟨u, -, rfl⟩ := unlinkFrame_eq hstep
    exact .inl hnone
  · intro s o hs _ hnone
    have hlast : (s.resetRefsOf o).lastRef g = s.lastRef g := by
      rw [resetRefsOf_eq]
      rfl
    rw [hlast]
    obtain ⟨-, -, heq⟩ | ⟨-, heq⟩ := activeRef_resetRefsOf s o g
    · exact .inr (heq.symm.trans hnone)
    · exact hs (heq.symm.trans hnone)

def ActiveSound (m : Model) : Prop := ∀ g o, m.activeRef g = some o → m.RefersTo o g ∧ m.Live o

def ActiveWithin (m : Model) (S : Addr → Prop) : Prop :=
  ∀ g o, m.activeRef g = some o → m.RefersTo o g ∧ (m.Live o ∨ S o)

theorem activeWithin_doDeleteObj {S : Addr → Prop}
    (hdistinct : m.Distinct) (hplaced : m.Placed) (hm : m.ActiveWithin S)
    (h : m.doDeleteObj o = some m') : m'.ActiveWithin S := by
  intro g x hx
  obtain ⟨-, -, heq⟩ | ⟨hnot, heq⟩ := activeRef_doDeleteObj h g
  · obtain ⟨href, hlive⟩ := lastRef_live (heq.symm.trans hx)
    exact ⟨href, .inl hlive⟩
  · have hactive := heq.symm.trans hx
    obtain ⟨href, hx⟩ := hm g x hactive
    rw [refersTo_shrinks (deleteSteps_doDeleteObj h).shrinks]
    refine ⟨href, hx.imp_left fun hlive => ?_⟩
    rw [live_doDeleteObj_iff hdistinct hplaced h]
    refine ⟨hlive, ?_⟩
    rintro rfl
    exact hnot ⟨href, hactive⟩

theorem activeSound_resetRefs (l : List Addr) (hm : m.ActiveWithin (· ∈ l)) :
    (l.foldl resetRefsOf m).ActiveSound := by
  induction l generalizing m with
  | nil =>
    intro g o ho
    obtain ⟨href, hlive | hmem⟩ := hm g o ho
    · exact ⟨href, hlive⟩
    · exact absurd hmem List.not_mem_nil
  | cons a l ih =>
    apply ih
    have hlive : ∀ o, (m.resetRefsOf a).Live o ↔ m.Live o := by
      intro o
      rw [resetRefsOf_eq]
      rfl
    have hrefers : ∀ o g, (m.resetRefsOf a).RefersTo o g ↔ m.RefersTo o g := by
      intro o g
      rw [resetRefsOf_eq]
      rfl
    intro g o ho
    rw [hlive, hrefers]
    obtain ⟨-, -, heq⟩ | ⟨hnot, heq⟩ := activeRef_resetRefsOf m a g
    · obtain ⟨href, ho⟩ := lastRef_live (heq.symm.trans ho)
      exact ⟨href, .inl ho⟩
    · have hactive := heq.symm.trans ho
      obtain ⟨href, ho⟩ := hm g o hactive
      refine ⟨href, ho.imp_right fun hmem => ?_⟩
      obtain rfl | hmem := List.mem_cons.mp hmem
      · exact absurd ⟨href, hactive⟩ hnot
      · exact hmem

/-- The active references are still among those that are left. -/
theorem activeSound_delete (hdistinct : m.Distinct)
    (hplaced : m.Placed) (hm : m.ActiveSound) (h : m.delete op = some m') : m'.ActiveSound := by
  have hgroup := m.shrinks_newGroup
  have hkeeps : ∀ (S : Addr → Prop) (s : Model) (o : Addr) (s' : Model),
      s.Distinct ∧ s.Placed ∧ s.ActiveWithin S → s.doDeleteObj o = some s' →
      s'.Distinct ∧ s'.Placed ∧ s'.ActiveWithin S := by
    rintro S s o s' ⟨hd, hp, hs⟩ hstep
    have hshrinks := (deleteSteps_doDeleteObj hstep).shrinks
    exact ⟨hd.shrinks hshrinks, hp.shrinks hshrinks, activeWithin_doDeleteObj hd hp hs hstep⟩
  have hwithin : m.newGroup.ActiveWithin fun _ => False := fun g o ho =>
    ⟨(hm g o ho).1, .inl (hm g o ho).2⟩
  have hsound : ∀ s : Model, (s.ActiveWithin fun _ => False) → s.ActiveSound := fun s hs g o ho =>
    ⟨(hs g o ho).1, (hs g o ho).2.resolve_right id⟩
  have hother : m'.frames = m.frames ∧ m'.objs = m.objs ∧ m'.obj = m.obj ∧
      m'.activeRef = m.activeRef → m'.ActiveSound := by
    rintro ⟨hframes, hobjs, hobj, hactive⟩ g o ho
    rw [RefersTo, hobj, live_of_eq hframes hobjs]
    exact hm g o (by rw [← hactive]; exact ho)
  cases op with
  | vec v =>
    refine hsound m' (doDeleteVec_preserves (fun s => s.Distinct ∧ s.Placed ∧
      s.ActiveWithin fun _ => False) ?_ (hkeeps _)
      ⟨hdistinct.shrinks hgroup, hplaced.shrinks hgroup, hwithin⟩ h).2.2
    rintro s v s' ⟨hd, hp, hs⟩ hstep
    have hshrinks := (DeleteStep.vec v hstep).shrinks
    refine ⟨hd.shrinks hshrinks, hp.shrinks hshrinks, ?_⟩
    obtain ⟨u, -, rfl⟩ := unlinkVec_eq hstep
    exact hs
  | obj o =>
    exact hsound m' (hkeeps _ _ o m'
      ⟨hdistinct.shrinks hgroup, hplaced.shrinks hgroup, hwithin⟩ h).2.2
  | frame f =>
    obtain ⟨m1, m2, h1, h2, rfl⟩ := exists_of_deleteFrame h
    have hs1 := hgroup.trans (DeleteStep.frame f h1).shrinks
    have hmem := mem_objs_deleteNeeding (hdistinct.shrinks hs1) (hplaced.shrinks hs1) h2
    obtain ⟨u, hu, rfl⟩ := unlinkFrame_eq h1
    have hrest : ∀ g, g ∈ u.rest ↔ g ∈ m.frames ∧ g ≠ f := mem_rest_iff hdistinct.frames hu
    obtain ⟨-, -, hm2⟩ := deleteNeeding_preserves (fun s => s.Distinct ∧ s.Placed ∧
      s.ActiveWithin (· ∈ m.objs f)) (hkeeps _) ⟨hdistinct.shrinks hs1, hplaced.shrinks hs1, by
        intro g o ho
        obtain ⟨href, f', hf', ho'⟩ := hm g o ho
        refine ⟨href, ?_⟩
        by_cases hff : f' = f
        · exact .inr (hff ▸ ho')
        · exact .inl ⟨f', (hrest f').mpr ⟨hf', hff⟩, ho'⟩⟩ h2
    apply activeSound_resetRefs
    intro g o ho
    refine ⟨(hm2 g o ho).1, (hm2 g o ho).2.imp_right fun hof => ?_⟩
    exact (hmem f o).mpr ⟨hof, fun hneeded => ((hrest f).mp hneeded.1).2 rfl⟩
  | table | row | column | loop => exact hother (eq_of_delete_table h (by simp))

def RefsListed (m : Model) : Prop := ∀ o g, m.Live o → m.RefersTo o g → g ∈ m.frames

def remaining (m : Model) : DeleteOp → List Addr
  | .frame f => m.frames.erase f
  | _ => m.frames

theorem frames_delete_eq (hdistinct : m.Distinct)
    (hplaced : m.Placed) (h : m.delete op = some m') : m'.frames = m.remaining op := by
  have hgroup := m.shrinks_newGroup
  cases op with
  | vec v =>
    exact (removes_doDeleteVec (hdistinct.shrinks hgroup) (hplaced.shrinks hgroup) h).1.frames
  | obj o => exact (doDeleteObj_eq h).2.1
  | frame f =>
    obtain ⟨m1, m2, h1, h2, rfl⟩ := exists_of_deleteFrame h
    rw [foldl_resetRefsOf_eq]
    change m2.frames = m.frames.erase f
    rw [frames_deleteNeeding h2]
    obtain ⟨u, hu, rfl⟩ := unlinkFrame_eq h1
    exact rest_eq_erase hu
  | table t => exact (eq_of_delete_table h (.inl ⟨t, rfl⟩)).1
  | row r => exact (eq_of_delete_table h (.inr (.inl ⟨r, rfl⟩))).1
  | column t n => exact (eq_of_delete_table h (.inr (.inr (.inl ⟨t, n, rfl⟩)))).1
  | loop l => exact (eq_of_delete_table h (.inr (.inr (.inr ⟨l, rfl⟩)))).1

theorem frames_delete (hdistinct : m.Distinct)
    (hplaced : m.Placed) (h : m.delete op = some m') (g : Addr) :
    g ∈ m'.frames ↔ g ∈ m.frames ∧ ∀ f, op = .frame f → g ≠ f := by
  rw [frames_delete_eq hdistinct hplaced h]
  cases op with
  | frame f =>
    rw [remaining, hdistinct.frames.mem_erase_iff, and_comm]
    refine and_congr_right fun _ => ⟨?_, fun hne => hne f rfl⟩
    intro hne f' hf'
    cases hf'
    exact hne
  | _ => exact (and_iff_left fun f => DeleteOp.noConfusion).symm

/-- No reference is left to a frame that is gone. -/
theorem refsListed_delete (hdistinct : m.Distinct)
    (hplaced : m.Placed) (hm : m.RefsListed) (h : m.delete op = some m') : m'.RefsListed := by
  intro o g ho href
  have hshrinks := shrinks_delete h
  rw [refersTo_shrinks hshrinks] at href
  have hlive := ho.of_shrinks hshrinks
  refine (frames_delete hdistinct hplaced h g).mpr ⟨hm o g hlive href, ?_⟩
  rintro f rfl rfl
  exact (live_deleteFrame_iff hdistinct hplaced h hlive href).mp ho (.inr href)

theorem takeColumn_isSome {n : ℕ} {rows : List Addr} {values : Addr → List Addr}
    (hrows : rows.Nodup) (h : ∀ r ∈ rows, n < (values r).length) :
    ∃ taken, takeColumn n rows values = some taken := by
  induction rows generalizing values with
  | nil => exact ⟨_, rfl⟩
  | cons r rows ih =>
    obtain ⟨hr, hrows⟩ := List.nodup_cons.mp hrows
    have hrest : ∀ s ∈ rows, n < (Function.update values r ((values r).eraseIdx n) s).length := by
      intro s hs
      have hne : s ≠ r := fun heq => hr (heq ▸ hs)
      rw [Function.update_of_ne hne]
      exact h s (List.mem_cons_of_mem r hs)
    obtain ⟨taken, htaken⟩ := ih hrows hrest
    rw [takeColumn, List.getElem?_eq_getElem (h r List.mem_cons_self)]
    exact ⟨_, by rw [Option.bind_eq_bind, Option.bind_some, htaken]; rfl⟩

/-- A deletion of what is listed goes through. -/
theorem delete_isSome (hdistinct : m.Distinct) (hplaced : m.Placed)
    (h : m.Listed op) : ∃ m', m.delete op = some m' := by
  have hgroup := m.shrinks_newGroup
  cases op with
  | vec v =>
    exact doDeleteVec_isSome (hdistinct.shrinks hgroup) (hplaced.shrinks hgroup) h (Nat.le_refl _)
  | obj o => exact doDeleteObj_isSome (m := m.newGroup) h
  | frame f =>
    obtain ⟨u, hu⟩ := unlink_isSome h
    have h1 : ∃ m1, m.newGroup.unlinkFrame f = some m1 := ⟨_, by
      change (unlink f m.frames).bind _ = _
      rw [hu]
      rfl⟩
    obtain ⟨m1, h1⟩ := h1
    have hs1 := hgroup.trans (DeleteStep.frame f h1).shrinks
    obtain ⟨m2, h2, -⟩ := foldlM_finishes (fun s : Model => s.Distinct ∧ s.Placed) m1.frames
      (f := fun (m : Model) g => (m.objs g).foldlM
        (fun m o => if m.needs f o then m.doDeleteObj o else some m) m) (by
      rintro s g - ⟨hd, hp⟩
      obtain ⟨s', hs'⟩ := deleteWhere_isSome (p := fun m o => m.needs f o) hd hp (hd.objs g)
        (fun o ho => by rwa [hp.obj g o ho])
      have hshrinks := (deleteSteps_deleteWhere (p := fun m o => m.needs f o) hs').shrinks
      exact ⟨s', hs', hd.shrinks hshrinks, hp.shrinks hshrinks⟩)
      ⟨hdistinct.shrinks hs1, hplaced.shrinks hs1⟩
    refine ⟨(m2.objs f).foldl resetRefsOf m2, ?_⟩
    rw [delete, deleteFrame, h1, Option.bind_eq_bind, Option.bind_some, deleteReferences, h2]
    rfl
  | table t =>
    obtain ⟨f, hf, ht⟩ := h
    obtain ⟨u, hu⟩ := unlink_isSome ht
    refine ⟨_, Option.bind_eq_some_iff.mpr ⟨f, hf, Option.bind_eq_some_iff.mpr ⟨u, hu, rfl⟩⟩⟩
  | row r =>
    obtain ⟨u, hu⟩ := unlink_isSome h
    exact ⟨_, Option.bind_eq_some_iff.mpr ⟨u, hu, rfl⟩⟩
  | column t n =>
    obtain ⟨⟨column, values⟩, htaken⟩ := takeColumn_isSome (hdistinct.rows t) h.2
    exact ⟨_, Option.bind_eq_some_iff.mpr ⟨_, List.getElem?_eq_getElem h.1,
      Option.bind_eq_some_iff.mpr ⟨_, htaken, rfl⟩⟩⟩
  | loop l =>
    obtain ⟨u, hu⟩ := unlink_isSome h
    exact ⟨_, Option.bind_eq_some_iff.mpr ⟨u, hu, rfl⟩⟩

end Openmoko.Fped.Model
