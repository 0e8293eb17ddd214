import Openmoko.Fped.Proof.Editing
import Openmoko.Fped.Proof.HeapLists

/-!
# What the deletion of a vector deletes

The vectors whose bases lead to it and what refers to one of these, each once. What is left refers to
nothing that was deleted.
-/

namespace Openmoko.Fped

namespace Model

open Relation

def BasedOn (m : Model) (w v : Addr) : Prop :=
  ReflTransGen (fun a b => (m.vec a).base = some b) w v

/-- Items are on the lists of their frames, once, and refer to vectors that are on these lists;
objects that refer to other frames (measurements) are in the root. -/
structure Consistent (m : Model) : Prop where
  distinct : m.Distinct
  placed : m.Placed
  bases : ∀ f, ∀ w ∈ m.vecs f, ∀ b, (m.vec w).base = some b → b ∈ m.vecs f
  refs : ∀ f, ∀ o ∈ m.objs f, ∀ w, m.objHasRef o w = true → w ∈ m.vecs (m.vec w).frame
  root : ∀ f, ∀ o ∈ m.objs f, ∀ w, m.objHasRef o w = true →
    (m.vec w).frame = f ∨ m.frames.head? = some f

structure Recorded (m m' : Model) (new : List Deletion) : Prop where
  deletions : m'.deletions = new ++ m.deletions
  items : new.length = (deadVecs new).length + (deadObjs new).length
  vecs : ∀ g,
    (m'.vecs g ++ (deadVecs new).filter fun w => (m.vec w).frame = g).Perm (m.vecs g)
  objs : ∀ g,
    (m'.objs g ++ (deadObjs new).filter fun o => (m.obj o).frame = g).Perm (m.objs g)

structure SameElse (m m' : Model) : Prop where
  frames : m'.frames = m.frames
  tables : m'.tables = m.tables
  loops : m'.loops = m.loops
  vars : m'.vars = m.vars
  rows : m'.rows = m.rows
  values : m'.values = m.values
  activeRow : m'.activeRow = m.activeRow
  vec : m'.vec = m.vec
  obj : m'.obj = m.obj
  var : m'.var = m.var
  row : m'.row = m.row
  value : m'.value = m.value
  loop : m'.loop = m.loop

/-- The vectors whose bases lead to `v` are gone and so are the objects that refer to one of these,
and that is all. -/
structure DeletesExactly (m : Model) (v : Addr) (m' : Model) : Prop where
  vecs : ∀ f, (m'.vecs f).Sublist (m.vecs f) ∧
    ∀ w ∈ m.vecs f, w ∈ m'.vecs f ↔ ¬m.BasedOn w v
  objs : ∀ f, (m'.objs f).Sublist (m.objs f) ∧
    ∀ o ∈ m.objs f, o ∈ m'.objs f ↔ ¬∃ w, m.BasedOn w v ∧ m.objHasRef o w = true
  recorded : ∃ new, m.Recorded m' new
  sameElse : m.SameElse m'
  consistent : m'.Consistent

variable {m m' : Model}

theorem Recorded.refl (m : Model) : m.Recorded m [] where
  deletions := rfl
  items := rfl
  vecs g := by
    rw [deadVecs, List.filterMap_nil, List.filter_nil, List.append_nil]
  objs g := by
    rw [deadObjs, List.filterMap_nil, List.filter_nil, List.append_nil]

theorem perm_unlink (home : Addr → Addr) {lists lists' : Addr → List Addr} {dead : List Addr}
    {x : Addr} {u : Unlinked Addr}
    (h : ∀ g, (lists' g ++ dead.filter fun w => home w = g).Perm (lists g))
    (hu : unlink x (lists' (home x)) = some u) (g : Addr) :
    (Function.update lists' (home x) u.rest g ++ (x :: dead).filter fun w => home w = g).Perm
      (lists g) := by
  by_cases hg : g = home x
  · subst hg
    obtain ⟨before, after, hlist, -, hrest, -⟩ := exists_append_of_unlink hu
    rw [Function.update_self, hrest, List.filter_cons_of_pos (by simp)]
    refine List.perm_middle.trans (List.Perm.trans ?_ (h (home x)))
    rw [hlist, ← List.cons_append]
    exact List.perm_middle.symm.append_right _
  · rw [Function.update_of_ne hg, List.filter_cons_of_neg (by simpa using Ne.symm hg)]
    exact h g

variable {v : Addr} {n : ℕ}

theorem recorded_unlinkVec {s s' : Model} {new : List Deletion}
    (h : m.Recorded s new) (hvec : s.vec = m.vec) (hd : s.unlinkVec v = some s') :
    ∃ new', m.Recorded s' new' := by
  obtain ⟨u, hu, rfl⟩ := unlinkVec_eq hd
  refine ⟨{ item := .vec v u.prev u.next, group := s.groups } :: new, ?_, ?_, fun g => ?_, h.objs⟩
  · change _ :: s.deletions = _
    rw [h.deletions]
    rfl
  · change new.length + 1 = (deadVecs new).length + 1 + (deadObjs new).length
    rw [h.items]
    omega
  · rw [hvec] at hu
    have hperm := perm_unlink (fun w => (m.vec w).frame) h.vecs hu g
    rw [← hvec] at hperm ⊢
    exact hperm

theorem recorded_doDeleteObj {s s' : Model} {new : List Deletion} {o : Addr}
    (h : m.Recorded s new) (hobj : s.obj = m.obj) (hd : s.doDeleteObj o = some s') :
    ∃ new', m.Recorded s' new' := by
  obtain ⟨s1, hunlink, hreset⟩ := Option.bind_eq_some_iff.mp hd
  cases hreset
  obtain ⟨u, hu, rfl⟩ := unlinkObj_eq hunlink
  rw [resetRefsOf_eq]
  refine ⟨{ item := .obj o u.prev u.next, group := s.groups } :: new, ?_, ?_, h.vecs, fun g => ?_⟩
  · change _ :: s.deletions = _
    rw [h.deletions]
    rfl
  · change new.length + 1 = (deadVecs new).length + ((deadObjs new).length + 1)
    rw [h.items]
    omega
  · rw [hobj] at hu
    have hperm := perm_unlink (fun o => (m.obj o).frame) h.objs hu g
    rw [← hobj] at hperm ⊢
    exact hperm

theorem recorded_doDeleteVec (h : doDeleteVec n m v = some m') : ∃ new, m.Recorded m' new := by
  refine (doDeleteVec_preserves (fun s => (∃ new, m.Recorded s new) ∧ m.Shrinks s)
    ?_ ?_ ⟨⟨[], Recorded.refl m⟩, Shrinks.refl m⟩ h).1
  · rintro s w s' ⟨⟨new, hrec⟩, hshrinks⟩ hd
    exact ⟨recorded_unlinkVec hrec hshrinks.vec hd,
      hshrinks.trans (DeleteStep.vec w hd).shrinks⟩
  · rintro s o s' ⟨⟨new, hrec⟩, hshrinks⟩ hd
    exact ⟨recorded_doDeleteObj hrec hshrinks.obj hd,
      hshrinks.trans (deleteSteps_doDeleteObj hd).shrinks⟩

theorem SameElse.refl (m : Model) : m.SameElse m :=
  ⟨rfl, rfl, rfl, rfl, rfl, rfl, rfl, rfl, rfl, rfl, rfl, rfl, rfl⟩

theorem sameElse_doDeleteVec (h : doDeleteVec n m v = some m') : m.SameElse m' := by
  refine doDeleteVec_preserves (fun s => m.SameElse s) ?_ ?_ (SameElse.refl m) h
  · intro s w s' hs hd
    obtain ⟨u, hu, rfl⟩ := unlinkVec_eq hd
    exact { hs with }
  · intro s o s' hs hd
    obtain ⟨s1, hunlink, hreset⟩ := Option.bind_eq_some_iff.mp hd
    cases hreset
    obtain ⟨u, hu, rfl⟩ := unlinkObj_eq hunlink
    rw [resetRefsOf_eq]
    exact { hs with }

def KeepsRefs (m m' : Model) (g : Addr) : Prop :=
  ∀ o ∈ m'.objs g, ∀ w, m.objHasRef o w = true → ∀ f, w ∈ m.vecs f → w ∈ m'.vecs f

theorem KeepsRefs.trans {m'' : Model} {g : Addr} (h : KeepsRefs m m' g)
    (h' : KeepsRefs m' m'' g) (hshrinks : m.Shrinks m') (hshrinks' : m'.Shrinks m'') :
    KeepsRefs m m'' g := by
  intro o ho w href f hw
  have hw' := h o ((hshrinks'.objs g).subset ho) w href f hw
  rw [← objHasRef_shrinks hshrinks] at href
  exact h' o ho w href f hw'

theorem keepsRefs_deleteObjsByRef {f g : Addr} (h : m.deleteObjsByRef f v = some m') :
    KeepsRefs m m' g := by
  intro o _ w _ f hw
  rwa [(vecs_deleteObjsByRef h).1]

theorem keepsRefs_doDeleteVec {root : Addr} (hm : m.Distinct) (hplaced : m.Placed)
    (hroot : m.frames.head? = some root) (h : doDeleteVec n m v = some m') :
    KeepsRefs m m' root := by
  induction n generalizing m m' v with
  | zero => cases h
  | succ n ih =>
    obtain ⟨m1, m2, m3, h1, h2, h3, hlast⟩ := exists_of_doDeleteVec h
    have hs1 := (DeleteStep.vec v h1).shrinks
    have hm1 := hm.shrinks hs1
    have hplaced1 := hplaced.shrinks hs1
    have hframes1 : m1.frames = m.frames := by
      obtain ⟨u, -, rfl⟩ := unlinkVec_eq h1
      rfl
    obtain ⟨hkeeps2, hs2, hframes2⟩ :
        KeepsRefs m1 m2 root ∧ m1.Shrinks m2 ∧ m2.frames = m1.frames := by
      refine foldlM_preserves
        (fun s => KeepsRefs m1 s root ∧ m1.Shrinks s ∧ s.frames = m1.frames) ?_
        ⟨fun _ _ _ _ _ hw => hw, Shrinks.refl m1, rfl⟩ h2
      rintro s w s' ⟨hkeeps, hshrinks, hframes⟩ hstep
      by_cases hbase : (s.vec w).base = some v
      · rw [if_pos hbase] at hstep
        have hs' := (deleteSteps_doDeleteVec hstep).shrinks
        have hturn := ih (hm1.shrinks hshrinks) (hplaced1.shrinks hshrinks)
          (by rw [hframes, hframes1, hroot]) hstep
        exact ⟨hkeeps.trans hturn hshrinks hs', hshrinks.trans hs',
          (sameElse_doDeleteVec hstep).frames.trans hframes⟩
      · rw [if_neg hbase] at hstep
        cases hstep
        exact ⟨hkeeps, hshrinks, hframes⟩
    have hs3 := (deleteSteps_deleteObjsByRef h3).shrinks
    have hframes3 := (vecs_deleteObjsByRef h3).2
    have hroot3 : m3.frames.head? = some root := by
      rw [hframes3, hframes2, hframes1, hroot]
    obtain ⟨hnil, -⟩ | ⟨root', hhead, hd⟩ := hlast
    · rw [hnil] at hroot3
      cases hroot3
    obtain rfl : root' = root := Option.some.inj (hhead.symm.trans hroot3)
    have hs4 := (deleteSteps_deleteObjsByRef hd).shrinks
    have hkeeps : KeepsRefs m1 m' root' :=
      ((hkeeps2.trans (keepsRefs_deleteObjsByRef h3) hs2 hs3).trans
        (keepsRefs_deleteObjsByRef hd) (hs2.trans hs3) hs4)
    intro o ho w href f hw
    have hs13 := (hs1.trans hs2).trans hs3
    by_cases hwv : w = v
    · -- the last loop has come to the root's objects
      have hleft := (mem_objs_deleteObjsByRef (hm.shrinks hs13) (hplaced.shrinks hs13) hd root'
        o).mp ho
      rw [objHasRef_shrinks hs13] at hleft
      exact absurd ⟨hleft.1, hwv ▸ href⟩ hleft.2
    · rw [← objHasRef_shrinks hs1] at href
      exact hkeeps o ho w href f ((vecs_unlinkVec hm hplaced h1 f w).mpr ⟨hw, hwv⟩)

theorem Depends.basedOn {w : Addr} (h : m.Depends v w) : m.BasedOn w v := by
  induction h with
  | self => exact .refl
  | step _ hbase _ ih => exact ReflTransGen.head hbase ih

theorem notMem_of_basedOn (hm : m.Consistent)
    (hclosed : Closed m m' (m.vec v).frame) (hgone : v ∉ m'.vecs (m.vec v).frame) {w g : Addr}
    (hw : w ∈ m.vecs g) (h : m.BasedOn w v) : g = (m.vec v).frame ∧ w ∉ m'.vecs g := by
  induction h using ReflTransGen.head_induction_on with
  | refl =>
    rw [← hm.placed.vec g v hw]
    exact ⟨rfl, hgone⟩
  | @head w b hbase _ ih =>
    have hb := hm.bases g w hw b hbase
    obtain ⟨rfl, hnot⟩ := ih hb
    exact ⟨rfl, fun hmem => hnot (hclosed.base w hmem b hbase hb)⟩

theorem deletesExactly_doDeleteVec (hm : m.Consistent)
    (h : doDeleteVec n m v = some m') : m.DeletesExactly v m' := by
  obtain ⟨hremoves, hgone⟩ := removes_doDeleteVec hm.distinct hm.placed h
  have hshrinks := hremoves.steps.shrinks
  have hvecs : ∀ f, ∀ w ∈ m.vecs f, w ∈ m'.vecs f ↔ ¬m.BasedOn w v := by
    intro f w hw
    constructor
    · exact fun hmem hbased => (notMem_of_basedOn hm hremoves.closed hgone hw hbased).2 hmem
    · intro hnot
      by_contra hmem
      obtain ⟨_, rfl, hdepends⟩ := hremoves.vecs f w hw hmem
      exact hnot hdepends.basedOn
  -- an object is on the list of the frame, or in the root
  have hrefs : ∀ f, ∀ o ∈ m'.objs f, ∀ w, m.objHasRef o w = true →
      w ∈ m'.vecs (m.vec w).frame := by
    intro f o ho w href
    have hof := (hshrinks.objs f).subset ho
    have hw := hm.refs f o hof w href
    by_cases hframe : (m.vec w).frame = (m.vec v).frame
    · by_cases hfv : f = (m.vec v).frame
      · rw [hframe] at hw ⊢
        exact hremoves.closed.refs o (hfv ▸ ho) w href hw
      · have hroot := (hm.root f o hof w href).resolve_left (hframe.trans_ne (Ne.symm hfv))
        exact keepsRefs_doDeleteVec hm.distinct hm.placed hroot h o ho w href _ hw
    · rw [hvecs _ w hw]
      intro hbased
      exact hframe (notMem_of_basedOn hm hremoves.closed hgone hw hbased).1
  refine ⟨fun f => ⟨hshrinks.vecs f, hvecs f⟩, fun f => ⟨hshrinks.objs f, fun o ho => ?_⟩,
    recorded_doDeleteVec h, sameElse_doDeleteVec h, ?_⟩
  · constructor
    · rintro hmem ⟨w, hbased, href⟩
      exact (hvecs _ w (hm.refs f o ho w href)).mp (hrefs f o hmem w href) hbased
    · intro hnot
      by_contra hmem
      obtain ⟨_, w, rfl, hdepends, href⟩ := hremoves.objs f o ho hmem
      exact hnot ⟨w, hdepends.basedOn, href⟩
  · constructor
    · exact hm.distinct.shrinks hshrinks
    · exact hm.placed.shrinks hshrinks
    · intro f w hw b hb
      rw [hshrinks.vec] at hb
      have hwm := (hshrinks.vecs f).subset hw
      have hbm := hm.bases f w hwm b hb
      rw [hvecs f b hbm]
      exact fun hbased => (hvecs f w hwm).mp hw (ReflTransGen.head hb hbased)
    · intro f o ho w href
      rw [objHasRef_shrinks hshrinks] at href
      rw [hshrinks.vec]
      exact hrefs f o ho w href
    · intro f o ho w href
      rw [objHasRef_shrinks hshrinks] at href
      rw [hshrinks.vec, hremoves.frames]
      exact hm.root f o ((hshrinks.objs f).subset ho) w href

theorem Consistent.newGroup (hm : m.Consistent) : m.newGroup.Consistent where
  distinct := hm.distinct.shrinks m.shrinks_newGroup
  placed := hm.placed.shrinks m.shrinks_newGroup
  bases := hm.bases
  refs := hm.refs
  root := hm.root

theorem deletesExactly_deleteVec (hm : m.Consistent) (h : m.deleteVec v = some m') :
    m.DeletesExactly v m' := by
  obtain ⟨hvecs, hobjs, ⟨new, hnew⟩, hsame, hconsistent⟩ := deletesExactly_doDeleteVec hm.newGroup h
  exact ⟨hvecs, hobjs, ⟨new, { hnew with }⟩, { hsame with }, hconsistent⟩

end Model

/-- **A deletion deletes the vector and what depends on it, each once, and nothing else**, and ends
in lists on which nothing refers to what was deleted. -/
theorem Heap.deleteVec_exact (h : Heap) (m : Model) (hs : h.Shows m) (hm : m.Consistent) (v : Addr)
    (hv : v ∈ m.vecs (m.vec v).frame) :
    ∃ h' m', EndsWith (fun n => h.deleteVec n v) h' ∧ h'.Shows m' ∧ m.DeletesExactly v m' := by
  have hgroup := hm.newGroup
  obtain ⟨m', hd⟩ := Model.doDeleteVec_isSome hgroup.distinct hgroup.placed hv (le_refl _)
  have hs' : Heap.Shows { h with groups := h.groups + 1 } m.newGroup :=
    { hs with groups := congrArg (· + 1) hs.groups }
  obtain ⟨h', hends, hstep⟩ := hs'.doDeleteVec hgroup.distinct hgroup.placed hd
  exact ⟨h', m', hends, hstep.shows, Model.deletesExactly_deleteVec hm hd⟩

/-- In the frame 1, the vectors 11 and 13 are on 10 and 12 is on 11, which is on the list before it;
20 is a hole on 12, and 21 the distance between 10 and 14. -/
def branchModel : Model where
  frames := [0, 1]
  vecs := fun f => if f = 1 then [10, 11, 12, 13, 14] else []
  objs := fun f => if f = 1 then [20] else if f = 0 then [21] else []
  tables := fun _ => []
  loops := fun _ => []
  vars := fun _ => []
  rows := fun _ => []
  values := fun _ => []
  activeRef := fun _ => none
  activeRow := fun _ => none
  vec := fun v =>
    ⟨1, if v = 11 then some 10 else if v = 12 then some 11 else if v = 13 then some 10 else none⟩
  obj := fun o => if o = 20 then ⟨1, some 12, .item []⟩ else ⟨0, some 10, .meas 14 []⟩
  var := fun _ => ⟨[], 0, 0⟩
  row := fun _ => 0
  value := fun _ => ⟨.string [], 0⟩
  loop := fun _ => ⟨[], 0⟩
  deletions := []
  groups := 0

def branchHeap : Heap where
  frames := branchModel.frames
  vecs := fun f => if f = 1 then some 10 else none
  vecNext := fun v => if v < 14 then some (v + 1) else none
  objs := fun f => if f = 1 then some 20 else if f = 0 then some 21 else none
  objNext := fun _ => none
  activeRef := branchModel.activeRef
  vec := branchModel.vec
  obj := branchModel.obj
  mark := fun _ => false
  deletions := []
  groups := 0

theorem branchHeap_shows : branchHeap.Shows branchModel where
  vecs f := by
    by_cases hf : f = 1
    · simp [branchHeap, branchModel, hf, Linked, Segment]
    · simp [branchHeap, branchModel, hf, Linked, Segment]
  objs f := by
    by_cases hf : f = 1
    · simp [branchHeap, branchModel, hf, Linked, Segment]
    · by_cases hroot : f = 0
      · simp [branchHeap, branchModel, hroot, Linked, Segment]
      · simp [branchHeap, branchModel, hf, hroot, Linked, Segment]
  frames := rfl
  activeRef := rfl
  vec := rfl
  obj := rfl
  deletions := rfl
  groups := rfl

theorem branchModel_objs {f o : Addr} (ho : o ∈ branchModel.objs f) :
    f = 1 ∧ o = 20 ∨ f = 0 ∧ o = 21 := by
  by_cases hf : f = 1
  · simp [branchModel, hf] at ho
    exact .inl ⟨hf, ho⟩
  · by_cases hroot : f = 0
    · simp [branchModel, hroot] at ho
      exact .inr ⟨hroot, ho⟩
    · simp [branchModel, hf, hroot] at ho

theorem branchModel_consistent : branchModel.Consistent where
  distinct := by
    refine ⟨by decide, fun f => ?_, fun f => ?_, fun _ => List.nodup_nil, fun _ => List.nodup_nil,
      fun _ => List.nodup_nil⟩
    · by_cases hf : f = 1 <;> simp [branchModel, hf]
    · by_cases hf : f = 1
      · simp [branchModel, hf]
      · by_cases hroot : f = 0 <;> simp [branchModel, hf, hroot]
  placed := by
    constructor
    · intro f v hv
      by_cases hf : f = 1
      · rw [hf]
        rfl
      · simp [branchModel, hf] at hv
    · intro f o ho
      obtain ⟨rfl, rfl⟩ | ⟨rfl, rfl⟩ := branchModel_objs ho <;> rfl
  bases := by
    intro f w hw b hb
    by_cases hf : f = 1
    · subst hf
      have hall : ∀ w ∈ branchModel.vecs 1, ∀ b ∈ (branchModel.vec w).base,
          b ∈ branchModel.vecs 1 := by decide
      exact hall w hw b hb
    · simp [branchModel, hf] at hw
  refs := by
    intro f o ho w href
    obtain ⟨rfl, rfl⟩ | ⟨rfl, rfl⟩ := branchModel_objs ho
    · obtain rfl : 12 = w := by simpa [Model.objHasRef, branchModel] using href
      decide
    · have hw : 10 = w ∨ 14 = w := by simpa [Model.objHasRef, branchModel] using href
      obtain rfl | rfl := hw <;> decide
  root := by
    intro f o ho w href
    obtain ⟨rfl, rfl⟩ | ⟨rfl, rfl⟩ := branchModel_objs ho
    · exact .inl rfl
    · exact .inr rfl

theorem Heap.deleteVec_exact_branch :
    ∃ h' m', EndsWith (fun n => branchHeap.deleteVec n 10) h' ∧ h'.Shows m' ∧
      branchModel.DeletesExactly 10 m' :=
  Heap.deleteVec_exact branchHeap branchModel branchHeap_shows branchModel_consistent 10 (by decide)

example : (branchHeap.deleteVec 20 10).map (fun h => (h.vecs 1, h.objs 0, h.deletions.length)) =
    some (some 14, none, 6) := by decide

end Openmoko.Fped
