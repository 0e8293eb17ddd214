import Openmoko.Fped.Heap
import Openmoko.Fped.Proof.DeleteCascade

/-!
# The lists that a heap shows

Read as lists, the heap does what the model does. A cascade walks on through vectors that it has
deleted; it comes to all vectors that are left, and the model has nothing to do for the others.
-/

namespace Openmoko.Fped

/-- From the start of each list the pointers lead through the elements of the model's list. -/
structure Heap.Shows (h : Heap) (m : Model) : Prop where
  vecs : ∀ f, Linked h.vecNext (h.vecs f) (m.vecs f)
  objs : ∀ f, Linked h.objNext (h.objs f) (m.objs f)
  frames : h.frames = m.frames
  activeRef : h.activeRef = m.activeRef
  vec : h.vec = m.vec
  obj : h.obj = m.obj
  deletions : h.deletions = m.deletions
  groups : h.groups = m.groups

namespace Heap

variable {h : Heap} {m m' : Model}

theorem Shows.objHasRef (hs : h.Shows m) : h.objHasRef = m.objHasRef := by
  funext o ref
  unfold Heap.objHasRef Model.objHasRef
  generalize hobj : h.obj = obj
  cases hobj.symm.trans hs.obj
  cases (m.obj o).kind <;> rfl

variable {l : List Addr} {p : Option Addr}

theorem endsWith_findRefTo (ref : Addr) (hl : Linked h.objNext p l) :
    EndsWith (fun n => h.findRefTo ref n p)
      (l.find? fun o => decide ((h.obj o).kind = .frame ref)) := by
  induction l generalizing p with
  | nil =>
    cases hl
    exact (endsWith_const none).succ fun _ => rfl
  | cons o l ih =>
    obtain ⟨rfl, hl⟩ := hl
    by_cases ho : (h.obj o).kind = .frame ref
    · rw [List.find?_cons_of_pos (by simpa using ho)]
      refine (endsWith_const (some o)).succ fun n => ?_
      rw [findRefTo, if_pos ho]
    · rw [List.find?_cons_of_neg (by simpa using ho)]
      refine (ih hl).succ fun n => ?_
      rw [findRefTo, if_neg ho]

theorem Shows.resetActiveRef (hs : h.Shows m) (ref : Addr) :
    ∃ h', EndsWith (fun n => h.resetActiveRef n ref) h' ∧ h'.Shows (m.resetActiveRef ref) ∧
      h'.vecNext = h.vecNext ∧ h'.objNext = h.objNext := by
  have hfind : EndsWith
      (fun n => h.frames.foldlM (fun _ f => h.findRefTo ref n (h.objs f)) none)
      (m.frames.foldl (fun _ f => (m.objs f).find? (m.isRefTo ref)) none) := by
    rw [hs.frames]
    apply EndsWith.foldlM
    intro _ f _
    have hfind := endsWith_findRefTo ref (hs.objs f)
    rw [hs.obj] at hfind
    exact hfind
  refine ⟨_, hfind.bind (endsWith_const _), ?_, rfl, rfl⟩
  exact { hs with activeRef := by rw [hs.activeRef]; rfl }

structure ObjStep (h h' : Heap) (m m' : Model) : Prop where
  shows : h'.Shows m'
  vecNext : h'.vecNext = h.vecNext
  passes : ∀ f p l, Passes h.objNext (· ∈ m.objs f) p l → Passes h'.objNext (· ∈ m'.objs f) p l

theorem Shows.unlinkObj (hs : h.Shows m) (hm : m.Distinct) (hplaced : m.Placed) {o : Addr}
    (hd : m.unlinkObj o = some m') :
    ∃ h', EndsWith (fun n => h.unlinkObj n o) h' ∧ ObjStep h h' m m' := by
  obtain ⟨u, hu, rfl⟩ := Model.unlinkObj_eq hd
  have hlinked : Linked (h.objLinks (m.obj o).frame).next (h.objLinks (m.obj o).frame).first _ :=
    hs.objs (m.obj o).frame
  have hfind : EndsWith (fun n => NextLinks.findPrev h.objNext o n (h.objs (h.obj o).frame) none)
      u.prev := by
    rw [hs.obj]
    exact ⟨_, fun n hn => hlinked.findPrev hu hn⟩
  have hother : ∀ f, f ≠ (m.obj o).frame → ∀ a ∈ m.objs (m.obj o).frame, a ∉ m.objs f := by
    intro f hf a ha ha'
    exact hf ((hplaced.obj f a ha').symm.trans (hplaced.obj _ a ha))
  refine ⟨_, hfind.bind (endsWith_const _), ?_, rfl, ?_⟩
  · rw [hs.obj, show h.objNext o = u.next from hlinked.next_eq hu]
    refine { hs with objs := fun f => ?_, deletions := ?_ }
    · change Linked _ (Function.update h.objs _ _ f) (Function.update m.objs _ _ f)
      by_cases hf : f = (m.obj o).frame
      · rw [hf, Function.update_self, Function.update_self]
        exact hlinked.remove (hm.objs _) hu
      · rw [Function.update_of_ne hf, Function.update_of_ne hf]
        exact Linked.remove_of_disjoint (hs.objs f) hu (hother f hf)
    · change { item := _, group := h.groups } :: h.deletions = _
      rw [hs.deletions, hs.groups]
      rfl
  · intro f p l hp
    rw [hs.obj]
    refine (Passes.remove (s := h.objLinks (m.obj o).frame) hp hlinked hu).mono fun a ha => ?_
    change a ∈ Function.update m.objs (m.obj o).frame u.rest f at ha
    by_cases hf : f = (m.obj o).frame
    · rw [hf, Function.update_self] at ha
      rw [hf]
      exact (mem_rest_iff (hm.objs _) hu a).mp ha
    · rw [Function.update_of_ne hf] at ha
      refine ⟨ha, ?_⟩
      rintro rfl
      exact hother f hf a (mem_of_unlink hu) ha

theorem Shows.resetRefsOf (hs : h.Shows m) (o : Addr) :
    ∃ h', EndsWith (fun n => h.resetRefsOf n o) h' ∧ h'.Shows (m.resetRefsOf o) ∧
      h'.vecNext = h.vecNext ∧ h'.objNext = h.objNext := by
  unfold Heap.resetRefsOf Model.resetRefsOf
  rw [hs.obj, hs.activeRef]
  cases (m.obj o).kind with
  | frame ref =>
    by_cases hactive : m.activeRef ref = some o
    · simp only [if_pos hactive]
      exact hs.resetActiveRef ref
    · simp only [if_neg hactive]
      exact ⟨h, endsWith_const h, hs, rfl, rfl⟩
  | item others => exact ⟨h, endsWith_const h, hs, rfl, rfl⟩
  | meas high quals => exact ⟨h, endsWith_const h, hs, rfl, rfl⟩

theorem Shows.doDeleteObj (hs : h.Shows m) (hm : m.Distinct) (hplaced : m.Placed) {o : Addr}
    (hd : m.doDeleteObj o = some m') :
    ∃ h', EndsWith (fun n => h.doDeleteObj n o) h' ∧ ObjStep h h' m m' := by
  obtain ⟨m1, hunlink, hreset⟩ := Option.bind_eq_some_iff.mp hd
  cases hreset
  obtain ⟨h1, hends, hstep⟩ := hs.unlinkObj hm hplaced hunlink
  obtain ⟨h2, hends', hshows, hvec, hobj⟩ := hstep.shows.resetRefsOf o
  refine ⟨h2, hends.bind hends', hshows, hvec.trans hstep.vecNext, fun f p l hp => ?_⟩
  rw [hobj, Model.resetRefsOf_eq]
  exact hstep.passes f p l hp

theorem Shows.deleteObjsByRef {f ref : Addr} (hs : h.Shows m)
    (hm : m.Distinct) (hplaced : m.Placed) (hl : l.Nodup) (hframe : ∀ o ∈ l, (m.obj o).frame = f)
    (hp : Passes h.objNext (· ∈ m.objs f) p l)
    (hd : l.foldlM (fun m o => if m.objHasRef o ref then m.doDeleteObj o else some m) m =
      some m') :
    ∃ h', EndsWith (fun n => h.deleteObjsByRef n p ref) h' ∧ h'.Shows m' ∧
      h'.vecNext = h.vecNext := by
  induction l generalizing h m p with
  | nil =>
    cases hd
    cases hp
    exact ⟨h, (endsWith_const h).succ fun _ => rfl, hs, rfl⟩
  | cons o l ih =>
    obtain ⟨ho, hl⟩ := List.nodup_cons.mp hl
    rw [List.foldlM_cons] at hd
    obtain ⟨m1, hturn, hrest⟩ := Option.bind_eq_some_iff.mp hd
    cases hp with
    | skip hgone hp =>
      -- the model does nothing for an object that is not on the list
      by_cases href : m.objHasRef o ref = true
      · rw [if_pos href] at hturn
        obtain ⟨-, -, u, hu, -⟩ := Model.doDeleteObj_eq hturn
        rw [hframe o List.mem_cons_self] at hu
        exact absurd (mem_of_unlink hu) hgone
      · rw [if_neg href] at hturn
        cases hturn
        exact ih hs hm hplaced hl (fun o ho => hframe o (List.mem_cons_of_mem _ ho)) hp hrest
    | here hp =>
      have hturn' : ∃ h1, EndsWith
          (fun n => if h.objHasRef o ref then h.doDeleteObj n o else some h) h1 ∧
          ObjStep h h1 m m1 := by
        rw [hs.objHasRef]
        by_cases href : m.objHasRef o ref = true
        · rw [if_pos href] at hturn
          simp only [if_pos href]
          exact hs.doDeleteObj hm hplaced hturn
        · rw [if_neg href] at hturn
          cases hturn
          simp only [if_neg href]
          exact ⟨h, endsWith_const h, hs, rfl, fun _ _ _ hp => hp⟩
      obtain ⟨h1, hends, hstep⟩ := hturn'
      have hshrinks : m.Shrinks m1 := by
        by_cases href : m.objHasRef o ref = true
        · rw [if_pos href] at hturn
          exact (Model.deleteSteps_doDeleteObj hturn).shrinks
        · rw [if_neg href] at hturn
          cases hturn
          exact Model.Shrinks.refl m
      have hp1 := (hstep.passes f _ _ (.here hp)).tail ho
      obtain ⟨h2, hends', hs2, hvec⟩ := ih hstep.shows (hm.shrinks hshrinks)
        (hplaced.shrinks hshrinks) hl
        (fun o ho => by rw [hshrinks.obj]; exact hframe o (List.mem_cons_of_mem _ ho)) hp1 hrest
      have hloop := hends.bind
        (c := fun n (h : Heap) => h.deleteObjsByRef n (h.objNext o) ref) hends'
      exact ⟨h2, hloop.succ fun _ => rfl, hs2, hvec.trans hstep.vecNext⟩

structure VecStep (h h' : Heap) (m m' : Model) : Prop where
  shows : h'.Shows m'
  passes : ∀ f p l, Passes h.vecNext (· ∈ m.vecs f) p l → Passes h'.vecNext (· ∈ m'.vecs f) p l

theorem VecStep.trans {h h' h'' : Heap} {m m' m'' : Model} (hstep : VecStep h h' m m')
    (hstep' : VecStep h' h'' m' m'') : VecStep h h'' m m'' where
  shows := hstep'.shows
  passes f p l hp := hstep'.passes f p l (hstep.passes f p l hp)

theorem Shows.unlinkVec (hs : h.Shows m) (hm : m.Distinct) (hplaced : m.Placed) {v : Addr}
    (hd : m.unlinkVec v = some m') :
    ∃ h', EndsWith (fun n => h.unlinkVec n v) h' ∧ VecStep h h' m m' := by
  have hmem := Model.vecs_unlinkVec hm hplaced hd
  obtain ⟨u, hu, rfl⟩ := Model.unlinkVec_eq hd
  have hlinked : Linked (h.vecLinks (m.vec v).frame).next (h.vecLinks (m.vec v).frame).first _ :=
    hs.vecs (m.vec v).frame
  have hfind : EndsWith (fun n => NextLinks.findPrev h.vecNext v n (h.vecs (h.vec v).frame) none)
      u.prev := by
    rw [hs.vec]
    exact ⟨_, fun n hn => hlinked.findPrev hu hn⟩
  refine ⟨_, hfind.bind (endsWith_const _), ?_, ?_⟩
  · rw [hs.vec, show h.vecNext v = u.next from hlinked.next_eq hu]
    refine { hs with vecs := fun f => ?_, deletions := ?_ }
    · change Linked _ (Function.update h.vecs _ _ f) (Function.update m.vecs _ _ f)
      by_cases hf : f = (m.vec v).frame
      · rw [hf, Function.update_self, Function.update_self]
        exact hlinked.remove (hm.vecs _) hu
      · rw [Function.update_of_ne hf, Function.update_of_ne hf]
        refine Linked.remove_of_disjoint (hs.vecs f) hu fun a ha ha' => hf ?_
        exact (hplaced.vec f a ha').symm.trans (hplaced.vec _ a ha)
    · change { item := _, group := h.groups } :: h.deletions = _
      rw [hs.deletions, hs.groups]
      rfl
  · intro f p l hp
    rw [hs.vec]
    exact (Passes.remove (s := h.vecLinks (m.vec v).frame) hp hlinked hu).mono fun a ha =>
      (hmem f a).mp ha

theorem VecStep.objs {h h' : Heap} {m m' : Model} (hshows : h'.Shows m')
    (hvec : h'.vecNext = h.vecNext)
    (hvecs : m'.vecs = m.vecs) : VecStep h h' m m' where
  shows := hshows
  passes f p l hp := by rwa [hvec, hvecs]

theorem Shows.deleteObjsOf {f ref : Addr} (hs : h.Shows m) (hm : m.Distinct)
    (hplaced : m.Placed) (hd : m.deleteObjsByRef f ref = some m') :
    ∃ h', EndsWith (fun n => h.deleteObjsByRef n (h.objs f) ref) h' ∧ VecStep h h' m m' := by
  obtain ⟨h', hends, hshows, hvec⟩ := hs.deleteObjsByRef hm hplaced (hm.objs f) (hplaced.obj f)
    ((hs.objs f).passes _) hd
  exact ⟨h', hends, .objs hshows hvec (Model.vecs_deleteObjsByRef hd).1⟩

theorem Shows.deleteVecsByRef {k : ℕ} {f ref : Addr}
    (hturn : ∀ {h : Heap} {m m' : Model} {w : Addr}, h.Shows m → m.Distinct → m.Placed →
      Model.doDeleteVec k m w = some m' →
      ∃ h', EndsWith (fun n => Heap.doDeleteVec n h w) h' ∧ VecStep h h' m m') (hs : h.Shows m)
    (hm : m.Distinct) (hplaced : m.Placed) (hl : l.Nodup) (hframe : ∀ w ∈ l, (m.vec w).frame = f)
    (hp : Passes h.vecNext (· ∈ m.vecs f) p l)
    (hd : l.foldlM (fun m w => if (m.vec w).base = some ref then Model.doDeleteVec k m w
      else some m) m = some m') :
    ∃ h', EndsWith (fun n => Heap.deleteVecsByRef n h p ref) h' ∧ VecStep h h' m m' := by
  induction l generalizing h m p with
  | nil =>
    cases hd
    cases hp
    exact ⟨h, (endsWith_const h).succ fun _ => rfl, hs, fun _ _ _ hp => hp⟩
  | cons w l ih =>
    obtain ⟨hw, hl⟩ := List.nodup_cons.mp hl
    rw [List.foldlM_cons] at hd
    obtain ⟨m1, hstep, hrest⟩ := Option.bind_eq_some_iff.mp hd
    cases hp with
    | skip hgone hp =>
      -- the model does nothing for a vector that is not on the list
      by_cases hbase : (m.vec w).base = some ref
      · rw [if_pos hbase] at hstep
        cases k with
        | zero => cases hstep
        | succ k =>
          obtain ⟨m2, -, -, hunlink, -⟩ := Model.exists_of_doDeleteVec hstep
          obtain ⟨u, hu, -⟩ := Model.unlinkVec_eq hunlink
          rw [hframe w List.mem_cons_self] at hu
          exact absurd (mem_of_unlink hu) hgone
      · rw [if_neg hbase] at hstep
        cases hstep
        exact ih hs hm hplaced hl (fun w hw => hframe w (List.mem_cons_of_mem _ hw)) hp hrest
    | here hp =>
      have hstep' : ∃ h1, EndsWith
          (fun n => if (h.vec w).base = some ref then Heap.doDeleteVec n h w else some h) h1 ∧
          VecStep h h1 m m1 ∧ m.Shrinks m1 := by
        rw [hs.vec]
        by_cases hbase : (m.vec w).base = some ref
        · rw [if_pos hbase] at hstep
          simp only [if_pos hbase]
          obtain ⟨h1, hends, hvec⟩ := hturn hs hm hplaced hstep
          exact ⟨h1, hends, hvec, (Model.deleteSteps_doDeleteVec hstep).shrinks⟩
        · rw [if_neg hbase] at hstep
          cases hstep
          simp only [if_neg hbase]
          exact ⟨h, endsWith_const h, ⟨hs, fun _ _ _ hp => hp⟩, Model.Shrinks.refl m⟩
      obtain ⟨h1, hends, hvec, hshrinks⟩ := hstep'
      have hp1 := (hvec.passes f _ _ (.here hp)).tail hw
      obtain ⟨h2, hends', hvec'⟩ := ih hvec.shows (hm.shrinks hshrinks)
        (hplaced.shrinks hshrinks) hl
        (fun w hw => by rw [hshrinks.vec]; exact hframe w (List.mem_cons_of_mem _ hw)) hp1 hrest
      have hloop := hends.bind
        (c := fun n (h : Heap) => Heap.deleteVecsByRef n h (h.vecNext w) ref) hends'
      exact ⟨h2, hloop.succ fun _ => by rw [Heap.deleteVecsByRef]; rfl, hvec.trans hvec'⟩

def deleteAtRoot (n : ℕ) (h : Heap) (v : Addr) : Option Heap :=
  match h.frames with
  | [] => some h
  | root :: _ => h.deleteObjsByRef n (h.objs root) v

theorem Shows.doDeleteVec {k : ℕ} {v : Addr} (hs : h.Shows m) (hm : m.Distinct)
    (hplaced : m.Placed) (hd : Model.doDeleteVec k m v = some m') :
    ∃ h', EndsWith (fun n => Heap.doDeleteVec n h v) h' ∧ VecStep h h' m m' := by
  induction k generalizing h m m' v with
  | zero => cases hd
  | succ k ih =>
    obtain ⟨m1, m2, m3, hd1, hd2, hd3, hroot⟩ := Model.exists_of_doDeleteVec hd
    have hm1 := hm.shrinks (Model.DeleteStep.vec v hd1).shrinks
    have hplaced1 := hplaced.shrinks (Model.DeleteStep.vec v hd1).shrinks
    obtain ⟨h1, hends1, hstep1⟩ := hs.unlinkVec hm hplaced hd1
    obtain ⟨h2, hends2, hstep2⟩ := hstep1.shows.deleteVecsByRef ih hm1 hplaced1
      (hm1.vecs (m.vec v).frame) (hplaced1.vec _) ((hstep1.shows.vecs _).passes _) hd2
    have hshrinks2 : m1.Shrinks m2 :=
      foldlM_preserves (m1.Shrinks ·) (fun s w s' hs' hstep => by
        by_cases hbase : (s.vec w).base = some v
        · rw [if_pos hbase] at hstep
          exact hs'.trans (Model.deleteSteps_doDeleteVec hstep).shrinks
        · rw [if_neg hbase] at hstep
          cases hstep
          exact hs') (Model.Shrinks.refl m1) hd2
    obtain ⟨h3, hends3, hstep3⟩ :=
      hstep2.shows.deleteObjsOf (hm1.shrinks hshrinks2) (hplaced1.shrinks hshrinks2) hd3
    have hshrinks3 := hshrinks2.trans (Model.deleteSteps_deleteObjsByRef hd3).shrinks
    have hlast : ∃ h4, EndsWith (fun n => deleteAtRoot n h3 v) h4 ∧ VecStep h3 h4 m3 m' := by
      simp only [deleteAtRoot, hstep3.shows.frames]
      obtain ⟨hnil, rfl⟩ | ⟨root, hhead, hroot⟩ := hroot
      · rw [hnil]
        exact ⟨h3, endsWith_const h3, hstep3.shows, fun _ _ _ hp => hp⟩
      · obtain ⟨frames, hframes⟩ := List.head?_eq_some_iff.mp hhead
        rw [hframes]
        exact hstep3.shows.deleteObjsOf (hm1.shrinks hshrinks3) (hplaced1.shrinks hshrinks3) hroot
    obtain ⟨h4, hends4, hstep4⟩ := hlast
    refine ⟨h4, ?_, ((hstep1.trans hstep2).trans hstep3).trans hstep4⟩
    rw [← hs.vec] at hends2 hends3
    have hcall := hends1.bind
      (c := fun n (h' : Heap) => do
        let h' ← Heap.deleteVecsByRef n h' (h'.vecs (h.vec v).frame) v
        let h' ← h'.deleteObjsByRef n (h'.objs (h.vec v).frame) v
        deleteAtRoot n h' v)
      (hends2.bind (hends3.bind hends4))
    exact hcall.succ fun n => by rw [Heap.doDeleteVec]; rfl

end Heap

end Openmoko.Fped
