import Openmoko.Fped.Proof.DeleteSteps

/-!
# The cascade of a deletion

Deleting a vector deletes the vectors that depend on it, and no others, and the objects that refer to
one of these. It always comes to an end.
-/

namespace Openmoko.Fped.Model

inductive Depends (m : Model) (v : Addr) : Addr → Prop
  | self : Depends m v v
  | step {w u : Addr} (hlisted : w ∈ m.vecs (m.vec w).frame) (hbase : (m.vec w).base = some u)
      (h : Depends m v u) : Depends m v w

structure Placed (m : Model) : Prop where
  vec : ∀ f, ∀ v ∈ m.vecs f, (m.vec v).frame = f
  obj : ∀ f, ∀ o ∈ m.objs f, (m.obj o).frame = f

variable {m m' : Model} {v o f : Addr} {l : List Addr} {n : ℕ}

theorem Placed.shrinks (hm : m.Placed) (h : m.Shrinks m') : m'.Placed where
  vec f v hv := by
    rw [h.vec]
    exact hm.vec f v ((h.vecs f).subset hv)
  obj f o ho := by
    rw [h.obj]
    exact hm.obj f o ((h.objs f).subset ho)

theorem Depends.shrinks (h : m.Shrinks m') {w : Addr} (hw : m'.Depends v w) : m.Depends v w := by
  induction hw with
  | self => exact .self
  | step hlisted hbase _ ih =>
    rw [h.vec] at hlisted hbase
    exact .step ((h.vecs _).subset hlisted) hbase ih

theorem Depends.trans {w x : Addr} (h : m.Depends v w) (h' : m.Depends w x) : m.Depends v x := by
  induction h' with
  | self => exact h
  | step hlisted hbase _ ih => exact .step hlisted hbase ih

theorem objHasRef_shrinks (h : m.Shrinks m') : m'.objHasRef = m.objHasRef := by
  funext o ref
  rw [objHasRef, objHasRef, h.obj]

theorem doDeleteObj_eq (h : m.doDeleteObj o = some m') :
    m'.vecs = m.vecs ∧ m'.frames = m.frames ∧ ∃ u, unlink o (m.objs (m.obj o).frame) = some u ∧
      m'.objs = Function.update m.objs (m.obj o).frame u.rest := by
  obtain ⟨m1, hunlink, hreset⟩ := Option.bind_eq_some_iff.mp h
  cases hreset
  obtain ⟨u, hu, rfl⟩ := unlinkObj_eq hunlink
  rw [resetRefsOf_eq]
  exact ⟨rfl, rfl, u, hu, rfl⟩

theorem mem_objs_doDeleteObj (hm : m.Distinct) (hplaced : m.Placed)
    (h : m.doDeleteObj o = some m') (f o' : Addr) : o' ∈ m'.objs f ↔ o' ∈ m.objs f ∧ o' ≠ o := by
  obtain ⟨-, -, u, hu, hobjs⟩ := doDeleteObj_eq h
  rw [hobjs]
  by_cases hf : f = (m.obj o).frame
  · subst hf
    rw [Function.update_self, mem_rest_iff (hm.objs _) hu]
  · rw [Function.update_of_ne hf]
    constructor
    · intro ho'
      refine ⟨ho', ?_⟩
      rintro rfl
      exact hf (hplaced.obj f o' ho').symm
    · exact And.left

theorem doDeleteObj_isSome (h : o ∈ m.objs (m.obj o).frame) : ∃ m', m.doDeleteObj o = some m' := by
  obtain ⟨u, hu⟩ := unlink_isSome h
  rw [doDeleteObj, unlinkObj, hu]
  exact ⟨_, rfl⟩

section DeleteWhere

variable {p : Model → Addr → Bool} {q : Addr → Bool}

theorem vecs_deleteWhere
    (h : l.foldlM (fun m o => if p m o then m.doDeleteObj o else some m) m = some m') :
    m'.vecs = m.vecs ∧ m'.frames = m.frames := by
  refine foldlM_preserves (fun s => s.vecs = m.vecs ∧ s.frames = m.frames) ?_ ⟨rfl, rfl⟩ h
  rintro s o s' ⟨hvecs, hframes⟩ hstep
  by_cases hp : p s o = true
  · rw [if_pos hp] at hstep
    obtain ⟨hvecs', hframes', -⟩ := doDeleteObj_eq hstep
    exact ⟨hvecs'.trans hvecs, hframes'.trans hframes⟩
  · rw [if_neg hp] at hstep
    cases hstep
    exact ⟨hvecs, hframes⟩

theorem mem_objs_deleteWhere (hm : m.Distinct) (hplaced : m.Placed)
    (hp : ∀ s, m.Shrinks s → p s = q)
    (h : l.foldlM (fun m o => if p m o then m.doDeleteObj o else some m) m = some m')
    (f o : Addr) : o ∈ m'.objs f ↔ o ∈ m.objs f ∧ ¬(o ∈ l ∧ q o = true) := by
  induction l generalizing m with
  | nil =>
    cases h
    simp
  | cons a l ih =>
    rw [List.foldlM_cons, hp m (Shrinks.refl m)] at h
    by_cases ha : q a = true
    · rw [if_pos ha] at h
      obtain ⟨s, hs, hrest⟩ := Option.bind_eq_some_iff.mp h
      have hshrinks := (deleteSteps_doDeleteObj hs).shrinks
      rw [ih (hm.shrinks hshrinks) (hplaced.shrinks hshrinks)
        (fun t ht => hp t (hshrinks.trans ht)) hrest, mem_objs_doDeleteObj hm hplaced hs,
        List.mem_cons]
      constructor
      · rintro ⟨⟨ho, hne⟩, hnot⟩
        exact ⟨ho, fun ⟨hmem, hq⟩ => hmem.elim hne fun hmem => hnot ⟨hmem, hq⟩⟩
      · rintro ⟨ho, hnot⟩
        refine ⟨⟨ho, ?_⟩, fun ⟨hmem, hq⟩ => hnot ⟨.inr hmem, hq⟩⟩
        rintro rfl
        exact hnot ⟨.inl rfl, ha⟩
    · rw [if_neg ha] at h
      rw [ih hm hplaced hp h, List.mem_cons]
      constructor
      · rintro ⟨ho, hnot⟩
        refine ⟨ho, ?_⟩
        rintro ⟨rfl | hmem, hq⟩
        · exact ha hq
        · exact hnot ⟨hmem, hq⟩
      · rintro ⟨ho, hnot⟩
        exact ⟨ho, fun ⟨hmem, hq⟩ => hnot ⟨.inr hmem, hq⟩⟩

theorem deleteWhere_isSome (hm : m.Distinct) (hplaced : m.Placed)
    (hl : l.Nodup) (hlisted : ∀ o ∈ l, o ∈ m.objs (m.obj o).frame) :
    ∃ m', l.foldlM (fun m o => if p m o then m.doDeleteObj o else some m) m = some m' := by
  induction l generalizing m with
  | nil => exact ⟨m, rfl⟩
  | cons a l ih =>
    obtain ⟨ha, hl⟩ := List.nodup_cons.mp hl
    rw [List.foldlM_cons]
    by_cases hp : p m a = true
    · obtain ⟨s, hs⟩ := doDeleteObj_isSome (hlisted a List.mem_cons_self)
      have hshrinks := (deleteSteps_doDeleteObj hs).shrinks
      obtain ⟨m', hm'⟩ := ih (hm.shrinks hshrinks) (hplaced.shrinks hshrinks) hl (by
        intro o ho
        rw [hshrinks.obj, mem_objs_doDeleteObj hm hplaced hs]
        exact ⟨hlisted o (List.mem_cons_of_mem a ho), fun heq => ha (heq ▸ ho)⟩)
      exact ⟨m', by rw [if_pos hp, hs]; exact hm'⟩
    · obtain ⟨m', hm'⟩ := ih hm hplaced hl fun o ho => hlisted o (List.mem_cons_of_mem a ho)
      exact ⟨m', by rw [if_neg hp]; exact hm'⟩

end DeleteWhere

theorem mem_objs_deleteObjsByRef {ref : Addr} (hm : m.Distinct)
    (hplaced : m.Placed) (h : m.deleteObjsByRef f ref = some m') (g o : Addr) :
    o ∈ m'.objs g ↔ o ∈ m.objs g ∧ ¬(o ∈ m.objs f ∧ m.objHasRef o ref = true) :=
  mem_objs_deleteWhere (p := fun m o => m.objHasRef o ref) (q := fun o => m.objHasRef o ref) hm
    hplaced (fun s hs => by rw [objHasRef_shrinks hs]) h g o

theorem deleteObjsByRef_isSome (hm : m.Distinct) (hplaced : m.Placed) (f ref : Addr) :
    ∃ m', m.deleteObjsByRef f ref = some m' := by
  apply deleteWhere_isSome hm hplaced (hm.objs f)
  intro o ho
  rwa [hplaced.obj f o ho]

theorem vecs_deleteObjsByRef {ref : Addr}
    (h : m.deleteObjsByRef f ref = some m') : m'.vecs = m.vecs ∧ m'.frames = m.frames :=
  vecs_deleteWhere (p := fun m o => m.objHasRef o ref) h

theorem vecs_unlinkVec (hm : m.Distinct) (hplaced : m.Placed)
    (h : m.unlinkVec v = some m') (f w : Addr) : w ∈ m'.vecs f ↔ w ∈ m.vecs f ∧ w ≠ v := by
  obtain ⟨u, hu, rfl⟩ := unlinkVec_eq h
  change w ∈ Function.update m.vecs (m.vec v).frame u.rest f ↔ _
  by_cases hf : f = (m.vec v).frame
  · subst hf
    rw [Function.update_self, mem_rest_iff (hm.vecs _) hu]
  · rw [Function.update_of_ne hf]
    constructor
    · intro hw
      refine ⟨hw, ?_⟩
      rintro rfl
      exact hf (hplaced.vec f w hw).symm
    · exact And.left

/-- What the deletion of vectors and objects leaves: bases of vectors, and what objects refer to, are
still there if they were. -/
structure Closed (m m' : Model) (f : Addr) : Prop where
  base : ∀ w ∈ m'.vecs f, ∀ b, (m.vec w).base = some b → b ∈ m.vecs f → b ∈ m'.vecs f
  refs : ∀ o ∈ m'.objs f, ∀ w, m.objHasRef o w = true → w ∈ m.vecs f → w ∈ m'.vecs f

theorem Closed.trans {m'' : Model} (h : Closed m m' f) (h' : Closed m' m'' f)
    (hshrinks : m.Shrinks m') (hshrinks' : m'.Shrinks m'') : Closed m m'' f where
  base w hw b hb hlisted := by
    have hb' := h.base w ((hshrinks'.vecs f).subset hw) b hb hlisted
    rw [← hshrinks.vec] at hb
    exact h'.base w hw b hb hb'
  refs o ho w href hlisted := by
    have hw' := h.refs o ((hshrinks'.objs f).subset ho) w href hlisted
    rw [← objHasRef_shrinks hshrinks] at href
    exact h'.refs o ho w href hw'

structure Removes (m m' : Model) (f : Addr) (from_ : Addr → Prop) : Prop where
  steps : DeleteSteps m m'
  frames : m'.frames = m.frames
  vecs : ∀ g, ∀ w ∈ m.vecs g, w ∉ m'.vecs g → ∃ v, from_ v ∧ m.Depends v w
  objs : ∀ g, ∀ o ∈ m.objs g, o ∉ m'.objs g →
    ∃ v w, from_ v ∧ m.Depends v w ∧ m.objHasRef o w = true
  closed : Closed m m' f

theorem Removes.refl (m : Model) (f : Addr) (from_ : Addr → Prop) : Removes m m f from_ where
  steps := Relation.ReflTransGen.refl
  frames := rfl
  vecs _ _ hw hnot := absurd hw hnot
  objs _ _ ho hnot := absurd ho hnot
  closed := ⟨fun _ _ _ _ h => h, fun _ _ _ _ h => h⟩

theorem Removes.trans {m'' : Model} {from_ : Addr → Prop}
    (h : Removes m m' f from_) (h' : Removes m' m'' f from_) : Removes m m'' f from_ where
  steps := h.steps.trans h'.steps
  frames := h'.frames.trans h.frames
  vecs g w hw hnot := by
    by_cases hmid : w ∈ m'.vecs g
    · obtain ⟨v, hv, hdepends⟩ := h'.vecs g w hmid hnot
      exact ⟨v, hv, hdepends.shrinks h.steps.shrinks⟩
    · exact h.vecs g w hw hmid
  objs g o ho hnot := by
    by_cases hmid : o ∈ m'.objs g
    · obtain ⟨v, w, hv, hdepends, href⟩ := h'.objs g o hmid hnot
      rw [objHasRef_shrinks h.steps.shrinks] at href
      exact ⟨v, w, hv, hdepends.shrinks h.steps.shrinks, href⟩
    · exact h.objs g o ho hmid
  closed := h.closed.trans h'.closed h.steps.shrinks h'.steps.shrinks

theorem Removes.mono {p q : Addr → Prop} (h : Removes m m' f p)
    (hpq : ∀ v, p v → q v) : Removes m m' f q where
  steps := h.steps
  frames := h.frames
  vecs g w hw hnot := by
    obtain ⟨v, hv, hdepends⟩ := h.vecs g w hw hnot
    exact ⟨v, hpq v hv, hdepends⟩
  objs g o ho hnot := by
    obtain ⟨v, w, hv, hdepends, href⟩ := h.objs g o ho hnot
    exact ⟨v, w, hpq v hv, hdepends, href⟩
  closed := h.closed

theorem removes_deleteObjsByRef {g : Addr} (hm : m.Distinct)
    (hplaced : m.Placed) (h : m.deleteObjsByRef g v = some m') : Removes m m' f (· = v) where
  steps := deleteSteps_deleteObjsByRef h
  frames := (vecs_deleteObjsByRef h).2
  vecs g' w hw hnot := by
    rw [(vecs_deleteObjsByRef h).1] at hnot
    exact absurd hw hnot
  objs g' o ho hnot := by
    rw [mem_objs_deleteObjsByRef hm hplaced h, not_and_not_right] at hnot
    exact ⟨v, v, rfl, .self, (hnot ho).2⟩
  closed := by
    constructor
    · intro w _ b _ hlisted
      rwa [(vecs_deleteObjsByRef h).1]
    · intro o _ w _ hlisted
      rwa [(vecs_deleteObjsByRef h).1]

theorem removes_deleteVecsByRef
    (hturn : ∀ {m m' : Model} {w : Addr}, m.Distinct → m.Placed → (m.vec w).frame = f →
      doDeleteVec n m w = some m' → Removes m m' f (· = w) ∧ w ∉ m'.vecs f)
    (hm : m.Distinct) (hplaced : m.Placed) (hl : ∀ w ∈ l, (m.vec w).frame = f)
    (h : l.foldlM (fun m w => if (m.vec w).base = some v then doDeleteVec n m w else some m) m =
      some m') :
    Removes m m' f (fun w => w ∈ l ∧ (m.vec w).base = some v) ∧
      ∀ w ∈ l, (m.vec w).base = some v → w ∉ m'.vecs f := by
  induction l generalizing m with
  | nil =>
    cases h
    exact ⟨Removes.refl _ f _, fun w hw => absurd hw List.not_mem_nil⟩
  | cons a l ih =>
    rw [List.foldlM_cons] at h
    obtain ⟨s, hs, hrest⟩ := Option.bind_eq_some_iff.mp h
    by_cases hbase : (m.vec a).base = some v
    · rw [if_pos hbase] at hs
      obtain ⟨hremoves, hgone⟩ := hturn hm hplaced (hl a List.mem_cons_self) hs
      have hshrinks := hremoves.steps.shrinks
      obtain ⟨hrest', hgone'⟩ := ih (hm.shrinks hshrinks) (hplaced.shrinks hshrinks)
        (fun w hw => by rw [hshrinks.vec]; exact hl w (List.mem_cons_of_mem a hw)) hrest
      rw [hshrinks.vec] at hrest' hgone'
      refine ⟨?_, ?_⟩
      · apply (hremoves.mono ?_).trans (hrest'.mono ?_)
        · rintro w rfl
          exact ⟨List.mem_cons_self, hbase⟩
        · exact fun w hw => ⟨List.mem_cons_of_mem a hw.1, hw.2⟩
      · intro w hw hwbase
        obtain rfl | hw := List.mem_cons.mp hw
        · exact fun hmem => hgone ((hrest'.steps.shrinks.vecs f).subset hmem)
        · exact hgone' w hw hwbase
    · rw [if_neg hbase] at hs
      cases hs
      obtain ⟨hrest', hgone'⟩ := ih hm hplaced (fun w hw => hl w (List.mem_cons_of_mem a hw)) hrest
      refine ⟨hrest'.mono fun w hw => ⟨List.mem_cons_of_mem a hw.1, hw.2⟩, ?_⟩
      intro w hw hwbase
      obtain rfl | hw := List.mem_cons.mp hw
      · exact absurd hwbase hbase
      · exact hgone' w hw hwbase

theorem removes_doDeleteVec (hm : m.Distinct)
    (hplaced : m.Placed) (h : doDeleteVec n m v = some m') :
    Removes m m' (m.vec v).frame (· = v) ∧ v ∉ m'.vecs (m.vec v).frame := by
  induction n generalizing m m' v with
  | zero => cases h
  | succ n ih =>
    obtain ⟨m1, m2, m3, h1, h2, h3, hroot⟩ := exists_of_doDeleteVec h
    generalize hf : (m.vec v).frame = f at h2 h3 ⊢
    have hs1 := (DeleteStep.vec v h1).shrinks
    have hmem := vecs_unlinkVec hm hplaced h1
    have hm1 := hm.shrinks hs1
    have hplaced1 := hplaced.shrinks hs1
    obtain ⟨hremoves, hgone⟩ := removes_deleteVecsByRef
      (fun hm hplaced hframe h => hframe ▸ ih hm hplaced h) hm1 hplaced1
      (hplaced1.vec f) h2
    have hs2 := hremoves.steps.shrinks
    have hobjs := removes_deleteObjsByRef (f := f) (hm1.shrinks hs2) (hplaced1.shrinks hs2) h3
    have hs3 := hs2.trans hobjs.steps.shrinks
    have hlast : Removes m3 m' f (· = v) := by
      obtain ⟨-, rfl⟩ | ⟨root, -, hroot⟩ := hroot
      · exact Removes.refl _ f _
      · exact removes_deleteObjsByRef (hm1.shrinks hs3) (hplaced1.shrinks hs3) hroot
    have hrest : Removes m1 m' f fun w => w = v ∨ w ∈ m1.vecs f ∧ (m.vec w).base = some v := by
      rw [hs1.vec] at hremoves
      exact ((hremoves.mono fun w => .inr).trans (hobjs.mono fun w => .inl)).trans
        (hlast.mono fun w => .inl)
    have hfrom : ∀ x w, (x = v ∨ x ∈ m1.vecs f ∧ (m.vec x).base = some v) → m1.Depends x w →
        m.Depends v w := by
      rintro x w (rfl | ⟨hx, hbase⟩) hdepends
      · exact hdepends.shrinks hs1
      · have hxm := ((hmem f x).mp hx).1
        rw [← hplaced.vec f x hxm] at hxm
        exact (Depends.step hxm hbase .self).trans (hdepends.shrinks hs1)
    have hleft : ∀ w ∈ m'.vecs f, w ∈ m2.vecs f := fun w hw =>
      (hobjs.steps.shrinks.vecs f).subset ((hlast.steps.shrinks.vecs f).subset hw)
    refine ⟨⟨?_, ?_, ?_, ?_, ?_⟩, ?_⟩
    · exact (Relation.ReflTransGen.single (.vec v h1)).trans hrest.steps
    · obtain ⟨u, -, rfl⟩ := unlinkVec_eq h1
      exact hrest.frames
    · intro g w hw hnot
      refine ⟨v, rfl, ?_⟩
      by_cases hwv : w = v
      · rw [hwv]
        exact .self
      · obtain ⟨x, hx, hdepends⟩ := hrest.vecs g w ((hmem g w).mpr ⟨hw, hwv⟩) hnot
        exact hfrom x w hx hdepends
    · intro g o ho hnot
      have ho1 : o ∈ m1.objs g := by
        obtain ⟨u, -, rfl⟩ := unlinkVec_eq h1
        exact ho
      obtain ⟨x, w, hx, hdepends, href⟩ := hrest.objs g o ho1 hnot
      rw [objHasRef_shrinks hs1] at href
      exact ⟨v, w, rfl, hfrom x w hx hdepends, href⟩
    · constructor
      · intro w hw b hb hlisted
        have hw2 := hleft w hw
        rw [← hs1.vec] at hb
        by_cases hbv : b = v
        · rw [hbv] at hb
          exact absurd hw2 (hgone w ((hs2.vecs f).subset hw2) hb)
        · exact hrest.closed.base w hw b hb ((hmem f b).mpr ⟨hlisted, hbv⟩)
      · intro o ho w href hlisted
        by_cases hwv : w = v
        · rw [hwv, ← objHasRef_shrinks (hs1.trans hs2)] at href
          have hnot := (mem_objs_deleteObjsByRef (hm1.shrinks hs2) (hplaced1.shrinks hs2) h3 f
            o).mp ((hlast.steps.shrinks.objs f).subset ho)
          exact absurd ⟨hnot.1, href⟩ hnot.2
        · rw [← objHasRef_shrinks hs1] at href
          exact hrest.closed.refs o ho w href ((hmem f w).mpr ⟨hlisted, hwv⟩)
    · intro hv
      exact ((hmem f v).mp ((hs2.vecs f).subset (hleft v hv))).2 rfl

theorem deleteVecsByRef_isSome
    (hturn : ∀ {m : Model} {w : Addr}, m.Distinct → m.Placed → w ∈ m.vecs f →
      (m.vecs f).length ≤ n → ∃ m', doDeleteVec n m w = some m')
    (hm : m.Distinct) (hplaced : m.Placed) (hl : l.Nodup)
    (hlisted : ∀ w ∈ l, (m.vec w).base = some v → w ∈ m.vecs f) (hv : ∀ g, v ∉ m.vecs g)
    (hlength : (m.vecs f).length ≤ n) :
    ∃ m', l.foldlM (fun m w => if (m.vec w).base = some v then doDeleteVec n m w else some m) m =
      some m' := by
  induction l generalizing m with
  | nil => exact ⟨m, rfl⟩
  | cons a l ih =>
    obtain ⟨ha, hl⟩ := List.nodup_cons.mp hl
    rw [List.foldlM_cons]
    by_cases hbase : (m.vec a).base = some v
    · have hamem := hlisted a List.mem_cons_self hbase
      obtain ⟨s, hs⟩ := hturn hm hplaced hamem hlength
      obtain ⟨hremoves, -⟩ := removes_doDeleteVec hm hplaced hs
      have hshrinks := hremoves.steps.shrinks
      have hstill : ∀ w ∈ l, (s.vec w).base = some v → w ∈ s.vecs f := by
        intro w hw hwbase
        rw [hshrinks.vec] at hwbase
        by_contra hnot
        obtain ⟨x, rfl, hdepends⟩ := hremoves.vecs f w
          (hlisted w (List.mem_cons_of_mem a hw) hwbase) hnot
        cases hdepends with
        | self => exact ha hw
        | step _ hbase' hdepends =>
          rw [hwbase] at hbase'
          cases hbase'
          cases hdepends with
          | self => exact hv f hamem
          | step hlisted' _ _ => exact hv _ hlisted'
      obtain ⟨m', hm'⟩ := ih (hm.shrinks hshrinks) (hplaced.shrinks hshrinks) hl hstill
        (fun g hg => hv g ((hshrinks.vecs g).subset hg))
        ((hshrinks.vecs f).length_le.trans hlength)
      exact ⟨m', by rw [if_pos hbase, hs]; exact hm'⟩
    · obtain ⟨m', hm'⟩ := ih hm hplaced hl
        (fun w hw => hlisted w (List.mem_cons_of_mem a hw)) hv hlength
      exact ⟨m', by rw [if_neg hbase]; exact hm'⟩

theorem doDeleteVec_isSome (hm : m.Distinct) (hplaced : m.Placed)
    (hv : v ∈ m.vecs (m.vec v).frame) (hlength : (m.vecs (m.vec v).frame).length ≤ n) :
    ∃ m', doDeleteVec n m v = some m' := by
  induction n generalizing m v with
  | zero =>
    rw [Nat.le_zero, List.length_eq_zero_iff] at hlength
    rw [hlength] at hv
    exact absurd hv List.not_mem_nil
  | succ n ih =>
    obtain ⟨u, hu⟩ := unlink_isSome hv
    have h1 : ∃ m1, m.unlinkVec v = some m1 := ⟨_, by rw [unlinkVec, hu]; rfl⟩
    obtain ⟨m1, h1⟩ := h1
    have hs1 := (DeleteStep.vec v h1).shrinks
    have hm1 := hm.shrinks hs1
    have hplaced1 := hplaced.shrinks hs1
    generalize hf : (m.vec v).frame = f at hv hlength hu
    have hlength1 : (m1.vecs f).length ≤ n := by
      obtain ⟨u', hu', rfl⟩ := unlinkVec_eq h1
      rw [hf] at hu'
      have := length_of_unlink hu'
      change (Function.update m.vecs (m.vec v).frame u'.rest f).length ≤ n
      rw [hf, Function.update_self]
      omega
    obtain ⟨m2, h2⟩ := deleteVecsByRef_isSome (n := n) (v := v) (f := f)
      (fun {m w} hm hplaced hw hlength => by
        have hframe := hplaced.vec f w hw
        exact ih hm hplaced (by rwa [hframe]) (by rwa [hframe]))
      hm1 hplaced1 (hm1.vecs f) (fun w hw _ => hw)
      (fun g hg => ((vecs_unlinkVec hm hplaced h1 g v).mp hg).2 rfl) hlength1
    have hs2 : m1.Shrinks m2 := by
      obtain ⟨hremoves, -⟩ := removes_deleteVecsByRef
        (fun hm hplaced hframe h => hframe ▸ removes_doDeleteVec hm hplaced h) hm1 hplaced1
        (hplaced1.vec f) h2
      exact hremoves.steps.shrinks
    obtain ⟨m3, h3⟩ := deleteObjsByRef_isSome (hm1.shrinks hs2) (hplaced1.shrinks hs2) f v
    have hs3 := hs2.trans (deleteSteps_deleteObjsByRef h3).shrinks
    rw [doDeleteVec, h1, hf]
    dsimp only [Option.bind_eq_bind, Option.bind_some]
    rw [h2, Option.bind_some, h3, Option.bind_some]
    cases m3.frames with
    | nil => exact ⟨m3, rfl⟩
    | cons root _ => exact deleteObjsByRef_isSome (hm1.shrinks hs3) (hplaced1.shrinks hs3) root v

end Openmoko.Fped.Model
