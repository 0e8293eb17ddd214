import Openmoko.Fped.FpdParser
import Openmoko.Fped.Proof.FrameLines
import Openmoko.Library.Acyclic

/-!
# Frames inside frames

`generate_frame` goes from a frame to the frames that it refers to, and so does `is_parent_of`. What
an action of the grammar adds to this is one reference at most. `%frame` asks `is_parent_of` before;
`frame` in the definition of a frame does not, and the frame that is being defined is known by then.
-/

namespace Openmoko.Fped

open Relation

def FpdFrame.refs (frame : FpdFrame) : List Name := frame.objs.filterMap fun o => o.obj.ref

def Contains (frames : List FpdFrame) (f g : Option Name) : Prop :=
  ∃ ref ∈ refsOf frames f, g = some ref

variable {frame : FpdFrame} {α : Type} {qualifier : Option Name} {st st' : Fpd} {base : BaseText}
  {depth : ℕ} {rounds : Option Name → List (Option Name) → ℕ}

section Frames

variable {frames frames' : List FpdFrame} {name : Option Name} {f : FpdFrame → FpdFrame}

theorem refsOf_eq (frames : List FpdFrame) (name : Option Name) :
    refsOf frames name = ((frameNamed frames name).map FpdFrame.refs).getD [] := by
  unfold refsOf
  cases frameNamed frames name with
  | none => rfl
  | some frame => rfl

theorem contains_le (hrefs : ∀ name, refsOf frames' name ⊆ refsOf frames name) :
    Contains frames' ≤ Contains frames := by
  rintro a b ⟨ref, href, hb⟩
  exact ⟨ref, hrefs a href, hb⟩

theorem frameNamed_map (hname : ∀ frame, (f frame).name = frame.name) (frames : List FpdFrame)
    (name : Option Name) : frameNamed (frames.map f) name = (frameNamed frames name).map f := by
  unfold frameNamed
  rw [List.find?_map]
  simp only [Function.comp_def, hname]

theorem contains_map_le (hname : ∀ frame, (f frame).name = frame.name)
    (hrefs : ∀ frame, (f frame).refs ⊆ frame.refs) (frames : List FpdFrame) :
    Contains (frames.map f) ≤ Contains frames := by
  apply contains_le
  intro name
  rw [refsOf_eq, refsOf_eq, frameNamed_map hname]
  cases frameNamed frames name with
  | none => exact List.Subset.refl _
  | some frame => exact hrefs frame

theorem contains_updateFrame_le (hname : ∀ frame, (f frame).name = frame.name)
    (hrefs : ∀ frame, (f frame).refs ⊆ frame.refs) (frames : List FpdFrame)
    (name : Option Name) : Contains (updateFrame frames name f) ≤ Contains frames := by
  apply contains_map_le
  · intro frame
    split
    · exact hname frame
    · rfl
  · intro frame
    split
    · exact hrefs frame
    · exact List.Subset.refl _

theorem contains_updateFrame_other_le (hname : ∀ frame, (f frame).name = frame.name)
    (hobjs : ∀ frame, (f frame).objs = frame.objs) (frames : List FpdFrame)
    (name : Option Name) : Contains (updateFrame frames name f) ≤ Contains frames := by
  apply contains_updateFrame_le hname
  intro frame
  rw [FpdFrame.refs, hobjs]
  exact List.Subset.refl _

theorem frameNamed_updateFrame (hname : ∀ frame, (f frame).name = frame.name)
    (frames : List FpdFrame) (name other : Option Name) :
    frameNamed (updateFrame frames name f) other =
      (frameNamed frames other).map fun frame => if frame.name = name then f frame else frame := by
  apply frameNamed_map
  intro frame
  split
  · exact hname frame
  · rfl

theorem name_of_frameNamed (h : frameNamed frames name = some frame) : frame.name = name := by
  have hfound := List.find?_some h
  simpa using hfound

theorem contains_updateFrame (hframe : frameNamed frames name = some frame)
    {a b : Option Name} (h : Contains (updateFrame frames name f) a b)
    (hname : ∀ frame, (f frame).name = frame.name) (added : List Name)
    (hrefs : (f frame).refs ⊆ added ++ frame.refs) :
    Contains frames a b ∨ (a = name ∧ ∃ ref ∈ added, b = some ref) := by
  obtain ⟨ref, href, rfl⟩ := h
  rw [refsOf_eq, frameNamed_updateFrame hname] at href
  by_cases ha : a = name
  · subst ha
    rw [hframe, Option.map_some, Option.map_some, if_pos (name_of_frameNamed hframe)] at href
    have hold := hrefs href
    rw [List.mem_append] at hold
    apply hold.symm.imp
    · intro hmem
      refine ⟨ref, ?_, rfl⟩
      rw [refsOf_eq, hframe]
      exact hmem
    · exact fun hmem => ⟨rfl, ref, hmem, rfl⟩
  · refine Or.inl ⟨ref, ?_, rfl⟩
    rw [refsOf_eq]
    cases hother : frameNamed frames a with
    | none =>
      rw [hother] at href
      exact href
    | some other =>
      have hne : other.name ≠ name := by rwa [name_of_frameNamed hother]
      rw [hother, Option.map_some, Option.map_some, if_neg hne] at href
      exact href

theorem mem_names_of_contains {a b : Option Name} (h : Contains frames a b) :
    a ∈ frames.map FpdFrame.name := by
  obtain ⟨ref, href, -⟩ := h
  rw [refsOf_eq] at href
  cases hframe : frameNamed frames a with
  | none => simp [hframe] at href
  | some frame =>
    rw [List.mem_map]
    exact ⟨frame, List.mem_of_find?_eq_some hframe, name_of_frameNamed hframe⟩

end Frames

theorem refs_filter_subset (frame : FpdFrame) (p : ObjAt → Bool) :
    FpdFrame.refs { frame with objs := frame.objs.filter p } ⊆ frame.refs :=
  (List.filter_sublist.filterMap _).subset

theorem contains_deleteObjs_le (frames : List FpdFrame) (name : Option Name) (p : ObjAt → Bool) :
    Contains (deleteObjs frames name p) ≤ Contains frames := by
  unfold deleteObjs
  apply contains_updateFrame_le
  · exact fun _ => rfl
  · exact fun frame => refs_filter_subset frame _

theorem contains_foldl_le {step : List FpdFrame → α → List FpdFrame}
    (hstep : ∀ frames a, Contains (step frames a) ≤ Contains frames) (l : List α)
    (frames : List FpdFrame) : Contains (l.foldl step frames) ≤ Contains frames := by
  induction l generalizing frames with
  | nil => exact le_refl _
  | cons a l ih => exact (ih _).trans (hstep frames a)

theorem contains_deleteVec_le (name : Option Name) (depth id : ℕ) (frames : List FpdFrame) :
    Contains (deleteVec name depth id frames) ≤ Contains frames := by
  induction depth generalizing id frames with
  | zero => exact le_refl _
  | succ depth ih =>
    unfold deleteVec
    dsimp only
    refine (contains_deleteObjs_le _ _ _).trans ((contains_deleteObjs_le _ _ _).trans ?_)
    refine (contains_foldl_le (fun frames (v : Vec) => ih v.id frames) _ _).trans ?_
    apply contains_updateFrame_other_le
    · exact fun _ => rfl
    · exact fun _ => rfl

theorem frameNamed_filter {other : Option Name} {name : Name} (hother : other ≠ some name)
    (frames : List FpdFrame) :
    frameNamed (frames.filter fun frame => frame.name ≠ some name) other =
      frameNamed frames other := by
  unfold frameNamed
  rw [List.find?_filter]
  congr 1
  funext frame
  by_cases hframe : frame.name = other
  · simp [hframe, hother]
  · simp [hframe]

theorem contains_filter_le (frames : List FpdFrame) (name : Name) :
    Contains (frames.filter fun frame => frame.name ≠ some name) ≤ Contains frames := by
  apply contains_le
  intro other
  by_cases hother : other = some name
  · have hnone : frameNamed (frames.filter fun frame => frame.name ≠ some name) other = none := by
      rw [frameNamed, List.find?_eq_none]
      intro frame hframe
      simp only [List.mem_filter, decide_eq_true_eq] at hframe
      simpa [hother] using hframe.2
    rw [refsOf_eq, hnone]
    exact List.nil_subset _
  · rw [refsOf_eq, refsOf_eq, frameNamed_filter hother]
    exact List.Subset.refl _

theorem contains_deleteFrame_le (frames : List FpdFrame) (name : Name) :
    Contains (deleteFrame frames name) ≤ Contains frames := by
  refine le_trans ?_ (contains_filter_le frames name)
  apply contains_map_le
  · exact fun _ => rfl
  · exact fun frame => refs_filter_subset frame _

theorem contains_dbgDelete_le {name : Name} (h : dbgDelete st qualifier name = some st') :
    Contains st'.frames ≤ Contains st.frames := by
  unfold dbgDelete at h
  obtain ⟨frame, -, h⟩ := Option.bind_eq_some_iff.mp h
  split at h
  · cases h
    exact contains_deleteVec_le _ _ _ _
  · cases h
    exact contains_deleteObjs_le _ _ _
  · split at h
    · cases h
    · split at h
      · cases h
      · cases h
        exact contains_deleteFrame_le _ _

theorem ref_setAnchor {anchor : ℕ} {vec : VecAt} {o moved : FpdObj}
    (h : o.setAnchor anchor vec = some moved) : moved.ref = o.ref := by
  unfold FpdObj.setAnchor at h
  split at h
  · cases h
    cases o with
    | obj o =>
      obtain ⟨name, base, kind⟩ := o
      cases kind <;> rfl
    | meas name base high quals => rfl
  · unfold FpdObj.setOther at h
    split at h <;> cases h <;> rfl
  · unfold FpdObj.setStart at h
    split at h <;> cases h
    rfl
  · cases h

theorem contains_dbgMove_le {name dest : Name} {anchor : ℕ}
    (h : dbgMove st name anchor dest = some st') : Contains st'.frames ≤ Contains st.frames := by
  unfold dbgMove at h
  obtain ⟨frame, hframe, h⟩ := Option.bind_eq_some_iff.mp h
  obtain ⟨vec, -, h⟩ := Option.bind_eq_some_iff.mp h
  split at h
  · split at h
    · cases h
    · cases h
      apply contains_updateFrame_other_le
      · exact fun _ => rfl
      · exact fun _ => rfl
  · rename_i o _ hfound
    obtain ⟨moved, hmoved, h⟩ := Option.bind_eq_some_iff.mp h
    cases h
    intro a b hab
    have hmoves := contains_updateFrame hframe hab (fun _ => rfl) []
    simp only [List.not_mem_nil, false_and, exists_false, and_false, or_false] at hmoves
    apply hmoves
    intro ref href
    simp only [FpdFrame.refs, List.filterMap_map, List.mem_filterMap, Function.comp_def] at href
    obtain ⟨o', ho', href⟩ := href
    rw [List.nil_append, FpdFrame.refs, List.mem_filterMap]
    split at href
    · rw [ref_setAnchor hmoved] at href
      exact ⟨o, List.mem_of_find?_eq_some hfound, href⟩
    · exact ⟨o', ho', href⟩
  · cases h

theorem linkAfter_subset (addr : α → ℕ) (x : α) (slot : ℕ) (l : List α) :
    linkAfter addr x slot l ⊆ x :: l := by
  induction l with
  | nil => exact List.nil_subset _
  | cons a l ih =>
    unfold linkAfter
    split
    · simp
    · intro y hy
      rw [List.mem_cons] at hy
      obtain rfl | hy := hy
      · simp
      · have htail := ih hy
        rw [List.mem_cons] at htail ⊢
        exact htail.imp_right (List.mem_cons_of_mem _)

theorem linkAt_subset (addr : α → ℕ) (x : α) (next : Option ℕ) (l : List α) :
    linkAt addr x next l ⊆ x :: l := by
  cases next with
  | none => exact List.cons_subset_cons _ (List.nil_subset _)
  | some slot => exact linkAfter_subset addr x slot l

theorem contains_addVec_le {label : Option Name} {x y : Expr}
    (h : addVec st label base x y = some st') : Contains st'.frames ≤ Contains st.frames := by
  unfold addVec at h
  obtain ⟨frame, -, h⟩ := Option.bind_eq_some_iff.mp h
  obtain ⟨base, -, h⟩ := Option.bind_eq_some_iff.mp h
  split at h
  · cases h
  · cases h
    apply contains_updateFrame_other_le
    · exact fun _ => rfl
    · exact fun _ => rfl

theorem contains_addFpdObj {obj : FpdObj} (h : addFpdObj st obj = some st')
    {a b : Option Name} (hab : Contains st'.frames a b) :
    Contains st.frames a b ∨ (a = st.curr ∧ ∃ ref ∈ obj.ref, b = some ref) := by
  unfold addFpdObj at h
  obtain ⟨frame, hframe, h⟩ := Option.bind_eq_some_iff.mp h
  dsimp only at h
  split at h
  · cases h
  · cases h
    have hadded := contains_updateFrame hframe hab (fun _ => rfl) obj.ref.toList
    simp only [Option.mem_toList] at hadded
    apply hadded
    intro ref href
    simp only [FpdFrame.refs, List.mem_filterMap] at href
    obtain ⟨o, ho, href⟩ := href
    have hlinked := linkAt_subset _ _ _ _ ho
    rw [List.mem_cons] at hlinked
    rw [List.mem_append]
    obtain rfl | hold := hlinked
    · exact Or.inl (by simpa using href)
    · exact Or.inr (List.mem_filterMap.mpr ⟨o, hold, href⟩)

theorem kind_of_resolve {find : BaseText → Option (Option ℕ)} {kind : ObjKind BaseText}
    {kind' : ObjKind (Option ℕ)} (hkind : kind.resolve find = some kind') {name : Option Name}
    {base : Option ℕ} {ref : Name} (href : (FpdObj.obj ⟨name, base, kind'⟩).ref = some ref) :
    kind = .frame ref := by
  cases kind' with
  | frame ref' =>
    cases href
    cases kind with
    | frame ref =>
      cases hkind
      rfl
    | _ => simp [ObjKind.resolve, Option.bind_eq_some_iff] at hkind
  | _ => cases href

theorem contains_addObj {o : Obj BaseText} (h : addObj st o = some st')
    {a b : Option Name} (hab : Contains st'.frames a b) :
    Contains st.frames a b ∨ (a = st.curr ∧ ∃ ref, o.kind = .frame ref ∧ b = some ref) := by
  unfold addObj at h
  obtain ⟨frame, -, h⟩ := Option.bind_eq_some_iff.mp h
  obtain ⟨obj, hobj, h⟩ := Option.bind_eq_some_iff.mp h
  split at h
  · cases h
  · apply (contains_addFpdObj h hab).imp_right
    rintro ⟨ha, ref, href, hb⟩
    refine ⟨ha, ref, ?_, hb⟩
    obtain ⟨name, base, kind⟩ := o
    obtain ⟨base', -, hobj⟩ := Option.bind_eq_some_iff.mp hobj
    obtain ⟨kind', hkind, hobj⟩ := Option.bind_eq_some_iff.mp hobj
    cases hobj
    exact kind_of_resolve hkind href

theorem contains_addMeas_le {label : Option Name} {m : Meas}
    (h : addMeas st label m = some st') : Contains st'.frames ≤ Contains st.frames := by
  unfold addMeas at h
  obtain ⟨base, -, h⟩ := Option.bind_eq_some_iff.mp h
  obtain ⟨high, -, h⟩ := Option.bind_eq_some_iff.mp h
  obtain ⟨-, -, h⟩ := Option.bind_eq_some_iff.mp h
  obtain ⟨-, -, h⟩ := Option.bind_eq_some_iff.mp h
  intro a b hab
  apply (contains_addFpdObj h hab).resolve_right
  rintro ⟨-, ref, href, -⟩
  cases href

theorem anyM_false {p : α → Option Bool} {l : List α} (h : l.anyM p = some false) :
    ∀ a ∈ l, p a = some false := by
  induction l with
  | nil => exact nofun
  | cons a l ih =>
    obtain ⟨found, ha, h⟩ := Option.bind_eq_some_iff.mp h
    cases found with
    | true => cases h
    | false => exact List.forall_mem_cons.mpr ⟨ha, ih h⟩

theorem isParentOf_false {frames : List FpdFrame} {p c : Option Name}
    (h : isParentOf frames depth p c = some false) : ¬ ReflTransGen (Contains frames) p c := by
  induction depth generalizing p with
  | zero => cases h
  | succ depth ih =>
    unfold isParentOf at h
    split at h
    · cases h
    · rename_i hne
      intro hpath
      obtain rfl | ⟨q, ⟨ref, href, rfl⟩, hpath⟩ := hpath.cases_head
      · exact hne rfl
      · exact ih (anyM_false h ref href) hpath

theorem frameNamed_of_qualifiedVec {owner : Option Name} {vec : Option ℕ}
    (h : qualifiedVec st qualifier base = some (owner, vec)) :
    ∃ frame, frameNamed st.frames owner = some frame := by
  unfold qualifiedVec at h
  obtain ⟨frame, hframe, h⟩ := Option.bind_eq_some_iff.mp h
  cases base with
  | origin =>
    cases h
    exact ⟨frame, hframe⟩
  | dot =>
    obtain ⟨id, -, h⟩ := Option.map_eq_some_iff.mp h
    cases h
    exact ⟨frame, hframe⟩
  | named name =>
    obtain ⟨id, -, h⟩ := Option.map_eq_some_iff.mp h
    cases h
    exact ⟨frame, hframe⟩

theorem contains_dbgLinkFrame {name : Name} (h : dbgLinkFrame st name qualifier base = some st') :
    ∃ owner, ¬ ReflTransGen (Contains st.frames) (some name) owner ∧
      ∀ a b, Contains st'.frames a b → Contains st.frames a b ∨ (a = owner ∧ b = some name) := by
  unfold dbgLinkFrame at h
  obtain ⟨⟨owner, vec⟩, howner, h⟩ := Option.bind_eq_some_iff.mp h
  obtain ⟨frame, hframe, h⟩ := Option.bind_eq_some_iff.mp h
  obtain ⟨parent, hparent, h⟩ := Option.bind_eq_some_iff.mp h
  cases parent with
  | true => cases h
  | false =>
    cases h
    rw [name_of_frameNamed hframe] at hparent
    refine ⟨owner, isParentOf_false hparent, ?_⟩
    intro a b hab
    obtain ⟨base, hbase⟩ := frameNamed_of_qualifiedVec howner
    have hadded := contains_updateFrame hbase hab (fun _ => rfl) [name]
    simp only [List.mem_singleton, exists_eq_left] at hadded
    apply hadded
    intro ref href
    simp only [FpdFrame.refs, List.filterMap_append, List.mem_append] at href
    rw [List.mem_append]
    apply href.symm.imp_left
    intro hnew
    simpa [FpdObj.ref, List.filterMap_cons, eq_comm] using hnew

theorem refs_dumpNames {frame' : FpdFrame} (h : dumpNames frame = some frame') :
    frame'.name = frame.name ∧ frame'.refs = frame.refs := by
  unfold dumpNames at h
  obtain ⟨dumped, -, h⟩ := Option.bind_eq_some_iff.mp h
  cases h
  exact ⟨rfl, rfl⟩

theorem refsOf_mapM_dumpNames {frames frames' : List FpdFrame}
    (h : frames.mapM dumpNames = some frames') (name : Option Name) :
    refsOf frames' name = refsOf frames name := by
  rw [refsOf_eq, refsOf_eq]
  induction frames generalizing frames' with
  | nil =>
    cases h
    rfl
  | cons frame frames ih =>
    rw [List.mapM_cons] at h
    obtain ⟨frame', hframe, h⟩ := Option.bind_eq_some_iff.mp h
    obtain ⟨rest, hrest, h⟩ := Option.bind_eq_some_iff.mp h
    cases h
    obtain ⟨hname, hrefs⟩ := refs_dumpNames hframe
    unfold frameNamed
    rw [List.find?_cons, List.find?_cons, hname]
    by_cases hfound : frame.name = name
    · simp [hfound, hrefs]
    · simp only [hfound, decide_false]
      exact ih hrest

theorem contains_insert_le {frames : List FpdFrame} (n : ℕ)
    (hnew : frameNamed frames frame.name = none) (hrefs : frame.refs = []) :
    Contains (frames.take n ++ frame :: frames.drop n) ≤ Contains frames := by
  apply contains_le
  intro name
  rw [refsOf_eq, refsOf_eq]
  by_cases hname : frame.name = name
  · have htake : (frames.take n).find? (fun f => f.name = frame.name) = none := by
      rw [frameNamed, List.find?_eq_none] at hnew
      rw [List.find?_eq_none]
      exact fun f hf => hnew f (List.mem_of_mem_take hf)
    subst hname
    rw [frameNamed, List.find?_append, htake, List.find?_cons_of_pos (by simp)]
    simp [hrefs]
  · have hfound : frameNamed (frames.take n ++ frame :: frames.drop n) name =
        frameNamed frames name := by
      calc frameNamed (frames.take n ++ frame :: frames.drop n) name
        _ = frameNamed (frames.take n ++ frames.drop n) name := by
          unfold frameNamed
          rw [List.find?_append, List.find?_append, List.find?_cons_of_neg (by simpa using hname)]
        _ = frameNamed frames name := by rw [List.take_append_drop]
    rw [hfound]
    exact List.Subset.refl _

def Guarded (st : Fpd) (stmt : Stmt) : Prop :=
  ∀ o ref, stmt = .line (.obj o) → o.kind = .frame ref →
    isParentOf st.frames (st.frames.length + 1) (some ref) st.curr = some false

theorem acyclic_act {out : Outside} {stmt : Stmt}
    (hst : Acyclic (Contains st.frames)) (hguarded : Guarded st stmt)
    (h : act out st stmt = some st') : Acyclic (Contains st'.frames) := by
  cases stmt with
  | frameDef name =>
    rw [act] at h
    split at h
    · cases h
    · rename_i hnew
      cases h
      rw [Bool.not_eq_true, Option.isSome_eq_false_iff, Option.isNone_iff_eq_none] at hnew
      exact hst.mono (contains_insert_le 1 hnew rfl)
  | frameEnd =>
    cases h
    exact hst
  | vars names =>
    rw [act] at h
    obtain ⟨frame, -, h⟩ := Option.bind_eq_some_iff.mp h
    split at h
    · cases h
    · cases h
      apply hst.mono
      apply contains_updateFrame_other_le
      · exact fun _ => rfl
      · exact fun _ => rfl
  | line line =>
    cases line with
    | vec label base x y => exact hst.mono (contains_addVec_le h)
    | obj o =>
      by_cases hframe : ∃ ref, o.kind = .frame ref
      · obtain ⟨ref, href⟩ := hframe
        apply hst.insert (isParentOf_false (hguarded o ref rfl href))
        intro a b hab
        apply (contains_addObj h hab).imp_right
        rintro ⟨ha, ref', href', hb⟩
        rw [href] at href'
        cases href'
        exact ⟨ha, hb⟩
      · apply hst.mono
        intro a b hab
        apply (contains_addObj h hab).resolve_right
        rintro ⟨-, ref, href, -⟩
        exact hframe ⟨ref, href⟩
  | meas label m => exact hst.mono (contains_addMeas_le h)
  | del qualifier name => exact hst.mono (contains_dbgDelete_le h)
  | move name anchor dest => exact hst.mono (contains_dbgMove_le h)
  | link name qualifier base =>
    obtain ⟨owner, hback, hadds⟩ := contains_dbgLinkFrame h
    exact hst.insert hback hadds
  | print e =>
    obtain ⟨-, rfl⟩ : _ ∧ st = st' := by simpa [act] using h
    exact hst
  | showMeas name =>
    obtain ⟨-, rfl⟩ : _ ∧ st = st' := by simpa [act] using h
    exact hst
  | dump =>
    rw [act] at h
    obtain ⟨frames, hframes, h⟩ := Option.map_eq_some_iff.mp h
    cases h
    apply hst.mono
    apply contains_le
    intro name
    rw [refsOf_mapM_dumpNames hframes]
    exact List.Subset.refl _
  | other =>
    cases h
    exact hst

/-- What is read of a file while no `frame` leads back to the frame that it is in. -/
inductive GuardedRun (out : Outside) (s : Text) : Parse → Prop
  | start : GuardedRun out s (.start s)
  | step {p q : Parse} (hp : GuardedRun out s p)
      (hguarded : ∀ stmt phase ts, readStmt p.phase p.st p.tokens = some (stmt, phase, ts) →
        Guarded p.st stmt)
      (hstep : parseStep out p = some q) : GuardedRun out s q

def Reads (out : Outside) (s : Text) (p : Parse) : Prop :=
  ReflTransGen (fun p q => parseStep out p = some q) (.start s) p

theorem not_contains_start (a b : Option Name) : ¬ Contains Fpd.start.frames a b := by
  rintro ⟨ref, href, -⟩
  rw [refsOf_eq] at href
  cases a with
  | none => cases href
  | some name => cases href

theorem GuardedRun.acyclic {out : Outside} {s : Text} {p : Parse} (h : GuardedRun out s p) :
    Acyclic (Contains p.st.frames) := by
  induction h with
  | start =>
    apply acyclic_of_rank fun _ => 0
    exact fun a b hab => absurd hab (not_contains_start a b)
  | step hp hguarded hstep ih =>
    obtain ⟨⟨stmt, phase, ts⟩, hread, hstep⟩ := Option.bind_eq_some_iff.mp hstep
    obtain ⟨st, hact, hstep⟩ := Option.bind_eq_some_iff.mp hstep
    cases hstep
    exact acyclic_act ih (hguarded stmt phase ts hread) hact

/-! ### Going down -/

theorem anyM_none {p : α → Option Bool} {l : List α} (h : l.anyM p = none) :
    ∃ a ∈ l, p a = none := by
  induction l with
  | nil => cases h
  | cons a l ih =>
    cases hfound : p a with
    | none => exact ⟨a, List.mem_cons_self, hfound⟩
    | some found =>
      rw [List.anyM, hfound] at h
      cases found with
      | true => cases h
      | false =>
        obtain ⟨b, hb, hnone⟩ := ih h
        exact ⟨b, List.mem_cons_of_mem _ hb, hnone⟩

theorem foldlM_none {β : Type} {f : β → α → Option β} {l : List α} {init : β}
    (h : l.foldlM f init = none) : ∃ a ∈ l, ∃ acc, f acc a = none := by
  induction l generalizing init with
  | nil => cases h
  | cons a l ih =>
    cases hnext : f init a with
    | none => exact ⟨a, List.mem_cons_self, init, hnext⟩
    | some next =>
      rw [List.foldlM_cons, hnext] at h
      obtain ⟨b, hb, hnone⟩ := ih h
      exact ⟨b, List.mem_cons_of_mem _ hb, hnone⟩

theorem exists_chain_of_anyM {frames : List FpdFrame} {name : Option Name}
    {p : Name → Option Bool} (hnone : (refsOf frames name).anyM p = none)
    (hp : ∀ ref, p ref = none →
      ∃ l, (some ref :: l).IsChain (Contains frames) ∧ l.length = depth) :
    ∃ l, (name :: l).IsChain (Contains frames) ∧ l.length = depth + 1 := by
  obtain ⟨ref, href, hnone⟩ := anyM_none hnone
  obtain ⟨l, hl, hlength⟩ := hp ref hnone
  exact ⟨some ref :: l, hl.cons_cons ⟨ref, href, rfl⟩, congrArg Nat.succ hlength⟩

theorem isParentOf_none {frames : List FpdFrame} {p c : Option Name}
    (h : isParentOf frames depth p c = none) :
    ∃ l, (p :: l).IsChain (Contains frames) ∧ l.length = depth := by
  induction depth generalizing p with
  | zero => exact ⟨[], .singleton p, rfl⟩
  | succ depth ih =>
    rw [isParentOf] at h
    split at h
    · cases h
    · exact exists_chain_of_anyM h fun ref hnone => ih hnone

theorem canReach_none {frames : List FpdFrame} {stop curr : Option Name}
    {quals : List Name} (h : canReach frames stop depth curr quals = none) :
    ∃ l, (curr :: l).IsChain (Contains frames) ∧ l.length = depth := by
  induction depth generalizing curr quals with
  | zero => exact ⟨[], .singleton curr, rfl⟩
  | succ depth ih =>
    rw [canReach] at h
    split at h
    · cases h
    · exact exists_chain_of_anyM h fun ref hnone => ih hnone

theorem generateFrame_none {frames : List FpdFrame} {name : Option Name}
    {begun : List (Option Name)} (h : generateFrame frames rounds depth name begun = none) :
    ∃ l, (name :: l).IsChain (Contains frames) ∧ l.length = depth := by
  induction depth generalizing name begun with
  | zero => exact ⟨[], .singleton name, rfl⟩
  | succ depth ih =>
    obtain ⟨ref, href, acc, hnone⟩ := foldlM_none h
    rw [List.mem_flatten] at href
    obtain ⟨refs, hrefs, href⟩ := href
    rw [List.eq_of_mem_replicate hrefs] at href
    obtain ⟨l, hl, hlength⟩ := ih hnone
    exact ⟨some ref :: l, hl.cons_cons ⟨ref, href, rfl⟩, congrArg Nat.succ hlength⟩

theorem length_le_of_chain {frames : List FpdFrame} (hframes : Acyclic (Contains frames))
    {name : Option Name} {l : List (Option Name)} (hl : (name :: l).IsChain (Contains frames)) :
    l.length ≤ frames.length := by
  have hle := hframes.length_le (fun _ _ => mem_names_of_contains) hl
  simpa using hle

theorem returns_of_chain {frames : List FpdFrame} (hframes : Acyclic (Contains frames))
    {name : Option Name} {result : Option α}
    (hnone : result = none →
      ∃ l, (name :: l).IsChain (Contains frames) ∧ l.length = frames.length + 1) :
    ∃ a, result = some a := by
  rw [← Option.ne_none_iff_exists']
  intro hfails
  obtain ⟨l, hl, hlength⟩ := hnone hfails
  have hle := length_le_of_chain hframes hl
  omega

theorem isParentOf_returns {frames : List FpdFrame} (hframes : Acyclic (Contains frames))
    (p c : Option Name) : ∃ parent, isParentOf frames (frames.length + 1) p c = some parent :=
  returns_of_chain hframes isParentOf_none

theorem canReach_returns {frames : List FpdFrame} (hframes : Acyclic (Contains frames))
    (curr stop : Option Name) (quals : List Name) :
    ∃ reached, canReach frames stop (frames.length + 1) curr quals = some reached :=
  returns_of_chain hframes canReach_none

theorem instantiate_returns (hst : Acyclic (Contains st.frames))
    (rounds : Option Name → List (Option Name) → ℕ) :
    ∃ begun, instantiate st rounds (st.frames.length + 1) = some begun :=
  returns_of_chain hst generateFrame_none

theorem exists_of_foldlM {β : Type} {f : β → α → Option β} {l : List α} {init result : β}
    (h : l.foldlM f init = some result) : ∀ a ∈ l, ∃ acc next, f acc a = some next := by
  induction l generalizing init with
  | nil => exact nofun
  | cons a l ih =>
    rw [List.foldlM_cons] at h
    obtain ⟨next, hnext, h⟩ := Option.bind_eq_some_iff.mp h
    exact List.forall_mem_cons.mpr ⟨⟨init, next, hnext⟩, ih h⟩

theorem length_lt_of_generateFrame {frames : List FpdFrame}
    (hrounds : ∀ name begun, rounds name begun ≠ 0) {name : Option Name}
    {begun begun' l : List (Option Name)}
    (h : generateFrame frames rounds depth name begun = some begun')
    (hl : (name :: l).IsChain (Contains frames)) : l.length < depth := by
  induction depth generalizing name begun begun' l with
  | zero => cases h
  | succ depth ih =>
    cases l with
    | nil => exact Nat.succ_pos depth
    | cons g l =>
      rw [List.isChain_cons_cons] at hl
      obtain ⟨⟨ref, href, rfl⟩, hl⟩ := hl
      have hmem : ref ∈ (List.replicate (rounds name begun) (refsOf frames name)).flatten := by
        rw [List.mem_flatten]
        exact ⟨_, List.mem_replicate.mpr ⟨hrounds name begun, rfl⟩, href⟩
      obtain ⟨acc, next, hnext⟩ := exists_of_foldlM h ref hmem
      exact Nat.succ_lt_succ (ih hnext hl)

theorem instantiate_none_of_cycle (hrounds : ∀ name begun, rounds name begun ≠ 0) {f : Option Name}
    (hroot : ReflTransGen (Contains st.frames) none f) (hcycle : TransGen (Contains st.frames) f f)
    (depth : ℕ) : instantiate st rounds depth = none := by
  rw [Option.eq_none_iff_forall_ne_some]
  intro begun hbegun
  obtain ⟨l, hl, hlength⟩ :=
    exists_chain_of_cycle hcycle (TransGen.trans_right hroot hcycle) depth
  have hlt := length_lt_of_generateFrame hrounds hbegun hl
  omega

theorem scan_newline_lineStart (rest : Text) :
    scan .lineStart (.chr '\n' :: rest) = scan .lineStart rest := by
  rw [scan_chr]
  rfl

theorem scan_frameLine {name : Name} (hname : IsName name) (rest : Text) :
    scan .lineStart (text "frame" ++
        .chr ' ' :: (nameText name ++ .chr ' ' :: .chr '{' :: .chr '\n' :: rest)) =
      .keyword .frame :: .id name :: .ch '{' :: scan .lineStart rest := by
  have hopen : scan .noKeyword (.chr '{' :: .chr '\n' :: rest) =
      .ch '{' :: scan .lineStart rest := by
    rw [scan_chr, ← scan_newline_lineStart rest]
    rfl
  rw [scan_keywordText (isName_of_chars rfl) rfl, scan_name rfl hname (ends_blank _), scan_blank,
    hopen]

theorem scan_closeLine (rest : Text) :
    scan .lineStart (.chr '}' :: .chr '\n' :: rest) = .ch '}' :: scan .lineStart rest := by
  rw [scan_chr, ← scan_newline_lineStart rest]
  rfl

def refA : Obj BaseText := { name := none, base := .origin, kind := .frame ['a'] }

theorem isName_a : IsName ['a'] := isName_of_chars rfl

theorem valid_refA : (Line.obj refA).Valid := by
  refine ⟨nofun, ?_, isName_a, nofun⟩
  intro a ha
  rw [List.mem_singleton.mp ha]
  trivial

def nestedText : Text := text "frame a \x7b\n\tframe a @\n\x7d\nframe a @\n"

def besideText : Text := text "frame a \x7b\n\x7d\nframe a @\n"

def showsAll : Outside where
  prints := fun _ _ => true
  shows := fun _ _ => true

theorem scan_refA {indent : Text} (hindent : indent = [] ∨ indent = text "\t") (rest : Text) :
    scan .lineStart (indent ++ lineText (.obj refA) ++ text "\n" ++ rest) =
      .keyword .frame :: .id ['a'] :: .ch '@' :: scan .lineStart rest :=
  scan_line hindent valid_refA rest

theorem start_nestedText : Parse.start nestedText =
    { phase := .defs, st := .start,
      tokens := [.keyword .frame, .id ['a'], .ch '{', .keyword .frame, .id ['a'], .ch '@', .ch '}',
        .keyword .frame, .id ['a'], .ch '@'] } := by
  have htokens := scan_frameLine isName_a (text "\t" ++ lineText (.obj refA) ++ text "\n" ++
    (.chr '}' :: .chr '\n' :: ([] ++ lineText (.obj refA) ++ text "\n" ++ [])))
  rw [scan_refA (Or.inr rfl), scan_closeLine, scan_refA (Or.inl rfl), scan] at htokens
  exact congrArg (Parse.mk .defs .start) htokens

theorem start_besideText : Parse.start besideText =
    { phase := .defs, st := .start,
      tokens := [.keyword .frame, .id ['a'], .ch '{', .ch '}', .keyword .frame, .id ['a'],
        .ch '@'] } := by
  have htokens := scan_frameLine isName_a
    (.chr '}' :: .chr '\n' :: ([] ++ lineText (.obj refA) ++ text "\n" ++ []))
  rw [scan_closeLine, scan_refA (Or.inl rfl), scan] at htokens
  exact congrArg (Parse.mk .defs .start) htokens

theorem reads_nestedText :
    ∃ p, Reads showsAll nestedText p ∧ p.Done ∧
      Contains p.st.frames none (some ['a']) ∧ Contains p.st.frames (some ['a']) (some ['a']) := by
  simp only [Reads, start_nestedText]
  refine ⟨_, .head rfl (.head rfl (.head rfl (.head rfl .refl))), ?_, ?_, ?_⟩
  · exact ⟨rfl, nofun⟩
  · exact ⟨['a'], List.mem_singleton_self _, rfl⟩
  · exact ⟨['a'], List.mem_singleton_self _, rfl⟩

theorem guardedRun_besideText :
    ∃ p, GuardedRun showsAll besideText p ∧ p.Done ∧ Contains p.st.frames none (some ['a']) := by
  have hstart : GuardedRun showsAll besideText _ := .start
  rw [start_besideText] at hstart
  have hdef := GuardedRun.step hstart (by rintro _ _ _ ⟨⟩ o ref ⟨⟩) rfl
  have hend := GuardedRun.step hdef (by rintro _ _ _ ⟨⟩ o ref ⟨⟩) rfl
  refine ⟨_, GuardedRun.step hend ?_ rfl, ⟨rfl, nofun⟩, ?_⟩
  · rintro _ _ _ ⟨⟩ o ref ⟨⟩ ⟨⟩
    rfl
  · exact ⟨['a'], List.mem_singleton_self _, rfl⟩

/-- **Frames do not recurse** in a file where no `frame` leads back to the frame that it is in, and
what goes down from one to the next comes to an end. -/
theorem frames_never_recurse {out : Outside} {s : Text} {p : Parse} (h : GuardedRun out s p) :
    Acyclic (Contains p.st.frames) ∧
      (∀ f g, ∃ parent, isParentOf p.st.frames (p.st.frames.length + 1) f g = some parent) ∧
      (∀ f g quals, ∃ reached,
        canReach p.st.frames g (p.st.frames.length + 1) f quals = some reached) ∧
      ∀ rounds, ∃ begun, instantiate p.st rounds (p.st.frames.length + 1) = some begun :=
  ⟨h.acyclic, isParentOf_returns h.acyclic, canReach_returns h.acyclic,
    instantiate_returns h.acyclic⟩

theorem frames_never_recurse_beside : ∃ p, GuardedRun showsAll besideText p ∧ p.Done ∧
    Contains p.st.frames none (some ['a']) ∧ Acyclic (Contains p.st.frames) ∧
      ∃ begun, instantiate p.st (fun _ _ => 1) (p.st.frames.length + 1) = some begun := by
  obtain ⟨p, hp, hdone, hroot⟩ := guardedRun_besideText
  have hresult := frames_never_recurse hp
  exact ⟨p, hp, hdone, hroot, hresult.1, hresult.2.2.2 _⟩

/-- A `frame` in the definition of the frame that it names is accepted. -/
theorem frame_in_itself : ∃ p, Reads showsAll nestedText p ∧ p.Done ∧
    ¬ Acyclic (Contains p.st.frames) ∧ ∀ depth, instantiate p.st (fun _ _ => 1) depth = none := by
  obtain ⟨p, hp, hdone, hroot, hself⟩ := reads_nestedText
  refine ⟨p, hp, hdone, ?_, ?_⟩
  · exact fun hacyclic => hacyclic _ (.single hself)
  · exact instantiate_none_of_cycle (fun _ _ => Nat.one_ne_zero) (.single hroot) (.single hself)

end Openmoko.Fped
