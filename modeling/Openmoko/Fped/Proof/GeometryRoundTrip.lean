import Openmoko.Fped.Proof.FrameLines

/-!
# Frames keep their geometry when they are written

What is read is compared with the frame by the names of the vectors, which all vectors have after
the dump. A vector is written with `.` when it is listed directly after its base, and `.` is read as
the vector that was written last.
-/

namespace Openmoko.Fped

open Relation

/-- A frame as it is built from a text; `frames` are the names of the frames that are known. -/
structure Frame.WellFormed (frames : List Name) (frame : Frame) : Prop extends
    frame.BasesFirst where
  vecLabels : ∀ v ∈ frame.vecs, ∀ n ∈ v.name, IsName n
  objLabels : ∀ o ∈ frame.objs, ∀ n ∈ o.name, IsName n
  labels : (vecNames frame.vecs ++ objNames frame.objs).Nodup
  coords : ∀ v ∈ frame.vecs, Produced v.x ∧ Produced v.y
  widths : ∀ o ∈ frame.objs, ∀ e ∈ o.kind.width, Produced e
  kinds : ∀ o ∈ frame.objs, o.kind.Valid
  refs : ∀ o ∈ frame.objs, o.kind.refKnown frames = true

inductive ObjType where
  | frame (ref : Name)
  | line
  | rect
  | pad (name : List Char) (rounded : Bool) (type : PadType)
  | hole
  | arc
  deriving DecidableEq

def ObjKind.type {α : Type} : ObjKind α → ObjType
  | .frame ref => .frame ref
  | .line _ _ => .line
  | .rect _ _ => .rect
  | .pad name _ rounded type => .pad name rounded type
  | .hole _ => .hole
  | .arc _ _ _ => .arc

def vecShape (vecs : List Vec) (v : Vec) : Option Name × Option (Option Name) :=
  (v.name, v.base.map (vecName vecs))

def objShape (vecs : List Vec) (o : Obj (Option ℕ)) :
    Option Name × ObjType × List (Option (Option Name)) :=
  (o.name, o.kind.type, o.anchors.map (Option.map (vecName vecs)))

def SameGeometry (before after : Frame) : Prop :=
  (after.vecs.map (vecShape after.vecs)).Perm (before.vecs.map (vecShape before.vecs)) ∧
    (after.objs.map (objShape after.vecs)).Perm (before.objs.map (objShape before.vecs))

/-- All labels in the text are different, it is accepted, and the geometry is that of the frame. -/
def KeepsGeometry (frames : List Name) (indent : Text) (frame : Frame) : Prop :=
  ∃ vecs text, dumpFrame indent frame = some (vecs, text) ∧ (∀ v ∈ vecs, v.name ≠ none) ∧
    (vecNames vecs ++ objNames frame.objs).Nodup ∧
    ∃ st, readItems frames (scan .lineStart text) = some st ∧
      SameGeometry { frame with vecs := vecs } st.frame

def ExprsReadable (frame : Frame) : Prop :=
  (∀ v ∈ frame.vecs, noDoubleMinus v.x = true ∧ noDoubleMinus v.y = true) ∧
    ∀ o ∈ frame.objs, ∀ e ∈ o.kind.width, noDoubleMinus e = true

/-- No object has one of the names that are generated for the vectors without one. -/
def NamesFree (frame : Frame) : Prop :=
  ∀ j, generatedName j ∈ objNames frame.objs →
    anonymous frame.vecs ≤ Nat.count (Unused frame.vecs) j

/-! ### What is read -/

variable {b : ℕ} {v : Vec}

section Run

variable {vecs order : List Vec} {name : ℕ → Name} {frames : List Name}

def place (order : List Vec) (id : ℕ) : ℕ := (order.map Vec.id).idxOf id

def readBase (vecs before : List Vec) (v : Vec) : Option ℕ :=
  match v.base with
  | none => none
  | some b => if nextOf b vecs = some v.id then before.getLast?.map Vec.id else some b

def readVec (vecs order : List Vec) (name : ℕ → Name) (v : Vec) : Vec :=
  { id := place order v.id
    name := some (name v.id)
    base := (readBase vecs (order.take (place order v.id)) v).map (place order)
    x := reparse v.x
    y := reparse v.y }

def readObj (order : List Vec) (o : Obj (Option ℕ)) : Obj (Option ℕ) :=
  (o.map (Option.map (place order))).mapWidth reparse

def readState (vecs order : List Vec) (name : ℕ → Name) (items : List Item) : Reading where
  frame :=
    { vecs := (vecsOf items).map (readVec vecs order name)
      objs := (objsOf items).map (readObj order) }
  lastVec := (lastVecOf items).map (place order)

theorem place_eq {before after : List Vec} (hids : (order.map Vec.id).Nodup)
    (horder : order = before ++ v :: after) : place order v.id = before.length := by
  have hnot : v.id ∉ before.map Vec.id := by
    rw [horder, List.map_append, List.nodup_append] at hids
    exact fun hmem => hids.2.2 _ hmem v.id (by simp) rfl
  rw [place, horder, List.map_append, List.idxOf_append_of_notMem hnot, List.map_cons,
    List.idxOf_cons_self, List.length_map, Nat.add_zero]

theorem findVec_readVec {done : List Vec} (hb : b ∈ done.map Vec.id)
    (hname : ∀ u ∈ done, name u.id = name b → u.id = b) :
    findVec (done.map (readVec vecs order name)) (name b) = some (place order b) := by
  obtain ⟨w, hw, rfl⟩ := List.mem_map.mp hb
  have hsome : (done.find? fun u => name u.id = name w.id).isSome = true := by
    rw [List.find?_isSome]
    exact ⟨w, hw, by simp⟩
  obtain ⟨u, hu⟩ := Option.isSome_iff_exists.mp hsome
  have hsame : name u.id = name w.id := by simpa using List.find?_some hu
  have hid := hname u (List.mem_of_find?_eq_some hu) hsame
  rw [findVec, List.find?_map]
  have hpred : ((fun v : Vec => decide (v.name = some (name w.id))) ∘ readVec vecs order name) =
      fun u => decide (name u.id = name w.id) := by
    funext u
    simp [readVec]
  rw [hpred, hu, Option.map_some, Option.map_some, readVec, hid]

theorem vecNames_readVec (done : List Vec) :
    vecNames (done.map (readVec vecs order name)) = done.map fun v => name v.id := by
  rw [vecNames, List.filterMap_map]
  exact congrFun List.filterMap_eq_map done

theorem objNames_readObj (objs : List (Obj (Option ℕ))) :
    objNames (objs.map (readObj order)) = objNames objs := by
  rw [objNames, List.filterMap_map]
  rfl

theorem resolve_map {α β γ : Type} {find : α → Option β} {f : γ → α} {g : γ → β} {o : Obj γ}
    (hfind : ∀ a ∈ o.anchors, find (f a) = some (g a)) (e : Expr → Expr) :
    ((o.map f).mapWidth e).resolve find = some ((o.map g).mapWidth e) := by
  obtain ⟨name, base, kind⟩ := o
  rw [Obj.anchors, List.forall_mem_cons] at hfind
  cases kind <;>
    simp_all [Obj.map, ObjKind.map, Obj.mapWidth, ObjKind.mapWidth, ObjKind.others, Obj.resolve,
      ObjKind.resolve]

theorem refKnown_mapWidth {α β : Type} (f : α → β) (e : Expr → Expr) (o : Obj α) :
    ((o.map f).mapWidth e).kind.refKnown frames = o.kind.refKnown frames := by
  obtain ⟨objName, base, kind⟩ := o
  cases kind <;> rfl

theorem findBase_readState {items : List Item} (hb : b ∈ (vecsOf items).map Vec.id)
    (hname : ∀ u ∈ vecsOf items, name u.id = name b → u.id = b) :
    findBase (readState vecs order name items) (.named (name b)) =
      some (some (place order b)) := by
  change (findVec ((vecsOf items).map (readVec vecs order name)) (name b)).map some = _
  rw [findVec_readVec hb hname]
  rfl

structure Prepared (frame : Frame) (order : List Vec) (name : ℕ → Name) : Prop where
  perm : order.Perm frame.vecs
  ids : (order.map Vec.id).Nodup
  distinct : ∀ u ∈ order, ∀ v ∈ order, name u.id = name v.id → u.id = v.id
  noClash : ∀ v ∈ order, ∀ o ∈ frame.objs, o.name ≠ some (name v.id)

end Run

section Step

variable {frame : Frame} {frames : List Name} {order : List Vec} {name : ℕ → Name}
  {items : List Item}

theorem findBase_anchorText (hprep : Prepared frame order name)
    (hsub : ∀ u ∈ vecsOf items, u ∈ order) {prev : Option ℕ}
    (hprev : prev = none ∨ prev = lastVecOf items) {a : Option ℕ} (ha : later items a = false) :
    findBase (readState frame.vecs order name items) (anchorText name prev a) =
      some (a.map (place order)) := by
  cases a with
  | none => rfl
  | some b =>
    have hb := later_eq_false.mp ha b rfl
    rw [anchorText]
    split
    · rename_i hdot
      obtain rfl | rfl := hprev
      · cases hdot
      · change ((lastVecOf items).map (place order)).map some = _
        rw [← hdot]
        rfl
    · apply findBase_readState hb
      obtain ⟨w, hw, rfl⟩ := List.mem_map.mp hb
      exact fun u hu => hprep.distinct u (hsub u hu) w (hsub w hw)

theorem findBase_vecBase (hprep : Prepared frame order name)
    (hsub : ∀ u ∈ vecsOf items, u ∈ order) (hbase : later items v.base = false) :
    findBase (readState frame.vecs order name items) (vecBase frame.vecs name v) =
      some ((readBase frame.vecs (vecsOf items) v).map (place order)) := by
  unfold vecBase readBase
  cases hb : v.base with
  | none => rfl
  | some b =>
    have hmem := later_eq_false.mp hbase b hb
    obtain ⟨w, hw, rfl⟩ := List.mem_map.mp hmem
    dsimp only
    split
    · obtain ⟨u, hu⟩ := Option.isSome_iff_exists.mp
        (List.getLast?_isSome.mpr (List.ne_nil_of_mem hw))
      change ((lastVecOf items).map (place order)).map some = _
      rw [lastVecOf, hu]
      rfl
    · apply findBase_readState hmem
      exact fun u hu => hprep.distinct u (hsub u hu) w (hsub w hw)

theorem findLabel_readState (n : Name) :
    findLabel (readState frame.vecs order name items).frame n = true ↔
      (∃ u ∈ vecsOf items, name u.id = n) ∨ n ∈ objNames (objsOf items) := by
  change (decide (n ∈ vecNames ((vecsOf items).map (readVec frame.vecs order name)) ∨
    n ∈ objNames ((objsOf items).map (readObj order)))) = true ↔ _
  rw [decide_eq_true_iff, vecNames_readVec, objNames_readObj, List.mem_map]

theorem addLine_readState (hwf : frame.WellFormed frames) (hprep : Prepared frame order name)
    {item : Item} (hfits : item.Fits frame items) (horder : vecsOf (items ++ [item]) <+: order)
    (hsub : ∀ o ∈ objsOf items, o ∈ frame.objs)
    (hobjs : (objNames (objsOf (items ++ [item]))).Nodup) :
    addLine frames (readState frame.vecs order name items)
        (itemLine frame.vecs name item).reread =
      some (readState frame.vecs order name (items ++ [item])) := by
  have hdone : ∀ u ∈ vecsOf items, u ∈ order := by
    intro u hu
    apply horder.subset
    rw [vecsOf_append]
    exact List.mem_append_left _ hu
  cases item with
  | vec v =>
    obtain ⟨after, hafter⟩ := horder
    rw [vecsOf_append, vecsOf_vec, List.append_assoc, List.singleton_append] at hafter
    have hplace := place_eq hprep.ids hafter.symm
    have hv : v ∈ order := by
      rw [← hafter]
      exact List.mem_append_right _ List.mem_cons_self
    have hnolabel :
        ¬ findLabel (readState frame.vecs order name items).frame (name v.id) = true := by
      rw [findLabel_readState, not_or]
      constructor
      · rintro ⟨u, hu, hname⟩
        have hids := hprep.ids
        rw [← hafter, List.map_append, List.nodup_append] at hids
        exact hids.2.2 _ (List.mem_map_of_mem hu) v.id (by simp)
          (hprep.distinct u (hdone u hu) v hv hname)
      · intro hmem
        obtain ⟨o, ho, hname⟩ := List.mem_filterMap.mp hmem
        exact hprep.noClash v hv o (hsub o ho) hname
    have hread : readVec frame.vecs order name v =
        { id := (vecsOf items).length, name := some (name v.id)
          base := (readBase frame.vecs (vecsOf items) v).map (place order)
          x := reparse v.x, y := reparse v.y } := by
      rw [readVec, hplace, ← hafter, List.take_left]
    have hlength : (readState frame.vecs order name items).frame.vecs.length =
        (vecsOf items).length := List.length_map _
    have hlast : lastVecOf (items ++ [.vec v]) = some v.id := by simp [lastVecOf]
    simp only [itemLine, Line.reread, addLine, findBase_vecBase hprep hdone hfits.2,
      Option.bind_eq_bind, Option.bind_some, Option.any_some, hnolabel, hlength]
    simp [readState, hread, hlast, hplace]
  | obj prev i o =>
    obtain ⟨ho, -, hanchors, hprev⟩ := hfits
    have homem : o ∈ frame.objs := List.mem_of_getElem? ho
    have hresolve : ((o.map (anchorText name prev)).mapWidth reparse).resolve
        (findBase (readState frame.vecs order name items)) = some (readObj order o) :=
      resolve_map (fun a ha => findBase_anchorText hprep hdone hprev (hanchors a ha)) reparse
    have hnolabel : ¬ o.name.any
        (findLabel (readState frame.vecs order name items).frame) = true := by
      intro hany
      cases hn : o.name with
      | none =>
        rw [hn] at hany
        cases hany
      | some n =>
        rw [hn, Option.any_some, findLabel_readState] at hany
        rcases hany with ⟨u, hu, rfl⟩ | hmem
        · exact hprep.noClash u (hdone u hu) o homem hn
        · rw [objsOf_append, objsOf_obj, objNames, List.filterMap_append,
            List.filterMap_cons_some hn, List.nodup_append] at hobjs
          exact hobjs.2.2 n hmem n List.mem_cons_self rfl
    have hname : ((o.map (anchorText name prev)).mapWidth reparse).name = o.name := rfl
    have hlast : lastVecOf (items ++ [.obj prev i o]) = lastVecOf items := by simp [lastVecOf]
    simp only [itemLine, Line.reread, addLine, hresolve, refKnown_mapWidth, hwf.refs o homem,
      Option.bind_eq_bind, Option.bind_some, hname, hnolabel]
    simp [readState, hlast]

theorem addLines_snoc {st : Reading} (lines : List Line) (line : Line) :
    addLines frames st (lines ++ [line]) =
      (addLines frames st lines).bind fun st => addLine frames st line := by
  rw [addLines, List.foldlM_append]
  congr 1
  funext st
  exact bind_pure _

theorem addLines_readState (hwf : frame.WellFormed frames) (hprep : Prepared frame order name)
    (hitems : Fitting frame items) (horder : vecsOf items <+: order)
    (hsub : ∀ o ∈ objsOf items, o ∈ frame.objs) (hobjs : (objNames (objsOf items)).Nodup) :
    addLines frames .start ((items.map (itemLine frame.vecs name)).map Line.reread) =
      some (readState frame.vecs order name items) := by
  induction hitems with
  | nil => rfl
  | @snoc items item _ hfits ih =>
    have hbefore : vecsOf items <+: order := by
      rw [vecsOf_append] at horder
      exact (List.prefix_append _ _).trans horder
    have hsub' : ∀ o ∈ objsOf items, o ∈ frame.objs := by
      intro o ho
      apply hsub
      rw [objsOf_append]
      exact List.mem_append_left _ ho
    have hobjs' : (objNames (objsOf items)).Nodup := by
      rw [objsOf_append, objNames, List.filterMap_append] at hobjs
      exact (List.nodup_append.mp hobjs).1
    rw [List.map_append, List.map_append, List.map_singleton, List.map_singleton, addLines_snoc,
      ih hbefore hsub' hobjs', Option.bind_some,
      addLine_readState hwf hprep hfits horder hsub' hobjs]

end Step

/-! ### Comparing -/

section Compare

variable {frame : Frame} {order : List Vec} {name : ℕ → Name} {names : ℕ → Option Name}
  {items : List Item}

theorem vecName_readVec (hids : (order.map Vec.id).Nodup) (hb : b ∈ order.map Vec.id) :
    vecName (order.map (readVec frame.vecs order name)) (place order b) = some (name b) := by
  obtain ⟨w, hw, rfl⟩ := List.mem_map.mp hb
  have hnodup : ((order.map (readVec frame.vecs order name)).map Vec.id).Nodup := by
    have hmap : (order.map (readVec frame.vecs order name)).map Vec.id =
        (order.map Vec.id).map (order.map Vec.id).idxOf := by
      rw [List.map_map, List.map_map]
      rfl
    rw [hmap]
    apply hids.map_on
    intro i hi j hj heq
    exact (List.idxOf_inj hi).mp heq
  exact vecName_of_mem hnodup (List.mem_map_of_mem hw)

theorem readBase_mem (hframe : frame.BasesFirst) (hperm : order.Perm frame.vecs)
    (hv : v ∈ order) {i : ℕ} (hb : readBase frame.vecs (order.take i) v = some b) :
    b ∈ order.map Vec.id := by
  unfold readBase at hb
  split at hb
  · cases hb
  · rename_i b' hbase
    split at hb
    · obtain ⟨u, hu, rfl⟩ := Option.map_eq_some_iff.mp hb
      exact List.mem_map_of_mem (List.mem_of_mem_take (List.mem_of_getLast? hu))
    · obtain rfl := Option.some.inj hb
      obtain ⟨u, hu, rfl⟩ := hframe.exists_base (hperm.mem_iff.mp hv) hbase
      exact List.mem_map_of_mem (hperm.mem_iff.mpr hu)

theorem dotsRead_iff_readBase (hids : (order.map Vec.id).Nodup) :
    DotsRead frame.vecs order ↔
      ∀ v ∈ order, readBase frame.vecs (order.take (place order v.id)) v = v.base := by
  have htake : ∀ {before after : List Vec} {v : Vec}, order = before ++ v :: after →
      order.take (place order v.id) = before := by
    intro before after v horder
    rw [place_eq hids horder]
    exact horder ▸ List.take_left
  constructor
  · intro hread v hv
    obtain ⟨before, after, horder⟩ := List.append_of_mem hv
    rw [htake horder, readBase]
    cases hbase : v.base with
    | none => rfl
    | some b =>
      dsimp only
      split
      · rename_i hnext
        exact hread before v after horder b hbase hnext
      · rfl
  · intro hall before v after horder b hbase hnext
    have hv := hall v (by simp [horder])
    rw [htake horder, readBase, hbase] at hv
    exact (if_pos hnext).symm.trans hv

def namedShape (name : ℕ → Name) (f : Vec → Option ℕ) (v : Vec) :
    Option Name × Option (Option Name) :=
  (some (name v.id), (f v).map fun b => some (name b))

theorem vecShape_readVec (hframe : frame.BasesFirst) (hprep : Prepared frame order name) :
    (order.map (readVec frame.vecs order name)).map
        (vecShape (order.map (readVec frame.vecs order name))) =
      order.map (namedShape name fun v =>
        readBase frame.vecs (order.take (place order v.id)) v) := by
  rw [List.map_map]
  apply List.map_congr_left
  intro v hv
  have hbase : ((readBase frame.vecs (order.take (place order v.id)) v).map (place order)).map
      (vecName (order.map (readVec frame.vecs order name))) =
        (readBase frame.vecs (order.take (place order v.id)) v).map fun b => some (name b) := by
    rw [Option.map_map]
    apply Option.map_congr
    intro b hb
    exact vecName_readVec hprep.ids (readBase_mem hframe hprep.perm hv hb)
  exact congrArg (Prod.mk _) hbase

theorem vecShape_withNames (hframe : frame.BasesFirst)
    (hnames : ∀ v ∈ frame.vecs, names v.id = some (name v.id)) :
    (withNames names frame.vecs).map (vecShape (withNames names frame.vecs)) =
      frame.vecs.map (namedShape name Vec.base) := by
  rw [withNames, List.map_map]
  apply List.map_congr_left
  intro v hv
  have hbase : v.base.map (vecName (withNames names frame.vecs)) =
      v.base.map fun b => some (name b) := by
    apply Option.map_congr
    intro b hb
    obtain ⟨u, hu, rfl⟩ := hframe.exists_base hv hb
    rw [vecName_withNames (List.mem_map_of_mem hu), hnames u hu]
  exact Prod.ext (hnames v hv) hbase

theorem perm_namedShape_iff (hframe : frame.BasesFirst) (hprep : Prepared frame order name)
    {f : Vec → Option ℕ} (hf : ∀ v ∈ order, ∀ b ∈ f v, b ∈ order.map Vec.id) :
    (order.map (namedShape name f)).Perm (frame.vecs.map (namedShape name Vec.base)) ↔
      ∀ v ∈ order, f v = v.base := by
  constructor
  · intro hperm v hv
    obtain ⟨w, hw, hshape⟩ := List.mem_map.mp (hperm.mem_iff.mp (List.mem_map_of_mem hv))
    obtain ⟨hname, hbase⟩ := Prod.mk.inj hshape
    have hw' : w ∈ order := hprep.perm.mem_iff.mpr hw
    obtain rfl := Vec.eq_of_id hprep.ids hw' hv
      (hprep.distinct w hw' v hv (Option.some.inj hname))
    have hbasemem : ∀ b ∈ w.base, b ∈ order.map Vec.id := by
      intro b hb
      obtain ⟨u, hu, rfl⟩ := hframe.exists_base hw hb
      exact List.mem_map_of_mem (hprep.perm.mem_iff.mpr hu)
    have hinj : ∀ i ∈ order.map Vec.id, ∀ j ∈ order.map Vec.id, name i = name j → i = j := by
      intro i hi j hj heq
      obtain ⟨x, hx, rfl⟩ := List.mem_map.mp hi
      obtain ⟨y, hy, rfl⟩ := List.mem_map.mp hj
      exact hprep.distinct x hx y hy heq
    have hfmem := hf w hv
    cases hfw : f w with
    | none =>
      cases hwb : w.base with
      | none => rfl
      | some c =>
        rw [hfw, hwb] at hbase
        cases hbase
    | some b =>
      cases hwb : w.base with
      | none =>
        rw [hfw, hwb] at hbase
        cases hbase
      | some c =>
        rw [hfw, hwb] at hbase
        have hsame : name c = name b := Option.some.inj (Option.some.inj hbase)
        rw [hinj c (hbasemem c hwb) b (hfmem b hfw) hsame]
  · intro hall
    have hshape : order.map (namedShape name f) = order.map (namedShape name Vec.base) := by
      apply List.map_congr_left
      intro v hv
      rw [namedShape, namedShape, hall v hv]
    rw [hshape]
    exact hprep.perm.map _

theorem objShape_readObj {vecs vecs' : List Vec} {o : Obj (Option ℕ)}
    (hanchors : ∀ a ∈ o.anchors, ∀ b ∈ a, vecName vecs (place order b) = vecName vecs' b) :
    objShape vecs (readObj order o) = objShape vecs' o := by
  have htype : (readObj order o).kind.type = o.kind.type := by
    obtain ⟨objName, base, kind⟩ := o
    cases kind <;> rfl
  have hmap : (readObj order o).anchors = o.anchors.map (Option.map (place order)) := by
    obtain ⟨objName, base, kind⟩ := o
    cases kind <;> rfl
  have hnames : (o.anchors.map (Option.map (place order))).map (Option.map (vecName vecs)) =
      o.anchors.map (Option.map (vecName vecs')) := by
    rw [List.map_map]
    apply List.map_congr_left
    intro a ha
    rw [Function.comp_apply, Option.map_map]
    exact Option.map_congr (hanchors a ha)
  rw [objShape, objShape, htype, hmap, hnames]
  rfl

theorem sameGeometry_iff (hframe : frame.BasesFirst)
    (hprep : Prepared frame (vecsOf items) name)
    (hnames : ∀ v ∈ frame.vecs, names v.id = some (name v.id))
    (hobjs : (objsOf items).Perm frame.objs) :
    SameGeometry { frame with vecs := withNames names frame.vecs }
        (readState frame.vecs (vecsOf items) name items).frame ↔
      DotsRead frame.vecs (vecsOf items) := by
  have hshapes : ((objsOf items).map (readObj (vecsOf items))).map
      (objShape ((vecsOf items).map (readVec frame.vecs (vecsOf items) name))) =
        (objsOf items).map (objShape (withNames names frame.vecs)) := by
    rw [List.map_map]
    apply List.map_congr_left
    intro o ho
    apply objShape_readObj
    intro a ha b hb
    obtain ⟨u, hu, rfl⟩ := List.mem_map.mp (hframe.anchors o (hobjs.mem_iff.mp ho) a ha b hb)
    rw [vecName_withNames (List.mem_map_of_mem hu), hnames u hu]
    exact vecName_readVec hprep.ids (List.mem_map_of_mem (hprep.perm.mem_iff.mpr hu))
  rw [dotsRead_iff_readBase hprep.ids, SameGeometry]
  dsimp only [readState]
  rw [vecShape_readVec hframe hprep, vecShape_withNames hframe hnames, hshapes,
    perm_namedShape_iff hframe hprep fun v hv b hb => readBase_mem hframe hprep.perm hv hb]
  exact and_iff_left (hobjs.map _)

end Compare

/-! ### The whole frame -/

section Whole

variable {frame : Frame} {frames : List Name} {order : List Vec} {name : ℕ → Name}
  {names : ℕ → Option Name} {items : List Item}

theorem mem_vecsOf : v ∈ vecsOf items ↔ .vec v ∈ items := by
  rw [vecsOf, List.mem_filterMap]
  constructor
  · rintro ⟨item, hitem, hv⟩
    cases item with
    | vec w => exact Option.some.inj hv ▸ hitem
    | obj prev i o => cases hv
  · intro hv
    exact ⟨_, hv, rfl⟩

theorem mem_objsOf {o : Obj (Option ℕ)} : o ∈ objsOf items ↔ ∃ prev i, .obj prev i o ∈ items := by
  rw [objsOf, List.mem_filterMap]
  constructor
  · rintro ⟨item, hitem, ho⟩
    cases item with
    | vec w => cases ho
    | obj prev i o' => exact ⟨prev, i, Option.some.inj ho ▸ hitem⟩
  · rintro ⟨prev, i, ho⟩
    exact ⟨_, ho, rfl⟩

theorem isName_name (hwf : frame.WellFormed frames) (hnaming : Naming frame.vecs order names)
    (hv : v ∈ frame.vecs) {n : Name} (hn : names v.id = some n) : IsName n := by
  by_cases hnone : v.name = none
  · obtain ⟨j, rfl⟩ := hnaming.generated v hv hnone n hn
    exact isName_generatedName j
  · rw [hnaming.kept v hv hnone] at hn
    exact hwf.vecLabels v hv n hn

theorem valid_itemLine (hwf : frame.WellFormed frames)
    (hname : ∀ v ∈ frame.vecs, IsName (name v.id)) {item : Item}
    (hvec : ∀ v, item = .vec v → v ∈ frame.vecs)
    (hobj : ∀ prev i o, item = .obj prev i o → o ∈ frame.objs) :
    (itemLine frame.vecs name item).Valid := by
  have hid : ∀ b ∈ frame.vecs.map Vec.id, IsName (name b) := by
    intro b hb
    obtain ⟨u, hu, rfl⟩ := List.mem_map.mp hb
    exact hname u hu
  cases item with
  | vec v =>
    have hv := hvec v rfl
    refine ⟨?_, ?_, hwf.coords v hv⟩
    · intro n hn
      obtain rfl := Option.some.inj hn
      exact hname v hv
    · unfold vecBase
      split
      · trivial
      · rename_i b hbase
        split
        · trivial
        · obtain ⟨u, hu, rfl⟩ := hwf.toBasesFirst.exists_base hv hbase
          exact hid u.id (List.mem_map_of_mem hu)
  | obj prev i o =>
    have ho := hobj prev i o rfl
    have hanchor : ∀ a ∈ o.anchors, (anchorText name prev a).Valid := by
      intro a ha
      cases a with
      | none => trivial
      | some b =>
        rw [anchorText]
        split
        · trivial
        · exact hid b (hwf.anchors o ho _ ha b rfl)
    have hkinds := hwf.kinds o ho
    have hwidths := hwf.widths o ho
    refine ⟨hwf.objLabels o ho, ?_, ?_, ?_⟩
    · obtain ⟨objName, base, kind⟩ := o
      cases kind <;> simpa [Obj.anchors, Obj.map, ObjKind.map, ObjKind.others] using hanchor
    · obtain ⟨objName, base, kind⟩ := o
      cases kind <;> exact hkinds
    · obtain ⟨objName, base, kind⟩ := o
      cases kind <;> exact hwidths

theorem width_map {α β : Type} (f : α → β) (o : Obj α) : (o.map f).kind.width = o.kind.width := by
  obtain ⟨objName, base, kind⟩ := o
  cases kind <;> rfl

theorem readable_lines_iff (hvecs : (vecsOf items).Perm frame.vecs)
    (hobjs : (objsOf items).Perm frame.objs) :
    (∀ line ∈ items.map (itemLine frame.vecs name), line.Readable) ↔ ExprsReadable frame := by
  rw [List.forall_mem_map]
  constructor
  · intro hall
    constructor
    · intro v hv
      exact hall _ (mem_vecsOf.mp (hvecs.mem_iff.mpr hv))
    · intro o ho
      obtain ⟨prev, i, hmem⟩ := mem_objsOf.mp (hobjs.mem_iff.mpr ho)
      have hread := hall _ hmem
      rwa [itemLine, Line.Readable, width_map] at hread
  · rintro ⟨hvec, hobj⟩ item hitem
    cases item with
    | vec v => exact hvec v (hvecs.mem_iff.mp (mem_vecsOf.mpr hitem))
    | obj prev i o =>
      rw [itemLine, Line.Readable, width_map]
      exact hobj o (hobjs.mem_iff.mp (mem_objsOf.mpr ⟨prev, i, hitem⟩))

theorem mem_objNames {n : Name} : n ∈ objNames frame.objs ↔ ∃ o ∈ frame.objs, o.name = some n :=
  List.mem_filterMap

theorem labels_nodup_iff (hwf : frame.WellFormed frames)
    (hnaming : Naming frame.vecs order names) (hperm : order.Perm frame.vecs) :
    (vecNames (withNames names frame.vecs) ++ objNames frame.objs).Nodup ↔ NamesFree frame := by
  have hcount : anonymous order = anonymous frame.vecs := hperm.countP_eq _
  rw [List.nodup_append]
  constructor
  · rintro ⟨-, -, hdisjoint⟩ j hj
    by_contra hlt
    have hgiven : ∃ v ∈ frame.vecs, names v.id = some (generatedName j) := by
      rw [hnaming.given, hcount]
      exact Or.inr (Nat.not_le.mp hlt)
    exact hdisjoint _ (mem_vecNames_withNames.mpr hgiven) _ hj rfl
  · intro hfree
    have hlabels := List.nodup_append.mp hwf.labels
    refine ⟨?_, hlabels.2.1, ?_⟩
    · have hvecs : frame.vecs.Nodup := List.Nodup.of_map _ hwf.ids
      rw [vecNames, withNames, List.filterMap_map, List.Nodup, List.pairwise_filterMap]
      apply hvecs.imp_of_mem
      rintro u v hu hv hne n hn n' hn' rfl
      have hn : names u.id = some n := hn
      have hn' : names v.id = some n := hn'
      apply hne
      apply Vec.eq_of_id hwf.ids hu hv
      apply hnaming.distinct u hu v hv (hn.trans hn'.symm)
      rw [hn]
      exact Option.some_ne_none _
    · rintro n hn n' hn' rfl
      obtain ⟨v, hv, hname⟩ := mem_vecNames_withNames.mp hn
      by_cases hnone : v.name = none
      · obtain ⟨j, rfl⟩ := hnaming.generated v hv hnone n hname
        rcases (hnaming.given j).mp ⟨v, hv, hname⟩ with hused | hlt
        · exact hlabels.2.2 _ hused _ hn' rfl
        · have hle := hfree j hn'
          omega
      · rw [hnaming.kept v hv hnone] at hname
        exact hlabels.2.2 n (List.mem_filterMap.mpr ⟨v, hv, hname⟩) n hn' rfl

theorem prepared_of_free (hwf : frame.WellFormed frames)
    (hnaming : Naming frame.vecs order names) (hperm : order.Perm frame.vecs)
    (hname : ∀ v ∈ frame.vecs, names v.id = some (name v.id)) (hfree : NamesFree frame) :
    Prepared frame order name where
  perm := hperm
  ids := (hperm.map Vec.id).nodup_iff.mpr hwf.ids
  distinct := by
    intro u hu v hv heq
    have hu' := hname u (hperm.mem_iff.mp hu)
    have hv' := hname v (hperm.mem_iff.mp hv)
    apply hnaming.distinct u (hperm.mem_iff.mp hu) v (hperm.mem_iff.mp hv)
    · rw [hu', hv', heq]
    · rw [hu']
      exact Option.some_ne_none _
  noClash := by
    intro v hv o ho hclash
    have hlabels := List.nodup_append.mp ((labels_nodup_iff hwf hnaming hperm).mpr hfree)
    have hv' := hperm.mem_iff.mp hv
    exact hlabels.2.2 _ (mem_vecNames_withNames.mpr ⟨v, hv', hname v hv'⟩) _
      (mem_objNames.mpr ⟨o, ho, hclash⟩) rfl

theorem keepsGeometry_iff_dotsRead (hwf : frame.WellFormed frames) {indent : Text}
    (hindent : indent = [] ∨ indent = text "\t") (horder : orderFrame frame = some items)
    (hitems : Fitting frame items) (hperm : (vecsOf items).Perm frame.vecs)
    (hobjs : (objsOf items).Perm frame.objs) :
    KeepsGeometry frames indent frame ↔
      ExprsReadable frame ∧ DotsRead frame.vecs (vecsOf items) ∧ NamesFree frame := by
  have hframe := hwf.toBasesFirst
  have hlabels := List.nodup_append.mp hwf.labels
  have hnodup : (vecsOf items).Nodup :=
    hperm.nodup_iff.mpr (List.Nodup.of_map _ hwf.ids)
  obtain ⟨names, hnaming, hdumped, htext⟩ :=
    @dumpItems_lines frame items indent hframe hlabels.1 hitems hnodup
  obtain ⟨name, hname⟩ : ∃ name, Agrees names name :=
    ⟨fun id => (names id).getD [], fun id hid => eq_some_getD hid⟩
  have hall : ∀ v ∈ frame.vecs, names v.id = some (name v.id) := fun v hv =>
    hname _ (hnaming.named v (hperm.mem_iff.mpr hv))
  have hdump : dumpFrame indent frame = some (withNames names frame.vecs,
      linesText indent (items.map (itemLine frame.vecs name))) := by
    rw [dumpFrame, horder, ← hdumped, ← htext name hname]
    rfl
  have hvalid : ∀ line ∈ items.map (itemLine frame.vecs name), line.Valid := by
    rw [List.forall_mem_map]
    intro item hitem
    apply valid_itemLine hwf fun v hv => isName_name hwf hnaming hv (hall v hv)
    · rintro v rfl
      exact hperm.mem_iff.mp (mem_vecsOf.mpr hitem)
    · rintro prev i o rfl
      exact hobjs.mem_iff.mp (mem_objsOf.mpr ⟨prev, i, hitem⟩)
  have hread : ExprsReadable frame → Prepared frame (vecsOf items) name →
      readItems frames (scan .lineStart (linesText indent (items.map (itemLine frame.vecs name)))) =
        some (readState frame.vecs (vecsOf items) name items) := by
    intro hexprs hprep
    rw [scan_linesText hindent hvalid, readItems_eq ((readable_lines_iff hperm hobjs).mpr hexprs)]
    apply addLines_readState hwf hprep hitems List.prefix_rfl
    · exact fun o ho => hobjs.mem_iff.mp ho
    · exact (hobjs.filterMap Obj.name).nodup_iff.mpr hlabels.2.1
  constructor
  · rintro ⟨vecs, s, hrun, -, hdifferent, st, hst, hsame⟩
    obtain ⟨rfl, rfl⟩ := Prod.mk.inj (Option.some.inj (hdump.symm.trans hrun))
    have hfree := (labels_nodup_iff hwf hnaming hperm).mp hdifferent
    have hprep := prepared_of_free hwf hnaming hperm hall hfree
    have hexprs : ExprsReadable frame := by
      by_contra hno
      rw [← readable_lines_iff hperm hobjs] at hno
      push Not at hno
      rw [scan_linesText hindent hvalid, readItems_unreadable hno] at hst
      cases hst
    obtain rfl := Option.some.inj ((hread hexprs hprep).symm.trans hst)
    exact ⟨hexprs, (sameGeometry_iff hframe hprep hall hobjs).mp hsame, hfree⟩
  · rintro ⟨hexprs, hdots, hfree⟩
    have hprep := prepared_of_free hwf hnaming hperm hall hfree
    refine ⟨_, _, hdump, ?_, (labels_nodup_iff hwf hnaming hperm).mpr hfree, _,
      hread hexprs hprep, (sameGeometry_iff hframe hprep hall hobjs).mpr hdots⟩
    intro v hv
    obtain ⟨w, hw, rfl⟩ := List.mem_map.mp hv
    exact hnaming.named w (hperm.mem_iff.mpr hw)

end Whole

/-- **A frame keeps its geometry exactly if** all expressions can be read back, a vector listed
directly after a base with several vectors on it is the next to be written after that base, and no
object has a name that is generated. -/
theorem dumpFrame_keeps_iff (frames : List Name) (indent : Text)
    (hindent : indent = [] ∨ indent = text "\t") (frame : Frame)
    (hwf : frame.WellFormed frames) :
    KeepsGeometry frames indent frame ↔
      ExprsReadable frame ∧ DotsFit frame.vecs ∧ NamesFree frame := by
  have hframe := hwf.toBasesFirst
  obtain ⟨items, cs, horder, hitems, hcs, hvecs, hplaces⟩ := orderFrame_chains hframe
  have hperm : (vecsOf items).Perm frame.vecs := hvecs ▸ hcs.perm hframe
  have hdots : DotsRead frame.vecs (vecsOf items) ↔ DotsFit frame.vecs := by
    rw [hvecs]
    exact dotsRead_iff hframe hcs
  rw [← hdots]
  exact keepsGeometry_iff_dotsRead hwf hindent horder hitems hperm (hitems.objs_perm hplaces)

def oneMm : Expr := .num ⟨.mm, 1, 1⟩

theorem produced_oneMm : Produced oneMm := by
  refine ⟨[.lit ⟨.mm, 1, 1⟩], ?_⟩
  rw [scan, scan]
  exact .addMult (.multUnary (.unaryPrimary (.number _)))

def vecOn (id : ℕ) (name : Option Name) (base : Option ℕ) : Vec :=
  { id := id, name := name, base := base, x := oneMm, y := oneMm }

/-- A base with two vectors on it, and a line on one of them; only the base has a name. -/
def forkFrame : Frame where
  vecs := [vecOn 0 (some ['a']) none, vecOn 1 none (some 0), vecOn 2 none (some 0)]
  objs := [{ name := none, base := some 0, kind := .line (some 2) none }]

def splitFrame : Frame where
  vecs :=
    [vecOn 0 (some ['p']) none, vecOn 1 (some ['x']) none, vecOn 2 (some ['b']) (some 0),
      vecOn 3 (some ['c']) (some 2), vecOn 4 (some ['d']) (some 2)]
  objs := []

theorem wellFormed_forkFrame : forkFrame.WellFormed [] where
  ids := by decide
  bases := by
    intro pre v post hvecs b hb
    have hlisted : basesListed [] forkFrame.vecs = true := by decide
    rw [hvecs] at hlisted
    exact mem_of_basesListed hlisted hb
  anchors := by decide
  vecLabels := by
    have hname : ∀ v ∈ forkFrame.vecs, ∀ n ∈ v.name, n = ['a'] := by decide
    intro v hv n hn
    rw [hname v hv n hn]
    exact isName_of_chars rfl
  objLabels := by
    intro o ho n hn
    obtain rfl := List.mem_singleton.mp ho
    cases hn
  labels := by decide
  coords := by
    have hcoords : ∀ v ∈ forkFrame.vecs, v.x = oneMm ∧ v.y = oneMm := by decide
    intro v hv
    rw [(hcoords v hv).1, (hcoords v hv).2]
    exact ⟨produced_oneMm, produced_oneMm⟩
  widths := by
    intro o ho e he
    obtain rfl := List.mem_singleton.mp ho
    cases he
  kinds := by
    intro o ho
    obtain rfl := List.mem_singleton.mp ho
    trivial
  refs := by decide

/-- The vectors without a name are written as `__0` on `.` and `__1` on `a`. -/
theorem dumpFrame_keeps_fork : KeepsGeometry [] [] forkFrame := by
  refine (dumpFrame_keeps_iff [] [] (Or.inl rfl) forkFrame wellFormed_forkFrame).mpr
    ⟨?_, ?_, ?_⟩
  · constructor
    · decide
    · decide
  · intro pre b c post hvecs hbase _
    cases pre with
    | nil =>
      obtain ⟨rfl, -⟩ := List.cons.inj hvecs
      exact ⟨vecOn 0 (some ['a']) none, rfl, .refl⟩
    | cons u pre =>
      obtain ⟨-, hrest⟩ := List.cons.inj hvecs
      cases pre with
      | nil =>
        obtain ⟨rfl, hrest'⟩ := List.cons.inj hrest
        obtain ⟨rfl, -⟩ := List.cons.inj hrest'
        cases hbase
      | cons u' pre =>
        obtain ⟨-, hrest'⟩ := List.cons.inj hrest
        have hlength := congrArg List.length hrest'
        simp only [List.append_eq, List.length_append, List.length_cons, List.length_nil]
          at hlength
        omega
  · intro j hj
    cases hj

theorem wellFormed_splitFrame : splitFrame.WellFormed [] where
  ids := by decide
  bases := by
    intro pre v post hvecs b hb
    have hlisted : basesListed [] splitFrame.vecs = true := by decide
    rw [hvecs] at hlisted
    exact mem_of_basesListed hlisted hb
  anchors := nofun
  vecLabels := by
    have hname : ∀ v ∈ splitFrame.vecs, ∀ n ∈ v.name,
        (n.head?.any isIdStart && n.tail.all isIdChar) = true := by decide
    intro v hv n hn
    exact isName_of_chars (hname v hv n hn)
  objLabels := nofun
  labels := by decide
  coords := by
    have hcoords : ∀ v ∈ splitFrame.vecs, v.x = oneMm ∧ v.y = oneMm := by decide
    intro v hv
    rw [(hcoords v hv).1, (hcoords v hv).2]
    exact ⟨produced_oneMm, produced_oneMm⟩
  widths := nofun
  kinds := nofun
  refs := nofun

/-- `p`, `b`, `x`, `c` and `d` are written in this order, so that `c`, which is written on `.`, is
read as a vector on `x`. -/
theorem dumpFrame_moves_vec :
    ¬ ∀ (frames : List Name) (indent : Text), indent = [] ∨ indent = text "\t" →
      ∀ frame : Frame, frame.WellFormed frames → KeepsGeometry frames indent frame := by
  intro hall
  have hkeeps := hall [] [] (Or.inl rfl) splitFrame wellFormed_splitFrame
  have hframe := wellFormed_splitFrame.toBasesFirst
  obtain ⟨items, cs, horder, hitems, hcs, hvecs, hplaces⟩ := orderFrame_chains hframe
  have hperm : (vecsOf items).Perm splitFrame.vecs := hvecs ▸ hcs.perm hframe
  rw [keepsGeometry_iff_dotsRead wellFormed_splitFrame (Or.inl rfl) horder hitems hperm
    (hitems.objs_perm hplaces)] at hkeeps
  have hitemsEq : items = [.vec (vecOn 0 (some ['p']) none), .vec (vecOn 2 (some ['b']) (some 0)),
      .vec (vecOn 1 (some ['x']) none), .vec (vecOn 3 (some ['c']) (some 2)),
      .vec (vecOn 4 (some ['d']) (some 2))] := by
    rw [← Option.some_inj, ← horder]
    decide
  rw [hitemsEq] at hkeeps
  have hlast := hkeeps.2.1
    [vecOn 0 (some ['p']) none, vecOn 2 (some ['b']) (some 0), vecOn 1 (some ['x']) none]
    (vecOn 3 (some ['c']) (some 2)) [vecOn 4 (some ['d']) (some 2)] rfl 2 rfl rfl
  cases hlast

end Openmoko.Fped
