import Mathlib.Logic.Function.Basic
import Openmoko.Fped.Fpd
import Openmoko.Fped.Proof.DumpOrder

/-!
# The array that `order_frame` fills (`dump.c`)

The frame is as it is in memory, measurements among its objects. Vectors and objects are known by
their addresses, and each of them has a flag `dumped`. The array ends with an entry of two NULLs.
-/

namespace Openmoko.Fped

structure Order where
  vec : Option ℕ
  obj : Option ℕ
  deriving DecidableEq, Repr

structure OrderState where
  vecDumped : ℕ → Bool
  objDumped : ℕ → Bool
  order : List Order

def FpdObj.isMeas : FpdObj → Bool
  | .obj _ => false
  | .meas _ _ _ _ => true

namespace OrderState

variable (st : OrderState)

def addItem (vec obj : Option ℕ) : OrderState :=
  { st with order := st.order ++ [⟨vec, obj⟩] }

def later (st : OrderState) : Option ℕ → Bool
  | none => false
  | some base => !st.vecDumped base

def mayPutObjNow (obj : FpdObj) (prev : ℕ) : Bool :=
  match obj with
  | .obj o => o.anchors.any (need · prev) && !o.anchors.any st.later
  | .meas _ _ _ _ => false

def putObj (obj : ObjAt) (prev : Option ℕ) : OrderState :=
  if st.objDumped obj.addr then st
  else { st with objDumped := Function.update st.objDumped obj.addr true }.addItem prev obj.addr

def dumpVec (vec : ℕ) : OrderState :=
  { st with vecDumped := Function.update st.vecDumped vec true }.addItem vec none

def putObjsAfter (vec : ℕ) (objs : List ObjAt) (st : OrderState) : OrderState :=
  objs.foldl (fun st obj => if st.mayPutObjNow obj.obj vec then st.putObj obj (some vec) else st) st

def recurseVec (frame : FpdFrame) : ℕ → Vec → List Vec → OrderState → Option OrderState
  | 0, _, _, _ => none
  | depth + 1, vec, rest, st =>
    let st := putObjsAfter vec.id frame.objs (st.dumpVec vec.id)
    if nVecRefs frame.vecs vec.id = 1 then
      match nextBased vec.id rest with
      | none => none
      | some (next, rest) => recurseVec frame depth next rest st
    else some st

def orderVecs (frame : FpdFrame) : List Vec → OrderState → Option OrderState
  | [], st => some st
  | vec :: rest, st =>
    if startsChain frame.vecs vec then
      (recurseVec frame frame.vecs.length vec rest st).bind (orderVecs frame rest)
    else orderVecs frame rest st

def putRest (objs : List ObjAt) (st : OrderState) : OrderState :=
  objs.foldl (fun st obj => if obj.obj.isMeas then st else st.putObj obj none) st

end OrderState

def OrderState.start : OrderState := ⟨fun _ => false, fun _ => false, []⟩

def FpdFrame.orderSize (frame : FpdFrame) : ℕ :=
  frame.vecs.length + frame.objs.countP fun o => !o.obj.isMeas

def FpdFrame.orderFrame (frame : FpdFrame) : Option (List Order) := do
  let st ← OrderState.orderVecs frame frame.vecs .start
  let st := st.putRest frame.objs
  if st.order.length = frame.orderSize then return (st.addItem none none).order else none

end Openmoko.Fped

/-!
## The array is a linear order of the frame

What `order_frame` does with flags and addresses is what the list of items says of the vectors and
of the objects that are not measurements. Each entry is the item at the same place.
-/

namespace Openmoko.Fped

def FpdObj.toObj? : FpdObj → Option (Obj (Option ℕ))
  | .obj o => some o
  | .meas _ _ _ _ => none

def drawnObjs (objs : List ObjAt) : List ObjAt := objs.filter fun o => !o.obj.isMeas

def FpdFrame.toFrame (frame : FpdFrame) : Frame where
  vecs := frame.vecs
  objs := frame.objs.filterMap fun o => o.obj.toObj?

def FpdFrame.addrs (frame : FpdFrame) : List ℕ := (drawnObjs frame.objs).map ObjAt.addr

/-- Each vector comes after its base, objects are anchored to vectors of the frame, and what is at
one address is one thing. -/
structure FpdFrame.BasesFirst (frame : FpdFrame) : Prop where
  toFrame : frame.toFrame.BasesFirst
  addrs : (frame.objs.map ObjAt.addr).Nodup

def Order.vecEntry? (entry : Order) : Option ℕ := if entry.obj = none then entry.vec else none

structure FpdFrame.LinearOrder (frame : FpdFrame) (order : List Order) : Prop where
  vecs : (order.filterMap Order.vecEntry?).Perm (frame.vecs.map Vec.id)
  objs : (order.filterMap Order.obj).Perm frame.addrs
  entries : ∀ entry ∈ order, entry ≠ ⟨none, none⟩
  bases : ∀ v ∈ frame.vecs, ∀ pre post, order = pre ++ ⟨some v.id, none⟩ :: post →
    ∀ b ∈ v.base, ⟨some b, none⟩ ∈ pre
  anchors : ∀ addr o, ⟨addr, .obj o⟩ ∈ frame.objs →
    ∀ pre prev post, order = pre ++ ⟨prev, some addr⟩ :: post →
    ∀ a ∈ o.anchors, ∀ b ∈ a, ⟨some b, none⟩ ∈ pre
  prevs : ∀ pre prev addr post, order = pre ++ ⟨some prev, some addr⟩ :: post →
    (pre.filterMap Order.vecEntry?).getLast? = some prev

theorem filterMap_toObj? (objs : List ObjAt) :
    (drawnObjs objs).map (fun o => o.obj.toObj?) =
      (objs.filterMap fun o => o.obj.toObj?).map some := by
  induction objs with
  | nil => rfl
  | cons o objs ih =>
    obtain ⟨addr, obj⟩ := o
    cases obj with
    | obj o => simpa [drawnObjs, FpdObj.isMeas, FpdObj.toObj?] using ih
    | meas name base high quals => simpa [drawnObjs, FpdObj.isMeas, FpdObj.toObj?] using ih

def Item.entry (addrs : List ℕ) : Item → Order
  | .vec v => ⟨some v.id, none⟩
  | .obj prev place _ => ⟨prev, addrs[place]?⟩

structure OrderState.Shows (addrs : List ℕ) (st : OrderState) (items : List Item) : Prop where
  order : st.order = items.map (Item.entry addrs)
  vecs : ∀ id, st.vecDumped id = Fped.vecDumped items id
  objs : ∀ place addr, addrs[place]? = some addr → st.objDumped addr = Fped.objDumped items place

variable {place : ℕ}

namespace OrderState

variable {frame : FpdFrame} {addrs : List ℕ} {st : OrderState} {items : List Item}

theorem shows_start (addrs : List ℕ) : OrderState.start.Shows addrs [] where
  order := rfl
  vecs _ := rfl
  objs _ _ _ := rfl

theorem Shows.later (h : st.Shows addrs items) (base : Option ℕ) :
    st.later base = Fped.later items base := by
  cases base with
  | none => rfl
  | some base => simp only [OrderState.later, Fped.later, h.vecs]

theorem Shows.mayPutObjNow (h : st.Shows addrs items) (o : Obj (Option ℕ)) (prev : ℕ) :
    st.mayPutObjNow (.obj o) prev = Fped.mayPutObjNow items o prev := by
  have hlater : st.later = Fped.later items := funext h.later
  simp only [OrderState.mayPutObjNow, Fped.mayPutObjNow, hlater]

theorem Shows.dumpVec (h : st.Shows addrs items) (v : Vec) :
    (st.dumpVec v.id).Shows addrs (items ++ [.vec v]) where
  order := by simp [OrderState.dumpVec, addItem, h.order, Item.entry]
  vecs id := by
    by_cases hid : id = v.id
    · simp [OrderState.dumpVec, addItem, Fped.vecDumped, hid, Item.vecId?]
    · have hvecs := h.vecs id
      simp only [Fped.vecDumped] at hvecs
      simp [OrderState.dumpVec, addItem, Fped.vecDumped, hid, Item.vecId?, hvecs]
  objs place addr haddr := by
    have hobjs := h.objs place addr haddr
    simp only [Fped.objDumped] at hobjs
    simp [OrderState.dumpVec, addItem, Fped.objDumped, Item.objPlace?, hobjs]

theorem Shows.putObj (h : st.Shows addrs items) (haddrs : addrs.Nodup) {o : ObjAt}
    (hplace : addrs[place]? = some o.addr) (prev : Option ℕ) (obj : Obj (Option ℕ)) :
    (st.putObj o prev).Shows addrs (Fped.putObj items prev place obj) := by
  unfold OrderState.putObj Fped.putObj
  rw [h.objs place o.addr hplace]
  by_cases hdumped : Fped.objDumped items place = true
  · rwa [if_pos hdumped, if_pos hdumped]
  rw [if_neg hdumped, if_neg hdumped]
  constructor
  · simp [addItem, h.order, Item.entry, hplace]
  · intro id
    have hvecs := h.vecs id
    simp only [Fped.vecDumped] at hvecs
    simp [addItem, Fped.vecDumped, Item.vecId?, hvecs]
  · intro place' addr haddr
    by_cases hsame : place' = place
    · subst hsame
      have haddr' : addr = o.addr := Option.some.inj (haddr.symm.trans hplace)
      simp [addItem, Fped.objDumped, Item.objPlace?, haddr']
    · have hne : addr ≠ o.addr := by
        rintro rfl
        obtain ⟨hlt, -⟩ := List.getElem?_eq_some_iff.mp haddr
        exact hsame ((List.getElem?_inj hlt haddrs).mp (haddr.trans hplace.symm))
      have hobjs := h.objs place' addr haddr
      simp only [Fped.objDumped] at hobjs
      simp [addItem, Fped.objDumped, Item.objPlace?, hne, hobjs, hsame]

theorem Shows.putObjsAfter (vec : ℕ) (haddrs : addrs.Nodup) {objs : List ObjAt}
    (h : st.Shows addrs items) (hplaces : addrs.drop place = (drawnObjs objs).map ObjAt.addr) :
    (st.putObjsAfter vec objs).Shows addrs
      (Fped.putObjsAfter vec place (objs.filterMap fun o => o.obj.toObj?) items) := by
  induction objs generalizing st items place with
  | nil => exact h
  | cons o objs ih =>
    obtain ⟨addr, obj⟩ := o
    rw [OrderState.putObjsAfter, List.foldl_cons]
    cases obj with
    | meas name base high quals => exact ih h hplaces
    | obj o =>
      have hdrop : addrs.drop place = addr :: (drawnObjs objs).map ObjAt.addr := hplaces
      obtain ⟨hplace, hrest⟩ := of_drop_eq_cons hdrop
      rw [h.mayPutObjNow]
      change Shows _ _ (Fped.putObjsAfter vec (place + 1) _ _)
      refine ih ?_ hrest
      split
      · exact h.putObj haddrs hplace (some vec) o
      · exact h

theorem Shows.putRest (objs : List ObjAt) (haddrs : addrs.Nodup)
    (h : st.Shows addrs items) (hplaces : addrs.drop place = (drawnObjs objs).map ObjAt.addr) :
    (st.putRest objs).Shows addrs
      (Fped.putRest place (objs.filterMap fun o => o.obj.toObj?) items) := by
  induction objs generalizing st items place with
  | nil => exact h
  | cons o objs ih =>
    obtain ⟨addr, obj⟩ := o
    rw [OrderState.putRest, List.foldl_cons]
    cases obj with
    | meas name base high quals => exact ih h hplaces
    | obj o =>
      have hdrop : addrs.drop place = addr :: (drawnObjs objs).map ObjAt.addr := hplaces
      obtain ⟨hplace, hrest⟩ := of_drop_eq_cons hdrop
      exact ih (h.putObj haddrs hplace none o) hrest

theorem Shows.recurseVec (haddrs : frame.addrs.Nodup) {depth : ℕ} {v : Vec} {rest : List Vec}
    {items' : List Item} (h : st.Shows frame.addrs items)
    (hrun : Fped.recurseVec frame.toFrame depth v rest items = some items') :
    ∃ st', OrderState.recurseVec frame depth v rest st = some st' ∧
      st'.Shows frame.addrs items' := by
  induction depth generalizing st items v rest with
  | zero => cases hrun
  | succ depth ih =>
    have hput := (h.dumpVec v).putObjsAfter v.id haddrs
      (List.drop_zero (l := frame.addrs))
    rw [Fped.recurseVec] at hrun
    rw [OrderState.recurseVec]
    change (if nVecRefs frame.vecs v.id = 1 then _ else _) = _ at hrun
    by_cases hrefs : nVecRefs frame.vecs v.id = 1
    · rw [if_pos hrefs] at hrun
      rw [if_pos hrefs]
      cases hnext : nextBased v.id rest with
      | none =>
        rw [hnext] at hrun
        cases hrun
      | some next =>
        rw [hnext] at hrun
        exact ih hput hrun
    · rw [if_neg hrefs] at hrun
      rw [if_neg hrefs]
      exact ⟨_, rfl, Option.some.inj hrun ▸ hput⟩

theorem Shows.orderVecs (haddrs : frame.addrs.Nodup) {rest : List Vec} {items' : List Item}
    (h : st.Shows frame.addrs items)
    (hrun : Fped.orderVecs frame.toFrame rest items = some items') :
    ∃ st', OrderState.orderVecs frame rest st = some st' ∧ st'.Shows frame.addrs items' := by
  induction rest generalizing st items with
  | nil => exact ⟨st, rfl, Option.some.inj hrun ▸ h⟩
  | cons v rest ih =>
    rw [Fped.orderVecs] at hrun
    rw [OrderState.orderVecs]
    change (if startsChain frame.vecs v then _ else _) = _ at hrun
    by_cases hstart : startsChain frame.vecs v = true
    · rw [if_pos hstart] at hrun
      rw [if_pos hstart]
      obtain ⟨items'', hvec, hrun⟩ := Option.bind_eq_some_iff.mp hrun
      obtain ⟨st'', hvec', h''⟩ := h.recurseVec haddrs hvec
      rw [show frame.vecs.length = frame.toFrame.vecs.length from rfl, hvec', Option.bind_some]
      exact ih h'' hrun
    · rw [if_neg hstart] at hrun
      rw [if_neg hstart]
      exact ih h hrun

end OrderState

section Entries

variable {frame : FpdFrame} {items : List Item}

theorem FpdFrame.length_addrs (frame : FpdFrame) :
    frame.addrs.length = frame.toFrame.objs.length := by
  have hlength := congrArg List.length (filterMap_toObj? frame.objs)
  rw [List.length_map, List.length_map] at hlength
  rw [FpdFrame.addrs, List.length_map]
  exact hlength

theorem FpdFrame.BasesFirst.nodup_addrs (hframe : frame.BasesFirst) : frame.addrs.Nodup :=
  hframe.addrs.sublist (List.filter_sublist.map _)

theorem Fitting.of_append {frame : Frame} {pre post : List Item}
    (hitems : Fitting frame (pre ++ post)) : Fitting frame pre := by
  induction post using List.reverseRecOn with
  | nil => rwa [List.append_nil] at hitems
  | append_singleton post last ih =>
    apply ih
    rw [← List.append_assoc] at hitems
    generalize hall : (pre ++ post) ++ [last] = all at hitems
    cases hitems with
    | nil => simp at hall
    | snoc hitems _ => exact (List.append_inj' hall rfl).1 ▸ hitems

theorem Fitting.fits {frame : Frame} {pre post : List Item} {item : Item}
    (hitems : Fitting frame (pre ++ item :: post)) : item.Fits frame pre := by
  rw [← List.singleton_append, ← List.append_assoc] at hitems
  have hpre := hitems.of_append
  generalize hall : pre ++ [item] = all at hpre
  cases hpre with
  | nil => simp at hall
  | snoc _ hfits =>
    obtain ⟨rfl, hitem⟩ := List.append_inj' hall rfl
    exact List.singleton_inj.mp hitem ▸ hfits

theorem Fitting.exists_addr (hitems : Fitting frame.toFrame items) {prev : Option ℕ}
    {o : Obj (Option ℕ)} (hitem : Item.obj prev place o ∈ items) :
    ∃ addr, frame.addrs[place]? = some addr := by
  have hplace : place ∈ places items := List.mem_filterMap.mpr ⟨_, hitem, rfl⟩
  have hlt := hitems.places_spec.2.1 place hplace
  rw [← frame.length_addrs] at hlt
  exact ⟨_, List.getElem?_eq_getElem hlt⟩

theorem Fitting.vecEntries (hitems : Fitting frame.toFrame items) :
    (items.map (Item.entry frame.addrs)).filterMap Order.vecEntry? =
      (vecsOf items).map Vec.id := by
  rw [List.filterMap_map, ← filterMap_vecId]
  apply List.filterMap_congr
  intro item hitem
  cases item with
  | vec v => rfl
  | obj prev place o =>
    obtain ⟨addr, haddr⟩ := hitems.exists_addr hitem
    simp [Item.entry, Order.vecEntry?, haddr, Item.vecId?]

theorem objEntries (frame : FpdFrame) (items : List Item) :
    (items.map (Item.entry frame.addrs)).filterMap Order.obj =
      (places items).filterMap (frame.addrs[·]?) := by
  rw [List.filterMap_map, places, List.filterMap_filterMap]
  apply List.filterMap_congr
  intro item _
  cases item <;> rfl

theorem FpdFrame.obj_of_addr (hframe : frame.BasesFirst) {addr : ℕ}
    {o o' : Obj (Option ℕ)} (haddr : frame.addrs[place]? = some addr)
    (hplace : frame.toFrame.objs[place]? = some o') (hobj : ⟨addr, .obj o⟩ ∈ frame.objs) :
    o' = o := by
  rw [FpdFrame.addrs, List.getElem?_map, Option.map_eq_some_iff] at haddr
  obtain ⟨at', hat, rfl⟩ := haddr
  have hmem : at' ∈ frame.objs := List.mem_of_mem_filter (List.mem_of_getElem? hat)
  have hsame : at' = ⟨at'.addr, .obj o⟩ := List.inj_on_of_nodup_map hframe.addrs hmem hobj rfl
  have hobj' := congrArg (·[place]?) (filterMap_toObj? frame.objs)
  simp only [List.getElem?_map, hat, Option.map_some] at hobj'
  rw [show frame.objs.filterMap (fun o => o.obj.toObj?) = frame.toFrame.objs from rfl, hplace,
    hsame] at hobj'
  exact (Option.some.inj (Option.some.inj hobj')).symm

theorem mem_entries_of_later {addrs : List ℕ} {before : List Item} {a : Option ℕ}
    (hlater : later before a = false) {b : ℕ} (hb : b ∈ a) :
    ⟨some b, none⟩ ∈ before.map (Item.entry addrs) := by
  obtain ⟨v, hv, rfl⟩ := List.mem_map.mp (later_eq_false.mp hlater b hb)
  obtain ⟨item, hitem, hvec⟩ := List.mem_filterMap.mp hv
  cases item with
  | vec w =>
    cases hvec
    exact List.mem_map_of_mem hitem
  | obj prev place o => cases hvec

theorem filterMap_getElem?_range {α : Type} (l : List α) :
    (List.range l.length).filterMap (l[·]?) = l := by
  have hsome := congrArg (List.filterMap id) (map_getElem?_range l)
  rw [List.filterMap_map, List.filterMap_map] at hsome
  exact hsome.trans List.filterMap_some

theorem linearOrder_of_fitting (hframe : frame.BasesFirst) (hitems : Fitting frame.toFrame items)
    (hvecs : (vecsOf items).Perm frame.vecs)
    (hplaces : ∀ i < frame.toFrame.objs.length, i ∈ places items) :
    frame.LinearOrder (items.map (Item.entry frame.addrs)) where
  vecs := by
    rw [hitems.vecEntries]
    exact hvecs.map _
  objs := by
    obtain ⟨hnodup, hlt, -⟩ := hitems.places_spec
    have hperm : (places items).Perm (List.range frame.addrs.length) := by
      rw [List.perm_ext_iff_of_nodup hnodup List.nodup_range, frame.length_addrs]
      intro i
      rw [List.mem_range]
      exact ⟨hlt i, hplaces i⟩
    have haddrs := hperm.filterMap (frame.addrs[·]?)
    rwa [filterMap_getElem?_range, ← objEntries] at haddrs
  entries := by
    intro entry hentry
    obtain ⟨item, hitem, rfl⟩ := List.mem_map.mp hentry
    cases item with
    | vec v => simp [Item.entry]
    | obj prev place o =>
      obtain ⟨addr, haddr⟩ := hitems.exists_addr hitem
      simp [Item.entry, haddr]
  bases := by
    intro v hv pre post horder b hb
    obtain ⟨before, rest, rfl, rfl, hrest⟩ := List.map_eq_append_iff.mp horder
    obtain ⟨item, after, rfl, hentry, -⟩ := List.map_eq_cons_iff.mp hrest
    have hfits := hitems.fits
    cases item with
    | vec w =>
      have hid : w.id = v.id := by simpa [Item.entry] using hentry
      have hsame : w = v := List.inj_on_of_nodup_map hframe.toFrame.ids hfits.1 hv hid
      exact mem_entries_of_later hfits.2 (hsame ▸ hb)
    | obj prev place o =>
      obtain ⟨addr, haddr⟩ := hitems.exists_addr (List.mem_append_right _ List.mem_cons_self)
      simp [Item.entry, haddr] at hentry
  anchors := by
    intro addr o ho pre prev post horder a ha b hb
    obtain ⟨before, rest, rfl, rfl, hrest⟩ := List.map_eq_append_iff.mp horder
    obtain ⟨item, after, rfl, hentry, -⟩ := List.map_eq_cons_iff.mp hrest
    have hfits := hitems.fits
    cases item with
    | vec w => simp [Item.entry] at hentry
    | obj prev' place o' =>
      obtain ⟨-, haddr⟩ := Order.mk.inj hentry
      have hsame := FpdFrame.obj_of_addr hframe haddr hfits.1 ho
      exact mem_entries_of_later (hfits.2.2.1 a (hsame ▸ ha)) hb
  prevs := by
    intro pre prev addr post horder
    obtain ⟨before, rest, rfl, rfl, hrest⟩ := List.map_eq_append_iff.mp horder
    obtain ⟨item, after, rfl, hentry, -⟩ := List.map_eq_cons_iff.mp hrest
    have hfits := hitems.fits
    cases item with
    | vec w => simp [Item.entry] at hentry
    | obj prev' place o' =>
      obtain ⟨rfl, -⟩ := Order.mk.inj hentry
      rw [hitems.of_append.vecEntries, List.getLast?_map]
      exact (hfits.2.2.2.resolve_left nofun).symm

theorem length_entries {order : List Order} (horder : ∀ entry ∈ order, entry ≠ ⟨none, none⟩) :
    order.length = (order.filterMap Order.vecEntry?).length + (order.filterMap Order.obj).length := by
  induction order with
  | nil => rfl
  | cons entry order ih =>
    rw [List.forall_mem_cons] at horder
    obtain ⟨vec, obj⟩ := entry
    have hlength := ih horder.2
    rcases obj with - | addr
    · rcases vec with - | id
      · exact absurd rfl horder.1
      · simp [Order.vecEntry?, hlength]
        omega
    · simp [Order.vecEntry?, hlength]
      omega

theorem FpdFrame.LinearOrder.length {order : List Order} (horder : frame.LinearOrder order) :
    order.length = frame.orderSize := by
  rw [length_entries horder.entries, horder.vecs.length_eq, horder.objs.length_eq, FpdFrame.addrs,
    FpdFrame.orderSize, List.length_map, List.length_map, drawnObjs, List.countP_eq_length_filter]

end Entries

/-- **The array is a linear order of the frame**: `order_frame` ends, with each vector and each
object that is drawn once, all after what they depend on. -/
theorem orderFrame_linear (frame : FpdFrame) (hframe : frame.BasesFirst) :
    ∃ order, frame.orderFrame = some (order ++ [⟨none, none⟩]) ∧ frame.LinearOrder order := by
  obtain ⟨items, cs, hrun, hfit, hcs, hall, hplaces⟩ := orderFrame_chains hframe.toFrame
  obtain ⟨items', hvecs, rfl⟩ := Option.map_eq_some_iff.mp hrun
  obtain ⟨st, hrun', hshows⟩ :=
    (OrderState.shows_start frame.addrs).orderVecs hframe.nodup_addrs hvecs
  have hrest := hshows.putRest frame.objs hframe.nodup_addrs
    (List.drop_zero (l := frame.addrs))
  have horder := linearOrder_of_fitting hframe hfit (hall ▸ hcs.perm hframe.toFrame) hplaces
  change frame.LinearOrder ((putRest 0 frame.toFrame.objs items').map _) at horder
  rw [show frame.toFrame.objs = frame.objs.filterMap fun o => o.obj.toObj? from rfl,
    ← hrest.order] at horder
  refine ⟨_, ?_, horder⟩
  change (OrderState.orderVecs frame frame.vecs _).bind _ = _
  rw [show frame.vecs = frame.toFrame.vecs from rfl, hrun', Option.bind_some]
  exact if_pos horder.length

def holeFrame : FpdFrame where
  name := none
  vars := []
  vecs := [⟨0, none, none, .num ⟨.mm, 1, 1⟩, .num ⟨.mm, 1, 1⟩⟩,
    ⟨1, none, some 0, .num ⟨.mm, 1, 1⟩, .num ⟨.mm, 1, 1⟩⟩]
  objs := [⟨2, .meas none ⟨none, 0⟩ ⟨none, 1⟩ []⟩, ⟨3, .obj ⟨none, some 1, .hole none⟩⟩]

theorem orderFrame_linear_hole :
    ∃ order, holeFrame.orderFrame = some (order ++ [⟨none, none⟩]) ∧
      holeFrame.LinearOrder order := by
  refine orderFrame_linear holeFrame ⟨⟨by decide, ?_, by decide⟩, by decide⟩
  intro pre v post hvecs b hb
  have hlisted : basesListed [] holeFrame.toFrame.vecs = true := by decide
  rw [hvecs] at hlisted
  exact mem_of_basesListed hlisted hb

end Openmoko.Fped
