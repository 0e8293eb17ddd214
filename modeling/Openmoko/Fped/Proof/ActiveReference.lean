import Openmoko.Fped.Proof.Editing

/-!
# Active references lead to a frame

A frame that is referred to has an active reference, which is one of its references. Reading an
object, deleting and undeleting keep this only where no reference is lost or comes back without
being noticed.
-/

namespace Openmoko.Fped

namespace Model

/-- A reference on the lists is active if there is one, and none is if there is none. -/
def ActiveLeads (m : Model) : Prop :=
  ∀ f ∈ m.frames,
    ((∃ o, m.Live o ∧ m.RefersTo o f) → ∃ o, m.activeRef f = some o ∧ m.Live o ∧ m.RefersTo o f) ∧
      ((¬∃ o, m.Live o ∧ m.RefersTo o f) → m.activeRef f = none)

def Noticed (m : Model) (o : Addr) : Prop := ∀ g, m.RefersTo o g → m.activeRef g ≠ none

def AllNoticed (m : Model) : Prop := ∀ o, m.Live o → m.Noticed o

theorem activeLeads_of_sound {m : Model} (hsound : m.ActiveSound) (hnoticed : m.AllNoticed) :
    m.ActiveLeads := by
  intro f _
  constructor
  · rintro ⟨o, ho, href⟩
    obtain ⟨x, hx⟩ := Option.ne_none_iff_exists'.mp (hnoticed o ho f href)
    exact ⟨x, hx, (hsound f x hx).2, (hsound f x hx).1⟩
  · intro hnone
    by_contra hsome
    obtain ⟨x, hx⟩ := Option.ne_none_iff_exists'.mp hsome
    exact hnone ⟨x, (hsound f x hx).2, (hsound f x hx).1⟩

def Replaces (m : Model) (op : DeleteOp) : Prop :=
  ∀ g o, m.activeRef g = some o → m.Removed op o →
    (∀ o', m.Live o' → m.RefersTo o' g → m.Removed op o') ∨
      ∃ f o', (m.remaining op).getLast? = some f ∧ o' ∈ m.objs f ∧ m.RefersTo o' g ∧
        ¬m.Removed op o'

def topGroup (m : Model) : List Deletion :=
  match m.deletions with
  | [] => []
  | d :: ds => (d :: ds).takeWhile (·.group = d.group)

def ItemNoticed (m : Model) : Deleted → Prop
  | .obj o _ _ => m.Noticed o
  | .frame f _ _ => ∀ o ∈ m.objs f, m.Noticed o
  | _ => True

def RestoresNoticed (m : Model) : Prop := ∀ d ∈ m.topGroup, m.ItemNoticed d.item

variable {m m' : Model} {n : Addr}

theorem lastRef_ne_none {f o g : Addr} (hlast : m.frames.getLast? = some f) (ho : o ∈ m.objs f)
    (href : m.RefersTo o g) : m.lastRef g ≠ none := by
  rw [lastRef, hlast, Option.bind_some]
  intro hnone
  rw [List.find?_eq_none] at hnone
  exact hnone o ho (by rw [isRefTo, decide_eq_true_iff]; exact href)

theorem allNoticed_delete {op : DeleteOp} (hm : m.Sound n) (hsound : m.ActiveSound)
    (hnoticed : m.AllNoticed) (hreplaces : m.Replaces op) (h : m.delete op = some m') :
    m'.AllNoticed := by
  intro o ho g href hnone
  have hshrinks := shrinks_delete h
  have hold := ho.of_shrinks hshrinks
  rw [refersTo_shrinks hshrinks] at href
  obtain ⟨x, hx⟩ := Option.ne_none_iff_exists'.mp (hnoticed o hold g href)
  obtain ⟨hxref, hxlive⟩ := hsound g x hx
  have hlive : ∀ {o g}, m.Live o → m.RefersTo o g → (m'.Live o ↔ ¬m.Removed op o) :=
    live_delete_iff hm.distinct hm.placed hm.sameFrame h
  -- the active reference is removed, for it would still be active
  have hremoved : m.Removed op x := by
    by_contra hkept
    obtain hsame | ⟨y, hy, hgone⟩ := activeRef_delete hm.distinct hm.placed h g
    · rw [hsame, hx] at hnone
      cases hnone
    · cases hx.symm.trans hy
      exact hgone ((hlive hxlive hxref).mpr hkept)
  obtain hall | ⟨f, y, hlast, hy, hyref, hkept⟩ := hreplaces g x hx hremoved
  · exact (hlive hold href).mp ho (hall o hold href)
  · have hframes := frames_delete_eq hm.distinct hm.placed h
    rw [← hframes] at hlast
    have hf := hshrinks.frames.subset (List.mem_of_getLast? hlast)
    obtain ⟨f', hf', hy'⟩ := (hlive ⟨f, hf, hy⟩ hyref).mpr hkept
    have hff : f' = f :=
      (hm.placed.obj f' y ((hshrinks.objs f').subset hy')).symm.trans (hm.placed.obj f y hy)
    rw [hff] at hy'
    obtain hnone' | hnone' := lastRef_delete hm.distinct hm.placed h g hnone
    · rw [hx] at hnone'
      cases hnone'
    · rw [← refersTo_shrinks hshrinks] at hyref
      exact lastRef_ne_none hlast hy' hyref hnone'

theorem refs_undeleteItem {item : Deleted} (h : m.undeleteItem item = some m') :
    (∃ o prev next l, item = .obj o prev next ∧
        relink o prev next (m.objs (m.obj o).frame) = some l ∧ m'.frames = m.frames ∧
        m'.objs = Function.update m.objs (m.obj o).frame l) ∨
      (∃ f prev next, item = .frame f prev next ∧ relink f prev next m.frames = some m'.frames ∧
        m'.objs = m.objs) ∨
      m'.frames = m.frames ∧ m'.objs = m.objs := by
  cases putsBack_of_undeleteItem h with
  | obj hl => exact .inl ⟨_, _, _, _, rfl, hl, rfl, rfl⟩
  | frame hl => exact .inr (.inl ⟨_, _, _, rfl, hl, rfl⟩)
  | vec | other => exact .inr (.inr ⟨rfl, rfl⟩)

theorem mem_relink_iff {x y : Addr} {prev next : Option Addr} {l l' : List Addr}
    (h : relink x prev next l = some l') : y ∈ l' ↔ y = x ∨ y ∈ l := by
  obtain ⟨before, after, rfl, rfl, -⟩ := exists_append_of_relink h
  rw [List.perm_middle.mem_iff, List.mem_cons]

structure Restoring (m : Model) (group : ℕ) (ds : List Deletion) (s : Model) : Prop where
  left : ∀ d ∈ ds.takeWhile (·.group = group), m.ItemNoticed d.item
  frames : ∀ f ∈ m.frames, f ∈ s.frames
  objs : ∀ f, ∀ o ∈ m.objs f, o ∈ s.objs f
  frame : ∀ f ∈ s.frames, f ∈ m.frames ∨ ∀ o ∈ m.objs f, m.Noticed o
  obj : ∀ f, ∀ o ∈ s.objs f, o ∈ m.objs f ∨ m.Noticed o

theorem Restoring.step {group : ℕ} {d : Deletion} {ds : List Deletion} {s s' : Model}
    (hd : d.group = group) (hs : m.Restoring group (d :: ds) s)
    (h : s.undeleteItem d.item = some s') : m.Restoring group ds s' := by
  have hleft : ∀ e ∈ d :: ds.takeWhile (·.group = group), m.ItemNoticed e.item := by
    have hleft := hs.left
    rwa [List.takeWhile_cons, if_pos (decide_eq_true hd)] at hleft
  have hitem := hleft d List.mem_cons_self
  obtain ⟨o, prev, next, l, heq, hl, hframes, hobjs⟩ | ⟨f, prev, next, heq, hl, hobjs⟩ |
    ⟨hframes, hobjs⟩ := refs_undeleteItem h
  · rw [heq] at hitem
    refine ⟨fun e he => hleft e (List.mem_cons_of_mem d he), ?_, ?_, ?_, ?_⟩
    · rw [hframes]
      exact hs.frames
    · intro f x hx
      have hxs := hs.objs f x hx
      rw [hobjs]
      by_cases hf : f = (s.obj o).frame
      · rw [hf, Function.update_self, mem_relink_iff hl]
        rw [hf] at hxs
        exact .inr hxs
      · rwa [Function.update_of_ne hf]
    · rw [hframes]
      exact hs.frame
    · intro f x hx
      rw [hobjs] at hx
      obtain ⟨rfl, -⟩ | hx := mem_update_relink hl hx
      · exact .inr hitem
      · exact hs.obj f x hx
  · rw [heq] at hitem
    refine ⟨fun e he => hleft e (List.mem_cons_of_mem d he), ?_, ?_, ?_, ?_⟩
    · exact fun g hg => (mem_relink_iff hl).mpr (.inr (hs.frames g hg))
    · rw [hobjs]
      exact hs.objs
    · intro g hg
      obtain rfl | hg := (mem_relink_iff hl).mp hg
      · exact .inr hitem
      · exact hs.frame g hg
    · rw [hobjs]
      exact hs.obj
  · exact ⟨fun e he => hleft e (List.mem_cons_of_mem d he), by rw [hframes]; exact hs.frames,
      by rw [hobjs]; exact hs.objs, by rw [hframes]; exact hs.frame, by rw [hobjs]; exact hs.obj⟩

theorem restoring_undelete (hrestores : m.RestoresNoticed) (h : m.undelete = some m') :
    ∃ group, m.Restoring group [] m' := by
  rw [undelete] at h
  rw [RestoresNoticed, topGroup] at hrestores
  cases hds : m.deletions with
  | nil =>
    rw [hds] at h
    cases h
    exact ⟨0, fun d hd => absurd hd List.not_mem_nil, fun f hf => hf, fun f o ho => ho,
      fun f hf => .inl hf, fun f o ho => .inl ho⟩
  | cons d ds =>
    rw [hds] at h hrestores
    obtain ⟨s, rest, hs, -, rfl⟩ := undeleteGroup_preserves (m.Restoring d.group)
      (fun _ _ _ _ hd hs hitem => hs.step hd hitem)
      ⟨hrestores, fun f hf => hf, fun f o ho => ho, fun f hf => .inl hf, fun f o ho => .inl ho⟩ h
    exact ⟨d.group, fun e he => absurd he List.not_mem_nil, hs.frames, hs.objs, hs.frame, hs.obj⟩

theorem refersTo_of_fixed (h : m.Fixed m') : m'.RefersTo = m.RefersTo := by
  funext o g
  rw [RefersTo, RefersTo, h.obj]

theorem activeSound_undelete (hsound : m.ActiveSound) (hrestores : m.RestoresNoticed)
    (h : m.undelete = some m') : m'.ActiveSound := by
  obtain ⟨group, hrestoring⟩ := restoring_undelete hrestores h
  have hfixed := undelete_fixed h
  intro g o ho
  rw [hfixed.activeRef] at ho
  obtain ⟨href, f, hf, hof⟩ := hsound g o ho
  rw [refersTo_of_fixed hfixed]
  exact ⟨href, f, hrestoring.frames f hf, hrestoring.objs f o hof⟩

theorem allNoticed_undelete (hnoticed : m.AllNoticed) (hrestores : m.RestoresNoticed)
    (h : m.undelete = some m') : m'.AllNoticed := by
  obtain ⟨group, hrestoring⟩ := restoring_undelete hrestores h
  have hfixed := undelete_fixed h
  rintro o ⟨f, hf, ho⟩ g href
  rw [refersTo_of_fixed hfixed] at href
  rw [hfixed.activeRef]
  obtain hold | hgood := hrestoring.obj f o ho
  · obtain hfold | hgood := hrestoring.frame f hf
    · exact hnoticed o ⟨f, hfold, hold⟩ g href
    · exact hgood o hold g href
  · exact hgood g href

theorem active_addObj {f : Addr} {obj : ObjNode} {l : List Addr} {ds : List Deletion}
    {activeRef : Addr → Option Addr} (hm : m.Sound n) (hsound : m.ActiveSound)
    (hnoticed : m.AllNoticed) (hf : f ∈ m.frames) (hl : l.Sublist (m.objs f ++ [n]))
    (hkept : ∀ g o, m.activeRef g = some o → o ∈ m.objs f → o ∈ l)
    (hactive : ∀ g, activeRef g = m.activeRef g ∨
      m.activeRef g = none ∧ activeRef g = some n ∧ obj.kind = .frame g ∧ n ∈ l)
    (hnew : ∀ g, obj.kind = .frame g → activeRef g ≠ none) :
    ActiveSound { m with
      obj := Function.update m.obj n obj
      objs := Function.update m.objs f l
      deletions := ds
      activeRef := activeRef } ∧
    AllNoticed { m with
      obj := Function.update m.obj n obj
      objs := Function.update m.objs f l
      deletions := ds
      activeRef := activeRef } := by
  have hold : ∀ f' o, o ∈ m.objs f' → Function.update m.obj n obj o = m.obj o := fun f' o ho =>
    Function.update_of_ne (Nat.ne_of_lt ((hm.accounted.objs f').2 o (List.mem_append_left _ ho))) _ _
  constructor
  · intro g o ho
    change activeRef g = some o at ho
    obtain hsame | ⟨-, hfirst, hkind, hn⟩ := hactive g
    · obtain ⟨href, f', hf', ho'⟩ := hsound g o (hsame.symm.trans ho)
      refine ⟨?_, f', hf', ?_⟩
      · change (Function.update m.obj n obj o).kind = .frame g
        rw [hold f' o ho']
        exact href
      · change o ∈ Function.update m.objs f l f'
        by_cases hff : f' = f
        · rw [hff] at ho'
          rw [hff, Function.update_self]
          exact hkept g o (hsame.symm.trans ho) ho'
        · rwa [Function.update_of_ne hff]
    · cases hfirst.symm.trans ho
      refine ⟨?_, f, hf, ?_⟩
      · change (Function.update m.obj n obj n).kind = .frame g
        rw [Function.update_self]
        exact hkind
      · change n ∈ Function.update m.objs f l f
        rw [Function.update_self]
        exact hn
  · rintro o ⟨f', hf', ho⟩ g href
    change (Function.update m.obj n obj o).kind = .frame g at href
    change activeRef g ≠ none
    obtain ho | ⟨-, rfl⟩ := mem_update_add hl ho
    · rw [hold f' o ho] at href
      have hsome := hnoticed o ⟨f', hf', ho⟩ g href
      obtain hsame | ⟨hnone, -⟩ := hactive g
      · rwa [hsame]
      · exact absurd hnone hsome
    · rw [Function.update_self] at href
      exact hnew g href

theorem active_addFrame (hm : m.Sound n) (hsound : m.ActiveSound) (hnoticed : m.AllNoticed) :
    ActiveSound { m with
      frames := m.frames.take 1 ++ n :: m.frames.drop 1
      vecs := Function.update m.vecs n []
      objs := Function.update m.objs n []
      activeRef := Function.update m.activeRef n none } ∧
    AllNoticed { m with
      frames := m.frames.take 1 ++ n :: m.frames.drop 1
      vecs := Function.update m.vecs n []
      objs := Function.update m.objs n []
      activeRef := Function.update m.activeRef n none } := by
  constructor
  · intro g o ho
    change Function.update m.activeRef n none g = some o at ho
    by_cases hg : g = n
    · rw [hg, Function.update_self] at ho
      cases ho
    · rw [Function.update_of_ne hg] at ho
      obtain ⟨href, f, hf, hof⟩ := hsound g o ho
      have hne : f ≠ n := Nat.ne_of_lt (hm.accounted.frames.2 f (List.mem_append_left _ hf))
      refine ⟨href, f, Editor.mem_take_cons_drop.mpr (.inr hf), ?_⟩
      change o ∈ Function.update m.objs n [] f
      rwa [Function.update_of_ne hne]
  · rintro o ⟨f, hf, ho⟩ g href
    change o ∈ Function.update m.objs n [] f at ho
    change Function.update m.activeRef n none g ≠ none
    have hfn : f ≠ n := by
      rintro rfl
      rw [Function.update_self] at ho
      exact List.not_mem_nil ho
    rw [Function.update_of_ne hfn] at ho
    have hf' := (Editor.mem_take_cons_drop.mp hf).resolve_left hfn
    rw [Function.update_of_ne (Nat.ne_of_lt (hm.below.ref o g href))]
    exact hnoticed o ⟨f, hf', ho⟩ g href

end Model

namespace Editor

def kept (e : Editor) : List Addr :=
  match e.lastObj with
  | none => []
  | some s =>
    if s ∈ e.model.objs e.curr then (e.model.objs e.curr).takeWhile (· ≠ s) ++ [s]
    else e.model.objs e.curr

def SparesTail (e : Editor) : Prop :=
  ∀ g o, e.model.activeRef g = some o → o ∈ e.model.objs e.curr → o ∈ e.kept

def LastLinked (e : Editor) : Prop := ∀ s, e.lastObj = some s → s ∈ e.model.objs e.curr

def KeepsActive (e : Editor) : Edit → Prop
  | .item _ _ => e.SparesTail
  | .meas _ _ _ => e.SparesTail
  | .ref g _ => e.SparesTail ∧ (e.model.activeRef g = none → e.LastLinked)
  | .delete op => e.model.Replaces op
  | .undelete => e.model.RestoresNoticed
  | _ => True

variable {e e' : Editor}

theorem mem_linkBehind_of_kept {x o : Addr} (h : o ∈ e.kept) :
    o ∈ linkBehind e.lastObj x (e.model.objs e.curr) := by
  rw [kept] at h
  cases hlast : e.lastObj with
  | none =>
    rw [hlast] at h
    exact absurd h List.not_mem_nil
  | some s =>
    rw [hlast] at h
    rw [linkBehind]
    dsimp only at h
    split at h
    next hs =>
      rw [if_pos hs]
      obtain h | h := List.mem_append.mp h
      · exact List.mem_append_left _ h
      · rw [List.mem_singleton.mp h]
        exact List.mem_append_right _ List.mem_cons_self
    next hs => rwa [if_neg hs]

theorem self_mem_linkBehind {x : Addr} (h : e.LastLinked) :
    x ∈ linkBehind e.lastObj x (e.model.objs e.curr) := by
  cases hlast : e.lastObj with
  | none => exact List.mem_cons_self
  | some s =>
    rw [linkBehind, if_pos (h s hlast)]
    exact List.mem_append_right _ (List.mem_cons_of_mem s List.mem_cons_self)

theorem activeRef_activate (m : Model) (g o g' : Addr) :
    (activate m g o).activeRef g' = m.activeRef g' ∨
      m.activeRef g' = none ∧ (activate m g o).activeRef g' = some o ∧ g' = g := by
  rw [activate]
  split
  next hnone =>
    by_cases hg : g' = g
    · rw [hg]
      exact .inr ⟨hnone, Function.update_self _ _ _, rfl⟩
    · exact .inl (Function.update_of_ne hg _ _)
  next => exact .inl rfl

theorem activeRef_activate_self (m : Model) (g o : Addr) : (activate m g o).activeRef g ≠ none := by
  rw [activate]
  split
  next =>
    dsimp only
    rw [Function.update_self]
    exact Option.some_ne_none o
  next hsome => exact hsome

structure ActiveInv (e : Editor) : Prop where
  sound : e.Sound
  active : e.model.ActiveSound
  noticed : e.model.AllNoticed

theorem ActiveInv.addObj (he : e.ActiveInv) {base : Option Addr} {kind : ObjNodeKind}
    (hphase : e.phase ≠ .gui) (hspares : e.SparesTail) (hkind : ∀ g, kind ≠ .frame g) :
    (e.addObj base kind).model.ActiveSound ∧ (e.addObj base kind).model.AllNoticed :=
  Model.active_addObj he.sound.model he.active he.noticed (he.sound.curr hphase)
    (Model.linkBehind_sublist _ _ _)
    (fun g o ho hmem => mem_linkBehind_of_kept (hspares g o ho hmem))
    (fun _ => .inl rfl) fun g hg => absurd hg (hkind g)

theorem ActiveInv.step (he : e.ActiveInv) {edit : Edit} (hkeeps : e.KeepsActive edit)
    (h : e.step edit = some e') : e'.ActiveInv := by
  obtain ⟨hactive, hnoticed⟩ : e'.model.ActiveSound ∧ e'.model.AllNoticed := by
    cases edit with
    | frameDef =>
      obtain ⟨-, rfl⟩ := frameDef_eq h
      exact Model.active_addFrame he.sound.model he.active he.noticed
    | frameEnd =>
      obtain ⟨-, rfl⟩ := frameEnd_eq h
      exact ⟨he.active, he.noticed⟩
    | items =>
      obtain ⟨-, rfl⟩ := items_eq h
      exact ⟨he.active, he.noticed⟩
    | finish =>
      cases finish_eq h
      exact ⟨he.active, he.noticed⟩
    | vec base =>
      obtain ⟨b, -, -, rfl⟩ := vec_eq h
      exact ⟨he.active, he.noticed⟩
    | item base others =>
      obtain ⟨b, os, -, hreading, rfl⟩ := item_eq h
      exact he.addObj (phase_of_reading hreading) hkeeps fun g => ObjNodeKind.noConfusion
    | ref g base =>
      obtain ⟨b, -, hreading, -, rfl⟩ := ref_eq h
      rw [activate_eq]
      apply Model.active_addObj he.sound.model he.active he.noticed
        (he.sound.curr (phase_of_reading hreading)) (Model.linkBehind_sublist _ _ _)
        fun g o ho hmem => mem_linkBehind_of_kept (hkeeps.1 g o ho hmem)
      · intro g'
        obtain hsame | ⟨hnone, hsome, rfl⟩ := activeRef_activate e.model g e.fresh g'
        · exact .inl hsame
        · exact .inr ⟨hnone, hsome, rfl, self_mem_linkBehind (hkeeps.2 hnone)⟩
      · intro g' hg'
        cases hg'
        exact activeRef_activate_self e.model g e.fresh
    | meas base high quals =>
      obtain ⟨hphase, -, rfl⟩ := meas_eq h
      exact he.addObj (phase_of_meas hphase) hkeeps fun g => ObjNodeKind.noConfusion
    | move v to_ =>
      obtain ⟨-, -, -, rfl⟩ := move_eq h
      exact ⟨he.active, he.noticed⟩
    | moveObj o anchor to_ =>
      obtain ⟨obj, hobj, -, -, rfl⟩ := moveObj_eq h
      obtain ⟨-, -, hkind⟩ := setAnchor_spec hobj
      have hrefers : ∀ x g, (Function.update e.model.obj o obj x).kind = .frame g ↔
          e.model.RefersTo x g := by
        intro x g
        by_cases hx : x = o
        · rw [hx, Function.update_self]
          exact hkind g
        · rw [Function.update_of_ne hx]
          exact Iff.rfl
      exact ⟨fun g x hx => ⟨(hrefers x g).mpr (he.active g x hx).1, (he.active g x hx).2⟩,
        fun x hx g href => he.noticed x hx g ((hrefers x g).mp href)⟩
    | link g f base =>
      obtain ⟨hreading, -, hf, -, rfl⟩ := link_eq h
      rw [activate_eq]
      have hmem : f ∈ e.model.frames := by
        obtain rfl | hf := hf
        · exact he.sound.curr (phase_of_reading hreading)
        · exact List.mem_of_mem_tail hf
      apply Model.active_addObj he.sound.model he.active he.noticed hmem (List.Sublist.refl _)
        fun g o _ ho => List.mem_append_left _ ho
      · intro g'
        obtain hsame | ⟨hnone, hsome, rfl⟩ := activeRef_activate { e.model with
          obj := Function.update e.model.obj e.fresh { frame := f, base := base, kind := .frame g }
          objs := Function.update e.model.objs f (e.model.objs f ++ [e.fresh]) } g e.fresh g'
        · exact .inl hsame
        · exact .inr ⟨hnone, hsome, rfl, List.mem_append_right _ List.mem_cons_self⟩
      · intro g' hg'
        cases hg'
        exact activeRef_activate_self _ g e.fresh
    | newVec f base =>
      obtain ⟨-, -, rfl⟩ := newVec_eq h
      exact ⟨he.active, he.noticed⟩
    | moveTo v to_ =>
      obtain ⟨-, -, -, -, mark, marked, -, -, rfl⟩ := moveTo_eq h
      exact ⟨he.active, he.noticed⟩
    | delete op =>
      obtain ⟨-, m, hm, rfl⟩ := delete_eq h
      exact ⟨Model.activeSound_delete he.sound.model.distinct he.sound.model.placed he.active hm,
        Model.allNoticed_delete he.sound.model he.active he.noticed hkeeps hm⟩
    | undelete =>
      obtain ⟨-, m, hm, rfl⟩ := undelete_eq h
      exact ⟨Model.activeSound_undelete he.active hkeeps hm,
        Model.allNoticed_undelete he.noticed hkeeps hm⟩
  exact ⟨he.sound.step h, hactive, hnoticed⟩

theorem activeInv_start (mark : Addr → Bool) : (start mark).ActiveInv where
  sound := sound_start mark
  active g o ho := by cases ho
  noticed o ho g href := by cases href

/-- **Active references lead to a frame.** They do in every run whose edits keep them. -/
theorem activeLeads_of_reaches (mark : Addr → Bool) (e : Editor)
    (h : Reaches step KeepsActive (start mark) e) : e.model.ActiveLeads := by
  have hinv := h.inv ActiveInv (activeInv_start mark) fun _ _ _ he hkeeps hstep =>
    he.step hkeeps hstep
  exact Model.activeLeads_of_sound hinv.active hinv.noticed

theorem activeLeads_firstRef :
    ∃ e, [Edit.frameDef, .frameEnd, .items, .ref 1 .origin].foldlM step (start fun _ => false) =
      some e ∧ e.model.ActiveLeads := by
  have hstart : Reaches step KeepsActive (start fun _ => false) (start fun _ => false) := .start
  have hframe := hstart.step Edit.frameDef trivial rfl
  have hitems := (hframe.step Edit.frameEnd trivial rfl).step Edit.items trivial rfl
  refine ⟨_, rfl, activeLeads_of_reaches (fun _ => false) _
    (hitems.step (Edit.ref 1 .origin) ?_ rfl)⟩
  refine ⟨fun g o _ ho => absurd ho List.not_mem_nil, fun _ s hs => ?_⟩
  cases hs

def twoRefsRead : List Edit := [.frameDef, .frameEnd, .items, .ref 1 .origin, .ref 1 .origin]

/-- The search for another active reference ends in the frame itself. -/
theorem not_activeLeads_deleted :
    ¬∀ (mark : Addr → Bool) (e : Editor), Reaches step (fun _ _ => True) (start mark) e →
      e.model.ActiveLeads := by
  intro hall
  have hrun : ∃ e, (twoRefsRead ++ [Edit.delete (.obj 2)]).foldlM step (start fun _ => false) =
      some e ∧ e.model.frames = [0, 1] ∧ e.model.objs 0 = [3] ∧ e.model.RefersTo 3 1 ∧
        e.model.activeRef 1 = none := ⟨_, rfl, rfl, rfl, rfl, rfl⟩
  obtain ⟨e, hrun, hframes, hobjs, href, hnone⟩ := hrun
  have hlive : e.model.Live 3 := by
    refine ⟨0, ?_, ?_⟩
    · rw [hframes]
      exact List.mem_cons_self
    · rw [hobjs]
      exact List.mem_cons_self
  have hleads := hall (fun _ => false) e (reaches_of_foldlM (fun _ _ => trivial) .start hrun) 1 (by
    rw [hframes]
    exact List.mem_cons_of_mem _ List.mem_cons_self)
  obtain ⟨o, ho, -⟩ := hleads.1 ⟨3, hlive, href⟩
  rw [hnone] at ho
  cases ho

end Editor

end Openmoko.Fped
