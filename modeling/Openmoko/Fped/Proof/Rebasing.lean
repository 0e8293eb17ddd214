import Openmoko.Fped.Proof.BasesFirst
import Openmoko.Fped.Proof.VectorDeletion

/-!
# Moving a vector to another base

The vectors that are linked again come behind the new base in the order that they had, and the
others stay. Where the new base is in front of the vector already, nothing is linked again.
-/

namespace Openmoko.Fped

variable {l : List Addr} {v : Addr}

namespace Heap

variable {h : Heap} {m : Model}

theorem endsWith_clearMarks {p : Option Addr} {before after : List Addr}
    (hl : Linked h.vecNext p (before ++ v :: after)) (hv : v ∉ before) (mark : Addr → Bool) :
    EndsWith (fun n => h.clearMarks v n p mark) fun w => !(w ∈ before) && mark w := by
  induction before generalizing p mark with
  | nil =>
    obtain ⟨rfl, -⟩ := hl
    refine (endsWith_const _).succ fun n => ?_
    rw [clearMarks, if_pos rfl]
    simp
  | cons a before ih =>
    obtain ⟨rfl, hl⟩ := hl
    rw [List.mem_cons, not_or] at hv
    have hmark : (fun w => !decide (w ∈ before) && Function.update mark a false w) =
        fun w => !decide (w ∈ a :: before) && mark w := by
      funext w
      by_cases hw : w = a
      · simp [hw]
      · simp [hw]
    have hends := ih hl hv.2 (Function.update mark a false)
    rw [hmark] at hends
    refine hends.succ fun n => ?_
    rw [clearMarks, if_neg (Ne.symm hv.1)]

theorem endsWith_markDependents (to_ : Option Addr) {p : Option Addr} (hvec : h.vec = m.vec)
    (hl : Linked h.vecNext p l) (mark : Addr → Bool) :
    EndsWith (fun n => h.markDependents to_ n p mark) (Editor.markDependents m to_ l mark) := by
  induction l generalizing p mark with
  | nil =>
    cases hl
    exact (endsWith_const _).succ fun _ => rfl
  | cons w l ih =>
    obtain ⟨rfl, hl⟩ := hl
    rw [Editor.markDependents]
    by_cases hw : to_ = some w
    · rw [if_pos hw]
      refine (endsWith_const _).succ fun n => ?_
      rw [Heap.markDependents, if_pos hw]
    · rw [if_neg hw]
      refine (ih hl _).succ fun n => ?_
      rw [Heap.markDependents, if_neg hw, hvec]

theorem endsWith_moveMarked (mark : Addr → Bool) {t : Addr} {s : NextLinks Addr}
    (pre moved : List Addr) {post : List Addr}
    (hl : Linked s.next s.first (pre ++ (l ++ t :: (moved ++ post))))
    (hnodup : (pre ++ (l ++ t :: (moved ++ post))).Nodup) :
    ∃ s', EndsWith (fun n => moveMarked mark t n s pre.getLast? (t :: moved).getLast?) s' ∧
      Linked s'.next s'.first (pre ++ (l.filter (fun w => !mark w) ++
        t :: (moved ++ (l.filter (fun w => mark w) ++ post)))) ∧
      ∀ p l', (∀ a ∈ l', a ∉ pre ++ (l ++ t :: (moved ++ post))) → Linked s.next p l' →
        Linked s'.next p l' := by
  induction l generalizing s pre moved with
  | nil =>
    obtain ⟨p, hpre, rfl, -⟩ := segment_append.mp hl
    refine ⟨s, (endsWith_const s).succ fun n => ?_, hl, fun _ _ _ hl' => hl'⟩
    rw [moveMarked, hpre.get]
    exact if_pos rfl
  | cons v l ih =>
    obtain ⟨p, hpre, rfl, hrest⟩ := segment_append.mp hl
    have hvt : v ≠ t := by
      rintro rfl
      have hbehind := (List.nodup_append.mp hnodup).2.1
      exact (List.nodup_cons.mp hbehind).1 (List.mem_append_right l List.mem_cons_self)
    by_cases hmark : mark v = true
    · rw [List.filter_cons_of_pos hmark, List.filter_cons_of_neg (by simp [hmark])]
      -- the anchor is the last of what is behind the new base already
      obtain ⟨init, a, hinit⟩ := (t :: moved).eq_nil_or_concat'.resolve_left (List.cons_ne_nil _ _)
      have hlast : (t :: moved).getLast? = some a := by
        rw [hinit, List.getLast?_append, List.getLast?_singleton, Option.some_or]
      have hsplit : v :: l ++ t :: (moved ++ post) = v :: (l ++ init ++ [a] ++ post) := by
        rw [List.append_assoc l, ← hinit, List.append_assoc]
        rfl
      rw [hsplit] at hl hnodup
      have hjoin : l ++ init ++ [a] ++ v :: post = l ++ t :: (moved ++ [v] ++ post) := by
        rw [List.append_assoc l, ← hinit, List.append_assoc, List.append_assoc moved]
        rfl
      have hl' := hl.relink hnodup
      have hperm : (pre ++ v :: (l ++ init ++ [a] ++ post)).Perm
          (pre ++ (l ++ init ++ [a] ++ v :: post)) := List.perm_middle.symm.append_left pre
      have hnodup' := hperm.nodup hnodup
      rw [hjoin] at hl' hnodup' hperm
      obtain ⟨s', hends, hlinked, hother⟩ := ih pre (moved ++ [v]) hl' hnodup'
      have hanchor : (t :: (moved ++ [v])).getLast? = some v := by
        rw [← List.cons_append, List.getLast?_append, List.getLast?_singleton, Option.some_or]
      rw [hanchor] at hends
      refine ⟨s', hends.succ fun n => ?_, ?_, fun p l' hl' hlinked' => ?_⟩
      · rw [moveMarked, hpre.get]
        dsimp only
        rw [if_neg hvt, if_pos hmark, hlast]
      · rwa [List.append_assoc moved] at hlinked
      · rw [hsplit] at hl'
        have hnot : ∀ x ∈ pre ++ v :: (l ++ init ++ [a] ++ post), x ∉ l' := fun x hx hx' =>
          hl' x hx' hx
        refine hother p l' (fun x hx hmem => hl' x hx (hperm.mem_iff.mpr hmem)) ?_
        refine hlinked'.relink_of_disjoint (fun x hx => hnot x (List.mem_append_left _ hx)) ?_ ?_
        · exact hnot v (List.mem_append_right _ List.mem_cons_self)
        · exact hnot a (by simp)
    · rw [List.filter_cons_of_neg hmark, List.filter_cons_of_pos (by simp [hmark])]
      have hsplit : pre ++ (v :: l ++ t :: (moved ++ post)) =
          (pre ++ [v]) ++ (l ++ t :: (moved ++ post)) := by
        rw [List.append_assoc, List.singleton_append, List.cons_append]
      rw [hsplit] at hl hnodup ⊢
      obtain ⟨s', hends, hl', hother⟩ := ih (pre ++ [v]) moved hl hnodup
      rw [List.getLast?_append, List.getLast?_singleton, Option.some_or] at hends
      refine ⟨s', hends.succ fun n => ?_, ?_, hother⟩
      · rw [moveMarked, hpre.get]
        dsimp only
        rw [if_neg hvt, if_neg hmark]
      · rw [List.append_assoc, List.singleton_append] at hl'
        exact hl'

theorem Shows.moveMarked (hs : h.Shows m) (hm : m.Distinct) (hplaced : m.Placed) {t f : Addr}
    (ht : t ∈ m.vecs f) (mark : Addr → Bool) :
    ∃ s, EndsWith (fun n => Heap.moveMarked mark t n (h.vecLinks f) none (some t)) s ∧
      (h.setVecLinks f s).Shows { m with
        vecs := Function.update m.vecs f (Editor.moveMarked mark t (m.vecs f)) } := by
  have hlinked := hs.vecs f
  have hnodup := hm.vecs f
  obtain ⟨front, back, hl, hfront⟩ := List.eq_append_cons_of_mem ht
  rw [hl] at hlinked hnodup
  obtain ⟨s, hends, hlinked', hother⟩ := endsWith_moveMarked mark (s := h.vecLinks f) [] []
    hlinked hnodup
  refine ⟨s, hends, { hs with vecs := fun g => ?_ }⟩
  change Linked s.next (Function.update h.vecs f s.first g) (Function.update m.vecs f _ g)
  by_cases hg : g = f
  · rw [hg, Function.update_self, Function.update_self, Editor.moveMarked, hl,
      takeWhile_ne_of_notMem hfront, dropWhile_ne_of_notMem hfront, List.tail_cons,
      List.append_assoc]
    exact hlinked'
  · rw [Function.update_of_ne hg, Function.update_of_ne hg]
    refine hother _ _ (fun a ha hmem => hg ?_) (hs.vecs g)
    have haf : a ∈ m.vecs f := by
      rw [hl]
      exact hmem
    exact (hplaced.vec g a ha).symm.trans (hplaced.vec f a haf)

theorem Shows.relinkMarked (hs : h.Shows m) (hm : m.Distinct) (hplaced : m.Placed) (f : Addr)
    (to_ : Option Addr) (marked : Bool × (Addr → Bool))
    (hto : marked.1 = true → ∀ t ∈ to_, t ∈ m.vecs f) :
    ∃ h', EndsWith (fun n => h.relinkMarked n f to_ marked) h' ∧
      h'.Shows { m with
        vecs := Function.update m.vecs f (Editor.movedVecs (m.vecs f) to_ marked) } := by
  have hstays : h.Shows { m with vecs := Function.update m.vecs f (m.vecs f) } := by
    rw [Function.update_eq_self]
    exact hs
  cases to_ with
  | none => exact ⟨h, endsWith_const h, hstays⟩
  | some t =>
    unfold Heap.relinkMarked
    rw [Editor.movedVecs]
    by_cases hfound : marked.1 = true
    · obtain ⟨s, hends, hshows⟩ := hs.moveMarked hm hplaced (hto hfound t rfl) marked.2
      simp only [if_pos hfound]
      exact ⟨_, hends.map (h.setVecLinks f), hshows⟩
    · simp only [if_neg hfound]
      exact ⟨h, endsWith_const h, hstays⟩

theorem Shows.doMoveToVec (hs : h.Shows m) (hm : m.Distinct) (hplaced : m.Placed) {f : Addr}
    (to_ : Option Addr) (hv : v ∈ m.vecs f) :
    ∃ h', EndsWith (fun n => h.doMoveToVec n v to_) h' ∧
      h'.Shows { m with
        vec := Function.update m.vec v { m.vec v with base := to_ }
        vecs := Function.update m.vecs f (Editor.movedVecs (m.vecs f) to_
          (Editor.markDependents { m with
            vec := Function.update m.vec v { m.vec v with base := to_ } } to_
            ((m.vecs f).dropWhile (· ≠ v)).tail
            (Function.update (fun w => !(w ∈ (m.vecs f).takeWhile (· ≠ v)) && h.mark w) v
              true))) } := by
  have hframe : (h.vec v).frame = f := by
    rw [hs.vec]
    exact hplaced.vec f v hv
  have hlinked := hs.vecs f
  obtain ⟨before, after, hl, hbefore⟩ := List.eq_append_cons_of_mem hv
  rw [show (m.vecs f).dropWhile (· ≠ v) = v :: after by rw [hl, dropWhile_ne_of_notMem hbefore],
    show (m.vecs f).takeWhile (· ≠ v) = before by rw [hl, takeWhile_ne_of_notMem hbefore],
    List.tail_cons]
  rw [hl] at hlinked
  set m1 : Model := { m with vec := Function.update m.vec v { m.vec v with base := to_ } } with hm1
  set h1 : Heap := { h with vec := Function.update h.vec v { h.vec v with base := to_ } } with hh1
  have hs1 : h1.Shows m1 := { hs with vec := by rw [hh1, hm1, hs.vec] }
  have hm1' : m1.Distinct := ⟨hm.frames, hm.vecs, hm.objs, hm.tables, hm.loops, hm.rows⟩
  have hplaced1 : m1.Placed := by
    refine ⟨fun g w hw => ?_, hplaced.obj⟩
    change (Function.update m.vec v { m.vec v with base := to_ } w).frame = g
    by_cases hwv : w = v
    · subst hwv
      rw [Function.update_self]
      exact hplaced.vec g w hw
    · rw [Function.update_of_ne hwv]
      exact hplaced.vec g w hw
  -- the two passes and the relinking
  have hclear := endsWith_clearMarks (h := h1) hlinked hbefore h.mark
  set mark : Addr → Bool := fun w => !decide (w ∈ before) && h.mark w
  obtain ⟨_, -, -, hafter⟩ := segment_append.mp hlinked
  have hmarked := endsWith_markDependents (h := h1) to_ hs1.vec hafter
    (Function.update mark v true)
  set marked := Editor.markDependents m1 to_ after (Function.update mark v true) with hmarkedDef
  have hs2 : Heap.Shows { h1 with mark := marked.2 } m1 := { hs1 with }
  obtain ⟨h', hends, hshows⟩ := hs2.relinkMarked hm1' hplaced1 f to_ marked (by
      rintro hfound t rfl
      change t ∈ m.vecs f
      rw [hl]
      exact List.mem_append_right _ (List.mem_cons_of_mem v (Editor.mem_of_markDependents hfound)))
  refine ⟨h', ?_, hshows⟩
  have hrun := hclear.bind
    (c := fun n mark => do
      let marked ← h1.markDependents to_ n (h1.vecNext v) (Function.update mark v true)
      { h1 with mark := marked.2 }.relinkMarked n f to_ marked)
    (hmarked.bind hends)
  rw [← hframe] at hrun
  exact hrun

end Heap

namespace Model

open Relation

variable {m : Model}

theorem basedOn_iff {w : Addr} (hwv : w ≠ v) :
    m.BasedOn w v ↔ ∃ b, m.base w = some b ∧ m.BasedOn b v := by
  constructor
  · intro h
    obtain rfl | ⟨b, hb, hbv⟩ := h.cases_head
    · exact absurd rfl hwv
    · exact ⟨b, hb, hbv⟩
  · rintro ⟨b, hb, hbv⟩
    exact ReflTransGen.head hb hbv

theorem mark_iff_basedOn {mark : Addr → Bool} (hv : mark v = true) {front : List Addr}
    (hfront : FollowsFrom m.base (fun _ => False) front)
    (hmark : ∀ w ∈ front, w ≠ v → (mark w = true ↔ ∃ b, m.base w = some b ∧ mark b = true)) :
    ∀ w ∈ front, mark w = true ↔ m.BasedOn w v := by
  induction front using List.reverseRecOn with
  | nil => exact nofun
  | append_singleton front x ih =>
    rw [followsFrom_concat] at hfront
    have hall := ih hfront.1 fun w hw => hmark w (List.mem_append_left _ hw)
    intro w hw
    obtain hw | hw := List.mem_append.mp hw
    · exact hall w hw
    obtain rfl := List.mem_singleton.mp hw
    by_cases hwv : w = v
    · rw [hwv]
      exact ⟨fun _ => .refl, fun _ => hv⟩
    · rw [hmark w (List.mem_append_right _ hw) hwv, basedOn_iff hwv]
      refine exists_congr fun b => and_congr_right fun hb => ?_
      exact hall b ((hfront.2 b hb).resolve_left id)

theorem leadsTo_of_not_basedOn (hl : FollowsFrom m.base (fun _ => False) l) {t : Addr} (ht : t ∈ l)
    (hnot : ¬m.BasedOn t v) : ∃ k, Editor.leadsTo m v k (some t) = some false := by
  induction l using List.reverseRecOn generalizing t with
  | nil => cases ht
  | append_singleton l x ih =>
    rw [followsFrom_concat] at hl
    obtain ht | ht := List.mem_append.mp ht
    · exact ih hl.1 ht hnot
    obtain rfl := List.mem_singleton.mp ht
    have htv : t ≠ v := by
      rintro rfl
      exact hnot .refl
    cases hbase : m.base t with
    | none =>
      refine ⟨1, ?_⟩
      rw [Editor.leadsTo, if_neg htv, show (m.vec t).base = none from hbase]
      rfl
    | some b =>
      obtain ⟨k, hk⟩ := ih hl.1 ((hl.2 b hbase).resolve_left id)
        fun hb => hnot ((basedOn_iff htv).mpr ⟨b, hbase, hb⟩)
      refine ⟨k + 1, ?_⟩
      rw [Editor.leadsTo, if_neg htv, show (m.vec t).base = some b from hbase]
      exact hk

structure Rebased (m : Model) (v : Addr) (to_ : Option Addr) (l l' : List Addr) : Prop where
  perm : l'.Perm l
  basesFirst : FollowsFrom (Function.update m.base v to_) (fun _ => False) l'
  moved : ∀ t, to_ = some t → ∀ before between after, l = before ++ v :: (between ++ t :: after) →
    ∃ moves : Addr → Bool, (∀ w ∈ between, moves w = true ↔ m.BasedOn w v) ∧
      l' = before ++ (between.filter (fun w => !moves w) ++
        t :: v :: (between.filter (fun w => moves w) ++ after))
  stays : (∀ t, to_ = some t → t ∈ l.takeWhile (· ≠ v)) → l' = l

theorem rebased_movedVecs {to_ : Option Addr} (hl : l.Nodup)
    (hfirst : FollowsFrom m.base (fun _ => False) l) (hv : v ∈ l)
    (hto : ∀ t, to_ = some t → t ∈ l ∧ ¬m.BasedOn t v) (mark : Addr → Bool) :
    m.Rebased v to_ l (Editor.movedVecs l to_ (Editor.markDependents { m with
      vec := Function.update m.vec v { m.vec v with base := to_ } } to_
      (l.dropWhile (· ≠ v)).tail
      (Function.update (fun w => !(w ∈ l.takeWhile (· ≠ v)) && mark w) v true))) := by
  have hclear : ∀ w ∈ l.takeWhile (· ≠ v),
      (!decide (w ∈ l.takeWhile (· ≠ v)) && mark w) = false := by
    intro w hw
    rw [decide_eq_true hw]
    rfl
  have hlead : ∃ k, Editor.leadsTo m v k to_ = some false := by
    cases to_ with
    | none => exact ⟨0, rfl⟩
    | some t => exact leadsTo_of_not_basedOn hfirst (hto t rfl).1 (hto t rfl).2
  obtain ⟨k, hlead⟩ := hlead
  refine ⟨?_, ?_, ?_, ?_⟩
  · exact Editor.movedVecs_perm ((List.tail_sublist _).trans (List.dropWhile_sublist _))
  · exact followsFrom_movedVecs hfirst hl hv (fun t ht => (hto t ht).1) hlead hclear
  · rintro t rfl before between after rfl
    have hbefore : v ∉ before := fun hmem =>
      (List.nodup_append.mp hl).2.2 v hmem v List.mem_cons_self rfl
    rw [takeWhile_ne_of_notMem hbefore] at hclear ⊢
    rw [dropWhile_ne_of_notMem hbefore, List.tail_cons]
    obtain ⟨hfound, hvmark, hunmarked, hbetween⟩ := marks_spec hfirst hl hclear rfl
    set marked := Editor.markDependents { m with
      vec := Function.update m.vec v { m.vec v with base := some t } } (some t)
      (between ++ t :: after)
      (Function.update (fun w => !decide (w ∈ before) && mark w) v true)
    have hfront : FollowsFrom m.base (fun _ => False) (before ++ v :: between) := by
      rw [← List.cons_append, ← List.append_assoc, followsFrom_append] at hfirst
      exact hfirst.1
    refine ⟨marked.2, fun w hw => ?_, ?_⟩
    · refine mark_iff_basedOn hvmark hfront (fun w hw hwv => ?_) w
        (List.mem_append_right _ (List.mem_cons_of_mem v hw))
      obtain hw | hw := List.mem_append.mp hw
      · rw [hunmarked w hw]
        refine ⟨nofun, ?_⟩
        rintro ⟨b, hb, hmark⟩
        rw [followsFrom_append] at hfront
        rw [hunmarked b ((hfront.1.seen_or_mem hw hb).resolve_left id)] at hmark
        cases hmark
      · rw [hbetween w ((List.mem_cons.mp hw).resolve_left hwv)]
        cases m.base w with
        | none => simp
        | some b => simp
    · rw [Editor.movedVecs, if_pos hfound]
      exact moveMarked_eq hl hunmarked hvmark
  · intro hfrontTo
    cases to_ with
    | none => rfl
    | some t =>
      rw [Editor.movedVecs]
      apply if_neg
      intro hfound
      obtain ⟨before, after, rfl, hbefore⟩ := List.eq_append_cons_of_mem hv
      have ht := hfrontTo t rfl
      have hafter := Editor.mem_of_markDependents hfound
      rw [takeWhile_ne_of_notMem hbefore] at ht
      rw [dropWhile_ne_of_notMem hbefore, List.tail_cons] at hafter
      exact (List.nodup_append.mp hl).2.2 t ht t (List.mem_cons_of_mem v hafter) rfl

end Model

/-- **Rebasing sorts the list again.** -/
theorem Heap.doMoveToVec_rebases (h : Heap) (m : Model) (hs : h.Shows m) (hm : m.Distinct)
    (hplaced : m.Placed) (v f : Addr) (hv : v ∈ m.vecs f)
    (hfirst : FollowsFrom m.base (fun _ => False) (m.vecs f)) (to_ : Option Addr)
    (hto : ∀ t, to_ = some t → t ∈ m.vecs f ∧ ¬m.BasedOn t v) :
    ∃ h' l', EndsWith (fun n => h.doMoveToVec n v to_) h' ∧
      h'.Shows { m with
        vec := Function.update m.vec v { m.vec v with base := to_ }
        vecs := Function.update m.vecs f l' } ∧
      m.Rebased v to_ (m.vecs f) l' := by
  obtain ⟨h', hends, hshows⟩ := hs.doMoveToVec hm hplaced to_ hv
  exact ⟨h', _, hends, hshows, Model.rebased_movedVecs (hm.vecs f) hfirst hv hto h.mark⟩

/-- Of the vectors of the frame 1, only 12 is on another one, 11. -/
def stepModel : Model := { branchModel with
  vecs := fun f => if f = 1 then [10, 11, 12, 13] else []
  objs := fun _ => []
  vec := fun v => ⟨1, if v = 12 then some 11 else none⟩ }

def stepHeap : Heap := { branchHeap with
  vecNext := fun v => if v < 13 then some (v + 1) else none
  objs := fun _ => none
  vec := stepModel.vec }

theorem stepHeap_shows : stepHeap.Shows stepModel where
  vecs f := by
    by_cases hf : f = 1
    · simp [stepHeap, branchHeap, stepModel, hf, Linked, Segment]
    · simp [stepHeap, branchHeap, stepModel, hf, Linked, Segment]
  objs _ := rfl
  frames := rfl
  activeRef := rfl
  vec := rfl
  obj := rfl
  deletions := rfl
  groups := rfl

theorem stepModel_distinct : stepModel.Distinct := by
  refine ⟨by decide, fun f => ?_, fun _ => List.nodup_nil, fun _ => List.nodup_nil,
    fun _ => List.nodup_nil, fun _ => List.nodup_nil⟩
  by_cases hf : f = 1 <;> simp [stepModel, hf]

theorem stepModel_placed : stepModel.Placed := by
  refine ⟨fun f v hv => ?_, nofun⟩
  by_cases hf : f = 1
  · rw [hf]
    rfl
  · simp [stepModel, hf] at hv

theorem stepModel_followsFrom : FollowsFrom stepModel.base (fun _ => False) (stepModel.vecs 1) := by
  simp [FollowsFrom, stepModel, Model.base]

theorem stepModel_not_basedOn {w : Addr} (hw : w ≠ 12) (hwv : w ≠ v) : ¬stepModel.BasedOn w v := by
  rw [Model.basedOn_iff hwv]
  simp [Model.base, stepModel, hw]

/-- 11 goes behind 13, and 12, which stands between them and is on 11, goes with it. -/
theorem Heap.doMoveToVec_rebases_step :
    ∃ h' l', EndsWith (fun n => stepHeap.doMoveToVec n 11 (some 13)) h' ∧
      h'.Shows { stepModel with
        vec := Function.update stepModel.vec 11 { stepModel.vec 11 with base := some 13 }
        vecs := Function.update stepModel.vecs 1 l' } ∧
      stepModel.Rebased 11 (some 13) (stepModel.vecs 1) l' := by
  refine Heap.doMoveToVec_rebases stepHeap stepModel stepHeap_shows stepModel_distinct
    stepModel_placed 11 1 (by decide) stepModel_followsFrom (some 13) ?_
  rintro t ⟨⟩
  exact ⟨by decide, stepModel_not_basedOn (by decide) (by decide)⟩

def Between (l : List Addr) (a b w : Addr) : Prop :=
  (∃ pre mid post, l = pre ++ a :: (mid ++ b :: post) ∧ w ∈ mid) ∨
    ∃ pre mid post, l = pre ++ b :: (mid ++ a :: post) ∧ w ∈ mid

/-- `v` and the vectors between it and `t` that depend on it, in their order directly behind `t`. -/
def Model.StandBehind (m : Model) (v t : Addr) (l l' : List Addr) : Prop :=
  ∃ moved pre post, moved.Sublist l ∧
    (∀ w, w ∈ moved ↔ w = v ∨ Between l v t w ∧ m.BasedOn w v) ∧ l' = pre ++ t :: (moved ++ post)

/-- Moved to 10, which is in front of it, 12 stays behind 11. -/
theorem Heap.doMoveToVec_leaves_step :
    ¬∀ (h : Heap) (m : Model), h.Shows m → m.Distinct → m.Placed → ∀ v f, v ∈ m.vecs f →
      FollowsFrom m.base (fun _ => False) (m.vecs f) → ∀ to_ : Option Addr,
      (∀ t, to_ = some t → t ∈ m.vecs f ∧ ¬m.BasedOn t v) →
      ∀ h' l', EndsWith (fun n => h.doMoveToVec n v to_) h' →
      h'.Shows { m with
        vec := Function.update m.vec v { m.vec v with base := to_ }
        vecs := Function.update m.vecs f l' } →
      ∀ t, to_ = some t → m.StandBehind v t (m.vecs f) l' := by
  intro hall
  have hv : 12 ∈ stepModel.vecs 1 := by decide
  have hto : ∀ t, some 10 = some t → t ∈ stepModel.vecs 1 ∧ ¬stepModel.BasedOn t 12 := by
    rintro t ⟨⟩
    exact ⟨by decide, stepModel_not_basedOn (by decide) (by decide)⟩
  obtain ⟨h', hends, hshows⟩ :=
    stepHeap_shows.doMoveToVec stepModel_distinct stepModel_placed (some 10) hv
  have hstays := (Model.rebased_movedVecs (stepModel_distinct.vecs 1) stepModel_followsFrom hv hto
    stepHeap.mark).stays (by rintro t ⟨⟩; decide)
  rw [hstays] at hshows
  obtain ⟨moved, pre, post, -, hmoved, hl⟩ := hall stepHeap stepModel stepHeap_shows
    stepModel_distinct stepModel_placed 12 1 hv stepModel_followsFrom (some 10) hto h' _ hends
    hshows 10 rfl
  change [10, 11, 12, 13] = pre ++ 10 :: (moved ++ post) at hl
  cases pre with
  | nil =>
    obtain ⟨-, hl⟩ := List.cons.inj hl
    cases moved with
    | nil => exact absurd ((hmoved 12).mpr (.inl rfl)) List.not_mem_nil
    | cons w moved =>
      obtain ⟨rfl, -⟩ := List.cons.inj hl
      obtain h11 | ⟨-, hbased⟩ := (hmoved 11).mp List.mem_cons_self
      · cases h11
      · exact stepModel_not_basedOn (by decide) (by decide) hbased
  | cons x pre =>
    obtain ⟨-, hl⟩ := List.cons.inj hl
    have hmem : 10 ∈ [11, 12, 13] := hl ▸ List.mem_append_right pre List.mem_cons_self
    revert hmem
    decide

end Openmoko.Fped
