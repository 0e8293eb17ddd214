import Openmoko.Fped.Proof.Editing
import Openmoko.Library.BaseOrder

/-!
# Bases come first

Vectors are instantiated and dumped in the order of their list. Moving a vector to another base in
the editor brings the list into order again; moving it with a directive does not, and undeleting a
vector puts it next to its old neighbours, wherever its base is now.
-/

namespace Openmoko.Fped

variable {b : Option Addr} {op : DeleteOp}

namespace Model

def BasesFirst (m : Model) : Prop :=
  ∀ f before v after, m.vecs f = before ++ v :: after →
    ∀ b, (m.vec v).base = some b → b ∈ before

def base (m : Model) (v : Addr) : Option Addr := (m.vec v).base

def Ordered (m : Model) (missing : Addr → Prop) : Prop :=
  ∀ f, FollowsFrom m.base missing (m.vecs f)

theorem basesFirst_iff {m : Model} : m.BasesFirst ↔ m.Ordered fun _ => False := by
  unfold BasesFirst Ordered
  simp only [followsFrom_iff, false_or]
  rfl

def PlaceKeepsOrder (m : Model) (later : List Deletion) : Deleted → Prop
  | .vec v prev _ =>
    ∀ before after, m.vecs (m.vec v).frame = before ++ after → prev = before.getLast? →
      (∀ b, m.base v = some b → b ∈ before ∨ b ∈ deadVecs later) ∧
        ∀ w ∈ before, m.base w ≠ some v
  | _ => True

def RestoresOrder (group : ℕ) : List Deletion → Model → Prop
  | [], _ => True
  | d :: ds, m =>
    d.group = group →
      m.PlaceKeepsOrder (ds.takeWhile (·.group = group)) d.item ∧
        ∀ m', m.undeleteItem d.item = some m' → RestoresOrder group ds m'

def UndeleteKeepsOrder (m : Model) : Prop :=
  ∀ d ∈ m.deletions.head?, RestoresOrder d.group m.deletions m

variable {m m' : Model} {n : Addr}

variable {missing : Addr → Prop} {l between : List Addr} {v : Addr} {k : ℕ} {mark : Addr → Bool}

theorem Ordered.of_eq (h : m.Ordered missing) (hvecs : m'.vecs = m.vecs)
    (hvec : m'.vec = m.vec) : m'.Ordered missing := by
  have hbase : m'.base = m.base := by
    funext v
    rw [base, base, hvec]
  intro f
  rw [hvecs, hbase]
  exact h f

theorem ordered_addVec {f : Addr} {base : Option Addr} {ds : List Deletion} (hm : m.Sound n)
    (hordered : m.Ordered missing)
    (hl : l = m.vecs f ∨ l = m.vecs f ++ [n] ∧ ∀ b, base = some b → b ∈ m.vecs f) :
    Ordered { m with
      vec := Function.update m.vec n { frame := f, base := base }
      vecs := Function.update m.vecs f l
      deletions := ds } missing := by
  have hnew : ∀ g, n ∉ m.vecs g := fun g hmem =>
    Nat.lt_irrefl n ((hm.accounted.vecs g).2 n (List.mem_append_left _ hmem))
  have hold : ∀ g, FollowsFrom
      (fun w => (Function.update m.vec n { frame := f, base := base } w).base) missing
      (m.vecs g) := by
    intro g
    apply (hordered g).congr
    intro w hw
    have hne : w ≠ n := fun heq => hnew g (heq ▸ hw)
    rw [Function.update_of_ne hne]
    rfl
  intro g
  change FollowsFrom (fun w => (Function.update m.vec n { frame := f, base := base } w).base)
    missing (Function.update m.vecs f l g)
  by_cases hg : g = f
  · rw [hg, Function.update_self]
    obtain rfl | ⟨rfl, hbase⟩ := hl
    · exact hold f
    · rw [followsFrom_concat]
      refine ⟨hold f, fun b hb => .inr (hbase b ?_)⟩
      rwa [Function.update_self] at hb
  · rw [Function.update_of_ne hg]
    exact hold g

theorem ordered_addFrame {frames : List Addr} {objs : Addr → List Addr}
    {activeRef : Addr → Option Addr} (hordered : m.Ordered missing) :
    Ordered { m with
      frames := frames
      vecs := Function.update m.vecs n []
      objs := objs
      activeRef := activeRef } missing := by
  intro f
  change FollowsFrom m.base missing (Function.update m.vecs n [] f)
  by_cases hf : f = n
  · rw [hf, Function.update_self]
    trivial
  · rw [Function.update_of_ne hf]
    exact hordered f

theorem base_update (v : Addr) (b : Option Addr) :
    (fun w => (Function.update m.vec v { m.vec v with base := b } w).base) =
      Function.update m.base v b := by
  funext w
  by_cases hw : w = v
  · rw [hw, Function.update_self, Function.update_self]
  · rw [Function.update_of_ne hw, Function.update_of_ne hw]
    rfl

theorem ordered_rebase {f : Addr}
    (hplaced : m.Placed) (hordered : m.Ordered missing) (hv : v ∈ m.vecs f)
    (hl : FollowsFrom (Function.update m.base v b) missing l) :
    Ordered { m with
      vec := Function.update m.vec v { m.vec v with base := b }
      vecs := Function.update m.vecs f l } missing := by
  intro g
  change FollowsFrom (fun w => (Function.update m.vec v { m.vec v with base := b } w).base)
    missing (Function.update m.vecs f l g)
  rw [base_update]
  by_cases hg : g = f
  · rwa [hg, Function.update_self]
  · rw [Function.update_of_ne hg]
    exact (hordered g).update_notMem fun hw =>
      hg ((hplaced.vec g v hw).symm.trans (hplaced.vec f v hv))

theorem followsFrom_rebase (h : FollowsFrom m.base missing l) (hl : l.Nodup) (hv : v ∈ l)
    (hb : ∀ y, b = some y → y ∈ l.takeWhile (· ≠ v)) :
    FollowsFrom (Function.update m.base v b) missing l := by
  obtain ⟨before, after, rfl, hbefore⟩ := List.eq_append_cons_of_mem hv
  rw [takeWhile_ne_of_notMem hbefore] at hb
  have hafter : v ∉ after := (List.nodup_cons.mp (List.nodup_append.mp hl).2.1).1
  exact h.update hbefore hafter fun y hy => .inr (hb y hy)

/-! ### Moving to another base in the editor -/

theorem markDependents_spec {t : Addr} (after : List Addr)
    (mark : Addr → Bool) {seen : Addr → Prop} (ht : t ∉ between) (hbetween : between.Nodup)
    (hseen : ∀ y, seen y → y ∉ between) (hfollows : FollowsFrom m.base seen between) :
    (Editor.markDependents m (some t) (between ++ t :: after) mark).1 = true ∧
      (∀ y ∉ between,
        (Editor.markDependents m (some t) (between ++ t :: after) mark).2 y = mark y) ∧
      ∀ w ∈ between, (Editor.markDependents m (some t) (between ++ t :: after) mark).2 w =
        ((m.base w).map (Editor.markDependents m (some t) (between ++ t :: after) mark).2).getD
          false := by
  induction between generalizing mark seen with
  | nil =>
    rw [List.nil_append, Editor.markDependents, if_pos rfl]
    exact ⟨rfl, fun _ _ => rfl, fun w hw => absurd hw List.not_mem_nil⟩
  | cons a between ih =>
    rw [List.mem_cons, not_or] at ht
    obtain ⟨hta, ht⟩ := ht
    obtain ⟨ha, hbetween⟩ := List.nodup_cons.mp hbetween
    have hne : ¬some t = some a := fun heq => hta (Option.some.inj heq)
    rw [List.cons_append, Editor.markDependents, if_neg hne]
    have hseen' : ∀ y, seen y ∨ y = a → y ∉ between := by
      rintro y (hy | rfl)
      · exact fun hmem => hseen y hy (List.mem_cons_of_mem a hmem)
      · exact ha
    obtain ⟨hfound, hother, hmarked⟩ :=
      ih (Function.update mark a (((m.vec a).base.map mark).getD false)) ht hbetween hseen'
        hfollows.2
    refine ⟨hfound, fun y hy => ?_, fun w hw => ?_⟩
    · rw [List.mem_cons, not_or] at hy
      rw [hother y hy.2, Function.update_of_ne hy.1]
    · obtain rfl | hw := List.mem_cons.mp hw
      · rw [hother w ha, Function.update_self]
        change ((m.base w).map mark).getD false = _
        cases hb : m.base w with
        | none => rfl
        | some b =>
          -- the base is in front and has its mark already
          have hnot := hseen b (hfollows.1 b hb)
          rw [List.mem_cons, not_or] at hnot
          rw [Option.map_some, Option.map_some, hother b hnot.2, Function.update_of_ne hnot.1]
      · exact hmarked w hw

theorem unmarked_of_leadsTo {front : List Addr}
    {x : Option Addr} (hlead : Editor.leadsTo m v k x = some false)
    (hclosed : ∀ w ∈ front, ∀ b, m.base w = some b → b ∈ front)
    (hmark : ∀ w ∈ front, w ≠ v → mark w = true → ∃ b, m.base w = some b ∧ mark b = true)
    (w : Addr) (hx : x = some w) (hw : w ∈ front) : mark w = false := by
  induction k generalizing x w with
  | zero =>
    rw [hx] at hlead
    cases hlead
  | succ k ih =>
    rw [hx, Editor.leadsTo] at hlead
    split at hlead
    next => cases hlead
    next hwv =>
      by_contra hmarked
      rw [Bool.not_eq_false] at hmarked
      obtain ⟨b, hb, hmb⟩ := hmark w hw hwv hmarked
      have hunmarked := ih hlead b hb (hclosed w hw b hb)
      rw [hmb] at hunmarked
      cases hunmarked

theorem exists_base_of_marked
    (hbetween : ∀ w ∈ between, mark w = ((m.base w).map mark).getD false) {w : Addr}
    (hw : w ∈ between) (hmarked : mark w = true) : ∃ b, m.base w = some b ∧ mark b = true := by
  rw [hbetween w hw] at hmarked
  cases hb : m.base w with
  | none =>
    rw [hb] at hmarked
    cases hmarked
  | some b =>
    rw [hb] at hmarked
    exact ⟨b, rfl, hmarked⟩

theorem unmarked_base {t b : Addr} {before : List Addr}
    (hfront : FollowsFrom m.base (fun _ => False) (before ++ v :: between))
    (hbefore : ∀ u ∈ before, mark u = false)
    (hbetween : ∀ w ∈ between, mark w = ((m.base w).map mark).getD false)
    (hlead : Editor.leadsTo m v k (some t) = some false) (hb : m.base t = some b)
    (hmem : b ∈ before ++ v :: between) : mark b = false := by
  cases k with
  | zero => cases hlead
  | succ k =>
    rw [Editor.leadsTo] at hlead
    split at hlead
    next => cases hlead
    next =>
      apply unmarked_of_leadsTo hlead
        (fun w hw b' hb' => (hfront.seen_or_mem hw hb').resolve_left id) ?_ b hb hmem
      intro w hw hwv hmarked
      obtain hw | hw := List.mem_append.mp hw
      · rw [hbefore w hw] at hmarked
        cases hmarked
      · exact exists_base_of_marked hbetween ((List.mem_cons.mp hw).resolve_left hwv) hmarked

/-- What is not marked follows without the vector. -/
theorem followsFrom_unmarked {seen : Addr → Prop} (hv : mark v = true)
    (hbetween : ∀ w ∈ between, mark w = ((m.base w).map mark).getD false)
    (hmid : FollowsFrom m.base (fun b => seen b ∨ b = v) between) :
    FollowsFrom m.base seen (between.filter fun w => !mark w) := by
  apply hmid.filter
  · intro w hw hmarked b hb
    rw [hbetween w hw, hb] at hmarked
    exact hmarked
  · rintro b (hmem | rfl) hmarked
    · exact hmem
    · rw [hv] at hmarked
      cases hmarked

theorem followsFrom_marked {seen seen' : Addr → Prop}
    (hbetween : ∀ w ∈ between, mark w = ((m.base w).map mark).getD false)
    (hmid : FollowsFrom m.base seen between) (hseen : ∀ b, seen b → seen' b) :
    FollowsFrom m.base seen' (between.filter fun w => mark w) := by
  apply hmid.filter
  · intro w hw hmarked b hb
    obtain ⟨b', hb', hmarked'⟩ := exists_base_of_marked hbetween hw hmarked
    cases hb.symm.trans hb'
    exact hmarked'
  · exact fun b hb _ => hseen b hb

theorem followsFrom_moveMarked {t : Addr} {before after : List Addr}
    (h : FollowsFrom m.base (fun _ => False) (before ++ v :: (between ++ t :: after)))
    (hnodup : (before ++ v :: (between ++ t :: after)).Nodup)
    (hbefore : ∀ u ∈ before, mark u = false) (hv : mark v = true)
    (hbetween : ∀ w ∈ between, mark w = ((m.base w).map mark).getD false)
    (hlead : Editor.leadsTo m v k (some t) = some false) :
    FollowsFrom (Function.update m.base v (some t)) (fun _ => False)
      (before ++ (between.filter (fun w => !mark w) ++
        t :: v :: (between.filter (fun w => mark w) ++ after))) := by
  -- what the order says of each part
  rw [followsFrom_append, FollowsFrom, followsFrom_append, FollowsFrom] at h
  obtain ⟨hfront, hbase, hmid, hto, hafter⟩ := h
  have hfrontAll : FollowsFrom m.base (fun _ => False) (before ++ v :: between) := by
    rw [followsFrom_append, FollowsFrom]
    exact ⟨hfront, hbase, hmid⟩
  -- the vector is nowhere else
  have hvnot := (List.nodup_cons.mp (List.nodup_middle.mp hnodup)).1
  rw [List.mem_append, List.mem_append, List.mem_cons, not_or, not_or, not_or] at hvnot
  obtain ⟨hvbefore, hvbetween, hvt, hvafter⟩ := hvnot
  have hfiltered : ∀ p, v ∉ between.filter p := fun p hmem =>
    hvbetween (List.mem_of_mem_filter hmem)
  rw [followsFrom_append, followsFrom_append, FollowsFrom, FollowsFrom, followsFrom_append]
  refine ⟨hfront.update_notMem hvbefore,
    (followsFrom_unmarked hv hbetween hmid).update_notMem (hfiltered _), ?_, ?_,
    (followsFrom_marked hbetween hmid ?_).update_notMem (hfiltered _), ?_⟩
  · intro b hb
    rw [Function.update_of_ne (Ne.symm hvt)] at hb
    have hunmarkedBase := unmarked_base hfrontAll hbefore hbetween hlead hb
    obtain ((hfalse | hmem) | rfl) | hmem := hto b hb
    · exact hfalse.elim
    · exact .inl (.inr hmem)
    · rw [hunmarkedBase (List.mem_append_right _ List.mem_cons_self)] at hv
      cases hv
    · refine .inr (List.mem_filter.mpr ⟨hmem, ?_⟩)
      rw [hunmarkedBase (List.mem_append_right _ (List.mem_cons_of_mem v hmem))]
      rfl
  · intro b hb
    rw [Function.update_self] at hb
    cases hb
    exact .inr rfl
  · rintro b (hmem | rfl)
    · exact .inl (.inl (.inl hmem))
    · exact .inr rfl
  · refine (hafter.mono ?_).update_notMem hvafter
    rintro b ((((hfalse | hmem) | rfl) | hmem) | rfl)
    · exact hfalse.elim
    · exact .inl (.inl (.inl (.inl (.inr hmem))))
    · exact .inl (.inr rfl)
    · cases hmb : mark b with
      | true => exact .inr (List.mem_filter.mpr ⟨hmem, hmb⟩)
      | false =>
        refine .inl (.inl (.inl (.inr (List.mem_filter.mpr ⟨hmem, ?_⟩))))
        rw [hmb]
        rfl
    · exact .inl (.inl (.inr rfl))

theorem moveMarked_eq {t : Addr} {before after : List Addr}
    (hnodup : (before ++ v :: (between ++ t :: after)).Nodup)
    (hbefore : ∀ u ∈ before, mark u = false) (hv : mark v = true) :
    Editor.moveMarked mark t (before ++ v :: (between ++ t :: after)) =
      before ++ (between.filter (fun w => !mark w) ++
        t :: v :: (between.filter (fun w => mark w) ++ after)) := by
  have hsplit : before ++ v :: (between ++ t :: after) = before ++ v :: between ++ t :: after := by
    rw [List.append_assoc, List.cons_append]
  have hfront : t ∉ before ++ v :: between := by
    rw [hsplit] at hnodup
    exact fun hmem => (List.nodup_append.mp hnodup).2.2 t hmem t List.mem_cons_self rfl
  have hkept : before.filter (fun w => !mark w) = before := by
    apply List.filter_eq_self.mpr
    intro u hu
    rw [hbefore u hu]
    rfl
  have hnone : before.filter (fun w => mark w) = [] := by
    apply List.filter_eq_nil_iff.mpr
    intro u hu
    rw [hbefore u hu]
    exact Bool.false_ne_true
  have hvkept : (v :: between).filter (fun w => !mark w) = between.filter fun w => !mark w := by
    apply List.filter_cons_of_neg
    rw [hv]
    exact Bool.false_ne_true
  have hvmoved : (v :: between).filter (fun w => mark w) = v :: between.filter fun w => mark w :=
    List.filter_cons_of_pos hv
  rw [Editor.moveMarked, hsplit, takeWhile_ne_of_notMem hfront, dropWhile_ne_of_notMem hfront,
    List.filter_append, List.filter_append, hkept, hnone, hvkept, hvmoved, List.tail_cons,
    List.nil_append, List.append_assoc, List.append_assoc, List.cons_append, List.cons_append]

theorem marks_spec {t : Addr} {before after : List Addr}
    (h : FollowsFrom m.base (fun _ => False) (before ++ v :: (between ++ t :: after)))
    (hnodup : (before ++ v :: (between ++ t :: after)).Nodup)
    (hmark : ∀ w ∈ before, mark w = false) {marked : Bool × (Addr → Bool)}
    (hmarked : marked = Editor.markDependents { m with
      vec := Function.update m.vec v { m.vec v with base := some t } } (some t)
      (between ++ t :: after) (Function.update mark v true)) :
    marked.1 = true ∧ marked.2 v = true ∧ (∀ u ∈ before, marked.2 u = false) ∧
      ∀ w ∈ between, marked.2 w = ((m.base w).map marked.2).getD false := by
  have hparts := List.nodup_append.mp hnodup
  obtain ⟨hvrest, hrest⟩ := List.nodup_cons.mp hparts.2.1
  have hvbetween : v ∉ between := fun hmem => hvrest (List.mem_append_left _ hmem)
  have htbetween : t ∉ between := fun hmem =>
    (List.nodup_append.mp hrest).2.2 t hmem t List.mem_cons_self rfl
  have hvbefore : v ∉ before := fun hmem => hparts.2.2 v hmem v List.mem_cons_self rfl
  have hbeforeNot : ∀ y ∈ before, y ∉ between := fun y hy hmem =>
    hparts.2.2 y hy y (List.mem_cons_of_mem v (List.mem_append_left _ hmem)) rfl
  have hmid : FollowsFrom (Function.update m.base v (some t))
      (fun y => (False ∨ y ∈ before) ∨ y = v) between := by
    rw [followsFrom_append, FollowsFrom, followsFrom_append] at h
    exact h.2.2.1.update_notMem hvbetween
  have hseen : ∀ y, (False ∨ y ∈ before) ∨ y = v → y ∉ between := by
    rintro y ((hfalse | hy) | rfl)
    · exact hfalse.elim
    · exact hbeforeNot y hy
    · exact hvbetween
  rw [← base_update] at hmid
  obtain ⟨hfound, hothers, hpassed⟩ := markDependents_spec
    (m := { m with vec := Function.update m.vec v { m.vec v with base := some t } })
    after (Function.update mark v true) htbetween (List.nodup_append.mp hrest).1 hseen hmid
  rw [← hmarked] at hfound hothers hpassed
  refine ⟨hfound, ?_, fun u hu => ?_, fun w hw => ?_⟩
  · rw [hothers v hvbetween, Function.update_self]
  · have huv : u ≠ v := fun heq => hvbefore (heq ▸ hu)
    rw [hothers u (hbeforeNot u hu), Function.update_of_ne huv]
    exact hmark u hu
  · have hwv : w ≠ v := fun heq => hvbetween (heq ▸ hw)
    have hbase : base { m with
        vec := Function.update m.vec v { m.vec v with base := some t } } w = m.base w := by
      change (Function.update m.vec v { m.vec v with base := some t } w).base = (m.vec w).base
      rw [Function.update_of_ne hwv]
    rw [hpassed w hw, hbase]

theorem followsFrom_movedVecs {to_ : Option Addr} (h : FollowsFrom m.base (fun _ => False) l)
    (hnodup : l.Nodup) (hv : v ∈ l)
    (hto : ∀ t, to_ = some t → t ∈ l) (hlead : Editor.leadsTo m v k to_ = some false)
    (hmark : ∀ w ∈ l.takeWhile (· ≠ v), mark w = false) :
    FollowsFrom (Function.update m.base v to_) (fun _ => False)
      (Editor.movedVecs l to_ (Editor.markDependents { m with
        vec := Function.update m.vec v { m.vec v with base := to_ } } to_
        (l.dropWhile (· ≠ v)).tail (Function.update mark v true))) := by
  cases to_ with
  | none => exact followsFrom_rebase h hnodup hv fun y hy => by cases hy
  | some t =>
    have htv : t ≠ v := by
      rintro rfl
      cases k with
      | zero => cases hlead
      | succ k =>
        rw [Editor.leadsTo, if_pos rfl] at hlead
        cases hlead
    obtain ⟨before, rest, rfl, hvbefore⟩ := List.eq_append_cons_of_mem hv
    rw [takeWhile_ne_of_notMem hvbefore] at hmark
    rw [dropWhile_ne_of_notMem hvbefore, List.tail_cons, Editor.movedVecs]
    by_cases htrest : t ∈ rest
    · obtain ⟨between, after, rfl, -⟩ := List.eq_append_cons_of_mem htrest
      obtain ⟨hfound, hvmark, hbefore, hbetween⟩ := marks_spec h hnodup hmark rfl
      rw [if_pos hfound, moveMarked_eq hnodup hbefore hvmark]
      exact followsFrom_moveMarked h hnodup hbefore hvmark hbetween hlead
    · have hnot : ¬(Editor.markDependents { m with
          vec := Function.update m.vec v { m.vec v with base := some t } } (some t) rest
          (Function.update mark v true)).1 = true := fun hfound =>
        htrest (Editor.mem_of_markDependents hfound)
      rw [if_neg hnot]
      apply followsFrom_rebase h hnodup hv
      intro y hy
      cases hy
      rw [takeWhile_ne_of_notMem hvbefore]
      obtain hmem | hmem := List.mem_append.mp (hto t rfl)
      · exact hmem
      · exact absurd ((List.mem_cons.mp hmem).resolve_left htv) htrest

theorem vecs_delete (hop : ∀ v, op ≠ .vec v) (h : m.delete op = some m') : m'.vecs = m.vecs := by
  cases op with
  | vec v => exact absurd rfl (hop v)
  | obj o => exact (doDeleteObj_eq h).1
  | frame f =>
    obtain ⟨m1, m2, h1, h2, rfl⟩ := exists_of_deleteFrame h
    rw [foldl_resetRefsOf_eq]
    have hvecs := deleteNeeding_preserves (fun s => s.vecs = m1.vecs)
      (fun _ _ _ hs hstep => (doDeleteObj_eq hstep).1.trans hs) rfl h2
    obtain ⟨u, -, rfl⟩ := unlinkFrame_eq h1
    exact hvecs
  | table t =>
    obtain ⟨f, u, -, -, rfl⟩ := unlinkTable_eq h
    rfl
  | row r =>
    obtain ⟨u, -, rfl⟩ := unlinkRow_eq h
    rfl
  | column t k =>
    obtain ⟨var, column, values, -, -, rfl⟩ := unlinkColumn_eq h
    rfl
  | loop l =>
    obtain ⟨u, -, rfl⟩ := unlinkLoop_eq h
    rfl

theorem frame_of_depends (hsame : m.SameFrame) {w : Addr} (h : m.Depends v w) :
    (m.vec w).frame = (m.vec v).frame := by
  induction h with
  | self => rfl
  | step _ hbase _ ih => exact (hsame.vec _ _ hbase).symm.trans ih

theorem ordered_delete (hm : m.Sound n) (hordered : m.Ordered fun _ => False)
    (h : m.delete op = some m') : m'.Ordered fun _ => False := by
  have hshrinks := shrinks_delete h
  by_cases hop : ∀ v, op ≠ .vec v
  · exact hordered.of_eq (vecs_delete hop h) hshrinks.vec
  · push Not at hop
    obtain ⟨v, rfl⟩ := hop
    have hgroup := m.shrinks_newGroup
    obtain ⟨hremoves, -⟩ := removes_doDeleteVec (hm.distinct.shrinks hgroup)
      (hm.placed.shrinks hgroup) h
    intro f
    have hbase : m'.base = m.base := by
      funext w
      rw [base, base, hshrinks.vec]
    rw [hbase]
    apply (hordered f).sublist (hm.distinct.vecs f) (hshrinks.vecs f)
    intro w hw b hb
    have hlisted := ((hordered f).seen_or_mem ((hshrinks.vecs f).subset hw) hb).resolve_left id
    by_cases hf : f = (m.vec v).frame
    · subst hf
      exact hremoves.closed.base w hw b hb hlisted
    · by_contra hnot
      obtain ⟨v', rfl, hdepends⟩ := hremoves.vecs f b hlisted hnot
      have hframe := frame_of_depends (hm.sameFrame.shrinks hgroup) hdepends
      exact hf ((hm.placed.vec f b hlisted).symm.trans hframe)

theorem vecs_undeleteItem {item : Deleted} (h : m.undeleteItem item = some m') :
    (∃ v prev next l, item = .vec v prev next ∧
        relink v prev next (m.vecs (m.vec v).frame) = some l ∧
        m'.vecs = Function.update m.vecs (m.vec v).frame l) ∨
      (∀ v prev next, item ≠ .vec v prev next) ∧ m'.vecs = m.vecs := by
  cases putsBack_of_undeleteItem h with
  | vec hl => exact .inl ⟨_, _, _, _, rfl, hl, rfl⟩
  | obj | frame => exact .inr ⟨fun _ _ _ => Deleted.noConfusion, rfl⟩
  | other hnot => exact .inr ⟨fun _ _ _ heq => hnot (heq ▸ trivial), rfl⟩

theorem ordered_undeleteItem {d : Deletion} {ds later : List Deletion}
    (hm : m.SoundWith (d :: ds) n) (hordered : m.Ordered (· ∈ deadVecs (d :: later)))
    (hplace : m.PlaceKeepsOrder later d.item) (h : m.undeleteItem d.item = some m') :
    m'.Ordered (· ∈ deadVecs later) := by
  have hvec := (fixed_undeleteItem h).vec
  have hbase : m'.base = m.base := by
    funext w
    rw [base, base, hvec]
  obtain ⟨item, group⟩ := d
  obtain ⟨v, prev, next, l, rfl, hl, hvecs⟩ | ⟨hnot, hvecs⟩ := vecs_undeleteItem h
  · have hmissing : ∀ b, b ∈ deadVecs ({ item := .vec v prev next, group := group } :: later) ↔
        b = v ∨ b ∈ deadVecs later := fun b => List.mem_cons
    intro f
    rw [hbase, hvecs]
    by_cases hf : f = (m.vec v).frame
    · rw [hf, Function.update_self]
      obtain ⟨before, after, hsplit, rfl, hprev, -⟩ := exists_append_of_relink hl
      obtain ⟨hbehind, hfront⟩ := hplace before after hsplit hprev
      have hold := hordered (m.vec v).frame
      rw [hsplit, followsFrom_append] at hold
      rw [followsFrom_append, FollowsFrom]
      refine ⟨hold.1.imp ?_, fun b hb => (hbehind b hb).symm, hold.2.mono ?_⟩
      · intro w hw b hb hs
        refine ((hmissing b).mp hs).resolve_left ?_
        rintro rfl
        exact hfront w hw hb
      · rintro b (hs | hmem)
        · obtain rfl | hs := (hmissing b).mp hs
          · exact .inr rfl
          · exact .inl (.inl hs)
        · exact .inl (.inr hmem)
    · rw [Function.update_of_ne hf]
      apply (hordered f).imp
      intro w hw b hb hs
      refine ((hmissing b).mp hs).resolve_left ?_
      rintro rfl
      exact hf ((hm.placed.vec f w hw).symm.trans (hm.sameFrame.vec w b hb).symm)
  · have hdead : deadVecs ({ item := item, group := group } :: later) = deadVecs later := by
      cases item with
      | vec v prev next => exact absurd rfl (hnot v prev next)
      | _ => rfl
    rw [hdead] at hordered
    exact hordered.of_eq hvecs hvec

theorem ordered_undelete (hm : m.Sound n) (hordered : m.Ordered fun _ => False)
    (hrestores : m.UndeleteKeepsOrder)
    (h : m.undelete = some m') : m'.Ordered fun _ => False := by
  rw [undelete] at h
  cases hds : m.deletions with
  | nil =>
    rw [hds] at h
    cases h
    exact hordered
  | cons d ds =>
    have hall := hrestores d (by rw [hds]; rfl)
    have hwith : m.SoundWith m.deletions n := hm
    rw [hds] at h hall hwith
    obtain ⟨s, rest, ⟨-, hs, -⟩, hrest, rfl⟩ := undeleteGroup_preserves
      (fun ds s => s.SoundWith ds n ∧
        s.Ordered (· ∈ deadVecs (ds.takeWhile (·.group = d.group))) ∧
        RestoresOrder d.group ds s)
      (by
        rintro e ds s s' he ⟨hsound, hs, hall⟩ hitem
        obtain ⟨hplace, hnext⟩ := hall he
        rw [List.takeWhile_cons, if_pos (decide_eq_true he)] at hs
        exact ⟨soundWith_undeleteItem hsound hitem, ordered_undeleteItem hsound hs hplace hitem,
          hnext s' hitem⟩)
      ⟨hwith, fun f => (hordered f).mono fun _ => False.elim, hall⟩ h
    rw [hrest] at hs
    exact fun f => (hs f).mono fun b hb => List.not_mem_nil hb

end Model

namespace Editor

variable {e e' : Editor}

/-! ### Where the parser links vectors -/

structure Slots (e : Editor) : Prop where
  root : e.phase = .defs ∨ e.phase = .frame → e.model.vecs e.root = []
  defs : e.phase = .defs → e.curr = e.root
  frame : e.phase = .frame → e.curr ≠ e.root
  first : e.phase ≠ .gui → e.lastVec = none → e.model.vecs e.curr = []
  last : e.phase ≠ .gui → ∀ v, e.lastVec = some v → v ∈ e.model.vecs e.curr →
    ∃ before, e.model.vecs e.curr = before ++ [v]

theorem Slots.of_gui (h : e.phase = .gui) : e.Slots where
  root hphase := by
    rw [h] at hphase
    obtain hphase | hphase := hphase <;> cases hphase
  defs hphase := by
    rw [h] at hphase
    cases hphase
  frame hphase := by
    rw [h] at hphase
    cases hphase
  first hphase := absurd h hphase
  last hphase := absurd h hphase

theorem Slots.of_eq (he : e.Slots) (hphase : e'.phase = e.phase) (hcurr : e'.curr = e.curr)
    (hlast : e'.lastVec = e.lastVec) (hvecs : e'.model.vecs = e.model.vecs)
    (hroot : e'.root = e.root) : e'.Slots where
  root := by
    rw [hphase, hvecs, hroot]
    exact he.root
  defs := by
    rw [hphase, hcurr, hroot]
    exact he.defs
  frame := by
    rw [hphase, hcurr, hroot]
    exact he.frame
  first := by
    rw [hphase, hlast, hvecs, hcurr]
    exact he.first
  last := by
    rw [hphase, hlast, hvecs, hcurr]
    exact he.last

theorem Slots.items (he : e.Slots) (hphase : e.phase = .defs ∨ e.phase = .items) :
    ({ e with phase := .items } : Editor).Slots := by
  have hgui := phase_of_meas hphase
  refine ⟨?_, ?_, ?_, fun _ => he.first hgui, fun _ => he.last hgui⟩
  · rintro (h | h) <;> cases h
  · intro h
    cases h
  · intro h
    cases h

theorem linkBehind_eq (hsound : e.Sound) (he : e.Slots) (hphase : e.phase ≠ .gui) :
    linkBehind e.lastVec e.fresh (e.model.vecs e.curr) = e.model.vecs e.curr ++ [e.fresh] ∨
      linkBehind e.lastVec e.fresh (e.model.vecs e.curr) = e.model.vecs e.curr ∧
        ∃ v, e.lastVec = some v ∧ v ∉ e.model.vecs e.curr := by
  cases hlast : e.lastVec with
  | none =>
    rw [he.first hphase hlast]
    exact .inl rfl
  | some v =>
    rw [linkBehind]
    by_cases hv : v ∈ e.model.vecs e.curr
    · obtain ⟨before, hbefore⟩ := he.last hphase v hlast hv
      have hnodup := hsound.model.distinct.vecs e.curr
      rw [hbefore] at hnodup
      have hnot : v ∉ before := fun hmem =>
        (List.nodup_append.mp hnodup).2.2 v hmem v List.mem_cons_self rfl
      rw [if_pos hv, hbefore, takeWhile_ne_of_notMem hnot, List.append_assoc]
      exact .inl rfl
    · rw [if_neg hv]
      exact .inr ⟨rfl, v, rfl, hv⟩

theorem fresh_notMem (he : e.Sound) (f : Addr) : e.fresh ∉ e.model.vecs f := fun hmem =>
  Nat.lt_irrefl _ ((he.model.accounted.vecs f).2 e.fresh (List.mem_append_left _ hmem))

variable {base : BaseRef}

theorem Slots.vec (he : e.Slots) (hsound : e.Sound) (h : e.vec base = some e') : e'.Slots := by
  obtain ⟨b, -, hreading, rfl⟩ := vec_eq h
  have hphase := phase_of_reading hreading
  refine ⟨?_, he.defs, he.frame, fun _ hnone => (by cases hnone), fun _ v hv hmem => ?_⟩
  · rintro (hdefs | hframe)
    · change e.phase = .defs at hdefs
      rw [reading, hdefs] at hreading
      cases hreading
    · change Function.update e.model.vecs e.curr _ e.root = []
      rw [Function.update_of_ne (he.frame hframe).symm]
      exact he.root (.inr hframe)
  · cases hv
    change e.fresh ∈ Function.update e.model.vecs e.curr _ e.curr at hmem
    change ∃ before, Function.update e.model.vecs e.curr _ e.curr = before ++ [e.fresh]
    rw [Function.update_self] at hmem ⊢
    obtain heq | ⟨heq, -⟩ := linkBehind_eq hsound he hphase
    · exact ⟨_, heq⟩
    · rw [heq] at hmem
      exact absurd hmem (fresh_notMem hsound e.curr)

theorem Slots.delete (he : e.Slots) (hsound : e.Sound) (h : e.delete op = some e') : e'.Slots := by
  obtain ⟨hdelete, m, hm, rfl⟩ := delete_eq h
  have hshrinks := Model.shrinks_delete hm
  have hroot : ({ e with model := m } : Editor).root = e.root := by
    rw [Editor.root, Editor.root, Model.frames_delete_eq hsound.model.distinct hsound.model.placed hm]
    cases op with
    | frame f =>
      rw [deletable, Bool.and_eq_true, decide_eq_true_iff] at hdelete
      have hnodup := hsound.model.distinct.frames
      rw [Model.remaining]
      cases hframes : e.model.frames with
      | nil => rfl
      | cons a l =>
        rw [hframes] at hdelete hnodup
        have hne : a ≠ f := fun heq => (List.nodup_cons.mp hnodup).1 (heq ▸ hdelete.1)
        rw [List.erase_cons_tail (by simpa using hne)]
        rfl
    | _ => rfl
  have hnil : ∀ f, e.model.vecs f = [] → m.vecs f = [] := fun f hf =>
    List.sublist_nil.mp (hf ▸ hshrinks.vecs f)
  refine ⟨?_, ?_, ?_, fun hphase hlast => hnil _ (he.first hphase hlast), ?_⟩
  · intro hphase
    rw [hroot]
    exact hnil _ (he.root hphase)
  · rw [hroot]
    exact he.defs
  · rw [hroot]
    exact he.frame
  · intro hphase v hlast hv
    have hsub := hshrinks.vecs e.curr
    obtain ⟨before, hbefore⟩ := he.last hphase v hlast (hsub.subset hv)
    have hnodup := hsound.model.distinct.vecs e.curr
    rw [hbefore] at hsub hnodup
    have hnot : v ∉ before := fun hmem =>
      (List.nodup_append.mp hnodup).2.2 v hmem v List.mem_cons_self rfl
    obtain ⟨l, l', hl, hlb, hl'⟩ := List.sublist_append_iff.mp hsub
    change ∃ before, m.vecs e.curr = before ++ [v]
    change v ∈ m.vecs e.curr at hv
    rw [hl] at hv ⊢
    obtain hv | hv := List.mem_append.mp hv
    · exact absurd (hlb.subset hv) hnot
    · refine ⟨l, ?_⟩
      rw [List.Sublist.antisymm hl' (List.singleton_sublist.mpr hv)]

theorem Slots.step (he : e.Slots) (hsound : e.Sound) {edit : Edit} (h : e.step edit = some e') :
    e'.Slots := by
  cases edit with
  | frameDef =>
    obtain ⟨hphase, rfl⟩ := frameDef_eq h
    have hgui : e.phase ≠ .gui := by
      rw [hphase]
      exact EditPhase.noConfusion
    have hcurr := hsound.curr hgui
    have hroot : ∀ l : List Addr, (e.model.frames.take 1 ++ l).headD 0 = e.root := by
      intro l
      rw [Editor.root]
      cases hframes : e.model.frames with
      | nil =>
        rw [hframes] at hcurr
        exact absurd hcurr List.not_mem_nil
      | cons a l => rfl
    have hne : e.root ≠ e.fresh := Nat.ne_of_lt
      (hsound.model.accounted.frames.2 _ (List.mem_append_left _ (root_mem hcurr)))
    refine ⟨fun _ => ?_, fun hdefs => (by cases hdefs), fun _ => ?_, fun _ _ => ?_, fun _ v hv => ?_⟩
    · change Function.update e.model.vecs e.fresh [] ((e.model.frames.take 1 ++ _).headD 0) = []
      rw [hroot, Function.update_of_ne hne]
      exact he.root (.inl hphase)
    · change e.fresh ≠ (e.model.frames.take 1 ++ _).headD 0
      rw [hroot]
      exact hne.symm
    · exact Function.update_self _ _ _
    · cases hv
  | frameEnd =>
    obtain ⟨hphase, rfl⟩ := frameEnd_eq h
    have hnil := he.root (.inr hphase)
    refine ⟨fun _ => hnil, fun _ => rfl, fun hframe => (by cases hframe), fun _ _ => hnil, ?_⟩
    intro _ v hv
    cases hv
  | items =>
    obtain ⟨hphase, rfl⟩ := items_eq h
    exact he.items (.inl hphase)
  | finish =>
    cases finish_eq h
    exact .of_gui rfl
  | vec base => exact he.vec hsound h
  | item base others =>
    obtain ⟨b, os, -, -, rfl⟩ := item_eq h
    exact he.of_eq rfl rfl rfl rfl rfl
  | ref g base =>
    obtain ⟨b, -, -, -, rfl⟩ := ref_eq h
    rw [activate_eq]
    exact he.of_eq rfl rfl rfl rfl rfl
  | meas base high quals =>
    obtain ⟨hphase, -, rfl⟩ := meas_eq h
    exact (he.items hphase).of_eq rfl rfl rfl rfl rfl
  | move v to_ =>
    obtain ⟨-, -, -, rfl⟩ := move_eq h
    exact he.of_eq rfl rfl rfl rfl rfl
  | moveObj o anchor to_ =>
    obtain ⟨obj, -, -, -, rfl⟩ := moveObj_eq h
    exact he.of_eq rfl rfl rfl rfl rfl
  | link g f base =>
    obtain ⟨-, -, -, -, rfl⟩ := link_eq h
    rw [activate_eq]
    exact he.of_eq rfl rfl rfl rfl rfl
  | newVec f base =>
    obtain ⟨hphase, -, rfl⟩ := newVec_eq h
    exact .of_gui hphase
  | moveTo v to_ =>
    obtain ⟨-, hphase, -, -, mark, marked, -, -, rfl⟩ := moveTo_eq h
    exact .of_gui hphase
  | delete op => exact he.delete hsound h
  | undelete =>
    obtain ⟨hphase, m, -, rfl⟩ := undelete_eq h
    exact .of_gui hphase

/-! ### Runs -/

def KeepsOrder (e : Editor) : Edit → Prop
  | .move v to_ => to_ ∈ (e.model.vecs e.curr).takeWhile (· ≠ v)
  | .newVec f base => ∀ b, base = some b → b ∈ e.model.vecs f
  | .moveTo v to_ => ∀ t, to_ = some t → t ∈ e.model.vecs (e.model.vec v).frame
  | .undelete => e.model.UndeleteKeepsOrder
  | _ => True

structure OrderInv (e : Editor) : Prop where
  sound : e.Sound
  slots : e.Slots
  ordered : e.model.Ordered fun _ => False

theorem base_listed (h : e.baseVec base = some b)
    (hlast : ∀ v, e.lastVec = some v → v ∈ e.model.vecs e.curr) (v : Addr) (hv : b = some v) :
    v ∈ e.model.vecs e.curr := by
  subst hv
  cases base with
  | origin => cases h
  | dot =>
    obtain ⟨w, hw, hwv⟩ := Option.map_eq_some_iff.mp h
    cases hwv
    exact hlast v hw
  | named w =>
    rw [baseVec] at h
    split at h
    next hlisted =>
      cases h
      exact hlisted
    next => cases h

theorem OrderInv.vec (he : e.OrderInv) (h : e.vec base = some e') :
    e'.model.Ordered fun _ => False := by
  obtain ⟨b, hb, hreading, rfl⟩ := vec_eq h
  have hphase := phase_of_reading hreading
  apply Model.ordered_addVec he.sound.model he.ordered
  obtain heq | ⟨heq, -⟩ := linkBehind_eq he.sound he.slots hphase
  · refine .inr ⟨heq, base_listed hb ?_⟩
    intro v hv
    rw [hv, linkBehind] at heq
    by_contra hnot
    rw [if_neg hnot] at heq
    have hlength := congrArg List.length heq
    rw [List.length_append, List.length_singleton] at hlength
    omega
  · exact .inl heq

theorem OrderInv.step (he : e.OrderInv) {edit : Edit} (hkeeps : e.KeepsOrder edit)
    (h : e.step edit = some e') : e'.OrderInv := by
  refine ⟨he.sound.step h, he.slots.step he.sound h, ?_⟩
  cases edit with
  | frameDef =>
    obtain ⟨-, rfl⟩ := frameDef_eq h
    exact Model.ordered_addFrame he.ordered
  | frameEnd =>
    obtain ⟨-, rfl⟩ := frameEnd_eq h
    exact he.ordered
  | items =>
    obtain ⟨-, rfl⟩ := items_eq h
    exact he.ordered
  | finish =>
    cases finish_eq h
    exact he.ordered
  | vec base => exact he.vec h
  | item base others =>
    obtain ⟨b, os, -, -, rfl⟩ := item_eq h
    exact he.ordered.of_eq rfl rfl
  | ref g base =>
    obtain ⟨b, -, -, -, rfl⟩ := ref_eq h
    rw [activate_eq]
    exact he.ordered.of_eq rfl rfl
  | meas base high quals =>
    obtain ⟨-, -, rfl⟩ := meas_eq h
    exact he.ordered.of_eq rfl rfl
  | move v to_ =>
    obtain ⟨-, hv, -, rfl⟩ := move_eq h
    have hmoved := Model.ordered_rebase he.sound.model.placed he.ordered hv
      (Model.followsFrom_rebase (he.ordered e.curr) (he.sound.model.distinct.vecs e.curr) hv
        (b := some to_) fun y hy => by cases hy; exact hkeeps)
    rwa [Function.update_eq_self] at hmoved
  | moveObj o anchor to_ =>
    obtain ⟨obj, -, -, -, rfl⟩ := moveObj_eq h
    exact he.ordered.of_eq rfl rfl
  | link g f base =>
    obtain ⟨-, -, -, -, rfl⟩ := link_eq h
    rw [activate_eq]
    exact he.ordered.of_eq rfl rfl
  | newVec f base =>
    obtain ⟨-, -, rfl⟩ := newVec_eq h
    exact Model.ordered_addVec he.sound.model he.ordered (.inr ⟨rfl, hkeeps⟩)
  | moveTo v to_ =>
    obtain ⟨hlead, -, hv, -, mark, marked, hmark, rfl, rfl⟩ := moveTo_eq h
    exact Model.ordered_rebase he.sound.model.placed he.ordered hv
      (Model.followsFrom_movedVecs (he.ordered _) (he.sound.model.distinct.vecs _) hv hkeeps hlead
        hmark)
  | delete op =>
    obtain ⟨-, m, hm, rfl⟩ := delete_eq h
    exact Model.ordered_delete he.sound.model he.ordered hm
  | undelete =>
    obtain ⟨-, m, hm, rfl⟩ := undelete_eq h
    exact Model.ordered_undelete he.sound.model he.ordered hkeeps hm

theorem orderInv_start (mark : Addr → Bool) : (start mark).OrderInv where
  sound := sound_start mark
  slots := ⟨fun _ => rfl, fun _ => rfl, fun h => (by cases h), fun _ _ => rfl,
    fun _ v hv => (by cases hv)⟩
  ordered _ := trivial

/-- **Bases come first.** They do in every run whose edits keep the order. -/
theorem basesFirst_of_reaches (mark : Addr → Bool) (e : Editor)
    (h : Reaches step KeepsOrder (start mark) e) : e.model.BasesFirst := by
  have hinv := h.inv OrderInv (orderInv_start mark) fun _ _ _ he hkeeps hstep =>
    he.step hkeeps hstep
  exact Model.basesFirst_iff.mpr hinv.ordered

def twoVecsRead : List Edit := [.items, .vec .origin, .vec .origin]

theorem basesFirst_moved :
    ∃ e, (twoVecsRead ++ [Edit.move 2 1]).foldlM step (start fun _ => false) = some e ∧
      e.model.BasesFirst := by
  have hstart : Reaches step KeepsOrder (start fun _ => false) (start fun _ => false) := .start
  have hitems := hstart.step Edit.items trivial rfl
  have hvecs := (hitems.step (Edit.vec .origin) trivial rfl).step (Edit.vec .origin) trivial rfl
  exact ⟨_, rfl, basesFirst_of_reaches (fun _ => false) _
    (hvecs.step (Edit.move 2 1) List.mem_cons_self rfl)⟩

/-- The first vector is based on the second one, which stays where it is. -/
theorem not_basesFirst_moved :
    ¬∀ (mark : Addr → Bool) (e : Editor), Reaches step (fun _ _ => True) (start mark) e →
      e.model.BasesFirst := by
  intro hall
  have hrun : ∃ e, (twoVecsRead ++ [Edit.move 1 2]).foldlM step (start fun _ => false) = some e ∧
      e.model.vecs 0 = [] ++ 1 :: [2] ∧ (e.model.vec 1).base = some 2 := ⟨_, rfl, rfl, rfl⟩
  obtain ⟨e, hrun, hvecs, hbase⟩ := hrun
  exact List.not_mem_nil (hall (fun _ => false) e
    (reaches_of_foldlM (fun _ _ => trivial) .start hrun) 0 [] 1 [2] hvecs 2 hbase)

end Editor

end Openmoko.Fped
