import Mathlib.Data.List.Forall2
import Mathlib.Data.List.Induction
import Mathlib.Data.List.Nodup
import Mathlib.Data.List.Perm.Basic
import Mathlib.Logic.Relation
import Openmoko.Fped.Dump

/-!
# The order of the items

The vectors fall into chains, each from a vector that starts one through vectors that are the only
one on their base. `order_frame` writes one chain after the other, in the order of their starts, and
each object after its anchors.
-/

namespace Openmoko.Fped

open Relation

structure Frame.BasesFirst (frame : Frame) : Prop where
  ids : (frame.vecs.map Vec.id).Nodup
  bases : ∀ pre v post, frame.vecs = pre ++ v :: post → ∀ b ∈ v.base, b ∈ pre.map Vec.id
  anchors : ∀ o ∈ frame.objs, ∀ a ∈ o.anchors, ∀ b ∈ a, b ∈ frame.vecs.map Vec.id

def basesListed : List ℕ → List Vec → Bool
  | _, [] => true
  | seen, v :: vecs => v.base.all (· ∈ seen) && basesListed (seen ++ [v.id]) vecs

theorem mem_of_basesListed {seen : List ℕ} {pre post : List Vec} {v : Vec}
    (hlisted : basesListed seen (pre ++ v :: post) = true) {b : ℕ} (hb : b ∈ v.base) :
    b ∈ seen ++ pre.map Vec.id := by
  induction pre generalizing seen with
  | nil =>
    rw [List.nil_append, basesListed, Bool.and_eq_true, Option.all_eq_true] at hlisted
    simpa using hlisted.1 b hb
  | cons u pre ih =>
    rw [List.cons_append, basesListed, Bool.and_eq_true] at hlisted
    simpa using ih hlisted.2

/-- `w` is the only vector based on `u`; it is printed right behind it. -/
structure Follows (vecs : List Vec) (u w : Vec) : Prop where
  left : u ∈ vecs
  right : w ∈ vecs
  base : w.base = some u.id
  refs : nVecRefs vecs u.id = 1

inductive Chain (vecs : List Vec) : Vec → List Vec → Prop where
  | last {v : Vec} : nVecRefs vecs v.id ≠ 1 → Chain vecs v [v]
  | next {v w : Vec} {c : List Vec} : Follows vecs v w → Chain vecs w c → Chain vecs v (v :: c)

/-! ### Chains -/

theorem eq_of_countP_eq_one {α : Type} {p : α → Bool} {l : List α} (hcount : l.countP p = 1)
    {a b : α} (ha : a ∈ l) (hb : b ∈ l) (hpa : p a = true) (hpb : p b = true) : a = b := by
  rw [List.countP_eq_length_filter] at hcount
  obtain ⟨x, hx⟩ := List.length_eq_one_iff.mp hcount
  have hamem : a ∈ l.filter p := List.mem_filter.mpr ⟨ha, hpa⟩
  have hbmem : b ∈ l.filter p := List.mem_filter.mpr ⟨hb, hpb⟩
  rw [hx, List.mem_singleton] at hamem hbmem
  rw [hamem, hbmem]

section Chain

variable {vecs : List Vec} {u v w h : Vec} {c : List Vec}

/-- A vector is followed by at most one. -/
theorem Follows.right_unique (hw : Follows vecs u w) (hv : Follows vecs u v) : w = v :=
  eq_of_countP_eq_one hw.refs hw.right hv.right (by simpa using hw.base) (by simpa using hv.base)

theorem Vec.eq_of_id (hids : (vecs.map Vec.id).Nodup) (hu : u ∈ vecs) (hv : v ∈ vecs)
    (hid : u.id = v.id) : u = v :=
  List.inj_on_of_nodup_map hids hu hv hid

/-- A vector follows at most one. -/
theorem Follows.left_unique (hids : (vecs.map Vec.id).Nodup) (hu : Follows vecs u w)
    (hv : Follows vecs v w) : u = v := by
  apply Vec.eq_of_id hids hu.left hv.left
  exact Option.some.inj (hu.base.symm.trans hv.base)

theorem Follows.not_startsChain (hw : Follows vecs u w) : startsChain vecs w = false := by
  simp [startsChain, hw.base, hw.refs]

theorem Chain.exists_cons (hc : Chain vecs v c) : ∃ c', c = v :: c' := by
  cases hc <;> exact ⟨_, rfl⟩

/-- A chain holds what is reached from its start. -/
theorem Chain.mem_iff (hc : Chain vecs v c) : w ∈ c ↔ ReflTransGen (Follows vecs) v w := by
  induction hc with
  | @last v hrefs =>
    rw [List.mem_singleton]
    constructor
    · rintro rfl
      exact .refl
    · intro hreach
      rcases hreach.cases_head with rfl | ⟨x, hstep, -⟩
      · rfl
      · exact absurd hstep.refs hrefs
  | @next v x c hstep _ ih =>
    rw [List.mem_cons, ih]
    constructor
    · rintro (rfl | hreach)
      · exact .refl
      · exact .head hstep hreach
    · intro hreach
      rcases hreach.cases_head with rfl | ⟨y, hstep', hreach⟩
      · exact Or.inl rfl
      · obtain rfl := hstep.right_unique hstep'
        exact Or.inr hreach

/-- Everything but the start of a chain stands right behind what it follows. -/
theorem Chain.eq_head_or_split (hc : Chain vecs v c) (hw : w ∈ c) :
    w = v ∨ ∃ xs u ys, c = xs ++ u :: w :: ys ∧ Follows vecs u w := by
  induction hc with
  | last hrefs => exact Or.inl (List.mem_singleton.mp hw)
  | @next v x c hstep hc ih =>
    rcases List.mem_cons.mp hw with rfl | hmem
    · exact Or.inl rfl
    · right
      rcases ih hmem with rfl | ⟨xs, u, ys, rfl, hfollows⟩
      · obtain ⟨c', rfl⟩ := hc.exists_cons
        exact ⟨[], v, c', rfl, hstep⟩
      · exact ⟨v :: xs, u, ys, rfl, hfollows⟩

theorem Chain.getLast? (hc : Chain vecs v c) :
    ∃ u, c.getLast? = some u ∧ nVecRefs vecs u.id ≠ 1 := by
  induction hc with
  | last hrefs => exact ⟨_, rfl, hrefs⟩
  | @next v x c hstep hc ih =>
    obtain ⟨u, hu, hrefs⟩ := ih
    obtain ⟨c', rfl⟩ := hc.exists_cons
    exact ⟨u, hu, hrefs⟩

theorem Chain.eq_getLast (hc : Chain vecs v c) (hw : w ∈ c) (hrefs : nVecRefs vecs w.id ≠ 1) :
    c.getLast? = some w := by
  induction hc with
  | last _ => exact congrArg some (List.mem_singleton.mp hw).symm
  | @next v x c hstep hc ih =>
    rcases List.mem_cons.mp hw with rfl | hmem
    · exact absurd hstep.refs hrefs
    · obtain ⟨c', rfl⟩ := hc.exists_cons
      exact ih hmem

theorem eq_of_startsChain (hreach : ReflTransGen (Follows vecs) v w)
    (hstart : startsChain vecs w = true) : v = w := by
  rcases hreach.cases_tail with rfl | ⟨u, -, hstep⟩
  · rfl
  · rw [hstep.not_startsChain] at hstart
    cases hstart

/-- No vector is in the chains of two starts. -/
theorem start_unique (hids : (vecs.map Vec.id).Nodup) {v' : Vec}
    (hv : startsChain vecs v = true) (hv' : startsChain vecs v' = true)
    (hw : ReflTransGen (Follows vecs) v w) (hw' : ReflTransGen (Follows vecs) v' w) : v = v' := by
  have hunique : Relator.RightUnique (Function.swap (Follows vecs)) := by
    intro a b c hb hc
    exact hb.left_unique hids hc
  rcases ReflTransGen.total_of_right_unique hunique (reflTransGen_swap.mpr hw)
    (reflTransGen_swap.mpr hw') with hreach | hreach
  · exact (eq_of_startsChain (reflTransGen_swap.mp hreach) hv).symm
  · exact eq_of_startsChain (reflTransGen_swap.mp hreach) hv'

end Chain

section Starts

variable {frame : Frame} {u v w : Vec} {pre post c : List Vec}

theorem Frame.BasesFirst.exists_base (hframe : frame.BasesFirst) (hv : v ∈ frame.vecs) {b : ℕ}
    (hb : v.base = some b) : ∃ u ∈ frame.vecs, u.id = b := by
  obtain ⟨pre, post, hvecs⟩ := List.append_of_mem hv
  obtain ⟨u, hu, hid⟩ := List.mem_map.mp (hframe.bases pre v post hvecs b hb)
  refine ⟨u, ?_, hid⟩
  rw [hvecs]
  exact List.mem_append_left _ hu

theorem Frame.BasesFirst.not_mem_pre (hframe : frame.BasesFirst)
    (hvecs : frame.vecs = pre ++ v :: post) : v.id ∉ pre.map Vec.id := by
  have hids := hframe.ids
  rw [hvecs, List.map_append, List.nodup_append] at hids
  intro hmem
  exact hids.2.2 _ hmem v.id (by simp) rfl

def position (vecs : List Vec) (v : Vec) : ℕ := (vecs.map Vec.id).idxOf v.id

theorem position_eq (hframe : frame.BasesFirst) (hvecs : frame.vecs = pre ++ v :: post) :
    position frame.vecs v = pre.length := by
  have hnot := hframe.not_mem_pre hvecs
  rw [position, hvecs, List.map_append, List.idxOf_append_of_notMem hnot, List.map_cons,
    List.idxOf_cons_self, List.length_map, Nat.add_zero]

/-- A vector follows one further to the front. -/
theorem position_lt (hframe : frame.BasesFirst) (hstep : Follows frame.vecs u w) :
    position frame.vecs u < position frame.vecs w := by
  obtain ⟨pre, post, hvecs⟩ := List.append_of_mem hstep.right
  have hmem := hframe.bases pre w post hvecs u.id hstep.base
  rw [position_eq hframe hvecs, position, hvecs, List.map_append, List.idxOf_append_of_mem hmem]
  exact lt_of_lt_of_eq (List.idxOf_lt_length_of_mem hmem) (List.length_map _)

theorem position_le (hframe : frame.BasesFirst)
    (hreach : ReflTransGen (Follows frame.vecs) u w) :
    position frame.vecs u ≤ position frame.vecs w := by
  induction hreach with
  | refl => exact Nat.le_refl _
  | tail _ hstep ih => exact Nat.le_of_lt (Nat.lt_of_le_of_lt ih (position_lt hframe hstep))

theorem Chain.nodup (hframe : frame.BasesFirst) (hc : Chain frame.vecs v c) : c.Nodup := by
  induction hc with
  | last _ => exact List.nodup_singleton _
  | @next v x c hstep hc ih =>
    rw [List.nodup_cons]
    refine ⟨?_, ih⟩
    intro hmem
    have hlt := position_lt hframe hstep
    have hle := position_le hframe (hc.mem_iff.mp hmem)
    exact absurd hlt (Nat.not_lt.mpr hle)

/-- Every vector is in the chain of a start that is no further back. -/
theorem exists_start (hframe : frame.BasesFirst) (hvecs : frame.vecs = pre ++ post)
    (hw : w ∈ pre) :
    ∃ s ∈ pre.filter (startsChain frame.vecs), ReflTransGen (Follows frame.vecs) s w := by
  induction pre using List.reverseRecOn generalizing post w with
  | nil => cases hw
  | append_singleton pre v ih =>
    rw [List.append_assoc, List.singleton_append] at hvecs
    have hearlier : ∀ {w}, w ∈ pre → ∃ s ∈ (pre ++ [v]).filter (startsChain frame.vecs),
        ReflTransGen (Follows frame.vecs) s w := by
      intro w hw
      obtain ⟨s, hs, hreach⟩ := ih hvecs hw
      refine ⟨s, ?_, hreach⟩
      rw [List.filter_append]
      exact List.mem_append_left _ hs
    rcases List.mem_append.mp hw with hmem | hlast
    · exact hearlier hmem
    · obtain rfl := List.mem_singleton.mp hlast
      by_cases hstart : startsChain frame.vecs w = true
      · exact ⟨w, List.mem_filter.mpr ⟨hw, hstart⟩, .refl⟩
      · have hw' : w ∈ frame.vecs := by simp [hvecs]
        cases hbase : w.base with
        | none => simp [startsChain, hbase] at hstart
        | some b =>
          obtain ⟨u, hu, rfl⟩ := List.mem_map.mp (hframe.bases _ _ _ hvecs b hbase)
          obtain ⟨s, hs, hreach⟩ := hearlier hu
          have hrefs : nVecRefs frame.vecs u.id = 1 := by simpa [startsChain, hbase] using hstart
          have hu' : u ∈ frame.vecs := by
            rw [hvecs]
            exact List.mem_append_left _ hu
          exact ⟨s, hs, hreach.tail ⟨hu', hw', hbase, hrefs⟩⟩

end Starts

def Item.vec? : Item → Option Vec
  | .vec v => some v
  | .obj _ _ _ => none

def Item.obj? : Item → Option (Obj (Option ℕ))
  | .vec _ => none
  | .obj _ _ o => some o

def vecsOf (items : List Item) : List Vec := items.filterMap Item.vec?

def objsOf (items : List Item) : List (Obj (Option ℕ)) := items.filterMap Item.obj?

def places (items : List Item) : List ℕ := items.filterMap Item.objPlace?

def lastVecOf (items : List Item) : Option ℕ := (vecsOf items).getLast?.map Vec.id

/-- The item uses only what stands before it. -/
def Item.Fits (frame : Frame) (before : List Item) : Item → Prop
  | .vec v => v ∈ frame.vecs ∧ later before v.base = false
  | .obj prev place o =>
    frame.objs[place]? = some o ∧ place ∉ places before ∧
      (∀ a ∈ o.anchors, later before a = false) ∧ (prev = none ∨ prev = lastVecOf before)

inductive Fitting (frame : Frame) : List Item → Prop where
  | nil : Fitting frame []
  | snoc {items : List Item} {item : Item} :
      Fitting frame items → item.Fits frame items → Fitting frame (items ++ [item])

section Items

variable {frame : Frame} {items : List Item}

@[simp] theorem vecsOf_append (xs ys : List Item) : vecsOf (xs ++ ys) = vecsOf xs ++ vecsOf ys :=
  List.filterMap_append

@[simp] theorem objsOf_append (xs ys : List Item) : objsOf (xs ++ ys) = objsOf xs ++ objsOf ys :=
  List.filterMap_append

@[simp] theorem places_append (xs ys : List Item) : places (xs ++ ys) = places xs ++ places ys :=
  List.filterMap_append

@[simp] theorem vecsOf_vec (v : Vec) : vecsOf [.vec v] = [v] := rfl

@[simp] theorem vecsOf_obj (prev : Option ℕ) (place : ℕ) (o : Obj (Option ℕ)) :
    vecsOf [.obj prev place o] = [] := rfl

@[simp] theorem objsOf_vec (v : Vec) : objsOf [.vec v] = [] := rfl

@[simp] theorem objsOf_obj (prev : Option ℕ) (place : ℕ) (o : Obj (Option ℕ)) :
    objsOf [.obj prev place o] = [o] := rfl

@[simp] theorem places_vec (v : Vec) : places [.vec v] = [] := rfl

@[simp] theorem places_obj (prev : Option ℕ) (place : ℕ) (o : Obj (Option ℕ)) :
    places [.obj prev place o] = [place] := rfl

theorem filterMap_vecId (items : List Item) :
    items.filterMap Item.vecId? = (vecsOf items).map Vec.id := by
  rw [vecsOf, List.map_filterMap]
  apply List.filterMap_congr
  intro item _
  cases item <;> rfl

theorem later_eq_false {base : Option ℕ} :
    later items base = false ↔ ∀ b ∈ base, b ∈ (vecsOf items).map Vec.id := by
  cases base with
  | none => simp [later]
  | some b => simp [later, vecDumped, filterMap_vecId]

theorem objDumped_iff {place : ℕ} : objDumped items place = true ↔ place ∈ places items := by
  rw [objDumped, List.contains_iff_mem]
  rfl

theorem Fitting.vecs_subset (hitems : Fitting frame items) :
    ∀ v ∈ vecsOf items, v ∈ frame.vecs := by
  induction hitems with
  | nil => exact nofun
  | @snoc items item _ hfits ih =>
    rw [vecsOf_append, List.forall_mem_append]
    refine ⟨ih, ?_⟩
    cases item with
    | vec v =>
      rw [vecsOf_vec, List.forall_mem_singleton]
      exact hfits.1
    | obj prev place o => exact nofun

structure Extends (frame : Frame) (items items' : List Item) : Prop where
  fitting : Fitting frame items'
  vecs : vecsOf items' = vecsOf items
  places : places items ⊆ places items'

theorem Extends.trans {items' items'' : List Item} (h : Extends frame items items')
    (h' : Extends frame items' items'') : Extends frame items items'' :=
  ⟨h'.fitting, h'.vecs.trans h.vecs, List.Subset.trans h.places h'.places⟩

/-- An object all of whose vectors are there is put, or is there already. -/
theorem extends_putObj (hitems : Fitting frame items) {prev : Option ℕ} {place : ℕ}
    {o : Obj (Option ℕ)} (ho : frame.objs[place]? = some o)
    (hlater : ∀ a ∈ o.anchors, later items a = false)
    (hprev : prev = none ∨ prev = lastVecOf items) :
    Extends frame items (putObj items prev place o) ∧
      place ∈ places (putObj items prev place o) := by
  unfold putObj
  split
  · rename_i hdumped
    exact ⟨⟨hitems, rfl, List.Subset.refl _⟩, objDumped_iff.mp hdumped⟩
  · rename_i hdumped
    have hnot : place ∉ places items := fun hmem => hdumped (objDumped_iff.mpr hmem)
    constructor
    · constructor
      · exact .snoc hitems ⟨ho, hnot, hlater, hprev⟩
      · simp
      · simp
    · simp

theorem of_drop_eq_cons {α : Type} {l rest : List α} {i : ℕ} {a : α}
    (hdrop : l.drop i = a :: rest) : l[i]? = some a ∧ l.drop (i + 1) = rest := by
  constructor
  · rw [← List.head?_drop, hdrop]
    rfl
  · rw [← List.tail_drop, hdrop]
    rfl

theorem extends_putObjsAfter {prev place : ℕ} {objs : List (Obj (Option ℕ))}
    (hitems : Fitting frame items) (hobjs : frame.objs.drop place = objs)
    (hprev : lastVecOf items = some prev) :
    Extends frame items (putObjsAfter prev place objs items) := by
  induction objs generalizing place items with
  | nil => exact ⟨hitems, rfl, List.Subset.refl _⟩
  | cons o objs ih =>
    obtain ⟨ho, hrest⟩ := of_drop_eq_cons hobjs
    rw [putObjsAfter]
    split
    · rename_i hput
      rw [mayPutObjNow, Bool.and_eq_true, Bool.not_eq_true', List.any_eq_false] at hput
      have hlater : ∀ a ∈ o.anchors, later items a = false := fun a ha =>
        Bool.eq_false_iff.mpr (hput.2 a ha)
      have hput := (extends_putObj hitems ho hlater (Or.inr hprev.symm)).1
      apply hput.trans
      apply ih hput.fitting hrest
      rwa [lastVecOf, hput.vecs]
    · exact ih hitems hrest hprev

theorem extends_putRest {place : ℕ} {objs : List (Obj (Option ℕ))}
    (hitems : Fitting frame items) (hobjs : frame.objs.drop place = objs)
    (hall : ∀ o ∈ objs, ∀ a ∈ o.anchors, later items a = false) :
    Extends frame items (putRest place objs items) ∧
      ∀ i, place ≤ i → i < frame.objs.length → i ∈ places (putRest place objs items) := by
  induction objs generalizing place items with
  | nil =>
    refine ⟨⟨hitems, rfl, List.Subset.refl _⟩, ?_⟩
    intro i hle hlt
    rw [List.drop_eq_nil_iff] at hobjs
    omega
  | cons o objs ih =>
    obtain ⟨ho, hrest⟩ := of_drop_eq_cons hobjs
    rw [List.forall_mem_cons] at hall
    obtain ⟨hput, hplace⟩ := extends_putObj hitems ho hall.1 (Or.inl rfl)
    have hall' : ∀ o' ∈ objs, ∀ a ∈ o'.anchors, later (putObj items none place o) a = false := by
      intro o' ho' a ha
      rw [later_eq_false, hput.vecs]
      exact later_eq_false.mp (hall.2 o' ho' a ha)
    obtain ⟨hrest', hplaces⟩ := ih hput.fitting hrest hall'
    refine ⟨hput.trans hrest', ?_⟩
    intro i hle hlt
    rcases Nat.eq_or_lt_of_le hle with rfl | hlt'
    · exact hrest'.places hplace
    · exact hplaces i hlt' hlt

end Items

/-! ### Chains in the order -/

section Order

variable {frame : Frame} {items : List Item} {v w : Vec} {pre rest : List Vec}

theorem nextBased_eq_some {id : ℕ} (hex : ∃ w ∈ rest, w.base = some id) :
    ∃ mid w rest', nextBased id rest = some (w, rest') ∧ rest = mid ++ w :: rest' ∧
      w.base = some id := by
  induction rest with
  | nil =>
    obtain ⟨w, hw, -⟩ := hex
    cases hw
  | cons v rest ih =>
    by_cases hbase : v.base = some id
    · exact ⟨[], v, rest, if_pos hbase, rfl, hbase⟩
    · have hrest : ∃ w ∈ rest, w.base = some id := by
        obtain ⟨w, hw, hwbase⟩ := hex
        rcases List.mem_cons.mp hw with rfl | hmem
        · exact absurd hwbase hbase
        · exact ⟨w, hmem, hwbase⟩
      obtain ⟨mid, w, rest', hnext, rfl, hw⟩ := ih hrest
      exact ⟨v :: mid, w, rest', (if_neg hbase).trans hnext, rfl, hw⟩

theorem exists_based (hframe : frame.BasesFirst) (hvecs : frame.vecs = pre ++ v :: rest)
    (hrefs : nVecRefs frame.vecs v.id = 1) : ∃ w ∈ rest, w.base = some v.id := by
  have hpos : 0 < nVecRefs frame.vecs v.id := by omega
  obtain ⟨w, hw, hbase⟩ := List.countP_pos_iff.mp hpos
  have hbase : w.base = some v.id := by simpa using hbase
  refine ⟨w, ?_, hbase⟩
  obtain ⟨xs, ys, hsplit⟩ := List.append_of_mem hw
  have hmem := hframe.bases xs w ys hsplit v.id hbase
  have hlt : pre.length < xs.length := by
    rw [← position_eq hframe hvecs, position, hsplit, List.map_append,
      List.idxOf_append_of_mem hmem]
    exact lt_of_lt_of_eq (List.idxOf_lt_length_of_mem hmem) (List.length_map _)
  have hdrop : rest = (xs ++ w :: ys).drop (pre.length + 1) := by
    rw [← hsplit, hvecs, ← List.drop_drop, List.drop_left]
    rfl
  rw [hdrop, List.drop_append_of_le_length hlt]
  simp

/-- `recurse_vec` puts one chain. -/
theorem recurseVec_chain (hframe : frame.BasesFirst) {depth : ℕ}
    (hvecs : frame.vecs = pre ++ v :: rest) (hdepth : rest.length < depth)
    (hitems : Fitting frame items) (hbase : later items v.base = false) :
    ∃ items' c, recurseVec frame depth v rest items = some items' ∧ Fitting frame items' ∧
      Chain frame.vecs v c ∧ vecsOf items' = vecsOf items ++ c := by
  induction depth generalizing pre v rest items with
  | zero => exact absurd hdepth (Nat.not_lt_zero _)
  | succ depth ih =>
    have hv : v ∈ frame.vecs := by simp [hvecs]
    have hfits : Fitting frame (items ++ [.vec v]) := .snoc hitems ⟨hv, hbase⟩
    have hlast : lastVecOf (items ++ [.vec v]) = some v.id := by simp [lastVecOf]
    have hput := extends_putObjsAfter hfits (List.drop_zero (l := frame.objs)) hlast
    have hvecsOf := hput.vecs
    rw [vecsOf_append, vecsOf_vec] at hvecsOf
    rw [recurseVec]
    by_cases hrefs : nVecRefs frame.vecs v.id = 1
    · rw [if_pos hrefs]
      obtain ⟨mid, w, rest', hnext, rfl, hw⟩ :=
        nextBased_eq_some (exists_based hframe hvecs hrefs)
      rw [hnext]
      have hvecs' : frame.vecs = (pre ++ v :: mid) ++ w :: rest' := by simp [hvecs]
      have hdepth' : rest'.length < depth := by
        rw [List.length_append, List.length_cons] at hdepth
        omega
      have hbase' : later (putObjsAfter v.id 0 frame.objs (items ++ [.vec v])) w.base = false := by
        rw [later_eq_false, hvecsOf, hw]
        intro b hb
        obtain rfl := Option.some.inj hb
        simp
      obtain ⟨items', c, hrun, hfit, hc, hall⟩ := ih hvecs' hdepth' hput.fitting hbase'
      refine ⟨items', v :: c, hrun, hfit, .next ⟨hv, ?_, hw, hrefs⟩ hc, ?_⟩
      · simp [hvecs']
      · rw [hall, hvecsOf, List.append_assoc]
        rfl
    · rw [if_neg hrefs]
      exact ⟨_, [v], rfl, hput.fitting, .last hrefs, hvecsOf⟩

def Chains (vecs starts : List Vec) (cs : List (List Vec)) : Prop :=
  List.Forall₂ (Chain vecs) (starts.filter (startsChain vecs)) cs

theorem Chains.mem_flatten {starts : List Vec} {cs : List (List Vec)}
    (hcs : Chains frame.vecs starts cs) :
    w ∈ cs.flatten ↔
      ∃ s ∈ starts.filter (startsChain frame.vecs), ReflTransGen (Follows frame.vecs) s w := by
  unfold Chains at hcs
  generalize starts.filter (startsChain frame.vecs) = heads at hcs
  induction hcs with
  | nil => simp
  | cons hc _ ih => simp [ih, hc.mem_iff]

/-- Each start adds its chain, and nothing else adds any. -/
theorem orderVecs_chains (hframe : frame.BasesFirst) (hvecs : frame.vecs = pre ++ rest)
    {cs : List (List Vec)} (hcs : Chains frame.vecs pre cs) (hitems : Fitting frame items)
    (hdone : vecsOf items = cs.flatten) :
    ∃ items' cs', orderVecs frame rest items = some items' ∧ Fitting frame items' ∧
      Chains frame.vecs frame.vecs (cs ++ cs') ∧ vecsOf items' = (cs ++ cs').flatten := by
  induction rest generalizing pre items cs with
  | nil =>
    rw [List.append_nil] at hvecs
    refine ⟨items, [], rfl, hitems, ?_, ?_⟩
    · rw [List.append_nil, hvecs]
      rwa [hvecs] at hcs
    · rw [List.append_nil, hdone]
  | cons v rest ih =>
    have hvecs' : frame.vecs = (pre ++ [v]) ++ rest := by simp [hvecs]
    rw [orderVecs]
    by_cases hstart : startsChain frame.vecs v = true
    · rw [if_pos hstart]
      have hbase : later items v.base = false := by
        rw [later_eq_false, hdone]
        intro b hb
        obtain ⟨u, hu, rfl⟩ := List.mem_map.mp (hframe.bases _ _ _ hvecs b hb)
        exact List.mem_map_of_mem (hcs.mem_flatten.mpr (exists_start hframe hvecs hu))
      have hdepth : rest.length < frame.vecs.length := by
        rw [hvecs, List.length_append, List.length_cons]
        omega
      obtain ⟨items', c, hrun, hfit, hc, hall⟩ :=
        recurseVec_chain hframe hvecs hdepth hitems hbase
      have hcs' : Chains frame.vecs (pre ++ [v]) (cs ++ [c]) := by
        unfold Chains
        rw [List.filter_append, List.filter_singleton, hstart]
        exact List.rel_append hcs (.cons hc .nil)
      obtain ⟨items'', cs', hrun', hfit', hchains, hall'⟩ :=
        ih hvecs' hcs' hfit (by simp [hall, hdone])
      refine ⟨items'', c :: cs', ?_, hfit', by simpa using hchains, by simpa using hall'⟩
      rw [hrun]
      exact hrun'
    · rw [if_neg hstart]
      have hcs' : Chains frame.vecs (pre ++ [v]) cs := by
        unfold Chains
        rw [List.filter_append, List.filter_singleton, Bool.eq_false_iff.mpr hstart]
        simpa [Chains] using hcs
      exact ih hvecs' hcs' hitems hdone

/-- **The order.** The vectors are put chain by chain, and every object is put. -/
theorem orderFrame_chains (hframe : frame.BasesFirst) :
    ∃ items cs, orderFrame frame = some items ∧ Fitting frame items ∧
      Chains frame.vecs frame.vecs cs ∧ vecsOf items = cs.flatten ∧
      ∀ i < frame.objs.length, i ∈ places items := by
  obtain ⟨items, cs, hrun, hfit, hcs, hall⟩ :=
    orderVecs_chains hframe (List.nil_append frame.vecs).symm .nil .nil rfl
  rw [List.nil_append] at hcs hall
  have hanchors : ∀ o ∈ frame.objs, ∀ a ∈ o.anchors, later items a = false := by
    intro o ho a ha
    rw [later_eq_false, hall]
    intro b hb
    obtain ⟨u, hu, rfl⟩ := List.mem_map.mp (hframe.anchors o ho a ha b hb)
    apply List.mem_map_of_mem
    exact hcs.mem_flatten.mpr (exists_start hframe (List.append_nil frame.vecs).symm hu)
  obtain ⟨hrest, hplaces⟩ :=
    extends_putRest hfit (List.drop_zero (l := frame.objs)) hanchors
  refine ⟨_, cs, ?_, hrest.fitting, hcs, hrest.vecs.trans hall, ?_⟩
  · rw [orderFrame, hrun]
    rfl
  · exact fun i hi => hplaces i (Nat.zero_le i) hi

theorem Chains.nodup (hframe : frame.BasesFirst) {cs : List (List Vec)}
    (hcs : Chains frame.vecs frame.vecs cs) : cs.flatten.Nodup := by
  have hvecs : frame.vecs.Nodup := List.Nodup.of_map _ hframe.ids
  have hheads : (frame.vecs.filter (startsChain frame.vecs)).Nodup := hvecs.filter _
  have hstarts : ∀ s ∈ frame.vecs.filter (startsChain frame.vecs),
      startsChain frame.vecs s = true := fun s hs => (List.mem_filter.mp hs).2
  unfold Chains at hcs
  revert hheads hstarts
  generalize frame.vecs.filter (startsChain frame.vecs) = heads at hcs
  intro hheads hstarts
  induction hcs with
  | nil => exact List.nodup_nil
  | @cons s c heads cs hc hcs ih =>
    rw [List.nodup_cons] at hheads
    rw [List.forall_mem_cons] at hstarts
    rw [List.flatten_cons, List.nodup_append]
    refine ⟨hc.nodup hframe, ih hheads.2 hstarts.2, ?_⟩
    rintro w hw w' hw' rfl
    obtain ⟨c', hc', hwc'⟩ := List.mem_flatten.mp hw'
    have hstart : ∃ s' ∈ heads, Chain frame.vecs s' c' := by
      clear ih hheads hstarts hw'
      induction hcs with
      | nil => cases hc'
      | cons hc'' _ ih =>
        rcases List.mem_cons.mp hc' with rfl | hmem
        · exact ⟨_, List.mem_cons_self, hc''⟩
        · obtain ⟨s', hs', hchain⟩ := ih hmem
          exact ⟨s', List.mem_cons_of_mem _ hs', hchain⟩
    obtain ⟨s', hs', hchain⟩ := hstart
    have heq := start_unique hframe.ids hstarts.1 (hstarts.2 s' hs') (hc.mem_iff.mp hw)
      (hchain.mem_iff.mp hwc')
    exact hheads.1 (heq ▸ hs')

/-- The chains hold every vector once. -/
theorem Chains.perm (hframe : frame.BasesFirst) {cs : List (List Vec)}
    (hcs : Chains frame.vecs frame.vecs cs) : cs.flatten.Perm frame.vecs := by
  have hvecs : frame.vecs.Nodup := List.Nodup.of_map _ hframe.ids
  rw [List.perm_ext_iff_of_nodup (hcs.nodup hframe) hvecs]
  intro w
  rw [hcs.mem_flatten]
  constructor
  · rintro ⟨s, hs, hreach⟩
    rcases hreach.cases_tail with rfl | ⟨u, -, hstep⟩
    · exact List.mem_of_mem_filter hs
    · exact hstep.right
  · intro hw
    exact exists_start hframe (List.append_nil frame.vecs).symm hw

theorem Fitting.places_spec (hitems : Fitting frame items) :
    (places items).Nodup ∧ (∀ i ∈ places items, i < frame.objs.length) ∧
      (places items).map (frame.objs[·]?) = (objsOf items).map some := by
  induction hitems with
  | nil => exact ⟨List.nodup_nil, nofun, rfl⟩
  | @snoc items item _ hfits ih =>
    obtain ⟨hnodup, hlt, hobjs⟩ := ih
    cases item with
    | vec v =>
      rw [places_append, objsOf_append, places_vec, objsOf_vec, List.append_nil, List.append_nil]
      exact ⟨hnodup, hlt, hobjs⟩
    | obj prev place o =>
      obtain ⟨ho, hnew, -, -⟩ := hfits
      rw [places_append, objsOf_append, places_obj, objsOf_obj]
      refine ⟨?_, ?_, ?_⟩
      · rw [List.nodup_append]
        refine ⟨hnodup, List.nodup_singleton _, ?_⟩
        rintro i hi j hj rfl
        exact hnew (List.mem_singleton.mp hj ▸ hi)
      · rw [List.forall_mem_append, List.forall_mem_singleton]
        exact ⟨hlt, (List.getElem?_eq_some_iff.mp ho).1⟩
      · rw [List.map_append, List.map_append, hobjs, List.map_singleton, ho]
        rfl

theorem map_getElem?_range {α : Type} (l : List α) :
    (List.range l.length).map (l[·]?) = l.map some := by
  apply List.ext_getElem
  · simp
  · intro i hi hi'
    simp at hi' ⊢

theorem Fitting.objs_perm (hitems : Fitting frame items)
    (hall : ∀ i < frame.objs.length, i ∈ places items) : (objsOf items).Perm frame.objs := by
  obtain ⟨hnodup, hlt, hobjs⟩ := hitems.places_spec
  have hplaces : (places items).Perm (List.range frame.objs.length) := by
    rw [List.perm_ext_iff_of_nodup hnodup List.nodup_range]
    intro i
    rw [List.mem_range]
    exact ⟨hlt i, hall i⟩
  have hsome : ((objsOf items).map some).Perm (frame.objs.map some) := by
    rw [← hobjs, ← map_getElem?_range]
    exact hplaces.map _
  exact (List.map_perm_map_iff (Option.some_injective _)).mp hsome

end Order

/-! ### The vector before another one -/

def DotsRead (vecs order : List Vec) : Prop :=
  ∀ before v after, order = before ++ v :: after →
    ∀ b ∈ v.base, nextOf b vecs = some v.id → before.getLast?.map Vec.id = some b

/-- A vector listed directly after its base, on which there are more: the last chain that starts at
or before the base ends with it. -/
def DotsFit (vecs : List Vec) : Prop :=
  ∀ pre b c post, vecs = pre ++ b :: c :: post → c.base = some b.id → nVecRefs vecs b.id ≠ 1 →
    ∃ s ∈ ((pre ++ [b]).filter (startsChain vecs)).getLast?, ReflTransGen (Follows vecs) s b

section Dots

variable {frame : Frame} {b c s v : Vec} {pre post : List Vec} {cs : List (List Vec)}

theorem nextOf_eq_some {vecs : List Vec} {id next : ℕ} (hnext : nextOf id vecs = some next) :
    ∃ pre u w post, vecs = pre ++ u :: w :: post ∧ u.id = id ∧ w.id = next := by
  fun_induction nextOf id vecs with
  | case1 u w rest hid => exact ⟨[], u, w, rest, rfl, hid, Option.some.inj hnext⟩
  | case2 u w rest hid ih =>
    obtain ⟨pre, u', w', post, hvecs, hu, hw⟩ := ih hnext
    exact ⟨u :: pre, u', w', post, by rw [hvecs]; rfl, hu, hw⟩
  | case3 => cases hnext

theorem nextOf_append (hframe : frame.BasesFirst) (hvecs : frame.vecs = pre ++ b :: c :: post) :
    nextOf b.id frame.vecs = some c.id := by
  have hnot := hframe.not_mem_pre hvecs
  rw [hvecs]
  clear hvecs
  induction pre with
  | nil => exact if_pos rfl
  | cons u pre ih =>
    rw [List.map_cons, List.mem_cons, not_or] at hnot
    cases pre with
    | nil =>
      change (if u.id = b.id then _ else _) = _
      rw [if_neg fun h => hnot.1 h.symm]
      exact if_pos rfl
    | cons w pre =>
      change (if u.id = b.id then _ else _) = _
      rw [if_neg fun h => hnot.1 h.symm]
      exact ih hnot.2

theorem Chains.split {starts more : List Vec} (hcs : Chains frame.vecs (starts ++ more) cs) :
    ∃ cs₁ cs₂, cs = cs₁ ++ cs₂ ∧ Chains frame.vecs starts cs₁ ∧ Chains frame.vecs more cs₂ := by
  unfold Chains at hcs
  rw [List.filter_append] at hcs
  refine ⟨cs.take (starts.filter (startsChain frame.vecs)).length,
    cs.drop (starts.filter (startsChain frame.vecs)).length, (List.take_append_drop _ _).symm,
    ?_, ?_⟩
  · have htake := List.forall₂_take (starts.filter (startsChain frame.vecs)).length hcs
    rwa [List.take_left] at htake
  · have hdrop := List.forall₂_drop (starts.filter (startsChain frame.vecs)).length hcs
    rwa [List.drop_left] at hdrop

/-- In front of a start stand the chains of the starts before it. -/
theorem Chains.before_start (hcs : Chains frame.vecs frame.vecs cs)
    (hvecs : frame.vecs = pre ++ c :: post) (hstart : startsChain frame.vecs c = true) :
    ∃ cs₁ after, Chains frame.vecs pre cs₁ ∧ cs.flatten = cs₁.flatten ++ c :: after := by
  have hsplit : Chains frame.vecs (pre ++ c :: post) cs := hvecs ▸ hcs
  obtain ⟨cs₁, cs₂, rfl, hpre, hpost⟩ := hsplit.split
  unfold Chains at hpost
  rw [List.filter_cons, if_pos hstart, List.forall₂_cons_left_iff] at hpost
  obtain ⟨cc, cs₃, hcc, -, rfl⟩ := hpost
  obtain ⟨cc', rfl⟩ := hcc.exists_cons
  exact ⟨cs₁, cc' ++ cs₃.flatten, hpre, by simp⟩

theorem Chains.getLast? (hcs : Chains frame.vecs pre cs)
    (hs : (pre.filter (startsChain frame.vecs)).getLast? = some s) :
    ∃ cl, Chain frame.vecs s cl ∧ cs.flatten.getLast? = cl.getLast? := by
  obtain ⟨heads, hheads⟩ := List.getLast?_eq_some_iff.mp hs
  unfold Chains at hcs
  rw [hheads] at hcs
  have hlen := hcs.length_eq
  have hdrop := List.forall₂_drop heads.length hcs
  rw [List.drop_left, List.forall₂_cons_left_iff] at hdrop
  obtain ⟨cl, rest, hcl, hrest, hcs'⟩ := hdrop
  obtain rfl := List.forall₂_nil_left_iff.mp hrest
  refine ⟨cl, hcl, ?_⟩
  obtain ⟨u, hu, -⟩ := hcl.getLast?
  rw [← List.take_append_drop heads.length cs, hcs', List.flatten_append, List.getLast?_append,
    List.flatten_singleton, hu]
  rfl

theorem split_unique {α : Type} {l xs ys xs' ys' : List α} {a : α} (hl : l.Nodup)
    (h : l = xs ++ a :: ys) (h' : l = xs' ++ a :: ys') : xs = xs' := by
  have hnot : ∀ {xs ys : List α}, l = xs ++ a :: ys → a ∉ xs ∧ a ∉ ys := by
    rintro xs ys rfl
    rw [List.nodup_middle, List.nodup_cons, List.mem_append, not_or] at hl
    exact hl.1
  exact ((List.append_cons_inj_of_notMem (hnot h').1 (hnot h').2).mp (h'.symm.trans h)).1.symm

/-- A vector that alone is based on another stands right behind it. -/
theorem Chains.before_single (hframe : frame.BasesFirst) (hcs : Chains frame.vecs frame.vecs cs)
    {before after : List Vec} (horder : cs.flatten = before ++ v :: after) {b : ℕ}
    (hbase : v.base = some b) (hrefs : nVecRefs frame.vecs b = 1) :
    before.getLast?.map Vec.id = some b := by
  have hmem : v ∈ frame.vecs := by
    rw [← (hcs.perm hframe).mem_iff, horder]
    simp
  have hnot : ¬ startsChain frame.vecs v = true := by simp [startsChain, hbase, hrefs]
  obtain ⟨s, hs, hreach⟩ := exists_start hframe (List.append_nil frame.vecs).symm hmem
  obtain ⟨pre, post, hvecs⟩ := List.append_of_mem (List.mem_of_mem_filter hs)
  have hstart := (List.mem_filter.mp hs).2
  have hsplit : Chains frame.vecs (pre ++ s :: post) cs := hvecs ▸ hcs
  obtain ⟨cs₁, cs₂, rfl, -, hpost⟩ := hsplit.split
  unfold Chains at hpost
  rw [List.filter_cons, if_pos hstart, List.forall₂_cons_left_iff] at hpost
  obtain ⟨cl, cs₃, hcl, -, rfl⟩ := hpost
  rcases hcl.eq_head_or_split (hcl.mem_iff.mpr hreach) with rfl | ⟨xs, u, ys, rfl, hstep⟩
  · exact absurd hstart hnot
  · have hu : u.id = b := Option.some.inj (hstep.base.symm.trans hbase)
    have horder' : (cs₁ ++ (xs ++ u :: v :: ys) :: cs₃).flatten =
        (cs₁.flatten ++ xs ++ [u]) ++ v :: (ys ++ cs₃.flatten) := by simp
    rw [split_unique (hcs.nodup hframe) horder horder', List.getLast?_append]
    exact congrArg some hu

/-- The dots are read as they were meant if and only if the frame is such that they fit. -/
theorem dotsRead_iff (hframe : frame.BasesFirst) (hcs : Chains frame.vecs frame.vecs cs) :
    DotsRead frame.vecs cs.flatten ↔ DotsFit frame.vecs := by
  constructor
  · intro hread pre b c post hvecs hbase hrefs
    have hstart : startsChain frame.vecs c = true := by simpa [startsChain, hbase] using hrefs
    have hvecs' : frame.vecs = (pre ++ [b]) ++ c :: post := by simp [hvecs]
    obtain ⟨cs₁, after, hpre, horder⟩ := hcs.before_start hvecs' hstart
    have hlast := hread _ c after horder b.id hbase (nextOf_append hframe hvecs)
    obtain ⟨s₀, hs₀, -⟩ := exists_start hframe hvecs' (List.mem_append_right pre List.mem_cons_self)
    have hne : (pre ++ [b]).filter (startsChain frame.vecs) ≠ [] := List.ne_nil_of_mem hs₀
    obtain ⟨s, hs⟩ := Option.isSome_iff_exists.mp (List.getLast?_isSome.mpr hne)
    refine ⟨s, hs, ?_⟩
    obtain ⟨cl, hcl, hflat⟩ := hpre.getLast? hs
    obtain ⟨u, hu, -⟩ := hcl.getLast?
    rw [hflat, hu] at hlast
    have hucl : u ∈ cl := List.mem_of_getLast? hu
    have hb : b ∈ frame.vecs := by simp [hvecs]
    have humem : u ∈ frame.vecs := by
      rw [← (hcs.perm hframe).mem_iff, horder]
      apply List.mem_append_left
      rw [← hflat] at hu
      exact List.mem_of_getLast? hu
    obtain rfl := Vec.eq_of_id hframe.ids humem hb (Option.some.inj hlast)
    exact hcl.mem_iff.mp hucl
  · intro hfit before v after horder b hbase hnext
    by_cases hrefs : nVecRefs frame.vecs b = 1
    · exact hcs.before_single hframe horder hbase hrefs
    · obtain ⟨pre, u, w, post, hvecs, rfl, hw⟩ := nextOf_eq_some hnext
      have hv : v ∈ frame.vecs := by
        rw [← (hcs.perm hframe).mem_iff, horder]
        simp
      obtain rfl := Vec.eq_of_id hframe.ids (by simp [hvecs]) hv hw
      have hstart : startsChain frame.vecs w = true := by
        have hbase' : w.base = some u.id := hbase
        simpa [startsChain, hbase'] using hrefs
      obtain ⟨s, hs, hreach⟩ := hfit pre u w post hvecs hbase hrefs
      have hvecs' : frame.vecs = (pre ++ [u]) ++ w :: post := by simp [hvecs]
      obtain ⟨cs₁, after', hpre, horder'⟩ := hcs.before_start hvecs' hstart
      obtain ⟨cl, hcl, hflat⟩ := hpre.getLast? hs
      rw [split_unique (hcs.nodup hframe) horder horder', hflat,
        hcl.eq_getLast (hcl.mem_iff.mpr hreach) hrefs]
      rfl

end Dots

end Openmoko.Fped
