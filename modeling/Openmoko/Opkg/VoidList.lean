import Mathlib.Data.List.Perm.Subperm
import Mathlib.Data.List.Nodup
import Openmoko.Library.NextPointers

/-!
# Lists of pointers (`void_list.c`)

A `void_list_t` has a pointer to its first element, the same pointer once more in the element
`pre_head` in front of it, and a pointer to its last element. The elements are numbered as they are
allocated. What is removed is not freed here.
-/

namespace Openmoko.Opkg

def ENOMEM : ℕ := 12

/-- `head` is `links.first`; `allocated` counts the elements that `calloc` has given out. -/
structure VoidList (D : Type) where
  links : NextLinks ℕ
  preHead : Option ℕ
  tail : Option ℕ
  data : ℕ → Option D
  allocated : ℕ

abbrev VoidIter := Option ℕ

/-- The calls. `calloc` may have no memory for an element. -/
inductive VoidCall (D : Type) where
  | append (memory : Bool) (data : Option D)
  | push (memory : Bool) (data : Option D)
  | pop
  | remove (iter : VoidIter)
  | removeElt (targetData : Option D)

/-- What the calls return; a removal also changes the iterator. -/
inductive VoidResult (D : Type) where
  | status (rc : ℕ)
  | elt (elt : Option ℕ)
  | removed (oldData : Option D) (iter : VoidIter)
  | data (oldData : Option D)

section

variable {D : Type}

def voidListInit : VoidList D where
  links := { first := none, next := fun _ => none }
  preHead := none
  tail := none
  data _ := none
  allocated := 0

namespace VoidList

variable (list : VoidList D)

def head : Option ℕ := list.links.first

def next (elt : ℕ) : Option ℕ := list.links.next elt

def setHead (elt : Option ℕ) : VoidList D :=
  { list with links := { list.links with first := elt } }

def setNext (elt : ℕ) (next : Option ℕ) : VoidList D :=
  { list with links := { list.links with next := Function.update list.links.next elt next } }

def eltInit (elt : ℕ) (data : Option D) : VoidList D :=
  { list.setNext elt none with data := Function.update list.data elt data }

def eltDeinit (elt : ℕ) : VoidList D := list.eltInit elt none

def alloc (data : Option D) : VoidList D :=
  { list.eltInit list.allocated data with allocated := list.allocated + 1 }

end VoidList

def voidListAppend (list : VoidList D) (memory : Bool) (data : Option D) : VoidList D × ℕ :=
  if memory = false then (list, ENOMEM)
  else
    let elt := list.allocated
    let grown := list.alloc data
    match list.tail with
    | some tail => ({ grown.setNext tail (some elt) with tail := some elt }, 0)
    | none =>
      let grown := grown.setHead (some elt)
      ({ grown with preHead := grown.head, tail := some elt }, 0)

def voidListPush (list : VoidList D) (memory : Bool) (data : Option D) :
    Option (VoidList D × ℕ) :=
  if memory = false then some (list, ENOMEM)
  else
    let elt := list.allocated
    let grown := (list.alloc data).setNext elt list.head
    match list.head with
    | none => none
    | some head =>
      let grown := grown.setNext head (some elt)
      some (if grown.tail = none then { grown with tail := grown.head } else grown, 0)

theorem voidListAppend_eq (list : VoidList D) (data : Option D) :
    voidListAppend list true data =
      ({ list.alloc data with
        links := (list.alloc data).links.set list.tail (some list.allocated)
        preHead := if list.tail = none then some list.allocated else list.preHead
        tail := some list.allocated }, 0) := by
  rw [voidListAppend, if_neg nofun]
  cases list.tail <;> rfl

def voidListPop (list : VoidList D) : VoidList D × Option ℕ :=
  match list.head with
  | none => (list, none)
  | some elt =>
    let list := list.setHead (list.next elt)
    let list := { list with preHead := list.head }
    (if list.head = none then { list with tail := none } else list, some elt)

def findPrior (list : VoidList D) (found : ℕ → Bool) : ℕ → Option ℕ → Option (Option ℕ)
  | 0, _ => none
  | _ + 1, none => some none
  | n + 1, some prior =>
    if found prior then some (some prior) else findPrior list found n (list.next prior)

def turns (list : VoidList D) : ℕ := list.allocated + 1

def takeOutBehind (list : VoidList D) (prior oldElt : ℕ) : VoidList D :=
  let list := list.setNext prior (list.next oldElt)
  if list.tail = some oldElt then { list with tail := some prior } else list

def voidListRemove (list : VoidList D) (iter : VoidIter) :
    Option (VoidList D × Option D × VoidIter) :=
  match iter with
  | none =>
    -- no element has `pre_head` behind it
    (findPrior list (fun _ => false) (turns list) list.head).map fun _ => (list, none, iter)
  | some oldElt =>
    let oldData := list.data oldElt
    if list.head = some oldElt then
      some ((voidListPop list).1.eltDeinit oldElt, oldData, none)
    else
      (findPrior list (list.next · == some oldElt) (turns list) list.head).map fun prior =>
        match prior with
        | none => (list, none, iter)
        | some prior => ((takeOutBehind list prior oldElt).eltDeinit oldElt, oldData, some prior)

/-- `elt->data && cmp(elt->data, target_data) == 0` -/
def holdsTarget (cmp : D → D → Bool) (target : D) (list : VoidList D) (elt : ℕ) : Bool :=
  (list.data elt).any (cmp · target)

def voidListRemoveElt (cmp : D → D → Bool) (list : VoidList D) (targetData : Option D) :
    Option (VoidList D × Option D) :=
  match targetData with
  | none => some (list, none)
  | some target =>
    match list.head.filter (holdsTarget cmp target list) with
    | some oldElt => some ((voidListPop list).1.eltDeinit oldElt, list.data oldElt)
    | none =>
      (findPrior list (fun prior => (list.next prior).any (holdsTarget cmp target list))
        (turns list) list.head).map fun prior =>
        match prior, prior.bind list.next with
        | some prior, some oldElt =>
          ((takeOutBehind list prior oldElt).eltDeinit oldElt, list.data oldElt)
        | _, _ => (list, none)

/-- One call; `none` is a null pointer that is written through, or a loop that does not end. -/
def VoidCall.run (cmp : D → D → Bool) (list : VoidList D) :
    VoidCall D → Option (VoidList D × VoidResult D)
  | .append memory data =>
    let (list, rc) := voidListAppend list memory data
    some (list, .status rc)
  | .push memory data => (voidListPush list memory data).map fun (list, rc) => (list, .status rc)
  | .pop =>
    let (list, elt) := voidListPop list
    some (list, .elt elt)
  | .remove iter =>
    (voidListRemove list iter).map fun (list, oldData, iter) => (list, .removed oldData iter)
  | .removeElt targetData =>
    (voidListRemoveElt cmp list targetData).map fun (list, oldData) => (list, .data oldData)

def runCalls (cmp : D → D → Bool) (list : VoidList D) :
    List (VoidCall D) → Option (VoidList D × List (VoidResult D))
  | [] => some (list, [])
  | call :: calls => do
    let (list, result) ← call.run cmp list
    let (list, results) ← runCalls cmp list calls
    return (list, result :: results)

structure Cell (D : Type) where
  elt : ℕ
  data : Option D

structure VoidSeq (D : Type) where
  cells : List (Cell D)
  allocated : ℕ

namespace VoidSeq

def init : VoidSeq D := ⟨[], 0⟩

def elts (seq : VoidSeq D) : List ℕ := seq.cells.map Cell.elt

def newCell (seq : VoidSeq D) (data : Option D) : Cell D := ⟨seq.allocated, data⟩

/-- What the call is to do. A removal takes out the first element that is meant, and an iterator is
left on the element in front of it. -/
def apply (cmp : D → D → Bool) (seq : VoidSeq D) : VoidCall D → VoidSeq D × VoidResult D
  | .append memory data =>
    if memory = false then (seq, .status ENOMEM)
    else (⟨seq.cells ++ [seq.newCell data], seq.allocated + 1⟩, .status 0)
  | .push memory data =>
    if memory = false then (seq, .status ENOMEM)
    else (⟨seq.newCell data :: seq.cells, seq.allocated + 1⟩, .status 0)
  | .pop => ({ seq with cells := seq.cells.tail }, .elt (seq.cells.head?.map Cell.elt))
  | .remove iter =>
    let meant := fun cell : Cell D => some cell.elt == iter
    match seq.cells.find? meant with
    | none => (seq, .removed none iter)
    | some cell =>
      ({ seq with cells := seq.cells.eraseP meant },
        .removed cell.data ((seq.cells.takeWhile (!meant ·)).getLast?.map Cell.elt))
  | .removeElt targetData =>
    let meant := fun cell : Cell D => targetData.any fun target => cell.data.any (cmp · target)
    ({ seq with cells := seq.cells.eraseP meant },
      .data ((seq.cells.find? meant).bind Cell.data))

def applyAll (cmp : D → D → Bool) (seq : VoidSeq D) :
    List (VoidCall D) → VoidSeq D × List (VoidResult D)
  | [] => (seq, [])
  | call :: calls =>
    let (seq, result) := seq.apply cmp call
    let (seq, results) := applyAll cmp seq calls
    (seq, result :: results)

end VoidSeq

/-- From `head` the elements are those of the sequence, and `tail` points to the last of them or is
NULL. -/
structure VoidList.Refines (list : VoidList D) (seq : VoidSeq D) : Prop where
  linked : Linked list.links.next list.head seq.elts
  preHead : list.preHead = list.head
  tail : list.tail = seq.elts.getLast?
  data : ∀ cell ∈ seq.cells, list.data cell.elt = cell.data
  allocated : list.allocated = seq.allocated
  nodup : seq.elts.Nodup
  fresh : ∀ elt ∈ seq.elts, elt < seq.allocated

/-- The call adds an element in front. -/
def VoidCall.Pushes (call : VoidCall D) : Prop := ∃ data, call = .push true data

/-- The calls end, leave the elements of the sequence and return what it does. -/
def FollowsSeq (cmp : D → D → Bool) (list : VoidList D) (seq : VoidSeq D)
    (calls : List (VoidCall D)) : Prop :=
  ∃ list' results, runCalls cmp list calls = some (list', results) ∧
    list'.Refines (seq.applyAll cmp calls).1 ∧ results = (seq.applyAll cmp calls).2

section Loops

variable {list : VoidList D} {p : Option ℕ} {l : List ℕ} {found : ℕ → Bool}

theorem findPrior_eq (hlinked : Linked list.links.next p l) {n : ℕ} (hn : l.length < n) :
    findPrior list found n p = some (l.find? found) := by
  induction l generalizing p n with
  | nil =>
    obtain rfl : p = none := hlinked
    cases n with
    | zero => exact absurd hn (Nat.not_lt_zero _)
    | succ n => rfl
  | cons elt l ih =>
    obtain ⟨rfl, hrest⟩ := hlinked
    cases n with
    | zero => exact absurd hn (Nat.not_lt_zero _)
    | succ n =>
      rw [findPrior, List.find?_cons]
      cases found elt with
      | true => rfl
      | false => exact ih hrest (Nat.lt_of_succ_lt_succ hn)

variable {next : ℕ → Option ℕ} {q : ℕ → Bool}

theorem next_beq (next : ℕ → Option ℕ) (elt : ℕ) :
    (fun prior => next prior == some elt) = fun prior => (next prior).any (· == elt) := by
  funext prior
  cases next prior <;> rfl

theorem find?_behind {init after : List ℕ} {prior elt : ℕ}
    (hlinked : Linked next p (init ++ prior :: elt :: after))
    (hbefore : ∀ a ∈ init ++ [prior], q a = false) (helt : q elt = true) :
    (init ++ prior :: elt :: after).find? (fun a => (next a).any q) = some prior := by
  induction init generalizing p with
  | nil =>
    obtain ⟨-, hnext, -⟩ := hlinked
    rw [List.nil_append, List.find?_cons, hnext, Option.any_some, helt]
  | cons a init ih =>
    obtain ⟨-, hrest⟩ := hlinked
    have hmore : ∀ b ∈ init ++ [prior], q b = false := fun b hb =>
      hbefore b (List.mem_cons_of_mem a hb)
    have hnext : (next a).any q = false := by
      cases init with
      | nil =>
        rw [hrest.1, Option.any_some]
        exact hmore prior List.mem_cons_self
      | cons b init =>
        rw [hrest.1, Option.any_some]
        exact hmore b List.mem_cons_self
    rw [List.cons_append, List.find?_cons, hnext]
    exact ih hrest hmore

theorem find?_behind_none (hlinked : Linked next p l) (hnone : ∀ a ∈ l.tail, q a = false) :
    l.find? (fun a => (next a).any q) = none := by
  induction l generalizing p with
  | nil => rfl
  | cons a l ih =>
    obtain ⟨-, hrest⟩ := hlinked
    have hnext : (next a).any q = false := by
      cases l with
      | nil => rw [show next a = none from hrest, Option.any_none]
      | cons b l => rw [hrest.1, Option.any_some, hnone b List.mem_cons_self]
    rw [List.find?_cons, hnext]
    exact ih hrest fun b hb => hnone b (List.mem_of_mem_tail hb)

end Loops

/-! ### What a call leaves -/

namespace VoidList.Refines

variable {list list' : VoidList D} {seq : VoidSeq D} {before after cells : List (Cell D)}
  {cell prior : Cell D} {elt : ℕ} {data : Option D}

theorem length_lt (h : list.Refines seq) : seq.elts.length < turns list := by
  have hsub : seq.elts ⊆ List.range seq.allocated := fun elt helt =>
    List.mem_range.mpr (h.fresh elt helt)
  have hle := (h.nodup.subperm hsub).length_le
  rw [List.length_range] at hle
  rw [turns, h.allocated]
  exact Nat.lt_succ_of_le hle

theorem findPrior_eq (h : list.Refines seq) (found : ℕ → Bool) :
    findPrior list found (turns list) list.head = some (seq.elts.find? found) :=
  Opkg.findPrior_eq h.linked h.length_lt

theorem head_eq (h : list.Refines seq) : list.head = seq.elts.head? := by
  have hlinked := h.linked
  cases helts : seq.elts with
  | nil =>
    rw [helts] at hlinked
    exact hlinked
  | cons elt elts =>
    rw [helts] at hlinked
    exact hlinked.1

theorem alloc_notMem (h : list.Refines seq) : list.allocated ∉ seq.elts := fun hmem =>
  absurd (h.fresh _ hmem) (by rw [h.allocated]; exact Nat.lt_irrefl _)

theorem append (h : list.Refines seq) (data : Option D) :
    (voidListAppend list true data).1.Refines
      ⟨seq.cells ++ [seq.newCell data], seq.allocated + 1⟩ := by
  have hnew := h.alloc_notMem
  have helts : (⟨seq.cells ++ [seq.newCell data], seq.allocated + 1⟩ : VoidSeq D).elts =
      seq.elts ++ [list.allocated] := by
    rw [VoidSeq.elts, List.map_append, h.allocated]
    rfl
  rw [voidListAppend_eq]
  refine ⟨?_, ?_, ?_, ?_, ?_, ?_, ?_⟩
  · rw [helts, VoidList.head, h.tail]
    have hbefore : Segment (list.alloc data).links.next (list.alloc data).links.first seq.elts
        none := h.linked.update hnew none
    refine segment_append.mpr ⟨_, hbefore.set_last h.nodup _, rfl, ?_⟩
    change ((list.alloc data).links.set seq.elts.getLast? (some list.allocated)).next
      list.allocated = none
    cases hlast : seq.elts.getLast? with
    | none => exact Function.update_self ..
    | some last =>
      have hne : list.allocated ≠ last := by
        rintro rfl
        exact hnew (List.mem_of_getLast? hlast)
      exact (Function.update_of_ne hne ..).trans (Function.update_self ..)
  · have hpreHead := h.preHead
    cases list.tail with
    | none => rfl
    | some tail => exact hpreHead
  · rw [helts, List.getLast?_append]
    rfl
  · intro cell hcell
    change Function.update list.data list.allocated data cell.elt = cell.data
    rcases List.mem_append.mp hcell with hcell | hcell
    · have hne : cell.elt ≠ list.allocated := by
        intro heq
        exact hnew (heq ▸ List.mem_map_of_mem hcell)
      rw [Function.update_of_ne hne, h.data cell hcell]
    · rw [List.mem_singleton.mp hcell, VoidSeq.newCell, ← h.allocated, Function.update_self]
  · exact congrArg (· + 1) h.allocated
  · rw [helts, List.nodup_append]
    refine ⟨h.nodup, List.nodup_singleton _, fun a ha b hb heq => ?_⟩
    rw [List.mem_singleton] at hb
    exact hnew (hb ▸ heq ▸ ha)
  · intro elt helt
    rw [helts, List.mem_append, List.mem_singleton, h.allocated] at helt
    rcases helt with helt | rfl
    · exact Nat.lt_succ_of_lt (h.fresh elt helt)
    · exact Nat.lt_succ_self _

theorem takeOut (h : list.Refines seq) (hcells : seq.cells = before ++ cell :: after)
    (hlinks : list'.links = list.links.set (before.map Cell.elt).getLast? (list.next cell.elt))
    (hpreHead : list'.preHead = list'.head)
    (htail : list'.tail = ((before ++ after).map Cell.elt).getLast?)
    (hdata : list'.data = list.data) (hallocated : list'.allocated = list.allocated) :
    list'.Refines { seq with cells := before ++ after } := by
  have helts : seq.elts = before.map Cell.elt ++ cell.elt :: after.map Cell.elt := by
    rw [VoidSeq.elts, hcells, List.map_append, List.map_cons]
  have hsub : (before ++ after).Sublist seq.cells := by
    rw [hcells]
    exact (List.Sublist.refl before).append (List.sublist_cons_self cell after)
  have hnodup := h.nodup
  have hlinked := h.linked
  rw [helts] at hnodup hlinked
  obtain ⟨p, hbefore, rfl, hafter⟩ := segment_append.mp hlinked
  obtain ⟨hnodupBefore, -, hdisjoint⟩ := List.nodup_append.mp hnodup
  refine ⟨?_, hpreHead, htail, ?_, ?_, ?_, ?_⟩
  · rw [VoidList.head, hlinks, VoidSeq.elts, List.map_append]
    refine segment_append.mpr ⟨_, hbefore.set_last hnodupBefore _, hafter.set ?_ _⟩
    intro a ha hmem
    exact hdisjoint a (List.mem_of_getLast? ha) a (List.mem_cons_of_mem cell.elt hmem) rfl
  · intro cell hcell
    rw [hdata]
    exact h.data cell (hsub.subset hcell)
  · exact hallocated.trans h.allocated
  · exact (hsub.map Cell.elt).nodup h.nodup
  · exact fun elt helt => h.fresh elt ((hsub.map Cell.elt).subset helt)

theorem eltDeinit (h : list.Refines seq) (helt : elt ∉ seq.elts) :
    (list.eltDeinit elt).Refines seq where
  linked := h.linked.update helt none
  preHead := h.preHead
  tail := h.tail
  data cell hcell := by
    have hne : cell.elt ≠ elt := fun heq => helt (heq ▸ List.mem_map_of_mem hcell)
    exact (Function.update_of_ne hne ..).trans (h.data cell hcell)
  allocated := h.allocated
  nodup := h.nodup
  fresh := h.fresh

theorem head_cons (h : list.Refines seq) (hcells : seq.cells = cell :: cells) :
    list.head = some cell.elt := by
  rw [h.head_eq, VoidSeq.elts, hcells, List.map_cons, List.head?_cons]

theorem next_eq (h : list.Refines seq) (hcells : seq.cells = before ++ cell :: after) :
    list.next cell.elt = (after.map Cell.elt).head? := by
  have hlinked := h.linked
  rw [VoidSeq.elts, hcells, List.map_append, List.map_cons] at hlinked
  obtain ⟨_, -, -, hafter⟩ := segment_append.mp hlinked
  cases after with
  | nil => exact hafter
  | cons cell after => exact hafter.1

theorem tail_eq (h : list.Refines seq) (hcells : seq.cells = before ++ cell :: after) :
    list.tail = if after = [] then some cell.elt else (after.map Cell.elt).getLast? := by
  rw [h.tail, VoidSeq.elts, hcells, List.map_append, List.map_cons, List.getLast?_append,
    List.getLast?_cons]
  cases after with
  | nil => rfl
  | cons cell after =>
    rw [if_neg (List.cons_ne_nil cell after), List.map_cons, List.getLast?_cons]
    rfl

theorem pop (h : list.Refines seq) (hcells : seq.cells = cell :: cells) :
    (voidListPop list).1.Refines { seq with cells := cells } := by
  have hhead := h.head_cons hcells
  have hsplit : seq.cells = [] ++ cell :: cells := hcells
  have hnext : list.next cell.elt = (cells.map Cell.elt).head? := h.next_eq hsplit
  have htail := h.tail_eq hsplit
  refine h.takeOut hsplit ?_ ?_ ?_ ?_ ?_ <;> rw [voidListPop, hhead]
  · change (if list.next cell.elt = none then _ else _ : VoidList D).links = _
    split <;> rfl
  · change (if list.next cell.elt = none then _ else _ : VoidList D).preHead =
      (if list.next cell.elt = none then _ else _ : VoidList D).links.first
    split <;> rfl
  · change (if list.next cell.elt = none then _ else _ : VoidList D).tail = _
    rw [hnext]
    cases cells with
    | nil => rfl
    | cons cell cells => exact htail
  · change (if list.next cell.elt = none then _ else _ : VoidList D).data = _
    split <;> rfl
  · change (if list.next cell.elt = none then _ else _ : VoidList D).allocated = _
    split <;> rfl

theorem takeOutBehind (h : list.Refines seq)
    (hcells : seq.cells = before ++ prior :: cell :: after) :
    (takeOutBehind list prior.elt cell.elt).Refines
      { seq with cells := before ++ prior :: after } := by
  have hbehind : seq.cells = (before ++ [prior]) ++ cell :: after := by
    rw [hcells, List.append_cons]
  have htail := h.tail_eq hbehind
  rw [List.append_cons]
  refine h.takeOut hbehind ?_ ?_ ?_ ?_ ?_ <;> rw [Opkg.takeOutBehind]
  · rw [List.map_append, List.map_singleton, List.getLast?_append, List.getLast?_singleton]
    split <;> rfl
  · have hpreHead := h.preHead
    split <;> exact hpreHead
  · change (if list.tail = some cell.elt then _ else _ : VoidList D).tail = _
    rw [htail]
    cases after with
    | nil =>
      rw [if_pos rfl, if_pos rfl, List.append_nil, List.map_append, List.getLast?_append]
      rfl
    | cons next after =>
      rw [if_neg (List.cons_ne_nil next after)]
      have hne : (List.map Cell.elt (next :: after)).getLast? ≠ some cell.elt := by
        intro heq
        have hnodup := h.nodup
        rw [VoidSeq.elts, hbehind, List.map_append] at hnodup
        exact (List.nodup_cons.mp (List.nodup_append.mp hnodup).2.1).1 (List.mem_of_getLast? heq)
      rw [if_neg (List.cons_ne_nil next after)] at htail
      rw [if_neg hne, List.map_append, List.getLast?_append]
      exact htail.trans (by rw [List.map_cons, List.getLast?_cons]; rfl)
  · split <;> rfl
  · split <;> rfl

theorem notMem_without (h : list.Refines seq) (hcells : seq.cells = before ++ cell :: after) :
    cell.elt ∉ ({ seq with cells := before ++ after } : VoidSeq D).elts := by
  have hnodup := h.nodup
  rw [VoidSeq.elts, hcells, List.map_append, List.map_cons] at hnodup
  rw [VoidSeq.elts, List.map_append]
  exact (List.nodup_cons.mp (List.nodup_middle.mp hnodup)).1

theorem linked_split (h : list.Refines seq)
    (hcells : seq.cells = before ++ prior :: cell :: after) :
    Linked list.links.next list.head
      (before.map Cell.elt ++ prior.elt :: cell.elt :: after.map Cell.elt) := by
  have hlinked := h.linked
  rwa [VoidSeq.elts, hcells, List.map_append, List.map_cons, List.map_cons] at hlinked

theorem head_behind (h : list.Refines seq) (hcells : seq.cells = before ++ prior :: cell :: after) :
    ∃ first ∈ before ++ [prior], list.head = some first.elt := by
  cases before with
  | nil => exact ⟨prior, List.mem_singleton_self prior, h.head_cons hcells⟩
  | cons first before => exact ⟨first, List.mem_cons_self, h.head_cons hcells⟩

theorem remove (h : list.Refines seq) (hcells : seq.cells = before ++ cell :: after) :
    ∃ list', voidListRemove list (some cell.elt) =
        some (list', cell.data, before.getLast?.map Cell.elt) ∧
      list'.Refines { seq with cells := before ++ after } := by
  have hdata : list.data cell.elt = cell.data :=
    h.data cell (hcells ▸ List.mem_append_right before List.mem_cons_self)
  have hgone := h.notMem_without hcells
  rcases before.eq_nil_or_concat' with rfl | ⟨init, prior, rfl⟩
  · refine ⟨(voidListPop list).1.eltDeinit cell.elt, ?_, (h.pop hcells).eltDeinit hgone⟩
    rw [voidListRemove, if_pos (h.head_cons hcells), hdata]
    rfl
  · rw [← List.append_cons] at hcells
    have hne : ∀ other ∈ init ++ [prior], other.elt ≠ cell.elt := fun other hother heq =>
      hgone (List.mem_map.mpr ⟨other, List.mem_append_left after hother, heq⟩)
    have hhead : list.head ≠ some cell.elt := by
      obtain ⟨first, hfirst, hhead⟩ := h.head_behind hcells
      rw [hhead]
      exact fun heq => hne first hfirst (Option.some.inj heq)
    have hfound : findPrior list (list.next · == some cell.elt) (turns list) list.head =
        some (some prior.elt) := by
      rw [h.findPrior_eq, next_beq, VoidSeq.elts, hcells, List.map_append]
      refine congrArg some
        (find?_behind (h.linked_split hcells) (fun a ha => ?_) (beq_self_eq_true _))
      rw [← List.map_singleton, ← List.map_append] at ha
      obtain ⟨other, hother, rfl⟩ := List.mem_map.mp ha
      exact beq_false_of_ne (hne other hother)
    rw [← List.append_cons] at hgone ⊢
    refine ⟨(Opkg.takeOutBehind list prior.elt cell.elt).eltDeinit cell.elt, ?_,
      (h.takeOutBehind hcells).eltDeinit hgone⟩
    rw [voidListRemove, if_neg hhead, hfound, hdata, List.getLast?_append]
    rfl

theorem remove_missing (h : list.Refines seq) {iter : VoidIter}
    (hmissing : ∀ cell ∈ seq.cells, some cell.elt ≠ iter) :
    voidListRemove list iter = some (list, none, iter) := by
  cases iter with
  | none => rw [voidListRemove, h.findPrior_eq]; rfl
  | some oldElt =>
    have hnotMem : oldElt ∉ seq.elts := by
      intro hmem
      obtain ⟨cell, hcell, rfl⟩ := List.mem_map.mp hmem
      exact hmissing cell hcell rfl
    have hhead : list.head ≠ some oldElt := by
      rw [h.head_eq]
      exact fun heq => hnotMem (List.mem_of_head? heq)
    have hfound : findPrior list (list.next · == some oldElt) (turns list) list.head =
        some none := by
      rw [h.findPrior_eq, next_beq]
      refine congrArg some (find?_behind_none h.linked fun a ha => beq_false_of_ne ?_)
      rintro rfl
      exact hnotMem (List.mem_of_mem_tail ha)
    rw [voidListRemove, if_neg hhead, hfound]
    rfl

variable {cmp : D → D → Bool} {target : D}

theorem holdsTarget_eq (h : list.Refines seq) (hcell : cell ∈ seq.cells) :
    holdsTarget cmp target list cell.elt = cell.data.any (cmp · target) := by
  rw [holdsTarget, h.data cell hcell]

theorem removeElt (h : list.Refines seq) (hcells : seq.cells = before ++ cell :: after)
    (hmeant : cell.data.any (cmp · target) = true)
    (hbefore : ∀ other ∈ before, other.data.any (cmp · target) = false) :
    ∃ list', voidListRemoveElt cmp list (some target) = some (list', cell.data) ∧
      list'.Refines { seq with cells := before ++ after } := by
  have hcell : cell ∈ seq.cells := hcells ▸ List.mem_append_right before List.mem_cons_self
  have hholds : holdsTarget cmp target list cell.elt = true := (h.holdsTarget_eq hcell).trans hmeant
  have hdata : list.data cell.elt = cell.data := h.data cell hcell
  have hgone := h.notMem_without hcells
  rcases before.eq_nil_or_concat' with rfl | ⟨init, prior, rfl⟩
  · refine ⟨(voidListPop list).1.eltDeinit cell.elt, ?_, (h.pop hcells).eltDeinit hgone⟩
    rw [← hdata, voidListRemoveElt, h.head_cons hcells, Option.filter_some, if_pos hholds]
  · have hother : ∀ other ∈ init ++ [prior], holdsTarget cmp target list other.elt = false :=
      fun other hother => (h.holdsTarget_eq (hcells ▸ List.mem_append_left _ hother)).trans
        (hbefore other hother)
    rw [← List.append_cons] at hcells
    have hhead : list.head.filter (holdsTarget cmp target list) = none := by
      obtain ⟨first, hfirst, hhead⟩ := h.head_behind hcells
      rw [hhead, Option.filter_some, if_neg (by rw [hother first hfirst]; exact nofun)]
    have hfound : findPrior list (fun prior => (list.next prior).any (holdsTarget cmp target list))
        (turns list) list.head = some (some prior.elt) := by
      rw [h.findPrior_eq, VoidSeq.elts, hcells, List.map_append]
      refine congrArg some (find?_behind (h.linked_split hcells) (fun a ha => ?_) hholds)
      rw [← List.map_singleton, ← List.map_append] at ha
      obtain ⟨other, hmem, rfl⟩ := List.mem_map.mp ha
      exact hother other hmem
    have hnext : list.next prior.elt = some cell.elt := h.next_eq hcells
    rw [← List.append_cons] at hgone ⊢
    refine ⟨(Opkg.takeOutBehind list prior.elt cell.elt).eltDeinit cell.elt, ?_,
      (h.takeOutBehind hcells).eltDeinit hgone⟩
    rw [← hdata, voidListRemoveElt, hhead, hfound, Option.map_some, Option.bind_some, hnext]

theorem removeElt_missing (h : list.Refines seq)
    (hmissing : ∀ cell ∈ seq.cells, cell.data.any (cmp · target) = false) :
    voidListRemoveElt cmp list (some target) = some (list, none) := by
  have hother : ∀ elt ∈ seq.elts, holdsTarget cmp target list elt = false := by
    intro elt helt
    obtain ⟨cell, hcell, rfl⟩ := List.mem_map.mp helt
    exact (h.holdsTarget_eq hcell).trans (hmissing cell hcell)
  have hhead : list.head.filter (holdsTarget cmp target list) = none := by
    rw [h.head_eq, Option.filter_eq_none_iff]
    intro elt helt
    rw [hother elt (List.mem_of_head? helt)]
    exact nofun
  have hfound : findPrior list (fun prior => (list.next prior).any (holdsTarget cmp target list))
      (turns list) list.head = some none := by
    rw [h.findPrior_eq]
    exact congrArg some (find?_behind_none h.linked fun a ha => hother a (List.mem_of_mem_tail ha))
  rw [voidListRemoveElt, hhead, hfound]
  rfl

theorem find?_cases (meant : Cell D → Bool) (l : List (Cell D)) :
    (∃ before cell after, l = before ++ cell :: after ∧ meant cell = true ∧
        (∀ other ∈ before, meant other = false) ∧ l.find? meant = some cell ∧
        l.eraseP meant = before ++ after ∧ l.takeWhile (!meant ·) = before) ∨
      (∀ cell ∈ l, meant cell = false) ∧ l.find? meant = none ∧ l.eraseP meant = l := by
  cases hfind : l.find? meant with
  | none =>
    have hnone := List.find?_eq_none.mp hfind
    refine .inr ⟨fun cell hcell => Bool.eq_false_iff.mpr (hnone cell hcell), rfl, ?_⟩
    exact List.eraseP_of_forall_not hnone
  | some cell =>
    obtain ⟨hmeant, before, after, rfl, hbefore⟩ := List.find?_eq_some_iff_append.mp hfind
    have hfalse : ∀ other ∈ before, meant other = false := fun other hother =>
      (Bool.not_eq_true' _).mp (hbefore other hother)
    refine .inl ⟨before, cell, after, rfl, hmeant, hfalse, rfl, ?_, ?_⟩
    · rw [List.eraseP_append_right _ fun other hother => Bool.eq_false_iff.mp (hfalse other hother),
        List.eraseP_cons_of_pos hmeant]
    · rw [List.takeWhile_append_of_pos hbefore, List.takeWhile_cons_of_neg, List.append_nil]
      rw [hmeant]
      exact nofun

/-- **One call** that does not push does to the elements what it does to the sequence. -/
theorem run (h : list.Refines seq) {call : VoidCall D} (hcall : ¬call.Pushes) :
    ∃ list', call.run cmp list = some (list', (seq.apply cmp call).2) ∧
      list'.Refines (seq.apply cmp call).1 := by
  cases call with
  | append memory data =>
    cases memory with
    | false => exact ⟨list, rfl, h⟩
    | true =>
      refine ⟨_, ?_, h.append data⟩
      rw [VoidCall.run, voidListAppend_eq]
      rfl
  | push memory data =>
    cases memory with
    | false => exact ⟨list, rfl, h⟩
    | true => exact absurd ⟨data, rfl⟩ hcall
  | pop =>
    cases hcells : seq.cells with
    | nil =>
      have hhead : list.head = none := by rw [h.head_eq, VoidSeq.elts, hcells]; rfl
      refine ⟨list, ?_, ?_⟩
      · rw [VoidCall.run, voidListPop, hhead, VoidSeq.apply, hcells]
        rfl
      · rw [VoidSeq.apply, hcells, List.tail_nil, ← hcells]
        exact h
    | cons cell cells =>
      refine ⟨(voidListPop list).1, ?_, ?_⟩
      · rw [VoidCall.run, VoidSeq.apply, hcells, voidListPop, h.head_cons hcells]
        rfl
      · rw [VoidSeq.apply, hcells]
        exact h.pop hcells
  | remove iter =>
    rcases find?_cases (fun cell : Cell D => some cell.elt == iter) seq.cells with
      ⟨before, cell, after, hcells, hmeant, -, hfind, herase, htake⟩ | ⟨hmissing, hfind, -⟩
    · obtain rfl := eq_of_beq hmeant
      obtain ⟨list', hrun, hrefines⟩ := h.remove hcells
      refine ⟨list', ?_, ?_⟩
      · rw [VoidCall.run, hrun, VoidSeq.apply, hfind, htake]
        rfl
      · rw [VoidSeq.apply, hfind, herase]
        exact hrefines
    · refine ⟨list, ?_, ?_⟩
      · rw [VoidCall.run, VoidSeq.apply, hfind,
          h.remove_missing fun cell hcell => ne_of_beq_false (hmissing cell hcell)]
        rfl
      · rw [VoidSeq.apply, hfind]
        exact h
  | removeElt targetData =>
    cases targetData with
    | none =>
      have hfind : seq.cells.find? (fun _ => false) = none :=
        List.find?_eq_none.mpr fun _ _ => Bool.false_ne_true
      have herase : seq.cells.eraseP (fun _ => false) = seq.cells :=
        List.eraseP_of_forall_not fun _ _ => Bool.false_ne_true
      refine ⟨list, ?_, ?_⟩
      · simp only [VoidSeq.apply, Option.any_none, hfind]
        rfl
      · simp only [VoidSeq.apply, Option.any_none, herase]
        exact h
    | some target =>
      rcases find?_cases (fun cell : Cell D => cell.data.any (cmp · target)) seq.cells with
        ⟨before, cell, after, hcells, hmeant, hbefore, hfind, herase, -⟩ | ⟨hmissing, hfind, herase⟩
      · obtain ⟨list', hrun, hrefines⟩ := h.removeElt hcells hmeant hbefore
        refine ⟨list', ?_, ?_⟩
        · simp only [VoidCall.run, hrun, VoidSeq.apply, Option.any_some, hfind]
          rfl
        · simp only [VoidSeq.apply, Option.any_some, herase]
          exact hrefines
      · refine ⟨list, ?_, ?_⟩
        · simp only [VoidCall.run, h.removeElt_missing hmissing, VoidSeq.apply, Option.any_some,
            hfind]
          rfl
        · simp only [VoidSeq.apply, Option.any_some, herase]
          exact h

/-- **A push never does**: the list has no element to write to, or its head stays where it is. -/
theorem not_push (h : list.Refines seq) {call : VoidCall D} (hcall : call.Pushes)
    {result : VoidResult D} (hrun : call.run cmp list = some (list', result)) :
    ¬list'.Refines (seq.apply cmp call).1 := by
  obtain ⟨data, rfl⟩ := hcall
  intro hpushed
  have hhead : list'.head = some seq.allocated := hpushed.head_cons rfl
  rw [VoidCall.run, voidListPush, if_neg nofun] at hrun
  cases hfirst : list.head with
  | none =>
    rw [hfirst] at hrun
    cases hrun
  | some first =>
    have hfresh := h.fresh first (List.mem_of_head? (h.head_eq.symm.trans hfirst))
    have hkept : list'.head = some first := by
      rw [hfirst] at hrun
      obtain rfl := congrArg Prod.fst (Option.some.inj hrun)
      rw [← hfirst]
      change (if list.tail = none then _ else _ : VoidList D).head = _
      split <;> rfl
    rw [hkept] at hhead
    exact absurd hfresh (by rw [Option.some.inj hhead]; exact Nat.lt_irrefl _)

end VoidList.Refines

variable {list : VoidList D} {seq : VoidSeq D} {cmp : D → D → Bool} {calls : List (VoidCall D)}

theorem refines_init : (voidListInit : VoidList D).Refines VoidSeq.init where
  linked := rfl
  preHead := rfl
  tail := rfl
  data := nofun
  allocated := rfl
  nodup := List.nodup_nil
  fresh := nofun

theorem followsSeq_nil (h : list.Refines seq) : FollowsSeq cmp list seq [] :=
  ⟨list, [], rfl, h, rfl⟩

theorem followsSeq_cons (h : list.Refines seq) {call : VoidCall D} (hcall : ¬call.Pushes) :
    ∃ list', list'.Refines (seq.apply cmp call).1 ∧ ∀ calls,
      FollowsSeq cmp list seq (call :: calls) ↔
        FollowsSeq cmp list' (seq.apply cmp call).1 calls := by
  obtain ⟨list', hrun, hrefines⟩ := h.run hcall
  refine ⟨list', hrefines, fun calls => ⟨?_, ?_⟩⟩
  · rintro ⟨last, results, hruns, hlast, hresults⟩
    rw [runCalls, hrun] at hruns
    obtain ⟨_, hfirst, hrests⟩ := Option.bind_eq_some_iff.mp hruns
    cases hfirst
    obtain ⟨⟨rest, more⟩, hrest, heq⟩ := Option.bind_eq_some_iff.mp hrests
    obtain ⟨rfl, rfl⟩ := Prod.mk.inj (Option.some.inj heq)
    exact ⟨_, more, hrest, hlast, (List.cons.inj hresults).2⟩
  · rintro ⟨last, results, hruns, hlast, hresults⟩
    refine ⟨last, (seq.apply cmp call).2 :: results, ?_, hlast, congrArg _ hresults⟩
    exact Option.bind_eq_some_iff.mpr ⟨_, hrun, Option.bind_eq_some_iff.mpr ⟨_, hruns, rfl⟩⟩

theorem follows_of_no_push (h : list.Refines seq) (hcalls : ∀ call ∈ calls, ¬call.Pushes) :
    FollowsSeq cmp list seq calls := by
  induction calls generalizing list seq with
  | nil => exact followsSeq_nil h
  | cons call calls ih =>
    obtain ⟨list', hrefines, hiff⟩ := followsSeq_cons h (hcalls call List.mem_cons_self)
    exact (hiff calls).mpr (ih hrefines fun other hother =>
      hcalls other (List.mem_cons_of_mem call hother))

theorem no_push_of_follows (h : list.Refines seq)
    (hfollows : ∀ before, before <+: calls → FollowsSeq cmp list seq before) :
    ∀ call ∈ calls, ¬call.Pushes := by
  induction calls generalizing list seq with
  | nil => exact nofun
  | cons call calls ih =>
    have hcall : ¬call.Pushes := by
      intro hpush
      obtain ⟨list', results, hruns, hrefines, -⟩ :=
        hfollows [call] (List.prefix_append [call] calls)
      obtain ⟨⟨next, result⟩, hrun, hrest⟩ := Option.bind_eq_some_iff.mp hruns
      cases hrest
      exact h.not_push hpush hrun hrefines
    obtain ⟨list', hrefines, hiff⟩ := followsSeq_cons h hcall
    refine List.forall_mem_cons.mpr ⟨hcall, ih hrefines fun before hbefore => ?_⟩
    exact (hiff before).mp (hfollows (call :: before) (List.cons_prefix_cons.mpr ⟨rfl, hbefore⟩))

/-- **A list refines a sequence** exactly as long as nothing is pushed: after each call the elements
from `head` on are those of the sequence, and `tail` is at the last of them. -/
theorem runCalls_refines_iff (cmp : D → D → Bool) (calls : List (VoidCall D)) :
    (∀ before, before <+: calls → FollowsSeq cmp voidListInit VoidSeq.init before) ↔
      ∀ call ∈ calls, ¬call.Pushes := by
  constructor
  · exact no_push_of_follows refines_init
  · intro hcalls before hbefore
    exact follows_of_no_push refines_init fun call hcall => hcalls call (hbefore.subset hcall)

/-- Two elements are appended, and one is to come in front of them. -/
def pushedCalls : List (VoidCall ℕ) :=
  [.append true (some 1), .append true (some 2), .push true (some 3)]

/-- The element that is pushed comes behind the first one and points back to it. -/
theorem runCalls_not_refines_push :
    ¬∀ before, before <+: pushedCalls → FollowsSeq (· == ·) voidListInit VoidSeq.init before := by
  intro hfollows
  obtain ⟨list', results, hruns, hrefines, -⟩ := hfollows pushedCalls (List.prefix_refl _)
  have hhead : list'.head = some 2 := hrefines.linked.1
  cases hruns
  exact absurd hhead (by decide)

end

end Openmoko.Opkg
