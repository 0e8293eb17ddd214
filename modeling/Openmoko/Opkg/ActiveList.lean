import Openmoko.Library.Ring

/-!
# Active lists (`active_list.c`, `list.h`)

An active list threads a forest through its nodes: every node is linked into the ring of the head
or into the depend ring of the node that it is a depend of, and points back to that node. The heap
keeps both list heads and the back pointer of every `struct active_list`.
-/

namespace Openmoko.Opkg

/-- The addresses of the two `struct list_head`s in a `struct active_list`. -/
inductive ListHead (N : Type) where
  | node (x : N)
  | depend (x : N)
  deriving DecidableEq, Repr

namespace ListHead

variable {N : Type}

def owner : ListHead N → N
  | node x => x
  | depend x => x

end ListHead

section ListFunctions

variable {A : Type} [DecidableEq A]

variable (l : Links A)

def initListHead (ptr : A) : Links A where
  next := Function.update l.next ptr ptr
  prev := Function.update l.prev ptr ptr

def listInsert (new prev next : A) : Links A where
  next := Function.update (Function.update l.next new next) prev new
  prev := Function.update (Function.update l.prev next new) new prev

def listJoin (prev next : A) : Links A where
  next := Function.update l.next prev next
  prev := Function.update l.prev next prev

def listAddTail (new head : A) : Links A :=
  listInsert l new (l.prev head) head

def listDelInit (entry : A) : Links A :=
  initListHead (listJoin l (l.prev entry) (l.next entry)) entry

@[simp]
theorem listAddTail_eq
    (new head : A) : listAddTail l new head = l.linkBefore new head :=
  rfl

@[simp]
theorem listDelInit_eq (entry : A) : listDelInit l entry = l.unlink entry := rfl

end ListFunctions

structure ActiveHeap (N : Type) where
  links : Links (ListHead N)
  depended : N → Option N

variable {N : Type}

def activeListInit : ActiveHeap N where
  links := Links.selfLinked
  depended _ := none

/-- `struct active_list` begins with its `node`, so `list_entry` only changes the type of a pointer:
a `struct active_list *` is `NULL` or the address of a list head, which is a structure's `node`
when the pointer is a good one. -/
abbrev ActivePtr (N : Type) := Option (ListHead N)

inductive ActiveFault where
  | notAStruct
  | outOfFuel
  deriving DecidableEq, Repr

def structAt : ListHead N → Except ActiveFault N
  | .node x => .ok x
  | .depend _ => .error .notAStruct

section Functions

variable [DecidableEq N]

variable (h : ActiveHeap N)

def activeListAdd (head node : N) : ActiveHeap N where
  links := listAddTail (listDelInit h.links (.node node)) (.node node) (.node head)
  depended := Function.update h.depended node (some head)

def activeListAddDepend (node depend : N) : ActiveHeap N where
  links := listAddTail (listDelInit h.links (.node depend)) (.node depend) (.depend node)
  depended := Function.update h.depended depend (some node)

def firstLeaf (h : ActiveHeap N) : ℕ → ListHead N → Except ActiveFault (ListHead N)
  | 0, _ => .error .outOfFuel
  | fuel + 1, next => do
    let x ← structAt next
    if h.links.next (.depend x) ≠ .depend x then
      firstLeaf h fuel (h.links.next (.depend x))
    else
      pure next

def activeListNext (fuel : ℕ) (head : N) (ptr : ActivePtr N) :
    Except ActiveFault (ActivePtr N) := do
  let x ← structAt (ptr.getD (.node head))
  let next := h.links.next (.node x)
  if next = .node head then
    pure none
  else if (h.depended x).map .depend = some next then
    pure ((h.depended x).map .node)
  else
    let leaf ← firstLeaf h fuel next
    pure (some leaf)

def activeListPrev (head : N) (ptr : ActivePtr N) :
    Except ActiveFault (ActivePtr N) := do
  let x ← structAt (ptr.getD (.node head))
  if h.links.prev (.depend x) ≠ .depend x then
    pure (some (h.links.prev (.depend x)))
  else
    let prev := match h.depended x with
      | some p =>
        if p ≠ head ∧ .depend p = h.links.prev (.node x) then h.links.prev (.node p)
        else h.links.prev (.node x)
      | none => h.links.prev (.node x)
    if prev = .node head then
      pure none
    else
      pure (some prev)

def iterate (step : ActivePtr N → Except ActiveFault (ActivePtr N)) :
    ℕ → ActivePtr N → Except ActiveFault (List (ListHead N))
  | 0, _ => .error .outOfFuel
  | fuel + 1, ptr => do
    match ← step ptr with
    | none => pure []
    | some q =>
      let rest ← iterate step fuel (some q)
      pure (q :: rest)

def forward (head : N) (fuel : ℕ) : Except ActiveFault (List (ListHead N)) :=
  iterate (activeListNext h fuel head) fuel (some (.node head))

def backward (head : N) (fuel : ℕ) : Except ActiveFault (List (ListHead N)) :=
  iterate (activeListPrev h head) fuel (some (.node head))

theorem firstLeaf_node (fuel : ℕ) (x : N) :
    firstLeaf h (fuel + 1) (.node x) =
      if h.links.next (.depend x) ≠ .depend x then firstLeaf h fuel (h.links.next (.depend x))
      else .ok (.node x) := rfl

theorem activeListNext_node (fuel : ℕ) (head x : N) :
    activeListNext h fuel head (some (.node x)) =
      if h.links.next (.node x) = .node head then .ok none
      else if (h.depended x).map .depend = some (h.links.next (.node x)) then
        .ok ((h.depended x).map .node)
      else (firstLeaf h fuel (h.links.next (.node x))).bind fun leaf => .ok (some leaf) := rfl

theorem activeListPrev_of_depends {h : ActiveHeap N} {head x : N}
    (hring : h.links.prev (.depend x) ≠ .depend x) :
    activeListPrev h head (some (.node x)) = .ok (some (h.links.prev (.depend x))) :=
  if_pos hring

theorem activeListPrev_of_leaf {h : ActiveHeap N} {head x : N} {prev : ListHead N}
    (hring : h.links.prev (.depend x) = .depend x)
    (hprev : (match h.depended x with
      | some p =>
        if p ≠ head ∧ .depend p = h.links.prev (.node x) then h.links.prev (.node p)
        else h.links.prev (.node x)
      | none => h.links.prev (.node x)) = prev) :
    activeListPrev h head (some (.node x)) =
      if prev = .node head then .ok none else .ok (some prev) := by
  subst hprev
  exact if_neg (not_not.mpr hring)

omit [DecidableEq N] in
theorem iterate_of_none {step : ActivePtr N → Except ActiveFault (ActivePtr N)} {ptr : ActivePtr N}
    (hstep : step ptr = .ok none) (fuel : ℕ) : iterate step (fuel + 1) ptr = .ok [] := by
  rw [iterate, hstep]
  rfl

omit [DecidableEq N] in
theorem iterate_of_some {step : ActivePtr N → Except ActiveFault (ActivePtr N)} {ptr : ActivePtr N}
    {q : ListHead N} (hstep : step ptr = .ok (some q)) {fuel : ℕ} {rest : List (ListHead N)}
    (hrest : iterate step fuel (some q) = .ok rest) :
    iterate step (fuel + 1) ptr = .ok (q :: rest) := by
  rw [iterate, hstep]
  change (iterate step fuel (some q)).bind _ = _
  rw [hrest]
  rfl

/-- The calls that build a forest under `head`; the head itself is never added to anything. -/
inductive Call (head : N) where
  | add (node : N) (hnode : node ≠ head)
  | addDepend (node depend : N) (hdepend : depend ≠ head)

namespace Call

variable {head : N}

def run (h : ActiveHeap N) : Call head → ActiveHeap N
  | add node _ => activeListAdd h head node
  | addDepend node depend _ => activeListAddDepend h node depend

def moved : Call head → N
  | add node _ => node
  | addDepend _ depend _ => depend

def target : Call head → ListHead N
  | add _ _ => .node head
  | addDepend node _ _ => .depend node

end Call

def built {head : N} (calls : List (Call head)) : ActiveHeap N :=
  calls.foldl Call.run activeListInit

end Functions

end Openmoko.Opkg
