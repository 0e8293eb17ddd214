import Openmoko.Fped.Delete
import Openmoko.Library.NextPointers

/-!
# The lists in memory (`delete.c`, `inst.c`)

Deleting a vector and moving it to another base work on `next` pointers: a loop goes on from an item
that a call within it has deleted, and items are linked again while a loop walks past them. Here
vectors and objects are lists of that kind. The number that the loops and calls are given bounds how
often they may go on; `none` is the outcome when it does not suffice, or when a pointer that is
followed is NULL.
-/

namespace Openmoko.Fped

/-- What the functions read and change: where the lists of each frame begin, `next` of each item, and
the items. The list of frames stays the same. -/
structure Heap where
  frames : List Addr
  vecs : Addr → Option Addr
  vecNext : Addr → Option Addr
  objs : Addr → Option Addr
  objNext : Addr → Option Addr
  activeRef : Addr → Option Addr
  vec : Addr → VecNode
  obj : Addr → ObjNode
  mark : Addr → Bool
  deletions : List Deletion
  groups : ℕ

namespace Heap

variable (h : Heap)

def vecLinks (f : Addr) : NextLinks Addr := ⟨h.vecs f, h.vecNext⟩

def objLinks (f : Addr) : NextLinks Addr := ⟨h.objs f, h.objNext⟩

def setVecLinks (f : Addr) (s : NextLinks Addr) : Heap :=
  { h with vecs := Function.update h.vecs f s.first, vecNext := s.next }

def setObjLinks (f : Addr) (s : NextLinks Addr) : Heap :=
  { h with objs := Function.update h.objs f s.first, objNext := s.next }

def newDeletion (item : Deleted) : Heap :=
  { h with deletions := { item := item, group := h.groups } :: h.deletions }

def findRefTo (h : Heap) (ref : Addr) : ℕ → Option Addr → Option (Option Addr)
  | 0, _ => none
  | _ + 1, none => some none
  | n + 1, some o =>
    if (h.obj o).kind = .frame ref then some (some o) else h.findRefTo ref n (h.objNext o)

variable (n : ℕ)

def resetActiveRef (h : Heap) (ref : Addr) : Option Heap := do
  let obj ← h.frames.foldlM (fun _ f => h.findRefTo ref n (h.objs f)) none
  return { h with activeRef := Function.update h.activeRef ref obj }

def objHasRef (o ref : Addr) : Bool :=
  (h.obj o).base = some ref ||
    match (h.obj o).kind with
    | .frame _ => false
    | .item others => others.contains (some ref)
    | .meas high _ => high = ref

def unlinkObj (h : Heap) (o : Addr) : Option Heap := do
  let f := (h.obj o).frame
  let prev ← NextLinks.findPrev h.objNext o n (h.objs f) none
  return (h.setObjLinks f ((h.objLinks f).remove o prev)).newDeletion (.obj o prev (h.objNext o))

def resetRefsOf (h : Heap) (o : Addr) : Option Heap :=
  match (h.obj o).kind with
  | .frame ref => if h.activeRef ref = some o then h.resetActiveRef n ref else some h
  | _ => some h

def doDeleteObj (h : Heap) (o : Addr) : Option Heap := do
  let h ← h.unlinkObj n o
  h.resetRefsOf n o

def deleteObjsByRef : ℕ → Heap → Option Addr → Addr → Option Heap
  | 0, _, _, _ => none
  | _ + 1, h, none, _ => some h
  | n + 1, h, some o, ref => do
    let h ← (if h.objHasRef o ref then h.doDeleteObj n o else some h)
    deleteObjsByRef n h (h.objNext o) ref

def unlinkVec (h : Heap) (v : Addr) : Option Heap := do
  let f := (h.vec v).frame
  let prev ← NextLinks.findPrev h.vecNext v n (h.vecs f) none
  return (h.setVecLinks f ((h.vecLinks f).remove v prev)).newDeletion (.vec v prev (h.vecNext v))

mutual

def deleteVecsByRef : ℕ → Heap → Option Addr → Addr → Option Heap
  | 0, _, _, _ => none
  | _ + 1, h, none, _ => some h
  | n + 1, h, some w, ref => do
    let h ← (if (h.vec w).base = some ref then doDeleteVec n h w else some h)
    deleteVecsByRef n h (h.vecNext w) ref

def doDeleteVec : ℕ → Heap → Addr → Option Heap
  | 0, _, _ => none
  | n + 1, h, v => do
    let f := (h.vec v).frame
    let h ← h.unlinkVec n v
    let h ← deleteVecsByRef n h (h.vecs f) v
    let h ← h.deleteObjsByRef n (h.objs f) v
    match h.frames with
    | [] => return h
    | root :: _ => h.deleteObjsByRef n (h.objs root) v

end

def deleteVec (h : Heap) (v : Addr) : Option Heap :=
  doDeleteVec n { h with groups := h.groups + 1 } v

def clearMarks (h : Heap) (v : Addr) : ℕ → Option Addr → (Addr → Bool) → Option (Addr → Bool)
  | 0, _, _ => none
  | _ + 1, none, _ => none
  | n + 1, some w, mark =>
    if w = v then some mark else h.clearMarks v n (h.vecNext w) (Function.update mark w false)

def markDependents (h : Heap) (to_ : Option Addr) :
    ℕ → Option Addr → (Addr → Bool) → Option (Bool × (Addr → Bool))
  | 0, _, _ => none
  | _ + 1, none, mark => some (false, mark)
  | n + 1, some w, mark =>
    if to_ = some w then some (true, mark)
    else h.markDependents to_ n (h.vecNext w)
      (Function.update mark w (((h.vec w).base.map mark).getD false))

def moveMarked (mark : Addr → Bool) (to_ : Addr) :
    ℕ → NextLinks Addr → Option Addr → Option Addr → Option (NextLinks Addr)
  | 0, _, _, _ => none
  | n + 1, s, walk, anchor =>
    match s.get walk with
    | none => none
    | some v =>
      if v = to_ then some s
      else if mark v then moveMarked mark to_ n (s.relink walk v anchor) walk (some v)
      else moveMarked mark to_ n s (some v) anchor

def relinkMarked (h : Heap) (f : Addr) (to_ : Option Addr)
    (marked : Bool × (Addr → Bool)) : Option Heap :=
  match to_ with
  | some to_ =>
    if marked.1 then
      (moveMarked marked.2 to_ n (h.vecLinks f) none (some to_)).map (h.setVecLinks f)
    else some h
  | none => some h

def doMoveToVec (h : Heap) (v : Addr) (to_ : Option Addr) : Option Heap := do
  let f := (h.vec v).frame
  let h := { h with vec := Function.update h.vec v { h.vec v with base := to_ } }
  let mark ← h.clearMarks v n (h.vecs f) h.mark
  let marked ← h.markDependents to_ n (h.vecNext v) (Function.update mark v true)
  { h with mark := marked.2 }.relinkMarked n f to_ marked

end Heap

end Openmoko.Fped
