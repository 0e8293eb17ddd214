import Mathlib.Logic.Function.Basic
import Openmoko.Fped.Expr
import Openmoko.Library.LinkedList

/-!
# Deleting and undeleting (`delete.c`)

Every item has an address, and the linked lists are lists of addresses. A deleted item leaves its
list and keeps all that it points to. What the stack of deletions remembers of it is its predecessor
and, as its own `next` pointer does, its successor.
-/

namespace Openmoko.Fped

abbrev Addr := ℕ

/-- `struct vec`. -/
structure VecNode where
  frame : Addr
  base : Option Addr

/-- `u` of `struct obj`. -/
inductive ObjNodeKind where
  | frame (ref : Addr)
  | item (others : List (Option Addr))
  | meas (high : Addr) (quals : List Addr)
  deriving DecidableEq

structure ObjNode where
  frame : Addr
  base : Option Addr
  kind : ObjNodeKind

/-- `struct var`. -/
structure VarNode where
  name : Name
  frame : Addr
  table : Addr

/-- `struct value`. -/
structure ValueNode where
  expr : Expr
  row : Addr

/-- `struct loop`. -/
structure LoopNode where
  name : Name
  frame : Addr

inductive Deleted where
  | vec (v : Addr) (prev next : Option Addr)
  | obj (o : Addr) (prev next : Option Addr)
  | frame (f : Addr) (prev next : Option Addr)
  | table (t : Addr) (prev next : Option Addr)
  | row (r : Addr) (prev next : Option Addr)
  | column (t : Addr) (n : ℕ) (var : Addr) (values : List Addr)
  | loop (l : Addr) (prev next : Option Addr)

structure Deletion where
  item : Deleted
  group : ℕ

/-- The lists of the frames, tables and rows, the choices that are active, the items at their
addresses, and the deletions. -/
structure Model where
  frames : List Addr
  vecs : Addr → List Addr
  objs : Addr → List Addr
  tables : Addr → List Addr
  loops : Addr → List Addr
  vars : Addr → List Addr
  rows : Addr → List Addr
  values : Addr → List Addr
  activeRef : Addr → Option Addr
  activeRow : Addr → Option Addr
  vec : Addr → VecNode
  obj : Addr → ObjNode
  var : Addr → VarNode
  row : Addr → Addr
  value : Addr → ValueNode
  loop : Addr → LoopNode
  deletions : List Deletion
  groups : ℕ

inductive DeleteOp where
  | vec (v : Addr)
  | obj (o : Addr)
  | frame (f : Addr)
  | table (t : Addr)
  | row (r : Addr)
  | column (t : Addr) (n : ℕ)
  | loop (l : Addr)

namespace Model

variable (m : Model)

def newDeletion (item : Deleted) : Model :=
  { m with deletions := { item := item, group := m.groups } :: m.deletions }

def newGroup : Model := { m with groups := m.groups + 1 }

def isRefTo (f o : Addr) : Bool := (m.obj o).kind = .frame f

def resetActiveRef (ref : Addr) : Model :=
  let obj := m.frames.foldl (fun _ f => (m.objs f).find? (m.isRefTo ref)) none
  { m with activeRef := Function.update m.activeRef ref obj }

def objHasRef (o ref : Addr) : Bool :=
  (m.obj o).base = some ref ||
    match (m.obj o).kind with
    | .frame _ => false
    | .item others => others.contains (some ref)
    | .meas high _ => high = ref

def unlinkObj (o : Addr) : Option Model := do
  let f := (m.obj o).frame
  let u ← unlink o (m.objs f)
  return { m with objs := Function.update m.objs f u.rest }.newDeletion (.obj o u.prev u.next)

def resetRefsOf (o : Addr) : Model :=
  match (m.obj o).kind with
  | .frame ref => if m.activeRef ref = some o then m.resetActiveRef ref else m
  | _ => m

def doDeleteObj (o : Addr) : Option Model := do
  let m ← m.unlinkObj o
  return m.resetRefsOf o

def deleteObjsByRef (f ref : Addr) : Option Model :=
  (m.objs f).foldlM (fun m o => if m.objHasRef o ref then m.doDeleteObj o else some m) m

def deleteObj (o : Addr) : Option Model := m.newGroup.doDeleteObj o

def unlinkVec (v : Addr) : Option Model := do
  let f := (m.vec v).frame
  let u ← unlink v (m.vecs f)
  return { m with vecs := Function.update m.vecs f u.rest }.newDeletion (.vec v u.prev u.next)

def doDeleteVec : ℕ → Model → Addr → Option Model
  | 0, _, _ => none
  | n + 1, m, v => do
    let f := (m.vec v).frame
    let m ← m.unlinkVec v
    let m ← (m.vecs f).foldlM
      (fun m w => if (m.vec w).base = some v then doDeleteVec n m w else some m) m
    let m ← m.deleteObjsByRef f v
    match m.frames with
    | [] => return m
    | root :: _ => m.deleteObjsByRef root v

def deleteVec (v : Addr) : Option Model :=
  doDeleteVec (m.vecs (m.vec v).frame).length m.newGroup v

def unlinkRow (r : Addr) : Option Model := do
  let t := m.row r
  let u ← unlink r (m.rows t)
  return { m with rows := Function.update m.rows t u.rest }.newDeletion (.row r u.prev u.next)

def deleteRow (r : Addr) : Option Model := m.newGroup.unlinkRow r

def takeColumn (n : ℕ) : List Addr → (Addr → List Addr) →
    Option (List Addr × (Addr → List Addr))
  | [], values => some ([], values)
  | r :: rows, values => do
    let x ← (values r)[n]?
    let (column, values) ← takeColumn n rows
      (Function.update values r ((values r).eraseIdx n))
    return (x :: column, values)

def unlinkColumn (t : Addr) (n : ℕ) : Option Model := do
  let var ← (m.vars t)[n]?
  let (column, values) ← takeColumn n (m.rows t) m.values
  return { m with
    vars := Function.update m.vars t ((m.vars t).eraseIdx n)
    values := values }.newDeletion (.column t n var column)

def deleteColumn (t : Addr) (n : ℕ) : Option Model := m.newGroup.unlinkColumn t n

def frameOfTable (t : Addr) : Option Addr :=
  (m.vars t).head?.map fun var => (m.var var).frame

def unlinkTable (t : Addr) : Option Model := do
  let f ← m.frameOfTable t
  let u ← unlink t (m.tables f)
  return { m with tables := Function.update m.tables f u.rest }.newDeletion
    (.table t u.prev u.next)

def deleteTable (t : Addr) : Option Model := m.newGroup.unlinkTable t

def unlinkLoop (l : Addr) : Option Model := do
  let f := (m.loop l).frame
  let u ← unlink l (m.loops f)
  return { m with loops := Function.update m.loops f u.rest }.newDeletion (.loop l u.prev u.next)

def deleteLoop (l : Addr) : Option Model := m.newGroup.unlinkLoop l

def needs (ref o : Addr) : Bool :=
  match (m.obj o).kind with
  | .frame f => f = ref
  | .meas high quals =>
    (m.obj o).base.map (fun v => (m.vec v).frame) = some ref || (m.vec high).frame = ref ||
      quals.contains ref
  | .item _ => false

def deleteReferences (ref : Addr) : Option Model := do
  let m ← m.frames.foldlM
    (fun m f => (m.objs f).foldlM
      (fun m o => if m.needs ref o then m.doDeleteObj o else some m) m) m
  return (m.objs ref).foldl resetRefsOf m

def unlinkFrame (f : Addr) : Option Model := do
  let u ← unlink f m.frames
  return { m with frames := u.rest }.newDeletion (.frame f u.prev u.next)

def deleteFrame (f : Addr) : Option Model := do
  let m ← m.newGroup.unlinkFrame f
  m.deleteReferences f

def delete (m : Model) : DeleteOp → Option Model
  | .vec v => m.deleteVec v
  | .obj o => m.deleteObj o
  | .frame f => m.deleteFrame f
  | .table t => m.deleteTable t
  | .row r => m.deleteRow r
  | .column t n => m.deleteColumn t n
  | .loop l => m.deleteLoop l

def putColumn (n : ℕ) : List Addr → List Addr → (Addr → List Addr) →
    Option (Addr → List Addr)
  | [], _, values => some values
  | _ :: _, [], _ => none
  | r :: rows, x :: column, values =>
    if n ≤ (values r).length then
      putColumn n rows column (Function.update values r ((values r).insertIdx n x))
    else none

def undeleteItem (m : Model) : Deleted → Option Model
  | .vec v prev next => do
    let f := (m.vec v).frame
    let l ← relink v prev next (m.vecs f)
    return { m with vecs := Function.update m.vecs f l }
  | .obj o prev next => do
    let f := (m.obj o).frame
    let l ← relink o prev next (m.objs f)
    return { m with objs := Function.update m.objs f l }
  | .frame f prev next => do
    let l ← relink f prev next m.frames
    return { m with frames := l }
  | .table t prev next => do
    let f ← m.frameOfTable t
    let l ← relink t prev next (m.tables f)
    return { m with tables := Function.update m.tables f l }
  | .row r prev next => do
    let t := m.row r
    let l ← relink r prev next (m.rows t)
    return { m with rows := Function.update m.rows t l }
  | .column t n var column => do
    let values ← putColumn n (m.rows t) column m.values
    if n ≤ (m.vars t).length then
      return { m with
        vars := Function.update m.vars t ((m.vars t).insertIdx n var)
        values := values }
    else none
  | .loop l prev next => do
    let f := (m.loop l).frame
    let list ← relink l prev next (m.loops f)
    return { m with loops := Function.update m.loops f list }

def undeleteGroup (group : ℕ) : List Deletion → Model → Option Model
  | [], m => some { m with deletions := [] }
  | d :: deletions, m =>
    if d.group = group then do
      let m ← m.undeleteItem d.item
      undeleteGroup group deletions m
    else some { m with deletions := d :: deletions }

def undelete : Option Model :=
  match m.deletions with
  | [] => some m
  | d :: _ => undeleteGroup d.group m.deletions m

end Model

end Openmoko.Fped
