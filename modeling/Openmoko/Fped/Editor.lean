import Openmoko.Fped.Delete

/-!
# Reading and editing vectors and references (`fpd.y`, `gui_tool.c`, `inst.c`)

A file is read before the editor starts: first the frames, then the items of the root frame. The
parser links a vector behind the one read last, and an object behind the object read last, whatever
has become of these. Items are given by their addresses; a name that is looked up is an address that
is on the list.
-/

namespace Openmoko.Fped

inductive EditPhase where
  | defs
  | frame
  | items
  | gui
  deriving DecidableEq, Repr

/-- `last_vec` and `next_vec` go together; without a last vector, `next_vec` is the head of the list
of `curr_frame`. -/
structure Editor where
  model : Model
  phase : EditPhase
  curr : Addr
  lastVec : Option Addr
  lastObj : Option Addr
  mark : Addr → Bool
  fresh : Addr

/-- `base` of the grammar. -/
inductive BaseRef where
  | origin
  | dot
  | named (v : Addr)

inductive Edit where
  | frameDef
  | frameEnd
  | items
  | finish
  | vec (base : BaseRef)
  | item (base : BaseRef) (others : List BaseRef)
  | ref (g : Addr) (base : BaseRef)
  | meas (base high : Addr) (quals : List Addr)
  | move (v to_ : Addr)
  | moveObj (o : Addr) (anchor : ℕ) (to_ : Addr)
  | link (g f : Addr) (base : Option Addr)
  | newVec (f : Addr) (base : Option Addr)
  | moveTo (v : Addr) (to_ : Option Addr)
  | delete (op : DeleteOp)
  | undelete

namespace Editor

variable (e : Editor)

def reading : Bool := e.phase = .frame || e.phase = .items

def setFrame (f : Addr) : Editor :=
  { e with curr := f, lastVec := none, lastObj := none }

def linkBehind (slot : Option Addr) (x : Addr) (l : List Addr) : List Addr :=
  match slot with
  | none => [x]
  | some s => if s ∈ l then l.takeWhile (· ≠ s) ++ [s, x] else l

def setNext (slot : Option Addr) (x : Addr) (d : Deletion) : Deletion :=
  match d.item with
  | .vec v prev next => { d with item := .vec v prev (if slot = some v then some x else next) }
  | .obj o prev next => { d with item := .obj o prev (if slot = some o then some x else next) }
  | _ => d

/-- A new frame comes after the root. -/
def frameDef : Option Editor :=
  if e.phase = .defs then
    let m := e.model
    let f := e.fresh
    let m := { m with
      frames := m.frames.take 1 ++ f :: m.frames.drop 1
      vecs := Function.update m.vecs f []
      objs := Function.update m.objs f []
      activeRef := Function.update m.activeRef f none }
    some ({ e with model := m, phase := .frame, fresh := f + 1 }.setFrame f)
  else none

def root : Addr := e.model.frames.headD 0

def frameEnd : Option Editor :=
  if e.phase = .frame then some ({ e with phase := .defs }.setFrame e.root) else none

def items (e : Editor) : Option Editor :=
  if e.phase = .defs then some { e with phase := .items } else none

def finish : Option Editor :=
  if e.phase = .defs ∨ e.phase = .items then some { e with phase := .gui } else none

def baseVec (e : Editor) : BaseRef → Option (Option Addr)
  | .origin => some none
  | .dot => e.lastVec.map some
  | .named v => if v ∈ e.model.vecs e.curr then some (some v) else none

def vec (e : Editor) (base : BaseRef) : Option Editor := do
  let base ← e.baseVec base
  if e.reading then
    let m := e.model
    let v := e.fresh
    let m := { m with
      vec := Function.update m.vec v { frame := e.curr, base := base }
      vecs := Function.update m.vecs e.curr (linkBehind e.lastVec v (m.vecs e.curr))
      deletions := m.deletions.map (setNext e.lastVec v) }
    return { e with model := m, lastVec := some v, fresh := v + 1 }
  else none

def addObj (base : Option Addr) (kind : ObjNodeKind) : Editor :=
  let m := e.model
  let o := e.fresh
  let m := { m with
    obj := Function.update m.obj o { frame := e.curr, base := base, kind := kind }
    objs := Function.update m.objs e.curr (linkBehind e.lastObj o (m.objs e.curr))
    deletions := m.deletions.map (setNext e.lastObj o) }
  { e with model := m, lastObj := some o, fresh := o + 1 }

/-- `if (!ref->active_ref) ref->active_ref = obj`. -/
def activate (m : Model) (g o : Addr) : Model :=
  if m.activeRef g = none then { m with activeRef := Function.update m.activeRef g (some o) } else m

def item (e : Editor) (base : BaseRef) (others : List BaseRef) : Option Editor := do
  let base ← e.baseVec base
  let others ← others.mapM e.baseVec
  if e.reading then return e.addObj base (.item others) else none

def ref (g : Addr) (base : BaseRef) : Option Editor := do
  let base ← e.baseVec base
  if e.reading ∧ g ∈ e.model.frames.tail then
    return { e with model := activate e.model g e.fresh }.addObj base (.frame g)
  else none

def listedVec (m : Model) (v : Addr) : Bool :=
  (m.vec v).frame ∈ m.frames && v ∈ m.vecs (m.vec v).frame

def meas (e : Editor) (base high : Addr) (quals : List Addr) : Option Editor :=
  if (e.phase = .defs ∨ e.phase = .items) ∧ listedVec e.model base ∧ listedVec e.model high then
    some ({ e with phase := .items }.addObj (some base) (.meas high quals))
  else none

/-- `dbg_move` of a vector. -/
def move (v to_ : Addr) : Option Editor :=
  let m := e.model
  if e.reading ∧ v ∈ m.vecs e.curr ∧ to_ ∈ m.vecs e.curr then
    some { e with model := { m with
      vec := Function.update m.vec v { m.vec v with base := some to_ } } }
  else none

def setAnchor (o : ObjNode) (to_ : Addr) : ℕ → Option ObjNode
  | 0 => some { o with base := some to_ }
  | i + 1 =>
    match o.kind with
    | .frame _ => none
    | .item others =>
      if i < others.length then some { o with kind := .item (others.set i (some to_)) }
      else none
    | .meas _ quals => if i = 0 then some { o with kind := .meas to_ quals } else none

def moveObj (o : Addr) (anchor : ℕ) (to_ : Addr) : Option Editor := do
  let m := e.model
  let obj ← setAnchor (m.obj o) to_ anchor
  if e.reading ∧ o ∈ m.objs e.curr ∧ to_ ∈ m.vecs e.curr then
    return { e with model := { m with obj := Function.update m.obj o obj } }
  else none

def inFrame (f v : Addr) : Bool := v < e.fresh && (e.model.vec v).frame = f

/-- `dbg_link_frame` -/
def link (g f : Addr) (base : Option Addr) : Option Editor :=
  let m := e.model
  let o := e.fresh
  if e.reading ∧ g ∈ m.frames.tail ∧ (f = e.curr ∨ f ∈ m.frames.tail) ∧
      base.all (e.inFrame f) then
    let m := { m with
      obj := Function.update m.obj o { frame := f, base := base, kind := .frame g }
      objs := Function.update m.objs f (m.objs f ++ [o]) }
    some { e with model := activate m g o, fresh := o + 1 }
  else none

def newVec (f : Addr) (base : Option Addr) : Option Editor :=
  let m := e.model
  let v := e.fresh
  if e.phase = .gui ∧ f ∈ m.frames ∧ base.all (e.inFrame f) then
    let m := { m with
      vec := Function.update m.vec v { frame := f, base := base }
      vecs := Function.update m.vecs f (m.vecs f ++ [v]) }
    some { e with model := m, fresh := v + 1 }
  else none

def leadsTo (m : Model) (v : Addr) : ℕ → Option Addr → Option Bool
  | _, none => some false
  | 0, some _ => none
  | n + 1, some w => if w = v then some true else leadsTo m v n (m.vec w).base

def markDependents (m : Model) (to_ : Option Addr) :
    List Addr → (Addr → Bool) → Bool × (Addr → Bool)
  | [], mark => (false, mark)
  | v :: l, mark =>
    if to_ = some v then (true, mark)
    else markDependents m to_ l
      (Function.update mark v (((m.vec v).base.map mark).getD false))

def moveMarked (mark : Addr → Bool) (to_ : Addr) (l : List Addr) : List Addr :=
  let before := l.takeWhile (· ≠ to_)
  before.filter (fun v => !mark v) ++ to_ :: (before.filter fun v => mark v) ++
    (l.dropWhile (· ≠ to_)).tail

def movedVecs (l : List Addr) (to_ : Option Addr) (marked : Bool × (Addr → Bool)) : List Addr :=
  match to_ with
  | none => l
  | some to_ => if marked.1 then moveMarked marked.2 to_ l else l

def moveTo (v : Addr) (to_ : Option Addr) : Option Editor := do
  let m := e.model
  let f := (m.vec v).frame
  let found ← leadsTo m v e.fresh to_
  if e.phase = .gui ∧ v ∈ m.vecs f ∧ to_.all (e.inFrame f) ∧ !found then
    let m := { m with vec := Function.update m.vec v { m.vec v with base := to_ } }
    let mark := fun w => !(w ∈ (m.vecs f).takeWhile (· ≠ v)) && e.mark w
    let marked := markDependents m to_ ((m.vecs f).dropWhile (· ≠ v)).tail
      (Function.update mark v true)
    return { e with
      model := { m with vecs := Function.update m.vecs f (movedVecs (m.vecs f) to_ marked) }
      mark := marked.2 }
  else none

def deletable (e : Editor) : DeleteOp → Bool
  | .vec v => (e.model.vec v).frame ∈ e.model.frames
  | .obj o => (e.model.obj o).frame ∈ e.model.frames
  | .frame f => f ∈ e.model.frames.tail && (e.phase = .gui || f ≠ e.curr)
  | _ => true

def delete (e : Editor) (op : DeleteOp) : Option Editor :=
  if e.deletable op then (e.model.delete op).map fun m => { e with model := m } else none

def undelete (e : Editor) : Option Editor :=
  if e.phase = .gui then e.model.undelete.map fun m => { e with model := m } else none

def step (e : Editor) : Edit → Option Editor
  | .frameDef => e.frameDef
  | .frameEnd => e.frameEnd
  | .items => e.items
  | .finish => e.finish
  | .vec base => e.vec base
  | .item base others => e.item base others
  | .ref g base => e.ref g base
  | .meas base high quals => e.meas base high quals
  | .move v to_ => e.move v to_
  | .moveObj o anchor to_ => e.moveObj o anchor to_
  | .link g f base => e.link g f base
  | .newVec f base => e.newVec f base
  | .moveTo v to_ => e.moveTo v to_
  | .delete op => e.delete op
  | .undelete => e.undelete

/-- `START_FPD`: the root frame. -/
def start (mark : Addr → Bool) : Editor where
  model := {
    frames := [0]
    vecs := fun _ => []
    objs := fun _ => []
    tables := fun _ => []
    loops := fun _ => []
    vars := fun _ => []
    rows := fun _ => []
    values := fun _ => []
    activeRef := fun _ => none
    activeRow := fun _ => none
    vec := fun _ => { frame := 0, base := none }
    obj := fun _ => { frame := 0, base := none, kind := .item [] }
    var := fun _ => { name := [], frame := 0, table := 0 }
    row := fun _ => 0
    value := fun _ => { expr := .string [], row := 0 }
    loop := fun _ => { name := [], frame := 0 }
    deletions := []
    groups := 0 }
  phase := .defs
  curr := 0
  lastVec := none
  lastObj := none
  mark := mark
  fresh := 1

end Editor

end Openmoko.Fped
