import Mathlib.Algebra.Order.Floor.Defs
import Mathlib.Data.Rat.Floor
import Openmoko.Fped.FrameItems

/-!
# Reading a file (`fpd.y`, `delete.c`)

The frames as they are built while a file is read, one action of the grammar after the other. The
names of the frames in the list differ, so a frame is known by its name; the root has none. Vectors
and objects have addresses. `next_vec` and `next_obj` are the places where the next one is linked,
which stay where they are when an item is deleted, or linked by a directive.

What is read and does not touch the frames is read over: values of variables, units, the types of
measurements. Whether an expression can be printed or a measurement shown is given from outside.
-/

namespace Openmoko.Fped

/-- A vector with its frame. -/
structure VecAt where
  frame : Option Name
  vec : ℕ
  deriving DecidableEq, Repr

/-- `struct obj`. -/
inductive FpdObj where
  | obj (o : Obj (Option ℕ))
  | meas (name : Option Name) (base high : VecAt) (quals : List Name)
  deriving DecidableEq, Repr

def FpdObj.name : FpdObj → Option Name
  | .obj o => o.name
  | .meas name _ _ _ => name

def FpdObj.ref : FpdObj → Option Name
  | .obj ⟨_, _, .frame ref⟩ => some ref
  | _ => none

structure ObjAt where
  addr : ℕ
  obj : FpdObj
  deriving DecidableEq, Repr

/-- `struct frame`. -/
structure FpdFrame where
  name : Option Name
  vars : List Name
  vecs : List Vec
  objs : List ObjAt
  deriving DecidableEq, Repr

/-- The variables of the parser; `frames` begins with the root. -/
structure Fpd where
  frames : List FpdFrame
  curr : Option Name
  lastVec : Option ℕ
  nextVec : Option ℕ
  nextObj : Option ℕ
  fresh : ℕ
  deriving DecidableEq, Repr

/-- What the directives that only show something succeed with. -/
structure Outside where
  prints : Fpd → Expr → Bool
  shows : Fpd → Name → Bool

def Fpd.start : Fpd where
  frames := [{ name := none, vars := [], vecs := [], objs := [] }]
  curr := none
  lastVec := none
  nextVec := none
  nextObj := none
  fresh := 0

variable (frames : List FpdFrame)

variable (name : Option Name)

def frameNamed : Option FpdFrame :=
  frames.find? fun f => f.name = name

def updateFrame (f : FpdFrame → FpdFrame) :
    List FpdFrame :=
  frames.map fun frame => if frame.name = name then f frame else frame

def refsOf : List Name :=
  match frameNamed frames name with
  | none => []
  | some frame => frame.objs.filterMap fun o => o.obj.ref

def findObj (frame : FpdFrame) (name : Name) : Option ObjAt :=
  frame.objs.find? fun o => o.obj.name = some name

def FpdFrame.hasLabel (frame : FpdFrame) (name : Name) : Bool :=
  (findVec frame.vecs name).isSome || (findObj frame name).isSome

variable (st : Fpd)

def setFrame (curr : Option Name) : Fpd :=
  { st with curr := curr, lastVec := none, nextVec := none, nextObj := none }

def linkAfter {α : Type} (addr : α → ℕ) (x : α) (slot : ℕ) : List α → List α
  | [] => []
  | a :: l => if addr a = slot then [a, x] else a :: linkAfter addr x slot l

/-- `*next = x`, where `next` is the head of the list or is in one of the elements it has had. -/
def linkAt {α : Type} (addr : α → ℕ) (x : α) : Option ℕ → List α → List α
  | none, _ => [x]
  | some slot, l => linkAfter addr x slot l

def objHasRef (id : ℕ) : FpdObj → Bool
  | .obj o => o.anchors.any (· = some id)
  | .meas _ base high _ => base.vec = id || high.vec = id

def deleteObjs (p : ObjAt → Bool) : List FpdFrame :=
  updateFrame frames name fun frame => { frame with objs := frame.objs.filter fun o => !p o }

/-- `do_delete_vec`, with what is based on the vector; no more vectors are deleted than there
are. -/
def deleteVec (name : Option Name) : ℕ → ℕ → List FpdFrame → List FpdFrame
  | 0, _, frames => frames
  | depth + 1, id, frames =>
    let frames := updateFrame frames name fun frame =>
      { frame with vecs := frame.vecs.filter fun v => v.id ≠ id }
    let vecs := ((frameNamed frames name).map FpdFrame.vecs).getD []
    let frames := (vecs.filter fun v => v.base = some id).foldl
      (fun frames v => deleteVec name depth v.id frames) frames
    deleteObjs (deleteObjs frames name fun o => objHasRef id o.obj) none
      fun o => objHasRef id o.obj

def needsFrame (name : Name) : FpdObj → Bool
  | .obj ⟨_, _, .frame ref⟩ => ref = name
  | .obj _ => false
  | .meas _ base high quals => base.frame = some name || high.frame = some name || name ∈ quals

def deleteFrame (name : Name) : List FpdFrame :=
  (frames.filter fun frame => frame.name ≠ some name).map fun frame =>
    { frame with objs := frame.objs.filter fun o => !needsFrame name o.obj }

def dbgDelete (qualifier : Option Name) (name : Name) : Option Fpd := do
  let owner := qualifier.elim st.curr some
  let frame ← frameNamed st.frames owner
  match findVec frame.vecs name, findObj frame name with
  | some id, _ => return { st with frames := deleteVec owner (frame.vecs.length + 1) id st.frames }
  | none, some o =>
    return { st with frames := deleteObjs st.frames owner fun o' => o'.addr = o.addr }
  | none, none =>
    if qualifier ≠ none ∨ frameNamed st.frames (some name) = none then none
    else if st.curr = some name then none
    else return { st with frames := deleteFrame st.frames name }

def FpdObj.setBase (vec : VecAt) : FpdObj → FpdObj
  | .obj o => .obj { o with base := some vec.vec }
  | .meas name _ high quals => .meas name vec high quals

def FpdObj.setOther (vec : VecAt) : FpdObj → Option FpdObj
  | .obj ⟨name, base, .line _ width⟩ => some (.obj ⟨name, base, .line (some vec.vec) width⟩)
  | .obj ⟨name, base, .rect _ width⟩ => some (.obj ⟨name, base, .rect (some vec.vec) width⟩)
  | .obj ⟨name, base, .pad padName _ rounded type⟩ =>
    some (.obj ⟨name, base, .pad padName (some vec.vec) rounded type⟩)
  | .obj ⟨name, base, .hole _⟩ => some (.obj ⟨name, base, .hole (some vec.vec)⟩)
  | .obj ⟨name, base, .arc start _ width⟩ =>
    some (.obj ⟨name, base, .arc start (some vec.vec) width⟩)
  | .obj ⟨_, _, .frame _⟩ => none
  | .meas name base _ quals => some (.meas name base vec quals)

def FpdObj.setStart (vec : VecAt) : FpdObj → Option FpdObj
  | .obj ⟨name, base, .arc _ stop width⟩ =>
    some (.obj ⟨name, base, .arc (some vec.vec) stop width⟩)
  | _ => none

def FpdObj.setAnchor (anchor : ℕ) (vec : VecAt) (o : FpdObj) : Option FpdObj :=
  match anchor with
  | 0 => some (o.setBase vec)
  | 1 => o.setOther vec
  | 2 => o.setStart vec
  | _ => none

def dbgMove (name : Name) (anchor : ℕ) (dest : Name) : Option Fpd := do
  let frame ← frameNamed st.frames st.curr
  let vec ← findVec frame.vecs dest
  match findVec frame.vecs name, findObj frame name with
  | some id, _ =>
    if anchor ≠ 0 then none
    else
      return { st with
        frames := updateFrame st.frames st.curr fun frame =>
          { frame with
            vecs := frame.vecs.map fun v =>
              if v.id = id then { v with base := some vec } else v } }
  | none, some o =>
    let moved ← o.obj.setAnchor anchor { frame := st.curr, vec := vec }
    return { st with
      frames := updateFrame st.frames st.curr fun frame =>
        { frame with
          objs := frame.objs.map fun o' =>
            if o'.addr = o.addr then { o' with obj := moved } else o' } }
  | none, none => none

/-- `is_parent_of`; `none` when it does not return within the depth. -/
def isParentOf (frames : List FpdFrame) : ℕ → Option Name → Option Name → Option Bool
  | 0, _, _ => none
  | depth + 1, p, c =>
    if p = c then some true
    else (refsOf frames p).anyM fun ref => isParentOf frames depth (some ref) c

def qualifiedVec (qualifier : Option Name) (base : BaseText) :
    Option (Option Name × Option ℕ) := do
  let owner := qualifier.elim st.curr some
  let frame ← frameNamed st.frames owner
  match base with
  | .origin => return (owner, none)
  | .dot => st.lastVec.map fun id => (owner, some id)
  | .named name => (findVec frame.vecs name).map fun id => (owner, some id)

def dbgLinkFrame (name : Name) (qualifier : Option Name) (base : BaseText) :
    Option Fpd := do
  let (baseFrame, vec) ← qualifiedVec st qualifier base
  let frame ← frameNamed st.frames (some name)
  let parent ← isParentOf st.frames (st.frames.length + 1) frame.name baseFrame
  if parent then none
  else
    let obj := { addr := st.fresh, obj := .obj ⟨none, vec, .frame name⟩ }
    return { st with
      frames := updateFrame st.frames baseFrame fun frame =>
        { frame with objs := frame.objs ++ [obj] }
      fresh := st.fresh + 1 }

def dumpNames (frame : FpdFrame) : Option FpdFrame := do
  let objs := frame.objs.filterMap fun o =>
    match o.obj with
    | .obj o => some o
    | .meas _ _ _ _ => none
  let (vecs, _) ← dumpFrame [] { vecs := frame.vecs, objs := objs }
  return { frame with vecs := vecs }

def baseVec (st : Fpd) (frame : FpdFrame) : BaseText → Option (Option ℕ)
  | .origin => some none
  | .dot => st.lastVec.map some
  | .named name => (findVec frame.vecs name).map some

def addVec (label : Option Name) (base : BaseText) (x y : Expr) : Option Fpd := do
  let frame ← frameNamed st.frames st.curr
  let base ← baseVec st frame base
  let vec := { id := st.fresh, name := label, base := base, x := x, y := y }
  if label.any frame.hasLabel then none
  else
    return { st with
      frames := updateFrame st.frames st.curr fun frame =>
        { frame with vecs := linkAt Vec.id vec st.nextVec frame.vecs }
      lastVec := some st.fresh
      nextVec := some st.fresh
      fresh := st.fresh + 1 }

def addFpdObj (obj : FpdObj) : Option Fpd := do
  let frame ← frameNamed st.frames st.curr
  let objs := linkAt ObjAt.addr { addr := st.fresh, obj := obj } st.nextObj frame.objs
  let others := { frame with objs := objs.filter fun o => o.addr ≠ st.fresh }
  if obj.name.any others.hasLabel then none
  else
    return { st with
      frames := updateFrame st.frames st.curr fun frame => { frame with objs := objs }
      nextObj := some st.fresh
      fresh := st.fresh + 1 }

def addObj (o : Obj BaseText) : Option Fpd := do
  let frame ← frameNamed st.frames st.curr
  let obj ← o.resolve (baseVec st frame)
  if !o.kind.refKnown (st.frames.filterMap FpdFrame.name) then none
  else addFpdObj st (.obj obj)

def drawing : Drawing where
  rootVecs := ((frameNamed st.frames none).map fun f => vecNames f.vecs).getD []
  rootObjs := ((frameNamed st.frames none).map fun f =>
    f.objs.filterMap fun o => o.obj.name).getD []
  frames := st.frames.filterMap fun f => f.name.map fun name => (name, vecNames f.vecs)

def vecAt (ref : VecRef) : Option VecAt := do
  let frame ← frameNamed st.frames ref.frame
  let id ← findVec frame.vecs ref.vec
  return { frame := ref.frame, vec := id }

/-- `can_reach`; `none` when it does not return within the depth. -/
def canReach (frames : List FpdFrame) (stop : Option Name) :
    ℕ → Option Name → List Name → Option Bool
  | 0, _, _ => none
  | depth + 1, curr, quals =>
    if curr = stop then some quals.isEmpty
    else
      let rest := if quals.head?.any fun frame => curr = some frame then quals.tail else quals
      (refsOf frames curr).anyM fun ref => canReach frames stop depth (some ref) rest

/-- The part of `check_qbase` that looks at references, for the qualifiers from each of them on. It
only warns, but has to return; it does so before a frame comes up again with the same qualifiers. -/
def checkQbase (base : VecAt) (quals : List Name) : Option (List Bool) :=
  quals.tails.mapM fun quals =>
    canReach st.frames base.frame (st.frames.length * (quals.length + 1) + 1) none quals

def addMeas (label : Option Name) (m : Meas) : Option Fpd := do
  let base ← vecAt st m.base
  let high ← vecAt st m.high
  let _ ← checkQbase st base m.lowQual
  let _ ← checkQbase st high m.highQual
  addFpdObj st (.meas label base high (m.lowQual ++ m.highQual))

/-- What the actions of the grammar are for. -/
inductive Stmt where
  | frameDef (name : Name)
  | frameEnd
  | vars (names : List Name)
  | line (line : Line)
  | meas (label : Option Name) (m : Meas)
  | del (qualifier : Option Name) (name : Name)
  | move (name : Name) (anchor : ℕ) (dest : Name)
  | link (name : Name) (qualifier : Option Name) (base : BaseText)
  | print (e : Expr)
  | showMeas (name : Name)
  | dump
  | other

def act (out : Outside) (st : Fpd) : Stmt → Option Fpd
  | .frameDef name =>
    if (frameNamed st.frames (some name)).isSome then none
    else
      let frame := { name := some name, vars := [], vecs := [], objs := [] }
      some (setFrame { st with frames := st.frames.take 1 ++ frame :: st.frames.drop 1 }
        (some name))
  | .frameEnd => some (setFrame st none)
  | .vars names => do
    let frame ← frameNamed st.frames st.curr
    if names.any (· ∈ frame.vars) then none
    else
      return { st with
        frames := updateFrame st.frames st.curr fun frame =>
          { frame with vars := frame.vars ++ names } }
  | .line (.vec label base x y) => addVec st label base x y
  | .line (.obj o) => addObj st o
  | .meas label m => addMeas st label m
  | .del qualifier name => dbgDelete st qualifier name
  | .move name anchor dest => dbgMove st name anchor dest
  | .link name qualifier base => dbgLinkFrame st name qualifier base
  | .print e => if out.prints st e then some st else none
  | .showMeas name => if out.shows st name then some st else none
  | .dump => (st.frames.mapM dumpNames).map fun frames => { st with frames := frames }
  | .other => some st

end Openmoko.Fped
