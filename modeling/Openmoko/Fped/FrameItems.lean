import Openmoko.Fped.Dump
import Openmoko.Fped.Meas

/-!
# Reading the vectors and objects of a frame (`fpd.y`)

The rules for vectors and objects, as far as `dump_frame` writes them for the items of a frame. A
line is taken apart first, its actions come afterwards; an error anywhere ends the reading. The
vectors are numbered as they are read.
-/

namespace Openmoko.Fped

/-- A line of the text, before its names are looked up. -/
inductive Line where
  | vec (label : Option Name) (base : BaseText) (x y : Expr)
  | obj (o : Obj BaseText)
  deriving DecidableEq, Repr

def baseRule : List Token → Option (BaseText × List Token)
  | .ch '@' :: ts => some (.origin, ts)
  | .ch '.' :: ts => some (.dot, ts)
  | .id name :: ts => some (.named name, ts)
  | _ => none

def expect (c : Char) : List Token → Option (List Token)
  | .ch d :: ts => if d = c then some ts else none
  | _ => none

def vecRule (label : Option Name) (ts : List Token) : Option (Line × List Token) := do
  let (base, ts) ← baseRule ts
  let ts ← expect '(' ts
  let (x, ts) ← parseExpr ts
  let ts ← expect ',' ts
  let (y, ts) ← parseExpr ts
  let ts ← expect ')' ts
  return (.vec label base x y, ts)

def padTypeRule : List Token → Option (PadType × List Token)
  | .id name :: ts =>
    if name = "bare".toList then some (.bare, ts)
    else if name = "trace".toList then some (.trace, ts)
    else if name = "paste".toList then some (.paste, ts)
    else if name = "mask".toList then some (.mask, ts)
    else none
  | ts => some (.normal, ts)

def padRule (label : Option Name) (rounded : Bool) :
    List Token → Option (Obj BaseText × List Token)
  | .string name :: ts => do
    let (anchor, ts) ← baseRule ts
    let (other, ts) ← baseRule ts
    let (type, ts) ← padTypeRule ts
    return ({ name := label, base := anchor, kind := .pad name other rounded type }, ts)
  | _ => none

def objRule (label : Option Name) : List Token → Option (Obj BaseText × List Token)
  | .keyword .pad :: ts => padRule label false ts
  | .keyword .rpad :: ts => padRule label true ts
  | .keyword .hole :: ts => do
    let (anchor, ts) ← baseRule ts
    let (other, ts) ← baseRule ts
    return ({ name := label, base := anchor, kind := .hole other }, ts)
  | .keyword .rect :: ts => do
    let (anchor, ts) ← baseRule ts
    let (other, ts) ← baseRule ts
    let (width, ts) ← optExpr ts
    return ({ name := label, base := anchor, kind := .rect other width }, ts)
  | .keyword .line :: ts => do
    let (anchor, ts) ← baseRule ts
    let (other, ts) ← baseRule ts
    let (width, ts) ← optExpr ts
    return ({ name := label, base := anchor, kind := .line other width }, ts)
  | .keyword .circ :: ts => do
    let (anchor, ts) ← baseRule ts
    let (start, ts) ← baseRule ts
    let (width, ts) ← optExpr ts
    return ({ name := label, base := anchor, kind := .arc start start width }, ts)
  | .keyword .arc :: ts => do
    let (anchor, ts) ← baseRule ts
    let (start, ts) ← baseRule ts
    let (stop, ts) ← baseRule ts
    let (width, ts) ← optExpr ts
    return ({ name := label, base := anchor, kind := .arc start stop width }, ts)
  | .keyword .frame :: .id ref :: ts => do
    let (anchor, ts) ← baseRule ts
    return ({ name := label, base := anchor, kind := .frame ref }, ts)
  | _ => none

def unlabeledItem (label : Option Name) : List Token → Option (Line × List Token)
  | .keyword .vec :: ts => vecRule label ts
  | ts => (objRule label ts).map fun (o, ts) => (.obj o, ts)

def frameItem : List Token → Option (Line × List Token)
  | .label name :: ts => unlabeledItem (some name) ts
  | ts => unlabeledItem none ts

/-- The lists of `curr_frame`, and `last_vec`. -/
structure Reading where
  frame : Frame
  lastVec : Option ℕ
  deriving DecidableEq, Repr

def findVec (vecs : List Vec) (name : Name) : Option ℕ :=
  (vecs.find? fun v => v.name = some name).map Vec.id

def objNames (objs : List (Obj (Option ℕ))) : List Name := objs.filterMap Obj.name

def findLabel (frame : Frame) (name : Name) : Bool :=
  name ∈ vecNames frame.vecs ∨ name ∈ objNames frame.objs

def findBase (st : Reading) : BaseText → Option (Option ℕ)
  | .origin => some none
  | .dot => st.lastVec.map some
  | .named name => (findVec st.frame.vecs name).map some

def ObjKind.resolve {α β : Type} (find : α → Option β) : ObjKind α → Option (ObjKind β)
  | .frame ref => some (.frame ref)
  | .line other width => (find other).map fun other => .line other width
  | .rect other width => (find other).map fun other => .rect other width
  | .pad name other rounded type => (find other).map fun other => .pad name other rounded type
  | .hole other => (find other).map .hole
  | .arc start stop width => do
    let start ← find start
    let stop ← find stop
    return .arc start stop width

def Obj.resolve {α β : Type} (find : α → Option β) (obj : Obj α) : Option (Obj β) := do
  let anchor ← find obj.base
  let kind ← obj.kind.resolve find
  return { name := obj.name, base := anchor, kind := kind }

def ObjKind.refKnown {α : Type} (frames : List Name) : ObjKind α → Bool
  | .frame ref => ref ∈ frames
  | _ => true

def addLine (frames : List Name) (st : Reading) : Line → Option Reading
  | .vec label base x y => do
    let base ← findBase st base
    let id := st.frame.vecs.length
    if label.any (findLabel st.frame) then none
    else
      let vec := { id := id, name := label, base := base, x := x, y := y }
      return { frame := { st.frame with vecs := st.frame.vecs ++ [vec] }, lastVec := some id }
  | .obj o => do
    let obj ← o.resolve (findBase st)
    if !o.kind.refKnown frames then none
    else if o.name.any (findLabel st.frame) then none
    else return { st with frame := { st.frame with objs := st.frame.objs ++ [obj] } }

def frameItems (frames : List Name) : ℕ → Reading → List Token → Option Reading
  | 0, _, _ => none
  | _ + 1, st, [] => some st
  | n + 1, st, ts => do
    let (line, ts) ← frameItem ts
    let st ← addLine frames st line
    frameItems frames n st ts

def readItems (frames : List Name) (ts : List Token) : Option Reading :=
  frameItems frames (ts.length + 1) { frame := { vecs := [], objs := [] }, lastVec := none } ts

end Openmoko.Fped
