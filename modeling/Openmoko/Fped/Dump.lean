import Openmoko.Fped.ExprParser

/-!
# Dumping the vectors and objects of a frame (`dump.c`)

`order_frame` puts vectors and objects in the order in which they are written; the part of the text
that is made from it is modelled here, one line for each item. A vector is known by its address, an
object by its place in the list of the frame. What is `dumped` is what is in the order already.
-/

namespace Openmoko.Fped

/-- `struct vec`; the base is `none` for the origin of the frame. -/
structure Vec where
  id : ℕ
  name : Option Name
  base : Option ℕ
  x : Expr
  y : Expr
  deriving DecidableEq, Repr

inductive PadType where
  | normal
  | bare
  | trace
  | paste
  | mask
  deriving DecidableEq, Repr

/-- What is particular to the types of objects, but for measurements. Anchors are `α`: vectors in
memory, words in a text. -/
inductive ObjKind (α : Type) where
  | frame (ref : Name)
  | line (other : α) (width : Option Expr)
  | rect (other : α) (width : Option Expr)
  | pad (name : List Char) (other : α) (rounded : Bool) (type : PadType)
  | hole (other : α)
  | arc (start stop : α) (width : Option Expr)
  deriving DecidableEq, Repr

structure Obj (α : Type) where
  name : Option Name
  base : α
  kind : ObjKind α
  deriving DecidableEq, Repr

def ObjKind.map {α β : Type} (f : α → β) : ObjKind α → ObjKind β
  | .frame ref => .frame ref
  | .line other width => .line (f other) width
  | .rect other width => .rect (f other) width
  | .pad name other rounded type => .pad name (f other) rounded type
  | .hole other => .hole (f other)
  | .arc start stop width => .arc (f start) (f stop) width

def Obj.map {α β : Type} (f : α → β) (obj : Obj α) : Obj β :=
  { name := obj.name, base := f obj.base, kind := obj.kind.map f }

def ObjKind.others {α : Type} : ObjKind α → List α
  | .frame _ => []
  | .line other _ | .rect other _ | .pad _ other _ _ | .hole other => [other]
  | .arc start stop _ => [start, stop]

def Obj.anchors {α : Type} (obj : Obj α) : List α := obj.base :: obj.kind.others

structure Frame where
  vecs : List Vec
  objs : List (Obj (Option ℕ))
  deriving DecidableEq, Repr

/-- `struct order`: a vector, or an object with the vector that it is written after. -/
inductive Item where
  | vec (v : Vec)
  | obj (prev : Option ℕ) (place : ℕ) (o : Obj (Option ℕ))
  deriving DecidableEq, Repr

def Item.vecId? : Item → Option ℕ
  | .vec v => some v.id
  | .obj _ _ _ => none

def Item.objPlace? : Item → Option ℕ
  | .vec _ => none
  | .obj _ place _ => some place

variable (items : List Item)

def vecDumped (id : ℕ) : Bool := (items.filterMap Item.vecId?).contains id

def objDumped (place : ℕ) : Bool :=
  (items.filterMap Item.objPlace?).contains place

variable (vecs : List Vec)

def nVecRefs (id : ℕ) : ℕ := vecs.countP fun walk => walk.base = some id

def need (base : Option ℕ) (prev : ℕ) : Bool := base = some prev

def later (items : List Item) : Option ℕ → Bool
  | none => false
  | some base => !vecDumped items base

def mayPutObjNow (obj : Obj (Option ℕ)) (prev : ℕ) : Bool :=
  obj.anchors.any (need · prev) && !obj.anchors.any (later items)

def putObj (prev : Option ℕ) (place : ℕ) (obj : Obj (Option ℕ)) : List Item :=
  if objDumped items place then items else items ++ [.obj prev place obj]

def putObjsAfter (prev : ℕ) : ℕ → List (Obj (Option ℕ)) → List Item → List Item
  | _, [], items => items
  | place, obj :: objs, items =>
    putObjsAfter prev (place + 1) objs
      (if mayPutObjNow items obj prev then putObj items (some prev) place obj else items)

def nextBased (id : ℕ) : List Vec → Option (Vec × List Vec)
  | [] => none
  | next :: rest => if next.base = some id then some (next, rest) else nextBased id rest

def recurseVec (frame : Frame) : ℕ → Vec → List Vec → List Item → Option (List Item)
  | 0, _, _, _ => none
  | depth + 1, vec, rest, items =>
    let items := putObjsAfter vec.id 0 frame.objs (items ++ [.vec vec])
    if nVecRefs frame.vecs vec.id = 1 then
      match nextBased vec.id rest with
      | none => none
      | some (next, rest) => recurseVec frame depth next rest items
    else some items

def startsChain (vec : Vec) : Bool :=
  match vec.base with
  | none => true
  | some base => nVecRefs vecs base ≠ 1

def orderVecs (frame : Frame) : List Vec → List Item → Option (List Item)
  | [], items => some items
  | vec :: rest, items =>
    if startsChain frame.vecs vec then
      (recurseVec frame frame.vecs.length vec rest items).bind (orderVecs frame rest)
    else orderVecs frame rest items

def putRest : ℕ → List (Obj (Option ℕ)) → List Item → List Item
  | _, [], items => items
  | place, obj :: objs, items => putRest (place + 1) objs (putObj items none place obj)

def orderFrame (frame : Frame) : Option (List Item) :=
  (orderVecs frame frame.vecs []).map (putRest 0 frame.objs)

/-- How an anchor is written. -/
inductive BaseText where
  | origin
  | dot
  | named (name : Name)
  deriving DecidableEq, Repr

def vecNames : List Name := vecs.filterMap Vec.name

def vecName (id : ℕ) : Option Name :=
  (vecs.find? fun v => v.id = id).bind Vec.name

/-- `"__%d"`, which fits into its buffer up to seven digits. -/
def generatedName (n : ℕ) : Name := '_' :: '_' :: Nat.toDigits 10 n

def freeName : Name :=
  (((List.range (vecs.length + 1)).map generatedName).find? fun s => s ∉ vecNames vecs).getD []

def generateName (id : ℕ) : List Vec :=
  vecs.map fun v => if v.id = id then { v with name := some (freeName vecs) } else v

def ensureName (id : ℕ) : List Vec :=
  if vecName vecs id = none then generateName vecs id else vecs

def nextOf (id : ℕ) : List Vec → Option ℕ
  | v :: next :: rest => if v.id = id then some next.id else nextOf id (next :: rest)
  | _ => none

def namedBase (id : ℕ) : BaseText := .named ((vecName vecs id).getD [])

def vecBaseName (base : Option ℕ) (next : ℕ) : List Vec × BaseText :=
  match base with
  | none => (vecs, .origin)
  | some base =>
    if nextOf base vecs = some next then (vecs, .dot)
    else (ensureName vecs base, namedBase (ensureName vecs base) base)

def objBaseName (prev base : Option ℕ) : BaseText :=
  match base with
  | none => .origin
  | some id => if base = prev then .dot else namedBase vecs id

def nameAnchors (prev : Option ℕ) (obj : Obj (Option ℕ)) : List Vec :=
  obj.anchors.foldl
    (fun vecs base =>
      match base with
      | none => vecs
      | some id => if base = prev then vecs else ensureName vecs id)
    vecs

def BaseText.text : BaseText → Text
  | .origin => Fped.text "@"
  | .dot => Fped.text "."
  | .named name => nameText name

def PadType.text : PadType → Text
  | .normal => []
  | .bare => Fped.text " bare"
  | .trace => Fped.text " trace"
  | .paste => Fped.text " paste"
  | .mask => Fped.text " mask"

def printObj {α : Type} [DecidableEq α] (name : α → BaseText) (obj : Obj α) : Text :=
  let blank := text " "
  let base := (name obj.base).text
  match obj.kind with
  | .frame ref => text "frame " ++ nameText ref ++ blank ++ base
  | .line other width =>
    text "line " ++ base ++ blank ++ (name other).text ++ blank ++ unparse width
  | .rect other width =>
    text "rect " ++ base ++ blank ++ (name other).text ++ blank ++ unparse width
  | .pad padName other rounded type =>
    (if rounded then text "r" else []) ++
      (text "pad " ++ text "\"" ++ nameText padName ++ text "\"" ++ blank) ++
      base ++ blank ++ (name other).text ++ type.text
  | .hole other => text "hole " ++ base ++ blank ++ (name other).text
  | .arc start stop width =>
    if start = stop then
      text "circ " ++ base ++ blank ++ (name start).text ++ blank ++ unparse width
    else
      text "arc " ++ base ++ blank ++ (name start).text ++ blank ++ (name stop).text ++ blank ++
        unparse width

def printVec (base : BaseText) (x y : Expr) : Text :=
  text "vec " ++ base.text ++ text "(" ++ unparse (some x) ++ text ", " ++ unparse (some y) ++
    text ")"

def itemLabel : Option Name → Text
  | none => []
  | some name => nameText name ++ text ": "

def dumpItem (indent : Text) (vecs : List Vec) : Item → List Vec × Text
  | .vec v =>
    let vecs := ensureName vecs v.id
    let label := itemLabel (vecName vecs v.id)
    let (vecs, base) := vecBaseName vecs v.base v.id
    (vecs, indent ++ label ++ printVec base v.x v.y ++ text "\n")
  | .obj prev _ o =>
    let vecs := nameAnchors vecs prev o
    (vecs, indent ++ itemLabel o.name ++ printObj (objBaseName vecs prev) o ++ text "\n")

def dumpItems (indent : Text) (vecs : List Vec) : List Item → List Vec × Text
  | [] => (vecs, [])
  | item :: items =>
    let (vecs, line) := dumpItem indent vecs item
    let (vecs, lines) := dumpItems indent vecs items
    (vecs, line ++ lines)

def dumpFrame (indent : Text) (frame : Frame) : Option (List Vec × Text) :=
  (orderFrame frame).map (dumpItems indent frame.vecs)

end Openmoko.Fped
