import Openmoko.Fped.ExprParser

/-!
# Measurements (`dump.c`, `fpd.y`)

When measurements are written and read, all vectors have names, so a vector is known by its frame and
its name, and a frame by its name. Whether the qualifiers of a vector can be reached makes a warning
and nothing else, and is left out, as are the debugging directives that may stand between
measurements.
-/

namespace Openmoko.Fped

inductive MeasType where
  | xyNext
  | xNext
  | yNext
  | xyMax
  | xMax
  | yMax
  deriving DecidableEq, Repr

/-- A vector; the root frame has no name. -/
structure VecRef where
  frame : Option Name
  vec : Name
  deriving DecidableEq, Repr

/-- `struct obj` of type `ot_meas`, with its `struct meas`. -/
structure Meas where
  name : Option Name
  type : MeasType
  label : Option (List Char)
  inverted : Bool
  base : VecRef
  lowQual : List Name
  high : VecRef
  highQual : List Name
  offset : Option Expr
  deriving DecidableEq, Repr

/-- What the rules for measurements look up. -/
structure Drawing where
  rootVecs : List Name
  rootObjs : List Name
  frames : List (Name × List Name)
  deriving DecidableEq, Repr

def findFrame (d : Drawing) (name : Name) : Option (Name × List Name) :=
  d.frames.find? fun f => f.1 = name

def measTypeName : MeasType → String
  | .xyNext => "meas"
  | .xNext => "measx"
  | .yNext => "measy"
  | .xyMax => "meas"
  | .xMax => "measx"
  | .yMax => "measy"

def MeasType.isMax : MeasType → Bool
  | .xyNext | .xNext | .yNext => false
  | .xyMax | .xMax | .yMax => true

def measOpText (type : MeasType) (inverted : Bool) : String :=
  if type.isMax then (if inverted then "<<" else ">>") else if inverted then "<-" else "->"

def framePart : Option Name → Text
  | none => []
  | some frame => nameText frame ++ text "."

def printMeasBase (base : VecRef) (qual : List Name) : Text :=
  qual.flatMap (fun frame => nameText frame ++ text "/") ++ framePart base.frame ++
    nameText base.vec

def labelPart : Option (List Char) → Text
  | none => []
  | some label => text "\"" ++ nameText label ++ text "\"" ++ text " "

def offsetPart : Option Expr → Text
  | none => []
  | some offset => text " " ++ unparse (some offset)

def printMeas (obj : Meas) : Text :=
  text (measTypeName obj.type) ++ text " " ++ labelPart obj.label ++
    printMeasBase obj.base obj.lowQual ++
    text " " ++ text (measOpText obj.type obj.inverted) ++ text " " ++
    printMeasBase obj.high obj.highQual ++ offsetPart obj.offset

def dumpMeasurements (objs : List Meas) : Text := objs.flatMap fun obj => printMeas obj ++ text "\n"

def duplicateQualifier : List Name → Bool
  | [] => false
  | a :: rest => rest.contains a || duplicateQualifier rest

def qbase (d : Drawing) : List Token → Option ((VecRef × List Name) × List Token)
  | .id name :: .ch '/' :: ts =>
    (qbase d ts).bind fun ((vec, qualifiers), ts) =>
      if (findFrame d name).isNone then none
      else if duplicateQualifier (name :: qualifiers) then none
      else some ((vec, name :: qualifiers), ts)
  | .id frame :: .ch '.' :: .id name :: ts =>
    match findFrame d frame with
    | none => none
    | some f => if name ∈ f.2 then some ((⟨some frame, name⟩, []), ts) else none
  | .id _ :: .ch '.' :: _ => none
  | .id name :: ts => if name ∈ d.rootVecs then some ((⟨none, name⟩, []), ts) else none
  | _ => none

def measType : Keyword → Option MeasType
  | .meas => some .xyNext
  | .measx => some .xNext
  | .measy => some .yNext
  | _ => none

def MeasType.toMax : MeasType → MeasType
  | .xyNext => .xyMax
  | .xNext => .xMax
  | .yNext => .yMax
  | type => type

def measOp : Token → Option (Bool × Bool)
  | .next => some (false, false)
  | .nextInverted => some (false, true)
  | .max => some (true, false)
  | .maxInverted => some (true, true)
  | _ => none

def optString : List Token → Option (List Char) × List Token
  | .string str :: ts => (some str, ts)
  | ts => (none, ts)

def startsExpr : Token → Bool
  | .number _ | .string _ | .id _ | .ch '(' | .ch '-' => true
  | _ => false

def optExpr (ts : List Token) : Option (Option Expr × List Token) :=
  if ts.head?.any startsExpr then (parseExpr ts).map fun (e, ts) => (some e, ts)
  else some (none, ts)

def unlabeledMeas (d : Drawing) : List Token → Option (Meas × List Token)
  | .keyword k :: ts => do
    let type ← measType k
    let (label, ts) := optString ts
    let ((base, lowQual), ts) ← qbase d ts
    let (max, inverted) ← ts.head?.bind measOp
    let ((high, highQual), ts) ← qbase d ts.tail
    let (offset, ts) ← optExpr ts
    return ({ name := none, type := if max then type.toMax else type, label := label
              inverted := inverted, base := base, lowQual := lowQual, high := high
              highQual := highQual, offset := offset }, ts)
  | _ => none

def moreMeasurements (d : Drawing) : ℕ → List Name → List Token → Option (List Meas)
  | 0, _, _ => none
  | _ + 1, _, [] => some []
  | n + 1, labels, .label name :: ts => do
    let (obj, ts) ← unlabeledMeas d ts
    if name ∈ labels then none
    else
      let objs ← moreMeasurements d n (labels ++ [name]) ts
      return { obj with name := some name } :: objs
  | n + 1, labels, ts => do
    let (obj, ts) ← unlabeledMeas d ts
    let objs ← moreMeasurements d n labels ts
    return obj :: objs

def optMeasurements (d : Drawing) (ts : List Token) : Option (List Meas) :=
  if ts = [] then some []
  else do
    let (obj, ts) ← unlabeledMeas d ts
    let objs ← moreMeasurements d (ts.length + 1) (d.rootVecs ++ d.rootObjs) ts
    return obj :: objs

end Openmoko.Fped
