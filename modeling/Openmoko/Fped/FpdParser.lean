import Openmoko.Fped.Fpd

/-!
# The statements of a file (`fpd.y`)

The parser takes one statement after the other; which ones may come next is its phase. A measurement
is looked up in the frames as they are when it is read.
-/

namespace Openmoko.Fped

inductive Phase where
  | defs
  | body
  | setup (unit allow : Bool)
  | items
  | meas
  deriving DecidableEq, Repr

def varList : List Token → Option (List Name × List Token)
  | .id name :: .ch ',' :: ts => (varList ts).map fun (names, ts) => (name :: names, ts)
  | .id name :: ts => some ([name], ts)
  | _ => none

def rowValues : ℕ → List Token → Option (ℕ × List Token)
  | 0, _ => none
  | n + 1, ts => do
    let (_, ts) ← parseExpr ts
    match ts with
    | .ch ',' :: ts => (rowValues n ts).map fun (values, ts) => (values + 1, ts)
    | ts => return (1, ts)

def rows (vars : ℕ) : ℕ → List Token → Option (List Token)
  | 0, _ => none
  | n + 1, .ch '{' :: ts => do
    let (values, ts) ← rowValues (ts.length + 1) ts
    let ts ← expect '}' ts
    if vars ≠ values then none else rows vars n ts
  | _ + 1, ts => some ts

def tableRule (ts : List Token) : Option (Stmt × List Token) := do
  let ts ← expect '{' ts
  let (names, ts) ← varList ts
  let ts ← expect '}' ts
  let ts ← rows names.length (ts.length + 1) ts
  return (.vars names, ts)

def setRule : List Token → Option (Stmt × List Token)
  | .id name :: .ch '=' :: ts => (parseExpr ts).map fun (_, ts) => (.vars [name], ts)
  | _ => none

def loopRule : List Token → Option (Stmt × List Token)
  | .id name :: .ch '=' :: ts => do
    let (_, ts) ← parseExpr ts
    let ts ← expect ',' ts
    let (_, ts) ← parseExpr ts
    return (.vars [name], ts)
  | _ => none

def optNum : List Token → ℚ × List Token
  | .number num :: ts => (num.n, ts)
  | ts => (0, ts)

def sortItems : ℕ → List Token → Option (List Token)
  | 0, _ => none
  | n + 1, .ch '+' :: .id _ :: ts => sortItems n ts
  | n + 1, .ch '-' :: .id _ :: ts => sortItems n ts
  | n + 1, .id _ :: .id _ :: ts => sortItems n (optNum ts).2
  | _ + 1, ts => some ts

def delRule : List Token → Option (Stmt × List Token)
  | .id frame :: .ch '.' :: .id name :: ts => some (.del (some frame) name, ts)
  | .id _ :: .ch '.' :: _ => none
  | .id name :: ts => some (.del none name, ts)
  | _ => none

def moveRule : List Token → Option (Stmt × List Token)
  | .id name :: ts =>
    match optNum ts with
    | (anchor, .id dest :: ts) => some (.move name ⌊anchor⌋.toNat dest, ts)
    | _ => none
  | _ => none

def linkRule : List Token → Option (Stmt × List Token)
  | .id name :: .id frame :: .ch '.' :: .ch '@' :: ts => some (.link name (some frame) .origin, ts)
  | .id name :: .id frame :: .ch '.' :: .id vec :: ts =>
    some (.link name (some frame) (.named vec), ts)
  | .id _ :: .id _ :: .ch '.' :: _ => none
  | .id name :: ts => (baseRule ts).map fun (base, ts) => (.link name none base, ts)
  | _ => none

def debugItem : Keyword → List Token → Option (Stmt × List Token)
  | .dbgDel, ts => delRule ts
  | .dbgMove, ts => moveRule ts
  | .dbgFrame, ts => linkRule ts
  | .dbgPrint, ts => (parseExpr ts).map fun (e, ts) => (.print e, ts)
  | .dbgMeas, .id name :: ts => some (.showMeas name, ts)
  | .dbgDump, ts => some (.dump, ts)
  | .dbgTsort, .ch '{' :: ts => do
    let ts ← sortItems (ts.length + 1) ts
    let ts ← expect '}' ts
    return (.other, ts)
  | _, _ => none

def isDirective : Keyword → Bool
  | .dbgDel | .dbgMove | .dbgFrame | .dbgPrint | .dbgMeas | .dbgDump | .dbgExit | .dbgTsort => true
  | _ => false

def itemStmt : List Token → Option (Stmt × List Token)
  | .keyword .table :: ts => tableRule ts
  | .keyword .set :: ts => setRule ts
  | .keyword .loop :: ts => loopRule ts
  | .keyword k :: ts =>
    if isDirective k then debugItem k ts
    else (frameItem (.keyword k :: ts)).map fun (line, ts) => (.line line, ts)
  | ts => (frameItem ts).map fun (line, ts) => (.line line, ts)

def measStmt (st : Fpd) (label : Option Name) (ts : List Token) : Option (Stmt × List Token) :=
  (unlabeledMeas (drawing st) ts).map fun (m, ts) => (.meas label m, ts)

def measItem (st : Fpd) : List Token → Option (Stmt × List Token)
  | .label name :: ts => measStmt st (some name) ts
  | .keyword k :: ts =>
    if isDirective k then debugItem k ts else measStmt st none (.keyword k :: ts)
  | _ => none

def isPackageName (str : List Char) : Bool :=
  str ≠ [] && str.all fun c => ' ' ≤ c && c ≤ '~'

def unitRule : List Token → Option (List Token)
  | .id name :: ts =>
    if name = "mm".toList ∨ name = "mil".toList ∨ name = "auto".toList then some ts else none
  | _ => none

def fileStmt (phase : Phase) (st : Fpd) : List Token → Option (Stmt × Phase × List Token)
  | .keyword .package :: .string str :: ts =>
    if phase = .defs ∧ isPackageName str then some (.other, .setup false false, ts) else none
  | .keyword .unit :: ts =>
    match phase with
    | .defs => (unitRule ts).map fun ts => (.other, .setup true false, ts)
    | .setup false allow => (unitRule ts).map fun ts => (.other, .setup true allow, ts)
    | _ => none
  | .keyword .allowTouch :: ts | .keyword .allowOverlap :: ts =>
    match phase with
    | .defs => some (.other, .setup false true, ts)
    | .setup unit false => some (.other, .setup unit true, ts)
    | _ => none
  | .keyword .meas :: ts => firstMeas (.keyword .meas :: ts)
  | .keyword .measx :: ts => firstMeas (.keyword .measx :: ts)
  | .keyword .measy :: ts => firstMeas (.keyword .measy :: ts)
  | ts => (itemStmt ts).map fun (s, ts) => (s, .items, ts)
where
  firstMeas (ts : List Token) : Option (Stmt × Phase × List Token) :=
    (measStmt st none ts).map fun (s, ts) => (s, .meas, ts)

def readStmt : Phase → Fpd → List Token → Option (Stmt × Phase × List Token)
  | .defs, st, ts =>
    match ts with
    | .keyword .frame :: .id name :: .ch '{' :: ts => some (.frameDef name, .body, ts)
    | ts => fileStmt .defs st ts
  | .body, _, ts =>
    match ts with
    | .ch '}' :: ts => some (.frameEnd, .defs, ts)
    | ts => (itemStmt ts).map fun (s, ts) => (s, .body, ts)
  | .meas, st, ts => (measItem st ts).map fun (s, ts) => (s, .meas, ts)
  | phase, st, ts => fileStmt phase st ts

structure Parse where
  phase : Phase
  st : Fpd
  tokens : List Token

def Parse.start (s : Text) : Parse where
  phase := .defs
  st := .start
  tokens := scan { start := .initial, isTable := false, disableKeywords := false } s

def parseStep (out : Outside) (p : Parse) : Option Parse := do
  let (s, phase, ts) ← readStmt p.phase p.st p.tokens
  let st ← act out p.st s
  return { phase := phase, st := st, tokens := ts }

/-- The file ends here. -/
def Parse.Done (p : Parse) : Prop := p.tokens = [] ∧ p.phase ≠ .body

/-- `generate_frame`: the frames that are begun, in order. A frame is gone through once for each
combination of rows and loop values, `rounds` times; something that fails ends it earlier. `none`
when it does not end within the depth. -/
def generateFrame (frames : List FpdFrame) (rounds : Option Name → List (Option Name) → ℕ) :
    ℕ → Option Name → List (Option Name) → Option (List (Option Name))
  | 0, _, _ => none
  | depth + 1, name, begun =>
    (List.replicate (rounds name begun) (refsOf frames name)).flatten.foldlM
      (fun begun ref => generateFrame frames rounds depth (some ref) begun) (begun ++ [name])

def instantiate (st : Fpd) (rounds : Option Name → List (Option Name) → ℕ) (depth : ℕ) :
    Option (List (Option Name)) := generateFrame st.frames rounds depth none []

end Openmoko.Fped
