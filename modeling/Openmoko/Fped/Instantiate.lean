import Openmoko.Fped.Eval

/-!
# Instantiating (`obj.c`)

From the root on, the items of a frame are generated for each row of its tables and each turn of its
loops, and with them the frames that it refers to. On the way the rows, loop values and parents are
set that the evaluation of an expression reads. What the vectors and objects themselves come to, and
the bounds of the loops, is given from outside: a function of all that is known at that point.
`none` is the outcome of an assertion that fails, and of calls nested deeper than is allowed for.
-/

namespace Openmoko.Fped.Obj

/-- Abort "loop"s at this limit. -/
def MAX_ITERATIONS : ℕ := 1000

/-- What `instantiation_error` points to. -/
inductive InstItem where
  | vec (v : Addr)
  | obj (o : Addr)
  | loop (l : Addr)
  deriving DecidableEq, Repr

/-- What instantiation changes. `log` is what it generates: the frames, and whether `active` was
set. -/
structure Instantiation where
  scene : Scene
  iterations : Addr → ℕ
  foundRow : Addr → Option Addr
  loopFound : Addr → ℤ
  found : ℕ
  searchSuspended : ℕ
  frameSet : Addr → Bool
  error : Option InstItem
  log : List (Addr × Bool)

/-- `vecs` tells how many of the instances of a frame's vectors are what is searched for, and the
vector that fails; `obj` tells the same of an object, and `frame` whether the instance of the frame
itself is what is searched for, given its reference. -/
structure ItemOracle where
  frame : Instantiation → Addr → Option Addr → ℕ
  vecs : Instantiation → Addr → ℕ × Option Addr
  obj : Instantiation → Addr → ℕ × Bool
  loopFrom : Scene → Addr → Option ℚ
  loopTo : Scene → Addr → Option ℚ

namespace Instantiation

def model (s : Instantiation) : Model := s.scene.model

def suspendSearch (s : Instantiation) : Instantiation :=
  { s with searchSuspended := s.searchSuspended + 1 }

def resumeSearch (s : Instantiation) : Option Instantiation :=
  if s.searchSuspended > 0 then some { s with searchSuspended := s.searchSuspended - 1 } else none

/-- `find_inst` for instances that match. -/
def findInst (matching : ℕ) (s : Instantiation) : Instantiation :=
  if s.searchSuspended = 0 then { s with found := s.found + matching } else s

def failAt (item : InstItem) (s : Instantiation) : Instantiation := { s with error := some item }

def setRow (t : Addr) (row : Option Addr) (s : Instantiation) : Instantiation :=
  { s with scene := { s.scene with currRow := Function.update s.scene.currRow t row } }

def setLoop (l : Addr) (change : LoopState → LoopState) (s : Instantiation) : Instantiation :=
  { s with
    scene :=
      { s.scene with
        loopState := Function.update s.scene.loopState l (change (s.scene.loopState l)) } }

def setParent (f : Addr) (inside : Bool) (parent : Option Addr) (s : Instantiation) :
    Instantiation :=
  { s with
    scene := { s.scene with currParent := Function.update s.scene.currParent f parent }
    frameSet := Function.update s.frameSet f inside }

end Instantiation

/-- A function that generates something returns whether it succeeded. -/
abbrev Generate := Instantiation → Option (Bool × Instantiation)

/-- A turn of a loop over choices: the search is suspended where the active one has been found. -/
def generateChoice (atActive : Instantiation → Bool) (body : Generate) : Generate := fun s => do
  let (ok, s) ← body (if atActive s then s.suspendSearch else s)
  let s ← if atActive s then s.resumeSearch else some s
  return (ok, s)

section

variable (items : ItemOracle) (recurse : Addr → Option Addr → Option Addr → Bool → Generate)

def generateObjs (f : Addr) (active : Bool) : List Addr → Generate
  | [], s => some (true, s)
  | o :: objs, s =>
    match (s.model.obj o).kind with
    | .frame ref => do
      let (ok, s) ← recurse ref (some f) (some o)
        (active && s.model.activeRef ref = some o) s
      if ok then generateObjs f active objs s else return (false, s)
    | kind =>
      -- a measurement belongs to the root frame
      if kind matches .meas _ _ ∧ s.model.frames.head? ≠ some f then none
      else
        let (matching, ok) := items.obj s o
        let s := s.findInst matching
        if ok then generateObjs f active objs s else some (false, s.failAt (.obj o))

def generateItems (f : Addr) (active : Bool) : Generate := fun s =>
  let s := { s with log := s.log ++ [(f, active)] }
  let (matching, failed) := items.vecs s f
  let s := s.findInst matching
  match failed with
  | some v => some (false, s.failAt (.vec v))
  | none => generateObjs items recurse f active (s.model.objs f) s

/-- The turns of a loop from the `n`-th on, of which `left` may follow: with the number of those
that succeeded, or `none` after a failure. -/
def loopTurns (l : Addr) (to_ : ℚ) (body : ℕ → Generate) :
    ℕ → ℕ → Instantiation → Option (Option ℕ × Instantiation)
  | left, n, s =>
    if (s.scene.loopState l).currValue.any (· ≤ to_) then
      match left with
      | 0 => some (none, s.failAt (.loop l))
      | left + 1 => do
        let before := s.found
        let (ok, s) ← generateChoice
          (fun s => s.loopFound l = (s.scene.loopState l).active) (body n) s
        if !ok then return (none, s)
        else
          let s :=
            if before ≠ s.found then
              { s with loopFound := Function.update s.loopFound l n }
            else s
          loopTurns l to_ body left (n + 1)
            (s.setLoop l fun loop => { loop with currValue := loop.currValue.map (· + 1) })
    else some (some n, s)

def runLoops (f : Addr) (active : Bool) : List Addr → Generate
  | [], s => generateItems items recurse f active s
  | l :: loops, s =>
    match items.loopFrom s.scene l, items.loopTo s.scene l with
    | some start, some to_ =>
      if (s.scene.loopState l).initialized then none
      else do
        let s := s.setLoop l fun loop =>
          { loop with currValue := some start, initialized := true }
        let (turns, s) ← loopTurns l to_
          (fun n s => runLoops f (active && (s.scene.loopState l).active = n) loops s)
          MAX_ITERATIONS 0 s
        let s := s.setLoop l fun loop => { loop with initialized := false }
        match turns with
        | none => return (false, s)
        | some n =>
          let s := s.setLoop l fun loop => { loop with currValue := none }
          return (true,
            if active then
              { s.setLoop l fun loop => { loop with n := start } with
                iterations := Function.update s.iterations l n }
            else s)
    | _, _ => some (false, s.failAt (.loop l))

/-- The rows of a table, one after the other; `curr_row` is NULL behind the last one. -/
def tableRows (t : Addr) (body : Addr → Generate) : List Addr → Generate
  | [], s => some (true, s.setRow t none)
  | row :: rows, s => do
    let before := s.found
    let (ok, s) ← generateChoice (fun s => s.foundRow t = s.model.activeRow t) (body row)
      (s.setRow t (some row))
    if !ok then return (false, s)
    else
      tableRows t body rows
        (if before ≠ s.found then
          { s with foundRow := Function.update s.foundRow t (some row) }
        else s)

def iterateTables (f : Addr) (active : Bool) : List Addr → Generate
  | [], s => runLoops items recurse f active (s.model.loops f) s
  | t :: tables, s =>
    tableRows t
      (fun row s => iterateTables f (active && s.model.activeRow t = some row) tables s)
      (s.model.rows t) s

end

/-- `generate_frame`, with calls nested to the given depth. -/
def generateFrame (items : ItemOracle) :
    ℕ → Addr → Option Addr → Option Addr → Bool → Generate
  | 0, _, _, _, _ => fun _ => none
  | depth + 1, f, parent, frameRef, active => fun s => do
    let s := s.findInst (items.frame s f frameRef)
    let s := s.setParent f true parent
    let (ok, s) ← iterateTables items (generateFrame items depth) f active (s.model.tables f) s
    return (ok, s.setParent f false none)

def resetAllLoops (s : Instantiation) : Instantiation :=
  { s with
    iterations := fun l =>
      if s.model.frames.any fun f => l ∈ s.model.loops f then 0 else s.iterations l }

def resetFound (s : Instantiation) : Instantiation :=
  { s with
    foundRow := fun t =>
      if s.model.frames.any fun f => t ∈ s.model.tables f then none else s.foundRow t
    loopFound := fun l =>
      if s.model.frames.any fun f => l ∈ s.model.loops f then -1 else s.loopFound l }

/-- `found_ref` is never set. -/
def activateFound (s : Instantiation) : Instantiation :=
  { s with
    scene :=
      { s.scene with
        model :=
          { s.model with
            activeRow := fun t =>
              if s.model.frames.any fun f => t ∈ s.model.tables f then
                (s.foundRow t).or (s.model.activeRow t)
              else s.model.activeRow t }
        loopState := fun l =>
          if (s.model.frames.any fun f => l ∈ s.model.loops f) ∧ s.loopFound l ≠ -1 then
            { s.scene.loopState l with active := s.loopFound l }
          else s.scene.loopState l } }

/-- `instantiate`; `finish` tells whether the holes, layers and measurements succeed. -/
def instantiate (items : ItemOracle) (depth : ℕ) (searching : Bool)
    (finish : Instantiation → Bool) : Generate := fun s =>
  match s.model.frames with
  | [] => none
  | root :: _ => do
    let s := resetFound (resetAllLoops s)
    let s :=
      { s with
        frameSet := fun _ => false, error := none, log := [], found := 0, searchSuspended := 0 }
    let (ok, s) ← generateFrame items depth root none none true s
    let s := if ok ∧ searching ∧ s.found ≠ 0 then activateFound s else s
    return (ok && finish s, s)

end Openmoko.Fped.Obj
