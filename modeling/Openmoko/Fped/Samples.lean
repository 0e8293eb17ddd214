import Openmoko.Fped.Meas

/-!
# Measurement points (`meas.c`)

The samples of a vector are a list in the order of their positions. Where a vector is posted with
comparable sets of frames at one position, only the larger set is kept. Coordinates are those of the
code, of 32 bits, and so are their differences.
-/

namespace Openmoko.Fped

section Bitset

variable {n : ℕ}

def bitsetGe (a b : BitVec n) : Bool := ~~~a &&& b = 0#n

def bitsetOr (a b : BitVec n) : BitVec n := a ||| b

end Bitset

@[ext]
structure Coord where
  x : Int32
  y : Int32
  deriving DecidableEq

structure Sample (n : ℕ) where
  pos : Coord
  frameSet : BitVec n
  deriving DecidableEq

def measPost {n : ℕ} (pos : Coord) (frameSet : BitVec n) : List (Sample n) → List (Sample n)
  | [] => [⟨pos, frameSet⟩]
  | s :: samples =>
    if pos.y < s.pos.y then ⟨pos, frameSet⟩ :: s :: samples
    else if pos.y > s.pos.y then s :: measPost pos frameSet samples
    else if pos.x < s.pos.x then ⟨pos, frameSet⟩ :: s :: samples
    else if pos.x ≠ s.pos.x then s :: measPost pos frameSet samples
    else if bitsetGe s.frameSet frameSet then s :: samples
    else if bitsetGe frameSet s.frameSet then
      { s with frameSet := bitsetOr s.frameSet frameSet } :: samples
    else s :: measPost pos frameSet samples

/-- The samples after all instances of a vector were posted. -/
def measPostAll {n : ℕ} (posted : List (Sample n)) : List (Sample n) :=
  posted.foldl (fun samples s => measPost s.pos s.frameSet samples) []

/-- `lt_x`, `lt_y` and `lt_xy`. -/
inductive LtOp where
  | x
  | y
  | xy
  deriving DecidableEq, Repr

def ltX (a b : Coord) : Bool := a.x < b.x

def ltY (a b : Coord) : Bool := a.y < b.y

def ltXY (a b : Coord) : Bool := a.y < b.y || (a.y = b.y && a.x < b.x)

def LtOp.lt : LtOp → Coord → Coord → Bool
  | .x => ltX
  | .y => ltY
  | .xy => ltXY

def closer (da db : Int32) : Bool :=
  let absA := if da < 0 then -da else da
  let absB := if db < 0 then -db else db
  if absA < absB then true
  else if absA > absB then false
  else da > db

def betterNext (lt : LtOp) (a0 b0 b : Coord) : Bool :=
  if !lt.lt a0 b0 then true
  else if !lt.lt a0 b then false
  else if lt.lt b b0 then true
  else if lt.lt b0 b then false
  else
    match lt with
    | .xy => false
    | .x => closer (b.y - a0.y) (b0.y - a0.y)
    | .y => closer (b.x - a0.x) (b0.x - a0.x)

def qualifies {n : ℕ} (qual : Option (BitVec n)) (s : Sample n) : Bool :=
  match qual with
  | none => true
  | some qual => bitsetGe s.frameSet qual

section Find

variable {n : ℕ} (lt : LtOp)

variable (samples : List (Sample n))

def measFindMin (qual : Option (BitVec n)) : Option (Sample n) :=
  samples.foldl (fun min s =>
    if qualifies qual s then
      match min with
      | none => some s
      | some min =>
        if lt.lt s.pos min.pos || (!lt.lt min.pos s.pos && ltXY s.pos min.pos) then some s
        else some min
    else min) none

def measFindNext (ref : Coord) (qual : Option (BitVec n)) :
    Option (Sample n) :=
  samples.foldl (fun next s =>
    if qualifies qual s then
      match next with
      | none => some s
      | some next => if betterNext lt ref next.pos s.pos then some s else some next
    else next) none

def measFindMax (qual : Option (BitVec n)) : Option (Sample n) :=
  samples.foldl (fun max s =>
    if qualifies qual s then
      match max with
      | none => some s
      | some max =>
        if lt.lt max.pos s.pos || (!lt.lt s.pos max.pos && ltXY max.pos s.pos) then some s
        else some max
    else max) none

end Find

end Openmoko.Fped
