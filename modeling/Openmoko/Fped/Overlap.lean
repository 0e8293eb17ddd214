import Mathlib.Algebra.Order.Ring.Int
import Mathlib.Data.Nat.Sqrt

/-!
# Test for overlaps (`overlap.c`)

Pads and holes are taken apart into circles and rectangles, which are tested in pairs. Coordinates
are integers for which no product overflows.
-/

namespace Openmoko.Fped.Overlap

structure Coord where
  x : ℤ
  y : ℤ
  deriving DecidableEq

/-- `ao_none`, `ao_touch` and `ao_any`. -/
inductive AllowOverlap where
  | none
  | touch
  | any
  deriving DecidableEq, Repr

/-- `struct shape`. -/
inductive Shape where
  | circle (center : Coord) (r : ℤ)
  | rect (min max : Coord)
  deriving DecidableEq

def distPoint (a b : Coord) : ℤ := ((a.x - b.x) ^ 2 + (a.y - b.y) ^ 2).toNat.sqrt

def circleCircleOverlap (c1 : Coord) (r1 : ℤ) (c2 : Coord) (r2 : ℤ) (allow : AllowOverlap) : Bool :=
  if allow = .touch then distPoint c1 c2 < r1 + r2 else distPoint c1 c2 ≤ r1 + r2

def circleRectOverlap (c : Coord) (r : ℤ) (min max : Coord) (allow : AllowOverlap) : Bool :=
  if allow = .touch ∧ (c.x ≤ min.x - r ∨ c.x ≥ max.x + r) then false
  else if allow = .touch ∧ (c.y ≤ min.y - r ∨ c.y ≥ max.y + r) then false
  else if c.x < min.x - r ∨ c.x > max.x + r then false
  else if c.y < min.y - r ∨ c.y > max.y + r then false
  else true

def rectRectOverlap (min1 max1 min2 max2 : Coord) (allow : AllowOverlap) : Bool :=
  if allow = .touch ∧ (max1.x ≤ min2.x ∨ max2.x ≤ min1.x) then false
  else if allow = .touch ∧ (max1.y ≤ min2.y ∨ max2.y ≤ min1.y) then false
  else if max1.x < min2.x ∨ max2.x < min1.x then false
  else if max1.y < min2.y ∨ max2.y < min1.y then false
  else true

def shapesOverlap (a b : Shape) (allow : AllowOverlap) : Bool :=
  match a, b with
  | .circle c r, .rect min max => circleRectOverlap c r min max allow
  | .circle c1 r1, .circle c2 r2 => circleCircleOverlap c1 r1 c2 r2 allow
  | .rect min max, .circle c r => circleRectOverlap c r min max allow
  | .rect min1 max1, .rect min2 max2 => rectRectOverlap min1 max1 min2 max2 allow

inductive ObjType where
  | pad (rounded : Bool)
  | hole
  deriving DecidableEq

structure Inst where
  type : ObjType
  base : Coord
  other : Coord
  deriving DecidableEq

def Inst.rounded (a : Inst) : Bool :=
  match a.type with
  | .pad rounded => rounded
  | .hole => true

def sortCoord (a b : Coord) : Coord × Coord :=
  (⟨min a.x b.x, min a.y b.y⟩, ⟨max a.x b.x, max a.y b.y⟩)

def inside (a b : Inst) : Bool :=
  let (minA, maxA) := sortCoord a.base a.other
  let (minB, maxB) := sortCoord b.base b.other
  minA.x ≥ minB.x && maxA.x ≤ maxB.x && minA.y ≥ minB.y && maxA.y ≤ maxB.y

def doCircle (next : Shape → Bool) (x y r : ℤ) : Bool := next (.circle ⟨x, y⟩ r)

def doRect (next : Shape → Bool) (x y w h : ℤ) : Bool := next (.rect ⟨x, y⟩ ⟨x + w, y + h⟩)

def testOverlap (a : Inst) (next : Shape → Bool) : Bool :=
  let (min, max) := sortCoord a.base a.other
  let h := max.y - min.y
  let w := max.x - min.x
  if !a.rounded then doRect next min.x min.y w h
  else if h > w then
    let r := w / 2
    doCircle next (min.x + r) (max.y - r) r || doRect next min.x (min.y + r) w (h - 2 * r) ||
      doCircle next (min.x + r) (min.y + r) r
  else
    let r := h / 2
    doCircle next (min.x + r) (min.y + r) r || doRect next (min.x + r) min.y (w - 2 * r) h ||
      doCircle next (max.x - r) (min.y + r) r

def overlap (a b : Inst) (allow : AllowOverlap) : Bool :=
  if allow = .any then false
  else testOverlap a fun other => testOverlap b fun shape => shapesOverlap other shape allow

end Openmoko.Fped.Overlap
