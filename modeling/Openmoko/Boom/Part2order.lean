import Openmoko.Library.Decimal
import Mathlib.Logic.Function.Basic

/-!
# Allocation of orders (`part2order`)

The parts list says for each component reference which parts may be used for it. For one part after
the other the script finds the cheapest way to buy what is wanted, prints an order line and hands
the quantity out to references, which it then withdraws from all parts they are listed for.
-/

namespace Openmoko.Boom

abbrev Ref := List Byte

/-- `"namespace item-number"` -/
abbrev Id := List Byte

def SPACE : Byte := 32

/-- A line of a parts list, split at blanks. -/
structure ParLine where
  ref : Ref
  fields : List (List Byte)
  deriving DecidableEq, Repr

/-- `splice(@f, 0, 2)` until nothing is left. -/
def ids : List (List Byte) → List Id
  | namespc :: item :: f => (namespc ++ SPACE :: item) :: ids f
  | [namespc] => [namespc ++ [SPACE]]
  | [] => []

/-- The hashes `%parts`, `%want` and `%comps`; the keys of an inner hash are a list. -/
structure Parts where
  refs : List Ref
  parts : Ref → List (List Byte)
  want : Id → Int
  comps : Id → List Ref

def noParts : Parts := ⟨[], fun _ => [], fun _ => 0, fun _ => []⟩

def addKey (keys : List Ref) (ref : Ref) : List Ref := if ref ∈ keys then keys else keys ++ [ref]

def listFor (ref : Ref) (p : Parts) (id : Id) : Parts :=
  { p with
    want := Function.update p.want id (p.want id + 1)
    comps := Function.update p.comps id (addKey (p.comps id) ref) }

def par (p : Parts) (line : ParLine) : Parts :=
  (ids line.fields).foldl (listFor line.ref)
    { p with
      refs := addKey p.refs line.ref
      parts := Function.update p.parts line.ref line.fields }

def parse (lines : List ParLine) : Parts := lines.foldl par noParts

/-- An offered quantity, which is positive, and its price per unit. -/
structure Offer (P : Type) where
  qty : Int
  price : P
  qty_pos : 0 < qty

/-- `$inv{id}`: items in stock, the currency, and what is offered. -/
structure Inventory (P : Type) where
  stock : Int
  currency : List Byte
  offers : List (Offer P)

/-- What Perl computes with prices; `zero` is also the value of one that is missing. -/
structure Arith (P : Type) where
  zero : P
  add : P → P → P
  times : P → Int → P
  lt : P → P → Bool
  cmp : P → P → Int
  truthy : P → Bool

def cmpString (a b : List Byte) : Int := if b < a then 1 else if a < b then -1 else 0

/-- `/^([[:alpha:]]+)(\d*)$/`; the dollar also matches before a newline at the end. -/
def splitCref (ref : Ref) : Option (List Byte × List Byte) :=
  let letters := ref.takeWhile isalpha
  let digits := (ref.dropWhile isalpha).takeWhile isdigit
  let rest := (ref.dropWhile isalpha).dropWhile isdigit
  if letters ≠ [] ∧ (rest = [] ∨ rest = [LF]) then some (letters, digits) else none

/-- `<=>` of two strings of digits: as integers if both fit into 64 bits, otherwise as doubles. -/
def cmpNumber (m n : ℕ) : Int :=
  if m < 2 ^ 64 ∧ n < 2 ^ 64 then (m : Int) - n else (roundDouble m : Int) - roundDouble n

def cmpCref (a b : Ref) : Int :=
  match splitCref a, splitCref b with
  | some (as, an), some (bs, bn) =>
    if as = bs then cmpNumber (decimalValue an) (decimalValue bn) else cmpString as bs
  | _, _ => cmpString a b

section Number

variable {P : Type} (arith : Arith P) (mult : Nat) (inv : Id → Option (Inventory P))

def stockOf (id : Id) : Int := (inv id).elim 0 Inventory.stock

def number (want : Id → Int) (id : Id) : Int :=
  let s := stockOf inv id
  let n := want id * mult
  if n < s then n else s

def firstPrice (id : Id) : P :=
  match inv id with
  | some { offers := offer :: _, .. } => offer.price
  | _ => arith.zero

def rank (want : Id → Int) (a b : Id) : Int :=
  let na := number mult inv want a
  let nb := number mult inv want b
  let pa := firstPrice arith inv a
  let pb := firstPrice arith inv b
  if na ≠ 0 ∧ !arith.truthy pa ∧ arith.truthy pb then 1
  else if nb ≠ 0 ∧ arith.truthy pa ∧ !arith.truthy pb then -1
  else if na ≠ nb then na - nb
  else arith.cmp pb pa

end Number

section Purchase

variable {P : Type} (arith : Arith P)

structure Purchase (P : Type) where
  left : Int
  order : Int
  price : P

def threshold (last : Bool) (offer : Offer P) : Int := if last then 1 else offer.qty

theorem threshold_pos (last : Bool) (offer : Offer P) : 0 < threshold last offer := by
  rw [threshold]
  split
  · exact Int.one_pos
  · exact offer.qty_pos

def buy (last : Bool) (offer : Offer P) (s : Purchase P) : Purchase P :=
  if threshold last offer ≤ s.left then
    buy last offer
      { left := s.left - offer.qty
        order := s.order + offer.qty
        price := arith.add s.price (arith.times offer.price offer.qty) }
  else s
termination_by s.left.toNat
decreasing_by
  have hqty := offer.qty_pos
  have hthreshold := threshold_pos last offer
  omega

def buyAll : List (Offer P) → Purchase P → Purchase P
  | [], s => s
  | [offer], s => buy arith true offer s
  | offer :: rest, s => buyAll rest (buy arith false offer s)

def addOffer (table : List (Offer P)) (offer : Offer P) : List (Offer P) :=
  if table.any (·.qty == offer.qty) then
    table.map fun old => if old.qty = offer.qty then offer else old
  else table ++ [offer]

def candidates (n : Int) (table : List (Offer P)) : List (Purchase P) :=
  (List.range table.length).reverse.map fun i =>
    buyAll arith (table.drop i).reverse ⟨n, 0, arith.zero⟩

/-- `best` holds `$best_price` and `$best_qty` once they are defined. -/
def choose (max : Int) (best : Option (Purchase P)) (s : Purchase P) : Option (Purchase P) :=
  if max < s.order then best
  else
    match best with
    | none => some s
    | some b => if arith.lt s.price b.price then some s else best

def searchOffers (n max : Int) :
    List (Offer P) → List (Offer P) → Option (Purchase P) → Option (Purchase P)
  | [], _, best => best
  | offer :: offers, table, best =>
    let table := addOffer table offer
    searchOffers n max offers table ((candidates arith n table).foldl (choose arith max) best)

end Purchase

/-- The hashes while orders are allocated, the references printed so far, and the log of `%want`:
its value with every reference printed until then. -/
structure Allocation where
  want : Id → Int
  comps : Id → List Ref
  printed : List Ref
  moments : List (List Ref × (Id → Int))

def Parts.start (p : Parts) : Allocation := ⟨p.want, p.comps, [], [([], p.want)]⟩

def withdraw (ref : Ref) (s : Allocation) (id : Id) : Allocation :=
  { s with
    want := Function.update s.want id (s.want id - 1)
    comps := Function.update s.comps id ((s.comps id).erase ref) }

def print (ref : Ref) (s : Allocation) : Allocation :=
  { s with
    printed := s.printed ++ [ref]
    moments := s.moments ++ [(s.printed ++ [ref], s.want)] }

def assign (parts : Ref → List (List Byte)) (ref : Ref) (s : Allocation) : Allocation :=
  print ref ((ids (parts ref)).foldl (withdraw ref) s)

/-- `(sort { &cmp_cref($a, $b); } keys %{ $comps{$id} })[0]` -/
def firstRef (keys : List Ref) : Option Ref := (keys.mergeSort fun a b => cmpCref a b ≤ 0).head?

/-- The references for which the ordered quantity is used, as they are printed. -/
def fill (parts : Ref → List (List Byte)) (mult : Nat) (hmult : 0 < mult) (id : Id) (qty : Int)
    (s : Allocation) : List Ref × Allocation :=
  match firstRef (s.comps id) with
  | none => ([], s)
  | some ref =>
    if qty < mult then ([], s)
    else
      let rest := fill parts mult hmult id (qty - mult) (assign parts ref s)
      (ref :: rest.1, rest.2)
termination_by qty.toNat
decreasing_by omega

/-- `id quantity currency cost ref ...` -/
structure Line (P : Type) where
  id : Id
  qty : Int
  currency : List Byte
  cost : P
  refs : List Ref

section Order

variable {P : Type} (arith : Arith P) (mult : Nat) (inv : Id → Option (Inventory P))
  (parts : Ref → List (List Byte))

def orderLine (hmult : 0 < mult) (id : Id) (s : Allocation) : List (Line P) × Allocation :=
  let n := number mult inv s.want id
  let n := n - n % mult
  if n = 0 then ([], s)
  else
    match inv id with
    | none => ([], s)
    | some inventory =>
      match searchOffers arith n inventory.stock inventory.offers [] none with
      | none => ([], s)
      | some best =>
        let filled := fill parts mult hmult id best.order s
        ([⟨id, best.order, inventory.currency, best.price, filled.1⟩], filled.2)

def orderLines (hmult : 0 < mult) : List Id → Allocation → List (Line P) × Allocation
  | [], s => ([], s)
  | id :: keys, s =>
    let first := orderLine arith mult inv parts hmult id s
    let rest := orderLines hmult keys first.2
    (first.1 ++ rest.1, rest.2)

end Order

/-- The script for the keys of `%want` in the order the hash has them; it dies of a multiplier of
zero at the first of them. -/
def part2order {P : Type} (arith : Arith P) (mult : Nat) (inv : Id → Option (Inventory P))
    (lines : List ParLine) (keys : List Id) : List (Line P) × Allocation :=
  let p := parse lines
  if hmult : 0 < mult then
    orderLines arith mult inv p.parts hmult
      (keys.mergeSort fun a b => rank arith mult inv p.want b a ≤ 0) p.start
  else ([], p.start)

end Openmoko.Boom
