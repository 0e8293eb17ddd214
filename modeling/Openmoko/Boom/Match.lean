import Openmoko.Boom.SubParser
import Mathlib.Data.List.Basic

/-!
# Rule matching (`match.pl`)

A condition is matched twice. The first expression finds values in nXn notation, such as `4u7` or
`100R`; they are converted to SI notation with a normalised mantissa, and the second expression then
collects the subfields of what has become of the string.
-/

namespace Openmoko.Boom

def ZERO : Byte := 48
def POINT : Byte := 46
def BLANK : Byte := 32

/-- `tr/search/replace/`; a replacement list that is too short has its last character repeated. -/
def tr (search replace : List Byte) (c : Byte) : Byte :=
  match search.findIdx? (· == c) with
  | none => c
  | some i => replace.getD i (replace.getLastD c)

/-- `tr/GMk munpf/TGMk munp/` -/
def scaleUp : Byte → Byte :=
  tr [71, 77, 107, 32, 109, 117, 110, 112, 102] [84, 71, 77, 107, 32, 109, 117, 110, 112]

/-- `tr/GMk munpf/Mk munpa/`, which has no `f` for the `p`. -/
def scaleDown : Byte → Byte :=
  tr [71, 77, 107, 32, 109, 117, 110, 112, 102] [77, 107, 32, 109, 117, 110, 112, 97]

def MULTIPLIERS : List Byte := [71, 77, 107, 109, 117, 110, 112, 102]

/-- The strings `$v`, which has its point between two runs of digits, and `$exp`. -/
structure Mantissa where
  whole : List Byte
  frac : List Byte
  exp : Byte
  deriving DecidableEq, Repr

/-- `/(\d+)$unit(\d*)|(\d+)([GMkmunpf])(\d*)/` on a string that begins with digits. -/
def splitValue (unit : Byte) (value : List Byte) : Option Mantissa :=
  let whole := value.takeWhile isdigit
  match value.dropWhile isdigit with
  | letter :: rest =>
    if whole = [] then none
    else if letter = unit then some ⟨whole, rest.takeWhile isdigit, BLANK⟩
    else if letter ∈ MULTIPLIERS then some ⟨whole, rest.takeWhile isdigit, letter⟩
    else none
  | [] => none

/-- `s/^0*(\d+)/\1/` -/
def stripZeros (whole : List Byte) : List Byte :=
  let rest := whole.dropWhile (· == ZERO)
  if rest = [] then [ZERO] else rest

/-- `while ($v =~ /(\d+)(\d{3})\./)` -/
def below1000 (v : Mantissa) : Mantissa :=
  if 3 < v.whole.length then
    below1000
      { whole := v.whole.take (v.whole.length - 3)
        frac := v.whole.drop (v.whole.length - 3) ++ v.frac
        exp := scaleUp v.exp }
  else v
termination_by v.whole.length
decreasing_by
  rw [List.length_take]
  omega

/-- One turn of `while ($v =~ /\b0\.(\d+)/)`. -/
def shiftDown (v : Mantissa) : Mantissa :=
  if v.frac.length < 3 then
    { whole := v.frac ++ List.replicate (3 - v.frac.length) ZERO
      frac := []
      exp := scaleDown v.exp }
  else
    { whole := v.frac.take 3
      frac := v.frac.drop 3
      exp := scaleDown v.exp }

theorem length_shiftDown (v : Mantissa) : (shiftDown v).whole.length = 3 := by
  rw [shiftDown]
  split
  · rw [List.length_append, List.length_replicate]
    omega
  · rw [List.length_take]
    omega

def atLeast1 (v : Mantissa) : Mantissa :=
  if v.whole = [ZERO] ∧ v.frac ≠ [] then atLeast1 (shiftDown v) else v
termination_by if v.whole = [ZERO] then 1 else 0
decreasing_by
  rename_i h
  have hlength := length_shiftDown v
  rw [if_pos h.1, if_neg (by rintro heq; rw [heq] at hlength; cases hlength)]
  exact Nat.one_pos

/-- `s/(\.[1-9]*)0*/\1/` -/
def trimZeros (frac : List Byte) : List Byte :=
  frac.takeWhile (· != ZERO) ++ (frac.dropWhile (· != ZERO)).dropWhile (· == ZERO)

def normalize (v : Mantissa) : Mantissa :=
  let v := atLeast1 (below1000 { v with whole := stripZeros v.whole })
  { v with frac := trimZeros v.frac }

/-- `$v.$exp.$unit`, without the point or the blank at its end. -/
def render (v : Mantissa) (unit : Byte) : List Byte :=
  v.whole ++ (if v.frac = [] then [] else POINT :: v.frac) ++
    (if v.exp = BLANK then [] else [v.exp]) ++ [unit]

def findValue (unit : Byte) : List Byte → Option Mantissa
  | [] => none
  | c :: s =>
    match splitValue unit (c :: s) with
    | some v => some v
    | none => findValue unit s

theorem findValue_of_split {unit : Byte} {value : List Byte} {v : Mantissa}
    (h : splitValue unit value = some v) : findValue unit value = some v := by
  cases value with
  | nil => exact absurd h (by simp [splitValue])
  | cons c s => rw [findValue, h]

/-- What takes the place of a value; `none` where the script dies. -/
def convert (unit : Byte) (value : List Byte) : Option (List Byte) :=
  (findValue unit value).map fun v => render (normalize v) unit

/-- What `__cvn` has recorded of a value: `$cvn_unit`, `$cvn_from` and `$cvn_to`. -/
structure Conversion where
  unit : Byte
  start : Nat
  stop : Nat
  deriving DecidableEq, Repr

/-- The expression engine. A match of the first expression records values, as `keys %cvn_from` lists
them; a match of the second one names substrings, as `%+` lists them. A second expression that is
undefined stands for the one that matched last. -/
structure Engine where
  first : Word → Word → Option (List Conversion)
  second : Word → Option Word → Word → Option (List (Word × Word))
  distinct : ∀ m1 m2 s, ∀ named ∈ second m1 m2 s, (named.map Prod.fst).Nodup

def substr (s : Word) (offset len : Int) : Nat × Nat :=
  let start := if offset < 0 then s.length + offset else offset
  let stop := if len < 0 then s.length + len else start + len
  (start.toNat, stop.toNat)

def convertAll (s : Word) (off : Int) : List Conversion → Option Word
  | [] => some s
  | c :: cvn =>
    let len : Int := c.stop - c.start
    let at_ := substr s (c.start + off) len
    match convert c.unit ((s.take at_.2).drop at_.1) with
    | none => none
    | some v =>
      convertAll (s.take at_.1 ++ v ++ s.drop (max at_.1 at_.2)) (off + (v.length - len)) cvn

/-- How a match ends. A hit sets the field to what the string has become, and then what the second
expression has named. -/
inductive Outcome where
  | miss
  | dies
  | hit (s : Word) (named : List (Word × Word))

def setAll (found : Table Word) (named : List (Word × Word)) : Table Word :=
  named.foldl (fun found (name, s) => Function.update found name (some s)) found

section Rules

variable (engine : Engine)

def subMatch (s m1 : Word) (m2 : Option Word) : Outcome :=
  match engine.first m1 s with
  | none => .miss
  | some cvn =>
    match convertAll s 0 cvn with
    | none => .dies
    | some s =>
      match engine.second m1 m2 s with
      | none => .dies
      | some named => .hit s named

def isWordChar (c : Byte) : Bool := isalpha c || isdigit c || c == 95

/-- `([A-Za-z_]\w*)(:(\d+))?`, as the name it stands for and what follows. -/
def splitName (s : List Byte) : Option (Word × List Byte) :=
  let name := s.takeWhile isWordChar
  let rest := s.dropWhile isWordChar
  match name with
  | [] => none
  | c :: _ =>
    if isdigit c then none
    else
      match rest with
      | 58 :: rest' =>
        let index := rest'.takeWhile isdigit
        if index = [] then some (name, rest)
        else some (name ++ [95, 95] ++ index, rest'.dropWhile isdigit)
      | _ => some (name, rest)

/-- The first `$name` or `${name}` of a string: what stands before it, its name, and the rest. -/
def splitVariable (s : Word) : Option (Word × Word × Word) :=
  match s.dropWhile (· ≠ 36) with
  | 36 :: 123 :: rest =>
    match splitName rest with
    | some (name, 125 :: rest) => some (s.takeWhile (· ≠ 36), name, rest)
    | _ => none
  | 36 :: rest => (splitName rest).map fun (name, rest) => (s.takeWhile (· ≠ 36), name, rest)
  | _ => none

def subExpand (found : Table Word) : Nat → Word → Option Word
  | 0, _ => none
  | fuel + 1, s =>
    match splitVariable s with
    | none => some s
    | some (before, name, rest) =>
      match found name with
      | none => none
      | some value => subExpand found fuel (before ++ value ++ rest)

/-- A rule with its conditions and assignments as `keys` lists them. -/
structure RuleEntry where
  conditions : List (Word × Pattern)
  assignments : List (Word × Word)
  halt : Bool
  conditions_distinct : (conditions.map Prod.fst).Nodup
  assignments_distinct : (assignments.map Prod.fst).Nodup

def FN : Word := [70, 78]

def KICAD : List Word := (List.range 9).map fun i => [70, UInt8.ofNat (49 + i)]

def candidatesOf (field : Word) : List Word := if field = FN then KICAD else [field]

def matchAny (found : Table Word) (pattern : Pattern) : List Word → Outcome
  | [] => .miss
  | candidate :: candidates =>
    match found candidate with
    | none => matchAny found pattern candidates
    | some s =>
      match subMatch engine s (pattern.getD 1 []) pattern[2]? with
      | .miss => matchAny found pattern candidates
      | outcome => outcome

inductive Verdict where
  | miss
  | dies
  | applies (found : Table Word)

def matchAll (found : Table Word) : List (Word × Pattern) → Verdict
  | [] => .applies found
  | (field, pattern) :: conditions =>
    match matchAny engine found pattern (candidatesOf field) with
    | .miss => .miss
    | .dies => .dies
    | .hit s named => matchAll (setAll (Function.update found field (some s)) named) conditions

def setFields (fuel : Nat) (found field : Table Word) : List (Word × Word) → Option (Table Word)
  | [] => some field
  | (name, value) :: assignments =>
    match subExpand found fuel value with
    | none => none
    | some s => setFields fuel found (Function.update field name (some s)) assignments

def applyRules (fuel : Nat) (field : Table Word) : List RuleEntry → Option (Table Word × Bool)
  | [] => some (field, false)
  | rule :: rules =>
    match matchAll engine field rule.conditions with
    | .dies => none
    | .miss => applyRules fuel field rules
    | .applies found =>
      match setFields fuel found field rule.assignments with
      | none => none
      | some field => if rule.halt then some (field, true) else applyRules fuel field rules

end Rules

end Openmoko.Boom
