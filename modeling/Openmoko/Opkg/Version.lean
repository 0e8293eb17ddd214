import Openmoko.Library.CString

/-!
# Versions

`opkg/libopkg/pkg.c`: the comparison of versions. A pointer into a version string is the list of
bytes it points to, the end of the list being the terminator; `none` is the null pointer. Characters
are classified in the C locale.
-/

namespace Openmoko.Opkg

def ZERO : Byte := 48
def TILDE : Byte := 126

/-- `*s` -/
def deref (s : List Byte) : Byte := s.headD NUL

variable (platform : Platform)

def charValue (c : Byte) : Int :=
  if platform.charSigned && 128 ≤ c then (c.toNat : Int) - 256 else c.toNat

def order (x : Byte) : Int :=
  if x = TILDE then -1
  else if isdigit x then 0
  else if x = NUL then 0
  else if isalpha x then charValue platform x
  else charValue platform x + 256

/-- `*s && !isdigit(*s)` for the character at `s`. -/
def isNonDigit (c : Byte) : Bool := c != NUL && !isdigit c

def nonDigitLoop (platform : Platform) (val ref : List Byte) :
    Except Int (List Byte × List Byte) :=
  if isNonDigit (deref val) || isNonDigit (deref ref) then
    let vc := order platform (deref val)
    let rc := order platform (deref ref)
    if vc ≠ rc then .error (vc - rc) else nonDigitLoop platform val.tail ref.tail
  else .ok (val, ref)
  termination_by val.length + ref.length
  decreasing_by
    rename_i hmore _
    rcases val with _ | ⟨v, val⟩ <;> rcases ref with _ | ⟨r, ref⟩ <;>
      simp [deref, isNonDigit] at hmore ⊢
    omega

def digitLoop : Int → List Byte → List Byte → Int × List Byte × List Byte
  | firstDiff, v :: val, r :: ref =>
    if isdigit v && isdigit r then
      digitLoop (if firstDiff = 0 then (v.toNat : Int) - r.toNat else firstDiff) val ref
    else (firstDiff, v :: val, r :: ref)
  | firstDiff, val, ref => (firstDiff, val, ref)

def digitTurn (val ref : List Byte) : Except Int (List Byte × List Byte) :=
  let (firstDiff, val, ref) := digitLoop 0 val ref
  if isdigit (deref val) then .error 1
  else if isdigit (deref ref) then .error (-1)
  else if firstDiff ≠ 0 then .error firstDiff
  else .ok (val, ref)

def numberTurn (val ref : List Byte) : Except Int (List Byte × List Byte) :=
  digitTurn (val.dropWhile (· == ZERO)) (ref.dropWhile (· == ZERO))

theorem nonDigitLoop_spec {platform : Platform} {val ref v r : List Byte}
    (hloop : nonDigitLoop platform val ref = .ok (v, r)) :
    (v <:+ val ∧ isNonDigit (deref v) = false) ∧ (r <:+ ref ∧ isNonDigit (deref r) = false) := by
  fun_induction nonDigitLoop platform val ref with
  | case1 => cases hloop
  | case2 val ref hmore vc rc heq ih =>
    obtain ⟨⟨hv, hvstop⟩, hr, hrstop⟩ := ih hloop
    exact ⟨⟨hv.trans (List.tail_suffix val), hvstop⟩, hr.trans (List.tail_suffix ref), hrstop⟩
  | case3 val ref hstop =>
    cases hloop
    simp only [Bool.or_eq_true, not_or, Bool.not_eq_true] at hstop
    exact ⟨⟨List.suffix_refl _, hstop.1⟩, List.suffix_refl _, hstop.2⟩

theorem digitLoop_suffix (firstDiff : Int) (val ref : List Byte) :
    (digitLoop firstDiff val ref).2.1 <:+ val ∧ (digitLoop firstDiff val ref).2.2 <:+ ref := by
  fun_induction digitLoop firstDiff val ref with
  | case1 firstDiff v val r ref hdigits ih =>
    exact ⟨ih.1.trans (List.suffix_cons v val), ih.2.trans (List.suffix_cons r ref)⟩
  | case2 => exact ⟨List.suffix_refl _, List.suffix_refl _⟩
  | case3 => exact ⟨List.suffix_refl _, List.suffix_refl _⟩

theorem digitTurn_spec {val ref v r : List Byte} (hturn : digitTurn val ref = .ok (v, r)) :
    (v <:+ val ∧ isdigit (deref v) = false) ∧ (r <:+ ref ∧ isdigit (deref r) = false) := by
  have hsuffix := digitLoop_suffix 0 val ref
  rw [digitTurn] at hturn
  generalize digitLoop 0 val ref = loop at hturn hsuffix
  obtain ⟨firstDiff, val', ref'⟩ := loop
  simp only at hturn hsuffix
  by_cases hv : isdigit (deref val') = true
  · rw [if_pos hv] at hturn
    cases hturn
  by_cases hr : isdigit (deref ref') = true
  · rw [if_neg hv, if_pos hr] at hturn
    cases hturn
  rw [if_neg hv, if_neg hr] at hturn
  by_cases hdiff : firstDiff = 0
  · rw [if_neg (not_not_intro hdiff)] at hturn
    cases hturn
    exact ⟨⟨hsuffix.1, by simpa using hv⟩, hsuffix.2, by simpa using hr⟩
  · rw [if_pos hdiff] at hturn
    cases hturn

theorem numberTurn_spec {val ref v r : List Byte} (hturn : numberTurn val ref = .ok (v, r)) :
    (v <:+ val ∧ isdigit (deref v) = false) ∧ (r <:+ ref ∧ isdigit (deref r) = false) := by
  obtain ⟨⟨hv, hvstop⟩, hr, hrstop⟩ := digitTurn_spec hturn
  exact ⟨⟨hv.trans (List.dropWhile_suffix _), hvstop⟩,
    hr.trans (List.dropWhile_suffix _), hrstop⟩

theorem turn_length_lt {platform : Platform} {val ref v r v' r' : List Byte}
    (hmore : deref val ≠ NUL ∨ deref ref ≠ NUL)
    (hloop : nonDigitLoop platform val ref = .ok (v, r)) (hturn : numberTurn v r = .ok (v', r')) :
    v'.length + r'.length < val.length + ref.length := by
  obtain ⟨⟨hv, hvstop⟩, hr, hrstop⟩ := nonDigitLoop_spec hloop
  obtain ⟨⟨hv', hvstop'⟩, hr', hrstop'⟩ := numberTurn_spec hturn
  have hvle := (hv'.trans hv).length_le
  have hrle := (hr'.trans hr).length_le
  -- if neither pointer moved, both point to a terminator
  by_contra hlength
  obtain rfl : v' = val := (hv'.trans hv).eq_of_length (by omega)
  obtain rfl : r' = ref := (hr'.trans hr).eq_of_length (by omega)
  obtain rfl : v = v' := hv.eq_of_length (le_antisymm hv.length_le hv'.length_le)
  obtain rfl : r = r' := hr.eq_of_length (le_antisymm hr.length_le hr'.length_le)
  rcases hmore with hval | href
  · simp [isNonDigit, hvstop', hval] at hvstop
  · simp [isNonDigit, hrstop', href] at hrstop

def verrevcmpLoop (platform : Platform) (val ref : List Byte) : Int :=
  if _hmore : deref val ≠ NUL ∨ deref ref ≠ NUL then
    match _hloop : nonDigitLoop platform val ref with
    | .error result => result
    | .ok (v, r) =>
      match _hturn : numberTurn v r with
      | .error result => result
      | .ok (v', r') => verrevcmpLoop platform v' r'
  else 0
  termination_by val.length + ref.length
  decreasing_by exact turn_length_lt _hmore _hloop _hturn

def verrevcmp (val ref : Option (List Byte)) : Int :=
  verrevcmpLoop platform (val.getD []) (ref.getD [])

structure PkgVersion where
  epoch : Nat
  version : Option (List Byte)
  revision : Option (List Byte)
  deriving DecidableEq, Repr

def pkgCompareVersions (pkg refPkg : PkgVersion) : Int :=
  if refPkg.epoch < pkg.epoch then 1
  else if pkg.epoch < refPkg.epoch then -1
  else
    let r := verrevcmp platform pkg.version refPkg.version
    if r ≠ 0 then r else verrevcmp platform pkg.revision refPkg.revision

end Openmoko.Opkg

/-!
## Version constraints

`opkg/libopkg/pkg_parse.c` reads a version, and two functions evaluate a constraint on it:
`version_constraints_satisfied` of `pkg_depends.c` for the dependencies of packages, and
`pkg_version_satisfied` of `pkg.c` for an operator given as text.
-/

namespace Openmoko.Opkg

def noVersion : PkgVersion := { epoch := 0, version := none, revision := none }

def strrchr (s : List Byte) (c : Byte) : Option (List Byte × List Byte) :=
  if c ∈ s then
    let after := (s.reverse.takeWhile (· != c)).reverse
    some (s.take (s.length - after.length - 1), after)
  else none

variable (platform : Platform)

def parseEpoch (raw : List Byte) : Option (Nat × List Byte) :=
  match strchr raw (UInt8.ofNat ':'.toNat) with
  | none => some (0, raw)
  | some colon =>
    let (epoch, eepochcolon) := strtoul platform raw
    if eepochcolon.length ≠ (raw.drop colon).length then none
    else if raw.drop (colon + 1) = [] then none
    else some (epoch, raw.drop (colon + 1))

/-- `parseVersion`; `none` is `EINVAL`, and the package is as before. -/
def parseVersion (pkg : PkgVersion) (raw : List Byte) : Option PkgVersion :=
  if raw = [] then none
  else
    let raw := if hasPrefix raw (ascii "Version:") then raw.drop 8 else raw
    match parseEpoch platform (raw.dropWhile isspace) with
    | none => none
    | some (epoch, raw) =>
      let version := pkg.version.getD raw
      match strrchr version (UInt8.ofNat '-'.toNat) with
      | none => some { epoch := epoch, version := some version, revision := some [] }
      | some (version, hyphen) =>
        some { epoch := epoch, version := some version, revision := some hyphen }

inductive VersionConstraint where
  | none
  | earlier
  | earlierEqual
  | equal
  | laterEqual
  | later
  deriving DecidableEq, Repr

structure Depend (A : Type) where
  constraint : VersionConstraint
  version : List Byte
  pkg : A
  deriving DecidableEq

/-- The `temp` a constraint is compared with. -/
def Depend.temp {A : Type} (depends : Depend A) : PkgVersion :=
  (parseVersion platform noVersion depends.version).getD noVersion

def versionConstraintsSatisfied {A : Type} (depends : Depend A)
    (pkg : PkgVersion) : Bool :=
  if depends.constraint = .none then true
  else
    let comparison := pkgCompareVersions platform pkg (depends.temp platform)
    if depends.constraint = .earlier ∧ comparison < 0 then true
    else if depends.constraint = .later ∧ comparison > 0 then true
    else if comparison = 0 then true
    else if depends.constraint = .laterEqual ∧ comparison ≥ 0 then true
    else if depends.constraint = .earlierEqual ∧ comparison ≤ 0 then true
    else false

def pkgVersionSatisfied (it ref : PkgVersion) (op : List Byte) : Bool :=
  let r := pkgCompareVersions platform it ref
  if op = ascii "<=" ∨ op = ascii "<" then r ≤ 0
  else if op = ascii ">=" ∨ op = ascii ">" then r ≥ 0
  else if op = ascii "<<" then r < 0
  else if op = ascii ">>" then r > 0
  else if op = ascii "=" then r = 0
  else false

end Openmoko.Opkg
