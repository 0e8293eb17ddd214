import Openmoko.Library.CString

/-!
# Versions in opkg-utils (`opkg.py`)

Strings are lists of bytes. In a regular expression, a dot stands for any byte but a newline. A
function gives nothing where the program raises an exception.
-/

namespace Openmoko.Opkgutils

abbrev Text := List Byte

structure Version where
  epoch : ℕ
  version : Text
  deriving DecidableEq, Repr

variable (s : Text)

def anything : Text := s.takeWhile (· ≠ LF)

/-- `re.match('([^0-9]*)(.*)', s).groups()` -/
def splitAlpha : Text × Text :=
  (s.takeWhile (!isdigit ·), anything (s.dropWhile (!isdigit ·)))

/-- `re.match('([0-9]*)(.*)', s).groups()` -/
def splitNum : Text × Text := (s.takeWhile isdigit, anything (s.dropWhile isdigit))

def toNum (digits : Text) : ℤ := if digits = [] then -1 else decimalValue digits

def afterTurn : Text := (splitNum (splitAlpha s).2).2

theorem anything_length_le : (anything s).length ≤ s.length :=
  (List.takeWhile_sublist _).length_le

theorem afterTurn_length_le : (afterTurn s).length ≤ s.length :=
  calc (afterTurn s).length
      ≤ ((splitAlpha s).2.dropWhile isdigit).length := anything_length_le _
    _ ≤ (splitAlpha s).2.length := (List.dropWhile_sublist _).length_le
    _ ≤ (s.dropWhile (!isdigit ·)).length := anything_length_le _
    _ ≤ s.length := (List.dropWhile_sublist _).length_le

theorem afterTurn_length_lt {s : Text} (hs : s ≠ []) : (afterTurn s).length < s.length := by
  obtain ⟨c, s, rfl⟩ := List.exists_cons_of_ne_nil hs
  by_cases hc : isdigit c = true
  · have halpha : (splitAlpha (c :: s)).2 = anything (c :: s) := by simp [splitAlpha, hc]
    have hne : c ≠ LF := by
      rintro rfl
      exact absurd hc (by decide)
    have hcons : anything (c :: s) = c :: anything s := List.takeWhile_cons_of_pos (by simpa using hne)
    rw [afterTurn, halpha, hcons]
    calc (splitNum (c :: anything s)).2.length
        ≤ ((c :: anything s).dropWhile isdigit).length := anything_length_le _
      _ = ((anything s).dropWhile isdigit).length := by rw [List.dropWhile_cons_of_pos hc]
      _ ≤ (anything s).length := (List.dropWhile_sublist _).length_le
      _ ≤ s.length := anything_length_le s
      _ < (c :: s).length := Nat.lt_succ_self _
  · calc (afterTurn (c :: s)).length
        ≤ ((splitAlpha (c :: s)).2.dropWhile isdigit).length := anything_length_le _
      _ ≤ (splitAlpha (c :: s)).2.length := (List.dropWhile_sublist _).length_le
      _ ≤ ((c :: s).dropWhile (!isdigit ·)).length := anything_length_le _
      _ = (s.dropWhile (!isdigit ·)).length := by
        rw [List.dropWhile_cons_of_pos (by simpa using hc)]
      _ ≤ s.length := (List.dropWhile_sublist _).length_le
      _ < (c :: s).length := Nat.lt_succ_self _

def versioncompare (selfversion refversion : Text) : ℤ :=
  let (selfalpha, selfrest) := splitAlpha selfversion
  let (refalpha, refrest) := splitAlpha refversion
  if refalpha < selfalpha then 1
  else if selfalpha < refalpha then -1
  else
    let selfnum := toNum (splitNum selfrest).1
    let refnum := toNum (splitNum refrest).1
    if refnum < selfnum then 1
    else if selfnum < refnum then -1
    else if afterTurn selfversion = [] ∧ afterTurn refversion = [] then 0
    else versioncompare (afterTurn selfversion) (afterTurn refversion)
  termination_by selfversion.length + refversion.length
  decreasing_by
    rename_i hmore
    have hself := afterTurn_length_le selfversion
    have href := afterTurn_length_le refversion
    rw [not_and_or] at hmore
    rcases hmore with hmore | hmore
    · have hlt := afterTurn_length_lt (s := selfversion) (fun heq => hmore (by subst heq; rfl))
      omega
    · have hlt := afterTurn_length_lt (s := refversion) (fun heq => hmore (by subst heq; rfl))
      omega

def splitRevision : Text → Text × Option Text
  | [] => ([], none)
  | c :: s =>
    match s with
    | 45 :: 114 :: _ :: _ => ([c], some s)
    | _ =>
      let (start, revision) := splitRevision s
      (c :: start, revision)

/-- `re.match(r"(.+?)(-r.+)?$", s).groups()`; the dollar also matches before a last newline. -/
def verComps : Option (Text × Option Text) :=
  let rest := s.dropWhile (· ≠ LF)
  if anything s ≠ [] ∧ (rest = [] ∨ rest = [LF]) then some (splitRevision (anything s)) else none

def Version.compare (self ref : Version) : Option ℤ := do
  if ref.epoch < self.epoch then
    return 1
  if self.epoch < ref.epoch then
    return -1
  let selfVerComps ← verComps self.version
  let refVerComps ← verComps ref.version
  let r := versioncompare selfVerComps.1 refVerComps.1
  if r = 0 then
    return versioncompare (selfVerComps.2.getD []) (refVerComps.2.getD [])
  return r

/-- `parse_version`. There has to be a number before a colon. -/
def parseVersion (versionstr : Text) : Option Version :=
  match versionstr.dropWhile isdigit with
  | 58 :: rest =>
    let epochstr := versionstr.takeWhile isdigit
    if epochstr = [] then none else some ⟨decimalValue epochstr, anything rest⟩
  | _ => some ⟨0, versionstr⟩

end Openmoko.Opkgutils
