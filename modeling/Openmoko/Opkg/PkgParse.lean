import Openmoko.Opkg.PkgDepends

/-!
# Parsing a control stanza (`pkg_parse.c`)

A stanza is a list of lines. Each line is a field, or continues the description or the list of
configuration files. The fields are read into buffers of fixed size; `none` stands for a line that
writes past the end of one, or that leaves one unset.
-/

namespace Openmoko.Opkg

def lineIsBlank (line : List Byte) : Bool := line.all isspace

def rawLines : List Byte → List (List Byte)
  | [] => []
  | c :: text =>
    if c = LF then [] :: rawLines text
    else
      match rawLines text with
      | [] => [[c]]
      | line :: lines => (c :: line) :: lines

/-- The fields that are kept as they are written. -/
inductive TextField where
  | priority | filename | section | size | source | tags | md5sum | maintainer | installedSize
  | description
  deriving DecidableEq

/-- What `pkg_parse_raw` fills. -/
structure ParsedPkg extends PkgVersion, Relations where
  name : Option (List Byte)
  architecture : Option (List Byte)
  stateWant : StateWant
  stateFlag : ℕ
  stateStatus : StateStatus
  conflictsStr : List (List Byte)
  replacesStr : List (List Byte)
  providesStr : List (List Byte)
  conffiles : List (List Byte × List Byte)
  essential : Bool
  autoInstalled : Bool
  installedTime : ℕ
  text : TextField → Option (List Byte)

def pkgInit : ParsedPkg where
  epoch := 0
  version := none
  revision := none
  preDependsStr := []
  dependsStr := []
  recommendsStr := []
  suggestsStr := []
  name := none
  architecture := none
  stateWant := .unknown
  stateFlag := 0
  stateStatus := .notInstalled
  conflictsStr := []
  replacesStr := []
  providesStr := []
  conffiles := []
  essential := false
  autoInstalled := false
  installedTime := 0
  text _ := none

def isGenericFieldType (type line : List Byte) : Bool := hasPrefix line type

def parseGenericFieldType (type raw : List Byte) : List Byte := trimAlloc (raw.drop (type.length + 1))

variable (raw : List Byte)

def scanWord : Option (List Byte × List Byte) :=
  let start := raw.dropWhile isspace
  let word := start.takeWhile (!isspace ·)
  if word = [] then none else some (word, start.dropWhile (!isspace ·))

def pkgStateWantMap : List (StateWant × List Byte) :=
  [(.unknown, ascii "unknown"), (.install, ascii "install"), (.deinstall, ascii "deinstall"),
    (.purge, ascii "purge")]

def pkgStateFlagMap : List (ℕ × List Byte) :=
  [(0, ascii "ok"), (1, ascii "reinstreq"), (2, ascii "hold"), (4, ascii "replace"),
    (8, ascii "noprune"), (16, ascii "prefer"), (32, ascii "obsolete"), (256, ascii "user")]

def pkgStateStatusMap : List (StateStatus × List Byte) :=
  [(.notInstalled, ascii "not-installed"), (.unpacked, ascii "unpacked"),
    (.halfConfigured, ascii "half-configured"), (.installed, ascii "installed"),
    (.halfInstalled, ascii "half-installed"), (.configFiles, ascii "config-files"),
    (.postInstFailed, ascii "post-inst-failed"), (.removalFailed, ascii "removal-failed")]

def pkgStateWantFromStr (str : List Byte) : StateWant :=
  ((pkgStateWantMap.find? fun entry => entry.2 = str).map Prod.fst).getD .unknown

def pkgStateStatusFromStr (str : List Byte) : StateStatus :=
  ((pkgStateStatusMap.find? fun entry => entry.2 = str).map Prod.fst).getD .notInstalled

def COMMA : Byte := UInt8.ofNat ','.toNat

def flagsFromStr : List (ℕ × List Byte) → List Byte → ℕ → ℕ
  | [], _, sf => sf
  | (value, sfname) :: map, str, sf =>
    if hasPrefix str sfname then
      let str := str.drop sfname.length
      if str.head? = some COMMA then flagsFromStr map str.tail (sf ||| value) else sf ||| value
    else flagsFromStr map str sf

def pkgStateFlagFromStr (str : List Byte) : ℕ :=
  if str = ascii "ok" then 0 else flagsFromStr pkgStateFlagMap str 0

def parseStatus (pkg : ParsedPkg) (raw : List Byte) : Option ParsedPkg := do
  guard (hasPrefix raw (ascii "Status:"))
  let (swStr, raw) ← scanWord (raw.drop 7)
  let (sfStr, raw) ← scanWord raw
  let (ssStr, _) ← scanWord raw
  guard (swStr.length < 64 ∧ sfStr.length < 64 ∧ ssStr.length < 64)
  return { pkg with
    stateWant := pkgStateWantFromStr swStr
    stateFlag := pkgStateFlagFromStr sfStr
    stateStatus := pkgStateStatusFromStr ssStr }

def parseEntries : ℕ → List Byte → Option (List (List Byte))
  | 0, _ => some []
  | turns + 1, raw =>
    if raw = [] then some []
    else do
      let raw := raw.dropWhile isspace
      let buff := raw.takeWhile (· ≠ COMMA)
      guard (buff.length < 2048)
      let rest ← parseEntries turns (raw.dropWhile (· ≠ COMMA)).tail
      return trimAlloc buff :: rest

def parseDependsString : Option (List (List Byte)) :=
  let raw := raw.dropWhile (!isspace ·)
  if lineIsBlank raw then some [] else parseEntries raw.length raw

def alterProvidesLine : List Byte :=
  let raw := if hasPrefix raw (ascii "Provides:") then raw.drop 9 else raw
  ascii "Provides: opkg_internal_use_only, " ++ raw.dropWhile isspace

def parseConffileWords : ℕ → List Byte → Option (List (List Byte × List Byte))
  | 0, _ => some []
  | turns + 1, raw =>
    match scanWord raw with
    | none => some []
    | some (fileName, raw) =>
      match scanWord raw with
      | none => if fileName.length < 1048 then some [] else none
      | some (md5sum, raw) => do
        guard (fileName.length < 1048 ∧ md5sum.length < 1048)
        let rest ← parseConffileWords turns raw
        return (fileName, md5sum) :: rest

def parseConffiles : Option (List (List Byte × List Byte)) :=
  let raw := if hasPrefix raw (ascii "Conffiles:") then raw.drop 10 else raw
  parseConffileWords raw.length raw

def digitValue (c : Byte) : ℕ :=
  if isdigit c then c.toNat - 48
  else if isupper c then c.toNat - 55
  else if islower c then c.toNat - 87
  else 36

variable (platform : Platform)

/-- `strtoul(s, NULL, 0)`. -/
def strtoulAnyBase (s : List Byte) : ℕ :=
  let start := s.dropWhile isspace
  let negative := start.head? == some 45
  let body := if negative || start.head? == some 43 then start.tail else start
  let (base, digits) :=
    if (hasPrefix body (ascii "0x") || hasPrefix body (ascii "0X")) &&
        (body.drop 2).head?.any (digitValue · < 16) then (16, body.drop 2)
    else if body.head? = some 48 then (8, body)
    else (10, body)
  let value :=
    ((digits.map digitValue).takeWhile (· < base)).foldl (fun value d => base * value + d) 0
  if platform.ulongMax < value then platform.ulongMax
  else if negative then (platform.ulongMax + 1 - value) % (platform.ulongMax + 1)
  else value

structure ParseState where
  pkg : ParsedPkg
  readingConffiles : Bool
  readingDescription : Bool
  pkgFalseProvides : Bool

namespace ParseState

def init : ParseState where
  pkg := pkgInit
  readingConffiles := false
  readingDescription := false
  pkgFalseProvides := true

def set (st : ParseState) (pkg : ParsedPkg) : ParseState := { st with pkg := pkg }

def setText (st : ParseState) (field : TextField) (value : List Byte) : ParseState :=
  st.set { st.pkg with text := Function.update st.pkg.text field (some value) }

end ParseState

/-- A field: what its line begins with, and what is done with the line. -/
structure FieldType where
  type : List Byte
  parse : ParseState → List Byte → Option ParseState

namespace FieldType

def kept (type : String) (name : String) (field : TextField) : FieldType where
  type := ascii type
  parse st line := some (st.setText field (parseGenericFieldType (ascii name) line))

def relation (type : String) (store : ParsedPkg → List (List Byte) → ParsedPkg) : FieldType where
  type := ascii type
  parse st line := (parseDependsString line).map fun entries => st.set (store st.pkg entries)

/-- A field that is read into the package and never fails. -/
def plain (type : String) (store : ParsedPkg → List Byte → ParsedPkg) : FieldType where
  type := ascii type
  parse st line := some (st.set (store st.pkg line))

def provides : FieldType where
  type := ascii "Provides"
  parse st line := (parseDependsString (alterProvidesLine line)).map fun entries =>
    { st.set { st.pkg with providesStr := entries } with pkgFalseProvides := false }

def status : FieldType where
  type := ascii "Status"
  parse st line := (parseStatus st.pkg line).map st.set

def conffiles : FieldType where
  type := ascii "Conffiles"
  parse st line := (parseConffiles line).map fun conffiles =>
    { st.set { st.pkg with conffiles := st.pkg.conffiles ++ conffiles } with
      readingConffiles := true }

def description : FieldType where
  type := ascii "Description"
  parse st line := some
    { st.setText .description (parseGenericFieldType (ascii "Description") line) with
      readingConffiles := false
      readingDescription := true }

end FieldType

def fieldTypes : List FieldType :=
  [.plain "Package:" fun pkg line =>
      { pkg with name := some (parseGenericFieldType (ascii "Package") line) },
    .kept "Priority:" "Priority" .priority,
    .provides,
    .relation "Pre-Depends" fun pkg entries => { pkg with preDependsStr := entries },
    .plain "Architecture:" fun pkg line =>
      { pkg with architecture := some (parseGenericFieldType (ascii "Architecture") line) },
    .plain "Auto-Installed:" fun pkg line =>
      { pkg with
        autoInstalled := pkg.autoInstalled ||
          parseGenericFieldType (ascii "Auto-Installed:") line == ascii "yes" },
    .kept "Filename:" "Filename" .filename,
    .kept "Section:" "Section" .section,
    .kept "Size:" "Size" .size,
    .kept "Source:" "Source" .source,
    .status,
    .relation "Suggests" fun pkg entries => { pkg with suggestsStr := entries },
    .kept "Tags:" "Tags" .tags,
    .kept "MD5sum:" "MD5sum" .md5sum,
    .kept "MD5Sum:" "MD5Sum" .md5sum,
    .kept "Maintainer" "Maintainer" .maintainer,
    .kept "Installed-Size:" "Installed-Size" .installedSize,
    .plain "Installed-Time:" fun pkg line =>
      { pkg with
        installedTime :=
          strtoulAnyBase platform (parseGenericFieldType (ascii "Installed-Time") line) },
    .plain "Essential:" fun pkg line =>
      { pkg with
        essential := pkg.essential ||
          parseGenericFieldType (ascii "Essential") line == ascii "yes" },
    .plain "Version" fun pkg line =>
      { pkg with
        toPkgVersion := (parseVersion platform pkg.toPkgVersion line).getD pkg.toPkgVersion },
    .conffiles,
    .relation "Conflicts" fun pkg entries => { pkg with conflictsStr := entries },
    .description,
    .relation "Depends" fun pkg entries => { pkg with dependsStr := entries },
    .relation "Recommends" fun pkg entries => { pkg with recommendsStr := entries },
    .relation "Replaces" fun pkg entries => { pkg with replacesStr := entries }]

def continueLine (st : ParseState) (line : List Byte) : Option ParseState :=
  if hasPrefix line (ascii " ") then
    if st.readingDescription then
      some (st.setText .description ((st.pkg.text .description).getD [] ++ [LF] ++ line))
    else if st.readingConffiles then
      (parseConffiles line).map fun conffiles =>
        st.set { st.pkg with conffiles := st.pkg.conffiles ++ conffiles }
    else some st
  else some st

def parseLine (st : ParseState) (line : List Byte) : Option ParseState :=
  match (fieldTypes platform).find? fun field => isGenericFieldType field.type line with
  | some field => field.parse st line
  | none => continueLine st line

def endsStanza (line : List Byte) : Bool := lineIsBlank line && line.head? != some 32

def parseLines (platform : Platform) :
    List (List Byte) → ParseState → Option (ParseState × List (List Byte))
  | [], st => some (st, [])
  | line :: lines, st =>
    if endsStanza line then some (st, lines)
    else do
      let st ← parseLine platform st line
      parseLines platform lines st

def INTERNAL_USE_ONLY : List Byte := ascii "opkg_internal_use_only"

/-- `pkg_parse_raw` on a new package: the package, whether it has a name, and the lines left. -/
def pkgParseRaw (lines : List (List Byte)) :
    Option (ParsedPkg × Bool × List (List Byte)) := do
  let (st, rest) ← parseLines platform lines ParseState.init
  let pkg :=
    if st.pkgFalseProvides then { st.pkg with providesStr := [INTERNAL_USE_ONLY] } else st.pkg
  return (pkg, pkg.name.isSome, rest)

end Openmoko.Opkg
