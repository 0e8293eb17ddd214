import Mathlib.Data.List.DropRight
import Mathlib.Logic.Function.Basic
import Openmoko.Library.Decimal
import Openmoko.Opkgutils.Version

/-!
# Packages of opkg-utils and their index (`opkg.py`)

A file is the list of its lines, each with its newline.
-/

namespace Openmoko.Opkgutils

/-- The attributes in a package's `__dict__` that are read anywhere. -/
inductive Attr where
  | package | version | parsedVersion | architecture | maintainer | source | description | depends
  | provides | replaces | conflicts | recommends | suggests | sectionName | installedSize | filename
  | homepage | oe | priority | tags | fn
  deriving DecidableEq, Repr

def Attr.name : Attr → Text
  | package => ascii "package"
  | version => ascii "version"
  | parsedVersion => ascii "parsed_version"
  | architecture => ascii "architecture"
  | maintainer => ascii "maintainer"
  | source => ascii "source"
  | description => ascii "description"
  | depends => ascii "depends"
  | provides => ascii "provides"
  | replaces => ascii "replaces"
  | conflicts => ascii "conflicts"
  | recommends => ascii "recommends"
  | suggests => ascii "suggests"
  | sectionName => ascii "section"
  | installedSize => ascii "installed_size"
  | filename => ascii "filename"
  | homepage => ascii "homepage"
  | oe => ascii "oe"
  | priority => ascii "priority"
  | tags => ascii "tags"
  | fn => ascii "fn"

def Attr.all : List Attr :=
  [package, version, parsedVersion, architecture, maintainer, source, description, depends,
    provides, replaces, conflicts, recommends, suggests, sectionName, installedSize, filename,
    homepage, oe, priority, tags, fn]

def Attr.ofName (name : Text) : Option Attr := Attr.all.find? (·.name == name)

/-- `md5` and `size` are computed when they are asked for and not there. -/
structure Package where
  dict : Attr → Option Text
  md5 : Option Text
  size : Option ℤ

def Package.new : Package where
  dict := Function.update (fun _ => none) .version (some (ascii "none"))
  md5 := none
  size := none

def isxdigit (c : Byte) : Bool := isdigit c || (97 ≤ c && c ≤ 102)

/-- What is asked about a file: the hexadecimal digest of its contents, and its size. -/
structure File where
  hexdigest : Text
  size : ℕ
  hexdigest_ne : hexdigest ≠ []
  isxdigit_of_mem : ∀ c ∈ hexdigest, isxdigit c = true

def File.empty : File where
  hexdigest := ascii "d41d8cd98f00b204e9800998ecf8427e"
  size := 0
  hexdigest_ne := by decide
  isxdigit_of_mem := List.all_eq_true.mp rfl

variable (files : Text → Option File)

variable (pkg : Package)

def Package.getMd5 : Option Text :=
  match pkg.md5 with
  | some md5 => some md5
  | none => do
    let fn ← pkg.dict .fn
    let file ← files fn
    return file.hexdigest

def truthy (value : Option Text) : Option Text := value.filter (· ≠ [])

def Package.getSize : Option ℤ :=
  match pkg.size with
  | some size => some size
  | none =>
    match truthy (pkg.dict .fn) with
    | none => some 0
    | some fn => do
      let file ← files fn
      return file.size

def rstrip (s : Text) : Text := s.rdropWhile isspace

/-- `int(s)`, which does not mind blanks around the number. -/
def parseInt (s : Text) : Option ℤ :=
  let start := rstrip (s.dropWhile isspace)
  let negative := start.head? == some 45
  let digits := if negative || start.head? == some 43 then start.tail else start
  if digits = [] ∨ ¬ digits.all isdigit then none
  else some (if negative then -(decimalValue digits : ℤ) else decimalValue digits)

/-- The fields of a record, in their order. -/
inductive Field where
  | attr (a : Attr)
  | md5
  | size
  | installedSize
  deriving DecidableEq, Repr

def fields : List (Text × Field) :=
  [(ascii "Package", .attr .package), (ascii "Version", .attr .version),
    (ascii "Depends", .attr .depends), (ascii "Provides", .attr .provides),
    (ascii "Replaces", .attr .replaces), (ascii "Conflicts", .attr .conflicts),
    (ascii "Suggests", .attr .suggests), (ascii "Recommends", .attr .recommends),
    (ascii "Section", .attr .sectionName), (ascii "Architecture", .attr .architecture),
    (ascii "Maintainer", .attr .maintainer), (ascii "MD5Sum", .md5), (ascii "Size", .size),
    (ascii "InstalledSize", .installedSize), (ascii "Filename", .attr .filename),
    (ascii "Source", .attr .source), (ascii "Description", .attr .description),
    (ascii "OE", .attr .oe), (ascii "HomePage", .attr .homepage),
    (ascii "Priority", .attr .priority), (ascii "Tags", .attr .tags)]

/-- What is written for the field, if it is. -/
def Package.value (pkg : Package) : Field → Option (Option Text)
  | .attr a => some (truthy (pkg.dict a))
  | .md5 => (pkg.getMd5 files).map fun md5 => truthy (some md5)
  | .size => (pkg.getSize files).map fun size => if size = 0 then none else some (formatInt size)
  | .installedSize =>
    match truthy (pkg.dict .installedSize) with
    | none => some none
    | some size => (parseInt size).map fun size => some (formatInt size)

def fieldText (label : Text) (value : Option Text) : Text :=
  match value with
  | none => []
  | some value => label ++ ascii ": " ++ value ++ [LF]

def Package.repr : Option Text := do
  let out ← fields.mapM fun (label, field) => (pkg.value files field).map (fieldText label)
  return out.flatten ++ [LF]

def splitLines : Text → List Text
  | [] => []
  | c :: s =>
    if c = LF then [LF] :: splitLines s
    else
      match splitLines s with
      | [] => [[c]]
      | line :: lines => (c :: line) :: lines

/-- `[\w-]` -/
def isNameByte (c : Byte) : Bool := isalpha c || isdigit c || c == 95 || c == 45

def lower (s : Text) : Text := s.map fun c => if isupper c then c + 32 else c

/-- `re.match(r'([\w-]*?):\s*(.*)', line)`, with the name in lower case. -/
def matchField (line : Text) : Option (Text × Text) :=
  match line.dropWhile isNameByte with
  | 58 :: rest => some (lower (line.takeWhile isNameByte), anything (rest.dropWhile isspace))
  | _ => none

def Package.setField (name value : Text) : Option Package :=
  if name = ascii "size" then (parseInt value).map fun size => { pkg with size := some size }
  else if name = ascii "md5sum" then some { pkg with md5 := some value }
  else
    match Attr.ofName name with
    | some a => some { pkg with dict := Function.update pkg.dict a (some value) }
    | none =>
      if name = ascii "md5" ∧ pkg.md5.isSome then some { pkg with md5 := some value }
      else some pkg

def readControl : Option (Text × Text) → Package → List Text → Option (Package × List Text)
  | none, pkg, [] => some (pkg, [])
  | some (name, value), pkg, [] => (pkg.setField name value).map (·, [])
  | none, pkg, line :: lines => readControl (matchField (rstrip line)) pkg lines
  | some (name, value), pkg, line :: lines =>
    if line.head? = some 32 then readControl (some (name, value ++ [LF] ++ line)) pkg lines
    else do
      let pkg ← pkg.setField name value
      if line.head? = some LF then
        return (pkg, lines)
      readControl (matchField (rstrip line)) pkg lines

/-- The packages by name and architecture. -/
abbrev Packages := List (Text × Package)

def formatAttr (value : Option Text) : Text := value.getD (ascii "None")

def Package.key : Text :=
  formatAttr (pkg.dict .package) ++ ascii ":" ++ formatAttr (pkg.dict .architecture)

variable (packages : Packages)

def Packages.get (name : Text) : Option Package := packages.lookup name

def Packages.set (name : Text) (pkg : Package) : Packages :=
  if (packages.get name).isSome then
    packages.map fun entry => if entry.1 = name then (name, pkg) else entry
  else packages ++ [(name, pkg)]

def Package.parsedVersion (pkg : Package) : Option Version :=
  match truthy (pkg.dict .parsedVersion) with
  | some _ => none
  | none => do
    let version ← pkg.dict .version
    parseVersion version

def Package.compareVersion (self ref : Package) : Option ℤ := do
  let selfVersion ← self.parsedVersion
  let refVersion ← ref.parsedVersion
  selfVersion.compare refVersion

def Packages.addPackage (pkg : Package) : Option (Packages × ℕ) := do
  let name := pkg.key
  let packages := if (packages.get name).isSome then packages else packages.set name pkg
  let old ← packages.get name
  let r ← pkg.compareVersion old
  return if 0 ≤ r then (packages.set name pkg, 0) else (packages, 1)

def Packages.addAll : Packages → List Package → Option (Packages × List ℕ)
  | packages, [] => some (packages, [])
  | packages, pkg :: pkgs => do
    let (packages, code) ← packages.addPackage pkg
    let (packages, codes) ← packages.addAll pkgs
    return (packages, code :: codes)

/-- The loop of `opkg-make-index` over the files of a directory and their packages: the index, and
the files that are moved away. -/
def makeIndex : Packages → List (Text × Package) → Option (Packages × List Text)
  | packages, [] => some (packages, [])
  | packages, (basename, pkg) :: entries => do
    let oldFilename := (packages.get pkg.key).bind fun old => truthy (old.dict .filename)
    let (packages, s) ← packages.addPackage pkg
    let (packages, moved) ← makeIndex packages entries
    return (packages, (if s = 0 then oldFilename.toList else [basename]) ++ moved)

def Packages.readRecords : ℕ → Packages → List Text → Option Packages
  | 0, packages, _ => some packages
  | left + 1, packages, lines => do
    let (pkg, lines) ← readControl none Package.new lines
    match truthy (pkg.dict .package) with
    | none => return packages
    | some _ =>
      let (packages, _) ← packages.addPackage pkg
      packages.readRecords left lines

def Packages.readPackagesFile (text : Text) : Option Packages :=
  packages.readRecords ((splitLines text).length + 1) (splitLines text)

def Packages.writePackagesFile : Option Text := do
  let names := (packages.map Prod.fst).mergeSort fun a b => a ≤ b
  let out ← names.mapM fun name => do
    let pkg ← packages.get name
    pkg.repr files
  return out.flatten

end Openmoko.Opkgutils
