import Openmoko.Library.Machine
import Openmoko.Opkg.PkgHash

/-!
# Building the dependency graph (`pkg_depends.c`, `pkg_vec.c`, `pkg_hash.c`)

A parsed package comes with its relations as lists of strings. Inserting it into the hash parses
them into one array, merges the package with one that is the same, and enters its abstract package
in the reverse dependencies of the packages that it depends on. Abstract packages are known by their
names. What an insertion builds of provides, conflicts and replaces is left out.
-/

namespace Openmoko.Opkg

def trimAlloc (line : List Byte) : List Byte :=
  ((line.dropWhile isspace).reverse.dropWhile isspace).reverse

def PIPE : Byte := UInt8.ofNat '|'.toNat
def OPEN : Byte := UInt8.ofNat '('.toNat
def CLOSE : Byte := UInt8.ofNat ')'.toNat
def STAR : Byte := UInt8.ofNat '*'.toNat

def endsName (c : Byte) : Bool := isspace c || c == OPEN || c == STAR || c == PIPE

def parseConstraint (src : List Byte) : VersionConstraint × List Byte :=
  if hasPrefix src (ascii "<<") then (.earlier, src.drop 2)
  else if hasPrefix src (ascii "<=") then (.earlierEqual, src.drop 2)
  else if hasPrefix src (ascii ">=") then (.laterEqual, src.drop 2)
  else if hasPrefix src (ascii ">>") then (.later, src.drop 2)
  else if hasPrefix src (ascii "=") then (.equal, src.drop 1)
  else if hasPrefix src (ascii "<") then (.earlierEqual, src.drop 1)
  else if hasPrefix src (ascii ">") then (.laterEqual, src.drop 1)
  else (.none, src)

def parseVersionInfo (src : List Byte) : VersionConstraint × List Byte × List Byte :=
  if src.head? = some OPEN then
    let (constraint, src) := parseConstraint src.tail
    let src := src.dropWhile isspace
    (constraint, trimAlloc (src.takeWhile (· ≠ CLOSE)), src.dropWhile (· ≠ CLOSE))
  else (.none, [], src)

/-- One turn of the loop over the possibilities: the possibility, whether a `*` follows it, and the
rest of the string. -/
def parsePossibility (src : List Byte) : Depend (List Byte) × Bool × List Byte :=
  let pkgName := trimAlloc (src.takeWhile (!endsName ·))
  let src := (src.dropWhile (!endsName ·)).dropWhile isspace
  let (constraint, version, src) := parseVersionInfo src
  let src := src.dropWhile fun c => isspace c || c == CLOSE || c == PIPE
  if src.head? = some STAR then (⟨constraint, version, pkgName⟩, true, src.tail)
  else (⟨constraint, version, pkgName⟩, false, src)

def parsePossibilities : ℕ → List Byte → List (Depend (List Byte)) × Bool
  | 0, _ => ([], false)
  | n + 1, src =>
    let (possibility, greedy, rest) := parsePossibility src
    let (possibilities, greedyRest) := parsePossibilities n rest
    (possibility :: possibilities, greedy || greedyRest)

def parseDepends (dependStr : List Byte) : CompoundDepend (List Byte) :=
  let numOfOrs := dependStr.count PIPE
  let (possibilities, greedy) := parsePossibilities (numOfOrs + 1) dependStr
  { type := if greedy then .greedyDepend else .depend, possibilities := possibilities }

/-- The four lists of dependency strings; a list that was not given is empty. -/
structure Relations where
  preDependsStr : List (List Byte)
  dependsStr : List (List Byte)
  recommendsStr : List (List Byte)
  suggestsStr : List (List Byte)
  deriving DecidableEq

namespace Relations

def none : Relations := ⟨[], [], [], []⟩

/-- The array that `buildDepends` fills. -/
def built (r : Relations) : List (CompoundDepend (List Byte)) :=
  r.preDependsStr.map (fun s => { parseDepends s with type := .predepend }) ++
    r.recommendsStr.map (fun s => { parseDepends s with type := .recommend }) ++
    r.suggestsStr.map (fun s => { parseDepends s with type := .suggest }) ++
    r.dependsStr.map parseDepends

end Relations

/-- A package of the hash: `depends` is the parsed array. -/
structure HashedPkg extends Pkg (List Byte) where
  relations : Relations

def buildDepends (pkg : HashedPkg) : HashedPkg :=
  if pkg.relations = Relations.none then pkg
  else { pkg with depends := pkg.relations.built }

def pkgMerge (oldpkg newpkg : HashedPkg) (setStatus : Bool) : HashedPkg :=
  let merged :=
    if setStatus then
      { oldpkg with
        stateWant := newpkg.stateWant
        stateStatus := newpkg.stateStatus
        stateFlag := newpkg.stateFlag }
    else
      { oldpkg with
        stateWant := if oldpkg.stateWant = .unknown then newpkg.stateWant else oldpkg.stateWant
        stateStatus :=
          if oldpkg.stateStatus = .notInstalled then newpkg.stateStatus else oldpkg.stateStatus
        stateFlag := oldpkg.stateFlag ||| newpkg.stateFlag }
  if oldpkg.relations = Relations.none then
    { merged with relations := newpkg.relations, depends := newpkg.depends }
  else merged

def pkgVecInsertMerge (platform : Platform) (pkg : HashedPkg) (setStatus : Bool) :
    List HashedPkg → List HashedPkg × HashedPkg
  | [] => ([pkg], pkg)
  | old :: vec =>
    if isSamePkg platform pkg.toPkg old.toPkg then
      let kept := if setStatus then pkgMerge old pkg setStatus else pkg
      (kept :: vec, kept)
    else
      let (vec, kept) := pkgVecInsertMerge platform pkg setStatus vec
      (old :: vec, kept)

/-- What the abstract package of each name holds. -/
structure HashState where
  pkgs : List Byte → List HashedPkg
  stateStatus : List Byte → StateStatus
  dependedUponBy : List Byte → List (List Byte)

def HashState.init : HashState where
  pkgs _ := []
  stateStatus _ := .notInstalled
  dependedUponBy _ := []

def enterDependers (abPkg : List Byte) (dependedUponBy : List Byte → List (List Byte))
    (possibilities : List (Depend (List Byte))) : List Byte → List (List Byte) :=
  possibilities.foldl (fun lists possibility =>
    Function.update lists possibility.pkg (lists possibility.pkg ++ [abPkg])) dependedUponBy

def buildDependedUponBy (s : HashState) (pkg : HashedPkg) (abPkg : List Byte) : HashState :=
  let count := pkg.relations.preDependsStr.length + pkg.relations.dependsStr.length
  { s with
    dependedUponBy := enterDependers abPkg s.dependedUponBy
      ((pkg.depends.take count).flatMap CompoundDepend.possibilities) }

/-- A call of `hash_insert_pkg` for a parsed package, whose array is not built yet. -/
structure Insertion where
  pkg : HashedPkg
  unbuilt : pkg.depends = []
  setStatus : Bool

def hashInsertPkg (platform : Platform) (s : HashState) (insertion : Insertion) : HashState :=
  let abPkg := insertion.pkg.name
  -- A package that is merged into another is not kept, and that one has this parent already.
  let pkg := { buildDepends insertion.pkg with parent := some abPkg }
  let status :=
    if insertion.setStatus ∧ isInstalled pkg.stateStatus then pkg.stateStatus
    else s.stateStatus abPkg
  let (vec, pkg) := pkgVecInsertMerge platform pkg insertion.setStatus (s.pkgs abPkg)
  let s :=
    { s with
      stateStatus := Function.update s.stateStatus abPkg status
      pkgs := Function.update s.pkgs abPkg vec }
  buildDependedUponBy s pkg abPkg

/-- Insertions, one after the other; the log is the packages inserted. -/
def insertionMachine (platform : Platform) : Machine HashState Insertion HashedPkg where
  step s insertion := (hashInsertPkg platform s insertion, [insertion.pkg])

end Openmoko.Opkg
