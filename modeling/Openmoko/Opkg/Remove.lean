import Mathlib.Data.Finset.Card
import Openmoko.Opkg.PkgHash

/-!
# Removing packages (`opkg_remove.c`)

`opkg_remove_pkg` refuses to remove what installed packages depend on, or removes these first, and
then what was only installed for the removed package. All of these calls share one state. What a call
does outside of it is in the log: the maintainer scripts that it runs and the lists of files that it
removes. That it removes the scripts afterwards is left out, as are its messages.
-/

namespace Openmoko.Opkg

def SF_REPLACE : ℕ := 4
def SF_FILELIST_CHANGED : ℕ := 128

structure RemoveConf where
  forceDepends : Bool
  forceRemovalOfEssentialPackages : Bool
  forceRemovalOfDependentPackages : Bool
  autoremove : Bool

/-- What no removal changes. `provides` is the array with the parent in front; the two fields about
an unpacked package tell whether the pointers are set. -/
structure RemoveHash (A P : Type) where
  all : Finset P
  version : P → PkgVersion
  parent : P → Option A
  provides : P → List A
  depends : P → List (CompoundDepend A)
  dependsStr : P → List (List Byte)
  essential : P → Bool
  autoInstalled : P → Bool
  tmpUnpackDir : P → Bool
  localFilename : P → Bool
  byName : List Byte → Option A
  pkgs : A → Option (List P)
  providedBy : A → List A
  dependedUponBy : A → List A
  pkgs_all : ∀ a, ∀ vec ∈ pkgs a, ∀ p ∈ vec, p ∈ all

inductive MaintainerScript where
  | prerm
  | postrm
  deriving DecidableEq

/-- Where a script or a list of files is found: with the installed package or with the unpacked
one. -/
inductive PkgSource where
  | installed
  | unpacked
  deriving DecidableEq

inductive RemoveEvent (P : Type) where
  | runScript (pkg : P) (script : MaintainerScript) (source : PkgSource)
  | removeFiles (pkg : P) (source : PkgSource)
  deriving DecidableEq

structure RemoveState (A P : Type) where
  pkgStatus : P → StateStatus
  pkgWant : P → StateWant
  pkgFlag : P → ℕ
  abStatus : A → StateStatus
  abMarked : A → Bool
  dependenciesChecked : A → ℕ
  stateChanged : ℕ
  log : List (RemoveEvent P)

inductive RemoveResult where
  | ok
  | pkgIsEssential
  | pkgHasDependents
  deriving DecidableEq

section

variable {A P : Type} [DecidableEq A] [DecidableEq P] (h : RemoveHash A P)

def pkgRunScript (pkg : P) (script : MaintainerScript) (s : RemoveState A P) : RemoveState A P :=
  if isInstalled (s.pkgStatus pkg) then
    { s with log := s.log ++ [.runScript pkg script .installed] }
  else if h.tmpUnpackDir pkg then
    { s with log := s.log ++ [.runScript pkg script .unpacked] }
  else s

def removeDataFilesAndList (pkg : P) (s : RemoveState A P) : RemoveState A P :=
  if s.pkgStatus pkg = .notInstalled then
    if h.localFilename pkg then { s with log := s.log ++ [.removeFiles pkg .unpacked] } else s
  else { s with log := s.log ++ [.removeFiles pkg .installed] }

def dependers (pkg : P) : List A := (h.provides pkg).flatMap h.dependedUponBy

def markDependents (s : RemoveState A P) : List A → (A → Bool) → List A × (A → Bool)
  | [], marked => ([], marked)
  | depAbPkg :: rest, marked =>
    if s.abStatus depAbPkg = .installed ∧ marked depAbPkg = false then
      let (dependents, marked) := markDependents s rest (Function.update marked depAbPkg true)
      (depAbPkg :: dependents, marked)
    else markDependents s rest marked

/-- The number of entries, the dependents and the state with the marks cleared. -/
def pkgHasInstalledDependents (s : RemoveState A P) (pkg : P) : ℕ × List A × RemoveState A P :=
  let count := (dependers h pkg).countP fun depAbPkg => s.abStatus depAbPkg = .installed
  let (dependents, marked) := markDependents s (dependers h pkg) s.abMarked
  (count, dependents,
    { s with
      abMarked := dependents.foldl (fun marked depAbPkg => Function.update marked depAbPkg false)
        marked })

def dependsName (dStr : List Byte) : List Byte := dStr.takeWhile (· ≠ 32)

def pkgVecFetchByName (name : List Byte) : Option (List P) :=
  (h.byName name).bind fun abPkg =>
    match h.pkgs abPkg with
    | some pkgs => some pkgs
    | none => (h.providedBy abPkg).head?.bind h.pkgs

def pkgHashFetchInstalledByName (s : RemoveState A P) (name : List Byte) : Option P :=
  (pkgVecFetchByName h name).bind fun pkgs => pkgs.find? fun p => isInstalled (s.pkgStatus p)

abbrev RemoveRecursion (A P : Type) :=
  P → Bool → RemoveState A P → Option (RemoveResult × RemoveState A P)

variable (recurse : RemoveRecursion A P)

def removeEach : List P → RemoveState A P → Option (RemoveResult × RemoveState A P)
  | [], s => some (.ok, s)
  | pkg :: pkgs, s => do
    let (err, s) ← recurse pkg false s
    if err ≠ .ok then return (err, s)
    else removeEach pkgs s

def dependentPkgs (s : RemoveState A P) (depAbPkg : A) : List P :=
  if s.dependenciesChecked depAbPkg = 2 then []
  else if s.abStatus depAbPkg = .installed then
    ((h.pkgs depAbPkg).getD []).filter fun depPkg => s.pkgStatus depPkg = .installed
  else []

def opkgRemoveDependentPkgs (pkg : P) (dependents : List A) (s : RemoveState A P) :
    Option (RemoveResult × RemoveState A P) :=
  match h.parent pkg with
  | none => some (.ok, s)
  | some abPkg =>
    if s.dependenciesChecked abPkg = 2 then some (.ok, s)
    else
      let s := { s with dependenciesChecked := Function.update s.dependenciesChecked abPkg 2 }
      removeEach recurse (dependents.flatMap (dependentPkgs h s)) s

/-- `remove_autoinstalled`, whose result nobody asks for. -/
def removeAutoinstalled : List (List Byte) → RemoveState A P → Option (RemoveState A P)
  | [], s => some s
  | dStr :: dependsStr, s =>
    match pkgHashFetchInstalledByName h s (dependsName dStr) with
    | none => some s
    | some p =>
      if h.autoInstalled p then
        let (deps, _, s) := pkgHasInstalledDependents h s p
        if deps = 0 then do
          let (_, s) ← recurse p false s
          removeAutoinstalled dependsStr s
        else removeAutoinstalled dependsStr s
      else removeAutoinstalled dependsStr s

def userPrefersRemovingDependents : Bool := false

def settleDependents (conf : RemoveConf) (pkg : P) (s : RemoveState A P) :
    Option (RemoveResult × RemoveState A P) :=
  if !conf.forceDepends && (s.pkgFlag pkg &&& SF_REPLACE == 0) then
    let (hasInstalledDependents, dependents, s) := pkgHasInstalledDependents h s pkg
    if hasInstalledDependents ≠ 0 then
      if !conf.forceRemovalOfDependentPackages && !userPrefersRemovingDependents then
        some (.pkgHasDependents, s)
      else opkgRemoveDependentPkgs h recurse pkg dependents s
    else some (.ok, s)
  else some (.ok, s)

def takeOut (pkg : P) (parentPkg : A) (s : RemoveState A P) : RemoveState A P :=
  let s :=
    { s with
      pkgFlag := Function.update s.pkgFlag pkg (s.pkgFlag pkg ||| SF_FILELIST_CHANGED)
      pkgWant := Function.update s.pkgWant pkg .deinstall
      stateChanged := s.stateChanged + 1 }
  let s := pkgRunScript h pkg .prerm s
  let s := removeDataFilesAndList h pkg s
  let s := pkgRunScript h pkg .postrm s
  { s with
    pkgStatus := Function.update s.pkgStatus pkg .notInstalled
    abStatus := Function.update s.abStatus parentPkg .notInstalled }

def removeBody (conf : RemoveConf) : RemoveRecursion A P := fun pkg message s =>
  if h.essential pkg && !message && !conf.forceRemovalOfEssentialPackages then
    some (.pkgIsEssential, s)
  else
    match h.parent pkg with
    | none => some (.ok, s)
    | some parentPkg => do
      let (err, s) ← settleDependents h recurse conf pkg s
      if err ≠ .ok then return (err, s)
      else
        let s := takeOut h pkg parentPkg s
        if conf.autoremove then do
          let s ← removeAutoinstalled h recurse (h.dependsStr pkg) s
          return (.ok, s)
        else return (.ok, s)

/-- `opkg_remove_pkg`, followed to the given depth of recursion. -/
def opkgRemovePkg (conf : RemoveConf) : ℕ → RemoveRecursion A P
  | 0 => fun _ _ _ => none
  | depth + 1 => removeBody h (opkgRemovePkg conf depth) conf

end

/-- What `stat` takes for a directory, the directory that a name is in, and whether `unlink` works on
a file of that name and `rmdir` on an empty directory. -/
structure FileTree (N : Type) where
  isDir : N → Bool
  dir : N → Option N
  removable : N → Bool

namespace FileTree

variable {N : Type} [DecidableEq N] (tree : FileTree N)

def fileIsDir (names : List N) (fileName : N) : Bool := fileName ∈ names && tree.isDir fileName

def unlink (names : List N) (fileName : N) : List N :=
  if tree.removable fileName then names.filter (· ≠ fileName) else names

def rmdir (names : List N) (fileName : N) : Option (List N) :=
  if tree.fileIsDir names fileName ∧ tree.removable fileName ∧
      ∀ n ∈ names, tree.dir n ≠ some fileName then
    some (names.filter (· ≠ fileName))
  else none

/-- `modified` tells the conffiles that have been modified. -/
def deleteFiles (noaction : Bool) (modified : N → Bool) :
    List N → List N → List N × List N
  | [], names => (names, [])
  | fileName :: files, names =>
    if tree.fileIsDir names fileName then
      let (names, installedDirs) := deleteFiles noaction modified files names
      (names, fileName :: installedDirs)
    else
      deleteFiles noaction modified files
        (if modified fileName || noaction then names else tree.unlink names fileName)

def rmdirEach : List N → List N → List N × List N
  | [], names => (names, [])
  | fileName :: dirs, names =>
    match tree.rmdir names fileName with
    | some names => rmdirEach dirs names
    | none =>
      let (names, installedDirs) := rmdirEach dirs names
      (names, fileName :: installedDirs)

/-- `removed_a_dir` tells that the list is shorter than before. -/
def rmdirLoop (installedDirs names : List N) : List N :=
  let left := tree.rmdirEach installedDirs names
  if left.2.length < installedDirs.length then rmdirLoop left.2 left.1 else left.1
termination_by installedDirs.length

/-- `remove_data_files_and_list`: what it leaves of the names on the disk. -/
def removeDataFiles (noaction : Bool) (modified : N → Bool) (files names : List N) : List N :=
  let (names, installedDirs) := tree.deleteFiles noaction modified files names
  if noaction then names else tree.rmdirLoop installedDirs names

end FileTree

end Openmoko.Opkg
