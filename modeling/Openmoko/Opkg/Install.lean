import Mathlib.Data.Nat.Bitwise
import Openmoko.Library.Loop
import Openmoko.Opkg.FileHash
import Openmoko.Opkg.Remove
import Openmoko.Opkg.Resolver

/-!
# Installing a package (`opkg_install.c`)

`opkg_install_pkg` checks the package, takes over its files, installs what it depends on, removes
what it replaces, and only then puts its own files in place; where a step fails on the way, it runs a
ladder of functions that are to undo the steps before. The file system, the network and the scripts
are a world of their own that the steps look at and change. Messages are left out, and so is the
blocking of signals.
-/

namespace Openmoko.Opkg

def SF_NOPRUNE : ℕ := 8

/-- A `conffile_t`. -/
structure NvPair where
  name : List Byte
  value : Option (List Byte)
  deriving DecidableEq

structure InstallConf (D : Type) extends RemoveConf where
  forceReinstall : Bool
  forceDowngrade : Bool
  forceSpace : Bool
  forceOverwrite : Bool
  nodeps : Bool
  noaction : Bool
  archList : List (List Byte)
  defaultDest : D
  offlineRoot : Option (List Byte)
  tmpDir : List Byte

/-- What no installation changes. `installedSize` is the value that `strtoul` reads in the field;
`src` tells whether the package comes from a feed. -/
structure InstallHash (platform : Platform) (A P : Type) where
  all : Finset P
  name : P → List Byte
  version : P → PkgVersion
  architecture : P → Option (List Byte)
  archPriority : P → Int
  providedByHand : P → Bool
  parent : P → Option A
  provides : P → List A
  depends : P → List (CompoundDepend A)
  dependsStr : P → List (List Byte)
  conflicts : P → List (CompoundDepend A)
  replaces : P → List A
  installedSize : P → Option ℕ
  md5sum : P → Option (List Byte)
  src : P → Bool
  filename : P → List Byte
  names : List A
  abName : A → List Byte
  byName : List Byte → Option A
  pkgs : A → Option (List P)
  providedBy : A → List A
  replacedBy : A → List A
  dependedUponBy : A → List A
  pkgs_all : ∀ a, ∀ vec ∈ pkgs a, ∀ p ∈ vec, p ∈ all
  merged : ∀ p q, name p = name q → pkgCompareVersions platform (version p) (version q) = 0 →
    (architecture p).getD [] = (architecture q).getD [] → p = q

structure InstallState (platform : Platform) (A P D W : Type) extends RemoveState A P where
  dest : P → Option D
  essential : P → Bool
  autoInstalled : P → Bool
  tmpUnpackDir : P → Bool
  localFilename : P → Option (List Byte)
  conffiles : P → List NvPair
  fileHash : HashTable platform P
  obsFileHash : HashTable platform P
  installedFiles : P → Option (List (List Byte))
  installedFilesRefCnt : P → ℤ
  world : W

/-- The world outside. What it does may depend on all that opkg has in memory. Of the numbers that the
functions return, 0 is success. -/
structure System (platform : Platform) (A P D W : Type) where
  rootDir : D → List Byte
  availableBlocks : W → ℤ
  md5sum : W → List Byte → List Byte
  archiveLines : W → List Byte → List (List Byte)
  listLines : W → P → D → List (List Byte)
  fileExists : W → List Byte → Bool
  fileIsDir : W → List Byte → Bool
  fileCopy : List Byte → List Byte → W → ℤ × W
  unlink : List Byte → W → W
  downloadCache : P → List Byte → InstallState platform A P D W → ℤ × W
  -- `opkg_verify_file`, where opkg is built with it and the feed has a signature
  verifyFile : P → InstallState platform A P D W → ℤ
  -- whether the directory was made, and the lines of the conffiles in it
  unpackControlFiles : P → InstallState platform A P D W → Bool × List (List Byte) × W
  runPreinst : P → Option P → InstallState platform A P D W → ℤ × W
  removal : List (RemoveEvent P) → InstallState platform A P D W → W
  removeOldFiles : P → P → InstallState platform A P D W → W
  installMaintainerScripts : P → InstallState platform A P D W → W
  extractDataFiles : P → InstallState platform A P D W → ℤ × W
  controlEssential : P → W → Bool
  -- whether the list file could be written
  writeFilelist : P → InstallState platform A P D W → Bool × W
  resolveConffile : NvPair → InstallState platform A P D W → W
  -- whether the directory was removed
  cleanup : P → InstallState platform A P D W → Bool × W

inductive InstallResult where
  | ok
  | internal
  | dependencies
  | noDowngrade
  | conflicts
  | noSpace
  | download
  | signature
  | md5
  | unknown
  deriving DecidableEq

section

variable {platform : Platform} {A P D W : Type} [DecidableEq A] [DecidableEq P]
  (h : InstallHash platform A P) (sys : System platform A P D W) (conf : InstallConf D) (qsort : Qsort P)

def removeHash (s : InstallState platform A P D W) : RemoveHash A P where
  all := h.all
  version := h.version
  parent := h.parent
  provides := h.provides
  depends := h.depends
  dependsStr := h.dependsStr
  essential := s.essential
  autoInstalled := s.autoInstalled
  tmpUnpackDir := s.tmpUnpackDir
  localFilename p := (s.localFilename p).isSome
  byName := h.byName
  pkgs := h.pkgs
  providedBy := h.providedBy
  dependedUponBy := h.dependedUponBy
  pkgs_all := h.pkgs_all

def pkgHash (s : InstallState platform A P D W) : PkgHash platform A P where
  apkg a :=
    { pkgs := h.pkgs a
      stateStatus := s.abStatus a
      providedBy := h.providedBy a
      replacedBy := h.replacedBy a }
  pkg p :=
    { toPkgVersion := h.version p
      name := h.name p
      architecture := (h.architecture p).getD []
      archPriority := h.archPriority p
      stateWant := s.pkgWant p
      stateFlag := s.pkgFlag p
      stateStatus := s.pkgStatus p
      providedByHand := h.providedByHand p
      depends := h.depends p
      parent := h.parent p }
  merged p q hsame := by
    simp only [isSamePkg, Bool.and_eq_true, beq_iff_eq] at hsame
    exact h.merged p q hsame.1 hsame.2.1 hsame.2.2

def installedFileLines (s : InstallState platform A P D W) (p : P) : List (List Byte) :=
  match s.dest p with
  | none => (s.localFilename p).elim [] (sys.archiveLines s.world)
  | some dest =>
    if s.pkgStatus p = .notInstalled then
      (s.localFilename p).elim [] (sys.archiveLines s.world)
    else sys.listLines s.world p dest

def fileState (s : InstallState platform A P D W) : FileState platform P where
  fileHash := s.fileHash
  pkg p :=
    { rootDir := (s.dest p).elim [] sys.rootDir
      listFile := installedFileLines sys s p
      installedFiles := s.installedFiles p
      installedFilesRefCnt := s.installedFilesRefCnt p
      filelistChanged := s.pkgFlag p &&& SF_FILELIST_CHANGED ≠ 0 }

def withFileState (s : InstallState platform A P D W) (files : FileState platform P) :
    InstallState platform A P D W :=
  { s with
    fileHash := files.fileHash
    installedFiles := fun p => (files.pkg p).installedFiles
    installedFilesRefCnt := fun p => (files.pkg p).installedFilesRefCnt
    pkgFlag := fun p =>
      if (files.pkg p).filelistChanged then s.pkgFlag p ||| SF_FILELIST_CHANGED else s.pkgFlag p }

def getInstalledFiles (p : P) (s : InstallState platform A P D W) :
    List (List Byte) × InstallState platform A P D W :=
  ((fileState sys s).files p,
    withFileState s ((fileState sys s).modify p PkgFiles.getInstalledFiles))

def freeInstalledFiles (p : P) (s : InstallState platform A P D W) :
    InstallState platform A P D W :=
  withFileState s ((fileState sys s).modify p PkgFiles.freeInstalledFiles)

def setFileOwner (fileName : List Byte) (owningPkg : P) (s : InstallState platform A P D W) :
    InstallState platform A P D W :=
  withFileState s (fileHashSetFileOwner conf.offlineRoot (fileState sys s) fileName owningPkg)

/-- A call for a file in the list of the package itself. If the package owns the file already, the call
takes it off this list. -/
def setListedFileOwner (fileName : List Byte) (pkg : P) (s : InstallState platform A P D W) :
    Option (List Byte) × InstallState platform A P D W :=
  (if isDirName fileName = false ∧ fileHashGetFileOwner (fileState sys s) fileName = some pkg then
      some (withoutOfflineRoot conf.offlineRoot fileName)
    else none,
    setFileOwner sys conf fileName pkg s)

def rootFilename (fileName : List Byte) : List Byte := conf.offlineRoot.getD [] ++ fileName

def forgetFiles (s : InstallState platform A P D W) : RemoveEvent P → InstallState platform A P D W
  | .removeFiles p _ => freeInstalledFiles sys p (getInstalledFiles sys p s).2
  | .runScript _ _ _ => s

def removePkg (depth : ℕ) (pkg : P) (s : InstallState platform A P D W) :
    Option (RemoveResult × InstallState platform A P D W) := do
  let (err, r) ← opkgRemovePkg (removeHash h s) conf.toRemoveConf depth pkg false s.toRemoveState
  let events := r.log.drop s.log.length
  let s :=
    { s with
      toRemoveState := r
      world := if conf.noaction then s.world else sys.removal events s }
  return (err, events.foldl (forgetFiles sys) s)

abbrev InstallRecursion (platform : Platform) (A P D W : Type) :=
  P → InstallState platform A P D W → Option (InstallResult × InstallState platform A P D W)

variable (recurse : InstallRecursion platform A P D W) (depth : ℕ) (pkg : P) (oldPkg : Option P)
  (s : InstallState platform A P D W)

def pkgArchSupported : Bool :=
  match h.architecture pkg with
  | none => true
  | some architecture => architecture ∈ conf.archList

def compareWithOld (pkg old : P) : Int :=
  let cmp := pkgCompareVersions platform (h.version old) (h.version pkg)
  if conf.forceDowngrade = true ∧ 0 < cmp then -1 else cmp

def opkgInstallCheckDowngrade : Option (InstallState platform A P D W) :=
  match oldPkg with
  | none => some s
  | some old =>
    if 0 < compareWithOld h conf pkg old then none
    else if compareWithOld h conf pkg old < 0 ∨ conf.forceReinstall = true then
      some { s with dest := Function.update s.dest pkg (s.dest old) }
    else none

def isPkgAReplaces (pkgScout pkg : P) : Bool :=
  (h.replaces pkg).any fun replaced => h.name pkgScout = h.abName replaced

def pkgHashFetchConflicts : Bool :=
  (h.parent pkg).isSome &&
    (h.conflicts pkg).any fun conflict => conflict.possibilities.any fun possibleSatisfier =>
      ((h.pkgs possibleSatisfier.pkg).getD []).any fun pkgScout =>
        (s.pkgStatus pkgScout = .installed || s.pkgWant pkgScout = .install) &&
          versionConstraintsSatisfied platform possibleSatisfier (h.version pkgScout) &&
          !isPkgAReplaces h pkgScout pkg

def checkConflictsFor : Bool :=
  !conf.forceDepends && pkgHashFetchConflicts h pkg s

def verifyPkgInstallable : Bool :=
  if conf.forceSpace then true
  else
    match h.installedSize pkg with
    | none => true
    | some size => (Int.bmod size 4294967296 + 1023).tdiv 1024 < sys.availableBlocks s.world

def strippedFilename (filename : List Byte) : List Byte :=
  let base := (filename.reverse.takeWhile (· ≠ UInt8.ofNat '/'.toNat)).reverse
  if UInt8.ofNat '/'.toNat ∈ filename then UInt8.ofNat '/'.toNat :: base else filename

def opkgDownloadPkg : ℤ × InstallState platform A P D W :=
  if h.src pkg = false then (-1, s)
  else
    let file := conf.tmpDir ++ ascii "/" ++ strippedFilename (h.filename pkg)
    let (err, world) := sys.downloadCache pkg file s
    (err,
      { s with
        localFilename := Function.update s.localFilename pkg (some file)
        world := world })

def md5Mismatch : Bool :=
  match h.md5sum pkg with
  | none => false
  | some md5sum => sys.md5sum s.world ((s.localFilename pkg).getD []) ≠ md5sum

def fetchArchive : ℤ × InstallState platform A P D W :=
  if s.localFilename pkg = none then opkgDownloadPkg h sys conf pkg s else (0, s)

def checkInstallable : Option InstallResult × InstallState platform A P D W :=
  if checkConflictsFor h conf pkg s then (some .conflicts, s)
  else if s.pkgStatus pkg = .installed ∧ conf.forceReinstall = false then (some .ok, s)
  else if verifyPkgInstallable h sys conf pkg s = false then (some .noSpace, s)
  else
    let (err, s) := fetchArchive h sys conf pkg s
    if err ≠ 0 then (some .download, s)
    else if h.src pkg = true ∧ sys.verifyFile pkg s ≠ 0 then (some .signature, s)
    else if md5Mismatch h sys pkg s then (some .md5, s)
    else (none, s)

def conffileNameInDest (dest : Option D) (cfName : List Byte) : List Byte :=
  let rootDir := (dest.elim [] sys.rootDir).drop (conf.offlineRoot.getD []).length
  rootDir ++ if cfName.head? = some (UInt8.ofNat '/'.toNat) then cfName.tail else cfName

def unpackPkgControlFiles : InstallState platform A P D W :=
  if s.tmpUnpackDir pkg then s
  else
    let (made, lines, world) := sys.unpackControlFiles pkg s
    let s :=
      { s with tmpUnpackDir := Function.update s.tmpUnpackDir pkg made, world := world }
    if made = false ∨ s.conffiles pkg ≠ [] then s
    else
      let conffiles := (lines.filter (· ≠ [])).map fun cfName =>
        { name := conffileNameInDest sys conf (s.dest pkg) cfName, value := none }
      { s with conffiles := Function.update s.conffiles pkg conffiles }

def takeFile (newPkg : P) (oldPkg : Option P) (s : InstallState platform A P D W)
    (newFile : List Byte) : Option (List Byte) × InstallState platform A P D W :=
  let owner := fileHashGetFileOwner (fileState sys s) newFile
  if owner = none ∨ owner = oldPkg then setListedFileOwner sys conf newFile newPkg s else (none, s)

def markObsolete (old : P) (s : InstallState platform A P D W) (oldFile : List Byte) :
    InstallState platform A P D W :=
  if fileHashGetFileOwner (fileState sys s) oldFile = some old then
    { s with obsFileHash := s.obsFileHash.insert oldFile old }
  else s

def updateFileOwnership (newPkg : P) (oldPkg : Option P) (s : InstallState platform A P D W) :
    InstallState platform A P D W :=
  let (newList, s) := getInstalledFiles sys newPkg s
  let s := walkList (takeFile sys conf newPkg oldPkg) [] [] newList s
  let s :=
    match oldPkg with
    | none => s
    | some old =>
      let (oldList, s) := getInstalledFiles sys old s
      freeInstalledFiles sys old (oldList.foldl (markObsolete sys old) s)
  freeInstalledFiles sys newPkg s

def fetchUnsatisfied : Option (Bool × ℕ × List P × InstallState platform A P D W) := do
  let marks := h.names.filter fun a => s.dependenciesChecked a ≠ 0
  let (progress, ndepends) ←
    pkgHashFetchUnsatisfiedDependencies qsort (pkgHash h s) depth marks pkg []
  return (progress.unresolved ≠ [], ndepends, progress.unsatisfied,
    { s with
      dependenciesChecked := fun a =>
        if s.dependenciesChecked a = 0 ∧ a ∈ progress.marks then 1 else s.dependenciesChecked a })

def markToBeInstalled (dep : P) : InstallState platform A P D W :=
  { s with
    dest := if s.dest dep = none then Function.update s.dest dep (s.dest pkg) else s.dest
    pkgWant := Function.update s.pkgWant dep .install }

def installEach : List P → InstallState platform A P D W →
    Option (Bool × InstallState platform A P D W)
  | [], s => some (false, s)
  | dep :: depends, s =>
    if isInstalled (s.pkgStatus dep) then installEach depends s
    else do
      let (err, s) ← recurse dep s
      let s := { s with autoInstalled := Function.update s.autoInstalled dep true }
      if err ≠ .ok then return (true, s) else installEach depends s

def satisfyDependenciesFor : Option (Bool × InstallState platform A P D W) := do
  let (unresolved, ndepends, depends, s) ← fetchUnsatisfied h qsort depth pkg s
  if unresolved = true ∧ conf.forceDepends = false then return (true, s)
  else if ndepends = 0 then return (false, s)
  else installEach recurse depends (depends.foldl (markToBeInstalled pkg) s)

def removeOrphans : List (List Byte) → InstallState platform A P D W →
    Option (InstallState platform A P D W)
  | [], s => some s
  | dStr :: dependsStr, s =>
    match pkgHashFetchInstalledByName (removeHash h s) s.toRemoveState (dependsName dStr) with
    | none => removeOrphans dependsStr s
    | some p =>
      if s.autoInstalled p then
        let (deps, _, r) := pkgHasInstalledDependents (removeHash h s) s.toRemoveState p
        let s := { s with toRemoveState := r }
        if deps = 0 then do
          let (_, s) ← removePkg h sys conf depth p s
          removeOrphans dependsStr s
        else removeOrphans dependsStr s
      else removeOrphans dependsStr s

def pkgRemoveOrphanDependent : Option (InstallState platform A P D W) :=
  match oldPkg with
  | none => some s
  | some old =>
    removeOrphans h sys conf depth
      ((h.dependsStr old).filter fun dStr => dStr ∉ h.dependsStr pkg) s

/-- The last of the names that the other package provides is not looked at. -/
def pkgConflicts (pkg conflictee : P) : Bool :=
  (h.conflicts pkg).any fun conflict => conflict.possibilities.any fun possibility =>
    possibility.pkg ∈ (h.provides conflictee).dropLast

def pkgGetInstalledReplacees : List P :=
  (h.replaces pkg).flatMap fun abPkg => ((h.pkgs abPkg).getD []).filter fun replacee =>
    pkgConflicts h pkg replacee ∧ s.pkgStatus replacee = .installed

def pkgRemoveInstalledReplacees : List P → InstallState platform A P D W →
    Option (Bool × InstallState platform A P D W)
  | [], s => some (false, s)
  | replacee :: replacees, s => do
    let s :=
      { s with
        pkgFlag := Function.update s.pkgFlag replacee (s.pkgFlag replacee ||| SF_REPLACE) }
    let (err, s) ← removePkg h sys conf depth replacee s
    if err ≠ .ok then return (true, s) else pkgRemoveInstalledReplacees replacees s

def pkgRemoveInstalledReplaceesUnwind : List P → InstallState platform A P D W →
    Option (InstallState platform A P D W)
  | [], s => some s
  | replacee :: replacees, s =>
    if s.pkgStatus replacee = .installed then pkgRemoveInstalledReplaceesUnwind replacees s
    else do
      let (err, s) ← recurse replacee s
      if err ≠ .ok then return s else pkgRemoveInstalledReplaceesUnwind replacees s

def preinstConfigure : Bool × InstallState platform A P D W :=
  if isInstalled (s.pkgStatus pkg) ∧ s.dest pkg = none then (true, s)
  else if isInstalled (s.pkgStatus pkg) = false ∧ s.tmpUnpackDir pkg = false then (true, s)
  else if conf.noaction then (false, s)
  else
    let (err, world) := sys.runPreinst pkg oldPkg s
    (err ≠ 0, { s with world := world })

def backupFilename (fileName : List Byte) : List Byte := fileName ++ ascii "-opkg.backup"

def backupExistsFor (fileName : List Byte) (s : InstallState platform A P D W) : Bool :=
  sys.fileExists s.world (backupFilename fileName)

def conffileHasBeenModified (conffile : NvPair) (s : InstallState platform A P D W) : Bool :=
  match conffile.value with
  | none => true
  | some value => sys.md5sum s.world (rootFilename conf conffile.name) ≠ value

def makeBackups (asks : NvPair → InstallState platform A P D W → Bool) :
    List NvPair → InstallState platform A P D W → Bool × InstallState platform A P D W
  | [], s => (false, s)
  | conffile :: conffiles, s =>
    if asks conffile s then
      let cfName := rootFilename conf conffile.name
      let (err, world) := sys.fileCopy cfName (backupFilename cfName) s.world
      let s := { s with world := world }
      if err ≠ 0 then (true, s) else makeBackups asks conffiles s
    else makeBackups asks conffiles s

def backupModifiedConffiles : Bool × InstallState platform A P D W :=
  if conf.noaction then (false, s)
  else
    let oldConffiles := oldPkg.elim [] s.conffiles
    let (err, s) := makeBackups sys conf
      (fun conffile s => sys.fileExists s.world (rootFilename conf conffile.name) &&
        conffileHasBeenModified sys conf conffile s) oldConffiles s
    if err then (true, s)
    else
      makeBackups sys conf
        (fun conffile s => sys.fileExists s.world (rootFilename conf conffile.name) &&
          !backupExistsFor sys (rootFilename conf conffile.name) s)
        ((s.conffiles pkg).filter fun conffile =>
          conffile.name ∉ oldConffiles.map NvPair.name) s

def backupModifiedConffilesUnwind : InstallState platform A P D W :=
  let conffiles := oldPkg.elim [] s.conffiles ++ s.conffiles pkg
  { s with
    world := conffiles.foldl
      (fun world conffile => sys.unlink (backupFilename conffile.name) world) s.world }

/-- The count of the new package's replacements is taken for that of the names the other provides. -/
def pkgReplaces (pkg replacee : P) : Bool :=
  (h.replaces pkg).any fun abstractReplacee =>
    abstractReplacee ∈ (h.provides replacee).take (h.replaces pkg).length

def mayOverwrite (fileName : List Byte) (s : InstallState platform A P D W) : Bool :=
  let owner := fileHashGetFileOwner (fileState sys s) fileName
  (owner.any fun owner => oldPkg.any fun old => h.name owner = h.name old) ||
    (owner.any fun owner => pkgReplaces h pkg owner || h.name owner = h.name pkg) ||
    (s.obsFileHash.get fileName).isSome

def checkDataFileClash (clashes : ℕ × InstallState platform A P D W) (fileName : List Byte) :
    Option (List Byte) × ℕ × InstallState platform A P D W :=
  let (clashes, s) := clashes
  let rootName := rootFilename conf fileName
  if sys.fileExists s.world rootName && !sys.fileIsDir s.world rootName then
    if backupExistsFor sys rootName s then (none, clashes, s)
    else if conf.forceOverwrite then
      let (taken, s) := setListedFileOwner sys conf fileName pkg s
      (taken, clashes, s)
    else if mayOverwrite h sys pkg oldPkg fileName s then (none, clashes, s)
    else (none, clashes + 1, s)
  else (none, clashes, s)

def checkDataFileClashes : ℕ × InstallState platform A P D W :=
  let (filesList, s) := getInstalledFiles sys pkg s
  let (clashes, s) := walkList (checkDataFileClash h sys conf pkg oldPkg) [] [] filesList (0, s)
  (clashes, freeInstalledFiles sys pkg s)

def cleanupTemporaryFiles : InstallState platform A P D W :=
  let (removed, world) := sys.cleanup pkg s
  { s with
    tmpUnpackDir :=
      if removed then Function.update s.tmpUnpackDir pkg false else s.tmpUnpackDir
    localFilename := Function.update s.localFilename pkg
      ((s.localFilename pkg).filter fun file => !hasPrefix file conf.tmpDir)
    world := world }

def changeFileOwner (fileName : List Byte) : Option (List Byte) × InstallState platform A P D W :=
  let rootName := rootFilename conf fileName
  if sys.fileExists s.world rootName && !sys.fileIsDir s.world rootName then
    if conf.forceOverwrite then setListedFileOwner sys conf fileName pkg s
    else if (fileHashGetFileOwner (fileState sys s) fileName).any (pkgReplaces h pkg) then
      setListedFileOwner sys conf fileName pkg s
    else (none, s)
  else (none, s)

def checkDataFileClashesChange : InstallState platform A P D W :=
  let (filesList, s) := getInstalledFiles sys pkg s
  freeInstalledFiles sys pkg (walkList (changeFileOwner h sys conf pkg) [] [] filesList s)

def removeOldPkg : InstallState platform A P D W :=
  match oldPkg with
  | none => s
  | some old =>
    if conf.forceReinstall then s
    else
      let s := { s with pkgWant := Function.update s.pkgWant old .deinstall }
      let world := sys.removeOldFiles pkg old s
      let s :=
        if s.pkgFlag old &&& SF_NOPRUNE ≠ 0 then s
        else
          let s := (getInstalledFiles sys pkg (getInstalledFiles sys old s).2).2
          freeInstalledFiles sys pkg (freeInstalledFiles sys old s)
      let s := freeInstalledFiles sys old (getInstalledFiles sys old s).2
      { s with world := world }

def installDataFiles : InstallState platform A P D W :=
  let (err, world) := sys.extractDataFiles pkg s
  let s := { s with world := world }
  if err ≠ 0 then s
  else
    let s :=
      { s with
        essential := Function.update s.essential pkg
          (s.essential pkg || sys.controlEssential pkg s.world) }
    let (written, world) := sys.writeFilelist pkg s
    { s with
      pkgFlag :=
        if written then
          Function.update s.pkgFlag pkg (Nat.ldiff (s.pkgFlag pkg) SF_FILELIST_CHANGED)
        else s.pkgFlag
      world := world }

def resolveConffiles : InstallState platform A P D W :=
  (s.conffiles pkg).foldl (fun s conffile =>
    let md5sum := sys.md5sum s.world (rootFilename conf conffile.name)
    let resolved := { conffile with value := some (conffile.value.getD md5sum) }
    { s with
      conffiles := Function.update s.conffiles pkg
        ((s.conffiles pkg).map fun other => if other = conffile then resolved else other)
      world := sys.resolveConffile resolved s }) s

def markUnpacked : InstallState platform A P D W :=
  let s :=
    { s with
      pkgStatus := Function.update s.pkgStatus pkg .unpacked
      pkgFlag := Function.update s.pkgFlag pkg (Nat.ldiff (s.pkgFlag pkg) SF_PREFER) }
  match oldPkg with
  | none => s
  | some old =>
    if conf.forceReinstall then s
    else { s with pkgStatus := Function.update s.pkgStatus old .notInstalled }

def markParent : InstallState platform A P D W :=
  match h.parent pkg with
  | none => s
  | some abPkg => { s with abStatus := Function.update s.abStatus abPkg (s.pkgStatus pkg) }

def putInPlace : InstallState platform A P D W :=
  let s := removeOldPkg sys conf pkg oldPkg s
  let s := { s with world := sys.installMaintainerScripts pkg s }
  let s := installDataFiles sys pkg s
  let s := checkDataFileClashesChange h sys conf pkg s
  let s := resolveConffiles sys conf pkg s
  let s := markUnpacked conf pkg oldPkg s
  let s := cleanupTemporaryFiles sys conf pkg s
  markParent h pkg s

/-- The labels of the ladder from which on something is done. -/
inductive Unwind where
  | removeInstalledReplacees
  | backupModifiedConffiles
  deriving DecidableEq

def unwindInstall (label : Unwind) (pkg : P) (oldPkg : Option P) (replacees : List P)
    (s : InstallState platform A P D W) :
    Option (InstallResult × InstallState platform A P D W) := do
  let s :=
    match label with
    | .removeInstalledReplacees => s
    | .backupModifiedConffiles => backupModifiedConffilesUnwind sys pkg oldPkg s
  let s ← pkgRemoveInstalledReplaceesUnwind recurse replacees s
  return (.unknown, cleanupTemporaryFiles sys conf pkg s)

def replaceAndInstall (replacees : List P) (s : InstallState platform A P D W) :
    Option (InstallResult × InstallState platform A P D W) := do
  let (err, s) ← pkgRemoveInstalledReplacees h sys conf depth replacees s
  if err then unwindInstall sys conf recurse .removeInstalledReplacees pkg oldPkg replacees s
  else
    let (err, s) := preinstConfigure sys conf pkg oldPkg s
    if err then unwindInstall sys conf recurse .removeInstalledReplacees pkg oldPkg replacees s
    else
      let (err, s) := backupModifiedConffiles sys conf pkg oldPkg s
      if err then unwindInstall sys conf recurse .backupModifiedConffiles pkg oldPkg replacees s
      else
        let (clashes, s) := checkDataFileClashes h sys conf pkg oldPkg s
        if clashes ≠ 0 then
          unwindInstall sys conf recurse .backupModifiedConffiles pkg oldPkg replacees s
        else if conf.noaction then return (.ok, s)
        else return (.ok, putInPlace h sys conf pkg oldPkg s)

def satisfyUnlessNodeps : Option (Bool × InstallState platform A P D W) :=
  if conf.nodeps then some (false, s)
  else satisfyDependenciesFor h conf qsort recurse depth pkg s

def unpackAndInstall : Option (InstallResult × InstallState platform A P D W) := do
  let s := unpackPkgControlFiles sys conf pkg s
  let s := updateFileOwnership sys conf pkg oldPkg s
  let (err, s) ← satisfyUnlessNodeps h conf qsort recurse depth pkg s
  if err then return (.dependencies, s)
  else
    let replacees := pkgGetInstalledReplacees h pkg s
    let s :=
      { s with
        stateChanged := s.stateChanged + 1
        pkgFlag := Function.update s.pkgFlag pkg (s.pkgFlag pkg ||| SF_FILELIST_CHANGED) }
    let s ← pkgRemoveOrphanDependent h sys conf depth pkg oldPkg s
    replaceAndInstall h sys conf recurse depth pkg oldPkg replacees s

def alreadyInstalled : Bool :=
  s.pkgStatus pkg = .installed && !conf.forceReinstall && !conf.nodeps

def withDefaultDest : InstallState platform A P D W :=
  if s.dest pkg = none then
    { s with dest := Function.update s.dest pkg (some conf.defaultDest) }
  else s

def installedPkg : Option P :=
  pkgHashFetchInstalledByName (removeHash h s) s.toRemoveState (h.name pkg)

def newWants (pkgWant : P → StateWant) : P → StateWant :=
  let pkgWant := Function.update pkgWant pkg .install
  match oldPkg with
  | none => pkgWant
  | some old => Function.update pkgWant old .deinstall

def setWants : InstallState platform A P D W :=
  { s with pkgWant := newWants pkg oldPkg s.pkgWant }

def installBody : InstallRecursion platform A P D W := fun pkg s =>
  if !pkgArchSupported h conf pkg then some (.internal, s)
  else if alreadyInstalled conf pkg s then do
    let (err, s) ← satisfyDependenciesFor h conf qsort recurse depth pkg s
    return (if err then .dependencies else .ok, s)
  else
    let s := withDefaultDest conf pkg s
    let oldPkg := installedPkg h pkg s
    match opkgInstallCheckDowngrade h conf pkg oldPkg s with
    | none => some (.noDowngrade, s)
    | some s =>
      match checkInstallable h sys conf pkg (setWants pkg oldPkg s) with
      | (some result, s) => some (result, s)
      | (none, s) => unpackAndInstall h sys conf qsort recurse depth pkg oldPkg s

/-- `opkg_install_pkg`, followed to the given depth of recursion. Whether it comes from an upgrade only
changes a message. -/
def opkgInstallPkg : ℕ → InstallRecursion platform A P D W
  | 0 => fun _ _ => none
  | depth + 1 => installBody h sys conf qsort (opkgInstallPkg depth) depth

end

end Openmoko.Opkg
