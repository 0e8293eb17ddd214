import Openmoko.Library.Machine
import Openmoko.Opkg.HashTable

/-!
# File ownership (`pkg_hash.c`, `pkg.c`)

The file hash says which package owns a file. Beside it every package has a list of its installed
files, which is read from its list file when somebody asks for it and kept for as long as anybody
holds it.
-/

namespace Openmoko.Opkg

/-- What `pkg_get_installed_files` reads of a package. -/
structure PkgFiles where
  -- `dest->root_dir`
  rootDir : List Byte
  -- the lines of the list file, or of the archive's file list
  listFile : List (List Byte)
  installedFiles : Option (List (List Byte))
  installedFilesRefCnt : ℤ
  filelistChanged : Bool

namespace PkgFiles

def installedFileName (rootDir fileName : List Byte) : List Byte :=
  if hasPrefix fileName rootDir then fileName
  else
    let fileName := if fileName.head? = some (UInt8.ofNat '.'.toNat) then fileName.tail else fileName
    let fileName := if fileName.head? = some (UInt8.ofNat '/'.toNat) then fileName.tail else fileName
    rootDir ++ fileName

variable (pkg : PkgFiles)

def readListFile : List (List Byte) :=
  pkg.listFile.map (installedFileName pkg.rootDir)

/-- What `pkg_get_installed_files` returns. -/
def files : List (List Byte) := pkg.installedFiles.getD pkg.readListFile

def getInstalledFiles : PkgFiles :=
  { pkg with
    installedFilesRefCnt := pkg.installedFilesRefCnt + 1
    installedFiles := some pkg.files }

def freeInstalledFiles : PkgFiles :=
  let refCnt := pkg.installedFilesRefCnt - 1
  if refCnt > 0 then { pkg with installedFilesRefCnt := refCnt }
  else { pkg with installedFilesRefCnt := refCnt, installedFiles := none }

def removeInstalledFile (fileName : List Byte) : PkgFiles :=
  { pkg with installedFiles := pkg.installedFiles.map (·.erase fileName) }

def markFilelistChanged : PkgFiles := { pkg with filelistChanged := true }

def Released : Prop := pkg.installedFiles = none ∧ pkg.installedFilesRefCnt ≤ 0

end PkgFiles

structure FileState (platform : Platform) (P : Type) where
  fileHash : HashTable platform P
  pkg : P → PkgFiles

variable {platform : Platform} {P : Type}

namespace FileState

def modify [DecidableEq P] (s : FileState platform P) (p : P) (f : PkgFiles → PkgFiles) :
    FileState platform P :=
  { s with pkg := Function.update s.pkg p (f (s.pkg p)) }

def files (s : FileState platform P) (p : P) : List (List Byte) := (s.pkg p).files

end FileState

variable (offlineRoot : Option (List Byte))

def withoutOfflineRoot (fileName : List Byte) : List Byte :=
  match offlineRoot with
  | none => fileName
  | some root => if hasPrefix fileName root then fileName.drop root.length else fileName

def isDirName (fileName : List Byte) : Bool :=
  fileName.getLast? == some (UInt8.ofNat '/'.toNat)

def fileHashGetFileOwner (s : FileState platform P) (fileName : List Byte) : Option P :=
  s.fileHash.get fileName

variable [DecidableEq P]

def fileHashSetFileOwner (s : FileState platform P)
    (fileName : List Byte) (owningPkg : P) : FileState platform P :=
  let oldOwningPkg := s.fileHash.get fileName
  if isDirName fileName then s
  else
    let fileName := withoutOfflineRoot offlineRoot fileName
    let s := { s with fileHash := s.fileHash.insert fileName owningPkg }
    match oldOwningPkg with
    | none => s
    | some old =>
      let s := s.modify old fun pkg =>
        ((pkg.getInstalledFiles.removeInstalledFile fileName).freeInstalledFiles).markFilelistChanged
      s.modify owningPkg PkgFiles.markFilelistChanged

/-- Calls of `file_hash_set_file_owner`, one after the other; the log is the calls made. -/
def fileOwnerMachine :
    Machine (FileState platform P) (List Byte × P) (List Byte × P) where
  step s call := (fileHashSetFileOwner offlineRoot s call.1 call.2, [call])

end Openmoko.Opkg
