import Openmoko.Opkg.Version
import Openmoko.Library.Comparator

/-!
# The package hash

`opkg/libopkg/pkg_hash.c` and `pkg_vec.c`: packages, the abstract packages that gather those of one
name, and the choice of the package to install for an abstract one. `A` and `P` are the pointers to
abstract packages and packages.
-/

namespace Openmoko.Opkg

inductive DependType where
  | predepend
  | depend
  | conflicts
  | greedyDepend
  | recommend
  | suggest
  deriving DecidableEq, Repr

inductive StateWant where
  | unknown
  | install
  | deinstall
  | purge
  deriving DecidableEq, Repr

inductive StateStatus where
  | notInstalled
  | unpacked
  | halfConfigured
  | installed
  | halfInstalled
  | configFiles
  | postInstFailed
  | removalFailed
  deriving DecidableEq, Repr

def SF_HOLD : Nat := 2
def SF_PREFER : Nat := 16

structure CompoundDepend (A : Type) where
  type : DependType
  possibilities : List (Depend A)
  deriving DecidableEq

structure Pkg (A : Type) extends PkgVersion where
  name : List Byte
  architecture : List Byte
  archPriority : Int
  stateWant : StateWant
  stateFlag : Nat
  stateStatus : StateStatus
  providedByHand : Bool
  depends : List (CompoundDepend A)
  parent : Option A

structure AbstractPkg (A P : Type) where
  pkgs : Option (List P)
  stateStatus : StateStatus
  providedBy : List A
  replacedBy : List A

def isSamePkg {A : Type} (platform : Platform) (pkg other : Pkg A) : Bool :=
  pkg.name == other.name &&
    (pkgCompareVersions platform pkg.toPkgVersion other.toPkgVersion == 0 &&
      pkg.architecture == other.architecture)

/-- A hash of packages. The marks of the dependency check are kept apart. `pkg_vec_insert_merge` lets
no two packages in that are the same. -/
structure PkgHash (platform : Platform) (A P : Type) where
  apkg : A → AbstractPkg A P
  pkg : P → Pkg A
  merged : ∀ p q, isSamePkg platform (pkg p) (pkg q) = true → p = q

structure NamedHash (platform : Platform) (A P : Type) extends PkgHash platform A P where
  cstring : ∀ p, NUL ∉ (pkg p).name

def isInstalled (status : StateStatus) : Bool := status = .installed ∨ status = .unpacked

def pkgNameVersionAndArchitectureCompare {A : Type} (platform : Platform) (a b : Pkg A) : Int :=
  let namecmp := strcmp a.name b.name
  if namecmp ≠ 0 then namecmp
  else
    let vercmp := pkgCompareVersions platform a.toPkgVersion b.toPkgVersion
    if vercmp ≠ 0 then vercmp
    else if a.archPriority = 0 ∨ b.archPriority = 0 then 0
    else if b.archPriority < a.archPriority then 1
    else if a.archPriority < b.archPriority then -1
    else 0

section

variable {platform : Platform} {A P : Type} [DecidableEq A] (h : PkgHash platform A P)

def providerPkgs (providers : List A) (provider : A) : List P :=
  match (h.apkg provider).replacedBy.head? with
  | none => (h.apkg provider).pkgs.getD []
  | some replacement =>
    if replacement = provider then (h.apkg provider).pkgs.getD []
    else if replacement ∈ providers then []
    else (h.apkg replacement).pkgs.getD []

def matchingPkgs (apkg : A) : List P :=
  ((h.apkg apkg).providedBy.flatMap (providerPkgs h (h.apkg apkg).providedBy)).filter
    fun maybe => 0 < (h.pkg maybe).archPriority

def sortedPkgs (qsort : Qsort P) (apkg : A) : List P :=
  let matching := matchingPkgs h apkg
  if 1 < matching.length then
    qsort.sort (fun a b => strcmp (h.pkg a).name (h.pkg b).name)
      (qsort.sort (fun a b => pkgNameVersionAndArchitectureCompare platform (h.pkg a) (h.pkg b))
        matching)
  else matching

def goodPkgByName (constraintFcn : P → Bool) : Option P → List P → Option P
  | good, [] => good
  | good, candidate :: rest =>
    if constraintFcn candidate then
      if (h.pkg candidate).providedByHand then some candidate
      else goodPkgByName constraintFcn (some candidate) rest
    else goodPkgByName constraintFcn good rest

def lastWhere (p : P → Bool) (l : List P) : Option P := l.reverse.find? p

def parentInstalled (pkg : P) : Bool :=
  (h.pkg pkg).parent.any fun parent => isInstalled (h.apkg parent).stateStatus

def isHeld (pkg : P) : Bool := (h.pkg pkg).stateFlag &&& (SF_HOLD ||| SF_PREFER) ≠ 0

def pkgHashFetchBestInstallationCandidate (qsort : Qsort P) (apkg : A) (constraintFcn : P → Bool) :
    Option P :=
  let matching := sortedPkgs h qsort apkg
  match goodPkgByName h constraintFcn none matching with
  | some good => some good
  | none =>
    match lastWhere (isHeld h) matching with
    | some held => some held
    | none =>
      match lastWhere (parentInstalled h) matching with
      | some latestInstalledParent => some latestInstalledParent
      | none => if 1 < matching.length then none else matching.getLast?

end

end Openmoko.Opkg
