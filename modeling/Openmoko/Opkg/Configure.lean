import Mathlib.Data.Nat.Bitwise
import Openmoko.Library.DepthFirst
import Openmoko.Opkg.PkgHash

/-!
# Configuring what is unpacked (`opkg_cmd.c`)

`opkg_recurse_pkgs_in_order` puts packages into a vector after the packages found for their
dependencies. `opkg_configure_packages` calls it for every available package and then runs through
the available packages. Abstract packages are known by their names.
-/

namespace Openmoko.Opkg

open DepthFirst (Vectors)

/-- A hash whose names are listed in the order in which `hash_table_foreach` goes through them; a
package is in the vector of its own name, once. -/
structure PkgTable (platform : Platform) (P : Type) extends PkgHash platform (List Byte) P where
  names : List (List Byte)
  names_nodup : names.Nodup
  filed : ∀ name, ∀ p ∈ (apkg name).pkgs.getD [], (pkg p).name = name
  distinct : ∀ name, ((apkg name).pkgs.getD []).Nodup
  cstring : ∀ p, NUL ∉ (pkg p).name

section

variable {platform : Platform} {P : Type} (t : PkgTable platform P)

def PkgTable.name (p : P) : List Byte := (t.pkg p).name

def pkgCompareNames (p q : P) : Int := strcmp (t.name p) (t.name q)

def PkgTable.available : List P := t.names.flatMap fun name => (t.apkg name).pkgs.getD []

def pkgHashFetchAvailable (qsort : Qsort P) : List P := qsort.sort (pkgCompareNames t) t.available

def isLive (p : P) : Bool := (t.pkg p).stateStatus ≠ .notInstalled

def findNamed (all : List P) (name : List Byte) : Option P :=
  all.find? fun dep => isLive t dep && t.name dep == name

def descendProviders (all : List P) (recurse : P → Vectors P → Option (Vectors P)) (v : Vectors P) :
    List (List Byte) → Option (Vectors P)
  | [] => some v
  | provider :: providers =>
    match findNamed t all provider with
    | some dep => recurse dep v
    | none => descendProviders all recurse v providers

def opkgRecursePkgsInOrder (all : List P) : ℕ → P → Vectors P → Option (Vectors P)
  | 0, _, _ => none
  | depth + 1, pkg, v =>
    if !isLive t pkg then some v
    else if t.name pkg ∈ v.visited.map t.name then some v
    else do
      let v ← (t.pkg pkg).depends.foldlM
        (fun v group => group.possibilities.foldlM
          (fun v possibility =>
            descendProviders t all (opkgRecursePkgsInOrder all depth) v
              (t.apkg possibility.pkg).providedBy) v)
        { v with visited := v.visited ++ [pkg] }
      return { v with ordered := v.ordered ++ [pkg] }

/-- What the loop changes, and the packages that `opkg_configure` was called for. -/
structure Configuration (P : Type) where
  pkgStatus : P → StateStatus
  parentStatus : List Byte → StateStatus
  stateFlag : P → ℕ
  err : Int
  calls : List P

def Configuration.init : Configuration P where
  pkgStatus p := (t.pkg p).stateStatus
  parentStatus name := (t.apkg name).stateStatus
  stateFlag p := (t.pkg p).stateFlag
  err := 0
  calls := []

variable [DecidableEq P]

def configureStep (skip : List Byte → Bool) (postinst : P → Int) (s : Configuration P) (pkg : P) :
    Configuration P :=
  if skip (t.name pkg) then s
  else if s.pkgStatus pkg = .unpacked then
    let r := postinst pkg
    let s := { s with calls := s.calls ++ [pkg] }
    if r = 0 then
      { s with
        pkgStatus := Function.update s.pkgStatus pkg .installed
        parentStatus := match (t.pkg pkg).parent with
          | some parent => Function.update s.parentStatus parent .installed
          | none => s.parentStatus
        stateFlag := Function.update s.stateFlag pkg (Nat.ldiff (s.stateFlag pkg) SF_PREFER) }
    else if s.err = 0 then { s with err := r }
    else s
  else s

/-- `opkg_configure_packages`: the vector of the recursion is not used. `finalize` is what
`opkg_finalize_intercepts` returns. -/
def opkgConfigurePackages (qsort : Qsort P) (depth : ℕ) (fnmatch : List Byte → List Byte → Bool)
    (postinst : P → Int) (finalize : Int) (pkgName : Option (List Byte)) :
    Option (Configuration P) := do
  let all := pkgHashFetchAvailable t qsort
  let _ ← all.foldlM (fun v pkg => opkgRecursePkgsInOrder t all depth pkg v) ⟨[], []⟩
  let skip := fun name => pkgName.any fun pattern => !fnmatch pattern name
  let s := all.foldl (configureStep t skip postinst) (Configuration.init t)
  return if finalize ≠ 0 ∧ s.err = 0 then { s with err := finalize } else s

end

end Openmoko.Opkg
