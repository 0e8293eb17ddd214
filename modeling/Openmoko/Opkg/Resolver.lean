import Openmoko.Opkg.PkgHash

/-!
# Unsatisfied dependencies

`opkg/libopkg/pkg_depends.c`: the packages that have to be installed for a package. What a call
changes besides its two results is which abstract packages have `dependencies_checked` set: these
marks go from call to call. An unresolved name is given by its package and the index of the
dependency, from which the code takes the text.
-/

namespace Openmoko.Opkg

/-- The marks, the vector and the unresolved names. -/
structure Progress (A P : Type) where
  marks : List A
  unsatisfied : List P
  unresolved : List (P × Nat)
  deriving DecidableEq

section

variable {platform : Platform} {A P : Type} [DecidableEq A] [DecidableEq P]
  (qsort : Qsort P) (h : PkgHash platform A P)

def pkgConstraintSatisfied (depend : Depend A) (pkg : P) : Bool :=
  versionConstraintsSatisfied platform depend (h.pkg pkg).toPkgVersion

def pkgInstalledAndConstraintSatisfied (depend : Depend A) (pkg : P) : Bool :=
  isInstalled (h.pkg pkg).stateStatus && pkgConstraintSatisfied h depend pkg

def isPkgInPkgVec (vec : List P) (pkg : P) : Bool :=
  vec.any fun other => isSamePkg platform (h.pkg pkg) (h.pkg other)

def satisfyingPkg (constraintFcn : Depend A → P → Bool) (dependence : Depend A) : Option P :=
  (pkgHashFetchBestInstallationCandidate h qsort dependence.pkg (constraintFcn dependence)).filter
    (constraintFcn dependence)

def findInstalled (possibilities : List (Depend A)) : Option (Depend A × P) :=
  possibilities.findSome? fun dependence =>
    (satisfyingPkg qsort h (pkgInstalledAndConstraintSatisfied h) dependence).map
      fun satisfier => (dependence, satisfier)

def isRecommendation (type : DependType) : Bool := type = .recommend ∨ type = .suggest

def overridden (type : DependType) (pkg : P) : Bool :=
  isRecommendation type &&
    ((h.pkg pkg).stateWant == .deinstall || (h.pkg pkg).stateWant == .purge)

def findSatisfier (group : CompoundDepend A) : Option (Depend A × P) :=
  group.possibilities.findSome? fun dependence =>
    ((satisfyingPkg qsort h (pkgConstraintSatisfied h) dependence).filter
      fun satisfier => !overridden h group.type satisfier).map
      fun satisfier => (dependence, satisfier)

def greedyScouts (group : CompoundDepend A) : List P :=
  group.possibilities.flatMap fun dependence =>
    (h.apkg dependence.pkg).providedBy.flatMap fun provider => (h.apkg provider).pkgs.getD []

def parentChecked (marks : List A) (pkg : P) : Bool := (h.pkg pkg).parent.any (· ∈ marks)

/-- A recursive call: the marks, the package and the vector it is given; its progress and what it
returns, or `none` where the recursion was not deep enough to tell. -/
abbrev Recursion (A P : Type) := List A → P → List P → Option (Progress A P × Nat)

variable (recurse : Recursion A P)

def scoutStep (s : Progress A P) (scout : P) : Option (Progress A P) :=
  if (h.pkg scout).stateWant ≠ .install && !parentChecked h s.marks scout &&
      !isPkgInPkgVec h s.unsatisfied scout then do
    let (tmp, rc) ← recurse s.marks scout []
    if tmp.unresolved = [] &&
        (tmp.unsatisfied.take rc).all fun p => (h.pkg p).stateWant == .install then
      return { s with marks := tmp.marks, unsatisfied := s.unsatisfied ++ [scout] }
    else return { s with marks := tmp.marks }
  else some s

def placeSatisfier (s : Progress A P) (pkg satisfier : P) : Option (Progress A P) :=
  if satisfier ≠ pkg && !isPkgInPkgVec h s.unsatisfied satisfier then do
    let (sub, _) ← recurse s.marks satisfier (s.unsatisfied ++ [satisfier])
    return {
      marks := sub.marks
      unsatisfied := sub.unsatisfied
      unresolved := s.unresolved ++ sub.unresolved }
  else some s

def resolveGroup (pkg : P) (s : Progress A P) (i : Nat) (group : CompoundDepend A) :
    Option (Progress A P) :=
  if group.type = .greedyDepend then (greedyScouts h group).foldlM (scoutStep h recurse) s
  else
    match findInstalled qsort h group.possibilities with
    | some _ => some s
    | none =>
      match findSatisfier qsort h group with
      | none =>
        if isRecommendation group.type then some s
        else some { s with unresolved := s.unresolved ++ [(pkg, i)] }
      | some (_, satisfier) =>
        if group.type = .suggest then some s
        else placeSatisfier h recurse s pkg satisfier

def resolveGroups (pkg : P) : Progress A P → Nat → List (CompoundDepend A) →
    Option (Progress A P)
  | s, _, [] => some s
  | s, i, group :: groups => do
    let s ← resolveGroup qsort h recurse pkg s i group
    resolveGroups pkg s (i + 1) groups

def fetchBody : Recursion A P := fun marks pkg unsatisfied =>
  match (h.pkg pkg).parent with
  | none => some (⟨marks, unsatisfied, []⟩, 0)
  | some abPkg =>
    if abPkg ∈ marks then some (⟨marks, unsatisfied, []⟩, 0)
    else if (h.pkg pkg).depends = [] then some (⟨abPkg :: marks, unsatisfied, []⟩, 0)
    else do
      let s ← resolveGroups qsort h recurse pkg ⟨abPkg :: marks, unsatisfied, []⟩ 0
        (h.pkg pkg).depends
      return (s, s.unsatisfied.length)

/-- `pkg_hash_fetch_unsatisfied_dependencies`, followed to the given depth of recursion. -/
def pkgHashFetchUnsatisfiedDependencies : Nat → Recursion A P
  | 0 => fun _ _ _ => none
  | depth + 1 => fetchBody qsort h (pkgHashFetchUnsatisfiedDependencies depth)

end

end Openmoko.Opkg
