import Openmoko.Opkg.Proof.VersionOrder

/-!
# The two evaluations of a constraint

Both are compared with the relation a constraint names, on the result of `pkg_compare_versions`.
-/

namespace Openmoko.Opkg

namespace VersionConstraint

def Holds (constraint : VersionConstraint) (comparison : Int) : Prop :=
  match constraint with
  | .none => True
  | .earlier => comparison < 0
  | .earlierEqual => comparison ≤ 0
  | .equal => comparison = 0
  | .laterEqual => 0 ≤ comparison
  | .later => 0 < comparison

def operator : VersionConstraint → Option (List Byte)
  | .none => Option.none
  | .earlier => some (ascii "<<")
  | .earlierEqual => some (ascii "<=")
  | .equal => some (ascii "=")
  | .laterEqual => some (ascii ">=")
  | .later => some (ascii ">>")

def IsStrict (constraint : VersionConstraint) : Prop := constraint = .earlier ∨ constraint = .later

end VersionConstraint

variable {A : Type} (platform : Platform)

theorem versionConstraintsSatisfied_iff (depends : Depend A) (pkg : PkgVersion) :
    versionConstraintsSatisfied platform depends pkg = true ↔
      depends.constraint.Holds (pkgCompareVersions platform pkg (depends.temp platform)) ∨
        depends.constraint.IsStrict ∧
          pkgCompareVersions platform pkg (depends.temp platform) = 0 := by
  rw [versionConstraintsSatisfied]
  generalize pkgCompareVersions platform pkg (depends.temp platform) = comparison
  cases depends.constraint <;>
    simp [VersionConstraint.Holds, VersionConstraint.IsStrict] <;> omega

theorem pkgVersionSatisfied_iff (constraint : VersionConstraint) {op : List Byte}
    (hop : constraint.operator = some op) (it ref : PkgVersion) :
    pkgVersionSatisfied platform it ref op = true ↔
      constraint.Holds (pkgCompareVersions platform it ref) := by
  rw [pkgVersionSatisfied]
  generalize pkgCompareVersions platform it ref = r
  cases constraint with
  | none => cases hop
  | earlier =>
    obtain rfl : ascii "<<" = op := Option.some.inj hop
    rw [if_neg (by decide), if_neg (by decide), if_pos rfl]
    exact decide_eq_true_iff
  | earlierEqual =>
    obtain rfl : ascii "<=" = op := Option.some.inj hop
    rw [if_pos (.inl rfl)]
    exact decide_eq_true_iff
  | equal =>
    obtain rfl : ascii "=" = op := Option.some.inj hop
    rw [if_neg (by decide), if_neg (by decide), if_neg (by decide), if_neg (by decide), if_pos rfl]
    exact decide_eq_true_iff
  | laterEqual =>
    obtain rfl : ascii ">=" = op := Option.some.inj hop
    rw [if_neg (by decide), if_pos (.inl rfl)]
    exact decide_eq_true_iff
  | later =>
    obtain rfl : ascii ">>" = op := Option.some.inj hop
    rw [if_neg (by decide), if_neg (by decide), if_neg (by decide), if_pos rfl]
    exact decide_eq_true_iff

/-- The checker of the dependencies decides the relation its constraint names, and so does what the
other checker decides for the same operator. -/
def CheckersAgree (depends : Depend A) (pkg : PkgVersion) : Prop :=
  (versionConstraintsSatisfied platform depends pkg = true ↔
    depends.constraint.Holds (pkgCompareVersions platform pkg (depends.temp platform))) ∧
  ∀ op, depends.constraint.operator = some op →
    versionConstraintsSatisfied platform depends pkg =
      pkgVersionSatisfied platform pkg (depends.temp platform) op

/-- The checkers agree but for a strict constraint on a version that is as good as its own. -/
theorem checkers_agree_iff (depends : Depend A) (pkg : PkgVersion) :
    CheckersAgree platform depends pkg ↔
      ¬(depends.constraint.IsStrict ∧
        pkgKey platform pkg = pkgKey platform (depends.temp platform)) := by
  have hsatisfied := versionConstraintsSatisfied_iff platform depends pkg
  rw [← (pkgCompareVersions_comparesBy platform).eq_iff]
  generalize hcomparison : pkgCompareVersions platform pkg (depends.temp platform) = comparison
    at hsatisfied ⊢
  constructor
  · rintro ⟨hagree, -⟩ ⟨hstrict, hzero⟩
    rw [hcomparison] at hagree
    have hholds := hagree.mp (hsatisfied.mpr (.inr ⟨hstrict, hzero⟩))
    rcases hstrict with hearlier | hlater
    · rw [hearlier, hzero] at hholds
      exact Int.lt_irrefl 0 hholds
    · rw [hlater, hzero] at hholds
      exact Int.lt_irrefl 0 hholds
  · intro hnot
    have hrelation : versionConstraintsSatisfied platform depends pkg = true ↔
        depends.constraint.Holds comparison :=
      hsatisfied.trans (or_iff_left hnot)
    refine ⟨by rwa [hcomparison], fun op hop => ?_⟩
    rw [Bool.eq_iff_iff, hrelation, pkgVersionSatisfied_iff platform _ hop, hcomparison]

def onePointZero : PkgVersion := { epoch := 0, version := some (ascii "1.0"), revision := some [] }

def earlierThanOnePointZero : Depend Unit :=
  { constraint := .earlier, version := ascii "1.0", pkg := () }

def arm : Platform := { charSigned := false, ulongMax := 0xffffffff }

/-- The version 1.0 is taken for one earlier than 1.0. -/
theorem equal_meets_earlier :
    versionConstraintsSatisfied arm earlierThanOnePointZero onePointZero = true ∧
    pkgVersionSatisfied arm onePointZero (earlierThanOnePointZero.temp arm) (ascii "<<") = false ∧
    ¬CheckersAgree arm earlierThanOnePointZero onePointZero := by
  have htemp : earlierThanOnePointZero.temp arm = onePointZero := by decide
  have hzero : pkgCompareVersions arm onePointZero (earlierThanOnePointZero.temp arm) = 0 := by
    rw [htemp]
    exact (pkgCompareVersions_comparesBy arm).self onePointZero
  have hsatisfied : versionConstraintsSatisfied arm earlierThanOnePointZero onePointZero = true :=
    (versionConstraintsSatisfied_iff arm _ _).mpr (.inr ⟨.inl rfl, hzero⟩)
  have hother : ¬pkgVersionSatisfied arm onePointZero (earlierThanOnePointZero.temp arm)
      (ascii "<<") = true := by
    rw [pkgVersionSatisfied_iff arm .earlier rfl, hzero]
    exact Int.lt_irrefl 0
  refine ⟨hsatisfied, Bool.eq_false_iff.mpr hother, fun hagree => hother ?_⟩
  exact (hagree.2 _ rfl).symm.trans hsatisfied

end Openmoko.Opkg
