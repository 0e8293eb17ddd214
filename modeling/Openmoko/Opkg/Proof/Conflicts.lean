import Openmoko.Opkg.Proof.FailedInstall

/-!
# The packages that conflict with one (`pkg_depends.c`)

`pkg_hash_fetch_conflicts` collects the installed packages, and those wanted, that meet one of the
possibilities of the package's Conflicts, unless the package replaces their name.
-/

namespace Openmoko.Opkg

section

variable {platform : Platform} {A P D W : Type}
  (h : InstallHash platform A P) (s : InstallState platform A P D W) (pkg : P)

def isWanted (pkgScout : P) : Bool :=
  s.pkgStatus pkgScout = .installed || s.pkgWant pkgScout = .install

def conflictsWith (possibleSatisfier : Depend A) (pkgScout : P) : Bool :=
  isWanted s pkgScout &&
    versionConstraintsSatisfied platform possibleSatisfier (h.version pkgScout) &&
    !isPkgAReplaces h pkgScout pkg

def collectConflict (possibleSatisfier : Depend A) (installedConflicts : List P) (pkgScout : P) :
    List P :=
  if conflictsWith h s pkg possibleSatisfier pkgScout then
    if isPkgInPkgVec (pkgHash h s) installedConflicts pkgScout then installedConflicts
    else installedConflicts ++ [pkgScout]
  else installedConflicts

def collectConflicts (installedConflicts : List P) (possibleSatisfier : Depend A) : List P :=
  ((h.pkgs possibleSatisfier.pkg).getD []).foldl (collectConflict h s pkg possibleSatisfier)
    installedConflicts

def fetchConflicts : Option (List P) :=
  if h.parent pkg = none then none
  else if h.conflicts pkg = [] then none
  else
    let installedConflicts := (h.conflicts pkg).foldl (fun installedConflicts conflicts =>
      conflicts.possibilities.foldl (collectConflicts h s pkg) installedConflicts) []
    if installedConflicts = [] then none else some installedConflicts

def conflictPossibilities : List (Depend A) :=
  (h.conflicts pkg).flatMap CompoundDepend.possibilities

def Stands (possibility : Depend A) (other : P) : Prop :=
  other ∈ (h.pkgs possibility.pkg).getD [] ∧
    possibility.constraint.Holds
      (pkgCompareVersions platform (h.version other) (possibility.temp platform))

def IsBound (possibility : Depend A) (other : P) : Prop :=
  other ∈ (h.pkgs possibility.pkg).getD [] ∧ possibility.constraint.IsStrict ∧
    pkgCompareVersions platform (h.version other) (possibility.temp platform) = 0

def Counts (other : P) : Prop := isWanted s other = true ∧ isPkgAReplaces h other pkg = false

def InConflict (other : P) : Prop :=
  other ≠ pkg ∧ Counts h s pkg other ∧
    ∃ possibility ∈ conflictPossibilities h pkg, Stands h possibility other

structure FetchesConflicts : Prop where
  nodup : ((fetchConflicts h s pkg).getD []).Nodup
  mem_iff : ∀ other, other ∈ (fetchConflicts h s pkg).getD [] ↔ InConflict h s pkg other
  null_iff : fetchConflicts h s pkg = none ↔ ∀ other, ¬InConflict h s pkg other

structure TestsSuffice : Prop where
  hashed : h.parent pkg = none → ∀ other, ¬InConflict h s pkg other
  itself : h.parent pkg ≠ none → Counts h s pkg pkg →
    ∀ possibility ∈ conflictPossibilities h pkg,
      ¬Stands h possibility pkg ∧ ¬IsBound h possibility pkg
  bound : h.parent pkg ≠ none → ∀ other ≠ pkg, Counts h s pkg other →
    ∀ possibility ∈ conflictPossibilities h pkg, IsBound h possibility other →
      ∃ possibility ∈ conflictPossibilities h pkg, Stands h possibility other

variable {h s pkg}

variable {other : P} {vec : List P}

theorem isPkgInPkgVec_iff {h : PkgHash platform A P} :
    isPkgInPkgVec h vec pkg = true ↔ pkg ∈ vec := by
  rw [isPkgInPkgVec, List.any_eq_true]
  constructor
  · rintro ⟨other, hother, hsame⟩
    rwa [h.merged pkg other hsame]
  · intro hmem
    have hversion := (pkgCompareVersions_comparesBy platform).self (h.pkg pkg).toPkgVersion
    exact ⟨pkg, hmem, by simp [isSamePkg, hversion]⟩

theorem mem_collectConflicts {possibleSatisfier : Depend A} :
    other ∈ collectConflicts h s pkg vec possibleSatisfier ↔
      other ∈ vec ∨ other ∈ (h.pkgs possibleSatisfier.pkg).getD [] ∧
        conflictsWith h s pkg possibleSatisfier other = true := by
  rw [collectConflicts]
  induction (h.pkgs possibleSatisfier.pkg).getD [] generalizing vec with
  | nil => simp
  | cons pkgScout pkgScouts ih =>
    rw [List.foldl_cons, ih, collectConflict, List.mem_cons]
    split
    next hmeets =>
      split
      next hold =>
        have hmem : pkgScout ∈ vec := isPkgInPkgVec_iff.mp hold
        grind
      next => grind
    next => grind

theorem nodup_collectConflicts {possibleSatisfier : Depend A} (hvec : vec.Nodup) :
    (collectConflicts h s pkg vec possibleSatisfier).Nodup := by
  rw [collectConflicts]
  induction (h.pkgs possibleSatisfier.pkg).getD [] generalizing vec with
  | nil => exact hvec
  | cons pkgScout pkgScouts ih =>
    rw [List.foldl_cons]
    refine ih ?_
    rw [collectConflict]
    split
    next =>
      split
      next => exact hvec
      next hnew =>
        have hnot : pkgScout ∉ vec := fun hmem => hnew (isPkgInPkgVec_iff.mpr hmem)
        rw [← List.concat_eq_append, List.nodup_concat]
        exact ⟨hnot, hvec⟩
    next => exact hvec

theorem mem_foldl_collectConflicts {possibilities : List (Depend A)} :
    other ∈ possibilities.foldl (collectConflicts h s pkg) vec ↔
      other ∈ vec ∨ ∃ possibility ∈ possibilities,
        other ∈ (h.pkgs possibility.pkg).getD [] ∧
          conflictsWith h s pkg possibility other = true := by
  induction possibilities generalizing vec with
  | nil => simp
  | cons possibility possibilities ih =>
    rw [List.foldl_cons, ih, mem_collectConflicts, List.exists_mem_cons_iff, or_assoc]

theorem nodup_foldl_collectConflicts {possibilities : List (Depend A)}
    (hvec : vec.Nodup) : (possibilities.foldl (collectConflicts h s pkg) vec).Nodup := by
  induction possibilities generalizing vec with
  | nil => exact hvec
  | cons possibility possibilities ih => exact ih (nodup_collectConflicts hvec)

theorem fetchConflicts_getD_of_parent (hparent : h.parent pkg = none) :
    (fetchConflicts h s pkg).getD [] = [] := by
  rw [fetchConflicts, if_pos hparent]
  rfl

theorem fetchConflicts_getD (hparent : h.parent pkg ≠ none) :
    (fetchConflicts h s pkg).getD [] =
      (conflictPossibilities h pkg).foldl (collectConflicts h s pkg) [] := by
  rw [fetchConflicts, if_neg hparent, conflictPossibilities, List.foldl_flatMap]
  split
  next hnone =>
    rw [hnone]
    rfl
  next =>
    dsimp only
    split
    next hempty => exact hempty.symm
    next => rfl

theorem fetchConflicts_ne_nil : fetchConflicts h s pkg ≠ some [] := by
  rw [fetchConflicts]
  split
  next => exact nofun
  next =>
    split
    next => exact nofun
    next =>
      dsimp only
      split
      next => exact nofun
      next hfound => exact fun heq => hfound (Option.some.inj heq)

theorem fetchConflicts_eq_none_iff :
    fetchConflicts h s pkg = none ↔ (fetchConflicts h s pkg).getD [] = [] := by
  have hne : fetchConflicts h s pkg ≠ some [] := fetchConflicts_ne_nil
  cases hfetch : fetchConflicts h s pkg with
  | none => exact iff_of_true rfl rfl
  | some installedConflicts =>
    rw [hfetch] at hne
    exact iff_of_false nofun fun heq => hne (congrArg some heq)

theorem conflictsWith_iff {possibility : Depend A} :
    other ∈ (h.pkgs possibility.pkg).getD [] ∧ conflictsWith h s pkg possibility other = true ↔
      Counts h s pkg other ∧ (Stands h possibility other ∨ IsBound h possibility other) := by
  rw [conflictsWith, Bool.and_eq_true, Bool.and_eq_true, versionConstraintsSatisfied_iff,
    Bool.not_eq_true', Counts, Stands, IsBound]
  tauto

theorem mem_fetchConflicts (hparent : h.parent pkg ≠ none) :
    other ∈ (fetchConflicts h s pkg).getD [] ↔
      Counts h s pkg other ∧ ∃ possibility ∈ conflictPossibilities h pkg,
        Stands h possibility other ∨ IsBound h possibility other := by
  rw [fetchConflicts_getD hparent, mem_foldl_collectConflicts]
  simp only [conflictsWith_iff, List.not_mem_nil, false_or, ← exists_and_left]
  refine exists_congr fun possibility => ?_
  tauto

theorem nodup_fetchConflicts : ((fetchConflicts h s pkg).getD []).Nodup := by
  by_cases hparent : h.parent pkg = none
  · rw [fetchConflicts_getD_of_parent hparent]
    exact List.nodup_nil
  · rw [fetchConflicts_getD hparent]
    exact nodup_foldl_collectConflicts List.nodup_nil

/-- **Conflicts.** The vector is that of the packages in conflict exactly when the package is in the
hash, meets none of its own possibilities, and what is at the bound of a strict possibility is in
conflict anyway. -/
theorem fetchesConflicts_iff (h : InstallHash platform A P) (s : InstallState platform A P D W)
    (pkg : P) : FetchesConflicts h s pkg ↔ TestsSuffice h s pkg := by
  have hnull : (∀ other, other ∈ (fetchConflicts h s pkg).getD [] ↔ InConflict h s pkg other) →
      (fetchConflicts h s pkg = none ↔ ∀ other, ¬InConflict h s pkg other) := by
    intro hmem
    rw [fetchConflicts_eq_none_iff, List.eq_nil_iff_forall_not_mem]
    exact forall_congr' fun other => not_congr (hmem other)
  have hiff : FetchesConflicts h s pkg ↔
      ∀ other, other ∈ (fetchConflicts h s pkg).getD [] ↔ InConflict h s pkg other :=
    ⟨fun hfetches => hfetches.mem_iff, fun hmem => ⟨nodup_fetchConflicts, hmem, hnull hmem⟩⟩
  rw [hiff]
  by_cases hparent : h.parent pkg = none
  · rw [fetchConflicts_getD_of_parent hparent]
    constructor
    · intro hmem
      refine ⟨fun _ other hin => ?_, fun hnot => absurd hparent hnot,
        fun hnot => absurd hparent hnot⟩
      exact List.not_mem_nil ((hmem other).mpr hin)
    · intro htests other
      exact iff_of_false List.not_mem_nil (htests.hashed hparent other)
  · simp only [mem_fetchConflicts hparent]
    constructor
    · intro hmem
      refine ⟨fun hnone => absurd hnone hparent, fun _ hcounts possibility hpossibility => ?_,
        fun _ other hother hcounts possibility hpossibility hbound => ?_⟩
      · rw [← not_or]
        intro hmeets
        exact ((hmem pkg).mp ⟨hcounts, possibility, hpossibility, hmeets⟩).1 rfl
      · exact ((hmem other).mp ⟨hcounts, possibility, hpossibility, Or.inr hbound⟩).2.2
    · intro htests other
      constructor
      · rintro ⟨hcounts, possibility, hpossibility, hmeets⟩
        have hother : other ≠ pkg := by
          rintro rfl
          obtain ⟨hstands, hbound⟩ := htests.itself hparent hcounts possibility hpossibility
          exact hmeets.elim hstands hbound
        refine ⟨hother, hcounts, ?_⟩
        rcases hmeets with hstands | hbound
        · exact ⟨possibility, hpossibility, hstands⟩
        · exact htests.bound hparent other hother hcounts possibility hpossibility hbound
      · rintro ⟨-, hcounts, possibility, hpossibility, hstands⟩
        exact ⟨hcounts, possibility, hpossibility, Or.inl hstands⟩

end

def renewedHash : InstallHash arm Rival Rival :=
  { Rival.hash with
    conflicts := fun _ =>
      [{ type := .conflicts, possibilities := [⟨.earlier, ascii "1.0", .fresh⟩] }] }

def renewedState : InstallState arm Rival Rival Unit Unit :=
  { Rival.state with pkgWant := fun _ => .install }

/-- As its version is taken for earlier than itself, the package is in conflict with itself. -/
theorem not_fetchesConflicts_renewed :
    fetchConflicts renewedHash renewedState .fresh = some [.fresh] ∧
      ¬FetchesConflicts renewedHash renewedState .fresh := by
  have hfetch : fetchConflicts renewedHash renewedState .fresh = some [.fresh] := by decide +kernel
  refine ⟨hfetch, fun hright => ?_⟩
  have hmem : Rival.fresh ∈ (fetchConflicts renewedHash renewedState .fresh).getD [] := by
    rw [hfetch]
    exact List.mem_singleton_self _
  exact ((hright.mem_iff .fresh).mp hmem).1 rfl

end Openmoko.Opkg
