import Openmoko.Opkgutils.Packages

/-!
# The index as a dictionary

Each key is there once, and `add_package` changes what is under the key of the new package.
-/

namespace Openmoko.Opkgutils

variable {packages packages' : Packages} {pkg : Package} {name : Text}

theorem get_eq_some_iff (hnodup : (packages.map Prod.fst).Nodup) {name : Text} :
    packages.get name = some pkg ↔ (name, pkg) ∈ packages := by
  rw [Packages.get]
  induction packages with
  | nil => simp
  | cons entry packages ih =>
    obtain ⟨key, pkg'⟩ := entry
    rw [List.map_cons, List.nodup_cons] at hnodup
    rw [List.lookup_cons, List.mem_cons, Prod.mk.injEq]
    by_cases heq : name = key
    · subst heq
      have hnot : (name, pkg) ∉ packages :=
        fun hmem => hnodup.1 (List.mem_map.mpr ⟨(name, pkg), hmem, rfl⟩)
      rw [or_iff_left hnot, beq_self_eq_true]
      exact ⟨fun h => ⟨rfl, (Option.some.inj h).symm⟩, fun h => congrArg some h.2.symm⟩
    · have hbeq : (name == key) = false := beq_eq_false_iff_ne.mpr heq
      rw [hbeq]
      exact (ih hnodup.2).trans ⟨Or.inr, fun h => h.resolve_left fun h => heq h.1⟩

theorem get_isSome_iff {name : Text} :
    (packages.get name).isSome = true ↔ name ∈ packages.map Prod.fst := by
  rw [Packages.get, List.lookup_isSome_iff, List.mem_map]
  constructor
  · rintro ⟨entry, hentry, heq⟩
    exact ⟨entry, hentry, (beq_iff_eq.mp heq).symm⟩
  · rintro ⟨entry, hentry, heq⟩
    exact ⟨entry, hentry, beq_iff_eq.mpr heq.symm⟩

theorem mem_of_get {name : Text} (hget : packages.get name = some pkg) :
    (name, pkg) ∈ packages := by
  rw [Packages.get] at hget
  obtain ⟨before, after, heq, -⟩ := List.lookup_eq_some_iff.mp hget
  rw [heq]
  exact List.mem_append_right _ List.mem_cons_self

theorem get_replace (packages : Packages) (pkg : Package) (name name' : Text) :
    Packages.get (packages.map fun entry => if entry.1 = name then (name, pkg) else entry) name' =
      if name' = name then (packages.get name').map fun _ => pkg else packages.get name' := by
  induction packages with
  | nil => exact (ite_self none).symm
  | cons entry packages ih =>
    obtain ⟨key, old⟩ := entry
    rw [Packages.get, List.map_cons, List.lookup_cons, Packages.get, List.lookup_cons]
    rw [Packages.get, Packages.get] at ih
    by_cases hkey : key = name
    · subst hkey
      rw [if_pos rfl]
      by_cases heq : name' = key
      · simp [heq]
      · rw [beq_eq_false_iff_ne.mpr heq, ih, if_neg heq]
    · rw [if_neg hkey]
      by_cases heq : name' = key
      · subst heq
        simp [hkey]
      · rw [beq_eq_false_iff_ne.mpr heq]
        exact ih

theorem get_set (packages : Packages) (pkg : Package) (name name' : Text) :
    (packages.set name pkg).get name' = if name' = name then some pkg else packages.get name' := by
  rw [Packages.set]
  split
  case isTrue hsome =>
    rw [get_replace]
    by_cases heq : name' = name
    · obtain ⟨old, hold⟩ := Option.isSome_iff_exists.mp hsome
      rw [if_pos heq, if_pos heq, heq, hold, Option.map_some]
    · rw [if_neg heq, if_neg heq]
  case isFalse hnone =>
    rw [Bool.not_eq_true, Option.isSome_eq_false_iff, Option.isNone_iff_eq_none] at hnone
    rw [Packages.get] at hnone
    rw [Packages.get, Packages.get, List.lookup_append]
    by_cases heq : name' = name
    · subst heq
      simp [hnone]
    · rw [if_neg heq, List.lookup_cons, beq_eq_false_iff_ne.mpr heq]
      exact Option.or_none

theorem nodup_set (hnodup : (packages.map Prod.fst).Nodup) (name : Text) (pkg : Package) :
    ((packages.set name pkg).map Prod.fst).Nodup := by
  rw [Packages.set]
  split
  case isTrue =>
    have hfst : (packages.map fun entry => if entry.1 = name then (name, pkg) else entry).map
        Prod.fst = packages.map Prod.fst := by
      rw [List.map_map]
      refine List.map_congr_left fun entry _ => ?_
      rw [Function.comp_apply]
      split
      case isTrue heq => exact heq.symm
      case isFalse => rfl
    rw [hfst]
    exact hnodup
  case isFalse hnone =>
    rw [List.map_append, List.nodup_append]
    refine ⟨hnodup, List.nodup_singleton _, fun key hkey key' hkey' heq => hnone ?_⟩
    have hname : key' = name := List.mem_singleton.mp hkey'
    rw [get_isSome_iff, ← hname, ← heq]
    exact hkey

theorem mem_of_set {entry : Text × Package} (h : entry ∈ packages.set name pkg) :
    entry ∈ packages ∨ entry = (name, pkg) := by
  rw [Packages.set] at h
  split at h
  · obtain ⟨old, hold, rfl⟩ := List.mem_map.mp h
    split
    · exact Or.inr rfl
    · exact Or.inl hold
  · rcases List.mem_append.mp h with hold | hlast
    · exact Or.inl hold
    · exact Or.inr (List.mem_singleton.mp hlast)

def Packages.held (packages : Packages) (pkg : Package) : Package :=
  (packages.get pkg.key).getD pkg

def Packages.opened (packages : Packages) (pkg : Package) : Packages :=
  if (packages.get pkg.key).isSome then packages else packages.set pkg.key pkg

theorem get_opened (packages : Packages) (pkg : Package) (name : Text) :
    (packages.opened pkg).get name =
      if name = pkg.key then some (packages.held pkg) else packages.get name := by
  rw [Packages.opened, Packages.held]
  by_cases hsome : (packages.get pkg.key).isSome = true
  · rw [if_pos hsome]
    split
    case isTrue heq =>
      obtain ⟨old, hold⟩ := Option.isSome_iff_exists.mp hsome
      rw [heq, hold, Option.getD_some]
    case isFalse => rfl
  · rw [if_neg hsome, get_set]
    rw [Bool.not_eq_true, Option.isSome_eq_false_iff, Option.isNone_iff_eq_none] at hsome
    rw [hsome, Option.getD_none]

theorem mem_of_opened {entry : Text × Package} (h : entry ∈ packages.opened pkg) :
    entry ∈ packages ∨ entry = (pkg.key, pkg) := by
  rw [Packages.opened] at h
  split at h
  · exact Or.inl h
  · exact mem_of_set h

theorem addPackage_eq (packages : Packages) (pkg : Package) :
    packages.addPackage pkg = (pkg.compareVersion (packages.held pkg)).map fun r =>
      if 0 ≤ r then ((packages.opened pkg).set pkg.key pkg, 0) else (packages.opened pkg, 1) := by
  have hget := get_opened packages pkg pkg.key
  rw [if_pos rfl] at hget
  have hopened : packages.addPackage pkg = (do
      let old ← (packages.opened pkg).get pkg.key
      let r ← pkg.compareVersion old
      return if 0 ≤ r then ((packages.opened pkg).set pkg.key pkg, 0)
        else (packages.opened pkg, 1)) := rfl
  rw [hopened, hget, Option.map_eq_bind]
  rfl

theorem get_of_addPackage {code : ℕ} (hadd : packages.addPackage pkg = some (packages', code)) :
    ∃ r, pkg.compareVersion (packages.held pkg) = some r ∧ code = (if 0 ≤ r then 0 else 1) ∧
      ∀ name, packages'.get name =
        if name = pkg.key then some (if 0 ≤ r then pkg else packages.held pkg)
        else packages.get name := by
  rw [addPackage_eq] at hadd
  obtain ⟨r, hr, hresult⟩ := Option.map_eq_some_iff.mp hadd
  refine ⟨r, hr, ?_⟩
  split at hresult
  case isTrue hle =>
    obtain ⟨rfl, rfl⟩ := Prod.mk.inj hresult
    rw [if_pos hle, if_pos hle]
    refine ⟨rfl, fun name => ?_⟩
    rw [get_set, get_opened]
    split <;> rfl
  case isFalse hlt =>
    obtain ⟨rfl, rfl⟩ := Prod.mk.inj hresult
    rw [if_neg hlt, if_neg hlt]
    exact ⟨rfl, get_opened packages pkg⟩

theorem nodup_addPackage {code : ℕ} (hadd : packages.addPackage pkg = some (packages', code))
    (hnodup : (packages.map Prod.fst).Nodup) : (packages'.map Prod.fst).Nodup := by
  have hopened : ((packages.opened pkg).map Prod.fst).Nodup := by
    rw [Packages.opened]
    split
    · exact hnodup
    · exact nodup_set hnodup _ _
  rw [addPackage_eq] at hadd
  obtain ⟨r, -, hresult⟩ := Option.map_eq_some_iff.mp hadd
  split at hresult
  · obtain ⟨rfl, -⟩ := Prod.mk.inj hresult
    exact nodup_set hopened _ _
  · obtain ⟨rfl, -⟩ := Prod.mk.inj hresult
    exact hopened

end Openmoko.Opkgutils
