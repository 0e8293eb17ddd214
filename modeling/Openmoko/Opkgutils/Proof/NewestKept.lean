import Openmoko.Opkgutils.Proof.Dictionary
import Openmoko.Opkgutils.Proof.VersionOrder

/-!
# The index keeps the newest

What is in the index under a key is, by the order of the versions, the last of the packages that have
been added under it, if the versions that are compared can be.
-/

namespace Openmoko.Opkgutils

variable {index index' : Packages} {pkg : Package} {pkgs : List Package} {code : ℕ}
  {codes : List ℕ}

def Package.Comparable (self ref : Package) : Prop :=
  ∃ v w, self.parsedVersion = some v ∧ ref.parsedVersion = some w ∧ v.Comparable w

def Package.AtLeast (self ref : Package) : Prop := ∃ r, self.compareVersion ref = some r ∧ 0 ≤ r

theorem Package.compareVersion_isSome_iff {self ref : Package} :
    (self.compareVersion ref).isSome = true ↔ self.Comparable ref := by
  rw [Package.compareVersion, Package.Comparable]
  cases self.parsedVersion with
  | none => simp
  | some v =>
    cases ref.parsedVersion with
    | none => simp
    | some w => simp [Version.compare_isSome_iff]

theorem Package.atLeast_iff {self ref : Package} :
    self.AtLeast ref ↔ ∃ v w, self.parsedVersion = some v ∧ ref.parsedVersion = some w ∧
      v.Comparable w ∧ w.key ≤ v.key := by
  constructor
  · rintro ⟨r, hr, hle⟩
    obtain ⟨v, hv, hr⟩ := Option.bind_eq_some_iff.mp hr
    obtain ⟨w, hw, hr⟩ := Option.bind_eq_some_iff.mp hr
    refine ⟨v, w, hv, hw, Version.compare_isSome_iff.mp (by rw [hr]; rfl), not_lt.mp fun hlt => ?_⟩
    rw [← cmp_eq_lt_iff, ← Version.outcome_compare hr, outcome_lt] at hlt
    omega
  · rintro ⟨v, w, hv, hw, hcomparable, hle⟩
    obtain ⟨r, hr⟩ := Option.isSome_iff_exists.mp (Version.compare_isSome_iff.mpr hcomparable)
    refine ⟨r, ?_, not_lt.mp fun hlt => hle.not_gt ?_⟩
    · rw [Package.compareVersion, hv, hw]
      exact hr
    · rw [← cmp_eq_lt_iff, ← Version.outcome_compare hr, outcome_lt]
      exact hlt

theorem Package.AtLeast.trans {p q r : Package} (hpq : p.AtLeast q) (hqr : q.AtLeast r) :
    p.AtLeast r := by
  rw [Package.atLeast_iff] at hpq hqr ⊢
  obtain ⟨u, v, hu, hv, huv, hle⟩ := hpq
  obtain ⟨v', w, hv', hw, hvw, hle'⟩ := hqr
  obtain rfl := Option.some.inj (hv.symm.trans hv')
  exact ⟨u, w, hu, hw, (hvw.symm.trans huv.symm hle' hle).symm, hle'.trans hle⟩

variable {r : ℤ} {file' : Text × Package}

theorem Package.AtLeast.of_neg {p q : Package} (hr : p.compareVersion q = some r)
    (hneg : r < 0) : q.AtLeast p := by
  rw [Package.atLeast_iff]
  obtain ⟨v, hv, hr⟩ := Option.bind_eq_some_iff.mp hr
  obtain ⟨w, hw, hr⟩ := Option.bind_eq_some_iff.mp hr
  have hcomparable : v.Comparable w := Version.compare_isSome_iff.mp (by rw [hr]; rfl)
  refine ⟨w, v, hw, hv, hcomparable.symm, le_of_lt ?_⟩
  rw [← cmp_eq_lt_iff, ← Version.outcome_compare hr, outcome_lt]
  exact hneg

theorem Package.compareVersion_self {p : Package} (hr : p.compareVersion p = some r) : r = 0 := by
  obtain ⟨v, hv, hr⟩ := Option.bind_eq_some_iff.mp hr
  obtain ⟨w, hw, hr⟩ := Option.bind_eq_some_iff.mp hr
  obtain rfl := Option.some.inj (hv.symm.trans hw)
  rw [← outcome_eq, Version.outcome_compare hr, cmp_self_eq_eq]

/-! ### Adding one package -/

structure Newest (pkgs : List Package) (index : Packages) : Prop where
  nodup : (index.map Prod.fst).Nodup
  isSome_iff : ∀ name, (index.get name).isSome = true ↔ ∃ pkg ∈ pkgs, pkg.key = name
  newest : ∀ name pkg, index.get name = some pkg → pkg ∈ pkgs ∧ pkg.key = name ∧
    ∀ other ∈ pkgs, other.key = name → other = pkg ∨ pkg.AtLeast other

def Tells (index : Packages) (pkg : Package) (index' : Packages) (code : ℕ) : Prop :=
  code = 0 ∧ index'.get pkg.key = some pkg ∨
    code = 1 ∧ index'.get pkg.key = index.get pkg.key ∧ index'.get pkg.key ≠ some pkg

theorem newest_nil : Newest [] [] where
  nodup := List.nodup_nil
  isSome_iff _ := iff_of_false Bool.false_ne_true fun ⟨_, hmem, _⟩ => List.not_mem_nil hmem
  newest := nofun

theorem addPackage_isSome_iff :
    (index.addPackage pkg).isSome = true ↔ pkg.Comparable (index.held pkg) := by
  rw [addPackage_eq, Option.isSome_map, Package.compareVersion_isSome_iff]

theorem Newest.newest_add (h : Newest pkgs index)
    (hr : pkg.compareVersion (index.held pkg) = some r) :
    let kept := if 0 ≤ r then pkg else index.held pkg
    kept ∈ pkgs ++ [pkg] ∧ kept.key = pkg.key ∧
      ∀ other ∈ pkgs ++ [pkg], other.key = pkg.key → other = kept ∨ kept.AtLeast other := by
  intro kept
  cases hold : index.get pkg.key with
  | none =>
    have hkept : kept = pkg := by
      have hheld : index.held pkg = pkg := by rw [Packages.held, hold, Option.getD_none]
      rw [show kept = if 0 ≤ r then pkg else index.held pkg from rfl, hheld, ite_self]
    rw [hkept]
    refine ⟨List.mem_append_right _ List.mem_cons_self, rfl, fun other hother hkey => ?_⟩
    rcases List.mem_append.mp hother with hmem | hlast
    · have hsome := (h.isSome_iff pkg.key).mpr ⟨other, hmem, hkey⟩
      rw [hold] at hsome
      cases hsome
    · exact Or.inl (List.mem_singleton.mp hlast)
  | some old =>
    have hheld : index.held pkg = old := by rw [Packages.held, hold, Option.getD_some]
    obtain ⟨hmem, hkey, hnewest⟩ := h.newest pkg.key old hold
    rw [hheld] at hr
    by_cases hle : 0 ≤ r
    · have hkept : kept = pkg := if_pos hle
      rw [hkept]
      refine ⟨List.mem_append_right _ List.mem_cons_self, rfl, fun other hother hkeyOther => ?_⟩
      rcases List.mem_append.mp hother with hother | hlast
      · refine Or.inr ?_
        have hpkg : pkg.AtLeast old := ⟨r, hr, hle⟩
        rcases hnewest other hother hkeyOther with rfl | hother
        · exact hpkg
        · exact hpkg.trans hother
      · exact Or.inl (List.mem_singleton.mp hlast)
    · have hkept : kept = old := (if_neg hle).trans hheld
      rw [hkept]
      refine ⟨List.mem_append_left _ hmem, hkey, fun other hother hkeyOther => ?_⟩
      rcases List.mem_append.mp hother with hother | hlast
      · exact hnewest other hother hkeyOther
      · obtain rfl := List.mem_singleton.mp hlast
        exact Or.inr (Package.AtLeast.of_neg hr (not_le.mp hle))

theorem Newest.add (h : Newest pkgs index) (hadd : index.addPackage pkg = some (index', code)) :
    Newest (pkgs ++ [pkg]) index' := by
  obtain ⟨r, hr, -, hget⟩ := get_of_addPackage hadd
  refine ⟨nodup_addPackage hadd h.nodup, fun name => ?_, fun name pkg' hpkg' => ?_⟩
  · rw [hget]
    by_cases heq : name = pkg.key
    · rw [if_pos heq]
      exact iff_of_true rfl ⟨pkg, List.mem_append_right _ List.mem_cons_self, heq.symm⟩
    · rw [if_neg heq, h.isSome_iff]
      constructor
      · exact fun ⟨old, hold, hkey⟩ => ⟨old, List.mem_append_left _ hold, hkey⟩
      · rintro ⟨old, hold, hkey⟩
        rcases List.mem_append.mp hold with hold | hlast
        · exact ⟨old, hold, hkey⟩
        · obtain rfl := List.mem_singleton.mp hlast
          exact absurd hkey.symm heq
  · rw [hget] at hpkg'
    by_cases heq : name = pkg.key
    · subst heq
      rw [if_pos rfl] at hpkg'
      obtain rfl := Option.some.inj hpkg'
      exact h.newest_add hr
    · rw [if_neg heq] at hpkg'
      obtain ⟨hmem, hkey, hnewest⟩ := h.newest name pkg' hpkg'
      refine ⟨List.mem_append_left _ hmem, hkey, fun other hother hkeyOther => ?_⟩
      rcases List.mem_append.mp hother with hother | hlast
      · exact hnewest other hother hkeyOther
      · obtain rfl := List.mem_singleton.mp hlast
        exact absurd hkeyOther.symm heq

theorem get_of_neg (hr : pkg.compareVersion (index.held pkg) = some r) (hneg : ¬ 0 ≤ r) :
    index.get pkg.key = some (index.held pkg) ∧ index.held pkg ≠ pkg := by
  have hne : index.held pkg ≠ pkg := by
    intro heq
    rw [heq] at hr
    exact hneg (Package.compareVersion_self hr).ge
  refine ⟨?_, hne⟩
  cases hold : index.get pkg.key with
  | none => exact absurd (by rw [Packages.held, hold, Option.getD_none]) hne
  | some old => rw [Packages.held, hold, Option.getD_some]

theorem tells_of_addPackage (hadd : index.addPackage pkg = some (index', code)) :
    Tells index pkg index' code := by
  obtain ⟨r, hr, hcode, hget⟩ := get_of_addPackage hadd
  have hgetKey := hget pkg.key
  rw [if_pos rfl] at hgetKey
  by_cases hle : 0 ≤ r
  · rw [if_pos hle] at hcode hgetKey
    exact Or.inl ⟨hcode, hgetKey⟩
  · rw [if_neg hle] at hcode hgetKey
    obtain ⟨hold, hne⟩ := get_of_neg hr hle
    refine Or.inr ⟨hcode, hgetKey.trans hold.symm, ?_⟩
    rw [hgetKey]
    exact fun heq => hne (Option.some.inj heq)

/-! ### Adding all of them -/

theorem addAll_cons :
    index.addAll (pkg :: pkgs) = some (index', codes) ↔
      ∃ index₁ code codes', index.addPackage pkg = some (index₁, code) ∧
        index₁.addAll pkgs = some (index', codes') ∧ codes = code :: codes' := by
  rw [Packages.addAll, Option.bind_eq_bind, Option.bind_eq_some_iff]
  constructor
  · rintro ⟨⟨index₁, code⟩, hadd, hbody⟩
    obtain ⟨⟨index₂, codes'⟩, hrest, heq⟩ := Option.bind_eq_some_iff.mp hbody
    obtain ⟨rfl, rfl⟩ := Prod.mk.inj (Option.some.inj heq)
    exact ⟨index₁, code, codes', hadd, hrest, rfl⟩
  · rintro ⟨index₁, code, codes', hadd, hrest, rfl⟩
    refine ⟨(index₁, code), hadd, ?_⟩
    simp only [hrest]
    rfl

theorem addAll_append {before after : List Package} :
    index.addAll (before ++ after) = some (index', codes) ↔
      ∃ index₁ codes₁ codes₂, index.addAll before = some (index₁, codes₁) ∧
        index₁.addAll after = some (index', codes₂) ∧ codes = codes₁ ++ codes₂ := by
  induction before generalizing index codes with
  | nil =>
    constructor
    · exact fun h => ⟨index, [], codes, rfl, h, rfl⟩
    · rintro ⟨index₁, codes₁, codes₂, hnil, hrest, rfl⟩
      obtain ⟨rfl, rfl⟩ := Prod.mk.inj (Option.some.inj hnil)
      exact hrest
  | cons pkg before ih =>
    rw [List.cons_append, addAll_cons]
    constructor
    · rintro ⟨index₁, code, codes', hadd, hrest, rfl⟩
      obtain ⟨index₂, codes₁, codes₂, hbefore, hafter, rfl⟩ := ih.mp hrest
      exact ⟨index₂, code :: codes₁, codes₂,
        addAll_cons.mpr ⟨index₁, code, codes₁, hadd, hbefore, rfl⟩, hafter, rfl⟩
    · rintro ⟨index₂, codes₁, codes₂, hbefore, hafter, rfl⟩
      obtain ⟨index₁, code, codes', hadd, hrest, rfl⟩ := addAll_cons.mp hbefore
      exact ⟨index₁, code, codes' ++ codes₂, hadd, ih.mpr ⟨index₂, codes', codes₂, hrest, hafter, rfl⟩,
        rfl⟩

theorem addAll_singleton :
    index.addAll [pkg] = some (index', codes) ↔
      ∃ code, index.addPackage pkg = some (index', code) ∧ codes = [code] := by
  rw [addAll_cons]
  constructor
  · rintro ⟨index₁, code, codes', hadd, hnil, rfl⟩
    obtain ⟨rfl, rfl⟩ := Prod.mk.inj (Option.some.inj hnil)
    exact ⟨code, hadd, rfl⟩
  · rintro ⟨code, hadd, rfl⟩
    exact ⟨index', code, [], hadd, rfl, rfl⟩

theorem length_codes (hadd : index.addAll pkgs = some (index', codes)) :
    codes.length = pkgs.length := by
  induction pkgs generalizing index codes with
  | nil =>
    obtain ⟨-, rfl⟩ := Prod.mk.inj (Option.some.inj hadd)
    rfl
  | cons pkg pkgs ih =>
    obtain ⟨index₁, code, codes', -, hrest, rfl⟩ := addAll_cons.mp hadd
    rw [List.length_cons, List.length_cons, ih hrest]

/-- All the packages are added, the index has the newest ones, and each return value tells of its
call. -/
def KeepsNewest (pkgs : List Package) : Prop :=
  ∃ index codes, Packages.addAll [] pkgs = some (index, codes) ∧ Newest pkgs index ∧
    codes.length = pkgs.length ∧
    ∀ before pkg after, pkgs = before ++ pkg :: after →
      ∃ index₀ codes₀ index₁ code,
        Packages.addAll [] before = some (index₀, codes₀) ∧
        Packages.addAll [] (before ++ [pkg]) = some (index₁, codes₀ ++ [code]) ∧
        codes₀ ++ [code] <+: codes ∧ Tells index₀ pkg index₁ code

theorem newest_of_addAll (hadd : Packages.addAll [] pkgs = some (index, codes)) :
    Newest pkgs index := by
  induction pkgs using List.reverseRecOn generalizing index codes with
  | nil =>
    obtain ⟨rfl, -⟩ := Prod.mk.inj (Option.some.inj hadd)
    exact newest_nil
  | append_singleton pkgs pkg ih =>
    obtain ⟨index₁, codes₁, codes₂, hbefore, hlast, -⟩ := addAll_append.mp hadd
    obtain ⟨code, hlast, -⟩ := addAll_singleton.mp hlast
    exact (ih hbefore).add hlast

theorem keepsNewest_of_addAll (hadd : Packages.addAll [] pkgs = some (index, codes)) :
    KeepsNewest pkgs := by
  refine ⟨index, codes, hadd, newest_of_addAll hadd, length_codes hadd, ?_⟩
  rintro before pkg after rfl
  obtain ⟨index₀, codes₀, codes₂, hbefore, hrest, rfl⟩ := addAll_append.mp hadd
  obtain ⟨index₁, code, codes', hcall, -, rfl⟩ := addAll_cons.mp hrest
  refine ⟨index₀, codes₀, index₁, code, hbefore, ?_, ⟨codes', by simp⟩, tells_of_addPackage hcall⟩
  exact addAll_append.mpr ⟨index₀, codes₀, [code], hbefore, addAll_singleton.mpr ⟨code, hcall, rfl⟩, rfl⟩

/-- Each package can be compared with the one that is in the index under its key, or with itself if
there is none. -/
def AllComparable (pkgs : List Package) : Prop :=
  ∀ before pkg after, pkgs = before ++ pkg :: after →
    ∀ index codes, Packages.addAll [] before = some (index, codes) →
      pkg.Comparable ((index.get pkg.key).getD pkg)

theorem addAll_isSome_of_allComparable (h : AllComparable pkgs) :
    ∃ index codes, Packages.addAll [] pkgs = some (index, codes) := by
  induction pkgs using List.reverseRecOn with
  | nil => exact ⟨[], [], rfl⟩
  | append_singleton pkgs pkg ih =>
    have hbefore : AllComparable pkgs := by
      rintro before pkg' after rfl
      exact h before pkg' (after ++ [pkg]) (by simp)
    obtain ⟨index, codes, hadd⟩ := ih hbefore
    have hcomparable := h pkgs pkg [] rfl index codes hadd
    obtain ⟨⟨index', code⟩, hcall⟩ :=
      Option.isSome_iff_exists.mp (addPackage_isSome_iff.mpr hcomparable)
    exact ⟨index', codes ++ [code], addAll_append.mpr
      ⟨index, codes, [code], hadd, addAll_singleton.mpr ⟨code, hcall, rfl⟩, rfl⟩⟩

/-- **The index keeps the newest packages as long as their versions can be compared.** -/
theorem keepsNewest_iff (pkgs : List Package) : KeepsNewest pkgs ↔ AllComparable pkgs := by
  constructor
  · rintro ⟨index, codes, hadd, -⟩
    rintro before pkg after rfl index₀ codes₀ hbefore
    obtain ⟨index₀', codes₀', codes₂, hbefore', hrest, -⟩ := addAll_append.mp hadd
    obtain ⟨rfl, -⟩ := Prod.mk.inj (Option.some.inj (hbefore.symm.trans hbefore'))
    obtain ⟨index₁, code, codes', hcall, -⟩ := addAll_cons.mp hrest
    exact addPackage_isSome_iff.mp (by rw [hcall]; rfl)
  · intro h
    obtain ⟨index, codes, hadd⟩ := addAll_isSome_of_allComparable h
    exact keepsNewest_of_addAll hadd

/-- A package whose version is empty. -/
theorem not_keepsNewest_unversioned : ¬ ∀ pkgs, KeepsNewest pkgs := by
  intro h
  obtain ⟨index, codes, hadd, -⟩ :=
    h [{ Package.new with dict := Function.update Package.new.dict .version (some []) }]
  obtain ⟨code, hcall, -⟩ := addAll_singleton.mp hadd
  cases hcall

/-! ### Files -/

structure IsDirectory (files : List (Text × Package)) : Prop where
  named : ∀ file ∈ files, file.1 ≠ [] ∧ file.2.dict .filename = some file.1
  unique : ∀ file ∈ files, ∀ file' ∈ files, file.1 = file'.1 → file = file'

def Live (index : Packages) (file : Text × Package) : Prop :=
  index.get file.2.key = some file.2

def FromFiles (files : List (Text × Package)) (index : Packages) : Prop :=
  ∀ name pkg, index.get name = some pkg → pkg.key = name ∧ ∃ basename, (basename, pkg) ∈ files

def movedBy (index : Packages) (file : Text × Package) (code : ℕ) : List Text :=
  if code = 0 then
    ((index.get file.2.key).bind fun old => truthy (old.dict .filename)).toList
  else [file.1]

variable {files rest : List (Text × Package)} {file : Text × Package} {moved : List Text}

theorem makeIndex_cons :
    makeIndex index (file :: rest) = some (index', moved) ↔
      ∃ index₁ code moved', index.addPackage file.2 = some (index₁, code) ∧
        makeIndex index₁ rest = some (index', moved') ∧
        moved = movedBy index file code ++ moved' := by
  obtain ⟨basename, pkg⟩ := file
  rw [makeIndex, Option.bind_eq_bind, Option.bind_eq_some_iff]
  constructor
  · rintro ⟨⟨index₁, code⟩, hadd, hbody⟩
    obtain ⟨⟨index₂, moved'⟩, hrest, heq⟩ := Option.bind_eq_some_iff.mp hbody
    obtain ⟨rfl, rfl⟩ := Prod.mk.inj (Option.some.inj heq)
    exact ⟨index₁, code, moved', hadd, hrest, rfl⟩
  · rintro ⟨index₁, code, moved', hadd, hrest, rfl⟩
    refine ⟨(index₁, code), hadd, ?_⟩
    simp only [hrest]
    rfl

theorem mem_movedBy_zero (hfiles : IsDirectory files) (hindex : FromFiles files index)
    (hfile' : file' ∈ files) :
    file'.1 ∈ movedBy index file 0 ↔ index.get file.2.key = some file'.2 := by
  rw [movedBy, if_pos rfl, Option.mem_toList, Option.bind_eq_some_iff]
  have hname : truthy (file'.2.dict .filename) = some file'.1 := by
    obtain ⟨hne, hfilename⟩ := hfiles.named file' hfile'
    rw [hfilename, truthy, Option.filter_some, if_pos (decide_eq_true hne)]
  constructor
  · rintro ⟨old, hold, hold'⟩
    obtain ⟨-, basename, hmem⟩ := hindex _ old hold
    obtain ⟨hne, hfilename⟩ := hfiles.named _ hmem
    rw [hfilename, truthy, Option.filter_some, if_pos (decide_eq_true hne)] at hold'
    have heq := hfiles.unique _ hmem file' hfile' (Option.some.inj hold')
    rw [← heq]
    exact hold
  · exact fun hget => ⟨file'.2, hget, hname⟩

theorem fromFiles_addPackage (hindex : FromFiles files index) (hfile : file ∈ files)
    (hadd : index.addPackage file.2 = some (index', code)) : FromFiles files index' := by
  obtain ⟨r, hr, -, hget⟩ := get_of_addPackage hadd
  intro name pkg hpkg
  rw [hget] at hpkg
  split at hpkg
  case isTrue heq =>
    subst heq
    split at hpkg
    · obtain rfl := Option.some.inj hpkg
      exact ⟨rfl, file.1, hfile⟩
    case isFalse hneg =>
      obtain ⟨hold, -⟩ := get_of_neg hr hneg
      exact hindex _ pkg (hold.trans hpkg)
  case isFalse => exact hindex name pkg hpkg

theorem live_or_moved_step (hfiles : IsDirectory files) (hindex : FromFiles files index)
    (hfile : file ∈ files) (hnew : ¬ Live index file)
    (hadd : index.addPackage file.2 = some (index', code))
    (hfile' : file' ∈ files) :
    (Live index' file' ∨ file'.1 ∈ movedBy index file code ↔ Live index file' ∨ file' = file) ∧
      ¬ (Live index' file' ∧ file'.1 ∈ movedBy index file code) := by
  have hsame : file'.1 = file.1 ↔ file' = file :=
    ⟨hfiles.unique file' hfile' file hfile, fun heq => heq ▸ rfl⟩
  have hpkg : file.2 = file'.2 ↔ file' = file := by
    refine ⟨fun heq => hsame.mp (Option.some.inj ?_), fun heq => heq ▸ rfl⟩
    rw [← (hfiles.named file' hfile').2, ← (hfiles.named file hfile).2, heq]
  obtain ⟨r, hr, hcode, hget⟩ := get_of_addPackage hadd
  by_cases hle : 0 ≤ r
  · rw [if_pos hle] at hcode
    subst hcode
    rw [mem_movedBy_zero hfiles hindex hfile', Live, Live, hget, if_pos hle]
    by_cases hkey : file'.2.key = file.2.key
    · rw [if_pos hkey, hkey, Option.some.injEq, hpkg]
      refine ⟨or_comm, fun ⟨heq, hold⟩ => hnew ?_⟩
      rw [heq] at hold
      exact hold
    · rw [if_neg hkey]
      have hmoved : index.get file.2.key ≠ some file'.2 :=
        fun hold => hkey (hindex _ _ hold).1
      have hne : file' ≠ file := fun heq => hkey (heq ▸ rfl)
      exact ⟨by rw [or_iff_left hmoved, or_iff_left hne], fun h => hmoved h.2⟩
  · rw [if_neg hle] at hcode
    subst hcode
    obtain ⟨hold, -⟩ := get_of_neg hr hle
    have hlive : Live index' file' ↔ Live index file' := by
      rw [Live, Live, hget, if_neg hle]
      split
      case isTrue hkey => rw [hkey, hold]
      case isFalse => rfl
    rw [hlive, movedBy, if_neg Nat.one_ne_zero, List.mem_singleton, hsame]
    exact ⟨Iff.rfl, fun ⟨hold, heq⟩ => hnew (heq ▸ hold)⟩

theorem live_or_moved (hfiles : IsDirectory files) (hindex : FromFiles files index)
    (hrest : ∀ file ∈ rest, file ∈ files) (hnodup : rest.Nodup)
    (hnew : ∀ file ∈ rest, ¬ Live index file) (hmake : makeIndex index rest = some (index', moved))
    (hfile' : file' ∈ files) :
    (Live index' file' ∨ file'.1 ∈ moved ↔ Live index file' ∨ file' ∈ rest) ∧
      ¬ (Live index' file' ∧ file'.1 ∈ moved) := by
  induction rest generalizing index moved with
  | nil =>
    obtain ⟨rfl, rfl⟩ := Prod.mk.inj (Option.some.inj hmake)
    exact ⟨by simp, fun h => List.not_mem_nil h.2⟩
  | cons file rest ih =>
    obtain ⟨index₁, code, moved', hadd, hmakeRest, rfl⟩ := makeIndex_cons.mp hmake
    rw [List.nodup_cons] at hnodup
    have hfile := hrest file List.mem_cons_self
    have hstep : ∀ file' ∈ files, _ := fun file' hfile' =>
      live_or_moved_step hfiles hindex hfile (hnew file List.mem_cons_self) hadd hfile'
    have hnew' : ∀ file' ∈ rest, ¬ Live index₁ file' := by
      intro file' hmem hlive
      rcases (hstep file' (hrest file' (List.mem_cons_of_mem _ hmem))).1.mp (Or.inl hlive) with
        hlive | rfl
      · exact hnew file' (List.mem_cons_of_mem _ hmem) hlive
      · exact hnodup.1 hmem
    obtain ⟨hrun, hnot⟩ := ih (fromFiles_addPackage hindex hfile hadd)
      (fun file hmem => hrest file (List.mem_cons_of_mem _ hmem)) hnodup.2 hnew' hmakeRest
    obtain ⟨hcall, hnotCall⟩ := hstep file' hfile'
    rw [List.mem_append, List.mem_cons]
    constructor
    · rw [or_left_comm, hrun, ← or_assoc, or_comm (a := _ ∈ movedBy _ _ _), hcall, or_assoc]
    · rintro ⟨hlive, hmoved | hmoved⟩
      · rcases hrun.mp (Or.inl hlive) with hlive₁ | hmem
        · exact hnotCall ⟨hlive₁, hmoved⟩
        · rcases hcall.mp (Or.inr hmoved) with hlive₀ | rfl
          · exact hnew file' (List.mem_cons_of_mem _ hmem) hlive₀
          · exact hnodup.1 hmem
      · exact hnot ⟨hlive, hmoved⟩

/-- **Moved away are the files whose packages are not in the index.** -/
theorem moved_iff (hfiles : IsDirectory files) (hnodup : files.Nodup)
    (hmake : makeIndex [] files = some (index, moved)) (hfile : file ∈ files) :
    file.1 ∈ moved ↔ ¬ Live index file := by
  have hindex : FromFiles files [] := nofun
  have hnew : ∀ file ∈ files, ¬ Live [] file := fun _ _ => nofun
  obtain ⟨hrun, hnot⟩ := live_or_moved hfiles hindex (fun _ h => h) hnodup hnew hmake hfile
  constructor
  · exact fun hmoved hlive => hnot ⟨hlive, hmoved⟩
  · exact fun hlive => (hrun.mpr (Or.inr hfile)).resolve_left hlive

def versionFile (basename version : Text) : Text × Package :=
  (basename, { Package.new with
    dict := Function.update (Function.update Package.new.dict .version (some version))
      .filename (some basename) })

theorem moved_iff_versionFile :
    ∃ index moved, makeIndex [] [versionFile [97] [49], versionFile [98] [50]] =
        some (index, moved) ∧ moved = [[97]] ∧
      ([97] ∈ moved ↔ ¬ Live index (versionFile [97] [49])) := by
  have hmoved : (makeIndex [] [versionFile [97] [49], versionFile [98] [50]]).map Prod.snd =
      some [[97]] := by decide +kernel
  obtain ⟨⟨index, moved⟩, hmake, heq⟩ := Option.map_eq_some_iff.mp hmoved
  have hunique : versionFile [97] [49] ≠ versionFile [98] [50] := nofun
  refine ⟨index, moved, hmake, heq, moved_iff ⟨?_, ?_⟩ (by simpa using hunique) hmake
    List.mem_cons_self⟩
  · intro file hfile
    obtain rfl | hfile := List.mem_cons.mp hfile
    · exact ⟨nofun, rfl⟩
    obtain rfl := List.mem_singleton.mp hfile
    exact ⟨nofun, rfl⟩
  · simp [versionFile]

end Openmoko.Opkgutils
