import Mathlib.Data.List.Nodup
import Openmoko.Opkg.Proof.ProvidesSeen
import Openmoko.Opkg.Proof.ReverseDependencies

/-!
# Duplicates in the vectors of the hash (`pkg_vec.c`, `pkg_depends.c`)

An abstract package has a vector of its packages and one of the abstract packages that provide it.
The first is searched before a package is put in, the second is not: an abstract package is entered
among its own providers again with each of its packages.
-/

namespace Openmoko.Opkg

structure ListedPkg extends HashedPkg where
  providesStr : List (List Byte)
  provides : Option (List (List Byte))

def mergeListed (oldpkg newpkg : ListedPkg) (setStatus : Bool) : ListedPkg where
  toHashedPkg := pkgMerge oldpkg.toHashedPkg newpkg.toHashedPkg setStatus
  providesStr := if oldpkg.providesStr = [] then newpkg.providesStr else oldpkg.providesStr
  provides := if oldpkg.providesStr = [] then newpkg.provides else oldpkg.provides

def insertMerge (platform : Platform) (pkg : ListedPkg) (setStatus : Bool) :
    List ListedPkg → List ListedPkg × ListedPkg × List ListedPkg
  | [] => ([], pkg, [])
  | old :: vec =>
    if isSamePkg platform pkg.toPkg old.toPkg then
      ([], if setStatus then mergeListed old pkg setStatus else pkg, vec)
    else
      let (front, kept, back) := insertMerge platform pkg setStatus vec
      (old :: front, kept, back)

structure VectorState where
  pkgs : List Byte → List ListedPkg
  providedBy : List Byte → List (List Byte)

def VectorState.init : VectorState where
  pkgs _ := []
  providedBy _ := []

structure ListedInsertion extends Insertion where
  providesStr : List (List Byte)

namespace ListedInsertion

variable (insertion : ListedInsertion)

def name : List Byte := insertion.pkg.name

def listed : ListedPkg where
  toHashedPkg := { buildDepends insertion.pkg with parent := some insertion.name }
  providesStr := insertion.providesStr
  provides := none

end ListedInsertion

def hashInsertListed (platform : Platform) (s : VectorState) (insertion : ListedInsertion) :
    VectorState :=
  let abPkg := insertion.name
  let (front, kept, back) :=
    insertMerge platform insertion.listed insertion.setStatus (s.pkgs abPkg)
  let (providedBy, providing) :=
    ProvidingPkg.buildProvides s.providedBy ⟨abPkg, kept.providesStr, kept.provides⟩
  { pkgs := Function.update s.pkgs abPkg
      (front ++ { kept with provides := providing.provides } :: back)
    providedBy := providedBy }

def insertAll (platform : Platform) (insertions : List ListedInsertion) : VectorState :=
  insertions.foldl (hashInsertListed platform) VectorState.init

structure VectorsUnique (platform : Platform) (s : VectorState) : Prop where
  pkgs : ∀ a, (s.pkgs a).Pairwise fun pkg other =>
    isSamePkg platform pkg.toPkg other.toPkg = false
  providedBy : ∀ a, (s.providedBy a).Nodup

variable {kept : ListedPkg}

section Packages

variable {platform : Platform} {pkg old : ListedPkg} {setStatus : Bool} {vec : List ListedPkg}

def vectorKey (platform : Platform) (pkg : ListedPkg) :=
  (pkg.name, pkgKey platform pkg.toPkgVersion, pkg.architecture)

theorem isSamePkg_iff {other : ListedPkg} :
    isSamePkg platform pkg.toPkg other.toPkg = true ↔
      vectorKey platform pkg = vectorKey platform other := by
  have hversion := (pkgCompareVersions_comparesBy platform).eq_iff pkg.toPkgVersion
    other.toPkgVersion
  simp only [isSamePkg, Bool.and_eq_true, beq_iff_eq, vectorKey, Prod.mk.injEq, hversion]

theorem pairwise_iff :
    (vec.Pairwise fun pkg other => isSamePkg platform pkg.toPkg other.toPkg = false) ↔
      (vec.map (vectorKey platform)).Nodup := by
  have hdiffer : (fun pkg other : ListedPkg => isSamePkg platform pkg.toPkg other.toPkg = false) =
      fun pkg other => vectorKey platform pkg ≠ vectorKey platform other := by
    funext pkg other
    rw [← Bool.not_eq_true, isSamePkg_iff]
  rw [hdiffer, List.Nodup, List.pairwise_map]

theorem pkgMerge_kept (old new : HashedPkg) (setStatus : Bool) :
    (pkgMerge old new setStatus).name = old.name ∧
      (pkgMerge old new setStatus).toPkgVersion = old.toPkgVersion ∧
      (pkgMerge old new setStatus).architecture = old.architecture := by
  unfold pkgMerge
  by_cases hnone : old.relations = Relations.none <;> cases setStatus <;> simp [hnone]

theorem vectorKey_mergeListed :
    vectorKey platform (mergeListed old pkg setStatus) = vectorKey platform old := by
  obtain ⟨hname, hversion, harchitecture⟩ :=
    pkgMerge_kept old.toHashedPkg pkg.toHashedPkg setStatus
  simp only [vectorKey, mergeListed, hname, hversion, harchitecture]

theorem vectorKey_kept (hsame : isSamePkg platform pkg.toPkg old.toPkg = true) :
    vectorKey platform (if setStatus then mergeListed old pkg setStatus else pkg) =
      vectorKey platform old := by
  cases setStatus with
  | false => exact isSamePkg_iff.mp hsame
  | true => exact vectorKey_mergeListed

theorem insertMerge_keys {front back : List ListedPkg}
    (hmerge : insertMerge platform pkg setStatus vec = (front, kept, back)) :
    front.map (vectorKey platform) ++ vectorKey platform kept :: back.map (vectorKey platform) =
        vec.map (vectorKey platform) ∨
      vectorKey platform pkg ∉ vec.map (vectorKey platform) ∧
        front.map (vectorKey platform) ++ vectorKey platform kept :: back.map (vectorKey platform) =
          vec.map (vectorKey platform) ++ [vectorKey platform pkg] := by
  induction vec generalizing front with
  | nil =>
    obtain ⟨rfl, rfl, rfl⟩ := hmerge
    exact Or.inr ⟨List.not_mem_nil, rfl⟩
  | cons old vec ih =>
    rw [insertMerge] at hmerge
    rw [List.map_cons]
    split at hmerge
    next hsame =>
      obtain ⟨rfl, rfl, rfl⟩ := hmerge
      left
      rw [vectorKey_kept hsame]
      rfl
    next hother =>
      obtain ⟨rest, kept', back', hrest⟩ :
          ∃ rest kept' back', insertMerge platform pkg setStatus vec = (rest, kept', back') :=
        ⟨_, _, _, rfl⟩
      rw [hrest] at hmerge
      obtain ⟨rfl, rfl, rfl⟩ := hmerge
      rw [List.map_cons, List.cons_append, List.cons_append]
      rcases ih hrest with hkept | ⟨hnew, hlast⟩
      · exact Or.inl (congrArg _ hkept)
      · refine Or.inr ⟨?_, congrArg _ hlast⟩
        rw [List.mem_cons, not_or]
        exact ⟨fun heq => hother (isSamePkg_iff.mpr heq), hnew⟩

theorem insertMerge_pairwise {front back : List ListedPkg}
    (hmerge : insertMerge platform pkg setStatus vec = (front, kept, back))
    (hvec : vec.Pairwise fun pkg other => isSamePkg platform pkg.toPkg other.toPkg = false)
    (provides : Option (List (List Byte))) :
    (front ++ { kept with provides := provides } :: back).Pairwise fun pkg other =>
      isSamePkg platform pkg.toPkg other.toPkg = false := by
  rw [pairwise_iff] at hvec ⊢
  have hkeys : (front ++ { kept with provides := provides } :: back).map (vectorKey platform) =
      front.map (vectorKey platform) ++ vectorKey platform kept :: back.map (vectorKey platform) :=
    List.map_append
  rw [hkeys]
  rcases insertMerge_keys hmerge with hkept | ⟨hnew, hlast⟩
  · rwa [hkept]
  · rw [hlast]
    refine List.nodup_append.mpr ⟨hvec, List.nodup_singleton _, fun a ha b hb heq => ?_⟩
    exact hnew (List.mem_singleton.mp hb ▸ heq ▸ ha)

end Packages

theorem hashInsertListed_eq {platform : Platform} {s : VectorState} {insertion : ListedInsertion}
    {front back : List ListedPkg}
    (hmerge : insertMerge platform insertion.listed insertion.setStatus
      (s.pkgs insertion.name) = (front, kept, back)) :
    hashInsertListed platform s insertion =
      { pkgs := Function.update s.pkgs insertion.name (front ++ { kept with
          provides := (ProvidingPkg.buildProvides s.providedBy
            ⟨insertion.name, kept.providesStr, kept.provides⟩).2.provides } :: back)
        providedBy := (ProvidingPkg.buildProvides s.providedBy
          ⟨insertion.name, kept.providesStr, kept.provides⟩).1 } := by
  rw [hashInsertListed, hmerge]

section Providers

variable {lists : List Byte → List (List Byte)} {abPkg : List Byte}

theorem insertProviders_eq (abPkg : List Byte) (names : List (List Byte))
    (lists : List Byte → List (List Byte)) (d : List Byte) :
    names.foldl (ProvidingPkg.insertProvider abPkg) lists d =
      lists d ++ List.replicate (names.count d) abPkg := by
  induction names generalizing lists with
  | nil => exact (List.append_nil _).symm
  | cons name names ih =>
    rw [List.foldl_cons, ih, ProvidingPkg.insertProvider, List.count_cons]
    by_cases hd : d = name
    · subst hd
      rw [Function.update_self, if_pos (beq_self_eq_true d), Nat.add_comm, List.replicate_add,
        ← List.append_assoc]
      rfl
    · rw [Function.update_of_ne hd, if_neg (by rw [beq_iff_eq]; exact Ne.symm hd), Nat.add_zero]

def enteredNames (pkg : ProvidingPkg) : List (List Byte) :=
  pkg.name :: if pkg.provides.isSome then [] else pkg.providesStr

theorem buildProvides_fst (pkg : ProvidingPkg) :
    (ProvidingPkg.buildProvides lists pkg).1 =
      (enteredNames pkg).foldl (ProvidingPkg.insertProvider pkg.name) lists := by
  obtain ⟨name, providesStr, provides⟩ := pkg
  cases provides with
  | some entries => cases providesStr <;> rfl
  | none => cases providesStr <;> rfl

theorem mem_insertProviders {names : List (List Byte)} {a d : List Byte} :
    a ∈ names.foldl (ProvidingPkg.insertProvider abPkg) lists d ↔
      a ∈ lists d ∨ a = abPkg ∧ d ∈ names := by
  rw [insertProviders_eq, List.mem_append, List.mem_replicate, ← Nat.pos_iff_ne_zero,
    List.count_pos_iff, and_comm]

theorem insertProviders_nodup_iff {names : List (List Byte)} :
    (∀ d, (names.foldl (ProvidingPkg.insertProvider abPkg) lists d).Nodup) ↔
      (∀ d, (lists d).Nodup) ∧ names.Nodup ∧ ∀ d ∈ names, abPkg ∉ lists d := by
  have hone : ∀ d, (names.foldl (ProvidingPkg.insertProvider abPkg) lists d).Nodup ↔
      (lists d).Nodup ∧ names.count d ≤ 1 ∧ (d ∈ names → abPkg ∉ lists d) := by
    intro d
    rw [insertProviders_eq, List.nodup_append, List.nodup_replicate]
    refine and_congr_right fun _ => and_congr_right fun _ => ?_
    simp only [List.mem_replicate, ne_eq, List.count_eq_zero, not_not]
    constructor
    · exact fun hdisjoint hd hmem => hdisjoint abPkg hmem abPkg ⟨hd, rfl⟩ rfl
    · rintro hfresh a ha b ⟨hd, rfl⟩ rfl
      exact hfresh hd ha
  simp only [hone, forall_and, List.nodup_iff_count_le_one]

end Providers

section Insertions

variable {platform : Platform} {s : VectorState} {names : List (List Byte)}

structure Listed (platform : Platform) (names : List (List Byte)) (s : VectorState) : Prop where
  unlisted : ∀ a ∉ names, s.pkgs a = []
  pkgs : ∀ a, (s.pkgs a).Pairwise fun pkg other =>
    isSamePkg platform pkg.toPkg other.toPkg = false
  provider : ∀ a d, a ∈ s.providedBy d → a ∈ names
  own : ∀ a ∈ names, a ∈ s.providedBy a

theorem listed_init (platform : Platform) : Listed platform [] VectorState.init where
  unlisted _ _ := rfl
  pkgs _ := List.Pairwise.nil
  provider _ _ := nofun
  own _ := nofun

/-- **One insertion**: the first of a name enters it once among the providers of each name, if it
names each of them once; a later one enters it among its own again. -/
theorem Listed.insert (h : Listed platform names s) (insertion : ListedInsertion) :
    Listed platform (names ++ [insertion.name]) (hashInsertListed platform s insertion) ∧
      ((∀ d, ((hashInsertListed platform s insertion).providedBy d).Nodup) ↔
        (∀ d, (s.providedBy d).Nodup) ∧ insertion.name ∉ names ∧
          (insertion.name :: insertion.providesStr).Nodup) := by
  obtain ⟨front, kept, back, hmerge⟩ : ∃ front kept back, insertMerge platform insertion.listed
      insertion.setStatus (s.pkgs insertion.name) = (front, kept, back) := ⟨_, _, _, rfl⟩
  set providing : ProvidingPkg := ⟨insertion.name, kept.providesStr, kept.provides⟩ with hproviding
  have hproviders : (hashInsertListed platform s insertion).providedBy =
      (enteredNames providing).foldl (ProvidingPkg.insertProvider insertion.name) s.providedBy := by
    rw [hashInsertListed_eq hmerge, ← hproviding, buildProvides_fst]
  have hpkgs : (hashInsertListed platform s insertion).pkgs =
      Function.update s.pkgs insertion.name (front ++ { kept with
        provides := (ProvidingPkg.buildProvides s.providedBy providing).2.provides } :: back) := by
    rw [hashInsertListed_eq hmerge]
  have hown : insertion.name ∈ enteredNames providing := List.mem_cons_self
  constructor
  · refine ⟨fun a ha => ?_, fun a => ?_, fun a d ha => ?_, fun a ha => ?_⟩
    · rw [List.mem_append, List.mem_singleton, not_or] at ha
      rw [hpkgs, Function.update_of_ne ha.2]
      exact h.unlisted a ha.1
    · rw [hpkgs]
      by_cases ha : a = insertion.name
      · subst ha
        rw [Function.update_self]
        exact insertMerge_pairwise hmerge (h.pkgs _) _
      · rw [Function.update_of_ne ha]
        exact h.pkgs a
    · rw [hproviders, mem_insertProviders] at ha
      rcases ha with ha | ⟨rfl, -⟩
      · exact List.mem_append_left _ (h.provider a d ha)
      · exact List.mem_append_right _ (List.mem_singleton_self _)
    · rw [hproviders, mem_insertProviders]
      rcases List.mem_append.mp ha with ha | ha
      · exact Or.inl (h.own a ha)
      · rw [List.mem_singleton.mp ha]
        exact Or.inr ⟨rfl, hown⟩
  · rw [hproviders, insertProviders_nodup_iff]
    refine and_congr_right fun _ => ?_
    by_cases hname : insertion.name ∈ names
    · refine iff_of_false ?_ fun hfresh => hfresh.1 hname
      exact fun hfresh => hfresh.2 insertion.name hown (h.own _ hname)
    · -- the package itself is put in, and nothing is built of it
      rw [h.unlisted _ hname] at hmerge
      obtain ⟨rfl, rfl, rfl⟩ := hmerge
      have hentered : enteredNames providing = insertion.name :: insertion.providesStr := rfl
      rw [hentered, and_comm]
      refine and_congr_left fun _ => iff_of_true (fun d _ hmem => ?_) hname
      exact hname (h.provider _ d hmem)

end Insertions

theorem insertAll_concat (platform : Platform) (insertions : List ListedInsertion)
    (insertion : ListedInsertion) :
    insertAll platform (insertions ++ [insertion]) =
      hashInsertListed platform (insertAll platform insertions) insertion := by
  rw [insertAll, List.foldl_concat, ← insertAll]

/-- **The vectors have no duplicates** exactly when no two packages of one name are inserted, and
none provides a name twice or its own. -/
theorem vectorsUnique_iff (platform : Platform) (insertions : List ListedInsertion) :
    VectorsUnique platform (insertAll platform insertions) ↔
      (insertions.map ListedInsertion.name).Nodup ∧
        ∀ insertion ∈ insertions, (insertion.name :: insertion.providesStr).Nodup := by
  have hrun : Listed platform (insertions.map ListedInsertion.name)
        (insertAll platform insertions) ∧
      ((∀ d, ((insertAll platform insertions).providedBy d).Nodup) ↔
        (insertions.map ListedInsertion.name).Nodup ∧
          ∀ insertion ∈ insertions, (insertion.name :: insertion.providesStr).Nodup) := by
    induction insertions using List.reverseRecOn with
    | nil =>
      have hstart : insertAll platform [] = VectorState.init := rfl
      rw [hstart, List.map_nil]
      exact ⟨listed_init platform, fun _ => ⟨List.nodup_nil, List.forall_mem_nil _⟩,
        fun _ _ => List.nodup_nil⟩
    | append_singleton insertions insertion ih =>
      obtain ⟨hlisted, hiff⟩ := ih
      obtain ⟨hnext, hstep⟩ := hlisted.insert insertion
      rw [insertAll_concat, List.map_append, List.map_singleton]
      refine ⟨hnext, hstep.trans ?_⟩
      have hnodup : (insertions.map ListedInsertion.name ++ [insertion.name]).Nodup ↔
          (insertions.map ListedInsertion.name).Nodup ∧
            insertion.name ∉ insertions.map ListedInsertion.name := by
        rw [← List.concat_eq_append, List.nodup_concat, and_comm]
      rw [hiff, hnodup, List.forall_mem_append, List.forall_mem_singleton]
      constructor
      · rintro ⟨⟨hnames, hprovided⟩, hnew, hone⟩
        exact ⟨⟨hnames, hnew⟩, hprovided, hone⟩
      · rintro ⟨⟨hnames, hnew⟩, hprovided, hone⟩
        exact ⟨⟨hnames, hprovided⟩, hnew, hone⟩
  obtain ⟨hlisted, hiff⟩ := hrun
  exact ⟨fun hunique => hiff.mp hunique.providedBy, fun hnames => ⟨hlisted.pkgs, hiff.mpr hnames⟩⟩

def versionInsertion (version : List Byte) : ListedInsertion where
  pkg := { parsedPkg (ascii "a") Relations.none with version := some version }
  unbuilt := rfl
  setStatus := false
  providesStr := [INTERNAL_USE_ONLY]

/-- The package is among its own providers with each of its versions, and among those of the
parser's entry. -/
theorem not_vectorsUnique_versions :
    ¬VectorsUnique arm
      (insertAll arm [versionInsertion (ascii "1"), versionInsertion (ascii "2")]) := by
  intro hunique
  have htwice : (insertAll arm [versionInsertion (ascii "1"),
      versionInsertion (ascii "2")]).providedBy (ascii "a") = [ascii "a", ascii "a"] := by
    decide +kernel
  have hnodup := hunique.providedBy (ascii "a")
  rw [htwice] at hnodup
  exact absurd hnodup (by decide)

end Openmoko.Opkg
