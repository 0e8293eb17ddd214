import Openmoko.Opkg.PkgDepends

/-!
# The reverse-dependency index

The array of dependencies holds pre-dependencies, recommendations, suggestions and dependencies, in
this order; the index is made of as many entries as there are pre-dependencies and dependencies,
from the start. These are the right ones when there is nothing in between.
-/

namespace Openmoko.Opkg

def Relations.dependNames (r : Relations) : List (List Byte) :=
  (r.preDependsStr ++ r.dependsStr).flatMap fun s =>
    (parseDepends s).possibilities.map Depend.pkg

def Relations.Aligned (r : Relations) : Prop :=
  r.dependsStr = [] ∨ (r.recommendsStr = [] ∧ r.suggestsStr = [])

/-- The condition on an insertion: the package has no Depends, or neither Recommends nor Suggests;
and when it comes from a status file and meets a package that is the same, this one has no relations
or the same. -/
def KeepsRelations (platform : Platform) (s : HashState) (insertion : Insertion) : Prop :=
  insertion.pkg.relations.Aligned ∧
    (insertion.setStatus = true → ∀ old ∈ s.pkgs insertion.pkg.name,
      isSamePkg platform insertion.pkg.toPkg old.toPkg = true →
        old.relations = Relations.none ∨ old.relations = insertion.pkg.relations)

def IndexAgrees (s : HashState) (inserted : List HashedPkg) : Prop :=
  ∀ a d, a ∈ s.dependedUponBy d ↔
    ∃ pkg ∈ inserted, pkg.name = a ∧ d ∈ pkg.relations.dependNames

def HashedPkg.Built (pkg : HashedPkg) : Prop := pkg.depends = pkg.relations.built

theorem Relations.built_none : Relations.none.built = [] := rfl

theorem Relations.Aligned.names_eq {r : Relations} (haligned : r.Aligned) :
    ((r.built.take (r.preDependsStr.length + r.dependsStr.length)).flatMap
      CompoundDepend.possibilities).map Depend.pkg = r.dependNames := by
  have hgroups : r.built.take (r.preDependsStr.length + r.dependsStr.length) =
      r.preDependsStr.map (fun s => { parseDepends s with type := .predepend }) ++
        r.dependsStr.map parseDepends := by
    rcases haligned with hnone | ⟨hrecommends, hsuggests⟩
    · simp [Relations.built, hnone]
    · simp [Relations.built, hrecommends, hsuggests, List.take_of_length_le]
  rw [hgroups, dependNames, List.flatMap_append, List.flatMap_append, List.map_append,
    List.flatMap_map, List.flatMap_map, List.map_flatMap, List.map_flatMap]

theorem mem_enterDependers (abPkg : List Byte) (lists : List Byte → List (List Byte))
    (possibilities : List (Depend (List Byte))) (a d : List Byte) :
    a ∈ enterDependers abPkg lists possibilities d ↔
      a ∈ lists d ∨ (a = abPkg ∧ d ∈ possibilities.map Depend.pkg) := by
  induction possibilities generalizing lists with
  | nil => simp [enterDependers]
  | cons possibility possibilities ih =>
    rw [enterDependers, List.foldl_cons, ← enterDependers, ih]
    by_cases hd : d = possibility.pkg
    · subst hd
      simp only [Function.update_self, List.mem_append, List.map_cons, List.mem_cons, true_or,
        and_true]
      tauto
    · simp [hd]

theorem buildDepends_built {pkg : HashedPkg} (hunbuilt : pkg.depends = []) :
    (buildDepends pkg).Built ∧ (buildDepends pkg).relations = pkg.relations := by
  rw [buildDepends]
  split
  next hnone => exact ⟨by rw [HashedPkg.Built, hunbuilt, hnone, Relations.built_none], rfl⟩
  next => exact ⟨rfl, rfl⟩

theorem pkgMerge_built {old new : HashedPkg} (hold : old.Built) (hnew : new.Built)
    (setStatus : Bool) : (pkgMerge old new setStatus).Built := by
  unfold pkgMerge HashedPkg.Built
  cases setStatus <;> by_cases hnone : old.relations = Relations.none <;>
    simp only [hnone, if_true, if_false, Bool.false_eq_true]
  · exact hnew
  · exact hold
  · exact hnew
  · exact hold

theorem pkgMerge_relations {old new : HashedPkg} (setStatus : Bool)
    (hsame : old.relations = Relations.none ∨ old.relations = new.relations) :
    (pkgMerge old new setStatus).relations = new.relations := by
  unfold pkgMerge
  cases setStatus <;> by_cases hnone : old.relations = Relations.none <;>
    simp only [hnone, if_true, if_false, Bool.false_eq_true]
  · exact hsame.resolve_left hnone
  · exact hsame.resolve_left hnone

section Merge

variable {platform : Platform} {pkg : HashedPkg} {setStatus : Bool}

variable (platform setStatus) in
theorem pkgVecInsertMerge_built (hpkg : pkg.Built) {vec : List HashedPkg}
    (hvec : ∀ old ∈ vec, old.Built) :
    (∀ old ∈ (pkgVecInsertMerge platform pkg setStatus vec).1, old.Built) ∧
      (pkgVecInsertMerge platform pkg setStatus vec).2.Built := by
  induction vec with
  | nil => simpa [pkgVecInsertMerge] using hpkg
  | cons old vec ih =>
    have hrest : ∀ old ∈ vec, old.Built := fun x hx => hvec x (List.mem_cons_of_mem old hx)
    have hold : old.Built := hvec old List.mem_cons_self
    rw [pkgVecInsertMerge]
    split
    · have hkept : (if setStatus then pkgMerge old pkg setStatus else pkg).Built := by
        split
        · exact pkgMerge_built hold hpkg setStatus
        · exact hpkg
      exact ⟨List.forall_mem_cons.mpr ⟨hkept, hrest⟩, hkept⟩
    · exact ⟨List.forall_mem_cons.mpr ⟨hold, (ih hrest).1⟩, (ih hrest).2⟩

theorem pkgVecInsertMerge_relations {vec : List HashedPkg}
    (hsame : setStatus = true → ∀ old ∈ vec, isSamePkg platform pkg.toPkg old.toPkg = true →
      old.relations = Relations.none ∨ old.relations = pkg.relations) :
    (pkgVecInsertMerge platform pkg setStatus vec).2.relations = pkg.relations := by
  induction vec with
  | nil => rfl
  | cons old vec ih =>
    rw [pkgVecInsertMerge]
    split
    next heq =>
      by_cases hset : setStatus = true
      · simp only [hset, if_true]
        exact pkgMerge_relations true (hsame hset old List.mem_cons_self heq)
      · simp [hset]
    next => exact ih fun hset x hx => hsame hset x (List.mem_cons_of_mem old hx)

end Merge

theorem IndexAgrees.insert {platform : Platform} {s : HashState} {inserted : List HashedPkg}
    (hagrees : IndexAgrees s inserted) (hbuilt : ∀ a, ∀ old ∈ s.pkgs a, old.Built)
    {insertion : Insertion} (hkeeps : KeepsRelations platform s insertion) :
    IndexAgrees (hashInsertPkg platform s insertion) (inserted ++ [insertion.pkg]) ∧
      ∀ a, ∀ old ∈ (hashInsertPkg platform s insertion).pkgs a, old.Built := by
  obtain ⟨haligned, hsame⟩ := hkeeps
  obtain ⟨hpkg, hrelations⟩ := buildDepends_built insertion.unbuilt
  let abPkg := insertion.pkg.name
  let new : HashedPkg := { buildDepends insertion.pkg with parent := some abPkg }
  let merged := pkgVecInsertMerge platform new insertion.setStatus (s.pkgs abPkg)
  have hmerged := pkgVecInsertMerge_built platform insertion.setStatus
    (show new.Built from hpkg) (hbuilt abPkg)
  have hkept : merged.2.relations = insertion.pkg.relations := by
    rw [← hrelations]
    apply pkgVecInsertMerge_relations
    intro hset old hold hmatch
    have hunchanged : isSamePkg platform new.toPkg old.toPkg =
        isSamePkg platform insertion.pkg.toPkg old.toPkg := by
      simp only [new, buildDepends]
      split <;> rfl
    have hrelationsNew : new.relations = insertion.pkg.relations := hrelations
    rw [hrelationsNew]
    exact hsame hset old hold (hunchanged ▸ hmatch)
  constructor
  · intro a d
    have hlists : (hashInsertPkg platform s insertion).dependedUponBy =
        enterDependers abPkg s.dependedUponBy ((merged.2.depends.take
          (merged.2.relations.preDependsStr.length +
            merged.2.relations.dependsStr.length)).flatMap CompoundDepend.possibilities) := rfl
    have hnames := haligned.names_eq
    rw [← hkept, ← show merged.2.depends = merged.2.relations.built from hmerged.2] at hnames
    rw [hlists, mem_enterDependers, hnames, hkept, hagrees]
    simp only [List.mem_append, List.mem_singleton, or_and_right, exists_or, exists_eq_left]
    rw [eq_comm (a := a)]
  · intro a old hold
    have hpkgs : (hashInsertPkg platform s insertion).pkgs =
        Function.update s.pkgs abPkg merged.1 := rfl
    rw [hpkgs] at hold
    by_cases ha : a = abPkg
    · subst ha
      rw [Function.update_self] at hold
      exact hmerged.1 old hold
    · rw [Function.update_of_ne ha] at hold
      exact hbuilt a old hold

/-- **The reverse-dependency index.** Over insertions that meet the condition, a package is entered
as depending on another exactly when an inserted version of it names that one in Pre-Depends or
Depends. -/
theorem dependedUponBy_agrees (platform : Platform) (insertions : List Insertion)
    (hmeets : (insertionMachine platform).Meets (KeepsRelations platform) HashState.init
      insertions) :
    IndexAgrees ((insertionMachine platform).exec HashState.init insertions).1
      (insertions.map Insertion.pkg) := by
  rw [← (insertionMachine platform).exec_log Insertion.pkg (fun _ _ => rfl) HashState.init]
  refine ((insertionMachine platform).exec_inv (fun s log =>
    IndexAgrees s log ∧ ∀ a, ∀ old ∈ s.pkgs a, old.Built) ⟨?_, ?_⟩ ?_ hmeets).1
  · intro a d
    simp [HashState.init]
  · intro a old hold
    cases hold
  · intro s log insertion hinv hkeeps
    exact hinv.1.insert hinv.2 hkeeps

def parsedPkg (name : List Byte) (relations : Relations) : HashedPkg where
  epoch := 0
  version := some (ascii "1")
  revision := some []
  name := name
  architecture := ascii "all"
  archPriority := 0
  stateWant := .unknown
  stateFlag := 0
  stateStatus := .notInstalled
  providedByHand := false
  depends := []
  parent := none
  relations := relations

def insertParsed (name : List Byte) (relations : Relations) : Insertion where
  pkg := parsedPkg name relations
  unbuilt := rfl
  setStatus := false

theorem dependedUponBy_agrees_two :
    IndexAgrees ((insertionMachine ⟨false, 0xffffffff⟩).exec HashState.init
        [insertParsed (ascii "a") ⟨[], [ascii "b (>= 1) | c"], [], []⟩,
          insertParsed (ascii "b") ⟨[ascii "c"], [], [ascii "d"], []⟩]).1
      ([insertParsed (ascii "a") ⟨[], [ascii "b (>= 1) | c"], [], []⟩,
        insertParsed (ascii "b") ⟨[ascii "c"], [], [ascii "d"], []⟩].map Insertion.pkg) := by
  apply dependedUponBy_agrees
  exact ⟨⟨Or.inr ⟨rfl, rfl⟩, fun hset => absurd hset (by decide)⟩,
    ⟨Or.inl rfl, fun hset => absurd hset (by decide)⟩, trivial⟩

/-- A recommendation takes the place of the dependency: `c` is recommended and entered, `b` is
depended on and is not. -/
theorem dependedUponBy_misses_depends :
    ¬∀ (platform : Platform) (insertions : List Insertion),
      IndexAgrees ((insertionMachine platform).exec HashState.init insertions).1
        (insertions.map Insertion.pkg) := by
  intro hall
  have hindex := hall ⟨false, 0xffffffff⟩
    [insertParsed (ascii "a") ⟨[], [ascii "b"], [ascii "c"], []⟩] (ascii "a") (ascii "b")
  have hnamed : ascii "a" ∈ ((insertionMachine ⟨false, 0xffffffff⟩).exec HashState.init
      [insertParsed (ascii "a") ⟨[], [ascii "b"], [ascii "c"], []⟩]).1.dependedUponBy
        (ascii "b") :=
    hindex.mpr ⟨_, List.mem_singleton_self _, rfl, by decide⟩
  exact absurd hnamed (by decide)

end Openmoko.Opkg
