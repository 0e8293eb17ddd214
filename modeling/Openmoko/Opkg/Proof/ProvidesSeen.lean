import Mathlib.Data.Fintype.EquivFin
import Openmoko.Opkg.Install
import Openmoko.Opkg.Proof.ConstraintAgreement
import Openmoko.Opkg.Proof.ParsedFields

/-!
# Which of the provided names are seen (`pkg_depends.c`, `opkg_remove.c`)

`pkg_parse_raw` puts an entry of its own in front of the names that a package provides, and
`buildProvides` puts the package itself in front of that entry. So the array is one longer than
`provides_count`, and the parser's entry stands in it like a name. `pkg_provides_abstract` and
`pkg_conflicts` look at `provides_count` entries, which leaves out the last name;
`pkg_has_installed_dependents` looks at all of them, the parser's own included; `pkg_replaces` looks
at as many as the other package has replacements, be the array that long or not.
-/

namespace Openmoko.Opkg

structure ProvidingPkg where
  name : List Byte
  providesStr : List (List Byte)
  provides : Option (List (List Byte))

variable {count : ℕ}

namespace ProvidingPkg

def insertProvider (abPkg : List Byte) (providedBy : List Byte → List (List Byte))
    (provided : List Byte) : List Byte → List (List Byte) :=
  Function.update providedBy provided (providedBy provided ++ [abPkg])

def buildProvides (providedBy : List Byte → List (List Byte)) (pkg : ProvidingPkg) :
    (List Byte → List (List Byte)) × ProvidingPkg :=
  let abPkg := pkg.name
  let providedBy := insertProvider abPkg providedBy abPkg
  if pkg.providesStr.length = 0 then (providedBy, pkg)
  else if pkg.provides.isSome then (providedBy, pkg)
  else
    (pkg.providesStr.foldl (insertProvider abPkg) providedBy,
      { pkg with provides := some (abPkg :: pkg.providesStr) })

def inserted (providedBy : List Byte → List (List Byte)) (pkg : ParsedPkg) : ProvidingPkg :=
  (buildProvides providedBy
    { name := pkg.name.getD [], providesStr := pkg.providesStr, provides := none }).2

section

variable {A : Type}

def anyOfFirst (found : A → Bool) : List A → ℕ → Option Bool
  | _, 0 => some false
  | [], _ + 1 => none
  | entry :: entries, count + 1 =>
    if found entry then some true else anyOfFirst found entries count

def firstEntries (entries : List A) (count : ℕ) : Option (List A) :=
  if count ≤ entries.length then some (entries.take count) else none

end

variable (pkg : ProvidingPkg)

def entries : List (List Byte) := pkg.provides.getD []

def providesCount : ℕ := pkg.providesStr.length

def pkgProvidesAbstract (providee : List Byte) : Option Bool :=
  anyOfFirst (· == providee) pkg.entries pkg.providesCount

def pkgConflicts (conflicts : List (CompoundDepend (List Byte))) : Option Bool :=
  conflicts.anyM fun conflict => conflict.possibilities.anyM fun possibility =>
    anyOfFirst (possibility.pkg == ·) pkg.entries pkg.providesCount

def pkgReplaces (replaces : List (List Byte)) : Option Bool :=
  replaces.anyM fun abstractReplacee =>
    anyOfFirst (· == abstractReplacee) pkg.entries replaces.length

def dependentsEntries : Option (List (List Byte)) :=
  firstEntries pkg.entries (pkg.providesCount + 1)

def DependentsOf (names entries : List (List Byte)) : Prop :=
  ∀ (P : Type) (h : RemoveHash (List Byte) P) (s : RemoveState (List Byte) P) (p : P),
    h.provides p = entries → (∀ a, s.abMarked a = false) →
      ((pkgHasInstalledDependents h s p).1 = 0 ↔
        ∀ name ∈ names, ∀ a ∈ h.dependedUponBy name, s.abStatus a ≠ .installed) ∧
      ∀ a, a ∈ (pkgHasInstalledDependents h s p).2.1 ↔
        s.abStatus a = .installed ∧ ∃ name ∈ names, a ∈ h.dependedUponBy name

/-- Each of the four goes by exactly these names, `pkg_replaces` for all packages with `count`
replacements. -/
structure SeenAs (names : List (List Byte)) (count : ℕ) : Prop where
  abstract : ∀ providee, pkg.pkgProvidesAbstract providee = some (decide (providee ∈ names))
  conflicts : ∀ conflicts : List (CompoundDepend (List Byte)),
    pkg.pkgConflicts conflicts =
      some (conflicts.any fun conflict => conflict.possibilities.any (·.pkg ∈ names))
  replaces : ∀ replaces : List (List Byte), replaces.length = count →
    pkg.pkgReplaces replaces = some (replaces.any (· ∈ names))
  dependents : ∃ entries, pkg.dependentsEntries = some entries ∧ DependentsOf names entries

structure EntriesAreNames (own : List Byte) (provided : List (List Byte)) (count : ℕ) : Prop where
  marker : INTERNAL_USE_ONLY ∈ own :: provided
  last : ∀ last ∈ provided.getLast?, last ∈ own :: INTERNAL_USE_ONLY :: provided.dropLast
  count : count = 0 ∨ count ≤ provided.length + 2 ∧
    ∀ name ∈ provided, name ∈ (own :: INTERNAL_USE_ONLY :: provided).take count

section

variable {A : Type}

variable {entries : List A} {found : A → Bool}

theorem anyOfFirst_eq_some (hcount : count ≤ entries.length) :
    anyOfFirst found entries count = some ((entries.take count).any found) := by
  induction entries generalizing count with
  | nil =>
    obtain rfl := Nat.le_zero.mp hcount
    rfl
  | cons entry entries ih =>
    cases count with
    | zero => rfl
    | succ count =>
      rw [anyOfFirst, ih (Nat.le_of_succ_le_succ hcount), List.take_succ_cons, List.any_cons]
      cases found entry <;> rfl

theorem anyOfFirst_eq_none
    (hcount : entries.length < count) (hnone : ∀ entry ∈ entries, found entry = false) :
    anyOfFirst found entries count = none := by
  induction entries generalizing count with
  | nil =>
    obtain ⟨n, rfl⟩ := Nat.exists_eq_succ_of_ne_zero hcount.ne'
    rfl
  | cons entry entries ih =>
    obtain ⟨hentry, hmore⟩ := List.forall_mem_cons.mp hnone
    obtain ⟨n, rfl⟩ := Nat.exists_eq_succ_of_ne_zero (Nat.ne_of_gt (Nat.zero_lt_of_lt hcount))
    rw [anyOfFirst, hentry]
    exact ih (Nat.lt_of_succ_lt_succ hcount) hmore

theorem anyOfFirst_found (hfound : (entries.take count).any found = true) :
    anyOfFirst found entries count = some true := by
  induction entries generalizing count with
  | nil =>
    rw [List.take_nil] at hfound
    cases hfound
  | cons entry entries ih =>
    cases count with
    | zero => cases hfound
    | succ count =>
      rw [List.take_succ_cons, List.any_cons] at hfound
      rw [anyOfFirst]
      cases hentry : found entry with
      | true => rfl
      | false =>
        rw [hentry, Bool.false_or] at hfound
        exact ih hfound

theorem any_of_anyOfFirst {b : Bool}
    (hloop : anyOfFirst found entries count = some b) : (entries.take count).any found = b := by
  induction entries generalizing count with
  | nil =>
    cases count with
    | zero => exact Option.some.inj hloop
    | succ count => cases hloop
  | cons entry entries ih =>
    cases count with
    | zero => exact Option.some.inj hloop
    | succ count =>
      rw [anyOfFirst] at hloop
      rw [List.take_succ_cons, List.any_cons]
      split at hloop
      next hfound =>
        rw [hfound, ← Option.some.inj hloop]
        rfl
      next hother =>
        rw [Bool.eq_false_iff.mpr hother, ih hloop]
        rfl

theorem any_of_anyM {ask : A → Option Bool} {answer : A → Bool}
    (hask : ∀ a b, ask a = some b → answer a = b) {l : List A} {b : Bool}
    (hloop : l.anyM ask = some b) : l.any answer = b := by
  induction l with
  | nil => exact Option.some.inj hloop
  | cons a l ih =>
    rw [List.anyM_cons] at hloop
    obtain ⟨first, hfirst, hrest⟩ := Option.bind_eq_some_iff.mp hloop
    rw [List.any_cons, hask a first hfirst]
    cases first with
    | false => exact ih hrest
    | true => exact Option.some.inj hrest

theorem anyM_some (found : A → Bool) (l : List A) :
    (l.anyM fun a => some (found a)) = some (l.any found) :=
  List.anyM_pure

end

theorem pkgProvidesAbstract_eq (hcount : pkg.providesCount ≤ pkg.entries.length)
    (providee : List Byte) :
    pkg.pkgProvidesAbstract providee =
      some (decide (providee ∈ pkg.entries.take pkg.providesCount)) := by
  rw [pkgProvidesAbstract, anyOfFirst_eq_some hcount, List.any_beq']
  simp

theorem pkgConflicts_eq (hcount : pkg.providesCount ≤ pkg.entries.length)
    (conflicts : List (CompoundDepend (List Byte))) :
    pkg.pkgConflicts conflicts =
      some (conflicts.any fun conflict => conflict.possibilities.any
        (·.pkg ∈ pkg.entries.take pkg.providesCount)) := by
  have hpossibility : ∀ possibility : Depend (List Byte),
      anyOfFirst (possibility.pkg == ·) pkg.entries pkg.providesCount =
        some (decide (possibility.pkg ∈ pkg.entries.take pkg.providesCount)) := by
    intro possibility
    rw [anyOfFirst_eq_some hcount, List.any_beq]
    simp
  simp only [pkgConflicts, hpossibility, anyM_some]

theorem pkgReplaces_eq {replaces : List (List Byte)}
    (hcount : replaces.length ≤ pkg.entries.length) :
    pkg.pkgReplaces replaces =
      some (replaces.any (· ∈ pkg.entries.take replaces.length)) := by
  have hreplacee : ∀ abstractReplacee : List Byte,
      anyOfFirst (· == abstractReplacee) pkg.entries replaces.length =
        some (decide (abstractReplacee ∈ pkg.entries.take replaces.length)) := by
    intro abstractReplacee
    rw [anyOfFirst_eq_some hcount, List.any_beq']
    simp
  simp only [pkgReplaces, hreplacee, anyM_some]

/-- What the loop over the provided packages comes to, which ends after as many of them as there are
replacements. -/
structure LooksFarEnough (replaces : List (List Byte)) : Prop where
  inside : replaces.length ≤ pkg.entries.length ∨ ∃ first ∈ replaces.head?, first ∈ pkg.entries
  seen : (∃ replacee ∈ replaces, replacee ∈ pkg.entries) →
    ∃ replacee ∈ replaces, replacee ∈ pkg.entries.take replaces.length

/-- **Replacements.** Whether one of the replacements is provided is answered, for any numbers of
both, exactly when one that is stands among the first entries, and the loop does not leave the array
before it. -/
theorem pkgReplaces_decides_iff (replaces : List (List Byte)) :
    pkg.pkgReplaces replaces = some (replaces.any (· ∈ pkg.entries)) ↔
      pkg.LooksFarEnough replaces := by
  rcases Nat.lt_or_ge pkg.entries.length replaces.length with hlong | hfits
  · have htake : pkg.entries.take replaces.length = pkg.entries := List.take_of_length_le hlong.le
    cases replaces with
    | nil => exact absurd hlong (Nat.not_lt_zero _)
    | cons first rest =>
      by_cases hfirst : first ∈ pkg.entries
      · have hfound : anyOfFirst (· == first) pkg.entries (first :: rest).length = some true := by
          apply anyOfFirst_found
          rw [htake, List.any_beq']
          exact List.contains_iff_mem.mpr hfirst
        have hprovided : decide (first ∈ pkg.entries) = true := decide_eq_true hfirst
        rw [pkgReplaces, List.anyM_cons, hfound, List.any_cons, hprovided]
        refine iff_of_true rfl ⟨Or.inr ⟨first, rfl, hfirst⟩, fun hany => ?_⟩
        rwa [htake]
      · have hstuck : anyOfFirst (· == first) pkg.entries (first :: rest).length = none := by
          apply anyOfFirst_eq_none hlong
          intro entry hentry
          rw [beq_eq_false_iff_ne]
          rintro rfl
          exact hfirst hentry
        rw [pkgReplaces, List.anyM_cons, hstuck]
        refine iff_of_false nofun fun hlooks => ?_
        rcases hlooks.inside with hinside | ⟨_, ⟨⟩, hmem⟩
        · exact absurd hlong (Nat.not_lt.mpr hinside)
        · exact hfirst hmem
  · rw [pkgReplaces_eq pkg hfits, Option.some_inj, Bool.eq_iff_iff]
    simp only [List.any_eq_true, decide_eq_true_eq]
    constructor
    · exact fun hsame => ⟨Or.inl hfits, hsame.mpr⟩
    · rintro ⟨-, hseen⟩
      refine ⟨?_, hseen⟩
      rintro ⟨replacee, hreplacee, hmem⟩
      exact ⟨replacee, hreplacee, List.mem_of_mem_take hmem⟩

section Install

variable {pkg} {platform : Platform} {P : Type} {h : InstallHash platform (List Byte) P} {p q : P}

theorem pkgConflicts_install (hprovides : h.provides q = pkg.entries)
    (hlength : pkg.entries.length = pkg.providesCount + 1) :
    pkg.pkgConflicts (h.conflicts p) = some (Opkg.pkgConflicts h p q) := by
  rw [pkgConflicts_eq pkg (hlength ▸ Nat.le_succ _), Opkg.pkgConflicts, hprovides,
    List.dropLast_eq_take, hlength, Nat.add_sub_cancel, Option.some_inj, Bool.eq_iff_iff]
  simp only [List.any_eq_true, decide_eq_true_eq]

theorem pkgReplaces_install {found : Bool} (hprovides : h.provides q = pkg.entries)
    (hfound : pkg.pkgReplaces (h.replaces p) = some found) :
    Opkg.pkgReplaces h p q = found := by
  apply any_of_anyM ?_ hfound
  intro abstractReplacee b hloop
  rw [hprovides, ← any_of_anyOfFirst hloop, List.any_beq']
  simp

end Install

section

variable {pkg} {names : List (List Byte)}

theorem abstract_iff (hcount : pkg.providesCount ≤ pkg.entries.length) :
    (∀ providee, pkg.pkgProvidesAbstract providee = some (decide (providee ∈ names))) ↔
      ∀ a, a ∈ pkg.entries.take pkg.providesCount ↔ a ∈ names := by
  refine forall_congr' fun a => ?_
  rw [pkgProvidesAbstract_eq pkg hcount, Option.some_inj, decide_eq_decide]

theorem conflicts_iff (hcount : pkg.providesCount ≤ pkg.entries.length) :
    (∀ conflicts : List (CompoundDepend (List Byte)),
        pkg.pkgConflicts conflicts =
          some (conflicts.any fun conflict => conflict.possibilities.any (·.pkg ∈ names))) ↔
      ∀ a, a ∈ pkg.entries.take pkg.providesCount ↔ a ∈ names := by
  constructor
  · intro hright a
    have hone := hright [{ type := .depend, possibilities := [⟨.none, [], a⟩] }]
    rw [pkgConflicts_eq pkg hcount] at hone
    simpa using hone
  · intro hsame conflicts
    simp only [pkgConflicts_eq pkg hcount, hsame]

theorem replaces_iff {n : ℕ} :
    (∀ replaces : List (List Byte), replaces.length = n →
        pkg.pkgReplaces replaces = some (replaces.any (· ∈ names))) ↔
      n = 0 ∨ n ≤ pkg.entries.length ∧ ∀ a, a ∈ pkg.entries.take n ↔ a ∈ names := by
  constructor
  · intro hright
    rcases Nat.eq_zero_or_pos n with hzero | hpos
    · exact Or.inl hzero
    right
    have hfits : n ≤ pkg.entries.length := by
      by_contra hlong
      obtain ⟨fresh, hfresh⟩ := Infinite.exists_notMem_finset pkg.entries.toFinset
      have hnone : anyOfFirst (· == fresh) pkg.entries n = none := by
        apply anyOfFirst_eq_none (Nat.lt_of_not_le hlong)
        intro entry hentry
        rw [beq_eq_false_iff_ne]
        rintro rfl
        exact hfresh (List.mem_toFinset.mpr hentry)
      have hstuck := hright (List.replicate n fresh) List.length_replicate
      obtain ⟨m, rfl⟩ := Nat.exists_eq_succ_of_ne_zero hpos.ne'
      rw [pkgReplaces, List.length_replicate, List.replicate_succ, List.anyM_cons, hnone] at hstuck
      cases hstuck
    refine ⟨hfits, fun a => ?_⟩
    have hone := hright (List.replicate n a) List.length_replicate
    rw [pkgReplaces_eq pkg (by rwa [List.length_replicate]), List.length_replicate] at hone
    simpa [hpos.ne'] using hone
  · rintro (rfl | ⟨hfits, hsame⟩) replaces hlength
    · rw [List.length_eq_zero_iff.mp hlength]
      rfl
    · simp only [pkgReplaces_eq pkg (hlength.le.trans hfits), hlength, hsame]

end

theorem mem_markDependents {A P : Type} [DecidableEq A] (s : RemoveState A P) {l : List A}
    {marked : A → Bool} {a : A} :
    a ∈ (markDependents s l marked).1 ↔ a ∈ l ∧ s.abStatus a = .installed ∧ marked a = false := by
  induction l generalizing marked with
  | nil => simp [markDependents]
  | cons depAbPkg l ih =>
    rw [markDependents, List.mem_cons]
    split
    next hnew =>
      simp only [List.mem_cons, ih]
      by_cases ha : a = depAbPkg
      · subst ha
        simp [hnew]
      · simp [ha]
    next hold =>
      rw [ih]
      constructor
      · rintro ⟨hmem, hstate⟩
        exact ⟨Or.inr hmem, hstate⟩
      · rintro ⟨rfl | hmem, hstate⟩
        · exact absurd hstate hold
        · exact ⟨hmem, hstate⟩

def soleHash (entries : List (List Byte)) (dependedUponBy : List Byte → List (List Byte)) :
    RemoveHash (List Byte) Unit where
  all := {()}
  version _ := { epoch := 0, version := none, revision := none }
  parent _ := entries.head?
  provides _ := entries
  depends _ := []
  dependsStr _ := []
  essential _ := false
  autoInstalled _ := false
  tmpUnpackDir _ := false
  localFilename _ := false
  byName := some
  pkgs _ := some [()]
  providedBy a := [a]
  dependedUponBy := dependedUponBy
  pkgs_all _ _ _ _ _ := Finset.mem_singleton_self _

def installedState : RemoveState (List Byte) Unit where
  pkgStatus _ := .installed
  pkgWant _ := .install
  pkgFlag _ := 0
  abStatus _ := .installed
  abMarked _ := false
  dependenciesChecked _ := 0
  stateChanged := 0
  log := []

theorem dependentsOf_iff {names entries : List (List Byte)} :
    DependentsOf names entries ↔ ∀ a, a ∈ entries ↔ a ∈ names := by
  constructor
  · intro hright a
    obtain ⟨-, hmem⟩ := hright Unit (soleHash entries fun name => [name]) installedState () rfl
      fun _ => rfl
    have ha := hmem a
    rw [pkgHasInstalledDependents] at ha
    simpa [mem_markDependents, dependers, soleHash, installedState] using ha
  · intro hsame P h s p hprovides hmarked
    have hdependers : ∀ a, a ∈ dependers h p ↔ ∃ name ∈ names, a ∈ h.dependedUponBy name := by
      intro a
      simp only [dependers, hprovides, List.mem_flatMap, hsame]
    constructor
    · have hzero : (pkgHasInstalledDependents h s p).1 = 0 ↔
          ∀ a ∈ dependers h p, s.abStatus a ≠ .installed := by
        rw [pkgHasInstalledDependents]
        simp [List.countP_eq_zero]
      rw [hzero]
      constructor
      · intro hnone name hname a ha
        exact hnone a ((hdependers a).mpr ⟨name, hname, ha⟩)
      · intro hnone a ha
        obtain ⟨name, hname, hmem⟩ := (hdependers a).mp ha
        exact hnone name hname a hmem
    · intro a
      have hmem : a ∈ (markDependents s (dependers h p) s.abMarked).1 ↔
          a ∈ dependers h p ∧ s.abStatus a = .installed ∧ s.abMarked a = false :=
        mem_markDependents s
      rw [hdependers] at hmem
      rw [pkgHasInstalledDependents]
      simp only [hmem, hmarked, and_true]
      exact and_comm

section

variable {own : List Byte} {provided : List (List Byte)}

theorem take_succ_iff :
    (∀ a, a ∈ (own :: INTERNAL_USE_ONLY :: provided).take (provided.length + 1) ↔
        a ∈ own :: provided) ↔
      ∀ last ∈ provided.getLast?, INTERNAL_USE_ONLY ∈ own :: provided ∧
        last ∈ own :: INTERNAL_USE_ONLY :: provided.dropLast := by
  rcases provided.eq_nil_or_concat' with rfl | ⟨others, last, rfl⟩
  · simp
  have htake : (own :: INTERNAL_USE_ONLY :: (others ++ [last])).take
      ((others ++ [last]).length + 1) = own :: INTERNAL_USE_ONLY :: others := by
    rw [List.length_append, List.length_singleton, List.take_succ_cons, List.take_succ_cons,
      List.take_left]
  rw [htake, List.getLast?_concat, List.dropLast_concat]
  constructor
  · rintro hsame _ ⟨⟩
    refine ⟨(hsame _).mp (List.mem_cons_of_mem _ List.mem_cons_self), (hsame _).mpr ?_⟩
    exact List.mem_cons_of_mem _ (List.mem_append_right _ (List.mem_singleton_self _))
  · intro hlast a
    obtain ⟨hmarker, hbefore⟩ := hlast last rfl
    constructor
    · intro ha
      rcases List.mem_cons.mp ha with rfl | ha
      · exact List.mem_cons_self
      rcases List.mem_cons.mp ha with rfl | ha
      · exact hmarker
      · exact List.mem_cons_of_mem _ (List.mem_append_left _ ha)
    · intro ha
      rcases List.mem_cons.mp ha with rfl | ha
      · exact List.mem_cons_self
      rcases List.mem_append.mp ha with ha | ha
      · exact List.mem_cons_of_mem _ (List.mem_cons_of_mem _ ha)
      · rwa [List.mem_singleton.mp ha]

theorem all_iff :
    (∀ a, a ∈ own :: INTERNAL_USE_ONLY :: provided ↔ a ∈ own :: provided) ↔
      INTERNAL_USE_ONLY ∈ own :: provided := by
  constructor
  · intro hsame
    exact (hsame _).mp (List.mem_cons_of_mem _ List.mem_cons_self)
  · intro hmarker a
    simp only [List.mem_cons] at hmarker ⊢
    grind

theorem take_iff (hmarker : INTERNAL_USE_ONLY ∈ own :: provided) (hpos : 0 < count) :
    (∀ a, a ∈ (own :: INTERNAL_USE_ONLY :: provided).take count ↔ a ∈ own :: provided) ↔
      ∀ name ∈ provided, name ∈ (own :: INTERNAL_USE_ONLY :: provided).take count := by
  constructor
  · intro hsame name hname
    exact (hsame name).mpr (List.mem_cons_of_mem _ hname)
  · intro hall a
    constructor
    · intro ha
      exact (all_iff.mpr hmarker a).mp (List.mem_of_mem_take ha)
    · intro ha
      rcases List.mem_cons.mp ha with rfl | ha
      · obtain ⟨n, rfl⟩ := Nat.exists_eq_succ_of_ne_zero hpos.ne'
        exact List.mem_cons_self
      · exact hall a ha

end

section

variable {providedBy : List Byte → List (List Byte)} {own : List Byte} {pkg : ParsedPkg}
  {provided : List (List Byte)}

theorem inserted_entries (hname : pkg.name = some own)
    (hprovides : pkg.providesStr = INTERNAL_USE_ONLY :: provided) :
    (inserted providedBy pkg).entries = own :: INTERNAL_USE_ONLY :: provided := by
  rw [inserted, hname, hprovides]
  rfl

theorem inserted_providesCount (hprovides : pkg.providesStr = INTERNAL_USE_ONLY :: provided) :
    (inserted providedBy pkg).providesCount = provided.length + 1 := by
  rw [inserted, hprovides]
  rfl

theorem inserted_dependentsEntries (hname : pkg.name = some own)
    (hprovides : pkg.providesStr = INTERNAL_USE_ONLY :: provided) :
    (inserted providedBy pkg).dependentsEntries = some (own :: INTERNAL_USE_ONLY :: provided) := by
  have hall : provided.length + 1 + 1 = (own :: INTERNAL_USE_ONLY :: provided).length := rfl
  rw [dependentsEntries, inserted_entries hname hprovides, inserted_providesCount hprovides, hall,
    firstEntries, if_pos (Nat.le_refl _), List.take_length]

theorem inserted_seenAs_iff (hname : pkg.name = some own)
    (hprovides : pkg.providesStr = INTERNAL_USE_ONLY :: provided) :
    (inserted providedBy pkg).SeenAs (own :: provided) count ↔
      EntriesAreNames own provided count := by
  have hentries : (inserted providedBy pkg).entries = own :: INTERNAL_USE_ONLY :: provided :=
    inserted_entries hname hprovides
  have hcount : (inserted providedBy pkg).providesCount = provided.length + 1 :=
    inserted_providesCount hprovides
  have hfits : (inserted providedBy pkg).providesCount ≤
      (inserted providedBy pkg).entries.length := by
    rw [hentries, hcount]
    exact Nat.le_succ _
  constructor
  · rintro ⟨habstract, -, hreplaces, entries, hlooked, hdependents⟩
    rw [abstract_iff hfits, hentries, hcount, take_succ_iff] at habstract
    rw [inserted_dependentsEntries hname hprovides, Option.some_inj] at hlooked
    rw [← hlooked, dependentsOf_iff, all_iff] at hdependents
    rw [replaces_iff, hentries] at hreplaces
    refine ⟨hdependents, fun last hlast => (habstract last hlast).2, hreplaces.imp_right ?_⟩
    rintro ⟨hshort, hsame⟩
    exact ⟨hshort, fun name hname => (hsame name).mpr (List.mem_cons_of_mem _ hname)⟩
  · rintro ⟨hmarker, hlast, hreplaced⟩
    have hshortened : ∀ a, a ∈ (inserted providedBy pkg).entries.take
        (inserted providedBy pkg).providesCount ↔ a ∈ own :: provided := by
      rw [hentries, hcount, take_succ_iff]
      exact fun last hmem => ⟨hmarker, hlast last hmem⟩
    refine ⟨(abstract_iff hfits).mpr hshortened, (conflicts_iff hfits).mpr hshortened,
      replaces_iff.mpr ?_, _, inserted_dependentsEntries hname hprovides,
      dependentsOf_iff.mpr (all_iff.mpr hmarker)⟩
    rw [hentries]
    rcases Nat.eq_zero_or_pos count with hzero | hpos
    · exact Or.inl hzero
    rcases hreplaced with hzero | ⟨hshort, hall⟩
    · exact Or.inl hzero
    · exact Or.inr ⟨hshort, (take_iff hmarker hpos).mpr hall⟩

end

/-- **Provided names.** However many names a parsed package provides, the four loops go by its names
exactly when the parser's own entry is one of them, the last one stands further to the front too,
and the other package has as many replacements as it takes to come to all names, but not more than
there are entries. No package is seen like this by all others. -/
theorem seenAs_iff {platform : Platform} {lines rest : List (List Byte)} {pkg : ParsedPkg}
    {own : List Byte} (hparse : pkgParseRaw platform lines = some (pkg, true, rest))
    (hname : pkg.name = some own) (providedBy : List Byte → List (List Byte)) :
    ∃ provided, pkg.providesStr = INTERNAL_USE_ONLY :: provided ∧
      (∀ count, (inserted providedBy pkg).SeenAs (own :: provided) count ↔
        EntriesAreNames own provided count) ∧
      ¬∀ count, (inserted providedBy pkg).SeenAs (own :: provided) count := by
  obtain ⟨provided, hprovides⟩ := provided_of_pkgParseRaw hparse
  refine ⟨provided, hprovides, fun count => inserted_seenAs_iff hname hprovides, fun hall => ?_⟩
  have hlong := ((inserted_seenAs_iff hname hprovides).mp (hall (provided.length + 3))).count
  omega

def stanza : List (List Byte) := [ascii "Package: p", ascii "Provides: a, b"]

def parsedStanza : ParsedPkg := ((pkgParseRaw arm stanza).map Prod.fst).getD pkgInit

def insertedStanza : ProvidingPkg := inserted (fun _ => []) parsedStanza

theorem stanza_seenAs :
    ∃ provided, parsedStanza.providesStr = INTERNAL_USE_ONLY :: provided ∧
      (∀ count, insertedStanza.SeenAs (ascii "p" :: provided) count ↔
        EntriesAreNames (ascii "p") provided count) ∧
      ¬∀ count, insertedStanza.SeenAs (ascii "p" :: provided) count := by
  have hparse : pkgParseRaw arm stanza = some (parsedStanza, true, []) := rfl
  have hname : parsedStanza.name = some (ascii "p") := rfl
  exact seenAs_iff hparse hname fun _ => []

/-- The last of the names is not seen, the parser's entry is, also by a package that depends on it,
and more replacements than there are entries are looked for behind the array. -/
theorem last_unseen :
    pkgParseRaw arm stanza = some (parsedStanza, true, []) ∧
      parsedStanza.name = some (ascii "p") ∧
      parsedStanza.providesStr = [INTERNAL_USE_ONLY, ascii "a", ascii "b"] ∧
      insertedStanza.pkgProvidesAbstract (ascii "b") = some false ∧
      insertedStanza.pkgProvidesAbstract INTERNAL_USE_ONLY = some true ∧
      insertedStanza.pkgConflicts [parseDepends (ascii "b")] = some false ∧
      insertedStanza.pkgReplaces [ascii "b"] = some false ∧
      insertedStanza.pkgReplaces [ascii "c", ascii "d", ascii "e", ascii "f", ascii "b"] = none ∧
      (pkgHasInstalledDependents
        (soleHash insertedStanza.entries fun name =>
          if name = INTERNAL_USE_ONLY then [ascii "q"] else []) installedState ()).1 = 1 ∧
      ∀ count, ¬insertedStanza.SeenAs [ascii "p", ascii "a", ascii "b"] count := by
  refine ⟨rfl, rfl, rfl, rfl, rfl, rfl, rfl, rfl, by decide, fun count hseen => ?_⟩
  have hlast := hseen.abstract (ascii "b")
  have hfalse : insertedStanza.pkgProvidesAbstract (ascii "b") = some false := rfl
  rw [hfalse] at hlast
  cases hlast

/-- The only replacement is a name that the package provides, behind where the loop ends. -/
theorem pkgReplaces_misses :
    insertedStanza.entries = [ascii "p", INTERNAL_USE_ONLY, ascii "a", ascii "b"] ∧
      insertedStanza.pkgReplaces [ascii "b"] ≠
        some ([ascii "b"].any (· ∈ insertedStanza.entries)) := by
  refine ⟨rfl, fun hright => ?_⟩
  have hmissed : insertedStanza.pkgReplaces [ascii "b"] = some false := rfl
  have hprovided : [ascii "b"].any (· ∈ insertedStanza.entries) = true := by decide
  rw [hmissed, hprovided] at hright
  cases hright

end ProvidingPkg

end Openmoko.Opkg
