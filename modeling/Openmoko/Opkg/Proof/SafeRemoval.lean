import Openmoko.Opkg.Proof.ConstraintAgreement
import Openmoko.Opkg.Proof.RemoveEnds

/-!
# Removal and the dependencies of what stays

A removal always ends, and what it removes it removes once. Whether a package that stays keeps its
dependencies is another matter: `pkg_has_installed_dependents` goes by the array `depended_upon_by`
and by the abstract packages that are installed, so that a package can go while another one still
depends on it.
-/

namespace Openmoko.Opkg

section

variable {A P : Type} {platform : Platform} {h : RemoveHash A P} {conf : RemoveConf}
  {s s' t : RemoveState A P} {names names' : List (List Byte)} {p : P}

variable (platform h conf s)

def Removable (p : P) : Prop :=
  (h.essential p = true → conf.forceRemovalOfEssentialPackages = true) ∧ h.parent p ≠ none

def Names (dStr : List Byte) (p : P) : Prop :=
  ∃ pkgs, pkgVecFetchByName h (dependsName dStr) = some pkgs ∧ p ∈ pkgs

/-- Once `gone` is gone, nothing that counts depends on the package any more. It was installed for
others, and is named by an entry or by a package that is gone. -/
structure Freed (names : List (List Byte)) (gone : Set P) (p : P) : Prop where
  named : ∃ dStr, (dStr ∈ names ∨ conf.autoremove = true ∧ ∃ q ∈ gone, dStr ∈ h.dependsStr q) ∧
    Names h dStr p
  installed : isInstalled (s.pkgStatus p) = true
  auto : h.autoInstalled p = true
  removable : Removable h conf p
  uncounted : ∀ d ∈ dependers h p, s.abStatus d = .installed → some d ∈ h.parent '' gone

/-- The least set with `first` in it and with whatever it frees, apart from `kept`. -/
def MayGo (names : List (List Byte)) (kept first : Set P) : Set P :=
  ⋂₀ {gone | first ⊆ gone ∧ ∀ p ∉ kept, Freed h conf s names gone p → p ∈ gone}

variable {platform h conf s}

theorem Freed.mono {gone gone' : Set P} (hfreed : Freed h conf s names gone p)
    (hsub : gone ⊆ gone') : Freed h conf s names gone' p := by
  obtain ⟨dStr, hnamed, hp⟩ := hfreed.named
  have hnamed' : dStr ∈ names ∨ conf.autoremove = true ∧ ∃ q ∈ gone', dStr ∈ h.dependsStr q :=
    hnamed.imp_right fun ⟨hauto, q, hq, hdStr⟩ => ⟨hauto, q, hsub hq, hdStr⟩
  exact ⟨⟨dStr, hnamed', hp⟩, hfreed.installed, hfreed.auto, hfreed.removable,
    fun d hd hinstalled => Set.image_mono hsub (hfreed.uncounted d hd hinstalled)⟩

theorem mem_mayGo_of_freed {kept first : Set P} (hkept : p ∉ kept)
    (hfreed : Freed h conf s names (MayGo h conf s names kept first) p) :
    p ∈ MayGo h conf s names kept first :=
  Set.mem_sInter.mpr fun _ hgone =>
    hgone.2 p hkept (hfreed.mono (Set.sInter_subset_of_mem hgone))

theorem mayGo_subset {kept first gone : Set P} (hfirst : first ⊆ gone)
    (hclosed : ∀ p ∉ kept, Freed h conf s names gone p → p ∈ gone) :
    MayGo h conf s names kept first ⊆ gone :=
  Set.sInter_subset_of_mem ⟨hfirst, hclosed⟩

/-- The induction is on the list from its end: what is in front of a package is in the set. -/
theorem mem_mayGo_of_removed {kept first : Set P} {removed : List P}
    (hfreed : ∀ before p after, removed = before ++ p :: after →
      p ∈ first ∨ Freed h conf s names {q | q ∈ before} p)
    (hkept : ∀ p ∈ removed, p ∉ kept) : ∀ p ∈ removed, p ∈ MayGo h conf s names kept first := by
  induction removed using List.reverseRecOn with
  | nil => exact List.forall_mem_nil _
  | append_singleton before last ih =>
    obtain ⟨hbefore, hlast⟩ := forall_split_append.mp hfreed
    obtain ⟨hkept, hkept'⟩ := List.forall_mem_append.mp hkept
    have hmay := ih hbefore hkept
    refine List.forall_mem_append.mpr ⟨hmay, List.forall_mem_singleton.mpr ?_⟩
    rcases hlast [] last [] rfl with hfirst | hfreed
    · exact Set.mem_sInter.mpr fun gone hgone => hgone.1 hfirst
    · rw [List.append_nil] at hfreed
      exact mem_mayGo_of_freed (hkept' last List.mem_cons_self) (hfreed.mono hmay)

/-! ### Dependencies that are kept -/

def CompoundDepend.Hard (group : CompoundDepend A) : Prop :=
  group.type = .predepend ∨ group.type = .depend ∨ group.type = .greedyDepend

variable (platform h conf s)

def PkgSatisfies (pkg : P) (group : CompoundDepend A) : Prop :=
  ∃ possibility ∈ group.possibilities, possibility.pkg ∈ h.provides pkg ∧
    versionConstraintsSatisfied platform possibility (h.version pkg) = true

def Stays (gone : List P) (pkg : P) : Prop :=
  pkg ∈ h.all ∧ isInstalled (s.pkgStatus pkg) = true ∧ pkg ∉ gone

def LeftOpen (gone : List P) (group : CompoundDepend A) : Prop :=
  (∃ pkg ∈ gone, PkgSatisfies platform h pkg group) ∧
    ∀ pkg, PkgSatisfies platform h pkg group → ¬Stays h s gone pkg

def KeepsDependencies (gone : List P) : Prop :=
  ∀ pkg, Stays h s gone pkg → ∀ group ∈ h.depends pkg, group.Hard →
    ¬LeftOpen platform h s gone group

/-- As long as another package stays, what can go with `pkg` leaves it an installed alternative in
each group of its dependencies. -/
def Spared (pkg : P) : Prop :=
  ∀ depender ∈ h.all, depender ≠ pkg → isInstalled (s.pkgStatus depender) = true →
    ∀ group ∈ h.depends depender, group.Hard →
      (∃ p ∈ MayGo h conf s [] {depender} {pkg}, PkgSatisfies platform h p group) →
      ∃ other ∈ h.all, isInstalled (s.pkgStatus other) = true ∧
        other ∉ MayGo h conf s [] {depender} {pkg} ∧ PkgSatisfies platform h other group

variable {platform h conf s}

theorem keepsDependencies_nil : KeepsDependencies platform h s [] := by
  intro pkg _ group _ _ hopen
  obtain ⟨gone, hgone, -⟩ := hopen.1
  exact List.not_mem_nil hgone

theorem keepsDependencies_of_spared {pkg : P} {gone : List P} (hpkg : pkg ∈ gone)
    (hspared : Spared platform h conf s pkg)
    (hfreed : ∀ before p after, gone = before ++ p :: after →
      p ∈ ({pkg} : Set P) ∨ Freed h conf s [] {q | q ∈ before} p) :
    KeepsDependencies platform h s gone := by
  intro depender hstays group hgroup hhard hopen
  have hmay : ∀ p ∈ gone, p ∈ MayGo h conf s [] {depender} {pkg} := by
    refine mem_mayGo_of_removed hfreed fun p hp => ?_
    rintro rfl
    exact hstays.2.2 hp
  obtain ⟨⟨p, hp, hsatisfies⟩, hnone⟩ := hopen
  have hne : depender ≠ pkg := by
    rintro rfl
    exact hstays.2.2 hpkg
  obtain ⟨other, hall, hinstalled, hnot, hother⟩ := hspared depender hstays.1 hne hstays.2.1 group
    hgroup hhard ⟨p, hmay p hp, hsatisfies⟩
  exact hnone other hother ⟨hall, hinstalled, fun hgone => hnot (hmay other hgone)⟩

theorem mayGo_alone (hauto : conf.autoremove = false) (kept : Set P) (pkg : P) :
    MayGo h conf s [] kept {pkg} = {pkg} := by
  apply Set.Subset.antisymm
  · apply mayGo_subset (Set.Subset.refl _)
    intro p _ hfreed
    obtain ⟨dStr, hno | ⟨hno, -⟩, -⟩ := hfreed.named
    · cases hno
    · rw [hauto] at hno
      cases hno
  · exact fun q hq => Set.mem_sInter.mpr fun gone hgone => hgone.1 hq

theorem spared_of_keepsDependencies {pkg : P} (hauto : conf.autoremove = false)
    (hkeeps : KeepsDependencies platform h s [pkg]) : Spared platform h conf s pkg := by
  intro depender hall hne hinstalled group hgroup hhard hsatisfies
  rw [mayGo_alone hauto] at hsatisfies ⊢
  obtain ⟨p, rfl, hp⟩ := hsatisfies
  have hstays : Stays h s [p] depender := ⟨hall, hinstalled, by simpa using hne⟩
  have hopen := hkeeps depender hstays group hgroup hhard
  by_contra hnone
  refine hopen ⟨⟨p, List.mem_singleton_self p, hp⟩, fun other hother hthere => hnone ?_⟩
  exact ⟨other, hthere.1, hthere.2.1, fun heq => hthere.2.2 (List.mem_singleton.mpr heq), hother⟩

/-- Without force the call removes nothing: the package is essential, or has no abstract package, or
a dependent of it counts. -/
def Refused (h : RemoveHash A P) (conf : RemoveConf) (s : RemoveState A P) (pkg : P)
    (message : Bool) : Prop :=
  (h.essential pkg = true ∧ message = false ∧ conf.forceRemovalOfEssentialPackages = false) ∨
    h.parent pkg = none ∨
    (conf.forceDepends = false ∧ s.pkgFlag pkg &&& SF_REPLACE = 0 ∧ ¬Unneeded h s pkg)

theorem not_refused_of_removable (hremovable : Removable h conf p) (hnone : Unneeded h s p) :
    ¬Refused h conf s p false := by
  rintro (⟨hessential, -, hno⟩ | hno | hno)
  · rw [hremovable.1 hessential] at hno
    cases hno
  · exact hremovable.2 hno
  · exact hno.2.2 hnone

theorem removable_of_not_refused (hrefused : ¬Refused h conf s p false) : Removable h conf p := by
  refine ⟨fun hessential => ?_, fun hparent => hrefused (.inr (.inl hparent))⟩
  by_contra hno
  exact hrefused (.inl ⟨hessential, rfl, Bool.eq_false_of_not_eq_true hno⟩)

theorem names_of_fetch {dStr : List Byte}
    (hfetch : pkgHashFetchInstalledByName h s (dependsName dStr) = some p) : Names h dStr p := by
  obtain ⟨pkgs, hpkgs, hfind⟩ := Option.bind_eq_some_iff.mp hfetch
  exact ⟨pkgs, hpkgs, List.mem_of_find?_eq_some hfind⟩

variable [DecidableEq A] [DecidableEq P]

/-! ### Calls for orphans -/

/-- A run of removals: each package is freed by what went before it. -/
structure Releases (h : RemoveHash A P) (conf : RemoveConf) (s s' : RemoveState A P)
    (names : List (List Byte)) (removed : List P) : Prop where
  removes : Removes h conf s s' removed
  freed : ∀ before p after, removed = before ++ p :: after →
    Freed h conf s names {q | q ∈ before} p

theorem Freed.before {first mid : List P} (hfirst : Removes h conf s t first)
    (hnames : ∀ dStr ∈ names', dStr ∈ names ∨
      conf.autoremove = true ∧ ∃ q ∈ first, dStr ∈ h.dependsStr q)
    (hfreed : Freed h conf t names' {q | q ∈ mid} p) :
    Freed h conf s names {q | q ∈ first ++ mid} p where
  named := by
    obtain ⟨dStr, hnamed, hp⟩ := hfreed.named
    refine ⟨dStr, ?_, hp⟩
    rcases hnamed with hdStr | ⟨hauto, q, hq, hdStr⟩
    · rcases hnames dStr hdStr with hdStr | ⟨hauto, q, hq, hdStr⟩
      · exact .inl hdStr
      · exact .inr ⟨hauto, q, List.mem_append_left _ hq, hdStr⟩
    · exact .inr ⟨hauto, q, List.mem_append_right _ hq, hdStr⟩
  installed := by
    have hinstalled := hfreed.installed
    rw [hfirst.pkgStatus] at hinstalled
    split at hinstalled
    · cases hinstalled
    · exact hinstalled
  auto := hfreed.auto
  removable := hfreed.removable
  uncounted := by
    intro d hd hinstalled
    by_cases hparent : some d ∈ first.map h.parent
    · obtain ⟨q, hq, hd⟩ := List.mem_map.mp hparent
      exact ⟨q, List.mem_append_left _ hq, hd⟩
    · obtain ⟨q, hq, hd⟩ := hfreed.uncounted d hd (by rw [hfirst.abStatus, if_neg hparent, hinstalled])
      exact ⟨q, List.mem_append_right _ hq, hd⟩

theorem Releases.nothing (hsame : Removes h conf s s' []) : Releases h conf s s' names [] :=
  ⟨hsame, fun before p after hsplit => absurd hsplit (by simp)⟩

theorem Releases.trans {first second : List P} (hfirst : Releases h conf s t names first)
    (hsecond : Releases h conf t s' names' second)
    (hnames : ∀ dStr ∈ names', dStr ∈ names ∨
      conf.autoremove = true ∧ ∃ q ∈ first, dStr ∈ h.dependsStr q) :
    Releases h conf s s' names (first ++ second) where
  removes := hfirst.removes.trans hsecond.removes
  freed := forall_split_append.mpr ⟨hfirst.freed, fun mid p after hsplit =>
    (hsecond.freed mid p after hsplit).before hfirst.removes hnames⟩

def CallsRelease (h : RemoveHash A P) (conf : RemoveConf) (recurse : RemoveRecursion A P) : Prop :=
  ∀ p s result s', isInstalled (s.pkgStatus p) = true → h.autoInstalled p = true →
    Unneeded h s p → recurse p false s = some (result, s') →
    ∀ names, (∃ dStr ∈ names, Names h dStr p) →
      ∃ removed, Releases h conf s s' names removed ∧ (Removable h conf p → p ∈ removed)

variable {recurse : RemoveRecursion A P} {result : RemoveResult}

theorem removeAutoinstalled_releases (hrecurse : CallsRelease h conf recurse)
    (hloop : removeAutoinstalled h recurse names s = some s') :
    ∃ removed, Releases h conf s s' names removed := by
  apply removeAutoinstalled_rel (R := fun s s' => ∃ removed, Releases h conf s s' names removed)
    _ _ _ _ hloop
  · exact fun s => ⟨[], .nothing .refl⟩
  · rintro s t u ⟨first, hfirst⟩ ⟨second, hsecond⟩
    exact ⟨first ++ second, hfirst.trans hsecond fun dStr hdStr => .inl hdStr⟩
  · exact fun s p => ⟨[], .nothing (pkgHasInstalledDependents_removes h conf s p)⟩
  · intro dStr hdStr p s result s' hfetch hauto hnone hcall
    have hinstalled := (pkgHashFetchInstalledByName_spec hfetch).1
    obtain ⟨removed, hremoved, -⟩ := hrecurse p s result s' hinstalled hauto hnone hcall names
      ⟨dStr, hdStr, names_of_fetch hfetch⟩
    exact ⟨removed, hremoved⟩

variable (hforced : conf.forceRemovalOfDependentPackages = false)

include hforced

theorem settleDependents_unforced
    (hsettle : settleDependents h recurse conf p s = some (result, s')) :
    Removes h conf s s' [] ∧ (result = .ok ↔
      ¬(conf.forceDepends = false ∧ s.pkgFlag p &&& SF_REPLACE = 0 ∧ ¬Unneeded h s p)) := by
  have hmarks := pkgHasInstalledDependents_removes h conf s p
  simp only [settleDependents, ← count_eq_zero_iff, Bool.and_eq_true, Bool.not_eq_true',
    beq_iff_eq, userPrefersRemovingDependents, hforced] at hsettle ⊢
  split at hsettle
  next hasked =>
    by_cases hcount : (pkgHasInstalledDependents h s p).1 = 0
    · simp only [hcount, ne_eq, not_true, if_false, Option.some.injEq, Prod.mk.injEq] at hsettle
      obtain ⟨rfl, rfl⟩ := hsettle
      simp [hmarks, hcount]
    · simp only [hcount, ne_eq, not_false_iff, if_true] at hsettle
      cases hsettle
      simp [hmarks, hcount, hasked]
  next hasked =>
    cases hsettle
    exact ⟨.refl, by simp only [true_iff]; exact fun hno => hasked ⟨hno.1, hno.2.1⟩⟩

/-- What a call for an installed package does where removals of dependents are not forced. -/
theorem removeBody_cases {message : Bool} (hinstalled : isInstalled (s.pkgStatus p) = true)
    (hcall : removeBody h recurse conf p message s = some (result, s')) :
    Refused h conf s p message ∧ Removes h conf s s' [] ∨
      ¬Refused h conf s p message ∧ ∃ t, Removes h conf s t [p] ∧
        (conf.autoremove = false ∧ s' = t ∨
          conf.autoremove = true ∧ removeAutoinstalled h recurse (h.dependsStr p) t = some s') := by
  rw [removeBody] at hcall
  split at hcall
  next hessential =>
    cases hcall
    refine .inl ⟨.inl ?_, .refl⟩
    simpa [and_assoc] using hessential
  next hessential =>
    split at hcall
    next hparent =>
      cases hcall
      exact .inl ⟨.inr (.inl hparent), .refl⟩
    next parentPkg hparent =>
      obtain ⟨⟨err, u⟩, hsettle, hrest⟩ := Option.bind_eq_some_iff.mp hcall
      obtain ⟨hsame, hok⟩ := settleDependents_unforced hforced hsettle
      simp only at hrest
      split at hrest
      next herr =>
        cases hrest
        exact .inl ⟨.inr (.inr (not_not.mp (mt hok.mpr herr))), hsame⟩
      next herr =>
        have hallowed := hok.mp (not_not.mp herr)
        have hinstalled' : isInstalled (u.pkgStatus p) = true := by
          rwa [hsame.pkgStatus, if_neg List.not_mem_nil]
        have htaken : Removes h conf u (takeOut h p parentPkg u) _ := takeOut_removes hparent
          (fun hforce => by rw [hforced] at hforce; cases hforce) (.inl hinstalled') fun hforce => by
            by_cases hflag : s.pkgFlag p &&& SF_REPLACE = 0
            · right
              intro d hd hcounts
              rw [hsame.abStatus, List.map_nil, if_neg List.not_mem_nil] at hcounts
              have hnone : Unneeded h s p := by
                by_contra hneeded
                exact hallowed ⟨hforce.1, hflag, hneeded⟩
              exact absurd hcounts (hnone d hd)
            · left
              rwa [hsame.replace]
        rw [if_pos hinstalled'] at htaken
        refine .inr ⟨?_, takeOut h p parentPkg u, hsame.trans htaken, ?_⟩
        · rintro (hno | hno | hno)
          · exact hessential (by simp [hno])
          · rw [hparent] at hno
            cases hno
          · exact hallowed hno
        · split at hrest
          next hauto =>
            obtain ⟨v, hloop, hret⟩ := Option.bind_eq_some_iff.mp hrest
            cases hret
            exact .inr ⟨hauto, hloop⟩
          next hauto =>
            cases hrest
            exact .inl ⟨Bool.eq_false_of_not_eq_true hauto, rfl⟩

/-- **Orphans.** Followed to any depth, a call for an orphan only removes what it frees. -/
theorem opkgRemovePkg_releases (depth : ℕ) : CallsRelease h conf (opkgRemovePkg h conf depth) := by
  induction depth with
  | zero => exact fun _ _ _ _ _ _ _ hcall => nomatch hcall
  | succ depth ih =>
    intro p s result s' hinstalled hauto hnone hcall names ⟨dStr, hdStr, hnames⟩
    rcases removeBody_cases hforced hinstalled hcall with
      ⟨hrefused, hsame⟩ | ⟨hrefused, t, htaken, hend⟩
    · exact ⟨[], .nothing hsame, fun hremovable =>
        absurd hrefused (not_refused_of_removable hremovable hnone)⟩
    have hfirst : Releases h conf s t names [p] := by
      refine ⟨htaken, fun before q after hsplit => ?_⟩
      obtain ⟨rfl, hsplit⟩ : before = [] ∧ [p] = q :: after := by
        cases before with
        | nil => exact ⟨rfl, hsplit⟩
        | cons r before => exact absurd (List.cons.inj hsplit).2 (by simp)
      obtain ⟨rfl, -⟩ := List.cons.inj hsplit
      exact ⟨⟨dStr, .inl hdStr, hnames⟩, hinstalled, hauto, removable_of_not_refused hrefused,
        fun d hd hcounts => absurd hcounts (hnone d hd)⟩
    rcases hend with ⟨-, rfl⟩ | ⟨hauto', hloop⟩
    · exact ⟨[p], hfirst, fun _ => List.mem_singleton_self p⟩
    · obtain ⟨rest, hrest⟩ := removeAutoinstalled_releases ih hloop
      refine ⟨[p] ++ rest, hfirst.trans hrest fun dStr hdStr => ?_, fun _ => by simp⟩
      exact .inr ⟨hauto', p, List.mem_singleton_self p, hdStr⟩

/-- Without force everything that a call removes can go with its package. -/
theorem opkgRemovePkg_mayGo (depth : ℕ) {message : Bool}
    (hinstalled : isInstalled (s.pkgStatus p) = true)
    (hcall : opkgRemovePkg h conf depth p message s = some (result, s')) :
    ∃ removed, Removes h conf s s' removed ∧ (Refused h conf s p message ∧ removed = [] ∨
      ¬Refused h conf s p message ∧ ∃ rest, removed = p :: rest ∧
        (conf.autoremove = false → rest = []) ∧ ∀ before q after, removed = before ++ q :: after →
          q ∈ ({p} : Set P) ∨ Freed h conf s [] {r | r ∈ before} q) := by
  cases depth with
  | zero => cases hcall
  | succ depth =>
    rcases removeBody_cases hforced hinstalled hcall with
      ⟨hrefused, hsame⟩ | ⟨hrefused, t, htaken, hend⟩
    · exact ⟨[], hsame, .inl ⟨hrefused, rfl⟩⟩
    have hone : ∀ before q after, [p] = before ++ q :: after →
        q ∈ ({p} : Set P) ∨ Freed h conf s [] {r | r ∈ before} q := by
      intro before q after hsplit
      have hq : q ∈ [p] := hsplit ▸ List.mem_append_right _ List.mem_cons_self
      exact .inl (List.mem_singleton.mp hq)
    rcases hend with ⟨-, rfl⟩ | ⟨hauto, hloop⟩
    · exact ⟨[p], htaken, .inr ⟨hrefused, [], rfl, fun _ => rfl, hone⟩⟩
    · obtain ⟨rest, hrest⟩ := removeAutoinstalled_releases (opkgRemovePkg_releases hforced depth)
        hloop
      refine ⟨[p] ++ rest, htaken.trans hrest.removes, .inr ⟨hrefused, rest, rfl, ?_, ?_⟩⟩
      · intro hno
        rw [hauto] at hno
        cases hno
      · refine forall_split_append.mpr ⟨hone, fun mid q after hsplit => .inr ?_⟩
        exact (hrest.freed mid q after hsplit).before htaken fun dStr hdStr =>
          .inr ⟨hauto, p, List.mem_singleton_self p, hdStr⟩

omit hforced

end

inductive Release where
  | app
  | lib
  deriving DecidableEq

namespace Release

def hash : RemoveHash Release Release where
  all := {app, lib}
  version _ := { epoch := 0, version := some (ascii "1.0"), revision := some [] }
  parent := some
  provides p := [p]
  depends p := match p with
    | app => [{ type := .depend, possibilities := [⟨.none, [], lib⟩] }]
    | lib => []
  dependsStr p := match p with
    | app => [ascii "lib"]
    | lib => []
  essential _ := false
  autoInstalled p := p = lib
  tmpUnpackDir _ := false
  localFilename _ := false
  byName name :=
    if name = ascii "app" then some app
    else if name = ascii "lib" then some lib
    else none
  pkgs a := some [a]
  providedBy a := [a]
  dependedUponBy a := match a with
    | app => []
    | lib => [app]
  pkgs_all a vec hvec p hp := by
    cases hvec
    rw [List.mem_singleton.mp hp]
    cases a <;> decide

def state : RemoveState Release Release where
  pkgStatus p := match p with
    | app => .unpacked
    | lib => .installed
  pkgWant _ := .install
  pkgFlag _ := 0
  abStatus a := match a with
    | app => .unpacked
    | lib => .installed
  abMarked _ := false
  dependenciesChecked _ := 0
  stateChanged := 0
  log := []

def withoutForce : RemoveConf where
  forceDepends := false
  forceRemovalOfEssentialPackages := false
  forceRemovalOfDependentPackages := false
  autoremove := true

theorem satisfies_iff {p : Release} :
    PkgSatisfies arm hash p { type := .depend, possibilities := [⟨.none, [], lib⟩] } ↔ p = lib := by
  constructor
  · intro hsatisfies
    obtain ⟨possibility, hpossibility, hprovides, -⟩ := hsatisfies
    obtain rfl := List.mem_singleton.mp hpossibility
    exact (List.mem_singleton.mp hprovides).symm
  · intro hlib
    subst hlib
    exact ⟨_, List.mem_singleton.mpr rfl, List.mem_singleton.mpr rfl, rfl⟩

end Release

end Openmoko.Opkg
