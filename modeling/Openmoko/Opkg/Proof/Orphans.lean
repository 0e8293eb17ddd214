import Openmoko.Opkg.Proof.SafeRemoval

/-!
# Orphans of a removal

`remove_autoinstalled` goes by the first alternative of each entry in `Depends`, and returns at the
first one whose package is not installed, so that an orphan may be left: it is sure to go only if each
entry in front of its own one names a package that stays until its turn. What the loop removes is
freed by the removals before, so that only a package that the check does not count can lose what it
depends on.
-/

namespace Openmoko.Opkg

section

variable {A P : Type} [DecidableEq A] [DecidableEq P] {platform : Platform} {h : RemoveHash A P}
  {conf : RemoveConf} {s s' t : RemoveState A P} {recurse recurse' : RemoveRecursion A P} {p : P}
  {dStr : List Byte} {names : List (List Byte)} {removed : List P}

variable (platform h conf s)

def DependsUpon (q p : P) : Prop :=
  ∃ group ∈ h.depends q, group.Hard ∧ PkgSatisfies platform h p group

def Needed (gone : List P) (p : P) : Prop :=
  ∃ q, q ≠ p ∧ Stays h s gone q ∧ DependsUpon platform h q p

/-- It was installed for others and is a dependency of `pkg`, and no other installed package depends
on it. -/
structure Orphan (pkg p : P) : Prop where
  dependency : DependsUpon platform h pkg p
  installed : isInstalled (s.pkgStatus p) = true
  auto : h.autoInstalled p = true
  unneeded : ¬Needed platform h s [] p

/-- Every orphan goes, and nothing goes while another installed package depends on it. -/
structure OrphansGo (pkg : P) (removed : List P) : Prop where
  complete : ∀ p, Orphan platform h s pkg p → p ∈ removed
  safe : ∀ before p after, removed = before ++ p :: after → ¬Needed platform h s before p

/-- Some entry gives the package, and each one in front of it names an installed package that what
comes before cannot take away. -/
def ComesInTurn (names : List (List Byte)) (p : P) : Prop :=
  ∃ before dStr after, names = before ++ dStr :: after ∧
    pkgHashFetchInstalledByName h s (dependsName dStr) = some p ∧
    ∀ front next rest, before = front ++ next :: rest →
      ∃ q, Names h next q ∧ isInstalled (s.pkgStatus q) = true ∧ q ∉ MayGo h conf s front ∅ ∅

structure Unhindered (pkg : P) : Prop where
  orphans : ∀ p, Orphan platform h s pkg p →
    Removable h conf p ∧ Unneeded h s p ∧ ComesInTurn h conf s (h.dependsStr pkg) p
  counted : ∀ depender ∈ h.all, isInstalled (s.pkgStatus depender) = true →
    ∀ p, depender ≠ p → DependsUpon platform h depender p →
      p ∉ MayGo h conf s (h.dependsStr pkg) {depender} ∅

variable {platform h conf s}

theorem Releases.mono {names' : List (List Byte)} (hrun : Releases h conf s s' names removed)
    (hsub : ∀ dStr ∈ names, dStr ∈ names') : Releases h conf s s' names' removed :=
  (Releases.nothing .refl).trans hrun fun dStr hdStr => .inl (hsub dStr hdStr)

theorem Releases.mayGo (hrun : Releases h conf s s' names removed) {kept : Set P}
    (hkept : ∀ p ∈ removed, p ∉ kept) : ∀ p ∈ removed, p ∈ MayGo h conf s names kept ∅ :=
  mem_mayGo_of_removed (fun before p after hsplit => .inr (hrun.freed before p after hsplit)) hkept

theorem Removes.unneeded (hrun : Removes h conf s s' removed) (hnone : Unneeded h s p) :
    Unneeded h s' p := by
  intro d hd
  rw [hrun.abStatus]
  split
  · exact nofun
  · exact hnone d hd

theorem Removes.gone (hrun : Removes h conf s s' removed) (hgone : s.pkgStatus p = .notInstalled) :
    s'.pkgStatus p = .notInstalled := by
  rw [hrun.pkgStatus, hgone, ite_self]

omit [DecidableEq P] in
theorem exists_turn {q : P} (hfetch : pkgHashFetchInstalledByName h s (dependsName dStr) = some q)
    (hloop : removeAutoinstalled h recurse (dStr :: names) s = some s') :
    ∃ u, removeAutoinstalled h recurse [dStr] s = some u ∧
      removeAutoinstalled h recurse names u = some s' ∧
      (u.pkgStatus = s.pkgStatus ∧ ¬(h.autoInstalled q = true ∧ Unneeded h s q) ∨
        ∃ t result, t.pkgStatus = s.pkgStatus ∧ t.abStatus = s.abStatus ∧
          h.autoInstalled q = true ∧ Unneeded h t q ∧ recurse q false t = some (result, u)) := by
  obtain ⟨t, ht, ⟨⟨hauto, hnone⟩, hturn⟩ | ⟨hno, hturn⟩⟩ := turn_cases hfetch
  · rw [hturn] at hloop
    obtain ⟨⟨result, u⟩, hcall, hrest⟩ := Option.bind_eq_some_iff.mp hloop
    refine ⟨u, by rw [hturn, hcall]; rfl, hrest, .inr ⟨t, result, ?_⟩⟩
    rcases ht with rfl | rfl <;> exact ⟨rfl, rfl, hauto, hnone, hcall⟩
  · rw [hturn] at hloop
    refine ⟨t, hturn recurse [], hloop, .inl ⟨?_, hno⟩⟩
    rcases ht with rfl | rfl <;> rfl

omit [DecidableEq A] [DecidableEq P] in
theorem exists_fetch {q : P} (hnames : Names h dStr q)
    (hthere : isInstalled (s.pkgStatus q) = true) :
    ∃ r, pkgHashFetchInstalledByName h s (dependsName dStr) = some r := by
  obtain ⟨pkgs, hpkgs, hq⟩ := hnames
  rw [pkgHashFetchInstalledByName, hpkgs, Option.bind_some, ← Option.isSome_iff_exists,
    List.find?_isSome]
  exact ⟨q, hq, hthere⟩

/-- As long as each entry names something that stays, the loop goes on behind it. -/
theorem comes_behind (hrecurse : CallsRelease h conf recurse) {front todo rest : List (List Byte)}
    (hrun : Releases h conf s t front removed)
    (hstays : ∀ mid next after, todo = mid ++ next :: after →
      ∃ q, Names h next q ∧ isInstalled (s.pkgStatus q) = true ∧
        q ∉ MayGo h conf s (front ++ mid) ∅ ∅)
    (hloop : removeAutoinstalled h recurse (todo ++ rest) t = some s') :
    ∃ u removed, Releases h conf s u (front ++ todo) removed ∧
      removeAutoinstalled h recurse rest u = some s' := by
  induction todo generalizing t front removed with
  | nil => exact ⟨t, removed, by rwa [List.append_nil], hloop⟩
  | cons next todo ih =>
    obtain ⟨q, hnames, hthere, hnot⟩ := hstays [] next todo rfl
    rw [List.append_nil] at hnot
    have hthere' : isInstalled (t.pkgStatus q) = true := by
      rwa [hrun.removes.pkgStatus, if_neg fun hgone => hnot (hrun.mayGo (fun _ _ => id) q hgone)]
    obtain ⟨r, hfetch⟩ := exists_fetch hnames hthere'
    obtain ⟨u, hone, hrest, -⟩ := exists_turn hfetch hloop
    obtain ⟨removed', hrun'⟩ := removeAutoinstalled_releases hrecurse hone
    have hfirst : Releases h conf s t (front ++ [next]) removed :=
      hrun.mono fun _ => List.mem_append_left _
    have hboth := hfirst.trans hrun' fun _ hmem => .inl (List.mem_append_right _ hmem)
    rw [List.append_cons]
    refine ih hboth (fun mid next' after hsplit => ?_) hrest
    rw [← List.append_cons]
    exact hstays (next :: mid) next' after (congrArg (List.cons next) hsplit)

theorem gone_of_comesInTurn (hrecurse : CallsRelease h conf recurse)
    (hcomes : ComesInTurn h conf s names p) (hremovable : Removable h conf p)
    (hauto : h.autoInstalled p = true) (hnone : Unneeded h s p)
    (hloop : removeAutoinstalled h recurse names s = some s') : s'.pkgStatus p = .notInstalled := by
  obtain ⟨before, dStr, after, rfl, hfetch, hstays⟩ := hcomes
  have hstart : Releases h conf s s [] [] := .nothing .refl
  obtain ⟨t, removed, hrun, hrest⟩ := comes_behind hrecurse hstart hstays hloop
  have hlater : ∀ {u names}, removeAutoinstalled h recurse names u = some s' →
      u.pkgStatus p = .notInstalled → s'.pkgStatus p = .notInstalled := by
    intro u names hloop hgone
    obtain ⟨_, hreleases⟩ := removeAutoinstalled_releases hrecurse hloop
    exact hreleases.removes.gone hgone
  by_cases hgone : p ∈ removed
  · apply hlater hrest
    rw [hrun.removes.pkgStatus, if_pos hgone]
  have hfetch' : pkgHashFetchInstalledByName h t (dependsName dStr) = some p := by
    obtain ⟨pkgs, hpkgs, hfind⟩ := Option.bind_eq_some_iff.mp hfetch
    obtain ⟨hthere, front, rest, rfl, hfront⟩ := List.find?_eq_some_iff_append.mp hfind
    rw [pkgHashFetchInstalledByName, hpkgs, Option.bind_some, List.find?_eq_some_iff_append]
    refine ⟨by rwa [hrun.removes.pkgStatus, if_neg hgone], front, rest, rfl, fun q hq => ?_⟩
    rw [hrun.removes.pkgStatus]
    split
    · rfl
    · exact hfront q hq
  obtain ⟨u, -, hrest', hturn⟩ := exists_turn hfetch' hrest
  apply hlater hrest'
  rcases hturn with ⟨-, hno⟩ | ⟨v, result, hpkg, hab, -, hnone', hcall⟩
  · exact absurd ⟨hauto, hrun.removes.unneeded hnone⟩ hno
  · have hthere := (pkgHashFetchInstalledByName_spec hfetch').1
    rw [← hpkg] at hthere
    obtain ⟨removed', hrun', hmem⟩ := hrecurse p v result u hthere hauto hnone' hcall [dStr]
      ⟨dStr, List.mem_singleton_self _, names_of_fetch hfetch'⟩
    rw [hrun'.removes.pkgStatus, if_pos (hmem hremovable)]

omit [DecidableEq P] in
theorem settleDependents_unneeded (hnone : Unneeded h s p) :
    settleDependents h recurse conf p s = some (.ok,
      if (!conf.forceDepends && (s.pkgFlag p &&& SF_REPLACE == 0)) = true then
        (pkgHasInstalledDependents h s p).2.2
      else s) := by
  unfold settleDependents
  split
  · simp only [count_eq_zero_iff.mpr hnone, ne_eq, not_true, if_false]
  · rfl

theorem Releases.of_unforced
    (hrun : Releases h { conf with forceRemovalOfDependentPackages := false } s s' names removed) :
    Releases h conf s s' names removed where
  removes :=
    { hrun.removes with allowed := fun hforce => hrun.removes.allowed ⟨hforce.1, hforce.2.1, rfl⟩ }
  freed before p after hsplit :=
    have hfreed := hrun.freed before p after hsplit
    ⟨hfreed.named, hfreed.installed, hfreed.auto, hfreed.removable, hfreed.uncounted⟩

omit [DecidableEq P] in
theorem removeAutoinstalled_congr
    (hcalls : ∀ p s, Unneeded h s p → recurse p false s = recurse' p false s) :
    removeAutoinstalled h recurse names s = removeAutoinstalled h recurse' names s := by
  ext s'
  constructor
  · apply removeAutoinstalled_agrees
    intro p s outcome hnone hcall
    rwa [← hcalls p s hnone]
  · apply removeAutoinstalled_agrees
    intro p s outcome hnone hcall
    rwa [hcalls p s hnone]

theorem opkgRemovePkg_unforced (depth : ℕ) (message : Bool) (hnone : Unneeded h s p) :
    opkgRemovePkg h conf depth p message s =
      opkgRemovePkg h { conf with forceRemovalOfDependentPackages := false } depth p message s := by
  induction depth generalizing p message s with
  | zero => rfl
  | succ depth ih =>
    have hloop : ∀ names s, removeAutoinstalled h (opkgRemovePkg h conf depth) names s =
        removeAutoinstalled h (opkgRemovePkg h
          { conf with forceRemovalOfDependentPackages := false } depth) names s :=
      fun names s => removeAutoinstalled_congr fun q s hnone => ih false hnone
    simp only [opkgRemovePkg, removeBody, settleDependents_unneeded hnone, hloop]

theorem calls_release (depth : ℕ) : CallsRelease h conf (opkgRemovePkg h conf depth) := by
  intro p s result s' hinstalled hauto hnone hcall names hnames
  rw [opkgRemovePkg_unforced depth false hnone] at hcall
  obtain ⟨removed, hrun, hmem⟩ :=
    opkgRemovePkg_releases rfl depth p s result s' hinstalled hauto hnone hcall names hnames
  exact ⟨removed, hrun.of_unforced, hmem⟩

end

variable {A P : Type} [DecidableEq A] [DecidableEq P]

namespace Shared

def dependencies (p : Fin 4) : List (Fin 4) :=
  if p = 0 then [1, 2, 3] else if p = 1 then [2] else []

def name (p : Fin 4) : List Byte := [UInt8.ofNat (48 + p)]

def hash : RemoveHash (Fin 4) (Fin 4) where
  all := Finset.univ
  version _ := { epoch := 0, version := some (ascii "1.0"), revision := some [] }
  parent := some
  provides p := [p]
  depends p := (dependencies p).map fun q => ⟨.depend, [⟨.none, [], q⟩]⟩
  dependsStr p := (dependencies p).map name
  essential _ := false
  autoInstalled p := p ≠ 0
  tmpUnpackDir _ := false
  localFilename _ := false
  byName text := (List.finRange 4).find? fun p => name p = text
  pkgs a := some [a]
  providedBy a := [a]
  dependedUponBy a := (List.finRange 4).filter fun p => a ∈ dependencies p
  pkgs_all _ _ _ p _ := Finset.mem_univ p

def state : RemoveState (Fin 4) (Fin 4) where
  pkgStatus p := if p = 0 then .notInstalled else .installed
  pkgWant _ := .install
  pkgFlag _ := 0
  abStatus a := if a = 0 then .notInstalled else .installed
  abMarked _ := false
  dependenciesChecked _ := 0
  stateChanged := 1
  log := []

theorem satisfies_iff {p q : Fin 4} :
    PkgSatisfies arm hash p ⟨.depend, [⟨.none, [], q⟩]⟩ ↔ p = q := by
  constructor
  · rintro ⟨possibility, hpossibility, hprovides, -⟩
    obtain rfl := List.mem_singleton.mp hpossibility
    exact (List.mem_singleton.mp hprovides).symm
  · rintro rfl
    exact ⟨_, List.mem_singleton.mpr rfl, List.mem_singleton.mpr rfl, rfl⟩

theorem dependsUpon_iff {p q : Fin 4} : DependsUpon arm hash p q ↔ q ∈ dependencies p := by
  constructor
  · rintro ⟨group, hgroup, -, hsatisfies⟩
    obtain ⟨r, hr, rfl⟩ := List.mem_map.mp hgroup
    rwa [satisfies_iff.mp hsatisfies]
  · exact fun hq => ⟨_, List.mem_map_of_mem hq, .inr (.inl rfl), satisfies_iff.mpr rfl⟩

end Shared

end Openmoko.Opkg
