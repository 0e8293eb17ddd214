import Openmoko.Opkg.Proof.RemoveRun

/-!
# The recursion of a removal ends

A call either looks at the dependents of an abstract package for the first time or has removed an
installed package before it calls itself. The only call that did neither is one for a package that is
gone already, and what it calls is installed. So a depth above four times the number of packages is
enough (`opkgRemovePkg_ends`), and more depth changes nothing (`opkgRemovePkg_agrees`).
-/

namespace Openmoko.Opkg

variable {A P : Type} [DecidableEq A] [DecidableEq P] {h : RemoveHash A P} {conf : RemoveConf}
  {s s' : RemoveState A P}

section Remaining

def installedPkgs (h : RemoveHash A P) (s : RemoveState A P) : Finset P :=
  h.all.filter fun p => isInstalled (s.pkgStatus p)

def uncheckedPkgs (h : RemoveHash A P) (s : RemoveState A P) : Finset P :=
  h.all.filter fun p => ∃ a ∈ h.parent p, s.dependenciesChecked a ≠ 2

def remaining (h : RemoveHash A P) (s : RemoveState A P) : ℕ :=
  (installedPkgs h s).card + (uncheckedPkgs h s).card

omit [DecidableEq A] [DecidableEq P] in
theorem remaining_le_all (s : RemoveState A P) : remaining h s ≤ 2 * h.all.card := by
  have hinstalled : (installedPkgs h s).card ≤ h.all.card :=
    Finset.card_le_card (Finset.filter_subset _ _)
  have hunchecked : (uncheckedPkgs h s).card ≤ h.all.card :=
    Finset.card_le_card (Finset.filter_subset _ _)
  rw [remaining]
  omega

variable {removed : List P}

theorem installedPkgs_subset (hrun : Removes h conf s s' removed) :
    installedPkgs h s' ⊆ installedPkgs h s := by
  intro p hp
  obtain ⟨hall, hinstalled⟩ := Finset.mem_filter.mp hp
  apply Finset.mem_filter.mpr
  refine ⟨hall, ?_⟩
  rw [hrun.pkgStatus] at hinstalled
  split at hinstalled
  · cases hinstalled
  · exact hinstalled

theorem uncheckedPkgs_subset (hrun : Removes h conf s s' removed) :
    uncheckedPkgs h s' ⊆ uncheckedPkgs h s := by
  intro p hp
  obtain ⟨hall, a, ha, hunchecked⟩ := Finset.mem_filter.mp hp
  apply Finset.mem_filter.mpr
  exact ⟨hall, a, ha, fun hchecked => hunchecked (hrun.checked a hchecked)⟩

theorem remaining_le (hrun : Removes h conf s s' removed) : remaining h s' ≤ remaining h s :=
  Nat.add_le_add (Finset.card_le_card (installedPkgs_subset hrun))
    (Finset.card_le_card (uncheckedPkgs_subset hrun))

theorem remaining_lt_of_gone (hrun : Removes h conf s s' removed) {pkg : P}
    (hall : pkg ∈ h.all) (hinstalled : isInstalled (s.pkgStatus pkg) = true)
    (hgone : s'.pkgStatus pkg = .notInstalled) : remaining h s' < remaining h s := by
  apply Nat.add_lt_add_of_lt_of_le
  · apply Finset.card_lt_card
    rw [Finset.ssubset_iff_of_subset (installedPkgs_subset hrun)]
    refine ⟨pkg, Finset.mem_filter.mpr ⟨hall, hinstalled⟩, ?_⟩
    intro hmem
    have hstill := (Finset.mem_filter.mp hmem).2
    rw [hgone] at hstill
    cases hstill
  · exact Finset.card_le_card (uncheckedPkgs_subset hrun)

theorem remaining_lt_of_checked (hrun : Removes h conf s s' removed) {pkg : P}
    {abPkg : A} (hall : pkg ∈ h.all) (hparent : h.parent pkg = some abPkg)
    (hunchecked : s.dependenciesChecked abPkg ≠ 2) (hchecked : s'.dependenciesChecked abPkg = 2) :
    remaining h s' < remaining h s := by
  apply Nat.add_lt_add_of_le_of_lt
  · exact Finset.card_le_card (installedPkgs_subset hrun)
  · apply Finset.card_lt_card
    rw [Finset.ssubset_iff_of_subset (uncheckedPkgs_subset hrun)]
    refine ⟨pkg, Finset.mem_filter.mpr ⟨hall, abPkg, hparent, hunchecked⟩, ?_⟩
    intro hmem
    obtain ⟨-, a, ha, hne⟩ := Finset.mem_filter.mp hmem
    obtain rfl := Option.some.inj (hparent.symm.trans ha)
    exact hne hchecked

end Remaining

section Ends

def callDepth (h : RemoveHash A P) (s : RemoveState A P) (pkg : P) : ℕ :=
  2 * remaining h s + if isInstalled (s.pkgStatus pkg) then 0 else 1

def CallsEnd (h : RemoveHash A P) (conf : RemoveConf) (recurse : RemoveRecursion A P) (n : ℕ) :
    Prop :=
  ∀ pkg message s, pkg ∈ h.all → Ready h conf s pkg → callDepth h s pkg < n →
    ∃ result s', recurse pkg message s = some (result, s')

omit [DecidableEq A] [DecidableEq P] in
theorem callDepth_le (s : RemoveState A P) (pkg : P) :
    callDepth h s pkg ≤ 2 * remaining h s + 1 := by
  unfold callDepth
  split <;> omega

variable {pkg : P}

omit [DecidableEq A] [DecidableEq P] in
theorem callDepth_installed (hinstalled : isInstalled (s.pkgStatus pkg) = true) :
    callDepth h s pkg = 2 * remaining h s := by
  rw [callDepth, if_pos hinstalled, Nat.add_zero]

variable {recurse : RemoveRecursion A P} {n : ℕ} (hrecurse : CallsRemove h conf recurse)
  (hends : CallsEnd h conf recurse n)

include hrecurse hends

theorem removeEach_ends (hforced : conf.forceRemovalOfDependentPackages = true) {pkgs : List P}
    (hpkgs : ∀ pkg ∈ pkgs, pkg ∈ h.all ∧ Ready h conf s pkg) (hn : 2 * remaining h s + 1 < n) :
    ∃ result s', removeEach recurse pkgs s = some (result, s') := by
  induction pkgs generalizing s with
  | nil => exact ⟨.ok, s, rfl⟩
  | cons pkg pkgs ih =>
    obtain ⟨⟨hall, hready⟩, hmore⟩ := List.forall_mem_cons.mp hpkgs
    have hdepth : callDepth h s pkg < n := Nat.lt_of_le_of_lt (callDepth_le s pkg) hn
    obtain ⟨err, t, hcall⟩ := hends pkg false s hall hready hdepth
    obtain ⟨removed, hrun⟩ := hrecurse pkg false s err t hready hcall
    rw [removeEach, hcall]
    simp only [Option.bind_eq_bind, Option.bind_some]
    split
    · exact ⟨err, t, rfl⟩
    · apply ih
      · intro q hq
        exact ⟨(hmore q hq).1, (hmore q hq).2.later hrun fun _ => hforced⟩
      · have hless := remaining_le hrun
        omega

theorem removeAutoinstalled_ends (dependsStr : List (List Byte)) (hn : 2 * remaining h s < n) :
    ∃ s', removeAutoinstalled h recurse dependsStr s = some s' := by
  induction dependsStr generalizing s with
  | nil => exact ⟨s, rfl⟩
  | cons dStr dependsStr ih =>
    cases hfetch : pkgHashFetchInstalledByName h s (dependsName dStr) with
    | none => exact ⟨s, removeAutoinstalled_stops hfetch⟩
    | some p =>
      obtain ⟨hinstalled, hall⟩ := pkgHashFetchInstalledByName_spec hfetch
      obtain ⟨t, ht, hturn⟩ := turn_cases hfetch
      obtain ⟨hinstalled', hn'⟩ : isInstalled (t.pkgStatus p) = true ∧ 2 * remaining h t < n := by
        rcases ht with rfl | rfl <;> exact ⟨hinstalled, hn⟩
      rcases hturn with ⟨-, hturn⟩ | ⟨-, hturn⟩
      · have hdepth : callDepth h t p < n := by rwa [callDepth_installed hinstalled']
        have hready : Ready h conf t p := Or.inl hinstalled'
        obtain ⟨result, u, hcall⟩ := hends p false t hall hready hdepth
        obtain ⟨removed, hrun⟩ := hrecurse p false t result u hready hcall
        have hn'' : 2 * remaining h u < n := by
          have hless := remaining_le hrun
          omega
        rw [hturn, hcall]
        exact ih hn''
      · rw [hturn]
        exact ih hn'

theorem opkgRemoveDependentPkgs_ends (hforced : conf.forceRemovalOfDependentPackages = true)
    (hall : pkg ∈ h.all) (dependents : List A) (hn : 2 * remaining h s < n + 1) :
    ∃ result s', opkgRemoveDependentPkgs h recurse pkg dependents s = some (result, s') := by
  unfold opkgRemoveDependentPkgs
  split
  next => exact ⟨.ok, s, rfl⟩
  next abPkg hparent =>
    split
    next => exact ⟨.ok, s, rfl⟩
    next hunchecked =>
      apply removeEach_ends hrecurse hends hforced
      · intro q hq
        obtain ⟨d, -, hqd⟩ := List.mem_flatMap.mp hq
        obtain ⟨hinstalled, hall⟩ := mem_dependentPkgs hqd
        refine ⟨hall, Or.inl ?_⟩
        rw [hinstalled]
        rfl
      · have hrun := dependenciesChecked_removes h conf s abPkg
        have hless := remaining_lt_of_checked hrun hall hparent hunchecked
          (Function.update_self _ _ _)
        omega

theorem settleDependents_ends (hall : pkg ∈ h.all) (hn : 2 * remaining h s < n + 1) :
    ∃ result s', settleDependents h recurse conf pkg s = some (result, s') := by
  unfold settleDependents
  split
  · simp only
    split
    · split
      next => exact ⟨.pkgHasDependents, _, rfl⟩
      next hforced =>
        apply opkgRemoveDependentPkgs_ends hrecurse hends _ hall
        · have hless := remaining_le (pkgHasInstalledDependents_removes h conf s pkg)
          exact Nat.lt_of_le_of_lt (Nat.mul_le_mul_left 2 hless) hn
        · simpa [userPrefersRemovingDependents] using hforced
    · exact ⟨.ok, _, rfl⟩
  · exact ⟨.ok, s, rfl⟩

theorem removeBody_ends (hclean : conf.forceRemovalOfDependentPackages = true →
      ∀ p, h.tmpUnpackDir p = false ∧ h.localFilename p = false) :
    CallsEnd h conf (removeBody h recurse conf) (n + 1) := by
  intro pkg message s hall hready hdepth
  unfold removeBody
  split
  · exact ⟨.pkgIsEssential, s, rfl⟩
  split
  next => exact ⟨.ok, s, rfl⟩
  next parentPkg hparent =>
    have hn : 2 * remaining h s < n + 1 := by
      unfold callDepth at hdepth
      omega
    obtain ⟨err, t, hsettle⟩ := settleDependents_ends hrecurse hends hall hn
    rw [hsettle]
    simp only [Option.bind_eq_bind, Option.bind_some]
    split
    · exact ⟨err, t, rfl⟩
    next herr =>
      rw [not_not.mp herr] at hsettle
      obtain ⟨removed, hrun⟩ := takeOut_settled_removes hrecurse hclean hparent hready hsettle
      split
      · have hless : 2 * remaining h (takeOut h pkg parentPkg t) < n := by
          by_cases hinstalled : isInstalled (s.pkgStatus pkg) = true
          · have hgone : (takeOut h pkg parentPkg t).pkgStatus pkg = .notInstalled := by
              rw [(takeOut_fields pkg parentPkg t).1, Function.update_self]
            have hlt := remaining_lt_of_gone hrun hall hinstalled hgone
            omega
          · -- it is gone already, and one level was kept for this
            have hle := remaining_le hrun
            rw [callDepth, if_neg hinstalled] at hdepth
            omega
        obtain ⟨u, hauto⟩ := removeAutoinstalled_ends hrecurse hends (h.dependsStr pkg) hless
        rw [hauto]
        exact ⟨.ok, u, rfl⟩
      · exact ⟨.ok, _, rfl⟩

end Ends

theorem opkgRemovePkg_ends (hclean : conf.forceRemovalOfDependentPackages = true →
      ∀ p, h.tmpUnpackDir p = false ∧ h.localFilename p = false) (depth : ℕ) :
    CallsEnd h conf (opkgRemovePkg h conf depth) depth := by
  induction depth with
  | zero => exact fun _ _ _ _ _ hdepth => absurd hdepth (Nat.not_lt_zero _)
  | succ depth ih => exact removeBody_ends (opkgRemovePkg_removes hclean depth) ih hclean

omit [DecidableEq A] [DecidableEq P] in
theorem callDepth_le_all (s : RemoveState A P) (pkg : P) :
    callDepth h s pkg ≤ 4 * h.all.card + 1 := by
  have hdepth := callDepth_le (h := h) s pkg
  have hremaining := remaining_le_all (h := h) s
  omega

def CallsAgree (recurse recurse' : RemoveRecursion A P) : Prop :=
  ∀ pkg message s outcome, recurse pkg message s = some outcome →
    recurse' pkg message s = some outcome

omit [DecidableEq P] in
theorem removeAutoinstalled_agrees {recurse recurse' : RemoveRecursion A P}
    (hagree : ∀ p s outcome, Unneeded h s p → recurse p false s = some outcome →
      recurse' p false s = some outcome) {dependsStr : List (List Byte)}
    (hloop : removeAutoinstalled h recurse dependsStr s = some s') :
    removeAutoinstalled h recurse' dependsStr s = some s' := by
  induction dependsStr generalizing s with
  | nil => exact hloop
  | cons dStr dependsStr ih =>
    cases hfetch : pkgHashFetchInstalledByName h s (dependsName dStr) with
    | none => rwa [removeAutoinstalled_stops hfetch] at hloop ⊢
    | some p =>
      obtain ⟨t, ht, hturn⟩ := turn_cases hfetch
      rcases hturn with ⟨⟨-, hnone⟩, hturn⟩ | ⟨-, hturn⟩
      · have hnone' : Unneeded h t p := by rcases ht with rfl | rfl <;> exact hnone
        rw [hturn] at hloop ⊢
        obtain ⟨called, hcall, hrest⟩ := Option.bind_eq_some_iff.mp hloop
        exact Option.bind_eq_some_iff.mpr ⟨called, hagree p t called hnone' hcall, ih hrest⟩
      · rw [hturn] at hloop ⊢
        exact ih hloop

section Agree

variable {recurse recurse' : RemoveRecursion A P} (hagree : CallsAgree recurse recurse')

include hagree

variable {outcome : RemoveResult × RemoveState A P}

omit [DecidableEq A] [DecidableEq P] in
theorem removeEach_agrees {pkgs : List P} (hloop : removeEach recurse pkgs s = some outcome) :
    removeEach recurse' pkgs s = some outcome := by
  induction pkgs generalizing s with
  | nil => exact hloop
  | cons pkg pkgs ih =>
    rw [removeEach] at hloop ⊢
    obtain ⟨⟨err, t⟩, hcall, hrest⟩ := Option.bind_eq_some_iff.mp hloop
    refine Option.bind_eq_some_iff.mpr ⟨(err, t), hagree _ _ _ _ hcall, ?_⟩
    by_cases herr : err ≠ .ok
    · simpa only [if_pos herr] using hrest
    · simp only [if_neg herr] at hrest ⊢
      exact ih hrest

omit [DecidableEq P] in
theorem opkgRemoveDependentPkgs_agrees {pkg : P} {dependents : List A}
    (hcall : opkgRemoveDependentPkgs h recurse pkg dependents s = some outcome) :
    opkgRemoveDependentPkgs h recurse' pkg dependents s = some outcome := by
  unfold opkgRemoveDependentPkgs at hcall ⊢
  cases hparent : h.parent pkg with
  | none => simpa only [hparent] using hcall
  | some abPkg =>
    simp only [hparent] at hcall ⊢
    by_cases hchecked : s.dependenciesChecked abPkg = 2
    · rwa [if_pos hchecked] at hcall ⊢
    · rw [if_neg hchecked] at hcall ⊢
      exact removeEach_agrees hagree hcall

omit [DecidableEq P] in
theorem settleDependents_agrees {pkg : P}
    (hsettle : settleDependents h recurse conf pkg s = some outcome) :
    settleDependents h recurse' conf pkg s = some outcome := by
  unfold settleDependents at hsettle ⊢
  by_cases hasked : (!conf.forceDepends && (s.pkgFlag pkg &&& SF_REPLACE == 0)) = true
  · simp only [if_pos hasked] at hsettle ⊢
    by_cases hcount : (pkgHasInstalledDependents h s pkg).1 ≠ 0
    · simp only [if_pos hcount] at hsettle ⊢
      split at hsettle
      next hrefused => rwa [if_pos hrefused]
      next hforced =>
        rw [if_neg hforced]
        exact opkgRemoveDependentPkgs_agrees hagree hsettle
    · simpa only [if_neg hcount] using hsettle
  · rwa [if_neg hasked] at hsettle ⊢

theorem removeBody_agrees :
    CallsAgree (removeBody h recurse conf) (removeBody h recurse' conf) := by
  intro pkg message s outcome hcall
  unfold removeBody at hcall ⊢
  split at hcall
  next hessential => rwa [if_pos hessential]
  next hessential =>
    rw [if_neg hessential]
    cases hparent : h.parent pkg with
    | none => simpa only [hparent] using hcall
    | some parentPkg =>
      simp only [hparent] at hcall ⊢
      obtain ⟨⟨err, t⟩, hsettle, hrest⟩ := Option.bind_eq_some_iff.mp hcall
      refine Option.bind_eq_some_iff.mpr ⟨(err, t), settleDependents_agrees hagree hsettle, ?_⟩
      by_cases herr : err ≠ .ok
      · simpa only [if_pos herr] using hrest
      simp only [if_neg herr] at hrest ⊢
      by_cases hauto : conf.autoremove = true
      · simp only [if_pos hauto] at hrest ⊢
        obtain ⟨u, hloop, hret⟩ := Option.bind_eq_some_iff.mp hrest
        have hagree' := removeAutoinstalled_agrees
          (fun p s outcome _ => hagree p false s outcome) hloop
        exact Option.bind_eq_some_iff.mpr ⟨u, hagree', hret⟩
      · simpa only [if_neg hauto] using hrest

end Agree

theorem opkgRemovePkg_agrees_succ (depth : ℕ) :
    CallsAgree (opkgRemovePkg h conf depth) (opkgRemovePkg h conf (depth + 1)) := by
  induction depth with
  | zero =>
    intro pkg message s outcome hcall
    cases hcall
  | succ depth ih => exact removeBody_agrees ih

theorem opkgRemovePkg_agrees {depth depth' : ℕ} (hle : depth ≤ depth') :
    CallsAgree (opkgRemovePkg h conf depth) (opkgRemovePkg h conf depth') := by
  induction hle with
  | refl => exact fun _ _ _ _ => id
  | step hle ih =>
    intro pkg message s outcome hcall
    exact opkgRemovePkg_agrees_succ _ pkg message s outcome (ih pkg message s outcome hcall)

end Openmoko.Opkg
