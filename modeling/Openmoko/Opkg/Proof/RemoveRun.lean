import Openmoko.Opkg.Remove

/-!
# What one call of `opkg_remove_pkg` does

A call, with the calls in it, removes packages one after the other: each of them was installed when
the call began, and its scripts run and its files go once. A package can be come back to only where
the removal of dependents is forced, and is not installed any more then.
-/

namespace Openmoko.Opkg

variable {A P : Type} [DecidableEq A] [DecidableEq P]

def RemoveConf.NoForce (conf : RemoveConf) : Prop :=
  conf.forceDepends = false ∧ conf.forceRemovalOfEssentialPackages = false ∧
    conf.forceRemovalOfDependentPackages = false

def removalEvents (pkg : P) : List (RemoveEvent P) :=
  [.runScript pkg .prerm .installed, .removeFiles pkg .installed,
    .runScript pkg .postrm .installed]

def Allowed (h : RemoveHash A P) (s : RemoveState A P) (before : List P) (pkg : P) : Prop :=
  s.pkgFlag pkg &&& SF_REPLACE ≠ 0 ∨
    ∀ d ∈ dependers h pkg, s.abStatus d = .installed → some d ∈ before.map h.parent

structure Removes (h : RemoveHash A P) (conf : RemoveConf) (s s' : RemoveState A P)
    (removed : List P) : Prop where
  nodup : removed.Nodup
  installed : ∀ p ∈ removed, isInstalled (s.pkgStatus p) = true
  log : s'.log = s.log ++ removed.flatMap removalEvents
  pkgStatus : ∀ p, s'.pkgStatus p = if p ∈ removed then .notInstalled else s.pkgStatus p
  abStatus : ∀ a, s'.abStatus a =
    if some a ∈ removed.map h.parent then .notInstalled else s.abStatus a
  replace : ∀ p, s'.pkgFlag p &&& SF_REPLACE = s.pkgFlag p &&& SF_REPLACE
  checked : ∀ a, s.dependenciesChecked a = 2 → s'.dependenciesChecked a = 2
  allowed : conf.NoForce → ∀ before pkg after, removed = before ++ pkg :: after →
    Allowed h s before pkg

variable {message : Bool} {result : RemoveResult}

section

variable {h : RemoveHash A P} {conf : RemoveConf} {s s' : RemoveState A P}

theorem Removes.nothing (hlog : s'.log = s.log) (hpkg : s'.pkgStatus = s.pkgStatus)
    (hab : s'.abStatus = s.abStatus)
    (hreplace : ∀ p, s'.pkgFlag p &&& SF_REPLACE = s.pkgFlag p &&& SF_REPLACE)
    (hchecked : ∀ a, s.dependenciesChecked a = 2 → s'.dependenciesChecked a = 2) :
    Removes h conf s s' [] where
  nodup := List.nodup_nil
  installed := List.forall_mem_nil _
  log := by rw [hlog, List.flatMap_nil, List.append_nil]
  pkgStatus p := by rw [hpkg, if_neg List.not_mem_nil]
  abStatus a := by rw [hab, List.map_nil, if_neg List.not_mem_nil]
  replace := hreplace
  checked := hchecked
  allowed := by
    intro _ before pkg after hsplit
    exact absurd hsplit (by simp)

theorem Removes.refl : Removes h conf s s [] :=
  Removes.nothing rfl rfl rfl (fun _ => rfl) fun _ hchecked => hchecked

omit [DecidableEq A] [DecidableEq P] in
/-- A fact about the places of a list, shown for the two halves of it. -/
theorem forall_split_append {Q : List P → P → Prop} {first second : List P} :
    (∀ before p after, first ++ second = before ++ p :: after → Q before p) ↔
      (∀ before p after, first = before ++ p :: after → Q before p) ∧
        ∀ mid p after, second = mid ++ p :: after → Q (first ++ mid) p := by
  constructor
  · intro hall
    constructor
    · rintro before p after rfl
      exact hall before p (after ++ second) (by simp)
    · rintro mid p after rfl
      exact hall (first ++ mid) p after (by simp)
  · rintro ⟨hfirst, hsecond⟩ before p after hsplit
    rcases List.append_eq_append_iff.mp hsplit with ⟨mid, rfl, htail⟩ | ⟨mid, rfl, htail⟩
    · exact hsecond mid p after htail
    · cases mid with
      | nil => simpa using hsecond [] p after htail.symm
      | cons next mid =>
        obtain ⟨rfl, -⟩ := List.cons.inj htail
        exact hfirst before p mid rfl

theorem Removes.trans {t : RemoveState A P} {first second : List P}
    (hfirst : Removes h conf s t first) (hsecond : Removes h conf t s' second) :
    Removes h conf s s' (first ++ second) where
  nodup := by
    refine List.Nodup.append hfirst.nodup hsecond.nodup ?_
    intro p hp hagain
    have hinstalled := hsecond.installed p hagain
    rw [hfirst.pkgStatus, if_pos hp] at hinstalled
    cases hinstalled
  installed := by
    refine List.forall_mem_append.mpr ⟨hfirst.installed, fun p hp => ?_⟩
    have hinstalled := hsecond.installed p hp
    rw [hfirst.pkgStatus] at hinstalled
    split at hinstalled
    · cases hinstalled
    · exact hinstalled
  log := by rw [hsecond.log, hfirst.log, List.flatMap_append, List.append_assoc]
  pkgStatus p := by
    rw [hsecond.pkgStatus, hfirst.pkgStatus]
    by_cases hp : p ∈ second
    · rw [if_pos hp, if_pos (List.mem_append_right first hp)]
    · rw [if_neg hp]
      simp [hp]
  abStatus a := by
    rw [hsecond.abStatus, hfirst.abStatus, List.map_append]
    by_cases ha : some a ∈ second.map h.parent
    · rw [if_pos ha, if_pos (List.mem_append_right _ ha)]
    · rw [if_neg ha]
      simp only [List.mem_append, ha, or_false]
  replace p := (hsecond.replace p).trans (hfirst.replace p)
  checked a ha := hsecond.checked a (hfirst.checked a ha)
  allowed := by
    intro hforce
    apply (forall_split_append (Q := Allowed h s)).mpr
    refine ⟨hfirst.allowed hforce, fun mid pkg after hsplit => ?_⟩
    rcases hsecond.allowed hforce mid pkg after hsplit with hreplace | hnone
    · left
      rwa [← hfirst.replace]
    · right
      intro d hd hinstalled
      rw [List.map_append, List.mem_append]
      by_cases hparent : some d ∈ first.map h.parent
      · exact Or.inl hparent
      · right
        apply hnone d hd
        rw [hfirst.abStatus, if_neg hparent, hinstalled]

/-! ### One removal -/

/-- What a call asks of its package: it is installed, or it has been removed in the same run. -/
def Ready (h : RemoveHash A P) (conf : RemoveConf) (s : RemoveState A P) (pkg : P) : Prop :=
  isInstalled (s.pkgStatus pkg) = true ∨
    conf.forceRemovalOfDependentPackages = true ∧ s.pkgStatus pkg = .notInstalled ∧
      ∀ a ∈ h.parent pkg, s.abStatus a = .notInstalled

variable {pkg : P}

theorem Ready.later {removed : List P} (hready : Ready h conf s pkg)
    (hrun : Removes h conf s s' removed)
    (hforced : pkg ∈ removed → conf.forceRemovalOfDependentPackages = true) :
    Ready h conf s' pkg := by
  by_cases hmem : pkg ∈ removed
  · right
    refine ⟨hforced hmem, by rw [hrun.pkgStatus, if_pos hmem], fun a ha => ?_⟩
    rw [hrun.abStatus, if_pos]
    rw [← Option.mem_def.mp ha]
    exact List.mem_map_of_mem hmem
  rcases hready with hinstalled | ⟨hforced, hgone, hparent⟩
  · left
    rw [hrun.pkgStatus, if_neg hmem, hinstalled]
  · right
    refine ⟨hforced, by rw [hrun.pkgStatus, if_neg hmem, hgone], fun a ha => ?_⟩
    rw [hrun.abStatus, hparent a ha, ite_self]

theorem takeOut_log (parentPkg : A) (hclean : conf.forceRemovalOfDependentPackages = true →
      h.tmpUnpackDir pkg = false ∧ h.localFilename pkg = false) (hready : Ready h conf s pkg) :
    (takeOut h pkg parentPkg s).log =
      s.log ++ (if isInstalled (s.pkgStatus pkg) then [pkg] else []).flatMap removalEvents := by
  rcases hready with hinstalled | ⟨hforced, hgone, -⟩
  · have hpresent : s.pkgStatus pkg ≠ .notInstalled := by
      intro hgone
      rw [hgone] at hinstalled
      cases hinstalled
    simp [takeOut, pkgRunScript, removeDataFilesAndList, hinstalled, hpresent, removalEvents]
  · obtain ⟨hdir, hfile⟩ := hclean hforced
    have hnot : isInstalled .notInstalled = false := rfl
    simp [takeOut, pkgRunScript, removeDataFilesAndList, hgone, hdir, hfile, hnot]

theorem takeOut_fields (pkg : P) (parentPkg : A) (s : RemoveState A P) :
    (takeOut h pkg parentPkg s).pkgStatus = Function.update s.pkgStatus pkg .notInstalled ∧
      (takeOut h pkg parentPkg s).abStatus = Function.update s.abStatus parentPkg .notInstalled ∧
      (takeOut h pkg parentPkg s).pkgFlag =
        Function.update s.pkgFlag pkg (s.pkgFlag pkg ||| SF_FILELIST_CHANGED) ∧
      (takeOut h pkg parentPkg s).dependenciesChecked = s.dependenciesChecked := by
  have hscript : ∀ (script : MaintainerScript) (s : RemoveState A P),
      (pkgRunScript h pkg script s).pkgStatus = s.pkgStatus ∧
        (pkgRunScript h pkg script s).abStatus = s.abStatus ∧
        (pkgRunScript h pkg script s).pkgFlag = s.pkgFlag ∧
        (pkgRunScript h pkg script s).dependenciesChecked = s.dependenciesChecked := by
    intro script s
    unfold pkgRunScript
    split
    · exact ⟨rfl, rfl, rfl, rfl⟩
    split <;> exact ⟨rfl, rfl, rfl, rfl⟩
  have hfiles : ∀ s : RemoveState A P,
      (removeDataFilesAndList h pkg s).pkgStatus = s.pkgStatus ∧
        (removeDataFilesAndList h pkg s).abStatus = s.abStatus ∧
        (removeDataFilesAndList h pkg s).pkgFlag = s.pkgFlag ∧
        (removeDataFilesAndList h pkg s).dependenciesChecked = s.dependenciesChecked := by
    intro s
    unfold removeDataFilesAndList
    split
    · split <;> exact ⟨rfl, rfl, rfl, rfl⟩
    · exact ⟨rfl, rfl, rfl, rfl⟩
  unfold takeOut
  simp only [hscript, hfiles, and_self]

theorem takeOut_removes {parentPkg : A} (hparent : h.parent pkg = some parentPkg)
    (hclean : conf.forceRemovalOfDependentPackages = true →
      h.tmpUnpackDir pkg = false ∧ h.localFilename pkg = false)
    (hready : Ready h conf s pkg) (hallowed : conf.NoForce → Allowed h s [] pkg) :
    Removes h conf s (takeOut h pkg parentPkg s)
      (if isInstalled (s.pkgStatus pkg) then [pkg] else []) := by
  obtain ⟨hpkg, hab, hflag, hchecked⟩ := takeOut_fields (h := h) pkg parentPkg s
  have hlog := takeOut_log parentPkg hclean hready
  have hreplace : ∀ p, (takeOut h pkg parentPkg s).pkgFlag p &&& SF_REPLACE =
      s.pkgFlag p &&& SF_REPLACE := by
    intro p
    rw [hflag]
    by_cases hp : p = pkg
    · subst hp
      rw [Function.update_self, Nat.and_or_distrib_right]
      exact Nat.or_zero _
    · rw [Function.update_of_ne hp]
  rcases hready with hinstalled | ⟨hforced, hgone, hsettled⟩
  · rw [if_pos hinstalled] at hlog ⊢
    constructor
    case nodup => exact List.nodup_singleton pkg
    case installed => exact List.forall_mem_singleton.mpr hinstalled
    case log => exact hlog
    case pkgStatus =>
      intro p
      rw [hpkg, Function.update_apply]
      simp only [List.mem_singleton]
    case abStatus =>
      intro a
      rw [hab, Function.update_apply]
      simp only [List.map_singleton, hparent, List.mem_singleton, Option.some.injEq]
    case replace => exact hreplace
    case checked => exact fun a ha => by rw [hchecked, ha]
    case allowed =>
      intro hforce before p after hsplit
      obtain ⟨rfl, hsplit⟩ : before = [] ∧ [pkg] = p :: after := by
        cases before with
        | nil => exact ⟨rfl, hsplit⟩
        | cons q before => exact absurd (List.cons.inj hsplit).2 (by simp)
      obtain ⟨rfl, -⟩ := List.cons.inj hsplit
      exact hallowed hforce
  · have hnot : isInstalled (s.pkgStatus pkg) = false := by
      rw [hgone]
      rfl
    rw [hnot] at hlog ⊢
    apply Removes.nothing
    · rw [hlog]
      exact List.append_nil _
    · rw [hpkg, ← hgone, Function.update_eq_self]
    · rw [hab, ← hsettled parentPkg hparent, Function.update_eq_self]
    · exact hreplace
    · exact fun a ha => by rw [hchecked, ha]

variable (h conf) in
theorem pkgHasInstalledDependents_removes (s : RemoveState A P) (pkg : P) :
    Removes h conf s (pkgHasInstalledDependents h s pkg).2.2 [] :=
  Removes.nothing rfl rfl rfl (fun _ => rfl) fun _ hchecked => hchecked

variable (h conf) in
theorem dependenciesChecked_removes (s : RemoveState A P) (abPkg : A) :
    Removes h conf s
      { s with dependenciesChecked := Function.update s.dependenciesChecked abPkg 2 } [] := by
  apply Removes.nothing
  case hlog => rfl
  case hpkg => rfl
  case hab => rfl
  case hreplace => exact fun _ => rfl
  case hchecked =>
    intro a ha
    by_cases hself : a = abPkg
    · subst hself
      exact Function.update_self _ _ _
    · exact (Function.update_of_ne hself _ _).trans ha

def Unneeded (h : RemoveHash A P) (s : RemoveState A P) (p : P) : Prop :=
  ∀ d ∈ dependers h p, s.abStatus d ≠ .installed

omit [DecidableEq P] in
theorem count_eq_zero_iff {p : P} : (pkgHasInstalledDependents h s p).1 = 0 ↔ Unneeded h s p := by
  change (dependers h p).countP (fun d => decide (s.abStatus d = .installed)) = 0 ↔ _
  simp [List.countP_eq_zero, Unneeded]

omit [DecidableEq A] [DecidableEq P] in
theorem mem_dependentPkgs {d : A} (hpkg : pkg ∈ dependentPkgs h s d) :
    s.pkgStatus pkg = .installed ∧ pkg ∈ h.all := by
  unfold dependentPkgs at hpkg
  split at hpkg
  · cases hpkg
  split at hpkg
  · obtain ⟨hmem, hinstalled⟩ := List.mem_filter.mp hpkg
    refine ⟨of_decide_eq_true hinstalled, ?_⟩
    cases hpkgs : h.pkgs d with
    | none =>
      rw [hpkgs] at hmem
      cases hmem
    | some vec =>
      rw [hpkgs] at hmem
      exact h.pkgs_all d vec hpkgs pkg hmem
  · cases hpkg

omit [DecidableEq A] [DecidableEq P] in
theorem pkgHashFetchInstalledByName_spec {name : List Byte}
    (hfetch : pkgHashFetchInstalledByName h s name = some pkg) :
    isInstalled (s.pkgStatus pkg) = true ∧ pkg ∈ h.all := by
  obtain ⟨vec, hvec, hfind⟩ := Option.bind_eq_some_iff.mp hfetch
  obtain ⟨a, -, hpkgs⟩ := Option.bind_eq_some_iff.mp hvec
  have hinstalled : isInstalled (s.pkgStatus pkg) = true :=
    List.find?_some (p := fun p => isInstalled (s.pkgStatus p)) hfind
  have hmem := List.mem_of_find?_eq_some hfind
  refine ⟨hinstalled, ?_⟩
  cases hown : h.pkgs a with
  | some own =>
    rw [hown] at hpkgs
    obtain rfl := Option.some.inj hpkgs
    exact h.pkgs_all a own hown pkg hmem
  | none =>
    rw [hown] at hpkgs
    obtain ⟨provider, -, hprovider⟩ := Option.bind_eq_some_iff.mp hpkgs
    exact h.pkgs_all provider vec hprovider pkg hmem

section Loop

variable {recurse : RemoveRecursion A P} {dStr : List Byte} {names : List (List Byte)} {p : P}

omit [DecidableEq P] in
theorem turn_cases (hfetch : pkgHashFetchInstalledByName h s (dependsName dStr) = some p) :
    ∃ t, (t = s ∨ t = (pkgHasInstalledDependents h s p).2.2) ∧
      ((h.autoInstalled p = true ∧ Unneeded h s p) ∧ (∀ recurse names,
          removeAutoinstalled h recurse (dStr :: names) s =
            (recurse p false t).bind fun called => removeAutoinstalled h recurse names called.2) ∨
        ¬(h.autoInstalled p = true ∧ Unneeded h s p) ∧ ∀ recurse names,
          removeAutoinstalled h recurse (dStr :: names) s =
            removeAutoinstalled h recurse names t) := by
  by_cases hauto : h.autoInstalled p = true
  · by_cases hnone : (pkgHasInstalledDependents h s p).1 = 0
    · refine ⟨_, .inr rfl, .inl ⟨⟨hauto, count_eq_zero_iff.mp hnone⟩, fun recurse names => ?_⟩⟩
      simp only [removeAutoinstalled, hfetch, if_pos hauto, if_pos hnone]
      rfl
    · refine ⟨_, .inr rfl, .inr ⟨?_, fun recurse names => ?_⟩⟩
      · exact fun horphan => hnone (count_eq_zero_iff.mpr horphan.2)
      · simp only [removeAutoinstalled, hfetch, if_pos hauto, if_neg hnone]
  · refine ⟨s, .inl rfl, .inr ⟨fun horphan => hauto horphan.1, fun recurse names => ?_⟩⟩
    simp only [removeAutoinstalled, hfetch, if_neg hauto]

omit [DecidableEq P] in
theorem removeAutoinstalled_stops
    (hfetch : pkgHashFetchInstalledByName h s (dependsName dStr) = none) :
    removeAutoinstalled h recurse (dStr :: names) s = some s := by
  simp only [removeAutoinstalled, hfetch]

omit [DecidableEq P] in
/-- **The loop rule.** The calls are for packages that the entries name, that were installed for
others and that nothing installed depends on. -/
theorem removeAutoinstalled_rel {R : RemoveState A P → RemoveState A P → Prop}
    (hrefl : ∀ s, R s s) (htrans : ∀ s t u, R s t → R t u → R s u)
    (hmarks : ∀ s p, R s (pkgHasInstalledDependents h s p).2.2)
    (hcalls : ∀ dStr ∈ names, ∀ p s result s',
      pkgHashFetchInstalledByName h s (dependsName dStr) = some p → h.autoInstalled p = true →
      Unneeded h s p → recurse p false s = some (result, s') → R s s')
    (hloop : removeAutoinstalled h recurse names s = some s') : R s s' := by
  induction names generalizing s with
  | nil =>
    cases hloop
    exact hrefl _
  | cons dStr names ih =>
    obtain ⟨hcall, hmore⟩ := List.forall_mem_cons.mp hcalls
    cases hfetch : pkgHashFetchInstalledByName h s (dependsName dStr) with
    | none =>
      rw [removeAutoinstalled_stops hfetch] at hloop
      cases hloop
      exact hrefl _
    | some p =>
      obtain ⟨t, ht, hturn⟩ := turn_cases hfetch
      have hfirst : R s t := by
        rcases ht with rfl | rfl
        · exact hrefl _
        · exact hmarks s p
      rcases hturn with ⟨⟨hauto, hnone⟩, hturn⟩ | ⟨-, hturn⟩
      · rw [hturn] at hloop
        obtain ⟨⟨result, u⟩, hcalled, hrest⟩ := Option.bind_eq_some_iff.mp hloop
        apply htrans s t s' hfirst
        apply htrans t u s' _ (ih hmore hrest)
        rcases ht with rfl | rfl <;> exact hcall p _ result u hfetch hauto hnone hcalled
      · rw [hturn] at hloop
        exact htrans s t s' hfirst (ih hmore hloop)

end Loop

/-! ### A call -/

def CallsRemove (h : RemoveHash A P) (conf : RemoveConf) (recurse : RemoveRecursion A P) : Prop :=
  ∀ pkg message s result s', Ready h conf s pkg → recurse pkg message s = some (result, s') →
    ∃ removed, Removes h conf s s' removed

section Calls

variable {recurse : RemoveRecursion A P} (hrecurse : CallsRemove h conf recurse)

include hrecurse

theorem removeEach_removes (hforced : conf.forceRemovalOfDependentPackages = true) {pkgs : List P}
    (hready : ∀ pkg ∈ pkgs, Ready h conf s pkg)
    (hloop : removeEach recurse pkgs s = some (result, s')) :
    ∃ removed, Removes h conf s s' removed := by
  induction pkgs generalizing s with
  | nil =>
    cases hloop
    exact ⟨[], Removes.refl⟩
  | cons pkg pkgs ih =>
    obtain ⟨hpkg, hmore⟩ := List.forall_mem_cons.mp hready
    obtain ⟨⟨err, t⟩, hcall, hrest⟩ := Option.bind_eq_some_iff.mp hloop
    obtain ⟨first, hfirst⟩ := hrecurse pkg false s err t hpkg hcall
    simp only at hrest
    split at hrest
    · cases hrest
      exact ⟨first, hfirst⟩
    · obtain ⟨second, hsecond⟩ := ih (fun q hq => (hmore q hq).later hfirst fun _ => hforced) hrest
      exact ⟨first ++ second, hfirst.trans hsecond⟩

theorem removeAutoinstalled_removes {dependsStr : List (List Byte)}
    (hloop : removeAutoinstalled h recurse dependsStr s = some s') :
    ∃ removed, Removes h conf s s' removed := by
  apply removeAutoinstalled_rel (R := fun s s' => ∃ removed, Removes h conf s s' removed)
    _ _ _ _ hloop
  · exact fun s => ⟨[], Removes.refl⟩
  · rintro s t u ⟨first, hfirst⟩ ⟨second, hsecond⟩
    exact ⟨first ++ second, hfirst.trans hsecond⟩
  · exact fun s p => ⟨[], pkgHasInstalledDependents_removes h conf s p⟩
  · intro _ _ p s result s' hfetch _ _ hcall
    exact hrecurse p false s result s' (Or.inl (pkgHashFetchInstalledByName_spec hfetch).1) hcall

theorem opkgRemoveDependentPkgs_removes (hforced : conf.forceRemovalOfDependentPackages = true)
    {pkg : P} {dependents : List A}
    (hcall : opkgRemoveDependentPkgs h recurse pkg dependents s = some (result, s')) :
    ∃ removed, Removes h conf s s' removed := by
  unfold opkgRemoveDependentPkgs at hcall
  split at hcall
  next =>
    cases hcall
    exact ⟨[], Removes.refl⟩
  next abPkg _ =>
    split at hcall
    · cases hcall
      exact ⟨[], Removes.refl⟩
    · have hready : ∀ s : RemoveState A P, ∀ q ∈ dependents.flatMap (dependentPkgs h s),
          Ready h conf s q := by
        intro s q hq
        obtain ⟨d, -, hqd⟩ := List.mem_flatMap.mp hq
        left
        rw [(mem_dependentPkgs hqd).1]
        rfl
      obtain ⟨removed, hremoved⟩ := removeEach_removes hrecurse hforced (hready _) hcall
      exact ⟨[] ++ removed, (dependenciesChecked_removes h conf s abPkg).trans hremoved⟩

theorem settleDependents_removes {pkg : P}
    (hsettle : settleDependents h recurse conf pkg s = some (result, s')) :
    ∃ removed, Removes h conf s s' removed ∧
      (conf.forceRemovalOfDependentPackages = false → removed = []) ∧
      (conf.NoForce → result = .ok → Allowed h s [] pkg) := by
  have hmarks := pkgHasInstalledDependents_removes h conf s pkg
  unfold settleDependents at hsettle
  split at hsettle
  next =>
    simp only at hsettle
    split at hsettle
    · split at hsettle
      next =>
        -- the dependents are reported and nothing happens
        cases hsettle
        refine ⟨[], hmarks, fun _ => rfl, ?_⟩
        intro _ hok
        cases hok
      next hforced =>
        have hforced : conf.forceRemovalOfDependentPackages = true := by
          simpa [userPrefersRemovingDependents] using hforced
        obtain ⟨removed, hremoved⟩ := opkgRemoveDependentPkgs_removes hrecurse hforced hsettle
        refine ⟨[] ++ removed, hmarks.trans hremoved, ?_, ?_⟩
        · intro hnone
          rw [hnone] at hforced
          cases hforced
        · intro hnone
          rw [hnone.2.2] at hforced
          cases hforced
    next hcount =>
      cases hsettle
      refine ⟨[], hmarks, fun _ => rfl, ?_⟩
      intro _ _
      right
      intro d hd hinstalled
      exact absurd hinstalled (count_eq_zero_iff.mp (not_not.mp hcount) d hd)
  next hnot =>
    cases hsettle
    refine ⟨[], Removes.refl, fun _ => rfl, ?_⟩
    intro hnone _
    left
    simpa [hnone.1] using hnot

theorem takeOut_settled_removes (hclean : conf.forceRemovalOfDependentPackages = true →
      ∀ p, h.tmpUnpackDir p = false ∧ h.localFilename p = false)
    {pkg : P} {parentPkg : A} (hparent : h.parent pkg = some parentPkg)
    (hready : Ready h conf s pkg)
    (hsettle : settleDependents h recurse conf pkg s = some (.ok, s')) :
    ∃ removed, Removes h conf s (takeOut h pkg parentPkg s') removed := by
  obtain ⟨before, hbefore, hnone, hallowed⟩ := settleDependents_removes hrecurse hsettle
  have hready' : Ready h conf s' pkg := by
    apply hready.later hbefore
    intro hmem
    by_contra hforced
    rw [hnone (Bool.eq_false_of_not_eq_true hforced)] at hmem
    cases hmem
  have hallowed' : conf.NoForce → Allowed h s' [] pkg := by
    intro hforce
    have hnothing := hnone hforce.2.2
    subst hnothing
    rcases hallowed hforce rfl with hreplace | hdependers
    · left
      rwa [hbefore.replace]
    · right
      intro d hd hinstalled
      apply hdependers d hd
      simpa using (hbefore.abStatus d).symm.trans hinstalled
  exact ⟨_, hbefore.trans
    (takeOut_removes hparent (fun hforced => hclean hforced pkg) hready' hallowed')⟩

theorem removeBody_removes (hclean : conf.forceRemovalOfDependentPackages = true →
      ∀ p, h.tmpUnpackDir p = false ∧ h.localFilename p = false)
    {pkg : P} (hready : Ready h conf s pkg)
    (hcall : removeBody h recurse conf pkg message s = some (result, s')) :
    ∃ removed, Removes h conf s s' removed := by
  unfold removeBody at hcall
  split at hcall
  · cases hcall
    exact ⟨[], Removes.refl⟩
  split at hcall
  next =>
    cases hcall
    exact ⟨[], Removes.refl⟩
  next parentPkg hparent =>
    obtain ⟨⟨err, t⟩, hsettle, hrest⟩ := Option.bind_eq_some_iff.mp hcall
    simp only at hrest
    split at hrest
    · cases hrest
      obtain ⟨before, hbefore, -⟩ := settleDependents_removes hrecurse hsettle
      exact ⟨before, hbefore⟩
    next herr =>
      rw [not_not.mp herr] at hsettle
      obtain ⟨removed, hremoved⟩ :=
        takeOut_settled_removes hrecurse hclean hparent hready hsettle
      split at hrest
      · obtain ⟨u, hauto, hret⟩ := Option.bind_eq_some_iff.mp hrest
        cases hret
        obtain ⟨after, hafter⟩ := removeAutoinstalled_removes hrecurse hauto
        exact ⟨removed ++ after, hremoved.trans hafter⟩
      · cases hrest
        exact ⟨removed, hremoved⟩

theorem removeBody_gone {pkg : P} (hparent : h.parent pkg ≠ none)
    (hcall : removeBody h recurse conf pkg message s = some (.ok, s')) :
    s'.pkgStatus pkg = .notInstalled := by
  unfold removeBody at hcall
  split at hcall
  · cases hcall
  split at hcall
  next hnone => exact absurd hnone hparent
  next parentPkg _ =>
    obtain ⟨⟨err, t⟩, -, hrest⟩ := Option.bind_eq_some_iff.mp hcall
    have hgone : (takeOut h pkg parentPkg t).pkgStatus pkg = .notInstalled := by
      rw [(takeOut_fields pkg parentPkg t).1, Function.update_self]
    simp only at hrest
    split at hrest
    next herr =>
      cases hrest
      exact absurd rfl herr
    next =>
      split at hrest
      · obtain ⟨u, hauto, hret⟩ := Option.bind_eq_some_iff.mp hrest
        cases hret
        obtain ⟨after, hafter⟩ := removeAutoinstalled_removes hrecurse hauto
        rw [hafter.pkgStatus, hgone, ite_self]
      · cases hrest
        exact hgone

end Calls

/-- **One call of `opkg_remove_pkg`.** Whatever depth it is followed to. -/
theorem opkgRemovePkg_removes (hclean : conf.forceRemovalOfDependentPackages = true →
      ∀ p, h.tmpUnpackDir p = false ∧ h.localFilename p = false) (depth : ℕ) :
    CallsRemove h conf (opkgRemovePkg h conf depth) := by
  induction depth with
  | zero =>
    intro pkg message s result s' _ hcall
    cases hcall
  | succ depth ih =>
    intro pkg message s result s' hready hcall
    exact removeBody_removes ih hclean hready hcall

theorem opkgRemovePkg_gone (hclean : conf.forceRemovalOfDependentPackages = true →
      ∀ p, h.tmpUnpackDir p = false ∧ h.localFilename p = false)
    {depth : ℕ} (hparent : h.parent pkg ≠ none)
    (hcall : opkgRemovePkg h conf depth pkg message s = some (.ok, s')) :
    s'.pkgStatus pkg = .notInstalled := by
  cases depth with
  | zero => cases hcall
  | succ depth => exact removeBody_gone (opkgRemovePkg_removes hclean depth) hparent hcall

section Keeps

structure RemovalRelation (h : RemoveHash A P)
    (R : RemoveState A P → RemoveState A P → Prop) : Prop where
  refl : ∀ s, R s s
  trans : ∀ s t u, R s t → R t u → R s u
  marks : ∀ s pkg, R s (pkgHasInstalledDependents h s pkg).2.2
  checked : ∀ s abPkg, R s
    { s with dependenciesChecked := Function.update s.dependenciesChecked abPkg 2 }
  takeOut : ∀ s pkg parentPkg, R s (takeOut h pkg parentPkg s)

def CallsKeep (R : RemoveState A P → RemoveState A P → Prop) (recurse : RemoveRecursion A P) :
    Prop :=
  ∀ pkg message s result s', recurse pkg message s = some (result, s') → R s s'

variable {R : RemoveState A P → RemoveState A P → Prop} (hR : RemovalRelation h R)
  {recurse : RemoveRecursion A P} (hrecurse : CallsKeep R recurse)

include hR hrecurse

theorem removeEach_keeps {pkgs : List P}
    (hloop : removeEach recurse pkgs s = some (result, s')) : R s s' := by
  induction pkgs generalizing s with
  | nil =>
    cases hloop
    exact hR.refl _
  | cons pkg pkgs ih =>
    obtain ⟨⟨err, t⟩, hcall, hrest⟩ := Option.bind_eq_some_iff.mp hloop
    have hfirst := hrecurse pkg false s err t hcall
    simp only at hrest
    split at hrest
    · cases hrest
      exact hfirst
    · exact hR.trans s t s' hfirst (ih hrest)

theorem removeAutoinstalled_keeps {dependsStr : List (List Byte)}
    (hloop : removeAutoinstalled h recurse dependsStr s = some s') : R s s' :=
  removeAutoinstalled_rel hR.refl hR.trans hR.marks
    (fun _ _ p s result s' _ _ _ hcall => hrecurse p false s result s' hcall) hloop

theorem opkgRemoveDependentPkgs_keeps {pkg : P} {dependents : List A}
    (hcall : opkgRemoveDependentPkgs h recurse pkg dependents s = some (result, s')) :
    R s s' := by
  unfold opkgRemoveDependentPkgs at hcall
  split at hcall
  next =>
    cases hcall
    exact hR.refl _
  next abPkg _ =>
    split at hcall
    · cases hcall
      exact hR.refl _
    · exact hR.trans _ _ _ (hR.checked s abPkg) (removeEach_keeps hR hrecurse hcall)

theorem settleDependents_keeps {pkg : P}
    (hsettle : settleDependents h recurse conf pkg s = some (result, s')) : R s s' := by
  have hmarks := hR.marks s pkg
  unfold settleDependents at hsettle
  split at hsettle
  · simp only at hsettle
    split at hsettle
    · split at hsettle
      · cases hsettle
        exact hmarks
      · exact hR.trans _ _ _ hmarks (opkgRemoveDependentPkgs_keeps hR hrecurse hsettle)
    · cases hsettle
      exact hmarks
  · cases hsettle
    exact hR.refl _

theorem removeBody_keeps : CallsKeep R (removeBody h recurse conf) := by
  intro pkg message s result s' hcall
  unfold removeBody at hcall
  split at hcall
  · cases hcall
    exact hR.refl _
  split at hcall
  next =>
    cases hcall
    exact hR.refl _
  next parentPkg _ =>
    obtain ⟨⟨err, t⟩, hsettle, hrest⟩ := Option.bind_eq_some_iff.mp hcall
    have hbefore := settleDependents_keeps hR hrecurse hsettle
    simp only at hrest
    split at hrest
    · cases hrest
      exact hbefore
    have htaken := hR.trans _ _ _ hbefore (hR.takeOut t pkg parentPkg)
    split at hrest
    · obtain ⟨u, hauto, hret⟩ := Option.bind_eq_some_iff.mp hrest
      cases hret
      exact hR.trans _ _ _ htaken (removeAutoinstalled_keeps hR hrecurse hauto)
    · cases hrest
      exact htaken

omit hrecurse in
theorem opkgRemovePkg_keeps (depth : ℕ) : CallsKeep R (opkgRemovePkg h conf depth) := by
  induction depth with
  | zero =>
    intro pkg message s result s' hcall
    cases hcall
  | succ depth ih => exact removeBody_keeps hR ih

end Keeps

end

end Openmoko.Opkg
