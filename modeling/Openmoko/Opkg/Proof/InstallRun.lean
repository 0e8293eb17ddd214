import Openmoko.Opkg.Install
import Openmoko.Opkg.Proof.RemoveRun

/-!
# What one call of `opkg_install_pkg` keeps

A relation of the state before to the state after that the few steps touching wants, owners and lists
of files keep holds of a whole call, with the installations and removals in it, wherever it ends.
-/

namespace Openmoko.Opkg

section Wants

variable {P : Type}

def StateWant.Settled (want : StateWant) : Prop := want = .install ∨ want = .deinstall

/-- A want that has changed is to install or to deinstall. -/
def SettlesWants (want want' : P → StateWant) : Prop :=
  ∀ p, want' p = want p ∨ (want' p).Settled

theorem SettlesWants.refl {want : P → StateWant} : SettlesWants want want := fun _ => Or.inl rfl

theorem SettlesWants.of_eq {want want' : P → StateWant} (hsame : want' = want) :
    SettlesWants want want' := by
  rw [hsame]
  exact SettlesWants.refl

theorem SettlesWants.trans {want want' want'' : P → StateWant} (hfirst : SettlesWants want want')
    (hsecond : SettlesWants want' want'') : SettlesWants want want'' := by
  intro p
  rcases hsecond p with hsame | hsettled
  · rw [hsame]
    exact hfirst p
  · exact Or.inr hsettled

variable [DecidableEq P]

theorem settlesWants_update (want : P → StateWant) (p : P) {new : StateWant}
    (hnew : new.Settled) : SettlesWants want (Function.update want p new) := by
  intro q
  by_cases hq : q = p
  · right
    rwa [hq, Function.update_self]
  · left
    exact Function.update_of_ne hq _ _

variable {pkgWant : P → StateWant}

theorem newWants_settled {pkg : P} {oldPkg : Option P} {p : P}
    (hp : p = pkg ∨ oldPkg = some p) : (newWants pkg oldPkg pkgWant p).Settled := by
  have hpkg : (Function.update pkgWant pkg .install pkg).Settled := by
    left
    exact Function.update_self _ _ _
  cases oldPkg with
  | none =>
    rcases hp with rfl | hold
    · exact hpkg
    · cases hold
  | some old =>
    by_cases hself : p = old
    · right
      rw [hself]
      exact Function.update_self _ _ _
    · rcases hp with rfl | hold
      · have hsame := Function.update_of_ne hself StateWant.deinstall
          (Function.update pkgWant p .install)
        change (Function.update (Function.update pkgWant p .install) old .deinstall p).Settled
        rwa [hsame]
      · exact absurd (Option.some.inj hold).symm hself

theorem newWants_of_ne {pkg : P} {oldPkg : Option P} {p : P}
    (hpkg : p ≠ pkg) (hold : oldPkg ≠ some p) : newWants pkg oldPkg pkgWant p = pkgWant p := by
  cases oldPkg with
  | none => exact Function.update_of_ne hpkg _ _
  | some old =>
    have hne : p ≠ old := by
      intro hself
      exact hold (congrArg some hself.symm)
    exact (Function.update_of_ne hne _ _).trans (Function.update_of_ne hpkg _ _)

theorem settlesWants_newWants {pkg : P} {oldPkg : Option P} :
    SettlesWants pkgWant (newWants pkg oldPkg pkgWant) := by
  intro p
  by_cases hp : p = pkg ∨ oldPkg = some p
  · exact Or.inr (newWants_settled hp)
  · left
    obtain ⟨hpkg, hold⟩ := not_or.mp hp
    exact newWants_of_ne hpkg hold

theorem takeOut_pkgWant {A : Type} [DecidableEq A] (rh : RemoveHash A P) (pkg : P) (parentPkg : A)
    (r : RemoveState A P) :
    (takeOut rh pkg parentPkg r).pkgWant = Function.update r.pkgWant pkg .deinstall := by
  have hscript : ∀ (script : MaintainerScript) (r : RemoveState A P),
      (pkgRunScript rh pkg script r).pkgWant = r.pkgWant := by
    intro script r
    unfold pkgRunScript
    split
    · rfl
    split <;> rfl
  have hfiles : ∀ r : RemoveState A P, (removeDataFilesAndList rh pkg r).pkgWant = r.pkgWant := by
    intro r
    unfold removeDataFilesAndList
    split
    · split <;> rfl
    · rfl
  unfold takeOut
  simp only [hscript, hfiles]

theorem removal_settlesWants {A : Type} [DecidableEq A] (rh : RemoveHash A P) :
    RemovalRelation rh fun r r' => SettlesWants r.pkgWant r'.pkgWant where
  refl _ := SettlesWants.refl
  trans _ _ _ := SettlesWants.trans
  marks _ _ := SettlesWants.refl
  checked _ _ := SettlesWants.refl
  takeOut r pkg parentPkg := by
    rw [takeOut_pkgWant]
    exact settlesWants_update _ _ (Or.inr rfl)

end Wants

/-! ### The steps -/

variable {err : Bool} {result : InstallResult}

section

variable {platform : Platform} {A P D W : Type} {h : InstallHash platform A P}
  {sys : System platform A P D W} {conf : InstallConf D} {qsort : Qsort P}
  {s s' t : InstallState platform A P D W} [DecidableEq P]

/-- Owners and lists of files are left alone. -/
structure Settles (s s' : InstallState platform A P D W) : Prop where
  wants : SettlesWants s.pkgWant s'.pkgWant
  fileHash : s'.fileHash = s.fileHash
  installedFiles : s'.installedFiles = s.installedFiles
  installedFilesRefCnt : s'.installedFilesRefCnt = s.installedFilesRefCnt

omit [DecidableEq P] in
theorem preinstConfigure_settles (pkg : P) (oldPkg : Option P)
    (s : InstallState platform A P D W) :
    Settles s (preinstConfigure sys conf pkg oldPkg s).2 := by
  unfold preinstConfigure
  split
  · exact ⟨SettlesWants.refl, rfl, rfl, rfl⟩
  split
  · exact ⟨SettlesWants.refl, rfl, rfl, rfl⟩
  split <;> exact ⟨SettlesWants.refl, rfl, rfl, rfl⟩

structure InstallRelation (sys : System platform A P D W) (conf : InstallConf D)
    (R : InstallState platform A P D W → InstallState platform A P D W → Prop) : Prop where
  trans : ∀ s t u, R s t → R t u → R s u
  settles : ∀ s s', Settles s s' → R s s'
  owner : ∀ fileName p s, R s (setFileOwner sys conf fileName p s)
  held : ∀ p s t, R (getInstalledFiles sys p s).2 t → R s (freeInstalledFiles sys p t)
  -- both lists are taken before the first is released
  both : ∀ old pkg s, R s (freeInstalledFiles sys pkg (freeInstalledFiles sys old
    (getInstalledFiles sys pkg (getInstalledFiles sys old s).2).2))

section Steps

variable {R : InstallState platform A P D W → InstallState platform A P D W → Prop}
  (hR : InstallRelation sys conf R)

include hR

namespace InstallRelation

theorem same (hwant : s'.pkgWant = s.pkgWant) (hhash : s'.fileHash = s.fileHash)
    (hfiles : s'.installedFiles = s.installedFiles)
    (hcnt : s'.installedFilesRefCnt = s.installedFilesRefCnt) : R s s' :=
  hR.settles s s' ⟨SettlesWants.of_eq hwant, hhash, hfiles, hcnt⟩

theorem refl (s : InstallState platform A P D W) : R s s := hR.same rfl rfl rfl rfl

theorem foldl {α : Type} {f : InstallState platform A P D W → α → InstallState platform A P D W}
    (hstep : ∀ s a, R s (f s a)) (l : List α) (s : InstallState platform A P D W) :
    R s (l.foldl f s) := by
  induction l generalizing s with
  | nil => exact hR.refl s
  | cons a l ih => exact hR.trans _ _ _ (hstep s a) (ih (f s a))

end InstallRelation

section

variable (pkg : P) (oldPkg : Option P) (s : InstallState platform A P D W)

theorem unpackPkgControlFiles_keeps : R s (unpackPkgControlFiles sys conf pkg s) := by
  unfold unpackPkgControlFiles
  split
  · exact hR.refl s
  dsimp only
  split <;> exact hR.same rfl rfl rfl rfl

theorem takeFile_keeps (newPkg : P) (oldPkg : Option P) (s : InstallState platform A P D W)
    (newFile : List Byte) : R s (takeFile sys conf newPkg oldPkg s newFile).2 := by
  unfold takeFile
  dsimp only
  split
  · exact hR.owner newFile newPkg s
  · exact hR.refl s

theorem markObsolete_keeps (old : P) (s : InstallState platform A P D W) (oldFile : List Byte) :
    R s (markObsolete sys old s oldFile) := by
  unfold markObsolete
  split
  · exact hR.same rfl rfl rfl rfl
  · exact hR.refl s

theorem updateFileOwnership_keeps (newPkg : P) (oldPkg : Option P)
    (s : InstallState platform A P D W) : R s (updateFileOwnership sys conf newPkg oldPkg s) := by
  apply hR.held
  have htaken : R (getInstalledFiles sys newPkg s).2
      (walkList (takeFile sys conf newPkg oldPkg) [] [] (getInstalledFiles sys newPkg s).1
        (getInstalledFiles sys newPkg s).2) :=
    walkList_preserves hR.refl hR.trans (fun s newFile _ =>
      takeFile_keeps hR newPkg oldPkg s newFile) _
  cases oldPkg with
  | none => exact htaken
  | some old =>
    exact hR.trans _ _ _ htaken (hR.held old _ _ (hR.foldl (markObsolete_keeps hR old) _ _))

theorem makeBackups_keeps (asks : NvPair → InstallState platform A P D W → Bool)
    (conffiles : List NvPair) (s : InstallState platform A P D W) :
    R s (makeBackups sys conf asks conffiles s).2 := by
  induction conffiles generalizing s with
  | nil => exact hR.refl s
  | cons conffile conffiles ih =>
    rw [makeBackups]
    split
    · dsimp only
      split
      · exact hR.same rfl rfl rfl rfl
      · refine hR.trans _ _ _ ?_ (ih _)
        exact hR.same rfl rfl rfl rfl
    · exact ih s

theorem backupModifiedConffiles_keeps : R s (backupModifiedConffiles sys conf pkg oldPkg s).2 := by
  unfold backupModifiedConffiles
  split
  · exact hR.refl s
  dsimp only
  split
  · exact makeBackups_keeps hR _ _ s
  · exact hR.trans _ _ _ (makeBackups_keeps hR _ _ s) (makeBackups_keeps hR _ _ _)

theorem removeOldPkg_keeps : R s (removeOldPkg sys conf pkg oldPkg s) := by
  unfold removeOldPkg
  cases oldPkg with
  | none => exact hR.refl s
  | some old =>
    dsimp only
    split
    · exact hR.refl s
    have hwant : R s { s with pkgWant := Function.update s.pkgWant old .deinstall } :=
      hR.settles _ _ ⟨settlesWants_update _ _ (Or.inr rfl), rfl, rfl, rfl⟩
    refine hR.trans _ _ _ hwant (hR.trans _ _ _ ?_ (hR.trans _ _ _
      (hR.held old _ _ (hR.refl _)) (hR.same rfl rfl rfl rfl)))
    split
    · exact hR.refl _
    · exact hR.both old pkg _

theorem installDataFiles_keeps : R s (installDataFiles sys pkg s) := by
  unfold installDataFiles
  dsimp only
  split <;> exact hR.same rfl rfl rfl rfl

theorem resolveConffiles_keeps : R s (resolveConffiles sys conf pkg s) := by
  unfold resolveConffiles
  apply hR.foldl
  intro t conffile
  exact hR.same rfl rfl rfl rfl

theorem markUnpacked_keeps : R s (markUnpacked conf pkg oldPkg s) := by
  unfold markUnpacked
  cases oldPkg with
  | none => exact hR.same rfl rfl rfl rfl
  | some old =>
    dsimp only
    split <;> exact hR.same rfl rfl rfl rfl

variable [DecidableEq A]

theorem markParent_keeps : R s (markParent h pkg s) := by
  unfold markParent
  split
  · exact hR.refl s
  · exact hR.same rfl rfl rfl rfl

theorem checkDataFileClash_keeps (clashes : ℕ × InstallState platform A P D W)
    (fileName : List Byte) :
    R clashes.2 (checkDataFileClash h sys conf pkg oldPkg clashes fileName).2.2 := by
  unfold checkDataFileClash
  dsimp only
  split
  · split
    · exact hR.refl _
    split
    · exact hR.owner fileName pkg _
    split <;> exact hR.refl _
  · exact hR.refl _

theorem checkDataFileClashes_keeps : R s (checkDataFileClashes h sys conf pkg oldPkg s).2 := by
  apply hR.held
  exact walkList_preserves (r := fun clashes clashes' => R clashes.2 clashes'.2)
    (fun _ => hR.refl _) (fun _ _ _ => hR.trans _ _ _)
    (fun clashes fileName _ => checkDataFileClash_keeps hR pkg oldPkg clashes fileName) (0, _)

theorem changeFileOwner_keeps (fileName : List Byte) :
    R s (changeFileOwner h sys conf pkg s fileName).2 := by
  unfold changeFileOwner
  dsimp only
  split
  · split
    · exact hR.owner fileName pkg s
    split
    · exact hR.owner fileName pkg s
    · exact hR.refl s
  · exact hR.refl s

theorem putInPlace_keeps : R s (putInPlace h sys conf pkg oldPkg s) := by
  have hchange (t : InstallState platform A P D W) :
      R t (checkDataFileClashesChange h sys conf pkg t) :=
    hR.held pkg _ _ (walkList_preserves hR.refl hR.trans
      (fun s fileName _ => changeFileOwner_keeps hR pkg s fileName) _)
  have hcleanup (t : InstallState platform A P D W) :
      R t (cleanupTemporaryFiles sys conf pkg t) := hR.same rfl rfl rfl rfl
  unfold putInPlace
  refine hR.trans _ _ _ ?_ (markParent_keeps hR pkg _)
  refine hR.trans _ _ _ ?_ (hcleanup _)
  refine hR.trans _ _ _ ?_ (markUnpacked_keeps hR pkg oldPkg _)
  refine hR.trans _ _ _ ?_ (resolveConffiles_keeps hR pkg _)
  refine hR.trans _ _ _ ?_ (hchange _)
  refine hR.trans _ _ _ ?_ (installDataFiles_keeps hR pkg _)
  exact hR.trans _ _ _ (removeOldPkg_keeps hR pkg oldPkg s) (hR.same rfl rfl rfl rfl)

end

variable [DecidableEq A]

theorem removePkg_keeps {depth : ℕ} {pkg : P} {err : RemoveResult}
    (hcall : removePkg h sys conf depth pkg s = some (err, s')) : R s s' := by
  obtain ⟨⟨result, r⟩, hremove, hrest⟩ := Option.bind_eq_some_iff.mp hcall
  cases hrest
  have hwants : SettlesWants s.pkgWant r.pkgWant :=
    opkgRemovePkg_keeps (removal_settlesWants _) depth pkg false _ _ r hremove
  refine hR.trans _ _ _ ?_ (hR.foldl ?_ _ _)
  · exact hR.settles _ _ ⟨hwants, rfl, rfl, rfl⟩
  · intro t event
    cases event with
    | runScript => exact hR.refl t
    | removeFiles p => exact hR.held p _ _ (hR.refl _)

theorem removeOrphans_keeps {depth : ℕ} {dependsStr : List (List Byte)}
    (hloop : removeOrphans h sys conf depth dependsStr s = some s') : R s s' := by
  induction dependsStr generalizing s with
  | nil =>
    cases hloop
    exact hR.refl _
  | cons dStr dependsStr ih =>
    rw [removeOrphans] at hloop
    split at hloop
    next => exact ih hloop
    next p _ =>
      split at hloop
      · have hmarks : R s { s with toRemoveState :=
            (pkgHasInstalledDependents (removeHash h s) s.toRemoveState p).2.2 } :=
          hR.same rfl rfl rfl rfl
        dsimp only at hloop
        split at hloop
        · obtain ⟨⟨err, t⟩, hremove, hrest⟩ := Option.bind_eq_some_iff.mp hloop
          exact hR.trans _ _ _ hmarks
            (hR.trans _ _ _ (removePkg_keeps hR hremove) (ih hrest))
        · exact hR.trans _ _ _ hmarks (ih hloop)
      · exact ih hloop

theorem pkgRemoveInstalledReplacees_keeps {depth : ℕ} {replacees : List P}
    (hloop : pkgRemoveInstalledReplacees h sys conf depth replacees s = some (err, s')) :
    R s s' := by
  induction replacees generalizing s with
  | nil =>
    cases hloop
    exact hR.refl _
  | cons replacee replacees ih =>
    have hflag : R s { s with
        pkgFlag := Function.update s.pkgFlag replacee (s.pkgFlag replacee ||| SF_REPLACE) } :=
      hR.same rfl rfl rfl rfl
    obtain ⟨⟨result, t⟩, hremove, hrest⟩ := Option.bind_eq_some_iff.mp hloop
    have hremoved := hR.trans _ _ _ hflag (removePkg_keeps hR hremove)
    dsimp only at hrest
    split at hrest
    · cases hrest
      exact hremoved
    · exact hR.trans _ _ _ hremoved (ih hrest)

/-! ### The whole call -/

section Calls

def InstallCallsKeep (R : InstallState platform A P D W → InstallState platform A P D W → Prop)
    (recurse : InstallRecursion platform A P D W) : Prop :=
  ∀ pkg s result s', recurse pkg s = some (result, s') → R s s'

variable {recurse : InstallRecursion platform A P D W} (hrecurse : InstallCallsKeep R recurse)
  {depth : ℕ} {pkg : P} {oldPkg : Option P}

include hrecurse

omit [DecidableEq A] in
theorem installEach_keeps {depends : List P}
    (hloop : installEach recurse depends s = some (err, s')) : R s s' := by
  induction depends generalizing s with
  | nil =>
    cases hloop
    exact hR.refl _
  | cons dep depends ih =>
    rw [installEach] at hloop
    split at hloop
    · exact ih hloop
    · obtain ⟨⟨result, t⟩, hcall, hrest⟩ := Option.bind_eq_some_iff.mp hloop
      have hinstalled : R s
          { t with autoInstalled := Function.update t.autoInstalled dep true } :=
        hR.trans _ _ _ (hrecurse dep s result t hcall) (hR.same rfl rfl rfl rfl)
      dsimp only at hrest
      split at hrest
      · cases hrest
        exact hinstalled
      · exact hR.trans _ _ _ hinstalled (ih hrest)

omit hrecurse [DecidableEq A] in
theorem markToBeInstalled_keeps (pkg : P) (depends : List P) (s : InstallState platform A P D W) :
    R s (depends.foldl (markToBeInstalled pkg) s) := by
  apply hR.foldl
  intro t dep
  exact hR.settles _ _ ⟨settlesWants_update _ _ (Or.inl rfl), rfl, rfl, rfl⟩

theorem satisfyDependenciesFor_keeps
    (hcall : satisfyDependenciesFor h conf qsort recurse depth pkg s = some (err, s')) :
    R s s' := by
  obtain ⟨⟨unresolved, ndepends, depends, t⟩, hfetch, hrest⟩ := Option.bind_eq_some_iff.mp hcall
  have hmarks : R s t := by
    obtain ⟨⟨progress, n⟩, -, hfetched⟩ := Option.bind_eq_some_iff.mp hfetch
    cases hfetched
    exact hR.same rfl rfl rfl rfl
  dsimp only at hrest
  split at hrest
  · cases hrest
    exact hmarks
  split at hrest
  · cases hrest
    exact hmarks
  · exact hR.trans _ _ _ hmarks (hR.trans _ _ _ (markToBeInstalled_keeps hR pkg depends t)
      (installEach_keeps hR hrecurse hrest))

variable {replacees : List P}

omit [DecidableEq A] in
theorem pkgRemoveInstalledReplaceesUnwind_keeps
    (hloop : pkgRemoveInstalledReplaceesUnwind recurse replacees s = some s') : R s s' := by
  induction replacees generalizing s with
  | nil =>
    cases hloop
    exact hR.refl _
  | cons replacee replacees ih =>
    rw [pkgRemoveInstalledReplaceesUnwind] at hloop
    split at hloop
    · exact ih hloop
    · obtain ⟨⟨result, t⟩, hcall, hrest⟩ := Option.bind_eq_some_iff.mp hloop
      have hinstalled := hrecurse replacee s result t hcall
      dsimp only at hrest
      split at hrest
      · cases hrest
        exact hinstalled
      · exact hR.trans _ _ _ hinstalled (ih hrest)

omit [DecidableEq A] in
theorem unwindInstall_keeps {label : Unwind}
    (hcall : unwindInstall sys conf recurse label pkg oldPkg replacees s = some (result, s')) :
    R s s' := by
  obtain ⟨t, hunwind, hrest⟩ := Option.bind_eq_some_iff.mp hcall
  cases hrest
  have hcleanup : R t (cleanupTemporaryFiles sys conf pkg t) := hR.same rfl rfl rfl rfl
  refine hR.trans _ _ _ ?_ (hR.trans _ _ _
    (pkgRemoveInstalledReplaceesUnwind_keeps hR hrecurse hunwind) hcleanup)
  cases label with
  | removeInstalledReplacees => exact hR.refl s
  | backupModifiedConffiles => exact hR.same rfl rfl rfl rfl

theorem replaceAndInstall_keeps
    (hcall : replaceAndInstall h sys conf recurse depth pkg oldPkg replacees s =
      some (result, s')) : R s s' := by
  obtain ⟨⟨err, t⟩, hreplacees, hrest⟩ := Option.bind_eq_some_iff.mp hcall
  have hremoved := pkgRemoveInstalledReplacees_keeps hR hreplacees
  dsimp only at hrest
  split at hrest
  · exact hR.trans _ _ _ hremoved (unwindInstall_keeps hR hrecurse hrest)
  have hpreinst : R s (preinstConfigure sys conf pkg oldPkg t).2 :=
    hR.trans _ _ _ hremoved (hR.settles _ _ (preinstConfigure_settles pkg oldPkg t))
  split at hrest
  · exact hR.trans _ _ _ hpreinst (unwindInstall_keeps hR hrecurse hrest)
  have hbackup := hR.trans _ _ _ hpreinst (backupModifiedConffiles_keeps hR pkg oldPkg _)
  split at hrest
  · exact hR.trans _ _ _ hbackup (unwindInstall_keeps hR hrecurse hrest)
  have hclashes := hR.trans _ _ _ hbackup (checkDataFileClashes_keeps (h := h) hR pkg oldPkg _)
  split at hrest
  · exact hR.trans _ _ _ hclashes (unwindInstall_keeps hR hrecurse hrest)
  split at hrest
  · cases hrest
    exact hclashes
  · cases hrest
    exact hR.trans _ _ _ hclashes (putInPlace_keeps hR pkg oldPkg _)

theorem unpackAndInstall_keeps
    (hcall : unpackAndInstall h sys conf qsort recurse depth pkg oldPkg s = some (result, s')) :
    R (updateFileOwnership sys conf pkg oldPkg (unpackPkgControlFiles sys conf pkg s)) s' := by
  obtain ⟨⟨err, t⟩, hsatisfy, hrest⟩ := Option.bind_eq_some_iff.mp hcall
  have hdepends :
      R (updateFileOwnership sys conf pkg oldPkg (unpackPkgControlFiles sys conf pkg s)) t := by
    unfold satisfyUnlessNodeps at hsatisfy
    split at hsatisfy
    · cases hsatisfy
      exact hR.refl _
    · exact satisfyDependenciesFor_keeps hR hrecurse hsatisfy
  dsimp only at hrest
  split at hrest
  · cases hrest
    exact hdepends
  · obtain ⟨u, horphans, hinstall⟩ := Option.bind_eq_some_iff.mp hrest
    refine hR.trans _ _ _ hdepends (hR.trans _ _ _ ?_ (replaceAndInstall_keeps hR hrecurse hinstall))
    have hflag : R t
        { t with
          stateChanged := t.stateChanged + 1
          pkgFlag := Function.update t.pkgFlag pkg (t.pkgFlag pkg ||| SF_FILELIST_CHANGED) } :=
      hR.same rfl rfl rfl rfl
    refine hR.trans _ _ _ hflag ?_
    unfold pkgRemoveOrphanDependent at horphans
    cases oldPkg with
    | none =>
      cases horphans
      exact hR.refl _
    | some old => exact removeOrphans_keeps hR horphans

end Calls

end Steps

section Refusal

structure SameRecords (s s' : InstallState platform A P D W) : Prop where
  pkgWant : s'.pkgWant = s.pkgWant
  pkgStatus : s'.pkgStatus = s.pkgStatus
  pkgFlag : s'.pkgFlag = s.pkgFlag
  fileHash : s'.fileHash = s.fileHash
  installedFiles : s'.installedFiles = s.installedFiles
  installedFilesRefCnt : s'.installedFilesRefCnt = s.installedFilesRefCnt

omit [DecidableEq P] in
theorem SameRecords.refl : SameRecords s s := ⟨rfl, rfl, rfl, rfl, rfl, rfl⟩

omit [DecidableEq P] in
theorem SameRecords.trans (hfirst : SameRecords s t) (hsecond : SameRecords t s') :
    SameRecords s s' :=
  ⟨hsecond.pkgWant.trans hfirst.pkgWant, hsecond.pkgStatus.trans hfirst.pkgStatus,
    hsecond.pkgFlag.trans hfirst.pkgFlag, hsecond.fileHash.trans hfirst.fileHash,
    hsecond.installedFiles.trans hfirst.installedFiles,
    hsecond.installedFilesRefCnt.trans hfirst.installedFilesRefCnt⟩

theorem SameRecords.setWants {pkg : P} {oldPkg : Option P} (hsame : SameRecords s s') :
    SameRecords (Opkg.setWants pkg oldPkg s) (Opkg.setWants pkg oldPkg s') :=
  ⟨congrArg (newWants pkg oldPkg) hsame.pkgWant, hsame.pkgStatus, hsame.pkgFlag, hsame.fileHash,
    hsame.installedFiles, hsame.installedFilesRefCnt⟩

variable {pkg : P} {oldPkg : Option P}

variable (conf) in
theorem withDefaultDest_same (pkg : P) (s : InstallState platform A P D W) :
    SameRecords s (withDefaultDest conf pkg s) := by
  unfold withDefaultDest
  split
  · exact ⟨rfl, rfl, rfl, rfl, rfl, rfl⟩
  · exact SameRecords.refl

theorem opkgInstallCheckDowngrade_same
    (hcheck : opkgInstallCheckDowngrade h conf pkg oldPkg s = some s') : SameRecords s s' := by
  unfold opkgInstallCheckDowngrade at hcheck
  cases oldPkg with
  | none =>
    cases hcheck
    exact SameRecords.refl
  | some old =>
    simp only at hcheck
    split at hcheck
    · cases hcheck
    split at hcheck
    · cases hcheck
      exact ⟨rfl, rfl, rfl, rfl, rfl, rfl⟩
    · cases hcheck

theorem fetchArchive_same (pkg : P) (s : InstallState platform A P D W) :
    SameRecords s (fetchArchive h sys conf pkg s).2 := by
  unfold fetchArchive
  split
  · unfold opkgDownloadPkg
    split
    · exact SameRecords.refl
    · exact ⟨rfl, rfl, rfl, rfl, rfl, rfl⟩
  · exact SameRecords.refl

variable (h sys conf) in
theorem checkInstallable_same (pkg : P) (s : InstallState platform A P D W) :
    SameRecords s (checkInstallable h sys conf pkg s).2 := by
  have hdownload : SameRecords s (fetchArchive h sys conf pkg s).2 := fetchArchive_same pkg s
  unfold checkInstallable
  split
  · exact SameRecords.refl
  split
  · exact SameRecords.refl
  split
  · exact SameRecords.refl
  simp only
  split
  · exact hdownload
  split
  · exact hdownload
  split <;> exact hdownload

variable (sys conf) in
theorem unpackPkgControlFiles_same (pkg : P) (s : InstallState platform A P D W) :
    SameRecords s (unpackPkgControlFiles sys conf pkg s) := by
  unfold unpackPkgControlFiles
  split
  · exact SameRecords.refl
  simp only
  split <;> exact ⟨rfl, rfl, rfl, rfl, rfl, rfl⟩

theorem installedPkg_withDefaultDest (pkg : P) (s : InstallState platform A P D W) :
    installedPkg h pkg (withDefaultDest conf pkg s) = installedPkg h pkg s := by
  unfold withDefaultDest
  split <;> rfl

theorem fetchUnsatisfied_same [DecidableEq A] {depth : ℕ} {unresolved : Bool} {ndepends : ℕ}
    {depends : List P}
    (hfetch : fetchUnsatisfied h qsort depth pkg s = some (unresolved, ndepends, depends, s')) :
    SameRecords s s' := by
  obtain ⟨⟨progress, n⟩, -, hrest⟩ := Option.bind_eq_some_iff.mp hfetch
  cases hrest
  exact ⟨rfl, rfl, rfl, rfl, rfl, rfl⟩

end Refusal

section Whole

variable [DecidableEq A] {depth : ℕ} {pkg : P}

theorem installBody_cases {recurse : InstallRecursion platform A P D W}
    (hcall : installBody h sys conf qsort recurse depth pkg s = some (result, s')) :
    pkgArchSupported h conf pkg = false ∧ result = .internal ∧ s' = s ∨
    pkgArchSupported h conf pkg = true ∧ alreadyInstalled conf pkg s = true ∧
      (∃ err, satisfyDependenciesFor h conf qsort recurse depth pkg s = some (err, s') ∧
        result = if err then .dependencies else .ok) ∨
    pkgArchSupported h conf pkg = true ∧ alreadyInstalled conf pkg s = false ∧
      (opkgInstallCheckDowngrade h conf pkg (installedPkg h pkg s) (withDefaultDest conf pkg s) =
          none ∧ result = .noDowngrade ∧ s' = withDefaultDest conf pkg s ∨
        ∃ u, opkgInstallCheckDowngrade h conf pkg (installedPkg h pkg s)
            (withDefaultDest conf pkg s) = some u ∧
          (checkInstallable h sys conf pkg (setWants pkg (installedPkg h pkg s) u) =
              (some result, s') ∨
            ∃ t, checkInstallable h sys conf pkg (setWants pkg (installedPkg h pkg s) u) =
                (none, t) ∧
              unpackAndInstall h sys conf qsort recurse depth pkg (installedPkg h pkg s) t =
                some (result, s'))) := by
  unfold installBody at hcall
  split at hcall
  next harch =>
    cases hcall
    exact Or.inl ⟨by simpa using harch, rfl, rfl⟩
  next harch =>
    have harch : pkgArchSupported h conf pkg = true := by simpa using harch
    right
    split at hcall
    next hinstalled =>
      obtain ⟨⟨err, t⟩, hsatisfy, hrest⟩ := Option.bind_eq_some_iff.mp hcall
      cases hrest
      exact Or.inl ⟨harch, hinstalled, err, hsatisfy, rfl⟩
    next hinstalled =>
      refine Or.inr ⟨harch, Bool.eq_false_of_not_eq_true hinstalled, ?_⟩
      simp only [installedPkg_withDefaultDest] at hcall
      split at hcall
      next hcheck =>
        cases hcall
        exact Or.inl ⟨hcheck, rfl, rfl⟩
      next u hcheck =>
        refine Or.inr ⟨u, hcheck, ?_⟩
        split at hcall
        next r t hrefused =>
          cases hcall
          exact Or.inl hrefused
        next t hpassed => exact Or.inr ⟨t, hpassed, hcall⟩

omit [DecidableEq A] in
theorem setWants_same {u : InstallState platform A P D W} {answer : Option InstallResult}
    (hcheck : opkgInstallCheckDowngrade h conf pkg (installedPkg h pkg s)
      (withDefaultDest conf pkg s) = some u)
    (hinstallable : checkInstallable h sys conf pkg (setWants pkg (installedPkg h pkg s) u) =
      (answer, t)) :
    SameRecords (setWants pkg (installedPkg h pkg s) s) t := by
  have hsame := checkInstallable_same h sys conf pkg (setWants pkg (installedPkg h pkg s) u)
  rw [hinstallable] at hsame
  exact ((withDefaultDest_same conf pkg s).trans
    (opkgInstallCheckDowngrade_same hcheck)).setWants.trans hsame

variable {R : InstallState platform A P D W → InstallState platform A P D W → Prop}
  (hR : InstallRelation sys conf R)

include hR

omit [DecidableEq A] in
theorem InstallRelation.of_same (hsame : SameRecords s s') : R s s' :=
  hR.same hsame.pkgWant hsame.fileHash hsame.installedFiles hsame.installedFilesRefCnt

omit [DecidableEq A] in
theorem setWants_keeps (oldPkg : Option P) (hsame : SameRecords (setWants pkg oldPkg s) s') :
    R s s' :=
  hR.trans s (setWants pkg oldPkg s) s'
    (hR.settles _ _ ⟨settlesWants_newWants, rfl, rfl, rfl⟩) (hR.of_same hsame)

theorem installBody_keeps {recurse : InstallRecursion platform A P D W}
    (hrecurse : InstallCallsKeep R recurse) :
    InstallCallsKeep R (installBody h sys conf qsort recurse depth) := by
  intro pkg s result s' hcall
  rcases installBody_cases hcall with ⟨-, -, rfl⟩ | ⟨-, -, err, hsatisfy, -⟩ | ⟨-, -, hrest⟩
  · exact hR.refl _
  · exact satisfyDependenciesFor_keeps hR hrecurse hsatisfy
  rcases hrest with ⟨-, -, rfl⟩ | ⟨u, hcheck, hrefused | ⟨t, hpassed, hinstall⟩⟩
  · exact hR.of_same (withDefaultDest_same conf pkg s)
  · exact setWants_keeps hR _ (setWants_same hcheck hrefused)
  · refine hR.trans _ _ _ (setWants_keeps hR _ (setWants_same hcheck hpassed)) ?_
    refine hR.trans _ _ _ ?_ (unpackAndInstall_keeps hR hrecurse hinstall)
    exact hR.trans _ _ _ (unpackPkgControlFiles_keeps hR pkg t)
      (updateFileOwnership_keeps hR pkg _ _)

theorem opkgInstallPkg_keeps (depth : ℕ) :
    InstallCallsKeep R (opkgInstallPkg h sys conf qsort depth) := by
  induction depth with
  | zero =>
    intro pkg s result s' hcall
    cases hcall
  | succ depth ih => exact installBody_keeps hR ih

end Whole

end

end Openmoko.Opkg
