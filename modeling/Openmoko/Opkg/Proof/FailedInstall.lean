import Openmoko.Opkg.Proof.ConstraintAgreement
import Openmoko.Opkg.Proof.InstallRun

/-!
# What a failed installation leaves behind

`opkg_install_pkg` sets `state_want` of the new and of the old package before its checks and takes over
the files after them, and sets neither back. A call that is refused leaves no trace where what it sets
was so already, as it is when the same call has failed before; any other has left its mark.
-/

namespace Openmoko.Opkg

variable {fileName : List Byte}

section

variable {platform : Platform} {A P D W : Type} {h : InstallHash platform A P}
  {sys : System platform A P D W} {conf : InstallConf D} {qsort : Qsort P}
  {s s' t u : InstallState platform A P D W}

structure MovesOn (s s' : InstallState platform A P D W) : Prop where
  wants : SettlesWants s.pkgWant s'.pkgWant
  owned : ∀ fileName, s.fileHash.get fileName ≠ none → s'.fileHash.get fileName ≠ none

namespace MovesOn

theorem refl : MovesOn s s := ⟨SettlesWants.refl, fun _ => id⟩

theorem trans (hfirst : MovesOn s t) (hsecond : MovesOn t s') : MovesOn s s' where
  wants := hfirst.wants.trans hsecond.wants
  owned fileName howned := hsecond.owned fileName (hfirst.owned fileName howned)

end MovesOn

section Steps

variable [DecidableEq P]

theorem setFileOwner_movesOn (fileName : List Byte) (p : P) (s : InstallState platform A P D W) :
    MovesOn s (setFileOwner sys conf fileName p s) where
  wants := SettlesWants.refl
  owned other howned := by
    have hinsert : ∀ key, (s.fileHash.insert key p).get other ≠ none := by
      intro key
      rw [HashTable.get_insert]
      split
      · exact Option.some_ne_none p
      · exact howned
    change (fileHashSetFileOwner conf.offlineRoot (fileState sys s) fileName p).fileHash.get other
      ≠ none
    unfold fileHashSetFileOwner
    simp only
    split
    · exact howned
    split
    · exact hinsert _
    · exact hinsert _

theorem movesOn_installRelation : InstallRelation sys conf MovesOn where
  trans _ _ _ := MovesOn.trans
  settles s s' hs := ⟨hs.wants, fun fileName howned => by rwa [hs.fileHash]⟩
  owner := setFileOwner_movesOn
  held _ _ _ hbetween := ⟨hbetween.wants, hbetween.owned⟩
  both _ _ _ := ⟨SettlesWants.refl, fun _ => id⟩

variable {newPkg : P}

theorem takeFile_taken {oldPkg : Option P} (hold : oldPkg ≠ some newPkg)
    (s : InstallState platform A P D W) (fileName : List Byte) :
    (takeFile sys conf newPkg oldPkg s fileName).1 = none := by
  unfold takeFile
  dsimp only
  split
  next howner =>
    rw [setListedFileOwner, if_neg]
    rintro ⟨-, hself⟩
    rcases howner with hnone | hsame
    · rw [hself] at hnone
      cases hnone
    · exact hold (hsame.symm.trans hself)
  next => rfl

theorem takeFile_takes {oldPkg : Option P}
    (hdir : isDirName fileName = false) (hnone : s.fileHash.get fileName = none) :
    (takeFile sys conf newPkg oldPkg s fileName).2.fileHash.get
      (withoutOfflineRoot conf.offlineRoot fileName) = some newPkg := by
  have howner : fileHashGetFileOwner (fileState sys s) fileName = none := hnone
  have hset : (setFileOwner sys conf fileName newPkg s).fileHash =
      s.fileHash.insert (withoutOfflineRoot conf.offlineRoot fileName) newPkg := by
    change (fileHashSetFileOwner conf.offlineRoot (fileState sys s) fileName newPkg).fileHash = _
    have hget : (fileState sys s).fileHash.get fileName = none := hnone
    simp only [fileHashSetFileOwner, hget, hdir, Bool.false_eq_true, if_false]
    rfl
  rw [takeFile]
  simp only [howner, true_or, if_true]
  rw [setListedFileOwner, hset, HashTable.get_insert, if_pos rfl]

theorem foldl_takeFile_takes {oldPkg : Option P} {files : List (List Byte)}
    (hmem : fileName ∈ files) (hdir : isDirName fileName = false)
    (hnone : s.fileHash.get fileName = none)
    (hroot : s.fileHash.get (withoutOfflineRoot conf.offlineRoot fileName) = none) :
    ∃ name, s.fileHash.get name = none ∧
      (files.foldl (fun s newFile => (takeFile sys conf newPkg oldPkg s newFile).2)
        s).fileHash.get name ≠ none := by
  have hR : InstallRelation sys conf MovesOn := movesOn_installRelation
  induction files generalizing s with
  | nil => cases hmem
  | cons other files ih =>
    have hstep := takeFile_keeps hR newPkg oldPkg s other
    have hrest := hR.foldl (takeFile_keeps hR newPkg oldPkg) files
      (takeFile sys conf newPkg oldPkg s other).2
    by_cases hfile : (takeFile sys conf newPkg oldPkg s other).2.fileHash.get fileName = none
    · by_cases hstripped : (takeFile sys conf newPkg oldPkg s other).2.fileHash.get
          (withoutOfflineRoot conf.offlineRoot fileName) = none
      · rcases List.mem_cons.mp hmem with rfl | hmem
        · rw [takeFile_takes hdir hnone] at hstripped
          cases hstripped
        · obtain ⟨name, hname, howned⟩ := ih hmem hfile hstripped
          refine ⟨name, ?_, howned⟩
          by_contra hbefore
          exact hstep.owned name hbefore hname
      · exact ⟨_, hroot, hrest.owned _ hstripped⟩
    · exact ⟨fileName, hnone, hrest.owned fileName hfile⟩

theorem updateFileOwnership_takes {oldPkg : Option P} (hold : oldPkg ≠ some newPkg)
    (hmem : fileName ∈ (fileState sys s).files newPkg)
    (hdir : isDirName fileName = false) (hnone : s.fileHash.get fileName = none)
    (hroot : s.fileHash.get (withoutOfflineRoot conf.offlineRoot fileName) = none) :
    ∃ name, s.fileHash.get name = none ∧
      (updateFileOwnership sys conf newPkg oldPkg s).fileHash.get name ≠ none := by
  have hR : InstallRelation sys conf MovesOn := movesOn_installRelation
  obtain ⟨name, hname, howned⟩ : ∃ name, s.fileHash.get name = none ∧
      (walkList (takeFile sys conf newPkg oldPkg) [] [] (getInstalledFiles sys newPkg s).1
        (getInstalledFiles sys newPkg s).2).fileHash.get name ≠ none := by
    rw [walkList_eq_foldl fun s fileName _ => takeFile_taken hold s fileName]
    exact foldl_takeFile_takes (s := (getInstalledFiles sys newPkg s).2) hmem hdir hnone hroot
  refine ⟨name, hname, ?_⟩
  unfold updateFileOwnership
  cases oldPkg with
  | none => exact howned
  | some old =>
    exact (hR.held old _ _ (hR.foldl (markObsolete_keeps hR old) _ _)).owned name howned

end Steps

/-! ### What is left alone -/

structure LeavesAlone (s s' : InstallState platform A P D W) : Prop where
  pkgWant : s'.pkgWant = s.pkgWant
  pkgStatus : s'.pkgStatus = s.pkgStatus
  pkgFlag : s'.pkgFlag = s.pkgFlag
  owner : ∀ fileName, s'.fileHash.get fileName = s.fileHash.get fileName

theorem LeavesAlone.refl : LeavesAlone s s := ⟨rfl, rfl, rfl, fun _ => rfl⟩

theorem LeavesAlone.trans (hfirst : LeavesAlone s t) (hsecond : LeavesAlone t s') :
    LeavesAlone s s' :=
  ⟨hsecond.pkgWant.trans hfirst.pkgWant, hsecond.pkgStatus.trans hfirst.pkgStatus,
    hsecond.pkgFlag.trans hfirst.pkgFlag,
    fun fileName => (hsecond.owner fileName).trans (hfirst.owner fileName)⟩

theorem LeavesAlone.of_same (hsame : SameRecords s s') : LeavesAlone s s' :=
  ⟨hsame.pkgWant, hsame.pkgStatus, hsame.pkgFlag, fun fileName => by rw [hsame.fileHash]⟩

def Marked (s : InstallState platform A P D W) (p : P) : Prop :=
  s.pkgFlag p &&& SF_FILELIST_CHANGED ≠ 0

theorem Marked.or_eq {p : P} (hmarked : Marked s p) :
    s.pkgFlag p ||| SF_FILELIST_CHANGED = s.pkgFlag p := by
  have hbit : (s.pkgFlag p).testBit 7 = true := by
    by_contra hclear
    have hand := Nat.and_two_pow (s.pkgFlag p) 7
    rw [Bool.eq_false_of_not_eq_true hclear] at hand
    exact hmarked (by simpa [SF_FILELIST_CHANGED] using hand)
  apply Nat.eq_of_testBit_eq
  intro i
  rw [Nat.testBit_or, show SF_FILELIST_CHANGED = 2 ^ 7 from rfl, Nat.testBit_two_pow]
  by_cases hi : 7 = i
  · rw [← hi, hbit, Bool.true_or]
  · rw [decide_eq_false hi, Bool.or_false]

section Files

theorem withFileState_alone {files : FileState platform P}
    (howner : ∀ fileName, files.fileHash.get fileName = s.fileHash.get fileName)
    (hmarked : ∀ p, (files.pkg p).filelistChanged = true → Marked s p) :
    LeavesAlone s (withFileState s files) where
  pkgWant := rfl
  pkgStatus := rfl
  pkgFlag := by
    funext p
    change (if (files.pkg p).filelistChanged then s.pkgFlag p ||| SF_FILELIST_CHANGED
      else s.pkgFlag p) = s.pkgFlag p
    split
    next hchanged => exact (hmarked p hchanged).or_eq
    next => rfl
  owner := howner

theorem marked_of_changed {p : P} (hchanged : ((fileState sys s).pkg p).filelistChanged = true) :
    Marked s p :=
  of_decide_eq_true (p := s.pkgFlag p &&& SF_FILELIST_CHANGED ≠ 0) hchanged

variable [DecidableEq P]

theorem FileState.modify_self (files : FileState platform P) (p : P) (f : PkgFiles → PkgFiles) :
    (files.modify p f).pkg p = f (files.pkg p) := Function.update_self p _ _

theorem FileState.modify_of_ne (files : FileState platform P) {p q : P} (f : PkgFiles → PkgFiles)
    (hq : q ≠ p) : (files.modify p f).pkg q = files.pkg q := Function.update_of_ne hq _ _

theorem filelistChanged_modify {p q : P} {f : PkgFiles → PkgFiles}
    (hf : ∀ pkg, (f pkg).filelistChanged = true → pkg.filelistChanged = true ∨ Marked s p)
    (hchanged : (((fileState sys s).modify p f).pkg q).filelistChanged = true) : Marked s q := by
  by_cases hq : q = p
  · subst hq
    rw [FileState.modify_self] at hchanged
    exact (hf _ hchanged).elim marked_of_changed id
  · rw [FileState.modify_of_ne _ _ hq] at hchanged
    exact marked_of_changed hchanged

variable (sys) in
theorem getInstalledFiles_alone (p : P) (s : InstallState platform A P D W) :
    LeavesAlone s (getInstalledFiles sys p s).2 :=
  withFileState_alone (fun _ => rfl) fun _ hchanged =>
    filelistChanged_modify (f := PkgFiles.getInstalledFiles) (fun _ h => Or.inl h) hchanged

variable (sys) in
theorem freeInstalledFiles_alone (p : P) (s : InstallState platform A P D W) :
    LeavesAlone s (freeInstalledFiles sys p s) := by
  refine withFileState_alone (fun _ => rfl) fun _ hchanged =>
    filelistChanged_modify (f := PkgFiles.freeInstalledFiles) (fun pkg h => Or.inl ?_) hchanged
  unfold PkgFiles.freeInstalledFiles at h
  dsimp only at h
  split at h <;> exact h

/-- The package has the file already, and if somebody owns it under its whole name, both have been
marked already. -/
def HasFile (conf : InstallConf D) (s : InstallState platform A P D W) (pkg : P)
    (fileName : List Byte) : Prop :=
  s.fileHash.get (withoutOfflineRoot conf.offlineRoot fileName) = some pkg ∧
    ∀ p, s.fileHash.get fileName = some p → Marked s p ∧ Marked s pkg

theorem setFileOwner_alone {pkg : P}
    (hhas : isDirName fileName = true ∨ HasFile conf s pkg fileName) :
    LeavesAlone s (setFileOwner sys conf fileName pkg s) := by
  apply withFileState_alone
  · intro other
    unfold fileHashSetFileOwner
    dsimp only
    split
    · rfl
    next hdir =>
    obtain ⟨hroot, -⟩ := hhas.resolve_left hdir
    have hinsert : (s.fileHash.insert (withoutOfflineRoot conf.offlineRoot fileName) pkg).get other =
        s.fileHash.get other := by
      rw [HashTable.get_insert]
      split
      next heq => rw [heq, hroot]
      next => rfl
    split <;> exact hinsert
  · intro p
    unfold fileHashSetFileOwner
    dsimp only
    split
    · exact marked_of_changed
    next hdir =>
    split
    · exact marked_of_changed
    next old hold =>
    obtain ⟨-, hmarked⟩ := hhas.resolve_left hdir
    obtain ⟨hmarkedOld, hmarkedPkg⟩ := hmarked old hold
    intro hchanged
    by_cases hpkg : p = pkg
    · rwa [hpkg]
    by_cases hp : p = old
    · rwa [hp]
    rw [FileState.modify_of_ne _ _ hpkg, FileState.modify_of_ne _ _ hp] at hchanged
    exact marked_of_changed hchanged

/-- The package takes over nothing: its files are directories, or belong to a package that is not the
old one, or it has them already. -/
def TakesNothing (sys : System platform A P D W) (conf : InstallConf D) (pkg : P)
    (oldPkg : Option P) (s : InstallState platform A P D W) : Prop :=
  ∀ fileName ∈ (fileState sys s).files pkg, isDirName fileName = true ∨
    s.fileHash.get fileName ≠ none ∧ s.fileHash.get fileName ≠ oldPkg ∨ HasFile conf s pkg fileName

theorem takeFile_alone {newPkg : P} {oldPkg : Option P} (hkeeps : isDirName fileName = true ∨
      s.fileHash.get fileName ≠ none ∧ s.fileHash.get fileName ≠ oldPkg ∨
        HasFile conf s newPkg fileName) :
    LeavesAlone s (takeFile sys conf newPkg oldPkg s fileName).2 := by
  unfold takeFile
  dsimp only
  split
  next howner =>
    apply setFileOwner_alone
    rcases hkeeps with hdir | ⟨hsome, hother⟩ | hhas
    · exact Or.inl hdir
    · exact absurd howner (not_or.mpr ⟨hsome, hother⟩)
    · exact Or.inr hhas
  next => exact LeavesAlone.refl

theorem markObsolete_alone (old : P) (files : List (List Byte))
    (s : InstallState platform A P D W) : LeavesAlone s (files.foldl (markObsolete sys old) s) := by
  induction files generalizing s with
  | nil => exact LeavesAlone.refl
  | cons oldFile files ih =>
    refine LeavesAlone.trans ?_ (ih _)
    unfold markObsolete
    split
    · exact ⟨rfl, rfl, rfl, fun _ => rfl⟩
    · exact LeavesAlone.refl

theorem updateFileOwnership_alone {pkg : P} {oldPkg : Option P}
    (htakes : TakesNothing sys conf pkg oldPkg s) :
    LeavesAlone s (updateFileOwnership sys conf pkg oldPkg s) := by
  have hwalk : LeavesAlone s (walkList (takeFile sys conf pkg oldPkg) [] []
      (getInstalledFiles sys pkg s).1 (getInstalledFiles sys pkg s).2) := by
    -- what a file asks for stays so as long as everything is left alone
    refine walkList_preserves (r := fun t t' => LeavesAlone s t → LeavesAlone s t')
      (fun _ => id) (fun _ _ _ hfirst hsecond => hsecond ∘ hfirst) ?_ _
      (getInstalledFiles_alone sys pkg s)
    intro t fileName hmem ht
    refine ht.trans (takeFile_alone ?_)
    have hmarked (p : P) : Marked s p → Marked t p := by
      unfold Marked
      rw [ht.pkgFlag]
      exact id
    unfold HasFile
    simp only [ht.owner]
    exact (htakes fileName hmem).imp_right (Or.imp_right (And.imp_right
      fun hall p hp => (hall p hp).imp (hmarked p) (hmarked pkg)))
  unfold updateFileOwnership
  refine LeavesAlone.trans ?_ (freeInstalledFiles_alone sys pkg _)
  cases oldPkg with
  | none => exact hwalk
  | some old =>
    exact (hwalk.trans (getInstalledFiles_alone sys old _)).trans
      ((markObsolete_alone old _ _).trans (freeInstalledFiles_alone sys old _))

end Files

/-! ### Calls that are refused -/

section Refusal

variable [DecidableEq A] [DecidableEq P]

section

variable (h : InstallHash platform A P) (sys : System platform A P D W) (conf : InstallConf D)
  (qsort : Qsort P)

variable (depth : ℕ) (pkg : P) (oldPkg : Option P) (s t : InstallState platform A P D W)

/-- The call passes its checks, which leave `t`. -/
def Passes : Prop :=
  pkgArchSupported h conf pkg = true ∧ alreadyInstalled conf pkg s = false ∧
    ∃ u, opkgInstallCheckDowngrade h conf pkg (installedPkg h pkg s) (withDefaultDest conf pkg s) =
        some u ∧
      checkInstallable h sys conf pkg (setWants pkg (installedPkg h pkg s) u) = (none, t)

/-- The call passes its checks and takes over nothing; `t` is where it goes on. -/
def Unpacks : Prop :=
  ∃ u, Passes h sys conf pkg s u ∧
    TakesNothing sys conf pkg (installedPkg h pkg s) (unpackPkgControlFiles sys conf pkg u) ∧
    t = updateFileOwnership sys conf pkg (installedPkg h pkg s) (unpackPkgControlFiles sys conf pkg u)

def AsksDepends : Prop :=
  pkgArchSupported h conf pkg = true ∧ alreadyInstalled conf pkg s = true ∧ t = s ∨
    conf.nodeps = false ∧ Unpacks h sys conf pkg s t

def firstMissing (depends : List P) (s : InstallState platform A P D W) : Option P :=
  depends.find? fun dep => !isInstalled (s.pkgStatus dep)

/-- The packages to be installed for `pkg` are `depends`, and they have been marked. -/
def Wanted (depends : List P) (t : InstallState platform A P D W) : Prop :=
  ∃ unresolved ndepends u, fetchUnsatisfied h qsort depth pkg s =
      some (unresolved, ndepends, depends, u) ∧
    ¬(unresolved = true ∧ conf.forceDepends = false) ∧ ndepends ≠ 0 ∧
    t = depends.foldl (markToBeInstalled pkg) u

/-- Nothing has to be installed for `pkg`. -/
def DependsDone : Prop :=
  conf.nodeps = true ∧ t = s ∨
  conf.nodeps = false ∧
    ((∃ unresolved depends, fetchUnsatisfied h qsort depth pkg s = some (unresolved, 0, depends, t) ∧
        ¬(unresolved = true ∧ conf.forceDepends = false)) ∨
      ∃ depends, Wanted h conf qsort depth pkg s depends t ∧ firstMissing depends t = none)

def markChanged : InstallState platform A P D W :=
  { s with
    stateChanged := s.stateChanged + 1
    pkgFlag := Function.update s.pkgFlag pkg (s.pkgFlag pkg ||| SF_FILELIST_CHANGED) }

/-- None of the packages that only the old one depended on had been installed for it. -/
def NoOrphans : Prop :=
  ∀ old, oldPkg = some old → ∀ dStr ∈ h.dependsStr old, dStr ∉ h.dependsStr pkg →
    ∀ p, pkgHashFetchInstalledByName (removeHash h s) s.toRemoveState (dependsName dStr) = some p →
      s.autoInstalled p = false

/-- The preinst script fails, or the backups, or a file clashes. -/
def LastStepFails : Prop :=
  let preinst := preinstConfigure sys conf pkg oldPkg s
  let backup := backupModifiedConffiles sys conf pkg oldPkg preinst.2
  preinst.1 = true ∨ backup.1 = true ∨ (checkDataFileClashes h sys conf pkg oldPkg backup.2).1 ≠ 0

/-- The call is refused, and all that it may have changed are wants, which are then these. -/
inductive RefusedWith : ℕ → P → InstallState platform A P D W → (P → StateWant) → Prop
  | architecture {depth : ℕ} {pkg : P} {s : InstallState platform A P D W}
      (harch : pkgArchSupported h conf pkg = false) : RefusedWith (depth + 1) pkg s s.pkgWant
  | downgrade {depth : ℕ} {pkg : P} {s : InstallState platform A P D W}
      (harch : pkgArchSupported h conf pkg = true) (hnot : alreadyInstalled conf pkg s = false)
      (hcheck : opkgInstallCheckDowngrade h conf pkg (installedPkg h pkg s)
        (withDefaultDest conf pkg s) = none) : RefusedWith (depth + 1) pkg s s.pkgWant
  | check {depth : ℕ} {pkg : P} {s t u : InstallState platform A P D W} {result : InstallResult}
      (harch : pkgArchSupported h conf pkg = true) (hnot : alreadyInstalled conf pkg s = false)
      (hcheck : opkgInstallCheckDowngrade h conf pkg (installedPkg h pkg s)
        (withDefaultDest conf pkg s) = some u)
      (hrefused : checkInstallable h sys conf pkg (setWants pkg (installedPkg h pkg s) u) =
        (some result, t)) (hresult : result ≠ .ok) :
      RefusedWith (depth + 1) pkg s (newWants pkg (installedPkg h pkg s) s.pkgWant)
  | unresolved {depth ndepends : ℕ} {pkg : P} {s t u : InstallState platform A P D W}
      {depends : List P} (hasks : AsksDepends h sys conf pkg s t) (hforce : conf.forceDepends = false)
      (hfetch : fetchUnsatisfied h qsort depth pkg t = some (true, ndepends, depends, u)) :
      RefusedWith (depth + 1) pkg s t.pkgWant
  | dependency {depth : ℕ} {pkg dep : P} {s t u : InstallState platform A P D W} {depends : List P}
      {want : P → StateWant} (hasks : AsksDepends h sys conf pkg s t)
      (hwanted : Wanted h conf qsort depth pkg t depends u)
      (hmissing : firstMissing depends u = some dep) (hrefused : RefusedWith depth dep u want) :
      RefusedWith (depth + 1) pkg s want
  | lastStep {depth : ℕ} {pkg : P} {s t u : InstallState platform A P D W}
      (hunpacks : Unpacks h sys conf pkg s t) (hdone : DependsDone h conf qsort depth pkg t u)
      (hmarked : Marked u pkg) (hreplacees : pkgGetInstalledReplacees h pkg u = [])
      (horphans : NoOrphans h pkg (installedPkg h pkg s) (markChanged pkg u))
      (hfails : LastStepFails h sys conf pkg (installedPkg h pkg s) (markChanged pkg u)) :
      RefusedWith (depth + 1) pkg s u.pkgWant

/-- The call is refused, and the wants of both packages are what they were. -/
def RefusedUntouched : Prop :=
  ∃ want, RefusedWith h sys conf qsort depth pkg s want ∧
    ∀ p, p = pkg ∨ installedPkg h pkg s = some p → want p = s.pkgWant p

end

variable {recurse : InstallRecursion platform A P D W} {depth : ℕ} {pkg dep : P} {oldPkg : Option P}
  {depends : List P} {result : InstallResult} {err : Bool}

/-! ### What a refused call does -/

omit [DecidableEq A] in
theorem installEach_of_none (hmissing : firstMissing depends s = none) :
    installEach recurse depends s = some (false, s) := by
  induction depends with
  | nil => rfl
  | cons dep depends ih =>
    rw [firstMissing, List.find?_cons] at hmissing
    split at hmissing
    · cases hmissing
    next hinstalled =>
      rw [installEach, if_pos (by simpa using hinstalled)]
      exact ih hmissing

omit [DecidableEq A] in
/-- The loop stops at the first package that cannot be installed. -/
theorem installEach_of_some (hmissing : firstMissing depends s = some dep)
    (hloop : installEach recurse depends s = some (err, s')) :
    ∃ result t later, recurse dep s = some (result, t) ∧
      (result ≠ .ok ∧ err = true ∧
          s' = { t with autoInstalled := Function.update t.autoInstalled dep true } ∨
        result = .ok ∧ installEach recurse later
          { t with autoInstalled := Function.update t.autoInstalled dep true } =
            some (err, s')) := by
  induction depends with
  | nil => cases hmissing
  | cons next depends ih =>
    rw [firstMissing, List.find?_cons] at hmissing
    rw [installEach] at hloop
    split at hmissing
    next hnot =>
      obtain rfl := Option.some.inj hmissing
      rw [if_neg (by simpa using hnot)] at hloop
      obtain ⟨⟨result, t⟩, hcall, hrest⟩ := Option.bind_eq_some_iff.mp hloop
      refine ⟨result, t, depends, hcall, ?_⟩
      by_cases hok : result = .ok
      · subst hok
        exact Or.inr ⟨rfl, hrest⟩
      · dsimp only at hrest
        rw [if_pos hok] at hrest
        cases hrest
        exact Or.inl ⟨hok, rfl, rfl⟩
    next hinstalled =>
      rw [if_pos (by simpa using hinstalled)] at hloop
      exact ih hmissing hloop

theorem installBody_of_installed (harch : pkgArchSupported h conf pkg = true)
    (hinstalled : alreadyInstalled conf pkg s = true)
    (hcall : installBody h sys conf qsort recurse depth pkg s = some (result, s')) :
    ∃ err, satisfyDependenciesFor h conf qsort recurse depth pkg s = some (err, s') ∧
      result = if err then .dependencies else .ok := by
  rcases installBody_cases hcall with ⟨hnot, -⟩ | ⟨-, -, hsatisfy⟩ | ⟨-, hnot, -⟩
  · rw [harch] at hnot
    cases hnot
  · exact hsatisfy
  · rw [hinstalled] at hnot
    cases hnot

theorem installBody_of_passes (hpasses : Passes h sys conf pkg s t)
    (hcall : installBody h sys conf qsort recurse depth pkg s = some (result, s')) :
    unpackAndInstall h sys conf qsort recurse depth pkg (installedPkg h pkg s) t =
      some (result, s') := by
  obtain ⟨harch, hnot, u, hcheck, hpassed⟩ := hpasses
  rcases installBody_cases hcall with ⟨hfalse, -⟩ | ⟨-, htrue, -⟩ | ⟨-, -, hrest⟩
  · rw [harch] at hfalse
    cases hfalse
  · rw [hnot] at htrue
    cases htrue
  rcases hrest with ⟨hnone, -⟩ | ⟨u', hcheck', hrest⟩
  · rw [hcheck] at hnone
    cases hnone
  obtain rfl := Option.some.inj (hcheck.symm.trans hcheck')
  rcases hrest with hrefused | ⟨t', hpassed', hinstall⟩
  · rw [hpassed] at hrefused
    cases hrefused
  · rw [hpassed] at hpassed'
    cases hpassed'
    exact hinstall

theorem satisfyDependenciesFor_eq {unresolved : Bool} {ndepends : ℕ}
    (hfetch : fetchUnsatisfied h qsort depth pkg s = some (unresolved, ndepends, depends, t)) :
    satisfyDependenciesFor h conf qsort recurse depth pkg s =
      if unresolved = true ∧ conf.forceDepends = false then some (true, t)
      else if ndepends = 0 then some (false, t)
      else installEach recurse depends (depends.foldl (markToBeInstalled pkg) t) := by
  rw [satisfyDependenciesFor, hfetch]
  rfl

theorem Wanted.satisfy_eq (hwanted : Wanted h conf qsort depth pkg s depends t) :
    satisfyDependenciesFor h conf qsort recurse depth pkg s = installEach recurse depends t := by
  obtain ⟨unresolved, ndepends, u, hfetch, hresolved, hndepends, rfl⟩ := hwanted
  rw [satisfyDependenciesFor_eq hfetch, if_neg hresolved, if_neg hndepends]

omit [DecidableEq A] in
theorem markToBeInstalled_foldl (pkg : P) (depends : List P) (s : InstallState platform A P D W) :
    (depends.foldl (markToBeInstalled pkg) s).pkgStatus = s.pkgStatus ∧
      (depends.foldl (markToBeInstalled pkg) s).pkgFlag = s.pkgFlag ∧
      (depends.foldl (markToBeInstalled pkg) s).fileHash = s.fileHash := by
  induction depends generalizing s with
  | nil => exact ⟨rfl, rfl, rfl⟩
  | cons dep depends ih => exact ih (markToBeInstalled pkg s dep)

/-- Nothing but wants has changed, and they are these. -/
def OnlyWants (want : P → StateWant) (s s' : InstallState platform A P D W) : Prop :=
  LeavesAlone { s with pkgWant := want } s'

variable {want : P → StateWant} {old : Option P}

omit [DecidableEq A] [DecidableEq P] in
theorem OnlyWants.of_alone (halone : LeavesAlone s t)
    (honly : OnlyWants want t s') : OnlyWants want s s' :=
  ⟨honly.pkgWant, honly.pkgStatus.trans halone.pkgStatus, honly.pkgFlag.trans halone.pkgFlag,
    fun fileName => (honly.owner fileName).trans (halone.owner fileName)⟩

omit [DecidableEq A] [DecidableEq P] in
theorem OnlyWants.trans {want' : P → StateWant} (hfirst : OnlyWants want s t)
    (hsecond : OnlyWants want' t s') : OnlyWants want' s s' :=
  ⟨hsecond.pkgWant, hsecond.pkgStatus.trans hfirst.pkgStatus, hsecond.pkgFlag.trans hfirst.pkgFlag,
    fun fileName => (hsecond.owner fileName).trans (hfirst.owner fileName)⟩

theorem Wanted.onlyWants (hwanted : Wanted h conf qsort depth pkg s depends t) :
    OnlyWants t.pkgWant s t := by
  obtain ⟨unresolved, ndepends, u, hfetch, -, -, rfl⟩ := hwanted
  obtain ⟨hstatus, hflag, hhash⟩ := markToBeInstalled_foldl pkg depends u
  refine OnlyWants.of_alone (LeavesAlone.of_same (fetchUnsatisfied_same hfetch)) ?_
  exact ⟨rfl, hstatus, hflag, fun fileName => by rw [hhash]⟩

omit [DecidableEq A] in
theorem Unpacks.onlyWants (hunpacks : Unpacks h sys conf pkg s t) :
    OnlyWants t.pkgWant s t := by
  obtain ⟨u, ⟨-, -, v, hcheck, hpassed⟩, htakes, rfl⟩ := hunpacks
  have hsame := (setWants_same hcheck hpassed).trans (unpackPkgControlFiles_same sys conf pkg u)
  have halone := (LeavesAlone.of_same hsame).trans (updateFileOwnership_alone htakes)
  exact ⟨rfl, halone.pkgStatus, halone.pkgFlag, halone.owner⟩

omit [DecidableEq A] in
theorem AsksDepends.onlyWants (hasks : AsksDepends h sys conf pkg s t) :
    OnlyWants t.pkgWant s t := by
  rcases hasks with ⟨-, -, rfl⟩ | ⟨-, hunpacks⟩
  · exact LeavesAlone.refl
  · exact hunpacks.onlyWants

/-- A call whose dependencies fail is refused with them. -/
theorem AsksDepends.call (hasks : AsksDepends h sys conf pkg s t)
    (hcall : installBody h sys conf qsort recurse depth pkg s = some (result, s')) :
    ∃ err u, satisfyDependenciesFor h conf qsort recurse depth pkg t = some (err, u) ∧
      (err = true → result ≠ .ok ∧ s' = u) := by
  rcases hasks with ⟨harch, hinstalled, rfl⟩ | ⟨hnodeps, v, hpasses, -, rfl⟩
  · obtain ⟨err, hsatisfy, rfl⟩ := installBody_of_installed harch hinstalled hcall
    refine ⟨err, s', hsatisfy, ?_⟩
    rintro rfl
    exact ⟨InstallResult.noConfusion, rfl⟩
  · obtain ⟨⟨err, u⟩, hsatisfy, hrest⟩ :=
      Option.bind_eq_some_iff.mp (installBody_of_passes hpasses hcall)
    rw [satisfyUnlessNodeps, hnodeps] at hsatisfy
    refine ⟨err, u, hsatisfy, ?_⟩
    rintro rfl
    cases hrest
    exact ⟨InstallResult.noConfusion, rfl⟩

theorem DependsDone.satisfy (hdone : DependsDone h conf qsort depth pkg s t) :
    satisfyUnlessNodeps h conf qsort recurse depth pkg s = some (false, t) := by
  rw [satisfyUnlessNodeps]
  rcases hdone with ⟨hnodeps, rfl⟩ | ⟨hnodeps, hdone⟩
  · rw [if_pos hnodeps]
  rw [if_neg (by rw [hnodeps]; exact Bool.false_ne_true)]
  rcases hdone with ⟨unresolved, depends, hfetch, hresolved⟩ | ⟨depends, hwanted, hmissing⟩
  · rw [satisfyDependenciesFor_eq hfetch, if_neg hresolved, if_pos rfl]
  · rw [hwanted.satisfy_eq, installEach_of_none hmissing]

theorem DependsDone.onlyWants (hdone : DependsDone h conf qsort depth pkg s t) :
    OnlyWants t.pkgWant s t := by
  rcases hdone with ⟨-, rfl⟩ | ⟨-, ⟨unresolved, depends, hfetch, -⟩ | ⟨depends, hwanted, -⟩⟩
  · exact LeavesAlone.refl
  · have hsame := LeavesAlone.of_same (fetchUnsatisfied_same hfetch)
    exact ⟨rfl, hsame.pkgStatus, hsame.pkgFlag, hsame.owner⟩
  · exact hwanted.onlyWants

theorem NoOrphans.remove (horphans : NoOrphans h pkg oldPkg s) :
    pkgRemoveOrphanDependent h sys conf depth pkg oldPkg s = some s := by
  cases oldPkg with
  | none => rfl
  | some old =>
    have hloop : ∀ dependsStr : List (List Byte),
        (∀ dStr ∈ dependsStr, dStr ∈ h.dependsStr old ∧ dStr ∉ h.dependsStr pkg) →
          removeOrphans h sys conf depth dependsStr s = some s := by
      intro dependsStr hall
      induction dependsStr with
      | nil => rfl
      | cons dStr dependsStr ih =>
        have hrest := ih fun d hd => hall d (List.mem_cons_of_mem dStr hd)
        rw [removeOrphans]
        split
        · exact hrest
        next p hp =>
          obtain ⟨hold, hnew⟩ := hall dStr List.mem_cons_self
          rw [if_neg (by rw [horphans old rfl dStr hold hnew p hp]; exact Bool.false_ne_true)]
          exact hrest
    apply hloop
    intro dStr hmem
    simpa using hmem

omit [DecidableEq A] [DecidableEq P] in
theorem makeBackups_alone (asks : NvPair → InstallState platform A P D W → Bool)
    (conffiles : List NvPair) (s : InstallState platform A P D W) :
    LeavesAlone s (makeBackups sys conf asks conffiles s).2 := by
  induction conffiles generalizing s with
  | nil => exact LeavesAlone.refl
  | cons conffile conffiles ih =>
    rw [makeBackups]
    split
    · dsimp only
      split
      · exact ⟨rfl, rfl, rfl, fun _ => rfl⟩
      · refine LeavesAlone.trans ?_ (ih _)
        exact ⟨rfl, rfl, rfl, fun _ => rfl⟩
    · exact ih s

omit [DecidableEq A] [DecidableEq P] in
theorem backupModifiedConffiles_alone (pkg : P) (oldPkg : Option P)
    (s : InstallState platform A P D W) :
    LeavesAlone s (backupModifiedConffiles sys conf pkg oldPkg s).2 := by
  unfold backupModifiedConffiles
  split
  · exact LeavesAlone.refl
  dsimp only
  split
  · exact makeBackups_alone _ _ s
  · exact (makeBackups_alone _ _ s).trans (makeBackups_alone _ _ _)

omit [DecidableEq A] [DecidableEq P] in
theorem preinstConfigure_alone (pkg : P) (oldPkg : Option P) (s : InstallState platform A P D W) :
    LeavesAlone s (preinstConfigure sys conf pkg oldPkg s).2 := by
  unfold preinstConfigure
  split
  · exact LeavesAlone.refl
  split
  · exact LeavesAlone.refl
  split
  · exact LeavesAlone.refl
  · exact ⟨rfl, rfl, rfl, fun _ => rfl⟩

/-- Where files may be overwritten, none clashes. -/
theorem checkDataFileClashes_force (hforce : conf.forceOverwrite = true) (pkg : P)
    (oldPkg : Option P) (s : InstallState platform A P D W) :
    (checkDataFileClashes h sys conf pkg oldPkg s).1 = 0 := by
  refine walkList_preserves
    (r := fun (clashes clashes' : ℕ × InstallState platform A P D W) => clashes'.1 = clashes.1)
    (fun _ => rfl) (fun _ _ _ hfirst hsecond => hsecond.trans hfirst) ?_ (0, _)
  intro clashes fileName _
  simp only [checkDataFileClash, hforce, if_true]
  split
  · split <;> rfl
  · rfl

theorem checkDataFileClashes_alone
    (hclashes : (checkDataFileClashes h sys conf pkg oldPkg s).1 ≠ 0) :
    LeavesAlone s (checkDataFileClashes h sys conf pkg oldPkg s).2 := by
  have hforce : conf.forceOverwrite = false := by
    by_contra hforce
    exact hclashes (checkDataFileClashes_force (Bool.eq_true_of_not_eq_false hforce) pkg oldPkg s)
  refine LeavesAlone.trans ?_ (freeInstalledFiles_alone sys pkg _)
  refine (getInstalledFiles_alone sys pkg s).trans ?_
  refine walkList_preserves
    (r := fun (clashes clashes' : ℕ × InstallState platform A P D W) =>
      LeavesAlone clashes.2 clashes'.2)
    (fun _ => LeavesAlone.refl) (fun _ _ _ => LeavesAlone.trans) ?_ (0, _)
  intro clashes fileName _
  simp only [checkDataFileClash, hforce, Bool.false_eq_true, if_false]
  split
  · split
    · exact LeavesAlone.refl
    · split <;> exact LeavesAlone.refl
  · exact LeavesAlone.refl

omit [DecidableEq A] in
theorem unwindInstall_nil (label : Unwind)
    (hcall : unwindInstall sys conf recurse label pkg oldPkg [] s = some (result, s')) :
    result ≠ .ok ∧ LeavesAlone s s' := by
  cases label <;> cases hcall <;>
    exact ⟨InstallResult.noConfusion, rfl, rfl, rfl, fun _ => rfl⟩

theorem LastStepFails.call (hfails : LastStepFails h sys conf pkg oldPkg s)
    (hcall : replaceAndInstall h sys conf recurse depth pkg oldPkg [] s = some (result, s')) :
    result ≠ .ok ∧ LeavesAlone s s' := by
  have hpreinst : LeavesAlone s (preinstConfigure sys conf pkg oldPkg s).2 :=
    preinstConfigure_alone pkg oldPkg s
  have hbackup : LeavesAlone s (backupModifiedConffiles sys conf pkg oldPkg
      (preinstConfigure sys conf pkg oldPkg s).2).2 :=
    hpreinst.trans (backupModifiedConffiles_alone pkg oldPkg _)
  simp only [replaceAndInstall, pkgRemoveInstalledReplacees, Option.bind_eq_bind, Option.bind_some,
    Bool.false_eq_true, if_false] at hcall
  split at hcall
  · exact (unwindInstall_nil _ hcall).imp_right hpreinst.trans
  next hpreinstOk =>
  split at hcall
  · exact (unwindInstall_nil _ hcall).imp_right hbackup.trans
  next hbackupOk =>
  have hclashes := (hfails.resolve_left hpreinstOk).resolve_left hbackupOk
  rw [if_pos hclashes] at hcall
  exact (unwindInstall_nil _ hcall).imp_right
    (hbackup.trans (checkDataFileClashes_alone hclashes)).trans

omit [DecidableEq A] in
theorem markChanged_alone (hmarked : Marked s pkg) : LeavesAlone s (markChanged pkg s) where
  pkgWant := rfl
  pkgStatus := rfl
  pkgFlag := by
    rw [markChanged, hmarked.or_eq]
    exact Function.update_eq_self pkg _
  owner _ := rfl

/-- **A refusal** changes nothing but wants. -/
theorem RefusedWith.call (hrefused : RefusedWith h sys conf qsort depth pkg s want)
    (hcall : opkgInstallPkg h sys conf qsort depth pkg s = some (result, s')) :
    result ≠ .ok ∧ OnlyWants want s s' := by
  induction hrefused generalizing result s' with
  | architecture harch =>
    rcases installBody_cases hcall with ⟨-, rfl, rfl⟩ | ⟨htrue, -⟩ | ⟨htrue, -⟩
    · exact ⟨InstallResult.noConfusion, LeavesAlone.refl⟩
    · rw [harch] at htrue
      cases htrue
    · rw [harch] at htrue
      cases htrue
  | downgrade harch hnot hcheck =>
    rcases installBody_cases hcall with ⟨hfalse, -⟩ | ⟨-, htrue, -⟩ | ⟨-, -, hrest⟩
    · rw [harch] at hfalse
      cases hfalse
    · rw [hnot] at htrue
      cases htrue
    rcases hrest with ⟨-, rfl, rfl⟩ | ⟨u, hsome, -⟩
    · exact ⟨InstallResult.noConfusion, LeavesAlone.of_same (withDefaultDest_same conf _ _)⟩
    · rw [hcheck] at hsome
      cases hsome
  | check harch hnot hcheck hchecked hresult =>
    rcases installBody_cases hcall with ⟨hfalse, -⟩ | ⟨-, htrue, -⟩ | ⟨-, -, hrest⟩
    · rw [harch] at hfalse
      cases hfalse
    · rw [hnot] at htrue
      cases htrue
    rcases hrest with ⟨hnone, -⟩ | ⟨u', hcheck', hrest⟩
    · rw [hcheck] at hnone
      cases hnone
    obtain rfl := Option.some.inj (hcheck.symm.trans hcheck')
    rcases hrest with hchecked' | ⟨t', hpassed, -⟩
    · have hsame := LeavesAlone.of_same (setWants_same hcheck hchecked')
      rw [hchecked] at hchecked'
      cases hchecked'
      exact ⟨hresult, hsame⟩
    · rw [hchecked] at hpassed
      cases hpassed
  | unresolved hasks hforce hfetch =>
    obtain ⟨err, u, hsatisfy, hstops⟩ := hasks.call hcall
    rw [satisfyDependenciesFor_eq hfetch, if_pos ⟨rfl, hforce⟩] at hsatisfy
    cases hsatisfy
    obtain ⟨hresult, rfl⟩ := hstops rfl
    exact ⟨hresult, hasks.onlyWants.trans (LeavesAlone.of_same (fetchUnsatisfied_same hfetch))⟩
  | dependency hasks hwanted hmissing _ ih =>
    obtain ⟨err, v, hsatisfy, hstops⟩ := hasks.call hcall
    rw [hwanted.satisfy_eq] at hsatisfy
    obtain ⟨r, w, later, hdep, hor⟩ := installEach_of_some hmissing hsatisfy
    obtain ⟨hdepFails, honly⟩ := ih hdep
    obtain ⟨-, rfl, rfl⟩ := hor.resolve_right fun hok => hdepFails hok.1
    obtain ⟨hresult, rfl⟩ := hstops rfl
    exact ⟨hresult, (hasks.onlyWants.trans hwanted.onlyWants).trans
      ⟨honly.pkgWant, honly.pkgStatus, honly.pkgFlag, honly.owner⟩⟩
  | lastStep hunpacks hdone hmarked hreplacees horphans hfails =>
    have honly := hunpacks.onlyWants.trans hdone.onlyWants
    obtain ⟨v, hpasses, -, rfl⟩ := hunpacks
    obtain ⟨⟨err, u'⟩, hsatisfy, hrest⟩ :=
      Option.bind_eq_some_iff.mp (installBody_of_passes hpasses hcall)
    rw [hdone.satisfy] at hsatisfy
    cases hsatisfy
    dsimp only at hrest
    rw [if_neg Bool.false_ne_true, hreplacees] at hrest
    obtain ⟨w, horphan, hlast⟩ := Option.bind_eq_some_iff.mp hrest
    obtain rfl : markChanged _ _ = w := Option.some.inj (horphans.remove.symm.trans horphan)
    obtain ⟨hresult, halone⟩ := hfails.call hlast
    exact ⟨hresult, honly.trans ((markChanged_alone hmarked).trans halone)⟩

/-! ### Calls that pass their checks -/

section

variable (h : InstallHash platform A P) (sys : System platform A P D W) (conf : InstallConf D)
  (qsort : Qsort P)

/-- The call passes its checks, or the first one that it makes for a package it depends on does: `q`
is the package, `old` its installed version and `t` what the checks leave. -/
inductive PassesOn : ℕ → P → InstallState platform A P D W → P → Option P →
    InstallState platform A P D W → Prop
  | self {depth : ℕ} {pkg : P} {s t : InstallState platform A P D W}
      (hpasses : Passes h sys conf pkg s t) :
      PassesOn (depth + 1) pkg s pkg (installedPkg h pkg s) t
  | dependency {depth : ℕ} {pkg dep q : P} {old : Option P} {s t u : InstallState platform A P D W}
      {depends : List P} (harch : pkgArchSupported h conf pkg = true)
      (hinstalled : alreadyInstalled conf pkg s = true)
      (hwanted : Wanted h conf qsort depth pkg s depends u)
      (hmissing : firstMissing depends u = some dep) (hpasses : PassesOn depth dep u q old t) :
      PassesOn (depth + 1) pkg s q old t

end

theorem PassesOn.before {q : P} (hpasses : PassesOn h sys conf qsort depth pkg s q old t) :
    SettlesWants s.pkgWant t.pkgWant ∧ t.fileHash = s.fileHash := by
  induction hpasses with
  | self hpasses =>
    obtain ⟨-, -, v, hcheck, hpassed⟩ := hpasses
    have hsame := setWants_same hcheck hpassed
    refine ⟨?_, hsame.fileHash⟩
    rw [hsame.pkgWant]
    exact settlesWants_newWants
  | @dependency _ pkg _ _ _ _ _ _ depends _ _ hwanted _ _ ih =>
    obtain ⟨unresolved, ndepends, v, hfetch, -, -, rfl⟩ := hwanted
    have hsame := fetchUnsatisfied_same hfetch
    refine ⟨SettlesWants.trans ?_ ih.1, ?_⟩
    · rw [← hsame.pkgWant]
      have hmoves : InstallRelation sys conf MovesOn := movesOn_installRelation
      exact (markToBeInstalled_keeps hmoves pkg depends v).wants
    · rw [ih.2, (markToBeInstalled_foldl pkg depends v).2.2, hsame.fileHash]

theorem PassesOn.after {q : P} (hpasses : PassesOn h sys conf qsort depth pkg s q old t)
    (hcall : opkgInstallPkg h sys conf qsort depth pkg s = some (result, s')) :
    MovesOn (updateFileOwnership sys conf q old (unpackPkgControlFiles sys conf q t)) s' := by
  have hR : InstallRelation sys conf MovesOn := movesOn_installRelation
  induction hpasses generalizing result s' with
  | @self depth _ _ _ hpasses =>
    exact unpackAndInstall_keeps hR (opkgInstallPkg_keeps hR depth)
      (installBody_of_passes hpasses hcall)
  | @dependency depth _ _ _ _ _ _ _ _ harch hinstalled hwanted hmissing _ ih =>
    obtain ⟨err, hsatisfy, -⟩ := installBody_of_installed harch hinstalled hcall
    rw [hwanted.satisfy_eq] at hsatisfy
    obtain ⟨r, w, later, hdep, hor⟩ := installEach_of_some hmissing hsatisfy
    refine (ih hdep).trans ?_
    rcases hor with ⟨-, -, rfl⟩ | ⟨-, hlater⟩
    · exact hR.same rfl rfl rfl rfl
    · have hrest := installEach_keeps hR (opkgInstallPkg_keeps hR depth) hlater
      exact ⟨hrest.wants, hrest.owned⟩

/-- A package that gets installed has passed its checks. -/
theorem passes_of_ok (hmissing : isInstalled (s.pkgStatus pkg) = false)
    (hcall : opkgInstallPkg h sys conf qsort (depth + 1) pkg s = some (.ok, s')) :
    ∃ t, Passes h sys conf pkg s t := by
  have hnot : s.pkgStatus pkg ≠ .installed := by
    intro hinstalled
    rw [hinstalled] at hmissing
    cases hmissing
  rcases installBody_cases hcall with ⟨-, hresult, -⟩ | ⟨-, hinstalled, -⟩ | ⟨harch, hfresh, hrest⟩
  · cases hresult
  · simp [alreadyInstalled, hnot] at hinstalled
  rcases hrest with ⟨-, hresult, -⟩ | ⟨u, hcheck, hrefused | ⟨t, hpassed, -⟩⟩
  · cases hresult
  · have hstatus : (setWants pkg (installedPkg h pkg s) u).pkgStatus pkg ≠ .installed := by
      have hsame := (withDefaultDest_same conf pkg s).trans (opkgInstallCheckDowngrade_same hcheck)
      change u.pkgStatus pkg ≠ .installed
      rwa [hsame.pkgStatus]
    unfold checkInstallable at hrefused
    split at hrefused
    · cases hrefused
    split at hrefused
    next hok => exact absurd hok.1 hstatus
    split at hrefused
    · cases hrefused
    dsimp only at hrefused
    split at hrefused
    · cases hrefused
    split at hrefused
    · cases hrefused
    split at hrefused <;> cases hrefused
  · exact ⟨t, harch, hfresh, u, hcheck, hpassed⟩

omit [DecidableEq A] [DecidableEq P] in
theorem not_installed_of_firstMissing (hmissing : firstMissing depends s = some dep) :
    isInstalled (s.pkgStatus dep) = false := by
  simpa using List.find?_some hmissing

/-- A call that fails is refused, unless it or one that it makes passes its checks. -/
theorem refused_or_passesOn
    (hcall : opkgInstallPkg h sys conf qsort depth pkg s = some (result, s'))
    (hfails : result ≠ .ok) :
    (∃ want, RefusedWith h sys conf qsort depth pkg s want) ∨
      ∃ q old t, PassesOn h sys conf qsort depth pkg s q old t := by
  induction depth generalizing pkg s result s' with
  | zero => cases hcall
  | succ depth ih =>
    rcases installBody_cases hcall with
      ⟨harch, -⟩ | ⟨harch, hinstalled, err, hsatisfy, hresult⟩ | ⟨harch, hnot, hrest⟩
    · exact Or.inl ⟨_, .architecture harch⟩
    · have hasks : AsksDepends h sys conf pkg s s := Or.inl ⟨harch, hinstalled, rfl⟩
      obtain ⟨⟨unresolved, ndepends, depends, u⟩, hfetch, -⟩ := Option.bind_eq_some_iff.mp hsatisfy
      rw [satisfyDependenciesFor_eq hfetch] at hsatisfy
      split at hsatisfy
      next hunresolved =>
        obtain ⟨rfl, hforce⟩ := hunresolved
        exact Or.inl ⟨_, .unresolved hasks hforce hfetch⟩
      next hresolved =>
      split at hsatisfy
      · cases hsatisfy
        exact absurd hresult hfails
      next hndepends =>
      have hwanted : Wanted h conf qsort depth pkg s depends _ :=
        ⟨unresolved, ndepends, u, hfetch, hresolved, hndepends, rfl⟩
      cases hmissing : firstMissing depends (depends.foldl (markToBeInstalled pkg) u) with
      | none =>
        rw [installEach_of_none hmissing] at hsatisfy
        cases hsatisfy
        exact absurd hresult hfails
      | some dep =>
        obtain ⟨r, w, later, hdep, -⟩ := installEach_of_some hmissing hsatisfy
        by_cases hr : r = .ok
        · subst hr
          cases depth with
          | zero => cases hdep
          | succ depth =>
            obtain ⟨t, hpasses⟩ := passes_of_ok (not_installed_of_firstMissing hmissing) hdep
            exact Or.inr ⟨_, _, _, .dependency harch hinstalled hwanted hmissing (.self hpasses)⟩
        · rcases ih hdep hr with ⟨want, hrefused⟩ | ⟨q, old, t, hpasses⟩
          · exact Or.inl ⟨want, .dependency hasks hwanted hmissing hrefused⟩
          · exact Or.inr ⟨q, old, t, .dependency harch hinstalled hwanted hmissing hpasses⟩
    rcases hrest with ⟨hcheck, -⟩ | ⟨u, hcheck, hrefused | ⟨t, hpassed, -⟩⟩
    · exact Or.inl ⟨_, .downgrade harch hnot hcheck⟩
    · exact Or.inl ⟨_, .check harch hnot hcheck hrefused hfails⟩
    · exact Or.inr ⟨_, _, _, .self ⟨harch, hnot, u, hcheck, hpassed⟩⟩

structure LeavesNoTrace (pkg : P) (oldPkg : Option P) (s s' : InstallState platform A P D W) :
    Prop where
  pkgWant : ∀ p, p = pkg ∨ oldPkg = some p → s'.pkgWant p = s.pkgWant p
  pkgStatus : ∀ p, p = pkg ∨ oldPkg = some p → s'.pkgStatus p = s.pkgStatus p
  pkgFlag : ∀ p, p = pkg ∨ oldPkg = some p → s'.pkgFlag p = s.pkgFlag p
  owner : ∀ fileName, s'.fileHash.get fileName = s.fileHash.get fileName

/-- The call, or one that it makes, passes its checks while the wants that this has changed were to
install or to deinstall and each file of the package has an owner or is its own already. -/
def StartsSettled (h : InstallHash platform A P) (sys : System platform A P D W)
    (conf : InstallConf D) (qsort : Qsort P) (depth : ℕ) (pkg : P)
    (s : InstallState platform A P D W) : Prop :=
  ∃ q old t, PassesOn h sys conf qsort depth pkg s q old t ∧
    (∀ p, p = pkg ∨ installedPkg h pkg s = some p →
      t.pkgWant p = s.pkgWant p ∨ (s.pkgWant p).Settled) ∧
    (old ≠ some q → ∀ fileName ∈ (fileState sys (unpackPkgControlFiles sys conf q t)).files q,
      isDirName fileName = true ∨ s.fileHash.get fileName ≠ none ∨
        s.fileHash.get (withoutOfflineRoot conf.offlineRoot fileName) ≠ none)

theorem startsSettled_of_leavesNoTrace {q : P}
    (hpasses : PassesOn h sys conf qsort depth pkg s q old t)
    (hcall : opkgInstallPkg h sys conf qsort depth pkg s = some (result, s'))
    (htrace : LeavesNoTrace pkg (installedPkg h pkg s) s s') :
    StartsSettled h sys conf qsort depth pkg s := by
  have hR : InstallRelation sys conf MovesOn := movesOn_installRelation
  obtain ⟨hwants, hhash⟩ := hpasses.before
  have hafter := hpasses.after hcall
  have hunpack := unpackPkgControlFiles_same sys conf q t
  refine ⟨q, old, t, hpasses, ?_, ?_⟩
  · intro p hp
    have hlater : MovesOn t s' :=
      ((unpackPkgControlFiles_keeps hR q t).trans (updateFileOwnership_keeps hR q old _)).trans hafter
    rw [← htrace.pkgWant p hp]
    exact (hlater.wants p).imp_left Eq.symm
  · intro hold fileName hmem
    by_contra hnone
    obtain ⟨hdir, hunowned⟩ := not_or.mp hnone
    obtain ⟨hfile, hroot⟩ := not_or.mp hunowned
    have hsame : (unpackPkgControlFiles sys conf q t).fileHash = s.fileHash :=
      hunpack.fileHash.trans hhash
    obtain ⟨name, hname, howned⟩ := updateFileOwnership_takes hold hmem
      (Bool.eq_false_of_not_eq_true hdir) (by rw [hsame, not_not.mp hfile])
      (by rw [hsame, not_not.mp hroot])
    have hlater := hafter.owned name howned
    rw [htrace.owner, ← hsame] at hlater
    exact hlater hname

end Refusal

end

inductive Rival where
  | fresh
  | present
  deriving DecidableEq

namespace Rival

def name : Rival → List Byte
  | fresh => ascii "fresh"
  | present => ascii "present"

theorem name_inj {p q : Rival} (hname : p.name = q.name) : p = q := by
  cases p with
  | fresh =>
    cases q with
    | fresh => rfl
    | present => exact absurd hname (by decide)
  | present =>
    cases q with
    | fresh => exact absurd hname (by decide)
    | present => rfl

def hash : InstallHash arm Rival Rival where
  all := {fresh, present}
  name := name
  version _ := { epoch := 0, version := some (ascii "1.0"), revision := some [] }
  architecture _ := some (ascii "all")
  archPriority _ := 1
  providedByHand _ := false
  parent := some
  provides p := [p]
  depends _ := []
  dependsStr _ := []
  conflicts p := match p with
    | fresh => [{ type := .conflicts, possibilities := [⟨.none, [], present⟩] }]
    | present => []
  replaces _ := []
  installedSize _ := none
  md5sum _ := none
  src _ := true
  filename := name
  names := [fresh, present]
  abName := name
  byName name :=
    if name = ascii "fresh" then some fresh
    else if name = ascii "present" then some present
    else none
  pkgs a := some [a]
  providedBy a := [a]
  replacedBy _ := []
  dependedUponBy _ := []
  pkgs_all a vec hvec p hp := by
    cases hvec
    rw [List.mem_singleton.mp hp]
    cases a <;> decide
  merged p q hname _ _ := name_inj hname

def system : System arm Rival Rival Unit Unit where
  rootDir _ := ascii "/"
  availableBlocks _ := 1000
  md5sum _ _ := []
  archiveLines _ _ := []
  listLines _ _ _ := []
  fileExists _ _ := false
  fileIsDir _ _ := false
  fileCopy _ _ _ := (0, ())
  unlink _ _ := ()
  downloadCache _ _ _ := (0, ())
  verifyFile _ _ := 0
  unpackControlFiles _ _ := (true, [], ())
  runPreinst _ _ _ := (0, ())
  removal _ _ := ()
  removeOldFiles _ _ _ := ()
  installMaintainerScripts _ _ := ()
  extractDataFiles _ _ := (0, ())
  controlEssential _ _ := false
  writeFilelist _ _ := (true, ())
  resolveConffile _ _ := ()
  cleanup _ _ := (true, ())

def conf : InstallConf Unit where
  forceDepends := false
  forceRemovalOfEssentialPackages := false
  forceRemovalOfDependentPackages := false
  autoremove := false
  forceReinstall := false
  forceDowngrade := false
  forceSpace := false
  forceOverwrite := false
  nodeps := false
  noaction := false
  archList := [ascii "all"]
  defaultDest := ()
  offlineRoot := none
  tmpDir := ascii "/tmp"

def state : InstallState arm Rival Rival Unit Unit where
  pkgStatus p := match p with
    | fresh => .notInstalled
    | present => .installed
  pkgWant p := match p with
    | fresh => .unknown
    | present => .install
  pkgFlag _ := 0
  abStatus a := match a with
    | fresh => .notInstalled
    | present => .installed
  abMarked _ := false
  dependenciesChecked _ := 0
  stateChanged := 0
  log := []
  dest _ := some ()
  essential _ := false
  autoInstalled _ := false
  tmpUnpackDir _ := false
  localFilename _ := none
  conffiles _ := []
  fileHash := HashTable.init 1
  obsFileHash := HashTable.init 1
  installedFiles _ := none
  installedFilesRefCnt _ := 0
  world := ()

end Rival

end Openmoko.Opkg
