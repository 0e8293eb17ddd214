import Openmoko.Library.RefCount
import Openmoko.Opkg.Proof.FailedInstall

/-!
# Who holds the lists of installed files

`pkg_get_installed_files` keeps a package's list until `pkg_free_installed_files` has been called as
often. The calls of an installation come in pairs, wherever it ends.
-/

namespace Openmoko.Opkg

variable {platform : Platform} {A P D W : Type} {h : InstallHash platform A P}
  {sys : System platform A P D W} {conf : InstallConf D} {qsort : Qsort P}
  {s s' t : InstallState platform A P D W}

def InstallState.refCounts (s : InstallState platform A P D W) : RefCounts P where
  count := s.installedFilesRefCnt
  loaded p := (s.installedFiles p).isSome

variable [DecidableEq P]

/-- Whoever holds a list still does so, and nobody else. -/
def Balanced (s s' : InstallState platform A P D W) : Prop :=
  ∀ held, s.refCounts.HeldBy held → s'.refCounts.HeldBy held

namespace Balanced

theorem of_eq (hsame : s'.refCounts = s.refCounts) : Balanced s s' := by
  intro held hs
  rwa [hsame]

theorem refl : Balanced s s := of_eq rfl

theorem trans (hfirst : Balanced s t) (hsecond : Balanced t s') : Balanced s s' :=
  fun held hs => hsecond held (hfirst held hs)

end Balanced

section Files

def FileState.refCounts (s : FileState platform P) : RefCounts P where
  count p := (s.pkg p).installedFilesRefCnt
  loaded p := (s.pkg p).installedFiles.isSome

theorem FileState.refCounts_modify (s : FileState platform P) (p : P) (f : PkgFiles → PkgFiles) :
    (s.modify p f).refCounts =
      { count := Function.update s.refCounts.count p (f (s.pkg p)).installedFilesRefCnt
        loaded := Function.update s.refCounts.loaded p (f (s.pkg p)).installedFiles.isSome } := by
  ext q
  all_goals
    by_cases hq : q = p
    · subst hq
      simp [FileState.modify, FileState.refCounts]
    · simp [FileState.modify, FileState.refCounts, hq]

theorem FileState.refCounts_markFilelistChanged (s : FileState platform P) (p : P) :
    (s.modify p PkgFiles.markFilelistChanged).refCounts = s.refCounts := by
  rw [FileState.refCounts_modify]
  exact RefCounts.ext (Function.update_eq_self p _) (Function.update_eq_self p _)

theorem PkgFiles.freeInstalledFiles_refCnt (pkg : PkgFiles) :
    pkg.freeInstalledFiles.installedFilesRefCnt = pkg.installedFilesRefCnt - 1 := by
  unfold PkgFiles.freeInstalledFiles
  dsimp only
  split <;> rfl

theorem PkgFiles.freeInstalledFiles_loaded (pkg : PkgFiles) :
    pkg.freeInstalledFiles.installedFiles.isSome =
      (pkg.installedFiles.isSome && 0 < pkg.installedFilesRefCnt - 1) := by
  unfold PkgFiles.freeInstalledFiles
  dsimp only
  split
  next hlast => rw [decide_eq_true hlast, Bool.and_true]
  next hlast => rw [decide_eq_false hlast, Bool.and_false, Option.isSome_none]

/-- The former owner's list is taken only to take the file off it. -/
theorem FileState.refCounts_fileHashSetFileOwner (offlineRoot : Option (List Byte))
    (s : FileState platform P) (fileName : List Byte) (p : P) :
    (fileHashSetFileOwner offlineRoot s fileName p).refCounts = s.refCounts ∨
      ∃ old, (fileHashSetFileOwner offlineRoot s fileName p).refCounts =
        (s.refCounts.take old).release old := by
  unfold fileHashSetFileOwner
  dsimp only
  split
  · exact Or.inl rfl
  split
  · exact Or.inl rfl
  next old _ =>
  refine Or.inr ⟨old, ?_⟩
  rw [FileState.refCounts_markFilelistChanged, FileState.refCounts_modify]
  simp [PkgFiles.markFilelistChanged, PkgFiles.freeInstalledFiles_refCnt,
    PkgFiles.freeInstalledFiles_loaded, PkgFiles.removeInstalledFile,
    PkgFiles.getInstalledFiles, RefCounts.take, RefCounts.release, FileState.refCounts]

end Files

section Pairs

variable (sys conf)

theorem refCounts_getInstalledFiles (p : P) (s : InstallState platform A P D W) :
    (getInstalledFiles sys p s).2.refCounts = s.refCounts.take p :=
  FileState.refCounts_modify (fileState sys s) p PkgFiles.getInstalledFiles

theorem refCounts_freeInstalledFiles (p : P) (s : InstallState platform A P D W) :
    (freeInstalledFiles sys p s).refCounts = s.refCounts.release p := by
  refine (FileState.refCounts_modify (fileState sys s) p PkgFiles.freeInstalledFiles).trans ?_
  rw [PkgFiles.freeInstalledFiles_refCnt, PkgFiles.freeInstalledFiles_loaded]
  rfl

theorem setFileOwner_balanced (fileName : List Byte) (p : P) (s : InstallState platform A P D W) :
    Balanced s (setFileOwner sys conf fileName p s) := by
  intro held hs
  change (fileHashSetFileOwner conf.offlineRoot (fileState sys s) fileName p).refCounts.HeldBy held
  obtain hsame | ⟨old, hpair⟩ :=
    FileState.refCounts_fileHashSetFileOwner conf.offlineRoot (fileState sys s) fileName p
  · rw [hsame]
    exact hs
  · rw [hpair]
    exact (hs.take old).release

variable {sys}

/-- What comes between a pair of calls may itself take and release. -/
theorem Balanced.pair {p : P} (hbetween : Balanced (getInstalledFiles sys p s).2 t) :
    Balanced s (freeInstalledFiles sys p t) := by
  intro held hs
  rw [refCounts_freeInstalledFiles]
  refine (hbetween (p ::ₘ held) ?_).release
  rw [refCounts_getInstalledFiles]
  exact hs.take p

end Pairs

/-- Both lists are taken before the first is released. -/
theorem balanced_installRelation : InstallRelation sys conf Balanced where
  trans _ _ _ := Balanced.trans
  settles s s' hs := Balanced.of_eq (RefCounts.ext hs.installedFilesRefCnt
    (congrArg (fun files p => (files p).isSome) hs.installedFiles))
  owner := setFileOwner_balanced sys conf
  held _ _ _ := Balanced.pair
  both old pkg s held hs := by
    have htaken := (hs.take old).take pkg
    rw [Multiset.cons_swap] at htaken
    rw [refCounts_freeInstalledFiles, refCounts_freeInstalledFiles,
      refCounts_getInstalledFiles, refCounts_getInstalledFiles]
    exact htaken.release.release

section Runs

variable [DecidableEq A]

inductive PkgCommand (P : Type) where
  | install (pkg : P)
  | remove (pkg : P)

variable (h sys conf qsort) in
/-- Whatever the call returns, the next one finds the state that it has left. -/
def runCommand (depth : ℕ) (s : InstallState platform A P D W) :
    PkgCommand P → Option (InstallState platform A P D W)
  | .install pkg => (opkgInstallPkg h sys conf qsort depth pkg s).map Prod.snd
  | .remove pkg => (removePkg h sys conf depth pkg s).map Prod.snd

/-- **No list of installed files is forgotten or lost.** After any installations and removals, each
of them done or failed wherever it may, the lists have the holders that they had before, and those
without a holder are not kept. -/
theorem heldBy_of_runCommands {depth : ℕ} {commands : List (PkgCommand P)} {held : Multiset P}
    (hs : s.refCounts.HeldBy held)
    (hrun : commands.foldlM (runCommand h sys conf qsort depth) s = some s') :
    s'.refCounts.HeldBy held := by
  refine foldlM_preserves (fun t => t.refCounts.HeldBy held) ?_ hs hrun
  intro t command t' ht hcommand
  cases command with
  | install pkg =>
    obtain ⟨⟨result, u⟩, hcall, rfl⟩ := Option.map_eq_some_iff.mp hcommand
    exact opkgInstallPkg_keeps balanced_installRelation depth pkg t result u hcall held ht
  | remove pkg =>
    obtain ⟨⟨err, u⟩, hcall, rfl⟩ := Option.map_eq_some_iff.mp hcommand
    exact removePkg_keeps balanced_installRelation hcall held ht

namespace Rival

def filledSystem : System arm Rival Rival Unit Unit :=
  { system with
    archiveLines := fun _ _ => [ascii "./a"]
    listLines := fun _ _ _ => [ascii "/a"] }

theorem heldBy_after_commands :
    ∃ s', [.install fresh, .remove present, .install fresh].foldlM
        (runCommand hash filledSystem Rival.conf (Qsort.stable _) 3) state = some s' ∧
      s'.refCounts.HeldBy 0 := by
  have hsome : ([.install fresh, .remove present, .install fresh].foldlM
      (runCommand hash filledSystem Rival.conf (Qsort.stable _) 3) state).isSome = true := by
    decide +kernel
  obtain ⟨s', hrun⟩ := Option.isSome_iff_exists.mp hsome
  refine ⟨s', hrun, heldBy_of_runCommands ⟨fun p => ?_, fun p => ?_⟩ hrun⟩
  · exact congrArg Nat.cast (Multiset.count_zero p).symm
  · exact iff_of_false Bool.false_ne_true (Multiset.notMem_zero p)

end Rival

end Runs

namespace FileTree

/-- What a removal takes away: files, and the directories that nothing remains in. -/
inductive Goes {N : Type} (tree : FileTree N) (modified : N → Bool) (files names : List N) :
    N → Prop
  | file {n : N} : n ∈ files → tree.isDir n = false → modified n = false → tree.removable n →
      Goes tree modified files names n
  | dir {n : N} : n ∈ files → tree.isDir n → tree.removable n →
      (∀ m ∈ names, tree.dir m = some n → Goes tree modified files names m) →
      Goes tree modified files names n

variable {N : Type} [DecidableEq N] {tree : FileTree N} {modified : N → Bool}
  {files dirs names left : List N} {n : N}

theorem rmdir_eq_some_iff :
    tree.rmdir names n = some left ↔ (n ∈ names ∧ tree.isDir n ∧ tree.removable n ∧
      ∀ m ∈ names, tree.dir m ≠ some n) ∧ names.filter (· ≠ n) = left := by
  simp [rmdir, fileIsDir, and_assoc]

theorem mem_deleteFiles (tree : FileTree N) (noaction : Bool) (modified : N → Bool)
    (files names : List N) (n : N) :
    (n ∈ (tree.deleteFiles noaction modified files names).1 ↔ n ∈ names ∧ ¬(noaction = false ∧
      n ∈ files ∧ tree.isDir n = false ∧ modified n = false ∧ tree.removable n)) ∧
    (n ∈ (tree.deleteFiles noaction modified files names).2 ↔
      n ∈ files ∧ n ∈ names ∧ tree.isDir n) := by
  induction files generalizing names with
  | nil => simp [deleteFiles]
  | cons fileName files ih =>
    rw [deleteFiles]
    split
    case isTrue hdir =>
      rw [fileIsDir, Bool.and_eq_true, decide_eq_true_iff] at hdir
      by_cases hn : n = fileName
      · subst hn
        simp [ih, hdir]
      · simp [ih, hn]
    case isFalse hfile =>
      rw [fileIsDir, Bool.and_eq_true, decide_eq_true_iff, not_and, Bool.not_eq_true] at hfile
      have hmem : n ∈ (if modified fileName || noaction then names
            else tree.unlink names fileName) ↔
          n ∈ names ∧ ¬(noaction = false ∧ n = fileName ∧ modified n = false ∧
            tree.removable n) := by
        unfold unlink
        by_cases hn : n = fileName
        · subst hn
          cases noaction <;> cases modified n <;> cases tree.removable n <;> simp
        · split_ifs <;> simp [hn]
      rw [(ih _).1, (ih _).2, hmem, List.mem_cons]
      by_cases hn : n = fileName
      · subst hn
        by_cases hnames : n ∈ names
        · simp [hnames, hfile hnames]
          tauto
        · simp [hnames]
      · simp [hn]

/-- One turn: nothing is removed but what has to go, and what stays is left for the next. -/
theorem rmdirEach_spec {all : List N} (dirs names : List N) (hdirs : dirs ⊆ files)
    (hgone : ∀ m ∈ all, m ∉ names → Goes tree modified files all m) :
    (∀ m ∈ all, m ∉ (tree.rmdirEach dirs names).1 → Goes tree modified files all m) ∧
      (tree.rmdirEach dirs names).1 ⊆ names ∧ (tree.rmdirEach dirs names).2 ⊆ dirs ∧
      ∀ d ∈ dirs, d ∈ (tree.rmdirEach dirs names).1 → d ∈ (tree.rmdirEach dirs names).2 := by
  fun_induction rmdirEach tree dirs names with
  | case1 names => exact ⟨hgone, List.Subset.refl _, List.Subset.refl _, nofun⟩
  | case2 d dirs names rest hsome ih =>
    obtain ⟨hd, hdirs⟩ := List.cons_subset.mp hdirs
    obtain ⟨⟨-, hdir, hremovable, hempty⟩, rfl⟩ := rmdir_eq_some_iff.mp hsome
    obtain ⟨hsound, hnames, hleft, hstay⟩ := ih hdirs fun m hm hfilter => by
      by_cases heq : m = d
      · subst heq
        exact .dir hd hdir hremovable fun c hc hin => hgone c hc fun hmem => hempty c hmem hin
      · exact hgone m hm fun hmem => hfilter (List.mem_filter.mpr ⟨hmem, decide_eq_true heq⟩)
    exact ⟨hsound, by grind⟩
  | case3 d dirs names hnone rest left hrest ih =>
    rw [hrest] at ih
    obtain ⟨hsound, hnames, hleft, hstay⟩ := ih (List.cons_subset.mp hdirs).2 hgone
    exact ⟨hsound, hnames, List.cons_subset_cons _ hleft, by grind⟩

theorem length_rmdirEach (dirs names : List N) :
    (tree.rmdirEach dirs names).2.length ≤ dirs.length ∧
      (dirs.length ≤ (tree.rmdirEach dirs names).2.length →
        (tree.rmdirEach dirs names).1 = names ∧ ∀ d ∈ dirs, tree.rmdir names d = none) := by
  fun_induction rmdirEach tree dirs names with
  | case1 names => simp
  | case2 d dirs names rest hsome ih => grind
  | case3 d dirs names hnone rest left hrest ih => grind

/-- In the end no directory that is still there can be removed. -/
theorem rmdirLoop_spec {all : List N} (dirs names : List N) (hdirs : dirs ⊆ files)
    (hgone : ∀ m ∈ all, m ∉ names → Goes tree modified files all m) :
    (∀ m ∈ all, m ∉ tree.rmdirLoop dirs names → Goes tree modified files all m) ∧
      tree.rmdirLoop dirs names ⊆ names ∧
      ∀ d ∈ dirs, d ∈ tree.rmdirLoop dirs names →
        tree.rmdir (tree.rmdirLoop dirs names) d = none := by
  fun_induction rmdirLoop tree dirs names with
  | case1 dirs names turn hlt ih =>
    obtain ⟨hturn, hnames, hleft, hstay⟩ := rmdirEach_spec dirs names hdirs hgone
    obtain ⟨hsound, hsubset, hdone⟩ := ih (fun d hd => hdirs (hleft hd)) hturn
    exact ⟨hsound, fun m hm => hnames (hsubset hm),
      fun d hd hmem => hdone d (hstay d hd (hsubset hmem)) hmem⟩
  | case2 dirs names turn hlt =>
    obtain ⟨hsame, hnone⟩ := (length_rmdirEach dirs names).2 (not_lt.mp hlt)
    refine ⟨(rmdirEach_spec dirs names hdirs hgone).1, fun m hm => hsame ▸ hm, fun d hd _ => ?_⟩
    exact hsame ▸ hnone d hd

/-- **What a removal takes from the disk** is every file of the package but for modified conffiles,
and every directory of it that nothing remains in, in whatever order they are listed. -/
theorem mem_removeDataFiles (noaction : Bool) (n : N) :
    n ∈ tree.removeDataFiles noaction modified files names ↔
      n ∈ names ∧ ¬(noaction = false ∧ Goes tree modified files names n) := by
  have hdeleted := mem_deleteFiles tree noaction modified files names
  unfold removeDataFiles
  generalize tree.deleteFiles noaction modified files names = deleted at hdeleted ⊢
  obtain ⟨left, dirs⟩ := deleted
  cases noaction with
  | true => simpa using (hdeleted n).1
  | false =>
    have hgone (m : N) (hm : m ∈ names) (hnot : m ∉ left) : Goes tree modified files names m := by
      have hfile := mt (hdeleted m).1.mpr hnot
      rw [not_and, not_not] at hfile
      obtain ⟨-, hmem, hdir, hmodified, hremovable⟩ := hfile hm
      exact .file hmem hdir hmodified hremovable
    obtain ⟨hsound, hsubset, hdone⟩ :=
      rmdirLoop_spec dirs left (fun d hd => ((hdeleted d).2.mp hd).1) hgone
    have hthere {m : N} (hm : m ∈ tree.rmdirLoop dirs left) := (hdeleted m).1.mp (hsubset hm)
    refine ⟨fun hn => ⟨(hthere hn).1, ?_⟩, fun ⟨hn, hstays⟩ => ?_⟩
    · rintro ⟨-, hgoes⟩
      induction hgoes with
      | file hmem hdir hmodified hremovable =>
        exact (hthere hn).2 ⟨rfl, hmem, hdir, hmodified, hremovable⟩
      | @dir d hmem hdir hremovable _ ih =>
        have hnone := hdone d ((hdeleted d).2.mpr ⟨hmem, (hthere hn).1, hdir⟩) hn
        have hsome := rmdir_eq_some_iff.mpr
          ⟨⟨hn, hdir, hremovable, fun c hc hin => ih c (hthere hc).1 hin hc⟩, rfl⟩
        exact absurd (hnone.symm.trans hsome) nofun
    · by_contra hnot
      exact hstays ⟨rfl, hsound n hn hnot⟩

end FileTree

end Openmoko.Opkg
