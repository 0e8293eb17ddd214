import Openmoko.Opkg.FileHash

/-!
# Who owns a file

Where no offline root is set, the file hash is the map of the last owners. The packages' lists agree
with it as long as a file is given only to the package that lists it, and to one that owns the file
already only while nobody holds that package's list.
-/

namespace Openmoko.Opkg

variable {platform : Platform} {P : Type} [DecidableEq P] {offlineRoot : Option (List Byte)}

def lastOwner (offlineRoot : Option (List Byte)) (calls : List (List Byte × P)) :
    List Byte → Option P :=
  calls.foldl (fun owner call =>
    if isDirName call.1 then owner
    else Function.update owner (withoutOfflineRoot offlineRoot call.1) (some call.2)) fun _ => none

/-- The hash answers with the last owner under either name. -/
def OwnedByLast (offlineRoot : Option (List Byte)) (s : FileState platform P)
    (calls : List (List Byte × P)) : Prop :=
  ∀ f, isDirName f = false →
    fileHashGetFileOwner s f = lastOwner offlineRoot calls (withoutOfflineRoot offlineRoot f)

/-- The hash answers with the last owner, and a file that has an owner is in the list of this package
only. -/
structure OwnershipAgrees (offlineRoot : Option (List Byte)) (s : FileState platform P)
    (calls : List (List Byte × P)) : Prop where
  owner : OwnedByLast offlineRoot s calls
  listed : ∀ f p, lastOwner offlineRoot calls f = some p →
    ∀ q, f ∈ (s.files q).map (withoutOfflineRoot offlineRoot) ↔ q = p

/-- The package owns the file already, and setting it again changes neither the hash nor its list. -/
def SetAgain (offlineRoot : Option (List Byte)) (s : FileState platform P) (call : List Byte × P) :
    Prop :=
  fileHashGetFileOwner s call.1 = some call.2 →
    (∀ f, fileHashGetFileOwner (fileHashSetFileOwner offlineRoot s call.1 call.2) f =
      fileHashGetFileOwner s f) ∧
    (fileHashSetFileOwner offlineRoot s call.1 call.2).files call.2 = s.files call.2

/-- The condition on a call: there is no offline root, the file is a directory or is listed by the
package that is to own it and by no other, and nobody holds that package's list if the file has an
owner. -/
def SetsListed (offlineRoot : Option (List Byte)) (s : FileState platform P)
    (call : List Byte × P) : Prop :=
  (offlineRoot = none ∨ offlineRoot = some []) ∧
    (isDirName call.1 = false →
      (∀ q, call.1 ∈ s.files q ↔ q = call.2) ∧
      (fileHashGetFileOwner s call.1 ≠ none → (s.pkg call.2).Released))

theorem withoutOfflineRoot_unset (hroot : offlineRoot = none ∨ offlineRoot = some []) :
    withoutOfflineRoot offlineRoot = id := by
  funext f
  rcases hroot with rfl | rfl
  · rfl
  · simp [withoutOfflineRoot]

omit [DecidableEq P] in
theorem lastOwner_concat (calls : List (List Byte × P)) (call : List Byte × P) :
    lastOwner offlineRoot (calls ++ [call]) =
      if isDirName call.1 then lastOwner offlineRoot calls
      else Function.update (lastOwner offlineRoot calls)
        (withoutOfflineRoot offlineRoot call.1) (some call.2) := by
  rw [lastOwner, List.foldl_append]
  rfl

variable {call : List Byte × P} {calls : List (List Byte × P)} {s : FileState platform P}

theorem fileHashSetFileOwner_dir (s : FileState platform P) (hdir : isDirName call.1 = true) :
    fileHashSetFileOwner offlineRoot s call.1 call.2 = s := by
  rw [fileHashSetFileOwner, if_pos hdir]

theorem fileHashGetFileOwner_set (s : FileState platform P) {f : List Byte} (p : P)
    (hdir : isDirName f = false) (g : List Byte) :
    fileHashGetFileOwner (fileHashSetFileOwner offlineRoot s f p) g =
      if g = withoutOfflineRoot offlineRoot f then some p else fileHashGetFileOwner s g := by
  rw [fileHashSetFileOwner, if_neg (by simp [hdir])]
  cases hold : s.fileHash.get f with
  | none => exact HashTable.get_insert _ _ _ _
  | some old => exact HashTable.get_insert _ _ _ _

theorem OwnedByLast.set (howner : OwnedByLast offlineRoot s calls)
    (hroot : offlineRoot = none ∨ offlineRoot = some []) (call : List Byte × P) :
    OwnedByLast offlineRoot (fileHashSetFileOwner offlineRoot s call.1 call.2)
      (calls ++ [call]) := by
  have hid := withoutOfflineRoot_unset hroot
  intro f hf
  rw [lastOwner_concat]
  by_cases hdir : isDirName call.1 = true
  · rw [fileHashSetFileOwner_dir s hdir, if_pos hdir]
    exact howner f hf
  rw [if_neg hdir, fileHashGetFileOwner_set s call.2 (Bool.eq_false_of_not_eq_true hdir), hid, id,
    id]
  by_cases hfile : f = call.1
  · rw [if_pos hfile, hfile, Function.update_self]
  · rw [if_neg hfile, Function.update_of_ne hfile, howner f hf, hid, id]

theorem ownedByLast_exec (hempty : ∀ f, fileHashGetFileOwner s f = none)
    (hroot : offlineRoot = none ∨ offlineRoot = some []) (calls : List (List Byte × P)) :
    OwnedByLast offlineRoot ((fileOwnerMachine offlineRoot).exec s calls).1 calls := by
  induction calls using List.reverseRecOn with
  | nil => exact fun f _ => hempty f
  | append_singleton calls call ih =>
    rw [Machine.exec_concat]
    exact ih.set hroot call

theorem PkgFiles.files_of_released {pkg : PkgFiles} (hreleased : pkg.Released) (f : List Byte) :
    (((pkg.getInstalledFiles.removeInstalledFile f).freeInstalledFiles).markFilelistChanged).files =
      pkg.files := by
  obtain ⟨hnone, hcnt⟩ := hreleased
  have hfree : ¬pkg.installedFilesRefCnt + 1 - 1 > 0 := by omega
  simp only [PkgFiles.files, PkgFiles.markFilelistChanged, PkgFiles.freeInstalledFiles,
    PkgFiles.removeInstalledFile, PkgFiles.getInstalledFiles, if_neg hfree, hnone]
  rfl

theorem FileState.files_modify (s : FileState platform P) (p q : P) {change : PkgFiles → PkgFiles}
    (hchange : (change (s.pkg p)).files = (s.pkg p).files) :
    (s.modify p change).files q = s.files q := by
  by_cases hq : q = p
  · subst hq
    simpa [FileState.modify, FileState.files] using hchange
  · simp [FileState.modify, FileState.files, hq]

theorem files_set (offlineRoot : Option (List Byte)) (s : FileState platform P) {f : List Byte}
    {p : P}
    (howner : ∀ q, fileHashGetFileOwner s f = some q → (s.pkg q).Released) (q : P) :
    (fileHashSetFileOwner offlineRoot s f p).files q = s.files q := by
  rw [fileHashSetFileOwner]
  by_cases hdir : isDirName f = true
  · rw [if_pos hdir]
  rw [if_neg hdir]
  cases hold : s.fileHash.get f with
  | none => rfl
  | some old =>
    let inserted : FileState platform P :=
      { s with fileHash := s.fileHash.insert (withoutOfflineRoot offlineRoot f) p }
    have hremove : (inserted.modify old fun pkg =>
        ((pkg.getInstalledFiles.removeInstalledFile
          (withoutOfflineRoot offlineRoot f)).freeInstalledFiles).markFilelistChanged).files q =
        s.files q :=
      inserted.files_modify old q (PkgFiles.files_of_released (howner old hold) _)
    rw [← hremove]
    exact FileState.files_modify _ p q rfl

omit [DecidableEq P] in
theorem SetsListed.owner_released (hagrees : OwnershipAgrees offlineRoot s calls)
    (hlisted : SetsListed offlineRoot s call) (hdir : isDirName call.1 = false) (q : P)
    (howner : fileHashGetFileOwner s call.1 = some q) : q = call.2 ∧ (s.pkg q).Released := by
  obtain ⟨hroot, hfile⟩ := hlisted
  obtain ⟨honly, hreleased⟩ := hfile hdir
  have hlast := hagrees.owner call.1 hdir
  rw [howner] at hlast
  have hmem := (hagrees.listed _ q hlast.symm q).mpr rfl
  rw [withoutOfflineRoot_unset hroot, List.map_id] at hmem
  have hq : q = call.2 := (honly q).mp hmem
  refine ⟨hq, hq ▸ hreleased ?_⟩
  rw [howner]
  exact Option.some_ne_none q

theorem OwnershipAgrees.set (hagrees : OwnershipAgrees offlineRoot s calls)
    (hlisted : SetsListed offlineRoot s call) :
    OwnershipAgrees offlineRoot (fileHashSetFileOwner offlineRoot s call.1 call.2)
      (calls ++ [call]) := by
  refine ⟨hagrees.owner.set hlisted.1 call, fun f p hp => ?_⟩
  have hroot := withoutOfflineRoot_unset hlisted.1
  by_cases hdir : isDirName call.1 = true
  · rw [fileHashSetFileOwner_dir s hdir]
    rw [lastOwner_concat, if_pos hdir] at hp
    exact hagrees.listed f p hp
  intro q
  rw [Bool.not_eq_true] at hdir
  rw [lastOwner_concat, if_neg (by simp [hdir]), hroot, id] at hp
  rw [files_set offlineRoot s (fun q hq => (hlisted.owner_released hagrees hdir q hq).2) q]
  by_cases hfile : f = call.1
  · subst hfile
    rw [Function.update_self] at hp
    obtain rfl := Option.some.inj hp
    rw [hroot, List.map_id]
    exact (hlisted.2 hdir).1 q
  · rw [Function.update_of_ne hfile] at hp
    exact hagrees.listed f p hp q

theorem SetsListed.setAgain (hagrees : OwnershipAgrees offlineRoot s calls)
    (hlisted : SetsListed offlineRoot s call) : SetAgain offlineRoot s call := by
  intro howner
  by_cases hdir : isDirName call.1 = true
  · rw [fileHashSetFileOwner_dir s hdir]
    exact ⟨fun _ => rfl, rfl⟩
  rw [Bool.not_eq_true] at hdir
  constructor
  · intro f
    rw [fileHashGetFileOwner_set s call.2 hdir, withoutOfflineRoot_unset hlisted.1, id]
    split
    next heq => rw [heq, howner]
    next => rfl
  · exact files_set _ s (fun q hq => (hlisted.owner_released hagrees hdir q hq).2) call.2

/-- **File ownership.** Without an offline root the hash is the map of the last owners after any
calls. Over calls that meet the condition, every owned file moreover is in the list of its owner
only, and giving a file to its owner again changes neither. -/
theorem file_owner_agrees (s : FileState platform P) (hempty : ∀ f, fileHashGetFileOwner s f = none)
    (calls : List (List Byte × P)) :
    (offlineRoot = none ∨ offlineRoot = some [] →
      OwnedByLast offlineRoot ((fileOwnerMachine offlineRoot).exec s calls).1 calls) ∧
    ((fileOwnerMachine offlineRoot).Meets (SetsListed offlineRoot) s calls →
      OwnershipAgrees offlineRoot ((fileOwnerMachine offlineRoot).exec s calls).1 calls ∧
        ∀ call, SetsListed offlineRoot ((fileOwnerMachine offlineRoot).exec s calls).1 call →
          SetAgain offlineRoot ((fileOwnerMachine offlineRoot).exec s calls).1 call) := by
  refine ⟨fun hroot => ownedByLast_exec hempty hroot calls, fun hmeets => ?_⟩
  have hlog : ((fileOwnerMachine offlineRoot).exec s calls).2 = calls := by
    rw [Machine.exec_log _ id fun _ _ => rfl, List.map_id]
  have hagrees := (fileOwnerMachine offlineRoot).exec_inv
    (fun s log => OwnershipAgrees offlineRoot s log) (s := s)
    ⟨fun f _ => hempty f, fun _ _ hp => absurd hp (by simp [lastOwner])⟩
    (fun _ _ _ hagrees hlisted => hagrees.set hlisted) hmeets
  rw [hlog] at hagrees
  exact ⟨hagrees, fun _ hlisted => hlisted.setAgain hagrees⟩

def listing (fileName : List Byte) : PkgFiles where
  rootDir := []
  listFile := [fileName]
  installedFiles := none
  installedFilesRefCnt := 0
  filelistChanged := false

def twoPackages : FileState ⟨false, 0xffffffff⟩ Bool where
  fileHash := HashTable.init 379
  pkg
    | true => listing (ascii "/a")
    | false => listing (ascii "/b")

/-- A file that goes to another package, and one that is given to its owner again. -/
theorem file_owner_agrees_twice :
    OwnedByLast none
        ((fileOwnerMachine none).exec twoPackages [(ascii "/a", true), (ascii "/a", false)]).1
        [(ascii "/a", true), (ascii "/a", false)] ∧
      OwnershipAgrees none
        ((fileOwnerMachine none).exec twoPackages [(ascii "/a", true), (ascii "/a", true)]).1
        [(ascii "/a", true), (ascii "/a", true)] ∧
      ∀ call, SetsListed none
          ((fileOwnerMachine none).exec twoPackages [(ascii "/a", true), (ascii "/a", true)]).1 call →
        SetAgain none
          ((fileOwnerMachine none).exec twoPackages [(ascii "/a", true), (ascii "/a", true)]).1 call := by
  refine ⟨(file_owner_agrees _ (fun _ => rfl) _).1 (Or.inl rfl),
    (file_owner_agrees _ (fun _ => rfl) _).2 ?_⟩
  exact ⟨⟨Or.inl rfl, fun _ => ⟨fun q => by cases q <;> decide, fun _ => ⟨rfl, by decide⟩⟩⟩,
    ⟨Or.inl rfl, fun _ => ⟨fun q => by cases q <;> decide, fun _ => ⟨rfl, by decide⟩⟩⟩, trivial⟩

/-- With an offline root, a file is kept under the rest of its name, and looked up under the whole. -/
theorem fileHashGetFileOwner_offline :
    ¬∀ (offlineRoot : Option (List Byte)) (s : FileState ⟨false, 0xffffffff⟩ Bool)
      (calls : List (List Byte × Bool)), (∀ f, fileHashGetFileOwner s f = none) →
        OwnershipAgrees offlineRoot ((fileOwnerMachine offlineRoot).exec s calls).1 calls ∧
          ∀ call, SetAgain offlineRoot ((fileOwnerMachine offlineRoot).exec s calls).1 call := by
  intro hall
  have howner := (hall (some (ascii "/r")) twoPackages [(ascii "/r/a", true)]
    (fun _ => rfl)).1.owner (ascii "/r/a") (by decide)
  exact absurd howner (by decide)

end Openmoko.Opkg
