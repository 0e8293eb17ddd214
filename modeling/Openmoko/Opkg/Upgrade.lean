import Openmoko.Opkg.ActiveList
import Openmoko.Opkg.HashTable
import Openmoko.Opkg.PkgHash

/-!
# The upgrade list (`opkg_upgrade.c`)

Every installed package is put in one active list, and while that list is gone through, the ones
that a newer candidate exists for are moved to another.
-/

namespace Openmoko.Opkg

section ActiveListFunctions

variable {N : Type} [DecidableEq N]

def activeListReset (h : ActiveHeap N) (ptr : N) : ActiveHeap N where
  links := initListHead (initListHead h.links (.node ptr)) (.depend ptr)
  depended := Function.update h.depended ptr none

def activeListMoveNode (h : ActiveHeap N) (oldHead newHead node : N) :
    Except ActiveFault (ActivePtr N × ActiveHeap N) :=
  if oldHead = newHead then
    pure (some (.node node), h)
  else do
    let prev ← activeListPrev h oldHead (some (.node node))
    pure (prev, activeListAdd h newHead node)

def listHeadClear : ℕ → ListHead N → ListHead N → ActiveHeap N → Except ActiveFault (ActiveHeap N)
  | 0, _, _, _ => .error .outOfFuel
  | fuel + 1, head, ptr, h =>
    if ptr = head then
      pure h
    else do
      let n := h.links.next ptr
      let next ← structAt ptr
      let cleared :=
        if h.links.next (.depend next) ≠ .depend next then
          listHeadClear fuel (.depend next) (h.links.next (.depend next)) h
        else
          pure h
      let h ← cleared
      listHeadClear fuel head n (activeListReset h next)

def activeListClear (h : ActiveHeap N) (fuel : ℕ) (head : N) :
    Except ActiveFault (ActiveHeap N) := do
  let h ← listHeadClear fuel (.node head) (h.links.next (.node head)) h
  let cleared :=
    if h.links.next (.depend head) ≠ .depend head then
      listHeadClear fuel (.depend head) (h.links.next (.depend head)) h
    else
      pure h
  let h ← cleared
  pure (activeListReset h head)

end ActiveListFunctions

/-- The structures of a run: the two heads that it allocates and the `list` of every package. -/
inductive UpgradeNode (P : Type) where
  | head
  | all
  | list (pkg : P)
  deriving DecidableEq

/-- `list_entry(node, pkg_t, list)`. -/
def pkgAt {P : Type} : ListHead (UpgradeNode P) → Except ActiveFault P
  | .node (.list pkg) => .ok pkg
  | _ => .error .notAStruct

/-- `conf->pkg_hash` as `pkg_info_preinstall_check` leaves it. No name is entered without its
abstract package. -/
structure UpgradeConf (platform : Platform) (A P : Type) extends NamedHash platform A P where
  pkgHash : EntryTable platform A
  entered : ∀ entry ∈ pkgHash.foreach, entry.2.isSome

variable {platform : Platform} {A P : Type} [DecidableEq A] [DecidableEq P]

variable (conf : UpgradeConf platform A P)

def pkgHashFetchBestInstallationCandidateByName (qsort : Qsort P)
    (name : List Byte) : Option P :=
  match conf.pkgHash.get name with
  | none => none
  | some apkg =>
    pkgHashFetchBestInstallationCandidate conf.toPkgHash qsort apkg fun pkg =>
      (conf.pkg pkg).name = name

def pkgHashCheckInstalledPkgHelper
    (heap : ActiveHeap (UpgradeNode P)) (abPkg : A) : ActiveHeap (UpgradeNode P) :=
  ((conf.apkg abPkg).pkgs.getD []).foldl
    (fun heap pkg =>
      if isInstalled (conf.pkg pkg).stateStatus then activeListAdd heap .all (.list pkg) else heap)
    heap

def upgradeTurn (qsort : Qsort P)
    (node : ListHead (UpgradeNode P)) (heap : ActiveHeap (UpgradeNode P)) :
    Except ActiveFault (ActivePtr (UpgradeNode P) × ActiveHeap (UpgradeNode P)) := do
  let old ← pkgAt node
  match pkgHashFetchBestInstallationCandidateByName conf qsort (conf.pkg old).name with
  | none => pure (some node, heap)
  | some new =>
    let cmp := pkgCompareVersions platform (conf.pkg old).toPkgVersion (conf.pkg new).toPkgVersion
    if cmp < 0 then activeListMoveNode heap .all .head (.list old) else pure (some node, heap)

def upgradeLoop (conf : UpgradeConf platform A P) (qsort : Qsort P) :
    ℕ → ActivePtr (UpgradeNode P) → ActiveHeap (UpgradeNode P) →
      Except ActiveFault (ActiveHeap (UpgradeNode P))
  | 0, _, _ => .error .outOfFuel
  | _ + 1, none, heap => pure heap
  | fuel + 1, some node, heap => do
    let turned ← upgradeTurn conf qsort node heap
    let next ← activeListNext turned.2 fuel .all turned.1
    upgradeLoop conf qsort fuel next turned.2

/-- `prepare_upgrade_list`. `pkg_init` left every package's `list` initialized, and so does whoever
deletes the list that an earlier call returned. -/
def prepareUpgradeList (qsort : Qsort P) (fuel : ℕ) :
    Except ActiveFault (ActiveHeap (UpgradeNode P)) := do
  let heap := (conf.pkgHash.foreach.filterMap Prod.snd).foldl (pkgHashCheckInstalledPkgHelper conf)
    activeListInit
  let node ← activeListNext heap fuel .all (some (.node .all))
  let heap ← upgradeLoop conf qsort fuel node heap
  activeListClear heap fuel .all

end Openmoko.Opkg
