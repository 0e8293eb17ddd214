import Mathlib.Data.Nat.Notation
import Openmoko.Library.Machine

/-!
# The journal and its storage (`moko-journal.c`)

The journal is a cache of what a calendar store holds. Its changes wait until they are written, and
the store tells about changes, also those of others, by notifications that arrive later. Of an entry
only its uid matters here, which it gets from the store.
-/

namespace Openmoko.Mokojournal

inductive Change where
  | added
  | removed
  deriving DecidableEq, Repr

/-- A signal of the view, for one object. -/
structure Notification where
  uid : ℕ
  change : Change
  -- it tells of what somebody else did
  foreign : Bool
  deriving DecidableEq, Repr

structure Journal where
  -- `NULL` for an entry that was never stored
  entries : List (Option ℕ)
  entriesToDelete : List ℕ
  -- the store
  stored : List ℕ
  nextUid : ℕ
  -- `ecal_view` has been started
  ecalView : Bool
  -- what it has not delivered yet
  queue : List Notification
  -- kept for the specification: what the client has removed, and what others have changed that no
  -- notification will tell of
  removed : List ℕ
  unannounced : List ℕ
  deriving DecidableEq, Repr

inductive JournalEvent where
  -- of the client
  | loadFromStorage
  | addEntry
  | removeEntryAt (index : ℕ)
  | removeEntryByUid (uid : ℕ)
  | writeToStorage
  -- of the main loop
  | notification
  -- of others
  | otherAdds
  | otherRemoves (uid : ℕ)
  deriving DecidableEq, Repr

inductive JournalObs where
  | entryAdded (uid : ℕ)
  | entryRemoved (uid : ℕ)
  deriving DecidableEq, Repr

/-- A journal that has just been opened over a store with these objects. -/
def mokoJournalOpen (stored : List ℕ) (nextUid : ℕ) : Journal :=
  { entries := [], entriesToDelete := [], stored := stored, nextUid := nextUid, ecalView := false,
    queue := [], removed := [], unannounced := stored }

variable (s : Journal)

def Journal.cached : List ℕ := s.entries.filterMap id

def announce (n : Notification) : Journal :=
  if s.ecalView then { s with queue := s.queue ++ [n] }
  else if n.foreign then { s with unannounced := n.uid :: s.unannounced }
  else s

def eCalCreateObject (foreign : Bool) : Journal × ℕ :=
  (announce { s with stored := s.stored ++ [s.nextUid], nextUid := s.nextUid + 1 }
    { uid := s.nextUid, change := .added, foreign := foreign }, s.nextUid)

def eCalRemoveObject (uid : ℕ) (foreign : Bool) : Journal :=
  if uid ∈ s.stored then
    announce { s with stored := s.stored.filter (· ≠ uid) }
      { uid := uid, change := .removed, foreign := foreign }
  else s

def eCalViewStart (tellsAll : Bool) (s : Journal) : Journal :=
  { s with
    ecalView := true
    queue :=
      if tellsAll then
        s.stored.map fun uid => { uid := uid, change := .added, foreign := false }
      else [] }

def mokoJournalAddEntry (uid : Option ℕ) : Journal :=
  { s with entries := s.entries ++ [uid] }

def mokoJournalRemoveEntryAt (index : ℕ) : Option Journal :=
  match s.entries[index]? with
  | some (some uid) =>
    some { s with
      entries := s.entries.eraseIdx index
      entriesToDelete := uid :: s.entriesToDelete }
  | some none => some { s with entries := s.entries.eraseIdx index }
  | none => none

def mokoJournalRemoveEntryByUid (uid : ℕ) : Option Journal :=
  (s.entries.findIdx? (· = some uid)).bind (mokoJournalRemoveEntryAt s)

def writeEntries (s : Journal) : List (Option ℕ) → Journal × List (Option ℕ)
  | [] => (s, [])
  | entry :: entries =>
    let (s', entries') := writeEntries s entries
    match entry with
    -- `e_cal_modify_object` changes no uid
    | some uid => (s', some uid :: entries')
    | none =>
      let (s'', uid) := eCalCreateObject s' false
      (s'', some uid :: entries')

def deleteEntries (uids : List ℕ) : Journal :=
  uids.foldl (fun s uid => eCalRemoveObject s uid false) s

def mokoJournalWriteToStorage : Journal :=
  let (s', entries) := writeEntries s s.entries
  { deleteEntries { s' with entries := entries } s.entriesToDelete with entriesToDelete := [] }

def onEntriesAddedCb (uid : ℕ) : Journal × List JournalObs :=
  if some uid ∈ s.entries then (s, [.entryAdded uid])
  else (mokoJournalAddEntry s (some uid), [.entryAdded uid])

def onEntriesRemovedCb (uid : ℕ) : Journal × List JournalObs :=
  match mokoJournalRemoveEntryByUid s uid with
  | some s' => (s', [.entryRemoved uid])
  | none => (s, [])

def mokoJournalLoadFromStorage (tellsAll : Bool) (s : Journal) : Journal :=
  let s' := if s.ecalView then s else eCalViewStart tellsAll s
  { s' with
    entries := s'.entries ++ s'.stored.map some
    unannounced := s'.unannounced.filter (· ∉ s'.stored) }

def clientRemoves (index : ℕ) : Journal :=
  match mokoJournalRemoveEntryAt s index, s.entries[index]? with
  | some s', some (some uid) => { s' with removed := uid :: s'.removed }
  | some s', _ => s'
  | none, _ => s

def journalStep (tellsAll : Bool) (s : Journal) : JournalEvent → Journal × List JournalObs
  | .loadFromStorage => (mokoJournalLoadFromStorage tellsAll s, [])
  | .addEntry => (mokoJournalAddEntry s none, [])
  | .removeEntryAt index => (clientRemoves s index, [])
  | .removeEntryByUid uid =>
    match s.entries.findIdx? (· = some uid) with
    | some index => (clientRemoves s index, [.entryRemoved uid])
    | none => (s, [])
  | .writeToStorage => (mokoJournalWriteToStorage s, [])
  | .notification =>
    match s.queue with
    | [] => (s, [])
    | n :: queue =>
      match n.change with
      | .added => onEntriesAddedCb { s with queue := queue } n.uid
      | .removed => onEntriesRemovedCb { s with queue := queue } n.uid
  | .otherAdds => ((eCalCreateObject s true).1, [])
  | .otherRemoves uid => (eCalRemoveObject s uid true, [])

def journal (tellsAll : Bool) : Machine Journal JournalEvent JournalObs :=
  { step := journalStep tellsAll }

end Openmoko.Mokojournal
