import Mathlib.Data.Int.Notation
import Mathlib.Data.Nat.Notation
import Openmoko.Library.CString
import Openmoko.Library.Machine

/-!
# Messages and their notes (`moko-sms.c`)

Every message, sent or received, is a note in a store, and what has become of it is told by the
categories of the note. The store tells of its changes by signals of a view, which arrive later.
-/

namespace Openmoko.Phonekit

inductive Category where
  | sending
  | sent
  | rejected
  | read
  deriving DecidableEq, Repr

structure JanaNote where
  uid : ℕ
  author : Option (List Byte)
  recipient : Option (List Byte)
  body : List Byte
  categories : List Category
  -- the number that `X-PHONEKIT-SMS-REF` is the text of
  ref : Option ℤ
  deriving DecidableEq, Repr

def JanaNote.hasCategory (note : JanaNote) (category : Category) : Bool :=
  note.categories.contains category

def JanaNote.removeCategory (note : JanaNote) (category : Category) : JanaNote :=
  { note with categories := note.categories.filter (· ≠ category) }

def JanaNote.insertCategory (note : JanaNote) (category : Category) : JanaNote :=
  { note with categories := category :: note.categories }

inductive NoteSignal where
  | added (comp : JanaNote)
  | modified (comp : JanaNote)
  | removed (uid : ℕ)
  deriving DecidableEq, Repr

structure MokoSms where
  -- the components of `sms_store`, which gives them their uids
  notes : List JanaNote
  nextUid : ℕ
  lastMsg : Option JanaNote
  unreadUids : List ℕ
  -- what the view of the store has not told yet
  signals : List NoteSignal
  deriving DecidableEq, Repr

def smsStoreOpened (nextUid : ℕ) : MokoSms :=
  { notes := [], nextUid := nextUid, lastMsg := none, unreadUids := [], signals := [] }

variable (s : MokoSms)

def MokoSms.stores (uid : ℕ) : Bool := s.notes.any (·.uid = uid)

def janaStoreAddComponent (note : JanaNote) : MokoSms :=
  { s with
    notes := s.notes ++ [note]
    nextUid := s.nextUid + 1
    signals := s.signals ++ [.added note] }

def janaStoreModifyComponent (note : JanaNote) : MokoSms :=
  if s.stores note.uid then
    { s with
      notes := s.notes.map fun n => if n.uid = note.uid then note else n
      signals := s.signals ++ [.modified note] }
  else s

def janaStoreRemoveComponent (uid : ℕ) : MokoSms :=
  if s.stores uid then
    { s with
      notes := s.notes.filter (·.uid ≠ uid)
      signals := s.signals ++ [.removed uid] }
  else s

def mokoSmsSend (subNum : Option (List Byte)) (number message : List Byte)
    (report : Bool) : MokoSms :=
  let note : JanaNote :=
    { uid := s.nextUid
      author := subNum
      recipient := some number
      body := message
      categories := if report then [.sending] else [.sent]
      ref := none }
  -- where there is a `last_msg` already, a warning is given
  { janaStoreAddComponent s note with lastMsg := some note }

def onSendSms (result : ℤ) : MokoSms :=
  match s.lastMsg with
  | some note =>
    let note' :=
      if result ≥ 0 then { note with ref := some result }
      else ((note.removeCategory .sent).removeCategory .sending).insertCategory .rejected
    { janaStoreModifyComponent s note' with lastMsg := none }
  | none => s

def TP_STATUS_RECEIVED_OK : ℤ := 0

def statusReportAddedCb (components : List JanaNote) (ref : ℤ) : MokoSms :=
  components.foldl
    (fun s comp =>
      if comp.ref = some ref then
        janaStoreModifyComponent s ((comp.removeCategory .sending).insertCategory .sent)
      else s) s

def onIncomingDs (codingScheme index : ℤ) : MokoSms :=
  if codingScheme = TP_STATUS_RECEIVED_OK then
    statusReportAddedCb s (s.notes.filter (·.hasCategory .sending)) index
  else s

/-- What is in the payload, with `message` as it is decoded. -/
structure SmsPayload where
  isVoicemail : Bool
  author : List Byte
  message : Option (List Byte)
  deriving DecidableEq, Repr

def onIncomingSms (ownNumber : Option (List Byte)) (payload : SmsPayload) : MokoSms :=
  if payload.isVoicemail then s
  else
    match payload.message with
    | some message =>
      janaStoreAddComponent s
        { uid := s.nextUid, author := some payload.author, recipient := ownNumber,
          body := message, categories := [], ref := none }
    | none => s

def JanaNote.isUnread (comp : JanaNote) : Bool :=
  !comp.hasCategory .read && !(comp.hasCategory .sending || comp.hasCategory .sent)

def noteAddedCb (unreadUids : List ℕ) (comp : JanaNote) : List ℕ :=
  if comp.isUnread then comp.uid :: unreadUids else unreadUids

def noteModifiedCb (unreadUids : List ℕ) (comp : JanaNote) : List ℕ :=
  if comp.uid ∈ unreadUids then
    if comp.hasCategory .read then unreadUids.erase comp.uid else unreadUids
  else if comp.isUnread then comp.uid :: unreadUids
  else unreadUids

def noteRemovedCb (unreadUids : List ℕ) (uid : ℕ) : List ℕ := unreadUids.erase uid

def onNoteSignal (unreadUids : List ℕ) : NoteSignal → List ℕ
  | .added comp => noteAddedCb unreadUids comp
  | .modified comp => noteModifiedCb unreadUids comp
  | .removed uid => noteRemovedCb unreadUids uid

def deliverSignal : MokoSms :=
  match s.signals with
  | signal :: signals =>
    { s with unreadUids := onNoteSignal s.unreadUids signal, signals := signals }
  | [] => s

def markMessageRead (uid : ℕ) : MokoSms :=
  match s.notes.find? (·.uid = uid) with
  | some comp =>
    if comp.hasCategory .read then s
    else janaStoreModifyComponent s (comp.insertCategory .read)
  | none => s

end Openmoko.Phonekit
