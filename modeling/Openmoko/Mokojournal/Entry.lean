import Openmoko.Library.Decimal

/-!
# Journal entries (`moko-journal.c`)

An entry of the journal is stored as a component of a calendar, which keeps properties and their
parameters as they are given. The times are libical's, and coordinates are compared as numbers.
-/

namespace Openmoko.Mokojournal

inductive MessageDirection where
  | directionIn
  | directionOut
  deriving DecidableEq, Repr

structure MokoGSMLocation where
  lac : UInt16
  cid : UInt16
  deriving DecidableEq, Repr

/-- `MokoJournalVoiceInfo`; it comes into being, all zeros, when it is asked for. -/
structure MokoJournalVoiceInfo where
  distantNumber : Option (List Byte)
  localNumber : Option (List Byte)
  wasMissed : Bool
  deriving DecidableEq, Repr

/-- The type of an entry, with what goes with it in the union `extra`. -/
inductive EntryExtra where
  | email
  | sms
  | voice (info : MokoJournalVoiceInfo)
  | fax
  | data
  deriving DecidableEq, Repr

/-- `MokoJournalEntry`. -/
structure MokoJournalEntry (κ τ : Type) where
  extra : EntryExtra
  uid : Option (List Byte)
  contactUid : Option (List Byte)
  summary : Option (List Byte)
  direction : MessageDirection
  dtstart : Option τ
  dtend : Option τ
  startLongitude : κ
  startLatitude : κ
  source : Option (List Byte)
  gsmLoc : MokoGSMLocation
  wifiApMac : Option (List Byte)
  bluetoothApMac : Option (List Byte)
  deriving DecidableEq, Repr

inductive MokoJournalEntryType where
  | email
  | sms
  | voice
  | fax
  | data
  deriving DecidableEq, Repr

def EntryExtra.type : EntryExtra → MokoJournalEntryType
  | .email => .email
  | .sms => .sms
  | .voice _ => .voice
  | .fax => .fax
  | .data => .data

def entriesInfo : List (MokoJournalEntryType × List Byte) :=
  [(.voice, ascii "VOICEENTRY"), (.email, ascii "EMAILENTRY"), (.sms, ascii "SMSENTRY"),
    (.fax, ascii "FAXENTRY"), (.data, ascii "DATAENTRY")]

def entryTypeToString (type : MokoJournalEntryType) : Option (List Byte) :=
  (entriesInfo.find? (·.1 = type)).map Prod.snd

def entryTypeFromString (str : List Byte) : Option MokoJournalEntryType :=
  (entriesInfo.find? (·.2 = str)).map Prod.fst

inductive XName where
  -- "X-OPENMOKO-ENTRY-DIRECTION"
  | entryDirection
  -- "X-OPENMOKO-ENTRY-SOURCE"
  | entrySource
  -- "X-OPENMOKO-ENTRY-GSM-LOCATION"
  | entryGsmLocation
  -- "X-OPENMOKO-ENTRY-TYPE"
  | entryType
  -- "X-OPENMOKO-VOICE-CALLEE-NUMBER"
  | voiceCalleeNumber
  -- "X-OPENMOKO-VOICE-CALLER-NUMBER"
  | voiceCallerNumber
  -- "X-OPENMOKO-VOICE-CALL-WAS-MISSED"
  | voiceCallWasMissed
  deriving DecidableEq, Repr

/-- The names of the parameters "X-LAC" and "X-CID". -/
inductive XParameter where
  | lac
  | cid
  deriving DecidableEq, Repr

inductive IcalProperty (κ τ : Type) where
  | uid (v : List Byte)
  | contact (v : List Byte)
  | summary (v : List Byte)
  | dtstart (v : τ)
  | dtend (v : τ)
  | geo (lat lon : κ)
  | x (name : XName) (v : List Byte) (parameters : List (XParameter × List Byte))
  deriving DecidableEq, Repr

abbrev IcalComponent (κ τ : Type) := List (IcalProperty κ τ)

section Conversion

variable {κ τ : Type} [Zero κ] [DecidableEq κ]

def textProperty (new : List Byte → IcalProperty κ τ) (text : Option (List Byte)) :
    IcalComponent κ τ :=
  (text.map new).toList

def DIRECTION_IN_TEXT : List Byte := ascii "IN"
def DIRECTION_OUT_TEXT : List Byte := ascii "OUT"

def directionText : MessageDirection → List Byte
  | .directionIn => DIRECTION_IN_TEXT
  | .directionOut => DIRECTION_OUT_TEXT

def SOURCE_NULL : List Byte := ascii "null"

/-- `moko_journal_entry_get_start_location` fills a `MokoLocation`, the longitude first, in what is
a `struct icalgeotype`, the latitude first. -/
def geoProperty (entry : MokoJournalEntry κ τ) : IcalComponent κ τ :=
  if entry.startLongitude ≠ 0 ∧ entry.startLatitude ≠ 0 then
    [.geo entry.startLongitude entry.startLatitude]
  else []

def gsmLocProperty (gsmLoc : MokoGSMLocation) : IcalComponent κ τ :=
  if gsmLoc.lac > 0 ∧ gsmLoc.cid > 0 then
    [.x .entryGsmLocation (ascii "dummy")
      [(.lac, decimal gsmLoc.lac.toNat), (.cid, decimal gsmLoc.cid.toNat)]]
  else []

def YES : List Byte := ascii "YES"
def NO : List Byte := ascii "NO"

def voiceProperties (dir : MessageDirection) (info : MokoJournalVoiceInfo) : IcalComponent κ τ :=
  let (distantName, localName) :=
    if dir = .directionOut then (XName.voiceCalleeNumber, XName.voiceCallerNumber)
    else (XName.voiceCallerNumber, XName.voiceCalleeNumber)
  textProperty (fun number => .x distantName number []) info.distantNumber ++
    textProperty (fun number => .x localName number []) info.localNumber ++
    [.x .voiceCallWasMissed (if info.wasMissed then YES else NO) []]

def extraProperties (dir : MessageDirection) : EntryExtra → IcalComponent κ τ
  | .voice info => voiceProperties dir info
  | _ => []

/-- `moko_journal_entry_to_icalcomponent`; `today` is for times that are not set. -/
def mokoJournalEntryToIcalcomponent (today : τ) (entry : MokoJournalEntry κ τ) :
    IcalComponent κ τ :=
  textProperty .uid entry.uid ++
  textProperty .contact entry.contactUid ++
  textProperty .summary entry.summary ++
  [.x .entryDirection (directionText entry.direction) []] ++
  [.dtstart (entry.dtstart.getD today)] ++
  [.dtend (entry.dtend.getD today)] ++
  geoProperty entry ++
  [.x .entrySource (entry.source.getD SOURCE_NULL) []] ++
  gsmLocProperty entry.gsmLoc ++
  textProperty (fun type => .x .entryType type []) (entryTypeToString entry.extra.type) ++
  extraProperties entry.direction entry.extra

variable (comp : IcalComponent κ τ)

def icalcomponentFindProperty (name : XName) :
    Option (List Byte × List (XParameter × List Byte)) :=
  comp.findSome? fun
    | .x name' v parameters => if name' = name then some (v, parameters) else none
    | _ => none

def icalcomponentFindPropertyAsString (name : XName) :
    Option (List Byte) :=
  (icalcomponentFindProperty comp name).map Prod.fst

def mokoJournalEntryAlloc (extra : EntryExtra) (direction : MessageDirection) :
    MokoJournalEntry κ τ :=
  { extra := extra, uid := none, contactUid := none, summary := none, direction := direction,
    dtstart := none, dtend := none, startLongitude := 0, startLatitude := 0, source := none,
    gsmLoc := { lac := 0, cid := 0 }, wifiApMac := none, bluetoothApMac := none }

def readSource : Option (List Byte) :=
  (icalcomponentFindPropertyAsString comp .entrySource).filter (· ≠ SOURCE_NULL)

def readCode (parameters : List (XParameter × List Byte)) (name : XParameter) : Option UInt16 :=
  (parameters.lookup name).map fun str => UInt16.ofInt (atoi str)

def readGsmLoc : Option MokoGSMLocation :=
  match icalcomponentFindProperty comp .entryGsmLocation with
  | some (_, parameters) => do
    let lac ← readCode parameters .lac
    let cid ← readCode parameters .cid
    return { lac := lac, cid := cid }
  | none => some { lac := 0, cid := 0 }

def readCore (entry : MokoJournalEntry κ τ) : IcalProperty κ τ → MokoJournalEntry κ τ
  | .uid v => { entry with uid := some v }
  | .contact v => { entry with contactUid := some v }
  | .summary v => { entry with summary := some v }
  | .dtstart v => { entry with dtstart := some v }
  | .dtend v => { entry with dtend := some v }
  -- a `struct icalgeotype` taken for a `MokoLocation`
  | .geo lat lon => { entry with startLongitude := lat, startLatitude := lon }
  | .x .. => entry

def readVoiceInfo (direction : MessageDirection) :
    MokoJournalVoiceInfo :=
  let caller := icalcomponentFindPropertyAsString comp .voiceCallerNumber
  let callee := icalcomponentFindPropertyAsString comp .voiceCalleeNumber
  let wasMissed := icalcomponentFindPropertyAsString comp .voiceCallWasMissed
  { distantNumber := if direction = .directionOut then callee else caller
    localNumber := if direction = .directionOut then caller else callee
    wasMissed := wasMissed = some YES }

def readExtra (comp : IcalComponent κ τ) (direction : MessageDirection) :
    MokoJournalEntryType → EntryExtra
  | .email => .email
  | .sms => .sms
  | .voice => .voice (readVoiceInfo comp direction)
  | .fax => .fax
  | .data => .data

/-- `icalcomponent_to_entry`; `none` where it makes no entry. -/
def icalcomponentToEntry : Option (MokoJournalEntry κ τ) := do
  let typeText ← icalcomponentFindPropertyAsString comp .entryType
  let type ← entryTypeFromString typeText
  let direction :=
    if icalcomponentFindPropertyAsString comp .entryDirection = some DIRECTION_IN_TEXT then
      MessageDirection.directionIn
    else .directionOut
  let gsmLoc ← readGsmLoc comp
  let entry := mokoJournalEntryAlloc (readExtra comp direction type) direction
  return comp.foldl readCore { entry with source := readSource comp, gsmLoc := gsmLoc }

end Conversion

end Openmoko.Mokojournal
