import Openmoko.Mokojournal.Entry

/-!
# What is written of an entry is read again

Everything but the addresses of access points is written, as long as "not set" cannot be confused
with a value: a coordinate of zero, an area or a cell with the code zero, the text of a source.
-/

namespace Openmoko.Mokojournal

variable {κ τ : Type}

structure Storable [Zero κ] (entry : MokoJournalEntry κ τ) : Prop where
  noWifi : entry.wifiApMac = none
  noBluetooth : entry.bluetoothApMac = none
  source : entry.source ≠ some SOURCE_NULL
  location : entry.startLongitude = 0 ↔ entry.startLatitude = 0
  gsmLoc : entry.gsmLoc.lac = 0 ↔ entry.gsmLoc.cid = 0

section Find

variable {name name' : XName}

theorem find_append (comp comp' : IcalComponent κ τ) (name : XName) :
    icalcomponentFindProperty (comp ++ comp') name =
      (icalcomponentFindProperty comp name).or (icalcomponentFindProperty comp' name) :=
  List.findSome?_append

theorem find_x (v : List Byte) (parameters : List (XParameter × List Byte)) :
    icalcomponentFindProperty ([.x name' v parameters] : IcalComponent κ τ) name =
      if name' = name then some (v, parameters) else none := by
  unfold icalcomponentFindProperty
  by_cases h : name' = name
  · simp [h]
  · simp [h]

theorem find_text_x (text : Option (List Byte)) :
    icalcomponentFindProperty
        (textProperty (fun v => .x name' v []) text : IcalComponent κ τ) name =
      if name' = name then text.map (·, []) else none := by
  cases text with
  | none => exact (ite_self _).symm
  | some v => exact find_x v []

theorem find_text_core {new : List Byte → IcalProperty κ τ}
    (hnew : ∀ v, icalcomponentFindProperty [new v] name = none) (text : Option (List Byte)) :
    icalcomponentFindProperty (textProperty new text) name = none := by
  cases text with
  | none => rfl
  | some v => exact hnew v

theorem find_geo [Zero κ] [DecidableEq κ] (entry : MokoJournalEntry κ τ) :
    icalcomponentFindProperty (geoProperty entry) name = none := by
  unfold geoProperty
  split_ifs <;> rfl

theorem find_gsmLoc_of_ne (gsmLoc : MokoGSMLocation) (hne : XName.entryGsmLocation ≠ name) :
    icalcomponentFindProperty (gsmLocProperty gsmLoc : IcalComponent κ τ) name = none := by
  unfold gsmLocProperty
  split_ifs
  · rw [find_x, if_neg hne]
  · rfl

theorem find_voice (dir : MessageDirection) (info : MokoJournalVoiceInfo) (name : XName) :
    icalcomponentFindPropertyAsString (voiceProperties dir info : IcalComponent κ τ) name =
      match name with
      | .voiceCalleeNumber =>
        if dir = .directionOut then info.distantNumber else info.localNumber
      | .voiceCallerNumber =>
        if dir = .directionOut then info.localNumber else info.distantNumber
      | .voiceCallWasMissed => some (if info.wasMissed then YES else NO)
      | _ => none := by
  unfold icalcomponentFindPropertyAsString voiceProperties
  cases dir <;> cases name <;> cases info.distantNumber <;> cases info.localNumber <;>
    simp [find_append, find_text_x, find_x]

theorem find_extra (dir : MessageDirection) (extra : EntryExtra)
    (hname : name ≠ .voiceCalleeNumber ∧ name ≠ .voiceCallerNumber ∧ name ≠ .voiceCallWasMissed) :
    icalcomponentFindProperty (extraProperties dir extra : IcalComponent κ τ) name = none := by
  cases extra with
  | voice info =>
    have hnone : icalcomponentFindPropertyAsString (voiceProperties dir info : IcalComponent κ τ)
        name = _ := find_voice dir info name
    obtain ⟨hcallee, hcaller, hmissed⟩ := hname
    cases name <;> first | contradiction | exact Option.map_eq_none_iff.mp hnone
  | _ => rfl

end Find

section Core

variable (e : MokoJournalEntry κ τ)

theorem foldl_readCore_gsmLoc (gsmLoc : MokoGSMLocation) :
    (gsmLocProperty gsmLoc : IcalComponent κ τ).foldl readCore e = e := by
  unfold gsmLocProperty
  split_ifs <;> rfl

theorem foldl_readCore_type (type : Option (List Byte)) :
    (textProperty (fun type => .x .entryType type []) type : IcalComponent κ τ).foldl readCore e =
      e := by
  cases type <;> rfl

theorem foldl_readCore_extra (dir : MessageDirection) (extra : EntryExtra) :
    (extraProperties dir extra : IcalComponent κ τ).foldl readCore e = e := by
  cases extra with
  | voice info =>
    obtain ⟨distantNumber, localNumber, wasMissed⟩ := info
    cases distantNumber <;> cases localNumber <;> rfl
  | _ => rfl

end Core

section RoundTrip

variable [Zero κ] [DecidableEq κ] (today : τ) (entry : MokoJournalEntry κ τ)

theorem find_written (name : XName) :
    icalcomponentFindProperty (mokoJournalEntryToIcalcomponent today entry) name =
      ((((icalcomponentFindProperty
        ([.x .entryDirection (directionText entry.direction) []] : IcalComponent κ τ) name).or
      (icalcomponentFindProperty
        ([.x .entrySource (entry.source.getD SOURCE_NULL) []] : IcalComponent κ τ) name)).or
      (icalcomponentFindProperty (gsmLocProperty entry.gsmLoc : IcalComponent κ τ) name)).or
      (icalcomponentFindProperty (textProperty (fun type => .x .entryType type [])
        (entryTypeToString entry.extra.type) : IcalComponent κ τ) name)).or
      (icalcomponentFindProperty
        (extraProperties entry.direction entry.extra : IcalComponent κ τ) name) := by
  have htime : ∀ t, icalcomponentFindProperty ([.dtstart t] : IcalComponent κ τ) name = none ∧
      icalcomponentFindProperty ([.dtend t] : IcalComponent κ τ) name = none :=
    fun t => ⟨rfl, rfl⟩
  unfold mokoJournalEntryToIcalcomponent
  simp only [find_append, find_geo, htime]
  rw [find_text_core fun v => rfl, find_text_core fun v => rfl, find_text_core fun v => rfl]
  simp only [Option.none_or, Option.or_none]

theorem find_direction :
    icalcomponentFindPropertyAsString (mokoJournalEntryToIcalcomponent today entry)
      .entryDirection = some (directionText entry.direction) := by
  rw [icalcomponentFindPropertyAsString, find_written, find_x]
  rfl

theorem find_source :
    icalcomponentFindPropertyAsString (mokoJournalEntryToIcalcomponent today entry)
      .entrySource = some (entry.source.getD SOURCE_NULL) := by
  rw [icalcomponentFindPropertyAsString, find_written, find_x, find_x]
  rfl

theorem find_gsmLoc :
    icalcomponentFindProperty (mokoJournalEntryToIcalcomponent today entry) .entryGsmLocation =
      icalcomponentFindProperty (gsmLocProperty entry.gsmLoc : IcalComponent κ τ)
        .entryGsmLocation := by
  rw [find_written, find_x, find_x, find_text_x, find_extra _ _ (by decide)]
  simp

theorem find_type :
    icalcomponentFindPropertyAsString (mokoJournalEntryToIcalcomponent today entry) .entryType =
      entryTypeToString entry.extra.type := by
  rw [icalcomponentFindPropertyAsString, find_written, find_x, find_x,
    find_gsmLoc_of_ne _ (by decide), find_text_x, find_extra _ _ (by decide)]
  simp [Function.comp_def]

theorem find_call {info : MokoJournalVoiceInfo} (hextra : entry.extra = .voice info)
    {name : XName} (hname : name = .voiceCalleeNumber ∨ name = .voiceCallerNumber ∨
      name = .voiceCallWasMissed) :
    icalcomponentFindPropertyAsString (mokoJournalEntryToIcalcomponent today entry) name =
      icalcomponentFindPropertyAsString
        (voiceProperties entry.direction info : IcalComponent κ τ) name := by
  have hne : XName.entryDirection ≠ name ∧ XName.entrySource ≠ name ∧
      XName.entryGsmLocation ≠ name ∧ XName.entryType ≠ name := by
    rcases hname with rfl | rfl | rfl <;> decide
  rw [icalcomponentFindPropertyAsString, find_written, find_x, find_x,
    find_gsmLoc_of_ne _ hne.2.2.1, find_text_x, if_neg hne.1, if_neg hne.2.1, if_neg hne.2.2.2,
    hextra]
  rfl

theorem entryTypeFromString_toString (type : MokoJournalEntryType) :
    (entryTypeToString type).bind entryTypeFromString = some type := by
  cases type <;> decide

theorem readVoiceInfo_written {info : MokoJournalVoiceInfo} (hextra : entry.extra = .voice info) :
    readVoiceInfo (mokoJournalEntryToIcalcomponent today entry) entry.direction = info := by
  unfold readVoiceInfo
  rw [find_call today entry hextra (Or.inl rfl), find_call today entry hextra (Or.inr (Or.inl rfl)),
    find_call today entry hextra (Or.inr (Or.inr rfl))]
  simp only [find_voice]
  obtain ⟨distantNumber, localNumber, wasMissed⟩ := info
  cases entry.direction <;> cases wasMissed <;> rfl

theorem readExtra_written :
    readExtra (mokoJournalEntryToIcalcomponent today entry) entry.direction entry.extra.type =
      entry.extra := by
  cases hextra : entry.extra with
  | voice info => exact congrArg EntryExtra.voice (readVoiceInfo_written today entry hextra)
  | _ => rfl

theorem readSource_written :
    readSource (mokoJournalEntryToIcalcomponent today entry) =
      entry.source.filter (· ≠ SOURCE_NULL) := by
  rw [readSource, find_source]
  cases entry.source with
  | none => decide
  | some source => rfl

theorem readGsmLoc_written :
    readGsmLoc (mokoJournalEntryToIcalcomponent today entry) =
      some (if entry.gsmLoc.lac > 0 ∧ entry.gsmLoc.cid > 0 then entry.gsmLoc
        else { lac := 0, cid := 0 }) := by
  rw [readGsmLoc, find_gsmLoc, gsmLocProperty]
  split_ifs with hboth
  · have hcode : ∀ code : UInt16, UInt16.ofInt (atoi (decimal code.toNat)) = code := by
      intro code
      have hlt : code.toNat < 65536 := code.toNat_lt
      rw [atoi_decimal, UInt16.ofInt, Int.emod_eq_of_lt (by omega) (by omega)]
      exact UInt16.ofNat_toNat
    have hcid : (XParameter.cid == XParameter.lac) = false := rfl
    rw [find_x, if_pos rfl]
    simp [readCode, hcode, List.lookup_cons, hcid]
  · rfl

theorem foldl_readCore_geo (e : MokoJournalEntry κ τ) :
    (geoProperty entry).foldl readCore e =
      if entry.startLongitude ≠ 0 ∧ entry.startLatitude ≠ 0 then
        { e with startLongitude := entry.startLongitude, startLatitude := entry.startLatitude }
      else e := by
  unfold geoProperty
  split_ifs <;> rfl

theorem foldl_readCore_written (extra : EntryExtra) (source : Option (List Byte))
    (gsmLoc : MokoGSMLocation) :
    (mokoJournalEntryToIcalcomponent today entry).foldl readCore
        { mokoJournalEntryAlloc extra entry.direction with source := source, gsmLoc := gsmLoc } =
      { extra := extra
        uid := entry.uid
        contactUid := entry.contactUid
        summary := entry.summary
        direction := entry.direction
        dtstart := some (entry.dtstart.getD today)
        dtend := some (entry.dtend.getD today)
        startLongitude :=
          if entry.startLongitude ≠ 0 ∧ entry.startLatitude ≠ 0 then entry.startLongitude else 0
        startLatitude :=
          if entry.startLongitude ≠ 0 ∧ entry.startLatitude ≠ 0 then entry.startLatitude else 0
        source := source
        gsmLoc := gsmLoc
        wifiApMac := none
        bluetoothApMac := none } := by
  unfold mokoJournalEntryToIcalcomponent
  simp only [List.foldl_append, foldl_readCore_geo, foldl_readCore_gsmLoc, foldl_readCore_type,
    foldl_readCore_extra]
  cases entry.uid <;> cases entry.contactUid <;> cases entry.summary <;> split_ifs <;> rfl

theorem icalcomponentToEntry_written :
    icalcomponentToEntry (mokoJournalEntryToIcalcomponent today entry) =
      some { entry with
        dtstart := some (entry.dtstart.getD today)
        dtend := some (entry.dtend.getD today)
        startLongitude :=
          if entry.startLongitude ≠ 0 ∧ entry.startLatitude ≠ 0 then entry.startLongitude else 0
        startLatitude :=
          if entry.startLongitude ≠ 0 ∧ entry.startLatitude ≠ 0 then entry.startLatitude else 0
        source := entry.source.filter (· ≠ SOURCE_NULL)
        gsmLoc := if entry.gsmLoc.lac > 0 ∧ entry.gsmLoc.cid > 0 then entry.gsmLoc
          else { lac := 0, cid := 0 }
        wifiApMac := none
        bluetoothApMac := none } := by
  obtain ⟨type, htype, hread⟩ :=
    Option.bind_eq_some_iff.mp (entryTypeFromString_toString entry.extra.type)
  have hdirection : (if some (directionText entry.direction) = some DIRECTION_IN_TEXT then
      MessageDirection.directionIn else .directionOut) = entry.direction := by
    cases entry.direction <;> decide
  unfold icalcomponentToEntry
  simp only [find_type, find_direction, hdirection, htype, hread, readGsmLoc_written,
    readExtra_written, readSource_written, foldl_readCore_written, Option.bind_eq_bind,
    Option.bind_some, Option.pure_def]

end RoundTrip

theorem location_kept_iff [Zero κ] [DecidableEq κ] (longitude latitude : κ) :
    ((if longitude ≠ 0 ∧ latitude ≠ 0 then longitude else 0) = longitude ∧
        (if longitude ≠ 0 ∧ latitude ≠ 0 then latitude else 0) = latitude) ↔
      (longitude = 0 ↔ latitude = 0) := by
  by_cases hlongitude : longitude = 0 <;> by_cases hlatitude : latitude = 0 <;>
    simp [hlongitude, hlatitude, eq_comm]

theorem gsmLoc_kept_iff (gsmLoc : MokoGSMLocation) :
    (if gsmLoc.lac > 0 ∧ gsmLoc.cid > 0 then gsmLoc else { lac := 0, cid := 0 }) = gsmLoc ↔
      (gsmLoc.lac = 0 ↔ gsmLoc.cid = 0) := by
  obtain ⟨lac, cid⟩ := gsmLoc
  by_cases hlac : lac = 0 <;> by_cases hcid : cid = 0 <;>
    simp [hlac, hcid, UInt16.pos_iff_ne_zero, eq_comm]

theorem source_kept_iff (source : Option (List Byte)) :
    source.filter (· ≠ SOURCE_NULL) = source ↔ source ≠ some SOURCE_NULL := by
  cases source with
  | none => simp
  | some source => simp [Option.filter]

/-- **An entry is read as it was written** exactly if its component can hold it. -/
theorem entry_round_trip_iff [Zero κ] [DecidableEq κ] (today : τ) (entry : MokoJournalEntry κ τ)
    (hdtstart : entry.dtstart.isSome) (hdtend : entry.dtend.isSome) :
    icalcomponentToEntry (mokoJournalEntryToIcalcomponent today entry) = some entry ↔
      Storable entry := by
  rw [icalcomponentToEntry_written, Option.some.injEq]
  constructor
  · intro heq
    have hlongitude := congrArg MokoJournalEntry.startLongitude heq
    have hlatitude := congrArg MokoJournalEntry.startLatitude heq
    exact ⟨(congrArg MokoJournalEntry.wifiApMac heq).symm,
      (congrArg MokoJournalEntry.bluetoothApMac heq).symm,
      (source_kept_iff _).mp (congrArg MokoJournalEntry.source heq),
      (location_kept_iff _ _).mp ⟨hlongitude, hlatitude⟩,
      (gsmLoc_kept_iff _).mp (congrArg MokoJournalEntry.gsmLoc heq)⟩
  · rintro ⟨hwifi, hbluetooth, hsource, hlocation, hgsmLoc⟩
    obtain ⟨dtstart, hstart⟩ := Option.isSome_iff_exists.mp hdtstart
    obtain ⟨dtend, hend⟩ := Option.isSome_iff_exists.mp hdtend
    obtain ⟨hlongitude, hlatitude⟩ := (location_kept_iff _ _).mpr hlocation
    rw [hlongitude, hlatitude, (source_kept_iff _).mpr hsource, (gsmLoc_kept_iff _).mpr hgsmLoc,
      hstart, hend, ← hwifi, Option.getD_some, Option.getD_some, ← hstart, ← hend]
    cases entry
    cases hbluetooth
    cases hwifi
    rfl

def missedCall : MokoJournalEntry ℤ ℕ :=
  { extra := .voice ⟨some (ascii "+49301234"), none, true⟩
    uid := none
    contactUid := some (ascii "contact")
    summary := none
    direction := .directionIn
    dtstart := some 3
    dtend := some 5
    startLongitude := 10
    startLatitude := 37
    source := none
    gsmLoc := { lac := 68, cid := 100 }
    wifiApMac := none
    bluetoothApMac := none }

theorem entry_round_trip_missedCall :
    icalcomponentToEntry (mokoJournalEntryToIcalcomponent 7 missedCall) = some missedCall :=
  (entry_round_trip_iff 7 missedCall rfl rfl).mpr
    ⟨rfl, rfl, by decide, by decide, by decide⟩

/-- A place on the equator loses its longitude. -/
theorem entry_round_trip_equator :
    icalcomponentToEntry
        (mokoJournalEntryToIcalcomponent 7 { missedCall with startLatitude := 0 }) =
      some { missedCall with startLongitude := 0, startLatitude := 0 } ∧
    icalcomponentToEntry
        (mokoJournalEntryToIcalcomponent 7 { missedCall with startLatitude := 0 }) ≠
      some { missedCall with startLatitude := 0 } := by
  rw [icalcomponentToEntry_written]
  decide

end Openmoko.Mokojournal
