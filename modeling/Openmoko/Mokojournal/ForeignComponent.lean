import Openmoko.Mokojournal.Entry
import Openmoko.Library.Loop

/-!
# Components that others have stored (`moko-journal.c`)

Another program may leave out of a component what an entry always writes. Here a property is what
libical tells of it, where a name, a value and a parameter may be NULL, and a NULL that reaches
`strcmp` or `atoi` is a fault.
-/

namespace Openmoko.Mokojournal

def XName.text : XName → List Byte
  | .entryDirection => ascii "X-OPENMOKO-ENTRY-DIRECTION"
  | .entrySource => ascii "X-OPENMOKO-ENTRY-SOURCE"
  | .entryGsmLocation => ascii "X-OPENMOKO-ENTRY-GSM-LOCATION"
  | .entryType => ascii "X-OPENMOKO-ENTRY-TYPE"
  | .voiceCalleeNumber => ascii "X-OPENMOKO-VOICE-CALLEE-NUMBER"
  | .voiceCallerNumber => ascii "X-OPENMOKO-VOICE-CALLER-NUMBER"
  | .voiceCallWasMissed => ascii "X-OPENMOKO-VOICE-CALL-WAS-MISSED"

def XParameter.text : XParameter → List Byte
  | .lac => ascii "X-LAC"
  | .cid => ascii "X-CID"

namespace Foreign

inductive Fault where
  | nullString
  | outsideTable
  deriving DecidableEq, Repr

/-- What `icalproperty_isa` and the getter of a core property tell. -/
inductive CoreValue (κ τ : Type) where
  | uid (v : Option (List Byte))
  | contact (v : Option (List Byte))
  | summary (v : Option (List Byte))
  | dtstart (v : τ)
  | dtend (v : τ)
  | geo (lat lon : κ)
  | other
  deriving DecidableEq, Repr

structure IcalProperty (κ τ : Type) where
  propertyName : Option (List Byte)
  valueAsString : Option (List Byte)
  parameters : List (List Byte × List Byte)
  core : CoreValue κ τ
  deriving DecidableEq, Repr

abbrev IcalComponent (κ τ : Type) := List (IcalProperty κ τ)

/-- `! strcmp (a, b)`. -/
def strcmp : Option (List Byte) → Option (List Byte) → Except Fault Bool
  | some a, some b => .ok (a = b)
  | _, _ => .error .nullString

def atoi : Option (List Byte) → Except Fault ℤ
  | some str => .ok (Openmoko.atoi str)
  | none => .error .nullString

def tolower (c : Byte) : Byte := if 65 ≤ c ∧ c ≤ 90 then c + 32 else c

/-- `! strcasecmp (a, b)`. -/
def strcasecmp (a b : List Byte) : Bool := a.map tolower == b.map tolower

/-- `MokoJournalEntryInfo`; the type `none` is `UNDEF_ENTRY`. -/
structure MokoJournalEntryInfo where
  type : Option MokoJournalEntryType
  typeAsString : Option (List Byte)
  deriving DecidableEq, Repr

def entriesInfo : List MokoJournalEntryInfo :=
  [⟨some .voice, some (ascii "VOICEENTRY")⟩, ⟨some .email, some (ascii "EMAILENTRY")⟩,
    ⟨some .sms, some (ascii "SMSENTRY")⟩, ⟨some .fax, some (ascii "FAXENTRY")⟩,
    ⟨some .data, some (ascii "DATAENTRY")⟩, ⟨none, none⟩]

def entryTypeFrom (str : List Byte) :
    List MokoJournalEntryInfo → Except Fault (Option MokoJournalEntryType)
  | [] => .error .outsideTable
  | cur :: rest => do
    if ← strcmp cur.typeAsString (some str) then return cur.type
    entryTypeFrom str rest

def entryTypeFromString (str : List Byte) : Except Fault (Option MokoJournalEntryType) :=
  entryTypeFrom str entriesInfo

section Conversion

variable {κ τ : Type}

variable (comp : IcalComponent κ τ)

def icalcomponentFindProperty (name : List Byte) :
    Option (IcalProperty κ τ) :=
  comp.find? fun prop => prop.propertyName.any (strcasecmp · name)

def icalcomponentFindPropertyAsString (name : List Byte) :
    Option (Option (List Byte)) :=
  (icalcomponentFindProperty comp name).map (·.valueAsString)

def icalpropertyGetParameterAsString (prop : IcalProperty κ τ) (name : List Byte) :
    Option (List Byte) :=
  prop.parameters.lookup name

def readType : Except Fault (Option MokoJournalEntryType) :=
  match icalcomponentFindPropertyAsString comp XName.entryType.text with
  | some (some propValue) => entryTypeFromString propValue
  | some none => .ok none
  | none => .ok none

def readDirection : Except Fault MessageDirection :=
  match icalcomponentFindPropertyAsString comp XName.entryDirection.text with
  | some (some propValue) => do
    return if ← strcmp (some propValue) (some DIRECTION_IN_TEXT) then .directionIn
      else .directionOut
  | some none => .ok .directionOut
  | none => .ok .directionOut

def readSource : Except Fault (Option (List Byte)) :=
  match icalcomponentFindPropertyAsString comp XName.entrySource.text with
  | some (some propValue) => do
    return if ← strcmp (some propValue) (some SOURCE_NULL) then none else some propValue
  | some none => .ok none
  | none => .ok none

def readGsmLoc : Except Fault MokoGSMLocation :=
  match icalcomponentFindProperty comp XName.entryGsmLocation.text with
  | some prop => do
    let lac ← atoi (icalpropertyGetParameterAsString prop XParameter.lac.text)
    let cid ← atoi (icalpropertyGetParameterAsString prop XParameter.cid.text)
    return { lac := UInt16.ofInt lac, cid := UInt16.ofInt cid }
  | none => .ok { lac := 0, cid := 0 }

def readCore (entry : MokoJournalEntry κ τ) (prop : IcalProperty κ τ) : MokoJournalEntry κ τ :=
  if prop.propertyName.isNone then entry
  else
    match prop.core with
    | .uid v => { entry with uid := v }
    | .contact v => { entry with contactUid := v }
    | .summary v => { entry with summary := v }
    | .dtstart v => { entry with dtstart := some v }
    | .dtend v => { entry with dtend := some v }
    -- a `struct icalgeotype` taken for a `MokoLocation`
    | .geo lat lon => { entry with startLongitude := lat, startLatitude := lon }
    | .other => entry

def readNumber (name : List Byte) : Option (List Byte) :=
  (icalcomponentFindPropertyAsString comp name).join

def readWasMissed : Except Fault Bool :=
  match icalcomponentFindPropertyAsString comp XName.voiceCallWasMissed.text with
  | some (some propValue) => strcmp (some YES) (some propValue)
  | some none => .ok false
  | none => .ok false

def readVoiceInfo (direction : MessageDirection) :
    Except Fault MokoJournalVoiceInfo := do
  let caller := readNumber comp XName.voiceCallerNumber.text
  let callee := readNumber comp XName.voiceCalleeNumber.text
  let wasMissed ← readWasMissed comp
  return {
    distantNumber := if direction = .directionOut then callee else caller
    localNumber := if direction = .directionOut then caller else callee
    wasMissed := wasMissed }

def readExtra (comp : IcalComponent κ τ) (direction : MessageDirection) :
    MokoJournalEntryType → Except Fault EntryExtra
  | .email => .ok .email
  | .sms => .ok .sms
  | .voice => do return .voice (← readVoiceInfo comp direction)
  | .fax => .ok .fax
  | .data => .ok .data

/-- What it returns, and what it has stored through `a_entry`. -/
structure Outcome (κ τ : Type) where
  result : Bool
  entry : Option (MokoJournalEntry κ τ)
  deriving DecidableEq

/-- `icalcomponent_to_entry`; every path ends at `out:`. -/
def icalcomponentToEntry [Zero κ] : Except Fault (Outcome κ τ) := do
  match ← readType comp with
  | none => return { result := true, entry := none }
  | some type =>
    let direction ← readDirection comp
    let source ← readSource comp
    let gsmLoc ← readGsmLoc comp
    let extra ← readExtra comp direction type
    let entry := mokoJournalEntryAlloc extra direction
    return {
      result := true
      entry := some (comp.foldl readCore { entry with source := source, gsmLoc := gsmLoc }) }

end Conversion

/-! ### What the parts do -/

theorem entryTypeFrom_cons (str text : List Byte) (type : Option MokoJournalEntryType)
    (rest : List MokoJournalEntryInfo) :
    entryTypeFrom str (⟨type, some text⟩ :: rest) =
      if text = str then .ok type else entryTypeFrom str rest := by
  change (if decide (text = str) = true then _ else _) = _
  simp only [decide_eq_true_eq]
  rfl

theorem entryTypeFrom_table (str : List Byte) (rows : List (MokoJournalEntryType × List Byte)) :
    entryTypeFrom str (rows.map (fun row => ⟨some row.1, some row.2⟩) ++ [⟨none, none⟩]) =
      match rows.find? (·.2 = str) with
      | some row => .ok (some row.1)
      | none => .error .nullString := by
  induction rows with
  | nil => rfl
  | cons row rows ih =>
    rw [List.map_cons, List.cons_append, List.find?_cons, entryTypeFrom_cons]
    by_cases heq : row.2 = str
    · rw [if_pos heq, decide_eq_true heq]
    · rw [if_neg heq, decide_eq_false heq, ih]

theorem entryTypeFromString_eq (str : List Byte) :
    entryTypeFromString str =
      match Mokojournal.entryTypeFromString str with
      | some type => .ok (some type)
      | none => .error .nullString := by
  have htable := entryTypeFrom_table str Mokojournal.entriesInfo
  unfold Mokojournal.entryTypeFromString
  cases hfind : Mokojournal.entriesInfo.find? (·.2 = str) with
  | some row =>
    rw [hfind] at htable
    exact htable
  | none =>
    rw [hfind] at htable
    exact htable

section Parts

variable {κ τ : Type} (comp : IcalComponent κ τ)

def xText (name : XName) : Option (List Byte) :=
  (icalcomponentFindPropertyAsString comp name.text).join

def knownType : Option MokoJournalEntryType :=
  (xText comp .entryType).bind Mokojournal.entryTypeFromString

theorem readType_eq_some_iff {type : MokoJournalEntryType} :
    readType comp = .ok (some type) ↔ knownType comp = some type := by
  unfold readType knownType xText
  rcases icalcomponentFindPropertyAsString comp _ with _ | _ | text
  · exact ⟨fun h => (nomatch h), fun h => (nomatch h)⟩
  · exact ⟨fun h => (nomatch h), fun h => (nomatch h)⟩
  · change entryTypeFromString text = _ ↔ Mokojournal.entryTypeFromString text = _
    rw [entryTypeFromString_eq]
    cases Mokojournal.entryTypeFromString text with
    | some known => simp
    | none => simp

theorem readDirection_eq :
    readDirection comp =
      .ok (if xText comp .entryDirection = some DIRECTION_IN_TEXT then .directionIn
        else .directionOut) := by
  unfold readDirection xText
  rcases icalcomponentFindPropertyAsString comp _ with _ | _ | text
  · rfl
  · rfl
  · simp [strcmp]

theorem readSource_eq :
    readSource comp = .ok ((xText comp .entrySource).filter (· ≠ SOURCE_NULL)) := by
  unfold readSource xText
  rcases icalcomponentFindPropertyAsString comp _ with _ | _ | text
  · rfl
  · rfl
  · by_cases hnull : text = SOURCE_NULL
    · simp [strcmp, hnull]
      rfl
    · simp [strcmp, hnull, Option.filter]

theorem readWasMissed_eq :
    readWasMissed comp = .ok (xText comp .voiceCallWasMissed = some YES) := by
  unfold readWasMissed xText
  rcases icalcomponentFindPropertyAsString comp _ with _ | _ | text
  · rfl
  · rfl
  · simp [strcmp, eq_comm]

def toldExtra (direction : MessageDirection) : MokoJournalEntryType → EntryExtra
  | .email => .email
  | .sms => .sms
  | .voice =>
    let caller := xText comp .voiceCallerNumber
    let callee := xText comp .voiceCalleeNumber
    .voice {
      distantNumber := if direction = .directionOut then callee else caller
      localNumber := if direction = .directionOut then caller else callee
      wasMissed := xText comp .voiceCallWasMissed = some YES }
  | .fax => .fax
  | .data => .data

theorem readExtra_eq (direction : MessageDirection) (type : MokoJournalEntryType) :
    readExtra comp direction type = .ok (toldExtra comp direction type) := by
  cases type with
  | voice =>
    unfold readExtra readVoiceInfo
    rw [readWasMissed_eq]
    rfl
  | _ => rfl

/-- The text of the type is one of the table. -/
def TypeInTable : Prop :=
  ∃ text ∈ Mokojournal.entriesInfo.map Prod.snd, xText comp .entryType = some text

theorem typeInTable_iff : TypeInTable comp ↔ ∃ type, knownType comp = some type := by
  unfold TypeInTable knownType Mokojournal.entryTypeFromString
  constructor
  · rintro ⟨text, hmem, htext⟩
    obtain ⟨row, hrow, rfl⟩ := List.mem_map.mp hmem
    have hfound : (Mokojournal.entriesInfo.find? (·.2 = row.2)).isSome = true :=
      List.find?_isSome.mpr ⟨row, hrow, decide_eq_true rfl⟩
    obtain ⟨found, hfound⟩ := Option.isSome_iff_exists.mp hfound
    exact ⟨found.1, by rw [htext, Option.bind_some, hfound, Option.map_some]⟩
  · rintro ⟨type, htype⟩
    obtain ⟨text, htext, hfind⟩ := Option.bind_eq_some_iff.mp htype
    obtain ⟨row, hrow, -⟩ := Option.map_eq_some_iff.mp hfind
    have heq := List.find?_some hrow
    rw [decide_eq_true_eq] at heq
    exact ⟨text, List.mem_map.mpr ⟨row, List.mem_of_find?_eq_some hrow, heq⟩, htext⟩

/-- If a component tells of a cell, it has the parameters that give its codes. -/
def CodesPresent : Prop :=
  ∀ prop, icalcomponentFindProperty comp XName.entryGsmLocation.text = some prop →
    ∀ name : XParameter, (icalpropertyGetParameterAsString prop name.text).isSome

theorem atoi_eq_ok_iff {str : Option (List Byte)} {code : ℤ} :
    atoi str = .ok code ↔ str.map Openmoko.atoi = some code := by
  cases str with
  | none => exact ⟨fun h => (nomatch h), fun h => (nomatch h)⟩
  | some str => simp [atoi]

theorem readGsmLoc_ok_iff : (∃ gsmLoc, readGsmLoc comp = .ok gsmLoc) ↔ CodesPresent comp := by
  unfold readGsmLoc CodesPresent
  cases icalcomponentFindProperty comp _ with
  | none => simp
  | some prop =>
    simp only [Option.some.injEq, forall_eq']
    constructor
    · rintro ⟨gsmLoc, h⟩
      obtain ⟨lac, hlac, h⟩ := except_bind_eq_ok_iff.mp h
      obtain ⟨cid, hcid, -⟩ := except_bind_eq_ok_iff.mp h
      intro name
      cases name with
      | lac => exact Option.isSome_map.symm.trans (by rw [atoi_eq_ok_iff.mp hlac]; rfl)
      | cid => exact Option.isSome_map.symm.trans (by rw [atoi_eq_ok_iff.mp hcid]; rfl)
    · intro hpresent
      obtain ⟨lac, hlac⟩ := Option.isSome_iff_exists.mp (hpresent .lac)
      obtain ⟨cid, hcid⟩ := Option.isSome_iff_exists.mp (hpresent .cid)
      rw [hlac, hcid]
      exact ⟨_, rfl⟩

end Parts

section Outcome

variable {κ τ : Type} [Zero κ] (comp : IcalComponent κ τ)

def toldEntry (type : MokoJournalEntryType) (gsmLoc : MokoGSMLocation) : MokoJournalEntry κ τ :=
  let direction :=
    if xText comp .entryDirection = some DIRECTION_IN_TEXT then MessageDirection.directionIn
    else .directionOut
  let entry := mokoJournalEntryAlloc (toldExtra comp direction type) direction
  comp.foldl readCore
    { entry with source := (xText comp .entrySource).filter (· ≠ SOURCE_NULL), gsmLoc := gsmLoc }

theorem icalcomponentToEntry_ok_iff {out : Outcome κ τ} :
    icalcomponentToEntry comp = .ok out ↔
      readType comp = .ok none ∧ out = ⟨true, none⟩ ∨
        ∃ type gsmLoc, knownType comp = some type ∧ readGsmLoc comp = .ok gsmLoc ∧
          out = ⟨true, some (toldEntry comp type gsmLoc)⟩ := by
  unfold icalcomponentToEntry
  simp only [← readType_eq_some_iff, readDirection_eq, readSource_eq, readExtra_eq]
  cases readType comp with
  | error fault =>
    constructor
    · intro h
      cases h
    · rintro (⟨h, -⟩ | ⟨type, gsmLoc, h, -⟩)
      · cases h
      · cases h
  | ok type =>
    cases type with
    | none =>
      constructor
      · intro h
        cases h
        exact Or.inl ⟨rfl, rfl⟩
      · rintro (⟨-, rfl⟩ | ⟨type, gsmLoc, h, -⟩)
        · rfl
        · cases h
    | some type =>
      cases readGsmLoc comp with
      | error fault =>
        constructor
        · intro h
          cases h
        · rintro (⟨h, -⟩ | ⟨type, gsmLoc, -, h, -⟩)
          · cases h
          · cases h
      | ok gsmLoc =>
        constructor
        · intro h
          cases h
          exact Or.inr ⟨type, gsmLoc, rfl, rfl, rfl⟩
        · rintro (⟨h, -⟩ | ⟨type', gsmLoc', htype, hloc, rfl⟩)
          · cases h
          · cases htype
            cases hloc
            rfl

theorem icalcomponentToEntry_some_iff {entry : MokoJournalEntry κ τ} :
    (∃ out, icalcomponentToEntry comp = .ok out ∧ out.entry = some entry) ↔
      ∃ type gsmLoc, knownType comp = some type ∧ readGsmLoc comp = .ok gsmLoc ∧
        entry = toldEntry comp type gsmLoc := by
  constructor
  · rintro ⟨out, h, hentry⟩
    rcases (icalcomponentToEntry_ok_iff comp).mp h with ⟨-, rfl⟩ | ⟨type, gsmLoc, htype, hloc, rfl⟩
    · cases hentry
    · exact ⟨type, gsmLoc, htype, hloc, (Option.some.inj hentry).symm⟩
  · rintro ⟨type, gsmLoc, htype, hloc, rfl⟩
    exact ⟨_, (icalcomponentToEntry_ok_iff comp).mpr
      (Or.inr ⟨type, gsmLoc, htype, hloc, rfl⟩), rfl⟩

theorem icalcomponentToEntry_result {out : Outcome κ τ} (h : icalcomponentToEntry comp = .ok out) :
    out.result = true := by
  rcases (icalcomponentToEntry_ok_iff comp).mp h with ⟨-, rfl⟩ | ⟨type, gsmLoc, -, -, rfl⟩
  · rfl
  · rfl

/-- It ends without a fault, and what it returns tells whether there is an entry. -/
def RejectsCleanly : Prop :=
  ∃ out, icalcomponentToEntry comp = .ok out ∧ (out.result = true ↔ out.entry.isSome = true)

/-- **Foreign components.** A component is handled cleanly if and only if its type is one of the
table and, where it tells of a cell, both codes are there: then it is read. None is rejected
cleanly. -/
theorem rejectsCleanly_iff :
    RejectsCleanly comp ↔ TypeInTable comp ∧ CodesPresent comp := by
  rw [typeInTable_iff]
  constructor
  · rintro ⟨out, h, hresult⟩
    obtain ⟨entry, hentry⟩ :=
      Option.isSome_iff_exists.mp (hresult.mp (icalcomponentToEntry_result comp h))
    obtain ⟨type, gsmLoc, htype, hloc, -⟩ :=
      (icalcomponentToEntry_some_iff comp).mp ⟨out, h, hentry⟩
    exact ⟨⟨type, htype⟩, (readGsmLoc_ok_iff comp).mp ⟨gsmLoc, hloc⟩⟩
  · rintro ⟨⟨type, htype⟩, hcodes⟩
    obtain ⟨gsmLoc, hloc⟩ := (readGsmLoc_ok_iff comp).mpr hcodes
    obtain ⟨out, h, hentry⟩ :=
      (icalcomponentToEntry_some_iff comp).mpr ⟨type, gsmLoc, htype, hloc, rfl⟩
    refine ⟨out, h, ?_⟩
    rw [icalcomponentToEntry_result comp h, hentry]
    exact ⟨fun _ => rfl, fun _ => rfl⟩

end Outcome

def memo : IcalComponent ℤ ℕ :=
  [⟨some (ascii "SUMMARY"), some (ascii "milk"), [], .summary (some (ascii "milk"))⟩]

/-- An entry of a type that was thought of later. -/
def chat : IcalComponent ℤ ℕ :=
  [⟨some (ascii "X-OPENMOKO-ENTRY-TYPE"), some (ascii "CHATENTRY"), [], .other⟩]

def area : IcalComponent ℤ ℕ :=
  [⟨some (ascii "X-OPENMOKO-ENTRY-TYPE"), some (ascii "DATAENTRY"), [], .other⟩,
    ⟨some (ascii "X-OPENMOKO-ENTRY-GSM-LOCATION"), some (ascii "dummy"),
      [(ascii "X-LAC", ascii "68")], .other⟩]

theorem foreign_not_rejectsCleanly :
    ¬ RejectsCleanly memo ∧ ¬ RejectsCleanly chat ∧ ¬ RejectsCleanly area := by
  have hmemo : icalcomponentToEntry memo = .ok ⟨true, none⟩ := rfl
  have hchat : icalcomponentToEntry chat = .error .nullString := by decide +kernel
  have harea : icalcomponentToEntry area = .error .nullString := by decide +kernel
  refine ⟨?_, ?_, ?_⟩
  · rintro ⟨out, h, hresult⟩
    cases hmemo.symm.trans h
    exact absurd (hresult.mp rfl) Bool.false_ne_true
  · rintro ⟨out, h, -⟩
    cases hchat.symm.trans h
  · rintro ⟨out, h, -⟩
    cases harea.symm.trans h

/-! ### What an entry writes -/

section Written

variable {κ τ : Type} (coreText : Mokojournal.IcalProperty κ τ → List Byte)

def told (prop : Mokojournal.IcalProperty κ τ) : IcalProperty κ τ :=
  match prop with
  | .uid v => ⟨some (ascii "UID"), some (coreText prop), [], .uid (some v)⟩
  | .contact v => ⟨some (ascii "CONTACT"), some (coreText prop), [], .contact (some v)⟩
  | .summary v => ⟨some (ascii "SUMMARY"), some (coreText prop), [], .summary (some v)⟩
  | .dtstart v => ⟨some (ascii "DTSTART"), some (coreText prop), [], .dtstart v⟩
  | .dtend v => ⟨some (ascii "DTEND"), some (coreText prop), [], .dtend v⟩
  | .geo lat lon => ⟨some (ascii "GEO"), some (coreText prop), [], .geo lat lon⟩
  | .x name v parameters =>
    ⟨some name.text, some v, parameters.map fun p => (p.1.text, p.2), .other⟩

def coreNames : List (List Byte) :=
  ["UID", "CONTACT", "SUMMARY", "DTSTART", "DTEND", "GEO"].map ascii

def xNames : List XName :=
  [.entryDirection, .entrySource, .entryGsmLocation, .entryType, .voiceCalleeNumber,
    .voiceCallerNumber, .voiceCallWasMissed]

theorem names_nodup :
    (coreNames.map (·.map tolower) ++ xNames.map (·.text.map tolower)).Nodup := by
  decide +kernel

theorem mem_xNames (name : XName) : name ∈ xNames := by
  cases name <;> decide

theorem strcasecmp_text (name name' : XName) :
    strcasecmp name'.text name.text = decide (name' = name) := by
  have hinj := List.inj_on_of_nodup_map (List.nodup_append.mp names_nodup).2.1
  rw [strcasecmp, Bool.beq_eq_decide_eq, decide_eq_decide]
  exact ⟨hinj (mem_xNames name') (mem_xNames name), fun h => by rw [h]⟩

theorem strcasecmp_core {core : List Byte} (hcore : core ∈ coreNames) (name : XName) :
    strcasecmp core name.text = false :=
  beq_false_of_ne ((List.nodup_append.mp names_nodup).2.2 _ (List.mem_map_of_mem hcore) _
    (List.mem_map_of_mem (mem_xNames name)))

theorem lookup_text (parameters : List (XParameter × List Byte)) (name : XParameter) :
    (parameters.map fun p => (p.1.text, p.2)).lookup name.text = parameters.lookup name := by
  induction parameters with
  | nil => rfl
  | cons p parameters ih =>
    obtain ⟨name', v⟩ := p
    have hname : (name.text == name'.text) = (name == name') := by
      cases name <;> cases name' <;> decide
    rw [List.map_cons, List.lookup_cons, List.lookup_cons, ih, hname]

theorem find_told (comp : Mokojournal.IcalComponent κ τ) (name : XName) :
    (icalcomponentFindProperty (comp.map (told coreText)) name.text).map
        (fun prop => (prop.valueAsString, prop.parameters)) =
      (Mokojournal.icalcomponentFindProperty comp name).map
        fun found => (some found.1, found.2.map fun p => (p.1.text, p.2)) := by
  have hcore : ∀ core ∈ ["UID", "CONTACT", "SUMMARY", "DTSTART", "DTEND", "GEO"],
      strcasecmp (ascii core) name.text = false :=
    fun core hmem => strcasecmp_core (List.mem_map_of_mem hmem) name
  unfold icalcomponentFindProperty Mokojournal.icalcomponentFindProperty
  induction comp with
  | nil => rfl
  | cons prop comp ih =>
    rw [List.map_cons, List.find?_cons, List.findSome?_cons]
    cases prop with
    | x name' v parameters =>
      simp only [told, Option.any_some, strcasecmp_text]
      by_cases heq : name' = name
      · rw [decide_eq_true heq, if_pos heq]
        rfl
      · rw [decide_eq_false heq, if_neg heq]
        exact ih
    | uid v => simpa [told, hcore] using ih
    | contact v => simpa [told, hcore] using ih
    | summary v => simpa [told, hcore] using ih
    | dtstart v => simpa [told, hcore] using ih
    | dtend v => simpa [told, hcore] using ih
    | geo lat lon => simpa [told, hcore] using ih

variable (comp : Mokojournal.IcalComponent κ τ)

theorem xText_told (name : XName) :
    xText (comp.map (told coreText)) name =
      Mokojournal.icalcomponentFindPropertyAsString comp name := by
  have hfind := congrArg (fun found => (found.map Prod.fst).join) (find_told coreText comp name)
  unfold xText icalcomponentFindPropertyAsString Mokojournal.icalcomponentFindPropertyAsString
  simp only [Option.map_map, Function.comp_def] at hfind
  rw [hfind]
  cases Mokojournal.icalcomponentFindProperty comp name with
  | none => rfl
  | some found => rfl

theorem readGsmLoc_told {gsmLoc : MokoGSMLocation} :
    readGsmLoc (comp.map (told coreText)) = .ok gsmLoc ↔
      Mokojournal.readGsmLoc comp = some gsmLoc := by
  have hfind := find_told coreText comp .entryGsmLocation
  unfold readGsmLoc Mokojournal.readGsmLoc
  cases hold : Mokojournal.icalcomponentFindProperty comp .entryGsmLocation with
  | none =>
    rw [hold, Option.map_none, Option.map_eq_none_iff] at hfind
    rw [hfind]
    simp
  | some found =>
    rw [hold, Option.map_some] at hfind
    obtain ⟨prop, hprop, htext⟩ := Option.map_eq_some_iff.mp hfind
    have hparameters := congrArg Prod.snd htext
    rw [hprop]
    simp only [icalpropertyGetParameterAsString, readCode] at hparameters ⊢
    rw [hparameters, lookup_text, lookup_text]
    cases found.2.lookup .lac with
    | none => exact ⟨fun h => (nomatch h), fun h => (nomatch h)⟩
    | some lac =>
      cases found.2.lookup .cid with
      | none => exact ⟨fun h => (nomatch h), fun h => (nomatch h)⟩
      | some cid => exact except_ok_eq_ok_iff.trans (eq_comm.trans Option.some_inj.symm)

variable [Zero κ]

theorem toldEntry_told (type : MokoJournalEntryType) (gsmLoc : MokoGSMLocation) :
    toldEntry (comp.map (told coreText)) type gsmLoc =
      let direction :=
        if Mokojournal.icalcomponentFindPropertyAsString comp .entryDirection =
            some DIRECTION_IN_TEXT then
          MessageDirection.directionIn
        else .directionOut
      let entry := mokoJournalEntryAlloc (Mokojournal.readExtra comp direction type) direction
      comp.foldl Mokojournal.readCore
        { entry with source := Mokojournal.readSource comp, gsmLoc := gsmLoc } := by
  have hcore : (fun entry prop => readCore entry (told coreText prop)) =
      (Mokojournal.readCore : MokoJournalEntry κ τ → _) := by
    funext entry prop
    cases prop <;> rfl
  have hextra : ∀ direction, toldExtra (comp.map (told coreText)) direction type =
      Mokojournal.readExtra comp direction type := by
    intro direction
    cases type with
    | voice =>
      unfold toldExtra Mokojournal.readExtra Mokojournal.readVoiceInfo
      simp only [xText_told]
    | _ => rfl
  unfold toldEntry
  simp only [hextra, xText_told, List.foldl_map, hcore]
  rfl

theorem icalcomponentToEntry_told {entry : MokoJournalEntry κ τ} :
    (∃ out, icalcomponentToEntry (comp.map (told coreText)) = .ok out ∧ out.entry = some entry) ↔
      Mokojournal.icalcomponentToEntry comp = some entry := by
  rw [icalcomponentToEntry_some_iff]
  simp only [knownType, xText_told, readGsmLoc_told, toldEntry_told]
  unfold Mokojournal.icalcomponentToEntry
  simp only [Option.bind_eq_bind, Option.bind_eq_some_iff]
  constructor
  · rintro ⟨type, gsmLoc, ⟨typeText, htext, htype⟩, hloc, rfl⟩
    exact ⟨typeText, htext, type, htype, gsmLoc, hloc, rfl⟩
  · rintro ⟨typeText, htext, type, htype, gsmLoc, hloc, hentry⟩
    exact ⟨type, gsmLoc, ⟨typeText, htext, htype⟩, hloc, (Option.some.inj hentry).symm⟩

end Written

end Foreign

end Openmoko.Mokojournal
