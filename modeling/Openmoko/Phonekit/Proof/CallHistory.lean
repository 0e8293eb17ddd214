import Mathlib.Data.List.Forall2
import Openmoko.Phonekit.Dialer

/-!
# The call history

What the journal should hold is told by the calls themselves: each has a direction, a number and
whether it was answered, and a time when it is over. The dialer has one entry in the making, which
is that of the only call, as long as there is only one.
-/

namespace Openmoko.Phonekit

open Gsmd Mokojournal

structure Call where
  id : ℕ
  direction : MessageDirection
  number : Option (List Byte)
  answered : Bool
  deriving DecidableEq, Repr

def Call.missed (call : Call) : Bool :=
  decide (call.direction = .directionIn) && !call.answered

def Call.timedOut (call : Call) (id : ℕ) : Bool := decide (call.id = id) && call.missed

def Call.clip (call : Call) (id : ℕ) (number : List Byte) : Call :=
  if call.id = id ∧ call.direction = .directionIn then { call with number := some number } else call

structure Calls (κ τ : Type) where
  dialer : MokoDialer κ τ
  ongoing : List Call
  past : List Call
  deriving DecidableEq, Repr

def Calls.finish {κ τ : Type} (s : Calls κ τ) (ends : Call → Bool) : Calls κ τ :=
  { s with
    ongoing := s.ongoing.filter (!ends ·)
    past := s.past ++ s.ongoing.filter ends }

section History

variable {κ τ : Type}

def history (s : Calls κ τ) (e : DialerEvent) (id : ℕ) : Calls κ τ :=
  match e with
  | .dial handle number =>
    if dials s.dialer handle number then
      { s with
        ongoing := s.ongoing ++
          [{ id := id, direction := .directionOut, number := some number, answered := false }] }
    else s
  | .incomingCall type =>
    if type = GSMD_CALL_TIMEOUT then s.finish (·.timedOut id)
    else if showsIncoming s.dialer then
      { s with
        ongoing := s.ongoing ++
          [{ id := id, direction := .directionIn, number := none, answered := false }] }
    else s
  | .incomingClip number => { s with ongoing := s.ongoing.map (·.clip id number) }
  | .callProgress type =>
    if type = GSMD_CALLPROG_RELEASE ∨ type = GSMD_CALLPROG_REJECT then s.finish (·.id = id)
    else if type = GSMD_CALLPROG_CONNECTED then
      { s with
        ongoing := s.ongoing.map fun call =>
          if call.id = id then { call with answered := true } else call }
    else s
  | .accept handle =>
    if s.dialer.status = .incoming ∧ handle then
      { s with
        ongoing := s.ongoing.map fun call =>
          if call.direction = .directionIn then { call with answered := true } else call }
    else s
  | .reject handle => if handle then s.finish fun _ => true else s
  | .cancel _ | .networkRegistered _ _ _ => s

variable [Zero κ] (lookup : List Byte → Option (Option (List Byte)))

def callsStep (s : Calls κ τ) (e : CallEvent τ) : Calls κ τ :=
  { history s e.event e.call with dialer := (dialerStep lookup e.today s.dialer e.event).1 }

def calls : Machine (Calls κ τ) (CallEvent τ) DialerObs :=
  { step := fun s e => (callsStep lookup s e, (dialerStep lookup e.today s.dialer e.event).2) }

def callsStart (old : List (MokoJournalEntry κ τ)) : Calls κ τ :=
  { dialer := mokoDialerInit (some old), ongoing := [], past := [] }

end History

section Required

variable {κ τ : Type}

def voiceExtra (number : Option (List Byte)) (missed : Bool) : EntryExtra :=
  .voice { distantNumber := number, localNumber := none, wasMissed := missed }

def Records (missed : Call → Bool) (call : Call) (entry : MokoJournalEntry κ τ) : Prop :=
  entry.direction = call.direction ∧ entry.extra = voiceExtra call.number (missed call)

instance (missed : Call → Bool) (call : Call) (entry : MokoJournalEntry κ τ) :
    Decidable (Records missed call entry) :=
  inferInstanceAs (Decidable (_ ∧ _))

def PastRight (old : List (MokoJournalEntry κ τ)) (past : List Call)
    (journal : Option (List (MokoJournalEntry κ τ))) : Prop :=
  ∃ entries, journal = some (old ++ entries) ∧ List.Forall₂ (Records Call.missed) past entries

def OngoingRight (ongoing : List Call) (entry : Option (MokoJournalEntry κ τ)) : Prop :=
  List.Forall₂ (Records fun _ => false) ongoing entry.toList

/-- The journal has one entry for each call that is over, in their order, and each call that is not
has its entry in the making. -/
structure EntriesRight (old : List (MokoJournalEntry κ τ)) (s : Calls κ τ) : Prop where
  past : PastRight old s.past s.dialer.journal
  ongoing : OngoingRight s.ongoing s.dialer.entry

def incomingCallMeets (s : Calls κ τ) (type : ℤ) (id : ℕ) : Prop :=
  if type = GSMD_CALL_TIMEOUT then
    if showsIncoming s.dialer then
      -- the entry that is made for nobody happens to be the one in the making
      ∃ call, s.ongoing.filter (!·.timedOut id) = [call] ∧ call.direction = .directionIn ∧
        call.number = none
    else ∀ call ∈ s.ongoing, call.timedOut id = false
  else showsIncoming s.dialer = true → s.ongoing = []

/-- A call begins only when there is none; a ring timeout comes only while the dialer is `INCOMING`
or `TALKING`, and not for a call that is missed by it; a number is that of the call; a call is
rejected by the user only while it rings, and by gsmd never; and what is released is the call, in
status `INCOMING` exactly if it was missed. -/
def callsMeet (s : Calls κ τ) (e : CallEvent τ) : Prop :=
  match e.event with
  | .dial handle number => dials s.dialer handle number = true → s.ongoing = []
  | .incomingCall type => incomingCallMeets s type e.call
  | .incomingClip number =>
    ∀ call ∈ s.ongoing, s.dialer.incomingClip = some number ∨ call.number = some number ∨
      (call.id = e.call ∧ call.direction = .directionIn)
  | .callProgress type =>
    if type = GSMD_CALLPROG_RELEASE then
      ∀ call ∈ s.ongoing, call.id = e.call ∧ call.missed = decide (s.dialer.status = .incoming)
    else if type = GSMD_CALLPROG_REJECT then ∀ call ∈ s.ongoing, call.id ≠ e.call
    else True
  | .reject handle => handle = true → ∀ call ∈ s.ongoing, call.missed = true
  | .accept _ | .cancel _ | .networkRegistered _ _ _ => True

end Required

/-! ### Entries -/

section Entries

variable {κ τ : Type} {old : List (MokoJournalEntry κ τ)} {past : List Call}
  {journal : List (MokoJournalEntry κ τ)}

theorem PastRight.length {journal : Option (List (MokoJournalEntry κ τ))}
    (h : PastRight old past journal) :
    journal.map List.length = some (old.length + past.length) := by
  obtain ⟨entries, rfl, hentries⟩ := h
  rw [Option.map_some, List.length_append, hentries.length_eq]

theorem PastRight.append_iff (h : PastRight old past (some journal)) (call : Call)
    (entry : MokoJournalEntry κ τ) :
    PastRight old (past ++ [call]) (some (journal ++ [entry])) ↔
      Records Call.missed call entry := by
  obtain ⟨entries, heq, hentries⟩ := h
  obtain rfl := Option.some.inj heq
  rw [List.append_assoc]
  constructor
  · rintro ⟨entries', heq', hentries'⟩
    obtain rfl := List.append_cancel_left (Option.some.inj heq')
    rw [List.forall₂_iff_zip, List.zip_append hentries.length_eq] at hentries'
    exact hentries'.2 (List.mem_append_right _ List.mem_cons_self)
  · exact fun hrecords =>
      ⟨entries ++ [entry], rfl, List.rel_append hentries (List.Forall₂.cons hrecords .nil)⟩

theorem PastRight.not_lost (h : PastRight old past (some journal)) (call : Call) :
    ¬PastRight old (past ++ [call]) (some journal) := by
  intro h'
  have hlength := h.length
  rw [h'.length, List.length_append, List.length_singleton] at hlength
  have := Option.some.inj hlength
  omega

theorem PastRight.not_early (h : PastRight old past (some journal)) (entry : MokoJournalEntry κ τ) :
    ¬PastRight old past (some (journal ++ [entry])) := by
  intro h'
  have hlength := h.length
  have hlength' := h'.length
  rw [Option.map_some] at hlength hlength'
  rw [List.length_append, List.length_singleton] at hlength'
  have := Option.some.inj hlength
  have := Option.some.inj hlength'
  omega

theorem ongoingRight_singleton (call : Call) (entry : MokoJournalEntry κ τ) :
    OngoingRight [call] (some entry) ↔ Records (fun _ => false) call entry := by
  simp [OngoingRight]

theorem ongoingRight_nil (entry : Option (MokoJournalEntry κ τ)) :
    OngoingRight [] entry ↔ entry = none := by
  simp [OngoingRight]

theorem OngoingRight.cases {ongoing : List Call} {entry : Option (MokoJournalEntry κ τ)}
    (h : OngoingRight ongoing entry) :
    (ongoing = [] ∧ entry = none) ∨
      ∃ call entry', ongoing = [call] ∧ entry = some entry' ∧
        Records (fun _ => false) call entry' := by
  cases entry with
  | none => exact Or.inl ⟨by simpa [OngoingRight] using h, rfl⟩
  | some entry' =>
    obtain ⟨call, rest, hrecords, hrest, rfl⟩ := List.forall₂_cons_right_iff.mp h
    obtain rfl := List.forall₂_nil_right_iff.mp hrest
    exact Or.inr ⟨call, entry', rfl, rfl, hrecords⟩

theorem ongoingRight_append_iff (ongoing : List Call) (call : Call) (entry : MokoJournalEntry κ τ) :
    OngoingRight (ongoing ++ [call]) (some entry) ↔
      ongoing = [] ∧ Records (fun _ => false) call entry := by
  cases ongoing with
  | nil => simp [ongoingRight_singleton]
  | cons first rest => simp [OngoingRight]

theorem ongoingRight_some_iff (ongoing : List Call) (entry : MokoJournalEntry κ τ) :
    OngoingRight ongoing (some entry) ↔
      ∃ call, ongoing = [call] ∧ Records (fun _ => false) call entry := by
  constructor
  · intro h
    obtain ⟨-, hnone⟩ | ⟨call, entry', hongoing, hentry, hrecords⟩ := h.cases
    · cases hnone
    · obtain rfl := Option.some.inj hentry
      exact ⟨call, hongoing, hrecords⟩
  · rintro ⟨call, rfl, hrecords⟩
    exact (ongoingRight_singleton call entry).mpr hrecords

@[simp]
theorem voiceExtra_inj (number number' : Option (List Byte)) (missed missed' : Bool) :
    voiceExtra number missed = voiceExtra number' missed' ↔
      number = number' ∧ missed = missed' := by
  simp [voiceExtra]

theorem setWasMissed_eq {number : Option (List Byte)} {missed : Bool}
    {entry : MokoJournalEntry κ τ} (hextra : entry.extra = voiceExtra number missed) :
    setWasMissed entry = { entry with extra := voiceExtra number true } := by
  rw [setWasMissed, hextra]
  rfl

theorem setDistantNumber_eq (number' : List Byte) {number : Option (List Byte)} {missed : Bool}
    {entry : MokoJournalEntry κ τ} (hextra : entry.extra = voiceExtra number missed) :
    setDistantNumber number' entry = { entry with extra := voiceExtra (some number') missed } := by
  rw [setDistantNumber, hextra]
  rfl

variable {call : Call} {entry : MokoJournalEntry κ τ}

theorem records_setWasMissed (h : Records (fun _ => false) call entry) :
    Records Call.missed call (setWasMissed entry) ↔ call.missed = true := by
  obtain ⟨hdirection, hextra⟩ := h
  rw [setWasMissed_eq hextra, Records, and_iff_right hdirection, voiceExtra_inj, and_iff_right rfl]
  exact eq_comm

theorem records_unmarked (h : Records (fun _ => false) call entry) :
    Records Call.missed call entry ↔ call.missed = false := by
  obtain ⟨hdirection, hextra⟩ := h
  rw [Records, and_iff_right hdirection, hextra, voiceExtra_inj, and_iff_right rfl]
  exact eq_comm

theorem records_setDistantNumber (h : Records (fun _ => false) call entry) (number : List Byte)
    (call' : Call) (hdirection' : call'.direction = call.direction) :
    Records (fun _ => false) call' (setDistantNumber number entry) ↔
      call'.number = some number := by
  obtain ⟨hdirection, hextra⟩ := h
  rw [setDistantNumber_eq number hextra, Records, hdirection', and_iff_right hdirection,
    voiceExtra_inj, and_iff_left rfl]
  exact eq_comm

theorem records_releaseEntry (h : Records (fun _ => false) call entry) (today : τ)
    (status : PhoneKitDialerStatus) :
    Records Call.missed call (releaseEntry today status entry) ↔
      call.missed = decide (status = .incoming) := by
  unfold releaseEntry
  split_ifs with hstatus
  · have hdated : Records (fun _ => false) call
        { entry with dtstart := some today, dtend := some today } := h
    rw [records_setWasMissed hdated, decide_eq_true hstatus]
  · have hdated : Records (fun _ => false) call { entry with dtend := some today } := h
    rw [records_unmarked hdated, decide_eq_false hstatus]

theorem records_incomingEntry [Zero κ] (s : MokoDialer κ τ) (call : Call) :
    Records (fun _ => false) call (incomingEntry s) ↔
      call.direction = .directionIn ∧ call.number = none := by
  change MessageDirection.directionIn = call.direction ∧ voiceExtra none false = _ ↔ _
  rw [voiceExtra_inj, and_iff_left rfl]
  exact and_congr eq_comm eq_comm

theorem records_outgoingEntry [Zero κ] (lookup : List Byte → Option (Option (List Byte)))
    (today : τ) (s : MokoDialer κ τ) (number : List Byte) (id : ℕ) :
    Records (fun _ => false)
      { id := id, direction := .directionOut, number := some number, answered := false }
      (outgoingEntry lookup today s number) :=
  ⟨rfl, rfl⟩

end Entries

structure CallsOk {κ τ : Type} (old : List (MokoJournalEntry κ τ)) (s : Calls κ τ) : Prop where
  right : EntriesRight old s
  clip : ∀ call ∈ s.ongoing, call.direction = .directionIn → s.dialer.incomingClip = call.number

section Events

variable {κ τ : Type} {lookup : List Byte → Option (Option (List Byte))}
  {old : List (MokoJournalEntry κ τ)} {s : Calls κ τ}

theorem EntriesRight.journal (h : EntriesRight old s) :
    ∃ journal, s.dialer.journal = some journal := by
  obtain ⟨entries, heq, -⟩ := h.past
  exact ⟨_, heq⟩

theorem entriesRight_iff (s : Calls κ τ) :
    EntriesRight old s ↔
      PastRight old s.past s.dialer.journal ∧ OngoingRight s.ongoing s.dialer.entry :=
  ⟨fun h => ⟨h.past, h.ongoing⟩, fun h => ⟨h.1, h.2⟩⟩

theorem finish_none {ends : Call → Bool} (hnone : ∀ call ∈ s.ongoing, ends call = false) :
    s.finish ends = s := by
  have hkept : s.ongoing.filter (!ends ·) = s.ongoing :=
    List.filter_eq_self.mpr fun call hmem => by simp [hnone call hmem]
  have hpast : s.ongoing.filter ends = [] :=
    List.filter_eq_nil_iff.mpr fun call hmem => by simp [hnone call hmem]
  rw [Calls.finish, hkept, hpast, List.append_nil]

theorem finish_only {ends : Call → Bool} {call : Call} (hongoing : s.ongoing = [call])
    (hends : ends call = true) :
    s.finish ends = { s with ongoing := [], past := s.past ++ [call] } := by
  simp [Calls.finish, hongoing, hends]

theorem EntriesRight.ends (h : EntriesRight old s) (ends : Call → Bool) :
    (∀ call ∈ s.ongoing, ends call = false) ∨
      ∃ call entry, s.ongoing = [call] ∧ s.dialer.entry = some entry ∧ ends call = true ∧
        Records (fun _ => false) call entry := by
  obtain ⟨hnil, -⟩ | ⟨call, entry, hongoing, hentry, hrecords⟩ := h.ongoing.cases
  · exact Or.inl (by simp [hnil])
  · cases hends : ends call with
    | false => exact Or.inl (by simp [hongoing, hends])
    | true => exact Or.inr ⟨call, entry, hongoing, hentry, hends, hrecords⟩

variable {s' : Calls κ τ} {e : CallEvent τ}

theorem not_right_of_lost (h : EntriesRight old s) {call : Call}
    (hpast : s'.past = s.past ++ [call]) (hjournal : s'.dialer.journal = s.dialer.journal) :
    ¬EntriesRight old s' := by
  intro h'
  obtain ⟨journal, hj⟩ := h.journal
  have hbefore := h.past
  have hafter := h'.past
  rw [hpast, hjournal, hj] at hafter
  rw [hj] at hbefore
  exact hbefore.not_lost call hafter

theorem EntriesRight.written_iff (h : EntriesRight old s) {call : Call}
    {entry : MokoJournalEntry κ τ} {journal : List (MokoJournalEntry κ τ)}
    (hjournal : s.dialer.journal = some journal) (hpast : s'.past = s.past ++ [call])
    (hjournal' : s'.dialer.journal = some (journal ++ [entry])) (hongoing : s'.ongoing = [])
    (hentry : s'.dialer.entry = none) : EntriesRight old s' ↔ Records Call.missed call entry := by
  have hbefore := h.past
  rw [hjournal] at hbefore
  rw [entriesRight_iff, hpast, hjournal', hongoing, hentry, hbefore.append_iff, ongoingRight_nil,
    and_iff_left rfl]

theorem not_right_of_early (h : EntriesRight old s) {entry : MokoJournalEntry κ τ}
    {journal : List (MokoJournalEntry κ τ)}
    (hjournal : s.dialer.journal = some journal) (hpast : s'.past = s.past)
    (hjournal' : s'.dialer.journal = some (journal ++ [entry])) : ¬EntriesRight old s' := by
  intro h'
  have hbefore := h.past
  have hafter := h'.past
  rw [hpast, hjournal'] at hafter
  rw [hjournal] at hbefore
  exact hbefore.not_early entry hafter

theorem addEntry_some {s : MokoDialer κ τ} {journal : List (MokoJournalEntry κ τ)}
    {entry : MokoJournalEntry κ τ} (hjournal : s.journal = some journal)
    (hentry : s.entry = some entry) (finalise : MokoJournalEntry κ τ → MokoJournalEntry κ τ) :
    addEntry s finalise =
      { s with journal := some (journal ++ [finalise entry]), entry := none } := by
  simp only [addEntry, hjournal, hentry]

theorem addEntry_none {s : MokoDialer κ τ} (hentry : s.entry = none)
    (finalise : MokoJournalEntry κ τ → MokoJournalEntry κ τ) : addEntry s finalise = s := by
  unfold addEntry
  split
  · next hsome => rw [hentry] at hsome; cases hsome
  · rfl

theorem EntriesRight.writes_iff (h : EntriesRight old s) (ends : Call → Bool)
    (finalise : MokoJournalEntry κ τ → MokoJournalEntry κ τ) (right : Call → Prop)
    (hright : ∀ call entry, Records (fun _ => false) call entry →
      (Records Call.missed call (finalise entry) ↔ right call))
    (hongoing' : s'.ongoing = (s.finish ends).ongoing) (hpast' : s'.past = (s.finish ends).past)
    (hjournal : s'.dialer.journal = (addEntry s.dialer finalise).journal)
    (hentry : s'.dialer.entry = (addEntry s.dialer finalise).entry) :
    EntriesRight old s' ↔
      ∀ call ∈ s.ongoing, ends call = true ∧ right call := by
  obtain ⟨journal, hj⟩ := h.journal
  obtain ⟨hnil, hnone⟩ | ⟨call, entry, hongoing, hsome, hrecords⟩ := h.ongoing.cases
  · rw [addEntry_none hnone] at hjournal hentry
    rw [finish_none (by simp [hnil])] at hongoing' hpast'
    refine iff_of_true ?_ (by simp [hnil])
    rw [entriesRight_iff, hjournal, hentry, hongoing', hpast']
    exact ⟨h.past, h.ongoing⟩
  · rw [addEntry_some hj hsome] at hjournal hentry
    cases hends : ends call with
    | true =>
      rw [finish_only hongoing hends] at hongoing' hpast'
      rw [h.written_iff hj hpast' hjournal hongoing' hentry, hright call entry hrecords]
      simp [hongoing, hends]
    | false =>
      rw [finish_none (by simp [hongoing, hends])] at hpast'
      exact iff_of_false (not_right_of_early h hj hpast' hjournal) (by simp [hongoing, hends])

variable [Zero κ]

/-! ### One event -/

/-- What is shown of an event: that it is right exactly if it meets the condition, and that the
number that is shown remains that of the call. -/
structure Exact (lookup : List Byte → Option (Option (List Byte)))
    (old : List (MokoJournalEntry κ τ)) (s : Calls κ τ) (e : CallEvent τ) : Prop where
  right : EntriesRight old (callsStep lookup s e) ↔ callsMeet s e
  clip : callsMeet s e → ∀ call ∈ (callsStep lookup s e).ongoing,
    call.direction = .directionIn → (callsStep lookup s e).dialer.incomingClip = call.number

theorem CallsOk.keeps (h : CallsOk old s) (hmeets : callsMeet s e)
    (f : Call → Call) (g : MokoJournalEntry κ τ → MokoJournalEntry κ τ)
    (hongoing : (callsStep lookup s e).ongoing = s.ongoing.map f)
    (hpast : (callsStep lookup s e).past = s.past)
    (hjournal : (callsStep lookup s e).dialer.journal = s.dialer.journal)
    (hentry : (callsStep lookup s e).dialer.entry = s.dialer.entry.map g)
    (hclip : (callsStep lookup s e).dialer.incomingClip = s.dialer.incomingClip)
    (hcall : ∀ call, (f call).direction = call.direction ∧ (f call).number = call.number)
    (hrecord : ∀ entry, (g entry).direction = entry.direction ∧ (g entry).extra = entry.extra) :
    Exact lookup old s e := by
  constructor
  · refine iff_of_true ?_ hmeets
    rw [entriesRight_iff, hpast, hjournal, hongoing, hentry]
    refine ⟨h.right.past, ?_⟩
    obtain ⟨hnil, hnone⟩ | ⟨call, entry, hcalls, hsome, hrecords⟩ := h.right.ongoing.cases
    · simp [hnil, hnone, ongoingRight_nil]
    · simp only [hcalls, hsome, List.map_cons, List.map_nil, Option.map_some,
        ongoingRight_singleton]
      rw [Records, (hcall call).1, (hcall call).2, (hrecord entry).1, (hrecord entry).2]
      exact hrecords
  · intro _ call' hmem' hdirection
    rw [hongoing] at hmem'
    obtain ⟨call, hmem, rfl⟩ := List.mem_map.mp hmem'
    rw [(hcall call).1] at hdirection
    rw [hclip, (hcall call).2]
    exact h.clip call hmem hdirection

theorem CallsOk.same (h : CallsOk old s) (hmeets : callsMeet s e)
    (hongoing : (callsStep lookup s e).ongoing = s.ongoing)
    (hpast : (callsStep lookup s e).past = s.past)
    (hjournal : (callsStep lookup s e).dialer.journal = s.dialer.journal)
    (hentry : (callsStep lookup s e).dialer.entry = s.dialer.entry)
    (hclip : (callsStep lookup s e).dialer.incomingClip = s.dialer.incomingClip) :
    Exact lookup old s e :=
  h.keeps hmeets id id (by rw [hongoing, List.map_id]) hpast hjournal
    (by rw [hentry, Option.map_id_apply]) hclip (fun _ => ⟨rfl, rfl⟩) fun _ => ⟨rfl, rfl⟩

theorem CallsOk.idle (h : CallsOk old s) (hmeets : callsMeet s e)
    (hstep : callsStep lookup s e = s) : Exact lookup old s e := by
  apply h.same hmeets <;> rw [hstep]

theorem CallsOk.dial (h : CallsOk old s) (handle : Bool) (number : List Byte) (id : ℕ) (today : τ) :
    Exact lookup old s ⟨.dial handle number, id, today⟩ := by
  obtain ⟨journal, hjournal⟩ := h.right.journal
  have hpast := h.right.past
  by_cases hdials : dials s.dialer handle number = true
  · constructor
    · simp only [callsStep, history, dialerStep, mokoDialerDial_eq, callsMeet, hdials, if_true,
        hjournal, Option.isSome_some, forall_const, entriesRight_iff, ongoingRight_append_iff,
        records_outgoingEntry, and_true]
      rw [hjournal] at hpast
      exact and_iff_right hpast
    · simp only [callsStep, history, callsMeet, hdials, if_true, forall_const]
      intro hnone call hmem hdirection
      rw [hnone] at hmem
      obtain rfl := List.mem_singleton.mp hmem
      cases hdirection
  · have hstep : callsStep lookup s ⟨.dial handle number, id, today⟩ = s := by
      simp only [callsStep, history, dialerStep, mokoDialerDial_eq, hdials, if_false,
        Bool.false_eq_true]
    have hmeets : callsMeet s ⟨.dial handle number, id, today⟩ := fun htrue => absurd htrue hdials
    exact h.idle hmeets hstep

theorem CallsOk.incomingCall (h : CallsOk old s) {type : ℤ} (htype : type ≠ GSMD_CALL_TIMEOUT)
    (id : ℕ) (today : τ) : Exact lookup old s ⟨.incomingCall type, id, today⟩ := by
  obtain ⟨journal, hjournal⟩ := h.right.journal
  have hpast := h.right.past
  by_cases hshows : showsIncoming s.dialer = true
  · constructor
    · simp only [callsStep, history, dialerStep, onIncomingCall_eq, callsMeet, incomingCallMeets,
        htype, if_false, hshows, if_true, hjournal, Option.isSome_some, forall_const,
        entriesRight_iff, ongoingRight_append_iff, records_incomingEntry, and_true]
      rw [hjournal] at hpast
      exact and_iff_right hpast
    · simp only [callsStep, history, dialerStep, onIncomingCall_eq, callsMeet, incomingCallMeets,
        htype, if_false, hshows, if_true, forall_const]
      intro hnone call hmem _
      rw [hnone] at hmem
      rw [List.mem_singleton.mp hmem]
  · have hstep : callsStep lookup s ⟨.incomingCall type, id, today⟩ = s := by
      simp only [callsStep, history, dialerStep, onIncomingCall_eq, htype, hshows, if_false,
        Bool.false_eq_true]
    have hmeets : callsMeet s ⟨.incomingCall type, id, today⟩ := by
      simp only [callsMeet, incomingCallMeets, htype, if_false]
      exact fun htrue => absurd htrue hshows
    exact h.idle hmeets hstep

theorem CallsOk.timeout (h : CallsOk old s) (id : ℕ) (today : τ) :
    Exact lookup old s ⟨.incomingCall GSMD_CALL_TIMEOUT, id, today⟩ := by
  have hmeets : callsMeet s ⟨.incomingCall GSMD_CALL_TIMEOUT, id, today⟩ ↔
      incomingCallMeets s GSMD_CALL_TIMEOUT id := Iff.rfl
  have hstep : callsStep lookup s ⟨.incomingCall GSMD_CALL_TIMEOUT, id, today⟩ =
      { s.finish (·.timedOut id) with
        dialer := (onIncomingCall s.dialer GSMD_CALL_TIMEOUT).1 } := by
    simp only [callsStep, history, dialerStep, if_true]
  obtain ⟨journal, hjournal⟩ := h.right.journal
  rcases h.right.ends (·.timedOut id) with hnone | ⟨call, entry, hongoing, -, hends, -⟩
  · rw [finish_none hnone] at hstep
    by_cases hshows : showsIncoming s.dialer = true
    · have hfilter : s.ongoing.filter (!·.timedOut id) = s.ongoing :=
        List.filter_eq_self.mpr fun call hmem => by simp [hnone call hmem]
      have hiff : callsMeet s ⟨.incomingCall GSMD_CALL_TIMEOUT, id, today⟩ ↔
          ∃ call, s.ongoing = [call] ∧ call.direction = .directionIn ∧ call.number = none := by
        rw [hmeets, incomingCallMeets, if_pos rfl, if_pos hshows, hfilter]
      rw [onIncomingCall_eq, if_pos hshows] at hstep
      constructor
      · rw [hstep, hiff, entriesRight_iff, and_iff_right h.right.past]
        simp only [hjournal, Option.isSome_some, if_true, ongoingRight_some_iff,
          records_incomingEntry]
      · rw [hstep, hiff]
        rintro ⟨call, hongoing, -, hnumber⟩ call' hmem -
        simp only [hongoing, List.mem_singleton] at hmem
        rw [hmem, hnumber]
    · have hiff : callsMeet s ⟨.incomingCall GSMD_CALL_TIMEOUT, id, today⟩ := by
        rw [hmeets, incomingCallMeets, if_pos rfl, if_neg hshows]
        exact hnone
      rw [onIncomingCall_eq, if_neg hshows] at hstep
      exact h.idle hiff hstep
  · have hfails : ¬callsMeet s ⟨.incomingCall GSMD_CALL_TIMEOUT, id, today⟩ := by
      rw [hmeets, incomingCallMeets, if_pos rfl]
      split_ifs
      · simp [hongoing, hends]
      · simp [hongoing, hends]
    rw [finish_only hongoing hends] at hstep
    constructor
    · rw [hstep]
      refine iff_of_false (not_right_of_lost h.right rfl ?_) hfails
      simp only [onIncomingCall_eq]
      split_ifs <;> rfl
    · exact fun hcond => absurd hcond hfails

theorem clip_number (call : Call) (id : ℕ) (number : List Byte) :
    (call.clip id number).number = some number ↔
      call.number = some number ∨ (call.id = id ∧ call.direction = .directionIn) := by
  unfold Call.clip
  split_ifs with hcall <;> simp [hcall]

theorem clip_direction (call : Call) (id : ℕ) (number : List Byte) :
    (call.clip id number).direction = call.direction := by
  unfold Call.clip
  split_ifs <;> rfl

omit [Zero κ] in
theorem records_setClip {call : Call} {entry : MokoJournalEntry κ τ}
    (h : Records (fun _ => false) call entry) (number : List Byte) (id : ℕ) :
    Records (fun _ => false) (call.clip id number) (setClip lookup number entry) ↔
      (call.clip id number).number = some number := by
  have hset := records_setDistantNumber h number _ (clip_direction call id number)
  unfold setClip
  split
  · exact hset
  · exact hset

theorem CallsOk.incomingClip (h : CallsOk old s) (number : List Byte) (id : ℕ) (today : τ) :
    Exact lookup old s ⟨.incomingClip number, id, today⟩ := by
  obtain ⟨journal, hjournal⟩ := h.right.journal
  have hmeets : callsMeet s ⟨.incomingClip number, id, today⟩ ↔
      ∀ call ∈ s.ongoing, s.dialer.incomingClip = some number ∨ call.number = some number ∨
        (call.id = id ∧ call.direction = .directionIn) := Iff.rfl
  by_cases hshown : s.dialer.incomingClip = some number
  · have hsame : s.ongoing.map (·.clip id number) = s.ongoing := by
      refine (List.map_congr_left fun call hmem => ?_).trans (List.map_id _)
      unfold Call.clip
      split_ifs with hcall
      · have hnumber := h.clip call hmem hcall.2
        rw [hshown] at hnumber
        rw [hnumber]
        rfl
      · rfl
    have hstep : callsStep lookup s ⟨.incomingClip number, id, today⟩ = s := by
      simp only [callsStep, history, dialerStep, onIncomingClip, if_pos hshown, hsame]
    exact h.idle (hmeets.mpr fun _ _ => Or.inl hshown) hstep
  · have hstep : callsStep lookup s ⟨.incomingClip number, id, today⟩ =
        { s with
          ongoing := s.ongoing.map (·.clip id number)
          dialer := { s.dialer with
            incomingClip := some number
            entry := s.dialer.entry.map (setClip lookup number) } } := by
      simp only [callsStep, history, dialerStep, onIncomingClip, if_neg hshown, hjournal,
        Option.isSome_some, if_true]
    constructor
    · rw [hstep, hmeets, entriesRight_iff, and_iff_right h.right.past]
      obtain ⟨hnil, hentry⟩ | ⟨call, entry, hongoing, hentry, hrecords⟩ := h.right.ongoing.cases
      · simp [hnil, hentry, ongoingRight_nil]
      · simp only [hongoing, hentry, List.map_cons, List.map_nil, Option.map_some,
          ongoingRight_singleton, records_setClip hrecords, clip_number, List.mem_singleton,
          forall_eq, hshown, false_or]
    · rw [hstep, hmeets]
      intro hcond call' hmem' _
      obtain ⟨call, hmem, rfl⟩ := List.mem_map.mp hmem'
      exact ((clip_number call id number).mpr ((hcond call hmem).resolve_left hshown)).symm

theorem CallsOk.release (h : CallsOk old s) (id : ℕ) (today : τ) :
    Exact lookup old s ⟨.callProgress GSMD_CALLPROG_RELEASE, id, today⟩ := by
  have hmeets : callsMeet s ⟨.callProgress GSMD_CALLPROG_RELEASE, id, today⟩ ↔
      ∀ call ∈ s.ongoing, call.id = id ∧ call.missed = decide (s.dialer.status = .incoming) :=
    Iff.rfl
  have hstep : callsStep lookup s ⟨.callProgress GSMD_CALLPROG_RELEASE, id, today⟩ =
      { s.finish (·.id = id) with
        dialer := { addEntry s.dialer (releaseEntry today s.dialer.status) with
          status := .normal, incomingClip := none } } := by
    simp only [callsStep, history, dialerStep, onCallProgress, mokoDialerHungUp, setStatus_fst,
      true_or, if_true]
  constructor
  · rw [hmeets]
    refine (h.right.writes_iff (·.id = id) (releaseEntry today s.dialer.status) _
      (fun call entry hrecords => records_releaseEntry hrecords today s.dialer.status)
      (by rw [hstep]) (by rw [hstep]) (by rw [hstep]) (by rw [hstep])).trans ?_
    simp only [decide_eq_true_eq]
  · rw [hstep, hmeets]
    intro hcond call hmem
    obtain ⟨hmem, hid⟩ := List.mem_filter.mp hmem
    simp [(hcond call hmem).1] at hid

theorem CallsOk.reject (h : CallsOk old s) (handle : Bool) (id : ℕ) (today : τ) :
    Exact lookup old s ⟨.reject handle, id, today⟩ := by
  cases handle with
  | false =>
    have hmeets : callsMeet s ⟨.reject false, id, today⟩ := fun hfalse => by cases hfalse
    exact h.idle hmeets rfl
  | true =>
    have hmeets : callsMeet s ⟨.reject true, id, today⟩ ↔ ∀ call ∈ s.ongoing, call.missed = true :=
      forall_prop_of_true rfl
    let finalise : MokoJournalEntry κ τ → MokoJournalEntry κ τ := fun entry =>
      setWasMissed { entry with dtstart := some today, dtend := some today }
    have hstep : callsStep lookup s ⟨.reject true, id, today⟩ =
        { s.finish fun _ => true with
          dialer := addEntry { s.dialer with status := .normal } finalise } := by
      simp only [callsStep, history, dialerStep, onTalkingRejectCall, setStatus_fst, if_true]
      rfl
    have hframe : (addEntry { s.dialer with status := .normal } finalise).journal =
          (addEntry s.dialer finalise).journal ∧
        (addEntry { s.dialer with status := .normal } finalise).entry =
          (addEntry s.dialer finalise).entry := by
      unfold addEntry
      dsimp only
      constructor <;> split <;> rfl
    constructor
    · have hrecord : ∀ (call : Call) (entry : MokoJournalEntry κ τ),
          Records (fun _ => false) call entry →
          (Records Call.missed call (finalise entry) ↔ call.missed = true) := by
        intro call entry hrecords
        have hdated : Records (fun _ => false) call
            { entry with dtstart := some today, dtend := some today } := hrecords
        exact records_setWasMissed hdated
      rw [hmeets]
      refine (h.right.writes_iff (fun _ => true) finalise _ hrecord (by rw [hstep]) (by rw [hstep])
        (by rw [hstep, hframe.1]) (by rw [hstep, hframe.2])).trans ?_
      simp only [true_and]
    · rw [hstep]
      intro _ call hmem
      simp [Calls.finish] at hmem

theorem CallsOk.rejected (h : CallsOk old s) (id : ℕ) (today : τ) :
    Exact lookup old s ⟨.callProgress GSMD_CALLPROG_REJECT, id, today⟩ := by
  have hmeets : callsMeet s ⟨.callProgress GSMD_CALLPROG_REJECT, id, today⟩ ↔
      ∀ call ∈ s.ongoing, call.id ≠ id := Iff.rfl
  have hstep : callsStep lookup s ⟨.callProgress GSMD_CALLPROG_REJECT, id, today⟩ =
      { s.finish (·.id = id) with dialer := { s.dialer with status := .normal } } := by
    have hother : GSMD_CALLPROG_REJECT ≠ GSMD_CALLPROG_RELEASE := by decide
    simp only [callsStep, history, dialerStep, onCallProgress, mokoDialerRejected, setStatus_fst,
      hother, or_true, if_true, if_false]
  rcases h.right.ends (·.id = id) with hnone | ⟨call, entry, hongoing, -, hends, -⟩
  · have hcond : callsMeet s ⟨.callProgress GSMD_CALLPROG_REJECT, id, today⟩ :=
      fun call hmem => of_decide_eq_false (hnone call hmem)
    rw [finish_none hnone] at hstep
    apply h.same hcond <;> rw [hstep]
  · have hfails : ¬callsMeet s ⟨.callProgress GSMD_CALLPROG_REJECT, id, today⟩ := by
      rw [hmeets, hongoing]
      simpa using hends
    rw [finish_only hongoing hends] at hstep
    constructor
    · have hpast : (callsStep lookup s ⟨.callProgress GSMD_CALLPROG_REJECT, id, today⟩).past =
          s.past ++ [call] := by rw [hstep]
      exact iff_of_false (not_right_of_lost h.right hpast (by rw [hstep])) hfails
    · exact fun hcond => absurd hcond hfails

theorem CallsOk.connected (h : CallsOk old s) (id : ℕ) (today : τ) :
    Exact lookup old s ⟨.callProgress GSMD_CALLPROG_CONNECTED, id, today⟩ := by
  obtain ⟨journal, hjournal⟩ := h.right.journal
  have hrelease : GSMD_CALLPROG_CONNECTED ≠ GSMD_CALLPROG_RELEASE := by decide
  have hreject : GSMD_CALLPROG_CONNECTED ≠ GSMD_CALLPROG_REJECT := by decide
  have hcond : callsMeet s ⟨.callProgress GSMD_CALLPROG_CONNECTED, id, today⟩ := by
    simp only [callsMeet, hrelease, hreject, if_false]
  let answer : Call → Call := fun call =>
    if call.id = id then { call with answered := true } else call
  have hstep : callsStep lookup s ⟨.callProgress GSMD_CALLPROG_CONNECTED, id, today⟩ =
      { s with
        ongoing := s.ongoing.map answer
        dialer := { s.dialer with
          status := .talking
          entry := s.dialer.entry.map ({ · with dtstart := some today }) } } := by
    simp only [callsStep, history, dialerStep, onCallProgress, mokoDialerTalking_fst, hrelease,
      hreject, hjournal, Option.isSome_some, or_self, if_true, if_false]
    rfl
  refine h.keeps hcond answer ({ · with dtstart := some today }) (by rw [hstep]) (by rw [hstep])
    (by rw [hstep]) (by rw [hstep]) (by rw [hstep]) (fun call => ?_) fun entry => ⟨rfl, rfl⟩
  dsimp only [answer]
  constructor <;> split_ifs <;> rfl

theorem CallsOk.callProgress (h : CallsOk old s) (type : ℤ) (id : ℕ) (today : τ) :
    Exact lookup old s ⟨.callProgress type, id, today⟩ := by
  by_cases hrelease : type = GSMD_CALLPROG_RELEASE
  · subst hrelease
    exact h.release id today
  by_cases hreject : type = GSMD_CALLPROG_REJECT
  · subst hreject
    exact h.rejected id today
  by_cases hconnected : type = GSMD_CALLPROG_CONNECTED
  · subst hconnected
    exact h.connected id today
  · apply h.same
    · simp [callsMeet, hrelease, hreject]
    all_goals
      simp [callsStep, history, dialerStep, onCallProgress, hrelease, hreject, hconnected]

theorem CallsOk.accept (h : CallsOk old s) (handle : Bool) (id : ℕ) (today : τ) :
    Exact lookup old s ⟨.accept handle, id, today⟩ := by
  have hcond : callsMeet s ⟨.accept handle, id, today⟩ := trivial
  by_cases haccepts : s.dialer.status = .incoming ∧ handle = true
  · let answer : Call → Call := fun call =>
      if call.direction = .directionIn then { call with answered := true } else call
    have hstep : callsStep lookup s ⟨.accept handle, id, today⟩ =
        { s with
          ongoing := s.ongoing.map answer
          dialer := { s.dialer with status := .talking } } := by
      simp only [callsStep, history, dialerStep, onTalkingAcceptCall, if_pos haccepts]
      rfl
    refine h.keeps hcond answer (fun entry => entry) (by rw [hstep]) (by rw [hstep])
      (by rw [hstep]) (by rw [hstep, Option.map_id']) (by rw [hstep]) (fun call => ?_)
      fun entry => ⟨rfl, rfl⟩
    dsimp only [answer]
    constructor <;> split_ifs <;> rfl
  · have hstep : callsStep lookup s ⟨.accept handle, id, today⟩ = s := by
      simp only [callsStep, history, dialerStep, onTalkingAcceptCall, if_neg haccepts]
    exact h.idle hcond hstep

/-- **The entries are right after an event exactly if** it meets the condition. -/
theorem CallsOk.exact (h : CallsOk old s) (e : CallEvent τ) : Exact lookup old s e := by
  obtain ⟨event, id, today⟩ := e
  cases event with
  | networkRegistered type lac cell =>
    have hcond : callsMeet s ⟨.networkRegistered type lac cell, id, today⟩ := trivial
    apply h.same hcond rfl rfl <;>
      simp only [callsStep, dialerStep, dialerOnNetworkRegistered] <;> split_ifs <;> rfl
  | incomingCall type =>
    by_cases htype : type = GSMD_CALL_TIMEOUT
    · subst htype
      exact h.timeout id today
    · exact h.incomingCall htype id today
  | incomingClip number => exact h.incomingClip number id today
  | callProgress type => exact h.callProgress type id today
  | dial handle number => exact h.dial handle number id today
  | accept handle => exact h.accept handle id today
  | reject handle => exact h.reject handle id today
  | cancel handle =>
    have hcond : callsMeet s ⟨.cancel handle, id, today⟩ := trivial
    apply h.same hcond rfl rfl <;>
      simp only [callsStep, dialerStep, onTalkingCancelCall, setStatus_fst] <;> split_ifs <;> rfl

theorem CallsOk.step (h : CallsOk old s) (hmeets : callsMeet s e) :
    CallsOk old (callsStep lookup s e) :=
  ⟨(h.exact e).right.mpr hmeets, (h.exact e).clip hmeets⟩

end Events

theorem callsStart_ok {κ τ : Type} (old : List (MokoJournalEntry κ τ)) :
    CallsOk old (callsStart old) :=
  ⟨⟨⟨[], by simp [callsStart, mokoDialerInit], .nil⟩, .nil⟩, fun call hmem => by
    simp [callsStart] at hmem⟩

/-- **The call history is complete exactly as long as** the events meet the condition on them. -/
theorem history_complete_iff {κ τ : Type} [Zero κ]
    (lookup : List Byte → Option (Option (List Byte))) (old : List (MokoJournalEntry κ τ))
    (events : List (CallEvent τ)) :
    (calls lookup).Meets (fun s e => EntriesRight old (callsStep lookup s e)) (callsStart old)
        events ↔
      (calls lookup).Meets callsMeet (callsStart old) events :=
  (calls lookup).meets_iff_of_inv (CallsOk old) (callsStart_ok old)
    (fun _ e h => ⟨(h.exact e).right, h.step⟩) events

/-- The callee is busy: the next call takes the entry of this one. -/
theorem not_history_complete_busy :
    ¬(calls fun _ => none).Meets (fun s e => EntriesRight [] (callsStep (fun _ => none) s e))
      (callsStart [] : Calls ℕ ℕ)
      [⟨.networkRegistered GSMD_NETREG_REG_HOME 0 0, 0, 0⟩, ⟨.dial true (ascii "123"), 1, 0⟩,
        ⟨.callProgress GSMD_CALLPROG_REJECT, 1, 1⟩, ⟨.dial true (ascii "456"), 2, 2⟩,
        ⟨.callProgress GSMD_CALLPROG_CONNECTED, 2, 3⟩,
        ⟨.callProgress GSMD_CALLPROG_RELEASE, 2, 4⟩] := by
  rintro ⟨-, -, -, -, -, hlast, -⟩
  have hlength := hlast.past.length
  revert hlength
  decide

end Openmoko.Phonekit
