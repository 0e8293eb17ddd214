import Openmoko.Phonekit.Phone

/-!
# The status follows the call

An event of gsmd reaches the dialer after the user has gone on to something else. The dialer takes
it for one about what it shows.
-/

namespace Openmoko.Phonekit

open Gsmd Mokojournal

section Required

variable {κ τ : Type}

def begins (event : DialerEvent) (obs : List DialerObs) : Prop :=
  match event with
  | .dial _ _ => .dialResult true ∈ obs
  | .callProgress type => type = GSMD_CALLPROG_CONNECTED
  | .incomingCall type => type ≠ GSMD_CALL_TIMEOUT
  | _ => False

def endsCall (event : DialerEvent) : Prop :=
  event = .callProgress GSMD_CALLPROG_RELEASE ∨ event = .callProgress GSMD_CALLPROG_REJECT

variable (s : Phone κ τ)

def Phone.showsOther (call : ℕ) : Prop := ∃ other ≠ call, s.current = some other

def Phone.otherInProgress (call : ℕ) : Prop :=
  ∃ other ≠ call, s.current = some other ∨ s.gsmd.ringing = some other

structure StatusFollows [Zero κ] (lookup : List Byte → Option (Option (List Byte)))
    (s : Phone κ τ) (e : CallEvent τ) : Prop where
  leaves : s.dialer.status = .normal → (s.act lookup e).1.dialer.status ≠ .normal →
    begins e.event (s.act lookup e).2
  timeout : e.event = .incomingCall GSMD_CALL_TIMEOUT → e.call ∉ s.answered →
    (s.act lookup e).1.dialer.status = .normal ∨
      s.showsOther e.call ∧ (s.act lookup e).1.dialer.status = s.dialer.status
  ended : endsCall e.event → e.call ∈ s.ended → s.otherInProgress e.call →
    (s.act lookup e).1.dialer.status = s.dialer.status ∧ .voiceHangup ∉ (s.act lookup e).2

def statusMeets (e : CallEvent τ) : Prop :=
  match e.event with
  | .incomingCall type =>
    type = GSMD_CALL_TIMEOUT →
      s.dialer.status = .talking ∨ (s.dialer.status ≠ .normal ∧ e.call ∈ s.answered) ∨
        (s.dialer.status = .incoming ∧ s.current ≠ some e.call)
  | .callProgress type =>
    type = GSMD_CALLPROG_RELEASE ∨ type = GSMD_CALLPROG_REJECT →
      e.call ∈ s.ended → ¬s.otherInProgress e.call
  | _ => True

def phoneFollows [Zero κ] (lookup : List Byte → Option (Option (List Byte))) (s : Phone κ τ)
    (e : PhoneEvent τ) : Prop :=
  ∀ s' input, dialerInput s e = some (s', input) → StatusFollows lookup s' input

def phoneMeets (e : PhoneEvent τ) : Prop :=
  ∀ s' input, dialerInput s e = some (s', input) → statusMeets s' input

end Required

structure PhoneOk {κ τ : Type} (s : Phone κ τ) : Prop where
  shown : s.dialer.status ≠ .normal → s.current ≠ none
  talking : s.dialer.status = .talking → ∀ call, s.current = some call → call ∈ s.answered

section Steps

variable {κ τ : Type} [Zero κ] {lookup : List Byte → Option (Option (List Byte))} {s : Phone κ τ}

def nextStatus (s : MokoDialer κ τ) : DialerEvent → PhoneKitDialerStatus
  | .networkRegistered _ _ _ | .incomingClip _ => s.status
  | .incomingCall _ => if showsIncoming s then .incoming else s.status
  | .callProgress type =>
    if type = GSMD_CALLPROG_RELEASE ∨ type = GSMD_CALLPROG_REJECT then .normal
    else if type = GSMD_CALLPROG_CONNECTED then .talking
    else s.status
  | .dial handle number => if dials s handle number then .dialing else s.status
  | .accept handle => if s.status = .incoming ∧ handle then .talking else s.status
  | .reject handle | .cancel handle => if handle then .normal else s.status

omit [Zero κ] in
theorem addEntry_status (s : MokoDialer κ τ)
    (finalise : MokoJournalEntry κ τ → MokoJournalEntry κ τ) :
    (addEntry s finalise).status = s.status := by
  unfold addEntry
  split <;> rfl

theorem dialerStep_status (s : MokoDialer κ τ) (today : τ) (event : DialerEvent) :
    (dialerStep lookup today s event).1.status = nextStatus s event := by
  cases event with
  | networkRegistered type lac cell =>
    simp only [dialerStep, dialerOnNetworkRegistered, nextStatus]
    split_ifs <;> rfl
  | incomingCall type =>
    simp only [dialerStep, onIncomingCall_eq, nextStatus]
    split_ifs <;> rfl
  | incomingClip number =>
    simp only [dialerStep, onIncomingClip, nextStatus]
    split_ifs <;> rfl
  | callProgress type =>
    simp only [dialerStep, onCallProgress, nextStatus, mokoDialerHungUp, mokoDialerRejected,
      setStatus_fst, mokoDialerTalking_fst]
    split_ifs <;> simp_all
  | dial handle number =>
    simp only [dialerStep, mokoDialerDial_eq, nextStatus]
    split_ifs <;> rfl
  | accept handle =>
    simp only [dialerStep, onTalkingAcceptCall, nextStatus]
    split_ifs <;> rfl
  | reject handle =>
    simp only [dialerStep, onTalkingRejectCall, setStatus_fst, nextStatus]
    split_ifs
    · exact addEntry_status _ _
    · rfl
  | cancel handle =>
    simp only [dialerStep, onTalkingCancelCall, setStatus_fst, nextStatus]
    split_ifs <;> rfl

theorem Phone.act_status (s : Phone κ τ) (e : CallEvent τ) :
    (s.act lookup e).1.dialer.status = nextStatus s.dialer e.event :=
  dialerStep_status s.dialer e.today e.event

variable {dialer : MokoDialer κ τ}

theorem dial_result {handle : Bool} {number : List Byte} {today : τ}
    (hdials : dials dialer handle number = true) :
    .dialResult true ∈ (mokoDialerDial lookup today dialer handle number).2 := by
  simp only [dials, Bool.and_eq_true, decide_eq_true_eq] at hdials
  obtain ⟨⟨⟨hhandle, hstatus⟩, hnumber⟩, hmay⟩ := hdials
  simp [mokoDialerDial, hhandle, hstatus, hnumber, hmay]

theorem begins_of_leaves {today : τ} {event : DialerEvent}
    (hnormal : dialer.status = .normal) (hleaves : nextStatus dialer event ≠ .normal)
    (htimeout : event ≠ .incomingCall GSMD_CALL_TIMEOUT) :
    begins event (dialerStep lookup today dialer event).2 := by
  cases event with
  | networkRegistered type lac cell => exact absurd hnormal hleaves
  | incomingCall type => exact fun htype => htimeout (by rw [htype])
  | incomingClip number => exact absurd hnormal hleaves
  | callProgress type =>
    by_contra hconnected
    simp only [begins] at hconnected
    simp [nextStatus, hconnected, hnormal] at hleaves
  | dial handle number =>
    by_cases hdials : dials dialer handle number = true
    · exact dial_result hdials
    · simp [nextStatus, hdials, hnormal] at hleaves
  | accept handle => simp [nextStatus, hnormal] at hleaves
  | reject handle => simp [nextStatus, hnormal] at hleaves
  | cancel handle => simp [nextStatus, hnormal] at hleaves

omit [Zero κ] in
theorem nextStatus_talking {event : DialerEvent}
    (hbefore : dialer.status ≠ .talking) (hafter : nextStatus dialer event = .talking) :
    event = .callProgress GSMD_CALLPROG_CONNECTED ∨ ∃ handle, event = .accept handle := by
  cases event with
  | networkRegistered type lac cell => exact absurd hafter hbefore
  | incomingCall type =>
    simp only [nextStatus] at hafter
    split_ifs at hafter
    exact absurd hafter hbefore
  | incomingClip number => exact absurd hafter hbefore
  | callProgress type =>
    simp only [nextStatus] at hafter
    split_ifs at hafter with _ hconnected
    · exact Or.inl (by rw [hconnected])
    · exact absurd hafter hbefore
  | dial handle number =>
    simp only [nextStatus] at hafter
    split_ifs at hafter
    exact absurd hafter hbefore
  | accept handle => exact Or.inr ⟨handle, rfl⟩
  | reject handle | cancel handle =>
    simp only [nextStatus] at hafter
    split_ifs at hafter
    exact absurd hafter hbefore

variable {e : CallEvent τ}

theorem StatusFollows.of_plain
    (htimeout : e.event ≠ .incomingCall GSMD_CALL_TIMEOUT) (hends : ¬endsCall e.event) :
    StatusFollows lookup s e where
  leaves hnormal hleaves := by
    rw [Phone.act_status] at hleaves
    exact begins_of_leaves hnormal hleaves htimeout
  timeout htype := absurd htype htimeout
  ended hend := absurd hend hends

omit [Zero κ] in
theorem PhoneOk.showsOther_iff (h : PhoneOk s) (hstatus : s.dialer.status ≠ .normal) (call : ℕ) :
    s.showsOther call ↔ s.current ≠ some call := by
  obtain ⟨shown, hshown⟩ := Option.ne_none_iff_exists'.mp (h.shown hstatus)
  rw [Phone.showsOther, hshown]
  constructor
  · rintro ⟨other, hne, hother⟩ hcall
    exact hne (Option.some.inj (hother.symm.trans hcall))
  · exact fun hne => ⟨shown, fun heq => hne (by rw [heq]), rfl⟩

theorem PhoneOk.timeout_iff (h : PhoneOk s) (htimeout : e.event = .incomingCall GSMD_CALL_TIMEOUT) :
    StatusFollows lookup s e ↔ statusMeets s e := by
  have hnext : (s.act lookup e).1.dialer.status =
      if showsIncoming s.dialer then .incoming else s.dialer.status := by
    rw [Phone.act_status, htimeout]
    rfl
  have hmeets : statusMeets s e ↔
      s.dialer.status = .talking ∨ (s.dialer.status ≠ .normal ∧ e.call ∈ s.answered) ∨
        (s.dialer.status = .incoming ∧ s.current ≠ some e.call) := by
    simp only [statusMeets, htimeout, forall_const]
  have hends : ¬endsCall e.event := by
    rw [htimeout]
    rintro (hend | hend) <;> cases hend
  -- what remains to be seen is the second clause, and the first where the status is `NORMAL`
  have hfollows : StatusFollows lookup s e ↔
      s.dialer.status ≠ .normal ∧ (e.call ∉ s.answered →
        (s.act lookup e).1.dialer.status = .normal ∨
          s.showsOther e.call ∧ (s.act lookup e).1.dialer.status = s.dialer.status) := by
    constructor
    · intro hright
      refine ⟨fun hnormal => ?_, hright.timeout htimeout⟩
      have hincoming : (s.act lookup e).1.dialer.status = .incoming := by
        simp [hnext, showsIncoming, hnormal]
      have hbegins := hright.leaves hnormal (by simp [hincoming])
      rw [htimeout] at hbegins
      exact hbegins rfl
    · rintro ⟨hstatus, hclause⟩
      exact ⟨fun hnormal => absurd hnormal hstatus, fun _ => hclause,
        fun hend => absurd hend hends⟩
  rw [hfollows, hmeets, hnext]
  cases hstatus : s.dialer.status with
  | normal => simp
  | incoming =>
    have hother := h.showsOther_iff (by simp [hstatus]) e.call
    simp only [showsIncoming, hstatus, hother]
    by_cases hanswered : e.call ∈ s.answered <;> simp [hanswered]
  | dialing =>
    simp only [showsIncoming, hstatus]
    by_cases hanswered : e.call ∈ s.answered <;> simp [hanswered]
  | talking =>
    have hother := h.showsOther_iff (by simp [hstatus]) e.call
    have hanswered : e.call ∉ s.answered → s.current ≠ some e.call :=
      fun hanswered hcurrent => hanswered (h.talking hstatus _ hcurrent)
    simpa [showsIncoming, hstatus, hother] using hanswered

theorem ended_iff (hends : endsCall e.event) : StatusFollows lookup s e ↔ statusMeets s e := by
  have hnext : (s.act lookup e).1.dialer.status = .normal := by
    rw [Phone.act_status]
    rcases hends with hend | hend <;> simp [hend, nextStatus]
  have hhangup : .voiceHangup ∈ (s.act lookup e).2 := by
    change _ ∈ (dialerStep lookup e.today s.dialer e.event).2
    rcases hends with hend | hend
    · simp [hend, dialerStep, onCallProgress, mokoDialerHungUp]
    · have hother : GSMD_CALLPROG_REJECT ≠ GSMD_CALLPROG_RELEASE := by decide
      simp [hend, dialerStep, onCallProgress, mokoDialerRejected, hother]
  have hmeets : statusMeets s e ↔ (e.call ∈ s.ended → ¬s.otherInProgress e.call) := by
    rcases hends with hend | hend <;> simp [statusMeets, hend]
  rw [hmeets]
  constructor
  · exact fun hright hended hother => (hright.ended hends hended hother).2 hhangup
  · intro hcond
    refine ⟨fun _ hleaves => absurd hnext hleaves, fun _ _ => Or.inl hnext,
      fun _ hended hother => absurd hother (hcond hended)⟩

/-- **An event is followed exactly if** it meets the condition. -/
theorem PhoneOk.follows_iff (h : PhoneOk s) (e : CallEvent τ) :
    StatusFollows lookup s e ↔ statusMeets s e := by
  by_cases htimeout : e.event = .incomingCall GSMD_CALL_TIMEOUT
  · exact h.timeout_iff htimeout
  by_cases hends : endsCall e.event
  · exact ended_iff hends
  · refine iff_of_true (.of_plain htimeout hends) ?_
    unfold statusMeets
    split
    · next type hevent => exact fun htype => absurd (by rw [hevent, htype]) htimeout
    · next type hevent =>
      refine fun hend => absurd ?_ hends
      rw [endsCall, hevent]
      exact hend.imp (congrArg _) (congrArg _)
    · trivial

theorem PhoneOk.shown_act (h : PhoneOk s) (hmeets : statusMeets s e)
    (hstatus : (s.act lookup e).1.dialer.status ≠ .normal) :
    (s.act lookup e).1.current ≠ none := by
  change s.currentAfter e (s.act lookup e).1.dialer.status ≠ none
  rw [Phone.currentAfter, if_neg hstatus]
  by_cases hnormal : s.dialer.status = .normal
  · have hbegins := ((h.follows_iff e).mpr hmeets).leaves hnormal hstatus
    rw [if_neg (by rwa [hnormal])]
    cases hevent : e.event with
    | dial handle number => simp
    | callProgress type => simp
    | incomingCall type =>
      rw [hevent] at hbegins
      simp [show type ≠ GSMD_CALL_TIMEOUT from hbegins]
    | networkRegistered _ _ _ | incomingClip _ | accept _ | reject _ | cancel _ =>
      rw [hevent] at hbegins
      exact hbegins.elim
  · have hcurrent := h.shown hnormal
    split_ifs
    · exact hcurrent
    · split
      · simp
      · simp
      · split_ifs <;> simp [hcurrent]
      · exact hcurrent

theorem PhoneOk.talking_act (h : PhoneOk s)
    (hstatus : (s.act lookup e).1.dialer.status = .talking) {call : ℕ}
    (hcurrent : (s.act lookup e).1.current = some call) :
    call ∈ (s.act lookup e).1.answered := by
  change s.currentAfter e (s.act lookup e).1.dialer.status = some call at hcurrent
  change call ∈ s.answered ++ s.answeredBy e (s.act lookup e).1.dialer.status
  rw [Phone.currentAfter, hstatus, if_neg (by simp)] at hcurrent
  rw [hstatus]
  by_cases hsame : s.dialer.status = .talking
  · rw [if_pos hsame.symm] at hcurrent
    exact List.mem_append_left _ (h.talking hsame call hcurrent)
  · rw [if_neg (Ne.symm hsame)] at hcurrent
    refine List.mem_append_right _ ?_
    rw [Phone.act_status] at hstatus
    obtain hconnected | ⟨handle, haccept⟩ := nextStatus_talking hsame hstatus
    · simp only [hconnected, Option.some.injEq] at hcurrent
      simp [Phone.answeredBy, hconnected, hcurrent]
    · simp only [haccept] at hcurrent
      simp [Phone.answeredBy, haccept, Ne.symm hsame, hcurrent]

theorem PhoneOk.act (h : PhoneOk s) (hmeets : statusMeets s e) : PhoneOk (s.act lookup e).1 :=
  ⟨h.shown_act hmeets, fun hstatus _ hcurrent => h.talking_act hstatus hcurrent⟩

end Steps

section Runs

variable {κ τ : Type} {s : Phone κ τ}

theorem PhoneOk.of_eq (h : PhoneOk s) {s' : Phone κ τ} (hdialer : s'.dialer = s.dialer)
    (hcurrent : s'.current = s.current) (hanswered : s'.answered = s.answered) : PhoneOk s' := by
  refine ⟨?_, ?_⟩
  · rw [hdialer, hcurrent]
    exact h.shown
  · rw [hdialer, hcurrent, hanswered]
    exact h.talking

theorem PhoneOk.input (h : PhoneOk s) {e : PhoneEvent τ} {s' : Phone κ τ} {input : CallEvent τ}
    (hinput : dialerInput s e = some (s', input)) : PhoneOk s' := by
  unfold dialerInput at hinput
  split at hinput
  · split at hinput
    · obtain ⟨rfl, -⟩ := Prod.mk.inj (Option.some.inj hinput)
      exact h.of_eq rfl rfl rfl
    · cases hinput
  · obtain ⟨rfl, -⟩ := Prod.mk.inj (Option.some.inj hinput)
    exact h
  · cases hinput

theorem PhoneOk.gsmdStep (h : PhoneOk s) (e : PhoneEvent τ) : PhoneOk (gsmdStep s e) := by
  cases e with
  | ring _ | clip _ _ | cpi _ _ | creg _ _ _ | deliver _ | user _ _ _ => exact h.of_eq rfl rfl rfl
  | cring param call =>
    simp only [Phonekit.gsmdStep]
    split <;> exact h.of_eq rfl rfl rfl
  | ringTimer =>
    simp only [Phonekit.gsmdStep]
    split_ifs
    · split <;> exact h.of_eq rfl rfl rfl
    · exact h
  | rcvCommand =>
    simp only [Phonekit.gsmdStep]
    split <;> exact h.of_eq rfl rfl rfl
  | cmdAnswered i ret =>
    simp only [Phonekit.gsmdStep]
    split <;> exact h.of_eq rfl rfl rfl

end Runs

theorem phoneStart_ok {κ τ : Type} (journal : Option (List (MokoJournalEntry κ τ))) :
    PhoneOk (phoneStart journal) :=
  ⟨fun hstatus => absurd rfl hstatus, fun hstatus => by cases hstatus⟩

/-- **The status follows the calls exactly as long as** the events meet the condition on them. -/
theorem status_follows_iff {κ τ : Type} [Zero κ]
    (lookup : List Byte → Option (Option (List Byte)))
    (journal : Option (List (MokoJournalEntry κ τ))) (events : List (PhoneEvent τ)) :
    (phone lookup).Meets (phoneFollows lookup) (phoneStart journal) events ↔
      (phone lookup).Meets phoneMeets (phoneStart journal) events := by
  refine (phone lookup).meets_iff_of_inv PhoneOk (phoneStart_ok journal) (fun s e h => ?_) events
  have hiff : phoneFollows lookup s e ↔ phoneMeets s e :=
    forall_congr' fun s' => forall_congr' fun input => forall_congr' fun hinput =>
      (h.input hinput).follows_iff input
  refine ⟨hiff, fun hmeets => ?_⟩
  change PhoneOk (phoneStep lookup s e).1
  unfold phoneStep
  split
  · next s' input hinput => exact (h.input hinput).act (hmeets s' input hinput)
  · exact h.gsmdStep e

/-- A call that is not answered stops ringing: the dialer stays `INCOMING`. -/
theorem not_status_follows_timeout :
    ¬(phone fun _ => none).Meets (phoneFollows fun _ => none) (phoneStart none : Phone ℕ ℕ)
      [.ring 1, .deliver 0, .ringTimer, .deliver 1] := by
  rintro ⟨-, -, -, hlast, -⟩
  obtain hnormal | ⟨⟨other, hne, hother⟩, -⟩ := (hlast _ _ rfl).timeout rfl (by decide)
  · revert hnormal
    decide
  · have hshown : some 1 = some other := hother
    exact hne (Option.some.inj hshown).symm

end Openmoko.Phonekit
