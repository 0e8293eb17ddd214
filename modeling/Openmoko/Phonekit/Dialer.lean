import Openmoko.Gsmd.UnsolicitedParams
import Openmoko.Mokojournal.Entry
import Openmoko.Phonekit.Network

/-!
# The dialer (`moko-dialer.c`)

There is one status and one journal entry in the making. Of what the events of gsmd tell, the dialer
does not look at the call they are about.
-/

namespace Openmoko.Phonekit

open Gsmd Mokojournal

inductive PhoneKitDialerStatus where
  | normal
  | incoming
  | dialing
  | talking
  deriving DecidableEq, Repr

structure MokoDialer (κ τ : Type) where
  status : PhoneKitDialerStatus
  registered : ℤ
  gsmLocation : MokoGSMLocation
  -- `NULL` if it cannot be loaded
  journal : Option (List (MokoJournalEntry κ τ))
  entry : Option (MokoJournalEntry κ τ)
  incomingClip : Option (List Byte)
  deriving DecidableEq, Repr

def mokoDialerInit {κ τ : Type} (journal : Option (List (MokoJournalEntry κ τ))) :
    MokoDialer κ τ :=
  { status := .normal, registered := GSMD_NETREG_UNREG, gsmLocation := { lac := 0, cid := 0 },
    journal := journal, entry := none, incomingClip := none }

/-- Events of gsmd, and what the user does. -/
inductive DialerEvent where
  | networkRegistered (type lac cell : ℤ)
  | incomingCall (type : ℤ)
  | incomingClip (number : List Byte)
  | callProgress (type : ℤ)
  -- the user may also find that there is no handle of gsmd
  | dial (handle : Bool) (number : List Byte)
  | accept (handle : Bool)
  | reject (handle : Bool)
  | cancel (handle : Bool)
  deriving DecidableEq, Repr

/-- An event, with the call that it is about and the time. -/
structure CallEvent (τ : Type) where
  event : DialerEvent
  call : ℕ
  today : τ
  deriving DecidableEq, Repr

inductive DialerObs where
  -- commands for gsmd
  | voiceOutInit (type : ℤ) (number : List Byte)
  | voiceInAccept
  | voiceHangup
  | getSerial
  -- signals
  | statusChanged (status : PhoneKitDialerStatus)
  | incomingCall (number : Option (List Byte))
  | talking
  | hungUp
  | rejected
  -- what `moko_dialer_dial` returns
  | dialResult (result : Bool)
  deriving DecidableEq, Repr

section Handlers

variable {κ τ : Type} [Zero κ] (lookup : List Byte → Option (Option (List Byte))) (today : τ)

variable (s : MokoDialer κ τ)

def setStatus (status : PhoneKitDialerStatus) :
    MokoDialer κ τ × List DialerObs :=
  if s.status ≠ status then ({ s with status := status }, [.statusChanged status]) else (s, [])

def voiceEntry (direction : MessageDirection) : MokoJournalEntry κ τ :=
  mokoJournalEntryAlloc
    (.voice { distantNumber := none, localNumber := none, wasMissed := false }) direction

variable (number : List Byte)

variable (entry : MokoJournalEntry κ τ)

def setDistantNumber : MokoJournalEntry κ τ :=
  match entry.extra with
  | .voice info => { entry with extra := .voice { info with distantNumber := some number } }
  | _ => entry

def setWasMissed : MokoJournalEntry κ τ :=
  match entry.extra with
  | .voice info => { entry with extra := .voice { info with wasMissed := true } }
  | _ => entry

/-- The blocks that finalise and add the journal entry, and what they make of it before. -/
def addEntry (finalise : MokoJournalEntry κ τ → MokoJournalEntry κ τ) :
    MokoDialer κ τ :=
  match s.journal, s.entry with
  | some journal, some entry =>
    { s with journal := some (journal ++ [finalise entry]), entry := none }
  | _, _ => s

/-- `*#06#` -/
def IMEI_CODE : List Byte := ascii "*#06#"

def EMERGENCY : List Byte := ascii "112"

def mayDial : Bool :=
  s.registered = GSMD_NETREG_REG_HOME || s.registered = GSMD_NETREG_REG_ROAMING ||
    s.registered = GSMD_NETREG_DENIED || number = EMERGENCY

def outgoingEntry : MokoJournalEntry κ τ :=
  setDistantNumber number
    { voiceEntry .directionOut with
      dtstart := some today
      source := some (ascii "OpenMoko Dialer")
      gsmLoc := s.gsmLocation
      contactUid := (lookup number).join }

variable (handle : Bool)

def mokoDialerDial (number : List Byte) :
    MokoDialer κ τ × List DialerObs :=
  if !handle then (s, [.dialResult false])
  -- busy
  else if s.status ≠ .normal then (s, [.dialResult false])
  else if number = IMEI_CODE then (s, [.getSerial, .dialResult true])
  -- the status is `DIALING` until this is found out
  else if !mayDial s number then (s, [.dialResult false])
  else
    ({ s with
        status := .dialing
        entry := if s.journal.isSome then some (outgoingEntry lookup today s number) else s.entry },
      [.voiceOutInit (if number.head? = some 43 then 145 else 129) number, .statusChanged .dialing,
        .dialResult true])

def onTalkingAcceptCall : MokoDialer κ τ × List DialerObs :=
  if s.status = .incoming ∧ handle then
    ({ s with status := .talking }, [.voiceInAccept, .statusChanged .talking, .talking])
  else (s, [])

def onTalkingRejectCall : MokoDialer κ τ × List DialerObs :=
  if handle then
    let (s', obs) := setStatus s .normal
    (addEntry s' fun entry =>
        setWasMissed { entry with dtstart := some today, dtend := some today },
      .voiceHangup :: obs ++ [.rejected])
  else (s, [])

def onTalkingCancelCall : MokoDialer κ τ × List DialerObs :=
  if handle then
    let (s', obs) := setStatus s .normal
    (s', .voiceHangup :: obs ++ [.hungUp])
  else (s, [])

def dialerOnNetworkRegistered (type lac cell : ℤ) : MokoDialer κ τ :=
  if type = GSMD_NETREG_REG_HOME ∨ type = GSMD_NETREG_REG_ROAMING then
    { s with
      gsmLocation := { lac := UInt16.ofInt lac, cid := UInt16.ofInt cell }
      registered := type }
  else { s with registered := type }

def incomingEntry : MokoJournalEntry κ τ :=
  { voiceEntry .directionIn with
    source := some (ascii "Openmoko Dialer")
    gsmLoc := s.gsmLocation }

def onIncomingCall (_type : ℤ) : MokoDialer κ τ × List DialerObs :=
  if s.status = .incoming ∨ s.status = .talking then (s, [])
  else
    ({ s with
        status := .incoming
        incomingClip := none
        entry := if s.journal.isSome then some (incomingEntry s) else s.entry },
      [.statusChanged .incoming, .incomingCall none])

def setClip : MokoJournalEntry κ τ :=
  match lookup number with
  | some contactUid => { setDistantNumber number entry with contactUid := contactUid }
  | none => setDistantNumber number entry

def onIncomingClip : MokoDialer κ τ × List DialerObs :=
  if s.incomingClip = some number then (s, [])
  else
    ({ s with
        incomingClip := some number
        entry := if s.journal.isSome then s.entry.map (setClip lookup number) else s.entry },
      [.incomingCall (some number)])

def mokoDialerHungUp : MokoDialer κ τ × List DialerObs :=
  let (s', obs) := setStatus s .normal
  (s', obs ++ [.voiceHangup, .hungUp])

def mokoDialerRejected : MokoDialer κ τ × List DialerObs :=
  let (s', obs) := setStatus s .normal
  (s', obs ++ [.voiceHangup, .rejected])

def mokoDialerTalking : MokoDialer κ τ × List DialerObs :=
  if s.status = .talking then (s, [])
  else ({ s with status := .talking }, [.statusChanged .talking, .talking])

def releaseEntry (status : PhoneKitDialerStatus) (entry : MokoJournalEntry κ τ) :
    MokoJournalEntry κ τ :=
  if status = .incoming then
    setWasMissed { entry with dtstart := some today, dtend := some today }
  else { entry with dtend := some today }

def onCallProgress (type : ℤ) : MokoDialer κ τ × List DialerObs :=
  if type = GSMD_CALLPROG_RELEASE then
    let (s', obs) := mokoDialerHungUp (addEntry s (releaseEntry today s.status))
    ({ s' with incomingClip := none }, obs)
  else if type = GSMD_CALLPROG_REJECT then mokoDialerRejected s
  else if type = GSMD_CALLPROG_CONNECTED then
    let (s', obs) := mokoDialerTalking s
    ({ s' with
        entry :=
          if s'.journal.isSome then s'.entry.map ({ · with dtstart := some today })
          else s'.entry }, obs)
  else (s, [])

def dialerStep (s : MokoDialer κ τ) : DialerEvent → MokoDialer κ τ × List DialerObs
  | .networkRegistered type lac cell => (dialerOnNetworkRegistered s type lac cell, [])
  | .incomingCall type => onIncomingCall s type
  | .incomingClip number => onIncomingClip lookup s number
  | .callProgress type => onCallProgress today s type
  | .dial handle number => mokoDialerDial lookup today s handle number
  | .accept handle => onTalkingAcceptCall s handle
  | .reject handle => onTalkingRejectCall today s handle
  | .cancel handle => onTalkingCancelCall s handle

def dials (number : List Byte) : Bool :=
  handle && s.status = .normal && number ≠ IMEI_CODE && mayDial s number

def showsIncoming : Bool := s.status ≠ .incoming && s.status ≠ .talking

omit [Zero κ] in
theorem setStatus_fst (status : PhoneKitDialerStatus) :
    (setStatus s status).1 = { s with status := status } := by
  unfold setStatus
  split_ifs with hstatus
  · rfl
  · rw [← not_not.mp hstatus]

omit [Zero κ] in
theorem mokoDialerTalking_fst :
    (mokoDialerTalking s).1 = { s with status := .talking } := by
  unfold mokoDialerTalking
  split_ifs with hstatus
  · rw [← hstatus]
  · rfl

theorem mokoDialerDial_eq (number : List Byte) (today : τ) :
    (mokoDialerDial lookup today s handle number).1 =
      if dials s handle number then
        { s with
          status := .dialing
          entry :=
            if s.journal.isSome then some (outgoingEntry lookup today s number) else s.entry }
      else s := by
  unfold mokoDialerDial dials
  by_cases hhandle : handle = true <;> by_cases hstatus : s.status = .normal <;>
    by_cases hnumber : number = IMEI_CODE <;> by_cases hmay : mayDial s number = true <;>
    simp [hhandle, hstatus, hnumber, hmay]

theorem onIncomingCall_eq (type : ℤ) :
    (onIncomingCall s type).1 =
      if showsIncoming s then
        { s with
          status := .incoming
          incomingClip := none
          entry := if s.journal.isSome then some (incomingEntry s) else s.entry }
      else s := by
  unfold onIncomingCall showsIncoming
  by_cases hincoming : s.status = .incoming <;> by_cases htalking : s.status = .talking <;>
    simp [hincoming, htalking]

end Handlers

end Openmoko.Phonekit
