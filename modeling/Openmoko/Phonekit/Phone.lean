import Openmoko.Phonekit.Dialer

/-!
# Incoming calls, from the modem to the dialer

gsmd and the dialer tell each other what happens over a socket, and gsmd and the modem over a serial
line, so that each of them acts on what may be over already.
-/

namespace Openmoko.Phonekit

open Gsmd Mokojournal

/-- The two programs, what is on its way between them and to the modem, and the calls. -/
structure Phone (κ τ : Type) where
  gsmd : RingState
  -- events of gsmd, with the calls that they are about
  events : List (DialerEvent × ℕ)
  commands : List VoicecallMsg
  -- what the modem has to answer yet, and whether to `usock_ringing_cb`
  callbacks : List Bool
  dialer : MokoDialer κ τ
  -- the call that has brought the dialer from `NORMAL`
  current : Option ℕ
  answered : List ℕ
  ended : List ℕ
  deriving DecidableEq, Repr

def phoneStart {κ τ : Type} (journal : Option (List (MokoJournalEntry κ τ))) : Phone κ τ :=
  { gsmd := { ringing := none, ringCheck := false }, events := [], commands := [], callbacks := [],
    dialer := mokoDialerInit journal, current := none, answered := [], ended := [] }

inductive UserAction where
  | dial (handle : Bool) (number : List Byte)
  | accept (handle : Bool)
  | reject (handle : Bool)
  | cancel (handle : Bool)
  deriving DecidableEq, Repr

def UserAction.event : UserAction → DialerEvent
  | .dial handle number => .dial handle number
  | .accept handle => .accept handle
  | .reject handle => .reject handle
  | .cancel handle => .cancel handle

inductive PhoneEvent (τ : Type) where
  -- lines of the modem, with the calls that they are about
  | ring (call : ℕ)
  | cring (param : List Byte) (call : ℕ)
  | clip (number : List Byte) (call : ℕ)
  | cpi (type : ℤ) (call : ℕ)
  | creg (type lac cell : ℤ)
  | ringTimer
  -- gsmd reads the next command of the dialer
  | rcvCommand
  -- the modem answers any of the commands
  | cmdAnswered (i : ℕ) (ret : ℤ)
  -- the dialer reads the next event of gsmd
  | deliver (today : τ)
  -- the call is the one that is dialed
  | user (action : UserAction) (call : ℕ) (today : τ)
  deriving DecidableEq, Repr

section Phone

variable {κ τ : Type}

variable (s : Phone κ τ)

def Phone.send (event : DialerEvent) (call : ℕ) : Phone κ τ :=
  { s with events := s.events ++ [(event, call)] }

def gsmdStep (s : Phone κ τ) : PhoneEvent τ → Phone κ τ
  | .ring call =>
    let (gsmd, type) := ringParse call
    { s with gsmd := gsmd }.send (.incomingCall type) call
  | .cring param call =>
    match cringParse param with
    | some type => s.send (.incomingCall type) call
    | none => s
  | .clip number call => s.send (.incomingClip number) call
  | .cpi type call => s.send (.callProgress type) call
  -- this is about no call
  | .creg type lac cell => s.send (.networkRegistered type lac cell) 0
  | .ringTimer =>
    if s.gsmd.ringCheck then
      let (gsmd, event) := stateRingingTimeout s.gsmd
      match event with
      | some (type, call) => { s with gsmd := gsmd }.send (.incomingCall type) call
      | none => { s with gsmd := gsmd }
    else s
  | .rcvCommand =>
    match s.commands with
    | msg :: commands =>
      { s with
        commands := commands
        callbacks := s.callbacks ++ [usockRcvVoicecall s.gsmd msg] }
    | [] => s
  | .cmdAnswered i ret =>
    match s.callbacks[i]? with
    | some callback =>
      { s with
        gsmd := if callback then usockRingingCb s.gsmd ret else s.gsmd
        callbacks := s.callbacks.eraseIdx i }
    | none => s
  | .deliver _ | .user _ _ _ => s

def voicecallMsg : DialerObs → Option VoicecallMsg
  | .voiceOutInit _ _ => some .dial
  | .voiceHangup => some .hangup
  | .voiceInAccept => some .answer
  | _ => none

def Phone.currentAfter (e : CallEvent τ) (status : PhoneKitDialerStatus) :
    Option ℕ :=
  if status = .normal then none
  else if status = s.dialer.status then s.current
  else
    match e.event with
    | .dial _ _ | .callProgress _ => some e.call
    | .incomingCall type => if type = GSMD_CALL_TIMEOUT then s.current else some e.call
    | _ => s.current

def Phone.answeredBy (e : CallEvent τ) (status : PhoneKitDialerStatus) : List ℕ :=
  match e.event with
  | .callProgress type => if type = GSMD_CALLPROG_CONNECTED then [e.call] else []
  | .accept _ => if status = s.dialer.status then [] else s.current.toList
  | _ => []

def Phone.endedBy (e : CallEvent τ) (status : PhoneKitDialerStatus) : List ℕ :=
  let hungUp := if status = .normal then s.current.toList else []
  match e.event with
  | .callProgress type =>
    if type = GSMD_CALLPROG_RELEASE ∨ type = GSMD_CALLPROG_REJECT then hungUp ++ [e.call]
    else hungUp
  | _ => hungUp

variable [Zero κ] (lookup : List Byte → Option (Option (List Byte)))

def Phone.act (s : Phone κ τ) (e : CallEvent τ) : Phone κ τ × List DialerObs :=
  let (dialer, obs) := dialerStep lookup e.today s.dialer e.event
  ({ s with
      dialer := dialer
      commands := s.commands ++ obs.filterMap voicecallMsg
      current := s.currentAfter e dialer.status
      answered := s.answered ++ s.answeredBy e dialer.status
      ended := s.ended ++ s.endedBy e dialer.status }, obs)

omit [Zero κ] in
def dialerInput (s : Phone κ τ) : PhoneEvent τ → Option (Phone κ τ × CallEvent τ)
  | .deliver today =>
    match s.events with
    | (event, call) :: events =>
      some ({ s with events := events }, { event := event, call := call, today := today })
    | [] => none
  | .user action call today => some (s, { event := action.event, call := call, today := today })
  | _ => none

def phoneStep (s : Phone κ τ) (e : PhoneEvent τ) : Phone κ τ × List DialerObs :=
  match dialerInput s e with
  | some (s', input) => s'.act lookup input
  | none => (gsmdStep s e, [])

def phone : Machine (Phone κ τ) (PhoneEvent τ) DialerObs :=
  { step := phoneStep lookup }

end Phone

end Openmoko.Phonekit
