import Mathlib.Data.Int.Notation
import Openmoko.Library.Machine

/-!
# Timers (`timer.c`)

One interval timer of the kernel wakes the daemon up for the earliest of its own. The callbacks of
timers that have expired are called from a loop over the list of timers, and may themselves register
and unregister: so the loop is taken turn by turn, and what a callback does comes as events after the
turn that called it. Time is what `gettimeofday` gives, in microseconds; it passes between any two
readings.
-/

namespace Openmoko.Gsmd.Timers

/-- `struct timeval`. -/
structure Timeval where
  tvSec : ℤ
  tvUsec : ℤ
  deriving DecidableEq, Repr

def Timeval.micros (tv : Timeval) : ℤ := tv.tvSec * 1000000 + tv.tvUsec

def gettimeofday (clock : ℕ) : Timeval :=
  { tvSec := (clock / 1000000 : ℕ), tvUsec := (clock % 1000000 : ℕ) }

def tvBorrow (sec usec : ℤ) : Timeval :=
  if usec < 0 then tvBorrow (sec - 1) (usec + 1000000) else { tvSec := sec, tvUsec := usec }
termination_by (-usec).toNat
decreasing_by omega

def tvSub (from_ sub : Timeval) : Timeval :=
  tvBorrow (from_.tvSec - sub.tvSec) (from_.tvUsec - sub.tvUsec)

def tvLater (expires now : Timeval) : Bool :=
  if expires.tvSec < now.tvSec then false
  else if expires.tvSec > now.tvSec then true
  else expires.tvUsec ≥ now.tvUsec

def tvSmaller (t1 t2 : Timeval) : Bool := tvLater t2 t1

/-- `struct gsmd_timer` while it is in the list; each time it is registered it gets a new number. -/
structure Timer where
  reg : ℕ
  expires : Timeval
  deriving DecidableEq, Repr

def minExpires (first : Timer) (timers : List Timer) : Timeval :=
  (first :: timers).foldl (fun min cur => if tvSmaller cur.expires min then cur.expires else min)
    first.expires

def calcNextExpiration (now : Timeval) : List Timer → Option Timeval
  | [] => none
  | first :: timers => some (tvSub (minExpires first timers) now)

/-- `gsmd_timer_check_n_run` is running. -/
structure CheckNRun where
  now : Timeval
  -- the timer that is next; `none` at the end of the list
  cur2 : Option ℕ
  deriving DecidableEq, Repr

structure TimerState where
  clock : ℕ
  timers : List Timer
  run : Option CheckNRun
  -- the number for the next registration
  next : ℕ
  -- a pointer of a deleted list entry was followed
  crashed : Bool
  deriving DecidableEq, Repr

def timerInit (clock : ℕ) : TimerState :=
  { clock := clock, timers := [], run := none, next := 0, crashed := false }

inductive TimerEvent where
  -- the times that pass before the two readings of the clock
  | register (timeout : Timeval) (hsec : 0 ≤ timeout.tvSec) (wait wait' : ℕ)
  | unregister (reg : ℕ) (wait : ℕ)
  | checkNRun (wait : ℕ)
  -- one turn of its loop
  | turn
  -- after the loop
  | finish (wait : ℕ)

inductive TimerObs where
  -- with the register time plus the timeout, in microseconds
  | registered (reg : ℕ) (expiry : ℤ)
  | unregistered (reg : ℕ)
  | called (reg : ℕ) (now : ℤ)
  -- `gsmd_timer_check_n_run` is done
  | ran (now : ℤ)
  -- `calc_next_expiration`: the time, the list, and what goes to `setitimer`
  | nextExpiration (now : ℕ) (pending : List Timer) (value : Option Timeval)
  deriving DecidableEq, Repr

def recalc (s : TimerState) (timers : List Timer) (clock : ℕ) : TimerState × TimerObs :=
  ({ s with timers := timers, clock := clock },
    .nextExpiration clock timers (calcNextExpiration (gettimeofday clock) timers))

def gsmdTimerRegister (s : TimerState) (timeout : Timeval) (wait wait' : ℕ) :
    TimerState × List TimerObs :=
  let tv := gettimeofday (s.clock + wait)
  let expires := { tvSec := timeout.tvSec + tv.tvSec, tvUsec := timeout.tvUsec + tv.tvUsec }
  let timers := s.timers ++ [{ reg := s.next, expires := expires }]
  let (s', next) := recalc { s with next := s.next + 1 } timers (s.clock + wait + wait')
  (s', [.registered s.next ((s.clock + wait : ℕ) + timeout.micros), next])

def without (timers : List Timer) (reg : ℕ) : List Timer := timers.filter fun t => t.reg ≠ reg

def gsmdTimerUnregister (s : TimerState) (reg wait : ℕ) : TimerState × List TimerObs :=
  if reg ∈ s.timers.map Timer.reg then
    let (s', next) := recalc s (without s.timers reg) (s.clock + wait)
    (s', [.unregistered reg, next])
  else ({ s with crashed := true }, [])

def fromReg (timers : List Timer) (reg : ℕ) : List Timer := timers.dropWhile fun t => t.reg ≠ reg

def runTurn (s : TimerState) (now : Timeval) (reg : ℕ) : TimerState × List TimerObs :=
  match fromReg s.timers reg with
  | [] => ({ s with crashed := true }, [])
  | cur :: rest =>
    let run := some { now := now, cur2 := rest.head?.map Timer.reg }
    if tvLater now cur.expires then
      ({ s with timers := without s.timers reg, run := run }, [.called reg now.micros])
    else ({ s with run := run }, [])

def timerStep (s : TimerState) : TimerEvent → TimerState × List TimerObs
  | .register timeout _ wait wait' =>
    if s.crashed then (s, []) else gsmdTimerRegister s timeout wait wait'
  | .unregister reg wait =>
    if s.crashed then (s, []) else gsmdTimerUnregister s reg wait
  | .checkNRun wait =>
    if s.crashed || s.run.isSome then (s, [])
    else
      ({ s with
          clock := s.clock + wait
          run := some
            { now := gettimeofday (s.clock + wait), cur2 := s.timers.head?.map Timer.reg } }, [])
  | .turn =>
    match s.crashed, s.run with
    | false, some ⟨now, some reg⟩ => runTurn s now reg
    | _, _ => (s, [])
  | .finish wait =>
    match s.crashed, s.run with
    | false, some ⟨now, none⟩ =>
      let (s', next) := recalc { s with run := none } s.timers (s.clock + wait)
      (s', [.ran now.micros, next])
    | _, _ => (s, [])

def gsmdTimers : Machine TimerState TimerEvent TimerObs := { step := timerStep }

end Openmoko.Gsmd.Timers
