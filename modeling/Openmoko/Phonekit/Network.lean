import Mathlib.Data.Int.Notation
import Mathlib.Logic.Function.Basic
import Openmoko.Library.CString
import Openmoko.Library.Machine

/-!
# Network registration (`moko-network.c`)

What phone-kit does about the network while it is registered, and while it is not. What the network
and the SIM say about themselves is asked for again every minute until there is an answer, and so is
the registration. The timers for that are sources of the GLib main loop.
-/

namespace Openmoko.Phonekit

def GSMD_NETREG_UNREG : ℤ := 0
def GSMD_NETREG_REG_HOME : ℤ := 1
def GSMD_NETREG_UNREG_BUSY : ℤ := 2
def GSMD_NETREG_DENIED : ℤ := 3
def GSMD_NETREG_REG_ROAMING : ℤ := 5

def RETRY_MAX : ℤ := 5

inductive Retry where
  | oper
  | opern
  | imsi
  | register
  deriving DecidableEq, Repr

/-- The ids `retry_oper` and so on, the counters `retry_oper_n` and so on, and the main loop. -/
structure RetryTimers where
  retry : Retry → ℕ
  retryN : Retry → ℤ
  -- the timers that are alive, with their callbacks
  sources : List (ℕ × Retry)
  nextId : ℕ
  -- calls of `g_source_remove` with an id that no source has
  criticals : ℕ

variable (t : RetryTimers)

def gTimeoutAdd (r : Retry) : RetryTimers :=
  { t with
    retry := Function.update t.retry r t.nextId
    sources := t.sources ++ [(t.nextId, r)]
    nextId := t.nextId + 1 }

def gSourceRemove (id : ℕ) : RetryTimers :=
  if id ∈ t.sources.map Prod.fst then { t with sources := t.sources.filter (·.1 ≠ id) }
  else { t with criticals := t.criticals + 1 }

def stopRetry (r : Retry) : RetryTimers :=
  if t.retry r ≠ 0 then
    let t' := gSourceRemove t (t.retry r)
    { t' with retry := Function.update t'.retry r 0 }
  else t

def stopRetrying : RetryTimers :=
  stopRetry (stopRetry (stopRetry t .oper) .opern) .imsi

def stopRetryReset (r : Retry) : RetryTimers :=
  if t.retry r ≠ 0 then
    let t' := stopRetry t r
    { t' with retryN := Function.update t'.retryN r RETRY_MAX }
  else t

def stopRetryingRegistration : RetryTimers := stopRetryReset t .register

def startRetry (r : Retry) : RetryTimers :=
  if t.retryN r ≠ 0 then gTimeoutAdd t r else t

def retryCallback (id : ℕ) (r : Retry) : RetryTimers :=
  let t' := { t with retryN := Function.update t.retryN r (t.retryN r - 1) }
  if t'.retryN r ≠ 0 then t' else { t' with sources := t'.sources.filter (·.1 ≠ id) }

structure Network where
  timers : RetryTimers
  registered : ℤ
  lac : ℤ
  networkName : Option (List Byte)
  networkNumber : Option (List Byte)
  imsi : Option (List Byte)

/-- The network as `moko_network_init` leaves it, in a main loop whose next source has this id. -/
def networkInit (nextId : ℕ) : Network :=
  { timers :=
      { retry := fun _ => 0, retryN := fun _ => RETRY_MAX, sources := [], nextId := nextId,
        criticals := 0 }
    registered := GSMD_NETREG_UNREG
    lac := 0
    networkName := none
    networkNumber := none
    imsi := none }

inductive NetworkEvent where
  | registered (type lac : ℤ)
  | networkName (oper : List Byte)
  | networkNumber (oper : List Byte)
  | imsi (imsi : List Byte)
  -- a minute after the last time
  | timeout (id : ℕ)

inductive NetworkObs where
  -- requests to gsmd
  | operGet
  | operNGet
  | getImsi
  | netregRegister
  | getSubscriberNum
  -- signals
  | statusChanged (registered : ℤ)
  | providerChanged (name : Option (List Byte))
  deriving DecidableEq, Repr

def onNetworkName (s : Network) (name : Option (List Byte)) : Network × List NetworkObs :=
  if name = none ∧ s.networkName = none then (s, [])
  else
    let name := name.filter (· ≠ [])
    ({ s with networkName := name }, [.providerChanged name])

def registeredSwitch (s : Network) (type lac : ℤ) : Network × List NetworkObs :=
  if type = GSMD_NETREG_UNREG then
    let retries := s.registered ≠ type ∧ s.timers.retry .register = 0
    let timers := if retries then gTimeoutAdd s.timers .register else s.timers
    -- falls through to the case of `GSMD_NETREG_UNREG_BUSY`
    ({ s with lac := 0, timers := stopRetrying timers },
      if retries then [.netregRegister] else [])
  else if type = GSMD_NETREG_UNREG_BUSY then
    ({ s with lac := 0, timers := stopRetrying s.timers }, [])
  else if type = GSMD_NETREG_DENIED then ({ s with timers := stopRetrying s.timers }, [])
  else if type = GSMD_NETREG_REG_HOME ∨ type = GSMD_NETREG_REG_ROAMING then
    let timers := stopRetryingRegistration s.timers
    if s.registered ≠ type ∨ s.lac ≠ lac then
      let timers := startRetry (startRetry (stopRetrying timers) .oper) .imsi
      if type = GSMD_NETREG_REG_ROAMING then
        ({ s with lac := lac, timers := startRetry timers .opern },
          [.operGet, .getImsi, .operNGet])
      else ({ s with lac := lac, timers := timers }, [.operGet, .getImsi])
    else ({ s with timers := timers }, [])
  else (s, [])

def onNetworkRegistered (s : Network) (type lac : ℤ) : Network × List NetworkObs :=
  let (s', obs) := registeredSwitch s type lac
  if s'.registered ≠ type then
    let changed := { s' with registered := type }
    if type ≠ GSMD_NETREG_REG_HOME ∧ type ≠ GSMD_NETREG_REG_ROAMING ∧ type ≠ GSMD_NETREG_UNREG then
      let (unnamed, obs') := onNetworkName changed none
      (unnamed, obs ++ .statusChanged type :: obs')
    else (changed, obs ++ [.statusChanged type])
  else (s', obs)

def retryRequest : Retry → NetworkObs
  | .oper => .operGet
  | .opern => .operNGet
  | .imsi => .getImsi
  | .register => .netregRegister

def onTimeout (s : Network) (id : ℕ) : Network × List NetworkObs :=
  match s.timers.sources.find? (·.1 = id) with
  | some (_, r) => ({ s with timers := retryCallback s.timers id r }, [retryRequest r])
  | none => (s, [])

def networkStep (s : Network) : NetworkEvent → Network × List NetworkObs
  | .registered type lac => onNetworkRegistered s type lac
  -- `net_msghandler`
  | .networkName oper =>
    onNetworkName { s with timers := stopRetryReset s.timers .oper } (some oper)
  | .networkNumber oper =>
    ({ s with timers := stopRetryReset s.timers .opern, networkNumber := some oper }, [])
  -- `phone_msghandler`
  | .imsi imsi =>
    ({ s with timers := stopRetryReset s.timers .imsi, imsi := some imsi }, [.getSubscriberNum])
  | .timeout id => onTimeout s id

def network : Machine Network NetworkEvent NetworkObs := { step := networkStep }

end Openmoko.Phonekit
