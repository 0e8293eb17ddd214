import Openmoko.Gsmd.Llparse
import Openmoko.Library.Machine

/-!
# The AT command queue of gsmd

`gsmd/atcmd.c`: commands wait in `pending_atcmds`, are written to the UART line by line, wait for
their answer in `busy_atcmds`, and are freed with a call of their callback. Every entry point is one
event of a machine. A submit made inside a callback or an unsolicited handler is a submit event
after the event that made it: such a submit only appends to the tail of the pending list, and what
wakes the writer is decided by the lists as they are when the handler has returned.

Pointers to commands and timers are allocation numbers, `cur` is an offset into `buf`, and values
that no caller looks at are not returned. An environment fixes what a run does not change. What an
unsolicited handler answers may depend on everything (it returns the number of clients served), so
it comes with the event.
-/

namespace Openmoko.Gsmd

def MLPARSE_BUF_SIZE : Nat := 65535

def GSMD_FLAG_V0 : Nat := 0x0001

def EAGAIN : Int := 11
def ENOENT : Int := 2

inductive CreateTimer where
  | discardTimer
  | aliveTimer
  deriving DecidableEq, Repr

structure GsmdTimer where
  addr : Nat
  func : CreateTimer
  deriving DecidableEq, Repr

structure GsmdAtcmd where
  addr : Nat
  ctx : Nat
  cb : Option Nat
  ret : Int
  buflen : Nat
  id : Nat
  flags : Nat
  timeout : Option GsmdTimer
  createTimerFunc : CreateTimer
  cur : Nat
  buf : List Byte
  deriving DecidableEq, Repr

namespace GsmdAtcmd

def text (cmd : GsmdAtcmd) : List Byte := cstr cmd.buf

def left (cmd : GsmdAtcmd) : List Byte := cstr (cmd.buf.drop cmd.cur)

def passed (cmd : GsmdAtcmd) : List Byte := cmd.buf.take cmd.cur

end GsmdAtcmd

/-- What `atcmd_fill` is called with. Callers that format into `buf` afterwards are described by the
text they leave there. -/
structure AtcmdFill where
  cmd : List Byte
  rlen : Nat
  cb : Option Nat
  ctx : Nat := 0
  id : Nat := 0
  ct : Option CreateTimer := none
  deriving DecidableEq, Repr

def atcmdFill (addr : Nat) (fill : AtcmdFill) : GsmdAtcmd :=
  let cmd := cstr fill.cmd
  let buflen := max cmd.length fill.rlen
  { addr := addr
    ctx := fill.ctx
    cb := fill.cb
    ret := -255
    buflen := buflen
    id := fill.id
    flags := 0
    timeout := none
    createTimerFunc := fill.ct.getD .discardTimer
    cur := 0
    buf := strncpy cmd (buflen - 1) ++ [NUL] }

/-- `mlbuf` split at `mlbuf_len`: what counts, and the bytes that are still in memory after it. -/
structure Mlbuf where
  used : List Byte
  rest : List Byte
  deriving DecidableEq, Repr

namespace Mlbuf

/-- `memset(g->mlbuf, 0, MLPARSE_BUF_SIZE); g->mlbuf_len = 0`. -/
def cleared : Mlbuf := { used := [], rest := List.replicate MLPARSE_BUF_SIZE NUL }

variable (mlbuf : Mlbuf)

/-- `g->mlbuf_len = 0` alone. -/
def discard : Mlbuf := { used := [], rest := mlbuf.used ++ mlbuf.rest }

/-- The buffer as a string: nothing ends it at `mlbuf_len`. -/
def text : List Byte := cstr (mlbuf.used ++ mlbuf.rest)

def store (buf : List Byte) : Mlbuf :=
  { used := buf, rest := (mlbuf.used ++ mlbuf.rest).drop buf.length }

def newline : Mlbuf :=
  if mlbuf.used = [] then mlbuf
  else { used := mlbuf.used ++ [LF], rest := mlbuf.rest.drop 1 }

def room (len : Nat) : Nat :=
  min len ((MLPARSE_BUF_SIZE + 0x100000000 - mlbuf.used.length) % 0x100000000)

def append (buf : List Byte) : Mlbuf :=
  let mlbuf := mlbuf.newline
  let line := buf.take (mlbuf.room buf.length)
  { used := mlbuf.used ++ line, rest := mlbuf.rest.drop line.length }

end Mlbuf

structure GsmdState where
  flags : Nat
  interpreterReady : Bool
  -- `gfd_uart.when & GSMD_FD_WRITE`
  whenWrite : Bool
  pendingAtcmds : List GsmdAtcmd
  busyAtcmds : List GsmdAtcmd
  mlbuf : Mlbuf
  mlunsolicited : Bool
  -- the next allocation
  next : Nat
  deriving DecidableEq, Repr

/-- What one run does not change: the vendor plugin and the table of unsolicited prefixes. No plugin
has a letter among its `ext_chars`. -/
structure GsmdEnv where
  platform : Platform
  extChars : List Byte
  extPlain : ∀ c ∈ extChars, isalpha c = false
  unsolicit : List (List Byte)
  deriving DecidableEq, Repr

def GsmdEnv.plain : GsmdEnv :=
  { platform := { charSigned := false, ulongMax := 0xffffffff }
    extChars := []
    extPlain := by simp
    unsolicit := [] }

abbrev UnsolicitParse := List Byte → List Byte → Int

/-- What is seen of the daemon: the traffic on the UART, the calls of callbacks and what becomes of
each command. -/
inductive GsmdObs where
  -- `write(fd, pos->cur, len)` sent these bytes, and then the CR or not
  | wrote (addr : Nat) (passed sent : List Byte) (cr : Bool)
  -- the command went to the tail of `busy_atcmds`
  | sentAll (addr : Nat)
  -- the modem asked for a new line of a multi-line command
  | prompt
  -- an information response, with the head of `busy_atcmds`
  | info (head : Option Nat) (buf : List Byte)
  -- a final result, with the head of `busy_atcmds`
  | final (head : Option Nat) (buf : List Byte)
  | errorEvent (number : Int)
  | callback (addr : Nat) (ret : Int) (resp : List Byte)
  | freed (addr : Nat)
  deriving DecidableEq, Repr

/-- `write` fails, or takes at most `room` bytes; and whether the CR after it is taken. -/
structure UartWrite where
  room : Option Nat
  cr : Bool := true
  deriving DecidableEq, Repr

inductive GsmdEvent where
  | atcmdSubmit (fill : AtcmdFill)
  | cancelAtcmd (fill : AtcmdFill)
  | mlParse (buf : List Byte) (parse : UnsolicitParse)
  | atcmdPrompt
  | uartWritable (uart : UartWrite)
  | timerExpired (tmr : GsmdTimer)

/-- `atcmd_init`, on zeroed memory. -/
def atcmdInit (flags : Nat) (interpreterReady : Bool) : GsmdState :=
  { flags := flags
    interpreterReady := interpreterReady
    whenWrite := false
    pendingAtcmds := []
    busyAtcmds := []
    mlbuf := .cleared
    mlunsolicited := false
    next := 0 }

variable (g : GsmdState)

def atcmdWakePendingQueue : GsmdState := { g with whenWrite := true }

def atcmdWaitPendingQueue : GsmdState := { g with whenWrite := false }

def passNextPending (busy : List GsmdAtcmd) : GsmdState :=
  let g := { g with busyAtcmds := busy }
  if busy = [] ∧ g.pendingAtcmds ≠ [] then atcmdWakePendingQueue g else g

def atcmdDone (cmd : GsmdAtcmd) (busy : List GsmdAtcmd) (buf : List Byte) :
    GsmdState × List GsmdObs :=
  let (g, obs) :=
    match cmd.cb with
    | none => (g, [])
    | some _ =>
      let resp := if g.mlbuf.used ≠ [] then cstr g.mlbuf.used else cstr buf
      ({ g with mlbuf := .cleared }, [GsmdObs.callback cmd.addr cmd.ret resp])
  (passNextPending g busy, obs ++ [.freed cmd.addr])

variable (env : GsmdEnv)

def unsolicitedParse (parse : UnsolicitParse) (buf : List Byte) : Int :=
  match env.unsolicit.find? (hasPrefix buf) with
  | some pre => parse pre buf
  | none => -ENOENT

inductive ErrorEvent where
  | cme
  | cms
  deriving DecidableEq, Repr

/-- Where the tests of `ml_parse` lead. -/
inductive MlLabel where
  -- the interpreter is ready
  | ready
  -- an echo, a malformed response or an unsolicited code whose handler is done with it
  | done
  -- an unsolicited code that needs one more line
  | multiline
  -- `goto final_cb`, with the new `cmd->ret` if it is set and the event to generate
  | finalCb (ret : Option Int) (event : Option ErrorEvent)
  -- an information response; `ofCmd` when it answers the command (case A)
  | info (ofCmd : Bool)
  deriving DecidableEq, Repr

def MlLabel.isFinal : MlLabel → Bool
  | .finalCb _ _ => true
  | _ => false

/-- The value `cmd->ret` gets from the number after the colon, an `unsigned long`. -/
def errorNumber (digits : List Byte) : Int :=
  Int.bmod (strtoul env.platform digits).1 0x100000000

/-- `buf[0] == '+' || strchr(ext_chars, buf[0])`, also asked of `cmd->buf[2]`. -/
def isExtended (c : Byte) : Bool := c == 43 || strchrFinds env.extChars c

def mlExtended (cmd : Option GsmdAtcmd) (buf : List Byte) (parse : UnsolicitParse) :
    MlLabel :=
  match strchr buf 58 with
  | none => .done
  | some colon =>
    if hasPrefix buf.tail (ascii "CME ERROR") then
      .finalCb (some (errorNumber env (buf.drop (colon + 1)))) (some .cme)
    else if hasPrefix buf.tail (ascii "CMS ERROR") then
      .finalCb (some (errorNumber env (buf.drop (colon + 1)))) (some .cms)
    else
      let answers := cmd.any fun cmd => strncmpEq buf (cstr (cmd.buf.drop 2)) colon
      let rc := unsolicitedParse env parse buf
      if !answers && rc == -EAGAIN then .multiline
      else if !answers && rc != -ENOENT then .done
      else
        match cmd with
        | none => .info false
        | some cmd => if isExtended env (cmd.buf.getD 2 NUL) then .info true else .done

/-- The tests of `ml_parse` on any other response; `v0` is `g->flags & GSMD_FLAG_V0`. -/
def mlPlain (v0 : Bool) (buf : List Byte) : MlLabel :=
  let first := buf.getD 0 NUL
  if buf == ascii "RING" || (v0 && first == 50) then .done
  else if buf == ascii "ERROR" || (v0 && first == 52) then .finalCb (some 4) none
  else if hasPrefix buf (ascii "OK") || (v0 && first == 48) then .finalCb (some 0) none
  else if hasPrefix buf (ascii "NO CARRIER") || (v0 && first == 51) then .finalCb none none
  else if hasPrefix buf (ascii "BUSY") || (v0 && first == 55) then .finalCb none none
  else .info false

def mlLabel (g : GsmdState) (buf : List Byte) (parse : UnsolicitParse) : MlLabel :=
  if buf = [] ∨ buf = ascii "AT-Command Interpreter ready" then .ready
  else if g.busyAtcmds.head?.any fun cmd => buf == cmd.text then .done
  else if isExtended env (buf.getD 0 NUL) then mlExtended env g.busyAtcmds.head? buf parse
  else mlPlain (g.flags &&& GSMD_FLAG_V0 != 0) buf

def mlFlush : GsmdState × List GsmdObs :=
  match g.busyAtcmds with
  | [] => (g, [])
  | cmd :: _ =>
    if g.mlbuf.used = [] then (g, [])
    else
      match cmd.cb with
      | none => ({ g with mlbuf := g.mlbuf.discard }, [])
      | some _ =>
        ({ g with mlbuf := .cleared }, [.callback cmd.addr cmd.ret g.mlbuf.text])

def mlAppend (g : GsmdState) (buf : List Byte) (parse : UnsolicitParse) : GsmdState :=
  let g := { g with mlbuf := g.mlbuf.append buf }
  if g.mlunsolicited ∧ unsolicitedParse env parse g.mlbuf.text ≠ -EAGAIN then
    { g with mlunsolicited := false, mlbuf := g.mlbuf.discard }
  else g

def mlFinal (buf : List Byte) (ret : Option Int) (event : Option ErrorEvent) :
    GsmdState × List GsmdObs :=
  match g.busyAtcmds with
  | [] => (g, [])
  | cmd :: busy =>
    let cmd := { cmd with ret := ret.getD cmd.ret }
    let events := if event.isSome then [GsmdObs.errorEvent cmd.ret] else []
    let (g, obs) := atcmdDone g cmd busy buf
    (g, events ++ obs)

def headAddr : Option Nat := g.busyAtcmds.head?.map GsmdAtcmd.addr

def mlParse (g : GsmdState) (buf : List Byte) (parse : UnsolicitParse) :
    GsmdState × List GsmdObs :=
  match mlLabel env g (cstr buf) parse with
  | .ready => ({ g with interpreterReady := true }, [])
  | .done => (g, [])
  | .multiline => ({ g with mlbuf := g.mlbuf.store buf, mlunsolicited := true }, [])
  | .finalCb ret event =>
    let (g', obs) := mlFinal g buf ret event
    (g', .final (headAddr g) buf :: obs)
  | .info ofCmd =>
    let (g', obs) := if ofCmd then mlFlush g else (g, [])
    (mlAppend env g' buf parse, obs ++ [.info (headAddr g) buf])

def atcmdPrompt : GsmdState × List GsmdObs := (atcmdWakePendingQueue g, [.prompt])

def uartLineLen (pos : GsmdAtcmd) : Nat := (strchr pos.left LF).getD (pos.buflen - 1)

/-- `rc` after `if (!cr || rc == len) rc++`. -/
def uartSkip (pos : GsmdAtcmd) (rc : Nat) : Nat :=
  if strchr pos.left LF = none ∨ rc = uartLineLen pos then rc + 1 else rc

def GsmdAtcmd.advance (pos : GsmdAtcmd) (rc : Nat) : GsmdAtcmd :=
  { pos with buflen := pos.buflen - rc, cur := pos.cur + rc }

def uartWritePending (uart : UartWrite) : GsmdState × List GsmdObs :=
  match g.pendingAtcmds with
  | [] => (atcmdWaitPendingQueue g, [])
  | pos :: pending =>
    match uart.room with
    | none => (g, [])
    | some room =>
      let len := uartLineLen pos
      let rc := min room len
      if rc = 0 then (atcmdWaitPendingQueue g, [])
      else
        let skip := uartSkip pos rc
        let sent := GsmdObs.wrote pos.addr pos.passed ((pos.buf.drop pos.cur).take rc) uart.cr
        let pos := pos.advance skip
        if pos.buflen = 0 then
          let tmr : GsmdTimer := { addr := g.next, func := pos.createTimerFunc }
          (atcmdWaitPendingQueue
            { g with
              pendingAtcmds := pending
              busyAtcmds := g.busyAtcmds ++ [{ pos with timeout := some tmr }]
              next := g.next + 1 }, [sent, .sentAll pos.addr])
        else if skip < len then
          ({ g with pendingAtcmds := pos :: pending }, [sent])
        else (atcmdWaitPendingQueue { g with pendingAtcmds := pos :: pending }, [sent])

def uartWritable (uart : UartWrite) : GsmdState × List GsmdObs :=
  if g.whenWrite && g.interpreterReady then uartWritePending g uart else (g, [])

def discardTimeout (tmr : GsmdTimer) : GsmdState × List GsmdObs :=
  match g.busyAtcmds with
  | [] => (g, [])
  | cmd :: busy =>
    if cmd.timeout ≠ some tmr then (g, [])
    else
      let obs := match cmd.cb with
        | none => []
        | some _ => [GsmdObs.callback cmd.addr cmd.ret (ascii "Timeout")]
      (passNextPending g busy, obs ++ [.freed cmd.addr])

def timerExpired (tmr : GsmdTimer) : GsmdState × List GsmdObs :=
  match tmr.func with
  | .discardTimer => discardTimeout g tmr
  | .aliveTimer => (g, [])

def atcmdSubmit (cmd : GsmdAtcmd) : GsmdState :=
  let g := { g with pendingAtcmds := g.pendingAtcmds ++ [cmd] }
  if g.busyAtcmds = [] then atcmdWakePendingQueue g else g

def cancelAtcmd (cmd : GsmdAtcmd) : GsmdState × List GsmdObs :=
  match g.busyAtcmds with
  | [] => (atcmdSubmit g cmd, [])
  | cur :: busy =>
    let mlbuf := if g.mlbuf.used ≠ [] then g.mlbuf.discard else g.mlbuf
    atcmdDone { g with mlbuf := mlbuf, pendingAtcmds := cmd :: g.pendingAtcmds } cur busy
      (ascii "ERROR")

def gsmdStep (env : GsmdEnv) (g : GsmdState) : GsmdEvent → GsmdState × List GsmdObs
  | .atcmdSubmit fill =>
    (atcmdSubmit { g with next := g.next + 1 } (atcmdFill g.next fill), [])
  | .cancelAtcmd fill => cancelAtcmd { g with next := g.next + 1 } (atcmdFill g.next fill)
  | .mlParse buf parse => mlParse env g buf parse
  | .atcmdPrompt => atcmdPrompt g
  | .uartWritable uart => uartWritable g uart
  | .timerExpired tmr => timerExpired g tmr

def gsmd : Machine GsmdState GsmdEvent GsmdObs := { step := gsmdStep env }

/-- The events of the daemon with the modem's bytes in place of its lines and prompts. The handlers
of the unsolicited codes answer the `n`-th call of a read with `parse n`. -/
inductive UartEvent where
  | atcmdSubmit (fill : AtcmdFill)
  | cancelAtcmd (fill : AtcmdFill)
  | uartReadable (chunk : List Byte) (parse : Nat → UnsolicitParse)
  | uartWritable (uart : UartWrite)
  | timerExpired (tmr : GsmdTimer)

def llpCallEvent (parse : UnsolicitParse) : LlpCall → GsmdEvent
  | .cb buf => .mlParse buf parse
  | .promptCb => .atcmdPrompt

def uartEvents (llp : Llparser) : List UartEvent → List GsmdEvent
  | [] => []
  | .atcmdSubmit fill :: events => .atcmdSubmit fill :: uartEvents llp events
  | .cancelAtcmd fill :: events => .cancelAtcmd fill :: uartEvents llp events
  | .uartReadable chunk parse :: events =>
    let (llp, _, calls) := llparseString llp chunk
    calls.mapIdx (fun n => llpCallEvent (parse n)) ++ uartEvents llp events
  | .uartWritable uart :: events => .uartWritable uart :: uartEvents llp events
  | .timerExpired tmr :: events => .timerExpired tmr :: uartEvents llp events

end Openmoko.Gsmd
