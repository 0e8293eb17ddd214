import Openmoko.Gsmd.Atcmd

/-!
# The daemon and a modem that answers

A modem that answers every complete command line it receives, in order, with one final result; the
line of a command that goes on after a `> ` prompt is answered by the prompt or by an error. What it
owes is a queue with one entry for each CR the daemon has put on the UART. Between its answers it
may report anything: information responses and unsolicited codes.
-/

namespace Openmoko.Gsmd

/-- A final result line; the digits are those of the error number. -/
inductive FinalResult where
  | ok
  | error
  | cmeError (digits : List (Fin 10))
  | cmsError (digits : List (Fin 10))
  | noCarrier
  | busy
  deriving DecidableEq, Repr

def digitBytes (digits : List (Fin 10)) : List Byte := digits.map fun d => UInt8.ofNat (48 + d.val)

namespace FinalResult

def text : FinalResult → List Byte
  | ok => ascii "OK"
  | error => ascii "ERROR"
  | cmeError digits => ascii "+CME ERROR: " ++ digitBytes digits
  | cmsError digits => ascii "+CMS ERROR: " ++ digitBytes digits
  | noCarrier => ascii "NO CARRIER"
  | busy => ascii "BUSY"

def isError : FinalResult → Bool
  | error | cmeError _ | cmsError _ => true
  | ok | noCarrier | busy => false

end FinalResult

/-- An answer the modem owes: the command that wrote the line, and whether the line is one that is
to be continued. -/
structure Owed where
  addr : Nat
  continued : Bool
  deriving DecidableEq, Repr

structure Link where
  g : GsmdState
  owed : List Owed
  deriving DecidableEq, Repr

inductive LinkEvent where
  | atcmdSubmit (fill : AtcmdFill)
  | cancelAtcmd (fill : AtcmdFill)
  | uartWritable (uart : UartWrite)
  -- the modem answers what it owes first
  | answer (result : FinalResult) (parse : UnsolicitParse)
  | answerPrompt
  -- the modem sends a line that answers nothing
  | report (buf : List Byte) (parse : UnsolicitParse)

inductive LinkObs where
  | gsmd (o : GsmdObs)
  -- the modem answered a line of this command
  | answered (addr : Nat) (text : List Byte)
  deriving DecidableEq, Repr

def goesOn (g : GsmdState) (addr : Nat) : Bool :=
  g.pendingAtcmds.head?.any fun pos => pos.addr == addr && pos.passed.getLast? == some LF

def owedFor (g : GsmdState) : GsmdObs → List Owed
  | .wrote addr _ sent cr =>
    List.replicate (sent.count CR) { addr := addr, continued := false } ++
      if cr then [{ addr := addr, continued := goesOn g addr }] else []
  | _ => []

def mayAnswer (owed : Owed) (result : FinalResult) : Bool := !owed.continued || result.isError

def linkStep (env : GsmdEnv) (link : Link) : LinkEvent → Link × List LinkObs
  | .atcmdSubmit fill =>
    let (g, obs) := gsmdStep env link.g (.atcmdSubmit fill)
    ({ link with g := g }, obs.map .gsmd)
  | .cancelAtcmd fill =>
    let (g, obs) := gsmdStep env link.g (.cancelAtcmd fill)
    ({ link with g := g }, obs.map .gsmd)
  | .uartWritable uart =>
    let (g, obs) := gsmdStep env link.g (.uartWritable uart)
    ({ g := g, owed := link.owed ++ obs.flatMap (owedFor g) }, obs.map .gsmd)
  | .answer result parse =>
    match link.owed with
    | [] => (link, [])
    | first :: owed =>
      if mayAnswer first result then
        let (g, obs) := gsmdStep env link.g (.mlParse result.text parse)
        ({ g := g, owed := owed }, .answered first.addr result.text :: obs.map .gsmd)
      else (link, [])
  | .answerPrompt =>
    match link.owed with
    | [] => (link, [])
    | first :: owed =>
      if first.continued then
        let (g, obs) := gsmdStep env link.g .atcmdPrompt
        ({ g := g, owed := owed }, obs.map .gsmd)
      else (link, [])
  | .report buf parse =>
    let (g, obs) := gsmdStep env link.g (.mlParse buf parse)
    ({ link with g := g }, obs.map .gsmd)

def link (env : GsmdEnv) : Machine Link LinkEvent LinkObs := { step := linkStep env }

def linkInit (flags : Nat) (ready : Bool) : Link := { g := atcmdInit flags ready, owed := [] }

end Openmoko.Gsmd
