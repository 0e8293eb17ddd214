import Openmoko.Gsmd.Usock
import Openmoko.Library.Machine

/-!
# Client socket, send side (`usock.c`, `unsolicited.c`)

What the daemon has to tell a client waits in `finished_ucmds` of that client and is written to its
socket when `select` reports that there is room. An event goes to every client that has subscribed
to it.
-/

namespace Openmoko.Gsmd

/-- A block from `ucmd_alloc`, as bytes: the `struct llist_head`, whose pointers are of any size, and
what starts at `hdr`. -/
structure GsmdUcmd where
  list : List Byte
  mem : List Byte
  deriving DecidableEq, Repr

namespace GsmdUcmd

variable (ucmd : GsmdUcmd)

def hdrLen : ℕ :=
  (ucmd.mem.getD 6 0).toNat + 256 * (ucmd.mem.getD 7 0).toNat

/-- `sizeof(ucmd->hdr) + ucmd->hdr.len`. -/
def size : ℕ := MSG_HDR_SIZE + ucmd.hdrLen

/-- The header and `hdr.len` bytes. -/
def wire : List Byte := ucmd.mem.take ucmd.size

def Whole : Prop := ucmd.size ≤ ucmd.mem.length

instance (ucmd : GsmdUcmd) : Decidable ucmd.Whole := inferInstanceAs (Decidable (_ ≤ _))

end GsmdUcmd

structure GsmdUser where
  finishedUcmds : List GsmdUcmd
  -- `gfd.when & GSMD_FD_WRITE`
  whenWrite : Bool
  subscriptions : BitVec 32
  deriving DecidableEq, Repr

/-- `gsmd_usock_cb` on a new connection. -/
def newUser : GsmdUser :=
  { finishedUcmds := []
    whenWrite := false
    subscriptions := 0xffffffff#32 }

def usockCmdEnqueue (ucmd : GsmdUcmd) (gu : GsmdUser) : GsmdUser :=
  { gu with finishedUcmds := gu.finishedUcmds ++ [ucmd], whenWrite := true }

/-- `write` fails, with `EAGAIN` or for good, or takes at most `room` bytes. -/
inductive WriteResult where
  | failed (rc : Int)
  | taken (room : ℕ)
  deriving DecidableEq, Repr

inductive UserObs where
  | queued (ucmd : GsmdUcmd)
  -- what the client receives
  | sent (bytes : List Byte)
  -- `llist_del` and `talloc_free`
  | freed (ucmd : GsmdUcmd)
  deriving DecidableEq, Repr

/-- The loop over `finished_ucmds`; `writes` answers the calls of `write` one after the other. Given
back are what is left of the list and whether the function returned from inside the loop. -/
def writeFinished : List GsmdUcmd → (ℕ → WriteResult) → (List GsmdUcmd × Bool) × List UserObs
  | [], _ => (([], false), [])
  | ucmd :: ucmds, writes =>
    match writes 0 with
    | .failed _ => ((ucmd :: ucmds, true), [])
    | .taken room =>
      let rc := min room ucmd.size
      if rc = 0 then ((ucmd :: ucmds, false), [])
      else if rc ≠ ucmd.size then ((ucmd :: ucmds, false), [.sent (ucmd.wire.take rc)])
      else
        let (left, obs) := writeFinished ucmds fun n => writes (n + 1)
        (left, .sent (ucmd.wire.take rc) :: .freed ucmd :: obs)

def userCbWrite (gu : GsmdUser) (writes : ℕ → WriteResult) : GsmdUser × List UserObs :=
  if gu.whenWrite then
    let ((left, returned), obs) := writeFinished gu.finishedUcmds writes
    let when_ := if !returned && left.isEmpty then false else gu.whenWrite
    ({ gu with finishedUcmds := left, whenWrite := when_ }, obs)
  else (gu, [])

inductive UserEvent where
  | enqueue (ucmd : GsmdUcmd) (whole : ucmd.Whole)
  | writable (writes : ℕ → WriteResult)

def userStep (gu : GsmdUser) : UserEvent → GsmdUser × List UserObs
  | .enqueue ucmd _ => (usockCmdEnqueue ucmd gu, [.queued ucmd])
  | .writable writes => userCbWrite gu writes

def userSock : Machine GsmdUser UserEvent UserObs := { step := userStep }

/-- What `talloc_size` gives: nothing, or a block with whatever was in it before. -/
abbrev Fresh := Option (ℕ → Byte)

def memcpy (dest src : List Byte) (n : ℕ) : List Byte := src.take n ++ dest.drop n

def ucmdCopy (fresh : Fresh) (orig : GsmdUcmd) : Option GsmdUcmd :=
  fresh.map fun contents =>
    let block := (List.range (orig.list.length + MSG_HDR_SIZE + orig.hdrLen)).map contents
    let copy := memcpy block (orig.list ++ orig.mem) orig.hdrLen
    { list := copy.take orig.list.length, mem := copy.drop orig.list.length }

def subscribed (gu : GsmdUser) (evt : ℕ) : Bool := gu.subscriptions &&& (1#32 <<< evt) ≠ 0#32

/-- The loop of `usock_evt_send`, with `num_sent` so far. The copy for the `n`-th client is made in
`fresh n`. -/
def evtSendLoop (fresh : ℕ → Fresh) (ucmd : GsmdUcmd) (evt : ℕ) :
    ℕ → List GsmdUser → List GsmdUser × ℕ
  | numSent, [] => ([], numSent)
  | numSent, gu :: users =>
    if subscribed gu evt then
      if numSent = 0 then
        let (users, sent) := evtSendLoop fresh ucmd evt (numSent + 1) users
        (usockCmdEnqueue ucmd gu :: users, sent)
      else
        match ucmdCopy (fresh numSent) ucmd with
        | none => (gu :: users, numSent)
        | some cpy =>
          let (users, sent) := evtSendLoop fresh ucmd evt (numSent + 1) users
          (usockCmdEnqueue cpy gu :: users, sent)
    else
      let (users, sent) := evtSendLoop fresh ucmd evt numSent users
      (gu :: users, sent)

def usockEvtSend (fresh : ℕ → Fresh) (users : List GsmdUser) (ucmd : GsmdUcmd) (evt : ℕ) :
    List GsmdUser × ℕ :=
  evtSendLoop fresh ucmd evt 0 users

end Openmoko.Gsmd
