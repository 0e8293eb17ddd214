import Openmoko.Gsmd.Usock
import Openmoko.Library.Machine

/-!
# Messages from the daemon (`libgsmd.c`)

A program reads the socket of the daemon in its own loop and passes each read on to
`lgsm_handle_packet`, or it waits inside the library for the answer to a request. Both take a read
to be a number of whole messages.
-/

namespace Openmoko.Libgsmd

open Openmoko.Gsmd

/-- The registered handlers, and what each returns for a message. -/
structure LgsmHandle (H : Type) where
  handler : ℕ → Option H
  call : H → List Byte → BitVec 32

/-- Where a message of the daemon goes. -/
inductive Delivery (H : Type) where
  -- `handler(lh, gmh)`: the handler, and the header with its payload
  | handled (handler : H) (gmh : List Byte)
  -- no handler is registered for the type
  | unable (gmh : List Byte)
  -- what `lgsm_blocking_wait_packet` gives to its caller
  | returned (gmh : List Byte)
  deriving DecidableEq, Repr

variable {H : Type}

def gmhLen (buf : List Byte) : ℕ := (buf.getD 6 0).toNat + 256 * (buf.getD 7 0).toNat

def gmhMsgType (buf : List Byte) : ℕ := (buf.getD 1 0).toNat

def einval : BitVec 32 := BitVec.ofInt 32 (-EINVAL)

variable (lh : LgsmHandle H)

def dispatch (gmh : List Byte) : Delivery H :=
  match lh.handler (gmhMsgType gmh) with
  | some handler => .handled handler gmh
  | none => .unable gmh

def handlerRc (gmh : List Byte) : BitVec 32 :=
  match lh.handler (gmhMsgType gmh) with
  | some handler => lh.call handler gmh
  | none => 0

def handlePacketLoop (lh : LgsmHandle H) (rc : BitVec 32) (buf : List Byte) :
    List (Delivery H) × BitVec 32 :=
  if buf = [] then ([], rc)
  else if buf.length < MSG_HDR_SIZE then ([], einval)
  else if buf.length - MSG_HDR_SIZE < gmhLen buf then ([], einval)
  else if NUM_GSMD_MSGS ≤ gmhMsgType buf then ([], einval)
  else
    let gmh := buf.take (MSG_HDR_SIZE + gmhLen buf)
    let (log, rc) :=
      handlePacketLoop lh (rc ||| handlerRc lh gmh) (buf.drop (MSG_HDR_SIZE + gmhLen buf))
    (dispatch lh gmh :: log, rc)
termination_by buf.length
decreasing_by
  rw [List.length_drop]
  have hpos : 0 < MSG_HDR_SIZE := by decide
  omega

def lgsmHandlePacket (buf : List Byte) : List (Delivery H) × BitVec 32 :=
  handlePacketLoop lh 0 buf

/-- A read from the socket, and what the buffer behind it held before. -/
structure SocketRead where
  stale : ℕ → Byte
  bytes : List Byte
  nonempty : bytes ≠ []

/-- `gmh->id`, read from the buffer. -/
def SocketRead.id (read : SocketRead) : ℕ :=
  (readInto read.stale read.bytes 4).toNat + 256 * (readInto read.stale read.bytes 5).toNat

inductive ClientEvent where
  -- the program calls `lgsm_blocking_wait_packet`
  | waitPacket (id : ℕ)
  | socketRead (read : SocketRead)

def clientStep (lh : LgsmHandle H) (waiting : Option ℕ) :
    ClientEvent → Option ℕ × List (Delivery H)
  | .waitPacket id => (some id, [])
  | .socketRead read =>
    if waiting = some read.id then (none, [.returned read.bytes])
    else (waiting, (lgsmHandlePacket lh read.bytes).1)

def client : Machine (Option ℕ) ClientEvent (Delivery H) :=
  { step := clientStep lh }

structure DaemonMsg where
  msgType : Byte
  known : msgType.toNat < NUM_GSMD_MSGS
  msgSubtype : Byte
  pad : Byte
  id : ℕ
  id_lt : id < 65536
  data : List Byte
  data_lt : data.length < 65536

/-- The packed header, its 16-bit fields in the byte order of the host, and the payload. -/
def DaemonMsg.wire (m : DaemonMsg) : List Byte :=
  [GSMD_PROTO_VERSION, m.msgType, m.msgSubtype, m.pad,
    UInt8.ofNat m.id, UInt8.ofNat (m.id / 256),
    UInt8.ofNat m.data.length, UInt8.ofNat (m.data.length / 256)] ++ m.data

def streamOf (messages : List DaemonMsg) : List Byte := messages.flatMap DaemonMsg.wire

def ClientEvent.bytes : ClientEvent → List Byte
  | .waitPacket _ => []
  | .socketRead read => read.bytes

/-- The message is the one that was delivered: with its header and payload, and to the handler of
its type or to the caller that waited. -/
def DeliveredAs (lh : LgsmHandle H) : Delivery H → DaemonMsg → Prop
  | .handled handler gmh, m => gmh = m.wire ∧ lh.handler m.msgType.toNat = some handler
  | .unable gmh, m => gmh = m.wire ∧ lh.handler m.msgType.toNat = none
  | .returned gmh, m => gmh = m.wire

end Openmoko.Libgsmd
