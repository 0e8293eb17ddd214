import Openmoko.Library.CString

/-!
# Client socket, receive side (`usock.c`)

A client's socket is a byte stream. When there is something to read, the daemon reads once into a
buffer on the stack and takes what it got for one message.
-/

namespace Openmoko.Gsmd

/-- `enum gsmd_msg_type` ends with `__NUM_GSMD_MSGS`. -/
def NUM_GSMD_MSGS : ℕ := 12

def GSMD_PROTO_VERSION : Byte := 1

/-- `sizeof(buf)` in `gsmd_usock_user_cb`. -/
def USER_BUF_SIZE : ℕ := 1024

/-- `sizeof(struct gsmd_msg_hdr)`. -/
def MSG_HDR_SIZE : ℕ := 8

def EINVAL : Int := 22

inductive UsockMsgHandler where
  | passthrough | event | voicecall | pin | phone | network | sms | cb | phonebook | modem
  deriving DecidableEq, Repr

def pcmdTypeHandlers : ℕ → Option UsockMsgHandler
  | 1 => some .event
  | 2 => some .passthrough
  | 3 => some .voicecall
  | 5 => some .phonebook
  | 6 => some .network
  | 7 => some .phone
  | 8 => some .pin
  | 9 => some .sms
  | 10 => some .cb
  | 11 => some .modem
  | _ => none

/-- A call `umh(gu, gph, len)`: the handler and the `len` bytes from `gph` on. -/
structure HandlerCall where
  umh : UsockMsgHandler
  bytes : List Byte
  deriving DecidableEq, Repr

def usockRcvPcmd (buf : ℕ → Byte) (len : ℕ) : Except Int HandlerCall :=
  if buf 0 ≠ GSMD_PROTO_VERSION then
    .error (-EINVAL)
  else if (buf 1).toNat ≥ NUM_GSMD_MSGS then
    .error (-EINVAL)
  else
    match pcmdTypeHandlers (buf 1).toNat with
    | none => .error (-EINVAL)
    | some umh => .ok ⟨umh, (List.range len).map buf⟩

/-- What `read` puts into the buffer: at least one byte, and at most as many as fit. -/
structure Chunk where
  bytes : List Byte
  nonempty : bytes ≠ []
  fits : bytes.length ≤ USER_BUF_SIZE

inductive ReadResult where
  | eof
  | failed (rc : Int) (hrc : rc < 0)
  | received (chunk : Chunk)

inductive UserCb where
  -- the whole user structure is destroyed
  | vanished
  | returned (rc : Int)
  | handed (call : HandlerCall)

def readInto (stack : ℕ → Byte) (bytes : List Byte) : ℕ → Byte :=
  fun i => (bytes[i]?).getD (stack i)

def gsmdUsockUserCb (stack : ℕ → Byte) : ReadResult → UserCb
  | .eof => .vanished
  | .failed rc _ => .returned rc
  | .received chunk =>
    match usockRcvPcmd (readInto stack chunk.bytes) chunk.bytes.length with
    | .error rc => .returned rc
    | .ok call => .handed call

def UserCb.call? : UserCb → Option HandlerCall
  | .handed call => some call
  | _ => none

/-- The handler calls for one read after the other, each with its own stack. -/
def handlerCalls (reads : List ((ℕ → Byte) × Chunk)) : List HandlerCall :=
  reads.filterMap fun read => (gsmdUsockUserCb read.1 (.received read.2)).call?

/-- A message that a client may send: a type that has a handler, and a payload that fits the
daemon's buffer together with the header. -/
structure ClientMsg where
  msgType : Byte
  umh : UsockMsgHandler
  known : pcmdTypeHandlers msgType.toNat = some umh
  msgSubtype : Byte
  pad : Byte
  id : ℕ
  id_lt : id < 65536
  data : List Byte
  fits : MSG_HDR_SIZE + data.length ≤ USER_BUF_SIZE

/-- The packed header, its 16-bit fields in the byte order of the host, and the payload. -/
def ClientMsg.wire (m : ClientMsg) : List Byte :=
  [GSMD_PROTO_VERSION, m.msgType, m.msgSubtype, m.pad,
    UInt8.ofNat m.id, UInt8.ofNat (m.id / 256),
    UInt8.ofNat m.data.length, UInt8.ofNat (m.data.length / 256)] ++ m.data

def ClientMsg.call (m : ClientMsg) : HandlerCall := ⟨m.umh, m.wire⟩

/-- A way for the stream of these messages to arrive. -/
structure Arrival (messages : List ClientMsg) where
  reads : List ((ℕ → Byte) × Chunk)
  stream : (reads.map fun read => read.2.bytes).flatten = (messages.map ClientMsg.wire).flatten

end Openmoko.Gsmd
