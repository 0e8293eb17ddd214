import Mathlib.Algebra.Group.Int.Defs
import Mathlib.Algebra.GroupWithZero.Nat
import Openmoko.Library.CString
import Openmoko.Library.Machine

/-!
# Firmware download (`dfu.c`, `sam7dfu.c`)

`sam7dfu_do_dnload` is taken from one system call to the next: a `read` of the file, a control
transfer that sends a block, or one that asks for the status. What a call gives is the event.
-/

namespace Openmoko.Dfu

def STATE_DFU_DOWNLOAD_IDLE : Byte := 0x05
def STATE_DFU_MANIFEST_SYNC : Byte := 0x06
def STATE_DFU_MANIFEST : Byte := 0x07
def STATE_DFU_ERROR : Byte := 0x0a

def DFU_STATUS_OK : Byte := 0x00
def DFU_STATUS_ERROR_UNKNOWN : Byte := 0x0e

/-- `struct dfu_status`. -/
structure DfuStatus where
  bStatus : Byte
  bwPollTimeout : ℕ
  bState : Byte
  iString : Byte
  deriving DecidableEq, Repr

/-- The length of a status reply. -/
scoped instance neZeroSix : NeZero 6 := ⟨nofun⟩

/-- What a system call gives: its result, and the bytes that a status request puts in its buffer. -/
structure Answer where
  result : ℤ
  buffer : Fin 6 → Byte

def dfuDownload (length : BitVec 16) (data : Option (List Byte)) : Except ℤ (List Byte) :=
  if length ≠ 0 ∧ data = none then .error (-1)
  else if length = 0 ∧ data ≠ none then .error (-2)
  else .ok ((data.getD []).take length.toNat)

def dfuGetStatus (a : Answer) : ℤ × DfuStatus :=
  let status :=
    if a.result = 6 then
      { bStatus := a.buffer 0
        bwPollTimeout := (a.buffer 3).toNat <<< 16 ||| (a.buffer 2).toNat <<< 8 |||
          (a.buffer 1).toNat
        bState := a.buffer 4
        iString := a.buffer 5 }
    else
      { bStatus := DFU_STATUS_ERROR_UNKNOWN
        bwPollTimeout := 0
        bState := STATE_DFU_ERROR
        iString := 0 }
  (a.result, status)

def EINVAL : ℤ := 22

/-- What `sam7dfu_do_dnload` waits for. -/
inductive Pc where
  | read
  -- the control transfer of a block
  | download (length : ℕ)
  -- the status request of the loop behind a block
  | pollStatus
  -- the control transfer of the zero sized request at the end
  | close
  -- the status request at the label `get_status`
  | getStatus
  | returned (ret : ℤ)
  deriving DecidableEq, Repr

structure DnloadState where
  pc : Pc
  -- how far the file has been read
  offset : ℕ
  bytesSent : ℤ
  -- `transaction` of `dfu.c`, which goes on from one download to the next
  transaction : BitVec 16
  -- what the zero sized request at the end gave; the code does not keep it
  closing : ℤ
  deriving DecidableEq, Repr

inductive DnloadObs where
  | block (wValue : BitVec 16) (data : List Byte)
  | closing (wValue : BitVec 16)
  | transferred (result : ℤ)
  | closed (result : ℤ)
  | status (result : ℤ) (dst : DfuStatus)
  | noBlock
  deriving DecidableEq, Repr

section Dnload

variable (file : List Byte) (xferSize : ℕ)

variable (s : DnloadState)

def sendNext : DnloadState × List DnloadObs :=
  if s.bytesSent < file.length then ({ s with pc := .read }, [])
  else
    ({ s with pc := .close, transaction := s.transaction + 1 }, [.closing s.transaction])

/-- From the beginning to the first system call of the loop. -/
def dnloadStart (transaction : BitVec 16) : DnloadState :=
  let s := { pc := .read, offset := 0, bytesSent := 0, transaction := transaction, closing := 0 }
  if file.length ≤ 0 then { s with pc := .returned (-EINVAL) } else (sendNext file s).1

def onRead (ret : ℤ) : DnloadState × List DnloadObs :=
  if ret < 0 then ({ s with pc := .returned ret }, [.noBlock])
  else
    let buf := (file.drop s.offset).take ret.toNat
    match dfuDownload (BitVec.ofInt 16 ret) (if ret = 0 then none else some buf) with
    | .error ret => ({ s with pc := .returned ret }, [.noBlock])
    | .ok data =>
      ({ s with
          pc := .download data.length
          offset := s.offset + ret.toNat
          transaction := s.transaction + 1 }, [.block s.transaction data])

def onDownload (ret : ℤ) : DnloadState :=
  if ret < 0 then { s with pc := .returned ret }
  else { s with pc := .pollStatus, bytesSent := (s.bytesSent + ret).bmod (2 ^ 32) }

def onPollStatus (ret : ℤ) (dst : DfuStatus) : DnloadState × List DnloadObs :=
  if ret < 0 then ({ s with pc := .returned ret }, [])
  else if dst.bState ≠ STATE_DFU_DOWNLOAD_IDLE then (s, [])
  else if dst.bStatus ≠ DFU_STATUS_OK then ({ s with pc := .returned (-1) }, [])
  else sendNext file s

def onGetStatus (ret : ℤ) (dst : DfuStatus) : DnloadState :=
  if ret < 0 then { s with pc := .returned ret }
  else if dst.bState = STATE_DFU_MANIFEST_SYNC ∨ dst.bState = STATE_DFU_MANIFEST then s
  else { s with pc := .returned ret }

def dnloadStep (a : Answer) : DnloadState × List DnloadObs :=
  match s.pc with
  | .read => onRead file s a.result
  | .download _ => (onDownload s a.result, [.transferred a.result])
  | .pollStatus =>
    let (ret, dst) := dfuGetStatus a
    let (s', obs) := onPollStatus file s ret dst
    (s', .status ret dst :: obs)
  -- the result is put in `ret`, and the status request puts its own there
  | .close => ({ s with pc := .getStatus, closing := a.result }, [.closed a.result])
  | .getStatus =>
    let (ret, dst) := dfuGetStatus a
    (onGetStatus s ret dst, [.status ret dst])
  | .returned _ => (s, [])

def dnload : Machine DnloadState Answer DnloadObs := { step := dnloadStep file }

/-- What the system calls promise: `read` gives at least one byte while the file lasts, and no
transfer is longer than the request. -/
def Answered (a : Answer) : Prop :=
  match s.pc with
  | .read =>
    a.result < 0 ∨ (a.result ≤ xferSize ∧ a.result ≤ (file.length - s.offset : ℕ) ∧
      (s.offset < file.length → 0 < a.result))
  | .download length => a.result ≤ length
  | .close => a.result ≤ 0
  | .pollStatus | .getStatus => a.result ≤ 6
  | .returned _ => True

instance (s : DnloadState) (a : Answer) : Decidable (Answered file xferSize s a) := by
  unfold Answered
  cases s.pc <;> infer_instance

end Dnload

end Openmoko.Dfu
