import Openmoko.Library.CString

/-!
# The AT line parser of gsmd

`llparse_byte` and `llparse_string` of `gsmd/atcmd.c`, built without `STRICT`. The array `buf` is
all zero from `cur` on, since `llparse_endline` clears the whole of it, so the model keeps the bytes
below `cur` only, and `cur - buf` is their number.
-/

namespace Openmoko.Gsmd

def LLPARSE_BUF_SIZE : Nat := 1024

def LGSM_ATCMD_F_EXTENDED : Nat := 0x01
def LGSM_ATCMD_F_LFCR : Nat := 0x04

inductive LlparseState where
  | idle
  | idleCr
  | idleLf
  | result
  | resultCr
  | resultLf
  | prompt
  | promptSpc
  | error
  deriving DecidableEq, Repr

structure Llparser where
  state : LlparseState
  len : Nat
  flags : Nat
  buf : List Byte
  deriving DecidableEq, Repr

/-- What the parser tells its owner: `cb(buf, cur - buf)` or `prompt_cb`. -/
inductive LlpCall where
  | cb (buf : List Byte)
  | promptCb
  deriving DecidableEq, Repr

namespace Llparser

def extended (llp : Llparser) : Bool := llp.flags &&& LGSM_ATCMD_F_EXTENDED != 0

def lfcr (llp : Llparser) : Bool := llp.flags &&& LGSM_ATCMD_F_LFCR != 0

/-- `atcmd_init` and `llparse_init`. -/
def init (flags : Nat) : Llparser :=
  { state := .idle, len := LLPARSE_BUF_SIZE, flags := flags, buf := [] }

end Llparser

def EFBIG : Int := 27

def llparseAppend (llp : Llparser) (byte : Byte) : Llparser × Int :=
  if llp.buf.length < llp.len then
    ({ llp with buf := llp.buf ++ [byte] }, 0)
  else
    (llp, -EFBIG)

def llparseEndline (llp : Llparser) : Llparser :=
  { llp with buf := [], state := .idle }

def CH_GT : Byte := 62
def CH_SPC : Byte := 32

def llparseByte (llp : Llparser) (byte : Byte) : Llparser × Int :=
  match llp.state with
  | .idle | .promptSpc =>
    if llp.extended then
      if byte = CR then ({ llp with state := .idleCr }, 0)
      else if byte = CH_GT then ({ llp with state := .prompt }, 0)
      else llparseAppend { llp with state := .result } byte
    else llparseAppend { llp with state := .result } byte
  | .idleCr =>
    if byte = LF then ({ llp with state := .idleLf }, 0)
    else if byte ≠ CR then ({ llp with state := .error }, 0)
    else (llp, 0)
  | .idleLf =>
    if byte = CR then ({ llp with state := .resultCr }, 0)
    else if byte = CH_GT then ({ llp with state := .prompt }, 0)
    else llparseAppend { llp with state := .result } byte
  | .result =>
    if byte = CR then ({ llp with state := .resultCr }, 0)
    else if llp.lfcr && byte == LF then ({ llp with state := .resultLf }, 0)
    else llparseAppend llp byte
  | .resultCr => if byte = LF then (llparseEndline llp, 0) else (llp, 0)
  | .resultLf => if byte = CR then (llparseEndline llp, 0) else (llp, 0)
  | .prompt =>
    if byte = CH_SPC then ({ llp with state := .promptSpc }, 0)
    else
      -- this was not a real "> " prompt; the result of the first append is dropped
      let (llp, ret) := llparseAppend (llparseAppend llp CH_GT).1 byte
      ({ llp with state := .result }, ret)
  | .error => (llp, 0)

def llparseCalls (llp : Llparser) : List LlpCall :=
  (if llp.state = .resultCr then [LlpCall.cb llp.buf] else []) ++
    (if llp.state = .promptSpc then [LlpCall.promptCb] else [])

def llparseString (llp : Llparser) : List Byte → Llparser × Int × List LlpCall
  | [] => (llp, 0, [])
  | byte :: buf =>
    let (llp, rc) := llparseByte llp byte
    if rc < 0 then (llp, rc, [])
    else
      let (llp', rc', calls) := llparseString llp buf
      (llp', rc', llparseCalls llp ++ calls)

/-- `read` after `read`: the return codes and the calls, in order. -/
def llparseReads (llp : Llparser) : List (List Byte) → Llparser × List Int × List LlpCall
  | [] => (llp, [], [])
  | chunk :: chunks =>
    let (llp, rc, calls) := llparseString llp chunk
    let (llp, rcs, calls') := llparseReads llp chunks
    (llp, rc :: rcs, calls ++ calls')

end Openmoko.Gsmd
