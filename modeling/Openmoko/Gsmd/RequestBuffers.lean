import Openmoko.Gsmd.Usock
import Openmoko.Gsmd.Proof.SmsPduRoundTrip
import Openmoko.Library.Decimal

/-!
# The commands that client requests become

The handlers of `gsmd/usock.c` and `gsmd/sms_cb.c` read the fields of a message where it lies in the
daemon's buffer and format an AT command from them. What they do to memory on the way is a list of
actions: how many bytes go into an array of which size, which index a table is looked up at, and
with which length `atcmd_fill` is called for which text. A string field is read up to the first NUL
from its start on, in the field or behind it.
-/

namespace Openmoko.Gsmd

/-- A message as a handler sees it: `len` bytes were received, and `data` is what stands in memory
from `gph->data` on. -/
structure UsockMsg where
  msgSubtype : Byte
  /-- `gph->len` -/
  hdrLen : ℕ
  len : ℕ
  data : List Byte
  received : len ≤ MSG_HDR_SIZE + data.length

namespace UsockMsg

variable (msg : UsockMsg)

def u8 (i : ℕ) : ℕ := (msg.data.getD i 0).toNat

def i8 (i : ℕ) : ℤ := if msg.u8 i < 2 ^ 7 then msg.u8 i else (msg.u8 i : ℤ) - 2 ^ 8

def u32 (i : ℕ) : ℕ :=
  msg.u8 i + 2 ^ 8 * msg.u8 (i + 1) + 2 ^ 16 * msg.u8 (i + 2) + 2 ^ 24 * msg.u8 (i + 3)

def i32 (i : ℕ) : ℤ := if msg.u32 i < 2 ^ 31 then msg.u32 i else (msg.u32 i : ℤ) - 2 ^ 32

/-- The C string that begins at the field. -/
def string (i : ℕ) : List Byte := cstr (msg.data.drop i)

end UsockMsg

inductive BuilderAct where
  /-- So many bytes are written to an array of that size, from its start on. -/
  | write (size count : ℕ)
  /-- `table[index]` -/
  | lookup (size index : ℕ)
  /-- `atcmd_fill (_, rlen, ...)`, and the text that the command has in the end. -/
  | fill (rlen : ℕ) (text : List Byte)
  deriving DecidableEq, Repr

abbrev Builder := Except ℤ (List BuilderAct)

namespace Builder

def print (size : ℕ) (text : List Byte) : BuilderAct := .write size (text.length + 1)

/-- `sprintf (buffer, ...)`, and `atcmd_fill` of the buffer. -/
def printFill (size : ℕ) (text : List Byte) : List BuilderAct :=
  [print size text, .fill (text.length + 1) text]

/-- `atcmd_fill (prefix, atcmd_len, ...)`, and `sprintf (cmd->buf, ...)` into what it allocates. -/
def fillPrint (command : String) (rlen : ℕ) (text : List Byte) : List BuilderAct :=
  [print (max rlen (ascii command).length) text, .fill rlen text]

/-- `atcmd_fill (text, n + 1, ...)` -/
def literal (text : String) (n : ℕ) : List BuilderAct := [.fill (n + 1) (ascii text)]

end Builder

open Builder

def ENOSYS : ℤ := 38

/-- `sizeof (struct gsmd_addr)`; `type` is at 0 and `number` at 1. -/
def SIZEOF_ADDR : ℕ := 34

inductive VoicecallType where
  | dial | hangup | answer | dtmf | getStat | ctrl | fwdDis | fwdEn | fwdStat | fwdReg | fwdEras
  deriving DecidableEq, Repr

def VoicecallType.ofSubtype : Byte → Option VoicecallType
  | 1 => some .dial
  | 2 => some .hangup
  | 3 => some .answer
  | 4 => some .dtmf
  | 7 => some .getStat
  | 8 => some .ctrl
  | 9 => some .fwdDis
  | 10 => some .fwdEn
  | 11 => some .fwdStat
  | 12 => some .fwdReg
  | 13 => some .fwdEras
  | _ => none

/-- The digits behind `AT+CHLD=`, by `gcc->proc` and `gcc->idx`. -/
def callCtrl (idx : ℕ) : ℕ → Option (List Byte)
  | 0 | 1 => some (ascii "0")
  | 2 => some (ascii "1")
  | 3 => some (ascii "1" ++ decimal idx)
  | 4 => some (ascii "2")
  | 5 => some (ascii "2" ++ decimal idx)
  | 6 => some (ascii "3")
  | _ => none

/-- `sprintf (buf, ...)` into 64 bytes, and `AT+CCFC=` with it. -/
def callForward (buf : List Byte) : List BuilderAct :=
  print 64 buf :: fillPrint "AT+CCFC=" (1 + 8 + buf.length) (ascii "AT+CCFC=" ++ buf)

def callForwardMode (msg : UsockMsg) (mode : String) : Builder :=
  if msg.len < MSG_HDR_SIZE + 4 then .error (-EINVAL)
  else .ok (callForward (formatInt (msg.i32 0) ++ ascii mode))

def voicecall (msg : UsockMsg) : VoicecallType → Builder
  | .dial =>
    if msg.len < MSG_HDR_SIZE + SIZEOF_ADDR then .error (-EINVAL)
    else
      -- `ga->number[GSMD_ADDR_MAXLEN] = '\0'`
      let number := cstr ((msg.data.set (1 + GSMD_ADDR_MAXLEN) NUL).drop 1)
      .ok (fillPrint "ATD" (5 + number.length) (ascii "ATD" ++ number ++ ascii ";"))
  | .hangup => .ok (literal "ATH" 3)
  | .answer => .ok (literal "ATA" 3)
  | .dtmf =>
    if msg.len < MSG_HDR_SIZE + 1 then .error (-EINVAL)
    else if msg.len < MSG_HDR_SIZE + 1 + msg.u8 0 then .error (-EINVAL)
    else if msg.u8 0 ≠ 1 then .error (-EINVAL)
    else
      let atcmdLen := 1 + 7 + msg.u8 0 * 2
      -- `%c` may print a NUL
      let text := ascii "AT+VTS=" ++ [msg.data.getD 1 0] ++ ascii ";"
      .ok [print (max atcmdLen 7) text, .fill atcmdLen (cstr text)]
  | .getStat => .ok (literal "AT+CLCC" 7)
  | .ctrl =>
    if msg.len < MSG_HDR_SIZE + 5 then .error (-EINVAL)
    else
      match callCtrl (msg.u8 4) (msg.u32 0) with
      | none => .error (-EINVAL)
      | some digits => .ok (fillPrint "AT+CHLD=" (1 + 8 + 2) (ascii "AT+CHLD=" ++ digits))
  | .fwdDis => callForwardMode msg ",0"
  | .fwdEn => callForwardMode msg ",1"
  | .fwdStat => callForwardMode msg ",2"
  | .fwdReg =>
    -- the check is for an `int` only; `addr` is at 4
    if msg.len < MSG_HDR_SIZE + 4 then .error (-EINVAL)
    else
      .ok (callForward (formatInt (msg.i32 0) ++ ascii ",3,\"" ++ msg.string 5 ++ ascii "\""))
  | .fwdEras => callForwardMode msg ",4"

def Formatter.usockRcvVoicecall (msg : UsockMsg) : Builder :=
  match VoicecallType.ofSubtype msg.msgSubtype with
  | none => .error (-EINVAL)
  | some type => voicecall msg type

def GSMD_PIN_SIM_PUK : ℕ := 2
def GSMD_PIN_SIM_PUK2 : ℕ := 7
def GSMD_PIN_MAXLEN : ℕ := 8

/-- `sizeof (struct gsmd_pin)`; `type` is at 0, `pin` at 4 and `newpin` at 13. -/
def SIZEOF_PIN : ℕ := 22

def strlcat (dst src : List Byte) (size : ℕ) : List Byte :=
  if dst.length < size then (dst ++ src).take (size - 1) else dst

def needsNewpin (msg : UsockMsg) : Bool :=
  msg.u32 0 == GSMD_PIN_SIM_PUK || msg.u32 0 == GSMD_PIN_SIM_PUK2

def Formatter.usockRcvPin (msg : UsockMsg) : Builder :=
  match msg.msgSubtype with
  | 1 =>
    if msg.hdrLen < SIZEOF_PIN ∨ msg.len < SIZEOF_PIN + MSG_HDR_SIZE then .error (-EINVAL)
    else
      let rlen := 9 + GSMD_PIN_MAXLEN + 3 + GSMD_PIN_MAXLEN + 2
      let buf := strlcat (ascii "AT+CPIN=\"") (msg.string 4) rlen
      let buf :=
        if needsNewpin msg then strlcat (strlcat buf (ascii "\",\"") rlen) (msg.string 13) rlen
        else buf
      let buf := strlcat buf (ascii "\"") rlen
      .ok [print rlen buf, .fill rlen buf]
  | 2 => .ok (literal "AT+CPIN?" 8)
  | _ => .error (-EINVAL)

def Formatter.usockRcvPhone (msg : UsockMsg) : Builder :=
  match msg.msgSubtype with
  | 1 => .ok (literal "AT+CFUN=1" 9)
  | 2 => .ok (literal "AT+CFUN=0" 9)
  | 11 => .ok (literal "AT+CFUN?" 8)
  -- the answer is there already
  | 3 => .ok []
  | 4 => .ok (literal "AT+CGMI" 7)
  | 5 => .ok (literal "AT+CGMM" 7)
  | 6 => .ok (literal "AT+CGMR" 7)
  | 7 => .ok (literal "AT+CGSN" 7)
  | 8 => .ok (literal "AT+CBC" 6)
  | 9 => .ok (literal "AT+CVIB=1" 9)
  | 10 => .ok (literal "AT+CVIB=0" 9)
  | _ => .error (-EINVAL)

/-- `sizeof (gsmd_oper_numeric)` -/
def SIZEOF_OPER : ℕ := 6

def NETWORK_BUF_SIZE : ℕ := 15 + SIZEOF_OPER

inductive NetworkType where
  | register | sigqGet | vmailGet | vmailSet | operGet | operNGet | operList | deregister
  | getNumber | prefList | prefDel | prefAdd | prefSpace | queryReg
  deriving DecidableEq, Repr

def NetworkType.ofSubtype : Byte → Option NetworkType
  | 1 => some .register
  | 2 => some .sigqGet
  | 3 => some .vmailGet
  | 4 => some .vmailSet
  | 5 => some .operGet
  | 6 => some .operNGet
  | 7 => some .operList
  | 9 => some .deregister
  | 10 => some .getNumber
  | 11 => some .prefList
  | 12 => some .prefDel
  | 13 => some .prefAdd
  | 14 => some .prefSpace
  | 15 => some .queryReg
  | _ => none

/-- `%.*s` of the operator. -/
def operText (msg : UsockMsg) : List Byte := (msg.string 0).take SIZEOF_OPER

/-- `vmail->addr` is at 1. -/
def network (msg : UsockMsg) : NetworkType → List BuilderAct
  | .register =>
    printFill NETWORK_BUF_SIZE
      (if msg.u8 0 ≠ 0 then ascii "AT+COPS=1,2,\"" ++ operText msg ++ ascii "\""
        else ascii "AT+COPS=0")
  | .deregister => literal "AT+COPS=2" 9
  | .queryReg => literal "AT+CREG?" 8
  | .vmailGet => literal "AT+CSVM?" 8
  | .vmailSet =>
    printFill NETWORK_BUF_SIZE
      (ascii "AT+CSVM=1,\"" ++ msg.string 2 ++ ascii "\"," ++ decimal (msg.u8 1))
  | .sigqGet => literal "AT+CSQ" 6
  | .operGet => literal "AT+COPS=3,0" 11 ++ literal "AT+COPS?" 8
  | .operNGet => literal "AT+COPS=3,2" 11 ++ literal "AT+COPS?" 8
  | .operList => literal "AT+COPS=?" 9
  | .prefList => literal "AT+CPOL=,0" 10 ++ literal "AT+CPOL?" 8
  | .prefDel => printFill NETWORK_BUF_SIZE (ascii "AT+CPOL=" ++ formatInt (msg.i32 0))
  | .prefAdd =>
    printFill NETWORK_BUF_SIZE (ascii "AT+CPOL=,2,\"" ++ operText msg ++ ascii "\"")
  | .prefSpace => literal "AT+CPOL=?" 9
  | .getNumber => literal "AT+CNUM" 7

def Formatter.usockRcvNetwork (msg : UsockMsg) : Builder :=
  match NetworkType.ofSubtype msg.msgSubtype with
  | none => .error (-EINVAL)
  | some type => .ok (network msg type)

/-! ### Short messages -/

def gsmdCmglStat : List (List Byte) :=
  ["REC UNREAD", "REC READ", "STO UNSENT", "STO SENT", "ALL"].map ascii

def ts0705MemtypeName : List (List Byte) := ["NONE", "BM", "ME", "MT", "SM", "TA", "SR"].map ascii

def SMS_BUF_SIZE : ℕ := 1024

def SUBMIT_HEADER_SIZE : ℕ := 15 + GSMD_ADDR_MAXLEN

/-- `sizeof (struct gsmd_sms_submit)`: `addr` is at 0, `payload` at 34, its `data` at 73, and
`ask_ds` at 240. -/
def SIZEOF_SUBMIT : ℕ := 244

/-- The `struct gsmd_sms_submit` at an offset of the message; the encoder reads neither the decoded
coding scheme nor the type in it. -/
def smsSubmitAt (msg : UsockMsg) (i : ℕ) : GsmdSmsSubmit where
  addr := { type := msg.data.getD i 0, number := msg.data.drop (i + 1) }
  payload :=
    { length := msg.data.getD (i + 34) 0
      codingScheme := msg.data.getD (i + 35) 0
      hasHeader := msg.u32 (i + 36) ≠ 0
      isVoicemail := msg.u32 (i + 40) ≠ 0
      dcs := smsPduDecodeDcs (msg.data.getD (i + 68) 0)
      tpMti := msg.data.getD (i + 69) 0
      data := (List.range (GSMD_SMS_DATA_MAXLEN + 1)).map fun k => msg.data.getD (i + 73 + k) 0
      data_length := by rw [List.length_map, List.length_range] }
  askDs := msg.u32 (i + 240) ≠ 0

/-- A text and the `^Z` that ends the message. -/
def smsFill (text : List Byte) : List BuilderAct :=
  [.write SMS_BUF_SIZE (text.length + 2), .fill (text.length + 2) (text ++ [26])]

variable (textMode : Bool)

def smsSubmitCommand (msg : UsockMsg) (i : ℕ) (textCommand : String)
    (pduCommand : ℤ → List Byte) : List BuilderAct :=
  if textMode then
    smsFill (ascii textCommand ++ ascii "\"" ++ msg.string (i + 1) ++ ascii "\"\n" ++
      (msg.string (i + 73)).take (msg.u8 (i + 34)))
  else
    let made := smsPduMakeSmssubmit true (smsSubmitAt msg i)
    .write SUBMIT_HEADER_SIZE (smsSubmitHeader (smsSubmitAt msg i)).length ::
      smsFill (pduCommand ((made.1 : ℤ) - 1) ++ made.2)

inductive SmsType where
  | list | read | send | write | delete | getMsgStorage | setMsgStorage | getServiceCentre
  | setServiceCentre
  deriving DecidableEq, Repr

def SmsType.ofSubtype : Byte → Option SmsType
  | 1 => some .list
  | 2 => some .read
  | 3 => some .send
  | 4 => some .write
  | 5 => some .delete
  | 6 => some .getMsgStorage
  | 7 => some .setMsgStorage
  | 8 => some .getServiceCentre
  | 9 => some .setServiceCentre
  | _ => none

def storageNames (msg : UsockMsg) : Option (List Byte × List Byte × List Byte) := do
  let first ← ts0705MemtypeName[msg.u32 0]?
  let second ← ts0705MemtypeName[msg.u32 4]?
  let third ← ts0705MemtypeName[msg.u32 8]?
  return (first, second, third)

def sms (textMode : Bool) (msg : UsockMsg) : SmsType → Builder
  | .list =>
    if msg.len < MSG_HDR_SIZE + 4 then .error (-EINVAL)
    else if msg.i32 0 < 0 ∨ 4 < msg.i32 0 then .error (-EINVAL)
    else if textMode then
      let stat := (msg.i32 0).toNat
      .ok (.lookup gsmdCmglStat.length stat ::
        printFill SMS_BUF_SIZE (ascii "AT+CMGL=\"" ++ gsmdCmglStat.getD stat [] ++ ascii "\""))
    else .ok (printFill SMS_BUF_SIZE (ascii "AT+CMGL=" ++ formatInt (msg.i32 0)))
  | .read =>
    if msg.len < MSG_HDR_SIZE + 4 then .error (-EINVAL)
    else .ok (printFill SMS_BUF_SIZE (ascii "AT+CMGR=" ++ formatInt (msg.i32 0)))
  | .send =>
    if msg.len < MSG_HDR_SIZE + SIZEOF_SUBMIT then .error (-EINVAL)
    else
      .ok (smsSubmitCommand textMode msg 0 "AT+CMGS=" fun length =>
        ascii "AT+CMGS=" ++ formatInt length ++ ascii "\n")
  | .write =>
    -- `stat` is at 0, and `sms` at 1
    if msg.len < MSG_HDR_SIZE + (1 + SIZEOF_SUBMIT) then .error (-EINVAL)
    else if 4 < msg.u8 0 then .error (-EINVAL)
    else
      .ok (smsSubmitCommand textMode msg 1 "AT+CMGW=" fun length =>
        ascii "AT+CMGW=" ++ formatInt length ++ ascii "," ++ decimal (msg.u8 0) ++ ascii "\n")
  | .delete =>
    if msg.len < MSG_HDR_SIZE + 2 then .error (-EINVAL)
    else
      .ok (printFill SMS_BUF_SIZE
        (ascii "AT+CMGD=" ++ decimal (msg.u8 0) ++ ascii "," ++ decimal (msg.u8 1)))
  | .getMsgStorage => .ok (literal "AT+CPMS?" 8)
  | .setMsgStorage =>
    if msg.len < MSG_HDR_SIZE + 3 * 4 then .error (-EINVAL)
    else
      .ok ([msg.u32 0, msg.u32 4, msg.u32 8].map (.lookup ts0705MemtypeName.length) ++
        match storageNames msg with
        | none => []
        | some (first, second, third) =>
          printFill SMS_BUF_SIZE (ascii "AT+CPMS=\"" ++ first ++ ascii "\",\"" ++ second ++
            ascii "\",\"" ++ third ++ ascii "\""))
  | .getServiceCentre => .ok (literal "AT+CSCA?" 8)
  | .setServiceCentre =>
    if msg.len < MSG_HDR_SIZE + SIZEOF_ADDR then .error (-EINVAL)
    else
      .ok (printFill SMS_BUF_SIZE
        (ascii "AT+CSCA=\"" ++ msg.string 1 ++ ascii "\"," ++ decimal (msg.u8 0)))

def Formatter.usockRcvSms (msg : UsockMsg) : Builder :=
  match SmsType.ofSubtype msg.msgSubtype with
  | none => .error (-ENOSYS)
  | some type => sms textMode msg type

def Formatter.usockRcvCb (msg : UsockMsg) : Builder :=
  match msg.msgSubtype with
  | 1 => .ok (literal "AT+CSCB=1" 9)
  | 2 => .ok (literal "AT+CSCB=0" 9)
  | _ => .error (-ENOSYS)

def PHONEBOOK_BUF_SIZE : ℕ := 1024

inductive PhonebookType where
  | find | read | readrg | write | delete | getSupport | listStorage | setStorage
  deriving DecidableEq, Repr

def PhonebookType.ofSubtype : Byte → Option PhonebookType
  | 1 => some .find
  | 2 => some .read
  | 3 => some .readrg
  | 4 => some .write
  | 5 => some .delete
  | 6 => some .getSupport
  | 7 => some .listStorage
  | 8 => some .setStorage
  | _ => none

/-- `sprintf (buf, ...)`, and the command with it. -/
def phonebookPrint (command : String) (buf : List Byte) : List BuilderAct :=
  print PHONEBOOK_BUF_SIZE buf ::
    fillPrint command (1 + (ascii command).length + buf.length) (ascii command ++ buf)

/-- `struct gsmd_phonebook` has `index` at 0, `numb` at 1, `type` at 46 and `text` at 47. -/
def phonebook (msg : UsockMsg) : PhonebookType → Builder
  | .listStorage => .ok (literal "AT+CPBS=?" 9)
  | .setStorage =>
    if msg.len < MSG_HDR_SIZE + 3 then .error (-EINVAL)
    else
      .ok (fillPrint "AT+CPBS=\"" (1 + 9 + 2 + 1)
        (ascii "AT+CPBS=\"" ++ msg.string 0 ++ ascii "\""))
  | .find =>
    if msg.len < MSG_HDR_SIZE + 15 then .error (-EINVAL)
    else
      .ok (fillPrint "AT+CPBF=\"" (1 + 9 + (msg.string 0).length + 1)
        (ascii "AT+CPBF=\"" ++ msg.string 0 ++ ascii "\""))
  | .read =>
    if msg.len < MSG_HDR_SIZE + 4 then .error (-EINVAL)
    else .ok (phonebookPrint "AT+CPBR=" (formatInt (msg.i32 0)))
  | .readrg =>
    if msg.len < MSG_HDR_SIZE + 2 then .error (-EINVAL)
    else
      .ok (phonebookPrint "AT+CPBR=" (decimal (msg.u8 0) ++ ascii "," ++ decimal (msg.u8 1)))
  | .write =>
    if msg.len < MSG_HDR_SIZE + 62 then .error (-EINVAL)
    else
      .ok (phonebookPrint "AT+CPBW=" (formatInt (msg.i8 0) ++ ascii ",\"" ++ msg.string 1 ++
        ascii "\"," ++ decimal (msg.u8 46) ++ ascii ",\"" ++ msg.string 47 ++ ascii "\""))
  | .delete =>
    if msg.len < MSG_HDR_SIZE + 4 then .error (-EINVAL)
    else .ok (phonebookPrint "AT+CPBW=" (formatInt (msg.i32 0)))
  | .getSupport => .ok (literal "AT+CPBR=?" 9)

def Formatter.usockRcvPhonebook (msg : UsockMsg) : Builder :=
  match PhonebookType.ofSubtype msg.msgSubtype with
  | none => .error (-EINVAL)
  | some type => phonebook msg type

/-- The handlers that format a command, those of short messages in one of the two modes. -/
inductive Formatter where
  | voicecall | pin | phone | network | sms (textMode : Bool) | cb | phonebook
  deriving DecidableEq, Repr

def Formatter.build : Formatter → UsockMsg → Builder
  | .voicecall => Formatter.usockRcvVoicecall
  | .pin => Formatter.usockRcvPin
  | .phone => Formatter.usockRcvPhone
  | .network => Formatter.usockRcvNetwork
  | .sms textMode => Formatter.usockRcvSms textMode
  | .cb => Formatter.usockRcvCb
  | .phonebook => Formatter.usockRcvPhonebook

def BuilderAct.Good : BuilderAct → Prop
  | .write size count => count ≤ size
  | .lookup size index => index < size
  | .fill rlen text => rlen = text.length + 1

instance : (act : BuilderAct) → Decidable act.Good
  | .write size count => inferInstanceAs (Decidable (count ≤ size))
  | .lookup size index => inferInstanceAs (Decidable (index < size))
  | .fill rlen text => inferInstanceAs (Decidable (rlen = text.length + 1))

def Builder.Keeps (builder : Builder) : Prop := ∀ acts, builder = .ok acts → ∀ act ∈ acts, act.Good

variable {text : List Byte}

namespace Builder

theorem keeps_error (rc : ℤ) : Keeps (.error rc) := fun acts hok => by cases hok

theorem keeps_ok_iff {acts : List BuilderAct} : Keeps (.ok acts) ↔ ∀ act ∈ acts, act.Good :=
  ⟨fun hkeeps => hkeeps acts rfl, fun hgood _ hok => Except.ok.inj hok ▸ hgood⟩

theorem keeps_check_iff {cond : Prop} [Decidable cond] {rc : ℤ} {builder : Builder} :
    Keeps (if cond then .error rc else builder) ↔ (¬cond → builder.Keeps) := by
  split
  next hcond => exact iff_of_true (keeps_error rc) fun hnot => absurd hcond hnot
  next hcond => exact ⟨fun hkeeps _ => hkeeps, fun hkeeps => hkeeps hcond⟩

theorem literal_good {text : String} {n : ℕ} (hlength : (ascii text).length = n) :
    ∀ act ∈ literal text n, act.Good := by
  intro act hact
  rw [List.mem_singleton.mp hact]
  exact congrArg (· + 1) hlength.symm

theorem printFill_good_iff {size : ℕ} :
    (∀ act ∈ printFill size text, act.Good) ↔ text.length + 1 ≤ size := by
  rw [printFill, List.forall_mem_cons, List.forall_mem_singleton]
  exact and_iff_left rfl

theorem fillPrint_good_iff {command : String} {rlen : ℕ} :
    (∀ act ∈ fillPrint command rlen text, act.Good) ↔ rlen = text.length + 1 := by
  rw [fillPrint, List.forall_mem_cons, List.forall_mem_singleton]
  refine and_iff_right_of_imp fun hlength => ?_
  have hlength : rlen = text.length + 1 := hlength
  exact hlength ▸ le_max_left _ _

end Builder

namespace UsockMsg

variable (msg : UsockMsg)

theorem u8_lt (i : ℕ) : msg.u8 i < 256 := (msg.data.getD i 0).toNat_lt

theorem length_u8_le (i : ℕ) : (decimal (msg.u8 i)).length ≤ 3 :=
  length_decimal_le (by decide) ((msg.u8_lt i).trans (by decide))

theorem length_i32_le (i : ℕ) : (formatInt (msg.i32 i)).length ≤ 11 := by
  have hfirst := msg.u8_lt i
  have hsecond := msg.u8_lt (i + 1)
  have hthird := msg.u8_lt (i + 2)
  have hfourth := msg.u8_lt (i + 3)
  refine length_formatInt_le (by decide) ?_
  rw [i32, u32]
  split <;> omega

end UsockMsg

/-! ### Voice calls -/

def voicecallKept (msg : UsockMsg) : VoicecallType → Prop
  | .dtmf => MSG_HDR_SIZE + 2 ≤ msg.len → msg.u8 0 = 1 → msg.data.getD 1 0 ≠ NUL
  | .ctrl =>
    MSG_HDR_SIZE + 5 ≤ msg.len → msg.u32 0 ≤ 6 → (msg.u32 0 = 3 ∨ msg.u32 0 = 5) ∧ msg.u8 4 < 10
  | .fwdReg =>
    MSG_HDR_SIZE + 4 ≤ msg.len →
      (formatInt (msg.i32 0)).length + (msg.string 5).length ≤ 58
  | _ => True

theorem callForward_good_iff {buf : List Byte} :
    (∀ act ∈ callForward buf, act.Good) ↔ buf.length + 1 ≤ 64 := by
  rw [callForward, List.forall_mem_cons, fillPrint_good_iff, List.length_append,
    show (ascii "AT+CCFC=").length = 8 from rfl]
  refine and_iff_left ?_
  omega

theorem callForwardMode_keeps (msg : UsockMsg) {mode : String} (hmode : (ascii mode).length = 2) :
    (callForwardMode msg mode).Keeps := by
  have hreason := msg.length_i32_le 0
  rw [callForwardMode, keeps_check_iff, keeps_ok_iff, callForward_good_iff, List.length_append,
    hmode]
  omega

theorem dtmf_good_iff {key : Byte} :
    (∀ act ∈ [print 10 (ascii "AT+VTS=" ++ [key] ++ ascii ";"),
      .fill 10 (cstr (ascii "AT+VTS=" ++ [key] ++ ascii ";"))], act.Good) ↔ key ≠ NUL := by
  rw [List.forall_mem_cons, List.forall_mem_singleton]
  refine (and_iff_right (le_refl 10)).trans ?_
  by_cases hkey : key = NUL
  · subst hkey
    exact iff_of_false (by decide) fun hne => hne rfl
  · refine iff_of_true ?_ hkey
    have hnul : NUL ∉ ascii "AT+VTS=" ++ [key] ++ ascii ";" := by
      simp only [List.mem_append, List.mem_singleton, not_or]
      exact ⟨⟨by decide, Ne.symm hkey⟩, by decide⟩
    rw [cstr_eq_self hnul]
    rfl

theorem callCtrl_eq_none_iff (idx proc : ℕ) : callCtrl idx proc = none ↔ 6 < proc := by
  match proc with
  | 0 | 1 | 2 | 3 | 4 | 5 | 6 => simp [callCtrl]
  | proc + 7 => exact iff_of_true rfl (by omega)

theorem callCtrl_good_iff {idx proc : ℕ} {digits : List Byte}
    (hdigits : callCtrl idx proc = some digits) :
    (∀ act ∈ fillPrint "AT+CHLD=" (1 + 8 + 2) (ascii "AT+CHLD=" ++ digits), act.Good) ↔
      (proc = 3 ∨ proc = 5) ∧ idx < 10 := by
  have hone : ∀ mode : String, (ascii mode).length = 1 →
      ((ascii mode ++ decimal idx).length = 2 ↔ idx < 10) := by
    intro mode hmode
    rw [List.length_append, hmode]
    constructor
    · intro hlength
      have hlt := lt_pow_length_decimal idx
      rwa [show (decimal idx).length = 1 by omega] at hlt
    · intro hidx
      have hlength := length_decimal_le (k := 1) (by decide) hidx
      have hpos := List.length_pos_of_ne_nil (decimal_ne_nil idx)
      omega
  have htwo : 1 + 8 + 2 = (ascii "AT+CHLD=" ++ digits).length + 1 ↔ digits.length = 2 := by
    rw [List.length_append, show (ascii "AT+CHLD=").length = 8 from rfl]
    omega
  rw [fillPrint_good_iff, htwo]
  unfold callCtrl at hdigits
  split at hdigits <;> cases hdigits
  · exact iff_of_false (by decide) (by simp)
  · exact iff_of_false (by decide) (by simp)
  · exact iff_of_false (by decide) (by simp)
  · exact (hone "1" rfl).trans (and_iff_right (.inl rfl)).symm
  · exact iff_of_false (by decide) (by simp)
  · exact (hone "2" rfl).trans (and_iff_right (.inr rfl)).symm
  · exact iff_of_false (by decide) (by simp)

theorem voicecall_keeps_iff (msg : UsockMsg) (type : VoicecallType) :
    (voicecall msg type).Keeps ↔ voicecallKept msg type := by
  cases type with
  | dial =>
    rw [voicecall, keeps_check_iff, keeps_ok_iff, fillPrint_good_iff]
    refine iff_of_true (fun _ => ?_) trivial
    rw [List.length_append, List.length_append, show (ascii "ATD").length = 3 from rfl,
      show (ascii ";").length = 1 from rfl]
    omega
  | hangup => exact iff_of_true (keeps_ok_iff.mpr (literal_good rfl)) trivial
  | answer => exact iff_of_true (keeps_ok_iff.mpr (literal_good rfl)) trivial
  | dtmf =>
    rw [voicecall, keeps_check_iff, keeps_check_iff, keeps_check_iff, voicecallKept]
    constructor
    · intro hkeeps hlen hone
      have hgood := keeps_ok_iff.mp (hkeeps (by omega) (by omega) (not_not.mpr hone))
      rw [hone] at hgood
      exact dtmf_good_iff.mp hgood
    · intro hkey _ hlen hone
      have hone : msg.u8 0 = 1 := not_not.mp hone
      rw [keeps_ok_iff, hone]
      exact dtmf_good_iff.mpr (hkey (by omega) hone)
  | getStat => exact iff_of_true (keeps_ok_iff.mpr (literal_good rfl)) trivial
  | ctrl =>
    rw [voicecall, keeps_check_iff, voicecallKept, Nat.not_lt]
    refine imp_congr_right fun _ => ?_
    have hproc := callCtrl_eq_none_iff (msg.u8 4) (msg.u32 0)
    cases hdigits : callCtrl (msg.u8 4) (msg.u32 0) with
    | none =>
      have hlarge := hproc.mp hdigits
      exact iff_of_true (keeps_error _) fun hsmall => absurd hsmall (Nat.not_le.mpr hlarge)
    | some digits =>
      have hsmall : msg.u32 0 ≤ 6 := by
        by_contra hlarge
        rw [hproc.mpr (Nat.not_le.mp hlarge)] at hdigits
        cases hdigits
      rw [keeps_ok_iff, callCtrl_good_iff hdigits]
      exact ⟨fun hnamed _ => hnamed, fun hnamed => hnamed hsmall⟩
  | fwdDis => exact iff_of_true (callForwardMode_keeps msg rfl) trivial
  | fwdEn => exact iff_of_true (callForwardMode_keeps msg rfl) trivial
  | fwdStat => exact iff_of_true (callForwardMode_keeps msg rfl) trivial
  | fwdReg =>
    rw [voicecall, keeps_check_iff, keeps_ok_iff, callForward_good_iff, voicecallKept, Nat.not_lt]
    refine imp_congr_right fun _ => ?_
    rw [List.length_append, List.length_append, List.length_append,
      show (ascii ",3,\"").length = 4 from rfl, show (ascii "\"").length = 1 from rfl]
    omega
  | fwdEras => exact iff_of_true (callForwardMode_keeps msg rfl) trivial

def pinKept (msg : UsockMsg) : Prop :=
  msg.msgSubtype = 1 → SIZEOF_PIN ≤ msg.hdrLen → SIZEOF_PIN + MSG_HDR_SIZE ≤ msg.len →
    if needsNewpin msg then 16 ≤ (msg.string 4).length + (msg.string 13).length
    else 19 ≤ (msg.string 4).length

theorem length_strlcat {dst : List Byte} (src : List Byte) {size : ℕ} (hdst : dst.length < size) :
    (strlcat dst src size).length = min (size - 1) (dst.length + src.length) := by
  rw [strlcat, if_pos hdst, List.length_take, List.length_append]

theorem pin_good_iff (msg : UsockMsg) :
    Keeps
        (let rlen := 9 + GSMD_PIN_MAXLEN + 3 + GSMD_PIN_MAXLEN + 2
        let buf := strlcat (ascii "AT+CPIN=\"") (msg.string 4) rlen
        let buf :=
          if needsNewpin msg then strlcat (strlcat buf (ascii "\",\"") rlen) (msg.string 13) rlen
          else buf
        let buf := strlcat buf (ascii "\"") rlen
        .ok [print rlen buf, .fill rlen buf]) ↔
      if needsNewpin msg then 16 ≤ (msg.string 4).length + (msg.string 13).length
      else 19 ≤ (msg.string 4).length := by
  have hcommand : (ascii "AT+CPIN=\"").length = 9 := rfl
  have hcomma : (ascii "\",\"").length = 3 := rfl
  have hquote : (ascii "\"").length = 1 := rfl
  have hfull : ∀ {buf : List Byte}, buf.length ≤ 29 →
      ((∀ act ∈ [print 30 buf, .fill 30 buf], act.Good) ↔ buf.length = 29) := by
    intro buf hbuf
    rw [List.forall_mem_cons, List.forall_mem_singleton, print, BuilderAct.Good, BuilderAct.Good]
    omega
  simp only [GSMD_PIN_MAXLEN, Nat.reduceAdd]
  have hpin : (strlcat (ascii "AT+CPIN=\"") (msg.string 4) 30).length =
      min 29 (9 + (msg.string 4).length) := by
    rw [length_strlcat _ (by rw [hcommand]; decide), hcommand]
  split
  next hnewpin =>
    have hsecond : (strlcat (strlcat (ascii "AT+CPIN=\"") (msg.string 4) 30) (ascii "\",\"")
        30).length = min 29 (min 29 (9 + (msg.string 4).length) + 3) := by
      rw [length_strlcat _ (by rw [hpin]; omega), hpin, hcomma]
    have hthird : (strlcat (strlcat (strlcat (ascii "AT+CPIN=\"") (msg.string 4) 30)
        (ascii "\",\"") 30) (msg.string 13) 30).length =
          min 29 (min 29 (min 29 (9 + (msg.string 4).length) + 3) + (msg.string 13).length) := by
      rw [length_strlcat _ (by rw [hsecond]; omega), hsecond]
    have hlast := length_strlcat (ascii "\"")
      (show (strlcat (strlcat (strlcat (ascii "AT+CPIN=\"") (msg.string 4) 30)
        (ascii "\",\"") 30) (msg.string 13) 30).length < 30 by rw [hthird]; omega)
    rw [keeps_ok_iff, hfull (by rw [hlast]; exact min_le_left _ _), hlast, hthird, hquote]
    omega
  next hpinOnly =>
    have hlast := length_strlcat (ascii "\"")
      (show (strlcat (ascii "AT+CPIN=\"") (msg.string 4) 30).length < 30 by rw [hpin]; omega)
    rw [keeps_ok_iff, hfull (by rw [hlast]; exact min_le_left _ _), hlast, hpin, hquote]
    omega

theorem pin_keeps_iff (msg : UsockMsg) : (Formatter.usockRcvPin msg).Keeps ↔ pinKept msg := by
  unfold Formatter.usockRcvPin pinKept
  split
  next hinput =>
    rw [keeps_check_iff, not_or, Nat.not_lt, Nat.not_lt, and_imp, forall_prop_of_true hinput]
    refine imp_congr_right fun _ => imp_congr_right fun _ => ?_
    exact pin_good_iff msg
  next hstatus =>
    rw [hstatus]
    exact iff_of_true (keeps_ok_iff.mpr (literal_good rfl)) fun hinput => absurd hinput (by decide)
  next hinput hstatus => exact iff_of_true (keeps_error _) fun heq => absurd heq hinput

theorem phone_keeps (msg : UsockMsg) : (Formatter.usockRcvPhone msg).Keeps := by
  unfold Formatter.usockRcvPhone
  split
  case h_4 => exact keeps_ok_iff.mpr (List.forall_mem_nil _)
  case h_12 => exact keeps_error _
  all_goals exact keeps_ok_iff.mpr (literal_good rfl)

theorem cb_keeps (msg : UsockMsg) : (Formatter.usockRcvCb msg).Keeps := by
  unfold Formatter.usockRcvCb
  split
  · exact keeps_ok_iff.mpr (literal_good rfl)
  · exact keeps_ok_iff.mpr (literal_good rfl)
  · exact keeps_error _

def networkKept (msg : UsockMsg) : NetworkType → Prop
  | .vmailSet => (msg.string 2).length + (decimal (msg.u8 1)).length ≤ 7
  | _ => True

theorem length_operText_le (msg : UsockMsg) : (operText msg).length ≤ 6 := by
  rw [operText, List.length_take, SIZEOF_OPER]
  exact min_le_left _ _

theorem network_good_iff (msg : UsockMsg) (type : NetworkType) :
    (∀ act ∈ network msg type, act.Good) ↔ networkKept msg type := by
  have hoper := length_operText_le msg
  cases type with
  | register =>
    refine iff_of_true ?_ trivial
    rw [network, printFill_good_iff, NETWORK_BUF_SIZE, SIZEOF_OPER]
    split
    · rw [List.length_append, List.length_append,
        show (ascii "AT+COPS=1,2,\"").length = 13 from rfl, show (ascii "\"").length = 1 from rfl]
      omega
    · decide
  | vmailSet =>
    rw [network, printFill_good_iff, networkKept, NETWORK_BUF_SIZE, SIZEOF_OPER, List.length_append,
      List.length_append, List.length_append, show (ascii "AT+CSVM=1,\"").length = 11 from rfl,
      show (ascii "\",").length = 2 from rfl]
    omega
  | prefDel =>
    have hindex := msg.length_i32_le 0
    refine iff_of_true ?_ trivial
    rw [network, printFill_good_iff, NETWORK_BUF_SIZE, SIZEOF_OPER, List.length_append,
      show (ascii "AT+CPOL=").length = 8 from rfl]
    omega
  | prefAdd =>
    refine iff_of_true ?_ trivial
    rw [network, printFill_good_iff, NETWORK_BUF_SIZE, SIZEOF_OPER, List.length_append,
      List.length_append, show (ascii "AT+CPOL=,2,\"").length = 12 from rfl,
      show (ascii "\"").length = 1 from rfl]
    omega
  | operGet | operNGet | prefList =>
    exact iff_of_true (List.forall_mem_append.mpr ⟨literal_good rfl, literal_good rfl⟩) trivial
  | sigqGet | vmailGet | operList | deregister | getNumber | prefSpace | queryReg =>
    exact iff_of_true (literal_good rfl) trivial

/-! ### Short messages -/

def payloadText (msg : UsockMsg) (i : ℕ) : List Byte :=
  (msg.string (i + 73)).take (msg.u8 (i + 34))

def submitKept (msg : UsockMsg) (i : ℕ) : Prop :=
  if textMode then (msg.string (i + 1)).length + (payloadText msg i).length ≤ 1011
  else (msg.string (i + 1)).length ≤ 78

def smsKept (textMode : Bool) (msg : UsockMsg) : SmsType → Prop
  | .send => MSG_HDR_SIZE + SIZEOF_SUBMIT ≤ msg.len → submitKept textMode msg 0
  | .write =>
    MSG_HDR_SIZE + (1 + SIZEOF_SUBMIT) ≤ msg.len → msg.u8 0 ≤ 4 → submitKept textMode msg 1
  | .setMsgStorage =>
    MSG_HDR_SIZE + 3 * 4 ≤ msg.len → msg.u32 0 < 7 ∧ msg.u32 4 < 7 ∧ msg.u32 8 < 7
  | .setServiceCentre =>
    MSG_HDR_SIZE + SIZEOF_ADDR ≤ msg.len →
      (msg.string 1).length + (decimal (msg.u8 0)).length ≤ 1012
  | _ => True

theorem smsFill_good_iff : (∀ act ∈ smsFill text, act.Good) ↔ text.length + 2 ≤ SMS_BUF_SIZE := by
  rw [smsFill, List.forall_mem_cons, List.forall_mem_singleton]
  refine and_iff_left ?_
  rw [BuilderAct.Good, List.length_append, List.length_singleton]

theorem length_hexText (octets : List Byte) : (hexText octets).length = 2 * octets.length := by
  induction octets with
  | nil => rfl
  | cons octet octets ih =>
    rw [hexText, List.flatMap_cons, ← hexText, List.length_append, ih, List.length_cons]
    simp only [List.length_cons, List.length_nil]
    omega

theorem length_submitHeader (msg : UsockMsg) (i : ℕ) :
    (smsSubmitHeader (smsSubmitAt msg i)).length = 8 + ((msg.string (i + 1)).length + 1) / 2 := by
  have hnumber : cstr (smsSubmitAt msg i).addr.number = msg.string (i + 1) := rfl
  rw [smsSubmitHeader, List.length_append, List.length_append, semiOctets_length, hnumber]
  simp only [List.length_cons, List.length_nil]
  omega

theorem smsDataBytelen_le (scheme length : Byte) : smsDataBytelen scheme length ≤ 255 := by
  have hlt := length.toNat_lt
  unfold smsDataBytelen
  split_ifs <;> omega

theorem fst_smsPduMakeSmssubmit_le (dest : Bool) (src : GsmdSmsSubmit) :
    (smsPduMakeSmssubmit dest src).1 ≤ (smsSubmitHeader src).length + 255 :=
  Nat.add_le_add_left (smsDataBytelen_le _ _) _

theorem length_snd_smsPduMakeSmssubmit (src : GsmdSmsSubmit) :
    (smsPduMakeSmssubmit true src).2.length = 2 * (smsPduMakeSmssubmit true src).1 := by
  simp only [smsPduMakeSmssubmit, if_true, List.length_append, length_hexText, List.length_map,
    List.length_range]
  omega

theorem smsSubmitCommand_good_iff (msg : UsockMsg) (i : ℕ)
    {textCommand : String} {pduCommand : ℤ → List Byte} (htext : (ascii textCommand).length = 8)
    (hpdu : ∀ length : ℤ, length.natAbs < 10 ^ 4 → (pduCommand length).length ≤ 20) :
    (∀ act ∈ smsSubmitCommand textMode msg i textCommand pduCommand, act.Good) ↔
      submitKept textMode msg i := by
  unfold smsSubmitCommand submitKept
  split
  next hmode =>
    rw [smsFill_good_iff, ← payloadText, SMS_BUF_SIZE, List.length_append, List.length_append,
      List.length_append, List.length_append, htext, show (ascii "\"").length = 1 from rfl,
      show (ascii "\"\n").length = 2 from rfl]
    omega
  next hmode =>
    have hheader := length_submitHeader msg i
    have hmade := fst_smsPduMakeSmssubmit_le true (smsSubmitAt msg i)
    have hhex := length_snd_smsPduMakeSmssubmit (smsSubmitAt msg i)
    have hhdr : (smsSubmitHeader (smsSubmitAt msg i)).length ≤ SUBMIT_HEADER_SIZE ↔
        (msg.string (i + 1)).length ≤ 78 := by
      rw [hheader, SUBMIT_HEADER_SIZE, GSMD_ADDR_MAXLEN]
      omega
    rw [List.forall_mem_cons, smsFill_good_iff, BuilderAct.Good, hhdr]
    refine and_iff_left_of_imp fun hnumber => ?_
    have hcommand := hpdu (((smsPduMakeSmssubmit true (smsSubmitAt msg i)).1 : ℤ) - 1) (by omega)
    rw [List.length_append, hhex, SMS_BUF_SIZE]
    omega

theorem length_getD_le {table : List (List Byte)} {n : ℕ}
    (htable : ∀ name ∈ table, name.length ≤ n) (i : ℕ) : (table.getD i []).length ≤ n := by
  rw [List.getD_eq_getElem?_getD]
  cases hname : table[i]? with
  | none => exact Nat.zero_le n
  | some name => exact htable name (List.mem_of_getElem? hname)

theorem gsmdCmglStat_le : ∀ name ∈ gsmdCmglStat, name.length ≤ 10 := by decide

theorem ts0705MemtypeName_le : ∀ name ∈ ts0705MemtypeName, name.length ≤ 4 := by decide

theorem storageLookups_good_iff (msg : UsockMsg) :
    (∀ act ∈ [msg.u32 0, msg.u32 4, msg.u32 8].map (.lookup ts0705MemtypeName.length),
        BuilderAct.Good act) ↔ msg.u32 0 < 7 ∧ msg.u32 4 < 7 ∧ msg.u32 8 < 7 := by
  rw [List.forall_mem_map, List.forall_mem_cons, List.forall_mem_cons, List.forall_mem_singleton]
  rfl

theorem storagePrint_good (msg : UsockMsg) :
    ∀ act ∈ (match storageNames msg with
      | none => []
      | some (first, second, third) =>
        printFill SMS_BUF_SIZE (ascii "AT+CPMS=\"" ++ first ++ ascii "\",\"" ++ second ++
          ascii "\",\"" ++ third ++ ascii "\"")), act.Good := by
  cases hnames : storageNames msg with
  | none => exact List.forall_mem_nil _
  | some names =>
    obtain ⟨first, second, third⟩ := names
    simp only [storageNames, Option.bind_eq_bind, Option.bind_eq_some_iff] at hnames
    obtain ⟨name₁, hfirst, name₂, hsecond, name₃, hthird, heq⟩ := hnames
    cases heq
    have hlen₁ := ts0705MemtypeName_le _ (List.mem_of_getElem? hfirst)
    have hlen₂ := ts0705MemtypeName_le _ (List.mem_of_getElem? hsecond)
    have hlen₃ := ts0705MemtypeName_le _ (List.mem_of_getElem? hthird)
    refine printFill_good_iff.mpr ?_
    simp only [List.length_append]
    rw [show (ascii "AT+CPMS=\"").length = 9 from rfl, show (ascii "\",\"").length = 3 from rfl,
      show (ascii "\"").length = 1 from rfl, SMS_BUF_SIZE]
    omega

theorem sms_keeps_iff (msg : UsockMsg) (type : SmsType) :
    (sms textMode msg type).Keeps ↔ smsKept textMode msg type := by
  have hindex := msg.length_i32_le 0
  have hfirst := msg.length_u8_le 0
  have hsecond := msg.length_u8_le 1
  cases type with
  | list =>
    rw [sms, keeps_check_iff, keeps_check_iff]
    refine iff_of_true (fun _ hstat => ?_) trivial
    have hstat : (msg.i32 0).toNat < gsmdCmglStat.length := by
      rw [show gsmdCmglStat.length = 5 from rfl]
      omega
    split
    · rw [keeps_ok_iff, List.forall_mem_cons, printFill_good_iff]
      refine ⟨hstat, ?_⟩
      have hname := length_getD_le gsmdCmglStat_le (msg.i32 0).toNat
      simp only [List.length_append]
      rw [show (ascii "AT+CMGL=\"").length = 9 from rfl, show (ascii "\"").length = 1 from rfl,
        SMS_BUF_SIZE]
      omega
    · rw [keeps_ok_iff, printFill_good_iff, List.length_append,
        show (ascii "AT+CMGL=").length = 8 from rfl, SMS_BUF_SIZE]
      omega
  | read =>
    rw [sms, keeps_check_iff, keeps_ok_iff, printFill_good_iff]
    refine iff_of_true (fun _ => ?_) trivial
    rw [List.length_append, show (ascii "AT+CMGR=").length = 8 from rfl, SMS_BUF_SIZE]
    omega
  | send =>
    rw [sms, keeps_check_iff, keeps_ok_iff, Nat.not_lt]
    refine imp_congr_right fun _ => smsSubmitCommand_good_iff textMode msg 0 rfl ?_
    intro length hlength
    have hdigits := length_formatInt_le (by decide) hlength
    rw [List.length_append, List.length_append, show (ascii "AT+CMGS=").length = 8 from rfl,
      show (ascii "\n").length = 1 from rfl]
    omega
  | write =>
    rw [sms, keeps_check_iff, keeps_check_iff, keeps_ok_iff, Nat.not_lt, Nat.not_lt]
    refine imp_congr_right fun _ => imp_congr_right fun _ =>
      smsSubmitCommand_good_iff textMode msg 1 rfl ?_
    intro length hlength
    have hdigits := length_formatInt_le (by decide) hlength
    simp only [List.length_append]
    rw [show (ascii "AT+CMGW=").length = 8 from rfl, show (ascii ",").length = 1 from rfl,
      show (ascii "\n").length = 1 from rfl]
    omega
  | delete =>
    rw [sms, keeps_check_iff, keeps_ok_iff, printFill_good_iff]
    refine iff_of_true (fun _ => ?_) trivial
    simp only [List.length_append]
    rw [show (ascii "AT+CMGD=").length = 8 from rfl, show (ascii ",").length = 1 from rfl,
      SMS_BUF_SIZE]
    omega
  | getMsgStorage | getServiceCentre =>
    exact iff_of_true (keeps_ok_iff.mpr (literal_good rfl)) trivial
  | setMsgStorage =>
    rw [sms, keeps_check_iff, keeps_ok_iff, smsKept, Nat.not_lt]
    refine imp_congr_right fun _ => ?_
    rw [List.forall_mem_append]
    exact (and_iff_left (storagePrint_good msg)).trans (storageLookups_good_iff msg)
  | setServiceCentre =>
    rw [sms, keeps_check_iff, keeps_ok_iff, printFill_good_iff, smsKept, Nat.not_lt]
    refine imp_congr_right fun _ => ?_
    simp only [List.length_append]
    rw [show (ascii "AT+CSCA=\"").length = 9 from rfl, show (ascii "\",").length = 2 from rfl,
      SMS_BUF_SIZE]
    omega

def phonebookKept (msg : UsockMsg) : PhonebookType → Prop
  | .setStorage => MSG_HDR_SIZE + 3 ≤ msg.len → (msg.string 0).length = 2
  | .write =>
    MSG_HDR_SIZE + 62 ≤ msg.len →
      (formatInt (msg.i8 0)).length + (msg.string 1).length + (decimal (msg.u8 46)).length +
        (msg.string 47).length ≤ 1016
  | _ => True

theorem phonebookPrint_good_iff {command : String} {buf : List Byte} :
    (∀ act ∈ phonebookPrint command buf, act.Good) ↔ buf.length + 1 ≤ PHONEBOOK_BUF_SIZE := by
  rw [phonebookPrint, List.forall_mem_cons, fillPrint_good_iff, List.length_append]
  refine and_iff_left ?_
  omega

theorem phonebook_keeps_iff (msg : UsockMsg) (type : PhonebookType) :
    (phonebook msg type).Keeps ↔ phonebookKept msg type := by
  have hindex := msg.length_i32_le 0
  have hfirst := msg.length_u8_le 0
  have hsecond := msg.length_u8_le 1
  cases type with
  | listStorage | getSupport => exact iff_of_true (keeps_ok_iff.mpr (literal_good rfl)) trivial
  | setStorage =>
    rw [phonebook, keeps_check_iff, keeps_ok_iff, fillPrint_good_iff, phonebookKept, Nat.not_lt]
    refine imp_congr_right fun _ => ?_
    simp only [List.length_append]
    rw [show (ascii "AT+CPBS=\"").length = 9 from rfl, show (ascii "\"").length = 1 from rfl]
    omega
  | find =>
    rw [phonebook, keeps_check_iff, keeps_ok_iff, fillPrint_good_iff]
    refine iff_of_true (fun _ => ?_) trivial
    simp only [List.length_append]
    rw [show (ascii "AT+CPBF=\"").length = 9 from rfl, show (ascii "\"").length = 1 from rfl]
    omega
  | read | delete =>
    rw [phonebook, keeps_check_iff, keeps_ok_iff, phonebookPrint_good_iff]
    refine iff_of_true (fun _ => ?_) trivial
    rw [PHONEBOOK_BUF_SIZE]
    omega
  | readrg =>
    rw [phonebook, keeps_check_iff, keeps_ok_iff, phonebookPrint_good_iff]
    refine iff_of_true (fun _ => ?_) trivial
    simp only [List.length_append]
    rw [show (ascii ",").length = 1 from rfl, PHONEBOOK_BUF_SIZE]
    omega
  | write =>
    rw [phonebook, keeps_check_iff, keeps_ok_iff, phonebookPrint_good_iff, phonebookKept,
      Nat.not_lt]
    refine imp_congr_right fun _ => ?_
    simp only [List.length_append]
    rw [show (ascii ",\"").length = 2 from rfl, show (ascii "\",").length = 2 from rfl,
      show (ascii "\"").length = 1 from rfl, PHONEBOOK_BUF_SIZE]
    omega

/-- The condition of the kind of request that the message is, if it is one. -/
def Formatter.Kept (msg : UsockMsg) : Formatter → Prop
  | .voicecall => ∀ type ∈ VoicecallType.ofSubtype msg.msgSubtype, voicecallKept msg type
  | .pin => pinKept msg
  | .phone => True
  | .network => ∀ type ∈ NetworkType.ofSubtype msg.msgSubtype, networkKept msg type
  | .sms textMode => ∀ type ∈ SmsType.ofSubtype msg.msgSubtype, smsKept textMode msg type
  | .cb => True
  | .phonebook => ∀ type ∈ PhonebookType.ofSubtype msg.msgSubtype, phonebookKept msg type

theorem keeps_none_iff {κ : Type} {kept : κ → Prop} (rc : ℤ) :
    Keeps (.error rc) ↔ ∀ type ∈ (none : Option κ), kept type :=
  iff_of_true (keeps_error rc) fun type hmem => by cases hmem

theorem keeps_some_iff {κ : Type} {kept : κ → Prop} {type : κ} {builder : Builder}
    (hkeeps : builder.Keeps ↔ kept type) : builder.Keeps ↔ ∀ kind ∈ some type, kept kind := by
  simp only [Option.mem_some_iff, forall_eq', hkeeps]

/-- **Requests and their buffers.** What a handler formats for a message fits, with its NUL, into
the array it is formatted into, every index is inside its table, and `atcmd_fill` is called with the
length of the text and its NUL, exactly when the condition of that kind of request holds of the
message's fields. -/
theorem build_keeps_iff (formatter : Formatter) (msg : UsockMsg) :
    (formatter.build msg).Keeps ↔ formatter.Kept msg := by
  cases formatter with
  | voicecall =>
    rw [Formatter.build, Formatter.usockRcvVoicecall, Formatter.Kept]
    cases VoicecallType.ofSubtype msg.msgSubtype with
    | none => exact keeps_none_iff _
    | some type => exact keeps_some_iff (voicecall_keeps_iff msg type)
  | pin => exact pin_keeps_iff msg
  | phone => exact iff_of_true (phone_keeps msg) trivial
  | network =>
    rw [Formatter.build, Formatter.usockRcvNetwork, Formatter.Kept]
    cases NetworkType.ofSubtype msg.msgSubtype with
    | none => exact keeps_none_iff _
    | some type => exact keeps_some_iff (keeps_ok_iff.trans (network_good_iff msg type))
  | sms textMode =>
    rw [Formatter.build, Formatter.usockRcvSms, Formatter.Kept]
    cases SmsType.ofSubtype msg.msgSubtype with
    | none => exact keeps_none_iff _
    | some type => exact keeps_some_iff (sms_keeps_iff textMode msg type)
  | cb => exact iff_of_true (cb_keeps msg) trivial
  | phonebook =>
    rw [Formatter.build, Formatter.usockRcvPhonebook, Formatter.Kept]
    cases PhonebookType.ofSubtype msg.msgSubtype with
    | none => exact keeps_none_iff _
    | some type => exact keeps_some_iff (phonebook_keeps_iff msg type)

def farCall : UsockMsg where
  msgSubtype := 8
  hdrLen := 8
  len := MSG_HDR_SIZE + 8
  data := [3, 0, 0, 0, 255, 0, 0, 0]
  received := le_refl _

/-- `AT+CHLD=1255` needs thirteen bytes, and eleven are allocated for it. -/
theorem farCall_overrun :
    ¬ ∀ (formatter : Formatter) (msg : UsockMsg), (formatter.build msg).Keeps := by
  intro hkeeps
  have hgood := hkeeps .voicecall farCall _ rfl (.write 11 13) (List.mem_cons_self ..)
  exact absurd hgood (by decide)

end Openmoko.Gsmd
