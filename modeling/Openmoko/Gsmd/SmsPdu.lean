import Openmoko.Library.CString

/-!
# SMS PDUs

`gsmd/sms_pdu.c`: the encoder of SMS-SUBMIT and the decoder of stored and received messages. Octets
are read from the array the decoder is given; a read past its end is an outcome of its own, as is a
refusal (a return value of 1). The pointer `src` and the length `len`, which the code moves
together, are the list of octets that are left. The number of an address is what is written before
its terminator.
-/

namespace Openmoko.Gsmd

def GSMD_ADDR_MAXLEN : Nat := 32
def GSMD_SMS_DATA_MAXLEN : Nat := 164

def GSMD_TOA_TON_ALPHANUMERIC : Byte := 0x50
def GSMD_TOA_TON_MASK : Byte := 0x70

def ALPHABET_DEFAULT : Byte := 0x00
def ALPHABET_8BIT : Byte := 0x04
def ALPHABET_UCS2 : Byte := 0x08

def GSMD_SMS_TP_MTI_DELIVER : Byte := 0
def GSMD_SMS_TP_MTI_SUBMIT : Byte := 1
def GSMD_SMS_TP_MTI_STATUS_REPORT : Byte := 2

def GSMD_SMS_TP_VPF_NOT_PRESENT : Byte := 0x00
def GSMD_SMS_TP_SRR_STATUS_REQUEST : Byte := 0x20
def GSMD_SMS_TP_SRR_NOT_REQUEST : Byte := 0x00
def GSMD_SMS_TP_UDHI_WITH_HEADER : Byte := 0x40
def GSMD_SMS_TP_UDHI_NO_HEADER : Byte := 0x00
def GSMD_SMS_TP_RP_NOT_SET : Byte := 0x00

inductive MsgClass where
  | class0
  | class1
  | class2
  | class3
  | none
  deriving DecidableEq, Repr

inductive AlphabetType where
  | sevenBitDefault
  | eightBit
  | ucs2
  deriving DecidableEq, Repr

inductive MsgWaitingGroup where
  | none
  | discard
  | store
  | none1111
  deriving DecidableEq, Repr

inductive MsgWaitingType where
  | voicemail
  | fax
  | email
  | other
  deriving DecidableEq, Repr

structure DataCodingScheme where
  msgClass : MsgClass
  alphabet : AlphabetType
  isCompressed : Bool
  mwiGroup : MsgWaitingGroup
  mwiActive : Bool
  mwiKind : MsgWaitingType
  rawDcsData : Byte
  deriving DecidableEq, Repr

def msgClassOf (data : Byte) : MsgClass :=
  if data &&& 0x03 = 0 then .class0
  else if data &&& 0x03 = 1 then .class1
  else if data &&& 0x03 = 2 then .class2
  else .class3

def msgWaitingTypeOf (data : Byte) : MsgWaitingType :=
  if data &&& 0x03 = 0 then .voicemail
  else if data &&& 0x03 = 1 then .fax
  else if data &&& 0x03 = 2 then .email
  else .other

def smsPduDecodeDcs (data : Byte) : DataCodingScheme :=
  if data &&& 0xC0 = 0x00 then
    { msgClass := if data &&& 0x10 ≠ 0 then msgClassOf data else .none
      -- the reserved alphabet 3 is read as the default one at the end
      alphabet :=
        if data &&& 0x0C = 0x04 then .eightBit
        else if data &&& 0x0C = 0x08 then .ucs2
        else .sevenBitDefault
      isCompressed := data &&& 0x20 ≠ 0
      mwiGroup := .none
      mwiActive := false
      mwiKind := .other
      rawDcsData := data }
  else if data &&& 0xC0 = 0xC0 then
    if data &&& 0x30 = 0x30 then
      { msgClass := msgClassOf data
        alphabet := if data &&& 0x04 ≠ 0 then .eightBit else .sevenBitDefault
        isCompressed := false
        mwiGroup := .none1111
        mwiActive := false
        mwiKind := .other
        rawDcsData := data }
    else
      { msgClass := .none
        alphabet := if data &&& 0x30 = 0x20 then .ucs2 else .sevenBitDefault
        isCompressed := false
        mwiGroup := if data &&& 0x30 = 0x00 then .discard else .store
        mwiActive := data &&& 0x08 ≠ 0
        mwiKind := msgWaitingTypeOf data
        rawDcsData := data }
  else
    { msgClass := .none
      alphabet := .sevenBitDefault
      isCompressed := false
      mwiGroup := .none
      mwiActive := false
      mwiKind := .other
      rawDcsData := data }

structure GsmdAddr where
  type : Byte
  number : List Byte
  deriving DecidableEq, Repr

structure GsmdSms where
  length : Byte
  codingScheme : Byte
  hasHeader : Bool
  isVoicemail : Bool
  dcs : DataCodingScheme
  tpMti : Byte
  data : List Byte
  data_length : data.length = GSMD_SMS_DATA_MAXLEN + 1
  deriving DecidableEq

structure GsmdSmsSubmit where
  addr : GsmdAddr
  payload : GsmdSms
  askDs : Bool
  deriving DecidableEq

structure GsmdSmsList where
  index : Byte
  timeStamp : List Byte
  addr : GsmdAddr
  payload : GsmdSms
  deriving DecidableEq

def smsNumberBytelen (type len : Byte) : Nat :=
  if type &&& GSMD_TOA_TON_MASK = GSMD_TOA_TON_ALPHANUMERIC then (len.toNat + 1) / 2
  else (len.toNat + 1) / 2

def smsDataBytelen (dataCodingScheme len : Byte) : Nat :=
  if dataCodingScheme = ALPHABET_DEFAULT then (len.toNat * 7 + 7) / 8
  else if dataCodingScheme = ALPHABET_8BIT then len.toNat
  else if dataCodingScheme = ALPHABET_UCS2 then len.toNat
  else 0

def CH_0 : Byte := 48

def semiOctets : List Byte → List Byte
  | [] => []
  | [last] => [(last - CH_0) ||| 0xf0]
  | low :: high :: number => ((low - CH_0) ||| ((high - CH_0) <<< 4)) :: semiOctets number

def smsSubmitHeader (src : GsmdSmsSubmit) : List Byte :=
  [0x00,
    GSMD_SMS_TP_MTI_SUBMIT ||| GSMD_SMS_TP_VPF_NOT_PRESENT |||
      (if src.askDs then GSMD_SMS_TP_SRR_STATUS_REQUEST else GSMD_SMS_TP_SRR_NOT_REQUEST) |||
      (if src.payload.hasHeader then GSMD_SMS_TP_UDHI_WITH_HEADER
        else GSMD_SMS_TP_UDHI_NO_HEADER) |||
      GSMD_SMS_TP_RP_NOT_SET,
    0x00,
    UInt8.ofNat (cstr src.addr.number).length,
    src.addr.type] ++
  semiOctets (cstr src.addr.number) ++
  [0x00, src.payload.codingScheme, src.payload.length]

def hexDigit (n : Nat) : Byte := if n < 10 then UInt8.ofNat (48 + n) else UInt8.ofNat (55 + n)

def hexText (octets : List Byte) : List Byte :=
  octets.flatMap fun b => [hexDigit (b.toNat / 16), hexDigit (b.toNat % 16)]

/-- `sms_pdu_make_smssubmit`: what it returns, and the text it writes unless `dest` is NULL. What
lies behind the data array is taken to be zero. -/
def smsPduMakeSmssubmit (dest : Bool) (src : GsmdSmsSubmit) : Nat × List Byte :=
  let header := smsSubmitHeader src
  let len := smsDataBytelen src.payload.codingScheme src.payload.length
  let data := (List.range len).map fun i => src.payload.data.getD i 0
  (header.length + len, if dest then hexText header ++ hexText data else [])

theorem map_range_getD (l : List Byte) (n : Nat) (hn : n ≤ l.length) :
    (List.range n).map (fun i => l.getD i 0) = l.take n := by
  apply List.ext_getElem
  · simp [hn]
  · intro i hleft hright
    have hi : i < l.length := by
      rw [List.length_take] at hright
      omega
    simp [List.getElem?_eq_getElem hi]

inductive PduFault where
  | refused
  | overrun
  deriving DecidableEq, Repr

variable (src : List Byte)

/-- `src[i]` -/
def octet (i : Nat) : Except PduFault Byte :=
  match src[i]? with
  | some b => .ok b
  | none => .error .overrun

/-- `memcpy(_, src + i, n)` -/
def octets (i n : Nat) : Except PduFault (List Byte) :=
  if i + n ≤ src.length then .ok ((src.drop i).take n) else .error .overrun

def refuseIf (cond : Bool) : Except PduFault Unit := if cond then .error .refused else .ok ()

@[simp]
theorem ok_bind {α β : Type} (a : α) (f : α → Except PduFault β) : (Except.ok a >>= f) = f a := rfl

@[simp]
theorem octet_zero (b : Byte) (src : List Byte) : octet (b :: src) 0 = .ok b := rfl

@[simp]
theorem octet_succ (b : Byte) (src : List Byte) (i : Nat) :
    octet (b :: src) (i + 1) = octet src i := rfl

theorem octet_of_getElem? {src : List Byte} {i : Nat} {b : Byte} (hb : src[i]? = some b) :
    octet src i = .ok b := by
  rw [octet, hb]

theorem refuseIf_of_not {cond : Prop} [Decidable cond] (hcond : ¬cond) :
    refuseIf (decide cond) = .ok () := by
  rw [refuseIf, if_neg]
  simpa using hcond

theorem mapM_ok {α : Type} {f : α → Except PduFault Byte} {g : α → Byte} {l : List α}
    (hf : ∀ a ∈ l, f a = .ok (g a)) : l.mapM f = .ok (l.map g) := by
  induction l with
  | nil => rfl
  | cons a l ih =>
    have hrest : l.mapM f = .ok (l.map g) := ih fun b hb => hf b (by simp [hb])
    rw [List.mapM_cons, hf a (by simp), hrest]
    rfl

def semiOctet (i : Nat) : Except PduFault Byte := do
  let b ← octet src (2 + i / 2)
  return CH_0 + ((b >>> UInt8.ofNat (4 * i % 8)) &&& 0xf)

def addressSeptet (i : Nat) : Except PduFault Byte := do
  let high ← octet src (2 + (i * 7 + 7) / 8)
  let low ← octet src (2 + i * 7 / 8)
  return ((high <<< UInt8.ofNat (7 - (i * 7 + 7) % 8)) ||| (low >>> UInt8.ofNat (i * 7 % 8))) &&&
    0x7f

def smsAddress2ascii : Except PduFault GsmdAddr := do
  let len ← octet src 0
  refuseIf (GSMD_ADDR_MAXLEN < len.toNat)
  let type ← octet src 1
  let number ←
    if type &&& GSMD_TOA_TON_MASK = GSMD_TOA_TON_ALPHANUMERIC then
      -- the bound on `i` is past the last septet of the longest address
      ((List.range GSMD_ADDR_MAXLEN).takeWhile fun i => (i * 7 + 3) / 4 < len.toNat).mapM
        (addressSeptet src)
    else (List.range len.toNat).mapM (semiOctet src)
  return { type := type, number := number }

def codingSchemeOf (dcs : Byte) : Except PduFault Byte :=
  let group := dcs >>> 4
  if group ≤ 3 || group == 0xc then .ok (dcs &&& 0xc)
  else if group = 0xd then .ok ALPHABET_DEFAULT
  else if group = 0xe then .ok ALPHABET_UCS2
  else if group = 0xf then .ok (if dcs &&& 4 ≠ 0 then ALPHABET_8BIT else ALPHABET_DEFAULT)
  else .error .refused

def storeData (data new : List Byte) : List Byte := new ++ 0 :: data.drop (new.length + 1)

theorem storeData_length {data new : List Byte} (hdata : data.length = GSMD_SMS_DATA_MAXLEN + 1)
    (hnew : new.length ≤ GSMD_SMS_DATA_MAXLEN) :
    (storeData data new).length = GSMD_SMS_DATA_MAXLEN + 1 := by
  simp [storeData]
  omega

def userData (payload : GsmdSms) (src : List Byte) : Except PduFault GsmdSms := do
  let length ← octet src 0
  let i := smsDataBytelen payload.codingScheme length
  if hrefuse : src.length < 1 + i ∨ GSMD_SMS_DATA_MAXLEN < i then throw .refused
  else return { payload with
    length := length
    data := storeData payload.data ((src.drop 1).take i)
    data_length := storeData_length payload.data_length (by simp; omega) }

variable (dst : GsmdSmsList)

def smsDeliver (src : List Byte) : Except PduFault GsmdSmsList := do
  refuseIf (src.length < 3)
  let i := smsNumberBytelen (← octet src 2) (← octet src 1)
  refuseIf (src.length < 13 + i)
  let addr ← smsAddress2ascii (src.drop 1)
  let src := src.drop (3 + i)
  let pid ← octet src 0
  let dcs ← octet src 1
  let scheme := smsPduDecodeDcs dcs
  let codingScheme ← codingSchemeOf dcs
  let timeStamp ← octets src 2 7
  let payload ← userData
    { dst.payload with
      tpMti := GSMD_SMS_TP_MTI_DELIVER
      dcs := scheme
      codingScheme := codingScheme
      isVoicemail := pid == 0x5f ||
        (scheme.mwiKind == .voicemail && (scheme.mwiGroup == .discard || scheme.mwiGroup == .store)) }
    (src.drop 9)
  return { dst with addr := addr, timeStamp := timeStamp, payload := payload }

def smsSubmit (vpf : Byte) (src : List Byte) :
    Except PduFault GsmdSmsList := do
  refuseIf (src.length < 4)
  let i := smsNumberBytelen (← octet src 3) (← octet src 2)
  refuseIf (src.length < 8 + i)
  let addr ← smsAddress2ascii (src.drop 2)
  let src := src.drop (4 + i)
  let codingScheme ← codingSchemeOf (← octet src 1)
  let payload ← userData
    { dst.payload with tpMti := GSMD_SMS_TP_MTI_SUBMIT, codingScheme := codingScheme }
    (src.drop (if vpf ≠ 0 then 3 else 2))
  return { dst with addr := addr, timeStamp := List.replicate 7 0, payload := payload }

def smsStatusReport (src : List Byte) : Except PduFault GsmdSmsList := do
  refuseIf (src.length < 3)
  let index ← octet src 1
  let codingScheme ← octet src (src.length - 1)
  let i := smsNumberBytelen (← octet src 3) (← octet src 2)
  refuseIf (src.length < 13 + i)
  let addr ← smsAddress2ascii (src.drop 2)
  let timeStamp ← octets (src.drop (4 + i)) 0 7
  return { dst with
    index := index
    addr := addr
    timeStamp := timeStamp
    payload := { dst.payload with
      tpMti := GSMD_SMS_TP_MTI_STATUS_REPORT
      codingScheme := codingScheme
      length := 0
      data := storeData dst.payload.data []
      data_length := storeData_length dst.payload.data_length (by simp) } }

def smsPduToMsg (src : List Byte) (pdulen : Int) :
    Except PduFault GsmdSmsList := do
  refuseIf (src.length < 1)
  let smsc ← octet src 0
  refuseIf ((src.length : Int) < 1 + smsc.toNat + pdulen || pdulen < 1)
  let src := src.drop (1 + smsc.toNat)
  let first ← octet src 0
  let dst := { dst with
    payload := { dst.payload with
      isVoicemail := false
      hasHeader := first &&& GSMD_SMS_TP_UDHI_WITH_HEADER ≠ 0 } }
  if first &&& 3 = GSMD_SMS_TP_MTI_DELIVER then smsDeliver dst src
  else if first &&& 3 = GSMD_SMS_TP_MTI_SUBMIT then smsSubmit dst ((first >>> 3) &&& 3) src
  else if first &&& 3 = GSMD_SMS_TP_MTI_STATUS_REPORT then smsStatusReport dst src
  else throw .refused

end Openmoko.Gsmd
