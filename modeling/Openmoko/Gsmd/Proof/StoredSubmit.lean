import Openmoko.Gsmd.Proof.SmsPduRoundTrip
import Openmoko.Library.Loop

/-!
# Decoding a stored SMS-SUBMIT

A submit TPDU by its fields, written out as octets, and read by `sms_pdu_to_msg`. Up to the coding
scheme every field is found. The validity period is then skipped as one octet whenever it is there,
and the length check counts one octet even when it is not: the decoder looks at `tail`, what follows
the coding scheme, and finds the user data in it only in some formats.
-/

namespace Openmoko.Gsmd

def AlphabetType.scheme : AlphabetType → Byte
  | .sevenBitDefault => ALPHABET_DEFAULT
  | .eightBit => ALPHABET_8BIT
  | .ucs2 => ALPHABET_UCS2

def AlphabetType.octets : AlphabetType → Nat → Nat
  | .sevenBitDefault, length => (length * 7 + 7) / 8
  | .eightBit, length => length
  | .ucs2, length => length

theorem smsDataBytelen_scheme (alphabet : AlphabetType) (length : Byte) :
    smsDataBytelen alphabet.scheme length = alphabet.octets length.toNat := by
  cases alphabet <;> rfl

inductive Dcs where
  | general (alphabet : AlphabetType) (msgClass : Option (Fin 4))
  | waitingDiscard (active : Bool) (kind : Fin 4)
  | waitingStore (active : Bool) (kind : Fin 4)
  | waitingStoreUcs2 (active : Bool) (kind : Fin 4)
  | dataClass (eightBit : Bool) (msgClass : Fin 4)
  deriving DecidableEq, Repr

def flag (set : Bool) (mask : Byte) : Byte := if set then mask else 0x00

namespace Dcs

def waiting (group : Byte) (active : Bool) (kind : Fin 4) : Byte :=
  group ||| flag active 0x08 ||| UInt8.ofNat kind.val

def octet : Dcs → Byte
  | .general alphabet none => alphabet.scheme
  | .general alphabet (some msgClass) => alphabet.scheme ||| 0x10 ||| UInt8.ofNat msgClass.val
  | .waitingDiscard active kind => waiting 0xC0 active kind
  | .waitingStore active kind => waiting 0xD0 active kind
  | .waitingStoreUcs2 active kind => waiting 0xE0 active kind
  | .dataClass eightBit msgClass =>
    0xF0 ||| flag eightBit 0x04 ||| UInt8.ofNat msgClass.val

def alphabet : Dcs → AlphabetType
  | .general alphabet _ => alphabet
  | .waitingDiscard _ _ => .sevenBitDefault
  | .waitingStore _ _ => .sevenBitDefault
  | .waitingStoreUcs2 _ _ => .ucs2
  | .dataClass eightBit _ => if eightBit then .eightBit else .sevenBitDefault

/-- An active indication in the discard group, whose bit 3 is read as part of an alphabet. -/
def activeDiscard : Dcs → Bool
  | .waitingDiscard active _ => active
  | _ => false

theorem codingSchemeOf_octet (dcs : Dcs) :
    codingSchemeOf dcs.octet =
      .ok (if dcs.activeDiscard then ALPHABET_UCS2 else dcs.alphabet.scheme) := by
  cases dcs with
  | general alphabet msgClass =>
    cases alphabet <;> rcases msgClass with _ | msgClass <;>
      first | rfl | (revert msgClass; decide)
  | waitingDiscard active kind => cases active <;> revert kind <;> decide
  | waitingStore active kind => cases active <;> revert kind <;> decide
  | waitingStoreUcs2 active kind => cases active <;> revert kind <;> decide
  | dataClass eightBit msgClass => cases eightBit <;> revert msgClass <;> decide

end Dcs

inductive ValidityPeriod where
  | notPresent
  | relative (octet : Byte)
  | enhanced (octets : List Byte) (hlen : octets.length = 7)
  | absolute (octets : List Byte) (hlen : octets.length = 7)
  deriving DecidableEq

namespace ValidityPeriod

def format : ValidityPeriod → Byte
  | .notPresent => 0
  | .enhanced _ _ => 1
  | .relative _ => 2
  | .absolute _ _ => 3

theorem format_mem (validity : ValidityPeriod) : validity.format ∈ [0, 1, 2, 3] := by
  cases validity <;> simp [format]

def octets : ValidityPeriod → List Byte
  | .notPresent => []
  | .relative octet => [octet]
  | .enhanced octets _ => octets
  | .absolute octets _ => octets

end ValidityPeriod

def submitOctet (format : Byte) (rejectDuplicates statusReport hasHeader replyPath : Bool) : Byte :=
  GSMD_SMS_TP_MTI_SUBMIT ||| flag rejectDuplicates 0x04 ||| (format <<< 3) |||
    flag statusReport 0x20 ||| flag hasHeader 0x40 ||| flag replyPath 0x80

theorem submitOctet_fields : ∀ format ∈ [0, 1, 2, 3],
    ∀ rejectDuplicates statusReport hasHeader replyPath,
      submitOctet format rejectDuplicates statusReport hasHeader replyPath &&& 3 =
          GSMD_SMS_TP_MTI_SUBMIT ∧
        (submitOctet format rejectDuplicates statusReport hasHeader replyPath >>> 3) &&& 3 =
          format ∧
        decide (submitOctet format rejectDuplicates statusReport hasHeader replyPath &&&
          GSMD_SMS_TP_UDHI_WITH_HEADER ≠ 0) = hasHeader := by
  decide +kernel

structure SubmitTpdu where
  rejectDuplicates : Bool
  statusReport : Bool
  hasHeader : Bool
  replyPath : Bool
  reference : Byte
  type : Byte
  digits : List Byte
  pid : Byte
  dcs : Dcs
  validity : ValidityPeriod
  length : Byte
  data : List Byte
  notAlphanumeric : type &&& GSMD_TOA_TON_MASK ≠ GSMD_TOA_TON_ALPHANUMERIC
  areDigits : ∀ c ∈ digits, isdigit c
  digits_le : digits.length ≤ 20
  data_length : data.length = dcs.alphabet.octets length.toNat
  data_le : data.length ≤ GSMD_SMS_DATA_MAXLEN

namespace SubmitTpdu

variable (tpdu : SubmitTpdu)

def firstOctet : Byte :=
  submitOctet tpdu.validity.format tpdu.rejectDuplicates tpdu.statusReport tpdu.hasHeader
    tpdu.replyPath

def tail : List Byte := tpdu.validity.octets ++ tpdu.length :: tpdu.data

def wire : List Byte :=
  tpdu.firstOctet :: tpdu.reference :: UInt8.ofNat tpdu.digits.length :: tpdu.type ::
    (semiOctets tpdu.digits ++ tpdu.pid :: tpdu.dcs.octet :: tpdu.tail)

theorem firstOctet_type : tpdu.firstOctet &&& 3 = GSMD_SMS_TP_MTI_SUBMIT :=
  (submitOctet_fields _ tpdu.validity.format_mem _ _ _ _).1

theorem firstOctet_vpf : (tpdu.firstOctet >>> 3) &&& 3 = tpdu.validity.format :=
  (submitOctet_fields _ tpdu.validity.format_mem _ _ _ _).2.1

theorem firstOctet_hasHeader :
    decide (tpdu.firstOctet &&& GSMD_SMS_TP_UDHI_WITH_HEADER ≠ 0) = tpdu.hasHeader :=
  (submitOctet_fields _ tpdu.validity.format_mem _ _ _ _).2.2

structure ReadAs (msg : GsmdSmsList) : Prop where
  addr : msg.addr = { type := tpdu.type, number := tpdu.digits }
  codingScheme : msg.payload.codingScheme = tpdu.dcs.alphabet.scheme
  hasHeader : msg.payload.hasHeader = tpdu.hasHeader
  length : msg.payload.length = tpdu.length
  data : payloadOctets msg.payload = tpdu.data

end SubmitTpdu

theorem userData_ok {payload read : GsmdSms} {length : Byte} {rest : List Byte}
    (hread : userData payload (length :: rest) = .ok read) :
    read.length = length ∧ read.codingScheme = payload.codingScheme ∧
      read.hasHeader = payload.hasHeader ∧
      payloadOctets read = rest.take (smsDataBytelen payload.codingScheme length) := by
  rw [userData, octet_zero, ok_bind] at hread
  dsimp only at hread
  split at hread
  next => cases hread
  next haccept =>
    rw [List.length_cons] at haccept
    obtain rfl := Except.ok.inj hread
    refine ⟨rfl, rfl, rfl, ?_⟩
    have hlen : (rest.take (smsDataBytelen payload.codingScheme length)).length =
        smsDataBytelen payload.codingScheme length := by
      rw [List.length_take]
      omega
    have htake := take_storeData payload.data
      (rest.take (smsDataBytelen payload.codingScheme length))
    rw [hlen] at htake
    exact htake

theorem userData_accepts (payload : GsmdSms) (length : Byte) (rest : List Byte)
    (hrest : smsDataBytelen payload.codingScheme length ≤ rest.length)
    (hlimit : smsDataBytelen payload.codingScheme length ≤ GSMD_SMS_DATA_MAXLEN) :
    ∃ read, userData payload (length :: rest) = .ok read := by
  have haccept : ¬((length :: rest).length < 1 + smsDataBytelen payload.codingScheme length ∨
      GSMD_SMS_DATA_MAXLEN < smsDataBytelen payload.codingScheme length) := by
    rw [List.length_cons]
    omega
  rw [userData, octet_zero, ok_bind, dif_neg haccept]
  exact ⟨_, rfl⟩

namespace SubmitTpdu

variable (tpdu : SubmitTpdu)

def takenScheme : Byte :=
  if tpdu.dcs.activeDiscard then ALPHABET_UCS2 else tpdu.dcs.alphabet.scheme

def looksAt : List Byte := tpdu.tail.drop (if tpdu.validity.format ≠ 0 then 1 else 0)

theorem wire_length : tpdu.wire.length = 6 +
    (semiOctets tpdu.digits).length + tpdu.tail.length := by
  simp only [wire, List.length_cons, List.length_append]
  omega

theorem semiOctets_bytelen :
    smsNumberBytelen tpdu.type (UInt8.ofNat tpdu.digits.length) =
      (semiOctets tpdu.digits).length := by
  have hle := tpdu.digits_le
  have hlen : (UInt8.ofNat tpdu.digits.length).toNat = tpdu.digits.length := by
    rw [UInt8.toNat_ofNat']
    omega
  rw [smsNumberBytelen, if_neg tpdu.notAlphanumeric, hlen, semiOctets_length]

theorem smsSubmit_refused (dst : GsmdSmsList) (vpf : Byte) (htail : tpdu.tail.length < 2) :
    smsSubmit dst vpf tpdu.wire = .error .refused := by
  have hlength := tpdu.wire_length
  have hfour : ¬tpdu.wire.length < 4 := by omega
  have hrefuse : tpdu.wire.length < 8 + (semiOctets tpdu.digits).length := by omega
  have hthird : octet tpdu.wire 3 = .ok tpdu.type := rfl
  have hsecond : octet tpdu.wire 2 = .ok (UInt8.ofNat tpdu.digits.length) := rfl
  rw [smsSubmit, refuseIf_of_not hfour, ok_bind, hthird, ok_bind, hsecond, ok_bind]
  simp only [semiOctets_bytelen]
  rw [refuseIf, if_pos (by simpa using hrefuse)]
  rfl

theorem smsSubmit_eq (dst : GsmdSmsList) (htail : 2 ≤ tpdu.tail.length) :
    smsSubmit dst tpdu.validity.format tpdu.wire =
      (userData
        { dst.payload with
          tpMti := GSMD_SMS_TP_MTI_SUBMIT, codingScheme := tpdu.takenScheme } tpdu.looksAt).bind
        fun payload => .ok { dst with
          addr := { type := tpdu.type, number := tpdu.digits }
          timeStamp := List.replicate 7 0
          payload := payload } := by
  have hlength := tpdu.wire_length
  have hfour : ¬tpdu.wire.length < 4 := by omega
  have haccept : ¬tpdu.wire.length < 8 + (semiOctets tpdu.digits).length := by omega
  have hthird : octet tpdu.wire 3 = .ok tpdu.type := rfl
  have hsecond : octet tpdu.wire 2 = .ok (UInt8.ofNat tpdu.digits.length) := rfl
  have hnumber : tpdu.digits.length ≤ GSMD_ADDR_MAXLEN := by
    have hle := tpdu.digits_le
    simp only [GSMD_ADDR_MAXLEN]
    omega
  have haddr : smsAddress2ascii (tpdu.wire.drop 2) =
      .ok { type := tpdu.type, number := tpdu.digits } :=
    smsAddress2ascii_digits tpdu.areDigits hnumber tpdu.notAlphanumeric _
  have hskip : tpdu.wire.drop (4 + (semiOctets tpdu.digits).length) =
      tpdu.pid :: tpdu.dcs.octet :: tpdu.tail := by
    rw [Nat.add_comm]
    simp only [wire, List.drop_succ_cons, List.drop_left]
  rw [smsSubmit, refuseIf_of_not hfour, ok_bind, hthird, ok_bind, hsecond, ok_bind]
  simp only [semiOctets_bytelen]
  rw [refuseIf_of_not haccept, ok_bind, haddr, ok_bind, hskip]
  simp only [octet_succ, octet_zero, ok_bind, Dcs.codingSchemeOf_octet]
  have hlooks : (tpdu.pid :: tpdu.dcs.octet :: tpdu.tail).drop
      (if tpdu.validity.format ≠ 0 then 3 else 2) = tpdu.looksAt := by
    unfold looksAt
    split <;> rfl
  rw [hlooks]
  rfl

/-- The user data are where the code looks for them. In the two long formats it looks behind the
first octet of the validity period: right by chance, if that goes on like length and user data. -/
def found : Prop :=
  match tpdu.validity with
  | .notPresent => tpdu.data ≠ []
  | .relative _ => True
  | .enhanced octets _ | .absolute octets _ =>
    tpdu.length :: tpdu.data <+: octets.drop 1 ++ tpdu.length :: tpdu.data

theorem looksAt_long {octets : List Byte} (hoctets : tpdu.validity.octets = octets)
    (hlen : octets.length = 7) (hformat : tpdu.validity.format ≠ 0) :
    2 ≤ tpdu.tail.length ∧ tpdu.looksAt = octets.drop 1 ++ tpdu.length :: tpdu.data := by
  have htail : tpdu.tail = octets ++ tpdu.length :: tpdu.data := by rw [tail, hoctets]
  constructor
  · rw [htail, List.length_append]
    omega
  · rw [looksAt, if_pos hformat, htail]
    exact List.drop_append_of_le_length (by omega)

theorem found_iff :
    tpdu.found ↔ 2 ≤ tpdu.tail.length ∧ tpdu.length :: tpdu.data <+: tpdu.looksAt := by
  unfold found
  split
  next hvalidity =>
    simp only [looksAt, tail, hvalidity, ValidityPeriod.octets, ValidityPeriod.format,
      List.nil_append, ne_eq, not_true_eq_false, if_false, List.drop_zero, List.prefix_refl,
      and_true, List.length_cons]
    rw [← ne_eq, ← List.length_pos_iff]
    omega
  next octet hvalidity =>
    simp [looksAt, tail, hvalidity, ValidityPeriod.octets, ValidityPeriod.format]
  next octets hlen hvalidity =>
    obtain ⟨htail, hlooks⟩ := tpdu.looksAt_long (by rw [hvalidity]; rfl) hlen
      (by simp [hvalidity, ValidityPeriod.format])
    rw [hlooks, and_iff_right htail]
  next octets hlen hvalidity =>
    obtain ⟨htail, hlooks⟩ := tpdu.looksAt_long (by rw [hvalidity]; rfl) hlen
      (by simp [hvalidity, ValidityPeriod.format])
    rw [hlooks, and_iff_right htail]

theorem takenScheme_eq_iff :
    tpdu.takenScheme = tpdu.dcs.alphabet.scheme ↔ tpdu.dcs.activeDiscard = false := by
  unfold takenScheme
  cases hdcs : tpdu.dcs with
  | waitingDiscard active kind => cases active <;> simp [Dcs.activeDiscard, Dcs.alphabet,
      AlphabetType.scheme, ALPHABET_UCS2, ALPHABET_DEFAULT]
  | _ => simp [Dcs.activeDiscard]

theorem smsSubmit_reads_iff (dst : GsmdSmsList)
    (hheader : dst.payload.hasHeader = tpdu.hasHeader) :
    (∃ msg, smsSubmit dst tpdu.validity.format tpdu.wire = .ok msg ∧ tpdu.ReadAs msg) ↔
      tpdu.found ∧ tpdu.dcs.activeDiscard = false := by
  rw [found_iff, ← takenScheme_eq_iff]
  have hbytelen : smsDataBytelen tpdu.dcs.alphabet.scheme tpdu.length = tpdu.data.length := by
    rw [smsDataBytelen_scheme, tpdu.data_length]
  constructor
  · rintro ⟨msg, hmsg, hread⟩
    have htail : 2 ≤ tpdu.tail.length := by
      by_contra hshort
      rw [tpdu.smsSubmit_refused dst _ (by omega)] at hmsg
      cases hmsg
    rw [tpdu.smsSubmit_eq dst htail] at hmsg
    obtain ⟨payload, hpayload, hmsg⟩ := except_bind_eq_ok_iff.mp hmsg
    obtain rfl := Except.ok.inj hmsg
    cases hlooks : tpdu.looksAt with
    | nil =>
      rw [hlooks] at hpayload
      cases hpayload
    | cons length rest =>
      rw [hlooks] at hpayload
      obtain ⟨hlength, hscheme, -, hdata⟩ := userData_ok hpayload
      have hstart : length = tpdu.length := hlength.symm.trans hread.length
      refine ⟨⟨htail, ?_⟩, hscheme.symm.trans hread.codingScheme⟩
      rw [hstart, List.prefix_cons_inj, ← hread.data, hdata]
      exact List.take_prefix _ _
  · rintro ⟨⟨htail, rest, hlooks⟩, hscheme⟩
    rw [tpdu.smsSubmit_eq dst htail, ← hlooks]
    obtain ⟨payload, hpayload⟩ := userData_accepts
      { dst.payload with
        tpMti := GSMD_SMS_TP_MTI_SUBMIT, codingScheme := tpdu.takenScheme }
      tpdu.length (tpdu.data ++ rest)
      (by rw [hscheme, hbytelen, List.length_append]; omega)
      (by rw [hscheme, hbytelen]; exact tpdu.data_le)
    obtain ⟨hlength, htaken, hhas, hdata⟩ := userData_ok hpayload
    rw [List.cons_append, hpayload]
    refine ⟨_, rfl, ⟨rfl, htaken.trans hscheme, hhas.trans hheader, hlength, ?_⟩⟩
    rw [hdata, hscheme, hbytelen, List.take_left]

end SubmitTpdu

structure StoredSubmit extends SubmitTpdu where
  smsc : List Byte
  smsc_le : smsc.length < 256

namespace StoredSubmit

variable (stored : StoredSubmit)

def pdu : List Byte :=
  UInt8.ofNat stored.smsc.length :: (stored.smsc ++ stored.toSubmitTpdu.wire)

def Decodes (dst : GsmdSmsList) : Prop :=
  ∃ msg, smsPduToMsg dst stored.pdu stored.toSubmitTpdu.wire.length = .ok msg ∧
    stored.toSubmitTpdu.ReadAs msg

/-- **Stored messages.** A submit TPDU is decoded to what it says, exactly if its user data are
where the code looks for them and its coding scheme is no active indication of the discard group. -/
theorem decodes_iff (dst : GsmdSmsList) :
    stored.Decodes dst ↔
      stored.toSubmitTpdu.found ∧ stored.dcs.activeDiscard = false := by
  set tpdu := stored.toSubmitTpdu with htpdu
  have hlength := tpdu.wire_length
  have hpos : (1 : Int) ≤ tpdu.wire.length := by omega
  have hcons : tpdu.wire = tpdu.firstOctet :: tpdu.wire.tail := rfl
  have hrest : (tpdu.wire.length : Int) ≤ tpdu.wire.tail.length + 1 := by
    rw [List.length_tail]
    omega
  have hsubmit := smsPduToMsg_submit_behind dst stored.smsc_le hpos hrest tpdu.firstOctet_type
  rw [tpdu.firstOctet_vpf, tpdu.firstOctet_hasHeader, ← hcons] at hsubmit
  rw [Decodes, pdu, ← htpdu, hsubmit]
  exact tpdu.smsSubmit_reads_iff _ rfl

def emptyMessage : StoredSubmit where
  rejectDuplicates := false
  statusReport := false
  hasHeader := false
  replyPath := false
  reference := 0
  type := 0x91
  digits := ascii "49"
  pid := 0
  dcs := .general .sevenBitDefault none
  validity := .notPresent
  length := 0
  data := []
  smsc := []
  notAlphanumeric := by decide
  areDigits := List.all_eq_true.mp (by decide)
  digits_le := by decide
  data_length := rfl
  data_le := Nat.zero_le _
  smsc_le := by decide

theorem emptyMessage_refused : ¬emptyMessage.Decodes blankMessage := by
  rintro ⟨msg, hmsg, -⟩
  have hrefused : smsPduToMsg blankMessage emptyMessage.pdu emptyMessage.toSubmitTpdu.wire.length =
      .error .refused := rfl
  rw [hrefused] at hmsg
  cases hmsg

end StoredSubmit

end Openmoko.Gsmd
