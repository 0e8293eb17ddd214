import Openmoko.Gsmd.SmsPdu
import Mathlib.Data.List.Basic

/-!
# What the decoder reads back from an encoded SMS-SUBMIT

The text the encoder writes is read as octets by `hexOctets`, the inverse of `%02X`. The header is
then read field by field: each of the small lemmas says what one read of the decoder gives on what
the encoder wrote there.
-/

namespace Openmoko.Gsmd

def hexValue (c : Byte) : Option Nat :=
  if 48 ≤ c.toNat ∧ c.toNat ≤ 57 then some (c.toNat - 48)
  else if 65 ≤ c.toNat ∧ c.toNat ≤ 70 then some (c.toNat - 55)
  else none

def hexOctets : List Byte → Option (List Byte)
  | [] => some []
  | [_] => none
  | high :: low :: text => do
    let h ← hexValue high
    let l ← hexValue low
    let rest ← hexOctets text
    return UInt8.ofNat (16 * h + l) :: rest

theorem hexValue_hexDigit {n : Nat} (hn : n < 16) : hexValue (hexDigit n) = some n := by
  revert n
  decide

theorem hexOctets_hexText (src : List Byte) : hexOctets (hexText src) = some src := by
  induction src with
  | nil => rfl
  | cons b src ih =>
    have hb : b.toNat < 256 := b.toNat_lt
    have hhigh := hexValue_hexDigit (n := b.toNat / 16) (by omega)
    have hlow := hexValue_hexDigit (n := b.toNat % 16) (by omega)
    have hvalue : 16 * (b.toNat / 16) + b.toNat % 16 = b.toNat := Nat.div_add_mod ..
    change hexOctets (hexDigit (b.toNat / 16) :: hexDigit (b.toNat % 16) :: hexText src) = _
    simp only [hexOctets, hhigh, hlow, ih, Option.bind_eq_bind, Option.bind_some, hvalue,
      UInt8.ofNat_toNat]
    rfl

theorem hexText_append (left right : List Byte) :
    hexText left ++ hexText right = hexText (left ++ right) := by
  simp [hexText]

theorem exists_digit {c : Byte} (hc : isdigit c) : ∃ d : Fin 10, c = UInt8.ofNat (48 + d.val) := by
  have hrange : 48 ≤ c.toNat ∧ c.toNat ≤ 57 := by
    simpa [isdigit, UInt8.le_iff_toNat_le] using hc
  refine ⟨⟨c.toNat - 48, by omega⟩, ?_⟩
  rw [← UInt8.toNat_inj]
  simp
  omega

theorem semiOctet_pair {low high : Byte} (hlow : isdigit low) (hhigh : isdigit high) :
    CH_0 + ((((low - CH_0) ||| ((high - CH_0) <<< 4)) >>> 0) &&& 0xf) = low ∧
      CH_0 + ((((low - CH_0) ||| ((high - CH_0) <<< 4)) >>> 4) &&& 0xf) = high := by
  obtain ⟨low, rfl⟩ := exists_digit hlow
  obtain ⟨high, rfl⟩ := exists_digit hhigh
  revert low high
  decide

theorem semiOctet_last {last : Byte} (hlast : isdigit last) :
    CH_0 + ((((last - CH_0) ||| 0xf0) >>> 0) &&& 0xf) = last := by
  obtain ⟨last, rfl⟩ := exists_digit hlast
  revert last
  decide

theorem semiOctets_length (number : List Byte) :
    (semiOctets number).length = (number.length + 1) / 2 := by
  fun_induction semiOctets number with
  | case1 => rfl
  | case2 last => simp
  | case3 low high number ih =>
    simp only [List.length_cons, ih]
    omega

theorem semiOctets_getElem? {number : List Byte} (hdigits : ∀ c ∈ number, isdigit c) {i : Nat}
    (hi : i < number.length) :
    ∃ b, (semiOctets number)[i / 2]? = some b ∧
      CH_0 + ((b >>> UInt8.ofNat (4 * i % 8)) &&& 0xf) = number[i] := by
  induction number using semiOctets.induct generalizing i with
  | case1 => simp at hi
  | case2 last =>
    obtain rfl : i = 0 := by simpa using hi
    exact ⟨_, rfl, semiOctet_last (hdigits last (by simp))⟩
  | case3 low high number ih =>
    have hpair := semiOctet_pair (hdigits low (by simp)) (hdigits high (by simp))
    match i, hi with
    | 0, _ => exact ⟨_, rfl, hpair.1⟩
    | 1, _ => exact ⟨_, rfl, hpair.2⟩
    | i + 2, hi =>
      have hrest : i < number.length := by simpa using hi
      obtain ⟨b, hb, hread⟩ := ih (fun c hc => hdigits c (by simp [hc])) hrest
      have hoctet : (i + 2) / 2 = i / 2 + 1 := by omega
      have hshift : 4 * (i + 2) % 8 = 4 * i % 8 := by omega
      exact ⟨b, by simpa [semiOctets, hoctet] using hb, by simpa [hshift] using hread⟩

theorem smsAddress2ascii_digits {type : Byte} {number : List Byte}
    (hdigits : ∀ c ∈ number, isdigit c) (hlength : number.length ≤ GSMD_ADDR_MAXLEN)
    (htype : type &&& GSMD_TOA_TON_MASK ≠ GSMD_TOA_TON_ALPHANUMERIC) (rest : List Byte) :
    smsAddress2ascii (UInt8.ofNat number.length :: type :: (semiOctets number ++ rest)) =
      .ok { type := type, number := number } := by
  have hlen : (UInt8.ofNat number.length).toNat = number.length := by
    simp only [GSMD_ADDR_MAXLEN] at hlength
    simp
    omega
  have hread : ∀ i ∈ List.range number.length,
      semiOctet (UInt8.ofNat number.length :: type :: (semiOctets number ++ rest)) i =
        .ok (number.getD i 0) := by
    intro i hi
    have hi : i < number.length := List.mem_range.mp hi
    obtain ⟨b, hb, hdigit⟩ := semiOctets_getElem? hdigits hi
    have hbound : i / 2 < (semiOctets number).length := by
      rw [semiOctets_length]
      omega
    have hoctet : octet (UInt8.ofNat number.length :: type :: (semiOctets number ++ rest))
        (2 + i / 2) = .ok b := by
      rw [Nat.add_comm, octet_succ, octet_succ]
      exact octet_of_getElem? (by rw [List.getElem?_append_left hbound, hb])
    rw [semiOctet, hoctet, ok_bind, hdigit]
    simp [List.getElem?_eq_getElem hi, pure, Except.pure]
  have hnumber := mapM_ok hread
  rw [map_range_getD number number.length (le_refl _), List.take_length] at hnumber
  rw [smsAddress2ascii, octet_zero, ok_bind, hlen, refuseIf_of_not (by omega), ok_bind, octet_succ,
    octet_zero, ok_bind, if_neg htype, hnumber]
  rfl

theorem codingSchemeOf_alphabet {scheme : Byte}
    (hscheme : scheme ∈ [ALPHABET_DEFAULT, ALPHABET_8BIT, ALPHABET_UCS2]) :
    codingSchemeOf scheme = .ok scheme := by
  simp only [List.mem_cons, List.not_mem_nil, or_false] at hscheme
  rcases hscheme with rfl | rfl | rfl <;> rfl

theorem userData_read (payload : GsmdSms) (length : Byte) {data : List Byte}
    (hdata : data.length = smsDataBytelen payload.codingScheme length)
    (hlimit : data.length ≤ GSMD_SMS_DATA_MAXLEN) :
    ∃ read : GsmdSms, userData payload (length :: data) = .ok read ∧
      read = { payload with
        length := length
        data := storeData payload.data data
        data_length := storeData_length payload.data_length hlimit } := by
  have haccept : ¬((length :: data).length < 1 + smsDataBytelen payload.codingScheme length ∨
      GSMD_SMS_DATA_MAXLEN < smsDataBytelen payload.codingScheme length) := by
    rw [List.length_cons]
    omega
  rw [userData, octet_zero, ok_bind, dif_neg haccept]
  refine ⟨_, rfl, ?_⟩
  simp [← hdata]

variable (askDs hasHeader : Bool)

def firstOctet : Byte :=
  GSMD_SMS_TP_MTI_SUBMIT ||| GSMD_SMS_TP_VPF_NOT_PRESENT |||
    (if askDs then GSMD_SMS_TP_SRR_STATUS_REQUEST else GSMD_SMS_TP_SRR_NOT_REQUEST) |||
    (if hasHeader then GSMD_SMS_TP_UDHI_WITH_HEADER else GSMD_SMS_TP_UDHI_NO_HEADER) |||
    GSMD_SMS_TP_RP_NOT_SET

theorem firstOctet_type :
    firstOctet askDs hasHeader &&& 3 = GSMD_SMS_TP_MTI_SUBMIT := by
  cases askDs <;> cases hasHeader <;> rfl

theorem firstOctet_vpf :
    (firstOctet askDs hasHeader >>> 3) &&& 3 = 0 := by
  cases askDs <;> cases hasHeader <;> rfl

theorem firstOctet_hasHeader :
    decide (firstOctet askDs hasHeader &&& GSMD_SMS_TP_UDHI_WITH_HEADER ≠ 0) = hasHeader := by
  cases askDs <;> cases hasHeader <;> rfl

/-- What the encoder is given: a number of digits, a supported alphabet and a payload that fits. -/
structure Encodable (src : GsmdSmsSubmit) : Prop where
  digits : ∀ c ∈ cstr src.addr.number, isdigit c
  number_pos : 1 ≤ (cstr src.addr.number).length
  number_le : (cstr src.addr.number).length ≤ GSMD_ADDR_MAXLEN
  type : src.addr.type &&& GSMD_TOA_TON_MASK ≠ GSMD_TOA_TON_ALPHANUMERIC
  codingScheme : src.payload.codingScheme ∈ [ALPHABET_DEFAULT, ALPHABET_8BIT, ALPHABET_UCS2]
  data_pos : 1 ≤ smsDataBytelen src.payload.codingScheme src.payload.length
  data_le : smsDataBytelen src.payload.codingScheme src.payload.length ≤ GSMD_SMS_DATA_MAXLEN

def payloadOctets (payload : GsmdSms) : List Byte :=
  payload.data.take (smsDataBytelen payload.codingScheme payload.length)

structure ReadBack (src : GsmdSmsSubmit) (msg : GsmdSmsList) : Prop where
  type : msg.addr.type = src.addr.type
  number : cstr msg.addr.number = cstr src.addr.number
  tpMti : msg.payload.tpMti = GSMD_SMS_TP_MTI_SUBMIT
  codingScheme : msg.payload.codingScheme = src.payload.codingScheme
  hasHeader : msg.payload.hasHeader = src.payload.hasHeader
  length : msg.payload.length = src.payload.length
  data : payloadOctets msg.payload = payloadOctets src.payload

variable {src : GsmdSmsSubmit}

theorem Encodable.payloadOctets_length (hsrc : Encodable src) :
    (payloadOctets src.payload).length =
      smsDataBytelen src.payload.codingScheme src.payload.length := by
  have hle := hsrc.data_le
  rw [payloadOctets, List.length_take, src.payload.data_length]
  omega

theorem Encodable.make_eq (hsrc : Encodable src) (dest : Bool) : smsPduMakeSmssubmit dest src =
      ((smsSubmitHeader src ++ payloadOctets src.payload).length,
        if dest then hexText (smsSubmitHeader src ++ payloadOctets src.payload) else []) := by
  have hle : smsDataBytelen src.payload.codingScheme src.payload.length ≤
      src.payload.data.length := by
    rw [src.payload.data_length]
    exact Nat.le_succ_of_le hsrc.data_le
  rw [smsPduMakeSmssubmit, map_range_getD _ _ hle, hexText_append, List.length_append,
    hsrc.payloadOctets_length]
  rfl

theorem smsSubmitHeader_append (src : GsmdSmsSubmit) (data : List Byte) :
    smsSubmitHeader src ++ data =
      0 :: firstOctet src.askDs src.payload.hasHeader :: 0 ::
        UInt8.ofNat (cstr src.addr.number).length :: src.addr.type ::
        (semiOctets (cstr src.addr.number) ++
          (0 :: src.payload.codingScheme :: src.payload.length :: data)) := by
  simp [smsSubmitHeader, firstOctet]

theorem take_storeData (data new : List Byte) : (storeData data new).take new.length = new := by
  rw [storeData, List.take_left]

theorem Encodable.smsSubmit_read (hsrc : Encodable src) (dst : GsmdSmsList) :
    ∃ msg, smsSubmit dst 0 ((smsSubmitHeader src ++ payloadOctets src.payload).drop 1) = .ok msg ∧
      msg.addr = { type := src.addr.type, number := cstr src.addr.number } ∧
      msg.payload.tpMti = GSMD_SMS_TP_MTI_SUBMIT ∧
      msg.payload.codingScheme = src.payload.codingScheme ∧
      msg.payload.hasHeader = dst.payload.hasHeader ∧
      msg.payload.length = src.payload.length ∧
      msg.payload.data = storeData dst.payload.data (payloadOctets src.payload) := by
  have hlength := hsrc.payloadOctets_length
  have hnumber := hsrc.number_le
  have hpos := hsrc.data_pos
  have hle := hsrc.data_le
  have hlen : (UInt8.ofNat (cstr src.addr.number).length).toNat = (cstr src.addr.number).length := by
    rw [GSMD_ADDR_MAXLEN] at hnumber
    rw [UInt8.toNat_ofNat']
    omega
  have hsemi : smsNumberBytelen src.addr.type (UInt8.ofNat (cstr src.addr.number).length) =
      (semiOctets (cstr src.addr.number)).length := by
    rw [smsNumberBytelen, if_neg hsrc.type, hlen, semiOctets_length]
  obtain ⟨read, hread, rfl⟩ := userData_read
    { dst.payload with
      tpMti := GSMD_SMS_TP_MTI_SUBMIT, codingScheme := src.payload.codingScheme }
    src.payload.length hlength (by omega)
  rw [smsSubmitHeader_append, List.drop_one, List.tail_cons, smsSubmit]
  have hfour : ∀ n, ¬n + 1 + 1 + 1 + 1 < 4 := by omega
  rw [refuseIf_of_not (by simp [hfour])]
  simp only [ok_bind, octet_succ, octet_zero, hsemi]
  rw [refuseIf_of_not (by simp; omega), ok_bind]
  simp only [List.drop_succ_cons, List.drop_zero]
  rw [smsAddress2ascii_digits hsrc.digits hnumber hsrc.type, ok_bind, Nat.add_comm 4]
  simp only [List.drop_succ_cons, List.drop_left, octet_succ, octet_zero, ok_bind,
    codingSchemeOf_alphabet hsrc.codingScheme]
  rw [if_neg (by simp)]
  simp only [List.drop_succ_cons, List.drop_zero, hread, ok_bind]
  exact ⟨_, rfl, rfl, rfl, rfl, rfl, rfl, rfl⟩

theorem smsPduToMsg_submit_behind (dst : GsmdSmsList) {smsc : List Byte} (hsmsc : smsc.length < 256)
    {first : Byte} {rest : List Byte} {pdulen : Int} (hpos : 1 ≤ pdulen)
    (hlen : pdulen ≤ rest.length + 1) (htype : first &&& 3 = GSMD_SMS_TP_MTI_SUBMIT) :
    smsPduToMsg dst (UInt8.ofNat smsc.length :: (smsc ++ first :: rest)) pdulen =
      smsSubmit
        { dst with payload := { dst.payload with
            isVoicemail := false
            hasHeader := first &&& GSMD_SMS_TP_UDHI_WITH_HEADER ≠ 0 } }
        ((first >>> 3) &&& 3) (first :: rest) := by
  have hcount : (UInt8.ofNat smsc.length).toNat = smsc.length := by
    rw [UInt8.toNat_ofNat']
    omega
  have haccept : ¬(((UInt8.ofNat smsc.length :: (smsc ++ first :: rest)).length : Int) <
      1 + ((UInt8.ofNat smsc.length).toNat : Int) + pdulen ∨ pdulen < 1) := by
    rw [hcount]
    simp only [List.length_cons, List.length_append]
    omega
  have hdeliver : first &&& 3 ≠ GSMD_SMS_TP_MTI_DELIVER := by
    rw [htype]
    decide
  rw [smsPduToMsg, refuseIf_of_not (by simp), ok_bind, octet_zero, ok_bind, ← Bool.decide_or,
    refuseIf_of_not haccept, ok_bind]
  have hskip : (UInt8.ofNat smsc.length :: (smsc ++ first :: rest)).drop
      (1 + (UInt8.ofNat smsc.length).toNat) = first :: rest := by
    rw [hcount, Nat.add_comm, List.drop_succ_cons, List.drop_left]
  simp only [hskip, octet_zero, ok_bind]
  rw [if_neg hdeliver, if_pos htype]

theorem smsPduToMsg_submit (dst : GsmdSmsList) {first : Byte} {rest : List Byte} {pdulen : Int}
    (hpos : 1 ≤ pdulen) (hlen : pdulen ≤ rest.length + 1)
    (htype : first &&& 3 = GSMD_SMS_TP_MTI_SUBMIT) :
    smsPduToMsg dst (0 :: first :: rest) pdulen =
      smsSubmit
        { dst with payload := { dst.payload with
            isVoicemail := false
            hasHeader := first &&& GSMD_SMS_TP_UDHI_WITH_HEADER ≠ 0 } }
        ((first >>> 3) &&& 3) (first :: rest) := by
  have hnone : ([] : List Byte).length < 256 := by decide
  exact smsPduToMsg_submit_behind dst hnone hpos hlen htype

/-- A message that is encoded and stored is read back as it was, and its length is announced as it
is written. -/
theorem smsSubmit_roundTrip {src : GsmdSmsSubmit} (hsrc : Encodable src) (dst : GsmdSmsList) :
    ∃ pdu msg,
      hexOctets (smsPduMakeSmssubmit true src).2 = some pdu ∧
      smsPduToMsg dst pdu ((smsPduMakeSmssubmit true src).1 - 1) = .ok msg ∧
      ReadBack src msg ∧
      (smsPduMakeSmssubmit false src).1 = pdu.length ∧
      (smsPduMakeSmssubmit true src).1 = pdu.length := by
  obtain ⟨msg, hread, haddr, hmti, hscheme, hheader, hlength, hdata⟩ := hsrc.smsSubmit_read
    { dst with
      payload := { dst.payload with isVoicemail := false, hasHeader := src.payload.hasHeader } }
  refine ⟨smsSubmitHeader src ++ payloadOctets src.payload, msg, ?_, ?_, ?_, ?_, ?_⟩
  · rw [hsrc.make_eq, if_pos rfl, hexOctets_hexText]
  · rw [hsrc.make_eq, ← hread, smsSubmitHeader_append, smsPduToMsg_submit, firstOctet_vpf]
    · simp only [firstOctet_hasHeader, List.drop_one, List.tail_cons]
    · simp only [List.length_cons]
      omega
    · simp only [List.length_cons]
      omega
    · exact firstOctet_type ..
  · exact {
      type := by rw [haddr]
      number := by rw [haddr, cstr_eq_self (nul_notMem_cstr _)]
      tpMti := hmti
      codingScheme := hscheme
      hasHeader := hheader
      length := hlength
      data := by
        rw [payloadOctets, hscheme, hlength, hdata, ← hsrc.payloadOctets_length, take_storeData] }
  · rw [hsrc.make_eq]
  · rw [hsrc.make_eq]

def oddNumberText : GsmdSmsSubmit where
  addr := { type := 0x91, number := ascii "4915253" ++ [NUL] }
  payload :=
    { length := 9
      codingScheme := ALPHABET_DEFAULT
      hasHeader := true
      isVoicemail := false
      dcs := smsPduDecodeDcs 0
      tpMti := 0
      data := [0xc8, 0x32, 0x9b, 0xfd, 0x06, 0xdd, 0xdf, 0x72] ++ List.replicate 157 0
      data_length := by rw [List.length_append, List.length_replicate]; rfl }
  askDs := true

def blankMessage : GsmdSmsList where
  index := 0
  timeStamp := []
  addr := { type := 0, number := [] }
  payload := oddNumberText.payload

theorem oddNumberText_roundTrip :
    Encodable oddNumberText ∧ ∃ pdu msg,
      hexOctets (smsPduMakeSmssubmit true oddNumberText).2 = some pdu ∧
      smsPduToMsg blankMessage pdu ((smsPduMakeSmssubmit true oddNumberText).1 - 1) = .ok msg ∧
      ReadBack oddNumberText msg ∧
      (smsPduMakeSmssubmit false oddNumberText).1 = pdu.length ∧
      (smsPduMakeSmssubmit true oddNumberText).1 = pdu.length := by
  have hsrc : Encodable oddNumberText :=
    { digits := List.all_eq_true.mp (by decide)
      number_pos := by decide
      number_le := by decide
      type := by decide
      codingScheme := by decide
      data_pos := by decide
      data_le := by decide }
  exact ⟨hsrc, smsSubmit_roundTrip hsrc blankMessage⟩

end Openmoko.Gsmd
