import Openmoko.Library.Buffer
import Openmoko.Library.Loop
import Openmoko.Libgsmd.Sms
import Openmoko.Phonekit.Proof.SmsTextRoundTrip

/-!
# A received message in its buffers (`moko-sms.c`)

gsmd lets a message through if its octets fit into the payload. `on_incoming_sms` unpacks the
septets of it, of which there are more than octets, into a buffer of as many bytes as the payload
has. Everything else stays inside: the reads of the payload, as its octets were counted, and the
text, for which there are three bytes a character.
-/

namespace Openmoko.Phonekit.Received

open Gsmd Libgsmd

/-- `unpacking_7bit_character (src, dest)`: `dest` behind it, and what it returns; `none` where an
access is outside of an array. -/
def unpackInto (src : GsmdSms) (dest : Buffer Byte) : Option (Buffer Byte × ℕ) :=
  match unpacking7bitCharacter src with
  | .ok chars => (dest.writeAll 0 (chars ++ [NUL])).map (·, chars.length)
  | .error _ => none

def decodeLoop (gsmdefault : Buffer Byte) (l i : ℕ) (message : Buffer Byte) (dest : ℕ) :
    Option (Buffer Byte × ℕ) :=
  if _h : i < l then do
    let c ← gsmdefault.read i
    if c = ESCAPE then
      let d ← gsmdefault.read (i + 1)
      match escapeCases.lookup d with
      | some bytes =>
        let message ← message.writeAll dest bytes
        decodeLoop gsmdefault l (i + 2) message (dest + bytes.length)
      | none =>
        -- the next character is not consumed
        let message ← message.writeAll dest NBSP
        decodeLoop gsmdefault l (i + 1) message (dest + NBSP.length)
    else
      let message ← message.writeAll dest (gsmdefaultOf c)
      decodeLoop gsmdefault l (i + 1) message (dest + (gsmdefaultOf c).length)
  else some (message, dest)
  termination_by l - i

def decodeDefault (payload : GsmdSms) : Option (Buffer Byte × ℕ) := do
  -- `g_malloc0`
  let (gsmdefault, l) ← unpackInto payload (Buffer.padded (GSMD_SMS_DATA_MAXLEN + 1) (some NUL) [])
  decodeLoop gsmdefault l 0 (Buffer.padded (1 + 3 * l) (some NUL) []) 0

inductive Incoming where
  | ignored
  | decoded (message : Buffer Byte) (dest : ℕ)
  -- for GLib, or left alone
  | otherAlphabet
  deriving DecidableEq

def onIncomingSms (handlingSms : Bool) (payload : GsmdSms) : Option Incoming :=
  if !handlingSms then some .ignored
  else if payload.isVoicemail then some .ignored
  else if payload.codingScheme = ALPHABET_DEFAULT then
    (decodeDefault payload).map fun result => .decoded result.1 result.2
  else some .otherAlphabet

theorem gsmdefaultOf_length (c : Byte) : (gsmdefaultOf c).length ≤ 2 := by
  have hcases : ∀ row ∈ gsmdefaultCases, row.2.length ≤ 2 := by decide
  unfold gsmdefaultOf
  cases hfound : gsmdefaultCases.lookup c with
  | none => exact Nat.le_succ 1
  | some bytes =>
    obtain ⟨before, after, heq, -⟩ := List.lookup_eq_some_iff.mp hfound
    exact hcases (c, bytes) (heq ▸ List.mem_append_right _ List.mem_cons_self)

variable {d : Byte} {payload : GsmdSms} {src : List Byte}

theorem escapeCases_length {bytes : List Byte} (h : escapeCases.lookup d = some bytes) :
    bytes.length ≤ 3 := by
  have hcases : ∀ row ∈ escapeCases, row.2.length ≤ 3 := by decide
  obtain ⟨before, after, heq, -⟩ := List.lookup_eq_some_iff.mp h
  exact hcases (d, bytes) (heq ▸ List.mem_append_right _ List.mem_cons_self)

theorem gsmdefaultLoop_escape (rest : List Byte) :
    gsmdefaultLoop (ESCAPE :: rest) =
      match escapeCases.lookup (rest.headD NUL) with
      | some bytes => bytes ++ gsmdefaultLoop rest.tail
      | none => NBSP ++ gsmdefaultLoop rest := by
  cases rest with
  | nil => rfl
  | cons d rest =>
    rw [gsmdefaultLoop, if_pos rfl]
    rfl

section Loop

variable {gsmdefault message message' : Buffer Byte} {l i dest : ℕ} (hi : i < l)

include hi

theorem decodeLoop_single {c : Byte} (hread : gsmdefault.read i = some c) (hc : c ≠ ESCAPE)
    (hwrite : message.writeAll dest (gsmdefaultOf c) = some message') :
    decodeLoop gsmdefault l i message dest =
      decodeLoop gsmdefault l (i + 1) message' (dest + (gsmdefaultOf c).length) := by
  rw [decodeLoop, dif_pos hi, hread, Option.bind_eq_bind, Option.bind_some, if_neg hc, hwrite]
  rfl

theorem decodeLoop_escape {bytes : List Byte} (hread : gsmdefault.read i = some ESCAPE)
    (hnext : gsmdefault.read (i + 1) = some d) (hbytes : escapeCases.lookup d = some bytes)
    (hwrite : message.writeAll dest bytes = some message') :
    decodeLoop gsmdefault l i message dest =
      decodeLoop gsmdefault l (i + 2) message' (dest + bytes.length) := by
  rw [decodeLoop, dif_pos hi, hread, Option.bind_eq_bind, Option.bind_some, if_pos rfl, hnext]
  simp only [Option.bind_eq_bind, Option.bind_some, hbytes, hwrite]

theorem decodeLoop_nbsp (hread : gsmdefault.read i = some ESCAPE)
    (hnext : gsmdefault.read (i + 1) = some d) (hnone : escapeCases.lookup d = none)
    (hwrite : message.writeAll dest NBSP = some message') :
    decodeLoop gsmdefault l i message dest =
      decodeLoop gsmdefault l (i + 1) message' (dest + NBSP.length) := by
  rw [decodeLoop, dif_pos hi, hread, Option.bind_eq_bind, Option.bind_some, if_pos rfl, hnext]
  simp only [Option.bind_eq_bind, Option.bind_some, hnone, hwrite]

end Loop

theorem decodeLoop_eq (size size' : ℕ) (rest first before : List Byte)
    (hroom : before.length + 3 * rest.length ≤ size) :
    decodeLoop (Buffer.padded size' (some NUL) (first ++ rest ++ [NUL]))
        (first.length + rest.length) first.length (Buffer.padded size (some NUL) before)
        before.length =
      some (Buffer.padded size (some NUL) (before ++ gsmdefaultLoop rest),
        (before ++ gsmdefaultLoop rest).length) := by
  induction hlength : rest.length using Nat.strong_induction_on generalizing rest first before with
  | _ n ih =>
  subst hlength
  cases rest with
  | nil =>
    rw [decodeLoop, dif_neg (by simp), gsmdefaultLoop, List.append_nil]
  | cons c rest =>
    rw [List.length_cons] at hroom
    have hi : first.length < first.length + (c :: rest).length := by simp
    have hread : (Buffer.padded size' (some NUL) (first ++ c :: rest ++ [NUL])).read first.length =
        some c := by
      rw [List.append_assoc, List.cons_append]
      exact Buffer.read_padded ..
    have hstep : ∀ bytes : List Byte, bytes.length ≤ 3 →
        (Buffer.padded size (some NUL) before).writeAll before.length bytes =
          some (Buffer.padded size (some NUL) (before ++ bytes)) :=
      fun bytes hbytes => Buffer.writeAll_padded (by omega)
    -- the loop behind the characters of one turn
    have hgo : ∀ taken rest' bytes : List Byte, c :: rest = taken ++ rest' → taken ≠ [] →
        bytes.length ≤ 3 →
        decodeLoop (Buffer.padded size' (some NUL) (first ++ c :: rest ++ [NUL]))
            (first.length + (c :: rest).length) (first.length + taken.length)
            (Buffer.padded size (some NUL) (before ++ bytes)) (before.length + bytes.length) =
          some (Buffer.padded size (some NUL) (before ++ (bytes ++ gsmdefaultLoop rest')),
            (before ++ (bytes ++ gsmdefaultLoop rest')).length) := by
      intro taken rest' bytes hsplit hne hbytes
      have htaken := List.length_pos_iff.mpr hne
      have hlength : rest.length + 1 = taken.length + rest'.length := by
        rw [← List.length_cons, hsplit, List.length_append]
      have hrest := ih rest'.length (by rw [List.length_cons]; omega) rest' (first ++ taken)
        (before ++ bytes) (by rw [List.length_append]; omega) rfl
      rw [List.append_assoc first, ← hsplit, List.append_assoc before] at hrest
      rw [← hrest, List.length_append, List.length_append, List.length_cons]
      congr 1
      omega
    by_cases hc : c = ESCAPE
    · subst hc
      have hnext : (Buffer.padded size' (some NUL) (first ++ ESCAPE :: rest ++ [NUL])).read
          (first.length + 1) = some (rest.headD NUL) := by
        have hread := Buffer.read_padded size' (some NUL) (first ++ [ESCAPE]) (rest.headD NUL)
          (rest ++ [NUL]).tail
        rw [List.length_append, List.length_singleton] at hread
        rw [← hread]
        congr 2
        cases rest <;> simp
      rw [gsmdefaultLoop_escape]
      cases hlookup : escapeCases.lookup (rest.headD NUL) with
      | none =>
        rw [decodeLoop_nbsp hi hread hnext hlookup (hstep NBSP (by decide))]
        exact hgo [ESCAPE] rest NBSP rfl (List.cons_ne_nil _ _) (by decide)
      | some bytes =>
        have hbytes := escapeCases_length hlookup
        rw [decodeLoop_escape hi hread hnext hlookup (hstep bytes hbytes)]
        cases rest with
        | nil => cases hlookup
        | cons d rest =>
          exact hgo [ESCAPE, d] rest bytes rfl (List.cons_ne_nil _ _) hbytes
    · have hbytes := gsmdefaultOf_length c
      rw [decodeLoop_single hi hread hc (hstep _ (by omega)), gsmdefaultLoop_single hc]
      exact hgo [c] rest _ rfl (List.cons_ne_nil _ _) (by omega)

theorem gsmdefaultLoop_length (chars : List Byte) :
    (gsmdefaultLoop chars).length ≤ 3 * chars.length := by
  have hnbsp : NBSP.length = 2 := rfl
  fun_induction gsmdefaultLoop chars with
  | case1 => exact Nat.zero_le _
  | case2 =>
    rw [List.length_singleton]
    omega
  | case3 c hc =>
    have hbytes := gsmdefaultOf_length c
    rw [List.length_singleton]
    omega
  | case4 d rest bytes hlookup ih =>
    have hbytes := escapeCases_length hlookup
    rw [List.length_append, List.length_cons, List.length_cons]
    omega
  | case5 d rest hlookup ih =>
    rw [List.length_append, List.length_cons]
    omega
  | case6 c d rest hc ih =>
    have hbytes := gsmdefaultOf_length c
    rw [List.length_append, List.length_cons]
    omega

theorem septet_ok (data : List Byte) (i : ℕ) (h : (i * 7 + 7) / 8 < data.length) :
    ∃ b, septet data i = .ok b := by
  have hlow : i * 7 / 8 < data.length := by omega
  unfold septet
  rw [octet_of_getElem? (List.getElem?_eq_getElem h), ok_bind,
    octet_of_getElem? (List.getElem?_eq_getElem hlow)]
  exact ⟨_, rfl⟩

theorem unpacking_ok {src : GsmdSms}
    (h : (src.length.toNat * 7 + 7) / 8 ≤ GSMD_SMS_DATA_MAXLEN) :
    ∃ chars, unpacking7bitCharacter src = .ok chars ∧
      chars.length = src.length.toNat - headerSeptets src := by
  have hdata := src.data_length
  have hsome : ∀ i ∈ List.range' (headerSeptets src) (src.length.toNat - headerSeptets src),
      septet src.data i = .ok ((septet src.data i).toOption.getD 0) := by
    intro i hi
    rw [List.mem_range'_1] at hi
    obtain ⟨b, hb⟩ := septet_ok src.data i (by omega)
    rw [hb]
    rfl
  refine ⟨_, mapM_ok hsome, ?_⟩
  rw [List.length_map, List.length_range']

theorem decodeDefault_eq {chars : List Byte} (hchars : unpacking7bitCharacter payload = .ok chars) :
    decodeDefault payload =
      if chars.length ≤ GSMD_SMS_DATA_MAXLEN then
        some (Buffer.padded (1 + 3 * chars.length) (some NUL) (gsmdefaultLoop chars),
          (gsmdefaultLoop chars).length)
      else none := by
  have hlength : (chars ++ [NUL]).length = chars.length + 1 := by
    rw [List.length_append, List.length_singleton]
  unfold decodeDefault unpackInto
  rw [hchars]
  dsimp only
  split_ifs with hfit
  · have hwrite : (Buffer.padded (GSMD_SMS_DATA_MAXLEN + 1) (some NUL) []).writeAll 0
        (chars ++ [NUL]) = _ :=
      Buffer.writeAll_padded (l := []) (by rw [hlength]; simpa using hfit)
    rw [hwrite]
    have hloop := decodeLoop_eq (1 + 3 * chars.length) (GSMD_SMS_DATA_MAXLEN + 1) chars [] []
      (by simp)
    rw [List.length_nil, Nat.zero_add] at hloop
    exact hloop
  · have hwrite : (Buffer.padded (GSMD_SMS_DATA_MAXLEN + 1) (some NUL) []).writeAll 0
        (chars ++ [NUL]) = none := by
      rw [← Option.not_isSome_iff_eq_none, Buffer.writeAll_isSome_iff (by simp),
        Buffer.length_padded (Nat.zero_le _), hlength]
      omega
    rw [hwrite]
    rfl

theorem read_padded_end {size : ℕ} {text : List Byte} (h : text.length < size) :
    (Buffer.padded size (some NUL) text).read text.length = some NUL := by
  obtain ⟨n, hn⟩ := Nat.exists_eq_add_of_lt h
  have hrest : size - text.length = n + 1 := by omega
  simp [Buffer.read, Buffer.padded, hrest]

/-- No access is outside of its array, and the text ends with a NUL. -/
def Contained (handlingSms : Bool) (payload : GsmdSms) : Prop :=
  ∃ incoming, onIncomingSms handlingSms payload = some incoming ∧
    ∀ message dest, incoming = .decoded message dest → message.read dest = some NUL

theorem contained_payload_iff {handlingSms : Bool}
    (h : smsDataBytelen payload.codingScheme payload.length ≤ GSMD_SMS_DATA_MAXLEN) :
    Contained handlingSms payload ↔
      (handlingSms = true → payload.isVoicemail = false →
        payload.codingScheme = ALPHABET_DEFAULT →
          payload.length.toNat - headerSeptets payload ≤ GSMD_SMS_DATA_MAXLEN) := by
  unfold Contained onIncomingSms
  cases handlingSms with
  | false => simp
  | true =>
    cases payload.isVoicemail with
    | true => simp
    | false =>
      by_cases hscheme : payload.codingScheme = ALPHABET_DEFAULT
      · rw [smsDataBytelen, if_pos hscheme] at h
        obtain ⟨chars, hchars, hlength⟩ := unpacking_ok h
        rw [← hlength]
        simp only [hscheme, decodeDefault_eq hchars]
        by_cases hfit : chars.length ≤ GSMD_SMS_DATA_MAXLEN
        · rw [if_pos hfit]
          refine ⟨fun _ _ _ _ => hfit, fun _ => ⟨_, rfl, ?_⟩⟩
          intro message dest hmessage
          cases hmessage
          exact read_padded_end (Nat.lt_one_add_iff.mpr (gsmdefaultLoop_length chars))
        · rw [if_neg hfit]
          refine ⟨?_, fun hall => absurd (hall trivial trivial trivial) hfit⟩
          rintro ⟨incoming, hincoming, -⟩
          cases hincoming
      · simp [hscheme]

theorem octet_eq_ok_iff {i : ℕ} {b : Byte} : octet src i = .ok b ↔ src[i]? = some b := by
  unfold octet
  cases src[i]? with
  | none => exact ⟨fun h => (nomatch h), fun h => (nomatch h)⟩
  | some b' => simp

/-- The TPDU, behind the address of the service centre. -/
def tpdu (src : List Byte) : List Byte := src.drop (1 + (src.getD 0 0).toNat)

def pidIndex (t : List Byte) : ℕ := 3 + smsNumberBytelen (t.getD 2 0) (t.getD 1 0)

def tellsVoicemail (pid dcs : Byte) : Bool :=
  pid == 0x5f ||
    ((smsPduDecodeDcs dcs).mwiKind == .voicemail &&
      ((smsPduDecodeDcs dcs).mwiGroup == .discard || (smsPduDecodeDcs dcs).mwiGroup == .store))

/-- The payload of an accepted deliver TPDU, by its octets. -/
structure DeliverPayload (t : List Byte) (payload : GsmdSms) : Prop where
  header : payload.hasHeader = decide (t.getD 0 0 &&& GSMD_SMS_TP_UDHI_WITH_HEADER ≠ 0)
  voicemail : payload.isVoicemail =
    tellsVoicemail (t.getD (pidIndex t) 0) (t.getD (pidIndex t + 1) 0)
  scheme : codingSchemeOf (t.getD (pidIndex t + 1) 0) = .ok payload.codingScheme
  length : payload.length = t.getD (pidIndex t + 9) 0
  octets : smsDataBytelen payload.codingScheme payload.length ≤ GSMD_SMS_DATA_MAXLEN
  first : 0 < smsDataBytelen payload.codingScheme payload.length →
    payload.data.getD 0 0 = t.getD (pidIndex t + 10) 0

theorem userData_ok {read : GsmdSms} (h : userData payload src = .ok read) :
    ∃ length, src[0]? = some length ∧ read.length = length ∧
      read.codingScheme = payload.codingScheme ∧ read.hasHeader = payload.hasHeader ∧
      read.isVoicemail = payload.isVoicemail ∧
      smsDataBytelen payload.codingScheme length ≤ GSMD_SMS_DATA_MAXLEN ∧
      (0 < smsDataBytelen payload.codingScheme length → read.data[0]? = src[1]?) := by
  obtain ⟨length, hlength, h⟩ := except_bind_eq_ok_iff.mp h
  dsimp only at h
  split_ifs at h with hrefuse
  cases h
  refine ⟨length, octet_eq_ok_iff.mp hlength, rfl, rfl, rfl, rfl, by omega, fun hpos => ?_⟩
  have hroom : 0 < ((src.drop 1).take (smsDataBytelen payload.codingScheme length)).length := by
    rw [List.length_take, List.length_drop]
    omega
  dsimp only
  rw [storeData, List.getElem?_append_left hroom, List.getElem?_take_of_lt hpos,
    List.getElem?_drop]

theorem getD_of_drop {t : List Byte} {n i : ℕ} {b : Byte} (h : (t.drop n)[i]? = some b) :
    t.getD (n + i) 0 = b := by
  rw [List.getElem?_drop] at h
  rw [List.getD_eq_getElem?_getD, h, Option.getD_some]

theorem smsDeliver_payload {dst msg : GsmdSmsList} {t : List Byte} (h : smsDeliver dst t = .ok msg)
    (hheader : dst.payload.hasHeader =
      decide (t.getD 0 0 &&& GSMD_SMS_TP_UDHI_WITH_HEADER ≠ 0)) :
    DeliverPayload t msg.payload := by
  obtain ⟨_, -, h⟩ := except_bind_eq_ok_iff.mp h
  obtain ⟨type, htype, h⟩ := except_bind_eq_ok_iff.mp h
  obtain ⟨len, hlen, h⟩ := except_bind_eq_ok_iff.mp h
  obtain ⟨_, -, h⟩ := except_bind_eq_ok_iff.mp h
  obtain ⟨addr, -, h⟩ := except_bind_eq_ok_iff.mp h
  obtain ⟨pid, hpid, h⟩ := except_bind_eq_ok_iff.mp h
  obtain ⟨dcs, hdcs, h⟩ := except_bind_eq_ok_iff.mp h
  obtain ⟨codingScheme, hscheme, h⟩ := except_bind_eq_ok_iff.mp h
  obtain ⟨timeStamp, -, h⟩ := except_bind_eq_ok_iff.mp h
  obtain ⟨payload, hpayload, h⟩ := except_bind_eq_ok_iff.mp h
  cases h
  have hindex : pidIndex t = 3 + smsNumberBytelen type len := by
    have htype := octet_eq_ok_iff.mp htype
    have hlen := octet_eq_ok_iff.mp hlen
    rw [pidIndex, List.getD_eq_getElem?_getD, List.getD_eq_getElem?_getD, htype, hlen]
    rfl
  rw [← hindex] at hpid hdcs hpayload
  have hpid := getD_of_drop (octet_eq_ok_iff.mp hpid)
  have hdcs := getD_of_drop (octet_eq_ok_iff.mp hdcs)
  rw [Nat.add_zero] at hpid
  obtain ⟨length, hlength, hread, hscheme', hheader', hvoicemail, hlimit, hfirst⟩ :=
    userData_ok hpayload
  rw [List.drop_drop] at hlength hfirst
  have hlength := getD_of_drop hlength
  rw [Nat.add_zero] at hlength
  refine ⟨hheader'.trans hheader, ?_, ?_, ?_, ?_, ?_⟩
  · rw [hvoicemail, hpid, hdcs]
    rfl
  · rw [hdcs, hscheme, hscheme']
  · rw [hread, hlength]
  · rw [hread, hscheme']
    exact hlimit
  · intro hpos
    rw [hread, hscheme'] at hpos
    rw [List.getD_eq_getElem?_getD, List.getD_eq_getElem?_getD, hfirst hpos, List.getElem?_drop]

theorem smsPduToMsg_deliver {dst msg : GsmdSmsList} {pdulen : ℤ}
    (h : smsPduToMsg dst src pdulen = .ok msg)
    (hdeliver : (tpdu src).getD 0 0 &&& 3 = GSMD_SMS_TP_MTI_DELIVER) :
    DeliverPayload (tpdu src) msg.payload := by
  obtain ⟨_, -, h⟩ := except_bind_eq_ok_iff.mp h
  obtain ⟨smsc, hsmsc, h⟩ := except_bind_eq_ok_iff.mp h
  obtain ⟨_, -, h⟩ := except_bind_eq_ok_iff.mp h
  obtain ⟨first, hfirst, h⟩ := except_bind_eq_ok_iff.mp h
  have htpdu : src.drop (1 + smsc.toNat) = tpdu src := by
    rw [tpdu, List.getD_eq_getElem?_getD, octet_eq_ok_iff.mp hsmsc]
    rfl
  rw [htpdu] at hfirst h
  have hfirst : (tpdu src).getD 0 0 = first := by
    rw [List.getD_eq_getElem?_getD, octet_eq_ok_iff.mp hfirst]
    rfl
  rw [hfirst] at hdeliver
  rw [if_pos hdeliver] at h
  refine smsDeliver_payload h ?_
  rw [hfirst]

def deliverHeader (t : List Byte) : ℕ :=
  if t.getD 0 0 &&& GSMD_SMS_TP_UDHI_WITH_HEADER ≠ 0 then
    ((t.getD (pidIndex t + 10) 0).toNat * 8 + 14) / 7
  else 0

/-- Of a text in the default alphabet, no more than 164 septets are left behind the header. -/
def DeliverFits (t : List Byte) : Prop :=
  tellsVoicemail (t.getD (pidIndex t) 0) (t.getD (pidIndex t + 1) 0) = false →
    codingSchemeOf (t.getD (pidIndex t + 1) 0) = .ok ALPHABET_DEFAULT →
      (t.getD (pidIndex t + 9) 0).toNat - deliverHeader t ≤ GSMD_SMS_DATA_MAXLEN

/-- **Received messages.** A message that gsmd accepts stays inside the buffers of the phone kit if
and only if it fits; while the phone kit does not handle messages, each one does. -/
theorem contained_iff {dst msg : GsmdSmsList} {src : List Byte} {pdulen : ℤ} (handlingSms : Bool)
    (haccept : smsPduToMsg dst src pdulen = .ok msg)
    (hdeliver : (tpdu src).getD 0 0 &&& 3 = GSMD_SMS_TP_MTI_DELIVER) :
    Contained handlingSms msg.payload ↔ (handlingSms = true → DeliverFits (tpdu src)) := by
  have hpayload := smsPduToMsg_deliver haccept hdeliver
  rw [contained_payload_iff hpayload.octets]
  refine imp_congr_right fun _ => ?_
  unfold DeliverFits
  rw [← hpayload.voicemail, hpayload.scheme, ← hpayload.length, Except.ok.injEq]
  refine imp_congr_right fun _ => imp_congr_right fun hscheme => ?_
  by_cases hpos : 0 < smsDataBytelen msg.payload.codingScheme msg.payload.length
  · have hseptets : headerSeptets msg.payload = deliverHeader (tpdu src) := by
      unfold headerSeptets deliverHeader
      rw [hpayload.header, hpayload.first hpos]
      simp only [decide_eq_true_eq]
    rw [hseptets]
  · -- without user data there is nothing to unpack
    rw [smsDataBytelen, if_pos hscheme] at hpos
    have hzero : msg.payload.length.toNat = 0 := by omega
    rw [hzero, Nat.zero_sub, Nat.zero_sub]

/-- A message of the number 12 in the default alphabet. -/
def deliverPdu (length : Byte) (data : List Byte) : List Byte :=
  [0x00, 0x00, 0x02, 0x91, 0x21, 0x00, 0x00] ++ List.replicate 7 0 ++ length :: data

def newMessage : GsmdSmsList where
  index := 0
  timeStamp := []
  addr := { type := 0, number := [] }
  payload :=
    { length := 0
      codingScheme := 0
      hasHeader := false
      isVoicemail := false
      dcs := smsPduDecodeDcs 0
      tpMti := 0
      data := List.replicate 165 0
      data_length := rfl }

/-- The two characters `hi`. -/
theorem contained_hi :
    ∃ msg, smsPduToMsg newMessage (deliverPdu 2 [0xe8, 0x34]) 16 = .ok msg ∧
      Contained true msg.payload := by
  have haccept : (smsPduToMsg newMessage (deliverPdu 2 [0xe8, 0x34]) 16).isOk = true := by
    decide +kernel
  cases hmsg : smsPduToMsg newMessage (deliverPdu 2 [0xe8, 0x34]) 16 with
  | error fault =>
    rw [hmsg] at haccept
    cases haccept
  | ok msg => exact ⟨msg, rfl, (contained_iff true hmsg (by decide)).mpr fun _ _ _ => by decide⟩

/-- With 187 septets in 164 octets a message is let through. -/
theorem not_contained_long :
    ∃ msg, smsPduToMsg newMessage (deliverPdu 187 (List.replicate 164 0)) 178 = .ok msg ∧
      ¬Contained true msg.payload := by
  have haccept :
      (smsPduToMsg newMessage (deliverPdu 187 (List.replicate 164 0)) 178).isOk = true := by
    decide +kernel
  cases hmsg : smsPduToMsg newMessage (deliverPdu 187 (List.replicate 164 0)) 178 with
  | error fault =>
    rw [hmsg] at haccept
    cases haccept
  | ok msg =>
    have hpayload := smsPduToMsg_deliver hmsg (by decide)
    have hscheme : msg.payload.codingScheme = ALPHABET_DEFAULT :=
      (Except.ok.inj hpayload.scheme).symm
    have hheader : headerSeptets msg.payload = 0 := by
      rw [headerSeptets, hpayload.header]
      rfl
    refine ⟨msg, rfl, fun hcontained => ?_⟩
    have hfits := (contained_payload_iff hpayload.octets).mp hcontained rfl hpayload.voicemail
      hscheme
    rw [hheader, hpayload.length] at hfits
    exact absurd hfits (by decide)

end Openmoko.Phonekit.Received
