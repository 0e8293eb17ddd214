import Openmoko.Gsmd.Proof.StoredSubmit

/-!
# What the PDU decoder looks at and what it lets through

Each branch of `sms_pdu_to_msg` counts the octets of the address before it looks behind them, so
that an accepted message was read inside the array. Where it does not know how long a
field is, it accepts a message that ends in the middle of it.
-/

namespace Openmoko.Gsmd

theorem octet_of_lt {src : List Byte} {i : ℕ} (h : i < src.length) :
    octet src i = .ok (src.getD i 0) := by
  rw [octet_of_getElem? (List.getElem?_eq_getElem h), List.getD_eq_getElem?_getD,
    List.getElem?_eq_getElem h, Option.getD_some]

theorem octet_of_le {src : List Byte} {i : ℕ} (h : src.length ≤ i) :
    octet src i = .error .overrun := by
  rw [octet, List.getElem?_eq_none h]

theorem refuseIf_of {cond : Prop} [Decidable cond] (hcond : cond) :
    refuseIf (decide cond) = .error .refused := by
  rw [refuseIf, if_pos]
  simpa using hcond

@[simp]
theorem error_bind {α β : Type} (fault : PduFault) (f : α → Except PduFault β) :
    (Except.error fault >>= f) = .error fault := rfl

theorem getD_drop (t : List Byte) (k i : ℕ) : (t.drop k).getD i 0 = t.getD (k + i) 0 := by
  simp [List.getD_eq_getElem?_getD]

def addressOctets (t : List Byte) (k : ℕ) : ℕ :=
  smsNumberBytelen (t.getD (k + 1) 0) (t.getD k 0)

theorem smsNumberBytelen_eq (type len : Byte) :
    smsNumberBytelen type len = (len.toNat + 1) / 2 := by
  rw [smsNumberBytelen, ite_self]

theorem addressOctets_eq (t : List Byte) (k : ℕ) :
    addressOctets t k = ((t.getD k 0).toNat + 1) / 2 :=
  smsNumberBytelen_eq _ _

theorem addressOctets_drop (t : List Byte) (k i : ℕ) :
    addressOctets (t.drop k) i = addressOctets t (k + i) := by
  rw [addressOctets_eq, addressOctets_eq, getD_drop]

theorem smsAddress2ascii_refused {src : List Byte} (hne : src ≠ [])
    (hlen : GSMD_ADDR_MAXLEN < (src.getD 0 0).toNat) :
    smsAddress2ascii src = .error .refused := by
  rw [smsAddress2ascii, octet_of_lt (List.length_pos_of_ne_nil hne), ok_bind, refuseIf_of hlen,
    error_bind]

theorem smsAddress2ascii_ok {src : List Byte} (hlen : (src.getD 0 0).toNat ≤ GSMD_ADDR_MAXLEN)
    (hroom : 2 + addressOctets src 0 < src.length) : ∃ addr, smsAddress2ascii src = .ok addr := by
  rw [addressOctets_eq] at hroom
  have hzero : 0 < src.length := by omega
  have hone : 1 < src.length := by omega
  rw [smsAddress2ascii, octet_of_lt hzero, ok_bind, refuseIf_of_not (Nat.not_lt.mpr hlen), ok_bind,
    octet_of_lt hone, ok_bind]
  split
  next halpha =>
    have hread : ∀ i ∈ (List.range GSMD_ADDR_MAXLEN).takeWhile
        (fun i => (i * 7 + 3) / 4 < (src.getD 0 0).toNat), addressSeptet src i =
          .ok (((src.getD (2 + (i * 7 + 7) / 8) 0 <<< UInt8.ofNat (7 - (i * 7 + 7) % 8)) |||
            (src.getD (2 + i * 7 / 8) 0 >>> UInt8.ofNat (i * 7 % 8))) &&& 0x7f) := by
      intro i hi
      have hloop : (i * 7 + 3) / 4 < (src.getD 0 0).toNat := by
        simpa using List.mem_takeWhile_imp hi
      rw [addressSeptet, octet_of_lt (by omega), ok_bind, octet_of_lt (by omega), ok_bind]
      rfl
    rw [mapM_ok hread, ok_bind]
    exact ⟨_, rfl⟩
  next hdigits =>
    have hread : ∀ i ∈ List.range (src.getD 0 0).toNat, semiOctet src i =
        .ok (CH_0 + ((src.getD (2 + i / 2) 0 >>> UInt8.ofNat (4 * i % 8)) &&& 0xf)) := by
      intro i hi
      have hloop := List.mem_range.mp hi
      rw [semiOctet, octet_of_lt (by omega), ok_bind]
      rfl
    rw [mapM_ok hread, ok_bind]
    exact ⟨_, rfl⟩

theorem mapM_length {α : Type} {f : α → Except PduFault Byte} {l : List α} {bytes : List Byte}
    (hmap : l.mapM f = .ok bytes) : bytes.length = l.length := by
  induction l generalizing bytes with
  | nil =>
    obtain rfl := Except.ok.inj hmap
    rfl
  | cons a l ih =>
    rw [List.mapM_cons] at hmap
    obtain ⟨b, -, hrest⟩ := except_bind_eq_ok_iff.mp hmap
    obtain ⟨bs, hbs, hok⟩ := except_bind_eq_ok_iff.mp hrest
    obtain rfl := Except.ok.inj hok
    rw [List.length_cons, List.length_cons, ih hbs]

theorem smsAddress2ascii_number {src : List Byte} {addr : GsmdAddr}
    (hread : smsAddress2ascii src = .ok addr) : addr.number.length ≤ GSMD_ADDR_MAXLEN := by
  rw [smsAddress2ascii] at hread
  obtain ⟨len, -, hread⟩ := except_bind_eq_ok_iff.mp hread
  obtain ⟨_, hlen, hread⟩ := except_bind_eq_ok_iff.mp hread
  obtain ⟨type, -, hread⟩ := except_bind_eq_ok_iff.mp hread
  dsimp only at hread
  split at hread
  next halpha =>
    obtain ⟨number, hnumber, hread⟩ := except_bind_eq_ok_iff.mp hread
    obtain rfl := Except.ok.inj hread
    rw [mapM_length hnumber]
    exact (List.takeWhile_sublist _).length_le.trans_eq List.length_range
  next hdigits =>
    obtain ⟨number, hnumber, hread⟩ := except_bind_eq_ok_iff.mp hread
    obtain rfl := Except.ok.inj hread
    rw [mapM_length hnumber, List.length_range]
    by_contra hlong
    rw [refuseIf_of (Nat.not_le.mp hlong)] at hlen
    cases hlen

def UserDataFits (scheme : Byte) (src : List Byte) : Prop :=
  1 + smsDataBytelen scheme (src.getD 0 0) ≤ src.length ∧
    smsDataBytelen scheme (src.getD 0 0) ≤ GSMD_SMS_DATA_MAXLEN

instance (scheme : Byte) (src : List Byte) : Decidable (UserDataFits scheme src) :=
  inferInstanceAs (Decidable (_ ∧ _))

theorem userData_fits (payload : GsmdSms) {src : List Byte}
    (hfits : UserDataFits payload.codingScheme src) :
    ∃ read, userData payload src = .ok read ∧ read.length = src.getD 0 0 ∧
      read.codingScheme = payload.codingScheme ∧ read.dcs = payload.dcs ∧
      read.data = storeData payload.data
        ((src.drop 1).take (smsDataBytelen payload.codingScheme (src.getD 0 0))) := by
  have hpos : 0 < src.length := Nat.lt_of_lt_of_le (by omega) hfits.1
  rw [userData, octet_of_lt hpos, ok_bind]
  dsimp only
  split
  next hrefuse =>
    obtain ⟨hlen, hmax⟩ := hfits
    omega
  next haccept => exact ⟨_, rfl, rfl, rfl, rfl, rfl⟩

theorem userData_refused (payload : GsmdSms) {src : List Byte} (hne : src ≠ [])
    (hfits : ¬UserDataFits payload.codingScheme src) : userData payload src = .error .refused := by
  rw [userData, octet_of_lt (List.length_pos_of_ne_nil hne), ok_bind]
  dsimp only
  split
  next hrefuse => rfl
  next haccept =>
    rw [not_or, Nat.not_lt, Nat.not_lt] at haccept
    exact absurd haccept hfits

def CodingGroupDefined (dcs : Byte) : Prop := dcs >>> 4 ≤ 3 ∨ (0xc : Byte) ≤ dcs >>> 4

instance (dcs : Byte) : Decidable (CodingGroupDefined dcs) := inferInstanceAs (Decidable (_ ∨ _))

/-- The reserved alphabet, and an indication to be discarded whose other bits are set:
`sms_pdu_decode_dcs` reads both as the default alphabet. -/
def TakenForAnother (dcs : Byte) : Prop :=
  (dcs >>> 4 ≤ 3 ∧ dcs &&& 0xc = 0xc) ∨ (dcs >>> 4 = 0xc ∧ dcs &&& 0xc ≠ 0)

instance (dcs : Byte) : Decidable (TakenForAnother dcs) := inferInstanceAs (Decidable (_ ∨ _))

theorem forall_byte {p : Byte → Prop} (h : ∀ n : Fin 256, p (UInt8.ofNat n.val)) (b : Byte) :
    p b := by
  have hb := h ⟨b.toNat, b.toNat_lt⟩
  rwa [UInt8.ofNat_toNat] at hb

def schemeRead (dcs : Byte) : Byte :=
  if TakenForAnother dcs then dcs &&& 0xc else (smsPduDecodeDcs dcs).alphabet.scheme

theorem codingSchemeOf_eq : ∀ dcs : Byte, codingSchemeOf dcs =
    if CodingGroupDefined dcs then .ok (schemeRead dcs) else .error .refused := by
  refine forall_byte ?_
  decide +kernel

theorem schemeRead_eq_iff : ∀ dcs : Byte, CodingGroupDefined dcs →
    (schemeRead dcs = (smsPduDecodeDcs dcs).alphabet.scheme ↔ ¬TakenForAnother dcs) := by
  refine forall_byte ?_
  decide +kernel

theorem octet_drop {t : List Byte} {k i : ℕ} (h : k + i < t.length) :
    octet (t.drop k) i = .ok (t.getD (k + i) 0) := by
  rw [octet_of_lt (by rw [List.length_drop]; omega), getD_drop]

def TextAccepted (dcs : Byte) (src : List Byte) : Prop :=
  CodingGroupDefined dcs ∧ UserDataFits (schemeRead dcs) src

instance (dcs : Byte) (src : List Byte) : Decidable (TextAccepted dcs src) :=
  inferInstanceAs (Decidable (_ ∧ _))

def readText (dcs : Byte) (payload : Byte → GsmdSms) (src : List Byte) : Except PduFault GsmdSms :=
  codingSchemeOf dcs >>= fun codingScheme => userData (payload codingScheme) src

section Text

variable {dcs : Byte} (payload : Byte → GsmdSms) {src : List Byte}
  (hscheme : ∀ codingScheme, (payload codingScheme).codingScheme = codingScheme)
include hscheme

theorem readText_accepted (haccepted : TextAccepted dcs src) :
    ∃ read, readText dcs payload src = .ok read ∧ read.length = src.getD 0 0 ∧
      read.codingScheme = schemeRead dcs ∧
      read.data = storeData (payload (schemeRead dcs)).data
        ((src.drop 1).take (smsDataBytelen (schemeRead dcs) (src.getD 0 0))) := by
  obtain ⟨hgroup, hfits⟩ := haccepted
  rw [← hscheme (schemeRead dcs)] at hfits
  obtain ⟨read, hread, hlength, htaken, -, hdata⟩ := userData_fits (payload (schemeRead dcs)) hfits
  rw [hscheme] at htaken hdata
  exact ⟨read, by rw [readText, codingSchemeOf_eq, if_pos hgroup, ok_bind, hread], hlength, htaken,
    hdata⟩

theorem readText_refused (hne : src ≠ []) (hrefused : ¬TextAccepted dcs src) :
    readText dcs payload src = .error .refused := by
  rw [readText, codingSchemeOf_eq]
  split
  next hgroup =>
    rw [ok_bind]
    exact userData_refused _ hne (by rw [hscheme]; exact fun hfits => hrefused ⟨hgroup, hfits⟩)
  next hgroup => rw [error_bind]

end Text

/-! ### Messages that are received -/

/-- The octets counted for the address at `i` and the `least` others are there, and the address is
not too long. -/
structure Addressed (least i : ℕ) (t : List Byte) : Prop where
  counted : least + addressOctets t i ≤ t.length
  address : (t.getD i 0).toNat ≤ GSMD_ADDR_MAXLEN

section Addressed

variable {least i : ℕ} {t : List Byte}

theorem address_refused {α : Type} (hleast : i < least) (hrefused : ¬Addressed least i t)
    (next : GsmdAddr → Except PduFault α) :
    (refuseIf (t.length < least + addressOctets t i) >>= fun _ =>
      smsAddress2ascii (t.drop i) >>= next) = .error .refused := by
  by_cases hshort : t.length < least + addressOctets t i
  · rw [refuseIf_of hshort, error_bind]
  have hne : t.drop i ≠ [] := by
    rw [← List.length_pos_iff, List.length_drop]
    omega
  have hlong : GSMD_ADDR_MAXLEN < (t.getD i 0).toNat := by
    by_contra haddr
    exact hrefused ⟨Nat.not_lt.mp hshort, Nat.not_lt.mp haddr⟩
  rw [refuseIf_of_not hshort, ok_bind, smsAddress2ascii_refused hne (by rwa [getD_drop]), error_bind]

theorem Addressed.ok (haddressed : Addressed least i t) (hleast : i + 2 < least) :
    ∃ addr, smsAddress2ascii (t.drop i) = .ok addr := by
  have hcounted := haddressed.counted
  refine smsAddress2ascii_ok (by rw [getD_drop]; exact haddressed.address) ?_
  rw [addressOctets_drop, List.length_drop, Nat.add_zero]
  omega

end Addressed

section Deliver

variable (dst : GsmdSmsList) (t : List Byte)

theorem smsDeliver_unaddressed (hrefused : ¬Addressed 13 1 t) :
    smsDeliver dst t = .error .refused := by
  unfold smsDeliver
  by_cases hthree : t.length < 3
  · rw [refuseIf_of hthree, error_bind]
  · rw [refuseIf_of_not hthree, ok_bind, octet_of_lt (by omega), ok_bind, octet_of_lt (by omega),
      ok_bind]
    simp only [smsNumberBytelen_eq, ← addressOctets_eq t 1]
    exact address_refused (by decide) hrefused _

variable (haddressed : Addressed 13 1 t)
include haddressed

theorem smsDeliver_eq :
    ∃ addr timeStamp voicemail, smsDeliver dst t =
      readText (t.getD (4 + addressOctets t 1) 0)
        (fun codingScheme => { dst.payload with
          tpMti := GSMD_SMS_TP_MTI_DELIVER
          dcs := smsPduDecodeDcs (t.getD (4 + addressOctets t 1) 0)
          codingScheme := codingScheme
          isVoicemail := voicemail })
        (t.drop (12 + addressOctets t 1)) >>= fun payload =>
          .ok { dst with addr := addr, timeStamp := timeStamp, payload := payload } := by
  obtain ⟨addr, hread⟩ := haddressed.ok (by decide)
  have hlen := haddressed.counted
  have hstamp : octets (t.drop (3 + addressOctets t 1)) 2 7 =
      .ok (((t.drop (3 + addressOctets t 1)).drop 2).take 7) := by
    rw [octets, if_pos]
    rw [List.length_drop]
    omega
  refine ⟨addr, ((t.drop (3 + addressOctets t 1)).drop 2).take 7,
    t.getD (3 + addressOctets t 1) 0 == 0x5f ||
      ((smsPduDecodeDcs (t.getD (4 + addressOctets t 1) 0)).mwiKind == .voicemail &&
        ((smsPduDecodeDcs (t.getD (4 + addressOctets t 1) 0)).mwiGroup == .discard ||
          (smsPduDecodeDcs (t.getD (4 + addressOctets t 1) 0)).mwiGroup == .store)), ?_⟩
  have hdcs : 3 + addressOctets t 1 + 1 = 4 + addressOctets t 1 := by omega
  have hudl : 3 + addressOctets t 1 + 9 = 12 + addressOctets t 1 := by omega
  unfold smsDeliver
  rw [refuseIf_of_not (by omega), ok_bind, octet_of_lt (by omega), ok_bind, octet_of_lt (by omega),
    ok_bind]
  simp only [smsNumberBytelen_eq, ← addressOctets_eq t 1]
  rw [refuseIf_of_not (Nat.not_lt.mpr hlen), ok_bind, hread, ok_bind, octet_drop (by omega),
    ok_bind, octet_drop (by omega), ok_bind]
  simp only [hstamp, ok_bind, List.drop_drop, hdcs, hudl, Nat.add_zero]
  rw [readText, bind_assoc]
  rfl

end Deliver

structure DeliverAccepted (t : List Byte) : Prop extends Addressed 13 1 t where
  text : TextAccepted (t.getD (4 + addressOctets t 1) 0) (t.drop (12 + addressOctets t 1))

theorem smsDeliver_accepted (dst : GsmdSmsList) {t : List Byte} (haccepted : DeliverAccepted t) :
    ∃ msg, smsDeliver dst t = .ok msg ∧
      msg.payload.codingScheme = schemeRead (t.getD (4 + addressOctets t 1) 0) ∧
      msg.payload.data = storeData dst.payload.data ((t.drop (13 + addressOctets t 1)).take
        (smsDataBytelen (schemeRead (t.getD (4 + addressOctets t 1) 0))
          (t.getD (12 + addressOctets t 1) 0))) := by
  obtain ⟨addr, timeStamp, voicemail, heq⟩ := smsDeliver_eq dst t haccepted.toAddressed
  obtain ⟨read, hread, -, hscheme, hdata⟩ := readText_accepted
    (fun codingScheme => { dst.payload with
      tpMti := GSMD_SMS_TP_MTI_DELIVER
      dcs := smsPduDecodeDcs (t.getD (4 + addressOctets t 1) 0)
      codingScheme := codingScheme
      isVoicemail := voicemail })
    (fun _ => rfl) haccepted.text
  have hskip : 12 + addressOctets t 1 + 1 = 13 + addressOctets t 1 := by omega
  rw [heq, hread, ok_bind]
  rw [List.drop_drop, getD_drop, Nat.add_zero, hskip] at hdata
  exact ⟨_, rfl, hscheme, hdata⟩

theorem smsDeliver_refused (dst : GsmdSmsList) {t : List Byte} (hrefused : ¬DeliverAccepted t) :
    smsDeliver dst t = .error .refused := by
  by_cases haddressed : Addressed 13 1 t
  · have hne : t.drop (12 + addressOctets t 1) ≠ [] := by
      have := haddressed.counted
      rw [← List.length_pos_iff, List.length_drop]
      omega
    obtain ⟨addr, timeStamp, voicemail, heq⟩ := smsDeliver_eq dst t haddressed
    rw [heq, readText_refused _ (fun _ => rfl) hne fun htext => hrefused ⟨haddressed, htext⟩,
      error_bind]
  · exact smsDeliver_unaddressed dst t haddressed

def lengthExpected (vpf : Byte) (t : List Byte) : ℕ :=
  if vpf ≠ 0 then 7 + addressOctets t 2 else 6 + addressOctets t 2

section Submit

variable (dst : GsmdSmsList) (vpf : Byte) (t : List Byte)

theorem smsSubmit_unaddressed (hrefused : ¬Addressed 8 2 t) :
    smsSubmit dst vpf t = .error .refused := by
  unfold smsSubmit
  by_cases hfour : t.length < 4
  · rw [refuseIf_of hfour, error_bind]
  · rw [refuseIf_of_not hfour, ok_bind, octet_of_lt (by omega), ok_bind, octet_of_lt (by omega),
      ok_bind]
    simp only [smsNumberBytelen_eq, ← addressOctets_eq t 2]
    exact address_refused (by decide) hrefused _

variable (haddressed : Addressed 8 2 t)
include haddressed

theorem smsSubmit_eq :
    ∃ addr, smsSubmit dst vpf t =
      readText (t.getD (5 + addressOctets t 2) 0)
        (fun codingScheme => { dst.payload with
          tpMti := GSMD_SMS_TP_MTI_SUBMIT
          codingScheme := codingScheme })
        (t.drop (lengthExpected vpf t)) >>= fun payload =>
          .ok { dst with
            addr := addr, timeStamp := List.replicate 7 0, payload := payload } := by
  obtain ⟨addr, hread⟩ := haddressed.ok (by decide)
  have hlen := haddressed.counted
  refine ⟨addr, ?_⟩
  have hdcs : 4 + addressOctets t 2 + 1 = 5 + addressOctets t 2 := by omega
  have hudl : 4 + addressOctets t 2 + (if vpf ≠ 0 then 3 else 2) = lengthExpected vpf t := by
    unfold lengthExpected
    split <;> omega
  unfold smsSubmit
  rw [refuseIf_of_not (by omega), ok_bind, octet_of_lt (by omega), ok_bind, octet_of_lt (by omega),
    ok_bind]
  simp only [smsNumberBytelen_eq, ← addressOctets_eq t 2]
  rw [refuseIf_of_not (Nat.not_lt.mpr hlen), ok_bind, hread, ok_bind, octet_drop (by omega),
    ok_bind]
  simp only [List.drop_drop, hdcs, hudl]
  rw [readText, bind_assoc]
  rfl

end Submit

structure SubmitAccepted (vpf : Byte) (t : List Byte) : Prop extends Addressed 8 2 t where
  text : TextAccepted (t.getD (5 + addressOctets t 2) 0) (t.drop (lengthExpected vpf t))

theorem smsSubmit_accepted (dst : GsmdSmsList) {vpf : Byte} {t : List Byte}
    (haccepted : SubmitAccepted vpf t) :
    ∃ msg, smsSubmit dst vpf t = .ok msg ∧
      msg.payload.data = storeData dst.payload.data (((t.drop (lengthExpected vpf t)).drop 1).take
        (smsDataBytelen (schemeRead (t.getD (5 + addressOctets t 2) 0))
          ((t.drop (lengthExpected vpf t)).getD 0 0))) := by
  obtain ⟨addr, heq⟩ := smsSubmit_eq dst vpf t haccepted.toAddressed
  obtain ⟨read, hread, -, -, hdata⟩ := readText_accepted
    (fun codingScheme => { dst.payload with
      tpMti := GSMD_SMS_TP_MTI_SUBMIT, codingScheme := codingScheme })
    (fun _ => rfl) haccepted.text
  rw [heq, hread, ok_bind]
  exact ⟨_, rfl, hdata⟩

theorem smsSubmit_refused (dst : GsmdSmsList) {vpf : Byte} {t : List Byte}
    (hrefused : ¬SubmitAccepted vpf t) : smsSubmit dst vpf t = .error .refused := by
  by_cases haddressed : Addressed 8 2 t
  · have hne : t.drop (lengthExpected vpf t) ≠ [] := by
      have := haddressed.counted
      rw [← List.length_pos_iff, List.length_drop, lengthExpected]
      split <;> omega
    obtain ⟨addr, heq⟩ := smsSubmit_eq dst vpf t haddressed
    rw [heq, readText_refused _ (fun _ => rfl) hne fun htext => hrefused ⟨haddressed, htext⟩,
      error_bind]
  · exact smsSubmit_unaddressed dst vpf t haddressed

def ReportAccepted (t : List Byte) : Prop := Addressed 13 2 t

theorem smsStatusReport_accepted (dst : GsmdSmsList) {t : List Byte}
    (haccepted : ReportAccepted t) :
    ∃ msg, smsStatusReport dst t = .ok msg ∧
      msg.payload.data = storeData dst.payload.data [] := by
  obtain ⟨addr, hread⟩ := Addressed.ok haccepted (by decide)
  have hlen := haccepted.counted
  have hstamp : octets (t.drop (4 + addressOctets t 2)) 0 7 =
      .ok (((t.drop (4 + addressOctets t 2)).drop 0).take 7) := by
    rw [octets, if_pos]
    rw [List.length_drop]
    omega
  unfold smsStatusReport
  rw [refuseIf_of_not (by omega), ok_bind, octet_of_lt (by omega), ok_bind, octet_of_lt (by omega),
    ok_bind, octet_of_lt (by omega), ok_bind, octet_of_lt (by omega), ok_bind]
  simp only [smsNumberBytelen_eq, ← addressOctets_eq t 2]
  rw [refuseIf_of_not (Nat.not_lt.mpr hlen), ok_bind, hread, ok_bind, hstamp, ok_bind]
  exact ⟨_, rfl, rfl⟩

theorem smsStatusReport_overrun (dst : GsmdSmsList) {t : List Byte} (hlen : t.length = 3) :
    smsStatusReport dst t = .error .overrun := by
  unfold smsStatusReport
  rw [refuseIf_of_not (by omega), ok_bind, octet_of_lt (by omega), ok_bind, octet_of_lt (by omega),
    ok_bind, octet_of_le (by omega), error_bind]

theorem smsStatusReport_refused (dst : GsmdSmsList) {t : List Byte} (hthree : t.length ≠ 3)
    (hrefused : ¬ReportAccepted t) : smsStatusReport dst t = .error .refused := by
  unfold smsStatusReport
  by_cases hshort : t.length < 3
  · rw [refuseIf_of hshort, error_bind]
  rw [refuseIf_of_not hshort, ok_bind, octet_of_lt (by omega), ok_bind, octet_of_lt (by omega),
    ok_bind, octet_of_lt (by omega), ok_bind, octet_of_lt (by omega), ok_bind]
  simp only [smsNumberBytelen_eq, ← addressOctets_eq t 2]
  exact address_refused (by decide) hrefused _

def tpduOf (src : List Byte) : List Byte := src.drop (1 + (src.getD 0 0).toNat)

def messageType (t : List Byte) : Byte := t.getD 0 0 &&& 3

def validityFormat (t : List Byte) : Byte := (t.getD 0 0 >>> 3) &&& 3

structure Announced (src : List Byte) (pdulen : ℤ) : Prop where
  nonempty : 1 ≤ src.length
  positive : 1 ≤ pdulen
  present : 1 + ((src.getD 0 0).toNat : ℤ) + pdulen ≤ src.length

theorem Announced.tpduOf_pos {src : List Byte} {pdulen : ℤ} (hannounced : Announced src pdulen) :
    0 < (tpduOf src).length := by
  obtain ⟨-, hpositive, hpresent⟩ := hannounced
  rw [tpduOf, List.length_drop]
  omega

theorem smsPduToMsg_refused (dst : GsmdSmsList) {src : List Byte} {pdulen : ℤ}
    (hannounced : ¬Announced src pdulen) : smsPduToMsg dst src pdulen = .error .refused := by
  unfold smsPduToMsg
  by_cases hempty : src.length < 1
  · rw [refuseIf_of hempty, error_bind]
  rw [refuseIf_of_not hempty, ok_bind, octet_of_lt (by omega), ok_bind, refuseIf, if_pos,
    error_bind]
  rw [Bool.or_eq_true, decide_eq_true_eq, decide_eq_true_eq]
  by_contra hpassed
  rw [not_or, Int.not_lt, Int.not_lt] at hpassed
  exact hannounced ⟨by omega, hpassed.2, hpassed.1⟩

theorem smsPduToMsg_branch (dst : GsmdSmsList) {src : List Byte} {pdulen : ℤ}
    (hannounced : Announced src pdulen) :
    ∃ start : GsmdSmsList, start.payload.data = dst.payload.data ∧ smsPduToMsg dst src pdulen =
      if messageType (tpduOf src) = GSMD_SMS_TP_MTI_DELIVER then smsDeliver start (tpduOf src)
      else if messageType (tpduOf src) = GSMD_SMS_TP_MTI_SUBMIT then
        smsSubmit start (validityFormat (tpduOf src)) (tpduOf src)
      else if messageType (tpduOf src) = GSMD_SMS_TP_MTI_STATUS_REPORT then
        smsStatusReport start (tpduOf src)
      else .error .refused := by
  have hpos := hannounced.tpduOf_pos
  obtain ⟨hnonempty, hpositive, hpresent⟩ := hannounced
  have hpassed : (decide ((src.length : ℤ) < 1 + (src.getD 0 0).toNat + pdulen) ||
      decide (pdulen < 1)) = false := by
    rw [Bool.or_eq_false_iff, decide_eq_false_iff_not, decide_eq_false_iff_not]
    omega
  refine ⟨{ dst with
    payload := { dst.payload with
      isVoicemail := false
      hasHeader := (tpduOf src).getD 0 0 &&& GSMD_SMS_TP_UDHI_WITH_HEADER ≠ 0 } }, rfl, ?_⟩
  unfold smsPduToMsg
  rw [refuseIf_of_not (by omega), ok_bind, octet_of_lt (by omega), ok_bind, hpassed, refuseIf,
    if_neg Bool.false_ne_true, ok_bind]
  have hfirst : octet (src.drop (1 + (src.getD 0 0).toNat)) 0 = .ok ((tpduOf src).getD 0 0) :=
    octet_of_lt hpos
  simp only [hfirst, ok_bind]
  rfl

theorem smsPduToMsg_ofDeliver (dst : GsmdSmsList) {src : List Byte} {pdulen : ℤ}
    (hannounced : Announced src pdulen)
    (htype : messageType (tpduOf src) = GSMD_SMS_TP_MTI_DELIVER) :
    ∃ start : GsmdSmsList, start.payload.data = dst.payload.data ∧
      smsPduToMsg dst src pdulen = smsDeliver start (tpduOf src) := by
  obtain ⟨start, hdata, hbranch⟩ := smsPduToMsg_branch dst hannounced
  rw [if_pos htype] at hbranch
  exact ⟨start, hdata, hbranch⟩

def deliverAlphabet (t : List Byte) : AlphabetType :=
  (smsPduDecodeDcs (t.getD (4 + addressOctets t 1) 0)).alphabet

def deliverOctets (t : List Byte) : ℕ :=
  (deliverAlphabet t).octets (t.getD (12 + addressOctets t 1) 0).toNat

/-- The scheme is that of the alphabet, and so many octets as the length denotes are copied, all of
them from the message. -/
structure DeliverAgrees (t : List Byte) (dst msg : GsmdSmsList) : Prop where
  scheme : msg.payload.codingScheme = (deliverAlphabet t).scheme
  copied : msg.payload.data = storeData dst.payload.data
    ((t.drop (13 + addressOctets t 1)).take (deliverOctets t))
  contained : 13 + addressOctets t 1 + deliverOctets t ≤ t.length

/-- **Two decoders of one octet.** A received message that is accepted has the coding scheme and the
text that `sms_pdu_decode_dcs` stands for, unless its octet is one that the two take differently. -/
theorem deliver_agrees_iff {dst msg : GsmdSmsList} {src : List Byte} {pdulen : ℤ}
    (htype : messageType (tpduOf src) = GSMD_SMS_TP_MTI_DELIVER)
    (hread : smsPduToMsg dst src pdulen = .ok msg) :
    DeliverAgrees (tpduOf src) dst msg ↔
      ¬TakenForAnother ((tpduOf src).getD (4 + addressOctets (tpduOf src) 1) 0) := by
  have hannounced : Announced src pdulen := by
    by_contra hannounced
    rw [smsPduToMsg_refused dst hannounced] at hread
    cases hread
  obtain ⟨start, hstart, hbranch⟩ := smsPduToMsg_ofDeliver dst hannounced htype
  rw [hbranch] at hread
  generalize tpduOf src = t at hread ⊢
  have haccepted : DeliverAccepted t := by
    by_contra hrefused
    rw [smsDeliver_refused start hrefused] at hread
    cases hread
  obtain ⟨read, hok, hscheme, hdata⟩ := smsDeliver_accepted start haccepted
  obtain rfl : read = msg := Except.ok.inj (hok.symm.trans hread)
  have hiff := schemeRead_eq_iff _ haccepted.text.1
  refine ⟨fun hagrees => hiff.mp (hscheme.symm.trans hagrees.scheme), fun hsame => ?_⟩
  have hsame := hiff.mpr hsame
  have hoctets : smsDataBytelen (schemeRead (t.getD (4 + addressOctets t 1) 0))
      (t.getD (12 + addressOctets t 1) 0) = deliverOctets t := by
    rw [hsame, smsDataBytelen_scheme]
    rfl
  refine ⟨hscheme.trans hsame, ?_, ?_⟩
  · rw [hdata, hoctets, hstart]
  · have hfits := haccepted.text.2.1
    rw [getD_drop, Nat.add_zero, hoctets, List.length_drop] at hfits
    have hcounted := haccepted.counted
    omega

def twoOctets (dcs : Byte) : List Byte :=
  [0x00, 0x04, 0x00, 0x91, 0x00, dcs, 0x70, 0x10, 0x20, 0x30, 0x40, 0x50, 0x00, 0x02, 0x41, 0x42]

theorem deliver_agrees_plain : ∃ msg, smsPduToMsg blankMessage (twoOctets 0x00) 15 = .ok msg ∧
    (DeliverAgrees (tpduOf (twoOctets 0x00)) blankMessage msg ↔ ¬TakenForAnother 0x00) := by
  obtain ⟨msg, hread⟩ : ∃ msg, smsPduToMsg blankMessage (twoOctets 0x00) 15 = .ok msg := ⟨_, rfl⟩
  exact ⟨msg, hread, deliver_agrees_iff rfl hread⟩

/-- An active indication to be discarded is taken for a text of UCS2 characters. -/
theorem discard_taken : ∃ msg, smsPduToMsg blankMessage (twoOctets 0xC8) 15 = .ok msg ∧
    messageType (tpduOf (twoOctets 0xC8)) = GSMD_SMS_TP_MTI_DELIVER ∧
    ¬DeliverAgrees (tpduOf (twoOctets 0xC8)) blankMessage msg :=
  ⟨_, rfl, rfl, fun hagrees => absurd hagrees.scheme (by decide)⟩

def deliverLength (t : List Byte) : ℕ := 13 + addressOctets t 1 + deliverOctets t

def validityOctets (t : List Byte) : ℕ :=
  if validityFormat t = 0 then 0 else if validityFormat t = 2 then 1 else 7

def submitDcs (t : List Byte) : Byte := t.getD (5 + addressOctets t 2) 0

def submitLength (t : List Byte) : ℕ :=
  7 + addressOctets t 2 + validityOctets t + (smsPduDecodeDcs (submitDcs t)).alphabet.octets
    (t.getD (6 + addressOctets t 2 + validityOctets t) 0).toNat

def reportLength (t : List Byte) : ℕ := 19 + addressOctets t 2

def MalformedTpdu (t : List Byte) : Prop :=
  if messageType t = GSMD_SMS_TP_MTI_DELIVER then
    ¬CodingGroupDefined (t.getD (4 + addressOctets t 1) 0) ∨ t.length < deliverLength t
  else if messageType t = GSMD_SMS_TP_MTI_SUBMIT then
    ¬CodingGroupDefined (submitDcs t) ∨ t.length < submitLength t
  else if messageType t = GSMD_SMS_TP_MTI_STATUS_REPORT then t.length < reportLength t
  else True

def Malformed (src : List Byte) (pdulen : ℤ) : Prop :=
  ¬Announced src pdulen ∨ MalformedTpdu (tpduOf src)

/-- Nothing is read outside of `src`, the address and the text are written inside their arrays, and
what is malformed is refused. -/
structure PduGuarded (src : List Byte) (pdulen : ℤ) : Prop where
  read : ∀ dst, smsPduToMsg dst src pdulen ≠ .error .overrun
  number : ∀ k addr, smsAddress2ascii (src.drop k) = .ok addr →
    addr.number.length ≤ GSMD_ADDR_MAXLEN
  data : ∀ dst msg, smsPduToMsg dst src pdulen = .ok msg → ∃ copied : List Byte,
    copied.length ≤ GSMD_SMS_DATA_MAXLEN ∧
      msg.payload.data = storeData dst.payload.data copied
  refused : Malformed src pdulen → ∀ dst, smsPduToMsg dst src pdulen = .error .refused

/-! ### What slips through -/

def ReservedAlphabet (dcs : Byte) : Prop :=
  (dcs >>> 4 ≤ 3 ∨ dcs >>> 4 = 0xc) ∧ dcs &&& 0xc = 0xc

instance (dcs : Byte) : Decidable (ReservedAlphabet dcs) := inferInstanceAs (Decidable (_ ∧ _))

theorem schemeRead_reserved : ∀ dcs : Byte, ReservedAlphabet dcs →
    CodingGroupDefined dcs ∧ schemeRead dcs = 0xc := by
  refine forall_byte ?_
  decide +kernel

theorem schemeRead_taken : ∀ dcs : Byte, TakenForAnother dcs → ¬ReservedAlphabet dcs →
    (smsPduDecodeDcs dcs).alphabet = .sevenBitDefault ∧
      schemeRead dcs ∈ [ALPHABET_8BIT, ALPHABET_UCS2] := by
  refine forall_byte ?_
  decide +kernel

theorem textAccepted_reserved {dcs : Byte} (hreserved : ReservedAlphabet dcs) {src : List Byte}
    (hne : src ≠ []) : TextAccepted dcs src := by
  obtain ⟨hgroup, hscheme⟩ := schemeRead_reserved dcs hreserved
  have hnone : smsDataBytelen (schemeRead dcs) (src.getD 0 0) = 0 := by
    rw [hscheme]
    rfl
  refine ⟨hgroup, ?_⟩
  rw [UserDataFits, hnone]
  exact ⟨List.length_pos_of_ne_nil hne, Nat.zero_le _⟩

theorem octets_le_bytelen {dcs : Byte} (hgroup : CodingGroupDefined dcs)
    (hreserved : ¬ReservedAlphabet dcs) (length : Byte) :
    (smsPduDecodeDcs dcs).alphabet.octets length.toNat ≤
      smsDataBytelen (schemeRead dcs) length := by
  by_cases htaken : TakenForAnother dcs
  · obtain ⟨hseven, hscheme⟩ := schemeRead_taken dcs htaken hreserved
    have hcount : smsDataBytelen (schemeRead dcs) length = length.toNat := by
      simp only [List.mem_cons, List.not_mem_nil, or_false] at hscheme
      rcases hscheme with height | hucs2
      · rw [height]
        rfl
      · rw [hucs2]
        rfl
    rw [hseven, hcount, AlphabetType.octets]
    omega
  · rw [(schemeRead_eq_iff dcs hgroup).mpr htaken, smsDataBytelen_scheme]

theorem textAccepted_octets {dcs : Byte} {src : List Byte} (htext : TextAccepted dcs src)
    (hreserved : ¬ReservedAlphabet dcs) :
    1 + (smsPduDecodeDcs dcs).alphabet.octets (src.getD 0 0).toNat ≤ src.length :=
  (Nat.add_le_add_left (octets_le_bytelen htext.1 hreserved _) 1).trans htext.2.1

structure CutDeliver (t : List Byte) : Prop extends Addressed 13 1 t where
  reserved : ReservedAlphabet (t.getD (4 + addressOctets t 1) 0)
  cut : t.length < deliverLength t

structure CutSubmit (t : List Byte) : Prop extends Addressed 8 2 t where
  text : if validityFormat t = 0 ∨ validityFormat t = 2 then ReservedAlphabet (submitDcs t)
    else TextAccepted (submitDcs t) (t.drop (7 + addressOctets t 2))
  cut : t.length < submitLength t

structure CutReport (t : List Byte) : Prop extends Addressed 13 2 t where
  cut : t.length < reportLength t

theorem cutDeliver_iff {t : List Byte} :
    CutDeliver t ↔ DeliverAccepted t ∧
      (¬CodingGroupDefined (t.getD (4 + addressOctets t 1) 0) ∨ t.length < deliverLength t) := by
  constructor
  · rintro ⟨haddressed, hreserved, hcut⟩
    have hne : t.drop (12 + addressOctets t 1) ≠ [] := by
      have := haddressed.counted
      rw [← List.length_pos_iff, List.length_drop]
      omega
    exact ⟨⟨haddressed, textAccepted_reserved hreserved hne⟩, .inr hcut⟩
  · rintro ⟨⟨haddressed, htext⟩, hmalformed⟩
    have hcut := hmalformed.resolve_left fun hgroup => hgroup htext.1
    refine ⟨haddressed, ?_, hcut⟩
    have hlen := haddressed.counted
    by_contra hreserved
    have hoctets := textAccepted_octets htext hreserved
    rw [getD_drop, Nat.add_zero, List.length_drop] at hoctets
    rw [deliverLength, deliverOctets, deliverAlphabet] at hcut
    omega

theorem lengthExpected_eq {t : List Byte} (hshort : validityFormat t = 0 ∨ validityFormat t = 2) :
    lengthExpected (validityFormat t) t = 6 + addressOctets t 2 + validityOctets t := by
  rcases hshort with hnone | hrelative
  · simp [lengthExpected, validityOctets, hnone]
  · simp [lengthExpected, validityOctets, hrelative]
    omega

theorem cutSubmit_iff {t : List Byte} :
    CutSubmit t ↔ SubmitAccepted (validityFormat t) t ∧
      (¬CodingGroupDefined (submitDcs t) ∨ t.length < submitLength t) := by
  constructor
  · rintro ⟨haddressed, htext, hcut⟩
    refine ⟨⟨haddressed, ?_⟩, .inr hcut⟩
    split at htext
    next hshort =>
      have hlen := haddressed.counted
      refine textAccepted_reserved htext ?_
      rw [← List.length_pos_iff, List.length_drop, lengthExpected]
      split <;> omega
    next hlong =>
      rw [not_or] at hlong
      rwa [lengthExpected, if_pos hlong.1]
  · rintro ⟨⟨haddressed, htext⟩, hmalformed⟩
    have hcut := hmalformed.resolve_left fun hgroup => hgroup htext.1
    refine ⟨haddressed, ?_, hcut⟩
    split
    next hshort =>
      by_contra hreserved
      have hoctets := textAccepted_octets htext hreserved
      rw [getD_drop, Nat.add_zero, List.length_drop, lengthExpected_eq hshort,
        ← submitDcs] at hoctets
      rw [submitLength] at hcut
      have hroom : 6 + addressOctets t 2 + validityOctets t < t.length := by
        have hfits := htext.2.1
        rw [List.length_drop, lengthExpected_eq hshort] at hfits
        omega
      omega
    next hlong =>
      rw [not_or] at hlong
      rwa [lengthExpected, if_pos hlong.1] at htext

theorem cutReport_iff {t : List Byte} :
    CutReport t ↔ ReportAccepted t ∧ t.length < reportLength t :=
  ⟨fun ⟨haddressed, hcut⟩ => ⟨haddressed, hcut⟩, fun ⟨haddressed, hcut⟩ => ⟨haddressed, hcut⟩⟩

/-- A report of three octets, whose fourth is read, and the messages that are accepted without all
of their octets. -/
def SlipsThrough (t : List Byte) : Prop :=
  if messageType t = GSMD_SMS_TP_MTI_DELIVER then CutDeliver t
  else if messageType t = GSMD_SMS_TP_MTI_SUBMIT then CutSubmit t
  else if messageType t = GSMD_SMS_TP_MTI_STATUS_REPORT then t.length = 3 ∨ CutReport t
  else False

section Guarded

variable {src : List Byte} {pdulen : ℤ}

theorem pduGuarded_of_branch (accepted : Prop) {branch : GsmdSmsList → Except PduFault GsmdSmsList}
    (hannounced : Announced src pdulen)
    (hbranch : ∀ dst : GsmdSmsList, ∃ start : GsmdSmsList,
      start.payload.data = dst.payload.data ∧ smsPduToMsg dst src pdulen = branch start)
    (haccepts : accepted → ∀ start : GsmdSmsList, ∃ msg, branch start = .ok msg ∧
      ∃ copied : List Byte, copied.length ≤ GSMD_SMS_DATA_MAXLEN ∧
        msg.payload.data = storeData start.payload.data copied)
    (hrefuses : ¬accepted → ∀ start, branch start = .error .refused) :
    PduGuarded src pdulen ↔ ¬(accepted ∧ MalformedTpdu (tpduOf src)) := by
  constructor
  · rintro hguarded ⟨haccepted, hmalformed⟩
    obtain ⟨start, -, heq⟩ := hbranch blankMessage
    obtain ⟨msg, hok, -⟩ := haccepts haccepted start
    have hrefused := hguarded.refused (.inr hmalformed) blankMessage
    rw [heq, hok] at hrefused
    cases hrefused
  intro hwell
  refine ⟨fun dst hoverrun => ?_, fun k addr => smsAddress2ascii_number, fun dst msg hread => ?_,
    fun hmalformed dst => ?_⟩
  · obtain ⟨start, -, heq⟩ := hbranch dst
    rw [heq] at hoverrun
    by_cases haccepted : accepted
    · obtain ⟨msg, hok, -⟩ := haccepts haccepted start
      rw [hok] at hoverrun
      cases hoverrun
    · rw [hrefuses haccepted start] at hoverrun
      cases hoverrun
  · obtain ⟨start, hdata, heq⟩ := hbranch dst
    rw [heq] at hread
    by_cases haccepted : accepted
    · obtain ⟨msg', hok, hcopied⟩ := haccepts haccepted start
      obtain rfl : msg' = msg := Except.ok.inj (hok.symm.trans hread)
      rwa [hdata] at hcopied
    · rw [hrefuses haccepted start] at hread
      cases hread
  · obtain ⟨start, -, heq⟩ := hbranch dst
    rw [heq]
    have htpdu : MalformedTpdu (tpduOf src) :=
      hmalformed.resolve_left fun hnot => hnot hannounced
    exact hrefuses (fun haccepted => hwell ⟨haccepted, htpdu⟩) start

theorem pduGuarded_of_not_announced (hannounced : ¬Announced src pdulen) :
    PduGuarded src pdulen := by
  refine ⟨fun dst hoverrun => ?_, fun k addr => smsAddress2ascii_number, fun dst msg hread => ?_,
    fun _ dst => smsPduToMsg_refused dst hannounced⟩
  · rw [smsPduToMsg_refused dst hannounced] at hoverrun
    cases hoverrun
  · rw [smsPduToMsg_refused dst hannounced] at hread
    cases hread

theorem take_length_le_data {t : List Byte} {n : ℕ} (hle : n ≤ GSMD_SMS_DATA_MAXLEN) :
    (t.take n).length ≤ GSMD_SMS_DATA_MAXLEN := by
  rw [List.length_take]
  omega

end Guarded

end Openmoko.Gsmd
