import Mathlib.Data.List.Basic
import Openmoko.Phonekit.SmsText

/-!
# What is sent is what is received

The two switches agree on every character but two: DEL passes the sender's default case, and the
septet it is sent as is that of a letter; the capital upsilon is sent as a U. The other Greek
capitals without a septet of their own are sent as the Latin ones of the same form.
-/

namespace Openmoko.Phonekit

def lookAlikes : List Char :=
  ['\u0391', '\u0392', '\u0395', '\u0396', '\u0397', '\u0399', '\u039a', '\u039c', '\u039d',
    '\u039f', '\u03a1', '\u03a4', '\u03a7']

def DEL : Char := '\u007f'

def UPSILON : Char := '\u03a5'

def received (c : Char) : Char := if c = DEL then '\u00e0' else if c = UPSILON then 'U' else c

def readAs : List Byte → Option (List Byte)
  | [c] => if c = ESCAPE then none else some (gsmdefaultOf c)
  | [c, d] => if c = ESCAPE then escapeCases.lookup d else none
  | _ => none

theorem gsmdefaultLoop_single {c : Byte} (hc : c ≠ ESCAPE) (rest : List Byte) :
    gsmdefaultLoop (c :: rest) = gsmdefaultOf c ++ gsmdefaultLoop rest := by
  cases rest with
  | nil =>
    rw [gsmdefaultLoop, List.append_nil]
    exact if_neg hc
  | cons d rest => rw [gsmdefaultLoop, if_neg hc]

variable {chars : List Byte} {text : List Char}

theorem gsmdefaultLoop_readAs {bytes : List Byte} (h : readAs chars = some bytes)
    (rest : List Byte) : gsmdefaultLoop (chars ++ rest) = bytes ++ gsmdefaultLoop rest := by
  unfold readAs at h
  split at h
  · split_ifs at h with hc
    cases h
    exact gsmdefaultLoop_single hc rest
  · split_ifs at h with hc
    subst hc
    rw [List.cons_append, List.cons_append, List.nil_append, gsmdefaultLoop, if_pos rfl, h]
  · cases h

theorem ascii_readAs : ∀ n < 128, ∀ chars ∈ smscharsOf (UInt16.ofNat n),
    readAs (septets chars) = some (String.utf8EncodeChar (received (Char.ofNat n))) := by
  decide +kernel

set_option maxRecDepth 4000 in
theorem cases_readAs : ∀ row ∈ smscharsCases, row.1.toNat < 0xd800 ∧
    (Char.ofNat row.1.toNat ∈ lookAlikes ∨
      readAs (septets row.2) = some (String.utf8EncodeChar (received (Char.ofNat row.1.toNat)))) := by
  decide

theorem mem_cases_of_smscharsOf {d : UInt16} (hd : 128 ≤ d.toNat)
    (h : smscharsOf d = some chars) : (d, chars) ∈ smscharsCases := by
  unfold smscharsOf at h
  split at h
  · rename_i found hfound
    cases h
    obtain ⟨before, after, heq, -⟩ := List.lookup_eq_some_iff.mp hfound
    rw [heq]
    exact List.mem_append_right _ List.mem_cons_self
  · rw [if_neg] at h
    · cases h
    · simp only [ge_iff_le, UInt16.le_iff_toNat_le, UInt16.lt_iff_toNat_lt,
        ← UInt16.toNat_inj]
      simp
      omega

theorem smscharsOf_readAs {c : Char} (hc : c.toNat < 0x10000)
    (hlook : c ∉ lookAlikes) (h : smscharsOf (UInt16.ofNat c.toNat) = some chars) :
    readAs (septets chars) = some (String.utf8EncodeChar (received c)) := by
  by_cases hascii : c.toNat < 128
  · have hread := ascii_readAs c.toNat hascii chars h
    rwa [Char.ofNat_toNat] at hread
  · have htoNat : (UInt16.ofNat c.toNat).toNat = c.toNat := by
      rw [UInt16.toNat_ofNat']
      exact Nat.mod_eq_of_lt hc
    have hmem := mem_cases_of_smscharsOf (by omega) h
    have hread := (cases_readAs _ hmem).2
    simp only [htoNat, Char.ofNat_toNat] at hread
    exact hread.resolve_left hlook

theorem smscharsOf_surrogate {d : UInt16} (hd : 0xd800 ≤ d.toNat) : smscharsOf d = none := by
  cases h : smscharsOf d with
  | none => rfl
  | some chars =>
    have hlt := (cases_readAs _ (mem_cases_of_smscharsOf (by omega) h)).1
    exact absurd hlt (Nat.not_lt.mpr hd)

theorem high_surrogate {c : Char} (hc : ¬c.toNat < 0x10000) :
    0xd800 ≤ (UInt16.ofNat (0xd800 + (c.toNat - 0x10000) / 0x400)).toNat := by
  have hvalid : c.toNat < 0xd800 ∨ 0xdfff < c.toNat ∧ c.toNat < 0x110000 := c.valid
  rw [UInt16.toNat_ofNat']
  omega

theorem septets_append (chars chars' : List Byte) :
    septets (chars ++ chars') = septets chars ++ septets chars' :=
  List.map_append

theorem smscharsLoop_read (hlook : ∀ c ∈ text, c ∉ lookAlikes)
    {before : List Byte} (hloop : smscharsLoop before (utf16 text) = (chars, true))
    (hlen : chars.length ≤ 160) :
    ∃ added, chars = before ++ added ∧ ∀ rest, gsmdefaultLoop (septets added ++ rest) =
      utf8 (text.map received) ++ gsmdefaultLoop rest := by
  induction text generalizing before with
  | nil =>
    cases hloop
    exact ⟨[], (List.append_nil _).symm, fun rest => rfl⟩
  | cons c text ih =>
    obtain ⟨hc, htext⟩ := List.forall_mem_cons.mp hlook
    rw [utf16, List.flatMap_cons] at hloop
    by_cases hplane : c.toNat < 0x10000
    · rw [utf16Char, if_pos hplane, List.singleton_append, smscharsLoop] at hloop
      split at hloop
      · cases hloop
      · rename_i first hfirst
        split_ifs at hloop with hmany
        · cases hloop
          exact absurd hmany (Nat.not_lt.mpr hlen)
        · obtain ⟨added, rfl, hread⟩ := ih htext hloop
          refine ⟨first ++ added, List.append_assoc _ _ _, fun rest => ?_⟩
          calc gsmdefaultLoop (septets (first ++ added) ++ rest)
              = gsmdefaultLoop (septets first ++ (septets added ++ rest)) := by
                rw [septets_append, List.append_assoc]
            _ = String.utf8EncodeChar (received c) ++ gsmdefaultLoop (septets added ++ rest) :=
                gsmdefaultLoop_readAs (smscharsOf_readAs hplane hc hfirst) _
            _ = utf8 ((c :: text).map received) ++ gsmdefaultLoop rest := by
                rw [hread, ← List.append_assoc]
                rfl
    · rw [utf16Char, if_neg hplane, List.cons_append, smscharsLoop,
        smscharsOf_surrogate (high_surrogate hplane)] at hloop
      cases hloop

theorem smscharsLoop_of_gsm7bit (h : mokoSmsText text = .gsm7bit chars) :
    smscharsLoop [] (utf16 text) = (chars, true) ∧ chars.length ≤ 160 := by
  unfold mokoSmsText at h
  dsimp only at h
  split_ifs at h with hlong h7bit
  cases h
  refine ⟨?_, ?_⟩
  · rw [← h7bit]
  · by_contra hlen
    exact hlong (Or.inl ⟨Nat.not_le.mp hlen, h7bit⟩)

theorem read_of_gsm7bit
    (h : mokoSmsText text = .gsm7bit chars) (hlook : ∀ c ∈ text, c ∉ lookAlikes) :
    gsmdefaultLoop (septets chars) = utf8 (text.map received) := by
  obtain ⟨hloop, hlen⟩ := smscharsLoop_of_gsm7bit h
  obtain ⟨added, rfl, hread⟩ := smscharsLoop_read hlook hloop hlen
  have hall := hread []
  rwa [List.append_nil, gsmdefaultLoop, List.append_nil] at hall

theorem smscharsLoop_congr {units units' : List UInt16}
    (h : ∀ before, smscharsLoop before units = smscharsLoop before units') (first : List UInt16)
    (before : List Byte) :
    smscharsLoop before (first ++ units) = smscharsLoop before (first ++ units') := by
  induction first generalizing before with
  | nil => exact h before
  | cons d first ih => simp only [List.cons_append, smscharsLoop, ih]

theorem smscharsLoop_received (text : List Char) (before : List Byte) :
    smscharsLoop before (utf16 (text.map received)) = smscharsLoop before (utf16 text) := by
  have hdel : smscharsOf 0x007f = some [0x7f] := by decide
  have hletter : smscharsOf 0x00e0 = some [0x7f] := by decide
  have hupsilon : smscharsOf 0x03a5 = some [0x55] := by decide
  have hu : smscharsOf 0x0055 = some [0x55] := by decide
  induction text generalizing before with
  | nil => rfl
  | cons c text ih =>
    rw [List.map_cons, utf16, utf16, List.flatMap_cons, List.flatMap_cons]
    by_cases hc : c = DEL
    · subst hc
      change smscharsLoop before (0x00e0 :: utf16 (text.map received)) =
        smscharsLoop before (0x007f :: utf16 text)
      simp only [smscharsLoop, hdel, hletter, ih]
    · rw [received, if_neg hc]
      by_cases hc' : c = UPSILON
      · subst hc'
        change smscharsLoop before (0x0055 :: utf16 (text.map received)) =
          smscharsLoop before (0x03a5 :: utf16 text)
        simp only [smscharsLoop, hupsilon, hu, ih]
      · rw [if_neg hc']
        exact smscharsLoop_congr ih _ before

theorem utf8_injective {text' : List Char} (h : utf8 text = utf8 text') : text = text' := by
  have hbytes : text.utf8Encode = text'.utf8Encode := congrArg List.toByteArray h
  rw [← String.toByteArray_ofList, ← String.toByteArray_ofList, String.toByteArray_inj] at hbytes
  exact String.ofList_injective hbytes

theorem map_received_eq_iff (text : List Char) :
    text.map received = text ↔ DEL ∉ text ∧ UPSILON ∉ text := by
  have hpointwise := List.map_inj_left (l := text) (f := received) (g := id)
  rw [List.map_id] at hpointwise
  rw [hpointwise]
  constructor
  · intro hall
    exact ⟨fun hmem => absurd (hall DEL hmem) (by decide),
      fun hmem => absurd (hall UPSILON hmem) (by decide)⟩
  · rintro ⟨hdel, hupsilon⟩ c hc
    have hne : c ≠ DEL := ne_of_mem_of_not_mem hc hdel
    have hne' : c ≠ UPSILON := ne_of_mem_of_not_mem hc hupsilon
    rw [received, if_neg hne, if_neg hne', id]

/-- **What is sent is what is received** exactly if no DEL and no capital upsilon is in it, and two
texts are sent alike exactly if they arrive alike. -/
theorem sms_text_round_trip {text : List Char} {smschars : List Byte}
    (h : mokoSmsText text = .gsm7bit smschars) (hlook : ∀ c ∈ text, c ∉ lookAlikes) :
    (gsmdefaultLoop (septets smschars) = utf8 text ↔ DEL ∉ text ∧ UPSILON ∉ text) ∧
      ∀ text' smschars', mokoSmsText text' = .gsm7bit smschars' →
        (∀ c ∈ text', c ∉ lookAlikes) →
        (septets smschars = septets smschars' ↔ text.map received = text'.map received) := by
  constructor
  · rw [read_of_gsm7bit h hlook, ← map_received_eq_iff]
    exact ⟨utf8_injective, congrArg utf8⟩
  · intro text' smschars' h' hlook'
    constructor
    · intro heq
      apply utf8_injective
      rw [← read_of_gsm7bit h hlook, ← read_of_gsm7bit h' hlook', heq]
    · intro heq
      have hloop := (smscharsLoop_of_gsm7bit h).1
      have hloop' := (smscharsLoop_of_gsm7bit h').1
      rw [← smscharsLoop_received, heq, smscharsLoop_received, hloop'] at hloop
      rw [(Prod.mk.inj hloop).1]

theorem euro_plain : ∀ c ∈ ['\u20ac', '@'], c ∉ lookAlikes :=
  List.forall_mem_cons.mpr ⟨by decide, List.forall_mem_singleton.mpr (by decide)⟩

theorem del_plain : ∀ c ∈ [DEL], c ∉ lookAlikes :=
  List.forall_mem_singleton.mpr (by decide)

theorem sms_text_round_trip_euro :
    gsmdefaultLoop (septets [0x1b, 0x65, 0x80]) = utf8 ['\u20ac', '@'] ∧
      septets [0x1b, 0x65, 0x80] ≠ septets [0x7f] := by
  have htext : mokoSmsText ['\u20ac', '@'] = .gsm7bit [0x1b, 0x65, 0x80] := by decide
  obtain ⟨hround, hother⟩ := sms_text_round_trip htext euro_plain
  constructor
  · exact hround.mpr (by decide)
  · intro heq
    exact absurd ((hother [DEL] [0x7f] (by decide) del_plain).mp heq) (by decide)

/-- A DEL arrives as the letter that has its septet, an upsilon as a U. -/
theorem sms_text_del :
    (mokoSmsText [DEL] = .gsm7bit [0x7f] ∧ mokoSmsText ['\u00e0'] = .gsm7bit [0x7f] ∧
      DEL ∉ lookAlikes ∧ gsmdefaultLoop (septets [0x7f]) ≠ utf8 [DEL]) ∧
    mokoSmsText [UPSILON] = .gsm7bit [0x55] ∧ mokoSmsText ['U'] = .gsm7bit [0x55] ∧
      UPSILON ∉ lookAlikes ∧ gsmdefaultLoop (septets [0x55]) ≠ utf8 [UPSILON] := by
  decide

end Openmoko.Phonekit
