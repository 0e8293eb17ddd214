import Openmoko.Libgsmd.Sms

/-!
# When packing into septets can be undone

Octet `j` of the packed text takes its bits from the characters `j + j / 7` and the next: the packing
loop is a loop over `j`, its other two variables being functions of it (`packLoop_eq`). A septet is
then put together from the two octets that share the character.
-/

namespace Openmoko.Libgsmd

open Openmoko.Gsmd

structure SeptetString where
  chars : List Byte
  ne_nul : ∀ c ∈ chars, c ≠ NUL
  lt : ∀ c ∈ chars, c.toNat < 128

def packedOctet (src : List Byte) (j : Nat) : Byte :=
  ((charAt src (j + j / 7) &&& 0x7F) >>> UInt8.ofNat (j % 7)) |||
    ((charAt src (j + j / 7 + 1) &&& 0x7F) <<< UInt8.ofNat (7 - j % 7))

def octetCount (n : Nat) : Nat := min ((7 * n + 7) / 8) (LGSM_SMS_DATA_MAXLEN + 2)

variable {j : Nat}

theorem packLoop_eq (src : List Byte) (hj : j ≤ octetCount src.length) :
    packLoop src (j + j / 7) j (j % 7) =
      (octetCount src.length + octetCount src.length / 7,
        (List.range' j (octetCount src.length - j)).map (packedOctet src)) := by
  -- induction on the number of octets left
  induction hleft : octetCount src.length - j generalizing j with
  | zero =>
    obtain rfl : j = octetCount src.length := by omega
    have hstop : src.length ≤ octetCount src.length + octetCount src.length / 7 ∨
        LGSM_SMS_DATA_MAXLEN + 1 < octetCount src.length := by
      simp only [octetCount, LGSM_SMS_DATA_MAXLEN]
      omega
    rw [packLoop]
    split
    · rw [if_pos (by omega)]
      rfl
    · rfl
  | succ left ih =>
    have hmore : j + j / 7 < src.length ∧ ¬LGSM_SMS_DATA_MAXLEN + 1 < j := by
      simp only [octetCount, LGSM_SMS_DATA_MAXLEN] at hleft ⊢
      omega
    have hrest := @ih (j + 1) (by omega) (by omega)
    rw [packLoop, if_pos hmore.1, if_neg hmore.2, List.range'_succ, List.map_cons]
    by_cases hwrap : j % 7 + 1 = 7
    · have hnext : j + 1 + (j + 1) / 7 = j + j / 7 + 2 := by omega
      have hshift : (j + 1) % 7 = 0 := by omega
      rw [hnext, hshift] at hrest
      simp only [if_pos hwrap, hrest, packedOctet]
    · have hnext : j + 1 + (j + 1) / 7 = j + j / 7 + 1 := by omega
      have hshift : (j + 1) % 7 = j % 7 + 1 := by omega
      rw [hnext, hshift] at hrest
      simp only [if_neg hwrap, hrest, packedOctet]

theorem packing_loop (src : List Byte) :
    packLoop src 0 0 0 =
      (octetCount src.length + octetCount src.length / 7,
        (List.range (octetCount src.length)).map (packedOctet src)) := by
  have hloop := packLoop_eq src (Nat.zero_le (octetCount src.length))
  rwa [Nat.sub_zero, ← List.range_eq_range'] at hloop

theorem exists_septet (c : Byte) : ∃ y : Fin 128, c &&& 0x7F = UInt8.ofNat y.val := by
  have hlt : (c &&& 0x7F).toNat < 128 := by
    rw [UInt8.toNat_and]
    exact Nat.lt_of_le_of_lt Nat.and_le_right (by decide)
  exact ⟨⟨_, hlt⟩, by simp⟩

theorem and_septet {c : Byte} (hc : c.toNat < 128) : c &&& 0x7F = c := by
  rw [← UInt8.toNat_inj, UInt8.toNat_and]
  exact (Nat.and_two_pow_sub_one_eq_mod _ 7).trans (Nat.mod_eq_of_lt hc)

theorem or_and (a b mask : Byte) : (a ||| b) &&& mask = (a &&& mask) ||| (b &&& mask) := by
  rw [← UInt8.toNat_inj]
  simp only [UInt8.toNat_and, UInt8.toNat_or]
  exact Nat.and_or_distrib_right ..

theorem septet_halves (c : Byte) (r : Fin 8) (hr : r ≠ 0) :
    ((((c &&& 0x7F) >>> UInt8.ofNat r.val) <<< UInt8.ofNat r.val) &&& 0x7f) |||
      ((((c &&& 0x7F) <<< UInt8.ofNat (8 - r.val)) >>> UInt8.ofNat (8 - r.val)) &&& 0x7f) =
    c &&& 0x7F := by
  obtain ⟨y, hy⟩ := exists_septet c
  rw [hy]
  clear hy
  revert y r
  decide +kernel

theorem septet_next (c : Byte) (r : Fin 7) :
    (((c &&& 0x7F) <<< UInt8.ofNat (7 - r.val)) <<< UInt8.ofNat r.val) &&& 0x7f = 0 := by
  obtain ⟨y, hy⟩ := exists_septet c
  rw [hy]
  clear hy
  revert y r
  decide +kernel

theorem septet_previous (c : Byte) (r : Fin 8) (hr : r ≠ 0) :
    (((c &&& 0x7F) >>> UInt8.ofNat (r.val - 1)) >>> UInt8.ofNat (8 - r.val)) &&& 0x7f = 0 := by
  obtain ⟨y, hy⟩ := exists_septet c
  rw [hy]
  clear hy
  revert y r
  decide +kernel

theorem shiftLeft_seven (b : Byte) : (b <<< UInt8.ofNat 7) &&& 0x7f = 0 := by
  rw [← UInt8.toNat_inj, UInt8.toNat_and, UInt8.toNat_shiftLeft]
  exact (Nat.and_two_pow_sub_one_eq_mod _ 7).trans (by simp [Nat.shiftLeft_eq])

theorem packedOctet_block (src : List Byte) (q : Nat) {r : Nat} (hr : r < 7) :
    packedOctet src (7 * q + r) =
      ((charAt src (8 * q + r) &&& 0x7F) >>> UInt8.ofNat r) |||
        ((charAt src (8 * q + r + 1) &&& 0x7F) <<< UInt8.ofNat (7 - r)) := by
  have hchar : 7 * q + r + (7 * q + r) / 7 = 8 * q + r := by omega
  have hshift : (7 * q + r) % 7 = r := by omega
  rw [packedOctet, hchar, hshift]

theorem packedOctet_septet (src : List Byte) (q : Nat) {r : Nat} (hr : r < 8) (high : Byte)
    {low : Byte}
    (hhigh : r < 7 → high = packedOctet src (7 * q + r))
    (hlow : low = packedOctet src (7 * q + (r - 1))) :
    ((high <<< UInt8.ofNat r) ||| (low >>> UInt8.ofNat (if r = 0 then 0 else 8 - r))) &&& 0x7f =
      charAt src (8 * q + r) &&& 0x7F := by
  by_cases hzero : r = 0
  · subst hzero
    have hnext := septet_next (charAt src (8 * q + 1)) 0
    rw [hlow, hhigh (by omega), packedOctet_block src q (by omega)]
    have hshift : UInt8.ofNat 0 = 0 := rfl
    change ((charAt src (8 * q + 1) &&& 0x7F) <<< UInt8.ofNat 7) <<< UInt8.ofNat 0 &&& 0x7f = 0
      at hnext
    rw [hshift, UInt8.shiftLeft_zero] at hnext
    simp only [if_pos, hshift, UInt8.shiftLeft_zero, UInt8.shiftRight_zero, UInt8.or_self,
      Nat.add_zero, Nat.sub_zero]
    rw [or_and, hnext, UInt8.or_zero, UInt8.and_assoc, UInt8.and_self]
  · have hlowBlock := packedOctet_block src q (r := r - 1) (by omega)
    have hindex : 8 * q + (r - 1) + 1 = 8 * q + r := by omega
    have hwidth : 7 - (r - 1) = 8 - r := by omega
    rw [hindex, hwidth] at hlowBlock
    have hprevious := septet_previous (charAt src (8 * q + (r - 1))) ⟨r, hr⟩
      (by simpa [Fin.ext_iff] using hzero)
    have hhalves := septet_halves (charAt src (8 * q + r)) ⟨r, hr⟩
      (by simpa [Fin.ext_iff] using hzero)
    have hhighHalf : (high <<< UInt8.ofNat r) &&& 0x7f =
        (((charAt src (8 * q + r) &&& 0x7F) >>> UInt8.ofNat r) <<< UInt8.ofNat r) &&& 0x7f := by
      by_cases hlast : r = 7
      · subst hlast
        rw [shiftLeft_seven, shiftLeft_seven]
      · rw [hhigh (by omega), packedOctet_block src q (by omega), UInt8.shiftLeft_or, or_and]
        have hnext := septet_next (charAt src (8 * q + r + 1)) ⟨r, by omega⟩
        rw [hnext, UInt8.or_zero]
    rw [if_neg hzero, or_and, hhighHalf, hlow, hlowBlock, UInt8.shiftRight_or, or_and, hprevious,
      UInt8.zero_or, hhalves]

theorem septet_packed {src data : List Byte}
    (hdata : ∀ j < (7 * src.length + 7) / 8, data[j]? = some (packedOctet src j))
    (hroom : 7 * src.length / 8 < data.length) {i : Nat} (hi : i < src.length) :
    septet data i = .ok (charAt src i &&& 0x7F) := by
  obtain ⟨q, r, hr, rfl⟩ : ∃ q r, r < 8 ∧ i = 8 * q + r :=
    ⟨i / 8, i % 8, by omega, by omega⟩
  have hhighIndex : ((8 * q + r) * 7 + 7) / 8 = 7 * q + r := by omega
  have hhighShift : 7 - ((8 * q + r) * 7 + 7) % 8 = r := by omega
  have hlowIndex : (8 * q + r) * 7 / 8 = 7 * q + (r - 1) := by omega
  have hlowShift : (8 * q + r) * 7 % 8 = if r = 0 then 0 else 8 - r := by
    split <;> omega
  have hlow := hdata (7 * q + (r - 1)) (by omega)
  have hinside : 7 * q + r < data.length := by omega
  have hcombine := packedOctet_septet src q hr data[7 * q + r] (fun hlast => by
    have hhigh := hdata (7 * q + r) (by omega)
    rw [List.getElem?_eq_getElem hinside] at hhigh
    exact Option.some.inj hhigh) rfl
  rw [septet, hhighIndex, hhighShift, hlowIndex, hlowShift,
    octet_of_getElem? (List.getElem?_eq_getElem hinside), ok_bind, octet_of_getElem? hlow, ok_bind,
    hcombine]
  rfl

variable (src : SeptetString) (dest : LgsmSms)

theorem SeptetString.charAt_eq {i : Nat} (hi : i < src.chars.length) :
    charAt src.chars i &&& 0x7F = src.chars[i] := by
  have hchar : charAt src.chars i = src.chars[i] := by
    simp [charAt, List.getElem?_eq_getElem hi]
  rw [hchar, and_septet (src.lt _ (List.getElem_mem hi))]

theorem packing_length : (packing7bitCharacter src.chars dest).dest.length =
    octetCount src.chars.length + octetCount src.chars.length / 7 := by
  simp only [packing7bitCharacter, packing_loop]

theorem packing_ret : (packing7bitCharacter src.chars dest).ret = octetCount src.chars.length := by
  simp only [packing7bitCharacter, packing_loop, List.length_map, List.length_range]

theorem packing_past : (packing7bitCharacter src.chars dest).past =
    ((List.range (octetCount src.chars.length)).map (packedOctet src.chars)).drop
      (LGSM_SMS_DATA_MAXLEN + 1) := by
  simp only [packing7bitCharacter, packing_loop]

theorem packing_data (hj : j < octetCount src.chars.length) (hfit : j < LGSM_SMS_DATA_MAXLEN + 1) :
    (packing7bitCharacter src.chars dest).dest.data[j]? = some (packedOctet src.chars j) := by
  have hlength := dest.data_length
  simp only [packing7bitCharacter, packing_loop, overwrite, hlength]
  rw [List.getElem?_append_left (by simp; omega), List.getElem?_take_of_lt hfit]
  simp [hj]

structure Carries (msg : GsmdSms) (packed : Packing) : Prop where
  hasHeader : msg.hasHeader = false
  length : msg.length.toNat = packed.dest.length
  data : msg.data.take packed.ret = packed.dest.data.take packed.ret

structure Arrives (packed : Packing) : Prop where
  length : packed.dest.length = src.chars.length
  octets : packed.ret = (7 * src.chars.length + 7) / 8
  unpacks : ∀ msg, Carries msg packed → unpacking7bitCharacter msg = .ok src.chars

variable {src dest}

theorem Carries.data_eq {msg : GsmdSms} (hmsg : Carries msg (packing7bitCharacter src.chars dest))
    (hj : j < octetCount src.chars.length) (hfit : j < LGSM_SMS_DATA_MAXLEN + 1) :
    msg.data[j]? = some (packedOctet src.chars j) := by
  have htake := congrArg (·[j]?) hmsg.data
  simp only [packing_ret, List.getElem?_take_of_lt hj, packing_data src dest hj hfit] at htake
  exact htake

theorem Carries.unpacks {msg : GsmdSms} (hmsg : Carries msg (packing7bitCharacter src.chars dest))
    (hfit : src.chars.length ≤ 160)
    (hlength : (packing7bitCharacter src.chars dest).dest.length = src.chars.length) :
    unpacking7bitCharacter msg = .ok src.chars := by
  have hdata : ∀ j < (7 * src.chars.length + 7) / 8,
      msg.data[j]? = some (packedOctet src.chars j) := by
    intro j hj
    apply hmsg.data_eq <;> simp only [octetCount, LGSM_SMS_DATA_MAXLEN] <;> omega
  have hroom : 7 * src.chars.length / 8 < msg.data.length := by
    rw [msg.data_length, GSMD_SMS_DATA_MAXLEN]
    omega
  have hheader : headerSeptets msg = 0 := by
    rw [headerSeptets, if_neg (by simp [hmsg.hasHeader])]
  have hseptets : ∀ i ∈ List.range src.chars.length,
      septet msg.data i = .ok (src.chars.getD i NUL) := by
    intro i hi
    have hi : i < src.chars.length := List.mem_range.mp hi
    rw [septet_packed hdata hroom hi, src.charAt_eq hi]
    simp [List.getElem?_eq_getElem hi]
  rw [unpacking7bitCharacter, hheader, hmsg.length, hlength, Nat.sub_zero, ← List.range_eq_range',
    mapM_ok hseptets]
  exact congrArg Except.ok ((map_range_getD _ _ (le_refl _)).trans (List.take_length ..))

variable (src dest)

def PackedRight : Prop :=
  (1 ≤ src.chars.length → src.chars.length ≤ 160 →
    Arrives src (packing7bitCharacter src.chars dest)) ∧
  (packing7bitCharacter src.chars dest).past = []

/-- Packing is right for a text that neither leaves room for a septet in its last octet nor takes
more octets than the array has. -/
theorem packing_right_iff :
    PackedRight src dest ↔ src.chars.length ≤ 161 ∧ src.chars.length % 8 ≠ 7 := by
  have hpast : (packing7bitCharacter src.chars dest).past = [] ↔ src.chars.length ≤ 161 := by
    rw [packing_past, List.drop_eq_nil_iff, List.length_map, List.length_range]
    simp only [octetCount, LGSM_SMS_DATA_MAXLEN]
    omega
  have hlength := packing_length src dest
  constructor
  · rintro ⟨harrives, hinside⟩
    have hshort := hpast.mp hinside
    refine ⟨hshort, fun hspare => ?_⟩
    have hright := (harrives (by omega) (by omega)).length
    rw [hlength] at hright
    simp only [octetCount, LGSM_SMS_DATA_MAXLEN] at hright
    omega
  · rintro ⟨hshort, hspare⟩
    have hright : (packing7bitCharacter src.chars dest).dest.length = src.chars.length := by
      have hcount : octetCount src.chars.length = (7 * src.chars.length + 7) / 8 := by
        simp only [octetCount, LGSM_SMS_DATA_MAXLEN]
        omega
      have hblocks : (7 * src.chars.length + 7) / 8 / 7 = src.chars.length / 8 := by omega
      rw [hlength, hcount, hblocks]
      omega
    refine ⟨fun _ hfit => ⟨hright, ?_, fun msg hmsg => hmsg.unpacks hfit hright⟩, hpast.mpr hshort⟩
    rw [packing_ret]
    simp only [octetCount, LGSM_SMS_DATA_MAXLEN]
    omega

def openmok : SeptetString where
  chars := ascii "openmok"
  ne_nul c hc := by
    have hall : (ascii "openmok").all (· != NUL) = true := by decide
    simpa using List.all_eq_true.mp hall c hc
  lt c hc := by
    have hall : (ascii "openmok").all (·.toNat < 128) = true := by decide
    simpa using List.all_eq_true.mp hall c hc

def longText : SeptetString where
  chars := List.replicate 162 97
  ne_nul := by
    intro c hc
    rw [List.eq_of_mem_replicate hc]
    decide
  lt := by
    intro c hc
    rw [List.eq_of_mem_replicate hc]
    decide

def blankSms : LgsmSms where
  addr := []
  alpha := ALPHABET_DEFAULT
  data := List.replicate 141 0
  data_length := List.length_replicate
  length := 0
  askDs := false

/-- Seven characters are announced as eight septets, and 162 are written past the array. -/
theorem packing_wrong :
    (¬PackedRight openmok blankSms ∧
      (packing7bitCharacter openmok.chars blankSms).dest.length = 8) ∧
    (¬PackedRight longText blankSms ∧
      (packing7bitCharacter longText.chars blankSms).past.length = 1) := by
  have hseptets : (packing7bitCharacter openmok.chars blankSms).dest.length = 8 :=
    packing_length openmok blankSms
  have hpast : (packing7bitCharacter longText.chars blankSms).past.length = 1 := by
    rw [packing_past, List.length_drop, List.length_map, List.length_range, longText,
      List.length_replicate]
    rfl
  refine ⟨⟨fun hright => ?_, hseptets⟩, ⟨fun hright => ?_, hpast⟩⟩
  · have hlength := (hright.1 (by decide) (by decide)).length
    rw [hseptets] at hlength
    exact absurd hlength (by decide)
  · rw [hright.2] at hpast
    exact absurd hpast (by decide)

end Openmoko.Libgsmd
