import Openmoko.Library.CString
import Openmoko.Library.Comparator
import Mathlib.Data.Nat.Digits.Lemmas

/-!
# Decimal numerals

The value of a run of digits, and how two runs compare: by length once leading zeros are gone, and
digit by digit from the left where the lengths are equal. A number that is written is read again. As
a double a number has 53 bits.
-/

namespace Openmoko

theorem isdigit_iff {c : Byte} : isdigit c = true ↔ 48 ≤ c.toNat ∧ c.toNat ≤ 57 := by
  simp [isdigit, UInt8.le_iff_toNat_le]

theorem decimalValue_eq_ofDigits (digits : List Byte) :
    decimalValue digits = Nat.ofDigits 10 (digits.map fun d => d.toNat - 48).reverse := by
  rw [Nat.ofDigits_eq_foldr, List.foldr_reverse, List.foldl_map, decimalValue]
  congr 1
  funext acc d
  rw [Nat.add_comm]
  rfl

theorem decimalValue_cons (d : Byte) (digits : List Byte) :
    decimalValue (d :: digits) = (d.toNat - 48) * 10 ^ digits.length + decimalValue digits := by
  simp only [decimalValue_eq_ofDigits, List.map_cons, List.reverse_cons, Nat.ofDigits_append,
    Nat.ofDigits_singleton, List.length_reverse, List.length_map]
  rw [Nat.add_comm, Nat.mul_comm]

variable {digits : List Byte} {d : Byte}

theorem decimalValue_lt (hdigits : ∀ d ∈ digits, isdigit d = true) :
    decimalValue digits < 10 ^ digits.length := by
  rw [decimalValue_eq_ofDigits]
  have hlt := Nat.ofDigits_lt_base_pow_length (b := 10)
    (l := (digits.map fun d => d.toNat - 48).reverse) (by decide) (by
      intro x hx
      obtain ⟨d, hd, rfl⟩ := List.mem_map.mp (List.mem_reverse.mp hx)
      have hrange := isdigit_iff.mp (hdigits d hd)
      omega)
  simpa using hlt

theorem le_decimalValue (hd : isdigit d = true) (hzero : d ≠ 48) :
    10 ^ digits.length ≤ decimalValue (d :: digits) := by
  have hrange := isdigit_iff.mp hd
  have hne : d.toNat ≠ 48 := fun heq => hzero (UInt8.toNat_inj.mp heq)
  have hpos : 1 ≤ d.toNat - 48 := by omega
  rw [decimalValue_cons]
  calc 10 ^ digits.length
      = 1 * 10 ^ digits.length := (Nat.one_mul _).symm
    _ ≤ (d.toNat - 48) * 10 ^ digits.length := Nat.mul_le_mul_right _ hpos
    _ ≤ (d.toNat - 48) * 10 ^ digits.length + decimalValue digits := Nat.le_add_right ..

theorem cmp_positional {x y a b base : Nat} (ha : a < base) (hb : b < base) :
    cmp (x * base + a) (y * base + b) = (cmp x y).then (cmp a b) := by
  rcases lt_trichotomy x y with hlt | rfl | hgt
  · rw [(cmp_eq_lt_iff x y).mpr hlt, Ordering.lt_then, cmp_eq_lt_iff]
    calc x * base + a < x * base + base := Nat.add_lt_add_left ha _
      _ = (x + 1) * base := by ring
      _ ≤ y * base := Nat.mul_le_mul_right _ hlt
      _ ≤ y * base + b := Nat.le_add_right ..
  · rw [cmp_self_eq_eq, Ordering.eq_then]
    rcases lt_trichotomy a b with hlt | rfl | hgt
    · rw [(cmp_eq_lt_iff a b).mpr hlt, cmp_eq_lt_iff]
      exact Nat.add_lt_add_left hlt _
    · rw [cmp_self_eq_eq, cmp_self_eq_eq]
    · rw [(cmp_eq_gt_iff a b).mpr hgt, cmp_eq_gt_iff]
      exact Nat.add_lt_add_left hgt _
  · rw [(cmp_eq_gt_iff x y).mpr hgt, Ordering.gt_then, cmp_eq_gt_iff]
    calc y * base + b < y * base + base := Nat.add_lt_add_left hb _
      _ = (y + 1) * base := by ring
      _ ≤ x * base := Nat.mul_le_mul_right _ hgt
      _ ≤ x * base + a := Nat.le_add_right ..

def leadingDigits (s : List Byte) : List Byte := s.takeWhile isdigit

/-- The number a string starts with; none is zero. -/
def leadingNumber (s : List Byte) : Nat := decimalValue (leadingDigits s)

theorem isdigit_of_mem_leadingDigits {s : List Byte} (hd : d ∈ leadingDigits s) :
    isdigit d = true :=
  List.mem_takeWhile_imp hd

theorem leadingDigits_cons_of_pos (hd : isdigit d = true) (s : List Byte) :
    leadingDigits (d :: s) = d :: leadingDigits s :=
  List.takeWhile_cons_of_pos hd

theorem leadingNumber_dropWhile_zero (s : List Byte) :
    leadingNumber (s.dropWhile (· == 48)) = leadingNumber s := by
  induction s with
  | nil => rfl
  | cons d s ih =>
    by_cases hzero : d = 48
    · subst hzero
      rw [List.dropWhile_cons_of_pos (by rfl), ih, leadingNumber, leadingNumber,
        leadingDigits_cons_of_pos (by rfl), decimalValue_cons]
      exact ((Nat.add_comm ..).trans (by simp)).symm
    · rw [List.dropWhile_cons_of_neg (by simpa using hzero)]

theorem dropWhile_digit_dropWhile_zero (s : List Byte) :
    (s.dropWhile (· == 48)).dropWhile isdigit = s.dropWhile isdigit := by
  induction s with
  | nil => rfl
  | cons d s ih =>
    by_cases hzero : d = 48
    · subst hzero
      rw [List.dropWhile_cons_of_pos (by rfl), ih, List.dropWhile_cons_of_pos (by rfl)]
    · rw [List.dropWhile_cons_of_neg (by simpa using hzero)]

theorem leadingNumber_lt_of_length_lt {s t : List Byte} (ht : t.head? ≠ some 48)
    (hlength : (leadingDigits s).length < (leadingDigits t).length) :
    leadingNumber s < leadingNumber t := by
  cases t with
  | nil => exact absurd hlength (Nat.not_lt_zero _)
  | cons d t =>
    by_cases hd : isdigit d = true
    · rw [leadingDigits_cons_of_pos hd, List.length_cons] at hlength
      calc leadingNumber s
          < 10 ^ (leadingDigits s).length := decimalValue_lt fun _ => isdigit_of_mem_leadingDigits
        _ ≤ 10 ^ (leadingDigits t).length := Nat.pow_le_pow_right (by decide) (by omega)
        _ ≤ decimalValue (d :: leadingDigits t) :=
            le_decimalValue hd fun heq => ht (by rw [heq]; rfl)
        _ = leadingNumber (d :: t) := by rw [leadingNumber, leadingDigits_cons_of_pos hd]
    · rw [leadingDigits, leadingDigits, List.takeWhile_cons_of_neg hd] at hlength
      exact absurd hlength (Nat.not_lt_zero _)

variable (n : ℕ)

/-- `%lu`. -/
def decimal : List Byte :=
  if n = 0 then ascii "0" else ((Nat.digits 10 n).map fun d => UInt8.ofNat (48 + d)).reverse

/-- `%d`. -/
def formatInt (value : ℤ) : List Byte :=
  if value < 0 then ascii "-" ++ decimal value.natAbs else decimal value.natAbs

theorem decimal_of_ne_zero {n : ℕ} (hn : n ≠ 0) :
    decimal n = ((Nat.digits 10 n).map fun d => UInt8.ofNat (48 + d)).reverse := if_neg hn

theorem toNat_digit {d : ℕ} (hd : d < 10) : (UInt8.ofNat (48 + d)).toNat = 48 + d := by
  rw [UInt8.toNat_ofNat']
  omega

theorem isdigit_of_mem_decimal : ∀ b ∈ decimal n, isdigit b = true := by
  intro b hb
  by_cases hn : n = 0
  · subst hn
    rw [List.mem_singleton.mp hb]
    rfl
  · rw [decimal_of_ne_zero hn, List.mem_reverse] at hb
    obtain ⟨d, hd, rfl⟩ := List.mem_map.mp hb
    have hlt := Nat.digits_lt_base (by decide) hd
    rw [isdigit_iff, toNat_digit hlt]
    omega

theorem decimal_ne_nil : decimal n ≠ [] := by
  by_cases hn : n = 0
  · subst hn
    exact List.cons_ne_nil _ _
  · rw [decimal_of_ne_zero hn, ne_eq, List.reverse_eq_nil_iff, List.map_eq_nil_iff]
    exact Nat.digits_ne_nil_iff_ne_zero.mpr hn

theorem length_decimal_le {n k : ℕ} (hk : 0 < k) (hn : n < 10 ^ k) : (decimal n).length ≤ k := by
  by_cases hzero : n = 0
  · subst hzero
    exact hk
  · rw [decimal_of_ne_zero hzero, List.length_reverse, List.length_map]
    exact (Nat.digits_length_le_iff (by decide) n).mpr hn

theorem formatInt_natCast : formatInt n = decimal n := by
  rw [formatInt, if_neg (by omega), Int.natAbs_natCast]

theorem length_formatInt_le {value : ℤ} {k : ℕ} (hk : 0 < k) (hvalue : value.natAbs < 10 ^ k) :
    (formatInt value).length ≤ k + 1 := by
  have hdigits := length_decimal_le hk hvalue
  rw [formatInt]
  split
  · rw [List.length_append, show (ascii "-").length = 1 from rfl]
    omega
  · omega

theorem decimalValue_decimal : decimalValue (decimal n) = n := by
  by_cases hn : n = 0
  · subst hn
    rfl
  have hdigits : ((decimal n).map fun d => d.toNat - 48).reverse = Nat.digits 10 n := by
    rw [decimal_of_ne_zero hn, List.map_reverse, List.reverse_reverse, List.map_map]
    calc (Nat.digits 10 n).map ((fun d => d.toNat - 48) ∘ fun d => UInt8.ofNat (48 + d))
        = (Nat.digits 10 n).map id := by
          apply List.map_congr_left
          intro d hd
          rw [Function.comp_apply, toNat_digit (Nat.digits_lt_base (by decide) hd)]
          exact Nat.add_sub_cancel_left 48 d
      _ = Nat.digits 10 n := List.map_id _
  rw [decimalValue_eq_ofDigits, hdigits, Nat.ofDigits_digits]

theorem not_isspace_of_isdigit {b : Byte} (hb : isdigit b = true) : isspace b = false := by
  rw [isdigit_iff] at hb
  rw [isspace, Bool.or_eq_false_iff, Bool.and_eq_false_iff]
  refine ⟨beq_eq_false_iff_ne.mpr fun heq => ?_, Or.inr (decide_eq_false fun hle => ?_)⟩
  · subst heq
    exact absurd hb.1 (by decide)
  · rw [UInt8.le_iff_toNat_le] at hle
    have hthirteen : (13 : Byte).toNat = 13 := rfl
    omega

theorem takeWhile_decimal (rest : List Byte) (hrest : ∀ b ∈ rest.head?, isdigit b = false) :
    (decimal n ++ rest).takeWhile isdigit = decimal n ∧
      (decimal n ++ rest).dropWhile isdigit = rest := by
  have hall := isdigit_of_mem_decimal n
  have hstop : rest.takeWhile isdigit = [] ∧ rest.dropWhile isdigit = rest := by
    cases rest with
    | nil => exact ⟨rfl, rfl⟩
    | cons b rest =>
      have hb : isdigit b = false := hrest b rfl
      simp [hb]
  rw [List.takeWhile_append_of_pos hall, List.dropWhile_append_of_pos hall, hstop.1, hstop.2,
    List.append_nil]
  exact ⟨rfl, rfl⟩

theorem decimal_start (rest : List Byte) :
    (decimal n ++ rest).dropWhile isspace = decimal n ++ rest ∧
      ∀ sign : Byte, isdigit sign = false → ((decimal n ++ rest).head? == some sign) = false := by
  obtain ⟨d, digits, hcons⟩ := List.exists_cons_of_ne_nil (decimal_ne_nil n)
  have hd : isdigit d = true := isdigit_of_mem_decimal n d (by simp [hcons])
  constructor
  · rw [hcons, List.cons_append, List.dropWhile_cons_of_neg]
    simp [not_isspace_of_isdigit hd]
  · intro sign hsign
    rw [hcons, beq_eq_false_iff_ne]
    intro heq
    have heq : d = sign := Option.some.inj heq
    rw [heq, hsign] at hd
    cases hd

theorem atoi_digits (hdigits : ∀ d ∈ digits, isdigit d = true) :
    atoi digits = decimalValue digits := by
  have htake : digits.takeWhile isdigit = digits := List.takeWhile_eq_self_iff.mpr hdigits
  cases digits with
  | nil => rfl
  | cons d digits =>
    have hd : isdigit d = true := hdigits d List.mem_cons_self
    have hstart : (d :: digits).dropWhile isspace = d :: digits := by
      rw [List.dropWhile_cons_of_neg]
      simp [not_isspace_of_isdigit hd]
    have hsign : ∀ sign : Byte, isdigit sign = false → (some d == some sign) = false := by
      intro sign hsign
      rw [beq_eq_false_iff_ne]
      rintro heq
      rw [Option.some.inj heq, hsign] at hd
      cases hd
    unfold atoi
    simp only [hstart, List.head?_cons, hsign 45 (by decide), hsign 43 (by decide), Bool.or_false,
      Bool.false_eq_true, if_false, htake]

theorem lt_pow_length_decimal : n < 10 ^ (decimal n).length := by
  have hlt := decimalValue_lt (isdigit_of_mem_decimal n)
  rwa [decimalValue_decimal] at hlt

theorem atoi_decimal : atoi (decimal n) = n := by
  rw [atoi_digits (isdigit_of_mem_decimal n), decimalValue_decimal]

theorem decimalValue_le_append (before digits : List Byte) :
    decimalValue digits ≤ decimalValue (before ++ digits) := by
  induction before with
  | nil => exact le_rfl
  | cons d before ih =>
    rw [List.cons_append, decimalValue_cons]
    exact ih.trans (Nat.le_add_left _ _)

theorem strtoul_decimal {platform : Platform} {n : ℕ} (hmax : n ≤ platform.ulongMax)
    {rest : List Byte} (hrest : ∀ b ∈ rest.head?, isdigit b = false) :
    strtoul platform (decimal n ++ rest) = (n, rest) := by
  obtain ⟨htake, hdrop⟩ := takeWhile_decimal n _ hrest
  obtain ⟨hstart, hsign⟩ := decimal_start n rest
  unfold strtoul
  simp only [hstart, hsign 45 (by decide), hsign 43 (by decide), Bool.or_false, Bool.false_eq_true,
    if_false, htake, hdrop, decimal_ne_nil n, decimalValue_decimal, if_neg (Nat.not_lt.mpr hmax)]

/-- `n` in units, to the nearest one, and to an even number of them from halfway between two. -/
def roundUnits (unit n : ℕ) : ℕ :=
  if unit < 2 * (n % unit) ∨ unit = 2 * (n % unit) ∧ n / unit % 2 = 1 then n / unit + 1
  else n / unit

def infinity : ℕ := 2 ^ 1024

/-- The double that is nearest to `n`, an IEEE 754 binary64 number. -/
def roundDouble : ℕ :=
  let unit := 2 ^ (n.log2 - 52)
  min (roundUnits unit n * unit) infinity

theorem roundUnits_mono {unit m n : ℕ} (hle : m ≤ n) : roundUnits unit m ≤ roundUnits unit n := by
  have hdiv : m / unit ≤ n / unit := Nat.div_le_div_right hle
  rcases hdiv.lt_or_eq with hlt | heq
  · calc roundUnits unit m ≤ m / unit + 1 := by
          rw [roundUnits]
          split_ifs <;> omega
      _ ≤ n / unit := hlt
      _ ≤ roundUnits unit n := by
          rw [roundUnits]
          split_ifs <;> omega
  · have hmod : m % unit ≤ n % unit := by
      have hm := Nat.div_add_mod m unit
      have hn := Nat.div_add_mod n unit
      rw [heq] at hm
      omega
    rw [roundUnits, roundUnits, heq]
    split_ifs <;> omega

theorem roundUnits_mul {unit : ℕ} (hunit : 0 < unit) (k : ℕ) : roundUnits unit (k * unit) = k := by
  rw [roundUnits, Nat.mul_mod_left, Nat.mul_div_cancel k hunit, if_neg (by omega)]

theorem roundUnits_pow {e k : ℕ} (hle : e ≤ k) : roundUnits (2 ^ e) (2 ^ k) * 2 ^ e = 2 ^ k := by
  have hpow : 2 ^ k = 2 ^ (k - e) * 2 ^ e := by rw [← Nat.pow_add, Nat.sub_add_cancel hle]
  rw [hpow, roundUnits_mul (Nat.two_pow_pos e)]

/-- Rounding does not leave the range between two powers of two. -/
theorem roundDouble_mono {m n : ℕ} (hle : m ≤ n) : roundDouble m ≤ roundDouble n := by
  refine min_le_min_right infinity ?_
  rcases Nat.eq_zero_or_pos m with rfl | hm
  · simp [roundUnits]
  have hlog : m.log2 ≤ n.log2 := by
    rw [Nat.le_log2 (by omega)]
    exact (Nat.log2_self_le hm.ne').trans hle
  rcases hlog.lt_or_eq with hlt | heq
  · calc roundUnits (2 ^ (m.log2 - 52)) m * 2 ^ (m.log2 - 52)
        ≤ roundUnits (2 ^ (m.log2 - 52)) (2 ^ (m.log2 + 1)) * 2 ^ (m.log2 - 52) :=
          Nat.mul_le_mul_right _ (roundUnits_mono Nat.lt_log2_self.le)
      _ = 2 ^ (m.log2 + 1) := roundUnits_pow (by omega)
      _ ≤ 2 ^ n.log2 := Nat.pow_le_pow_right (by decide) hlt
      _ = roundUnits (2 ^ (n.log2 - 52)) (2 ^ n.log2) * 2 ^ (n.log2 - 52) :=
          (roundUnits_pow (Nat.sub_le _ _)).symm
      _ ≤ roundUnits (2 ^ (n.log2 - 52)) n * 2 ^ (n.log2 - 52) :=
          Nat.mul_le_mul_right _ (roundUnits_mono (Nat.log2_self_le (by omega)))
  · rw [heq]
    exact Nat.mul_le_mul_right _ (roundUnits_mono hle)

end Openmoko
