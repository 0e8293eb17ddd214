import Openmoko.Boom.Match
import Openmoko.Library.Decimal
import Mathlib.Algebra.Order.Field.Rat
import Mathlib.Algebra.Order.Field.Power
import Mathlib.Tactic.FieldSimp
import Mathlib.Tactic.Linarith
import Mathlib.Tactic.Positivity

/-!
# Normalised values

The SI string that takes the place of a value denotes the same number and is canonical only where no
zero behind the point stands before another digit: trimming removes the first run of zeros, not the
last.
-/

namespace Openmoko.Boom

def SCALE : List Byte := [84, 71, 77, 107, 32, 109, 117, 110, 112, 102, 97]

def exponent (exp : Byte) : Int := 4 - (SCALE.idxOf exp : Int)

def Mantissa.number (v : Mantissa) : ℚ := decimalValue (v.whole ++ v.frac) / 10 ^ v.frac.length

def Mantissa.value (v : Mantissa) : ℚ := v.number * 1000 ^ exponent v.exp

structure Mantissa.Numeral (v : Mantissa) : Prop where
  whole_digits : ∀ d ∈ v.whole, isdigit d = true
  frac_digits : ∀ d ∈ v.frac, isdigit d = true
  exp_mem : v.exp ∈ SCALE

structure Mantissa.Canonical (v : Mantissa) : Prop extends v.Numeral where
  shape : (v.whole = [ZERO] ∧ v.frac = [] ∧ v.exp = BLANK) ∨
    v.whole ≠ [] ∧ v.whole.head? ≠ some ZERO ∧ v.whole.length ≤ 3 ∧ v.frac.getLast? ≠ some ZERO

structure Notation where
  unit : Byte
  letter : Byte
  whole : List Byte
  frac : List Byte
  unit_not_digit : isdigit unit = false
  letter_mem : letter = unit ∨ letter ∈ MULTIPLIERS
  whole_ne_nil : whole ≠ []
  whole_digits : ∀ d ∈ whole, isdigit d = true
  frac_digits : ∀ d ∈ frac, isdigit d = true

variable (n : Notation)

def Notation.text : List Byte := n.whole ++ n.letter :: n.frac

def Notation.mantissa : Mantissa :=
  ⟨n.whole, n.frac, if n.letter = n.unit then BLANK else n.letter⟩

def Notation.Normalised : Prop :=
  ∃ v : Mantissa, v.Canonical ∧ v.value = n.mantissa.value ∧
    convert n.unit n.text = some (render v n.unit)

theorem takeWhile_digits {digits rest : List Byte} (hdigits : ∀ d ∈ digits, isdigit d = true)
    (hrest : rest.takeWhile isdigit = []) : (digits ++ rest).takeWhile isdigit = digits := by
  rw [List.takeWhile_append_of_pos hdigits, hrest, List.append_nil]

theorem digits_append_inj {digits digits' rest rest' : List Byte}
    (hdigits : ∀ d ∈ digits, isdigit d = true) (hdigits' : ∀ d ∈ digits', isdigit d = true)
    (hrest : rest.takeWhile isdigit = []) (hrest' : rest'.takeWhile isdigit = [])
    (heq : digits ++ rest = digits' ++ rest') : digits = digits' ∧ rest = rest' := by
  have htake := congrArg (List.takeWhile isdigit) heq
  rw [takeWhile_digits hdigits hrest, takeWhile_digits hdigits' hrest'] at htake
  subst htake
  exact ⟨rfl, List.append_cancel_left heq⟩

variable {exp : Byte} {v : Mantissa} {s : List Byte}

theorem scale_not_digit (hexp : exp ∈ SCALE) : isdigit exp = false ∧ exp ≠ POINT := by
  simp only [SCALE, List.mem_cons, List.not_mem_nil, or_false] at hexp
  obtain rfl | rfl | rfl | rfl | rfl | rfl | rfl | rfl | rfl | rfl | rfl := hexp <;>
    exact ⟨by decide, by decide⟩

def expText (exp : Byte) : List Byte := if exp = BLANK then [] else [exp]

theorem takeWhile_expText (hexp : exp ∈ SCALE) : (expText exp).takeWhile isdigit = [] := by
  rw [expText]
  split
  · rfl
  · rw [List.takeWhile_cons_of_neg (by simp [(scale_not_digit hexp).1])]

theorem expText_injective {exp' : Byte} (h : expText exp = expText exp') : exp = exp' := by
  rw [expText, expText] at h
  split at h <;> split at h
  · next heq heq' => rw [heq, heq']
  · cases h
  · cases h
  · exact (List.cons.inj h).1

theorem render_injective {w : Mantissa} (hv : v.Numeral) (hw : w.Numeral) {unit : Byte}
    (h : render v unit = render w unit) : v = w := by
  have htail : ∀ u : Mantissa, u.Numeral →
      ((if u.frac = [] then [] else POINT :: u.frac) ++ expText u.exp).takeWhile isdigit = [] := by
    intro u hu
    split
    · exact takeWhile_expText hu.exp_mem
    · rfl
  have hcancel := List.append_cancel_right h
  rw [List.append_assoc, List.append_assoc] at hcancel
  obtain ⟨hwhole, hrest⟩ :=
    digits_append_inj hv.whole_digits hw.whole_digits (htail v hv) (htail w hw) hcancel
  have hpoint : ∀ u u' : Mantissa, u.Numeral →
      expText u.exp ≠ POINT :: u'.frac ++ expText u'.exp := by
    intro u u' hu heq
    rw [expText] at heq
    split at heq
    · cases heq
    · exact (scale_not_digit hu.exp_mem).2 (List.cons.inj heq).1
  have hfrac : v.frac = w.frac ∧ expText v.exp = expText w.exp := by
    by_cases hvnil : v.frac = [] <;> by_cases hwnil : w.frac = []
    · rw [if_pos hvnil, if_pos hwnil] at hrest
      exact ⟨hvnil.trans hwnil.symm, hrest⟩
    · rw [if_pos hvnil, if_neg hwnil] at hrest
      exact absurd hrest (hpoint v w hv)
    · rw [if_neg hvnil, if_pos hwnil] at hrest
      exact absurd hrest.symm (hpoint w v hw)
    · rw [if_neg hvnil, if_neg hwnil] at hrest
      exact digits_append_inj hv.frac_digits hw.frac_digits (takeWhile_expText hv.exp_mem)
        (takeWhile_expText hw.exp_mem) (List.cons.inj hrest).2
  obtain ⟨vwhole, vfrac, vexp⟩ := v
  obtain ⟨wwhole, wfrac, wexp⟩ := w
  obtain rfl := hwhole
  obtain rfl := hfrac.1
  obtain rfl := expText_injective hfrac.2
  rfl

/-! ### Numbers -/

theorem decimalValue_append (digits others : List Byte) :
    decimalValue (digits ++ others) =
      decimalValue digits * 10 ^ others.length + decimalValue others := by
  induction digits with
  | nil => simp [decimalValue]
  | cons d digits ih =>
    rw [List.cons_append, decimalValue_cons, decimalValue_cons, ih, List.length_append]
    ring

theorem decimalValue_zeros {digits : List Byte} (hzeros : ∀ d ∈ digits, d = ZERO) :
    decimalValue digits = 0 := by
  induction digits with
  | nil => rfl
  | cons d digits ih =>
    rw [decimalValue_cons, hzeros d List.mem_cons_self,
      ih fun e he => hzeros e (List.mem_cons_of_mem d he)]
    simp [ZERO]

theorem decimalValue_dropZeros (digits others : List Byte) :
    decimalValue (digits.dropWhile (· == ZERO) ++ others) = decimalValue (digits ++ others) := by
  have hzeros : decimalValue (digits.takeWhile (· == ZERO)) = 0 := by
    apply decimalValue_zeros
    intro d hd
    simpa using List.mem_takeWhile_imp hd
  calc
    decimalValue (digits.dropWhile (· == ZERO) ++ others) =
        decimalValue (digits.takeWhile (· == ZERO) ++
          (digits.dropWhile (· == ZERO) ++ others)) := by
      rw [decimalValue_append (digits.takeWhile (· == ZERO)), hzeros, Nat.zero_mul, Nat.zero_add]
    _ = decimalValue (digits ++ others) := by
      rw [← List.append_assoc, List.takeWhile_append_dropWhile]

def Plain (frac : List Byte) : Prop :=
  (frac.dropWhile (· != ZERO)).dropWhile (· == ZERO) = []

instance (frac : List Byte) : Decidable (Plain frac) := inferInstanceAs (Decidable (_ = []))

theorem head_dropWhile_ne {p : Byte → Bool} {d : Byte} {rest : List Byte}
    (h : s.dropWhile p = d :: rest) : p d = false := by
  induction s with
  | nil => cases h
  | cons e s ih =>
    by_cases he : p e = true
    · rw [List.dropWhile_cons_of_pos he] at h
      exact ih h
    · rw [List.dropWhile_cons_of_neg he] at h
      obtain ⟨rfl, rfl⟩ := List.cons.inj h
      simpa using he

section Trim

variable {whole frac : List Byte}

theorem number_append (exp : Byte) (more : List Byte) :
    Mantissa.number ⟨whole, frac ++ more, exp⟩ =
      (decimalValue (whole ++ frac) : ℚ) / 10 ^ frac.length +
        (decimalValue more : ℚ) / 10 ^ (frac.length + more.length) := by
  rw [Mantissa.number, ← List.append_assoc, decimalValue_append (whole ++ frac),
    List.length_append, pow_add]
  push_cast
  field_simp

theorem number_zeros (exp exp' : Byte) {zeros : List Byte} (hzeros : ∀ d ∈ zeros, d = ZERO) :
    Mantissa.number ⟨whole, frac ++ zeros, exp⟩ = Mantissa.number ⟨whole, frac, exp'⟩ := by
  rw [number_append, decimalValue_zeros hzeros, Nat.cast_zero, zero_div, add_zero, Mantissa.number]

theorem number_gap (exp exp' : Byte) {zeros rest : List Byte} (hzeros : ∀ d ∈ zeros, d = ZERO)
    (hlength : 0 < zeros.length) (hrest : 0 < decimalValue rest) :
    Mantissa.number ⟨whole, frac ++ rest, exp⟩ ≠
      Mantissa.number ⟨whole, frac ++ (zeros ++ rest), exp'⟩ := by
  have hvalue : decimalValue (zeros ++ rest) = decimalValue rest := by
    rw [decimalValue_append, decimalValue_zeros hzeros, Nat.zero_mul, Nat.zero_add]
  have hpos : (0 : ℚ) < decimalValue rest := by exact_mod_cast hrest
  have hpow : (10 : ℚ) ^ (frac.length + rest.length) <
      10 ^ (frac.length + (zeros ++ rest).length) := by
    apply pow_lt_pow_right₀ (by norm_num)
    rw [List.length_append]
    omega
  have hlt := div_lt_div_of_pos_left hpos (by positivity) hpow
  rw [number_append, number_append, hvalue]
  intro heq
  exact absurd (add_left_cancel heq) hlt.ne'

theorem number_trimZeros_iff (hfrac : ∀ d ∈ frac, isdigit d = true) (exp exp' : Byte) :
    Mantissa.number ⟨whole, trimZeros frac, exp⟩ = Mantissa.number ⟨whole, frac, exp'⟩ ↔
      Plain frac := by
  have hsplit : frac = frac.takeWhile (· != ZERO) ++
      ((frac.dropWhile (· != ZERO)).takeWhile (· == ZERO) ++
        (frac.dropWhile (· != ZERO)).dropWhile (· == ZERO)) := by
    rw [List.takeWhile_append_dropWhile, List.takeWhile_append_dropWhile]
  have hzeros : ∀ d ∈ (frac.dropWhile (· != ZERO)).takeWhile (· == ZERO), d = ZERO := by
    intro d hd
    simpa using List.mem_takeWhile_imp hd
  rw [trimZeros, Plain]
  constructor
  · intro heq
    cases hrest : (frac.dropWhile (· != ZERO)).dropWhile (· == ZERO) with
    | nil => rfl
    | cons d rest =>
      exfalso
      have hd : d ≠ ZERO := by simpa using head_dropWhile_ne hrest
      have hdigit : isdigit d = true := by
        apply hfrac d
        rw [hsplit, hrest]
        simp
      have hpos : 0 < decimalValue (d :: rest) :=
        Nat.lt_of_lt_of_le (by positivity) (le_decimalValue hdigit hd)
      have hlength : 0 < ((frac.dropWhile (· != ZERO)).takeWhile (· == ZERO)).length := by
        cases hback : frac.dropWhile (· != ZERO) with
        | nil =>
          rw [hback] at hrest
          cases hrest
        | cons e back =>
          have he : e = ZERO := by simpa using head_dropWhile_ne hback
          simp [he]
      rw [hrest] at heq hsplit
      apply number_gap exp exp' hzeros hlength hpos
      rw [← hsplit]
      exact heq
  · intro hrest
    rw [hrest, List.append_nil]
    rw [hrest, List.append_nil] at hsplit
    calc
      Mantissa.number ⟨whole, frac.takeWhile (· != ZERO), exp⟩ =
          Mantissa.number ⟨whole, frac.takeWhile (· != ZERO) ++
            (frac.dropWhile (· != ZERO)).takeWhile (· == ZERO), exp'⟩ :=
        (number_zeros exp' exp hzeros).symm
      _ = Mantissa.number ⟨whole, frac, exp'⟩ := by rw [← hsplit]

end Trim

def Mantissa.trim (v : Mantissa) : Mantissa := { v with frac := trimZeros v.frac }

structure Mantissa.InRange (v : Mantissa) : Prop extends v.Numeral where
  whole_ne_nil : v.whole ≠ []
  head_ne_zero : v.whole.head? ≠ some ZERO
  length_le : v.whole.length ≤ 3

theorem Mantissa.InRange.one_le_number (hv : v.InRange) : 1 ≤ v.number := by
  cases hwhole : v.whole with
  | nil => exact absurd hwhole hv.whole_ne_nil
  | cons d whole =>
    have hd : d ≠ ZERO := by
      intro heq
      apply hv.head_ne_zero
      rw [hwhole, heq]
      rfl
    have hdigit := hv.whole_digits d (hwhole ▸ List.mem_cons_self)
    have hle : 10 ^ v.frac.length ≤ decimalValue (v.whole ++ v.frac) := by
      rw [hwhole, List.cons_append]
      calc
        10 ^ v.frac.length ≤ 10 ^ (whole ++ v.frac).length := by
          apply Nat.pow_le_pow_right (by decide)
          simp
        _ ≤ decimalValue (d :: (whole ++ v.frac)) := le_decimalValue hdigit hd
    rw [Mantissa.number, le_div_iff₀ (by positivity), one_mul]
    exact_mod_cast hle

theorem Mantissa.Numeral.number_lt (hv : v.Numeral) (hlength : v.whole.length ≤ 3) :
    v.number < 1000 := by
  have hlt : decimalValue (v.whole ++ v.frac) < 10 ^ (v.whole ++ v.frac).length := by
    apply decimalValue_lt
    intro d hd
    obtain hd | hd := List.mem_append.mp hd
    · exact hv.whole_digits d hd
    · exact hv.frac_digits d hd
  have hle : 10 ^ (v.whole ++ v.frac).length ≤ 1000 * 10 ^ v.frac.length := by
    rw [List.length_append, Nat.pow_add]
    exact Nat.mul_le_mul_right _ (Nat.pow_le_pow_right (by decide) hlength)
  rw [Mantissa.number, div_lt_iff₀ (by positivity)]
  exact_mod_cast Nat.lt_of_lt_of_le hlt hle

theorem mem_trimZeros {frac : List Byte} {d : Byte} (hd : d ∈ trimZeros frac) : d ∈ frac := by
  obtain hd | hd := List.mem_append.mp hd
  · exact (List.takeWhile_sublist _).subset hd
  · exact (List.dropWhile_sublist _).subset ((List.dropWhile_sublist _).subset hd)

theorem Mantissa.Numeral.trim (hv : v.Numeral) : v.trim.Numeral := by
  constructor
  · exact hv.whole_digits
  · intro d hd
    exact hv.frac_digits d (mem_trimZeros hd)
  · exact hv.exp_mem

theorem getLast?_trimZeros {frac : List Byte} (hplain : Plain frac) :
    (trimZeros frac).getLast? ≠ some ZERO := by
  have htrim : trimZeros frac = frac.takeWhile (· != ZERO) := by
    rw [trimZeros, hplain, List.append_nil]
  intro hlast
  rw [htrim] at hlast
  simpa using List.mem_takeWhile_imp (List.mem_of_getLast? hlast)

theorem scaled_eq_iff {x y : ℚ} (hx : 1 ≤ x) (hy : y < 1000) {e e' : Int} (he : e' ≤ e) :
    y * 1000 ^ e' = x * 1000 ^ e ↔ e' = e ∧ y = x := by
  constructor
  · intro heq
    obtain rfl | hlt := he.eq_or_lt
    · exact ⟨rfl, mul_right_cancel₀ (by positivity) heq⟩
    · exfalso
      have hpow : (0 : ℚ) < 1000 ^ e' := by positivity
      have hchain : y * (1000 : ℚ) ^ e' < x * 1000 ^ e := by
        calc
          y * (1000 : ℚ) ^ e' < 1000 * 1000 ^ e' := mul_lt_mul_of_pos_right hy hpow
          _ = 1000 ^ (e' + 1) := by
            rw [zpow_add₀ (by norm_num), zpow_one]
            ring
          _ ≤ 1000 ^ e := zpow_le_zpow_right₀ (by norm_num) hlt
          _ ≤ x * 1000 ^ e := le_mul_of_one_le_left (by positivity) hx
      exact absurd heq hchain.ne
  · rintro ⟨rfl, rfl⟩
    rfl

theorem trim_normalised_iff (hv : v.InRange) {value : ℚ} {e : Int}
    (hvalue : value = v.number * 1000 ^ e) (he : exponent v.exp ≤ e) :
    v.trim.Canonical ∧ v.trim.value = value ↔ exponent v.exp = e ∧ Plain v.frac := by
  have hscaled : v.trim.value = value ↔ exponent v.exp = e ∧ v.trim.number = v.number := by
    rw [hvalue]
    exact scaled_eq_iff hv.one_le_number (hv.toNumeral.trim.number_lt hv.length_le) he
  have hnumber : v.trim.number = v.number ↔ Plain v.frac :=
    number_trimZeros_iff hv.frac_digits v.exp v.exp
  rw [hscaled, hnumber]
  constructor
  · exact fun h => h.2
  · rintro ⟨hexp, hplain⟩
    refine ⟨⟨hv.toNumeral.trim, Or.inr ?_⟩, hexp, hplain⟩
    exact ⟨hv.whole_ne_nil, hv.head_ne_zero, hv.length_le, getLast?_trimZeros hplain⟩

def Upper (exp : Byte) : Prop := exp ∈ SCALE ∧ exp ≠ 97

theorem upper_cases (h : Upper exp) :
    Upper (scaleUp exp) ∧ exponent (scaleUp exp) = min 4 (exponent exp + 1) := by
  obtain ⟨hmem, hne⟩ := h
  simp only [SCALE, List.mem_cons, List.not_mem_nil, or_false] at hmem
  obtain rfl | rfl | rfl | rfl | rfl | rfl | rfl | rfl | rfl | rfl | rfl := hmem
  case inr.inr.inr.inr.inr.inr.inr.inr.inr.inr => exact absurd rfl hne
  all_goals exact ⟨⟨by decide, by decide⟩, by decide⟩

theorem scaleDown_cases (hexp : exp = BLANK ∨ exp ∈ MULTIPLIERS) :
    scaleDown exp ∈ SCALE ∧ exponent (scaleDown exp) ≤ exponent exp - 1 ∧
      (exponent (scaleDown exp) = exponent exp - 1 ↔ exp ≠ 112) := by
  simp only [MULTIPLIERS, List.mem_cons, List.not_mem_nil, or_false] at hexp
  obtain rfl | rfl | rfl | rfl | rfl | rfl | rfl | rfl | rfl := hexp <;>
    exact ⟨by decide, by decide, by decide⟩

theorem drop_take_append {j n : Nat} (hj : j ≤ n) (hn : n ≤ s.length) :
    (s.take n).drop j ++ s.drop n = s.drop j := by
  calc
    (s.take n).drop j ++ s.drop n = (s.take n ++ s.drop n).drop j := by
      rw [List.drop_append_of_le_length]
      rwa [List.length_take, Nat.min_eq_left hn]
    _ = s.drop j := by rw [List.take_append_drop]

theorem below1000_eq (v : Mantissa) (hwhole : v.whole ≠ []) (hexp : Upper v.exp) :
    (below1000 v).whole = v.whole.take ((v.whole.length - 1) % 3 + 1) ∧
      (below1000 v).frac = v.whole.drop ((v.whole.length - 1) % 3 + 1) ++ v.frac ∧
      Upper (below1000 v).exp ∧
      exponent (below1000 v).exp =
        min 4 (exponent v.exp + ((v.whole.length - 1) / 3 : Nat)) := by
  induction v using below1000.induct with
  | case1 v hlong ih =>
    obtain ⟨hupper, hup⟩ := upper_cases hexp
    have hlength : (v.whole.take (v.whole.length - 3)).length = v.whole.length - 3 := by
      rw [List.length_take]
      omega
    have hne : v.whole.take (v.whole.length - 3) ≠ [] := by
      apply List.ne_nil_of_length_pos
      omega
    obtain ⟨hwhole', hfrac', hupper', hexp'⟩ := ih hne hupper
    have hmod : (v.whole.length - 3 - 1) % 3 + 1 = (v.whole.length - 1) % 3 + 1 := by omega
    have hmin : (v.whole.length - 1) % 3 + 1 ≤ v.whole.length - 3 := by omega
    rw [hlength, hmod] at hwhole' hfrac'
    rw [hlength, hup] at hexp'
    rw [below1000, if_pos hlong]
    refine ⟨?_, ?_, hupper', ?_⟩
    · rw [hwhole', List.take_take, Nat.min_eq_left hmin]
    · rw [hfrac', ← List.append_assoc, drop_take_append hmin (by omega)]
    · rw [hexp']
      omega
  | case2 v hshort =>
    have hpos := List.length_pos_of_ne_nil hwhole
    have hfew : (v.whole.length - 1) % 3 + 1 = v.whole.length := by omega
    have hscale : exponent v.exp ≤ 4 := by
      rw [exponent]
      omega
    rw [below1000, if_neg hshort, hfew]
    refine ⟨by simp, by simp, hexp, ?_⟩
    omega

theorem Notation.exp_cases :
    n.mantissa.exp = BLANK ∨ n.mantissa.exp ∈ MULTIPLIERS := by
  rw [mantissa]
  obtain hunit | hmul := n.letter_mem
  · exact Or.inl (if_pos hunit)
  · by_cases hunit : n.letter = n.unit
    · exact Or.inl (if_pos hunit)
    · right
      simpa [hunit] using hmul

theorem upper_of_cases (hexp : exp = BLANK ∨ exp ∈ MULTIPLIERS) : Upper exp := by
  simp only [MULTIPLIERS, List.mem_cons, List.not_mem_nil, or_false] at hexp
  obtain rfl | rfl | rfl | rfl | rfl | rfl | rfl | rfl | rfl := hexp <;>
    exact ⟨by decide, by decide⟩

def leadLength (whole : List Byte) : Nat := (whole.length - 1) % 3 + 1

theorem number_shift {w : Mantissa} {k : Nat} (hdigits : w.whole ++ w.frac = v.whole ++ v.frac)
    (hlength : w.frac.length = v.frac.length + 3 * k) : v.number = w.number * 1000 ^ k := by
  have hpow : (10 : ℚ) ^ (3 * k) = 1000 ^ k := by
    rw [pow_mul]
    norm_num
  rw [Mantissa.number, Mantissa.number, hdigits, hlength, pow_add, hpow]
  field_simp

theorem below1000_inRange (hv : v.Numeral) (hwhole : v.whole ≠ [])
    (hhead : v.whole.head? ≠ some ZERO) (hexp : Upper v.exp) : (below1000 v).InRange := by
  obtain ⟨hwhole', hfrac', hupper', -⟩ := below1000_eq v hwhole hexp
  constructor
  · constructor
    · intro d hd
      rw [hwhole'] at hd
      exact hv.whole_digits d (List.mem_of_mem_take hd)
    · intro d hd
      rw [hfrac'] at hd
      obtain hd | hd := List.mem_append.mp hd
      · exact hv.whole_digits d (List.mem_of_mem_drop hd)
      · exact hv.frac_digits d hd
    · exact hupper'.1
  · rw [hwhole']
    intro hnil
    obtain hzero | hnil := List.take_eq_nil_iff.mp hnil
    · cases hzero
    · exact hwhole hnil
  · rw [hwhole', List.head?_take, if_neg (Nat.succ_ne_zero _)]
    exact hhead
  · rw [hwhole', List.length_take]
    omega

theorem value_below1000 (hwhole : v.whole ≠ []) (hexp : Upper v.exp) :
    v.value = (below1000 v).number * 1000 ^ (exponent v.exp + ((v.whole.length - 1) / 3 : Nat)) := by
  obtain ⟨hwhole', hfrac', -, -⟩ := below1000_eq v hwhole hexp
  have hpos := List.length_pos_of_ne_nil hwhole
  have hshift : v.number = (below1000 v).number * 1000 ^ ((v.whole.length - 1) / 3) := by
    apply number_shift
    · rw [hwhole', hfrac', ← List.append_assoc, List.take_append_drop]
    · rw [hfrac', List.length_append, List.length_drop]
      omega
  rw [Mantissa.value, hshift, zpow_add₀ (by norm_num), zpow_natCast]
  ring

theorem shiftDown_numeral (hv : v.Numeral) (hexp : scaleDown v.exp ∈ SCALE) :
    (shiftDown v).Numeral := by
  have hzero : isdigit ZERO = true := by decide
  rw [shiftDown]
  split
  · constructor
    · intro d hd
      obtain hd | hd := List.mem_append.mp hd
      · exact hv.frac_digits d hd
      · rw [List.eq_of_mem_replicate hd]
        exact hzero
    · intro d hd
      cases hd
    · exact hexp
  · constructor
    · intro d hd
      exact hv.frac_digits d (List.mem_of_mem_take hd)
    · intro d hd
      exact hv.frac_digits d (List.mem_of_mem_drop hd)
    · exact hexp

theorem shiftDown_head (hne : v.frac ≠ []) : (shiftDown v).whole.head? = v.frac.head? := by
  rw [shiftDown]
  split
  · exact List.head?_append_of_ne_nil _ hne
  · rw [List.head?_take, if_neg (by decide)]

theorem shiftDown_inRange (hv : v.Numeral) (hne : v.frac ≠ [])
    (hhead : v.frac.head? ≠ some ZERO) (hexp : scaleDown v.exp ∈ SCALE) :
    (shiftDown v).InRange := by
  have hlength := length_shiftDown v
  refine ⟨shiftDown_numeral hv hexp, ?_, ?_, hlength.le⟩
  · apply List.ne_nil_of_length_pos
    omega
  · rw [shiftDown_head hne]
    exact hhead

theorem shiftDown_frac (v : Mantissa) : (shiftDown v).frac = v.frac.drop 3 := by
  rw [shiftDown]
  split
  · next hshort => exact (List.drop_eq_nil_of_le hshort.le).symm
  · rfl

theorem number_shiftDown (hwhole : ∀ d ∈ v.whole, d = ZERO) :
    (shiftDown v).number = v.number * 1000 := by
  have hten : (10 : ℚ) ^ v.frac.length ≠ 0 := by positivity
  have hnumber : v.number = decimalValue v.frac / 10 ^ v.frac.length := by
    rw [Mantissa.number, decimalValue_append, decimalValue_zeros hwhole, Nat.zero_mul, Nat.zero_add]
  rw [hnumber, shiftDown]
  split
  · next hshort =>
      obtain ⟨k, hk⟩ := Nat.exists_eq_add_of_le hshort.le
      have hpow : (1000 : ℚ) = 10 ^ v.frac.length * 10 ^ k := by
        rw [← pow_add, ← hk]
        norm_num
      rw [Mantissa.number, List.append_nil, decimalValue_append,
        decimalValue_zeros fun d hd => List.eq_of_mem_replicate hd, List.length_replicate]
      have hsub : 3 - v.frac.length = k := by omega
      rw [hsub, hpow]
      push_cast
      field_simp
      simp
  · next hlong =>
      obtain ⟨k, hk⟩ := Nat.exists_eq_add_of_le (not_lt.mp hlong)
      rw [Mantissa.number, List.take_append_drop, List.length_drop, hk, Nat.add_sub_cancel_left,
        pow_add]
      field_simp
      norm_num

/-! ### The whole conversion -/

theorem Notation.letter_not_digit : isdigit n.letter = false := by
  obtain hunit | hmul := n.letter_mem
  · rw [hunit]
    exact n.unit_not_digit
  · exact (scale_not_digit (upper_of_cases (Or.inr hmul)).1).1

theorem Notation.split_text : splitValue n.unit n.text = some n.mantissa := by
  have hstop : (n.letter :: n.frac).takeWhile isdigit = [] := by
    rw [List.takeWhile_cons_of_neg (by simp [n.letter_not_digit])]
  have htake : n.text.takeWhile isdigit = n.whole := takeWhile_digits n.whole_digits hstop
  have hdrop : n.text.dropWhile isdigit = n.letter :: n.frac := by
    have happend := List.takeWhile_append_dropWhile (p := isdigit) (l := n.text)
    rw [htake] at happend
    exact List.append_cancel_left happend
  have hfrac : n.frac.takeWhile isdigit = n.frac := List.takeWhile_eq_self_iff.mpr n.frac_digits
  rw [splitValue, htake, hdrop]
  simp only [n.whole_ne_nil, if_false, hfrac, mantissa]
  by_cases hunit : n.letter = n.unit
  · rw [if_pos hunit, if_pos hunit]
  · rw [if_neg hunit, if_neg hunit, if_pos (n.letter_mem.resolve_left hunit)]

theorem Notation.normalised_iff_canonical
    (hnumeral : (normalize n.mantissa).Numeral) :
    n.Normalised ↔ (normalize n.mantissa).Canonical ∧
      (normalize n.mantissa).value = n.mantissa.value := by
  have hconvert : convert n.unit n.text = some (render (normalize n.mantissa) n.unit) := by
    rw [convert, findValue_of_split n.split_text]
    rfl
  constructor
  · rintro ⟨v, hv, hvalue, hv'⟩
    rw [hconvert] at hv'
    obtain rfl := render_injective hnumeral hv.toNumeral (Option.some.inj hv')
    exact ⟨hv, hvalue⟩
  · rintro ⟨hcanonical, hvalue⟩
    exact ⟨_, hcanonical, hvalue, hconvert⟩

def Notation.integer : List Byte := n.whole.dropWhile (· == ZERO)

/-- The values that the conversion gets right. From one on, every digit behind the point must be
other than zero, up to zeros at the end, and the number must stay below 1000 T. Below one, the digit
behind the point must not be zero and the multiplier not `p`. Zero must have no multiplier and no
digits behind it. -/
def Notation.Clean : Prop :=
  if n.integer ≠ [] then
    exponent n.mantissa.exp + ((n.integer.length - 1) / 3 : Nat) ≤ 4 ∧
      Plain (n.integer.drop (leadLength n.integer) ++ n.frac)
  else if n.frac = [] then n.mantissa.exp = BLANK
  else n.frac.head? ≠ some ZERO ∧ n.mantissa.exp ≠ 112 ∧ Plain (n.frac.drop 3)

theorem value_stripZeros {whole : List Byte}
    (hwhole : decimalValue (whole ++ n.frac) = decimalValue (n.whole ++ n.frac)) :
    Mantissa.value ⟨whole, n.frac, n.mantissa.exp⟩ = n.mantissa.value := by
  rw [Mantissa.value, Mantissa.value, Mantissa.number, Mantissa.number, hwhole]
  rfl

theorem normalised_from_one (hne : n.integer ≠ []) :
    n.Normalised ↔ exponent n.mantissa.exp + ((n.integer.length - 1) / 3 : Nat) ≤ 4 ∧
      Plain (n.integer.drop (leadLength n.integer) ++ n.frac) := by
  have hexp := upper_of_cases n.exp_cases
  have hhead : n.integer.head? ≠ some ZERO := by
    cases hinteger : n.integer with
    | nil => exact absurd hinteger hne
    | cons d rest =>
      have hd : d ≠ ZERO := by simpa using head_dropWhile_ne hinteger
      simpa using hd
  have hv : Mantissa.Numeral ⟨n.integer, n.frac, n.mantissa.exp⟩ := by
    constructor
    · intro d hd
      exact n.whole_digits d ((List.dropWhile_sublist _).subset hd)
    · exact n.frac_digits
    · exact hexp.1
  have hrange := below1000_inRange hv hne hhead hexp
  obtain ⟨-, hfrac, -, hexponent⟩ := below1000_eq ⟨n.integer, n.frac, n.mantissa.exp⟩ hne hexp
  have hvalue : n.mantissa.value = _ :=
    (value_stripZeros n (decimalValue_dropZeros n.whole n.frac)).symm.trans
      (value_below1000 (v := ⟨n.integer, n.frac, n.mantissa.exp⟩) hne hexp)
  have hstop : (below1000 ⟨n.integer, n.frac, n.mantissa.exp⟩).whole ≠ [ZERO] := by
    intro heq
    apply hrange.head_ne_zero
    rw [heq]
    rfl
  have hnormalize : normalize n.mantissa =
      (below1000 ⟨n.integer, n.frac, n.mantissa.exp⟩).trim := by
    have hstrip : stripZeros n.mantissa.whole = n.integer := if_neg hne
    rw [normalize, hstrip, atLeast1]
    rw [if_neg fun h => hstop h.1]
    rfl
  rw [n.normalised_iff_canonical (hnormalize ▸ hrange.toNumeral.trim), hnormalize,
    trim_normalised_iff hrange hvalue (by rw [hexponent]; exact min_le_right _ _), hexponent, hfrac,
    min_eq_right_iff]
  rfl

theorem normalised_below_one (hnil : n.integer = []) (hne : n.frac ≠ []) :
    n.Normalised ↔
      n.frac.head? ≠ some ZERO ∧ n.mantissa.exp ≠ 112 ∧ Plain (n.frac.drop 3) := by
  obtain ⟨hscale, hle, heq⟩ := scaleDown_cases n.exp_cases
  have hexp := upper_of_cases n.exp_cases
  have hv : Mantissa.Numeral ⟨[ZERO], n.frac, n.mantissa.exp⟩ := by
    constructor
    · intro d hd
      rw [List.mem_singleton.mp hd]
      rfl
    · exact n.frac_digits
    · exact hexp.1
  have hwhole : stripZeros n.mantissa.whole = [ZERO] := if_pos hnil
  have hnormalize : normalize n.mantissa =
      (shiftDown ⟨[ZERO], n.frac, n.mantissa.exp⟩).trim := by
    have hstop : (shiftDown ⟨[ZERO], n.frac, n.mantissa.exp⟩).whole ≠ [ZERO] := by
      intro hwhole
      have hlength := length_shiftDown ⟨[ZERO], n.frac, n.mantissa.exp⟩
      rw [hwhole] at hlength
      cases hlength
    rw [normalize, hwhole, below1000]
    rw [if_neg (by simp), atLeast1, if_pos ⟨rfl, hne⟩, atLeast1]
    rw [if_neg fun h => hstop h.1]
    rfl
  have hnumeral : (normalize n.mantissa).Numeral := by
    rw [hnormalize]
    exact (shiftDown_numeral hv hscale).trim
  rw [n.normalised_iff_canonical hnumeral, hnormalize]
  by_cases hhead : n.frac.head? = some ZERO
  · constructor
    · rintro ⟨hcanonical, -⟩
      exfalso
      have hfirst : (shiftDown ⟨[ZERO], n.frac, n.mantissa.exp⟩).trim.whole.head? = some ZERO :=
        (shiftDown_head hne).trans hhead
      have hlength : (shiftDown ⟨[ZERO], n.frac, n.mantissa.exp⟩).trim.whole.length = 3 :=
        length_shiftDown _
      obtain ⟨hzero, -⟩ | ⟨-, hnot, -⟩ := hcanonical.shape
      · rw [hzero] at hlength
        cases hlength
      · exact hnot hfirst
    · exact fun h => absurd hhead h.1
  · have hrange := shiftDown_inRange hv hne hhead hscale
    have hvalue : n.mantissa.value =
        (shiftDown ⟨[ZERO], n.frac, n.mantissa.exp⟩).number *
          1000 ^ (exponent n.mantissa.exp - 1) := by
      have hdigits : decimalValue ([ZERO] ++ n.frac) = decimalValue (n.whole ++ n.frac) := by
        calc
          decimalValue ([ZERO] ++ n.frac) = decimalValue ([] ++ n.frac) := by
            rw [decimalValue_append, decimalValue_append]
            rfl
          _ = decimalValue (n.whole ++ n.frac) := by
            rw [← hnil]
            exact decimalValue_dropZeros n.whole n.frac
      rw [← value_stripZeros n hdigits, number_shiftDown (by simp), Mantissa.value,
        zpow_sub₀ (by norm_num), zpow_one]
      ring
    have hfrac := shiftDown_frac ⟨[ZERO], n.frac, n.mantissa.exp⟩
    have hshifted : exponent (shiftDown ⟨[ZERO], n.frac, n.mantissa.exp⟩).exp =
        exponent (scaleDown n.mantissa.exp) := by
      rw [shiftDown]
      split <;> rfl
    rw [trim_normalised_iff hrange hvalue (hshifted.trans_le hle), hshifted, heq, hfrac]
    exact (and_iff_right hhead).symm

theorem normalised_zero (hnil : n.integer = []) (hfrac : n.frac = []) :
    n.Normalised ↔ n.mantissa.exp = BLANK := by
  have hexp := upper_of_cases n.exp_cases
  have hnormalize : normalize n.mantissa = ⟨[ZERO], [], n.mantissa.exp⟩ := by
    have hwhole : stripZeros n.mantissa.whole = [ZERO] := if_pos hnil
    have hmantissa : n.mantissa.frac = [] := hfrac
    rw [normalize, hwhole, below1000, hmantissa]
    rw [if_neg (by simp), atLeast1, if_neg (by simp)]
    rfl
  have hnumeral : Mantissa.Numeral ⟨[ZERO], [], n.mantissa.exp⟩ := by
    constructor
    · intro d hd
      rw [List.mem_singleton.mp hd]
      rfl
    · intro d hd
      cases hd
    · exact hexp.1
  have hzero : decimalValue (n.whole ++ n.frac) = 0 := by
    rw [← decimalValue_dropZeros, hfrac, List.append_nil]
    exact congrArg decimalValue hnil
  have hvalue : n.mantissa.value = 0 := by
    rw [Mantissa.value, Mantissa.number]
    have hdigits : decimalValue (n.mantissa.whole ++ n.mantissa.frac) = 0 := hzero
    rw [hdigits, Nat.cast_zero, zero_div, zero_mul]
  rw [n.normalised_iff_canonical (hnormalize ▸ hnumeral), hnormalize, hvalue]
  constructor
  · rintro ⟨hcanonical, -⟩
    obtain ⟨-, -, hblank⟩ | ⟨-, hhead, -⟩ := hcanonical.shape
    · exact hblank
    · exact absurd rfl hhead
  · intro hblank
    refine ⟨⟨hnumeral, Or.inl ⟨rfl, rfl, hblank⟩⟩, ?_⟩
    rw [Mantissa.value, Mantissa.number]
    simp [decimalValue, ZERO]

/-! ### One string for one number -/

theorem digits_injective {t : List Byte} (hs : ∀ d ∈ s, isdigit d = true)
    (ht : ∀ d ∈ t, isdigit d = true)
    (h : (s.map fun d => d.toNat - 48) = t.map fun d => d.toNat - 48) : s = t := by
  induction s generalizing t with
  | nil => exact (List.map_eq_nil_iff.mp h.symm).symm
  | cons d s ih =>
    cases t with
    | nil => cases h
    | cons e t =>
      obtain ⟨hhead, htail⟩ := List.cons.inj h
      have hd := isdigit_iff.mp (hs d List.mem_cons_self)
      have he := isdigit_iff.mp (ht e List.mem_cons_self)
      have hde : d = e := by
        apply UInt8.toNat_inj.mp
        simp only at hhead
        omega
      rw [hde, ih (fun c hc => hs c (List.mem_cons_of_mem d hc))
        (fun c hc => ht c (List.mem_cons_of_mem e hc)) htail]

theorem decimalValue_injective {t : List Byte} (hs : ∀ d ∈ s, isdigit d = true)
    (ht : ∀ d ∈ t, isdigit d = true) (hlength : s.length = t.length)
    (h : decimalValue s = decimalValue t) : s = t := by
  have hsmall : ∀ u : List Byte, (∀ d ∈ u, isdigit d = true) →
      ∀ x ∈ (u.map fun d => d.toNat - 48).reverse, x < 10 := by
    intro u hu x hx
    obtain ⟨d, hd, rfl⟩ := List.mem_map.mp (List.mem_reverse.mp hx)
    have hrange := isdigit_iff.mp (hu d hd)
    omega
  rw [decimalValue_eq_ofDigits, decimalValue_eq_ofDigits] at h
  apply digits_injective hs ht
  apply List.reverse_injective
  exact Nat.ofDigits_inj_of_len_eq (by decide) (by simp [hlength]) (hsmall s hs) (hsmall t ht) h

theorem exponent_injective {exp' : Byte} (hexp : exp ∈ SCALE)
    (h : exponent exp = exponent exp') : exp = exp' := by
  rw [exponent, exponent] at h
  exact (List.idxOf_inj hexp).mp (by omega)

theorem not_dvd_of_getLast? (hs : ∀ d ∈ s, isdigit d = true) (hne : s ≠ [])
    (hlast : s.getLast? ≠ some ZERO) : ¬10 ∣ decimalValue s := by
  obtain hnil | ⟨before, d, rfl⟩ := List.eq_nil_or_concat' s
  · exact absurd hnil hne
  · have hd : d ≠ ZERO := by simpa using hlast
    have hrange := isdigit_iff.mp (hs d (by simp))
    have hzero : d.toNat ≠ 48 := fun heq => hd (UInt8.toNat_inj.mp heq)
    rw [decimalValue_append, decimalValue_cons]
    simp only [List.length_singleton, List.length_nil]
    have hnil : decimalValue [] = 0 := rfl
    omega

theorem Mantissa.InRange.le_value (hv : v.InRange) :
    10 ^ ((v.whole ++ v.frac).length - 1) ≤ decimalValue (v.whole ++ v.frac) := by
  cases hwhole : v.whole with
  | nil => exact absurd hwhole hv.whole_ne_nil
  | cons d whole =>
    have hd : d ≠ ZERO := by
      intro heq
      apply hv.head_ne_zero
      rw [hwhole, heq]
      rfl
    exact le_decimalValue (hv.whole_digits d (hwhole ▸ List.mem_cons_self)) hd

theorem Mantissa.Numeral.digits (hv : v.Numeral) : ∀ d ∈ v.whole ++ v.frac, isdigit d = true := by
  intro d hd
  obtain hd | hd := List.mem_append.mp hd
  · exact hv.whole_digits d hd
  · exact hv.frac_digits d hd

theorem Mantissa.InRange.length_le_of_value_eq {w : Mantissa} (hv : v.InRange) (hw : w.InRange)
    (h : decimalValue (v.whole ++ v.frac) = decimalValue (w.whole ++ w.frac)) :
    (w.whole ++ w.frac).length ≤ (v.whole ++ v.frac).length := by
  by_contra hlonger
  have hlt : decimalValue (v.whole ++ v.frac) < decimalValue (w.whole ++ w.frac) := by
    calc
      decimalValue (v.whole ++ v.frac) < 10 ^ (v.whole ++ v.frac).length :=
        decimalValue_lt hv.toNumeral.digits
      _ ≤ 10 ^ ((w.whole ++ w.frac).length - 1) := Nat.pow_le_pow_right (by decide) (by omega)
      _ ≤ decimalValue (w.whole ++ w.frac) := hw.le_value
  omega

theorem frac_length_le {w : Mantissa} (hw : w.Numeral) (hlast : w.frac.getLast? ≠ some ZERO)
    (h : v.number = w.number) : w.frac.length ≤ v.frac.length := by
  by_contra hlonger
  obtain ⟨c, hc⟩ := Nat.exists_eq_add_of_lt (not_le.mp hlonger)
  have hne : w.frac ≠ [] := by
    apply List.ne_nil_of_length_pos
    omega
  apply not_dvd_of_getLast? hw.digits (by simp [hne])
  · rw [List.getLast?_append_of_ne_nil _ hne]
    exact hlast
  · rw [Mantissa.number, Mantissa.number, div_eq_div_iff (by positivity) (by positivity), hc,
      Nat.add_assoc, pow_add, pow_succ] at h
    have hpow : (10 : ℚ) ^ v.frac.length ≠ 0 := by positivity
    have hvalue : (decimalValue (w.whole ++ w.frac) : ℚ) =
        10 * (10 ^ c * decimalValue (v.whole ++ v.frac)) := by
      apply mul_right_cancel₀ hpow
      rw [← h]
      ring
    exact Dvd.intro _ (by exact_mod_cast hvalue.symm)

theorem Mantissa.InRange.eq_of_number {w : Mantissa} (hv : v.InRange) (hw : w.InRange)
    (hvlast : v.frac.getLast? ≠ some ZERO) (hwlast : w.frac.getLast? ≠ some ZERO)
    (h : v.number = w.number) : v.whole = w.whole ∧ v.frac = w.frac := by
  have hfrac : v.frac.length = w.frac.length :=
    le_antisymm (frac_length_le hv.toNumeral hvlast h.symm) (frac_length_le hw.toNumeral hwlast h)
  have hvalue : decimalValue (v.whole ++ v.frac) = decimalValue (w.whole ++ w.frac) := by
    rw [Mantissa.number, Mantissa.number, hfrac, div_left_inj' (by positivity)] at h
    exact_mod_cast h
  have hlength := le_antisymm (hw.length_le_of_value_eq hv hvalue.symm)
    (hv.length_le_of_value_eq hw hvalue)
  have hdigits := decimalValue_injective hv.toNumeral.digits hw.toNumeral.digits hlength hvalue
  exact List.append_inj' hdigits hfrac

theorem Mantissa.Canonical.cases (hv : v.Canonical) :
    v = ⟨[ZERO], [], BLANK⟩ ∨ v.InRange ∧ v.frac.getLast? ≠ some ZERO := by
  obtain ⟨hwhole, hfrac, hexp⟩ | ⟨hne, hhead, hlength, hlast⟩ := hv.shape
  · left
    obtain ⟨whole, frac, exp⟩ := v
    simp_all
  · exact Or.inr ⟨⟨hv.toNumeral, hne, hhead, hlength⟩, hlast⟩

theorem Mantissa.InRange.value_pos (hv : v.InRange) : 0 < v.value :=
  mul_pos (zero_lt_one.trans_le hv.one_le_number) (by positivity)

theorem canonical_unique {w : Mantissa} (hv : v.Canonical) (hw : w.Canonical)
    (h : v.value = w.value) : v = w := by
  have hzero : Mantissa.value ⟨[ZERO], [], BLANK⟩ = 0 := by
    simp [Mantissa.value, Mantissa.number, decimalValue, ZERO]
  obtain rfl | ⟨hv, hvlast⟩ := hv.cases <;> obtain rfl | ⟨hw, hwlast⟩ := hw.cases
  · rfl
  · exact absurd (h.symm.trans hzero) hw.value_pos.ne'
  · exact absurd (h.trans hzero) hv.value_pos.ne'
  · have hboth : exponent v.exp = exponent w.exp ∧ v.number = w.number := by
      obtain hle | hle := le_total (exponent v.exp) (exponent w.exp)
      · exact (scaled_eq_iff hw.one_le_number (hv.toNumeral.number_lt hv.length_le) hle).mp h
      · obtain ⟨hexp, hnumber⟩ :=
          (scaled_eq_iff hv.one_le_number (hw.toNumeral.number_lt hw.length_le) hle).mp h.symm
        exact ⟨hexp.symm, hnumber.symm⟩
    obtain ⟨hwhole, hfrac⟩ := hv.eq_of_number hw hvlast hwlast hboth.2
    have hexp := exponent_injective hv.toNumeral.exp_mem hboth.1
    obtain ⟨vwhole, vfrac, vexp⟩ := v
    obtain ⟨wwhole, wfrac, wexp⟩ := w
    simp only at hwhole hfrac hexp
    rw [hwhole, hfrac, hexp]

theorem normalised_iff : n.Normalised ↔ n.Clean := by
  rw [Notation.Clean]
  by_cases hnil : n.integer = []
  · rw [if_neg (not_not.mpr hnil)]
    by_cases hfrac : n.frac = []
    · rw [if_pos hfrac]
      exact normalised_zero n hnil hfrac
    · rw [if_neg hfrac]
      exact normalised_below_one n hnil hfrac
  · rw [if_pos hnil]
    exact normalised_from_one n hnil

def inner : Notation where
  unit := 82
  letter := 107
  whole := [49]
  frac := [48, 50]
  unit_not_digit := rfl
  letter_mem := by decide
  whole_ne_nil := by decide
  whole_digits := by simp [isdigit]
  frac_digits := by simp [isdigit]

end Openmoko.Boom
