import Openmoko.Boom.Bom2part
import Openmoko.Boom.Proof.ValueNormalisation

/-!
# Comparing characteristics

A value with one of the multipliers T, f and a, which the normalisation can produce, is taken for
one without a multiplier whose unit begins with that letter.
-/

namespace Openmoko.Boom

/-- A number, a multiplier and a unit. A unit that began with a multiplier would leave open which
of the two the letter is. -/
structure Quantity where
  whole : List Byte
  frac : Option (List Byte)
  exp : Byte
  unit : List Byte
  whole_digits : ∀ d ∈ whole, isdigit d = true
  frac_digits : ∀ d ∈ frac.getD [], isdigit d = true
  digits_ne : whole ++ frac.getD [] ≠ []
  exp_mem : exp ∈ SCALE
  unit_start : ∀ c ∈ unit.head?, isNumberByte c = false ∧ c ∉ SCALE

namespace Quantity

variable (q r : Quantity)

def number : List Byte := q.whole ++ q.frac.elim [] (POINT :: ·)

def text : List Byte := q.number ++ expText q.exp ++ q.unit

def value : ℚ :=
  decimalValue (q.whole ++ q.frac.getD []) / 10 ^ (q.frac.getD []).length * 1000 ^ exponent q.exp

def Lost : Prop := q.exp ∈ [84, 102, 97]

end Quantity

theorem perlNumber_number (q : Quantity) :
    perlNumber q.number =
      decimalValue (q.whole ++ q.frac.getD []) / 10 ^ (q.frac.getD []).length := by
  have hfrac : ∀ d ∈ q.frac.getD [], isdigit d = true := q.frac_digits
  rw [perlNumber, Quantity.number]
  cases hcase : q.frac with
  | none =>
    have hnil : q.whole.dropWhile isdigit = [] := List.dropWhile_eq_nil_iff.mpr q.whole_digits
    have hwhole : q.whole.takeWhile isdigit = q.whole :=
      List.takeWhile_eq_self_iff.mpr q.whole_digits
    simp [hnil, hwhole]
  | some frac =>
    rw [hcase] at hfrac
    have htake : frac.takeWhile isdigit = frac := List.takeWhile_eq_self_iff.mpr hfrac
    have hpoint : isdigit POINT = false := by decide
    have hdrop : (q.whole ++ POINT :: frac).dropWhile isdigit = 46 :: frac := by
      rw [List.dropWhile_append_of_pos q.whole_digits,
        List.dropWhile_cons_of_neg (by rw [hpoint]; exact Bool.false_ne_true)]
      rfl
    have hwhole : (q.whole ++ POINT :: frac).takeWhile isdigit = q.whole := by
      rw [List.takeWhile_append_of_pos q.whole_digits,
        List.takeWhile_cons_of_neg (by rw [hpoint]; exact Bool.false_ne_true), List.append_nil]
    simp only [Option.elim_some, Option.getD_some, hdrop, hwhole, htake]

theorem isNumberByte_of_mem_number (q : Quantity) : ∀ c ∈ q.number, isNumberByte c = true := by
  have hdigit : ∀ c, isdigit c = true → isNumberByte c = true := by
    intro c hc
    rw [isNumberByte, hc, Bool.true_or]
  intro c hc
  rw [Quantity.number, List.mem_append] at hc
  rcases hc with hc | hc
  · exact hdigit c (q.whole_digits c hc)
  · cases hcase : q.frac with
    | none =>
      rw [hcase] at hc
      exact absurd hc List.not_mem_nil
    | some frac =>
      have hfrac := q.frac_digits
      rw [hcase] at hc hfrac
      rcases List.mem_cons.mp hc with rfl | hc
      · decide
      · exact hdigit c (hfrac c hc)

theorem number_ne_nil (q : Quantity) : q.number ≠ [] := by
  have hne := q.digits_ne
  rw [Quantity.number]
  cases hcase : q.frac with
  | none => simpa [hcase] using hne
  | some frac => simp

theorem isNumberByte_of_mem_scale {exp : Byte} (hexp : exp ∈ SCALE) :
    isNumberByte exp = false := by
  revert exp
  decide +kernel

section SplitNumber

variable {number : List Byte} (hne : number ≠ []) (hnumber : ∀ c ∈ number, isNumberByte c = true)

include hne hnumber

theorem splitNumber_nil : splitNumber number = some (number, none, []) := by
  have htake : number.takeWhile isNumberByte = number := List.takeWhile_eq_self_iff.mpr hnumber
  have hdrop : number.dropWhile isNumberByte = [] := List.dropWhile_eq_nil_iff.mpr hnumber
  rw [splitNumber, htake, hdrop]
  exact if_neg hne

theorem splitNumber_cons {c : Byte} (hc : isNumberByte c = false) (rest : List Byte) :
    splitNumber (number ++ c :: rest) =
      if c ∈ COMPAT_MULTIPLIERS then some (number, some c, rest)
      else some (number, none, c :: rest) := by
  have hneg : ¬ isNumberByte c = true := by
    rw [hc]
    exact Bool.false_ne_true
  rw [splitNumber, List.takeWhile_append_of_pos hnumber, List.dropWhile_append_of_pos hnumber,
    List.takeWhile_cons_of_neg hneg, List.dropWhile_cons_of_neg hneg, List.append_nil]
  exact if_neg hne

end SplitNumber

theorem splitNumber_text (q : Quantity) :
    splitNumber q.text = some (q.number,
      if q.exp ∈ COMPAT_MULTIPLIERS then some q.exp else none,
      if q.exp ∈ COMPAT_MULTIPLIERS then q.unit else expText q.exp ++ q.unit) := by
  have hne := number_ne_nil q
  have hnumber := isNumberByte_of_mem_number q
  rw [Quantity.text, List.append_assoc]
  by_cases hblank : q.exp = BLANK
  · have hnot : q.exp ∉ COMPAT_MULTIPLIERS := by
      rw [hblank]
      decide
    have htext : expText q.exp = [] := if_pos hblank
    rw [if_neg hnot, if_neg hnot, htext, List.nil_append]
    cases hunit : q.unit with
    | nil => rw [List.append_nil, splitNumber_nil hne hnumber]
    | cons c rest =>
      obtain ⟨hc, hscale⟩ := q.unit_start c (by rw [hunit]; rfl)
      have hsub : ∀ c ∈ COMPAT_MULTIPLIERS, c ∈ SCALE := by decide +kernel
      rw [splitNumber_cons hne hnumber hc, if_neg fun hmem => hscale (hsub c hmem)]
  · have htext : expText q.exp = [q.exp] := if_neg hblank
    rw [htext, List.singleton_append,
      splitNumber_cons hne hnumber (isNumberByte_of_mem_scale q.exp_mem)]
    split <;> rfl

theorem text_head (q : Quantity) : ∃ c s, q.text = c :: s ∧ isNumberByte c = true := by
  obtain ⟨c, s, hcons⟩ := List.exists_cons_of_ne_nil (number_ne_nil q)
  refine ⟨c, s ++ expText q.exp ++ q.unit, ?_, ?_⟩
  · rw [Quantity.text, hcons]
    rfl
  · exact isNumberByte_of_mem_number q c (by rw [hcons]; exact List.mem_cons_self)

theorem splitRel_text (rel : Rel) (q : Quantity) :
    splitRel (rel.text ++ q.text) = some (rel, q.text) := by
  obtain ⟨c, s, hcons, hc⟩ := text_head q
  have hne : c ≠ 61 := by
    rintro rfl
    exact absurd hc (by decide)
  rw [hcons]
  cases rel with
  | ge => rfl
  | le => rfl
  | gt =>
    have hgt : Rel.gt.text ++ c :: s = 62 :: c :: s := rfl
    rw [hgt, splitRel]
    intro s' heq
    exact hne (List.cons.inj heq).1
  | lt =>
    have hlt : Rel.lt.text ++ c :: s = 60 :: c :: s := rfl
    rw [hlt, splitRel]
    intro s' heq
    exact hne (List.cons.inj heq).1

theorem scale_eq {exp : Byte} (hexp : exp ∈ SCALE) (hlost : exp ∉ [84, 102, 97]) (x : ℚ) :
    scale x (if exp ∈ COMPAT_MULTIPLIERS then some exp else none) = x * 1000 ^ exponent exp := by
  simp only [SCALE, List.mem_cons, List.not_mem_nil, or_false, not_or] at hexp hlost
  obtain ⟨hG, hM, hk, hnone, hm, hu, hn, hp⟩ : exponent 71 = 3 ∧ exponent 77 = 2 ∧
      exponent 107 = 1 ∧ exponent 32 = 0 ∧ exponent 109 = -1 ∧ exponent 117 = -2 ∧
      exponent 110 = -3 ∧ exponent 112 = -4 := by decide
  rcases hexp with rfl | rfl | rfl | rfl | rfl | rfl | rfl | rfl | rfl | rfl | rfl
  · exact absurd rfl hlost.1
  · rw [if_pos (by decide), scale, hG]
    norm_num
  · rw [if_pos (by decide), scale, hM]
    norm_num
  · rw [if_pos (by decide), scale, hk]
    norm_num
  · rw [if_neg (by decide), hnone, zpow_zero, mul_one]
    rfl
  · rw [if_pos (by decide), scale, hm]
    norm_num [div_eq_mul_inv]
  · rw [if_pos (by decide), scale, hu]
    norm_num [div_eq_mul_inv]
  · rw [if_pos (by decide), scale, hn]
    norm_num [div_eq_mul_inv]
  · rw [if_pos (by decide), scale, hp]
    norm_num [div_eq_mul_inv]
  · exact absurd rfl hlost.2.1
  · exact absurd rfl hlost.2.2

def Quantity.read (q : Quantity) : ℚ :=
  scale (perlNumber q.number) (if q.exp ∈ COMPAT_MULTIPLIERS then some q.exp else none)

theorem Quantity.read_eq {q : Quantity} (hq : ¬ q.Lost) : q.read = q.value := by
  rw [Quantity.read, scale_eq q.exp_mem hq, perlNumber_number, Quantity.value]

theorem text_ne (q r : Quantity) (rel : Rel) : q.text ≠ rel.text ++ r.text := by
  obtain ⟨c, s, hcons, hc⟩ := text_head q
  rw [hcons]
  rintro heq
  have hhead := congrArg List.head? heq
  have hrel : rel.text.head? = some 62 ∨ rel.text.head? = some 60 := by
    cases rel with
    | gt => exact Or.inl rfl
    | ge => exact Or.inl rfl
    | lt => exact Or.inr rfl
    | le => exact Or.inr rfl
  rw [List.head?_append, List.head?_cons] at hhead
  rcases hrel with hrel | hrel
  · rw [hrel, Option.some_or] at hhead
    obtain rfl := Option.some.inj hhead
    exact absurd hc (by decide)
  · rw [hrel, Option.some_or] at hhead
    obtain rfl := Option.some.inj hhead
    exact absurd hc (by decide)

def Quantity.readUnit (q : Quantity) : List Byte :=
  if q.exp ∈ COMPAT_MULTIPLIERS then q.unit else expText q.exp ++ q.unit

theorem compat_text (q r : Quantity) (rel : Rel) :
    compat q.text (rel.text ++ r.text) = true ↔
      q.readUnit = r.readUnit ∧ rel.Holds q.read r.read := by
  rw [compat, if_neg (text_ne q r rel), splitNumber_text, splitRel_text]
  simp only [splitNumber_text]
  change (if q.readUnit ≠ r.readUnit then false else decide (rel.Holds q.read r.read)) = true ↔ _
  by_cases hunit : q.readUnit = r.readUnit
  · rw [if_neg (not_not.mpr hunit), decide_eq_true_iff]
    exact (and_iff_right hunit).symm
  · rw [if_pos hunit]
    exact iff_of_false Bool.false_ne_true fun h => hunit h.1

theorem Quantity.readUnit_of_lost {q : Quantity} (hq : q.Lost) : q.readUnit = q.exp :: q.unit := by
  have hcases : ∀ exp ∈ [84, 102, 97], exp ∉ COMPAT_MULTIPLIERS ∧ exp ≠ BLANK := by decide +kernel
  obtain ⟨hnot, hblank⟩ := hcases q.exp hq
  rw [Quantity.readUnit, if_neg hnot, expText, if_neg hblank]
  rfl

theorem Quantity.readUnit_of_not_lost {q : Quantity} (hq : ¬ q.Lost) : q.readUnit = q.unit := by
  have hcases : ∀ exp ∈ SCALE, exp ∉ [84, 102, 97] → exp ∉ COMPAT_MULTIPLIERS → exp = BLANK := by
    decide +kernel
  rw [Quantity.readUnit]
  split
  · rfl
  case isFalse hnot =>
    rw [expText, if_pos (hcases q.exp q.exp_mem hq hnot)]
    rfl

theorem Quantity.readUnit_ne {q r : Quantity} (hq : q.Lost) (hr : ¬ r.Lost) :
    q.readUnit ≠ r.readUnit := by
  rw [Quantity.readUnit_of_lost hq, Quantity.readUnit_of_not_lost hr]
  intro heq
  exact (r.unit_start q.exp (by rw [← heq]; rfl)).2 q.exp_mem

theorem Rel.holds_mul (rel : Rel) {x y c : ℚ} (hc : 0 < c) :
    rel.Holds (x * c) (y * c) ↔ rel.Holds x y := by
  cases rel with
  | gt => exact mul_lt_mul_iff_left₀ hc
  | ge => exact mul_le_mul_iff_left₀ hc
  | lt => exact mul_lt_mul_iff_left₀ hc
  | le => exact mul_le_mul_iff_left₀ hc

theorem Quantity.lost_congr {q r : Quantity} (heq : q.exp = r.exp) : q.Lost ↔ r.Lost := by
  rw [Quantity.Lost, Quantity.Lost, heq]

theorem Quantity.holds_read {q r : Quantity} (rel : Rel) (hq : q.Lost) (heq : q.exp = r.exp) :
    rel.Holds q.read r.read ↔ rel.Holds q.value r.value := by
  have hcases : ∀ exp ∈ [84, 102, 97], exp ∉ COMPAT_MULTIPLIERS := by decide +kernel
  have hread : ∀ {q : Quantity}, q.Lost → q.read = perlNumber q.number := by
    intro q hq
    rw [Quantity.read, if_neg (hcases q.exp hq)]
    rfl
  have hr : r.Lost := (Quantity.lost_congr heq).mp hq
  have hpos : (0 : ℚ) < 1000 ^ exponent r.exp := zpow_pos (by norm_num) _
  rw [hread hq, hread hr, Quantity.value, Quantity.value, ← perlNumber_number, ← perlNumber_number,
    heq, rel.holds_mul hpos]

/-- `compat` tells whether the units agree and the values are in the relation, or the strings are the
same. -/
def CompatExact (q r : Quantity) (rel : Rel) : Prop :=
  compat q.text (rel.text ++ r.text) = true ↔
    q.unit = r.unit ∧ rel.Holds q.value r.value ∨ q.text = rel.text ++ r.text

/-- **The comparison is exact unless a multiplier that is needed is lost.** -/
theorem compatExact_iff (q r : Quantity) (rel : Rel) :
    CompatExact q r rel ↔
      q.exp = r.exp ∨ ¬ q.Lost ∧ ¬ r.Lost ∨ ¬ (q.unit = r.unit ∧ rel.Holds q.value r.value) := by
  rw [CompatExact, compat_text, or_iff_left (text_ne q r rel)]
  have hfalse : q.readUnit ≠ r.readUnit →
      ((q.readUnit = r.readUnit ∧ rel.Holds q.read r.read ↔
        q.unit = r.unit ∧ rel.Holds q.value r.value) ↔
        ¬ (q.unit = r.unit ∧ rel.Holds q.value r.value)) := by
    intro hne
    exact ⟨fun h hclaim => hne (h.mpr hclaim).1, iff_of_false fun h => hne h.1⟩
  by_cases hq : q.Lost
  · by_cases hr : r.Lost
    · by_cases heq : q.exp = r.exp
      · rw [Quantity.holds_read rel hq heq, Quantity.readUnit_of_lost hq,
          Quantity.readUnit_of_lost hr, heq, List.cons.injEq, and_iff_right rfl]
        exact iff_of_true Iff.rfl (Or.inl rfl)
      · have hne : q.readUnit ≠ r.readUnit := by
          rw [Quantity.readUnit_of_lost hq, Quantity.readUnit_of_lost hr]
          exact fun h => heq (List.cons.inj h).1
        rw [hfalse hne, or_iff_right heq, or_iff_right fun h => h.1 hq]
    · have heq : q.exp ≠ r.exp := fun heq => hr ((Quantity.lost_congr heq).mp hq)
      rw [hfalse (Quantity.readUnit_ne hq hr), or_iff_right heq, or_iff_right fun h => h.1 hq]
  · by_cases hr : r.Lost
    · have heq : q.exp ≠ r.exp := fun heq => hq ((Quantity.lost_congr heq).mpr hr)
      rw [hfalse (Quantity.readUnit_ne hr hq).symm, or_iff_right heq, or_iff_right fun h => h.2 hr]
    · rw [Quantity.read_eq hq, Quantity.read_eq hr, Quantity.readUnit_of_not_lost hq,
        Quantity.readUnit_of_not_lost hr]
      exact iff_of_true Iff.rfl (Or.inr (Or.inl ⟨hq, hr⟩))

def farads (digit exp : Byte) (hdigit : isdigit digit = true) (hexp : exp ∈ SCALE) : Quantity where
  whole := [digit]
  frac := none
  exp := exp
  unit := ascii "F"
  whole_digits := by simpa using hdigit
  frac_digits := nofun
  digits_ne := by simp
  exp_mem := hexp
  unit_start := by decide +kernel

/-- `5pF` is at least `1fF`. -/
theorem not_compatExact_femtofarad :
    ¬ ∀ (q r : Quantity) (rel : Rel), CompatExact q r rel := by
  intro h
  have hexact := h (farads 53 112 (by decide) (by decide)) (farads 49 102 (by decide) (by decide)) .ge
  have hvalue : Rel.Holds .ge (farads 53 112 (by decide) (by decide)).value
      (farads 49 102 (by decide) (by decide)).value := by
    have hp : exponent (farads 53 112 (by decide) (by decide)).exp = -4 := by decide
    have hf : exponent (farads 49 102 (by decide) (by decide)).exp = -5 := by decide
    have hfive : decimalValue [53] = 5 := by decide
    have hone : decimalValue [49] = 1 := by decide
    rw [Rel.Holds, Quantity.value, Quantity.value, hp, hf]
    norm_num [farads, hfive, hone]
  have htrue := hexact.mpr (Or.inl ⟨rfl, hvalue⟩)
  exact absurd htrue (by decide)

end Openmoko.Boom
