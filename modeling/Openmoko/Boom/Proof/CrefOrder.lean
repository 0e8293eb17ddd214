import Mathlib
import Openmoko.Boom.Part2order

/-!
# The order of component references

References of letters and digits are in the order of their letters, and then of their numbers. Any
other string is compared with them byte by byte, and so it can stand between two of them that are the
other way around. Numbers of more than 64 bits are compared as doubles, also with those of fewer.
-/

namespace Openmoko.Boom

variable {a b c : Ref} {s t as bs an bn : List Byte}

theorem comparesBy_cmpString : ComparesBy cmpString bytes := by
  intro s t
  rw [cmpString]
  simp only [lt_iff_bytes, outcome_ite]
  rw [outcome_eq.mpr rfl, Ordering.then_eq]

theorem cmpCref_of_none (h : splitCref a = none ∨ splitCref b = none) :
    cmpCref a b = cmpString a b := by
  rw [cmpCref]
  rcases h with h | h
  · rw [h]
  · rw [h]
    cases splitCref a <;> rfl

theorem cmpNumber_le_iff (m n : ℕ) : cmpNumber m n ≤ 0 ↔
    if m < 2 ^ 64 ∧ n < 2 ^ 64 then m ≤ n else roundDouble m ≤ roundDouble n := by
  rw [cmpNumber]
  split_ifs <;> omega

theorem roundDouble_le_of_cmpNumber {m n : ℕ} (hle : cmpNumber m n ≤ 0) :
    roundDouble m ≤ roundDouble n := by
  rw [cmpNumber_le_iff] at hle
  split_ifs at hle
  · exact roundDouble_mono hle
  · exact hle

/-- Numbers are in order one after the other unless two of 64 bits, the greater one first, have a
greater one between them that is the same double. -/
theorem cmpNumber_trans {m k n : ℕ} (hmk : cmpNumber m k ≤ 0) (hkn : cmpNumber k n ≤ 0)
    (hbetween : n < m → m < 2 ^ 64 → 2 ^ 64 ≤ k → roundDouble n < roundDouble k) :
    cmpNumber m n ≤ 0 := by
  have hround := (roundDouble_le_of_cmpNumber hmk).trans (roundDouble_le_of_cmpNumber hkn)
  have hkn' := roundDouble_le_of_cmpNumber hkn
  rw [cmpNumber_le_iff] at hmk hkn ⊢
  split_ifs with hsmall
  · by_contra hlt
    by_cases hk : k < 2 ^ 64
    · rw [if_pos ⟨hsmall.1, hk⟩] at hmk
      rw [if_pos ⟨hk, hsmall.2⟩] at hkn
      exact hlt (hmk.trans hkn)
    · exact (hbetween (not_le.mp hlt) hsmall.1 (not_lt.mp hk)).not_ge hkn'
  · exact hround

theorem cmpNumber_swap (m n : ℕ) : (cmpNumber m n).sign = -(cmpNumber n m).sign := by
  rw [cmpNumber, cmpNumber, ← Int.sign_neg]
  congr 1
  split_ifs <;> omega

theorem bytes_injective : Function.Injective bytes := fun _ _ h =>
  List.map_injective_iff.mpr (fun _ _ => UInt8.toNat_inj.mp) h

theorem cmpCref_of_some (ha : splitCref a = some (as, an)) (hb : splitCref b = some (bs, bn)) :
    cmpCref a b =
      if as = bs then cmpNumber (decimalValue an) (decimalValue bn) else cmpString as bs := by
  rw [cmpCref, ha, hb]

theorem cmpCref_le_iff (ha : splitCref a = some (as, an)) (hb : splitCref b = some (bs, bn)) :
    cmpCref a b ≤ 0 ↔
      bytes as < bytes bs ∨ as = bs ∧ cmpNumber (decimalValue an) (decimalValue bn) ≤ 0 := by
  rw [cmpCref_of_some ha hb]
  split_ifs with heq
  · simp [heq]
  · have hne : bytes as ≠ bytes bs := fun h => heq (bytes_injective h)
    rw [comparesBy_cmpString.le_iff, or_iff_left fun h => heq h.1, hne.le_iff_lt]

theorem cmpCref_le_iff_of_none (h : splitCref a = none ∨ splitCref b = none) :
    cmpCref a b ≤ 0 ↔ bytes a ≤ bytes b := by
  rw [cmpCref_of_none h, comparesBy_cmpString.le_iff]

theorem append_lt_append {s t x y : List Byte} (hlt : s < t) (hs : ∀ c ∈ s, isalpha c = true)
    (ht : ∀ c ∈ t, isalpha c = true) (hx : ∀ c ∈ x.head?, ∀ d, isalpha d = true → c < d) :
    s ++ x < t ++ y := by
  induction s generalizing t with
  | nil =>
    cases t with
    | nil => exact absurd hlt (List.lt_irrefl _)
    | cons d t =>
      cases x with
      | nil => exact List.nil_lt_cons _ _
      | cons c x =>
        exact List.cons_lt_cons_iff.mpr (Or.inl (hx c rfl d (ht d List.mem_cons_self)))
  | cons c s ih =>
    cases t with
    | nil => exact absurd hlt (List.not_lt_nil _)
    | cons d t =>
      rw [List.cons_append, List.cons_append, List.cons_lt_cons_iff]
      rcases List.cons_lt_cons_iff.mp hlt with hcd | ⟨heq, htail⟩
      · exact Or.inl hcd
      · exact Or.inr ⟨heq, ih htail (fun c hc => hs c (List.mem_cons_of_mem _ hc))
          fun c hc => ht c (List.mem_cons_of_mem _ hc)⟩

theorem lt_of_isalpha {c d : Byte} (hc : isdigit c = true ∨ c = LF) (hd : isalpha d = true) :
    c < d := by
  rw [isalpha, isupper, islower, Bool.or_eq_true, Bool.and_eq_true, Bool.and_eq_true,
    decide_eq_true_iff, decide_eq_true_iff, decide_eq_true_iff, decide_eq_true_iff] at hd
  have hlow : (65 : Byte) ≤ d := by
    rcases hd with ⟨hd, -⟩ | ⟨hd, -⟩
    · exact hd
    · exact UInt8.le_trans (by decide) hd
  refine UInt8.lt_of_le_of_lt (b := 57) ?_ (UInt8.lt_of_lt_of_le (by decide) hlow)
  rcases hc with hc | rfl
  · rw [isdigit, Bool.and_eq_true, decide_eq_true_iff, decide_eq_true_iff] at hc
    exact hc.2
  · decide

theorem splitCref_eq (ha : splitCref a = some (as, an)) :
    ∃ rest, a = as ++ rest ∧ (∀ c ∈ as, isalpha c = true) ∧
      ∀ c ∈ rest.head?, isdigit c = true ∨ c = LF := by
  rw [splitCref] at ha
  simp only [Option.ite_none_right_eq_some, Option.some.injEq, Prod.mk.injEq] at ha
  obtain ⟨⟨-, hrest⟩, rfl, -⟩ := ha
  refine ⟨a.dropWhile isalpha, List.takeWhile_append_dropWhile.symm,
    fun c hc => List.mem_takeWhile_imp hc, fun c hc => ?_⟩
  cases hdigits : a.dropWhile isalpha with
  | nil =>
    rw [hdigits] at hc
    cases hc
  | cons d digits =>
    rw [hdigits] at hc hrest
    obtain rfl : d = c := Option.some.inj hc
    by_cases hd : isdigit d = true
    · exact Or.inl hd
    · rw [List.dropWhile_cons_of_neg hd] at hrest
      rcases hrest with hnil | hLF
      · cases hnil
      · exact Or.inr (List.cons.inj hLF).1

theorem bytes_lt_of_letters_lt (ha : splitCref a = some (as, an)) (hb : splitCref b = some (bs, bn))
    (hlt : bytes as < bytes bs) : bytes a < bytes b := by
  obtain ⟨x, rfl, halpha, hx⟩ := splitCref_eq ha
  obtain ⟨y, rfl, halpha', -⟩ := splitCref_eq hb
  rw [← lt_iff_bytes] at hlt ⊢
  exact append_lt_append hlt halpha halpha' fun c hc d hd => lt_of_isalpha (hx c hc) hd

structure PreorderOn (compare : Ref → Ref → Int) (refs : Set Ref) : Prop where
  refl : ∀ a ∈ refs, compare a a = 0
  swap : ∀ a ∈ refs, ∀ b ∈ refs, (compare a b).sign = -(compare b a).sign
  trans : ∀ a ∈ refs, ∀ b ∈ refs, ∀ c ∈ refs, compare a b ≤ 0 → compare b c ≤ 0 → compare a c ≤ 0

/-- Between two references of the same letters, in the order of their bytes, there is no other
string, unless they are in the order of their numbers too. -/
def NoStranger (refs : Set Ref) : Prop :=
  ∀ a ∈ refs, ∀ b ∈ refs, ∀ stranger ∈ refs, ∀ letters an bn,
    splitCref a = some (letters, an) → splitCref b = some (letters, bn) →
    splitCref stranger = none → a < stranger → stranger < b →
    cmpNumber (decimalValue an) (decimalValue bn) < 0

/-- No two references of the same letters with different numbers of 64 bits have one of the same
letters with a greater number beside them that is the same double. -/
def NoRounding (refs : Set Ref) : Prop :=
  ∀ a ∈ refs, ∀ b ∈ refs, ∀ c ∈ refs, ∀ letters an bn cn,
    splitCref a = some (letters, an) → splitCref b = some (letters, bn) →
    splitCref c = some (letters, cn) → decimalValue an < decimalValue bn →
    decimalValue bn < 2 ^ 64 → 2 ^ 64 ≤ decimalValue cn →
    roundDouble (decimalValue an) < roundDouble (decimalValue cn)

theorem cmpCref_swap (a b : Ref) : (cmpCref a b).sign = -(cmpCref b a).sign := by
  cases ha : splitCref a with
  | none =>
    rw [cmpCref_of_none (Or.inl ha), cmpCref_of_none (Or.inr ha)]
    exact comparesBy_cmpString.swap a b
  | some refA =>
    cases hb : splitCref b with
    | none =>
      rw [cmpCref_of_none (Or.inr hb), cmpCref_of_none (Or.inl hb)]
      exact comparesBy_cmpString.swap a b
    | some refB =>
      rw [cmpCref_of_some ha hb, cmpCref_of_some hb ha]
      by_cases heq : refA.1 = refB.1
      · rw [if_pos heq, if_pos heq.symm]
        exact cmpNumber_swap _ _
      · rw [if_neg heq, if_neg (Ne.symm heq)]
        exact comparesBy_cmpString.swap _ _

theorem cmpCref_self (a : Ref) : cmpCref a a = 0 := by
  have hswap := cmpCref_swap a a
  rw [← Int.sign_eq_zero_iff_zero]
  omega

variable {refs : Set Ref}

theorem not_lt_of_stranger (h : NoStranger refs) (ha : a ∈ refs) (hb : b ∈ refs)
    (hc : c ∈ refs) (hsplitA : splitCref a = some (as, an)) (hsplitB : splitCref b = some (bs, bn))
    (hsplitC : splitCref c = none) (hle : cmpCref b a ≤ 0) (hac : bytes a < bytes c)
    (hcb : bytes c < bytes b) : False := by
  rcases lt_trichotomy (bytes as) (bytes bs) with hlt | heq | hgt
  · rcases (cmpCref_le_iff hsplitB hsplitA).mp hle with hgt | ⟨rfl, -⟩
    · exact hlt.not_gt hgt
    · exact lt_irrefl _ hlt
  · obtain rfl := bytes_injective heq
    rw [← lt_iff_bytes] at hac hcb
    have hnumber := h a ha b hb c hc as an bn hsplitA hsplitB hsplitC hac hcb
    have hswap := cmpNumber_swap (decimalValue an) (decimalValue bn)
    rw [Int.sign_eq_neg_one_of_neg hnumber] at hswap
    rcases (cmpCref_le_iff hsplitB hsplitA).mp hle with hlt | ⟨-, hle⟩
    · exact lt_irrefl _ hlt
    · exact absurd (Int.sign_eq_one_iff_pos.mp (by omega)) hle.not_gt
  · exact absurd (bytes_lt_of_letters_lt hsplitB hsplitA hgt) (hac.trans hcb).not_gt

theorem bytes_ne (ha : splitCref a = some (as, an)) (hb : splitCref b = none) :
    bytes a ≠ bytes b := by
  intro heq
  rw [bytes_injective heq, hb] at ha
  cases ha

theorem cmpCref_trans_of_some (h : NoRounding refs) (ha : a ∈ refs)
    (hb : b ∈ refs) (hc : c ∈ refs) {cs cn : List Byte} (hsplitA : splitCref a = some (as, an))
    (hsplitB : splitCref b = some (bs, bn)) (hsplitC : splitCref c = some (cs, cn))
    (hab : cmpCref a b ≤ 0) (hbc : cmpCref b c ≤ 0) : cmpCref a c ≤ 0 := by
  rw [cmpCref_le_iff hsplitA hsplitB] at hab
  rw [cmpCref_le_iff hsplitB hsplitC] at hbc
  rw [cmpCref_le_iff hsplitA hsplitC]
  rcases hab with hab | ⟨rfl, hab⟩
  · refine Or.inl ?_
    rcases hbc with hbc | ⟨rfl, -⟩
    · exact hab.trans hbc
    · exact hab
  · rcases hbc with hbc | ⟨rfl, hbc⟩
    · exact Or.inl hbc
    · refine Or.inr ⟨rfl, cmpNumber_trans hab hbc fun hlt hsmall hlarge => ?_⟩
      exact h c hc a ha b hb as cn an bn hsplitC hsplitA hsplitB hlt hsmall hlarge

theorem cmpCref_trans (h : NoStranger refs) (hround : NoRounding refs) (ha : a ∈ refs)
    (hb : b ∈ refs)
    (hc : c ∈ refs) (hab : cmpCref a b ≤ 0) (hbc : cmpCref b c ≤ 0) : cmpCref a c ≤ 0 := by
  cases hsplitA : splitCref a with
  | none =>
    rw [cmpCref_le_iff_of_none (Or.inl hsplitA)] at hab ⊢
    cases hsplitB : splitCref b with
    | none =>
      rw [cmpCref_le_iff_of_none (Or.inl hsplitB)] at hbc
      exact hab.trans hbc
    | some refB =>
      cases hsplitC : splitCref c with
      | none =>
        rw [cmpCref_le_iff_of_none (Or.inr hsplitC)] at hbc
        exact hab.trans hbc
      | some refC =>
        by_contra hca
        have hlt := lt_of_le_of_ne hab (bytes_ne hsplitB hsplitA).symm
        exact not_lt_of_stranger h hc hb ha hsplitC hsplitB hsplitA hbc (not_le.mp hca) hlt
  | some refA =>
    cases hsplitB : splitCref b with
    | none =>
      rw [cmpCref_le_iff_of_none (Or.inr hsplitB)] at hab
      rw [cmpCref_le_iff_of_none (Or.inl hsplitB)] at hbc
      cases hsplitC : splitCref c with
      | none =>
        rw [cmpCref_le_iff_of_none (Or.inr hsplitC)]
        exact hab.trans hbc
      | some refC =>
        by_contra hca
        have hswap : cmpCref c a ≤ 0 := by
          have hsign := cmpCref_swap a c
          rw [Int.sign_eq_one_of_pos (not_le.mp hca)] at hsign
          exact (Int.sign_eq_neg_one_iff_neg.mp (by omega)).le
        exact not_lt_of_stranger h ha hc hb hsplitA hsplitC hsplitB hswap
          (lt_of_le_of_ne hab (bytes_ne hsplitA hsplitB))
          (lt_of_le_of_ne hbc (bytes_ne hsplitC hsplitB).symm)
    | some refB =>
      cases hsplitC : splitCref c with
      | none =>
        rw [cmpCref_le_iff_of_none (Or.inr hsplitC)] at hbc ⊢
        by_contra hca
        have hlt := lt_of_le_of_ne hbc (bytes_ne hsplitB hsplitC)
        exact not_lt_of_stranger h hb ha hc hsplitB hsplitA hsplitC hab hlt (not_le.mp hca)
      | some refC => exact cmpCref_trans_of_some hround ha hb hc hsplitA hsplitB hsplitC hab hbc

/-- **References are totally preordered where no stranger stands between two of them** and no number
of more than 64 bits is the same double as two others. -/
theorem preorderOn_iff (refs : Set Ref) :
    PreorderOn cmpCref refs ↔ NoStranger refs ∧ NoRounding refs := by
  constructor
  · intro h
    refine ⟨?_, ?_⟩
    · intro a ha b hb stranger hstranger letters an bn hsplitA hsplitB hsplit hac hcb
      by_contra hle
      rw [lt_iff_bytes] at hac hcb
      have hba : cmpCref b a ≤ 0 := by
        have hswap := cmpNumber_swap (decimalValue an) (decimalValue bn)
        rw [cmpCref_le_iff hsplitB hsplitA]
        refine Or.inr ⟨rfl, ?_⟩
        by_contra hgt
        rw [Int.sign_eq_one_of_pos (not_le.mp hgt)] at hswap
        exact hle (Int.sign_eq_neg_one_iff_neg.mp hswap)
      have hstep : cmpCref a stranger ≤ 0 := (cmpCref_le_iff_of_none (Or.inr hsplit)).mpr hac.le
      have htrans := h.trans b hb a ha stranger hstranger hba hstep
      rw [cmpCref_le_iff_of_none (Or.inr hsplit)] at htrans
      exact htrans.not_gt hcb
    · intro a ha b hb c hc letters an bn cn hsplitA hsplitB hsplitC hlt hsmall hlarge
      by_contra hround
      have hbc : cmpCref b c ≤ 0 := by
        rw [cmpCref_le_iff hsplitB hsplitC, cmpNumber_le_iff, if_neg (by omega)]
        exact Or.inr ⟨rfl, roundDouble_mono (by omega)⟩
      have hca : cmpCref c a ≤ 0 := by
        rw [cmpCref_le_iff hsplitC hsplitA, cmpNumber_le_iff, if_neg (by omega)]
        exact Or.inr ⟨rfl, not_lt.mp hround⟩
      have hba := h.trans b hb c hc a ha hbc hca
      rw [cmpCref_le_iff hsplitB hsplitA, cmpNumber_le_iff, if_pos ⟨hsmall, by omega⟩] at hba
      rcases hba with hba | ⟨-, hba⟩
      · exact lt_irrefl _ hba
      · omega
  · rintro ⟨h, hround⟩
    exact ⟨fun a _ => cmpCref_self a, fun a _ b _ => cmpCref_swap a b,
      fun a ha b hb c hc => cmpCref_trans h hround ha hb hc⟩

/-- `R2` comes before `R10`, this before `R1a`, and this before `R2`. -/
theorem not_preorderOn_r1a : ¬ PreorderOn cmpCref Set.univ := by
  intro h
  have htrans := h.trans (ascii "R2") trivial (ascii "R10") trivial (ascii "R1a") trivial
    (by decide) (by decide)
  exact absurd htrans (by decide)

end Openmoko.Boom
