import Openmoko.Opkg.Version
import Openmoko.Library.Decimal

/-!
# The order of versions

A version string is a sequence of segments, each a run of non-digits and the number after it. A run
of non-digits is the sequence of its orders, continued by the order of the terminator, so that a
tilde comes before the end of a run. `versionKey` is this normal form; each of the two loops in a
turn of `verrevcmp` compares one component of a segment (`Decides`).
-/

namespace Openmoko.Opkg

variable (platform : Platform)

def nonDigitOrders (s : List Byte) : ℕ → Int :=
  fun k => ((s.takeWhile isNonDigit).map (order platform)).getD k 0

def afterSegment (s : List Byte) : List Byte := (s.dropWhile isNonDigit).dropWhile isdigit

def segments (s : List Byte) : ℕ → SeqLex Int ×ₗ ℕ
  | 0 => toLex (seqLex (nonDigitOrders platform s), leadingNumber (s.dropWhile isNonDigit))
  | k + 1 => segments (afterSegment s) k

def versionKey (s : List Byte) : SeqLex (SeqLex Int ×ₗ ℕ) := seqLex (segments platform s)

def Decides (loop : Except Int (List Byte × List Byte)) (order : Ordering)
    (next : List Byte × List Byte) : Prop :=
  match loop with
  | .error result => outcome result = order ∧ order ≠ .eq
  | .ok pointers => order = .eq ∧ pointers = next

variable {platform}

theorem charValue_bounds (c : Byte) : -256 < charValue platform c ∧
    (charValue platform c = 0 → c = NUL) := by
  have hlt : c.toNat < 256 := c.toNat_lt
  rw [charValue]
  split
  · rename_i hsigned
    have hhigh : 128 ≤ c.toNat := by
      simp only [Bool.and_eq_true, decide_eq_true_eq] at hsigned
      exact UInt8.le_iff_toNat_le.mp hsigned.2
    omega
  · refine ⟨by omega, fun hzero => ?_⟩
    rw [← UInt8.toNat_inj]
    exact Int.ofNat_eq_zero.mp hzero

theorem order_ne_zero {c : Byte} (hc : isNonDigit c = true) : order platform c ≠ 0 := by
  obtain ⟨hbound, hnul⟩ := charValue_bounds  c
  simp only [isNonDigit, Bool.and_eq_true, bne_iff_ne, Bool.not_eq_true'] at hc
  rw [order]
  by_cases htilde : c = TILDE
  · rw [if_pos htilde]
    decide
  · rw [if_neg htilde, if_neg (by simp [hc.2]), if_neg hc.1]
    split
    · exact fun hzero => hc.1 (hnul hzero)
    · omega

theorem order_eq_zero {c : Byte} (hc : isNonDigit c = false) : order platform c = 0 := by
  by_cases hnul : c = NUL
  · subst hnul
    rfl
  · have hdigit : isdigit c = true := by simpa [isNonDigit, hnul] using hc
    have htilde : c ≠ TILDE := fun heq => by
      rw [heq] at hdigit
      exact absurd hdigit (by decide)
    rw [order, if_neg htilde, if_pos hdigit]

theorem nonDigitOrders_zero (s : List Byte) :
    nonDigitOrders platform s 0 = order platform (deref s) := by
  cases s with
  | nil => rfl
  | cons c s =>
    by_cases hc : isNonDigit c = true
    · simp [nonDigitOrders, hc, deref]
    · rw [deref, List.headD_cons, order_eq_zero (by simpa using hc)]
      simp [nonDigitOrders, hc]

variable {s : List Byte}

theorem seqTail_nonDigitOrders (hs : isNonDigit (deref s) = true) :
    seqTail (nonDigitOrders platform s) = nonDigitOrders platform s.tail := by
  cases s with
  | nil => exact absurd hs (by decide)
  | cons c s =>
    funext k
    have hc : isNonDigit c = true := hs
    simp [seqTail, nonDigitOrders, hc]

theorem nonDigitOrders_eq_zero (hs : isNonDigit (deref s) = false) :
    nonDigitOrders platform s = fun _ => 0 := by
  cases s with
  | nil => rfl
  | cons c s =>
    funext k
    have hc : isNonDigit c = false := hs
    simp [nonDigitOrders, hc]

theorem dropWhile_nonDigit_of_pos (hs : isNonDigit (deref s) = true) :
    s.dropWhile isNonDigit = s.tail.dropWhile isNonDigit := by
  cases s with
  | nil => rfl
  | cons c s => exact List.dropWhile_cons_of_pos hs

theorem dropWhile_nonDigit_of_neg (hs : isNonDigit (deref s) = false) :
    s.dropWhile isNonDigit = s := by
  cases s with
  | nil => rfl
  | cons c s => exact List.dropWhile_cons_of_neg (by simpa [deref] using hs)

theorem nonDigitLoop_decides (platform : Platform) (val ref : List Byte) :
    Decides (nonDigitLoop platform val ref)
      (cmp (seqLex (nonDigitOrders platform val)) (seqLex (nonDigitOrders platform ref)))
      (val.dropWhile isNonDigit, ref.dropWhile isNonDigit) := by
  fun_induction nonDigitLoop platform val ref with
  | case1 val ref hmore vc rc hne =>
    have hdiff : outcome (vc - rc) ≠ .eq := by
      rw [ne_eq, outcome_eq]
      omega
    have hcmp : cmp (seqLex (nonDigitOrders platform val)) (seqLex (nonDigitOrders platform ref)) =
        outcome (vc - rc) := by
      rw [cmp_seq, nonDigitOrders_zero, nonDigitOrders_zero, ← outcome_sub]
      exact then_of_ne_eq hdiff
    rw [hcmp]
    exact ⟨rfl, hdiff⟩
  | case2 val ref hmore vc rc heq ih =>
    -- equal orders of which one is not zero are those of two non-digits
    have horders : order platform (deref val) = order platform (deref ref) := not_not.mp heq
    have hboth : isNonDigit (deref val) = true ∧ isNonDigit (deref ref) = true := by
      rcases Bool.or_eq_true_iff.mp hmore with hval | href
      · refine ⟨hval, ?_⟩
        by_contra hdigit
        have hzero : order platform (deref ref) = 0 :=
          order_eq_zero (Bool.eq_false_of_not_eq_true hdigit)
        exact order_ne_zero hval (horders.trans hzero)
      · refine ⟨?_, href⟩
        by_contra hdigit
        have hzero : order platform (deref val) = 0 :=
          order_eq_zero (Bool.eq_false_of_not_eq_true hdigit)
        exact order_ne_zero href (horders.symm.trans hzero)
    rw [cmp_seq, nonDigitOrders_zero, nonDigitOrders_zero, horders, cmp_self_eq_eq,
      Ordering.eq_then, seqTail_nonDigitOrders hboth.1, seqTail_nonDigitOrders hboth.2,
      dropWhile_nonDigit_of_pos hboth.1, dropWhile_nonDigit_of_pos hboth.2]
    exact ih
  | case3 val ref hstop =>
    simp only [Bool.or_eq_true, not_or, Bool.not_eq_true] at hstop
    rw [nonDigitOrders_eq_zero hstop.1, nonDigitOrders_eq_zero hstop.2,
      dropWhile_nonDigit_of_neg hstop.1, dropWhile_nonDigit_of_neg hstop.2]
    exact ⟨cmp_self_eq_eq _, rfl⟩

variable (firstDiff : Int)

theorem outcome_firstDiff (v r : Byte) :
    outcome (if firstDiff = 0 then (v.toNat : Int) - r.toNat else firstDiff) =
      (outcome firstDiff).then (cmp v.toNat r.toNat) := by
  by_cases hzero : firstDiff = 0
  · rw [if_pos hzero, outcome_eq.mpr hzero, Ordering.eq_then, outcome_sub]
    exact (Nat.strictMono_cast (α := Int)).cmp_map_eq v.toNat r.toNat
  · rw [if_neg hzero, then_of_ne_eq (mt outcome_eq.mp hzero)]

theorem cmp_digit_sub {v r : Byte} (hv : isdigit v = true) (hr : isdigit r = true) :
    cmp (v.toNat - 48) (r.toNat - 48) = cmp v.toNat r.toNat := by
  have hvrange := isdigit_iff.mp hv
  have hrrange := isdigit_iff.mp hr
  rcases lt_trichotomy v.toNat r.toNat with hlt | heq | hgt
  · rw [(cmp_eq_lt_iff _ _).mpr hlt, cmp_eq_lt_iff]
    omega
  · rw [heq, cmp_self_eq_eq, cmp_self_eq_eq]
  · rw [(cmp_eq_gt_iff _ _).mpr hgt, cmp_eq_gt_iff]
    omega

theorem leadingDigits_eq_nil : leadingDigits s = [] ↔ isdigit (deref s) = false := by
  cases s with
  | nil => exact ⟨fun _ => rfl, fun _ => rfl⟩
  | cons c s =>
    rw [leadingDigits, List.takeWhile_eq_nil_iff]
    simp [deref]

theorem dropWhile_of_empty (hs : leadingDigits s = []) : s.dropWhile isdigit = s := by
  rw [leadingDigits_eq_nil] at hs
  cases s with
  | nil => rfl
  | cons c s => exact List.dropWhile_cons_of_neg (by simpa [deref] using hs)

theorem both_empty {t : List Byte} (hempty : leadingDigits s = [] ∨ leadingDigits t = [])
    (hlength : (leadingDigits s).length = (leadingDigits t).length) :
    leadingDigits s = [] ∧ leadingDigits t = [] := by
  rw [← List.length_eq_zero_iff, ← List.length_eq_zero_iff] at hempty ⊢
  omega

theorem digitLoop_cases (val ref : List Byte) :
    (∃ v val' r ref', val = v :: val' ∧ ref = r :: ref' ∧ isdigit v = true ∧ isdigit r = true ∧
      digitLoop firstDiff val ref =
        digitLoop (if firstDiff = 0 then (v.toNat : Int) - r.toNat else firstDiff) val' ref') ∨
    ((leadingDigits val = [] ∨ leadingDigits ref = []) ∧
      digitLoop firstDiff val ref = (firstDiff, val, ref)) := by
  cases val with
  | nil => exact .inr ⟨.inl rfl, by rw [digitLoop]; simp⟩
  | cons v val =>
    cases ref with
    | nil => exact .inr ⟨.inr rfl, by rw [digitLoop]; simp⟩
    | cons r ref =>
      by_cases hdigits : (isdigit v && isdigit r) = true
      · obtain ⟨hv, hr⟩ := Bool.and_eq_true_iff.mp hdigits
        exact .inl ⟨v, val, r, ref, rfl, rfl, hv, hr, by rw [digitLoop, if_pos hdigits]⟩
      · refine .inr ⟨?_, by rw [digitLoop, if_neg hdigits]⟩
        rw [leadingDigits_eq_nil, leadingDigits_eq_nil]
        simpa [deref, imp_iff_not_or] using hdigits

theorem digitLoop_of_length_eq {val ref : List Byte}
    (hlength : (leadingDigits val).length = (leadingDigits ref).length) :
    ∃ firstDiff', digitLoop firstDiff val ref =
        (firstDiff', val.dropWhile isdigit, ref.dropWhile isdigit) ∧
      outcome firstDiff' =
        (outcome firstDiff).then (cmp (leadingNumber val) (leadingNumber ref)) := by
  induction val generalizing firstDiff ref with
  | nil =>
    have href : leadingDigits ref = [] := List.length_eq_zero_iff.mp hlength.symm
    refine ⟨firstDiff, ?_, ?_⟩
    · rw [dropWhile_of_empty href, digitLoop]
      · rfl
      · simp
    · rw [leadingNumber, leadingNumber, href]
      exact Ordering.then_eq.symm
  | cons v val ih =>
    obtain ⟨v, val, r, ref, ⟨rfl, rfl⟩, rfl, hv, hr, hloop⟩ | ⟨hempty, hloop⟩ :=
      digitLoop_cases firstDiff (v :: val) ref
    · rw [leadingDigits_cons_of_pos hv, leadingDigits_cons_of_pos hr, List.length_cons,
        List.length_cons, Nat.add_right_cancel_iff] at hlength
      obtain ⟨firstDiff', hrest, houtcome⟩ := ih _ hlength
      have hval : leadingNumber val < 10 ^ (leadingDigits val).length :=
        decimalValue_lt fun _ => isdigit_of_mem_leadingDigits
      have href : leadingNumber ref < 10 ^ (leadingDigits val).length := by
        rw [hlength]
        exact decimalValue_lt fun _ => isdigit_of_mem_leadingDigits
      refine ⟨firstDiff', ?_, ?_⟩
      · rw [hloop, hrest, List.dropWhile_cons_of_pos hv, List.dropWhile_cons_of_pos hr]
      · calc outcome firstDiff'
            = ((outcome firstDiff).then (cmp v.toNat r.toNat)).then
                (cmp (leadingNumber val) (leadingNumber ref)) := by
              rw [houtcome, outcome_firstDiff]
          _ = (outcome firstDiff).then
                (cmp ((v.toNat - 48) * 10 ^ (leadingDigits val).length + leadingNumber val)
                  ((r.toNat - 48) * 10 ^ (leadingDigits val).length + leadingNumber ref)) := by
              rw [Ordering.then_assoc, cmp_positional hval href, cmp_digit_sub hv hr]
          _ = (outcome firstDiff).then
                (cmp (leadingNumber (v :: val)) (leadingNumber (r :: ref))) := by
              rw [leadingNumber, leadingNumber, leadingNumber, leadingNumber,
                leadingDigits_cons_of_pos hv, leadingDigits_cons_of_pos hr, decimalValue_cons,
                decimalValue_cons, hlength]
    · obtain ⟨hval, href⟩ := both_empty hempty hlength
      refine ⟨firstDiff, ?_, ?_⟩
      · rw [hloop, dropWhile_of_empty hval, dropWhile_of_empty href]
      · rw [leadingNumber, leadingNumber, hval, href, cmp_self_eq_eq, Ordering.then_eq]

theorem isdigit_deref_of_empty {val ref : List Byte}
    (hempty : leadingDigits val = [] ∨ leadingDigits ref = [])
    (hlength : (leadingDigits val).length ≠ (leadingDigits ref).length) :
    isdigit (deref val) = decide ((leadingDigits ref).length < (leadingDigits val).length) ∧
      isdigit (deref ref) = decide ((leadingDigits val).length < (leadingDigits ref).length) := by
  have hderef : ∀ s, isdigit (deref s) = decide (0 < (leadingDigits s).length) := by
    intro s
    rw [Bool.eq_iff_iff, decide_eq_true_iff, List.length_pos_iff, ne_eq, leadingDigits_eq_nil,
      Bool.not_eq_false]
  rw [hderef, hderef, decide_eq_decide, decide_eq_decide]
  rw [← List.length_eq_zero_iff, ← List.length_eq_zero_iff] at hempty
  omega

theorem digitLoop_of_length_ne {val ref : List Byte}
    (hlength : (leadingDigits val).length ≠ (leadingDigits ref).length) :
    isdigit (deref (digitLoop firstDiff val ref).2.1) =
        decide ((leadingDigits ref).length < (leadingDigits val).length) ∧
      isdigit (deref (digitLoop firstDiff val ref).2.2) =
        decide ((leadingDigits val).length < (leadingDigits ref).length) := by
  induction val generalizing firstDiff ref with
  | nil =>
    obtain ⟨v, val, r, ref, hnil, -⟩ | ⟨hempty, hloop⟩ := digitLoop_cases firstDiff [] ref
    · cases hnil
    · rw [hloop]
      exact isdigit_deref_of_empty hempty hlength
  | cons v val ih =>
    obtain ⟨v, val, r, ref, ⟨rfl, rfl⟩, rfl, hv, hr, hloop⟩ | ⟨hempty, hloop⟩ :=
      digitLoop_cases firstDiff (v :: val) ref
    · rw [leadingDigits_cons_of_pos hv, leadingDigits_cons_of_pos hr, List.length_cons,
        List.length_cons] at hlength ⊢
      have hrest := ih (if firstDiff = 0 then (v.toNat : Int) - r.toNat else firstDiff)
        (show (leadingDigits val).length ≠ (leadingDigits ref).length by omega)
      simpa only [hloop, Nat.add_lt_add_iff_right] using hrest
    · rw [hloop]
      exact isdigit_deref_of_empty hempty hlength

theorem isdigit_deref_dropWhile (s : List Byte) : isdigit
    (deref (s.dropWhile isdigit)) = false := by
  have hstop := List.head?_dropWhile_not isdigit s
  rw [deref, List.headD_eq_head?_getD]
  cases hhead : (s.dropWhile isdigit).head? with
  | none => rfl
  | some c => simpa [hhead] using hstop

theorem head?_dropWhile_zero (s : List Byte) : (s.dropWhile (· == ZERO)).head? ≠ some ZERO := by
  intro hhead
  have hstop := List.head?_dropWhile_not (· == ZERO) s
  rw [hhead] at hstop
  exact absurd hstop (by decide)

theorem digitTurn_decides {val ref : List Byte} (hval : val.head? ≠ some ZERO)
    (href : ref.head? ≠ some ZERO) :
    Decides (digitTurn val ref) (cmp (leadingNumber val) (leadingNumber ref))
      (val.dropWhile isdigit, ref.dropWhile isdigit) := by
  rcases lt_trichotomy (leadingDigits val).length (leadingDigits ref).length with hlt | heq | hgt
  · obtain ⟨hv, hr⟩ := digitLoop_of_length_ne 0 (Nat.ne_of_lt hlt)
    rw [(cmp_eq_lt_iff _ _).mpr (leadingNumber_lt_of_length_lt href hlt), digitTurn]
    simp only [hv, hr, hlt, Nat.lt_asymm hlt, decide_true, decide_false, if_pos, Bool.false_eq_true,
      if_false]
    exact ⟨rfl, by decide⟩
  · obtain ⟨firstDiff, hloop, houtcome⟩ := digitLoop_of_length_eq 0 heq
    have hv := isdigit_deref_dropWhile val
    have hr := isdigit_deref_dropWhile ref
    rw [outcome_eq.mpr rfl, Ordering.eq_then] at houtcome
    rw [digitTurn, hloop, ← houtcome]
    simp only [hv, hr, Bool.false_eq_true, if_false]
    by_cases hdiff : firstDiff = 0
    · rw [if_neg (not_not_intro hdiff)]
      exact ⟨outcome_eq.mpr hdiff, rfl⟩
    · rw [if_pos hdiff]
      exact ⟨rfl, mt outcome_eq.mp hdiff⟩
  · obtain ⟨hv, hr⟩ := digitLoop_of_length_ne 0 (Nat.ne_of_gt hgt)
    rw [(cmp_eq_gt_iff _ _).mpr (leadingNumber_lt_of_length_lt hval hgt), digitTurn]
    simp only [hv, hgt, decide_true, if_pos]
    exact ⟨rfl, by decide⟩

theorem numberTurn_decides (val ref : List Byte) :
    Decides (numberTurn val ref) (cmp (leadingNumber val) (leadingNumber ref))
      (val.dropWhile isdigit, ref.dropWhile isdigit) := by
  have hturn := digitTurn_decides (head?_dropWhile_zero val) (head?_dropWhile_zero ref)
  rwa [ZERO, leadingNumber_dropWhile_zero, leadingNumber_dropWhile_zero,
    dropWhile_digit_dropWhile_zero, dropWhile_digit_dropWhile_zero] at hturn

theorem cmp_versionKey (val ref : List Byte) :
    cmp (versionKey platform val) (versionKey platform ref) =
      ((cmp (seqLex (nonDigitOrders platform val)) (seqLex (nonDigitOrders platform ref))).then
        (cmp (leadingNumber (val.dropWhile isNonDigit))
          (leadingNumber (ref.dropWhile isNonDigit)))).then
        (cmp (versionKey platform (afterSegment val)) (versionKey platform (afterSegment ref))) := by
  rw [versionKey, versionKey, cmp_seq]
  change (cmp (toLex (_, _)) (toLex (_, _))).then _ = _
  rw [cmp_prod]
  rfl

theorem segments_of_end (hs : deref s = NUL) (k : ℕ) :
    segments platform s k = toLex (seqLex fun _ => 0, 0) := by
  have hnonDigit : isNonDigit (deref s) = false := by
    rw [hs]
    rfl
  have hdigit : leadingDigits s = [] := leadingDigits_eq_nil.mpr (by rw [hs]; rfl)
  induction k with
  | zero =>
    rw [segments, nonDigitOrders_eq_zero hnonDigit, dropWhile_nonDigit_of_neg hnonDigit,
      leadingNumber, hdigit]
    rfl
  | succ k ih =>
    rw [segments, afterSegment, dropWhile_nonDigit_of_neg hnonDigit, dropWhile_of_empty hdigit, ih]

theorem verrevcmpLoop_outcome (val ref : List Byte) :
    outcome (verrevcmpLoop platform val ref) =
      cmp (versionKey platform val) (versionKey platform ref) := by
  fun_induction verrevcmpLoop platform val ref with
  | case1 val ref hmore result hloop =>
    have hdecides := nonDigitLoop_decides platform val ref
    rw [hloop] at hdecides
    obtain ⟨houtcome, hne⟩ := hdecides
    rw [cmp_versionKey, then_of_ne_eq hne, then_of_ne_eq hne, houtcome]
  | case2 val ref hmore v r hloop result hturn =>
    have hdecides := nonDigitLoop_decides platform val ref
    rw [hloop] at hdecides
    obtain ⟨heq, hpointers⟩ := hdecides
    cases hpointers
    have hnumber := numberTurn_decides (val.dropWhile isNonDigit) (ref.dropWhile isNonDigit)
    rw [hturn] at hnumber
    obtain ⟨houtcome, hne⟩ := hnumber
    rw [cmp_versionKey, heq, Ordering.eq_then, then_of_ne_eq hne, houtcome]
  | case3 val ref hmore v r hloop v' r' hturn ih =>
    have hdecides := nonDigitLoop_decides platform val ref
    rw [hloop] at hdecides
    obtain ⟨heq, hpointers⟩ := hdecides
    cases hpointers
    have hnumber := numberTurn_decides (val.dropWhile isNonDigit) (ref.dropWhile isNonDigit)
    rw [hturn] at hnumber
    obtain ⟨hsame, hpointers⟩ := hnumber
    cases hpointers
    rw [cmp_versionKey, heq, Ordering.eq_then, hsame, Ordering.eq_then]
    exact ih
  | case4 val ref hend =>
    obtain ⟨hval, href⟩ : deref val = NUL ∧ deref ref = NUL := by
      simpa only [not_or, not_not] using hend
    have hkeys : versionKey platform val = versionKey platform ref := by
      apply congrArg seqLex
      funext k
      rw [segments_of_end hval, segments_of_end href]
    rw [hkeys, cmp_self_eq_eq, outcome_eq]

variable (platform)

def stringKey (s : Option (List Byte)) : SeqLex (SeqLex Int ×ₗ ℕ) := versionKey platform (s.getD [])

def pkgKey (pkg : PkgVersion) : ℕ ×ₗ SeqLex (SeqLex Int ×ₗ ℕ) ×ₗ SeqLex (SeqLex Int ×ₗ ℕ) :=
  toLex (pkg.epoch, toLex (stringKey platform pkg.version, stringKey platform pkg.revision))

theorem verrevcmp_comparesBy : ComparesBy (verrevcmp platform) (stringKey platform) :=
  fun val ref => verrevcmpLoop_outcome (val.getD []) (ref.getD [])

theorem pkgCompareVersions_comparesBy :
    ComparesBy (pkgCompareVersions platform) (pkgKey platform) := by
  intro pkg ref
  have hversion := verrevcmp_comparesBy platform pkg.version ref.version
  have hrevision := verrevcmp_comparesBy platform pkg.revision ref.revision
  rw [pkgKey, pkgKey, cmp_prod, cmp_prod, ← hversion, ← hrevision, pkgCompareVersions]
  rcases lt_trichotomy pkg.epoch ref.epoch with hlt | heq | hgt
  · rw [(cmp_eq_lt_iff _ _).mpr hlt, if_neg (Nat.lt_asymm hlt), if_pos hlt]
    rfl
  · rw [(cmp_eq_eq_iff _ _).mpr heq, Ordering.eq_then, if_neg (by omega), if_neg (by omega)]
    by_cases hzero : verrevcmp platform pkg.version ref.version = 0
    · rw [outcome_eq.mpr hzero, Ordering.eq_then]
      simp only [hzero, ne_eq, not_true_eq_false, if_false]
    · rw [then_of_ne_eq (mt outcome_eq.mp hzero)]
      simp only [hzero, ne_eq, not_false_eq_true, if_true]
  · rw [(cmp_eq_gt_iff _ _).mpr hgt, if_pos hgt]
    rfl

/-- The comparison of packages is a total preorder, and that of strings is the lexicographic
comparison of their segments. -/
theorem versions_ordered :
    (∀ a b : PkgVersion, a.epoch = b.epoch → a.version = b.version → a.revision = b.revision →
      pkgCompareVersions platform a b = 0) ∧
    (∀ a b, (pkgCompareVersions platform a b).sign = -(pkgCompareVersions platform b a).sign) ∧
    (∀ a b c, pkgCompareVersions platform a b ≤ 0 → pkgCompareVersions platform b c ≤ 0 →
      pkgCompareVersions platform a c ≤ 0 ∧
      (pkgCompareVersions platform a b < 0 ∨ pkgCompareVersions platform b c < 0 →
        pkgCompareVersions platform a c < 0)) ∧
    (∀ val ref, outcome (verrevcmp platform val ref) =
      cmp (stringKey platform val) (stringKey platform ref)) := by
  have hpkg := pkgCompareVersions_comparesBy platform
  refine ⟨?_, hpkg.swap, ?_, verrevcmp_comparesBy platform⟩
  · rintro ⟨epoch, version, revision⟩ ⟨_, _, _⟩ rfl rfl rfl
    exact hpkg.self _
  · intro a b c hab hbc
    refine ⟨hpkg.trans hab hbc, ?_⟩
    rintro (hlt | hlt)
    · exact hpkg.trans_lt_left hlt hbc
    · exact hpkg.trans_lt_right hab hlt

end Openmoko.Opkg
