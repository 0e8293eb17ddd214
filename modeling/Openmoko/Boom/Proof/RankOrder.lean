import Mathlib
import Openmoko.Boom.Part2order

/-!
# The order of sources

Own stock is known by its price, which Perl takes for false, and comes first as long as some of it is
available. Then come the parts of which more is available, and among these the cheaper ones.
-/

namespace Openmoko.Boom

structure Worth {P : Type} (arith : Arith P) (κ : Type) [LinearOrder κ] where
  worth : P → κ
  compares : ∀ p q, Openmoko.outcome (arith.cmp p q) = cmp (worth p) (worth q)
  of_falsy : ∀ p, arith.truthy p = false → worth p = worth arith.zero
  nonneg : ∀ p, worth arith.zero ≤ worth p

section Rank

variable {P κ : Type} [LinearOrder κ] {arith : Arith P} {mult : Nat}
  {inv : Id → Option (Inventory P)} {want : Id → Int}

theorem number_nonneg (hwant : ∀ id, 0 ≤ want id)
    (hstock : ∀ id inventory, inv id = some inventory → 0 ≤ inventory.stock) (id : Id) :
    0 ≤ number mult inv want id := by
  have hs : 0 ≤ stockOf inv id := by
    rw [stockOf]
    cases hinv : inv id with
    | none => exact le_refl 0
    | some inventory => exact hstock id inventory hinv
  have hn : 0 ≤ want id * mult := mul_nonneg (hwant id) (Int.natCast_nonneg mult)
  rw [number]
  split
  · exact hn
  · exact hs

variable (arith mult inv want) in
def isOwn (id : Id) : Bool :=
  number mult inv want id != 0 && !arith.truthy (firstPrice arith inv id)

theorem isOwn_iff {id : Id} : isOwn arith mult inv want id = true ↔
    number mult inv want id ≠ 0 ∧ arith.truthy (firstPrice arith inv id) = false := by
  rw [isOwn, Bool.and_eq_true, bne_iff_ne, Bool.not_eq_true']

variable (value : Worth arith κ)

variable (mult inv want) in
def rankKey (id : Id) : Bool ×ₗ Int ×ₗ κᵒᵈ :=
  toLex (isOwn arith mult inv want id, toLex (number mult inv want id,
    OrderDual.toDual (value.worth (firstPrice arith inv id))))

theorem cmp_rankKey (a b : Id) :
    cmp (rankKey mult inv want value a) (rankKey mult inv want value b) =
      (cmp (isOwn arith mult inv want a) (isOwn arith mult inv want b)).then
        ((cmp (number mult inv want a) (number mult inv want b)).then
          (cmp (value.worth (firstPrice arith inv b)) (value.worth (firstPrice arith inv a)))) := by
  rw [rankKey, rankKey, cmp_prod, cmp_prod, cmp_toDual]

theorem number_lt_of_isOwn (hnonneg : ∀ id, 0 ≤ number mult inv want id) {a b : Id}
    (hrule : ¬ (number mult inv want a ≠ 0 ∧ !arith.truthy (firstPrice arith inv a) ∧
      arith.truthy (firstPrice arith inv b)))
    (ha : isOwn arith mult inv want a = true) (hb : isOwn arith mult inv want b = false) :
    number mult inv want b < number mult inv want a := by
  obtain ⟨hne, hfalse⟩ := isOwn_iff.mp ha
  have htruthy : arith.truthy (firstPrice arith inv b) = false := by
    by_contra htrue
    exact hrule ⟨hne, by rw [hfalse]; rfl, Bool.not_eq_false _ ▸ htrue⟩
  have hzero : number mult inv want b = 0 := by
    by_contra hneB
    rw [isOwn_iff.mpr ⟨hneB, htruthy⟩] at hb
    cases hb
  have hpos := hnonneg a
  omega

theorem outcome_number_price (a b : Id) :
    Openmoko.outcome (if number mult inv want a ≠ number mult inv want b then
        number mult inv want a - number mult inv want b
      else arith.cmp (firstPrice arith inv b) (firstPrice arith inv a)) =
      (cmp (number mult inv want a) (number mult inv want b)).then
        (cmp (value.worth (firstPrice arith inv b)) (value.worth (firstPrice arith inv a))) := by
  by_cases heq : number mult inv want a = number mult inv want b
  · rw [if_neg (not_not.mpr heq), heq, cmp_self_eq_eq, Ordering.eq_then, value.compares]
  · rw [if_pos heq, outcome_sub, then_of_ne_eq (mt (cmp_eq_eq_iff _ _).mp heq)]

/-- **The comparison is that of the keys.** -/
theorem comparesBy_rank (hnonneg : ∀ id, 0 ≤ number mult inv want id) :
    ComparesBy (rank arith mult inv want) (rankKey mult inv want value) := by
  intro a b
  rw [cmp_rankKey, rank]
  split
  case isTrue hrule =>
    have ha : isOwn arith mult inv want a = true :=
      isOwn_iff.mpr ⟨hrule.1, by simpa using hrule.2.1⟩
    have hb : isOwn arith mult inv want b = false := by simp [isOwn, hrule.2.2]
    rw [ha, hb]
    rfl
  case isFalse hrule =>
    split
    case isTrue hrule' =>
      have hb : isOwn arith mult inv want b = true :=
        isOwn_iff.mpr ⟨hrule'.1, by simpa using hrule'.2.2⟩
      have ha : isOwn arith mult inv want a = false := by simp [isOwn, hrule'.2.1]
      rw [ha, hb]
      rfl
    case isFalse hrule' =>
      rw [outcome_number_price value]
      cases ha : isOwn arith mult inv want a with
      | false =>
        cases hb : isOwn arith mult inv want b with
        | false => rfl
        | true =>
          have hlt := number_lt_of_isOwn hnonneg
            (fun h => hrule' ⟨h.1, h.2.2, h.2.1⟩) hb ha
          rw [(cmp_eq_lt_iff _ _).mpr hlt]
          rfl
      | true =>
        cases hb : isOwn arith mult inv want b with
        | false =>
          have hlt := number_lt_of_isOwn hnonneg hrule ha hb
          rw [(cmp_eq_gt_iff _ _).mpr hlt]
          rfl
        | true => rfl

variable (mult inv want) in
/-- The comparison is a total preorder, and puts own stock of which some is available before all that
has a price. -/
structure RankOrdered : Prop where
  swap : ∀ a b, (rank arith mult inv want a b).sign = -(rank arith mult inv want b a).sign
  trans : ∀ a b c, rank arith mult inv want a b ≤ 0 → rank arith mult inv want b c ≤ 0 →
    rank arith mult inv want a c ≤ 0
  ownFirst : ∀ a b, number mult inv want a ≠ 0 →
    value.worth (firstPrice arith inv a) = value.worth arith.zero →
    value.worth (firstPrice arith inv b) ≠ value.worth arith.zero →
    0 < rank arith mult inv want a b

variable (mult inv want) in
/-- Where the price of own stock is worth nothing and yet true, there is at most as much of any part
that has a price. -/
def FreeIsFalsy : Prop :=
  ∀ a b, number mult inv want a ≠ 0 →
    value.worth (firstPrice arith inv a) = value.worth arith.zero →
    arith.truthy (firstPrice arith inv a) = true →
    value.worth (firstPrice arith inv b) ≠ value.worth arith.zero →
    number mult inv want b ≤ number mult inv want a

theorem isOwn_of_priced {b : Id}
    (hprice : value.worth (firstPrice arith inv b) ≠ value.worth arith.zero) :
    isOwn arith mult inv want b = false := by
  have htruthy : arith.truthy (firstPrice arith inv b) = true := by
    by_contra hfalse
    exact hprice (value.of_falsy _ (Bool.eq_false_of_not_eq_true hfalse))
  simp [isOwn, htruthy]

/-- **Sources are totally preordered, and own stock comes first if its price is false.** -/
theorem rankOrdered_iff (hwant : ∀ id, 0 ≤ want id)
    (hstock : ∀ id inventory, inv id = some inventory → 0 ≤ inventory.stock) :
    RankOrdered mult inv want value ↔ FreeIsFalsy mult inv want value := by
  have hrank : ComparesBy (rank arith mult inv want) (rankKey mult inv want value) :=
    comparesBy_rank value (number_nonneg hwant hstock)
  have hpriced : ∀ {a b}, isOwn arith mult inv want a = false →
      value.worth (firstPrice arith inv a) = value.worth arith.zero →
      value.worth (firstPrice arith inv b) ≠ value.worth arith.zero →
      (0 < rank arith mult inv want a b ↔
        number mult inv want b ≤ number mult inv want a) := by
    intro a b ha hzero hprice
    rw [← outcome_gt, hrank, cmp_rankKey, ha, isOwn_of_priced value hprice, cmp_self_eq_eq,
      Ordering.eq_then]
    rcases lt_trichotomy (number mult inv want a) (number mult inv want b) with hlt | heq | hgt
    · rw [(cmp_eq_lt_iff _ _).mpr hlt]
      exact iff_of_false nofun hlt.not_ge
    · rw [heq, cmp_self_eq_eq, Ordering.eq_then, cmp_eq_gt_iff, hzero]
      exact iff_of_true (lt_of_le_of_ne (value.nonneg _) hprice.symm) (le_refl _)
    · rw [(cmp_eq_gt_iff _ _).mpr hgt]
      exact iff_of_true rfl hgt.le
  constructor
  · intro h a b hne hzero htruthy hprice
    have ha : isOwn arith mult inv want a = false := by simp [isOwn, htruthy]
    exact (hpriced ha hzero hprice).mp (h.ownFirst a b hne hzero hprice)
  · refine fun h => ⟨hrank.swap, fun a b c => hrank.trans, fun a b hne hzero hprice => ?_⟩
    cases htruthy : arith.truthy (firstPrice arith inv a) with
    | true =>
      have ha : isOwn arith mult inv want a = false := by simp [isOwn, htruthy]
      exact (hpriced ha hzero hprice).mpr (h a b hne hzero htruthy hprice)
    | false =>
      have ha : isOwn arith mult inv want a = true := isOwn_iff.mpr ⟨hne, htruthy⟩
      rw [← outcome_gt, hrank, cmp_rankKey, ha, isOwn_of_priced value hprice]
      rfl

end Rank

structure Written where
  hundredths : ℕ
  truthy : Bool
  of_falsy : truthy = false → hundredths = 0

def Written.ofNat (n : ℕ) : Written := ⟨n, n != 0, by simp⟩

def writtenPrices : Arith Written where
  zero := Written.ofNat 0
  add p q := Written.ofNat (p.hundredths + q.hundredths)
  times p n := Written.ofNat (p.hundredths * n.toNat)
  lt p q := p.hundredths < q.hundredths
  cmp p q := (p.hundredths : Int) - q.hundredths
  truthy := Written.truthy

def writtenWorth : Worth writtenPrices ℕ where
  worth := Written.hundredths
  compares p q := by
    rw [writtenPrices, outcome_sub]
    exact (Nat.strictMono_cast (α := Int)).cmp_map_eq _ _
  of_falsy p h := p.of_falsy h
  nonneg p := Nat.zero_le _

def ownAndShop (free : Written) (id : Id) : Option (Inventory Written) :=
  if id = ascii "OWN 1" then some ⟨1, ascii "EUR", [⟨1, free, by decide⟩]⟩
  else if id = ascii "SHOP 1" then some ⟨5, ascii "EUR", [⟨1, Written.ofNat 120, by decide⟩]⟩
  else none

theorem stock_ownAndShop (free : Written) :
    ∀ id inventory, ownAndShop free id = some inventory → 0 ≤ inventory.stock := by
  intro id inventory hinv
  rw [ownAndShop] at hinv
  split at hinv
  · obtain rfl := Option.some.inj hinv
    exact Int.one_nonneg
  · split at hinv
    · obtain rfl := Option.some.inj hinv
      exact Int.natCast_nonneg 5
    · cases hinv

theorem firstPrice_ownAndShop (free : Written) (id : Id) :
    firstPrice writtenPrices (ownAndShop free) id =
      if id = ascii "OWN 1" then free
      else if id = ascii "SHOP 1" then Written.ofNat 120
      else Written.ofNat 0 := by
  rw [firstPrice, ownAndShop]
  split_ifs <;> rfl

theorem rankOrdered_ownAndShop :
    RankOrdered 1 (ownAndShop (Written.ofNat 0)) (fun _ => 5) writtenWorth := by
  refine (rankOrdered_iff writtenWorth (fun _ => by decide) (stock_ownAndShop _)).mpr ?_
  intro a b _ hzero htruthy
  rw [firstPrice_ownAndShop] at hzero htruthy
  split_ifs at hzero htruthy with hown hshop
  · cases htruthy
  · cases hzero
  · cases htruthy

/-- The own one has the price 0.00, which is true. -/
theorem not_rankOrdered_ownAndShop :
    ¬ ∀ (inv : Id → Option (Inventory Written)) (want : Id → Int), (∀ id, 0 ≤ want id) →
      (∀ id inventory, inv id = some inventory → 0 ≤ inventory.stock) →
      RankOrdered 1 inv want writtenWorth := by
  intro h
  have hordered := h (ownAndShop ⟨0, true, nofun⟩) (fun _ => 5) (fun _ => by decide)
    (stock_ownAndShop _)
  have hfirst := hordered.ownFirst (ascii "OWN 1") (ascii "SHOP 1") (by decide) (by decide)
    (by decide)
  exact absurd hfirst (by decide)

end Openmoko.Boom
