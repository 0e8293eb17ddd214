import Mathlib.Topology.Algebra.Order.Field
import Mathlib.Topology.Instances.Real.Lemmas
import Mathlib.Tactic.FieldSimp
import Mathlib.Tactic.Linarith

/-!
# Discs and boxes in the plane

When closed discs and boxes have a point in common, and open ones, in terms of the distance of the
centres and of the gap between a centre and a box.
-/

namespace Openmoko

def disc (c : ℝ × ℝ) (r : ℝ) : Set (ℝ × ℝ) := {p | (p.1 - c.1) ^ 2 + (p.2 - c.2) ^ 2 ≤ r ^ 2}

def openDisc (c : ℝ × ℝ) (r : ℝ) : Set (ℝ × ℝ) := {p | (p.1 - c.1) ^ 2 + (p.2 - c.2) ^ 2 < r ^ 2}

variable (lo hi : ℝ × ℝ)

def box : Set (ℝ × ℝ) := Set.Icc lo.1 hi.1 ×ˢ Set.Icc lo.2 hi.2

def openBox : Set (ℝ × ℝ) := Set.Ioo lo.1 hi.1 ×ˢ Set.Ioo lo.2 hi.2

def gap (lo hi x : ℝ) : ℝ := max (lo - x) (max 0 (x - hi))

variable {r : ℝ}

theorem mem_disc {c p : ℝ × ℝ} : p ∈ disc c r ↔ (p.1 - c.1) ^ 2 + (p.2 - c.2) ^ 2 ≤ r ^ 2 := Iff.rfl

theorem mem_openDisc {c p : ℝ × ℝ} :
    p ∈ openDisc c r ↔ (p.1 - c.1) ^ 2 + (p.2 - c.2) ^ 2 < r ^ 2 := Iff.rfl

theorem openDisc_subset (c : ℝ × ℝ) (r : ℝ) : openDisc c r ⊆ disc c r :=
  fun _ hp => mem_disc.mpr (mem_openDisc.mp hp).le

theorem openBox_subset : openBox lo hi ⊆ box lo hi :=
  Set.prod_mono Set.Ioo_subset_Icc_self Set.Ioo_subset_Icc_self

theorem isOpen_openDisc (c : ℝ × ℝ) (r : ℝ) : IsOpen (openDisc c r) :=
  isOpen_lt (by fun_prop) continuous_const

theorem isOpen_openBox : IsOpen (openBox lo hi) := isOpen_Ioo.prod isOpen_Ioo

theorem box_mono {lo hi lo' hi' : ℝ × ℝ} (hlo : lo'.1 ≤ lo.1 ∧ lo'.2 ≤ lo.2)
    (hhi : hi.1 ≤ hi'.1 ∧ hi.2 ≤ hi'.2) : box lo hi ⊆ box lo' hi' :=
  Set.prod_mono (Set.Icc_subset_Icc hlo.1 hhi.1) (Set.Icc_subset_Icc hlo.2 hhi.2)

theorem disc_subset_box {c : ℝ × ℝ} (hr : 0 ≤ r) :
    disc c r ⊆ box (c.1 - r, c.2 - r) (c.1 + r, c.2 + r) := by
  intro p hp
  have hx := abs_le_of_sq_le_sq' ((le_add_of_nonneg_right (sq_nonneg _)).trans hp) hr
  have hy := abs_le_of_sq_le_sq' ((le_add_of_nonneg_left (sq_nonneg _)).trans hp) hr
  exact ⟨⟨by linarith [hx.1], by linarith [hx.2]⟩, by linarith [hy.1], by linarith [hy.2]⟩

theorem sq_dist_le {c₁ c₂ p : ℝ × ℝ} {r₁ r₂ : ℝ} (h₁ : 0 ≤ r₁) (h₂ : 0 ≤ r₂) (hp₁ : p ∈ disc c₁ r₁)
    (hp₂ : p ∈ disc c₂ r₂) : (c₁.1 - c₂.1) ^ 2 + (c₁.2 - c₂.2) ^ 2 ≤ (r₁ + r₂) ^ 2 := by
  obtain ⟨x, y⟩ := p
  obtain ⟨x₁, y₁⟩ := c₁
  obtain ⟨x₂, y₂⟩ := c₂
  change (x - x₁) ^ 2 + (y - y₁) ^ 2 ≤ r₁ ^ 2 at hp₁
  change (x - x₂) ^ 2 + (y - y₂) ^ 2 ≤ r₂ ^ 2 at hp₂
  change (x₁ - x₂) ^ 2 + (y₁ - y₂) ^ 2 ≤ (r₁ + r₂) ^ 2
  have hcauchy : ((x - x₁) * (x - x₂) + (y - y₁) * (y - y₂)) ^ 2 ≤ (r₁ * r₂) ^ 2 := by
    calc ((x - x₁) * (x - x₂) + (y - y₁) * (y - y₂)) ^ 2
        ≤ ((x - x₁) ^ 2 + (y - y₁) ^ 2) * ((x - x₂) ^ 2 + (y - y₂) ^ 2) := by
          linarith [sq_nonneg ((x - x₁) * (y - y₂) - (y - y₁) * (x - x₂))]
      _ ≤ r₁ ^ 2 * r₂ ^ 2 := mul_le_mul hp₁ hp₂ (by positivity) (by positivity)
      _ = (r₁ * r₂) ^ 2 := (mul_pow r₁ r₂ 2).symm
  have hprod := neg_le_of_abs_le (abs_le_of_sq_le_sq hcauchy (mul_nonneg h₁ h₂))
  linarith

theorem exists_dividing (c₁ c₂ : ℝ × ℝ) {r₁ r₂ : ℝ} (hr : 0 < r₁ + r₂) : ∃ p : ℝ × ℝ,
    (p.1 - c₁.1) ^ 2 + (p.2 - c₁.2) ^ 2 =
      ((c₁.1 - c₂.1) ^ 2 + (c₁.2 - c₂.2) ^ 2) / (r₁ + r₂) ^ 2 * r₁ ^ 2 ∧
    (p.1 - c₂.1) ^ 2 + (p.2 - c₂.2) ^ 2 =
      ((c₁.1 - c₂.1) ^ 2 + (c₁.2 - c₂.2) ^ 2) / (r₁ + r₂) ^ 2 * r₂ ^ 2 := by
  have hne := hr.ne'
  refine ⟨(c₁.1 + r₁ / (r₁ + r₂) * (c₂.1 - c₁.1), c₁.2 + r₁ / (r₁ + r₂) * (c₂.2 - c₁.2)), ?_, ?_⟩
  · dsimp only
    field_simp
    ring
  · dsimp only
    field_simp
    ring

theorem disc_inter_disc {c₁ c₂ : ℝ × ℝ} {r₁ r₂ : ℝ} (h₁ : 0 ≤ r₁) (h₂ : 0 ≤ r₂) :
    (disc c₁ r₁ ∩ disc c₂ r₂).Nonempty ↔
      (c₁.1 - c₂.1) ^ 2 + (c₁.2 - c₂.2) ^ 2 ≤ (r₁ + r₂) ^ 2 := by
  refine ⟨fun ⟨p, hp₁, hp₂⟩ => sq_dist_le h₁ h₂ hp₁ hp₂, fun h => ?_⟩
  rcases (add_nonneg h₁ h₂).eq_or_lt with hzero | hr
  · -- two points
    have hx : c₁.1 - c₂.1 = 0 := by nlinarith [sq_nonneg (c₁.1 - c₂.1), sq_nonneg (c₁.2 - c₂.2)]
    have hy : c₁.2 - c₂.2 = 0 := by nlinarith [sq_nonneg (c₁.1 - c₂.1), sq_nonneg (c₁.2 - c₂.2)]
    refine ⟨c₁, mem_disc.mpr ?_, mem_disc.mpr ?_⟩
    · rw [sub_self, sub_self]
      nlinarith [sq_nonneg r₁]
    · rw [hx, hy]
      nlinarith [sq_nonneg r₂]
  · obtain ⟨p, hp₁, hp₂⟩ := exists_dividing c₁ c₂ hr
    have hratio := div_le_one_of_le₀ h (sq_nonneg (r₁ + r₂))
    exact ⟨p, hp₁.trans_le (mul_le_of_le_one_left (sq_nonneg r₁) hratio),
      hp₂.trans_le (mul_le_of_le_one_left (sq_nonneg r₂) hratio)⟩

theorem openDisc_inter_openDisc {c₁ c₂ : ℝ × ℝ} {r₁ r₂ : ℝ} (h₁ : 0 < r₁) (h₂ : 0 < r₂)
    (h : (c₁.1 - c₂.1) ^ 2 + (c₁.2 - c₂.2) ^ 2 < (r₁ + r₂) ^ 2) :
    (openDisc c₁ r₁ ∩ openDisc c₂ r₂).Nonempty := by
  obtain ⟨p, hp₁, hp₂⟩ := exists_dividing c₁ c₂ (add_pos h₁ h₂)
  have hratio := (div_lt_one (pow_pos (add_pos h₁ h₂) 2)).mpr h
  exact ⟨p, hp₁.trans_lt (mul_lt_of_lt_one_left (pow_pos h₁ 2) hratio),
    hp₂.trans_lt (mul_lt_of_lt_one_left (pow_pos h₂ 2) hratio)⟩

theorem gap_nonneg (lo hi x : ℝ) : 0 ≤ gap lo hi x := le_max_of_le_right (le_max_left 0 (x - hi))

theorem sq_gap_le {lo hi x y : ℝ} (hlo : lo ≤ y) (hhi : y ≤ hi) : gap lo hi x ^ 2 ≤
    (y - x) ^ 2 := by
  have hgap : gap lo hi x ≤ |y - x| := by
    refine max_le ?_ (max_le (abs_nonneg _) ?_)
    · exact (sub_le_sub_right hlo x).trans (le_abs_self _)
    · exact (sub_le_sub_left hhi x).trans (abs_sub_comm x y ▸ le_abs_self (x - y))
  rw [← sq_abs (y - x)]
  exact pow_le_pow_left₀ (gap_nonneg lo hi x) hgap 2

theorem exists_gap {lo hi : ℝ} (h : lo ≤ hi) (x : ℝ) :
    ∃ y, lo ≤ y ∧ y ≤ hi ∧ (y - x) ^ 2 = gap lo hi x ^ 2 := by
  rcases le_total x lo with hx | hx
  · refine ⟨lo, le_rfl, h, ?_⟩
    rw [gap, max_eq_left]
    exact max_le (sub_nonneg.mpr hx) (by linarith)
  · rcases le_total x hi with hx' | hx'
    · refine ⟨x, hx, hx', ?_⟩
      rw [gap, max_eq_left (sub_nonpos.mpr hx'), max_eq_right (sub_nonpos.mpr hx), sub_self]
    · refine ⟨hi, h, le_rfl, ?_⟩
      rw [gap, max_eq_right (sub_nonneg.mpr hx'), max_eq_right (by linarith)]
      ring

theorem disc_inter_box {c lo hi : ℝ × ℝ} (hx : lo.1 ≤ hi.1) (hy : lo.2 ≤ hi.2) :
    (disc c r ∩ box lo hi).Nonempty ↔ gap lo.1 hi.1 c.1 ^ 2 + gap lo.2 hi.2 c.2 ^ 2 ≤ r ^ 2 := by
  constructor
  · rintro ⟨p, hp, hpx, hpy⟩
    exact (add_le_add (sq_gap_le hpx.1 hpx.2) (sq_gap_le hpy.1 hpy.2)).trans hp
  · intro h
    obtain ⟨x, hxlo, hxhi, hxgap⟩ := exists_gap hx c.1
    obtain ⟨y, hylo, hyhi, hygap⟩ := exists_gap hy c.2
    refine ⟨(x, y), ?_, ⟨hxlo, hxhi⟩, hylo, hyhi⟩
    change (x - c.1) ^ 2 + (y - c.2) ^ 2 ≤ r ^ 2
    rwa [hxgap, hygap]

theorem openDisc_inter_openBox {c lo hi : ℝ × ℝ} (hx : lo.1 < hi.1) (hy : lo.2 < hi.2)
    (h : gap lo.1 hi.1 c.1 ^ 2 + gap lo.2 hi.2 c.2 ^ 2 < r ^ 2) :
    (openDisc c r ∩ openBox lo hi).Nonempty := by
  obtain ⟨x, hxlo, hxhi, hxgap⟩ := exists_gap hx.le c.1
  obtain ⟨y, hylo, hyhi, hygap⟩ := exists_gap hy.le c.2
  have hmem : (x, y) ∈ closure (openBox lo hi) := by
    rw [openBox, closure_prod_eq, closure_Ioo hx.ne, closure_Ioo hy.ne]
    exact ⟨⟨hxlo, hxhi⟩, hylo, hyhi⟩
  refine mem_closure_iff.mp hmem _ (isOpen_openDisc c r) ?_
  change (x - c.1) ^ 2 + (y - c.2) ^ 2 < r ^ 2
  rwa [hxgap, hygap]

theorem box_inter_box {lo₁ hi₁ lo₂ hi₂ : ℝ × ℝ} (hx₁ : lo₁.1 ≤ hi₁.1) (hy₁ : lo₁.2 ≤ hi₁.2)
    (hx₂ : lo₂.1 ≤ hi₂.1) (hy₂ : lo₂.2 ≤ hi₂.2) : (box lo₁ hi₁ ∩ box lo₂ hi₂).Nonempty ↔
      (lo₂.1 ≤ hi₁.1 ∧ lo₁.1 ≤ hi₂.1) ∧ lo₂.2 ≤ hi₁.2 ∧ lo₁.2 ≤ hi₂.2 := by
  constructor
  · rintro ⟨p, ⟨hpx₁, hpy₁⟩, hpx₂, hpy₂⟩
    exact ⟨⟨hpx₂.1.trans hpx₁.2, hpx₁.1.trans hpx₂.2⟩, hpy₂.1.trans hpy₁.2, hpy₁.1.trans hpy₂.2⟩
  · rintro ⟨⟨hx, hx'⟩, hy, hy'⟩
    refine ⟨(max lo₁.1 lo₂.1, max lo₁.2 lo₂.2), ⟨⟨le_max_left _ _, max_le hx₁ hx⟩,
      le_max_left _ _, max_le hy₁ hy⟩, ⟨le_max_right _ _, max_le hx' hx₂⟩,
      le_max_right _ _, max_le hy' hy₂⟩

theorem exists_mem_both {a b a' b' : ℝ} (h : a < b) (h' : a' < b') (hab : a < b') (hba : a' < b) :
    ∃ x, x ∈ Set.Ioo a b ∧ x ∈ Set.Ioo a' b' := by
  obtain ⟨x, hlo, hhi⟩ := exists_between (max_lt (lt_min h hab) (lt_min hba h'))
  rw [max_lt_iff] at hlo
  rw [lt_min_iff] at hhi
  exact ⟨x, ⟨hlo.1, hhi.1⟩, hlo.2, hhi.2⟩

theorem openBox_inter_openBox {lo₁ hi₁ lo₂ hi₂ : ℝ × ℝ} (hx₁ : lo₁.1 < hi₁.1) (hy₁ : lo₁.2 < hi₁.2)
    (hx₂ : lo₂.1 < hi₂.1) (hy₂ : lo₂.2 < hi₂.2) (hx : lo₂.1 < hi₁.1 ∧ lo₁.1 < hi₂.1)
    (hy : lo₂.2 < hi₁.2 ∧ lo₁.2 < hi₂.2) : (openBox lo₁ hi₁ ∩ openBox lo₂ hi₂).Nonempty := by
  obtain ⟨x, hx₁, hx₂⟩ := exists_mem_both hx₁ hx₂ hx.2 hx.1
  obtain ⟨y, hy₁, hy₂⟩ := exists_mem_both hy₁ hy₂ hy.2 hy.1
  exact ⟨(x, y), ⟨hx₁, hy₁⟩, hx₂, hy₂⟩

end Openmoko
