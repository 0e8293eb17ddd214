import Openmoko.Fped.Overlap
import Openmoko.Library.Plane

/-!
# When the test for overlaps is exact

A rectangle grown by a radius also has the corners that the circle does not reach, and a distance
that is truncated may seem short enough. Where shapes are apart, the answer is wrong exactly if some
pair of their parts is such a near miss.
-/

namespace Openmoko.Fped.Overlap

/-! ### The shapes -/

def Coord.toPlane (c : Coord) : ℝ × ℝ := (c.x, c.y)

namespace Shape

def region : Shape → Set (ℝ × ℝ)
  | circle center r => disc center.toPlane r
  | rect min max => box min.toPlane max.toPlane

def inner : Shape → Set (ℝ × ℝ)
  | circle center r => openDisc center.toPlane r
  | rect min max => openBox min.toPlane max.toPlane

def Valid : Shape → Prop
  | circle _ r => 0 ≤ r
  | rect min max => min.x ≤ max.x ∧ min.y ≤ max.y

theorem inner_subset (s : Shape) : s.inner ⊆ s.region := by
  cases s with
  | circle center r => exact openDisc_subset _ _
  | rect min max => exact openBox_subset _ _

theorem isOpen_inner (s : Shape) : IsOpen s.inner := by
  cases s with
  | circle center r => exact isOpen_openDisc _ _
  | rect min max => exact isOpen_openBox _ _

end Shape

namespace Inst

def lo (a : Inst) : Coord := (sortCoord a.base a.other).1

def hi (a : Inst) : Coord := (sortCoord a.base a.other).2

def w (a : Inst) : ℤ := a.hi.x - a.lo.x

def h (a : Inst) : ℤ := a.hi.y - a.lo.y

def region (a : Inst) : Set (ℝ × ℝ) :=
  let lo := a.lo.toPlane
  let hi := a.hi.toPlane
  let w := hi.1 - lo.1
  let h := hi.2 - lo.2
  if a.rounded = false then box lo hi
  else if h > w then
    disc (lo.1 + w / 2, hi.2 - w / 2) (w / 2) ∪
      box (lo.1, lo.2 + w / 2) (hi.1, hi.2 - w / 2) ∪
      disc (lo.1 + w / 2, lo.2 + w / 2) (w / 2)
  else
    disc (lo.1 + h / 2, lo.2 + h / 2) (h / 2) ∪
      box (lo.1 + h / 2, lo.2) (hi.1 - h / 2, hi.2) ∪
      disc (hi.1 - h / 2, lo.2 + h / 2) (h / 2)

structure EvenSize (a : Inst) : Prop where
  width : 2 ∣ a.w
  height : 2 ∣ a.h

def parts (a : Inst) : List Shape :=
  if a.rounded = false then [.rect a.lo a.hi]
  else if a.h > a.w then
    [.circle ⟨a.lo.x + a.w / 2, a.hi.y - a.w / 2⟩ (a.w / 2),
      .rect ⟨a.lo.x, a.lo.y + a.w / 2⟩ ⟨a.hi.x, a.hi.y - a.w / 2⟩,
      .circle ⟨a.lo.x + a.w / 2, a.lo.y + a.w / 2⟩ (a.w / 2)]
  else
    [.circle ⟨a.lo.x + a.h / 2, a.lo.y + a.h / 2⟩ (a.h / 2),
      .rect ⟨a.lo.x + a.h / 2, a.lo.y⟩ ⟨a.hi.x - a.h / 2, a.hi.y⟩,
      .circle ⟨a.hi.x - a.h / 2, a.lo.y + a.h / 2⟩ (a.h / 2)]

variable {a : Inst}

theorem w_nonneg (a : Inst) : 0 ≤ a.w := sub_nonneg.mpr min_le_max

theorem h_nonneg (a : Inst) : 0 ≤ a.h := sub_nonneg.mpr min_le_max

theorem hi_x (a : Inst) : a.hi.x = a.lo.x + a.w := (add_sub_cancel _ _).symm

theorem hi_y (a : Inst) : a.hi.y = a.lo.y + a.h := (add_sub_cancel _ _).symm

theorem valid_of_mem_parts {s : Shape} (hs : s ∈ a.parts) : s.Valid := by
  have hw := a.w_nonneg
  have hh := a.h_nonneg
  have hx := a.hi_x
  have hy := a.hi_y
  rw [parts] at hs
  by_cases hrounded : a.rounded = false
  · rw [if_pos hrounded] at hs
    cases List.mem_singleton.mp hs
    exact ⟨min_le_max, min_le_max⟩
  rw [if_neg hrounded] at hs
  split at hs
  all_goals
    simp only [List.mem_cons, List.not_mem_nil, or_false] at hs
    rcases hs with rfl | rfl | rfl <;> simp only [Shape.Valid] <;> omega

theorem testOverlap_eq_any (next : Shape → Bool) : testOverlap a next = a.parts.any next := by
  change (if !a.rounded then doRect next a.lo.x a.lo.y a.w a.h
    else if a.h > a.w then
      doCircle next (a.lo.x + a.w / 2) (a.hi.y - a.w / 2) (a.w / 2) ||
        doRect next a.lo.x (a.lo.y + a.w / 2) a.w (a.h - 2 * (a.w / 2)) ||
        doCircle next (a.lo.x + a.w / 2) (a.lo.y + a.w / 2) (a.w / 2)
    else
      doCircle next (a.lo.x + a.h / 2) (a.lo.y + a.h / 2) (a.h / 2) ||
        doRect next (a.lo.x + a.h / 2) a.lo.y (a.w - 2 * (a.h / 2)) a.h ||
        doCircle next (a.hi.x - a.h / 2) (a.lo.y + a.h / 2) (a.h / 2)) = _
  have hhi : a.hi = ⟨a.lo.x + a.w, a.lo.y + a.h⟩ := by rw [← hi_x, ← hi_y]
  have htall : a.lo.y + a.w / 2 + (a.h - 2 * (a.w / 2)) = a.hi.y - a.w / 2 := by
    rw [hi_y]
    ring
  have hwide : a.lo.x + a.h / 2 + (a.w - 2 * (a.h / 2)) = a.hi.x - a.h / 2 := by
    rw [hi_x]
    ring
  rw [parts]
  cases a.rounded with
  | false => simp [doRect, ← hhi]
  | true =>
    by_cases htaller : a.h > a.w
    · simp [doCircle, doRect, htaller, htall, ← hi_x, Bool.or_assoc]
    · simp [doCircle, doRect, htaller, hwide, ← hi_y, Bool.or_assoc]

theorem mem_region_iff (heven : a.EvenSize) (p : ℝ × ℝ) :
    p ∈ a.region ↔ ∃ s ∈ a.parts, p ∈ s.region := by
  have hw : (a.hi.x : ℝ) - a.lo.x = a.w := (Int.cast_sub _ _).symm
  have hh : (a.hi.y : ℝ) - a.lo.y = a.h := (Int.cast_sub _ _).symm
  have hw2 : ((a.w / 2 : ℤ) : ℝ) = (a.w : ℝ) / 2 := by
    rw [Int.cast_div heven.width two_ne_zero]
    rfl
  have hh2 : ((a.h / 2 : ℤ) : ℝ) = (a.h : ℝ) / 2 := by
    rw [Int.cast_div heven.height two_ne_zero]
    rfl
  by_cases hrounded : a.rounded = false
  · simp [region, parts, hrounded, Shape.region]
  · by_cases htaller : a.w < a.h
    · simp [region, parts, hrounded, hw, hh, htaller, Shape.region, Coord.toPlane, hw2, or_assoc]
    · simp [region, parts, hrounded, hw, hh, htaller, Shape.region, Coord.toPlane, hh2, or_assoc]

theorem region_subset_box (a : Inst) : a.region ⊆ box a.lo.toPlane a.hi.toPlane := by
  have hw : a.lo.toPlane.1 ≤ a.hi.toPlane.1 := Int.cast_le.mpr min_le_max
  have hh : a.lo.toPlane.2 ≤ a.hi.toPlane.2 := Int.cast_le.mpr min_le_max
  generalize hlo : a.lo.toPlane = lo at hw hh
  generalize hhi : a.hi.toPlane = hi at hw hh
  simp only [region, hlo, hhi]
  split_ifs with hrounded htaller
  · exact subset_rfl
  · refine Set.union_subset (Set.union_subset ?_ ?_) ?_
    · refine (disc_subset_box (by linarith)).trans (box_mono ⟨?_, ?_⟩ ⟨?_, ?_⟩) <;> linarith
    · exact box_mono ⟨le_rfl, by linarith⟩ ⟨le_rfl, by linarith⟩
    · refine (disc_subset_box (by linarith)).trans (box_mono ⟨?_, ?_⟩ ⟨?_, ?_⟩) <;> linarith
  · refine Set.union_subset (Set.union_subset ?_ ?_) ?_
    · refine (disc_subset_box (by linarith)).trans (box_mono ⟨?_, ?_⟩ ⟨?_, ?_⟩) <;> linarith
    · exact box_mono ⟨by linarith, le_rfl⟩ ⟨by linarith, le_rfl⟩
    · refine (disc_subset_box (by linarith)).trans (box_mono ⟨?_, ?_⟩ ⟨?_, ?_⟩) <;> linarith

end Inst

def sqDist (a b : Coord) : ℤ := (a.x - b.x) ^ 2 + (a.y - b.y) ^ 2

def gapInt (lo hi x : ℤ) : ℤ := max (lo - x) (max 0 (x - hi))

def sqGap (c min max : Coord) : ℤ := gapInt min.x max.x c.x ^ 2 + gapInt min.y max.y c.y ^ 2

theorem distPoint_eq (a b : Coord) : distPoint a b = ((sqDist a b).toNat.sqrt : ℕ) := rfl

theorem distPoint_le_iff (a b : Coord) {n : ℤ} (hn : 0 ≤ n) :
    distPoint a b ≤ n ↔ sqDist a b < (n + 1) ^ 2 := by
  obtain ⟨n, rfl⟩ := Int.eq_ofNat_of_zero_le hn
  have hsq : 0 ≤ sqDist a b := add_nonneg (sq_nonneg _) (sq_nonneg _)
  have hsqrt : Nat.sqrt (sqDist a b).toNat < n + 1 ↔ (sqDist a b).toNat < (n + 1) ^ 2 := Nat.sqrt_lt'
  rw [Nat.lt_succ_iff, ← Int.ofNat_le, ← Int.ofNat_lt, Int.toNat_of_nonneg hsq] at hsqrt
  rw [distPoint_eq]
  exact_mod_cast hsqrt

theorem distPoint_lt_iff (a b : Coord) {n : ℤ} (hn : 0 ≤ n) :
    distPoint a b < n ↔ sqDist a b < n ^ 2 := by
  obtain ⟨n, rfl⟩ := Int.eq_ofNat_of_zero_le hn
  have hsq : 0 ≤ sqDist a b := add_nonneg (sq_nonneg _) (sq_nonneg _)
  have hsqrt : Nat.sqrt (sqDist a b).toNat < n ↔ (sqDist a b).toNat < n ^ 2 := Nat.sqrt_lt'
  rw [← Int.ofNat_lt, ← Int.ofNat_lt, Int.toNat_of_nonneg hsq] at hsqrt
  rw [distPoint_eq]
  exact_mod_cast hsqrt

variable {r : ℤ}

theorem circleRectOverlap_none_iff (c : Coord) (hr : 0 ≤ r) (min max : Coord) :
    circleRectOverlap c r min max .none = true ↔
      gapInt min.x max.x c.x ≤ r ∧ gapInt min.y max.y c.y ≤ r := by
  simp only [circleRectOverlap, gapInt, reduceCtorEq, false_and, if_false]
  split_ifs <;> simp <;> omega

theorem circleRectOverlap_touch_iff (c : Coord) (r : ℤ) (min max : Coord) :
    circleRectOverlap c r min max .touch = true ↔
      (min.x - r < c.x ∧ c.x < max.x + r) ∧ min.y - r < c.y ∧ c.y < max.y + r := by
  simp only [circleRectOverlap, true_and]
  split_ifs <;> simp <;> omega

variable (min1 max1 min2 max2 : Coord)

theorem rectRectOverlap_none_iff :
    rectRectOverlap min1 max1 min2 max2 .none = true ↔
      (min2.x ≤ max1.x ∧ min1.x ≤ max2.x) ∧ min2.y ≤ max1.y ∧ min1.y ≤ max2.y := by
  simp only [rectRectOverlap, reduceCtorEq, false_and, if_false]
  split_ifs <;> simp <;> omega

theorem rectRectOverlap_touch_iff :
    rectRectOverlap min1 max1 min2 max2 .touch = true ↔
      (min2.x < max1.x ∧ min1.x < max2.x) ∧ min2.y < max1.y ∧ min1.y < max2.y := by
  simp only [rectRectOverlap, true_and]
  split_ifs <;> simp <;> omega

/-! ### Near misses -/

def BeyondCorner (c : Coord) (r : ℤ) (min max : Coord) : Prop :=
  (gapInt min.x max.x c.x ≤ r ∧ gapInt min.y max.y c.y ≤ r) ∧ r ^ 2 < sqGap c min max

def NearMiss : Shape → Shape → Prop
  | .circle c1 r1, .circle c2 r2 =>
    (r1 + r2) ^ 2 < sqDist c1 c2 ∧ sqDist c1 c2 < (r1 + r2 + 1) ^ 2
  | .circle c r, .rect min max => BeyondCorner c r min max
  | .rect min max, .circle c r => BeyondCorner c r min max
  | .rect _ _, .rect _ _ => False

def FlatRect (min max : Coord) : Prop := min.x = max.x ∨ min.y = max.y

def AroundCorner (c : Coord) (r : ℤ) (min max : Coord) : Prop :=
  ((min.x - r < c.x ∧ c.x < max.x + r) ∧ min.y - r < c.y ∧ c.y < max.y + r) ∧
    (r ^ 2 ≤ sqGap c min max ∨ FlatRect min max)

def Grazes : Shape → Shape → Prop
  | .circle c1 r1, .circle c2 r2 => sqDist c1 c2 < (r1 + r2) ^ 2 ∧ (r1 = 0 ∨ r2 = 0)
  | .circle c r, .rect min max => AroundCorner c r min max
  | .rect min max, .circle c r => AroundCorner c r min max
  | .rect min1 max1, .rect min2 max2 =>
    ((min2.x < max1.x ∧ min1.x < max2.x) ∧ min2.y < max1.y ∧ min1.y < max2.y) ∧
      (FlatRect min1 max1 ∨ FlatRect min2 max2)

theorem cast_sqDist (a b : Coord) : ((sqDist a b : ℤ) : ℝ) =
    (a.toPlane.1 - b.toPlane.1) ^ 2 + (a.toPlane.2 - b.toPlane.2) ^ 2 := by
  simp [sqDist, Coord.toPlane]

theorem cast_sqGap (c min max : Coord) : ((sqGap c min max : ℤ) : ℝ) =
    gap min.toPlane.1 max.toPlane.1 c.toPlane.1 ^ 2 +
      gap min.toPlane.2 max.toPlane.2 c.toPlane.2 ^ 2 := by
  simp [sqGap, gapInt, gap, Coord.toPlane]

theorem circles_meet_iff {c1 c2 : Coord} {r1 r2 : ℤ} (h1 : 0 ≤ r1) (h2 : 0 ≤ r2) :
    ((Shape.circle c1 r1).region ∩ (Shape.circle c2 r2).region).Nonempty ↔
      sqDist c1 c2 ≤ (r1 + r2) ^ 2 := by
  rw [Shape.region, Shape.region, disc_inter_disc (Int.cast_nonneg h1) (Int.cast_nonneg h2),
    ← cast_sqDist]
  exact_mod_cast Iff.rfl

theorem circle_meets_rect_iff {c min max : Coord} (hx : min.x ≤ max.x) (hy : min.y ≤ max.y) :
    ((Shape.circle c r).region ∩ (Shape.rect min max).region).Nonempty ↔
      sqGap c min max ≤ r ^ 2 := by
  rw [Shape.region, Shape.region, disc_inter_box (Int.cast_le.mpr hx) (Int.cast_le.mpr hy),
    ← cast_sqGap]
  exact_mod_cast Iff.rfl

theorem rects_meet_iff {min1 max1 min2 max2 : Coord} (h1 : (Shape.rect min1 max1).Valid)
    (h2 : (Shape.rect min2 max2).Valid) :
    ((Shape.rect min1 max1).region ∩ (Shape.rect min2 max2).region).Nonempty ↔
      (min2.x ≤ max1.x ∧ min1.x ≤ max2.x) ∧ min2.y ≤ max1.y ∧ min1.y ≤ max2.y := by
  rw [Shape.region, Shape.region, box_inter_box (Int.cast_le.mpr h1.1) (Int.cast_le.mpr h1.2)
    (Int.cast_le.mpr h2.1) (Int.cast_le.mpr h2.2)]
  simp only [Coord.toPlane, Int.cast_le]

theorem circleRectOverlap_iff_meets {c min max : Coord} (hr : 0 ≤ r)
    (hx : min.x ≤ max.x) (hy : min.y ≤ max.y) : circleRectOverlap c r min max .none = true ↔
      ((Shape.circle c r).region ∩ (Shape.rect min max).region).Nonempty ∨
        BeyondCorner c r min max := by
  rw [circleRectOverlap_none_iff c hr, circle_meets_rect_iff hx hy, BeyondCorner]
  constructor
  · intro h
    rcases le_or_gt (sqGap c min max) (r ^ 2) with hle | hlt
    · exact Or.inl hle
    · exact Or.inr ⟨h, hlt⟩
  · rintro (h | h)
    · have hsq := sq_nonneg (gapInt min.x max.x c.x)
      have hsq' := sq_nonneg (gapInt min.y max.y c.y)
      rw [sqGap] at h
      exact ⟨abs_le_of_sq_le_sq' (by linarith) hr |>.2, abs_le_of_sq_le_sq' (by linarith) hr |>.2⟩
    · exact h.1

theorem shapesOverlap_none_iff {p q : Shape} (hp : p.Valid) (hq : q.Valid) :
    shapesOverlap p q .none = true ↔ (p.region ∩ q.region).Nonempty ∨ NearMiss p q := by
  cases p with
  | circle c1 r1 =>
    cases q with
    | circle c2 r2 =>
      rw [circles_meet_iff hp hq]
      change decide (distPoint c1 c2 ≤ r1 + r2) = true ↔ _
      rw [decide_eq_true_iff, distPoint_le_iff c1 c2 (add_nonneg hp hq)]
      change _ ↔ _ ∨ ((r1 + r2) ^ 2 < sqDist c1 c2 ∧ sqDist c1 c2 < (r1 + r2 + 1) ^ 2)
      have hlt : (r1 + r2) ^ 2 < (r1 + r2 + 1) ^ 2 :=
        pow_lt_pow_left₀ (lt_add_one _) (add_nonneg hp hq) two_ne_zero
      constructor
      · intro h
        rcases le_or_gt (sqDist c1 c2) ((r1 + r2) ^ 2) with hle | hgt
        · exact Or.inl hle
        · exact Or.inr ⟨hgt, h⟩
      · rintro (h | h)
        · exact h.trans_lt hlt
        · exact h.2
    | rect min max => exact circleRectOverlap_iff_meets hp hq.1 hq.2
  | rect min1 max1 =>
    cases q with
    | circle c r =>
      rw [Set.inter_comm]
      exact circleRectOverlap_iff_meets hq hp.1 hp.2
    | rect min2 max2 =>
      rw [rects_meet_iff hp hq]
      exact (rectRectOverlap_none_iff min1 max1 min2 max2).trans (or_iff_left id).symm

theorem circle_meets_inside {c min max : Coord} (hx : min.x ≤ max.x) (hy : min.y ≤ max.y)
    (htouch : circleRectOverlap c r min max .touch = true) (hnot : ¬ AroundCorner c r min max) :
    ((Shape.circle c r).inner ∩ (Shape.rect min max).inner).Nonempty := by
  rw [circleRectOverlap_touch_iff] at htouch
  have hwithin := not_or.mp fun h => hnot ⟨htouch, h⟩
  obtain ⟨hne, hne'⟩ := not_or.mp hwithin.2
  apply openDisc_inter_openBox (Int.cast_lt.mpr (lt_of_le_of_ne hx hne))
    (Int.cast_lt.mpr (lt_of_le_of_ne hy hne'))
  rw [← cast_sqGap]
  exact_mod_cast not_le.mp hwithin.1

theorem inner_meets_of_touch {p q : Shape} (hp : p.Valid) (hq : q.Valid)
    (htouch : shapesOverlap p q .touch = true) (hnot : ¬ Grazes p q) :
    (p.inner ∩ q.inner).Nonempty := by
  cases p with
  | circle c1 r1 =>
    cases q with
    | circle c2 r2 =>
      have hlt := (distPoint_lt_iff c1 c2 (add_nonneg hp hq)).mp (of_decide_eq_true htouch)
      obtain ⟨hne, hne'⟩ := not_or.mp fun h => hnot ⟨hlt, h⟩
      apply openDisc_inter_openDisc (Int.cast_pos.mpr (lt_of_le_of_ne hp (Ne.symm hne)))
        (Int.cast_pos.mpr (lt_of_le_of_ne hq (Ne.symm hne')))
      rw [← cast_sqDist]
      exact_mod_cast hlt
    | rect min max => exact circle_meets_inside hq.1 hq.2 htouch hnot
  | rect min1 max1 =>
    cases q with
    | circle c r =>
      rw [Set.inter_comm]
      exact circle_meets_inside hp.1 hp.2 htouch hnot
    | rect min2 max2 =>
      have hcross := (rectRectOverlap_touch_iff min1 max1 min2 max2).mp htouch
      obtain ⟨hflat1, hflat2⟩ := not_or.mp fun h => hnot ⟨hcross, h⟩
      obtain ⟨hx1, hy1⟩ := not_or.mp hflat1
      obtain ⟨hx2, hy2⟩ := not_or.mp hflat2
      exact openBox_inter_openBox (Int.cast_lt.mpr (lt_of_le_of_ne hp.1 hx1))
        (Int.cast_lt.mpr (lt_of_le_of_ne hp.2 hy1)) (Int.cast_lt.mpr (lt_of_le_of_ne hq.1 hx2))
        (Int.cast_lt.mpr (lt_of_le_of_ne hq.2 hy2))
        ⟨Int.cast_lt.mpr hcross.1.1, Int.cast_lt.mpr hcross.1.2⟩
        ⟨Int.cast_lt.mpr hcross.2.1, Int.cast_lt.mpr hcross.2.2⟩

theorem touch_of_grazes {p q : Shape} (hp : p.Valid) (hq : q.Valid) (h : Grazes p q) :
    shapesOverlap p q .touch = true := by
  cases p with
  | circle c1 r1 =>
    cases q with
    | circle c2 r2 =>
      exact decide_eq_true ((distPoint_lt_iff c1 c2 (add_nonneg hp hq)).mpr h.1)
    | rect min max => exact (circleRectOverlap_touch_iff c1 r1 min max).mpr h.1
  | rect min1 max1 =>
    cases q with
    | circle c r => exact (circleRectOverlap_touch_iff c r min1 max1).mpr h.1
    | rect min2 max2 => exact (rectRectOverlap_touch_iff min1 max1 min2 max2).mpr h.1

theorem distPoint_comm (a b : Coord) : distPoint a b = distPoint b a := by
  rw [distPoint_eq, distPoint_eq, sqDist, sqDist, sub_sq_comm, sub_sq_comm a.y]

theorem rectRectOverlap_comm (allow : AllowOverlap) :
    rectRectOverlap min1 max1 min2 max2 allow = rectRectOverlap min2 max2 min1 max1 allow := by
  unfold rectRectOverlap
  simp only [or_comm]

theorem shapesOverlap_comm (p q : Shape) (allow : AllowOverlap) :
    shapesOverlap p q allow = shapesOverlap q p allow := by
  cases p with
  | circle c1 r1 =>
    cases q with
    | circle c2 r2 =>
      change circleCircleOverlap c1 r1 c2 r2 allow = circleCircleOverlap c2 r2 c1 r1 allow
      unfold circleCircleOverlap
      rw [distPoint_comm, add_comm r1]
    | rect min max => rfl
  | rect min1 max1 =>
    cases q with
    | circle c r => rfl
    | rect min2 max2 => exact rectRectOverlap_comm min1 max1 min2 max2 allow

theorem overlap_eq_any {a b : Inst} {allow : AllowOverlap} (h : allow ≠ .any) :
    overlap a b allow = true ↔ ∃ p ∈ a.parts, ∃ q ∈ b.parts, shapesOverlap p q allow = true := by
  rw [overlap, if_neg h, Inst.testOverlap_eq_any, List.any_eq_true]
  simp only [Inst.testOverlap_eq_any, List.any_eq_true]

theorem overlap_comm (a b : Inst)
    (allow : AllowOverlap) : overlap a b allow = overlap b a allow := by
  by_cases h : allow = .any
  · rw [overlap, overlap, if_pos h, if_pos h]
  · rw [Bool.eq_iff_iff, overlap_eq_any h, overlap_eq_any h]
    constructor
    · rintro ⟨p, hp, q, hq, htest⟩
      exact ⟨q, hq, p, hp, shapesOverlap_comm p q allow ▸ htest⟩
    · rintro ⟨q, hq, p, hp, htest⟩
      exact ⟨p, hp, q, hq, shapesOverlap_comm q p allow ▸ htest⟩

/-! ### Two instances -/

def Meet (a b : Inst) : Prop := (a.region ∩ b.region).Nonempty

def MeetInside (a b : Inst) : Prop := (interior a.region ∩ interior b.region).Nonempty

structure Exact (a b : Inst) : Prop where
  none : overlap a b .none = true ↔ Meet a b
  touch : overlap a b .touch = true → MeetInside a b
  comm : ∀ allow, overlap a b allow = overlap b a allow

section Instances

variable {a b : Inst}

theorem meet_iff (ha : a.EvenSize) (hb : b.EvenSize) :
    Meet a b ↔ ∃ p ∈ a.parts, ∃ q ∈ b.parts, (p.region ∩ q.region).Nonempty := by
  constructor
  · rintro ⟨x, hxa, hxb⟩
    obtain ⟨p, hp, hxp⟩ := (Inst.mem_region_iff ha x).mp hxa
    obtain ⟨q, hq, hxq⟩ := (Inst.mem_region_iff hb x).mp hxb
    exact ⟨p, hp, q, hq, x, hxp, hxq⟩
  · rintro ⟨p, hp, q, hq, x, hxp, hxq⟩
    exact ⟨x, (Inst.mem_region_iff ha x).mpr ⟨p, hp, hxp⟩,
      (Inst.mem_region_iff hb x).mpr ⟨q, hq, hxq⟩⟩

theorem inner_subset_interior (ha : a.EvenSize) {p : Shape} (hp : p ∈ a.parts) :
    p.inner ⊆ interior a.region :=
  interior_maximal (fun x hx => (Inst.mem_region_iff ha x).mpr ⟨p, hp, p.inner_subset hx⟩)
    p.isOpen_inner

theorem overlap_none_iff (ha : a.EvenSize) (hb : b.EvenSize) : overlap a b .none = true ↔
    Meet a b ∨ ∃ p ∈ a.parts, ∃ q ∈ b.parts, NearMiss p q := by
  rw [overlap_eq_any (by decide), meet_iff ha hb]
  constructor
  · rintro ⟨p, hp, q, hq, htest⟩
    rcases (shapesOverlap_none_iff (Inst.valid_of_mem_parts hp)
      (Inst.valid_of_mem_parts hq)).mp htest with h | h
    · exact Or.inl ⟨p, hp, q, hq, h⟩
    · exact Or.inr ⟨p, hp, q, hq, h⟩
  · rintro (⟨p, hp, q, hq, h⟩ | ⟨p, hp, q, hq, h⟩)
    · exact ⟨p, hp, q, hq, (shapesOverlap_none_iff (Inst.valid_of_mem_parts hp)
        (Inst.valid_of_mem_parts hq)).mpr (Or.inl h)⟩
    · exact ⟨p, hp, q, hq, (shapesOverlap_none_iff (Inst.valid_of_mem_parts hp)
        (Inst.valid_of_mem_parts hq)).mpr (Or.inr h)⟩

theorem meetInside_of_touch (ha : a.EvenSize) (hb : b.EvenSize)
    (htouch : overlap a b .touch = true)
    (hnot : ¬ ∃ p ∈ a.parts, ∃ q ∈ b.parts, Grazes p q) : MeetInside a b := by
  obtain ⟨p, hp, q, hq, htest⟩ := (overlap_eq_any (by decide)).mp htouch
  obtain ⟨x, hxp, hxq⟩ := inner_meets_of_touch (Inst.valid_of_mem_parts hp)
    (Inst.valid_of_mem_parts hq) htest fun h => hnot ⟨p, hp, q, hq, h⟩
  exact ⟨x, inner_subset_interior ha hp hxp, inner_subset_interior hb hq hxq⟩

/-- **When the test is exact.** The test is wrong exactly for shapes that are apart with a near miss
among their parts, or that have no interior in common with parts that graze each other. -/
theorem exact_iff (ha : a.EvenSize) (hb : b.EvenSize) : Exact a b ↔
    (Meet a b ∨ ∀ p ∈ a.parts, ∀ q ∈ b.parts, ¬ NearMiss p q) ∧
      (MeetInside a b ∨ ∀ p ∈ a.parts, ∀ q ∈ b.parts, ¬ Grazes p q) := by
  constructor
  · intro hexact
    refine ⟨or_iff_not_imp_left.mpr fun hapart p hp q hq hmiss => hapart ?_,
      or_iff_not_imp_left.mpr fun hapart p hp q hq hgraze => hapart ?_⟩
    · exact hexact.none.mp ((overlap_none_iff ha hb).mpr (Or.inr ⟨p, hp, q, hq, hmiss⟩))
    · exact hexact.touch ((overlap_eq_any (by decide)).mpr ⟨p, hp, q, hq, touch_of_grazes
        (Inst.valid_of_mem_parts hp) (Inst.valid_of_mem_parts hq) hgraze⟩)
  · rintro ⟨hnone, htouch⟩
    refine ⟨(overlap_none_iff ha hb).trans (or_iff_left_of_imp ?_), fun h => ?_, overlap_comm a b⟩
    · rintro ⟨p, hp, q, hq, hmiss⟩
      exact hnone.resolve_right fun hno => hno p hp q hq hmiss
    · rcases htouch with hinside | hno
      · exact hinside
      · exact meetInside_of_touch ha hb h fun ⟨p, hp, q, hq, hgraze⟩ => hno p hp q hq hgraze

end Instances

/-- A pad, another one that covers its corner, and a round hole beyond that corner. -/
def cornerPad : Inst := { type := .pad false, base := ⟨0, 0⟩, other := ⟨10, 10⟩ }

def coveringPad : Inst := { type := .pad false, base := ⟨18, 16⟩, other := ⟨8, 6⟩ }

def cornerHole : Inst := { type := .hole, base := ⟨9, 9⟩, other := ⟨19, 19⟩ }

theorem exact_pads : Exact cornerPad coveringPad := by
  have hparts : cornerPad.parts = [.rect ⟨0, 0⟩ ⟨10, 10⟩] := by decide
  have hparts' : coveringPad.parts = [.rect ⟨8, 6⟩ ⟨18, 16⟩] := by decide
  apply (exact_iff (a := cornerPad) (b := coveringPad) ⟨by decide, by decide⟩
    ⟨by decide, by decide⟩).mpr
  rw [hparts, hparts']
  refine ⟨Or.inr fun p hp q hq => ?_, Or.inr fun p hp q hq => ?_⟩
  · cases List.mem_singleton.mp hp
    cases List.mem_singleton.mp hq
    exact id
  · cases List.mem_singleton.mp hp
    cases List.mem_singleton.mp hq
    rintro ⟨-, (h | h) | h | h⟩ <;> cases h

theorem apart_corner : ¬ Meet cornerPad cornerHole := by
  rw [meet_iff ⟨by decide, by decide⟩ ⟨by decide, by decide⟩]
  have hparts : cornerPad.parts = [.rect ⟨0, 0⟩ ⟨10, 10⟩] := by decide
  have hparts' : cornerHole.parts = [.circle ⟨14, 14⟩ 5, .rect ⟨14, 9⟩ ⟨14, 19⟩,
    .circle ⟨14, 14⟩ 5] := by decide
  rw [hparts, hparts']
  have hcircle : ¬ ((Shape.rect ⟨0, 0⟩ ⟨10, 10⟩).region ∩
      (Shape.circle ⟨14, 14⟩ 5).region).Nonempty := by
    rw [Set.inter_comm, circle_meets_rect_iff (by decide) (by decide)]
    decide
  rintro ⟨p, hp, q, hq, hmeet⟩
  cases List.mem_singleton.mp hp
  simp only [List.mem_cons, List.not_mem_nil, or_false] at hq
  rcases hq with rfl | rfl | rfl
  · exact hcircle hmeet
  · rw [rects_meet_iff ⟨by decide, by decide⟩ ⟨by decide, by decide⟩] at hmeet
    exact absurd hmeet.1.1 (by decide)
  · exact hcircle hmeet

/-- The circle is within the grown rectangle. -/
theorem not_exact_corner : ¬ ∀ a b : Inst, a.EvenSize → b.EvenSize → Exact a b := by
  intro h
  have hexact := h cornerPad cornerHole ⟨by decide, by decide⟩ ⟨by decide, by decide⟩
  exact apart_corner (hexact.none.mp (by decide))

end Openmoko.Fped.Overlap
