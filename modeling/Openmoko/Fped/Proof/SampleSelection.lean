import Mathlib.Data.Prod.Lex
import Openmoko.Fped.Samples
import Openmoko.Library.Select

/-!
# Samples in any order

Which positions qualify is kept by every posting. The searches look at positions only, with a strict
order on them, so that they do not depend on the order in which the points were posted.
-/

namespace Openmoko.Fped

section Bitset

variable {n : ℕ} {a b c : BitVec n}

theorem bitsetGe_iff : bitsetGe a b = true ↔ ∀ i < n, b.getLsbD i = true → a.getLsbD i = true := by
  have hbit : ∀ i < n, (~~~a &&& b).getLsbD i = (!a.getLsbD i && b.getLsbD i) := by
    intro i hi
    rw [BitVec.getLsbD_and, BitVec.getLsbD_not, decide_eq_true hi, Bool.true_and]
  rw [bitsetGe, decide_eq_true_iff]
  constructor
  · intro h i hi hb
    have hzero := hbit i hi
    rw [h, BitVec.getLsbD_zero, hb, Bool.and_true] at hzero
    cases ha : a.getLsbD i
    · rw [ha] at hzero
      cases hzero
    · rfl
  · intro h
    apply BitVec.eq_of_getLsbD_eq
    intro i hi
    rw [hbit i hi, BitVec.getLsbD_zero]
    cases hb : b.getLsbD i
    · exact Bool.and_false _
    · rw [h i hi hb]
      rfl

theorem bitsetGe_trans (hab : bitsetGe a b = true) (hbc : bitsetGe b c = true) :
    bitsetGe a c = true := by
  rw [bitsetGe_iff] at *
  exact fun i hi hc => hab i hi (hbc i hi hc)

theorem bitsetOr_of_ge (h : bitsetGe b a = true) : bitsetOr a b = b := by
  rw [bitsetGe_iff] at h
  apply BitVec.eq_of_getLsbD_eq
  intro i hi
  rw [bitsetOr, BitVec.getLsbD_or]
  cases ha : a.getLsbD i
  · exact Bool.false_or _
  · rw [h i hi ha, Bool.true_or]

end Bitset

def Qualifying {n : ℕ} (samples : List (Sample n)) (qual : Option (BitVec n)) (p : Coord) : Prop :=
  ∃ s ∈ samples, qualifies qual s = true ∧ s.pos = p

section Post

variable {n : ℕ} {qual : Option (BitVec n)} {s t : Sample n} {samples : List (Sample n)} {p : Coord}

theorem qualifies_of_ge (hge : bitsetGe s.frameSet t.frameSet = true)
    (h : qualifies qual t = true) : qualifies qual s = true := by
  cases qual with
  | none => rfl
  | some qual => exact bitsetGe_trans hge h

theorem qualifying_cons : Qualifying (s :: samples) qual p ↔
    (qualifies qual s = true ∧ s.pos = p) ∨ Qualifying samples qual p := by
  constructor
  · rintro ⟨t, ht, hqual⟩
    rcases List.mem_cons.mp ht with rfl | ht
    · exact Or.inl hqual
    · exact Or.inr ⟨t, ht, hqual⟩
  · rintro (hqual | ⟨t, ht, hqual⟩)
    · exact ⟨s, List.mem_cons_self, hqual⟩
    · exact ⟨t, List.mem_cons_of_mem s ht, hqual⟩

theorem int32_eq_of_not_lt {a b : Int32} (hlt : ¬ a < b) (hgt : ¬ a > b) : a = b := by
  rw [Int32.lt_iff_toInt_lt] at hlt
  rw [gt_iff_lt, Int32.lt_iff_toInt_lt] at hgt
  exact Int32.toInt_inj.mp (by omega)

theorem qualifying_measPost (pos : Coord) (frameSet : BitVec n) (samples : List (Sample n)) :
    Qualifying (measPost pos frameSet samples) qual p ↔
      (qualifies qual ⟨pos, frameSet⟩ = true ∧ pos = p) ∨ Qualifying samples qual p := by
  induction samples with
  | nil => exact qualifying_cons
  | cons s samples ih =>
    have hnext : Qualifying (s :: measPost pos frameSet samples) qual p ↔
        (qualifies qual ⟨pos, frameSet⟩ = true ∧ pos = p) ∨ Qualifying (s :: samples) qual p := by
      rw [qualifying_cons, ih, qualifying_cons]
      exact or_left_comm
    rw [measPost]
    split_ifs with hylt hygt hxlt hxne hold hnew
    · exact qualifying_cons
    · exact hnext
    · exact qualifying_cons
    · exact hnext
    · -- the sample that is there has all the frames of the new one
      have hpos : s.pos = pos :=
        Coord.ext (not_not.mp hxne).symm (int32_eq_of_not_lt hygt hylt)
      rw [qualifying_cons]
      refine ⟨Or.inr, ?_⟩
      rintro (⟨hqual, rfl⟩ | h)
      · exact Or.inl ⟨qualifies_of_ge (t := ⟨pos, frameSet⟩) hold hqual, hpos⟩
      · exact h
    · have hpos : s.pos = pos :=
        Coord.ext (not_not.mp hxne).symm (int32_eq_of_not_lt hygt hylt)
      rw [qualifying_cons, qualifying_cons, bitsetOr_of_ge hnew, hpos]
      constructor
      · rintro (h | h)
        · exact Or.inl h
        · exact Or.inr (Or.inr h)
      · rintro (h | ⟨hqual, rfl⟩ | h)
        · exact Or.inl h
        · exact Or.inl ⟨qualifies_of_ge (s := ⟨s.pos, frameSet⟩) hnew hqual, rfl⟩
        · exact Or.inr h
    · exact hnext

theorem qualifying_measPostAll (posted : List (Sample n)) :
    Qualifying (measPostAll posted) qual = Qualifying posted qual := by
  funext p
  apply propext
  have hloop : ∀ samples : List (Sample n),
      Qualifying (posted.foldl (fun samples s => measPost s.pos s.frameSet samples) samples) qual p ↔
        Qualifying posted qual p ∨ Qualifying samples qual p := by
    induction posted with
    | nil => exact fun samples => ⟨Or.inr, fun h => h.resolve_left fun ⟨_, hmem, _⟩ => nomatch hmem⟩
    | cons s posted ih =>
      intro samples
      rw [List.foldl_cons, ih, qualifying_measPost, qualifying_cons]
      exact ⟨by tauto, by tauto⟩
  rw [measPostAll, hloop]
  exact or_iff_left fun ⟨_, hmem, _⟩ => nomatch hmem

end Post

/-- Before another position along the measured coordinate; where they are equal, by `xy`. -/
def Precedes (lt : LtOp) (a b : Coord) : Prop :=
  lt.lt a b = true ∨ lt.lt b a = false ∧ ltXY a b = true

/-- Closer to a reference along the measured coordinate, then along the other one. -/
def Nearer (lt : LtOp) (ref a b : Coord) : Prop :=
  lt.lt a b = true ∨ lt.lt b a = false ∧
    match lt with
    | .xy => False
    | .x => closer (a.y - ref.y) (b.y - ref.y) = true
    | .y => closer (a.x - ref.x) (b.x - ref.x) = true

def precedesKey (lt : LtOp) (p : Coord) : ℤ ×ₗ ℤ :=
  match lt with
  | .x => toLex (p.x.toInt, p.y.toInt)
  | .y | .xy => toLex (p.y.toInt, p.x.toInt)

def closerKey (d : Int32) : ℤ ×ₗ ℤ := toLex ((if d < 0 then -d else d).toInt, -d.toInt)

def nearerKey (lt : LtOp) (ref p : Coord) : ℤ ×ₗ ℤ ×ₗ ℤ :=
  match lt with
  | .xy => toLex (p.y.toInt, toLex (p.x.toInt, 0))
  | .x => toLex (p.x.toInt, closerKey (p.y - ref.y))
  | .y => toLex (p.y.toInt, closerKey (p.x - ref.x))

theorem closer_iff (da db : Int32) : closer da db = true ↔ closerKey da < closerKey db := by
  rw [closer, closerKey, closerKey, Prod.Lex.toLex_lt_toLex]
  simp only [gt_iff_lt, Int32.lt_iff_toInt_lt]
  generalize (if da.toInt < (0 : Int32).toInt then -da else da).toInt = a
  generalize (if db.toInt < (0 : Int32).toInt then -db else db).toInt = b
  split_ifs with hlt hgt
  · simp [hlt]
  · refine iff_of_false not_false ?_
    omega
  · rw [decide_eq_true_iff]
    omega

theorem closerKey_injective {da db : Int32} (h : closerKey da = closerKey db) : da = db := by
  have hside : -da.toInt = -db.toInt := congrArg (fun k => (ofLex k).2) h
  exact Int32.toInt_inj.mp (by omega)

theorem lt_x (a b : Coord) : LtOp.lt .x a b = true ↔ a.x.toInt < b.x.toInt := by
  rw [← Int32.lt_iff_toInt_lt]
  exact decide_eq_true_iff

theorem lt_y (a b : Coord) : LtOp.lt .y a b = true ↔ a.y.toInt < b.y.toInt := by
  rw [← Int32.lt_iff_toInt_lt]
  exact decide_eq_true_iff

theorem ltXY_iff (a b : Coord) : ltXY a b = true ↔
    a.y.toInt < b.y.toInt ∨ a.y.toInt = b.y.toInt ∧ a.x.toInt < b.x.toInt := by
  rw [ltXY, Bool.or_eq_true, Bool.and_eq_true, decide_eq_true_iff, decide_eq_true_iff,
    decide_eq_true_iff, Int32.lt_iff_toInt_lt, Int32.lt_iff_toInt_lt, Int32.toInt_inj]

theorem precedes_iff (lt : LtOp) (a b : Coord) :
    Precedes lt a b ↔ precedesKey lt a < precedesKey lt b := by
  rw [Precedes, ← Bool.not_eq_true]
  cases lt with
  | x =>
    rw [lt_x, lt_x, ltXY_iff, precedesKey, precedesKey, Prod.Lex.toLex_lt_toLex]
    omega
  | y =>
    rw [lt_y, lt_y, ltXY_iff, precedesKey, precedesKey, Prod.Lex.toLex_lt_toLex]
    omega
  | xy =>
    change ltXY a b = true ∨ ¬ ltXY b a = true ∧ ltXY a b = true ↔ _
    rw [ltXY_iff, ltXY_iff, precedesKey, precedesKey, Prod.Lex.toLex_lt_toLex]
    omega

theorem precedesKey_injective (lt : LtOp) {a b : Coord} (h : precedesKey lt a = precedesKey lt b) :
    a = b := by
  have hfst := congrArg (fun k => (ofLex k).1) h
  have hsnd := congrArg (fun k => (ofLex k).2) h
  cases lt with
  | x => exact Coord.ext (Int32.toInt_inj.mp hfst) (Int32.toInt_inj.mp hsnd)
  | y | xy => exact Coord.ext (Int32.toInt_inj.mp hsnd) (Int32.toInt_inj.mp hfst)

theorem lt_or_not_lt_and_iff {κ : Type} [LinearOrder κ] {i j : ℤ} {k k' : κ} :
    i < j ∨ ¬ j < i ∧ k < k' ↔ toLex (i, k) < toLex (j, k') := by
  rw [Prod.Lex.toLex_lt_toLex]
  constructor
  · rintro (hlt | ⟨hle, hk⟩)
    · exact Or.inl hlt
    · rcases lt_or_eq_of_le (not_lt.mp hle) with hlt | heq
      · exact Or.inl hlt
      · exact Or.inr ⟨heq, hk⟩
  · rintro (hlt | ⟨heq, hk⟩)
    · exact Or.inl hlt
    · exact Or.inr ⟨heq.not_gt, hk⟩

theorem nearer_iff (lt : LtOp) (ref a b : Coord) :
    Nearer lt ref a b ↔ nearerKey lt ref a < nearerKey lt ref b := by
  unfold Nearer
  rw [← Bool.not_eq_true]
  cases lt with
  | x =>
    rw [lt_x, lt_x]
    simp only [closer_iff]
    exact lt_or_not_lt_and_iff
  | y =>
    rw [lt_y, lt_y]
    simp only [closer_iff]
    exact lt_or_not_lt_and_iff
  | xy =>
    simp only [nearerKey, Prod.Lex.toLex_lt_toLex]
    change ltXY a b = true ∨ ¬ ltXY b a = true ∧ False ↔ _
    rw [and_false, or_false, ltXY_iff]
    omega

theorem nearerKey_injective (lt : LtOp) (ref : Coord) {a b : Coord}
    (h : nearerKey lt ref a = nearerKey lt ref b) : a = b := by
  have hfst := congrArg (fun k => (ofLex k).1) h
  have hsnd := congrArg (fun k => (ofLex k).2) h
  cases lt with
  | x =>
    have hy := (Int32.sub_left_inj ref.y).mp (closerKey_injective hsnd)
    exact Coord.ext (Int32.toInt_inj.mp hfst) hy
  | y =>
    have hx := (Int32.sub_left_inj ref.x).mp (closerKey_injective hsnd)
    exact Coord.ext hx (Int32.toInt_inj.mp hfst)
  | xy =>
    have hx := congrArg (fun k => (ofLex k).1) hsnd
    exact Coord.ext (Int32.toInt_inj.mp hx) (Int32.toInt_inj.mp hfst)

def FirstOf (R : Coord → Coord → Prop) (S : Coord → Prop) (p : Coord) : Prop :=
  S p ∧ ∀ q, S q → q ≠ p → R p q

section Searches

variable {n : ℕ} (lt : LtOp) {qual : Option (BitVec n)} {samples : List (Sample n)}

theorem qualifying_iff_mem_filter (p : Coord) :
    Qualifying samples qual p ↔ ∃ s ∈ samples.filter (qualifies qual), s.pos = p := by
  constructor
  · rintro ⟨s, hs, hqual, hpos⟩
    exact ⟨s, List.mem_filter.mpr ⟨hs, hqual⟩, hpos⟩
  · rintro ⟨s, hs, hpos⟩
    obtain ⟨hs, hqual⟩ := List.mem_filter.mp hs
    exact ⟨s, hs, hqual, hpos⟩

theorem qualifying_of_mem {s : Sample n} (hs : s ∈ samples.filter (qualifies qual)) :
    Qualifying samples qual s.pos := (qualifying_iff_mem_filter s.pos).mpr ⟨s, hs, rfl⟩

theorem search_iff {κ : Type} [LinearOrder κ] {replaces : Sample n → Sample n → Bool}
    {R : Coord → Coord → Prop} (key : Coord → κ) (hR : ∀ a b, R a b ↔ key a < key b)
    (hkey : ∀ a b, key a = key b → a = b)
    (hreplaces : ∀ b s, replaces b s = true ↔ R s.pos b.pos) (p : Coord) :
    (select replaces (samples.filter (qualifies qual))).map Sample.pos = some p ↔
      FirstOf R (Qualifying samples qual) p := by
  rw [FirstOf]
  rcases eq_or_ne (samples.filter (qualifies qual)) [] with hnil | hne
  · rw [hnil, qualifying_iff_mem_filter, hnil]
    exact iff_of_false nofun fun ⟨⟨s, hs, _⟩, _⟩ => nomatch hs
  · obtain ⟨s, hs⟩ := List.exists_mem_of_ne_nil _ hne
    rw [select_map_eq_some_iff (fun _ => True) hR hkey
      (fun b s => by simp [hreplaces]) ⟨s, hs, trivial⟩, qualifying_iff_mem_filter]
    refine and_congr_right fun _ => ?_
    rw [true_and]
    constructor
    · rintro h q hq hne
      obtain ⟨s, hs, rfl⟩ := (qualifying_iff_mem_filter q).mp hq
      exact h s hs trivial hne
    · exact fun h s hs _ hne => h s.pos (qualifying_of_mem hs) hne

theorem foldl_congr_step {α σ : Type} {f g : σ → α → σ} {l : List α} {s : σ}
    (h : ∀ s a, f s a = g s a) : l.foldl f s = l.foldl g s := by
  rw [funext₂ h]

theorem measFindMin_eq_select : measFindMin lt samples qual =
    select (fun b s => lt.lt s.pos b.pos || (!lt.lt b.pos s.pos && ltXY s.pos b.pos))
      (samples.filter (qualifies qual)) := by
  rw [select, List.foldl_filter]
  apply foldl_congr_step
  intro best s
  cases best <;> rfl

theorem measFindMax_eq_select : measFindMax lt samples qual =
    select (fun b s => lt.lt b.pos s.pos || (!lt.lt s.pos b.pos && ltXY b.pos s.pos))
      (samples.filter (qualifies qual)) := by
  rw [select, List.foldl_filter]
  apply foldl_congr_step
  intro best s
  cases best <;> rfl

theorem measFindNext_eq_select (ref : Coord) : measFindNext lt samples ref qual =
    select (fun b s => betterNext lt ref b.pos s.pos) (samples.filter (qualifies qual)) := by
  rw [select, List.foldl_filter]
  apply foldl_congr_step
  intro best s
  cases best <;> rfl

theorem precedes_of_bool (a b : Coord) :
    (lt.lt a b || (!lt.lt b a && ltXY a b)) = true ↔ Precedes lt a b := by
  rw [Bool.or_eq_true, Bool.and_eq_true, Bool.not_eq_true', Precedes]

theorem measFindMin_iff (p : Coord) :
    (measFindMin lt samples qual).map Sample.pos = some p ↔
      FirstOf (Precedes lt) (Qualifying samples qual) p := by
  rw [measFindMin_eq_select]
  exact search_iff (precedesKey lt) (precedes_iff lt) (fun _ _ => precedesKey_injective lt)
    (fun b s => precedes_of_bool lt s.pos b.pos) p

theorem measFindMax_iff (p : Coord) :
    (measFindMax lt samples qual).map Sample.pos = some p ↔
      FirstOf (fun a b => Precedes lt b a) (Qualifying samples qual) p := by
  rw [measFindMax_eq_select]
  exact search_iff (R := fun a b => Precedes lt b a)
    (fun a => OrderDual.toDual (precedesKey lt a)) (fun a b => precedes_iff lt b a)
    (fun _ _ => precedesKey_injective lt)
    (fun b s => precedes_of_bool lt b.pos s.pos) p

theorem betterNext_iff (ref b s : Coord) : betterNext lt ref b s = true ↔
    ¬ lt.lt ref b = true ∨ lt.lt ref s = true ∧ Nearer lt ref s b := by
  unfold betterNext
  cases hb : lt.lt ref b with
  | false => simp
  | true =>
    cases hs : lt.lt ref s with
    | false => simp
    | true =>
      unfold Nearer
      cases hsb : lt.lt s b with
      | true => simp
      | false =>
        cases hbs : lt.lt b s with
        | true => simp
        | false => cases lt <;> simp

theorem measFindNext_iff {ref : Coord}
    (hgreater : ∃ q, Qualifying samples qual q ∧ lt.lt ref q = true) (p : Coord) :
    (measFindNext lt samples ref qual).map Sample.pos = some p ↔
      FirstOf (Nearer lt ref) (fun q => Qualifying samples qual q ∧ lt.lt ref q = true) p := by
  obtain ⟨q, hq, hlt⟩ := hgreater
  obtain ⟨s, hs, rfl⟩ := (qualifying_iff_mem_filter q).mp hq
  rw [measFindNext_eq_select, select_map_eq_some_iff (fun q => lt.lt ref q = true)
    (nearer_iff lt ref) (fun _ _ => nearerKey_injective lt ref)
    (fun b s => betterNext_iff lt ref b.pos s.pos) ⟨s, hs, hlt⟩, FirstOf,
    qualifying_iff_mem_filter, and_assoc]
  refine and_congr_right fun _ => and_congr_right fun _ => ?_
  constructor
  · rintro h q ⟨hq, hlt⟩ hne
    obtain ⟨s, hs, rfl⟩ := (qualifying_iff_mem_filter q).mp hq
    exact h s hs hlt hne
  · exact fun h s hs hlt hne => h s.pos ⟨qualifying_of_mem hs, hlt⟩ hne

theorem Qualifying.perm {posted posted' : List (Sample n)} (hperm : posted'.Perm posted) :
    Qualifying posted' qual = Qualifying posted qual := by
  funext p
  rw [Qualifying, Qualifying]
  simp only [hperm.mem_iff]

theorem found_eq_of_iff {a b : Option Coord} {P Q : Coord → Prop} (ha : ∀ p, a = some p ↔ P p)
    (hb : ∀ p, b = some p ↔ Q p) (hPQ : P = Q) : a = b := by
  subst hPQ
  exact Option.ext fun p => (ha p).trans (hb p).symm

variable {posted : List (Sample n)}

theorem measFindMin_posted (p : Coord) :
    (measFindMin lt (measPostAll posted) qual).map Sample.pos = some p ↔
      FirstOf (Precedes lt) (Qualifying posted qual) p := by
  rw [measFindMin_iff, qualifying_measPostAll]

theorem measFindMax_posted (p : Coord) :
    (measFindMax lt (measPostAll posted) qual).map Sample.pos = some p ↔
      FirstOf (fun a b => Precedes lt b a) (Qualifying posted qual) p := by
  rw [measFindMax_iff, qualifying_measPostAll]

theorem measFindNext_posted {ref : Coord}
    (hgreater : ∃ q, Qualifying posted qual q ∧ lt.lt ref q = true) (p : Coord) :
    (measFindNext lt (measPostAll posted) ref qual).map Sample.pos = some p ↔
      FirstOf (Nearer lt ref) (fun q => Qualifying posted qual q ∧ lt.lt ref q = true) p := by
  rw [← qualifying_measPostAll] at hgreater ⊢
  exact measFindNext_iff lt hgreater p

end Searches

/-- **Points may be posted in any order.** What is found is a matter of the posted points that
qualify, and of the order of positions. -/
theorem found_among_posted {n : ℕ} (lt : LtOp) (posted : List (Sample n)) (qual : Option (BitVec n))
    (ref : Coord) :
    (∀ p, Qualifying (measPostAll posted) qual p ↔ Qualifying posted qual p) ∧
    (∀ p, (measFindMin lt (measPostAll posted) qual).map Sample.pos = some p ↔
      FirstOf (Precedes lt) (Qualifying posted qual) p) ∧
    (∀ p, (measFindMax lt (measPostAll posted) qual).map Sample.pos = some p ↔
      FirstOf (fun a b => Precedes lt b a) (Qualifying posted qual) p) ∧
    ((∃ q, Qualifying posted qual q ∧ lt.lt ref q = true) → ∀ p,
      (measFindNext lt (measPostAll posted) ref qual).map Sample.pos = some p ↔
        FirstOf (Nearer lt ref) (fun q => Qualifying posted qual q ∧ lt.lt ref q = true) p) ∧
    ∀ posted', posted'.Perm posted →
      (measFindMin lt (measPostAll posted') qual).map Sample.pos =
        (measFindMin lt (measPostAll posted) qual).map Sample.pos ∧
      (measFindMax lt (measPostAll posted') qual).map Sample.pos =
        (measFindMax lt (measPostAll posted) qual).map Sample.pos ∧
      ((∃ q, Qualifying posted qual q ∧ lt.lt ref q = true) →
        (measFindNext lt (measPostAll posted') ref qual).map Sample.pos =
          (measFindNext lt (measPostAll posted) ref qual).map Sample.pos) := by
  refine ⟨fun p => by rw [qualifying_measPostAll], measFindMin_posted lt, measFindMax_posted lt,
    measFindNext_posted lt, fun posted' hperm => ?_⟩
  have hsame : Qualifying posted' qual = Qualifying posted qual := Qualifying.perm hperm
  refine ⟨found_eq_of_iff (measFindMin_posted lt) (measFindMin_posted lt) (by rw [hsame]),
    found_eq_of_iff (measFindMax_posted lt) (measFindMax_posted lt) (by rw [hsame]),
    fun hgreater => ?_⟩
  have hgreater' : ∃ q, Qualifying posted' qual q ∧ lt.lt ref q = true := by rwa [hsame]
  exact found_eq_of_iff (measFindNext_posted lt hgreater') (measFindNext_posted lt hgreater)
    (by rw [hsame])

def fourPoints : List (Sample 2) :=
  [⟨⟨0, 0⟩, 1#2⟩, ⟨⟨3, 4⟩, 3#2⟩, ⟨⟨3, -4⟩, 1#2⟩, ⟨⟨3, -4⟩, 3#2⟩]

theorem found_among_four :
    (measFindNext .x (measPostAll fourPoints.reverse) ⟨0, 0⟩ (some 2#2)).map Sample.pos =
      (measFindNext .x (measPostAll fourPoints) ⟨0, 0⟩ (some 2#2)).map Sample.pos :=
  ((found_among_posted .x fourPoints (some 2#2) ⟨0, 0⟩).2.2.2.2 _ fourPoints.reverse_perm).2.2
    ⟨⟨3, 4⟩, ⟨⟨⟨3, 4⟩, 3#2⟩, by decide, by decide, rfl⟩, by decide⟩

end Openmoko.Fped
