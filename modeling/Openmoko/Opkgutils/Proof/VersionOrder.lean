import Mathlib
import Openmoko.Library.Comparator
import Openmoko.Opkgutils.Version

/-!
# The order of the versions of opkg-utils

A string is a sequence of turns, each a run of non-digits and the number after it. Two versions are
compared by their epochs, and then by the turns of their two components.
-/

namespace Openmoko.Opkgutils

def turns (s : Text) : ℕ → Bytes ×ₗ ℤ
  | 0 => toLex (bytes (splitAlpha s).1, toNum (splitNum (splitAlpha s).2).1)
  | k + 1 => turns (afterTurn s) k

def turnsKey (s : Text) : SeqLex (Bytes ×ₗ ℤ) := seqLex (turns s)

theorem versioncompare_eq (s t : Text) :
    versioncompare s t =
      if (splitAlpha t).1 < (splitAlpha s).1 then 1
      else if (splitAlpha s).1 < (splitAlpha t).1 then -1
      else if toNum (splitNum (splitAlpha t).2).1 < toNum (splitNum (splitAlpha s).2).1 then 1
      else if toNum (splitNum (splitAlpha s).2).1 < toNum (splitNum (splitAlpha t).2).1 then -1
      else if afterTurn s = [] ∧ afterTurn t = [] then 0
      else versioncompare (afterTurn s) (afterTurn t) := by
  rw [versioncompare]

theorem cmp_turnsKey (s t : Text) :
    cmp (turnsKey s) (turnsKey t) =
      (cmp (bytes (splitAlpha s).1) (bytes (splitAlpha t).1)).then
        ((cmp (toNum (splitNum (splitAlpha s).2).1) (toNum (splitNum (splitAlpha t).2).1)).then
          (cmp (turnsKey (afterTurn s)) (turnsKey (afterTurn t)))) := by
  rw [turnsKey, turnsKey, cmp_seq, turns, turns, cmp_prod, Ordering.then_assoc]
  rfl

/-- **The loop compares the turns.** -/
theorem comparesBy_versioncompare : ComparesBy versioncompare turnsKey := by
  intro s t
  induction hn : s.length + t.length using Nat.strong_induction_on generalizing s t with
  | _ n ih =>
    rw [versioncompare_eq, cmp_turnsKey]
    simp only [lt_iff_bytes, outcome_ite]
    congr 2
    split
    case isTrue hend => rw [hend.1, hend.2, cmp_self_eq_eq, outcome_eq]
    case isFalse hmore =>
      refine ih _ ?_ _ _ rfl
      rw [not_and_or] at hmore
      have hs := afterTurn_length_le s
      have ht := afterTurn_length_le t
      rcases hmore with hmore | hmore
      · have hlt := afterTurn_length_lt (s := s) fun heq => hmore (by rw [heq]; rfl)
        omega
      · have hlt := afterTurn_length_lt (s := t) fun heq => hmore (by rw [heq]; rfl)
        omega

def Version.Splits (v : Version) : Prop :=
  ∃ line, line ≠ [] ∧ LF ∉ line ∧ (v.version = line ∨ v.version = line ++ [LF])

theorem verComps_isSome_iff {v : Version} : (verComps v.version).isSome = true ↔ v.Splits := by
  have hsome : (verComps v.version).isSome = true ↔ anything v.version ≠ [] ∧
      (v.version.dropWhile (· ≠ LF) = [] ∨ v.version.dropWhile (· ≠ LF) = [LF]) := by
    rw [verComps]
    split
    case isTrue h => exact iff_of_true rfl h
    case isFalse h => exact iff_of_false Bool.false_ne_true h
  rw [hsome]
  constructor
  · rintro ⟨hne, hrest⟩
    have happend := List.takeWhile_append_dropWhile (p := (· ≠ LF)) (l := v.version)
    have hLF : LF ∉ anything v.version :=
      fun hmem => absurd (List.mem_takeWhile_imp hmem) (by decide)
    refine ⟨anything v.version, hne, hLF, ?_⟩
    rcases hrest with hrest | hrest
    · rw [hrest, List.append_nil] at happend
      exact Or.inl happend.symm
    · rw [hrest] at happend
      exact Or.inr happend.symm
  · rintro ⟨line, hne, hLF, heq⟩
    have hall : ∀ c ∈ line, decide (c ≠ LF) = true :=
      fun c hc => decide_eq_true fun heq => hLF (heq ▸ hc)
    have hdrop : line.dropWhile (· ≠ LF) = [] := List.dropWhile_eq_nil_iff.mpr hall
    have htake : line.takeWhile (· ≠ LF) = line := List.takeWhile_eq_self_iff.mpr hall
    rcases heq with heq | heq
    · rw [anything, heq, htake, hdrop]
      exact ⟨hne, Or.inl rfl⟩
    · rw [anything, heq, List.takeWhile_append_of_pos hall, List.dropWhile_append_of_pos hall]
      exact ⟨by simp [hne], Or.inr rfl⟩

def Version.comps (v : Version) : Text × Option Text := (verComps v.version).getD ([], none)

def Version.key (v : Version) : ℕ ×ₗ SeqLex (Bytes ×ₗ ℤ) ×ₗ SeqLex (Bytes ×ₗ ℤ) :=
  toLex (v.epoch, toLex (turnsKey v.comps.1, turnsKey (v.comps.2.getD [])))

def Version.Comparable (v w : Version) : Prop := v.epoch ≠ w.epoch ∨ v.Splits ∧ w.Splits

theorem Version.Comparable.symm {v w : Version} (h : v.Comparable w) : w.Comparable v :=
  h.imp Ne.symm And.symm

theorem Version.compare_eq (v w : Version) :
    v.compare w =
      if w.epoch < v.epoch then some 1
      else if v.epoch < w.epoch then some (-1)
      else if (verComps v.version).isSome ∧ (verComps w.version).isSome then
        some (if versioncompare v.comps.1 w.comps.1 = 0 then
            versioncompare (v.comps.2.getD []) (w.comps.2.getD [])
          else versioncompare v.comps.1 w.comps.1)
      else none := by
  rw [Version.compare]
  split
  · rfl
  split
  · rfl
  rw [Version.comps, Version.comps]
  cases verComps v.version with
  | none => simp
  | some comps =>
    cases verComps w.version with
    | none => simp
    | some comps' =>
      simp only [Option.bind_eq_bind, Option.bind_some, Option.isSome_some, and_self, if_true,
        Option.getD_some]
      split <;> rfl

theorem Version.compare_isSome_iff {v w : Version} :
    (v.compare w).isSome = true ↔ v.Comparable w := by
  rw [Version.compare_eq, Version.Comparable, ← verComps_isSome_iff, ← verComps_isSome_iff]
  rcases lt_trichotomy v.epoch w.epoch with hlt | heq | hgt
  · rw [if_neg hlt.not_gt, if_pos hlt]
    exact iff_of_true rfl (Or.inl hlt.ne)
  · rw [heq, if_neg (lt_irrefl _), if_neg (lt_irrefl _), or_iff_right fun hne => hne rfl]
    split
    case isTrue h => exact iff_of_true rfl h
    case isFalse h => exact iff_of_false Bool.false_ne_true h
  · rw [if_pos hgt]
    exact iff_of_true rfl (Or.inl hgt.ne')

theorem Version.outcome_compare {v w : Version} {r : ℤ} (hr : v.compare w = some r) :
    outcome r = cmp v.key w.key := by
  have hcomps : outcome (if versioncompare v.comps.1 w.comps.1 = 0 then
        versioncompare (v.comps.2.getD []) (w.comps.2.getD [])
      else versioncompare v.comps.1 w.comps.1) =
      (cmp (turnsKey v.comps.1) (turnsKey w.comps.1)).then
        (cmp (turnsKey (v.comps.2.getD [])) (turnsKey (w.comps.2.getD []))) := by
    rw [← comparesBy_versioncompare, ← comparesBy_versioncompare]
    split
    case isTrue hzero => rw [hzero, outcome_eq.mpr rfl, Ordering.eq_then]
    case isFalse hne => rw [then_of_ne_eq (mt outcome_eq.mp hne)]
  have hepoch := outcome_ite v.epoch w.epoch
    (if versioncompare v.comps.1 w.comps.1 = 0 then
      versioncompare (v.comps.2.getD []) (w.comps.2.getD [])
    else versioncompare v.comps.1 w.comps.1)
  rw [Version.key, Version.key, cmp_prod, cmp_prod, ← hcomps, ← hepoch]
  rw [Version.compare_eq] at hr
  rcases lt_trichotomy v.epoch w.epoch with hlt | heq | hgt
  · rw [if_neg hlt.not_gt, if_pos hlt] at hr ⊢
    rw [Option.some.inj hr]
  · rw [heq, if_neg (lt_irrefl _), if_neg (lt_irrefl _)] at hr ⊢
    split at hr
    · rw [Option.some.inj hr]
    · cases hr
  · rw [if_pos hgt] at hr ⊢
    rw [Option.some.inj hr]

theorem Version.epoch_le_of_key_le {v w : Version} (h : v.key ≤ w.key) : v.epoch ≤ w.epoch := by
  rcases Prod.Lex.toLex_le_toLex.mp h with hlt | ⟨heq, -⟩
  · exact hlt.le
  · exact heq.le

theorem Version.Comparable.trans {u v w : Version} (huv : u.Comparable v) (hvw : v.Comparable w)
    (hle : u.key ≤ v.key) (hle' : v.key ≤ w.key) : u.Comparable w := by
  have hepoch := Version.epoch_le_of_key_le hle
  have hepoch' := Version.epoch_le_of_key_le hle'
  rcases huv with hne | ⟨hu, -⟩
  · exact Or.inl (by omega)
  · rcases hvw with hne | ⟨-, hw⟩
    · exact Or.inl (by omega)
    · exact Or.inr ⟨hu, hw⟩

end Openmoko.Opkgutils
