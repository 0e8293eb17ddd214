import Openmoko.Opkg.Proof.ConfigureOrder

/-!
# The best installation candidate

The vector of packages is sorted again where that of abstract packages was meant, by name alone, so
that the order of versions is left to `qsort`. What is stored through `err` while the providers are
gone through stays there when a compatible package turns up later.
-/

namespace Openmoko.Opkg

def OPKG_PKG_HAS_NO_AVAILABLE_ARCH : ℤ := 9

section Model

variable {platform : Platform} {A P : Type} [DecidableEq A] (h : PkgHash platform A P)

def compatible (pkg : P) : Bool := 0 < (h.pkg pkg).archPriority

def isByHand (constraintFcn : P → Bool) (p : P) : Bool :=
  constraintFcn p && (h.pkg p).providedByHand

def checkProvider (providers : List A) (s : Bool × ℤ) (provider : A) : Bool × ℤ :=
  let vec := providerPkgs h providers provider
  let found := s.1 || vec.any (compatible h)
  (found, if 0 < vec.length ∧ found = false then OPKG_PKG_HAS_NO_AVAILABLE_ARCH else s.2)

def candidateErr (apkg : A) : ℤ :=
  let providers := (h.apkg apkg).providedBy
  (providers.foldl (checkProvider h providers) (false, 0)).2

end Model

section Spec

variable {platform : Platform} {A P : Type} [DecidableEq A] (h : NamedHash platform A P) (apkg : A)
  (constraintFcn : P → Bool)

def IsCandidate (p : P) : Prop := p ∈ matchingPkgs h.toPkgHash apkg ∧ constraintFcn p = true

/-- The candidates that the choice is made from: those provided by hand, where there are none those
on hold or preferred, where there are none of these either all of them. -/
def IsFavoured (p : P) : Prop :=
  IsCandidate h apkg constraintFcn p ∧
    ((h.pkg p).providedByHand = true ∨
      (∀ q, IsCandidate h apkg constraintFcn q → (h.pkg q).providedByHand = false) ∧
        (isHeld h.toPkgHash p = true ∨
          ∀ q, IsCandidate h apkg constraintFcn q → isHeld h.toPkgHash q = false))

def IsBestCandidate (p : P) : Prop :=
  IsFavoured h apkg constraintFcn p ∧
    ((h.pkg p).providedByHand = true ∨
      ∀ q, IsFavoured h apkg constraintFcn q → (h.pkg q).name = (h.pkg p).name →
        pkgNameVersionAndArchitectureCompare platform (h.pkg q) (h.pkg p) ≤ 0)

structure SelectsBest (result : Option P) (err : ℤ) : Prop where
  best : (∃ p, IsCandidate h apkg constraintFcn p) →
    ∃ p, result = some p ∧ IsBestCandidate h apkg constraintFcn p
  null : result = none → ¬∃ p, IsCandidate h apkg constraintFcn p
  err : err ≠ 0 → result = none

def IncompatibleFirst : Prop :=
  let vec := providerPkgs h.toPkgHash (h.apkg apkg).providedBy
  ∃ provider, (h.apkg apkg).providedBy.find? (fun a => !(vec a).isEmpty) = some provider ∧
    ∀ p ∈ vec provider, compatible h.toPkgHash p = false

/-- A compatible package that is a candidate, held or of an installed parent, or the only one. -/
def IsUsable : Prop :=
  (matchingPkgs h.toPkgHash apkg).length = 1 ∨ ∃ p ∈ matchingPkgs h.toPkgHash apkg,
    constraintFcn p = true ∨ isHeld h.toPkgHash p = true ∨ parentInstalled h.toPkgHash p = true

def IsGreatestName (p : P) : Prop :=
  IsCandidate h apkg constraintFcn p ∧
    ∀ r, IsCandidate h apkg constraintFcn r → strcmp (h.pkg r).name (h.pkg p).name ≤ 0

def GreatestAgree : Prop :=
  ∀ p q, IsGreatestName h apkg constraintFcn p → IsCandidate h apkg constraintFcn q →
    (h.pkg q).name = (h.pkg p).name →
    pkgNameVersionAndArchitectureCompare platform (h.pkg q) (h.pkg p) ≤ 0

def GreatestHeld : Prop :=
  ∀ p q, IsGreatestName h apkg constraintFcn p → IsCandidate h apkg constraintFcn q →
    isHeld h.toPkgHash q = true → isHeld h.toPkgHash p = true

end Spec

/-! ### What is returned -/

section Result

variable {platform : Platform} {A P : Type} {h : PkgHash platform A P} {constraintFcn : P → Bool}

variable {l : List P}

theorem goodPkgByName_eq {good : Option P} : goodPkgByName h constraintFcn good l =
      (l.find? (isByHand h constraintFcn)).or ((lastWhere constraintFcn l).or good) := by
  induction l generalizing good with
  | nil => rfl
  | cons c l ih =>
    rw [goodPkgByName, lastWhere, List.reverse_cons, List.find?_append, List.find?_cons, isByHand,
      Option.or_assoc]
    cases hc : constraintFcn c with
    | false => simpa [lastWhere, hc] using ih
    | true =>
      cases (h.pkg c).providedByHand with
      | true => rfl
      | false =>
        have hrest := @ih (some c)
        rw [lastWhere] at hrest
        simp [hc, hrest, Option.or_some]

theorem lastWhere_eq_none_iff {p : P → Bool} : lastWhere p l = none ↔ ∀ x ∈ l, p x = false := by
  simp [lastWhere]

variable {R : P → P → Prop}

theorem lastWhere_greatest (hR : ∀ x, R x x) {p : P → Bool} {x : P}
    (hl : l.Pairwise R) (hx : lastWhere p l = some x) :
    x ∈ l ∧ p x = true ∧ ∀ y ∈ l, p y = true → R y x := by
  obtain ⟨hp, later, earlier, hsplit, hlater⟩ := List.find?_eq_some_iff_append.mp hx
  obtain rfl : l = earlier.reverse ++ x :: later.reverse := by
    rw [← l.reverse_reverse, hsplit]
    simp
  refine ⟨by simp, hp, fun y hy hpy => ?_⟩
  rcases List.mem_append.mp hy with hbefore | hrest
  · exact (List.pairwise_append.mp hl).2.2 y hbefore x List.mem_cons_self
  · rcases List.mem_cons.mp hrest with rfl | hafter
    · exact hR y
    · have hfalse := hlater y (List.mem_reverse.mp hafter)
      simp [hpy] at hfalse

/-- The last package that meets the first criterion that some package meets, or else the only one. -/
def lastOf (l : List P) : List (P → Bool) → Option P
  | [] => if 1 < l.length then none else l.getLast?
  | c :: cs => (lastWhere c l).or (lastOf l cs)

def IsLastOf (R : P → P → Prop) (l : List P) (p : P) : List (P → Bool) → Prop
  | [] => l.length = 1
  | c :: cs =>
    (c p = true ∧ ∀ q ∈ l, c q = true → R q p) ∨ (∀ q ∈ l, c q = false) ∧ IsLastOf R l p cs

variable {cs : List (P → Bool)}

theorem lastOf_eq_none_iff :
    lastOf l cs = none ↔ l.length ≠ 1 ∧ ∀ c ∈ cs, ∀ q ∈ l, c q = false := by
  induction cs with
  | nil =>
    rw [lastOf]
    split
    next hmany => simp [hmany.ne']
    next hfew =>
      rw [List.getLast?_eq_none_iff, ← List.length_eq_zero_iff]
      simp only [List.not_mem_nil, false_implies, implies_true, and_true]
      omega
  | cons c cs ih =>
    rw [lastOf, Option.or_eq_none_iff, ih, lastWhere_eq_none_iff, List.forall_mem_cons]
    tauto

variable {p : P}

theorem isLastOf_of_lastOf (hR : ∀ x, R x x) (hl : l.Pairwise R) (hp : lastOf l cs = some p) :
    p ∈ l ∧ IsLastOf R l p cs := by
  induction cs with
  | nil =>
    rw [lastOf] at hp
    split_ifs at hp with hmany
    · have hmem := List.mem_of_getLast? hp
      have hpos : 0 < l.length := List.length_pos_of_mem hmem
      have hone : l.length = 1 := by
        omega
      exact ⟨hmem, hone⟩
  | cons c cs ih =>
    rw [lastOf] at hp
    cases hlast : lastWhere c l with
    | some x =>
      obtain rfl : x = p := by simpa [hlast] using hp
      obtain ⟨hmem, hc, hgreatest⟩ := lastWhere_greatest hR hl hlast
      exact ⟨hmem, .inl ⟨hc, hgreatest⟩⟩
    | none =>
      rw [hlast, Option.none_or] at hp
      obtain ⟨hmem, hrest⟩ := ih hp
      exact ⟨hmem, .inr ⟨lastWhere_eq_none_iff.mp hlast, hrest⟩⟩

theorem IsLastOf.imp {R' : P → P → Prop} (hRR' : ∀ x y, R x y → R' x y)
    (h : IsLastOf R l p cs) : IsLastOf R' l p cs := by
  induction cs with
  | nil => exact h
  | cons c cs ih =>
    rcases h with ⟨hc, hgreatest⟩ | ⟨hnone, hrest⟩
    · exact .inl ⟨hc, fun q hq hcq => hRR' q p (hgreatest q hq hcq)⟩
    · exact .inr ⟨hnone, ih hrest⟩

theorem IsLastOf.perm {l' : List P} (hperm : l.Perm l')
    (h : IsLastOf R l p cs) : IsLastOf R l' p cs := by
  induction cs with
  | nil => exact hperm.length_eq.symm.trans h
  | cons c cs ih =>
    simp only [IsLastOf, hperm.mem_iff] at h
    exact h.imp_right fun hrest => ⟨hrest.1, ih hrest.2⟩

theorem IsLastOf.length_or (h : IsLastOf R l p cs) : l.length = 1 ∨ ∃ c ∈ cs, c p = true := by
  induction cs with
  | nil => exact .inl h
  | cons c cs ih =>
    rcases h with ⟨hc, -⟩ | ⟨-, hrest⟩
    · exact .inr ⟨c, List.mem_cons_self, hc⟩
    · exact (ih hrest).imp_right fun ⟨c', hc', hp⟩ => ⟨c', List.mem_cons_of_mem c hc', hp⟩

/-- Two packages that are chosen by the same criteria are chosen by the same one. -/
theorem IsLastOf.rel {R' : P → P → Prop} (hR : ∀ x, R x x) (hR' : ∀ x, R' x x)
    {q : P} (hp : p ∈ l) (hq : q ∈ l) (h : IsLastOf R l p cs)
    (h' : IsLastOf R' l q cs) : R q p ∧ R' p q := by
  induction cs with
  | nil =>
    obtain ⟨a, rfl⟩ := List.length_eq_one_iff.mp h
    obtain rfl := List.mem_singleton.mp hp
    obtain rfl := List.mem_singleton.mp hq
    exact ⟨hR _, hR' _⟩
  | cons c cs ih =>
    rcases h with ⟨hc, hgreatest⟩ | ⟨hnone, hrest⟩
    · rcases h' with ⟨hc', hgreatest'⟩ | ⟨hnone', -⟩
      · exact ⟨hgreatest q hq hc', hgreatest' p hp hc⟩
      · simp [hnone' p hp] at hc
    · rcases h' with ⟨hc', -⟩ | ⟨-, hrest'⟩
      · simp [hnone q hq] at hc'
      · exact ih hrest hrest'

variable [DecidableEq A]

theorem sortedPkgs_perm (qsort : Qsort P) (apkg : A) :
    (sortedPkgs h qsort apkg).Perm (matchingPkgs h apkg) := by
  rw [sortedPkgs]
  split
  · exact (qsort.perm _ _).trans (qsort.perm _ _)
  · exact .refl _

theorem candidate_eq (qsort : Qsort P) (apkg : A) :
    pkgHashFetchBestInstallationCandidate h qsort apkg constraintFcn =
      ((sortedPkgs h qsort apkg).find? (isByHand h constraintFcn)).or
        (lastOf (sortedPkgs h qsort apkg) [constraintFcn, isHeld h, parentInstalled h]) := by
  rw [pkgHashFetchBestInstallationCandidate, goodPkgByName_eq, Option.or_none]
  simp only [lastOf]
  cases (sortedPkgs h qsort apkg).find? (isByHand h constraintFcn) with
  | some p => rfl
  | none =>
    cases lastWhere constraintFcn (sortedPkgs h qsort apkg) with
    | some p => rfl
    | none =>
      cases lastWhere (isHeld h) (sortedPkgs h qsort apkg) with
      | some p => rfl
      | none => cases lastWhere (parentInstalled h) (sortedPkgs h qsort apkg) <;> rfl

theorem candidate_eq_none_iff (constraintFcn : P → Bool) (qsort : Qsort P) (apkg : A) :
    pkgHashFetchBestInstallationCandidate h qsort apkg constraintFcn = none ↔
      ¬((matchingPkgs h apkg).length = 1 ∨ ∃ p ∈ matchingPkgs h apkg,
        constraintFcn p = true ∨ isHeld h p = true ∨ parentInstalled h p = true) := by
  have hperm := sortedPkgs_perm (h := h) qsort apkg
  rw [candidate_eq, Option.or_eq_none_iff, lastOf_eq_none_iff, hperm.length_eq]
  simp only [List.find?_eq_none, hperm.mem_iff, List.forall_mem_cons, isByHand]
  constructor
  · rintro ⟨-, hlength, hc, hheld, hparent, -⟩ (hone | ⟨p, hp, hp' | hp' | hp'⟩)
    · exact hlength hone
    · simp [hc p hp] at hp'
    · simp [hheld p hp] at hp'
    · simp [hparent p hp] at hp'
  · intro hno
    rw [not_or] at hno
    have hall : ∀ p ∈ matchingPkgs h apkg, constraintFcn p = false ∧ isHeld h p = false ∧
        parentInstalled h p = false := by
      intro p hp
      have hpno := not_exists.mp hno.2 p
      simpa [hp] using hpno
    exact ⟨fun p hp => by simp [(hall p hp).1], hno.1, fun p hp => (hall p hp).1,
      fun p hp => (hall p hp).2.1, fun p hp => (hall p hp).2.2, by simp⟩

/-- What is returned: of the candidates provided by hand a first one, otherwise a last one of the
first kind that there is any of. -/
theorem candidate_cases (hR : ∀ x, R x x) {qsort : Qsort P} {apkg : A}
    (hsorted : (sortedPkgs h qsort apkg).Pairwise R)
    (hp : pkgHashFetchBestInstallationCandidate h qsort apkg constraintFcn = some p) :
    p ∈ matchingPkgs h apkg ∧
      ((isByHand h constraintFcn p = true ∧
          ∀ q ∈ matchingPkgs h apkg, isByHand h constraintFcn q = true → R p q) ∨
        (∀ q ∈ matchingPkgs h apkg, isByHand h constraintFcn q = false) ∧
          IsLastOf R (matchingPkgs h apkg) p [constraintFcn, isHeld h, parentInstalled h]) := by
  have hperm := sortedPkgs_perm (h := h) qsort apkg
  rw [candidate_eq] at hp
  cases hfind : (sortedPkgs h qsort apkg).find? (isByHand h constraintFcn) with
  | some x =>
    obtain rfl : x = p := by simpa [hfind] using hp
    obtain ⟨hx, before, after, hsplit, hbefore⟩ := List.find?_eq_some_iff_append.mp hfind
    refine ⟨hperm.mem_iff.mp (List.mem_of_find?_eq_some hfind), .inl ⟨hx, fun q hq hbyHand => ?_⟩⟩
    have hmem := hperm.mem_iff.mpr hq
    rw [hsplit] at hmem hsorted
    rcases List.mem_append.mp hmem with hmem | hmem
    · have hfalse := hbefore q hmem
      simp [hbyHand] at hfalse
    · rcases List.mem_cons.mp hmem with rfl | hafter
      · exact hR q
      · exact List.rel_of_pairwise_cons (List.pairwise_append.mp hsorted).2.1 hafter
  | none =>
    rw [hfind, Option.none_or] at hp
    obtain ⟨hmem, hlast⟩ := isLastOf_of_lastOf hR hsorted hp
    refine ⟨hperm.mem_iff.mp hmem, .inr ⟨fun q hq => ?_, hlast.perm hperm⟩⟩
    simpa using List.find?_eq_none.mp hfind q (hperm.mem_iff.mpr hq)

theorem checkProviders_settled (providers : List A) {s : Bool × ℤ} (hs : s.1 = true ∨ s.2 ≠ 0)
    (rest : List A) : (rest.foldl (checkProvider h providers) s).2 ≠ 0 ↔ s.2 ≠ 0 := by
  induction rest generalizing s with
  | nil => rfl
  | cons a rest ih =>
    have hstep : ((checkProvider h providers s a).1 = true ∨
        (checkProvider h providers s a).2 ≠ 0) ∧ ((checkProvider h providers s a).2 ≠ 0 ↔ s.2 ≠ 0) := by
      rcases hs with hfound | herr
      · simp [checkProvider, hfound]
      · by_cases hset : 0 < (providerPkgs h providers a).length ∧
          (s.1 || (providerPkgs h providers a).any (compatible h)) = false
        · simp only [checkProvider, if_pos hset]
          exact ⟨.inr (by decide), iff_of_true (by decide) herr⟩
        · simp only [checkProvider, if_neg hset]
          exact ⟨.inr herr, by simp⟩
    rw [List.foldl_cons, ih hstep.1, hstep.2]

theorem candidateErr_ne_zero_iff (providers rest : List A) :
    (rest.foldl (checkProvider h providers) (false, 0)).2 ≠ 0 ↔
      ∃ a, rest.find? (fun a => !(providerPkgs h providers a).isEmpty) = some a ∧
        ∀ p ∈ providerPkgs h providers a, compatible h p = false := by
  induction rest with
  | nil => simp
  | cons a rest ih =>
    rw [List.foldl_cons, List.find?_cons]
    by_cases hnone : (providerPkgs h providers a).isEmpty = true
    · have hstep : checkProvider h providers (false, 0) a = (false, 0) := by
        simp [checkProvider, List.isEmpty_iff.mp hnone]
      rw [hstep, ih, hnone]
      rfl
    · have hpos : 0 < (providerPkgs h providers a).length := by
        simpa [List.length_pos_iff] using hnone
      simp only [Bool.not_eq_true] at hnone
      simp only [hnone, Bool.not_false, Option.some.injEq, exists_eq_left']
      cases hfound : (providerPkgs h providers a).any (compatible h) with
      | true =>
        have hstep : checkProvider h providers (false, 0) a = (true, 0) := by
          simp [checkProvider, hfound]
        rw [hstep, checkProviders_settled providers (.inl rfl)]
        obtain ⟨p, hp, hcompatible⟩ := List.any_eq_true.mp hfound
        refine iff_of_false (fun h => h rfl) fun hall => ?_
        simp [hall p hp] at hcompatible
      | false =>
        have hstep : checkProvider h providers (false, 0) a =
            (false, OPKG_PKG_HAS_NO_AVAILABLE_ARCH) := by
          simp [checkProvider, hfound, hpos]
        rw [hstep, checkProviders_settled providers (.inr (by decide))]
        refine iff_of_true (by decide) fun p hp => ?_
        simpa using List.any_eq_false.mp hfound p hp

end Result

/-! ### Whatever the order of what compares equal -/

section Order

variable {platform : Platform} {A P : Type} {h : NamedHash platform A P} {apkg : A}
  {constraintFcn : P → Bool}

theorem names_comparesBy : ComparesBy (fun a b => strcmp (h.pkg a).name (h.pkg b).name)
    fun p => seqLex (byteSeq (h.pkg p).name) :=
  fun a b => outcome_strcmp (h.cstring a) (h.cstring b)

def nameLE (p q : P) : Prop := strcmp (h.pkg p).name (h.pkg q).name ≤ 0

instance (p q : P) : Decidable (nameLE (h := h) p q) := inferInstanceAs (Decidable (_ ≤ _))

theorem nameLE_refl (p : P) : nameLE (h := h) p p := (names_comparesBy.self p).le

theorem isByHand_eq (p : P) : isByHand h.toPkgHash constraintFcn p = true ↔
    constraintFcn p = true ∧ (h.pkg p).providedByHand = true := Bool.and_eq_true_iff

/-- What `qsort` leaves where it keeps the order of what compares equal. -/
def nameVersionLE (p q : P) : Prop :=
  strcmp (h.pkg p).name (h.pkg q).name < 0 ∨ strcmp (h.pkg p).name (h.pkg q).name = 0 ∧
    pkgCompareVersions platform (h.pkg p).toPkgVersion (h.pkg q).toPkgVersion ≤ 0

theorem nameVersionLE_refl (p : P) : nameVersionLE (h := h) p p := by
  have hname := (names_comparesBy (h := h)).self p
  exact .inr ⟨hname, ((pkgCompareVersions_comparesBy platform).self _).le⟩

theorem nameVersionLE.nameLE {p q : P} (hle : nameVersionLE (h := h) p q) :
    nameLE (h := h) p q := hle.elim le_of_lt fun heq => heq.1.le

theorem outcome_fullCompare {p q : P} (hp : compatible h.toPkgHash p = true)
    (hq : compatible h.toPkgHash q = true) :
    outcome (pkgNameVersionAndArchitectureCompare platform (h.pkg p) (h.pkg q)) =
      (outcome (strcmp (h.pkg p).name (h.pkg q).name)).then
        ((outcome (pkgCompareVersions platform (h.pkg p).toPkgVersion (h.pkg q).toPkgVersion)).then
          (cmp (h.pkg p).archPriority (h.pkg q).archPriority)) := by
  have hp : 0 < (h.pkg p).archPriority := by simpa [compatible] using hp
  have hq : 0 < (h.pkg q).archPriority := by simpa [compatible] using hq
  unfold pkgNameVersionAndArchitectureCompare
  by_cases hname : strcmp (h.pkg p).name (h.pkg q).name = 0
  · rw [if_neg (not_not.mpr hname), outcome_eq.mpr hname, Ordering.eq_then]
    by_cases hversion :
        pkgCompareVersions platform (h.pkg p).toPkgVersion (h.pkg q).toPkgVersion = 0
    · rw [if_neg (not_not.mpr hversion), outcome_eq.mpr hversion, Ordering.eq_then,
        if_neg (by omega), outcome_ite, outcome_eq.mpr rfl, Ordering.then_eq]
    · rw [if_pos hversion, then_of_ne_eq (mt outcome_eq.mp hversion)]
  · rw [if_pos hname, then_of_ne_eq (mt outcome_eq.mp hname)]

variable [DecidableEq A]

theorem sortedPkgs_pairwise (qsort : SortingQsort P) (apkg : A) :
    (sortedPkgs h.toPkgHash qsort.toQsort apkg).Pairwise fun a b =>
      strcmp (h.pkg a).name (h.pkg b).name ≤ 0 := by
  rw [sortedPkgs]
  split
  · apply qsort.sorted
    · intro a b
      rw [names_comparesBy.le_iff a b, names_comparesBy.le_iff b a]
      exact le_total _ _
    · exact fun a b c => names_comparesBy.trans
  next hfew =>
    rcases hmatching : matchingPkgs h.toPkgHash apkg with _ | ⟨a, _ | ⟨b, rest⟩⟩
    · exact .nil
    · exact List.pairwise_singleton _ a
    · simp [hmatching] at hfew

theorem sortedPkgs_stable (apkg : A) :
    (sortedPkgs h.toPkgHash (Qsort.stable P) apkg).Pairwise (nameVersionLE (h := h)) := by
  let key (p : P) := toLex (seqLex (byteSeq (h.pkg p).name),
    toLex (pkgKey platform (h.pkg p).toPkgVersion, (h.pkg p).archPriority))
  have hcompatible : ∀ p ∈ matchingPkgs h.toPkgHash apkg, compatible h.toPkgHash p = true :=
    fun p hp => (List.mem_filter.mp hp).2
  have hkey : ∀ p q, compatible h.toPkgHash p = true → compatible h.toPkgHash q = true →
      (pkgNameVersionAndArchitectureCompare platform (h.pkg p) (h.pkg q) ≤ 0 ↔ key p ≤ key q) := by
    intro p q hp hq
    rw [← not_lt, ← not_lt, ← outcome_gt, ← cmp_eq_gt_iff, outcome_fullCompare hp hq, cmp_prod,
      cmp_prod, names_comparesBy p q, pkgCompareVersions_comparesBy platform _ _]
  have hnv : ∀ p q, key p ≤ key q → nameVersionLE (h := h) p q := by
    intro p q hle
    rcases Prod.Lex.toLex_le_toLex.mp hle with hname | ⟨hname, hle⟩
    · exact .inl ((names_comparesBy.lt_iff p q).mpr hname)
    · refine .inr ⟨(names_comparesBy.eq_iff p q).mpr hname, ?_⟩
      rw [(pkgCompareVersions_comparesBy platform).le_iff]
      rcases Prod.Lex.toLex_le_toLex.mp hle with hversion | ⟨hversion, -⟩
      · exact hversion.le
      · exact hversion.le
  rw [sortedPkgs]
  split
  · have hfirst : (Qsort.stable P).sort (fun a b =>
        pkgNameVersionAndArchitectureCompare platform (h.pkg a) (h.pkg b))
        (matchingPkgs h.toPkgHash apkg) =
          (matchingPkgs h.toPkgHash apkg).insertionSort fun a b => key a ≤ key b := by
      have hmap := List.map_insertionSort
        (r := fun a b => pkgNameVersionAndArchitectureCompare platform (h.pkg a) (h.pkg b) ≤ 0)
        (s := fun a b => key a ≤ key b) id (matchingPkgs h.toPkgHash apkg)
        fun a ha b hb => hkey a b (hcompatible a ha) (hcompatible b hb)
      rwa [List.map_id, List.map_id] at hmap
    have hsorted : ((matchingPkgs h.toPkgHash apkg).insertionSort
        fun a b => key a ≤ key b).Pairwise fun a b => key a ≤ key b := by
      have : Std.Total fun a b => key a ≤ key b := ⟨fun a b => le_total _ _⟩
      have : IsTrans P fun a b => key a ≤ key b := ⟨fun a b c => le_trans⟩
      exact List.pairwise_insertionSort _ _
    have hnames := hsorted.imp fun hle => nameVersionLE.nameLE (hnv _ _ hle)
    rw [hfirst]
    change (List.insertionSort (nameLE (h := h)) _).Pairwise _
    rw [hnames.insertionSort_eq]
    exact hsorted.imp fun hle => hnv _ _ hle
  next hfew =>
    rcases hmatching : matchingPkgs h.toPkgHash apkg with _ | ⟨a, _ | ⟨b, rest⟩⟩
    · exact .nil
    · exact List.pairwise_singleton _ a
    · simp [hmatching] at hfew

theorem exists_chosen (qsort : Qsort P) (hsome : ∃ p, IsCandidate h apkg constraintFcn p) :
    ∃ p, pkgHashFetchBestInstallationCandidate h.toPkgHash qsort apkg constraintFcn = some p := by
  obtain ⟨c, hc⟩ := hsome
  have hne : pkgHashFetchBestInstallationCandidate h.toPkgHash qsort apkg constraintFcn ≠ none := by
    rw [Ne, candidate_eq_none_iff, not_not]
    exact .inr ⟨c, hc.1, .inl hc.2⟩
  exact Option.ne_none_iff_exists'.mp hne

/-- A first one of the candidates provided by hand, or else a last one of the candidates, or else of
what there is without a candidate. -/
theorem chosen_cases {R : P → P → Prop} (hR : ∀ x, R x x) {qsort : Qsort P} {p : P}
    (hsorted : (sortedPkgs h.toPkgHash qsort apkg).Pairwise R)
    (hp : pkgHashFetchBestInstallationCandidate h.toPkgHash qsort apkg constraintFcn = some p) :
    (IsCandidate h apkg constraintFcn p ∧ (h.pkg p).providedByHand = true ∧
      ∀ q, IsCandidate h apkg constraintFcn q → (h.pkg q).providedByHand = true → R p q) ∨
    ((∀ q, IsCandidate h apkg constraintFcn q → (h.pkg q).providedByHand = false) ∧
      IsCandidate h apkg constraintFcn p ∧ ∀ q, IsCandidate h apkg constraintFcn q → R q p) ∨
    (¬∃ q, IsCandidate h apkg constraintFcn q) ∧ p ∈ matchingPkgs h.toPkgHash apkg ∧
      IsLastOf R (matchingPkgs h.toPkgHash apkg) p
        [isHeld h.toPkgHash, parentInstalled h.toPkgHash] := by
  obtain ⟨hmem, ⟨hbyHand, hfirst⟩ | ⟨hno, hlast⟩⟩ := candidate_cases hR hsorted hp
  · obtain ⟨hconstraint, htrue⟩ := (isByHand_eq p).mp hbyHand
    exact .inl ⟨⟨hmem, hconstraint⟩, htrue,
      fun q hq hbyHand => hfirst q hq.1 ((isByHand_eq q).mpr ⟨hq.2, hbyHand⟩)⟩
  · have hhand : ∀ q, IsCandidate h apkg constraintFcn q → (h.pkg q).providedByHand = false := by
      intro q hq
      simpa [isByHand, hq.2] using hno q hq.1
    rcases hlast with ⟨hconstraint, hgreatest⟩ | ⟨hnone, hrest⟩
    · exact .inr (.inl ⟨hhand, ⟨hmem, hconstraint⟩, fun q hq => hgreatest q hq.1 hq.2⟩)
    · refine .inr (.inr ⟨?_, hmem, hrest⟩)
      rintro ⟨q, hq, hconstraint⟩
      simp [hnone q hq] at hconstraint

theorem favoured_last (p : P) (hp : p ∈ matchingPkgs h.toPkgHash apkg) :
    ∃ before after, sortedPkgs h.toPkgHash (SortingQsort.favouring p).toQsort apkg =
      before ++ p :: after ∧ ∀ q ∈ after, 0 < strcmp (h.pkg q).name (h.pkg p).name := by
  rw [sortedPkgs]
  split
  next hmany => exact favour_eq (((SortingQsort.favouring p).perm _ _).mem_iff.mpr hp)
  next hfew =>
    rcases hmatching : matchingPkgs h.toPkgHash apkg with _ | ⟨a, _ | ⟨b, rest⟩⟩
    · simp [hmatching] at hp
    · obtain rfl : p = a := by simpa [hmatching] using hp
      exact ⟨[], [], rfl, by simp⟩
    · simp [hmatching] at hfew

/-- Any candidate of the greatest name is returned by some `qsort`. -/
theorem candidate_favouring
    (hhand : ∀ p, IsCandidate h apkg constraintFcn p → (h.pkg p).providedByHand = false) {p : P}
    (hp : IsGreatestName h apkg constraintFcn p) :
    pkgHashFetchBestInstallationCandidate h.toPkgHash (SortingQsort.favouring p).toQsort apkg
      constraintFcn = some p := by
  obtain ⟨before, after, hsorted, hafter⟩ := favoured_last p hp.1.1
  have hmem : ∀ q ∈ sortedPkgs h.toPkgHash (SortingQsort.favouring p).toQsort apkg,
      q ∈ matchingPkgs h.toPkgHash apkg :=
    fun q hq => (sortedPkgs_perm (SortingQsort.favouring p).toQsort apkg).mem_iff.mp hq
  have hnone : (sortedPkgs h.toPkgHash (SortingQsort.favouring p).toQsort apkg).find?
      (isByHand h.toPkgHash constraintFcn) = none := by
    rw [List.find?_eq_none]
    intro q hq hbyHand
    obtain ⟨hconstraint, htrue⟩ := (isByHand_eq q).mp hbyHand
    simp [hhand q ⟨hmem q hq, hconstraint⟩] at htrue
  have hlater : after.reverse.find? constraintFcn = none := by
    rw [List.find?_eq_none]
    intro r hr hconstraint
    have hr := List.mem_reverse.mp hr
    have hcandidate : IsCandidate h apkg constraintFcn r := by
      refine ⟨hmem r ?_, hconstraint⟩
      rw [hsorted]
      exact List.mem_append_right before (List.mem_cons_of_mem p hr)
    exact (hafter r hr).not_ge (hp.2 r hcandidate)
  rw [candidate_eq, hnone, Option.none_or, lastOf, lastWhere, hsorted]
  simp [hlater, hp.1.2]

variable (h apkg constraintFcn)

end Order

def mixedName (p : Fin 2) : List Byte := if p = 0 then ascii "a" else ascii "b"

/-- Package 0 is provided by 1, whose package is of another architecture, and by 2. -/
def mixedHash : NamedHash ⟨false, 0⟩ (Fin 3) (Fin 2) where
  apkg a :=
    { pkgs := if a = 0 then none else some [if a = 1 then 0 else 1]
      stateStatus := .notInstalled
      providedBy := if a = 0 then [1, 2] else [a]
      replacedBy := [] }
  pkg p :=
    { epoch := 0
      version := none
      revision := none
      name := mixedName p
      architecture := ascii "arm"
      archPriority := if p = 0 then 0 else 10
      stateWant := .unknown
      stateFlag := 0
      stateStatus := .notInstalled
      providedByHand := false
      depends := []
      parent := none }
  merged p q hsame := by
    have hname : (mixedName p == mixedName q) = true := (Bool.and_eq_true_iff.mp hsame).1
    clear hsame
    revert p q
    decide
  cstring := by decide

end Openmoko.Opkg
