import Openmoko.Opkg.Configure
import Openmoko.Opkg.Proof.ConstraintAgreement

/-!
# The order in which packages are configured

The recursion is a depth-first search, so it ends and puts the packages it reaches into its vector
in the order of their dependencies. The loop that configures does not follow this vector but the
names of the packages.
-/

namespace Openmoko.Opkg

open DepthFirst

def byteSeq (s : List Byte) : ℕ → ℕ := fun i => (s.getD i NUL).toNat

theorem toNat_pos_of_ne_nul {c : Byte} (hc : c ≠ NUL) : 0 < c.toNat := by
  apply Nat.pos_of_ne_zero
  intro hzero
  exact hc (UInt8.toNat_inj.mp hzero)

theorem outcome_natCast_sub (a b : ℕ) : outcome ((a : Int) - b) = cmp a b := by
  rcases lt_trichotomy a b with hlt | rfl | hgt
  · rw [(cmp_eq_lt_iff a b).mpr hlt, outcome_lt]
    omega
  · rw [cmp_self_eq_eq, outcome_eq]
    omega
  · rw [(cmp_eq_gt_iff a b).mpr hgt, outcome_gt]
    omega

theorem outcome_strcmp {s r : List Byte} (hs : NUL ∉ s) (hr : NUL ∉ r) :
    outcome (strcmp s r) = cmp (seqLex (byteSeq s)) (seqLex (byteSeq r)) := by
  induction s generalizing r with
  | nil =>
    cases r with
    | nil => rw [cmp_self_eq_eq, outcome_eq, strcmp]
    | cons d r =>
      have hpos : byteSeq [] 0 < byteSeq (d :: r) 0 :=
        toNat_pos_of_ne_nul (List.ne_of_not_mem_cons hr).symm
      have hneg : strcmp [] (d :: r) < 0 := neg_lt_zero.mpr (Int.natCast_pos.mpr hpos)
      rw [outcome_lt.mpr hneg, cmp_seq, (cmp_eq_lt_iff _ _).mpr hpos, Ordering.lt_then]
  | cons c s ih =>
    cases r with
    | nil =>
      have hpos : byteSeq [] 0 < byteSeq (c :: s) 0 :=
        toNat_pos_of_ne_nul (List.ne_of_not_mem_cons hs).symm
      have hgt : 0 < strcmp (c :: s) [] := Int.natCast_pos.mpr hpos
      rw [outcome_gt.mpr hgt, cmp_seq, (cmp_eq_gt_iff _ _).mpr hpos, Ordering.gt_then]
    | cons d r =>
      have htail : seqTail (byteSeq (c :: s)) = byteSeq s ∧
          seqTail (byteSeq (d :: r)) = byteSeq r := ⟨rfl, rfl⟩
      have hhead : byteSeq (c :: s) 0 = c.toNat ∧ byteSeq (d :: r) 0 = d.toNat := ⟨rfl, rfl⟩
      rw [cmp_seq, htail.1, htail.2, hhead.1, hhead.2, strcmp]
      by_cases heq : c = d
      · rw [if_pos heq, heq, cmp_self_eq_eq, Ordering.eq_then]
        exact ih (List.not_mem_of_not_mem_cons hs) (List.not_mem_of_not_mem_cons hr)
      · have hne : cmp c.toNat d.toNat ≠ .eq :=
          fun h => heq (UInt8.toNat_inj.mp ((cmp_eq_eq_iff _ _).mp h))
        rw [if_neg heq, outcome_natCast_sub, then_of_ne_eq hne]

theorem eq_of_strcmp_eq_zero {s r : List Byte} (hs : NUL ∉ s) (hr : NUL ∉ r)
    (hzero : strcmp s r = 0) : s = r := by
  induction s generalizing r with
  | nil =>
    cases r with
    | nil => rfl
    | cons d r =>
      have hpos := toNat_pos_of_ne_nul (List.ne_of_not_mem_cons hr).symm
      rw [strcmp] at hzero
      omega
  | cons c s ih =>
    cases r with
    | nil =>
      have hpos := toNat_pos_of_ne_nul (List.ne_of_not_mem_cons hs).symm
      rw [strcmp] at hzero
      omega
    | cons d r =>
      rw [strcmp] at hzero
      by_cases heq : c = d
      · rw [if_pos heq] at hzero
        rw [heq, ih (List.not_mem_of_not_mem_cons hs) (List.not_mem_of_not_mem_cons hr) hzero]
      · rw [if_neg heq] at hzero
        exact absurd (UInt8.toNat_inj.mp (by omega)) heq

section Statement

variable {platform : Platform} {P : Type} (t : PkgTable platform P)

/-- A dependency of the one package is met by the other, by its name or by what it provides. -/
def DependsOn (p q : P) : Prop :=
  t.name q ≠ t.name p ∧
    ∃ group ∈ (t.pkg p).depends, ∃ possibility ∈ group.possibilities,
      t.name q = possibility.pkg ∨ t.name q ∈ (t.apkg possibility.pkg).providedBy

def Unpacked (p : P) : Prop := p ∈ t.available ∧ (t.pkg p).stateStatus = .unpacked

def UnpackedAcyclic : Prop :=
  ∀ p, ¬Relation.TransGen (fun p q => Unpacked t p ∧ Unpacked t q ∧ DependsOn t p q) p p

structure ConfiguresInOrder [DecidableEq P] (calls : List P) : Prop where
  once : ∀ p, Unpacked t p → calls.count p = 1
  inOrder : ∀ p q, Unpacked t p → Unpacked t q → DependsOn t p q → Before calls q p

def satisfiers (all : List P) (p : P) : List P :=
  ((t.pkg p).depends.flatMap CompoundDepend.possibilities).filterMap fun possibility =>
    (t.apkg possibility.pkg).providedBy.findSome? (findNamed t all)

/-- The recursion ends. From a package whose name was not met it adds to the ordered vector every
package that it can reach past the names met, once, and each after the packages found for its
dependencies, unless these lead back to it. -/
structure RecursionOrders (all : List P) : Prop where
  ends : ∀ depth, all.length + 1 < depth → ∀ pkg v,
    ∃ v', opkgRecursePkgsInOrder t all depth pkg v = some v'
  ordered : ∀ depth pkg v v', isLive t pkg = true → t.name pkg ∉ v.visited.map t.name →
    opkgRecursePkgsInOrder t all depth pkg v = some v' →
    ∃ new, v'.ordered = v.ordered ++ new ∧ (new.map t.name).Nodup ∧
      (∀ p, p ∈ new ↔
        Path t.name (satisfiers t all) (t.name pkg :: v.visited.map t.name) pkg p) ∧
      ∀ p ∈ new, ∀ q ∈ satisfiers t all p, t.name q ∉ t.name pkg :: v.visited.map t.name →
        ¬Path t.name (satisfiers t all) [] q p → Before new q p

end Statement

section

variable {platform : Platform} {P : Type} (t : PkgTable platform P)

theorem pkgCompareNames_comparesBy :
    ComparesBy (pkgCompareNames t) fun p => seqLex (byteSeq (t.name p)) :=
  fun p q => outcome_strcmp (t.cstring p) (t.cstring q)

variable {t} {all : List P}

theorem descendProviders_eq (recurse : P → Vectors P → Option (Vectors P)) (v : Vectors P)
    (providers : List (List Byte)) :
    descendProviders t all recurse v providers =
      match providers.findSome? (findNamed t all) with
      | some dep => recurse dep v
      | none => some v := by
  induction providers with
  | nil => rfl
  | cons provider providers ih =>
    rw [descendProviders, List.findSome?_cons]
    cases findNamed t all provider with
    | some dep => rfl
    | none => exact ih

theorem foldlM_groups {σ α β : Type} (f : σ → β → Option σ) (groups : List α) (g : α → List β)
    (s : σ) : groups.foldlM (fun s a => (g a).foldlM f s) s = (groups.flatMap g).foldlM f s := by
  induction groups generalizing s with
  | nil => rfl
  | cons a groups ih =>
    rw [List.foldlM_cons, List.flatMap_cons, List.foldlM_append]
    apply congrArg (Option.bind ((g a).foldlM f s))
    funext s
    exact ih s

theorem findNamed_eq_some {name : List Byte} {dep : P} (hfind : findNamed t all name = some dep) :
    dep ∈ all ∧ isLive t dep = true ∧ t.name dep = name := by
  have hmem := List.mem_of_find?_eq_some hfind
  have hdep := List.find?_some hfind
  rw [Bool.and_eq_true, beq_iff_eq] at hdep
  exact ⟨hmem, hdep⟩

theorem findNamed_of_ledTo {q : P} (hq : LedTo (satisfiers t all) q) :
    findNamed t all (t.name q) = some q := by
  obtain ⟨p, hp⟩ := hq
  obtain ⟨possibility, -, hfound⟩ := List.mem_filterMap.mp hp
  obtain ⟨provider, -, hfind⟩ := List.exists_of_findSome?_eq_some hfound
  rwa [(findNamed_eq_some hfind).2.2]

theorem keysTell : KeysTell t.name (satisfiers t all) := by
  intro p q hp hq hname
  have hfind := findNamed_of_ledTo hp
  rw [hname, findNamed_of_ledTo hq] at hfind
  exact (Option.some.inj hfind).symm

theorem opkgRecursePkgsInOrder_eq_visit (depth : ℕ) {pkg : P} (hlive : isLive t pkg = true)
    (v : Vectors P) :
    opkgRecursePkgsInOrder t all depth pkg v = visit t.name (satisfiers t all) depth pkg v := by
  induction depth generalizing pkg v with
  | zero => rfl
  | succ depth ih =>
    have hloop : ∀ v : Vectors P,
        (t.pkg pkg).depends.foldlM
            (fun v group => group.possibilities.foldlM
              (fun v possibility =>
                descendProviders t all (opkgRecursePkgsInOrder t all depth) v
                  (t.apkg possibility.pkg).providedBy) v) v =
          (satisfiers t all pkg).foldlM
            (fun v y => visit t.name (satisfiers t all) depth y v) v := by
      intro v
      rw [foldlM_groups, satisfiers, List.foldlM_filterMap]
      apply foldlM_congr
      intro possibility hpossibility v
      rw [descendProviders_eq]
      cases hfound : (t.apkg possibility.pkg).providedBy.findSome? (findNamed t all) with
      | none => rfl
      | some dep =>
        obtain ⟨provider, -, hfind⟩ := List.exists_of_findSome?_eq_some hfound
        exact ih (findNamed_eq_some hfind).2.1 v
    rw [opkgRecursePkgsInOrder, visit, hlive]
    simp only [Bool.not_true, Bool.false_eq_true, if_false, hloop]
    by_cases hmem : t.name pkg ∈ v.visited.map t.name
    · rw [if_pos hmem, if_pos hmem]
    · rw [if_neg hmem, if_neg hmem]

theorem opkgRecursePkgsInOrder_finishes {depth : ℕ} (hdepth : all.length + 1 < depth) (pkg : P)
    (v : Vectors P) : ∃ v', opkgRecursePkgsInOrder t all depth pkg v = some v' := by
  by_cases hlive : isLive t pkg = true
  · rw [opkgRecursePkgsInOrder_eq_visit depth hlive]
    have hkeys : ∀ q, LedTo (satisfiers t all) q → t.name q ∈ (all.map t.name).toFinset := by
      intro q hq
      rw [List.mem_toFinset]
      exact List.mem_map_of_mem (findNamed_eq_some (findNamed_of_ledTo hq)).1
    have hcard : (all.map t.name).toFinset.card ≤ all.length := by
      calc (all.map t.name).toFinset.card ≤ (all.map t.name).length := List.toFinset_card_le _
        _ = all.length := List.length_map _
    exact visit_finishes_root hkeys (by omega) pkg v
  · obtain ⟨depth, rfl⟩ : ∃ d, depth = d + 1 := ⟨depth - 1, by omega⟩
    rw [opkgRecursePkgsInOrder]
    simp only [Bool.not_eq_true] at hlive
    exact ⟨v, by simp [hlive]⟩

variable (t) in
theorem PkgTable.available_nodup : t.available.Nodup := by
  rw [available, List.nodup_flatMap]
  refine ⟨fun name _ => t.distinct name, ?_⟩
  apply t.names_nodup.imp
  intro name name' hne p hp hp'
  exact hne ((t.filed name p hp).symm.trans (t.filed name' p hp'))

variable (t) in
theorem fetchAvailable_nodup (qsort : Qsort P) : (pkgHashFetchAvailable t qsort).Nodup :=
  (qsort.perm _ _).nodup_iff.mpr t.available_nodup

theorem mem_fetchAvailable {qsort : Qsort P} {p : P} :
    p ∈ pkgHashFetchAvailable t qsort ↔ p ∈ t.available :=
  (qsort.perm _ _).mem_iff

variable (t) in
theorem fetchAvailable_sorted (qsort : SortingQsort P) :
    (pkgHashFetchAvailable t qsort.toQsort).Pairwise fun p q => pkgCompareNames t p q ≤ 0 := by
  have hcompares := pkgCompareNames_comparesBy t
  apply qsort.sorted
  · intro p q
    rw [hcompares.le_iff, hcompares.le_iff]
    exact le_total _ _
  · exact fun p q r => hcompares.trans

theorem before_iff_of_sorted {l : List P}
    (hsorted : l.Pairwise fun p q => pkgCompareNames t p q ≤ 0) {p q : P} (hp : p ∈ l) (hq : q ∈ l)
    (hne : t.name q ≠ t.name p) : Before l q p ↔ pkgCompareNames t q p < 0 := by
  have hcompares := pkgCompareNames_comparesBy t
  have hle : ∀ {a b}, Before l a b → pkgCompareNames t a b ≤ 0 := by
    rintro a b ⟨before, after, rfl, ha⟩
    exact (List.pairwise_append.mp hsorted).2.2 a ha b List.mem_cons_self
  constructor
  · intro hbefore
    apply lt_of_le_of_ne (hle hbefore)
    intro hzero
    exact hne (eq_of_strcmp_eq_zero (t.cstring q) (t.cstring p) hzero)
  · intro hlt
    obtain ⟨before, after, rfl⟩ := List.append_of_mem hp
    rcases List.mem_append.mp hq with hq | hq
    · exact ⟨before, after, rfl, hq⟩
    · exfalso
      rcases List.mem_cons.mp hq with rfl | hq
      · exact hne rfl
      · obtain ⟨mid, rest, rfl⟩ := List.append_of_mem hq
        have hge := hle (a := p) (b := q) ⟨before ++ p :: mid, rest, by simp, by simp⟩
        rw [← not_lt, hcompares.gt_iff] at hge
        exact hge ((hcompares.lt_iff q p).mp hlt)

section Loop

variable [DecidableEq P] {postinst : P → Int}

variable (postinst) in
theorem configureStep_calls (s : Configuration P) (pkg : P) :
    (configureStep t (fun _ => false) postinst s pkg).calls =
        s.calls ++ (if s.pkgStatus pkg = .unpacked then [pkg] else []) ∧
      ∀ p ≠ pkg, (configureStep t (fun _ => false) postinst s pkg).pkgStatus p = s.pkgStatus p := by
  unfold configureStep
  simp only [Bool.false_eq_true, if_false]
  split
  · split
    · refine ⟨rfl, fun p hne => ?_⟩
      exact Function.update_of_ne hne _ _
    · split <;> exact ⟨rfl, fun p _ => rfl⟩
  · exact ⟨(List.append_nil _).symm, fun p _ => rfl⟩

variable (t postinst) in
theorem foldl_configureStep_calls {l : List P} (hnodup : l.Nodup) (s : Configuration P) :
    (l.foldl (configureStep t (fun _ => false) postinst) s).calls =
      s.calls ++ l.filter fun p => s.pkgStatus p = .unpacked := by
  induction l generalizing s with
  | nil => simp
  | cons pkg l ih =>
    obtain ⟨hpkg, hl⟩ := List.nodup_cons.mp hnodup
    obtain ⟨hcalls, hkeep⟩ := configureStep_calls postinst s pkg
    have hrest : (l.filter fun p =>
        (configureStep t (fun _ => false) postinst s pkg).pkgStatus p = .unpacked) =
          l.filter fun p => s.pkgStatus p = .unpacked := by
      apply List.filter_congr
      intro p hp
      rw [hkeep p (fun heq => hpkg (heq ▸ hp))]
    rw [List.foldl_cons, ih hl, hcalls, hrest, List.append_assoc]
    by_cases hunpacked : s.pkgStatus pkg = .unpacked
    · simp [hunpacked]
    · simp [hunpacked]

variable (t postinst) in
theorem opkgConfigurePackages_calls (qsort : Qsort P) {depth : ℕ}
    (hdepth : (pkgHashFetchAvailable t qsort).length + 1 < depth)
    (fnmatch : List Byte → List Byte → Bool) (finalize : Int) :
    ∃ s, opkgConfigurePackages t qsort depth fnmatch postinst finalize none = some s ∧
      s.calls =
        (pkgHashFetchAvailable t qsort).filter fun p => (t.pkg p).stateStatus = .unpacked := by
  obtain ⟨v, hloop, -⟩ := foldlM_finishes (fun _ : Vectors P => True)
    (pkgHashFetchAvailable t qsort) (s := ⟨[], []⟩)
    (f := fun v pkg =>
      opkgRecursePkgsInOrder t (pkgHashFetchAvailable t qsort) depth pkg v)
    (fun v pkg _ _ => by simpa using opkgRecursePkgsInOrder_finishes hdepth pkg v) trivial
  have hcalls := foldl_configureStep_calls t postinst
    (fetchAvailable_nodup t qsort) (Configuration.init t)
  rw [opkgConfigurePackages]
  simp only [hloop]
  refine ⟨_, rfl, ?_⟩
  split <;> exact hcalls

end Loop

/-- **The unpacked packages are configured in order exactly when their names are in this order.**
What the recursion does is right on every graph; that its vector is not used is what makes the names
decide. -/
theorem opkgConfigurePackages_inOrder_iff {platform : Platform} {P : Type} [DecidableEq P]
    (t : PkgTable platform P) (qsort : SortingQsort P) (fnmatch : List Byte → List Byte → Bool)
    (postinst : P → Int) (finalize : Int) :
    ((UnpackedAcyclic t →
        ∀ depth, (pkgHashFetchAvailable t qsort.toQsort).length + 1 < depth →
          ∃ s, opkgConfigurePackages t qsort.toQsort depth fnmatch postinst finalize none = some s ∧
            ConfiguresInOrder t s.calls) ∧
      ∀ all, RecursionOrders t all) ↔
    (UnpackedAcyclic t → ∀ p q, Unpacked t p → Unpacked t q → DependsOn t p q →
      strcmp (t.name q) (t.name p) < 0) := by
  have hsorted := (fetchAvailable_sorted t qsort).filter fun p => (t.pkg p).stateStatus = .unpacked
  have hmem : ∀ {p}, Unpacked t p → p ∈ (pkgHashFetchAvailable t qsort.toQsort).filter
      fun p => (t.pkg p).stateStatus = .unpacked := by
    intro p hp
    exact List.mem_filter.mpr ⟨mem_fetchAvailable.mpr hp.1, decide_eq_true hp.2⟩
  constructor
  · rintro ⟨hconfigures, -⟩ hacyclic p q hp hq hdepends
    obtain ⟨s, hrun, hinOrder⟩ := hconfigures hacyclic _ (Nat.lt_succ_self _)
    obtain ⟨s', hrun', hcalls⟩ := opkgConfigurePackages_calls t postinst qsort.toQsort
      (Nat.lt_succ_self _) fnmatch finalize
    obtain rfl : s = s' := Option.some.inj (hrun.symm.trans hrun')
    have hbefore := hinOrder.inOrder p q hp hq hdepends
    rw [hcalls] at hbefore
    exact (before_iff_of_sorted hsorted (hmem hp) (hmem hq) hdepends.1).mp hbefore
  · intro hnames
    refine ⟨fun hacyclic depth hdepth => ?_, fun all => ⟨?_, ?_⟩⟩
    · obtain ⟨s, hrun, hcalls⟩ := opkgConfigurePackages_calls t postinst qsort.toQsort hdepth
        fnmatch finalize
      refine ⟨s, hrun, ?_, ?_⟩
      · intro p hp
        rw [hcalls]
        exact List.count_eq_one_of_mem ((fetchAvailable_nodup t qsort.toQsort).filter _) (hmem hp)
      · intro p q hp hq hdepends
        rw [hcalls, before_iff_of_sorted hsorted (hmem hp) (hmem hq) hdepends.1]
        exact hnames hacyclic p q hp hq hdepends
    · exact fun depth hdepth pkg v => opkgRecursePkgsInOrder_finishes hdepth pkg v
    · intro depth pkg v v' hlive hnew hrun
      rw [opkgRecursePkgsInOrder_eq_visit depth hlive] at hrun
      exact visit_ordered keysTell hnew hrun

end

inductive Bundle where
  | app
  | lib
  deriving DecidableEq

namespace Bundle

def text : Bundle → List Byte
  | app => ascii "app"
  | lib => ascii "lib"

def package (p : Bundle) : Pkg (List Byte) where
  epoch := 0
  version := some (ascii "1.0")
  revision := some []
  name := text p
  architecture := ascii "all"
  archPriority := 1
  stateWant := .install
  stateFlag := 0
  stateStatus := .unpacked
  providedByHand := false
  depends := match p with
    | app => [{ type := .depend, possibilities := [⟨.none, [], ascii "lib"⟩] }]
    | lib => []
  parent := some (text p)

def pkgsNamed (name : List Byte) : List Bundle := [app, lib].filter fun p => text p = name

theorem text_inj {p q : Bundle} (htext : text p = text q) : p = q := by
  cases p <;> cases q <;> first | rfl | exact absurd htext (by decide)

def table (platform : Platform) : PkgTable platform Bundle where
  apkg name :=
    { pkgs := some (pkgsNamed name), stateStatus := .unpacked, providedBy := [name]
      replacedBy := [] }
  pkg := package
  merged p q hsame := by
    simp only [isSamePkg, Bool.and_eq_true, beq_iff_eq] at hsame
    exact text_inj hsame.1
  names := [ascii "app", ascii "lib"]
  names_nodup := by decide
  filed name p hp := of_decide_eq_true (List.mem_filter.mp hp).2
  distinct name := List.Nodup.filter _ (by decide)
  cstring p := by cases p <;> decide

theorem dependsOn_iff {platform : Platform} {p q : Bundle} :
    DependsOn (table platform) p q ↔ p = app ∧ q = lib := by
  constructor
  · rintro ⟨hne, group, hgroup, possibility, hpossibility, hname⟩
    cases p with
    | lib => exact absurd hgroup List.not_mem_nil
    | app =>
      obtain rfl := List.mem_singleton.mp hgroup
      obtain rfl := List.mem_singleton.mp hpossibility
      have hlib : text q = text lib := hname.elim id fun hprovides => List.mem_singleton.mp hprovides
      exact ⟨rfl, text_inj hlib⟩
  · rintro ⟨rfl, rfl⟩
    refine ⟨?_, _, List.mem_singleton.mpr rfl, _, List.mem_singleton.mpr rfl, Or.inl rfl⟩
    exact fun hname => absurd (text_inj (p := lib) (q := app) hname) (by decide)

theorem unpackedAcyclic (platform : Platform) : UnpackedAcyclic (table platform) := by
  intro p hcycle
  obtain ⟨q, hfirst, -⟩ := Relation.TransGen.head'_iff.mp hcycle
  obtain ⟨r, -, hlast⟩ := Relation.TransGen.tail'_iff.mp hcycle
  have happ := (dependsOn_iff.mp hfirst.2.2).1
  have hlib := (dependsOn_iff.mp hlast.2.2).2
  exact absurd (happ.symm.trans hlib) (by decide)

/-- The application is configured before its library. -/
theorem app_before_lib :
    ¬∀ (fnmatch : List Byte → List Byte → Bool) (postinst : Bundle → Int) (finalize : Int),
      UnpackedAcyclic (table arm) →
        ∀ depth, (pkgHashFetchAvailable (table arm) (Qsort.stable _)).length + 1 < depth →
          ∃ s, opkgConfigurePackages (table arm) (Qsort.stable _) depth fnmatch postinst finalize
              none = some s ∧
            ConfiguresInOrder (table arm) s.calls := by
  intro hall
  obtain ⟨s, hrun, horder⟩ := hall (fun _ _ => true) (fun _ => 0) 0 (unpackedAcyclic arm) 4 (by decide)
  have hcalls : (opkgConfigurePackages (table arm) (Qsort.stable _) 4 (fun _ _ => true)
      (fun _ => 0) 0 none).map Configuration.calls = some [app, lib] := by
    decide
  rw [hrun, Option.map_some, Option.some_inj] at hcalls
  have happ : Unpacked (table arm) app := ⟨by decide, rfl⟩
  have hlib : Unpacked (table arm) lib := ⟨by decide, rfl⟩
  obtain ⟨before, after, hsplit, hmem⟩ :=
    horder.inOrder app lib happ hlib (dependsOn_iff.mpr ⟨rfl, rfl⟩)
  rw [hcalls] at hsplit
  cases before with
  | nil => exact absurd hmem List.not_mem_nil
  | cons first before =>
    obtain ⟨rfl, hrest⟩ := List.cons.inj hsplit
    have happ : app ∈ [lib] := hrest ▸ List.mem_append_right before List.mem_cons_self
    exact absurd happ (by decide)

end Bundle

end Openmoko.Opkg
