import Openmoko.Opkg.Proof.RelationText
import Openmoko.Opkg.Proof.StatusText

/-!
# The status file, written and read

What a well-formed stanza says of a package is read back from what `pkg_print_status` writes of it
when everything is written: no Pre-Depends, no entry longer than the line buffer, a version that
reads as itself, and a list of provided names.
-/

namespace Openmoko.Opkg

variable {platform : Platform}

/-- A package that was parsed from a well-formed stanza: the version has a form that can be told
apart, the relations are ones, no name is empty, and the configuration files have absolute paths. -/
structure FromStanza (platform : Platform) (pkg : ParsedPkg) : Prop where
  parsed : ∃ text rest, pkgParseRaw platform (rawLines text) = some (pkg, true, rest)
  version : ∃ version revision, WellFormedVersion pkg.toPkgVersion version revision
  depends : ∀ e ∈ pkg.dependsStr, ∃ r : RelationText, r.text = e
  recommends : ∀ e ∈ pkg.recommendsStr, ∃ r : RelationText, r.text = e
  suggests : ∀ e ∈ pkg.suggestsStr, ∃ r : RelationText, r.text = e
  conflicts : ∀ e ∈ pkg.conflictsStr, ∃ r : RelationText, r.text = e
  replaces : [] ∉ pkg.replacesStr
  provides : [] ∉ pkg.providesStr
  conffiles : ∀ c ∈ pkg.conffiles, c.1.head? = some 47

structure SameStatus (reread pkg : ParsedPkg) : Prop where
  preDepends : reread.preDependsStr.map parseDepends = pkg.preDependsStr.map parseDepends
  depends : reread.dependsStr.map parseDepends = pkg.dependsStr.map parseDepends
  recommends : reread.recommendsStr.map parseDepends = pkg.recommendsStr.map parseDepends
  suggests : reread.suggestsStr.map parseDepends = pkg.suggestsStr.map parseDepends
  conflicts : reread.conflictsStr.map parseDepends = pkg.conflictsStr.map parseDepends
  replaces : reread.replacesStr = pkg.replacesStr
  provides : reread.providesStr = pkg.providesStr
  stateWant : reread.stateWant = pkg.stateWant
  stateFlag : reread.stateFlag = pkg.stateFlag
  stateStatus : reread.stateStatus = pkg.stateStatus
  version : reread.toPkgVersion = pkg.toPkgVersion
  architecture : reread.architecture = pkg.architecture
  autoInstalled : reread.autoInstalled = pkg.autoInstalled

/-- The text is read back as the same status, and the second time it is the same text. -/
def StatusRoundTrips (platform : Platform) (pkg : ParsedPkg) : Prop :=
  (∃ reread rest,
    pkgParseRaw platform (rawLines (pkgPrintStatus pkg).1) = some (reread, true, rest) ∧
    SameStatus reread pkg) ∧
  (pkgPrintStatus (pkgPrintStatus pkg).2).1 = (pkgPrintStatus pkg).1

def FitLines (size : List Byte → ℕ) : List (List Byte) → Prop
  | [] => True
  | e :: entries => size e ≤ 126 ∧ ∀ e ∈ entries, size e ≤ 125

structure WrittenWhole (platform : Platform) (pkg : ParsedPkg) : Prop where
  preDepends : pkg.preDependsStr = []
  depends : FitLines keptLength pkg.dependsStr
  recommends : FitLines keptLength pkg.recommendsStr
  suggests : FitLines keptLength pkg.suggestsStr
  conflicts : FitLines keptLength pkg.conflictsStr
  replaces : FitLines List.length pkg.replacesStr
  provides : pkg.providesStr.tail ≠ [] ∧ FitLines List.length pkg.providesStr.tail ∧
    ∀ e ∈ pkg.providesStr.tail, strstrFinds e INTERNAL_USE_ONLY = false
  stateFlag : pkg.stateFlag &&& SF_NONVOLATILE_FLAGS = pkg.stateFlag
  version : FitsInt platform pkg.epoch ∧ (pkg.epoch ≠ 0 ∨ COLON ∉ pkg.version.getD [])
  autoInstalled : pkg.autoInstalled = true → KeepsAutoLine pkg

/-! ### The package that is read -/

def rereadPkg (platform : Platform) (pkg : ParsedPkg) (time : ℕ) : ParsedPkg :=
  { pkgInit with
    name := some (trimAlloc (pkg.name.getD (ascii "(null)")))
    toPkgVersion := rereadVersion platform pkg.toPkgVersion
    dependsStr := (cutEntries pkg.dependsStr).map trimAlloc
    recommendsStr := (cutEntries pkg.recommendsStr).map trimAlloc
    suggestsStr := (cutEntries pkg.suggestsStr).map trimAlloc
    providesStr := INTERNAL_USE_ONLY :: rereadProvided pkg.providesStr.tail
    replacesStr := (cutEntries pkg.replacesStr).map trimAlloc
    conflictsStr := (cutEntries pkg.conflictsStr).map trimAlloc
    stateWant := pkg.stateWant
    stateFlag := pkg.stateFlag &&& SF_NONVOLATILE_FLAGS
    stateStatus := pkg.stateStatus
    essential := pkg.essential
    architecture := pkg.architecture
    installedTime := time
    autoInstalled := pkg.autoInstalled && decide (KeepsAutoLine pkg) }

variable (st : ParseState)

def finishProvides : ParsedPkg :=
  if st.pkgFalseProvides then { st.pkg with providesStr := [INTERNAL_USE_ONLY] } else st.pkg

theorem newline_notMem_rawLines (text : List Byte) : ∀ line ∈ rawLines text, LF ∉ line := by
  induction text with
  | nil => exact List.forall_mem_nil _
  | cons c text ih =>
    rw [rawLines]
    split
    next => exact List.forall_mem_cons.mpr ⟨List.not_mem_nil, ih⟩
    next hc =>
      cases hlines : rawLines text with
      | nil =>
        intro line hmem
        rw [List.mem_singleton.mp hmem, List.mem_singleton]
        exact Ne.symm hc
      | cons line lines =>
        rw [hlines] at ih
        obtain ⟨hline, hmore⟩ := List.forall_mem_cons.mp ih
        refine List.forall_mem_cons.mpr ⟨?_, hmore⟩
        rw [List.mem_cons, not_or]
        exact ⟨Ne.symm hc, hline⟩

theorem RelationText.text_ne (r : RelationText) : r.text ≠ [] := by
  obtain ⟨start, last, hbody, -⟩ := r.body_last
  rw [text, hbody]
  simp

def fieldsState (platform : Platform) (pkg : ParsedPkg) (provided : List (List Byte)) :
    ParseState where
  pkg := { rereadPkg platform pkg 0 with
    providesStr := if provided = [] then [] else INTERNAL_USE_ONLY :: rereadProvided provided
    autoInstalled := false }
  readingConffiles := false
  readingDescription := false
  pkgFalseProvides := decide (provided = [])

theorem ParseState.set_pkg (pkg : ParsedPkg) : (st.set pkg).pkg = pkg := rfl

theorem ParseState.set_set (pkg pkg' : ParsedPkg) :
    (st.set pkg).set pkg' = st.set pkg' := rfl

theorem providedState_pkg (provided : List (List Byte)) :
    (providedState st provided).pkg = { st.pkg with
      providesStr := if provided = [] then st.pkg.providesStr
        else INTERNAL_USE_ONLY :: rereadProvided provided } := by
  cases provided <;> rfl

theorem pkgPrintStatus_text (pkg : ParsedPkg) :
    (pkgPrintStatus pkg).1 =
      printField (ascii "Package: " ++ pkg.name.getD (ascii "(null)") ++ [LF]) ++
      (printField (ascii "Version: " ++ pkgVersionStrAlloc pkg.toPkgVersion ++ [LF]) ++
      (printField (formattedList "Depends" pkg.dependsStr) ++
      (printField (formattedList "Recommends" pkg.recommendsStr) ++
      (printField (formattedList "Suggests" pkg.suggestsStr) ++
      (printField (formattedProvides pkg.providesStr) ++
      (printField (formattedList "Replaces" pkg.replacesStr) ++
      (printField (formattedList "Conflicts" pkg.conflictsStr) ++
      (printField (formattedStatus pkg) ++
      (printField (if pkg.essential then ascii "Essential: yes" ++ [LF] else []) ++
      (printField (architectureText pkg.architecture) ++
      (printField (formattedConffiles pkg.conffiles) ++
      (timeText pkg.installedTime ++ (autoText pkg.autoInstalled ++ [LF]))))))))))))) := by
  rw [pkgPrintStatus, printStatusFields]
  simp only [List.flatMap_cons, List.flatMap_nil, List.append_assoc, List.nil_append]
  rfl

variable {provided entries : List (List Byte)} {e : List Byte}

section FromStanza

variable {pkg : ParsedPkg} (hpkg : FromStanza platform pkg)

include hpkg

theorem FromStanza.isParsed :
    Parsed platform pkg ∧ ∃ provided, pkg.providesStr = INTERNAL_USE_ONLY :: provided := by
  obtain ⟨text, rest, hparse⟩ := hpkg.parsed
  exact parsed_of_pkgParseRaw (newline_notMem_rawLines text) hparse

theorem parseLines_pkgPrintStatus (hprovided : pkg.providesStr = INTERNAL_USE_ONLY :: provided) :
    parseLines platform (rawLines (pkgPrintStatus pkg).1) ParseState.init =
      parseLines platform (rawLines (printField (formattedConffiles pkg.conffiles) ++
        (timeText pkg.installedTime ++ (autoText pkg.autoInstalled ++ [LF]))))
        (fieldsState platform pkg provided) := by
  obtain ⟨hparsed, -⟩ := hpkg.isParsed
  obtain ⟨version, revision, hversion⟩ := hpkg.version
  have hname : LF ∉ pkg.name.getD (ascii "(null)") := by
    cases hname : pkg.name with
    | none => decide
    | some name => exact hparsed.name name hname
  have hrelation : ∀ {entries : List (List Byte)}, (∀ e ∈ entries, IsEntry e) →
      (∀ e ∈ entries, ∃ r : RelationText, r.text = e) → ∀ e ∈ entries, IsEntry e ∧ e ≠ [] := by
    intro entries hentries hrelations e he
    obtain ⟨r, rfl⟩ := hrelations e he
    exact ⟨hentries _ he, r.text_ne⟩
  have hprovides : ∀ d ∈ provided, IsEntry d := by
    intro d hd
    apply hparsed.provides
    rw [hprovided]
    exact List.mem_cons_of_mem _ hd
  have hreplaces : ∀ e ∈ pkg.replacesStr, IsEntry e ∧ e ≠ [] :=
    fun e he => ⟨hparsed.replaces e he, ne_of_mem_of_not_mem he hpkg.replaces⟩
  rw [pkgPrintStatus_text, hprovided, parseLines_package hname,
    parseLines_version (newline_notMem_of_noSpace hversion.text_noSpace),
    parseLines_list "Depends" (fun pkg entries => { pkg with dependsStr := entries })
      (noSpace_of_all (by decide)) (fun _ => rfl) (fun _ _ => rfl)
      (hrelation hparsed.depends hpkg.depends),
    parseLines_list "Recommends" (fun pkg entries => { pkg with recommendsStr := entries })
      (noSpace_of_all (by decide)) (fun _ => rfl) (fun _ _ => rfl)
      (hrelation hparsed.recommends hpkg.recommends),
    parseLines_list "Suggests" (fun pkg entries => { pkg with suggestsStr := entries })
      (noSpace_of_all (by decide)) (fun _ => rfl) (fun _ _ => rfl)
      (hrelation hparsed.suggests hpkg.suggests),
    parseLines_providedState hprovides,
    parseLines_list "Replaces" (fun pkg entries => { pkg with replacesStr := entries })
      (noSpace_of_all (by decide)) (fun _ => rfl) (fun _ _ => rfl) hreplaces,
    parseLines_list "Conflicts" (fun pkg entries => { pkg with conflictsStr := entries })
      (noSpace_of_all (by decide)) (fun _ => rfl) (fun _ _ => rfl)
      (hrelation hparsed.conflicts hpkg.conflicts),
    parseLines_status, parseLines_essential, parseLines_architecture hparsed.architecture]
  · simp only [ParseState.set_pkg, ParseState.set_set, providedState_pkg]
    congr 1
    cases provided <;> rfl
  -- no field was read before
  all_goals simp only [ParseState.set_pkg, providedState_pkg]
  all_goals rfl

theorem pkgParseRaw_pkgPrintStatus :
    ∃ time rest, pkgParseRaw platform (rawLines (pkgPrintStatus pkg).1) =
      some (rereadPkg platform pkg time, true, rest) := by
  obtain ⟨hparsed, provided, hprovided⟩ := hpkg.isParsed
  have hauto : (fieldsState platform pkg provided).pkg.autoInstalled = false := rfl
  obtain ⟨st', hend, hfalse, hpkg'⟩ := parseLines_end platform hpkg.conffiles
    (fun c hc => ⟨newline_notMem_of_noSpace (hparsed.conffiles c hc).1,
      newline_notMem_of_noSpace (hparsed.conffiles c hc).2⟩) hauto
  refine ⟨st'.pkg.installedTime, [], ?_⟩
  have hfinish : finishProvides st' = rereadPkg platform pkg st'.pkg.installedTime := by
    rw [finishProvides, hfalse, hpkg', rereadPkg, hprovided]
    cases provided <;> rfl
  have hnamed : (rereadPkg platform pkg st'.pkg.installedTime).name.isSome = true := rfl
  calc pkgParseRaw platform (rawLines (pkgPrintStatus pkg).1)
      = some (finishProvides st', (finishProvides st').name.isSome, []) := by
        rw [pkgParseRaw, parseLines_pkgPrintStatus hpkg hprovided, hend]
        rfl
    _ = some (rereadPkg platform pkg st'.pkg.installedTime, true, []) := by rw [hfinish, hnamed]

end FromStanza

/-! ### What is cut -/

theorem map_cutEntries_iff {A : Type} {f : List Byte → A} {size : List Byte → ℕ}
    (hcut : ∀ e ∈ entries, ∀ k, f (trimAlloc (e.take k)) = f e ↔ size e ≤ k) :
    ((cutEntries entries).map trimAlloc).map f = entries.map f ↔ FitLines size entries := by
  have hmore : ∀ more : List (List Byte), (∀ e ∈ more, e ∈ entries) →
      (((more.map (·.take 125)).map trimAlloc).map f = more.map f ↔ ∀ e ∈ more, size e ≤ 125) := by
    intro more hmem
    rw [List.map_map, List.map_map, List.map_inj_left]
    exact forall₂_congr fun e he => hcut e (hmem e he) 125
  cases entries with
  | nil => exact iff_of_true rfl trivial
  | cons e entries =>
    rw [cutEntries, FitLines, ← hcut e List.mem_cons_self 126,
      ← hmore entries fun e he => List.mem_cons_of_mem _ he]
    simp only [List.map_cons, List.cons.injEq]

theorem trimAlloc_take_iff (he : trimAlloc e = e) (k : ℕ) :
    trimAlloc (e.take k) = e ↔ e.length ≤ k := by
  constructor
  · intro heq
    have hle := (trimAlloc_sublist (e.take k)).length_le
    rw [heq, List.length_take] at hle
    omega
  · intro hk
    rw [List.take_of_length_le hk, he]

theorem map_relations_iff (hentries : ∀ e ∈ entries, IsEntry e)
    (hrelations : ∀ e ∈ entries, ∃ r : RelationText, r.text = e) :
    ((cutEntries entries).map trimAlloc).map parseDepends = entries.map parseDepends ↔
      FitLines keptLength entries := by
  apply map_cutEntries_iff
  intro e he k
  obtain ⟨r, rfl⟩ := hrelations e he
  exact r.parseDepends_cut_iff (hentries _ he).trimmed k

theorem map_names_iff (hentries : ∀ e ∈ entries, IsEntry e) :
    (cutEntries entries).map trimAlloc = entries ↔ FitLines List.length entries := by
  have hmap : ((cutEntries entries).map trimAlloc).map id = entries.map id ↔
      FitLines List.length entries :=
    map_cutEntries_iff fun e he k => trimAlloc_take_iff (hentries e he).trimmed k
  rwa [List.map_id, List.map_id] at hmap

theorem clearEntry_of_found (hfound : strstrFinds e INTERNAL_USE_ONLY = true) :
    clearEntry e = [] := if_pos hfound

theorem clearEntry_of_not_found
    (hfound : strstrFinds e INTERNAL_USE_ONLY = false) : clearEntry e = e := by
  rw [clearEntry, hfound]
  rfl

theorem rereadProvided_of_not_found (hne : [] ∉ provided)
    (hfound : ∀ e ∈ provided, strstrFinds e INTERNAL_USE_ONLY = false) :
    rereadProvided provided = (cutEntries provided).map trimAlloc := by
  cases provided with
  | nil => rfl
  | cons e entries =>
    obtain ⟨he, hmore⟩ := List.forall_mem_cons.mp hfound
    have hclear : entries.map clearEntry = entries := by
      calc entries.map clearEntry
          = entries.map id :=
            List.map_congr_left fun d hd => clearEntry_of_not_found (hmore d hd)
        _ = entries := List.map_id entries
    have hfilter : entries.filter (· ≠ []) = entries := by
      rw [List.filter_eq_self]
      exact fun d hd => decide_eq_true (ne_of_mem_of_not_mem (List.mem_cons_of_mem e hd) hne)
    rw [rereadProvided, clearEntry_of_not_found he, hclear, hfilter, cutEntries, List.map_cons,
      List.map_map]
    rfl

theorem not_found_of_rereadProvided (hne : [] ∉ provided)
    (hsame : rereadProvided provided = provided) :
    ∀ e ∈ provided, strstrFinds e INTERNAL_USE_ONLY = false := by
  cases provided with
  | nil => exact List.forall_mem_nil _
  | cons e entries =>
    rw [rereadProvided, List.cons.injEq] at hsame
    obtain ⟨hfirst, hmore⟩ := hsame
    refine List.forall_mem_cons.mpr ⟨?_, ?_⟩
    · by_contra hfound
      rw [clearEntry_of_found (Bool.not_eq_false _ ▸ hfound)] at hfirst
      apply hne
      rw [← hfirst]
      exact List.mem_cons_self
    · have hlength := congrArg List.length hmore
      have hcount : (entries.map clearEntry).length = entries.length := List.length_map _
      rw [List.length_map, ← hcount, List.length_filter_eq_length_iff] at hlength
      intro d hd
      by_contra hfound
      have hkept := hlength (clearEntry d) (List.mem_map_of_mem hd)
      rw [clearEntry_of_found (Bool.not_eq_false _ ▸ hfound)] at hkept
      exact absurd hkept (by decide)

theorem rereadProvided_eq_iff (hall : ∀ e ∈ provided, IsEntry e) (hne : [] ∉ provided) :
    rereadProvided provided = provided ↔
      FitLines List.length provided ∧ ∀ e ∈ provided, strstrFinds e INTERNAL_USE_ONLY = false := by
  rw [← map_names_iff hall]
  constructor
  · intro hsame
    have hfound := not_found_of_rereadProvided hne hsame
    rw [← rereadProvided_of_not_found hne hfound]
    exact ⟨hsame, hfound⟩
  · intro hwhole
    rw [rereadProvided_of_not_found hne hwhole.2, hwhole.1]

theorem pkgPrintStatus_twice_iff {pkg : ParsedPkg}
    (hprovided : pkg.providesStr = INTERNAL_USE_ONLY :: provided) :
    (pkgPrintStatus (pkgPrintStatus pkg).2).1 = (pkgPrintStatus pkg).1 ↔ provided ≠ [] := by
  have hsecond : (pkgPrintStatus pkg).2 =
      { pkg with providesStr := clearedProvides (INTERNAL_USE_ONLY :: provided) } := by
    rw [← hprovided]
    rfl
  have hstatus : formattedStatus
      { pkg with providesStr := clearedProvides (INTERNAL_USE_ONLY :: provided) } =
        formattedStatus pkg := rfl
  rw [hsecond, pkgPrintStatus_text, pkgPrintStatus_text, hprovided, hstatus]
  simp only [List.append_cancel_left_eq, List.append_cancel_right_eq]
  cases provided with
  | nil => exact iff_of_false (by decide) (by simp)
  | cons e entries =>
    rw [formattedProvides_cleared]
    exact iff_of_true rfl (List.cons_ne_nil e entries)

/-! ### The round trip -/

theorem mark_iff (a : Bool) (p : Prop) [Decidable p] : (a && decide p) = a ↔ (a = true → p) := by
  cases a with
  | true => simp
  | false => simp

theorem sameStatus_iff {pkg : ParsedPkg} (hpkg : FromStanza platform pkg) (time : ℕ) :
    SameStatus (rereadPkg platform pkg time) pkg ∧ pkg.providesStr.tail ≠ [] ↔
      WrittenWhole platform pkg := by
  obtain ⟨hparsed, provided, hprovided⟩ := hpkg.isParsed
  obtain ⟨version, revision, hversion⟩ := hpkg.version
  have hentries : (∀ d ∈ provided, IsEntry d) ∧ [] ∉ provided := by
    have hall := hparsed.provides
    have hne := hpkg.provides
    rw [hprovided] at hall hne
    exact ⟨(List.forall_mem_cons.mp hall).2, List.not_mem_of_not_mem_cons hne⟩
  have hdepends := map_relations_iff hparsed.depends hpkg.depends
  have hrecommends := map_relations_iff hparsed.recommends hpkg.recommends
  have hsuggests := map_relations_iff hparsed.suggests hpkg.suggests
  have hconflicts := map_relations_iff hparsed.conflicts hpkg.conflicts
  have hreplaces := map_names_iff hparsed.replaces
  have hprovides := rereadProvided_eq_iff hentries.1 hentries.2
  have hreread := rereadVersion_eq_iff hversion hparsed.epoch
  have hmark := mark_iff pkg.autoInstalled (KeepsAutoLine pkg)
  have hgetD : pkg.version.getD [] = version := by
    rw [hversion.version_eq]
    rfl
  constructor
  · rintro ⟨hsame, hshown⟩
    rw [hprovided] at hshown
    have hnames : rereadProvided provided = provided := by
      have hlist := hsame.provides
      rw [rereadPkg, hprovided] at hlist
      exact (List.cons.inj hlist).2
    constructor
    case preDepends => exact List.map_eq_nil_iff.mp hsame.preDepends.symm
    case depends => exact hdepends.mp hsame.depends
    case recommends => exact hrecommends.mp hsame.recommends
    case suggests => exact hsuggests.mp hsame.suggests
    case conflicts => exact hconflicts.mp hsame.conflicts
    case replaces => exact hreplaces.mp hsame.replaces
    case provides =>
      rw [hprovided]
      exact ⟨hshown, hprovides.mp hnames⟩
    case stateFlag => exact hsame.stateFlag
    case version =>
      rw [hgetD]
      exact hreread.mp hsame.version
    case autoInstalled => exact hmark.mp hsame.autoInstalled
  · intro hwhole
    obtain ⟨hshown, hnames⟩ := hwhole.provides
    rw [hprovided] at hshown hnames
    refine ⟨?_, by rwa [hprovided]⟩
    have hfits := hwhole.version
    rw [hgetD] at hfits
    constructor
    case preDepends =>
      rw [hwhole.preDepends]
      rfl
    case depends => exact hdepends.mpr hwhole.depends
    case recommends => exact hrecommends.mpr hwhole.recommends
    case suggests => exact hsuggests.mpr hwhole.suggests
    case conflicts => exact hconflicts.mpr hwhole.conflicts
    case replaces => exact hreplaces.mpr hwhole.replaces
    case provides =>
      rw [rereadPkg, hprovided]
      exact congrArg (INTERNAL_USE_ONLY :: ·) (hprovides.mpr hnames)
    case stateWant => rfl
    case stateFlag => exact hwhole.stateFlag
    case stateStatus => rfl
    case version => exact hreread.mpr hfits
    case architecture => rfl
    case autoInstalled => exact hmark.mpr hwhole.autoInstalled

/-- **A package of a well-formed stanza is read back from the status file, and is written the same
twice, exactly when everything of it is written.** -/
theorem statusRoundTrips_iff {pkg : ParsedPkg} (hpkg : FromStanza platform pkg) :
    StatusRoundTrips platform pkg ↔ WrittenWhole platform pkg := by
  obtain ⟨-, provided, hprovided⟩ := hpkg.isParsed
  obtain ⟨time, rest, hparse⟩ := pkgParseRaw_pkgPrintStatus hpkg
  have htail : pkg.providesStr.tail = provided := by rw [hprovided, List.tail_cons]
  rw [← sameStatus_iff hpkg time, htail, StatusRoundTrips, pkgPrintStatus_twice_iff hprovided]
  apply and_congr_left'
  constructor
  · rintro ⟨reread, rest', hreread, hsame⟩
    rw [hparse] at hreread
    obtain ⟨rfl, -⟩ := Prod.mk.inj (Option.some.inj hreread)
    exact hsame
  · intro hsame
    exact ⟨_, rest, hparse, hsame⟩

namespace Stanza

def read (text : List Byte) : ParsedPkg :=
  ((pkgParseRaw arm (rawLines text)).map Prod.fst).getD pkgInit

def editorText : List Byte := ascii
  "Package: vi\nVersion: 1:2.0-1\nDepends: libc6 (>= 2.3)\nProvides: editor\nAuto-Installed: yes\n"

def editor : ParsedPkg := read editorText

theorem noTrailing : ∀ c ∈ ([] : List Byte), isspace c = true := List.forall_mem_nil _

def libc : RelationText where
  earlier := []
  last :=
    { name := ⟨ascii "libc6", by decide, List.all_eq_true.mp (by decide)⟩
      version := some
        { lead := ⟨ascii " ", List.all_eq_true.mp (by decide)⟩
          op := ascii ">="
          op_mem := by decide
          gap := ⟨ascii " ", List.all_eq_true.mp (by decide)⟩
          version := ⟨ascii "2.3", by decide, List.all_eq_true.mp (by decide)⟩
          trailing := ⟨[], noTrailing⟩ } }
  star := none

theorem editor_fromStanza : FromStanza arm editor where
  parsed := ⟨editorText, [], rfl⟩
  version := ⟨ascii "2.0", ascii "1",
    { version_eq := rfl
      version_ne := by decide
      version_noSpace := noSpace_of_all (by decide)
      revision_eq := rfl
      revision_chars := List.forall_mem_singleton.mpr (by decide)
      noHyphen := by decide }⟩
  depends := List.forall_mem_singleton.mpr ⟨libc, rfl⟩
  recommends := List.forall_mem_nil _
  suggests := List.forall_mem_nil _
  conflicts := List.forall_mem_nil _
  replaces := List.not_mem_nil
  provides := by decide
  conffiles := List.forall_mem_nil _

theorem editor_roundTrips : StatusRoundTrips arm editor := by
  apply (statusRoundTrips_iff editor_fromStanza).mpr
  constructor
  case preDepends => rfl
  case depends => exact ⟨by decide, List.forall_mem_nil _⟩
  case recommends => trivial
  case suggests => trivial
  case conflicts => trivial
  case replaces => trivial
  case provides => exact ⟨by decide, ⟨by decide, List.forall_mem_nil _⟩, by decide⟩
  case stateFlag => rfl
  case version => exact ⟨Or.inl (by decide), Or.inl (by decide)⟩
  case autoInstalled => exact fun _ => by decide

def serviceText : List Byte := ascii "Package: gsmd\nVersion: 0.1\nPre-Depends: libc6\n"

def service : ParsedPkg := read serviceText

/-- Pre-Depends is not written, and without a provided name a second call writes an empty field. -/
theorem preDepends_lost : FromStanza arm service ∧ ¬StatusRoundTrips arm service := by
  have hservice : FromStanza arm service := {
    parsed := ⟨serviceText, [], rfl⟩
    version := ⟨ascii "0.1", [],
      { version_eq := rfl
        version_ne := by decide
        version_noSpace := noSpace_of_all (by decide)
        revision_eq := rfl
        revision_chars := List.forall_mem_nil _
        noHyphen := by decide }⟩
    depends := List.forall_mem_nil _
    recommends := List.forall_mem_nil _
    suggests := List.forall_mem_nil _
    conflicts := List.forall_mem_nil _
    replaces := List.not_mem_nil
    provides := by decide
    conffiles := List.forall_mem_nil _ }
  refine ⟨hservice, ?_⟩
  rintro ⟨⟨reread, rest, hreread, hsame⟩, -⟩
  obtain ⟨time, rest', hparse⟩ := pkgParseRaw_pkgPrintStatus hservice
  rw [hreread] at hparse
  obtain ⟨rfl, -⟩ := Prod.mk.inj (Option.some.inj hparse)
  have hlength := congrArg List.length hsame.preDepends
  cases hlength

end Stanza

end Openmoko.Opkg
