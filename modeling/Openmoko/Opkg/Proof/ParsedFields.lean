import Openmoko.Opkg.Proof.ParseLines

/-!
# What a parsed package holds

Whatever its lines are, a parsed package has entries that are trimmed and hold no comma, and its
list of provided names begins with the entry of the parser's own. Each field of the parser keeps
this, and so do the lines.
-/

namespace Openmoko.Opkg

theorem trimAlloc_sublist (s : List Byte) : (trimAlloc s).Sublist s := by
  have hback : (trimAlloc s).Sublist (s.dropWhile isspace) := by
    rw [trimAlloc, ← List.reverse_sublist, List.reverse_reverse]
    exact List.dropWhile_sublist _
  exact hback.trans (List.dropWhile_sublist _)

variable {s raw c line : List Byte} {turns : ℕ} {entries : List (List Byte)} {pkg : ParsedPkg}

theorem mem_of_mem_trimAlloc {c : Byte} (hc : c ∈ trimAlloc s) : c ∈ s :=
  (trimAlloc_sublist s).subset hc

theorem dropWhile_eq_self (hhead : ∀ c ∈ s.head?, isspace c = false) : s.dropWhile isspace = s := by
  cases s with
  | nil => rfl
  | cons c s =>
    have hc : isspace c = false := hhead c rfl
    simp [hc]

theorem head_dropWhile (s : List Byte) : ∀ c ∈ (s.dropWhile isspace).head?, isspace c = false := by
  intro c hc
  have hnot := List.head?_dropWhile_not isspace s
  rw [Option.mem_def.mp hc] at hnot
  simpa using hnot

/-- A text without whitespace at either end is left as it is. -/
theorem trimAlloc_eq_self (hhead : ∀ c ∈ s.head?, isspace c = false)
    (hlast : ∀ c ∈ s.getLast?, isspace c = false) : trimAlloc s = s := by
  rw [trimAlloc, dropWhile_eq_self hhead, dropWhile_eq_self, List.reverse_reverse]
  rwa [List.head?_reverse]

theorem trimAlloc_head (s : List Byte) : ∀ c ∈ (trimAlloc s).head?, isspace c = false := by
  intro c hc
  -- what the second scan leaves is a prefix of what the first one leaves
  have hstarts : trimAlloc s <+: s.dropWhile isspace := by
    rw [trimAlloc, ← List.reverse_suffix, List.reverse_reverse]
    exact List.dropWhile_suffix _
  obtain ⟨rest, hrest⟩ := hstarts
  apply head_dropWhile s
  rw [← hrest, Option.mem_def, List.head?_append, Option.mem_def.mp hc]
  rfl

theorem trimAlloc_last (s : List Byte) : ∀ c ∈ (trimAlloc s).getLast?, isspace c = false := by
  intro c hc
  rw [trimAlloc, List.getLast?_reverse] at hc
  exact head_dropWhile _ c hc

theorem trimAlloc_trimAlloc (s : List Byte) : trimAlloc (trimAlloc s) = trimAlloc s :=
  trimAlloc_eq_self (trimAlloc_head s) (trimAlloc_last s)

theorem parseEntries_step {buff rest : List Byte} (hne : raw ≠ [])
    (hbuff : (raw.dropWhile isspace).takeWhile (· ≠ COMMA) = buff)
    (hrest : ((raw.dropWhile isspace).dropWhile (· ≠ COMMA)).tail = rest)
    (hfits : buff.length < 2048) :
    parseEntries (turns + 1) raw = (parseEntries turns rest).map (trimAlloc buff :: ·) := by
  have hguard : (guard (buff.length < 2048) : Option Unit) = some () := if_pos hfits
  rw [parseEntries, if_neg hne]
  simp only [hbuff, hrest, hguard]
  cases parseEntries turns rest <;> rfl

structure FitsEntry (c : List Byte) : Prop where
  head : ∀ b ∈ c.head?, isspace b = false
  noComma : COMMA ∉ c
  short : c.length < 2048

def tailText (entries : List (List Byte)) : List Byte := entries.flatMap fun c => COMMA :: 32 :: c

theorem tailText_cons (c : List Byte) (entries : List (List Byte)) :
    tailText (c :: entries) = COMMA :: 32 :: (c ++ tailText entries) := by
  simp [tailText]

theorem dropWhile_join (hc : FitsEntry c) (entries : List (List Byte)) :
    (c ++ tailText entries).dropWhile isspace = c ++ tailText entries := by
  apply dropWhile_eq_self
  intro b hb
  cases c with
  | nil =>
    cases entries with
    | nil => cases hb
    | cons e entries =>
      obtain rfl : COMMA = b := Option.some.inj hb
      decide
  | cons d c => exact hc.head b hb

theorem parseEntries_cons (hc : FitsEntry c) :
    parseEntries (turns + 1) (32 :: (c ++ tailText entries)) =
      (parseEntries turns (tailText entries).tail).map (trimAlloc c :: ·) := by
  have hdrop : (32 :: (c ++ tailText entries)).dropWhile isspace = c ++ tailText entries :=
    dropWhile_join hc entries
  have hall : ∀ b ∈ c, decide (b ≠ COMMA) = true :=
    fun b hb => decide_eq_true fun heq => hc.noComma (heq ▸ hb)
  have hstop : (tailText entries).takeWhile (· ≠ COMMA) = [] ∧
      (tailText entries).dropWhile (· ≠ COMMA) = tailText entries := by
    cases entries with
    | nil => exact ⟨rfl, rfl⟩
    | cons e entries => simp [tailText_cons]
  apply parseEntries_step (List.cons_ne_nil _ _) _ _ hc.short
  · rw [hdrop, List.takeWhile_append_of_pos hall, hstop.1, List.append_nil]
  · rw [hdrop, List.dropWhile_append_of_pos hall, hstop.2]

/-- Entries that fit the buffer are read as they are joined. -/
theorem parseEntries_join
    (hall : ∀ e ∈ c :: entries, FitsEntry e) (hturns : entries.length < turns) :
    parseEntries turns (32 :: (c ++ tailText entries)) = some ((c :: entries).map trimAlloc) := by
  induction entries generalizing c turns with
  | nil =>
    obtain ⟨turns, rfl⟩ := Nat.exists_eq_add_of_lt hturns
    rw [parseEntries_cons (hall c List.mem_cons_self)]
    cases turns <;> rfl
  | cons e entries ih =>
    obtain ⟨hc, hmore⟩ := List.forall_mem_cons.mp hall
    obtain ⟨turns, rfl⟩ := Nat.exists_eq_add_of_lt hturns
    have htail : (tailText (e :: entries)).tail = 32 :: (e ++ tailText entries) := by
      rw [tailText_cons]
      rfl
    rw [parseEntries_cons hc, htail, ih hmore (by simp; omega)]
    rfl

structure IsEntry (e : List Byte) : Prop where
  trimmed : trimAlloc e = e
  noComma : COMMA ∉ e
  noNewline : LF ∉ e

theorem IsEntry.nil : IsEntry [] := ⟨rfl, List.not_mem_nil, List.not_mem_nil⟩

theorem isEntry_trimAlloc {buff : List Byte} (hcomma : COMMA ∉ buff) (hline : LF ∉ buff) :
    IsEntry (trimAlloc buff) where
  trimmed := trimAlloc_trimAlloc buff
  noComma hmem := hcomma (mem_of_mem_trimAlloc hmem)
  noNewline hmem := hline (mem_of_mem_trimAlloc hmem)

/-- Whatever the text is, the entries read from it are trimmed and hold no comma. -/
theorem parseEntries_isEntry (hraw : LF ∉ raw) (hparse : parseEntries turns raw = some entries) :
    ∀ e ∈ entries, IsEntry e := by
  induction turns generalizing raw entries with
  | zero =>
    cases hparse
    exact List.forall_mem_nil _
  | succ turns ih =>
    rw [parseEntries] at hparse
    split at hparse
    · cases hparse
      exact List.forall_mem_nil _
    obtain ⟨-, hparse⟩ := guard_bind_eq_some.mp hparse
    obtain ⟨rest, hrest, heq⟩ := Option.bind_eq_some_iff.mp hparse
    cases heq
    have hstart : LF ∉ raw.dropWhile isspace :=
      fun hmem => hraw ((List.dropWhile_sublist _).subset hmem)
    refine List.forall_mem_cons.mpr ⟨isEntry_trimAlloc ?_ ?_, ih ?_ hrest⟩
    · intro hmem
      have hstop := List.mem_takeWhile_imp hmem
      exact absurd hstop (by simp)
    · exact fun hmem => hstart ((List.takeWhile_sublist _).subset hmem)
    · exact fun hmem => hstart ((List.dropWhile_sublist _).subset (List.mem_of_mem_tail hmem))

theorem parseDependsString_isEntry
    (hraw : LF ∉ raw) (hparse : parseDependsString raw = some entries) :
    ∀ e ∈ entries, IsEntry e := by
  unfold parseDependsString at hparse
  simp only at hparse
  split at hparse
  · cases hparse
    exact List.forall_mem_nil _
  · exact parseEntries_isEntry (fun hmem => hraw ((List.dropWhile_sublist _).subset hmem)) hparse

def StartsWithMarker (st : ParseState) : Prop :=
  st.pkgFalseProvides = false → st.pkg.providesStr.head? = some INTERNAL_USE_ONLY

def KeepsMarker (field : FieldType) : Prop :=
  ∀ st line st', StartsWithMarker st → field.parse st line = some st' → StartsWithMarker st'

section Marker

variable {platform : Platform} {type : String}

theorem keepsMarker_kept {name : String} {field : TextField} :
    KeepsMarker (.kept type name field) := by
  intro st line st' hst hparse
  cases hparse
  exact hst

theorem keepsMarker_description : KeepsMarker .description := by
  intro st line st' hst hparse
  cases hparse
  exact hst

theorem keepsMarker_plain {store : ParsedPkg → List Byte → ParsedPkg}
    (hprovides : ∀ pkg line, (store pkg line).providesStr = pkg.providesStr) :
    KeepsMarker (.plain type store) := by
  intro st line st' hst hparse hfalse
  cases hparse
  rw [← hst hfalse, ← hprovides st.pkg line]
  rfl

theorem keepsMarker_relation {store : ParsedPkg → List (List Byte) → ParsedPkg}
    (hprovides : ∀ pkg entries, (store pkg entries).providesStr = pkg.providesStr) :
    KeepsMarker (.relation type store) := by
  intro st line st' hst hparse hfalse
  obtain ⟨entries, -, rfl⟩ := Option.map_eq_some_iff.mp hparse
  rw [← hst hfalse, ← hprovides st.pkg entries]
  rfl

theorem parseDependsString_alterProvidesLine
    (hparse : parseDependsString (alterProvidesLine line) = some entries) :
    entries.head? = some INTERNAL_USE_ONLY := by
  unfold alterProvidesLine at hparse
  simp only at hparse
  generalize (if hasPrefix line (ascii "Provides:") = true then line.drop 9 else line).dropWhile
    isspace = rest at hparse
  have hstart : (ascii "Provides: opkg_internal_use_only, " ++ rest).dropWhile (!isspace ·) =
      ascii " opkg_internal_use_only, " ++ rest := rfl
  have hblank : lineIsBlank (ascii " opkg_internal_use_only, " ++ rest) = false := rfl
  have hne : ascii " opkg_internal_use_only, " ++ rest ≠ [] := List.cons_ne_nil _ _
  have hlength : (ascii " opkg_internal_use_only, " ++ rest).length = 24 + rest.length + 1 := by
    rw [List.length_append, Nat.add_right_comm]
    rfl
  have hbuff : ((ascii " opkg_internal_use_only, " ++ rest).dropWhile isspace).takeWhile
      (· ≠ COMMA) = INTERNAL_USE_ONLY := rfl
  unfold parseDependsString at hparse
  simp only [hstart, hblank, hlength, Bool.false_eq_true, if_false] at hparse
  rw [parseEntries_step hne hbuff rfl (by decide)] at hparse
  obtain ⟨more, -, rfl⟩ := Option.map_eq_some_iff.mp hparse
  rfl

/-- Provides of its own come behind the parser's entry. -/
theorem keepsMarker_provides : KeepsMarker .provides := by
  intro st line st' hst hparse _
  obtain ⟨entries, hentries, rfl⟩ := Option.map_eq_some_iff.mp hparse
  exact parseDependsString_alterProvidesLine hentries

theorem parseStatus_eq_some {pkg' : ParsedPkg} (hparse : parseStatus pkg line = some pkg') :
    ∃ want flag status,
      pkg' = { pkg with stateWant := want, stateFlag := flag, stateStatus := status } := by
  unfold parseStatus at hparse
  obtain ⟨-, hwords⟩ := guard_bind_eq_some.mp hparse
  obtain ⟨sw, -, hwords⟩ := Option.bind_eq_some_iff.mp hwords
  obtain ⟨sf, -, hwords⟩ := Option.bind_eq_some_iff.mp hwords
  obtain ⟨ss, -, hwords⟩ := Option.bind_eq_some_iff.mp hwords
  obtain ⟨-, heq⟩ := guard_bind_eq_some.mp hwords
  exact ⟨_, _, _, (Option.some.inj heq).symm⟩

theorem keepsMarker_status : KeepsMarker .status := by
  intro st line st' hst hparse
  obtain ⟨pkg, hstatus, rfl⟩ := Option.map_eq_some_iff.mp hparse
  obtain ⟨want, flag, status, rfl⟩ := parseStatus_eq_some hstatus
  exact hst

theorem keepsMarker_conffiles : KeepsMarker .conffiles := by
  intro st line st' hst hparse
  obtain ⟨conffiles, -, rfl⟩ := Option.map_eq_some_iff.mp hparse
  exact hst

end Marker

/-! ### A parsed package -/

structure Parsed (platform : Platform) (pkg : ParsedPkg) : Prop where
  name : ∀ name ∈ pkg.name, LF ∉ name
  architecture : ∀ a ∈ pkg.architecture, LF ∉ a ∧ trimAlloc a = a
  epoch : pkg.epoch ≤ platform.ulongMax
  depends : ∀ e ∈ pkg.dependsStr, IsEntry e
  recommends : ∀ e ∈ pkg.recommendsStr, IsEntry e
  suggests : ∀ e ∈ pkg.suggestsStr, IsEntry e
  conflicts : ∀ e ∈ pkg.conflictsStr, IsEntry e
  replaces : ∀ e ∈ pkg.replacesStr, IsEntry e
  provides : ∀ e ∈ pkg.providesStr, IsEntry e
  conffiles : ∀ c ∈ pkg.conffiles, (∀ b ∈ c.1, isspace b = false) ∧ ∀ b ∈ c.2, isspace b = false

structure ParsedState (platform : Platform) (st : ParseState) : Prop where
  pkg : Parsed platform st.pkg
  provides : st.pkgFalseProvides = false → st.pkg.providesStr.head? = some INTERNAL_USE_ONLY

theorem parsedState_init (platform : Platform) : ParsedState platform ParseState.init where
  pkg := by constructor <;> simp [ParseState.init, pkgInit]
  provides := by simp [ParseState.init]

def KeepsParsed (platform : Platform) (field : FieldType) : Prop :=
  ∀ st line st', LF ∉ line → ParsedState platform st → field.parse st line = some st' →
    ParsedState platform st'

section Fields

variable {platform : Platform} {type : String}

theorem keepsParsed_kept {name : String} {field : TextField} :
    KeepsParsed platform (.kept type name field) := by
  intro st line st' _ hst hparse
  cases hparse
  exact ⟨{ hst.pkg with }, hst.provides⟩

theorem keepsParsed_description : KeepsParsed platform .description := by
  intro st line st' _ hst hparse
  cases hparse
  exact ⟨{ hst.pkg with }, hst.provides⟩

theorem keepsParsed_plain {store : ParsedPkg → List Byte → ParsedPkg}
    (hstore : ∀ pkg line, LF ∉ line → Parsed platform pkg → Parsed platform (store pkg line))
    (hprovides : ∀ pkg line, (store pkg line).providesStr = pkg.providesStr) :
    KeepsParsed platform (.plain type store) := by
  intro st line st' hline hst hparse
  have hmarker := keepsMarker_plain hprovides st line st' hst.provides hparse
  cases hparse
  exact ⟨hstore st.pkg line hline hst.pkg, hmarker⟩

theorem keepsParsed_relation {store : ParsedPkg → List (List Byte) → ParsedPkg}
    (hstore : ∀ pkg entries, (∀ e ∈ entries, IsEntry e) → Parsed platform pkg →
      Parsed platform (store pkg entries))
    (hprovides : ∀ pkg entries, (store pkg entries).providesStr = pkg.providesStr) :
    KeepsParsed platform (.relation type store) := by
  intro st line st' hline hst hparse
  have hmarker := keepsMarker_relation hprovides st line st' hst.provides hparse
  obtain ⟨entries, hentries, rfl⟩ := Option.map_eq_some_iff.mp hparse
  exact ⟨hstore st.pkg entries (parseDependsString_isEntry hline hentries) hst.pkg, hmarker⟩

theorem keepsParsed_provides : KeepsParsed platform .provides := by
  intro st line st' hline hst hparse
  obtain ⟨entries, hentries, rfl⟩ := Option.map_eq_some_iff.mp hparse
  have halter : LF ∉ alterProvidesLine line := by
    unfold alterProvidesLine
    simp only [List.mem_append, not_or]
    refine ⟨by decide, fun hmem => ?_⟩
    have hmem := (List.dropWhile_sublist _).subset hmem
    split at hmem
    · exact hline (List.mem_of_mem_drop hmem)
    · exact hline hmem
  exact ⟨{ hst.pkg with provides := parseDependsString_isEntry halter hentries },
    fun _ => parseDependsString_alterProvidesLine hentries⟩

theorem keepsParsed_status : KeepsParsed platform .status := by
  intro st line st' _ hst hparse
  obtain ⟨pkg, hstatus, rfl⟩ := Option.map_eq_some_iff.mp hparse
  obtain ⟨want, flag, status, rfl⟩ := parseStatus_eq_some hstatus
  exact ⟨{ hst.pkg with }, hst.provides⟩

theorem parseConffileWords_noSpace {conffiles : List (List Byte × List Byte)}
    (hparse : parseConffileWords turns raw = some conffiles) :
    ∀ c ∈ conffiles, (∀ b ∈ c.1, isspace b = false) ∧ ∀ b ∈ c.2, isspace b = false := by
  induction turns generalizing raw conffiles with
  | zero =>
    cases hparse
    exact List.forall_mem_nil _
  | succ turns ih =>
    rw [parseConffileWords] at hparse
    cases hname : scanWord raw with
    | none =>
      rw [hname] at hparse
      cases hparse
      exact List.forall_mem_nil _
    | some first =>
      obtain ⟨fileName, raw⟩ := first
      simp only [hname] at hparse
      cases hvalue : scanWord raw with
      | none =>
        simp only [hvalue] at hparse
        split at hparse
        · cases hparse
          exact List.forall_mem_nil _
        · cases hparse
      | some second =>
        obtain ⟨md5sum, after⟩ := second
        simp only [hvalue] at hparse
        obtain ⟨-, hrest⟩ := guard_bind_eq_some.mp hparse
        obtain ⟨L, hmore, heq⟩ := Option.bind_eq_some_iff.mp hrest
        cases heq
        obtain ⟨-, -, -, hfirst, -⟩ := scanWord_split hname
        obtain ⟨-, -, -, hsecond, -⟩ := scanWord_split hvalue
        exact List.forall_mem_cons.mpr ⟨⟨hfirst, hsecond⟩, ih hmore⟩

theorem Parsed.append_conffiles (hpkg : Parsed platform pkg)
    {conffiles : List (List Byte × List Byte)} (hparse : parseConffiles line = some conffiles) :
    Parsed platform { pkg with conffiles := pkg.conffiles ++ conffiles } where
  __ := hpkg
  conffiles := List.forall_mem_append.mpr ⟨hpkg.conffiles, parseConffileWords_noSpace hparse⟩

theorem keepsParsed_conffiles : KeepsParsed platform .conffiles := by
  intro st line st' _ hst hparse
  obtain ⟨conffiles, hconffiles, rfl⟩ := Option.map_eq_some_iff.mp hparse
  exact ⟨hst.pkg.append_conffiles hconffiles, hst.provides⟩

theorem strtoul_le (s : List Byte) : (strtoul platform s).1 ≤ platform.ulongMax := by
  have hresult : ∀ (negative : Bool) (value : ℕ),
      (if platform.ulongMax < value then platform.ulongMax
        else if negative then (platform.ulongMax + 1 - value) % (platform.ulongMax + 1)
        else value) ≤ platform.ulongMax := by
    intro negative value
    split
    · exact Nat.le_refl _
    split
    · exact Nat.lt_succ_iff.mp (Nat.mod_lt _ (Nat.succ_pos _))
    · omega
  have hpair : ∀ (p : Prop) [Decidable p] (a b : ℕ × List Byte), a.1 ≤ platform.ulongMax →
      b.1 ≤ platform.ulongMax → (if p then a else b).1 ≤ platform.ulongMax := by
    intro p _ a b ha hb
    split
    · exact ha
    · exact hb
  exact hpair _ _ _ (Nat.zero_le _) (hresult _ _)

theorem parseEpoch_le {rest : List Byte} {epoch : ℕ}
    (hparse : parseEpoch platform raw = some (epoch, rest)) : epoch ≤ platform.ulongMax := by
  unfold parseEpoch at hparse
  split at hparse
  · cases hparse
    exact Nat.zero_le _
  · simp only at hparse
    split at hparse
    · cases hparse
    split at hparse
    · cases hparse
    · cases hparse
      exact strtoul_le _

/-- `strtoul` stops at `ULONG_MAX`, and so does the epoch. -/
theorem parseVersion_epoch {pkg version : PkgVersion}
    (hparse : parseVersion platform pkg raw = some version) :
    version.epoch ≤ platform.ulongMax := by
  unfold parseVersion at hparse
  split at hparse
  · cases hparse
  simp only at hparse
  split at hparse
  · cases hparse
  next epoch raw' hepoch =>
    have hle := parseEpoch_le hepoch
    split at hparse
    · cases hparse
      exact hle
    · cases hparse
      exact hle

theorem parseGenericFieldType_isText {type : List Byte} (hline : LF ∉ line) :
    LF ∉ parseGenericFieldType type line ∧
      trimAlloc (parseGenericFieldType type line) = parseGenericFieldType type line :=
  ⟨fun hmem => hline (List.mem_of_mem_drop (mem_of_mem_trimAlloc hmem)), trimAlloc_trimAlloc _⟩

/-- Every field the parser knows keeps what is said of a parsed package. -/
theorem fieldTypes_keepParsed (platform : Platform) :
    ∀ field ∈ fieldTypes platform, KeepsParsed platform field := by
  simp only [fieldTypes, List.forall_mem_cons]
  refine ⟨?package, keepsParsed_kept, keepsParsed_provides, ?preDepends, ?architecture,
    ?autoInstalled, keepsParsed_kept, keepsParsed_kept, keepsParsed_kept, keepsParsed_kept,
    keepsParsed_status, ?suggests, keepsParsed_kept, keepsParsed_kept, keepsParsed_kept,
    keepsParsed_kept, keepsParsed_kept, ?installedTime, ?essential, ?version,
    keepsParsed_conffiles, ?conflicts, keepsParsed_description, ?depends, ?recommends, ?replaces,
    List.forall_mem_nil _⟩
  case package =>
    refine keepsParsed_plain (fun pkg line hline hpkg => { hpkg with name := ?_ }) fun _ _ => rfl
    rintro name ⟨⟩
    exact (parseGenericFieldType_isText hline).1
  case preDepends =>
    exact keepsParsed_relation (fun pkg entries _ hpkg => { hpkg with }) fun _ _ => rfl
  case architecture =>
    refine keepsParsed_plain (fun pkg line hline hpkg => { hpkg with architecture := ?_ })
      fun _ _ => rfl
    rintro architecture ⟨⟩
    exact parseGenericFieldType_isText hline
  case autoInstalled =>
    exact keepsParsed_plain (fun pkg line _ hpkg => { hpkg with }) fun _ _ => rfl
  case suggests =>
    exact keepsParsed_relation (fun pkg entries hentries hpkg => { hpkg with suggests := hentries })
      fun _ _ => rfl
  case installedTime =>
    exact keepsParsed_plain (fun pkg line _ hpkg => { hpkg with }) fun _ _ => rfl
  case essential =>
    exact keepsParsed_plain (fun pkg line _ hpkg => { hpkg with }) fun _ _ => rfl
  case version =>
    refine keepsParsed_plain (fun pkg line _ hpkg => { hpkg with epoch := ?_ }) fun _ _ => rfl
    cases hparse : parseVersion platform pkg.toPkgVersion line with
    | none => exact hpkg.epoch
    | some version => exact parseVersion_epoch hparse
  case conflicts =>
    exact keepsParsed_relation
      (fun pkg entries hentries hpkg => { hpkg with conflicts := hentries }) fun _ _ => rfl
  case depends =>
    exact keepsParsed_relation (fun pkg entries hentries hpkg => { hpkg with depends := hentries })
      fun _ _ => rfl
  case recommends =>
    exact keepsParsed_relation
      (fun pkg entries hentries hpkg => { hpkg with recommends := hentries }) fun _ _ => rfl
  case replaces =>
    exact keepsParsed_relation (fun pkg entries hentries hpkg => { hpkg with replaces := hentries })
      fun _ _ => rfl

theorem fieldTypes_keepMarker (platform : Platform) :
    ∀ field ∈ fieldTypes platform, KeepsMarker field := by
  simp only [fieldTypes, List.forall_mem_cons]
  exact ⟨keepsMarker_plain fun _ _ => rfl, keepsMarker_kept, keepsMarker_provides,
    keepsMarker_relation fun _ _ => rfl, keepsMarker_plain fun _ _ => rfl,
    keepsMarker_plain fun _ _ => rfl, keepsMarker_kept, keepsMarker_kept, keepsMarker_kept,
    keepsMarker_kept, keepsMarker_status, keepsMarker_relation fun _ _ => rfl, keepsMarker_kept,
    keepsMarker_kept, keepsMarker_kept, keepsMarker_kept, keepsMarker_kept,
    keepsMarker_plain fun _ _ => rfl, keepsMarker_plain fun _ _ => rfl,
    keepsMarker_plain fun _ _ => rfl, keepsMarker_conffiles, keepsMarker_relation fun _ _ => rfl,
    keepsMarker_description, keepsMarker_relation fun _ _ => rfl,
    keepsMarker_relation fun _ _ => rfl, keepsMarker_relation fun _ _ => rfl,
    List.forall_mem_nil _⟩

theorem parseLine_startsWithMarker {st st' : ParseState}
    (hst : StartsWithMarker st) (hparse : parseLine platform st line = some st') :
    StartsWithMarker st' := by
  unfold parseLine at hparse
  split at hparse
  next field hfind =>
    exact fieldTypes_keepMarker platform field (List.mem_of_find?_eq_some hfind) st line st' hst
      hparse
  next =>
    unfold continueLine at hparse
    split at hparse
    · split at hparse
      · cases hparse
        exact hst
      split at hparse
      · obtain ⟨conffiles, -, rfl⟩ := Option.map_eq_some_iff.mp hparse
        exact hst
      · cases hparse
        exact hst
    · cases hparse
      exact hst

/-- What every line keeps, the lines keep. -/
theorem parseLines_keeps {Inv : ParseState → Prop} {lines rest : List (List Byte)}
    {st st' : ParseState}
    (hline : ∀ line ∈ lines, ∀ st st', Inv st → parseLine platform st line = some st' → Inv st')
    (hst : Inv st) (hparse : parseLines platform lines st = some (st', rest)) : Inv st' := by
  induction lines generalizing st with
  | nil =>
    cases hparse
    exact hst
  | cons line lines ih =>
    obtain ⟨hfirstLine, hmore⟩ := List.forall_mem_cons.mp hline
    rw [parseLines] at hparse
    split at hparse
    · cases hparse
      exact hst
    · obtain ⟨st₁, hfirst, hrest⟩ := Option.bind_eq_some_iff.mp hparse
      exact ih hmore (hfirstLine st st₁ hst hfirst) hrest

/-- The list of provided names begins with the parser's entry. -/
theorem provided_of_pkgParseRaw {lines rest : List (List Byte)} {named : Bool}
    (hparse : pkgParseRaw platform lines = some (pkg, named, rest)) :
    ∃ provided, pkg.providesStr = INTERNAL_USE_ONLY :: provided := by
  obtain ⟨⟨st, left⟩, hloop, heq⟩ := Option.bind_eq_some_iff.mp hparse
  have hinit : StartsWithMarker ParseState.init := by simp [StartsWithMarker, ParseState.init]
  have hst := parseLines_keeps (fun _ _ _ _ => parseLine_startsWithMarker) hinit hloop
  cases heq
  by_cases hfalse : st.pkgFalseProvides = true
  · simp only [hfalse, if_true]
    exact ⟨[], rfl⟩
  · simp only [hfalse]
    exact List.head?_eq_some_iff.mp (hst (Bool.eq_false_iff.mpr hfalse))

theorem parseLine_keepsParsed {st st' : ParseState} (hline : LF ∉ line)
    (hst : ParsedState platform st) (hparse : parseLine platform st line = some st') :
    ParsedState platform st' := by
  unfold parseLine at hparse
  split at hparse
  next field hfind =>
    exact fieldTypes_keepParsed platform field (List.mem_of_find?_eq_some hfind) st line st' hline
      hst hparse
  next =>
    unfold continueLine at hparse
    split at hparse
    · split at hparse
      · cases hparse
        exact ⟨{ hst.pkg with }, hst.provides⟩
      split at hparse
      · obtain ⟨conffiles, hconffiles, rfl⟩ := Option.map_eq_some_iff.mp hparse
        exact ⟨hst.pkg.append_conffiles hconffiles, hst.provides⟩
      · cases hparse
        exact hst
    · cases hparse
      exact hst

theorem parseLines_keepsParsed {lines rest : List (List Byte)} {st st' : ParseState}
    (hlines : ∀ line ∈ lines, LF ∉ line) (hst : ParsedState platform st)
    (hparse : parseLines platform lines st = some (st', rest)) : ParsedState platform st' := by
  apply parseLines_keeps ?_ hst hparse
  intro line hmem st₀ st₁ hst₀ hfirst
  exact parseLine_keepsParsed (hlines line hmem) hst₀ hfirst

/-- **A parsed package.** Whatever the lines are, its fields are as `Parsed` says. -/
theorem parsed_of_pkgParseRaw {lines rest : List (List Byte)} {named : Bool}
    (hlines : ∀ line ∈ lines, LF ∉ line)
    (hparse : pkgParseRaw platform lines = some (pkg, named, rest)) :
    Parsed platform pkg ∧ ∃ provided, pkg.providesStr = INTERNAL_USE_ONLY :: provided := by
  refine ⟨?_, provided_of_pkgParseRaw hparse⟩
  obtain ⟨⟨st, left⟩, hloop, heq⟩ := Option.bind_eq_some_iff.mp hparse
  have hst := parseLines_keepsParsed hlines (parsedState_init platform) hloop
  cases heq
  by_cases hfalse : st.pkgFalseProvides = true
  · simp only [hfalse, if_true]
    refine { hst.pkg with provides := ?_ }
    intro e he
    rw [List.mem_singleton.mp he]
    exact ⟨by decide, by decide, by decide⟩
  · simp only [hfalse]
    exact hst.pkg

end Fields

end Openmoko.Opkg
