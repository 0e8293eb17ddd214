import Openmoko.Opkg.Proof.ConffilesRoundTrip
import Openmoko.Opkg.Proof.VersionText

/-!
# What is read of a printed package

Every field that `pkg_print_status` writes is a line for `pkg_parse_raw`, but for two: a record of a
configuration file and the time of the installation can fill their buffers, and then lose the
newline, so that the next line goes with them.
-/

namespace Openmoko.Opkg

variable {platform : Platform}

variable {st : ParseState} {e : List Byte} {entries : List (List Byte)}

/-- A line that does not end the stanza is parsed, and then the lines behind it. -/
theorem parseLines_field {line : List Byte} {st₁ : ParseState} (hline : LF ∉ line)
    (hends : endsStanza line = false) (hparse : parseLine platform st line = some st₁)
    (text : List Byte) :
    parseLines platform (rawLines (line ++ LF :: text)) st =
      parseLines platform (rawLines text) st₁ := by
  rw [rawLines_append_newline hline, parseLines, hends, hparse]
  rfl

/-! ### Lists -/

/-- What is left of the entries in the buffers they are printed through. -/
def cutEntries : List (List Byte) → List (List Byte)
  | [] => []
  | e :: entries => e.take 126 :: entries.map (·.take 125)

theorem flatMap_zipIdx_tail (entries : List (List Byte)) {i : ℕ} (hi : i ≠ 0) :
    ((entries.zipIdx i).flatMap fun (entry, i) =>
        snprintf LINE_LEN ((if i = 0 then [] else [COMMA]) ++ ascii " " ++ entry)) =
      tailText (entries.map (·.take 125)) := by
  induction entries generalizing i with
  | nil => rfl
  | cons e entries ih =>
    rw [List.zipIdx_cons, List.flatMap_cons, ih (Nat.succ_ne_zero i)]
    simp only [hi, if_false]
    rfl

theorem formattedList_cons (field : String) (e : List Byte) (entries : List (List Byte)) :
    formattedList field (e :: entries) =
      ascii field ++ ascii ":" ++
        32 :: (e.take 126 ++ tailText (entries.map (·.take 125))) ++ [LF] := by
  rw [formattedList, if_neg (List.cons_ne_nil e entries), List.zipIdx_cons, List.flatMap_cons,
    flatMap_zipIdx_tail entries (Nat.succ_ne_zero 0)]
  rfl

theorem IsEntry.fits_take (he : IsEntry e) {k : ℕ} (hk : k < 2048) : FitsEntry (e.take k) where
  head := by
    intro b hb
    have hmem : b ∈ e.head? := by
      cases e with
      | nil =>
        rw [List.take_nil] at hb
        exact hb
      | cons c e =>
        cases k with
        | zero => cases hb
        | succ k => exact hb
    rw [← he.trimmed] at hmem
    exact trimAlloc_head e b hmem
  noComma hmem := he.noComma (List.mem_of_mem_take hmem)
  short := by
    rw [List.length_take]
    omega

/-- What a buffer keeps of an entry is read back as one entry. -/
theorem cutEntries_fit (hentries : ∀ e ∈ entries, IsEntry e) :
    ∀ c ∈ cutEntries entries, FitsEntry c := by
  cases entries with
  | nil => exact List.forall_mem_nil _
  | cons e entries =>
    obtain ⟨he, hmore⟩ := List.forall_mem_cons.mp hentries
    refine List.forall_mem_cons.mpr ⟨he.fits_take (by decide), ?_⟩
    intro c hc
    obtain ⟨d, hd, rfl⟩ := List.mem_map.mp hc
    exact (hmore d hd).fits_take (by decide)

theorem length_le_tailText (entries : List (List Byte)) :
    entries.length ≤ (tailText entries).length := by
  induction entries with
  | nil => exact Nat.le_refl 0
  | cons c entries ih =>
    rw [tailText_cons]
    simp only [List.length_cons, List.length_append]
    omega

/-- Entries printed with commas between them are read back trimmed. -/
theorem parseDependsString_join {field c : List Byte}
    (hfield : ∀ b ∈ field, isspace b = false) (hc : c ≠ [])
    (hall : ∀ e ∈ c :: entries, FitsEntry e) :
    parseDependsString (field ++ 32 :: (c ++ tailText entries)) =
      some ((c :: entries).map trimAlloc) := by
  have hstart : (field ++ 32 :: (c ++ tailText entries)).dropWhile (!isspace ·) =
      32 :: (c ++ tailText entries) := by
    rw [List.dropWhile_append_of_pos (fun b hb => by simp [hfield b hb])]
    rfl
  have hblank : lineIsBlank (32 :: (c ++ tailText entries)) = false := by
    obtain ⟨b, c, rfl⟩ := List.exists_cons_of_ne_nil hc
    have hb := (hall _ List.mem_cons_self).head b rfl
    rw [lineIsBlank, List.all_eq_false]
    exact ⟨b, by simp, by simp [hb]⟩
  unfold parseDependsString
  simp only [hstart, hblank, Bool.false_eq_true, if_false]
  apply parseEntries_join hall
  have hlength := length_le_tailText entries
  simp only [List.length_cons, List.length_append]
  omega

theorem newline_notMem_of_noSpace {s : List Byte} (hs : ∀ b ∈ s, isspace b = false) : LF ∉ s :=
  fun hmem => absurd (hs LF hmem) (by decide)

theorem newline_notMem_join {c : List Byte}
    (hall : ∀ e ∈ c :: entries, LF ∉ e) : LF ∉ 32 :: (c ++ tailText entries) := by
  obtain ⟨hc, hmore⟩ := List.forall_mem_cons.mp hall
  rw [List.mem_cons, List.mem_append]
  rintro (hblank | hmem | hmem)
  · exact absurd hblank (by decide)
  · exact hc hmem
  · obtain ⟨e, he, hmem⟩ := List.mem_flatMap.mp hmem
    rcases List.mem_cons.mp hmem with hcomma | hmem
    · exact absurd hcomma (by decide)
    rcases List.mem_cons.mp hmem with hblank | hmem
    · exact absurd hblank (by decide)
    · exact hmore e he hmem

theorem newline_notMem_cutEntries
    (hentries : ∀ e ∈ entries, IsEntry e) : ∀ c ∈ cutEntries entries, LF ∉ c := by
  cases entries with
  | nil => exact List.forall_mem_nil _
  | cons e entries =>
    obtain ⟨he, hmore⟩ := List.forall_mem_cons.mp hentries
    refine List.forall_mem_cons.mpr ⟨fun hmem => he.noNewline (List.mem_of_mem_take hmem), ?_⟩
    intro c hc
    obtain ⟨d, hd, rfl⟩ := List.mem_map.mp hc
    exact fun hmem => (hmore d hd).noNewline (List.mem_of_mem_take hmem)

theorem printField_of_length {text : List Byte} (hlength : 2 < text.length) :
    printField text = text := if_pos hlength

/-- **Lists.** A list that is printed is read back, each entry cut to its buffer. -/
theorem parseLines_list (field : String) (store : ParsedPkg → List (List Byte) → ParsedPkg)
    (hfield : ∀ b ∈ ascii field ++ ascii ":", isspace b = false)
    (hends : ∀ rest, endsStanza (ascii field ++ ascii ":" ++ rest) = false)
    (hparse : ∀ st rest, parseLine platform st (ascii field ++ ascii ":" ++ rest) =
      (FieldType.relation field store).parse st (ascii field ++ ascii ":" ++ rest))
    (hentries : ∀ e ∈ entries, IsEntry e ∧ e ≠ []) (hunset : store st.pkg [] = st.pkg) (text : List Byte) :
    parseLines platform (rawLines (printField (formattedList field entries) ++ text)) st =
      parseLines platform (rawLines text)
        (st.set (store st.pkg ((cutEntries entries).map trimAlloc))) := by
  cases entries with
  | nil =>
    have hset : st.set (store st.pkg ((cutEntries []).map trimAlloc)) = st := by
      rw [cutEntries, List.map_nil, hunset]
      rfl
    rw [hset]
    rfl
  | cons e entries =>
    have hfits := cutEntries_fit fun e he => (hentries e he).1
    have hne : e.take 126 ≠ [] := by
      rw [ne_eq, List.take_eq_nil_iff, not_or]
      exact ⟨by decide, (hentries e List.mem_cons_self).2⟩
    have hline : LF ∉ ascii field ++ ascii ":" ++
        32 :: (e.take 126 ++ tailText (entries.map (·.take 125))) := by
      rw [List.mem_append, not_or]
      exact ⟨newline_notMem_of_noSpace hfield,
        newline_notMem_join (newline_notMem_cutEntries fun e he => (hentries e he).1)⟩
    rw [formattedList_cons, printField_of_length (by simp [ascii]; omega), List.append_assoc,
      List.singleton_append]
    apply parseLines_field hline (hends _)
    rw [hparse, FieldType.relation]
    simp only
    rw [parseDependsString_join hfield hne hfits]
    rfl

/-! ### Provides -/

def clearEntry (e : List Byte) : List Byte := if strstrFinds e INTERNAL_USE_ONLY then [] else e

def rereadProvided : List (List Byte) → List (List Byte)
  | [] => []
  | e :: entries =>
    trimAlloc ((clearEntry e).take 126) ::
      ((entries.map clearEntry).filter (· ≠ [])).map fun e => trimAlloc (e.take 125)

theorem strstrFinds_nil : strstrFinds [] INTERNAL_USE_ONLY = false := by decide

theorem strstrFinds_clearEntry (e : List Byte) :
    strstrFinds (clearEntry e) INTERNAL_USE_ONLY = false := by
  unfold clearEntry
  split
  next => exact strstrFinds_nil
  next hnot => simpa using hnot

theorem clearEntry_clearEntry (e : List Byte) : clearEntry (clearEntry e) = clearEntry e := by
  rw [clearEntry, strstrFinds_clearEntry]
  rfl

theorem clearedProvides_cleared (entries : List (List Byte)) :
    clearedProvides (clearedProvides entries) = clearedProvides entries := by
  rw [clearedProvides, clearedProvides, List.map_map]
  apply List.map_congr_left
  exact fun e _ => clearEntry_clearEntry e

/-- The parser's own entry is cleared with the names that hold it. -/
theorem clearedProvides_marker (entries : List (List Byte)) :
    clearedProvides (INTERNAL_USE_ONLY :: entries) = [] :: entries.map clearEntry := by
  have hmarker : strstrFinds INTERNAL_USE_ONLY INTERNAL_USE_ONLY = true := by decide
  rw [clearedProvides, List.map_cons, hmarker]
  rfl

theorem any_cleared (entries : List (List Byte)) :
    (clearedProvides entries).any (strstrFinds · INTERNAL_USE_ONLY) = false := by
  rw [List.any_eq_false]
  intro e he
  obtain ⟨d, -, rfl⟩ := List.mem_map.mp he
  exact Bool.not_eq_true _ ▸ strstrFinds_clearEntry d

theorem IsEntry.clearEntry (he : IsEntry e) : IsEntry (clearEntry e) := by
  unfold Opkg.clearEntry
  split
  · exact IsEntry.nil
  · exact he

theorem flatMap_zipIdx_provided (entries : List (List Byte)) {i : ℕ} (hi : 1 < i) :
    ((entries.zipIdx i).flatMap fun (entry, i) =>
        if entry = [] then []
        else snprintf LINE_LEN ((if i = 1 then [] else [COMMA]) ++ ascii " " ++ entry)) =
      tailText ((entries.filter (· ≠ [])).map (·.take 125)) := by
  induction entries generalizing i with
  | nil => rfl
  | cons e entries ih =>
    have hne : i ≠ 1 := by omega
    rw [List.zipIdx_cons, List.flatMap_cons, ih (by omega)]
    by_cases he : e = []
    · subst he
      rfl
    · have hfilter : (e :: entries).filter (· ≠ []) = e :: entries.filter (· ≠ []) := by simp [he]
      rw [hfilter]
      simp only [he, hne, if_false]
      rfl

def providedText (e : List Byte) (entries : List (List Byte)) : List Byte :=
  (if clearEntry e = [] then [] else 32 :: (clearEntry e).take 126) ++
    tailText (((entries.map clearEntry).filter (· ≠ [])).map (·.take 125))

theorem formattedProvides_marker (e : List Byte) (entries : List (List Byte)) :
    formattedProvides (INTERNAL_USE_ONLY :: e :: entries) =
      ascii "Provides:" ++ providedText e entries ++ [LF] := by
  have hshown : (!((INTERNAL_USE_ONLY :: e :: entries).any (strstrFinds · INTERNAL_USE_ONLY)) ||
      decide (1 < (INTERNAL_USE_ONLY :: e :: entries).length)) = true := by
    simp
  rw [formattedProvides]
  simp only [hshown, if_true, List.cons_ne_nil, if_false]
  rw [clearedProvides_marker, List.map_cons, List.zipIdx_cons, List.zipIdx_cons,
    List.flatMap_cons, List.flatMap_cons, flatMap_zipIdx_provided _ (by decide), providedText]
  congr 1

theorem formattedProvides_cleared (e : List Byte) (entries : List (List Byte)) :
    formattedProvides (clearedProvides (INTERNAL_USE_ONLY :: e :: entries)) =
      formattedProvides (INTERNAL_USE_ONLY :: e :: entries) := by
  rw [formattedProvides, formattedProvides]
  simp only [any_cleared, clearedProvides_cleared]
  simp [clearedProvides]

theorem parseDependsString_provided (hall : ∀ d ∈ e :: entries, IsEntry d) :
    parseDependsString (alterProvidesLine (ascii "Provides:" ++ providedText e entries)) =
      some (INTERNAL_USE_ONLY :: rereadProvided (e :: entries)) := by
  obtain ⟨he, hmore⟩ := List.forall_mem_cons.mp hall
  have hfits : ∀ c ∈ INTERNAL_USE_ONLY :: (clearEntry e).take 126 ::
      ((entries.map clearEntry).filter (· ≠ [])).map (·.take 125), FitsEntry c := by
    have hmarker : ∀ b ∈ INTERNAL_USE_ONLY.head?, isspace b = false := by
      rintro b ⟨⟩
      rfl
    refine List.forall_mem_cons.mpr ⟨⟨hmarker, by decide, by decide⟩,
      List.forall_mem_cons.mpr ⟨he.clearEntry.fits_take (by decide), ?_⟩⟩
    intro c hc
    obtain ⟨d, hd, rfl⟩ := List.mem_map.mp hc
    obtain ⟨f, hf, rfl⟩ := List.mem_map.mp (List.mem_filter.mp hd).1
    exact (hmore f hf).clearEntry.fits_take (by decide)
  have hclear := he.clearEntry.fits_take (k := 126) (by decide)
  have htext : (providedText e entries).dropWhile isspace =
      (clearEntry e).take 126 ++
        tailText (((entries.map clearEntry).filter (· ≠ [])).map (·.take 125)) := by
    rw [providedText]
    by_cases hnil : clearEntry e = []
    · rw [hnil] at hclear ⊢
      exact dropWhile_join hclear _
    · rw [if_neg hnil]
      exact dropWhile_join hclear _
  have halter : alterProvidesLine (ascii "Provides:" ++ providedText e entries) =
      ascii "Provides:" ++ 32 :: (INTERNAL_USE_ONLY ++ tailText ((clearEntry e).take 126 ::
        ((entries.map clearEntry).filter (· ≠ [])).map (·.take 125))) := by
    have hdrop : alterProvidesLine (ascii "Provides:" ++ providedText e entries) =
        ascii "Provides: opkg_internal_use_only, " ++
          (providedText e entries).dropWhile isspace := rfl
    rw [hdrop, htext, tailText_cons]
    rfl
  rw [halter, parseDependsString_join (noSpace_of_all (by decide)) (by decide) hfits]
  simp only [rereadProvided, List.map_cons, List.map_map]
  rfl

theorem newline_notMem_providedText
    (hall : ∀ d ∈ e :: entries, IsEntry d) : LF ∉ providedText e entries := by
  have hclear : ∀ d ∈ e :: entries, ∀ k, LF ∉ (clearEntry d).take k :=
    fun d hd k hmem => (hall d hd).clearEntry.noNewline (List.mem_of_mem_take hmem)
  have htail : ∀ c ∈ [] :: ((entries.map clearEntry).filter (· ≠ [])).map (·.take 125), LF ∉ c := by
    refine List.forall_mem_cons.mpr ⟨List.not_mem_nil, fun c hc => ?_⟩
    obtain ⟨d, hd, rfl⟩ := List.mem_map.mp hc
    obtain ⟨f, hf, rfl⟩ := List.mem_map.mp (List.mem_filter.mp hd).1
    exact hclear f (List.mem_cons_of_mem e hf) 125
  have hjoin := newline_notMem_join htail
  rw [providedText, List.mem_append, not_or]
  refine ⟨?_, fun hmem => hjoin (List.mem_cons_of_mem 32 hmem)⟩
  split
  · exact List.not_mem_nil
  · rw [List.mem_cons, not_or]
    exact ⟨by decide, hclear e List.mem_cons_self 126⟩

theorem parseLines_provides (hall : ∀ d ∈ e :: entries, IsEntry d) (text : List Byte) :
    parseLines platform
        (rawLines (printField (formattedProvides (INTERNAL_USE_ONLY :: e :: entries)) ++ text)) st =
      parseLines platform (rawLines text)
        { st.set { st.pkg with
            providesStr := INTERNAL_USE_ONLY :: rereadProvided (e :: entries) } with
          pkgFalseProvides := false } := by
  have hline : LF ∉ ascii "Provides:" ++ providedText e entries := by
    rw [List.mem_append, not_or]
    exact ⟨by decide, newline_notMem_providedText hall⟩
  have hparse : parseLine platform st (ascii "Provides:" ++ providedText e entries) =
      FieldType.provides.parse st (ascii "Provides:" ++ providedText e entries) := rfl
  rw [formattedProvides_marker, printField_of_length (by simp [ascii]), List.append_assoc,
    List.singleton_append]
  apply parseLines_field hline rfl
  rw [hparse, FieldType.provides]
  simp only
  rw [parseDependsString_provided hall]
  rfl

def providedState (st : ParseState) (provided : List (List Byte)) : ParseState :=
  if provided = [] then st
  else { st.set { st.pkg with providesStr := INTERNAL_USE_ONLY :: rereadProvided provided } with
    pkgFalseProvides := false }

/-- **Provides.** The printed names are read back behind the parser's own entry. -/
theorem parseLines_providedState {provided : List (List Byte)} (hall : ∀ d ∈ provided, IsEntry d)
    (st : ParseState) (text : List Byte) :
    parseLines platform
        (rawLines (printField (formattedProvides (INTERNAL_USE_ONLY :: provided)) ++ text)) st =
      parseLines platform (rawLines text) (providedState st provided) := by
  cases provided with
  | nil => rfl
  | cons e entries => exact parseLines_provides hall text

structure StatusWord (word : List Byte) : Prop where
  noSpace : ∀ b ∈ word, isspace b = false
  ne_nil : word ≠ []
  short : word.length < 64

theorem statusWord_want (want : StateWant) : StatusWord (pkgStateWantToStr want) := by
  cases want <;> exact ⟨noSpace_of_all (by decide), by decide, by decide⟩

theorem statusWord_status (status : StateStatus) : StatusWord (pkgStateStatusToStr status) := by
  cases status <;> exact ⟨noSpace_of_all (by decide), by decide, by decide⟩

theorem want_of_str (want : StateWant) : pkgStateWantFromStr (pkgStateWantToStr want) = want := by
  cases want <;> decide

theorem status_of_str (status : StateStatus) :
    pkgStateStatusFromStr (pkgStateStatusToStr status) = status := by
  cases status <;> decide

theorem flags_cases (flag : ℕ) :
    flag &&& SF_NONVOLATILE_FLAGS < 315 ∧
      flag &&& SF_NONVOLATILE_FLAGS &&& SF_NONVOLATILE_FLAGS = flag &&& SF_NONVOLATILE_FLAGS :=
  ⟨Nat.lt_succ_of_le Nat.and_le_right, by rw [Nat.and_assoc, Nat.and_self]⟩

theorem flags_of_str_small : ∀ flag < 315, flag &&& SF_NONVOLATILE_FLAGS = flag →
    pkgStateFlagFromStr (pkgStateFlagToStr flag) = flag ∧
      (pkgStateFlagToStr flag).all (!isspace ·) = true ∧
      pkgStateFlagToStr flag ≠ [] ∧ (pkgStateFlagToStr flag).length < 64 := by
  decide +kernel

theorem pkgStateFlagToStr_masked (flag : ℕ) :
    pkgStateFlagToStr flag = pkgStateFlagToStr (flag &&& SF_NONVOLATILE_FLAGS) := by
  rw [pkgStateFlagToStr, pkgStateFlagToStr, Nat.and_assoc, Nat.and_self]

/-- The volatile flags are not printed; the others are read back. -/
theorem flags_of_str (flag : ℕ) :
    pkgStateFlagFromStr (pkgStateFlagToStr flag) = flag &&& SF_NONVOLATILE_FLAGS := by
  obtain ⟨hlt, hmask⟩ := flags_cases flag
  rw [pkgStateFlagToStr_masked]
  exact (flags_of_str_small _ hlt hmask).1

theorem statusWord_flags (flag : ℕ) : StatusWord (pkgStateFlagToStr flag) := by
  obtain ⟨hlt, hmask⟩ := flags_cases flag
  obtain ⟨-, hall, hne, hshort⟩ := flags_of_str_small _ hlt hmask
  rw [pkgStateFlagToStr_masked]
  refine ⟨fun b hb => ?_, hne, hshort⟩
  simpa using List.all_eq_true.mp hall b hb

theorem scanWord_blank_word {word : List Byte} (rest : List Byte) (hword : StatusWord word)
    (hrest : AfterWord rest) : scanWord (32 :: (word ++ rest)) = some (word, rest) := by
  have hscan := scanWord_append [32] rest (by simp [isspace]) hword.noSpace hword.ne_nil hrest
  exact hscan

theorem parseStatus_words {want flags status : List Byte} (hwant : StatusWord want)
    (hflags : StatusWord flags) (hstatus : StatusWord status) (pkg : ParsedPkg) :
    parseStatus pkg (ascii "Status:" ++ 32 :: (want ++ 32 :: (flags ++ 32 :: (status ++ [])))) =
      some { pkg with
        stateWant := pkgStateWantFromStr want
        stateFlag := pkgStateFlagFromStr flags
        stateStatus := pkgStateStatusFromStr status } := by
  have hafter : ∀ rest, AfterWord (32 :: rest) := by
    rintro rest c ⟨⟩
    rfl
  have hstarts : hasPrefix (ascii "Status:" ++
      32 :: (want ++ 32 :: (flags ++ 32 :: (status ++ [])))) (ascii "Status:") = true := rfl
  have hdrop : (ascii "Status:" ++ 32 :: (want ++ 32 :: (flags ++ 32 :: (status ++ [])))).drop 7 =
      32 :: (want ++ 32 :: (flags ++ 32 :: (status ++ []))) := rfl
  rw [parseStatus, hstarts, hdrop, scanWord_blank_word _ hwant (hafter _)]
  simp only [Option.bind_eq_bind, Option.bind_some, scanWord_blank_word _ hflags (hafter _),
    scanWord_blank_word [] hstatus (by simp [AfterWord])]
  simp [guard, hwant.short, hflags.short, hstatus.short]

/-- **Status.** The three words are read back. -/
theorem parseLines_status (pkg : ParsedPkg) (st : ParseState) (text : List Byte) :
    parseLines platform (rawLines (printField (formattedStatus pkg) ++ text)) st =
      parseLines platform (rawLines text)
        (st.set { st.pkg with
          stateWant := pkg.stateWant
          stateFlag := pkg.stateFlag &&& SF_NONVOLATILE_FLAGS
          stateStatus := pkg.stateStatus }) := by
  have hwant := statusWord_want pkg.stateWant
  have hflags := statusWord_flags pkg.stateFlag
  have hstatus := statusWord_status pkg.stateStatus
  let line := ascii "Status:" ++ 32 :: (pkgStateWantToStr pkg.stateWant ++
    32 :: (pkgStateFlagToStr pkg.stateFlag ++
      32 :: (pkgStateStatusToStr pkg.stateStatus ++ [])))
  have htext : formattedStatus pkg = line ++ [LF] := by
    simp [formattedStatus, line, ascii]
  have hline : LF ∉ line := by
    have hword : ∀ {word}, StatusWord word → LF ∉ word :=
      fun hword => newline_notMem_of_noSpace hword.noSpace
    simp only [line, List.mem_append, List.mem_cons, not_or]
    exact ⟨by decide, by decide, hword hwant, by decide, hword hflags, by decide, hword hstatus,
      List.not_mem_nil⟩
  have hparse : parseLine platform st line = (parseStatus st.pkg line).map st.set := rfl
  rw [htext, printField_of_length (by simp [line, ascii]), List.append_assoc, List.singleton_append]
  apply parseLines_field hline rfl
  rw [hparse, parseStatus_words hwant hflags hstatus, want_of_str, flags_of_str, status_of_str]
  rfl

theorem parseLines_package {name : List Byte} (hname : LF ∉ name) (st : ParseState)
    (text : List Byte) :
    parseLines platform (rawLines (printField (ascii "Package: " ++ name ++ [LF]) ++ text)) st =
      parseLines platform (rawLines text)
        (st.set { st.pkg with name := some (trimAlloc name) }) := by
  have hline : LF ∉ ascii "Package: " ++ name := by
    rw [List.mem_append, not_or]
    exact ⟨by decide, hname⟩
  rw [printField_of_length (by simp [ascii]), List.append_assoc, List.singleton_append]
  exact parseLines_field hline rfl rfl text

theorem parseLines_version {v : PkgVersion} (hv : LF ∉ pkgVersionStrAlloc v)
    (hst : st.pkg.toPkgVersion = noVersion) (text : List Byte) :
    parseLines platform
        (rawLines (printField (ascii "Version: " ++ pkgVersionStrAlloc v ++ [LF]) ++ text)) st =
      parseLines platform (rawLines text)
        (st.set { st.pkg with toPkgVersion := rereadVersion platform v }) := by
  have hline : LF ∉ ascii "Version: " ++ pkgVersionStrAlloc v := by
    rw [List.mem_append, not_or]
    exact ⟨by decide, hv⟩
  have hparse : parseLine platform st (ascii "Version: " ++ pkgVersionStrAlloc v) =
      some (st.set { st.pkg with
        toPkgVersion := (parseVersion platform st.pkg.toPkgVersion
          (ascii "Version: " ++ pkgVersionStrAlloc v)).getD st.pkg.toPkgVersion }) := rfl
  rw [printField_of_length (by simp [ascii]), List.append_assoc, List.singleton_append]
  apply parseLines_field hline rfl
  rw [hparse, hst]
  rfl

theorem parseLines_essential (essential : Bool)
    (hst : st.pkg.essential = false) (text : List Byte) :
    parseLines platform
        (rawLines (printField (if essential then ascii "Essential: yes" ++ [LF] else []) ++ text))
        st =
      parseLines platform (rawLines text)
        (st.set { st.pkg with essential := essential }) := by
  cases essential with
  | true =>
    have hparse : parseLine platform st (ascii "Essential: yes") =
        some (st.set { st.pkg with essential := st.pkg.essential || true }) := rfl
    rw [if_pos rfl, printField_of_length (by decide), List.append_assoc, List.singleton_append]
    apply parseLines_field (by decide) rfl
    rw [hparse, Bool.or_true]
  | false =>
    have hset : st.set { st.pkg with essential := false } = st := by
      rw [← hst]
      rfl
    rw [hset]
    rfl

def architectureText (architecture : Option (List Byte)) : List Byte :=
  match architecture with
  | some architecture => ascii "Architecture: " ++ architecture ++ [LF]
  | none => []

theorem parseLines_architecture {architecture : Option (List Byte)}
    (hall : ∀ a ∈ architecture, LF ∉ a ∧ trimAlloc a = a)
    (hst : st.pkg.architecture = none) (text : List Byte) :
    parseLines platform (rawLines (printField (architectureText architecture) ++ text)) st =
      parseLines platform (rawLines text)
        (st.set { st.pkg with architecture := architecture }) := by
  cases architecture with
  | none =>
    have hset : st.set { st.pkg with architecture := none } = st := by
      rw [← hst]
      rfl
    rw [hset]
    rfl
  | some architecture =>
    obtain ⟨ha, htrim⟩ := hall architecture rfl
    have hline : LF ∉ ascii "Architecture: " ++ architecture := by
      rw [List.mem_append, not_or]
      exact ⟨by decide, ha⟩
    have hparse : parseLine platform st (ascii "Architecture: " ++ architecture) =
        some (st.set { st.pkg with architecture := some (trimAlloc architecture) }) := rfl
    rw [architectureText, printField_of_length (by simp [ascii]), List.append_assoc,
      List.singleton_append]
    apply parseLines_field hline rfl
    rw [hparse, htrim]

/-! ### Configuration files -/

def runsOver (conffile : List Byte × List Byte) : Bool :=
  LINE_LEN ≤ conffile.1.length + conffile.2.length + 2

def recordsRunOn : Bool → List (List Byte × List Byte) → Bool
  | runsOn, [] => runsOn
  | _, conffile :: conffiles => recordsRunOn (runsOver conffile) conffiles

def skipLine (text : List Byte) : List Byte := (text.dropWhile (· ≠ LF)).tail

/-- Text without a newline at its end takes the next line on to it. -/
theorem rawLines_glue {before : List Byte} (hbefore : LF ∉ before) (hne : before ≠ [])
    (text : List Byte) :
    ∃ more, LF ∉ more ∧ rawLines (before ++ text) = (before ++ more) :: rawLines (skipLine text) := by
  have hmore : LF ∉ text.takeWhile (· ≠ LF) :=
    fun hmem => absurd (List.mem_takeWhile_imp hmem) (by simp)
  have hline : LF ∉ before ++ text.takeWhile (· ≠ LF) := by
    rw [List.mem_append, not_or]
    exact ⟨hbefore, hmore⟩
  refine ⟨text.takeWhile (· ≠ LF), hmore, ?_⟩
  have hsplit : text.takeWhile (· ≠ LF) ++ text.dropWhile (· ≠ LF) = text :=
    List.takeWhile_append_dropWhile
  cases hrest : text.dropWhile (· ≠ LF) with
  | nil =>
    rw [hrest, List.append_nil] at hsplit
    rw [skipLine, hrest, hsplit]
    rw [hsplit] at hline
    exact rawLines_of_notMem hline (List.append_ne_nil_of_left_ne_nil hne text)
  | cons b rest =>
    have hb : b = LF := by
      have hstop := List.head?_dropWhile_not (fun c => decide (c ≠ LF)) text
      rw [hrest] at hstop
      simpa using hstop
    subst hb
    have htext : text.takeWhile (· ≠ LF) ++ LF :: rest = text := by rw [← hrest, hsplit]
    rw [skipLine, hrest, List.tail_cons, ← rawLines_append_newline hline, List.append_assoc, htext]

theorem parseLine_slash (rest : List Byte) (st : ParseState) :
    parseLine platform st (47 :: rest) = some st := rfl

theorem conffileText_of_runsOver {conffile : List Byte × List Byte}
    (hover : runsOver conffile = true) :
    conffileText conffile = (conffile.1 ++ ascii " " ++ conffile.2).take (LINE_LEN - 1) := by
  have hlong : LINE_LEN ≤ conffile.1.length + conffile.2.length + 2 := of_decide_eq_true hover
  apply List.take_append_of_le_length
  simp only [List.length_append]
  have hblank : (ascii " ").length = 1 := rfl
  omega

theorem conffileText_of_not_runsOver {conffile : List Byte × List Byte}
    (hover : runsOver conffile = false) :
    conffileText conffile = conffile.1 ++ ascii " " ++ conffile.2 ++ [LF] := by
  have hshort : ¬LINE_LEN ≤ conffile.1.length + conffile.2.length + 2 := of_decide_eq_false hover
  apply List.take_of_length_le
  simp only [List.length_append, List.length_singleton]
  have hblank : (ascii " ").length = 1 := rfl
  omega

variable (platform) in
/-- Records are passed over; one that fills its buffer takes the next line with it. -/
theorem parseLines_records {conffiles : List (List Byte × List Byte)}
    (hpaths : ∀ c ∈ conffiles, c.1.head? = some 47)
    (hwords : ∀ c ∈ conffiles, LF ∉ c.1 ∧ LF ∉ c.2) {before : List Byte} (hbefore : LF ∉ before)
    (hslash : before = [] ∨ before.head? = some 47) (st : ParseState) (text : List Byte) :
    parseLines platform (rawLines (before ++ (conffiles.flatMap conffileText ++ text))) st =
      parseLines platform
        (rawLines (if recordsRunOn (decide (before ≠ [])) conffiles then skipLine text else text))
        st := by
  induction conffiles generalizing before with
  | nil =>
    rcases hslash with rfl | hhead
    · rfl
    · obtain ⟨before, rfl⟩ := List.head?_eq_some_iff.mp hhead
      obtain ⟨more, -, hlines⟩ := rawLines_glue hbefore (List.cons_ne_nil _ _) text
      rw [List.flatMap_nil, List.nil_append, hlines]
      rfl
  | cons c conffiles ih =>
    obtain ⟨hpath, hpaths⟩ := List.forall_mem_cons.mp hpaths
    obtain ⟨⟨hname, hvalue⟩, hwords⟩ := List.forall_mem_cons.mp hwords
    obtain ⟨name, hcons⟩ := List.head?_eq_some_iff.mp hpath
    have hrecord : LF ∉ c.1 ++ ascii " " ++ c.2 := by
      simp only [List.mem_append, not_or]
      exact ⟨⟨hname, by decide⟩, hvalue⟩
    -- the line begins with a slash, whatever stands before the record
    have hhead : ∀ s, (before ++ (c.1 ++ s)).head? = some 47 := by
      intro s
      rcases hslash with rfl | hhead
      · rw [List.nil_append, hcons]
        rfl
      · rw [List.head?_append, hhead]
        rfl
    rw [List.flatMap_cons, recordsRunOn]
    cases hover : runsOver c with
    | false =>
      have hline : LF ∉ before ++ (c.1 ++ ascii " " ++ c.2) := by
        rw [List.mem_append, not_or]
        exact ⟨hbefore, hrecord⟩
      have htext : before ++ (conffileText c ++ conffiles.flatMap conffileText ++ text) =
          (before ++ (c.1 ++ ascii " " ++ c.2)) ++
            LF :: (conffiles.flatMap conffileText ++ text) := by
        rw [conffileText_of_not_runsOver hover]
        simp
      obtain ⟨rest, hrest⟩ := List.head?_eq_some_iff.mp (hhead (ascii " " ++ c.2))
      rw [← List.append_assoc] at hrest
      rw [htext]
      have hends : endsStanza (before ++ (c.1 ++ ascii " " ++ c.2)) = false := by
        rw [List.append_assoc, ← List.append_assoc, hrest]
        rfl
      have hparse : parseLine platform st (before ++ (c.1 ++ ascii " " ++ c.2)) = some st := by
        rw [List.append_assoc, ← List.append_assoc, hrest]
        exact parseLine_slash rest st
      rw [parseLines_field hline hends hparse]
      exact ih hpaths hwords List.not_mem_nil (Or.inl rfl)
    | true =>
      have htake : conffileText c = c.1.take 1 ++
          (name ++ ascii " " ++ c.2).take (LINE_LEN - 2) := by
        rw [conffileText_of_runsOver hover, hcons]
        rfl
      have hcut : LF ∉ before ++ conffileText c := by
        rw [conffileText_of_runsOver hover, List.mem_append, not_or]
        exact ⟨hbefore, fun hmem => hrecord (List.mem_of_mem_take hmem)⟩
      have hstart : (before ++ conffileText c).head? = some 47 := by
        rw [htake, hcons]
        rcases hslash with rfl | hhead
        · rfl
        · rw [List.head?_append, hhead]
          rfl
      have hne : before ++ conffileText c ≠ [] := by
        intro hnil
        rw [hnil] at hstart
        cases hstart
      have hmore := ih hpaths hwords hcut (Or.inr hstart)
      rw [decide_eq_true hne, List.append_assoc before] at hmore
      rw [List.append_assoc]
      exact hmore

/-! ### The end of the text -/

def timeText (time : ℕ) : List Byte :=
  printField (if time = 0 then [] else snprintf 29 (ascii "Installed-Time: " ++ decimal time ++ [LF]))

def autoText (auto : Bool) : List Byte :=
  printField (if auto then ascii "Auto-Installed: yes" ++ [LF] else [])

def KeepsAutoLine (pkg : ParsedPkg) : Prop :=
  (decimal pkg.installedTime).length ≤ 11 ∧
    (recordsRunOn false pkg.conffiles = true → pkg.installedTime ≠ 0)

instance (pkg : ParsedPkg) : Decidable (KeepsAutoLine pkg) :=
  inferInstanceAs (Decidable (_ ∧ (_ → _)))

theorem newline_notMem_decimal (n : ℕ) : LF ∉ decimal n :=
  fun hmem => absurd (isdigit_of_mem_decimal n LF hmem) (by decide)

theorem timeText_of_fits {time : ℕ} (htime : time ≠ 0) (hfits : (decimal time).length ≤ 11) :
    timeText time = ascii "Installed-Time: " ++ decimal time ++ [LF] := by
  have hlength : (ascii "Installed-Time: ").length = 16 := rfl
  have hwhole : snprintf 29 (ascii "Installed-Time: " ++ decimal time ++ [LF]) =
      ascii "Installed-Time: " ++ decimal time ++ [LF] := by
    apply List.take_of_length_le
    simp only [List.length_append, List.length_singleton]
    omega
  rw [timeText, if_neg htime, hwhole, printField_of_length]
  simp only [List.length_append]
  omega

/-- A longer time loses its newline. -/
theorem timeText_of_not_fits {time : ℕ} (htime : time ≠ 0) (hfits : ¬(decimal time).length ≤ 11) :
    timeText time = ascii "Installed-Time: " ++ (decimal time).take 12 := by
  have hlength : (ascii "Installed-Time: ").length = 16 := rfl
  have hcut : snprintf 29 (ascii "Installed-Time: " ++ decimal time ++ [LF]) =
      ascii "Installed-Time: " ++ (decimal time).take 12 := by
    rw [snprintf, List.append_assoc, List.take_append, List.take_of_length_le (by omega), hlength,
      List.take_append_of_le_length (by omega)]
  rw [timeText, if_neg htime, hcut, printField_of_length]
  simp only [List.length_append]
  omega

theorem skipLine_append {line : List Byte} (hline : LF ∉ line) (text : List Byte) :
    skipLine (line ++ text) = skipLine text := by
  have hall : ∀ b ∈ line, decide (b ≠ LF) = true :=
    fun b hb => decide_eq_true fun heq => hline (heq ▸ hb)
  rw [skipLine, List.dropWhile_append_of_pos hall]
  rfl

theorem parseLines_autoText (auto : Bool) (hst : st.pkg.autoInstalled = false) :
    parseLines platform (rawLines (autoText auto ++ [LF])) st =
      some (st.set { st.pkg with autoInstalled := auto }, []) := by
  cases auto with
  | true =>
    have hparse : parseLine platform st (ascii "Auto-Installed: yes") =
        some (st.set { st.pkg with autoInstalled := st.pkg.autoInstalled || true }) := rfl
    have htext : autoText true ++ [LF] = ascii "Auto-Installed: yes" ++ LF :: [LF] := by decide
    rw [htext, parseLines_field (by decide) rfl hparse, Bool.or_true]
    rfl
  | false =>
    have hset : st.set { st.pkg with autoInstalled := false } = st := by
      rw [← hst]
      rfl
    rw [hset]
    rfl

theorem parseLines_skipped_autoText (auto : Bool) (st : ParseState) :
    parseLines platform (rawLines (skipLine (autoText auto ++ [LF]))) st = some (st, []) := by
  cases auto <;> rfl

variable (platform) in
theorem parseLine_time (digits : List Byte) (st : ParseState) :
    ∃ time, parseLine platform st (ascii "Installed-Time: " ++ digits) =
      some (st.set { st.pkg with installedTime := time }) :=
  ⟨_, rfl⟩

variable (platform) in
theorem parseLines_timeText (pkg : ParsedPkg) (hst : st.pkg.autoInstalled = false) : ∃ time,
      parseLines platform
        (rawLines
          (if recordsRunOn false pkg.conffiles then
            skipLine (timeText pkg.installedTime ++ (autoText pkg.autoInstalled ++ [LF]))
          else timeText pkg.installedTime ++ (autoText pkg.autoInstalled ++ [LF]))) st =
        some (st.set { st.pkg with
          installedTime := time
          autoInstalled := pkg.autoInstalled && decide (KeepsAutoLine pkg) }, []) := by
  have hunread : st.set { st.pkg with autoInstalled := false } = st := by
    rw [← hst]
    rfl
  by_cases htime : pkg.installedTime = 0
  · have htext : timeText pkg.installedTime = [] := by
      rw [htime]
      rfl
    refine ⟨st.pkg.installedTime, ?_⟩
    rw [htext, List.nil_append]
    by_cases hover : recordsRunOn false pkg.conffiles = true
    · have hlost : ¬KeepsAutoLine pkg := fun hkeeps => hkeeps.2 hover htime
      rw [if_pos hover, parseLines_skipped_autoText, decide_eq_false hlost, Bool.and_false]
      exact congrArg (fun st => some (st, [])) hunread.symm
    · have hkeeps : KeepsAutoLine pkg := by
        refine ⟨?_, fun h => absurd h hover⟩
        rw [htime]
        decide
      rw [if_neg hover, parseLines_autoText _ hst, decide_eq_true hkeeps, Bool.and_true]
  by_cases hfits : (decimal pkg.installedTime).length ≤ 11
  · have hkeeps : KeepsAutoLine pkg := ⟨hfits, fun _ => htime⟩
    have hline : LF ∉ ascii "Installed-Time: " ++ decimal pkg.installedTime := by
      rw [List.mem_append, not_or]
      exact ⟨by decide, newline_notMem_decimal _⟩
    rw [timeText_of_fits htime hfits, List.append_assoc, List.singleton_append,
      decide_eq_true hkeeps, Bool.and_true]
    by_cases hover : recordsRunOn false pkg.conffiles = true
    · refine ⟨st.pkg.installedTime, ?_⟩
      have hskip := skipLine_append hline (LF :: (autoText pkg.autoInstalled ++ [LF]))
      rw [if_pos hover, hskip]
      exact parseLines_autoText _ hst
    · obtain ⟨time, hparse⟩ :=
        parseLine_time platform (decimal pkg.installedTime) st
      refine ⟨time, ?_⟩
      rw [if_neg hover, parseLines_field hline rfl hparse]
      exact parseLines_autoText _ hst
  · have hlost : ¬KeepsAutoLine pkg := fun hkeeps => hfits hkeeps.1
    have hline : LF ∉ ascii "Installed-Time: " ++ (decimal pkg.installedTime).take 12 := by
      rw [List.mem_append, not_or]
      exact ⟨by decide, fun hmem => newline_notMem_decimal _ (List.mem_of_mem_take hmem)⟩
    rw [timeText_of_not_fits htime hfits, decide_eq_false hlost, Bool.and_false]
    by_cases hover : recordsRunOn false pkg.conffiles = true
    · refine ⟨st.pkg.installedTime, ?_⟩
      rw [if_pos hover, skipLine_append hline, parseLines_skipped_autoText]
      exact congrArg (fun st => some (st, [])) hunread.symm
    · obtain ⟨more, -, hlines⟩ := rawLines_glue hline (List.append_ne_nil_of_left_ne_nil (by decide) _)
        (autoText pkg.autoInstalled ++ [LF])
      obtain ⟨time, hparse⟩ := parseLine_time platform
        ((decimal pkg.installedTime).take 12 ++ more) st
      refine ⟨time, ?_⟩
      have hends : endsStanza (ascii "Installed-Time: " ++
          ((decimal pkg.installedTime).take 12 ++ more)) = false := rfl
      rw [if_neg hover, hlines, List.append_assoc, parseLines, hends, hparse]
      simp only [Bool.false_eq_true, if_false, Option.bind_eq_bind, Option.bind_some]
      rw [parseLines_skipped_autoText]
      have hunread : st.set { st.pkg with installedTime := time, autoInstalled := false } =
          st.set { st.pkg with installedTime := time } := by
        rw [← hst]
      rw [hunread]

variable (platform) in
/-- **The end of the text.** `Auto-Installed` is read back unless a cut line takes it along. -/
theorem parseLines_end {pkg : ParsedPkg} (hpaths : ∀ c ∈ pkg.conffiles, c.1.head? = some 47)
    (hwords : ∀ c ∈ pkg.conffiles, LF ∉ c.1 ∧ LF ∉ c.2) (hst : st.pkg.autoInstalled = false) :
    ∃ st', parseLines platform
        (rawLines (printField (formattedConffiles pkg.conffiles) ++
          (timeText pkg.installedTime ++ (autoText pkg.autoInstalled ++ [LF])))) st =
        some (st', []) ∧
      st'.pkgFalseProvides = st.pkgFalseProvides ∧
      st'.pkg = { st.pkg with
        installedTime := st'.pkg.installedTime
        autoInstalled := pkg.autoInstalled && decide (KeepsAutoLine pkg) } := by
  by_cases hnil : pkg.conffiles = []
  · obtain ⟨time, hparse⟩ := parseLines_timeText platform pkg hst
    rw [hnil, recordsRunOn, if_neg Bool.false_ne_true] at hparse
    have htext : printField (formattedConffiles pkg.conffiles) = [] := by
      rw [hnil]
      rfl
    rw [htext]
    exact ⟨_, hparse, rfl, rfl⟩
  · let st₁ : ParseState := { st.set { st.pkg with conffiles := st.pkg.conffiles ++ [] } with
      readingConffiles := true }
    have hfield : parseLine platform st (ascii "Conffiles:") = some st₁ := rfl
    have htext : printField (formattedConffiles pkg.conffiles) =
        ascii "Conffiles:" ++ LF :: pkg.conffiles.flatMap conffileText := by
      rw [formattedConffiles, if_neg hnil, printField_of_length (by simp [ascii]), List.append_assoc,
        List.singleton_append]
    have hst₁ : st₁.pkg.autoInstalled = false := hst
    obtain ⟨time, hparse⟩ := parseLines_timeText platform pkg hst₁
    have hrecords := parseLines_records platform hpaths hwords List.not_mem_nil
      (Or.inl rfl) st₁ (timeText pkg.installedTime ++ (autoText pkg.autoInstalled ++ [LF]))
    have hfirst : decide (([] : List Byte) ≠ []) = false := rfl
    rw [hfirst, hparse, List.nil_append] at hrecords
    rw [htext, List.append_assoc, List.cons_append, parseLines_field (by decide) rfl hfield,
      hrecords]
    refine ⟨_, rfl, rfl, ?_⟩
    simp only [ParseState.set, st₁, List.append_nil]

end Openmoko.Opkg
