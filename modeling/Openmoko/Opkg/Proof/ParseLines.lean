import Openmoko.Opkg.LineReaders
import Openmoko.Opkg.PkgFormat

/-!
# Lines and words of a stanza

What the readers of `pkg_parse.c` see of a text that is put together from known parts: its lines,
and the words of a line. No more words can be read than the blanks of a line leave room for.
-/

namespace Openmoko.Opkg

variable {line : List Byte}

theorem linesOf_map_chomp (text : List Byte) : (linesOf text).map chomp = rawLines text := by
  induction text with
  | nil => rfl
  | cons c text ih =>
    rw [linesOf, rawLines, ← ih]
    by_cases hc : c = LF
    · simp [hc, chomp]
    · cases linesOf text <;> simp [hc, chomp]

/-- The lines that the parser is modelled on are what the reader of the stream gives. -/
theorem readRawPkgsFromStream_eq_rawLines {text : List Byte} (hnul : NUL ∉ text)
    (hshort : ∀ line ∈ linesOf text, line.length < 2 ^ 30) :
    readRawPkgsFromStream 512 text = rawLines text := by
  rw [← linesOf_map_chomp]
  exact readRaw_eq (k := 9) hnul hshort (by omega) (.inl (by omega))

theorem rawLines_append_newline (hline : LF ∉ line) (text : List Byte) :
    rawLines (line ++ LF :: text) = line :: rawLines text := by
  induction line with
  | nil => simp [rawLines]
  | cons c line ih =>
    have hc : c ≠ LF := (List.ne_of_not_mem_cons hline).symm
    rw [List.cons_append, rawLines, if_neg hc, ih (List.not_mem_of_not_mem_cons hline)]

theorem rawLines_of_notMem (hline : LF ∉ line) (hne : line ≠ []) : rawLines line = [line] := by
  induction line with
  | nil => exact absurd rfl hne
  | cons c line ih =>
    have hc : c ≠ LF := (List.ne_of_not_mem_cons hline).symm
    rw [rawLines, if_neg hc]
    cases line with
    | nil => rfl
    | cons d line => rw [ih (List.not_mem_of_not_mem_cons hline) (List.cons_ne_nil d line)]

def AfterWord (rest : List Byte) : Prop := ∀ c ∈ rest.head?, isspace c = true

theorem scanWord_append {word : List Byte} (lead rest : List Byte)
    (hlead : ∀ c ∈ lead, isspace c = true)
    (hword : ∀ c ∈ word, isspace c = false) (hne : word ≠ []) (hrest : AfterWord rest) :
    scanWord (lead ++ word ++ rest) = some (word, rest) := by
  have hstart : (lead ++ word ++ rest).dropWhile isspace = word ++ rest := by
    rw [List.append_assoc, List.dropWhile_append_of_pos hlead]
    obtain ⟨c, word, rfl⟩ := List.exists_cons_of_ne_nil hne
    rw [List.cons_append, List.dropWhile_cons_of_neg]
    simp [hword c List.mem_cons_self]
  have hstop : rest.takeWhile (!isspace ·) = [] ∧ rest.dropWhile (!isspace ·) = rest := by
    cases rest with
    | nil => exact ⟨rfl, rfl⟩
    | cons c rest =>
      have hc : isspace c = true := hrest c rfl
      simp [hc]
  have hall : ∀ c ∈ word, (!isspace c) = true := fun c hc => by simp [hword c hc]
  rw [scanWord, hstart]
  simp only [List.takeWhile_append_of_pos hall, List.dropWhile_append_of_pos hall, hstop.1,
    hstop.2, List.append_nil, if_neg hne]

theorem scanWord_split {s word rest : List Byte} (hscan : scanWord s = some (word, rest)) :
    ∃ lead, s = lead ++ word ++ rest ∧ (∀ c ∈ lead, isspace c = true) ∧
      (∀ c ∈ word, isspace c = false) ∧ word ≠ [] ∧ AfterWord rest := by
  unfold scanWord at hscan
  simp only at hscan
  split at hscan
  · cases hscan
  next hne =>
    obtain ⟨rfl, rfl⟩ := Prod.mk.inj (Option.some.inj hscan)
    refine ⟨s.takeWhile isspace, ?_, fun c hc => List.mem_takeWhile_imp hc, ?_, hne, ?_⟩
    · rw [List.append_assoc, List.takeWhile_append_dropWhile, List.takeWhile_append_dropWhile]
    · intro c hc
      simpa using List.mem_takeWhile_imp hc
    · intro c hc
      have hnot := List.head?_dropWhile_not (fun c => !isspace c) (s.dropWhile isspace)
      rw [Option.mem_def.mp hc] at hnot
      simpa using hnot

def blanks (s : List Byte) : ℕ := s.countP isspace

def wordBound (s : List Byte) : ℕ :=
  blanks s + if s.head?.map isspace = some false then 1 else 0

theorem wordBound_le (s : List Byte) : wordBound s ≤ blanks s + 1 := by
  unfold wordBound
  split <;> omega

theorem scanWord_bound {s word rest : List Byte} (hscan : scanWord s = some (word, rest)) :
    wordBound rest + 1 ≤ wordBound s := by
  obtain ⟨lead, rfl, hlead, hword, hne, hrest⟩ := scanWord_split hscan
  have hafter : wordBound rest = blanks rest := by
    cases rest with
    | nil => rfl
    | cons c rest => simp [wordBound, hrest c rfl]
  have hnone : blanks word = 0 := List.countP_eq_zero.mpr fun c hc => by simp [hword c hc]
  have hblanks : blanks (lead ++ word ++ rest) = blanks lead + blanks rest := by
    simp only [blanks, List.countP_append] at hnone ⊢
    omega
  rw [hafter, wordBound, hblanks]
  cases lead with
  | nil =>
    obtain ⟨c, word, rfl⟩ := List.exists_cons_of_ne_nil hne
    simp [blanks, hword c List.mem_cons_self]
  | cons c lead =>
    have hpos : blanks (c :: lead) = blanks lead + 1 :=
      List.countP_cons_of_pos (hlead c List.mem_cons_self)
    omega

theorem guard_bind_eq_some {α : Type} {p : Prop} [Decidable p] {x : Option α} {y : α} :
    ((guard p : Option Unit) >>= fun _ => x) = some y ↔ p ∧ x = some y := by
  by_cases hp : p <;> simp [guard, hp]

theorem parseConffileWords_bound {turns : ℕ} {s : List Byte} {L : List (List Byte × List Byte)}
    (hparse : parseConffileWords turns s = some L) : 2 * L.length ≤ wordBound s := by
  induction turns generalizing s L with
  | zero =>
    cases hparse
    exact Nat.zero_le _
  | succ turns ih =>
    rw [parseConffileWords] at hparse
    cases hname : scanWord s with
    | none =>
      rw [hname] at hparse
      cases hparse
      exact Nat.zero_le _
    | some first =>
      obtain ⟨fileName, raw⟩ := first
      simp only [hname] at hparse
      cases hvalue : scanWord raw with
      | none =>
        simp only [hvalue] at hparse
        split at hparse
        · cases hparse
          exact Nat.zero_le _
        · cases hparse
      | some second =>
        obtain ⟨md5sum, after⟩ := second
        simp only [hvalue] at hparse
        obtain ⟨-, hrest⟩ := guard_bind_eq_some.mp hparse
        obtain ⟨L, hmore, heq⟩ := Option.bind_eq_some_iff.mp hrest
        cases heq
        have hfirst := scanWord_bound hname
        have hsecond := scanWord_bound hvalue
        have htail := ih hmore
        rw [List.length_cons]
        omega

theorem parseConffiles_bound {L : List (List Byte × List Byte)}
    (hparse : parseConffiles line = some L) : 2 * L.length ≤ blanks line + 1 := by
  unfold parseConffiles at hparse
  have hwords := parseConffileWords_bound hparse
  have hle := wordBound_le (if hasPrefix line (ascii "Conffiles:") then line.drop 10 else line)
  have hdrop : blanks (if hasPrefix line (ascii "Conffiles:") then line.drop 10 else line) ≤
      blanks line := by
    split
    · exact (List.drop_sublist 10 line).countP_le
    · exact Nat.le_refl _
  omega

def KeepsConffiles (field : FieldType) : Prop :=
  ∀ st line st', field.parse st line = some st' → st'.pkg.conffiles = st.pkg.conffiles

section Keeps

variable {type : String}

theorem keepsConffiles_kept {name : String} {field : TextField} :
    KeepsConffiles (.kept type name field) := by
  intro st line st' hparse
  cases hparse
  rfl

theorem keepsConffiles_plain {store : ParsedPkg → List Byte → ParsedPkg}
    (hstore : ∀ pkg line, (store pkg line).conffiles = pkg.conffiles) :
    KeepsConffiles (.plain type store) := by
  intro st line st' hparse
  cases hparse
  exact hstore st.pkg line

theorem keepsConffiles_relation {store : ParsedPkg → List (List Byte) → ParsedPkg}
    (hstore : ∀ pkg entries, (store pkg entries).conffiles = pkg.conffiles) :
    KeepsConffiles (.relation type store) := by
  intro st line st' hparse
  obtain ⟨entries, -, rfl⟩ := Option.map_eq_some_iff.mp hparse
  exact hstore st.pkg entries

theorem keepsConffiles_provides : KeepsConffiles .provides := by
  intro st line st' hparse
  obtain ⟨entries, -, rfl⟩ := Option.map_eq_some_iff.mp hparse
  rfl

theorem keepsConffiles_description : KeepsConffiles .description := by
  intro st line st' hparse
  cases hparse
  rfl

theorem keepsConffiles_status : KeepsConffiles .status := by
  intro st line st' hparse
  obtain ⟨pkg, hstatus, rfl⟩ := Option.map_eq_some_iff.mp hparse
  unfold parseStatus at hstatus
  obtain ⟨-, hwords⟩ := guard_bind_eq_some.mp hstatus
  obtain ⟨sw, -, hwords⟩ := Option.bind_eq_some_iff.mp hwords
  obtain ⟨sf, -, hwords⟩ := Option.bind_eq_some_iff.mp hwords
  obtain ⟨ss, -, hwords⟩ := Option.bind_eq_some_iff.mp hwords
  obtain ⟨-, heq⟩ := guard_bind_eq_some.mp hwords
  cases heq
  rfl

theorem fieldTypes_conffiles (platform : Platform) :
    ∀ field ∈ fieldTypes platform, field = .conffiles ∨ KeepsConffiles field := by
  have hplain : ∀ {type : String} {store : ParsedPkg → List Byte → ParsedPkg},
      (∀ pkg line, (store pkg line).conffiles = pkg.conffiles) →
        (FieldType.plain type store = .conffiles ∨ KeepsConffiles (.plain type store)) :=
    fun hstore => Or.inr (keepsConffiles_plain hstore)
  have hrelation : ∀ {type : String} {store : ParsedPkg → List (List Byte) → ParsedPkg},
      (∀ pkg entries, (store pkg entries).conffiles = pkg.conffiles) →
        (FieldType.relation type store = .conffiles ∨ KeepsConffiles (.relation type store)) :=
    fun hstore => Or.inr (keepsConffiles_relation hstore)
  have hkept : ∀ {type name : String} {field : TextField},
      FieldType.kept type name field = .conffiles ∨ KeepsConffiles (.kept type name field) :=
    Or.inr keepsConffiles_kept
  simp only [fieldTypes, List.forall_mem_cons]
  exact ⟨hplain fun _ _ => rfl, hkept, Or.inr keepsConffiles_provides, hrelation fun _ _ => rfl,
    hplain fun _ _ => rfl, hplain fun _ _ => rfl, hkept, hkept, hkept, hkept,
    Or.inr keepsConffiles_status, hrelation fun _ _ => rfl, hkept, hkept, hkept, hkept, hkept,
    hplain fun _ _ => rfl, hplain fun _ _ => rfl, hplain fun _ _ => rfl, Or.inl trivial,
    hrelation fun _ _ => rfl, Or.inr keepsConffiles_description, hrelation fun _ _ => rfl,
    hrelation fun _ _ => rfl, hrelation fun _ _ => rfl, List.forall_mem_nil _⟩

end Keeps

theorem parseLine_conffiles {platform : Platform} {st st' : ParseState}
    (hparse : parseLine platform st line = some st') :
    st'.pkg.conffiles = st.pkg.conffiles ∨
      ∃ L, parseConffiles line = some L ∧ st'.pkg.conffiles = st.pkg.conffiles ++ L ∧
        (hasPrefix line (ascii "Conffiles") = true ∨ hasPrefix line (ascii " ") = true) := by
  unfold parseLine at hparse
  split at hparse
  next field hfind =>
    have htype := List.find?_some hfind
    rcases fieldTypes_conffiles platform field (List.mem_of_find?_eq_some hfind) with rfl | hkeeps
    · obtain ⟨L, hL, rfl⟩ := Option.map_eq_some_iff.mp hparse
      exact Or.inr ⟨L, hL, rfl, Or.inl htype⟩
    · exact Or.inl (hkeeps st line st' hparse)
  next =>
    unfold continueLine at hparse
    split at hparse
    next hblank =>
      split at hparse
      · cases hparse
        exact Or.inl rfl
      split at hparse
      · obtain ⟨L, hL, rfl⟩ := Option.map_eq_some_iff.mp hparse
        exact Or.inr ⟨L, hL, rfl, Or.inr hblank⟩
      · cases hparse
        exact Or.inl rfl
    next =>
      cases hparse
      exact Or.inl rfl

end Openmoko.Opkg
