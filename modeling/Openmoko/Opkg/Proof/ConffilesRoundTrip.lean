import Openmoko.Opkg.Proof.ConstraintAgreement
import Openmoko.Opkg.Proof.ParseLines

/-!
# Configuration files in the status file

The records of the list are written one to a line, without the blank that would make them
continuation lines. The parser takes such a line for a field, so it reads a record only when this
begins with the name of the field. A line yields at most one record for every two words in it; as
the words of the text are counted by its blanks, no text yields more records than were written, and
all of them are there only when every line yields its own.
-/

namespace Openmoko.Opkg

structure Conffile where
  name : List Byte
  value : List Byte
  name_noSpace : ∀ c ∈ name, isspace c = false
  value_noSpace : ∀ c ∈ value, isspace c = false

namespace Conffile

def pair (c : Conffile) : List Byte × List Byte := (c.name, c.value)

def length (c : Conffile) : ℕ := c.name.length + 1 + c.value.length

def line (c : Conffile) : List Byte := c.name ++ ascii " " ++ c.value

def Named (c : Conffile) : Prop :=
  hasPrefix c.name (ascii "Conffiles") = true ∧ hasPrefix c.name (ascii "Conffiles:") = false ∧
    c.value ≠ []

end Conffile

def ConffilesSurvive (platform : Platform) (conffiles : List Conffile) : Prop :=
  ∃ pkg named rest,
    pkgParseRaw platform (rawLines (formattedConffiles (conffiles.map Conffile.pair))) =
      some (pkg, named, rest) ∧
    pkg.conffiles = conffiles.map Conffile.pair

/-- Every record is taken for the field itself and fits the line buffer, and every one but the last
with its newline. -/
def ConffilesNamed (conffiles : List Conffile) : Prop :=
  (∀ c ∈ conffiles, c.Named ∧ c.length < LINE_LEN) ∧
    ∀ c ∈ conffiles.dropLast, c.length + 1 < LINE_LEN

/-! ### One record -/

theorem Conffile.length_line (c : Conffile) : c.line.length = c.length := by
  simp only [line, length, List.length_append]
  rfl

theorem Conffile.noNewline (c : Conffile) : LF ∉ c.line := by
  have hnot : ∀ {s : List Byte}, (∀ b ∈ s, isspace b = false) → LF ∉ s :=
    fun hs hmem => absurd (hs LF hmem) (by decide)
  rw [line, List.mem_append, List.mem_append]
  rintro ((hmem | hmem) | hmem)
  · exact hnot c.name_noSpace hmem
  · exact absurd hmem (by decide)
  · exact hnot c.value_noSpace hmem

theorem Conffile.blanks_line (c : Conffile) : blanks c.line = 1 := by
  have hnone : ∀ {s : List Byte}, (∀ b ∈ s, isspace b = false) → s.countP isspace = 0 :=
    fun hs => List.countP_eq_zero.mpr fun b hb => by simp [hs b hb]
  have hblank : (ascii " ").countP isspace = 1 := by decide
  rw [blanks, line, List.countP_append, List.countP_append, hnone c.name_noSpace,
    hnone c.value_noSpace, hblank]

variable {c : Conffile} {line : List Byte} {rest : List (List Byte)} {records : List Conffile}

theorem conffileText_short (hshort : c.length + 1 < LINE_LEN) :
    conffileText c.pair = c.line ++ [LF] := by
  have hlength := c.length_line
  apply List.take_of_length_le
  simp only [Conffile.pair, Conffile.line, List.length_append, List.length_singleton] at hlength ⊢
  omega

theorem conffileText_long (hlong : LINE_LEN ≤ c.length + 1) :
    conffileText c.pair = c.line.take (LINE_LEN - 1) := by
  apply List.take_append_of_le_length
  have hlength := c.length_line
  simp only [Conffile.line] at hlength
  simp only [Conffile.pair]
  omega

theorem hasPrefix_append_blank {lit : List Byte} (hlit : (32 : Byte) ∉ lit)
    (name value : List Byte) : hasPrefix (name ++ 32 :: value) lit = hasPrefix name lit := by
  unfold hasPrefix
  induction lit generalizing name with
  | nil => simp
  | cons d lit ih =>
    have hd : d ≠ 32 := (List.ne_of_not_mem_cons hlit).symm
    cases name with
    | nil => simp [List.isPrefixOf, hd]
    | cons e name => simp [List.isPrefixOf, ih (List.not_mem_of_not_mem_cons hlit)]

section Words

variable {name value : List Byte}

theorem scanWord_name (hname : ∀ b ∈ name, isspace b = false) (hne : name ≠ [])
    (value : List Byte) : scanWord (name ++ 32 :: value) = some (name, 32 :: value) :=
  scanWord_append [] _ (by simp) hname hne (by simp [AfterWord, isspace])

theorem scanWord_value (hvalue : ∀ b ∈ value, isspace b = false) (hne : value ≠ []) :
    scanWord (32 :: value) = some (value, []) := by
  have hword := scanWord_append [32] [] (by simp [isspace]) hvalue hne
    (by simp [AfterWord])
  simpa using hword

theorem parseConffileWords_nil (turns : ℕ) : parseConffileWords turns [] = some [] := by
  cases turns <;> rfl

theorem parseConffileWords_pair (hname : ∀ b ∈ name, isspace b = false)
    (hvalue : ∀ b ∈ value, isspace b = false) (hne : name ≠ []) (hvne : value ≠ [])
    (hlong : name.length < 1048) (hvlong : value.length < 1048) (turns : ℕ) :
    parseConffileWords (turns + 1) (name ++ 32 :: value) = some [(name, value)] := by
  simp [parseConffileWords, scanWord_name hname hne, scanWord_value hvalue hvne, hlong, hvlong,
    parseConffileWords_nil]

theorem parseConffileWords_pair_inv (hname : ∀ b ∈ name, isspace b = false)
    (hvalue : ∀ b ∈ value, isspace b = false) {turns : ℕ} {L : List (List Byte × List Byte)}
    (hparse : parseConffileWords turns (name ++ 32 :: value) = some L) (hL : L ≠ []) :
    name ≠ [] ∧ value ≠ [] ∧ L = [(name, value)] := by
  have hblank : scanWord [32] = none := by decide
  have hnil : scanWord [] = none := rfl
  cases turns with
  | zero =>
    cases hparse
    exact absurd rfl hL
  | succ turns =>
    rw [parseConffileWords] at hparse
    by_cases hne : name = []
    · subst hne
      by_cases hvne : value = []
      · subst hvne
        simp only [List.nil_append, hblank] at hparse
        cases hparse
        exact absurd rfl hL
      · simp only [List.nil_append, scanWord_value hvalue hvne, hnil] at hparse
        split at hparse
        · cases hparse
          exact absurd rfl hL
        · cases hparse
    · by_cases hvne : value = []
      · subst hvne
        simp only [scanWord_name hname hne, hblank] at hparse
        split at hparse
        · cases hparse
          exact absurd rfl hL
        · cases hparse
      · simp only [scanWord_name hname hne, scanWord_value hvalue hvne,
          parseConffileWords_nil] at hparse
        obtain ⟨-, hrest⟩ := guard_bind_eq_some.mp hparse
        cases hrest
        exact ⟨hne, hvne, rfl⟩

theorem parseConffiles_pair_inv (hname : ∀ b ∈ name, isspace b = false)
    (hvalue : ∀ b ∈ value, isspace b = false) {v : List Byte}
    (hparse : parseConffiles (name ++ 32 :: value) = some [(name, v)]) :
    hasPrefix name (ascii "Conffiles:") = false ∧ name ≠ [] ∧ value ≠ [] ∧ v = value := by
  unfold parseConffiles at hparse
  simp only [hasPrefix_append_blank (show (32 : Byte) ∉ ascii "Conffiles:" by decide)] at hparse
  cases hstarts : hasPrefix name (ascii "Conffiles:") with
  | false =>
    simp only [hstarts, Bool.false_eq_true, if_false] at hparse
    obtain ⟨hne, hvne, heq⟩ := parseConffileWords_pair_inv hname hvalue hparse (by simp)
    simp only [List.cons.injEq, Prod.mk.injEq, true_and, and_true] at heq
    exact ⟨rfl, hne, hvne, heq⟩
  | true =>
    obtain ⟨rest, hrest⟩ := List.isPrefixOf_iff_prefix.mp hstarts
    subst hrest
    have hdrop : (ascii "Conffiles:" ++ rest ++ 32 :: value).drop 10 = rest ++ 32 :: value := rfl
    simp only [hstarts, if_true, hdrop] at hparse
    have hrest : ∀ b ∈ rest, isspace b = false :=
      fun b hb => hname b (List.mem_append_right _ hb)
    obtain ⟨-, -, heq⟩ := parseConffileWords_pair_inv hrest hvalue hparse (by simp)
    simp only [List.cons.injEq, Prod.mk.injEq, and_true] at heq
    have hlength := congrArg List.length heq.1
    simp only [List.length_append, ascii] at hlength
    exact absurd hlength (by simp)

end Words

variable {platform : Platform}

theorem parseLines_cons {lines : List (List Byte)} {st st' : ParseState}
    (hparse : parseLines platform (line :: lines) st = some (st', rest)) :
    st' = st ∨ ∃ st₁, parseLine platform st line = some st₁ ∧
      parseLines platform lines st₁ = some (st', rest) := by
  rw [parseLines] at hparse
  split at hparse
  · cases hparse
    exact Or.inl rfl
  · exact Or.inr (Option.bind_eq_some_iff.mp hparse)

theorem parseLine_bound {st st' : ParseState} (hparse : parseLine platform st line = some st') :
    ∃ L, st'.pkg.conffiles = st.pkg.conffiles ++ L ∧ 2 * L.length ≤ blanks line + 1 := by
  rcases parseLine_conffiles hparse with hkeep | ⟨L, hL, hadd, -⟩
  · exact ⟨[], by rw [hkeep, List.append_nil], by simp⟩
  · exact ⟨L, hadd, parseConffiles_bound hL⟩

def recordsText (records : List Conffile) : List Byte :=
  records.flatMap fun c => conffileText c.pair

theorem Conffile.line_ne_nil (c : Conffile) : c.line.take (LINE_LEN - 1) ≠ [] := by
  have hpos : 0 < c.line.length := by
    rw [c.length_line, length]
    omega
  rw [← List.length_pos_iff, List.length_take, LINE_LEN]
  omega

theorem Conffile.blanks_take_le (c : Conffile) (n : ℕ) : blanks (c.line.take n) ≤ 1 := by
  rw [← c.blanks_line]
  exact (List.take_sublist n c.line).countP_le

theorem records_bound {before : List Byte} (hbefore : LF ∉ before)
    (hstart : records ≠ [] ∨ before = []) {st st' : ParseState}
    (hparse : parseLines platform (rawLines (before ++ recordsText records)) st =
      some (st', rest)) :
    ∃ L, st'.pkg.conffiles = st.pkg.conffiles ++ L ∧
      2 * L.length ≤ 2 * records.length + blanks before := by
  induction records generalizing before st with
  | nil =>
    obtain rfl := hstart.resolve_left (fun hne => hne rfl)
    cases hparse
    exact ⟨[], by simp, by simp⟩
  | cons c records ih =>
    have htext : recordsText (c :: records) = conffileText c.pair ++ recordsText records := rfl
    rw [htext] at hparse
    by_cases hshort : c.length + 1 < LINE_LEN
    · have hline : LF ∉ before ++ c.line := by
        rw [List.mem_append]
        exact not_or_intro hbefore c.noNewline
      have hlines : rawLines (before ++ (conffileText c.pair ++ recordsText records)) =
          (before ++ c.line) :: rawLines (recordsText records) := by
        rw [← rawLines_append_newline hline, conffileText_short hshort]
        simp
      rw [hlines] at hparse
      rcases parseLines_cons hparse with rfl | ⟨st₁, hfirst, hmore⟩
      · exact ⟨[], by simp, by simp⟩
      obtain ⟨L₁, hL₁, hbound₁⟩ := parseLine_bound hfirst
      obtain ⟨L₂, hL₂, hbound₂⟩ := ih List.not_mem_nil (Or.inr rfl) hmore
      refine ⟨L₁ ++ L₂, by rw [hL₂, hL₁, List.append_assoc], ?_⟩
      have hblanks : blanks (before ++ c.line) = blanks before + 1 := by
        rw [blanks, List.countP_append, ← blanks, ← blanks, c.blanks_line]
      have hnil : blanks [] = 0 := rfl
      rw [List.length_append, List.length_cons]
      omega
    · rw [conffileText_long (Nat.not_lt.mp hshort), ← List.append_assoc] at hparse
      have hline : LF ∉ before ++ c.line.take (LINE_LEN - 1) := by
        rw [List.mem_append]
        exact not_or_intro hbefore fun hmem => c.noNewline (List.mem_of_mem_take hmem)
      have hblanks : blanks (before ++ c.line.take (LINE_LEN - 1)) ≤ blanks before + 1 := by
        have hone := c.blanks_take_le (LINE_LEN - 1)
        simp only [blanks, List.countP_append] at hone ⊢
        omega
      cases records with
      | nil =>
        have hlines : rawLines (before ++ c.line.take (LINE_LEN - 1) ++ recordsText []) =
            [before ++ c.line.take (LINE_LEN - 1)] := by
          rw [recordsText, List.flatMap_nil, List.append_nil]
          apply rawLines_of_notMem hline
          intro hnil
          exact c.line_ne_nil (List.append_eq_nil_iff.mp hnil).2
        rw [hlines] at hparse
        rcases parseLines_cons hparse with rfl | ⟨st₁, hfirst, hmore⟩
        · exact ⟨[], by simp, by simp⟩
        cases hmore
        obtain ⟨L, hL, hbound⟩ := parseLine_bound hfirst
        refine ⟨L, hL, ?_⟩
        rw [List.length_singleton]
        omega
      | cons d records =>
        obtain ⟨L, hL, hbound⟩ := ih hline (Or.inl (List.cons_ne_nil d records)) hparse
        refine ⟨L, hL, ?_⟩
        rw [List.length_cons]
        omega

theorem parseLine_named (hline : hasPrefix line (ascii "Conffiles") = true)
    (st : ParseState) : parseLine platform st line = FieldType.conffiles.parse st line := by
  obtain ⟨rest, rfl⟩ := List.isPrefixOf_iff_prefix.mp hline
  rfl

theorem hasPrefix_line {lit : List Byte} (hlit : (32 : Byte) ∉ lit) (c : Conffile) :
    hasPrefix c.line lit = hasPrefix c.name lit := by
  rw [← hasPrefix_append_blank hlit c.name c.value, Conffile.line, List.append_assoc]
  rfl

theorem Conffile.named_of_parse (hparse : parseConffiles c.line = some [c.pair])
    (hfield : hasPrefix c.line (ascii "Conffiles") = true ∨ hasPrefix c.line (ascii " ") = true) :
    c.Named := by
  have hline : c.line = c.name ++ 32 :: c.value := by
    rw [line, List.append_assoc]
    rfl
  have hpair : parseConffiles (c.name ++ 32 :: c.value) = some [(c.name, c.value)] := hline ▸ hparse
  obtain ⟨hnot, hne, hvne, -⟩ := parseConffiles_pair_inv c.name_noSpace c.value_noSpace hpair
  refine ⟨?_, hnot, hvne⟩
  rcases hfield with hfield | hblank
  · rwa [hasPrefix_line (by decide)] at hfield
  · exfalso
    obtain ⟨e, name, hname⟩ := List.exists_cons_of_ne_nil hne
    have he : isspace e = false := c.name_noSpace e (by simp [hname])
    rw [hline, hname] at hblank
    obtain ⟨rest, hrest⟩ := List.isPrefixOf_iff_prefix.mp hblank
    have heq : (32 : Byte) = e := (List.cons.inj hrest).1
    rw [← heq] at he
    exact absurd he (by decide)

theorem Conffile.Named.parseConffiles_line (hnamed : c.Named)
    (hfits : c.length < LINE_LEN) : parseConffiles c.line = some [c.pair] := by
  obtain ⟨hfield, hnot, hvne⟩ := hnamed
  have hline : c.line = c.name ++ 32 :: c.value := by
    rw [line, List.append_assoc]
    rfl
  have hne : c.name ≠ [] := by
    intro hnil
    rw [hnil] at hfield
    exact absurd hfield (by decide)
  have hstarts : hasPrefix c.line (ascii "Conffiles:") = false := by
    rw [hasPrefix_line (by decide), hnot]
  unfold parseConffiles
  simp only [hstarts, Bool.false_eq_true, if_false]
  have hturns : c.line.length = c.name.length + c.value.length + 1 := by
    rw [c.length_line, length]
    omega
  simp only [length, LINE_LEN] at hfits
  rw [hturns, hline]
  exact parseConffileWords_pair c.name_noSpace c.value_noSpace hne hvne (by omega) (by omega) _

theorem Conffile.Named.endsStanza_line (hnamed : c.Named) : endsStanza c.line = false := by
  have hfield : hasPrefix c.line (ascii "Conffiles") = true := by
    rw [hasPrefix_line (by decide)]
    exact hnamed.1
  obtain ⟨rest, hrest⟩ := List.isPrefixOf_iff_prefix.mp hfield
  rw [← hrest]
  rfl

variable (platform) in
theorem parseLines_named (hnamed : c.Named) (hfits : c.length < LINE_LEN)
    (lines : List (List Byte)) (st : ParseState) :
    ∃ st₁, st₁.pkg.conffiles = st.pkg.conffiles ++ [c.pair] ∧
      parseLines platform (c.line :: lines) st = parseLines platform lines st₁ := by
  have hfield : hasPrefix c.line (ascii "Conffiles") = true := by
    rw [hasPrefix_line (by decide)]
    exact hnamed.1
  have hparse := hnamed.parseConffiles_line hfits
  refine ⟨{ st.set { st.pkg with conffiles := st.pkg.conffiles ++ [c.pair] } with
    readingConffiles := true }, rfl, ?_⟩
  rw [parseLines, hnamed.endsStanza_line, parseLine_named hfield]
  simp [FieldType.conffiles, hparse]

/-! ### All records -/

theorem rawLines_short (hshort : c.length + 1 < LINE_LEN) (text : List Byte) :
    rawLines (conffileText c.pair ++ text) = c.line :: rawLines text := by
  rw [conffileText_short hshort, List.append_assoc, ← rawLines_append_newline c.noNewline]
  rfl

theorem rawLines_long (hlong : LINE_LEN ≤ c.length + 1) :
    rawLines (conffileText c.pair) = [c.line.take (LINE_LEN - 1)] := by
  rw [conffileText_long hlong]
  apply rawLines_of_notMem
  · exact fun hmem => c.noNewline (List.mem_of_mem_take hmem)
  · exact c.line_ne_nil

theorem recordsText_cons (c : Conffile) (records : List Conffile) :
    recordsText (c :: records) = conffileText c.pair ++ recordsText records := rfl

theorem parseConffiles_cut (hlong : LINE_LEN ≤ c.length) :
    parseConffiles (c.line.take (LINE_LEN - 1)) ≠ some [c.pair] := by
  intro hparse
  have hline : c.line = c.name ++ 32 :: c.value := by
    rw [Conffile.line, List.append_assoc]
    rfl
  rw [Conffile.length] at hlong
  by_cases hname : LINE_LEN - 1 ≤ c.name.length
  · rw [hline, List.take_append_of_le_length hname] at hparse
    have hone := parseConffiles_bound hparse
    have hnone : blanks (c.name.take (LINE_LEN - 1)) = 0 :=
      List.countP_eq_zero.mpr fun b hb => by simp [c.name_noSpace b (List.mem_of_mem_take hb)]
    rw [hnone, List.length_singleton] at hone
    omega
  · obtain ⟨k, hk⟩ : ∃ k, LINE_LEN - 1 = c.name.length + (k + 1) :=
      ⟨LINE_LEN - 1 - c.name.length - 1, by omega⟩
    have htake : c.line.take (LINE_LEN - 1) = c.name ++ 32 :: c.value.take k := by
      rw [hline, hk, List.take_length_add_append, List.take_succ_cons]
    rw [htake] at hparse
    have hcut := (parseConffiles_pair_inv c.name_noSpace
      (fun b hb => c.value_noSpace b (List.mem_of_mem_take hb)) hparse).2.2.2
    have hlength := congrArg List.length hcut
    rw [List.length_take] at hlength
    omega

theorem conffilesNamed_cons {d : Conffile} : ConffilesNamed (c :: d :: records) ↔
      c.Named ∧ c.length + 1 < LINE_LEN ∧ ConffilesNamed (d :: records) := by
  simp only [ConffilesNamed, List.dropLast_cons_cons, List.forall_mem_cons]
  constructor
  · rintro ⟨⟨⟨hc, -⟩, hd, hall⟩, hshort, hrest⟩
    exact ⟨hc, hshort, ⟨hd, hall⟩, hrest⟩
  · rintro ⟨hc, hshort, ⟨hd, hall⟩, hrest⟩
    exact ⟨⟨⟨hc, by omega⟩, hd, hall⟩, hshort, hrest⟩

theorem conffilesNamed_singleton : ConffilesNamed [c] ↔ c.Named ∧ c.length < LINE_LEN := by
  simp [ConffilesNamed]

theorem conffilesNamed_of_parse {st st' : ParseState}
    (hparse : parseLines platform (rawLines (recordsText records)) st = some (st', rest))
    (hall : st'.pkg.conffiles = st.pkg.conffiles ++ records.map Conffile.pair) :
    ConffilesNamed records := by
  induction records generalizing st with
  | nil => simp [ConffilesNamed]
  | cons c records ih =>
    rw [recordsText_cons] at hparse
    by_cases hshort : c.length + 1 < LINE_LEN
    · rw [rawLines_short hshort] at hparse
      rcases parseLines_cons hparse with rfl | ⟨st₁, hfirst, hmore⟩
      · exact absurd hall (by simp)
      obtain ⟨L₂, hL₂, hbound₂⟩ := records_bound List.not_mem_nil (Or.inr rfl) hmore
      have hnil : blanks [] = 0 := rfl
      rcases parseLine_conffiles hfirst with hkeep | ⟨L₁, hL₁, hadd, hfield⟩
      · -- then the other lines would have to yield one record more than they hold
        rw [hL₂, hkeep, List.append_cancel_left_eq] at hall
        rw [hall, List.length_map, List.length_cons] at hbound₂
        omega
      rw [hL₂, hadd, List.append_assoc, List.append_cancel_left_eq, List.map_cons] at hall
      have hbound₁ := parseConffiles_bound hL₁
      rw [c.blanks_line] at hbound₁
      have hlength := congrArg List.length hall
      rw [List.length_append, List.length_cons, List.length_map] at hlength
      obtain ⟨pair, rfl⟩ := List.length_eq_one_iff.mp (show L₁.length = 1 by omega)
      obtain ⟨rfl, rfl⟩ := List.cons.inj hall
      have hnamed := Conffile.named_of_parse hL₁ hfield
      have hrest := ih hmore hL₂
      cases records with
      | nil => exact conffilesNamed_singleton.mpr ⟨hnamed, by omega⟩
      | cons d records => exact conffilesNamed_cons.mpr ⟨hnamed, hshort, hrest⟩
    · have hlong := Nat.not_lt.mp hshort
      cases records with
      | nil =>
        rw [show recordsText [] = [] from rfl, List.append_nil, rawLines_long hlong] at hparse
        rcases parseLines_cons hparse with rfl | ⟨st₁, hfirst, hmore⟩
        · exact absurd hall (by simp)
        cases hmore
        rcases parseLine_conffiles hfirst with hkeep | ⟨L, hL, hadd, hfield⟩
        · exact absurd (hkeep ▸ hall) (by simp)
        rw [hadd, List.append_cancel_left_eq] at hall
        rw [hall] at hL
        have hfits : c.length < LINE_LEN := by
          by_contra hcut
          exact parseConffiles_cut (Nat.not_lt.mp hcut) hL
        have hline : c.line.take (LINE_LEN - 1) = c.line := by
          apply List.take_of_length_le
          rw [c.length_line]
          omega
        rw [hline] at hL hfield
        exact conffilesNamed_singleton.mpr ⟨Conffile.named_of_parse hL hfield, hfits⟩
      | cons d records =>
        -- the first record takes the second one's line with it
        exfalso
        rw [conffileText_long hlong] at hparse
        have hline : LF ∉ c.line.take (LINE_LEN - 1) :=
          fun hmem => c.noNewline (List.mem_of_mem_take hmem)
        obtain ⟨L, hL, hbound⟩ := records_bound hline (Or.inl (List.cons_ne_nil d records)) hparse
        have hone := c.blanks_take_le (LINE_LEN - 1)
        rw [hL, List.append_cancel_left_eq] at hall
        rw [hall, List.length_map, List.length_cons, List.length_cons] at hbound
        omega

variable (platform) in
theorem parse_of_conffilesNamed (hnamed : ConffilesNamed records) (st : ParseState) :
    ∃ st', parseLines platform (rawLines (recordsText records)) st = some (st', []) ∧
      st'.pkg.conffiles = st.pkg.conffiles ++ records.map Conffile.pair := by
  induction records generalizing st with
  | nil => exact ⟨st, rfl, by simp⟩
  | cons c records ih =>
    rw [recordsText_cons]
    cases records with
    | nil =>
      obtain ⟨hc, hfits⟩ := conffilesNamed_singleton.mp hnamed
      have hlines : rawLines (conffileText c.pair ++ recordsText []) = [c.line] := by
        by_cases hshort : c.length + 1 < LINE_LEN
        · exact rawLines_short hshort []
        · rw [show recordsText [] = [] from rfl, List.append_nil,
            rawLines_long (Nat.not_lt.mp hshort), List.take_of_length_le]
          rw [c.length_line]
          omega
      obtain ⟨st₁, hst₁, hstep⟩ := parseLines_named platform hc hfits [] st
      exact ⟨st₁, by rw [hlines, hstep]; rfl, hst₁⟩
    | cons d records =>
      obtain ⟨hc, hshort, hrest⟩ := conffilesNamed_cons.mp hnamed
      rw [rawLines_short hshort]
      obtain ⟨st₁, hst₁, hstep⟩ := parseLines_named platform hc (by omega)
        (rawLines (recordsText (d :: records))) st
      obtain ⟨st', hparse, hst'⟩ := ih hrest st₁
      refine ⟨st', by rw [hstep, hparse], ?_⟩
      rw [hst', hst₁, List.append_assoc]
      rfl

def afterHeader : ParseState :=
  { ParseState.init.set { pkgInit with conffiles := [] } with readingConffiles := true }

theorem parseLines_header {conffiles : List Conffile} (hne : conffiles ≠ []) :
    parseLines platform (rawLines (formattedConffiles (conffiles.map Conffile.pair)))
        ParseState.init =
      parseLines platform (rawLines (recordsText conffiles)) afterHeader := by
  have htext : formattedConffiles (conffiles.map Conffile.pair) =
      ascii "Conffiles:" ++ LF :: recordsText conffiles := by
    rw [formattedConffiles, if_neg (by simpa using hne), List.flatMap_map, List.append_assoc]
    rfl
  rw [htext, rawLines_append_newline (by decide), parseLines]
  rfl

/-- **A list of configuration files survives the status file exactly when it is empty or every one
of its records reads as the field's own line.** A record whose path does not begin with the name of
the field, as no absolute path does, is lost. -/
theorem conffiles_survive_iff (platform : Platform) (conffiles : List Conffile) :
    ConffilesSurvive platform conffiles ↔ ConffilesNamed conffiles := by
  by_cases hne : conffiles = []
  · subst hne
    exact iff_of_true ⟨_, _, _, rfl, rfl⟩ (by simp [ConffilesNamed])
  constructor
  · rintro ⟨pkg, named, rest, hparse, hall⟩
    obtain ⟨⟨st', left⟩, hlines, heq⟩ := Option.bind_eq_some_iff.mp hparse
    rw [parseLines_header hne] at hlines
    apply conffilesNamed_of_parse hlines
    cases heq
    rw [← hall]
    split <;> rfl
  · intro hnamed
    obtain ⟨st', hlines, hall⟩ := parse_of_conffilesNamed platform hnamed afterHeader
    rw [← parseLines_header hne] at hlines
    refine ⟨_, _, _, by rw [pkgParseRaw, hlines]; rfl, ?_⟩
    split <;> exact hall

def defaultConf : Conffile where
  name := ascii "/etc/a"
  value := ascii "d41d"
  name_noSpace := noSpace_of_all (by decide)
  value_noSpace := noSpace_of_all (by decide)

/-- One configuration file is lost: its line begins with no blank and names no field. -/
theorem conffiles_lost :
    ¬∀ (platform : Platform) (conffiles : List Conffile), ConffilesSurvive platform conffiles := by
  intro hall
  obtain ⟨pkg, named, rest, hparse, hconffiles⟩ := hall arm [defaultConf]
  have hnone : (pkgParseRaw arm
      (rawLines (formattedConffiles ([defaultConf].map Conffile.pair)))).map (·.1.conffiles) =
        some [] := by
    decide
  rw [hparse, Option.map_some, hconffiles] at hnone
  exact absurd hnone (by simp)

end Openmoko.Opkg
