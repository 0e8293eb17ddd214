import Openmoko.Envedit.Proof.SettingsText

/-!
# Which settings are accepted

The parser takes characters; what it accepts can be said of lines. Before each line it waits for a
setting, has a name without `=`, with or without whitespace behind it, or has a value that may go on.
-/

namespace Openmoko.Envedit

/-- What the parser waits for at the start of a line. -/
inductive Mode where
  | idle
  | name
  | nameBlank
  | value
  deriving DecidableEq, Repr

def afterName (mode : Mode) (rest : List Byte) : Option Mode :=
  match rest.dropWhile isspace with
  | [] => some (if rest = [] then mode else .nameBlank)
  | c :: _ => if c = EQUALS then some .value else none

def setting (c : Byte) (rest : List Byte) : Option Mode :=
  if alpha c then afterName .name (rest.dropWhile alnum) else none

/-- What it waits for behind the line; `none` when it refuses it. -/
def follow (mode : Mode) (line : List Byte) : Option Mode :=
  match line.takeWhile (· ≠ HASH), mode with
  | [], mode =>
    if line ≠ [] then some mode
    else if mode = .idle ∨ mode = .value then some .idle
    else none
  | c :: rest, .idle => setting c rest
  | c :: rest, .name => if isspace c then afterName .name (c :: rest) else none
  | c :: rest, .nameBlank => afterName .nameBlank (c :: rest)
  | c :: rest, .value => if isspace c then some .value else setting c rest

structure Lines where
  lines : List (List Byte)
  last : List Byte
  oneLine : ∀ line ∈ lines, LF ∉ line
  lastOneLine : LF ∉ last

def Lines.text (file : Lines) : List Byte := file.lines.flatMap (· ++ [LF]) ++ file.last

/-- No line is refused, and the last name has its `=`. -/
def Lines.InOrder (file : Lines) : Prop :=
  ∃ mode, (file.lines ++ [file.last]).foldlM follow .idle = some mode ∧
    (mode = .idle ∨ mode = .value)

def Ends (P : Mode → Parser → Prop) (outcome : Option Mode) (r : Except ParseExit Parser) : Prop :=
  match outcome with
  | some mode => ∃ s, r = .ok s ∧ P mode s
  | none => ∃ e, r = .error e

section Ends

variable {P Q : Mode → Parser → Prop} {s s' : Parser} {mode : Mode} {outcome : Option Mode}
  {c : Byte} {l l' : List Byte}

theorem Ends.cons (h : s.turn c = .ok s') (hrest : Ends P outcome (l.foldlM Parser.turn s')) :
    Ends P outcome ((c :: l).foldlM Parser.turn s) := by
  rw [List.foldlM_cons, h]
  exact hrest

theorem Ends.stop (h : ∃ e, s.turn c = .error e) :
    Ends P none ((c :: l).foldlM Parser.turn s) := by
  obtain ⟨e, he⟩ := h
  rw [List.foldlM_cons, he]
  exact ⟨e, rfl⟩

theorem Ends.imp {r : Except ParseExit Parser} (h : Ends P outcome r)
    (himp : ∀ mode s, P mode s → Q mode s) : Ends Q outcome r := by
  cases outcome with
  | none => exact h
  | some mode =>
    obtain ⟨s, hs, hmode⟩ := h
    exact ⟨s, hs, himp mode s hmode⟩

/-- Two stretches are read one after the other. -/
theorem Ends.append {f : Mode → Option Mode} (h : Ends P outcome (l.foldlM Parser.turn s))
    (hrest : ∀ mode s, P mode s → Ends Q (f mode) (l'.foldlM Parser.turn s)) :
    Ends Q (outcome.bind f) ((l ++ l').foldlM Parser.turn s) := by
  rw [List.foldlM_append]
  cases outcome with
  | none =>
    obtain ⟨e, he⟩ := h
    rw [he]
    exact ⟨e, rfl⟩
  | some mode =>
    obtain ⟨t, ht, hmode⟩ := h
    rw [ht]
    exact hrest mode t hmode

theorem Ends.then (h : Ends P outcome (l.foldlM Parser.turn s))
    (hrest : ∀ mode s, P mode s → ∃ s', l'.foldlM Parser.turn s = .ok s' ∧ Q mode s') :
    Ends Q outcome ((l ++ l').foldlM Parser.turn s) := by
  have happend := h.append (f := some) hrest
  rwa [Option.bind_fun_some] at happend

end Ends

/-! ### Within a line -/

def Holds : Mode → Parser → Prop
  | .idle, s => s.state = .st0
  | .name, s => s.state = .stVar ∧ s.var ≠ none
  | .nameBlank, s => s.state = .stSpcVar ∧ s.var ≠ none
  | .value, s => (s.state = .stSpcVal ∨ s.state = .stVal ∧ ∃ v, s.value = some v ∧ NUL ∉ v) ∧
      s.var ≠ none

def Within (mode : Mode) (s : Parser) : Prop := Holds mode s ∧ s.comment = false ∧ s.nl = false

section Within

variable {s : Parser} {c : Byte} {l : List Byte}

theorem within_of_inLine (mode : Mode) {t : Parser} (hs : s.comment = false ∧ s.nl = false)
    (hhash : c ≠ HASH) (hlf : c ≠ LF) (hline : s.inLine c = .ok t)
    (ht : Holds mode { t with nl := false } ∧ t.comment = false) :
    ∃ s', s.turn c = .ok s' ∧ Within mode s' := by
  refine ⟨{ t with nl := false }, ?_, ht.1, ht.2, rfl⟩
  rw [turn_inLine hs.1 hs.2 hhash hlf, hline]
  rfl

theorem error_of_inLine (hs : s.comment = false ∧ s.nl = false) (hhash : c ≠ HASH) (hlf : c ≠ LF)
    (hline : s.inLine c = s.syntaxError) : ∃ e, s.turn c = .error e := by
  refine ⟨.syntaxError s.line, ?_⟩
  rw [turn_inLine hs.1 hs.2 hhash hlf, hline]
  rfl

theorem within_value (hs : Within .value s) (hhash : c ≠ HASH) (hlf : c ≠ LF) :
    ∃ s', s.turn c = .ok s' ∧ Within .value s' := by
  obtain ⟨⟨hstate, hvar⟩, hflags⟩ := hs
  have hadd : ∀ b, Holds .value { s.addToValue b with state := .stVal, nl := false } := by
    intro b
    exact ⟨.inr ⟨rfl, _, rfl, nul_notMem_cstr _⟩, hvar⟩
  rcases hstate with hstate | ⟨hstate, v, hv, hnul⟩
  · by_cases hspace : isspace c = true
    · have hline : s.inLine c = .ok s := by
        simp only [Parser.inLine, hstate, hspace, if_true]
      exact within_of_inLine _ hflags hhash hlf hline ⟨⟨.inl hstate, hvar⟩, hflags.1⟩
    · have hline : s.inLine c = .ok { s.addToValue c with state := .stVal } := by
        simp only [Parser.inLine, hstate, hspace]
        rfl
      exact within_of_inLine _ hflags hhash hlf hline ⟨hadd c, hflags.1⟩
  · have hline : ∃ b, s.inLine c = .ok { s.addToValue b with state := .stVal } := by
      simp only [Parser.inLine, hstate]
      split
      · exact ⟨c, by rw [← hstate]; rfl⟩
      · exact ⟨SPACE, by rw [← hstate]; rfl⟩
    obtain ⟨b, hline⟩ := hline
    exact within_of_inLine _ hflags hhash hlf hline ⟨hadd b, hflags.1⟩

/-- A value takes whatever comes on its line. -/
theorem within_value_run (hs : Within .value s) (hhash : HASH ∉ l) (hlf : LF ∉ l) :
    Ends Within (some .value) (l.foldlM Parser.turn s) := by
  have hrun : Leads Parser.turn (Within .value) l (Within .value) := by
    refine Leads.loop fun c hc s hs => within_value hs ?_ ?_
    · exact fun heq => hhash (heq ▸ hc)
    · exact fun heq => hlf (heq ▸ hc)
  exact hrun s hs

theorem within_nameBlank (hs : Within .nameBlank s) (hspace : isspace c = true) (hhash : c ≠ HASH)
    (hlf : c ≠ LF) : ∃ s', s.turn c = .ok s' ∧ Within .nameBlank s' := by
  obtain ⟨⟨hstate, hvar⟩, hflags⟩ := hs
  have hline : s.inLine c = .ok s := by
    simp only [Parser.inLine, hstate, hspace, if_true]
  exact within_of_inLine _ hflags hhash hlf hline ⟨⟨hstate, hvar⟩, hflags.1⟩

theorem within_equals {mode : Mode} (hmode : mode = .name ∨ mode = .nameBlank)
    (hs : Within mode s) : ∃ s', s.turn EQUALS = .ok s' ∧ Within .value s' := by
  have hspace : isspace EQUALS = false := by decide
  obtain ⟨hholds, hflags⟩ := hs
  have hname : (s.state = .stVar ∨ s.state = .stSpcVar) ∧ s.var ≠ none := by
    rcases hmode with rfl | rfl
    · exact hholds.imp_left Or.inl
    · exact hholds.imp_left Or.inr
  obtain ⟨hstate, hvar⟩ := hname
  have hline : s.inLine EQUALS = .ok { s with state := .stSpcVal } := by
    rcases hstate with hstate | hstate <;> simp [Parser.inLine, hstate, hspace]
  exact within_of_inLine _ hflags (by decide) (by decide) hline ⟨⟨.inl rfl, hvar⟩, hflags.1⟩

theorem nameBlank_stop (hs : Within .nameBlank s) (hspace : isspace c = false) (hc : c ≠ EQUALS)
    (hhash : c ≠ HASH) (hlf : c ≠ LF) : ∃ e, s.turn c = .error e := by
  refine error_of_inLine hs.2 hhash hlf ?_
  simp [Parser.inLine, hs.1.1, hspace, hc]

theorem within_nameBlank_run (hs : Within .nameBlank s) (hhash : HASH ∉ l) (hlf : LF ∉ l) :
    Ends Within (afterName .nameBlank l) (l.foldlM Parser.turn s) := by
  induction l generalizing s with
  | nil => exact ⟨s, rfl, hs⟩
  | cons c l ih =>
    rw [List.mem_cons, not_or, ← ne_eq, ne_comm] at hhash hlf
    obtain ⟨hhash, hhash'⟩ := hhash
    obtain ⟨hlf, hlf'⟩ := hlf
    by_cases hspace : isspace c = true
    · obtain ⟨s', hturn, hs'⟩ := within_nameBlank hs hspace hhash hlf
      have hrest := ih hs' hhash' hlf'
      have hafter : afterName .nameBlank (c :: l) = afterName .nameBlank l := by
        simp [afterName, List.dropWhile_cons_of_pos hspace]
      rw [hafter]
      exact hrest.cons hturn
    · have hafter : afterName .nameBlank (c :: l) = if c = EQUALS then some .value else none := by
        simp [afterName, List.dropWhile_cons_of_neg hspace]
      rw [hafter]
      split
      · next hc =>
        obtain ⟨s', hturn, hs'⟩ := within_equals (.inr rfl) hs
        exact (within_value_run hs' hhash' hlf').cons (hc ▸ hturn)
      · next hc =>
        exact Ends.stop (nameBlank_stop hs (by simpa using hspace) hc hhash hlf)

/-- Behind the characters of a name only whitespace or `=` is taken. -/
theorem within_name_run (hs : Within .name s) (hhash : HASH ∉ l) (hlf : LF ∉ l) :
    Ends Within (afterName .name (l.dropWhile alnum)) (l.foldlM Parser.turn s) := by
  induction l generalizing s with
  | nil => exact ⟨s, rfl, hs⟩
  | cons c l ih =>
    rw [List.mem_cons, not_or, ← ne_eq, ne_comm] at hhash hlf
    obtain ⟨hhash, hhash'⟩ := hhash
    obtain ⟨hlf, hlf'⟩ := hlf
    obtain ⟨⟨hstate, hvar⟩, hflags⟩ := hs
    by_cases halnum : alnum c = true
    · obtain ⟨hspace, hequals, -⟩ := alnum_plain halnum
      have hline : s.inLine c = .ok (s.addToVar c) := by
        simp [Parser.inLine, hstate, hspace, hequals, halnum]
      obtain ⟨s', hturn, hs'⟩ := within_of_inLine .name hflags hhash
        hlf hline ⟨⟨hstate, Option.some_ne_none _⟩, hflags.1⟩
      rw [List.dropWhile_cons_of_pos halnum]
      exact (ih hs' hhash' hlf').cons hturn
    · rw [List.dropWhile_cons_of_neg halnum]
      by_cases hspace : isspace c = true
      · have hline : s.inLine c = .ok { s with state := .stSpcVar } := by
          simp [Parser.inLine, hstate, hspace]
        obtain ⟨s', hturn, hs'⟩ := within_of_inLine .nameBlank hflags hhash
          hlf hline ⟨⟨rfl, hvar⟩, hflags.1⟩
        have hafter : afterName .name (c :: l) = afterName .nameBlank l := by
          simp [afterName, List.dropWhile_cons_of_pos hspace]
        rw [hafter]
        exact (within_nameBlank_run hs' hhash' hlf').cons hturn
      · have hafter : afterName .name (c :: l) = if c = EQUALS then some .value else none := by
          simp [afterName, List.dropWhile_cons_of_neg hspace]
        rw [hafter]
        split
        · next hc =>
          obtain ⟨s', hturn, hs'⟩ := within_equals (.inl rfl) ⟨⟨hstate, hvar⟩, hflags⟩
          exact (within_value_run hs' hhash' hlf').cons (hc ▸ hturn)
        · next hc =>
          refine Ends.stop (error_of_inLine hflags hhash hlf ?_)
          simp [Parser.inLine, hstate, hspace, hc, halnum]

end Within

/-! ### From line to line -/

def Resting (mode : Mode) (s : Parser) : Prop := Holds mode s ∧ s.comment = false ∧ s.nl = true

def Done (mode : Mode) (s : Parser) : Prop := Holds mode s ∧ (s.comment = true ∨ s.nl = false)

section Resting

variable {s t : Parser} {mode : Mode} {c : Byte} {l rest : List Byte}

theorem within_of_newline (mode : Mode) (hs : s.comment = false ∧ s.nl = true) (hhash : c ≠ HASH)
    (hlf : c ≠ LF) (hline : s.newline c = .ok t)
    (ht : Holds mode { t with nl := false } ∧ t.comment = false) :
    ∃ s', s.turn c = .ok s' ∧ Within mode s' := by
  refine ⟨{ t with nl := false }, ?_, ht.1, ht.2, rfl⟩
  rw [turn_newline hs.1 hs.2 hhash hlf, hline]
  rfl

theorem error_of_newline (hs : s.comment = false ∧ s.nl = true) (hhash : c ≠ HASH) (hlf : c ≠ LF)
    (hline : s.newline c = t.syntaxError) : ∃ e, s.turn c = .error e := by
  refine ⟨.syntaxError t.line, ?_⟩
  rw [turn_newline hs.1 hs.2 hhash hlf, hline]
  rfl

theorem beginVar_of_alpha (s : Parser) (hc : alpha c = true) :
    s.beginVar c = .ok { s.addToVar c with state := .stVar } := by
  rw [Parser.beginVar, if_neg (by simp [(alpha_plain hc).1]), if_neg (by simp [hc])]

theorem beginVar_of_not_alpha (s : Parser) (hc : alpha c = false) :
    s.beginVar c = s.syntaxError := by
  rw [Parser.beginVar]
  split
  · rfl
  · rw [if_pos (by simp [hc])]

theorem flush_ok (hvar : s.var ≠ none) :
    ∃ t, s.flush = .ok t ∧ t.comment = s.comment ∧ t.nl = s.nl := by
  obtain ⟨name, hname⟩ := Option.ne_none_iff_exists'.mp hvar
  unfold Parser.flush
  rw [hname]
  cases s.value with
  | none => exact ⟨_, rfl, rfl, rfl⟩
  | some v => exact ⟨_, rfl, rfl, rfl⟩

theorem continueValue_of_space (s : Parser) (hspace : isspace c = true) :
    s.continueValue c = .ok s := by
  rw [Parser.continueValue, if_neg (by simp [hspace])]

theorem continueValue_setting (hvar : s.var ≠ none) (hspace : isspace c = false) :
    ∃ t : Parser, s.continueValue c = t.beginVar c ∧ t.comment = s.comment := by
  obtain ⟨t, hflush, hcomment, -⟩ := flush_ok hvar
  refine ⟨{ t with state := .st0 }, ?_, hcomment⟩
  rw [Parser.continueValue, if_pos (by simp [hspace]), hflush]
  rfl

theorem newline_value (hs : Resting .value s) :
    ∃ t : Parser, s.newline c = t.continueValue c ∧ t.state = .stSpcVal ∧ t.var ≠ none ∧
      t.comment = false := by
  obtain ⟨⟨hstate, hvar⟩, hflags⟩ := hs
  rcases hstate with hstate | ⟨hstate, v, hv, -⟩
  · refine ⟨s, ?_, hstate, hvar, hflags.1⟩
    simp only [Parser.newline, hstate]
  · refine ⟨{ ({ s with value := some (trim v) } : Parser).addToValue SPACE with
      state := .stSpcVal }, ?_, rfl, hvar, hflags.1⟩
    simp only [Parser.newline, hstate, Parser.trimValue, hv]
    rfl

/-- Where a setting may begin, the line is read as one. -/
theorem ends_setting (hs : s.comment = false ∧ s.nl = true) (hline : s.newline c = t.beginVar c)
    (ht : t.comment = false) (hhash : HASH ∉ c :: rest) (hlf : LF ∉ c :: rest) :
    Ends Within (setting c rest) ((c :: rest).foldlM Parser.turn s) := by
  rw [List.mem_cons, not_or, ← ne_eq, ne_comm] at hhash hlf
  rw [setting]
  split
  · next halpha =>
    rw [beginVar_of_alpha t halpha] at hline
    obtain ⟨s', hturn, hs'⟩ := within_of_newline .name hs hhash.1 hlf.1 hline
      ⟨⟨rfl, Option.some_ne_none _⟩, ht⟩
    exact (within_name_run hs' hhash.2 hlf.2).cons hturn
  · next halpha =>
    rw [beginVar_of_not_alpha t (by simpa using halpha)] at hline
    exact Ends.stop (error_of_newline hs hhash.1 hlf.1 hline)

theorem takeWhile_of_notMem (h : HASH ∉ l) : l.takeWhile (· ≠ HASH) = l := by
  rw [List.takeWhile_eq_self_iff]
  intro c hc
  have hne : c ≠ HASH := fun heq => h (heq ▸ hc)
  simpa using hne

theorem turn_nameBlank (hs : Resting .nameBlank s) (hhash : c ≠ HASH) (hlf : c ≠ LF) :
    s.turn c = { s with nl := false }.turn c := by
  have hwithin : Within .nameBlank { s with nl := false } := ⟨hs.1, hs.2.1, rfl⟩
  have hinLine := turn_inLine hwithin.2.1 hwithin.2.2 hhash hlf
  rw [turn_newline hs.2.1 hs.2.2 hhash hlf, hinLine]
  obtain ⟨state, var, value, line, comment, nl, edits⟩ := s
  obtain rfl : state = .stSpcVar := hs.1.1
  simp only [Parser.newline, Parser.inLine]
  split_ifs <;> rfl

/-- A line without a comment leads to the next mode, or is refused. -/
theorem ends_body (hs : Resting mode s) (hhash : HASH ∉ c :: rest) (hlf : LF ∉ c :: rest) :
    Ends Within (follow mode (c :: rest)) ((c :: rest).foldlM Parser.turn s) := by
  obtain ⟨hhash', hhash''⟩ := not_or.mp (List.mem_cons.not.mp hhash)
  obtain ⟨hlf', hlf''⟩ := not_or.mp (List.mem_cons.not.mp hlf)
  unfold follow
  rw [takeWhile_of_notMem hhash]
  cases mode with
  | idle =>
    have hline : s.newline c = s.beginVar c := by
      rw [Parser.newline, hs.1]
    exact ends_setting hs.2 hline hs.2.1 hhash hlf
  | name =>
    dsimp only
    split
    · next hspace =>
      have hline : s.newline c = .ok { s with state := .stSpcVar } := by
        simp [Parser.newline, hs.1.1, Parser.inLine, hspace]
      obtain ⟨s', hturn, hs'⟩ := within_of_newline .nameBlank hs.2 (Ne.symm hhash') (Ne.symm hlf')
        hline ⟨⟨rfl, hs.1.2⟩, hs.2.1⟩
      have hafter : afterName .name (c :: rest) = afterName .nameBlank rest := by
        simp [afterName, List.dropWhile_cons_of_pos hspace]
      rw [hafter]
      exact (within_nameBlank_run hs' hhash'' hlf'').cons hturn
    · next hspace =>
      refine Ends.stop (error_of_newline (t := s) hs.2 (Ne.symm hhash') (Ne.symm hlf') ?_)
      simp [Parser.newline, hs.1.1, hspace]
  | nameBlank =>
    -- the start of the line makes no difference here
    have hwithin : Within .nameBlank { s with nl := false } := ⟨hs.1, hs.2.1, rfl⟩
    have hturn := turn_nameBlank hs (Ne.symm hhash') (Ne.symm hlf')
    have hrun := within_nameBlank_run hwithin hhash hlf
    rw [List.foldlM_cons, ← hturn] at hrun
    rw [List.foldlM_cons]
    exact hrun
  | value =>
    dsimp only
    obtain ⟨t, hline, hstate, hvar, hcomment⟩ := newline_value (c := c) hs
    split
    · next hspace =>
      rw [continueValue_of_space t hspace] at hline
      obtain ⟨s', hturn, hs'⟩ := within_of_newline .value hs.2 (Ne.symm hhash') (Ne.symm hlf')
        hline ⟨⟨.inl hstate, hvar⟩, hcomment⟩
      exact (within_value_run hs' hhash'' hlf'').cons hturn
    · next hspace =>
      obtain ⟨u, hu, hucomment⟩ := continueValue_setting hvar (by simpa using hspace)
      exact ends_setting hs.2 (hline.trans hu) (hucomment.trans hcomment) hhash hlf

theorem foldlM_comment (hs : s.comment = true) (hlf : LF ∉ l) :
    l.foldlM Parser.turn s = .ok s := by
  induction l with
  | nil => rfl
  | cons c l ih =>
    rw [List.mem_cons, not_or] at hlf
    rw [List.foldlM_cons, turn_comment hs (Ne.symm hlf.1)]
    exact ih hlf.2

theorem foldlM_hash (s : Parser) (hlf : LF ∉ l) :
    (HASH :: l).foldlM Parser.turn s = .ok { s with comment := true } := by
  rw [List.foldlM_cons, turn_hash]
  exact foldlM_comment rfl hlf

theorem eq_body_comment (l : List Byte) :
    HASH ∉ l ∨ ∃ body comment, HASH ∉ body ∧ l = body ++ HASH :: comment := by
  by_cases hhash : HASH ∈ l
  · obtain ⟨body, comment, rfl, hbody⟩ := List.eq_append_cons_of_mem hhash
    exact .inr ⟨body, comment, hbody, rfl⟩
  · exact .inl hhash

/-- A comment counts for nothing; a line of nothing else changes no mode. -/
theorem follow_comment {body comment : List Byte} (hbody : HASH ∉ body) :
    follow mode (body ++ HASH :: comment) =
      if body = [] then some mode else follow mode body := by
  have htake : (body ++ HASH :: comment).takeWhile (· ≠ HASH) = body := by
    rw [List.takeWhile_append_of_pos, List.takeWhile_cons_of_neg (by simp), List.append_nil]
    intro c hc
    have hne : c ≠ HASH := fun heq => hbody (heq ▸ hc)
    simpa using hne
  cases body with
  | nil => simp [follow]
  | cons c rest =>
    unfold follow
    rw [htake, takeWhile_of_notMem hbody]
    rfl

theorem Holds.comment (h : Holds mode s) : Holds mode { s with comment := true } := by
  cases mode <;> exact h

theorem ends_line (hs : Resting mode s) (hl : l ≠ []) (hlf : LF ∉ l) :
    Ends Done (follow mode l) (l.foldlM Parser.turn s) := by
  have hdone : ∀ {l : List Byte}, l ≠ [] → HASH ∉ l → LF ∉ l →
      Ends Done (follow mode l) (l.foldlM Parser.turn s) := by
    intro l hl hhash hlf
    obtain ⟨c, rest, rfl⟩ := List.exists_cons_of_ne_nil hl
    exact (ends_body hs hhash hlf).imp fun mode s hs => ⟨hs.1, .inr hs.2.2⟩
  rcases eq_body_comment l with hhash | ⟨body, comment, hbody, rfl⟩
  · exact hdone hl hhash hlf
  · rw [List.mem_append, not_or, List.mem_cons, not_or] at hlf
    rw [follow_comment hbody]
    split
    · next hnil =>
      rw [hnil, List.nil_append, foldlM_hash s hlf.2.2]
      exact ⟨_, rfl, hs.1.comment, .inl rfl⟩
    · next hne =>
      refine (hdone hne hbody hlf.1).then fun mode s hs => ?_
      exact ⟨_, foldlM_hash s hlf.2.2, hs.1.comment, .inl rfl⟩

theorem done_lf (hs : Done mode s) : ∃ s', s.turn LF = .ok s' ∧ Resting mode s' := by
  refine ⟨_, turn_lf hs.2, ?_, rfl, rfl⟩
  cases mode <;> exact hs.1

theorem turn_empty (hs : s.comment = false ∧ s.nl = true) :
    s.turn LF = (do
      let s ← { s with line := s.line + 1 }.doubleNewline
      return { s with nl := true }) := by
  simp [Parser.turn, Parser.takeChar, hs.1, hs.2, show LF ≠ HASH by decide]

theorem ends_empty (hs : Resting mode s) :
    Ends Resting (follow mode []) ([LF].foldlM Parser.turn s) := by
  obtain ⟨hholds, hflags⟩ := hs
  have hturn := turn_empty hflags
  cases mode with
  | idle =>
    have hdouble : { s with line := s.line + 1 }.doubleNewline = .ok { s with line := s.line + 1 } := by
      simp only [Parser.doubleNewline]
      rw [show s.state = .st0 from hholds]
    rw [hdouble] at hturn
    exact Ends.cons hturn ⟨_, rfl, hholds, hflags.1, rfl⟩
  | name =>
    refine Ends.stop ⟨.syntaxError (s.line + 1), hturn.trans ?_⟩
    simp only [Parser.doubleNewline, hholds.1]
    rfl
  | nameBlank =>
    refine Ends.stop ⟨.syntaxError (s.line + 1), hturn.trans ?_⟩
    simp only [Parser.doubleNewline, hholds.1]
    rfl
  | value =>
    obtain ⟨t, hflush, hcomment, -⟩ := flush_ok (s := { s with line := s.line + 1 }) hholds.2
    have hdouble : { s with line := s.line + 1 }.doubleNewline = .ok { t with state := .st0 } := by
      rcases hholds.1 with hstate | ⟨hstate, -⟩
      · simp only [Parser.doubleNewline, hstate]
        rw [hstate] at hflush
        rw [hflush]
        rfl
      · simp only [Parser.doubleNewline, hstate]
        rw [hstate] at hflush
        rw [hflush]
        rfl
    rw [hdouble] at hturn
    exact Ends.cons hturn ⟨_, rfl, rfl, hcomment.trans hflags.1, rfl⟩

/-- So does a line with its comment and its newline. -/
theorem ends_terminated (hs : Resting mode s) (hlf : LF ∉ l) :
    Ends Resting (follow mode l) ((l ++ [LF]).foldlM Parser.turn s) := by
  by_cases hl : l = []
  · rw [hl]
    exact ends_empty hs
  · refine (ends_line hs hl hlf).then fun mode s hs => ?_
    obtain ⟨s', hturn, hs'⟩ := done_lf hs
    exact ⟨s', by rw [List.foldlM_cons, hturn]; rfl, hs'⟩

/-- **Line by line.** The parser goes through the modes of the lines. -/
theorem ends_lines {lines : List (List Byte)} (hs : Resting mode s) (hlf : ∀ l ∈ lines, LF ∉ l) :
    Ends Resting (lines.foldlM follow mode)
      ((lines.flatMap (· ++ [LF])).foldlM Parser.turn s) := by
  induction lines generalizing s mode with
  | nil => exact ⟨s, rfl, hs⟩
  | cons l lines ih =>
    rw [List.flatMap_cons, List.foldlM_cons]
    rw [List.forall_mem_cons] at hlf
    exact (ends_terminated hs hlf.1).append fun mode s hs => ih hs hlf.2

theorem finish_iff (hs : Holds mode s) :
    (∃ edits, s.finish = .ok edits) ↔ mode = .idle ∨ mode = .value := by
  cases mode with
  | idle =>
    refine iff_of_true ⟨s.edits, ?_⟩ (.inl rfl)
    rw [Parser.finish, hs]
  | name =>
    refine iff_of_false ?_ (by simp)
    rw [Parser.finish, hs.1]
    simp
  | nameBlank =>
    refine iff_of_false ?_ (by simp)
    rw [Parser.finish, hs.1]
    simp
  | value =>
    obtain ⟨t, hflush, -⟩ := flush_ok hs.2
    refine iff_of_true ⟨t.edits, ?_⟩ (.inr rfl)
    rcases hs.1 with hstate | ⟨hstate, -⟩
    · rw [Parser.finish, hstate, hflush]
      rfl
    · rw [Parser.finish, hstate, hflush]
      rfl

theorem accepts_last (hs : Resting mode s) (hlf : LF ∉ l) :
    (∃ edits, (l.foldlM Parser.turn s >>= Parser.finish) = .ok edits) ↔
      ∃ mode', follow mode l = some mode' ∧ (mode' = .idle ∨ mode' = .value) := by
  by_cases hl : l = []
  · rw [hl]
    refine (finish_iff hs.1).trans ?_
    cases mode <;> simp [follow]
  · have hends := ends_line hs hl hlf
    cases hfollow : follow mode l with
    | none =>
      rw [hfollow] at hends
      obtain ⟨e, he⟩ := hends
      rw [he]
      exact iff_of_false nofun nofun
    | some mode' =>
      rw [hfollow] at hends
      obtain ⟨s', hrun, hs'⟩ := hends
      rw [hrun]
      refine (finish_iff hs'.1).trans ?_
      simp

end Resting

theorem resting_start : Resting .idle Parser.start := ⟨rfl, rfl, rfl⟩

/-- **Accepted settings.** The parser accepts the files whose lines are in order. -/
theorem accepted_iff (file : Lines) :
    (∃ edits, parseEdit file.text = .ok edits) ↔ file.InOrder := by
  have hlines := ends_lines resting_start file.oneLine
  unfold parseEdit Lines.text Lines.InOrder
  rw [List.foldlM_append, List.foldlM_append]
  cases hfollow : file.lines.foldlM follow .idle with
  | none =>
    rw [hfollow] at hlines
    obtain ⟨e, he⟩ := hlines
    rw [he]
    exact iff_of_false nofun nofun
  | some mode =>
    rw [hfollow] at hlines
    obtain ⟨s, hrun, hs⟩ := hlines
    rw [hrun]
    refine (accepts_last hs file.lastOneLine).trans ?_
    simp

end Openmoko.Envedit
