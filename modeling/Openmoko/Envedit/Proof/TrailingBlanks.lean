import Openmoko.Envedit.Proof.LineReading

/-!
# Blanks before a newline

A text is parsed as it stands, and with blanks or blanks and a comment added before the newlines of
lines that are not empty.
-/

namespace Openmoko.Envedit

structure EditedLine where
  line : List Byte
  oneLine : LF ∉ line
  added : LineEnd
  nonempty : line = [] → added.text = []

structure EditedText where
  lines : List EditedLine
  last : List Byte
  lastOneLine : LF ∉ last

theorem LineEnd.oneLine (lineEnd : LineEnd) : LF ∉ lineEnd.text := by
  obtain ⟨blanks, comment⟩ := lineEnd
  have hblanks : LF ∉ blanks.text := fun hmem => (blanks.blank LF hmem).2 rfl
  cases comment with
  | none => simpa [LineEnd.text, commentText] using hblanks
  | some comment =>
    have hhash : LF ≠ HASH := by decide
    simpa [LineEnd.text, commentText, hblanks, hhash] using comment.oneLine

namespace EditedText

variable (text : EditedText)

def before : Lines where
  lines := text.lines.map (·.line)
  last := text.last
  oneLine := by
    intro line hline
    obtain ⟨edited, -, rfl⟩ := List.mem_map.mp hline
    exact edited.oneLine
  lastOneLine := text.lastOneLine

def after : Lines where
  lines := text.lines.map fun edited => edited.line ++ edited.added.text
  last := text.last
  oneLine := by
    intro line hline
    obtain ⟨edited, -, rfl⟩ := List.mem_map.mp hline
    rw [List.mem_append, not_or]
    exact ⟨edited.oneLine, edited.added.oneLine⟩
  lastOneLine := text.lastOneLine

def BlanksDontMatter : Prop :=
  ((∃ e, parseEdit text.before.text = .error e) ∧ ∃ e, parseEdit text.after.text = .error e) ∨
    ∃ edits edits', parseEdit text.before.text = .ok edits ∧
      parseEdit text.after.text = .ok edits' ∧
      ∀ vars, edits.foldl Edit.apply vars = edits'.foldl Edit.apply vars

end EditedText

/-- A line begins with `=` where the line before it, comments apart, ends in a name. -/
def Lines.NameThenEquals (file : Lines) : Prop :=
  ∃ before line after, file.lines ++ [file.last] = before ++ line :: after ∧
    before.foldlM follow .idle = some .name ∧ line.head? = some EQUALS

inductive Alike (s : Parser) : Parser → Prop
  | same : Alike s s
  | behindName (hstate : s.state = .stVar) : Alike s { s with state := .stSpcVar }
  | behindValue {v v' : List Byte} (hstate : s.state = .stVal) (hv : s.value = some v)
      (htrim : trim v' = trim v) (hnul : NUL ∉ v') : Alike s { s with value := some v' }

section Alike

variable {s s' : Parser} {mode : Mode} {c : Byte} {l : List Byte}

theorem Alike.flags (h : Alike s s') (comment nl : Bool) (line : ℕ) :
    Alike { s with comment := comment, nl := nl, line := line }
      { s' with comment := comment, nl := nl, line := line } := by
  cases h with
  | same => exact .same
  | behindName hstate => exact .behindName hstate
  | behindValue hstate hv htrim hnul => exact .behindValue hstate hv htrim hnul

theorem Alike.comment (h : Alike s s') :
    Alike { s with comment := true } { s' with comment := true } := by
  cases h with
  | same => exact .same
  | behindName hstate => exact .behindName hstate
  | behindValue hstate hv htrim hnul => exact .behindValue hstate hv htrim hnul

theorem Alike.line_eq (h : Alike s s') : s'.line = s.line := by
  cases h <;> rfl

theorem Alike.comment_eq (h : Alike s s') : s'.comment = s.comment := by
  cases h <;> rfl

theorem Alike.nl_eq (h : Alike s s') : s'.nl = s.nl := by
  cases h <;> rfl

theorem Alike.finish (h : Alike s s') : s'.finish = s.finish := by
  obtain ⟨state, var, value, line, comment, nl, edits⟩ := s
  cases h with
  | same => rfl
  | behindName hstate =>
    obtain rfl : state = .stVar := hstate
    rfl
  | behindValue hstate hv htrim hnul =>
    obtain rfl : state = .stVal := hstate
    obtain rfl : value = some _ := hv
    cases var with
    | none => rfl
    | some var => simp only [Parser.finish, Parser.flush, htrim]

theorem Alike.newline (h : Alike s s') (hname : s.state = .stVar → c ≠ EQUALS) :
    s'.newline c = s.newline c := by
  obtain ⟨state, var, value, line, comment, nl, edits⟩ := s
  cases h with
  | same => rfl
  | behindName hstate =>
    obtain rfl : state = .stVar := hstate
    simp only [Parser.newline, Parser.inLine, hname rfl, if_false]
    by_cases hspace : isspace c = true <;> simp [hspace, Parser.syntaxError]
  | behindValue hstate hv htrim hnul =>
    obtain rfl : state = .stVal := hstate
    obtain rfl : value = some _ := hv
    simp only [Parser.newline, Parser.trimValue, htrim]

theorem Alike.doubleNewline (h : Alike s s') :
    { s' with line := s'.line + 1 }.doubleNewline =
      { s with line := s.line + 1 }.doubleNewline := by
  obtain ⟨state, var, value, line, comment, nl, edits⟩ := s
  cases h with
  | same => rfl
  | behindName hstate =>
    obtain rfl : state = .stVar := hstate
    rfl
  | behindValue hstate hv htrim hnul =>
    obtain rfl : state = .stVal := hstate
    obtain rfl : value = some _ := hv
    cases var with
    | none => rfl
    | some var => simp only [Parser.doubleNewline, Parser.flush, htrim]

theorem Alike.turn (h : Alike s s') (hs : s.comment = false ∧ s.nl = true) (hhash : c ≠ HASH)
    (hname : s.state = .stVar → c ≠ EQUALS) : s'.turn c = s.turn c := by
  have hs' : s'.comment = false ∧ s'.nl = true := by rwa [h.comment_eq, h.nl_eq]
  by_cases hlf : c = LF
  · rw [hlf, turn_empty hs, turn_empty hs', h.doubleNewline]
  · rw [turn_newline hs.1 hs.2 hhash hlf, turn_newline hs'.1 hs'.2 hhash hlf, h.newline hname]

theorem Alike.blank (hs : Within mode s) (hmode : mode ≠ .idle) (h : Alike s s') (hc : IsBlank c) :
    ∃ t, s'.turn c = .ok t ∧ Alike s t := by
  obtain ⟨hholds, hcomment, hnl⟩ := hs
  have hs' : s'.comment = false ∧ s'.nl = false := by
    rw [h.comment_eq, h.nl_eq]
    exact ⟨hcomment, hnl⟩
  rw [turn_inLine hs'.1 hs'.2 hc.ne_hash hc.2]
  obtain ⟨state, var, value, line, comment, nl, edits⟩ := s
  obtain rfl : nl = false := hnl
  cases mode with
  | idle => exact absurd rfl hmode
  | name =>
    obtain rfl : state = .stVar := hholds.1
    have hbehind := Alike.behindName (s := ⟨.stVar, var, value, line, comment, false, edits⟩) rfl
    cases h with
    | same => exact ⟨_, by simp [Parser.inLine, hc.1], hbehind⟩
    | behindName => exact ⟨_, by simp [Parser.inLine, hc.1], hbehind⟩
    | behindValue hstate => cases hstate
  | nameBlank =>
    obtain rfl : state = .stSpcVar := hholds.1
    cases h with
    | same => exact ⟨_, by simp [Parser.inLine, hc.1], .same⟩
    | behindName hstate => cases hstate
    | behindValue hstate => cases hstate
  | value =>
    rcases hholds.1 with hstate | ⟨hstate, v, hv, hnul⟩
    · obtain rfl : state = .stSpcVal := hstate
      cases h with
      | same => exact ⟨_, by simp [Parser.inLine, hc.1], .same⟩
      | behindName hstate => cases hstate
      | behindValue hstate => cases hstate
    · obtain rfl : state = .stVal := hstate
      obtain rfl : value = some v := hv
      have hadd : ∀ v', NUL ∉ v' → trim v' = trim v →
          Alike ⟨.stVal, var, some v, line, comment, false, edits⟩
            ⟨.stVal, var, some (addChar (some v') SPACE), line, comment, false, edits⟩ := by
        intro v' hnul' htrim
        refine .behindValue rfl rfl ?_ (nul_notMem_cstr _)
        rw [addChar_blank hnul', trim_append_blank v' (by decide), htrim]
      cases h with
      | same => exact ⟨_, by simp [Parser.inLine, Parser.addToValue, hc.1], hadd v hnul rfl⟩
      | behindName hstate => cases hstate
      | behindValue _ hv htrim hnul' =>
        obtain rfl := Option.some.inj hv
        exact ⟨_, by simp [Parser.inLine, Parser.addToValue, hc.1], hadd _ hnul' htrim⟩

theorem Alike.added (hs : Done mode s) (hmode : mode ≠ .idle) (lineEnd : LineEnd) :
    ∃ t, lineEnd.text.foldlM Parser.turn s = .ok t ∧ (t.comment = true ∨ t.nl = false) ∧
      Alike s { t with comment := s.comment } := by
  obtain ⟨hholds, hflags⟩ := hs
  by_cases hcomment : s.comment = true
  · exact ⟨s, foldlM_comment hcomment lineEnd.oneLine, hflags, .same⟩
  · have hnl : s.nl = false := hflags.resolve_left hcomment
    obtain ⟨blanks, comment⟩ := lineEnd
    have hwithin : Within mode s := ⟨hholds, by simpa using hcomment, hnl⟩
    have hblanks : Leads Parser.turn (Alike s) blanks.text (Alike s) :=
      leads_blanks (fun _ _ h hc => h.blank hwithin hmode hc) blanks
    obtain ⟨t, hrun, ht⟩ := hblanks s .same
    have heq : { t with comment := s.comment } = t := by
      rw [← ht.comment_eq]
    have hnl' : t.nl = false := ht.nl_eq.trans hnl
    cases comment with
    | none =>
      refine ⟨t, by simpa [LineEnd.text, commentText] using hrun, .inr hnl', ?_⟩
      rwa [heq]
    | some comment =>
      refine ⟨{ t with comment := true }, ?_, .inl rfl, heq.symm ▸ ht⟩
      rw [LineEnd.text, List.foldlM_append, hrun]
      exact foldlM_hash t comment.oneLine

theorem follow_ne_idle {mode mode' : Mode} (hhash : c ≠ HASH)
    (h : follow mode (c :: l) = some mode') : mode' ≠ .idle := by
  have hafter : ∀ mode rest, mode ≠ .idle → afterName mode rest ≠ some .idle := by
    intro mode rest hmode
    unfold afterName
    split
    · split <;> simp [hmode]
    · split <;> simp
  have hsetting : ∀ rest, setting c rest ≠ some .idle := by
    intro rest
    unfold setting
    split
    · exact hafter _ _ (by decide)
    · simp
  rintro rfl
  unfold follow at h
  rw [List.takeWhile_cons_of_pos (by simpa using hhash)] at h
  cases mode with
  | idle => exact hsetting _ h
  | name =>
    dsimp only at h
    split at h
    · exact hafter _ _ (by decide) h
    · cases h
  | nameBlank => exact hafter _ _ (by decide) h
  | value =>
    dsimp only at h
    split at h
    · cases h
    · exact hsetting _ h

def InStep (r r' : Except ParseExit Parser) : Prop :=
  (∃ e, r = .error e ∧ r' = .error e) ∨ ∃ t t', r = .ok t ∧ r' = .ok t' ∧ Alike t t'

theorem inStep_self (r : Except ParseExit Parser) : InStep r r := by
  cases r with
  | error e => exact .inl ⟨e, rfl, rfl⟩
  | ok t => exact .inr ⟨t, t, rfl, rfl, .same⟩

theorem InStep.run {a a' b b' : List Byte}
    (h : InStep (a.foldlM Parser.turn s) (a'.foldlM Parser.turn s'))
    (hrest : ∀ t t', a.foldlM Parser.turn s = .ok t → Alike t t' →
      (b'.foldlM Parser.turn t' >>= Parser.finish) = (b.foldlM Parser.turn t >>= Parser.finish)) :
    ((a' ++ b').foldlM Parser.turn s' >>= Parser.finish) =
      ((a ++ b).foldlM Parser.turn s >>= Parser.finish) := by
  rw [List.foldlM_append, List.foldlM_append]
  obtain ⟨e, he, he'⟩ | ⟨t, t', ht, ht', halike⟩ := h
  · rw [he, he']
    rfl
  · rw [ht']
    have hrun := hrest t t' ht halike
    rw [ht]
    exact hrun

theorem Alike.lf {t : Parser} (h : Alike s { t with comment := s.comment })
    (hs : s.comment = true ∨ s.nl = false) (ht : t.comment = true ∨ t.nl = false) :
    ∃ u u', [LF].foldlM Parser.turn s = .ok u ∧ [LF].foldlM Parser.turn t = .ok u' ∧
      Alike u u' := by
  rw [List.foldlM_cons, List.foldlM_cons, turn_lf hs, turn_lf ht]
  refine ⟨_, _, rfl, rfl, ?_⟩
  have hflags := h.flags false true (s.line + 1)
  rw [← h.line_eq] at hflags ⊢
  exact hflags

theorem Alike.line (hs : Resting mode s) (h : Alike s s') (hlf : LF ∉ l) (added : LineEnd)
    (hadded : l = [] → added.text = []) (hname : s.state = .stVar → l.head? ≠ some EQUALS) :
    InStep ((l ++ [LF]).foldlM Parser.turn s)
      ((l ++ added.text ++ [LF]).foldlM Parser.turn s') := by
  cases l with
  | nil =>
    have hturn := h.turn (c := LF) hs.2 (by decide) fun _ => by decide
    rw [hadded rfl, List.append_nil, List.nil_append, List.foldlM_cons, List.foldlM_cons, hturn]
    exact inStep_self _
  | cons c rest =>
    rw [List.append_assoc]
    by_cases hhash : c = HASH
    · -- a comment stays one with what is added
      obtain rfl := hhash
      rw [List.mem_cons, not_or] at hlf
      have hlf' : LF ∉ rest ++ added.text := by
        rw [List.mem_append, not_or]
        exact ⟨hlf.2, added.oneLine⟩
      obtain ⟨u, u', hu, hu', halike⟩ := Alike.lf (s := { s with comment := true })
        (t := { s' with comment := true }) h.comment (.inl rfl) (.inl rfl)
      refine .inr ⟨u, u', ?_, ?_, halike⟩
      · rw [List.foldlM_append, foldlM_hash s hlf.2]
        exact hu
      · rw [← List.append_assoc, List.cons_append, List.foldlM_append, foldlM_hash s' hlf']
        exact hu'
    · have hturn := h.turn hs.2 hhash fun hstate heq => hname hstate (by rw [heq]; rfl)
      have hrun : (c :: rest).foldlM Parser.turn s' = (c :: rest).foldlM Parser.turn s := by
        rw [List.foldlM_cons, List.foldlM_cons, hturn]
      rw [List.foldlM_append, List.foldlM_append, hrun]
      have hends := ends_line hs (List.cons_ne_nil c rest) hlf
      cases hfollow : follow mode (c :: rest) with
      | none =>
        rw [hfollow] at hends
        obtain ⟨e, he⟩ := hends
        rw [he]
        exact .inl ⟨e, rfl, rfl⟩
      | some mode' =>
        rw [hfollow] at hends
        obtain ⟨w, hw, hdone⟩ := hends
        obtain ⟨t, ht, hflags, halike⟩ := Alike.added hdone (follow_ne_idle hhash hfollow) added
        obtain ⟨u, u', hu, hu', hlike⟩ := halike.lf hdone.2 hflags
        rw [hw]
        refine .inr ⟨u, u', ?_, ?_, hlike⟩
        · exact hu
        · change (added.text ++ [LF]).foldlM Parser.turn w = .ok u'
          rw [List.foldlM_append, ht]
          exact hu'

theorem Holds.eq_name (h : Holds mode s) (hstate : s.state = .stVar) : mode = .name := by
  cases mode with
  | idle => exact absurd (hstate.symm.trans h) nofun
  | name => rfl
  | nameBlank => exact absurd (hstate.symm.trans h.1) nofun
  | value =>
    rcases h.1 with hspace | ⟨hvalue, -⟩
    · exact absurd (hstate.symm.trans hspace) nofun
    · exact absurd (hstate.symm.trans hvalue) nofun

theorem Alike.last (hs : Resting mode s) (h : Alike s s') (hlf : LF ∉ l)
    (hname : s.state = .stVar → l.head? ≠ some EQUALS) :
    (l.foldlM Parser.turn s' >>= Parser.finish) = (l.foldlM Parser.turn s >>= Parser.finish) := by
  cases l with
  | nil => exact h.finish
  | cons c rest =>
    by_cases hhash : c = HASH
    · obtain rfl := hhash
      rw [List.mem_cons, not_or] at hlf
      rw [foldlM_hash s hlf.2, foldlM_hash s' hlf.2]
      exact h.comment.finish
    · have hturn := h.turn hs.2 hhash fun hstate heq => hname hstate (by rw [heq]; rfl)
      rw [List.foldlM_cons, List.foldlM_cons, hturn]

/-- **The runs go in step**, as long as no line begins with `=` behind a name. -/
theorem Alike.run (lines : List EditedLine) (hs : Resting mode s) (h : Alike s s') (hlf : LF ∉ l)
    (hname : ∀ before line after, lines.map (·.line) ++ [l] = before ++ line :: after →
      before.foldlM follow mode = some .name → line.head? ≠ some EQUALS) :
    (((lines.flatMap fun edited => edited.line ++ edited.added.text ++ [LF]) ++ l).foldlM
        Parser.turn s' >>= Parser.finish) =
      (((lines.flatMap fun edited => edited.line ++ [LF]) ++ l).foldlM
        Parser.turn s >>= Parser.finish) := by
  induction lines generalizing mode s s' with
  | nil => exact h.last hs hlf fun hstate => hname [] l [] rfl (by rw [hs.1.eq_name hstate]; rfl)
  | cons edited lines ih =>
    have hstep := h.line hs edited.oneLine edited.added edited.nonempty fun hstate =>
      hname [] edited.line _ rfl (by rw [hs.1.eq_name hstate]; rfl)
    have hends := ends_terminated hs edited.oneLine
    rw [List.flatMap_cons, List.flatMap_cons, List.append_assoc, List.append_assoc (_ ++ [LF])]
    refine hstep.run fun t t' ht halike => ?_
    rw [ht] at hends
    cases hfollow : follow mode edited.line with
    | none =>
      rw [hfollow] at hends
      obtain ⟨e, he⟩ := hends
      cases he
    | some mode' =>
      rw [hfollow] at hends
      obtain ⟨_, heq, hresting⟩ := hends
      obtain rfl := Except.ok.inj heq
      refine ih hresting halike fun before line after hlines hbefore => ?_
      refine hname (edited.line :: before) line after (by rw [List.map_cons]; simp [hlines]) ?_
      rw [List.foldlM_cons, hfollow]
      exact hbefore

end Alike

theorem parseEdit_after {text : EditedText} (h : ¬text.before.NameThenEquals) :
    parseEdit text.after.text = parseEdit text.before.text := by
  have hrun := Alike.run text.lines resting_start .same text.lastOneLine
    fun before line after hlines hbefore hequals => h ⟨before, line, after, hlines, hbefore, hequals⟩
  simpa [parseEdit, Lines.text, EditedText.after, EditedText.before, List.flatMap_map] using hrun

theorem Lines.NameThenEquals.not_inOrder {file : Lines} (h : file.NameThenEquals) :
    ¬file.InOrder := by
  obtain ⟨before, line, after, hlines, hbefore, hequals⟩ := h
  rintro ⟨mode, hread, -⟩
  rw [hlines, List.foldlM_append, hbefore] at hread
  cases line with
  | nil => cases hequals
  | cons c rest =>
    obtain rfl := Option.some.inj hequals
    have hstop : follow .name (EQUALS :: rest) = none := by
      unfold follow
      rw [List.takeWhile_cons_of_pos (by decide)]
      rfl
    change (((EQUALS :: rest) :: after).foldlM follow .name) = some mode at hread
    rw [List.foldlM_cons, hstop] at hread
    cases hread

theorem rejected_iff (file : Lines) : (∃ e, parseEdit file.text = .error e) ↔ ¬file.InOrder := by
  rw [← accepted_iff]
  cases parseEdit file.text with
  | error e => simp
  | ok edits => simp

theorem blanksDontMatter_iff (text : EditedText) :
    text.BlanksDontMatter ↔ ¬(text.after.InOrder ∧ text.before.NameThenEquals) := by
  unfold EditedText.BlanksDontMatter
  constructor
  · rintro (⟨-, hafter⟩ | ⟨edits, -, hbefore, -⟩) ⟨hinOrder, hequals⟩
    · exact (rejected_iff _).mp hafter hinOrder
    · exact hequals.not_inOrder ((accepted_iff _).mp ⟨edits, hbefore⟩)
  · intro h
    by_cases hequals : text.before.NameThenEquals
    · have hafter : ¬text.after.InOrder := fun hinOrder => h ⟨hinOrder, hequals⟩
      exact .inl ⟨(rejected_iff _).mpr hequals.not_inOrder, (rejected_iff _).mpr hafter⟩
    · rw [parseEdit_after hequals]
      cases parseEdit text.before.text with
      | error e => exact .inl ⟨⟨e, rfl⟩, e, rfl⟩
      | ok edits => exact .inr ⟨edits, edits, rfl, rfl, fun _ => rfl⟩

def equalsBelowName : EditedText where
  lines :=
    [{ line := [97], oneLine := by decide,
       added := ⟨⟨[SPACE], fun _ hc => by rw [List.mem_singleton.mp hc]; exact ⟨rfl, by decide⟩⟩, none⟩,
       nonempty := nofun },
     { line := [EQUALS, 98], oneLine := by decide, added := ⟨noBlanks, none⟩, nonempty := nofun }]
  last := []
  lastOneLine := List.not_mem_nil

/-- With the blank the two lines are one setting, and without it they are rejected. -/
theorem not_blanksDontMatter_equalsBelowName : ¬equalsBelowName.BlanksDontMatter := by
  have hbefore : parseEdit equalsBelowName.before.text = .error (.syntaxError 2) := by decide
  have hafter : parseEdit equalsBelowName.after.text = .ok [.set ⟨[97], [98]⟩] := by decide
  rintro (⟨-, e, he⟩ | ⟨edits, -, hedits, -⟩)
  · rw [hafter] at he
    cases he
  · rw [hbefore] at hedits
    cases hedits

end Openmoko.Envedit
