import Openmoko.Envedit.Parse
import Openmoko.Envedit.Proof.ImageRoundTrip
import Openmoko.Library.Loop

/-!
# Settings are read as they are written

A list of assignments can be written in many ways: with whitespace around `=`, with values that go
on over indented lines, with comments behind and between the lines. Every way is accepted and makes
the same calls. What `print_env` writes is one of these ways.
-/

namespace Openmoko.Envedit

def IsBlank (c : Byte) : Prop := isspace c = true ∧ c ≠ LF

structure Blanks where
  text : List Byte
  blank : ∀ c ∈ text, IsBlank c

structure Comment where
  text : List Byte
  oneLine : LF ∉ text

structure LineEnd where
  blanks : Blanks
  comment : Option Comment

def commentText : Option Comment → List Byte
  | none => []
  | some comment => HASH :: comment.text

def LineEnd.text (lineEnd : LineEnd) : List Byte :=
  lineEnd.blanks.text ++ commentText lineEnd.comment

structure Filler where
  line : LineEnd
  nonempty : line.text ≠ []

def Filler.text (filler : Filler) : List Byte := filler.line.text ++ [LF]

structure Break where
  lineEnd : LineEnd
  fillers : List Filler

def Break.text (b : Break) : List Byte :=
  b.lineEnd.text ++ [LF] ++ b.fillers.flatMap Filler.text

structure Wrap where
  lineBreak : Break
  indent : Blanks
  indented : indent.text ≠ []

def Wrap.text (wrap : Wrap) : List Byte := wrap.lineBreak.text ++ wrap.indent.text

structure Pad where
  wraps : List Wrap
  blanks : Blanks

def Pad.text (pad : Pad) : List Byte := pad.wraps.flatMap Wrap.text ++ pad.blanks.text

structure Name where
  first : Byte
  others : List Byte
  alpha_first : alpha first = true
  alnum_others : ∀ c ∈ others, alnum c = true

def Name.text (name : Name) : List Byte := name.first :: name.others

structure Words where
  text : List Byte
  clean : ∀ c ∈ text, c ≠ LF ∧ c ≠ HASH ∧ c ≠ NUL
  starts : ∃ c ∈ text.head?, isspace c = false
  ends : ∃ c ∈ text.getLast?, isspace c = false

def Words.joined (words : Words) : List Byte :=
  words.text.map fun c => if isspace c then SPACE else c

structure Value where
  words : Words
  more : List (Wrap × Words)

def Value.text (value : Value) : List Byte :=
  value.words.text ++ value.more.flatMap fun line => line.1.text ++ line.2.text

def Value.joined (value : Value) : List Byte :=
  value.words.joined ++ value.more.flatMap fun line => SPACE :: line.2.joined

structure Assignment where
  name : Name
  before : Pad
  after : Pad
  value : Option Value

def valueText : Option Value → List Byte
  | none => []
  | some value => value.text

def Assignment.text (a : Assignment) : List Byte :=
  a.name.text ++ a.before.text ++ [EQUALS] ++ a.after.text ++ valueText a.value

def Assignment.edit (a : Assignment) : Edit :=
  match a.value with
  | none => .del a.name.text
  | some value => .set ⟨a.name.text, value.joined⟩

structure Settings where
  head : List Comment
  body : List (Assignment × Break)
  -- an assignment whose last line has no line break
  last : Option (Assignment × LineEnd)

def lastText : Option (Assignment × LineEnd) → List Byte
  | none => []
  | some (a, lineEnd) => a.text ++ lineEnd.text

def Settings.text (file : Settings) : List Byte :=
  file.head.flatMap (fun comment => HASH :: comment.text ++ [LF]) ++
    file.body.flatMap (fun line => line.1.text ++ line.2.text) ++ lastText file.last

def Settings.assignments (file : Settings) : List Assignment :=
  file.body.map Prod.fst ++ (file.last.map Prod.fst).toList

theorem IsBlank.ne_hash {c : Byte} (hc : IsBlank c) : c ≠ HASH := by
  rintro rfl
  exact absurd hc.1 (by decide)

theorem alpha_plain {c : Byte} (hc : alpha c = true) :
    isspace c = false ∧ c ≠ EQUALS ∧ c ≠ HASH ∧ c ≠ LF ∧ c ≠ NUL := by
  simp only [alpha, isupper, islower, isspace, EQUALS, HASH, LF, NUL] at *
  grind

theorem isdigit_plain {c : Byte} (hc : isdigit c = true) :
    isspace c = false ∧ c ≠ EQUALS ∧ c ≠ HASH ∧ c ≠ LF ∧ c ≠ NUL := by
  simp only [isdigit, isspace, EQUALS, HASH, LF, NUL] at *
  grind

theorem alnum_plain {c : Byte} (hc : alnum c = true) :
    isspace c = false ∧ c ≠ EQUALS ∧ c ≠ HASH ∧ c ≠ LF ∧ c ≠ NUL := by
  rw [alnum] at hc
  split at hc
  · exact isdigit_plain ‹_›
  · exact alpha_plain hc

theorem addChar_of_ne (base : Option (List Byte)) {c : Byte} (hbase : NUL ∉ base.getD [])
    (hc : c ≠ NUL) : addChar base c = base.getD [] ++ [c] := by
  apply cstr_eq_self
  rw [List.mem_append, List.mem_singleton]
  exact not_or.mpr ⟨hbase, hc.symm⟩

/-! ### One character -/

section Turn

variable {s : Parser} {c : Byte}

theorem turn_inLine (hcomment : s.comment = false) (hnl : s.nl = false) (hhash : c ≠ HASH)
    (hlf : c ≠ LF) : s.turn c = (do
      let s ← s.inLine c
      return { s with nl := false }) := by
  simp [Parser.turn, Parser.takeChar, hcomment, hnl, hhash, hlf]

theorem turn_newline (hcomment : s.comment = false) (hnl : s.nl = true) (hhash : c ≠ HASH)
    (hlf : c ≠ LF) : s.turn c = (do
      let s ← s.newline c
      return { s with nl := false }) := by
  simp [Parser.turn, Parser.takeChar, hcomment, hnl, hhash, hlf]

theorem turn_hash : s.turn HASH = .ok { s with comment := true } := by
  simp [Parser.turn, show HASH ≠ LF by decide]

theorem turn_comment (hcomment : s.comment = true) (hlf : c ≠ LF) : s.turn c = .ok s := by
  obtain ⟨state, var, value, line, comment, nl, edits⟩ := s
  obtain rfl : comment = true := hcomment
  simp [Parser.turn, hlf]

theorem turn_lf (hline : s.comment = true ∨ s.nl = false) :
    s.turn LF = .ok { s with comment := false, nl := true, line := s.line + 1 } := by
  obtain ⟨state, var, value, line, comment, nl, edits⟩ := s
  cases comment <;> cases nl <;>
    simp_all [Parser.turn, Parser.takeChar, show LF ≠ HASH by decide]

end Turn

/-! ### Interruptions

Before `=`, behind it and behind a word an assignment can be interrupted. `I` holds in the line that
is left, `J` at the start of the next line and `K` behind its indentation.
-/

structure Pauses (I J K : Parser → Prop) : Prop where
  inLine : ∀ s, I s → s.comment = false ∧ s.nl = false
  atStart : ∀ s, J s → s.comment = false ∧ s.nl = true
  indented : ∀ s, K s → I s
  blank : ∀ s c, I s → IsBlank c → ∃ s', s.turn c = .ok s' ∧ I s'
  newline : ∀ s, I s → J { s with comment := false, nl := true, line := s.line + 1 }
  nextLine : ∀ s, J s → J { s with comment := false, nl := true, line := s.line + 1 }
  indent : ∀ s c, J s → IsBlank c → ∃ s', s.turn c = .ok s' ∧ K s'
  indentMore : ∀ s c, K s → IsBlank c → ∃ s', s.turn c = .ok s' ∧ K s'

def Commented (P : Parser → Prop) (s : Parser) : Prop :=
  s.comment = true ∧ ∃ t, P t ∧ s = { t with comment := true }

theorem leads_comment (P : Parser → Prop) (comment : Comment) :
    Leads Parser.turn P (HASH :: comment.text) (Commented P) := by
  apply Leads.cons (Q := Commented P)
  · intro s hs
    exact ⟨_, turn_hash, rfl, s, hs, rfl⟩
  · apply Leads.loop
    intro c hc s hs
    have hlf : c ≠ LF := fun heq => comment.oneLine (heq ▸ hc)
    exact ⟨s, turn_comment hs.1 hlf, hs⟩

theorem leads_blanks {P : Parser → Prop}
    (hP : ∀ s c, P s → IsBlank c → ∃ s', s.turn c = .ok s' ∧ P s') (blanks : Blanks) :
    Leads Parser.turn P blanks.text P :=
  Leads.loop fun c hc s hs => hP s c hs (blanks.blank c hc)

def Ended (P : Parser → Prop) (s : Parser) : Prop := P s ∨ Commented P s

section Interruption

variable {I J K : Parser → Prop} (h : Pauses I J K)
include h

theorem Pauses.lineEnd (lineEnd : LineEnd) : Leads Parser.turn I lineEnd.text (Ended I) := by
  apply (leads_blanks h.blank lineEnd.blanks).append
  cases lineEnd.comment with
  | none => exact Leads.nil fun _ hs => .inl hs
  | some comment => exact (leads_comment I comment).post fun _ => .inr

theorem Pauses.lf_ended (s : Parser) (hs : Ended I s) : ∃ s', s.turn LF = .ok s' ∧ J s' := by
  obtain hs | ⟨hcomment, t, ht, rfl⟩ := hs
  · exact ⟨_, turn_lf (.inr (h.inLine s hs).2), h.newline s hs⟩
  · exact ⟨_, turn_lf (.inl hcomment), h.newline t ht⟩

theorem Pauses.filler (filler : Filler) : Leads Parser.turn J filler.text J := by
  obtain ⟨⟨⟨blanks, hblanks⟩, comment⟩, hnonempty⟩ := filler
  cases blanks with
  | nil =>
    cases comment with
    | none => exact absurd rfl hnonempty
    | some comment =>
      apply (leads_comment J comment).append
      apply Leads.single
      rintro s ⟨hcomment, t, ht, rfl⟩
      exact ⟨_, turn_lf (.inl hcomment), h.nextLine t ht⟩
  | cons b blanks =>
    let rest : LineEnd := ⟨⟨blanks, fun c hc => hblanks c (List.mem_cons_of_mem b hc)⟩, comment⟩
    have hrest := (h.lineEnd rest).append (Leads.single h.lf_ended)
    refine Leads.cons (fun s hs => ?_) hrest
    obtain ⟨s', hturn, hs'⟩ := h.indent s b hs (hblanks b List.mem_cons_self)
    exact ⟨s', hturn, h.indented s' hs'⟩

theorem Pauses.break (b : Break) : Leads Parser.turn I b.text J := by
  apply ((h.lineEnd b.lineEnd).append (Leads.single h.lf_ended)).append
  induction b.fillers with
  | nil => exact Leads.nil fun _ hs => hs
  | cons filler fillers ih => exact (h.filler filler).append ih

theorem Pauses.wrap (wrap : Wrap) : Leads Parser.turn I wrap.text K := by
  apply (h.break wrap.lineBreak).append
  obtain ⟨_, ⟨indent, hblank⟩, hindented⟩ := wrap
  cases indent with
  | nil => exact absurd rfl hindented
  | cons b indent =>
    refine Leads.cons (fun s hs => h.indent s b hs (hblank b List.mem_cons_self)) ?_
    apply Leads.loop
    intro c hc s hs
    exact h.indentMore s c hs (hblank c (List.mem_cons_of_mem b hc))

theorem Pauses.pad (pad : Pad) : Leads Parser.turn I pad.text I := by
  refine Leads.append ?_ (leads_blanks h.blank pad.blanks)
  induction pad.wraps with
  | nil => exact Leads.nil fun _ hs => hs
  | cons wrap wraps ih => exact ((h.wrap wrap).post h.indented).append ih

/-- The first blank ends what `I₀` and `J₀` say of the state. -/
theorem Pauses.or {I₀ J₀ : Parser → Prop} (hline : ∀ s, I₀ s → s.comment = false ∧ s.nl = false)
    (hstart : ∀ s, J₀ s → s.comment = false ∧ s.nl = true)
    (hblank : ∀ s c, I₀ s → IsBlank c → ∃ s', s.turn c = .ok s' ∧ (I₀ s' ∨ I s'))
    (hnewline : ∀ s, I₀ s → J₀ { s with comment := false, nl := true, line := s.line + 1 })
    (hnext : ∀ s, J₀ s → J₀ { s with comment := false, nl := true, line := s.line + 1 })
    (hindent : ∀ s c, J₀ s → IsBlank c → ∃ s', s.turn c = .ok s' ∧ K s') :
    Pauses (fun s => I₀ s ∨ I s) (fun s => J₀ s ∨ J s) K where
  inLine s hs := hs.elim (hline s) (h.inLine s)
  atStart s hs := hs.elim (hstart s) (h.atStart s)
  indented s hs := .inr (h.indented s hs)
  blank s c hs hc := hs.elim (hblank s c · hc) fun hs =>
    (h.blank s c hs hc).imp fun _ => And.imp_right .inr
  newline s hs := hs.imp (hnewline s) (h.newline s)
  nextLine s hs := hs.imp (hnext s) (h.nextLine s)
  indent s c hs hc := hs.elim (hindent s c · hc) (h.indent s c · hc)
  indentMore := h.indentMore

end Interruption

/-! ### Names and values -/

def Stands (state : ParseMode) (var value : Option (List Byte)) (nl : Bool) (edits : List Edit)
    (s : Parser) : Prop :=
  ∃ line, s = ⟨state, var, value, line, false, nl, edits⟩

variable {read : List Byte} {v : Var}

section Assignment

variable (name : List Byte) (done : List Edit)

def BeforeEquals (nl : Bool) (s : Parser) : Prop :=
  Stands .stVar (some name) none nl done s ∨ Stands .stSpcVar (some name) none nl done s

variable {name done}

theorem pauses_stands {state : ParseMode} {var value : Option (List Byte)}
    (hstate : state = .stSpcVar ∨ state = .stSpcVal) :
    Pauses (Stands state var value false done) (Stands state var value true done)
      (Stands state var value false done) := by
  have hblank : ∀ s c, Stands state var value false done s → IsBlank c →
      ∃ s', s.turn c = .ok s' ∧ Stands state var value false done s' := by
    rintro s c ⟨line, rfl⟩ hc
    rw [turn_inLine rfl rfl hc.ne_hash hc.2]
    rcases hstate with rfl | rfl
    all_goals
      simp only [Parser.inLine, hc.1, if_true]
      exact ⟨_, rfl, line, rfl⟩
  refine ⟨?_, ?_, fun s hs => hs, hblank, ?_, ?_, ?_, hblank⟩
  · exact fun s ⟨line, hs⟩ => hs ▸ ⟨rfl, rfl⟩
  · exact fun s ⟨line, hs⟩ => hs ▸ ⟨rfl, rfl⟩
  · exact fun s ⟨line, hs⟩ => ⟨line + 1, hs ▸ rfl⟩
  · exact fun s ⟨line, hs⟩ => ⟨line + 1, hs ▸ rfl⟩
  · rintro s c ⟨line, rfl⟩ hc
    rw [turn_newline rfl rfl hc.ne_hash hc.2]
    rcases hstate with rfl | rfl
    all_goals
      simp only [Parser.newline, Parser.inLine, Parser.continueValue, hc.1, if_true, Bool.not_true,
        Bool.false_eq_true, if_false]
      exact ⟨_, rfl, line, rfl⟩

theorem pauses_beforeEquals : Pauses (BeforeEquals name done false) (BeforeEquals name done true)
    (Stands .stSpcVar (some name) none false done) := by
  apply (pauses_stands (.inl rfl)).or
  · exact fun s ⟨line, hs⟩ => hs ▸ ⟨rfl, rfl⟩
  · exact fun s ⟨line, hs⟩ => hs ▸ ⟨rfl, rfl⟩
  · rintro s c ⟨line, rfl⟩ hc
    rw [turn_inLine rfl rfl hc.ne_hash hc.2]
    simp only [Parser.inLine, hc.1, if_true]
    exact ⟨_, rfl, .inr ⟨line, rfl⟩⟩
  · exact fun s ⟨line, hs⟩ => ⟨line + 1, hs ▸ rfl⟩
  · exact fun s ⟨line, hs⟩ => ⟨line + 1, hs ▸ rfl⟩
  · rintro s c ⟨line, rfl⟩ hc
    rw [turn_newline rfl rfl hc.ne_hash hc.2]
    simp only [Parser.newline, Parser.inLine, hc.1, if_true, Bool.not_true, Bool.false_eq_true,
      if_false]
    exact ⟨_, rfl, line, rfl⟩

variable (name done)

variable (value : List Byte)

def BehindWord (nl : Bool) (s : Parser) : Prop :=
  (∃ u, trim u = value ∧ NUL ∉ u ∧ Stands .stVal (some name) (some u) nl done s) ∨
    Stands .stSpcVal (some name) (some (value ++ [SPACE])) nl done s

structure Settled (value : List Byte) : Prop where
  trimmed : trim value = value
  nul_notMem : NUL ∉ value

variable {value}

theorem trim_append_blank (s : List Byte) {c : Byte} (hc : isspace c = true) :
    trim (s ++ [c]) = trim s := by
  rw [trim, trim, List.rdropWhile_concat, if_pos hc]

theorem addChar_blank {u : List Byte} (hu : NUL ∉ u) : addChar (some u) SPACE = u ++ [SPACE] :=
  addChar_of_ne _ hu (by decide)

theorem pauses_behindWord (hvalue : Settled value) :
    Pauses (BehindWord name done value false) (BehindWord name done value true)
      (Stands .stSpcVal (some name) (some (value ++ [SPACE])) false done) := by
  apply (pauses_stands (.inr rfl)).or
  · exact fun s ⟨u, _, _, line, hs⟩ => hs ▸ ⟨rfl, rfl⟩
  · exact fun s ⟨u, _, _, line, hs⟩ => hs ▸ ⟨rfl, rfl⟩
  · rintro s c ⟨u, hu, hnul, line, rfl⟩ hc
    rw [turn_inLine rfl rfl hc.ne_hash hc.2]
    simp only [Parser.inLine, hc.1, Bool.not_true, Bool.false_eq_true, if_false,
      Parser.addToValue, addChar_blank hnul]
    refine ⟨_, rfl, .inl ⟨u ++ [SPACE], ?_, ?_, line, rfl⟩⟩
    · rw [trim_append_blank u (by decide), hu]
    · simpa [SPACE, NUL] using hnul
  · exact fun s ⟨u, hu, hnul, line, hs⟩ => ⟨u, hu, hnul, line + 1, hs ▸ rfl⟩
  · exact fun s ⟨u, hu, hnul, line, hs⟩ => ⟨u, hu, hnul, line + 1, hs ▸ rfl⟩
  · rintro s c ⟨u, hu, hnul, line, rfl⟩ hc
    rw [turn_newline rfl rfl hc.ne_hash hc.2]
    simp only [Parser.newline, Parser.trimValue, hu]
    refine ⟨_, ?_, line, rfl⟩
    simp [Parser.continueValue, Parser.addToValue, hc.1, addChar_blank hvalue.nul_notMem, bind,
      Except.bind, pure, Except.pure]

structure Ready (edits : List Edit) (s : Parser) : Prop where
  finished : s.finish = .ok edits
  next : ∀ c, alpha c = true →
    ∃ s', s.turn c = .ok s' ∧ Stands .stVar (some [c]) none false edits s'

theorem addChar_first {c : Byte} (hc : alpha c = true) : addChar none c = [c] :=
  addChar_of_ne _ List.not_mem_nil (alpha_plain hc).2.2.2.2

theorem ready_start (edits : List Edit) (s : Parser) (hs : Stands .st0 none none true edits s) :
    Ready edits s := by
  obtain ⟨line, rfl⟩ := hs
  refine ⟨rfl, fun c hc => ?_⟩
  obtain ⟨hspace, -, hhash, hlf, -⟩ := alpha_plain hc
  rw [turn_newline rfl rfl hhash hlf]
  refine ⟨_, ?_, line, rfl⟩
  simp [Parser.newline, Parser.beginVar, Parser.addToVar, addChar_first hc, hspace, hc, bind,
    Except.bind, pure, Except.pure]

theorem finish_comment (s : Parser) : Parser.finish { s with comment := true } = s.finish := by
  obtain ⟨state, var, value, line, comment, nl, edits⟩ := s
  cases state <;> cases var <;> cases value <;> rfl

theorem finish_ended {P : Parser → Prop} {result : Except ParseExit (List Edit)}
    (hP : ∀ s, P s → s.finish = result) (s : Parser) (hs : Ended P s) : s.finish = result := by
  obtain hs | ⟨_, t, ht, rfl⟩ := hs
  · exact hP s hs
  · rw [finish_comment, hP t ht]

theorem finish_afterEquals (nl : Bool) (s : Parser)
    (hs : Stands .stSpcVal (some name) none nl done s) : s.finish = .ok (done ++ [.del name]) := by
  obtain ⟨line, rfl⟩ := hs
  rfl

theorem ready_afterEquals (s : Parser) (hs : Stands .stSpcVal (some name) none true done s) :
    Ready (done ++ [.del name]) s := by
  refine ⟨finish_afterEquals name done true s hs, fun c hc => ?_⟩
  obtain ⟨hspace, -, hhash, hlf, -⟩ := alpha_plain hc
  obtain ⟨line, rfl⟩ := hs
  rw [turn_newline rfl rfl hhash hlf]
  refine ⟨_, ?_, line, rfl⟩
  simp [Parser.newline, Parser.continueValue, Parser.flush, Parser.beginVar, Parser.addToVar,
    addChar_first hc, hspace, hc, bind, Except.bind, pure, Except.pure]

theorem Settled.trim_blank (hvalue : Settled value) : trim (value ++ [SPACE]) = value := by
  rw [trim_append_blank value (by decide), hvalue.trimmed]

theorem finish_behindWord (hvalue : Settled value) (nl : Bool) (s : Parser)
    (hs : BehindWord name done value nl s) : s.finish = .ok (done ++ [.set ⟨name, value⟩]) := by
  obtain ⟨u, hu, hnul, line, rfl⟩ | ⟨line, rfl⟩ := hs
  · simp [Parser.finish, Parser.flush, hu, bind, Except.bind, pure, Except.pure]
  · simp [Parser.finish, Parser.flush, hvalue.trim_blank, bind, Except.bind, pure, Except.pure]

theorem ready_behindWord (hvalue : Settled value) (s : Parser)
    (hs : BehindWord name done value true s) : Ready (done ++ [.set ⟨name, value⟩]) s := by
  refine ⟨finish_behindWord name done hvalue true s hs, fun c hc => ?_⟩
  obtain ⟨hspace, -, hhash, hlf, -⟩ := alpha_plain hc
  obtain ⟨u, hu, hnul, line, rfl⟩ | ⟨line, rfl⟩ := hs
  all_goals
    rw [turn_newline rfl rfl hhash hlf]
    refine ⟨_, ?_, line, rfl⟩
  · simp [Parser.newline, Parser.trimValue, Parser.addToValue, hu, addChar_blank hvalue.nul_notMem,
      Parser.continueValue, Parser.flush, hvalue.trim_blank, Parser.beginVar, Parser.addToVar,
      addChar_first hc, hspace, hc, bind, Except.bind, pure, Except.pure]
  · simp [Parser.newline, Parser.continueValue, Parser.flush, hvalue.trim_blank, Parser.beginVar,
      Parser.addToVar, addChar_first hc, hspace, hc, bind, Except.bind, pure, Except.pure]

/-! ### Assignments -/

theorem leads_name (name : Name) : Leads Parser.turn (Ready done) name.text
    (BeforeEquals name.text done false) := by
  apply Leads.cons fun s hs => hs.next name.first name.alpha_first
  have hrest : ∀ others read : List Byte, (∀ c ∈ others, alnum c = true) → NUL ∉ read →
      Leads Parser.turn (Stands .stVar (some read) none false done) others
        (Stands .stVar (some (read ++ others)) none false done) := by
    intro others
    induction others with
    | nil =>
      intro read _ _
      exact Leads.nil fun s hs => by simpa using hs
    | cons c others ih =>
      intro read hothers hread
      obtain ⟨hspace, heq, hhash, hlf, hnul⟩ := alnum_plain (hothers c List.mem_cons_self)
      have hnext := ih (read ++ [c]) (fun d hd => hothers d (List.mem_cons_of_mem c hd))
        (by simpa using ⟨hread, hnul.symm⟩)
      rw [List.append_assoc] at hnext
      refine Leads.cons ?_ hnext
      rintro s ⟨line, rfl⟩
      rw [turn_inLine rfl rfl hhash hlf]
      refine ⟨_, ?_, line, rfl⟩
      simp [Parser.inLine, hspace, heq, hothers c List.mem_cons_self, Parser.addToVar,
        addChar_of_ne (some read) hread hnul, bind, Except.bind, pure, Except.pure]
  have hfirst := (alpha_plain name.alpha_first).2.2.2.2
  exact (hrest name.others [name.first] name.alnum_others (by simpa using hfirst.symm)).post
    fun s hs => .inl hs

theorem leads_equals (name : List Byte) : Leads Parser.turn (BeforeEquals name done false) [EQUALS]
    (Stands .stSpcVal (some name) none false done) := by
  apply Leads.single
  rintro s (⟨line, rfl⟩ | ⟨line, rfl⟩)
  all_goals
    rw [turn_inLine rfl rfl (by decide) (by decide)]
    exact ⟨_, rfl, line, rfl⟩

theorem NUL_notMem_joined (words : Words) : NUL ∉ words.joined := by
  intro hmem
  obtain ⟨c, hc, heq⟩ := List.mem_map.mp hmem
  split at heq
  · exact absurd heq (by decide)
  · exact (words.clean c hc).2.2 heq

theorem settled_joined (hread : NUL ∉ read) (words : Words) : Settled (read ++ words.joined) := by
  refine ⟨?_, ?_⟩
  · obtain ⟨c, hlast, hspace⟩ := words.ends
    obtain ⟨before, hbefore⟩ := List.getLast?_eq_some_iff.mp hlast
    rw [Words.joined, hbefore, List.map_append, List.map_singleton, if_neg (by simp [hspace]),
      ← List.append_assoc, trim, List.rdropWhile_concat_neg]
    simp [hspace]
  · rw [List.mem_append]
    exact not_or.mpr ⟨hread, NUL_notMem_joined words⟩

theorem leads_words (name : List Byte) (value : Option (List Byte))
    (hvalue : value.getD [] = read) (hread : NUL ∉ read) (words : Words) :
    Leads Parser.turn (Stands .stSpcVal (some name) value false done) words.text
      (BehindWord name done (read ++ words.joined) false) := by
  have hrest : ∀ rest read : List Byte, (∀ c ∈ rest, c ≠ LF ∧ c ≠ HASH ∧ c ≠ NUL) → NUL ∉ read →
      Leads Parser.turn (Stands .stVal (some name) (some read) false done) rest
        (Stands .stVal (some name)
          (some (read ++ rest.map fun c => if isspace c then SPACE else c)) false done) := by
    intro rest
    induction rest with
    | nil =>
      intro read _ _
      exact Leads.nil fun s hs => by simpa using hs
    | cons c rest ih =>
      intro read hrest hread
      obtain ⟨hlf, hhash, hnul⟩ := hrest c List.mem_cons_self
      have hnext := ih (read ++ [if isspace c then SPACE else c])
        (fun d hd => hrest d (List.mem_cons_of_mem c hd)) (by
          rw [List.mem_append, List.mem_singleton]
          split
          · exact not_or.mpr ⟨hread, by decide⟩
          · exact not_or.mpr ⟨hread, hnul.symm⟩)
      rw [List.append_assoc] at hnext
      refine Leads.cons ?_ hnext
      rintro s ⟨line, rfl⟩
      rw [turn_inLine rfl rfl hhash hlf]
      refine ⟨_, ?_, line, rfl⟩
      by_cases hspace : isspace c = true
      · simp [Parser.inLine, hspace, Parser.addToValue, addChar_blank hread, bind, Except.bind,
          pure, Except.pure]
      · simp [Parser.inLine, hspace, Parser.addToValue,
          addChar_of_ne (some read) hread hnul, bind, Except.bind, pure, Except.pure]
  have hsettled := settled_joined hread words
  obtain ⟨text, hclean, ⟨first, hfirst, hspace⟩, _⟩ := words
  obtain ⟨rest, rfl⟩ := List.head?_eq_some_iff.mp hfirst
  obtain ⟨hlf, hhash, hnul⟩ := hclean first List.mem_cons_self
  have hloop := hrest rest (read ++ [first]) (fun c hc => hclean c (List.mem_cons_of_mem first hc))
    (by simpa using ⟨hread, hnul.symm⟩)
  rw [List.append_assoc] at hloop
  refine Leads.cons ?_ (hloop.post fun s hs => .inl ⟨_, hsettled.trimmed, hsettled.nul_notMem, ?_⟩)
  · rintro s ⟨line, rfl⟩
    rw [turn_inLine rfl rfl hhash hlf]
    refine ⟨_, ?_, line, rfl⟩
    simp [Parser.inLine, hspace, Parser.addToValue, addChar_of_ne value (hvalue ▸ hread) hnul,
      hvalue, bind, Except.bind, pure, Except.pure]
  · simpa [Words.joined, hspace] using hs

theorem leads_value (name : List Byte) (value : Value) :
    Leads Parser.turn (Stands .stSpcVal (some name) none false done) value.text
      (BehindWord name done value.joined false) ∧ Settled value.joined := by
  have hmore : ∀ (more : List (Wrap × Words)) (read : List Byte), Settled read →
      Leads Parser.turn (BehindWord name done read false)
        (more.flatMap fun line => line.1.text ++ line.2.text)
        (BehindWord name done (read ++ more.flatMap fun line => SPACE :: line.2.joined) false) ∧
      Settled (read ++ more.flatMap fun line => SPACE :: line.2.joined) := by
    intro more
    induction more with
    | nil =>
      intro read hread
      simp only [List.flatMap_nil, List.append_nil]
      exact ⟨Leads.nil fun s hs => hs, hread⟩
    | cons line more ih =>
      intro read hread
      have hblank : NUL ∉ read ++ [SPACE] := by
        simpa [SPACE, NUL] using hread.nul_notMem
      have hwords : Leads Parser.turn
          (Stands .stSpcVal (some name) (some (read ++ [SPACE])) false done) line.2.text
          (BehindWord name done ((read ++ [SPACE]) ++ line.2.joined) false) :=
        leads_words done name (some (read ++ [SPACE])) rfl hblank line.2
      have hline := ((pauses_behindWord name done hread).wrap line.1).append hwords
      have hnext := ih _ (settled_joined hblank line.2)
      simp only [List.append_assoc, List.cons_append] at hline hnext
      simp only [List.flatMap_cons, List.append_assoc, List.cons_append]
      rw [← List.append_assoc line.1.text]
      exact ⟨hline.append hnext.1, hnext.2⟩
  have hfirst : Leads Parser.turn (Stands .stSpcVal (some name) none false done) value.words.text
      (BehindWord name done ([] ++ value.words.joined) false) :=
    leads_words done name none rfl List.not_mem_nil value.words
  have hsettled : Settled ([] ++ value.words.joined) := settled_joined List.not_mem_nil value.words
  rw [List.nil_append] at hfirst hsettled
  obtain ⟨hleads, hjoined⟩ := hmore value.more _ hsettled
  exact ⟨hfirst.append hleads, hjoined⟩

/-- **One assignment.** Where its text ends it can be interrupted, and whatever follows makes the
call that belongs to it. -/
theorem leads_assignment (a : Assignment) : ∃ I J K, Pauses I J K ∧
    Leads Parser.turn (Ready done) a.text I ∧ (∀ s, I s → s.finish = .ok (done ++ [a.edit])) ∧
    ∀ s, J s → Ready (done ++ [a.edit]) s := by
  obtain ⟨name, before, after, value⟩ := a
  have hbefore := (leads_name done name).append (pauses_beforeEquals.pad before)
  have hafter := (hbefore.append (leads_equals done name.text)).append
    ((pauses_stands (.inr rfl)).pad after)
  cases value with
  | none =>
    exact ⟨_, _, _, pauses_stands (.inr rfl), hafter.append (Leads.nil fun s hs => hs),
      finish_afterEquals name.text done false, ready_afterEquals name.text done⟩
  | some value =>
    obtain ⟨hvalue, hsettled⟩ := leads_value done name.text value
    exact ⟨_, _, _, pauses_behindWord name.text done hsettled, hafter.append hvalue,
      finish_behindWord name.text done hsettled false, ready_behindWord name.text done hsettled⟩

end Assignment

theorem leads_body (body : List (Assignment × Break)) (done : List Edit) :
    Leads Parser.turn (Ready done) (body.flatMap fun line => line.1.text ++ line.2.text)
      (Ready (done ++ body.map fun line => line.1.edit)) := by
  induction body generalizing done with
  | nil => exact Leads.nil fun s hs => by simpa using hs
  | cons line body ih =>
    obtain ⟨I, J, K, hpauses, htext, -, hready⟩ := leads_assignment done line.1
    have hnext := ih (done ++ [line.1.edit])
    rw [List.append_assoc] at hnext
    exact ((htext.append (hpauses.break line.2)).post hready).append hnext

theorem leads_head (head : List Comment) :
    Leads Parser.turn (Stands .st0 none none true [])
      (head.flatMap fun comment => HASH :: comment.text ++ [LF])
      (Stands .st0 none none true []) := by
  induction head with
  | nil => exact Leads.nil fun _ hs => hs
  | cons comment head ih =>
    refine Leads.append ((leads_comment _ comment).append (Leads.single ?_)) ih
    rintro s ⟨hcomment, t, ⟨line, rfl⟩, rfl⟩
    exact ⟨_, turn_lf (.inl hcomment), line + 1, rfl⟩

theorem parseEdit_settings (file : Settings) :
    parseEdit file.text = .ok (file.assignments.map Assignment.edit) := by
  obtain ⟨head, body, last⟩ := file
  have hlines := ((leads_head head).post (ready_start [])).append (leads_body body [])
  have hfile : Leads Parser.turn (Stands .st0 none none true [])
      (Settings.text ⟨head, body, last⟩)
      (fun s =>
        s.finish = .ok (Settings.assignments ⟨head, body, last⟩ |>.map Assignment.edit)) := by
    refine hlines.append ?_
    cases last with
    | none =>
      exact Leads.nil fun s hs => by
        simpa [Settings.assignments, Function.comp_def] using hs.finished
    | some line =>
      obtain ⟨I, J, K, hpauses, htext, hfinish, -⟩ :=
        leads_assignment ([] ++ body.map fun line => line.1.edit) line.1
      refine (htext.append (hpauses.lineEnd line.2)).post fun s hs => ?_
      simpa [Settings.assignments, Function.comp_def] using finish_ended hfinish s hs
  obtain ⟨s, hloop, hs⟩ := hfile Parser.start ⟨1, rfl⟩
  rw [parseEdit, hloop]
  exact hs

structure PlainText (text : List Byte) : Prop where
  clean : ∀ c ∈ text, c ≠ LF ∧ c ≠ HASH ∧ c ≠ NUL
  blank : ∀ c ∈ text, isspace c = true → c = SPACE
  starts : ∃ c ∈ text.head?, isspace c = false
  ends : ∃ c ∈ text.getLast?, isspace c = false

structure Plain (v : Var) : Prop where
  name : ∃ name : Name, v.name = name.text
  value : PlainText v.value

structure PlainEnv where
  vars : List Slot
  isMap : IsMap vars
  plain : ∀ v ∈ live vars, Plain v

def noBlanks : Blanks := ⟨[], fun _ hc => absurd hc List.not_mem_nil⟩

def noPad : Pad := ⟨[], noBlanks⟩

def lineBreak : Break := ⟨⟨noBlanks, none⟩, []⟩

theorem PlainText.joined (words : Words) (htext : PlainText words.text) :
    words.joined = words.text := by
  rw [Words.joined]
  conv_rhs => rw [← List.map_id words.text]
  refine List.map_congr_left fun c hc => ?_
  split
  · next hspace => exact (htext.blank c hc hspace).symm
  · rfl

theorem Plain.assignment (hv : Plain v) : ∃ a : Assignment, a.text = v.text ∧ a.edit = .set v := by
  obtain ⟨name, value⟩ := v
  obtain ⟨⟨name, rfl⟩, hvalue⟩ := hv
  let words : Words := ⟨value, hvalue.clean, hvalue.starts, hvalue.ends⟩
  refine ⟨⟨name, noPad, noPad, some ⟨words, []⟩⟩, ?_, ?_⟩
  · simp [Assignment.text, Var.text, valueText, Value.text, Pad.text, noPad, noBlanks, words]
  · have hjoined : words.joined = value := PlainText.joined words hvalue
    simp [Assignment.edit, Value.joined, hjoined]

theorem printVars_settings (vars : List Slot) (hplain : ∀ v ∈ live vars, Plain v) :
    ∃ file : Settings, printVars vars = file.text ∧
      file.assignments.map Assignment.edit = (live vars).map .set := by
  suffices hbody : ∃ body : List (Assignment × Break),
      printVars vars = body.flatMap (fun line => line.1.text ++ line.2.text) ∧
      body.map (fun line => line.1.edit) = (live vars).map .set by
    obtain ⟨body, htext, hedits⟩ := hbody
    refine ⟨⟨[], body, none⟩, ?_, ?_⟩
    · simpa [Settings.text, lastText] using htext
    · simpa [Settings.assignments, Function.comp_def] using hedits
  induction vars with
  | nil => exact ⟨[], rfl, rfl⟩
  | cons slot vars ih =>
    cases slot with
    | none => exact ih hplain
    | some v =>
      rw [live_some] at hplain
      obtain ⟨a, htext, hedit⟩ := (hplain v List.mem_cons_self).assignment
      obtain ⟨body, hbody, hedits⟩ := ih fun w hw => hplain w (List.mem_cons_of_mem v hw)
      refine ⟨(a, lineBreak) :: body, ?_, ?_⟩
      · simp [printVars, hbody, htext, lineBreak, Break.text, LineEnd.text, noBlanks,
          commentText]
      · simp [hedit, hedits]

theorem foldl_apply_set (vars : List Var) (slots : List Slot) :
    (vars.map Edit.set).foldl Edit.apply slots =
      vars.foldl (fun slots v => setVar slots v.name v.value) slots := by
  rw [List.foldl_map]
  rfl

theorem PlainEnv.restored (env : PlainEnv) : ∃ edits, parseEdit (printEnv env.vars) = .ok edits ∧
    ∀ name, lookup (edits.foldl Edit.apply []) name = lookup env.vars name := by
  have hperm := live_resetVar_perm env.vars
  have hmap := env.isMap.resetVar
  obtain ⟨file, htext, hedits⟩ := printVars_settings (resetVar env.vars) fun v hv =>
    env.plain v (hperm.mem_iff.mp hv)
  refine ⟨file.assignments.map Assignment.edit, ?_, fun name => ?_⟩
  · rw [printEnv, htext, parseEdit_settings]
  · calc lookup ((file.assignments.map Assignment.edit).foldl Edit.apply []) name
        = (find name (live (resetVar env.vars))).or (lookup [] name) := by
          rw [hedits, foldl_apply_set, lookup_foldl_setVar hmap.nodup]
      _ = find name (live env.vars) := by
          rw [find_perm hperm hmap.nodup]
          exact Option.or_none

/-! ### Every environment that settings build is plain -/

theorem Name.plain_bytes (name : Name) (c : Byte) (hc : c ∈ name.text) : c ≠ EQUALS ∧ c ≠ NUL := by
  obtain rfl | hc := List.mem_cons.mp hc
  · obtain ⟨-, heq, -, -, hnul⟩ := alpha_plain name.alpha_first
    exact ⟨heq, hnul⟩
  · obtain ⟨-, heq, -, -, hnul⟩ := alnum_plain (name.alnum_others c hc)
    exact ⟨heq, hnul⟩

theorem PlainText.ne_nil {text : List Byte} (htext : PlainText text) : text ≠ [] := by
  rintro rfl
  obtain ⟨c, hc, -⟩ := htext.starts
  cases hc

theorem Plain.valid (hv : Plain v) : v.Valid := by
  obtain ⟨name, value⟩ := v
  obtain ⟨⟨name, rfl⟩, hvalue⟩ := hv
  refine ⟨List.cons_ne_nil _ _, ?_, ?_, hvalue.ne_nil, ?_⟩
  · exact fun hmem => (name.plain_bytes _ hmem).1 rfl
  · exact fun hmem => (name.plain_bytes _ hmem).2 rfl
  · exact fun hmem => (hvalue.clean _ hmem).2.2 rfl

theorem Words.plainText_joined (words : Words) : PlainText words.joined := by
  obtain ⟨text, hclean, ⟨first, hfirst, hspace⟩, ⟨final, hfinal, hspace'⟩⟩ := words
  refine ⟨?_, ?_, ⟨first, ?_, hspace⟩, ⟨final, ?_, hspace'⟩⟩
  · intro c hc
    obtain ⟨d, hd, rfl⟩ := List.mem_map.mp hc
    split
    · decide
    · exact hclean d hd
  · intro c hc hblank
    obtain ⟨d, hd, rfl⟩ := List.mem_map.mp hc
    split at hblank
    · next hspace => rw [if_pos hspace]
    · next hspace => exact absurd hblank hspace
  · obtain ⟨rest, rfl⟩ := List.head?_eq_some_iff.mp hfirst
    simp [Words.joined, hspace]
  · obtain ⟨before, rfl⟩ := List.getLast?_eq_some_iff.mp hfinal
    simp [Words.joined, hspace']

theorem PlainText.wrap (hread : PlainText read) {text : List Byte}
    (htext : PlainText text) : PlainText (read ++ SPACE :: text) := by
  obtain ⟨first, hfirst, hspace⟩ := hread.starts
  obtain ⟨final, hfinal, hspace'⟩ := htext.ends
  refine ⟨?_, ?_, ⟨first, ?_, hspace⟩, ⟨final, ?_, hspace'⟩⟩
  · intro c hc
    obtain hc | rfl | hc := by simpa using hc
    · exact hread.clean c hc
    · decide
    · exact htext.clean c hc
  · intro c hc hblank
    obtain hc | rfl | hc := by simpa using hc
    · exact hread.blank c hc hblank
    · rfl
    · exact htext.blank c hc hblank
  · obtain ⟨rest, rfl⟩ := List.head?_eq_some_iff.mp hfirst
    rfl
  · obtain ⟨before, rfl⟩ := List.getLast?_eq_some_iff.mp hfinal
    rw [← List.cons_append, ← List.append_assoc]
    exact List.getLast?_concat

theorem Value.plainText_joined (value : Value) : PlainText value.joined := by
  obtain ⟨words, more⟩ := value
  have hmore : ∀ (more : List (Wrap × Words)) (read : List Byte), PlainText read →
      PlainText (read ++ more.flatMap fun line => SPACE :: line.2.joined) := by
    intro more
    induction more with
    | nil =>
      intro read hread
      simpa using hread
    | cons line more ih =>
      intro read hread
      have hline := ih _ (hread.wrap line.2.plainText_joined)
      simpa using hline
  exact hmore more _ words.plainText_joined

theorem Assignment.plain (a : Assignment) (ha : a.edit = .set v) : Plain v := by
  obtain ⟨name, before, after, value⟩ := a
  cases value with
  | none => cases ha
  | some value =>
    obtain rfl := Edit.set.inj ha
    exact ⟨⟨name, rfl⟩, value.plainText_joined⟩

theorem mem_live_setVar {vars : List Slot} {w : Var}
    (hw : w ∈ live (setVar vars v.name v.value)) : w ∈ live vars ∨ w = v := by
  rw [setVar] at hw
  split at hw
  · next vars' h => exact (live_replaceValue h).2 w hw
  · split at hw
    · next vars' hfill =>
        obtain ⟨before, after, hlive, hlive'⟩ := live_fillUnused hfill
        rw [hlive', List.mem_append, List.mem_cons] at hw
        rw [hlive, List.mem_append]
        tauto
    · simpa [grow] using hw

theorem plain_edits {edits : List Edit} (hplain : ∀ v, .set v ∈ edits → Plain v) {vars : List Slot}
    (hvars : ∀ v ∈ live vars, Plain v) : ∀ v ∈ live (edits.foldl Edit.apply vars), Plain v := by
  induction edits generalizing vars with
  | nil => exact hvars
  | cons edit edits ih =>
    apply ih fun v hv => hplain v (List.mem_cons_of_mem edit hv)
    intro v hv
    cases edit with
    | set w =>
      obtain hv | rfl := mem_live_setVar hv
      · exact hvars v hv
      · exact hplain v List.mem_cons_self
    | del name => exact hvars v ((live_delVar_sublist name vars).subset hv)

def Settings.env (file : Settings) : PlainEnv :=
  have hplain : ∀ v, .set v ∈ file.assignments.map Assignment.edit → Plain v := by
    intro v hv
    obtain ⟨a, -, ha⟩ := List.mem_map.mp hv
    exact a.plain ha
  { vars := (file.assignments.map Assignment.edit).foldl Edit.apply []
    isMap := isMap_edits _ fun v hv => (hplain v hv).valid
    plain := plain_edits hplain fun _ hv => absurd hv List.not_mem_nil }

/-- **Settings are read as they are written.** However assignments are laid out, they are accepted
and make their calls in order; the environment they build is printed as settings that build it
again, and so is every other whose values are words with blanks between them. -/
theorem settings_read_as_written :
    (∀ file : Settings, parseEdit file.text = .ok (file.assignments.map Assignment.edit) ∧
      file.env.vars = (file.assignments.map Assignment.edit).foldl Edit.apply []) ∧
    ∀ env : PlainEnv, ∃ edits, parseEdit (printEnv env.vars) = .ok edits ∧
      ∀ name, lookup (edits.foldl Edit.apply []) name = lookup env.vars name :=
  ⟨fun file => ⟨parseEdit_settings file, rfl⟩, PlainEnv.restored⟩

end Openmoko.Envedit
