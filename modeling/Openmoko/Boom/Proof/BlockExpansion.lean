import Openmoko.Boom.SubParser
import Mathlib.Data.List.Basic

/-!
# Blocks of rules and their expansion

The text of a rule set is a tree of rules and blocks, laid out on lines. Its meaning is a flat list
of rules, each with the fields of all blocks around it. The parser agrees with that as long as no
closing brace can be taken for a continuation line.
-/

namespace Openmoko.Boom

structure Statement where
  conditions : List Word
  assignments : Option (List Word)
  conditions_plain : ∀ word ∈ conditions, ¬(word = ARROW ∨ word = OPEN ∨ word = CLOSE ∨ word = BANG)
  assignments_plain : ∀ words ∈ assignments, ∀ word ∈ words, EQ ∈ word

def Statement.words (statement : Statement) : List Word :=
  statement.conditions ++ statement.assignments.elim [] fun words => ARROW :: words

structure Paragraph (mark : List Word) where
  statement : Statement
  col : Nat
  first : SubLine
  more : List SubLine
  first_column : column 0 first.indent = some col
  more_column : ∀ line ∈ more, ∃ deeper, column 0 line.indent = some deeper ∧ col < deeper
  first_words : first.words ≠ []
  more_words : ∀ line ∈ more, line.words ≠ []
  words_eq : first.words ++ more.flatMap SubLine.words = statement.words ++ mark

def Paragraph.lines {mark : List Word} (p : Paragraph mark) : List SubLine := p.first :: p.more

structure Closing where
  indent : List Byte
  col : Nat
  column_eq : column 0 indent = some col

inductive Block where
  | nil
  | rule (p : Paragraph []) (rest : Block)
  | halt (p : Paragraph [BANG]) (rest : Block)
  | block (header : Paragraph [OPEN]) (body : Block) (closing : Closing) (rest : Block)

def Block.lines : Block → List SubLine
  | .nil => []
  | .rule p rest => p.lines ++ rest.lines
  | .halt p rest => p.lines ++ rest.lines
  | .block header body closing rest =>
    header.lines ++ body.lines ++ ⟨closing.indent, [CLOSE]⟩ :: rest.lines

def Block.Separate : Option Nat → Block → Prop
  | _, .nil => True
  | previous, .rule p rest => (∀ col ∈ previous, p.col ≤ col) ∧ rest.Separate (some p.col)
  | previous, .halt p rest => (∀ col ∈ previous, p.col ≤ col) ∧ rest.Separate none
  | previous, .block header body _ rest =>
    (∀ col ∈ previous, header.col ≤ col) ∧ body.Separate none ∧ rest.Separate none

def Block.openRule : Option Nat → Block → Option Nat
  | previous, .nil => previous
  | _, .rule p rest => rest.openRule (some p.col)
  | _, .halt _ rest => rest.openRule none
  | _, .block _ _ _ rest => rest.openRule none

def Block.ClosesOut : Block → Prop
  | .nil => True
  | .rule _ rest => rest.ClosesOut
  | .halt _ rest => rest.ClosesOut
  | .block _ body closing rest =>
    body.ClosesOut ∧ (∀ col ∈ body.openRule none, closing.col ≤ col) ∧ rest.ClosesOut

structure RuleSet where
  block : Block
  separate : block.Separate none

structure Rule where
  conditions : Table Pattern
  assignments : Table Word
  halt : Bool

section Meaning

variable {γ : Type} (subPattern : γ → Word → Word → γ × Word × Word)

def conditionsOf (cvn : γ) (fields : Table Pattern) : List Word → γ × Table Pattern
  | [] => (cvn, fields)
  | word :: words =>
    let read := condition subPattern cvn word
    conditionsOf read.1 (Function.update fields read.2.1 (some read.2.2)) words

def assignmentsOf (fields : Table Word) (words : List Word) : Table Word :=
  words.foldl (fun fields word => Function.update fields (fieldOf word) (some (valueOf word))) fields

def Statement.meaning (statement : Statement) (cvn : γ) : γ × Table Pattern × Table Word :=
  let read := conditionsOf subPattern cvn noFields statement.conditions
  (read.1, read.2, assignmentsOf noFields (statement.assignments.getD []))

/-- The rules in the context of the blocks around them, with the innermost overriding. -/
def Block.expand (cvn : γ) (conditions : Table Pattern) (assignments : Table Word) :
    Block → List Rule × γ
  | .nil => ([], cvn)
  | .rule p rest =>
    let own := p.statement.meaning subPattern cvn
    let others := rest.expand own.1 conditions assignments
    (⟨override conditions own.2.1, override assignments own.2.2, false⟩ :: others.1, others.2)
  | .halt p rest =>
    let own := p.statement.meaning subPattern cvn
    let others := rest.expand own.1 conditions assignments
    (⟨override conditions own.2.1, override assignments own.2.2, true⟩ :: others.1, others.2)
  | .block header body _ rest =>
    let own := header.statement.meaning subPattern cvn
    let inner :=
      body.expand own.1 (override conditions own.2.1) (override assignments own.2.2)
    let others := rest.expand inner.2 conditions assignments
    (inner.1 ++ others.1, others.2)

def SubState.Holds (s : SubState γ) (rules : List Rule) : Prop :=
  s.matchTable = rules.map Rule.conditions ∧ s.actionTable = rules.map Rule.assignments ∧
    s.endTable = rules.map Rule.halt

end Meaning

section Reading

variable {γ : Type} (subPattern : γ → Word → Word → γ × Word × Word)

variable (s : SubState γ)

def feed (word : Word) : SubState γ :=
  if s.lastAction then addAssignment s word
  else if word = ARROW then { s with lastAction := true }
  else addCondition subPattern s word

def Fits : Bool → List Word → Prop
  | _, [] => True
  | true, word :: words => EQ ∈ word ∧ Fits true words
  | false, word :: words =>
    (word = ARROW ∧ Fits true words) ∨
      ¬(word = ARROW ∨ word = OPEN ∨ word = CLOSE ∨ word = BANG) ∧ Fits false words

def Neutral (word : Word) : Prop := word ≠ OPEN ∧ word ≠ CLOSE ∧ word ≠ BANG

theorem finish_neutral {word : Word} (hword : Neutral word) (s : SubState γ) :
    finish s word [] = finish s [] [] := by
  have hnil : Neutral [] := by simp [Neutral, OPEN, CLOSE, BANG]
  simp [finish, hword.1, hword.2.1, hword.2.2, hnil.1, hnil.2.1, hnil.2.2]

theorem neutral_of_mem_eq {word : Word} (h : EQ ∈ word) : Neutral word ∧ word ≠ ARROW := by
  refine ⟨⟨?_, ?_, ?_⟩, ?_⟩ <;> rintro rfl <;> revert h <;> decide

def IsMark (mark : List Word) : Prop := mark = [] ∨ mark = [OPEN] ∨ mark = [BANG]

def Ends (f : Word) (mark : List Word) : Prop :=
  ∀ s : SubState γ, finish s f [] = finish s (mark.headD []) []

theorem readAssignments_eq {mark : List Word} (hmark : IsMark mark) (words : List Word) {f : Word}
    (hf : Neutral f) {s : SubState γ} (hs : s.lastAction = true) (hwords : Fits true words) :
    ∃ f', readAssignments f s (words ++ mark) = some (words.foldl (feed subPattern) s, f', []) ∧
      Ends (γ := γ) f' mark := by
  induction words generalizing f s with
  | nil =>
    obtain rfl | rfl | rfl := hmark
    · exact ⟨f, rfl, finish_neutral hf⟩
    · exact ⟨OPEN, rfl, fun _ => rfl⟩
    · exact ⟨BANG, rfl, fun _ => rfl⟩
  | cons word words ih =>
    obtain ⟨hword, hwords⟩ := hwords
    obtain ⟨hneutral, -⟩ := neutral_of_mem_eq hword
    have hstop : ¬(word = OPEN ∨ word = BANG) := by
      rintro (h | h)
      · exact hneutral.1 h
      · exact hneutral.2.2 h
    rw [List.cons_append, readAssignments, if_neg hstop, if_pos hword, List.foldl_cons, feed,
      if_pos hs]
    exact ih hneutral hs hwords

def readRest (r : SubState γ × Word × List Word) : Option (SubState γ × Word × List Word) :=
  let (s, f, words) := r
  let s := if f = ARROW then { s with lastAction := true } else s
  if s.lastAction then readAssignments f s words else some (s, f, words)

theorem readConditions_eq {mark : List Word} (hmark : IsMark mark) (words : List Word) {f : Word}
    (hf : Neutral f) (harrow : f ≠ ARROW) {s : SubState γ} (hs : s.lastAction = false)
    (hwords : Fits false words) :
    ∃ f', readRest (readConditions subPattern f s (words ++ mark)) =
        some (words.foldl (feed subPattern) s, f', []) ∧
      Ends (γ := γ) f' mark := by
  induction words generalizing f s with
  | nil =>
    obtain rfl | rfl | rfl := hmark
    · exact ⟨f, by simp [readConditions, readRest, harrow, hs], finish_neutral hf⟩
    · exact ⟨OPEN, by simp [readConditions, readRest, hs, OPEN, ARROW], fun _ => rfl⟩
    · exact ⟨BANG, by simp [readConditions, readRest, hs, BANG, ARROW], fun _ => rfl⟩
  | cons word words ih =>
    obtain ⟨rfl, hwords⟩ | ⟨hword, hwords⟩ := hwords
    · rw [List.cons_append, readConditions, if_pos (Or.inl rfl), List.foldl_cons, feed, hs]
      have hneutral : Neutral ARROW := ⟨by decide, by decide, by decide⟩
      exact readAssignments_eq subPattern hmark words hneutral (s := { s with lastAction := true })
        rfl hwords
    · rw [List.cons_append, readConditions, if_neg hword, List.foldl_cons, feed, hs]
      rw [if_neg Bool.false_ne_true, if_neg fun h => hword (Or.inl h)]
      have hneutral : Neutral word := by
        refine ⟨?_, ?_, ?_⟩ <;> intro h <;> exact hword (by tauto)
      exact ih hneutral (fun h => hword (Or.inl h)) hs hwords

theorem readWords_eq {mark : List Word} (hmark : IsMark mark) {words : List Word} {s : SubState γ}
    (hwords : Fits s.lastAction words) :
    ∃ f, readWords subPattern s (words ++ mark) =
        some (words.foldl (feed subPattern) s, f, []) ∧ Ends (γ := γ) f mark := by
  have hnil : Neutral [] := ⟨by decide, by decide, by decide⟩
  by_cases hs : s.lastAction = true
  · rw [hs] at hwords
    obtain ⟨f, hread, hends⟩ := readAssignments_eq subPattern hmark words hnil hs hwords
    refine ⟨f, ?_, hends⟩
    rw [readWords, if_pos hs]
    simpa [ARROW, hs] using hread
  · rw [Bool.not_eq_true] at hs
    rw [hs] at hwords
    obtain ⟨f, hread, hends⟩ := readConditions_eq subPattern hmark words hnil (by decide) hs hwords
    refine ⟨f, ?_, hends⟩
    rw [readWords, hs]
    exact hread

theorem readLine_eq {mark : List Word} (hmark : IsMark mark) {words : List Word} {s : SubState γ}
    (hwords : Fits s.lastAction words) :
    readLine subPattern s (words ++ mark) =
      finish (words.foldl (feed subPattern) s) (mark.headD []) [] := by
  obtain ⟨f, hread, hends⟩ := readWords_eq subPattern hmark hwords
  rw [readLine, hread]
  exact hends _

/-! ### Continuation lines -/

theorem feed_last (word : Word) : (feed subPattern s word).last = s.last := by
  rw [feed]
  split
  · rfl
  · split <;> rfl

variable (words : List Word)

theorem foldl_feed_last (s : SubState γ) :
    (words.foldl (feed subPattern) s).last = s.last := by
  induction words generalizing s with
  | nil => rfl
  | cons word words ih => rw [List.foldl_cons, ih, feed_last]

theorem feed_mayCont (word : Word) (mayCont : Bool) :
    feed subPattern { s with mayCont := mayCont } word =
      { feed subPattern s word with mayCont := mayCont } := by
  simp only [feed]
  split
  · rfl
  · split <;> rfl

theorem foldl_feed_mayCont (s : SubState γ) (mayCont : Bool) :
    words.foldl (feed subPattern) { s with mayCont := mayCont } =
      { words.foldl (feed subPattern) s with mayCont := mayCont } := by
  induction words generalizing s with
  | nil => rfl
  | cons word words ih => rw [List.foldl_cons, feed_mayCont, ih, List.foldl_cons]

theorem finish_mayCont (f : Word) (mayCont : Bool) :
    finish { s with mayCont := mayCont } f [] = finish s f [] := rfl

theorem fits_append {words others : List Word} {s : SubState γ}
    (h : Fits s.lastAction (words ++ others)) :
    Fits s.lastAction words ∧ Fits (words.foldl (feed subPattern) s).lastAction others := by
  induction words generalizing s with
  | nil => exact ⟨trivial, h⟩
  | cons word words ih =>
    cases hs : s.lastAction with
    | true =>
      rw [hs] at h
      have hfeed : feed subPattern s word = addAssignment s word := by rw [feed, if_pos hs]
      have hnext := @ih (feed subPattern s word) (by rw [hfeed]; exact hs ▸ h.2)
      rw [hfeed] at hnext
      refine ⟨⟨h.1, hs ▸ hnext.1⟩, ?_⟩
      rw [List.foldl_cons, hfeed]
      exact hnext.2
    | false =>
      rw [hs] at h
      obtain ⟨rfl, hrest⟩ | ⟨hword, hrest⟩ := h
      · have hfeed : feed subPattern s ARROW = { s with lastAction := true } := by
          rw [feed, hs]
          rfl
        have hnext := @ih (feed subPattern s ARROW) (by rw [hfeed]; exact hrest)
        rw [hfeed] at hnext
        refine ⟨Or.inl ⟨rfl, hnext.1⟩, ?_⟩
        rw [List.foldl_cons, hfeed]
        exact hnext.2
      · have hfeed : feed subPattern s word = addCondition subPattern s word := by
          rw [feed, hs, if_neg Bool.false_ne_true, if_neg fun h => hword (Or.inl h)]
        have hkeep : (addCondition subPattern s word).lastAction = false := hs
        have hnext := @ih (feed subPattern s word) (by rw [hfeed, hkeep]; exact hrest)
        rw [hfeed, hkeep] at hnext
        refine ⟨Or.inr ⟨hword, hnext.1⟩, ?_⟩
        rw [List.foldl_cons, hfeed]
        exact hnext.2

def pushRule (halt : Bool) (s : SubState γ) : SubState γ :=
  { s with
    mayCont := !halt
    matchTable := s.matchTable ++ [flatten s.matchStack]
    actionTable := s.actionTable ++ [flatten s.actionStack]
    endTable := s.endTable ++ [halt] }

def openBlock : SubState γ :=
  { s with
    mayCont := false
    matchStack := noFields :: s.matchStack
    actionStack := noFields :: s.actionStack }

theorem finish_nil : finish s [] [] = some (pushRule false s) := rfl

theorem finish_bang : finish s BANG [] = some (pushRule true s) := rfl

theorem finish_open : finish s OPEN [] = some (openBlock s) := rfl

theorem sub_continues {s : SubState γ} (hs : s.mayCont = true) {line : SubLine} {deeper : Nat}
    (hcolumn : column 0 line.indent = some deeper) (hdeeper : s.last < deeper) :
    sub subPattern s line = readLine subPattern (popRule s) line.words := by
  rw [sub, hcolumn]
  exact congrArg (readLine subPattern · line.words) (if_pos ⟨hs, hdeeper⟩)

theorem sub_begins {s : SubState γ} {line : SubLine} {col : Nat}
    (hcolumn : column 0 line.indent = some col) (hs : s.mayCont = true → col ≤ s.last) :
    sub subPattern s line = readLine subPattern (newRule col s) line.words := by
  have hnot : ¬(s.mayCont = true ∧ s.last < col) := by
    rintro ⟨hmay, hlt⟩
    exact absurd (hs hmay) (Nat.not_le.mpr hlt)
  rw [sub, hcolumn]
  exact congrArg (readLine subPattern · line.words) (if_neg hnot)

theorem append_split {words others statement mark : List Word} (hmark : IsMark mark)
    (hne : others ≠ []) (heq : words ++ others = statement ++ mark) :
    ∃ rest, statement = words ++ rest ∧ others = rest ++ mark := by
  obtain ⟨rest, hwords, hothers⟩ | ⟨rest, hwords, hothers⟩ := List.append_eq_append_iff.mp heq
  · exact ⟨rest, hwords, hothers⟩
  · have hlength := congrArg List.length hothers
    have hpos := List.length_pos_of_ne_nil hne
    have hone : mark.length ≤ 1 := by
      obtain rfl | rfl | rfl := hmark <;> simp
    rw [List.length_append] at hlength
    obtain rfl := List.length_eq_zero_iff.mp (show rest.length = 0 by omega)
    exact ⟨[], by simpa using hwords.symm, by simpa using hothers.symm⟩

/-- **Continuation lines are the rest of the line they continue**: what they add up to is read as if
it stood on one line. -/
theorem readLines_eq {mark : List Word} (hmark : IsMark mark) (more : List SubLine)
    (hmore : ∀ line ∈ more, line.words ≠ []) {words statement : List Word} {s : SubState γ}
    (hcol : ∀ line ∈ more, ∃ deeper, column 0 line.indent = some deeper ∧ s.last < deeper)
    (hwords : words ++ more.flatMap SubLine.words = statement ++ mark)
    (hfits : Fits s.lastAction statement) :
    ((readLine subPattern s words).bind fun s => more.foldlM (sub subPattern) s) =
      finish (statement.foldl (feed subPattern) s) (mark.headD []) [] := by
  induction more generalizing words statement s with
  | nil =>
    rw [List.flatMap_nil, List.append_nil] at hwords
    rw [hwords, readLine_eq subPattern hmark hfits]
    exact Option.bind_fun_some _
  | cons line more ih =>
    have hne : line.words ++ more.flatMap SubLine.words ≠ [] := by
      simp [hmore line List.mem_cons_self]
    obtain ⟨rest, rfl, hrest⟩ := append_split hmark hne hwords
    obtain ⟨hfirst, hsecond⟩ := fits_append subPattern hfits
    obtain ⟨deeper, hcolumn, hdeeper⟩ := hcol line List.mem_cons_self
    have hline := readLine_eq subPattern (Or.inl rfl : IsMark []) hfirst
    rw [List.append_nil] at hline
    rw [hline, List.headD_nil, finish_nil, Option.bind_some, List.foldlM_cons, List.foldl_append]
    have hlast : (words.foldl (feed subPattern) s).last = s.last := foldl_feed_last _ _ _
    rw [sub_continues subPattern rfl hcolumn (hlast.symm ▸ hdeeper)]
    have hpop : ∀ t : SubState γ, popRule (pushRule false t) = { t with mayCont := true } := by
      intro t
      simp [popRule, pushRule]
    rw [hpop]
    have hnext := @ih (fun l hl => hmore l (List.mem_cons_of_mem line hl)) line.words rest
      { words.foldl (feed subPattern) s with mayCont := true }
      (fun l hl => by simpa [hlast] using hcol l (List.mem_cons_of_mem line hl)) hrest hsecond
    rw [foldl_feed_mayCont subPattern rest (words.foldl (feed subPattern) s), finish_mayCont] at hnext
    exact hnext

theorem fits_statement (statement : Statement) : Fits false statement.words := by
  have hassign : ∀ words : List Word, (∀ word ∈ words, EQ ∈ word) → Fits true words := by
    intro words hwords
    induction words with
    | nil => trivial
    | cons word words ih =>
      exact ⟨hwords word List.mem_cons_self,
        ih fun w hw => hwords w (List.mem_cons_of_mem word hw)⟩
  have hcond : ∀ words others : List Word,
      (∀ word ∈ words, ¬(word = ARROW ∨ word = OPEN ∨ word = CLOSE ∨ word = BANG)) →
      Fits false others → Fits false (words ++ others) := by
    intro words others hwords hothers
    induction words with
    | nil => exact hothers
    | cons word words ih =>
      exact Or.inr ⟨hwords word List.mem_cons_self,
        ih fun w hw => hwords w (List.mem_cons_of_mem word hw)⟩
  apply hcond _ _ statement.conditions_plain
  cases hassignments : statement.assignments with
  | none => trivial
  | some words =>
    exact Or.inl ⟨rfl, hassign words (statement.assignments_plain words hassignments)⟩

theorem foldl_feed_conditions
    (hwords : ∀ word ∈ words, ¬(word = ARROW ∨ word = OPEN ∨ word = CLOSE ∨ word = BANG))
    (s : SubState γ) (hs : s.lastAction = false) {fields : Table Pattern}
    {outer : List (Table Pattern)} (hstack : s.matchStack = fields :: outer) :
    words.foldl (feed subPattern) s =
      { s with
        cvn := (conditionsOf subPattern s.cvn fields words).1
        matchStack := (conditionsOf subPattern s.cvn fields words).2 :: outer } := by
  induction words generalizing s fields with
  | nil =>
    rw [List.foldl_nil, conditionsOf, ← hstack]
  | cons word words ih =>
    have hword := hwords word List.mem_cons_self
    have hfeed : feed subPattern s word = addCondition subPattern s word := by
      rw [feed, hs, if_neg Bool.false_ne_true, if_neg fun h => hword (Or.inl h)]
    have hnext : (addCondition subPattern s word).matchStack =
        Function.update fields (condition subPattern s.cvn word).2.1
          (some (condition subPattern s.cvn word).2.2) :: outer := by
      simp [addCondition, setField, hstack]
    rw [List.foldl_cons, hfeed, conditionsOf,
      ih (fun w hw => hwords w (List.mem_cons_of_mem word hw)) (addCondition subPattern s word)
        hs hnext]
    rfl

theorem foldl_feed_assignments (s : SubState γ) (hs : s.lastAction = true)
    {fields : Table Word} {outer : List (Table Word)} (hstack : s.actionStack = fields :: outer) :
    words.foldl (feed subPattern) s =
      { s with actionStack := assignmentsOf fields words :: outer } := by
  induction words generalizing s fields with
  | nil => rw [List.foldl_nil, assignmentsOf, List.foldl_nil, ← hstack]
  | cons word words ih =>
    have hnext : (addAssignment s word).actionStack =
        Function.update fields (fieldOf word) (some (valueOf word)) :: outer := by
      simp [addAssignment, setField, hstack]
    rw [List.foldl_cons, feed, if_pos hs, ih (addAssignment s word) hs hnext]
    rfl

def described (col : Nat) (statement : Statement) : SubState γ :=
  { s with
    cvn := (statement.meaning subPattern s.cvn).1
    matchStack := (statement.meaning subPattern s.cvn).2.1 :: s.matchStack.tail
    actionStack := (statement.meaning subPattern s.cvn).2.2 :: s.actionStack.tail
    last := col
    lastAction := statement.assignments.isSome }

theorem foldl_feed_statement (col : Nat) (statement : Statement) :
    statement.words.foldl (feed subPattern) (newRule col s) =
      described subPattern s col statement := by
  rw [Statement.words, List.foldl_append,
    foldl_feed_conditions subPattern statement.conditions statement.conditions_plain _ rfl rfl]
  cases hassignments : statement.assignments with
  | none => simp [described, Statement.meaning, hassignments, assignmentsOf, newRule]
  | some words =>
    rw [Option.elim_some, List.foldl_cons,
      foldl_feed_assignments subPattern words _ rfl rfl]
    simp [described, Statement.meaning, hassignments, newRule, feed, ARROW]

theorem paragraph_eq {mark : List Word} (hmark : IsMark mark) (p : Paragraph mark) (s : SubState γ)
    (hs : s.mayCont = true → p.col ≤ s.last) :
    p.lines.foldlM (sub subPattern) s =
      finish (described subPattern s p.col p.statement) (mark.headD []) [] := by
  rw [Paragraph.lines, List.foldlM_cons, sub_begins subPattern p.first_column hs]
  have hlines := readLines_eq subPattern hmark p.more p.more_words (s := newRule p.col s)
    p.more_column p.words_eq (fits_statement p.statement)
  rw [foldl_feed_statement] at hlines
  exact hlines

/-! ### Blocks -/

theorem flatten_cons {α : Type} (fields : Table α) (outer : List (Table α)) :
    flatten (fields :: outer) = override (flatten outer) fields := by
  rw [flatten, List.reverse_cons, List.foldl_append]
  rfl

structure Parsed (s s' : SubState γ) (read : List Rule × γ) : Prop where
  matchStack : s'.matchStack.tail = s.matchStack.tail
  actionStack : s'.actionStack.tail = s.actionStack.tail
  cvn : s'.cvn = read.2
  matchTable : s'.matchTable = s.matchTable ++ read.1.map Rule.conditions
  actionTable : s'.actionTable = s.actionTable ++ read.1.map Rule.assignments
  endTable : s'.endTable = s.endTable ++ read.1.map Rule.halt

theorem parsed_pushRule (col : Nat) (statement : Statement) (halt : Bool) :
    Parsed s (pushRule halt (described subPattern s col statement))
      ([⟨override (flatten s.matchStack.tail) (statement.meaning subPattern s.cvn).2.1,
        override (flatten s.actionStack.tail) (statement.meaning subPattern s.cvn).2.2, halt⟩],
        (statement.meaning subPattern s.cvn).1) := by
  constructor
  · rfl
  · rfl
  · rfl
  · exact congrArg (s.matchTable ++ [·]) (flatten_cons _ _)
  · exact congrArg (s.actionTable ++ [·]) (flatten_cons _ _)
  · rfl

theorem Parsed.trans {s t u : SubState γ} {rules others : List Rule} {cvn cvn' : γ}
    (h : Parsed s t (rules, cvn)) (h' : Parsed t u (others, cvn')) :
    Parsed s u (rules ++ others, cvn') := by
  constructor
  · exact h'.matchStack.trans h.matchStack
  · exact h'.actionStack.trans h.actionStack
  · exact h'.cvn
  · rw [h'.matchTable, h.matchTable, List.map_append, List.append_assoc]
  · rw [h'.actionTable, h.actionTable, List.map_append, List.append_assoc]
  · rw [h'.endTable, h.endTable, List.map_append, List.append_assoc]

def closeBlock (col : Nat) (s : SubState γ) : SubState γ :=
  { s with
    mayCont := false
    matchStack := s.matchStack.tail
    actionStack := s.actionStack.tail
    lastAction := false
    last := col }

theorem sub_close (closing : Closing) {s : SubState γ}
    (hs : s.mayCont = true → closing.col ≤ s.last) :
    sub subPattern s ⟨closing.indent, [CLOSE]⟩ = some (closeBlock closing.col s) := by
  rw [sub_begins subPattern closing.column_eq hs]
  rfl

theorem parsed_closeBlock {s inside : SubState γ} {header : Paragraph [OPEN]} (closing : Closing)
    {read : List Rule × γ}
    (h : Parsed (openBlock (described subPattern s header.col header.statement)) inside read) :
    Parsed s (closeBlock closing.col inside) read := by
  constructor
  · have htail := congrArg List.tail h.matchStack
    exact htail
  · have htail := congrArg List.tail h.actionStack
    exact htail
  · exact h.cvn
  · exact h.matchTable
  · exact h.actionTable
  · exact h.endTable

theorem foldlM_block {s inside : SubState γ} {header : Paragraph [OPEN]} {body rest : Block}
    {closing : Closing} (hs : s.mayCont = true → header.col ≤ s.last)
    (hbody : body.lines.foldlM (sub subPattern)
      (openBlock (described subPattern s header.col header.statement)) = some inside) :
    (Block.block header body closing rest).lines.foldlM (sub subPattern) s =
      (sub subPattern inside ⟨closing.indent, [CLOSE]⟩).bind fun s =>
        rest.lines.foldlM (sub subPattern) s := by
  have hp := paragraph_eq subPattern (Or.inr (Or.inl rfl)) header s hs
  rw [List.headD_cons, finish_open] at hp
  rw [Block.lines, List.foldlM_append, List.foldlM_append, hp]
  exact congrArg (Option.bind · _) hbody

def SubState.openRule : Option Nat := if s.mayCont then some s.last else none

theorem le_of_openRule {s : SubState γ} {previous : Option Nat} (hs : s.openRule = previous)
    {col : Nat} (hcol : ∀ c ∈ previous, col ≤ c) : s.mayCont = true → col ≤ s.last := by
  intro hmay
  apply hcol
  rw [← hs, SubState.openRule, if_pos hmay]
  rfl

theorem block_run (b : Block) {previous : Option Nat} {s : SubState γ}
    (hseparate : b.Separate previous) (hclosed : b.ClosesOut) (hs : s.openRule = previous) :
    ∃ s', b.lines.foldlM (sub subPattern) s = some s' ∧
      Parsed s s'
        (b.expand subPattern s.cvn (flatten s.matchStack.tail) (flatten s.actionStack.tail)) ∧
      s'.openRule = b.openRule previous := by
  induction b generalizing previous s with
  | nil =>
    refine ⟨s, rfl, ?_, hs⟩
    constructor <;> simp [Block.expand]
  | rule p rest ih =>
    obtain ⟨hfirst, hseparate⟩ := hseparate
    have hp := paragraph_eq subPattern (Or.inl rfl) p s (le_of_openRule hs hfirst)
    rw [List.headD_nil, finish_nil] at hp
    obtain ⟨s', hrun, hparsed, hopen⟩ :=
      @ih _ (pushRule false (described subPattern s p.col p.statement)) hseparate hclosed
        rfl
    refine ⟨s', ?_, ?_, hopen⟩
    · rw [Block.lines, List.foldlM_append, hp]
      exact hrun
    · exact (parsed_pushRule subPattern s p.col p.statement false).trans hparsed
  | halt p rest ih =>
    obtain ⟨hfirst, hseparate⟩ := hseparate
    have hp := paragraph_eq subPattern (Or.inr (Or.inr rfl)) p s (le_of_openRule hs hfirst)
    rw [List.headD_cons, finish_bang] at hp
    obtain ⟨s', hrun, hparsed, hopen⟩ :=
      @ih _ (pushRule true (described subPattern s p.col p.statement)) hseparate hclosed
        rfl
    refine ⟨s', ?_, ?_, hopen⟩
    · rw [Block.lines, List.foldlM_append, hp]
      exact hrun
    · exact (parsed_pushRule subPattern s p.col p.statement true).trans hparsed
  | block header body closing rest ihbody ihrest =>
    obtain ⟨hfirst, hbody, hrest⟩ := hseparate
    obtain ⟨hbodyClosed, hclosing, hrestClosed⟩ := hclosed
    have hmatch : flatten (openBlock (described subPattern s header.col
        header.statement)).matchStack.tail = _ := flatten_cons _ _
    have haction : flatten (openBlock (described subPattern s header.col
        header.statement)).actionStack.tail = _ := flatten_cons _ _
    obtain ⟨inside, hrunBody, hparsedBody, hopenBody⟩ :=
      @ihbody _ (openBlock (described subPattern s header.col header.statement)) hbody
        hbodyClosed rfl
    rw [hmatch, haction] at hparsedBody
    have hparsed := parsed_closeBlock subPattern closing hparsedBody
    obtain ⟨s', hrunRest, hparsedRest, hopen⟩ :=
      @ihrest _ (closeBlock closing.col inside) hrest hrestClosed rfl
    refine ⟨s', ?_, ?_, hopen⟩
    · have hclose := sub_close subPattern closing (le_of_openRule hopenBody hclosing)
      rw [foldlM_block subPattern (le_of_openRule hs hfirst) hrunBody, hclose]
      exact hrunRest
    · rw [hparsed.matchStack, hparsed.actionStack, hparsed.cvn] at hparsedRest
      exact hparsed.trans hparsedRest

/-! ### A closing brace that is taken for a continuation -/

def Block.count : Block → Nat
  | .nil => 0
  | .rule _ rest => rest.count + 1
  | .halt _ rest => rest.count + 1
  | .block _ body _ rest => body.count + rest.count

theorem length_expand (b : Block) (cvn : γ) (conditions : Table Pattern)
    (assignments : Table Word) :
    (b.expand subPattern cvn conditions assignments).1.length = b.count := by
  induction b generalizing cvn conditions assignments with
  | nil => rfl
  | rule p rest ih => exact congrArg (· + 1) (ih _ _ _)
  | halt p rest ih => exact congrArg (· + 1) (ih _ _ _)
  | block header body closing rest ihbody ihrest =>
    rw [Block.expand, List.length_append, ihbody, ihrest, Block.count]

theorem readLine_close :
    readLine subPattern s [CLOSE] =
      if s.lastAction then none
      else some
        { s with
          mayCont := false
          matchStack := s.matchStack.tail
          actionStack := s.actionStack.tail } := by
  obtain ⟨_, _, _, _, lastAction, _, _, _, _⟩ := s
  cases lastAction <;> rfl

theorem length_misread (closing : Closing) {s s' : SubState γ} (hmay : s.mayCont = true)
    (hdeeper : s.last < closing.col)
    (h : sub subPattern s ⟨closing.indent, [CLOSE]⟩ = some s') :
    s'.endTable.length = s.endTable.length - 1 ∧ s'.mayCont = false := by
  rw [sub_continues subPattern hmay closing.column_eq hdeeper, readLine_close] at h
  split at h
  · cases h
  · obtain rfl := Option.some.inj h
    exact ⟨List.length_dropLast, rfl⟩

/-- **A rule is lost for each closing brace that is misread**, unless the script dies of it. -/
theorem block_loses (b : Block) {previous : Option Nat} {s s' : SubState γ}
    (hseparate : b.Separate previous) (hs : s.openRule = previous)
    (hpushed : s.mayCont = true → s.endTable ≠ [])
    (hrun : b.lines.foldlM (sub subPattern) s = some s') :
    s'.endTable.length ≤ s.endTable.length + b.count ∧
      (¬b.ClosesOut → s'.endTable.length < s.endTable.length + b.count) ∧
      s'.openRule = b.openRule previous ∧ (s'.mayCont = true → s'.endTable ≠ []) := by
  induction b generalizing previous s s' with
  | nil =>
    obtain rfl := Option.some.inj hrun
    exact ⟨Nat.le_refl _, fun h => absurd trivial h, hs, hpushed⟩
  | rule p rest ih =>
    obtain ⟨hfirst, hseparate⟩ := hseparate
    have hp := paragraph_eq subPattern (Or.inl rfl) p s (le_of_openRule hs hfirst)
    rw [List.headD_nil, finish_nil] at hp
    rw [Block.lines, List.foldlM_append, hp] at hrun
    have hrest := ih hseparate rfl (fun _ => by simp [pushRule]) hrun
    have hlength : (pushRule false (described subPattern s p.col p.statement)).endTable.length =
        s.endTable.length + 1 := List.length_append
    rw [hlength] at hrest
    rw [Block.count, Block.ClosesOut, Block.openRule]
    refine ⟨by omega, fun h => ?_, hrest.2.2⟩
    have hless := hrest.2.1 h
    omega
  | halt p rest ih =>
    obtain ⟨hfirst, hseparate⟩ := hseparate
    have hp := paragraph_eq subPattern (Or.inr (Or.inr rfl)) p s (le_of_openRule hs hfirst)
    rw [List.headD_cons, finish_bang] at hp
    rw [Block.lines, List.foldlM_append, hp] at hrun
    have hrest := ih hseparate rfl (fun _ => by simp [pushRule]) hrun
    have hlength : (pushRule true (described subPattern s p.col p.statement)).endTable.length =
        s.endTable.length + 1 := List.length_append
    rw [hlength] at hrest
    rw [Block.count, Block.ClosesOut, Block.openRule]
    refine ⟨by omega, fun h => ?_, hrest.2.2⟩
    have hless := hrest.2.1 h
    omega
  | block header body closing rest ihbody ihrest =>
    obtain ⟨hfirst, hbody, hrest⟩ := hseparate
    have hp := paragraph_eq subPattern (Or.inr (Or.inl rfl)) header s
      (le_of_openRule hs hfirst)
    rw [List.headD_cons, finish_open] at hp
    rw [Block.lines, List.foldlM_append, List.foldlM_append, hp, Option.bind_eq_bind,
      Option.bind_eq_some_iff] at hrun
    obtain ⟨inside, hinside, hrun⟩ := hrun
    rw [List.foldlM_cons, Option.bind_eq_bind, Option.bind_eq_some_iff] at hrun
    obtain ⟨closed, hclose, hrun⟩ := hrun
    obtain ⟨hle, hlost, hopen, hne⟩ := ihbody hbody rfl (fun h => absurd h Bool.false_ne_true) hinside
    rw [Block.count, Block.openRule]
    by_cases hclosing : ∀ col ∈ body.openRule none, closing.col ≤ col
    · rw [sub_close subPattern closing (le_of_openRule hopen hclosing)] at hclose
      obtain rfl := Option.some.inj hclose
      obtain ⟨hleRest, hlostRest, hstate⟩ :=
        ihrest hrest rfl (fun h => absurd h Bool.false_ne_true) hrun
      have hkeep : (closeBlock closing.col inside).endTable.length = inside.endTable.length := rfl
      have hstart : (openBlock (described subPattern s header.col
          header.statement)).endTable.length = s.endTable.length := rfl
      rw [hkeep] at hleRest hlostRest
      rw [hstart] at hle hlost
      refine ⟨by omega, fun h => ?_, hstate⟩
      by_cases hbodyClosed : body.ClosesOut
      · have hless := hlostRest fun hrestClosed => h ⟨hbodyClosed, hclosing, hrestClosed⟩
        omega
      · have hless := hlost hbodyClosed
        omega
    · obtain ⟨hmay, hdeeper⟩ : inside.mayCont = true ∧ inside.last < closing.col := by
        rw [← hopen, SubState.openRule] at hclosing
        cases hmay : inside.mayCont with
        | true => simpa [hmay] using hclosing
        | false => simp [hmay] at hclosing
      obtain ⟨hlength, hshut⟩ := length_misread subPattern closing hmay hdeeper hclose
      have hopenRule : closed.openRule = none := by
        rw [SubState.openRule, hshut]
        rfl
      obtain ⟨hleRest, -, hstate⟩ :=
        ihrest hrest hopenRule (fun h => absurd (hshut.symm.trans h) Bool.false_ne_true) hrun
      have hpos := List.length_pos_of_ne_nil (hne hmay)
      have hstart : (openBlock (described subPattern s header.col
          header.statement)).endTable.length = s.endTable.length := rfl
      rw [hstart] at hle
      exact ⟨by omega, fun _ => by omega, hstate⟩

/-- **Blocks mean their expansion** exactly when no closing brace is indented deeper than an open
rule right before it. -/
theorem parse_expands_iff (rules : RuleSet) (cvn : γ) :
    (∃ s, parseSub subPattern cvn rules.block.lines = some s ∧
      s.Holds (rules.block.expand subPattern cvn noFields noFields).1) ↔
      rules.block.ClosesOut := by
  constructor
  · rintro ⟨s, hrun, -, -, hends⟩
    by_contra hclosed
    obtain ⟨-, hlost, -⟩ := block_loses subPattern rules.block rules.separate rfl
      (fun h => absurd h Bool.false_ne_true) hrun
    have hless := hlost hclosed
    rw [hends, List.length_map, length_expand] at hless
    exact absurd hless (by simp [startSub])
  · intro hclosed
    obtain ⟨s, hrun, hparsed, -⟩ := block_run subPattern rules.block rules.separate hclosed
      (rfl : (startSub cvn).openRule = none)
    exact ⟨s, hrun, hparsed.matchTable, hparsed.actionTable, hparsed.endTable⟩

end Reading

def condStatement (word : Word)
    (hword : ¬(word = ARROW ∨ word = OPEN ∨ word = CLOSE ∨ word = BANG)) : Statement where
  conditions := [word]
  assignments := none
  conditions_plain := by simpa using hword
  assignments_plain := by simp

def capacitors : Paragraph [OPEN] where
  statement := condStatement [67, 42] (by decide)
  col := 0
  first := ⟨[], [[67, 42], OPEN]⟩
  more := []
  first_column := rfl
  more_column := by simp
  first_words := by simp
  more_words := by simp
  words_eq := rfl

def assignType : Paragraph [] where
  statement :=
    { conditions := []
      assignments := some [[84, 61, 120]]
      conditions_plain := by simp
      assignments_plain := by simp [EQ] }
  col := 0
  first := ⟨[], [ARROW, [84, 61, 120]]⟩
  more := []
  first_column := rfl
  more_column := by simp
  first_words := by simp
  more_words := by simp
  words_eq := rfl

def deepBrace : RuleSet where
  block := .block capacitors (.rule assignType .nil) ⟨[32, 32], 2, rfl⟩ .nil
  separate := by simp [Block.Separate]

theorem not_expands_deepBrace :
    let subPattern : Unit → Word → Word → Unit × Word × Word := fun _ _ p => ((), p, p)
    ¬∃ s, parseSub subPattern () deepBrace.block.lines = some s ∧
      s.Holds (deepBrace.block.expand subPattern () noFields noFields).1 := by
  rintro subPattern ⟨s, hrun, -⟩
  have hdies : parseSub subPattern () deepBrace.block.lines = none := rfl
  rw [hdies] at hrun
  cases hrun

end Openmoko.Boom
