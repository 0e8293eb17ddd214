import Openmoko.Envcpp.Envcpp
import Openmoko.Library.Branches
import Openmoko.Library.Loop

/-!
# Two counters instead of a stack

The reading that the programs are meant to have keeps the conditionals that are open, each with its
condition as it was when the line with the `#ifdef` or `#ifndef` came.
-/

namespace Openmoko.Envcpp

def content (raw : Line) : Line := if raw.getLast? = some '\n' then raw.dropLast else raw

def enclose (s : State) : Directive → List Level → List Level
  | .ifdef negated name, levels => ⟨s.isDefined name = !negated, false⟩ :: levels
  | .else, level :: outer => { level with inElse := true } :: outer
  | .endif, _ :: outer => outer
  | _, levels => levels

def nest : List Bool → Directive → Option (List Bool)
  | opened, .ifdef _ _ => some (false :: opened)
  | false :: opened, .else => some (true :: opened)
  | _ :: opened, .endif => some opened
  | opened, .none => some opened
  | _, _ => none

def WellNested (text : List Char) : Prop :=
  ((Program.readLines text).map (directive ∘ content)).foldlM nest [] = some []

instance (text : List Char) : Decidable (WellNested text) := inferInstanceAs (Decidable (_ = _))

section Run

variable (program : Program) (expand : Hash Line → Line → Option Line)
  (env : Hash (Option Line)) (defs : Hash Line)

inductive Reached : List Line → State → List Level → Prop
  | start : Reached [] (State.start env defs) []
  | turn {before : List Line} {s s' : State} {levels : List Level} (raw : Line)
      (h : Reached before s levels) (hturn : program.turn expand s raw = .ok s') :
      Reached (before ++ [raw]) s' (enclose s (directive (content raw)) levels)

def Keeps (s : State) (raw : Line) : Prop :=
  ∃ s', { s with lineno := s.lineno + 1 }.conditional (Program.chop raw) = .ok s' ∧ s'.nFalse = 0

structure RefinesStack (text : List Char) : Prop where
  keeps : WellNested text → ∀ {before raw after s levels},
    Program.readLines text = before ++ raw :: after →
    Reached program expand env defs before s levels →
    directive (content raw) = .none →
    (Keeps s raw ↔ ∀ level ∈ levels, level.selects = true)
  reportsElse : ∀ {before raw after s levels},
    Program.readLines text = before ++ raw :: after →
    Reached program expand env defs before s levels →
    (program.turn expand s raw = .error (.elseWithoutIf (s.lineno + 1)) ↔
      directive (content raw) = .else ∧ levels = [])
  reportsEndif : ∀ {before raw after s levels},
    Program.readLines text = before ++ raw :: after →
    Reached program expand env defs before s levels →
    (program.turn expand s raw = .error (.endifWithoutIf (s.lineno + 1)) ↔
      directive (content raw) = .endif ∧ levels = [])

/-- Where the last line has no newline, and the counters are zero before it, it is an `#else` or an
`#endif` exactly if it is one without its last character. -/
def LastLineRead (text : List Char) : Prop :=
  ∀ {before raw s levels}, Program.readLines text = before ++ [raw] → raw.getLast? ≠ some '\n' →
    Reached program expand env defs before s levels → s.nTrue = 0 → s.nFalse = 0 →
    (directive (Program.chop raw) = .else ↔ directive raw = .else) ∧
      (directive (Program.chop raw) = .endif ↔ directive raw = .endif)

end Run

variable {raw : Line} {after : List Line}

theorem chop_eq_content (h : raw.getLast? = some '\n') : Program.chop raw = content raw := by
  rw [content, if_pos h, Program.chop]

theorem content_eq (h : raw.getLast? ≠ some '\n') : content raw = raw := if_neg h

theorem readLines_ne_nil {text : List Char} (h : raw ∈ Program.readLines text) : raw ≠ [] := by
  induction text generalizing raw with
  | nil => cases h
  | cons c text ih =>
    rw [Program.readLines] at h
    split at h
    · rcases List.mem_cons.mp h with rfl | h
      · exact List.cons_ne_nil _ _
      · exact ih h
    · split at h
      · rw [List.mem_singleton.mp h]
        exact List.cons_ne_nil _ _
      · next raw' raws heq =>
        rcases List.mem_cons.mp h with rfl | h
        · exact List.cons_ne_nil _ _
        · exact ih (heq ▸ List.mem_cons_of_mem _ h)

theorem getLast_of_readLines {text : List Char} (before : List Line)
    {next : Line} (h : Program.readLines text = before ++ raw :: next :: after) :
    raw.getLast? = some '\n' := by
  induction text generalizing before raw next after with
  | nil => simp [Program.readLines] at h
  | cons c text ih =>
    rw [Program.readLines] at h
    split at h
    · next hc =>
      cases before with
      | nil =>
        obtain ⟨rfl, -⟩ := List.cons.inj h
        rw [hc]
        rfl
      | cons first before => exact ih before (List.cons.inj h).2
    · split at h
      · have hlength := congrArg List.length h
        simp at hlength
        omega
      · next raw' raws heq =>
        cases before with
        | nil =>
          obtain ⟨rfl, rfl⟩ := List.cons.inj h
          have hraw : raw' ≠ [] := readLines_ne_nil (heq ▸ List.mem_cons_self)
          rw [List.getLast?_cons_of_ne_nil hraw]
          exact ih [] heq
        | cons first before =>
          obtain ⟨-, rfl⟩ := List.cons.inj h
          exact ih (raw' :: before) heq

theorem after_eq_nil {text : List Char} {before : List Line}
    (h : Program.readLines text = before ++ raw :: after) (hraw : raw.getLast? ≠ some '\n') :
    after = [] := by
  cases after with
  | nil => rfl
  | cons next after => exact absurd (getLast_of_readLines before h) hraw

theorem mem_before_terminated {text : List Char} {before : List Line}
    (h : Program.readLines text = before ++ raw :: after) :
    ∀ line ∈ before, line.getLast? = some '\n' := by
  intro line hline
  obtain ⟨first, rest, rfl⟩ := List.append_of_mem hline
  cases rest with
  | nil => exact getLast_of_readLines first (by rw [h, List.append_assoc]; rfl)
  | cons next rest => exact getLast_of_readLines first (by rw [h, List.append_assoc]; rfl)

theorem dropWhile_append_of_ne_nil {p : Char → Bool} {text : Line} (h : text.dropWhile p ≠ [])
    (c : Char) : (text ++ [c]).dropWhile p = text.dropWhile p ++ [c] := by
  rw [List.dropWhile_append, if_neg]
  rwa [List.isEmpty_iff]

theorem takeWhile_append_ne_nil {p : Char → Bool} {text : Line} (h : text.takeWhile p ≠ [])
    (c : Char) : (text ++ [c]).takeWhile p ≠ [] := by
  cases text with
  | nil => exact absurd rfl h
  | cons a text =>
    cases ha : p a with
    | false => simp [ha] at h
    | true => simp [ha]

theorem skip_append {word text rest : Line} (h : skip word text = some rest) (c : Char) :
    skip word (text ++ [c]) = some (rest ++ [c]) := by
  unfold skip at h ⊢
  split at h
  · next hbegins =>
    cases h
    rw [if_pos (hbegins.trans (List.prefix_append _ _)),
      List.drop_append_of_le_length hbegins.length_le]
  · cases h

theorem skip_ne_nil {word text rest : Line} (h : skip word text = some rest) (hword : word ≠ []) :
    text ≠ [] := by
  rintro rfl
  unfold skip at h
  rw [if_neg (fun hbegins => hword (List.prefix_nil.mp hbegins))] at h
  cases h

theorem readName_append {text : Line} {r : Line × Line} (h : readName text = some r) (c : Char) :
    ∃ r', readName (text ++ [c]) = some r' := by
  unfold readName at h
  dsimp only at h
  split at h
  · cases h
  · next hboth =>
    obtain ⟨hblank, hname⟩ := not_or.mp hboth
    have hrest : text.dropWhile blank ≠ [] := by
      intro hnil
      rw [hnil] at hname
      exact hname rfl
    refine ⟨_, if_neg (not_or.mpr ⟨takeWhile_append_ne_nil hblank c, ?_⟩)⟩
    rw [dropWhile_append_of_ne_nil hrest]
    exact takeWhile_append_ne_nil hname c

theorem readIf_append {text : Line} {r : Bool × Line} (h : readIf text = some r) (c : Char) :
    ∃ r', readIf (text ++ [c]) = some r' := by
  unfold readIf at h
  obtain ⟨rest, hif, h⟩ := Option.bind_eq_some_iff.mp h
  obtain ⟨rest', hdef, h⟩ := Option.bind_eq_some_iff.mp h
  obtain ⟨r', hname, -⟩ := Option.bind_eq_some_iff.mp h
  have hrest : rest ≠ [] := by
    rintro rfl
    exact skip_ne_nil hdef (by simp) rfl
  obtain ⟨r'', hname'⟩ := readName_append hname c
  have hdef' : skip "def".toList
      (if (rest ++ [c]).head? = some 'n' then (rest ++ [c]).tail else rest ++ [c]) =
        some (rest' ++ [c]) := by
    rw [List.head?_append_of_ne_nil _ hrest, List.tail_append_of_ne_nil hrest, ← skip_append hdef c]
    split <;> rfl
  refine ⟨(decide ((rest ++ [c]).head? = some 'n'), r''.1), ?_⟩
  rw [readIf, dropWhile_append_of_ne_nil (skip_ne_nil hif (by simp))]
  refine Option.bind_eq_some_iff.mpr ⟨_, skip_append hif c, ?_⟩
  refine Option.bind_eq_some_iff.mpr ⟨_, hdef', ?_⟩
  exact Option.bind_eq_some_iff.mpr ⟨_, hname', rfl⟩

theorem readIf_chop (h : directive raw = .none) : readIf (Program.chop raw) = none := by
  by_contra hchop
  rcases List.eq_nil_or_concat raw with rfl | ⟨text, c, rfl⟩
  · exact hchop rfl
  · rw [Program.chop, List.concat_eq_append, List.dropLast_concat] at hchop
    obtain ⟨r, hread⟩ := Option.ne_none_iff_exists'.mp hchop
    obtain ⟨⟨negated, name⟩, hread⟩ := readIf_append hread c
    rw [List.concat_eq_append, directive, hread] at h
    cases h

def Quiet (s : State) : Except Exit State → Prop
  | .ok s' => s'.nTrue = s.nTrue ∧ s'.nFalse = s.nFalse
  | .error (.elseWithoutIf _) => False
  | .error (.endifWithoutIf _) => False
  | .error _ => True

theorem Quiet.bind {s : State} {r : Except Exit State} {f : State → Except Exit State}
    (hr : Quiet s r) (hf : ∀ s', Quiet s' (f s')) : Quiet s (r >>= f) := by
  cases r with
  | error e => exact hr
  | ok s' =>
    obtain ⟨htrue, hfalse⟩ := hr
    have hnext : Quiet s' (f s') := hf s'
    change Quiet s (f s')
    unfold Quiet at hnext ⊢
    rw [htrue, hfalse] at hnext
    exact hnext

theorem quiet_define (s : State) (text : Line) : Quiet s (s.define text) := by
  unfold State.define
  split
  · exact ⟨rfl, rfl⟩
  · split
    · split
      · trivial
      · exact ⟨rfl, rfl⟩
    · exact ⟨rfl, rfl⟩

theorem set_counters {s s' : State} {text : Line} (h : s.set text = some s') :
    s'.nTrue = s.nTrue ∧ s'.nFalse = s.nFalse := by
  unfold State.set at h
  dsimp only at h
  split at h
  · cases h
  · split at h
    · cases h
    · cases h
      exact ⟨rfl, rfl⟩

section Loop

variable {program : Program} {expand : Hash Line → Line → Option Line}
  {env : Hash (Option Line)} {defs : Hash Line} {s s' : State} {levels : List Level}

theorem quiet_emit (s : State) (text : Line) : Quiet s (program.emit s text) := by
  cases program with
  | envcpp => exact ⟨rfl, rfl⟩
  | envedit =>
    simp only [Program.emit]
    split
    · next h => exact set_counters h
    · trivial

theorem quiet_emitLine (s : State) : Quiet s (program.emitLine s) := by
  unfold Program.emitLine
  split
  · exact quiet_emit s _
  · exact ⟨rfl, rfl⟩

theorem quiet_takeLine (program : Program) (expand : Hash Line → Line → Option Line) (s : State)
    (text : Line) : Quiet s (program.takeLine expand s text) := by
  unfold Program.takeLine
  refine (quiet_define s text).bind fun s => ?_
  split
  · trivial
  · dsimp only
    split
    · exact ⟨rfl, rfl⟩
    · split
      · split
        · trivial
        · exact ⟨rfl, rfl⟩
      · exact (quiet_emitLine s).bind fun s => ⟨rfl, rfl⟩

/-! ### The branch for a directive -/

theorem conditional_ifdef {text name : Line} {negated : Bool}
    (hd : directive text = .ifdef negated name) :
    s.conditional text =
      if s.nFalse = 0 ∧ s.isDefined name = !negated then .ok { s with nTrue := s.nTrue + 1 }
      else .ok { s with nFalse := s.nFalse + 1 } := by
  simp only [State.conditional, hd]

theorem conditional_else {text : Line} (hd : directive text = .else) :
    s.conditional text =
      if s.nFalse = 0 ∧ s.nTrue = 0 then .error (.elseWithoutIf s.lineno)
      else if s.nFalse = 0 then .ok { s with nTrue := s.nTrue - 1, nFalse := s.nFalse + 1 }
      else if s.nFalse = 1 then .ok { s with nFalse := s.nFalse - 1, nTrue := s.nTrue + 1 }
      else .ok s := by
  simp only [State.conditional, hd]

theorem conditional_endif {text : Line} (hd : directive text = .endif) :
    s.conditional text =
      if s.nFalse = 0 ∧ s.nTrue = 0 then .error (.endifWithoutIf s.lineno)
      else if s.nFalse ≠ 0 then .ok { s with nFalse := s.nFalse - 1 }
      else .ok { s with nTrue := s.nTrue - 1 } := by
  simp only [State.conditional, hd]

theorem conditional_none {text : Line} (hd : directive text = .none) :
    s.conditional text = .ok s := by
  simp only [State.conditional, hd]

theorem conditional_elseWithoutIf {text : Line} {n : ℕ} :
    s.conditional text = .error (.elseWithoutIf n) ↔
      directive text = .else ∧ s.nTrue = 0 ∧ s.nFalse = 0 ∧ n = s.lineno := by
  cases hd : directive text with
  | ifdef negated name =>
    rw [conditional_ifdef hd]
    split <;> simp
  | «else» =>
    rw [conditional_else hd]
    split_ifs with hzero <;> simp_all [eq_comm]
  | endif =>
    rw [conditional_endif hd]
    split_ifs <;> simp
  | none =>
    rw [conditional_none hd]
    simp

theorem conditional_endifWithoutIf {text : Line} {n : ℕ} :
    s.conditional text = .error (.endifWithoutIf n) ↔
      directive text = .endif ∧ s.nTrue = 0 ∧ s.nFalse = 0 ∧ n = s.lineno := by
  cases hd : directive text with
  | ifdef negated name =>
    rw [conditional_ifdef hd]
    split <;> simp
  | «else» =>
    rw [conditional_else hd]
    split_ifs <;> simp
  | endif =>
    rw [conditional_endif hd]
    split_ifs with hzero <;> simp_all [eq_comm]
  | none =>
    rw [conditional_none hd]
    simp

theorem conditional_depth {text : Line} (h : s.conditional text = .ok s')
    (hdepth : s.nTrue + s.nFalse = levels.length) :
    s'.nTrue + s'.nFalse = (enclose s (directive text) levels).length := by
  cases hd : directive text with
  | ifdef negated name =>
    rw [conditional_ifdef hd] at h
    rw [enclose, List.length_cons, ← hdepth]
    split at h
    · cases h
      exact Nat.add_right_comm _ _ _
    · cases h
      rfl
  | «else» =>
    rw [conditional_else hd] at h
    have hsum : s'.nTrue + s'.nFalse = s.nTrue + s.nFalse := by
      split_ifs at h <;> cases h <;> dsimp only <;> omega
    cases levels with
    | nil => exact hsum.trans hdepth
    | cons level outer => exact hsum.trans hdepth
  | endif =>
    rw [conditional_endif hd] at h
    have hsum : s'.nTrue + s'.nFalse + 1 = s.nTrue + s.nFalse := by
      split_ifs at h <;> cases h <;> dsimp only <;> omega
    cases levels with
    | nil =>
      rw [List.length_nil] at hdepth
      omega
    | cons level outer =>
      rw [List.length_cons] at hdepth
      rw [enclose]
      omega
  | none =>
    rw [conditional_none hd] at h
    cases h
    exact hdepth

/-- **The step of the simulation.** -/
theorem conditional_counts {text : Line} {opened : List Bool} (h : s.conditional text = .ok s')
    (hcounts : counts levels = (s.nTrue, s.nFalse))
    (hnest : nest (levels.map Level.inElse) (directive text) = some opened) :
    counts (enclose s (directive text) levels) = (s'.nTrue, s'.nFalse) ∧
      (enclose s (directive text) levels).map Level.inElse = opened := by
  cases hd : directive text with
  | ifdef negated name =>
    rw [conditional_ifdef hd] at h
    rw [hd] at hnest
    obtain rfl := Option.some.inj hnest
    refine ⟨?_, rfl⟩
    rw [enclose, counts_cons, hcounts]
    have hselects : (Level.mk (s.isDefined name = !negated) false).selects = true ↔
        s.isDefined name = !negated := by simp [Level.selects]
    rw [if_congr (and_congr_right' hselects) rfl rfl]
    split at h
    · next hcond =>
      cases h
      rw [if_pos hcond]
      exact congrArg (Prod.mk _) hcond.1.symm
    · next hcond =>
      cases h
      rw [if_neg hcond]
  | «else» =>
    rw [conditional_else hd] at h
    rw [hd] at hnest
    cases levels with
    | nil => cases hnest
    | cons level outer =>
      obtain ⟨holds, inElse⟩ := level
      cases inElse with
      | true => cases hnest
      | false =>
        obtain rfl := Option.some.inj hnest
        refine ⟨?_, rfl⟩
        have hflip := counts_flip ⟨holds, false⟩ outer
        rw [hcounts] at hflip
        refine hflip.trans ?_
        split_ifs at h <;> cases h <;> simp [*]
  | endif =>
    rw [conditional_endif hd] at h
    rw [hd] at hnest
    cases levels with
    | nil => cases hnest
    | cons level outer =>
      obtain rfl := Option.some.inj hnest
      refine ⟨?_, rfl⟩
      have htail := counts_tail level outer
      rw [hcounts] at htail
      refine htail.trans ?_
      split_ifs at h <;> cases h <;> simp [*]
  | none =>
    rw [conditional_none hd] at h
    rw [hd] at hnest
    cases h
    exact ⟨hcounts, Option.some.inj hnest⟩

theorem turn_eq (s : State) (raw : Line) :
    program.turn expand s raw =
      { s with lineno := s.lineno + 1 }.conditional (Program.chop raw) >>= fun s =>
        if s.nFalse ≠ 0 then .ok s else program.takeLine expand s (Program.chop raw) := rfl

theorem turn_ok (h : program.turn expand s raw = .ok s') :
    ∃ t, { s with lineno := s.lineno + 1 }.conditional (Program.chop raw) = .ok t ∧
      s'.nTrue = t.nTrue ∧ s'.nFalse = t.nFalse := by
  rw [turn_eq] at h
  cases hcond : { s with lineno := s.lineno + 1 }.conditional (Program.chop raw) with
  | error e =>
    rw [hcond] at h
    cases h
  | ok t =>
    rw [hcond] at h
    change (if t.nFalse ≠ 0 then .ok t else program.takeLine expand t _) = Except.ok s' at h
    refine ⟨t, rfl, ?_⟩
    split at h
    · cases h
      exact ⟨rfl, rfl⟩
    · have hquiet := quiet_takeLine program expand t (Program.chop raw)
      rw [h] at hquiet
      exact hquiet

theorem turn_error {e : Exit} (he : ∀ t, ¬Quiet t (.error e)) :
    program.turn expand s raw = .error e ↔
      { s with lineno := s.lineno + 1 }.conditional (Program.chop raw) = .error e := by
  rw [turn_eq]
  cases hcond : { s with lineno := s.lineno + 1 }.conditional (Program.chop raw) with
  | error e' => exact Iff.rfl
  | ok t =>
    refine iff_of_false (fun h => ?_) (by simp)
    change (if t.nFalse ≠ 0 then .ok t else program.takeLine expand t _) = .error e at h
    split at h
    · cases h
    · have hquiet := quiet_takeLine program expand t (Program.chop raw)
      rw [h] at hquiet
      exact he t hquiet

/-! ### The run -/

theorem enclose_read (s : State) (d : Directive) (levels : List Level) :
    enclose s d levels = enclose { s with lineno := s.lineno + 1 } d levels := by
  cases d <;> cases levels <;> rfl

theorem Reached.depth {before : List Line} (h : Reached program expand env defs before s levels)
    (hlines : ∀ line ∈ before, line.getLast? = some '\n') :
    s.nTrue + s.nFalse = levels.length := by
  induction h with
  | start => rfl
  | turn raw _ hturn ih =>
    obtain ⟨t, hcond, htrue, hfalse⟩ := turn_ok hturn
    have hraw := hlines raw (List.mem_append_right _ List.mem_cons_self)
    have hdepth := ih fun line hline => hlines line (List.mem_append_left _ hline)
    rw [chop_eq_content hraw] at hcond
    rw [htrue, hfalse, enclose_read]
    exact conditional_depth hcond hdepth

/-- **The counters stand for the stack**, after all lines of a file that is well nested so far. -/
theorem Reached.counts {before : List Line} {opened : List Bool}
    (h : Reached program expand env defs before s levels)
    (hlines : ∀ line ∈ before, line.getLast? = some '\n')
    (hnest : (before.map (directive ∘ content)).foldlM nest [] = some opened) :
    counts levels = (s.nTrue, s.nFalse) ∧ levels.map Level.inElse = opened := by
  induction h generalizing opened with
  | start => exact ⟨rfl, Option.some.inj hnest⟩
  | turn raw _ hturn ih =>
    obtain ⟨t, hcond, htrue, hfalse⟩ := turn_ok hturn
    have hraw := hlines raw (List.mem_append_right _ List.mem_cons_self)
    rw [chop_eq_content hraw] at hcond
    rw [List.map_append, List.foldlM_append] at hnest
    obtain ⟨opened', hbefore, hlast⟩ := Option.bind_eq_some_iff.mp hnest
    obtain ⟨hcounts, rfl⟩ := ih (fun line hline => hlines line (List.mem_append_left _ hline)) hbefore
    rw [htrue, hfalse, enclose_read]
    exact conditional_counts hcond hcounts (by simpa using hlast)

theorem turn_elseWithoutIf : program.turn expand s raw = .error (.elseWithoutIf (s.lineno + 1)) ↔
      directive (Program.chop raw) = .else ∧ s.nTrue = 0 ∧ s.nFalse = 0 := by
  rw [turn_error fun _ => id, conditional_elseWithoutIf]
  simp

theorem turn_endifWithoutIf : program.turn expand s raw = .error (.endifWithoutIf (s.lineno + 1)) ↔
      directive (Program.chop raw) = .endif ∧ s.nTrue = 0 ∧ s.nFalse = 0 := by
  rw [turn_error fun _ => id, conditional_endifWithoutIf]
  simp

theorem keeps_iff (hd : directive (Program.chop raw) = .none) : Keeps s raw ↔ s.nFalse = 0 := by
  rw [Keeps, conditional_none hd]
  simp

theorem Reached.levels_eq_nil {before : List Line}
    (h : Reached program expand env defs before s levels)
    (hlines : ∀ line ∈ before, line.getLast? = some '\n') :
    s.nTrue = 0 ∧ s.nFalse = 0 ↔ levels = [] := by
  rw [← List.length_eq_zero_iff, ← h.depth hlines, Nat.add_eq_zero_iff]

theorem LastLineRead.directive_none {before : List Line} {text : List Char}
    (h : LastLineRead program expand env defs text)
    (hlines : Program.readLines text = before ++ [raw]) (hraw : raw.getLast? ≠ some '\n')
    (hreached : Reached program expand env defs before s levels) (htrue : s.nTrue = 0)
    (hfalse : s.nFalse = 0) (hd : directive raw = .none) :
    directive (Program.chop raw) = .none := by
  obtain ⟨helse, hendif⟩ := h hlines hraw hreached htrue hfalse
  rw [hd] at helse hendif
  cases hchop : directive (Program.chop raw) with
  | ifdef negated name =>
    rw [directive, readIf_chop hd] at hchop
    dsimp only at hchop
    split_ifs at hchop
  | «else» => exact absurd (helse.mp hchop) nofun
  | endif => exact absurd (hendif.mp hchop) nofun
  | none => rfl

theorem LastLineRead.directive_iff {before : List Line} {text : List Char}
    (h : LastLineRead program expand env defs text)
    (hlines : Program.readLines text = before ++ raw :: after)
    (hreached : Reached program expand env defs before s levels)
    (hzero : s.nTrue = 0 ∧ s.nFalse = 0) :
    (directive (Program.chop raw) = .else ↔ directive (content raw) = .else) ∧
      (directive (Program.chop raw) = .endif ↔ directive (content raw) = .endif) := by
  by_cases hraw : raw.getLast? = some '\n'
  · rw [chop_eq_content hraw]
    exact ⟨Iff.rfl, Iff.rfl⟩
  · obtain rfl := after_eq_nil hlines hraw
    rw [content_eq hraw]
    exact h hlines hraw hreached hzero.1 hzero.2

theorem WellNested.before {text : List Char} {before : List Line}
    (h : WellNested text) (hlines : Program.readLines text = before ++ raw :: after)
    (hd : directive (content raw) = .none) :
    ∃ opened, (before.map (directive ∘ content)).foldlM nest [] = some opened ∧
      (after = [] → opened = []) := by
  rw [WellNested, hlines, List.map_append, List.foldlM_append] at h
  obtain ⟨opened, hbefore, hrest⟩ := Option.bind_eq_some_iff.mp h
  refine ⟨opened, hbefore, ?_⟩
  rintro rfl
  simp only [List.map_cons, List.map_nil, Function.comp_apply, hd, List.foldlM_cons,
    List.foldlM_nil] at hrest
  cases opened with
  | nil => rfl
  | cons _ _ => simp [nest] at hrest

end Loop

theorem Reached.lines {program : Program} {expand : Hash Line → Line → Option Line}
    {env : Hash (Option Line)} {defs : Hash Line} {before raws : List Line} {s s' : State}
    {levels : List Level} (h : Reached program expand env defs before s levels)
    (hrun : raws.foldlM (program.turn expand) s = .ok s') :
    ∃ levels', Reached program expand env defs (before ++ raws) s' levels' := by
  induction raws generalizing before s levels with
  | nil =>
    cases hrun
    exact ⟨levels, (List.append_nil before).symm ▸ h⟩
  | cons raw raws ih =>
    rw [List.foldlM_cons, except_bind_eq_ok_iff] at hrun
    obtain ⟨t, hturn, hrest⟩ := hrun
    obtain ⟨levels', hlevels⟩ := ih (h.turn raw hturn) hrest
    exact ⟨levels', by simpa using hlevels⟩

theorem reached_of_processFile {program : Program} {expand : Hash Line → Line → Option Line}
    {env : Hash (Option Line)} {defs : Hash Line} {text : List Char} {s' : State}
    (h : program.processFile expand (State.start env defs) text = .ok s') :
    ∃ s levels, Reached program expand env defs (Program.readLines text) s levels ∧
      program.emitLine s = .ok s' := by
  obtain ⟨s, hrun, hlast⟩ := except_bind_eq_ok_iff.mp h
  obtain ⟨levels, hreached⟩ := Reached.start.lines hrun
  exact ⟨s, levels, hreached, hlast⟩

theorem refinesStack_iff (program : Program) (expand : Hash Line → Line → Option Line)
    (env : Hash (Option Line)) (defs : Hash Line) (text : List Char) :
    RefinesStack program expand env defs text ↔ LastLineRead program expand env defs text := by
  constructor
  · intro h before raw s levels hlines hraw hreached htrue hfalse
    have hlevels := (hreached.levels_eq_nil (mem_before_terminated hlines)).mp ⟨htrue, hfalse⟩
    have helse := h.reportsElse hlines hreached
    have hendif := h.reportsEndif hlines hreached
    rw [turn_elseWithoutIf, content_eq hraw] at helse
    rw [turn_endifWithoutIf, content_eq hraw] at hendif
    simp only [htrue, hfalse, hlevels, and_self, and_true] at helse hendif
    exact ⟨helse, hendif⟩
  · intro h
    constructor
    · intro hnested before raw after s levels hlines hreached hd
      have hbefore := mem_before_terminated hlines
      obtain ⟨opened, hnest, hlast⟩ := hnested.before hlines hd
      obtain ⟨hcounts, hopened⟩ := hreached.counts hbefore hnest
      have hchop : directive (Program.chop raw) = .none := by
        by_cases hraw : raw.getLast? = some '\n'
        · rw [chop_eq_content hraw, hd]
        · -- an ordinary last line of a file that is well nested is outside of all conditionals
          obtain rfl := after_eq_nil hlines hraw
          rw [hlast rfl, List.map_eq_nil_iff] at hopened
          obtain ⟨htrue, hfalse⟩ := (hreached.levels_eq_nil hbefore).mpr hopened
          rw [content_eq hraw] at hd
          exact h.directive_none hlines hraw hreached htrue hfalse hd
      rw [keeps_iff hchop, ← counts_snd_eq_zero, hcounts]
    · intro before raw after s levels hlines hreached
      rw [turn_elseWithoutIf, ← hreached.levels_eq_nil (mem_before_terminated hlines)]
      exact and_congr_left fun hzero => (h.directive_iff hlines hreached hzero).1
    · intro before raw after s levels hlines hreached
      rw [turn_endifWithoutIf, ← hreached.levels_eq_nil (mem_before_terminated hlines)]
      exact and_congr_left fun hzero => (h.directive_iff hlines hreached hzero).2

/-- An `#endif` without `#if` is not reported where nothing follows it, not even a newline. -/
theorem not_refinesStack_endif :
    ¬RefinesStack .envcpp (fun _ text => some text) [] [] "#endif".toList := by
  intro h
  have hlines : Program.readLines "#endif".toList = [] ++ "#endif".toList :: [] := by decide
  have hreported := (h.reportsEndif hlines Reached.start).mpr ⟨by decide, rfl⟩
  exact absurd hreported (by decide)

end Openmoko.Envcpp
