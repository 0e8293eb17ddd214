import Openmoko.Gsmd.Proof.ExtendedResponse
import Openmoko.Library.Loop

/-!
# The limits of extended responses

Which responses the parser survives. The response is cut into its fields, by what begins and what
ends them and without regard to any array. A field that has its place in the arrays leaves the
parser idle with one token more; another one leaves an array.
-/

namespace Openmoko.Gsmd

open Extrsp ExtrspParser

def upTo (c : Byte) (input : List Byte) : List Byte := input.takeWhile (· ≠ c)

def behind (c : Byte) (input : List Byte) : List Byte := (input.dropWhile (· ≠ c)).tail

theorem notMem_upTo (c : Byte) (input : List Byte) : c ∉ upTo c input := by
  intro hmem
  simpa using List.mem_takeWhile_imp hmem

variable {c : Byte} {input text : List Byte}

theorem upTo_append_behind (hc : c ∈ input) : upTo c input ++ c :: behind c input = input := by
  induction input with
  | nil => cases hc
  | cons d input ih =>
    by_cases hd : d = c
    · subst hd
      simp [upTo, behind]
    · have hrest : c ∈ input := (List.mem_cons.mp hc).resolve_left (Ne.symm hd)
      have htake : upTo c (d :: input) = d :: upTo c input := by simp [upTo, hd]
      have hdrop : behind c (d :: input) = behind c input := by simp [behind, hd]
      rw [htake, hdrop, List.cons_append, ih hrest]

theorem upTo_of_notMem (hc : c ∉ input) : upTo c input = input := by
  rw [upTo, List.takeWhile_eq_self_iff]
  intro d hd
  exact decide_eq_true fun heq => hc (heq ▸ hd)

theorem behind_of_notMem (hc : c ∉ input) : behind c input = [] := by
  have hdrop : input.dropWhile (· ≠ c) = [] := by
    rw [List.dropWhile_eq_nil_iff]
    intro d hd
    exact decide_eq_true fun heq => hc (heq ▸ hd)
  rw [behind, hdrop, List.tail_nil]

theorem length_behind_le (c : Byte) (input : List Byte) :
    (behind c input).length ≤ input.length := by
  rw [behind, List.length_tail]
  exact (Nat.sub_le _ _).trans (List.dropWhile_sublist _).length_le

inductive ExtrspField where
  | empty
  | numeric (text : List Byte)
  | string (text : List Byte) (closed : Bool)
  | range (text : List Byte) (closed : Bool)
  deriving DecidableEq, Repr

/-- The fields of a response. Between fields everything else is passed over, and what stands behind
a string or a range up to the next comma as well. -/
def fields : List Byte → List ExtrspField
  | [] => []
  | c :: input =>
    if c = QUOTE then
      .string (upTo QUOTE input) (QUOTE ∈ input) :: fields (behind COMMA (behind QUOTE input))
    else if c = OPEN then
      .range (upTo CLOSE input) (CLOSE ∈ input) :: fields (behind COMMA (behind CLOSE input))
    else if isdigit c then .numeric (c :: upTo COMMA input) :: fields (behind COMMA input)
    else if c = COMMA then .empty :: fields input
    else fields input
  termination_by input => input.length
  decreasing_by
    all_goals simp only [List.length_cons]
    · exact Nat.lt_succ_of_le ((length_behind_le _ _).trans (length_behind_le _ _))
    · exact Nat.lt_succ_of_le ((length_behind_le _ _).trans (length_behind_le _ _))
    · exact Nat.lt_succ_of_le (length_behind_le _ _)
    · exact Nat.lt_succ_self _
    · exact Nat.lt_succ_self _

def digitRun (before : List Byte) : List Byte :=
  before.foldl
    (fun run c => if c = DASH then [] else if isdigit c then run ++ [c] else run) []

theorem digitRun_append (before : List Byte) (c : Byte) :
    digitRun (before ++ [c]) =
      if c = DASH then [] else if isdigit c then digitRun before ++ [c] else digitRun before := by
  rw [digitRun, List.foldl_append]
  rfl

structure RangeCharFits (before : List Byte) (c : Byte) : Prop where
  digit : isdigit c = true → (digitRun before).length < EXTRSP_BUF_SIZE
  ends : c = DASH ∨ c = COMMA ∨ c = CLOSE →
    (digitRun before).length < EXTRSP_BUF_SIZE ∧ before.count COMMA < GSM_EXTRSP_MAX_RANGES

def RangeFits (before text : List Byte) : Prop :=
  ∀ q c, q ++ [c] <+: text → RangeCharFits (before ++ q) c

namespace ExtrspField

/-- The field fits into `buf`, with the NUL behind a text that is read, and into its items. -/
def Fits : ExtrspField → Prop
  | .empty => True
  | .numeric text => (text.filter isdigit).length < EXTRSP_BUF_SIZE
  | .string text closed =>
    if closed then text.length < EXTRSP_BUF_SIZE else text.length ≤ EXTRSP_BUF_SIZE
  | .range text closed => RangeFits [] (if closed then text ++ [CLOSE] else text)

def TooLong : ExtrspField → Prop
  | .string text closed => closed = true ∧ GSM_EXTRSP_MAX_STRBUF ≤ text.length
  | _ => False

end ExtrspField

namespace ExtrspParser

/-! ### One field -/

def Survives (p : ExtrspParser) (input : List Byte) : Prop := ∃ er, p.loop input = .ok er

theorem survives_of_ok {p p' : ExtrspParser} (hstep : p.step c = .ok p')
    (input : List Byte) : p.Survives (c :: input) ↔ p'.Survives input := by
  rw [Survives, loop_cons_of_ok hstep, Survives]

theorem not_survives_of_error {p : ExtrspParser} {fault : ExtrspFault}
    (hstep : p.step c = .error fault) (input : List Byte) : ¬p.Survives (c :: input) := by
  rintro ⟨er, hloop⟩
  rw [loop_cons_of_error hstep] at hloop
  cases hloop

def RangeAt (done : List GsmExtrspTok) (before : List Byte) (p : ExtrspParser) : Prop :=
  ∃ tok, p = within .tokenRange done tok (digitRun before) ∧ tok.numItems = before.count COMMA

theorem rangeFits_cons {before : List Byte} :
    RangeFits before (c :: text) ↔ RangeCharFits before c ∧ RangeFits (before ++ [c]) text := by
  constructor
  · intro hfits
    refine ⟨?_, fun q d hstart => ?_⟩
    · have hfirst := hfits [] c (by simp)
      rwa [List.append_nil] at hfirst
    · have hlater := hfits (c :: q) d (by simpa using hstart)
      rwa [List.append_assoc, List.singleton_append]
  · rintro ⟨hfirst, hlater⟩ q d hstart
    cases q with
    | nil =>
      obtain ⟨rfl, -⟩ := List.cons_prefix_cons.mp hstart
      rwa [List.append_nil]
    | cons e q =>
      obtain ⟨rfl, hrest⟩ := List.cons_prefix_cons.mp hstart
      have hd := hlater q d hrest
      rwa [List.append_assoc, List.singleton_append] at hd

theorem rangeFits_concat {before : List Byte} :
    RangeFits before (text ++ [c]) ↔ RangeFits before text ∧ RangeCharFits (before ++ text) c := by
  induction text generalizing before with
  | nil =>
    rw [List.nil_append, rangeFits_cons, List.append_nil, and_comm]
    refine and_congr_left fun _ => iff_of_true ?_ ?_ <;>
      exact fun q d hstart => absurd (List.prefix_nil.mp hstart)
        (List.append_ne_nil_of_right_ne_nil _ (List.cons_ne_nil _ _))
  | cons d text ih =>
    rw [List.cons_append, rangeFits_cons, ih, rangeFits_cons, and_assoc, List.append_assoc,
      List.singleton_append]

theorem step_numberEnd_error {done : List GsmExtrspTok} {tok : GsmExtrspTok} {buf : List Byte}
    (hc : c = DASH ∨ c = COMMA ∨ c = CLOSE)
    (hfull : ¬(buf.length < EXTRSP_BUF_SIZE ∧ tok.numItems < GSM_EXTRSP_MAX_RANGES)) :
    ∃ fault, (within .tokenRange done tok buf).step c = .error fault := by
  by_cases hbuf : buf.length < EXTRSP_BUF_SIZE
  · have hitems : ¬tok.numItems < GSM_EXTRSP_MAX_RANGES := fun hitems => hfull ⟨hbuf, hitems⟩
    have hitem : ∀ item, (within .tokenRange done tok buf).storeItem item = .error .item :=
      fun item => if_neg hitems
    have hend : (within .tokenRange done tok buf).endItem = .error .item := by
      rw [endItem, number_within hbuf, ok_bind]
      exact congrArg (· >>= _) (hitem _)
    refine ⟨.item, ?_⟩
    rcases hc with rfl | rfl | rfl
    · change ((within .tokenRange done tok buf).number >>= fun min => _) = _
      rw [number_within hbuf, ok_bind]
      exact congrArg (· >>= _) (hitem _)
    · exact hend
    · exact congrArg (· >>= _) hend
  · have hnumber := number_full .tokenRange done tok hbuf
    have hend : (within .tokenRange done tok buf).endItem = .error .unterminated := by
      rw [endItem, hnumber, error_bind]
    refine ⟨.unterminated, ?_⟩
    rcases hc with rfl | rfl | rfl
    · exact congrArg (· >>= _) hnumber
    · exact hend
    · exact congrArg (· >>= _) hend

section RangeField

variable {done : List GsmExtrspTok} (hroom : done.length < GSM_EXTRSP_MAX_TOKENS)
  {before : List Byte} {p : ExtrspParser} (hat : RangeAt done before p)
include hroom hat

theorem step_rangeAt (hclose : c ≠ CLOSE) (hfits : RangeCharFits before c) :
    ∃ p', p.step c = .ok p' ∧ RangeAt done (before ++ [c]) p' := by
  obtain ⟨tok, rfl, hitems⟩ := hat
  by_cases hdigit : isdigit c = true
  · have hrun : digitRun (before ++ [c]) = digitRun before ++ [c] := by
      rw [digitRun_append, if_neg (ne_of_isdigit hdigit rfl), if_pos hdigit]
    have hcount : (before ++ [c]).count COMMA = before.count COMMA := by
      rw [List.count_append, List.count_singleton, if_neg, Nat.add_zero]
      simpa using ne_of_isdigit hdigit rfl
    have hstep := step_rangeDigit done tok (digitRun before) hdigit
    exact ⟨_, hstep.trans (if_pos (hfits.digit hdigit)), tok, by rw [hrun], hitems.trans hcount.symm⟩
  by_cases hdash : c = DASH
  · subst hdash
    obtain ⟨hbuf, hfree⟩ := hfits.ends (.inl rfl)
    refine ⟨_, step_dash hroom hbuf (hitems.trans_lt hfree), _, by rw [digitRun_append]; rfl, ?_⟩
    rw [List.count_append, ← hitems]
    rfl
  by_cases hcomma : c = COMMA
  · subst hcomma
    obtain ⟨hbuf, hfree⟩ := hfits.ends (.inr (.inl rfl))
    refine ⟨_, step_rangeComma hroom hbuf (hitems.trans_lt hfree), _,
      by rw [digitRun_append]; rfl, ?_⟩
    rw [List.count_append, ← hitems]
    exact List.length_append
  · rw [Bool.not_eq_true] at hdigit
    refine ⟨_, step_rangeOther hdigit hdash hcomma hclose, tok, ?_, ?_⟩
    · rw [digitRun_append, if_neg hdash, hdigit, if_neg Bool.false_ne_true]
    · rw [List.count_append, List.count_singleton, if_neg, Nat.add_zero, hitems]
      simpa using hcomma

omit hroom in
theorem step_rangeAt_error (hfits : ¬RangeCharFits before c) :
    ∃ fault, p.step c = .error fault := by
  obtain ⟨tok, rfl, hitems⟩ := hat
  by_cases hdigit : isdigit c = true
  · have hstep := step_rangeDigit done tok (digitRun before) hdigit
    refine ⟨.scratch, hstep.trans (if_neg fun hbuf => hfits ⟨fun _ => hbuf, ?_⟩)⟩
    rintro (rfl | rfl | rfl) <;> cases hdigit
  by_cases hend : c = DASH ∨ c = COMMA ∨ c = CLOSE
  · refine step_numberEnd_error hend fun hfull => hfits ⟨fun hc => absurd hc hdigit, fun _ => ?_⟩
    rwa [hitems] at hfull
  · exact absurd ⟨fun hc => absurd hc hdigit, fun hc => absurd hc hend⟩ hfits

theorem survives_rangeAt (hclose : CLOSE ∉ text) :
    (¬RangeFits before text ∧ ∀ rest, ¬p.Survives (text ++ rest)) ∨
      (RangeFits before text ∧ ∃ p', RangeAt done (before ++ text) p' ∧
        ∀ rest, p.loop (text ++ rest) = p'.loop rest) := by
  induction text generalizing before p with
  | nil =>
    refine .inr ⟨fun q c hstart => ?_, p, by rwa [List.append_nil], fun rest => rfl⟩
    exact absurd (List.prefix_nil.mp hstart) (List.append_ne_nil_of_right_ne_nil _ (by simp))
  | cons c text ih =>
    rw [List.mem_cons, not_or] at hclose
    rw [rangeFits_cons]
    by_cases hfirst : RangeCharFits before c
    · obtain ⟨p', hstep, hat'⟩ := step_rangeAt hroom hat (Ne.symm hclose.1) hfirst
      rcases ih hat' hclose.2 with ⟨hnot, hfails⟩ | ⟨hfits, p'', hat'', hloop⟩
      · refine .inl ⟨fun hfits => hnot hfits.2, fun rest => ?_⟩
        rw [List.cons_append, survives_of_ok hstep]
        exact hfails rest
      · rw [List.append_assoc, List.singleton_append] at hat''
        refine .inr ⟨⟨hfirst, hfits⟩, p'', hat'', fun rest => ?_⟩
        rw [List.cons_append, loop_cons_of_ok hstep, hloop]
    · obtain ⟨fault, hstep⟩ := step_rangeAt_error hat hfirst
      exact .inl ⟨fun hfits => hfirst hfits.1, fun rest => not_survives_of_error hstep _⟩

end RangeField

theorem survives_rangeClose {done : List GsmExtrspTok}
    (hroom : done.length < GSM_EXTRSP_MAX_TOKENS) {before : List Byte} {p : ExtrspParser}
    (hat : RangeAt done before p) :
    (¬RangeCharFits before CLOSE ∧ ∀ rest, ¬p.Survives (CLOSE :: rest)) ∨
      (RangeCharFits before CLOSE ∧ ∃ tok buf, ∀ rest, p.loop (CLOSE :: rest) =
        (within .tokenStringLastquote (done ++ [tok]) .zero buf).loop rest) := by
  by_cases hfits : RangeCharFits before CLOSE
  · obtain ⟨tok, rfl, hitems⟩ := hat
    obtain ⟨hbuf, hfree⟩ := hfits.ends (.inr (.inr rfl))
    have hstep := step_close hroom hbuf (hitems.trans_lt hfree)
    exact .inr ⟨hfits, _, _, fun rest => loop_cons_of_ok hstep rest⟩
  · obtain ⟨fault, hstep⟩ := step_rangeAt_error hat hfits
    exact .inl ⟨hfits, not_survives_of_error hstep⟩

theorem survives_lastquote (done : List GsmExtrspTok) (buf rest : List Byte) :
    (within .tokenStringLastquote done .zero buf).Survives rest ↔
      (idle done []).Survives (behind COMMA rest) := by
  by_cases hcomma : COMMA ∈ rest
  · have hloop := loop_lastquote done (notMem_upTo COMMA rest) buf
      (COMMA :: behind COMMA rest)
    rw [upTo_append_behind hcomma, loop_lastquote_comma, loop_idle_buf] at hloop
    rw [Survives, hloop, Survives]
  · have hloop := loop_lastquote done hcomma buf []
    rw [List.append_nil] at hloop
    rw [Survives, hloop, behind_of_notMem hcomma]
    exact iff_of_true ⟨_, rfl⟩ ⟨_, rfl⟩

section Survival

variable {done : List GsmExtrspTok}

theorem survives_idle_nil (done : List GsmExtrspTok) : (idle done []).Survives [] := ⟨_, rfl⟩

variable (hroom : done.length < GSM_EXTRSP_MAX_TOKENS)
include hroom

theorem survives_string (input : List Byte) :
    (within .tokenString done stringTok []).Survives input ↔
      (ExtrspField.string (upTo QUOTE input) (QUOTE ∈ input)).Fits ∧
        (idle (done ++ [stringRead (upTo QUOTE input)]) []).Survives
          (behind COMMA (behind QUOTE input)) := by
  have hempty : ([] : List Byte).length ≤ EXTRSP_BUF_SIZE := Nat.zero_le _
  by_cases hquote : QUOTE ∈ input
  · have hloop := loop_string done stringTok (notMem_upTo QUOTE input) hempty
      (QUOTE :: behind QUOTE input)
    rw [upTo_append_behind hquote, List.nil_append, List.length_nil, Nat.zero_add] at hloop
    have hfield : (ExtrspField.string (upTo QUOTE input) (QUOTE ∈ input)).Fits ↔
        (upTo QUOTE input).length < EXTRSP_BUF_SIZE := by
      rw [ExtrspField.Fits, if_pos (decide_eq_true hquote)]
    rw [Survives, hloop, hfield]
    by_cases hbuf : (upTo QUOTE input).length < EXTRSP_BUF_SIZE
    · rw [if_pos hbuf.le, loop_cons_of_ok (step_endQuote hroom hbuf), ← Survives,
        survives_lastquote, and_iff_right hbuf]
    · refine iff_of_false (fun hsurvives => ?_) fun hfits => hbuf hfits.1
      obtain ⟨er, her⟩ := hsurvives
      split at her
      · rw [loop_cons_of_error (step_endQuote_full hbuf)] at her
        cases her
      · cases her
  · have hloop := loop_string done stringTok hquote hempty []
    rw [List.append_nil, List.nil_append, List.length_nil, Nat.zero_add] at hloop
    have hfield : (ExtrspField.string (upTo QUOTE input) (QUOTE ∈ input)).Fits ↔
        input.length ≤ EXTRSP_BUF_SIZE := by
      rw [ExtrspField.Fits, if_neg (by simpa using hquote), upTo_of_notMem hquote]
    rw [Survives, hloop, hfield, behind_of_notMem hquote, behind_of_notMem List.not_mem_nil]
    split
    next hbuf => exact iff_of_true ⟨_, rfl⟩ ⟨hbuf, survives_idle_nil _⟩
    next hbuf => exact iff_of_false (fun ⟨er, her⟩ => by cases her) fun hfits => hbuf hfits.1

theorem survives_range (input : List Byte) :
    ∃ tok, (within .tokenRange done rangeTok []).Survives input ↔
      (ExtrspField.range (upTo CLOSE input) (CLOSE ∈ input)).Fits ∧
        (idle (done ++ [tok]) []).Survives (behind COMMA (behind CLOSE input)) := by
  have hat : RangeAt done [] (within .tokenRange done rangeTok []) := ⟨rangeTok, rfl, rfl⟩
  rcases survives_rangeAt hroom hat (notMem_upTo CLOSE input) with
    ⟨hnot, hfails⟩ | ⟨hfits, p, hp, hloop⟩
  · refine ⟨rangeTok, iff_of_false ?_ fun hfits => hnot ?_⟩
    · by_cases hclose : CLOSE ∈ input
      · rw [← upTo_append_behind hclose]
        exact hfails _
      · rw [← List.append_nil input, ← upTo_of_notMem hclose]
        exact hfails []
    · intro q c hstart
      refine hfits.1 q c (hstart.trans ?_)
      split
      · exact List.prefix_append _ _
      · exact List.prefix_refl _
  rw [List.nil_append] at hp
  by_cases hclose : CLOSE ∈ input
  · have hinput := hloop (CLOSE :: behind CLOSE input)
    rw [upTo_append_behind hclose] at hinput
    rw [Survives, hinput, ← Survives, ExtrspField.Fits, if_pos (by simpa using hclose),
      rangeFits_concat, and_iff_right hfits, List.nil_append]
    rcases survives_rangeClose hroom hp with ⟨hnot, hfails⟩ | ⟨hend, tok, buf, hrest⟩
    · exact ⟨rangeTok, iff_of_false (hfails _) fun hends => hnot hends.1⟩
    · refine ⟨tok, ?_⟩
      rw [Survives, hrest, ← Survives, survives_lastquote, and_iff_right hend]
  · have hinput := hloop []
    rw [List.append_nil, upTo_of_notMem hclose] at hinput
    rw [upTo_of_notMem hclose] at hfits
    obtain ⟨tok, rfl, -⟩ := hp
    rw [Survives, hinput, ExtrspField.Fits, if_neg (by simpa using hclose), upTo_of_notMem hclose,
      behind_of_notMem hclose, behind_of_notMem List.not_mem_nil]
    exact ⟨rangeTok, iff_of_true ⟨_, rfl⟩ ⟨hfits, survives_idle_nil _⟩⟩

theorem survives_number (hc : isdigit c = true) (input : List Byte) :
    ∃ tok, (idle done []).Survives (c :: input) ↔
      (ExtrspField.numeric (c :: upTo COMMA input)).Fits ∧
        (idle (done ++ [tok]) []).Survives (behind COMMA input) := by
  have hstep : (idle done []).step c = .ok (within .tokenNumeric done numericTok [c]) := by
    rw [step_digit [] hc, store_within hroom]
    rfl
  have hone : [c].length ≤ EXTRSP_BUF_SIZE := by simp [EXTRSP_BUF_SIZE]
  have hlength : (c :: upTo COMMA input).filter isdigit =
      [c] ++ (upTo COMMA input).filter isdigit := List.filter_cons_of_pos hc
  rw [survives_of_ok hstep]
  set run := [c] ++ (upTo COMMA input).filter isdigit with hrun
  have hrunLength : run.length = [c].length + ((upTo COMMA input).filter isdigit).length := by
    rw [hrun, List.length_append]
  refine ⟨{ numericTok with numeric := numberOf run }, ?_⟩
  rw [ExtrspField.Fits, hlength]
  by_cases hcomma : COMMA ∈ input
  · have hloop := loop_numeric done numericTok (notMem_upTo COMMA input) hone
      (COMMA :: behind COMMA input)
    rw [upTo_append_behind hcomma, ← hrun, ← hrunLength] at hloop
    rw [Survives, hloop]
    by_cases hbuf : run.length < EXTRSP_BUF_SIZE
    · have hend : (within .tokenNumeric done numericTok run).step COMMA =
          .ok (idle (done ++ [{ numericTok with numeric := numberOf run }]) run) := by
        change ((within .tokenNumeric done numericTok run).number >>= fun numeric => _) = _
        rw [number_within hbuf, ok_bind, store_within hroom]
        rfl
      rw [if_pos hbuf.le, loop_cons_of_ok hend, loop_idle_buf, and_iff_right hbuf, Survives]
    · refine iff_of_false (fun hsurvives => ?_) fun hfits => hbuf hfits.1
      obtain ⟨er, her⟩ := hsurvives
      have hend : (within .tokenNumeric done numericTok run).step COMMA =
          .error .unterminated := by
        change ((within .tokenNumeric done numericTok run).number >>= fun numeric => _) = _
        rw [number_full .tokenNumeric done numericTok hbuf, error_bind]
      split at her
      · rw [loop_cons_of_error hend] at her
        cases her
      · cases her
  · have hloop := loop_numeric done numericTok hcomma hone []
    rw [upTo_of_notMem hcomma] at hrun hrunLength
    rw [List.append_nil, ← hrun, ← hrunLength] at hloop
    rw [Survives, hloop, behind_of_notMem hcomma]
    by_cases hbuf : run.length < EXTRSP_BUF_SIZE
    · rw [if_pos hbuf.le, loop, if_pos (by rfl), number_within hbuf, ok_bind, store_within hroom]
      exact iff_of_true ⟨_, rfl⟩ ⟨hbuf, survives_idle_nil _⟩
    · refine iff_of_false (fun hsurvives => ?_) fun hfits => hbuf hfits.1
      obtain ⟨er, her⟩ := hsurvives
      split at her
      · rw [loop, if_pos (by rfl), number_full .tokenNumeric done numericTok hbuf] at her
        cases her
      · cases her

end Survival

theorem length_next (done : List GsmExtrspTok) (tok : GsmExtrspTok) :
    (done ++ [tok]).length = done.length + 1 := by
  rw [List.length_append, List.length_singleton]

theorem survives_idle (input : List Byte) {done : List GsmExtrspTok}
    (hdone : done.length ≤ GSM_EXTRSP_MAX_TOKENS) :
    (idle done []).Survives input ↔
      done.length + (fields input).length ≤ GSM_EXTRSP_MAX_TOKENS ∧
        ∀ field ∈ fields input, field.Fits := by
  induction input using fields.induct generalizing done with
  | case1 =>
    rw [fields]
    exact iff_of_true (survives_idle_nil _) ⟨hdone, fun field hfield => by cases hfield⟩
  | case2 input ih =>
    rw [fields, if_pos rfl, List.length_cons, List.forall_mem_cons]
    by_cases hroom : done.length < GSM_EXTRSP_MAX_TOKENS
    · have hstep : (idle done []).step QUOTE = .ok (within .tokenString done stringTok []) := by
        rw [step_quote, store_within hroom]
        rfl
      rw [survives_of_ok hstep, survives_string hroom, ih (by rwa [length_next]), length_next,
        Nat.add_assoc, Nat.add_comm 1, and_left_comm]
    · have hstep : (idle done []).step QUOTE = .error .token := by
        rw [step_quote, store_full hroom, error_bind]
      exact iff_of_false (not_survives_of_error hstep _) fun h => by omega
  | case3 input hquote ih =>
    rw [fields, if_neg hquote, if_pos rfl, List.length_cons, List.forall_mem_cons]
    by_cases hroom : done.length < GSM_EXTRSP_MAX_TOKENS
    · have hstep : (idle done []).step OPEN = .ok (within .tokenRange done rangeTok []) := by
        rw [step_open, store_within hroom]
        rfl
      obtain ⟨tok, hrange⟩ := survives_range hroom input
      rw [survives_of_ok hstep, hrange, ih (by rwa [length_next]), length_next, Nat.add_assoc,
        Nat.add_comm 1, and_left_comm]
    · have hstep : (idle done []).step OPEN = .error .token := by
        rw [step_open, store_full hroom, error_bind]
      exact iff_of_false (not_survives_of_error hstep _) fun h => by omega
  | case4 c input hquote hopen hdigit ih =>
    rw [fields, if_neg hquote, if_neg hopen, if_pos hdigit, List.length_cons, List.forall_mem_cons]
    by_cases hroom : done.length < GSM_EXTRSP_MAX_TOKENS
    · obtain ⟨tok, hnumber⟩ := survives_number hroom hdigit input
      rw [hnumber, ih (by rwa [length_next]), length_next, Nat.add_assoc, Nat.add_comm 1,
        and_left_comm]
    · have hstep : (idle done []).step c = .error .token := by
        rw [step_digit [] hdigit, store_full hroom, error_bind]
      exact iff_of_false (not_survives_of_error hstep _) fun h => by omega
  | case5 input hquote hopen hdigit ih =>
    rw [fields, if_neg hquote, if_neg hopen, if_neg hdigit, if_pos rfl, List.length_cons,
      List.forall_mem_cons]
    by_cases hroom : done.length < GSM_EXTRSP_MAX_TOKENS
    · have hstep : (idle done []).step COMMA = .ok (idle (done ++ [emptyTok]) []) := by
        rw [step_comma, store_within hroom]
        rfl
      rw [survives_of_ok hstep, ih (by rwa [length_next]), length_next, Nat.add_assoc,
        Nat.add_comm 1, and_iff_right (show ExtrspField.Fits .empty from trivial)]
    · have hstep : (idle done []).step COMMA = .error .token := by
        rw [step_comma, store_full hroom, error_bind]
      exact iff_of_false (not_survives_of_error hstep _) fun h => by omega
  | case6 c input hquote hopen hdigit hcomma ih =>
    rw [fields, if_neg hquote, if_neg hopen, if_neg hdigit, if_neg hcomma,
      survives_of_ok (step_skip [] hquote hopen (by simpa using hdigit) hcomma), ih hdone]

end ExtrspParser

/-! ### The limits of the response -/

structure GsmExtrspTok.Bounded (tok : GsmExtrspTok) : Prop where
  items : tok.numItems ≤ GSM_EXTRSP_MAX_RANGES
  string : tok.string.length < GSM_EXTRSP_MAX_STRBUF

structure GsmExtrsp.Bounded (er : GsmExtrsp) : Prop where
  count : er.numTokens ≤ GSM_EXTRSP_MAX_TOKENS
  tokens : ∀ tok ∈ er.tokens, tok.Bounded
  next : er.nextToken.Bounded

theorem GsmExtrspTok.zero_bounded : GsmExtrspTok.zero.Bounded := ⟨by decide, by decide⟩

namespace ExtrspParser

theorem store_bounded {p p' : ExtrspParser} {tok : GsmExtrspTok} (hstore : p.store tok = .ok p')
    (hp : p.er.Bounded) (htok : tok.Bounded) :
    p'.er.Bounded ∧ p'.er.numTokens < GSM_EXTRSP_MAX_TOKENS ∧ p'.er.nextToken = tok := by
  rw [store] at hstore
  split at hstore
  next hroom =>
    obtain rfl := Except.ok.inj hstore
    exact ⟨⟨hp.count, hp.tokens, htok⟩, hroom, rfl⟩
  next => cases hstore

theorem complete_bounded {p : ExtrspParser} (hp : p.er.Bounded)
    (hroom : p.er.numTokens < GSM_EXTRSP_MAX_TOKENS) : p.complete.er.Bounded := by
  refine ⟨?_, ?_, GsmExtrspTok.zero_bounded⟩
  · exact (length_next _ _).trans_le hroom
  · intro tok htok
    rcases List.mem_append.mp htok with hdone | hlast
    · exact hp.tokens tok hdone
    · rw [List.mem_singleton.mp hlast]
      exact hp.next

theorem append_er {p p' : ExtrspParser} (happend : p.append c = .ok p') : p'.er = p.er := by
  rw [append] at happend
  split at happend
  next =>
    obtain rfl := Except.ok.inj happend
    rfl
  next => cases happend

theorem storeItem_bounded {p p' : ExtrspParser} {item : GsmExtrspRangeItem}
    (hstore : p.storeItem item = .ok p') (hp : p.er.Bounded) :
    p'.er.Bounded ∧ p'.er.numTokens < GSM_EXTRSP_MAX_TOKENS ∧
      p'.er.nextToken.numItems < GSM_EXTRSP_MAX_RANGES := by
  rw [storeItem] at hstore
  split at hstore
  next hfree =>
    obtain ⟨hp', hroom, hnext⟩ := store_bounded hstore hp ⟨hp.next.items, hp.next.string⟩
    exact ⟨hp', hroom, by rw [hnext]; exact hfree⟩
  next => cases hstore

theorem endItem_bounded {p p' : ExtrspParser} (hend : p.endItem = .ok p') (hp : p.er.Bounded) :
    p'.er.Bounded ∧ p'.er.numTokens < GSM_EXTRSP_MAX_TOKENS := by
  rw [endItem] at hend
  obtain ⟨max, -, hend⟩ := except_bind_eq_ok_iff.mp hend
  obtain ⟨q, hitem, hend⟩ := except_bind_eq_ok_iff.mp hend
  obtain ⟨hq, -, hfree⟩ := storeItem_bounded hitem hp
  obtain ⟨hp', hroom, -⟩ := store_bounded hend hq
    ⟨List.length_append.trans_le (Nat.succ_le_of_lt hfree), hq.next.string⟩
  exact ⟨hp', hroom⟩

theorem step_bounded {p p' : ExtrspParser} (hstep : p.step c = .ok p')
    (hp : p.er.Bounded) : p'.er.Bounded := by
  unfold step at hstep
  split at hstep
  next hidle =>
    split_ifs at hstep with hblank hquote hopen hdigit hcomma
    · obtain rfl := Except.ok.inj hstep
      exact hp
    · obtain ⟨q, hstore, hstep⟩ := except_bind_eq_ok_iff.mp hstep
      obtain rfl := Except.ok.inj hstep
      exact (store_bounded hstore hp ⟨hp.next.items, hp.next.string⟩).1
    · obtain ⟨q, hstore, hstep⟩ := except_bind_eq_ok_iff.mp hstep
      obtain rfl := Except.ok.inj hstep
      exact (store_bounded hstore hp ⟨hp.next.items, hp.next.string⟩).1
    · obtain ⟨q, hstore, hstep⟩ := except_bind_eq_ok_iff.mp hstep
      obtain ⟨r, happend, hstep⟩ := except_bind_eq_ok_iff.mp hstep
      obtain rfl := Except.ok.inj hstep
      have hr := (store_bounded hstore hp ⟨hp.next.items, hp.next.string⟩).1
      rwa [← append_er happend] at hr
    · obtain ⟨q, hstore, hstep⟩ := except_bind_eq_ok_iff.mp hstep
      obtain rfl := Except.ok.inj hstep
      obtain ⟨hq, hroom, -⟩ := store_bounded hstore hp ⟨hp.next.items, hp.next.string⟩
      exact complete_bounded hq hroom
    · obtain rfl := Except.ok.inj hstep
      exact hp
  next hnumeric =>
    split_ifs at hstep with hcomma hdigit
    · obtain ⟨numeric, -, hstep⟩ := except_bind_eq_ok_iff.mp hstep
      obtain ⟨q, hstore, hstep⟩ := except_bind_eq_ok_iff.mp hstep
      obtain rfl := Except.ok.inj hstep
      obtain ⟨hq, hroom, -⟩ := store_bounded hstore hp ⟨hp.next.items, hp.next.string⟩
      exact complete_bounded hq hroom
    · rwa [append_er hstep]
    · obtain rfl := Except.ok.inj hstep
      exact hp
  next hstring =>
    split_ifs at hstep with hquote
    · obtain ⟨text, -, hstep⟩ := except_bind_eq_ok_iff.mp hstep
      obtain ⟨q, hstore, hstep⟩ := except_bind_eq_ok_iff.mp hstep
      obtain rfl := Except.ok.inj hstep
      have hshort : (text.take (GSM_EXTRSP_MAX_STRBUF - 1)).length < GSM_EXTRSP_MAX_STRBUF := by
        rw [List.length_take, GSM_EXTRSP_MAX_STRBUF]
        omega
      obtain ⟨hq, hroom, -⟩ := store_bounded hstore hp ⟨hp.next.items, hshort⟩
      exact complete_bounded hq hroom
    · rwa [append_er hstep]
  next hlast =>
    split_ifs at hstep with hcomma
    · obtain rfl := Except.ok.inj hstep
      exact hp
    · obtain rfl := Except.ok.inj hstep
      exact hp
  next hrange =>
    split_ifs at hstep with hdigit hdash hcomma hclose
    · rwa [append_er hstep]
    · obtain ⟨min, -, hstep⟩ := except_bind_eq_ok_iff.mp hstep
      obtain ⟨q, hstore, hstep⟩ := except_bind_eq_ok_iff.mp hstep
      obtain rfl := Except.ok.inj hstep
      exact (storeItem_bounded hstore hp).1
    · exact (endItem_bounded hstep hp).1
    · obtain ⟨q, hend, hstep⟩ := except_bind_eq_ok_iff.mp hstep
      obtain rfl := Except.ok.inj hstep
      obtain ⟨hq, hroom⟩ := endItem_bounded hend hp
      exact complete_bounded hq hroom
    · obtain rfl := Except.ok.inj hstep
      exact hp

theorem loop_bounded {p : ExtrspParser} {er : GsmExtrsp}
    (hloop : p.loop input = .ok er) (hp : p.er.Bounded) : er.Bounded := by
  induction input generalizing p with
  | nil =>
    rw [loop] at hloop
    split at hloop
    next hnumeric =>
      obtain ⟨numeric, -, hloop⟩ := except_bind_eq_ok_iff.mp hloop
      obtain ⟨q, hstore, hloop⟩ := except_bind_eq_ok_iff.mp hloop
      obtain rfl := Except.ok.inj hloop
      obtain ⟨hq, hroom, -⟩ := store_bounded hstore hp ⟨hp.next.items, hp.next.string⟩
      exact complete_bounded hq hroom
    next =>
      obtain rfl := Except.ok.inj hloop
      exact hp
  | cons c input ih =>
    rw [loop_cons] at hloop
    obtain ⟨q, hstep, hloop⟩ := except_bind_eq_ok_iff.mp hloop
    exact ih hloop (step_bounded hstep hp)

end ExtrspParser

/-- Nothing is stored outside of the response and of `buf`, the response keeps its limits, and an
input with a string that is longer than its token is rejected. -/
structure ExtrspContained (input : List Byte) : Prop where
  inside : ∀ fault, extrspParse input ≠ .error fault
  bounded : ∀ er, extrspParse input = .ok (some er) → er.Bounded
  rejected : (∃ field ∈ fields input, field.TooLong) → extrspParse input = .ok none

/-- **What the parser survives.** It stays inside its arrays on exactly the responses that have at
most so many fields as there are tokens, every field within `buf` and the items, and no string that
would be cut. -/
theorem extrspContained_iff (input : List Byte) :
    ExtrspContained input ↔
      (fields input).length ≤ GSM_EXTRSP_MAX_TOKENS ∧
        ∀ field ∈ fields input, field.Fits ∧ ¬field.TooLong := by
  have hnone : ([] : List GsmExtrspTok).length ≤ GSM_EXTRSP_MAX_TOKENS := Nat.zero_le _
  have hsurvives := survives_idle input hnone
  rw [List.length_nil, Nat.zero_add, ← init_eq] at hsurvives
  have hempty : extrspParse input = .ok none → fields input = [] := by
    intro hnone
    rw [extrspParse] at hnone
    split at hnone
    next hnil => rw [hnil, fields]
    next =>
      obtain ⟨er, -, her⟩ := except_bind_eq_ok_iff.mp hnone
      cases her
  constructor
  · rintro ⟨hinside, -, hrejected⟩
    have hlimits : init.Survives input := by
      cases hparse : extrspParse input with
      | error fault => exact absurd hparse (hinside fault)
      | ok er =>
        by_cases hnil : input = []
        · rw [hnil]
          exact survives_idle_nil _
        · rw [extrspParse, if_neg hnil] at hparse
          obtain ⟨er', hloop, -⟩ := except_bind_eq_ok_iff.mp hparse
          exact ⟨er', hloop⟩
    obtain ⟨hcount, hfits⟩ := hsurvives.mp hlimits
    refine ⟨hcount, fun field hfield => ⟨hfits field hfield, fun hlong => ?_⟩⟩
    rw [hempty (hrejected ⟨field, hfield, hlong⟩)] at hfield
    cases hfield
  · rintro ⟨hcount, hfields⟩
    obtain ⟨er, hloop⟩ := hsurvives.mpr ⟨hcount, fun field hfield => (hfields field hfield).1⟩
    have hbounded : er.Bounded := loop_bounded hloop
      ⟨Nat.zero_le _, List.forall_mem_nil _, GsmExtrspTok.zero_bounded⟩
    refine ⟨fun fault hfault => ?_, fun er' hparse => ?_, ?_⟩
    · rw [extrspParse] at hfault
      split at hfault
      · cases hfault
      · rw [hloop] at hfault
        cases hfault
    · rw [extrspParse] at hparse
      split at hparse
      · cases hparse
      · rw [hloop] at hparse
        obtain rfl := Option.some.inj (Except.ok.inj hparse)
        exact hbounded
    · rintro ⟨field, hfield, hlong⟩
      exact absurd hlong (hfields field hfield).2

/-- Seventeen empty fields: the last one is stored behind the tokens. -/
theorem seventeenCommas_fault :
    extrspParse (List.replicate 17 COMMA) = .error .token ∧
      ¬ExtrspContained (List.replicate 17 COMMA) :=
  ⟨rfl, fun hcontained => hcontained.inside .token rfl⟩

end Openmoko.Gsmd
