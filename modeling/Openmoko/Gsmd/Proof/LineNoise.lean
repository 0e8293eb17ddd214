import Mathlib.Data.List.Chain
import Openmoko.Gsmd.Proof.LineFraming

/-!
# The AT parser on any bytes

A run of the parser byte by byte: the bytes that reach `llparse_byte`, each with the state it
arrives in. What goes wrong in a run is said of these steps. In `RESULT_CR` every byte but LF makes
`llparse_string` deliver the line once more; in `IDLE_CR` every byte but CR and LF leads into
`ERROR`, which nothing leaves.
-/

namespace Openmoko.Gsmd

/-! ### Runs -/

structure LlpStep where
  llp : Llparser
  byte : Byte
  deriving DecidableEq, Repr

def LlpStep.next (step : LlpStep) : Llparser := (llparseByte step.llp step.byte).1

def llparseTaken (llp : Llparser) : List Byte → List Byte
  | [] => []
  | byte :: buf =>
    byte :: if (llparseByte llp byte).2 < 0 then [] else llparseTaken (llparseByte llp byte).1 buf

def llparseReadsTaken (llp : Llparser) : List (List Byte) → List Byte
  | [] => []
  | chunk :: chunks =>
    llparseTaken llp chunk ++ llparseReadsTaken (llparseString llp chunk).1 chunks

def llparseRun (llp : Llparser) (bytes : List Byte) : Llparser :=
  bytes.foldl (fun llp byte => (llparseByte llp byte).1) llp

def llparseSteps (llp : Llparser) : List Byte → List LlpStep
  | [] => []
  | byte :: bytes => ⟨llp, byte⟩ :: llparseSteps (llparseByte llp byte).1 bytes

theorem llparseSteps_append (llp : Llparser) (a b : List Byte) :
    llparseSteps llp (a ++ b) = llparseSteps llp a ++ llparseSteps (llparseRun llp a) b := by
  induction a generalizing llp with
  | nil => rfl
  | cons byte a ih => simp [llparseSteps, llparseRun, ih]

theorem llparseAppend_state (llp : Llparser) (byte : Byte) :
    (llparseAppend llp byte).1.state = llp.state := by
  unfold llparseAppend
  split <;> rfl

theorem llparseAppend_frame (llp : Llparser) (byte : Byte) :
    (llparseAppend llp byte).1.len = llp.len ∧ (llparseAppend llp byte).1.flags = llp.flags := by
  unfold llparseAppend
  split <;> exact ⟨rfl, rfl⟩

theorem llparseByte_frame (llp : Llparser) (byte : Byte) :
    (llparseByte llp byte).1.len = llp.len ∧ (llparseByte llp byte).1.flags = llp.flags := by
  have hturn := llparseByte_turn llp byte
  generalize llparseByte llp byte = turn at hturn ⊢
  cases hturn with
  | moved hmove => exact ⟨rfl, rfl⟩
  | ignored hstate => exact ⟨rfl, rfl⟩
  | stored hstate => exact llparseAppend_frame _ _
  | behindGt hstate hspc => simp [llparseAppend_frame]
  | endline hstate => exact ⟨rfl, rfl⟩

theorem llparseAppend_length_le (llp : Llparser) (hfits : llp.buf.length ≤ llp.len) (byte : Byte) :
    (llparseAppend llp byte).1.buf.length ≤ llp.len := by
  unfold llparseAppend
  split
  next hroom =>
    rw [List.length_append]
    exact hroom
  next => exact hfits

variable {llp : Llparser} {byte : Byte}

theorem llparseByte_length_le (hfits : llp.buf.length ≤ llp.len) (byte : Byte) :
    (llparseByte llp byte).1.buf.length ≤ llp.len := by
  have hturn := llparseByte_turn llp byte
  generalize llparseByte llp byte = turn at hturn ⊢
  cases hturn with
  | moved hmove => exact hfits
  | ignored hstate => exact hfits
  | stored hstate => exact llparseAppend_length_le { llp with state := .result } hfits byte
  | behindGt hstate hspc =>
    have hlen := (llparseAppend_frame llp CH_GT).1
    have hfirst := llparseAppend_length_le llp hfits CH_GT
    exact (llparseAppend_length_le _ (hlen ▸ hfirst) byte).trans_eq hlen
  | endline hstate => exact Nat.zero_le _

theorem llparseByte_resultCr (hnext : (llparseByte llp byte).1.state = .resultCr) :
    llp.state = .resultCr ∧ byte ≠ LF ∨
      (llp.state = .idleLf ∨ llp.state = .result) ∧ byte = CR := by
  have hturn := llparseByte_turn llp byte
  generalize llparseByte llp byte = turn at hturn hnext
  cases hturn with
  | moved hmove =>
    obtain rfl : _ = LlparseState.resultCr := hnext
    cases hmove with
    | ended hstate hbyte => exact .inr ⟨hstate, hbyte⟩
  | ignored hstate =>
    dsimp only at hnext
    rw [hnext] at hstate
    exact .inl ⟨hnext, by simpa using hstate⟩
  | stored hstate =>
    rw [llparseAppend_state] at hnext
    cases hnext
  | behindGt hstate hspc => cases hnext
  | endline hstate => cases hnext

theorem llparseByte_delivers (hnext : (llparseByte llp byte).1.state = .resultCr) :
    (llparseByte llp byte).1.buf = llp.buf := by
  have hturn := llparseByte_turn llp byte
  generalize llparseByte llp byte = turn at hturn hnext ⊢
  cases hturn with
  | moved hmove => rfl
  | ignored hstate => rfl
  | stored hstate =>
    rw [llparseAppend_state] at hnext
    cases hnext
  | behindGt hstate hspc => cases hnext
  | endline hstate => cases hnext

theorem llparseByte_fails (hrc : (llparseByte llp byte).2 < 0) :
    (llparseByte llp byte).1.state = .result := by
  have hturn := llparseByte_turn llp byte
  generalize llparseByte llp byte = turn at hturn hrc ⊢
  cases hturn with
  | moved hmove => exact absurd hrc (Int.lt_irrefl 0)
  | ignored hstate => exact absurd hrc (Int.lt_irrefl 0)
  | stored hstate => exact llparseAppend_state _ byte
  | behindGt hstate hspc => rfl
  | endline hstate => exact absurd hrc (Int.lt_irrefl 0)

theorem llparseCalls_fails (hrc : (llparseByte llp byte).2 < 0) :
    llparseCalls (llparseByte llp byte).1 = [] := by
  simp [llparseCalls, llparseByte_fails hrc]

theorem llparseString_eq_run (llp : Llparser) (buf : List Byte) :
    (llparseString llp buf).1 = llparseRun llp (llparseTaken llp buf) ∧
      (llparseString llp buf).2.2 =
        (llparseSteps llp (llparseTaken llp buf)).flatMap fun step => llparseCalls step.next := by
  induction buf generalizing llp with
  | nil => exact ⟨rfl, rfl⟩
  | cons byte buf ih =>
    by_cases hrc : (llparseByte llp byte).2 < 0
    · simp [llparseString, llparseTaken, llparseRun, llparseSteps, LlpStep.next, hrc,
        llparseCalls_fails hrc]
    · obtain ⟨hstate, hcalls⟩ := ih (llparseByte llp byte).1
      simp [llparseString, llparseTaken, llparseSteps, LlpStep.next, hrc, hstate, hcalls]
      rfl

theorem llparseReads_eq_run (llp : Llparser) (chunks : List (List Byte)) :
    (llparseReads llp chunks).1 = llparseRun llp (llparseReadsTaken llp chunks) ∧
      (llparseReads llp chunks).2.2 =
        (llparseSteps llp (llparseReadsTaken llp chunks)).flatMap
          fun step => llparseCalls step.next := by
  induction chunks generalizing llp with
  | nil => exact ⟨rfl, rfl⟩
  | cons chunk chunks ih =>
    obtain ⟨hstate, hcalls⟩ := llparseString_eq_run llp chunk
    obtain ⟨hstate', hcalls'⟩ := ih (llparseString llp chunk).1
    constructor
    · calc
        (llparseReads (llparseString llp chunk).1 chunks).1
            = llparseRun (llparseString llp chunk).1
                (llparseReadsTaken (llparseString llp chunk).1 chunks) := hstate'
        _ = llparseRun llp (llparseReadsTaken llp (chunk :: chunks)) := by
              simp only [llparseReadsTaken, llparseRun, List.foldl_append]
              rw [hstate]
              rfl
    · simp only [llparseReadsTaken, llparseSteps_append, List.flatMap_append, ← hstate]
      rw [← hcalls, ← hcalls']
      rfl

/-! ### One delivery for each line -/

inductive LlpEvent where
  | ignored (byte : Byte)
  | endline
  | call (call : LlpCall)
  deriving DecidableEq, Repr

namespace LlpEvent

def isDelivery : LlpEvent → Bool
  | .call (.cb _) => true
  | _ => false

def toCall : LlpEvent → Option LlpCall
  | .call c => some c
  | _ => none

end LlpEvent

namespace LlpStep

def ignored (step : LlpStep) : Bool := llparseByte step.llp step.byte == (step.llp, 0)

def endline (step : LlpStep) : Bool :=
  (step.llp.state == .resultCr && step.byte == LF) ||
    (step.llp.state == .resultLf && step.byte == CR)

def events (step : LlpStep) : List LlpEvent :=
  (if step.ignored then [.ignored step.byte] else []) ++ (if step.endline then [.endline] else []) ++
    (llparseCalls step.next).map .call

theorem next_of_endline {step : LlpStep} (hend : step.endline = true) :
    step.next = llparseEndline step.llp := by
  simp only [endline, Bool.or_eq_true, Bool.and_eq_true, beq_iff_eq] at hend
  rcases hend with ⟨hstate, hbyte⟩ | ⟨hstate, hbyte⟩ <;>
    simp [next, llparseByte, hstate, hbyte]

theorem events_toCall (step : LlpStep) :
    step.events.filterMap LlpEvent.toCall = llparseCalls step.next := by
  have hcalls : ∀ calls : List LlpCall,
      (calls.map LlpEvent.call).filterMap LlpEvent.toCall = calls := by
    intro calls
    induction calls with
    | nil => rfl
    | cons call calls ih => simp [LlpEvent.toCall, ih]
  unfold events
  cases step.ignored <;> cases step.endline <;>
    simp [List.filterMap_cons, LlpEvent.toCall, hcalls]

end LlpStep

def llparseEvents (llp : Llparser) (chunks : List (List Byte)) : List LlpEvent :=
  (llparseSteps llp (llparseReadsTaken llp chunks)).flatMap LlpStep.events

theorem llparseEvents_toCall (llp : Llparser) (chunks : List (List Byte)) :
    (llparseEvents llp chunks).filterMap LlpEvent.toCall = (llparseReads llp chunks).2.2 := by
  rw [(llparseReads_eq_run llp chunks).2, llparseEvents, List.filterMap_flatMap]
  exact congrArg₂ _ (funext LlpStep.events_toCall) rfl

/-- In a stretch of the run without a reset there is at most one delivery, and no byte after it
goes by unnoticed. -/
def OneDeliveryPerLine (events : List LlpEvent) : Prop :=
  ∀ line, line <:+: events → .endline ∉ line →
    line.countP LlpEvent.isDelivery ≤ 1 ∧
      ∀ before buf after, line = before ++ .call (.cb buf) :: after →
        ∀ byte, .ignored byte ∉ after

namespace LlpStep

def straysAfterCr (step : LlpStep) : Prop := step.llp.state = .resultCr ∧ step.byte ≠ LF

theorem events_of_stray {step : LlpStep} (hstray : step.straysAfterCr) :
    step.events = [.ignored step.byte, .call (.cb step.llp.buf)] := by
  obtain ⟨hstate, hbyte⟩ := hstray
  simp [events, ignored, endline, next, llparseByte, llparseCalls, hstate, hbyte]

theorem not_ignored {step : LlpStep} (hstate : step.next.state ≠ step.llp.state) :
    step.ignored = false := by
  by_contra hignored
  simp only [ignored, Bool.not_eq_false, beq_iff_eq] at hignored
  exact hstate (by rw [next, hignored])

theorem events_of_lf {step : LlpStep} (hstate : step.llp.state = .resultCr)
    (hbyte : step.byte = LF) : step.events = [.endline] := by
  have hend : step.endline = true := by simp [endline, hstate, hbyte]
  have hnext : step.next.state = .idle := by rw [next_of_endline hend]; rfl
  have hignored : step.ignored = false := not_ignored (by simp [hnext, hstate])
  simp [events, hignored, hend, llparseCalls, hnext]

theorem events_of_delivery {step : LlpStep} (hstate : step.llp.state ≠ .resultCr)
    (hnext : step.next.state = .resultCr) : step.events = [.call (.cb step.next.buf)] := by
  have hignored : step.ignored = false := not_ignored (by rw [hnext]; exact hstate.symm)
  have hend : step.endline = false := by
    by_contra hend
    rw [next_of_endline (Bool.not_eq_false _ ▸ hend)] at hnext
    exact absurd hnext (by simp [llparseEndline])
  simp [events, hignored, hend, llparseCalls, hnext]

theorem events_quiet {step : LlpStep} (hnext : step.next.state ≠ .resultCr) :
    ∀ event ∈ step.events, event.isDelivery = false := by
  intro event hevent
  simp only [events, llparseCalls, hnext, if_false, List.nil_append, List.mem_append] at hevent
  rcases hevent with (hevent | hevent) | hevent <;> split at hevent <;>
    simp_all [LlpEvent.isDelivery]

end LlpStep

def ResetFollows (event next : LlpEvent) : Prop := event.isDelivery = true → next = .endline

theorem resetFollows_of_quiet {events : List LlpEvent}
    (hquiet : ∀ event ∈ events, event.isDelivery = false) : events.IsChain ResetFollows := by
  refine List.Pairwise.isChain (List.pairwise_of_forall_mem_list ?_)
  intro event hevent next _ hdelivery
  simp [hquiet event hevent] at hdelivery

theorem llparseSteps_chain (llp : Llparser) (bytes : List Byte)
    (hlf : ∀ step ∈ llparseSteps llp bytes, ¬step.straysAfterCr) :
    ((llparseSteps llp bytes).flatMap LlpStep.events).IsChain ResetFollows ∧
      (llp.state = .resultCr →
        ∀ event ∈ ((llparseSteps llp bytes).flatMap LlpStep.events).head?, event = .endline) := by
  induction bytes generalizing llp with
  | nil => simp [llparseSteps]
  | cons byte bytes ih =>
    obtain ⟨hchain, hhead⟩ := ih (llparseByte llp byte).1
      (fun step hstep => hlf step (List.mem_cons_of_mem _ hstep))
    have hfirst := hlf ⟨llp, byte⟩ List.mem_cons_self
    simp only [llparseSteps, List.flatMap_cons]
    by_cases hstate : llp.state = .resultCr
    · have hbyte : byte = LF := by
        by_contra hne
        exact hfirst ⟨hstate, hne⟩
      have hevents : (LlpStep.mk llp byte).events = [.endline] :=
        LlpStep.events_of_lf hstate hbyte
      rw [hevents]
      refine ⟨List.isChain_append.mpr ⟨List.isChain_singleton _, hchain, ?_⟩, by simp⟩
      intro event hevent next _ hdelivery
      simp only [List.getLast?_singleton, Option.mem_some_iff] at hevent
      simp [← hevent, LlpEvent.isDelivery] at hdelivery
    · refine ⟨List.isChain_append.mpr ?_, fun h => absurd h hstate⟩
      by_cases hnext : (llparseByte llp byte).1.state = .resultCr
      · have hevents : (LlpStep.mk llp byte).events = [.call (.cb _)] :=
          LlpStep.events_of_delivery hstate hnext
        rw [hevents]
        exact ⟨List.isChain_singleton _, hchain, fun _ _ event hevent _ => hhead hnext event hevent⟩
      · have hquiet : ∀ event ∈ (LlpStep.mk llp byte).events, event.isDelivery = false :=
          LlpStep.events_quiet hnext
        refine ⟨resetFollows_of_quiet hquiet, hchain, fun event hevent _ _ hdelivery => ?_⟩
        simp [hquiet event (List.mem_of_getLast? hevent)] at hdelivery

theorem oneDelivery_of_chain {events : List LlpEvent} (hchain : events.IsChain ResetFollows) :
    OneDeliveryPerLine events := by
  intro line hline hreset
  replace hchain : line.IsChain ResetFollows := hchain.infix hline
  clear hline
  have hlast : ∀ before event after, line = before ++ event :: after →
      event.isDelivery = true → after = [] := by
    rintro before event (_ | ⟨next, after⟩) rfl hdelivery
    · rfl
    · have hnext := (List.isChain_split.mp hchain).2.rel_head? rfl hdelivery
      exact absurd (by simp [hnext]) hreset
  refine ⟨?_, fun before buf after heq byte hmem => ?_⟩
  · induction line with
    | nil => simp
    | cons event line ih =>
      cases hdelivery : event.isDelivery with
      | true => simp [hlast [] event line rfl hdelivery, hdelivery]
      | false =>
        rw [List.countP_cons_of_neg (by simp [hdelivery])]
        refine ih (fun h => hreset (List.mem_cons_of_mem _ h)) hchain.tail ?_
        intro before d after heq
        exact hlast (event :: before) d after (by rw [heq]; rfl)
  · rw [hlast before _ after heq rfl] at hmem
    exact absurd hmem (by simp)

theorem redelivered_of_stray (llp : Llparser) (bytes : List Byte)
    (hstray : ∃ step ∈ llparseSteps llp bytes, step.straysAfterCr) :
    (llp.state = .resultCr ∧ ∃ byte buf,
        [.ignored byte, .call (.cb buf)] <+: (llparseSteps llp bytes).flatMap LlpStep.events) ∨
      ∃ buf byte buf', [.call (.cb buf), .ignored byte, .call (.cb buf')] <:+:
        (llparseSteps llp bytes).flatMap LlpStep.events := by
  induction bytes generalizing llp with
  | nil => simp [llparseSteps] at hstray
  | cons byte bytes ih =>
    simp only [llparseSteps, List.flatMap_cons, List.mem_cons, exists_eq_or_imp] at hstray ⊢
    by_cases hfirst : LlpStep.straysAfterCr ⟨llp, byte⟩
    · rw [LlpStep.events_of_stray hfirst]
      exact .inl ⟨hfirst.1, byte, llp.buf, List.prefix_append _ _⟩
    · rcases ih _ (hstray.resolve_left hfirst) with ⟨hnext, b, buf, hrest⟩ | ⟨buf, b, buf', hrest⟩
      · have hstate : llp.state ≠ .resultCr := by
          intro hstate
          have hbyte : byte = LF := by
            by_contra hne
            exact hfirst ⟨hstate, hne⟩
          simp [llparseByte, hstate, hbyte, llparseEndline] at hnext
        have hevents : (LlpStep.mk llp byte).events = [.call (.cb _)] :=
          LlpStep.events_of_delivery hstate hnext
        rw [hevents]
        exact .inr ⟨_, b, buf, (List.prefix_cons_inj _ |>.mpr hrest).isInfix⟩
      · exact .inr ⟨buf, b, buf', hrest.trans (List.suffix_append _ _).isInfix⟩

/-- **One delivery for each line.** Of any bytes in any reads, from `IDLE`: between two resets a
line is delivered at most once and nothing is lost behind it, exactly if every byte that arrives in
`RESULT_CR` is LF. -/
theorem one_delivery_iff (llp : Llparser) (chunks : List (List Byte)) :
    OneDeliveryPerLine (llparseEvents { llp with state := .idle } chunks) ↔
      ∀ step ∈ llparseSteps { llp with state := .idle }
          (llparseReadsTaken { llp with state := .idle } chunks),
        step.llp.state = .resultCr → step.byte = LF := by
  constructor
  · intro hone step hstep hstate
    by_contra hbyte
    rcases redelivered_of_stray _ _ ⟨step, hstep, hstate, hbyte⟩ with
      ⟨hidle, -⟩ | ⟨buf, byte, buf', hinfix⟩
    · cases hidle
    · have hcount := (hone _ hinfix (by simp)).1
      simp [List.countP_cons, LlpEvent.isDelivery] at hcount
  · intro hlf
    refine oneDelivery_of_chain (llparseSteps_chain _ _ fun step hstep hstray => ?_).1
    exact hstray.2 (hlf step hstep hstray.1)

/-- `A`, CR, `X` in one read: the line is delivered for the CR and once more for the `X`, which is
lost. -/
theorem delivered_twice :
    ¬OneDeliveryPerLine (llparseEvents (.init LGSM_ATCMD_F_EXTENDED) [[65, CR, 88]]) := by
  intro hone
  have hevents : llparseEvents (.init LGSM_ATCMD_F_EXTENDED) [[65, CR, 88]] =
      [.call (.cb [65]), .ignored 88, .call (.cb [65])] := by decide
  have hcount := (hone _ (List.infix_refl _) (by rw [hevents]; decide)).1
  rw [hevents] at hcount
  exact absurd hcount (by decide)

/-! ### Lines after noise -/

def promptLike (text : List Byte) : Bool := text == [CH_GT] || hasPrefix text [CH_GT, CH_SPC]

theorem promptLike_cons {first : Byte} (hgt : first ≠ CH_GT) (rest : List Byte) :
    promptLike (first :: rest) = false := by
  simp [promptLike, hasPrefix, List.isPrefixOf, hgt, Ne.symm hgt]

structure PlainLine where
  bytes : List Byte
  nonempty : bytes ≠ []
  fits : bytes.length ≤ LLPARSE_BUF_SIZE
  noCr : CR ∉ bytes
  noLf : LF ∉ bytes
  notPrompt : promptLike bytes = false

def PlainLine.wire (line : PlainLine) : List Byte := [CR, LF] ++ line.bytes ++ [CR, LF]

theorem llparseString_text (llp : Llparser)
    (hstate : llp.state = .idle ∨ llp.state = .idleLf) (hbuf : llp.buf = [])
    (hlen : llp.len = LLPARSE_BUF_SIZE) {text : List Byte} (hne : text ≠ [])
    (hfits : text.length ≤ LLPARSE_BUF_SIZE) (hcr : CR ∉ text) (hlf : LF ∉ text)
    (hprompt : llp.extended = true ∨ llp.state = .idleLf → promptLike text = false) :
    llparseString llp text = ({ llp with state := .result, buf := text }, 0, []) := by
  obtain ⟨first, rest, rfl⟩ := List.exists_cons_of_ne_nil hne
  have hfcr : first ≠ CR := fun heq => hcr (by simp [heq])
  have hroom : llp.buf.length < llp.len := by simp [hbuf, hlen, LLPARSE_BUF_SIZE]
  by_cases hgt : first = CH_GT ∧ (llp.extended = true ∨ llp.state = .idleLf)
  · obtain ⟨rfl, hasks⟩ := hgt
    have hnp := hprompt hasks
    obtain ⟨second, rest, rfl⟩ : ∃ second more, rest = second :: more := by
      cases rest with
      | nil => simp [promptLike] at hnp
      | cons second more => exact ⟨second, more, rfl⟩
    have hspc : second ≠ CH_SPC := by
      rintro rfl
      simp [promptLike, hasPrefix] at hnp
    have hfirst : llparseByte llp CH_GT = ({ llp with state := .prompt }, 0) := by
      rcases hstate with hstate | hstate
      · have hext : llp.extended = true := hasks.resolve_right (by simp [hstate])
        simp [llparseByte, hstate, hext, hfcr]
      · simp [llparseByte, hstate, hfcr]
    have hroom' : 2 ≤ llp.len := by simp [hlen, LLPARSE_BUF_SIZE]
    have hsecond : llparseByte { llp with state := .prompt } second =
        ({ llp with state := .result, buf := [CH_GT, second] }, 0) := by
      have h0 : 0 < llp.len := by omega
      have h1 : 1 < llp.len := by omega
      simp [llparseByte, hspc, llparseAppend, hbuf, h0, h1]
    have hrest := llparseString_result
      { llp with state := .result, buf := [CH_GT, second] } rfl rest
      (fun hmem => hcr (by simp [hmem])) (fun hmem => hlf (by simp [hmem]))
      (by simp [hlen] at hfits ⊢; omega)
    rw [llparseString_cons hfirst, llparseString_cons hsecond, hrest]
    simp [llparseCalls]
  · have hfirst : llparseByte llp first = ({ llp with state := .result, buf := [first] }, 0) := by
      rcases hstate with hstate | hstate
      · by_cases hext : llp.extended = true
        · have hfgt : first ≠ CH_GT := fun heq => hgt ⟨heq, .inl hext⟩
          simp [llparseByte, hstate, hext, hfcr, hfgt, llparseAppend, hbuf, hlen,
            LLPARSE_BUF_SIZE]
        · simp [llparseByte, hstate, hext, llparseAppend, hbuf, hlen, LLPARSE_BUF_SIZE]
      · have hfgt : first ≠ CH_GT := fun heq => hgt ⟨heq, .inr hstate⟩
        simp [llparseByte, hstate, hfcr, hfgt, llparseAppend, hbuf, hlen, LLPARSE_BUF_SIZE]
    have hrest := llparseString_result { llp with state := .result, buf := [first] } rfl rest
      (fun hmem => hcr (List.mem_cons_of_mem _ hmem))
      (fun hmem => hlf (List.mem_cons_of_mem _ hmem))
      (by simp [hlen] at hfits ⊢; omega)
    rw [llparseString_cons hfirst, hrest]
    simp [llparseCalls]

theorem llparseString_crlf (llp : Llparser) (hstate : llp.state = .result) :
    llparseString llp [CR, LF] = ({ llp with state := .idle, buf := [] }, 0, [.cb llp.buf]) := by
  simp [llparseString, llparseByte, hstate, llparseCalls, llparseEndline]

structure Llparser.Sound (llp : Llparser) : Prop where
  len : llp.len = LLPARSE_BUF_SIZE
  idle : llp.state = .idle ∨ llp.state = .idleCr ∨ llp.state = .idleLf ∨ llp.state = .prompt ∨
    llp.state = .promptSpc → llp.buf = []

structure Llparser.Tidy (llp : Llparser) : Prop extends llp.Sound where
  ext : llp.extended = true

theorem Llparser.sound_init (flags : Nat) : (Llparser.init flags).Sound := ⟨rfl, fun _ => rfl⟩

theorem Llparser.tidy_init (vendor : Nat) :
    (Llparser.init (LGSM_ATCMD_F_EXTENDED ||| vendor)).Tidy := by
  refine ⟨sound_init _, ?_⟩
  have hbit : (LGSM_ATCMD_F_EXTENDED ||| vendor) &&& LGSM_ATCMD_F_EXTENDED ≠ 0 := by
    rw [Nat.and_comm, Nat.and_or_distrib_left]
    have hself : LGSM_ATCMD_F_EXTENDED &&& LGSM_ATCMD_F_EXTENDED = 1 := rfl
    intro hzero
    exact absurd (Nat.or_eq_zero_iff.mp hzero).1 (by simp [hself])
  simpa [Llparser.extended, Llparser.init] using hbit

theorem Llparser.Sound.step (hsound : llp.Sound) (byte : Byte) :
    (llparseByte llp byte).1.Sound := by
  refine ⟨(llparseByte_frame llp byte).1.trans hsound.len, ?_⟩
  have hidle := hsound.idle
  have hturn := llparseByte_turn llp byte
  generalize llparseByte llp byte = turn at hturn ⊢
  cases hturn with
  | moved hmove =>
    -- a move into a state without a line comes from one
    intro hnext
    refine hidle ?_
    cases hmove with
    | blank hstate => tauto
    | blankLf hstate => tauto
    | derailed hstate => simp at hnext
    | ended hstate => simp at hnext
    | endedLf hstate => simp at hnext
    | gt hstate => tauto
    | prompted hstate => tauto
  | ignored hstate => exact hidle
  | stored hstate => simp [llparseAppend_state]
  | behindGt hstate hspc => simp
  | endline hstate => exact fun _ => rfl

theorem Llparser.Tidy.step (htidy : llp.Tidy) (byte : Byte) : (llparseByte llp byte).1.Tidy := by
  refine ⟨htidy.toSound.step byte, ?_⟩
  simpa [Llparser.extended, (llparseByte_frame llp byte).2] using htidy.ext

theorem Llparser.Sound.run (hsound : llp.Sound) (bytes : List Byte) :
    (llparseRun llp bytes).Sound := by
  induction bytes generalizing llp with
  | nil => exact hsound
  | cons byte bytes ih => exact ih (hsound.step byte)

theorem Llparser.Tidy.run (htidy : llp.Tidy) (bytes : List Byte) : (llparseRun llp bytes).Tidy := by
  induction bytes generalizing llp with
  | nil => exact htidy
  | cons byte bytes ih => exact ih (htidy.step byte)

def LlpStep.derails (step : LlpStep) : Prop :=
  step.llp.state = .idleCr ∧ step.byte ≠ CR ∧ step.byte ≠ LF

theorem llparseByte_error_iff (llp : Llparser) (byte : Byte) :
    (llparseByte llp byte).1.state = .error ↔
      llp.state = .error ∨ LlpStep.derails ⟨llp, byte⟩ := by
  constructor
  · intro hnext
    have hturn := llparseByte_turn llp byte
    generalize llparseByte llp byte = turn at hturn hnext
    cases hturn with
    | moved hmove =>
      obtain rfl : _ = LlparseState.error := hnext
      cases hmove with
      | derailed hstate hlf hcr => exact .inr ⟨hstate, hcr, hlf⟩
    | ignored hstate => exact .inl hnext
    | stored hstate =>
      rw [llparseAppend_state] at hnext
      cases hnext
    | behindGt hstate hspc => cases hnext
    | endline hstate => cases hnext
  · rintro (hstate | ⟨hstate, hcr, hlf⟩)
    · simp [llparseByte, hstate]
    · dsimp only at hstate hcr hlf
      simp [llparseByte, hstate, hcr, hlf]

theorem llparseRun_error_iff (llp : Llparser) (bytes : List Byte) :
    (llparseRun llp bytes).state = .error ↔
      llp.state = .error ∨ ∃ step ∈ llparseSteps llp bytes, step.derails := by
  induction bytes generalizing llp with
  | nil => simp [llparseRun, llparseSteps]
  | cons byte bytes ih =>
    have hrun : llparseRun llp (byte :: bytes) = llparseRun (llparseByte llp byte).1 bytes := rfl
    rw [hrun, ih, llparseByte_error_iff]
    simp [llparseSteps, or_assoc]

theorem Llparser.Tidy.of_string {llp' : Llparser} (htidy : llp.Tidy) {buf : List Byte}
    {result : Int × List LlpCall} (heq : llparseString llp buf = (llp', result)) : llp'.Tidy := by
  have hrun : llp' = llparseRun llp (llparseTaken llp buf) := by
    rw [← (llparseString_eq_run llp buf).1, heq]
  rw [hrun]
  exact htidy.run _

def Llparser.Resumed (llp : Llparser) : Prop :=
  llp.Tidy ∧ (llp.state = .idle ∨ llp.state = .idleLf ∨ llp.state = .result)

theorem llparseString_twoCrlf (htidy : llp.Tidy) (hok : llp.state ≠ .error) :
    ∃ calls, ∃ llp' : Llparser,
      llparseString llp [CR, LF, CR, LF] = (llp', 0, calls) ∧ llp'.Resumed := by
  obtain ⟨calls, llp', heq, hstate⟩ : ∃ calls, ∃ llp' : Llparser,
      llparseString llp [CR, LF, CR, LF] = (llp', 0, calls) ∧
        (llp'.state = .idle ∨ llp'.state = .idleLf ∨ llp'.state = .result) := by
    have hbuf := htidy.idle
    have hext := htidy.ext
    have hlen := htidy.len
    -- a false prompt keeps its CR, and LF after it ends a line in LFCR mode only
    cases hstate : llp.state <;> cases hlfcr : llp.lfcr <;> simp only [hstate] at hbuf hok <;>
      simp_all [llparseString, llparseByte, llparseAppend, llparseEndline, LLPARSE_BUF_SIZE, CR, LF,
        CH_GT, CH_SPC, Llparser.extended, Llparser.lfcr]
  exact ⟨calls, llp', heq, htidy.of_string heq, hstate⟩

theorem llparseString_openLine (hresumed : llp.Resumed) :
    ∃ calls, ∃ llp' : Llparser, llparseString llp [CR, LF] = (llp', 0, calls) ∧ llp'.Tidy ∧
      (llp'.state = .idle ∨ llp'.state = .idleLf) ∧ (llp.state = .idle → calls = []) := by
  obtain ⟨htidy, hstate⟩ := hresumed
  have hext := htidy.ext
  obtain ⟨calls, llp', heq, hstate', hcalls⟩ : ∃ calls, ∃ llp' : Llparser,
      llparseString llp [CR, LF] = (llp', 0, calls) ∧
        (llp'.state = .idle ∨ llp'.state = .idleLf) ∧ (llp.state = .idle → calls = []) := by
    rcases hstate with hstate | hstate | hstate <;>
      simp_all [llparseString, llparseByte, llparseEndline, llparseCalls]
  exact ⟨calls, llp', heq, htidy.of_string heq, hstate', hcalls⟩

theorem llparseString_plainLine (hresumed : llp.Resumed) (line : PlainLine) :
    ∃ calls, ∃ llp' : Llparser,
      llparseString llp line.wire = (llp', 0, calls ++ [.cb line.bytes]) ∧ llp'.Tidy ∧
        llp'.state = .idle ∧ (llp.state = .idle → calls = []) := by
  obtain ⟨calls, llp', hopen, htidy, hstate, hcalls⟩ := llparseString_openLine hresumed
  have hbuf : llp'.buf = [] := htidy.idle (by rcases hstate with h | h <;> simp [h])
  have htext := llparseString_text llp' hstate hbuf htidy.len line.nonempty line.fits line.noCr
    line.noLf fun _ => line.notPrompt
  have hend := llparseString_crlf { llp' with state := .result, buf := line.bytes } rfl
  refine ⟨calls, { llp' with state := .idle, buf := [] }, ?_, ⟨⟨htidy.len, fun _ => rfl⟩, htidy.ext⟩,
    rfl, hcalls⟩
  rw [PlainLine.wire, List.append_assoc, llparseString_append_ok hopen,
    llparseString_append_ok htext, hend]
  simp

theorem llparseString_plainLines (htidy : llp.Tidy) (hstate : llp.state = .idle)
    (lines : List PlainLine) :
    ∃ llp', llparseString llp (lines.flatMap PlainLine.wire) =
      (llp', 0, lines.map fun line => .cb line.bytes) := by
  induction lines generalizing llp with
  | nil => exact ⟨llp, rfl⟩
  | cons line lines ih =>
    obtain ⟨calls, llp', hline, htidy', hidle, hcalls⟩ :=
      llparseString_plainLine ⟨htidy, .inl hstate⟩ line
    obtain ⟨llp'', hlines⟩ := ih htidy' hidle
    refine ⟨llp'', ?_⟩
    rw [List.flatMap_cons, llparseString_append_ok hline, hlines, hcalls hstate]
    rfl

theorem llparseString_resumes (htidy : llp.Tidy) (hok : llp.state ≠ .error)
    (lines : List PlainLine) :
    ∃ llp' calls, llparseString llp ([CR, LF, CR, LF] ++ lines.flatMap PlainLine.wire) =
      (llp', 0, calls ++ lines.map fun line => .cb line.bytes) := by
  obtain ⟨calls, llp₁, hcrlf, hresumed⟩ := llparseString_twoCrlf htidy hok
  rw [llparseString_append_ok hcrlf]
  cases lines with
  | nil => exact ⟨llp₁, calls, by simp [llparseString]⟩
  | cons line lines =>
    obtain ⟨calls', llp₂, hline, htidy₂, hidle, -⟩ := llparseString_plainLine hresumed line
    obtain ⟨llp₃, hlines⟩ := llparseString_plainLines htidy₂ hidle lines
    refine ⟨llp₃, calls ++ calls', ?_⟩
    rw [List.flatMap_cons, llparseString_append_ok hline, hlines]
    simp

theorem llparseString_error (herror : llp.state = .error) (buf : List Byte) :
    llparseString llp buf = (llp, 0, []) := by
  induction buf with
  | nil => rfl
  | cons byte buf ih =>
    have hbyte : llparseByte llp byte = (llp, 0) := by simp [llparseByte, herror]
    rw [llparseString_cons hbyte, ih]
    simp [llparseCalls, herror]

/-- However the modem goes on after two CR LF and however that is cut into reads, the last calls
are the lines it sent. -/
def Recovers (llp : Llparser) : Prop :=
  ∀ (lines : List PlainLine) (chunks : List (List Byte)),
    chunks.flatten = [CR, LF, CR, LF] ++ lines.flatMap PlainLine.wire →
      (lines.map fun line => LlpCall.cb line.bytes) <:+ (llparseReads llp chunks).2.2

theorem recovers_iff_state (htidy : llp.Tidy) : Recovers llp ↔ llp.state ≠ .error := by
  constructor
  · intro hrecovers herror
    let ok : PlainLine :=
      ⟨ascii "OK", by decide, by decide, by decide, by decide, by decide⟩
    have hcalls := hrecovers [ok] [[CR, LF, CR, LF] ++ [ok].flatMap PlainLine.wire] (by simp)
    simp [llparseReads, llparseString_error herror] at hcalls
  · intro hok lines chunks hchunks
    obtain ⟨llp', calls, hwhole⟩ := llparseString_resumes htidy hok lines
    rw [llparseReads_of_string (hchunks ▸ hwhole)]
    exact List.suffix_append _ _

/-- **Recovery.** After any noise in any reads the parser recovers, exactly if no byte other than
CR and LF ever arrived in `IDLE_CR`. -/
theorem recovers_iff (vendor : Nat) (noise : List (List Byte)) :
    Recovers (llparseReads (.init (LGSM_ATCMD_F_EXTENDED ||| vendor)) noise).1 ↔
      ∀ step ∈ llparseSteps (.init (LGSM_ATCMD_F_EXTENDED ||| vendor))
          (llparseReadsTaken (.init (LGSM_ATCMD_F_EXTENDED ||| vendor)) noise),
        step.llp.state = .idleCr → step.byte = CR ∨ step.byte = LF := by
  have htidy := Llparser.tidy_init vendor
  rw [(llparseReads_eq_run _ noise).1, recovers_iff_state (htidy.run _), ne_eq,
    llparseRun_error_iff]
  constructor
  · intro hok step hstep hidle
    by_contra hbyte
    rw [not_or] at hbyte
    exact hok (.inr ⟨step, hstep, hidle, hbyte.1, hbyte.2⟩)
  · rintro hbytes (hstate | ⟨step, hstep, hidle, hcr, hlf⟩)
    · cases hstate
    · exact (hbytes step hstep hidle).elim hcr hlf

/-- CR and an `A`: nothing is ever heard again. -/
theorem silenced : ¬Recovers (llparseReads (.init LGSM_ATCMD_F_EXTENDED) [[CR, 65]]).1 := by
  intro hrecovers
  have herror : (llparseReads (.init LGSM_ATCMD_F_EXTENDED) [[CR, 65]]).1.state = .error := by
    decide
  exact (recovers_iff_state ((Llparser.tidy_init 0).run [CR, 65])).mp hrecovers herror

end Openmoko.Gsmd
