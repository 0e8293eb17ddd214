import Openmoko.Gsmd.Proof.AtcmdSteps
import Openmoko.Gsmd.Proof.LineNoise

/-!
# The line buffer and the response buffer

Two accumulators that are both wrong at their last byte. `llparse_append` fills the line buffer to
`LLPARSE_BUF_SIZE`, and then no NUL is left for the string functions of `ml_parse`. `ml_parse` fills
`mlbuf` to `MLPARSE_BUF_SIZE`, and then the next LF, and the NUL of `atcmd_done`, are written behind
it.
-/

namespace Openmoko.Gsmd

def lineArray (buf : List Byte) : List Byte :=
  buf ++ List.replicate (LLPARSE_BUF_SIZE - buf.length) NUL

def LlpCall.terminated : LlpCall → Prop
  | .cb buf => (lineArray buf)[buf.length]? = some NUL ∧ buf.length < LLPARSE_BUF_SIZE
  | .promptCb => True

theorem terminated_cb_iff (buf : List Byte) :
    (LlpCall.cb buf).terminated ↔ buf.length < LLPARSE_BUF_SIZE := by
  refine ⟨fun h => h.2, fun hlt => ⟨?_, hlt⟩⟩
  rw [lineArray, List.getElem?_append_right (Nat.le_refl _), Nat.sub_self,
    List.getElem?_replicate_of_lt (by omega)]

/-- A CR ends a line that fills the buffer: `cur < buf + len` does not hold any more. -/
def LlpStep.endsFull (step : LlpStep) : Prop :=
  step.llp.state = .result ∧ step.byte = CR ∧ ¬step.llp.buf.length < LLPARSE_BUF_SIZE

def Llparser.PendingShort (llp : Llparser) : Prop :=
  llp.state = .resultCr → llp.buf.length < LLPARSE_BUF_SIZE

variable {llp : Llparser}

theorem llparseByte_pendingShort_iff (hsound : llp.Sound)
    (hpending : llp.PendingShort) (byte : Byte) :
    (llparseByte llp byte).1.PendingShort ↔ ¬LlpStep.endsFull ⟨llp, byte⟩ := by
  constructor
  · rintro hnext ⟨hstate, hbyte, hfull⟩
    have hcr : (llparseByte llp byte).1.state = .resultCr := by
      dsimp only at hstate hbyte
      simp [llparseByte, hstate, hbyte]
    have hshort := hnext hcr
    rw [llparseByte_delivers hcr] at hshort
    exact hfull hshort
  · intro hnot hnext
    rw [llparseByte_delivers hnext]
    rcases llparseByte_resultCr hnext with ⟨hstate, -⟩ | ⟨hstate | hstate, hbyte⟩
    · exact hpending hstate
    · rw [hsound.idle (by simp [hstate])]
      decide
    · by_contra hfull
      exact hnot ⟨hstate, hbyte, hfull⟩

theorem llparseCalls_terminated_iff (llp : Llparser) :
    (∀ call ∈ llparseCalls llp, call.terminated) ↔ llp.PendingShort := by
  unfold llparseCalls Llparser.PendingShort
  by_cases hstate : llp.state = .resultCr
  · simp [hstate, terminated_cb_iff]
  · by_cases hspc : llp.state = .promptSpc <;> simp [hstate, hspc, LlpCall.terminated]

theorem llparseSteps_terminated_iff (hsound : llp.Sound)
    (hpending : llp.PendingShort) (bytes : List Byte) :
    (∀ step ∈ llparseSteps llp bytes, ∀ call ∈ llparseCalls step.next, call.terminated) ↔
      ∀ step ∈ llparseSteps llp bytes, ¬step.endsFull := by
  induction bytes generalizing llp with
  | nil => simp [llparseSteps]
  | cons byte bytes ih =>
    simp only [llparseSteps, List.forall_mem_cons]
    rw [llparseCalls_terminated_iff]
    change (llparseByte llp byte).1.PendingShort ∧ _ ↔ _
    rw [llparseByte_pendingShort_iff hsound hpending]
    refine and_congr_right fun hnot => ih (hsound.step byte) ?_
    exact (llparseByte_pendingShort_iff hsound hpending byte).mpr hnot

theorem llparseReads_terminated_iff (flags : Nat) (chunks : List (List Byte)) :
    (∀ call ∈ (llparseReads (.init flags) chunks).2.2, call.terminated) ↔
      ∀ step ∈ llparseSteps (.init flags) (llparseReadsTaken (.init flags) chunks),
        ¬step.endsFull := by
  rw [(llparseReads_eq_run _ chunks).2,
    ← llparseSteps_terminated_iff (Llparser.sound_init flags) (fun hstate => by cases hstate)]
  simp only [List.mem_flatMap, forall_exists_index, and_imp]
  exact ⟨fun h step hstep call hcall => h call step hstep hcall,
    fun h call step hstep hcall => h step hstep call hcall⟩

def mlbufLens (env : GsmdEnv) (g : GsmdState) (e : GsmdEvent) : List Nat :=
  let appended :=
    match e with
    | .mlParse buf parse =>
      match mlLabel env g (cstr buf) parse with
      | .info ofCmd =>
        let mlbuf := (if ofCmd then (mlFlush g).1 else g).mlbuf
        [mlbuf.newline.used.length, (mlbuf.append buf).used.length]
      | _ => []
    | _ => []
  appended ++ [(gsmdStep env g e).1.mlbuf.used.length]

def mlbufMachine (env : GsmdEnv) : Machine GsmdState GsmdEvent Nat :=
  { step := fun g e => ((gsmdStep env g e).1, mlbufLens env g e) }

/-- The line, and the LF before it if it is not the first, fit into `mlbuf` and leave a byte for the
NUL. A response of case A starts with an empty `mlbuf`. -/
def LineFits (env : GsmdEnv) (g : GsmdState) : GsmdEvent → Prop
  | .mlParse buf parse =>
    ∀ ofCmd, mlLabel env g (cstr buf) parse = .info ofCmd →
      let held := if ofCmd then 0 else g.mlbuf.used.length
      held + (if held = 0 then 0 else 1) + buf.length < MLPARSE_BUF_SIZE
  | _ => True

def LineBounded : GsmdEvent → Prop
  | .mlParse buf _ => buf.length ≤ LLPARSE_BUF_SIZE
  | _ => True

theorem Mlbuf.newline_length (mlbuf : Mlbuf) :
    mlbuf.newline.used.length =
      mlbuf.used.length + if mlbuf.used.length = 0 then 0 else 1 := by
  unfold Mlbuf.newline
  by_cases hused : mlbuf.used = [] <;> simp [hused]

theorem Mlbuf.append_length {mlbuf : Mlbuf} (hheld : mlbuf.used.length < MLPARSE_BUF_SIZE)
    (buf : List Byte) :
    (mlbuf.append buf).used.length =
      min (mlbuf.newline.used.length + buf.length) MLPARSE_BUF_SIZE := by
  have hlen := mlbuf.newline_length
  have hroom : (MLPARSE_BUF_SIZE + 0x100000000 - mlbuf.newline.used.length) % 0x100000000 =
      MLPARSE_BUF_SIZE - mlbuf.newline.used.length := by
    simp only [MLPARSE_BUF_SIZE] at hheld ⊢
    split at hlen <;> omega
  simp only [Mlbuf.append, Mlbuf.room, hroom, List.length_append, List.length_take]
  split at hlen <;> omega

section Step

variable {env : GsmdEnv} {g : GsmdState}

theorem atcmdDone_mlbuf_le (g : GsmdState) (cmd : GsmdAtcmd) (busy : List GsmdAtcmd)
    (buf : List Byte) :
    (atcmdDone g cmd busy buf).1.mlbuf.used.length ≤ g.mlbuf.used.length := by
  rw [atcmdDone_eq, passNextPending_eq]
  dsimp only
  split
  · exact Nat.le_refl _
  · exact Nat.zero_le _

theorem mlFinal_mlbuf_le (g : GsmdState) (buf : List Byte) (ret : Option Int)
    (event : Option ErrorEvent) :
    (mlFinal g buf ret event).1.mlbuf.used.length ≤ g.mlbuf.used.length := by
  unfold mlFinal
  cases hbusy : g.busyAtcmds with
  | nil => exact Nat.le_refl _
  | cons cmd busy => exact atcmdDone_mlbuf_le g _ busy buf

theorem cancelAtcmd_mlbuf_le (g : GsmdState) (cmd : GsmdAtcmd) :
    (cancelAtcmd g cmd).1.mlbuf.used.length ≤ g.mlbuf.used.length := by
  unfold cancelAtcmd
  cases hbusy : g.busyAtcmds with
  | nil => simp [atcmdSubmit_eq]
  | cons cur busy =>
    refine (atcmdDone_mlbuf_le _ cur busy _).trans ?_
    dsimp only
    split
    · exact Nat.zero_le _
    · exact Nat.le_refl _

theorem uartWritable_mlbuf (g : GsmdState) (uart : UartWrite) :
    (uartWritable g uart).1.mlbuf = g.mlbuf := by
  rcases uartWritable_cases g uart with ⟨flag, -, heq⟩ | ⟨pos, pending, rc, hwrites⟩
  · rw [heq]
  · have houtcome := hwrites.outcome
    split at houtcome <;> rw [houtcome]

theorem timerExpired_mlbuf (g : GsmdState) (tmr : GsmdTimer) :
    (timerExpired g tmr).1.mlbuf = g.mlbuf := by
  unfold timerExpired
  cases tmr.func with
  | aliveTimer => rfl
  | discardTimer =>
    unfold discardTimeout
    cases g.busyAtcmds with
    | nil => rfl
    | cons cmd busy =>
      dsimp only
      split
      · rfl
      · rw [passNextPending_eq]

variable {buf : List Byte} {ofCmd : Bool} {parse : UnsolicitParse}

theorem mlFlush_held (hlabel : mlLabel env g buf parse = .info ofCmd) :
    (if ofCmd then (mlFlush g).1 else g).mlbuf.used.length =
      if ofCmd then 0 else g.mlbuf.used.length := by
  cases ofCmd with
  | false => rfl
  | true =>
    obtain ⟨cmd, busy, hbusy⟩ := mlLabel_info_true hlabel
    rcases mlFlush_cases hbusy with ⟨hused, heq⟩ | ⟨-, -, heq⟩ | ⟨-, -, heq⟩ <;>
      simp [heq, Mlbuf.discard, Mlbuf.cleared]
    exact hused

theorem mlParse_info_mlbuf (hlabel : mlLabel env g (cstr buf) parse = .info ofCmd) :
    (mlParse env g buf parse).1.mlbuf.used.length ≤
      ((if ofCmd then (mlFlush g).1 else g).mlbuf.append buf).used.length := by
  have hstep : (mlParse env g buf parse).1 =
      mlAppend env (if ofCmd then (mlFlush g).1 else g) buf parse := by
    simp only [mlParse, hlabel]
    cases ofCmd <;> rfl
  rw [hstep]
  rcases mlAppend_cases env (if ofCmd then (mlFlush g).1 else g) buf parse with heq | ⟨-, heq⟩
  · rw [heq]
  · rw [heq]
    exact Nat.zero_le _

theorem mlParse_other_mlbuf (hlabel : ∀ ofCmd, mlLabel env g (cstr buf) parse ≠ .info ofCmd) :
    (mlParse env g buf parse).1.mlbuf.used.length ≤ max g.mlbuf.used.length buf.length := by
  unfold mlParse
  split
  next => exact Nat.le_max_left _ _
  next => exact Nat.le_max_left _ _
  next => exact Nat.le_max_right _ _
  next ret event _ => exact (mlFinal_mlbuf_le g buf ret event).trans (Nat.le_max_left _ _)
  next ofCmd heq => exact absurd heq (hlabel ofCmd)

theorem mlbufLens_info (hlabel : mlLabel env g (cstr buf) parse = .info ofCmd) :
    mlbufLens env g (.mlParse buf parse) =
      [(if ofCmd then (mlFlush g).1 else g).mlbuf.newline.used.length,
        ((if ofCmd then (mlFlush g).1 else g).mlbuf.append buf).used.length,
        (mlParse env g buf parse).1.mlbuf.used.length] := by
  simp only [mlbufLens, hlabel]
  rfl

theorem mlbufLens_other (hlabel : ∀ ofCmd, mlLabel env g (cstr buf) parse ≠ .info ofCmd) :
    mlbufLens env g (.mlParse buf parse) = [(mlParse env g buf parse).1.mlbuf.used.length] := by
  simp only [mlbufLens]
  rfl

theorem mlParse_lens_iff (hheld : g.mlbuf.used.length < MLPARSE_BUF_SIZE) (buf : List Byte)
    (parse : UnsolicitParse) (hbounded : buf.length ≤ LLPARSE_BUF_SIZE) :
    (∀ n ∈ mlbufLens env g (.mlParse buf parse), n < MLPARSE_BUF_SIZE) ↔
      LineFits env g (.mlParse buf parse) := by
  by_cases hlabel : ∃ ofCmd, mlLabel env g (cstr buf) parse = .info ofCmd
  · obtain ⟨ofCmd, hlabel⟩ := hlabel
    have hflush := mlFlush_held hlabel
    have hend := mlParse_info_mlbuf hlabel
    set mlbuf := (if ofCmd then (mlFlush g).1 else g).mlbuf with hmlbuf
    have hlt : mlbuf.used.length < MLPARSE_BUF_SIZE := by
      rw [hflush]
      split
      · decide
      · exact hheld
    have hnewline := mlbuf.newline_length
    have happend := Mlbuf.append_length hlt buf
    have hfits : LineFits env g (.mlParse buf parse) ↔
        mlbuf.newline.used.length + buf.length < MLPARSE_BUF_SIZE := by
      rw [hnewline, hflush]
      simp only [LineFits, hlabel, MlLabel.info.injEq, forall_eq']
    rw [hfits, mlbufLens_info hlabel, ← hmlbuf]
    simp only [List.forall_mem_cons, List.not_mem_nil, false_implies, implies_true, and_true]
    constructor
    · rintro ⟨-, hlen, -⟩
      omega
    · intro hlen
      omega
  · have hother : ∀ ofCmd, mlLabel env g (cstr buf) parse ≠ .info ofCmd :=
      fun ofCmd heq => hlabel ⟨ofCmd, heq⟩
    have hle := mlParse_other_mlbuf hother
    have hfits : LineFits env g (.mlParse buf parse) := fun ofCmd heq => absurd heq (hother ofCmd)
    rw [mlbufLens_other hother]
    refine iff_of_true (fun n hn => ?_) hfits
    rw [List.mem_singleton.mp hn]
    simp only [LLPARSE_BUF_SIZE, MLPARSE_BUF_SIZE] at hheld hbounded ⊢
    omega

theorem mlbufLens_iff (hheld : g.mlbuf.used.length < MLPARSE_BUF_SIZE) (e : GsmdEvent)
    (hbounded : LineBounded e) :
    (∀ n ∈ mlbufLens env g e, n < MLPARSE_BUF_SIZE) ↔ LineFits env g e := by
  have hquiet : ∀ {g' : GsmdState}, g'.mlbuf.used.length ≤ g.mlbuf.used.length →
      ∀ n ∈ [] ++ [g'.mlbuf.used.length], n < MLPARSE_BUF_SIZE := by
    intro g' hle n hn
    rw [List.nil_append, List.mem_singleton] at hn
    omega
  cases e with
  | mlParse buf parse => exact mlParse_lens_iff hheld buf parse hbounded
  | atcmdSubmit fill =>
    exact iff_of_true (hquiet (by simp [gsmdStep, atcmdSubmit_eq])) trivial
  | cancelAtcmd fill => exact iff_of_true (hquiet (cancelAtcmd_mlbuf_le _ _)) trivial
  | atcmdPrompt => exact iff_of_true (hquiet (Nat.le_refl _)) trivial
  | uartWritable uart =>
    exact iff_of_true (hquiet (by rw [gsmdStep, uartWritable_mlbuf])) trivial
  | timerExpired tmr =>
    exact iff_of_true (hquiet (by rw [gsmdStep, timerExpired_mlbuf])) trivial

theorem mem_mlbufLens (env : GsmdEnv) (g : GsmdState) (e : GsmdEvent) :
    (gsmdStep env g e).1.mlbuf.used.length ∈ mlbufLens env g e := by
  unfold mlbufLens
  exact List.mem_append_right _ (List.mem_singleton_self _)

end Step

theorem llparseCalls_bounded (hfits : llp.buf.length ≤ LLPARSE_BUF_SIZE) (parse : UnsolicitParse) :
    ∀ call ∈ llparseCalls llp, LineBounded (llpCallEvent parse call) := by
  unfold llparseCalls
  by_cases hstate : llp.state = .resultCr
  · simp [hstate, llpCallEvent, LineBounded, hfits]
  · by_cases hspc : llp.state = .promptSpc <;> simp [hstate, hspc, llpCallEvent, LineBounded]

theorem llparseString_bounded (hlen : llp.len = LLPARSE_BUF_SIZE)
    (hfits : llp.buf.length ≤ llp.len) (chunk : List Byte) (parse : UnsolicitParse) :
    ((llparseString llp chunk).1.len = LLPARSE_BUF_SIZE ∧
      (llparseString llp chunk).1.buf.length ≤ (llparseString llp chunk).1.len) ∧
      ∀ call ∈ (llparseString llp chunk).2.2, LineBounded (llpCallEvent parse call) := by
  induction chunk generalizing llp with
  | nil => exact ⟨⟨hlen, hfits⟩, by simp [llparseString]⟩
  | cons byte chunk ih =>
    have hnext := llparseByte_length_le hfits byte
    have hlen' := (llparseByte_frame llp byte).1.trans hlen
    rw [hlen, ← hlen'] at hnext
    simp only [llparseString]
    split
    · exact ⟨⟨hlen', hnext⟩, by simp⟩
    · obtain ⟨hafter, hcalls⟩ := ih hlen' hnext
      refine ⟨hafter, fun call hcall => ?_⟩
      rcases List.mem_append.mp hcall with hcall | hcall
      · exact llparseCalls_bounded (hlen' ▸ hnext) parse call hcall
      · exact hcalls call hcall

theorem uartEvents_bounded (hlen : llp.len = LLPARSE_BUF_SIZE)
    (hfits : llp.buf.length ≤ llp.len) (events : List UartEvent) :
    ∀ e ∈ uartEvents llp events, LineBounded e := by
  induction events generalizing llp with
  | nil => simp [uartEvents]
  | cons event events ih =>
    cases event with
    | uartReadable chunk parse =>
      obtain ⟨⟨hlen', hfits'⟩, -⟩ := llparseString_bounded hlen hfits chunk (parse 0)
      simp only [uartEvents, List.mem_append, List.mem_mapIdx]
      rintro e (⟨n, hn, rfl⟩ | he)
      · have hcalls := (llparseString_bounded hlen hfits chunk (parse n)).2
        exact hcalls _ (List.getElem_mem hn)
      · exact ih hlen' hfits' e he
    | _ =>
      simp only [uartEvents, List.forall_mem_cons]
      exact ⟨trivial, ih hlen hfits⟩

theorem meets_lineBounded {env : GsmdEnv} {g : GsmdState} {events : List GsmdEvent}
    (hbounded : ∀ e ∈ events, LineBounded e) :
    (mlbufMachine env).Meets (fun _ => LineBounded) g events := by
  induction events generalizing g with
  | nil => trivial
  | cons e events ih =>
    rw [List.forall_mem_cons] at hbounded
    exact ⟨hbounded.1, ih hbounded.2⟩

theorem mlbufMachine_iff (env : GsmdEnv) {g : GsmdState}
    (hheld : g.mlbuf.used.length < MLPARSE_BUF_SIZE) {events : List GsmdEvent}
    (hbounded : ∀ e ∈ events, LineBounded e) :
    (∀ n ∈ ((mlbufMachine env).exec g events).2, n < MLPARSE_BUF_SIZE) ↔
      (mlbufMachine env).Meets (LineFits env) g events := by
  have hmeets : (mlbufMachine env).Meets (fun _ => LineBounded) g events :=
    meets_lineBounded hbounded
  have hiff : (∀ n ∈ ((mlbufMachine env).exec g events).2, n < MLPARSE_BUF_SIZE) ↔
      (∀ n ∈ ([] : List Nat), n < MLPARSE_BUF_SIZE) ∧
        (mlbufMachine env).Meets (LineFits env) g events := by
    refine (mlbufMachine env).exec_iff_meets
      (fun g log => (∀ n ∈ log, n < MLPARSE_BUF_SIZE) → g.mlbuf.used.length < MLPARSE_BUF_SIZE)
      (fun _ log => ∀ n ∈ log, n < MLPARSE_BUF_SIZE) (fun _ => hheld) ?_ hmeets
    intro g log e hinv hline
    constructor
    · intro hlog
      exact hlog _ (List.mem_append_right _ (mem_mlbufLens env g e))
    · simp only [List.mem_append, or_imp, forall_and]
      exact and_congr_right fun hlog => mlbufLens_iff (hinv hlog) e hline
  simpa using hiff

def uartReads (events : List UartEvent) : List (List Byte) :=
  events.filterMap fun
    | .uartReadable chunk _ => some chunk
    | _ => none

/-- Every line is handed over with its NUL inside the line buffer, and `mlbuf_len` is always an
index of `mlbuf`, so that what is written there is inside too. -/
def BuffersHold (env : GsmdEnv) (g : GsmdState) (llp : Llparser) (events : List UartEvent) : Prop :=
  (∀ call ∈ (llparseReads llp (uartReads events)).2.2, call.terminated) ∧
    ∀ n ∈ ((mlbufMachine env).exec g (uartEvents llp events)).2, n < MLPARSE_BUF_SIZE

/-- **Buffers.** Whatever bytes the modem sends and whatever order the events come in: the buffers
hold, exactly if no CR ends a line that fills the line buffer and every line appended to `mlbuf`
fits there with its LF and a NUL. -/
theorem buffersHold_iff (env : GsmdEnv) (flags llpFlags : Nat) (ready : Bool)
    (events : List UartEvent) :
    BuffersHold env (atcmdInit flags ready) (.init llpFlags) events ↔
      (∀ step ∈ llparseSteps (.init llpFlags)
          (llparseReadsTaken (.init llpFlags) (uartReads events)), ¬step.endsFull) ∧
        (mlbufMachine env).Meets (LineFits env) (atcmdInit flags ready)
          (uartEvents (.init llpFlags) events) := by
  have hbounded : ∀ e ∈ uartEvents (.init llpFlags) events, LineBounded e :=
    uartEvents_bounded rfl (Nat.zero_le _) events
  have hheld : (atcmdInit flags ready).mlbuf.used.length < MLPARSE_BUF_SIZE := Nat.succ_pos _
  exact and_congr (llparseReads_terminated_iff llpFlags (uartReads events))
    (mlbufMachine_iff env hheld hbounded)

def fullLine : List UartEvent :=
  [.uartReadable (List.replicate LLPARSE_BUF_SIZE 65) fun _ _ _ => 0,
    .uartReadable [CR] fun _ _ _ => 0]

theorem fullLine_unterminated :
    ¬BuffersHold .plain (atcmdInit 0 true) (.init LGSM_ATCMD_F_EXTENDED) fullLine := by
  rintro ⟨hcalls, -⟩
  have hhead : List.replicate LLPARSE_BUF_SIZE (65 : Byte) = 65 :: List.replicate 1023 65 := rfl
  have hne : List.replicate LLPARSE_BUF_SIZE (65 : Byte) ≠ [] := by
    rw [hhead]
    exact List.cons_ne_nil _ _
  have htext := llparseString_text (.init LGSM_ATCMD_F_EXTENDED) (.inl rfl) rfl rfl
    hne (by simp)
    (fun hmem => absurd (List.eq_of_mem_replicate hmem) (by decide))
    (fun hmem => absurd (List.eq_of_mem_replicate hmem) (by decide))
    (fun _ => by rw [hhead, promptLike_cons (by decide)])
  have hcall : .cb (List.replicate LLPARSE_BUF_SIZE 65) ∈
      (llparseReads (.init LGSM_ATCMD_F_EXTENDED) (uartReads fullLine)).2.2 := by
    simp [uartReads, fullLine, llparseReads, htext, llparseString, llparseByte, llparseCalls]
  have hlt := (hcalls _ hcall).2
  rw [List.length_replicate] at hlt
  exact Nat.lt_irrefl _ hlt

end Openmoko.Gsmd
