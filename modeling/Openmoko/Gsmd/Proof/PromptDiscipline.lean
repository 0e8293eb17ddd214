import Openmoko.Gsmd.Proof.AtcmdSteps

/-!
# Prompts between the lines of a command

A command of several lines stays at the head of the pending list after each line until a prompt
wakes the writer. While it waits there nothing else may wake it: not a submit that finds no busy
command, and not the end of the last busy command; and no cancel may put another command before it.
These are the steps `KeepsWaiting` rules out. The invariant is `Disciplined`: a command that is
between two lines is the head of the pending list, its last line is the last thing that was written,
and if the writer is awake a prompt has come since.
-/

namespace Openmoko.Gsmd

def isWrote : GsmdObs → Bool
  | .wrote _ _ _ _ => true
  | _ => false

def SinceLine (log : List GsmdObs) (addr : Nat) (passed : List Byte) (since : List GsmdObs) : Prop :=
  (∃ before passed' sent cr, log = before ++ .wrote addr passed' sent cr :: since ∧
    passed = passed' ++ sent ++ [LF]) ∧ ∀ o ∈ since, isWrote o = false

/-- A write after an LF comes after the write of the line before it and after a prompt for that
line, with no other write between. -/
def Prompted (before : List GsmdObs) : GsmdObs → Prop
  | .wrote addr passed _ _ =>
    passed.getLast? = some LF → ∃ since, SinceLine before addr passed since ∧ .prompt ∈ since
  | _ => True

def AwaitsPrompt (g : GsmdState) : Prop :=
  g.whenWrite = false ∧ ¬ ∀ pos ∈ g.pendingAtcmds.head?, ¬ AtLineStart pos

def LabelKeepsWaiting (g : GsmdState) : MlLabel → Prop
  | .finalCb _ _ => g.busyAtcmds ≠ [] → g.busyAtcmds.tail = [] → ¬ AwaitsPrompt g
  | _ => True

/-- A step that does not wake the writer while it waits for a prompt, and puts nothing before a
command that is between two lines. -/
def KeepsWaiting (env : GsmdEnv) (g : GsmdState) : GsmdEvent → Prop
  | .atcmdSubmit _ => g.busyAtcmds = [] → ¬ AwaitsPrompt g
  | .cancelAtcmd _ =>
    if g.busyAtcmds = [] then ¬ AwaitsPrompt g
    else ∀ pos ∈ g.pendingAtcmds.head?, ¬ AtLineStart pos
  | .mlParse buf parse => LabelKeepsWaiting g (mlLabel env g (cstr buf) parse)
  | .timerExpired tmr =>
    tmr.func = .discardTimer → ∀ cmd ∈ g.busyAtcmds.head?, cmd.timeout = some tmr →
      g.busyAtcmds.tail = [] → ¬ AwaitsPrompt g
  | _ => True

section Decidable

variable (env : GsmdEnv) (g : GsmdState)

instance : Decidable (AwaitsPrompt g) := inferInstanceAs (Decidable (_ ∧ ¬ _))

instance : (label : MlLabel) → Decidable (LabelKeepsWaiting g label)
  | .finalCb _ _ => inferInstanceAs (Decidable (_ → _ → ¬ _))
  | .ready | .done | .multiline | .info _ => inferInstanceAs (Decidable True)

instance : (e : GsmdEvent) → Decidable (KeepsWaiting env g e)
  | .atcmdSubmit _ => inferInstanceAs (Decidable (_ → ¬ _))
  | .cancelAtcmd _ =>
    inferInstanceAs (Decidable (if g.busyAtcmds = [] then ¬ AwaitsPrompt g
      else ∀ pos ∈ g.pendingAtcmds.head?, ¬ AtLineStart pos))
  | .mlParse buf parse =>
    inferInstanceAs (Decidable (LabelKeepsWaiting g (mlLabel env g (cstr buf) parse)))
  | .timerExpired _ => inferInstanceAs (Decidable (_ → ∀ cmd ∈ g.busyAtcmds.head?, _))
  | .atcmdPrompt | .uartWritable _ => inferInstanceAs (Decidable True)

end Decidable

structure Disciplined (g : GsmdState) (log : List GsmdObs) : Prop where
  prompted : Explained Prompted log
  filled : ∀ cmd ∈ g.pendingAtcmds, WellFilled cmd
  -- A head that is between two lines has written the line before, and is prompted if awake.
  head : ∀ pos ∈ g.pendingAtcmds.head?, AtLineStart pos →
    ∃ since, SinceLine log pos.addr pos.passed since ∧ (g.whenWrite = true → .prompt ∈ since)
  others : ∀ cmd ∈ g.pendingAtcmds.tail, ¬ AtLineStart cmd

section Log

variable {log obs since : List GsmdObs} {addr : Nat} {passed : List Byte}

theorem SinceLine.append (hline : SinceLine log addr passed since)
    (hobs : ∀ o ∈ obs, isWrote o = false) : SinceLine (log ++ obs) addr passed (since ++ obs) := by
  obtain ⟨⟨before, passed', sent, cr, hlog, hpassed⟩, hsince⟩ := hline
  refine ⟨⟨before, passed', sent, cr, by simp [hlog], hpassed⟩, fun o ho => ?_⟩
  rcases List.mem_append.mp ho with hold | hnew
  · exact hsince o hold
  · exact hobs o hnew

theorem prompted_append (hlog : Explained Prompted log) (obs : List GsmdObs)
    (hobs : ∀ o ∈ obs, isWrote o = false) :
    Explained Prompted (log ++ obs) := by
  apply hlog.append_of_forall
  intro o ho before
  have hnot := hobs o ho
  cases o with
  | wrote addr passed sent cr => simp [isWrote] at hnot
  | _ => trivial

end Log

section Steps

variable {env : GsmdEnv} {g g' : GsmdState} {log obs : List GsmdObs}

theorem Disciplined.frame (hinv : Disciplined g log) (added : List GsmdAtcmd)
    (hpending : g'.pendingAtcmds = g.pendingAtcmds ++ added)
    (hfilled : ∀ cmd ∈ added, WellFilled cmd) (hfresh : ∀ cmd ∈ added, ¬ AtLineStart cmd)
    (hobs : ∀ o ∈ obs, isWrote o = false)
    (hwake : g'.whenWrite = true → g.whenWrite = true ∨ .prompt ∈ obs ∨ ¬ AwaitsPrompt g) :
    Disciplined g' (log ++ obs) := by
  refine ⟨prompted_append hinv.prompted obs hobs, ?_, ?_, ?_⟩
  · intro cmd hcmd
    rw [hpending] at hcmd
    rcases List.mem_append.mp hcmd with hold | hnew
    · exact hinv.filled cmd hold
    · exact hfilled cmd hnew
  · intro pos hpos hstart
    rw [hpending] at hpos
    cases hcons : g.pendingAtcmds with
    | nil =>
      rw [hcons, List.nil_append] at hpos
      exact absurd hstart (hfresh pos (List.mem_of_mem_head? hpos))
    | cons first rest =>
      rw [hcons] at hpos
      obtain rfl : first = pos := by simpa using hpos
      obtain ⟨since, hsince, hprompt⟩ := hinv.head first (by simp [hcons]) hstart
      refine ⟨since ++ obs, hsince.append hobs, fun hawake => ?_⟩
      rcases hwake hawake with hold | hnew | hnot
      · exact List.mem_append_left _ (hprompt hold)
      · exact List.mem_append_right _ hnew
      · have hflag : g.whenWrite = true := by
          by_contra hsleeps
          exact hnot ⟨by simpa using hsleeps, fun hall => hall first (by simp [hcons]) hstart⟩
        exact List.mem_append_left _ (hprompt hflag)
  · intro cmd hcmd
    rw [hpending] at hcmd
    cases hcons : g.pendingAtcmds with
    | nil =>
      rw [hcons, List.nil_append] at hcmd
      exact hfresh cmd (List.mem_of_mem_tail hcmd)
    | cons first rest =>
      rw [hcons, List.cons_append, List.tail_cons] at hcmd
      rcases List.mem_append.mp hcmd with hold | hnew
      · exact hinv.others cmd (by rw [hcons]; exact hold)
      · exact hfresh cmd hnew

theorem Disciplined.quiet (hinv : Disciplined g log) (hpending : g'.pendingAtcmds = g.pendingAtcmds)
    (hobs : ∀ o ∈ obs, isWrote o = false)
    (hwake : g'.whenWrite = true → g.whenWrite = true ∨ .prompt ∈ obs ∨ ¬ AwaitsPrompt g) :
    Disciplined g' (log ++ obs) :=
  hinv.frame [] (by simp [hpending]) (by simp) (by simp) hobs hwake

theorem not_atLineStart_fill (addr : Nat) (fill : AtcmdFill) :
    ¬ AtLineStart (atcmdFill addr fill) := by
  simp [AtLineStart, GsmdAtcmd.passed, atcmdFill]

theorem disciplined_submit (addr : Nat) (fill : AtcmdFill) (hinv : Disciplined g log)
    (hcond : g.busyAtcmds = [] → ¬ AwaitsPrompt g) :
    Disciplined (atcmdSubmit g (atcmdFill addr fill)) log := by
  rw [← List.append_nil log]
  refine hinv.frame [atcmdFill addr fill] ?_ ?_ ?_ (by simp) ?_
  · unfold atcmdSubmit
    dsimp only
    split <;> rfl
  · simpa using atcmdFill_wellFilled addr fill
  · simpa using not_atLineStart_fill addr fill
  · by_cases hbusy : g.busyAtcmds = []
    · exact fun _ => .inr (.inr (hcond hbusy))
    · intro hawake
      exact .inl (by simpa [atcmdSubmit, hbusy] using hawake)

theorem disciplined_passNext {busy : List GsmdAtcmd} (mlbuf : Mlbuf) (hinv : Disciplined g log)
    (hobs : ∀ o ∈ obs, isWrote o = false) (hcond : busy = [] → ¬ AwaitsPrompt g) :
    Disciplined (passNextPending { g with mlbuf := mlbuf } busy) (log ++ obs) := by
  rw [passNextPending_eq]
  refine hinv.quiet rfl hobs fun hawake => ?_
  simp only [Bool.or_eq_true, decide_eq_true_eq] at hawake
  rcases hawake with hold | ⟨hbusy, -⟩
  · exact .inl hold
  · exact .inr (.inr (hcond hbusy))

theorem isWrote_doneObs (cmd : GsmdAtcmd) (buf : List Byte) :
    ∀ o ∈ doneObs g cmd buf ++ [.freed cmd.addr], isWrote o = false := by
  cases hcb : cmd.cb <;> simp [doneObs, hcb, isWrote]

theorem disciplined_final {buf : List Byte} (ret : Option Int) (event : Option ErrorEvent)
    (hinv : Disciplined g log)
    (hcond : g.busyAtcmds ≠ [] → g.busyAtcmds.tail = [] → ¬ AwaitsPrompt g) :
    Disciplined (mlFinal g buf ret event).1
      (log ++ .final (headAddr g) buf :: (mlFinal g buf ret event).2) := by
  cases hbusy : g.busyAtcmds with
  | nil =>
    unfold mlFinal
    rw [hbusy]
    exact hinv.quiet rfl (by simp [isWrote]) .inl
  | cons cmd busy =>
    obtain ⟨mlbuf, told, heq, htold⟩ := mlFinal_cons hbusy buf ret event
    rw [heq]
    apply disciplined_passNext mlbuf hinv
    · intro o ho
      rcases List.mem_cons.mp ho with rfl | hrest
      · rfl
      rcases List.mem_append.mp hrest with hmem | hmem
      · obtain ⟨number, rfl⟩ | ⟨number, resp, rfl⟩ := htold o hmem
        · rfl
        · rfl
      · rw [List.mem_singleton.mp hmem]
        rfl
    · exact fun hnil => hcond (by simp [hbusy]) (by simp [hbusy, hnil])

theorem disciplined_mlParse {buf : List Byte} {parse : UnsolicitParse} (hinv : Disciplined g log)
    (hcond : KeepsWaiting env g (.mlParse buf parse)) :
    Disciplined (mlParse env g buf parse).1 (log ++ (mlParse env g buf parse).2) := by
  simp only [KeepsWaiting] at hcond
  cases hlabel : mlLabel env g (cstr buf) parse with
  | info ofCmd =>
    obtain ⟨mlbuf, unsol, told, heq, htold⟩ := mlParse_info hlabel
    rw [heq]
    refine hinv.quiet rfl ?_ .inl
    intro o ho
    rcases List.mem_append.mp ho with hmem | hmem
    · obtain ⟨addr, ret, resp, rfl⟩ := htold o hmem
      rfl
    · rw [List.mem_singleton.mp hmem]
      rfl
  | finalCb ret event =>
    rw [hlabel] at hcond
    simp only [mlParse, hlabel]
    exact disciplined_final ret event hinv hcond
  | _ =>
    simp only [mlParse, hlabel]
    exact hinv.quiet rfl (by simp) .inl

theorem disciplined_cancel (env : GsmdEnv) (addr : Nat) (fill : AtcmdFill)
    (hinv : Disciplined g log)
    (hcond : KeepsWaiting env g (.cancelAtcmd fill)) :
    Disciplined (cancelAtcmd g (atcmdFill addr fill)).1
      (log ++ (cancelAtcmd g (atcmdFill addr fill)).2) := by
  simp only [KeepsWaiting] at hcond
  unfold cancelAtcmd
  cases hbusy : g.busyAtcmds with
  | nil =>
    rw [if_pos hbusy] at hcond
    have hsubmit := disciplined_submit addr fill hinv fun _ => hcond
    rwa [List.append_nil]
  | cons cur busy =>
    rw [if_neg (by simp [hbusy])] at hcond
    have hnone : ∀ cmd ∈ g.pendingAtcmds, ¬ AtLineStart cmd := by
      intro cmd hcmd
      cases hcons : g.pendingAtcmds with
      | nil => simp [hcons] at hcmd
      | cons first rest =>
        rw [hcons] at hcmd
        rcases List.mem_cons.mp hcmd with rfl | hrest
        · exact hcond cmd (by simp [hcons])
        · exact hinv.others cmd (by rw [hcons]; exact hrest)
    simp only [atcmdDone_eq, passNextPending_eq]
    refine ⟨prompted_append hinv.prompted _ (isWrote_doneObs _ _), ?_, ?_, hnone⟩
    · intro cmd hcmd
      rcases List.mem_cons.mp hcmd with rfl | hrest
      · exact atcmdFill_wellFilled addr fill
      · exact hinv.filled cmd hrest
    · intro pos hpos hstart
      obtain rfl : atcmdFill addr fill = pos := by simpa using hpos
      exact absurd hstart (not_atLineStart_fill addr fill)

theorem disciplined_timer {tmr : GsmdTimer} (hinv : Disciplined g log)
    (hcond : KeepsWaiting env g (.timerExpired tmr)) :
    Disciplined (timerExpired g tmr).1 (log ++ (timerExpired g tmr).2) := by
  unfold timerExpired
  cases hfunc : tmr.func with
  | aliveTimer => exact hinv.quiet rfl (by simp) .inl
  | discardTimer =>
    unfold discardTimeout
    cases hbusy : g.busyAtcmds with
    | nil => exact hinv.quiet rfl (by simp) .inl
    | cons cmd busy =>
      by_cases htimeout : cmd.timeout = some tmr
      · simp only [ne_eq, htimeout, not_true_eq_false, if_false]
        refine disciplined_passNext g.mlbuf hinv ?_ fun hnil => ?_
        · cases cmd.cb <;> simp [isWrote]
        · exact hcond hfunc cmd (by simp [hbusy]) htimeout (by simp [hbusy, hnil])
      · simp only [ne_eq, htimeout, not_false_iff, if_true]
        exact hinv.quiet rfl (by simp) .inl

theorem disciplined_uart (uart : UartWrite) (hinv : Disciplined g log) :
    Disciplined (uartWritable g uart).1 (log ++ (uartWritable g uart).2) := by
  rcases uartWritable_cases g uart with ⟨flag, hflag, heq⟩ | ⟨pos, pending, rc, hwrites⟩
  · rw [heq]
    exact hinv.quiet rfl (by simp) fun hawake => .inl (hflag hawake)
  have hcons := hwrites.head
  have houtcome := hwrites.outcome
  have hfilled := hinv.filled pos (by simp [hcons])
  have hothers : ∀ cmd ∈ pending, ¬ AtLineStart cmd := fun cmd hcmd =>
    hinv.others cmd (by simpa [hcons] using hcmd)
  set sent := (pos.buf.drop pos.cur).take rc with hsent
  have hprompted : Explained Prompted (log ++ [.wrote pos.addr pos.passed sent uart.cr]) := by
    rw [explained_append, explained_singleton]
    refine ⟨hinv.prompted, fun hstart => ?_⟩
    obtain ⟨since, hsince, hprompt⟩ := hinv.head pos (by simp [hcons]) hstart
    rw [List.append_nil]
    exact ⟨since, hsince, hprompt hwrites.asked⟩
  by_cases hend : pos.buflen ≤ uartSkip pos rc
  · rw [if_pos hend] at houtcome
    rw [houtcome]
    refine ⟨?_, ?_, ?_, ?_⟩
    · have := prompted_append hprompted [.sentAll pos.addr] (by simp [isWrote])
      rwa [List.append_assoc] at this
    · exact fun cmd hcmd => hinv.filled cmd (by simp [hcons, hcmd])
    · exact fun cmd hcmd hstart => absurd hstart (hothers cmd (List.mem_of_mem_head? hcmd))
    · exact fun cmd hcmd => hothers cmd (List.mem_of_mem_tail hcmd)
  · rw [if_neg hend] at houtcome
    rw [houtcome]
    refine ⟨hprompted, ?_, ?_, hothers⟩
    · intro cmd hcmd
      rcases List.mem_cons.mp hcmd with rfl | hrest
      · exact hfilled.advance (by omega)
      · exact hinv.filled cmd (by simp [hcons, hrest])
    · intro cmd hcmd hstart
      obtain rfl : pos.advance (uartSkip pos rc) = cmd := by simpa using hcmd
      obtain ⟨hlong, hpassed⟩ := atLineStart_advance hfilled hwrites.positive hwrites.bound hstart
      refine ⟨[], ⟨⟨log, pos.passed, sent, uart.cr, rfl, hpassed⟩, by simp⟩, fun hawake => ?_⟩
      simp at hawake
      omega

theorem disciplined_step (e : GsmdEvent) (hinv : Disciplined g log) (hcond : KeepsWaiting env g e) :
    Disciplined ((gsmd env).step g e).1 (log ++ ((gsmd env).step g e).2) := by
  have hnext : Disciplined { g with next := g.next + 1 } log :=
    ⟨hinv.prompted, hinv.filled, hinv.head, hinv.others⟩
  cases e with
  | atcmdSubmit fill =>
    simp only [gsmd, gsmdStep, List.append_nil]
    exact disciplined_submit g.next fill hnext hcond
  | cancelAtcmd fill => exact disciplined_cancel env g.next fill hnext hcond
  | mlParse buf parse => exact disciplined_mlParse hinv hcond
  | atcmdPrompt =>
    exact hinv.quiet rfl (by simp [gsmd, gsmdStep, atcmdPrompt, isWrote])
      fun _ => .inr (.inl (by simp [gsmd, gsmdStep, atcmdPrompt]))
  | uartWritable uart => exact disciplined_uart uart hinv
  | timerExpired tmr => exact disciplined_timer hinv hcond

end Steps

/-- **Prompt discipline.** Whatever bytes the modem sends and whatever order the events come in: if
no step wakes a waiting writer or overtakes it, every line of a command but its first is written
after a prompt for it, and nothing else is written since the line before. -/
theorem continuations_prompted {env : GsmdEnv} (flags llpFlags : Nat) (ready : Bool)
    (events : List UartEvent)
    (hmeets : (gsmd env).Meets (KeepsWaiting env) (atcmdInit flags ready)
      (uartEvents (.init llpFlags) events)) :
    Explained Prompted
      ((gsmd env).exec (atcmdInit flags ready) (uartEvents (.init llpFlags) events)).2 := by
  have hrun := (gsmd env).exec_inv Disciplined
    ⟨explained_nil _, by simp [atcmdInit], by simp [atcmdInit], by simp [atcmdInit]⟩
    (fun g log e hinv hcond => disciplined_step e hinv hcond) hmeets
  exact hrun.prompted

def cmgsEvents : List UartEvent :=
  [.atcmdSubmit { cmd := ascii "AT+CMGS=1\n00\x1a", rlen := 14, cb := some 0 },
    .uartWritable { room := some 1024 },
    .uartReadable (ascii "\r\n>") fun _ _ _ => 0,
    .uartReadable (ascii " ") fun _ _ _ => 0,
    .uartWritable { room := some 1024 },
    .uartReadable (ascii "\r\nOK\r\n") fun _ _ _ => 0]

theorem cmgs_prompted :
    Explained Prompted ((gsmd .plain).exec (atcmdInit 0 true)
      (uartEvents (.init LGSM_ATCMD_F_EXTENDED) cmgsEvents)).2 :=
  continuations_prompted 0 LGSM_ATCMD_F_EXTENDED true cmgsEvents (by decide)

def cmgsThenCsq : List UartEvent :=
  [.atcmdSubmit { cmd := ascii "AT+CMGS=1\n00\x1a", rlen := 14, cb := some 0 },
    .uartWritable { room := some 1024 },
    .atcmdSubmit { cmd := ascii "AT+CSQ", rlen := 7, cb := some 0 },
    .uartWritable { room := some 1024 }]

theorem cmgsThenCsq_log :
    ((gsmd .plain).exec (atcmdInit 0 true)
        (uartEvents (.init LGSM_ATCMD_F_EXTENDED) cmgsThenCsq)).2 =
      [.wrote 0 [] (ascii "AT+CMGS=1") true, .wrote 0 (ascii "AT+CMGS=1\n") (ascii "00\x1a") true,
        .sentAll 0] := by
  decide

/-- The submit wakes the writer, and the message goes out with no prompt. -/
theorem csq_wakes_cmgs :
    ¬ Explained Prompted ((gsmd .plain).exec (atcmdInit 0 true)
      (uartEvents (.init LGSM_ATCMD_F_EXTENDED) cmgsThenCsq)).2 := by
  rw [cmgsThenCsq_log]
  intro hall
  obtain ⟨since, ⟨⟨before, passed, sent, cr, hlog, -⟩, -⟩, hprompt⟩ :=
    hall [.wrote 0 [] (ascii "AT+CMGS=1") true] _ _ rfl (by decide)
  have hmem : GsmdObs.prompt ∈ [GsmdObs.wrote 0 [] (ascii "AT+CMGS=1") true] := by
    rw [hlog]
    simp [hprompt]
  simp at hmem

end Openmoko.Gsmd
