import Openmoko.Gsmd.Atcmd

/-!
# What one event of the daemon can do

Each entry point of the queue, field by field or case by case, so that an invariant is checked
against these facts and not against the code.
-/

namespace Openmoko.Gsmd

variable {env : GsmdEnv} {g : GsmdState}

theorem passNextPending_eq (g : GsmdState) (busy : List GsmdAtcmd) :
    passNextPending g busy =
      { g with
        busyAtcmds := busy
        whenWrite := g.whenWrite || decide (busy = [] ∧ g.pendingAtcmds ≠ []) } := by
  by_cases hnext : busy = [] ∧ g.pendingAtcmds ≠ []
  · simp [passNextPending, hnext, atcmdWakePendingQueue]
  · simp [passNextPending, hnext]

def doneObs (g : GsmdState) (cmd : GsmdAtcmd) (buf : List Byte) : List GsmdObs :=
  match cmd.cb with
  | none => []
  | some _ =>
    [.callback cmd.addr cmd.ret (if g.mlbuf.used ≠ [] then cstr g.mlbuf.used else cstr buf)]

variable {buf : List Byte} {cmd pos : GsmdAtcmd} {rc : Nat}

theorem mem_doneObs {o : GsmdObs} (ho : o ∈ doneObs g cmd buf) :
    ∃ resp, o = .callback cmd.addr cmd.ret resp := by
  unfold doneObs at ho
  cases hcb : cmd.cb with
  | none => simp [hcb] at ho
  | some cb =>
    rw [hcb] at ho
    exact ⟨_, List.mem_singleton.mp ho⟩

theorem atcmdDone_eq (cmd : GsmdAtcmd) (busy : List GsmdAtcmd) (buf : List Byte) :
    atcmdDone g cmd busy buf =
      (passNextPending { g with mlbuf := if cmd.cb = none then g.mlbuf else .cleared } busy,
        doneObs g cmd buf ++ [.freed cmd.addr]) := by
  cases hcb : cmd.cb <;> simp [atcmdDone, doneObs, hcb]

theorem atcmdSubmit_eq (g : GsmdState) (cmd : GsmdAtcmd) :
    atcmdSubmit g cmd =
      { g with
        pendingAtcmds := g.pendingAtcmds ++ [cmd]
        whenWrite := g.whenWrite || decide (g.busyAtcmds = []) } := by
  by_cases hbusy : g.busyAtcmds = []
  · simp [atcmdSubmit, hbusy, atcmdWakePendingQueue]
  · simp [atcmdSubmit, hbusy]

theorem mlAppend_cases (env : GsmdEnv) (g : GsmdState) (buf : List Byte) (parse : UnsolicitParse) :
    mlAppend env g buf parse = { g with mlbuf := g.mlbuf.append buf } ∨
      g.mlunsolicited = true ∧ mlAppend env g buf parse =
        { g with mlunsolicited := false, mlbuf := (g.mlbuf.append buf).discard } := by
  unfold mlAppend
  dsimp only
  split
  · next hdone => exact .inr ⟨hdone.1, rfl⟩
  · exact .inl rfl

theorem mlFlush_cases {busy : List GsmdAtcmd} (hbusy : g.busyAtcmds = cmd :: busy) :
    g.mlbuf.used = [] ∧ mlFlush g = (g, []) ∨
      g.mlbuf.used ≠ [] ∧ cmd.cb = none ∧
        mlFlush g = ({ g with mlbuf := g.mlbuf.discard }, []) ∨
      g.mlbuf.used ≠ [] ∧ cmd.cb ≠ none ∧
        mlFlush g = ({ g with mlbuf := .cleared },
          [.callback cmd.addr cmd.ret g.mlbuf.text]) := by
  unfold mlFlush
  rw [hbusy]
  by_cases hused : g.mlbuf.used = []
  · exact .inl ⟨hused, by simp [hused]⟩
  · cases hcb : cmd.cb with
    | none => exact .inr (.inl ⟨hused, rfl, by simp [hused, hcb]⟩)
    | some cb => exact .inr (.inr ⟨hused, by simp, by simp [hused, hcb]⟩)

theorem mlLabel_info_true {parse : UnsolicitParse} (hlabel : mlLabel env g buf parse = .info true) :
    ∃ cmd busy, g.busyAtcmds = cmd :: busy := by
  cases hbusy : g.busyAtcmds with
  | cons cmd busy => exact ⟨cmd, busy, rfl⟩
  | nil =>
    exfalso
    revert hlabel
    simp only [mlLabel, mlExtended, mlPlain, hbusy, List.head?_nil, Option.any_none]
    repeat' split
    all_goals simp

theorem mem_errorEvent {event : Option ErrorEvent} {number : Int} {o : GsmdObs}
    (ho : o ∈ if event.isSome = true then [GsmdObs.errorEvent number] else []) :
    o = .errorEvent number := by
  split at ho
  · exact List.mem_singleton.mp ho
  · exact absurd ho List.not_mem_nil

theorem mlFinal_cons {busy : List GsmdAtcmd} (hbusy : g.busyAtcmds = cmd :: busy)
    (buf : List Byte) (ret : Option Int) (event : Option ErrorEvent) :
    ∃ mlbuf told, mlFinal g buf ret event =
        (passNextPending { g with mlbuf := mlbuf } busy, told ++ [.freed cmd.addr]) ∧
      ∀ o ∈ told, (∃ number, o = .errorEvent number) ∨ ∃ number resp,
        o = .callback cmd.addr number resp := by
  simp only [mlFinal, hbusy, atcmdDone_eq]
  rw [← List.append_assoc]
  refine ⟨_, _, rfl, fun o ho => ?_⟩
  rcases List.mem_append.mp ho with hevent | hdone
  · exact .inl ⟨_, mem_errorEvent hevent⟩
  · obtain ⟨resp, heq⟩ := mem_doneObs hdone
    exact .inr ⟨_, resp, heq⟩

theorem mlParse_info {parse : UnsolicitParse} {ofCmd : Bool}
    (hlabel : mlLabel env g (cstr buf) parse = .info ofCmd) :
    ∃ mlbuf unsol told, mlParse env g buf parse =
        ({ g with mlbuf := mlbuf, mlunsolicited := unsol }, told ++ [.info (headAddr g) buf]) ∧
      ∀ o ∈ told, ∃ addr ret resp, o = .callback addr ret resp := by
  have hflush : ∃ mlbuf told, (if ofCmd = true then mlFlush g else (g, [])) =
      ({ g with mlbuf := mlbuf }, told) ∧ ∀ o ∈ told, ∃ addr ret resp,
        o = GsmdObs.callback addr ret resp := by
    cases ofCmd with
    | false => exact ⟨g.mlbuf, [], rfl, by simp⟩
    | true =>
      obtain ⟨cmd, busy, hcons⟩ := mlLabel_info_true hlabel
      rcases mlFlush_cases hcons with ⟨-, heq⟩ | ⟨-, -, heq⟩ | ⟨-, -, heq⟩
      · exact ⟨g.mlbuf, [], heq, by simp⟩
      · exact ⟨_, [], heq, by simp⟩
      · exact ⟨_, _, heq, fun o ho => ⟨_, _, _, List.mem_singleton.mp ho⟩⟩
  obtain ⟨mlbuf, told, heq, htold⟩ := hflush
  have happend := mlAppend_cases env { g with mlbuf := mlbuf } buf parse
  simp only [mlParse, hlabel, heq]
  rcases happend with happend | ⟨-, happend⟩
  · exact ⟨_, _, told, by rw [happend], htold⟩
  · exact ⟨_, _, told, by rw [happend], htold⟩

def WritesNothing (g : GsmdState) (result : GsmdState × List GsmdObs) : Prop :=
  ∃ flag, (flag = true → g.whenWrite = true) ∧ result = ({ g with whenWrite := flag }, [])

structure WritesHead (g : GsmdState) (uart : UartWrite) (pos : GsmdAtcmd)
    (pending : List GsmdAtcmd) (rc : Nat) (result : GsmdState × List GsmdObs) : Prop where
  asked : g.whenWrite = true
  head : g.pendingAtcmds = pos :: pending
  positive : 0 < rc
  bound : rc ≤ uartLineLen pos
  room : uart.room.elim False (rc = min · (uartLineLen pos))
  outcome :
    if pos.buflen ≤ uartSkip pos rc then
      result =
        ({ g with
            whenWrite := false
            pendingAtcmds := pending
            busyAtcmds := g.busyAtcmds ++
              [{ pos.advance (uartSkip pos rc) with
                  timeout := some { addr := g.next, func := pos.createTimerFunc } }]
            next := g.next + 1 },
          [.wrote pos.addr pos.passed ((pos.buf.drop pos.cur).take rc) uart.cr,
            .sentAll pos.addr])
    else
      result =
        ({ g with
            whenWrite := decide (uartSkip pos rc < uartLineLen pos)
            pendingAtcmds := pos.advance (uartSkip pos rc) :: pending },
          [.wrote pos.addr pos.passed ((pos.buf.drop pos.cur).take rc) uart.cr])

theorem uartWritable_cases (g : GsmdState) (uart : UartWrite) :
    WritesNothing g (uartWritable g uart) ∨
      ∃ pos pending rc, WritesHead g uart pos pending rc (uartWritable g uart) := by
  by_cases hasked : (g.whenWrite && g.interpreterReady) = true
  swap
  · exact .inl ⟨g.whenWrite, id, by simp [uartWritable, hasked]⟩
  have hflag : g.whenWrite = true := by simp_all
  cases hpending : g.pendingAtcmds with
  | nil =>
    refine .inl ⟨false, by simp, ?_⟩
    simp [uartWritable, hasked, uartWritePending, hpending, atcmdWaitPendingQueue]
  | cons pos pending =>
    cases hroom : uart.room with
    | none =>
      have hfails : uartWritable g uart = (g, []) := by
        simp [uartWritable, hasked, uartWritePending, hpending, hroom]
      exact .inl ⟨g.whenWrite, id, hfails⟩
    | some room =>
      by_cases hrc : min room (uartLineLen pos) = 0
      · refine .inl ⟨false, by simp, ?_⟩
        simp only [uartWritable, hasked, uartWritePending, hpending, hroom, hrc, if_true,
          atcmdWaitPendingQueue]
      · refine .inr ⟨pos, pending, min room (uartLineLen pos), hflag, hpending, by omega,
          by omega, by simp [hroom], ?_⟩
        simp only [uartWritable, hasked, uartWritePending, hpending, hroom, hrc, if_true,
          if_false, atcmdWaitPendingQueue, GsmdAtcmd.advance]
        by_cases hend : pos.buflen ≤ uartSkip pos (min room (uartLineLen pos))
        · have hzero : pos.buflen - uartSkip pos (min room (uartLineLen pos)) = 0 := by omega
          simp [hend, hzero]
        · have hzero : pos.buflen - uartSkip pos (min room (uartLineLen pos)) ≠ 0 := by omega
          by_cases hshort : uartSkip pos (min room (uartLineLen pos)) < uartLineLen pos
          · simp [hend, hzero, hshort, hflag]
          · simp [hend, hzero, hshort]

structure WellFilled (cmd : GsmdAtcmd) : Prop where
  padded : ∃ text pad, cmd.buf = text ++ List.replicate pad NUL ∧ NUL ∉ text
  inside : cmd.cur + cmd.buflen ≤ cmd.buf.length

theorem atcmdFill_wellFilled (addr : Nat) (fill : AtcmdFill) : WellFilled
    (atcmdFill addr fill) := by
  set cmd := cstr fill.cmd with hcmd
  set buflen := max cmd.length fill.rlen with hbuflen
  refine ⟨⟨cmd.take (buflen - 1), buflen - 1 - cmd.length + 1, ?_, fun hmem => ?_⟩, ?_⟩
  · show strncpy cmd (buflen - 1) ++ [NUL] = _
    rw [strncpy, List.take_append, List.take_replicate, List.replicate_succ', List.append_assoc]
    congr 3
    omega
  · exact nul_notMem_cstr fill.cmd (List.mem_of_mem_take hmem)
  · show 0 + buflen ≤ (strncpy cmd (buflen - 1) ++ [NUL]).length
    simp
    omega

theorem WellFilled.advance (hfilled : WellFilled pos)
    (hrc : rc ≤ pos.buflen) : WellFilled (pos.advance rc) := by
  refine ⟨hfilled.padded, ?_⟩
  have := hfilled.inside
  simp only [GsmdAtcmd.advance]
  omega

theorem WellFilled.drop (hfilled : WellFilled pos) :
    ∃ text pad, pos.buf.drop pos.cur = text ++ List.replicate pad NUL ∧ NUL ∉ text := by
  obtain ⟨text, pad, hbuf, hnul⟩ := hfilled.padded
  refine ⟨text.drop pos.cur, pad - (pos.cur - text.length), ?_, fun hmem => ?_⟩
  · rw [hbuf, List.drop_append, List.drop_replicate]
  · exact hnul (List.mem_of_mem_drop hmem)

theorem cstr_append_replicate_nul {text : List Byte} (hnul : NUL ∉ text) (pad : Nat) :
    cstr (text ++ List.replicate pad NUL) = text := by
  cases pad with
  | zero => simp [cstr_eq_self hnul]
  | succ pad => rw [List.replicate_succ, cstr_append_nul hnul]

def AtLineStart (cmd : GsmdAtcmd) : Prop := cmd.passed.getLast? = some LF

instance (cmd : GsmdAtcmd) : Decidable (AtLineStart cmd) :=
  inferInstanceAs (Decidable (_ = _))

theorem passed_advance (pos : GsmdAtcmd) (rc : Nat) :
    (pos.advance rc).passed = pos.passed ++ (pos.buf.drop pos.cur).take rc := by
  simp only [GsmdAtcmd.passed, GsmdAtcmd.advance, List.take_add]

theorem getLast?_append_take {passed mem : List Byte} {n : Nat} (hne : mem.take n ≠ [])
    (hlast : (passed ++ mem.take n).getLast? = some LF) : LF ∈ mem.take n := by
  rw [List.getLast?_append_of_ne_nil _ hne] at hlast
  exact List.mem_of_getLast? hlast

theorem atLineStart_advance (hfilled : WellFilled pos) (hpos : 0 < rc)
    (hrc : rc ≤ uartLineLen pos) (hstart : AtLineStart (pos.advance (uartSkip pos rc))) :
    uartLineLen pos < uartSkip pos rc ∧
      (pos.advance (uartSkip pos rc)).passed =
        pos.passed ++ (pos.buf.drop pos.cur).take rc ++ [LF] := by
  obtain ⟨text, pad, hmem, hnul⟩ := hfilled.drop
  have hleft : pos.left = text := by
    rw [GsmdAtcmd.left, hmem, cstr_append_replicate_nul hnul]
  have hzeros : ∀ n, LF ∉ List.replicate n NUL := by
    intro n hlf
    exact absurd (List.eq_of_mem_replicate hlf) (by decide)
  rw [AtLineStart, passed_advance] at hstart
  rw [passed_advance]
  by_cases hlf : LF ∈ text
  · obtain ⟨line, rest, rfl, hline⟩ := List.eq_append_cons_of_mem hlf
    have hchr : strchr pos.left LF = some line.length := by rw [hleft, strchr_append_cons hline]
    have hlen : uartLineLen pos = line.length := by rw [uartLineLen, hchr, Option.getD_some]
    rw [hmem] at hstart ⊢
    rw [hlen] at hrc ⊢
    by_cases hwhole : rc = line.length
    · have hskip : uartSkip pos rc = line.length + 1 := by
        rw [uartSkip, if_pos (.inr (by rw [hlen, hwhole])), hwhole]
      rw [hskip, hwhole]
      refine ⟨by omega, ?_⟩
      simp [List.take_append, List.take_of_length_le]
    · exfalso
      have hskip : uartSkip pos rc = rc := by
        rw [uartSkip, if_neg]
        rintro (hnone | heq)
        · simp [hchr] at hnone
        · exact hwhole (by rw [heq, hlen])
      have htake : (line ++ LF :: rest ++ List.replicate pad NUL).take rc = line.take rc := by
        rw [List.append_assoc, List.take_append_of_le_length hrc]
      rw [hskip, htake] at hstart
      have hne : line.take rc ≠ [] := by
        apply List.ne_nil_of_length_pos
        simp
        omega
      exact hline (List.mem_of_mem_take (getLast?_append_take hne hstart))
  · exfalso
    have hchr : strchr pos.left LF = none := by rw [hleft, strchr_eq_none_iff.mpr hlf]
    have hlen : uartLineLen pos = pos.buflen - 1 := by rw [uartLineLen, hchr, Option.getD_none]
    have hskip : uartSkip pos rc = rc + 1 := by rw [uartSkip, if_pos (.inl hchr)]
    have hinside := hfilled.inside
    have hne : (pos.buf.drop pos.cur).take (rc + 1) ≠ [] := by
      apply List.ne_nil_of_length_pos
      simp
      omega
    rw [hskip] at hstart
    have hmem' := List.mem_of_mem_take (getLast?_append_take hne hstart)
    rw [hmem] at hmem'
    rcases List.mem_append.mp hmem' with htext | hzero
    · exact hlf htext
    · exact hzeros pad hzero

theorem atLineStart_of_whole (hwhole : rc = uartLineLen pos)
    (hmore : ¬ pos.buflen ≤ uartSkip pos rc) : AtLineStart (pos.advance (uartSkip pos rc)) := by
  have hskip : uartSkip pos rc = uartLineLen pos + 1 := by
    rw [uartSkip, if_pos (.inr hwhole), hwhole]
  by_cases hlf : LF ∈ pos.left
  · obtain ⟨line, rest, hleft, hline⟩ := List.eq_append_cons_of_mem hlf
    have hlen : uartLineLen pos = line.length := by
      rw [uartLineLen, hleft, strchr_append_cons hline, Option.getD_some]
    obtain ⟨more, hmem⟩ : pos.left <+: pos.buf.drop pos.cur := List.takeWhile_prefix _
    rw [AtLineStart, passed_advance, hskip, hlen, ← hmem, hleft]
    simp [List.take_append, List.take_of_length_le]
  · exfalso
    rw [hskip, uartLineLen, strchr_eq_none_iff.mpr hlf, Option.getD_none] at hmore
    omega

end Openmoko.Gsmd
