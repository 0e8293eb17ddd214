import Openmoko.Gsmd.Proof.AtcmdSteps

/-!
# A client goes away

When the socket of a client is closed, `atcmd_terminate_matching` ends every command the client has
in the queues before its `struct gsmd_user` is freed. Commands that wait for their answer stay where
they are, without callback and context. No callback that is given a client touches the queues.
-/

namespace Openmoko.Gsmd

def ESHUTDOWN : Int := 108

def NULL : ℕ := 0

def GsmdAtcmd.terminated (cmd : GsmdAtcmd) : GsmdAtcmd :=
  { cmd with ret := -ESHUTDOWN, cb := none, ctx := NULL }

def callTerminated (cmd : GsmdAtcmd) : Option GsmdObs :=
  cmd.cb.map fun _ => .callback cmd.addr (-ESHUTDOWN) (ascii "ERROR")

def terminateLoop (ctx : ℕ) (left : GsmdAtcmd → List GsmdAtcmd) (after : GsmdAtcmd → List GsmdObs) :
    List GsmdAtcmd → Option (List GsmdAtcmd × ℕ × List GsmdObs)
  | [] => some ([], 0, [])
  | cmd :: cmds =>
    if cmd.ctx = ctx then do
      let called ← callTerminated cmd
      let (cmds, num, obs) ← terminateLoop ctx left after cmds
      some (left cmd ++ cmds, num + 1, called :: after cmd ++ obs)
    else do
      let (cmds, num, obs) ← terminateLoop ctx left after cmds
      some (cmd :: cmds, num, obs)

def terminateBusy (ctx : ℕ) : List GsmdAtcmd → Option (List GsmdAtcmd × ℕ × List GsmdObs) :=
  terminateLoop ctx (fun cmd => [cmd.terminated]) fun _ => []

def terminatePending (ctx : ℕ) : List GsmdAtcmd → Option (List GsmdAtcmd × ℕ × List GsmdObs) :=
  terminateLoop ctx (fun _ => []) fun cmd => [.freed cmd.addr]

/-- `atcmd_terminate_matching`: the state after it, its result and what is seen of it, unless it calls
through a NULL pointer. -/
def atcmdTerminateMatching (g : GsmdState) (ctx : ℕ) : Option (GsmdState × ℕ × List GsmdObs) := do
  let (busy, busyNum, busyObs) ← terminateBusy ctx g.busyAtcmds
  let (pending, pendingNum, pendingObs) ← terminatePending ctx g.pendingAtcmds
  some ({ g with busyAtcmds := busy, pendingAtcmds := pending }, busyNum + pendingNum,
    busyObs ++ pendingObs)

end Openmoko.Gsmd

/-!
## After a client has gone

Nothing in the queues knows the client any more, and since a command is only ever called back from
the head of `busy_atcmds`, nothing will. That is if every command of the client had a callback.
-/

namespace Openmoko.Gsmd

def queuedCmds (g : GsmdState) : List GsmdAtcmd := g.busyAtcmds ++ g.pendingAtcmds

def cmdsOf (ctx : ℕ) (cmds : List GsmdAtcmd) : List GsmdAtcmd := cmds.filter fun cmd => cmd.ctx = ctx

def GsmdObs.callback? : GsmdObs → Option (ℕ × Int × List Byte)
  | .callback addr ret resp => some (addr, ret, resp)
  | _ => none

def NotFrom (ctx : ℕ) (_ : GsmdState) : GsmdEvent → Prop
  | .atcmdSubmit fill => fill.ctx ≠ ctx
  | .cancelAtcmd fill => fill.ctx ≠ ctx
  | _ => True

def NeverCalls (env : GsmdEnv) (ctx : ℕ) (g : GsmdState) (e : GsmdEvent) : Prop :=
  ∀ addr ret resp, .callback addr ret resp ∈ (gsmdStep env g e).2 →
    ∃ cmd ∈ g.busyAtcmds.head?, cmd.addr = addr ∧ cmd.cb ≠ none ∧ cmd.ctx ≠ ctx

structure TornDown (env : GsmdEnv) (g : GsmdState) (ctx : ℕ) (g' : GsmdState) (num : ℕ)
    (obs : List GsmdObs) : Prop where
  -- every command of the client is called back, once
  called : obs.filterMap GsmdObs.callback? =
    (cmdsOf ctx (queuedCmds g)).map fun cmd => (cmd.addr, -ESHUTDOWN, ascii "ERROR")
  counted : num = (cmdsOf ctx (queuedCmds g)).length
  pending : g'.pendingAtcmds = g.pendingAtcmds.filter fun cmd => cmd.ctx ≠ ctx
  busy : g'.busyAtcmds = g.busyAtcmds.map fun cmd => if cmd.ctx = ctx then cmd.terminated else cmd
  frame : g' = { g with busyAtcmds := g'.busyAtcmds, pendingAtcmds := g'.pendingAtcmds }
  -- and never again, whatever happens
  later : ∀ events : List GsmdEvent, (gsmd env).Meets (NotFrom ctx) g' events →
    (∀ cmd ∈ queuedCmds ((gsmd env).exec g' events).1, cmd.ctx ≠ ctx) ∧
      ∀ e, NeverCalls env ctx ((gsmd env).exec g' events).1 e

def terminatedCall (cmd : GsmdAtcmd) : GsmdObs :=
  .callback cmd.addr (-ESHUTDOWN) (ascii "ERROR")

variable {cmd : GsmdAtcmd}

theorem callTerminated_eq (hcb : cmd.cb ≠ none) :
    callTerminated cmd = some (terminatedCall cmd) := by
  obtain ⟨cb, hcb⟩ := Option.ne_none_iff_exists'.mp hcb
  rw [callTerminated, hcb]
  rfl

section Loops

variable {ctx : ℕ} {left : GsmdAtcmd → List GsmdAtcmd} {after : GsmdAtcmd → List GsmdObs}

theorem terminateLoop_eq {cmds : List GsmdAtcmd}
    (hcb : ∀ cmd ∈ cmds, cmd.ctx = ctx → cmd.cb ≠ none) :
    terminateLoop ctx left after cmds =
      some (cmds.flatMap fun cmd => if cmd.ctx = ctx then left cmd else [cmd],
        (cmdsOf ctx cmds).length,
        (cmdsOf ctx cmds).flatMap fun cmd => terminatedCall cmd :: after cmd) := by
  induction cmds with
  | nil => rfl
  | cons cmd cmds ih =>
    have hrest := ih fun c hc => hcb c (List.mem_cons_of_mem _ hc)
    by_cases hctx : cmd.ctx = ctx
    · have hhead := callTerminated_eq (hcb cmd List.mem_cons_self hctx)
      rw [terminateLoop, if_pos hctx, hhead, hrest]
      simp [cmdsOf, hctx]
    · rw [terminateLoop, if_neg hctx, hrest]
      simp [cmdsOf, hctx]

theorem terminateLoop_none {cmds : List GsmdAtcmd} (hcmd : cmd ∈ cmds)
    (hctx : cmd.ctx = ctx) (hcb : cmd.cb = none) : terminateLoop ctx left after cmds = none := by
  induction cmds with
  | nil => cases hcmd
  | cons head cmds ih =>
    rw [terminateLoop]
    rcases List.mem_cons.mp hcmd with rfl | hmem
    · have hnone : callTerminated cmd = none := by rw [callTerminated, hcb, Option.map_none]
      rw [if_pos hctx, hnone]
      rfl
    · rw [ih hmem]
      by_cases hhead : head.ctx = ctx
      · rw [if_pos hhead]
        cases callTerminated head <;> rfl
      · rw [if_neg hhead]
        rfl

end Loops

structure CallsHead (g : GsmdState) (ctxs : List ℕ) (result : GsmdState × List GsmdObs) : Prop where
  queued : ∀ cmd ∈ queuedCmds result.1, cmd.ctx ∈ ctxs ∨ ∃ old ∈ queuedCmds g, old.ctx = cmd.ctx
  called : ∀ addr ret resp, .callback addr ret resp ∈ result.2 →
    ∃ cmd ∈ g.busyAtcmds.head?, cmd.addr = addr ∧ cmd.cb ≠ none

def GsmdEvent.ctxs : GsmdEvent → List ℕ
  | .atcmdSubmit fill => [fill.ctx]
  | .cancelAtcmd fill => [fill.ctx]
  | _ => []

section Steps

variable {env : GsmdEnv} {g g' : GsmdState} {obs : List GsmdObs}

variable {ctxs : List ℕ}

theorem CallsHead.of_queued_eq (hqueued : queuedCmds g' = queuedCmds g)
    (hcalled : ∀ addr ret resp, GsmdObs.callback addr ret resp ∈ obs →
      ∃ cmd ∈ g.busyAtcmds.head?, cmd.addr = addr ∧ cmd.cb ≠ none) :
    CallsHead g ctxs (g', obs) := by
  refine ⟨fun cmd hcmd => Or.inr ⟨cmd, ?_, rfl⟩, hcalled⟩
  rw [← hqueued]
  exact hcmd

theorem CallsHead.of_silent (hqueued : queuedCmds g' = queuedCmds g)
    (hsilent : ∀ addr ret resp, GsmdObs.callback addr ret resp ∉ obs) :
    CallsHead g ctxs (g', obs) :=
  .of_queued_eq hqueued fun addr ret resp hmem => absurd hmem (hsilent addr ret resp)

theorem CallsHead.of_done {busy : List GsmdAtcmd} (hbusy : g.busyAtcmds = cmd :: busy)
    (hpending : ∀ c ∈ g'.pendingAtcmds, c.ctx ∈ ctxs ∨ c ∈ g.pendingAtcmds)
    (hcalled : ∀ addr ret resp, GsmdObs.callback addr ret resp ∈ obs →
      cmd.addr = addr ∧ cmd.cb ≠ none) :
    CallsHead g ctxs (passNextPending g' busy, obs) := by
  constructor
  · intro c hc
    rw [passNextPending_eq] at hc
    rcases List.mem_append.mp hc with hmem | hmem
    · refine Or.inr ⟨c, List.mem_append_left _ ?_, rfl⟩
      rw [hbusy]
      exact List.mem_cons_of_mem _ hmem
    · rcases hpending c hmem with hctx | hold
      · exact Or.inl hctx
      · exact Or.inr ⟨c, List.mem_append_right _ hold, rfl⟩
  · intro addr ret resp hmem
    exact ⟨cmd, by rw [hbusy]; rfl, hcalled addr ret resp hmem⟩

theorem callback_mem_doneObs {buf : List Byte} {addr : ℕ} {ret : Int}
    {resp : List Byte} (hmem : .callback addr ret resp ∈ doneObs g cmd buf) :
    cmd.addr = addr ∧ cmd.cb ≠ none := by
  obtain ⟨resp', heq⟩ := mem_doneObs hmem
  cases heq
  refine ⟨rfl, fun hcb => ?_⟩
  rw [doneObs, hcb] at hmem
  cases hmem

theorem callsHead_cancel (cmd : GsmdAtcmd) : CallsHead g [cmd.ctx] (cancelAtcmd g cmd) := by
  unfold cancelAtcmd
  cases hbusy : g.busyAtcmds with
  | nil =>
    rw [atcmdSubmit_eq]
    refine ⟨fun c hc => ?_, fun addr ret resp hmem => by cases hmem⟩
    simp only [queuedCmds, hbusy, List.nil_append, List.mem_append, List.mem_singleton] at hc ⊢
    rcases hc with hold | rfl
    · exact Or.inr ⟨c, hold, rfl⟩
    · exact Or.inl rfl
  | cons cur busy =>
    dsimp only
    rw [atcmdDone_eq]
    apply CallsHead.of_done hbusy
    · intro c hc
      rcases List.mem_cons.mp hc with rfl | hold
      · exact Or.inl (List.mem_singleton.mpr rfl)
      · exact Or.inr hold
    · intro addr ret resp hmem
      rcases List.mem_append.mp hmem with hdone | hfreed
      · exact callback_mem_doneObs hdone
      · cases List.mem_singleton.mp hfreed

theorem callsHead_mlFinal (buf : List Byte) (ret : Option Int) (event : Option ErrorEvent) :
    CallsHead g [] (mlFinal g buf ret event) := by
  unfold mlFinal
  cases hbusy : g.busyAtcmds with
  | nil => exact .of_silent rfl fun addr ret resp hmem => by cases hmem
  | cons cmd busy =>
    simp only [atcmdDone_eq]
    apply CallsHead.of_done hbusy
    · exact fun c hc => Or.inr hc
    · intro addr ret' resp hmem
      rcases List.mem_append.mp hmem with hevent | hdone
      · cases mem_errorEvent hevent
      rcases List.mem_append.mp hdone with hdone | hfreed
      · obtain ⟨haddr, hcb⟩ := callback_mem_doneObs hdone
        exact ⟨haddr, hcb⟩
      · cases List.mem_singleton.mp hfreed

theorem queuedCmds_mlAppend (buf : List Byte) (parse : UnsolicitParse) :
    queuedCmds (mlAppend env g buf parse) = queuedCmds g := by
  rcases mlAppend_cases env g buf parse with heq | ⟨-, heq⟩ <;> rw [heq] <;> rfl

theorem callsHead_mlFlush : CallsHead g [] (mlFlush g) := by
  cases hbusy : g.busyAtcmds with
  | nil =>
    have hflush : mlFlush g = (g, []) := by simp only [mlFlush, hbusy]
    rw [hflush]
    exact .of_silent rfl fun addr ret resp hmem => by cases hmem
  | cons cmd busy =>
    rcases mlFlush_cases hbusy with ⟨-, heq⟩ | ⟨-, -, heq⟩ | ⟨-, hcb, heq⟩
    · rw [heq]
      exact .of_silent rfl fun addr ret resp hmem => by cases hmem
    · rw [heq]
      exact .of_silent rfl fun addr ret resp hmem => by cases hmem
    · rw [heq]
      apply CallsHead.of_queued_eq
      · rfl
      · intro addr ret resp hmem
        cases List.mem_singleton.mp hmem
        exact ⟨cmd, by rw [hbusy]; rfl, rfl, hcb⟩

theorem callsHead_mlParse (buf : List Byte) (parse : UnsolicitParse) :
    CallsHead g [] (mlParse env g buf parse) := by
  unfold mlParse
  cases mlLabel env g (cstr buf) parse with
  | ready => exact .of_silent rfl fun addr ret resp hmem => by cases hmem
  | done => exact .of_silent rfl fun addr ret resp hmem => by cases hmem
  | multiline => exact .of_silent rfl fun addr ret resp hmem => by cases hmem
  | finalCb ret event =>
    have hfinal := callsHead_mlFinal (g := g) buf ret event
    refine ⟨hfinal.queued, fun addr ret' resp hmem => ?_⟩
    rcases List.mem_cons.mp hmem with heq | hmem
    · cases heq
    · exact hfinal.called addr ret' resp hmem
  | info ofCmd =>
    have hflush : CallsHead g [] (if ofCmd = true then mlFlush g else (g, [])) := by
      cases ofCmd with
      | false => exact .of_silent rfl fun addr ret resp hmem => by cases hmem
      | true => exact callsHead_mlFlush
    constructor
    · intro cmd hcmd
      rw [queuedCmds_mlAppend] at hcmd
      exact hflush.queued cmd hcmd
    · intro addr ret resp hmem
      rcases List.mem_append.mp hmem with hmem | hinfo
      · exact hflush.called addr ret resp hmem
      · cases List.mem_singleton.mp hinfo

theorem callsHead_uart (uart : UartWrite) : CallsHead g [] (uartWritable g uart) := by
  rcases uartWritable_cases g uart with ⟨flag, -, heq⟩ | ⟨pos, pending, rc, hwrites⟩
  · rw [heq]
    exact .of_silent rfl fun addr ret resp hmem => by cases hmem
  · have houtcome := hwrites.outcome
    have hpos : pos ∈ queuedCmds g := by
      apply List.mem_append_right
      rw [hwrites.head]
      exact List.mem_cons_self
    have hrest : ∀ cmd ∈ pending, cmd ∈ queuedCmds g := by
      intro cmd hcmd
      apply List.mem_append_right
      rw [hwrites.head]
      exact List.mem_cons_of_mem _ hcmd
    have hbusy : ∀ cmd ∈ g.busyAtcmds, cmd ∈ queuedCmds g := fun cmd hcmd =>
      List.mem_append_left _ hcmd
    split at houtcome
    · rw [houtcome]
      constructor
      · intro cmd hcmd
        right
        simp only [queuedCmds, List.mem_append, List.mem_singleton] at hcmd
        rcases hcmd with (hold | rfl) | hold
        · exact ⟨cmd, hbusy cmd hold, rfl⟩
        · exact ⟨pos, hpos, rfl⟩
        · exact ⟨cmd, hrest cmd hold, rfl⟩
      · intro addr ret resp hmem
        simp at hmem
    · rw [houtcome]
      constructor
      · intro cmd hcmd
        right
        simp only [queuedCmds, List.mem_append, List.mem_cons] at hcmd
        rcases hcmd with hold | rfl | hold
        · exact ⟨cmd, hbusy cmd hold, rfl⟩
        · exact ⟨pos, hpos, rfl⟩
        · exact ⟨cmd, hrest cmd hold, rfl⟩
      · intro addr ret resp hmem
        simp at hmem

theorem callsHead_timer (tmr : GsmdTimer) : CallsHead g [] (timerExpired g tmr) := by
  unfold timerExpired
  cases tmr.func with
  | aliveTimer => exact .of_silent rfl fun addr ret resp hmem => by cases hmem
  | discardTimer =>
    simp only [discardTimeout]
    cases hbusy : g.busyAtcmds with
    | nil => exact .of_silent rfl fun addr ret resp hmem => by cases hmem
    | cons cmd busy =>
      by_cases htimeout : cmd.timeout = some tmr
      · simp only [ne_eq, htimeout, not_true_eq_false, if_false]
        apply CallsHead.of_done hbusy
        · exact fun c hc => Or.inr hc
        · intro addr ret resp hmem
          cases hcb : cmd.cb with
          | none => simp [hcb] at hmem
          | some cb =>
            simp only [hcb, List.mem_append, List.mem_singleton, reduceCtorEq, or_false,
              GsmdObs.callback.injEq] at hmem
            exact ⟨hmem.1.symm, Option.some_ne_none cb⟩
      · simp only [ne_eq, htimeout, not_false_iff, if_true]
        exact .of_silent rfl fun addr ret resp hmem => by cases hmem

theorem gsmdStep_callsHead (env : GsmdEnv) (g : GsmdState) (e : GsmdEvent) :
    CallsHead g e.ctxs (gsmdStep env g e) := by
  cases e with
  | atcmdSubmit fill =>
    simp only [gsmdStep, atcmdSubmit_eq]
    refine ⟨fun cmd hcmd => ?_, fun addr ret resp hmem => by cases hmem⟩
    simp only [queuedCmds, List.mem_append, List.mem_singleton] at hcmd
    rcases hcmd with hold | hold | rfl
    · exact Or.inr ⟨cmd, List.mem_append_left _ hold, rfl⟩
    · exact Or.inr ⟨cmd, List.mem_append_right _ hold, rfl⟩
    · exact Or.inl (List.mem_singleton.mpr rfl)
  | cancelAtcmd fill =>
    have hcancel := callsHead_cancel (g := { g with next := g.next + 1 }) (atcmdFill g.next fill)
    exact ⟨hcancel.queued, hcancel.called⟩
  | mlParse buf parse => exact callsHead_mlParse buf parse
  | atcmdPrompt =>
    refine .of_silent rfl fun addr ret resp hmem => ?_
    cases List.mem_singleton.mp hmem
  | uartWritable uart => exact callsHead_uart uart
  | timerExpired tmr => exact callsHead_timer tmr

end Steps

variable (env : GsmdEnv) {g : GsmdState} {ctx : ℕ}

theorem exec_notFrom (hclean : ∀ cmd ∈ queuedCmds g, cmd.ctx ≠ ctx) {events : List GsmdEvent}
    (hevents : (gsmd env).Meets (NotFrom ctx) g events) :
    ∀ cmd ∈ queuedCmds ((gsmd env).exec g events).1, cmd.ctx ≠ ctx := by
  refine (gsmd env).exec_inv (fun g _ => ∀ cmd ∈ queuedCmds g, cmd.ctx ≠ ctx) hclean ?_ hevents
  intro g _ e hinv hfrom cmd hcmd
  rcases (gsmdStep_callsHead env g e).queued cmd hcmd with hctx | ⟨old, hold, heq⟩
  · cases e with
    | atcmdSubmit fill =>
      rw [List.mem_singleton.mp hctx]
      exact hfrom
    | cancelAtcmd fill =>
      rw [List.mem_singleton.mp hctx]
      exact hfrom
    | _ => cases hctx
  · rw [← heq]
    exact hinv old hold

theorem neverCalls_of_clean (hclean : ∀ cmd ∈ queuedCmds g, cmd.ctx ≠ ctx) (e : GsmdEvent) :
    NeverCalls env ctx g e := by
  intro addr ret resp hmem
  obtain ⟨cmd, hhead, haddr, hcb⟩ := (gsmdStep_callsHead env g e).called addr ret resp hmem
  refine ⟨cmd, hhead, haddr, hcb, hclean cmd ?_⟩
  exact List.mem_append_left _ (List.mem_of_mem_head? hhead)

theorem filterMap_callback_terminated (cmds : List GsmdAtcmd) (after : GsmdAtcmd → List GsmdObs)
    (hafter : ∀ cmd, (after cmd).filterMap GsmdObs.callback? = []) :
    (cmds.flatMap fun cmd => terminatedCall cmd :: after cmd).filterMap GsmdObs.callback? =
      cmds.map fun cmd => (cmd.addr, -ESHUTDOWN, ascii "ERROR") := by
  induction cmds with
  | nil => rfl
  | cons cmd cmds ih =>
    have hcall : (terminatedCall cmd).callback? = some (cmd.addr, -ESHUTDOWN, ascii "ERROR") := rfl
    rw [List.flatMap_cons, List.filterMap_append, ih, List.filterMap_cons_some hcall, hafter]
    rfl

theorem flatMap_terminated (cmds : List GsmdAtcmd) :
    (cmds.flatMap fun cmd => if cmd.ctx = ctx then [cmd.terminated] else [cmd]) =
      cmds.map fun cmd => if cmd.ctx = ctx then cmd.terminated else cmd := by
  induction cmds with
  | nil => rfl
  | cons cmd cmds ih =>
    rw [List.flatMap_cons, List.map_cons, ih]
    by_cases hctx : cmd.ctx = ctx
    · rw [if_pos hctx, if_pos hctx]
      rfl
    · rw [if_neg hctx, if_neg hctx]
      rfl

theorem flatMap_removed (cmds : List GsmdAtcmd) :
    (cmds.flatMap fun cmd => if cmd.ctx = ctx then [] else [cmd]) =
      cmds.filter fun cmd => cmd.ctx ≠ ctx := by
  induction cmds with
  | nil => rfl
  | cons cmd cmds ih =>
    rw [List.flatMap_cons, ih]
    by_cases hctx : cmd.ctx = ctx <;> simp [hctx]

def withoutClient (g : GsmdState) (ctx : ℕ) : GsmdState :=
  { g with
    busyAtcmds := g.busyAtcmds.map fun cmd => if cmd.ctx = ctx then cmd.terminated else cmd
    pendingAtcmds := g.pendingAtcmds.filter fun cmd => cmd.ctx ≠ ctx }

theorem atcmdTerminateMatching_eq
    (hcb : ∀ cmd ∈ queuedCmds g, cmd.ctx = ctx → cmd.cb ≠ none) :
    atcmdTerminateMatching g ctx =
      some (withoutClient g ctx, (cmdsOf ctx (queuedCmds g)).length,
        ((cmdsOf ctx g.busyAtcmds).flatMap fun cmd => [terminatedCall cmd]) ++
          (cmdsOf ctx g.pendingAtcmds).flatMap fun cmd =>
            [terminatedCall cmd, .freed cmd.addr]) := by
  have hbusy : terminateBusy ctx g.busyAtcmds = _ :=
    terminateLoop_eq fun cmd hcmd => hcb cmd (List.mem_append_left g.pendingAtcmds hcmd)
  have hpending : terminatePending ctx g.pendingAtcmds = _ :=
    terminateLoop_eq fun cmd hcmd => hcb cmd (List.mem_append_right g.busyAtcmds hcmd)
  rw [flatMap_terminated] at hbusy
  rw [flatMap_removed] at hpending
  have hcount : (cmdsOf ctx (queuedCmds g)).length =
      (cmdsOf ctx g.busyAtcmds).length + (cmdsOf ctx g.pendingAtcmds).length := by
    rw [queuedCmds, cmdsOf, List.filter_append, List.length_append]
    rfl
  rw [atcmdTerminateMatching, hbusy, hpending, hcount]
  rfl

theorem withoutClient_clean (g : GsmdState) (hclient : ctx ≠ NULL) :
    ∀ cmd ∈ queuedCmds (withoutClient g ctx), cmd.ctx ≠ ctx := by
  intro cmd hcmd
  rcases List.mem_append.mp hcmd with hbusy | hpending
  · obtain ⟨old, -, rfl⟩ := List.mem_map.mp hbusy
    by_cases hctx : old.ctx = ctx
    · rw [if_pos hctx]
      exact hclient.symm
    · rw [if_neg hctx]
      exact hctx
  · simpa using (List.mem_filter.mp hpending).2

/-- **Client teardown.** The client is taken out of the queues, told of each of its commands once and
never called back again, exactly when each of these commands has a callback. -/
theorem atcmdTerminateMatching_tornDown_iff (g : GsmdState) (ctx : ℕ) (hclient : ctx ≠ NULL) :
    (∃ g' num obs, atcmdTerminateMatching g ctx = some (g', num, obs) ∧
        TornDown env g ctx g' num obs) ↔
      ∀ cmd ∈ queuedCmds g, cmd.ctx = ctx → cmd.cb ≠ none := by
  constructor
  · rintro ⟨g', num, obs, hterm, -⟩ cmd hcmd hctx hcb
    rw [atcmdTerminateMatching] at hterm
    rcases List.mem_append.mp hcmd with hbusy | hpending
    · rw [terminateBusy, terminateLoop_none hbusy hctx hcb] at hterm
      cases hterm
    · rw [terminatePending, terminateLoop_none hpending hctx hcb] at hterm
      cases hloop : terminateBusy ctx g.busyAtcmds <;> simp [hloop] at hterm
  · intro hcb
    refine ⟨_, _, _, atcmdTerminateMatching_eq hcb, ?_⟩
    have hclean := withoutClient_clean g hclient
    constructor
    · rw [List.filterMap_append, filterMap_callback_terminated _ _ fun _ => rfl,
        filterMap_callback_terminated _ _ fun _ => rfl, ← List.map_append, queuedCmds, cmdsOf,
        cmdsOf, cmdsOf, List.filter_append]
    · rfl
    · rfl
    · rfl
    · rfl
    · intro events hevents
      have hlater := exec_notFrom env hclean hevents
      exact ⟨hlater, neverCalls_of_clean env hlater⟩

def askedState : GsmdState :=
  { atcmdInit 0 true with
    busyAtcmds := [atcmdFill 0 { cmd := ascii "AT+CSCA?", rlen := 9, cb := some 1, ctx := 7 }] }

/-- Its question is answered with an error. -/
theorem askedState_tornDown :
    ∃ g' num obs, atcmdTerminateMatching askedState 7 = some (g', num, obs) ∧
      TornDown .plain askedState 7 g' num obs := by
  apply (atcmdTerminateMatching_tornDown_iff .plain askedState 7 (by decide)).mpr
  intro cmd hcmd _
  rw [List.mem_singleton.mp hcmd]
  exact Option.some_ne_none 1

def centreSetState : GsmdState :=
  { atcmdInit 0 true with
    busyAtcmds := [atcmdFill 0 { cmd := ascii "AT+CSCA=\"1\",129", rlen := 16, cb := none, ctx := 7 }] }

/-- The call goes through a NULL pointer. -/
theorem centreSetState_not_tornDown :
    ¬∀ (env : GsmdEnv) (g : GsmdState) (ctx : ℕ), ctx ≠ NULL →
      ∃ g' num obs, atcmdTerminateMatching g ctx = some (g', num, obs) ∧
        TornDown env g ctx g' num obs := by
  intro hall
  obtain ⟨g', num, obs, hterm, -⟩ := hall .plain centreSetState 7 (by decide)
  have hloop : terminateBusy 7 centreSetState.busyAtcmds = none :=
    terminateLoop_none List.mem_cons_self rfl rfl
  rw [atcmdTerminateMatching, hloop] at hterm
  cases hterm

end Openmoko.Gsmd
