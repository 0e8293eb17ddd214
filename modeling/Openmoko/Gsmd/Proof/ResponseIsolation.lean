import Openmoko.Gsmd.Proof.AtcmdSteps

/-!
# Which text a callback gets

`mlbuf` is one buffer for the responses of every command and for unsolicited codes that span two
lines. A callback gets what is its own as long as no step of the run leaves the text of one in the
buffer where the next one finds it, and `KeepsApart` lists the steps that would. The invariant is
`Apart`: what is in the buffer is made of lines received for the head of `busy_atcmds`, unless it is
an unsolicited code.
-/

namespace Openmoko.Gsmd

def OwnLines (log : List GsmdObs) (addr : Nat) (text : List Byte) : Prop :=
  ∃ pieces : List (List Byte), pieces ≠ [] ∧ text = [LF].intercalate pieces ∧
    ∀ piece ∈ pieces, ∃ line, .info (some addr) line ∈ log ∧ piece <+: line

def OwnResponse (log : List GsmdObs) (addr : Nat) (resp : List Byte) : Prop :=
  resp = ascii "Timeout" ∨ resp = ascii "ERROR" ∨
    (∃ line, .final (some addr) line ∈ log ∧ resp = cstr line) ∨
    ∃ text, OwnLines log addr text ∧ resp <+: text

def Responsive (before : List GsmdObs) : GsmdObs → Prop
  | .callback addr _ resp => OwnResponse before addr resp
  | _ => True

def LeavesNothing (g : GsmdState) : Prop :=
  g.mlbuf.used = [] ∨ g.mlunsolicited = true ∧ g.busyAtcmds.tail = []

def NothingHalfReceived (g : GsmdState) : Prop := g.mlbuf.used = [] ∨ g.mlunsolicited = false

def LabelKeepsApart (g : GsmdState) : MlLabel → Prop
  | .finalCb _ _ =>
    ∀ cmd ∈ g.busyAtcmds.head?, if cmd.cb = none then LeavesNothing g else NothingHalfReceived g
  | .info ofCmd =>
    (g.busyAtcmds ≠ [] ∨ g.mlunsolicited = true) ∧
      ∀ cmd ∈ g.busyAtcmds.head?, ofCmd = true → g.mlbuf.used ≠ [] → cmd.cb ≠ none →
        g.mlunsolicited = false ∧ g.mlbuf.rest.head?.getD NUL = NUL
  | _ => True

def KeepsApart (env : GsmdEnv) (g : GsmdState) : GsmdEvent → Prop
  | .mlParse buf parse => LabelKeepsApart g (mlLabel env g (cstr buf) parse)
  | .timerExpired tmr =>
    ∀ cmd ∈ g.busyAtcmds.head?, tmr.func = .discardTimer → cmd.timeout = some tmr →
      LeavesNothing g
  | .uartWritable uart =>
    ∀ pos ∈ g.pendingAtcmds.head?, ∀ room ∈ uart.room, g.busyAtcmds = [] →
      pos.buflen ≤ uartSkip pos (min room (uartLineLen pos)) → NothingHalfReceived g
  | _ => True

section Decidable

variable (env : GsmdEnv) (g : GsmdState)

instance : Decidable (LeavesNothing g) := inferInstanceAs (Decidable (_ ∨ _ ∧ _))

instance : Decidable (NothingHalfReceived g) := inferInstanceAs (Decidable (_ ∨ _))

instance : (label : MlLabel) → Decidable (LabelKeepsApart g label)
  | .finalCb _ _ => inferInstanceAs (Decidable (∀ cmd ∈ g.busyAtcmds.head?, _))
  | .info _ => inferInstanceAs (Decidable (_ ∧ ∀ cmd ∈ g.busyAtcmds.head?, _))
  | .ready | .done | .multiline => inferInstanceAs (Decidable True)

instance : (e : GsmdEvent) → Decidable (KeepsApart env g e)
  | .mlParse buf parse =>
    inferInstanceAs (Decidable (LabelKeepsApart g (mlLabel env g (cstr buf) parse)))
  | .timerExpired _ => inferInstanceAs (Decidable (∀ cmd ∈ g.busyAtcmds.head?, _))
  | .uartWritable uart =>
    inferInstanceAs (Decidable (∀ pos ∈ g.pendingAtcmds.head?, ∀ room ∈ uart.room, _))
  | .atcmdSubmit _ | .cancelAtcmd _ | .atcmdPrompt => inferInstanceAs (Decidable True)

end Decidable

def HeadClean (g g' : GsmdState) : Prop :=
  headAddr g' ≠ headAddr g → headAddr g' ≠ none → g'.mlbuf.used = []

def BufferOwned (g : GsmdState) (log : List GsmdObs) : Prop :=
  g.mlunsolicited = false → g.mlbuf.used ≠ [] →
    ∃ addr, headAddr g = some addr ∧ OwnLines log addr g.mlbuf.used

structure Apart (g : GsmdState) (log : List GsmdObs) : Prop where
  responsive : Explained Responsive log
  owned : BufferOwned g log

variable {buf : List Byte}

section Lines

variable {log : List GsmdObs} {addr : Nat} {text : List Byte}

theorem OwnLines.mono (hown : OwnLines log addr text) (obs : List GsmdObs) :
    OwnLines (log ++ obs) addr text := by
  obtain ⟨pieces, hne, htext, hpieces⟩ := hown
  refine ⟨pieces, hne, htext, fun piece hpiece => ?_⟩
  obtain ⟨line, hline, hstarts⟩ := hpieces piece hpiece
  exact ⟨line, List.mem_append_left _ hline, hstarts⟩

theorem intercalate_concat {pieces : List (List Byte)} (hne : pieces ≠ []) (piece : List Byte) :
    [LF].intercalate (pieces ++ [piece]) = [LF].intercalate pieces ++ LF :: piece := by
  induction pieces with
  | nil => exact absurd rfl hne
  | cons first pieces ih =>
    cases pieces with
    | nil => simp [List.intercalate]
    | cons second pieces =>
      have hih := ih (by simp)
      simp only [List.cons_append, List.intercalate_cons_cons] at hih ⊢
      rw [hih]
      simp

theorem Mlbuf.append_used (mlbuf : Mlbuf) (buf : List Byte) :
    ∃ piece, piece <+: buf ∧
      (mlbuf.append buf).used = if mlbuf.used = [] then piece else mlbuf.used ++ LF :: piece := by
  refine ⟨buf.take (mlbuf.newline.room buf.length), List.take_prefix _ _, ?_⟩
  by_cases hused : mlbuf.used = []
  · simp [Mlbuf.append, Mlbuf.newline, hused]
  · simp [Mlbuf.append, Mlbuf.newline, hused]

theorem OwnLines.append {mlbuf : Mlbuf} (hown : mlbuf.used ≠ [] → OwnLines log addr mlbuf.used)
    (hline : .info (some addr) buf ∈ log) : OwnLines log addr (mlbuf.append buf).used := by
  obtain ⟨piece, hstarts, hused⟩ := mlbuf.append_used buf
  by_cases hempty : mlbuf.used = []
  · rw [if_pos hempty] at hused
    exact ⟨[piece], by simp, by simp [hused, List.intercalate], by simpa using ⟨buf, hline, hstarts⟩⟩
  · rw [if_neg hempty] at hused
    obtain ⟨pieces, hne, htext, hpieces⟩ := hown hempty
    refine ⟨pieces ++ [piece], by simp, ?_, ?_⟩
    · rw [hused, htext, intercalate_concat hne]
    · intro piece' hpiece
      rcases List.mem_append.mp hpiece with hold | hnew
      · exact hpieces piece' hold
      · rw [List.mem_singleton.mp hnew]
        exact ⟨buf, hline, hstarts⟩

theorem Mlbuf.text_prefix {mlbuf : Mlbuf} (hnul : mlbuf.rest.head?.getD NUL = NUL) :
    mlbuf.text <+: mlbuf.used := by
  unfold Mlbuf.text
  cases hrest : mlbuf.rest with
  | nil =>
    rw [List.append_nil]
    exact List.takeWhile_prefix _
  | cons b rest =>
    have hb : b = NUL := by simpa [hrest] using hnul
    rw [hb]
    by_cases hmem : NUL ∈ mlbuf.used
    · obtain ⟨before, after, hsplit, hnot⟩ := List.eq_append_cons_of_mem hmem
      rw [hsplit, List.append_assoc, List.cons_append, cstr_append_nul hnot]
      exact List.prefix_append _ _
    · have hwhole : cstr (mlbuf.used ++ NUL :: rest) = mlbuf.used := cstr_append_nul hmem rest
      exact ⟨[], (List.append_nil _).trans hwhole⟩

end Lines

/-! ### Steps -/

section Steps

variable {env : GsmdEnv} {g g' : GsmdState} {log obs : List GsmdObs}

def isCallback : GsmdObs → Bool
  | .callback _ _ _ => true
  | _ => false

theorem responsive_append (hlog : Explained Responsive log) (obs : List GsmdObs)
    (hobs : ∀ o ∈ obs, isCallback o = false) : Explained Responsive (log ++ obs) := by
  apply hlog.append_of_forall
  intro o ho before
  have hnot := hobs o ho
  cases o with
  | callback addr ret resp => simp [isCallback] at hnot
  | _ => trivial

theorem Apart.frame (hinv : Apart g log) (hhead : headAddr g' = headAddr g)
    (hmlbuf : g'.mlbuf = g.mlbuf) (hunsol : g'.mlunsolicited = g.mlunsolicited)
    (hobs : ∀ o ∈ obs, isCallback o = false) : Apart g' (log ++ obs) := by
  refine ⟨responsive_append hinv.responsive obs hobs, fun hfalse hused => ?_⟩
  rw [hmlbuf] at hused ⊢
  rw [hunsol] at hfalse
  obtain ⟨addr, haddr, hown⟩ := hinv.owned hfalse hused
  exact ⟨addr, by rw [hhead, haddr], hown.mono obs⟩

theorem Apart.of_used_nil (hlog : Explained Responsive log) (hused : g.mlbuf.used = []) :
    Apart g log :=
  ⟨hlog, fun _ hne => absurd hused hne⟩

theorem Apart.done (g : GsmdState) (cmd : GsmdAtcmd) (busy : List GsmdAtcmd) (buf : List Byte)
    (hlog : Explained Responsive log)
    (hresp : cmd.cb ≠ none →
      OwnResponse log cmd.addr (if g.mlbuf.used ≠ [] then cstr g.mlbuf.used else cstr buf))
    (hleft : cmd.cb = none → g.mlbuf.used = [] ∨ g.mlunsolicited = true ∧ busy = []) :
    Apart (atcmdDone g cmd busy buf).1 (log ++ (atcmdDone g cmd busy buf).2) ∧
      ∀ old, HeadClean old (atcmdDone g cmd busy buf).1 := by
  rw [atcmdDone_eq, passNextPending_eq]
  have hresponsive : Explained Responsive (log ++ (doneObs g cmd buf ++ [.freed cmd.addr])) := by
    cases hcb : cmd.cb with
    | none => exact responsive_append hlog _ (by simp [doneObs, hcb, isCallback])
    | some cb =>
      rw [explained_append]
      refine ⟨hlog, ?_⟩
      simp only [doneObs, hcb, List.singleton_append, explained_cons, explained_nil, and_true,
        List.append_nil]
      exact ⟨hresp (by simp [hcb]), trivial⟩
  cases hcb : cmd.cb with
  | some cb =>
    refine ⟨Apart.of_used_nil hresponsive ?_, fun _ _ _ => ?_⟩ <;> simp [Mlbuf.cleared]
  | none =>
    rcases hleft hcb with hused | ⟨hunsol, hbusy⟩
    · exact ⟨Apart.of_used_nil hresponsive (by simpa using hused),
        fun _ _ _ => by simpa using hused⟩
    · refine ⟨⟨hresponsive, fun hfalse _ => ?_⟩, fun _ _ hsome => ?_⟩
      · simp [hunsol] at hfalse
      · simp [headAddr, hbusy] at hsome

theorem headAddr_cons {cmd : GsmdAtcmd} {busy : List GsmdAtcmd}
    (hbusy : g.busyAtcmds = cmd :: busy) :
    headAddr g = some cmd.addr := by
  simp [headAddr, hbusy]

theorem apart_final (ret : Option Int) (event : Option ErrorEvent) (hinv : Apart g log)
    (hcond : ∀ cmd ∈ g.busyAtcmds.head?,
      if cmd.cb = none then LeavesNothing g else NothingHalfReceived g) :
    Apart (mlFinal g buf ret event).1
        (log ++ .final (headAddr g) buf :: (mlFinal g buf ret event).2) ∧
      HeadClean g (mlFinal g buf ret event).1 := by
  cases hbusy : g.busyAtcmds with
  | nil =>
    simp only [mlFinal, hbusy]
    exact ⟨hinv.frame rfl rfl rfl (by simp [isCallback]), fun hne => absurd rfl hne⟩
  | cons cmd busy =>
    have hcmd := hcond cmd (by simp [hbusy])
    simp only [mlFinal, hbusy]
    rw [headAddr_cons hbusy]
    set events : List GsmdObs :=
      if event.isSome = true then [.errorEvent (ret.getD cmd.ret)] else [] with hevents
    have hquiet : ∀ o ∈ GsmdObs.final (some cmd.addr) buf :: events, isCallback o = false := by
      intro o ho
      rcases List.mem_cons.mp ho with rfl | hmem
      · rfl
      · rw [mem_errorEvent hmem]
        rfl
    have hdone := Apart.done g { cmd with ret := ret.getD cmd.ret } busy buf
      (responsive_append hinv.responsive _ hquiet) ?_ ?_
    · exact ⟨by simpa using hdone.1, hdone.2 g⟩
    · intro hcb
      rw [if_neg hcb] at hcmd
      by_cases hused : g.mlbuf.used = []
      · rw [if_neg (by simpa using hused)]
        exact .inr (.inr (.inl ⟨buf, by simp, rfl⟩))
      · rw [if_pos hused]
        have hfalse := hcmd.resolve_left hused
        obtain ⟨addr, haddr, hown⟩ := hinv.owned hfalse hused
        rw [headAddr_cons hbusy] at haddr
        obtain rfl := Option.some.inj haddr
        exact .inr (.inr (.inr ⟨_, hown.mono _, List.takeWhile_prefix _⟩))
    · intro hcb
      rw [if_pos hcb] at hcmd
      simpa [LeavesNothing, hbusy] using hcmd

theorem apart_append (env : GsmdEnv) (buf : List Byte) (parse : UnsolicitParse) (hinv : Apart g log)
    (hbusy : g.busyAtcmds ≠ [] ∨ g.mlunsolicited = true) :
    Apart (mlAppend env g buf parse) (log ++ [.info (headAddr g) buf]) := by
  have hresponsive := responsive_append hinv.responsive [.info (headAddr g) buf]
    (by simp [isCallback])
  rcases mlAppend_cases env g buf parse with heq | ⟨-, heq⟩
  · rw [heq]
    refine ⟨hresponsive, fun hfalse _ => ?_⟩
    have hne := hbusy.resolve_right (by simpa using hfalse)
    obtain ⟨cmd, busy, hcons⟩ := List.exists_cons_of_ne_nil hne
    refine ⟨cmd.addr, headAddr_cons hcons, OwnLines.append (fun hused => ?_) ?_⟩
    · obtain ⟨addr, haddr, hown⟩ := hinv.owned hfalse hused
      rw [headAddr_cons hcons] at haddr
      obtain rfl := Option.some.inj haddr
      exact hown.mono _
    · rw [headAddr_cons hcons]
      simp
  · rw [heq]
    exact Apart.of_used_nil hresponsive rfl

theorem apart_flush (hinv : Apart g log)
    (hcond : ∀ cmd ∈ g.busyAtcmds.head?, g.mlbuf.used ≠ [] → cmd.cb ≠ none →
      g.mlunsolicited = false ∧ g.mlbuf.rest.head?.getD NUL = NUL)
    {cmd : GsmdAtcmd} {busy : List GsmdAtcmd} (hbusy : g.busyAtcmds = cmd :: busy) :
    Apart (mlFlush g).1 (log ++ (mlFlush g).2) := by
  rcases mlFlush_cases hbusy with ⟨-, heq⟩ | ⟨-, -, heq⟩ | ⟨hused, hcb, heq⟩
  · rw [heq]
    exact hinv.frame rfl rfl rfl (by simp)
  · rw [heq]
    exact Apart.of_used_nil (responsive_append hinv.responsive _ (by simp)) rfl
  · rw [heq]
    obtain ⟨hfalse, hnul⟩ := hcond cmd (by simp [hbusy]) hused hcb
    obtain ⟨addr, haddr, hown⟩ := hinv.owned hfalse hused
    rw [headAddr_cons hbusy] at haddr
    obtain rfl := Option.some.inj haddr
    refine Apart.of_used_nil ?_ rfl
    rw [explained_append, explained_singleton]
    refine ⟨hinv.responsive, ?_⟩
    rw [List.append_nil]
    exact .inr (.inr (.inr ⟨_, hown, Mlbuf.text_prefix hnul⟩))

theorem HeadClean.of_same (hhead : headAddr g' = headAddr g) : HeadClean g g' :=
  fun hne => absurd hhead hne

theorem apart_mlParse {parse : UnsolicitParse} (hinv : Apart g log)
    (hcond : LabelKeepsApart g (mlLabel env g (cstr buf) parse)) :
    Apart (mlParse env g buf parse).1 (log ++ (mlParse env g buf parse).2) ∧
      HeadClean g (mlParse env g buf parse).1 := by
  unfold mlParse
  cases hlabel : mlLabel env g (cstr buf) parse with
  | ready => exact ⟨hinv.frame rfl rfl rfl (by simp), .of_same rfl⟩
  | done => exact ⟨hinv.frame rfl rfl rfl (by simp), .of_same rfl⟩
  | multiline =>
    refine ⟨⟨responsive_append hinv.responsive _ (by simp), fun hfalse => ?_⟩, .of_same rfl⟩
    simp at hfalse
  | finalCb ret event =>
    rw [hlabel] at hcond
    exact apart_final ret event hinv hcond
  | info ofCmd =>
    rw [hlabel] at hcond
    obtain ⟨hbusy, hflush⟩ := hcond
    cases ofCmd with
    | false =>
      have happend := apart_append env buf parse hinv hbusy
      refine ⟨happend, .of_same ?_⟩
      rcases mlAppend_cases env g buf parse with heq | ⟨-, heq⟩ <;> simp [heq, headAddr]
    | true =>
      obtain ⟨cmd, busy, hcons⟩ := mlLabel_info_true hlabel
      have hflushed := apart_flush hinv (fun cmd hcmd => hflush cmd hcmd rfl) hcons
      have hsame : (mlFlush g).1.busyAtcmds = g.busyAtcmds := by
        rcases mlFlush_cases hcons with ⟨-, heq⟩ | ⟨-, -, heq⟩ | ⟨-, -, heq⟩ <;> rw [heq]
      have hhead : headAddr (mlFlush g).1 = headAddr g := by rw [headAddr, hsame, headAddr]
      have happend := apart_append env buf parse hflushed
        (.inl (by simp [hsame, hcons]))
      rw [hhead, List.append_assoc] at happend
      refine ⟨happend, .of_same ?_⟩
      rw [← hhead]
      rcases mlAppend_cases env (mlFlush g).1 buf parse with heq | ⟨-, heq⟩ <;>
        simp [heq, headAddr]

theorem Apart.timeout_responsive (hinv : Apart g log) (tmr : GsmdTimer) :
    Explained Responsive (log ++ (discardTimeout g tmr).2) := by
  rw [explained_append]
  refine ⟨hinv.responsive, ?_⟩
  unfold discardTimeout
  cases g.busyAtcmds with
  | nil => simp
  | cons cmd busy =>
    by_cases htimeout : cmd.timeout ≠ some tmr
    · simp [htimeout]
    · cases hcb : cmd.cb with
      | none => simp [htimeout, hcb, explained_cons, Responsive]
      | some cb => simp [htimeout, hcb, explained_cons, Responsive, OwnResponse]

theorem apart_timer {tmr : GsmdTimer} (hinv : Apart g log)
    (hcond : KeepsApart env g (.timerExpired tmr)) :
    Apart (timerExpired g tmr).1 (log ++ (timerExpired g tmr).2) ∧
      HeadClean g (timerExpired g tmr).1 := by
  unfold timerExpired
  cases hfunc : tmr.func with
  | aliveTimer => exact ⟨hinv.frame rfl rfl rfl (by simp), .of_same rfl⟩
  | discardTimer =>
    unfold discardTimeout
    cases hbusy : g.busyAtcmds with
    | nil => exact ⟨hinv.frame rfl rfl rfl (by simp), .of_same rfl⟩
    | cons cmd busy =>
      by_cases htimeout : cmd.timeout = some tmr
      swap
      · simp only [ne_eq, htimeout, not_false_iff, if_true]
        exact ⟨hinv.frame rfl rfl rfl (by simp), .of_same rfl⟩
      have hleft : LeavesNothing g := hcond cmd (by simp [hbusy]) hfunc htimeout
      simp only [ne_eq, htimeout, not_true_eq_false, if_false, passNextPending_eq]
      have hresponsive := hinv.timeout_responsive tmr
      simp only [discardTimeout, hbusy, ne_eq, htimeout, not_true_eq_false, if_false]
        at hresponsive
      rcases hleft with hused | ⟨hunsol, htail⟩
      · exact ⟨Apart.of_used_nil hresponsive hused, fun _ _ => hused⟩
      · refine ⟨⟨hresponsive, fun hfalse => ?_⟩, fun _ hsome => ?_⟩
        · simp [hunsol] at hfalse
        · simp [hbusy] at htail
          simp [headAddr, htail] at hsome

theorem apart_cancel (cmd : GsmdAtcmd) (hinv : Apart g log) :
    Apart (cancelAtcmd g cmd).1 (log ++ (cancelAtcmd g cmd).2) ∧
      HeadClean g (cancelAtcmd g cmd).1 := by
  unfold cancelAtcmd
  cases hbusy : g.busyAtcmds with
  | nil =>
    have hsubmit : ∀ g : GsmdState, (atcmdSubmit g cmd).busyAtcmds = g.busyAtcmds ∧
        (atcmdSubmit g cmd).mlbuf = g.mlbuf ∧
        (atcmdSubmit g cmd).mlunsolicited = g.mlunsolicited := by
      intro g
      unfold atcmdSubmit
      dsimp only
      split <;> exact ⟨rfl, rfl, rfl⟩
    obtain ⟨hsame, hmlbuf, hunsol⟩ := hsubmit g
    have hhead : headAddr (atcmdSubmit g cmd) = headAddr g := by rw [headAddr, hsame, headAddr]
    exact ⟨hinv.frame hhead hmlbuf hunsol (by simp), .of_same hhead⟩
  | cons cur busy =>
    dsimp only
    set emptied : Mlbuf := if g.mlbuf.used ≠ [] then g.mlbuf.discard else g.mlbuf with hemptied
    have hused : emptied.used = [] := by
      rw [hemptied]
      by_cases hne : g.mlbuf.used ≠ []
      · rw [if_pos hne]
        rfl
      · rw [if_neg hne]
        simpa using hne
    have hdone := Apart.done
      { g with mlbuf := emptied, pendingAtcmds := cmd :: g.pendingAtcmds }
      cur busy (ascii "ERROR") hinv.responsive ?_ ?_
    · rw [hbusy] at hdone
      exact ⟨hdone.1, hdone.2 g⟩
    · intro _
      rw [if_neg (by simpa using hused)]
      exact .inr (.inl (by decide))
    · exact fun _ => .inl hused

theorem apart_uart {uart : UartWrite} (hinv : Apart g log)
    (hcond : KeepsApart env g (.uartWritable uart)) :
    Apart (uartWritable g uart).1 (log ++ (uartWritable g uart).2) ∧
      HeadClean g (uartWritable g uart).1 := by
  rcases uartWritable_cases g uart with ⟨flag, -, heq⟩ | ⟨pos, pending, rc, hwrites⟩
  · rw [heq]
    exact ⟨hinv.frame rfl rfl rfl (by simp), .of_same rfl⟩
  · have houtcome := hwrites.outcome
    by_cases hend : pos.buflen ≤ uartSkip pos rc
    swap
    · rw [if_neg hend] at houtcome
      rw [houtcome]
      exact ⟨hinv.frame rfl rfl rfl (by simp [isCallback]), .of_same rfl⟩
    rw [if_pos hend] at houtcome
    rw [houtcome]
    by_cases hbusy : g.busyAtcmds = []
    · have hempty : g.mlbuf.used = [] := by
        by_contra hused
        have hroom := hwrites.room
        cases huart : uart.room with
        | none => simp [huart] at hroom
        | some room =>
          rw [huart, Option.elim_some] at hroom
          have hhalf := hcond pos (by simp [hwrites.head]) room (by simp [huart]) hbusy
            (by rw [← hroom]; exact hend)
          obtain ⟨addr, haddr, -⟩ := hinv.owned (hhalf.resolve_left hused) hused
          simp [headAddr, hbusy] at haddr
      refine ⟨Apart.of_used_nil (responsive_append hinv.responsive _ ?_) hempty, fun _ _ => hempty⟩
      simp [isCallback]
    · obtain ⟨cmd, busy, hcons⟩ := List.exists_cons_of_ne_nil hbusy
      exact ⟨hinv.frame (by simp [headAddr, hcons]) rfl rfl (by simp [isCallback]),
        .of_same (by simp [headAddr, hcons])⟩

theorem apart_step (e : GsmdEvent) (hinv : Apart g log) (hcond : KeepsApart env g e) :
    Apart ((gsmd env).step g e).1 (log ++ ((gsmd env).step g e).2) ∧
      HeadClean g ((gsmd env).step g e).1 := by
  cases e with
  | atcmdSubmit fill =>
    refine ⟨hinv.frame ?_ ?_ ?_ (by simp [gsmd, gsmdStep]), .of_same ?_⟩ <;>
      (simp only [gsmd, gsmdStep, atcmdSubmit, headAddr]; split <;> rfl)
  | cancelAtcmd fill =>
    have hinv' : Apart { g with next := g.next + 1 } log := ⟨hinv.responsive, hinv.owned⟩
    exact apart_cancel (atcmdFill g.next fill) hinv'
  | mlParse buf parse => exact apart_mlParse hinv hcond
  | atcmdPrompt => exact ⟨hinv.frame rfl rfl rfl (by simp [gsmd, gsmdStep, atcmdPrompt, isCallback]),
      .of_same rfl⟩
  | uartWritable uart => exact apart_uart hinv hcond
  | timerExpired tmr => exact apart_timer hinv hcond

end Steps

theorem apart_run {env : GsmdEnv} (flags : Nat) (ready : Bool) {events : List GsmdEvent}
    (hmeets : (gsmd env).Meets (KeepsApart env) (atcmdInit flags ready) events) :
    Apart ((gsmd env).exec (atcmdInit flags ready) events).1
      ((gsmd env).exec (atcmdInit flags ready) events).2 := by
  refine (gsmd env).exec_inv Apart ?_ ?_ hmeets
  · exact Apart.of_used_nil (explained_nil _) rfl
  · exact fun g log e hinv hcond => (apart_step e hinv hcond).1

/-- **Isolation.** In a run whose steps all keep the buffer apart, every text a callback gets is the
command's own, and every command that becomes the head of `busy_atcmds` finds `mlbuf` empty. -/
theorem responses_isolated {env : GsmdEnv} (flags : Nat) (ready : Bool) (events : List GsmdEvent)
    (hmeets : (gsmd env).Meets (KeepsApart env) (atcmdInit flags ready) events) :
    Explained Responsive ((gsmd env).exec (atcmdInit flags ready) events).2 ∧
      ∀ before e after, events = before ++ e :: after →
        HeadClean ((gsmd env).exec (atcmdInit flags ready) before).1
          ((gsmd env).exec (atcmdInit flags ready) (before ++ [e])).1 := by
  refine ⟨(apart_run flags ready hmeets).responsive, ?_⟩
  rintro before e after rfl
  rw [Machine.meets_append] at hmeets
  rw [Machine.exec_concat]
  exact (apart_step e (apart_run flags ready hmeets.1) hmeets.2.1).2

def centreEvents : List GsmdEvent :=
  [.atcmdSubmit { cmd := ascii "AT+CSCA?", rlen := 9, cb := some 0 },
    .uartWritable { room := some 1024 },
    .mlParse (ascii "+CSCA: 3,145") fun _ _ => 0,
    .mlParse (ascii "OK") fun _ _ => 0]

theorem centre_isolated :
    Explained Responsive ((gsmd .plain).exec (atcmdInit 0 true) centreEvents).2 ∧
      ∀ before e after, centreEvents = before ++ e :: after →
        HeadClean ((gsmd .plain).exec (atcmdInit 0 true) before).1
          ((gsmd .plain).exec (atcmdInit 0 true) (before ++ [e])).1 :=
  responses_isolated 0 true centreEvents (by decide)

def storageEvents : List GsmdEvent :=
  [.atcmdSubmit { cmd := ascii "AT+CPMS=\"SM\",\"SM\",\"SM\"", rlen := 23, cb := none },
    .atcmdSubmit { cmd := ascii "AT+CSCA?", rlen := 9, cb := some 0 },
    .uartWritable { room := some 1024 },
    .mlParse (ascii "+CPMS: 3,10,3,10,3,10") fun _ _ => 0,
    .mlParse (ascii "OK") fun _ _ => 0,
    .uartWritable { room := some 1024 },
    .mlParse (ascii "OK") fun _ _ => 0]

theorem storageEvents_log :
    ((gsmd .plain).exec (atcmdInit 0 true) storageEvents).2 =
      [.wrote 0 [] (ascii "AT+CPMS=\"SM\",\"SM\",\"SM\"") true, .sentAll 0,
        .info (some 0) (ascii "+CPMS: 3,10,3,10,3,10"), .final (some 0) (ascii "OK"), .freed 0,
        .wrote 1 [] (ascii "AT+CSCA?") true, .sentAll 1, .final (some 1) (ascii "OK"),
        .callback 1 0 (ascii "+CPMS: 3,10,3,10,3,10"), .freed 1] := by
  decide

/-- The callback of the second command gets the answer of the first, and the second command found
that answer in the buffer when it became the head. -/
theorem storage_leaks_to_centre :
    ¬ Explained Responsive ((gsmd .plain).exec (atcmdInit 0 true) storageEvents).2 ∧
      ¬ HeadClean ((gsmd .plain).exec (atcmdInit 0 true) (storageEvents.take 5)).1
        ((gsmd .plain).exec (atcmdInit 0 true) (storageEvents.take 6)).1 := by
  constructor
  · rw [storageEvents_log]
    simp only [explained_cons, Responsive, true_and]
    rintro ⟨hresp, -⟩
    rcases hresp with htext | htext | ⟨line, hline, htext⟩ | ⟨text, ⟨pieces, hne, -, hpieces⟩, -⟩
    · exact absurd htext (by decide)
    · exact absurd htext (by decide)
    · simp at hline
      rw [hline] at htext
      exact absurd htext (by decide)
    · obtain ⟨piece, hpiece⟩ := List.exists_mem_of_ne_nil pieces hne
      obtain ⟨line, hline, -⟩ := hpieces piece hpiece
      simp at hline
  · intro hclean
    exact absurd (hclean (by decide) (by decide)) (by decide)

end Openmoko.Gsmd
