import Openmoko.Gsmd.Modem
import Openmoko.Gsmd.Proof.AtcmdSteps

/-!
# One final outcome for each command

`ml_parse` gives every final result to the head of `busy_atcmds`. That is the command the modem has
answered as long as the commands in `busy_atcmds` are those the modem owes a final result, in the
same order. `KeepsOrder` lists what breaks this, such as a cancel, after which the modem still
answers, or a result that reads like the command it answers, which is taken for an echo.
-/

namespace Openmoko.Gsmd

namespace LinkObs

def answer? : LinkObs → Option (Nat × List Byte)
  | .answered addr text => some (addr, text)
  | _ => none

def final? : LinkObs → Option (Option Nat × List Byte)
  | .gsmd (.final head text) => some (head, text)
  | _ => none

def freed? : LinkObs → Option Nat
  | .gsmd (.freed addr) => some addr
  | _ => none

end LinkObs

/-- The final results the modem has sent, with the command whose line each one answers. -/
def answers (log : List LinkObs) : List (Nat × List Byte) := log.filterMap LinkObs.answer?

def finals (log : List LinkObs) : List (Option Nat × List Byte) := log.filterMap LinkObs.final?

def freed (log : List LinkObs) : List Nat := log.filterMap LinkObs.freed?

/-- Every final result goes to the command whose line it answers, finishes this command, and no
command is finished twice. -/
structure OneOutcomeEach (log : List LinkObs) : Prop where
  consumed : finals log = (answers log).map fun answer => (some answer.1, answer.2)
  finished : freed log = (answers log).map Prod.fst
  once : (freed log).Nodup

/-- A step after which the modem still owes the busy commands their results in the same order. -/
def KeepsOrder (env : GsmdEnv) (link : Link) : LinkEvent → Prop
  | .cancelAtcmd _ => link.g.busyAtcmds = []
  | .uartWritable uart =>
    ∀ pos ∈ link.g.pendingAtcmds.head?, ∀ room ∈ uart.room,
      room = 0 ∨ uartLineLen pos ≤ room ∧ uart.cr = true ∧
        CR ∉ (pos.buf.drop pos.cur).take (uartLineLen pos)
  | .answer result _ =>
    (∀ first ∈ link.owed.head?, first.continued = false) ∧
      ∀ cmd ∈ link.g.busyAtcmds.head?, cmd.text ≠ result.text
  | .report buf parse => (mlLabel env link.g (cstr buf) parse).isFinal = false
  | .atcmdSubmit _ | .answerPrompt => True

instance (env : GsmdEnv) (link : Link) : (e : LinkEvent) → Decidable (KeepsOrder env link e)
  | .cancelAtcmd _ => inferInstanceAs (Decidable (link.g.busyAtcmds = []))
  | .uartWritable uart =>
    inferInstanceAs (Decidable
      (∀ pos ∈ link.g.pendingAtcmds.head?, ∀ room ∈ uart.room, _ ∨ _ ∧ _ ∧ _))
  | .answer _ _ =>
    inferInstanceAs (Decidable
      ((∀ first ∈ link.owed.head?, _) ∧ ∀ cmd ∈ link.g.busyAtcmds.head?, _))
  | .report _ _ => inferInstanceAs (Decidable (_ = false))
  | .atcmdSubmit _ | .answerPrompt => inferInstanceAs (Decidable True)

def owedFinals (owed : List Owed) : List Nat := (owed.filter fun o => !o.continued).map Owed.addr

def queued (g : GsmdState) : List Nat := (g.busyAtcmds ++ g.pendingAtcmds).map GsmdAtcmd.addr

structure InOrder (link : Link) (log : List LinkObs) : Prop where
  consumed : finals log = (answers log).map fun answer => (some answer.1, answer.2)
  finished : freed log = (answers log).map Prod.fst
  waiting : link.g.busyAtcmds.map GsmdAtcmd.addr = owedFinals link.owed
  distinct : (freed log ++ queued link.g).Nodup
  below : ∀ addr ∈ freed log ++ queued link.g, addr < link.g.next

section FinalResult

variable (env : GsmdEnv)

theorem isExtended_of_isalpha {c : Byte}
    (halpha : isalpha c = true) : isExtended env c = false := by
  have hplus : c ≠ 43 := by
    rintro rfl
    exact absurd halpha (by decide)
  have hnul : c ≠ NUL := by
    rintro rfl
    exact absurd halpha (by decide)
  have hext : c ∉ env.extChars := by
    intro hmem
    rw [env.extPlain c hmem] at halpha
    simp at halpha
  simp [isExtended, strchrFinds, hplus, hnul, hext]

theorem hasPrefix_append (lit rest : List Byte) : hasPrefix (lit ++ rest) lit = true := by
  simp [hasPrefix]

theorem nul_notMem_digitBytes (digits : List (Fin 10)) : NUL ∉ digitBytes digits := by
  rw [digitBytes, List.mem_map]
  rintro ⟨d, -, hd⟩
  revert hd
  revert d
  decide

theorem cstr_finalResult (result : FinalResult) : cstr result.text = result.text := by
  apply cstr_eq_self
  cases result with
  | cmeError digits =>
    rw [FinalResult.text, List.mem_append]
    exact not_or.mpr ⟨by decide, nul_notMem_digitBytes digits⟩
  | cmsError digits =>
    rw [FinalResult.text, List.mem_append]
    exact not_or.mpr ⟨by decide, nul_notMem_digitBytes digits⟩
  | _ => decide

theorem mlExtended_errorResult {kind : List Byte} (cmd : Option GsmdAtcmd) (parse : UnsolicitParse)
    (hkind : kind = ascii "CME ERROR" ∨ kind = ascii "CMS ERROR") (rest : List Byte) :
    (mlExtended env cmd (43 :: (kind ++ 58 :: rest)) parse).isFinal = true := by
  have hcolon : (strchr (43 :: (kind ++ 58 :: rest)) 58).isSome = true := by
    rw [Option.isSome_iff_ne_none, ne_eq, strchr_eq_none_iff]
    simp
  obtain ⟨colon, hchr⟩ := Option.isSome_iff_exists.mp hcolon
  simp only [mlExtended, hchr, List.tail_cons]
  rcases hkind with rfl | rfl
  · simp only [hasPrefix_append, if_true]
    rfl
  · by_cases hcme : hasPrefix (ascii "CMS ERROR" ++ 58 :: rest) (ascii "CME ERROR") = true
    · simp only [hcme, if_true]
      rfl
    · simp only [hcme, hasPrefix_append, if_true]
      rfl

theorem mlLabel_finalResult (g : GsmdState) (result : FinalResult) (parse : UnsolicitParse)
    (hecho : ∀ cmd ∈ g.busyAtcmds.head?, cmd.text ≠ result.text) :
    (mlLabel env g result.text parse).isFinal = true := by
  have hnone : ¬ (g.busyAtcmds.head?.any fun cmd => result.text == cmd.text) = true := by
    cases hhead : g.busyAtcmds.head? with
    | none => simp
    | some cmd =>
      rw [Option.any_some, beq_iff_eq]
      exact fun heq => hecho cmd (by simp [hhead]) heq.symm
  have hplain : ∀ c rest, result.text = c :: rest → isalpha c = true →
      ¬ (result.text = [] ∨ result.text = ascii "AT-Command Interpreter ready") →
      (∀ v0, (mlPlain v0 result.text).isFinal = true) →
      (mlLabel env g result.text parse).isFinal = true := by
    intro c rest htext halpha hready hfinal
    have hext : ¬ isExtended env (result.text.getD 0 NUL) = true := by
      rw [htext, List.getD_cons_zero, isExtended_of_isalpha env halpha]
      simp
    rw [mlLabel, if_neg hready, if_neg hnone, if_neg hext]
    exact hfinal _
  have herror : ∀ kind rest, result.text = 43 :: (kind ++ 58 :: rest) →
      (kind = ascii "CME ERROR" ∨ kind = ascii "CMS ERROR") →
      (mlLabel env g result.text parse).isFinal = true := by
    intro kind rest htext hkind
    have hready : ¬ (result.text = [] ∨ result.text = ascii "AT-Command Interpreter ready") := by
      rw [htext]
      simp [ascii]
    have hext : isExtended env (result.text.getD 0 NUL) = true := by
      rw [htext]
      simp [isExtended]
    rw [mlLabel, if_neg hready, if_neg hnone, if_pos hext, htext]
    exact mlExtended_errorResult env _ parse hkind rest
  cases result with
  | ok => exact hplain _ _ rfl (by decide) (by decide) (by decide)
  | error => exact hplain _ _ rfl (by decide) (by decide) (by decide)
  | noCarrier => exact hplain _ _ rfl (by decide) (by decide) (by decide)
  | busy => exact hplain _ _ rfl (by decide) (by decide) (by decide)
  | cmeError digits => exact herror (ascii "CME ERROR") (32 :: digitBytes digits) rfl (.inl rfl)
  | cmsError digits => exact herror (ascii "CMS ERROR") (32 :: digitBytes digits) rfl (.inr rfl)

end FinalResult

section Log

@[simp]
theorem answers_append (log log' : List LinkObs) : answers
    (log ++ log') = answers log ++ answers log' := by
  simp [answers]

@[simp]
theorem finals_append (log log' : List LinkObs) : finals
    (log ++ log') = finals log ++ finals log' := by
  simp [finals]

@[simp]
theorem freed_append (log log' : List LinkObs) : freed (log ++ log') = freed log ++ freed log' := by
  simp [freed]

@[simp]
theorem answers_gsmd (obs : List GsmdObs) : answers (obs.map LinkObs.gsmd) = [] := by
  simp [answers, LinkObs.answer?, Function.comp_def]

def isQuiet : GsmdObs → Bool
  | .final _ _ | .freed _ => false
  | _ => true

theorem finals_quiet {obs : List GsmdObs} (hobs : ∀ o ∈ obs, isQuiet o = true) :
    finals (obs.map LinkObs.gsmd) = [] := by
  rw [finals, List.filterMap_map, List.filterMap_eq_nil_iff]
  intro o ho
  have hquiet := hobs o ho
  cases o with
  | final head text => simp [isQuiet] at hquiet
  | _ => rfl

theorem freed_quiet {obs : List GsmdObs} (hobs : ∀ o ∈ obs, isQuiet o = true) :
    freed (obs.map LinkObs.gsmd) = [] := by
  rw [freed, List.filterMap_map, List.filterMap_eq_nil_iff]
  intro o ho
  have hquiet := hobs o ho
  cases o with
  | freed addr => simp [isQuiet] at hquiet
  | _ => rfl

section Consumed

variable (addr : Nat) (head : Option Nat) (text : List Byte) (done : Nat) {quiet : List GsmdObs}
  (hquiet : ∀ o ∈ quiet, isQuiet o = true)

theorem answers_consumed (quiet : List GsmdObs) :
    answers (.answered addr text :: .gsmd (.final head text) ::
      (quiet.map .gsmd ++ [.gsmd (.freed done)])) = [(addr, text)] := by
  calc
    answers (.answered addr text :: .gsmd (.final head text) ::
        (quiet.map .gsmd ++ [.gsmd (.freed done)]))
        = (addr, text) :: answers (quiet.map .gsmd ++ [.gsmd (.freed done)]) := rfl
    _ = [(addr, text)] := by
        rw [answers_append, answers_gsmd]
        rfl

include hquiet in
theorem finals_consumed :
    finals (.answered addr text :: .gsmd (.final head text) ::
      (quiet.map .gsmd ++ [.gsmd (.freed done)])) = [(head, text)] := by
  calc
    finals (.answered addr text :: .gsmd (.final head text) ::
        (quiet.map .gsmd ++ [.gsmd (.freed done)]))
        = (head, text) :: finals (quiet.map .gsmd ++ [.gsmd (.freed done)]) := rfl
    _ = [(head, text)] := by
        rw [finals_append, finals_quiet hquiet]
        rfl

include hquiet in
theorem freed_consumed :
    freed (.answered addr text :: .gsmd (.final head text) ::
      (quiet.map .gsmd ++ [.gsmd (.freed done)])) = [done] := by
  calc
    freed (.answered addr text :: .gsmd (.final head text) ::
        (quiet.map .gsmd ++ [.gsmd (.freed done)]))
        = freed (quiet.map .gsmd ++ [.gsmd (.freed done)]) := rfl
    _ = [done] := by
        rw [freed_append, freed_quiet hquiet]
        rfl

end Consumed

end Log

section Steps

variable {env : GsmdEnv} {g g' : GsmdState} {owed owed' : List Owed} {log : List LinkObs}
  {obs : List GsmdObs}

theorem InOrder.frame (hinv : InOrder { g := g, owed := owed } log) (added : List Nat)
    (hwaiting : g'.busyAtcmds.map GsmdAtcmd.addr = owedFinals owed')
    (hqueued : queued g' = queued g ++ added) (hadded : added = [] ∨ added = [g.next])
    (hnext : g.next + added.length ≤ g'.next) (hobs : ∀ o ∈ obs, isQuiet o = true) :
    InOrder { g := g', owed := owed' } (log ++ obs.map .gsmd) := by
  have hnew : ∀ addr ∈ added, addr = g.next := by
    intro addr hmem
    rcases hadded with rfl | rfl <;> simp_all
  refine ⟨?_, ?_, hwaiting, ?_, ?_⟩
  · simp [finals_quiet hobs, hinv.consumed]
  · simp [freed_quiet hobs, hinv.finished]
  · rw [freed_append, freed_quiet hobs, List.append_nil, hqueued, ← List.append_assoc,
      List.nodup_append]
    refine ⟨hinv.distinct, ?_, fun addr hold addr' hmem heq => ?_⟩
    · rcases hadded with rfl | rfl <;> simp
    · have hlt := hinv.below addr hold
      rw [heq, hnew addr' hmem] at hlt
      exact lt_irrefl _ hlt
  · rw [freed_append, freed_quiet hobs, List.append_nil, hqueued, ← List.append_assoc]
    intro addr hmem
    rcases List.mem_append.mp hmem with hold | hmem
    · have hlt := hinv.below addr hold
      show addr < g'.next
      simp only at hlt
      omega
    · rw [hnew addr hmem]
      show g.next < g'.next
      rcases hadded with rfl | rfl
      · simp at hmem
      · simp at hnext
        omega

theorem inOrder_submit (env : GsmdEnv) (fill : AtcmdFill)
    (hinv : InOrder { g := g, owed := owed } log) :
    InOrder { g := (gsmdStep env g (.atcmdSubmit fill)).1, owed := owed } (log ++ [].map .gsmd) := by
  simp only [gsmdStep, atcmdSubmit_eq]
  refine hinv.frame [g.next] hinv.waiting ?_ (.inr rfl) (by simp) (by simp)
  simp [queued, atcmdFill]

theorem inOrder_uart {uart : UartWrite} (hinv : InOrder { g := g, owed := owed } log)
    (hcond : KeepsOrder env { g := g, owed := owed } (.uartWritable uart)) :
    let result := uartWritable g uart
    InOrder { g := result.1, owed := owed ++ result.2.flatMap (owedFor result.1) }
      (log ++ result.2.map .gsmd) := by
  dsimp only
  rcases uartWritable_cases g uart with ⟨flag, -, heq⟩ | ⟨pos, pending, rc, hwrites⟩
  · rw [heq]
    refine hinv.frame [] ?_ ?_ (.inl rfl) (by simp) (by simp)
    · simpa using hinv.waiting
    · simp [queued]
  obtain ⟨room, hroom⟩ : ∃ room, uart.room = some room := by
    have hsome := hwrites.room
    cases huart : uart.room with
    | none => simp [huart] at hsome
    | some room => exact ⟨room, rfl⟩
  have hrc : rc = min room (uartLineLen pos) := by simpa [hroom] using hwrites.room
  have hpos := hwrites.positive
  obtain ⟨hlong, hcr, hplain⟩ := (hcond pos (by simp [hwrites.head]) room (by simp [hroom])).resolve_left
    (by omega)
  have hwhole : rc = uartLineLen pos := by omega
  rw [← hwhole] at hplain
  have hcount : ((pos.buf.drop pos.cur).take rc).count CR = 0 := List.count_eq_zero.mpr hplain
  have houtcome := hwrites.outcome
  by_cases hend : pos.buflen ≤ uartSkip pos rc
  · rw [if_pos hend] at houtcome
    rw [houtcome]
    have hother : ∀ g' : GsmdState, g'.pendingAtcmds = pending → goesOn g' pos.addr = false := by
      rintro g' hpending
      rw [goesOn, hpending]
      cases pending with
      | nil => rfl
      | cons second rest =>
        have hdistinct := hinv.distinct
        simp only [queued, hwrites.head, List.map_append, List.map_cons] at hdistinct
        have hne : second.addr ≠ pos.addr := by
          intro heq
          simp [List.nodup_append, heq] at hdistinct
        simp [hne]
    refine hinv.frame [] ?_ ?_ (.inl rfl) (by simp) (by simp [isQuiet])
    · have hwaiting := hinv.waiting
      simp only at hwaiting
      simp [owedFor, hcount, hcr, hother, owedFinals, GsmdAtcmd.advance, hwaiting]
    · simp [queued, hwrites.head, GsmdAtcmd.advance]
  · rw [if_neg hend] at houtcome
    rw [houtcome]
    have hstart : AtLineStart (pos.advance (uartSkip pos rc)) := atLineStart_of_whole hwhole hend
    refine hinv.frame [] ?_ ?_ (.inl rfl) (by simp) (by simp [isQuiet])
    · have hwaiting := hinv.waiting
      simp only at hwaiting
      rw [AtLineStart] at hstart
      simp [owedFor, hcount, hcr, goesOn, hstart, owedFinals, hwaiting]
      simp [GsmdAtcmd.advance]
    · simp [queued, hwrites.head, GsmdAtcmd.advance]

theorem inOrder_answer {first : Owed} {result : FinalResult} {parse : UnsolicitParse}
    (hinv : InOrder { g := g, owed := first :: owed } log)
    (hcond : KeepsOrder env { g := g, owed := first :: owed } (.answer result parse)) :
    InOrder { g := (mlParse env g result.text parse).1, owed := owed }
      (log ++ .answered first.addr result.text :: (mlParse env g result.text parse).2.map .gsmd) := by
  have hlast : first.continued = false := hcond.1 first (by simp)
  have hwaiting := hinv.waiting
  simp only [owedFinals, List.filter_cons, hlast, Bool.not_false, if_true, List.map_cons] at hwaiting
  obtain ⟨cmd, busy, hbusy, haddr, hrest⟩ := List.map_eq_cons_iff.mp hwaiting
  have hfinal := mlLabel_finalResult env g result parse hcond.2
  unfold mlParse
  rw [cstr_finalResult]
  cases hlabel : mlLabel env g result.text parse with
  | finalCb ret event =>
    obtain ⟨mlbuf, quiet, heq, htold⟩ := mlFinal_cons hbusy result.text ret event
    rw [passNextPending_eq] at heq
    have hquiet : ∀ o ∈ quiet, isQuiet o = true := by
      intro o ho
      obtain ⟨number, rfl⟩ | ⟨number, resp, rfl⟩ := htold o ho
      · rfl
      · rfl
    have hhead : headAddr g = some first.addr := by simp [headAddr, hbusy, haddr]
    have hperm : (freed log ++ [first.addr] ++ queued (mlFinal g result.text ret event).1).Perm
        (freed log ++ queued g) := by
      rw [heq, queued, queued, hbusy, ← haddr]
      simp
    rw [heq] at hperm
    simp only [heq, hhead, List.map_cons, List.map_append, List.map_nil]
    have hanswers := answers_consumed first.addr (some first.addr) result.text cmd.addr quiet
    have hfinals := finals_consumed first.addr (some first.addr) result.text cmd.addr hquiet
    have hfreed := freed_consumed first.addr (some first.addr) result.text cmd.addr hquiet
    rw [haddr] at hanswers hfinals hfreed ⊢
    refine ⟨?_, ?_, ?_, ?_, ?_⟩
    · rw [finals_append, answers_append, hfinals, hanswers, hinv.consumed]
      simp
    · rw [freed_append, answers_append, hfreed, hanswers, hinv.finished]
      simp
    · rw [owedFinals, ← hrest]
    · rw [freed_append, hfreed]
      exact hperm.nodup_iff.mpr hinv.distinct
    · rw [freed_append, hfreed]
      exact fun addr hmem => hinv.below addr (hperm.mem_iff.mp hmem)
  | _ => simp [hlabel, MlLabel.isFinal] at hfinal

theorem inOrder_report {buf : List Byte} {parse : UnsolicitParse}
    (hinv : InOrder { g := g, owed := owed } log)
    (hcond : (mlLabel env g (cstr buf) parse).isFinal = false) :
    InOrder { g := (mlParse env g buf parse).1, owed := owed }
      (log ++ (mlParse env g buf parse).2.map .gsmd) := by
  have hsame : ∀ mlbuf unsol ready, ∀ obs : List GsmdObs, (∀ o ∈ obs, isQuiet o = true) →
      InOrder
        { g := { g with mlbuf := mlbuf, mlunsolicited := unsol, interpreterReady := ready }
          owed := owed }
        (log ++ obs.map .gsmd) := by
    intro mlbuf unsol ready obs hobs
    refine hinv.frame [] hinv.waiting ?_ (.inl rfl) (Nat.le_refl _) hobs
    rw [List.append_nil]
    rfl
  cases hlabel : mlLabel env g (cstr buf) parse with
  | finalCb ret event => simp [hlabel, MlLabel.isFinal] at hcond
  | info ofCmd =>
    obtain ⟨mlbuf, unsol, told, heq, htold⟩ := mlParse_info hlabel
    rw [heq]
    apply hsame
    intro o ho
    rcases List.mem_append.mp ho with hmem | hmem
    · obtain ⟨addr, ret, resp, rfl⟩ := htold o hmem
      rfl
    · rw [List.mem_singleton.mp hmem]
      rfl
  | _ =>
    simp only [mlParse, hlabel]
    exact hsame _ _ _ [] (by simp)

theorem inOrder_step {l : Link} (e : LinkEvent) (hinv : InOrder l log)
    (hcond : KeepsOrder env l e) :
    InOrder ((link env).step l e).1 (log ++ ((link env).step l e).2) := by
  obtain ⟨g, owed⟩ := l
  have hskip : InOrder { g := g, owed := owed } (log ++ []) := by rwa [List.append_nil]
  cases e with
  | atcmdSubmit fill => exact inOrder_submit env fill hinv
  | cancelAtcmd fill =>
    have hsubmit : gsmdStep env g (.cancelAtcmd fill) = gsmdStep env g (.atcmdSubmit fill) := by
      have hbusy : g.busyAtcmds = [] := hcond
      simp only [gsmdStep, cancelAtcmd, hbusy]
    show InOrder { g := (gsmdStep env g (.cancelAtcmd fill)).1, owed := owed }
      (log ++ (gsmdStep env g (.cancelAtcmd fill)).2.map .gsmd)
    rw [hsubmit]
    exact inOrder_submit env fill hinv
  | uartWritable uart => exact inOrder_uart hinv hcond
  | report buf parse => exact inOrder_report hinv hcond
  | answer result parse =>
    cases owed with
    | nil => exact hskip
    | cons first owed =>
      simp only [link, linkStep]
      split
      · exact inOrder_answer hinv hcond
      · exact hskip
  | answerPrompt =>
    cases owed with
    | nil => exact hskip
    | cons first owed =>
      simp only [link, linkStep]
      split
      · next hcontinued =>
          simp only [gsmdStep, atcmdPrompt, atcmdWakePendingQueue]
          refine hinv.frame [] ?_ ?_ (.inl rfl) (by simp) (by simp [isQuiet])
          · have hwaiting := hinv.waiting
            simpa [owedFinals, hcontinued] using hwaiting
          · simp [queued]
      · exact hskip

end Steps

/-- **One final outcome each.** In a run whose steps keep the order, every final result the modem
sends is consumed by the command whose line it answers and finishes it, and no command is finished
twice. -/
theorem one_outcome_each {env : GsmdEnv} (flags : Nat) (ready : Bool) (events : List LinkEvent)
    (hmeets : (link env).Meets (KeepsOrder env) (linkInit flags ready) events) :
    OneOutcomeEach ((link env).exec (linkInit flags ready) events).2 := by
  have hrun := (link env).exec_inv InOrder
    ⟨rfl, rfl, rfl, by simp [queued, linkInit, atcmdInit, freed],
      by simp [queued, linkInit, atcmdInit, freed]⟩
    (fun l log e hinv hcond => inOrder_step e hinv hcond) hmeets
  exact ⟨hrun.consumed, hrun.finished, (List.nodup_append.mp hrun.distinct).1⟩

def messageThenQuery : List LinkEvent :=
  [.atcmdSubmit { cmd := ascii "AT+CMGS=1\n00\x1a", rlen := 14, cb := some 0 },
    .uartWritable { room := some 1024 },
    .answerPrompt,
    .uartWritable { room := some 1024 },
    .atcmdSubmit { cmd := ascii "AT+CSQ", rlen := 7, cb := some 0 },
    .answer .ok fun _ _ => 0,
    .uartWritable { room := some 1024 },
    .report (ascii "+CSQ: 17,99") fun _ _ => 0,
    .answer .ok fun _ _ => 0]

theorem messageThenQuery_once :
    OneOutcomeEach ((link .plain).exec (linkInit 0 true) messageThenQuery).2 :=
  one_outcome_each 0 true messageThenQuery (by decide)

def refusedMessage : List LinkEvent :=
  [.atcmdSubmit { cmd := ascii "AT+CMGS=1\n00\x1a", rlen := 14, cb := some 0 },
    .uartWritable { room := some 1024 },
    .answer .error fun _ _ => 0]

/-- No command is busy then, and the error is dropped: the message stays half sent. -/
theorem refusedMessage_dropped :
    ¬ OneOutcomeEach ((link .plain).exec (linkInit 0 true) refusedMessage).2 := by
  intro hall
  exact absurd hall.finished (by decide)

end Openmoko.Gsmd
