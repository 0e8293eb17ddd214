import Openmoko.Gsmd.Atcmd

/-!
# What the writer puts on the UART for one command

A command at the head of the pending list is written by as many calls of `atcmd_select_cb` as it
takes, each woken by a prompt. What one call does depends only on the bytes from `cur` to the end of
the buffer, so the run is compared with `Emits`, which speaks of these bytes alone. A call that
skips a byte (the LF, the NUL, or the byte a short write has stopped at) consumes as many bytes as
it puts on the UART; a call that skips none puts one more there, its CR. Hence a run that ends with
the right number of bytes had a buffer of the right length and skipped a byte in every call.
-/

namespace Openmoko.Gsmd

def writeEvents (rooms : ℕ → ℕ) (i : ℕ) : ℕ → List GsmdEvent
  | 0 => []
  | k + 1 => .atcmdPrompt :: .uartWritable { room := some (rooms i) } :: writeEvents rooms (i + 1) k

def obsBytes (addr : Nat) : GsmdObs → List Byte
  | .wrote a _ sent cr => if a = addr then sent ++ (if cr then [CR] else []) else []
  | _ => []

def uartBytes (addr : Nat) (log : List GsmdObs) : List Byte := log.flatMap (obsBytes addr)

def uartText (text : List Byte) : List Byte := (text.splitOn LF).flatMap (· ++ [CR])

def writeLog (env : GsmdEnv) (g : GsmdState) (rooms : ℕ → ℕ) (i k : ℕ) : List GsmdObs :=
  ((gsmd env).exec g (writeEvents rooms i k)).2

/-- After some call the command goes to `busy_atcmds`, exactly its lines have been written by then,
and before that call it was not there and something was still missing. -/
def UartExact (env : GsmdEnv) (g : GsmdState) (addr : Nat) (text : List Byte) (rooms : ℕ → ℕ) :
    Prop :=
  ∃ k, .sentAll addr ∈ writeLog env g rooms 0 k ∧
    uartBytes addr (writeLog env g rooms 0 k) = uartText text ∧
    ∀ j < k, .sentAll addr ∉ writeLog env g rooms 0 j ∧
      uartBytes addr (writeLog env g rooms 0 j) ≠ uartText text

/-- Every line is non-empty and written by one call, except that a call may stop early in the last
line where the byte it stops at is a CR that the line does not end with. -/
inductive WrittenExactly (rooms : ℕ → ℕ) : ℕ → List Byte → Prop
  | line {i : ℕ} {line rest : List Byte} (hne : line ≠ []) (hlf : LF ∉ line)
      (hroom : line.length ≤ rooms i) (hrest : WrittenExactly rooms (i + 1) rest) :
      WrittenExactly rooms i (line ++ LF :: rest)
  | last {i : ℕ} {line : List Byte} (hne : line ≠ []) (hlf : LF ∉ line)
      (hroom : line.length ≤ rooms i) : WrittenExactly rooms i line
  | shortAtCr {i : ℕ} {head rest : List Byte} (hlf : LF ∉ head) (hlf' : LF ∉ rest)
      (hroom : head.length = rooms i) (hrest : WrittenExactly rooms (i + 1) rest) :
      WrittenExactly rooms i (head ++ CR :: rest)

theorem uartText_last {text : List Byte} (hlf : LF ∉ text) : uartText text = text ++ [CR] := by
  rw [uartText, List.splitOn_eq_singleton hlf]
  simp

theorem uartText_line {line : List Byte} (hlf : LF ∉ line) (rest : List Byte) :
    uartText (line ++ LF :: rest) = line ++ CR :: uartText rest := by
  rw [uartText, List.splitOn_append_cons_self_of_not_mem hlf]
  simp [uartText]

theorem uartText_length (text : List Byte) : (uartText text).length = text.length + 1 := by
  by_cases hlf : LF ∈ text
  · obtain ⟨line, rest, rfl, hline⟩ := List.eq_append_cons_of_mem hlf
    rw [uartText_line hline]
    simp [uartText_length rest]
    omega
  · simp [uartText_last hlf]
termination_by text.length
decreasing_by simp_all; omega

section Memory

def memLine (mem : List Byte) : Nat := (strchr (cstr mem) LF).getD (mem.length - 1)

def memSkip (mem : List Byte) (rc : Nat) : Nat :=
  if strchr (cstr mem) LF = none ∨ rc = memLine mem then rc + 1 else rc

structure Holds (g : GsmdState) (addr : Nat) (mem : List Byte) : Prop where
  ready : g.interpreterReady = true
  head : ∃ pos others, g.pendingAtcmds = pos :: others ∧ pos.addr = addr ∧
    pos.buf.drop pos.cur = mem ∧ pos.buflen = mem.length

variable (env : GsmdEnv) {g : GsmdState} {addr : Nat} {mem : List Byte}

def writeCall (g : GsmdState) (room : Nat) : GsmdState × List GsmdObs :=
  (gsmd env).exec g [.atcmdPrompt, .uartWritable { room := some room }]

theorem writeLog_succ (rooms : ℕ → ℕ) (i k : ℕ) :
    writeLog env g rooms i (k + 1) =
      (writeCall env g (rooms i)).2 ++ writeLog env (writeCall env g (rooms i)).1 rooms (i + 1) k := by
  simp [writeLog, writeEvents, writeCall]

theorem writeCall_stuck (hg : Holds g addr mem) (room : Nat) (hline : memLine mem = 0) :
    Holds (writeCall env g room).1 addr mem ∧ (writeCall env g room).2 = [.prompt] := by
  obtain ⟨hready, pos, others, hpending, haddr, hmem, hbuflen⟩ := hg
  have hlen : uartLineLen pos = 0 := by
    rw [uartLineLen, GsmdAtcmd.left, hmem, hbuflen]
    exact hline
  have hcall : writeCall env g room = (atcmdWaitPendingQueue g, [.prompt]) := by
    simp [writeCall, gsmd, gsmdStep, atcmdPrompt, atcmdWakePendingQueue, uartWritable,
      uartWritePending, hready, hpending, hlen, atcmdWaitPendingQueue]
  rw [hcall]
  exact ⟨⟨hready, pos, others, hpending, haddr, hmem, hbuflen⟩, rfl⟩

theorem writeCall_writes (hg : Holds g addr mem) {room : Nat} (hroom : 0 < room)
    (hline : memLine mem ≠ 0) :
    let rc := min room (memLine mem)
    let skip := memSkip mem rc
    ∃ passed,
      if mem.length ≤ skip then
        (writeCall env g room).2 = [.prompt, .wrote addr passed (mem.take rc) true, .sentAll addr]
      else
        (writeCall env g room).2 = [.prompt, .wrote addr passed (mem.take rc) true] ∧
          Holds (writeCall env g room).1 addr (mem.drop skip) := by
  obtain ⟨hready, pos, others, hpending, haddr, hmem, hbuflen⟩ := hg
  have hlen : uartLineLen pos = memLine mem := by
    rw [uartLineLen, GsmdAtcmd.left, hmem, hbuflen, memLine]
  have hskip : uartSkip pos (min room (memLine mem)) = memSkip mem (min room (memLine mem)) := by
    rw [uartSkip, memSkip, hlen, GsmdAtcmd.left, hmem]
  have hrc : min room (memLine mem) ≠ 0 := by omega
  refine ⟨pos.passed, ?_⟩
  simp only [writeCall, Machine.exec_cons, Machine.exec_nil, gsmd, gsmdStep, atcmdPrompt,
    atcmdWakePendingQueue, uartWritable, uartWritePending, hready, hpending, hlen, hskip, hrc,
    Bool.and_self, if_true, if_false, GsmdAtcmd.advance, hbuflen, haddr, hmem]
  by_cases hdone : mem.length ≤ memSkip mem (min room (memLine mem))
  · have hzero : mem.length - memSkip mem (min room (memLine mem)) = 0 := by omega
    simp [hdone, hzero]
  · have hzero : mem.length - memSkip mem (min room (memLine mem)) ≠ 0 := by omega
    simp only [hdone, hzero, if_false]
    split
    · refine ⟨rfl, rfl, _, others, rfl, rfl, ?_, ?_⟩
      · rw [← hmem, List.drop_drop]
      · simp
    · refine ⟨rfl, rfl, _, others, rfl, rfl, ?_, ?_⟩
      · rw [← hmem, List.drop_drop]
      · simp

end Memory

/-! ### A run -/

inductive Emits (rooms : ℕ → ℕ) : ℕ → List Byte → List Byte → Prop
  | done {i : ℕ} {mem : List Byte} {rc : Nat} (hrc : rc = min (rooms i) (memLine mem))
      (hline : memLine mem ≠ 0) (hend : mem.length ≤ memSkip mem rc) :
      Emits rooms i mem (mem.take rc ++ [CR])
  | more {i : ℕ} {mem out : List Byte} {rc : Nat} (hrc : rc = min (rooms i) (memLine mem))
      (hline : memLine mem ≠ 0) (hmore : ¬ mem.length ≤ memSkip mem rc)
      (hrest : Emits rooms (i + 1) (mem.drop (memSkip mem rc)) out) :
      Emits rooms i mem (mem.take rc ++ CR :: out)

section Run

variable {env : GsmdEnv} {addr : Nat} {rooms : ℕ → ℕ}

theorem uartBytes_append (log log' : List GsmdObs) :
    uartBytes addr (log ++ log') = uartBytes addr log ++ uartBytes addr log' := by
  simp [uartBytes]

/-- After `k` calls the command is in `busy_atcmds` with these bytes written, and not before. -/
structure Reaches (env : GsmdEnv) (g : GsmdState) (addr : Nat) (rooms : ℕ → ℕ) (i k : ℕ)
    (out : List Byte) : Prop where
  sent : .sentAll addr ∈ writeLog env g rooms i k
  bytes : uartBytes addr (writeLog env g rooms i k) = out
  waiting : ∀ j < k, .sentAll addr ∉ writeLog env g rooms i j

theorem Emits.reaches (env : GsmdEnv) (hrooms : ∀ i, 0 < rooms i) {i : ℕ} {mem out : List Byte}
    (hemits : Emits rooms i mem out) {g : GsmdState} (hg : Holds g addr mem) :
    ∃ k, Reaches env g addr rooms i k out ∧
      ∀ j < k, (uartBytes addr (writeLog env g rooms i j)).length < out.length := by
  induction hemits generalizing g with
  | @done i mem rc hrc hline hend =>
    obtain ⟨passed, hcall⟩ := writeCall_writes env hg (hrooms i) hline
    rw [← hrc, if_pos hend] at hcall
    have hlog : writeLog env g rooms i 1 =
        [.prompt, .wrote addr passed (mem.take rc) true, .sentAll addr] := by
      rw [writeLog_succ, hcall]
      rfl
    refine ⟨1, ⟨?_, ?_, ?_⟩, ?_⟩
    · simp [hlog]
    · simp [hlog, uartBytes, obsBytes]
    · intro j hj
      have hzero : j = 0 := by omega
      simp [hzero, writeLog, writeEvents]
    · intro j hj
      have hzero : j = 0 := by omega
      simp [hzero, writeLog, writeEvents, uartBytes]
  | @more i mem out rc hrc hline hmore hrest ih =>
    obtain ⟨passed, hcall⟩ := writeCall_writes env hg (hrooms i) hline
    rw [← hrc, if_neg hmore] at hcall
    obtain ⟨k, hreaches, hshort⟩ := ih hcall.2
    have hhead : uartBytes addr (writeCall env g (rooms i)).2 = mem.take rc ++ [CR] := by
      simp [hcall.1, uartBytes, obsBytes]
    refine ⟨k + 1, ⟨?_, ?_, ?_⟩, ?_⟩
    · rw [writeLog_succ]
      exact List.mem_append_right _ hreaches.sent
    · rw [writeLog_succ, uartBytes_append, hhead, hreaches.bytes]
      simp
    · intro j hj
      cases j with
      | zero => simp [writeLog, writeEvents]
      | succ j =>
        rw [writeLog_succ, hcall.1]
        simpa using hreaches.waiting j (by omega)
    · intro j hj
      cases j with
      | zero =>
        rw [List.length_append, List.length_cons]
        change 0 < _
        omega
      | succ j =>
        rw [writeLog_succ, uartBytes_append, hhead]
        have := hshort j (by omega)
        simp
        omega

theorem not_sentAll_of_stuck {mem : List Byte} (hline : memLine mem = 0) (k i : ℕ)
    {g : GsmdState} (hg : Holds g addr mem) :
    GsmdObs.sentAll addr ∉ writeLog env g rooms i k := by
  induction k generalizing i g with
  | zero => simp [writeLog, writeEvents]
  | succ k ih =>
    obtain ⟨hholds, hcall⟩ := writeCall_stuck env hg (rooms i) hline
    rw [writeLog_succ, hcall]
    simpa using ih (i + 1) hholds

theorem Reaches.emits (hrooms : ∀ i, 0 < rooms i) {k i : ℕ} {mem out : List Byte} {g : GsmdState}
    (hg : Holds g addr mem) (hreaches : Reaches env g addr rooms i k out) :
    Emits rooms i mem out := by
  induction k generalizing i mem out g with
  | zero => simpa [writeLog, writeEvents] using hreaches.sent
  | succ k ih =>
    obtain ⟨hsent, hbytes, hwaiting⟩ := hreaches
    rw [writeLog_succ] at hsent hbytes
    have hlater : ∀ j < k, GsmdObs.sentAll addr ∉
        writeLog env (writeCall env g (rooms i)).1 rooms (i + 1) j := by
      intro j hj hmem
      apply hwaiting (j + 1) (by omega)
      rw [writeLog_succ]
      exact List.mem_append_right _ hmem
    by_cases hline : memLine mem = 0
    · obtain ⟨hholds, hcall⟩ := writeCall_stuck env hg (rooms i) hline
      rw [hcall] at hsent
      exact absurd (by simpa using hsent) (not_sentAll_of_stuck hline k (i + 1) hholds)
    · obtain ⟨passed, hcall⟩ := writeCall_writes env hg (hrooms i) hline
      by_cases hend : mem.length ≤ memSkip mem (min (rooms i) (memLine mem))
      · rw [if_pos hend] at hcall
        have hk : k = 0 := by
          by_contra hpos
          apply hwaiting 1 (by omega)
          rw [writeLog_succ, hcall]
          simp
        subst hk
        have hout : out = mem.take (min (rooms i) (memLine mem)) ++ [CR] := by
          rw [← hbytes, hcall]
          simp [uartBytes, obsBytes, writeLog, writeEvents]
        rw [hout]
        exact .done rfl hline hend
      · rw [if_neg hend] at hcall
        have hsent' : GsmdObs.sentAll addr ∈
            writeLog env (writeCall env g (rooms i)).1 rooms (i + 1) k := by
          rw [hcall.1] at hsent
          simpa using hsent
        have hrest := ih hcall.2 ⟨hsent', rfl, hlater⟩
        have hout : out = mem.take (min (rooms i) (memLine mem)) ++ CR :: uartBytes addr
            (writeLog env (writeCall env g (rooms i)).1 rooms (i + 1) k) := by
          rw [← hbytes, uartBytes_append, hcall.1]
          simp [uartBytes, obsBytes]
        rw [hout]
        exact .more rfl hline hend hrest

end Run

/-! ### Which runs are exact -/

section Exact

variable {rooms : ℕ → ℕ} {i : ℕ}

theorem memLine_lt {mem : List Byte} (hline : memLine mem ≠ 0) : memLine mem < mem.length := by
  unfold memLine at hline ⊢
  by_cases hlf : LF ∈ cstr mem
  · obtain ⟨line, rest, hsplit, hnot⟩ := List.eq_append_cons_of_mem hlf
    have hle : (cstr mem).length ≤ mem.length := (List.takeWhile_prefix _).length_le
    rw [hsplit] at hle
    simp only [List.length_append, List.length_cons] at hle
    rw [hsplit, strchr_append_cons hnot, Option.getD_some]
    omega
  · rw [strchr_eq_none_iff.mpr hlf] at hline ⊢
    simp at hline ⊢
    omega

theorem memSkip_le (mem : List Byte) (rc : ℕ) : memSkip mem rc ≤ rc + 1 := by
  unfold memSkip
  split <;> omega

theorem Emits.length_le {mem out : List Byte} (hemits : Emits rooms i mem out) :
    mem.length ≤ out.length := by
  induction hemits with
  | @done i mem rc hrc hline hend =>
    have := memLine_lt hline
    have := memSkip_le mem rc
    simp
    omega
  | @more i mem out rc hrc hline hmore hrest ih =>
    have := memLine_lt hline
    have := memSkip_le mem rc
    simp at ih ⊢
    omega

variable {t : List Byte} (hnul : NUL ∉ t)
include hnul

theorem memLine_last (hlf : LF ∉ t) : memLine (t ++ [NUL]) = t.length := by
  rw [memLine, cstr_append_nul hnul, strchr_eq_none_iff.mpr hlf]
  simp

theorem memSkip_last (hlf : LF ∉ t) (rc : ℕ) : memSkip (t ++ [NUL]) rc = rc + 1 := by
  rw [memSkip, cstr_append_nul hnul, if_pos (.inl (strchr_eq_none_iff.mpr hlf))]

omit hnul in
theorem strchr_line {line rest : List Byte} (hnul : NUL ∉ line ++ LF :: rest) (hlf : LF ∉ line) :
    strchr (cstr (line ++ LF :: rest ++ [NUL])) LF = some line.length := by
  rw [cstr_append_nul hnul, strchr_append_cons hlf]

omit hnul in
theorem memLine_line {line rest : List Byte} (hnul : NUL ∉ line ++ LF :: rest) (hlf : LF ∉ line) :
    memLine (line ++ LF :: rest ++ [NUL]) = line.length := by
  rw [memLine, strchr_line hnul hlf, Option.getD_some]

omit hnul in
theorem memSkip_line {line rest : List Byte} (hnul : NUL ∉ line ++ LF :: rest) (hlf : LF ∉ line)
    (rc : ℕ) : memSkip
    (line ++ LF :: rest ++ [NUL]) rc = if rc = line.length then rc + 1 else rc := by
  rw [memSkip, memLine_line hnul hlf, strchr_line hnul hlf]
  simp

theorem WrittenExactly.emits (hrooms : ∀ i, 0 < rooms i) (hexact : WrittenExactly rooms i t) :
    Emits rooms i (t ++ [NUL]) (uartText t) := by
  induction hexact with
  | @line i line rest hne hlf hroom hrest ih =>
    have hpos : 0 < line.length := List.length_pos_iff.mpr hne
    have hskip : memSkip (line ++ LF :: rest ++ [NUL]) line.length = line.length + 1 := by
      rw [memSkip_line hnul hlf, if_pos rfl]
    have hmore : Emits rooms i (line ++ LF :: rest ++ [NUL])
        ((line ++ LF :: rest ++ [NUL]).take line.length ++ CR :: uartText rest) := .more
      (by rw [memLine_line hnul hlf]; omega) (by rw [memLine_line hnul hlf]; omega)
      (by rw [hskip]; simp)
      (by
        rw [hskip]
        simpa using ih fun hmem => hnul (by simp [hmem]))
    rw [uartText_line hlf]
    simpa using hmore
  | @last i line hne hlf hroom =>
    have hpos : 0 < line.length := List.length_pos_iff.mpr hne
    have hdone : Emits rooms i (line ++ [NUL]) ((line ++ [NUL]).take line.length ++ [CR]) := .done
      (by rw [memLine_last hnul hlf]; omega)
      (by rw [memLine_last hnul hlf]; omega) (by rw [memSkip_last hnul hlf]; simp)
    rw [uartText_last hlf]
    simpa using hdone
  | @shortAtCr i head rest hlf hlf' hroom hrest ih =>
    have hpos := hrooms i
    have hne : LF ≠ CR := by decide
    have hnone : LF ∉ head ++ CR :: rest := by simp [hlf, hlf', hne]
    have hmore : Emits rooms i (head ++ CR :: rest ++ [NUL])
        ((head ++ CR :: rest ++ [NUL]).take head.length ++ CR :: uartText rest) := .more
      (by rw [memLine_last hnul hnone]; simp; omega)
      (by rw [memLine_last hnul hnone]; simp)
      (by rw [memSkip_last hnul hnone]; simp)
      (by
        rw [memSkip_last hnul hnone]
        simpa using ih fun hmem => hnul (by simp [hmem]))
    rw [uartText_last hnone]
    rw [uartText_last hlf'] at hmore
    simpa using hmore

theorem Emits.writtenExactly {mem out : List Byte} (hemits : Emits rooms i mem out)
    (hmem : mem = t ++ [NUL]) (hout : out = uartText t) : WrittenExactly rooms i t := by
  induction hemits generalizing t with
  | @done i mem rc hrc hline hend =>
    subst hmem
    by_cases hlf : LF ∈ t
    · exfalso
      obtain ⟨line, rest, rfl, hnot⟩ := List.eq_append_cons_of_mem hlf
      rw [memSkip_line hnul hnot, memLine_line hnul hnot] at *
      simp at hend
      split at hend <;> omega
    · rw [memSkip_last hnul hlf] at hend
      rw [memLine_last hnul hlf] at hrc hline
      simp at hend
      exact .last (List.ne_nil_of_length_pos (by omega)) hlf (by omega)
  | @more i mem out rc hrc hline hmore hrest ih =>
    subst hmem
    by_cases hlf : LF ∈ t
    · obtain ⟨line, rest, rfl, hnot⟩ := List.eq_append_cons_of_mem hlf
      rw [memLine_line hnul hnot] at hrc hline
      rw [memSkip_line hnul hnot] at hrest hmore ih
      have hwhole : rc = line.length := by
        by_contra hshort
        have hlong := hrest.length_le
        have hcount := congrArg List.length hout
        rw [uartText_length] at hcount
        simp [hshort] at hlong hcount
        omega
      simp only [hwhole, if_true] at hrest hout ih
      rw [uartText_line hnot] at hout
      have hout' : out = uartText rest := by simpa using hout
      refine .line (List.ne_nil_of_length_pos (by omega)) hnot (by omega) ?_
      exact ih (fun hmem => hnul (by simp [hmem])) (by simp) hout'
    · rw [memLine_last hnul hlf] at hrc hline
      rw [memSkip_last hnul hlf] at hrest hmore ih
      have hlt : rc < t.length := by simp at hmore; omega
      rw [uartText_last hlf] at hout
      have hsplit : t = t.take rc ++ t[rc] :: t.drop (rc + 1) := by
        rw [← List.drop_eq_getElem_cons hlt, List.take_append_drop]
      have htake : (t ++ [NUL]).take rc = t.take rc := List.take_append_of_le_length (by omega)
      have hdrop : (t ++ [NUL]).drop (rc + 1) = t.drop (rc + 1) ++ [NUL] :=
        List.drop_append_of_le_length (by omega)
      have hparts : CR :: out = t[rc] :: (t.drop (rc + 1) ++ [CR]) := by
        rw [htake] at hout
        have : t.take rc ++ CR :: out = t.take rc ++ (t[rc] :: (t.drop (rc + 1) ++ [CR])) := by
          calc
            t.take rc ++ CR :: out = t ++ [CR] := hout
            _ = (t.take rc ++ t[rc] :: t.drop (rc + 1)) ++ [CR] := by rw [← hsplit]
            _ = t.take rc ++ (t[rc] :: (t.drop (rc + 1) ++ [CR])) := by
              rw [List.append_assoc, List.cons_append]
        exact List.append_cancel_left this
      obtain ⟨hcr, hout'⟩ := List.cons.inj hparts
      have hlf' : LF ∉ t.drop (rc + 1) := fun hmem => hlf (List.mem_of_mem_drop hmem)
      have hnul' : NUL ∉ t.drop (rc + 1) := fun hmem => hnul (List.mem_of_mem_drop hmem)
      have hnext := ih hnul' hdrop (by rw [hout', uartText_last hlf'])
      rw [hsplit, ← hcr]
      refine .shortAtCr (fun hmem => hlf (List.mem_of_mem_take hmem)) hlf' ?_ hnext
      simp
      omega

end Exact

def GsmdState.queued (g : GsmdState) (addr : Nat) (fill : AtcmdFill) (others : List GsmdAtcmd) :
    GsmdState :=
  { g with interpreterReady := true, pendingAtcmds := atcmdFill addr fill :: others }

section Queued

variable {env : GsmdEnv} {g : GsmdState} {addr : Nat} {fill : AtcmdFill}
  {others : List GsmdAtcmd} {rooms : ℕ → ℕ}

theorem atcmdFill_buf (hrlen : (cstr fill.cmd).length + 1 ≤ fill.rlen) :
    (atcmdFill addr fill).buf =
      cstr fill.cmd ++ List.replicate (fill.rlen - (cstr fill.cmd).length) NUL := by
  have hmax : max (cstr fill.cmd).length fill.rlen = fill.rlen := by omega
  obtain ⟨pad, hpad⟩ : ∃ pad, fill.rlen = (cstr fill.cmd).length + (pad + 1) :=
    ⟨fill.rlen - (cstr fill.cmd).length - 1, by omega⟩
  have hsub : (cstr fill.cmd).length + (pad + 1) - 1 - (cstr fill.cmd).length = pad := by omega
  simp only [atcmdFill, hmax]
  rw [strncpy_of_length_le (by omega), hpad, hsub, Nat.add_sub_cancel_left, List.replicate_succ',
    List.append_assoc]

theorem holds_queued (g : GsmdState) (addr : Nat) (others : List GsmdAtcmd)
    (hrlen : (cstr fill.cmd).length + 1 ≤ fill.rlen) :
    Holds (g.queued addr fill others) addr
      (cstr fill.cmd ++ List.replicate (fill.rlen - (cstr fill.cmd).length) NUL) := by
  refine ⟨rfl, atcmdFill addr fill, others, rfl, rfl, ?_, ?_⟩
  · rw [atcmdFill_buf hrlen]
    rfl
  · simp [atcmdFill]
    omega

variable (hrooms : ∀ i, 0 < rooms i) (hrlen : (cstr fill.cmd).length + 1 ≤ fill.rlen)
include hrooms hrlen

theorem UartExact.rlen_eq (hexact : UartExact env (g.queued addr fill others) addr (cstr fill.cmd)
    rooms) : fill.rlen = (cstr fill.cmd).length + 1 := by
  obtain ⟨k, hsent, hbytes, hbefore⟩ := hexact
  have hemits := Reaches.emits hrooms (holds_queued g addr others hrlen)
    ⟨hsent, hbytes, fun j hj => (hbefore j hj).1⟩
  have hlen := hemits.length_le
  rw [uartText_length] at hlen
  simp at hlen
  omega

theorem uartExact_writtenExactly
    (hexact : UartExact env (g.queued addr fill others) addr (cstr fill.cmd) rooms) :
    WrittenExactly rooms 0 (cstr fill.cmd) := by
  have heq := hexact.rlen_eq hrooms hrlen
  obtain ⟨k, hsent, hbytes, hbefore⟩ := hexact
  have hemits := Reaches.emits hrooms (holds_queued g addr others hrlen)
    ⟨hsent, hbytes, fun j hj => (hbefore j hj).1⟩
  refine hemits.writtenExactly (nul_notMem_cstr fill.cmd) ?_ rfl
  rw [heq, Nat.add_sub_cancel_left]
  rfl

/-- **The writer is exact** for a command exactly when the buffer holds no more than the text and
its NUL and every line goes out as `WrittenExactly` says. -/
theorem uart_exact_iff :
    UartExact env (g.queued addr fill others) addr (cstr fill.cmd) rooms ↔
      fill.rlen = (cstr fill.cmd).length + 1 ∧ WrittenExactly rooms 0 (cstr fill.cmd) := by
  constructor
  · intro hexact
    exact ⟨hexact.rlen_eq hrooms hrlen, uartExact_writtenExactly hrooms hrlen hexact⟩
  · rintro ⟨heq, hwritten⟩
    have hholds := holds_queued g addr others hrlen
    rw [heq, Nat.add_sub_cancel_left] at hholds
    obtain ⟨k, hreaches, hshort⟩ :=
      (hwritten.emits (nul_notMem_cstr fill.cmd) hrooms).reaches env hrooms hholds
    refine ⟨k, hreaches.sent, hreaches.bytes, fun j hj => ⟨hreaches.waiting j hj, ?_⟩⟩
    intro heq
    have := hshort j hj
    rw [heq] at this
    omega

end Queued

/-- A two-line command whose lines are taken whole: the exact run. -/
theorem uart_exact_cmgs :
    UartExact .plain
        ((atcmdInit 0 true).queued 0 ⟨ascii "AT+CMGS=1\n00\x1a", 14, some 0, 0, 0, none⟩ []) 0
        (cstr (ascii "AT+CMGS=1\n00\x1a")) (fun _ => 1024) ↔
      14 = (cstr (ascii "AT+CMGS=1\n00\x1a")).length + 1 ∧
        WrittenExactly (fun _ => 1024) 0 (cstr (ascii "AT+CMGS=1\n00\x1a")) :=
  uart_exact_iff (fun _ => Nat.succ_pos 1023) (by decide)

/-- The hold command of the voice call interface: `rlen` is 11, the text `AT+CHLD=2` has 9 bytes,
and with writes that take everything a NUL goes out after the text. -/
theorem chld_writes_nul :
    (∀ i : ℕ, 0 < (fun _ : ℕ => 1024) i) ∧ (cstr (ascii "AT+CHLD=2")).length + 1 ≤ 11 ∧
      ¬ UartExact .plain
        ((atcmdInit 0 true).queued 0 ⟨ascii "AT+CHLD=2", 11, some 0, 0, 0, none⟩ []) 0
        (cstr (ascii "AT+CHLD=2")) (fun _ => 1024) := by
  refine ⟨fun _ => Nat.succ_pos 1023, by decide, fun hexact => ?_⟩
  have heq := hexact.rlen_eq (fun _ => Nat.succ_pos 1023) (by decide)
  exact absurd heq (by decide)

end Openmoko.Gsmd
