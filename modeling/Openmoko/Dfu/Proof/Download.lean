import Openmoko.Dfu.Sam7dfu

/-!
# A download reports the truth

Whatever the calls give, the blocks are a prefix of the file, and only a file that has been sent
and acknowledged as a whole comes to the request at the end. Two things go wrong: the loop behind a
block waits for `dfuDNLOAD_IDLE` only, and the result of the request at the end is lost.
-/

namespace Openmoko.Dfu

def DnloadObs.data? : DnloadObs → Option (List Byte)
  | .block _ data => some data
  | _ => none

def sent (log : List DnloadObs) : List Byte := (log.filterMap DnloadObs.data?).flatten

def DnloadObs.IsReply : DnloadObs → Prop
  | .transferred _ | .status _ _ => True
  | _ => False

def AckFirst (log : List DnloadObs) : Prop :=
  ∃ before dst after, log = before ++ .status 6 dst :: after ∧ (∀ o ∈ before, o.IsReply) ∧
    dst.bState = STATE_DFU_DOWNLOAD_IDLE ∧ dst.bStatus = DFU_STATUS_OK

def Acknowledged : List DnloadObs → Prop
  | [] => True
  | .block _ _ :: log => AckFirst log ∧ Acknowledged log
  | _ :: log => Acknowledged log

structure Truthful (file : List Byte) (s : DnloadState) (log : List DnloadObs) : Prop where
  sentPrefix : sent log <+: file
  complete : ∀ ret, s.pc = .returned ret → 0 ≤ ret →
    sent log = file ∧ Acknowledged log ∧ ∃ result, 0 ≤ result ∧ .closed result ∈ log
  ended : ∀ before dst after, log = before ++ .status 6 dst :: after →
    dst.bState = STATE_DFU_ERROR → after = [] ∧ ∃ ret < 0, s.pc = .returned ret

def ErrorReply (a : Answer) : Prop := a.result = 6 ∧ a.buffer 4 = STATE_DFU_ERROR

def ManifestReply (a : Answer) : Prop :=
  a.result = 6 ∧ (a.buffer 4 = STATE_DFU_MANIFEST_SYNC ∨ a.buffer 4 = STATE_DFU_MANIFEST)

instance (a : Answer) : Decidable (ErrorReply a) := inferInstanceAs (Decidable (_ ∧ _))

instance (a : Answer) : Decidable (ManifestReply a) := inferInstanceAs (Decidable (_ ∧ _))

/-- No status reply has `dfuERROR`, and when the request at the end has failed, so do the status
requests after it, as soon as the device does not go on with the manifestation. -/
def dnloadMeets (s : DnloadState) (a : Answer) : Prop :=
  match s.pc with
  | .pollStatus => ¬ErrorReply a
  | .getStatus => ¬ErrorReply a ∧ (s.closing < 0 → a.result < 0 ∨ ManifestReply a)
  | _ => True

theorem dnloadMeets_iff (s : DnloadState) (a : Answer) :
    dnloadMeets s a ↔ (s.pc = .pollStatus → ¬ErrorReply a) ∧
      (s.pc = .getStatus → ¬ErrorReply a ∧ (s.closing < 0 → a.result < 0 ∨ ManifestReply a)) := by
  unfold dnloadMeets
  cases s.pc <;> simp

instance (s : DnloadState) (a : Answer) : Decidable (dnloadMeets s a) :=
  decidable_of_iff' _ (dnloadMeets_iff s a)

section Log

variable {log obs : List DnloadObs}

theorem sent_append : sent (log ++ obs) = sent log ++ sent obs := by
  simp [sent]

theorem AckFirst.append (h : AckFirst log) : AckFirst (log ++ obs) := by
  obtain ⟨before, dst, after, rfl, hrest⟩ := h
  exact ⟨before, dst, after ++ obs, by simp, hrest⟩

theorem Acknowledged.append (hlog : Acknowledged log) (hobs : Acknowledged obs) :
    Acknowledged (log ++ obs) := by
  induction log with
  | nil => exact hobs
  | cons o log ih =>
    cases o with
    | block w data => exact ⟨hlog.1.append, ih hlog.2⟩
    | _ => exact ih hlog

theorem acknowledged_of_noBlocks (hobs : ∀ o ∈ obs, o.data? = none) : Acknowledged obs := by
  induction obs with
  | nil => trivial
  | cons o obs ih =>
    obtain ⟨ho, hrest⟩ := List.forall_mem_cons.mp hobs
    cases o with
    | block w data => cases ho
    | _ => exact ih hrest

theorem DnloadObs.IsReply.noBlock {o : DnloadObs} (ho : o.IsReply) : o.data? = none := by
  cases o <;> first | rfl | exact ho.elim

def AwaitsAck (log : List DnloadObs) : Prop :=
  ∃ before w data after, log = before ++ .block w data :: after ∧ Acknowledged before ∧
    ∀ o ∈ after, o.IsReply

theorem Acknowledged.block (hlog : Acknowledged log) (w : BitVec 16) (data : List Byte) :
    AwaitsAck (log ++ [.block w data]) :=
  ⟨log, w, data, [], rfl, hlog, fun o ho => by cases ho⟩

theorem AwaitsAck.reply (h : AwaitsAck log) {o : DnloadObs} (ho : o.IsReply) :
    AwaitsAck (log ++ [o]) := by
  obtain ⟨before, w, data, after, rfl, hbefore, hafter⟩ := h
  refine ⟨before, w, data, after ++ [o], by simp, hbefore, fun p hp => ?_⟩
  rcases List.mem_append.mp hp with hp | hp
  · exact hafter p hp
  · rw [List.mem_singleton.mp hp]
    exact ho

theorem AwaitsAck.ack (h : AwaitsAck log) {dst : DfuStatus}
    (hstate : dst.bState = STATE_DFU_DOWNLOAD_IDLE) (hstatus : dst.bStatus = DFU_STATUS_OK) :
    Acknowledged (log ++ [.status 6 dst]) := by
  obtain ⟨before, w, data, after, rfl, hbefore, hafter⟩ := h
  have hfirst : AckFirst (after ++ [.status 6 dst]) :=
    ⟨after, dst, [], rfl, hafter, hstate, hstatus⟩
  have hafterAck : Acknowledged (after ++ [.status 6 dst]) :=
    (acknowledged_of_noBlocks fun o ho => (hafter o ho).noBlock).append trivial
  rw [List.append_assoc]
  exact hbefore.append ⟨hfirst, hafterAck⟩

end Log

/-! ### What holds in every run -/

def Pc.pending : Pc → ℕ
  | .download length => length
  | _ => 0

def Pc.Past : Pc → Prop
  | .getStatus | .returned _ => True
  | _ => False

def AllSent (file : List Byte) (s : DnloadState) (log : List DnloadObs) : Prop :=
  s.offset = file.length ∧ Acknowledged log

def Phase (file : List Byte) (s : DnloadState) (log : List DnloadObs) : Prop :=
  match s.pc with
  | .read => Acknowledged log
  | .download _ | .pollStatus => AwaitsAck log
  | .close => AllSent file s log
  | .getStatus => AllSent file s log ∧ .closed s.closing ∈ log
  | .returned ret => 0 ≤ ret → AllSent file s log ∧ .closed s.closing ∈ log

structure Going (file : List Byte) (s : DnloadState) (log : List DnloadObs) : Prop where
  offset_le : s.offset ≤ file.length
  sent_eq : sent log = file.take s.offset
  low : -2 ^ 31 ≤ s.bytesSent
  high : s.bytesSent + s.pc.pending ≤ s.offset
  phase : Phase file s log
  closed : ∀ result, .closed result ∈ log → s.pc.Past ∧ result = s.closing

section Steps

variable {file : List Byte} {xferSize : ℕ} {s : DnloadState} {log : List DnloadObs} {a : Answer}

theorem dnloadStart_going (transaction : BitVec 16) :
    Going file (dnloadStart file transaction) [] := by
  cases file with
  | nil =>
    refine ⟨Nat.le_refl _, rfl, ?_, Int.le_refl 0, fun hret => ?_, fun _ h => by cases h⟩
    · exact Int.neg_nonpos_of_nonneg (by decide)
    · exact absurd hret (by decide)
  | cons c file =>
    have hstart : dnloadStart (c :: file) transaction =
        { pc := .read, offset := 0, bytesSent := 0, transaction := transaction, closing := 0 } := by
      rw [dnloadStart, if_neg (by simp), sendNext, if_pos (by simp)]
    rw [hstart]
    refine ⟨Nat.zero_le _, rfl, ?_, Int.le_refl 0, trivial, fun _ h => by cases h⟩
    exact Int.neg_nonpos_of_nonneg (by decide)

theorem dfuDownload_block {ret : ℤ} (hnonneg : 0 ≤ ret) (hmax : ret ≤ 65535) {buf : List Byte}
    (hlen : buf.length = ret.toNat) :
    dfuDownload (BitVec.ofInt 16 ret) (if ret = 0 then none else some buf) = .ok buf := by
  by_cases hzero : ret = 0
  · subst hzero
    rw [List.length_eq_zero_iff.mp hlen]
    rfl
  · have htoNat : (BitVec.ofInt 16 ret).toNat = ret.toNat := by
      rw [BitVec.toNat_ofInt]
      omega
    have hne : ¬BitVec.ofInt 16 ret = 0 := by
      intro h
      rw [h] at htoNat
      have hzero' : (0 : BitVec 16).toNat = 0 := rfl
      omega
    rw [if_neg hzero, dfuDownload, if_neg (by simp), if_neg (fun h => hne h.1), htoNat, ← hlen,
      Option.getD_some, List.take_length]

theorem Going.unclosed (h : Going file s log) (hpast : ¬s.pc.Past) (result : ℤ) :
    .closed result ∉ log :=
  fun hmem => hpast (h.closed result hmem).1

theorem Going.read (h : Going file s log) (hpc : s.pc = .read) (hmax : xferSize ≤ 65535)
    (hanswer : Answered file xferSize s a) :
    Going file (onRead file s a.result).1 (log ++ (onRead file s a.result).2) := by
  have hphase := h.phase
  have hhigh := h.high
  have hnone := h.unclosed (by rw [hpc]; exact id)
  simp only [hpc, Phase, Pc.pending] at hphase hhigh
  rw [Answered, hpc] at hanswer
  by_cases hneg : a.result < 0
  · rw [onRead, if_pos hneg]
    refine ⟨h.offset_le, ?_, h.low, hhigh, fun hret => ?_, ?_⟩
    · rw [sent_append, h.sent_eq]
      exact List.append_nil _
    · exact absurd hret (Int.not_le.mpr hneg)
    · intro result hmem
      simp [hnone] at hmem
  · obtain ⟨hsize, hleft, -⟩ := hanswer.resolve_left hneg
    have hlen : ((file.drop s.offset).take a.result.toNat).length = a.result.toNat := by
      rw [List.length_take, List.length_drop]
      omega
    rw [onRead, if_neg hneg]
    dsimp only
    rw [dfuDownload_block (Int.not_lt.mp hneg) (by omega) hlen]
    refine ⟨?_, ?_, h.low, ?_, hphase.block _ _, ?_⟩
    · have hle := h.offset_le
      dsimp only
      omega
    · rw [sent_append, h.sent_eq, List.take_add]
      exact congrArg _ (List.append_nil _)
    · simp only [Pc.pending, hlen]
      omega
    · intro result hmem
      simp [hnone] at hmem

theorem Going.download {length : ℕ} (h : Going file s log) (hpc : s.pc = .download length)
    (hanswer : a.result ≤ length) :
    Going file (onDownload s a.result) (log ++ [.transferred a.result]) := by
  have hphase := h.phase
  have hhigh := h.high
  have hlow := h.low
  have hnone := h.unclosed (by rw [hpc]; exact id)
  simp only [hpc, Phase, Pc.pending] at hphase hhigh
  have hsent : sent (log ++ [.transferred a.result]) = file.take s.offset := by
    rw [sent_append, h.sent_eq]
    exact List.append_nil _
  by_cases hneg : a.result < 0
  · rw [onDownload, if_pos hneg]
    refine ⟨h.offset_le, hsent, hlow, ?_, fun hret => ?_, ?_⟩
    · simp only [Pc.pending]
      omega
    · exact absurd hret (Int.not_le.mpr hneg)
    · intro result hmem
      simp [hnone] at hmem
  · have hwrap : -2 ^ 31 ≤ (s.bytesSent + a.result).bmod (2 ^ 32) ∧
        (s.bytesSent + a.result).bmod (2 ^ 32) ≤ s.bytesSent + a.result := by
      rw [Int.bmod_def]
      omega
    rw [onDownload, if_neg hneg]
    refine ⟨h.offset_le, hsent, hwrap.1, ?_, hphase.reply trivial, ?_⟩
    · simp only [Pc.pending]
      omega
    · intro result hmem
      simp [hnone] at hmem

theorem Going.sendNext (h : Going file s log) (hpast : ¬s.pc.Past) (hack : Acknowledged log) :
    Going file (sendNext file s).1 (log ++ (sendNext file s).2) := by
  have hhigh := h.high
  have hle := h.offset_le
  have hnone := h.unclosed hpast
  by_cases hmore : s.bytesSent < file.length
  · rw [Dfu.sendNext, if_pos hmore]
    refine ⟨hle, ?_, h.low, ?_, ?_, ?_⟩
    · rw [List.append_nil]
      exact h.sent_eq
    · simp only [Pc.pending]
      omega
    · rw [List.append_nil]
      exact hack
    · intro result hmem
      simp [hnone] at hmem
  · rw [Dfu.sendNext, if_neg hmore]
    refine ⟨hle, ?_, h.low, ?_, ⟨?_, hack.append trivial⟩, ?_⟩
    · rw [sent_append, h.sent_eq]
      exact List.append_nil _
    · simp only [Pc.pending]
      omega
    · dsimp only
      omega
    · intro result hmem
      simp [hnone] at hmem

theorem Going.pollStatus (h : Going file s log) (hpc : s.pc = .pollStatus) (ret : ℤ)
    (dst : DfuStatus) (hreal : ret ≠ 6 → dst.bState = STATE_DFU_ERROR) :
    Going file (onPollStatus file s ret dst).1
      (log ++ .status ret dst :: (onPollStatus file s ret dst).2) := by
  have hphase := h.phase
  have hhigh := h.high
  have hnone := h.unclosed (by rw [hpc]; exact id)
  simp only [hpc, Phase] at hphase
  have hsent : sent (log ++ [.status ret dst]) = file.take s.offset := by
    rw [sent_append, h.sent_eq]
    exact List.append_nil _
  have hopen : ∀ result, .closed result ∉ log ++ [.status ret dst] := by
    intro result hmem
    simp [hnone] at hmem
  have hstop : ∀ ret' < 0,
      Going file { s with pc := .returned ret' } (log ++ [.status ret dst]) := by
    intro ret' hneg
    refine ⟨h.offset_le, hsent, h.low, ?_, fun hret => ?_, fun result hmem => ?_⟩
    · simp only [Pc.pending]
      omega
    · exact absurd hret (Int.not_le.mpr hneg)
    · exact absurd hmem (hopen result)
  unfold onPollStatus
  split_ifs with hneg hstate hstatus
  · exact hstop ret hneg
  · refine ⟨h.offset_le, hsent, h.low, hhigh, ?_, fun result hmem => absurd hmem (hopen result)⟩
    rw [Phase, hpc]
    exact hphase.reply trivial
  · exact hstop (-1) (by decide)
  · have hsix : ret = 6 := by
      by_contra hne
      rw [hreal hne] at hstate
      exact hstate (by decide)
    subst hsix
    have hgoing : Going file s (log ++ [.status 6 dst]) := by
      refine ⟨h.offset_le, hsent, h.low, hhigh, ?_, fun result hmem => absurd hmem (hopen result)⟩
      rw [Phase, hpc]
      exact hphase.reply trivial
    have hack := hphase.ack (not_not.mp hstate) (not_not.mp hstatus)
    have hnext := hgoing.sendNext (by rw [hpc]; exact id) hack
    rwa [List.append_assoc] at hnext

theorem Going.close (h : Going file s log) (hpc : s.pc = .close) (result : ℤ) :
    Going file { s with pc := .getStatus, closing := result } (log ++ [.closed result]) := by
  have hphase := h.phase
  have hhigh := h.high
  have hnone := h.unclosed (by rw [hpc]; exact id)
  simp only [hpc, Phase, Pc.pending] at hphase hhigh
  refine ⟨h.offset_le, ?_, h.low, hhigh, ⟨⟨hphase.1, hphase.2.append trivial⟩, by simp⟩, ?_⟩
  · rw [sent_append, h.sent_eq]
    exact List.append_nil _
  · intro result' hmem
    refine ⟨trivial, ?_⟩
    simpa [hnone] using hmem

theorem Going.getStatus (h : Going file s log) (hpc : s.pc = .getStatus) (ret : ℤ)
    (dst : DfuStatus) :
    Going file (onGetStatus s ret dst) (log ++ [.status ret dst]) := by
  have hphase := h.phase
  have hhigh := h.high
  simp only [hpc, Phase, Pc.pending] at hphase hhigh
  obtain ⟨⟨hoffset, hack⟩, hclosed⟩ := hphase
  have hsent : sent (log ++ [.status ret dst]) = file.take s.offset := by
    rw [sent_append, h.sent_eq]
    exact List.append_nil _
  have hkept : AllSent file s (log ++ [.status ret dst]) ∧
      .closed s.closing ∈ log ++ [.status ret dst] :=
    ⟨⟨hoffset, hack.append trivial⟩, List.mem_append_left _ hclosed⟩
  have honly : ∀ result, .closed result ∈ log ++ [.status ret dst] → result = s.closing := by
    intro result hmem
    exact (h.closed result (by simpa using hmem)).2
  have hstop : Going file { s with pc := .returned ret } (log ++ [.status ret dst]) :=
    ⟨h.offset_le, hsent, h.low, hhigh, fun _ => hkept, fun result hmem =>
      ⟨trivial, honly result hmem⟩⟩
  unfold onGetStatus
  split_ifs with hneg hmanifest
  · exact hstop
  · refine ⟨h.offset_le, hsent, h.low, h.high, ?_, fun result hmem => ⟨?_, honly result hmem⟩⟩
    · rw [Phase, hpc]
      exact hkept
    · rw [hpc]
      trivial
  · exact hstop

theorem dfuGetStatus_short (hne : a.result ≠ 6) :
    (dfuGetStatus a).2.bState = STATE_DFU_ERROR := by
  rw [dfuGetStatus, if_neg hne]

theorem Going.step (h : Going file s log) (hmax : xferSize ≤ 65535)
    (hanswer : Answered file xferSize s a) :
    Going file (dnloadStep file s a).1 (log ++ (dnloadStep file s a).2) := by
  unfold dnloadStep
  cases hpc : s.pc with
  | read => exact h.read hpc hmax hanswer
  | download length =>
    rw [Answered, hpc] at hanswer
    exact h.download hpc hanswer
  | pollStatus => exact h.pollStatus hpc _ _ dfuGetStatus_short
  | close => exact h.close hpc a.result
  | getStatus => exact h.getStatus hpc _ _
  | returned ret =>
    rw [List.append_nil]
    exact h

/-! ### What decides whether it is the truth -/

def Kept (s : DnloadState) : Prop := ∀ ret, s.pc = .returned ret → 0 ≤ ret → 0 ≤ s.closing

def NoError (log : List DnloadObs) : Prop :=
  ∀ dst, .status 6 dst ∈ log → dst.bState ≠ STATE_DFU_ERROR

def Ended (s : DnloadState) (log : List DnloadObs) : Prop :=
  ∀ before dst after, log = before ++ .status 6 dst :: after →
    dst.bState = STATE_DFU_ERROR → after = [] ∧ ∃ ret < 0, s.pc = .returned ret

theorem Going.truthful_iff (h : Going file s log) :
    Truthful file s log ↔ Kept s ∧ Ended s log := by
  constructor
  · intro ht
    refine ⟨fun ret hpc hret => ?_, ht.ended⟩
    obtain ⟨-, -, result, hnonneg, hmem⟩ := ht.complete ret hpc hret
    rw [← (h.closed result hmem).2]
    exact hnonneg
  · rintro ⟨hkept, hended⟩
    refine ⟨?_, fun ret hpc hret => ?_, hended⟩
    · rw [h.sent_eq]
      exact List.take_prefix _ _
    · have hphase := h.phase
      rw [Phase, hpc] at hphase
      obtain ⟨⟨hoffset, hack⟩, hclosed⟩ := hphase hret
      refine ⟨?_, hack, s.closing, hkept ret hpc hret, hclosed⟩
      rw [h.sent_eq, hoffset, List.take_length]

theorem ended_iff_noError (hrun : ∀ ret, s.pc ≠ .returned ret) : Ended s log ↔ NoError log := by
  constructor
  · intro hended dst hmem hstate
    obtain ⟨before, after, heq⟩ := List.append_of_mem hmem
    obtain ⟨-, ret, -, hpc⟩ := hended before dst after heq hstate
    exact hrun ret hpc
  · intro hno before dst after heq hstate
    exact absurd hstate (hno dst (by simp [heq]))

theorem ended_append {obs : List DnloadObs} (hne : obs ≠ []) :
    Ended s (log ++ obs) ↔ NoError log ∧ Ended s obs := by
  constructor
  · intro hended
    refine ⟨fun dst hmem hstate => ?_, fun before dst after heq hstate => ?_⟩
    · obtain ⟨before, after, rfl⟩ := List.append_of_mem hmem
      obtain ⟨hnil, -⟩ := hended before dst (after ++ obs) (by simp) hstate
      exact hne (List.append_eq_nil_iff.mp hnil).2
    · exact hended (log ++ before) dst after (by rw [heq, List.append_assoc]) hstate
  · rintro ⟨hno, hended⟩ before dst after heq hstate
    rcases List.append_eq_append_iff.mp heq with ⟨rest, rfl, hobs⟩ | ⟨rest, hlog, hrest⟩
    · exact hended rest dst after hobs hstate
    · cases rest with
      | nil => exact hended [] dst after hrest.symm hstate
      | cons o rest =>
        obtain ⟨rfl, -⟩ := List.cons.inj hrest
        exact absurd hstate (hno dst (by simp [hlog]))

theorem ended_status {rest : List DnloadObs} (hrest : ∀ dst, .status 6 dst ∉ rest) :
    Ended s (.status (dfuGetStatus a).1 (dfuGetStatus a).2 :: rest) ↔
      (ErrorReply a → rest = [] ∧ ∃ ret < 0, s.pc = .returned ret) := by
  have hreply : ∀ dst, .status 6 dst = DnloadObs.status (dfuGetStatus a).1 (dfuGetStatus a).2 →
      a.result = 6 ∧ dst.bState = a.buffer 4 := by
    intro dst heq
    injection heq with hresult hdst
    have hsix : a.result = 6 := hresult.symm
    rw [hdst, dfuGetStatus, if_pos hsix]
    exact ⟨hsix, rfl⟩
  constructor
  · rintro hended ⟨hsix, hstate⟩
    refine hended [] (dfuGetStatus a).2 rest ?_ ?_
    · rw [dfuGetStatus, hsix]
      rfl
    · rw [dfuGetStatus, if_pos hsix]
      exact hstate
  · intro herror before dst after heq hstate
    cases before with
    | nil =>
      obtain ⟨hhead, rfl⟩ := List.cons.inj heq
      obtain ⟨hsix, hbuffer⟩ := hreply dst hhead.symm
      exact herror ⟨hsix, hbuffer ▸ hstate⟩
    | cons o before =>
      obtain ⟨-, rfl⟩ := List.cons.inj heq
      exact absurd (by simp) (hrest dst)

theorem ended_noStatus {obs : List DnloadObs} (hobs : ∀ dst, .status 6 dst ∉ obs) :
    Ended s obs := by
  intro before dst after heq
  exact absurd (by simp [heq]) (hobs dst)

theorem dfuDownload_error {length : BitVec 16} {data : Option (List Byte)} {ret : ℤ}
    (h : dfuDownload length data = .error ret) : ret < 0 := by
  unfold dfuDownload at h
  split_ifs at h <;> cases h <;> decide

theorem onRead_exact (ret : ℤ) :
    (onRead file s ret).2 ≠ [] ∧ Kept (onRead file s ret).1 ∧
      Ended (onRead file s ret).1 (onRead file s ret).2 := by
  unfold onRead
  split_ifs with hneg
  · refine ⟨by simp, ?_, ended_noStatus (by simp)⟩
    rintro ret' ⟨⟩ hnonneg
    exact absurd hneg (Int.not_lt.mpr hnonneg)
  all_goals
    dsimp only
    split
    · refine ⟨by simp, ?_, ended_noStatus (by simp)⟩
      rintro ret' ⟨⟩ hnonneg
      exact absurd (dfuDownload_error ‹_›) (Int.not_lt.mpr hnonneg)
    · refine ⟨by simp, ?_, ended_noStatus (by simp)⟩
      rintro ret' ⟨⟩

theorem onDownload_kept (ret : ℤ) : Kept (onDownload s ret) := by
  unfold onDownload
  split_ifs with hneg
  · rintro ret' ⟨⟩ hnonneg
    exact absurd hneg (Int.not_lt.mpr hnonneg)
  · rintro ret' ⟨⟩

theorem sendNext_kept : Kept (sendNext file s).1 := by
  unfold sendNext
  split_ifs
  · rintro ret ⟨⟩
  · rintro ret ⟨⟩

theorem sendNext_noStatus (dst : DfuStatus) : .status 6 dst ∉ (sendNext file s).2 := by
  unfold sendNext
  split_ifs <;> simp

theorem onPollStatus_kept (hpc : s.pc = .pollStatus) (ret : ℤ) (dst : DfuStatus) :
    Kept (onPollStatus file s ret dst).1 := by
  unfold onPollStatus
  split_ifs with hneg hstate hstatus
  · rintro ret' ⟨⟩ hnonneg
    exact absurd hneg (Int.not_lt.mpr hnonneg)
  · intro ret' hret
    rw [hpc] at hret
    cases hret
  · rintro ret' ⟨⟩ hnonneg
    exact absurd hnonneg (by decide)
  · exact sendNext_kept

theorem onPollStatus_noStatus (ret : ℤ) (dst dst' : DfuStatus) :
    .status 6 dst' ∉ (onPollStatus file s ret dst).2 := by
  unfold onPollStatus
  split_ifs
  · simp
  · simp
  · simp
  · exact sendNext_noStatus dst'

theorem onPollStatus_error (herror : ErrorReply a) :
    onPollStatus file s (dfuGetStatus a).1 (dfuGetStatus a).2 = (s, []) := by
  obtain ⟨hsix, hstate⟩ := herror
  have hresult : (dfuGetStatus a).1 = a.result := rfl
  have hnonneg : ¬(dfuGetStatus a).1 < 0 := by omega
  have hbState : (dfuGetStatus a).2.bState ≠ STATE_DFU_DOWNLOAD_IDLE := by
    rw [dfuGetStatus, if_pos hsix]
    simp only [hstate]
    decide
  rw [onPollStatus, if_neg hnonneg, if_pos hbState]

theorem pollStatus_exact (hpc : s.pc = .pollStatus) :
    (Kept (onPollStatus file s (dfuGetStatus a).1 (dfuGetStatus a).2).1 ∧
      Ended (onPollStatus file s (dfuGetStatus a).1 (dfuGetStatus a).2).1
        (.status (dfuGetStatus a).1 (dfuGetStatus a).2 ::
          (onPollStatus file s (dfuGetStatus a).1 (dfuGetStatus a).2).2)) ↔ ¬ErrorReply a := by
  rw [ended_status (onPollStatus_noStatus _ _)]
  constructor
  · rintro ⟨-, hended⟩ herror
    obtain ⟨-, ret, -, hret⟩ := hended herror
    rw [onPollStatus_error herror, hpc] at hret
    cases hret
  · intro hno
    exact ⟨onPollStatus_kept hpc _ _, fun herror => absurd herror hno⟩

theorem dfuGetStatus_manifest :
    ((dfuGetStatus a).2.bState = STATE_DFU_MANIFEST_SYNC ∨
      (dfuGetStatus a).2.bState = STATE_DFU_MANIFEST) ↔ ManifestReply a := by
  by_cases hsix : a.result = 6
  · simp [dfuGetStatus, ManifestReply, hsix]
  · rw [dfuGetStatus_short hsix]
    simp [ManifestReply, hsix]
    decide

theorem getStatus_exact (hpc : s.pc = .getStatus) :
    (Kept (onGetStatus s (dfuGetStatus a).1 (dfuGetStatus a).2) ∧
      Ended (onGetStatus s (dfuGetStatus a).1 (dfuGetStatus a).2)
        [.status (dfuGetStatus a).1 (dfuGetStatus a).2]) ↔
      ¬ErrorReply a ∧ (s.closing < 0 → a.result < 0 ∨ ManifestReply a) := by
  rw [ended_status (by simp)]
  have hresult : (dfuGetStatus a).1 = a.result := rfl
  simp only [onGetStatus, hresult, dfuGetStatus_manifest]
  split_ifs with hneg hmanifest
  · have hno : ¬ErrorReply a := fun h => by have := h.1; omega
    refine ⟨fun _ => ⟨hno, fun _ => Or.inl hneg⟩, fun _ => ⟨?_, fun h => absurd h hno⟩⟩
    rintro ret ⟨⟩ hnonneg
    exact absurd hneg (Int.not_lt.mpr hnonneg)
  · have hno : ¬ErrorReply a := by
      rintro ⟨-, hstate⟩
      rcases hmanifest.2 with h | h <;> rw [hstate] at h <;> exact absurd h (by decide)
    refine ⟨fun _ => ⟨hno, fun _ => Or.inr hmanifest⟩, fun _ => ⟨?_, fun h => absurd h hno⟩⟩
    intro ret hret
    rw [hpc] at hret
    cases hret
  · constructor
    · rintro ⟨hkept, hended⟩
      refine ⟨fun herror => ?_, fun hclosing => ?_⟩
      · obtain ⟨-, ret, hret, hreturned⟩ := hended herror
        cases hreturned
        exact hneg hret
      · exact absurd (hkept _ rfl (Int.not_lt.mp hneg)) (Int.not_le.mpr hclosing)
    · rintro ⟨hno, hclosing⟩
      refine ⟨?_, fun herror => absurd herror hno⟩
      rintro ret ⟨⟩ -
      by_contra hlt
      exact (hclosing (Int.not_le.mp hlt)).elim hneg hmanifest

theorem dnloadStep_exact (file : List Byte) (a : Answer) (hrun : ∀ ret, s.pc ≠ .returned ret) :
    (dnloadStep file s a).2 ≠ [] ∧
      (Kept (dnloadStep file s a).1 ∧ Ended (dnloadStep file s a).1 (dnloadStep file s a).2 ↔
        dnloadMeets s a) := by
  unfold dnloadStep dnloadMeets
  cases hpc : s.pc with
  | read =>
    obtain ⟨hne, hkept⟩ := onRead_exact a.result
    exact ⟨hne, iff_true_intro hkept⟩
  | download length =>
    exact ⟨by simp, iff_true_intro ⟨onDownload_kept _, ended_noStatus (by simp)⟩⟩
  | pollStatus => exact ⟨by simp, pollStatus_exact hpc⟩
  | close =>
    refine ⟨by simp, iff_true_intro ⟨?_, ended_noStatus (by simp)⟩⟩
    rintro ret ⟨⟩
  | getStatus => exact ⟨by simp, getStatus_exact hpc⟩
  | returned ret => exact absurd hpc (hrun ret)

theorem Going.step_exact (h : Going file s log) (hmax : xferSize ≤ 65535)
    (hanswer : Answered file xferSize s a) :
    Truthful file (dnloadStep file s a).1 (log ++ (dnloadStep file s a).2) ↔
      Truthful file s log ∧ dnloadMeets s a := by
  rw [(h.step hmax hanswer).truthful_iff, h.truthful_iff]
  by_cases hreturned : ∃ ret, s.pc = .returned ret
  · obtain ⟨ret, hpc⟩ := hreturned
    simp [dnloadStep, dnloadMeets, hpc]
  · have hrun : ∀ ret, s.pc ≠ .returned ret := fun ret hpc => hreturned ⟨ret, hpc⟩
    obtain ⟨hne, hexact⟩ := dnloadStep_exact file a hrun
    have hkept : Kept s := fun ret hpc => absurd hpc (hrun ret)
    rw [ended_append hne, ended_iff_noError hrun, ← hexact]
    constructor
    · rintro ⟨hkept', hno, hended⟩
      exact ⟨⟨hkept, hno⟩, hkept', hended⟩
    · rintro ⟨⟨-, hno⟩, hkept', hended⟩
      exact ⟨hkept', hno, hended⟩

end Steps

theorem dnloadStart_truthful (file : List Byte) (transaction : BitVec 16) :
    Truthful file (dnloadStart file transaction) [] := by
  rw [(dnloadStart_going transaction).truthful_iff]
  refine ⟨fun ret hpc hret => ?_, ended_noStatus (by simp)⟩
  have hclosing : (dnloadStart file transaction).closing = 0 := by
    unfold dnloadStart sendNext
    dsimp only
    split_ifs <;> rfl
  exact Int.le_of_eq hclosing.symm

/-- **A download is reported truthfully** exactly as long as no status reply has `dfuERROR`, and a
request at the end that failed is followed by status requests that fail as well. -/
theorem dnload_truthful_iff (file : List Byte) (xferSize : ℕ) (hmax : xferSize ≤ 65535)
    (transaction : BitVec 16) (answers : List Answer)
    (hanswers : (dnload file).Meets (Answered file xferSize) (dnloadStart file transaction)
      answers) :
    Truthful file ((dnload file).exec (dnloadStart file transaction) answers).1
        ((dnload file).exec (dnloadStart file transaction) answers).2 ↔
      (dnload file).Meets dnloadMeets (dnloadStart file transaction) answers := by
  refine ((dnload file).exec_iff_meets (Going file) (Truthful file) (dnloadStart_going transaction)
    (fun s log a h hanswer => ?_) hanswers).trans
    (and_iff_right (dnloadStart_truthful file transaction))
  exact ⟨h.step hmax hanswer, h.step_exact hmax hanswer⟩

def statusReply (bStatus bState : Byte) : Answer :=
  { result := 6, buffer := fun i => if i = 0 then bStatus else if i = 4 then bState else 0 }

def plainAnswer (result : ℤ) : Answer := { result := result, buffer := fun _ => 0 }

def accepted : List Answer :=
  [plainAnswer 1, plainAnswer 1, statusReply DFU_STATUS_OK STATE_DFU_DOWNLOAD_IDLE, plainAnswer 0,
    statusReply DFU_STATUS_OK STATE_DFU_MANIFEST_SYNC, statusReply DFU_STATUS_OK 0x02]

theorem dnload_truthful_accepted :
    Truthful [0xea] ((dnload [0xea]).exec (dnloadStart [0xea] 0) accepted).1
      ((dnload [0xea]).exec (dnloadStart [0xea] 0) accepted).2 :=
  (dnload_truthful_iff [0xea] 1 (by decide) 0 accepted (by decide)).mpr (by decide)

def refused : List Answer := [plainAnswer 1, plainAnswer 1, statusReply 0x03 STATE_DFU_ERROR]

/-- The device has failed to write, and is asked again. -/
theorem dnload_error_polls :
    (dnload [0xea]).Meets (Answered [0xea] 1) (dnloadStart [0xea] 0) refused ∧
      ((dnload [0xea]).exec (dnloadStart [0xea] 0) refused).1.pc = .pollStatus ∧
      ¬Truthful [0xea] ((dnload [0xea]).exec (dnloadStart [0xea] 0) refused).1
        ((dnload [0xea]).exec (dnloadStart [0xea] 0) refused).2 := by
  refine ⟨by decide, by decide, fun h => ?_⟩
  obtain ⟨-, ret, -, hpc⟩ := h.ended [.block 0 [0xea], .transferred 1]
    (dfuGetStatus (statusReply 0x03 STATE_DFU_ERROR)).2 [] (by decide) (by decide)
  cases hpc

end Openmoko.Dfu
