import Mathlib.Data.List.Forall2
import Openmoko.Phonekit.Proof.NoteStore

/-!
# Confirmations reach their messages

A reply of gsmd is taken for one to the last message. That it is, as long as no message is sent
while another one waits for its reply.
-/

namespace Openmoko.Phonekit

structure Message where
  uid : ℕ
  subNum : Option (List Byte)
  number : List Byte
  message : List Byte
  report : Bool
  -- the request succeeded
  accepted : Bool
  -- the reply to it
  answer : Option ℤ
  -- a report of its delivery has come
  delivered : Bool
  deriving DecidableEq, Repr

def Message.note (m : Message) : JanaNote :=
  { uid := m.uid
    author := m.subNum
    recipient := some m.number
    body := m.message
    categories :=
      if m.answer.any (· < 0) then [.rejected]
      else if m.report ∧ m.delivered = false then [.sending]
      else [.sent]
    ref := m.answer.filter (0 ≤ ·) }

def Message.awaitsReport (m : Message) (ref : ℤ) : Bool :=
  m.report && !m.delivered && m.answer == some ref && decide (0 ≤ ref)

structure SmsSending where
  sms : MokoSms
  -- the messages whose requests gsmd has accepted and not replied to
  requests : List ℕ
  messages : List Message
  deriving DecidableEq, Repr

inductive SendingEvent where
  | send (subNum : Option (List Byte)) (number message : List Byte) (report accepted : Bool)
  | reply (result : ℤ)
  | incomingDs (codingScheme index : ℤ)
  deriving DecidableEq, Repr

def sendingStep (s : SmsSending) : SendingEvent → SmsSending
  | .send subNum number message report accepted =>
    { sms := mokoSmsSend s.sms subNum number message report
      requests := if accepted then s.requests ++ [s.sms.nextUid] else s.requests
      messages := s.messages ++
        [{ uid := s.sms.nextUid, subNum := subNum, number := number, message := message,
           report := report, accepted := accepted, answer := none, delivered := false }] }
  | .reply result =>
    match s.requests with
    | uid :: requests =>
      { sms := onSendSms s.sms result
        requests := requests
        messages := s.messages.map fun m =>
          if m.uid = uid then { m with answer := some result } else m }
    | [] => s
  | .incomingDs codingScheme index =>
    { s with
      sms := onIncomingDs s.sms codingScheme index
      messages := s.messages.map fun m =>
        if codingScheme = TP_STATUS_RECEIVED_OK ∧ m.awaitsReport index then
          { m with delivered := true }
        else m }

def smsSending : Machine SmsSending SendingEvent Empty :=
  { step := fun s e => (sendingStep s e, []) }

def sendingStart (nextUid : ℕ) : SmsSending :=
  { sms := smsStoreOpened nextUid, requests := [], messages := [] }

def Accords (m : Message) (n : JanaNote) : Prop :=
  if m.accepted then n = m.note else n.uid = m.uid ∧ n.hasCategory .sending = false

instance (m : Message) (n : JanaNote) : Decidable (Accords m n) :=
  inferInstanceAs
    (Decidable (if m.accepted then n = m.note else n.uid = m.uid ∧ n.hasCategory .sending = false))

/-- There is a note for each message, which tells what has become of it; without a request it tells
of no sending. -/
def Confirmed (s : SmsSending) : Prop :=
  List.Forall₂ Accords s.messages s.sms.notes

/-- The request of a message for which a report is asked succeeds, and a reply is one to the last
message. -/
def sendingMeets (s : SmsSending) : SendingEvent → Prop
  | .send _ _ _ report accepted => report = true → accepted = true
  | .reply _ => ∀ uid ∈ s.requests.head?, s.sms.lastMsg.map JanaNote.uid = some uid
  | .incomingDs _ _ => True

instance (s : SmsSending) (e : SendingEvent) : Decidable (sendingMeets s e) :=
  match e with
  | .send _ _ _ report accepted => inferInstanceAs (Decidable (report = true → accepted = true))
  | .reply _ =>
    inferInstanceAs
      (Decidable (∀ uid ∈ s.requests.head?, s.sms.lastMsg.map JanaNote.uid = some uid))
  | .incomingDs _ _ => inferInstanceAs (Decidable True)

section Notes

variable {m : Message} {n : JanaNote}

theorem Accords.uid (h : Accords m n) : n.uid = m.uid := by
  unfold Accords at h
  split_ifs at h
  · rw [h]
    rfl
  · exact h.1

theorem hasCategory_sending_note (m : Message) :
    m.note.hasCategory .sending = (m.report && !m.delivered && !m.answer.any (· < 0)) := by
  unfold JanaNote.hasCategory Message.note
  cases m.answer.any (· < 0) <;> cases m.report <;> cases m.delivered <;> rfl

theorem answered_note (m : Message) (hanswer : m.answer = none) (result : ℤ) :
    m.note.answered result = { m with answer := some result }.note := by
  unfold JanaNote.answered
  by_cases hresult : result ≥ 0
  · have hneg : ¬result < 0 := by omega
    simp [hresult, Message.note, hanswer, Option.filter, hneg]
  · have hneg : result < 0 := by omega
    rw [if_neg hresult]
    simp only [Message.note, hanswer, JanaNote.removeCategory, JanaNote.insertCategory]
    cases hreport : m.report <;> cases hdelivered : m.delivered <;>
      simp [Option.filter, hneg]

theorem answered_ne (m : Message) (hanswer : m.answer = none) (result : ℤ) :
    { m with answer := some result }.note ≠ m.note := by
  intro heq
  rw [← answered_note m hanswer] at heq
  unfold JanaNote.answered at heq
  by_cases hresult : result ≥ 0
  · rw [if_pos hresult] at heq
    have href := congrArg JanaNote.ref heq
    simp [Message.note, hanswer] at href
  · rw [if_neg hresult] at heq
    have hcategories := congrArg JanaNote.categories heq
    simp only [JanaNote.insertCategory, Message.note, hanswer] at hcategories
    cases hreport : m.report <;> cases hdelivered : m.delivered <;>
      simp [hreport, hdelivered] at hcategories

theorem reported_note (m : Message) {ref : ℤ} (hawaits : m.awaitsReport ref) :
    m.note.reported = { m with delivered := true }.note := by
  unfold Message.awaitsReport at hawaits
  simp only [Bool.and_eq_true, Bool.not_eq_true', beq_iff_eq, decide_eq_true_eq] at hawaits
  obtain ⟨⟨⟨hreport, hdelivered⟩, hanswer⟩, hpos⟩ := hawaits
  have hneg : ¬ref < 0 := by omega
  simp [JanaNote.reported, JanaNote.removeCategory, JanaNote.insertCategory, Message.note, hanswer,
    hdelivered, hreport, hneg]

theorem awaitsReport_iff (m : Message) (ref : ℤ) :
    (m.note.hasCategory .sending = true ∧ m.note.ref = some ref) ↔ m.awaitsReport ref = true := by
  rw [hasCategory_sending_note]
  unfold Message.awaitsReport
  rcases hanswer : m.answer with _ | result
  · simp [Message.note, hanswer]
  · have href : m.note.ref = some ref ↔ result = ref ∧ 0 ≤ result := by
      simp only [Message.note, hanswer, Option.filter_eq_some_iff, Option.some.injEq,
        decide_eq_true_eq]
      exact and_congr_right fun heq => by rw [heq]
    rw [href]
    simp only [Bool.and_eq_true, Bool.not_eq_true', Option.any_some, decide_eq_false_iff_not,
      beq_iff_eq, Option.some.injEq, decide_eq_true_eq]
    constructor
    · rintro ⟨⟨hreport, -⟩, rfl, hpos⟩
      exact ⟨⟨hreport, rfl⟩, hpos⟩
    · rintro ⟨⟨hreport, rfl⟩, hpos⟩
      exact ⟨⟨hreport, by omega⟩, rfl, hpos⟩

end Notes

structure SendingOk (s : SmsSending) : Prop where
  confirmed : Confirmed s
  nodup : (s.messages.map Message.uid).Nodup
  bound : ∀ m ∈ s.messages, m.uid < s.sms.nextUid
  requests : ∀ uid ∈ s.requests, ∃ m ∈ s.messages,
    m.uid = uid ∧ m.accepted = true ∧ m.answer = none
  requestsNodup : s.requests.Nodup
  last : ∀ note, s.sms.lastMsg = some note → note ∈ s.sms.notes ∧
    ∀ m ∈ s.messages, m.uid = note.uid → m.answer = none

theorem confirmed_iff (s : SmsSending) :
    Confirmed s ↔ s.messages.length = s.sms.notes.length ∧
      ∀ m n, (m, n) ∈ s.messages.zip s.sms.notes → Accords m n :=
  List.forall₂_iff_zip

theorem accords_uids {messages : List Message} {notes : List JanaNote}
    (h : List.Forall₂ Accords messages notes) :
    notes.map JanaNote.uid = messages.map Message.uid := by
  induction h with
  | nil => rfl
  | cons haccords _ ih => rw [List.map_cons, List.map_cons, haccords.uid, ih]

section Steps

variable {s : SmsSending}

theorem SendingOk.uids (h : SendingOk s) :
    s.sms.notes.map JanaNote.uid = s.messages.map Message.uid := accords_uids h.confirmed

theorem SendingOk.exists_note (h : SendingOk s) {m : Message} (hmem : m ∈ s.messages) :
    ∃ n, (m, n) ∈ s.messages.zip s.sms.notes := by
  have hlength : s.messages.length ≤ s.sms.notes.length := ((confirmed_iff s).mp h.confirmed).1.le
  rw [← List.map_fst_zip hlength] at hmem
  obtain ⟨⟨m', n⟩, hpair, rfl⟩ := List.mem_map.mp hmem
  exact ⟨n, hpair⟩

theorem SendingOk.notesNodup (h : SendingOk s) : (s.sms.notes.map JanaNote.uid).Nodup := by
  rw [h.uids]
  exact h.nodup

theorem SendingOk.exists_message (h : SendingOk s) {n : JanaNote} (hmem : n ∈ s.sms.notes) :
    ∃ m, (m, n) ∈ s.messages.zip s.sms.notes := by
  have hlength : s.sms.notes.length ≤ s.messages.length := ((confirmed_iff s).mp h.confirmed).1.ge
  rw [← List.map_snd_zip hlength] at hmem
  obtain ⟨⟨m, n'⟩, hpair, rfl⟩ := List.mem_map.mp hmem
  exact ⟨m, hpair⟩

theorem SendingOk.request (h : SendingOk s) {uid : ℕ} (huid : uid ∈ s.requests) {m : Message}
    (hmem : m ∈ s.messages) (hm : m.uid = uid) : m.accepted = true ∧ m.answer = none := by
  obtain ⟨m', hmem', hm', haccepted, hanswer⟩ := h.requests uid huid
  have hsame : m = m' := List.inj_on_of_nodup_map h.nodup hmem hmem' (hm.trans hm'.symm)
  rw [hsame]
  exact ⟨haccepted, hanswer⟩

theorem zip_maps (f : Message → Message) (g : JanaNote → JanaNote) (messages : List Message)
    (notes : List JanaNote) :
    List.Forall₂ Accords (messages.map f) (notes.map g) ↔
      messages.length = notes.length ∧
        ∀ m n, (m, n) ∈ messages.zip notes → Accords (f m) (g n) := by
  rw [List.forall₂_map_left_iff, List.forall₂_map_right_iff, List.forall₂_iff_zip]

theorem SendingOk.confirmed_reply (h : SendingOk s) (result : ℤ) :
    Confirmed (sendingStep s (.reply result)) ↔ sendingMeets s (.reply result) := by
  rcases hrequests : s.requests with _ | ⟨uid, requests⟩
  · have hstep : sendingStep s (.reply result) = s := by simp only [sendingStep, hrequests]
    simp [hstep, sendingMeets, hrequests, h.confirmed]
  · have hin : uid ∈ s.requests := by
      rw [hrequests]
      exact List.mem_cons_self
    have hzip := ((confirmed_iff s).mp h.confirmed)
    have hiff : Confirmed (sendingStep s (.reply result)) ↔
        ∀ m n, (m, n) ∈ s.messages.zip s.sms.notes →
          Accords (if m.uid = uid then { m with answer := some result } else m)
            (if s.sms.lastMsg.map JanaNote.uid = some n.uid then n.answered result else n) := by
      simp only [Confirmed, sendingStep, hrequests]
      rw [notes_onSendSms h.notesNodup fun note hnote => (h.last note hnote).1, zip_maps,
        and_iff_right hzip.1]
    rw [hiff]
    constructor
    · intro hall uid' huid'
      rw [hrequests, List.head?_cons, Option.mem_some_iff] at huid'
      subst huid'
      obtain ⟨m, hmem, rfl, haccepted, hanswer⟩ := h.requests uid hin
      obtain ⟨n, hpair⟩ := h.exists_note hmem
      have hbefore := hzip.2 m n hpair
      have hafter := hall m n hpair
      by_contra hother
      rw [if_pos rfl, hbefore.uid, if_neg hother] at hafter
      unfold Accords at hbefore hafter
      rw [if_pos haccepted] at hbefore hafter
      exact answered_ne m hanswer result (hafter.symm.trans hbefore)
    · intro hmeets m n hpair
      have haccords := hzip.2 m n hpair
      have hlast : s.sms.lastMsg.map JanaNote.uid = some uid :=
        hmeets uid (by rw [hrequests]; rfl)
      rw [hlast, haccords.uid]
      by_cases huid : m.uid = uid
      · obtain ⟨haccepted, hanswer⟩ := h.request hin (List.of_mem_zip hpair).1 huid
        rw [if_pos huid, if_pos (by rw [huid])]
        unfold Accords at haccords ⊢
        rw [if_pos haccepted] at haccords
        rw [if_pos haccepted, haccords, answered_note m hanswer]
      · rw [if_neg huid, if_neg fun heq => huid (Option.some.inj heq).symm]
        exact haccords

theorem SendingOk.confirmed_send (h : SendingOk s) (subNum : Option (List Byte))
    (number message : List Byte) (report accepted : Bool) :
    Confirmed (sendingStep s (.send subNum number message report accepted)) ↔
      (report = true → accepted = true) := by
  have hzip := (confirmed_iff s).mp h.confirmed
  simp only [Confirmed, sendingStep, mokoSmsSend, janaStoreAddComponent]
  rw [List.forall₂_iff_zip, List.zip_append hzip.1]
  constructor
  · rintro ⟨-, hall⟩ hreport
    have hnew := hall (List.mem_append_right _ List.mem_cons_self)
    by_contra haccepted
    simp [Accords, haccepted, hreport, JanaNote.hasCategory] at hnew
  · intro hmeets
    refine ⟨by simp [hzip.1], fun {m n} hpair => ?_⟩
    rcases List.mem_append.mp hpair with hold | hnew
    · exact hzip.2 m n hold
    · obtain ⟨rfl, rfl⟩ := Prod.mk.inj (List.mem_singleton.mp hnew)
      cases accepted <;> cases report <;>
        simp [Accords, Message.note, JanaNote.hasCategory] at hmeets ⊢

theorem SendingOk.send (h : SendingOk s) (subNum : Option (List Byte)) (number message : List Byte)
    {report accepted : Bool} (hmeets : report = true → accepted = true) :
    SendingOk (sendingStep s (.send subNum number message report accepted)) := by
  have hnew : s.sms.nextUid ∉ s.messages.map Message.uid := by
    intro hin
    obtain ⟨m, hmem, heq⟩ := List.mem_map.mp hin
    exact Nat.lt_irrefl _ (heq ▸ h.bound m hmem)
  have hrequest : s.sms.nextUid ∉ s.requests := by
    intro hin
    obtain ⟨m, hmem, heq, -⟩ := h.requests _ hin
    exact hnew (List.mem_map.mpr ⟨m, hmem, heq⟩)
  refine ⟨(h.confirmed_send ..).mpr hmeets, ?_, ?_, ?_, ?_, ?_⟩
  · simp only [sendingStep, List.map_append, List.map_cons, List.map_nil]
    exact (List.perm_append_singleton _ _).nodup_iff.mpr (List.nodup_cons.mpr ⟨hnew, h.nodup⟩)
  · intro m hmem
    rcases List.mem_append.mp hmem with hmem | hmem
    · exact Nat.lt_succ_of_lt (h.bound m hmem)
    · rw [List.mem_singleton.mp hmem]
      exact Nat.lt_succ_self _
  · intro uid huid
    have hcases : uid ∈ s.requests ∨ (accepted = true ∧ uid = s.sms.nextUid) := by
      simp only [sendingStep] at huid
      split_ifs at huid with haccepted
      · exact (List.mem_append.mp huid).imp_right fun hin => ⟨haccepted, List.mem_singleton.mp hin⟩
      · exact Or.inl huid
    rcases hcases with huid | ⟨haccepted, rfl⟩
    · obtain ⟨m, hmem, hm⟩ := h.requests uid huid
      exact ⟨m, List.mem_append_left _ hmem, hm⟩
    · exact ⟨_, List.mem_append_right _ List.mem_cons_self, rfl, haccepted, rfl⟩
  · simp only [sendingStep]
    split_ifs
    · exact (List.perm_append_singleton _ _).nodup_iff.mpr
        (List.nodup_cons.mpr ⟨hrequest, h.requestsNodup⟩)
    · exact h.requestsNodup
  · rintro note hnote
    obtain rfl := Option.some.inj hnote
    refine ⟨List.mem_append_right _ List.mem_cons_self, fun m hmem huid => ?_⟩
    rcases List.mem_append.mp hmem with hmem | hmem
    · exact absurd (List.mem_map.mpr ⟨m, hmem, huid⟩) hnew
    · rw [List.mem_singleton.mp hmem]

theorem SendingOk.reply (h : SendingOk s) {result : ℤ} (hmeets : sendingMeets s (.reply result)) :
    SendingOk (sendingStep s (.reply result)) := by
  have hconfirmed := (h.confirmed_reply result).mpr hmeets
  rcases hrequests : s.requests with _ | ⟨uid, requests⟩
  · have hstep : sendingStep s (.reply result) = s := by simp only [sendingStep, hrequests]
    rwa [hstep]
  · have hnodup := h.requestsNodup
    rw [hrequests, List.nodup_cons] at hnodup
    have hkeeps : ∀ m : Message, (if m.uid = uid then { m with answer := some result } else m).uid =
        m.uid := by
      intro m
      split_ifs <;> rfl
    simp only [sendingStep, hrequests] at hconfirmed ⊢
    refine ⟨hconfirmed, ?_, ?_, ?_, hnodup.2, ?_⟩
    · rw [List.map_map]
      simpa only [Function.comp_def, hkeeps] using h.nodup
    · intro m' hmem'
      obtain ⟨m, hmem, rfl⟩ := List.mem_map.mp hmem'
      rw [hkeeps, nextUid_onSendSms]
      exact h.bound m hmem
    · intro uid' huid'
      obtain ⟨m, hmem, rfl, hm⟩ := h.requests uid' (by
        rw [hrequests]
        exact List.mem_cons_of_mem _ huid')
      have hne : m.uid ≠ uid := fun heq => hnodup.1 (heq ▸ huid')
      exact ⟨m, List.mem_map.mpr ⟨m, hmem, if_neg hne⟩, rfl, hm⟩
    · intro note hnote
      rw [lastMsg_onSendSms] at hnote
      cases hnote

theorem Accords.report {m : Message} {n : JanaNote} (h : Accords m n) (codingScheme index : ℤ) :
    Accords
      (if codingScheme = TP_STATUS_RECEIVED_OK ∧ m.awaitsReport index then
        { m with delivered := true } else m)
      (if codingScheme = TP_STATUS_RECEIVED_OK ∧ n.hasCategory .sending = true ∧
        n.ref = some index then n.reported else n) := by
  by_cases haccepted : m.accepted = true
  · have hn : n = m.note := by simpa [Accords, haccepted] using h
    subst hn
    have hiff := awaitsReport_iff m index
    by_cases hreport : codingScheme = TP_STATUS_RECEIVED_OK ∧ m.awaitsReport index = true
    · rw [if_pos hreport, if_pos ⟨hreport.1, hiff.mpr hreport.2⟩, reported_note m hreport.2]
      simp [Accords, haccepted]
    · rw [if_neg hreport, if_neg fun hfound => hreport ⟨hfound.1, hiff.mp hfound.2⟩]
      exact h
  · obtain ⟨huid, hsending⟩ : n.uid = m.uid ∧ n.hasCategory .sending = false := by
      simpa [Accords, haccepted] using h
    have hother : ¬(codingScheme = TP_STATUS_RECEIVED_OK ∧ n.hasCategory .sending = true ∧
        n.ref = some index) := by
      simp [hsending]
    rw [if_neg hother]
    split_ifs
    · simpa [Accords, haccepted] using h
    · exact h

theorem SendingOk.incomingDs (h : SendingOk s) (codingScheme index : ℤ) :
    SendingOk (sendingStep s (.incomingDs codingScheme index)) := by
  have hzip := (confirmed_iff s).mp h.confirmed
  have hframe := onIncomingDs_frame s.sms codingScheme index
  have hkeeps : ∀ m : Message, (if codingScheme = TP_STATUS_RECEIVED_OK ∧ m.awaitsReport index then
      { m with delivered := true } else m).uid = m.uid := by
    intro m
    split_ifs <;> rfl
  have hanswer : ∀ m : Message, (if codingScheme = TP_STATUS_RECEIVED_OK ∧ m.awaitsReport index then
      { m with delivered := true } else m).answer = m.answer := by
    intro m
    split_ifs <;> rfl
  simp only [sendingStep]
  refine ⟨?_, ?_, ?_, ?_, h.requestsNodup, ?_⟩
  · simp only [Confirmed]
    rw [notes_onIncomingDs h.notesNodup, zip_maps]
    exact ⟨hzip.1, fun m n hpair => (hzip.2 m n hpair).report codingScheme index⟩
  · rw [List.map_map]
    simpa only [Function.comp_def, hkeeps] using h.nodup
  · intro m' hmem'
    obtain ⟨m, hmem, rfl⟩ := List.mem_map.mp hmem'
    rw [hkeeps, hframe.1]
    exact h.bound m hmem
  · intro uid huid
    obtain ⟨m, hmem, rfl, haccepted, hnone⟩ := h.requests uid huid
    have hunawaited : m.awaitsReport index = false := by simp [Message.awaitsReport, hnone]
    exact ⟨m, List.mem_map.mpr ⟨m, hmem, if_neg (by simp [hunawaited])⟩, rfl, haccepted, hnone⟩
  · intro note hnote
    rw [hframe.2] at hnote
    obtain ⟨hmem, hmessage⟩ := h.last note hnote
    constructor
    · rw [notes_onIncomingDs h.notesNodup]
      refine List.mem_map.mpr ⟨note, hmem, if_neg ?_⟩
      rintro ⟨-, hsending, href⟩
      obtain ⟨m, hpair⟩ := h.exists_message hmem
      have haccords := hzip.2 m note hpair
      have hnone := hmessage m (List.of_mem_zip hpair).1 haccords.uid.symm
      unfold Accords at haccords
      split_ifs at haccords
      · rw [haccords] at href
        simp [Message.note, hnone] at href
      · rw [haccords.2] at hsending
        cases hsending
    · intro m' hmem' huid
      obtain ⟨m, hmem, rfl⟩ := List.mem_map.mp hmem'
      rw [hkeeps] at huid
      rw [hanswer]
      exact hmessage m hmem huid

end Steps

theorem sendingStart_ok (nextUid : ℕ) : SendingOk (sendingStart nextUid) := by
  refine ⟨List.Forall₂.nil, List.nodup_nil, ?_, ?_, List.nodup_nil, ?_⟩ <;>
    simp [sendingStart, smsStoreOpened]

/-- **Confirmations reach the right message exactly as long as** no request fails for which a report
is asked, and each reply is one to the last message. -/
theorem confirmations_right_iff (nextUid : ℕ) (events : List SendingEvent) :
    smsSending.Meets (fun s e => Confirmed (sendingStep s e)) (sendingStart nextUid) events ↔
      smsSending.Meets sendingMeets (sendingStart nextUid) events := by
  refine smsSending.meets_iff_of_inv SendingOk (sendingStart_ok nextUid) (fun s e h => ?_) events
  cases e with
  | send subNum number message report accepted =>
    exact ⟨h.confirmed_send .., fun hmeets => h.send _ _ _ hmeets⟩
  | reply result => exact ⟨h.confirmed_reply result, fun hmeets => h.reply hmeets⟩
  | incomingDs codingScheme index =>
    have hnext := h.incomingDs codingScheme index
    exact ⟨iff_of_true hnext.confirmed trivial, fun _ => hnext⟩

/-- Sent while another one waits for its reply, a message gets that reply; and the note of a message
whose request failed tells of sending for ever. -/
theorem not_confirmations_right_twoMessages :
    ¬smsSending.Meets (fun s e => Confirmed (sendingStep s e)) (sendingStart 0)
        [.send none [0x31] [0x41] true true, .send none [0x32] [0x42] true true, .reply 7] ∧
      ¬smsSending.Meets (fun s e => Confirmed (sendingStep s e)) (sendingStart 0)
        [.send none [0x31] [0x41] true false] := by
  constructor
  · rintro ⟨-, -, hreply, -⟩
    have hfirst := ((confirmed_iff _).mp hreply).2 _ _ List.mem_cons_self
    revert hfirst
    decide
  · rintro ⟨hsend, -⟩
    have hfirst := ((confirmed_iff _).mp hsend).2 _ _ List.mem_cons_self
    revert hfirst
    decide

end Openmoko.Phonekit
