import Mathlib.Data.List.Nodup
import Mathlib.Logic.Function.Iterate
import Openmoko.Phonekit.Proof.NoteStore

/-!
# Unread messages are counted

The signals that are still to come are taken as delivered: what the unread messages are then is
changed by an operation of the store as by a signal that comes at once. A sent message is told from
a received one by its categories, which a rejected one has lost.
-/

namespace Openmoko.Phonekit

structure SmsStore where
  sms : MokoSms
  -- the messages that were sent, the others were received
  sent : List ℕ
  deriving DecidableEq, Repr

inductive StoreEvent where
  | incomingSms (ownNumber : Option (List Byte)) (payload : SmsPayload)
  | send (subNum : Option (List Byte)) (number message : List Byte) (report : Bool)
  | reply (result : ℤ)
  | incomingDs (codingScheme index : ℤ)
  | read (uid : ℕ)
  | remove (uid : ℕ)
  | signal
  deriving DecidableEq, Repr

def storeStep (s : SmsStore) : StoreEvent → SmsStore
  | .incomingSms ownNumber payload => { s with sms := onIncomingSms s.sms ownNumber payload }
  | .send subNum number message report =>
    { sms := mokoSmsSend s.sms subNum number message report
      sent := s.sms.nextUid :: s.sent }
  | .reply result => { s with sms := onSendSms s.sms result }
  | .incomingDs codingScheme index => { s with sms := onIncomingDs s.sms codingScheme index }
  | .read uid => { s with sms := markMessageRead s.sms uid }
  | .remove uid => { s with sms := janaStoreRemoveComponent s.sms uid }
  | .signal => { s with sms := deliverSignal s.sms }

def smsStore : Machine SmsStore StoreEvent Empty :=
  { step := fun s e => (storeStep s e, []) }

def storeStart (nextUid : ℕ) : SmsStore :=
  { sms := smsStoreOpened nextUid, sent := [] }

def deliverSignals (s : MokoSms) : MokoSms := deliverSignal^[s.signals.length] s

/-- The unread messages are the received ones that are not marked, once all is told, and a sent
message never is one. -/
structure UnreadRight (s : SmsStore) : Prop where
  nodup : (deliverSignals s.sms).unreadUids.Nodup
  exact : ∀ uid, uid ∈ (deliverSignals s.sms).unreadUids ↔
    uid ∉ s.sent ∧ ∃ n ∈ s.sms.notes, n.uid = uid ∧ n.hasCategory .read = false
  neverSent : ∀ uid ∈ s.sms.unreadUids, uid ∉ s.sent

def storeMeets (s : SmsStore) : StoreEvent → Prop
  | .reply result => result < 0 → ∀ note ∈ s.sms.lastMsg, s.sms.stores note.uid = false
  | _ => True

instance (s : SmsStore) (e : StoreEvent) : Decidable (storeMeets s e) :=
  match e with
  | .reply result =>
    inferInstanceAs
      (Decidable (result < 0 → ∀ note ∈ s.sms.lastMsg, s.sms.stores note.uid = false))
  | .incomingSms _ _ | .send _ _ _ _ | .incomingDs _ _ | .read _ | .remove _ | .signal =>
    inferInstanceAs (Decidable True)

def MokoSms.toBeUnread (s : MokoSms) : List ℕ := s.signals.foldl onNoteSignal s.unreadUids

theorem unreadUids_deliverSignals (s : MokoSms) :
    (deliverSignals s).unreadUids = s.toBeUnread := by
  have hall : ∀ (signals : List NoteSignal) (s : MokoSms), s.signals = signals →
      (deliverSignal^[signals.length] s).unreadUids = signals.foldl onNoteSignal s.unreadUids := by
    intro signals
    induction signals with
    | nil => exact fun _ _ => rfl
    | cons signal signals ih =>
      intro s hsignals
      rw [List.length_cons, Function.iterate_succ_apply, List.foldl_cons, ih (deliverSignal s)]
      · simp only [deliverSignal, hsignals]
      · simp only [deliverSignal, hsignals]
  exact hall s.signals s rfl

theorem toBeUnread_deliver (s : MokoSms) : (deliverSignal s).toBeUnread = s.toBeUnread := by
  unfold deliverSignal
  split
  · next signal signals hsignals => simp only [MokoSms.toBeUnread, hsignals, List.foldl_cons]
  · rfl

theorem toBeUnread_add (s : MokoSms) (note : JanaNote) :
    (janaStoreAddComponent s note).toBeUnread = noteAddedCb s.toBeUnread note := by
  simp only [MokoSms.toBeUnread, janaStoreAddComponent, List.foldl_append, List.foldl_cons,
    List.foldl_nil]
  rfl

variable {note : JanaNote} {uid : ℕ}

theorem toBeUnread_modify {s : MokoSms} (hstores : s.stores note.uid = true) :
    (janaStoreModifyComponent s note).toBeUnread = noteModifiedCb s.toBeUnread note := by
  simp only [MokoSms.toBeUnread, janaStoreModifyComponent, hstores, if_true, List.foldl_append,
    List.foldl_cons, List.foldl_nil]
  rfl

theorem toBeUnread_remove {s : MokoSms} (hstores : s.stores uid = true) :
    (janaStoreRemoveComponent s uid).toBeUnread = s.toBeUnread.erase uid := by
  simp only [MokoSms.toBeUnread, janaStoreRemoveComponent, hstores, if_true, List.foldl_append,
    List.foldl_cons, List.foldl_nil]
  rfl

/-! ### The invariant -/

def JanaNote.isSent (note : JanaNote) : Bool :=
  note.hasCategory .sending || note.hasCategory .sent

def NoteSignal.Ok (sent : List ℕ) (nextUid : ℕ) : NoteSignal → Prop
  | .added comp | .modified comp => comp.uid < nextUid ∧ (comp.uid ∈ sent → comp.isSent = true)
  | .removed _ => True

structure UnreadOk (sent : List ℕ) (s : MokoSms) : Prop where
  nodup : s.toBeUnread.Nodup
  exact : ∀ uid, uid ∈ s.toBeUnread ↔
    uid ∉ sent ∧ ∃ n ∈ s.notes, n.uid = uid ∧ n.hasCategory .read = false
  neverSent : ∀ uid ∈ s.unreadUids, uid ∉ sent ∧ uid < s.nextUid
  signals : ∀ signal ∈ s.signals, signal.Ok sent s.nextUid
  bound : ∀ n ∈ s.notes, n.uid < s.nextUid
  sentBound : ∀ uid ∈ sent, uid < s.nextUid
  categories : ∀ n ∈ s.notes, n.isSent = decide (n.uid ∈ sent)
  last : ∀ note ∈ s.lastMsg, note.uid ∈ sent ∧ note.isSent = true ∧ note.hasCategory .read = false

theorem UnreadOk.right {s : SmsStore} (h : UnreadOk s.sent s.sms) : UnreadRight s :=
  ⟨by rw [unreadUids_deliverSignals]; exact h.nodup,
    by rw [unreadUids_deliverSignals]; exact h.exact, fun uid huid => (h.neverSent uid huid).1⟩

theorem isUnread_of_isSent (h : note.isSent = true) : note.isUnread = false := by
  unfold JanaNote.isSent at h
  simp [JanaNote.isUnread, h]

theorem mem_onNoteSignal {unreadUids : List ℕ} {signal : NoteSignal}
    (h : uid ∈ onNoteSignal unreadUids signal) :
    uid ∈ unreadUids ∨ ∃ comp, (signal = .added comp ∨ signal = .modified comp) ∧
      comp.uid = uid ∧ comp.isUnread = true := by
  cases signal with
  | added comp =>
    simp only [onNoteSignal, noteAddedCb] at h
    split_ifs at h with hunread
    · rcases List.mem_cons.mp h with rfl | h
      · exact Or.inr ⟨comp, Or.inl rfl, rfl, hunread⟩
      · exact Or.inl h
    · exact Or.inl h
  | modified comp =>
    simp only [onNoteSignal, noteModifiedCb] at h
    split_ifs at h with hin hread hunread
    · exact Or.inl (List.mem_of_mem_erase h)
    · exact Or.inl h
    · rcases List.mem_cons.mp h with rfl | h
      · exact Or.inr ⟨comp, Or.inr rfl, rfl, hunread⟩
      · exact Or.inl h
    · exact Or.inl h
  | removed uid' => exact Or.inl (List.mem_of_mem_erase h)

section Operations

variable {sent : List ℕ} {s : MokoSms}

theorem UnreadOk.not_toBeUnread (h : UnreadOk sent s) (huid : uid ∈ sent) : uid ∉ s.toBeUnread :=
  fun hin => ((h.exact uid).mp hin).1 huid

theorem UnreadOk.fresh (h : UnreadOk sent s) : s.nextUid ∉ s.toBeUnread := by
  intro hin
  obtain ⟨-, n, hmem, heq, -⟩ := (h.exact _).mp hin
  exact Nat.lt_irrefl _ (heq ▸ h.bound n hmem)

theorem UnreadOk.signals_append (h : UnreadOk sent s) {signal : NoteSignal}
    (hok : signal.Ok sent s.nextUid) :
    ∀ signal' ∈ s.signals ++ [signal], signal'.Ok sent s.nextUid := by
  intro signal' hmem
  rcases List.mem_append.mp hmem with hmem | hmem
  · exact h.signals signal' hmem
  · rw [List.mem_singleton.mp hmem]
    exact hok

theorem UnreadOk.exact_erase (h : UnreadOk sent s) {notes : List JanaNote}
    (hother : ∀ n, n.uid ≠ uid → (n ∈ notes ↔ n ∈ s.notes))
    (hgone : uid ∉ sent → ∀ n ∈ notes, n.uid = uid → n.hasCategory .read = true) (uid' : ℕ) :
    uid' ∈ s.toBeUnread.erase uid ↔
      uid' ∉ sent ∧ ∃ n ∈ notes, n.uid = uid' ∧ n.hasCategory .read = false := by
  rw [h.nodup.mem_erase_iff, h.exact]
  constructor
  · rintro ⟨hne, hsent, n, hmem, rfl, hread⟩
    exact ⟨hsent, n, (hother n hne).mpr hmem, rfl, hread⟩
  · rintro ⟨hsent, n, hmem, rfl, hread⟩
    have hne : n.uid ≠ uid := by
      rintro rfl
      rw [hgone hsent n hmem rfl] at hread
      cases hread
    exact ⟨hne, hsent, n, (hother n hne).mp hmem, rfl, hread⟩

theorem UnreadOk.modify (h : UnreadOk sent s) (hisSent : note.isSent = decide (note.uid ∈ sent))
    (hread : note.uid ∉ sent → note.hasCategory .read = true) :
    UnreadOk sent (janaStoreModifyComponent s note) := by
  by_cases hstores : s.stores note.uid = true
  · have hpending : (janaStoreModifyComponent s note).toBeUnread = s.toBeUnread.erase note.uid := by
      rw [toBeUnread_modify hstores, noteModifiedCb]
      split_ifs with hin hcategory hunread
      · rfl
      · exact absurd (hread ((h.exact _).mp hin).1) hcategory
      · unfold JanaNote.isUnread JanaNote.isSent at *
        by_cases hsent : note.uid ∈ sent
        · simp [hisSent, hsent] at hunread
        · simp [hread hsent] at hunread
      · exact (List.erase_of_not_mem hin).symm
    have hnotes := notes_modify s note
    have hmem : ∀ n ∈ (janaStoreModifyComponent s note).notes, n = note ∨ n ∈ s.notes := by
      intro n hmem
      rw [hnotes] at hmem
      obtain ⟨n', hmem', rfl⟩ := List.mem_map.mp hmem
      split_ifs
      · exact Or.inl rfl
      · exact Or.inr hmem'
    have hbound : note.uid < s.nextUid := by
      obtain ⟨n, hn, huid⟩ := List.any_eq_true.mp hstores
      rw [← of_decide_eq_true huid]
      exact h.bound n hn
    have hframe : janaStoreModifyComponent s note =
        { s with
          notes := (janaStoreModifyComponent s note).notes
          signals := s.signals ++ [.modified note] } := by
      simp only [janaStoreModifyComponent, hstores, if_true]
    rw [hframe] at hpending ⊢
    refine ⟨?_, ?_, h.neverSent, ?_, ?_, h.sentBound, ?_, h.last⟩
    · rw [hpending]
      exact h.nodup.erase _
    · rw [hpending]
      refine h.exact_erase (fun n hne => ?_) fun hsent n hn huid => ?_
      · rw [hnotes, List.mem_map]
        constructor
        · rintro ⟨n', hn', rfl⟩
          split_ifs at hne ⊢ with heq
          · exact absurd rfl hne
          · exact hn'
        · exact fun hn => ⟨n, hn, if_neg hne⟩
      · rw [hnotes] at hn
        obtain ⟨n', -, rfl⟩ := List.mem_map.mp hn
        split_ifs at huid ⊢ with heq
        · exact hread hsent
        · exact absurd huid heq
    · exact h.signals_append ⟨hbound, fun hsent => by simp [hisSent, hsent]⟩
    · intro n hn
      rcases hmem n hn with rfl | hn
      · exact hbound
      · exact h.bound n hn
    · intro n hn
      rcases hmem n hn with rfl | hn
      · exact hisSent
      · exact h.categories n hn
  · have hsame : janaStoreModifyComponent s note = s := by
      simp only [janaStoreModifyComponent, hstores, if_false, Bool.false_eq_true]
    rw [hsame]
    exact h

theorem UnreadOk.modifySent (h : UnreadOk sent s) (hsent : note.uid ∈ sent)
    (hisSent : note.isSent = true) : UnreadOk sent (janaStoreModifyComponent s note) :=
  h.modify (by simp [hisSent, hsent]) fun hout => absurd hsent hout

theorem UnreadOk.modifyAll {news : List JanaNote}
    (hnews : ∀ new ∈ news, new.uid ∈ sent ∧ new.isSent = true) {s : MokoSms} (h : UnreadOk sent s) :
    UnreadOk sent (news.foldl janaStoreModifyComponent s) := by
  induction news generalizing s with
  | nil => exact h
  | cons new news ih =>
    have hnew := hnews new List.mem_cons_self
    exact ih (fun new' hmem => hnews new' (List.mem_cons_of_mem _ hmem))
      (h.modifySent hnew.1 hnew.2)

theorem UnreadOk.incomingDs (h : UnreadOk sent s) (codingScheme index : ℤ) :
    UnreadOk sent (onIncomingDs s codingScheme index) := by
  unfold onIncomingDs
  split_ifs
  · rw [statusReport_eq]
    refine UnreadOk.modifyAll (fun new hnew => ?_) h
    obtain ⟨n, hmem, rfl⟩ := List.mem_map.mp hnew
    obtain ⟨hn, hsending⟩ := List.mem_filter.mp (List.mem_of_mem_filter hmem)
    have hcategories := h.categories n hn
    rw [JanaNote.isSent, hsending, Bool.true_or] at hcategories
    exact ⟨of_decide_eq_true hcategories.symm, by
      simp [JanaNote.isSent, JanaNote.hasCategory, JanaNote.reported, JanaNote.insertCategory]⟩
  · exact h

theorem UnreadOk.lastMsg (h : UnreadOk sent s) (msg : Option JanaNote)
    (hmsg : ∀ note ∈ msg, note.uid ∈ sent ∧ note.isSent = true ∧ note.hasCategory .read = false) :
    UnreadOk sent { s with lastMsg := msg } :=
  ⟨h.nodup, h.exact, h.neverSent, h.signals, h.bound, h.sentBound, h.categories, hmsg⟩

theorem UnreadOk.accepted (h : UnreadOk sent s) {result : ℤ} (hresult : result ≥ 0) :
    UnreadOk sent (onSendSms s result) := by
  rcases hmsg : s.lastMsg with _ | note
  · simpa only [onSendSms, hmsg] using h
  · obtain ⟨hsent, hisSent, -⟩ := h.last note hmsg
    have hanswered : (note.answered result).isSent = true := by
      rw [JanaNote.answered, if_pos hresult]
      exact hisSent
    rw [onSendSms_some hmsg]
    rw [← answered_uid note result] at hsent
    exact (h.modifySent hsent hanswered).lastMsg none fun _ hnone => by cases hnone

theorem UnreadOk.rejected (h : UnreadOk sent s) (result : ℤ)
    (hremoved : ∀ note ∈ s.lastMsg, s.stores note.uid = false) :
    UnreadOk sent (onSendSms s result) := by
  rcases hmsg : s.lastMsg with _ | note
  · simpa only [onSendSms, hmsg] using h
  · have hsame : janaStoreModifyComponent s (note.answered result) = s := by
      simp only [janaStoreModifyComponent, answered_uid, hremoved note hmsg, if_false,
        Bool.false_eq_true]
    rw [onSendSms_some hmsg, hsame]
    exact h.lastMsg none fun _ hnone => by cases hnone

theorem UnreadOk.markRead (h : UnreadOk sent s) (uid : ℕ) :
    UnreadOk sent (markMessageRead s uid) := by
  unfold markMessageRead
  split
  · next comp hfind =>
    split_ifs
    · exact h
    · apply h.modify
      · change _ = decide (comp.uid ∈ sent)
        rw [← h.categories comp (List.mem_of_find?_eq_some hfind)]
        simp [JanaNote.isSent, JanaNote.hasCategory, JanaNote.insertCategory]
      · intro _
        simp [JanaNote.hasCategory, JanaNote.insertCategory]
  · exact h

theorem UnreadOk.remove (h : UnreadOk sent s) (uid : ℕ) :
    UnreadOk sent (janaStoreRemoveComponent s uid) := by
  by_cases hstores : s.stores uid = true
  · have hpending := toBeUnread_remove hstores
    have hframe : janaStoreRemoveComponent s uid =
        { s with
          notes := s.notes.filter (·.uid ≠ uid)
          signals := s.signals ++ [.removed uid] } := by
      simp only [janaStoreRemoveComponent, hstores, if_true]
    rw [hframe] at hpending ⊢
    refine ⟨?_, ?_, h.neverSent, h.signals_append trivial, ?_, h.sentBound, ?_, h.last⟩
    · rw [hpending]
      exact h.nodup.erase _
    · rw [hpending]
      refine h.exact_erase (fun n hne => ?_) fun _ n hn huid => ?_
      · simp [List.mem_filter, hne]
      · exact absurd huid (of_decide_eq_true (List.mem_filter.mp hn).2)
    · exact fun n hn => h.bound n (List.mem_of_mem_filter hn)
    · exact fun n hn => h.categories n (List.mem_of_mem_filter hn)
  · have hsame : janaStoreRemoveComponent s uid = s := by
      simp only [janaStoreRemoveComponent, hstores, if_false, Bool.false_eq_true]
    rw [hsame]
    exact h

theorem UnreadOk.deliver (h : UnreadOk sent s) : UnreadOk sent (deliverSignal s) := by
  have hpending := toBeUnread_deliver s
  unfold deliverSignal at hpending ⊢
  split
  · next signal signals hsignals =>
    rw [hsignals] at hpending
    have hok := h.signals signal (by rw [hsignals]; exact List.mem_cons_self)
    refine ⟨by rw [hpending]; exact h.nodup, by rw [hpending]; exact h.exact, ?_, ?_, h.bound,
      h.sentBound, h.categories, h.last⟩
    · intro uid huid
      rcases mem_onNoteSignal huid with hold | ⟨comp, hsignal, rfl, hunread⟩
      · exact h.neverSent uid hold
      · have hcomp : comp.uid < s.nextUid ∧ (comp.uid ∈ sent → comp.isSent = true) := by
          rcases hsignal with rfl | rfl <;> exact hok
        refine ⟨fun hsent => ?_, hcomp.1⟩
        rw [isUnread_of_isSent (hcomp.2 hsent)] at hunread
        cases hunread
    · exact fun signal' hmem =>
        h.signals signal' (by rw [hsignals]; exact List.mem_cons_of_mem _ hmem)
  · exact h

theorem UnreadOk.add (h : UnreadOk sent s) (huid : note.uid = s.nextUid)
    (hread : note.hasCategory .read = false) {sent' : List ℕ}
    (hsent' : sent' = if note.isSent then s.nextUid :: sent else sent) :
    UnreadOk sent' (janaStoreAddComponent s note) := by
  have hsent : ∀ uid, uid ∈ sent' ↔ uid ∈ sent ∨ (note.isSent = true ∧ uid = s.nextUid) := by
    intro uid
    rw [hsent']
    split_ifs with hisSent
    · simp [hisSent, or_comm]
    · simp [hisSent]
  have hfresh : s.nextUid ∉ sent := fun hin => Nat.lt_irrefl _ (h.sentBound _ hin)
  have hpending : (janaStoreAddComponent s note).toBeUnread =
      if note.isSent then s.toBeUnread else s.nextUid :: s.toBeUnread := by
    rw [toBeUnread_add, noteAddedCb, huid]
    have hunread : note.isUnread = !note.isSent := by
      rw [JanaNote.isUnread, hread]
      rfl
    cases hisSent : note.isSent <;> simp [hunread, hisSent]
  have hnotes : ∀ n ∈ s.notes, n.uid ∈ sent' ↔ n.uid ∈ sent := by
    intro n hn
    have hne : n.uid ≠ s.nextUid := (h.bound n hn).ne
    simp [hsent, hne]
  refine ⟨?_, ?_, ?_, ?_, ?_, ?_, ?_, ?_⟩
  · rw [hpending]
    split_ifs
    · exact h.nodup
    · exact List.nodup_cons.mpr ⟨h.fresh, h.nodup⟩
  · intro uid
    have hin : uid ∈ (janaStoreAddComponent s note).toBeUnread ↔
        uid ∈ s.toBeUnread ∨ (note.isSent = false ∧ uid = s.nextUid) := by
      rw [hpending]
      cases note.isSent <;> simp [or_comm]
    rw [hin, h.exact, hsent]
    constructor
    · rintro (⟨hout, n, hn, rfl, hunread⟩ | ⟨hreceived, rfl⟩)
      · refine ⟨?_, n, List.mem_append_left _ hn, rfl, hunread⟩
        rintro (hin | ⟨-, heq⟩)
        · exact hout hin
        · exact (h.bound n hn).ne heq
      · refine ⟨?_, note, List.mem_append_right _ List.mem_cons_self, huid, hread⟩
        rintro (hin | ⟨hisSent, -⟩)
        · exact hfresh hin
        · rw [hreceived] at hisSent
          cases hisSent
    · rintro ⟨hout, n, hn, rfl, hunread⟩
      rcases List.mem_append.mp hn with hn | hn
      · exact Or.inl ⟨fun hin => hout (Or.inl hin), n, hn, rfl, hunread⟩
      · obtain rfl := List.mem_singleton.mp hn
        refine Or.inr ⟨?_, huid⟩
        by_contra hisSent
        exact hout (Or.inr ⟨by simpa using hisSent, huid⟩)
  · intro uid hin
    obtain ⟨hout, hlt⟩ := h.neverSent uid hin
    refine ⟨?_, Nat.lt_succ_of_lt hlt⟩
    rw [hsent]
    rintro (hin | ⟨-, heq⟩)
    · exact hout hin
    · exact hlt.ne heq
  · intro signal hmem
    rcases List.mem_append.mp hmem with hmem | hmem
    · have hok := h.signals signal hmem
      cases signal with
      | added comp | modified comp =>
        refine ⟨Nat.lt_succ_of_lt hok.1, fun hin => hok.2 ?_⟩
        rcases (hsent _).mp hin with hin | ⟨-, heq⟩
        · exact hin
        · exact absurd heq hok.1.ne
      | removed uid => trivial
    · rw [List.mem_singleton.mp hmem]
      refine ⟨huid ▸ Nat.lt_succ_self _, fun hin => ?_⟩
      rw [huid] at hin
      rcases (hsent _).mp hin with hin | ⟨hisSent, -⟩
      · exact absurd hin hfresh
      · exact hisSent
  · intro n hn
    rcases List.mem_append.mp hn with hn | hn
    · exact Nat.lt_succ_of_lt (h.bound n hn)
    · rw [List.mem_singleton.mp hn, huid]
      exact Nat.lt_succ_self _
  · intro uid hin
    rcases (hsent _).mp hin with hin | ⟨-, rfl⟩
    · exact Nat.lt_succ_of_lt (h.sentBound uid hin)
    · exact Nat.lt_succ_self _
  · intro n hn
    rcases List.mem_append.mp hn with hn | hn
    · simp only [hnotes n hn]
      exact h.categories n hn
    · rw [List.mem_singleton.mp hn, huid]
      have hin : s.nextUid ∈ sent' ↔ note.isSent = true := by simp [hsent, hfresh]
      simp [hin]
  · intro note' hmsg
    obtain ⟨hin, hrest⟩ := h.last note' hmsg
    exact ⟨(hsent _).mpr (Or.inl hin), hrest⟩

end Operations

theorem storeStart_ok (nextUid : ℕ) :
    UnreadOk (storeStart nextUid).sent (storeStart nextUid).sms := by
  constructor <;> simp [storeStart, smsStoreOpened, MokoSms.toBeUnread]

theorem UnreadOk.step {s : SmsStore} (h : UnreadOk s.sent s.sms) {e : StoreEvent}
    (hmeets : storeMeets s e) : UnreadOk (storeStep s e).sent (storeStep s e).sms := by
  cases e with
  | incomingSms ownNumber payload =>
    simp only [storeStep, onIncomingSms]
    split_ifs
    · exact h
    · split
      · exact h.add rfl rfl rfl
      · exact h
  | send subNum number message report =>
    let note : JanaNote :=
      { uid := s.sms.nextUid, author := subNum, recipient := some number, body := message,
        categories := if report then [.sending] else [.sent], ref := none }
    have hadd : UnreadOk (s.sms.nextUid :: s.sent) (janaStoreAddComponent s.sms note) :=
      h.add rfl (by cases report <;> rfl) (by cases report <;> rfl)
    exact hadd.lastMsg (some note) fun note hnote => by
      obtain rfl := Option.some.inj hnote
      exact ⟨List.mem_cons_self, by cases report <;> rfl, by cases report <;> rfl⟩
  | reply result =>
    by_cases hresult : result ≥ 0
    · exact h.accepted hresult
    · exact h.rejected result (hmeets (by omega))
  | incomingDs codingScheme index => exact h.incomingDs codingScheme index
  | read uid => exact h.markRead uid
  | remove uid => exact h.remove uid
  | signal => exact h.deliver

theorem not_right_rejected {s : SmsStore} (h : UnreadOk s.sent s.sms)
    (hmsg : s.sms.lastMsg = some note) (hstores : s.sms.stores note.uid = true) {result : ℤ}
    (hresult : result < 0) : ¬UnreadRight (storeStep s (.reply result)) := by
  intro hright
  obtain ⟨hsent, -, hread⟩ := h.last note hmsg
  have hunread : (note.answered result).isUnread = true := by
    have hneg : ¬result ≥ 0 := by omega
    rw [JanaNote.answered, if_neg hneg]
    simp [JanaNote.isUnread, JanaNote.hasCategory, JanaNote.removeCategory,
      JanaNote.insertCategory] at hread ⊢
    exact hread
  have hpending : (storeStep s (.reply result)).sms.toBeUnread = note.uid :: s.sms.toBeUnread := by
    rw [← answered_uid note result] at hstores
    have hmodify := toBeUnread_modify hstores
    rw [noteModifiedCb, answered_uid, if_neg (h.not_toBeUnread hsent), if_pos hunread] at hmodify
    rw [storeStep, onSendSms_some hmsg]
    exact hmodify
  have hexact := hright.exact note.uid
  rw [unreadUids_deliverSignals, hpending] at hexact
  exact (hexact.mp List.mem_cons_self).1 hsent

/-- **Unread messages are counted right exactly as long as** no error is the reply to a message that
is still stored. -/
theorem unread_right_iff (nextUid : ℕ) (events : List StoreEvent) :
    smsStore.Meets (fun s e => UnreadRight (storeStep s e)) (storeStart nextUid) events ↔
      smsStore.Meets storeMeets (storeStart nextUid) events := by
  refine smsStore.meets_iff_of_inv (fun s => UnreadOk s.sent s.sms) (storeStart_ok nextUid)
    (fun s e h => ⟨⟨fun hright => ?_, fun hmeets => (h.step hmeets).right⟩, h.step⟩) events
  cases e with
  | reply result =>
    intro hresult note hmsg
    by_contra hstores
    exact not_right_rejected h hmsg (by simpa using hstores) hresult hright
  | incomingSms _ _ | send _ _ _ _ | incomingDs _ _ | read _ | remove _ | signal => trivial

/-- A message that is sent and rejected is counted. -/
theorem not_unread_right_rejected :
    ¬smsStore.Meets (fun s e => UnreadRight (storeStep s e)) (storeStart 0)
      [.send none [0x31] [0x41] false, .reply (-1)] := by
  rintro ⟨-, hreply, -⟩
  have hexact := hreply.exact 0
  revert hexact
  decide

end Openmoko.Phonekit
