import Mathlib.Data.List.Nodup
import Openmoko.Phonekit.Sms

/-!
# Notes in their store

What replies and reports do to all the notes of the store at once.
-/

namespace Openmoko.Phonekit

def JanaNote.answered (note : JanaNote) (result : ℤ) : JanaNote :=
  if result ≥ 0 then { note with ref := some result }
  else ((note.removeCategory .sent).removeCategory .sending).insertCategory .rejected

def JanaNote.reported (note : JanaNote) : JanaNote :=
  (note.removeCategory .sending).insertCategory .sent

section Store

variable {s : MokoSms}

theorem stores_of_mem {n : JanaNote} (hmem : n ∈ s.notes) : s.stores n.uid = true := by
  unfold MokoSms.stores
  rw [List.any_eq_true]
  exact ⟨n, hmem, decide_eq_true rfl⟩

theorem notes_modify (s : MokoSms) (note : JanaNote) :
    (janaStoreModifyComponent s note).notes =
      s.notes.map fun n => if n.uid = note.uid then note else n := by
  unfold janaStoreModifyComponent
  split_ifs with hstores
  · rfl
  · have hother : ∀ n ∈ s.notes, (if n.uid = note.uid then note else n) = n := by
      intro n hmem
      rw [if_neg]
      intro heq
      apply hstores
      rw [← heq]
      exact stores_of_mem hmem
    rw [List.map_congr_left hother, List.map_id']

theorem answered_uid (note : JanaNote) (result : ℤ) : (note.answered result).uid = note.uid := by
  unfold JanaNote.answered
  split_ifs <;> rfl

theorem onSendSms_some {note : JanaNote} (hmsg : s.lastMsg = some note) (result : ℤ) :
    onSendSms s result =
      { janaStoreModifyComponent s (note.answered result) with lastMsg := none } := by
  unfold onSendSms
  rw [hmsg]
  rfl

theorem notes_onSendSms (hnodup : (s.notes.map JanaNote.uid).Nodup)
    (hlast : ∀ note, s.lastMsg = some note → note ∈ s.notes) (result : ℤ) :
    (onSendSms s result).notes =
      s.notes.map fun n =>
        if s.lastMsg.map JanaNote.uid = some n.uid then n.answered result else n := by
  rcases hmsg : s.lastMsg with _ | note
  · simp [onSendSms, hmsg]
  · rw [onSendSms_some hmsg, notes_modify, answered_uid]
    refine List.map_congr_left fun n hmem => ?_
    by_cases huid : n.uid = note.uid
    · have hsame : n = note := List.inj_on_of_nodup_map hnodup hmem (hlast note hmsg) huid
      simp [hsame]
    · simp [huid, Ne.symm huid]

theorem notes_modifyAll (news : List JanaNote) (hnodup : (news.map JanaNote.uid).Nodup)
    (s : MokoSms) :
    (news.foldl janaStoreModifyComponent s).notes =
      s.notes.map fun n => (news.find? (·.uid = n.uid)).getD n := by
  induction news generalizing s with
  | nil => simp
  | cons new news ih =>
    obtain ⟨hout, hnodup⟩ := List.nodup_cons.mp hnodup
    rw [List.foldl_cons, ih hnodup, notes_modify, List.map_map]
    refine List.map_congr_left fun n _ => ?_
    by_cases huid : n.uid = new.uid
    · have hnone : news.find? (·.uid = new.uid) = none := by
        rw [List.find?_eq_none]
        intro n' hmem heq
        exact hout (List.mem_map.mpr ⟨n', hmem, of_decide_eq_true heq⟩)
      simp [huid, hnone]
    · simp [huid, Ne.symm huid]

theorem statusReport_eq (components : List JanaNote) (ref : ℤ) (s : MokoSms) :
    statusReportAddedCb s components ref =
      ((components.filter (·.ref = some ref)).map JanaNote.reported).foldl
        janaStoreModifyComponent s := by
  unfold statusReportAddedCb
  induction components generalizing s with
  | nil => rfl
  | cons comp components ih =>
    rw [List.foldl_cons, ih]
    by_cases href : comp.ref = some ref
    · rw [if_pos href, List.filter_cons_of_pos (by simpa using href)]
      rfl
    · rw [if_neg href, List.filter_cons_of_neg (by simpa using href)]

theorem find_reported {notes : List JanaNote} (hnodup : (notes.map JanaNote.uid).Nodup)
    (p : JanaNote → Bool) {n : JanaNote} (hmem : n ∈ notes) :
    ((notes.filter p).map JanaNote.reported).find? (·.uid = n.uid) =
      if p n then some n.reported else none := by
  have hunique : ∀ n' ∈ notes.filter p, n'.uid = n.uid → n' = n := fun n' hmem' =>
    List.inj_on_of_nodup_map hnodup (List.mem_of_mem_filter hmem') hmem
  split_ifs with hp
  · have hin : n.reported ∈ (notes.filter p).map JanaNote.reported :=
      List.mem_map.mpr ⟨n, List.mem_filter.mpr ⟨hmem, hp⟩, rfl⟩
    rcases hfind : ((notes.filter p).map JanaNote.reported).find? (·.uid = n.uid) with _ | found
    · exact absurd (decide_eq_true rfl) (List.find?_eq_none.mp hfind n.reported hin)
    · obtain ⟨n', hmem', rfl⟩ := List.mem_map.mp (List.mem_of_find?_eq_some hfind)
      have huid := List.find?_some hfind
      rw [hfind, hunique n' hmem' (of_decide_eq_true huid)]
  · rw [List.find?_eq_none]
    intro found hfound heq
    obtain ⟨n', hmem', rfl⟩ := List.mem_map.mp hfound
    have hsame := hunique n' hmem' (of_decide_eq_true heq)
    rw [hsame] at hmem'
    exact hp (List.mem_filter.mp hmem').2

theorem notes_onIncomingDs (hnodup : (s.notes.map JanaNote.uid).Nodup) (codingScheme index : ℤ) :
    (onIncomingDs s codingScheme index).notes =
      s.notes.map fun n =>
        if codingScheme = TP_STATUS_RECEIVED_OK ∧ n.hasCategory .sending = true ∧
            n.ref = some index then n.reported else n := by
  unfold onIncomingDs
  by_cases hok : codingScheme = TP_STATUS_RECEIVED_OK
  · rw [if_pos hok, statusReport_eq, List.filter_filter, notes_modifyAll]
    · refine List.map_congr_left fun n hmem => ?_
      rw [find_reported hnodup _ hmem]
      by_cases hsending : n.hasCategory .sending = true <;> by_cases href : n.ref = some index <;>
        simp [hok, hsending, href]
    · rw [List.map_map]
      exact hnodup.sublist (List.filter_sublist.map JanaNote.uid)
  · simp [hok]

theorem lastMsg_onSendSms (s : MokoSms) (result : ℤ) : (onSendSms s result).lastMsg = none := by
  unfold onSendSms
  split
  · rfl
  · next hnone => exact hnone

theorem nextUid_modify (s : MokoSms) (note : JanaNote) :
    (janaStoreModifyComponent s note).nextUid = s.nextUid := by
  unfold janaStoreModifyComponent
  split_ifs <;> rfl

theorem lastMsg_modify (s : MokoSms) (note : JanaNote) :
    (janaStoreModifyComponent s note).lastMsg = s.lastMsg := by
  unfold janaStoreModifyComponent
  split_ifs <;> rfl

theorem nextUid_onSendSms (s : MokoSms) (result : ℤ) :
    (onSendSms s result).nextUid = s.nextUid := by
  unfold onSendSms
  split
  · exact nextUid_modify _ _
  · rfl

theorem modifyAll_frame (news : List JanaNote) (s : MokoSms) :
    (news.foldl janaStoreModifyComponent s).nextUid = s.nextUid ∧
      (news.foldl janaStoreModifyComponent s).lastMsg = s.lastMsg := by
  induction news generalizing s with
  | nil => exact ⟨rfl, rfl⟩
  | cons new news ih =>
    rw [List.foldl_cons, (ih _).1, (ih _).2, nextUid_modify, lastMsg_modify]
    exact ⟨rfl, rfl⟩

theorem onIncomingDs_frame (s : MokoSms) (codingScheme index : ℤ) :
    (onIncomingDs s codingScheme index).nextUid = s.nextUid ∧
      (onIncomingDs s codingScheme index).lastMsg = s.lastMsg := by
  unfold onIncomingDs
  split_ifs
  · rw [statusReport_eq]
    exact modifyAll_frame _ _
  · exact ⟨rfl, rfl⟩

end Store

end Openmoko.Phonekit
