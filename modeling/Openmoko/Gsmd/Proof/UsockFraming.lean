import Openmoko.Gsmd.Usock

/-!
# Client message framing

Every read is handed on as one message or dropped as a whole. So the handler calls are the messages
exactly when the stream arrives one message to a read.
-/

namespace Openmoko.Gsmd

theorem range_map_readInto (stack : ℕ → Byte) (bytes : List Byte) :
    (List.range bytes.length).map (readInto stack bytes) = bytes := by
  apply List.ext_getElem
  · simp
  · intro i hi hi'
    simp [readInto, List.getElem?_eq_getElem hi']

theorem usockRcvPcmd_bytes {buf : ℕ → Byte} {len : ℕ} {call : HandlerCall}
    (hcall : usockRcvPcmd buf len = .ok call) : call.bytes = (List.range len).map buf := by
  unfold usockRcvPcmd at hcall
  split at hcall
  · cases hcall
  split at hcall
  · cases hcall
  split at hcall
  · cases hcall
  · cases hcall
    rfl

theorem gsmdUsockUserCb_bytes {stack : ℕ → Byte} {chunk : Chunk} {call : HandlerCall}
    (hcall : (gsmdUsockUserCb stack (.received chunk)).call? = some call) :
    call.bytes = chunk.bytes := by
  rw [gsmdUsockUserCb] at hcall
  cases hrcv : usockRcvPcmd (readInto stack chunk.bytes) chunk.bytes.length with
  | error rc =>
    rw [hrcv] at hcall
    cases hcall
  | ok made =>
    rw [hrcv] at hcall
    obtain rfl : made = call := Option.some.inj hcall
    rw [usockRcvPcmd_bytes hrcv, range_map_readInto]

theorem handlerCalls_sublist (reads : List ((ℕ → Byte) × Chunk)) :
    ((handlerCalls reads).map HandlerCall.bytes).Sublist (reads.map fun read => read.2.bytes) := by
  induction reads with
  | nil => exact List.Sublist.refl []
  | cons read reads ih =>
    rw [handlerCalls, List.filterMap_cons]
    cases hcall : (gsmdUsockUserCb read.1 (.received read.2)).call? with
    | none => exact ih.cons _
    | some call =>
      rw [List.map_cons, gsmdUsockUserCb_bytes hcall, List.map_cons]
      exact ih.cons_cons _

theorem ClientMsg.msgType_lt (m : ClientMsg) : m.msgType.toNat < NUM_GSMD_MSGS := by
  have hknown := m.known
  unfold pcmdTypeHandlers at hknown
  unfold NUM_GSMD_MSGS
  split at hknown <;> first | omega | cases hknown

theorem gsmdUsockUserCb_wire (m : ClientMsg) (stack : ℕ → Byte) {chunk : Chunk}
    (hchunk : chunk.bytes = m.wire) :
    (gsmdUsockUserCb stack (.received chunk)).call? = some m.call := by
  have hrcv : usockRcvPcmd (readInto stack chunk.bytes) chunk.bytes.length = .ok m.call := by
    have hversion : readInto stack chunk.bytes 0 = GSMD_PROTO_VERSION := by
      rw [hchunk]
      rfl
    have htype : readInto stack chunk.bytes 1 = m.msgType := by
      rw [hchunk]
      rfl
    have hlt := m.msgType_lt
    rw [usockRcvPcmd, hversion, htype, if_neg (not_not.mpr rfl), if_neg (by omega), m.known,
      range_map_readInto, hchunk]
    rfl
  rw [gsmdUsockUserCb, hrcv]
  rfl

theorem handlerCalls_of_wire {reads : List ((ℕ → Byte) × Chunk)} {messages : List ClientMsg}
    (heq : (reads.map fun read => read.2.bytes) = messages.map ClientMsg.wire) :
    handlerCalls reads = messages.map ClientMsg.call := by
  induction reads generalizing messages with
  | nil =>
    cases messages with
    | nil => rfl
    | cons m messages => cases heq
  | cons read reads ih =>
    cases messages with
    | nil => cases heq
    | cons m messages =>
      obtain ⟨hread, hreads⟩ := List.cons.inj heq
      rw [handlerCalls, List.filterMap_cons, gsmdUsockUserCb_wire m read.1 hread]
      exact congrArg (m.call :: ·) (ih hreads)

theorem length_flatten_le_of_sublist {α : Type} {xs ys : List (List α)} (hsub : xs.Sublist ys) :
    xs.flatten.length ≤ ys.flatten.length := by
  induction hsub with
  | slnil => exact Nat.le_refl 0
  | cons y _ ih =>
    rw [List.flatten_cons, List.length_append]
    omega
  | cons_cons y _ ih =>
    rw [List.flatten_cons, List.flatten_cons, List.length_append, List.length_append]
    omega

theorem eq_of_sublist_of_flatten {α : Type} {xs ys : List (List α)} (hsub : xs.Sublist ys)
    (hne : ∀ y ∈ ys, y ≠ []) (hlength : xs.flatten.length = ys.flatten.length) : xs = ys := by
  induction hsub with
  | slnil => rfl
  | cons y hsub _ =>
    have hshort := length_flatten_le_of_sublist hsub
    have hpos := List.length_pos_iff.mpr (hne y List.mem_cons_self)
    rw [List.flatten_cons, List.length_append] at hlength
    omega
  | cons_cons y hsub ih =>
    rw [List.flatten_cons, List.flatten_cons, List.length_append, List.length_append] at hlength
    rw [ih (fun z hz => hne z (List.mem_cons_of_mem y hz)) (by omega)]

/-- **Client message framing.** The handlers are called once for every message, in order and each
with its own message, exactly when each read gives one message. -/
theorem handlerCalls_eq_iff (messages : List ClientMsg) (arrival : Arrival messages) :
    handlerCalls arrival.reads = messages.map ClientMsg.call ↔
      (arrival.reads.map fun read => read.2.bytes) = messages.map ClientMsg.wire := by
  constructor
  · intro hcalls
    have hsub := handlerCalls_sublist arrival.reads
    have hbytes : (handlerCalls arrival.reads).map HandlerCall.bytes =
        messages.map ClientMsg.wire := by
      rw [hcalls, List.map_map]
      rfl
    rw [hbytes] at hsub
    symm
    apply eq_of_sublist_of_flatten hsub
    · intro bytes hmem
      obtain ⟨read, -, rfl⟩ := List.mem_map.mp hmem
      exact read.2.nonempty
    · rw [arrival.stream]
  · exact handlerCalls_of_wire

def phoneRequest (msgSubtype : Byte) : ClientMsg where
  msgType := 7
  umh := .phone
  known := rfl
  msgSubtype := msgSubtype
  pad := 0
  id := 0
  id_lt := by decide
  data := []
  fits := by decide

/-- Two requests in one read are one call, with both. -/
theorem handlerCalls_merged :
    ¬∀ (messages : List ClientMsg) (arrival : Arrival messages),
      handlerCalls arrival.reads = messages.map ClientMsg.call := by
  intro hall
  have hmerged := hall [phoneRequest 11, phoneRequest 8]
    ⟨[(fun _ => 0, ⟨(phoneRequest 11).wire ++ (phoneRequest 8).wire, by decide, by decide⟩)],
      by decide⟩
  exact absurd hmerged (by decide)

end Openmoko.Gsmd
