import Mathlib.Data.List.Forall2
import Openmoko.Libgsmd.Packet

/-!
# Reassembly of the daemon's messages

Every byte of a read is delivered as part of a message or lost, and what one read leaves over is not
there for the next. So the messages are delivered exactly when every read is a number of whole ones,
and just one where a caller waits for it.
-/

namespace Openmoko.Libgsmd

open Openmoko.Gsmd

variable {H : Type}

def Delivery.gmh : Delivery H → List Byte
  | .handled _ gmh => gmh
  | .unable gmh => gmh
  | .returned gmh => gmh

def deliveredBytes (log : List (Delivery H)) : List Byte := log.flatMap Delivery.gmh

/-- The read holds whole messages; if it is the one that is waited for, one message. -/
def wholeMessages (waiting : Option ℕ) : ClientEvent → Prop
  | .waitPacket _ => True
  | .socketRead read =>
    ∃ messages, read.bytes = streamOf messages ∧
      (waiting = some read.id → messages.length = 1)

theorem DaemonMsg.wire_length (m : DaemonMsg) : m.wire.length = MSG_HDR_SIZE + m.data.length := by
  rw [wire, List.length_append]
  rfl

theorem DaemonMsg.gmhLen_wire (m : DaemonMsg) (rest : List Byte) :
    gmhLen (m.wire ++ rest) = m.data.length := by
  have hlt := m.data_lt
  have hlow : (UInt8.ofNat m.data.length).toNat = m.data.length % 256 := by simp
  have hhigh : (UInt8.ofNat (m.data.length / 256)).toNat = m.data.length / 256 := by
    rw [UInt8.toNat_ofNat']
    omega
  change (UInt8.ofNat m.data.length).toNat + 256 * (UInt8.ofNat (m.data.length / 256)).toNat = _
  rw [hlow, hhigh]
  omega

theorem DaemonMsg.wire_take (m : DaemonMsg) (rest : List Byte) :
    (m.wire ++ rest).take (MSG_HDR_SIZE + m.data.length) = m.wire := by
  rw [← m.wire_length, List.take_left]

theorem DaemonMsg.wire_drop (m : DaemonMsg) (rest : List Byte) :
    (m.wire ++ rest).drop (MSG_HDR_SIZE + m.data.length) = rest := by
  rw [← m.wire_length, List.drop_left]

theorem dispatch_gmh (lh : LgsmHandle H) (gmh : List Byte) : (dispatch lh gmh).gmh = gmh := by
  unfold dispatch
  split <;> rfl

variable {lh : LgsmHandle H} {messages : List DaemonMsg} {log : List (Delivery H)}
  {waiting : Option ℕ}

theorem deliveredAs_gmh {delivery : Delivery H} {m : DaemonMsg}
    (hdelivered : DeliveredAs lh delivery m) : delivery.gmh = m.wire := by
  cases delivery with
  | handled handler gmh => exact hdelivered.1
  | unable gmh => exact hdelivered.1
  | returned gmh => exact hdelivered

theorem dispatch_deliveredAs (lh : LgsmHandle H) (m : DaemonMsg) :
    DeliveredAs lh (dispatch lh m.wire) m := by
  have htype : gmhMsgType m.wire = m.msgType.toNat := rfl
  rw [dispatch, htype]
  cases hhandler : lh.handler m.msgType.toNat with
  | none => exact ⟨rfl, hhandler⟩
  | some handler => exact ⟨rfl, hhandler⟩

theorem gmhMsgType_wire {m m' : DaemonMsg} (heq : m.wire = m'.wire) : m.msgType = m'.msgType :=
  congrArg (fun gmh => gmh.getD 1 0) heq

theorem DeliveredAs.congr {delivery : Delivery H} {m m' : DaemonMsg}
    (hdelivered : DeliveredAs lh delivery m) (heq : m.wire = m'.wire) :
    DeliveredAs lh delivery m' := by
  cases delivery with
  | handled handler gmh => exact ⟨hdelivered.1.trans heq, gmhMsgType_wire heq ▸ hdelivered.2⟩
  | unable gmh => exact ⟨hdelivered.1.trans heq, gmhMsgType_wire heq ▸ hdelivered.2⟩
  | returned gmh => exact Eq.trans hdelivered heq

theorem wire_append_inj {m m' : DaemonMsg} {rest rest' : List Byte}
    (heq : m.wire ++ rest = m'.wire ++ rest') : m.wire = m'.wire ∧ rest = rest' := by
  have hlength : m.data.length = m'.data.length := by
    rw [← m.gmhLen_wire rest, heq, m'.gmhLen_wire]
  apply List.append_inj heq
  rw [m.wire_length, m'.wire_length, hlength]

theorem streamOf_inj {messages' : List DaemonMsg} (heq : streamOf messages = streamOf messages') :
    messages.map DaemonMsg.wire = messages'.map DaemonMsg.wire := by
  induction messages generalizing messages' with
  | nil =>
    cases messages' with
    | nil => rfl
    | cons m' messages' => cases heq
  | cons m messages ih =>
    cases messages' with
    | nil => cases heq
    | cons m' messages' =>
      obtain ⟨hwire, hrest⟩ := wire_append_inj heq
      rw [List.map_cons, List.map_cons, hwire, ih hrest]

theorem streamOf_append (messages messages' : List DaemonMsg) :
    streamOf (messages ++ messages') = streamOf messages ++ streamOf messages' :=
  List.flatMap_append

theorem forall₂_deliveredAs_congr {messages' : List DaemonMsg}
    (hdelivered : List.Forall₂ (DeliveredAs lh) log messages)
    (heq : messages.map DaemonMsg.wire = messages'.map DaemonMsg.wire) :
    List.Forall₂ (DeliveredAs lh) log messages' := by
  induction hdelivered generalizing messages' with
  | nil =>
    rw [List.map_nil] at heq
    rw [List.map_eq_nil_iff.mp heq.symm]
    exact List.Forall₂.nil
  | cons hhead _ ih =>
    cases messages' with
    | nil => cases heq
    | cons m' messages' =>
      obtain ⟨hwire, hrest⟩ := List.cons.inj heq
      exact List.Forall₂.cons (hhead.congr hwire) (ih hrest)

theorem forall₂_append_left {log' : List (Delivery H)}
    (hdelivered : List.Forall₂ (DeliveredAs lh) (log ++ log') messages) :
    ∃ head tail, messages = head ++ tail ∧ List.Forall₂ (DeliveredAs lh) log head ∧
      List.Forall₂ (DeliveredAs lh) log' tail :=
  ⟨messages.take log.length, messages.drop log.length, (List.take_append_drop _ _).symm,
    (List.forall₂_take_append messages log log' hdelivered.flip).flip,
    (List.forall₂_drop_append messages log log' hdelivered.flip).flip⟩

theorem deliveredBytes_of_forall₂ (hdelivered : List.Forall₂ (DeliveredAs lh) log messages) :
    deliveredBytes log = streamOf messages := by
  induction hdelivered with
  | nil => rfl
  | cons hhead _ ih =>
    rw [deliveredBytes, streamOf, List.flatMap_cons, List.flatMap_cons, deliveredAs_gmh hhead]
    exact congrArg _ ih

theorem handlePacketLoop_prefix (lh : LgsmHandle H) (rc : BitVec 32) (buf : List Byte) :
    deliveredBytes (handlePacketLoop lh rc buf).1 <+: buf := by
  fun_induction handlePacketLoop lh rc buf with
  | case1 rc => exact List.nil_prefix
  | case2 rc buf _ _ => exact List.nil_prefix
  | case3 rc buf _ _ _ => exact List.nil_prefix
  | case4 rc buf _ _ _ _ => exact List.nil_prefix
  | case5 rc buf _ _ _ _ gmh log rc' hloop ih =>
    rw [hloop] at ih
    change (dispatch lh gmh).gmh ++ deliveredBytes log <+: buf
    rw [dispatch_gmh]
    obtain ⟨rest, hrest⟩ := ih
    refine ⟨rest, ?_⟩
    rw [List.append_assoc, hrest, List.take_append_drop]

theorem handlePacketLoop_short (lh : LgsmHandle H) (rc : BitVec 32) {buf : List Byte}
    (hlength : buf.length < MSG_HDR_SIZE) : (handlePacketLoop lh rc buf).1 = [] := by
  rw [handlePacketLoop]
  by_cases hnil : buf = []
  · rw [if_pos hnil]
  · rw [if_neg hnil, if_pos hlength]

theorem handlePacketLoop_streamOf (lh : LgsmHandle H) (rc : BitVec 32)
    (messages : List DaemonMsg) :
    (handlePacketLoop lh rc (streamOf messages)).1 =
      messages.map fun m => dispatch lh m.wire := by
  induction messages generalizing rc with
  | nil =>
    rw [handlePacketLoop]
    rfl
  | cons m messages ih =>
    have hstream : streamOf (m :: messages) = m.wire ++ streamOf messages := rfl
    have hlen := m.gmhLen_wire (streamOf messages)
    have hlength : (m.wire ++ streamOf messages).length =
        MSG_HDR_SIZE + m.data.length + (streamOf messages).length := by
      rw [List.length_append, m.wire_length]
    have htype : gmhMsgType (m.wire ++ streamOf messages) = m.msgType.toNat := rfl
    have hknown := m.known
    rw [hstream, handlePacketLoop, if_neg (by simp [DaemonMsg.wire]), if_neg (by omega),
      if_neg (by omega), if_neg (by omega), hlen, m.wire_take, m.wire_drop]
    exact congrArg (_ :: ·) (ih _)

theorem clientStep_front (lh : LgsmHandle H) (waiting : Option ℕ) (e : ClientEvent) :
    deliveredBytes (clientStep lh waiting e).2 <+: e.bytes := by
  cases e with
  | waitPacket id => exact List.nil_prefix
  | socketRead read =>
    by_cases hwaiting : waiting = some read.id
    · rw [clientStep, if_pos hwaiting]
      refine ⟨[], ?_⟩
      change (read.bytes ++ []) ++ [] = read.bytes
      rw [List.append_nil, List.append_nil]
    · rw [clientStep, if_neg hwaiting]
      exact handlePacketLoop_prefix lh 0 read.bytes

theorem clientStep_delivered (lh : LgsmHandle H) {e : ClientEvent}
    (hwhole : wholeMessages waiting e) :
    ∃ messages, e.bytes = streamOf messages ∧
      List.Forall₂ (DeliveredAs lh) (clientStep lh waiting e).2 messages := by
  cases e with
  | waitPacket id => exact ⟨[], rfl, List.Forall₂.nil⟩
  | socketRead read =>
    obtain ⟨messages, hbytes, hone⟩ := hwhole
    refine ⟨messages, hbytes, ?_⟩
    by_cases hwaiting : waiting = some read.id
    · obtain ⟨m, rfl⟩ := List.length_eq_one_iff.mp (hone hwaiting)
      rw [clientStep, if_pos hwaiting]
      refine List.Forall₂.cons ?_ List.Forall₂.nil
      change read.bytes = m.wire
      rw [hbytes]
      exact List.append_nil m.wire
    · rw [clientStep, if_neg hwaiting]
      change List.Forall₂ _ (handlePacketLoop lh 0 read.bytes).1 _
      rw [hbytes, handlePacketLoop_streamOf, List.forall₂_map_left_iff]
      exact List.forall₂_same.mpr fun m _ => dispatch_deliveredAs lh m

theorem wholeMessages_of_delivered (lh : LgsmHandle H) {e : ClientEvent}
    (hdelivered : List.Forall₂ (DeliveredAs lh) (clientStep lh waiting e).2 messages)
    (hlength : (streamOf messages).length = e.bytes.length) : wholeMessages waiting e := by
  cases e with
  | waitPacket id => exact trivial
  | socketRead read =>
    have hpre := clientStep_front lh waiting (.socketRead read)
    rw [deliveredBytes_of_forall₂ hdelivered] at hpre
    refine ⟨messages, (hpre.eq_of_length hlength).symm, fun hwaiting => ?_⟩
    rw [clientStep, if_pos hwaiting] at hdelivered
    exact hdelivered.length_eq.symm

theorem exec_delivered (lh : LgsmHandle H) {events : List ClientEvent}
    (hwhole : (client lh).Meets wholeMessages waiting events) :
    ∃ messages, events.flatMap ClientEvent.bytes = streamOf messages ∧
      List.Forall₂ (DeliveredAs lh) ((client lh).exec waiting events).2 messages := by
  induction events generalizing waiting with
  | nil => exact ⟨[], rfl, List.Forall₂.nil⟩
  | cons e events ih =>
    obtain ⟨head, hhead, hdelivered⟩ := clientStep_delivered lh hwhole.1
    obtain ⟨tail, htail, hrest⟩ := ih hwhole.2
    refine ⟨head ++ tail, ?_, ?_⟩
    · rw [List.flatMap_cons, hhead, htail, streamOf_append]
    · exact List.rel_append hdelivered hrest

theorem length_deliveredBytes_exec_le (lh : LgsmHandle H) (waiting : Option ℕ)
    (events : List ClientEvent) :
    (deliveredBytes ((client lh).exec waiting events).2).length ≤
      (events.flatMap ClientEvent.bytes).length := by
  induction events generalizing waiting with
  | nil => exact Nat.le_refl 0
  | cons e events ih =>
    have hhead := (clientStep_front lh waiting e).length_le
    have htail := ih (clientStep lh waiting e).1
    rw [Machine.exec_cons, deliveredBytes, List.flatMap_append, List.length_append,
      List.flatMap_cons, List.length_append]
    exact Nat.add_le_add hhead htail

theorem meets_of_delivered (lh : LgsmHandle H) {events : List ClientEvent}
    (hdelivered : List.Forall₂ (DeliveredAs lh) ((client lh).exec waiting events).2 messages)
    (hlength : (events.flatMap ClientEvent.bytes).length = (streamOf messages).length) :
    (client lh).Meets wholeMessages waiting events := by
  induction events generalizing waiting messages with
  | nil => exact trivial
  | cons e events ih =>
    rw [Machine.exec_cons] at hdelivered
    obtain ⟨head, tail, rfl, hhead, htail⟩ := forall₂_append_left hdelivered
    have hshort := (clientStep_front lh waiting e).length_le
    have hshort' := length_deliveredBytes_exec_le lh (clientStep lh waiting e).1 events
    have hheadBytes := congrArg List.length (deliveredBytes_of_forall₂ hhead)
    have htailBytes := congrArg List.length (deliveredBytes_of_forall₂ htail)
    rw [List.flatMap_cons, List.length_append, streamOf_append, List.length_append] at hlength
    change (deliveredBytes (clientStep lh waiting e).2).length = _ at hheadBytes
    change (deliveredBytes ((client lh).exec (clientStep lh waiting e).1 events).2).length = _
      at htailBytes
    constructor
    · exact wholeMessages_of_delivered lh hhead (by omega)
    · exact ih htail (by omega)

/-- **Reassembly.** However the stream of the daemon arrives, and whenever the program waits for an
answer, every message is delivered once, in order and whole, exactly when every read is a number of
whole messages and the one that is waited for arrives alone. -/
theorem client_delivers_iff (lh : LgsmHandle H) (messages : List DaemonMsg)
    (events : List ClientEvent) (hstream : events.flatMap ClientEvent.bytes = streamOf messages) :
    List.Forall₂ (DeliveredAs lh) ((client lh).exec none events).2 messages ↔
      (client lh).Meets wholeMessages none events := by
  constructor
  · intro hdelivered
    exact meets_of_delivered lh hdelivered (congrArg List.length hstream)
  · intro hwhole
    obtain ⟨messages', hstream', hdelivered⟩ := exec_delivered lh hwhole
    exact forall₂_deliveredAs_congr hdelivered (streamOf_inj (hstream'.symm.trans hstream))

def callMsg : DaemonMsg where
  msgType := 1
  known := by decide
  msgSubtype := 1
  pad := 0
  id := 0
  id_lt := Nat.succ_pos _
  data := [3, 4]
  data_lt := by decide

def eventHandle : LgsmHandle Unit where
  handler := fun type => if type = 1 then some () else none
  call := fun _ _ => 0

/-- The message in one read. -/
theorem client_delivers_whole :
    List.Forall₂ (DeliveredAs eventHandle)
      ((client eventHandle).exec none
        [.socketRead ⟨fun _ => 0, callMsg.wire, by decide⟩]).2 [callMsg] := by
  apply (client_delivers_iff eventHandle [callMsg] _ rfl).mpr
  exact ⟨⟨[callMsg], rfl, fun hwaiting => by cases hwaiting⟩, trivial⟩

/-- The same message in two reads of five bytes is lost. -/
theorem client_loses_cut_message :
    ¬∀ (lh : LgsmHandle Unit) (messages : List DaemonMsg) (events : List ClientEvent),
      events.flatMap ClientEvent.bytes = streamOf messages →
      List.Forall₂ (DeliveredAs lh) ((client lh).exec none events).2 messages := by
  intro hall
  have hdelivered := hall eventHandle [callMsg]
    [.socketRead ⟨fun _ => 0, callMsg.wire.take 5, by decide⟩,
      .socketRead ⟨fun _ => 0, callMsg.wire.drop 5, by decide⟩] (by decide)
  have hlog : ((client eventHandle).exec none
      [.socketRead ⟨fun _ => 0, callMsg.wire.take 5, by decide⟩,
        .socketRead ⟨fun _ => 0, callMsg.wire.drop 5, by decide⟩]).2 = [] := by
    change (handlePacketLoop eventHandle 0 _).1 ++ ((handlePacketLoop eventHandle 0 _).1 ++ []) = []
    rw [handlePacketLoop_short _ _ (by decide), handlePacketLoop_short _ _ (by decide)]
    rfl
  rw [hlog] at hdelivered
  cases hdelivered

end Openmoko.Libgsmd
