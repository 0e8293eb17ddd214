import Openmoko.Gsmd.Ucmd

/-!
# What a client receives

The write side forgets how far a short write got and starts that message over. Without short writes
the client receives the queued messages one after the other, and each leaves the list as it is sent.
-/

namespace Openmoko.Gsmd

def UserObs.queued? : UserObs → Option GsmdUcmd
  | .queued ucmd => some ucmd
  | _ => none

def UserObs.freed? : UserObs → Option GsmdUcmd
  | .freed ucmd => some ucmd
  | _ => none

def UserObs.bytes : UserObs → List Byte
  | .sent bytes => bytes
  | _ => []

def queuedUcmds (log : List UserObs) : List GsmdUcmd := log.filterMap UserObs.queued?

def freedUcmds (log : List UserObs) : List GsmdUcmd := log.filterMap UserObs.freed?

def sentBytes (log : List UserObs) : List Byte := log.flatMap UserObs.bytes

/-- What a client is still to be given: the messages, and how much of the first one it has. -/
structure Backlog where
  gone : ℕ
  ucmds : List GsmdUcmd

/-- What a socket that answers the calls of `write` so takes, from a writer that goes on with the
first message where it was left and offers the next one only when all of it is taken. -/
def Backlog.drain (gone : ℕ) : List GsmdUcmd → (ℕ → WriteResult) → Backlog × List Byte
  | [], _ => (⟨0, []⟩, [])
  | ucmd :: ucmds, writes =>
    match writes 0 with
    | .failed _ => (⟨gone, ucmd :: ucmds⟩, [])
    | .taken room =>
      let rest := ucmd.wire.drop gone
      if room < rest.length then (⟨gone + room, ucmd :: ucmds⟩, rest.take room)
      else
        let (left, bytes) := drain 0 ucmds fun n => writes (n + 1)
        (left, rest ++ bytes)

def Backlog.step (backlog : Backlog) : UserEvent → Backlog × List Byte
  | .enqueue ucmd _ => ({ backlog with ucmds := backlog.ucmds ++ [ucmd] }, [])
  | .writable writes => drain backlog.gone backlog.ucmds writes

/-- The socket as a stream, with the same messages and the same answers of `write`. -/
def clientStream : Machine Backlog UserEvent Byte := { step := Backlog.step }

/-- After these events the client has received what its socket took of the stream: the messages that
have left the list, in the order they were queued in, and of the first message in the list a part
that is not all of it. -/
structure Delivered (events : List UserEvent) : Prop where
  received : sentBytes (userSock.exec newUser events).2 = (clientStream.exec ⟨0, []⟩ events).2
  left : (userSock.exec newUser events).1.finishedUcmds =
    (clientStream.exec ⟨0, []⟩ events).1.ucmds
  order : queuedUcmds (userSock.exec newUser events).2 =
    freedUcmds (userSock.exec newUser events).2 ++ (userSock.exec newUser events).1.finishedUcmds
  stream : ∃ part, sentBytes (userSock.exec newUser events).2 =
      (freedUcmds (userSock.exec newUser events).2).flatMap GsmdUcmd.wire ++ part ∧
    (part = [] ∨ ∃ ucmd ∈ (userSock.exec newUser events).1.finishedUcmds.head?,
      part <+: ucmd.wire ∧ part.length < ucmd.size)

def WholeWrites : List GsmdUcmd → (ℕ → WriteResult) → Prop
  | [], _ => True
  | ucmd :: ucmds, writes =>
    match writes 0 with
    | .failed _ => True
    | .taken room =>
      room = 0 ∨ ucmd.size ≤ room ∧ WholeWrites ucmds fun n => writes (n + 1)

def userEventWhole (gu : GsmdUser) : UserEvent → Prop
  | .enqueue _ _ => True
  | .writable writes => WholeWrites gu.finishedUcmds writes

@[simp]
theorem queuedUcmds_append (log obs : List UserObs) :
    queuedUcmds (log ++ obs) = queuedUcmds log ++ queuedUcmds obs :=
  List.filterMap_append

@[simp]
theorem freedUcmds_append (log obs : List UserObs) :
    freedUcmds (log ++ obs) = freedUcmds log ++ freedUcmds obs :=
  List.filterMap_append

@[simp]
theorem sentBytes_append (log obs : List UserObs) :
    sentBytes (log ++ obs) = sentBytes log ++ sentBytes obs :=
  List.flatMap_append

theorem GsmdUcmd.size_pos (ucmd : GsmdUcmd) : 0 < ucmd.size := Nat.add_pos_left (by decide) _

theorem GsmdUcmd.wire_take_size (ucmd : GsmdUcmd) : ucmd.wire.take ucmd.size = ucmd.wire := by
  rw [wire, List.take_take, min_self]

theorem GsmdUcmd.length_wire {ucmd : GsmdUcmd} (hwhole : ucmd.Whole) :
    ucmd.wire.length = ucmd.size := by
  rw [wire, List.length_take, min_eq_left hwhole]

theorem writeFinished_whole {ucmds : List GsmdUcmd} {writes : ℕ → WriteResult}
    (hblocks : ∀ ucmd ∈ ucmds, ucmd.Whole) (hwhole : WholeWrites ucmds writes) :
    Backlog.drain 0 ucmds writes =
        (⟨0, (writeFinished ucmds writes).1.1⟩, sentBytes (writeFinished ucmds writes).2) ∧
      queuedUcmds (writeFinished ucmds writes).2 = [] ∧
      ucmds = freedUcmds (writeFinished ucmds writes).2 ++ (writeFinished ucmds writes).1.1 ∧
      sentBytes (writeFinished ucmds writes).2 =
        (freedUcmds (writeFinished ucmds writes).2).flatMap GsmdUcmd.wire := by
  induction ucmds generalizing writes with
  | nil => exact ⟨rfl, rfl, rfl, rfl⟩
  | cons ucmd ucmds ih =>
    obtain ⟨hblock, hblocks⟩ := List.forall_mem_cons.mp hblocks
    have hpos := ucmd.size_pos
    have hlength := GsmdUcmd.length_wire hblock
    cases hwrite : writes 0 with
    | failed rc =>
      simp only [writeFinished, Backlog.drain, hwrite]
      exact ⟨rfl, rfl, rfl, rfl⟩
    | taken room =>
      simp only [WholeWrites, hwrite] at hwhole
      by_cases hroom : room = 0
      · simp only [writeFinished, Backlog.drain, hwrite, hroom, Nat.zero_min, if_true,
          List.drop_zero, hlength, hpos, List.take_zero]
        exact ⟨rfl, rfl, rfl, rfl⟩
      · obtain ⟨hfits, hrest⟩ := hwhole.resolve_left hroom
        have hrc : min room ucmd.size = ucmd.size := min_eq_right hfits
        obtain ⟨hdrain, hqueued, hleft, hsent⟩ := ih hblocks hrest
        simp only [writeFinished, Backlog.drain, hwrite, hrc, hpos.ne', ne_eq, not_true, if_false,
          List.drop_zero, hlength, Nat.not_lt.mpr hfits, hdrain]
        have hbytes (obs : List UserObs) : sentBytes
            (.sent (ucmd.wire.take ucmd.size) :: .freed ucmd :: obs) =
              ucmd.wire ++ sentBytes obs := by
          change ucmd.wire.take ucmd.size ++ sentBytes obs = _
          rw [ucmd.wire_take_size]
        refine ⟨?_, hqueued, ?_, ?_⟩
        · rw [hbytes]
        · exact congrArg (ucmd :: ·) hleft
        · rw [hbytes, hsent]
          rfl

/-- What holds of a client, its log and its stream as long as no write takes a part: the two have
the same messages in front of them, and no part of the first is gone. -/
structure InStep (gu : GsmdUser) (log : List UserObs) (backlog : Backlog) (bytes : List Byte) :
    Prop where
  backlog_eq : backlog = ⟨0, gu.finishedUcmds⟩
  blocks : ∀ ucmd ∈ gu.finishedUcmds, ucmd.Whole
  -- the socket is watched for as long as there is something to write
  watched : gu.finishedUcmds ≠ [] → gu.whenWrite = true
  order : queuedUcmds log = freedUcmds log ++ gu.finishedUcmds
  sent : sentBytes log = (freedUcmds log).flatMap GsmdUcmd.wire
  received : sentBytes log = bytes

theorem userCbWrite_inStep {gu : GsmdUser} {log : List UserObs} {backlog : Backlog}
    {bytes : List Byte} {writes : ℕ → WriteResult} (h : InStep gu log backlog bytes)
    (hwhole : WholeWrites gu.finishedUcmds writes) :
    InStep (userCbWrite gu writes).1 (log ++ (userCbWrite gu writes).2)
      (Backlog.drain backlog.gone backlog.ucmds writes).1
      (bytes ++ (Backlog.drain backlog.gone backlog.ucmds writes).2) := by
  obtain ⟨hdrain, hqueued, hleft, hbytes⟩ := writeFinished_whole h.blocks hwhole
  have hbacklog := h.backlog_eq
  subst hbacklog
  rw [hdrain]
  by_cases hwhen : gu.whenWrite
  · simp only [userCbWrite, hwhen, if_true]
    refine ⟨rfl, ?_, ?_, ?_, ?_, ?_⟩
    · intro ucmd hmem
      refine h.blocks ucmd ?_
      rw [hleft]
      exact List.mem_append_right _ hmem
    · intro hne
      simp [hne]
    · rw [queuedUcmds_append, freedUcmds_append, hqueued, List.append_nil, List.append_assoc,
        ← hleft, h.order]
    · rw [sentBytes_append, freedUcmds_append, h.sent, hbytes, List.flatMap_append]
    · rw [sentBytes_append, h.received]
  · have hempty : gu.finishedUcmds = [] := by
      by_contra hne
      exact hwhen (h.watched hne)
    simp only [userCbWrite, hwhen, Bool.false_eq_true, if_false, List.append_nil]
    rw [hempty]
    exact ⟨congrArg (Backlog.mk 0) hempty.symm, h.blocks, h.watched, h.order, h.sent,
      (h.received.trans (List.append_nil _).symm)⟩

theorem userStep_inStep {gu : GsmdUser} {log : List UserObs} {backlog : Backlog}
    {bytes : List Byte} {e : UserEvent} (h : InStep gu log backlog bytes)
    (hwhole : userEventWhole gu e) :
    InStep (userStep gu e).1 (log ++ (userStep gu e).2) (backlog.step e).1
      (bytes ++ (backlog.step e).2) := by
  cases e with
  | enqueue ucmd whole =>
    have hbacklog := h.backlog_eq
    subst hbacklog
    refine ⟨rfl, ?_, fun _ => rfl, ?_, ?_, ?_⟩
    · exact List.forall_mem_append.mpr ⟨h.blocks, List.forall_mem_singleton.mpr whole⟩
    · rw [queuedUcmds_append, freedUcmds_append, h.order]
      simp [userStep, usockCmdEnqueue, queuedUcmds, freedUcmds, UserObs.queued?, UserObs.freed?]
    · rw [sentBytes_append, freedUcmds_append, h.sent]
      simp [userStep, sentBytes, freedUcmds, UserObs.bytes, UserObs.freed?]
    · rw [sentBytes_append, h.received]
      rfl
  | writable writes => exact userCbWrite_inStep h hwhole

/-- **Client message delivery.** In a run without short writes the client has received, in every
state reached, all that its socket took of the stream of messages: those that have left the list,
whole and in the order they were queued in. -/
theorem userSock_delivered (events : List UserEvent)
    (hwhole : userSock.Meets userEventWhole newUser events) : Delivered events := by
  have hrun : ∀ (events : List UserEvent) (gu : GsmdUser) (log : List UserObs) (backlog : Backlog)
      (bytes : List Byte), InStep gu log backlog bytes → userSock.Meets userEventWhole gu events →
      InStep (userSock.exec gu events).1 (log ++ (userSock.exec gu events).2)
        (clientStream.exec backlog events).1 (bytes ++ (clientStream.exec backlog events).2) := by
    intro events
    induction events with
    | nil =>
      intro gu log backlog bytes h _
      simpa using h
    | cons e events ih =>
      intro gu log backlog bytes h hmeets
      have hnext := ih _ _ _ _ (userStep_inStep h hmeets.1) hmeets.2
      simpa [userSock, clientStream] using hnext
  have hend := hrun events newUser [] ⟨0, []⟩ [] ⟨rfl, by simp [newUser], by simp [newUser], rfl,
    rfl, rfl⟩ hwhole
  exact
    { received := hend.received
      left := (congrArg Backlog.ucmds hend.backlog_eq).symm
      order := hend.order
      stream := ⟨[], hend.sent.trans (List.append_nil _).symm, Or.inl rfl⟩ }

def batteryReply : GsmdUcmd :=
  { list := [], mem := [1, 7, 8, 0, 0, 0, 2, 0, 1, 100] }

theorem batteryReply_whole : batteryReply.Whole := by decide

/-- The reply is sent once there is room for it. -/
theorem userSock_delivered_reply :
    Delivered [.enqueue batteryReply batteryReply_whole, .writable fun _ => .failed (-11),
      .writable fun _ => .taken 10] :=
  userSock_delivered _ ⟨trivial, trivial, Or.inr ⟨by decide, trivial⟩, trivial⟩

/-- A write that takes four bytes of the reply: the next one starts over. -/
theorem userSock_short_write : ¬∀ events : List UserEvent, Delivered events := by
  intro hall
  have hrun := hall [.enqueue batteryReply batteryReply_whole, .writable fun _ => .taken 4,
    .writable fun _ => .taken 10]
  exact absurd hrun.received (by decide)

end Openmoko.Gsmd

/-!
## Events to several clients

The first subscriber is given the event itself, every other one a copy. The copy has the first
`hdr.len` bytes of the block, which starts with the list head and the header: what is missing at the
end is whatever the fresh block held.
-/

namespace Openmoko.Gsmd

/-- What a client gets if it has the event's bit in its mask: one message more in its list, with the
header and the payload of the event. -/
def Served (ucmd : GsmdUcmd) (evt : ℕ) (gu gu' : GsmdUser) : Prop :=
  if gu.subscriptions.getLsbD evt then
    ∃ cpy : GsmdUcmd, gu' = usockCmdEnqueue cpy gu ∧ cpy.mem.take ucmd.size = ucmd.wire
  else gu' = gu

def numSubscribed (users : List GsmdUser) (evt : ℕ) : ℕ :=
  users.countP fun gu => gu.subscriptions.getLsbD evt

/-- The block is there and holds, before anything is copied into it, what the event has from byte
`hdr.len` of its block on. -/
def HoldsRest (fresh : Fresh) (ucmd : GsmdUcmd) : Prop :=
  ∃ contents, fresh = some contents ∧
    ∀ i < ucmd.size, ucmd.hdrLen ≤ ucmd.list.length + i →
      ucmd.mem[i]? = some (contents (ucmd.list.length + i))

theorem subscribed_eq (gu : GsmdUser) (evt : ℕ) :
    subscribed gu evt = gu.subscriptions.getLsbD evt := by
  unfold subscribed
  have hbit : 1#32 <<< evt = BitVec.twoPow 32 evt := rfl
  rw [hbit, BitVec.and_twoPow]
  cases hget : gu.subscriptions.getLsbD evt with
  | false => simp
  | true =>
    have hlt : evt < 32 := BitVec.lt_of_getLsbD hget
    have hne : BitVec.twoPow 32 evt ≠ 0#32 := by
      intro heq
      have hzero := congrArg (fun x => BitVec.getLsbD x evt) heq
      simp [hlt] at hzero
    simpa using hne

theorem getElem?_memcpy {dest src : List Byte} {n : ℕ} (hsrc : n ≤ src.length) (i : ℕ) :
    (memcpy dest src n)[i]? = if i < n then src[i]? else dest[i]? := by
  rw [memcpy, List.getElem?_append, List.length_take, min_eq_left hsrc]
  by_cases hi : i < n
  · rw [if_pos hi, if_pos hi, List.getElem?_take_of_lt hi]
  · rw [if_neg hi, if_neg hi, List.getElem?_drop]
    congr 1
    omega

variable {ucmd : GsmdUcmd} {gu : GsmdUser} {evt : ℕ}

theorem getElem?_ucmdCopy {contents : ℕ → Byte} {cpy : GsmdUcmd} (hwhole : ucmd.Whole)
    (hcopy : ucmdCopy (some contents) ucmd = some cpy) {i : ℕ} (hi : i < ucmd.size) :
    cpy.mem[i]? =
      if ucmd.list.length + i < ucmd.hdrLen then ucmd.mem[i]?
      else some (contents (ucmd.list.length + i)) := by
  obtain rfl := Option.some.inj hcopy
  unfold GsmdUcmd.Whole at hwhole
  unfold GsmdUcmd.size MSG_HDR_SIZE at hi hwhole
  rw [List.getElem?_drop, getElem?_memcpy (by rw [List.length_append]; omega)]
  by_cases hlt : ucmd.list.length + i < ucmd.hdrLen
  · rw [if_pos hlt, if_pos hlt, List.getElem?_append_right (Nat.le_add_right _ _),
      Nat.add_sub_cancel_left]
  · rw [if_neg hlt, if_neg hlt, List.getElem?_map, List.getElem?_range]
    · rfl
    · unfold MSG_HDR_SIZE
      omega

theorem take_eq_take_iff (xs ys : List Byte) (n : ℕ) :
    xs.take n = ys.take n ↔ ∀ i < n, xs[i]? = ys[i]? := by
  constructor
  · intro heq i hi
    rw [← List.getElem?_take_of_lt hi, heq, List.getElem?_take_of_lt hi]
  · intro hall
    ext1 i
    by_cases hi : i < n
    · rw [List.getElem?_take_of_lt hi, List.getElem?_take_of_lt hi, hall i hi]
    · rw [List.getElem?_take_eq_none (Nat.le_of_not_lt hi),
        List.getElem?_take_eq_none (Nat.le_of_not_lt hi)]

theorem ucmdCopy_take_eq_iff {contents : ℕ → Byte} {cpy : GsmdUcmd} (hwhole : ucmd.Whole)
    (hcopy : ucmdCopy (some contents) ucmd = some cpy) :
    cpy.mem.take ucmd.size = ucmd.wire ↔ HoldsRest (some contents) ucmd := by
  rw [GsmdUcmd.wire, take_eq_take_iff]
  constructor
  · intro hall
    refine ⟨contents, rfl, fun i hi hle => ?_⟩
    rw [← hall i hi, getElem?_ucmdCopy hwhole hcopy hi, if_neg (Nat.not_lt.mpr hle)]
  · rintro ⟨contents', heq, hholds⟩ i hi
    obtain rfl := Option.some.inj heq
    rw [getElem?_ucmdCopy hwhole hcopy hi]
    by_cases hlt : ucmd.list.length + i < ucmd.hdrLen
    · rw [if_pos hlt]
    · rw [if_neg hlt, hholds i hi (Nat.le_of_not_lt hlt)]

theorem usockCmdEnqueue_inj {cpy cpy' : GsmdUcmd}
    (heq : usockCmdEnqueue cpy gu = usockCmdEnqueue cpy' gu) : cpy = cpy' := by
  have hlists := congrArg GsmdUser.finishedUcmds heq
  exact List.singleton_inj.mp (List.append_cancel_left hlists)

theorem served_enqueue_iff {cpy : GsmdUcmd} (hsub : gu.subscriptions.getLsbD evt = true) :
    Served ucmd evt gu (usockCmdEnqueue cpy gu) ↔ cpy.mem.take ucmd.size = ucmd.wire := by
  rw [Served, if_pos hsub]
  constructor
  · rintro ⟨cpy', heq, htake⟩
    rw [usockCmdEnqueue_inj heq]
    exact htake
  · exact fun htake => ⟨cpy, rfl, htake⟩

theorem forall_numSubscribed_succ {P : ℕ → Prop} (sent count : ℕ) :
    (∀ n, sent ≤ n → n < sent + (count + 1) → P n) ↔
      P sent ∧ ∀ n, sent + 1 ≤ n → n < sent + 1 + count → P n := by
  constructor
  · intro hall
    exact ⟨hall sent (Nat.le_refl _) (by omega), fun n hle hlt => hall n (by omega) (by omega)⟩
  · rintro ⟨hhead, htail⟩ n hle hlt
    rcases Nat.eq_or_lt_of_le hle with rfl | hgt
    · exact hhead
    · exact htail n hgt (by omega)

theorem numSubscribed_cons_other
    (hsub : gu.subscriptions.getLsbD evt = false) (users : List GsmdUser) :
    numSubscribed (gu :: users) evt = numSubscribed users evt :=
  List.countP_cons_of_neg (by rw [hsub]; exact Bool.false_ne_true)

theorem numSubscribed_cons_subscriber
    (hsub : gu.subscriptions.getLsbD evt = true) (users : List GsmdUser) :
    numSubscribed (gu :: users) evt = numSubscribed users evt + 1 :=
  List.countP_cons_of_pos hsub

theorem served_other (hsub : gu.subscriptions.getLsbD evt = false) : Served ucmd evt gu gu := by
  rw [Served, if_neg (by simp [hsub])]

theorem evtSendLoop_served_iff (fresh : ℕ → Fresh) (hwhole : ucmd.Whole)
    (evt : ℕ) (users : List GsmdUser) {numSent : ℕ} (hpos : 0 < numSent) :
    List.Forall₂ (Served ucmd evt) users (evtSendLoop fresh ucmd evt numSent users).1 ∧
        (evtSendLoop fresh ucmd evt numSent users).2 = numSent + numSubscribed users evt ↔
      ∀ n, numSent ≤ n → n < numSent + numSubscribed users evt → HoldsRest (fresh n) ucmd := by
  induction users generalizing numSent with
  | nil =>
    constructor
    · intro _ n hle hlt
      exact absurd hlt (Nat.not_lt.mpr hle)
    · exact fun _ => ⟨List.Forall₂.nil, rfl⟩
  | cons gu users ih =>
    cases hsub : gu.subscriptions.getLsbD evt with
    | false =>
      simp only [evtSendLoop, subscribed_eq, hsub, Bool.false_eq_true, if_false,
        numSubscribed_cons_other hsub, List.forall₂_cons, served_other hsub, true_and]
      exact ih hpos
    | true =>
      rw [numSubscribed_cons_subscriber hsub, forall_numSubscribed_succ]
      cases hfresh : fresh numSent with
      | none =>
        simp only [evtSendLoop, subscribed_eq, hsub, if_true, hpos.ne', if_false, hfresh, ucmdCopy,
          Option.map_none]
        constructor
        · rintro ⟨-, hsent⟩
          omega
        · rintro ⟨⟨contents, hsome, -⟩, -⟩
          cases hsome
      | some contents =>
        obtain ⟨cpy, hcopy⟩ : ∃ cpy, ucmdCopy (some contents) ucmd = some cpy := ⟨_, rfl⟩
        simp only [evtSendLoop, subscribed_eq, hsub, if_true, hpos.ne', if_false, hfresh, hcopy,
          List.forall₂_cons, served_enqueue_iff hsub]
        rw [ucmdCopy_take_eq_iff hwhole hcopy, and_assoc, ← ih (Nat.succ_pos numSent)]
        have hadd : numSent + (numSubscribed users evt + 1) =
            numSent + 1 + numSubscribed users evt := by omega
        rw [hadd]

/-- **Event fan-out.** Every subscriber is queued the whole event, nobody else anything, and the
number of them is returned, exactly when the block for each copy held the end of the event already.
With at most one subscriber there is no copy. -/
theorem usockEvtSend_served_iff (fresh : ℕ → Fresh) (users : List GsmdUser) (ucmd : GsmdUcmd)
    (evt : ℕ) (hwhole : ucmd.Whole) :
    List.Forall₂ (Served ucmd evt) users (usockEvtSend fresh users ucmd evt).1 ∧
        (usockEvtSend fresh users ucmd evt).2 = numSubscribed users evt ↔
      ∀ n, 1 ≤ n → n < numSubscribed users evt → HoldsRest (fresh n) ucmd := by
  unfold usockEvtSend
  induction users with
  | nil => exact ⟨fun _ n _ hlt => absurd hlt (Nat.not_lt_zero n), fun _ => ⟨List.Forall₂.nil, rfl⟩⟩
  | cons gu users ih =>
    cases hsub : gu.subscriptions.getLsbD evt with
    | false =>
      simp only [evtSendLoop, subscribed_eq, hsub, Bool.false_eq_true, if_false,
        numSubscribed_cons_other hsub, List.forall₂_cons, served_other hsub, true_and]
      exact ih
    | true =>
      have hcount : numSubscribed (gu :: users) evt = 1 + numSubscribed users evt := by
        rw [numSubscribed_cons_subscriber hsub, Nat.add_comm]
      have hserved : Served ucmd evt gu (usockCmdEnqueue ucmd gu) :=
        (served_enqueue_iff hsub).mpr rfl
      simp only [evtSendLoop, subscribed_eq, hsub, if_true, hcount, List.forall₂_cons, hserved,
        true_and]
      exact evtSendLoop_served_iff fresh hwhole evt users Nat.one_pos

def callEvent : GsmdUcmd :=
  { list := [0, 0, 0, 0, 0, 0, 0, 0], mem := [1, 1, 1, 0, 0, 0, 2, 0, 3, 4] }

/-- One of two clients wants to know of calls. -/
theorem usockEvtSend_one_subscriber :
    List.Forall₂ (Served callEvent 1) [newUser, { newUser with subscriptions := 0#32 }]
        (usockEvtSend (fun _ => none) [newUser, { newUser with subscriptions := 0#32 }]
          callEvent 1).1 ∧
      (usockEvtSend (fun _ => none) [newUser, { newUser with subscriptions := 0#32 }]
        callEvent 1).2 = numSubscribed [newUser, { newUser with subscriptions := 0#32 }] 1 := by
  have hcount : numSubscribed [newUser, { newUser with subscriptions := 0#32 }] 1 = 1 := by decide
  refine (usockEvtSend_served_iff (fun _ => none) _ callEvent 1 (by decide)).mpr ?_
  intro n hle hlt
  rw [hcount] at hlt
  omega

/-- Both want to know, and the second gets a header of zeros. -/
theorem usockEvtSend_two_subscribers :
    ¬∀ (fresh : ℕ → Fresh) (users : List GsmdUser) (ucmd : GsmdUcmd) (evt : ℕ), ucmd.Whole →
      (∀ n, (fresh n).isSome) →
      List.Forall₂ (Served ucmd evt) users (usockEvtSend fresh users ucmd evt).1 ∧
        (usockEvtSend fresh users ucmd evt).2 = numSubscribed users evt := by
  intro hall
  obtain ⟨hserved, -⟩ := hall (fun _ => some fun _ => 0) [newUser, newUser] callEvent 1 (by decide)
    fun _ => rfl
  obtain ⟨-, hsecond⟩ := List.forall₂_cons.mp hserved
  obtain ⟨hsecond, -⟩ := List.forall₂_cons.mp hsecond
  have htake := (served_enqueue_iff (by decide)).mp hsecond
  exact absurd htake (by decide)

end Openmoko.Gsmd
