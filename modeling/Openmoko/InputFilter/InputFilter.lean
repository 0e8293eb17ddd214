import Mathlib.Data.List.Basic

/-!
# The input event filter (`input-filter.c`)

The program copies events from a device to a FIFO and drops movement. A `read` returns a whole
number of events, as the kernel hands them out. The results of `write` and of opening the FIFO anew
are an environment, by the number of the call.

`main` keeps the length of what it read in the variable that gets the result of each event, so that
the walk over the buffer ends after its first event: the loop here carries both `i` and `rc`.
-/

namespace Openmoko.InputFilter

def EV_KEY : UInt16 := 0x01
def EV_REL : UInt16 := 0x02
def EV_ABS : UInt16 := 0x03

structure InputEvent where
  sec : UInt32
  usec : UInt32
  type : UInt16
  code : UInt16
  value : Int32
  deriving DecidableEq

/-- `sizeof(struct input_event)`. -/
def SIZEOF_INPUT_EVENT : Int := 16

def InputEvent.isMovement (evt : InputEvent) : Bool := evt.type == EV_ABS || evt.type == EV_REL

structure Stats where
  numReads : UInt32
  numEventsIn : UInt32
  numEventsOut : UInt32
  tvFirst : UInt32 × UInt32
  tvLast : UInt32 × UInt32
  deriving DecidableEq

/-- What the kernel answers to the calls of `write` and to the blocking opens of the FIFO. -/
structure FilterEnv where
  write : Nat → Int
  reopen : Nat → Bool

def FilterEnv.complete : FilterEnv :=
  { write := fun _ => SIZEOF_INPUT_EVENT
    reopen := fun _ => true }

/-- `written` is what `write` was called with, and what it answered. -/
structure FilterState where
  st : Stats
  written : List (InputEvent × Int)
  reopened : Nat
  exited : Option Nat
  deriving DecidableEq

def FilterState.init : FilterState :=
  { st := { numReads := 0, numEventsIn := 0, numEventsOut := 0, tvFirst := (0, 0), tvLast := (0, 0) }
    written := []
    reopened := 0
    exited := none }

variable (s : FilterState)

def FilterState.forwarded : List InputEvent :=
  (s.written.filter fun call => call.2 = SIZEOF_INPUT_EVENT).map Prod.fst

def countEvent (st : Stats) (evt : InputEvent) : Stats :=
  let st := { st with numEventsIn := st.numEventsIn + 1 }
  { st with
    tvFirst := if st.numEventsIn = 1 then (evt.sec, evt.usec) else st.tvFirst
    tvLast := (evt.sec, evt.usec) }

def handleEvent (env : FilterEnv) (s : FilterState) (evt : InputEvent) : FilterState × Int :=
  let s := { s with st := countEvent s.st evt }
  if evt.type = EV_ABS ∨ evt.type = EV_REL then (s, SIZEOF_INPUT_EVENT)
  else
    let rc := env.write s.written.length
    ({ s with
        written := s.written ++ [(evt, rc)]
        st := { s.st with numEventsOut := s.st.numEventsOut + 1 } }, rc)

/-- `for (i = 0; i < rc; i += sizeof(struct input_event))`, with the events from `buf + i` on. -/
def walkBuffer (env : FilterEnv) (s : FilterState) (i rc : Int) : List InputEvent → FilterState
  | [] => s
  | evt :: evts =>
    if i < rc then
      let (s, rc) := handleEvent env s evt
      if rc < 0 then { s with exited := some 3 }
      else if rc < SIZEOF_INPUT_EVENT then
        -- short write
        if env.reopen s.reopened then
          walkBuffer env { s with reopened := s.reopened + 1 } (i + SIZEOF_INPUT_EVENT) rc evts
        else { s with exited := some 4 }
      else walkBuffer env s (i + SIZEOF_INPUT_EVENT) rc evts
    else s

/-- `while (1)` over the results of `read`; a failed one ends the program. -/
def mainLoop (env : FilterEnv) (s : FilterState) : List (Option (List InputEvent)) → FilterState
  | [] => s
  | none :: _ => s
  | some evts :: reads =>
    let s := { s with st := { s.st with numReads := s.st.numReads + 1 } }
    let s := walkBuffer env s 0 (SIZEOF_INPUT_EVENT * evts.length) evts
    if s.exited.isSome then s else mainLoop env s reads

theorem handleEvent_complete (evt : InputEvent) :
    (handleEvent .complete s evt).2 = SIZEOF_INPUT_EVENT ∧
      (handleEvent .complete s evt).1.exited = s.exited ∧
      (handleEvent .complete s evt).1.forwarded =
        s.forwarded ++ if evt.isMovement then [] else [evt] := by
  unfold handleEvent InputEvent.isMovement FilterState.forwarded
  by_cases hmove : evt.type = EV_ABS ∨ evt.type = EV_REL
  · have htest : (evt.type == EV_ABS || evt.type == EV_REL) = true := by simpa using hmove
    simp [hmove, htest]
  · have htest : (evt.type == EV_ABS || evt.type == EV_REL) = false := by simpa using hmove
    simp [hmove, htest, FilterEnv.complete]

theorem walkBuffer_complete (evts : List InputEvent) :
    (walkBuffer .complete s 0 (SIZEOF_INPUT_EVENT * evts.length) evts).exited = s.exited ∧
      (walkBuffer .complete s 0 (SIZEOF_INPUT_EVENT * evts.length) evts).forwarded =
        s.forwarded ++ (evts.take 1).filter fun evt => !evt.isMovement := by
  cases evts with
  | nil => simp [walkBuffer]
  | cons evt evts =>
    obtain ⟨hrc, hexited, hforwarded⟩ := handleEvent_complete s evt
    have hfirst : (0 : Int) < SIZEOF_INPUT_EVENT * ((evt :: evts).length : Int) := by
      simp only [SIZEOF_INPUT_EVENT, List.length_cons]
      omega
    have hends : ∀ s : FilterState,
        walkBuffer .complete s (0 + SIZEOF_INPUT_EVENT) SIZEOF_INPUT_EVENT evts = s := by
      intro s
      cases evts <;> simp [walkBuffer]
    have hwalk : walkBuffer .complete s 0 (SIZEOF_INPUT_EVENT * (evt :: evts).length)
        (evt :: evts) = (handleEvent .complete s evt).1 := by
      have hnonneg : ¬(SIZEOF_INPUT_EVENT < 0) := by decide
      simp only [walkBuffer, hfirst, if_true, hrc, hnonneg, if_false, Int.lt_irrefl, hends]
    rw [hwalk, hexited, hforwarded]
    refine ⟨rfl, ?_⟩
    cases hmove : evt.isMovement <;> simp [hmove]

theorem mainLoop_complete (hrunning : s.exited = none)
    (reads : List (List InputEvent)) :
    (mainLoop .complete s (reads.map some)).forwarded =
      s.forwarded ++ reads.flatMap fun evts => (evts.take 1).filter fun evt => !evt.isMovement := by
  induction reads generalizing s with
  | nil => simp [mainLoop]
  | cons evts reads ih =>
    obtain ⟨hexited, hforwarded⟩ := walkBuffer_complete
      { s with st := { s.st with numReads := s.st.numReads + 1 } } evts
    have hgoes := hexited.trans hrunning
    simp only [List.map_cons, mainLoop, hgoes, Option.isSome_none, Bool.false_eq_true, if_false]
    rw [ih _ hgoes, hforwarded, List.flatMap_cons, ← List.append_assoc]
    rfl

theorem flatMap_eq_iff_of_sublist {α β : Type} {f g : α → List β} {l : List α}
    (hsub : ∀ a ∈ l, (f a).Sublist (g a)) :
    l.flatMap f = l.flatMap g ↔ ∀ a ∈ l, f a = g a := by
  induction l with
  | nil => simp
  | cons a l ih =>
    have htail : ∀ b ∈ l, (f b).Sublist (g b) := fun b hb => hsub b (List.mem_cons_of_mem _ hb)
    have hrest : (l.flatMap f).length ≤ (l.flatMap g).length := by
      clear ih hsub
      induction l with
      | nil => simp
      | cons b l ih =>
        have hb := (htail b List.mem_cons_self).length_le
        have hl := ih fun c hc => htail c (List.mem_cons_of_mem _ hc)
        simp only [List.flatMap_cons, List.length_append]
        omega
    have hhead := hsub a List.mem_cons_self
    rw [List.flatMap_cons, List.flatMap_cons, List.forall_mem_cons, ← ih htail]
    constructor
    · intro heq
      have hlen : (f a).length = (g a).length := by
        have hlengths := congrArg List.length heq
        have hle := hhead.length_le
        simp only [List.length_append] at hlengths
        omega
      have hfirst := hhead.eq_of_length hlen
      rw [hfirst] at heq
      exact ⟨hfirst, List.append_cancel_left heq⟩
    · rintro ⟨hfirst, hothers⟩
      rw [hfirst, hothers]

theorem take_one_filter_eq_iff (evts : List InputEvent) :
    ((evts.take 1).filter fun evt => !evt.isMovement) = (evts.filter fun evt => !evt.isMovement) ↔
      ∀ evt ∈ evts.tail, evt.isMovement = true := by
  cases evts with
  | nil => simp
  | cons evt evts =>
    have htake : (evt :: evts).take 1 = [evt] := rfl
    have hsplit : (evt :: evts).filter (fun evt => !evt.isMovement) =
        [evt].filter (fun evt => !evt.isMovement) ++ evts.filter fun evt => !evt.isMovement := by
      rw [← List.filter_append, List.singleton_append]
    rw [htake, hsplit, List.self_eq_append_right, List.filter_eq_nil_iff]
    simp

/-- With complete writes, what goes out is everything that was read but movement, in order. -/
def Forwards (reads : List (List InputEvent)) : Prop :=
  (mainLoop .complete .init (reads.map some)).forwarded =
    reads.flatten.filter fun evt => !evt.isMovement

instance (reads : List (List InputEvent)) : Decidable (Forwards reads) :=
  inferInstanceAs (Decidable (_ = _))

/-- **Forwarding.** However many events each read brings, everything but movement goes out exactly
if only movement stands behind the first event of a read. -/
theorem forwards_iff (reads : List (List InputEvent)) :
    Forwards reads ↔ ∀ evts ∈ reads, ∀ evt ∈ evts.tail, evt.isMovement = true := by
  have hfilter : (reads.flatten.filter fun evt => !evt.isMovement) =
      reads.flatMap fun evts => evts.filter fun evt => !evt.isMovement := by
    rw [List.filter_flatten, List.flatMap_def]
  have hstart : FilterState.init.forwarded = [] := rfl
  rw [Forwards, mainLoop_complete .init rfl, hfilter, hstart, List.nil_append,
    flatMap_eq_iff_of_sublist]
  · simp only [take_one_filter_eq_iff]
  · exact fun evts _ => (List.take_sublist 1 evts).filter _

/-- A key goes down and comes up again in one read: for the reader of the FIFO it stays down. -/
theorem release_lost :
    ¬Forwards [[⟨0, 0, EV_KEY, 0x74, 1⟩, ⟨0, 0, EV_KEY, 0x74, 0⟩]] := by
  decide

end Openmoko.InputFilter
