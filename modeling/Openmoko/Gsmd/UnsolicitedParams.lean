import Mathlib.Data.Int.Notation
import Openmoko.Gsmd.ExtResponse
import Openmoko.Gsmd.SmsPdu
import Openmoko.Gsmd.Unsolicited

/-!
# Handlers of unsolicited codes (`unsolicited.c`)

As long as an incoming call rings, the modem says `RING` again and again. A timer that every such
line starts anew tells that it has stopped, unless the call has been answered or rejected.

Then the handlers that read the parameters of a line. Memory does not run out, and a number that is no
`int` becomes the nearest one.
-/

namespace Openmoko.Gsmd

def GSMD_CALL_UNSPEC : ℤ := 1
def GSMD_CALL_VOICE : ℤ := 2
def GSMD_CALL_FAX : ℤ := 4
def GSMD_CALL_DATA_SYNC : ℤ := 5
def GSMD_CALL_DATA_REL_ASYNC : ℤ := 6
def GSMD_CALL_DATA_REL_SYNC : ℤ := 7
def GSMD_CALL_TIMEOUT : ℤ := 8

def GSMD_CALLPROG_CONNECTED : ℤ := 6
def GSMD_CALLPROG_RELEASE : ℤ := 7
def GSMD_CALLPROG_REJECT : ℤ := 8

/-- The part of `dev_state` that is about incoming calls. -/
structure RingState where
  -- `ringing`, with the call that does
  ringing : Option ℕ
  -- `ring_check` is registered
  ringCheck : Bool
  deriving DecidableEq, Repr

def stateRingingUpdate (call : ℕ) : RingState := { ringing := some call, ringCheck := true }

def ringParse (call : ℕ) : RingState × ℤ := (stateRingingUpdate call, GSMD_CALL_UNSPEC)

def cringParse (param : List Byte) : Option ℤ :=
  if param = ascii "VOICE" then some GSMD_CALL_VOICE
  else if param = ascii "SYNC" then some GSMD_CALL_DATA_SYNC
  else if param = ascii "REL ASYNC" then some GSMD_CALL_DATA_REL_ASYNC
  else if param = ascii "REL SYNC" then some GSMD_CALL_DATA_REL_SYNC
  else if param = ascii "FAX" then some GSMD_CALL_FAX
  else if hasPrefix param (ascii "GPRS ") then none
  else some GSMD_CALL_UNSPEC

def stateRingingTimeout (s : RingState) : RingState × Option (ℤ × ℕ) :=
  match s.ringing with
  | some call => ({ ringing := none, ringCheck := false }, some (GSMD_CALL_TIMEOUT, call))
  | none => ({ s with ringCheck := false }, none)

/-- `GSMD_VOICECALL_DIAL` and so on. -/
inductive VoicecallMsg where
  | dial
  | hangup
  | answer
  deriving DecidableEq, Repr

def usockRcvVoicecall (s : RingState) : VoicecallMsg → Bool
  | .dial => false
  | .hangup => s.ringing.isSome
  | .answer => true

def usockRingingCb (s : RingState) (ret : ℤ) : RingState :=
  if ret = 0 then { s with ringing := none } else s

def GSMD_NETREG_REG_HOME : ℤ := 1
def GSMD_NETREG_REG_ROAMING : ℤ := 5
def GSMD_ALPHA_MAXLEN : ℕ := 20

inductive UnsolicitEvent where
  | inCall (type : ℤ)
  | netreg (state : ℤ) (lac ci : ℕ)
  | callWait (number : List Byte) (type classx : ℤ) (alpha : List Byte) (cli : ℤ)
  | inClip (number : List Byte) (type : ℤ)
  | outColp (number : List Byte) (type : ℤ)
  | timezone (tz : ℤ)
  deriving DecidableEq

structure Opname where
  mcc : ℤ
  mnc : ℤ
  alnumLong : List Byte
  deriving DecidableEq

/-- What the handlers change: the events are those given to `usock_evt_send`, which returns the
number of users that get one. -/
structure UnsolicitState where
  registered : Bool
  networkInits : ℕ
  operators : List Opname
  receivers : UnsolicitEvent → ℕ
  events : List UnsolicitEvent

/-- `none` is a read or a write outside the memory that it is about. -/
abbrev Handled := Option (ℤ × UnsolicitState)

def UnsolicitState.usockEvtSend (s : UnsolicitState) (evt : UnsolicitEvent) :
    ℤ × UnsolicitState :=
  (s.receivers evt, { s with events := s.events ++ [evt] })

def strtolInt (s : List Byte) : ℤ := max (-Extrsp.INT_MAX - 1) (min (atoi s) Extrsp.INT_MAX)

/-- The digits that `strtol(s, &end, 10)` reads; without any, `end` is `s`. -/
def strtolDigits (s : List Byte) : List Byte :=
  let start := s.dropWhile isspace
  let negative := start.head? == some 45
  let body := if negative || start.head? == some 43 then start.tail else start
  body.takeWhile isdigit

def hexDigitValue (c : Byte) : Option ℕ :=
  if isdigit c then some (c.toNat - 48)
  else if 97 ≤ c ∧ c ≤ 102 then some (c.toNat - 87)
  else if 65 ≤ c ∧ c ≤ 70 then some (c.toNat - 55)
  else none

/-- `strtoul(s, NULL, 16)`. -/
def strtoulHex (s : List Byte) : ℕ :=
  let start := s.dropWhile isspace
  let negative := start.head? = some 45
  let body := if negative ∨ start.head? = some 43 then start.tail else start
  let isPrefix := body.head? = some 48 ∧ (body[1]? = some 120 ∨ body[1]? = some 88) ∧
    (body[2]?.bind hexDigitValue).isSome
  let digits := ((if isPrefix then body.drop 2 else body).map hexDigitValue).takeWhile Option.isSome
  let value := digits.foldl (fun value d => 16 * value + d.getD 0) 0
  if 4294967295 < value then 4294967295
  else if negative then (4294967296 - value) % 4294967296
  else value

def strAt (s : List Byte) (i : ℕ) : Option (List Byte) :=
  if i ≤ s.length then some (s.drop i) else none

def strcpyField (maxLen : ℕ) (s : List Byte) : Option (List Byte) :=
  if s.length ≤ maxLen then some s else none

def cringHandler (param : Option (List Byte)) (s : UnsolicitState) : Handled := do
  match cringParse (← param) with
  | some type => return s.usockEvtSend (.inCall type)
  | none => return (0, s)

def cregNetreg (param : List Byte) (state : ℤ) (s : UnsolicitState) : Handled :=
  match strchr param 44 with
  | none => some (s.usockEvtSend (.netreg state 0 0))
  | some comma => do
    let lac ← strAt param (comma + 2)
    match strchr (param.drop (comma + 1)) 44 with
    | none => some (-EINVAL, s)
    | some next =>
      let ci ← strAt param (comma + 1 + next + 2)
      return s.usockEvtSend (.netreg state (strtoulHex lac % 65536) (strtoulHex ci % 65536))

def cregParse (param : Option (List Byte)) (s : UnsolicitState) : Handled := do
  let param ← param
  if strtolDigits param = [] then return (-EINVAL, s)
  let state := strtolInt param
  let registered : Bool := state = GSMD_NETREG_REG_HOME ∨ state = GSMD_NETREG_REG_ROAMING
  cregNetreg param state
    { s with
      registered := registered
      networkInits := if registered && !s.registered then s.networkInits + 1 else s.networkInits }

def withExtrsp (f : List GsmExtrspTok → UnsolicitState → Handled) (param : Option (List Byte))
    (s : UnsolicitState) : Handled :=
  match extrspParse (param.getD []) with
  | .error _ => none
  | .ok none => some (-ENOMEM, s)
  | .ok (some er) => f er.tokens s

def addrTokens (event : List Byte → ℤ → UnsolicitEvent) :
    List GsmExtrspTok → UnsolicitState → Handled
  | number :: type :: _, s =>
    if number.type = .string ∧ type.type = .numeric then do
      let text ← strcpyField GSMD_ADDR_MAXLEN number.string
      return s.usockEvtSend (event text (type.numeric % 256))
    else some (-EINVAL, s)
  | _, s => some (-EINVAL, s)

def clipParse : Option (List Byte) → UnsolicitState → Handled := withExtrsp (addrTokens .inClip)

def colpParse : Option (List Byte) → UnsolicitState → Handled := withExtrsp (addrTokens .outColp)

/-- The types of `<number>,<type>,<class>,[<alpha>],<CLI validity>`. -/
def IsCcwa (number type classx alpha cli : GsmExtrspTok) : Prop :=
  number.type = .string ∧ type.type = .numeric ∧ classx.type = .numeric ∧
    (alpha.type = .empty ∨ alpha.type = .string) ∧ cli.type = .numeric

instance (number type classx alpha cli : GsmExtrspTok) :
    Decidable (IsCcwa number type classx alpha cli) :=
  inferInstanceAs (Decidable (_ ∧ _))

def ccwaAlpha (alpha : GsmExtrspTok) : Option (List Byte) :=
  if alpha.type = .empty then some [] else strcpyField GSMD_ALPHA_MAXLEN alpha.string

def ccwaTokens : List GsmExtrspTok → UnsolicitState → Handled
  | [number, type, classx, alpha, cli], s =>
    if IsCcwa number type classx alpha cli then do
      let text ← strcpyField GSMD_ADDR_MAXLEN number.string
      let alphaText ← ccwaAlpha alpha
      return s.usockEvtSend (.callWait text (type.numeric % 256) (classx.numeric % 256) alphaText
        (cli.numeric % 256))
    else some (-EINVAL, s)
  | _, s => some (-EINVAL, s)

def ccwaParse : Option (List Byte) → UnsolicitState → Handled := withExtrsp ccwaTokens

def ctzvParse (param : Option (List Byte)) (s : UnsolicitState) : Handled := do
  let tz := strtolInt (← param)
  if tz < -48 ∨ 48 < tz then return (-EINVAL, s)
  return s.usockEvtSend (.timezone (tz % 256))

def gsmdOpnameAdd (numeric alnumLong : List Byte) (s : UnsolicitState) : ℤ × UnsolicitState :=
  if numeric.length ≠ 5 then (-EINVAL, s)
  else
    let op : Opname :=
      { mcc := atoi (numeric.take 3) % 65536
        mnc := atoi (numeric.drop 3) % 256
        alnumLong := alnumLong.take 16 }
    (0, { s with
      operators := (s.operators.filter fun cur => ¬(cur.mcc = op.mcc ∧ cur.mnc = op.mnc)) ++ [op] })

def copnTokens : List GsmExtrspTok → UnsolicitState → Handled
  | [numeric, name], s =>
    if numeric.type = .string ∧ name.type = .string then
      some (gsmdOpnameAdd numeric.string name.string s)
    else some (0, s)
  | _, s => some (0, s)

def copnParse : Option (List Byte) → UnsolicitState → Handled := withExtrsp copnTokens

/-- The entries of `gsm0707_unsolicit` that read their parameters. -/
inductive UnsolicitCode where
  | cring | creg | ccwa | clip | colp | ctzv | copn
  deriving DecidableEq

namespace UnsolicitCode

def parse : UnsolicitCode → Option (List Byte) → UnsolicitState → Handled
  | cring => cringHandler
  | creg => cregParse
  | ccwa => ccwaParse
  | clip => clipParse
  | colp => colpParse
  | ctzv => ctzvParse
  | copn => copnParse

end UnsolicitCode

/-- `i->parse(buf, len, colon, g)`. -/
def handleParam (code : UnsolicitCode) (buf : List Byte) (s : UnsolicitState) :
    UnsolicitParam → Handled
  | .null => code.parse none s
  | .inside i => (strAt buf i).bind fun param => code.parse (some param) s
  | .invalid => none

/-- The string that the handler gets, unless it gets NULL. -/
def paramText (buf : List Byte) : Option (List Byte) :=
  match unsolicitParam buf buf.length with
  | .inside i => some (buf.drop i)
  | _ => none

def addrShape : List GsmExtrspTok → Prop
  | number :: type :: _ => number.type = .string ∧ type.type = .numeric
  | _ => False

def ccwaShape : List GsmExtrspTok → Prop
  | [number, type, classx, alpha, cli] => IsCcwa number type classx alpha cli
  | _ => False

def copnShape : List GsmExtrspTok → Prop
  | [numeric, name] => numeric.type = .string ∧ name.type = .string
  | _ => False

variable (tokens : List GsmExtrspTok)

def copnNumeric : Prop :=
  copnShape tokens ∧ ∀ numeric ∈ tokens.head?, numeric.string.length = 5

def Parses (shape : List GsmExtrspTok → Prop) (param : List Byte) : Prop :=
  ∃ er, extrspParse param = .ok (some er) ∧ shape er.tokens

namespace UnsolicitCode

/-- The parameters that the handler takes as such. -/
def WellFormed : UnsolicitCode → List Byte → Prop
  | cring, _ => True
  | creg, param => strtolDigits param ≠ [] ∧
      ∀ comma, strchr param 44 = some comma → strchr (param.drop (comma + 1)) 44 ≠ none
  | ccwa, param => Parses ccwaShape param
  | clip, param => Parses addrShape param
  | colp, param => Parses addrShape param
  | ctzv, param => strtolDigits param ≠ [] ∧ -48 ≤ strtolInt param ∧ strtolInt param ≤ 48
  | copn, param => Parses copnNumeric param

def Answers (code : UnsolicitCode) (param : Option (List Byte)) (s : UnsolicitState)
    (handled : Handled) : Prop :=
  ∃ rc s', handled = some (rc, s') ∧
    ((∀ text ∈ param, ¬code.WellFormed text) → rc < 0 ∧ s'.events = s.events)

end UnsolicitCode

def ParsesWithin (fits : List GsmExtrspTok → Prop) (param : Option (List Byte)) : Prop :=
  ∀ text ∈ param, ∃ found, extrspParse text = .ok found ∧ ∀ er ∈ found, fits er.tokens

def addrFits : Prop :=
  addrShape tokens → ∀ number ∈ tokens[0]?, number.string.length ≤ GSMD_ADDR_MAXLEN

def ccwaFits : Prop :=
  ccwaShape tokens → (∀ number ∈ tokens[0]?, number.string.length ≤ GSMD_ADDR_MAXLEN) ∧
    ∀ alpha ∈ tokens[3]?, alpha.type = .string → alpha.string.length ≤ GSMD_ALPHA_MAXLEN

def CommasFit (param : List Byte) : Prop :=
  ∀ comma, strchr param 44 = some comma → comma + 2 ≤ param.length ∧
    ∀ next, strchr (param.drop (comma + 1)) 44 = some next → comma + 1 + next + 2 ≤ param.length

def UnsolicitCode.Meets : UnsolicitCode → Option (List Byte) → Prop
  | cring, param => param ≠ none
  | creg, param => ∃ text ∈ param, strtolDigits text ≠ [] → CommasFit text
  | ccwa, param => ParsesWithin ccwaFits param
  | clip, param => ParsesWithin addrFits param
  | colp, param => ParsesWithin addrFits param
  | ctzv, param => ∃ text ∈ param, strtolDigits text ≠ []
  | copn, param => ParsesWithin copnShape param

/-! ### When they do that -/

section

variable {param : Option (List Byte)} {s : UnsolicitState}

variable {code : UnsolicitCode}

theorem answers_some {rc : ℤ} {s' : UnsolicitState} : code.Answers param s (some (rc, s')) ↔
      ((∀ text ∈ param, ¬code.WellFormed text) → rc < 0 ∧ s'.events = s.events) := by
  simp [UnsolicitCode.Answers]

theorem not_answers_none : ¬code.Answers param s none := by
  simp [UnsolicitCode.Answers]

theorem answers_sent {s' : UnsolicitState} {evt : UnsolicitEvent} :
    code.Answers param s (some (s'.usockEvtSend evt)) ↔ ∃ text ∈ param, code.WellFormed text := by
  rw [UnsolicitState.usockEvtSend, answers_some]
  constructor
  · intro h
    by_contra hnone
    have hrc := (h fun text htext hwell => hnone ⟨text, htext, hwell⟩).1
    exact absurd hrc (Int.natCast_nonneg _).not_gt
  · rintro ⟨text, htext, hwell⟩ hnone
    exact absurd hwell (hnone text htext)

theorem answers_withExtrsp {shape fits : List GsmExtrspTok → Prop}
    {f : List GsmExtrspTok → UnsolicitState → Handled}
    (hwell : ∀ text, code.WellFormed text ↔ Parses shape text)
    (htokens : ∀ tokens, (∃ rc s', f tokens s = some (rc, s') ∧
      (¬shape tokens → rc < 0 ∧ s'.events = s.events)) ↔ fits tokens) :
    code.Answers param s (withExtrsp f param s) ↔ ParsesWithin fits param := by
  have hrefused : code.Answers param s (some (-ENOMEM, s)) := answers_some.mpr fun _ => ⟨by decide, rfl⟩
  cases param with
  | none => exact iff_of_true hrefused (by simp [ParsesWithin])
  | some text =>
    rw [withExtrsp, Option.getD_some]
    cases hparse : extrspParse text with
    | error fault => exact iff_of_false not_answers_none (by simp [ParsesWithin, hparse])
    | ok found =>
      cases found with
      | none => exact iff_of_true hrefused (by simp [ParsesWithin, hparse])
      | some er =>
        have hshape : (∀ t ∈ some text, ¬code.WellFormed t) ↔ ¬shape er.tokens := by
          simp [hwell, Parses, hparse]
        have hwithin : ParsesWithin fits (some text) ↔ fits er.tokens := by
          simp [ParsesWithin, hparse]
        rw [UnsolicitCode.Answers, hshape, hwithin]
        exact htokens er.tokens

theorem handled_iff {shape fits : Prop} {handled : Handled}
    (hno : ¬shape → handled = some (-EINVAL, s)) (hyes : shape → (handled.isSome = true ↔ fits)) :
    (∃ rc s', handled = some (rc, s') ∧ (¬shape → rc < 0 ∧ s'.events = s.events)) ↔
      (shape → fits) := by
  by_cases hshape : shape
  · simp [hshape, ← hyes hshape, Option.isSome_iff_exists]
  · exact iff_of_true ⟨_, _, hno hshape, fun _ => ⟨by decide, rfl⟩⟩ fun h => absurd h hshape

theorem addrTokens_iff (event : List Byte → ℤ → UnsolicitEvent) (tokens : List GsmExtrspTok) :
    (∃ rc s', addrTokens event tokens s = some (rc, s') ∧
      (¬addrShape tokens → rc < 0 ∧ s'.events = s.events)) ↔ addrFits tokens := by
  apply handled_iff
  · fun_cases addrTokens event tokens s with
    | case1 number type rest _ htypes => exact fun hno => absurd htypes hno
    | case2 => exact fun _ => rfl
    | case3 => exact fun _ => rfl
  · unfold addrShape
    split
    next number type rest =>
      intro htypes
      rw [addrTokens, if_pos htypes, strcpyField]
      by_cases hlength : number.string.length ≤ GSMD_ADDR_MAXLEN <;> simp [hlength]
    next => exact False.elim

theorem ccwaTokens_iff (tokens : List GsmExtrspTok) :
    (∃ rc s', ccwaTokens tokens s = some (rc, s') ∧
      (¬ccwaShape tokens → rc < 0 ∧ s'.events = s.events)) ↔ ccwaFits tokens := by
  apply handled_iff
  · fun_cases ccwaTokens tokens s with
    | case1 number type classx alpha cli _ htypes => exact fun hno => absurd htypes hno
    | case2 => exact fun _ => rfl
    | case3 => exact fun _ => rfl
  · unfold ccwaShape
    split
    next number type classx alpha cli =>
      intro htypes
      have halpha := htypes.2.2.2.1
      rw [ccwaTokens, if_pos htypes, strcpyField, ccwaAlpha, strcpyField]
      by_cases hlength : number.string.length ≤ GSMD_ADDR_MAXLEN
      · rcases halpha with halpha | halpha
        · simp [hlength, halpha]
        · by_cases hfits : alpha.string.length ≤ GSMD_ALPHA_MAXLEN <;>
            simp [hlength, halpha, hfits]
      · simp [hlength]
    next => exact False.elim

theorem copnTokens_iff (tokens : List GsmExtrspTok) :
    (∃ rc s', copnTokens tokens s = some (rc, s') ∧
      (¬copnNumeric tokens → rc < 0 ∧ s'.events = s.events)) ↔ copnShape tokens := by
  by_cases hshape : copnShape tokens
  · refine iff_of_true ?_ hshape
    unfold copnShape at hshape
    split at hshape
    next numeric name =>
      rw [copnTokens, if_pos hshape, gsmdOpnameAdd]
      split
      next => exact ⟨_, _, rfl, fun _ => ⟨by decide, rfl⟩⟩
      next hlength =>
        exact ⟨_, _, rfl, fun hno => absurd ⟨hshape, by simpa using hlength⟩ hno⟩
    next => exact hshape.elim
  · refine iff_of_false ?_ hshape
    have hunheard : copnTokens tokens s = some (0, s) := by
      fun_cases copnTokens tokens s with
      | case1 numeric name _ htypes => exact absurd htypes hshape
      | case2 => rfl
      | case3 => rfl
    rintro ⟨rc, s', hhandled, hneg⟩
    obtain ⟨rfl, rfl⟩ : _ ∧ _ := by simpa using hunheard.symm.trans hhandled
    exact absurd (hneg fun h => hshape h.1).1 (by decide)

theorem answers_cring : UnsolicitCode.cring.Answers param s (cringHandler param s) ↔
    UnsolicitCode.cring.Meets param := by
  cases param with
  | none => exact iff_of_false not_answers_none fun h => h rfl
  | some text =>
    have hwell : ∃ t ∈ some text, UnsolicitCode.cring.WellFormed t := ⟨text, rfl, trivial⟩
    refine iff_of_true ?_ (Option.some_ne_none text)
    rw [cringHandler, Option.bind_eq_bind, Option.bind_some]
    cases cringParse text with
    | some type => exact answers_sent.mpr hwell
    | none => exact answers_some.mpr fun hnone => absurd hwell (by simpa using hnone)

theorem answers_cregNetreg {text : List Byte} (hdigits : strtolDigits text ≠ []) (state : ℤ)
    {t : UnsolicitState} (ht : t.events = s.events) :
    UnsolicitCode.creg.Answers (some text) s (cregNetreg text state t) ↔ CommasFit text := by
  have hrefused : UnsolicitCode.creg.Answers (some text) s (some (-EINVAL, t)) :=
    answers_some.mpr fun _ => ⟨by decide, ht⟩
  rw [cregNetreg, CommasFit]
  cases hcomma : strchr text 44 with
  | none =>
    refine iff_of_true (answers_sent.mpr ⟨text, rfl, hdigits, ?_⟩) (by simp)
    simp [hcomma]
  | some comma =>
    simp only [Option.some.injEq, forall_eq', strAt]
    split
    next hlac =>
      rw [and_iff_right hlac, Option.bind_eq_bind, Option.bind_some]
      cases hnext : strchr (text.drop (comma + 1)) 44 with
      | none => exact iff_of_true hrefused (by simp)
      | some next =>
        simp only [Option.some.injEq, forall_eq']
        split
        next hci =>
          refine iff_of_true (answers_sent.mpr ⟨text, rfl, hdigits, ?_⟩) hci
          simp [hcomma, hnext]
        next hci => exact iff_of_false not_answers_none hci
    next hlac => exact iff_of_false not_answers_none fun h => hlac h.1

theorem answers_creg : UnsolicitCode.creg.Answers param s (cregParse param s) ↔
    UnsolicitCode.creg.Meets param := by
  cases param with
  | none => exact iff_of_false not_answers_none (by simp [UnsolicitCode.Meets])
  | some text =>
    have hmeets : UnsolicitCode.creg.Meets (some text) ↔
        (strtolDigits text ≠ [] → CommasFit text) := by simp [UnsolicitCode.Meets]
    rw [hmeets, cregParse, Option.bind_eq_bind, Option.bind_some]
    split
    next hdigits =>
      exact iff_of_true (answers_some.mpr fun _ => ⟨by decide, rfl⟩) (absurd hdigits)
    next hdigits =>
      rw [imp_iff_right hdigits]
      exact answers_cregNetreg hdigits _ rfl

theorem strtolInt_of_noDigits {text : List Byte} (hdigits : strtolDigits text = []) :
    strtolInt text = 0 := by
  have hvalue : atoi text = if (text.dropWhile isspace).head? == some 45
      then -(decimalValue (strtolDigits text) : ℤ) else decimalValue (strtolDigits text) := rfl
  simp [strtolInt, hvalue, hdigits, decimalValue, Extrsp.INT_MAX]

theorem answers_ctzv : UnsolicitCode.ctzv.Answers param s (ctzvParse param s) ↔
    UnsolicitCode.ctzv.Meets param := by
  cases param with
  | none => exact iff_of_false not_answers_none (by simp [UnsolicitCode.Meets])
  | some text =>
    have hmeets : UnsolicitCode.ctzv.Meets (some text) ↔ strtolDigits text ≠ [] := by
      simp [UnsolicitCode.Meets]
    rw [hmeets, ctzvParse, Option.bind_eq_bind, Option.bind_some]
    by_cases hrange : strtolInt text < -48 ∨ 48 < strtolInt text
    · rw [if_pos hrange]
      refine iff_of_true (answers_some.mpr fun _ => ⟨by decide, rfl⟩) fun hdigits => ?_
      rw [strtolInt_of_noDigits hdigits] at hrange
      omega
    · rw [if_neg hrange]
      refine answers_sent.trans ?_
      obtain ⟨hlow, hhigh⟩ : -48 ≤ strtolInt text ∧ strtolInt text ≤ 48 := by omega
      simp [UnsolicitCode.WellFormed, hlow, hhigh]

end

/-- The line with an unsolicited code is answered, its handler given NULL or a pointer into it. -/
def LineSafe (code : UnsolicitCode) (buf : List Byte) (s : UnsolicitState) : Prop :=
  unsolicitParam buf buf.length ≠ .invalid ∧
    code.Answers (paramText buf) s (handleParam code buf s (unsolicitParam buf buf.length))

/-- **When parameters are parsed safely.** -/
theorem lineSafe_iff (code : UnsolicitCode) (buf : List Byte) (s : UnsolicitState) :
    LineSafe code buf s ↔ (58 : Byte) ∈ buf ∧ code.Meets (paramText buf) := by
  have hcolon : unsolicitParam buf buf.length ≠ .invalid ↔ (58 : Byte) ∈ buf := by
    rw [unsolicitParam, ← not_iff_not, not_not, ← strchr_eq_none_iff]
    cases strchr buf 58 with
    | none => exact iff_of_true rfl rfl
    | some colon => simp only; split <;> simp
  have hanswers : ∀ param : Option (List Byte), code.Answers param s (code.parse param s) ↔
      code.Meets param := by
    intro param
    cases code with
    | cring => exact answers_cring
    | creg => exact answers_creg
    | ccwa => exact answers_withExtrsp (fun _ => Iff.rfl) ccwaTokens_iff
    | clip => exact answers_withExtrsp (fun _ => Iff.rfl) (addrTokens_iff _)
    | colp => exact answers_withExtrsp (fun _ => Iff.rfl) (addrTokens_iff _)
    | ctzv => exact answers_ctzv
    | copn => exact answers_withExtrsp (fun _ => Iff.rfl) copnTokens_iff
  rw [LineSafe, hcolon]
  refine and_congr_right fun hmem => ?_
  rw [← hanswers, paramText, unsolicitParam]
  cases hfound : strchr buf 58 with
  | none => exact absurd hmem (strchr_eq_none_iff.mp hfound)
  | some colon =>
    by_cases hlen : colon + 2 > buf.length
    · simp only [if_pos hlen]
      rfl
    · simp only [if_neg hlen, handleParam, strAt, if_pos (not_lt.mp hlen)]
      rfl

theorem not_lineSafe_creg : ¬LineSafe .creg (ascii "+CREG: 1,") ⟨false, 0, [], fun _ => 0, []⟩ := by
  rintro ⟨-, rc, s', hhandled, -⟩
  have hlost : handleParam .creg (ascii "+CREG: 1,") ⟨false, 0, [], fun _ => 0, []⟩
      (unsolicitParam (ascii "+CREG: 1,") (ascii "+CREG: 1,").length) = none := rfl
  exact absurd (hlost.symm.trans hhandled) (Option.some_ne_none _).symm

end Openmoko.Gsmd
