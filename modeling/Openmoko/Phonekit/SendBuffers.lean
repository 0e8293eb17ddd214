import Openmoko.Libgsmd.Proof.SeptetRoundTrip
import Openmoko.Phonekit.Dialer
import Openmoko.Phonekit.SmsText

/-!
# Numbers and texts in their buffers (`moko-sms.c`, `moko-dialer.c`, `moko-contacts.c`)

What comes in over D-Bus, or from the address book, is put into arrays of a fixed size. Here every
array is a buffer that refuses a store outside of it.
-/

namespace Openmoko.Phonekit.Stores

open Libgsmd Gsmd

def LGSM_SMS_ADDR_MAXLEN : ℕ := 12
def LGSM_ADDR_MAXLEN : ℕ := 31
def GSMD_ADDR_MAXLEN : ℕ := 32

/-- `strcpy (buf, s)`. -/
def strcpy (buf : Buffer Byte) (s : List Byte) : Option (Buffer Byte) := buf.writeAll 0 (s ++ [NUL])

def stringIn (buf : Buffer Byte) : List Byte := cstr (buf.filterMap id)

inductive PhoneKitNetworkStatus where
  | powerdown
  | unregistered
  | denied
  | registeredHome
  | registeredRoaming
  deriving DecidableEq, Repr

inductive SmsError where
  -- "Failed to connect to gsmd"
  | gsmd
  -- "Not registered to a network"
  | notConnected
  -- "SMS store not opened"
  | storeNotopen
  -- "Invalid number"
  | invalidNumber
  -- "Message too long"
  | msgToolong
  deriving DecidableEq, Repr

/-- What `moko_sms_send` finds of the network and the store. -/
structure SmsEnv where
  handle : Bool
  status : PhoneKitNetworkStatus
  smsStoreOpen : Bool
  deriving DecidableEq, Repr

/-- `struct lgsm_sms`, as it goes to `lgsm_sms_send`. -/
structure SentSms where
  addr : Buffer Byte
  alpha : Byte
  data : Buffer Byte
  length : ℕ
  askDs : Bool
  deriving DecidableEq

def storeSmschars (smschars : Buffer Byte) (i : ℕ) : List UInt16 → Option (Buffer Byte × ℕ × Bool)
  | [] => some (smschars, i, true)
  | d :: message16 =>
    match smscharsOf d with
    | none => some (smschars, i, false)
    | some chars => do
      let smschars ← smschars.writeAll i chars
      if i + chars.length > 160 then some (smschars, i + chars.length, true)
      else storeSmschars smschars (i + chars.length) message16

def mokoSmsSend (env : SmsEnv) (number : List Byte) (message : List Char) (report : Bool) :
    Option (Except SmsError SentSms) :=
  if !env.handle then some (.error .gsmd)
  else if env.status ≠ .registeredHome ∧ env.status ≠ .registeredRoaming then
    some (.error .notConnected)
  else if !env.smsStoreOpen then some (.error .storeNotopen)
  else if number.length > GSMD_ADDR_MAXLEN + 1 then some (.error .invalidNumber)
  else do
    let addr ← strcpy (Buffer.alloc (LGSM_SMS_ADDR_MAXLEN + 1)) number
    let msgLength := (utf8 message).length
    -- `g_malloc0`
    let (smschars, i, gsm7bit) ← storeSmschars (Buffer.padded 162 (some 0) []) 0 (utf16 message)
    let data := Buffer.alloc (LGSM_SMS_DATA_MAXLEN + 1)
    if (i > 160 ∧ gsm7bit) ∨ (msgLength > 140 ∧ !gsm7bit) then some (.error .msgToolong)
    else if gsm7bit then
      let loop := packLoop (stringIn smschars) 0 0 0
      let data ← data.writeAll 0 loop.2
      return .ok {
        addr := addr, alpha := ALPHABET_DEFAULT, data := data, length := loop.1, askDs := report }
    else
      let data ← strcpy data (utf8 message)
      return .ok {
        addr := addr, alpha := ALPHABET_8BIT, data := data, length := msgLength, askDs := report }

section Dial

variable {κ τ : Type} [Zero κ] (lookup : List Byte → Option (Option (List Byte))) (today : τ)

def mokoDialerDial (s : MokoDialer κ τ) (handle : Bool) (number : List Byte) :
    Option (MokoDialer κ τ × List DialerObs) :=
  let result := Phonekit.mokoDialerDial lookup today s handle number
  if dials s handle number then
    (strcpy (Buffer.alloc (LGSM_ADDR_MAXLEN + 1)) number).map fun _ => result
  else some result

end Dial

def normalizeLoop (buf : Buffer Byte) (j : ℕ) : List Byte → Option (Buffer Byte × ℕ)
  | [] => some (buf, j)
  | c :: string =>
    -- `' '` and `'-'`
    if c ≠ 32 ∧ c ≠ 45 then do
      let buf ← buf.write j c
      normalizeLoop buf (j + 1) string
    else normalizeLoop buf j string

def normalize (string : List Byte) : Option (List Byte) := do
  let (buf, j) ← normalizeLoop (Buffer.alloc string.length) 0 string
  let buf ← buf.write j NUL
  return stringIn buf

theorem strcpy_isSome_iff (buf : Buffer Byte) (s : List Byte) :
    (strcpy buf s).isSome = true ↔ s.length < buf.length := by
  rw [strcpy, Buffer.writeAll_isSome_iff (List.append_ne_nil_of_right_ne_nil _ (by simp)),
    List.length_append, List.length_singleton, Nat.zero_add, Nat.succ_le_iff]

theorem stringIn_padded {size : ℕ} {s : List Byte} (hs : NUL ∉ s) :
    stringIn (Buffer.padded size (some NUL) s) = s := by
  have hall : ∀ b ∈ s, decide (b ≠ NUL) = true := fun b hb => decide_eq_true fun h => hs (h ▸ hb)
  have hbytes : (Buffer.padded size (some NUL) s).filterMap id =
      s ++ List.replicate (size - s.length) NUL := by
    simp [Buffer.padded, List.filterMap_map]
  rw [stringIn, hbytes, cstr, List.takeWhile_append_of_pos hall]
  simp

theorem smscharsOf_small {d : UInt16} {chars : List Byte} (h : smscharsOf d = some chars) :
    chars.length ≤ 2 ∧ NUL ∉ chars := by
  have hcases : ∀ row ∈ smscharsCases, row.2.length ≤ 2 ∧ NUL ∉ row.2 := by decide
  unfold smscharsOf at h
  split at h
  · rename_i found hfound
    cases h
    obtain ⟨before, after, heq, -⟩ := List.lookup_eq_some_iff.mp hfound
    exact hcases (d, chars) (heq ▸ List.mem_append_right _ List.mem_cons_self)
  · split_ifs at h with hrange
    cases h
    refine ⟨by simp, ?_⟩
    rw [List.mem_singleton]
    intro hnul
    have hnat : d.toNat % 256 = 0 := by
      rw [← UInt16.toNat_toUInt8, ← hnul]
      rfl
    simp only [ge_iff_le, UInt16.le_iff_toNat_le, UInt16.lt_iff_toNat_lt, ← UInt16.toNat_inj]
      at hrange
    simp at hrange
    omega

variable {before number : List Byte} {env : SmsEnv}

theorem storeSmschars_eq (units : List UInt16) (h : before.length ≤ 160) :
    storeSmschars (Buffer.padded 162 (some NUL) before) before.length units =
      some (Buffer.padded 162 (some NUL) (smscharsLoop before units).1,
        (smscharsLoop before units).1.length, (smscharsLoop before units).2) := by
  induction units generalizing before with
  | nil => rfl
  | cons d units ih =>
    rw [storeSmschars, smscharsLoop]
    cases hd : smscharsOf d with
    | none => rfl
    | some chars =>
      have hsmall := (smscharsOf_small hd).1
      dsimp only
      rw [Buffer.writeAll_padded (by omega), ← List.length_append]
      change (if _ then _ else _) = _
      split_ifs with hlong
      · rfl
      · exact ih (Nat.le_of_not_lt hlong)

theorem nul_notMem_smscharsLoop (units : List UInt16) (h : NUL ∉ before) :
    NUL ∉ (smscharsLoop before units).1 := by
  induction units generalizing before with
  | nil => exact h
  | cons d units ih =>
    rw [smscharsLoop]
    cases hd : smscharsOf d with
    | none => exact h
    | some chars =>
      have happend : NUL ∉ before ++ chars :=
        fun hmem => (List.mem_append.mp hmem).elim h (smscharsOf_small hd).2
      dsimp only
      split_ifs with hlong
      · exact happend
      · exact ih happend

def sentSms (addr : Buffer Byte) (report : Bool) : SmsText → Except SmsError SentSms
  | .tooLong => .error .msgToolong
  | .gsm7bit smschars =>
    .ok {
      addr := addr
      alpha := ALPHABET_DEFAULT
      data := Buffer.padded (LGSM_SMS_DATA_MAXLEN + 1) none (packLoop smschars 0 0 0).2
      length := (packLoop smschars 0 0 0).1
      askDs := report }
  | .utf8 bytes =>
    .ok {
      addr := addr
      alpha := ALPHABET_8BIT
      data := Buffer.padded (LGSM_SMS_DATA_MAXLEN + 1) none (bytes ++ [NUL])
      length := bytes.length
      askDs := report }

/-- No guard but that of the number ends the function before the number is stored. -/
def SmsEnv.Ready (env : SmsEnv) : Prop :=
  env.handle = true ∧ (env.status = .registeredHome ∨ env.status = .registeredRoaming) ∧
    env.smsStoreOpen = true

theorem mokoSmsSend_of_not_ready (h : ¬env.Ready) (number : List Byte)
    (message : List Char) (report : Bool) :
    ∃ error, mokoSmsSend env number message report = some (.error error) := by
  unfold mokoSmsSend
  by_cases hhandle : env.handle = true
  · by_cases hstatus : env.status ≠ .registeredHome ∧ env.status ≠ .registeredRoaming
    · exact ⟨.notConnected, by rw [hhandle, if_neg (by decide), if_pos hstatus]⟩
    · have hstore : env.smsStoreOpen = false := by
        unfold SmsEnv.Ready at h
        simp only [hhandle, true_and] at h
        rw [Bool.eq_false_iff]
        tauto
      exact ⟨.storeNotopen, by
        rw [hhandle, if_neg (by decide), if_neg hstatus, hstore, if_pos (by decide)]⟩
  · exact ⟨.gsmd, by rw [Bool.eq_false_iff.mpr hhandle, if_pos (by decide)]⟩

theorem mokoSmsSend_of_refused (hready : env.Ready)
    (h : GSMD_ADDR_MAXLEN + 1 < number.length) (message : List Char) (report : Bool) :
    mokoSmsSend env number message report = some (.error .invalidNumber) := by
  obtain ⟨hhandle, hstatus, hstore⟩ := hready
  have hregistered :
      ¬(env.status ≠ .registeredHome ∧ env.status ≠ .registeredRoaming) := by tauto
  unfold mokoSmsSend
  rw [hhandle, hstore, if_neg (by decide), if_neg hregistered, if_neg (by decide), if_pos h]

theorem mokoSmsSend_eq (hready : env.Ready)
    (hnumber : number.length ≤ GSMD_ADDR_MAXLEN + 1) (message : List Char) (report : Bool) :
    mokoSmsSend env number message report =
      (strcpy (Buffer.alloc (LGSM_SMS_ADDR_MAXLEN + 1)) number).map
        (sentSms · report (mokoSmsText message)) := by
  obtain ⟨hhandle, hstatus, hstore⟩ := hready
  have hregistered :
      ¬(env.status ≠ .registeredHome ∧ env.status ≠ .registeredRoaming) := by tauto
  unfold mokoSmsSend
  rw [hhandle, hstore, if_neg (by decide), if_neg hregistered, if_neg (by decide),
    if_neg (Nat.not_lt.mpr hnumber)]
  cases strcpy (Buffer.alloc (LGSM_SMS_ADDR_MAXLEN + 1)) number with
  | none => rfl
  | some addr =>
    have hloop : storeSmschars (Buffer.padded 162 (some 0) []) 0 (utf16 message) = _ :=
      storeSmschars_eq (utf16 message) (Nat.zero_le _)
    have hnul : NUL ∉ (smscharsLoop [] (utf16 message)).1 :=
      nul_notMem_smscharsLoop (utf16 message) List.not_mem_nil
    unfold mokoSmsText
    generalize smscharsLoop [] (utf16 message) = loop at hloop hnul ⊢
    obtain ⟨smschars, gsm7bit⟩ := loop
    simp only [Option.bind_eq_bind, Option.bind_some, Option.map_some, hloop]
    rw [stringIn_padded hnul]
    split_ifs with hlong h7bit
    · rfl
    · have hlength : smschars.length ≤ 160 :=
        Nat.le_of_not_lt fun hlt => hlong (Or.inl ⟨hlt, h7bit⟩)
      have hroom : (packLoop smschars 0 0 0).2.length ≤ LGSM_SMS_DATA_MAXLEN + 1 := by
        rw [packing_loop, List.length_map, List.length_range, octetCount, LGSM_SMS_DATA_MAXLEN]
        omega
      rw [Buffer.writeAll_alloc hroom]
      rfl
    · have hroom : (utf8 message ++ [NUL]).length ≤ LGSM_SMS_DATA_MAXLEN + 1 := by
        rw [List.length_append, List.length_singleton, LGSM_SMS_DATA_MAXLEN]
        by_contra hlt
        exact hlong (Or.inr ⟨by omega, by simpa using h7bit⟩)
      rw [strcpy, Buffer.writeAll_alloc hroom]
      rfl

def encoded : List UInt16 → Option (List Byte)
  | [] => some []
  | d :: message16 => do return (← smscharsOf d) ++ (← encoded message16)

def MessageTooLong (message : List Char) : Prop :=
  match encoded (utf16 message) with
  | some chars => 160 < chars.length
  | none => 140 < (utf8 message).length

theorem smscharsLoop_of_encoded {units : List UInt16} {chars : List Byte}
    (h : encoded units = some chars) (before : List Byte) :
    (smscharsLoop before units).2 = true ∧
      (160 < (before ++ chars).length → 160 < (smscharsLoop before units).1.length) := by
  induction units generalizing chars before with
  | nil =>
    cases h
    exact ⟨rfl, fun hlong => by rwa [List.append_nil] at hlong⟩
  | cons d units ih =>
    obtain ⟨first, hfirst, h⟩ := Option.bind_eq_some_iff.mp h
    obtain ⟨rest, hrest, h⟩ := Option.bind_eq_some_iff.mp h
    cases h
    simp only [smscharsLoop, hfirst]
    split_ifs with hlong
    · exact ⟨rfl, fun _ => hlong⟩
    · rw [← List.append_assoc]
      exact ih hrest (before ++ first)

theorem smscharsLoop_of_not_encoded {units : List UInt16} (h : encoded units = none)
    (h7bit : (smscharsLoop before units).2 = true) :
    160 < (smscharsLoop before units).1.length := by
  induction units generalizing before with
  | nil => cases h
  | cons d units ih =>
    simp only [smscharsLoop] at h7bit ⊢
    cases hfirst : smscharsOf d with
    | none =>
      rw [hfirst] at h7bit
      cases h7bit
    | some first =>
      rw [hfirst] at h7bit
      dsimp only at h7bit ⊢
      split_ifs at h7bit ⊢ with hlong
      · exact hlong
      · refine ih ?_ h7bit
        cases hrest : encoded units with
        | none => rfl
        | some rest =>
          rw [encoded, hfirst, hrest] at h
          cases h

theorem mokoSmsText_of_tooLong {message : List Char} (h : MessageTooLong message) :
    mokoSmsText message = .tooLong := by
  have hlong : ((smscharsLoop [] (utf16 message)).1.length > 160 ∧
        (smscharsLoop [] (utf16 message)).2 = true) ∨
      ((utf8 message).length > 140 ∧ (!(smscharsLoop [] (utf16 message)).2) = true) := by
    unfold MessageTooLong at h
    cases hencoded : encoded (utf16 message) with
    | some chars =>
      rw [hencoded] at h
      obtain ⟨h7bit, hloop⟩ := smscharsLoop_of_encoded hencoded []
      exact Or.inl ⟨hloop h, h7bit⟩
    | none =>
      rw [hencoded] at h
      by_cases h7bit : (smscharsLoop [] (utf16 message)).2 = true
      · exact Or.inl ⟨smscharsLoop_of_not_encoded hencoded h7bit, h7bit⟩
      · exact Or.inr ⟨h, by simpa using h7bit⟩
  unfold mokoSmsText
  exact if_pos hlong

theorem normalizeLoop_eq (string before : List Byte) {size : ℕ}
    (h : before.length + string.length ≤ size) :
    normalizeLoop (Buffer.padded size none before) before.length string =
      some (Buffer.padded size none (before ++ string.filter fun c => c ≠ 32 ∧ c ≠ 45),
        (before ++ string.filter fun c => c ≠ 32 ∧ c ≠ 45).length) := by
  induction string generalizing before with
  | nil => rw [List.filter_nil, List.append_nil, normalizeLoop]
  | cons c string ih =>
    rw [List.length_cons] at h
    rw [normalizeLoop, List.filter_cons]
    by_cases hkeep : c ≠ 32 ∧ c ≠ 45
    · have hrest := ih (before ++ [c])
        (by rw [List.length_append, List.length_singleton]; omega)
      rw [if_pos hkeep, if_pos (decide_eq_true hkeep), Buffer.write_padded (by omega)]
      rw [List.length_append, List.length_singleton, List.append_assoc, List.singleton_append]
        at hrest
      exact hrest
    · rw [if_neg hkeep, if_neg (by simpa using hkeep)]
      exact ih before (by omega)

theorem normalize_isSome_iff {string : List Byte} :
    (normalize string).isSome = true ↔ 32 ∈ string ∨ 45 ∈ string := by
  have hloop : normalizeLoop (Buffer.alloc string.length) 0 string = _ :=
    normalizeLoop_eq string [] (Nat.zero_add _).le
  have hlength : (string.filter fun c => c ≠ 32 ∧ c ≠ 45).length ≤ string.length :=
    List.length_filter_le ..
  have hdup : ∀ buf : Option (Buffer Byte),
      (buf.bind fun buf => some (stringIn buf)).isSome = buf.isSome := by
    intro buf
    cases buf <;> rfl
  unfold normalize
  simp only [Option.bind_eq_bind, hloop, List.nil_append, Option.bind_some, Option.pure_def]
  rw [hdup, Buffer.write_isSome_iff, Buffer.length_padded hlength,
    List.length_filter_lt_length_iff_exists]
  constructor
  · rintro ⟨c, hmem, hkeep⟩
    by_cases hspace : c = 32
    · exact Or.inl (hspace ▸ hmem)
    · have hdash : c = 45 := by simpa [hspace] using hkeep
      exact Or.inr (hdash ▸ hmem)
  · rintro (hspace | hdash)
    · exact ⟨32, hspace, by decide⟩
    · exact ⟨45, hdash, by decide⟩

/-- A request over D-Bus, or a phone string of the address book. -/
inductive Request (κ τ : Type) where
  | smsSend (env : SmsEnv) (number : List Byte) (message : List Char) (report : Bool)
  | dial (s : MokoDialer κ τ) (handle : Bool) (number : List Byte)
  | phone (string : List Byte)

section Request

variable {κ τ : Type} [Zero κ] (lookup : List Byte → Option (Option (List Byte))) (today : τ)

/-- Every store is inside its buffer, and what is too long is refused. -/
def Request.StoresInside : Request κ τ → Prop
  | .smsSend env number message report =>
    ∃ result, mokoSmsSend env number message report = some result ∧
      (LGSM_SMS_ADDR_MAXLEN < number.length ∨ MessageTooLong message →
        ∃ error, result = .error error)
  | .dial s handle number =>
    ∃ result, mokoDialerDial lookup today s handle number = some result ∧
      (LGSM_ADDR_MAXLEN < number.length → .dialResult false ∈ result.2)
  | .phone string => (normalize string).isSome = true

/-- A number is as long as its field, if it comes to storing it. -/
def Request.Fits : Request κ τ → Prop
  | .smsSend env number _ _ =>
    env.Ready → number.length ≤ LGSM_SMS_ADDR_MAXLEN ∨ GSMD_ADDR_MAXLEN + 1 < number.length
  | .dial s handle number => dials s handle number = true → number.length ≤ LGSM_ADDR_MAXLEN
  | .phone string => 32 ∈ string ∨ 45 ∈ string

theorem smsSend_storesInside_iff (env : SmsEnv) (number : List Byte) (message : List Char)
    (report : Bool) :
    (Request.smsSend env number message report : Request κ τ).StoresInside lookup today ↔
      (Request.smsSend env number message report : Request κ τ).Fits := by
  simp only [Request.StoresInside, Request.Fits]
  by_cases hready : env.Ready
  · by_cases hlong : GSMD_ADDR_MAXLEN + 1 < number.length
    · rw [mokoSmsSend_of_refused hready hlong]
      exact ⟨fun _ _ => Or.inr hlong, fun _ => ⟨_, rfl, fun _ => ⟨_, rfl⟩⟩⟩
    · have hstrcpy := strcpy_isSome_iff (Buffer.alloc (LGSM_SMS_ADDR_MAXLEN + 1)) number
      rw [Buffer.length_alloc, Nat.lt_succ_iff] at hstrcpy
      rw [mokoSmsSend_eq hready (Nat.le_of_not_lt hlong)]
      constructor
      · rintro ⟨result, hresult, -⟩ -
        obtain ⟨addr, haddr, -⟩ := Option.map_eq_some_iff.mp hresult
        exact Or.inl (hstrcpy.mp (Option.isSome_iff_exists.mpr ⟨addr, haddr⟩))
      · intro hfits
        have hfit := (hfits hready).resolve_right hlong
        obtain ⟨addr, haddr⟩ := Option.isSome_iff_exists.mp (hstrcpy.mpr hfit)
        rw [haddr]
        refine ⟨_, rfl, ?_⟩
        rintro (hnumber | hmessage)
        · exact absurd hfit (Nat.not_le.mpr hnumber)
        · exact ⟨_, congrArg (sentSms addr report) (mokoSmsText_of_tooLong hmessage)⟩
  · obtain ⟨error, herror⟩ := mokoSmsSend_of_not_ready hready number message report
    exact ⟨fun _ h => absurd h hready, fun _ => ⟨_, herror, fun _ => ⟨_, rfl⟩⟩⟩

theorem dialResult_of_not_dials {s : MokoDialer κ τ} {handle : Bool}
    (h : dials s handle number = false) (hcode : number ≠ IMEI_CODE) :
    DialerObs.dialResult false ∈ (Phonekit.mokoDialerDial lookup today s handle number).2 := by
  unfold Phonekit.mokoDialerDial
  by_cases hhandle : handle = true
  · by_cases hstatus : s.status = .normal
    · have hmay : mayDial s number = false := by
        simpa [dials, hhandle, hstatus, hcode] using h
      simp [hhandle, hstatus, hcode, hmay]
    · simp [hhandle, hstatus]
  · simp [hhandle]

theorem dial_storesInside_iff (s : MokoDialer κ τ) (handle : Bool) (number : List Byte) :
    (Request.dial s handle number).StoresInside lookup today ↔
      (Request.dial s handle number).Fits := by
  have hstrcpy := strcpy_isSome_iff (Buffer.alloc (LGSM_ADDR_MAXLEN + 1)) number
  rw [Buffer.length_alloc, Nat.lt_succ_iff] at hstrcpy
  simp only [Request.StoresInside, Request.Fits, mokoDialerDial]
  by_cases hdials : dials s handle number = true
  · rw [if_pos hdials]
    constructor
    · rintro ⟨result, hresult, -⟩ -
      obtain ⟨addr, haddr, -⟩ := Option.map_eq_some_iff.mp hresult
      exact hstrcpy.mp (Option.isSome_iff_exists.mpr ⟨addr, haddr⟩)
    · intro hfits
      obtain ⟨addr, haddr⟩ := Option.isSome_iff_exists.mp (hstrcpy.mpr (hfits hdials))
      rw [haddr]
      exact ⟨_, rfl, fun hlong => absurd (hfits hdials) (Nat.not_le.mpr hlong)⟩
  · rw [if_neg hdials]
    refine ⟨fun _ h => absurd h hdials, fun _ => ⟨_, rfl, fun hlong => ?_⟩⟩
    refine dialResult_of_not_dials lookup today (Bool.eq_false_iff.mpr hdials) ?_
    rintro rfl
    exact absurd hlong (by decide)

/-- **Buffers of the phone kit.** The stores are inside if and only if the numbers fit. -/
theorem storesInside_iff (request : Request κ τ) :
    request.StoresInside lookup today ↔ request.Fits := by
  cases request with
  | smsSend env number message report =>
    exact smsSend_storesInside_iff lookup today env number message report
  | dial s handle number => exact dial_storesInside_iff lookup today s handle number
  | phone string => exact normalize_isSome_iff

end Request

def readyEnv : SmsEnv := { handle := true, status := .registeredHome, smsStoreOpen := true }

/-- A dialer at home that nothing has happened to yet. -/
def idleDialer : MokoDialer ℤ ℕ :=
  { mokoDialerInit none with registered := GSMD_NETREG_REG_HOME }

/-- A short message to a number of fourteen digits, a call to one of thirty-two, and a phone string
without separators. -/
theorem stores_outside :
    ¬(Request.smsSend readyEnv (ascii "00493012345678") ['h', 'i'] false :
        Request ℤ ℕ).StoresInside (fun _ => none) 7 ∧
      ¬(Request.dial idleDialer true (List.replicate 32 49)).StoresInside (fun _ => none) 7 ∧
      ¬(Request.phone (ascii "112") : Request ℤ ℕ).StoresInside (fun _ => none) 7 := by
  have hsms : mokoSmsSend readyEnv (ascii "00493012345678") ['h', 'i'] false = none := by
    decide +kernel
  have hcall : mokoDialerDial (fun _ => none) 7 idleDialer true (List.replicate 32 49) = none := by
    decide +kernel
  have hphone : normalize (ascii "112") = none := by decide +kernel
  refine ⟨?_, ?_, ?_⟩
  · rintro ⟨result, hresult, -⟩
    cases hsms.symm.trans hresult
  · rintro ⟨result, hresult, -⟩
    cases hcall.symm.trans hresult
  · intro hinside
    rw [Request.StoresInside, hphone] at hinside
    cases hinside

end Openmoko.Phonekit.Stores
