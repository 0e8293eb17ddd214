import Openmoko.Gsmd.Llparse

/-!
# AT line framing

A modem in V.250 form sends each line between two CR LF pairs, and its SMS prompt as CR LF `> `.
What it sends is a list of items; the parser's calls are these items, in order, however the stream
is cut into reads. The argument goes byte by byte only inside one item: between two items the
parser stands in `ready`, and one lemma says what an item does from there.
-/

namespace Openmoko.Gsmd

structure ModemLine where
  bytes : List Byte
  nonempty : bytes ≠ []
  fits : bytes.length ≤ LLPARSE_BUF_SIZE - 1
  noCr : CR ∉ bytes
  noLf : LF ∉ bytes
  noNul : NUL ∉ bytes
  notPrompt : bytes.head? ≠ some CH_GT
  deriving DecidableEq

inductive ModemItem where
  | line (text : ModemLine)
  | prompt
  deriving DecidableEq

namespace ModemItem

def wire : ModemItem → List Byte
  | .line text => [CR, LF] ++ text.bytes ++ [CR, LF]
  | .prompt => [CR, LF, CH_GT, CH_SPC]

def call : ModemItem → LlpCall
  | .line text => .cb text.bytes
  | .prompt => .promptCb

def isPrompt : ModemItem → Bool
  | .line _ => false
  | .prompt => true

end ModemItem

/-- The parser between two items: an empty buffer, `IDLE` or, after a prompt, `PROMPT_SPC`. -/
def Llparser.ready (flags : Nat) (prompted : Bool) : Llparser :=
  { Llparser.init flags with state := if prompted then .promptSpc else .idle }

def endsInPrompt (prompted : Bool) (items : List ModemItem) : Bool :=
  (items.getLast?.map ModemItem.isPrompt).getD prompted

theorem endsInPrompt_cons (prompted : Bool) (item : ModemItem) (items : List ModemItem) :
    endsInPrompt prompted (item :: items) = endsInPrompt item.isPrompt items := by
  cases items with
  | nil => rfl
  | cons next rest => simp [endsInPrompt, List.getLast?_cons]

theorem Llparser.ready_init (flags : Nat) : Llparser.init flags = Llparser.ready flags false := rfl

inductive LlpMove (llp : Llparser) (byte : Byte) : LlparseState → Prop where
  | blank (hstate : llp.state = .idle ∨ llp.state = .promptSpc) (hext : llp.extended = true)
      (hbyte : byte = CR) : LlpMove llp byte .idleCr
  | blankLf (hstate : llp.state = .idleCr) (hbyte : byte = LF) : LlpMove llp byte .idleLf
  | derailed (hstate : llp.state = .idleCr) (hlf : byte ≠ LF) (hcr : byte ≠ CR) :
      LlpMove llp byte .error
  | ended (hstate : llp.state = .idleLf ∨ llp.state = .result) (hbyte : byte = CR) :
      LlpMove llp byte .resultCr
  | endedLf (hstate : llp.state = .result) (hlfcr : llp.lfcr = true) (hbyte : byte = LF) :
      LlpMove llp byte .resultLf
  | gt (hstate : (llp.state = .idle ∨ llp.state = .promptSpc) ∧ llp.extended = true ∨
      llp.state = .idleLf) (hbyte : byte = CH_GT) : LlpMove llp byte .prompt
  | prompted (hstate : llp.state = .prompt) (hbyte : byte = CH_SPC) : LlpMove llp byte .promptSpc

inductive LlpTurn (llp : Llparser) (byte : Byte) : Llparser × Int → Prop where
  | moved {next : LlparseState} (hmove : LlpMove llp byte next) :
      LlpTurn llp byte ({ llp with state := next }, 0)
  | ignored (hstate : llp.state = .idleCr ∧ byte = CR ∨ llp.state = .resultCr ∧ byte ≠ LF ∨
      llp.state = .resultLf ∧ byte ≠ CR ∨ llp.state = .error) : LlpTurn llp byte (llp, 0)
  | stored (hstate : llp.state = .idle ∨ llp.state = .promptSpc ∨ llp.state = .idleLf ∨
      llp.state = .result) : LlpTurn llp byte (llparseAppend { llp with state := .result } byte)
  | behindGt (hstate : llp.state = .prompt) (hspc : byte ≠ CH_SPC) :
      LlpTurn llp byte
        ({ (llparseAppend (llparseAppend llp CH_GT).1 byte).1 with state := .result },
          (llparseAppend (llparseAppend llp CH_GT).1 byte).2)
  | endline (hstate : llp.state = .resultCr ∧ byte = LF ∨ llp.state = .resultLf ∧ byte = CR) :
      LlpTurn llp byte (llparseEndline llp, 0)

variable (llp : Llparser)

theorem llparseByte_turn (byte : Byte) : LlpTurn llp byte
    (llparseByte llp byte) := by
  unfold llparseByte
  cases hstate : llp.state with
  | idle =>
    dsimp only
    split_ifs with hext hcr hgt
    · exact .moved (.blank (.inl hstate) hext hcr)
    · exact .moved (.gt (.inl ⟨.inl hstate, hext⟩) hgt)
    · exact .stored (.inl hstate)
    · exact .stored (.inl hstate)
  | promptSpc =>
    dsimp only
    split_ifs with hext hcr hgt
    · exact .moved (.blank (.inr hstate) hext hcr)
    · exact .moved (.gt (.inl ⟨.inr hstate, hext⟩) hgt)
    · exact .stored (.inr (.inl hstate))
    · exact .stored (.inr (.inl hstate))
  | idleCr =>
    dsimp only
    split_ifs with hlf hcr
    · exact .moved (.blankLf hstate hlf)
    · exact .moved (.derailed hstate hlf hcr)
    · exact .ignored (.inl ⟨hstate, not_not.mp hcr⟩)
  | idleLf =>
    dsimp only
    split_ifs with hcr hgt
    · exact .moved (.ended (.inl hstate) hcr)
    · exact .moved (.gt (.inr hstate) hgt)
    · exact .stored (.inr (.inr (.inl hstate)))
  | result =>
    have hsame : { llp with state := .result } = llp := by rw [← hstate]
    dsimp only
    split_ifs with hcr hlf
    · exact .moved (.ended (.inr hstate) hcr)
    · rw [Bool.and_eq_true, beq_iff_eq] at hlf
      exact .moved (.endedLf hstate hlf.1 hlf.2)
    · have hstored : LlpTurn llp byte (llparseAppend { llp with state := .result } byte) :=
        .stored (.inr (.inr (.inr hstate)))
      rwa [hsame] at hstored
  | resultCr =>
    dsimp only
    split_ifs with hlf
    · exact .endline (.inl ⟨hstate, hlf⟩)
    · exact .ignored (.inr (.inl ⟨hstate, hlf⟩))
  | resultLf =>
    dsimp only
    split_ifs with hcr
    · exact .endline (.inr ⟨hstate, hcr⟩)
    · exact .ignored (.inr (.inr (.inl ⟨hstate, hcr⟩)))
  | prompt =>
    dsimp only
    split_ifs with hspc
    · exact .moved (.prompted hstate hspc)
    · exact .behindGt hstate hspc
  | error => exact .ignored (.inr (.inr (.inr hstate)))

theorem llparseAppend_ret (byte : Byte) :
    (llparseAppend llp byte).2 = 0 ∨ (llparseAppend llp byte).2 = -EFBIG := by
  unfold llparseAppend
  split
  · exact .inl rfl
  · exact .inr rfl

theorem llparseAppend_of_room {llp : Llparser} (hroom : llp.buf.length < llp.len) (byte : Byte) :
    llparseAppend llp byte = ({ llp with buf := llp.buf ++ [byte] }, 0) := by
  rw [llparseAppend, if_pos hroom]

theorem llparseString_cons {llp llp' : Llparser} {byte : Byte}
    (hbyte : llparseByte llp byte = (llp', 0)) (buf : List Byte) :
    llparseString llp (byte :: buf) =
      ((llparseString llp' buf).1, (llparseString llp' buf).2.1,
        llparseCalls llp' ++ (llparseString llp' buf).2.2) := by
  simp [llparseString, hbyte]

theorem llparseString_append (a b : List Byte) :
    llparseString llp (a ++ b) =
      let r := llparseString llp a
      if r.2.1 < 0 then r
      else
        let r' := llparseString r.1 b
        (r'.1, r'.2.1, r.2.2 ++ r'.2.2) := by
  induction a generalizing llp with
  | nil => simp [llparseString]
  | cons byte a ih =>
    simp only [List.cons_append, llparseString]
    by_cases hrc : (llparseByte llp byte).2 < 0
    · simp [hrc]
    · simp only [hrc, if_false, ih]
      split
      · rfl
      · simp [List.append_assoc]

theorem llparseString_append_ok {llp llp' : Llparser} {a : List Byte} {calls : List LlpCall}
    (hfirst : llparseString llp a = (llp', 0, calls)) (b : List Byte) :
    llparseString llp (a ++ b) =
      ((llparseString llp' b).1, (llparseString llp' b).2.1,
        calls ++ (llparseString llp' b).2.2) := by
  simp [llparseString_append, hfirst]

theorem llparseByte_ret_nonpos (byte : Byte) : (llparseByte llp byte).2 ≤ 0 := by
  have happend : ∀ (llp : Llparser) (byte : Byte), (llparseAppend llp byte).2 ≤ 0 := by
    intro llp byte
    rcases llparseAppend_ret llp byte with h | h <;> simp [h, EFBIG]
  have hturn := llparseByte_turn llp byte
  generalize llparseByte llp byte = turn at hturn ⊢
  cases hturn with
  | moved hmove => exact Int.le_refl 0
  | ignored hstate => exact Int.le_refl 0
  | stored hstate => exact happend _ _
  | behindGt hstate hspc => exact happend _ _
  | endline hstate => exact Int.le_refl 0

theorem llparseString_ret_nonpos (buf : List Byte) :
    (llparseString llp buf).2.1 ≤ 0 := by
  induction buf generalizing llp with
  | nil => simp [llparseString]
  | cons byte buf ih =>
    simp only [llparseString]
    split
    · exact llparseByte_ret_nonpos llp byte
    · exact ih _

theorem llparseReads_of_string {llp llp' : Llparser} {chunks : List (List Byte)}
    {calls : List LlpCall} (hwhole : llparseString llp chunks.flatten = (llp', 0, calls)) :
    llparseReads llp chunks = (llp', List.replicate chunks.length 0, calls) := by
  induction chunks generalizing llp calls with
  | nil =>
    simp only [List.flatten_nil, llparseString, Prod.mk.injEq] at hwhole
    obtain ⟨rfl, -, rfl⟩ := hwhole
    rfl
  | cons chunk chunks ih =>
    rw [List.flatten_cons, llparseString_append] at hwhole
    have hrc : (llparseString llp chunk).2.1 = 0 := by
      have hnonpos := llparseString_ret_nonpos llp chunk
      by_contra hne
      have hneg : (llparseString llp chunk).2.1 < 0 := by omega
      simp only [hneg, if_true] at hwhole
      exact hne (by rw [hwhole])
    simp only [hrc, Int.lt_irrefl, if_false, Prod.mk.injEq] at hwhole
    obtain ⟨hstate, hret, hcalls⟩ := hwhole
    have hrest := ih (Prod.ext hstate (Prod.ext hret rfl))
    simp only [llparseReads, hrest, hrc, hcalls, List.length_cons, List.replicate_succ]

theorem llparseString_result (hstate : llp.state = .result) (body : List Byte)
    (hcr : CR ∉ body) (hlf : LF ∉ body) (hfits : llp.buf.length + body.length ≤ llp.len) :
    llparseString llp body = ({ llp with buf := llp.buf ++ body }, 0, []) := by
  induction body generalizing llp with
  | nil => simp [llparseString]
  | cons byte body ih =>
    have hbcr : byte ≠ CR := fun heq => hcr (by simp [heq])
    have hblf : byte ≠ LF := fun heq => hlf (by simp [heq])
    have hroom : llp.buf.length < llp.len := by simp at hfits; omega
    have hbyte : llparseByte llp byte = ({ llp with buf := llp.buf ++ [byte] }, 0) := by
      simp [llparseByte, hstate, hbcr, hblf, llparseAppend_of_room hroom]
    rw [llparseString_cons hbyte, ih]
    · simp [llparseCalls, hstate]
    · exact hstate
    · exact fun hmem => hcr (List.mem_cons_of_mem _ hmem)
    · exact fun hmem => hlf (List.mem_cons_of_mem _ hmem)
    · simp at hfits ⊢; omega

section Item

variable (flags : Nat) (hext : flags &&& LGSM_ATCMD_F_EXTENDED ≠ 0) (prompted : Bool)
include hext

theorem llparseString_open :
    llparseString (.ready flags prompted) [CR, LF] =
      ({ Llparser.init flags with state := .idleLf }, 0, []) := by
  cases prompted <;>
    simp [llparseString, llparseByte, Llparser.ready, Llparser.init, Llparser.extended, hext,
      llparseCalls]

theorem llparseString_line (line : ModemLine) :
    llparseString (.ready flags prompted) (ModemItem.line line).wire =
      (.ready flags false, 0, [.cb line.bytes]) := by
  obtain ⟨bytes, hne, hfits, hcr, hlf, -, hgt⟩ := line
  obtain ⟨first, rest, rfl⟩ := List.exists_cons_of_ne_nil hne
  have hfcr : first ≠ CR := fun heq => hcr (by simp [heq])
  have hfgt : first ≠ CH_GT := fun heq => hgt (by simp [heq])
  have hfirst : llparseByte { Llparser.init flags with state := .idleLf } first =
      ({ Llparser.init flags with state := .result, buf := [first] }, 0) := by
    simp [llparseByte, hfcr, hfgt, llparseAppend, Llparser.init, LLPARSE_BUF_SIZE]
  have hrest := llparseString_result
    { Llparser.init flags with state := .result, buf := [first] } rfl rest
    (fun hmem => hcr (List.mem_cons_of_mem _ hmem)) (fun hmem => hlf (List.mem_cons_of_mem _ hmem))
    (by simp [Llparser.init, LLPARSE_BUF_SIZE] at hfits ⊢; omega)
  have hend : llparseString
      { Llparser.init flags with state := .result, buf := first :: rest } [CR, LF] =
        (.ready flags false, 0, [.cb (first :: rest)]) := by
    simp [llparseString, llparseByte, llparseCalls, llparseEndline, Llparser.init, Llparser.ready]
  calc
    llparseString (.ready flags prompted) ([CR, LF] ++ (first :: rest) ++ [CR, LF])
        = llparseString (.ready flags prompted) ([CR, LF] ++ (first :: (rest ++ [CR, LF]))) := by
          simp
    _ = (.ready flags false, 0, [.cb (first :: rest)]) := by
          rw [llparseString_append_ok (llparseString_open flags hext prompted),
            llparseString_cons hfirst, llparseString_append_ok hrest]
          simp [hend, llparseCalls]

theorem llparseString_prompt :
    llparseString (.ready flags prompted) ModemItem.prompt.wire =
      (.ready flags true, 0, [.promptCb]) := by
  have hsplit : ModemItem.prompt.wire = [CR, LF] ++ [CH_GT, CH_SPC] := rfl
  rw [hsplit, llparseString_append_ok (llparseString_open flags hext prompted)]
  simp [llparseString, llparseByte, llparseCalls, CH_GT, CH_SPC, CR, Llparser.ready, Llparser.init]

theorem llparseString_item (item : ModemItem) :
    llparseString (.ready flags prompted) item.wire =
      (.ready flags item.isPrompt, 0, [item.call]) := by
  cases item with
  | line line => exact llparseString_line flags hext prompted line
  | prompt => exact llparseString_prompt flags hext prompted

theorem llparseString_items (items : List ModemItem) :
    llparseString (.ready flags prompted) (items.flatMap ModemItem.wire) =
      (.ready flags (endsInPrompt prompted items), 0, items.map ModemItem.call) := by
  induction items generalizing prompted with
  | nil => rfl
  | cons item items ih =>
    rw [List.flatMap_cons, llparseString_append_ok (llparseString_item flags hext prompted item),
      ih, endsInPrompt_cons]
    rfl

end Item

/-- **Framing.** Whatever items the modem sends and however the stream is cut into reads, the
parser reports each line once with exactly its bytes, each prompt once, all in order, no read
fails, and the parser ends with an empty buffer in `IDLE`, or in `PROMPT_SPC` after a prompt. -/
theorem llparse_frames_items (flags : Nat) (hext : flags &&& LGSM_ATCMD_F_EXTENDED ≠ 0)
    (items : List ModemItem) (chunks : List (List Byte))
    (hchunks : chunks.flatten = items.flatMap ModemItem.wire) :
    llparseReads (.init flags) chunks =
      ({ Llparser.init flags with
          state := if items.getLast? = some .prompt then .promptSpc else .idle },
        List.replicate chunks.length 0, items.map ModemItem.call) := by
  have hwhole := llparseString_items flags hext false items
  rw [← Llparser.ready_init, ← hchunks] at hwhole
  rw [llparseReads_of_string hwhole]
  have hlast : endsInPrompt false items = decide (items.getLast? = some .prompt) := by
    unfold endsInPrompt
    rcases items.getLast? with _ | ⟨line⟩ | _ <;> simp [ModemItem.isPrompt]
  simp [Llparser.ready, hlast]

/-- An `OK` and a prompt, cut in the middle of the first CR LF and inside the line. -/
theorem llparse_frames_ok_then_prompt :
    llparseReads (.init LGSM_ATCMD_F_EXTENDED) [[CR], [LF, 79], [75, CR, LF, CR, LF, CH_GT],
        [CH_SPC]] =
      ({ Llparser.init LGSM_ATCMD_F_EXTENDED with state := .promptSpc },
        [0, 0, 0, 0], [.cb (ascii "OK"), .promptCb]) :=
  llparse_frames_items LGSM_ATCMD_F_EXTENDED (by decide)
    [.line ⟨ascii "OK", by decide, by decide, by decide, by decide, by decide, by decide⟩, .prompt]
    [[CR], [LF, 79], [75, CR, LF, CR, LF, CH_GT], [CH_SPC]] (by decide)

end Openmoko.Gsmd
