import Openmoko.Gsmd.Proof.LineNoise

/-!
# Lines in LFCR mode

With `LGSM_ATCMD_F_LFCR` a line may end in LF CR. That ending goes from `RESULT_LF` straight to
`llparse_endline`, and `llparse_string` calls back in `RESULT_CR` only: such a line is dropped.

That nothing else makes up for a dropped line is a count. Between two lines the parser is settled,
which says that no good line waits in `RESULT_CR`, and from there a line brings at most one good
delivery, and none at all if it ends in LF CR. A list that comes out exactly has as many good
deliveries as lines.
-/

namespace Openmoko.Gsmd

inductive LineEnding where
  | crlf
  | lfcr
  deriving DecidableEq, Repr

def LineEnding.bytes : LineEnding → List Byte
  | .crlf => [CR, LF]
  | .lfcr => [LF, CR]

structure SentLine where
  text : List Byte
  ending : LineEnding
  nonempty : text ≠ []
  noCr : CR ∉ text
  noLf : LF ∉ text

def SentLine.wire (line : SentLine) : List Byte := line.text ++ line.ending.bytes

def SentLine.isCrlf (line : SentLine) : Bool := line.ending == .crlf

def delivered (calls : List LlpCall) : List (List Byte) :=
  calls.filterMap fun
    | .cb buf => some buf
    | .promptCb => none

@[simp]
theorem delivered_nil : delivered [] = [] := rfl

@[simp]
theorem delivered_append (calls calls' : List LlpCall) :
    delivered (calls ++ calls') = delivered calls ++ delivered calls' :=
  List.filterMap_append

theorem delivered_calls (llp : Llparser) :
    delivered (llparseCalls llp) = if llp.state = .resultCr then [llp.buf] else [] := by
  unfold llparseCalls delivered
  split
  next hstate => simp [hstate]
  next => split <;> simp

variable {llp : Llparser} {text : List Byte} {line : SentLine} {lines : List SentLine}

variable {byte : Byte}

theorem mem_delivered_cons {bytes : List Byte}
    (hmem : text ∈ delivered (llparseString llp (byte :: bytes)).2.2) :
    ((llparseByte llp byte).1.state = .resultCr ∧ text = (llparseByte llp byte).1.buf) ∨
      text ∈ delivered (llparseString (llparseByte llp byte).1 bytes).2.2 := by
  simp only [llparseString] at hmem
  split at hmem
  · simp at hmem
  · simp only [delivered_append, delivered_calls, List.mem_append] at hmem
    refine hmem.imp (fun hfirst => ?_) id
    split at hfirst
    next hstate => exact ⟨hstate, List.mem_singleton.mp hfirst⟩
    next => simp at hfirst

def Llparser.held (llp : Llparser) : Nat :=
  llp.buf.length + if llp.state = .prompt then 1 else 0

theorem llparseAppend_length (llp : Llparser) (byte : Byte) :
    (llparseAppend llp byte).1.buf.length ≤ llp.buf.length + 1 := by
  unfold llparseAppend
  split <;> simp

theorem llparseByte_held (llp : Llparser) (byte : Byte) :
    (llparseByte llp byte).1.held ≤ llp.held + 1 := by
  have hturn := llparseByte_turn llp byte
  generalize llparseByte llp byte = turn at hturn ⊢
  cases hturn with
  | moved hmove =>
    unfold Llparser.held
    dsimp only
    split_ifs <;> omega
  | ignored hstate => exact Nat.le_succ _
  | stored hstate =>
    have happend : _ ≤ llp.buf.length + 1 :=
      llparseAppend_length { llp with state := .result } byte
    simp only [Llparser.held, llparseAppend_state, reduceCtorEq, if_false]
    omega
  | behindGt hstate hspc =>
    have hfirst := llparseAppend_length llp CH_GT
    have hsecond := llparseAppend_length (llparseAppend llp CH_GT).1 byte
    simp only [Llparser.held, hstate, reduceCtorEq, if_false, if_true]
    omega
  | endline hstate => simp [Llparser.held, llparseEndline]

theorem delivered_length_lt (llp : Llparser) (bytes : List Byte)
    (hmem : text ∈ delivered (llparseString llp bytes).2.2) :
    text.length < llp.held + bytes.length := by
  induction bytes generalizing llp with
  | nil => simp [llparseString] at hmem
  | cons byte bytes ih =>
    have hheld := llparseByte_held llp byte
    rcases mem_delivered_cons hmem with ⟨hnext, rfl⟩ | hrest
    · rw [llparseByte_delivers hnext]
      simp only [Llparser.held, List.length_cons]
      omega
    · have hlt := ih _ hrest
      simp only [List.length_cons]
      omega

theorem delivered_length_le (hfits : llp.buf.length ≤ llp.len) (bytes : List Byte)
    (hmem : text ∈ delivered (llparseString llp bytes).2.2) : text.length ≤ llp.len := by
  induction bytes generalizing llp with
  | nil => simp [llparseString] at hmem
  | cons byte bytes ih =>
    have hnext := llparseByte_length_le hfits byte
    rcases mem_delivered_cons hmem with ⟨-, rfl⟩ | hrest
    · exact hnext
    · have hlen := (llparseByte_frame llp byte).1
      exact (ih (hlen ▸ hnext) hrest).trans hlen.le

def GoodText (text : List Byte) : Prop := text ≠ [] ∧ CR ∉ text ∧ LF ∉ text

def Llparser.Settled (llp : Llparser) : Prop := llp.state = .resultCr → ¬GoodText llp.buf

theorem Llparser.Settled.of_text (hsettled : llp.Settled)
    (hcr : byte ≠ CR) : (llparseByte llp byte).1.Settled := by
  intro hnext
  rw [llparseByte_delivers hnext]
  rcases llparseByte_resultCr hnext with ⟨hstate, -⟩ | ⟨-, hbyte⟩
  · exact hsettled hstate
  · exact absurd hbyte hcr

theorem llparseByte_lf_state (llp : Llparser) : (llparseByte llp LF).1.state ≠ .resultCr := by
  intro hnext
  rcases llparseByte_resultCr hnext with ⟨-, hne⟩ | ⟨-, heq⟩
  · exact hne rfl
  · exact absurd heq (by decide)

theorem llparseByte_lf_stored (hrc : (llparseByte llp LF).2 = 0)
    (hnext : (llparseByte llp LF).1.state = .result) : LF ∈ (llparseByte llp LF).1.buf := by
  have hstored : ∀ llp : Llparser, (llparseAppend llp LF).2 = 0 →
      LF ∈ (llparseAppend llp LF).1.buf := by
    intro llp hrc
    unfold llparseAppend at hrc ⊢
    split at hrc
    next hroom => simp [hroom]
    next => simp [EFBIG] at hrc
  have hturn := llparseByte_turn llp LF
  generalize llparseByte llp LF = turn at hturn hrc hnext ⊢
  cases hturn with
  | moved hmove =>
    obtain rfl : _ = LlparseState.result := hnext
    cases hmove
  | ignored hstate =>
    dsimp only at hnext
    simp [hnext] at hstate
  | stored hstate => exact hstored _ hrc
  | behindGt hstate hspc => exact hstored _ hrc
  | endline hstate => cases hnext

theorem Llparser.Settled.of_lfcr (hsound : llp.Sound)
    (hrc : (llparseByte llp LF).2 = 0) : (llparseByte (llparseByte llp LF).1 CR).1.Settled := by
  intro hnext hgood
  rw [llparseByte_delivers hnext] at hgood
  rcases llparseByte_resultCr hnext with ⟨hstate, -⟩ | ⟨hstate | hstate, -⟩
  · exact llparseByte_lf_state llp hstate
  · exact hgood.1 ((hsound.step LF).idle (by simp [hstate]))
  · exact hgood.2.2 (llparseByte_lf_stored hrc hstate)

def AtMost (n : Nat) (texts : List (List Byte)) : Prop :=
  (∀ text ∈ texts, GoodText text) → texts.length ≤ n

theorem AtMost.append {m n : Nat} {a b : List (List Byte)} (ha : AtMost m a) (hb : AtMost n b) :
    AtMost (m + n) (a ++ b) := by
  intro hgood
  have hla := ha fun text hmem => hgood text (List.mem_append_left _ hmem)
  have hlb := hb fun text hmem => hgood text (List.mem_append_right _ hmem)
  rw [List.length_append]
  omega

theorem AtMost.mono {m n : Nat} (hle : m ≤ n) {texts : List (List Byte)} (h : AtMost m texts) :
    AtMost n texts := fun hgood => (h hgood).trans hle

theorem Llparser.Settled.calls (hsettled : llp.Settled) :
    AtMost 0 (delivered (llparseCalls llp)) := by
  intro hgood
  rw [delivered_calls] at hgood ⊢
  split
  next hstate => exact absurd (hgood llp.buf (by simp [hstate])) (hsettled hstate)
  next => simp

structure Brings (llp : Llparser) (bytes : List Byte) (n : Nat) : Prop where
  count : AtMost n (delivered (llparseString llp bytes).2.2)
  settled : (llparseString llp bytes).2.1 = 0 → (llparseString llp bytes).1.Settled

theorem Brings.nil (hsettled : llp.Settled) : Brings llp [] 0 :=
  ⟨fun _ => by simp [llparseString], fun _ => hsettled⟩

theorem Brings.cons {bytes : List Byte} {m n : Nat}
    (hfirst : AtMost m (delivered (llparseCalls (llparseByte llp byte).1)))
    (hrest : (llparseByte llp byte).2 = 0 → Brings (llparseByte llp byte).1 bytes n) :
    Brings llp (byte :: bytes) (m + n) := by
  by_cases hrc : (llparseByte llp byte).2 < 0
  · constructor
    · intro _
      simp [llparseString, hrc]
    · intro hzero
      simp only [llparseString, hrc, if_true] at hzero
      omega
  · have hzero : (llparseByte llp byte).2 = 0 := by
      have hnonpos := llparseByte_ret_nonpos llp byte
      omega
    obtain ⟨hcount, hsettled⟩ := hrest hzero
    constructor
    · simp only [llparseString, hrc, if_false, delivered_append]
      exact hfirst.append hcount
    · simpa only [llparseString, hrc, if_false] using hsettled

theorem Brings.append {a b : List Byte} {m n : Nat} (hfirst : Brings llp a m)
    (hrest : (llparseString llp a).2.1 = 0 → Brings (llparseString llp a).1 b n) :
    Brings llp (a ++ b) (m + n) := by
  by_cases hrc : (llparseString llp a).2.1 < 0
  · constructor
    · simp only [llparseString_append, hrc, if_true]
      exact hfirst.count.mono (Nat.le_add_right m n)
    · simp only [llparseString_append, hrc, if_true]
      exact hfirst.settled
  · have hzero : (llparseString llp a).2.1 = 0 := by
      have hnonpos := llparseString_ret_nonpos llp a
      omega
    obtain ⟨hcount, hsettled⟩ := hrest hzero
    constructor
    · simp only [llparseString_append, hrc, if_false, delivered_append]
      exact hfirst.count.append hcount
    · simpa only [llparseString_append, hrc, if_false] using hsettled

theorem brings_text (hsettled : llp.Settled) (hcr : CR ∉ text) : Brings llp text 0 := by
  induction text generalizing llp with
  | nil => exact .nil hsettled
  | cons byte text ih =>
    have hnext := hsettled.of_text fun heq : byte = CR => hcr (by simp [heq])
    exact .cons hnext.calls fun _ => ih hnext fun hmem => hcr (List.mem_cons_of_mem _ hmem)

theorem settled_lf (llp : Llparser) : (llparseByte llp LF).1.Settled :=
  fun hnext => absurd hnext (llparseByte_lf_state llp)

theorem brings_crlf (llp : Llparser) : Brings llp [CR, LF] 1 := by
  have hnext := settled_lf (llparseByte llp CR).1
  have hcr : AtMost 1 (delivered (llparseCalls (llparseByte llp CR).1)) := by
    intro _
    rw [delivered_calls]
    split <;> simp
  have hlf : Brings (llparseByte llp CR).1 [LF] (0 + 0) := .cons hnext.calls fun _ => .nil hnext
  exact .cons hcr fun _ => hlf

theorem brings_lfcr (hsound : llp.Sound) : Brings llp [LF, CR] 0 := by
  have hcr : (llparseByte llp LF).2 = 0 → Brings (llparseByte llp LF).1 [CR] (0 + 0) := by
    intro hrc
    have hnext := Llparser.Settled.of_lfcr hsound hrc
    exact .cons hnext.calls fun _ => .nil hnext
  have hall : Brings llp [LF, CR] (0 + (0 + 0)) := .cons (settled_lf llp).calls hcr
  exact hall

theorem llparseString_sound (hsound : llp.Sound) (bytes : List Byte) :
    (llparseString llp bytes).1.Sound := by
  rw [(llparseString_eq_run llp bytes).1]
  exact hsound.run _

def SentLine.share (line : SentLine) : Nat := if line.isCrlf then 1 else 0

theorem brings_line (hsound : llp.Sound) (hsettled : llp.Settled)
    (line : SentLine) : Brings llp line.wire line.share := by
  rw [← Nat.zero_add line.share]
  refine (brings_text hsettled line.noCr).append fun _ => ?_
  cases hending : line.ending with
  | crlf =>
    simp only [SentLine.share, SentLine.isCrlf, hending]
    exact brings_crlf _
  | lfcr =>
    simp only [SentLine.share, SentLine.isCrlf, hending]
    exact brings_lfcr (llparseString_sound hsound _)

theorem brings_lines (hsound : llp.Sound) (hsettled : llp.Settled) (lines : List SentLine) :
    Brings llp (lines.flatMap SentLine.wire) (lines.countP SentLine.isCrlf) := by
  induction lines generalizing llp with
  | nil => exact .nil hsettled
  | cons line lines ih =>
    have hshare : (line :: lines).countP SentLine.isCrlf =
        line.share + lines.countP SentLine.isCrlf := by
      rw [List.countP_cons, Nat.add_comm, SentLine.share]
    rw [List.flatMap_cons, hshare]
    have hline := brings_line hsound hsettled line
    exact hline.append fun hrc => ih (llparseString_sound hsound _) (hline.settled hrc)

/-- What the parser can deliver: a line that ends in CR LF, fits and is no prompt. -/
def SentLine.readable (extended : Bool) (line : SentLine) : Prop :=
  line.ending = .crlf ∧ line.text.length ≤ LLPARSE_BUF_SIZE ∧
    (extended = true → promptLike line.text = false)

instance (extended : Bool) (line : SentLine) : Decidable (line.readable extended) := by
  unfold SentLine.readable
  infer_instance

theorem SentLine.goodText (line : SentLine) : GoodText line.text :=
  ⟨line.nonempty, line.noCr, line.noLf⟩

structure Llparser.Fresh (llp : Llparser) : Prop where
  state : llp.state = .idle
  buf : llp.buf = []
  len : llp.len = LLPARSE_BUF_SIZE

theorem Llparser.Fresh.sound (hfresh : llp.Fresh) : llp.Sound :=
  ⟨hfresh.len, fun _ => hfresh.buf⟩

theorem Llparser.Fresh.settled (hfresh : llp.Fresh) : llp.Settled := by
  intro hstate
  rw [hfresh.state] at hstate
  cases hstate

theorem llparseString_readable (hfresh : llp.Fresh) (hreadable : line.readable llp.extended) :
    llparseString llp line.wire = (llp, 0, [.cb line.text]) := by
  obtain ⟨hending, hfits, hprompt⟩ := hreadable
  obtain ⟨hstate, hbuf, hlen⟩ := hfresh
  have htext := llparseString_text llp (.inl hstate) hbuf hlen line.nonempty hfits line.noCr
    line.noLf (by simpa [hstate] using hprompt)
  rw [SentLine.wire, hending, LineEnding.bytes, llparseString_append_ok htext,
    llparseString_crlf _ rfl]
  obtain ⟨state, len, flags, buf⟩ := llp
  simp only at hstate hbuf
  simp [hstate, hbuf]

theorem llparseString_readables (hfresh : llp.Fresh)
    (hreadable : ∀ line ∈ lines, line.readable llp.extended) :
    llparseString llp (lines.flatMap SentLine.wire) =
      (llp, 0, lines.map fun line => .cb line.text) := by
  induction lines with
  | nil => rfl
  | cons line lines ih =>
    rw [List.flatMap_cons,
      llparseString_append_ok (llparseString_readable hfresh (hreadable line (by simp))),
      ih fun next hnext => hreadable next (by simp [hnext])]
    rfl

theorem promptLike_cases (hprompt : promptLike text = true) :
    text = [CH_GT] ∨ ∃ rest, text = CH_GT :: CH_SPC :: rest := by
  simp only [promptLike, hasPrefix, Bool.or_eq_true, beq_iff_eq, List.isPrefixOf_iff_prefix]
    at hprompt
  obtain heq | ⟨rest, heq⟩ := hprompt
  · exact Or.inl heq
  · exact Or.inr ⟨rest, heq.symm⟩

theorem prompt_not_delivered (hfresh : llp.Fresh) (hext : llp.extended = true)
    (hending : line.ending = .crlf) (hprompt : promptLike line.text = true) :
    line.text ∉ delivered (llparseString llp line.wire).2.2 := by
  obtain ⟨hstate, hbuf, hlen⟩ := hfresh
  have hgt : llparseByte llp CH_GT = ({ llp with state := .prompt }, 0) := by
    simp [llparseByte, hstate, hext, CH_GT, CR]
  rw [SentLine.wire, hending]
  rcases promptLike_cases hprompt with htext | ⟨rest, htext⟩ <;> rw [htext] <;> intro hmem
  · -- the CR is kept, and LF delivers nothing
    rcases mem_delivered_cons hmem with ⟨hnext, -⟩ | hmem <;> rw [hgt] at *
    · cases hnext
    · have hcr : (llparseByte { llp with state := .prompt } CR).1.state = .result := by
        simp [llparseByte, CR, CH_SPC]
      rcases mem_delivered_cons hmem with ⟨hnext, -⟩ | hmem
      · simp [hcr] at hnext
      · rcases mem_delivered_cons hmem with ⟨hnext, -⟩ | hmem
        · exact llparseByte_lf_state _ hnext
        · simp [llparseString] at hmem
  · have hspc : llparseByte { llp with state := .prompt } CH_SPC =
        ({ llp with state := .promptSpc }, 0) := by
      simp [llparseByte]
    rcases mem_delivered_cons hmem with ⟨hnext, -⟩ | hmem <;> rw [hgt] at *
    · cases hnext
    · rcases mem_delivered_cons hmem with ⟨hnext, -⟩ | hmem <;> rw [hspc] at *
      · cases hnext
      · have hlt := delivered_length_lt _ _ hmem
        simp [Llparser.held, hbuf, LineEnding.bytes] at hlt

theorem not_delivered (hfresh : llp.Fresh)
    (hending : line.ending = .crlf) (hnot : ¬line.readable llp.extended) :
    line.text ∉ delivered (llparseString llp line.wire).2.2 := by
  by_cases hfits : line.text.length ≤ LLPARSE_BUF_SIZE
  · obtain ⟨hext, hprompt⟩ : llp.extended = true ∧ promptLike line.text = true := by
      by_contra hor
      refine hnot ⟨hending, hfits, fun hext => ?_⟩
      simpa [hext] using hor
    exact prompt_not_delivered hfresh hext hending hprompt
  · intro hmem
    have hle := delivered_length_le (by simp [hfresh.buf]) _ hmem
    rw [hfresh.len] at hle
    exact hfits hle

theorem all_crlf (hfresh : llp.Fresh)
    (hexact : delivered (llparseString llp (lines.flatMap SentLine.wire)).2.2 =
      lines.map SentLine.text) :
    ∀ line ∈ lines, line.ending = .crlf := by
  have hcount := (brings_lines hfresh.sound hfresh.settled lines).count
  rw [hexact] at hcount
  have hle := hcount fun text hmem => by
    obtain ⟨line, -, rfl⟩ := List.mem_map.mp hmem
    exact line.goodText
  rw [List.length_map] at hle
  have hall := List.countP_eq_length.mp (Nat.le_antisymm List.countP_le_length hle)
  intro line hline
  simpa [SentLine.isCrlf] using hall line hline

theorem not_exact (hfresh : llp.Fresh)
    (hnot : line.text ∉ delivered (llparseString llp line.wire).2.2) :
    delivered (llparseString llp ((line :: lines).flatMap SentLine.wire)).2.2 ≠
      (line :: lines).map SentLine.text := by
  have hline := brings_line hfresh.sound hfresh.settled line
  intro hexact
  rw [List.flatMap_cons, llparseString_append] at hexact
  by_cases hrc : (llparseString llp line.wire).2.1 < 0
  · simp only [hrc, if_true] at hexact
    exact hnot (by simp [hexact])
  · simp only [hrc, if_false, delivered_append] at hexact
    cases hfirst : delivered (llparseString llp line.wire).2.2 with
    | cons text texts =>
      rw [hfirst] at hexact hnot
      exact hnot (by simp [(List.cons.inj hexact).1])
    | nil =>
      rw [hfirst, List.nil_append] at hexact
      have hzero : (llparseString llp line.wire).2.1 = 0 := by
        have hnonpos := llparseString_ret_nonpos llp line.wire
        omega
      have hcount := (brings_lines (llparseString_sound hfresh.sound _)
        (hline.settled hzero) lines).count
      rw [hexact] at hcount
      have hle := hcount fun text hmem => by
        obtain ⟨next, -, rfl⟩ := List.mem_map.mp hmem
        exact next.goodText
      have hcrlf : lines.countP SentLine.isCrlf ≤ lines.length := List.countP_le_length
      simp only [List.length_map, List.length_cons] at hle
      omega

theorem readable_of_exact (hfresh : llp.Fresh)
    (hexact : delivered (llparseString llp (lines.flatMap SentLine.wire)).2.2 =
      lines.map SentLine.text) :
    ∀ line ∈ lines, line.readable llp.extended := by
  have hcrlf := all_crlf hfresh hexact
  induction lines with
  | nil => simp
  | cons line lines ih =>
    have hreadable : line.readable llp.extended := by
      by_contra hnot
      exact not_exact hfresh (not_delivered hfresh (hcrlf line (by simp)) hnot) hexact
    rw [List.flatMap_cons, llparseString_append_ok (llparseString_readable hfresh hreadable),
      delivered_append, List.map_cons] at hexact
    have hrest := ih (List.cons.inj hexact).2 fun next hnext => hcrlf next (by simp [hnext])
    exact List.forall_mem_cons.mpr ⟨hreadable, hrest⟩

/-- However the lines are cut into reads, each is delivered once, in order, with its content. -/
def DeliversExactly (flags : Nat) (lines : List SentLine) : Prop :=
  ∀ chunks : List (List Byte), chunks.flatten = lines.flatMap SentLine.wire →
    delivered (llparseReads (.init flags) chunks).2.2 = lines.map SentLine.text

theorem Llparser.extended_init_lfcr (flags : Nat) :
    (Llparser.init (LGSM_ATCMD_F_LFCR ||| flags)).extended = (Llparser.init flags).extended := by
  have hext : (LGSM_ATCMD_F_LFCR ||| flags) &&& LGSM_ATCMD_F_EXTENDED =
      flags &&& LGSM_ATCMD_F_EXTENDED := by
    rw [Nat.and_or_distrib_right]
    exact Nat.zero_or _
  simp only [Llparser.extended, Llparser.init, hext]

/-- **LFCR mode.** The lines come out exactly, if and only if every one of them ends in CR LF, fits
the buffer and is no prompt. -/
theorem lfcr_delivers_iff (flags : Nat) (lines : List SentLine) :
    DeliversExactly (LGSM_ATCMD_F_LFCR ||| flags) lines ↔
      ∀ line ∈ lines, line.readable (Llparser.init flags).extended := by
  have hfresh : (Llparser.init (LGSM_ATCMD_F_LFCR ||| flags)).Fresh := ⟨rfl, rfl, rfl⟩
  rw [← Llparser.extended_init_lfcr]
  constructor
  · intro hexact
    refine readable_of_exact hfresh ?_
    have hwhole := hexact [lines.flatMap SentLine.wire] (by simp)
    simpa [llparseReads] using hwhole
  · intro hreadable chunks hchunks
    have hwhole := llparseString_readables hfresh hreadable
    rw [← hchunks] at hwhole
    rw [llparseReads_of_string hwhole]
    simp [delivered, List.filterMap_map]

/-- A `*MTSMENU` line that ends in LF CR is dropped. -/
theorem mtsmenu_dropped :
    ¬DeliversExactly (LGSM_ATCMD_F_LFCR ||| LGSM_ATCMD_F_EXTENDED)
      [⟨ascii "*MTSMENU: 0", .lfcr, by decide, by decide, by decide⟩] := by
  intro hexact
  have hnone := hexact [ascii "*MTSMENU: 0" ++ [LF, CR]] (by decide)
  exact absurd hnone (by decide)

end Openmoko.Gsmd
