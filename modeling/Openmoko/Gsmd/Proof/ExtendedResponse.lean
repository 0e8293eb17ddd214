import Openmoko.Gsmd.ExtResponse

/-!
# What the parser of extended responses makes of a response

The parser runs through a response field by field, from the state in which it is idle back to it.
The lemmas about one field say what the parser has then, or that it has left an array on the way.
From them follow the round trip of lists of numbers and strings, and what the ranges of a test
response are taken for.
-/

namespace Openmoko.Gsmd

open Extrsp

variable {c : Byte} {text : List Byte}

namespace ExtrspParser

@[simp]
theorem ok_bind {α β : Type} (a : α) (f : α → Except ExtrspFault β) :
    (Except.ok a >>= f) = f a := rfl

@[simp]
theorem error_bind {α β : Type} (fault : ExtrspFault) (f : α → Except ExtrspFault β) :
    (Except.error fault >>= f) = .error fault := rfl

def within (state : ExtrspState) (done : List GsmExtrspTok) (tok : GsmExtrspTok)
    (buf : List Byte) : ExtrspParser :=
  { er := { tokens := done, nextToken := tok }, state := state, buf := buf }

def idle (done : List GsmExtrspTok) (buf : List Byte) : ExtrspParser :=
  within .idle done .zero buf

theorem init_eq : init = idle [] [] := rfl

theorem loop_cons (p : ExtrspParser) (c : Byte) (input : List Byte) :
    p.loop (c :: input) = p.step c >>= fun p => p.loop input := rfl

theorem loop_cons_of_ok {p p' : ExtrspParser} (hstep : p.step c = .ok p')
    (input : List Byte) : p.loop (c :: input) = p'.loop input := by
  rw [loop_cons, hstep, ok_bind]

theorem loop_cons_of_error {p : ExtrspParser} {fault : ExtrspFault}
    (hstep : p.step c = .error fault) (input : List Byte) :
    p.loop (c :: input) = .error fault := by
  rw [loop_cons, hstep, error_bind]

variable {state : ExtrspState}

theorem store_within {done : List GsmExtrspTok} {tok : GsmExtrspTok}
    {buf : List Byte} (hroom : done.length < GSM_EXTRSP_MAX_TOKENS) (tok' : GsmExtrspTok) :
    (within state done tok buf).store tok' = .ok (within state done tok' buf) :=
  if_pos hroom

theorem store_full {done : List GsmExtrspTok} {tok : GsmExtrspTok}
    {buf : List Byte} (hfull : ¬done.length < GSM_EXTRSP_MAX_TOKENS) (tok' : GsmExtrspTok) :
    (within state done tok buf).store tok' = .error .token :=
  if_neg hfull

theorem number_within {done : List GsmExtrspTok} {tok : GsmExtrspTok}
    {buf : List Byte} (hbuf : buf.length < EXTRSP_BUF_SIZE) :
    (within state done tok buf).number = .ok (min (atoi buf) INT_MAX) := by
  rw [number, text, if_pos (by exact hbuf)]
  rfl

theorem number_full (state : ExtrspState) (done : List GsmExtrspTok) (tok : GsmExtrspTok)
    {buf : List Byte} (hbuf : ¬buf.length < EXTRSP_BUF_SIZE) :
    (within state done tok buf).number = .error .unterminated := by
  rw [number, text, if_neg (by exact hbuf)]
  rfl

theorem not_isblank_of_isdigit (hc : isdigit c = true) : isblank c = false := by
  have hvalue := isdigit_iff.mp hc
  rw [isblank, Bool.or_eq_false_iff, beq_eq_false_iff_ne, beq_eq_false_iff_ne]
  constructor <;> rintro rfl <;> simp at hvalue

theorem ne_of_isdigit {d : Byte} (hc : isdigit c = true) (hd : isdigit d = false) : c ≠ d := by
  rintro rfl
  rw [hc] at hd
  cases hd

section Begin

variable {done : List GsmExtrspTok} (buf : List Byte)

def stringTok : GsmExtrspTok := { GsmExtrspTok.zero with type := .string }

def rangeTok : GsmExtrspTok := { GsmExtrspTok.zero with type := .range }

def numericTok : GsmExtrspTok := { GsmExtrspTok.zero with type := .numeric }

def emptyTok : GsmExtrspTok := { GsmExtrspTok.zero with type := .empty }

theorem step_quote :
    (idle done buf).step QUOTE = (within .idle done .zero []).store stringTok >>= fun p =>
      .ok { p with state := .tokenString } := rfl

theorem step_open :
    (idle done buf).step OPEN = (within .idle done .zero []).store rangeTok >>= fun p =>
      .ok { p with state := .tokenRange } := rfl

theorem step_comma :
    (idle done buf).step COMMA = (within .idle done .zero []).store emptyTok >>= fun p =>
      .ok p.complete := rfl

theorem step_digit (hc : isdigit c = true) :
    (idle done buf).step c = (within .idle done .zero []).store numericTok >>= fun p =>
      p.append c >>= fun p => .ok { p with state := .tokenNumeric } := by
  rw [step]
  dsimp only [idle, within]
  rw [not_isblank_of_isdigit hc, if_neg Bool.false_ne_true, if_neg (ne_of_isdigit hc rfl),
    if_neg (ne_of_isdigit hc rfl), if_pos hc]
  rfl

theorem step_skip (hquote : c ≠ QUOTE) (hopen : c ≠ OPEN)
    (hdigit : isdigit c = false) (hcomma : c ≠ COMMA) :
    (idle done buf).step c = .ok (idle done []) := by
  rw [step]
  dsimp only [idle, within]
  rw [if_neg hquote, if_neg hopen, hdigit, if_neg Bool.false_ne_true, if_neg hcomma, ite_self]

end Begin

theorem loop_copies (keep : Byte → Bool) (done : List GsmExtrspTok) (tok : GsmExtrspTok)
    (hstep : ∀ c ∈ text, ∀ buf, (within state done tok buf).step c =
      if keep c then (within state done tok buf).append c else .ok (within state done tok buf))
    {buf : List Byte} (hbuf : buf.length ≤ EXTRSP_BUF_SIZE) (rest : List Byte) :
    (within state done tok buf).loop (text ++ rest) =
      if buf.length + (text.filter keep).length ≤ EXTRSP_BUF_SIZE then
        (within state done tok (buf ++ text.filter keep)).loop rest
      else .error .scratch := by
  induction text generalizing buf with
  | nil => rw [List.filter_nil, List.append_nil, if_pos (by simpa using hbuf), List.nil_append]
  | cons c text ih =>
    obtain ⟨hfirst, hmore⟩ := List.forall_mem_cons.mp hstep
    have hc := hfirst buf
    rw [List.cons_append]
    by_cases hkeep : keep c = true
    · rw [if_pos hkeep, append] at hc
      rw [List.filter_cons_of_pos hkeep, List.length_cons]
      by_cases hroom : buf.length < EXTRSP_BUF_SIZE
      · have hnext : (buf ++ [c]).length ≤ EXTRSP_BUF_SIZE := by
          rwa [List.length_append, List.length_singleton, Nat.add_one_le_iff]
        rw [if_pos (by exact hroom)] at hc
        rw [loop_cons_of_ok hc]
        refine (ih hmore hnext).trans ?_
        simp [Nat.add_assoc, Nat.add_comm 1]
      · rw [if_neg (by exact hroom)] at hc
        rw [loop_cons_of_error hc, if_neg (by omega)]
    · rw [if_neg hkeep] at hc
      rw [loop_cons_of_ok hc, List.filter_cons_of_neg hkeep]
      exact ih hmore hbuf

theorem step_tokenNumeric (done : List GsmExtrspTok) (tok : GsmExtrspTok) (buf : List Byte)
    (hcomma : c ≠ COMMA) :
    (within .tokenNumeric done tok buf).step c =
      if isdigit c then (within .tokenNumeric done tok buf).append c
      else .ok (within .tokenNumeric done tok buf) := by
  rw [step]
  dsimp only [within]
  rw [if_neg hcomma]

theorem loop_numeric (done : List GsmExtrspTok) (tok : GsmExtrspTok)
    (hcomma : COMMA ∉ text) {buf : List Byte} (hbuf : buf.length ≤ EXTRSP_BUF_SIZE)
    (rest : List Byte) :
    (within .tokenNumeric done tok buf).loop (text ++ rest) =
      if buf.length + (text.filter isdigit).length ≤ EXTRSP_BUF_SIZE then
        (within .tokenNumeric done tok (buf ++ text.filter isdigit)).loop rest
      else .error .scratch := by
  apply loop_copies isdigit done tok ?_ hbuf rest
  intro c hc buf
  apply step_tokenNumeric done tok buf
  rintro rfl
  exact hcomma hc

section String

theorem step_tokenString (done : List GsmExtrspTok) (tok : GsmExtrspTok) (buf : List Byte)
    (hquote : c ≠ QUOTE) :
    (within .tokenString done tok buf).step c = (within .tokenString done tok buf).append c := by
  rw [step]
  dsimp only [within]
  rw [if_neg hquote]

theorem loop_string (done : List GsmExtrspTok) (tok : GsmExtrspTok)
    (hquote : QUOTE ∉ text) {buf : List Byte} (hbuf : buf.length ≤ EXTRSP_BUF_SIZE)
    (rest : List Byte) :
    (within .tokenString done tok buf).loop (text ++ rest) =
      if buf.length + text.length ≤ EXTRSP_BUF_SIZE then
        (within .tokenString done tok (buf ++ text)).loop rest
      else .error .scratch := by
  have hall : text.filter (fun _ => true) = text := List.filter_eq_self.mpr fun _ _ => rfl
  have hstep : ∀ c ∈ text, ∀ buf, (within .tokenString done tok buf).step c =
      (within .tokenString done tok buf).append c := by
    intro c hc buf
    apply step_tokenString done tok buf
    rintro rfl
    exact hquote hc
  have hcopies := loop_copies (fun _ => true) done tok hstep hbuf rest
  rwa [hall] at hcopies

variable {done : List GsmExtrspTok}

def stringRead (text : List Byte) : GsmExtrspTok :=
  { stringTok with string := text.take (GSM_EXTRSP_MAX_STRBUF - 1) }

theorem step_endQuote (hroom : done.length < GSM_EXTRSP_MAX_TOKENS) {buf : List Byte}
    (hbuf : buf.length < EXTRSP_BUF_SIZE) :
    (within .tokenString done stringTok buf).step QUOTE =
      .ok (within .tokenStringLastquote (done ++ [stringRead buf]) .zero buf) := by
  have htext : (within .tokenString done stringTok buf).text = .ok buf := if_pos hbuf
  change ((within .tokenString done stringTok buf).text >>= fun text => _) = _
  rw [htext, ok_bind]
  rw [store_within hroom]
  rfl

theorem step_endQuote_full {tok : GsmExtrspTok} {buf : List Byte}
    (hbuf : ¬buf.length < EXTRSP_BUF_SIZE) :
    (within .tokenString done tok buf).step QUOTE = .error .unterminated := by
  have htext : (within .tokenString done tok buf).text = .error .unterminated := if_neg hbuf
  change ((within .tokenString done tok buf).text >>= fun text => _) = _
  rw [htext, error_bind]

theorem loop_lastquote (done : List GsmExtrspTok) (hcomma : COMMA ∉ text) (buf rest : List Byte) :
    (within .tokenStringLastquote done .zero buf).loop (text ++ rest) =
      (within .tokenStringLastquote done .zero buf).loop rest := by
  induction text with
  | nil => rfl
  | cons c text ih =>
    rw [List.mem_cons, not_or] at hcomma
    have hstep : (within .tokenStringLastquote done .zero buf).step c =
        .ok (within .tokenStringLastquote done .zero buf) := if_neg (Ne.symm hcomma.1)
    rw [List.cons_append, loop_cons_of_ok hstep, ih hcomma.2]

theorem loop_lastquote_comma (buf rest : List Byte) :
    (within .tokenStringLastquote done .zero buf).loop (COMMA :: rest) =
      (idle done buf).loop rest := rfl

end String

theorem loop_idle_buf (done : List GsmExtrspTok) (buf input : List Byte) :
    (idle done buf).loop input = (idle done []).loop input := by
  cases input with
  | nil => rfl
  | cons c input => rfl

end ExtrspParser

open ExtrspParser

/-! ### Lists of numbers and strings -/

inductive ExtrspItem where
  | empty
  | numeric (n : ℕ) (hn : (n : ℤ) ≤ INT_MAX)
  | string (text : List Byte) (hlen : text.length ≤ 63) (hquote : QUOTE ∉ text) (hnul : NUL ∉ text)

namespace ExtrspItem

def render : ExtrspItem → List Byte
  | .empty => []
  | .numeric n _ => decimal n
  | .string text _ _ _ => QUOTE :: (text ++ [QUOTE])

def renderAll : List ExtrspItem → List Byte
  | [] => []
  | [item] => item.render
  | item :: next :: items => item.render ++ COMMA :: renderAll (next :: items)

def token : ExtrspItem → GsmExtrspTok
  | .empty => { GsmExtrspTok.zero with type := .empty }
  | .numeric n _ => { GsmExtrspTok.zero with type := .numeric, numeric := n }
  | .string text _ _ _ => { GsmExtrspTok.zero with type := .string, string := text }

section Run

variable {done : List GsmExtrspTok} (hroom : done.length < GSM_EXTRSP_MAX_TOKENS)
include hroom

theorem loop_number {n : ℕ} (hn : (n : ℤ) ≤ INT_MAX) (rest : List Byte) :
    (idle done []).loop (decimal n ++ rest) =
      (within .tokenNumeric done numericTok (decimal n)).loop rest := by
  have hlength : (decimal n).length ≤ 10 :=
    length_decimal_le (by decide) (by simp only [INT_MAX] at hn; omega)
  have hdigits : (decimal n).filter isdigit = decimal n :=
    List.filter_eq_self.mpr (isdigit_of_mem_decimal n)
  have hnocomma : COMMA ∉ decimal n := fun hmem =>
    absurd (isdigit_of_mem_decimal n COMMA hmem) (by decide)
  cases hdecimal : decimal n with
  | nil => exact absurd hdecimal (decimal_ne_nil n)
  | cons c digits =>
    have hc : isdigit c = true :=
      isdigit_of_mem_decimal n c (by rw [hdecimal]; exact List.mem_cons_self)
    have hstep : (idle done []).step c = .ok (within .tokenNumeric done numericTok [c]) := by
      rw [step_digit [] hc, store_within hroom]
      rfl
    rw [hdecimal, List.length_cons] at hlength
    rw [hdecimal, List.filter_cons_of_pos hc, List.cons.injEq] at hdigits
    rw [hdecimal, List.mem_cons, not_or] at hnocomma
    rw [List.cons_append, loop_cons_of_ok hstep,
      loop_numeric done numericTok hnocomma.2 (by simp [EXTRSP_BUF_SIZE]), hdigits.2, if_pos]
    · rfl
    · rw [List.length_singleton, EXTRSP_BUF_SIZE]
      omega

theorem loop_quoted (hlen : text.length ≤ 63) (hquote : QUOTE ∉ text) (rest : List Byte) :
    (idle done []).loop (QUOTE :: (text ++ QUOTE :: rest)) =
      (within .tokenStringLastquote
        (done ++ [{ GsmExtrspTok.zero with type := .string, string := text }]) .zero text).loop
          rest := by
  have hbegin : (idle done []).step QUOTE = .ok (within .tokenString done stringTok []) := by
    rw [step_quote, store_within hroom]
    rfl
  have hend := step_endQuote hroom (by rw [EXTRSP_BUF_SIZE]; omega : text.length < EXTRSP_BUF_SIZE)
  have hwhole : stringRead text = { GsmExtrspTok.zero with type := .string, string := text } := by
    rw [stringRead, List.take_of_length_le (by rw [GSM_EXTRSP_MAX_STRBUF]; omega)]
    rfl
  rw [loop_cons_of_ok hbegin, loop_string done stringTok hquote (Nat.zero_le _), if_pos,
    List.nil_append, loop_cons_of_ok hend, hwhole]
  rw [List.length_nil, EXTRSP_BUF_SIZE]
  omega

theorem loop_item (item : ExtrspItem) (rest : List Byte) :
    (idle done []).loop (item.render ++ COMMA :: rest) =
      (idle (done ++ [item.token]) []).loop rest := by
  cases item with
  | empty =>
    have hstep : (idle done []).step COMMA = .ok (idle (done ++ [emptyTok]) []) := by
      rw [step_comma, store_within hroom]
      rfl
    exact loop_cons_of_ok hstep rest
  | numeric n hn =>
    have hlength : (decimal n).length < EXTRSP_BUF_SIZE :=
      (length_decimal_le (k := 10) (by decide) (by simp only [INT_MAX] at hn; omega)).trans_lt
        (by decide)
    have hstep : (within .tokenNumeric done numericTok (decimal n)).step COMMA =
        .ok (idle (done ++ [{ numericTok with numeric := n }]) (decimal n)) := by
      change ((within .tokenNumeric done numericTok (decimal n)).number >>= fun numeric => _) = _
      rw [number_within hlength, ExtrspParser.ok_bind, atoi_decimal, min_eq_left hn,
        store_within hroom]
      rfl
    rw [render, loop_number hroom hn, loop_cons_of_ok hstep, loop_idle_buf]
    rfl
  | string text hlen hquote hnul =>
    rw [render, List.cons_append, List.append_assoc, List.singleton_append,
      loop_quoted hroom hlen hquote, loop_lastquote_comma, loop_idle_buf]
    rfl

theorem loop_last {item : ExtrspItem} (hitem : item ≠ .empty) :
    (idle done []).loop item.render =
      .ok { tokens := done ++ [item.token], nextToken := .zero } := by
  cases item with
  | empty => exact absurd rfl hitem
  | numeric n hn =>
    have hlength : (decimal n).length < EXTRSP_BUF_SIZE :=
      (length_decimal_le (k := 10) (by decide) (by simp only [INT_MAX] at hn; omega)).trans_lt
        (by decide)
    rw [render, ← List.append_nil (decimal n), loop_number hroom hn, loop]
    rw [if_pos (by rfl), number_within hlength, ExtrspParser.ok_bind, atoi_decimal,
      min_eq_left hn, store_within hroom]
    rfl
  | string text hlen hquote hnul =>
    rw [render, loop_quoted hroom hlen hquote]
    rfl

end Run

theorem loop_items {items : List ExtrspItem} (hne : items ≠ [])
    (hlast : items.getLast? ≠ some .empty) {done : List GsmExtrspTok}
    (hroom : done.length + items.length ≤ GSM_EXTRSP_MAX_TOKENS) :
    (idle done []).loop (renderAll items) =
      .ok { tokens := done ++ items.map token, nextToken := .zero } := by
  induction items using renderAll.induct generalizing done with
  | case1 => exact absurd rfl hne
  | case2 item =>
    have hitem : item ≠ .empty := by
      rintro rfl
      exact hlast rfl
    exact loop_last (Nat.lt_of_succ_le hroom) hitem
  | case3 item next items ih =>
    rw [List.length_cons] at hroom
    have hrest : (done ++ [item.token]).length + (next :: items).length ≤
        GSM_EXTRSP_MAX_TOKENS := by
      rw [List.length_append, List.length_singleton]
      omega
    have hfirst : done.length < GSM_EXTRSP_MAX_TOKENS := by
      rw [List.length_cons] at hroom
      omega
    rw [renderAll, loop_item hfirst, ih (List.cons_ne_nil _ _) hlast hrest, List.append_assoc]
    rfl

theorem renderAll_ne_nil {items : List ExtrspItem} (hne : items ≠ [])
    (hlast : items.getLast? ≠ some .empty) : renderAll items ≠ [] := by
  match items with
  | [] => exact absurd rfl hne
  | [.empty] => exact absurd rfl hlast
  | [.numeric n _] => exact decimal_ne_nil n
  | [.string _ _ _ _] => exact List.cons_ne_nil _ _
  | item :: next :: items =>
    rw [renderAll]
    exact List.append_ne_nil_of_right_ne_nil _ (List.cons_ne_nil _ _)

/-- **The parser inverts the rendering.** Items between commas, the last of them not empty, come
back as their tokens, as far as there is room for them. -/
theorem extrspParse_renderAll {items : List ExtrspItem} (hne : items ≠ [])
    (hroom : items.length ≤ GSM_EXTRSP_MAX_TOKENS) (hlast : items.getLast? ≠ some .empty) :
    ∃ er, extrspParse (renderAll items) = .ok (some er) ∧ er.tokens = items.map token ∧
      er.numTokens = items.length := by
  have hstart : ([] : List GsmExtrspTok).length + items.length ≤ GSM_EXTRSP_MAX_TOKENS := by
    rwa [List.length_nil, Nat.zero_add]
  have hloop := loop_items hne hlast hstart
  refine ⟨{ tokens := items.map token, nextToken := .zero }, ?_, rfl, List.length_map _⟩
  rw [extrspParse, if_neg (renderAll_ne_nil hne hlast), init_eq, hloop]
  rfl

/-- `"a,b",,7` -/
theorem extrspParse_three : ∃ er,
    extrspParse (renderAll [.string (ascii "a,b") (by decide) (by decide) (by decide), .empty,
      .numeric 7 (by decide)]) = .ok (some er) ∧
    er.tokens = [.string (ascii "a,b") (by decide) (by decide) (by decide), .empty,
      .numeric 7 (by decide)].map token ∧ er.numTokens = 3 :=
  extrspParse_renderAll (List.cons_ne_nil _ _) (by decide) (by simp)

end ExtrspItem

namespace ExtrspParser

def numberOf (buf : List Byte) : ℤ := min (atoi buf) INT_MAX

section Range

variable {done : List GsmExtrspTok} {tok : GsmExtrspTok} {buf : List Byte}

def ended (tok : GsmExtrspTok) (buf : List Byte) : GsmExtrspTok :=
  { tok with
    items := tok.items ++ [{ tok.nextItem with max := numberOf buf }], nextItem := ⟨0, 0⟩ }

def lowered (tok : GsmExtrspTok) (buf : List Byte) : GsmExtrspTok :=
  { tok with nextItem := { tok.nextItem with min := numberOf buf } }

theorem step_rangeDigit (done : List GsmExtrspTok) (tok : GsmExtrspTok) (buf : List Byte)
    (hc : isdigit c = true) :
    (within .tokenRange done tok buf).step c =
      if buf.length < EXTRSP_BUF_SIZE then .ok (within .tokenRange done tok (buf ++ [c]))
      else .error .scratch := by
  rw [step]
  dsimp only [within]
  rw [if_pos hc]
  rfl

theorem step_rangeOther (hdigit : isdigit c = false) (hdash : c ≠ DASH)
    (hcomma : c ≠ COMMA) (hclose : c ≠ CLOSE) :
    (within .tokenRange done tok buf).step c = .ok (within .tokenRange done tok buf) := by
  rw [step]
  dsimp only [within]
  rw [hdigit, if_neg Bool.false_ne_true, if_neg hdash, if_neg hcomma, if_neg hclose]

variable (hroom : done.length < GSM_EXTRSP_MAX_TOKENS)
include hroom

theorem step_dash (hbuf : buf.length < EXTRSP_BUF_SIZE)
    (hitems : tok.numItems < GSM_EXTRSP_MAX_RANGES) :
    (within .tokenRange done tok buf).step DASH =
      .ok (within .tokenRange done (lowered tok buf) []) := by
  have hitem : (within .tokenRange done tok buf).storeItem
      { tok.nextItem with min := numberOf buf } =
        .ok (within .tokenRange done (lowered tok buf) buf) := by
    rw [storeItem, if_pos (by exact hitems), store_within hroom]
    rfl
  change ((within .tokenRange done tok buf).number >>= fun min => _) = _
  rw [number_within hbuf, ok_bind, ← numberOf]
  change ((within .tokenRange done tok buf).storeItem
    { tok.nextItem with min := numberOf buf } >>= _) = _
  rw [hitem]
  rfl

theorem endItem_within (hbuf : buf.length < EXTRSP_BUF_SIZE)
    (hitems : tok.numItems < GSM_EXTRSP_MAX_RANGES) :
    (within .tokenRange done tok buf).endItem =
      .ok (within .tokenRange done (ended tok buf) buf) := by
  have hitem : (within .tokenRange done tok buf).storeItem
      { tok.nextItem with max := numberOf buf } =
        .ok (within .tokenRange done
          { tok with nextItem := { tok.nextItem with max := numberOf buf } } buf) := by
    rw [storeItem, if_pos (by exact hitems), store_within hroom]
    rfl
  rw [endItem, number_within hbuf, ok_bind, ← numberOf]
  change ((within .tokenRange done tok buf).storeItem
    { tok.nextItem with max := numberOf buf } >>= _) = _
  rw [hitem, ok_bind, store_within hroom]
  rfl

theorem step_rangeComma (hbuf : buf.length < EXTRSP_BUF_SIZE)
    (hitems : tok.numItems < GSM_EXTRSP_MAX_RANGES) :
    (within .tokenRange done tok buf).step COMMA =
      .ok (within .tokenRange done (ended tok buf) buf) :=
  endItem_within hroom hbuf hitems

theorem step_close (hbuf : buf.length < EXTRSP_BUF_SIZE)
    (hitems : tok.numItems < GSM_EXTRSP_MAX_RANGES) :
    (within .tokenRange done tok buf).step CLOSE =
      .ok (within .tokenStringLastquote (done ++ [ended tok buf]) .zero buf) := by
  change ((within .tokenRange done tok buf).endItem >>= _) = _
  rw [endItem_within hroom hbuf hitems]
  rfl

end Range

end ExtrspParser

abbrev NonNegInt := {n : ℕ // (n : ℤ) ≤ INT_MAX}

inductive RangeSpec where
  | single (n : NonNegInt)
  | range (min max : NonNegInt)
  deriving DecidableEq

variable {items : List RangeSpec} {run : List Byte}

namespace RangeSpec

def render : RangeSpec → List Byte
  | .single n => decimal n.val
  | .range min max => decimal min.val ++ DASH :: decimal max.val

def first : RangeSpec → NonNegInt
  | .single n => n
  | .range min _ => min

def Has (v : ℤ) : RangeSpec → Prop
  | .single n => v = (n.val : ℤ)
  | .range min max => (min.val : ℤ) ≤ v ∧ v ≤ (max.val : ℤ)

def renderItems : List RangeSpec → List Byte
  | [] => [CLOSE]
  | [item] => item.render ++ [CLOSE]
  | item :: next :: items => item.render ++ COMMA :: renderItems (next :: items)

def renderList (items : List RangeSpec) : List Byte := OPEN :: renderItems items

def renderLists : List (List RangeSpec) → List Byte
  | [] => []
  | [items] => renderList items
  | items :: next :: lists => renderList items ++ COMMA :: renderLists (next :: lists)

def runUpTo (run : List Byte) : RangeSpec → List Byte
  | .single n => run ++ decimal n.val
  | .range min _ => run ++ decimal min.val

def runBehind (run : List Byte) : RangeSpec → List Byte
  | .single n => run ++ decimal n.val
  | .range _ max => decimal max.val

def runNumbers (run : List Byte) : List RangeSpec → List (RangeSpec × ℤ)
  | [] => []
  | item :: items => (item, numberOf (runUpTo run item)) :: runNumbers (runBehind run item) items

def taken : RangeSpec × ℤ → GsmExtrspRangeItem
  | (.single _, number) => ⟨0, number⟩
  | (.range _ max, number) => ⟨number, max.val⟩

def storedItems (items : List RangeSpec) : List GsmExtrspRangeItem :=
  if items = [] then [⟨0, 0⟩] else (runNumbers [] items).map taken

def listToken (items : List RangeSpec) : GsmExtrspTok :=
  { rangeTok with items := storedItems items }

theorem length_decimal_int (n : NonNegInt) : (decimal n.val).length ≤ 10 :=
  length_decimal_le (by decide) (by have hn := n.property; simp only [INT_MAX] at hn; omega)

theorem numberOf_decimal (n : NonNegInt) : numberOf (decimal n.val) = n.val := by
  rw [numberOf, atoi_decimal, min_eq_left n.property]

theorem le_numberOf (hrun : ∀ d ∈ run, isdigit d = true) (n : NonNegInt) :
    (n.val : ℤ) ≤ numberOf (run ++ decimal n.val) := by
  have hdigits : ∀ d ∈ run ++ decimal n.val, isdigit d = true := by
    intro d hd
    rcases List.mem_append.mp hd with hleft | hright
    · exact hrun d hleft
    · exact isdigit_of_mem_decimal n.val d hright
  rw [numberOf, atoi_digits hdigits]
  refine le_min (Nat.cast_le.mpr ?_) n.property
  calc n.val
      = decimalValue (decimal n.val) := (decimalValue_decimal n.val).symm
    _ ≤ decimalValue (run ++ decimal n.val) := decimalValue_le_append run _

/-! ### What the parser stores -/

section Stored

variable {done : List GsmExtrspTok}

theorem loop_digits {tok : GsmExtrspTok} {digits : List Byte}
    (hdigits : ∀ d ∈ digits, isdigit d = true)
    (hroom : run.length + digits.length ≤ EXTRSP_BUF_SIZE) (rest : List Byte) :
    (within .tokenRange done tok run).loop (digits ++ rest) =
      (within .tokenRange done tok (run ++ digits)).loop rest := by
  induction digits generalizing run with
  | nil => rw [List.nil_append, List.append_nil]
  | cons d digits ih =>
    rw [List.length_cons] at hroom
    rw [List.forall_mem_cons] at hdigits
    have hstep := step_rangeDigit done tok run hdigits.1
    rw [if_pos (by omega)] at hstep
    rw [List.cons_append, loop_cons_of_ok hstep, ih hdigits.2, List.append_assoc,
      List.singleton_append]
    rw [List.length_append, List.length_singleton]
    omega

def begun (tok : GsmExtrspTok) (run : List Byte) : RangeSpec → GsmExtrspTok
  | .single _ => tok
  | .range min _ => lowered tok (run ++ decimal min.val)

variable (hroom : done.length < GSM_EXTRSP_MAX_TOKENS) {tok : GsmExtrspTok}
include hroom

theorem loop_spec (hitems : tok.numItems < GSM_EXTRSP_MAX_RANGES)
    (hrun : run.length ≤ 170) (item : RangeSpec) (rest : List Byte) :
    (within .tokenRange done tok run).loop (item.render ++ rest) =
      (within .tokenRange done (begun tok run item) (runBehind run item)).loop rest := by
  cases item with
  | single n =>
    have hlength := length_decimal_int n
    exact loop_digits (isdigit_of_mem_decimal n.val) (by rw [EXTRSP_BUF_SIZE]; omega) rest
  | range min max =>
    have hmin := length_decimal_int min
    have hmax := length_decimal_int max
    have hbuf : (run ++ decimal min.val).length < EXTRSP_BUF_SIZE := by
      rw [List.length_append, EXTRSP_BUF_SIZE]
      omega
    rw [render, List.append_assoc, List.cons_append,
      loop_digits (isdigit_of_mem_decimal min.val) (by rw [EXTRSP_BUF_SIZE]; omega),
      loop_cons_of_ok (step_dash hroom hbuf hitems),
      loop_digits (isdigit_of_mem_decimal max.val)
        (by rw [EXTRSP_BUF_SIZE, List.length_nil]; omega)]
    rfl

omit hroom in
theorem ended_begun (hnext : tok.nextItem = ⟨0, 0⟩) (run : List Byte) (item : RangeSpec) :
    ended (begun tok run item) (runBehind run item) =
      { tok with
        items := tok.items ++ [taken (item, numberOf (runUpTo run item))]
        nextItem := ⟨0, 0⟩ } := by
  cases item with
  | single n => simp only [ended, begun, runBehind, runUpTo, taken, hnext]
  | range min max =>
    simp only [ended, begun, runBehind, runUpTo, taken, lowered, hnext, numberOf_decimal]

omit hroom in
theorem numItems_begun (run : List Byte) (item : RangeSpec) :
    (begun tok run item).numItems = tok.numItems := by
  cases item <;> rfl

omit hroom in
theorem length_runBehind_le (run : List Byte) (item : RangeSpec) :
    (runBehind run item).length ≤ run.length + 10 := by
  cases item with
  | single n =>
    rw [runBehind, List.length_append]
    exact Nat.add_le_add_left (length_decimal_int n) _
  | range min max => exact (length_decimal_int max).trans (Nat.le_add_left _ _)

omit hroom in
theorem length_runBehind_lt (item : RangeSpec) (hrun : run.length ≤ 150) :
    (runBehind run item).length < EXTRSP_BUF_SIZE := by
  have hlength := length_runBehind_le run item
  rw [EXTRSP_BUF_SIZE]
  omega

theorem loop_renderItems (hne : items ≠ []) (hnext : tok.nextItem = ⟨0, 0⟩)
    (hcount : tok.numItems + items.length ≤ GSM_EXTRSP_MAX_RANGES)
    (hrun : run.length + 10 * items.length ≤ 160) :
    ∃ buf, ∀ rest, (within .tokenRange done tok run).loop (renderItems items ++ rest) =
      (within .tokenStringLastquote
        (done ++ [{ tok with
          items := tok.items ++ (runNumbers run items).map taken, nextItem := ⟨0, 0⟩ }])
        .zero buf).loop rest := by
  induction items using renderItems.induct generalizing tok run with
  | case1 => exact absurd rfl hne
  | case2 item =>
    rw [List.length_singleton] at hcount hrun
    have hbuf := length_runBehind_lt item (by omega : run.length ≤ 150)
    have hfree : (begun tok run item).numItems < GSM_EXTRSP_MAX_RANGES := by
      rw [numItems_begun]
      exact hcount
    have hend := step_close hroom hbuf hfree
    refine ⟨runBehind run item, fun rest => ?_⟩
    rw [renderItems, List.append_assoc, loop_spec hroom hcount (by omega), List.singleton_append,
      loop_cons_of_ok hend, ended_begun hnext]
    rfl
  | case3 item next items ih =>
    rw [List.length_cons] at hcount hrun
    have hlength := length_runBehind_le run item
    have hbuf := length_runBehind_lt item (by omega : run.length ≤ 150)
    have hfree : (begun tok run item).numItems < GSM_EXTRSP_MAX_RANGES := by
      rw [numItems_begun]
      omega
    have hend := step_rangeComma hroom hbuf hfree
    rw [ended_begun hnext] at hend
    have hmore : ({ tok with
        items := tok.items ++ [taken (item, numberOf (runUpTo run item))]
        nextItem := ⟨0, 0⟩ } : GsmExtrspTok).numItems + (next :: items).length ≤
          GSM_EXTRSP_MAX_RANGES := by
      rw [GsmExtrspTok.numItems, List.length_append, List.length_singleton,
        ← GsmExtrspTok.numItems]
      omega
    have hshort : (runBehind run item).length + 10 * (next :: items).length ≤ 160 := by omega
    obtain ⟨buf, hrest⟩ := ih (List.cons_ne_nil _ _) rfl hmore hshort
    refine ⟨buf, fun rest => ?_⟩
    rw [renderItems, List.append_assoc, loop_spec hroom (by omega) (by omega), List.cons_append,
      loop_cons_of_ok hend, hrest, List.append_assoc, List.singleton_append]
    rfl

theorem loop_renderList (hcount : items.length ≤ GSM_EXTRSP_MAX_RANGES) :
    ∃ buf, ∀ rest, (idle done []).loop (renderList items ++ rest) =
      (within .tokenStringLastquote (done ++ [listToken items]) .zero buf).loop rest := by
  have hbegin : (idle done []).step OPEN = .ok (within .tokenRange done rangeTok []) := by
    rw [step_open, store_within hroom]
    rfl
  by_cases hne : items = []
  · subst hne
    have hbuf : ([] : List Byte).length < EXTRSP_BUF_SIZE := by decide
    have hfree : rangeTok.numItems < GSM_EXTRSP_MAX_RANGES := by decide
    have hend := step_close hroom hbuf hfree
    refine ⟨[], fun rest => ?_⟩
    rw [renderList, List.cons_append, loop_cons_of_ok hbegin, renderItems, List.singleton_append,
      loop_cons_of_ok hend]
    rfl
  · have hfree : rangeTok.numItems + items.length ≤ GSM_EXTRSP_MAX_RANGES := by
      rwa [show rangeTok.numItems = 0 from rfl, Nat.zero_add]
    have hrun : ([] : List Byte).length + 10 * items.length ≤ 160 := by
      rw [GSM_EXTRSP_MAX_RANGES] at hcount
      rw [List.length_nil]
      omega
    have hnext : rangeTok.nextItem = ⟨0, 0⟩ := rfl
    obtain ⟨buf, hloop⟩ := loop_renderItems hroom hne hnext hfree hrun
    refine ⟨buf, fun rest => ?_⟩
    rw [renderList, List.cons_append, loop_cons_of_ok hbegin, hloop, listToken, storedItems,
      if_neg hne]
    rfl

omit hroom in
theorem loop_renderLists {lists : List (List RangeSpec)} (hne : lists ≠ [])
    (hcount : done.length + lists.length ≤ GSM_EXTRSP_MAX_TOKENS)
    (hitems : ∀ items ∈ lists, items.length ≤ GSM_EXTRSP_MAX_RANGES) :
    (idle done []).loop (renderLists lists) =
      .ok { tokens := done ++ lists.map listToken, nextToken := .zero } := by
  induction lists using renderLists.induct generalizing done with
  | case1 => exact absurd rfl hne
  | case2 items =>
    obtain ⟨buf, hloop⟩ := loop_renderList hcount (hitems items List.mem_cons_self)
    have hend := hloop []
    rw [List.append_nil] at hend
    rw [renderLists, hend]
    rfl
  | case3 items next lists ih =>
    rw [List.forall_mem_cons] at hitems
    rw [List.length_cons] at hcount
    have hroom : done.length < GSM_EXTRSP_MAX_TOKENS := by omega
    have hrest : (done ++ [listToken items]).length + (next :: lists).length ≤
        GSM_EXTRSP_MAX_TOKENS := by
      rw [List.length_append, List.length_singleton]
      omega
    obtain ⟨buf, hloop⟩ := loop_renderList hroom hitems.1
    rw [renderLists, hloop, loop_lastquote_comma, loop_idle_buf,
      ih (List.cons_ne_nil _ _) hrest hitems.2, List.append_assoc]
    rfl

end Stored

/-! ### What the ranges are taken for -/

theorem extrspSupports_eq_one_iff {er : GsmExtrsp} {k : ℕ}
    (htoken : er.tokens[k]? = some (listToken items)) (v : ℤ) :
    extrspSupports er k v = 1 ↔ ∃ ri ∈ storedItems items, ri.min ≤ v ∧ v ≤ ri.max := by
  have hindex : ¬((k : ℤ) < 0) := by omega
  have htype : ¬(listToken items).type ≠ .range := fun hne => hne rfl
  rw [extrspSupports, if_neg hindex, Int.toNat_natCast, htoken]
  dsimp only
  rw [if_neg htype, show (listToken items).items = storedItems items from rfl]
  split
  next hany =>
    refine iff_of_true rfl ?_
    simpa using hany
  next hnone =>
    refine iff_of_false (by decide) ?_
    simpa using hnone

def Covers (v : ℤ) (item : RangeSpec × ℤ) : Prop := (taken item).min ≤ v ∧ v ≤ (taken item).max

theorem mem_of_mem_runNumbers {item : RangeSpec × ℤ}
    (hitem : item ∈ runNumbers run items) : item.1 ∈ items := by
  induction items generalizing run with
  | nil => cases hitem
  | cons first items ih =>
    rcases List.mem_cons.mp hitem with rfl | hrest
    · exact List.mem_cons_self
    · exact List.mem_cons_of_mem _ (ih hrest)

theorem exists_mem_runNumbers {item : RangeSpec} (hitem : item ∈ items)
    (run : List Byte) : ∃ number, (item, number) ∈ runNumbers run items := by
  induction items generalizing run with
  | nil => cases hitem
  | cons first items ih =>
    rcases List.mem_cons.mp hitem with rfl | hrest
    · exact ⟨_, List.mem_cons_self⟩
    · obtain ⟨number, hnumber⟩ := ih hrest (runBehind run first)
      exact ⟨number, List.mem_cons_of_mem _ hnumber⟩

theorem isdigit_of_mem_runBehind (hrun : ∀ d ∈ run, isdigit d = true)
    (item : RangeSpec) : ∀ d ∈ runBehind run item, isdigit d = true := by
  cases item with
  | single n =>
    intro d hd
    rcases List.mem_append.mp hd with hleft | hright
    · exact hrun d hleft
    · exact isdigit_of_mem_decimal n.val d hright
  | range min max => exact isdigit_of_mem_decimal max.val

theorem first_le_number (hrun : ∀ d ∈ run, isdigit d = true) {item : RangeSpec} {number : ℤ}
    (hitem : (item, number) ∈ runNumbers run items) : (item.first.val : ℤ) ≤ number := by
  induction items generalizing run with
  | nil => cases hitem
  | cons next items ih =>
    rcases List.mem_cons.mp hitem with heq | hrest
    · obtain ⟨rfl, rfl⟩ := Prod.mk.inj heq
      cases item with
      | single n => exact le_numberOf hrun n
      | range min max => exact le_numberOf hrun min
    · exact ih (isdigit_of_mem_runBehind hrun next) hrest

/-- The list is not empty; every value up to the number that a single value is read as belongs to
the list; and the values of a range below the number that its lower end is read as are stored with
another item. -/
structure ReadRightly (items : List RangeSpec) : Prop where
  nonempty : items ≠ []
  singles : ∀ n number, (RangeSpec.single n, number) ∈ runNumbers [] items →
    ∀ v, 0 ≤ v → v ≤ number → ∃ item ∈ items, item.Has v
  ranges : ∀ min max number, (RangeSpec.range min max, number) ∈ runNumbers [] items →
    ∀ v : ℤ, min.val ≤ v → v ≤ max.val → v < number →
      ∃ other ∈ runNumbers [] items, Covers v other

theorem covered_iff (items : List RangeSpec) :
    (∀ v : ℤ, (∃ ri ∈ storedItems items, ri.min ≤ v ∧ v ≤ ri.max) ↔
      ∃ item ∈ items, item.Has v) ↔ ReadRightly items := by
  have hdigits : ∀ d ∈ ([] : List Byte), isdigit d = true := List.forall_mem_nil _
  by_cases hne : items = []
  · subst hne
    refine iff_of_false (fun hall => ?_) fun hright => hright.nonempty rfl
    obtain ⟨item, hitem, -⟩ := (hall 0).mp ⟨⟨0, 0⟩, List.mem_cons_self, le_rfl, le_rfl⟩
    cases hitem
  have hstored : ∀ v : ℤ, (∃ ri ∈ storedItems items, ri.min ≤ v ∧ v ≤ ri.max) ↔
      ∃ item ∈ runNumbers [] items, Covers v item := by
    intro v
    rw [storedItems, if_neg hne]
    constructor
    · rintro ⟨ri, hri, hv⟩
      obtain ⟨item, hitem, rfl⟩ := List.mem_map.mp hri
      exact ⟨item, hitem, hv⟩
    · rintro ⟨item, hitem, hv⟩
      exact ⟨taken item, List.mem_map_of_mem hitem, hv⟩
  simp only [hstored]
  constructor
  · intro hall
    refine ⟨hne, fun n number hn v hzero hv => (hall v).mp ⟨_, hn, hzero, hv⟩, ?_⟩
    intro min max number hrange v hmin hmax _
    exact (hall v).mpr ⟨.range min max, mem_of_mem_runNumbers hrange, hmin, hmax⟩
  · intro hright v
    constructor
    · rintro ⟨⟨item, number⟩, hitem, hmin, hmax⟩
      cases item with
      | single n => exact hright.singles n number hitem v hmin hmax
      | range min max =>
        have hfirst : (min.val : ℤ) ≤ number := first_le_number hdigits hitem
        exact ⟨.range min max, mem_of_mem_runNumbers hitem, hfirst.trans hmin, hmax⟩
    · rintro ⟨item, hitem, hv⟩
      obtain ⟨number, hnumber⟩ := exists_mem_runNumbers hitem []
      cases item with
      | single n =>
        have hfirst : (n.val : ℤ) ≤ number := first_le_number hdigits hnumber
        have hvalue : v = n.val := hv
        refine ⟨_, hnumber, ?_, ?_⟩
        · exact hvalue ▸ Int.natCast_nonneg n.val
        · exact hvalue ▸ hfirst
      | range min max =>
        by_cases hlow : v < number
        · exact hright.ranges min max number hnumber v hv.1 hv.2 hlow
        · exact ⟨_, hnumber, not_lt.mp hlow, hv.2⟩

/-- **What a test response is taken for.** Exactly the values of a list are supported if and only if
no number that its digits run together to does harm. -/
theorem supports_iff {lists : List (List RangeSpec)}
    (hcount : lists.length ≤ GSM_EXTRSP_MAX_TOKENS)
    (hitems : ∀ items ∈ lists, items.length ≤ GSM_EXTRSP_MAX_RANGES) {k : ℕ}
    {items : List RangeSpec} (hk : lists[k]? = some items) :
    ∃ er, extrspParse (renderLists lists) = .ok (some er) ∧
      ((∀ v, extrspSupports er k v = 1 ↔ ∃ item ∈ items, item.Has v) ↔ ReadRightly items) := by
  have hne : lists ≠ [] := by
    rintro rfl
    cases hk
  have htext : renderLists lists ≠ [] := by
    match lists, hne with
    | [first], _ => exact List.cons_ne_nil _ _
    | first :: next :: rest, _ => exact List.cons_ne_nil _ _
  have hroom : ([] : List GsmExtrspTok).length + lists.length ≤ GSM_EXTRSP_MAX_TOKENS := by
    rwa [List.length_nil, Nat.zero_add]
  have hloop := loop_renderLists hne hroom hitems
  refine ⟨{ tokens := lists.map listToken, nextToken := .zero }, ?_, ?_⟩
  · rw [extrspParse, if_neg htext, init_eq, hloop]
    rfl
  · have htoken : (lists.map listToken)[k]? = some (listToken items) := by
      rw [List.getElem?_map, hk]
      rfl
    rw [← covered_iff]
    exact forall_congr' fun v => by rw [extrspSupports_eq_one_iff htoken]

/-- `(0-3),(5)`: the first list is read rightly. -/
theorem supports_range : ∃ er,
    extrspParse (renderLists [[.range ⟨0, by decide⟩ ⟨3, by decide⟩], [.single ⟨5, by decide⟩]]) =
        .ok (some er) ∧
      ((∀ v, extrspSupports er 0 v = 1 ↔
        ∃ item ∈ [RangeSpec.range ⟨0, by decide⟩ ⟨3, by decide⟩], item.Has v) ↔
          ReadRightly [.range ⟨0, by decide⟩ ⟨3, by decide⟩]) :=
  supports_iff (by decide) (by decide) rfl

/-- `(3)` is taken for all values from 0 to 3. -/
theorem single_supportsBelow : ∃ er,
    extrspParse (renderLists [[.single ⟨3, by decide⟩]]) = .ok (some er) ∧
      extrspSupports er 0 2 = 1 ∧
      ¬∃ item ∈ [RangeSpec.single ⟨3, by decide⟩], item.Has 2 := by
  refine ⟨_, rfl, by decide, ?_⟩
  rintro ⟨item, hitem, hv⟩
  rw [List.mem_singleton.mp hitem] at hv
  exact absurd (show (2 : ℤ) = 3 from hv) (by decide)

end RangeSpec

end Openmoko.Gsmd
