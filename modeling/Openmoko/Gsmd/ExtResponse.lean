import Openmoko.Gsmd.Usock
import Openmoko.Library.Decimal

/-!
# Extended responses

`extrsp_parse` and `extrsp_supports` of `gsmd/ext_response.c`. The response starts out zeroed and is
filled from the front, so the model keeps the tokens below `num_tokens` and the one at that index,
which is being written; the items of a range likewise. `buf` is zeroed from `cur_buf` on, and the
model keeps what is before it. A store or a read that leaves an array is an outcome of its own.
-/

namespace Openmoko.Gsmd

def GSM_EXTRSP_MAX_TOKENS : ℕ := 16
def GSM_EXTRSP_MAX_RANGES : ℕ := 16
def GSM_EXTRSP_MAX_STRBUF : ℕ := 64

def EXTRSP_BUF_SIZE : ℕ := 512

namespace Extrsp

def QUOTE : Byte := 34
def OPEN : Byte := 40
def CLOSE : Byte := 41
def COMMA : Byte := 44
def DASH : Byte := 45

def isblank (c : Byte) : Bool := c == 32 || c == 9

def INT_MAX : ℤ := 2147483647

end Extrsp

open Extrsp

structure GsmExtrspRangeItem where
  min : ℤ
  max : ℤ
  deriving DecidableEq, Repr

inductive GsmExtrspTokType where
  | none
  | empty
  | numeric
  | string
  | range
  deriving DecidableEq, Repr

/-- A token. Only the member of the union `u` that belongs to its type is ever written. -/
structure GsmExtrspTok where
  type : GsmExtrspTokType
  /-- `u.range.item` below `num_items`, and the item at that index. -/
  items : List GsmExtrspRangeItem
  nextItem : GsmExtrspRangeItem
  string : List Byte
  numeric : ℤ
  deriving DecidableEq, Repr

namespace GsmExtrspTok

def zero : GsmExtrspTok :=
  { type := .none, items := [], nextItem := ⟨0, 0⟩, string := [], numeric := 0 }

def numItems (tok : GsmExtrspTok) : ℕ := tok.items.length

end GsmExtrspTok

structure GsmExtrsp where
  tokens : List GsmExtrspTok
  nextToken : GsmExtrspTok
  deriving DecidableEq, Repr

def GsmExtrsp.numTokens (er : GsmExtrsp) : ℕ := er.tokens.length

def extrspSupports (er : GsmExtrsp) (index value : ℤ) : ℤ :=
  -- `num_tokens` is unsigned, so a negative index is a large one
  if index < 0 then -EINVAL
  else
    match er.tokens[index.toNat]? with
    | none => -EINVAL
    | some tok =>
      if tok.type ≠ .range then -EINVAL
      else if tok.items.any fun ri => ri.min ≤ value && value ≤ ri.max then 1
      else 0

inductive ExtrspState where
  | idle
  | tokenString
  | tokenStringLastquote
  | tokenNumeric
  | tokenRange
  deriving DecidableEq, Repr

/-- What leaves its array: a token, an item of a range, a character of `buf`, or a read of the text
in `buf` when all of it is filled. -/
inductive ExtrspFault where
  | token
  | item
  | scratch
  | unterminated
  deriving DecidableEq, Repr

structure ExtrspParser where
  er : GsmExtrsp
  state : ExtrspState
  buf : List Byte
  deriving DecidableEq, Repr

namespace ExtrspParser

def init : ExtrspParser :=
  { er := { tokens := [], nextToken := .zero }, state := .idle, buf := [] }

variable (p : ExtrspParser)

def store (tok : GsmExtrspTok) : Except ExtrspFault ExtrspParser :=
  if p.er.numTokens < GSM_EXTRSP_MAX_TOKENS then .ok { p with er := { p.er with nextToken := tok } }
  else .error .token

/-- `er->num_tokens++` -/
def complete : ExtrspParser :=
  { p with er := { tokens := p.er.tokens ++ [p.er.nextToken], nextToken := .zero } }

/-- `*cur_buf = *cur; cur_buf++` -/
def append (c : Byte) : Except ExtrspFault ExtrspParser :=
  if p.buf.length < EXTRSP_BUF_SIZE then .ok { p with buf := p.buf ++ [c] } else .error .scratch

def text : Except ExtrspFault (List Byte) :=
  if p.buf.length < EXTRSP_BUF_SIZE then .ok p.buf else .error .unterminated

/-- `atoi(buf)`, where a `long` has 32 bits and `strtol` stops at its largest value. -/
def number : Except ExtrspFault ℤ := do
  let text ← p.text
  return min (atoi text) INT_MAX

/-- A store to `cur_token->u.range.item[num_items]`. -/
def storeItem (item : GsmExtrspRangeItem) : Except ExtrspFault ExtrspParser :=
  if p.er.nextToken.numItems < GSM_EXTRSP_MAX_RANGES then
    p.store { p.er.nextToken with nextItem := item }
  else .error .item

/-- `cur_token->u.range.item[num_items].max = atoi(buf)` and `num_items++`. -/
def endItem : Except ExtrspFault ExtrspParser := do
  let max ← p.number
  let p ← p.storeItem { p.er.nextToken.nextItem with max := max }
  p.store { p.er.nextToken with
    items := p.er.nextToken.items ++ [p.er.nextToken.nextItem], nextItem := ⟨0, 0⟩ }

def step (c : Byte) : Except ExtrspFault ExtrspParser :=
  match p.state with
  | .idle =>
    let p := { p with buf := [] }
    if isblank c then .ok p
    else if c = QUOTE then do
      let p ← p.store { p.er.nextToken with type := .string }
      return { p with state := .tokenString }
    else if c = OPEN then do
      let p ← p.store { p.er.nextToken with type := .range }
      return { p with state := .tokenRange }
    else if isdigit c then do
      let p ← p.store { p.er.nextToken with type := .numeric }
      let p ← p.append c
      return { p with state := .tokenNumeric }
    else if c = COMMA then do
      let p ← p.store { p.er.nextToken with type := .empty }
      return p.complete
    else .ok p
  | .tokenNumeric =>
    if c = COMMA then do
      let numeric ← p.number
      let p ← p.store { p.er.nextToken with numeric := numeric }
      return { p.complete with state := .idle }
    else if isdigit c then p.append c
    else .ok p
  | .tokenString =>
    if c = QUOTE then do
      let text ← p.text
      let p ← p.store { p.er.nextToken with string := text.take (GSM_EXTRSP_MAX_STRBUF - 1) }
      return { p.complete with state := .tokenStringLastquote }
    else p.append c
  | .tokenStringLastquote =>
    if c = COMMA then .ok { p with state := .idle } else .ok p
  | .tokenRange =>
    if isdigit c then p.append c
    else if c = DASH then do
      let min ← p.number
      let p ← p.storeItem { p.er.nextToken.nextItem with min := min }
      return { p with buf := [] }
    else if c = COMMA then p.endItem
    else if c = CLOSE then do
      let p ← p.endItem
      return { p.complete with state := .tokenStringLastquote }
    else .ok p

def loop (p : ExtrspParser) : List Byte → Except ExtrspFault GsmExtrsp
  | [] =>
    if p.state = .tokenNumeric then do
      let numeric ← p.number
      let p ← p.store { p.er.nextToken with numeric := numeric }
      return p.complete.er
    else .ok p.er
  | c :: input => do
    let p ← p.step c
    p.loop input

end ExtrspParser

/-- The response, or NULL for the empty string. -/
def extrspParse (input : List Byte) : Except ExtrspFault (Option GsmExtrsp) :=
  if input = [] then .ok none
  else do
    let er ← ExtrspParser.init.loop input
    return some er

end Openmoko.Gsmd
