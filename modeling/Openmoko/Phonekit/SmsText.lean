import Openmoko.Library.CString

/-!
# Texts of short messages (`moko-sms.c`)

`moko_sms_send` puts a text into the 7 bit alphabet if it can, and `on_incoming_sms` makes UTF-8 of
the septets again. A switch is the table of its cases; a text is a list of characters.
-/

namespace Openmoko.Phonekit

def utf8 (text : List Char) : List Byte := text.flatMap String.utf8EncodeChar

def utf16Char (c : Char) : List UInt16 :=
  if c.toNat < 0x10000 then [UInt16.ofNat c.toNat]
  else
    [UInt16.ofNat (0xd800 + (c.toNat - 0x10000) / 0x400),
      UInt16.ofNat (0xdc00 + (c.toNat - 0x10000) % 0x400)]

def utf16 (text : List Char) : List UInt16 := text.flatMap utf16Char

def smscharsCases : List (UInt16 × List Byte) :=
  [(0x000c, [0x1b, 0x0a]), (0x0024, [0x02]), (0x0040, [0x80]), (0x005b, [0x1b, 0x3c]),
    (0x005c, [0x1b, 0x2f]), (0x005d, [0x1b, 0x3e]), (0x005e, [0x1b, 0x14]), (0x005f, [0x11]),
    (0x007b, [0x1b, 0x28]), (0x007c, [0x1b, 0x40]), (0x007d, [0x1b, 0x29]),
    (0x007e, [0x1b, 0x3d]), (0x00a1, [0x40]), (0x00a3, [0x01]), (0x00a4, [0x24]),
    (0x00a5, [0x03]), (0x00a7, [0x5f]), (0x00bf, [0x60]), (0x00c4, [0x5b]), (0x00c5, [0x0e]),
    (0x00c6, [0x1c]), (0x00c9, [0x1f]), (0x00d1, [0x5d]), (0x00d6, [0x5c]), (0x00d8, [0x0b]),
    (0x00dc, [0x5e]), (0x00df, [0x1e]), (0x00e0, [0x7f]), (0x00e4, [0x7b]), (0x00e5, [0x0f]),
    (0x00e6, [0x1d]), (0x00e7, [0x09]), (0x00e8, [0x04]), (0x00e9, [0x05]), (0x00ec, [0x07]),
    (0x00f1, [0x7d]), (0x00f2, [0x08]), (0x00f6, [0x7c]), (0x00f8, [0x0c]), (0x00f9, [0x06]),
    (0x00fc, [0x7e]), (0x0391, [0x41]), (0x0392, [0x42]), (0x0393, [0x13]), (0x0394, [0x10]),
    (0x0395, [0x45]), (0x0396, [0x5a]), (0x0397, [0x48]), (0x0398, [0x19]), (0x0399, [0x49]),
    (0x039a, [0x4b]), (0x039b, [0x14]), (0x039c, [0x4d]), (0x039d, [0x4e]), (0x039e, [0x1a]),
    (0x039f, [0x4f]), (0x03a0, [0x16]), (0x03a1, [0x50]), (0x03a3, [0x18]), (0x03a4, [0x54]),
    (0x03a5, [0x55]), (0x03a6, [0x12]), (0x03a7, [0x58]), (0x03a8, [0x17]), (0x03a9, [0x15]),
    (0x20ac, [0x1b, 0x65])]

def smscharsOf (d : UInt16) : Option (List Byte) :=
  match smscharsCases.lookup d with
  | some chars => some chars
  | none =>
    if d = 0x000a ∨ d = 0x000d ∨ (d ≥ 0x0020 ∧ d < 0x005b) ∨ (d ≥ 0x0061 ∧ d < 0x0080) then
      some [d.toUInt8]
    else none

def smscharsLoop (smschars : List Byte) : List UInt16 → List Byte × Bool
  | [] => (smschars, true)
  | d :: message16 =>
    match smscharsOf d with
    | none => (smschars, false)
    | some chars =>
      if (smschars ++ chars).length > 160 then (smschars ++ chars, true)
      else smscharsLoop (smschars ++ chars) message16

inductive SmsText where
  | tooLong
  -- for `packing_7bit_character`, which takes the lower seven bits
  | gsm7bit (smschars : List Byte)
  | utf8 (data : List Byte)
  deriving DecidableEq, Repr

def mokoSmsText (message : List Char) : SmsText :=
  let msgLength := (utf8 message).length
  let (smschars, gsm7bit) := smscharsLoop [] (utf16 message)
  if (smschars.length > 160 ∧ gsm7bit) ∨ (msgLength > 140 ∧ !gsm7bit) then .tooLong
  else if gsm7bit then .gsm7bit smschars
  else .utf8 (utf8 message)

def septets (smschars : List Byte) : List Byte := smschars.map (· &&& 0x7f)

def ESCAPE : Byte := 0x1b

def gsmdefaultCases : List (Byte × List Byte) :=
  [(0x00, [0x40]), (0x01, [0xc2, 0xa3]), (0x02, [0x24]), (0x03, [0xc2, 0xa5]),
    (0x04, [0xc3, 0xa8]), (0x05, [0xc3, 0xa9]), (0x06, [0xc3, 0xb9]), (0x07, [0xc3, 0xac]),
    (0x08, [0xc3, 0xb2]), (0x09, [0xc3, 0xa7]), (0x0b, [0xc3, 0x98]), (0x0c, [0xc3, 0xb8]),
    (0x0e, [0xc3, 0x85]), (0x0f, [0xc3, 0xa5]), (0x10, [0xce, 0x94]), (0x11, [0x5f]),
    (0x12, [0xce, 0xa6]), (0x13, [0xce, 0x93]), (0x14, [0xce, 0x9b]), (0x15, [0xce, 0xa9]),
    (0x16, [0xce, 0xa0]), (0x17, [0xce, 0xa8]), (0x18, [0xce, 0xa3]), (0x19, [0xce, 0x98]),
    (0x1a, [0xce, 0x9e]), (0x1c, [0xc3, 0x86]), (0x1d, [0xc3, 0xa6]), (0x1e, [0xc3, 0x9f]),
    (0x1f, [0xc3, 0x89]), (0x24, [0xc2, 0xa4]), (0x40, [0xc2, 0xa1]), (0x5b, [0xc3, 0x84]),
    (0x5c, [0xc3, 0x96]), (0x5d, [0xc3, 0x91]), (0x5e, [0xc3, 0x9c]), (0x5f, [0xc2, 0xa7]),
    (0x60, [0xc2, 0xbf]), (0x7b, [0xc3, 0xa4]), (0x7c, [0xc3, 0xb6]), (0x7d, [0xc3, 0xb1]),
    (0x7e, [0xc3, 0xbc]), (0x7f, [0xc3, 0xa0])]

def escapeCases : List (Byte × List Byte) :=
  [(0x0a, [0x0c]), (0x14, [0x5e]), (0x28, [0x7b]), (0x29, [0x7d]), (0x2f, [0x5c]),
    (0x3c, [0x5b]), (0x3d, [0x7e]), (0x3e, [0x5d]), (0x40, [0x7c]), (0x65, [0xe2, 0x82, 0xac])]

def NBSP : List Byte := [0xc2, 0xa0]

def gsmdefaultOf (c : Byte) : List Byte := (gsmdefaultCases.lookup c).getD [c]

/-- The loop over `gsmdefault`. Behind its end there are zeros. -/
def gsmdefaultLoop : List Byte → List Byte
  | [] => []
  | [c] => if c = ESCAPE then NBSP else gsmdefaultOf c
  | c :: d :: gsmdefault =>
    if c = ESCAPE then
      match escapeCases.lookup d with
      | some bytes => bytes ++ gsmdefaultLoop gsmdefault
      | none => NBSP ++ gsmdefaultLoop (d :: gsmdefault)
    else gsmdefaultOf c ++ gsmdefaultLoop (d :: gsmdefault)

end Openmoko.Phonekit
