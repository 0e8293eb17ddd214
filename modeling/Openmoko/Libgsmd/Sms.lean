import Openmoko.Gsmd.SmsPdu

/-!
# Septets

`libgsmd/libgsmd_sms.c`: packing a string of 7-bit characters into octets, and unpacking the user
data of a message. The packing loop stores its octets one after the other from the start of `data`;
those that do not fit are what it writes behind the array.
-/

namespace Openmoko.Libgsmd

open Openmoko.Gsmd

def LGSM_SMS_DATA_MAXLEN : Nat := 140

structure LgsmSms where
  addr : List Byte
  alpha : Byte
  data : List Byte
  data_length : data.length = LGSM_SMS_DATA_MAXLEN + 1
  length : Nat
  askDs : Bool
  deriving DecidableEq

/-- `src[i]`, up to the terminator. -/
def charAt (src : List Byte) (i : Nat) : Byte := src.getD i NUL

/-- The loop of `packing_7bit_character`: the `i` it ends with and the octets it stores from
`data[j]` on. -/
def packLoop (src : List Byte) (i j shift : Nat) : Nat × List Byte :=
  if i < src.length then
    let ch1 := (charAt src i &&& 0x7F) >>> UInt8.ofNat shift
    let ch2 := (charAt src (i + 1) &&& 0x7F) <<< UInt8.ofNat (7 - shift)
    if LGSM_SMS_DATA_MAXLEN + 1 < j then (i, [])
    else
      let rest :=
        if shift + 1 = 7 then packLoop src (i + 2) (j + 1) 0
        else packLoop src (i + 1) (j + 1) (shift + 1)
      (rest.1, (ch1 ||| ch2) :: rest.2)
  else (i, [])
  termination_by src.length - i

/-- What `packing_7bit_character` leaves in `dest`, writes behind `dest->data`, and returns. -/
structure Packing where
  dest : LgsmSms
  past : List Byte
  ret : Nat

def overwrite (data octets : List Byte) : List Byte :=
  octets.take data.length ++ data.drop octets.length

theorem overwrite_length (data octets : List Byte) :
    (overwrite data octets).length = data.length := by
  rw [overwrite, List.length_append, List.length_take, List.length_drop]
  omega

def packing7bitCharacter (src : List Byte) (dest : LgsmSms) : Packing :=
  let loop := packLoop src 0 0 0
  { dest :=
      { dest with
        alpha := ALPHABET_DEFAULT
        data := overwrite dest.data loop.2
        data_length := (overwrite_length ..).trans dest.data_length
        length := loop.1 }
    past := loop.2.drop (LGSM_SMS_DATA_MAXLEN + 1)
    ret := loop.2.length }

def septet (data : List Byte) (i : Nat) : Except PduFault Byte := do
  let high ← octet data ((i * 7 + 7) / 8)
  let low ← octet data (i * 7 / 8)
  return ((high <<< UInt8.ofNat (7 - (i * 7 + 7) % 8)) ||| (low >>> UInt8.ofNat (i * 7 % 8))) &&&
    0x7f

def headerSeptets (src : GsmdSms) : Nat :=
  if src.hasHeader then ((src.data.getD 0 0).toNat * 8 + 14) / 7 else 0

def unpacking7bitCharacter (src : GsmdSms) : Except PduFault (List Byte) :=
  (List.range' (headerSeptets src) (src.length.toNat - headerSeptets src)).mapM (septet src.data)

end Openmoko.Libgsmd
