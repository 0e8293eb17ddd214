import Mathlib.Data.List.Basic
import Mathlib.Data.List.TakeWhile

/-!
# Bytes and C strings

A C string is a list of bytes without its terminator, and memory that holds one is any list of
bytes: what a string function sees of it ends at the first NUL.
-/

namespace Openmoko

abbrev Byte := UInt8

instance : LawfulBEq (List Byte) := inferInstance

def ascii (s : String) : List Byte := s.toList.map fun c => UInt8.ofNat c.toNat

def NUL : Byte := 0
def LF : Byte := 10
def CR : Byte := 13

/-- The string that starts where the memory starts. -/
def cstr (mem : List Byte) : List Byte := mem.takeWhile (· ≠ NUL)

/-- `strchr` for a byte other than NUL, as an offset. -/
def strchr (s : List Byte) (c : Byte) : Option Nat := s.findIdx? (· == c)

/-- `strchr(s, c) != NULL`; the search for NUL always finds the terminator. -/
def strchrFinds (s : List Byte) (c : Byte) : Bool := c == NUL || s.contains c

/-- `strncmp(s, t, n) == 0` for two C strings. -/
def strncmpEq (s t : List Byte) (n : Nat) : Bool := s.take n == t.take n

/-- `strncmp(s, lit, strlen(lit)) == 0`. -/
def hasPrefix (s lit : List Byte) : Bool := lit.isPrefixOf s

/-- `strcmp(s, t)`; only its sign is promised. -/
def strcmp : List Byte → List Byte → Int
  | [], [] => 0
  | [], d :: _ => -(d.toNat : Int)
  | c :: _, [] => c.toNat
  | c :: s, d :: t => if c = d then strcmp s t else (c.toNat : Int) - d.toNat

/-- `strncpy(dst, s, n)`: exactly `n` bytes, padded with NULs. -/
def strncpy (s : List Byte) (n : Nat) : List Byte := (s ++ List.replicate n NUL).take n

def isdigit (c : Byte) : Bool := 48 ≤ c && c ≤ 57

def isupper (c : Byte) : Bool := 65 ≤ c && c ≤ 90

def islower (c : Byte) : Bool := 97 ≤ c && c ≤ 122

def isalpha (c : Byte) : Bool := isupper c || islower c

def isspace (c : Byte) : Bool := c == 32 || (9 ≤ c && c ≤ 13)

def decimalValue (digits : List Byte) : Nat :=
  digits.foldl (fun acc d => 10 * acc + (d.toNat - 48)) 0

/-- What a C implementation chooses: whether `char` is signed, and `ULONG_MAX`. -/
structure Platform where
  charSigned : Bool
  ulongMax : Nat
  deriving DecidableEq, Repr

/-- `strtoul(s, &end, 10)`: the value and what `end` points to. -/
def strtoul (platform : Platform) (s : List Byte) : Nat × List Byte :=
  let start := s.dropWhile isspace
  let negative := start.head? == some 45
  let body := if negative || start.head? == some 43 then start.tail else start
  let digits := body.takeWhile isdigit
  if digits = [] then (0, s)
  else
    let value := decimalValue digits
    let result :=
      if platform.ulongMax < value then platform.ulongMax
      else if negative then (platform.ulongMax + 1 - value) % (platform.ulongMax + 1)
      else value
    (result, body.dropWhile isdigit)

/-- `atoi(s)`, where the number fits in an `int`. -/
def atoi (s : List Byte) : Int :=
  let start := s.dropWhile isspace
  let negative := start.head? == some 45
  let body := if negative || start.head? == some 43 then start.tail else start
  let value : Int := decimalValue (body.takeWhile isdigit)
  if negative then -value else value

variable {s : List Byte}

theorem noSpace_of_all (hs : s.all (!isspace ·) = true) : ∀ b ∈ s, isspace b = false := by
  intro b hb
  simpa using List.all_eq_true.mp hs b hb

theorem cstr_append_nul (hs : NUL ∉ s) (rest : List Byte) : cstr (s ++ NUL :: rest) = s := by
  have hall : ∀ b ∈ s, (decide (b ≠ NUL)) = true := by
    intro b hb
    exact decide_eq_true fun heq => hs (heq ▸ hb)
  rw [cstr, List.takeWhile_append_of_pos hall]
  simp

theorem cstr_eq_self (hs : NUL ∉ s) : cstr s = s := by
  rw [cstr, List.takeWhile_eq_self_iff]
  intro b hb
  exact decide_eq_true fun heq => hs (heq ▸ hb)

theorem nul_notMem_cstr (mem : List Byte) : NUL ∉ cstr mem := by
  intro hmem
  simpa using List.mem_takeWhile_imp hmem

theorem strchr_eq_none_iff {c : Byte} : strchr s c = none ↔ c ∉ s := by
  rw [strchr, List.findIdx?_eq_none_iff]
  constructor
  · intro hall hmem
    simpa using hall c hmem
  · intro hnot b hb
    simpa using fun heq : b = c => hnot (heq ▸ hb)

theorem strchr_append_cons {before : List Byte} {c : Byte} (hnot : c ∉ before)
    (after : List Byte) : strchr (before ++ c :: after) c = some before.length := by
  have hnone : strchr before c = none := strchr_eq_none_iff.mpr hnot
  rw [strchr] at hnone ⊢
  simp [List.findIdx?_append, hnone, List.findIdx?_cons]

@[simp]
theorem strncpy_length (s : List Byte) (n : Nat) : (strncpy s n).length = n := by
  simp [strncpy]

theorem strncpy_of_length_le {n : Nat} (hle : s.length ≤ n) :
    strncpy s n = s ++ List.replicate (n - s.length) NUL := by
  rw [strncpy, List.take_append, List.take_of_length_le hle, List.take_replicate]
  congr 2
  omega

end Openmoko
