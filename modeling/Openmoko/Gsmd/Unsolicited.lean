import Openmoko.Gsmd.Atcmd
import Openmoko.Library.Buffer

/-!
# The table of unsolicited codes (`unsolicited.c`)

A table of fixed size holds the prefixes of unsolicited codes and the functions that parse them; an
entry without a prefix ends it. An array is registered in front of what is there, so that vendor
plugins override the generic codes, and a code is parsed by the first entry that it matches.

The table is at any time the arrays that had room, the last one first.
-/

namespace Openmoko.Gsmd

def ENOMEM : ℤ := 12

/-- `ARRAY_SIZE(unsolicit)`. -/
def UNSOLICIT_SIZE : ℕ := 256

/-- What a handler gets as `param`. -/
inductive UnsolicitParam where
  | null
  -- what starts there in the line, or its terminator
  | inside (i : ℕ)
  -- two behind the null pointer
  | invalid
  deriving DecidableEq, Repr

abbrev UnsolicitHandler (S : Type) := List Byte → ℕ → UnsolicitParam → S → Option (ℤ × S)

/-- An entry of an array that is registered. -/
structure Unsolicit (S : Type) where
  pre : List Byte
  parse : UnsolicitHandler S

abbrev UnsolicitTable (S : Type) := Buffer (Unsolicit S)

inductive UnsolicitLog where
  | error (rc : ℤ) (buf : List Byte)
  | noParser (buf : List Byte)
  deriving DecidableEq, Repr

/-- What `unsolicited_parse` returns, leaves and logs. -/
structure UnsolicitResult (S : Type) where
  rc : ℤ
  gsmd : S
  logged : Option UnsolicitLog

section

variable {S : Type}

def unsolicit : UnsolicitTable S := Buffer.alloc UNSOLICIT_SIZE

def unsolicitParam (buf : List Byte) (len : ℕ) : UnsolicitParam :=
  match strchr buf 58 with
  | none => .invalid
  | some colon => if colon + 2 > len then .null else .inside (colon + 2)

def answerUnsolicit (buf : List Byte) (result : ℤ × S) : UnsolicitResult S :=
  { rc := result.1
    gsmd := result.2
    logged :=
      if result.1 = -EAGAIN then none
      else if result.1 < 0 then some (.error result.1 buf)
      else none }

/-- `unsolicited_parse`. `none` also stands for a table that does not end. -/
def parseUnsolicited (buf : List Byte) (len : ℕ) (g : S) :
    UnsolicitTable S → Option (UnsolicitResult S)
  | [] => none
  | none :: _ => some { rc := -ENOENT, gsmd := g, logged := some (.noParser buf) }
  | some i :: table =>
    if hasPrefix buf i.pre then
      (i.parse buf len (unsolicitParam buf len) g).map (answerUnsolicit buf)
    else parseUnsolicited buf len g table

def countUnsolicit : UnsolicitTable S → Option ℕ
  | [] => none
  | none :: _ => some 1
  | some _ :: table => (countUnsolicit table).map (· + 1)

/-- `memmove(&unsolicit[len], unsolicit, ..)` for `curlen` entries. -/
def moveUnsolicit (table : UnsolicitTable S) (len curlen : ℕ) : Option (UnsolicitTable S) :=
  if len + curlen ≤ table.length then
    some (table.take len ++ table.take curlen ++ table.drop (len + curlen))
  else none

def unsolicitedRegisterArray (table : UnsolicitTable S) (arr : List (Unsolicit S)) :
    Option (UnsolicitTable S × ℤ) := do
  let curlen ← countUnsolicit table
  if arr.length + curlen > UNSOLICIT_SIZE then return (table, -ENOMEM)
  let table ← moveUnsolicit table arr.length curlen
  let table ← table.writeAll 0 arr
  return (table, 0)

/-- Calls from start-up on, and what they return. -/
def registerArrays (table : UnsolicitTable S) :
    List (List (Unsolicit S)) → Option (UnsolicitTable S × List ℤ)
  | [] => some (table, [])
  | arr :: arrays => do
    let (table, rc) ← unsolicitedRegisterArray table arr
    let (table, rcs) ← registerArrays table arrays
    return (table, rc :: rcs)

/-- The arrays that are registered, the last one first. -/
abbrev Registered (S : Type) := List (List (Unsolicit S))

namespace Registered

variable (registered : Registered S)

/-- There is room for the array, and for the entry that ends the table. -/
def Fits (arr : List (Unsolicit S)) : Prop :=
  registered.flatten.length + arr.length < UNSOLICIT_SIZE

instance (arr : List (Unsolicit S)) : Decidable (registered.Fits arr) :=
  inferInstanceAs (Decidable (_ < _))

def register (arr : List (Unsolicit S)) : Registered S :=
  if registered.Fits arr then arr :: registered else registered

def rc (arr : List (Unsolicit S)) : ℤ := if registered.Fits arr then 0 else -ENOMEM

def registerAll (registered : Registered S) : List (List (Unsolicit S)) → Registered S × List ℤ
  | [] => (registered, [])
  | arr :: arrays =>
    let (last, rcs) := registerAll (registered.register arr) arrays
    (last, registered.rc arr :: rcs)

def handler (buf : List Byte) : Option (Unsolicit S) :=
  registered.findSome? fun arr => arr.find? fun i => hasPrefix buf i.pre

/-- One call of one handler, or none. -/
def parse (buf : List Byte) (len : ℕ) (g : S) : Option (UnsolicitResult S) :=
  match registered.handler buf with
  | some i => (i.parse buf len (unsolicitParam buf len) g).map (answerUnsolicit buf)
  | none => some { rc := -ENOENT, gsmd := g, logged := some (.noParser buf) }

end Registered

/-- The table is these arrays, one behind the other, and an entry without a prefix. -/
structure UnsolicitTable.Holds (table : UnsolicitTable S) (registered : Registered S) : Prop where
  length : table.length = UNSOLICIT_SIZE
  entries : ∃ rest, table = registered.flatten.map some ++ none :: rest

variable {table : UnsolicitTable S} {registered : Registered S} {arr : List (Unsolicit S)}

theorem holds_unsolicit : (unsolicit : UnsolicitTable S).Holds [] where
  length := Buffer.length_alloc _
  entries := ⟨List.replicate 255 none, rfl⟩

theorem countUnsolicit_eq (entries : List (Unsolicit S)) (rest : UnsolicitTable S) :
    countUnsolicit (entries.map some ++ none :: rest) = some (entries.length + 1) := by
  induction entries with
  | nil => rfl
  | cons i entries ih =>
    rw [List.map_cons, List.cons_append, countUnsolicit, ih]
    rfl

theorem moveUnsolicit_eq (entries : List (Unsolicit S)) {rest : UnsolicitTable S} {len : ℕ}
    (hroom : len ≤ rest.length) :
    ∃ front : UnsolicitTable S, front.length = len ∧
      moveUnsolicit (entries.map some ++ none :: rest) len (entries.length + 1) =
        some (front ++ (entries.map some ++ none :: rest.drop len)) := by
  set table : UnsolicitTable S := entries.map some ++ none :: rest with htable
  have hlength : table.length = entries.length + 1 + rest.length := by
    rw [htable, List.length_append, List.length_map, List.length_cons]
    omega
  have htake : table.take (entries.length + 1) = entries.map some ++ [none] := by
    rw [htable, List.append_cons]
    exact List.take_left' (by rw [List.length_append, List.length_map]; rfl)
  have hdrop : table.drop (entries.length + 1) = rest := by
    rw [htable, List.append_cons]
    exact List.drop_left' (by rw [List.length_append, List.length_map]; rfl)
  refine ⟨table.take len, by rw [List.length_take, hlength]; omega, ?_⟩
  rw [moveUnsolicit, if_pos (by omega), htake, Nat.add_comm len, ← List.drop_drop, hdrop,
    List.append_assoc, ← List.append_cons]

theorem UnsolicitTable.Holds.register (h : table.Holds registered) (arr : List (Unsolicit S)) :
    ∃ table', unsolicitedRegisterArray table arr = some (table', registered.rc arr) ∧
      table'.Holds (registered.register arr) ∧ (¬registered.Fits arr → table' = table) := by
  obtain ⟨rest, rfl⟩ := h.entries
  have hlength := h.length
  rw [List.length_append, List.length_map, List.length_cons] at hlength
  by_cases hfits : registered.Fits arr
  · have hroom : registered.flatten.length + arr.length < UNSOLICIT_SIZE := hfits
    obtain ⟨front, hfront, hmove⟩ := moveUnsolicit_eq registered.flatten
      (show arr.length ≤ rest.length by omega)
    have hwrite : Buffer.writeAll
        (front ++ (registered.flatten.map some ++ none :: rest.drop arr.length)) 0 arr =
          some (arr.map some ++ (registered.flatten.map some ++ none :: rest.drop arr.length)) :=
      Buffer.writeAll_over [] hfront
    have hregister : registered.register arr = arr :: registered := if_pos hfits
    refine ⟨arr.map some ++ (registered.flatten.map some ++ none :: rest.drop arr.length),
      ?_, ⟨?_, ?_⟩, fun hnot => absurd hfits hnot⟩
    · rw [unsolicitedRegisterArray, countUnsolicit_eq, Option.bind_eq_bind, Option.bind_some,
        if_neg (by omega), hmove, Option.bind_eq_bind, Option.bind_some, hwrite, Registered.rc,
        if_pos hfits]
      rfl
    · rw [List.length_append, List.length_map, List.length_append, List.length_map,
        List.length_cons, List.length_drop]
      omega
    · refine ⟨rest.drop arr.length, ?_⟩
      rw [hregister, List.flatten_cons, List.map_append, List.append_assoc]
  · have hfull : ¬registered.flatten.length + arr.length < UNSOLICIT_SIZE := hfits
    refine ⟨_, ?_, ?_, fun _ => rfl⟩
    · rw [unsolicitedRegisterArray, countUnsolicit_eq, Option.bind_eq_bind, Option.bind_some,
        if_pos (by omega), Registered.rc, if_neg hfits]
      rfl
    · rw [Registered.register, if_neg hfits]
      exact h

theorem UnsolicitTable.Holds.registerAll (h : table.Holds registered)
    (arrays : List (List (Unsolicit S))) :
    ∃ table', registerArrays table arrays = some (table', (registered.registerAll arrays).2) ∧
      table'.Holds (registered.registerAll arrays).1 := by
  induction arrays generalizing table registered with
  | nil => exact ⟨table, rfl, h⟩
  | cons arr arrays ih =>
    obtain ⟨next, hnext, hholds, -⟩ := h.register arr
    obtain ⟨last, hlast, hlastHolds⟩ := ih hholds
    refine ⟨last, ?_, hlastHolds⟩
    exact Option.bind_eq_some_iff.mpr ⟨_, hnext, Option.bind_eq_some_iff.mpr ⟨_, hlast, rfl⟩⟩

theorem find?_flatten (registered : Registered S) (p : Unsolicit S → Bool) :
    registered.flatten.find? p = registered.findSome? (·.find? p) := by
  induction registered with
  | nil => rfl
  | cons arr registered ih =>
    rw [List.flatten_cons, List.find?_append, List.findSome?_cons, ih]
    cases arr.find? p <;> rfl

theorem UnsolicitTable.Holds.parse (h : table.Holds registered) (buf : List Byte) (len : ℕ)
    (g : S) : parseUnsolicited buf len g table = registered.parse buf len g := by
  obtain ⟨rest, rfl⟩ := h.entries
  rw [Registered.parse, Registered.handler, ← find?_flatten]
  clear h
  induction registered.flatten with
  | nil => rfl
  | cons i entries ih =>
    rw [List.map_cons, List.cons_append, parseUnsolicited, List.find?_cons]
    cases hasPrefix buf i.pre with
    | true => rfl
    | false => exact ih

/-- **The table.** However many arrays of whatever sizes are registered, the table ends within its
bounds, an array that does not fit is refused and changes nothing, and a line goes to one handler:
the first that matches in the last array that has one. -/
theorem registerArrays_holds (arrays : List (List (Unsolicit S))) :
    ∃ table, registerArrays unsolicit arrays =
        some (table, (Registered.registerAll [] arrays).2) ∧
      table.Holds (Registered.registerAll [] arrays).1 ∧
      (∀ arr, ¬(Registered.registerAll [] arrays).1.Fits arr →
        unsolicitedRegisterArray table arr = some (table, -ENOMEM)) ∧
      ∀ buf len g, parseUnsolicited buf len g table =
        (Registered.registerAll [] arrays).1.parse buf len g := by
  obtain ⟨table, hregister, hholds⟩ := holds_unsolicit.registerAll arrays
  refine ⟨table, hregister, hholds, fun arr hfull => ?_, fun buf len g => hholds.parse buf len g⟩
  obtain ⟨table', hone, -, hsame⟩ := hholds.register arr
  rw [hone, hsame hfull, Registered.rc, if_neg hfull]

end

end Openmoko.Gsmd
