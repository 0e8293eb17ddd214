import Openmoko.Library.CString
import Openmoko.Library.Trie

/-!
# Looking up contacts by the start of a number (`moko-contacts.c`)

`add_number` enters a contact at every node along its number, as long as the node has fewer than
three; `moko_contacts_fuzzy_lookup` walks along the query and returns the list of the last node. A
node has eleven children, one for every digit and one for all other characters. `NULL` is both the
empty list and no node; `parent` is not looked at.
-/

namespace Openmoko.Phonekit

structure MokoContactEntry where
  desc : List Byte
  number : List Byte
  contact : Nat
  deriving DecidableEq, Repr

abbrev Digit := Trie (Fin 11) MokoContactEntry

def newDigit : Digit := .empty

/-- `n = c - '0'; if (n < 0 || n > 9) n = 10`. -/
def digitIndex (c : Byte) : Fin 11 :=
  if h : 48 ≤ c.toNat ∧ c.toNat ≤ 57 then ⟨c.toNat - 48, by omega⟩ else 10

def addNumberFrom (entry : MokoContactEntry) : List Byte → Digit → Digit
  | [], cur => cur
  | c :: number, cur =>
    let n := digitIndex c
    match cur.children n with
    | some next =>
      let next :=
        if next.values.length < 3 then .node next.children (next.values ++ [entry]) else next
      .node (Function.update cur.children n (some (addNumberFrom entry number next))) cur.values
    | none =>
      let next := newDigit
      let next := .node next.children (next.values ++ [entry])
      .node (Function.update cur.children n (some (addNumberFrom entry number next))) cur.values

def addNumber (start : Option Digit) (entry : MokoContactEntry) : Option Digit :=
  some (addNumberFrom entry (cstr entry.number) (start.getD newDigit))

def lookupFrom (cur : Digit) : List Byte → List MokoContactEntry
  | [] => []
  | c :: number =>
    match cur.children (digitIndex c) with
    | none => []
    | some next => if number = [] then next.values else lookupFrom next number

def mokoContactsFuzzyLookup (start : Option Digit) (number : Option (List Byte)) :
    List MokoContactEntry :=
  match start, number with
  | some cur, some number => lookupFrom cur (cstr number)
  | _, _ => []

def digitPath (number : List Byte) : List (Fin 11) := number.map digitIndex

theorem addNumberFrom_eq_insert (entry : MokoContactEntry) (number : List Byte) (cur : Digit) :
    addNumberFrom entry number cur = cur.insert 3 entry (digitPath number) := by
  induction number generalizing cur with
  | nil => rfl
  | cons c number ih =>
    simp only [addNumberFrom, digitPath, List.map_cons, Trie.insert, Trie.child, ih]
    cases hchild : cur.children (digitIndex c) with
    | none => simp [Trie.push, newDigit, Trie.empty]
    | some next =>
      by_cases hroom : next.values.length < 3
      · simp [Trie.push, hroom]
      · obtain ⟨children, values⟩ := next
        simp only [Trie.values_node] at hroom
        simp [Trie.push, hroom]

theorem lookupFrom_eq_valuesAt (cur : Digit) {number : List Byte} (hne : number ≠ []) :
    lookupFrom cur number = cur.valuesAt (digitPath number) := by
  induction number generalizing cur with
  | nil => exact absurd rfl hne
  | cons c number ih =>
    simp only [lookupFrom, digitPath, List.map_cons, Trie.valuesAt_cons, Trie.child]
    cases hchild : cur.children (digitIndex c) with
    | none => simp
    | some next =>
      by_cases hlast : number = []
      · simp [hlast]
      · simpa [hlast, digitPath] using ih next hlast

def identify (c : Byte) : Option Byte := if isdigit c then some c else none

/-- The number begins with the query, up to which characters that are not digits they have. -/
def startsWith (query number : List Byte) : Prop := query.map identify <+: number.map identify

instance (query number : List Byte) : Decidable (startsWith query number) :=
  inferInstanceAs (Decidable (_ <+: _))

theorem isdigit_iff (c : Byte) : isdigit c = true ↔ 48 ≤ c.toNat ∧ c.toNat ≤ 57 := by
  simp [isdigit, UInt8.le_iff_toNat_le]

theorem digitIndex_eq_iff (c d : Byte) : digitIndex c = digitIndex d ↔ identify c = identify d := by
  unfold digitIndex identify
  simp only [isdigit_iff]
  by_cases hc : 48 ≤ c.toNat ∧ c.toNat ≤ 57 <;> by_cases hd : 48 ≤ d.toNat ∧ d.toNat ≤ 57
  · simp only [hc, hd, and_self, dif_pos, if_pos, Fin.mk.injEq, Option.some.injEq]
    rw [← UInt8.toNat_inj]
    omega
  · simp [hc, hd, Fin.ext_iff]
    omega
  · simp [hc, hd, Fin.ext_iff]
    omega
  · simp [hc, hd]

theorem digitPath_prefix_iff (query number : List Byte) :
    digitPath query <+: digitPath number ↔ startsWith query number := by
  unfold startsWith digitPath
  induction query generalizing number with
  | nil => simp
  | cons c query ih =>
    cases number with
    | nil => simp
    | cons d number => simp only [List.map_cons, List.cons_prefix_cons, digitIndex_eq_iff, ih]

variable (entries : List MokoContactEntry)

/-- What `add_number` makes of the entries, from `start == NULL` on. -/
def addNumbers : Option Digit := entries.foldl addNumber none

theorem addNumbers_eq :
    (addNumbers entries).getD newDigit =
      entries.foldl (fun t entry => t.insert 3 entry (digitPath (cstr entry.number))) Trie.empty ∧
    (addNumbers entries = none ↔ entries = []) := by
  induction entries using List.reverseRecOn with
  | nil => exact ⟨rfl, by simp [addNumbers]⟩
  | append_singleton entries entry ih =>
    have hlast : addNumbers (entries ++ [entry]) = addNumber (addNumbers entries) entry := by
      simp [addNumbers]
    rw [hlast, List.foldl_concat, ← ih.1, ← addNumberFrom_eq_insert]
    exact ⟨rfl, by simp [addNumber]⟩

/-- **Lookup.** Whatever was entered, a query gets the first three entries, in the order in which
they were entered, whose number begins with it; the empty query gets none. -/
theorem fuzzyLookup_eq (query : List Byte) :
    mokoContactsFuzzyLookup (addNumbers entries) (some query) =
      if cstr query = [] then []
      else (entries.filter fun entry => startsWith (cstr query) (cstr entry.number)).take 3 := by
  obtain ⟨htrie, hnone⟩ := addNumbers_eq entries
  cases hstart : addNumbers entries with
  | none =>
    rw [hnone.mp hstart]
    simp [mokoContactsFuzzyLookup]
  | some start =>
    rw [hstart, Option.getD_some] at htrie
    simp only [mokoContactsFuzzyLookup]
    by_cases hquery : cstr query = []
    · simp [hquery, lookupFrom]
    · have hpath : digitPath (cstr query) ≠ [] := by simpa [digitPath] using hquery
      rw [if_neg hquery, lookupFrom_eq_valuesAt start hquery, htrie,
        Trie.valuesAt_foldl_insert 3 _ entries hpath]
      simp only [digitPath_prefix_iff]

end Openmoko.Phonekit
