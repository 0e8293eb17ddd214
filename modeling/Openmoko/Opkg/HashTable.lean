import Mathlib.Data.Finmap
import Mathlib.Data.PNat.Defs
import Openmoko.Opkg.Version

/-!
# Hash tables (`hash_table.c`)

A table of chains. The hash decides only which chain a key is kept in; what is looked up is what was
inserted last under the key.

The chains are those of an array whose entries hold a key of their own and lead to allocated ones.
An entry of the array without a key leads nowhere, and every allocated one has a key; so the chain
of an entry is read off it, and each of the rewrites of `hash_table_remove` takes one pair out of
the chain. Only `n_elements` is not that of a map: it counts the keys that were ever new.
-/

namespace Openmoko.Opkg

/-- `rotating`; `hash` is an `unsigned int`. -/
def rotating (platform : Platform) (key : List Byte) (prime : ℕ) : ℕ :=
  (key.foldl (fun (hash : UInt32) c =>
    (hash <<< 4) ^^^ (hash >>> 28) ^^^ UInt32.ofInt (charValue platform c))
    (UInt32.ofNat key.length)).toNat % prime

/-- The chain of each entry of the array, keys and data; without a key it is an empty chain. -/
structure HashTable (platform : Platform) (V : Type) where
  nEntries : ℕ
  entries : ℕ → List (List Byte × V)

namespace HashTable

variable {platform : Platform} {V : Type}

variable (hash : HashTable platform V)

def hashIndex (key : List Byte) : ℕ :=
  rotating platform key hash.nEntries

/-- `hash_table_init`, with the prime it picks. -/
def init (nEntries : ℕ) : HashTable platform V where
  nEntries := nEntries
  entries _ := []

def lookup (key : List Byte) : List (List Byte × V) → Option V
  | [] => none
  | (entryKey, data) :: chain => if key = entryKey then some data else lookup key chain

def insertEntry (key : List Byte) (value : V) : List (List Byte × V) → List (List Byte × V)
  | [] => [(key, value)]
  | (entryKey, data) :: chain =>
    if entryKey = key then (entryKey, value) :: chain
    else (entryKey, data) :: insertEntry key value chain

def get (key : List Byte) : Option V :=
  lookup key (hash.entries (hash.hashIndex key))

def insert (key : List Byte) (value : V) : HashTable platform V :=
  let ndx := hash.hashIndex key
  { hash with
    entries := fun i => if i = ndx then insertEntry key value (hash.entries i) else hash.entries i }

@[simp]
theorem get_init (nEntries : ℕ) (key : List Byte) :
    (init nEntries : HashTable platform V).get key = none :=
  rfl

theorem lookup_insertEntry (key other : List Byte) (value : V) (chain : List (List Byte × V)) :
    lookup other (insertEntry key value chain) =
      if other = key then some value else lookup other chain := by
  induction chain with
  | nil => simp [insertEntry, lookup]
  | cons entry chain ih =>
    obtain ⟨entryKey, data⟩ := entry
    by_cases hkey : entryKey = key
    · subst hkey
      by_cases hother : other = entryKey <;> simp [insertEntry, lookup, hother]
    · by_cases hother : other = entryKey
      · subst hother
        simp [insertEntry, lookup, hkey]
      · simp [insertEntry, lookup, hkey, hother, ih]

/-- **The table is a map.** -/
theorem get_insert (key other : List Byte) (value : V) :
    (hash.insert key value).get other = if other = key then some value else hash.get other := by
  have hindex : (hash.insert key value).hashIndex other = hash.hashIndex other := rfl
  rw [get, hindex, insert]
  by_cases hchain : hash.hashIndex other = hash.hashIndex key
  · simp only [hchain, if_true, lookup_insertEntry]
    rw [get, hchain]
  · have hne : other ≠ key := by
      rintro rfl
      exact hchain rfl
    simp only [if_neg hchain, if_neg hne]
    rfl

end HashTable

/-- `hash_entry_t` without `next`; no data is NULL. -/
structure HashEntry (V : Type) where
  key : Option (List Byte)
  data : Option V
  deriving DecidableEq, Repr

/-- An entry of the array, and the allocated ones that its `next` leads to. -/
structure Bucket (V : Type) where
  head : HashEntry V
  next : List (HashEntry V)
  deriving DecidableEq, Repr

variable {platform : Platform} {V : Type}

def findEntry (key : List Byte) : List (HashEntry V) → Option V
  | [] => none
  | entry :: chain => if entry.key = some key then entry.data else findEntry key chain

def putEntry (key : List Byte) (value : Option V) : List (HashEntry V) → List (HashEntry V) × Bool
  | [] => ([{ key := some key, data := value }], true)
  | entry :: chain =>
    if entry.key = some key then ({ entry with data := value } :: chain, false)
    else
      let put := putEntry key value chain
      (entry :: put.1, put.2)

/-- `last_entry->next = hash_entry->next` -/
def unlinkEntry (key : List Byte) : List (HashEntry V) → Option (List (HashEntry V))
  | [] => none
  | entry :: chain =>
    if entry.key = some key then some chain else (unlinkEntry key chain).map (entry :: ·)

namespace Bucket

def empty : Bucket V where
  head := { key := none, data := none }
  next := []

def get (key : List Byte) (bucket : Bucket V) : Option V :=
  findEntry key (bucket.head :: bucket.next)

def insert (key : List Byte) (value : Option V) (bucket : Bucket V) : Bucket V × Bool :=
  match bucket.head.key with
  | none => ({ bucket with head := { key := some key, data := value } }, true)
  | some headKey =>
    if headKey = key then ({ bucket with head := { bucket.head with data := value } }, false)
    else
      let put := putEntry key value bucket.next
      ({ bucket with next := put.1 }, put.2)

def remove (key : List Byte) (bucket : Bucket V) : Option (Bucket V) :=
  if bucket.head.key = some key then
    match bucket.next with
    -- `memmove (hash_entry, next_entry, ...)`
    | next :: chain => some { head := next, next := chain }
    | [] => some empty
  else (unlinkEntry key bucket.next).map fun next => { bucket with next := next }

end Bucket

/-- `hash_table_t`; there is at least one entry. -/
structure EntryTable (platform : Platform) (V : Type) where
  nEntries : ℕ+
  nElements : ℕ
  entries : ℕ → Bucket V

namespace EntryTable

def hashIndex (hash : EntryTable platform V) (key : List Byte) : ℕ :=
  rotating platform key hash.nEntries

/-- `hash_table_init`, with the prime it picks. -/
def init (nEntries : ℕ+) : EntryTable platform V where
  nEntries := nEntries
  nElements := 0
  entries _ := Bucket.empty

def setBucket (hash : EntryTable platform V) (ndx : ℕ) (bucket : Bucket V) :
    EntryTable platform V :=
  { hash with entries := fun i => if i = ndx then bucket else hash.entries i }

def get (hash : EntryTable platform V) (key : List Byte) : Option V :=
  (hash.entries (hash.hashIndex key)).get key

def insert (hash : EntryTable platform V) (key : List Byte) (value : Option V) :
    EntryTable platform V :=
  let ndx := hash.hashIndex key
  let inserted := (hash.entries ndx).insert key value
  { hash.setBucket ndx inserted.1 with
    nElements := if inserted.2 then hash.nElements + 1 else hash.nElements }

def remove (hash : EntryTable platform V) (key : List Byte) : EntryTable platform V × ℕ :=
  let ndx := hash.hashIndex key
  match (hash.entries ndx).remove key with
  | some bucket => (hash.setBucket ndx bucket, 1)
  | none => (hash, 0)

end EntryTable

def HashEntry.pair (entry : HashEntry V) : Option (List Byte × Option V) :=
  entry.key.map fun key => (key, entry.data)

def pairs (entries : List (HashEntry V)) : List (List Byte × Option V) :=
  entries.filterMap HashEntry.pair

namespace Bucket

def chain (bucket : Bucket V) : List (List Byte × Option V) := pairs (bucket.head :: bucket.next)

/-- An entry of the array without a key leads nowhere, and every allocated one has a key. -/
structure Keyed (bucket : Bucket V) : Prop where
  head : bucket.head.key = none → bucket.next = []
  next : ∀ entry ∈ bucket.next, entry.key ≠ none

end Bucket

def EntryTable.foreach (hash : EntryTable platform V) : List (List Byte × Option V) :=
  (List.range hash.nEntries).flatMap fun i => (hash.entries i).chain

variable {key : List Byte} {entries : List (HashEntry V)}

namespace HashTable

def eraseEntry (key : List Byte) (chain : List (List Byte × V)) : List (List Byte × V) :=
  chain.eraseP fun pair => pair.1 = key

def remove (hash : HashTable platform V) (key : List Byte) : HashTable platform V :=
  let ndx := hash.hashIndex key
  { hash with
    entries := fun i => if i = ndx then eraseEntry key (hash.entries i) else hash.entries i }

variable {chain : List (List Byte × V)}

theorem lookup_eq_none_iff : lookup key chain = none ↔ key ∉ chain.map Prod.fst := by
  induction chain with
  | nil => exact iff_of_true rfl List.not_mem_nil
  | cons pair chain ih =>
    rw [lookup, List.map_cons, List.mem_cons, not_or]
    split
    next hkey => exact iff_of_false (by simp) fun hne => hne.1 hkey
    next hkey => rw [ih, and_iff_right hkey]

theorem mem_iff_lookup {data : V} (hdistinct : (chain.map Prod.fst).Nodup) :
    (key, data) ∈ chain ↔ lookup key chain = some data := by
  induction chain with
  | nil => simp [lookup]
  | cons pair chain ih =>
    obtain ⟨entryKey, entryData⟩ := pair
    obtain ⟨hnew, hdistinct⟩ := List.nodup_cons.mp hdistinct
    rw [lookup, List.mem_cons, Prod.mk.injEq, ih hdistinct]
    split
    next hkey =>
      have hnone : lookup key chain = none := lookup_eq_none_iff.mpr (hkey ▸ hnew)
      rw [hnone, Option.some.injEq, and_iff_right hkey, eq_comm]
      simp
    next hkey => simp [hkey]

theorem keys_insertEntry (key : List Byte) (value : V) (chain : List (List Byte × V)) :
    (insertEntry key value chain).map Prod.fst =
      if key ∈ chain.map Prod.fst then chain.map Prod.fst else chain.map Prod.fst ++ [key] := by
  induction chain with
  | nil => rfl
  | cons pair chain ih =>
    obtain ⟨entryKey, data⟩ := pair
    by_cases hkey : entryKey = key
    · subst hkey
      have hmem : entryKey ∈ ((entryKey, data) :: chain).map Prod.fst := List.mem_cons_self ..
      rw [insertEntry, if_pos rfl, if_pos hmem]
      rfl
    · have hmem : key ∈ ((entryKey, data) :: chain).map Prod.fst ↔ key ∈ chain.map Prod.fst := by
        rw [List.map_cons, List.mem_cons, or_iff_right (Ne.symm hkey)]
      rw [insertEntry, if_neg hkey, List.map_cons, ih]
      by_cases hchain : key ∈ chain.map Prod.fst
      · rw [if_pos hchain, if_pos (hmem.mpr hchain), List.map_cons]
      · rw [if_neg hchain, if_neg fun h => hchain (hmem.mp h), List.map_cons, List.cons_append]

theorem nodup_keys_insertEntry {value : V} (hdistinct : (chain.map Prod.fst).Nodup) :
    ((insertEntry key value chain).map Prod.fst).Nodup := by
  rw [keys_insertEntry]
  split
  next hmem => exact hdistinct
  next hnew =>
    refine hdistinct.append (List.nodup_singleton key) ?_
    exact List.disjoint_singleton.mpr hnew

theorem keys_eraseEntry (key : List Byte) (chain : List (List Byte × V)) :
    (eraseEntry key chain).map Prod.fst = (chain.map Prod.fst).erase key := by
  induction chain with
  | nil => rfl
  | cons pair chain ih =>
    rw [eraseEntry, List.eraseP_cons, List.map_cons, List.erase_cons]
    by_cases hkey : pair.1 = key
    · simp [hkey]
    · simpa [hkey, eraseEntry] using ih

theorem lookup_eraseEntry (hdistinct : (chain.map Prod.fst).Nodup) (other : List Byte) :
    lookup other (eraseEntry key chain) = if other = key then none else lookup other chain := by
  split
  next hother =>
    rw [lookup_eq_none_iff, keys_eraseEntry, hother]
    exact hdistinct.not_mem_erase
  next hother =>
    clear hdistinct
    induction chain with
    | nil => rfl
    | cons pair chain ih =>
      rw [eraseEntry, List.eraseP_cons]
      by_cases hkey : pair.1 = key
      · have hne : other ≠ pair.1 := hkey ▸ hother
        simp [hkey, lookup, hother]
      · simp only [hkey, decide_false, cond_false, lookup]
        rw [← eraseEntry, ih]

theorem eraseEntry_of_lookup_none
    (hlookup : lookup key chain = none) : eraseEntry key chain = chain := by
  refine List.eraseP_of_forall_not fun pair hpair => ?_
  have hne : pair.1 ≠ key :=
    fun heq => lookup_eq_none_iff.mp hlookup (heq ▸ List.mem_map_of_mem hpair)
  simpa using hne

theorem get_remove {hash : HashTable platform V}
    (hdistinct : ∀ i, ((hash.entries i).map Prod.fst).Nodup) (key other : List Byte) :
    (hash.remove key).get other = if other = key then none else hash.get other := by
  have hindex : (hash.remove key).hashIndex other = hash.hashIndex other := rfl
  rw [get, hindex, remove]
  by_cases hchain : hash.hashIndex other = hash.hashIndex key
  · simp only [hchain, if_true, lookup_eraseEntry (hdistinct _)]
    rw [get, hchain]
  · have hne : other ≠ key := by
      rintro rfl
      exact hchain rfl
    simp only [if_neg hchain, if_neg hne]
    rfl

end HashTable

/-! ### What the operations do to the chain -/

open HashTable

@[simp]
theorem pairs_cons (key : List Byte) (data : Option V) (entries : List (HashEntry V)) :
    pairs ({ key := some key, data := data } :: entries) = (key, data) :: pairs entries :=
  rfl

theorem findEntry_eq (key : List Byte) (entries : List (HashEntry V)) :
    findEntry key entries = (lookup key (pairs entries)).join := by
  induction entries with
  | nil => rfl
  | cons entry entries ih =>
    obtain ⟨entryKey, data⟩ := entry
    cases entryKey with
    | none => exact ih
    | some entryKey =>
      rw [findEntry, pairs_cons, lookup, ih]
      simp only [Option.some.injEq, eq_comm]
      split <;> rfl

def AllKeyed (entries : List (HashEntry V)) : Prop := ∀ entry ∈ entries, entry.key ≠ none

theorem putEntry_pairs (key : List Byte) (value : Option V) (hkeyed : AllKeyed entries) :
    pairs (putEntry key value entries).1 =
        insertEntry key value (pairs entries) ∧
      ((putEntry key value entries).2 = true ↔
        lookup key (pairs entries) = none) ∧
      AllKeyed (putEntry key value entries).1 := by
  induction entries with
  | nil =>
    refine ⟨rfl, iff_of_true rfl rfl, fun entry hentry => ?_⟩
    rw [List.mem_singleton.mp hentry]
    exact Option.some_ne_none key
  | cons entry entries ih =>
    obtain ⟨hentry, hrest⟩ := List.forall_mem_cons.mp hkeyed
    obtain ⟨hpairs, hadded, hput⟩ := ih hrest
    obtain ⟨entryKey, data⟩ := entry
    obtain ⟨entryKey, rfl⟩ := Option.ne_none_iff_exists'.mp hentry
    by_cases hkey : entryKey = key
    · subst hkey
      rw [pairs_cons, insertEntry, if_pos rfl, lookup, if_pos rfl, putEntry, if_pos rfl]
      refine ⟨rfl, iff_of_false Bool.false_ne_true (Option.some_ne_none _), ?_⟩
      exact List.forall_mem_cons.mpr ⟨Option.some_ne_none _, hrest⟩
    · have hne : some entryKey ≠ some key := fun heq => hkey (Option.some.inj heq)
      rw [pairs_cons, insertEntry, if_neg hkey, lookup, if_neg (Ne.symm hkey), putEntry,
        if_neg hne]
      refine ⟨?_, hadded, List.forall_mem_cons.mpr ⟨Option.some_ne_none _, hput⟩⟩
      rw [← hpairs]
      rfl

theorem unlinkEntry_pairs {left : List (HashEntry V)}
    (hkeyed : AllKeyed entries) (hunlink : unlinkEntry key entries = some left) :
    pairs left = eraseEntry key (pairs entries) ∧
      lookup key (pairs entries) ≠ none ∧ AllKeyed left := by
  induction entries generalizing left with
  | nil => cases hunlink
  | cons entry entries ih =>
    obtain ⟨hentry, hrest⟩ := List.forall_mem_cons.mp hkeyed
    obtain ⟨entryKey, data⟩ := entry
    obtain ⟨entryKey, rfl⟩ := Option.ne_none_iff_exists'.mp hentry
    rw [unlinkEntry] at hunlink
    rw [pairs_cons, eraseEntry, List.eraseP_cons, lookup, ← eraseEntry]
    by_cases hkey : entryKey = key
    · subst hkey
      rw [if_pos rfl] at hunlink
      cases hunlink
      exact ⟨by simp, by simp, hrest⟩
    · have hne : some entryKey ≠ some key := fun heq => hkey (Option.some.inj heq)
      rw [if_neg hne] at hunlink
      obtain ⟨rest, hlink, rfl⟩ := Option.map_eq_some_iff.mp hunlink
      obtain ⟨hpairs, hfound, hleft⟩ := ih hrest hlink
      refine ⟨?_, ?_, List.forall_mem_cons.mpr ⟨Option.some_ne_none _, hleft⟩⟩
      · simp only [hkey, decide_false, cond_false, ← hpairs]
        rfl
      · rwa [if_neg (Ne.symm hkey)]

theorem lookup_of_unlinkEntry_none (hunlink : unlinkEntry key entries = none) :
    lookup key (pairs entries) = none := by
  induction entries with
  | nil => rfl
  | cons entry entries ih =>
    obtain ⟨entryKey, data⟩ := entry
    rw [unlinkEntry] at hunlink
    split at hunlink
    · cases hunlink
    next hne =>
      have hrest := ih (Option.map_eq_none_iff.mp hunlink)
      cases entryKey with
      | none => exact hrest
      | some entryKey =>
        have hkey : key ≠ entryKey := fun heq => hne (congrArg some heq.symm)
        exact (if_neg hkey).trans hrest

namespace Bucket

variable {bucket : Bucket V}

theorem keyed_empty : (empty : Bucket V).Keyed where
  head _ := rfl
  next _ hentry := absurd hentry List.not_mem_nil

theorem keyed_of_next {data : Option V} {next : List (HashEntry V)} (hnext : AllKeyed next) :
    Keyed { head := { key := some key, data := data }, next := next } where
  head hnone := absurd hnone (Option.some_ne_none key)
  next := hnext

theorem Keyed.insert_chain (hkeyed : bucket.Keyed) (key : List Byte) (value : Option V) :
    (bucket.insert key value).1.chain = insertEntry key value bucket.chain ∧
      ((bucket.insert key value).2 = true ↔ lookup key bucket.chain = none) ∧
      (bucket.insert key value).1.Keyed := by
  obtain ⟨⟨headKey, data⟩, next⟩ := bucket
  cases headKey with
  | none =>
    obtain rfl : next = [] := hkeyed.head rfl
    exact ⟨rfl, iff_of_true rfl rfl, keyed_of_next hkeyed.next⟩
  | some headKey =>
    obtain ⟨hpairs, hadded, hput⟩ := putEntry_pairs key value hkeyed.next
    simp only [chain, insert, pairs_cons, insertEntry, lookup]
    by_cases hkey : headKey = key
    · subst hkey
      simp only [if_true, pairs_cons]
      exact ⟨trivial, by simp, keyed_of_next hkeyed.next⟩
    · simp only [if_neg hkey, if_neg (Ne.symm hkey), pairs_cons, hpairs]
      exact ⟨trivial, hadded, keyed_of_next hput⟩

theorem Keyed.remove_chain (hkeyed : bucket.Keyed) {left : Bucket V}
    (hremove : bucket.remove key = some left) :
    left.chain = eraseEntry key bucket.chain ∧ lookup key bucket.chain ≠ none ∧ left.Keyed := by
  obtain ⟨⟨headKey, data⟩, next⟩ := bucket
  cases headKey with
  | none =>
    obtain rfl : next = [] := hkeyed.head rfl
    cases hremove
  | some headKey =>
    rw [remove] at hremove
    simp only [chain, pairs_cons, lookup, eraseEntry, List.eraseP_cons]
    by_cases hkey : headKey = key
    · subst hkey
      simp only [if_true] at hremove
      cases next with
      | nil =>
        cases hremove
        exact ⟨by simp [empty, pairs, HashEntry.pair], by simp, keyed_empty⟩
      | cons entry next =>
        cases hremove
        obtain ⟨hentry, hrest⟩ := List.forall_mem_cons.mp hkeyed.next
        exact ⟨by simp, by simp, fun hnone => absurd hnone hentry, hrest⟩
    · rw [if_neg fun heq => hkey (Option.some.inj heq)] at hremove
      obtain ⟨rest, hunlink, rfl⟩ := Option.map_eq_some_iff.mp hremove
      obtain ⟨hpairs, hfound, hleft⟩ := unlinkEntry_pairs hkeyed.next hunlink
      simp only [hkey, if_neg (Ne.symm hkey), decide_false, cond_false, pairs_cons, hpairs]
      exact ⟨rfl, hfound, keyed_of_next hleft⟩

theorem lookup_of_remove_none (hremove : bucket.remove key = none) :
    lookup key bucket.chain = none := by
  obtain ⟨⟨headKey, data⟩, next⟩ := bucket
  rw [remove] at hremove
  split at hremove
  next hhead => split at hremove <;> cases hremove
  next hhead =>
    have hnext := lookup_of_unlinkEntry_none (Option.map_eq_none_iff.mp hremove)
    cases headKey with
    | none => exact hnext
    | some headKey =>
      have hne : key ≠ headKey := fun heq => hhead (congrArg some heq.symm)
      rw [chain, pairs_cons, lookup, if_neg hne]
      exact hnext

end Bucket

namespace EntryTable

def toHashTable (hash : EntryTable platform V) : HashTable platform (Option V) where
  nEntries := hash.nEntries
  entries i := (hash.entries i).chain

/-- Every key is in the chain that its hash names, and in it once. -/
structure WellFormed (hash : EntryTable platform V) : Prop where
  keyed : ∀ i, (hash.entries i).Keyed
  placed : ∀ i, ∀ key ∈ (hash.entries i).chain.map Prod.fst, hash.hashIndex key = i
  distinct : ∀ i, ((hash.entries i).chain.map Prod.fst).Nodup

variable (nEntries : ℕ+)

theorem wellFormed_init : (init nEntries : EntryTable platform V).WellFormed where
  keyed _ := Bucket.keyed_empty
  placed _ _ hkey := absurd hkey List.not_mem_nil
  distinct _ := List.nodup_nil

theorem hashIndex_lt (hash : EntryTable platform V) (key : List Byte) :
    hash.hashIndex key < hash.nEntries :=
  Nat.mod_lt _ hash.nEntries.pos

theorem entries_setBucket (hash : EntryTable platform V) (ndx : ℕ) (bucket : Bucket V) (i : ℕ) :
    (hash.setBucket ndx bucket).entries i = if i = ndx then bucket else hash.entries i :=
  rfl

theorem WellFormed.setBucket {hash : EntryTable platform V} (hwell : hash.WellFormed) {ndx : ℕ}
    {bucket : Bucket V} (hkeyed : bucket.Keyed)
    (hplaced : ∀ key ∈ bucket.chain.map Prod.fst, hash.hashIndex key = ndx)
    (hdistinct : (bucket.chain.map Prod.fst).Nodup) : (hash.setBucket ndx bucket).WellFormed := by
  refine ⟨fun i => ?_, fun i => ?_, fun i => ?_⟩
  all_goals
    rw [entries_setBucket]
    split
  · exact hkeyed
  · exact hwell.keyed i
  next hi => exact hi ▸ hplaced
  · exact hwell.placed i
  · exact hdistinct
  · exact hwell.distinct i

theorem get_eq (hash : EntryTable platform V) (key : List Byte) :
    hash.get key = (hash.toHashTable.get key).join :=
  findEntry_eq key _

theorem toHashTable_setBucket (hash : EntryTable platform V) (ndx : ℕ) (bucket : Bucket V) :
    (hash.setBucket ndx bucket).toHashTable =
      { hash.toHashTable with
        entries := fun i => if i = ndx then bucket.chain else hash.toHashTable.entries i } := by
  rw [toHashTable, HashTable.mk.injEq]
  exact ⟨rfl, funext fun i => apply_ite Bucket.chain (i = ndx) bucket (hash.entries i)⟩

theorem WellFormed.toHashTable_insert {hash : EntryTable platform V} (hwell : hash.WellFormed)
    (key : List Byte) (value : Option V) :
    (hash.insert key value).toHashTable = hash.toHashTable.insert key value := by
  refine (toHashTable_setBucket hash _ _).trans ?_
  rw [HashTable.insert, ((hwell.keyed _).insert_chain key value).1, HashTable.mk.injEq]
  refine ⟨rfl, funext fun i => ?_⟩
  split
  next hi =>
    have hndx : hash.toHashTable.hashIndex key = hash.hashIndex key := rfl
    rw [hndx, if_pos hi, hi]
    rfl
  next hi => exact (if_neg hi).symm

theorem WellFormed.toHashTable_remove {hash : EntryTable platform V} (hwell : hash.WellFormed)
    (key : List Byte) : (hash.remove key).1.toHashTable = hash.toHashTable.remove key := by
  rw [EntryTable.remove, HashTable.remove]
  have hndx : hash.toHashTable.hashIndex key = hash.hashIndex key := rfl
  split
  next bucket hremove =>
    rw [toHashTable_setBucket, ((hwell.keyed _).remove_chain hremove).1, HashTable.mk.injEq, hndx]
    refine ⟨rfl, funext fun i => ?_⟩
    split
    next hi =>
      rw [hi]
      rfl
    next hi => rfl
  next hremove =>
    refine congrArg (HashTable.mk _) (funext fun i => ?_)
    rw [hndx]
    split
    next hi =>
      rw [hi]
      exact (eraseEntry_of_lookup_none (Bucket.lookup_of_remove_none hremove)).symm
    next hi => rfl

theorem WellFormed.insert {hash : EntryTable platform V} (hwell : hash.WellFormed)
    (key : List Byte) (value : Option V) : (hash.insert key value).WellFormed := by
  obtain ⟨hchain, -, hkeyed⟩ := (hwell.keyed (hash.hashIndex key)).insert_chain key value
  have hset : (hash.setBucket (hash.hashIndex key)
      ((hash.entries (hash.hashIndex key)).insert key value).1).WellFormed := by
    refine hwell.setBucket hkeyed ?_ ?_
    · intro other hother
      rw [hchain, keys_insertEntry] at hother
      split at hother
      · exact hwell.placed _ other hother
      · obtain hold | hnew := List.mem_append.mp hother
        · exact hwell.placed _ other hold
        · rw [List.mem_singleton.mp hnew]
    · rw [hchain]
      exact nodup_keys_insertEntry (hwell.distinct _)
  exact ⟨hset.keyed, hset.placed, hset.distinct⟩

theorem WellFormed.remove {hash : EntryTable platform V} (hwell : hash.WellFormed)
    (key : List Byte) : (hash.remove key).1.WellFormed := by
  rw [EntryTable.remove]
  split
  next bucket hremove =>
    obtain ⟨hchain, -, hkeyed⟩ := (hwell.keyed _).remove_chain hremove
    refine hwell.setBucket hkeyed ?_ ?_
    · intro other hother
      rw [hchain, keys_eraseEntry] at hother
      exact hwell.placed _ other (List.mem_of_mem_erase hother)
    · rw [hchain, keys_eraseEntry]
      exact (hwell.distinct _).erase key
  next hremove => exact hwell

/-- The calls that a user of the table makes. -/
inductive TableCall (V : Type) where
  | insert (key : List Byte) (value : Option V)
  | get (key : List Byte)
  | remove (key : List Byte)

abbrev TableMap (V : Type) := Finmap fun _ : List Byte => Option V

def step (hash : EntryTable platform V) : TableCall V → EntryTable platform V
  | .insert key value => hash.insert key value
  | .get _ => hash
  | .remove key => (hash.remove key).1

def run (hash : EntryTable platform V) (calls : List (TableCall V)) : EntryTable platform V :=
  calls.foldl step hash

/-- What the calls leave in a map. -/
def TableCall.apply (contents : TableMap V) : TableCall V → TableMap V
  | .insert key value => contents.insert key value
  | .get _ => contents
  | .remove key => contents.erase key

variable (calls : List (TableCall V))

def contents : TableMap V := calls.foldl TableCall.apply ∅

/-- A lookup gives what is in the map, the elements counted are the keys of the map, and each of
them is visited once, with its data. -/
structure Refines (hash : EntryTable platform V) (contents : TableMap V) : Prop where
  get : ∀ key, hash.get key = (contents.lookup key).join
  counted : hash.nElements = contents.keys.card
  visitedOnce : (hash.foreach.map Prod.fst).Nodup
  visited : ∀ key data, (key, data) ∈ hash.foreach ↔ contents.lookup key = some data

/-- The chains hold what is in the map. -/
structure Holds (hash : EntryTable platform V) (contents : TableMap V) : Prop where
  wellFormed : hash.WellFormed
  lookup : ∀ key, hash.toHashTable.get key = contents.lookup key

theorem holds_init : (init nEntries : EntryTable platform V).Holds ∅ where
  wellFormed := wellFormed_init nEntries
  lookup key := by
    rw [Finmap.lookup_empty]
    rfl

variable {hash : EntryTable platform V} {map : TableMap V}

theorem Holds.step (hholds : hash.Holds map) (call : TableCall V) :
    (hash.step call).Holds (call.apply map) := by
  cases call with
  | insert key value =>
    refine ⟨hholds.wellFormed.insert key value, fun other => ?_⟩
    rw [EntryTable.step, hholds.wellFormed.toHashTable_insert, get_insert, TableCall.apply]
    split
    next hother => rw [hother, Finmap.lookup_insert]
    next hother => rw [Finmap.lookup_insert_of_ne _ hother, hholds.lookup]
  | get key => exact hholds
  | remove key =>
    refine ⟨hholds.wellFormed.remove key, fun other => ?_⟩
    rw [EntryTable.step, hholds.wellFormed.toHashTable_remove,
      get_remove hholds.wellFormed.distinct, TableCall.apply]
    split
    next hother => rw [hother, Finmap.lookup_erase]
    next hother => rw [Finmap.lookup_erase_ne hother, hholds.lookup]

theorem run_concat (hash : EntryTable platform V) (calls : List (TableCall V))
    (call : TableCall V) : hash.run (calls ++ [call]) = (hash.run calls).step call := by
  rw [run, List.foldl_append]
  rfl

theorem contents_concat (call : TableCall V) :
    contents (calls ++ [call]) = call.apply (contents calls) := by
  rw [contents, List.foldl_append]
  rfl

theorem holds_run :
    ((init nEntries : EntryTable platform V).run calls).Holds (contents calls) := by
  induction calls using List.reverseRecOn with
  | nil => exact holds_init nEntries
  | append_singleton calls call ih =>
    rw [run_concat, contents_concat]
    exact ih.step call

theorem keys_foreach (hash : EntryTable platform V) :
    hash.foreach.map Prod.fst =
      (List.range hash.nEntries).flatMap fun i => (hash.entries i).chain.map Prod.fst := by
  rw [foreach, List.map_flatMap]

theorem WellFormed.nodup_foreach (hwell : hash.WellFormed) :
    (hash.foreach.map Prod.fst).Nodup := by
  rw [keys_foreach, List.nodup_flatMap]
  refine ⟨fun i _ => hwell.distinct i, List.nodup_range.imp fun {i j} hne => ?_⟩
  intro key hi hj
  exact hne ((hwell.placed i key hi).symm.trans (hwell.placed j key hj))

theorem Holds.mem_foreach_iff (hholds : hash.Holds map) (key : List Byte) (data : Option V) :
    (key, data) ∈ hash.foreach ↔ map.lookup key = some data := by
  have hmem : (key, data) ∈ (hash.entries (hash.hashIndex key)).chain ↔
      map.lookup key = some data := by
    rw [← hholds.lookup]
    exact mem_iff_lookup (hholds.wellFormed.distinct _)
  rw [← hmem, foreach, List.mem_flatMap]
  constructor
  · rintro ⟨i, -, hmem⟩
    obtain rfl := hholds.wellFormed.placed i key (List.mem_map_of_mem hmem)
    exact hmem
  · intro hmem
    exact ⟨_, List.mem_range.mpr (hash.hashIndex_lt key), hmem⟩

theorem Holds.refines_iff (hholds : hash.Holds map) :
    hash.Refines map ↔ hash.nElements = map.keys.card := by
  refine ⟨Refines.counted, fun hcounted => ⟨fun key => ?_, hcounted, ?_, ?_⟩⟩
  · rw [get_eq, hholds.lookup]
  · exact hholds.wellFormed.nodup_foreach
  · exact hholds.mem_foreach_iff

def TableCall.RemovesFrom (contents : TableMap V) : TableCall V → Prop
  | .remove key => key ∈ contents
  | _ => False

theorem keys_insert (key : List Byte) (value : Option V) (map : TableMap V) :
    (map.insert key value).keys = Insert.insert key map.keys := by
  ext other
  rw [Finmap.mem_keys, Finmap.mem_insert, Finset.mem_insert, Finmap.mem_keys]

theorem Holds.nElements_insert (hholds : hash.Holds map) (key : List Byte) (value : Option V) :
    (hash.insert key value).nElements =
      if key ∈ map.keys then hash.nElements else hash.nElements + 1 := by
  have hadded := ((hholds.wellFormed.keyed (hash.hashIndex key)).insert_chain key value).2.1
  have hlookup : HashTable.lookup key (hash.entries (hash.hashIndex key)).chain = map.lookup key :=
    hholds.lookup key
  rw [hlookup, Finmap.lookup_eq_none, ← Finmap.mem_keys] at hadded
  rw [EntryTable.insert]
  by_cases hmem : key ∈ map.keys
  · rw [if_pos hmem]
    exact if_neg fun h => hadded.mp h hmem
  · rw [if_neg hmem]
    exact if_pos (hadded.mpr hmem)

theorem nElements_remove (hash : EntryTable platform V) (key : List Byte) :
    (hash.remove key).1.nElements = hash.nElements := by
  rw [EntryTable.remove]
  split <;> rfl

theorem Holds.counted_step_iff (hholds : hash.Holds map) (hcounted : hash.nElements = map.keys.card)
    (call : TableCall V) :
    (hash.step call).nElements = (call.apply map).keys.card ↔ ¬call.RemovesFrom map := by
  cases call with
  | insert key value =>
    refine iff_of_true ?_ id
    rw [EntryTable.step, hholds.nElements_insert, TableCall.apply, keys_insert,
      Finset.card_insert_eq_ite, hcounted]
  | get key => exact iff_of_true hcounted id
  | remove key =>
    rw [EntryTable.step, nElements_remove, hcounted, TableCall.apply, Finmap.keys_erase,
      Finset.card_erase_eq_ite, TableCall.RemovesFrom, ← Finmap.mem_keys]
    split
    next hmem =>
      have hpos := Finset.card_pos.mpr ⟨key, hmem⟩
      exact iff_of_false (by omega) (not_not.mpr hmem)
    next hnew => exact iff_of_true rfl hnew

/-- **The table and the map.** After each of a sequence of calls, whatever collides, the table
answers, counts and is walked as the map of what was inserted and not removed since, exactly when no
call of the sequence removes a key that is there. -/
theorem run_refines_iff :
    (∀ done, done <+: calls →
      ((init nEntries : EntryTable platform V).run done).Refines (contents done)) ↔
      ∀ done call, done ++ [call] <+: calls → ¬call.RemovesFrom (contents done) := by
  constructor
  · intro hrefines done call hprefix
    have hdone := (hrefines done ((List.prefix_append ..).trans hprefix)).counted
    have hafter := (hrefines _ hprefix).counted
    rw [run_concat, contents_concat] at hafter
    exact ((holds_run nEntries done).counted_step_iff hdone call).mp hafter
  · intro hremoves done hprefix
    refine (holds_run nEntries done).refines_iff.mpr ?_
    induction done using List.reverseRecOn with
    | nil => rfl
    | append_singleton done call ih =>
      have hdone := ih ((List.prefix_append ..).trans hprefix)
      rw [run_concat, contents_concat]
      exact ((holds_run nEntries done).counted_step_iff hdone call).mpr
        (hremoves done call hprefix)

/-- What is removed is counted on. -/
theorem removed_counted :
    ¬ ∀ (nEntries : ℕ+) (calls : List (TableCall ℕ)),
      ((init nEntries : EntryTable ⟨true, 2 ^ 32 - 1⟩ ℕ).run calls).Refines
        (contents calls) := by
  intro hrefines
  have hcounted := (hrefines 1 [.insert [97] (some 1), .remove [97]]).counted
  have hkeys : (contents [.insert [97] (some 1), .remove [97]] : TableMap ℕ).keys = ∅ := by
    rw [contents, List.foldl_cons, List.foldl_cons, List.foldl_nil, TableCall.apply,
      TableCall.apply, Finmap.keys_erase, keys_insert, Finmap.keys_empty]
    decide
  rw [hkeys] at hcounted
  exact absurd hcounted (by decide)

end EntryTable

end Openmoko.Opkg
