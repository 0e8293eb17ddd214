import Openmoko.Boom.Part2order
import Openmoko.Library.Worklist

/-!
# Equivalent parts and descriptions (`misc.pl`)

A line of a file is split at blanks, and fields that are missing are empty.
-/

namespace Openmoko.Boom

open Worklist (Graph)

/-- `[^-a-zA-Z0-9._%,:()=+\/]` is what becomes an underscore. -/
def isSpecial (c : Byte) : Bool := !(isalpha c || isdigit c || (ascii "-._%,:()=+/").contains c)

def sanitize (s : List Byte) : List Byte := s.map fun c => if isSpecial c then 95 else c

/-- `$eq{$a}` gets one more part. -/
def push (eq : Graph Id) (a b : Id) : Graph Id where
  succ := Function.update eq.succ a (eq.succ a ++ [b])
  sources := insert a eq.sources
  mem_sources id hid := by
    by_cases heq : id = a
    · exact heq ▸ Finset.mem_insert_self _ _
    · rw [Function.update_of_ne heq] at hid
      exact Finset.mem_insert_of_mem (eq.mem_sources id hid)

def partA (f : List (List Byte)) : Id := f.getD 0 [] ++ SPACE :: sanitize (f.getD 1 [])

def partB (f : List (List Byte)) : Id := f.getD 2 [] ++ SPACE :: sanitize (f.getD 3 [])

def equ (eq : Graph Id) (f : List (List Byte)) : Graph Id :=
  push (push eq (partA f) (partB f)) (partB f) (partA f)

def noEquivalences : Graph Id := ⟨fun _ => [], ∅, fun _ h => absurd rfl h⟩

def equTable (lines : List (List (List Byte))) : Graph Id := lines.foldl equ noEquivalences

/-- `join(" ", ...)` -/
def join (words : List (List Byte)) : List Byte := [SPACE].intercalate words

def dsc (table : Id → Option (List Byte)) (f : List (List Byte)) : Id → Option (List Byte) :=
  Function.update table (f.getD 0 [] ++ SPACE :: f.getD 1 []) (some (join (f.drop 2)))

def dscTable (lines : List (List (List Byte))) : Id → Option (List Byte) :=
  lines.foldl dsc fun _ => none

def eqLoop (eq : Graph Id) (seen p r : List Id) (skip : Int) : List Id :=
  match p with
  | [] => r
  | id :: p =>
    if id ∈ seen then eqLoop eq seen p r skip
    else
      eqLoop eq (id :: seen) (p ++ eq.succ id) (if skip ≤ 0 then r ++ [id] else r) (skip - 1)
termination_by eq.left seen + p.length
decreasing_by
  · simp
  · rename_i hseen
    have hleft := eq.left_cons hseen
    simp only [List.length_append, List.length_cons]
    omega

/-- `eq(@p)` -/
def eq (table : Graph Id) (p : List Id) : List Id := eqLoop table [] p [] p.length

/-- `-s/from/to/` -/
structure Xlat where
  xlatFrom : List Byte
  xlatTo : List Byte

section Lookup

/- `capture from text` is `$1` where `/^.*from.*$/` matches. -/
variable (capture : List Byte → List Byte → Option (List Byte)) (table : Graph Id)
  (dscs : Id → Option (List Byte)) (xlats : List Xlat)

def dscLookup (id : Id) : Option (List Byte) := (id :: eq table [id]).findSome? dscs

/-- `s/^.*$xlat_from[$i].*$/$xlat_to[$i] $1/` -/
def substitute (xlat : Xlat) (text : List Byte) : Option Id :=
  (capture xlat.xlatFrom text).map fun found => xlat.xlatTo ++ SPACE :: found

def reference (text : List Byte) : Option Id :=
  xlats.findSome? fun xlat =>
    (substitute capture xlat text).filter fun id => (dscLookup table dscs id).isSome

/-- `dsc_find`, for so many turns of its loop: `none` where it has not returned, and `undef` is
`some none`. -/
def dscFind : ℕ → Id → Option (Option (List Byte))
  | 0, _ => none
  | turns + 1, id =>
    match dscLookup table dscs id with
    | none => some none
    | some text =>
      match reference capture table dscs xlats text with
      | some id => dscFind turns id
      | none => some (some text)

end Lookup

end Openmoko.Boom

/-!
## Closure of the equivalences

The loop meets the parts in the order of a worklist. It leaves out as many of them as parts were
given to it, which are those parts if none of them is given twice.
-/

namespace Openmoko.Boom

open Worklist (Graph firsts firsts_eq_self length_firsts_lt)

theorem eqLoop_eq (eq : Graph Id) (seen p r : List Id) (skip : Int) :
    eqLoop eq seen p r skip = r ++ (eq.visit seen p).drop skip.toNat := by
  fun_induction eqLoop eq seen p r skip with
  | case1 seen r skip => rw [eq.visit_nil, List.drop_nil, List.append_nil]
  | case2 seen r skip id p hseen ih => rw [ih, eq.visit_of_mem hseen]
  | case3 seen r skip id p hseen ih =>
    rw [dite_eq_ite] at ih
    rw [ih, eq.visit_of_notMem hseen]
    by_cases hskip : skip ≤ 0
    · have hzero : skip.toNat = 0 := Int.toNat_of_nonpos hskip
      have hzero' : (skip - 1).toNat = 0 := Int.toNat_of_nonpos (by omega)
      rw [if_pos hskip, hzero, hzero', List.drop_zero, List.drop_zero, List.append_assoc]
      rfl
    · have hsucc : skip.toNat = (skip - 1).toNat + 1 := by omega
      rw [if_neg hskip, hsucc, List.drop_succ_cons]

theorem eq_eq_drop (table : Graph Id) (p : List Id) :
    eq table p = (table.visit [] p).drop p.length := by
  rw [eq, eqLoop_eq, List.nil_append, Int.toNat_natCast]

/-- What has been found is what can be reached from the parts and is not one of them, once. -/
def ClosesOver (table : Graph Id) (p found : List Id) : Prop :=
  found.Nodup ∧ ∀ id, id ∈ found ↔ (∃ start ∈ p, table.Reaches start id) ∧ id ∉ p

/-- **The closure is found if no part is given twice, or if there is nothing to find.** -/
theorem closesOver_iff (lines : List (List (List Byte))) (p : List Id) :
    ClosesOver (equTable lines) p (eq (equTable lines) p) ↔
      p.Nodup ∨ ∀ start ∈ p, ∀ id, (equTable lines).Reaches start id → id ∈ p := by
  obtain ⟨rest, hvisit, hnodup, hrest⟩ := (equTable lines).visit_eq p
  rw [eq_eq_drop, hvisit]
  by_cases hp : p.Nodup
  · rw [firsts_eq_self hp, List.drop_left]
    exact iff_of_true ⟨hnodup, hrest⟩ (Or.inl hp)
  · have hlt := length_firsts_lt hp
    have hdrop : (firsts [] p ++ rest).drop p.length =
        rest.drop (p.length - (firsts [] p).length) := by
      rw [List.drop_append, List.drop_eq_nil_of_le hlt.le, List.nil_append]
    rw [hdrop, or_iff_right hp]
    constructor
    · rintro ⟨-, hmem⟩ start hstart id hreach
      by_contra hnot
      have hall : ∀ id ∈ rest, id ∈ rest.drop (p.length - (firsts [] p).length) :=
        fun id hid => (hmem id).mpr ((hrest id).mp hid)
      have hle := (hnodup.subperm hall).length_le
      have hid := List.length_pos_of_mem ((hrest id).mpr ⟨⟨start, hstart, hreach⟩, hnot⟩)
      rw [List.length_drop] at hle
      omega
    · intro hnone
      have hnil : rest = [] := by
        rw [List.eq_nil_iff_forall_not_mem]
        intro id hid
        obtain ⟨⟨start, hstart, hreach⟩, hnot⟩ := (hrest id).mp hid
        exact hnot (hnone start hstart id hreach)
      rw [hnil] at hrest ⊢
      rw [List.drop_nil]
      exact ⟨List.nodup_nil, hrest⟩

/-- `A 1` and `B 2` are equivalent. -/
def oneLine : List (List (List Byte)) := [[ascii "A", ascii "1", ascii "B", ascii "2"]]

theorem not_closesOver_twice :
    ¬ ∀ (lines : List (List (List Byte))) (p : List Id),
      ClosesOver (equTable lines) p (eq (equTable lines) p) := by
  intro h
  have hsuccA : (equTable oneLine).succ (ascii "A 1") = [ascii "B 2"] := by decide
  have hsuccB : (equTable oneLine).succ (ascii "B 2") = [ascii "A 1"] := by decide
  have hvisit : (equTable oneLine).visit [] [ascii "A 1", ascii "A 1"] =
      [ascii "A 1", ascii "B 2"] := by
    rw [Graph.visit_of_notMem _ (by decide), hsuccA, List.cons_append, List.nil_append,
      Graph.visit_of_mem _ (by decide), Graph.visit_of_notMem _ (by decide), hsuccB,
      List.nil_append, Graph.visit_of_mem _ (by decide), Graph.visit_nil]
  obtain ⟨-, hmem⟩ := h oneLine [ascii "A 1", ascii "A 1"]
  have hreach : (equTable oneLine).Reaches (ascii "A 1") (ascii "B 2") :=
    .single (show _ ∈ _ by rw [hsuccA]; exact List.mem_cons_self)
  have hfound := (hmem (ascii "B 2")).mpr ⟨⟨_, List.mem_cons_self, hreach⟩, by decide⟩
  rw [eq_eq_drop, hvisit] at hfound
  exact absurd hfound (by decide)

end Openmoko.Boom
