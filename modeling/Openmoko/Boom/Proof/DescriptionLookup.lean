import Openmoko.Boom.Misc
import Openmoko.Library.Acyclic
import Openmoko.Library.Loop

/-!
# Following references between descriptions

A turn of the loop goes from a part to the one that its description refers to. There are finitely
many parts that have a description, so that the loop ends if no reference leads back.
-/

namespace Openmoko.Boom

open Worklist (Graph)
open Relation

variable {capture : List Byte → List Byte → Option (List Byte)} {table : Graph Id}
  {dscs : Id → Option (List Byte)} {xlats : List Xlat} {id id' : Id}

variable (capture table dscs xlats) in
def Refers (id id' : Id) : Prop :=
  (dscLookup table dscs id).bind (reference capture table dscs xlats) = some id'

theorem Refers.isSome (h : Refers capture table dscs xlats id id') :
    (dscLookup table dscs id).isSome = true ∧ (dscLookup table dscs id').isSome = true := by
  obtain ⟨text, htext, href⟩ := Option.bind_eq_some_iff.mp h
  obtain ⟨xlat, -, hxlat⟩ := List.exists_of_findSome?_eq_some href
  exact ⟨by rw [htext]; rfl, (Option.filter_eq_some_iff.mp hxlat).2⟩

theorem dscFind_of_refers (h : Refers capture table dscs xlats id id') (turns : ℕ) :
    dscFind capture table dscs xlats (turns + 1) id =
      dscFind capture table dscs xlats turns id' := by
  obtain ⟨text, htext, href⟩ := Option.bind_eq_some_iff.mp h
  rw [dscFind, htext]
  simp only [href]

theorem dscFind_of_end (h : ∀ id', ¬ Refers capture table dscs xlats id id') (turns : ℕ) :
    dscFind capture table dscs xlats (turns + 1) id = some (dscLookup table dscs id) := by
  rw [dscFind]
  cases htext : dscLookup table dscs id with
  | none => rfl
  | some text =>
    cases href : reference capture table dscs xlats text with
    | none => simp only [href]
    | some id' => exact absurd (Option.bind_eq_some_iff.mpr ⟨text, htext, href⟩) (h id')

variable {turns : ℕ}

theorem dscFind_eq_some {result : Option (List Byte)}
    (h : dscFind capture table dscs xlats turns id = some result) :
    ∃ id', ReflTransGen (Refers capture table dscs xlats) id id' ∧
      result = dscLookup table dscs id' ∧
      EndsWith (fun turns => dscFind capture table dscs xlats turns id) result := by
  induction turns generalizing id with
  | zero => cases h
  | succ turns ih =>
    by_cases hnext : ∃ next, Refers capture table dscs xlats id next
    · obtain ⟨next, hnext⟩ := hnext
      rw [dscFind_of_refers hnext] at h
      obtain ⟨id', hreach, hresult, hends⟩ := ih h
      exact ⟨id', .head hnext hreach, hresult, hends.succ (dscFind_of_refers hnext)⟩
    · rw [not_exists] at hnext
      rw [dscFind_of_end hnext] at h
      obtain rfl := Option.some.inj h
      exact ⟨id, .refl, rfl, (endsWith_const _).succ (dscFind_of_end hnext)⟩

theorem exists_chain_of_eq_none {start : Id}
    (hstart : ReflTransGen (Refers capture table dscs xlats) start id)
    (h : dscFind capture table dscs xlats turns id = none) :
    ∃ l, (id :: l).IsChain (fun x y => ReflTransGen (Refers capture table dscs xlats) start x ∧
      Refers capture table dscs xlats x y) ∧ l.length = turns := by
  induction turns generalizing id with
  | zero => exact ⟨[], .singleton id, rfl⟩
  | succ turns ih =>
    by_cases hnext : ∃ next, Refers capture table dscs xlats id next
    · obtain ⟨next, hnext⟩ := hnext
      rw [dscFind_of_refers hnext] at h
      obtain ⟨l, hl, hlength⟩ := ih (hstart.tail hnext) h
      exact ⟨next :: l, hl.cons_cons ⟨hstart, hnext⟩, congrArg Nat.succ hlength⟩
    · rw [not_exists] at hnext
      rw [dscFind_of_end hnext] at h
      cases h

theorem dscFind_of_cycle {cyclic : Id}
    (hcycle : TransGen (Refers capture table dscs xlats) cyclic cyclic)
    (hreach : ReflTransGen (Refers capture table dscs xlats) id cyclic) (turns : ℕ) :
    dscFind capture table dscs xlats turns id = none := by
  induction turns generalizing id with
  | zero => rfl
  | succ turns ih =>
    obtain ⟨next, hnext, hrest⟩ := TransGen.head'_iff.mp (TransGen.trans_right hreach hcycle)
    rw [dscFind_of_refers hnext]
    exact ih hrest

theorem mem_of_dscTable {lines : List (List (List Byte))} {text : List Byte}
    (h : dscTable lines id = some text) :
    id ∈ lines.map fun f => f.getD 0 [] ++ SPACE :: f.getD 1 [] := by
  rw [dscTable] at h
  induction lines using List.reverseRecOn with
  | nil => cases h
  | append_singleton lines f ih =>
    rw [List.foldl_concat, dsc] at h
    rw [List.map_append, List.mem_append]
    by_cases heq : id = f.getD 0 [] ++ SPACE :: f.getD 1 []
    · exact Or.inr (List.mem_singleton.mpr heq)
    · rw [Function.update_of_ne heq] at h
      exact Or.inl (ih h)

theorem eq_eq_nil (hsucc : table.succ id = []) : eq table [id] = [] := by
  rw [eq_eq_drop, table.visit_of_notMem List.not_mem_nil, hsucc, List.append_nil,
    table.visit_nil]
  rfl

theorem mem_of_dscLookup {keys : List Id} (hkeys : ∀ id text, dscs id = some text → id ∈ keys)
    (h : (dscLookup table dscs id).isSome = true) : id ∈ keys ++ table.sources.toList := by
  rw [List.mem_append, Finset.mem_toList]
  by_contra hnot
  rw [not_or] at hnot
  have hown : dscs id = none := by
    cases hcase : dscs id with
    | none => rfl
    | some text => exact absurd (hkeys id text hcase) hnot.1
  have hsucc : table.succ id = [] := not_not.mp (mt (table.mem_sources id) hnot.2)
  rw [dscLookup, eq_eq_nil hsucc, List.findSome?_cons, hown] at h
  cases h

variable (capture table dscs xlats) in
/-- The lookup returns a description that is reached from the part by following references, and
nothing only if it has none. -/
def Returns (id : Id) : Prop :=
  ∃ result, EndsWith (fun turns => dscFind capture table dscs xlats turns id) result ∧
    (result = none ↔ dscLookup table dscs id = none) ∧
    ∀ text, result = some text →
      ∃ id', ReflTransGen (Refers capture table dscs xlats) id id' ∧
        dscLookup table dscs id' = some text

theorem returns_of_eq_some {result : Option (List Byte)}
    (h : dscFind capture table dscs xlats turns id = some result) :
    Returns capture table dscs xlats id := by
  obtain ⟨id', hreach, rfl, hends⟩ := dscFind_eq_some h
  refine ⟨dscLookup table dscs id', hends, ?_, fun text htext => ⟨id', hreach, htext⟩⟩
  rcases ReflTransGen.cases_head hreach with rfl | ⟨next, hnext, -⟩
  · exact Iff.rfl
  · rcases ReflTransGen.cases_tail hreach with heq | ⟨last, -, hlast⟩
    · rw [heq]
    · have hid := Option.isSome_iff_ne_none.mp hnext.isSome.1
      have hid' := Option.isSome_iff_ne_none.mp hlast.isSome.2
      exact iff_of_false hid' hid

/-- **The lookup returns if no reference that is followed from the part leads back.** -/
theorem returns_iff (capture : List Byte → List Byte → Option (List Byte))
    (equLines dscLines : List (List (List Byte))) (xlats : List Xlat) (id : Id) :
    Returns capture (equTable equLines) (dscTable dscLines) xlats id ↔
      ∀ id', ReflTransGen (Refers capture (equTable equLines) (dscTable dscLines) xlats) id id' →
        ¬ TransGen (Refers capture (equTable equLines) (dscTable dscLines) xlats) id' id' := by
  constructor
  · rintro ⟨result, ⟨turns, hends⟩, -⟩ cyclic hreach hcycle
    have hnone := dscFind_of_cycle hcycle hreach turns
    cases hnone.symm.trans (hends turns (le_refl turns))
  · intro h
    have hacyclic : Acyclic fun x y =>
        ReflTransGen (Refers capture (equTable equLines) (dscTable dscLines) xlats) id x ∧
          Refers capture (equTable equLines) (dscTable dscLines) xlats x y := by
      intro x hcycle
      obtain ⟨y, ⟨hreach, -⟩, -⟩ := TransGen.head'_iff.mp hcycle
      exact h x hreach (TransGen.mono (fun _ _ hstep => hstep.2) _ _ hcycle)
    obtain ⟨keys, hkeys⟩ : ∃ keys, ∀ id text, dscTable dscLines id = some text → id ∈ keys :=
      ⟨_, fun _ _ => mem_of_dscTable⟩
    cases hfind : dscFind capture (equTable equLines) (dscTable dscLines) xlats
        ((keys ++ (equTable equLines).sources.toList).length + 1) id with
    | some result => exact returns_of_eq_some hfind
    | none =>
      obtain ⟨l, hl, hlength⟩ := exists_chain_of_eq_none .refl hfind
      have hnodes : ∀ x y,
          ReflTransGen (Refers capture (equTable equLines) (dscTable dscLines) xlats) id x ∧
            Refers capture (equTable equLines) (dscTable dscLines) xlats x y →
          x ∈ keys ++ (equTable equLines).sources.toList :=
        fun x y hstep => mem_of_dscLookup hkeys hstep.2.isSome.1
      have hle := hacyclic.length_le hnodes hl
      rw [List.length_cons] at hle
      omega

def selfReference : List (List (List Byte)) := [[ascii "A", ascii "1", ascii "=", ascii "1"]]

def captureSelf (xlatFrom text : List Byte) : Option (List Byte) :=
  if xlatFrom = ascii "= (.*)" ∧ text = ascii "= 1" then some (ascii "1") else none

theorem not_returns_selfReference :
    ¬ ∀ (capture : List Byte → List Byte → Option (List Byte))
      (equLines dscLines : List (List (List Byte))) (xlats : List Xlat) (id : Id),
      Returns capture (equTable equLines) (dscTable dscLines) xlats id := by
  intro h
  obtain ⟨result, ⟨turns, hends⟩, -⟩ := h captureSelf [] selfReference
    [⟨ascii "= (.*)", ascii "A"⟩] (ascii "A 1")
  have hlookup : dscLookup (equTable []) (dscTable selfReference) (ascii "A 1") =
      some (ascii "= 1") := by
    rw [dscLookup, eq_eq_nil (by rfl)]
    decide
  have hrefers : Refers captureSelf (equTable []) (dscTable selfReference)
      [⟨ascii "= (.*)", ascii "A"⟩] (ascii "A 1") (ascii "A 1") := by
    have hsubstitute : substitute captureSelf ⟨ascii "= (.*)", ascii "A"⟩ (ascii "= 1") =
        some (ascii "A 1") := by decide
    rw [Refers, hlookup, Option.bind_some, reference, List.findSome?_singleton, hsubstitute,
      Option.filter_some, hlookup]
    rfl
  have hnone := dscFind_of_cycle (.single hrefers) .refl turns
  cases hnone.symm.trans (hends turns (le_refl turns))

end Openmoko.Boom
