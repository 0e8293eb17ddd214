import Mathlib.Data.Nat.Count
import Mathlib.Logic.Function.Basic
import Openmoko.Fped.FrameItems
import Openmoko.Fped.Proof.DumpOrder
import Openmoko.Fped.Proof.UnparseScan

/-!
# The names of the vectors

While the items are written, a vector without a name gets the first generated one that no vector
has. A vector has its name when it is written, so that all names in the text are those at the end.
-/

namespace Openmoko.Fped

theorem generatedName_injective : Function.Injective generatedName := by
  intro i j heq
  have hdigits : Nat.toDigits 10 i = Nat.toDigits 10 j := by
    simpa [generatedName] using heq
  have hvalue := congrArg (Nat.ofDigitChars 10 · 0) hdigits
  simpa using hvalue

theorem isName_generatedName (n : ℕ) : IsName (generatedName n) := by
  refine ⟨'_', _, rfl, by decide, ?_⟩
  rw [List.forall_mem_cons]
  refine ⟨by decide, ?_⟩
  intro d hd
  have hdigit := Nat.isDigit_of_mem_toDigits (by decide) (by decide) hd
  have hrange : ('0' ≤ d && d ≤ '9') = true := hdigit
  rw [isIdChar, hrange, Bool.or_true]

section Free

variable {vecs : List Vec}

/-- Of one more name than there are vectors, one is free. -/
theorem exists_free (vecs : List Vec) :
    ∃ i < vecs.length + 1, generatedName i ∉ vecNames vecs := by
  by_contra hno
  push Not at hno
  have hsub : (List.range (vecs.length + 1)).map generatedName ⊆ vecNames vecs := by
    intro s hs
    obtain ⟨i, hi, rfl⟩ := List.mem_map.mp hs
    exact hno i (List.mem_range.mp hi)
  have hnodup : ((List.range (vecs.length + 1)).map generatedName).Nodup :=
    List.nodup_range.map generatedName_injective
  have hle := (hnodup.subperm hsub).length_le
  rw [List.length_map, List.length_range] at hle
  have hnames : (vecNames vecs).length ≤ vecs.length := List.length_filterMap_le _ _
  omega

/-- The free name is the first generated one that no vector has. -/
theorem freeName_spec (vecs : List Vec) :
    ∃ i, freeName vecs = generatedName i ∧ generatedName i ∉ vecNames vecs ∧
      ∀ j < i, generatedName j ∈ vecNames vecs := by
  obtain ⟨i₀, hi₀, hfree₀⟩ := exists_free vecs
  have hsome : ((List.range (vecs.length + 1)).find?
      fun i => generatedName i ∉ vecNames vecs).isSome = true := by
    rw [List.find?_isSome]
    exact ⟨i₀, List.mem_range.mpr hi₀, by simpa using hfree₀⟩
  obtain ⟨i, hi⟩ := Option.isSome_iff_exists.mp hsome
  refine ⟨i, ?_, ?_, ?_⟩
  · rw [freeName, List.find?_map]
    change ((List.find? (fun i => decide (generatedName i ∉ vecNames vecs)) _).map _).getD [] = _
    rw [hi]
    rfl
  · simpa using List.find?_some hi
  · obtain ⟨-, k, hk, rfl, hbefore⟩ := List.find?_eq_some_iff_getElem.mp hi
    intro j hj
    rw [List.getElem_range] at hj
    simpa using hbefore j hj

end Free

def withNames (names : ℕ → Option Name) (vecs : List Vec) : List Vec :=
  vecs.map fun v => { v with name := names v.id }

variable {v : Vec}

section WithNames

variable {names : ℕ → Option Name} {vecs : List Vec} {id : ℕ}

theorem exists_find_id (hv : v ∈ vecs) :
    ∃ w, (vecs.find? fun w => w.id = v.id) = some w ∧ w.id = v.id := by
  have hsome : (vecs.find? fun w => w.id = v.id).isSome = true := by
    rw [List.find?_isSome]
    exact ⟨v, hv, by simp⟩
  obtain ⟨w, hw⟩ := Option.isSome_iff_exists.mp hsome
  exact ⟨w, hw, by simpa using List.find?_some hw⟩

theorem vecName_withNames (hid : id ∈ vecs.map Vec.id) :
    vecName (withNames names vecs) id = names id := by
  obtain ⟨v, hv, rfl⟩ := List.mem_map.mp hid
  obtain ⟨w, hw, hwid⟩ := exists_find_id hv
  rw [vecName, withNames, List.find?_map]
  change ((vecs.find? fun w => w.id = v.id).map _).bind _ = _
  rw [hw, Option.map_some, Option.bind_some, hwid]

theorem mem_vecNames_withNames {n : Name} :
    n ∈ vecNames (withNames names vecs) ↔ ∃ v ∈ vecs, names v.id = some n := by
  rw [vecNames, withNames, List.mem_filterMap]
  simp

theorem nextOf_withNames : nextOf id (withNames names vecs) = nextOf id vecs := by
  induction vecs with
  | nil => rfl
  | cons v vecs ih =>
    cases vecs with
    | nil => rfl
    | cons next vecs =>
      change (if v.id = id then some next.id else _) = if v.id = id then some next.id else _
      exact congrArg _ ih

theorem generateName_withNames :
    generateName (withNames names vecs) id =
      withNames (Function.update names id (some (freeName (withNames names vecs)))) vecs := by
  rw [generateName]
  generalize freeName (withNames names vecs) = n
  rw [withNames, withNames, List.map_map]
  apply List.map_congr_left
  intro v _
  by_cases hid : v.id = id
  · simp [hid]
  · simp [hid]

theorem vecName_of_mem (hids : (vecs.map Vec.id).Nodup) (hv : v ∈ vecs) :
    vecName vecs v.id = v.name := by
  obtain ⟨w, hw, hwid⟩ := exists_find_id hv
  rw [vecName, hw, Vec.eq_of_id hids (List.mem_of_find?_eq_some hw) hv hwid]
  rfl

theorem withNames_vecName (hids : (vecs.map Vec.id).Nodup) :
    withNames (vecName vecs) vecs = vecs := by
  calc withNames (vecName vecs) vecs
    _ = vecs.map id := by
      apply List.map_congr_left
      intro v hv
      rw [vecName_of_mem hids hv]
      rfl
    _ = vecs := List.map_id vecs

end WithNames

/-! ### What has been named -/

def Unused (vecs : List Vec) (j : ℕ) : Prop := generatedName j ∉ vecNames vecs

instance (vecs : List Vec) : DecidablePred (Unused vecs) := fun j =>
  inferInstanceAs (Decidable (generatedName j ∉ vecNames vecs))

def anonymous (vecs : List Vec) : ℕ := vecs.countP fun v => v.name = none

/-- The names in place when the vectors of `done` are printed. -/
structure Naming (vecs done : List Vec) (names : ℕ → Option Name) : Prop where
  kept : ∀ v ∈ vecs, v.name ≠ none → names v.id = v.name
  named : ∀ v ∈ done, names v.id ≠ none
  waiting : ∀ v ∈ vecs, v ∉ done → v.name = none → names v.id = none
  distinct : ∀ u ∈ vecs, ∀ v ∈ vecs, names u.id = names v.id → names u.id ≠ none → u.id = v.id
  generated : ∀ v ∈ vecs, v.name = none → ∀ n, names v.id = some n →
    ∃ j, n = generatedName j
  given : ∀ j, (∃ v ∈ vecs, names v.id = some (generatedName j)) ↔
    generatedName j ∈ vecNames vecs ∨ Nat.count (Unused vecs) j < anonymous done

section Naming

variable {vecs done : List Vec} {names : ℕ → Option Name}

theorem eq_of_nodup_filterMap {α β : Type} {f : α → Option β} {l : List α}
    (hl : (l.filterMap f).Nodup) {a b : α} {n : β} (ha : a ∈ l) (hb : b ∈ l) (hfa : f a = some n)
    (hfb : f b = some n) : a = b := by
  induction l with
  | nil => cases ha
  | cons x l ih =>
    have hhead : f x = some n → ∀ y ∈ l, f y ≠ some n := by
      intro hx y hy hfy
      rw [List.filterMap_cons_some hx, List.nodup_cons] at hl
      exact hl.1 (List.mem_filterMap.mpr ⟨y, hy, hfy⟩)
    have htail : (l.filterMap f).Nodup := hl.sublist ((List.sublist_cons_self x l).filterMap f)
    rcases List.mem_cons.mp ha with rfl | ha'
    · rcases List.mem_cons.mp hb with rfl | hb'
      · rfl
      · exact absurd hfb (hhead hfa b hb')
    · rcases List.mem_cons.mp hb with rfl | hb'
      · exact absurd hfa (hhead hfb a ha')
      · exact ih htail ha' hb'

theorem naming_start (hids : (vecs.map Vec.id).Nodup)
    (hnames : (vecNames vecs).Nodup) : Naming vecs [] (vecName vecs) where
  kept := by
    intro v hv _
    exact vecName_of_mem hids hv
  named := nofun
  waiting := by
    intro v hv _ hnone
    rw [vecName_of_mem hids hv, hnone]
  distinct := by
    intro u hu v hv heq hne
    rw [vecName_of_mem hids hu] at heq hne
    rw [vecName_of_mem hids hv] at heq
    obtain ⟨n, hn⟩ := Option.ne_none_iff_exists'.mp hne
    rw [eq_of_nodup_filterMap hnames hu hv hn (heq.symm.trans hn)]
  generated := by
    intro v hv hnone n hn
    rw [vecName_of_mem hids hv, hnone] at hn
    cases hn
  given := by
    intro j
    rw [anonymous, List.countP_nil, or_iff_left (Nat.not_lt_zero _), vecNames, List.mem_filterMap]
    constructor
    · rintro ⟨v, hv, hname⟩
      rw [vecName_of_mem hids hv] at hname
      exact ⟨v, hv, hname⟩
    · rintro ⟨v, hv, hname⟩
      exact ⟨v, hv, (vecName_of_mem hids hv).trans hname⟩

theorem exists_count_eq {p : ℕ → Prop} [DecidablePred p] {t i : ℕ} (h : t < Nat.count p i) :
    ∃ j < i, p j ∧ Nat.count p j = t := by
  induction i with
  | zero => exact absurd h (Nat.not_lt_zero _)
  | succ i ih =>
    by_cases hlt : t < Nat.count p i
    · obtain ⟨j, hj, hpj, hcount⟩ := ih hlt
      exact ⟨j, Nat.lt_succ_of_lt hj, hpj, hcount⟩
    · rw [Nat.count_succ] at h
      split at h
      · rename_i hpi
        exact ⟨i, Nat.lt_succ_self i, hpi, by omega⟩
      · omega

theorem Naming.freeName (hnaming : Naming vecs done names) :
    ∃ i, freeName (withNames names vecs) = generatedName i ∧ Unused vecs i ∧
      Nat.count (Unused vecs) i = anonymous done := by
  obtain ⟨i, hi, hfree, hbefore⟩ := freeName_spec (withNames names vecs)
  have hmem : ∀ j, generatedName j ∈ vecNames (withNames names vecs) ↔
      generatedName j ∈ vecNames vecs ∨ Nat.count (Unused vecs) j < anonymous done := by
    intro j
    rw [mem_vecNames_withNames, hnaming.given]
  rw [hmem, not_or, Nat.not_lt] at hfree
  refine ⟨i, hi, hfree.1, ?_⟩
  apply Nat.le_antisymm _ hfree.2
  by_contra hlt
  obtain ⟨j, hj, hunused, hcount⟩ := exists_count_eq (Nat.not_le.mp hlt)
  rcases (hmem j).mp (hbefore j hj) with hused | hgiven
  · exact hunused hused
  · exact absurd hgiven (by omega)

theorem anonymous_snoc (v : Vec) :
    anonymous (done ++ [v]) = anonymous done + if v.name = none then 1 else 0 := by
  rw [anonymous, anonymous, List.countP_append, List.countP_singleton]
  simp

theorem Naming.snoc_named (hnaming : Naming vecs done names) (hv : v ∈ vecs)
    (hname : v.name ≠ none) : Naming vecs (done ++ [v]) names where
  kept := hnaming.kept
  named := by
    rw [List.forall_mem_append, List.forall_mem_singleton, hnaming.kept v hv hname]
    exact ⟨hnaming.named, hname⟩
  waiting := by
    intro w hw hdone hnone
    rw [List.mem_append, not_or] at hdone
    exact hnaming.waiting w hw hdone.1 hnone
  distinct := hnaming.distinct
  generated := hnaming.generated
  given := by
    rw [anonymous_snoc, if_neg hname]
    exact hnaming.given

/-- A vector without a name gets the next unused one. -/
theorem Naming.snoc_anonymous (hids : (vecs.map Vec.id).Nodup) (hnaming : Naming vecs done names)
    (hv : v ∈ vecs) (hnew : v ∉ done) (hnone : v.name = none) :
    Naming vecs (done ++ [v])
      (Function.update names v.id (some (Openmoko.Fped.freeName (withNames names vecs)))) := by
  obtain ⟨i, hi, hunused, hcount⟩ := hnaming.freeName
  rw [hi]
  have hsame : Function.update names v.id (some (generatedName i)) v.id =
      some (generatedName i) := Function.update_self _ _ _
  have hother : ∀ w ∈ vecs, w ≠ v →
      Function.update names v.id (some (generatedName i)) w.id = names w.id := by
    intro w hw hne
    apply Function.update_of_ne
    exact fun hid => hne (Vec.eq_of_id hids hw hv hid)
  have hfresh : ∀ w ∈ vecs, names w.id ≠ some (generatedName i) := by
    intro w hw hname
    rcases (hnaming.given i).mp ⟨w, hw, hname⟩ with hused | hlt
    · exact hunused hused
    · omega
  constructor
  · intro w hw hname
    rw [hother w hw (fun heq => hname (heq ▸ hnone))]
    exact hnaming.kept w hw hname
  · rw [List.forall_mem_append, List.forall_mem_singleton, hsame]
    refine ⟨?_, Option.some_ne_none _⟩
    intro w hw
    by_cases hid : w.id = v.id
    · rw [hid, hsame]
      exact Option.some_ne_none _
    · rw [Function.update_of_ne hid]
      exact hnaming.named w hw
  · intro w hw hdone hwnone
    rw [List.mem_append, not_or, List.mem_singleton] at hdone
    rw [hother w hw hdone.2]
    exact hnaming.waiting w hw hdone.1 hwnone
  · intro u hu w hw heq hne
    by_cases huv : u = v
    · subst huv
      by_cases hwv : w = u
      · rw [hwv]
      · rw [hsame, hother w hw hwv] at heq
        exact absurd heq.symm (hfresh w hw)
    · rw [hother u hu huv] at heq hne
      by_cases hwv : w = v
      · subst hwv
        rw [hsame] at heq
        exact absurd heq (hfresh u hu)
      · rw [hother w hw hwv] at heq
        exact hnaming.distinct u hu w hw heq hne
  · intro w hw hwnone n hn
    by_cases hwv : w = v
    · subst hwv
      rw [hsame] at hn
      exact ⟨i, (Option.some.inj hn).symm⟩
    · rw [hother w hw hwv] at hn
      exact hnaming.generated w hw hwnone n hn
  · intro j
    rw [anonymous_snoc, if_pos hnone]
    constructor
    · rintro ⟨w, hw, hname⟩
      by_cases hwv : w = v
      · subst hwv
        rw [hsame] at hname
        obtain rfl := generatedName_injective (Option.some.inj hname)
        right
        omega
      · rw [hother w hw hwv] at hname
        rcases (hnaming.given j).mp ⟨w, hw, hname⟩ with hused | hlt
        · exact Or.inl hused
        · right
          omega
    · intro hgiven
      by_cases hji : j = i
      · subst hji
        exact ⟨v, hv, hsame⟩
      · have hbefore : generatedName j ∈ vecNames vecs ∨
            Nat.count (Unused vecs) j < anonymous done := by
          by_cases hunused' : Unused vecs j
          · right
            have hne : Nat.count (Unused vecs) j ≠ Nat.count (Unused vecs) i := fun heq =>
              hji (Nat.count_injective hunused' hunused heq)
            have hle := hgiven.resolve_left hunused'
            omega
          · exact Or.inl (not_not.mp hunused')
        obtain ⟨w, hw, hname⟩ := (hnaming.given j).mpr hbefore
        refine ⟨w, hw, ?_⟩
        rw [hother w hw, hname]
        rintro rfl
        rw [hnaming.waiting w hw hnew hnone] at hname
        cases hname

/-- A name is generated where there is none, and no other is changed. -/
theorem Naming.ensureName (hids : (vecs.map Vec.id).Nodup) (hnaming : Naming vecs done names)
    (hv : v ∈ vecs) (hnew : v ∉ done) :
    ∃ names', ensureName (withNames names vecs) v.id = withNames names' vecs ∧
      Naming vecs (done ++ [v]) names' ∧ ∀ id, names id ≠ none → names' id = names id := by
  unfold Openmoko.Fped.ensureName
  rw [vecName_withNames (List.mem_map_of_mem hv)]
  by_cases hnone : v.name = none
  · rw [if_pos (hnaming.waiting v hv hnew hnone), generateName_withNames]
    refine ⟨_, rfl, hnaming.snoc_anonymous hids hv hnew hnone, ?_⟩
    intro id hid
    apply Function.update_of_ne
    rintro rfl
    exact hid (hnaming.waiting v hv hnew hnone)
  · rw [if_neg (by rw [hnaming.kept v hv hnone]; exact hnone)]
    exact ⟨names, rfl, hnaming.snoc_named hv hnone, fun id _ => rfl⟩

theorem ensureName_of_named {id : ℕ} (hid : id ∈ vecs.map Vec.id) (hname : names id ≠ none) :
    Openmoko.Fped.ensureName (withNames names vecs) id = withNames names vecs := by
  rw [Openmoko.Fped.ensureName, vecName_withNames hid, if_neg hname]

end Naming

/-! ### Lines -/

def lineText : Line → Text
  | .vec label base x y => itemLabel label ++ printVec base x y
  | .obj o => itemLabel o.name ++ printObj id o

def linesText (indent : Text) (lines : List Line) : Text :=
  lines.flatMap fun line => indent ++ lineText line ++ text "\n"

def vecBase (vecs : List Vec) (name : ℕ → Name) (v : Vec) : BaseText :=
  match v.base with
  | none => .origin
  | some b => if nextOf b vecs = some v.id then .dot else .named (name b)

def anchorText (name : ℕ → Name) (prev : Option ℕ) : Option ℕ → BaseText
  | none => .origin
  | some b => if some b = prev then .dot else .named (name b)

def itemLine (vecs : List Vec) (name : ℕ → Name) : Item → Line
  | .vec v => .vec (some (name v.id)) (vecBase vecs name v) v.x v.y
  | .obj prev _ o => .obj (o.map (anchorText name prev))

section Lines

variable {α : Type}

theorem Obj.map_congr {β : Type} {f g : α → β} {o : Obj α} (hfg : ∀ a ∈ o.anchors, f a = g a) :
    o.map f = o.map g := by
  obtain ⟨name, base, kind⟩ := o
  rw [Obj.anchors, List.forall_mem_cons] at hfg
  cases kind <;> simp_all [Obj.map, ObjKind.map, ObjKind.others]

theorem printObj_map [DecidableEq α] {f : α → BaseText} {o : Obj α}
    (hf : ∀ a ∈ o.anchors, ∀ b ∈ o.anchors, f a = f b → a = b) :
    printObj f o = printObj id (o.map f) := by
  obtain ⟨name, base, kind⟩ := o
  cases kind with
  | arc start stop width =>
    have hsame : f start = f stop ↔ start = stop := by
      constructor
      · exact hf start (by simp [Obj.anchors, ObjKind.others]) stop
          (by simp [Obj.anchors, ObjKind.others])
      · exact congrArg f
    simp only [printObj, Obj.map, ObjKind.map, id_eq, hsame]
  | _ => rfl

end Lines

section Dump

variable {frame : Frame} {items : List Item} {indent : Text}

theorem dumpItems_append (vecs : List Vec) (xs ys : List Item) :
    dumpItems indent vecs (xs ++ ys) =
      ((dumpItems indent (dumpItems indent vecs xs).1 ys).1,
        (dumpItems indent vecs xs).2 ++ (dumpItems indent (dumpItems indent vecs xs).1 ys).2) := by
  induction xs generalizing vecs with
  | nil => rfl
  | cons x xs ih =>
    simp only [List.cons_append, dumpItems, ih, List.append_assoc]

def Named (frame : Frame) (names : ℕ → Option Name) (name : ℕ → Name) (anchor : Option ℕ) : Prop :=
  ∀ b ∈ anchor, b ∈ frame.vecs.map Vec.id ∧ names b = some (name b)

section Named

variable {names : ℕ → Option Name} {name : ℕ → Name}

theorem vecBaseName_named (hbase : Named frame names name v.base) :
    vecBaseName (withNames names frame.vecs) v.base v.id =
      (withNames names frame.vecs, vecBase frame.vecs name v) := by
  unfold vecBaseName vecBase
  cases hb : v.base with
  | none => rfl
  | some b =>
    obtain ⟨hid, hname⟩ := hbase b hb
    dsimp only
    rw [nextOf_withNames]
    by_cases hnext : nextOf b frame.vecs = some v.id
    · rw [if_pos hnext, if_pos hnext]
    · rw [if_neg hnext, if_neg hnext,
        ensureName_of_named hid (by rw [hname]; exact Option.some_ne_none _), namedBase,
        vecName_withNames hid, hname]
      rfl

theorem objBaseName_named {prev anchor : Option ℕ} (hanchor : Named frame names name anchor) :
    objBaseName (withNames names frame.vecs) prev anchor = anchorText name prev anchor := by
  cases anchor with
  | none => rfl
  | some b =>
    obtain ⟨hid, hname⟩ := hanchor b rfl
    rw [objBaseName, anchorText, namedBase, vecName_withNames hid, hname]
    rfl

theorem nameAnchors_named {prev : Option ℕ} {o : Obj (Option ℕ)}
    (hanchors : ∀ a ∈ o.anchors, Named frame names name a) :
    nameAnchors (withNames names frame.vecs) prev o = withNames names frame.vecs := by
  unfold nameAnchors
  generalize o.anchors = anchors at hanchors
  induction anchors with
  | nil => rfl
  | cons a anchors ih =>
    rw [List.forall_mem_cons] at hanchors
    rw [List.foldl_cons]
    cases a with
    | none => exact ih hanchors.2
    | some b =>
      obtain ⟨hid, hname⟩ := hanchors.1 b rfl
      dsimp only
      rw [ensureName_of_named hid (by rw [hname]; exact Option.some_ne_none _), ite_self]
      exact ih hanchors.2

/-- Two vectors are not printed the same. -/
theorem anchorText_injective {vecs done : List Vec} (hnaming : Naming vecs done names)
    {prev a b : Option ℕ} (ha : ∀ i ∈ a, i ∈ vecs.map Vec.id ∧ names i = some (name i))
    (hb : ∀ i ∈ b, i ∈ vecs.map Vec.id ∧ names i = some (name i))
    (heq : anchorText name prev a = anchorText name prev b) : a = b := by
  cases a with
  | none =>
    cases b with
    | none => rfl
    | some j =>
      rw [anchorText, anchorText] at heq
      split at heq <;> cases heq
  | some i =>
    cases b with
    | none =>
      rw [anchorText, anchorText] at heq
      split at heq <;> cases heq
    | some j =>
      rw [anchorText, anchorText] at heq
      split at heq
      · rename_i hi
        split at heq
        · rename_i hj
          exact hi.trans hj.symm
        · cases heq
      · split at heq
        · cases heq
        · obtain ⟨hid, hname⟩ := ha i rfl
          obtain ⟨hjd, hjname⟩ := hb j rfl
          obtain ⟨u, hu, rfl⟩ := List.mem_map.mp hid
          obtain ⟨w, hw, rfl⟩ := List.mem_map.mp hjd
          have hsame : names u.id = names w.id := by
            rw [hname, hjname, BaseText.named.inj heq]
          have hne : names u.id ≠ none := by
            rw [hname]
            exact Option.some_ne_none _
          rw [hnaming.distinct u hu w hw hsame hne]

end Named

theorem eq_some_getD {o : Option Name} (ho : o ≠ none) : o = some (o.getD []) := by
  obtain ⟨n, rfl⟩ := Option.ne_none_iff_exists'.mp ho
  rfl

def Agrees (names : ℕ → Option Name) (name : ℕ → Name) : Prop :=
  ∀ id, names id ≠ none → names id = some (name id)

theorem Naming.named_anchor {names : ℕ → Option Name} {name : ℕ → Name} {done : List Vec}
    (hnaming : Naming frame.vecs done names) (hsub : ∀ v ∈ vecsOf items, v ∈ frame.vecs)
    (hdone : ∀ v ∈ vecsOf items, v ∈ done) (hname : Agrees names name) {a : Option ℕ}
    (ha : later items a = false) : Named frame names name a := by
  intro b hb
  obtain ⟨u, hu, rfl⟩ := List.mem_map.mp (later_eq_false.mp ha b hb)
  exact ⟨List.mem_map_of_mem (hsub u hu), hname _ (hnaming.named u (hdone u hu))⟩

/-- An item is printed as one line. -/
theorem dumpItem_line (hframe : frame.BasesFirst) (hitems : Fitting frame items) {item : Item}
    (hfits : item.Fits frame items) (hnodup : (vecsOf (items ++ [item])).Nodup)
    {names : ℕ → Option Name} (hnaming : Naming frame.vecs (vecsOf items) names) :
    ∃ names', Naming frame.vecs (vecsOf (items ++ [item])) names' ∧
      (∀ id, names id ≠ none → names' id = names id) ∧
      ∀ name, Agrees names' name →
        dumpItem indent (withNames names frame.vecs) item =
          (withNames names' frame.vecs,
            indent ++ lineText (itemLine frame.vecs name item) ++ text "\n") := by
  cases item with
  | vec v =>
    obtain ⟨hv, hbase⟩ := hfits
    have hnew : v ∉ vecsOf items := by
      rw [vecsOf_append, List.nodup_append] at hnodup
      exact fun hmem => hnodup.2.2 v hmem v List.mem_cons_self rfl
    obtain ⟨names', hensure, hnaming', hkeep⟩ := hnaming.ensureName hframe.ids hv hnew
    refine ⟨names', by simpa using hnaming', hkeep, ?_⟩
    intro name hname
    have hv' : names' v.id = some (name v.id) :=
      hname _ (hnaming'.named v (List.mem_append_right _ List.mem_cons_self))
    have hnamed : Named frame names' name v.base := hnaming'.named_anchor hitems.vecs_subset
      (fun u hu => List.mem_append_left _ hu) hname hbase
    simp only [dumpItem, hensure, vecBaseName_named hnamed,
      vecName_withNames (List.mem_map_of_mem hv), hv', itemLine, lineText, List.append_assoc]
  | obj prev place o =>
    obtain ⟨-, -, hanchors, -⟩ := hfits
    refine ⟨names, by simpa using hnaming, fun id _ => rfl, ?_⟩
    intro name hname
    have hnamed : ∀ a ∈ o.anchors, Named frame names name a := fun a ha =>
      hnaming.named_anchor hitems.vecs_subset (fun u hu => hu) hname (hanchors a ha)
    have htext : ∀ a ∈ o.anchors,
        objBaseName (withNames names frame.vecs) prev a = anchorText name prev a := fun a ha =>
      objBaseName_named (hnamed a ha)
    have hprint : printObj (objBaseName (withNames names frame.vecs) prev) o =
        printObj id (o.map (anchorText name prev)) := by
      rw [printObj_map, Obj.map_congr htext]
      intro a ha b hb heq
      rw [htext a ha, htext b hb] at heq
      exact anchorText_injective hnaming (hnamed a ha) (hnamed b hb) heq
    simp only [dumpItem, nameAnchors_named hnamed, hprint, itemLine, lineText, Obj.map,
      List.append_assoc]

/-- **The lines.** The items are printed line by line, under names that are all different. -/
theorem dumpItems_lines (hframe : frame.BasesFirst) (hnames : (vecNames frame.vecs).Nodup)
    (hitems : Fitting frame items) (hnodup : (vecsOf items).Nodup) :
    ∃ names, Naming frame.vecs (vecsOf items) names ∧
      (dumpItems indent frame.vecs items).1 = withNames names frame.vecs ∧
      ∀ name, Agrees names name →
        (dumpItems indent frame.vecs items).2 =
          linesText indent (items.map (itemLine frame.vecs name)) := by
  induction hitems with
  | nil =>
    exact ⟨vecName frame.vecs, naming_start hframe.ids hnames,
      (withNames_vecName hframe.ids).symm, fun _ _ => rfl⟩
  | @snoc items item hprev hfits ih =>
    have hnodup' : (vecsOf items).Nodup := by
      rw [vecsOf_append, List.nodup_append] at hnodup
      exact hnodup.1
    obtain ⟨names, hnaming, hvecs, htext⟩ := ih hnodup'
    obtain ⟨names', hnaming', hkeep, hitem⟩ :=
      dumpItem_line hframe hprev hfits hnodup hnaming
    have hsnoc : dumpItems indent frame.vecs (items ++ [item]) =
        ((dumpItem indent (withNames names frame.vecs) item).1,
          (dumpItems indent frame.vecs items).2 ++
            (dumpItem indent (withNames names frame.vecs) item).2) := by
      rw [dumpItems_append, hvecs]
      simp only [dumpItems, List.append_nil]
    rw [hsnoc]
    refine ⟨names', hnaming', ?_, ?_⟩
    · have hname : Agrees names' fun id => (names' id).getD [] := fun id hid => eq_some_getD hid
      rw [hitem _ hname]
    · intro name hname
      have hbefore : Agrees names name := by
        intro id hid
        rw [← hkeep id hid]
        apply hname
        rwa [hkeep id hid]
      rw [htext name hbefore, hitem name hname, List.map_append, linesText, linesText,
        List.flatMap_append]
      simp

end Dump

end Openmoko.Fped
