import Openmoko.Opkgutils.Packages

/-!
# Reading one record

`read_control` reads field by field what `__repr__` writes, up to the empty line. Not read back are a
value of several lines, whose lines keep their newlines when they are joined, and the installed size,
which is written under a name that is not known.
-/

namespace Openmoko.Opkgutils

variable {line : Text}

theorem splitLines_append (hline : LF ∉ line) (rest : Text) :
    splitLines (line ++ LF :: rest) = (line ++ [LF]) :: splitLines rest := by
  induction line with
  | nil => rw [List.nil_append, splitLines, if_pos rfl, List.nil_append]
  | cons c line ih =>
    rw [List.mem_cons, not_or] at hline
    rw [List.cons_append, splitLines, if_neg (Ne.symm hline.1), ih hline.2, List.cons_append]

theorem count_le_length_splitLines (s : Text) : s.count LF ≤ (splitLines s).length := by
  induction s with
  | nil => exact Nat.le_refl 0
  | cons c s ih =>
    rw [splitLines]
    split
    case isTrue heq =>
      subst heq
      rw [List.count_cons_self, List.length_cons]
      exact Nat.succ_le_succ ih
    case isFalse hne =>
      rw [List.count_cons_of_ne hne]
      cases hlines : splitLines s with
      | nil =>
        rw [hlines] at ih
        exact ih.trans (Nat.zero_le _)
      | cons line lines =>
        rw [hlines] at ih
        exact ih

theorem rstrip_append {before : Text} {c : Byte} (hc : isspace c = false) (after : Text) :
    rstrip (before ++ c :: after) = before ++ c :: rstrip after := by
  induction after using List.reverseRecOn with
  | nil =>
    rw [rstrip, List.rdropWhile_concat_neg _ _ _ (by simp [hc])]
    rfl
  | append_singleton after d ih =>
    rw [← List.cons_append, ← List.append_assoc, rstrip, rstrip]
    by_cases hd : isspace d = true
    · rw [List.rdropWhile_concat_pos _ _ _ hd, List.rdropWhile_concat_pos _ _ _ hd]
      exact ih
    · rw [List.rdropWhile_concat_neg _ _ _ hd, List.rdropWhile_concat_neg _ _ _ hd]
      simp

def strip (s : Text) : Text := (rstrip s).dropWhile isspace

theorem strip_line (s : Text) : strip (32 :: s ++ [LF]) = strip s := by
  rw [strip, rstrip, List.rdropWhile_concat_pos _ _ _ (by decide)]
  induction s using List.reverseRecOn with
  | nil => rfl
  | append_singleton s c ih =>
    rw [strip, rstrip, ← List.cons_append]
    by_cases hc : isspace c = true
    · rw [List.rdropWhile_concat_pos _ _ _ hc, List.rdropWhile_concat_pos _ _ _ hc]
      exact ih
    · rw [List.rdropWhile_concat_neg _ _ _ hc, List.rdropWhile_concat_neg _ _ _ hc,
        List.cons_append, List.dropWhile_cons_of_pos (by decide)]

theorem strip_sublist (s : Text) : (strip s).Sublist s :=
  (List.dropWhile_sublist _).trans (List.rdropWhile_prefix _ _).sublist

theorem strip_eq_self {s : Text} (hstart : ∀ c ∈ s.head?, isspace c = false)
    (hend : ∀ c ∈ s.getLast?, isspace c = false) : strip s = s := by
  have hrstrip : rstrip s = s := by
    rw [rstrip, List.rdropWhile_eq_self_iff]
    intro hne
    rw [hend _ (List.getLast?_eq_some_getLast hne)]
    exact Bool.false_ne_true
  rw [strip, hrstrip]
  cases s with
  | nil => rfl
  | cons c s => exact List.dropWhile_cons_of_neg (by simp [hstart c rfl])

structure FieldValue where
  first : Text
  conts : List Text
  newline_notMem : LF ∉ first
  cont : ∀ c ∈ conts, c.head? = some 32 ∧ LF ∉ c ∧ ∃ b ∈ c, isspace b = false
  first_start : conts = [] → ∀ c ∈ first.head?, isspace c = false
  first_end : conts = [] → ∀ c ∈ first.getLast?, isspace c = false

def FieldValue.text (v : FieldValue) : Text := v.first ++ v.conts.flatMap (LF :: ·)

def FieldValue.reread (v : FieldValue) : Text :=
  strip v.first ++ v.conts.flatMap fun c => LF :: (c ++ [LF])

def IsFieldValue (text : Text) : Prop := ∃ v : FieldValue, v.text = text

variable {v : FieldValue}

theorem FieldValue.text_of_single (hv : v.conts = []) : v.text = v.first := by
  rw [FieldValue.text, hv, List.flatMap_nil, List.append_nil]

theorem FieldValue.reread_of_single (hv : v.conts = []) : v.reread = v.text := by
  rw [FieldValue.text_of_single hv, FieldValue.reread, hv, List.flatMap_nil, List.append_nil,
    strip_eq_self (v.first_start hv) (v.first_end hv)]

theorem FieldValue.newline_mem_text_iff : LF ∈ v.text ↔ v.conts ≠ [] := by
  rw [FieldValue.text, List.mem_append, or_iff_right v.newline_notMem]
  constructor
  · rintro hmem heq
    rw [heq] at hmem
    exact List.not_mem_nil hmem
  · intro hne
    obtain ⟨c, conts, hconts⟩ := List.exists_cons_of_ne_nil hne
    rw [hconts, List.flatMap_cons]
    exact List.mem_cons_self

theorem FieldValue.getLast?_text (v : FieldValue) : v.text.getLast? ≠ some LF := by
  intro hlast
  have hmem := List.mem_of_getLast? hlast
  obtain ⟨conts, c, hconts⟩ := List.eq_nil_or_concat v.conts |>.resolve_left
    (FieldValue.newline_mem_text_iff.mp hmem)
  have hc := v.cont c (by simp [hconts])
  have hne : c ≠ [] := by
    rintro rfl
    exact absurd hc.1 (by simp)
  have htext : v.text = v.first ++ conts.flatMap (LF :: ·) ++ [LF] ++ c := by
    rw [FieldValue.text, hconts]
    simp
  rw [htext, List.getLast?_append_of_ne_nil _ hne] at hlast
  exact hc.2.1 (List.mem_of_getLast? hlast)

theorem FieldValue.getLast?_reread (hv : v.conts ≠ []) : v.reread.getLast? = some LF := by
  obtain ⟨conts, c, hconts⟩ := List.eq_nil_or_concat v.conts |>.resolve_left hv
  have hreread : v.reread =
      strip v.first ++ (conts.flatMap fun c => LF :: (c ++ [LF])) ++ LF :: c ++ [LF] := by
    rw [FieldValue.reread, hconts]
    simp
  rw [hreread, List.getLast?_concat]

theorem FieldValue.single_of_reread_eq {v' : FieldValue} (heq : v.reread = v'.text) :
    v.conts = [] ∧ v.text = v'.text := by
  have hv : v.conts = [] := by
    by_contra hne
    exact v'.getLast?_text (heq ▸ FieldValue.getLast?_reread hne)
  exact ⟨hv, (FieldValue.reread_of_single hv).symm.trans heq⟩

theorem FieldValue.reread_ne_nil (hv : v.text ≠ []) : v.reread ≠ [] := by
  by_cases hconts : v.conts = []
  · rw [FieldValue.reread_of_single hconts]
    exact hv
  · intro hnil
    have hlast := FieldValue.getLast?_reread hconts
    rw [hnil] at hlast
    cases hlast

def flush (field : Option (Text × Text)) (pkg : Package) : Option Package :=
  match field with
  | none => some pkg
  | some (name, value) => pkg.setField name value

variable {pkg : Package} {label : Text} {lf : Text × Field} {a : Attr}

theorem readControl_line {field : Option (Text × Text)}
    {lines : List Text} (hblank : line.head? ≠ some 32) (hnewline : line.head? ≠ some LF) :
    readControl field pkg (line :: lines) =
      (flush field pkg).bind fun pkg => readControl (matchField (rstrip line)) pkg lines := by
  match field with
  | none => rfl
  | some (name, value) =>
    rw [readControl, if_neg hblank]
    simp only [hnewline, if_false]
    rfl

theorem readControl_conts {name value : Text} {conts lines : List Text}
    (hconts : ∀ c ∈ conts, c.head? = some 32) :
    readControl (some (name, value)) pkg (conts.map (· ++ [LF]) ++ lines) =
      readControl (some (name, value ++ conts.flatMap fun c => LF :: (c ++ [LF]))) pkg lines := by
  induction conts generalizing value with
  | nil => rw [List.map_nil, List.nil_append, List.flatMap_nil, List.append_nil]
  | cons c conts ih =>
    have hhead : (c ++ [LF]).head? = some 32 := by
      rw [List.head?_append, hconts c List.mem_cons_self]
      rfl
    rw [List.map_cons, List.cons_append, readControl, if_pos hhead,
      ih fun c hc => hconts c (List.mem_cons_of_mem _ hc)]
    simp

theorem splitLines_value (hlabel : LF ∉ label) (rest : Text) :
    splitLines (label ++ (v.text ++ LF :: rest)) =
      (label ++ v.first ++ [LF]) :: (v.conts.map (· ++ [LF]) ++ splitLines rest) := by
  have hfirst : LF ∉ label ++ v.first := by
    rw [List.mem_append, not_or]
    exact ⟨hlabel, v.newline_notMem⟩
  have hconts : ∀ c ∈ v.conts, LF ∉ c := fun c hc => (v.cont c hc).2.1
  rw [FieldValue.text, List.append_assoc, ← List.append_assoc]
  generalize label ++ v.first = first at hfirst
  generalize v.conts = conts at hconts
  induction conts generalizing first with
  | nil =>
    rw [List.flatMap_nil, List.nil_append, splitLines_append hfirst]
    rfl
  | cons c conts ih =>
    rw [List.flatMap_cons, List.cons_append, List.cons_append, splitLines_append hfirst,
      List.append_assoc, ih c (hconts c List.mem_cons_self)
        fun c hc => hconts c (List.mem_cons_of_mem _ hc)]
    rfl

def IsLabel (label : Text) : Prop := label ≠ [] ∧ ∀ c ∈ label, isNameByte c = true

theorem matchField_label (hlabel : IsLabel label) {first : Text} (hfirst : LF ∉ first) :
    matchField (rstrip (label ++ ascii ": " ++ first ++ [LF])) =
      some (lower label, strip first) := by
  have hcolon : label ++ ascii ": " ++ first ++ [LF] = label ++ 58 :: (32 :: first ++ [LF]) := by
    simp [ascii]
  have hdrop : (label ++ 58 :: rstrip (32 :: first ++ [LF])).dropWhile isNameByte =
      58 :: rstrip (32 :: first ++ [LF]) := by
    rw [List.dropWhile_append_of_pos hlabel.2]
    rfl
  have htake : (label ++ 58 :: rstrip (32 :: first ++ [LF])).takeWhile isNameByte = label := by
    rw [List.takeWhile_append_of_pos hlabel.2]
    simp [isNameByte, isalpha, isupper, islower, isdigit]
  have hvalue : anything (strip first) = strip first := by
    rw [anything, List.takeWhile_eq_self_iff]
    intro c hc
    exact decide_eq_true fun heq => hfirst ((strip_sublist first).subset (heq ▸ hc))
  rw [hcolon, rstrip_append (by decide), matchField, hdrop, htake]
  simp only
  rw [← hvalue, ← strip_line first, strip]

theorem readControl_field {field : Option (Text × Text)} {pkg' : Package}
    (hlabel : IsLabel label) (v : FieldValue) (rest : Text) (hflush : flush field pkg = some pkg') :
    readControl field pkg
        (splitLines (fieldText label (some v.text) ++ rest)) =
      readControl (some (lower label, v.reread)) pkg' (splitLines rest) := by
  have hLF : LF ∉ label ++ ascii ": " := by
    rw [List.mem_append, not_or]
    exact ⟨fun hmem => absurd (hlabel.2 LF hmem) (by decide), by decide⟩
  have htext : fieldText label (some v.text) ++ rest =
      label ++ ascii ": " ++ (v.text ++ LF :: rest) := by
    simp [fieldText]
  obtain ⟨c, cs, hcons⟩ := List.exists_cons_of_ne_nil hlabel.1
  have hc := hlabel.2 c (by simp [hcons])
  have hhead : (label ++ ascii ": " ++ v.first ++ [LF]).head? = some c := by simp [hcons]
  rw [htext, splitLines_value hLF, readControl_line, hflush, Option.bind_some,
    matchField_label hlabel v.newline_notMem, readControl_conts fun c hc => (v.cont c hc).1]
  · rfl
  · rw [hhead]
    rintro ⟨⟩
    exact absurd hc (by decide)
  · rw [hhead]
    rintro ⟨⟩
    exact absurd hc (by decide)

/-! ### Reading a record -/

def Package.store (pkg : Package) : Field → Text → Package
  | .attr a, value => { pkg with dict := Function.update pkg.dict a (some value) }
  | .md5, value => { pkg with md5 := some value }
  | .size, value => { pkg with size := parseInt value }
  | .installedSize, _ => pkg

theorem isLabel_of_mem (hlf : lf ∈ fields) : IsLabel lf.1 := by
  have hall : ∀ lf ∈ fields, lf.1 ≠ [] ∧ lf.1.all isNameByte = true := by decide
  obtain ⟨hne, hbytes⟩ := hall lf hlf
  exact ⟨hne, List.all_eq_true.mp hbytes⟩

def Names (name : Text) : Field → Prop
  | .attr a => name ≠ ascii "size" ∧ name ≠ ascii "md5sum" ∧ Attr.ofName name = some a
  | .md5 => name = ascii "md5sum"
  | .size => name = ascii "size"
  | .installedSize => name ≠ ascii "size" ∧ name ≠ ascii "md5sum" ∧ Attr.ofName name = none ∧
      name ≠ ascii "md5"

instance (name : Text) : ∀ field : Field, Decidable (Names name field)
  | .attr _ => inferInstanceAs (Decidable (_ ∧ _ ∧ _))
  | .md5 => inferInstanceAs (Decidable (_ = _))
  | .size => inferInstanceAs (Decidable (_ = _))
  | .installedSize => inferInstanceAs (Decidable (_ ∧ _ ∧ _ ∧ _))

theorem names_of_mem : ∀ lf ∈ fields, Names (lower lf.1) lf.2 := by decide

theorem setField_store (hlf : lf ∈ fields) {value : Text}
    (hsize : lf.2 = .size → (parseInt value).isSome = true) (pkg : Package) :
    pkg.setField (lower lf.1) value = some (pkg.store lf.2 value) := by
  have hnames := names_of_mem lf hlf
  obtain ⟨label, field⟩ := lf
  cases field with
  | attr a =>
    obtain ⟨hsizeName, hmd5Name, hattr⟩ := hnames
    rw [Package.setField, if_neg hsizeName, if_neg hmd5Name, hattr]
    rfl
  | md5 =>
    have hname : lower label = ascii "md5sum" := hnames
    rw [Package.setField, hname, if_neg (by decide), if_pos rfl]
    rfl
  | size =>
    have hname : lower label = ascii "size" := hnames
    obtain ⟨size, hparse⟩ := Option.isSome_iff_exists.mp (hsize rfl)
    rw [Package.setField, if_pos hname, hparse, Package.store, hparse]
    rfl
  | installedSize =>
    obtain ⟨hsizeName, hmd5Name, hattr, hname⟩ := hnames
    rw [Package.setField, if_neg hsizeName, if_neg hmd5Name, hattr]
    simp only [hname, false_and, if_false]
    rfl

abbrev Values := Field → Option FieldValue

def recordText (fs : List (Text × Field)) (vs : Values) : Text :=
  (fs.map fun lf => fieldText lf.1 ((vs lf.2).map FieldValue.text)).flatten

def storeField (vs : Values) (pkg : Package) (lf : Text × Field) : Package :=
  match vs lf.2 with
  | none => pkg
  | some v => pkg.store lf.2 v.reread

def readBack (vs : Values) : Package := fields.foldl (storeField vs) Package.new

theorem readControl_fields {vs : Values}
    (hsize : ∀ v, vs .size = some v → (parseInt v.reread).isSome = true) (rest : Text)
    {fs : List (Text × Field)} (hfs : ∀ lf ∈ fs, lf ∈ fields) {field : Text × Text}
    {pkg' : Package} (hflush : flush (some field) pkg = some pkg') :
    readControl (some field) pkg (splitLines (recordText fs vs ++ LF :: rest)) =
      some (fs.foldl (storeField vs) pkg', splitLines rest) := by
  induction fs generalizing field pkg pkg' with
  | nil =>
    have hset : pkg.setField field.1 field.2 = some pkg' := hflush
    have hline : splitLines (LF :: rest) = [LF] :: splitLines rest := by
      rw [splitLines, if_pos rfl]
    rw [recordText, List.map_nil, List.flatten_nil, List.nil_append, hline, readControl,
      if_neg (by decide), hset]
    rfl
  | cons lf fs ih =>
    have hmem := hfs lf List.mem_cons_self
    have hrest : ∀ lf ∈ fs, lf ∈ fields := fun lf hlf => hfs lf (List.mem_cons_of_mem _ hlf)
    have htext : recordText (lf :: fs) vs =
        fieldText lf.1 ((vs lf.2).map FieldValue.text) ++ recordText fs vs := by
      rw [recordText, List.map_cons, List.flatten_cons]
      rfl
    rw [htext, List.append_assoc, List.foldl_cons]
    cases hv : vs lf.2 with
    | none =>
      have hstore : storeField vs pkg' lf = pkg' := by rw [storeField, hv]
      rw [Option.map_none, fieldText, List.nil_append, hstore]
      exact ih hrest hflush
    | some v =>
      have hstore : storeField vs pkg' lf = pkg'.store lf.2 v.reread := by rw [storeField, hv]
      rw [Option.map_some, readControl_field (isLabel_of_mem hmem) v _ hflush, hstore]
      exact ih hrest (setField_store hmem (fun heq => hsize v (heq ▸ hv)) pkg')

/-- **A record is read to its end.** -/
theorem readControl_record {vs : Values}
    (hsize : ∀ v, vs .size = some v → (parseInt v.reread).isSome = true)
    (hnamed : (vs (.attr .package)).isSome = true) (rest : Text) :
    readControl none Package.new (splitLines (recordText fields vs ++ LF :: rest)) =
      some (readBack vs, splitLines rest) := by
  obtain ⟨v, hv⟩ := Option.isSome_iff_exists.mp hnamed
  obtain ⟨fs, hfields⟩ : ∃ fs, fields = (ascii "Package", .attr .package) :: fs := ⟨_, rfl⟩
  have hmem : (ascii "Package", Field.attr .package) ∈ fields := by
    rw [hfields]
    exact List.mem_cons_self
  have htext : recordText fields vs =
      fieldText (ascii "Package") (some v.text) ++ recordText fs vs := by
    rw [recordText, hfields, List.map_cons, List.flatten_cons, hv]
    rfl
  have hback : readBack vs =
      fs.foldl (storeField vs) (Package.new.store (.attr .package) v.reread) := by
    rw [readBack, hfields, List.foldl_cons, storeField, hv]
  have hnew : flush none Package.new = some Package.new := rfl
  rw [htext, List.append_assoc, readControl_field (isLabel_of_mem hmem) v _ hnew, hback]
  exact readControl_fields hsize rest
    (fun lf hlf => by rw [hfields]; exact List.mem_cons_of_mem _ hlf)
    (setField_store hmem nofun Package.new)

theorem formatInt_head (n : ℤ) : ∃ c s, formatInt n = c :: s ∧ isspace c = false := by
  obtain ⟨d, digits, hcons⟩ := List.exists_cons_of_ne_nil (decimal_ne_nil n.natAbs)
  rw [formatInt]
  split
  · exact ⟨45, decimal n.natAbs, rfl, by decide⟩
  · have hd := isdigit_of_mem_decimal n.natAbs d (by simp [hcons])
    exact ⟨d, digits, hcons, not_isspace_of_isdigit hd⟩

theorem formatInt_last (n : ℤ) : ∀ c ∈ (formatInt n).getLast?, isspace c = false := by
  intro c hc
  have hlast : (decimal n.natAbs).getLast? = some c := by
    rw [formatInt] at hc
    split at hc
    · rwa [List.getLast?_append_of_ne_nil _ (decimal_ne_nil _)] at hc
    · exact hc
  exact not_isspace_of_isdigit (isdigit_of_mem_decimal _ c (List.mem_of_getLast? hlast))

theorem newline_notMem_formatInt (n : ℤ) : LF ∉ formatInt n := by
  have hdecimal : LF ∉ decimal n.natAbs :=
    fun hmem => absurd (isdigit_of_mem_decimal _ LF hmem) (by decide)
  rw [formatInt]
  split
  · rw [List.mem_append, not_or]
    exact ⟨by decide, hdecimal⟩
  · exact hdecimal

theorem parseInt_formatInt (n : ℤ) : parseInt (formatInt n) = some n := by
  obtain ⟨c, s, hcons, hc⟩ := formatInt_head n
  have hdrop : (formatInt n).dropWhile isspace = formatInt n := by
    rw [hcons, List.dropWhile_cons_of_neg (by simp [hc])]
  have hstart : rstrip ((formatInt n).dropWhile isspace) = formatInt n := by
    rw [hdrop, rstrip, List.rdropWhile_eq_self_iff]
    intro hne
    rw [formatInt_last n _ (List.getLast?_eq_some_getLast hne)]
    exact Bool.false_ne_true
  have hall : (decimal n.natAbs).all isdigit = true :=
    List.all_eq_true.mpr (isdigit_of_mem_decimal _)
  rw [parseInt, hstart]
  by_cases hneg : n < 0
  · have hformat : formatInt n = 45 :: decimal n.natAbs := if_pos hneg
    simp only [hformat, List.head?_cons, BEq.rfl, Bool.true_or, if_true, List.tail_cons, hall,
      decimal_ne_nil, not_true_eq_false, or_self, if_false, decimalValue_decimal]
    congr 1
    omega
  · have hformat : formatInt n = decimal n.natAbs := if_neg hneg
    obtain ⟨-, hsign⟩ := decimal_start n.natAbs []
    rw [List.append_nil] at hsign
    simp only [hformat, hsign 45 (by decide), hsign 43 (by decide), Bool.or_self,
      Bool.false_eq_true, hall, decimal_ne_nil, not_true_eq_false, or_self, if_false,
      decimalValue_decimal]
    congr 1
    omega

def FieldValue.ofLine (line : Text) (hline : LF ∉ line)
    (hstart : ∀ c ∈ line.head?, isspace c = false) (hend : ∀ c ∈ line.getLast?, isspace c = false) :
    FieldValue where
  first := line
  conts := []
  newline_notMem := hline
  cont := nofun
  first_start _ := hstart
  first_end _ := hend

theorem isFieldValue_line (hline : LF ∉ line)
    (hstart : ∀ c ∈ line.head?, isspace c = false) (hend : ∀ c ∈ line.getLast?, isspace c = false) :
    IsFieldValue line :=
  ⟨FieldValue.ofLine line hline hstart hend, FieldValue.text_of_single rfl⟩

theorem isFieldValue_formatInt (n : ℤ) : IsFieldValue (formatInt n) := by
  refine isFieldValue_line (newline_notMem_formatInt n) ?_ (formatInt_last n)
  obtain ⟨c, s, hcons, hc⟩ := formatInt_head n
  rw [hcons]
  rintro _ ⟨⟩
  exact hc

theorem isFieldValue_hexdigest (file : File) : IsFieldValue file.hexdigest := by
  have hspace : ∀ c ∈ file.hexdigest, isspace c = false := by
    intro c hc
    have hdigit := file.isxdigit_of_mem c hc
    rw [isxdigit, Bool.or_eq_true] at hdigit
    rcases hdigit with hdigit | hdigit
    · exact not_isspace_of_isdigit hdigit
    · rw [Bool.and_eq_true, decide_eq_true_iff, UInt8.le_iff_toNat_le] at hdigit
      have hlow : 97 ≤ c.toNat := hdigit.1
      rw [isspace, Bool.or_eq_false_iff, Bool.and_eq_false_iff]
      refine ⟨beq_eq_false_iff_ne.mpr fun heq => ?_, Or.inr (decide_eq_false fun hle => ?_)⟩
      · subst heq
        exact absurd hlow (by decide)
      · rw [UInt8.le_iff_toNat_le] at hle
        exact absurd (hlow.trans hle) (by decide)
  have hLF : LF ∉ file.hexdigest := fun hmem => absurd (hspace LF hmem) (by decide)
  exact isFieldValue_line hLF (fun c hc => hspace c (List.mem_of_mem_head? hc))
    (fun c hc => hspace c (List.mem_of_getLast? hc))

/-! ### What has been read -/

variable {vs : Values}

theorem foldl_storeField {β : Type} (observe : Package → β) (field : Field)
    (hother : ∀ pkg f value, f ≠ field → observe (pkg.store f value) = observe pkg)
    (hself : ∀ (pkg pkg' : Package) (value : Text),
      observe (pkg.store field value) = observe (pkg'.store field value))
    (fs : List (Text × Field)) (pkg : Package) :
    observe (fs.foldl (storeField vs) pkg) =
      if field ∈ fs.map Prod.snd then
        match vs field with
        | none => observe pkg
        | some v => observe (pkg.store field v.reread)
      else observe pkg := by
  induction fs generalizing pkg with
  | nil => rfl
  | cons lf fs ih =>
    rw [List.foldl_cons, ih, List.map_cons]
    by_cases heq : lf.2 = field
    · subst heq
      rw [if_pos List.mem_cons_self, storeField]
      cases vs lf.2 with
      | none => simp
      | some v =>
        simp only [hself (pkg.store lf.2 v.reread) pkg, ite_self]
    · have hstep : observe (storeField vs pkg lf) = observe pkg := by
        rw [storeField]
        cases vs lf.2 with
        | none => rfl
        | some v => exact hother pkg lf.2 v.reread heq
      have hmem : field ∈ lf.2 :: fs.map Prod.snd ↔ field ∈ fs.map Prod.snd := by
        rw [List.mem_cons, or_iff_right (Ne.symm heq)]
      simp only [hmem, hstep]
      cases vs field with
      | none => rfl
      | some v => simp only [hself (storeField vs pkg lf) pkg]

theorem new_dict_of_ne (ha : a ≠ .version) : Package.new.dict a = none := by
  cases a with
  | version => exact absurd rfl ha
  | _ => rfl

theorem store_dict_of_ne (pkg : Package) (field : Field) (value : Text)
    (hne : field ≠ .attr a) : (pkg.store field value).dict a = pkg.dict a := by
  cases field with
  | attr b => exact Function.update_of_ne (fun heq : a = b => hne (heq ▸ rfl)) _ _
  | _ => rfl

theorem store_dict_self (a : Attr) (pkg : Package) (value : Text) :
    (pkg.store (.attr a) value).dict a = some value := Function.update_self a _ _

theorem readBack_dict (ha : .attr a ∈ fields.map Prod.snd) : (readBack vs).dict a =
      match vs (.attr a) with
      | none => Package.new.dict a
      | some v => some v.reread := by
  rw [readBack, foldl_storeField (fun pkg => pkg.dict a) (.attr a) store_dict_of_ne
    (fun pkg pkg' value => by rw [store_dict_self, store_dict_self]) fields, if_pos ha]
  cases vs (.attr a) with
  | none => rfl
  | some v => exact store_dict_self a _ _

theorem readBack_dict_of_notMem (ha : .attr a ∉ fields.map Prod.snd) :
    (readBack vs).dict a = Package.new.dict a := by
  rw [readBack, foldl_storeField (fun pkg => pkg.dict a) (.attr a) store_dict_of_ne
    (fun pkg pkg' value => by rw [store_dict_self, store_dict_self]) fields, if_neg ha]

theorem readBack_md5 : (readBack vs).md5 = (vs .md5).map FieldValue.reread := by
  rw [readBack, foldl_storeField Package.md5 .md5 _ (fun _ _ _ => rfl) fields, if_pos (by decide)]
  · cases vs .md5 with
    | none => rfl
    | some v => rfl
  · intro pkg field value hne
    cases field with
    | md5 => exact absurd rfl hne
    | _ => rfl

theorem readBack_size : (readBack vs).size = (vs .size).bind fun v => parseInt v.reread := by
  rw [readBack, foldl_storeField Package.size .size _ (fun _ _ _ => rfl) fields, if_pos (by decide)]
  · cases vs .size with
    | none => rfl
    | some v => rfl
  · intro pkg field value hne
    cases field with
    | size => exact absurd rfl hne
    | _ => rfl

variable {files : Text → Option File}

theorem truthy_eq_some_iff {value : Option Text} {v : Text} :
    truthy value = some v ↔ value = some v ∧ v ≠ [] := by
  rw [truthy, Option.filter_eq_some_iff, decide_eq_true_iff]

theorem value_readBack {field : Field} (hv : vs field = some v)
    (hne : v.text ≠ [])
    (hfield : field = .md5 ∨ ∃ a, field = .attr a ∧ field ∈ fields.map Prod.snd) :
    (readBack vs).value files field = some (some v.reread) := by
  have htruthy : truthy (some v.reread) = some v.reread :=
    truthy_eq_some_iff.mpr ⟨rfl, FieldValue.reread_ne_nil hne⟩
  rcases hfield with rfl | ⟨a, rfl, ha⟩
  · rw [Package.value, Package.getMd5, readBack_md5, hv]
    exact congrArg some htruthy
  · rw [Package.value, readBack_dict ha, hv]
    exact congrArg some htruthy

theorem of_value_readBack (hlf : lf ∈ fields) {w : Text}
    (hw : (readBack vs).value files lf.2 = some (some w)) :
    LF ∉ w ∨ ∃ v : FieldValue, v.reread = w := by
  have hmem : lf.2 ∈ fields.map Prod.snd := List.mem_map_of_mem hlf
  obtain ⟨label, field⟩ := lf
  cases field with
  | attr a =>
    obtain ⟨hdict, -⟩ := truthy_eq_some_iff.mp (Option.some.inj hw)
    rw [readBack_dict hmem] at hdict
    cases hv : vs (.attr a) with
    | none =>
      rw [hv] at hdict
      by_cases hversion : a = .version
      · subst hversion
        cases hdict
        exact Or.inl (by decide)
      · have hnew : Package.new.dict a = some w := hdict
        rw [new_dict_of_ne hversion] at hnew
        cases hnew
    | some v =>
      rw [hv] at hdict
      exact Or.inr ⟨v, Option.some.inj hdict⟩
  | md5 =>
    rw [Package.value, Package.getMd5, readBack_md5] at hw
    cases hv : vs .md5 with
    | none =>
      rw [hv, readBack_dict_of_notMem (by decide)] at hw
      cases hw
    | some v =>
      rw [hv] at hw
      obtain ⟨htext, -⟩ := truthy_eq_some_iff.mp (Option.some.inj hw)
      exact Or.inr ⟨v, Option.some.inj htext⟩
  | size =>
    obtain ⟨size, -, hsize⟩ := Option.map_eq_some_iff.mp hw
    split at hsize
    · cases hsize
    · exact Or.inl (Option.some.inj hsize ▸ newline_notMem_formatInt size)
  | installedSize =>
    rw [Package.value, readBack_dict_of_notMem (by decide)] at hw
    cases hw

end Openmoko.Opkgutils
