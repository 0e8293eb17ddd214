import Openmoko.Fped.Meas
import Openmoko.Fped.Proof.UnparseRoundTrip

/-!
# Measurements survive saving, but for their names

What is written for a measurement is read back as it was, except that the item name, which
`dump_frame` writes for other objects, is left out. An offset comes back if its expression does.
-/

namespace Openmoko.Fped

structure MeasShape where
  name : Option Name
  type : MeasType
  label : Option (List Char)
  inverted : Bool
  base : VecRef
  lowQual : List Name
  high : VecRef
  highQual : List Name
  hasOffset : Bool
  deriving DecidableEq

def Meas.shape (m : Meas) : MeasShape where
  name := m.name
  type := m.type
  label := m.label
  inverted := m.inverted
  base := m.base
  lowQual := m.lowQual
  high := m.high
  highQual := m.highQual
  hasOffset := m.offset.isSome

def ScanState.lineStart : ScanState :=
  { start := .initial, isTable := false, disableKeywords := false }

def Drawing.HasVec (d : Drawing) (v : VecRef) : Prop :=
  IsName v.vec ∧
    match v.frame with
    | none => v.vec ∈ d.rootVecs
    | some frame => IsName frame ∧ ∃ f, findFrame d frame = some f ∧ v.vec ∈ f.2

def Drawing.HasQual (d : Drawing) (qual : List Name) : Prop :=
  qual.Nodup ∧ ∀ frame ∈ qual, IsName frame ∧ (findFrame d frame).isSome = true

structure Meas.WellFormed (d : Drawing) (m : Meas) : Prop where
  label : ∀ label ∈ m.label, IsString label
  base : d.HasVec m.base
  lowQual : d.HasQual m.lowQual
  high : d.HasVec m.high
  highQual : d.HasQual m.highQual
  offset : ∀ e ∈ m.offset, Produced e

/-- What is written is read back as measurements of the same shape, in the same order. -/
def Survive (d : Drawing) (ms : List Meas) : Prop :=
  ∃ ms', optMeasurements d (scan .lineStart (dumpMeasurements ms)) = some ms' ∧
    ms'.map Meas.shape = ms.map Meas.shape

/-! ### The tokens of a measurement -/

def frameTokens : Option Name → List Token
  | none => []
  | some frame => [.id frame, .ch '.']

def baseTokens (base : VecRef) (qual : List Name) : List Token :=
  qual.flatMap (fun frame => [.id frame, .ch '/']) ++ frameTokens base.frame ++ [.id base.vec]

def measKeyword : MeasType → Keyword
  | .xyNext | .xyMax => .meas
  | .xNext | .xMax => .measx
  | .yNext | .yMax => .measy

variable (type : MeasType)

def opToken (inverted : Bool) : Token :=
  if type.isMax then (if inverted then .maxInverted else .max)
  else if inverted then .nextInverted else .next

def labelTokens : Option (List Char) → List Token
  | none => []
  | some label => [.string label]

def offsetTokens : Option Expr → List Token
  | none => []
  | some e => exprTokens e .add

def measTokens (m : Meas) : List Token :=
  .keyword (measKeyword m.type) :: (labelTokens m.label ++ baseTokens m.base m.lowQual ++
    opToken m.type m.inverted :: (baseTokens m.high m.highQual ++ offsetTokens m.offset))

variable {m : Meas} {qual : List Name} {rest : List Token}

section Scan

variable {st : ScanState}

theorem scan_base (hst : st.start = .noKeyword) {d : Drawing} {base : VecRef}
    (hbase : d.HasVec base) (hqual : ∀ frame ∈ qual, IsName frame) {rest : Text}
    (hrest : Ends rest) :
    scan st (printMeasBase base qual ++ rest) = baseTokens base qual ++ scan st rest := by
  have hprefixed : ∀ {name : Name} {c : Char} {s : Text}, IsName name → c ∈ ['/', '.'] →
      scan st (nameText name ++ .chr c :: s) = .id name :: .ch c :: scan st s := by
    intro name c s hname hc
    simp only [List.mem_cons, List.not_mem_nil, or_false] at hc
    rcases hc with rfl | rfl
    · rw [scan_name hst hname (ends_chr (by decide) _), scan_single (by simp)]
    · rw [scan_name hst hname (ends_chr (by decide) _), scan_single (by simp)]
  induction qual with
  | nil =>
    obtain ⟨frame, vec⟩ := base
    cases frame with
    | none =>
      exact scan_name hst hbase.1 hrest
    | some frame =>
      have htext : printMeasBase ⟨some frame, vec⟩ [] ++ rest =
          nameText frame ++ .chr '.' :: (nameText vec ++ rest) := by
        simp [printMeasBase, framePart, text]
      rw [htext, hprefixed hbase.2.1 (by simp), scan_name hst hbase.1 hrest]
      rfl
  | cons frame qual ih =>
    rw [List.forall_mem_cons] at hqual
    have htext : printMeasBase base (frame :: qual) ++ rest =
        nameText frame ++ .chr '/' :: (printMeasBase base qual ++ rest) := by
      simp [printMeasBase, text]
    rw [htext, hprefixed hqual.1 (by simp), ih hqual.2]
    simp [baseTokens]

theorem scan_keywordText {s : String} {k : Keyword} (hname : IsName s.toList)
    (hk : scanWord .lineStart s.toList = ([.keyword k], .noKeyword)) (rest : Text) :
    scan .lineStart (text s ++ .chr ' ' :: rest) = .keyword k :: scan .noKeyword rest := by
  have hends : Ends (.chr ' ' :: rest) := ends_chr (by decide) rest
  calc scan .lineStart (text s ++ .chr ' ' :: rest)
    _ = (scanWord .lineStart s.toList).1 ++
        scan (scanWord .lineStart s.toList).2 (.chr ' ' :: rest) :=
      scan_word hname hends (by simp)
    _ = .keyword k :: scan .noKeyword rest := by rw [hk, scan_blank]; rfl

theorem scan_keyword (type : MeasType) (rest : Text) :
    scan .lineStart (text (measTypeName type) ++ .chr ' ' :: rest) =
      .keyword (measKeyword type) :: scan .noKeyword rest := by
  cases type with
  | xyNext | xyMax => exact scan_keywordText (isName_of_chars rfl) rfl rest
  | xNext | xMax => exact scan_keywordText (isName_of_chars rfl) rfl rest
  | yNext | yMax => exact scan_keywordText (isName_of_chars rfl) rfl rest

theorem scan_op (type : MeasType) (inverted : Bool) (rest : Text) :
    scan st (.chr ' ' :: (text (measOpText type inverted) ++ .chr ' ' :: rest)) =
      opToken type inverted :: scan st rest := by
  rw [scan_blank]
  unfold measOpText opToken
  cases type.isMax <;> cases inverted
  all_goals
    dsimp only [text]
    rw [← scan_blank rest]
    exact scan_chr st _ _

theorem scan_newline (rest : Text) :
    scan .noKeyword (.chr '\n' :: rest) = scan .lineStart rest := by
  rw [scan_chr]
  rfl

theorem scan_labelPart {label : Option (List Char)} (hlabel : ∀ s ∈ label, IsString s)
    (rest : Text) : scan st (labelPart label ++ rest) = labelTokens label ++ scan st rest := by
  cases label with
  | none => rfl
  | some s =>
    rw [labelPart, List.append_assoc, scan_string (hlabel s rfl)]
    exact congrArg _ (scan_blank rest)

theorem scan_offsetPart {offset : Option Expr} (hoffset : ∀ e ∈ offset, Produced e) (rest : Text) :
    scan .noKeyword (offsetPart offset ++ .chr '\n' :: rest) =
      offsetTokens offset ++ scan .lineStart rest := by
  cases offset with
  | none => exact scan_newline rest
  | some e =>
    obtain ⟨s, hs⟩ := hoffset e rfl
    have hscannable := scannable_of_derives hs valid_of_mem_scan
    have htext : offsetPart (some e) ++ .chr '\n' :: rest =
        .chr ' ' :: (unparseOp e .add ++ .chr '\n' :: rest) := rfl
    rw [htext, scan_blank, scan_unparseOp rfl hscannable .add (ends_chr (by decide) rest),
      scan_newline]
    rfl

theorem scan_printMeas {d : Drawing} (hm : m.WellFormed d) (rest : Text) :
    scan .lineStart (printMeas m ++ text "\n" ++ rest) = measTokens m ++ scan .lineStart rest := by
  have hends : Ends (offsetPart m.offset ++ .chr '\n' :: rest) := by
    cases m.offset with
    | none => exact ends_chr (by decide) rest
    | some e => exact ends_chr (by decide) _
  have htext : printMeas m ++ text "\n" ++ rest =
      text (measTypeName m.type) ++ .chr ' ' :: (labelPart m.label ++
        (printMeasBase m.base m.lowQual ++ .chr ' ' :: (text (measOpText m.type m.inverted) ++
          .chr ' ' :: (printMeasBase m.high m.highQual ++
            (offsetPart m.offset ++ .chr '\n' :: rest))))) := by
    simp [printMeas, text]
  rw [htext, scan_keyword, scan_labelPart hm.label,
    scan_base rfl hm.base (fun f hf => (hm.lowQual.2 f hf).1) (ends_chr (by decide) _), scan_op,
    scan_base rfl hm.high (fun f hf => (hm.highQual.2 f hf).1) hends, scan_offsetPart hm.offset,
    measTokens]
  simp

theorem scan_dumpMeasurements {d : Drawing} {ms : List Meas} (hms : ∀ m ∈ ms, m.WellFormed d) :
    scan .lineStart (dumpMeasurements ms) = ms.flatMap measTokens := by
  induction ms with
  | nil => rw [dumpMeasurements, List.flatMap_nil, scan, List.flatMap_nil]
  | cons m ms ih =>
    rw [List.forall_mem_cons] at hms
    rw [dumpMeasurements, List.flatMap_cons, scan_printMeas hms.1]
    exact congrArg _ (ih hms.2)

end Scan

/-! ### Reading a measurement -/

def BaseEnds (rest : List Token) : Prop :=
  rest.head? ≠ some (.ch '.') ∧ rest.head? ≠ some (.ch '/')

def LineEnds (rest : List Token) : Prop := ∀ t ∈ rest.head?, ∃ k, t = .keyword k

structure EndsExpr (rest : List Token) : Prop where
  stops : Stops rest
  none_starts : ∀ t ∈ rest.head?, startsExpr t = false

theorem LineEnds.endsExpr (hrest : LineEnds rest) : EndsExpr rest := by
  constructor
  · intro t ht
    obtain ⟨k, rfl⟩ := hrest t ht
    exact ⟨nofun, nofun, nofun, nofun, nofun⟩
  · intro t ht
    obtain ⟨k, rfl⟩ := hrest t ht
    rfl

theorem duplicateQualifier_eq_false (hqual : qual.Nodup) : duplicateQualifier qual = false := by
  induction qual with
  | nil => rfl
  | cons a rest ih =>
    rw [List.nodup_cons] at hqual
    rw [duplicateQualifier, ih hqual.2, Bool.or_false]
    simpa using hqual.1

theorem qbase_baseTokens {d : Drawing} {base : VecRef} (hbase : d.HasVec base)
    (hqual : d.HasQual qual) (hrest : BaseEnds rest) :
    qbase d (baseTokens base qual ++ rest) = some ((base, qual), rest) := by
  induction qual with
  | nil =>
    obtain ⟨frame, vec⟩ := base
    cases frame with
    | none =>
      have hvec : vec ∈ d.rootVecs := hbase.2
      change qbase d (.id vec :: rest) = _
      cases rest with
      | nil => simp [qbase, hvec]
      | cons t rest =>
        have hdot : t ≠ .ch '.' := fun heq => hrest.1 (congrArg some heq)
        have hslash : t ≠ .ch '/' := fun heq => hrest.2 (congrArg some heq)
        rw [qbase, if_pos hvec]
        all_goals simp_all
    | some frame =>
      obtain ⟨-, -, f, hf, hvec⟩ := hbase
      change qbase d (.id frame :: .ch '.' :: .id vec :: rest) = _
      rw [qbase, hf]
      exact if_pos hvec
  | cons frame qual ih =>
    obtain ⟨hnodup, hframes⟩ := hqual
    rw [List.forall_mem_cons] at hframes
    have hread := ih ⟨(List.nodup_cons.mp hnodup).2, hframes.2⟩
    change qbase d (.id frame :: .ch '/' :: (baseTokens base qual ++ rest)) = _
    rw [qbase, hread, Option.bind_some]
    dsimp only
    have hknown : ¬ (findFrame d frame).isNone = true := by
      obtain ⟨f, hf⟩ := Option.isSome_iff_exists.mp hframes.1.2
      rw [hf]
      exact nofun
    rw [duplicateQualifier_eq_false hnodup, if_neg hknown, if_neg (by decide)]

theorem startsExpr_exprTokens (e : Expr) (prec : Prec) :
    ∃ t ts, exprTokens e prec = t :: ts ∧ startsExpr t = true := by
  have hparens : ∀ {prec own : Prec} {ts : List Token},
      (∃ t us, ts = t :: us ∧ startsExpr t = true) →
      ∃ t us, parenTokens prec own ts = t :: us ∧ startsExpr t = true := by
    intro prec own ts hts
    unfold parenTokens
    split
    · exact ⟨_, _, rfl, rfl⟩
    · exact hts
  have hleft : ∀ {ts us : List Token}, (∃ t us, ts = t :: us ∧ startsExpr t = true) →
      ∃ t vs, ts ++ us = t :: vs ∧ startsExpr t = true := by
    rintro ts us ⟨t, vs, rfl, ht⟩
    exact ⟨t, vs ++ us, rfl, ht⟩
  induction e generalizing prec with
  | num _ | var _ | string _ | sin _ _ | cos _ _ | sqrt _ _ => exact ⟨_, _, rfl, rfl⟩
  | minus a _ => exact hparens ⟨_, _, rfl, rfl⟩
  | add a b iha _ | sub a b iha _ | mult a b iha _ | div a b iha _ =>
    exact hparens (hleft (iha _))

theorem baseEnds_offset (hrest : LineEnds rest) (offset : Option Expr) :
    BaseEnds (offsetTokens offset ++ rest) := by
  have hne : ∀ t ∈ (offsetTokens offset ++ rest).head?, t ≠ .ch '.' ∧ t ≠ .ch '/' := by
    intro t ht
    cases offset with
    | none =>
      obtain ⟨k, rfl⟩ := hrest t ht
      exact ⟨nofun, nofun⟩
    | some e =>
      obtain ⟨u, us, htokens, hstarts⟩ := startsExpr_exprTokens e .add
      rw [offsetTokens, htokens] at ht
      obtain rfl := Option.some.inj ht
      constructor
      · rintro rfl
        cases hstarts
      · rintro rfl
        cases hstarts
  exact ⟨fun heq => (hne _ heq).1 rfl, fun heq => (hne _ heq).2 rfl⟩

theorem optExpr_offset (hrest : EndsExpr rest) {offset : Option Expr}
    (hok : ∀ e ∈ offset, noDoubleMinus e = true) :
    optExpr (offsetTokens offset ++ rest) = some (offset.map reparse, rest) := by
  cases offset with
  | none =>
    have hno : ¬ (rest.head?.any startsExpr) = true := by
      intro hany
      cases rest with
      | nil => cases hany
      | cons t rest =>
        have hstarts : startsExpr t = true := hany
        rw [hrest.none_starts t rfl] at hstarts
        cases hstarts
    exact if_neg hno
  | some e =>
    obtain ⟨t, ts, htokens, hstarts⟩ := startsExpr_exprTokens e .add
    have hderives := (readable_of_noDoubleMinus (hok e rfl)).derives .add
    rw [offsetTokens, optExpr, if_pos, parseExpr_of_derives hderives hrest.stops]
    · rfl
    · rw [htokens]
      exact hstarts

theorem optExpr_doubleMinus (hrest : EndsExpr rest) {e : Expr}
    (hno : noDoubleMinus e = false) : optExpr (offsetTokens (some e) ++ rest) = none := by
  obtain ⟨t, ts, htokens, hstarts⟩ := startsExpr_exprTokens e .add
  rw [offsetTokens, optExpr, if_pos, parseExpr_exprTokens hno hrest.stops.notCall]
  · rfl
  · rw [htokens]
    exact hstarts

def readBack (m : Meas) : Meas := { m with name := none, offset := m.offset.map reparse }

def MeasType.next : MeasType → MeasType
  | .xyNext | .xyMax => .xyNext
  | .xNext | .xMax => .xNext
  | .yNext | .yMax => .yNext

theorem measType_measKeyword :
    measType (measKeyword type) = some type.next := by
  cases type <;> rfl

theorem measOp_opToken (inverted : Bool) :
    measOp (opToken type inverted) = some (type.isMax, inverted) := by
  cases type <;> cases inverted <;> rfl

theorem toMax_next :
    (if type.isMax then type.next.toMax else type.next) = type := by
  cases type <;> rfl

theorem optString_label (label : Option (List Char)) (base : VecRef) (qual : List Name)
    (rest : List Token) :
    optString (labelTokens label ++ (baseTokens base qual ++ rest)) =
      (label, baseTokens base qual ++ rest) := by
  cases label with
  | some s => rfl
  | none =>
    cases qual with
    | cons frame qual => rfl
    | nil =>
      obtain ⟨frame, vec⟩ := base
      cases frame <;> rfl

theorem unlabeledMeas_eq {d : Drawing} (hm : m.WellFormed d) (hrest : LineEnds rest) :
    unlabeledMeas d (measTokens m ++ rest) =
      (optExpr (offsetTokens m.offset ++ rest)).map fun (offset, ts) =>
        ({ m with name := none, offset := offset }, ts) := by
  have hop : BaseEnds (opToken m.type m.inverted ::
      (baseTokens m.high m.highQual ++ (offsetTokens m.offset ++ rest))) := by
    unfold opToken
    cases m.type.isMax <;> cases m.inverted <;> exact ⟨nofun, nofun⟩
  have htokens : measTokens m ++ rest = .keyword (measKeyword m.type) :: (labelTokens m.label ++
      (baseTokens m.base m.lowQual ++ opToken m.type m.inverted ::
        (baseTokens m.high m.highQual ++ (offsetTokens m.offset ++ rest)))) := by
    simp [measTokens]
  rw [htokens, unlabeledMeas, measType_measKeyword, optString_label]
  simp only [Option.bind_eq_bind, Option.bind_some, qbase_baseTokens hm.base hm.lowQual hop,
    List.head?_cons, List.tail_cons, measOp_opToken,
    qbase_baseTokens hm.high hm.highQual (baseEnds_offset hrest m.offset), toMax_next]
  cases optExpr (offsetTokens m.offset ++ rest) with
  | none => rfl
  | some read => rfl

/-! ### Reading all measurements -/

def OffsetReadable (m : Meas) : Prop := ∀ e ∈ m.offset, noDoubleMinus e = true

instance (m : Meas) : Decidable (OffsetReadable m) :=
  inferInstanceAs (Decidable (∀ e ∈ m.offset, noDoubleMinus e = true))

theorem unlabeledMeas_readable {d : Drawing} (hm : m.WellFormed d) (hrest : LineEnds rest)
    (hok : OffsetReadable m) :
    unlabeledMeas d (measTokens m ++ rest) = some (readBack m, rest) := by
  rw [unlabeledMeas_eq hm hrest, optExpr_offset hrest.endsExpr hok]
  rfl

theorem unlabeledMeas_unreadable {d : Drawing} (hm : m.WellFormed d) (hrest : LineEnds rest)
    (hno : ¬ OffsetReadable m) :
    unlabeledMeas d (measTokens m ++ rest) = none := by
  unfold OffsetReadable at hno
  push Not at hno
  obtain ⟨e, he, hminus⟩ := hno
  rw [unlabeledMeas_eq hm hrest, he,
    optExpr_doubleMinus hrest.endsExpr (Bool.eq_false_iff.mpr hminus)]
  rfl

theorem lineEnds_measTokens (ms : List Meas) : LineEnds (ms.flatMap measTokens) := by
  intro t ht
  cases ms with
  | nil => cases ht
  | cons m ms =>
    obtain rfl := Option.some.inj ht
    exact ⟨_, rfl⟩

theorem moreMeasurements_cons {d : Drawing} {labels : List Name} {ms : List Meas} {n : ℕ} :
    moreMeasurements d (n + 1) labels (measTokens m ++ ms.flatMap measTokens) =
      (unlabeledMeas d (measTokens m ++ ms.flatMap measTokens)).bind fun (obj, ts) =>
        (moreMeasurements d n labels ts).bind fun objs => some (obj :: objs) := by
  rw [measTokens, List.cons_append, moreMeasurements]
  · rfl
  · intro heq
    cases heq
  · intro name ts heq
    cases heq

section Survive

variable {d : Drawing} {ms : List Meas}

theorem moreMeasurements_readable (hms : ∀ m ∈ ms, m.WellFormed d)
    (hok : ∀ m ∈ ms, OffsetReadable m) {n : ℕ} (hn : ms.length < n) (labels : List Name) :
    moreMeasurements d n labels (ms.flatMap measTokens) = some (ms.map readBack) := by
  induction ms generalizing n with
  | nil =>
    cases n with
    | zero => exact absurd hn (Nat.not_lt_zero _)
    | succ n => rw [List.flatMap_nil, moreMeasurements]; rfl
  | cons m ms ih =>
    rw [List.forall_mem_cons] at hms hok
    cases n with
    | zero => exact absurd hn (Nat.not_lt_zero _)
    | succ n =>
      rw [List.flatMap_cons, moreMeasurements_cons,
        unlabeledMeas_readable hms.1 (lineEnds_measTokens ms) hok.1, Option.bind_some]
      dsimp only
      rw [ih hms.2 hok.2 (Nat.lt_of_succ_lt_succ hn)]
      rfl

theorem exists_unreadable_tail (hno : ∃ m' ∈ m :: ms, ¬ OffsetReadable m')
    (hok : OffsetReadable m) : ∃ m' ∈ ms, ¬ OffsetReadable m' := by
  rw [List.exists_mem_cons_iff] at hno
  exact hno.resolve_left (not_not.mpr hok)

theorem moreMeasurements_unreadable (hms : ∀ m ∈ ms, m.WellFormed d)
    (hno : ∃ m ∈ ms, ¬ OffsetReadable m) (n : ℕ) (labels : List Name) :
    moreMeasurements d n labels (ms.flatMap measTokens) = none := by
  induction ms generalizing n with
  | nil =>
    obtain ⟨m, hm, -⟩ := hno
    cases hm
  | cons m ms ih =>
    rw [List.forall_mem_cons] at hms
    cases n with
    | zero => rfl
    | succ n =>
      rw [List.flatMap_cons, moreMeasurements_cons]
      by_cases hok : OffsetReadable m
      · have hrest := exists_unreadable_tail hno hok
        rw [unlabeledMeas_readable hms.1 (lineEnds_measTokens ms) hok, Option.bind_some]
        dsimp only
        rw [ih hms.2 hrest]
        rfl
      · rw [unlabeledMeas_unreadable hms.1 (lineEnds_measTokens ms) hok]
        rfl

theorem length_le_flatMap (ms : List Meas) : ms.length ≤ (ms.flatMap measTokens).length := by
  induction ms with
  | nil => exact Nat.le_refl _
  | cons m ms ih =>
    rw [List.flatMap_cons, List.length_append, List.length_cons, measTokens, List.length_cons]
    omega

theorem optMeasurements_cons (d : Drawing) (m : Meas) (ms : List Meas) :
    optMeasurements d ((m :: ms).flatMap measTokens) =
      (unlabeledMeas d (measTokens m ++ ms.flatMap measTokens)).bind fun (obj, ts) =>
        (moreMeasurements d (ts.length + 1) (d.rootVecs ++ d.rootObjs) ts).bind fun objs =>
          some (obj :: objs) := by
  rw [List.flatMap_cons, measTokens, List.cons_append, optMeasurements, if_neg (by simp)]
  rfl

theorem optMeasurements_readable (hms : ∀ m ∈ ms, m.WellFormed d)
    (hok : ∀ m ∈ ms, OffsetReadable m) :
    optMeasurements d (ms.flatMap measTokens) = some (ms.map readBack) := by
  cases ms with
  | nil => rfl
  | cons m ms =>
    rw [List.forall_mem_cons] at hms hok
    rw [optMeasurements_cons, unlabeledMeas_readable hms.1 (lineEnds_measTokens ms) hok.1,
      Option.bind_some]
    dsimp only
    rw [moreMeasurements_readable hms.2 hok.2 (Nat.lt_succ_of_le (length_le_flatMap ms))]
    rfl

theorem optMeasurements_unreadable (hms : ∀ m ∈ ms, m.WellFormed d)
    (hno : ∃ m ∈ ms, ¬ OffsetReadable m) :
    optMeasurements d (ms.flatMap measTokens) = none := by
  cases ms with
  | nil =>
    obtain ⟨m, hm, -⟩ := hno
    cases hm
  | cons m ms =>
    rw [List.forall_mem_cons] at hms
    rw [optMeasurements_cons]
    by_cases hok : OffsetReadable m
    · have hrest := exists_unreadable_tail hno hok
      rw [unlabeledMeas_readable hms.1 (lineEnds_measTokens ms) hok, Option.bind_some]
      dsimp only
      rw [moreMeasurements_unreadable hms.2 hrest]
      rfl
    · rw [unlabeledMeas_unreadable hms.1 (lineEnds_measTokens ms) hok]
      rfl

theorem shape_readBack_iff (m : Meas) : (readBack m).shape = m.shape ↔ m.name = none := by
  have hoffset : (m.offset.map reparse).isSome = m.offset.isSome := Option.isSome_map
  constructor
  · intro heq
    exact (congrArg MeasShape.name heq).symm
  · intro hname
    simp only [readBack, Meas.shape, hname, hoffset]

theorem survive_iff_readable (hms : ∀ m ∈ ms, m.WellFormed d) :
    Survive d ms ↔ (∀ m ∈ ms, OffsetReadable m) ∧ ∀ m ∈ ms, m.name = none := by
  rw [Survive, scan_dumpMeasurements hms]
  by_cases hok : ∀ m ∈ ms, OffsetReadable m
  · rw [optMeasurements_readable hms hok]
    have hshapes : (ms.map readBack).map Meas.shape = ms.map Meas.shape ↔
        ∀ m ∈ ms, m.name = none := by
      rw [List.map_map, List.map_inj_left]
      exact forall₂_congr fun m hm => shape_readBack_iff m
    simp only [Option.some.injEq, exists_eq_left', hshapes]
    exact (and_iff_right hok).symm
  · have hno : ∃ m ∈ ms, ¬ OffsetReadable m := by
      push Not at hok
      exact hok
    rw [optMeasurements_unreadable hms hno]
    constructor
    · rintro ⟨ms', hnone, -⟩
      cases hnone
    · rintro ⟨hok', -⟩
      exact absurd hok' hok

end Survive

/-- **Measurements survive saving exactly if none of them has an item name,** and all offsets can be
read back. -/
theorem dumpMeasurements_survive_iff (d : Drawing) (ms : List Meas)
    (hms : ∀ m ∈ ms, m.WellFormed d) :
    Survive d ms ↔
      ∀ m ∈ ms, m.name = none ∧ ∀ e ∈ m.offset, noDoubleMinus e = true := by
  rw [survive_iff_readable hms]
  constructor
  · rintro ⟨hok, hnames⟩ m hm
    exact ⟨hnames m hm, hok m hm⟩
  · intro hall
    exact ⟨fun m hm => (hall m hm).2, fun m hm => (hall m hm).1⟩

def twoVecs : Drawing := { rootVecs := [['a'], ['b']], rootObjs := [], frames := [] }

def measBetween (name : Option Name) (type : MeasType) (inverted : Bool) : Meas :=
  { name := name, type := type, label := none, inverted := inverted, base := ⟨none, ['a']⟩
    lowQual := [], high := ⟨none, ['b']⟩, highQual := [], offset := none }

theorem wellFormed_measBetween (name : Option Name) (type : MeasType) (inverted : Bool) :
    (measBetween name type inverted).WellFormed twoVecs where
  label := nofun
  base := ⟨⟨'a', [], rfl, by decide, nofun⟩, List.mem_cons_self⟩
  lowQual := ⟨List.nodup_nil, nofun⟩
  high := ⟨⟨'b', [], rfl, by decide, nofun⟩, List.mem_cons_of_mem _ List.mem_cons_self⟩
  highQual := ⟨List.nodup_nil, nofun⟩
  offset := nofun

theorem dumpMeasurements_survive_two :
    Survive twoVecs [measBetween none .xMax true, measBetween none .xyNext false] := by
  refine (dumpMeasurements_survive_iff _ _ ?_).mpr ?_
  · rw [List.forall_mem_cons, List.forall_mem_singleton]
    exact ⟨wellFormed_measBetween _ _ _, wellFormed_measBetween _ _ _⟩
  · rw [List.forall_mem_cons, List.forall_mem_singleton]
    exact ⟨⟨rfl, nofun⟩, rfl, nofun⟩

/-- The second measurement is named, which is not written. -/
theorem dumpMeasurements_lose_name :
    ¬ ∀ (d : Drawing) (ms : List Meas), (∀ m ∈ ms, m.WellFormed d) → Survive d ms := by
  intro hall
  have hms : ∀ m ∈ [measBetween none .xyNext false, measBetween (some ['m']) .xNext false],
      m.WellFormed twoVecs := by
    rw [List.forall_mem_cons, List.forall_mem_singleton]
    exact ⟨wellFormed_measBetween _ _ _, wellFormed_measBetween _ _ _⟩
  have hnames := ((survive_iff_readable hms).mp (hall twoVecs _ hms)).2
  have hname : (measBetween (some ['m']) .xNext false).name = none :=
    hnames _ (List.mem_cons_of_mem _ List.mem_cons_self)
  cases hname

end Openmoko.Fped
