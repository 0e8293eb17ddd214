import Openmoko.Fped.Proof.DumpNames
import Openmoko.Fped.Proof.MeasRoundTrip

/-!
# The lines of vectors and objects are read back

A line is scanned and taken apart into what it was made from, with its expressions as they are read.
It cannot be read just if one of its expressions cannot.
-/

namespace Openmoko.Fped

def BaseText.Valid : BaseText → Prop
  | .named name => IsName name
  | _ => True

def ObjKind.width {α : Type} : ObjKind α → Option Expr
  | .line _ width | .rect _ width | .arc _ _ width => width
  | .frame _ | .pad _ _ _ _ | .hole _ => none

def ObjKind.Valid {α : Type} : ObjKind α → Prop
  | .frame ref => IsName ref
  | .pad name _ _ _ => IsString name
  | _ => True

def Line.Valid : Line → Prop
  | .vec label base x y => (∀ n ∈ label, IsName n) ∧ base.Valid ∧ Produced x ∧ Produced y
  | .obj o =>
    (∀ n ∈ o.name, IsName n) ∧ (∀ a ∈ o.anchors, a.Valid) ∧ o.kind.Valid ∧
      ∀ e ∈ o.kind.width, Produced e

def Line.Readable : Line → Prop
  | .vec _ _ x y => noDoubleMinus x = true ∧ noDoubleMinus y = true
  | .obj o => ∀ e ∈ o.kind.width, noDoubleMinus e = true

/-! ### Tokens -/

def baseToken : BaseText → Token
  | .origin => .ch '@'
  | .dot => .ch '.'
  | .named name => .id name

def typeTokens : PadType → List Token
  | .normal => []
  | .bare => [.id "bare".toList]
  | .trace => [.id "trace".toList]
  | .paste => [.id "paste".toList]
  | .mask => [.id "mask".toList]

def objTokens (o : Obj BaseText) : List Token :=
  match o.kind with
  | .frame ref => [.keyword .frame, .id ref, baseToken o.base]
  | .line other width =>
    [.keyword .line, baseToken o.base, baseToken other] ++ offsetTokens width
  | .rect other width =>
    [.keyword .rect, baseToken o.base, baseToken other] ++ offsetTokens width
  | .pad name other rounded type =>
    [.keyword (if rounded then .rpad else .pad), .string name, baseToken o.base,
      baseToken other] ++ typeTokens type
  | .hole other => [.keyword .hole, baseToken o.base, baseToken other]
  | .arc start stop width =>
    if start = stop then
      [.keyword .circ, baseToken o.base, baseToken start] ++ offsetTokens width
    else
      [.keyword .arc, baseToken o.base, baseToken start, baseToken stop] ++ offsetTokens width

def itemLabelTokens : Option Name → List Token
  | none => []
  | some name => [.label name]

def lineTokens : Line → List Token
  | .vec label base x y =>
    itemLabelTokens label ++ .keyword .vec :: baseToken base :: .ch '(' ::
      (exprTokens x .add ++ .ch ',' :: (exprTokens y .add ++ [.ch ')']))
  | .obj o => itemLabelTokens o.name ++ objTokens o

variable {o : Obj BaseText}

variable {base : BaseText} {line : Line} {lines : List Line}

section Scan

variable {st : ScanState}

theorem scan_baseText (hst : st.start = .noKeyword) {b : BaseText} (hb : b.Valid) {rest : Text}
    (hrest : Ends rest) : scan st (b.text ++ rest) = baseToken b :: scan st rest := by
  cases b with
  | origin => exact scan_single (c := '@') (by simp) rest
  | dot => exact scan_single (c := '.') (by simp) rest
  | named name => exact scan_name hst hb hrest

theorem scan_blankBase (hst : st.start = .noKeyword) {b : BaseText} (hb : b.Valid) {rest : Text}
    (hrest : Ends rest) :
    scan st (.chr ' ' :: (b.text ++ rest)) = baseToken b :: scan st rest := by
  rw [scan_blank, scan_baseText hst hb hrest]

theorem ends_blank (rest : Text) : Ends (.chr ' ' :: rest) := ends_chr (by decide) rest

theorem ends_newline (rest : Text) : Ends (.chr '\n' :: rest) := ends_chr (by decide) rest

theorem scan_width {width : Option Expr} (hwidth : ∀ e ∈ width, Produced e) (rest : Text) :
    scan .noKeyword (.chr ' ' :: (unparse width ++ .chr '\n' :: rest)) =
      offsetTokens width ++ scan .lineStart rest := by
  cases width with
  | none =>
    rw [scan_blank]
    exact scan_newline rest
  | some e => exact scan_offsetPart hwidth rest

theorem scan_padType (type : PadType) (rest : Text) :
    scan .noKeyword (type.text ++ .chr '\n' :: rest) =
      typeTokens type ++ scan .lineStart rest := by
  have hname : ∀ {s : String}, IsName s.toList →
      scan .noKeyword (.chr ' ' :: (nameText s.toList ++ .chr '\n' :: rest)) =
        .id s.toList :: scan .lineStart rest := by
    intro s hs
    rw [scan_blank, scan_name rfl hs (ends_newline rest), scan_newline]
  cases type with
  | normal => exact scan_newline rest
  | bare => exact @hname "bare" (isName_of_chars rfl)
  | trace => exact @hname "trace" (isName_of_chars rfl)
  | paste => exact @hname "paste" (isName_of_chars rfl)
  | mask => exact @hname "mask" (isName_of_chars rfl)

theorem scan_twoBases {b b' : BaseText} (hb : b.Valid) (hb' : b'.Valid) {rest : Text}
    (hrest : Ends rest) :
    scan .noKeyword (b.text ++ .chr ' ' :: (b'.text ++ rest)) =
      baseToken b :: baseToken b' :: scan .noKeyword rest := by
  rw [scan_baseText rfl hb (ends_blank _), scan_blankBase rfl hb' hrest]

/-- The line of an object is scanned to its tokens. -/
theorem scan_printObj (hanchors : ∀ a ∈ o.anchors, a.Valid)
    (hkind : o.kind.Valid) (hwidth : ∀ e ∈ o.kind.width, Produced e) (rest : Text) :
    scan .lineStart (printObj id o ++ .chr '\n' :: rest) =
      objTokens o ++ scan .lineStart rest := by
  obtain ⟨name, base, kind⟩ := o
  obtain ⟨hbase, hothers⟩ := List.forall_mem_cons.mp hanchors
  cases kind with
  | frame ref =>
    have htext : printObj id { name := name, base := base, kind := ObjKind.frame ref } ++
        .chr '\n' :: rest =
          text "frame" ++ .chr ' ' :: (nameText ref ++ .chr ' ' ::
            (base.text ++ .chr '\n' :: rest)) := by
      simp [printObj, text]
    rw [htext, scan_keywordText (isName_of_chars rfl) rfl, scan_name rfl hkind (ends_blank _),
      scan_blankBase rfl hbase (ends_newline rest), scan_newline]
    rfl
  | line other width =>
    have hother : other.Valid := hothers other List.mem_cons_self
    have htext : printObj id { name := name, base := base, kind := ObjKind.line other width } ++
        .chr '\n' :: rest =
          text "line" ++ .chr ' ' :: (base.text ++ .chr ' ' :: (other.text ++
            .chr ' ' :: (unparse width ++ .chr '\n' :: rest))) := by
      simp [printObj, text]
    rw [htext, scan_keywordText (isName_of_chars rfl) rfl,
      scan_twoBases hbase hother (ends_blank _), @scan_width width hwidth]
    rfl
  | rect other width =>
    have hother : other.Valid := hothers other List.mem_cons_self
    have htext : printObj id { name := name, base := base, kind := ObjKind.rect other width } ++
        .chr '\n' :: rest =
          text "rect" ++ .chr ' ' :: (base.text ++ .chr ' ' :: (other.text ++
            .chr ' ' :: (unparse width ++ .chr '\n' :: rest))) := by
      simp [printObj, text]
    rw [htext, scan_keywordText (isName_of_chars rfl) rfl,
      scan_twoBases hbase hother (ends_blank _), @scan_width width hwidth]
    rfl
  | pad padName other rounded type =>
    have hother : other.Valid := hothers other List.mem_cons_self
    have hkeyword : ∀ more : Text,
        scan .lineStart (text (if rounded then "rpad" else "pad") ++ .chr ' ' :: more) =
          .keyword (if rounded then .rpad else .pad) :: scan .noKeyword more := by
      intro more
      cases rounded with
      | true => exact scan_keywordText (isName_of_chars rfl) rfl more
      | false => exact scan_keywordText (isName_of_chars rfl) rfl more
    have htext : printObj id
        { name := name, base := base, kind := ObjKind.pad padName other rounded type } ++
        .chr '\n' :: rest =
          text (if rounded then "rpad" else "pad") ++ .chr ' ' ::
            (text "\"" ++ nameText padName ++ text "\"" ++ .chr ' ' :: (base.text ++ .chr ' ' ::
              (other.text ++ (type.text ++ .chr '\n' :: rest)))) := by
      cases rounded <;> simp [printObj, text]
    have hends : Ends (type.text ++ .chr '\n' :: rest) := by
      cases type with
      | normal => exact ends_newline rest
      | _ => exact ends_blank _
    rw [htext, hkeyword, scan_string hkind, scan_blank, scan_twoBases hbase hother hends,
      scan_padType]
    rfl
  | hole other =>
    have hother : other.Valid := hothers other List.mem_cons_self
    have htext : printObj id { name := name, base := base, kind := ObjKind.hole other } ++
        .chr '\n' :: rest =
          text "hole" ++ .chr ' ' :: (base.text ++ .chr ' ' :: (other.text ++
            .chr '\n' :: rest)) := by
      simp [printObj, text]
    rw [htext, scan_keywordText (isName_of_chars rfl) rfl,
      scan_twoBases hbase hother (ends_newline rest), scan_newline]
    rfl
  | arc start stop width =>
    have hstart : start.Valid := hothers start List.mem_cons_self
    have hstop : stop.Valid := hothers stop (List.mem_cons_of_mem _ List.mem_cons_self)
    by_cases hsame : start = stop
    · have htext : printObj id
          { name := name, base := base, kind := ObjKind.arc start stop width } ++
          .chr '\n' :: rest =
            text "circ" ++ .chr ' ' :: (base.text ++ .chr ' ' :: (start.text ++
              .chr ' ' :: (unparse width ++ .chr '\n' :: rest))) := by
        simp [printObj, text, hsame]
      rw [htext, scan_keywordText (isName_of_chars rfl) rfl,
        scan_twoBases hbase hstart (ends_blank _), @scan_width width hwidth]
      simp [objTokens, hsame]
    · have htext : printObj id
          { name := name, base := base, kind := ObjKind.arc start stop width } ++
          .chr '\n' :: rest =
            text "arc" ++ .chr ' ' :: (base.text ++ .chr ' ' :: (start.text ++ .chr ' ' ::
              (stop.text ++ .chr ' ' :: (unparse width ++ .chr '\n' :: rest)))) := by
        simp [printObj, text, hsame]
      rw [htext, scan_keywordText (isName_of_chars rfl) rfl,
        scan_twoBases hbase hstart (ends_blank _), scan_blankBase rfl hstop (ends_blank _),
        @scan_width width hwidth]
      simp [objTokens, hsame]

/-- The line of a vector is scanned to its tokens. -/
theorem scan_printVec {x y : Expr} (hbase : base.Valid) (hx : Produced x)
    (hy : Produced y) (rest : Text) :
    scan .lineStart (printVec base x y ++ .chr '\n' :: rest) =
      .keyword .vec :: baseToken base :: .ch '(' ::
        (exprTokens x .add ++ .ch ',' ::
          (exprTokens y .add ++ .ch ')' :: scan .lineStart rest)) := by
  have hexpr : ∀ {e : Expr} {c : Char} {more : Text}, Produced e → isIdChar c = false →
      scan .noKeyword (unparseOp e .add ++ .chr c :: more) =
        exprTokens e .add ++ scan .noKeyword (.chr c :: more) := by
    rintro e c more ⟨s, hs⟩ hc
    exact scan_unparseOp rfl (scannable_of_derives hs valid_of_mem_scan) .add (ends_chr hc more)
  have htext : printVec base x y ++ .chr '\n' :: rest =
      text "vec" ++ .chr ' ' :: (base.text ++ .chr '(' :: (unparseOp x .add ++ .chr ',' ::
        .chr ' ' :: (unparseOp y .add ++ .chr ')' :: .chr '\n' :: rest))) := by
    simp [printVec, unparse, text]
  rw [htext, scan_keywordText (isName_of_chars rfl) rfl,
    scan_baseText rfl hbase (ends_chr (by decide) _), scan_single (by simp),
    hexpr hx (by decide), scan_single (by simp), scan_blank, hexpr hy (by decide),
    scan_single (by simp), scan_newline]

theorem scan_itemLabel {label : Option Name} (hlabel : ∀ n ∈ label, IsName n) (rest : Text) :
    scan .lineStart (itemLabel label ++ rest) = itemLabelTokens label ++ scan .lineStart rest := by
  cases label with
  | none => rfl
  | some n =>
    have htext : itemLabel (some n) ++ rest = nameText n ++ .chr ':' :: .chr ' ' :: rest := by
      simp [itemLabel, text]
    rw [htext, scan_label rfl (hlabel n rfl), scan_blank]
    rfl

theorem scan_line {indent : Text} (hindent : indent = [] ∨ indent = text "\t")
    (hline : line.Valid) (rest : Text) :
    scan .lineStart (indent ++ lineText line ++ text "\n" ++ rest) =
      lineTokens line ++ scan .lineStart rest := by
  have hstart : ∀ more, scan .lineStart (indent ++ more) = scan .lineStart more := by
    intro more
    rcases hindent with rfl | rfl
    · rfl
    · change scan .lineStart (.chr '\t' :: more) = _
      rw [scan_chr]
      rfl
  have htext : indent ++ lineText line ++ text "\n" ++ rest =
      indent ++ (lineText line ++ .chr '\n' :: rest) := by
    simp [text]
  rw [htext, hstart]
  cases line with
  | vec label base x y =>
    obtain ⟨hlabel, hbase, hx, hy⟩ := hline
    rw [lineText, List.append_assoc, scan_itemLabel hlabel, scan_printVec hbase hx hy]
    simp [lineTokens]
  | obj o =>
    obtain ⟨hlabel, hanchors, hkind, hwidth⟩ := hline
    rw [lineText, List.append_assoc, scan_itemLabel hlabel, scan_printObj hanchors hkind hwidth]
    simp [lineTokens]

/-- **Scanning.** The printed lines are scanned to their tokens, one by one. -/
theorem scan_linesText {indent : Text} (hindent : indent = [] ∨ indent = text "\t")
    (hlines : ∀ line ∈ lines, line.Valid) :
    scan .lineStart (linesText indent lines) = lines.flatMap lineTokens := by
  induction lines with
  | nil => rw [linesText, List.flatMap_nil, scan, List.flatMap_nil]
  | cons line lines ih =>
    rw [List.forall_mem_cons] at hlines
    rw [linesText, List.flatMap_cons, scan_line hindent hlines.1]
    exact congrArg _ (ih hlines.2)

end Scan

/-! ### Reading a line -/

def ObjKind.mapWidth {α : Type} (f : Expr → Expr) : ObjKind α → ObjKind α
  | .frame ref => .frame ref
  | .line other width => .line other (width.map f)
  | .rect other width => .rect other (width.map f)
  | .pad name other rounded type => .pad name other rounded type
  | .hole other => .hole other
  | .arc start stop width => .arc start stop (width.map f)

def Obj.mapWidth {α : Type} (f : Expr → Expr) (o : Obj α) : Obj α :=
  { o with kind := o.kind.mapWidth f }

def Line.reread : Line → Line
  | .vec label base x y => .vec label base (reparse x) (reparse y)
  | .obj o => .obj (o.mapWidth reparse)

def LineStarts (rest : List Token) : Prop :=
  ∀ t ∈ rest.head?, (∃ k, t = .keyword k) ∨ ∃ n, t = .label n

section Read

variable {rest : List Token}

theorem LineStarts.endsExpr (hrest : LineStarts rest) : EndsExpr rest := by
  constructor
  · intro t ht
    obtain ⟨k, rfl⟩ | ⟨n, rfl⟩ := hrest t ht
    · exact ⟨nofun, nofun, nofun, nofun, nofun⟩
    · exact ⟨nofun, nofun, nofun, nofun, nofun⟩
  · intro t ht
    obtain ⟨k, rfl⟩ | ⟨n, rfl⟩ := hrest t ht
    · rfl
    · rfl

theorem baseRule_baseToken (b : BaseText) (ts : List Token) :
    baseRule (baseToken b :: ts) = some (b, ts) := by
  cases b <;> rfl

theorem padTypeRule_typeTokens (hrest : LineStarts rest) (type : PadType) :
    padTypeRule (typeTokens type ++ rest) = some (type, rest) := by
  cases type with
  | normal =>
    cases rest with
    | nil => rfl
    | cons t rest =>
      obtain ⟨k, rfl⟩ | ⟨n, rfl⟩ := hrest t rfl
      · rfl
      · rfl
  | bare | trace | paste | mask => rfl

/-- An object whose width has no double minus is read back. -/
theorem objRule_readable (hrest : LineStarts rest)
    (hok : ∀ e ∈ o.kind.width, noDoubleMinus e = true) :
    objRule o.name (objTokens o ++ rest) = some (o.mapWidth reparse, rest) := by
  have hwidth := hrest.endsExpr
  obtain ⟨name, base, kind⟩ := o
  cases kind with
  | frame ref =>
    simp [objTokens, objRule, baseRule_baseToken, Obj.mapWidth, ObjKind.mapWidth]
  | hole other =>
    simp [objTokens, objRule, baseRule_baseToken, Obj.mapWidth, ObjKind.mapWidth]
  | line other width =>
    have hexpr := @optExpr_offset _ hwidth width hok
    simp [objTokens, objRule, baseRule_baseToken, hexpr, Obj.mapWidth, ObjKind.mapWidth]
  | rect other width =>
    have hexpr := @optExpr_offset _ hwidth width hok
    simp [objTokens, objRule, baseRule_baseToken, hexpr, Obj.mapWidth, ObjKind.mapWidth]
  | pad padName other rounded type =>
    have htype := padTypeRule_typeTokens hrest type
    cases rounded <;>
      simp [objTokens, objRule, padRule, baseRule_baseToken, htype, Obj.mapWidth, ObjKind.mapWidth]
  | arc start stop width =>
    have hexpr := @optExpr_offset _ hwidth width hok
    by_cases hsame : start = stop
    · simp [objTokens, objRule, baseRule_baseToken, hexpr, hsame, Obj.mapWidth, ObjKind.mapWidth]
    · simp [objTokens, objRule, baseRule_baseToken, hexpr, hsame, Obj.mapWidth, ObjKind.mapWidth]

/-- A double minus in the width is a syntax error. -/
theorem objRule_unreadable (hrest : LineStarts rest) {e : Expr}
    (he : e ∈ o.kind.width) (hno : noDoubleMinus e = false) :
    objRule o.name (objTokens o ++ rest) = none := by
  have hexpr := optExpr_doubleMinus hrest.endsExpr hno
  obtain ⟨name, base, kind⟩ := o
  cases kind with
  | frame ref => cases he
  | hole other => cases he
  | pad padName other rounded type => cases he
  | line other width =>
    obtain rfl : width = some e := he
    simp [objTokens, objRule, baseRule_baseToken, hexpr]
  | rect other width =>
    obtain rfl : width = some e := he
    simp [objTokens, objRule, baseRule_baseToken, hexpr]
  | arc start stop width =>
    obtain rfl : width = some e := he
    by_cases hsame : start = stop
    · simp [objTokens, objRule, baseRule_baseToken, hexpr, hsame]
    · simp [objTokens, objRule, baseRule_baseToken, hexpr, hsame]

theorem stops_ch {c : Char} (hc : c ∈ [',', ')']) (ts : List Token) : Stops (.ch c :: ts) := by
  intro t ht
  obtain rfl := Option.some.inj ht
  simp only [List.mem_cons, List.not_mem_nil, or_false] at hc
  rcases hc with rfl | rfl <;> decide

def coordTokens (base : BaseText) (x y : Expr) : List Token :=
  baseToken base :: .ch '(' :: (exprTokens x .add ++ .ch ',' :: (exprTokens y .add ++ [.ch ')']))

/-- So it is with the coordinates of a vector. -/
theorem vecRule_readable {x y : Expr} (hx : noDoubleMinus x = true)
    (hy : noDoubleMinus y = true) (label : Option Name) :
    vecRule label (coordTokens base x y ++ rest) =
      some (.vec label base (reparse x) (reparse y), rest) := by
  have hexpr : ∀ {e : Expr} {c : Char} (ts : List Token), noDoubleMinus e = true →
      c ∈ [',', ')'] →
      parseExpr (exprTokens e .add ++ .ch c :: ts) = some (reparse e, .ch c :: ts) := by
    intro e c ts he hc
    exact parseExpr_of_derives ((readable_of_noDoubleMinus he).derives .add) (stops_ch hc ts)
  simp [vecRule, coordTokens, baseRule_baseToken, expect, hexpr _ hx, hexpr _ hy]

theorem vecRule_unreadable {x y : Expr}
    (hno : ¬ (noDoubleMinus x = true ∧ noDoubleMinus y = true)) (label : Option Name) :
    vecRule label (coordTokens base x y ++ rest) = none := by
  have hbad : ∀ {e : Expr} {c : Char} (ts : List Token), ¬ noDoubleMinus e = true →
      c ∈ [',', ')'] → parseExpr (exprTokens e .add ++ .ch c :: ts) = none := by
    intro e c ts he hc
    exact parseExpr_exprTokens (Bool.eq_false_iff.mpr he) (stops_ch hc ts).notCall
  by_cases hx : noDoubleMinus x = true
  · have hy : ¬ noDoubleMinus y = true := fun hy => hno ⟨hx, hy⟩
    have hread : ∀ ts, parseExpr (exprTokens x .add ++ .ch ',' :: ts) =
        some (reparse x, .ch ',' :: ts) := fun ts =>
      parseExpr_of_derives ((readable_of_noDoubleMinus hx).derives .add) (stops_ch (by simp) ts)
    simp [vecRule, coordTokens, baseRule_baseToken, expect, hread, hbad _ hy]
  · simp [vecRule, coordTokens, baseRule_baseToken, expect, hbad _ hx]

theorem objTokens_keyword (o : Obj BaseText) :
    ∃ k ts, objTokens o = .keyword k :: ts ∧ k ≠ .vec := by
  obtain ⟨name, base, kind⟩ := o
  cases kind with
  | pad padName other rounded type => cases rounded <;> exact ⟨_, _, rfl, by decide⟩
  | arc start stop width =>
    by_cases hsame : start = stop
    · exact ⟨.circ, _, by simp [objTokens, hsame]; rfl, by decide⟩
    · exact ⟨.arc, _, by simp [objTokens, hsame]; rfl, by decide⟩
  | _ => exact ⟨_, _, rfl, by decide⟩

theorem frameItem_label (label : Option Name) {k : Keyword} {ts : List Token} :
    frameItem (itemLabelTokens label ++ .keyword k :: ts) =
      unlabeledItem label (.keyword k :: ts) := by
  cases label <;> rfl

theorem unlabeledItem_obj (label : Option Name) (o : Obj BaseText) :
    unlabeledItem label (objTokens o ++ rest) =
      (objRule label (objTokens o ++ rest)).map fun (o, ts) => (.obj o, ts) := by
  obtain ⟨k, ts, htokens, hk⟩ := objTokens_keyword o
  rw [htokens, List.cons_append]
  cases k <;> first
    | exact absurd rfl hk
    | rfl

theorem frameItem_obj (o : Obj BaseText) :
    frameItem (lineTokens (.obj o) ++ rest) =
      (objRule o.name (objTokens o ++ rest)).map fun (o, ts) => (.obj o, ts) := by
  obtain ⟨k, ts, htokens, -⟩ := objTokens_keyword o
  rw [← unlabeledItem_obj, lineTokens, List.append_assoc, htokens, List.cons_append,
    frameItem_label]

theorem frameItem_vec (label : Option Name) (base : BaseText) (x y : Expr) :
    frameItem (lineTokens (.vec label base x y) ++ rest) =
      vecRule label (coordTokens base x y ++ rest) := by
  have htokens : lineTokens (.vec label base x y) ++ rest =
      itemLabelTokens label ++ .keyword .vec :: (coordTokens base x y ++ rest) := by
    simp [lineTokens, coordTokens]
  rw [htokens, frameItem_label, unlabeledItem]

/-- A readable line is read back, up to the way its expressions are read. -/
theorem frameItem_readable (hrest : LineStarts rest) (hok : line.Readable) :
    frameItem (lineTokens line ++ rest) = some (line.reread, rest) := by
  cases line with
  | vec label base x y => rw [frameItem_vec, vecRule_readable hok.1 hok.2]; rfl
  | obj o => rw [frameItem_obj, objRule_readable hrest hok]; rfl

/-- Any other line is a syntax error. -/
theorem frameItem_unreadable (hrest : LineStarts rest) (hno : ¬ line.Readable) :
    frameItem (lineTokens line ++ rest) = none := by
  cases line with
  | vec label base x y => rw [frameItem_vec, vecRule_unreadable hno]
  | obj o =>
    rw [Line.Readable] at hno
    push Not at hno
    obtain ⟨e, he, hminus⟩ := hno
    rw [frameItem_obj, objRule_unreadable hrest he (Bool.eq_false_iff.mpr hminus)]
    rfl

theorem lineTokens_ne_nil (line : Line) : ∃ t ts, lineTokens line = t :: ts ∧
    ((∃ k, t = .keyword k) ∨ ∃ n, t = .label n) := by
  have hlabel : ∀ (label : Option Name) {k : Keyword} {ts : List Token},
      ∃ t us, itemLabelTokens label ++ .keyword k :: ts = t :: us ∧
        ((∃ k, t = .keyword k) ∨ ∃ n, t = .label n) := by
    intro label k ts
    cases label with
    | none => exact ⟨_, _, rfl, Or.inl ⟨k, rfl⟩⟩
    | some n => exact ⟨_, _, rfl, Or.inr ⟨n, rfl⟩⟩
  cases line with
  | vec label base x y => exact hlabel label
  | obj o =>
    obtain ⟨k, ts, htokens, -⟩ := objTokens_keyword o
    rw [lineTokens, htokens]
    exact hlabel o.name

theorem lineStarts_flatMap (lines : List Line) : LineStarts (lines.flatMap lineTokens) := by
  intro t ht
  cases lines with
  | nil => cases ht
  | cons line lines =>
    obtain ⟨u, us, htokens, hu⟩ := lineTokens_ne_nil line
    rw [List.flatMap_cons, htokens] at ht
    obtain rfl := Option.some.inj ht
    exact hu

def addLines (frames : List Name) (st : Reading) (lines : List Line) : Option Reading :=
  lines.foldlM (addLine frames) st

variable {frames : List Name}

theorem frameItems_cons {n : ℕ} {st : Reading} (line : Line) (lines : List Line) :
    frameItems frames (n + 1) st ((line :: lines).flatMap lineTokens) =
      (frameItem (lineTokens line ++ lines.flatMap lineTokens)).bind fun (line, ts) =>
        (addLine frames st line).bind fun st => frameItems frames n st ts := by
  obtain ⟨t, ts, htokens, -⟩ := lineTokens_ne_nil line
  rw [List.flatMap_cons, htokens, List.cons_append, frameItems]
  · rfl
  · exact nofun

theorem frameItems_readable
    (hok : ∀ line ∈ lines, line.Readable) {n : ℕ} (hn : lines.length < n) (st : Reading) :
    frameItems frames n st (lines.flatMap lineTokens) =
      addLines frames st (lines.map Line.reread) := by
  induction lines generalizing n st with
  | nil =>
    cases n with
    | zero => exact absurd hn (Nat.not_lt_zero _)
    | succ n => rw [List.flatMap_nil, frameItems]; rfl
  | cons line lines ih =>
    rw [List.forall_mem_cons] at hok
    cases n with
    | zero => exact absurd hn (Nat.not_lt_zero _)
    | succ n =>
      rw [frameItems_cons, frameItem_readable (lineStarts_flatMap lines) hok.1, Option.bind_some,
        List.map_cons, addLines, List.foldlM_cons]
      dsimp only
      congr 1
      funext st
      exact ih hok.2 (Nat.lt_of_succ_lt_succ hn) st

theorem frameItems_unreadable (hno : ∃ line ∈ lines, ¬ line.Readable) (n : ℕ) (st : Reading) :
    frameItems frames n st (lines.flatMap lineTokens) = none := by
  induction lines generalizing n st with
  | nil =>
    obtain ⟨line, hline, -⟩ := hno
    cases hline
  | cons line lines ih =>
    cases n with
    | zero => rfl
    | succ n =>
      rw [frameItems_cons]
      by_cases hok : line.Readable
      · have hrest : ∃ line ∈ lines, ¬ line.Readable := by
          rw [List.exists_mem_cons_iff] at hno
          exact hno.resolve_left (not_not.mpr hok)
        rw [frameItem_readable (lineStarts_flatMap lines) hok, Option.bind_some]
        simp only [ih hrest, Option.bind_fun_none]
      · rw [frameItem_unreadable (lineStarts_flatMap lines) hok]
        rfl

theorem length_le_flatMap_lineTokens (lines : List Line) :
    lines.length ≤ (lines.flatMap lineTokens).length := by
  induction lines with
  | nil => exact Nat.le_refl _
  | cons line lines ih =>
    obtain ⟨t, ts, htokens, -⟩ := lineTokens_ne_nil line
    rw [List.flatMap_cons, List.length_append, List.length_cons, htokens, List.length_cons]
    omega

def Reading.start : Reading := { frame := { vecs := [], objs := [] }, lastVec := none }

/-- **Reading.** Readable lines are added one after the other. -/
theorem readItems_eq (hok : ∀ line ∈ lines, line.Readable) :
    readItems frames (lines.flatMap lineTokens) =
      addLines frames .start (lines.map Line.reread) :=
  frameItems_readable hok (Nat.lt_succ_of_le (length_le_flatMap_lineTokens lines)) _

/-- One line that is not readable is enough for the file to be refused. -/
theorem readItems_unreadable (hno : ∃ line ∈ lines, ¬ line.Readable) :
    readItems frames (lines.flatMap lineTokens) = none :=
  frameItems_unreadable hno _ _

end Read

end Openmoko.Fped
