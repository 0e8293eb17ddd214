import Mathlib.Data.List.Basic
import Openmoko.Fped.ExprParser

/-!
# What is unparsed is scanned back

The tokens that the scanner makes of the text of an expression, given that names and strings have the
form that the scanner itself gives them. The text has no blanks; a token ends where the next one
begins with a character that cannot go on with it.
-/

namespace Openmoko.Fped

def IsName (name : Name) : Prop :=
  ∃ c cs, name = c :: cs ∧ isIdStart c = true ∧ ∀ d ∈ cs, isIdChar d = true

variable {name : Name} {s rest : Text} {c : Char}

theorem isName_of_chars
    (hname : (name.head?.any isIdStart && name.tail.all isIdChar) = true) : IsName name := by
  rw [Bool.and_eq_true, List.all_eq_true] at hname
  cases name with
  | nil => cases hname.1
  | cons c cs => exact ⟨c, cs, rfl, hname.1, hname.2⟩

def IsString (str : List Char) : Prop :=
  ∀ rest, stringRest (nameText str ++ .chr '"' :: rest) = some (str, rest)

def Token.Valid : Token → Prop
  | .label name => IsName name
  | .id name => IsName name
  | .string str => IsString str
  | _ => True

def Expr.Scannable : Expr → Prop
  | .num _ => True
  | .var name => IsName name
  | .string str => IsString str
  | .sin a | .cos a | .sqrt a | .minus a => a.Scannable
  | .add a b | .sub a b | .mult a b | .div a b => a.Scannable ∧ b.Scannable

theorem isIdChar_of_mem_idRest : ∀ d ∈ idRest s, isIdChar d = true := by
  fun_induction idRest s with
  | case1 c rest hc ih =>
    intro d hd
    rcases List.mem_cons.mp hd with rfl | hmem
    · exact hc
    · exact ih d hmem
  | case2 c rest hc =>
    intro d hd
    cases hd
  | case3 =>
    intro d hd
    cases hd

theorem isString_stringRest {str : List Char}
    (h : stringRest s = some (str, rest)) : IsString str := by
  fun_induction stringRest s generalizing str with
  | case1 rest' =>
    obtain ⟨rfl, -⟩ := Prod.mk.inj (Option.some.inj h)
    intro more
    simp [nameText, stringRest]
  | case2 c rest' hc => cases h
  | case3 c rest' hc ih =>
    obtain ⟨⟨s', r⟩, hs, heq⟩ := Option.map_eq_some_iff.mp h
    obtain ⟨rfl, rfl⟩ := Prod.mk.inj heq
    intro more
    have hmore := ih hs more
    simp only [nameText, List.map_cons, List.cons_append, stringRest] at hmore ⊢
    rw [if_neg hc, hmore]
    rfl
  | case4 c rest' hc => cases h
  | case5 c rest' h1 h2 hc ih =>
    obtain ⟨⟨s', r⟩, hs, heq⟩ := Option.map_eq_some_iff.mp h
    obtain ⟨rfl, rfl⟩ := Prod.mk.inj heq
    intro more
    have hmore := ih hs more
    simp only [nameText, List.map_cons, List.cons_append] at hmore ⊢
    rw [stringRest, if_neg hc, hmore]
    · rfl
    · exact h1
    · intro c' rest'' _ hslash
      exact hc (Or.inr (Or.inr hslash))
  | case6 => cases h

theorem isName_word (hc : isIdStart c = true) (rest : Text) :
    IsName (c :: idRest rest) := ⟨c, _, rfl, hc, isIdChar_of_mem_idRest⟩

theorem valid_scanWord {st : ScanState} {word : Name} (hword : IsName word) :
    ∀ t ∈ (scanWord st word).1, t.Valid := by
  intro t ht
  unfold scanWord at ht
  split at ht
  · obtain rfl := List.mem_singleton.mp ht
    exact hword
  · split at ht
    · obtain rfl := List.mem_singleton.mp ht
      trivial
    · split at ht
      · obtain rfl := List.mem_singleton.mp ht
        trivial
      · obtain rfl := List.mem_singleton.mp ht
        exact hword
  · split at ht
    · cases ht
    · split at ht
      · obtain rfl := List.mem_singleton.mp ht
        exact hword
      · obtain rfl := List.mem_singleton.mp ht
        trivial

theorem valid_scanChar {st : ScanState} : ∀ t ∈ (scanChar st c rest).1, t.Valid := by
  intro t ht
  unfold scanChar at ht
  split at ht
  all_goals
    simp only [List.mem_singleton, List.not_mem_nil] at ht
    try
      rw [ht]
      trivial

theorem valid_scanStep {st : ScanState} : ∀ t ∈ (scanStep st c rest).1, t.Valid := by
  intro t ht
  unfold scanStep at ht
  split at ht
  · rename_i hc
    dsimp only at ht
    split at ht
    · obtain rfl := List.mem_singleton.mp ht
      exact isName_word hc rest
    · exact valid_scanWord (isName_word hc rest) t ht
  · split at ht
    · split at ht
      · rename_i hstring
        obtain rfl := List.mem_singleton.mp ht
        exact isString_stringRest hstring
      · obtain rfl := List.mem_singleton.mp ht
        trivial
    · split at ht
      · split at ht
        · obtain rfl := List.mem_singleton.mp ht
          trivial
        · obtain rfl := List.mem_singleton.mp ht
          trivial
      · exact valid_scanChar t ht

theorem valid_of_mem_scan {st : ScanState} : ∀ t ∈ scan st s, t.Valid := by
  fun_induction scan st s with
  | case1 st =>
    intro t ht
    cases ht
  | case2 st num rest ih =>
    intro t ht
    rcases List.mem_cons.mp ht with rfl | hmem
    · trivial
    · exact ih t hmem
  | case3 st c rest step ih =>
    intro t ht
    rcases List.mem_append.mp ht with hstep | hmem
    · exact valid_scanStep t hstep
    · exact ih t hmem

variable {e : Expr} {ts : List Token}

theorem scannable_of_derives {prec : Prec} (h : Derives prec ts e)
    (hvalid : ∀ t ∈ ts, t.Valid) : e.Scannable := by
  have hbinary : ∀ {ts us : List Token} {t : Token}, (∀ u ∈ ts ++ t :: us, u.Valid) →
      (∀ u ∈ ts, u.Valid) ∧ ∀ u ∈ us, u.Valid := by
    intro ts us t hall
    rw [List.forall_mem_append, List.forall_mem_cons] at hall
    exact ⟨hall.1, hall.2.2⟩
  induction h with
  | addMult _ ih => exact ih hvalid
  | addAdd _ _ iha ihb => exact ⟨iha (hbinary hvalid).1, ihb (hbinary hvalid).2⟩
  | addSub _ _ iha ihb => exact ⟨iha (hbinary hvalid).1, ihb (hbinary hvalid).2⟩
  | multUnary _ ih => exact ih hvalid
  | multMult _ _ iha ihb => exact ⟨iha (hbinary hvalid).1, ihb (hbinary hvalid).2⟩
  | multDiv _ _ iha ihb => exact ⟨iha (hbinary hvalid).1, ihb (hbinary hvalid).2⟩
  | unaryPrimary _ ih => exact ih hvalid
  | unaryMinus _ ih => exact ih (List.forall_mem_cons.mp hvalid).2
  | number num => trivial
  | id name => exact hvalid _ List.mem_cons_self
  | string str => exact hvalid _ List.mem_cons_self
  | parens _ ih =>
    rw [List.cons_append, List.forall_mem_cons] at hvalid
    exact ih (hbinary hvalid.2).1
  | function _ hfn ih =>
    rw [List.cons_append, List.cons_append, List.forall_mem_cons, List.forall_mem_cons] at hvalid
    have ha := ih (hbinary hvalid.2.2).1
    unfold mkFunction at hfn
    split at hfn
    · obtain rfl := Option.some.inj hfn
      exact ha
    · split at hfn
      · obtain rfl := Option.some.inj hfn
        exact ha
      · split at hfn
        · obtain rfl := Option.some.inj hfn
          exact ha
        · cases hfn

def parenTokens (prec own : Prec) (ts : List Token) : List Token :=
  if prec.rank > own.rank then .ch '(' :: ts ++ [.ch ')'] else ts

def exprTokens : Expr → Prec → List Token
  | .num num, _ => [.number num]
  | .string str, _ => [.string str]
  | .var name, _ => [.id name]
  | .minus a, prec => parenTokens prec .unary (.ch '-' :: exprTokens a .unary)
  | .add a b, prec =>
    parenTokens prec .add (exprTokens a .add ++ .ch '+' :: exprTokens b .add)
  | .sub a b, prec =>
    parenTokens prec .add (exprTokens a .add ++ .ch '-' :: exprTokens b .mult)
  | .mult a b, prec =>
    parenTokens prec .mult (exprTokens a .mult ++ .ch '*' :: exprTokens b .mult)
  | .div a b, prec =>
    parenTokens prec .mult (exprTokens a .mult ++ .ch '/' :: exprTokens b .primary)
  | .sin a, _ => .id "sin".toList :: .ch '(' :: exprTokens a .add ++ [.ch ')']
  | .cos a, _ => .id "cos".toList :: .ch '(' :: exprTokens a .add ++ [.ch ')']
  | .sqrt a, _ => .id "sqrt".toList :: .ch '(' :: exprTokens a .add ++ [.ch ')']

def Ends (rest : Text) : Prop := idRest rest = []

theorem ends_chr (hc : isIdChar c = false) (rest : Text) : Ends (.chr c :: rest) := by
  rw [Ends, idRest, hc]
  rfl

theorem idRest_append {cs : Name} (hcs : ∀ d ∈ cs, isIdChar d = true)
    (hrest : Ends rest) : idRest (nameText cs ++ rest) = cs := by
  induction cs with
  | nil => exact hrest
  | cons d cs ih =>
    rw [List.forall_mem_cons] at hcs
    rw [nameText, List.map_cons, List.cons_append, idRest, if_pos hcs.1]
    exact congrArg (d :: ·) (ih hcs.2)

variable {st : ScanState}

theorem scan_chr (st : ScanState) (c : Char) (rest : Text) :
    scan st (.chr c :: rest) =
      (scanStep st c rest).1 ++ scan (scanStep st c rest).2.1 (scanStep st c rest).2.2 := by
  rw [scan]

theorem drop_name {cs : Name} (rest : Text) : (nameText cs ++ rest).drop cs.length = rest :=
  List.drop_left' (by simp [nameText])

theorem scan_name (hst : st.start = .noKeyword) (hname : IsName name)
    (hrest : Ends rest) : scan st (nameText name ++ rest) = .id name :: scan st rest := by
  obtain ⟨c, cs, rfl, hc, hcs⟩ := hname
  have hstep : scanStep st c (nameText cs ++ rest) = ([.id (c :: cs)], st, rest) := by
    rw [scanStep, if_pos hc, idRest_append hcs hrest]
    simp [hst, scanWord, drop_name]
  have htext : nameText (c :: cs) ++ rest = .chr c :: (nameText cs ++ rest) := rfl
  rw [htext, scan_chr, hstep]
  rfl

theorem scan_word (hname : IsName name)
    (hrest : Ends rest) (hcolon : rest.head? ≠ some (.chr ':')) :
    scan st (nameText name ++ rest) =
      (scanWord st name).1 ++ scan (scanWord st name).2 rest := by
  obtain ⟨c, cs, rfl, hc, hcs⟩ := hname
  have hstep : scanStep st c (nameText cs ++ rest) =
      ((scanWord st (c :: cs)).1, (scanWord st (c :: cs)).2, rest) := by
    rw [scanStep, if_pos hc, idRest_append hcs hrest]
    dsimp only
    rw [drop_name, if_neg fun hlabel => hcolon hlabel.2]
  have htext : nameText (c :: cs) ++ rest = .chr c :: (nameText cs ++ rest) := rfl
  rw [htext, scan_chr, hstep]

theorem scan_label (hst : st.start = .initial) (hname : IsName name) (rest : Text) :
    scan st (nameText name ++ .chr ':' :: rest) = .label name :: scan st rest := by
  obtain ⟨c, cs, rfl, hc, hcs⟩ := hname
  have hstep : scanStep st c (nameText cs ++ .chr ':' :: rest) =
      ([.label (c :: cs)], st, rest) := by
    rw [scanStep, if_pos hc, idRest_append hcs (ends_chr (by decide) rest)]
    dsimp only
    rw [drop_name, if_pos ⟨hst, rfl⟩]
    rfl
  have htext : nameText (c :: cs) ++ .chr ':' :: rest =
      .chr c :: (nameText cs ++ .chr ':' :: rest) := rfl
  rw [htext, scan_chr, hstep]
  rfl

theorem scan_string {str : List Char} (hstr : IsString str) (rest : Text) :
    scan st (text "\"" ++ nameText str ++ text "\"" ++ rest) = .string str :: scan st rest := by
  have hstep : scanStep st '"' (nameText str ++ .chr '"' :: rest) = ([.string str], st, rest) := by
    rw [scanStep, if_neg (by decide), if_pos rfl, hstr rest]
  have htext : text "\"" ++ nameText str ++ text "\"" ++ rest =
      .chr '"' :: (nameText str ++ .chr '"' :: rest) := by simp [text]
  rw [htext, scan_chr, hstep]
  rfl

theorem scan_single (hc : c ∈ ['(', ')', '+', '*', '/', '.', ',', '@']) (rest : Text) :
    scan st (.chr c :: rest) = .ch c :: scan st rest := by
  have hstep : scanStep st c rest = ([.ch c], st, rest) := by
    simp only [List.mem_cons, List.not_mem_nil, or_false] at hc
    rcases hc with rfl | rfl | rfl | rfl | rfl | rfl | rfl | rfl <;> rfl
  rw [scan_chr, hstep]
  rfl

theorem scan_blank (rest : Text) : scan st (.chr ' ' :: rest) = scan st rest := by
  rw [scan_chr]
  rfl

theorem scan_minus (hrest : rest.head? ≠ some (.chr '>')) :
    scan st (.chr '-' :: rest) = .ch '-' :: scan st rest := by
  have hstep : scanStep st '-' rest = ([.ch '-'], st, rest) := by
    cases rest with
    | nil => rfl
    | cons s rest =>
      rw [scanStep, if_neg (by decide), if_neg (by decide), if_neg (by simp), scanChar]
      all_goals simp_all
  rw [scan_chr, hstep]
  rfl

theorem scan_parens {prec own : Prec}
    (hs : ∀ rest, Ends rest → scan st (s ++ rest) = ts ++ scan st rest)
    (hrest : Ends rest) :
    scan st (parens prec own s ++ rest) = parenTokens prec own ts ++ scan st rest := by
  unfold parens parenTokens
  split
  · have htext : text "(" ++ s ++ text ")" ++ rest = .chr '(' :: (s ++ .chr ')' :: rest) := by
      simp [text]
    rw [htext, scan_single (by simp), hs _ (ends_chr (by decide) rest), scan_single (by simp)]
    simp
  · exact hs rest hrest

theorem scan_binary (hc : isIdChar c = false) {s' : Text} {us : List Token}
    (hs : ∀ rest, Ends rest → scan st (s ++ rest) = ts ++ scan st rest)
    (hop : ∀ rest, scan st (.chr c :: (s' ++ rest)) = .ch c :: scan st (s' ++ rest))
    (hs' : ∀ rest, Ends rest → scan st (s' ++ rest) = us ++ scan st rest) :
    ∀ rest, Ends rest →
      scan st (s ++ [.chr c] ++ s' ++ rest) = (ts ++ .ch c :: us) ++ scan st rest := by
  intro rest hrest
  have htext : s ++ [.chr c] ++ s' ++ rest = s ++ .chr c :: (s' ++ rest) := by simp
  rw [htext, hs _ (ends_chr hc _), hop, hs' rest hrest]
  simp

theorem scan_function (hst : st.start = .noKeyword) {f : Name} (hf : IsName f)
    (hs : ∀ rest, Ends rest → scan st (s ++ rest) = ts ++ scan st rest)
    (rest : Text) :
    scan st (nameText f ++ [.chr '('] ++ s ++ [.chr ')'] ++ rest) =
      (.id f :: .ch '(' :: ts ++ [.ch ')']) ++ scan st rest := by
  have htext : nameText f ++ [.chr '('] ++ s ++ [.chr ')'] ++ rest =
      nameText f ++ .chr '(' :: (s ++ .chr ')' :: rest) := by simp
  rw [htext, scan_name hst hf (ends_chr (by decide) _), scan_single (by simp),
    hs _ (ends_chr (by decide) rest), scan_single (by simp)]
  simp

theorem head_unparseOp (he : e.Scannable) (prec : Prec) (rest : Text) :
    (unparseOp e prec ++ rest).head? ≠ some (.chr '>') := by
  have hparens : ∀ {prec own s}, (∀ rest : Text, (s ++ rest).head? ≠ some (.chr '>')) →
      ∀ rest, (parens prec own s ++ rest).head? ≠ some (.chr '>') := by
    intro prec own s hs rest
    unfold parens
    split
    · simp [text]
    · exact hs rest
  induction e generalizing prec rest with
  | num num => simp [unparseOp]
  | string str => simp [unparseOp, text]
  | var name =>
    obtain ⟨c, cs, rfl, hc, -⟩ := he
    have hne : c ≠ '>' := by
      rintro rfl
      exact absurd hc (by decide)
    simpa [unparseOp, nameText] using hne
  | sin a _ => simp [unparseOp, text]
  | cos a _ => simp [unparseOp, text]
  | sqrt a _ => simp [unparseOp, text]
  | minus a _ =>
    apply hparens
    intro rest
    simp [text]
  | add a b iha _ | sub a b iha _ | mult a b iha _ | div a b iha _ =>
    apply hparens
    intro rest
    rw [List.append_assoc, List.append_assoc]
    exact iha he.1 _ _

/-- **The scanner finds the tokens of an expression.** -/
theorem scan_unparseOp (hst : st.start = .noKeyword) (he : e.Scannable) (prec : Prec)
    (hrest : Ends rest) :
    scan st (unparseOp e prec ++ rest) = exprTokens e prec ++ scan st rest := by
  induction e generalizing prec rest with
  | num num =>
    rw [unparseOp, List.singleton_append, scan]
    rfl
  | string str => exact scan_string he rest
  | var name => exact scan_name hst he hrest
  | sin a ih =>
    exact scan_function hst (f := "sin".toList) (isName_of_chars rfl)
      (fun rest hrest => ih he _ hrest) rest
  | cos a ih =>
    exact scan_function hst (f := "cos".toList) (isName_of_chars rfl)
      (fun rest hrest => ih he _ hrest) rest
  | sqrt a ih =>
    exact scan_function hst (f := "sqrt".toList) (isName_of_chars rfl)
      (fun rest hrest => ih he _ hrest) rest
  | minus a ih =>
    have ha : a.Scannable := he
    apply scan_parens _ hrest
    intro rest hrest
    have htext : text "-" ++ unparseOp a .unary ++ rest =
        .chr '-' :: (unparseOp a .unary ++ rest) := rfl
    rw [htext, scan_minus (head_unparseOp ha _ _), ih ha _ hrest]
    rfl
  | add a b iha ihb =>
    exact scan_parens (scan_binary (c := '+') (by decide) (fun rest hrest => iha he.1 _ hrest)
      (fun rest => scan_single (by simp) _) (fun rest hrest => ihb he.2 _ hrest)) hrest
  | sub a b iha ihb =>
    exact scan_parens (scan_binary (c := '-') (by decide) (fun rest hrest => iha he.1 _ hrest)
      (fun rest => scan_minus (head_unparseOp he.2 _ _)) (fun rest hrest => ihb he.2 _ hrest)) hrest
  | mult a b iha ihb =>
    exact scan_parens (scan_binary (c := '*') (by decide) (fun rest hrest => iha he.1 _ hrest)
      (fun rest => scan_single (by simp) _) (fun rest hrest => ihb he.2 _ hrest)) hrest
  | div a b iha ihb =>
    exact scan_parens (scan_binary (c := '/') (by decide) (fun rest hrest => iha he.1 _ hrest)
      (fun rest => scan_single (by simp) _) (fun rest hrest => ihb he.2 _ hrest)) hrest

end Openmoko.Fped
