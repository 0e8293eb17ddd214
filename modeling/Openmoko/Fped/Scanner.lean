import Openmoko.Fped.Expr

/-!
# The scanner (`fpd.l`)

Where a number stands, the text has the literal as one symbol: how it is printed and scanned is left
open. Line markers of the preprocessor are not part of the text.
-/

namespace Openmoko.Fped

inductive Sym where
  | chr (c : Char)
  | lit (num : Num)
  deriving DecidableEq, Repr

abbrev Text := List Sym

/-- A constant string of the source. -/
def text (s : String) : Text := s.toList.map Sym.chr

def nameText (name : Name) : Text := name.map Sym.chr

inductive Keyword where
  | set | loop | package | frame | table | vec | pad | rpad | hole | rect | line | circ | arc
  | meas | measx | measy | unit | allowOverlap | allowTouch
  | dbgDel | dbgMove | dbgFrame | dbgPrint | dbgMeas | dbgDump | dbgExit | dbgTsort
  deriving DecidableEq, Repr

inductive Token where
  | keyword (k : Keyword)
  | label (name : Name)
  | id (name : Name)
  | number (num : Num)
  | string (str : List Char)
  | next
  | nextInverted
  | max
  | maxInverted
  | ch (c : Char)
  deriving DecidableEq, Repr

inductive StartState where
  | initial
  | noKeyword
  | allow
  deriving DecidableEq, Repr

structure ScanState where
  start : StartState
  isTable : Bool
  disableKeywords : Bool
  deriving DecidableEq, Repr

def ScanState.noKeyword : ScanState :=
  { start := .noKeyword, isTable := false, disableKeywords := false }

def isIdStart (c : Char) : Bool := ('a' ≤ c && c ≤ 'z') || ('A' ≤ c && c ≤ 'Z') || c = '_'

def isIdChar (c : Char) : Bool := isIdStart c || ('0' ≤ c && c ≤ '9')

def idRest : Text → Name
  | .chr c :: rest => if isIdChar c then c :: idRest rest else []
  | _ => []

def stringRest : Text → Option (List Char × Text)
  | .chr '"' :: rest => some ([], rest)
  | .chr '\\' :: .chr c :: rest =>
    if c = '\n' ∨ c = '\t' then none
    else (stringRest rest).map fun (s, rest) => ('\\' :: c :: s, rest)
  | .chr c :: rest =>
    if c = '\n' ∨ c = '\t' ∨ c = '\\' then none
    else (stringRest rest).map fun (s, rest) => (c :: s, rest)
  | _ => none

def keywords : List (String × Keyword) :=
  [("set", .set), ("loop", .loop), ("part", .package), ("package", .package), ("frame", .frame),
    ("table", .table), ("vec", .vec), ("pad", .pad), ("rpad", .rpad), ("hole", .hole),
    ("rect", .rect), ("line", .line), ("circ", .circ), ("arc", .arc), ("meas", .meas),
    ("measx", .measx), ("measy", .measy), ("unit", .unit)]

def directives : List (String × Keyword) :=
  [("del", .dbgDel), ("move", .dbgMove), ("frame", .dbgFrame), ("print", .dbgPrint),
    ("meas", .dbgMeas), ("dump", .dbgDump), ("exit", .dbgExit), ("tsort", .dbgTsort)]

variable (st : ScanState)

def scanWord (word : Name) : List Token × ScanState :=
  match st.start with
  | .noKeyword => ([.id word], st)
  | .allow =>
    if word = "overlap".toList then ([.keyword .allowOverlap], st)
    else if word = "touch".toList then ([.keyword .allowTouch], st)
    else ([.id word], st)
  | .initial =>
    if word = "allow".toList then ([], { st with start := .allow })
    else
      match keywords.find? fun k => k.1.toList = word with
      | none => ([.id word], st)
      | some (_, k) =>
        ([.keyword k],
          { st with
            start := .noKeyword
            isTable :=
              if k = .frame then false else if k = .table then true else st.isTable })

def scanDirective (rest : Text) : Option (Keyword × Text) :=
  (directives.find? fun d => (text d.1).isPrefixOf rest).map fun d =>
    (d.2, rest.drop d.1.length)

def scanChar (c : Char) (rest : Text) : List Token × ScanState × Text :=
  match c, rest with
  | '-', .chr '>' :: rest => ([.next], st, rest)
  | '<', .chr '-' :: rest => ([.nextInverted], st, rest)
  | '>', .chr '>' :: rest => ([.max], st, rest)
  | '<', .chr '<' :: rest => ([.maxInverted], st, rest)
  | '\t', rest => ([], st, rest)
  | ' ', rest => ([], st, rest)
  | '\n', rest =>
    ([], if st.disableKeywords then st else { st with start := .initial }, rest)
  | ';', rest => ([], { st with start := .initial }, rest)
  | '{', rest =>
    ([.ch '{'],
      { st with
        disableKeywords := st.isTable
        start := if st.isTable then .noKeyword else .initial }, rest)
  | '}', rest => ([.ch '}'], { st with disableKeywords := false, start := .initial }, rest)
  | c, rest => ([.ch c], st, rest)

def scanStep (c : Char) (rest : Text) : List Token × ScanState × Text :=
  if isIdStart c then
    let word := c :: idRest rest
    let rest' := rest.drop (idRest rest).length
    if st.start = .initial ∧ rest'.head? = some (.chr ':') then ([.label word], st, rest'.tail)
    else ((scanWord st word).1, (scanWord st word).2, rest')
  else if c = '"' then
    match stringRest rest with
    | some (s, rest') => ([.string s], st, rest')
    | none => ([.ch '"'], st, rest)
  else if c = '%' ∧ st.start = .initial then
    match scanDirective rest with
    | some (k, rest') => ([.keyword k], { st with start := .noKeyword }, rest')
    | none => ([.ch '%'], st, rest)
  else scanChar st c rest

theorem length_stringRest {s : Text} {str : List Char} {rest : Text}
    (h : stringRest s = some (str, rest)) : rest.length < s.length := by
  fun_induction stringRest s generalizing str with
  | case1 rest' =>
    obtain ⟨-, rfl⟩ := Prod.mk.inj (Option.some.inj h)
    exact Nat.lt_succ_self _
  | case2 c rest' hc => cases h
  | case3 c rest' hc ih =>
    obtain ⟨⟨s', r⟩, hs, heq⟩ := Option.map_eq_some_iff.mp h
    obtain ⟨-, rfl⟩ := Prod.mk.inj heq
    have hlt := ih hs
    simp only [List.length_cons]
    omega
  | case4 c rest' hc => cases h
  | case5 c rest' h1 h2 hc ih =>
    obtain ⟨⟨s', r⟩, hs, heq⟩ := Option.map_eq_some_iff.mp h
    obtain ⟨-, rfl⟩ := Prod.mk.inj heq
    have hlt := ih hs
    simp only [List.length_cons]
    omega
  | case6 => cases h

theorem length_scanChar (c : Char) (rest : Text) :
    (scanChar st c rest).2.2.length ≤ rest.length := by
  unfold scanChar
  split <;> simp

theorem length_scanStep (c : Char) (rest : Text) :
    (scanStep st c rest).2.2.length ≤ rest.length := by
  unfold scanStep
  split
  · dsimp only
    split
    · simp
    · simp
  · split
    · split
      · rename_i hstring
        exact Nat.le_of_lt (length_stringRest hstring)
      · exact Nat.le_refl _
    · split
      · split
        · rename_i hdirective
          obtain ⟨d, -, heq⟩ := Option.map_eq_some_iff.mp hdirective
          obtain ⟨-, rfl⟩ := Prod.mk.inj heq
          simp
        · exact Nat.le_refl _
      · exact length_scanChar st c rest

def scan (st : ScanState) : Text → List Token
  | [] => []
  | .lit num :: rest => .number num :: scan st rest
  | .chr c :: rest =>
    let step := scanStep st c rest
    step.1 ++ scan step.2.1 step.2.2
termination_by s => s.length
decreasing_by
  · simp
  · have hle := length_scanStep st c rest
    simp only [List.length_cons]
    omega

end Openmoko.Fped
