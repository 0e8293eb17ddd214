import Mathlib.Data.List.DropRight
import Openmoko.Opkg.Proof.ParsedFields

/-!
# Relations as they are written

A relation is one name or more, each with a version or without, and a star at its end when it is
greedy. What `parseDepends` reads of it is lost where it is cut off, except for the closing
parenthesis and the blanks before it.
-/

namespace Openmoko.Opkg

def isContent (b : Byte) : Bool := !isspace b && !(ascii "()|*<>=").contains b

def isClosing (b : Byte) : Bool := isspace b || b == CLOSE

abbrev Blanks := { s : List Byte // ∀ b ∈ s, isspace b = true }

structure Word where
  chars : List Byte
  chars_ne : chars ≠ []
  chars_content : ∀ b ∈ chars, isContent b = true

structure VersionText where
  lead : Blanks
  op : List Byte
  op_mem : op ∈ [ascii "<<", ascii "<=", ascii ">=", ascii ">>", ascii "=", ascii "<", ascii ">"]
  gap : Blanks
  version : Word
  trailing : Blanks

structure Alternative where
  name : Word
  version : Option VersionText

structure RelationText where
  earlier : List (Alternative × Blanks × Blanks)
  last : Alternative
  star : Option Blanks

namespace VersionText

def openText (v : VersionText) : List Byte :=
  v.lead.1 ++ OPEN :: (v.op ++ (v.gap.1 ++ v.version.chars))

def closing (v : VersionText) : List Byte := v.trailing.1 ++ [CLOSE]

def constraint (v : VersionText) : VersionConstraint := (parseConstraint v.op).1

end VersionText

namespace Alternative

def openText (a : Alternative) : List Byte :=
  a.name.chars ++ (a.version.map VersionText.openText).getD []

def closing (a : Alternative) : List Byte := (a.version.map VersionText.closing).getD []

def text (a : Alternative) : List Byte := a.openText ++ a.closing

def value (a : Alternative) : Depend (List Byte) where
  constraint := (a.version.map VersionText.constraint).getD .none
  version := (a.version.map (·.version.chars)).getD []
  pkg := a.name.chars

end Alternative

namespace RelationText

def earlierText (earlier : List (Alternative × Blanks × Blanks)) : List Byte :=
  earlier.flatMap fun (a, before, after) => a.text ++ (before.1 ++ PIPE :: after.1)

def lastText (last : Alternative) (star : Option Blanks) : List Byte :=
  match star with
  | none => last.openText
  | some blanks => last.text ++ (blanks.1 ++ [STAR])

def body (r : RelationText) : List Byte := earlierText r.earlier ++ lastText r.last r.star

def closing (r : RelationText) : List Byte := if r.star.isSome then [] else r.last.closing

def text (r : RelationText) : List Byte := r.body ++ r.closing

def value (r : RelationText) : CompoundDepend (List Byte) where
  type := if r.star.isSome then .greedyDepend else .depend
  possibilities := r.earlier.map (·.1.value) ++ [r.last.value]

end RelationText

/-! ### One alternative -/

variable {b : Byte}

theorem isContent_iff : isContent b = true ↔ isspace b = false ∧ b ∉ ascii "()|*<>=" := by
  simp [isContent]

theorem not_endsName_of_isContent (hb : isContent b = true) : endsName b = false := by
  obtain ⟨hspace, hnot⟩ := isContent_iff.mp hb
  have hne : ∀ c ∈ ascii "()|*<>=", (b == c) = false := by
    intro c hc
    rw [beq_eq_false_iff_ne]
    rintro rfl
    exact hnot hc
  rw [endsName, hspace, hne OPEN (by decide), hne STAR (by decide), hne PIPE (by decide)]
  rfl

theorem not_isClosing_of_isContent (hb : isContent b = true) : isClosing b = false := by
  obtain ⟨hspace, hnot⟩ := isContent_iff.mp hb
  rw [isClosing, hspace, Bool.false_or, beq_eq_false_iff_ne]
  rintro rfl
  exact hnot (by decide)

namespace Word

variable (w : Word)

theorem noSpace : ∀ b ∈ w.chars, isspace b = false :=
  fun b hb => (isContent_iff.mp (w.chars_content b hb)).1

theorem trimmed : trimAlloc w.chars = w.chars :=
  trimAlloc_eq_self (fun b hb => w.noSpace b (List.mem_of_mem_head? hb))
    fun b hb => w.noSpace b (List.mem_of_mem_getLast? hb)

theorem not_endsName : ∀ b ∈ w.chars, endsName b = false :=
  fun b hb => not_endsName_of_isContent (w.chars_content b hb)

theorem head_content : ∀ b ∈ w.chars.head?, isContent b = true :=
  fun b hb => w.chars_content b (List.mem_of_mem_head? hb)

end Word

theorem dropWhile_blanks (blanks : Blanks) (rest : List Byte) :
    (blanks.1 ++ rest).dropWhile isspace = rest.dropWhile isspace :=
  List.dropWhile_append_of_pos blanks.2

theorem dropWhile_word (w : Word) (rest : List Byte) :
    (w.chars ++ rest).dropWhile isspace = w.chars ++ rest := by
  apply dropWhile_eq_self
  intro b hb
  obtain ⟨c, chars, hcons⟩ := List.exists_cons_of_ne_nil w.chars_ne
  rw [hcons] at hb
  obtain rfl : c = b := Option.some.inj hb
  exact w.noSpace c (by simp [hcons])

variable (v : VersionText)

theorem parseConstraint_append {rest : List Byte}
    (hrest : ∀ b ∈ rest.head?, b ∉ ascii "<>=") :
    parseConstraint (v.op ++ rest) = (v.constraint, rest) := by
  have hhead : rest = [] ∨ ∃ b more, rest = b :: more ∧ b ≠ 60 ∧ b ≠ 61 ∧ b ≠ 62 := by
    cases rest with
    | nil => exact Or.inl rfl
    | cons b more =>
      have hb := hrest b rfl
      refine Or.inr ⟨b, more, rfl, ?_, ?_, ?_⟩ <;>
      · rintro rfl
        exact hb (by decide)
  have hop := v.op_mem
  simp only [List.mem_cons, List.not_mem_nil, or_false] at hop
  rw [VersionText.constraint]
  rcases hhead with rfl | ⟨b, more, rfl, hlt, heq, hgt⟩
  · rcases hop with hop | hop | hop | hop | hop | hop | hop <;> rw [hop] <;> rfl
  · rcases hop with hop | hop | hop | hop | hop | hop | hop <;> rw [hop] <;>
      simp [parseConstraint, hasPrefix, ascii, List.isPrefixOf, hlt.symm, heq.symm, hgt.symm]

theorem head_gap (rest : List Byte) :
    ∀ b ∈ (v.gap.1 ++ (v.version.chars ++ rest)).head?, b ∉ ascii "<>=" := by
  intro b hb hmem
  rw [Option.mem_def, List.head?_append] at hb
  have hop : b ∈ ascii "()|*<>=" ∧ isspace b = false := by
    have hall : (ascii "<>=").all (fun b => (ascii "()|*<>=").contains b && !isspace b) = true := by
      decide
    simpa using List.all_eq_true.mp hall b hmem
  cases hgap : v.gap.1.head? with
  | some c =>
    rw [hgap] at hb
    obtain rfl : c = b := Option.some.inj hb
    have hblank := v.gap.2 c (List.mem_of_mem_head? hgap)
    rw [hop.2] at hblank
    cases hblank
  | none =>
    rw [hgap, Option.none_or, List.head?_append_of_ne_nil _ v.version.chars_ne] at hb
    exact (isContent_iff.mp (v.version.head_content b hb)).2 hop.1

theorem content_ne_close {w : Word} : ∀ b ∈ w.chars, decide (b ≠ CLOSE) = true := by
  intro b hb
  apply decide_eq_true
  rintro rfl
  exact (isContent_iff.mp (w.chars_content _ hb)).2 (by decide)

theorem parseVersionInfo_closed (rest : List Byte) :
    parseVersionInfo ((v.openText ++ (v.closing ++ rest)).dropWhile isspace) =
      (v.constraint, v.version.chars, CLOSE :: rest) := by
  have htext : (v.openText ++ (v.closing ++ rest)).dropWhile isspace =
      OPEN :: (v.op ++ (v.gap.1 ++ (v.version.chars ++ (v.trailing.1 ++ CLOSE :: rest)))) := by
    simp only [VersionText.openText, VersionText.closing, List.append_assoc, List.cons_append,
      List.nil_append, dropWhile_blanks]
    rfl
  have htrailing : ∀ b ∈ v.trailing.1, decide (b ≠ CLOSE) = true := by
    intro b hb
    apply decide_eq_true
    rintro rfl
    exact absurd (v.trailing.2 _ hb) (by decide)
  have htrim : trimAlloc (v.version.chars ++ v.trailing.1) = v.version.chars := by
    rw [trimAlloc, dropWhile_word, List.reverse_append,
      List.dropWhile_append_of_pos fun b hb => v.trailing.2 b (List.mem_reverse.mp hb)]
    rw [dropWhile_eq_self, List.reverse_reverse]
    intro b hb
    rw [List.head?_reverse] at hb
    exact v.version.noSpace b (List.mem_of_mem_getLast? hb)
  rw [htext, parseVersionInfo]
  simp only [List.head?_cons, if_true, List.tail_cons,
    parseConstraint_append v (head_gap v _), dropWhile_blanks, dropWhile_word]
  rw [← List.append_assoc, List.takeWhile_append_of_pos, List.dropWhile_append_of_pos]
  · simp [htrim]
  · exact List.forall_mem_append.mpr ⟨content_ne_close, htrailing⟩
  · exact List.forall_mem_append.mpr ⟨content_ne_close, htrailing⟩

theorem parseVersionInfo_open :
    parseVersionInfo (v.openText.dropWhile isspace) = (v.constraint, v.version.chars, []) := by
  have htext : v.openText.dropWhile isspace =
      OPEN :: (v.op ++ (v.gap.1 ++ (v.version.chars ++ []))) := by
    rw [VersionText.openText, dropWhile_blanks, List.append_nil]
    rfl
  have htake : v.version.chars.takeWhile (· ≠ CLOSE) = v.version.chars :=
    List.takeWhile_eq_self_iff.mpr content_ne_close
  have hdrop : v.version.chars.dropWhile (· ≠ CLOSE) = [] :=
    List.dropWhile_eq_nil_iff.mpr content_ne_close
  rw [htext, parseVersionInfo]
  simp only [List.head?_cons, if_true, List.tail_cons, parseConstraint_append v (head_gap v _),
    dropWhile_blanks, dropWhile_word]
  simp only [List.append_nil, htake, hdrop, v.version.trimmed]

theorem trimAlloc_of_not_endsName {name : List Byte} (hname : ∀ b ∈ name, endsName b = false) :
    trimAlloc name = name := by
  have hnoSpace : ∀ b ∈ name, isspace b = false := by
    intro b hb
    have hends := hname b hb
    simp only [endsName, Bool.or_eq_false_iff] at hends
    exact hends.1.1.1
  exact trimAlloc_eq_self (fun b hb => hnoSpace b (List.mem_of_mem_head? hb))
    fun b hb => hnoSpace b (List.mem_of_mem_getLast? hb)

theorem split_name {name rest : List Byte} (hname : ∀ b ∈ name, endsName b = false)
    (hrest : ∀ b ∈ rest.head?, endsName b = true) :
    (name ++ rest).takeWhile (!endsName ·) = name ∧
      (name ++ rest).dropWhile (!endsName ·) = rest := by
  have hall : ∀ b ∈ name, (!endsName b) = true := fun b hb => by rw [hname b hb]; rfl
  rw [List.takeWhile_append_of_pos hall, List.dropWhile_append_of_pos hall]
  cases rest with
  | nil => simp
  | cons b rest => simp [hrest b rfl]

theorem parsePossibility_name {name rest : List Byte} (hname : ∀ b ∈ name, endsName b = false)
    (hrest : ∀ b ∈ rest.head?, endsName b = true) {constraint : VersionConstraint}
    {version after : List Byte}
    (hinfo : parseVersionInfo (rest.dropWhile isspace) = (constraint, version, after))
    {src : List Byte}
    (hsrc : after.dropWhile (fun c => isspace c || c == CLOSE || c == PIPE) = src) :
    parsePossibility (name ++ rest) =
      (⟨constraint, version, name⟩, decide (src.head? = some STAR),
        if src.head? = some STAR then src.tail else src) := by
  obtain ⟨htake, hdrop⟩ := split_name hname hrest
  rw [parsePossibility]
  simp only [htake, hdrop, trimAlloc_of_not_endsName hname, hinfo, hsrc]
  split
  next hstar => rw [decide_eq_true hstar]
  next hstar => rw [decide_eq_false hstar]

def EndsAlternative (rest : List Byte) : Prop :=
  rest = [] ∨ ∃ (blanks : Blanks) (c : Byte) (more : List Byte),
    rest = blanks.1 ++ c :: more ∧ (c = PIPE ∨ c = STAR)

namespace EndsAlternative

variable {rest : List Byte} (hrest : EndsAlternative rest)

include hrest

theorem endsName : ∀ b ∈ rest.head?, endsName b = true := by
  intro b hb
  rcases hrest with rfl | ⟨blanks, c, more, rfl, hc⟩
  · cases hb
  · rw [Option.mem_def, List.head?_append] at hb
    cases hblanks : blanks.1.head? with
    | some d =>
      rw [hblanks] at hb
      obtain rfl : d = b := Option.some.inj hb
      rw [Opkg.endsName, blanks.2 d (List.mem_of_mem_head? hblanks)]
      rfl
    | none =>
      rw [hblanks] at hb
      obtain rfl : c = b := Option.some.inj hb
      rcases hc with rfl | rfl <;> rfl

theorem versionInfo :
    ∃ after, Opkg.parseVersionInfo (rest.dropWhile isspace) = (.none, [], after) ∧
      after.dropWhile (fun c => isspace c || c == CLOSE || c == PIPE) =
        rest.dropWhile fun c => isspace c || c == CLOSE || c == PIPE := by
  rcases hrest with rfl | ⟨blanks, c, more, rfl, hc⟩
  · exact ⟨[], rfl, rfl⟩
  · have hdrop : (blanks.1 ++ c :: more).dropWhile isspace = c :: more := by
      rw [dropWhile_blanks]
      rcases hc with rfl | rfl <;> rfl
    refine ⟨c :: more, ?_, ?_⟩
    · rw [hdrop]
      rcases hc with rfl | rfl <;> rfl
    · rw [List.dropWhile_append_of_pos]
      intro b hb
      rw [blanks.2 b hb]
      rfl

end EndsAlternative

theorem head_openText (rest : List Byte) :
    ∀ b ∈ (v.openText ++ rest).head?, endsName b = true := by
  have hends : EndsAlternative (v.lead.1 ++ PIPE :: []) :=
    Or.inr ⟨v.lead, PIPE, [], rfl, Or.inl rfl⟩
  intro b hb
  rw [VersionText.openText, List.append_assoc, Option.mem_def, List.head?_append] at hb
  cases hlead : v.lead.1.head? with
  | some d =>
    rw [hlead] at hb
    apply hends.endsName
    rw [Option.mem_def, List.head?_append, hlead]
    exact hb
  | none =>
    rw [hlead] at hb
    obtain rfl : OPEN = b := Option.some.inj hb
    rfl

theorem parsePossibility_text (a : Alternative) {rest src : List Byte}
    (hrest : EndsAlternative rest)
    (hsrc : rest.dropWhile (fun c => isspace c || c == CLOSE || c == PIPE) = src) :
    parsePossibility (a.text ++ rest) =
      (a.value, decide (src.head? = some STAR),
        if src.head? = some STAR then src.tail else src) := by
  cases hversion : a.version with
  | none =>
    obtain ⟨after, hinfo, hafter⟩ := hrest.versionInfo
    have htext : a.text ++ rest = a.name.chars ++ rest := by
      simp [Alternative.text, Alternative.openText, Alternative.closing, hversion]
    rw [htext, parsePossibility_name a.name.not_endsName hrest.endsName hinfo (hafter.trans hsrc)]
    simp [Alternative.value, hversion]
  | some v =>
    have htext : a.text ++ rest = a.name.chars ++ (v.openText ++ (v.closing ++ rest)) := by
      simp [Alternative.text, Alternative.openText, Alternative.closing, hversion]
    have hclose : (CLOSE :: rest).dropWhile (fun c => isspace c || c == CLOSE || c == PIPE) =
        src := hsrc
    rw [htext, parsePossibility_name a.name.not_endsName (head_openText v _)
      (parseVersionInfo_closed v rest) hclose]
    simp [Alternative.value, hversion]

theorem parsePossibility_openText (a : Alternative) :
    parsePossibility a.openText = (a.value, false, []) := by
  cases hversion : a.version with
  | none =>
    have hend : EndsAlternative [] := Or.inl rfl
    have htext : a.openText = a.text ++ [] := by
      simp [Alternative.text, Alternative.closing, hversion]
    rw [htext, parsePossibility_text a hend rfl]
    rfl
  | some v =>
    have htext : a.openText = a.name.chars ++ (v.openText ++ []) := by
      simp [Alternative.openText, hversion]
    have hinfo : parseVersionInfo ((v.openText ++ []).dropWhile isspace) =
        (v.constraint, v.version.chars, []) := by
      rw [List.append_nil]
      exact parseVersionInfo_open v
    rw [htext, parsePossibility_name a.name.not_endsName (head_openText v []) hinfo rfl]
    simp [Alternative.value, hversion]

/-! ### The whole relation -/

theorem Alternative.head_openText (a : Alternative) (rest : List Byte) :
    ∀ b ∈ (a.openText ++ rest).head?, isContent b = true := by
  intro b hb
  rw [openText, List.append_assoc, List.head?_append_of_ne_nil _ a.name.chars_ne] at hb
  exact a.name.head_content b hb

theorem Alternative.openText_ne (a : Alternative) : a.openText ≠ [] :=
  List.append_ne_nil_of_left_ne_nil a.name.chars_ne _

theorem skip_separator (before after : Blanks) {rest : List Byte} (hne : rest ≠ [])
    (hrest : ∀ b ∈ rest.head?, isContent b = true) :
    (before.1 ++ PIPE :: (after.1 ++ rest)).dropWhile
      (fun c => isspace c || c == CLOSE || c == PIPE) = rest := by
  have hblanks : ∀ blanks : Blanks, ∀ b ∈ blanks.1,
      (isspace b || b == CLOSE || b == PIPE) = true := by
    intro blanks b hb
    rw [blanks.2 b hb]
    rfl
  have hpipe : (PIPE :: (after.1 ++ rest)).dropWhile
      (fun c => isspace c || c == CLOSE || c == PIPE) =
      (after.1 ++ rest).dropWhile (fun c => isspace c || c == CLOSE || c == PIPE) := rfl
  rw [List.dropWhile_append_of_pos (hblanks before), hpipe,
    List.dropWhile_append_of_pos (hblanks after)]
  obtain ⟨b, rest, rfl⟩ := List.exists_cons_of_ne_nil hne
  apply List.dropWhile_cons_of_neg
  obtain ⟨hspace, hnot⟩ := isContent_iff.mp (hrest b rfl)
  rw [hspace, Bool.false_or, Bool.or_eq_true, beq_iff_eq, beq_iff_eq, not_or]
  constructor
  · rintro rfl
    exact hnot (by decide)
  · rintro rfl
    exact hnot (by decide)

namespace RelationText

variable (earlier : List (Alternative × Blanks × Blanks))

theorem head_text {text : List Byte}
    (htext : text ≠ [] ∧ ∀ b ∈ text.head?, isContent b = true) :
    earlierText earlier ++ text ≠ [] ∧
      ∀ b ∈ (earlierText earlier ++ text).head?, isContent b = true := by
  cases earlier with
  | nil => exact htext
  | cons first earlier =>
    obtain ⟨a, before, after⟩ := first
    have hsplit : earlierText ((a, before, after) :: earlier) ++ text =
        a.openText ++ (a.closing ++ (before.1 ++ PIPE :: (after.1 ++
          (earlierText earlier ++ text)))) := by
      simp [earlierText, Alternative.text]
    rw [hsplit]
    exact ⟨List.append_ne_nil_of_left_ne_nil a.openText_ne _, a.head_openText _⟩

theorem parsePossibilities_earlier
    {text rest : List Byte} {last : Depend (List Byte)} {greedy : Bool}
    (htext : text ≠ [] ∧ ∀ b ∈ text.head?, isContent b = true)
    (hlast : parsePossibility text = (last, greedy, rest)) :
    parsePossibilities (earlier.length + 1) (earlierText earlier ++ text) =
      (earlier.map (·.1.value) ++ [last], greedy) := by
  induction earlier with
  | nil =>
    change parsePossibilities 1 text = ([last], greedy)
    rw [parsePossibilities, hlast]
    simp only [parsePossibilities, Bool.or_false]
  | cons first earlier ih =>
    obtain ⟨a, before, after⟩ := first
    obtain ⟨hne, hhead⟩ := head_text earlier htext
    have hends : EndsAlternative (before.1 ++ PIPE :: (after.1 ++ (earlierText earlier ++ text))) :=
      Or.inr ⟨before, PIPE, _, rfl, Or.inl rfl⟩
    have hstar : (earlierText earlier ++ text).head? ≠ some STAR := by
      intro hstar
      exact absurd (hhead STAR hstar) (by decide)
    have hparse := parsePossibility_text a hends (skip_separator before after hne hhead)
    rw [decide_eq_false hstar, if_neg hstar] at hparse
    have hsplit : earlierText ((a, before, after) :: earlier) ++ text =
        a.text ++ (before.1 ++ PIPE :: (after.1 ++ (earlierText earlier ++ text))) := by
      simp [earlierText]
    rw [hsplit, List.length_cons, parsePossibilities, hparse]
    simp only [ih, Bool.false_or]
    rfl

theorem notMem_alternative {c : Byte} (hc : c = PIPE ∨ c = STAR) (a : Alternative) :
    c ∉ a.text := by
  have hword : ∀ w : Word, c ∉ w.chars := by
    intro w hmem
    have hcontent := w.chars_content c hmem
    rcases hc with rfl | rfl <;> exact absurd hcontent (by decide)
  have hblanks : ∀ blanks : Blanks, c ∉ blanks.1 := by
    intro blanks hmem
    have hblank := blanks.2 c hmem
    rcases hc with rfl | rfl <;> exact absurd hblank (by decide)
  rw [Alternative.text, Alternative.openText, Alternative.closing]
  cases a.version with
  | none =>
    simp only [Option.map_none, Option.getD_none, List.append_nil]
    exact hword a.name
  | some v =>
    have hop : c ∉ v.op := by
      have hall : ∀ op ∈ [ascii "<<", ascii "<=", ascii ">=", ascii ">>", ascii "=", ascii "<",
          ascii ">"], PIPE ∉ op ∧ STAR ∉ op := by decide
      rcases hc with rfl | rfl
      · exact (hall v.op v.op_mem).1
      · exact (hall v.op v.op_mem).2
    have hparens : c ≠ OPEN ∧ c ≠ CLOSE := by
      rcases hc with rfl | rfl <;> exact ⟨by decide, by decide⟩
    simp only [Option.map_some, Option.getD_some, VersionText.openText, VersionText.closing,
      List.mem_append, List.mem_cons, List.not_mem_nil, or_false, not_or]
    exact ⟨⟨hword a.name, hblanks v.lead, hparens.1, hop, hblanks v.gap, hword v.version⟩,
      hblanks v.trailing, hparens.2⟩

theorem count_earlierText :
    (earlierText earlier).count PIPE = earlier.length := by
  have hblanks : ∀ blanks : Blanks, blanks.1.count PIPE = 0 := by
    intro blanks
    exact List.count_eq_zero.mpr fun hmem => absurd (blanks.2 PIPE hmem) (by decide)
  induction earlier with
  | nil => rfl
  | cons first earlier ih =>
    obtain ⟨a, before, after⟩ := first
    have ha : a.text.count PIPE = 0 :=
      List.count_eq_zero.mpr (notMem_alternative (Or.inl rfl) a)
    rw [earlierText, List.flatMap_cons] at *
    rw [List.count_append, ih, List.count_append, List.count_append, List.count_cons_self, ha,
      hblanks, hblanks, List.length_cons]
    omega

theorem star_notMem_earlierText :
    STAR ∉ earlierText earlier := by
  intro hmem
  obtain ⟨⟨a, before, after⟩, -, hmem⟩ := List.mem_flatMap.mp hmem
  rcases List.mem_append.mp hmem with hmem | hmem
  · exact notMem_alternative (Or.inr rfl) a hmem
  rcases List.mem_append.mp hmem with hmem | hmem
  · exact absurd (before.2 STAR hmem) (by decide)
  rcases List.mem_cons.mp hmem with hpipe | hmem
  · exact absurd hpipe (by decide)
  · exact absurd (after.2 STAR hmem) (by decide)

variable (r : RelationText)

theorem parseDepends_of_last {text rest : List Byte}
    (htext : text ≠ [] ∧ ∀ b ∈ text.head?, isContent b = true) (hpipe : PIPE ∉ text)
    (hlast : parsePossibility text = (r.last.value, r.star.isSome, rest)) :
    parseDepends (earlierText r.earlier ++ text) = r.value := by
  rw [parseDepends, List.count_append, count_earlierText, List.count_eq_zero.mpr hpipe,
    Nat.add_zero, parsePossibilities_earlier r.earlier htext hlast]
  rfl

theorem parseDepends_star {blanks : Blanks} (hstar : r.star = some blanks) :
    parseDepends r.body = r.value := by
  have hbody : r.body = earlierText r.earlier ++ (r.last.text ++ (blanks.1 ++ [STAR])) := by
    rw [body, hstar, lastText]
  have hne : r.last.text ++ (blanks.1 ++ [STAR]) ≠ [] :=
    List.append_ne_nil_of_right_ne_nil _ (List.append_ne_nil_of_right_ne_nil _ (List.cons_ne_nil _ _))
  have hhead : ∀ b ∈ (r.last.text ++ (blanks.1 ++ [STAR])).head?, isContent b = true := by
    rw [Alternative.text, List.append_assoc]
    exact r.last.head_openText _
  have hpipe : PIPE ∉ r.last.text ++ (blanks.1 ++ [STAR]) := by
    rw [List.mem_append, List.mem_append, not_or, not_or]
    refine ⟨notMem_alternative (Or.inl rfl) r.last, fun hmem => ?_, by decide⟩
    exact absurd (blanks.2 PIPE hmem) (by decide)
  have hskip : (blanks.1 ++ [STAR]).dropWhile (fun c => isspace c || c == CLOSE || c == PIPE) =
      [STAR] := by
    rw [List.dropWhile_append_of_pos]
    · rfl
    · intro b hb
      rw [blanks.2 b hb]
      rfl
  have hlast := parsePossibility_text r.last (Or.inr ⟨blanks, STAR, [], rfl, Or.inr rfl⟩) hskip
  rw [hbody]
  apply r.parseDepends_of_last ⟨hne, hhead⟩ hpipe
  rw [hstar]
  exact hlast

theorem parseDepends_body : parseDepends r.body = r.value := by
  cases hstar : r.star with
  | some blanks => exact r.parseDepends_star hstar
  | none =>
    have hbody : r.body = earlierText r.earlier ++ r.last.openText := by rw [body, hstar, lastText]
    have hhead := r.last.head_openText []
    rw [List.append_nil] at hhead
    have hpipe : PIPE ∉ r.last.openText :=
      fun hmem => notMem_alternative (Or.inl rfl) r.last (List.mem_append_left _ hmem)
    rw [hbody]
    apply r.parseDepends_of_last ⟨r.last.openText_ne, hhead⟩ hpipe
    rw [hstar]
    exact parsePossibility_openText r.last

theorem parseDepends_text : parseDepends r.text = r.value := by
  cases hstar : r.star with
  | some blanks =>
    have htext : r.text = r.body := by simp [text, closing, hstar]
    rw [htext, r.parseDepends_star hstar]
  | none =>
    have htext : r.text = earlierText r.earlier ++ (r.last.text ++ []) := by
      simp [text, body, lastText, closing, hstar, Alternative.text]
    have hends : EndsAlternative [] := Or.inl rfl
    have hhead := r.last.head_openText (r.last.closing ++ [])
    rw [← List.append_assoc, ← Alternative.text] at hhead
    have hpipe : PIPE ∉ r.last.text ++ [] := by
      rw [List.append_nil]
      exact notMem_alternative (Or.inl rfl) r.last
    have hne : r.last.text ++ [] ≠ [] := by
      rw [Alternative.text, List.append_assoc]
      exact List.append_ne_nil_of_left_ne_nil r.last.openText_ne _
    rw [htext]
    apply r.parseDepends_of_last ⟨hne, hhead⟩ hpipe
    rw [hstar]
    exact parsePossibility_text r.last hends rfl

end RelationText

/-! ### Cut relations -/

def weight (possibilities : List (Depend (List Byte))) : ℕ :=
  (possibilities.map fun p => p.pkg.countP isContent + p.version.countP isContent).sum

theorem countP_split (p : Byte → Bool) (s : List Byte) :
    (s.takeWhile p).countP isContent + (s.dropWhile p).countP isContent = s.countP isContent := by
  rw [← List.countP_append, List.takeWhile_append_dropWhile]

theorem parseConstraint_sublist (src : List Byte) : (parseConstraint src).2.Sublist src := by
  unfold parseConstraint
  repeat' split
  all_goals first | exact List.drop_sublist _ _ | exact List.Sublist.refl _

theorem parseVersionInfo_bound (src : List Byte) :
    (parseVersionInfo src).2.1.countP isContent + (parseVersionInfo src).2.2.countP isContent ≤
        src.countP isContent ∧ (parseVersionInfo src).2.2.Sublist src := by
  unfold parseVersionInfo
  split
  · have hsrc : ((parseConstraint src.tail).2.dropWhile isspace).Sublist src :=
      (List.dropWhile_sublist _).trans ((parseConstraint_sublist _).trans (List.tail_sublist _))
    constructor
    · calc _ ≤ (((parseConstraint src.tail).2.dropWhile isspace).takeWhile (· ≠ CLOSE)).countP isContent +
            (((parseConstraint src.tail).2.dropWhile isspace).dropWhile (· ≠ CLOSE)).countP isContent :=
            Nat.add_le_add_right (trimAlloc_sublist _).countP_le _
        _ = ((parseConstraint src.tail).2.dropWhile isspace).countP isContent := countP_split _ _
        _ ≤ src.countP isContent := hsrc.countP_le
    · exact (List.dropWhile_sublist _).trans hsrc
  · simp

theorem parsePossibility_bound (src : List Byte) {possibility : Depend (List Byte)} {greedy : Bool}
    {rest : List Byte} (hparse : parsePossibility src = (possibility, greedy, rest)) :
    possibility.pkg.countP isContent + possibility.version.countP isContent + rest.countP isContent ≤
        src.countP isContent ∧ rest.Sublist src ∧ (greedy = true → STAR ∈ src) := by
  let named := (src.dropWhile (!endsName ·)).dropWhile isspace
  let after := (parseVersionInfo named).2.2.dropWhile fun c => isspace c || c == CLOSE || c == PIPE
  obtain ⟨hinfo, hinfoSublist⟩ := parseVersionInfo_bound named
  have hsplit := countP_split (!endsName ·) src
  have hname : (trimAlloc (src.takeWhile (!endsName ·))).countP isContent ≤
      (src.takeWhile (!endsName ·)).countP isContent := (trimAlloc_sublist _).countP_le
  have hnamed : named.countP isContent ≤ (src.dropWhile (!endsName ·)).countP isContent :=
    (List.dropWhile_sublist _).countP_le
  have hafter : after.countP isContent ≤ (parseVersionInfo named).2.2.countP isContent :=
    (List.dropWhile_sublist _).countP_le
  have hsublist : after.Sublist src :=
    (List.dropWhile_sublist _).trans (hinfoSublist.trans
      ((List.dropWhile_sublist _).trans (List.dropWhile_sublist _)))
  have hparse : (if after.head? = some STAR then
      (⟨(parseVersionInfo named).1, (parseVersionInfo named).2.1,
        trimAlloc (src.takeWhile (!endsName ·))⟩, true, after.tail)
      else (⟨(parseVersionInfo named).1, (parseVersionInfo named).2.1,
        trimAlloc (src.takeWhile (!endsName ·))⟩, false, after)) =
      (possibility, greedy, rest) := hparse
  have htail : after.tail.countP isContent ≤ after.countP isContent :=
    (List.tail_sublist after).countP_le
  split at hparse
  next hstar =>
    simp only [Prod.mk.injEq] at hparse
    obtain ⟨rfl, -, rfl⟩ := hparse
    exact ⟨by simp only; omega, (List.tail_sublist _).trans hsublist,
      fun _ => hsublist.subset (List.mem_of_mem_head? hstar)⟩
  next =>
    simp only [Prod.mk.injEq] at hparse
    obtain ⟨rfl, rfl, hrest⟩ := hparse
    rw [← hrest]
    exact ⟨by simp only; omega, hsublist, fun h => by cases h⟩

theorem parsePossibilities_bound (n : ℕ) (src : List Byte) :
    weight (parsePossibilities n src).1 ≤ src.countP isContent ∧
      ((parsePossibilities n src).2 = true → STAR ∈ src) := by
  induction n generalizing src with
  | zero => exact ⟨Nat.zero_le _, fun h => by cases h⟩
  | succ n ih =>
    rcases hparse : parsePossibility src with ⟨possibility, greedy, rest⟩
    obtain ⟨hweight, hsublist, hstar⟩ := parsePossibility_bound src hparse
    obtain ⟨hrest, hstarRest⟩ := ih rest
    rw [parsePossibilities, hparse]
    simp only [weight, List.map_cons, List.sum_cons, Bool.or_eq_true] at hrest ⊢
    refine ⟨by omega, ?_⟩
    rintro (hgreedy | hgreedy)
    · exact hstar hgreedy
    · exact hsublist.subset (hstarRest hgreedy)

def keptLength (e : List Byte) : ℕ := (e.rdropWhile isClosing).length

theorem countP_blanks (blanks : Blanks) : blanks.1.countP isContent = 0 := by
  rw [List.countP_eq_zero]
  intro b hb
  simp [isContent, blanks.2 b hb]

theorem countP_op : v.op.countP isContent = 0 := by
  have hall : ∀ op ∈ [ascii "<<", ascii "<=", ascii ">=", ascii ">>", ascii "=", ascii "<",
      ascii ">"], op.countP isContent = 0 := by decide
  exact hall v.op v.op_mem

namespace Alternative

variable (a : Alternative)

theorem closing_isClosing : ∀ b ∈ a.closing, isClosing b = true := by
  rw [closing]
  cases a.version with
  | none => exact List.forall_mem_nil _
  | some v =>
    rw [Option.map_some, Option.getD_some, VersionText.closing]
    refine List.forall_mem_append.mpr ⟨fun b hb => ?_, List.forall_mem_singleton.mpr (by decide)⟩
    rw [isClosing, v.trailing.2 b hb]
    rfl

theorem closing_dropLast : ∀ b ∈ a.closing.dropLast, isspace b = true := by
  rw [closing]
  cases a.version with
  | none => exact List.forall_mem_nil _
  | some v =>
    rw [Option.map_some, Option.getD_some, VersionText.closing, List.dropLast_concat]
    exact v.trailing.2

theorem countP_openText :
    a.openText.countP isContent = a.value.pkg.countP isContent + a.value.version.countP isContent := by
  have hparen : isContent OPEN = false := by decide
  rw [openText, value, List.countP_append]
  cases a.version with
  | none => rfl
  | some v =>
    simp [VersionText.openText, List.countP_append, countP_blanks, countP_op, hparen]

theorem countP_text :
    a.text.countP isContent = a.value.pkg.countP isContent + a.value.version.countP isContent := by
  have hclosing : a.closing.countP isContent = 0 := by
    rw [List.countP_eq_zero]
    intro b hb hcontent
    have hclosing := a.closing_isClosing b hb
    rw [not_isClosing_of_isContent hcontent] at hclosing
    cases hclosing
  rw [text, List.countP_append, hclosing, Nat.add_zero, a.countP_openText]

theorem openText_last : ∃ start last, a.openText = start ++ [last] ∧ isContent last = true := by
  have hword : ∀ w : Word, ∃ start last, w.chars = start ++ [last] ∧ isContent last = true := by
    intro w
    refine ⟨w.chars.dropLast, w.chars.getLast w.chars_ne,
      (List.dropLast_append_getLast w.chars_ne).symm, ?_⟩
    exact w.chars_content _ (List.getLast_mem w.chars_ne)
  rw [openText]
  cases a.version with
  | none =>
    obtain ⟨start, last, hlast, hcontent⟩ := hword a.name
    exact ⟨start, last, by simp [hlast], hcontent⟩
  | some v =>
    obtain ⟨start, last, hlast, hcontent⟩ := hword v.version
    refine ⟨a.name.chars ++ (v.lead.1 ++ OPEN :: (v.op ++ (v.gap.1 ++ start))), last, ?_, hcontent⟩
    simp [VersionText.openText, hlast]

end Alternative

namespace RelationText

variable (r : RelationText)

theorem countP_earlierText (earlier : List (Alternative × Blanks × Blanks)) :
    (earlierText earlier).countP isContent = weight (earlier.map (·.1.value)) := by
  have hpipe : isContent PIPE = false := by decide
  induction earlier with
  | nil => rfl
  | cons first earlier ih =>
    obtain ⟨a, before, after⟩ := first
    rw [earlierText, weight] at ih
    rw [earlierText, weight, List.flatMap_cons, List.countP_append, ih]
    simp [List.countP_append, countP_blanks, a.countP_text, hpipe]

theorem countP_body : r.body.countP isContent = weight r.value.possibilities := by
  have hlast : (lastText r.last r.star).countP isContent =
      r.last.value.pkg.countP isContent + r.last.value.version.countP isContent := by
    cases r.star with
    | none => exact r.last.countP_openText
    | some blanks =>
      have hstar : [STAR].countP isContent = 0 := by decide
      rw [lastText, List.countP_append, List.countP_append, r.last.countP_text, countP_blanks,
        hstar]
      rfl
  rw [body, List.countP_append, countP_earlierText, hlast]
  simp [weight, value]

theorem closing_isClosing : ∀ b ∈ r.closing, isClosing b = true := by
  rw [closing]
  split
  · exact List.forall_mem_nil _
  · exact r.last.closing_isClosing

theorem body_last : ∃ start last, r.body = start ++ [last] ∧
    (isContent last = true ∨ (last = STAR ∧ STAR ∉ start ∧ r.star.isSome = true)) := by
  cases hstar : r.star with
  | none =>
    obtain ⟨start, last, hlast, hcontent⟩ := r.last.openText_last
    refine ⟨earlierText r.earlier ++ start, last, ?_, Or.inl hcontent⟩
    rw [body, hstar, lastText, hlast, List.append_assoc]
  | some blanks =>
    refine ⟨earlierText r.earlier ++ (r.last.text ++ blanks.1), STAR, ?_, Or.inr ⟨rfl, ?_, rfl⟩⟩
    · rw [body, hstar, lastText]
      simp
    · rw [List.mem_append, List.mem_append, not_or, not_or]
      exact ⟨star_notMem_earlierText _, notMem_alternative (Or.inr rfl) _,
        fun hmem => absurd (blanks.2 STAR hmem) (by decide)⟩

theorem keptLength_text : keptLength r.text = r.body.length := by
  obtain ⟨start, last, hbody, hlast⟩ := r.body_last
  have hstop : isClosing last = false := by
    rcases hlast with hcontent | ⟨rfl, -, -⟩
    · exact not_isClosing_of_isContent hcontent
    · decide
  have hclosing : ∀ b ∈ r.closing.reverse, isClosing b = true :=
    fun b hb => r.closing_isClosing b (List.mem_reverse.mp hb)
  rw [keptLength, List.rdropWhile, text, List.reverse_append,
    List.dropWhile_append_of_pos hclosing, hbody, List.reverse_append, List.reverse_singleton,
    List.singleton_append, List.dropWhile_cons_of_neg (by simp [hstop])]
  simp

theorem trimAlloc_body_append {rest : List Byte} (hrest : ∀ b ∈ rest, isspace b = true) :
    trimAlloc (r.body ++ rest) = r.body := by
  obtain ⟨start, last, hbody, hlast⟩ := r.body_last
  have hstop : isspace last = false := by
    rcases hlast with hcontent | ⟨rfl, -, -⟩
    · exact (isContent_iff.mp hcontent).1
    · decide
  have hhead : ∀ rest, ∀ b ∈ (r.body ++ rest).head?, isspace b = false := by
    intro rest b hb
    have hlast : lastText r.last r.star ≠ [] ∧
        ∀ b ∈ (lastText r.last r.star).head?, isContent b = true := by
      cases r.star with
      | none =>
        have hhead := r.last.head_openText []
        rw [List.append_nil] at hhead
        exact ⟨r.last.openText_ne, hhead⟩
      | some blanks =>
        rw [lastText, Alternative.text, List.append_assoc]
        exact ⟨List.append_ne_nil_of_left_ne_nil r.last.openText_ne _, r.last.head_openText _⟩
    obtain ⟨hne, hcontent⟩ := head_text r.earlier hlast
    rw [body, List.head?_append_of_ne_nil _ hne] at hb
    exact (isContent_iff.mp (hcontent b hb)).1
  rw [trimAlloc, dropWhile_eq_self (hhead rest), List.reverse_append,
    List.dropWhile_append_of_pos fun b hb => hrest b (List.mem_reverse.mp hb),
    dropWhile_eq_self, List.reverse_reverse]
  intro b hb
  rw [List.head?_reverse, hbody, List.getLast?_append_cons] at hb
  obtain rfl : last = b := Option.some.inj hb
  exact hstop

theorem trimAlloc_take (htrim : trimAlloc r.text = r.text) {k : ℕ} (hk : r.body.length ≤ k) :
    trimAlloc (r.text.take k) = r.text ∨ trimAlloc (r.text.take k) = r.body := by
  by_cases hwhole : r.text.length ≤ k
  · left
    rw [List.take_of_length_le hwhole, htrim]
  · right
    have htake : r.text.take k = r.body ++ r.closing.dropLast.take (k - r.body.length) := by
      rw [text, List.length_append] at hwhole
      rw [text, List.take_append, List.take_of_length_le hk, List.dropLast_eq_take, List.take_take,
        Nat.min_eq_left (by omega)]
    rw [htake]
    apply r.trimAlloc_body_append
    intro b hb
    have hb := List.mem_of_mem_take hb
    rw [closing] at hb
    split at hb
    · cases hb
    · exact r.last.closing_dropLast b hb

theorem parseDepends_cut_ne {k : ℕ} (hk : k < r.body.length) :
    parseDepends (trimAlloc (r.text.take k)) ≠ r.value := by
  intro heq
  obtain ⟨start, last, hbody, hlast⟩ := r.body_last
  rw [hbody, List.length_append, List.length_singleton] at hk
  have htake : r.text.take k = start.take k := by
    rw [text, hbody, List.append_assoc, List.take_append_of_le_length (by omega)]
  have hsublist : (trimAlloc (r.text.take k)).Sublist start := by
    rw [htake]
    exact (trimAlloc_sublist _).trans (List.take_sublist k start)
  obtain ⟨hweight, hstar⟩ := parsePossibilities_bound
    ((trimAlloc (r.text.take k)).count PIPE + 1) (trimAlloc (r.text.take k))
  rcases hlast with hcontent | ⟨-, hnot, hgreedy⟩
  · have hless : start.countP isContent < r.body.countP isContent := by
      rw [hbody, List.countP_append, List.countP_singleton, if_pos hcontent]
      exact Nat.lt_succ_self _
    have hvalue : weight (parseDepends (trimAlloc (r.text.take k))).possibilities =
        r.body.countP isContent := by
      rw [heq, r.countP_body]
    have hle := hsublist.countP_le (p := isContent)
    have hparsed : weight (parseDepends (trimAlloc (r.text.take k))).possibilities ≤
        (trimAlloc (r.text.take k)).countP isContent := hweight
    omega
  · apply hnot
    apply hsublist.subset
    apply hstar
    have htype := congrArg CompoundDepend.type heq
    rw [value, if_pos hgreedy] at htype
    by_contra hgreedy
    rw [parseDepends] at htype
    simp only [hgreedy] at htype
    cases htype

/-- **A relation is read from its first characters exactly when these are all but what closes it.** -/
theorem parseDepends_cut_iff (htrim : trimAlloc r.text = r.text) (k : ℕ) :
    parseDepends (trimAlloc (r.text.take k)) = parseDepends r.text ↔ keptLength r.text ≤ k := by
  rw [r.keptLength_text, r.parseDepends_text]
  constructor
  · intro heq
    by_contra hk
    exact r.parseDepends_cut_ne (Nat.lt_of_not_le hk) heq
  · intro hk
    rcases r.trimAlloc_take htrim hk with hcut | hcut
    · rw [hcut, r.parseDepends_text]
    · rw [hcut, r.parseDepends_body]

end RelationText

end Openmoko.Opkg
