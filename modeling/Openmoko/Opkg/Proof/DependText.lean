import Openmoko.Opkg.Proof.RelationText

/-!
# Dependencies of any names and versions

`parseDepends` copies each name and each version into a buffer on the stack, a version with the
blanks behind it. A dependency is given here by its alternatives and by the blanks between their
parts; names hold whatever does not end a name, versions whatever does not end a version, and any
alternative may be marked greedy.

A turn of the loop reads an alternative as it is written unless something stands where the parser
does not look for it: a blank before the operator, a version that lengthens the operator, more than
the buffer holds. And the next turn begins at the next name only if the parser has gone past the bar
and no further.
-/

namespace Openmoko.Opkg

def DEPEND_BUFFER : ℕ := 2048

def versionCopy (src : List Byte) : List Byte :=
  if src.head? = some OPEN then
    ((parseConstraint src.tail).2.dropWhile isspace).takeWhile (· ≠ CLOSE)
  else []

def boundedPossibility (src : List Byte) : Option (Depend (List Byte) × Bool × List Byte) :=
  let pkgName := src.takeWhile (!endsName ·)
  let version := versionCopy ((src.dropWhile (!endsName ·)).dropWhile isspace)
  if pkgName.length < DEPEND_BUFFER ∧ version.length < DEPEND_BUFFER then
    some (parsePossibility src)
  else none

def boundedPossibilities : ℕ → List Byte → Option (List (Depend (List Byte)) × Bool)
  | 0, _ => some ([], false)
  | n + 1, src => do
    let (possibility, greedy, rest) ← boundedPossibility src
    let (possibilities, greedyRest) ← boundedPossibilities n rest
    return (possibility :: possibilities, greedy || greedyRest)

def boundedDepends (dependStr : List Byte) : Option (CompoundDepend (List Byte)) := do
  let (possibilities, greedy) ← boundedPossibilities (dependStr.count PIPE + 1) dependStr
  return { type := if greedy then .greedyDepend else .depend, possibilities := possibilities }

variable {src rest left : List Byte} {greedy marked : Bool} {b : Byte}

theorem boundedPossibility_eq_some
    {turn : Depend (List Byte) × Bool × List Byte} (hturn : boundedPossibility src = some turn) :
    parsePossibility src = turn := by
  rw [boundedPossibility] at hturn
  exact (Option.ite_none_right_eq_some.mp hturn).2 |> Option.some.inj

theorem boundedPossibilities_succ_eq_some {n : ℕ} {possibilities : List (Depend (List Byte))} :
    boundedPossibilities (n + 1) src = some (possibilities, greedy) ↔
      ∃ possibility marked rest others othersGreedy,
        boundedPossibility src = some (possibility, marked, rest) ∧
        boundedPossibilities n rest = some (others, othersGreedy) ∧
        possibilities = possibility :: others ∧ greedy = (marked || othersGreedy) := by
  simp only [boundedPossibilities, Option.bind_eq_bind, Option.bind_eq_some_iff, Prod.exists,
    Option.pure_def, Option.some.injEq, Prod.mk.injEq]
  constructor
  · rintro ⟨possibility, marked, rest, hturn, others, othersGreedy, hothers, rfl, rfl⟩
    exact ⟨possibility, marked, rest, others, othersGreedy, hturn, hothers, rfl, rfl⟩
  · rintro ⟨possibility, marked, rest, others, othersGreedy, hturn, hothers, rfl, rfl⟩
    exact ⟨possibility, marked, rest, hturn, others, othersGreedy, hothers, rfl, rfl⟩

structure DependName where
  chars : List Byte
  chars_ne : chars ≠ []
  chars_name : ∀ b ∈ chars, endsName b = false
  chars_short : chars.length < DEPEND_BUFFER

inductive DependOperator where
  | earlier | earlierEqual | equal | laterEqual | later | lessThan | greaterThan
  deriving DecidableEq, Repr

namespace DependOperator

def text : DependOperator → List Byte
  | earlier => ascii "<<"
  | earlierEqual => ascii "<="
  | equal => ascii "="
  | laterEqual => ascii ">="
  | later => ascii ">>"
  | lessThan => ascii "<"
  | greaterThan => ascii ">"

def constraint : DependOperator → VersionConstraint
  | earlier => .earlier
  | earlierEqual => .earlierEqual
  | equal => .equal
  | laterEqual => .laterEqual
  | later => .later
  | lessThan => .earlierEqual
  | greaterThan => .laterEqual

def lengthenedBy : DependOperator → List Byte
  | lessThan => ascii "<="
  | greaterThan => ascii ">="
  | _ => []

end DependOperator

structure DependVersion where
  lead : Blanks
  inner : Blanks
  op : DependOperator
  gap : Blanks
  chars : List Byte
  chars_ne : chars ≠ []
  chars_open : CLOSE ∉ chars
  chars_head : ∀ b ∈ chars.head?, isspace b = false
  chars_last : ∀ b ∈ chars.getLast?, isspace b = false
  chars_short : chars.length < DEPEND_BUFFER
  trailing : Blanks

structure DependAlternative where
  name : DependName
  version : Option DependVersion
  star : Option Blanks

/-- The alternatives behind the first one have a bar before them, with blanks on both sides. -/
structure DependText where
  first : DependAlternative
  others : List (Blanks × Blanks × DependAlternative)
  final : Blanks

namespace DependVersion

variable (v : DependVersion)

def inside : List Byte := v.op.text ++ (v.gap.1 ++ (v.chars ++ v.trailing.1))

def text : List Byte := v.lead.1 ++ OPEN :: (v.inner.1 ++ (v.inside ++ [CLOSE]))

/-- No blank before the operator, nothing behind it that makes another one of it, and a version that
fits the buffer with the blanks behind it. -/
structure Readable : Prop where
  inner : v.inner.1 = []
  op : ∀ b ∈ (v.gap.1 ++ v.chars).head?, b ∉ v.op.lengthenedBy
  short : v.chars.length + v.trailing.1.length < DEPEND_BUFFER

end DependVersion

namespace DependAlternative

variable (a : DependAlternative)

def body : List Byte := a.name.chars ++ (a.version.map DependVersion.text).getD []

def starText : List Byte := (a.star.map fun blanks => blanks.1 ++ [STAR]).getD []

def text : List Byte := a.body ++ a.starText

def value : Depend (List Byte) where
  constraint := (a.version.map (·.op.constraint)).getD .none
  version := (a.version.map (·.chars)).getD []
  pkg := a.name.chars

def Readable : Prop := ∀ v ∈ a.version, v.Readable

end DependAlternative

namespace DependText

def followText (final : Blanks) : List (Blanks × Blanks × DependAlternative) → List Byte
  | [] => final.1
  | (before, after, a) :: others =>
    before.1 ++ PIPE :: (after.1 ++ (a.text ++ followText final others))

variable (t : DependText)

def alternatives : List DependAlternative := t.first :: t.others.map (·.2.2)

def text : List Byte := t.first.text ++ followText t.final t.others

def value : CompoundDepend (List Byte) where
  type := if t.alternatives.any (·.star.isSome) then .greedyDepend else .depend
  possibilities := t.alternatives.map DependAlternative.value

/-- Every version can be read and has no bar in it, only the last alternative is marked, and no name
but the first one begins with a closing parenthesis. -/
structure Readable : Prop where
  versions : ∀ a ∈ t.alternatives, a.Readable
  bars : ∀ a ∈ t.alternatives, ∀ v ∈ a.version, PIPE ∉ v.chars
  stars : ∀ a ∈ t.alternatives.dropLast, a.star = none
  names : ∀ a ∈ t.alternatives.tail, a.name.chars.head? ≠ some CLOSE

end DependText

/-! ### One version -/

theorem parseConstraint_operator (op : DependOperator)
    (hrest : ∀ b ∈ rest.head?, b ∉ op.lengthenedBy) :
    parseConstraint (op.text ++ rest) = (op.constraint, rest) := by
  cases rest with
  | nil => cases op <;> rfl
  | cons b rest =>
    have hb := hrest b rfl
    cases op with
    | lessThan =>
      have hlt : b ≠ 60 := fun heq => hb (by rw [heq]; decide)
      have heq : b ≠ 61 := fun heq => hb (by rw [heq]; decide)
      simp [DependOperator.text, DependOperator.constraint, parseConstraint, hasPrefix, ascii,
        List.isPrefixOf, hlt.symm, heq.symm]
    | greaterThan =>
      have hgt : b ≠ 62 := fun heq => hb (by rw [heq]; decide)
      have heq : b ≠ 61 := fun heq => hb (by rw [heq]; decide)
      simp [DependOperator.text, DependOperator.constraint, parseConstraint, hasPrefix, ascii,
        List.isPrefixOf, hgt.symm, heq.symm]
    | _ => rfl

theorem parseConstraint_lengthened (op : DependOperator) (hb : b ∈ op.lengthenedBy)
    (rest : List Byte) :
    (parseConstraint (op.text ++ b :: rest)).1 ≠ op.constraint ∨
      (parseConstraint (op.text ++ b :: rest)).2 = rest := by
  cases op with
  | lessThan =>
    obtain rfl | rfl : b = 60 ∨ b = 61 := by simpa [DependOperator.lengthenedBy, ascii] using hb
    · exact .inl (by simp [DependOperator.text, DependOperator.constraint, parseConstraint,
        hasPrefix, ascii, List.isPrefixOf])
    · exact .inr rfl
  | greaterThan =>
    obtain rfl | rfl : b = 62 ∨ b = 61 := by simpa [DependOperator.lengthenedBy, ascii] using hb
    · exact .inl (by simp [DependOperator.text, DependOperator.constraint, parseConstraint,
        hasPrefix, ascii, List.isPrefixOf])
    · exact .inr rfl
  | _ => cases hb

theorem parseConstraint_blank (hb : isspace b = true) (rest : List Byte) :
    parseConstraint (b :: rest) = (.none, b :: rest) := by
  have hne : ∀ c ∈ ascii "<=>", b ≠ c := by
    rintro c hc rfl
    have hnoSpace : ∀ c ∈ ascii "<=>", isspace c = false := noSpace_of_all (by decide)
    rw [hnoSpace b hc] at hb
    cases hb
  have hlt := hne 60 (by decide)
  have heq := hne 61 (by decide)
  have hgt := hne 62 (by decide)
  simp [parseConstraint, hasPrefix, ascii, List.isPrefixOf, hlt.symm, heq.symm, hgt.symm]

theorem split_close {m : List Byte} (hm : CLOSE ∉ m) (rest : List Byte) :
    (m ++ CLOSE :: rest).takeWhile (· ≠ CLOSE) = m ∧
      (m ++ CLOSE :: rest).dropWhile (· ≠ CLOSE) = CLOSE :: rest := by
  have hall : ∀ b ∈ m, decide (b ≠ CLOSE) = true := by
    intro b hb
    apply decide_eq_true
    rintro rfl
    exact hm hb
  rw [List.takeWhile_append_of_pos hall, List.dropWhile_append_of_pos hall]
  simp

theorem dropWhile_isspace_close (m rest : List Byte) :
    (m ++ CLOSE :: rest).dropWhile isspace = m.dropWhile isspace ++ CLOSE :: rest := by
  rw [List.dropWhile_append]
  split
  next hnil =>
    rw [List.isEmpty_iff.mp hnil]
    rfl
  next => rfl

theorem read_parenthesis {x m : List Byte} {constraint : VersionConstraint}
    (hconstraint : parseConstraint (x ++ CLOSE :: rest) = (constraint, m ++ CLOSE :: rest))
    (hm : CLOSE ∉ m) :
    versionCopy (OPEN :: (x ++ CLOSE :: rest)) = m.dropWhile isspace ∧
      parseVersionInfo (OPEN :: (x ++ CLOSE :: rest)) =
        (constraint, trimAlloc (m.dropWhile isspace), CLOSE :: rest) := by
  have hdrop : CLOSE ∉ m.dropWhile isspace :=
    fun hmem => hm ((List.dropWhile_sublist _).subset hmem)
  obtain ⟨htake, hleft⟩ := split_close hdrop rest
  rw [versionCopy, parseVersionInfo]
  simp only [List.head?_cons, if_true, List.tail_cons, hconstraint, dropWhile_isspace_close, htake,
    hleft]
  exact ⟨trivial, trivial⟩

namespace DependVersion

variable (v : DependVersion)

theorem text_append (rest : List Byte) :
    (v.text ++ rest).dropWhile isspace = OPEN :: ((v.inner.1 ++ v.inside) ++ CLOSE :: rest) := by
  rw [text, List.append_assoc, dropWhile_blanks]
  simp only [List.cons_append, List.append_assoc, List.nil_append]
  rfl

theorem close_notMem {blanks : Blanks} : CLOSE ∉ blanks.1 :=
  fun hmem => absurd (blanks.2 CLOSE hmem) (by decide)

theorem head?_gap_append (rest : List Byte) :
    (v.gap.1 ++ (v.chars ++ rest)).head? = (v.gap.1 ++ v.chars).head? := by
  rw [← List.append_assoc, List.head?_append_of_ne_nil]
  exact List.append_ne_nil_of_right_ne_nil _ v.chars_ne

theorem trimAlloc_trailing : trimAlloc (v.chars ++ v.trailing.1) = v.chars := by
  have hhead : ∀ b ∈ (v.chars ++ v.trailing.1).head?, isspace b = false := by
    rw [List.head?_append_of_ne_nil _ v.chars_ne]
    exact v.chars_head
  rw [trimAlloc, dropWhile_eq_self hhead, List.reverse_append,
    List.dropWhile_append_of_pos fun b hb => v.trailing.2 b (List.mem_reverse.mp hb),
    dropWhile_eq_self, List.reverse_reverse]
  rw [List.head?_reverse]
  exact v.chars_last

theorem read_text (hinner : v.inner.1 = [])
    (hop : ∀ b ∈ (v.gap.1 ++ v.chars).head?, b ∉ v.op.lengthenedBy) (rest : List Byte) :
    versionCopy ((v.text ++ rest).dropWhile isspace) = v.chars ++ v.trailing.1 ∧
      parseVersionInfo ((v.text ++ rest).dropWhile isspace) =
        (v.op.constraint, v.chars, CLOSE :: rest) := by
  have hconstraint : parseConstraint (v.inside ++ CLOSE :: rest) =
      (v.op.constraint, (v.gap.1 ++ (v.chars ++ v.trailing.1)) ++ CLOSE :: rest) := by
    rw [inside, List.append_assoc]
    refine parseConstraint_operator v.op ?_
    rw [List.append_assoc, List.append_assoc, head?_gap_append]
    exact hop
  have hm : CLOSE ∉ v.gap.1 ++ (v.chars ++ v.trailing.1) := by
    simp only [List.mem_append, not_or]
    exact ⟨close_notMem, v.chars_open, close_notMem⟩
  have hcopy : (v.gap.1 ++ (v.chars ++ v.trailing.1)).dropWhile isspace =
      v.chars ++ v.trailing.1 := by
    rw [dropWhile_blanks, dropWhile_eq_self]
    rw [List.head?_append_of_ne_nil _ v.chars_ne]
    exact v.chars_head
  obtain ⟨hversion, hinfo⟩ := read_parenthesis hconstraint hm
  rw [text_append, hinner, List.nil_append, hversion, hinfo, hcopy, trimAlloc_trailing]
  exact ⟨rfl, rfl⟩

theorem constraint_ne_none (op : DependOperator) : op.constraint ≠ .none := by
  cases op <;> decide

theorem noSpace_of_lengthenedBy {op : DependOperator} (hb : b ∈ op.lengthenedBy) :
    isspace b = false := by
  have hall : ∀ op : DependOperator, ∀ b ∈ op.lengthenedBy, isspace b = false := by
    intro op
    cases op <;> exact noSpace_of_all (by decide)
  exact hall op b hb

theorem trimAlloc_tail_ne (hb : isspace b = false) {chars trailing : List Byte}
    (htrailing : ∀ b ∈ trailing, isspace b = true) :
    trimAlloc ((chars ++ trailing).dropWhile isspace) ≠ b :: chars := by
  intro heq
  have hsublist : (b :: chars).Sublist (chars ++ trailing) := by
    rw [← heq]
    exact (trimAlloc_sublist _).trans (List.dropWhile_sublist _)
  have hle := hsublist.countP_le (p := fun b => !isspace b)
  have hzero : trailing.countP (fun b => !isspace b) = 0 := by
    rw [List.countP_eq_zero]
    intro c hc
    simp [htrailing c hc]
  rw [List.countP_append, hzero, List.countP_cons_of_pos (by simp [hb])] at hle
  omega

theorem readable_of_read
    (hshort : (versionCopy ((v.text ++ rest).dropWhile isspace)).length < DEPEND_BUFFER)
    (hconstraint : (parseVersionInfo ((v.text ++ rest).dropWhile isspace)).1 = v.op.constraint)
    (hversion : (parseVersionInfo ((v.text ++ rest).dropWhile isspace)).2.1 = v.chars) :
    v.Readable := by
  have hinner : v.inner.1 = [] := by
    by_contra hne
    obtain ⟨b, inner, hinner⟩ := List.exists_cons_of_ne_nil hne
    have hb : isspace b = true := v.inner.2 b (by rw [hinner]; exact List.mem_cons_self ..)
    rw [text_append, parseVersionInfo, List.head?_cons, if_pos rfl, List.tail_cons, hinner,
      List.cons_append, List.cons_append, parseConstraint_blank hb] at hconstraint
    exact constraint_ne_none v.op hconstraint.symm
  have hop : ∀ b ∈ (v.gap.1 ++ v.chars).head?, b ∉ v.op.lengthenedBy := by
    intro b hb hlonger
    have hgap : v.gap.1 = [] := by
      by_contra hne
      obtain ⟨c, gap, hgap⟩ := List.exists_cons_of_ne_nil hne
      rw [hgap] at hb
      obtain rfl : c = b := Option.some.inj hb
      have hblank := v.gap.2 c (by rw [hgap]; exact List.mem_cons_self ..)
      rw [noSpace_of_lengthenedBy hlonger] at hblank
      cases hblank
    rw [hgap, List.nil_append] at hb
    obtain ⟨chars, hchars⟩ := List.head?_eq_some_iff.mp hb
    have hinside : v.inside ++ CLOSE :: rest =
        v.op.text ++ b :: ((chars ++ v.trailing.1) ++ CLOSE :: rest) := by
      rw [inside, hgap, hchars]
      simp
    have hm : CLOSE ∉ chars ++ v.trailing.1 := by
      have hopen := v.chars_open
      rw [hchars, List.mem_cons, not_or] at hopen
      exact fun hmem => (List.mem_append.mp hmem).elim hopen.2 close_notMem
    rw [text_append, hinner, List.nil_append] at hconstraint hversion
    obtain hne | hrest := parseConstraint_lengthened v.op hlonger
      ((chars ++ v.trailing.1) ++ CLOSE :: rest)
    · rw [parseVersionInfo, List.head?_cons, if_pos rfl, List.tail_cons, hinside] at hconstraint
      exact hne hconstraint
    · have hparsed := read_parenthesis (x := v.inside) (Prod.ext rfl ((congrArg
        (fun text => (parseConstraint text).2) hinside).trans hrest)) hm
      rw [hparsed.2, hchars] at hversion
      exact trimAlloc_tail_ne (noSpace_of_lengthenedBy hlonger) v.trailing.2 hversion
  refine ⟨hinner, hop, ?_⟩
  rwa [(v.read_text hinner hop rest).1, List.length_append] at hshort

end DependVersion

/-! ### One alternative -/

def pastAlternative (src : List Byte) : List Byte :=
  src.dropWhile fun c => isspace c || c == CLOSE || c == PIPE

def FollowsAlternative (rest : List Byte) : Prop :=
  ∀ b ∈ (rest.dropWhile isspace).head?, b = PIPE ∨ b = STAR

theorem follows_blanks (blanks : Blanks) (hb : b = PIPE ∨ b = STAR) (rest : List Byte) :
    FollowsAlternative (blanks.1 ++ b :: rest) := by
  have hspace : isspace b = false := by obtain rfl | rfl := hb <;> decide
  rw [FollowsAlternative, dropWhile_blanks, List.dropWhile_cons_of_neg (by simp [hspace])]
  intro c hc
  obtain rfl : b = c := Option.some.inj hc
  exact hb

variable (final : Blanks)

theorem follows_final : FollowsAlternative final.1 := by
  have hnil : final.1.dropWhile isspace = [] := List.dropWhile_eq_nil_iff.mpr final.2
  rw [FollowsAlternative, hnil]
  intro b hb
  cases hb

theorem FollowsAlternative.endsName (hrest : FollowsAlternative rest) :
    ∀ b ∈ rest.head?, endsName b = true := by
  intro b hb
  obtain ⟨rest, rfl⟩ := List.head?_eq_some_iff.mp hb
  by_cases hspace : isspace b = true
  · rw [Opkg.endsName, hspace]
    rfl
  · rw [FollowsAlternative, List.dropWhile_cons_of_neg hspace] at hrest
    obtain rfl | rfl := hrest b rfl <;> rfl

theorem pastAlternative_dropWhile (rest : List Byte) :
    pastAlternative (rest.dropWhile isspace) = pastAlternative rest := by
  induction rest with
  | nil => rfl
  | cons b rest ih =>
    by_cases hspace : isspace b = true
    · rw [List.dropWhile_cons_of_pos hspace, ih, pastAlternative, pastAlternative,
        List.dropWhile_cons_of_pos (by simp [hspace])]
    · rw [List.dropWhile_cons_of_neg hspace]

theorem FollowsAlternative.info (hrest : FollowsAlternative rest) :
    versionCopy (rest.dropWhile isspace) = [] ∧
      parseVersionInfo (rest.dropWhile isspace) = (.none, [], rest.dropWhile isspace) := by
  have hopen : (rest.dropWhile isspace).head? ≠ some OPEN := by
    intro hopen
    obtain heq | heq := hrest OPEN hopen <;> exact absurd heq (by decide)
  rw [versionCopy, parseVersionInfo, if_neg hopen, if_neg hopen]
  exact ⟨rfl, rfl⟩

theorem boundedPossibility_name (name : DependName) (hrest : ∀ b ∈ rest.head?, endsName b = true) :
    boundedPossibility (name.chars ++ rest) =
      if (versionCopy (rest.dropWhile isspace)).length < DEPEND_BUFFER then
        some (parsePossibility (name.chars ++ rest))
      else none := by
  obtain ⟨htake, hdrop⟩ := split_name name.chars_name hrest
  rw [boundedPossibility]
  simp only [htake, hdrop, name.chars_short, true_and]

theorem DependVersion.head_text (v : DependVersion) (rest : List Byte) :
    ∀ b ∈ (v.text ++ rest).head?, endsName b = true := by
  intro b hb
  rw [text, List.append_assoc, List.cons_append] at hb
  cases hlead : v.lead.1 with
  | nil =>
    rw [hlead] at hb
    obtain rfl : OPEN = b := Option.some.inj hb
    rfl
  | cons c lead =>
    rw [hlead] at hb
    obtain rfl : c = b := Option.some.inj hb
    rw [endsName, v.lead.2 c (by rw [hlead]; exact List.mem_cons_self ..)]
    rfl

namespace DependAlternative

variable (a : DependAlternative)

theorem turn_body (hread : a.Readable) (hrest : FollowsAlternative rest) :
    boundedPossibility (a.body ++ rest) =
      some (a.value, decide ((pastAlternative rest).head? = some STAR),
        if (pastAlternative rest).head? = some STAR then (pastAlternative rest).tail
        else pastAlternative rest) := by
  cases hversion : a.version with
  | none =>
    have hbody : a.body ++ rest = a.name.chars ++ rest := by simp [body, hversion]
    obtain ⟨hcopy, hinfo⟩ := hrest.info
    rw [hbody, boundedPossibility_name a.name hrest.endsName, hcopy, if_pos (by decide),
      parsePossibility_name a.name.chars_name hrest.endsName hinfo
        (pastAlternative_dropWhile rest)]
    simp [value, hversion]
  | some v =>
    have hbody : a.body ++ rest = a.name.chars ++ (v.text ++ rest) := by simp [body, hversion]
    have hv : v.Readable := hread v hversion
    obtain ⟨hcopy, hinfo⟩ := v.read_text hv.inner hv.op rest
    have hpast : pastAlternative (CLOSE :: rest) = pastAlternative rest := rfl
    rw [hbody, boundedPossibility_name a.name (v.head_text rest), hcopy, List.length_append,
      if_pos hv.short, parsePossibility_name a.name.chars_name (v.head_text rest) hinfo hpast]
    simp [value, hversion]

theorem readable_of_turn
    (hturn : boundedPossibility (a.body ++ rest) = some (a.value, marked, left)) : a.Readable := by
  intro v hversion
  have hversion : a.version = some v := hversion
  have hbody : a.body ++ rest = a.name.chars ++ (v.text ++ rest) := by simp [body, hversion]
  rw [hbody, boundedPossibility_name a.name (v.head_text rest)] at hturn
  obtain ⟨hshort, hparse⟩ := Option.ite_none_right_eq_some.mp hturn
  rw [parsePossibility_name a.name.chars_name (v.head_text rest) rfl rfl] at hparse
  simp only [value, hversion, Option.map_some, Option.getD_some, Option.some.injEq, Prod.mk.injEq,
    Depend.mk.injEq] at hparse
  exact v.readable_of_read hshort hparse.1.1 hparse.1.2.1

end DependAlternative

open DependText (followText)

theorem follows_follow (others : List (Blanks × Blanks × DependAlternative)) :
    FollowsAlternative (followText final others) := by
  cases others with
  | nil => exact follows_final final
  | cons other others => exact follows_blanks other.1 (.inl rfl) _

namespace DependAlternative

variable (a : DependAlternative)

theorem text_append (rest : List Byte) : a.text ++ rest = a.body ++ (a.starText ++ rest) := by
  rw [text, List.append_assoc]

theorem follows_star (hrest : FollowsAlternative rest) :
    FollowsAlternative (a.starText ++ rest) := by
  rw [starText]
  cases a.star with
  | none => exact hrest
  | some blanks =>
    rw [Option.map_some, Option.getD_some, List.append_assoc]
    exact follows_blanks blanks (.inr rfl) rest

theorem starText_of_none (hstar : a.star = none) : a.starText = [] := by
  rw [starText, hstar]
  rfl

end DependAlternative

theorem pastAlternative_blanks (blanks : Blanks) (rest : List Byte) :
    pastAlternative (blanks.1 ++ rest) = pastAlternative rest := by
  refine List.dropWhile_append_of_pos fun b hb => ?_
  rw [blanks.2 b hb]
  rfl

theorem pastAlternative_star {a : DependAlternative} {blanks : Blanks}
    (hstar : a.star = some blanks) (rest : List Byte) :
    pastAlternative (a.starText ++ rest) = STAR :: rest := by
  rw [DependAlternative.starText, hstar, Option.map_some, Option.getD_some, List.append_assoc,
    pastAlternative_blanks]
  rfl

theorem pastAlternative_bar (before after : Blanks) (rest : List Byte) :
    pastAlternative (before.1 ++ PIPE :: (after.1 ++ rest)) = pastAlternative rest := by
  have hbar : pastAlternative (PIPE :: (after.1 ++ rest)) = pastAlternative (after.1 ++ rest) := rfl
  rw [pastAlternative_blanks, hbar, pastAlternative_blanks]

theorem pastAlternative_final : pastAlternative final.1 = [] := by
  have hfinal := pastAlternative_blanks final []
  rwa [List.append_nil] at hfinal

theorem pastAlternative_name (hb : endsName b = false) (hclose : b ≠ CLOSE)
    (rest : List Byte) : pastAlternative (b :: rest) = b :: rest := by
  refine List.dropWhile_cons_of_neg ?_
  simp only [endsName, Bool.or_eq_false_iff] at hb
  simp [hb.1.1.1, hb.2, hclose]

theorem DependAlternative.head_text (a : DependAlternative) :
    ∃ b rest, a.text = b :: rest ∧ a.name.chars.head? = some b ∧ endsName b = false := by
  obtain ⟨b, chars, hchars⟩ := List.exists_cons_of_ne_nil a.name.chars_ne
  refine ⟨b, chars ++ ((a.version.map DependVersion.text).getD [] ++ a.starText), ?_, ?_, ?_⟩
  · rw [text, body, hchars]
    simp
  · rw [hchars]
    rfl
  · exact a.name.chars_name b (by rw [hchars]; exact List.mem_cons_self ..)

theorem pastAlternative_text {a : DependAlternative} (hname : a.name.chars.head? ≠ some CLOSE)
    (rest : List Byte) :
    pastAlternative (a.text ++ rest) = a.text ++ rest ∧ (a.text ++ rest).head? ≠ some STAR := by
  obtain ⟨b, text, htext, hhead, hb⟩ := a.head_text
  have hclose : b ≠ CLOSE := fun heq => hname (heq ▸ hhead)
  rw [htext, List.cons_append]
  refine ⟨pastAlternative_name hb hclose _, fun hstar => ?_⟩
  obtain rfl : b = STAR := Option.some.inj hstar
  exact absurd hb (by decide)

/-! ### The whole dependency -/

theorem boundedPossibilities_text (a : DependAlternative)
    (others : List (Blanks × Blanks × DependAlternative))
    (hread : ∀ x ∈ a :: others.map (·.2.2), x.Readable)
    (hstars : ∀ x ∈ (a :: others.map (·.2.2)).dropLast, x.star = none)
    (hnames : ∀ x ∈ others.map (·.2.2), x.name.chars.head? ≠ some CLOSE) :
    boundedPossibilities (others.length + 1) (a.text ++ followText final others) =
      some ((a :: others.map (·.2.2)).map DependAlternative.value,
        (a :: others.map (·.2.2)).any (·.star.isSome)) := by
  induction others generalizing a with
  | nil =>
    have hturn := a.turn_body (hread a (List.mem_cons_self ..))
      (a.follows_star (follows_final final))
    rw [a.text_append, boundedPossibilities, followText, hturn]
    cases hstar : a.star with
    | none =>
      rw [a.starText_of_none hstar, List.nil_append, pastAlternative_final]
      simp [boundedPossibilities, hstar, STAR]
    | some blanks =>
      rw [pastAlternative_star hstar]
      simp [boundedPossibilities, hstar]
  | cons other others ih =>
    obtain ⟨before, after, next⟩ := other
    have hstar : a.star = none := hstars a (List.mem_cons_self ..)
    have hturn := a.turn_body (hread a (List.mem_cons_self ..))
      (a.follows_star (follows_follow final ((before, after, next) :: others)))
    obtain ⟨hpast, hhead⟩ := pastAlternative_text (hnames next (List.mem_cons_self ..))
      (followText final others)
    rw [a.starText_of_none hstar, List.nil_append, followText, pastAlternative_bar, hpast,
      if_neg hhead, decide_eq_false hhead] at hturn
    have hrest := ih next (fun x hx => hread x (List.mem_cons_of_mem _ hx))
      (fun x hx => hstars x (List.mem_cons_of_mem _ hx))
      (fun x hx => hnames x (List.mem_cons_of_mem _ hx))
    rw [a.text_append, a.starText_of_none hstar, List.nil_append, List.length_cons,
      boundedPossibilities, followText, hturn]
    simp only [Option.bind_eq_bind, Option.bind_some, hrest]
    simp [hstar]

theorem FollowsAlternative.head_ne_close (hrest : FollowsAlternative rest) :
    rest.head? ≠ some CLOSE :=
  fun hclose => absurd (hrest.endsName CLOSE hclose) (by decide)

theorem pastAlternative_name_append (name : DependName) (rest : List Byte) :
    pastAlternative (name.chars ++ rest) = pastAlternative rest ∨
      ∃ b ∈ name.chars, (pastAlternative (name.chars ++ rest)).head? = some b := by
  unfold pastAlternative
  rw [List.dropWhile_append]
  split
  next hall => exact .inl rfl
  next hstop =>
    obtain ⟨b, chars, hchars⟩ := List.exists_cons_of_ne_nil fun hnil =>
      hstop (List.isEmpty_iff.mpr hnil)
    refine .inr ⟨b, ?_, by rw [hchars]; rfl⟩
    exact (List.dropWhile_sublist _).subset (by rw [hchars]; exact List.mem_cons_self ..)

theorem star_of_pastAlternative {a : DependAlternative}
    (hpast : pastAlternative (a.text ++ rest) = STAR :: left) :
    (∃ blanks, a.star = some blanks ∧ left = rest) ∨
      a.star = none ∧ pastAlternative rest = STAR :: left := by
  rw [a.text_append, DependAlternative.body, List.append_assoc] at hpast
  obtain hname | ⟨b, hb, hhead⟩ := pastAlternative_name_append a.name
    ((a.version.map DependVersion.text).getD [] ++ (a.starText ++ rest))
  · rw [hname] at hpast
    cases hversion : a.version with
    | some v =>
      rw [hversion, Option.map_some, Option.getD_some, DependVersion.text, List.append_assoc,
        pastAlternative_blanks] at hpast
      exact absurd (List.cons.inj hpast).1 (by decide)
    | none =>
      rw [hversion, Option.map_none, Option.getD_none, List.nil_append] at hpast
      cases hstar : a.star with
      | none =>
        rw [a.starText_of_none hstar, List.nil_append] at hpast
        exact .inr ⟨rfl, hpast⟩
      | some blanks =>
        rw [pastAlternative_star hstar] at hpast
        exact .inl ⟨blanks, rfl, (List.cons.inj hpast).2.symm⟩
  · rw [hpast] at hhead
    obtain rfl : STAR = b := Option.some.inj hhead
    exact absurd (a.name.chars_name STAR hb) (by decide)

theorem follows_of_pastAlternative {final : Blanks} {a : DependAlternative}
    {others : List (Blanks × Blanks × DependAlternative)}
    (hpast : pastAlternative (a.text ++ followText final others) = STAR :: left) :
    FollowsAlternative left := by
  induction others generalizing a with
  | nil =>
    obtain ⟨-, -, rfl⟩ | ⟨-, hpast⟩ := star_of_pastAlternative hpast
    · exact follows_follow final []
    · rw [followText, pastAlternative_final] at hpast
      cases hpast
  | cons other others ih =>
    obtain ⟨-, -, rfl⟩ | ⟨-, hpast⟩ := star_of_pastAlternative hpast
    · exact follows_follow final (other :: others)
    · rw [followText, pastAlternative_bar] at hpast
      exact ih hpast

theorem pkg_of_boundedPossibility {possibility : Depend (List Byte)}
    (hturn : boundedPossibility src = some (possibility, marked, rest)) :
    possibility.pkg = src.takeWhile (!endsName ·) := by
  have hparse := boundedPossibility_eq_some hturn
  have hname : ∀ b ∈ src.takeWhile (!endsName ·), endsName b = false := by
    intro b hb
    simpa using List.mem_takeWhile_imp hb
  have hpkg : (parsePossibility src).1.pkg = trimAlloc (src.takeWhile (!endsName ·)) := by
    rw [parsePossibility]
    dsimp only
    split <;> rfl
  rw [hparse, trimAlloc_of_not_endsName hname] at hpkg
  exact hpkg

theorem head_of_boundedPossibility {a : DependAlternative}
    (hturn : boundedPossibility src = some (a.value, marked, rest)) :
    src.head? = a.name.chars.head? := by
  have hpkg : a.name.chars = src.takeWhile (!endsName ·) := pkg_of_boundedPossibility hturn
  have hprefix : a.name.chars <+: src := by
    rw [hpkg]
    exact List.takeWhile_prefix _
  obtain ⟨left, rfl⟩ := hprefix
  exact List.head?_append_of_ne_nil _ a.name.chars_ne

theorem readable_of_boundedPossibilities {final : Blanks} {a : DependAlternative}
    {others : List (Blanks × Blanks × DependAlternative)}
    (hparse : boundedPossibilities (others.length + 1) (a.text ++ followText final others) =
      some ((a :: others.map (·.2.2)).map DependAlternative.value, greedy)) :
    (∀ x ∈ a :: others.map (·.2.2), x.Readable) ∧
      (∀ x ∈ (a :: others.map (·.2.2)).dropLast, x.star = none) ∧
      ∀ x ∈ others.map (·.2.2), x.name.chars.head? ≠ some CLOSE := by
  induction others generalizing a greedy with
  | nil =>
    obtain ⟨possibility, marked, rest, parsed, parsedGreedy, hturn, -, heq, -⟩ :=
      boundedPossibilities_succ_eq_some.mp hparse
    obtain ⟨rfl, -⟩ := List.cons.inj heq
    rw [a.text_append] at hturn
    refine ⟨List.forall_mem_singleton.mpr (a.readable_of_turn hturn), ?_, List.forall_mem_nil _⟩
    exact List.forall_mem_nil _
  | cons other others ih =>
    obtain ⟨before, after, next⟩ := other
    obtain ⟨possibility, marked, rest, parsed, parsedGreedy, hturn, hparse, heq, -⟩ :=
      boundedPossibilities_succ_eq_some.mp hparse
    obtain ⟨rfl, rfl⟩ := List.cons.inj heq
    rw [a.text_append] at hturn
    have hread := a.readable_of_turn hturn
    rw [a.turn_body hread (a.follows_star (follows_follow final _))] at hturn
    have hrest := (Prod.mk.inj (Prod.mk.inj (Option.some.inj hturn)).2).2
    have hhead : rest.head? = next.name.chars.head? := by
      obtain ⟨possibility, marked, left, more, moreGreedy, hnext, -, heq, -⟩ :=
        boundedPossibilities_succ_eq_some.mp hparse
      obtain ⟨rfl, -⟩ := List.cons.inj heq
      exact head_of_boundedPossibility hnext
    have hstar : a.star = none := by
      -- behind a star the next turn finds no name
      cases hstar : a.star with
      | none => rfl
      | some blanks =>
        rw [pastAlternative_star hstar, List.head?_cons, if_pos rfl, List.tail_cons] at hrest
        obtain ⟨b, text, -, hb, hname⟩ := next.head_text
        have hends := (follows_follow final ((before, after, next) :: others)).endsName b
          (by rw [hrest, hhead, hb]; rfl)
        rw [hname] at hends
        cases hends
    rw [a.starText_of_none hstar, List.nil_append, followText, pastAlternative_bar] at hrest
    have hname : next.name.chars.head? ≠ some CLOSE := by
      intro hclose
      rw [hclose] at hhead
      split at hrest
      next hstop =>
        obtain ⟨left, hpast⟩ := List.head?_eq_some_iff.mp hstop
        rw [hpast, List.tail_cons] at hrest
        exact (follows_of_pastAlternative hpast).head_ne_close (hrest ▸ hhead)
      next =>
        rw [← hrest] at hhead
        have hnot := List.head?_dropWhile_not (fun c => isspace c || c == CLOSE || c == PIPE)
          (next.text ++ followText final others)
        rw [pastAlternative] at hhead
        rw [hhead] at hnot
        exact absurd hnot (by decide)
    obtain ⟨hpast, hstop⟩ := pastAlternative_text hname (followText final others)
    rw [hpast, if_neg hstop] at hrest
    rw [← hrest] at hparse
    obtain ⟨hreads, hstars, hnames⟩ := ih hparse
    exact ⟨List.forall_mem_cons.mpr ⟨hread, hreads⟩, List.forall_mem_cons.mpr ⟨hstar, hstars⟩,
      List.forall_mem_cons.mpr ⟨hname, hnames⟩⟩

/-! ### The number of alternatives -/

theorem length_boundedPossibilities {n : ℕ} {possibilities : List (Depend (List Byte))}
    (hparse : boundedPossibilities n src = some (possibilities, greedy)) :
    possibilities.length = n := by
  induction n generalizing src possibilities greedy with
  | zero =>
    cases hparse
    rfl
  | succ n ih =>
    obtain ⟨possibility, marked, rest, others, othersGreedy, -, hothers, rfl, -⟩ :=
      boundedPossibilities_succ_eq_some.mp hparse
    rw [List.length_cons, ih hothers]

def DependAlternative.bars (a : DependAlternative) : ℕ :=
  (a.version.map fun v => v.chars.count PIPE).getD 0

theorem count_blanks (blanks : Blanks) : blanks.1.count PIPE = 0 :=
  List.count_eq_zero.mpr fun hmem => absurd (blanks.2 PIPE hmem) (by decide)

theorem DependOperator.count_text (op : DependOperator) : op.text.count PIPE = 0 := by
  cases op <;> rfl

theorem DependAlternative.count_text (a : DependAlternative) : a.text.count PIPE = a.bars := by
  have hname : a.name.chars.count PIPE = 0 :=
    List.count_eq_zero.mpr fun hmem => absurd (a.name.chars_name PIPE hmem) (by decide)
  have hstar : a.starText.count PIPE = 0 := by
    rw [starText]
    cases a.star with
    | none => rfl
    | some blanks =>
      rw [Option.map_some, Option.getD_some, List.count_append, count_blanks]
      rfl
  rw [text, body, bars, List.count_append, List.count_append, hname, hstar]
  cases a.version with
  | none => rfl
  | some v =>
    have hopen : (OPEN == PIPE) = false := by decide
    have hclose : (CLOSE == PIPE) = false := by decide
    simp [DependVersion.text, DependVersion.inside, List.count_cons, count_blanks,
      v.op.count_text, hopen, hclose]

theorem count_followText (others : List (Blanks × Blanks × DependAlternative)) :
    (followText final others).count PIPE =
      others.length + ((others.map (·.2.2)).map DependAlternative.bars).sum := by
  induction others with
  | nil => exact count_blanks final
  | cons other others ih =>
    obtain ⟨before, after, a⟩ := other
    rw [followText, List.count_append, List.count_cons_self, List.count_append, List.count_append,
      ih, count_blanks, count_blanks, a.count_text]
    simp only [List.length_cons, List.map_cons, List.sum_cons]
    omega

namespace DependText

variable (t : DependText)

theorem count_text :
    t.text.count PIPE = t.others.length + (t.alternatives.map DependAlternative.bars).sum := by
  rw [text, List.count_append, count_followText, DependAlternative.count_text, alternatives,
    List.map_cons, List.sum_cons]
  omega

theorem length_value : t.value.possibilities.length = t.others.length + 1 := by
  rw [value, List.length_map, alternatives, List.length_cons, List.length_map]

theorem bars_eq_zero_iff :
    (t.alternatives.map DependAlternative.bars).sum = 0 ↔
      ∀ a ∈ t.alternatives, ∀ v ∈ a.version, PIPE ∉ v.chars := by
  rw [List.sum_eq_zero_iff_forall_eq_nat, List.forall_mem_map]
  refine forall₂_congr fun a _ => ?_
  rw [DependAlternative.bars]
  cases a.version with
  | none => exact iff_of_true rfl fun v hv => by cases hv
  | some v => simp [List.count_eq_zero]

theorem readable_of_boundedDepends (hparse : boundedDepends t.text = some t.value) :
    t.Readable := by
  obtain ⟨⟨possibilities, greedy⟩, hparse, hdepends⟩ := Option.bind_eq_some_iff.mp hparse
  have hvalue : possibilities = t.alternatives.map DependAlternative.value :=
    congrArg CompoundDepend.possibilities (Option.some.inj hdepends)
  have hlength := length_boundedPossibilities hparse
  rw [hvalue] at hlength
  have hcount : t.text.count PIPE = t.others.length := by
    have hothers : (t.alternatives.map DependAlternative.value).length = t.others.length + 1 :=
      t.length_value
    omega
  have hbars := t.count_text
  rw [hcount, hvalue] at hparse
  obtain ⟨hread, hstars, hnames⟩ := readable_of_boundedPossibilities hparse
  exact ⟨hread, t.bars_eq_zero_iff.mp (by omega), hstars, hnames⟩

/-- **A dependency is read as it is written.** The parser keeps to its buffer and builds the names,
the constraints, the versions and the mark that are written, exactly when the dependency can be
read. -/
theorem boundedDepends_text_iff : boundedDepends t.text = some t.value ↔ t.Readable := by
  refine ⟨t.readable_of_boundedDepends, fun hread => ?_⟩
  have hcount : t.text.count PIPE = t.others.length := by
    rw [count_text, t.bars_eq_zero_iff.mpr hread.bars, Nat.add_zero]
  have hparse := boundedPossibilities_text t.final t.first t.others hread.versions hread.stars
    hread.names
  rw [boundedDepends, hcount, text, hparse]
  rfl

end DependText

def spacedVersion : DependVersion where
  lead := ⟨ascii " ", List.forall_mem_singleton.mpr (by decide)⟩
  inner := ⟨[], List.forall_mem_nil _⟩
  op := .laterEqual
  gap := ⟨ascii " ", List.forall_mem_singleton.mpr (by decide)⟩
  chars := ascii "1"
  chars_ne := by decide
  chars_open := by decide
  chars_head := by
    rintro b ⟨⟩
    rfl
  chars_last := by
    rintro b ⟨⟩
    rfl
  chars_short := by decide
  trailing := ⟨List.replicate 2047 32, fun b hb => by rw [List.eq_of_mem_replicate hb]; rfl⟩

def spacedText : DependText where
  first :=
    { name := ⟨ascii "a", by decide, List.forall_mem_singleton.mpr (by decide), by decide⟩
      version := some spacedVersion
      star := none }
  others := []
  final := ⟨[], List.forall_mem_nil _⟩

/-- The blanks overrun the buffer. -/
theorem spacedText_overrun : ¬ ∀ t : DependText, boundedDepends t.text = some t.value := by
  intro hparse
  have hread := spacedText.readable_of_boundedDepends (hparse spacedText)
  have hversion : spacedVersion.Readable :=
    hread.versions spacedText.first (List.mem_cons_self ..) spacedVersion rfl
  have htrailing : spacedVersion.trailing.1.length = 2047 := List.length_replicate
  have hchars : spacedVersion.chars.length = 1 := rfl
  have hshort := hversion.short
  rw [hchars, htrailing] at hshort
  exact absurd hshort (by decide)

end Openmoko.Opkg
