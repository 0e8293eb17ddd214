import Openmoko.Boom.Match
import Mathlib.Data.List.Forall2
import Mathlib.Data.List.Nodup
import Mathlib.Data.List.Perm.Basic
import Mathlib.Data.Option.Basic

/-!
# The order of the hashes

Perl lists the keys of a hash in any order. Two runs over the same rules differ by the order of each
rule's conditions and assignments, of the values recorded, and of the substrings named.
-/

namespace Openmoko.Boom

structure Engine.Reorders (engine engine' : Engine) : Prop where
  first : ∀ m1 s, Option.Rel List.Perm (engine.first m1 s) (engine'.first m1 s)
  second : ∀ m1 m2 s, Option.Rel List.Perm (engine.second m1 m2 s) (engine'.second m1 m2 s)

structure RuleEntry.Reorders (rule rule' : RuleEntry) : Prop where
  conditions : rule.conditions.Perm rule'.conditions
  assignments : rule.assignments.Perm rule'.assignments
  halt : rule.halt = rule'.halt

def OrderFree (engine : Engine) (fuel : Nat) (field : Table Word) (rules : List RuleEntry) : Prop :=
  ∀ engine' rules', engine.Reorders engine' → List.Forall₂ RuleEntry.Reorders rules rules' →
    applyRules engine' fuel field rules' = applyRules engine fuel field rules

/-! ### Conditions that do not disturb each other -/

def written (field s : Word) (named : List (Word × Word)) : Table Word :=
  setAll (Function.update (fun _ => none) field (some s)) named

/-- The string that the first expression has matched, and the values found in it. -/
def recorded (engine : Engine) (found : Table Word) (pattern : Pattern) :
    List Word → Option (Word × List Conversion)
  | [] => none
  | candidate :: candidates =>
    match found candidate with
    | none => recorded engine found pattern candidates
    | some s =>
      match engine.first (pattern.getD 1 []) s with
      | none => recorded engine found pattern candidates
      | some cvn => some (s, cvn)

def piece (s : Word) (off : Int) (c : Conversion) : Word :=
  (s.take (c.stop + off).toNat).drop (c.start + off).toNat

def KeepsLength (s : Word) (off : Int) (c : Conversion) : Prop :=
  ∀ v, convert c.unit (piece s off c) = some v → v.length = c.stop - c.start

/-- The values lie in the string, apart from each other, and each one that has another on its left
is as long after the conversion as before it. -/
structure Placed (s : Word) (off : Int) (cvn : List Conversion) : Prop where
  inside : ∀ c ∈ cvn, 0 ≤ c.start + off ∧ c.start ≤ c.stop ∧ c.stop + off ≤ s.length
  apart : cvn.Pairwise fun c d =>
    c.stop ≤ d.start ∧ KeepsLength s off d ∨ d.stop ≤ c.start ∧ KeepsLength s off c

/-- The values from left to right, each of them converted where it stands. -/
def convertInPlace (s : Word) (start : Nat) : List Conversion → Option Word
  | [] => some (s.drop start)
  | c :: cvn => do
    let v ← convert c.unit (piece s 0 c)
    let rest ← convertInPlace s c.stop cvn
    return (s.take c.start).drop start ++ v ++ rest

section Conditions

variable (engine : Engine) (field : Table Word)

def outcome (c : Word × Pattern) : Outcome := matchAny engine field c.2 (candidatesOf c.1)

/-- The fields that matches of `seen`, the last one first, make of `field`. -/
inductive Reached : List (Word × Pattern) → Table Word → Prop
  | start : Reached [] field
  | hit {seen : List (Word × Pattern)} {found : Table Word} {c : Word × Pattern} {s : Word}
      {named : List (Word × Word)} (h : Reached seen found)
      (hc : outcome engine found c = .hit s named) :
      Reached (c :: seen) (setAll (Function.update found c.1 (some s)) named)

structure Agree (c c' : Word × Pattern) : Prop where
  misses : outcome engine field c = .miss → outcome engine field c' ≠ .dies
  writes : ∀ s named s' named', outcome engine field c = .hit s named →
    outcome engine field c' = .hit s' named' → ∀ name value value',
      written c.1 s named name = some value → written c'.1 s' named' name = some value' →
        value = value'

/-- What a condition finds is what it finds by itself, whatever other conditions have written, and no
two conditions differ in what they set or in how they fail. -/
structure Steady (conditions : List (Word × Pattern)) : Prop where
  same : ∀ seen found c, Reached engine field seen found → (c :: seen).Subperm conditions →
    outcome engine found c = outcome engine field c
  agree : conditions.Pairwise fun c c' => Agree engine field c c' ∧ Agree engine field c' c

/-- Some condition fails whatever the others have written, and none fails in the other way. -/
def FailsAnyway (conditions : List (Word × Pattern)) : Prop :=
  ∃ failure, (failure = .miss ∨ failure = .dies) ∧
    (∃ c ∈ conditions, ∀ seen found, Reached engine field seen found →
      (c :: seen).Subperm conditions → outcome engine found c = failure) ∧
    ∀ seen found c, Reached engine field seen found → (c :: seen).Subperm conditions →
      outcome engine found c = failure ∨ ∃ s named, outcome engine found c = .hit s named

structure Settled (rule : RuleEntry) : Prop where
  placed : ∀ seen found c, Reached engine field seen found →
    (c :: seen).Subperm rule.conditions → ∀ s cvn,
      recorded engine found c.2 (candidatesOf c.1) = some (s, cvn) → Placed s 0 cvn
  settled : Steady engine field rule.conditions ∨ FailsAnyway engine field rule.conditions

end Conditions

/-- The fields a rule is applied to in the run, with the rule. -/
def Applied (engine : Engine) (fuel : Nat) (field : Table Word) (rules : List RuleEntry)
    (field' : Table Word) (rule : RuleEntry) : Prop :=
  ∃ before after, rules = before ++ rule :: after ∧
    applyRules engine fuel field before = some (field', false)

def RunSettled (engine : Engine) (fuel : Nat) (field : Table Word) (rules : List RuleEntry) :
    Prop :=
  ∀ field' rule, Applied engine fuel field rules field' rule → Settled engine field' rule

/-- Whatever the order in which a rule's conditions are looked at and its values recorded, every
value is converted at its own place. -/
def InPlace (engine : Engine) (fuel : Nat) (field : Table Word) (rules : List RuleEntry) : Prop :=
  ∀ field' rule, Applied engine fuel field rules field' rule → ∀ seen found c,
    Reached engine field' seen found → (c :: seen).Subperm rule.conditions → ∀ s cvn,
      recorded engine found c.2 (candidatesOf c.1) = some (s, cvn) → ∀ cvn' inOrder : List Conversion,
        cvn.Perm cvn' → cvn.Perm inOrder → inOrder.Pairwise (fun c d => c.stop ≤ d.start) →
          convertAll s 0 cvn' = convertInPlace s 0 inOrder

theorem setAll_cons (found : Table Word) (name s : Word) (named : List (Word × Word)) :
    setAll found ((name, s) :: named) = setAll (Function.update found name (some s)) named := rfl

theorem setAll_apply (found : Table Word) (named : List (Word × Word)) (name : Word) :
    setAll found named name = (setAll (fun _ => none) named name).or (found name) := by
  induction named generalizing found with
  | nil => rfl
  | cons head named ih =>
    obtain ⟨head, s⟩ := head
    rw [setAll_cons, setAll_cons, ih, ih (Function.update _ _ _), Option.or_assoc]
    congr 1
    by_cases h : name = head
    · rw [h, Function.update_self, Function.update_self, Option.some_or]
    · rw [Function.update_of_ne h, Function.update_of_ne h, Option.none_or]

theorem setAll_update_apply (found : Table Word) (field s : Word) (named : List (Word × Word))
    (name : Word) :
    setAll (Function.update found field (some s)) named name =
      (written field s named name).or (found name) := by
  rw [written, setAll_apply, setAll_apply (Function.update _ _ _), Option.or_assoc]
  congr 1
  by_cases h : name = field
  · rw [h, Function.update_self, Function.update_self, Option.some_or]
  · rw [Function.update_of_ne h, Function.update_of_ne h, Option.none_or]

theorem setAll_perm {named named' : List (Word × Word)} (h : named.Perm named')
    (hdistinct : (named.map Prod.fst).Nodup) (found : Table Word) :
    setAll found named' = setAll found named := by
  refine (h.foldl_eq' ?_ found).symm
  rintro ⟨a, s⟩ ha ⟨b, t⟩ hb found
  by_cases hab : a = b
  · subst hab
    have : s = t := congrArg Prod.snd (List.inj_on_of_nodup_map hdistinct ha hb rfl)
    rw [this]
  · exact Function.update_comm hab _ _ found

/-! ### One condition in two orders -/

inductive Outcome.Alike : Outcome → Outcome → Prop
  | miss : Alike .miss .miss
  | dies : Alike .dies .dies
  | hit (s : Word) {named named' : List (Word × Word)} (h : named.Perm named')
      (hdistinct : (named.map Prod.fst).Nodup) : Alike (.hit s named) (.hit s named')

variable {cvn : List Conversion} {s : Word} {fuel : Nat} {rules : List RuleEntry}

section Orders

variable {engine engine' : Engine} {found field : Table Word}

variable {off : Int}

theorem convertAll_cons {a x b : Word} {c : Conversion} (hs : s = a ++ x ++ b)
    (ha : (a.length : Int) = c.start + off) (hx : (x.length : Int) = c.stop - c.start)
    (cvn : List Conversion) :
    convertAll s off (c :: cvn) = (convert c.unit x).bind fun v =>
      convertAll (a ++ v ++ b) (off + (v.length - (c.stop - c.start : Int))) cvn := by
  have hsubstr : substr s (c.start + off) (c.stop - c.start) = (a.length, a.length + x.length) := by
    rw [substr, if_neg (by omega), if_neg (by omega)]
    ext <;> dsimp only <;> omega
  subst hs
  have htake : (a ++ x ++ b).take (a.length + x.length) = a ++ x := by
    rw [← List.length_append, List.take_left]
  have hdrop : (a ++ x ++ b).drop (a.length + x.length) = b := by
    rw [← List.length_append, List.drop_left]
  have hfront : (a ++ x ++ b).take a.length = a := by
    rw [List.append_assoc, List.take_left]
  rw [convertAll]
  simp only [hsubstr, htake, List.drop_left, hfront, Nat.max_eq_right (Nat.le_add_right _ _), hdrop]
  cases convert c.unit x <;> rfl

/-- The string around a value. -/
theorem exists_split {c : Conversion} (h0 : 0 ≤ c.start + off)
    (hle : c.start ≤ c.stop) (hlen : c.stop + off ≤ s.length) :
    ∃ a b, s = a ++ piece s off c ++ b ∧ (a.length : Int) = c.start + off ∧
      ((piece s off c).length : Int) = c.stop - c.start := by
  refine ⟨s.take (c.start + off).toNat, s.drop (c.stop + off).toNat, ?_, ?_, ?_⟩
  · have hfront : s.take (c.start + off).toNat =
        (s.take (c.stop + off).toNat).take (c.start + off).toNat := by
      rw [List.take_take, Nat.min_eq_left (by omega)]
    rw [hfront, piece, List.take_append_drop, List.take_append_drop]
  · rw [List.length_take]
    omega
  · rw [piece, List.length_drop, List.length_take]
    omega

theorem piece_append {a x b : Word} {c : Conversion} (hs : s = a ++ x ++ b)
    (ha : (a.length : Int) = c.start + off) (hx : (x.length : Int) = c.stop - c.start) :
    piece s off c = x := by
  have hstart : (c.start + off).toNat = a.length := by omega
  have hstop : (c.stop + off).toNat = (a ++ x).length := by
    rw [List.length_append]
    omega
  rw [piece, hs, hstart, hstop, List.take_left, List.drop_left]

/-- Two values side by side, and what is made of each of them. -/
theorem exists_split_pair {c d : Conversion} (h0 : 0 ≤ c.start + off)
    (hc : c.start ≤ c.stop) (hcd : c.stop ≤ d.start) (hd : d.start ≤ d.stop)
    (hlen : d.stop + off ≤ s.length) :
    ∃ a m b, s = a ++ piece s off c ++ (m ++ piece s off d ++ b) ∧
      (a.length : Int) = c.start + off ∧ ((piece s off c).length : Int) = c.stop - c.start ∧
      (m.length : Int) = d.start - c.stop ∧ ((piece s off d).length : Int) = d.stop - d.start := by
  obtain ⟨a, rest, hs, ha, hx⟩ := exists_split (s := s) h0 hc (by omega)
  have hrest : rest.length = s.length - (c.stop + off).toNat := by
    have := congrArg List.length hs
    simp only [List.length_append] at this
    omega
  have hfrom : ((d.start - c.stop : Nat) : Int) = d.start - c.stop := by omega
  have hto : ((d.stop - c.stop : Nat) : Int) = d.stop - c.stop := by omega
  -- the right value, in what is behind the left one
  obtain ⟨m, b, hm, hlenm, hy⟩ := @exists_split rest 0
    ⟨d.unit, d.start - c.stop, d.stop - c.stop⟩
    (by dsimp only; omega) (by dsimp only; omega) (by dsimp only; omega)
  dsimp only at hlenm hy
  rw [hfrom] at hlenm hy
  rw [hto] at hy
  have hpiece : piece s off d = piece rest 0 ⟨d.unit, d.start - c.stop, d.stop - c.stop⟩ := by
    apply piece_append (a := a ++ piece s off c ++ m) (b := b)
    · rw [List.append_assoc _ m, List.append_assoc _ (m ++ _), ← hm]
      exact hs
    · simp only [List.length_append]
      omega
    · omega
  refine ⟨a, m, b, ?_, ha, hx, ?_, ?_⟩
  · rw [hpiece, ← hm]
    exact hs
  · omega
  · rw [hpiece]
    omega

/-- Of two values side by side the right one keeps its length, so that it does not matter which one
is converted first. -/
theorem convertAll_swap {c d : Conversion} (h0 : 0 ≤ c.start + off)
    (hc : c.start ≤ c.stop) (hcd : c.stop ≤ d.start) (hd : d.start ≤ d.stop)
    (hlen : d.stop + off ≤ s.length) (hkeeps : KeepsLength s off d) (cvn : List Conversion) :
    convertAll s off (c :: d :: cvn) = convertAll s off (d :: c :: cvn) := by
  obtain ⟨a, m, b, hs, ha, hx, hm, hy⟩ := exists_split_pair h0 hc hcd hd hlen
  have hs' : s = a ++ piece s off c ++ m ++ piece s off d ++ b :=
    hs.trans (by simp only [List.append_assoc])
  rw [convertAll_cons hs ha hx, convertAll_cons hs' (by simp only [List.length_append]; omega) hy]
  cases hw : convert d.unit (piece s off d) with
  | none =>
    cases convert c.unit (piece s off c) with
    | none => rfl
    | some v =>
      rw [Option.bind_some, Option.bind_none]
      rw [convertAll_cons (a := a ++ v ++ m) (x := piece s off d) (b := b) (by simp) _ hy, hw]
      · rfl
      · simp only [List.length_append]
        omega
  | some w =>
    have hlength := hkeeps w hw
    rw [Option.bind_some, convertAll_cons (a := a) (x := piece s off c) (b := m ++ w ++ b)
      (by simp) (by omega) hx]
    congr 1
    funext v
    rw [convertAll_cons (a := a ++ v ++ m) (x := piece s off d) (b := b) (by simp) _ hy, hw,
      Option.bind_some]
    · congr 1
      · simp
      · omega
    · simp only [List.length_append]
      omega

theorem Placed.perm {cvn' : List Conversion} (hplaced : Placed s off cvn)
    (h : cvn.Perm cvn') : Placed s off cvn' where
  inside c hc := hplaced.inside c (h.mem_iff.mpr hc)
  apart := (h.pairwise_iff fun {_ _} => Or.symm).mp hplaced.apart

/-- What is left to convert stands where the offset says. -/
theorem Placed.tail {c : Conversion} {a b v : Word}
    (hplaced : Placed s off (c :: cvn)) (hs : s = a ++ piece s off c ++ b)
    (ha : (a.length : Int) = c.start + off)
    (hx : ((piece s off c).length : Int) = c.stop - c.start)
    (hv : convert c.unit (piece s off c) = some v) :
    Placed (a ++ v ++ b) (off + (v.length - (c.stop - c.start : Int))) cvn := by
  obtain ⟨hapart, htail⟩ := List.pairwise_cons.mp hplaced.apart
  have hlength : s.length = a.length + (piece s off c).length + b.length := by
    have := congrArg List.length hs
    simpa only [List.length_append] using this
  have hpiece : ∀ d ∈ cvn, piece (a ++ v ++ b) (off + (v.length - (c.stop - c.start : Int))) d =
      piece s off d := by
    intro d hd
    obtain ⟨hc0, hc, -⟩ := hplaced.inside c List.mem_cons_self
    obtain ⟨hd0, hle, hlen⟩ := hplaced.inside d (List.mem_cons_of_mem c hd)
    rcases hapart d hd with ⟨hcd, -⟩ | ⟨hdc, hkeeps⟩
    · obtain ⟨a', m, b', hs', ha', hx', hm, hy⟩ := exists_split_pair hc0 hc hcd hle hlen
      obtain ⟨rfl, rfl⟩ : a = a' ∧ b = m ++ piece s off d ++ b' := by
        obtain ⟨hfront, hsame⟩ := List.append_inj (hs.symm.trans hs')
          (by simp only [List.length_append]; omega)
        exact ⟨List.append_cancel_right hfront, hsame⟩
      apply piece_append (a := a ++ v ++ m) (b := b') (by simp)
      · simp only [List.length_append]
        omega
      · omega
    · have hlen' := (hplaced.inside c List.mem_cons_self).2.2
      obtain ⟨a', m, b', hs', ha', hx', hm, hy⟩ := exists_split_pair hd0 hle hdc hc hlen'
      have hsame : a ++ (piece s off c ++ b) = a' ++ piece s off d ++ m ++ (piece s off c ++ b') :=
        (List.append_assoc a _ b).symm.trans (hs.symm.trans
          (hs'.trans (by simp only [List.append_assoc])))
      obtain ⟨rfl, -⟩ := List.append_inj hsame (by simp only [List.length_append]; omega)
      have := hkeeps v hv
      apply piece_append (a := a') (b := m ++ v ++ b) (by simp) <;> omega
  constructor
  case inside =>
    intro d hd
    obtain ⟨hd0, hle, hlen⟩ := hplaced.inside d (List.mem_cons_of_mem c hd)
    simp only [List.length_append]
    rcases hapart d hd with ⟨hcd, -⟩ | ⟨hdc, hkeeps⟩
    · refine ⟨by omega, hle, by omega⟩
    · have := hkeeps v hv
      refine ⟨by omega, hle, by omega⟩
  case apart =>
    refine htail.imp_of_mem fun {d e} hd he hde => hde.imp (And.imp_right ?_) (And.imp_right ?_)
    · intro hkeeps w hw
      rw [hpiece e he] at hw
      exact hkeeps w hw
    · intro hkeeps w hw
      rw [hpiece d hd] at hw
      exact hkeeps w hw

theorem convertAll_perm {cvn' : List Conversion} (h : cvn.Perm cvn')
    (hplaced : Placed s off cvn) : convertAll s off cvn' = convertAll s off cvn := by
  induction h generalizing s off with
  | nil => rfl
  | cons c _ ih =>
    obtain ⟨hc0, hc, hlen⟩ := hplaced.inside c List.mem_cons_self
    obtain ⟨a, b, hs, ha, hx⟩ := exists_split hc0 hc hlen
    rw [convertAll_cons hs ha hx, convertAll_cons hs ha hx]
    cases hv : convert c.unit (piece s off c) with
    | none => rfl
    | some v => exact ih (hplaced.tail hs ha hx hv)
  | swap c d cvn =>
    obtain ⟨hc0, hc, hlen⟩ := hplaced.inside d List.mem_cons_self
    obtain ⟨hd0, hd, hlen'⟩ := hplaced.inside c (List.mem_cons_of_mem _ List.mem_cons_self)
    rcases (List.pairwise_cons.mp hplaced.apart).1 c List.mem_cons_self with
      ⟨hdc, hkeeps⟩ | ⟨hcd, hkeeps⟩
    · exact (convertAll_swap hc0 hc hdc hd hlen' hkeeps cvn).symm
    · exact convertAll_swap hd0 hd hcd hc hlen hkeeps cvn
  | trans hperm _ ih ih' => rw [ih' (hplaced.perm hperm), ih hplaced]

theorem rel_some {α : Type} {r : α → α → Prop} {o o' : Option α} {a : α} (h : Option.Rel r o o')
    (ho : o = some a) : ∃ b, o' = some b ∧ r a b := by
  subst ho
  cases h with
  | some hab => exact ⟨_, rfl, hab⟩

theorem rel_none {α : Type} {r : α → α → Prop} {o o' : Option α} (h : Option.Rel r o o')
    (ho : o = none) : o' = none := by
  subst ho
  cases h
  rfl

theorem subMatch_alike (hengine : engine.Reorders engine') (s m1 : Word) (m2 : Option Word)
    (hplaced : ∀ cvn, engine.first m1 s = some cvn → Placed s 0 cvn) :
    (subMatch engine s m1 m2).Alike (subMatch engine' s m1 m2) := by
  rw [subMatch, subMatch]
  cases hcvn : engine.first m1 s with
  | none =>
    rw [rel_none (hengine.first m1 s) hcvn]
    exact .miss
  | some cvn =>
    obtain ⟨cvn', hcvn', hperm⟩ := rel_some (hengine.first m1 s) hcvn
    rw [hcvn']
    dsimp only
    rw [convertAll_perm hperm (hplaced cvn hcvn)]
    cases convertAll s 0 cvn with
    | none => exact .dies
    | some s =>
      dsimp only
      cases hnamed : engine.second m1 m2 s with
      | none =>
        rw [rel_none (hengine.second m1 m2 s) hnamed]
        exact .dies
      | some named =>
        obtain ⟨named', hnamed', hperm'⟩ := rel_some (hengine.second m1 m2 s) hnamed
        rw [hnamed']
        exact .hit s hperm' (engine.distinct m1 m2 s named hnamed)

theorem matchAny_alike (hengine : engine.Reorders engine') (pattern : Pattern)
    (candidates : List Word)
    (hplaced : ∀ s cvn, recorded engine found pattern candidates = some (s, cvn) →
      Placed s 0 cvn) :
    (matchAny engine found pattern candidates).Alike
      (matchAny engine' found pattern candidates) := by
  induction candidates with
  | nil => exact .miss
  | cons candidate candidates ih =>
    rw [recorded] at hplaced
    rw [matchAny, matchAny]
    cases hs : found candidate with
    | none =>
      rw [hs] at hplaced
      exact ih hplaced
    | some s =>
      rw [hs] at hplaced
      dsimp only at hplaced ⊢
      cases hcvn : engine.first (pattern.getD 1 []) s with
      | none =>
        rw [hcvn] at hplaced
        have halike := subMatch_alike hengine s (pattern.getD 1 []) pattern[2]?
          (by rw [hcvn]; intro cvn h; cases h)
        have hmiss : subMatch engine s (pattern.getD 1 []) pattern[2]? = .miss := by
          rw [subMatch, hcvn]
        rw [hmiss] at halike ⊢
        generalize subMatch engine' s (pattern.getD 1 []) pattern[2]? = o at halike
        cases halike
        exact ih hplaced
      | some cvn =>
        rw [hcvn] at hplaced
        have halike := subMatch_alike hengine s (pattern.getD 1 []) pattern[2]?
          (by rw [hcvn]; intro cvn' h; cases h; exact hplaced s cvn rfl)
        have hhit : subMatch engine s (pattern.getD 1 []) pattern[2]? ≠ .miss := by
          rw [subMatch, hcvn]
          dsimp only
          split
          · exact Outcome.noConfusion
          · split <;> exact Outcome.noConfusion
        generalize subMatch engine s (pattern.getD 1 []) pattern[2]? = o at halike hhit
        generalize subMatch engine' s (pattern.getD 1 []) pattern[2]? = o' at halike
        cases halike with
        | miss => exact absurd rfl hhit
        | dies => exact .dies
        | hit s hperm hdistinct => exact .hit s hperm hdistinct

theorem written_alike {o o' : Outcome} (h : o.Alike o') :
    (o = .miss ∧ o' = .miss) ∨ (o = .dies ∧ o' = .dies) ∨
      ∃ s named named', o = .hit s named ∧ o' = .hit s named' ∧
        ∀ found, setAll found named' = setAll found named := by
  cases h with
  | miss => exact .inl ⟨rfl, rfl⟩
  | dies => exact .inr (.inl ⟨rfl, rfl⟩)
  | hit s hperm hdistinct =>
    exact .inr (.inr ⟨s, _, _, rfl, rfl, setAll_perm hperm hdistinct⟩)

/-! ### The loop over the conditions -/

variable {c : Word × Pattern} {conditions conditions' seen all : List (Word × Pattern)}

def Outcome.verdict (o : Outcome) (hit : Word → List (Word × Word) → Verdict) : Verdict :=
  match o with
  | .miss => .miss
  | .dies => .dies
  | .hit s named => hit s named

theorem matchAll_cons (found : Table Word) (c : Word × Pattern)
    (conditions : List (Word × Pattern)) :
    matchAll engine found (c :: conditions) = (outcome engine found c).verdict fun s named =>
      matchAll engine (setAll (Function.update found c.1 (some s)) named) conditions := by
  rw [matchAll, outcome]
  cases matchAny engine found c.2 (candidatesOf c.1) <;> rfl

/-- Conditions still to be looked at, after those in `seen`, are conditions of the rule. -/
theorem subperm_next (hsub : (c :: conditions ++ seen).Subperm all) :
    (c :: seen).Subperm all ∧ (conditions ++ c :: seen).Subperm all := by
  refine ⟨List.Subperm.trans ?_ hsub, List.Subperm.trans ?_ hsub⟩
  · exact ((List.sublist_append_right conditions seen).cons_cons c).subperm
  · exact List.perm_middle.subperm

theorem matchAll_engine (hengine : engine.Reorders engine')
    (hplaced : ∀ seen found c, Reached engine field seen found → (c :: seen).Subperm all →
      ∀ s cvn, recorded engine found c.2 (candidatesOf c.1) = some (s, cvn) → Placed s 0 cvn)
    (hreached : Reached engine field seen found) (hsub : (conditions ++ seen).Subperm all) :
    matchAll engine' found conditions = matchAll engine found conditions := by
  induction conditions generalizing found seen with
  | nil => rfl
  | cons c conditions ih =>
    obtain ⟨hc, hnext⟩ := subperm_next hsub
    have halike : (outcome engine found c).Alike (outcome engine' found c) :=
      matchAny_alike hengine c.2 _ (hplaced seen found c hreached hc)
    rw [matchAll_cons, matchAll_cons]
    obtain ⟨ho, ho'⟩ | ⟨ho, ho'⟩ | ⟨s, named, named', ho, ho', hset⟩ := written_alike halike
    · rw [ho, ho']
      rfl
    · rw [ho, ho']
      rfl
    · rw [ho, ho']
      dsimp only [Outcome.verdict]
      rw [hset]
      exact ih (hreached.hit ho) hnext

theorem matchAll_of_fails {failure : Outcome} {verdict : Verdict}
    (hverdict : ∀ hit, failure.verdict hit = verdict)
    (hfails : ∀ seen found, Reached engine field seen found → (c :: seen).Subperm all →
      outcome engine found c = failure)
    (hothers : ∀ seen found c, Reached engine field seen found → (c :: seen).Subperm all →
      outcome engine found c = failure ∨ ∃ s named, outcome engine found c = .hit s named)
    (hreached : Reached engine field seen found) (hsub : (conditions ++ seen).Subperm all)
    (hmem : c ∈ conditions) : matchAll engine found conditions = verdict := by
  induction conditions generalizing found seen with
  | nil => exact absurd hmem List.not_mem_nil
  | cons d conditions ih =>
    obtain ⟨hd, hnext⟩ := subperm_next hsub
    rw [matchAll_cons]
    rcases hothers seen found d hreached hd with hfailure | ⟨s, named, hhit⟩
    · rw [hfailure, hverdict]
    rcases List.mem_cons.mp hmem with rfl | hlater
    · rw [hfails seen found hreached hd, hverdict]
    · rw [hhit]
      exact ih (hreached.hit hhit) hnext hlater

theorem setAll_comm {c c' : Word × Pattern} (hagree : Agree engine field c c')
    {s' : Word} {named named' : List (Word × Word)} (h : outcome engine field c = .hit s named)
    (h' : outcome engine field c' = .hit s' named') (found : Table Word) :
    setAll (Function.update (setAll (Function.update found c.1 (some s)) named) c'.1 (some s'))
        named' =
      setAll (Function.update (setAll (Function.update found c'.1 (some s')) named') c.1 (some s))
        named := by
  ext1 name
  rw [setAll_update_apply, setAll_update_apply, setAll_update_apply, setAll_update_apply]
  cases hwritten : written c.1 s named name with
  | none => rw [Option.none_or, Option.none_or]
  | some value =>
    cases hwritten' : written c'.1 s' named' name with
    | none => rw [Option.none_or, Option.none_or]
    | some value' =>
      rw [Option.some_or, Option.some_or,
        hagree.writes s named s' named' h h' name value value' hwritten hwritten']

theorem matchAll_swap {c c' : Word × Pattern} (hsteady : Steady engine field all)
    (hagree : Agree engine field c c') (hagree' : Agree engine field c' c)
    (hreached : Reached engine field seen found)
    (hsub : (c :: c' :: conditions ++ seen).Subperm all) :
    matchAll engine found (c :: c' :: conditions) =
      matchAll engine found (c' :: c :: conditions) := by
  obtain ⟨hc, hnext⟩ := subperm_next hsub
  have hafter := (subperm_next hnext).1
  have hsub' : (c' :: c :: conditions ++ seen).Subperm all :=
    (List.Perm.swap c c' (conditions ++ seen)).subperm.trans hsub
  obtain ⟨hc', hnext'⟩ := subperm_next hsub'
  have hafter' := (subperm_next hnext').1
  rw [matchAll_cons, matchAll_cons found c']
  have ho := hsteady.same seen found c hreached hc
  have ho' := hsteady.same seen found c' hreached hc'
  -- a condition finds the same before and after the other one
  have hthen : ∀ s named, outcome engine found c = .hit s named →
      outcome engine (setAll (Function.update found c.1 (some s)) named) c' =
        outcome engine field c' := fun s named h =>
    hsteady.same _ _ c' (hreached.hit h) hafter
  have hthen' : ∀ s named, outcome engine found c' = .hit s named →
      outcome engine (setAll (Function.update found c'.1 (some s)) named) c =
        outcome engine field c := fun s named h =>
    hsteady.same _ _ c (hreached.hit h) hafter'
  cases h : outcome engine field c with
  | miss =>
    rw [ho, h]
    cases h' : outcome engine field c' with
    | miss =>
      rw [ho', h']
      rfl
    | dies => exact absurd h' (hagree.misses h)
    | hit s' named' =>
      rw [ho', h']
      dsimp only [Outcome.verdict]
      rw [matchAll_cons, hthen' s' named' (ho'.trans h'), h]
      rfl
  | dies =>
    rw [ho, h]
    cases h' : outcome engine field c' with
    | miss => exact absurd h (hagree'.misses h')
    | dies =>
      rw [ho', h']
      rfl
    | hit s' named' =>
      rw [ho', h']
      dsimp only [Outcome.verdict]
      rw [matchAll_cons, hthen' s' named' (ho'.trans h'), h]
      rfl
  | hit s named =>
    rw [ho, h]
    dsimp only [Outcome.verdict]
    rw [matchAll_cons, hthen s named (ho.trans h)]
    cases h' : outcome engine field c' with
    | miss =>
      rw [ho', h']
      rfl
    | dies =>
      rw [ho', h']
      rfl
    | hit s' named' =>
      rw [ho', h']
      dsimp only [Outcome.verdict]
      rw [matchAll_cons, hthen' s' named' (ho'.trans h'), h]
      dsimp only [Outcome.verdict]
      rw [setAll_comm hagree h h' found]

theorem matchAll_perm (hsteady : Steady engine field all) (hperm : conditions.Perm conditions')
    (hpairs : conditions.Pairwise fun c c' => Agree engine field c c' ∧ Agree engine field c' c)
    (hreached : Reached engine field seen found) (hsub : (conditions ++ seen).Subperm all) :
    matchAll engine found conditions' = matchAll engine found conditions := by
  induction hperm generalizing found seen with
  | nil => rfl
  | cons c _ ih =>
    obtain ⟨-, hnext⟩ := subperm_next hsub
    rw [matchAll_cons, matchAll_cons]
    cases ho : outcome engine found c with
    | miss => rfl
    | dies => rfl
    | hit s named => exact ih (List.pairwise_cons.mp hpairs).2 (hreached.hit ho) hnext
  | swap c c' _ =>
    have hpair := (List.pairwise_cons.mp hpairs).1 c List.mem_cons_self
    exact (matchAll_swap hsteady hpair.1 hpair.2 hreached hsub).symm
  | trans hperm _ ih ih' =>
    have hpairs' := (hperm.pairwise_iff fun {_ _} h => And.symm h).mp hpairs
    have hsub' := (hperm.append_right seen).symm.subperm.trans hsub
    rw [ih' hpairs' hreached hsub', ih hpairs hreached hsub]

/-- Left to right: the offset is what the values before have grown by. -/
theorem convertAll_inPlace {done rest : Word} {start : Nat}
    (hinside : ∀ c ∈ cvn, start ≤ c.start ∧ c.start ≤ c.stop ∧ c.stop ≤ s.length)
    (hinOrder : cvn.Pairwise fun c d => c.stop ≤ d.start) (hstart : start ≤ s.length)
    (hrest : s.drop start = rest) (hoff : (done.length : Int) = start + off) :
    convertAll (done ++ rest) off cvn = (convertInPlace s start cvn).map (done ++ ·) := by
  subst hrest
  induction cvn generalizing done off start with
  | nil => rfl
  | cons c cvn ih =>
    obtain ⟨hfirst, htail⟩ := List.pairwise_cons.mp hinOrder
    obtain ⟨hle, hc, hlen⟩ := hinside c List.mem_cons_self
    have hsplit : s.drop start = (s.take c.start).drop start ++ piece s 0 c ++ s.drop c.stop := by
      have hfront : (s.take c.start).drop start = ((s.take c.stop).take c.start).drop start := by
        rw [List.take_take, Nat.min_eq_left hc]
      have hmid : (s.take c.stop).drop start =
          ((s.take c.stop).take c.start).drop start ++ (s.take c.stop).drop c.start := by
        rw [← List.drop_append_of_le_length (by simp only [List.length_take]; omega),
          List.take_append_drop]
      have hpiece : piece s 0 c = (s.take c.stop).drop c.start := by simp [piece]
      rw [hfront, hpiece, ← hmid,
        ← List.drop_append_of_le_length (by simp only [List.length_take]; omega),
        List.take_append_drop]
    have hx : ((piece s 0 c).length : Int) = c.stop - c.start := by
      simp only [piece, List.length_drop, List.length_take]
      omega
    rw [convertInPlace, convertAll_cons (a := done ++ (s.take c.start).drop start)
      (x := piece s 0 c) (b := s.drop c.stop) (by rw [hsplit]; simp only [List.append_assoc]) _ hx]
    · cases convert c.unit (piece s 0 c) with
      | none => rfl
      | some v =>
        simp only [Option.bind_some, Option.bind_eq_bind]
        rw [ih (fun d hd => ⟨hfirst d hd, (hinside d (List.mem_cons_of_mem c hd)).2⟩) htail hlen]
        · cases convertInPlace s c.stop cvn with
          | none => rfl
          | some rest => simp
        · simp only [List.length_append, List.length_drop, List.length_take]
          omega
    · simp only [List.length_append, List.length_drop, List.length_take]
      omega

end Orders

/-! ### The rules -/

theorem setFields_perm {assignments assignments' : List (Word × Word)}
    (hperm : assignments.Perm assignments') (hdistinct : (assignments.map Prod.fst).Nodup)
    (fuel : Nat) (found field : Table Word) :
    setFields fuel found field assignments' = setFields fuel found field assignments := by
  induction hperm generalizing field with
  | nil => rfl
  | cons a hperm ih =>
    rw [List.map_cons, List.nodup_cons] at hdistinct
    rw [setFields, setFields]
    cases subExpand found fuel a.2 with
    | none => rfl
    | some s => exact ih hdistinct.2 _
  | swap a b assignments =>
    rw [List.map_cons, List.map_cons, List.nodup_cons] at hdistinct
    have hab : b.1 ≠ a.1 := fun h => hdistinct.1 (h ▸ List.mem_cons_self)
    simp only [setFields]
    cases subExpand found fuel a.2 with
    | none => cases subExpand found fuel b.2 <;> rfl
    | some s =>
      cases subExpand found fuel b.2 with
      | none => rfl
      | some t =>
        dsimp only
        rw [Function.update_comm hab]
  | trans hperm hperm' ih ih' =>
    rw [ih' ((hperm.map _).nodup_iff.mp hdistinct), ih hdistinct]

theorem matchAll_of_settled {engine engine' : Engine} (hengine : engine.Reorders engine')
    {rule rule' : RuleEntry} (hrule : rule.Reorders rule') {field : Table Word}
    (hsettled : Settled engine field rule) :
    matchAll engine' field rule'.conditions = matchAll engine field rule.conditions := by
  have hall : (rule.conditions ++ []).Subperm rule.conditions := by
    rw [List.append_nil]
  have hall' : (rule'.conditions ++ []).Subperm rule.conditions :=
    (hrule.conditions.append_right []).symm.subperm.trans hall
  rw [matchAll_engine hengine hsettled.placed .start hall']
  rcases hsettled.settled with hsteady | ⟨failure, hfailure, ⟨c, hc, hfails⟩, hothers⟩
  · exact matchAll_perm hsteady hrule.conditions hsteady.agree .start hall
  · obtain ⟨verdict, hverdict⟩ : ∃ verdict, ∀ hit, failure.verdict hit = verdict := by
      rcases hfailure with rfl | rfl
      · exact ⟨.miss, fun _ => rfl⟩
      · exact ⟨.dies, fun _ => rfl⟩
    rw [matchAll_of_fails hverdict hfails hothers .start hall hc,
      matchAll_of_fails hverdict hfails hothers .start hall' (hrule.conditions.mem_iff.mp hc)]

theorem applyRules_cons {engine : Engine} {field field' : Table Word}
    {rule : RuleEntry} (h : applyRules engine fuel field [rule] = some (field', false))
    (rules : List RuleEntry) :
    applyRules engine fuel field (rule :: rules) = applyRules engine fuel field' rules := by
  rw [applyRules] at h ⊢
  cases hmatch : matchAll engine field rule.conditions with
  | dies => rw [hmatch] at h; cases h
  | miss =>
    rw [hmatch] at h
    cases h
    rfl
  | applies found =>
    rw [hmatch] at h
    dsimp only at h ⊢
    cases hset : setFields fuel found field rule.assignments with
    | none => rw [hset] at h; cases h
    | some field'' =>
      rw [hset] at h
      dsimp only at h ⊢
      by_cases hhalt : rule.halt = true
      · rw [if_pos hhalt] at h
        cases h
      · rw [if_neg hhalt] at h ⊢
        cases h
        rfl

theorem Applied.cons {engine : Engine} {field field' field'' : Table Word} {rule next : RuleEntry}
    (hrule : applyRules engine fuel field [rule] = some (field', false))
    (h : Applied engine fuel field' rules field'' next) :
    Applied engine fuel field (rule :: rules) field'' next := by
  obtain ⟨before, after, rfl, hbefore⟩ := h
  exact ⟨rule :: before, after, rfl, by rw [applyRules_cons hrule, hbefore]⟩

theorem orderFree_of_runSettled {engine : Engine} {field : Table Word}
    (h : RunSettled engine fuel field rules) :
    OrderFree engine fuel field rules := by
  intro engine' rules' hengine hrules
  induction hrules generalizing field with
  | nil => rfl
  | @cons rule rule' rules rules' hrule hrules ih =>
    have hsettled := h field rule ⟨[], rules, rfl, rfl⟩
    have hmatch := matchAll_of_settled hengine hrule hsettled
    rw [applyRules, applyRules, hmatch]
    cases hverdict : matchAll engine field rule.conditions with
    | dies => rfl
    | miss =>
      apply ih
      refine fun field' next happlied => h field' next (happlied.cons ?_)
      rw [applyRules, hverdict]
      rfl
    | applies found =>
      dsimp only
      rw [setFields_perm hrule.assignments rule.assignments_distinct, ← hrule.halt]
      cases hset : setFields fuel found field rule.assignments with
      | none => rfl
      | some field' =>
        dsimp only
        by_cases hhalt : rule.halt = true
        · rw [if_pos hhalt, if_pos hhalt]
        · rw [if_neg hhalt, if_neg hhalt]
          apply ih
          refine fun field'' next happlied => h field'' next (happlied.cons ?_)
          rw [applyRules, hverdict]
          dsimp only
          rw [hset]
          dsimp only
          rw [if_neg hhalt]
          rfl

theorem inPlace_of_runSettled {engine : Engine} {field : Table Word}
    (h : RunSettled engine fuel field rules) :
    InPlace engine fuel field rules := by
  intro field' rule happlied seen found c hreached hsub s cvn hrecorded cvn' inOrder hperm hperm' hleft
  have hplaced := (h field' rule happlied).placed seen found c hreached hsub s cvn hrecorded
  rw [convertAll_perm hperm hplaced, ← convertAll_perm hperm' hplaced]
  have hinside : ∀ c ∈ inOrder, 0 ≤ c.start ∧ c.start ≤ c.stop ∧ c.stop ≤ s.length := by
    intro d hd
    obtain ⟨-, hle, hlen⟩ := (hplaced.perm hperm').inside d hd
    exact ⟨Nat.zero_le _, hle, by omega⟩
  have hconvert : convertAll ([] ++ s) 0 inOrder = _ :=
    convertAll_inPlace hinside hleft (Nat.zero_le _) (List.drop_zero (l := s)) rfl
  simpa using hconvert

def text4k7 : Word := [52, 107, 55]

def text47kR : Word := [52, 46, 55, 107, 82]

def resistorEngine : Engine where
  first m1 s :=
    if m1 = text4k7 then if s = text4k7 then some [] else none
    else if splitValue 82 s ≠ none then some [⟨82, 0, s.length⟩] else none
  second _ m2 s :=
    if m2 = some text4k7 then if s = text4k7 then some [] else none
    else if s.getLast? = some 82 then some [] else none
  distinct m1 m2 s named h := by
    split at h <;> split at h <;> simp_all

theorem resistorEngine_reorders : resistorEngine.Reorders resistorEngine where
  first m1 s := by cases resistorEngine.first m1 s <;> constructor; exact List.Perm.refl _
  second m1 m2 s := by cases resistorEngine.second m1 m2 s <;> constructor; exact List.Perm.refl _

def unitCondition : Word × Pattern := ([70, 49], [[36, 82], [82], [82]])

def valueCondition : Word × Pattern := (FN, [text4k7, text4k7, text4k7])

def bothRule : RuleEntry where
  conditions := [unitCondition, valueCondition]
  assignments := [([84], [120])]
  halt := false
  conditions_distinct := by decide
  assignments_distinct := by decide

def bothRule' : RuleEntry where
  conditions := [valueCondition, unitCondition]
  assignments := [([84], [120])]
  halt := false
  conditions_distinct := by decide
  assignments_distinct := by decide

def only4k7 : Table Word := Function.update (fun _ => none) [70, 49] (some text4k7)

theorem convert_4k7 : convert 82 text4k7 = some text47kR := by
  have hnormalize : normalize ⟨[52], [55], 107⟩ = ⟨[52], [55], 107⟩ := by
    rw [normalize, below1000]
    rw [if_neg (by decide), atLeast1]
    rw [if_neg (by decide)]
    rfl
  have hsplit : splitValue 82 text4k7 = some ⟨[52], [55], 107⟩ := by decide
  rw [convert, findValue_of_split hsplit, Option.map_some, hnormalize]
  rfl

theorem subMatch_unit : subMatch resistorEngine text4k7 [82] (some [82]) = .hit text47kR [] := by
  have hfirst : resistorEngine.first [82] text4k7 = some [⟨82, 0, 3⟩] := by decide
  have hconvert : convertAll text4k7 0 [⟨82, 0, 3⟩] = some text47kR := by
    rw [convertAll]
    have : (text4k7.take (substr text4k7 ((0 : Nat) + 0) ((3 : Nat) - (0 : Nat))).2).drop
        (substr text4k7 ((0 : Nat) + 0) ((3 : Nat) - (0 : Nat))).1 = text4k7 := by decide
    dsimp only
    rw [this, convert_4k7]
    rfl
  rw [subMatch, hfirst]
  dsimp only
  rw [hconvert]
  rfl

theorem matchAny_unit {found : Table Word} (h : found [70, 49] = some text4k7) :
    matchAny resistorEngine found [[36, 82], [82], [82]] (candidatesOf [70, 49]) =
      .hit text47kR [] := by
  change matchAny resistorEngine found [[36, 82], [82], [82]] [[70, 49]] = _
  rw [matchAny, h]
  simp only [List.getD_cons_succ, List.getD_cons_zero, List.getElem?_cons_succ,
    List.getElem?_cons_zero, subMatch_unit]

theorem matchAll_bothRule : matchAll resistorEngine only4k7 bothRule.conditions = .miss := by
  change matchAll resistorEngine only4k7 [unitCondition, valueCondition] = .miss
  rw [unitCondition, matchAll, matchAny_unit rfl]
  rfl

theorem matchAll_bothRule' :
    ∃ found, matchAll resistorEngine only4k7 bothRule'.conditions = .applies found := by
  have hvalue : matchAny resistorEngine only4k7 [text4k7, text4k7, text4k7] (candidatesOf FN) =
      .hit text4k7 [] := rfl
  change ∃ found, matchAll resistorEngine only4k7 [valueCondition, unitCondition] = .applies found
  rw [valueCondition, matchAll, hvalue]
  dsimp only
  rw [unitCondition, matchAll, matchAny_unit rfl]
  exact ⟨_, rfl⟩

theorem placed_of_resistorEngine {m1 : Word}
    (h : resistorEngine.first m1 s = some cvn) : Placed s 0 cvn := by
  change (if m1 = text4k7 then if s = text4k7 then some [] else none
    else if splitValue 82 s ≠ none then some [⟨82, 0, s.length⟩] else none) = some cvn at h
  split at h <;> split at h <;> cases h <;> constructor <;> simp

theorem placed_recorded {found : Table Word} {pattern : Pattern} {candidates : List Word}
    (h : recorded resistorEngine found pattern candidates = some (s, cvn)) : Placed s 0 cvn := by
  induction candidates with
  | nil => cases h
  | cons candidate candidates ih =>
    rw [recorded] at h
    cases hs : found candidate with
    | none =>
      rw [hs] at h
      exact ih h
    | some s' =>
      rw [hs] at h
      dsimp only at h
      cases hcvn : resistorEngine.first (pattern.getD 1 []) s' with
      | none =>
        rw [hcvn] at h
        exact ih h
      | some cvn' =>
        rw [hcvn] at h
        cases h
        exact placed_of_resistorEngine hcvn

def fieldRule : RuleEntry where
  conditions := [(FN, [[36, 82], [82], [82]])]
  assignments := [([84], [120])]
  halt := false
  conditions_distinct := by decide
  assignments_distinct := by decide

end Openmoko.Boom
