import Openmoko.Fped.Expand
import Mathlib.Data.List.TakeWhile
import Mathlib.Tactic.NormNum

/-!
# What a name expands to

A template is read from the left: characters stand for themselves and references for the values of
variables. The buffer always holds what was read, and its size is that of this text and of what is
left of the template.
-/

namespace Openmoko.Fped.Template

inductive Reference : List Char → Name → List Char → Prop
  | plain {var : Name} {rest : List Char} (hid : isId var = true)
      (hend : ∀ c ∈ rest.head?, isIdChar c false = false) : Reference (var ++ rest) var rest
  | braced {var : Name} {rest : List Char} (hid : isId var = true) :
      Reference ('{' :: var ++ '}' :: rest) var rest

def valueText (env : Environment) (var : Name) : Option (List Char) :=
  match env.evalStringVar var with
  | some string => some string
  | none => (env.evalVar var).map fun value => env.lg value.n ++ strUnit value

inductive Reads (env : Environment) (name : List Char) : List Char → List Char → Prop
  | start : Reads env name [] name
  | char {text rest : List Char} {c : Char} (h : Reads env name text (c :: rest)) (hc : c ≠ '$') :
      Reads env name (text ++ [c]) rest
  | reference {text s rest : List Char} {var : Name} {value : List Char}
      (h : Reads env name text ('$' :: s)) (href : Reference s var rest)
      (hvalue : valueText env var = some value) : Reads env name (text ++ value) rest

def Broken (env : Environment) (name : List Char) : Prop :=
  ∃ text s, Reads env name text ('$' :: s) ∧
    ∀ var rest, Reference s var rest → valueText env var = none

def HoldsString (buf : Buffer Char) (text : List Char) : Prop := buf.Holds (text ++ [NUL])

structure Expands (env : Environment) (name : List Char) : Prop where
  ends : (∃ buf, expand name (some env) = .ok buf) ∨
    ∃ error, expand name (some env) = .error (.failed error)
  exact : ∀ buf, expand name (some env) = .ok buf →
    ∃ text, Reads env name text [] ∧ HoldsString buf text
  fails : (∃ error, expand name (some env) = .error (.failed error)) ↔ Broken env name

/-- What was read and what is left, with the terminator, is never longer than an `int` can tell. -/
def Fits (env : Environment) (name : List Char) : Prop :=
  ∀ text rest, Reads env name text rest → (text.length : ℤ) + rest.length < INT_MAX

/-! ### References -/

theorem readId_of_isId {var rest : List Char} (hid : isId var = true)
    (hend : ∀ c ∈ rest.head?, isIdChar c false = false) : readId (var ++ rest) = var := by
  cases var with
  | nil => cases hid
  | cons c s =>
    rw [isId, Bool.and_eq_true] at hid
    rw [List.cons_append, readId, if_pos hid.1, List.takeWhile_append_of_pos]
    · cases rest with
      | nil => simp
      | cons d rest => rw [List.takeWhile_cons_of_neg (by simpa using hend d rfl), List.append_nil]
    · exact fun d hd => List.all_eq_true.mp hid.2 d hd

theorem drop_length_takeWhile (p : Char → Bool) (s : List Char) :
    s.drop (s.takeWhile p).length = s.dropWhile p := by
  have happend := List.takeWhile_append_dropWhile (p := p) (l := s)
  calc s.drop (s.takeWhile p).length
      = (s.takeWhile p ++ s.dropWhile p).drop (s.takeWhile p).length := by rw [happend]
    _ = s.dropWhile p := List.drop_left

theorem readId_begins (s : List Char) : readId s <+: s := by
  cases s with
  | nil => exact List.nil_prefix
  | cons c s =>
    rw [readId]
    split
    · exact List.cons_prefix_cons.mpr ⟨rfl, List.takeWhile_prefix _⟩
    · exact List.nil_prefix

theorem readId_spec {s : List Char} (h : readId s ≠ []) :
    isId (readId s) = true ∧ ∀ c ∈ (s.drop (readId s).length).head?, isIdChar c false = false := by
  cases s with
  | nil => exact absurd rfl h
  | cons c s =>
    rw [readId] at h ⊢
    split at h
    · next hc =>
      rw [if_pos hc]
      refine ⟨?_, fun d hd => ?_⟩
      · rw [isId, hc, Bool.true_and, List.all_eq_true]
        exact fun d hd => List.mem_takeWhile_imp (p := (isIdChar · false)) hd
      · have hnot := List.head?_dropWhile_not (isIdChar · false) s
        rw [List.length_cons, List.drop_succ_cons, drop_length_takeWhile] at hd
        rw [hd] at hnot
        simpa using hnot
    · exact absurd rfl h

theorem readBraced_of_id {var : Name} (first : Bool) (rest : List Char)
    (hhead : ∀ c ∈ var.head?, isIdChar c first = true)
    (htail : ∀ c ∈ var.tail, isIdChar c false = true) :
    readBraced first (var ++ '}' :: rest) = .ok (var, rest) := by
  have hbrace : ∀ first, isIdChar '}' first = false := by decide
  induction var generalizing first with
  | nil => rfl
  | cons c var ih =>
    have hc : isIdChar c first = true := hhead c rfl
    have hne : c ≠ '}' := by
      rintro rfl
      rw [hbrace] at hc
      cases hc
    have hrest := ih false (fun d hd => htail d (List.mem_of_mem_head? hd))
      fun d hd => htail d (List.mem_of_mem_tail hd)
    rw [List.cons_append, readBraced, if_neg hne, if_neg (by simp [hc]), hrest]

theorem readBraced_id {first : Bool} {s rest : List Char} {var : Name}
    (h : readBraced first s = .ok (var, rest)) :
    s = var ++ '}' :: rest ∧ (∀ c ∈ var.head?, isIdChar c first = true) ∧
      ∀ c ∈ var.tail, isIdChar c false = true := by
  induction s generalizing first var with
  | nil => cases h
  | cons c s ih =>
    rw [readBraced] at h
    split at h
    · next hc =>
      cases h
      refine ⟨by rw [hc]; rfl, ?_, ?_⟩ <;> intro d hd <;> cases hd
    · split at h
      · cases h
      · next hid =>
        split at h
        · next var' rest' heq =>
          cases h
          obtain ⟨rfl, hhead, htail⟩ := ih heq
          refine ⟨rfl, ?_, ?_⟩
          · rintro d ⟨rfl⟩
            simpa using hid
          · intro d hd
            rcases var' with - | ⟨e, var'⟩
            · cases hd
            · rcases List.mem_cons.mp hd with rfl | hd
              · exact hhead _ rfl
              · exact htail d hd
        · cases h

theorem isId_iff (var : Name) :
    isId var = true ↔ var ≠ [] ∧ (∀ c ∈ var.head?, isIdChar c true = true) ∧
      ∀ c ∈ var.tail, isIdChar c false = true := by
  cases var with
  | nil => simp [isId]
  | cons c var => simp [isId]

theorem readReference_of_ne_brace {s : List Char} (h : s.head? ≠ some '{') :
    readReference s =
      if readId s = [] then .error (if s ≠ [] then .invalidCharacter else .incompleteName)
      else .ok (readId s, (readId s).length + 1, s.drop (readId s).length) := by
  unfold readReference
  split
  · exact absurd rfl h
  · rfl

theorem readReference_of_reference {s rest : List Char} {var : Name} (h : Reference s var rest) :
    ∃ n : ℕ, readReference s = .ok (var, n, rest) ∧ n + rest.length = s.length + 1 := by
  cases h with
  | plain hid hend =>
    obtain ⟨hne, hhead, -⟩ := (isId_iff var).mp hid
    have hbrace : (var ++ rest).head? ≠ some '{' := by
      obtain ⟨c, var, rfl⟩ := List.exists_cons_of_ne_nil hne
      intro heq
      obtain rfl := Option.some.inj heq
      exact absurd (hhead '{' rfl) (by decide)
    refine ⟨var.length + 1, ?_, ?_⟩
    · rw [readReference_of_ne_brace hbrace, readId_of_isId hid hend, if_neg hne, List.drop_left]
    · rw [List.length_append]
      omega
  | braced hid =>
    obtain ⟨-, hhead, htail⟩ := (isId_iff var).mp hid
    refine ⟨var.length + 3, ?_, ?_⟩
    · rw [List.cons_append, readReference, readBraced_of_id true rest hhead htail]
    · rw [List.length_append, List.length_cons, List.length_cons]
      omega

variable {n : ℕ}

theorem reference_of_readReference {s rest : List Char} {var : Name}
    (h : readReference s = .ok (var, n, rest)) : var = [] ∨ Reference s var rest := by
  by_cases hvar : var = []
  · exact .inl hvar
  · right
    unfold readReference at h
    split at h
    · split at h
      · next heq =>
        cases h
        obtain ⟨rfl, hhead, htail⟩ := readBraced_id heq
        exact .braced ((isId_iff var).mpr ⟨hvar, hhead, htail⟩)
      · cases h
    · split at h
      · cases h
      · next hne =>
        cases h
        obtain ⟨hid, hend⟩ := readId_spec hne
        have hplain := Reference.plain hid hend
        rwa [List.prefix_iff_eq_append.mp (readId_begins s)] at hplain

theorem toInt_of_le {n : ℤ} (hnonneg : 0 ≤ n) (hmax : n ≤ INT_MAX) : toInt n = .ok n := by
  rw [toInt, if_pos]
  rw [INT_MIN]
  omega

theorem toInt_of_gt {n : ℤ} (h : INT_MAX < n) : toInt n = .error .overflow := by
  rw [toInt, if_neg]
  omega

theorem length_strUnit_le {n : Num} (hmin : INT_MIN ≤ n.exponent) (hmax : n.exponent ≤ INT_MAX) :
    (strUnit n).length ≤ 15 := by
  have hdigits : (Nat.toDigits 10 n.exponent.natAbs).length ≤ 10 := by
    apply Nat.toDigits_length 10 _ _ (by decide)
    rw [INT_MIN] at hmin
    rw [INT_MAX] at hmax
    omega
  have hformat : (formatExponent n.exponent).length ≤ 11 := by
    rw [formatExponent, List.length_append]
    split
    · rw [List.length_singleton]
      omega
    · rw [List.length_nil]
      omega
  unfold strUnit
  cases n.type <;> dsimp only <;> split_ifs <;> simp <;> omega

theorem valueString_eq (env : Environment) (var : Name) :
    valueString env var = (valueText env var).map fun text => (text.length, text) := by
  unfold valueString valueText
  cases env.evalStringVar var with
  | some string => rfl
  | none =>
    cases hvar : env.evalVar var with
    | none => rfl
    | some value =>
      obtain ⟨hmin, hmax⟩ := env.exponentInt var value hvar
      have hlg := env.lgShort value.n
      have hunit := length_strUnit_le hmin hmax
      have htake : (env.lg value.n ++ strUnit value).take (NUM_BUF_SIZE - 1) =
          env.lg value.n ++ strUnit value := by
        apply List.take_of_length_le
        rw [List.length_append, NUM_BUF_SIZE]
        omega
      dsimp only [Option.map_some]
      rw [htake]

theorem valueText_nil (env : Environment) : valueText env [] = none := by
  have hstring : env.evalStringVar [] = none := by
    by_contra h
    cases env.named [] (.inl h)
  have hnum : env.evalVar [] = none := by
    by_contra h
    cases env.named [] (.inr h)
  rw [valueText, hstring, hnum]
  rfl

/-! ### The buffer -/

structure Standing (text rest : List Char) (st : Expansion) : Prop where
  len : st.len = text.length + rest.length
  i : st.i = text.length
  size : st.buf.length = text.length + rest.length + 1
  holds : st.buf.Holds text

section Standing

variable {text rest s : List Char} {st : Expansion}

theorem Standing.index (h : Standing text rest st) : st.i.toNat = text.length := by
  rw [h.i, Int.toNat_natCast]

theorem Standing.put {c : Char} (h : Standing text (c :: rest) st)
    (hfits : (text.length : ℤ) + (c :: rest).length < INT_MAX) :
    ∃ st', st.put c = .ok st' ∧ Standing (text ++ [c]) rest st' := by
  have hsize := h.size
  rw [List.length_cons] at hsize hfits
  obtain ⟨buf, hwrite, hholds, hlength⟩ := h.holds.write (by omega) c
  have hi : toInt (st.i + 1) = .ok (st.i + 1) := by
    apply toInt_of_le <;> rw [h.i] <;> push_cast at hfits <;> omega
  refine ⟨{ st with buf, i := st.i + 1 }, ?_, ?_⟩
  · rw [Expansion.put, h.index, hwrite]
    dsimp only
    rw [hi]
    rfl
  · constructor
    · have hlen := h.len
      rw [List.length_cons] at hlen
      rw [List.length_append, List.length_singleton]
      push_cast at hlen ⊢
      omega
    · rw [h.i, List.length_append, List.length_singleton]
      push_cast
      rfl
    · rw [List.length_append, List.length_singleton, hlength]
      omega
    · exact hholds

theorem Standing.close (h : Standing text [] st) :
    ∃ buf, st.close = .ok buf ∧ HoldsString buf text := by
  have hsize := h.size
  rw [List.length_nil] at hsize
  obtain ⟨buf, hwrite, hholds, -⟩ := h.holds.write (by omega) NUL
  exact ⟨buf, by rw [Expansion.close, h.index, hwrite], hholds⟩

theorem allocSize_of_lt (h : (n : ℤ) < INT_MAX) : Expansion.allocSize n = .ok (n + 1) := by
  rw [Expansion.allocSize, toInt_of_le (by omega) (by omega)]
  change (if (n : ℤ) + 1 < 0 then Except.error ExpandStop.aborted else .ok ((n : ℤ) + 1).toNat) = _
  rw [if_neg (by omega)]
  rfl

theorem Standing.len_value (h : Standing text ('$' :: s) st)
    (hn : n + rest.length = s.length + 1) (value : List Char) :
    st.len - n + value.length = ((text.length + value.length + rest.length : ℕ) : ℤ) := by
  have hlen := h.len
  rw [List.length_cons] at hlen
  push_cast at hlen ⊢
  omega

theorem putValue_eq {length size : ℕ} {string : List Char} {valueLen len i : ℤ} {buf : Buffer Char}
    (hvalue : toInt length = .ok valueLen) (hlen : toInt (st.len + valueLen) = .ok len)
    (hsize : Expansion.allocSize len = .ok size)
    (hwrite : (st.buf.realloc size).writeAll st.i.toNat (string ++ [NUL]) = some buf)
    (hi : toInt (st.i + valueLen) = .ok i) : st.putValue length string = .ok ⟨len, i, buf⟩ := by
  rw [Expansion.putValue, hvalue]
  simp only [bind, Except.bind]
  rw [hlen]
  simp only
  rw [hsize]
  simp only
  rw [hwrite]
  simp only
  rw [hi]
  rfl

theorem Standing.putValue {value : List Char} (h : Standing text ('$' :: s) st)
    (hn : n + rest.length = s.length + 1)
    (hfits : ((text ++ value).length : ℤ) + rest.length < INT_MAX) :
    ∃ st', { st with len := st.len - n }.putValue value.length value = .ok st' ∧
      Standing (text ++ value) rest st' := by
  rw [List.length_append] at hfits
  push_cast at hfits
  have hlen := h.len_value hn value
  have hvalue : toInt value.length = .ok (value.length : ℤ) :=
    toInt_of_le (by omega) (by omega)
  have hsum : toInt (st.len - n + value.length) =
      .ok ((text.length + value.length + rest.length : ℕ) : ℤ) := by
    rw [hlen]
    apply toInt_of_le <;> push_cast <;> omega
  have hsize := allocSize_of_lt (n := text.length + value.length + rest.length)
    (by push_cast; omega)
  have hi : toInt (st.i + value.length) = .ok (st.i + value.length) := by
    apply toInt_of_le <;> rw [h.i] <;> omega
  have hrealloc : (st.buf.realloc (text.length + value.length + rest.length + 1)).Holds text :=
    h.holds.realloc (by omega)
  have hroom : text.length + (value ++ [NUL]).length ≤
      (st.buf.realloc (text.length + value.length + rest.length + 1)).length := by
    rw [Buffer.length_realloc, List.length_append, List.length_singleton]
    omega
  obtain ⟨buf, hwrite, hholds, hlength⟩ := hrealloc.writeAll hroom
  rw [Buffer.length_realloc] at hlength
  have hindex : (st.buf.realloc (text.length + value.length + rest.length + 1)).writeAll
      st.i.toNat (value ++ [NUL]) = some buf := by
    rw [h.index]
    exact hwrite
  refine ⟨_, putValue_eq hvalue hsum hsize hindex hi, ?_⟩
  refine ⟨?_, ?_, ?_, ?_⟩
  · rw [List.length_append]
    push_cast
    rfl
  · rw [h.i, List.length_append]
    push_cast
    rfl
  · rw [hlength, List.length_append]
  · apply hholds.of_prefix
    rw [← List.append_assoc]
    exact List.prefix_append _ _

theorem Standing.putValue_overflow {value : List Char} (h : Standing text ('$' :: s) st)
    (hn : n + rest.length = s.length + 1)
    (hlong : ¬((text ++ value).length : ℤ) + rest.length < INT_MAX) :
    { st with len := st.len - n }.putValue value.length value = .error .overflow := by
  rw [List.length_append] at hlong
  push_cast at hlong
  have hlen := h.len_value hn value
  rcases lt_or_ge INT_MAX (value.length : ℤ) with hvalue | hvalue
  · rw [Expansion.putValue, toInt_of_gt hvalue]
    rfl
  · have hvalue' : toInt value.length = .ok (value.length : ℤ) := toInt_of_le (by omega) hvalue
    rcases lt_or_ge INT_MAX (st.len - n + value.length) with hsum | hsum
    · simp only [Expansion.putValue, hvalue', bind, Except.bind, toInt_of_gt hsum]
    · -- the length fits, and one more for the terminator does not
      have hsum' := toInt_of_le (by rw [hlen]; omega) hsum
      have hsize : toInt (st.len - n + value.length + 1) = .error .overflow := by
        apply toInt_of_gt
        rw [hlen]
        push_cast
        omega
      simp only [Expansion.putValue, Expansion.allocSize, hvalue', hsum', hsize, bind, Except.bind]

end Standing

/-! ### The loop -/

section Loop

variable {env : Environment} {name text rest s : List Char} {st : Expansion} {var : Name}

variable {frame : Option Environment}

theorem expandFrom_char {c : Char} (hc : c ≠ '$') :
    expandFrom frame (c :: s) st = st.put c >>= expandFrom frame s := by
  rw [expandFrom, if_pos hc]

theorem expandFrom_reference (href : readReference s = .ok (var, n, rest)) :
    expandFrom (some env) ('$' :: s) st =
      match valueString env var with
      | none => .error (.failed (.undefinedVariable var))
      | some (length, string) =>
        { st with len := st.len - n }.putValue length string >>= expandFrom (some env) rest := by
  rw [expandFrom, if_neg (by simp)]
  split
  · next e heq =>
    rw [href] at heq
    cases heq
  · next heq =>
    rw [href] at heq
    cases heq
    rfl

theorem expandFrom_stop {e : ExpandError} (href : readReference s = .error e) :
    expandFrom frame ('$' :: s) st = .error (.failed e) := by
  rw [expandFrom, if_neg (by simp)]
  split
  · next heq =>
    rw [href] at heq
    cases heq
    rfl
  · next heq =>
    rw [href] at heq
    cases heq

theorem expandFrom_broken
    (hbroken : ∀ var rest, Reference s var rest → valueText env var = none) :
    ∃ error, expandFrom (some env) ('$' :: s) st = .error (.failed error) := by
  cases href : readReference s with
  | error e => exact ⟨e, expandFrom_stop href⟩
  | ok r =>
    obtain ⟨var, n, rest⟩ := r
    have hvalue : valueText env var = none := by
      rcases reference_of_readReference href with rfl | hreference
      · exact valueText_nil env
      · exact hbroken var rest hreference
    rw [expandFrom_reference href, valueString_eq, hvalue]
    exact ⟨_, rfl⟩

theorem expand_eq {len : ℤ} {size : ℕ}
    (hlen : toInt name.length = .ok len) (hsize : Expansion.allocSize len = .ok size) :
    expand name frame = expandFrom frame name ⟨len, 0, Buffer.alloc size⟩ := by
  rw [expand, hlen]
  simp only [bind, Except.bind]
  rw [hsize]

theorem expand_stop {len : ℤ} {stop : ExpandStop}
    (hlen : toInt name.length = .ok len) (hsize : Expansion.allocSize len = .error stop) :
    expand name frame = .error stop := by
  rw [expand, hlen]
  simp only [bind, Except.bind]
  rw [hsize]

theorem expand_start (env : Environment) (name : List Char) :
    expand name (some env) = .error .overflow ∧ ¬(name.length : ℤ) < INT_MAX ∨
      (name.length : ℤ) < INT_MAX ∧ ∃ st, Standing [] name st ∧
        expand name (some env) = expandFrom (some env) name st := by
  rcases lt_or_ge (name.length : ℤ) INT_MAX with hfits | hlong
  · have hlen := toInt_of_le (n := name.length) (by omega) (by omega)
    refine .inr ⟨hfits, _, ?_, expand_eq hlen (allocSize_of_lt hfits)⟩
    refine ⟨?_, rfl, ?_, Buffer.holds_nil _⟩
    · rw [List.length_nil, Int.natCast_zero, Int.zero_add]
    · rw [Buffer.length_alloc, List.length_nil, Nat.zero_add]
  · refine .inl ⟨?_, by omega⟩
    rcases lt_or_ge INT_MAX (name.length : ℤ) with hlen | hlen
    · rw [expand, toInt_of_gt hlen]
      rfl
    · have hsize : Expansion.allocSize name.length = .error .overflow := by
        rw [Expansion.allocSize, toInt_of_gt (by omega)]
        rfl
      exact expand_stop (toInt_of_le (by omega) hlen) hsize

/-- **The run follows the reading of the template**, until something is too long. -/
theorem Reads.run (h : Reads env name text rest) :
    expand name (some env) = .error .overflow ∧ ¬Fits env name ∨
      (text.length : ℤ) + rest.length < INT_MAX ∧ ∃ st, Standing text rest st ∧
        expand name (some env) = expandFrom (some env) rest st := by
  induction h with
  | start =>
    rcases expand_start env name with ⟨hoverflow, hlong⟩ | ⟨hfits, st, hst, hrun⟩
    · refine .inl ⟨hoverflow, fun hall => hlong ?_⟩
      simpa using hall [] name .start
    · exact .inr ⟨by simpa using hfits, st, hst, hrun⟩
  | @char text rest c h hc ih =>
    rcases ih with hoverflow | ⟨hfits, st, hst, hrun⟩
    · exact .inl hoverflow
    · obtain ⟨st', hput, hst'⟩ := hst.put hfits
      refine .inr ⟨?_, st', hst', ?_⟩
      · rw [List.length_append, List.length_singleton]
        rw [List.length_cons] at hfits
        push_cast at hfits ⊢
        omega
      · rw [hrun, expandFrom_char hc, hput]
        rfl
  | @reference text s rest var value h href hvalue ih =>
    rcases ih with hoverflow | ⟨hfits, st, hst, hrun⟩
    · exact .inl hoverflow
    · obtain ⟨n, hread, hn⟩ := readReference_of_reference href
      have hstep : expand name (some env) =
          { st with len := st.len - n }.putValue value.length value >>=
            expandFrom (some env) rest := by
        rw [hrun, expandFrom_reference hread, valueString_eq, hvalue]
        rfl
      by_cases hlong : ((text ++ value).length : ℤ) + rest.length < INT_MAX
      · obtain ⟨st', hput, hst'⟩ := hst.putValue hn hlong
        refine .inr ⟨hlong, st', hst', ?_⟩
        rw [hstep, hput]
        rfl
      · refine .inl ⟨?_, fun hall => hlong (hall _ _ (.reference h href hvalue))⟩
        rw [hstep, hst.putValue_overflow hn hlong]
        rfl

theorem Reads.complete (h : Reads env name text rest) :
    (∃ text, Reads env name text []) ∨ Broken env name := by
  induction hlength : rest.length using Nat.strong_induction_on generalizing text rest with
  | _ n ih =>
    cases rest with
    | nil => exact .inl ⟨text, h⟩
    | cons c rest =>
      subst hlength
      by_cases hc : c = '$'
      · obtain rfl := hc
        by_cases hbroken : ∀ var rest', Reference rest var rest' → valueText env var = none
        · exact .inr ⟨text, rest, h, hbroken⟩
        · push Not at hbroken
          obtain ⟨var, rest', href, hvalue⟩ := hbroken
          obtain ⟨value, hvalue⟩ := Option.ne_none_iff_exists'.mp hvalue
          obtain ⟨n, hread, -⟩ := readReference_of_reference href
          have hle := length_readReference hread
          exact ih rest'.length (by rw [List.length_cons]; omega) (.reference h href hvalue) rfl
      · exact ih rest.length (by rw [List.length_cons]; omega) (.char h hc) rfl

theorem Expands.fits (h : Expands env name) : Fits env name := by
  intro text rest hreads
  rcases hreads.run with ⟨hoverflow, -⟩ | ⟨hfits, -⟩
  · rcases h.ends with ⟨buf, hbuf⟩ | ⟨e, he⟩
    · rw [hoverflow] at hbuf
      cases hbuf
    · rw [hoverflow] at he
      cases he
  · exact hfits

end Loop

theorem expands_iff (env : Environment) (name : List Char) :
    Expands env name ↔ Fits env name := by
  constructor
  · exact Expands.fits
  · intro h
    have hcomplete := Reads.complete (Reads.start : Reads env name [] name)
    have hbroken : Broken env name →
        ∃ error, expand name (some env) = .error (.failed error) := by
      rintro ⟨text, s, hreads, hstuck⟩
      rcases hreads.run with ⟨-, hlong⟩ | ⟨-, st, -, hrun⟩
      · exact absurd h hlong
      · rw [hrun]
        exact expandFrom_broken hstuck
    have hreads : ∀ text, Reads env name text [] →
        ∃ buf, expand name (some env) = .ok buf ∧ HoldsString buf text := by
      intro text hreads
      rcases hreads.run with ⟨-, hlong⟩ | ⟨-, st, hst, hrun⟩
      · exact absurd h hlong
      · rw [hrun, expandFrom]
        exact hst.close
    constructor
    · rcases hcomplete with ⟨text, htext⟩ | hstuck
      · obtain ⟨buf, hbuf, -⟩ := hreads text htext
        exact .inl ⟨buf, hbuf⟩
      · exact .inr (hbroken hstuck)
    · intro buf hbuf
      rcases hcomplete with ⟨text, htext⟩ | hstuck
      · obtain ⟨buf', hbuf', hholds⟩ := hreads text htext
        obtain rfl := Except.ok.inj (hbuf.symm.trans hbuf')
        exact ⟨text, htext, hholds⟩
      · obtain ⟨e, he⟩ := hbroken hstuck
        rw [hbuf] at he
        cases he
    · refine ⟨?_, hbroken⟩
      rintro ⟨e, he⟩
      rcases hcomplete with ⟨text, htext⟩ | hstuck
      · obtain ⟨buf, hbuf, -⟩ := hreads text htext
        rw [hbuf] at he
        cases he
      · exact hstuck

def stringEnvironment (string : List Char) : Environment where
  evalVar := fun _ => none
  evalStringVar := fun name => if name = ['a'] then some string else none
  lg := fun _ => []
  lgShort := by simp
  exponentInt := nofun
  named := by
    rintro name (h | h)
    · have hname : name = ['a'] := by
        by_contra hne
        exact h (if_neg hne)
      rw [hname]
      rfl
    · exact absurd rfl h

theorem not_expands_of_long (string : List Char) (hlong : INT_MAX ≤ 2 * (string.length : ℤ)) :
    ¬Expands (stringEnvironment string) ['$', 'a', '$', 'a'] := by
  intro h
  have hvalue : valueText (stringEnvironment string) ['a'] = some string := rfl
  have hend : ∀ c ∈ ['$', 'a'].head?, isIdChar c false = false := by
    intro c hc
    obtain rfl := Option.some.inj hc
    rfl
  have hlast : Reference ['a'] ['a'] [] := by
    have hplain : Reference (['a'] ++ []) ['a'] [] := .plain rfl nofun
    exact hplain
  have hfirst := Reads.reference .start (Reference.plain rfl hend) hvalue
  have hsecond := Reads.reference hfirst hlast hvalue
  have hlength := h.fits _ _ hsecond
  simp only [List.length_append, List.length_nil] at hlength
  omega

/-- Twice 1 GiB are more characters than an `int` can count. -/
theorem not_expands_twice :
    ¬Expands (stringEnvironment (List.replicate (2 ^ 30) 'x')) ['$', 'a', '$', 'a'] := by
  apply not_expands_of_long
  rw [List.length_replicate, INT_MAX]
  norm_num

end Openmoko.Fped.Template
