import Mathlib.Tactic.Ring
import Openmoko.Library.CString

/-!
# Reading lines (`opkg_utils.c`, `file_util.c`)

A stream is what is left to be read of it, and memory does not run out. The size that `fgets` takes
is an `int`, while `read_raw_pkgs_from_stream` keeps its own in a `size_t`.
-/

namespace Openmoko.Opkg

def takeLine : ℕ → List Byte → List Byte × List Byte
  | 0, stream => ([], stream)
  | _ + 1, [] => ([], [])
  | n + 1, c :: stream =>
    if c = LF then ([c], stream) else (c :: (takeLine n stream).1, (takeLine n stream).2)

def fgets (size : ℤ) (fp : List Byte) : Option (List Byte × List Byte) :=
  if size ≤ 1 ∨ fp = [] then none else some (takeLine (size - 1).toNat fp)

theorem length_takeLine_snd (n : ℕ) (fp : List Byte) : (takeLine n fp).2.length ≤ fp.length := by
  fun_induction takeLine n fp <;> grind

theorem length_of_fgets {size : ℤ} {fp rest chunk : List Byte}
    (h : fgets size fp = some (chunk, rest)) : rest.length < fp.length := by
  rw [fgets] at h
  split at h
  · cases h
  next hread =>
    obtain ⟨hsize, hfp⟩ := not_or.mp hread
    obtain ⟨n, hn⟩ : ∃ n, (size - 1).toNat = n + 1 := ⟨(size - 1).toNat - 1, by omega⟩
    obtain ⟨c, fp, rfl⟩ := List.exists_cons_of_ne_nil hfp
    have hlength := length_takeLine_snd n fp
    rw [hn, takeLine, Option.some.injEq] at h
    split at h <;> cases h <;> simp only [List.length_cons] <;> omega

def toInt (n : ℕ) : ℤ :=
  if n % 4294967296 < 2147483648 then ↑(n % 4294967296) else ↑(n % 4294967296) - 4294967296

def growLine (size : ℕ) (buf fp : List Byte) : ℕ × List Byte × List Byte :=
  if buf.length = size - 1 ∧ buf[size - 2]? ≠ some LF then
    match h : fgets (toInt (size * 2 - (size - 1))) fp with
    | none => (size * 2, buf, fp)
    | some (chunk, rest) => growLine (size * 2) (buf ++ cstr chunk) rest
  else
    (size, buf, fp)
termination_by fp.length
decreasing_by exact length_of_fgets h

theorem length_growLine (size : ℕ) (buf fp : List Byte) :
    (growLine size buf fp).2.2.length ≤ fp.length := by
  fun_induction growLine size buf fp with
  | case1 => exact le_rfl
  | case2 size buf fp _ chunk rest h ih => exact ih.trans (length_of_fgets h).le
  | case3 => exact le_rfl

def chomp (line : List Byte) : List Byte := line.takeWhile (· ≠ LF)

/-- `read_raw_pkgs_from_stream`; the buffer keeps its size from line to line. The `int` in which it
counts the lines is left out. -/
def readRawPkgsFromStream (size : ℕ) (fp : List Byte) : List (List Byte) :=
  match _hread : fgets (toInt size) fp with
  | none => []
  | some (chunk, rest) =>
    let grown := growLine size (cstr chunk) rest
    chomp grown.2.1 :: readRawPkgsFromStream grown.1 grown.2.2
termination_by fp.length
decreasing_by exact (length_growLine size (cstr chunk) rest).trans_lt (length_of_fgets _hread)

def FILE_READ_LINE_BUF_SIZE : ℕ := 1024

def fileReadLineAlloc (line : Option (List Byte)) (fp : List Byte) :
    Option (List Byte) × List Byte :=
  match h : fgets FILE_READ_LINE_BUF_SIZE fp with
  | none => (line, fp)
  | some (chunk, rest) =>
    let read := line.getD [] ++ cstr chunk
    if line.isSome ∧ 2 ^ 31 ≤ read.length + 1 then (none, rest)
    else if (cstr chunk).getLast? = some LF then (some read, rest)
    else fileReadLineAlloc (some read) rest
termination_by fp.length
decreasing_by exact length_of_fgets h

theorem length_fileReadLineAlloc (line : Option (List Byte)) (fp : List Byte) :
    (fileReadLineAlloc line fp).2.length ≤ fp.length := by
  fun_induction fileReadLineAlloc line fp with
  | case1 => exact le_rfl
  | case2 line fp chunk rest h => exact (length_of_fgets h).le
  | case3 line fp chunk rest h => exact (length_of_fgets h).le
  | case4 line fp chunk rest h _ _ _ ih => exact ih.trans (length_of_fgets h).le

theorem length_of_line {fp line : List Byte} (h : (fileReadLineAlloc none fp).1 = some line) :
    (fileReadLineAlloc none fp).2.length < fp.length := by
  rw [fileReadLineAlloc] at h ⊢
  split
  next hread =>
    split at h
    · cases h
    next hread' => cases hread.symm.trans hread'
  next chunk rest hread =>
    have hshorter := length_of_fgets hread
    simp only [Option.isSome_none, Bool.false_eq_true, false_and, if_false]
    split
    · exact hshorter
    · exact (length_fileReadLineAlloc _ rest).trans_lt hshorter

/-- The calls of `file_read_line_alloc` until one gives `NULL`. -/
def readLines (fp : List Byte) : List (List Byte) :=
  match _hline : (fileReadLineAlloc none fp).1 with
  | none => []
  | some line => line :: readLines (fileReadLineAlloc none fp).2
termination_by fp.length
decreasing_by exact length_of_line _hline

/-- Each with the newline that ends it; the last may have none. -/
def linesOf : List Byte → List (List Byte)
  | [] => []
  | c :: stream =>
    if c = LF then
      [c] :: linesOf stream
    else
      match linesOf stream with
      | [] => [[c]]
      | line :: lines => (c :: line) :: lines

/-- Only the last byte of the line may be a newline, and is one unless nothing follows. -/
structure FirstLine (line rest : List Byte) : Prop where
  notMem : LF ∉ line.dropLast
  ended : line.getLast? = some LF ∨ rest = []

variable {stream : List Byte} {n k : ℕ}

theorem exists_firstLine (hne : stream ≠ []) :
    ∃ line rest, stream = line ++ rest ∧ line ≠ [] ∧ FirstLine line rest ∧
      linesOf stream = line :: linesOf rest := by
  induction stream with
  | nil => exact absurd rfl hne
  | cons c stream ih =>
    by_cases hc : c = LF
    · subst hc
      exact ⟨[LF], stream, rfl, by simp, ⟨by simp, .inl rfl⟩, by simp [linesOf]⟩
    by_cases hstream : stream = []
    · subst hstream
      exact ⟨[c], [], rfl, by simp, ⟨by simp, .inr rfl⟩, by simp [linesOf, hc]⟩
    obtain ⟨line, rest, rfl, hline, hfirst, hlines⟩ := ih hstream
    refine ⟨c :: line, rest, rfl, by simp, ⟨?_, ?_⟩, by rw [linesOf, if_neg hc, hlines]⟩
    · simpa [List.dropLast_cons_of_ne_nil hline, Ne.symm hc] using hfirst.notMem
    · simpa [List.getLast?_cons_of_ne_nil hline] using hfirst.ended

theorem linesOf_append {text : List Byte} (htext : LF ∉ text) (rest : List Byte) :
    linesOf (text ++ LF :: rest) = (text ++ [LF]) :: linesOf rest := by
  induction text with
  | nil => simp [linesOf]
  | cons c text ih =>
    rw [List.mem_cons, not_or] at htext
    rw [List.cons_append, linesOf, if_neg (Ne.symm htext.1), ih htext.2]
    rfl

section FirstLine

variable {line rest : List Byte}

theorem FirstLine.notMem_take (hline : FirstLine line rest) (hn : n < line.length) :
    LF ∉ line.take n := by
  intro hmem
  apply hline.notMem
  rw [List.dropLast_eq_take]
  exact (List.take_subset_take_left line (by omega)) hmem

theorem FirstLine.drop (hline : FirstLine line rest) (hn : n < line.length) :
    FirstLine (line.drop n) rest where
  notMem hmem := by
    rw [List.dropLast_eq_take, List.length_drop, List.take_drop] at hmem
    apply hline.notMem_take (n := n + (line.length - n - 1)) (by omega)
    exact List.mem_of_mem_drop hmem
  ended := by
    rw [List.getLast?_drop, if_neg (by omega)]
    exact hline.ended

theorem takeLine_line (hline : FirstLine line rest) (n : ℕ) :
    takeLine n (line ++ rest) = (line.take n, line.drop n ++ rest) := by
  induction line generalizing n with
  | nil =>
    obtain rfl : rest = [] := by simpa using hline.ended
    cases n <;> rfl
  | cons c line ih =>
    cases n with
    | zero => rfl
    | succ n =>
      rw [List.cons_append, takeLine]
      cases line with
      | nil =>
        split
        · simp
        next hc =>
          obtain rfl : rest = [] := by simpa [hc] using hline.ended
          cases n <;> simp [takeLine]
      | cons d line =>
        have hc : c ≠ LF := by
          intro heq
          exact hline.notMem (by simp [heq])
        rw [if_neg hc, ih (hline.drop (n := 1) (by simp))]
        rfl

theorem fgets_line (hline : FirstLine line rest) (hne : line ≠ []) {size : ℕ} (hsize : 1 < size) :
    fgets size (line ++ rest) =
      some (line.take (size - 1), line.drop (size - 1) ++ rest) := by
  have htoNat : ((size : ℤ) - 1).toNat = size - 1 := by omega
  rw [fgets, if_neg (by simp [hne]; omega), htoNat, takeLine_line hline]

end FirstLine

theorem fgets_nil (size : ℤ) : fgets size [] = none := if_pos (.inr rfl)

theorem toInt_of_lt (hn : n < 2 ^ 31) : toInt n = n := by
  rw [toInt, if_pos (by omega)]
  omega

theorem growLine_line {line rest : List Byte} (hline : FirstLine line rest) (hnul : NUL ∉ line)
    (hlength : line.length ≤ 2 ^ 30) (hk : 1 ≤ k) (hk31 : k ≤ 31)
    (hk30 : line.length < 2 ^ 30 → k ≤ 30 ∨ rest = []) :
    ∃ m ≤ 31, growLine (2 ^ k) (line.take (2 ^ k - 1)) (line.drop (2 ^ k - 1) ++ rest) =
        (2 ^ m, line, rest) ∧
      1 ≤ m ∧ line.length < 2 ^ m ∧ (line.length < 2 ^ 30 → m ≤ 30 ∨ rest = []) := by
  induction hleft : 31 - k using Nat.strong_induction_on generalizing k with
  | _ left ih =>
    subst hleft
    have htwo : 2 ≤ 2 ^ k := Nat.pow_le_pow_right Nat.two_pos hk
    have hdouble : 2 ^ (k + 1) = 2 ^ k * 2 := pow_succ 2 k
    rw [growLine]
    by_cases hshort : line.length < 2 ^ k - 1
    · rw [List.take_of_length_le hshort.le, List.drop_of_length_le hshort.le,
        if_neg fun h => hshort.ne h.1]
      exact ⟨k, hk31, rfl, hk, by omega, hk30⟩
    have hfull : (line.take (2 ^ k - 1)).length = 2 ^ k - 1 := by
      rw [List.length_take]
      omega
    have hlast : k ≤ 30 := by
      by_contra hlarge
      obtain rfl : k = 31 := by omega
      omega
    have hpow : 2 ^ k ≤ 2 ^ 30 := Nat.pow_le_pow_right Nat.two_pos hlast
    have hsize : toInt (2 ^ k * 2 - (2 ^ k - 1)) = (2 ^ k + 1 : ℕ) := by
      rw [toInt_of_lt (by omega)]
      omega
    by_cases hmore : 2 ^ k - 1 < line.length
    · have hcond : (line.take (2 ^ k - 1))[2 ^ k - 2]? ≠ some LF :=
        fun h => hline.notMem_take hmore (List.mem_of_getElem? h)
      have hread := fgets_line (hline.drop hmore) (List.ne_nil_of_length_pos (by simpa using hmore))
        (show 1 < 2 ^ k + 1 by omega)
      rw [if_pos ⟨hfull, hcond⟩, hsize]
      split
      next hnone => cases hread.symm.trans hnone
      next chunk fp hsome =>
        obtain ⟨rfl, rfl⟩ : _ ∧ _ := by simpa using hread.symm.trans hsome
        have hnul' : NUL ∉ (line.drop (2 ^ k - 1)).take (2 ^ k) :=
          fun hmem => hnul (List.mem_of_mem_drop (List.mem_of_mem_take hmem))
        have hsum : 2 ^ k - 1 + 2 ^ k = 2 ^ (k + 1) - 1 := by omega
        rw [cstr_eq_self hnul', ← List.take_add, hsum, ← hdouble]
        have hlarge : line.length < 2 ^ 30 → k < 30 := by
          intro hlt
          by_contra hge
          obtain rfl : k = 30 := by omega
          omega
        exact ih _ (by omega) (by omega) (by omega) (fun hlt => .inl (hlarge hlt)) rfl
    · have hexact : line.length = 2 ^ k - 1 := by omega
      rw [List.take_of_length_le hexact.le, List.drop_of_length_le hexact.le]
      rcases hline.ended with hended | rfl
      · rw [List.getLast?_eq_getElem?, hexact, Nat.sub_sub] at hended
        rw [if_neg fun h => h.2 hended]
        exact ⟨k, hk31, rfl, hk, by omega, hk30⟩
      · split
        · split
          next =>
            refine ⟨k + 1, by omega, ?_, by omega, by omega, fun _ => .inr rfl⟩
            rw [hdouble]
            rfl
          next hsome => cases (fgets_nil _).symm.trans hsome
        · exact ⟨k, hk31, rfl, hk, by omega, fun _ => .inr rfl⟩

theorem readRaw_line {line rest : List Byte} (hline : FirstLine line rest) (hne : line ≠ [])
    (hnul : NUL ∉ line) (hlength : line.length ≤ 2 ^ 30) (hk : 1 ≤ k) (hk30 : k ≤ 30) :
    ∃ m ≤ 31, readRawPkgsFromStream (2 ^ k) (line ++ rest) =
        chomp line :: readRawPkgsFromStream (2 ^ m) rest ∧
      1 ≤ m ∧ line.length < 2 ^ m ∧ (line.length < 2 ^ 30 → m ≤ 30 ∨ rest = []) := by
  have htwo : 2 ≤ 2 ^ k := Nat.pow_le_pow_right Nat.two_pos hk
  have hpow : 2 ^ k ≤ 2 ^ 30 := Nat.pow_le_pow_right Nat.two_pos hk30
  have hread := fgets_line hline hne (show 1 < 2 ^ k by omega)
  obtain ⟨m, hm, hgrown, hrest⟩ :=
    growLine_line hline hnul hlength hk (by omega) fun _ => .inl hk30
  refine ⟨m, hm, ?_, hrest⟩
  rw [readRawPkgsFromStream, toInt_of_lt (by omega)]
  split
  next hnone => cases hread.symm.trans hnone
  next chunk fp hsome =>
    obtain ⟨rfl, rfl⟩ : _ ∧ _ := by simpa using hread.symm.trans hsome
    rw [cstr_eq_self fun hmem => hnul (List.mem_of_mem_take hmem), hgrown]

theorem readRaw_of_nil {size : ℕ} (h : fgets (toInt size) stream = none) :
    readRawPkgsFromStream size stream = [] := by
  rw [readRawPkgsFromStream]
  split
  · rfl
  next hsome => cases h.symm.trans hsome

theorem readRaw_eq (hnul : NUL ∉ stream)
    (hshort : ∀ line ∈ linesOf stream, line.length < 2 ^ 30) (hk : 1 ≤ k)
    (hk30 : k ≤ 30 ∨ stream = []) :
    readRawPkgsFromStream (2 ^ k) stream = (linesOf stream).map chomp := by
  induction hlength : stream.length using Nat.strong_induction_on generalizing stream k with
  | _ length ih =>
    by_cases hne : stream = []
    · subst hne
      rw [readRaw_of_nil (fgets_nil _)]
      rfl
    obtain ⟨line, rest, rfl, hline, hfirst, hlines⟩ := exists_firstLine hne
    rw [hlines, List.forall_mem_cons] at hshort
    obtain ⟨hline30, hshort⟩ := hshort
    rw [List.mem_append, not_or] at hnul
    obtain ⟨m, -, hread, hm, -, hm30⟩ :=
      readRaw_line hfirst hline hnul.1 hline30.le hk (hk30.resolve_right hne)
    have hless : rest.length < length := by
      have := List.length_pos_of_ne_nil hline
      simp at hlength
      omega
    rw [hread, hlines, List.map_cons, ih _ hless hnul.2 hshort hm (hm30 hline30) rfl]

theorem fileReadLineAlloc_line {line rest : List Byte} (hline : FirstLine line rest)
    (hne : line ≠ []) (hnul : NUL ∉ line) (read : Option (List Byte))
    (hsize : (read.getD []).length + line.length + 1 < 2 ^ 31) :
    fileReadLineAlloc read (line ++ rest) = (some (read.getD [] ++ line), rest) := by
  induction hlength : line.length using Nat.strong_induction_on generalizing line read with
  | _ length ih =>
    have hread := fgets_line hline hne (show 1 < FILE_READ_LINE_BUF_SIZE by decide)
    have hnul' : NUL ∉ line.take (FILE_READ_LINE_BUF_SIZE - 1) :=
      fun hmem => hnul (List.mem_of_mem_take hmem)
    rw [fileReadLineAlloc]
    split
    next hnone => cases hread.symm.trans hnone
    next chunk fp hsome =>
      obtain ⟨rfl, rfl⟩ : _ ∧ _ := by simpa using hread.symm.trans hsome
      have hpart := List.length_take_le (FILE_READ_LINE_BUF_SIZE - 1) line
      rw [cstr_eq_self hnul', if_neg (by simp; omega)]
      by_cases hmore : FILE_READ_LINE_BUF_SIZE - 1 < line.length
      · have hlast : (line.take (FILE_READ_LINE_BUF_SIZE - 1)).getLast? ≠ some LF :=
          fun h => hline.notMem_take hmore (List.mem_of_getLast? h)
        have hrest := ih _ (by rw [List.length_drop]; simp [FILE_READ_LINE_BUF_SIZE]; omega)
          (hline.drop hmore) (List.ne_nil_of_length_pos (by simpa using hmore))
          (fun hmem => hnul (List.mem_of_mem_drop hmem))
          (some (read.getD [] ++ line.take (FILE_READ_LINE_BUF_SIZE - 1)))
          (by simp; omega) rfl
        rw [if_neg hlast, hrest, Option.getD_some, List.append_assoc, List.take_append_drop]
      · rw [List.take_of_length_le (by omega), List.drop_of_length_le (by omega)]
        split
        · rfl
        next hlast =>
          obtain rfl : rest = [] := hline.ended.resolve_left hlast
          rw [fileReadLineAlloc]
          split
          · rfl
          next hsome => cases (fgets_nil _).symm.trans hsome

theorem readLines_eq (hnul : NUL ∉ stream)
    (hshort : ∀ line ∈ linesOf stream, line.length + 1 < 2 ^ 31) :
    readLines stream = linesOf stream := by
  induction hlength : stream.length using Nat.strong_induction_on generalizing stream with
  | _ length ih =>
    by_cases hne : stream = []
    · subst hne
      have hend : (fileReadLineAlloc none []).1 = none := by
        rw [fileReadLineAlloc]
        split
        · rfl
        next hsome => cases (fgets_nil _).symm.trans hsome
      rw [readLines]
      split
      · rfl
      next hsome => cases hend.symm.trans hsome
    obtain ⟨line, rest, rfl, hline, hfirst, hlines⟩ := exists_firstLine hne
    rw [hlines, List.forall_mem_cons] at hshort
    rw [List.mem_append, not_or] at hnul
    have hread := fileReadLineAlloc_line hfirst hline hnul.1 none (by simpa using hshort.1)
    have hless : rest.length < length := by
      have := List.length_pos_of_ne_nil hline
      simp at hlength
      omega
    rw [readLines]
    split
    next hnone => cases (congrArg Prod.fst hread).symm.trans hnone
    next got hsome =>
      obtain rfl : line = got := Option.some.inj ((congrArg Prod.fst hread).symm.trans hsome)
      rw [hread, hlines, ih _ hless hnul.2 hshort.2 rfl]

/-- **Reading lines.** `file_read_line_alloc` gives every line of the stream as it stands and
`read_raw_pkgs_from_stream` gives it without its newline. -/
theorem line_readers_exact (stream : List Byte) (hnul : NUL ∉ stream)
    (hshort : ∀ line ∈ linesOf stream, line.length < 2 ^ 30) :
    readRawPkgsFromStream 512 stream = (linesOf stream).map chomp ∧
      readLines stream = linesOf stream := by
  constructor
  · exact readRaw_eq (k := 9) hnul hshort (by omega) (.inl (by omega))
  · apply readLines_eq hnul
    intro line hline
    have := hshort line hline
    omega

/-- The first of the two lines takes both readers more than one call of `fgets`. -/
theorem line_readers_exact_two :
    readRawPkgsFromStream 512 (List.replicate 2000 97 ++ ascii "\nb") =
        [List.replicate 2000 97, ascii "b"] ∧
      readLines (List.replicate 2000 97 ++ ascii "\nb") =
        [List.replicate 2000 97 ++ [LF], ascii "b"] := by
  have hlong : ∀ c : Byte, c ≠ 97 → c ∉ List.replicate 2000 97 :=
    fun c hc hmem => hc (List.eq_of_mem_replicate hmem)
  have hlf := hlong LF (by decide)
  have hlines : linesOf (List.replicate 2000 97 ++ ascii "\nb") =
      [List.replicate 2000 97 ++ [LF], ascii "b"] := linesOf_append hlf [98]
  have hshort : ∀ line ∈ linesOf (List.replicate 2000 97 ++ ascii "\nb"), line.length < 2 ^ 30 := by
    rw [hlines, List.forall_mem_cons, List.length_append, List.length_replicate]
    exact ⟨by decide, by decide⟩
  have hexact := line_readers_exact _ (List.not_mem_append (hlong NUL (by decide)) (by decide)) hshort
  rw [hlines] at hexact
  have hchomp : chomp (List.replicate 2000 97 ++ [LF]) = List.replicate 2000 97 := by
    rw [chomp, List.takeWhile_append_of_pos fun c hc => by
      simpa using (ne_of_mem_of_not_mem hc hlf)]
    exact List.append_nil _
  rwa [List.map_cons, hchomp] at hexact

/-- `file_read_line_alloc` keeps the newline, and after a line of 2 ^ 30 bytes the size of the
buffer is no `int`, so that `read_raw_pkgs_from_stream` reads nothing more. -/
theorem line_readers_differ :
    readLines (ascii "a\n") ≠ (linesOf (ascii "a\n")).map chomp ∧
      readRawPkgsFromStream 512 (List.replicate (2 ^ 30 - 1) 97 ++ [LF, 98]) ≠
        (linesOf (List.replicate (2 ^ 30 - 1) 97 ++ [LF, 98])).map chomp := by
  constructor
  · rw [readLines_eq (by decide) (by decide)]
    decide
  have hlong : ∀ text : List Byte, text.length = 2 ^ 30 - 1 → LF ∉ text → NUL ∉ text →
      readRawPkgsFromStream 512 (text ++ [LF, 98]) ≠ (linesOf (text ++ [LF, 98])).map chomp := by
    intro text hlength hlf hnul
    have hline : FirstLine (text ++ [LF]) [98] := ⟨by simpa using hlf, .inl (by simp)⟩
    have hnul : NUL ∉ text ++ [LF] := by simpa [NUL, LF] using hnul
    obtain ⟨m, hm, hread, -, hgrown, -⟩ :=
      readRaw_line (k := 9) hline (by simp) hnul (by simp [hlength]) (by omega) (by omega)
    obtain rfl : m = 31 := by
      have hlt : 2 ^ 30 < 2 ^ m := by simpa [hlength] using hgrown
      have := (Nat.pow_lt_pow_iff_right Nat.one_lt_two).mp hlt
      omega
    have hstop : readRawPkgsFromStream (2 ^ 31) [98] = [] :=
      readRaw_of_nil (if_pos (.inl (by decide)))
    rw [List.append_cons, show 512 = 2 ^ 9 by rfl, hread, hstop, ← List.append_cons,
      linesOf_append hlf]
    simp [linesOf, LF]
  apply hlong
  · rw [List.length_replicate]
  · intro hmem
    cases List.eq_of_mem_replicate hmem
  · intro hmem
    cases List.eq_of_mem_replicate hmem

end Openmoko.Opkg
