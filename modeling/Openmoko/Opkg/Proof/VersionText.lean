import Openmoko.Opkg.Proof.ParsedFields

/-!
# Versions as they are written

The text of a version is read back as it was, but for two: without an epoch, what is before a colon
of the version itself is taken for one, and an epoch is written as an `int`.
-/

namespace Openmoko.Opkg

variable {platform : Platform}

def COLON : Byte := UInt8.ofNat ':'.toNat
def HYPHEN : Byte := UInt8.ofNat '-'.toNat

variable {n epoch : ℕ} {rest s raw : List Byte} {c : Byte}

theorem strtoul_negative (hn : n ≠ 0) (hmax : n ≤ platform.ulongMax)
    (hrest : ∀ b ∈ rest.head?, isdigit b = false) :
    strtoul platform (HYPHEN :: (decimal n ++ rest)) = (platform.ulongMax + 1 - n, rest) := by
  obtain ⟨htake, hdrop⟩ := takeWhile_decimal n _ hrest
  have hstart : (HYPHEN :: (decimal n ++ rest)).dropWhile isspace =
      HYPHEN :: (decimal n ++ rest) := rfl
  have hsign : ((HYPHEN :: (decimal n ++ rest)).head? == some 45) = true := rfl
  have hmod : (platform.ulongMax + 1 - n) % (platform.ulongMax + 1) = platform.ulongMax + 1 - n :=
    Nat.mod_eq_of_lt (by omega)
  unfold strtoul
  simp only [hstart, hsign, Bool.true_or, if_true, List.tail_cons, htake, hdrop, decimal_ne_nil n,
    if_false, decimalValue_decimal, if_neg (Nat.not_lt.mpr hmax), hmod]

/-! ### Versions -/

structure WellFormedVersion (v : PkgVersion) (version revision : List Byte) : Prop where
  version_eq : v.version = some version
  version_ne : version ≠ []
  version_noSpace : ∀ b ∈ version, isspace b = false
  revision_eq : v.revision = some revision
  revision_chars : ∀ b ∈ revision, isspace b = false ∧ b ≠ HYPHEN ∧ b ≠ COLON
  noHyphen : revision = [] → HYPHEN ∉ version

def versionBody (version revision : List Byte) : List Byte :=
  version ++ if revision = [] then [] else HYPHEN :: revision

theorem strrchr_of_notMem (hc : c ∉ s) : strrchr s c = none := if_neg hc

theorem strrchr_append {r : List Byte} (hr : c ∉ r) : strrchr (s ++ c :: r) c = some (s, r) := by
  have hall : ∀ b ∈ r.reverse, (b != c) = true := by
    intro b hb
    rw [bne_iff_ne]
    rintro rfl
    exact hr (List.mem_reverse.mp hb)
  have hafter : ((s ++ c :: r).reverse.takeWhile (· != c)).reverse = r := by
    rw [List.reverse_append, List.reverse_cons, List.append_assoc,
      List.takeWhile_append_of_pos hall]
    simp
  have hlength : (s ++ c :: r).length - r.length - 1 = s.length := by
    rw [List.length_append, List.length_cons]
    omega
  rw [strrchr, if_pos (by simp)]
  simp only [hafter, hlength, List.take_left]

theorem strrchr_versionBody {version revision : List Byte}
    (hrevision : ∀ b ∈ revision, isspace b = false ∧ b ≠ HYPHEN ∧ b ≠ COLON)
    (hversion : revision = [] → HYPHEN ∉ version) :
    (revision = [] ∧ strrchr (versionBody version revision) HYPHEN = none ∧
        versionBody version revision = version) ∨
      strrchr (versionBody version revision) HYPHEN = some (version, revision) := by
  rw [versionBody]
  by_cases hnil : revision = []
  · left
    rw [if_pos hnil, List.append_nil]
    exact ⟨hnil, strrchr_of_notMem (hversion hnil), rfl⟩
  · right
    rw [if_neg hnil]
    exact strrchr_append fun hmem => (hrevision HYPHEN hmem).2.1 rfl

def rereadVersion (platform : Platform) (v : PkgVersion) : PkgVersion :=
  (parseVersion platform noVersion (ascii "Version: " ++ pkgVersionStrAlloc v)).getD noVersion

def splitRevision (epoch : ℕ) (raw : List Byte) : PkgVersion :=
  match strrchr raw HYPHEN with
  | none => { epoch := epoch, version := some raw, revision := some [] }
  | some (version, hyphen) => { epoch := epoch, version := some version, revision := some hyphen }

def versionField (s : List Byte) : List Byte :=
  (if hasPrefix s (ascii "Version:") then s.drop 8 else s).dropWhile isspace

theorem parseVersion_eq (hs : s ≠ []) : parseVersion platform noVersion s =
      (parseEpoch platform (versionField s)).map fun parsed => splitRevision parsed.1 parsed.2 := by
  rw [parseVersion, if_neg hs]
  dsimp only
  rw [← versionField]
  cases parseEpoch platform (versionField s) with
  | none => rfl
  | some parsed =>
    simp only [noVersion, Option.getD_none, Option.map_some, splitRevision]
    cases hsplit : strrchr parsed.2 HYPHEN with
    | none =>
      change strrchr parsed.2 (UInt8.ofNat '-'.toNat) = none at hsplit
      simp only [hsplit]
    | some parts =>
      change strrchr parsed.2 (UInt8.ofNat '-'.toNat) = some parts at hsplit
      simp only [hsplit]

theorem parseVersion_line {text : List Byte} (hhead : ∀ b ∈ text.head?, isspace b = false) :
    parseVersion platform noVersion (ascii "Version: " ++ text) =
      (parseEpoch platform text).map fun parsed => splitRevision parsed.1 parsed.2 := by
  have hfield : versionField (ascii "Version: " ++ text) = text := by
    have hstarts : hasPrefix (ascii "Version: " ++ text) (ascii "Version:") = true := rfl
    rw [versionField, hstarts, if_pos rfl]
    exact dropWhile_eq_self hhead
  have hne : ascii "Version: " ++ text ≠ [] := List.cons_ne_nil _ _
  rw [parseVersion_eq hne, hfield]

theorem splitRevision_versionBody {version revision : List Byte} (epoch : ℕ)
    (hrevision : ∀ b ∈ revision, isspace b = false ∧ b ≠ HYPHEN ∧ b ≠ COLON)
    (hversion : revision = [] → HYPHEN ∉ version) :
    splitRevision epoch (versionBody version revision) =
      { epoch := epoch, version := some version, revision := some revision } := by
  rw [splitRevision]
  rcases strrchr_versionBody hrevision hversion with ⟨hnil, hnone, hbody⟩ | hsome
  · rw [hnone, hbody, hnil]
  · rw [hsome]

theorem parseEpoch_of_notMem (hcolon : COLON ∉ raw) : parseEpoch platform raw = some (0, raw) := by
  have hnone : strchr raw (UInt8.ofNat ':'.toNat) = none := strchr_eq_none_iff.mpr hcolon
  rw [parseEpoch, hnone]

def signedEpoch (platform : Platform) (epoch : ℕ) : ℕ :=
  if epoch % 0x100000000 < 0x80000000 then epoch % 0x100000000
  else platform.ulongMax + 1 - (0x100000000 - epoch % 0x100000000)

def FitsInt (platform : Platform) (epoch : ℕ) : Prop :=
  epoch < 0x80000000 ∨
    0x80000000 ≤ epoch % 0x100000000 ∧
      platform.ulongMax + 1 = epoch + (0x100000000 - epoch % 0x100000000)

theorem signedEpoch_eq_iff : signedEpoch platform epoch = epoch ↔ FitsInt platform epoch := by
  have hlow : epoch % 0x100000000 ≤ epoch := Nat.mod_le _ _
  unfold signedEpoch FitsInt
  constructor
  · intro heq
    split at heq <;> omega
  · rintro (hsmall | ⟨hhigh, hwrap⟩)
    · rw [if_pos (by omega)]
      omega
    · rw [if_neg (by omega)]
      omega

theorem strtoul_decimalInt (hmax : epoch ≤ platform.ulongMax)
    (hrest : ∀ b ∈ rest.head?, isdigit b = false) :
    strtoul platform (decimalInt epoch ++ rest) = (signedEpoch platform epoch, rest) := by
  have hle : epoch % 0x100000000 ≤ epoch := Nat.mod_le _ _
  rw [decimalInt, signedEpoch]
  split
  · exact strtoul_decimal (by omega) hrest
  · exact strtoul_negative (by omega) (by omega) hrest

theorem isdigit_of_mem_decimalInt {b : Byte} (hb : b ∈ decimalInt n) :
    isdigit b = true ∨ b = HYPHEN := by
  rw [decimalInt] at hb
  split at hb
  · exact .inl (isdigit_of_mem_decimal _ b hb)
  · rcases List.mem_append.mp hb with hb | hb
    · exact .inr (List.mem_singleton.mp hb)
    · exact .inl (isdigit_of_mem_decimal _ b hb)

theorem colon_notMem_decimalInt (n : ℕ) : COLON ∉ decimalInt n :=
  fun hmem => absurd (isdigit_of_mem_decimalInt hmem) (by decide)

theorem noSpace_decimalInt (n : ℕ) : ∀ b ∈ decimalInt n, isspace b = false := by
  intro b hb
  obtain hdigit | rfl := isdigit_of_mem_decimalInt hb
  · exact not_isspace_of_isdigit hdigit
  · decide

theorem parseEpoch_decimalInt (hmax : n ≤ platform.ulongMax) {body : List Byte}
    (hbody : body ≠ []) :
    parseEpoch platform (decimalInt n ++ COLON :: body) = some (signedEpoch platform n, body) := by
  have hcolon : strchr (decimalInt n ++ COLON :: body) (UInt8.ofNat ':'.toNat) =
      some (decimalInt n).length := strchr_append_cons (colon_notMem_decimalInt n) body
  have hafter : ∀ b ∈ (COLON :: body).head?, isdigit b = false := by
    rintro b ⟨⟩
    decide
  have hdrop : (decimalInt n ++ COLON :: body).drop ((decimalInt n).length + 1) = body := by
    rw [List.drop_append, List.drop_of_length_le (Nat.le_succ _)]
    simp
  rw [parseEpoch, hcolon]
  simp only [strtoul_decimalInt hmax hafter, List.drop_left, hdrop, ne_eq, not_true_eq_false,
    if_false, hbody]

theorem parseEpoch_colon (hcolon : COLON ∈ raw)
    (hparse : parseEpoch platform raw = some (epoch, rest)) :
    ∃ before, raw = before ++ COLON :: rest ∧ COLON ∉ before := by
  obtain ⟨before, after, rfl, hbefore⟩ := List.eq_append_cons_of_mem hcolon
  have hstrchr : strchr (before ++ COLON :: after) (UInt8.ofNat ':'.toNat) = some before.length :=
    strchr_append_cons hbefore after
  have hdrop : (before ++ COLON :: after).drop (before.length + 1) = after := by
    rw [List.drop_append, List.drop_of_length_le (Nat.le_succ _)]
    simp
  rw [parseEpoch, hstrchr] at hparse
  simp only [hdrop] at hparse
  split at hparse
  · cases hparse
  split at hparse
  · cases hparse
  · cases hparse
    exact ⟨before, rfl, hbefore⟩

section WellFormed

variable {v : PkgVersion} {version revision : List Byte}

theorem WellFormedVersion.text (hv : WellFormedVersion v version revision) :
    pkgVersionStrAlloc v =
      (if v.epoch = 0 then [] else decimalInt v.epoch ++ ascii ":") ++
        versionBody version revision := by
  rw [pkgVersionStrAlloc, hv.version_eq, hv.revision_eq]
  simp only [Option.getD_some, List.append_assoc]
  rfl

theorem WellFormedVersion.body_ne_nil (hv : WellFormedVersion v version revision) :
    versionBody version revision ≠ [] :=
  List.append_ne_nil_of_left_ne_nil hv.version_ne _

theorem WellFormedVersion.body_noSpace (hv : WellFormedVersion v version revision) :
    ∀ b ∈ versionBody version revision, isspace b = false := by
  intro b hb
  rcases List.mem_append.mp hb with hb | hb
  · exact hv.version_noSpace b hb
  · split at hb
    · cases hb
    rcases List.mem_cons.mp hb with rfl | hb
    · decide
    · exact (hv.revision_chars b hb).1

theorem WellFormedVersion.text_noSpace (hv : WellFormedVersion v version revision) :
    ∀ b ∈ pkgVersionStrAlloc v, isspace b = false := by
  intro b hb
  rw [hv.text] at hb
  rcases List.mem_append.mp hb with hb | hb
  · split at hb
    next => cases hb
    next =>
      rcases List.mem_append.mp hb with hb | hb
      · exact noSpace_decimalInt v.epoch b hb
      · rw [List.mem_singleton.mp hb]
        decide
  · exact hv.body_noSpace b hb

theorem WellFormedVersion.colon_mem_body (hv : WellFormedVersion v version revision) :
    COLON ∈ versionBody version revision ↔ COLON ∈ version := by
  rw [versionBody, List.mem_append]
  constructor
  · rintro (hmem | hmem)
    · exact hmem
    · split at hmem
      · cases hmem
      rcases List.mem_cons.mp hmem with hhyphen | hmem
      · exact absurd hhyphen (by decide)
      · exact absurd rfl (hv.revision_chars COLON hmem).2.2
  · exact Or.inl

theorem WellFormedVersion.reread_colon (hv : WellFormedVersion v version revision)
    (hcolon : COLON ∈ version)
    (hparse : parseEpoch platform (versionBody version revision) = some (epoch, rest)) :
    (splitRevision epoch rest).version ≠ some version := by
  obtain ⟨before, hbody, hbefore⟩ := parseEpoch_colon (hv.colon_mem_body.mpr hcolon) hparse
  obtain ⟨start, after, hversion, hstart⟩ := List.eq_append_cons_of_mem hcolon
  -- the first colon of the text is the first one of the version
  have hrest : rest = versionBody after revision := by
    have hsplit : versionBody version revision = start ++ COLON :: versionBody after revision := by
      rw [versionBody, hversion, versionBody]
      simp
    have hfirst := strchr_append_cons hbefore rest
    rw [← hbody, hsplit, strchr_append_cons hstart] at hfirst
    have happend := List.append_inj (hbody.symm.trans hsplit) (Option.some.inj hfirst).symm
    exact (List.cons.inj happend.2).2
  have hafter : revision = [] → HYPHEN ∉ after := by
    intro hnil hmem
    apply hv.noHyphen hnil
    rw [hversion]
    exact List.mem_append_right _ (List.mem_cons_of_mem _ hmem)
  rw [hrest, splitRevision_versionBody epoch hv.revision_chars hafter, hversion]
  intro heq
  have hlength := congrArg List.length (Option.some.inj heq)
  simp at hlength
  omega

/-- **A version is read back exactly when its epoch fits an `int`, and is there if the version has a
colon.** -/
theorem rereadVersion_eq_iff (hv : WellFormedVersion v version revision)
    (hmax : v.epoch ≤ platform.ulongMax) :
    rereadVersion platform v = v ↔
      FitsInt platform v.epoch ∧ (v.epoch ≠ 0 ∨ COLON ∉ version) := by
  have hhead : ∀ b ∈ (pkgVersionStrAlloc v).head?, isspace b = false :=
    fun b hb => hv.text_noSpace b (List.mem_of_mem_head? hb)
  have hsplit : ∀ epoch, splitRevision epoch (versionBody version revision) =
      { epoch := epoch, version := v.version, revision := v.revision } := by
    intro epoch
    rw [splitRevision_versionBody epoch hv.revision_chars hv.noHyphen, hv.version_eq,
      hv.revision_eq]
  rw [rereadVersion, parseVersion_line hhead, hv.text]
  by_cases hzero : v.epoch = 0
  · have hfits : FitsInt platform v.epoch := Or.inl (by omega)
    rw [if_pos hzero, List.nil_append]
    by_cases hcolon : COLON ∈ version
    · apply iff_of_false
      · cases hparse : parseEpoch platform (versionBody version revision) with
        | none =>
          intro heq
          have hnone : noVersion.version = v.version := congrArg PkgVersion.version heq
          rw [hv.version_eq] at hnone
          cases hnone
        | some parsed =>
          intro heq
          apply hv.reread_colon hcolon hparse
          rw [← hv.version_eq]
          exact congrArg PkgVersion.version heq
      · simp [hzero, hcolon]
    · rw [parseEpoch_of_notMem (hv.colon_mem_body.not.mpr hcolon)]
      apply iff_of_true
      · rw [Option.map_some, Option.getD_some, hsplit, ← hzero]
      · exact ⟨hfits, Or.inr hcolon⟩
  · have htext : decimalInt v.epoch ++ ascii ":" ++ versionBody version revision =
        decimalInt v.epoch ++ COLON :: versionBody version revision := by
      rw [List.append_assoc]
      rfl
    rw [if_neg hzero, htext, parseEpoch_decimalInt hmax hv.body_ne_nil, Option.map_some,
      Option.getD_some, hsplit, ← signedEpoch_eq_iff]
    constructor
    · intro heq
      exact ⟨congrArg PkgVersion.epoch heq, Or.inl hzero⟩
    · intro hsame
      rw [hsame.1]

end WellFormed

/-! ### Versions as they are read -/

def epochNumber (platform : Platform) (s : List Byte) : ℕ :=
  if COLON ∈ versionField s then (strtoul platform (versionField s)).1 else 0

def afterEpoch (s : List Byte) : List Byte :=
  match strchr (versionField s) COLON with
  | none => versionField s
  | some colon => (versionField s).drop (colon + 1)

def withoutHyphen (rest : List Byte) : List Byte :=
  if rest.getLast? = some HYPHEN then rest.dropLast else rest

/-- A version with something in it, one hyphen at most if the last character is one, no colon and no
blank in front unless there is an epoch, and an epoch that an `int` can stand for. -/
structure Restorable (platform : Platform) (s : List Byte) : Prop where
  ne_nil : afterEpoch s ≠ []
  ne_hyphen : afterEpoch s ≠ [HYPHEN]
  hyphen : (afterEpoch s).getLast? = some HYPHEN → HYPHEN ∉ (afterEpoch s).dropLast
  noEpoch : epochNumber platform s = 0 →
    COLON ∉ afterEpoch s ∧ ∀ b ∈ (afterEpoch s).head?, isspace b = false
  epoch : FitsInt platform (epochNumber platform s)

theorem parseEpoch_eq_some (hparse : parseEpoch platform raw = some (epoch, rest)) :
    (COLON ∉ raw ∧ epoch = 0 ∧ rest = raw) ∨
      ∃ colon, strchr raw COLON = some colon ∧ epoch = (strtoul platform raw).1 ∧
        rest = raw.drop (colon + 1) ∧ rest ≠ [] := by
  rw [parseEpoch] at hparse
  cases hcolon : strchr raw (UInt8.ofNat ':'.toNat) with
  | none =>
    rw [hcolon] at hparse
    cases hparse
    exact .inl ⟨strchr_eq_none_iff.mp hcolon, rfl, rfl⟩
  | some colon =>
    rw [hcolon] at hparse
    dsimp only at hparse
    split at hparse
    · cases hparse
    split at hparse
    · cases hparse
    next hrest =>
      cases hparse
      exact .inr ⟨colon, hcolon, rfl, rfl, hrest⟩

theorem mem_of_strchr {i : ℕ} (hi : strchr raw c = some i) : c ∈ raw := by
  by_contra hc
  rw [strchr_eq_none_iff.mpr hc] at hi
  cases hi

theorem parseVersion_eq_some {v : PkgVersion}
    (hparse : parseVersion platform noVersion s = some v) :
    v = splitRevision (epochNumber platform s) (afterEpoch s) := by
  have hs : s ≠ [] := by
    rintro rfl
    cases hparse
  rw [parseVersion_eq hs] at hparse
  obtain ⟨⟨epoch, rest⟩, hepoch, rfl⟩ := Option.map_eq_some_iff.mp hparse
  rw [epochNumber, afterEpoch]
  obtain ⟨hcolon, rfl, rfl⟩ | ⟨colon, hcolon, rfl, rfl, -⟩ := parseEpoch_eq_some hepoch
  · rw [if_neg hcolon, strchr_eq_none_iff.mpr hcolon]
  · rw [if_pos (mem_of_strchr hcolon), hcolon]

theorem strtoul_fst_le (s : List Byte) : (strtoul platform s).1 ≤ platform.ulongMax := by
  unfold strtoul
  extract_lets start negative body digits value result
  have hresult : result ≤ platform.ulongMax := by
    unfold result
    split
    · exact le_refl _
    · split
      · exact Nat.lt_succ_iff.mp (Nat.mod_lt _ (Nat.succ_pos _))
      · omega
  split
  · exact Nat.zero_le _
  · exact hresult

theorem epochNumber_le (s : List Byte) : epochNumber platform s ≤ platform.ulongMax := by
  rw [epochNumber]
  split
  · exact strtoul_fst_le _
  · exact Nat.zero_le _

theorem splitRevision_cases (epoch : ℕ) (rest : List Byte) :
    (HYPHEN ∉ rest ∧
        splitRevision epoch rest = { epoch := epoch, version := some rest, revision := some [] }) ∨
      ∃ version revision, rest = version ++ HYPHEN :: revision ∧ HYPHEN ∉ revision ∧
        splitRevision epoch rest =
          { epoch := epoch, version := some version, revision := some revision } := by
  by_cases hhyphen : HYPHEN ∈ rest
  · obtain ⟨revision, version, hsplit, hrevision⟩ :=
      List.eq_append_cons_of_mem (List.mem_reverse.mpr hhyphen)
    have hrest : rest = version.reverse ++ HYPHEN :: revision.reverse := by
      rw [← List.reverse_reverse rest, hsplit]
      simp
    have hnot : HYPHEN ∉ revision.reverse := fun hmem => hrevision (List.mem_reverse.mp hmem)
    refine .inr ⟨version.reverse, revision.reverse, hrest, hnot, ?_⟩
    rw [splitRevision, hrest, strrchr_append hnot]
  · exact .inl ⟨hhyphen, by rw [splitRevision, strrchr_of_notMem hhyphen]⟩

theorem pkgVersionStrAlloc_splitRevision (epoch : ℕ) (rest : List Byte) :
    pkgVersionStrAlloc (splitRevision epoch rest) =
      (if epoch = 0 then [] else decimalInt epoch ++ [COLON]) ++ withoutHyphen rest := by
  rw [pkgVersionStrAlloc, withoutHyphen]
  obtain ⟨hnot, hsplit⟩ | ⟨version, revision, rfl, hnot, hsplit⟩ := splitRevision_cases epoch rest
  · have hlast : rest.getLast? ≠ some HYPHEN := fun hlast => hnot (List.mem_of_getLast? hlast)
    rw [hsplit, if_neg hlast]
    simp [COLON, ascii]
  · rw [hsplit]
    cases revision using List.reverseRecOn with
    | nil =>
      rw [List.getLast?_concat, if_pos rfl, List.dropLast_concat]
      simp [COLON, ascii]
    | append_singleton revision last =>
      have hlast : last ≠ HYPHEN := by
        rintro rfl
        exact hnot (List.mem_append_right _ (List.mem_singleton_self _))
      have hget : (version ++ HYPHEN :: (revision ++ [last])).getLast? ≠ some HYPHEN := by
        rw [← List.cons_append, ← List.append_assoc, List.getLast?_concat]
        exact fun heq => hlast (Option.some.inj heq)
      rw [if_neg hget]
      simp [COLON, HYPHEN, ascii]

theorem epoch_splitRevision (epoch : ℕ) (rest : List Byte) :
    (splitRevision epoch rest).epoch = epoch := by
  rw [splitRevision]
  split <;> rfl

theorem splitRevision_withoutHyphen_iff {other : ℕ} :
    splitRevision other (withoutHyphen rest) = splitRevision epoch rest ↔
      other = epoch ∧ (rest.getLast? = some HYPHEN → HYPHEN ∉ rest.dropLast) := by
  rw [withoutHyphen]
  split
  next hlast =>
    obtain ⟨start, rfl⟩ := List.getLast?_eq_some_iff.mp hlast
    have hread : splitRevision epoch (start ++ [HYPHEN]) =
        { epoch := epoch, version := some start, revision := some [] } := by
      rw [splitRevision, strrchr_append List.not_mem_nil]
    rw [List.dropLast_concat, hread]
    obtain ⟨hnot, hsplit⟩ | ⟨version, revision, rfl, -, hsplit⟩ := splitRevision_cases other start
    · rw [hsplit, PkgVersion.mk.injEq]
      simp [hnot]
    · rw [hsplit, PkgVersion.mk.injEq]
      refine iff_of_false (by simp) fun hkept => hkept.2 hlast ?_
      exact List.mem_append_right _ (List.mem_cons_self ..)
  next hlast =>
    refine ⟨fun heq => ⟨?_, fun hhyphen => absurd hhyphen hlast⟩, ?_⟩
    · rw [← epoch_splitRevision other rest, heq, epoch_splitRevision]
    · rintro ⟨rfl, -⟩
      rfl

theorem withoutHyphen_of_splitRevision_eq {other : ℕ} {left : List Byte}
    (heq : splitRevision epoch rest = splitRevision other left) :
    withoutHyphen rest = withoutHyphen left := by
  obtain rfl : epoch = other := by
    rw [← epoch_splitRevision epoch rest, heq, epoch_splitRevision]
  have htext := congrArg pkgVersionStrAlloc heq
  rw [pkgVersionStrAlloc_splitRevision, pkgVersionStrAlloc_splitRevision] at htext
  exact List.append_cancel_left htext

theorem withoutHyphen_isPrefix (rest : List Byte) : withoutHyphen rest <+: rest := by
  rw [withoutHyphen]
  split
  · exact List.dropLast_prefix rest
  · exact List.prefix_refl rest

theorem withoutHyphen_eq_nil_iff : withoutHyphen rest = [] ↔ rest = [] ∨ rest = [HYPHEN] := by
  rw [withoutHyphen]
  split
  next hlast =>
    obtain ⟨start, rfl⟩ := List.getLast?_eq_some_iff.mp hlast
    rw [List.dropLast_concat]
    cases start <;> simp
  next hlast =>
    refine ⟨Or.inl, fun hrest => hrest.resolve_right ?_⟩
    rintro rfl
    exact hlast rfl

theorem colon_mem_withoutHyphen : COLON ∈ withoutHyphen rest ↔ COLON ∈ rest := by
  rw [withoutHyphen]
  split
  next hlast =>
    obtain ⟨start, rfl⟩ := List.getLast?_eq_some_iff.mp hlast
    rw [List.dropLast_concat, List.mem_append, List.mem_singleton]
    exact (or_iff_left (by decide)).symm
  next hlast => exact Iff.rfl

theorem head?_withoutHyphen (hne : withoutHyphen rest ≠ []) :
    (withoutHyphen rest).head? = rest.head? := by
  obtain ⟨left, hleft⟩ := withoutHyphen_isPrefix rest
  calc (withoutHyphen rest).head? = (withoutHyphen rest ++ left).head? :=
        (List.head?_append_of_ne_nil _ hne).symm
    _ = rest.head? := congrArg List.head? hleft

theorem length_afterEpoch_lt
    (hs : COLON ∈ s ∨ ∃ b ∈ s.head?, isspace b = true) : (afterEpoch s).length < s.length := by
  have hle : (afterEpoch s).length ≤ (versionField s).length := by
    rw [afterEpoch]
    split
    · exact le_refl _
    · rw [List.length_drop]
      exact Nat.sub_le _ _
  have hne : s ≠ [] := by
    rintro rfl
    obtain hs | ⟨b, hs, -⟩ := hs <;> cases hs
  have hpos := List.length_pos_of_ne_nil hne
  by_cases hstart : hasPrefix s (ascii "Version:") = true
  · refine hle.trans_lt ?_
    rw [versionField, if_pos hstart]
    have hdrop := ((s.drop 8).dropWhile_suffix isspace).length_le
    rw [List.length_drop] at hdrop
    omega
  · have hfield : versionField s = s.dropWhile isspace := by rw [versionField, if_neg hstart]
    by_cases hblank : ∃ b ∈ s.head?, isspace b = true
    · refine hle.trans_lt ?_
      obtain ⟨b, hhead, hb⟩ := hblank
      obtain ⟨rest, rfl⟩ := List.head?_eq_some_iff.mp hhead
      rw [hfield, List.dropWhile_cons_of_pos hb]
      exact Nat.lt_succ_of_le (rest.dropWhile_suffix isspace).length_le
    · have hall : ∀ b ∈ s.head?, isspace b = false :=
        fun b hb => Bool.eq_false_iff.mpr fun hspace => hblank ⟨b, hb, hspace⟩
      have hcolon : COLON ∈ s := hs.resolve_right hblank
      rw [afterEpoch, hfield, dropWhile_eq_self hall]
      split
      next hnone => exact absurd hcolon (strchr_eq_none_iff.mp hnone)
      next hsome =>
        rw [List.length_drop]
        omega

theorem colon_mem_of_hasPrefix (hstart : hasPrefix s (ascii "Version:") = true) : COLON ∈ s := by
  have hle : ascii "Version:" <+: s := List.isPrefixOf_iff_prefix.mp hstart
  exact hle.subset (by decide)

theorem parseVersion_plain {text : List Byte} (hne : text ≠ []) (hcolon : COLON ∉ text)
    (hhead : ∀ b ∈ text.head?, isspace b = false) :
    parseVersion platform noVersion text = some (splitRevision 0 text) := by
  have hfield : versionField text = text := by
    rw [versionField, if_neg fun hstart => hcolon (colon_mem_of_hasPrefix hstart)]
    exact dropWhile_eq_self hhead
  rw [parseVersion_eq hne, hfield, parseEpoch_of_notMem hcolon]
  rfl

theorem decimalInt_ne_nil (n : ℕ) : decimalInt n ≠ [] := by
  rw [decimalInt]
  split
  · exact decimal_ne_nil _
  · exact List.append_ne_nil_of_left_ne_nil (by decide) _

theorem head_decimalInt (n : ℕ) (rest : List Byte) :
    ∀ b ∈ (decimalInt n ++ rest).head?, b ∈ decimalInt n := by
  intro b hb
  rw [List.head?_append_of_ne_nil _ (decimalInt_ne_nil n)] at hb
  exact List.mem_of_mem_head? hb

theorem versionField_decimalInt (n : ℕ) (rest : List Byte) :
    versionField (decimalInt n ++ rest) = decimalInt n ++ rest := by
  have hstart : hasPrefix (decimalInt n ++ rest) (ascii "Version:") ≠ true := by
    intro hstart
    obtain ⟨left, hleft⟩ := List.isPrefixOf_iff_prefix.mp hstart
    have hmem := head_decimalInt n rest 86 (by rw [← hleft]; rfl)
    exact absurd (isdigit_of_mem_decimalInt hmem) (by decide)
  rw [versionField, if_neg hstart]
  exact dropWhile_eq_self fun b hb => noSpace_decimalInt n b (head_decimalInt n rest b hb)

theorem parseVersion_decimalInt (hmax : n ≤ platform.ulongMax) (body : List Byte) :
    parseVersion platform noVersion (decimalInt n ++ COLON :: body) =
      if body = [] then none else some (splitRevision (signedEpoch platform n) body) := by
  have hne : decimalInt n ++ COLON :: body ≠ [] := List.append_ne_nil_of_right_ne_nil _ (by simp)
  rw [parseVersion_eq hne, versionField_decimalInt]
  split
  next hbody =>
    subst hbody
    cases hparse : parseEpoch platform (decimalInt n ++ [COLON]) with
    | none => rfl
    | some parsed =>
      obtain ⟨hcolon, -⟩ | ⟨colon, hcolon, -, hrest, hrestNe⟩ := parseEpoch_eq_some hparse
      · exact absurd (List.mem_append_right _ (List.mem_singleton_self _)) hcolon
      · rw [strchr_append_cons (colon_notMem_decimalInt n)] at hcolon
        cases hcolon
        refine absurd (hrest.trans ?_) hrestNe
        exact List.drop_of_length_le (by simp)
  next hbody => rw [parseEpoch_decimalInt hmax hbody, Option.map_some]

theorem parseVersion_field {text : List Byte} (hne : text ≠ []) (hfield : versionField text = text)
    (hhead : ∀ b ∈ text.head?, isspace b = false) :
    parseVersion platform noVersion (ascii "Version: " ++ text) =
      parseVersion platform noVersion text := by
  rw [parseVersion_line hhead, parseVersion_eq hne, hfield]

theorem parseVersion_withoutHyphen_iff :
    parseVersion platform noVersion (withoutHyphen rest) = some (splitRevision 0 rest) ↔
      withoutHyphen rest ≠ [] ∧ (COLON ∉ rest ∧ ∀ b ∈ rest.head?, isspace b = false) ∧
        (rest.getLast? = some HYPHEN → HYPHEN ∉ rest.dropLast) := by
  constructor
  · intro hparse
    have hne : withoutHyphen rest ≠ [] := by
      intro hnil
      rw [hnil] at hparse
      cases hparse
    have hread := withoutHyphen_of_splitRevision_eq (parseVersion_eq_some hparse)
    have hplain : ¬(COLON ∈ withoutHyphen rest ∨
        ∃ b ∈ (withoutHyphen rest).head?, isspace b = true) := by
      intro hs
      have hlt := length_afterEpoch_lt hs
      have hle := (withoutHyphen_isPrefix (afterEpoch (withoutHyphen rest))).length_le
      rw [← hread] at hle
      omega
    rw [not_or, colon_mem_withoutHyphen, head?_withoutHyphen hne] at hplain
    obtain ⟨hcolon, hblank⟩ := hplain
    have hhead : ∀ b ∈ rest.head?, isspace b = false :=
      fun b hb => Bool.eq_false_iff.mpr fun hspace => hblank ⟨b, hb, hspace⟩
    refine ⟨hne, ⟨hcolon, hhead⟩, ?_⟩
    rw [parseVersion_plain hne (colon_mem_withoutHyphen.not.mpr hcolon)
      (by rwa [head?_withoutHyphen hne])] at hparse
    exact (splitRevision_withoutHyphen_iff.mp (Option.some.inj hparse)).2
  · rintro ⟨hne, ⟨hcolon, hhead⟩, hhyphen⟩
    rw [parseVersion_plain hne (colon_mem_withoutHyphen.not.mpr hcolon)
      (by rwa [head?_withoutHyphen hne])]
    exact congrArg some (splitRevision_withoutHyphen_iff.mpr ⟨rfl, hhyphen⟩)

theorem parseVersion_epoch_iff (hmax : n ≤ platform.ulongMax) :
    parseVersion platform noVersion (decimalInt n ++ COLON :: withoutHyphen rest) =
        some (splitRevision n rest) ↔
      withoutHyphen rest ≠ [] ∧ FitsInt platform n ∧
        (rest.getLast? = some HYPHEN → HYPHEN ∉ rest.dropLast) := by
  rw [parseVersion_decimalInt hmax]
  split
  next hnil => exact iff_of_false (by simp) fun hkept => hkept.1 hnil
  next hne =>
    rw [Option.some.injEq, splitRevision_withoutHyphen_iff, signedEpoch_eq_iff, and_iff_right hne]

theorem restorable_iff : Restorable platform s ↔
      withoutHyphen (afterEpoch s) ≠ [] ∧
        (epochNumber platform s = 0 →
          COLON ∉ afterEpoch s ∧ ∀ b ∈ (afterEpoch s).head?, isspace b = false) ∧
        FitsInt platform (epochNumber platform s) ∧
        ((afterEpoch s).getLast? = some HYPHEN → HYPHEN ∉ (afterEpoch s).dropLast) := by
  rw [Ne, withoutHyphen_eq_nil_iff, not_or]
  constructor
  · intro hs
    exact ⟨⟨hs.ne_nil, hs.ne_hyphen⟩, hs.noEpoch, hs.epoch, hs.hyphen⟩
  · rintro ⟨⟨hnil, hone⟩, hplain, hepoch, hhyphen⟩
    exact ⟨hnil, hone, hhyphen, hplain, hepoch⟩

/-- **A version that was read.** The text that is written for it is read as the same epoch, version
and revision, alone and in a line of the status file, exactly when the condition holds of what was
read. -/
theorem reparse_iff {s : List Byte} {v : PkgVersion}
    (hparse : parseVersion platform noVersion s = some v) :
    (parseVersion platform noVersion (pkgVersionStrAlloc v) = some v ∧
      parseVersion platform noVersion (ascii "Version: " ++ pkgVersionStrAlloc v) = some v) ↔
      Restorable platform s := by
  obtain rfl := parseVersion_eq_some hparse
  have hmax : epochNumber platform s ≤ platform.ulongMax := epochNumber_le s
  rw [pkgVersionStrAlloc_splitRevision, restorable_iff]
  by_cases hzero : epochNumber platform s = 0
  · have hfits : FitsInt platform 0 := .inl (by decide)
    rw [if_pos hzero, List.nil_append, hzero, forall_prop_of_true rfl, and_iff_right hfits,
      ← parseVersion_withoutHyphen_iff]
    refine and_iff_left_of_imp fun hread => ?_
    obtain ⟨hne, ⟨hcolon, hhead⟩, -⟩ := parseVersion_withoutHyphen_iff.mp hread
    rw [parseVersion_line (by rwa [head?_withoutHyphen hne]),
      parseEpoch_of_notMem (colon_mem_withoutHyphen.not.mpr hcolon), ← hread,
      parseVersion_plain hne (colon_mem_withoutHyphen.not.mpr hcolon)
        (by rwa [head?_withoutHyphen hne])]
    rfl
  · have hplain : epochNumber platform s = 0 → COLON ∉ afterEpoch s ∧
        ∀ b ∈ (afterEpoch s).head?, isspace b = false := fun h => absurd h hzero
    rw [if_neg hzero, List.append_assoc, List.singleton_append, and_iff_right hplain,
      ← parseVersion_epoch_iff hmax]
    refine and_iff_left_of_imp fun hread => ?_
    have hhead : ∀ b ∈ (decimalInt (epochNumber platform s) ++
        COLON :: withoutHyphen (afterEpoch s)).head?, isspace b = false :=
      fun b hb => noSpace_decimalInt _ b (head_decimalInt _ _ b hb)
    rw [parseVersion_field (List.append_ne_nil_of_left_ne_nil (decimalInt_ne_nil _) _)
      (versionField_decimalInt _ _) hhead, hread]

/-- A version with an epoch and a revision. -/
theorem reparse_epoch :
    parseVersion ⟨false, 0xffffffff⟩ noVersion (ascii "Version: 2:1.0-r3") =
        some ⟨2, some (ascii "1.0"), some (ascii "r3")⟩ ∧
      Restorable ⟨false, 0xffffffff⟩ (ascii "Version: 2:1.0-r3") := by
  have hparse : parseVersion ⟨false, 0xffffffff⟩ noVersion (ascii "Version: 2:1.0-r3") =
      some ⟨2, some (ascii "1.0"), some (ascii "r3")⟩ := by decide
  exact ⟨hparse, (reparse_iff hparse).mp ⟨by decide, by decide⟩⟩

/-- The epoch is not written, and the version's colon is read as one's end. -/
theorem zeroEpoch_colon :
    ¬ ∀ (platform : Platform) (s : List Byte) (v : PkgVersion),
      parseVersion platform noVersion s = some v →
        parseVersion platform noVersion (pkgVersionStrAlloc v) = some v := by
  intro hread
  have hparse : parseVersion ⟨false, 0xffffffff⟩ noVersion (ascii "0:1:2") =
      some ⟨0, some (ascii "1:2"), some []⟩ := by decide
  exact absurd (hread _ _ _ hparse) (by decide)

end Openmoko.Opkg
