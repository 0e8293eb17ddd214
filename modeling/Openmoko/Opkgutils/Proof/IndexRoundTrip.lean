import Openmoko.Opkgutils.Proof.Dictionary
import Openmoko.Opkgutils.Proof.RecordReading

/-!
# Round trip of the package index

The records are read back one by one, and each is added under its own key. What is read is what was
written if every record survives its own writing and reading.
-/

namespace Openmoko.Opkgutils

variable {files : Text → Option File} {packages : Packages} {pkg : Package}

def Packages.added (packages : Packages) (pkg : Package) : Option Packages :=
  (packages.addPackage pkg).map Prod.fst

theorem added_of_new (hnew : pkg.key ∉ packages.map Prod.fst) :
    packages.added pkg =
      (pkg.compareVersion pkg).map fun _ => packages ++ [(pkg.key, pkg)] := by
  have hnone : packages.get pkg.key = none := by
    rw [← Option.not_isSome_iff_eq_none, get_isSome_iff]
    exact hnew
  have hheld : packages.held pkg = pkg := by rw [Packages.held, hnone, Option.getD_none]
  have hopened : packages.opened pkg = packages ++ [(pkg.key, pkg)] := by
    rw [Packages.opened, Packages.set, hnone]
    rfl
  have hget : Packages.get (packages ++ [(pkg.key, pkg)]) pkg.key = some pkg := by
    rw [← hopened, get_opened, if_pos rfl, hheld]
  have hagain : Packages.set (packages ++ [(pkg.key, pkg)]) pkg.key pkg =
      packages ++ [(pkg.key, pkg)] := by
    rw [Packages.set, hget, Option.isSome_some, if_pos rfl]
    calc (packages ++ [(pkg.key, pkg)]).map
          (fun entry => if entry.1 = pkg.key then (pkg.key, pkg) else entry)
        = (packages ++ [(pkg.key, pkg)]).map id := by
          apply List.map_congr_left
          intro entry hentry
          split
          case isTrue heq =>
            rcases List.mem_append.mp hentry with hold | hlast
            · exact absurd (heq ▸ List.mem_map_of_mem hold) hnew
            · exact (List.mem_singleton.mp hlast).symm
          case isFalse => rfl
      _ = packages ++ [(pkg.key, pkg)] := List.map_id _
  rw [Packages.added, addPackage_eq, hheld, hopened, hagain, Option.map_map]
  apply congrArg (Option.map · (pkg.compareVersion pkg))
  funext r
  rw [Function.comp_apply]
  split <;> rfl

variable {packages' : Packages} {records : List Values} {w : Text}

theorem mem_of_added (hadd : packages.added pkg = some packages')
    {entry : Text × Package} (hentry : entry ∈ packages') :
    entry ∈ packages ∨ entry = (pkg.key, pkg) := by
  obtain ⟨result, hresult, rfl⟩ := Option.map_eq_some_iff.mp hadd
  rw [addPackage_eq] at hresult
  obtain ⟨r, -, rfl⟩ := Option.map_eq_some_iff.mp hresult
  split at hentry
  · rcases mem_of_set hentry with hold | heq
    · exact mem_of_opened hold
    · exact Or.inr heq
  · exact mem_of_opened hentry

def IsRecord (vs : Values) : Prop :=
  (∀ v, vs .size = some v → (parseInt v.reread).isSome = true) ∧
    ∃ v, vs (.attr .package) = some v ∧ v.text ≠ []

def indexText (records : List Values) : Text :=
  records.flatMap fun vs => recordText fields vs ++ [LF]

theorem length_le_indexText (records : List Values) :
    records.length ≤ (splitLines (indexText records)).length := by
  refine Nat.le_trans ?_ (count_le_length_splitLines _)
  induction records with
  | nil => exact Nat.le_refl 0
  | cons vs records ih =>
    rw [indexText, List.flatMap_cons, List.count_append, List.count_append, List.count_singleton_self,
      List.length_cons]
    rw [indexText] at ih
    omega

theorem readRecords_indexText (hrecords : ∀ vs ∈ records, IsRecord vs)
    {left : ℕ} (hleft : records.length < left) (packages : Packages) :
    packages.readRecords left (splitLines (indexText records)) =
      records.foldlM (fun packages vs => packages.added (readBack vs)) packages := by
  induction records generalizing left packages with
  | nil =>
    obtain ⟨left, rfl⟩ := Nat.exists_eq_succ_of_ne_zero (Nat.ne_zero_of_lt hleft)
    rfl
  | cons vs records ih =>
    obtain ⟨left, rfl⟩ := Nat.exists_eq_succ_of_ne_zero (Nat.ne_zero_of_lt hleft)
    obtain ⟨hsize, v, hv, hne⟩ := hrecords vs List.mem_cons_self
    have htext : indexText (vs :: records) = recordText fields vs ++ LF :: indexText records := by
      rw [indexText, List.flatMap_cons, List.append_assoc]
      rfl
    have hname : truthy ((readBack vs).dict .package) = some v.reread := by
      rw [readBack_dict (by decide), hv]
      exact truthy_eq_some_iff.mpr ⟨rfl, FieldValue.reread_ne_nil hne⟩
    rw [htext, Nat.succ_eq_add_one, Packages.readRecords,
      readControl_record hsize (by rw [hv]; rfl), List.foldlM_cons]
    simp only [Option.bind_eq_bind, Option.bind_some, hname, Packages.added]
    cases packages.addPackage (readBack vs) with
    | none => rfl
    | some result =>
      rw [Option.bind_some, Option.map_some, Option.bind_some]
      exact ih (fun vs hvs => hrecords vs (List.mem_cons_of_mem _ hvs))
        (by rw [List.length_cons] at hleft; omega) result.1

theorem readPackagesFile_indexText (hrecords : ∀ vs ∈ records, IsRecord vs) :
    Packages.readPackagesFile [] (indexText records) =
      records.foldlM (fun packages vs => Packages.added packages (readBack vs)) [] :=
  readRecords_indexText hrecords (Nat.lt_succ_of_le (length_le_indexText records)) []

theorem mem_of_foldlM_added
    (hread : records.foldlM (fun packages vs => packages.added (readBack vs)) packages =
      some packages') {entry : Text × Package} (hentry : entry ∈ packages') :
    entry ∈ packages ∨ ∃ vs ∈ records, entry = ((readBack vs).key, readBack vs) := by
  induction records generalizing packages with
  | nil =>
    cases hread
    exact Or.inl hentry
  | cons vs records ih =>
    rw [List.foldlM_cons] at hread
    obtain ⟨packages'', hadd, hread⟩ := Option.bind_eq_some_iff.mp hread
    rcases ih hread with hold | ⟨vs', hvs', heq⟩
    · rcases mem_of_added hadd hold with hold | heq
      · exact Or.inl hold
      · exact Or.inr ⟨vs, List.mem_cons_self, heq⟩
    · exact Or.inr ⟨vs', List.mem_cons_of_mem _ hvs', heq⟩

variable (packages) in
theorem foldlM_added_eq_some_iff (hnodup : (records.map fun vs => (readBack vs).key).Nodup)
    (hnew : ∀ vs ∈ records, (readBack vs).key ∉ packages.map Prod.fst) :
    records.foldlM (fun packages vs => packages.added (readBack vs)) packages =
        some packages' ↔
      (∀ vs ∈ records, ((readBack vs).compareVersion (readBack vs)).isSome = true) ∧
        packages' = packages ++ records.map fun vs => ((readBack vs).key, readBack vs) := by
  induction records generalizing packages with
  | nil =>
    rw [List.foldlM_nil, List.map_nil, List.append_nil]
    exact ⟨fun h => ⟨nofun, (Option.some.inj h).symm⟩, fun h => congrArg some h.2.symm⟩
  | cons vs records ih =>
    rw [List.map_cons, List.nodup_cons] at hnodup
    have hnext : ∀ vs' ∈ records,
        (readBack vs').key ∉ (packages ++ [((readBack vs).key, readBack vs)]).map Prod.fst := by
      intro vs' hvs'
      rw [List.map_append, List.mem_append, not_or]
      refine ⟨hnew vs' (List.mem_cons_of_mem _ hvs'), fun hmem => hnodup.1 ?_⟩
      have heq : (readBack vs').key = (readBack vs).key := List.mem_singleton.mp hmem
      rw [← heq]
      exact List.mem_map_of_mem hvs'
    rw [List.foldlM_cons, added_of_new (hnew vs List.mem_cons_self), List.forall_mem_cons]
    cases hcompare : (readBack vs).compareVersion (readBack vs) with
    | none => simp
    | some r =>
      have hstep := ih _ hnodup.2 hnext
      rw [List.append_assoc] at hstep
      simpa using hstep

/-! ### Writing the records -/

section MapM

variable {α β : Type} {f : α → Option β} {l : List α}

theorem mapM_eq_some_map {g : α → β} (hf : ∀ x ∈ l, f x = some (g x)) :
    l.mapM f = some (l.map g) := by
  induction l with
  | nil => rfl
  | cons x l ih =>
    rw [List.mapM_cons, hf x List.mem_cons_self, ih fun x hx => hf x (List.mem_cons_of_mem _ hx)]
    rfl

theorem isSome_of_mapM {ys : List β} (hmap : l.mapM f = some ys) : ∀ x ∈ l,
    (f x).isSome = true := by
  induction l generalizing ys with
  | nil => exact nofun
  | cons x l ih =>
    rw [List.mapM_cons] at hmap
    obtain ⟨y, hy, hmap⟩ := Option.bind_eq_some_iff.mp hmap
    obtain ⟨ys', hys', -⟩ := Option.bind_eq_some_iff.mp hmap
    rw [List.forall_mem_cons, hy]
    exact ⟨rfl, ih hys'⟩

end MapM

def Describes (files : Text → Option File) (pkg : Package) (vs : Values) : Prop :=
  ∀ lf ∈ fields, pkg.value files lf.2 = some ((vs lf.2).map FieldValue.text)

theorem repr_eq {vs : Values} (hvs : Describes files pkg vs) :
    pkg.repr files = some (recordText fields vs ++ [LF]) := by
  have hmap : (fields.mapM fun lf => (pkg.value files lf.2).map (fieldText lf.1)) =
      some (fields.map fun lf => fieldText lf.1 ((vs lf.2).map FieldValue.text)) :=
    mapM_eq_some_map fun lf hlf => congrArg (Option.map (fieldText lf.1)) (hvs lf hlf)
  exact Option.bind_eq_some_iff.mpr ⟨_, hmap, rfl⟩

structure Packages.WellFormed (packages : Packages) : Prop where
  nodup : (packages.map Prod.fst).Nodup
  key_eq : ∀ entry ∈ packages, entry.1 = entry.2.key
  named : ∀ entry ∈ packages, (truthy (entry.2.dict .package)).isSome = true
  dict_isFieldValue : ∀ entry ∈ packages, ∀ a v, entry.2.dict a = some v → IsFieldValue v
  md5_isFieldValue : ∀ entry ∈ packages, ∀ v, entry.2.md5 = some v → IsFieldValue v

theorem isFieldValue_of_value (hdict : ∀ a v, pkg.dict a = some v → IsFieldValue v)
    (hmd5 : ∀ v, pkg.md5 = some v → IsFieldValue v) {field : Field}
    (hw : pkg.value files field = some (some w)) : IsFieldValue w := by
  cases field with
  | attr a =>
    obtain ⟨hvalue, -⟩ := truthy_eq_some_iff.mp (Option.some.inj hw)
    exact hdict a w hvalue
  | md5 =>
    obtain ⟨md5, hget, htruthy⟩ := Option.map_eq_some_iff.mp hw
    obtain ⟨heq, -⟩ := truthy_eq_some_iff.mp htruthy
    obtain rfl := Option.some.inj heq
    rw [Package.getMd5] at hget
    cases hcase : pkg.md5 with
    | some v =>
      rw [hcase] at hget
      exact Option.some.inj hget ▸ hmd5 v hcase
    | none =>
      rw [hcase] at hget
      obtain ⟨fn, -, hget⟩ := Option.bind_eq_some_iff.mp hget
      obtain ⟨file, -, hget⟩ := Option.bind_eq_some_iff.mp hget
      exact Option.some.inj hget ▸ isFieldValue_hexdigest file
  | size =>
    obtain ⟨size, -, hsize⟩ := Option.map_eq_some_iff.mp hw
    split at hsize
    · cases hsize
    · exact Option.some.inj hsize ▸ isFieldValue_formatInt size
  | installedSize =>
    rw [Package.value] at hw
    split at hw
    · cases hw
    · obtain ⟨size, -, hsize⟩ := Option.map_eq_some_iff.mp hw
      exact Option.some.inj hsize ▸ isFieldValue_formatInt size

theorem exists_describes (hdict : ∀ a v, pkg.dict a = some v → IsFieldValue v)
    (hmd5 : ∀ v, pkg.md5 = some v → IsFieldValue v)
    (hvalue : ∀ lf ∈ fields, (pkg.value files lf.2).isSome = true) :
    ∃ vs, Describes files pkg vs := by
  have hfield : ∀ field, ∃ v : Option FieldValue, (pkg.value files field).isSome = true →
      pkg.value files field = some (v.map FieldValue.text) := by
    intro field
    cases hcase : pkg.value files field with
    | none => exact ⟨none, nofun⟩
    | some value =>
      cases value with
      | none => exact ⟨none, fun _ => rfl⟩
      | some w =>
        obtain ⟨v, rfl⟩ := isFieldValue_of_value hdict hmd5 hcase
        exact ⟨some v, fun _ => rfl⟩
  choose vs hvs using hfield
  exact ⟨vs, fun lf hlf => hvs lf.2 (hvalue lf hlf)⟩

theorem value_of_repr {out : Text} (hrepr : pkg.repr files = some out) :
    ∀ lf ∈ fields, (pkg.value files lf.2).isSome = true := by
  intro lf hlf
  obtain ⟨lines, hlines, -⟩ := Option.bind_eq_some_iff.mp hrepr
  have hsome := isSome_of_mapM hlines lf hlf
  rwa [Option.isSome_map] at hsome

theorem Describes.isRecord {vs : Values} (hvs : Describes files pkg vs)
    (hnamed : (truthy (pkg.dict .package)).isSome = true) : IsRecord vs := by
  constructor
  · intro v hv
    have hsize : pkg.value files .size = some (some v.text) := by
      rw [hvs (ascii "Size", .size) (by decide), hv]
      rfl
    obtain ⟨size, -, htext⟩ := Option.map_eq_some_iff.mp hsize
    split at htext
    · cases htext
    · have hformat : formatInt size = v.text := Option.some.inj htext
      have hconts : v.conts = [] := by
        by_contra hne
        exact newline_notMem_formatInt size (hformat ▸ FieldValue.newline_mem_text_iff.mpr hne)
      rw [FieldValue.reread_of_single hconts, ← hformat, parseInt_formatInt]
      rfl
  · obtain ⟨name, hname⟩ := Option.isSome_iff_exists.mp hnamed
    have hvalue : pkg.value files (.attr .package) = some (some name) := congrArg some hname
    rw [hvs (ascii "Package", .attr .package) (by decide)] at hvalue
    obtain ⟨v, hv, htext⟩ := Option.map_eq_some_iff.mp (Option.some.inj hvalue)
    exact ⟨v, hv, htext ▸ (truthy_eq_some_iff.mp hname).2⟩

variable (files) in
theorem writePackagesFile_eq (hpackages : packages.WellFormed) :
    ∃ ps : List Package, ps.Perm (packages.map Prod.snd) ∧ (ps.map Package.key).Nodup ∧
      packages.writePackagesFile files = (ps.mapM (Package.repr files)).map List.flatten := by
  have hperm := List.mergeSort_perm (packages.map Prod.fst) fun a b => decide (a ≤ b)
  rw [Packages.writePackagesFile]
  generalize (packages.map Prod.fst).mergeSort (fun a b => decide (a ≤ b)) = names at hperm ⊢
  have hget : ∀ entry ∈ packages, packages.get entry.1 = some entry.2 :=
    fun entry hentry => (get_eq_some_iff hpackages.nodup).mpr hentry
  have hfilter : (packages.map Prod.fst).filterMap packages.get = packages.map Prod.snd := by
    rw [List.filterMap_map, ← List.filterMap_eq_map]
    exact List.filterMap_congr hget
  have hkey : ∀ name ∈ names, ∃ pkg, packages.get name = some pkg ∧ pkg.key = name := by
    intro name hname
    obtain ⟨entry, hentry, rfl⟩ := List.mem_map.mp (hperm.subset hname)
    exact ⟨entry.2, hget entry hentry, (hpackages.key_eq entry hentry).symm⟩
  have hnames : (names.filterMap packages.get).map Package.key = names ∧
      (names.mapM fun name => do
        let pkg ← packages.get name
        pkg.repr files) = (names.filterMap packages.get).mapM (Package.repr files) := by
    clear hperm
    induction names with
    | nil => exact ⟨rfl, rfl⟩
    | cons name names ih =>
      obtain ⟨pkg, hpkg, hkeyName⟩ := hkey name List.mem_cons_self
      obtain ⟨hmap, hmapM⟩ := ih fun name hname => hkey name (List.mem_cons_of_mem _ hname)
      rw [List.filterMap_cons_some hpkg, List.map_cons, hkeyName, hmap, List.mapM_cons,
        List.mapM_cons, hmapM, hpkg]
      exact ⟨rfl, rfl⟩
  refine ⟨names.filterMap packages.get, hfilter ▸ hperm.filterMap packages.get, ?_, ?_⟩
  · rw [hnames.1]
    exact hperm.nodup_iff.mpr hpackages.nodup
  · rw [← hnames.2, Option.map_eq_bind]
    rfl

/-! ### What survives -/

def Comparable (version : Text) : Prop := ∃ v, parseVersion version = some v ∧ v.version ≠ []

theorem newline_notMem_parseVersion {version : Text} {v : Version} (hversion : LF ∉ version)
    (hparse : parseVersion version = some v) : LF ∉ v.version := by
  rw [parseVersion] at hparse
  split at hparse
  · dsimp only at hparse
    split at hparse
    · cases hparse
    · obtain rfl := Option.some.inj hparse
      exact fun hmem => absurd (List.mem_takeWhile_imp hmem) (by decide)
  · obtain rfl := Option.some.inj hparse
    exact hversion

theorem compare_self_isSome_iff {v : Version} (hv : LF ∉ v.version) :
    (v.compare v).isSome = true ↔ v.version ≠ [] := by
  have hall : ∀ c ∈ v.version, decide (c ≠ LF) = true :=
    fun c hc => decide_eq_true fun heq => hv (heq ▸ hc)
  have htake : anything v.version = v.version := List.takeWhile_eq_self_iff.mpr hall
  have hdrop : v.version.dropWhile (· ≠ LF) = [] := List.dropWhile_eq_nil_iff.mpr hall
  have hcomps : verComps v.version =
      if v.version ≠ [] then some (splitRevision v.version) else none := by
    rw [verComps, hdrop, htake]
    simp
  rw [Version.compare, hcomps]
  by_cases hne : v.version = []
  · simp [hne]
  · simp only [Nat.lt_irrefl, if_false, hne, ne_eq, not_false_eq_true, if_true,
      Option.bind_eq_bind, Option.bind_some, iff_true]
    split <;> rfl

section ReadBack

variable {vs : Values} (hvs : Describes files pkg vs) {a : Attr}
  (ha : .attr a ∈ fields.map Prod.snd)

include hvs ha

theorem vs_attr : (vs (.attr a)).map FieldValue.text = truthy (pkg.dict a) := by
  obtain ⟨lf, hlf, heq⟩ := List.mem_map.mp ha
  have hvalue := hvs lf hlf
  rw [heq] at hvalue
  exact (Option.some.inj hvalue).symm

theorem readBack_dict_of_single (hw : truthy (pkg.dict a) = some w) (hLF : LF ∉ w) :
    (readBack vs).dict a = some w := by
  have hattr := vs_attr hvs ha
  rw [hw] at hattr
  obtain ⟨v, hv, rfl⟩ := Option.map_eq_some_iff.mp hattr
  have hconts : v.conts = [] := by
    by_contra hne
    exact hLF (FieldValue.newline_mem_text_iff.mpr hne)
  rw [readBack_dict ha, hv]
  exact congrArg some (FieldValue.reread_of_single hconts)

theorem readBack_dict_of_unwritten (hw : truthy (pkg.dict a) = none) :
    (readBack vs).dict a = Package.new.dict a := by
  have hattr := vs_attr hvs ha
  rw [hw] at hattr
  rw [readBack_dict ha, Option.map_eq_none_iff.mp hattr]

end ReadBack

theorem readBack_compare {vs : Values} (hvs : Describes files pkg vs)
    (hsingle : ∀ v, truthy (pkg.dict .version) = some v → LF ∉ v) :
    ((readBack vs).compareVersion (readBack vs)).isSome = true ↔
      ∀ v, truthy (pkg.dict .version) = some v → Comparable v := by
  obtain ⟨w, hw, hLF, hiff⟩ : ∃ w, (readBack vs).dict .version = some w ∧ LF ∉ w ∧
      (Comparable w ↔ ∀ v, truthy (pkg.dict .version) = some v → Comparable v) := by
    cases htruthy : truthy (pkg.dict .version) with
    | none =>
      refine ⟨ascii "none", readBack_dict_of_unwritten hvs (by decide) htruthy, by decide, ?_⟩
      exact iff_of_true ⟨⟨0, ascii "none"⟩, by decide, by decide⟩ nofun
    | some v =>
      refine ⟨v, readBack_dict_of_single hvs (by decide) htruthy (hsingle v htruthy),
        hsingle v htruthy, ?_⟩
      simp
  have hparsed : (readBack vs).parsedVersion = parseVersion w := by
    rw [Package.parsedVersion, readBack_dict_of_notMem (by decide), hw]
    rfl
  rw [← hiff, Package.compareVersion, hparsed, Comparable]
  cases hparse : parseVersion w with
  | none => simp
  | some v =>
    simp only [Option.bind_eq_bind, Option.bind_some, Option.some.injEq, exists_eq_left']
    exact compare_self_isSome_iff (newline_notMem_parseVersion hLF hparse)

/-- The condition on a package: its digest and its size can be had, its installed size is not
given, its architecture is not empty, its version can be compared, and it has no values of several
lines. -/
structure Survives (files : Text → Option File) (pkg : Package) : Prop where
  md5_isSome : (pkg.getMd5 files).isSome = true
  size_isSome : (pkg.getSize files).isSome = true
  installedSize : truthy (pkg.dict .installedSize) = none
  architecture_ne : pkg.dict .architecture ≠ some []
  comparable : ∀ v, truthy (pkg.dict .version) = some v → Comparable v
  single : ∀ lf ∈ fields, ∀ w, pkg.value files lf.2 = some (some w) → LF ∉ w

theorem readBack_key {vs : Values} (hvs : Describes files pkg vs)
    (hnamed : (truthy (pkg.dict .package)).isSome = true)
    (harchitecture : pkg.dict .architecture ≠ some [])
    (hsingle : ∀ lf ∈ fields, ∀ w, pkg.value files lf.2 = some (some w) → LF ∉ w) :
    (readBack vs).key = pkg.key := by
  have hdict : ∀ lf ∈ fields, ∀ a w, lf.2 = .attr a → truthy (pkg.dict a) = some w →
      formatAttr ((readBack vs).dict a) = formatAttr (pkg.dict a) := by
    intro lf hlf a w heq hw
    have hLF := hsingle lf hlf w (by rw [heq]; exact congrArg some hw)
    rw [readBack_dict_of_single hvs (heq ▸ List.mem_map_of_mem hlf) hw hLF,
      (truthy_eq_some_iff.mp hw).1]
  obtain ⟨name, hname⟩ := Option.isSome_iff_exists.mp hnamed
  have hpackage := hdict (ascii "Package", .attr .package) (by decide) _ name rfl hname
  have harch : formatAttr ((readBack vs).dict .architecture) =
      formatAttr (pkg.dict .architecture) := by
    cases hcase : truthy (pkg.dict .architecture) with
    | some w => exact hdict (ascii "Architecture", .attr .architecture) (by decide) _ w rfl hcase
    | none =>
      rw [readBack_dict_of_unwritten hvs (by decide) hcase]
      cases hvalue : pkg.dict .architecture with
      | none => rfl
      | some w =>
        rw [hvalue] at hcase harchitecture
        have hne : w ≠ [] := fun heq => harchitecture (congrArg some heq)
        rw [truthy_eq_some_iff.mpr ⟨rfl, hne⟩] at hcase
        cases hcase
  rw [Package.key, Package.key, hpackage, harch]

/-! ### The round trip -/

/-- The index is written and read back: the same keys, and for each of them every field that was
written. -/
def RoundTrips (files : Text → Option File) (packages : Packages) : Prop :=
  ∃ text packages', packages.writePackagesFile files = some text ∧
    Packages.readPackagesFile [] text = some packages' ∧
    (∀ name, (packages'.get name).isSome = (packages.get name).isSome) ∧
    ∀ name pkg, packages.get name = some pkg → ∃ pkg', packages'.get name = some pkg' ∧
      ∀ lf ∈ fields, ∀ w, pkg.value files lf.2 = some (some w) →
        pkg'.value files lf.2 = some (some w)

theorem Survives.value_isSome (h : Survives files pkg) :
    ∀ lf ∈ fields, (pkg.value files lf.2).isSome = true := by
  intro lf hlf
  obtain ⟨label, field⟩ := lf
  cases field with
  | attr a => rfl
  | md5 => simpa [Package.value] using h.md5_isSome
  | size => simpa [Package.value] using h.size_isSome
  | installedSize =>
    rw [Package.value, h.installedSize]
    rfl

theorem Survives.value_readBack {vs : Values} (h : Survives files pkg)
    (hvs : Describes files pkg vs) {lf : Text × Field} (hlf : lf ∈ fields)
    (hw : pkg.value files lf.2 = some (some w)) :
    (readBack vs).value files lf.2 = some (some w) := by
  have hLF := h.single lf hlf w hw
  have hvalue := hvs lf hlf
  rw [hw] at hvalue
  obtain ⟨v, hv, rfl⟩ := Option.map_eq_some_iff.mp (Option.some.inj hvalue).symm
  have hconts : v.conts = [] := by
    by_contra hne
    exact hLF (FieldValue.newline_mem_text_iff.mpr hne)
  have hreread := FieldValue.reread_of_single hconts
  have hmem : lf.2 ∈ fields.map Prod.snd := List.mem_map_of_mem hlf
  obtain ⟨label, field⟩ := lf
  cases field with
  | attr a =>
    rw [Opkgutils.value_readBack hv (truthy_eq_some_iff.mp (Option.some.inj hw)).2
      (Or.inr ⟨a, rfl, hmem⟩), hreread]
  | md5 =>
    obtain ⟨md5, -, htruthy⟩ := Option.map_eq_some_iff.mp hw
    obtain ⟨heq, hne⟩ := truthy_eq_some_iff.mp htruthy
    rw [Opkgutils.value_readBack hv hne (Or.inl rfl), hreread]
  | size =>
    obtain ⟨size, -, hsize⟩ := Option.map_eq_some_iff.mp hw
    split at hsize
    case isTrue => cases hsize
    case isFalse hne =>
      have hformat : formatInt size = v.text := Option.some.inj hsize
      have hget : (readBack vs).size = some size := by
        rw [readBack_size, hv, Option.bind_some, hreread, ← hformat, parseInt_formatInt]
      rw [Package.value, Package.getSize, hget, Option.map_some, if_neg hne, hformat]
  | installedSize =>
    rw [Package.value, h.installedSize] at hw
    cases hw

theorem exists_index (hpackages : packages.WellFormed)
    (hvalue : ∀ entry ∈ packages, ∀ lf ∈ fields, (entry.2.value files lf.2).isSome = true) :
    ∃ (ps : List Package) (valuesOf : Package → Values),
      (∀ pkg, pkg ∈ ps ↔ (pkg.key, pkg) ∈ packages) ∧ (ps.map Package.key).Nodup ∧
      (∀ pkg ∈ ps, Describes files pkg (valuesOf pkg) ∧ IsRecord (valuesOf pkg)) ∧
      packages.writePackagesFile files = some (indexText (ps.map valuesOf)) := by
  obtain ⟨ps, hperm, hnodup, hwrite⟩ := writePackagesFile_eq files hpackages
  have hps : ∀ pkg, pkg ∈ ps ↔ (pkg.key, pkg) ∈ packages := by
    intro pkg
    rw [hperm.mem_iff, List.mem_map]
    constructor
    · rintro ⟨entry, hentry, rfl⟩
      rw [← hpackages.key_eq entry hentry]
      exact hentry
    · exact fun hmem => ⟨_, hmem, rfl⟩
  have hdescribes : ∀ pkg, ∃ vs, pkg ∈ ps → Describes files pkg vs := by
    intro pkg
    by_cases hpkg : pkg ∈ ps
    · have hmem := (hps pkg).mp hpkg
      obtain ⟨vs, hvs⟩ := exists_describes (hpackages.dict_isFieldValue _ hmem)
        (hpackages.md5_isFieldValue _ hmem) (hvalue _ hmem)
      exact ⟨vs, fun _ => hvs⟩
    · exact ⟨fun _ => none, fun h => absurd h hpkg⟩
  choose valuesOf hvaluesOf using hdescribes
  refine ⟨ps, valuesOf, hps, hnodup, fun pkg hpkg => ⟨hvaluesOf pkg hpkg, ?_⟩, ?_⟩
  · exact (hvaluesOf pkg hpkg).isRecord (hpackages.named _ ((hps pkg).mp hpkg))
  · have hrepr : ps.mapM (Package.repr files) =
        some (ps.map fun pkg => recordText fields (valuesOf pkg) ++ [LF]) :=
      mapM_eq_some_map fun pkg hpkg => repr_eq (hvaluesOf pkg hpkg)
    rw [hwrite, hrepr, indexText, List.flatMap_map]
    rfl

theorem value_isSome_of_write (hpackages : packages.WellFormed) {text : Text}
    (hwrite : packages.writePackagesFile files = some text) :
    ∀ entry ∈ packages, ∀ lf ∈ fields, (entry.2.value files lf.2).isSome = true := by
  obtain ⟨ps, hperm, -, heq⟩ := writePackagesFile_eq files hpackages
  rw [hwrite] at heq
  obtain ⟨outs, houts, -⟩ := Option.map_eq_some_iff.mp heq.symm
  intro entry hentry
  have hmem : entry.2 ∈ ps := hperm.symm.subset (List.mem_map_of_mem hentry)
  obtain ⟨out, hout⟩ := Option.isSome_iff_exists.mp (isSome_of_mapM houts _ hmem)
  exact value_of_repr hout

theorem RoundTrips.of_survives (hpackages : packages.WellFormed)
    (hsurvives : ∀ entry ∈ packages, Survives files entry.2) : RoundTrips files packages := by
  obtain ⟨ps, valuesOf, hps, hnodup, hvalues, hwrite⟩ := exists_index hpackages
    fun entry hentry => (hsurvives entry hentry).value_isSome
  have hsurvivesPs : ∀ pkg ∈ ps, Survives files pkg :=
    fun pkg hpkg => hsurvives _ ((hps pkg).mp hpkg)
  have hkey : ∀ pkg ∈ ps, (readBack (valuesOf pkg)).key = pkg.key := by
    intro pkg hpkg
    have hsurvive := hsurvivesPs pkg hpkg
    exact readBack_key (hvalues pkg hpkg).1 (hpackages.named _ ((hps pkg).mp hpkg))
      hsurvive.architecture_ne hsurvive.single
  have hkeys : ((ps.map valuesOf).map fun vs => (readBack vs).key) = ps.map Package.key := by
    rw [List.map_map]
    exact List.map_congr_left hkey
  have hcompare : ∀ vs ∈ ps.map valuesOf,
      ((readBack vs).compareVersion (readBack vs)).isSome = true := by
    intro vs hvs
    obtain ⟨pkg, hpkg, rfl⟩ := List.mem_map.mp hvs
    have hsurvive := hsurvivesPs pkg hpkg
    refine (readBack_compare (hvalues pkg hpkg).1 fun v hv => ?_).mpr hsurvive.comparable
    exact hsurvive.single (ascii "Version", .attr .version) (by decide) v (congrArg some hv)
  have hrecords : ∀ vs ∈ ps.map valuesOf, IsRecord vs := by
    intro vs hvs
    obtain ⟨pkg, hpkg, rfl⟩ := List.mem_map.mp hvs
    exact (hvalues pkg hpkg).2
  have hread := (foldlM_added_eq_some_iff [] (hkeys ▸ hnodup)
    fun vs _ => List.not_mem_nil).mpr ⟨hcompare, rfl⟩
  rw [← readPackagesFile_indexText hrecords, List.nil_append] at hread
  have hfst : (((ps.map valuesOf).map fun vs => ((readBack vs).key, readBack vs)).map Prod.fst) =
      ps.map Package.key := by
    rw [List.map_map]
    exact hkeys
  refine ⟨_, _, hwrite, hread, fun name => ?_, fun name pkg hget => ?_⟩
  · rw [Bool.eq_iff_iff, get_isSome_iff, get_isSome_iff, hfst, List.mem_map, List.mem_map]
    constructor
    · rintro ⟨pkg, hpkg, rfl⟩
      exact ⟨_, (hps pkg).mp hpkg, rfl⟩
    · rintro ⟨entry, hentry, rfl⟩
      rw [hpackages.key_eq entry hentry]
      refine ⟨entry.2, (hps entry.2).mpr ?_, rfl⟩
      rw [← hpackages.key_eq entry hentry]
      exact hentry
  · have hmem := (get_eq_some_iff hpackages.nodup).mp hget
    have hname : name = pkg.key := hpackages.key_eq _ hmem
    subst hname
    have hpkg := (hps pkg).mpr hmem
    refine ⟨readBack (valuesOf pkg), ?_, fun lf hlf w hw => ?_⟩
    · rw [get_eq_some_iff (hfst ▸ hnodup), ← hkey pkg hpkg]
      exact List.mem_map_of_mem (List.mem_map_of_mem hpkg)
    · exact (hsurvivesPs pkg hpkg).value_readBack (hvalues pkg hpkg).1 hlf hw

/-! ### What the round trip needs -/

section Needs

variable {vs : Values} (hkept : ∀ lf ∈ fields, ∀ w, pkg.value files lf.2 = some (some w) →
    (readBack vs).value files lf.2 = some (some w))

include hkept

theorem single_of_kept (hdict : ∀ a v, pkg.dict a = some v → IsFieldValue v)
    (hmd5 : ∀ v, pkg.md5 = some v → IsFieldValue v) :
    ∀ lf ∈ fields, ∀ w, pkg.value files lf.2 = some (some w) → LF ∉ w := by
  intro lf hlf w hw
  rcases of_value_readBack hlf (hkept lf hlf w hw) with hLF | ⟨v, hv⟩
  · exact hLF
  · obtain ⟨v', hv'⟩ := isFieldValue_of_value hdict hmd5 hw
    obtain ⟨hconts, htext⟩ := FieldValue.single_of_reread_eq (hv.trans hv'.symm)
    rw [← hv', ← htext, FieldValue.newline_mem_text_iff]
    exact fun hne => hne hconts

theorem installedSize_of_kept (hvalue : ∀ lf ∈ fields, (pkg.value files lf.2).isSome = true) :
    truthy (pkg.dict .installedSize) = none := by
  have hmem : (ascii "InstalledSize", Field.installedSize) ∈ fields := by decide
  cases hsize : truthy (pkg.dict .installedSize) with
  | none => rfl
  | some size =>
    obtain ⟨value, hvalue⟩ := Option.isSome_iff_exists.mp (hvalue _ hmem)
    have hparse := hvalue
    rw [Package.value, hsize] at hparse
    obtain ⟨n, -, hn⟩ := Option.map_eq_some_iff.mp hparse
    have hback := hkept _ hmem (formatInt n) (hvalue.trans (congrArg some hn.symm))
    rw [Package.value, readBack_dict_of_notMem (by decide)] at hback
    cases hback

end Needs

theorem readBack_key_ne {vs : Values} (hvs : Describes files pkg vs)
    (harchitecture : pkg.dict .architecture = some []) {pkg' : Package}
    (harchitecture' : pkg'.dict .architecture = some []) : (readBack vs).key ≠ pkg'.key := by
  have hback : (readBack vs).dict .architecture = none :=
    readBack_dict_of_unwritten hvs (by decide) (by rw [harchitecture]; rfl)
  intro heq
  have hlast := congrArg List.getLast? heq
  rw [Package.key, Package.key, hback, harchitecture',
    List.getLast?_append_of_ne_nil _ (by decide : formatAttr none ≠ [])] at hlast
  have hcolon : (formatAttr (pkg'.dict .package) ++ ascii ":" ++ formatAttr (some [])).getLast? =
      some 58 := by
    rw [show formatAttr (some []) = [] from rfl, List.append_nil]
    exact List.getLast?_concat
  rw [hcolon] at hlast
  exact absurd hlast (by decide)

theorem survives_of_roundTrips (hpackages : packages.WellFormed)
    (h : RoundTrips files packages) : ∀ entry ∈ packages, Survives files entry.2 := by
  obtain ⟨text, packages', hwrite, hread, -, hkept⟩ := h
  have hvalue := value_isSome_of_write hpackages hwrite
  obtain ⟨ps, valuesOf, hps, hnodup, hvalues, hwrite'⟩ := exists_index hpackages hvalue
  obtain rfl := Option.some.inj (hwrite'.symm.trans hwrite)
  have hrecords : ∀ vs ∈ ps.map valuesOf, IsRecord vs := by
    intro vs hvs
    obtain ⟨pkg, hpkg, rfl⟩ := List.mem_map.mp hvs
    exact (hvalues pkg hpkg).2
  rw [readPackagesFile_indexText hrecords] at hread
  -- what stands in the new index for a package has been read from some record
  have hback : ∀ pkg ∈ ps, ∃ pkg' ∈ ps, (readBack (valuesOf pkg')).key = pkg.key ∧
      ∀ lf ∈ fields, ∀ w, pkg.value files lf.2 = some (some w) →
        (readBack (valuesOf pkg')).value files lf.2 = some (some w) := by
    intro pkg hpkg
    obtain ⟨found, hfound, hfields⟩ :=
      hkept pkg.key pkg ((get_eq_some_iff hpackages.nodup).mpr ((hps pkg).mp hpkg))
    rcases mem_of_foldlM_added hread (mem_of_get hfound) with hold | ⟨vs, hvs, heq⟩
    · exact absurd hold List.not_mem_nil
    · obtain ⟨pkg', hpkg', rfl⟩ := List.mem_map.mp hvs
      obtain ⟨hkey, rfl⟩ := Prod.mk.inj heq
      exact ⟨pkg', hpkg', hkey.symm, hfields⟩
  have hsingle : ∀ pkg ∈ ps, ∀ lf ∈ fields, ∀ w, pkg.value files lf.2 = some (some w) → LF ∉ w := by
    intro pkg hpkg
    obtain ⟨pkg', -, -, hfields⟩ := hback pkg hpkg
    have hmem := (hps pkg).mp hpkg
    exact single_of_kept hfields (hpackages.dict_isFieldValue _ hmem)
      (hpackages.md5_isFieldValue _ hmem)
  have harchitecture : ∀ pkg ∈ ps, pkg.dict .architecture ≠ some [] := by
    intro pkg hpkg hempty
    obtain ⟨pkg', hpkg', hkey, -⟩ := hback pkg hpkg
    by_cases hempty' : pkg'.dict .architecture = some []
    · exact readBack_key_ne (hvalues pkg' hpkg').1 hempty' hempty hkey
    · rw [readBack_key (hvalues pkg' hpkg').1 (hpackages.named _ ((hps pkg').mp hpkg')) hempty'
        (hsingle pkg' hpkg')] at hkey
      exact hempty' (List.inj_on_of_nodup_map hnodup hpkg' hpkg hkey ▸ hempty)
  have hkeys : ((ps.map valuesOf).map fun vs => (readBack vs).key) = ps.map Package.key := by
    rw [List.map_map]
    refine List.map_congr_left fun pkg hpkg => ?_
    exact readBack_key (hvalues pkg hpkg).1 (hpackages.named _ ((hps pkg).mp hpkg))
      (harchitecture pkg hpkg) (hsingle pkg hpkg)
  obtain ⟨hcompare, -⟩ := (foldlM_added_eq_some_iff _ (hkeys ▸ hnodup)
    fun vs _ => List.not_mem_nil).mp hread
  intro entry hentry
  have hpkg : entry.2 ∈ ps := by
    rw [hps, ← hpackages.key_eq entry hentry]
    exact hentry
  obtain ⟨pkg', -, -, hfields⟩ := hback _ hpkg
  refine ⟨?_, ?_, installedSize_of_kept hfields (hvalue entry hentry), harchitecture _ hpkg,
    ?_, hsingle _ hpkg⟩
  · simpa [Package.value] using hvalue entry hentry (ascii "MD5Sum", .md5) (by decide)
  · simpa [Package.value] using hvalue entry hentry (ascii "Size", .size) (by decide)
  · refine (readBack_compare (hvalues _ hpkg).1 fun v hv => ?_).mp
      (hcompare _ (List.mem_map_of_mem hpkg))
    exact hsingle _ hpkg (ascii "Version", .attr .version) (by decide) v (congrArg some hv)

/-- **The index round trips when every package in it survives.** -/
theorem roundTrips_iff (hpackages : packages.WellFormed) :
    RoundTrips files packages ↔ ∀ entry ∈ packages, Survives files entry.2 :=
  ⟨survives_of_roundTrips hpackages, RoundTrips.of_survives hpackages⟩

/-- A package that has just been read, with its digest and size still to be asked for. -/
def described (description : Text) : Package where
  dict := Function.update (Function.update (Function.update Package.new.dict
    .package (some (ascii "a"))) .fn (some (ascii "a.ipk"))) .description (some description)
  md5 := none
  size := none

theorem wellFormed_described {description : Text} (hdescription : IsFieldValue description) :
    Packages.WellFormed [(ascii "a:None", described description)] where
  nodup := List.nodup_singleton _
  key_eq entry hentry := by
    obtain rfl := List.mem_singleton.mp hentry
    rfl
  named entry hentry := by
    obtain rfl := List.mem_singleton.mp hentry
    rfl
  dict_isFieldValue entry hentry a v hv := by
    obtain rfl := List.mem_singleton.mp hentry
    cases a with
    | description => exact Option.some.inj hv ▸ hdescription
    | package =>
      obtain rfl : ascii "a" = v := Option.some.inj hv
      exact isFieldValue_line (by decide +kernel) (by decide +kernel) (by decide +kernel)
    | fn =>
      obtain rfl : ascii "a.ipk" = v := Option.some.inj hv
      exact isFieldValue_line (by decide +kernel) (by decide +kernel) (by decide +kernel)
    | version =>
      obtain rfl : ascii "none" = v := Option.some.inj hv
      exact isFieldValue_line (by decide +kernel) (by decide +kernel) (by decide +kernel)
    | _ => cases hv
  md5_isFieldValue entry hentry v hv := by
    obtain rfl := List.mem_singleton.mp hentry
    cases hv

theorem isFieldValue_lines : IsFieldValue (ascii "b" ++ LF :: ascii " c") :=
  ⟨{ first := ascii "b", conts := [ascii " c"], newline_notMem := by decide,
     cont := by decide, first_start := by decide, first_end := by decide }, by decide⟩

theorem roundTrips_described :
    RoundTrips (fun _ => some File.empty) [(ascii "a:None", described (ascii "b"))] := by
  have hline : IsFieldValue (ascii "b") :=
    isFieldValue_line (by decide +kernel) (by decide +kernel) (by decide +kernel)
  refine (roundTrips_iff (wellFormed_described hline)).mpr fun entry hentry => ?_
  obtain rfl := List.mem_singleton.mp hentry
  have hsingle : ∀ lf ∈ fields,
      ∀ w ∈ ((described (ascii "b")).value (fun _ => some File.empty) lf.2).join, LF ∉ w := by decide
  refine ⟨rfl, rfl, rfl, by decide, fun v hv => ?_, fun lf hlf w hw => ?_⟩
  · obtain rfl : ascii "none" = v := Option.some.inj hv
    exact ⟨⟨0, ascii "none"⟩, by decide, by decide⟩
  · exact hsingle lf hlf w (Option.join_eq_some_iff.mpr hw)

theorem not_roundTrips_described :
    ¬ ∀ (files : Text → Option File) (packages : Packages), packages.WellFormed →
      RoundTrips files packages := by
  intro h
  have hround := h (fun _ => some File.empty) _ (wellFormed_described isFieldValue_lines)
  have hsurvives := survives_of_roundTrips (wellFormed_described isFieldValue_lines) hround _
    (List.mem_singleton_self _)
  exact hsurvives.single (ascii "Description", .attr .description) (by decide) _ rfl (by decide)

end Openmoko.Opkgutils
