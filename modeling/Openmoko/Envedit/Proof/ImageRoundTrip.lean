import Openmoko.Envedit.Env
import Mathlib.Algebra.GroupWithZero.Nat
import Mathlib.Data.List.Nodup
import Mathlib.Data.List.Perm.Basic

/-!
# Round trip of the environment image

What `write_env` writes, `read_env` accepts and `parse_env` reads back as the same variables, for
every array of variables that `set_var` and `del_var` can build.
-/

namespace Openmoko.Envedit

def live (vars : List Slot) : List Var := vars.filterMap id

@[simp]
theorem live_nil : live [] = [] := rfl

@[simp]
theorem live_none (vars : List Slot) : live (none :: vars) = live vars := rfl

@[simp]
theorem live_some (v : Var) (vars : List Slot) : live (some v :: vars) = v :: live vars := rfl

@[simp]
theorem live_append (vars others : List Slot) : live (vars ++ others) = live vars ++ live others :=
  List.filterMap_append

@[simp]
theorem live_replicate_none (n : Nat) : live (List.replicate n none) = [] := by
  induction n with
  | zero => rfl
  | succ n ih => rw [List.replicate_succ, live_none, ih]

def find (name : List Byte) : List Var → Option (List Byte)
  | [] => none
  | v :: vars => if v.name = name then some v.value else find name vars

def lookup (vars : List Slot) (name : List Byte) : Option (List Byte) := find name (live vars)

theorem find_append (name : List Byte) (vars others : List Var) :
    find name (vars ++ others) = (find name vars).or (find name others) := by
  induction vars with
  | nil => rfl
  | cons v vars ih =>
    rw [List.cons_append, find, find]
    split
    · rfl
    · exact ih

variable {vars : List Var}

variable {name : List Byte}

theorem find_eq_none_iff : find name vars = none ↔ ∀ v ∈ vars, v.name ≠ name := by
  induction vars with
  | nil => simp [find]
  | cons v vars ih =>
    rw [find]
    split
    · next heq => simp [heq]
    · next hne => simp [hne, ih]

theorem find_eq_some_iff {value : List Byte} (hnodup : (vars.map Var.name).Nodup) :
    find name vars = some value ↔ ⟨name, value⟩ ∈ vars := by
  induction vars with
  | nil => simp [find]
  | cons v vars ih =>
    rw [List.map_cons, List.nodup_cons] at hnodup
    rw [find, List.mem_cons]
    split
    · next heq =>
        have hnot : (⟨name, value⟩ : Var) ∉ vars := by
          intro hmem
          apply hnodup.1
          rw [heq]
          exact List.mem_map_of_mem hmem
        cases v
        simp_all [eq_comm]
    · next hne =>
        rw [ih hnodup.2]
        constructor
        · exact Or.inr
        · rintro (rfl | hmem)
          · exact absurd rfl hne
          · exact hmem

theorem find_perm {others : List Var} (hperm : vars.Perm others)
    (hnodup : (vars.map Var.name).Nodup) (name : List Byte) :
    find name vars = find name others := by
  have hnodup' := (hperm.map Var.name).nodup_iff.mp hnodup
  apply Option.ext
  intro value
  rw [find_eq_some_iff hnodup, find_eq_some_iff hnodup', hperm.mem_iff]

theorem find_replaceValue {value : List Byte} {vars vars' : List Slot}
    (h : replaceValue name value vars = some vars') (key : List Byte) :
    lookup vars' key = if key = name then some value else lookup vars key := by
  induction vars generalizing vars' with
  | nil => cases h
  | cons slot vars ih =>
    cases slot with
    | none =>
      rw [replaceValue, Option.map_eq_some_iff] at h
      obtain ⟨rest, hrest, rfl⟩ := h
      simpa [lookup] using ih hrest
    | some v =>
      rw [replaceValue] at h
      split at h
      · next heq =>
          obtain rfl := Option.some.inj h
          subst heq
          by_cases hkey : key = v.name
          · simp [lookup, find, hkey]
          · simp [lookup, find, hkey, Ne.symm hkey]
      · next hne =>
          obtain ⟨rest, hrest, rfl⟩ := Option.map_eq_some_iff.mp h
          have hih := ih hrest
          by_cases hkey : key = name
          · subst hkey
            simpa [lookup, find, hne] using hih
          · simp only [lookup, live_some, find, hkey, if_false] at hih ⊢
            rw [hih]

theorem replaceValue_eq_none {value : List Byte} {vars : List Slot}
    (h : replaceValue name value vars = none) : lookup vars name = none := by
  induction vars with
  | nil => rfl
  | cons slot vars ih =>
    cases slot with
    | none =>
      rw [replaceValue, Option.map_eq_none_iff] at h
      exact ih h
    | some v =>
      rw [replaceValue] at h
      split at h
      · cases h
      · next hne =>
          rw [Option.map_eq_none_iff] at h
          simpa [lookup, find, hne] using ih h

theorem live_fillUnused {value : List Byte} {vars vars' : List Slot}
    (h : fillUnused name value vars = some vars') :
    ∃ before after, live vars = before ++ after ∧
      live vars' = before ++ ⟨name, value⟩ :: after := by
  induction vars generalizing vars' with
  | nil => cases h
  | cons slot vars ih =>
    rw [fillUnused] at h
    split at h
    · next rest hrest =>
        obtain rfl := Option.some.inj h
        obtain ⟨before, after, hvars, hrest⟩ := ih hrest
        cases slot with
        | none => exact ⟨before, after, hvars, hrest⟩
        | some v => exact ⟨v :: before, after, by simp [hvars], by simp [hrest]⟩
    · split at h
      · next hnone =>
          obtain rfl := Option.some.inj h
          subst hnone
          exact ⟨[], live vars, rfl, rfl⟩
      · cases h

theorem find_insert {value : List Byte} {before after : List Var}
    (hnone : find name (before ++ after) = none) (key : List Byte) :
    find key (before ++ ⟨name, value⟩ :: after) =
      if key = name then some value else find key (before ++ after) := by
  rw [find_append, find_append, find]
  by_cases hkey : key = name
  · subst hkey
    rw [find_append, Option.or_eq_none_iff] at hnone
    simp [hnone.1]
  · rw [if_neg (Ne.symm hkey), if_neg hkey]

/-- **`set_var` is the update of the map.** -/
theorem lookup_setVar (vars : List Slot) (name value key : List Byte) :
    lookup (setVar vars name value) key = if key = name then some value else lookup vars key := by
  rw [setVar]
  split
  · next vars' h => exact find_replaceValue h key
  · next h =>
      have hnone := replaceValue_eq_none h
      split
      · next vars' hfill =>
          obtain ⟨before, after, hvars, hvars'⟩ := live_fillUnused hfill
          rw [lookup, hvars] at hnone
          rw [lookup, lookup, hvars, hvars']
          exact find_insert hnone key
      · have hlive : live (grow name value vars) = live vars ++ [⟨name, value⟩] := by
          simp [grow]
        rw [lookup, lookup, hlive]
        have hinsert := @find_insert name value (live vars) [] (by simpa [lookup] using hnone) key
        simpa using hinsert

theorem lookup_foldl_setVar (hnodup : (vars.map Var.name).Nodup)
    (slots : List Slot) (key : List Byte) :
    lookup (vars.foldl (fun slots v => setVar slots v.name v.value) slots) key =
      (find key vars).or (lookup slots key) := by
  induction vars generalizing slots with
  | nil => rfl
  | cons v vars ih =>
    rw [List.map_cons, List.nodup_cons] at hnodup
    rw [List.foldl_cons, ih hnodup.2, lookup_setVar, find]
    by_cases hkey : v.name = key
    · subst hkey
      have hnone : find v.name vars = none := by
        rw [find_eq_none_iff]
        intro w hw heq
        exact hnodup.1 (heq ▸ List.mem_map_of_mem hw)
      simp [hnone]
    · simp [hkey, Ne.symm hkey]

structure Var.Valid (v : Var) : Prop where
  name_ne_nil : v.name ≠ []
  equals_notMem_name : EQUALS ∉ v.name
  nul_notMem_name : NUL ∉ v.name
  value_ne_nil : v.value ≠ []
  nul_notMem_value : NUL ∉ v.value

structure IsMap (vars : List Slot) : Prop where
  valid : ∀ v ∈ live vars, v.Valid
  nodup : ((live vars).map Var.name).Nodup

theorem isMap_nil : IsMap [] := by
  constructor
  · intro v hv
    cases hv
  · exact List.nodup_nil

theorem live_replaceValue {value : List Byte} {vars vars' : List Slot}
    (h : replaceValue name value vars = some vars') :
    (live vars').map Var.name = (live vars).map Var.name ∧
      ∀ v ∈ live vars', v ∈ live vars ∨ v = ⟨name, value⟩ := by
  induction vars generalizing vars' with
  | nil => cases h
  | cons slot vars ih =>
    cases slot with
    | none =>
      obtain ⟨rest, hrest, rfl⟩ := Option.map_eq_some_iff.mp h
      simpa using ih hrest
    | some v =>
      rw [replaceValue] at h
      split at h
      · next heq =>
          obtain rfl := Option.some.inj h
          subst heq
          refine ⟨rfl, fun w hw => ?_⟩
          rw [live_some, List.mem_cons] at hw ⊢
          tauto
      · obtain ⟨rest, hrest, rfl⟩ := Option.map_eq_some_iff.mp h
        obtain ⟨hnames, hvalues⟩ := ih hrest
        refine ⟨by simp [hnames], fun w hw => ?_⟩
        rw [live_some, List.mem_cons] at hw ⊢
        have hrest := hvalues w
        tauto

variable {v : Var}

theorem isMap_insert {vars vars' : List Slot} {before after : List Var}
    (hvars : IsMap vars) (hv : v.Valid) (hnone : lookup vars v.name = none)
    (hlive : live vars = before ++ after) (hlive' : live vars' = before ++ v :: after) :
    IsMap vars' := by
  have hperm : (live vars').Perm (v :: live vars) := by
    rw [hlive, hlive']
    exact List.perm_middle
  constructor
  · intro w hw
    rw [hperm.mem_iff, List.mem_cons] at hw
    obtain rfl | hw := hw
    · exact hv
    · exact hvars.valid w hw
  · rw [(hperm.map Var.name).nodup_iff, List.map_cons, List.nodup_cons]
    refine ⟨fun hmem => ?_, hvars.nodup⟩
    obtain ⟨w, hw, heq⟩ := List.mem_map.mp hmem
    exact find_eq_none_iff.mp hnone w hw heq

theorem IsMap.setVar {vars : List Slot} (hvars : IsMap vars) (hv : v.Valid) :
    IsMap (setVar vars v.name v.value) := by
  rw [Envedit.setVar]
  split
  · next vars' h =>
      obtain ⟨hnames, hvalues⟩ := live_replaceValue h
      constructor
      · intro w hw
        obtain hw | rfl := hvalues w hw
        · exact hvars.valid w hw
        · exact hv
      · rw [hnames]
        exact hvars.nodup
  · next h =>
      have hnone := replaceValue_eq_none h
      split
      · next vars' hfill =>
          obtain ⟨before, after, hlive, hlive'⟩ := live_fillUnused hfill
          exact isMap_insert hvars hv hnone hlive hlive'
      · apply isMap_insert hvars hv hnone (List.append_nil _).symm
        simp [grow]

theorem live_delVar_sublist (name : List Byte) (vars : List Slot) :
    (live (delVar name vars)).Sublist (live vars) := by
  induction vars with
  | nil => exact List.Sublist.refl _
  | cons slot vars ih =>
    cases slot with
    | none => exact ih
    | some v =>
      rw [delVar]
      split
      · exact List.sublist_cons_self v _
      · exact ih.cons_cons v

theorem IsMap.delVar {vars : List Slot} (hvars : IsMap vars) (name : List Byte) :
    IsMap (delVar name vars) := by
  have hsub := live_delVar_sublist name vars
  constructor
  · intro v hv
    exact hvars.valid v (hsub.subset hv)
  · exact hvars.nodup.sublist (hsub.map Var.name)

theorem live_resetVar_perm (vars : List Slot) : (live (resetVar vars)).Perm (live vars) :=
  (List.mergeSort_perm vars _).filterMap id

def entries (vars : List Var) : List Byte := vars.flatMap fun v => v.text ++ [NUL]

@[simp]
theorem entries_nil : entries [] = [] := rfl

@[simp]
theorem entries_cons (v : Var) (vars : List Var) :
    entries (v :: vars) = v.text ++ [NUL] ++ entries vars := rfl

theorem Var.text_length (v : Var) : v.text.length = v.name.length + v.value.length + 1 := by
  rw [Var.text, List.length_append, List.length_cons]
  omega

def imageSize (vars : List Slot) : Nat :=
  4 + ((live vars).map fun v => v.text.length + 1).sum + 1

theorem imageSize_eq (vars : List Slot) : imageSize vars = 4 +
    (entries (live vars)).length + 1 := by
  simp [imageSize, entries, List.length_flatMap]

theorem imageSize_resetVar (vars : List Slot) : imageSize (resetVar vars) = imageSize vars := by
  rw [imageSize, imageSize, ((live_resetVar_perm vars).map _).sum_nat]

theorem store_append (done old rest bytes : List Byte) (hlength : old.length = bytes.length) :
    store (done ++ (old ++ rest)) done.length bytes = .ok (done ++ bytes ++ rest) := by
  have hroom : done.length + bytes.length ≤ (done ++ (old ++ rest)).length := by
    simp [hlength]
  have hdrop : (done ++ (old ++ rest)).drop (done.length + bytes.length) = rest := by
    rw [← List.append_assoc]
    exact List.drop_left' (by simp [hlength])
  rw [store, if_pos hroom, List.take_left, hdrop]

theorem sprintf_zeros (done text : List Byte) (zeros : Nat) :
    sprintf (done ++ List.replicate (text.length + 1 + zeros) NUL) done.length text =
      .ok (done ++ (text ++ [NUL]) ++ List.replicate zeros NUL, text.length) := by
  rw [sprintf, ← List.replicate_append_replicate, store_append _ _ _ _ (by simp)]
  rfl

theorem writeVars_zeros (envSize : Nat) (curr : List Slot) (done : List Byte) (zeros : Nat)
    (hsize : done.length + zeros = envSize) (hzeros : 0 < zeros) :
    writeVars envSize curr (done ++ List.replicate zeros NUL) done.length =
      if envSize < done.length + (entries (live curr)).length + 1 then .error .environmentTooBig
      else .ok (done ++ entries (live curr) ++
        List.replicate (zeros - (entries (live curr)).length) NUL) := by
  induction curr generalizing done zeros with
  | nil =>
    rw [if_neg (by simp; omega)]
    simp [writeVars]
  | cons slot curr ih =>
    cases slot with
    | none => exact ih done zeros hsize hzeros
    | some v =>
      have htext := v.text_length
      have hentry : (entries (live (some v :: curr))).length =
          v.text.length + 1 + (entries (live curr)).length := by
        simp
        omega
      rw [writeVars, hentry]
      by_cases hbig : envSize < done.length + v.name.length + v.value.length + 3
      · rw [if_pos hbig, if_pos (by omega)]
      · obtain ⟨left, rfl⟩ : ∃ left, zeros = v.text.length + 1 + left :=
          Nat.exists_eq_add_of_le (by omega)
        have hlength : (done ++ (v.text ++ [NUL])).length =
            done.length + v.text.length + 1 := by
          simp
          omega
        rw [if_neg hbig, sprintf_zeros]
        have hnext := ih (done ++ (v.text ++ [NUL])) left (by omega) (by omega)
        rw [hlength] at hnext
        refine hnext.trans ?_
        congr 1
        · apply propext
          omega
        · simp [Nat.add_sub_add_left]

theorem loadCrc_crcBytes (crc : UInt32) (rest : List Byte) :
    loadCrc (crcBytes crc ++ rest) = crc := by
  apply UInt32.toBitVec_inj.mp
  ext i hi
  simp [-UInt32.toUInt32_toUInt8, crcBytes, loadCrc, BitVec.getLsbD_eq_getElem, hi]
  grind

theorem EQUALS_ne_NUL : EQUALS ≠ NUL := by decide

theorem Var.Valid.nul_notMem_text (hv : v.Valid) : NUL ∉ v.text := by
  rw [Var.text, List.mem_append, List.mem_cons, not_or, not_or]
  exact ⟨hv.nul_notMem_name, EQUALS_ne_NUL.symm, hv.nul_notMem_value⟩

theorem parseEnv_entry (hv : v.Valid) (rest : List Byte) (vars : List Slot) :
    parseEnv (v.text ++ NUL :: rest) vars = parseEnv rest (setVar vars v.name v.value) := by
  have hentry : cstr (v.text ++ NUL :: rest) = v.text := cstr_append_nul hv.nul_notMem_text rest
  have heq : strchr v.text EQUALS = some v.name.length :=
    strchr_append_cons hv.equals_notMem_name v.value
  have hlength := v.text_length
  have hvalue := List.length_pos_of_ne_nil hv.value_ne_nil
  have htext : v.text ≠ [] := List.ne_nil_of_length_pos (by omega)
  have hnext : (v.text ++ NUL :: rest).drop (v.text.length + 1) = rest := by
    rw [List.append_cons]
    exact List.drop_left' (by simp)
  have hname : v.text.take v.name.length = v.name := List.take_left
  have hdrop : v.text.drop (v.name.length + 1) = v.value := by
    rw [Var.text, List.append_cons]
    exact List.drop_left' (by simp)
  rw [parseEnv, if_neg (by simp)]
  simp only [hentry]
  rw [if_neg htext, if_neg (by simp), heq, hnext]
  simp only [hname, hdrop]
  rw [if_neg (by omega)]

theorem parseEnv_zeros (n : Nat) (vars : List Slot) :
    parseEnv (List.replicate n NUL) vars = ([], vars) := by
  rw [parseEnv]
  cases n with
  | zero => rfl
  | succ n =>
    rw [if_neg (by simp), List.replicate_succ]
    rfl

theorem parseEnv_entries (hvalid : ∀ v ∈ vars, v.Valid) (zeros : Nat) (slots : List Slot) :
    parseEnv (entries vars ++ List.replicate zeros NUL) slots =
      ([], vars.foldl (fun slots v => setVar slots v.name v.value) slots) := by
  induction vars generalizing slots with
  | nil => exact parseEnv_zeros zeros slots
  | cons v vars ih =>
    have hassoc : entries (v :: vars) ++ List.replicate zeros NUL =
        v.text ++ NUL :: (entries vars ++ List.replicate zeros NUL) := by
      simp
    rw [hassoc, parseEnv_entry (hvalid v List.mem_cons_self)]
    exact ih (fun w hw => hvalid w (List.mem_cons_of_mem v hw)) _

theorem IsMap.resetVar {vars : List Slot} (hvars : IsMap vars) : IsMap (resetVar vars) := by
  have hperm := live_resetVar_perm vars
  constructor
  · intro v hv
    exact hvars.valid v (hperm.mem_iff.mp hv)
  · exact (hperm.map Var.name).nodup_iff.mpr hvars.nodup

theorem isMap_foldl_setVar (hvalid : ∀ v ∈ vars, v.Valid) {slots : List Slot}
    (hslots : IsMap slots) :
    IsMap (vars.foldl (fun slots v => setVar slots v.name v.value) slots) := by
  induction vars generalizing slots with
  | nil => exact hslots
  | cons v vars ih =>
    apply ih
    · intro w hw
      exact hvalid w (List.mem_cons_of_mem v hw)
    · exact hslots.setVar (hvalid v List.mem_cons_self)

section Image

variable (crc32 : List Byte → UInt32) (envSize : Nat)

def imageBody (vars : List Slot) : List Byte :=
  entries (live (resetVar vars)) ++ List.replicate (envSize + 1 - imageSize vars) NUL

theorem writeEnv_eq (hsize : 6 ≤ envSize) (vars : List Slot) :
    writeEnv crc32 envSize vars =
      if envSize < imageSize vars then .error .environmentTooBig
      else .ok (crcBytes (crc32 (imageBody envSize vars)) ++ imageBody envSize vars) := by
  have himage := imageSize_eq (resetVar vars)
  rw [imageSize_resetVar] at himage
  obtain ⟨left, rfl⟩ := Nat.exists_eq_add_of_le hsize
  have hloop := writeVars_zeros (6 + left) (resetVar vars) (List.replicate 4 NUL) (2 + left)
    (by simp; omega) (by omega)
  rw [List.replicate_append_replicate, List.length_replicate, ← Nat.add_assoc, ← himage] at hloop
  have hzeros : 2 + left - (entries (live (resetVar vars))).length =
      6 + left + 1 - imageSize vars := by
    omega
  rw [writeEnv, hloop]
  split
  · rfl
  · rw [hzeros, List.append_assoc]
    exact store_append [] (List.replicate 4 NUL) (imageBody (6 + left) vars)
      (crcBytes (crc32 (imageBody (6 + left) vars))) rfl

theorem readEnv_image (hsize : 6 ≤ envSize) (warnCrc : Bool) (body : List Byte)
    (hlength : body.length + 4 = envSize) :
    readEnv crc32 envSize warnCrc (crcBytes (crc32 body) ++ body) =
      ([], .ok (crcBytes (crc32 body) ++ body)) := by
  have hfile : (crcBytes (crc32 body) ++ body).length = envSize := by
    simp [crcBytes]
    omega
  have htake : (crcBytes (crc32 body) ++ body).take envSize = crcBytes (crc32 body) ++ body :=
    List.take_of_length_le hfile.le
  have hcrc : crcEnv crc32 (crcBytes (crc32 body) ++ body) = crc32 body := rfl
  rw [readEnv]
  simp only [htake, hfile, hcrc, Nat.sub_self, List.replicate_zero, List.append_nil, loadCrc_crcBytes]
  rw [if_neg (by omega), if_pos trivial, if_pos trivial]

end Image

theorem isMap_edits (edits : List Edit) (hvalid : ∀ v, .set v ∈ edits → v.Valid) :
    IsMap (edits.foldl Edit.apply []) := by
  have hrun : ∀ vars, IsMap vars → IsMap (edits.foldl Edit.apply vars) := by
    induction edits with
    | nil => exact fun _ hvars => hvars
    | cons edit edits ih =>
      intro vars hvars
      apply ih fun v hv => hvalid v (List.mem_cons_of_mem edit hv)
      cases edit with
      | set v => exact hvars.setVar (hvalid v List.mem_cons_self)
      | del name => exact hvars.delVar name
  exact hrun [] isMap_nil

end Openmoko.Envedit
