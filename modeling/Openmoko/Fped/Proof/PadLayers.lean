import Openmoko.Fped.Proof.HoleLinks

/-!
# Which layers a pad keeps

Pads with paste or mask only take these layers from the copper under them. What they carry does not
change, so that the result for a pad depends on it and on what overlaps it alone.
-/

namespace Openmoko.Fped.Pads

open Overlap

section Pads

variable (item : Addr → Item)

def SpecialsKept (s : State) : Prop :=
  ∀ a, (item a).prio = .padSpecial → s.layers a = instLayers (item a)

def Uncovered (copper : Addr) (others : List Addr) (layer : Layer) : Prop :=
  ∀ other ∈ others, overlaps item copper other = true → layer ∉ instLayers (item other)

instance (copper : Addr) (others : List Addr) (layer : Layer) :
    Decidable (Uncovered item copper others layer) :=
  inferInstanceAs (Decidable (∀ _ ∈ others, _))

def uncovered (copper : Addr) (others : List Addr) (layers : Finset Layer) : Finset Layer :=
  layers.filter (Uncovered item copper others)

def State.strip (copper : Addr) (others : List Addr) (s : State) : State :=
  s.setLayers copper (uncovered item copper others (s.layers copper))

def State.ofPad (copper : Addr) (s : State) : Finset Layer × Option Addr :=
  (s.layers copper, s.hole copper)

def PasteAccepted (copper other : Addr) : Prop :=
  overlaps item copper other = true → .pasteTop ∈ instLayers (item other) →
    within item other copper = true

variable {item} {copper other : Addr} {s s' : State} {others : List Addr}

theorem instLayers_of_special (h : (item other).prio = .padSpecial) :
    instLayers (item other) = {.pasteTop} ∨ instLayers (item other) = {.maskTop} := by
  rw [Item.prio] at h
  rw [instLayers]
  cases htype : (item other).type with
  | hole =>
    rw [htype] at h
    cases h
  | pad rounded =>
    rw [htype] at h
    cases hpad : (item other).padType <;> simp [hpad, padTypeToLayers] at h ⊢

theorem refineOverlapping_eq_ok_iff (hcopper : (item copper).prio = .padCopper)
    (hother : (item other).prio = .padSpecial) (hs : SpecialsKept item s) :
    (if overlaps item copper other then refineOverlapping item copper other s else .ok s) = .ok s' ↔
      PasteAccepted item copper other ∧ s' = s.strip item copper [other] := by
  have hne : other ≠ copper := by
    rintro rfl
    exact absurd (hcopper.symm.trans hother) (by decide)
  have hlayers := hs other hother
  cases hoverlaps : overlaps item copper other with
  | false =>
    have hkept : uncovered item copper [other] (s.layers copper) = s.layers copper := by
      simp [uncovered, Uncovered, hoverlaps]
    rw [if_neg Bool.false_ne_true, State.strip, hkept, State.setLayers_same, except_ok_eq_ok_iff]
    simp [PasteAccepted, hoverlaps]
  | true =>
    have hstrip : uncovered item copper [other] (s.layers copper) =
        s.layers copper \ instLayers (item other) := by
      ext layer
      simp [uncovered, Uncovered, hoverlaps]
    rw [if_pos rfl, State.strip, hstrip, PasteAccepted, within]
    rcases instLayers_of_special hother with hpaste | hmask
    · rw [hpaste] at hlayers ⊢
      rw [Finset.sdiff_singleton_eq_erase]
      cases hinside : inside (item other).toInst (item copper).toInst with
      | false => simp [refineOverlapping, hlayers, hinside, hoverlaps, bind, Except.bind]
      | true =>
        simpa [refineOverlapping, hlayers, hinside, hne, bind, Except.bind, hoverlaps] using eq_comm
    · rw [hmask] at hlayers ⊢
      rw [Finset.sdiff_singleton_eq_erase]
      simpa [refineOverlapping, hlayers, bind, Except.bind] using eq_comm

theorem strip_nil : s.strip item copper [] = s := by
  have hkept : uncovered item copper [] (s.layers copper) = s.layers copper := by
    simp [uncovered, Uncovered]
  rw [State.strip, hkept, State.setLayers_same]

theorem strip_append (others others' : List Addr) :
    (s.strip item copper others).strip item copper others' =
      s.strip item copper (others ++ others') := by
  have hboth : uncovered item copper others' (uncovered item copper others (s.layers copper)) =
      uncovered item copper (others ++ others') (s.layers copper) := by
    ext layer
    simp only [uncovered, Finset.mem_filter, Uncovered, List.forall_mem_append, and_assoc]
  rw [State.strip, State.strip, State.setLayers_setLayers, State.setLayers_layers,
    Function.update_self, hboth, State.strip]

theorem specialsKept_setLayers (hcopper : (item copper).prio = .padCopper)
    (hs : SpecialsKept item s) (layers : Finset Layer) :
    SpecialsKept item (s.setLayers copper layers) := by
  intro a ha
  have hne : a ≠ copper := by
    rintro rfl
    exact absurd (hcopper.symm.trans ha) (by decide)
  rw [State.setLayers_layers, Function.update_of_ne hne, hs a ha]

theorem foldl_strip {α : Type} (f : α → List Addr) (l : List α) (s : State) :
    l.foldl (fun s a => s.strip item copper (f a)) s = s.strip item copper (l.flatMap f) := by
  induction l generalizing s with
  | nil => exact strip_nil.symm
  | cons a l ih => rw [List.foldl_cons, ih, strip_append, List.flatMap_cons]

theorem refineSpecials_eq_ok_iff (hcopper : (item copper).prio = .padCopper)
    (hothers : ∀ other ∈ others, (item other).prio = .padSpecial) (hs : SpecialsKept item s) :
    others.foldlM
        (fun s other =>
          if overlap (item copper).toInst (item other).toInst .none then
            refineOverlapping item copper other s
          else .ok s) s = .ok s' ↔
      (∀ other ∈ others, PasteAccepted item copper other) ∧ s' = s.strip item copper others := by
  have hall : others.foldl (fun s other => s.strip item copper [other]) s =
      s.strip item copper others := by
    rw [foldl_strip (fun other => [other]), List.flatMap_singleton']
  rw [← hall]
  refine foldlM_eq_ok_iff _ (SpecialsKept item) ?_ ?_ hs
  · intro t ht other hmem t'
    exact refineOverlapping_eq_ok_iff hcopper (hothers other hmem) ht
  · intro t ht other _
    exact specialsKept_setLayers hcopper ht _

end Pads

namespace Board

variable (b : Board)

def near (i : ℕ) (prio : InstPrio) : List Addr :=
  b.pkgs.zipIdx.flatMap fun (pkg, j) => if Coexist i j then [] else pkg prio

structure CopperAccepted (allow : AllowOverlap) (i : ℕ) (copper : Addr) : Prop where
  apart : ∀ other ∈ b.near i .padCopper, copper ≠ other →
    overlap (b.item copper).toInst (b.item other).toInst allow = false
  paste : ∀ other ∈ b.near i .padSpecial, PasteAccepted b.item copper other

def refinedLayers (s : State) (i : ℕ) (copper : Addr) : Finset Layer :=
  let layers := uncovered b.item copper (b.near i .padSpecial) (s.layers copper)
  if (s.hole copper).isSome then mirrorLayers layers else layers

variable {b} {allow : AllowOverlap} {i : ℕ} {copper : Addr} {s s' : State}

variable {pkg : Pkg}

theorem prio_of_mem {j : ℕ} (hpkg : (pkg, j) ∈ b.pkgs.zipIdx) {prio : InstPrio} {a : Addr}
    (ha : a ∈ pkg prio) : (b.item a).prio = prio :=
  b.byPrio pkg (List.mem_of_getElem? (List.mk_mem_zipIdx_iff_getElem?.mp hpkg)) prio a ha

theorem apart_eq_ok_iff (copper : Addr) (message : Addr → Failure) (others : List Addr) :
    (others.forM fun other =>
        if copper ≠ other ∧ overlap (b.item copper).toInst (b.item other).toInst allow then
          Except.error (message other)
        else Except.ok ()) = .ok () ↔
      ∀ other ∈ others, copper ≠ other →
        overlap (b.item copper).toInst (b.item other).toInst allow = false := by
  refine forM_eq_ok_iff fun other _ => ?_
  rw [← Bool.not_eq_true, ← not_and]
  split
  · simp_all
  · simp_all

theorem refineCopper_eq_ok_iff (hcopper : (b.item copper).prio = .padCopper)
    (hs : SpecialsKept b.item s) :
    refineCopper b.item b.pkgs i copper allow s = .ok s' ↔
      b.CopperAccepted allow i copper ∧ s' = s.strip b.item copper (b.near i .padSpecial) := by
  rw [refineCopper, foldlM_eq_ok_iff
    (fun (pkg, j) =>
      (∀ other ∈ if Coexist i j then [] else pkg .padCopper, copper ≠ other →
        overlap (b.item copper).toInst (b.item other).toInst allow = false) ∧
      ∀ other ∈ if Coexist i j then [] else pkg .padSpecial, PasteAccepted b.item copper other)
    (SpecialsKept b.item)
    (g := fun s (pkg, j) => s.strip b.item copper (if Coexist i j then [] else pkg .padSpecial))
    ?_ ?_ hs]
  · rw [foldl_strip fun p : Pkg × ℕ => if Coexist i p.2 then [] else p.1 .padSpecial]
    refine and_congr_left fun _ => ⟨fun h => ⟨?_, ?_⟩, fun h p hp => ⟨?_, ?_⟩⟩
    · intro other hmem
      obtain ⟨p, hp, hother⟩ := List.mem_flatMap.mp hmem
      exact (h p hp).1 other hother
    · intro other hmem
      obtain ⟨p, hp, hother⟩ := List.mem_flatMap.mp hmem
      exact (h p hp).2 other hother
    · exact fun other hother => h.apart other (List.mem_flatMap.mpr ⟨p, hp, hother⟩)
    · exact fun other hother => h.paste other (List.mem_flatMap.mpr ⟨p, hp, hother⟩)
  · rintro t ht ⟨pkg, j⟩ hpkg t'
    dsimp only
    by_cases hcoexist : Coexist i j
    · simp only [if_pos hcoexist, strip_nil, except_ok_eq_ok_iff]
      simp
    · simp only [if_neg hcoexist]
      rw [except_bind_eq_ok_iff, and_assoc,
        ← refineSpecials_eq_ok_iff hcopper (fun other hother => prio_of_mem hpkg hother) ht,
        ← apart_eq_ok_iff]
      exact ⟨fun ⟨_, happart, h⟩ => ⟨happart, h⟩, fun ⟨happart, h⟩ => ⟨(), happart, h⟩⟩
  · rintro t ht ⟨pkg, j⟩ -
    exact specialsKept_setLayers hcopper ht _

variable (b) in
def refineStep (i : ℕ) (s : State) (copper : Addr) : State :=
  s.setLayers copper (b.refinedLayers s i copper)

theorem refinePad_eq_ok_iff (hcopper : (b.item copper).prio = .padCopper)
    (hs : SpecialsKept b.item s) :
    (do
      let s ← refineCopper b.item b.pkgs i copper allow s
      if (s.hole copper).isSome then .ok (s.setLayers copper (mirrorLayers (s.layers copper)))
      else .ok s) = .ok s' ↔
      b.CopperAccepted allow i copper ∧ s' = b.refineStep i s copper := by
  rw [except_bind_eq_ok_iff]
  simp only [refineCopper_eq_ok_iff hcopper hs, and_assoc, exists_and_left, exists_eq_left]
  refine and_congr_right fun _ => ?_
  rw [State.strip, refineStep, refinedLayers, State.setLayers_hole]
  cases (s.hole copper).isSome with
  | false => exact except_ok_eq_ok_iff
  | true =>
    rw [if_pos rfl, if_pos rfl, State.setLayers_setLayers, State.setLayers_layers,
      Function.update_self]
    exact except_ok_eq_ok_iff

variable (b) in
def refined (s : State) : State :=
  b.pkgs.zipIdx.foldl (fun s (pkg, i) => (pkg .padCopper).foldl (b.refineStep i) s) s

theorem refineLayers_eq_ok_iff (hs : SpecialsKept b.item s) :
    refineLayers b.item b.pkgs allow s = .ok s' ↔
      (∀ p ∈ b.pkgs.zipIdx, ∀ copper ∈ p.1 .padCopper, b.CopperAccepted allow p.2 copper) ∧
        s' = b.refined s := by
  have hpads : ∀ p ∈ b.pkgs.zipIdx, ∀ copper ∈ p.1 .padCopper,
      (b.item copper).prio = .padCopper := fun p hp copper hmem => prio_of_mem hp hmem
  refine foldlM_eq_ok_iff
    (fun p : Pkg × ℕ => ∀ copper ∈ p.1 .padCopper, b.CopperAccepted allow p.2 copper) (SpecialsKept b.item) ?_ ?_ hs
  · intro t ht p hp t'
    exact foldlM_eq_ok_iff (b.CopperAccepted allow p.2) (SpecialsKept b.item)
      (g := b.refineStep p.2)
      (fun u hu copper hmem u' => refinePad_eq_ok_iff (hpads p hp copper hmem) hu)
      (fun u hu copper hmem => specialsKept_setLayers (hpads p hp copper hmem) hu _) ht
  · intro t ht p hp
    exact List.foldlRecOn _ _ ht fun u hu copper hmem =>
      specialsKept_setLayers (hpads p hp copper hmem) hu _

theorem foldl_refineStep_hole (pads : List Addr) (s : State) :
    (pads.foldl (b.refineStep i) s).hole = s.hole := by
  apply foldl_frame State.hole
  intro copper _ t
  rfl

theorem foldl_refineStep_pad (pads : List Addr) (s : State) :
    (pads.foldl (b.refineStep i) s).pad = s.pad := by
  apply foldl_frame State.pad
  intro copper _ t
  rfl

theorem refined_hole : (b.refined s).hole = s.hole :=
  foldl_frame State.hole (fun _ _ _ => foldl_refineStep_hole _ _) s

theorem refined_pad : (b.refined s).pad = s.pad :=
  foldl_frame State.pad (fun _ _ _ => foldl_refineStep_pad _ _) s

theorem refinedLayers_congr (h : s.ofPad copper = s'.ofPad copper) :
    b.refinedLayers s i copper = b.refinedLayers s' i copper := by
  obtain ⟨hlayers, hhole⟩ := Prod.mk.inj h
  rw [refinedLayers, refinedLayers, hlayers, hhole]

theorem foldl_refineStep_of_not_mem {pads : List Addr} (hnew : copper ∉ pads) (s : State) :
    (pads.foldl (b.refineStep i) s).ofPad copper = s.ofPad copper := by
  refine foldl_frame (State.ofPad copper) (fun pad hpad t => ?_) s
  have hne : copper ≠ pad := fun heq => hnew (heq.symm ▸ hpad)
  exact Prod.ext (Function.update_of_ne hne _ _) rfl

theorem foldl_refineStep_layers {pads : List Addr} (hnodup : pads.Nodup) (hmem : copper ∈ pads)
    (s : State) : (pads.foldl (b.refineStep i) s).layers copper = b.refinedLayers s i copper := by
  obtain ⟨before, rest, rfl⟩ := List.append_of_mem hmem
  have hnew : copper ∉ before ∧ copper ∉ rest := by
    have hmiddle := List.nodup_middle.mp hnodup
    simpa using (List.nodup_cons.mp hmiddle).1
  rw [List.foldl_append, List.foldl_cons]
  refine (congrArg Prod.fst (foldl_refineStep_of_not_mem hnew.2 _)).trans ?_
  refine (Function.update_self _ _ _).trans ?_
  exact refinedLayers_congr (foldl_refineStep_of_not_mem hnew.1 s)

theorem exists_split_zipIdx (hpkg : (pkg, i) ∈ b.pkgs.zipIdx) :
    ∃ before rest, b.pkgs.zipIdx = before ++ (pkg, i) :: rest ∧ ∀ prio, ∀ a ∈ pkg prio,
      (∀ p ∈ before, a ∉ p.1 prio) ∧ ∀ p ∈ rest, a ∉ p.1 prio := by
  obtain ⟨before, rest, hsplit⟩ := List.append_of_mem hpkg
  refine ⟨before, rest, hsplit, fun prio a ha => ?_⟩
  have hnodup : ((before ++ (pkg, i) :: rest).flatMap fun p : Pkg × ℕ => p.1 prio).Nodup := by
    have hflat := b.nodup prio
    rwa [← List.zipIdx_map_fst 0 b.pkgs, List.flatMap_map, hsplit] at hflat
  exact not_mem_of_nodup_flatMap hnodup ha

theorem refined_layers (hpkg : (pkg, i) ∈ b.pkgs.zipIdx) (hcopper : copper ∈ pkg .padCopper) :
    (b.refined s).layers copper = b.refinedLayers s i copper := by
  obtain ⟨before, rest, hsplit, honce⟩ := exists_split_zipIdx hpkg
  obtain ⟨hbefore, hrest⟩ := honce .padCopper copper hcopper
  obtain ⟨t, ht, hfinal⟩ := foldl_frame_except (State.ofPad copper) (c := (pkg, i))
    (g := fun s (p : Pkg × ℕ) => (p.1 .padCopper).foldl (b.refineStep p.2) s)
    (fun p hp => foldl_refineStep_of_not_mem (hbefore p hp))
    (fun p hp => foldl_refineStep_of_not_mem (hrest p hp)) s
  rw [refined, hsplit]
  refine (congrArg Prod.fst hfinal).trans ?_
  refine (foldl_refineStep_layers (b.nodup_of_mem (List.fst_mem_of_mem_zipIdx hpkg) .padCopper)
    hcopper t).trans ?_
  exact refinedLayers_congr ht

theorem refined_layers_of_not_mem {a : Addr} (ha : ∀ pkg ∈ b.pkgs, a ∉ pkg .padCopper) :
    (b.refined s).layers a = s.layers a := by
  refine foldl_frame (fun s : State => s.layers a) (fun p hp t => ?_) s
  exact congrArg Prod.fst
    (foldl_refineStep_of_not_mem (ha p.1 (List.fst_mem_of_mem_zipIdx hp)) t)

end Board

end Openmoko.Fped.Pads
