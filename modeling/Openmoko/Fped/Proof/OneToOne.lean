import Openmoko.Fped.Proof.OverlapExactness
import Openmoko.Fped.Proof.PadLayers
import Mathlib.Data.List.Forall2

/-!
# Holes and pads, one to one

Where no hole overlaps two copper pads of its package, the first pad of a hole is its only one, and
no order matters. Two pads with rounded ends can be apart and still have a hole between them that
overlaps both and is inside the rectangle around each of them: it is linked to the first one. For
the same reason a hole can stick out of the end of the pad that it is linked to.
-/

namespace Openmoko.Fped.Pads

open Overlap

def Layer.onTop : Layer → Bool
  | .top | .pasteTop | .maskTop => true
  | .bottom | .pasteBottom | .maskBottom => false

def Layer.mirror : Layer → Layer
  | .top => .bottom
  | .pasteTop => .pasteBottom
  | .maskTop => .maskBottom
  | layer => layer

theorem Layer.onTop_mirror (layer : Layer) : layer.mirror.onTop = false := by
  cases layer <;> rfl

variable {layer : Layer}

theorem mem_mirrorLayers (htop : layer.onTop = true) (layers : Finset Layer) :
    layer ∈ mirrorLayers layers ↔ layer ∈ layers := by
  cases layer with
  | bottom | pasteBottom | maskBottom => cases htop
  | top | pasteTop | maskTop =>
    simp only [mirrorLayers]
    split_ifs <;> simp

theorem mirror_mem_mirrorLayers (htop : layer.onTop = true) (layers : Finset Layer) :
    layer.mirror ∈ mirrorLayers layers ↔ layer.mirror ∈ layers ∨ layer ∈ layers := by
  cases layer with
  | bottom | pasteBottom | maskBottom => cases htop
  | top | pasteTop | maskTop =>
    simp only [mirrorLayers, Layer.mirror]
    split_ifs <;> simp_all

theorem instLayers_of_copper {item : Item} (h : item.prio = .padCopper) :
    .top ∈ instLayers item ∧ ∀ layer ∈ instLayers item, layer.onTop = true := by
  rw [Item.prio] at h
  rw [instLayers]
  cases htype : item.type with
  | hole =>
    rw [htype] at h
    cases h
  | pad rounded =>
    rw [htype] at h
    cases hpad : item.padType <;> simp [hpad, padTypeToLayers, Layer.onTop] at h ⊢

namespace Board

variable (b : Board)

def InPkg (i : ℕ) (prio : InstPrio) (a : Addr) : Prop := ∃ pkg, b.pkgs[i]? = some pkg ∧ a ∈ pkg prio

structure Reorders (b' : Board) : Prop where
  item : b'.item = b.item
  pkgs : List.Forall₂ (fun pkg pkg' => ∀ prio, (pkg prio).Perm (pkg' prio)) b.pkgs b'.pkgs

def start (hole pad : Addr → Option Addr) : State where
  hole := hole
  pad := pad
  layers := fun a => instLayers (b.item a)

/-- The shape of a pad or a hole. -/
def region (a : Addr) : Set (ℝ × ℝ) := (b.item a).toInst.region

def Meets (a a' : Addr) : Prop := Meet (b.item a).toInst (b.item a').toInst

structure OneToOne (final : State) : Prop where
  inverse : ∀ i pad hole, b.InPkg i .padCopper pad → b.InPkg i .hole hole →
    (final.pad hole = some pad ↔ final.hole pad = some hole)
  pad_mem : ∀ i pad hole, b.InPkg i .hole hole → final.pad hole = some pad →
    b.InPkg i .padCopper pad
  hole_mem : ∀ i pad hole, b.InPkg i .padCopper pad → final.hole pad = some hole → b.InPkg i .hole hole
  special : ∀ i pad, b.InPkg i .padSpecial pad → final.hole pad = none
  overlapping : ∀ i pad hole, b.InPkg i .padCopper pad → b.InPkg i .hole hole →
    b.Meets pad hole → b.region hole ⊆ b.region pad ∧ final.pad hole = some pad
  single : ∀ i j pad hole hole', b.InPkg i .hole hole → b.InPkg j .hole hole' →
    final.pad hole = some pad → final.pad hole' = some pad → hole = hole'
  copper : ∀ i pad, b.InPkg i .padCopper pad → .top ∈ final.layers pad
  mirrored : ∀ i pad, b.InPkg i .padCopper pad → ∀ layer : Layer, layer.onTop = true →
    (layer.mirror ∈ final.layers pad ↔ layer ∈ final.layers pad ∧ (final.hole pad).isSome = true)
  /-- A pad loses paste or mask to pads that carry it. -/
  lost : ∀ i pad, b.InPkg i .padCopper pad → ∀ layer, layer = .pasteTop ∨ layer = .maskTop →
    (layer ∈ final.layers pad ↔ layer ∈ instLayers (b.item pad) ∧
      ¬ ∃ j other, ¬ Coexist i j ∧ b.InPkg j .padSpecial other ∧ b.Meets pad other ∧
        layer ∈ instLayers (b.item other))

/-- In any order the links are one to one if both passes succeed, and the outcome is the same. -/
def LinksOneToOne (allow : AllowOverlap) : Prop :=
  ∀ b', b.Reorders b' → ∀ hole pad,
    (∀ final, classify b'.item b'.pkgs allow (b'.start hole pad) = .ok final → b'.OneToOne final) ∧
    (classify b'.item b'.pkgs allow (b'.start hole pad)).toOption =
      (classify b.item b.pkgs allow (b.start hole pad)).toOption

structure Accepted (allow : AllowOverlap) : Prop where
  within : ∀ i pad hole, b.InPkg i .padCopper pad → b.InPkg i .hole hole →
    overlaps b.item pad hole = true → within b.item hole pad = true
  single : ∀ pkg ∈ b.pkgs, ∀ hole ∈ pkg .hole, ∀ hole' ∈ pkg .hole, ∀ pad,
    firstPad b.item (pkg .padCopper) hole = some pad →
    firstPad b.item (pkg .padCopper) hole' = some pad → hole = hole'
  apart : ∀ i j copper other, ¬ Coexist i j → b.InPkg i .padCopper copper →
    b.InPkg j .padCopper other → copper ≠ other →
    overlap (b.item copper).toInst (b.item other).toInst allow = false
  paste : ∀ i j copper other, ¬ Coexist i j → b.InPkg i .padCopper copper →
    b.InPkg j .padSpecial other → PasteAccepted b.item copper other

def SharedHole : Prop :=
  ∃ i pad pad' hole, b.InPkg i .padCopper pad ∧ b.InPkg i .padCopper pad' ∧ pad ≠ pad' ∧
    b.InPkg i .hole hole ∧ overlaps b.item pad hole = true ∧ overlaps b.item pad' hole = true

/-- The test for overlaps misses no hole and no pad, no hole sticks out of a rounded pad, and what
takes paste or mask from a pad without touching it is not the only one to do so. -/
structure Clear : Prop where
  found : ∀ i pad hole, b.InPkg i .padCopper pad → b.InPkg i .hole hole → b.Meets pad hole →
    overlaps b.item pad hole = true
  rounded : ∀ i pad hole, b.InPkg i .padCopper pad → b.InPkg i .hole hole → b.Meets pad hole →
    (b.item pad).rounded = true → b.region hole ⊆ b.region pad
  lost : ∀ i pad, b.InPkg i .padCopper pad → ∀ layer, layer = .pasteTop ∨ layer = .maskTop →
    layer ∈ instLayers (b.item pad) →
    ((∃ j other, ¬ Coexist i j ∧ b.InPkg j .padSpecial other ∧
        overlaps b.item pad other = true ∧ layer ∈ instLayers (b.item other)) ↔
      ∃ j other, ¬ Coexist i j ∧ b.InPkg j .padSpecial other ∧ b.Meets pad other ∧
        layer ∈ instLayers (b.item other))

variable {b} {allow : AllowOverlap} {i j : ℕ} {prio : InstPrio} {a : Addr} {s s' : State} {pkg : Pkg}

theorem inPkg_of_mem_zipIdx (hpkg : (pkg, i) ∈ b.pkgs.zipIdx) (ha : a ∈ pkg prio) :
    b.InPkg i prio a := ⟨pkg, List.mk_mem_zipIdx_iff_getElem?.mp hpkg, ha⟩

theorem mem_near : a ∈ b.near i prio ↔ ∃ j, ¬ Coexist i j ∧ b.InPkg j prio a := by
  rw [near, List.mem_flatMap]
  constructor
  · rintro ⟨⟨pkg, j⟩, hpkg, ha⟩
    dsimp only at ha
    split at ha
    next => exact absurd ha List.not_mem_nil
    next hnear => exact ⟨j, hnear, inPkg_of_mem_zipIdx hpkg ha⟩
  · rintro ⟨j, hnear, pkg, hpkg, ha⟩
    refine ⟨(pkg, j), List.mk_mem_zipIdx_iff_getElem?.mpr hpkg, ?_⟩
    dsimp only
    rwa [if_neg hnear]

theorem specialsKept_linked (hole pad : Addr → Option Addr) :
    SpecialsKept b.item (b.linked (b.start hole pad)) := by
  intro a _
  rw [linked_layers]
  rfl

theorem classify_eq_ok_iff (hole pad : Addr → Option Addr) :
    classify b.item b.pkgs allow (b.start hole pad) = .ok s' ↔
      b.Accepted allow ∧ s' = b.refined (b.linked (b.start hole pad)) := by
  rw [classify, except_bind_eq_ok_iff]
  simp only [linkHoles_eq_ok_iff, and_assoc, exists_and_left, exists_eq_left]
  rw [refineLayers_eq_ok_iff (specialsKept_linked hole pad), ← and_assoc]
  refine and_congr_left fun _ => ⟨fun ⟨hpads, hcopper⟩ => ⟨?_, ?_, ?_, ?_⟩,
    fun h => ⟨fun pkg hpkg pad hpad => ⟨?_, ?_⟩, fun p hp copper hmem => ⟨?_, ?_⟩⟩⟩
  · rintro i pad hole ⟨pkg, hpkg, hpad⟩ ⟨pkg', hpkg', hhole⟩
    cases Option.some.inj (hpkg.symm.trans hpkg')
    exact (hpads pkg (List.mem_of_getElem? hpkg) pad hpad).within hole hhole
  · intro pkg hpkg hole hhole hole' hhole' pad hfirst
    exact (hpads pkg hpkg pad (mem_of_firstPad hfirst)).single hole hhole hole' hhole' hfirst
  · rintro i j copper other hnear ⟨pkg, hpkg, hmem⟩ hother
    exact (hcopper (pkg, i) (List.mk_mem_zipIdx_iff_getElem?.mpr hpkg) copper hmem).apart other
      (mem_near.mpr ⟨j, hnear, hother⟩)
  · rintro i j copper other hnear ⟨pkg, hpkg, hmem⟩ hother
    exact (hcopper (pkg, i) (List.mk_mem_zipIdx_iff_getElem?.mpr hpkg) copper hmem).paste other
      (mem_near.mpr ⟨j, hnear, hother⟩)
  · intro hole hhole
    obtain ⟨i, hi⟩ := List.mem_iff_getElem?.mp hpkg
    exact h.within i pad hole ⟨pkg, hi, hpad⟩ ⟨pkg, hi, hhole⟩
  · exact fun hole hhole hole' hhole' => h.single pkg hpkg hole hhole hole' hhole' pad
  · intro other hother
    obtain ⟨j, hnear, hother⟩ := mem_near.mp hother
    exact h.apart p.2 j copper other hnear (inPkg_of_mem_zipIdx hp hmem) hother
  · intro other hother
    obtain ⟨j, hnear, hother⟩ := mem_near.mp hother
    exact h.paste p.2 j copper other hnear (inPkg_of_mem_zipIdx hp hmem) hother

/-! ### Without shared holes -/

variable {pad hole : Addr}

theorem firstPad_iff_overlaps (hnot : ¬ b.SharedHole) (hpkg : b.pkgs[i]? = some pkg)
    (hhole : hole ∈ pkg .hole) : firstPad b.item (pkg .padCopper) hole = some pad ↔
      pad ∈ pkg .padCopper ∧ overlaps b.item pad hole = true := by
  refine ⟨fun h => ⟨mem_of_firstPad h, overlaps_of_firstPad h⟩, fun ⟨hpad, hoverlaps⟩ => ?_⟩
  cases hfirst : firstPad b.item (pkg .padCopper) hole with
  | none => exact absurd hoverlaps (List.find?_eq_none.mp hfirst pad hpad)
  | some pad' =>
    by_contra hne
    exact hnot ⟨i, pad, pad', hole, ⟨pkg, hpkg, hpad⟩, ⟨pkg, hpkg, mem_of_firstPad hfirst⟩,
      fun heq => hne (congrArg some heq.symm), ⟨pkg, hpkg, hhole⟩, hoverlaps,
      overlaps_of_firstPad hfirst⟩

theorem Accepted.firstHole_iff (h : b.Accepted allow) (hpkg : pkg ∈ b.pkgs) :
    firstHole b.item pkg (pkg .padCopper) pad = some hole ↔
      hole ∈ pkg .hole ∧ firstPad b.item (pkg .padCopper) hole = some pad := by
  refine ⟨of_firstHole, fun ⟨hhole, hpad⟩ => ?_⟩
  cases hfirst : firstHole b.item pkg (pkg .padCopper) pad with
  | none => exact absurd (decide_eq_true hpad) (List.find?_eq_none.mp hfirst hole hhole)
  | some hole' =>
    obtain ⟨hhole', hpad'⟩ := of_firstHole hfirst
    exact congrArg some (h.single pkg hpkg hole' hhole' hole hhole pad hpad' hpad)

theorem mem_uncovered {layers : Finset Layer} :
    layer ∈ uncovered b.item pad (b.near i .padSpecial) layers ↔ layer ∈ layers ∧
      ¬ ∃ j other, ¬ Coexist i j ∧ b.InPkg j .padSpecial other ∧
        overlaps b.item pad other = true ∧ layer ∈ instLayers (b.item other) := by
  rw [uncovered, Finset.mem_filter]
  refine and_congr_right fun _ => ⟨?_, fun h other hother hoverlaps hlayer => ?_⟩
  · rintro h ⟨j, other, hnear, hother, hoverlaps, hlayer⟩
    exact h other (mem_near.mpr ⟨j, hnear, hother⟩) hoverlaps hlayer
  · obtain ⟨j, hnear, hother⟩ := mem_near.mp hother
    exact h ⟨j, other, hnear, hother, hoverlaps, hlayer⟩

theorem InPkg.prio_eq (h : b.InPkg i prio a) : (b.item a).prio = prio := by
  obtain ⟨pkg, hpkg, ha⟩ := h
  exact b.byPrio pkg (List.mem_of_getElem? hpkg) prio a ha

theorem InPkg.unique (hi : b.InPkg i prio a) (hj : b.InPkg j prio a) : i = j := by
  obtain ⟨pkg, hpkg, ha⟩ := hi
  obtain ⟨pkg', hpkg', ha'⟩ := hj
  obtain ⟨before, rest, hsplit, honce⟩ :=
    exists_split_zipIdx (List.mk_mem_zipIdx_iff_getElem?.mpr hpkg)
  have hmem : (pkg', j) ∈ before ++ (pkg, i) :: rest :=
    hsplit ▸ List.mk_mem_zipIdx_iff_getElem?.mpr hpkg'
  rcases List.mem_append.mp hmem with hbefore | hrest
  · exact absurd ha' ((honce prio a ha).1 _ hbefore)
  rcases List.mem_cons.mp hrest with heq | hrest
  · exact (Prod.mk.inj heq).2.symm
  · exact absurd ha' ((honce prio a ha).2 _ hrest)

theorem mem_refinedLayers (htop : layer.onTop = true) : layer ∈ b.refinedLayers s i pad ↔
      layer ∈ uncovered b.item pad (b.near i .padSpecial) (s.layers pad) := by
  rw [refinedLayers]
  cases (s.hole pad).isSome with
  | false => rfl
  | true => exact mem_mirrorLayers htop _

theorem top_uncovered (hpad : b.InPkg i .padCopper pad) :
    .top ∈ uncovered b.item pad (b.near i .padSpecial) (instLayers (b.item pad)) := by
  rw [mem_uncovered]
  refine ⟨(instLayers_of_copper hpad.prio_eq).1, ?_⟩
  rintro ⟨j, other, -, hother, -, hlayer⟩
  rcases instLayers_of_special hother.prio_eq with heq | heq <;> simp [heq] at hlayer

theorem mirror_mem_refinedLayers (htop : layer.onTop = true)
    (hpad : b.InPkg i .padCopper pad) (hlayers : s.layers pad = instLayers (b.item pad)) :
    layer.mirror ∈ b.refinedLayers s i pad ↔
      layer ∈ b.refinedLayers s i pad ∧ (s.hole pad).isSome = true := by
  have hbottom : layer.mirror ∉
      uncovered b.item pad (b.near i .padSpecial) (instLayers (b.item pad)) := by
    intro hmem
    have honTop := (instLayers_of_copper hpad.prio_eq).2 _ (mem_uncovered.mp hmem).1
    exact Bool.false_ne_true (layer.onTop_mirror.symm.trans honTop)
  rw [mem_refinedLayers htop, refinedLayers, hlayers]
  cases (s.hole pad).isSome with
  | false => simpa using hbottom
  | true => simpa [mirror_mem_mirrorLayers htop] using fun h => absurd h hbottom

theorem region_subset_of_within (hrounded : (b.item pad).rounded = false)
    (hwithin : within b.item hole pad = true) : b.region hole ⊆ b.region pad := by
  simp only [within, inside, Bool.and_eq_true, decide_eq_true_eq] at hwithin
  obtain ⟨⟨⟨hxlo, hxhi⟩, hylo⟩, hyhi⟩ := hwithin
  have hpad : b.region pad = box (b.item pad).lo.toPlane (b.item pad).hi.toPlane := if_pos hrounded
  rw [hpad]
  refine (Inst.region_subset_box (b.item hole).toInst).trans (Set.prod_mono ?_ ?_)
  · exact Set.Icc_subset_Icc (Int.cast_le.mpr hxlo) (Int.cast_le.mpr hxhi)
  · exact Set.Icc_subset_Icc (Int.cast_le.mpr hylo) (Int.cast_le.mpr hyhi)

theorem oneToOne_of_accepted (h : b.Accepted allow) (hnot : ¬ b.SharedHole) (hclear : b.Clear)
    (hole pad : Addr → Option Addr) :
    b.OneToOne (b.refined (b.linked (b.start hole pad))) := by
  have hlayers : (b.linked (b.start hole pad)).layers = fun a => instLayers (b.item a) :=
    linked_layers
  have hholes : ∀ {i : ℕ} {pkg : Pkg} {a : Addr}, b.pkgs[i]? = some pkg → a ∈ pkg .hole →
      (b.refined (b.linked (b.start hole pad))).pad a = firstPad b.item (pkg .padCopper) a := by
    intro i pkg a hpkg ha
    rw [refined_pad, linked_pad (List.mem_of_getElem? hpkg) ha]
  have hpads : ∀ {i : ℕ} {pkg : Pkg} {a : Addr}, b.pkgs[i]? = some pkg → a ∈ pkg .padCopper →
      (b.refined (b.linked (b.start hole pad))).hole a =
        firstHole b.item pkg (pkg .padCopper) a := by
    intro i pkg a hpkg ha
    rw [refined_hole, linked_hole (List.mem_of_getElem? hpkg) ha]
  have hspecials : ∀ {i : ℕ} {a : Addr}, b.InPkg i .padSpecial a →
      (b.refined (b.linked (b.start hole pad))).hole a = none := by
    rintro i a ⟨pkg, hpkg, ha⟩
    rw [refined_hole, linked_hole_special (List.mem_of_getElem? hpkg) ha]
  have hrefined : ∀ {i : ℕ} {a : Addr}, b.InPkg i .padCopper a →
      (b.refined (b.linked (b.start hole pad))).layers a =
        b.refinedLayers (b.linked (b.start hole pad)) i a := by
    rintro i a ⟨pkg, hpkg, ha⟩
    exact refined_layers (List.mk_mem_zipIdx_iff_getElem?.mpr hpkg) ha
  generalize b.linked (b.start hole pad) = s at *
  have hpad_mem : ∀ i pad hole, b.InPkg i .hole hole → (b.refined s).pad hole = some pad →
      b.InPkg i .padCopper pad := by
    rintro i pad hole ⟨pkg, hpkg, hhole⟩ hlink
    rw [hholes hpkg hhole] at hlink
    exact ⟨pkg, hpkg, mem_of_firstPad hlink⟩
  constructor
  case inverse =>
    rintro i pad hole ⟨pkg, hpkg, hpad⟩ ⟨pkg', hpkg', hhole⟩
    cases Option.some.inj (hpkg.symm.trans hpkg')
    rw [hholes hpkg hhole, hpads hpkg hpad, h.firstHole_iff (List.mem_of_getElem? hpkg)]
    exact (and_iff_right hhole).symm
  case pad_mem => exact hpad_mem
  case hole_mem =>
    rintro i pad hole ⟨pkg, hpkg, hpad⟩ hlink
    rw [hpads hpkg hpad] at hlink
    exact ⟨pkg, hpkg, (of_firstHole hlink).1⟩
  case special => exact fun i pad hpad => hspecials hpad
  case overlapping =>
    rintro i pad hole hpad ⟨pkg, hpkg, hhole⟩ hmeets
    have hoverlaps := hclear.found i pad hole hpad ⟨pkg, hpkg, hhole⟩ hmeets
    constructor
    · cases hrounded : (b.item pad).rounded with
      | true => exact hclear.rounded i pad hole hpad ⟨pkg, hpkg, hhole⟩ hmeets hrounded
      | false =>
        exact region_subset_of_within hrounded
          (h.within i pad hole hpad ⟨pkg, hpkg, hhole⟩ hoverlaps)
    obtain ⟨pkg', hpkg', hpad⟩ := hpad
    cases Option.some.inj (hpkg.symm.trans hpkg')
    rw [hholes hpkg hhole]
    exact (firstPad_iff_overlaps hnot hpkg hhole).mpr ⟨hpad, hoverlaps⟩
  case single =>
    intro i j pad hole hole' hhole hhole' hlink hlink'
    have heq := (hpad_mem i pad hole hhole hlink).unique (hpad_mem j pad hole' hhole' hlink')
    subst heq
    obtain ⟨pkg, hpkg, hhole⟩ := hhole
    obtain ⟨pkg', hpkg', hhole'⟩ := hhole'
    cases Option.some.inj (hpkg.symm.trans hpkg')
    rw [hholes hpkg hhole] at hlink
    rw [hholes hpkg hhole'] at hlink'
    exact h.single pkg (List.mem_of_getElem? hpkg) hole hhole hole' hhole' pad hlink hlink'
  case copper =>
    intro i pad hpad
    rw [hrefined hpad, mem_refinedLayers rfl, hlayers]
    exact top_uncovered hpad
  case mirrored =>
    intro i pad hpad layer htop
    rw [hrefined hpad, refined_hole]
    exact mirror_mem_refinedLayers htop hpad (congrFun hlayers pad)
  case lost =>
    intro i pad hpad layer hlayer
    have htop : layer.onTop = true := by rcases hlayer with rfl | rfl <;> rfl
    rw [hrefined hpad, mem_refinedLayers htop, hlayers, mem_uncovered]
    exact and_congr_right fun hmem => not_congr (hclear.lost i pad hpad layer hlayer hmem)

theorem toOption_classify (h : ¬ b.Accepted allow) (hole pad : Addr → Option Addr) :
    (classify b.item b.pkgs allow (b.start hole pad)).toOption = none := by
  cases hrun : classify b.item b.pkgs allow (b.start hole pad) with
  | error failure => rfl
  | ok final => exact absurd ((classify_eq_ok_iff hole pad).mp hrun).1 h

theorem not_mem_of_not_inPkg (h : ¬ ∃ i, b.InPkg i prio a) : ∀ pkg ∈ b.pkgs, a ∉ pkg prio := by
  intro pkg hpkg ha
  obtain ⟨i, hi⟩ := List.mem_iff_getElem?.mp hpkg
  exact h ⟨i, pkg, hi, ha⟩

/-! ### Any order -/

theorem reorders_refl (b : Board) : b.Reorders b :=
  ⟨rfl, List.forall₂_same.mpr fun _ _ _ => .refl _⟩

namespace Reorders

variable {b' : Board}

theorem symm (h : b.Reorders b') : b'.Reorders b :=
  ⟨h.item.symm, h.pkgs.flip.imp fun _ _ hperm prio => (hperm prio).symm⟩

theorem exists_pkg (h : b.Reorders b') (hpkg : b.pkgs[i]? = some pkg) :
    ∃ pkg', b'.pkgs[i]? = some pkg' ∧ ∀ prio, (pkg prio).Perm (pkg' prio) := by
  obtain ⟨hi, rfl⟩ := List.getElem?_eq_some_iff.mp hpkg
  have hi' : i < b'.pkgs.length := h.pkgs.length_eq ▸ hi
  exact ⟨b'.pkgs[i], List.getElem?_eq_getElem hi', h.pkgs.get hi hi'⟩

theorem inPkg_of_inPkg (h : b.Reorders b') (ha : b.InPkg i prio a) : b'.InPkg i prio a := by
  obtain ⟨pkg, hpkg, ha⟩ := ha
  obtain ⟨pkg', hpkg', hperm⟩ := h.exists_pkg hpkg
  exact ⟨pkg', hpkg', (hperm prio).mem_iff.mp ha⟩

theorem inPkg_iff (h : b.Reorders b') : b'.InPkg i prio a ↔ b.InPkg i prio a :=
  ⟨h.symm.inPkg_of_inPkg, h.inPkg_of_inPkg⟩

theorem not_mem (h : b.Reorders b') (hnone : ¬ ∃ i, b.InPkg i prio a) :
    ∀ pkg ∈ b'.pkgs, a ∉ pkg prio :=
  not_mem_of_not_inPkg fun ⟨i, ha⟩ => hnone ⟨i, h.inPkg_iff.mp ha⟩

theorem sharedHole_iff (h : b.Reorders b') : b'.SharedHole ↔ b.SharedHole := by
  simp only [SharedHole, h.inPkg_iff, h.item]

theorem clear (h : b.Reorders b') (hclear : b.Clear) : b'.Clear := by
  refine ⟨?_, ?_, ?_⟩
  · simpa only [h.inPkg_iff, h.item, Meets] using hclear.found
  · simpa only [h.inPkg_iff, h.item, Meets, region] using hclear.rounded
  · simpa only [h.inPkg_iff, h.item, Meets] using hclear.lost

theorem start_eq (h : b.Reorders b') (hole pad : Addr → Option Addr) :
    b'.start hole pad = b.start hole pad := by
  rw [start, start, h.item]

theorem firstPad_eq {pkg' : Pkg} (h : b.Reorders b') (hnot : ¬ b.SharedHole)
    (hpkg : b.pkgs[i]? = some pkg) (hpkg' : b'.pkgs[i]? = some pkg') (hhole : hole ∈ pkg .hole)
    (hperm : ∀ prio, (pkg prio).Perm (pkg' prio)) :
    firstPad b'.item (pkg' .padCopper) hole = firstPad b.item (pkg .padCopper) hole := by
  have hnot' : ¬ b'.SharedHole := fun hshared => hnot (h.sharedHole_iff.mp hshared)
  have hhole' : hole ∈ pkg' .hole := (hperm .hole).mem_iff.mp hhole
  ext pad
  rw [firstPad_iff_overlaps hnot' hpkg' hhole', firstPad_iff_overlaps hnot hpkg hhole, h.item,
    (hperm .padCopper).mem_iff]

theorem accepted (h : b.Reorders b') (hnot : ¬ b.SharedHole) (haccepted : b.Accepted allow) :
    b'.Accepted allow := by
  refine ⟨?_, ?_, ?_, ?_⟩
  · simpa only [h.inPkg_iff, h.item] using haccepted.within
  · intro pkg' hmem hole hhole hole' hhole' pad hpad hpad'
    obtain ⟨i, hpkg'⟩ := List.mem_iff_getElem?.mp hmem
    obtain ⟨pkg, hpkg, hperm⟩ := h.symm.exists_pkg hpkg'
    have hback : ∀ prio, (pkg prio).Perm (pkg' prio) := fun prio => (hperm prio).symm
    have hhole := (hback .hole).mem_iff.mpr hhole
    have hhole' := (hback .hole).mem_iff.mpr hhole'
    rw [h.firstPad_eq hnot hpkg hpkg' hhole hback] at hpad
    rw [h.firstPad_eq hnot hpkg hpkg' hhole' hback] at hpad'
    exact haccepted.single pkg (List.mem_of_getElem? hpkg) hole hhole hole' hhole' pad hpad hpad'
  · simpa only [h.inPkg_iff, h.item] using haccepted.apart
  · simpa only [h.inPkg_iff, h.item] using haccepted.paste

theorem firstHole_eq {pkg' : Pkg} (h : b.Reorders b') (hnot : ¬ b.SharedHole)
    (haccepted : b.Accepted allow) (hpkg : b.pkgs[i]? = some pkg)
    (hpkg' : b'.pkgs[i]? = some pkg') (hperm : ∀ prio, (pkg prio).Perm (pkg' prio)) :
    firstHole b'.item pkg' (pkg' .padCopper) pad = firstHole b.item pkg (pkg .padCopper) pad := by
  ext hole
  rw [(h.accepted hnot haccepted).firstHole_iff (List.mem_of_getElem? hpkg'),
    haccepted.firstHole_iff (List.mem_of_getElem? hpkg), ← (hperm .hole).mem_iff]
  refine and_congr_right fun hhole => ?_
  rw [h.firstPad_eq hnot hpkg hpkg' hhole hperm]

theorem linked_eq (h : b.Reorders b') (hnot : ¬ b.SharedHole) (haccepted : b.Accepted allow)
    (s : State) : b'.linked s = b.linked s := by
  refine State.ext (funext fun a => ?_) (funext fun a => ?_) (linked_layers.trans linked_layers.symm)
  · by_cases hcopper : ∃ i, b.InPkg i .padCopper a
    · obtain ⟨i, pkg, hpkg, ha⟩ := hcopper
      obtain ⟨pkg', hpkg', hperm⟩ := h.exists_pkg hpkg
      rw [linked_hole (List.mem_of_getElem? hpkg) ha,
        linked_hole (List.mem_of_getElem? hpkg') ((hperm .padCopper).mem_iff.mp ha),
        h.firstHole_eq hnot haccepted hpkg hpkg' hperm]
    by_cases hspecial : ∃ i, b.InPkg i .padSpecial a
    · obtain ⟨i, pkg, hpkg, ha⟩ := hspecial
      obtain ⟨pkg', hpkg', hperm⟩ := h.exists_pkg hpkg
      rw [linked_hole_special (List.mem_of_getElem? hpkg) ha,
        linked_hole_special (List.mem_of_getElem? hpkg') ((hperm .padSpecial).mem_iff.mp ha)]
    · rw [linked_hole_of_not_mem (not_mem_of_not_inPkg hcopper) (not_mem_of_not_inPkg hspecial),
        linked_hole_of_not_mem (h.not_mem hcopper) (h.not_mem hspecial)]
  · by_cases hhole : ∃ i, b.InPkg i .hole a
    · obtain ⟨i, pkg, hpkg, ha⟩ := hhole
      obtain ⟨pkg', hpkg', hperm⟩ := h.exists_pkg hpkg
      rw [linked_pad (List.mem_of_getElem? hpkg) ha,
        linked_pad (List.mem_of_getElem? hpkg') ((hperm .hole).mem_iff.mp ha),
        h.firstPad_eq hnot hpkg hpkg' ha hperm]
    · rw [linked_pad_of_not_mem (not_mem_of_not_inPkg hhole),
        linked_pad_of_not_mem (h.not_mem hhole)]

theorem refinedLayers_eq (h : b.Reorders b') (s : State) (i : ℕ) (pad : Addr) :
    b'.refinedLayers s i pad = b.refinedLayers s i pad := by
  have hsame : uncovered b'.item pad (b'.near i .padSpecial) (s.layers pad) =
      uncovered b.item pad (b.near i .padSpecial) (s.layers pad) := by
    ext layer
    rw [mem_uncovered, mem_uncovered]
    simp only [h.inPkg_iff, h.item]
  rw [refinedLayers, refinedLayers, hsame]

theorem refined_eq (h : b.Reorders b') (s : State) : b'.refined s = b.refined s := by
  refine State.ext (refined_hole.trans refined_hole.symm) (refined_pad.trans refined_pad.symm)
    (funext fun a => ?_)
  by_cases hcopper : ∃ i, b.InPkg i .padCopper a
  · obtain ⟨i, pkg, hpkg, ha⟩ := hcopper
    obtain ⟨pkg', hpkg', hperm⟩ := h.exists_pkg hpkg
    rw [refined_layers (List.mk_mem_zipIdx_iff_getElem?.mpr hpkg) ha,
      refined_layers (List.mk_mem_zipIdx_iff_getElem?.mpr hpkg') ((hperm .padCopper).mem_iff.mp ha),
      h.refinedLayers_eq]
  · rw [refined_layers_of_not_mem (not_mem_of_not_inPkg hcopper),
      refined_layers_of_not_mem (h.not_mem hcopper)]

theorem classify_eq (h : b.Reorders b') (hnot : ¬ b.SharedHole) (haccepted : b.Accepted allow)
    (hole pad : Addr → Option Addr) :
    classify b'.item b'.pkgs allow (b'.start hole pad) =
      classify b.item b.pkgs allow (b.start hole pad) := by
  have hrun := (classify_eq_ok_iff hole pad).mpr ⟨haccepted, rfl⟩
  have hrun' := (classify_eq_ok_iff hole pad).mpr ⟨h.accepted hnot haccepted, rfl⟩
  rw [hrun, hrun', h.start_eq, h.linked_eq hnot haccepted, h.refined_eq]

end Reorders

/-! ### A pad in front of the others -/

theorem flatMap_perm {pkgs pkgs' : List Pkg} (prio : InstPrio)
    (h : List.Forall₂ (fun pkg pkg' : Pkg => ∀ prio, (pkg prio).Perm (pkg' prio)) pkgs pkgs') :
    (pkgs.flatMap fun pkg => pkg prio).Perm (pkgs'.flatMap fun pkg => pkg prio) := by
  induction h with
  | nil => exact .refl []
  | cons hperm _ ih => exact (hperm prio).append ih

variable (b) in
/-- The board with the packages reordered. -/
def reordered (pkgs' : List Pkg)
    (h : List.Forall₂ (fun pkg pkg' => ∀ prio, (pkg prio).Perm (pkg' prio)) b.pkgs pkgs') : Board where
  item := b.item
  pkgs := pkgs'
  byPrio pkg' hpkg' prio a ha := by
    obtain ⟨i, hi, rfl⟩ := List.mem_iff_getElem.mp hpkg'
    have hi' : i < b.pkgs.length := h.length_eq ▸ hi
    exact b.byPrio b.pkgs[i] (List.getElem_mem hi') prio a ((h.get hi' hi prio).mem_iff.mpr ha)
  nodup prio := (flatMap_perm prio h).nodup_iff.mp (b.nodup prio)

/-- Another order, in which the hole's first pad is this one. -/
theorem exists_reorders_first (hpad : b.InPkg i .padCopper pad) (hhole : b.InPkg i .hole hole)
    (hoverlaps : overlaps b.item pad hole = true) :
    ∃ b', b.Reorders b' ∧ ∀ s, (b'.linked s).pad hole = some pad := by
  obtain ⟨pkg, hpkg, hpad⟩ := hpad
  obtain ⟨pkg', hpkg', hhole⟩ := hhole
  cases Option.some.inj (hpkg.symm.trans hpkg')
  obtain ⟨hi, rfl⟩ := List.getElem?_eq_some_iff.mp hpkg
  let first : Pkg := Function.update b.pkgs[i] .padCopper
    (pad :: (b.pkgs[i] .padCopper).erase pad)
  have hperm : ∀ prio, (b.pkgs[i] prio).Perm (first prio) := by
    intro prio
    cases prio with
    | padCopper => exact List.perm_cons_erase hpad
    | padSpecial | hole => exact .refl _
  have hset : List.Forall₂ (fun pkg pkg' : Pkg => ∀ prio, (pkg prio).Perm (pkg' prio)) b.pkgs
      (b.pkgs.set i first) := by
    refine List.forall₂_iff_get.mpr ⟨List.length_set.symm, fun k hk hk' prio => ?_⟩
    simp only [List.get_eq_getElem, List.getElem_set]
    split
    next heq =>
      subst heq
      exact hperm prio
    · exact .refl _
  have hmem : first ∈ (b.reordered _ hset).pkgs := List.mem_set hi first
  refine ⟨b.reordered _ hset, ⟨rfl, hset⟩, fun s => ?_⟩
  rw [linked_pad hmem ((hperm .hole).mem_iff.mp hhole), firstPad]
  exact List.find?_cons_of_pos hoverlaps

theorem not_linksOneToOne_of_shared {b' : Board} (hreorders : b.Reorders b')
    (haccepted : b'.Accepted allow) (hshared : b.SharedHole) : ¬ b.LinksOneToOne allow := by
  intro hlinks
  obtain ⟨i, pad, pad', hole, hpad, hpad', hne, hhole, hoverlaps, hoverlaps'⟩ := hshared
  have hrun := (classify_eq_ok_iff (fun _ => none) (fun _ => none)).mpr ⟨haccepted, rfl⟩
  have hsame := (hlinks b' hreorders (fun _ => none) fun _ => none).2
  rw [hrun] at hsame
  have hfirst : ∀ pad, b.InPkg i .padCopper pad → overlaps b.item pad hole = true →
      (b'.linked (b'.start (fun _ => none) fun _ => none)).pad hole = some pad := by
    intro pad hpad hoverlaps
    obtain ⟨c, hc, hlinked⟩ := exists_reorders_first hpad hhole hoverlaps
    have hother := (hlinks c hc (fun _ => none) fun _ => none).2
    rw [← hsame] at hother
    cases hrun' : classify c.item c.pkgs allow (c.start (fun _ => none) fun _ => none) with
    | error failure =>
      rw [hrun'] at hother
      cases hother
    | ok final =>
      rw [hrun'] at hother
      have hfinal := ((classify_eq_ok_iff _ _).mp hrun').2
      have hequal : final = b'.refined (b'.linked (b'.start _ _)) := Option.some.inj hother
      rw [← refined_pad (b := b'), ← hequal, hfinal, refined_pad]
      exact hlinked _
  exact hne (Option.some.inj ((hfirst pad hpad hoverlaps).symm.trans (hfirst pad' hpad' hoverlaps')))

theorem clear_of_linksOneToOne {b' : Board} (hreorders : b.Reorders b')
    (haccepted : b'.Accepted allow) (hlinks : b.LinksOneToOne allow) : b.Clear := by
  have hrun := (classify_eq_ok_iff (fun _ => none) (fun _ => none)).mpr ⟨haccepted, rfl⟩
  have hfinal := (hlinks b' hreorders _ _).1 _ hrun
  refine hreorders.symm.clear ⟨?_, ?_, ?_⟩
  · rintro i pad hole hpad ⟨pkg, hpkg, hhole⟩ hmeets
    have hlink := (hfinal.overlapping i pad hole hpad ⟨pkg, hpkg, hhole⟩ hmeets).2
    rw [refined_pad, linked_pad (List.mem_of_getElem? hpkg) hhole] at hlink
    exact overlaps_of_firstPad hlink
  · exact fun i pad hole hpad hhole hmeets _ => (hfinal.overlapping i pad hole hpad hhole hmeets).1
  · rintro i pad ⟨pkg, hpkg, hpad⟩ layer hlayer hmem
    have htop : layer.onTop = true := by rcases hlayer with rfl | rfl <;> rfl
    have hlost := hfinal.lost i pad ⟨pkg, hpkg, hpad⟩ layer hlayer
    rw [refined_layers (List.mk_mem_zipIdx_iff_getElem?.mpr hpkg) hpad, mem_refinedLayers htop,
      linked_layers, mem_uncovered] at hlost
    exact not_iff_not.mp ((and_congr_right_iff.mp hlost) hmem)

/-- The code does as it should exactly if every order is refused, or no hole is shared by two pads
and the tests for overlaps and for what is inside are right about the shapes. -/
theorem linksOneToOne_iff (b : Board) (allow : AllowOverlap) :
    b.LinksOneToOne allow ↔
      ((∃ b', b.Reorders b' ∧ b'.Accepted allow) → ¬ b.SharedHole ∧ b.Clear) := by
  constructor
  · rintro hlinks ⟨b', hreorders, haccepted⟩
    exact ⟨fun hshared => not_linksOneToOne_of_shared hreorders haccepted hshared hlinks,
      clear_of_linksOneToOne hreorders haccepted hlinks⟩
  · intro hcond b' hreorders hole pad
    have hnot : ∀ {c : Board}, b.Reorders c → c.Accepted allow → ¬ b.SharedHole :=
      fun hc haccepted => (hcond ⟨_, hc, haccepted⟩).1
    constructor
    · intro final hrun
      obtain ⟨haccepted, rfl⟩ := (classify_eq_ok_iff hole pad).mp hrun
      obtain ⟨hshared, hclear⟩ := hcond ⟨b', hreorders, haccepted⟩
      exact oneToOne_of_accepted haccepted (hshared ∘ hreorders.sharedHole_iff.mp)
        (hreorders.clear hclear) hole pad
    · by_cases haccepted : b.Accepted allow
      · rw [hreorders.classify_eq (hnot b.reorders_refl haccepted) haccepted]
      by_cases haccepted' : b'.Accepted allow
      · exact absurd (hreorders.symm.accepted (fun hshared => hnot hreorders haccepted'
          (hreorders.sharedHole_iff.mp hshared)) haccepted') haccepted
      · rw [toOption_classify haccepted, toOption_classify haccepted']

def betweenItem : Addr → Item
  | 0 =>
    { type := .pad true, base := ⟨-10, -10⟩, other := ⟨10, 10⟩, padType := .normal, name := "1",
      obj := 0, lineno := 1 }
  | 1 =>
    { type := .pad true, base := ⟨5, 5⟩, other := ⟨25, 25⟩, padType := .normal, name := "2",
      obj := 1, lineno := 2 }
  | _ =>
    { type := .hole, base := ⟨5, 5⟩, other := ⟨10, 10⟩, padType := .normal, name := "", obj := 2,
      lineno := 3 }

def betweenPkg : Pkg
  | .padCopper => [0, 1]
  | .padSpecial => []
  | .hole => [2]

def betweenPads : Board where
  item := betweenItem
  pkgs := [betweenPkg]
  byPrio := by
    intro pkg hpkg prio a ha
    cases List.mem_singleton.mp hpkg
    cases prio with
    | padCopper =>
      rcases List.mem_pair.mp ha with rfl | rfl <;> rfl
    | padSpecial => cases ha
    | hole =>
      cases List.mem_singleton.mp ha
      rfl
  nodup := by
    intro prio
    cases prio <;> decide

theorem inPkg_betweenPads {i : ℕ} {prio : InstPrio} {a : Addr} :
    betweenPads.InPkg i prio a ↔ i = 0 ∧ a ∈ betweenPkg prio := by
  simp only [InPkg, betweenPads]
  cases i with
  | zero => simp
  | succ i => simp

theorem apart_betweenPads : overlap (betweenItem 0).toInst (betweenItem 1).toInst .none = false ∧
    overlap (betweenItem 1).toInst (betweenItem 0).toInst .none = false := by
  constructor
  · decide +kernel
  · decide +kernel

theorem overlaps_betweenPads :
    overlaps betweenItem 0 2 = true ∧ overlaps betweenItem 1 2 = true := by
  constructor
  · decide +kernel
  · decide +kernel

theorem accepted_betweenPads : betweenPads.Accepted .none := by
  constructor
  case within =>
    intro i pad hole hpad hhole _
    cases List.mem_singleton.mp (inPkg_betweenPads.mp hhole).2
    rcases List.mem_pair.mp (inPkg_betweenPads.mp hpad).2 with rfl | rfl <;> decide
  case single =>
    intro pkg hpkg hole hhole hole' hhole' pad _ _
    cases List.mem_singleton.mp hpkg
    exact (List.mem_singleton.mp hhole).trans (List.mem_singleton.mp hhole').symm
  case apart =>
    intro i j copper other _ hcopper hother hne
    rcases List.mem_pair.mp (inPkg_betweenPads.mp hcopper).2 with rfl | rfl
    · rcases List.mem_pair.mp (inPkg_betweenPads.mp hother).2 with rfl | rfl
      · exact absurd rfl hne
      · exact apart_betweenPads.1
    · rcases List.mem_pair.mp (inPkg_betweenPads.mp hother).2 with rfl | rfl
      · exact apart_betweenPads.2
      · exact absurd rfl hne
  case paste =>
    intro i j copper other _ _ hother
    cases (inPkg_betweenPads.mp hother).2

/-- It is an order of the lists in which both passes succeed. -/
theorem not_linksOneToOne_betweenPads :
    ¬ ∀ (b : Board) (allow : AllowOverlap), allow ≠ .any → b.LinksOneToOne allow := by
  intro h
  refine not_linksOneToOne_of_shared (reorders_refl betweenPads) accepted_betweenPads ?_
    (h betweenPads .none (by decide))
  exact ⟨0, 0, 1, 2, inPkg_betweenPads.mpr (by decide), inPkg_betweenPads.mpr (by decide), by decide,
    inPkg_betweenPads.mpr (by decide), overlaps_betweenPads.1, overlaps_betweenPads.2⟩

end Board

end Openmoko.Fped.Pads
