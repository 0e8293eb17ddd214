import Openmoko.Fped.Hole
import Openmoko.Library.Loop
import Mathlib.Data.List.Find

/-!
# Which hole a pad is linked to

A hole goes to the first pad that overlaps it. The pads are linked one after the other: a pad finds
the holes that no pad before it overlaps, and there must not be two of them.
-/

namespace Openmoko.Fped.Pads

open Overlap

variable {a : Addr}

section Pads

variable (item : Addr → Item)

def overlaps (pad hole : Addr) : Bool := overlap (item pad).toInst (item hole).toInst .none

def within (hole pad : Addr) : Bool := inside (item hole).toInst (item pad).toInst

def firstPad (pads : List Addr) (hole : Addr) : Option Addr :=
  pads.find? fun pad => overlaps item pad hole

def firstHole (pkg : Pkg) (pads : List Addr) (pad : Addr) : Option Addr :=
  (pkg .hole).find? fun hole => firstPad item pads hole = some pad

def State.linked (s : State) (pkg : Pkg) (pads : List Addr) : State :=
  { s with
    hole := fun a =>
      if a ∈ pkg .padCopper then firstHole item pkg pads a
      else if a ∈ pkg .padSpecial then none
      else s.hole a
    pad := fun a => if a ∈ pkg .hole then firstPad item pads a else s.pad a }

def State.link (s : State) (pad hole : Addr) : State :=
  (s.setHole pad (some hole)).setPad hole (some pad)

@[simp] theorem link_hole (s : State) (pad hole : Addr) :
    (s.link pad hole).hole = Function.update s.hole pad (some hole) := rfl

@[simp] theorem link_pad (s : State) (pad hole : Addr) :
    (s.link pad hole).pad = Function.update s.pad hole (some pad) := rfl

def State.free (s : State) (pad hole : Addr) : Bool := overlaps item pad hole && (s.pad hole).isNone

variable {item} {pads : List Addr} {pad hole : Addr}

theorem mem_of_firstPad (h : firstPad item pads hole = some pad) : pad ∈ pads :=
  List.mem_of_find?_eq_some h

theorem overlaps_of_firstPad (h : firstPad item pads hole = some pad) :
    overlaps item pad hole = true := by
  simpa using List.find?_some h

theorem of_firstHole {pkg : Pkg} (h : firstHole item pkg pads pad = some hole) :
    hole ∈ pkg .hole ∧ firstPad item pads hole = some pad :=
  ⟨List.mem_of_find?_eq_some h, by simpa using List.find?_some h⟩

theorem firstPad_eq_some_iff {before rest : List Addr} (hnew : pad ∉ before) :
    firstPad item (before ++ pad :: rest) hole = some pad ↔
      firstPad item before hole = none ∧ overlaps item pad hole = true := by
  rw [firstPad, List.find?_append, List.find?_cons]
  cases hfirst : before.find? fun pad => overlaps item pad hole with
  | some p =>
    have hp : p ≠ pad := fun heq => hnew (heq ▸ List.mem_of_find?_eq_some hfirst)
    simp [firstPad, hfirst, hp]
  | none =>
    cases hpad : overlaps item pad hole with
    | true => simp [firstPad, hfirst]
    | false =>
      simp only [firstPad, hfirst, Option.none_or, Bool.false_eq_true, and_false, iff_false]
      intro hrest
      have hoverlaps := List.find?_some hrest
      simp [hpad] at hoverlaps

theorem checkThroughHole_eq_ok_iff {s s' : State} : checkThroughHole item pad hole s = .ok s' ↔
    (overlaps item pad hole = true → within item hole pad = true ∧
      (s.pad hole = none → s.hole pad = none)) ∧
    s' = if s.free item pad hole then s.link pad hole else s := by
  rw [checkThroughHole]
  change (if !overlaps item pad hole then _ else if !within item hole pad then _ else _) = _ ↔ _
  cases hoverlaps : overlaps item pad hole with
  | false => simpa [State.free, hoverlaps] using eq_comm
  | true =>
    cases within item hole pad with
    | false => simp
    | true =>
      cases hpad : s.pad hole with
      | some p => simpa [State.free, hpad] using eq_comm
      | none =>
        cases hhole : s.hole pad with
        | some h => simp
        | none => simpa [State.free, State.link, hoverlaps, hpad] using eq_comm

variable {holes : List Addr} {s s' : State}

theorem connectFull_eq_ok_iff (hfull : s.hole pad ≠ none) :
    holes.foldlM (fun s hole => checkThroughHole item pad hole s) s = .ok s' ↔
      (∀ hole ∈ holes, (overlaps item pad hole = true → within item hole pad = true) ∧
        s.free item pad hole = false) ∧ s' = s := by
  have hstep : ∀ t, t = s → ∀ hole ∈ holes, ∀ s', checkThroughHole item pad hole t = .ok s' ↔
      ((overlaps item pad hole = true → within item hole pad = true) ∧
        s.free item pad hole = false) ∧ s' = t := by
    rintro t rfl hole - s'
    rw [checkThroughHole_eq_ok_iff, State.free]
    cases overlaps item pad hole <;> cases t.pad hole <;> simp [hfull]
  rw [foldlM_eq_ok_iff _ (· = s) hstep (fun t ht _ _ => ht) rfl, List.foldl_fixed]

theorem free_link {hole' : Addr} (hne : hole' ≠ hole) :
    (s.link pad hole).free item pad hole' = s.free item pad hole' := by
  simp [State.free, hne]

theorem connectPad_eq_ok_iff (hnodup : holes.Nodup) (hempty : s.hole pad = none) :
    holes.foldlM (fun s hole => checkThroughHole item pad hole s) s = .ok s' ↔
      (∀ hole ∈ holes, overlaps item pad hole = true → within item hole pad = true) ∧
      (∀ hole ∈ holes, ∀ hole' ∈ holes, s.free item pad hole = true →
        s.free item pad hole' = true → hole = hole') ∧
      s' = ((holes.find? (s.free item pad)).map (s.link pad)).getD s := by
  induction holes with
  | nil => simpa [pure, Except.pure] using eq_comm
  | cons hole holes ih =>
    obtain ⟨hnew, hnodup⟩ := List.nodup_cons.mp hnodup
    have hfirst : ∀ t, checkThroughHole item pad hole s = .ok t ↔
        (overlaps item pad hole = true → within item hole pad = true) ∧
        t = if s.free item pad hole then s.link pad hole else s := by
      intro t
      rw [checkThroughHole_eq_ok_iff]
      simp [hempty]
    have hrun : ∀ t, (∃ u, checkThroughHole item pad hole s = .ok u ∧
        holes.foldlM (fun s hole => checkThroughHole item pad hole s) u = .ok t) ↔
        (overlaps item pad hole = true → within item hole pad = true) ∧
        holes.foldlM (fun s hole => checkThroughHole item pad hole s)
          (if s.free item pad hole then s.link pad hole else s) = .ok t := by
      intro t
      simp only [hfirst, and_assoc, exists_and_left, exists_eq_left]
    rw [List.foldlM_cons, except_bind_eq_ok_iff, hrun, List.find?_cons]
    simp only [List.forall_mem_cons]
    cases hfree : s.free item pad hole with
    | false =>
      rw [if_neg Bool.false_ne_true, ih hnodup]
      simp [and_assoc]
    | true =>
      have hfull : (s.link pad hole).hole pad ≠ none := by simp
      have hne : ∀ hole' ∈ holes, hole' ≠ hole := fun hole' hmem heq => hnew (heq ▸ hmem)
      rw [if_pos rfl, connectFull_eq_ok_iff hfull]
      constructor
      · rintro ⟨hwithin, hrest, rfl⟩
        have hnone : ∀ hole' ∈ holes, s.free item pad hole' = false := fun hole' hmem =>
          (free_link (hne hole' hmem)).symm.trans (hrest hole' hmem).2
        have hsingle : ∀ hole' ∈ holes, ∀ p : Prop, s.free item pad hole' = true → p :=
          fun hole' hmem p h => absurd ((hnone hole' hmem).symm.trans h) Bool.false_ne_true
        exact ⟨⟨hwithin, fun hole' hmem => (hrest hole' hmem).1⟩,
          ⟨⟨fun _ _ => trivial, fun hole' hmem _ => hsingle hole' hmem _⟩,
            fun hole' hmem => ⟨fun h => hsingle hole' hmem _ h,
              fun _ _ h => hsingle hole' hmem _ h⟩⟩, rfl⟩
      · rintro ⟨⟨hwithin, hrest⟩, ⟨⟨-, hsingle⟩, -⟩, rfl⟩
        refine ⟨hwithin, fun hole' hmem => ⟨hrest hole' hmem, ?_⟩, rfl⟩
        rw [free_link (hne hole' hmem), Bool.eq_false_iff]
        exact fun h => hne hole' hmem (hsingle hole' hmem rfl h).symm

variable {pkg : Pkg} {before rest : List Addr}

theorem foldl_setHole (pads : List Addr) (s : State) :
    pads.foldl (fun s pad => s.setHole pad none) s =
      { s with hole := fun a => if a ∈ pads then none else s.hole a } := by
  induction pads generalizing s with
  | nil => simp
  | cons pad pads ih =>
    rw [List.foldl_cons, ih]
    simp only [State.setHole, State.mk.injEq, and_true]
    funext a
    by_cases ha : a = pad <;> simp [ha]

theorem foldl_setPad (holes : List Addr) (s : State) :
    holes.foldl (fun s hole => s.setPad hole none) s =
      { s with pad := fun a => if a ∈ holes then none else s.pad a } := by
  induction holes generalizing s with
  | nil => simp
  | cons hole holes ih =>
    rw [List.foldl_cons, ih]
    simp only [State.setPad, State.mk.injEq, and_true, true_and]
    funext a
    by_cases ha : a = hole <;> simp [ha]

@[simp] theorem firstHole_nil (a : Addr) : firstHole item pkg [] a = none := by
  simp [firstHole, firstPad]

theorem clearLinks_eq (item : Addr → Item) (pkg : Pkg) (s : State) :
    clearLinks pkg s = s.linked item pkg [] := by
  rw [clearLinks, foldl_setHole, foldl_setHole, foldl_setPad]
  simp only [State.linked, firstHole_nil, firstPad, List.find?_nil, State.mk.injEq, and_true]
  funext a
  by_cases hcopper : a ∈ pkg .padCopper <;> by_cases hspecial : a ∈ pkg .padSpecial <;>
    simp [hcopper, hspecial]

theorem free_linked (hhole : hole ∈ pkg .hole) :
    (s.linked item pkg before).free item pad hole = true ↔
      firstPad item before hole = none ∧ overlaps item pad hole = true := by
  simp [State.free, State.linked, hhole, and_comm]

theorem hole_linked_of_new (hpad : pad ∈ pkg .padCopper) (hnew : pad ∉ before) :
    (s.linked item pkg before).hole pad = none := by
  simp only [State.linked, if_pos hpad, firstHole, List.find?_eq_none, decide_eq_true_eq]
  exact fun hole _ hfirst => hnew (mem_of_firstPad hfirst)

theorem firstPad_append_singleton (hnew : ¬ (firstPad item before hole = none ∧
    overlaps item pad hole = true)) :
    firstPad item (before ++ [pad]) hole = firstPad item before hole := by
  rw [firstPad, List.find?_append, List.find?_singleton]
  change (firstPad item before hole).or _ = _
  cases hfirst : firstPad item before hole with
  | some p => rfl
  | none =>
    have hpad : overlaps item pad hole = false := by simpa [hfirst] using hnew
    simp [hpad]

theorem firstHole_append_of_ne (hne : a ≠ pad) :
    firstHole item pkg (before ++ [pad]) a = firstHole item pkg before a := by
  have hfirst : ∀ hole, firstPad item (before ++ [pad]) hole = some a ↔
      firstPad item before hole = some a := by
    intro hole
    rw [firstPad, List.find?_append, List.find?_singleton]
    change (firstPad item before hole).or _ = _ ↔ _
    cases firstPad item before hole with
    | some p => rfl
    | none => cases overlaps item pad hole <;> simp [hne.symm]
  simp only [firstHole, hfirst]

theorem linked_append_singleton (hpad : pad ∈ pkg .padCopper) (hnew : pad ∉ before)
    (hsingle : ∀ hole ∈ pkg .hole, ∀ hole' ∈ pkg .hole,
      (s.linked item pkg before).free item pad hole = true →
      (s.linked item pkg before).free item pad hole' = true → hole = hole') :
    (((pkg .hole).find? ((s.linked item pkg before).free item pad)).map
        ((s.linked item pkg before).link pad)).getD (s.linked item pkg before) =
      s.linked item pkg (before ++ [pad]) := by
  have hown : firstHole item pkg (before ++ [pad]) pad =
      (pkg .hole).find? ((s.linked item pkg before).free item pad) := by
    refine List.find?_congr fun hole hhole => ?_
    rw [Bool.eq_iff_iff, decide_eq_true_iff, free_linked hhole, firstPad_eq_some_iff hnew]
  have hother : ∀ a ∈ pkg .hole, (s.linked item pkg before).free item pad a = false →
      firstPad item (before ++ [pad]) a = firstPad item before a := by
    intro a ha hfree
    apply firstPad_append_singleton
    rw [← free_linked ha, hfree]
    exact Bool.false_ne_true
  cases hfound : (pkg .hole).find? ((s.linked item pkg before).free item pad) with
  | none =>
    have hfree := List.find?_eq_none.mp hfound
    simp only [Option.map_none, Option.getD_none]
    refine State.ext (funext fun a => ?_) (funext fun a => ?_) rfl
    · change (if _ then _ else _) = if _ then _ else _
      rcases eq_or_ne a pad with rfl | hne
      · rw [if_pos hpad, if_pos hpad, hown, hfound, firstHole, List.find?_eq_none]
        exact fun hole _ hfirst => hnew (mem_of_firstPad (of_decide_eq_true hfirst))
      · rw [firstHole_append_of_ne hne]
    · change (if _ then _ else _) = if _ then _ else _
      by_cases ha : a ∈ pkg .hole
      · rw [if_pos ha, if_pos ha, hother a ha (Bool.eq_false_iff.mpr (hfree a ha))]
      · rw [if_neg ha, if_neg ha]
  | some hole =>
    have hhole := List.mem_of_find?_eq_some hfound
    have hfree := List.find?_some hfound
    simp only [Option.map_some, Option.getD_some]
    refine State.ext (funext fun a => ?_) (funext fun a => ?_) rfl
    · rw [link_hole]
      rcases eq_or_ne a pad with rfl | hne
      · rw [Function.update_self]
        exact (hfound.symm.trans hown.symm).trans (if_pos hpad).symm
      · rw [Function.update_of_ne hne]
        change (if _ then _ else _) = if _ then _ else _
        rw [firstHole_append_of_ne hne]
    · rw [link_pad]
      rcases eq_or_ne a hole with rfl | hne
      · rw [Function.update_self]
        exact ((firstPad_eq_some_iff hnew).mpr ((free_linked hhole).mp hfree)).symm.trans
          (if_pos hhole).symm
      · rw [Function.update_of_ne hne]
        change (if _ then _ else _) = if _ then _ else _
        by_cases ha : a ∈ pkg .hole
        · rw [if_pos ha, if_pos ha, hother a ha]
          exact Bool.eq_false_iff.mpr fun h => hne (hsingle a ha hole hhole h hfree)
        · rw [if_neg ha, if_neg ha]

variable (item pkg) in
structure PadAccepted (pad : Addr) : Prop where
  within : ∀ hole ∈ pkg .hole, overlaps item pad hole = true → within item hole pad = true
  single : ∀ hole ∈ pkg .hole, ∀ hole' ∈ pkg .hole,
    firstPad item (pkg .padCopper) hole = some pad →
    firstPad item (pkg .padCopper) hole' = some pad → hole = hole'

theorem connectPads_eq_ok_iff (hpads : (pkg .padCopper).Nodup) (hholes : (pkg .hole).Nodup)
    (hsplit : pkg .padCopper = before ++ pads) :
    pads.foldlM
        (fun s pad => (pkg .hole).foldlM (fun s hole => checkThroughHole item pad hole s) s)
        (s.linked item pkg before) = .ok s' ↔
      (∀ pad ∈ pads, PadAccepted item pkg pad) ∧ s' = s.linked item pkg (before ++ pads) := by
  induction pads generalizing before with
  | nil => simpa [pure, Except.pure] using eq_comm
  | cons pad pads ih =>
    have hnew : pad ∉ before := by
      rw [hsplit, List.nodup_append] at hpads
      exact fun hmem => hpads.2.2 pad hmem pad List.mem_cons_self rfl
    have hpad : pad ∈ pkg .padCopper := hsplit ▸ List.mem_append_right _ List.mem_cons_self
    have hfree : ∀ hole ∈ pkg .hole, (s.linked item pkg before).free item pad hole = true ↔
        firstPad item (pkg .padCopper) hole = some pad := by
      intro hole hhole
      rw [hsplit, firstPad_eq_some_iff hnew, free_linked hhole]
    have hfirst : ∀ t, (pkg .hole).foldlM (fun s hole => checkThroughHole item pad hole s)
        (s.linked item pkg before) = .ok t ↔
        PadAccepted item pkg pad ∧ t = s.linked item pkg (before ++ [pad]) := by
      intro t
      rw [connectPad_eq_ok_iff hholes (hole_linked_of_new hpad hnew), ← and_assoc]
      constructor
      · rintro ⟨⟨hwithin, hsingle⟩, rfl⟩
        refine ⟨⟨hwithin, fun hole hhole hole' hhole' h h' => ?_⟩,
          linked_append_singleton hpad hnew hsingle⟩
        exact hsingle hole hhole hole' hhole' ((hfree hole hhole).mpr h)
          ((hfree hole' hhole').mpr h')
      · rintro ⟨haccepted, rfl⟩
        have hsingle : ∀ hole ∈ pkg .hole, ∀ hole' ∈ pkg .hole,
            (s.linked item pkg before).free item pad hole = true →
            (s.linked item pkg before).free item pad hole' = true → hole = hole' :=
          fun hole hhole hole' hhole' h h' => haccepted.single hole hhole hole' hhole'
            ((hfree hole hhole).mp h) ((hfree hole' hhole').mp h')
        exact ⟨⟨haccepted.within, hsingle⟩, (linked_append_singleton hpad hnew hsingle).symm⟩
    have hsplit' : pkg .padCopper = before ++ [pad] ++ pads := by simpa using hsplit
    rw [List.foldlM_cons, except_bind_eq_ok_iff, List.forall_mem_cons, and_assoc]
    simp only [hfirst, and_assoc, exists_and_left, exists_eq_left]
    rw [ih hsplit', List.append_assoc, List.singleton_append]

theorem connectHoles_eq_ok_iff (hpads : (pkg .padCopper).Nodup) (hholes : (pkg .hole).Nodup) :
    connectHoles item pkg (clearLinks pkg s) = .ok s' ↔
      (∀ pad ∈ pkg .padCopper, PadAccepted item pkg pad) ∧
        s' = s.linked item pkg (pkg .padCopper) := by
  rw [connectHoles, clearLinks_eq item]
  exact connectPads_eq_ok_iff hpads hholes rfl

end Pads

namespace Board

variable (b : Board) {s s' : State} {pkg : Pkg}

theorem nodup_of_mem (hpkg : pkg ∈ b.pkgs) (prio : InstPrio) : (pkg prio).Nodup :=
  (List.nodup_flatMap.mp (b.nodup prio)).1 pkg hpkg

def linked (s : State) : State :=
  b.pkgs.foldl (fun s pkg => s.linked b.item pkg (pkg .padCopper)) s

theorem linkHoles_eq_ok_iff : linkHoles b.item b.pkgs s = .ok s' ↔
    (∀ pkg ∈ b.pkgs, ∀ pad ∈ pkg .padCopper, PadAccepted b.item pkg pad) ∧ s' = b.linked s :=
  foldlM_eq_ok_iff _ (fun _ => True)
    (fun _ _ _ hpkg _ => connectHoles_eq_ok_iff (b.nodup_of_mem hpkg .padCopper)
      (b.nodup_of_mem hpkg .hole)) (fun _ _ _ _ => trivial) trivial

variable {b}

theorem not_mem_of_prio (hpkg : pkg ∈ b.pkgs) {prio prio' : InstPrio} (hne : prio ≠ prio')
    (ha : (b.item a).prio = prio) : a ∉ pkg prio' :=
  fun hmem => hne (ha.symm.trans (b.byPrio pkg hpkg prio' a hmem))

theorem exists_split (hpkg : pkg ∈ b.pkgs) : ∃ before rest, b.pkgs = before ++ pkg :: rest ∧
    ∀ prio, ∀ a ∈ pkg prio, (∀ q ∈ before, a ∉ q prio) ∧ ∀ q ∈ rest, a ∉ q prio := by
  obtain ⟨before, rest, hsplit⟩ := List.append_of_mem hpkg
  refine ⟨before, rest, hsplit, fun prio a ha => ?_⟩
  have hnodup := b.nodup prio
  rw [hsplit] at hnodup
  exact not_mem_of_nodup_flatMap (f := fun pkg : Pkg => pkg prio) hnodup ha

theorem linked_layers : (b.linked s).layers = s.layers := by
  apply foldl_frame State.layers
  intro pkg _ s
  rfl

theorem linked_at {β : Type} (view : State → β) {prio : InstPrio} (hpkg : pkg ∈ b.pkgs)
    (ha : a ∈ pkg prio) (hframe : ∀ q ∈ b.pkgs, a ∉ q prio → ∀ s : State,
      view (s.linked b.item q (q .padCopper)) = view s) :
    ∃ t, view (b.linked s) = view (State.linked b.item t pkg (pkg .padCopper)) := by
  obtain ⟨before, rest, hsplit, honce⟩ := exists_split hpkg
  obtain ⟨hbefore, hrest⟩ := honce prio a ha
  have hmem : ∀ q ∈ b.pkgs, q ∈ before ++ pkg :: rest := fun q hq => hsplit ▸ hq
  obtain ⟨t, -, ht⟩ := foldl_frame_except view (c := pkg)
    (g := fun s pkg => s.linked b.item pkg (pkg .padCopper))
    (fun q hq => hframe q (hsplit ▸ List.mem_append_left _ hq) (hbefore q hq))
    (fun q hq => hframe q (hsplit ▸ List.mem_append_right _ (List.mem_cons_of_mem _ hq))
      (hrest q hq)) s
  refine ⟨t, ?_⟩
  rw [linked, hsplit]
  exact ht

theorem linked_pad {hole : Addr} (hpkg : pkg ∈ b.pkgs) (hhole : hole ∈ pkg .hole) :
    (b.linked s).pad hole = firstPad b.item (pkg .padCopper) hole := by
  obtain ⟨t, ht⟩ := linked_at (fun s => s.pad hole) hpkg hhole fun q _ hother s => if_neg hother
  exact ht.trans (if_pos hhole)

theorem linked_pad_of_not_mem (ha : ∀ pkg ∈ b.pkgs, a ∉ pkg .hole) : (b.linked s).pad a = s.pad a :=
  foldl_frame (fun s : State => s.pad a) (fun pkg hpkg _ => if_neg (ha pkg hpkg)) s

theorem linked_hole {pad : Addr} (hpkg : pkg ∈ b.pkgs) (hpad : pad ∈ pkg .padCopper) :
    (b.linked s).hole pad = firstHole b.item pkg (pkg .padCopper) pad := by
  have hspecial : ∀ q ∈ b.pkgs, pad ∉ q .padSpecial := fun q hq =>
    not_mem_of_prio hq (by decide) (b.byPrio pkg hpkg .padCopper pad hpad)
  obtain ⟨t, ht⟩ := linked_at (fun s => s.hole pad) hpkg hpad fun q hq hother s =>
    (if_neg hother).trans (if_neg (hspecial q hq))
  exact ht.trans (if_pos hpad)

theorem linked_hole_special {pad : Addr} (hpkg : pkg ∈ b.pkgs) (hpad : pad ∈ pkg .padSpecial) :
    (b.linked s).hole pad = none := by
  have hcopper : ∀ q ∈ b.pkgs, pad ∉ q .padCopper := fun q hq =>
    not_mem_of_prio hq (by decide) (b.byPrio pkg hpkg .padSpecial pad hpad)
  obtain ⟨t, ht⟩ := linked_at (fun s => s.hole pad) hpkg hpad fun q hq hother s =>
    (if_neg (hcopper q hq)).trans (if_neg hother)
  exact ht.trans ((if_neg (hcopper pkg hpkg)).trans (if_pos hpad))

theorem linked_hole_of_not_mem (hcopper : ∀ pkg ∈ b.pkgs, a ∉ pkg .padCopper)
    (hspecial : ∀ pkg ∈ b.pkgs, a ∉ pkg .padSpecial) : (b.linked s).hole a = s.hole a :=
  foldl_frame (fun s : State => s.hole a)
    (fun pkg hpkg _ => (if_neg (hcopper pkg hpkg)).trans (if_neg (hspecial pkg hpkg))) s

end Board

end Openmoko.Fped.Pads
