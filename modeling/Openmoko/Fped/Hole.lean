import Mathlib.Data.Finset.Basic
import Mathlib.Data.Finset.Insert
import Mathlib.Data.List.Basic
import Mathlib.Logic.Function.Basic
import Openmoko.Fped.Overlap

/-!
# Holes and the pads they are in (`hole.c`)

The instances of a package are kept in lists by priority. An instance is named by its address. What
is found out after instantiation is in the state: the links between pads and holes, and the layers.
-/

namespace Openmoko.Fped.Pads

open Overlap

inductive PadType where
  | normal
  | bare
  | trace
  | paste
  | mask
  deriving DecidableEq, Repr

/-- `enum inst_prio`, as far as pads and holes go. -/
inductive InstPrio where
  | padCopper
  | padSpecial
  | hole
  deriving DecidableEq, Repr

/-- The layers that pads can have. -/
inductive Layer where
  | top
  | pasteTop
  | maskTop
  | bottom
  | pasteBottom
  | maskBottom
  deriving DecidableEq, Repr

abbrev Addr := ℕ

/-- A pad or a hole as it is instantiated. The name and the type of the pad are those of a pad. -/
structure Item extends Inst where
  padType : PadType
  name : String
  obj : Addr
  lineno : ℕ

def Item.prio (item : Item) : InstPrio :=
  match item.type with
  | .hole => .hole
  | .pad _ =>
    if item.padType = .normal ∨ item.padType = .bare ∨ item.padType = .trace then .padCopper
    else .padSpecial

abbrev Pkg := InstPrio → List Addr

/-- The packages, the global one first. -/
structure Board where
  item : Addr → Item
  pkgs : List Pkg
  byPrio : ∀ pkg ∈ pkgs, ∀ prio, ∀ a ∈ pkg prio, (item a).prio = prio
  nodup : ∀ prio, (pkgs.flatMap fun pkg => pkg prio).Nodup

@[ext] structure State where
  /-- of a pad -/
  hole : Addr → Option Addr
  /-- of a hole -/
  pad : Addr → Option Addr
  layers : Addr → Finset Layer

structure Failure where
  message : String
  instantiationError : Addr
  deriving DecidableEq, Repr

namespace State

variable (s : State)

def setHole (pad : Addr) (hole : Option Addr) : State :=
  { s with hole := Function.update s.hole pad hole }

def setPad (hole : Addr) (pad : Option Addr) : State :=
  { s with pad := Function.update s.pad hole pad }

def setLayers (a : Addr) (layers : Finset Layer) : State :=
  { s with layers := Function.update s.layers a layers }

variable {s} {a b : Addr} {layers layers' : Finset Layer}

@[simp] theorem setLayers_hole : (s.setLayers a layers).hole = s.hole := rfl

@[simp] theorem setLayers_pad : (s.setLayers a layers).pad = s.pad := rfl

@[simp] theorem setLayers_layers :
    (s.setLayers a layers).layers = Function.update s.layers a layers := rfl

theorem setLayers_same : s.setLayers a (s.layers a) = s := by
  simp [setLayers]

theorem setLayers_setLayers :
    (s.setLayers a layers).setLayers a layers' = s.setLayers a layers' := by
  simp [setLayers]

end State

variable (item : Addr → Item)

def checkThroughHole (pad hole : Addr) (s : State) : Except Failure State :=
  if !overlap (item pad).toInst (item hole).toInst .none then .ok s
  else if !inside (item hole).toInst (item pad).toInst then
    .error ⟨s!"hole (line {(item hole).lineno}) not completely inside " ++
      s!"pad \"{(item pad).name}\" (line {(item pad).lineno})", (item pad).obj⟩
  else if (s.pad hole).isSome then
    -- meant to be caught later, as pads that overlap
    .ok s
  else
    match s.hole pad with
    | some first =>
      .error ⟨s!"pad \"{(item pad).name}\" (line {(item pad).lineno}) has multiple holes " ++
        s!"(lines {(item hole).lineno}, {(item first).lineno})", (item pad).obj⟩
    | none => .ok ((s.setHole pad (some hole)).setPad hole (some pad))

def connectHoles (pkg : Pkg) (s : State) : Except Failure State :=
  (pkg .padCopper).foldlM
    (fun s pad => (pkg .hole).foldlM (fun s hole => checkThroughHole item pad hole s) s) s

def clearLinks (pkg : Pkg) (s : State) : State :=
  let s := (pkg .padCopper).foldl (fun s pad => s.setHole pad none) s
  let s := (pkg .padSpecial).foldl (fun s pad => s.setHole pad none) s
  (pkg .hole).foldl (fun s hole => s.setPad hole none) s

def linkHoles (pkgs : List Pkg) (s : State) : Except Failure State :=
  pkgs.foldlM (fun s pkg => connectHoles item pkg (clearLinks pkg s)) s

end Openmoko.Fped.Pads

/-!
## Layers of pads (`layer.c`)

A set of layers is a finite set instead of a bit mask.
-/

namespace Openmoko.Fped.Pads

open Overlap

def padTypeToLayers (type : PadType) : Finset Layer :=
  match type with
  | .normal => {.pasteTop, .top, .maskTop}
  | .bare => {.top, .maskTop}
  | .trace => {.top}
  | .paste => {.pasteTop}
  | .mask => {.maskTop}

def mechHoleLayers : Finset Layer := {.maskTop, .maskBottom}

def instLayers (item : Item) : Finset Layer :=
  match item.type with
  | .pad _ => padTypeToLayers item.padType
  | .hole => mechHoleLayers

variable (item : Addr → Item) (pkgs : List Pkg)

def refineOverlapping (copper other : Addr) (s : State) : Except Failure State := do
  let s ←
    if .pasteTop ∈ s.layers other then
      let s := s.setLayers copper ((s.layers copper).erase .pasteTop)
      if !inside (item other).toInst (item copper).toInst then
        .error ⟨"solder paste without copper underneath " ++
          s!"(\"{(item copper).name}\" line {(item copper).lineno}, " ++
          s!"\"{(item other).name}\" line {(item other).lineno})", (item other).obj⟩
      else .ok s
    else .ok s
  if .maskTop ∈ s.layers other then
    .ok (s.setLayers copper ((s.layers copper).erase .maskTop))
  else .ok s

def Coexist (pkgCopper pkg : ℕ) : Prop := pkg ≠ 0 ∧ pkgCopper ≠ 0 ∧ pkgCopper ≠ pkg

instance (pkgCopper pkg : ℕ) : Decidable (Coexist pkgCopper pkg) :=
  inferInstanceAs (Decidable (_ ∧ _ ∧ _))

def refineCopper (pkgCopper : ℕ) (copper : Addr) (allow : AllowOverlap) (s : State) :
    Except Failure State :=
  pkgs.zipIdx.foldlM
    (fun s (pkg, i) => do
      if Coexist pkgCopper i then .ok s
      else
        (pkg .padCopper).forM fun other =>
          if copper ≠ other ∧ overlap (item copper).toInst (item other).toInst allow then
            .error ⟨"overlapping copper pads " ++
              s!"(\"{(item copper).name}\" line {(item copper).lineno}, " ++
              s!"\"{(item other).name}\" line {(item other).lineno})", (item copper).obj⟩
          else .ok ()
        (pkg .padSpecial).foldlM
          (fun s other =>
            if overlap (item copper).toInst (item other).toInst .none then
              refineOverlapping item copper other s
            else .ok s) s) s

def mirrorLayers (layers : Finset Layer) : Finset Layer :=
  let layers := if .top ∈ layers then insert .bottom layers else layers
  let layers := if .pasteTop ∈ layers then insert .pasteBottom layers else layers
  if .maskTop ∈ layers then insert .maskBottom layers else layers

def refineLayers (allow : AllowOverlap) (s : State) : Except Failure State :=
  pkgs.zipIdx.foldlM
    (fun s (pkg, i) =>
      (pkg .padCopper).foldlM
        (fun s copper => do
          let s ← refineCopper item pkgs i copper allow s
          if (s.hole copper).isSome then .ok (s.setLayers copper (mirrorLayers (s.layers copper)))
          else .ok s) s) s

def classify (allow : AllowOverlap) (s : State) : Except Failure State := do
  refineLayers item pkgs allow (← linkHoles item pkgs s)

end Openmoko.Fped.Pads
