import Mathlib.Data.Nat.Digits.Lemmas
import Openmoko.Usbpath.Proof.BusTree

/-!
# Round trip of the paths

A path is a bus number and the ports of a route, from which the number of the device is found again.
`add_int` adds what it writes to the space that is left instead of taking it away, and so a buffer
that is too small is noticed only where a number has more digits than this account has space.
-/

namespace Openmoko.Usbpath

variable {platform : Platform} {bus : UsbBus} {dev : UsbDevice}

def width (n : ℕ) : ℕ := (decimal n).length

variable (first : Bool)

def separator : List Byte := if first then ascii "-" else ascii "."

def portsText : Bool → List ℕ → List Byte
  | _, [] => []
  | first, port :: ports => separator first ++ decimal (port + 1) ++ portsText false ports

def pathText (number : ℕ) (ports : List ℕ) : List Byte := decimal number ++ portsText true ports

def Overdrawn : ℕ → List ℕ → Prop
  | _, [] => False
  | space, port :: ports =>
    space < width (port + 1) ∨ Overdrawn (space + (width (port + 1) - 1)) ports

def growth (ports : List ℕ) : ℕ := (ports.map fun port => width (port + 1) - 1).sum

instance decidableOverdrawn : ∀ (space : ℕ) (ports : List ℕ), Decidable (Overdrawn space ports)
  | _, [] => inferInstanceAs (Decidable False)
  | space, port :: ports =>
    have := decidableOverdrawn (space + (width (port + 1) - 1)) ports
    inferInstanceAs (Decidable (_ ∨ _))

theorem countDigits_natCast (n : ℕ) : countDigits n = width n := by
  rw [countDigits, Int.natAbs_natCast, width]
  by_cases hn : n = 0
  · subst hn
    rfl
  · have hne : (Nat.digits 10 n).length ≠ 0 := by
      rw [ne_eq, List.length_eq_zero_iff]
      exact Nat.digits_ne_nil_iff_ne_zero.mpr hn
    rw [decimal_of_ne_zero hn, List.length_reverse, List.length_map]
    exact if_neg hne

theorem width_pos (n : ℕ) : 0 < width n := List.length_pos_of_ne_nil (decimal_ne_nil n)

theorem width_le {n k : ℕ} (hk : 0 < k) (hn : n < 10 ^ k) : width n ≤ k := length_decimal_le hk hn

theorem width_port_le {port : ℕ} (hport : port < 127) : width (port + 1) ≤ 3 :=
  width_le (by decide) (by omega)

theorem Overdrawn.lt {ports : List ℕ} {space : ℕ} (hover : Overdrawn space ports)
    (hports : ∀ port ∈ ports, port < 127) : space < 3 := by
  induction ports generalizing space with
  | nil => exact hover.elim
  | cons port ports ih =>
    rcases hover with hlt | hover
    · exact hlt.trans_le (width_port_le (hports port List.mem_cons_self))
    · have hless := ih hover fun p hp => hports p (List.mem_cons_of_mem _ hp)
      omega

theorem separator_length : (separator first).length = 1 := by
  cases first <;> rfl

theorem portsText_cons_length (port : ℕ) (ports : List ℕ) :
    (portsText first (port :: ports)).length =
      width (port + 1) + 1 + (portsText false ports).length := by
  rw [portsText, List.length_append, List.length_append, separator_length, width]
  omega

theorem pathText_length (number : ℕ) (ports : List ℕ) :
    (pathText number ports).length = width number + (portsText true ports).length :=
  List.length_append

theorem growth_cons (port : ℕ) (ports : List ℕ) :
    growth (port :: ports) = width (port + 1) - 1 + growth ports := by
  rw [growth, List.map_cons, List.sum_cons, growth]

theorem growth_le {ports : List ℕ} (hports : ∀ port ∈ ports, port < 127) :
    growth ports ≤ 2 * ports.length := by
  induction ports with
  | nil => exact Nat.le_refl 0
  | cons port ports ih =>
    have hport := width_port_le (hports port List.mem_cons_self)
    have hrest := ih fun p hp => hports p (List.mem_cons_of_mem _ hp)
    rw [growth_cons, List.length_cons]
    omega

theorem portsText_length_le {ports : List ℕ} (hports : ∀ port ∈ ports, port < 127) :
    (portsText first ports).length ≤ 4 * ports.length := by
  induction ports generalizing first with
  | nil => exact Nat.le_refl 0
  | cons port ports ih =>
    have hport := width_port_le (hports port List.mem_cons_self)
    have hrest := ih false fun p hp => hports p (List.mem_cons_of_mem _ hp)
    rw [portsText_cons_length, List.length_cons]
    omega

theorem not_overdrawn {ports : List ℕ} {space : ℕ}
    (hspace : (portsText first ports).length ≤ space) : ¬ Overdrawn space ports := by
  induction ports generalizing first space with
  | nil => exact id
  | cons port ports ih =>
    rw [portsText_cons_length] at hspace
    rw [Overdrawn, not_or]
    exact ⟨by omega, ih false (by omega)⟩

theorem nul_notMem_decimal (n : ℕ) : NUL ∉ decimal n :=
  fun hmem => absurd (isdigit_of_mem_decimal n NUL hmem) (by decide)

theorem nul_notMem_portsText (ports : List ℕ) : NUL ∉ portsText first ports := by
  induction ports generalizing first with
  | nil => exact List.not_mem_nil
  | cons port ports ih =>
    have hsep : NUL ∉ separator first := by cases first <;> decide
    rw [portsText, List.mem_append, List.mem_append, not_or, not_or]
    exact ⟨⟨hsep, nul_notMem_decimal _⟩, ih false⟩

theorem nul_notMem_pathText (number : ℕ) (ports : List ℕ) : NUL ∉ pathText number ports := by
  rw [pathText, List.mem_append, not_or]
  exact ⟨nul_notMem_decimal number, nul_notMem_portsText true ports⟩

/-! ### Writing -/

def Cursor.Holds (path : Cursor) (text : List Byte) : Prop :=
  path.stored = text ++ [NUL] ∧ path.pos = text.length

theorem Cursor.store_eq {path : Cursor} (text rest : List Byte) {bytes : List Byte}
    (hstored : path.stored = text ++ rest) (hpos : path.pos = text.length)
    (hle : rest.length ≤ bytes.length) : path.store bytes = text ++ bytes := by
  have hdrop : (text ++ rest).drop (text.length + bytes.length) = [] := by
    rw [List.drop_eq_nil_iff, List.length_append]
    omega
  rw [Cursor.store, hstored, hpos, List.take_left, hdrop, List.append_nil]

theorem addInt_natCast (path : Cursor) (n : ℕ) :
    addInt path n =
      if path.size < width n - 1 then some (-1, path)
      else if intMax < path.size + width n then none
      else
        some ((width n : ℤ),
          ⟨path.store (decimal n ++ [NUL]), path.pos + width n, path.size + width n⟩) := by
  rw [addInt, countDigits_natCast, formatInt_natCast]
  rfl

def nextCursor (path : Cursor) (first : Bool) (port : ℕ) : Cursor :=
  let path : Cursor := ⟨path.store (separator first), path.pos + 1, path.size - 1⟩
  let n := port + 1
  ⟨path.store (decimal n ++ [NUL]), path.pos + width n, path.size + width n⟩

theorem Cursor.Holds.next {path : Cursor} {text : List Byte} (hholds : path.Holds text)
    (first : Bool) (port : ℕ) :
    (nextCursor path first port).Holds (text ++ (separator first ++ decimal (port + 1))) := by
  have hsep : path.store (separator first) = text ++ separator first :=
    Cursor.store_eq text [NUL] hholds.1 hholds.2 (by rw [separator_length]; rfl)
  have hpos : path.pos + 1 = (text ++ separator first).length := by
    rw [hholds.2, List.length_append, separator_length]
  constructor
  · calc (nextCursor path first port).stored
        = text ++ separator first ++ (decimal (port + 1) ++ [NUL]) :=
          Cursor.store_eq _ [] (by rw [hsep, List.append_nil]) hpos (Nat.zero_le _)
      _ = text ++ (separator first ++ decimal (port + 1)) ++ [NUL] := by simp
  · calc (nextCursor path first port).pos
        = (text ++ separator first).length + width (port + 1) := congrArg (· + width _) hpos
      _ = (text ++ (separator first ++ decimal (port + 1))).length := by
          rw [← List.append_assoc]
          exact List.length_append.symm

variable {arr : List ℕ} {i : ℕ} {path : Cursor} {space port : ℕ}

theorem nextCursor_size (hsize : path.size = space) (first : Bool) (port : ℕ) :
    (nextCursor path first port).size = (space + (width (port + 1) - 1) : ℕ) := by
  have hwidth := width_pos (port + 1)
  have hnext : (nextCursor path first port).size = path.size - 1 + width (port + 1) := rfl
  rw [hnext, hsize]
  omega

theorem addPorts_succ (left : ℕ) (len : ℤ) (hsize : path.size = space)
    (hport : arr[i]? = some port) :
    (space < width (port + 1) → ∃ path', addPorts arr (left + 1) i path len = some (-1, path')) ∧
    (width (port + 1) ≤ space → intMax < space + (width (port + 1) - 1 : ℕ) →
      addPorts arr (left + 1) i path len = none) ∧
    (width (port + 1) ≤ space → space + (width (port + 1) - 1 : ℕ) ≤ intMax →
      addPorts arr (left + 1) i path len =
        addPorts arr left (i + 1) (nextCursor path (decide (i = 0)) port)
          (len + (width (port + 1) + 1))) := by
  have hwidth := width_pos (port + 1)
  have hsep : (if i = 0 then ascii "-" else ascii ".") = separator (decide (i = 0)) := by
    simp [separator]
  have hadd := addInt_natCast ⟨path.store (separator (decide (i = 0))), path.pos + 1, space - 1⟩
    (port + 1)
  rw [Nat.cast_add, Nat.cast_one] at hadd
  rw [addPorts, hsize, hsep]
  refine ⟨fun hlt => ?_, fun hle hover => ?_, fun hle hmax => ?_⟩
  · by_cases hzero : (space : ℤ) = 0
    · rw [if_pos hzero]
      exact ⟨_, rfl⟩
    · rw [if_neg hzero]
      simp only [hport, Option.bind_eq_bind, Option.bind_some, hadd]
      rw [if_pos (by omega)]
      exact ⟨_, rfl⟩
  · rw [if_neg (by omega)]
    simp only [hport, Option.bind_eq_bind, Option.bind_some, hadd]
    rw [if_neg (by omega), if_pos (by omega)]
    rfl
  · rw [if_neg (by omega)]
    simp only [hport, Option.bind_eq_bind, Option.bind_some, hadd]
    rw [if_neg (by omega), if_neg (by omega)]
    have hnonneg : ¬ (width (port + 1) : ℤ) < 0 := by omega
    simp [hnonneg, nextCursor, hsize]

theorem getElem?_of_prefix_drop {ports : List ℕ} (hports : port :: ports <+: arr.drop i) :
    arr[i]? = some port ∧ ports <+: arr.drop (i + 1) := by
  obtain ⟨rest, hrest⟩ := hports
  have htail : arr.drop (i + 1) = ports ++ rest := by
    rw [← List.tail_drop, ← hrest, List.cons_append, List.tail_cons]
  constructor
  · rw [← Nat.add_zero i, ← List.getElem?_drop, ← hrest, List.cons_append,
      List.getElem?_cons_zero]
  · exact htail ▸ List.prefix_append ports rest

theorem addPorts_overdrawn {ports : List ℕ} (len : ℤ) (hover : Overdrawn space ports)
    (hports : ports <+: arr.drop i) (hlt : ∀ port ∈ ports, port < 127)
    (hsize : path.size = space) :
    ∃ path', addPorts arr ports.length i path len = some (-1, path') := by
  induction ports generalizing i path len space with
  | nil => exact hover.elim
  | cons port ports ih =>
    obtain ⟨hport, hrest⟩ := getElem?_of_prefix_drop hports
    obtain ⟨hfail, hbig, hnext⟩ := addPorts_succ ports.length len hsize hport
    have hwidth := width_port_le (hlt port List.mem_cons_self)
    rw [List.length_cons]
    rcases Nat.lt_or_ge space (width (port + 1)) with hless | hge
    · exact hfail hless
    · have hover : Overdrawn (space + (width (port + 1) - 1)) ports :=
        hover.resolve_left (Nat.not_lt.mpr hge)
      have hrestLt : ∀ p ∈ ports, p < 127 := fun p hp => hlt p (List.mem_cons_of_mem _ hp)
      have hsmall := hover.lt hrestLt
      rw [hnext hge (by rw [intMax]; omega)]
      exact ih _ hover hrest hrestLt (nextCursor_size hsize _ port)

theorem addPorts_written {ports : List ℕ} (len : ℤ) (hover : ¬ Overdrawn space ports)
    (hports : ports <+: arr.drop i) (hsize : path.size = space)
    (hmax : (space : ℤ) + growth ports ≤ intMax) :
    ∃ path', addPorts arr ports.length i path len =
        some (len + (portsText (decide (i = 0)) ports).length + 1, path') ∧
      ∀ text, path.Holds text → path'.Holds (text ++ portsText (decide (i = 0)) ports) := by
  induction ports generalizing i path len space with
  | nil =>
    refine ⟨path, ?_, fun text hholds => ?_⟩
    · simp [portsText, addPorts]
    · rw [portsText, List.append_nil]
      exact hholds
  | cons port ports ih =>
    obtain ⟨hport, hrest⟩ := getElem?_of_prefix_drop hports
    obtain ⟨-, -, hnext⟩ := addPorts_succ ports.length len hsize hport
    have hwidth := width_pos (port + 1)
    rw [Overdrawn, not_or, Nat.not_lt] at hover
    rw [growth_cons, Nat.cast_add] at hmax
    obtain ⟨path', hloop, hholds⟩ := ih (len + (width (port + 1) + 1)) hover.2 hrest
      (nextCursor_size hsize _ port) (by omega)
    have hfirst : decide (i + 1 = 0) = false := decide_eq_false (Nat.succ_ne_zero i)
    rw [hfirst] at hloop hholds
    refine ⟨path', ?_, fun text htext => ?_⟩
    · rw [List.length_cons, hnext hover.1 (by omega), hloop, portsText_cons_length]
      congr 2
      omega
    · rw [portsText, ← List.append_assoc text]
      exact hholds _ (htext.next _ port)

theorem addPorts_overflow {ports : List ℕ} (len : ℤ) (hover : ¬ Overdrawn space ports)
    (hports : ports <+: arr.drop i) (hsize : path.size = space) (hspace : space ≤ intMax)
    (hmax : intMax < space + growth ports) : addPorts arr ports.length i path len = none := by
  induction ports generalizing i path len space with
  | nil => exact absurd hmax (not_lt.mpr (by simpa [growth] using hspace))
  | cons port ports ih =>
    obtain ⟨hport, hrest⟩ := getElem?_of_prefix_drop hports
    obtain ⟨-, hbig, hnext⟩ := addPorts_succ ports.length len hsize hport
    have hwidth := width_pos (port + 1)
    rw [Overdrawn, not_or, Nat.not_lt] at hover
    rw [growth_cons, Nat.cast_add] at hmax
    rw [List.length_cons]
    rcases lt_or_ge intMax (space + (width (port + 1) - 1 : ℕ)) with hlt | hge
    · exact hbig hover.1 hlt
    · rw [hnext hover.1 hge]
      exact ih _ hover.2 hrest (nextCursor_size hsize _ port) (by omega) (by omega)

/-! ### The path of a device -/

variable {busses : List UsbBus} {ports : List ℕ} {number size : ℕ}

def spaceAfterBus (number size : ℕ) : ℕ :=
  if size < width number - 1 then size else size + width number

theorem usbDevnum2path_route (hfind : findBus busses bus.number = some bus) (htree : bus.IsTree)
    (hroute : bus.Route ports dev) (hlevels : ports.length ≤ maxLevels) (pathSize : ℤ) :
    usbDevnum2path busses bus.number dev.devnum pathSize = do
      let (len, path) ← addInt ⟨[], 0, pathSize⟩ bus.number
      let (ret, path) ← addPorts (ports ++ (List.replicate maxLevels 0).drop ports.length)
        ports.length 0 path len
      return (ret, path.stored) := by
  have hdepth := Nat.lt_succ_of_le (htree.route_length_le hroute)
  have hrecurse := htree.recurseDev_route hroute (List.replicate maxLevels 0) hdepth
    (by rw [List.length_replicate]; exact hlevels)
  rw [List.length_replicate] at hrecurse
  have hlist : usbDevnum2portlist bus dev.devnum (List.replicate maxLevels 0) maxLevels =
      some ((ports.length : ℤ) + 1, ports ++ (List.replicate maxLevels 0).drop ports.length) := by
    rw [usbDevnum2portlist, htree.find_devnum hroute.mem]
    simp only [hrecurse]
    rfl
  have hneg : ¬ (ports.length : ℤ) + 1 < 0 := by omega
  have hzero : ¬ (ports.length : ℤ) + 1 = 0 := by omega
  rw [usbDevnum2path, hfind]
  simp only [Option.bind_eq_bind, Option.bind_some, hlist, hneg, hzero, if_false,
    add_sub_cancel_right, Int.toNat_natCast]

theorem usbDevnum2path_deep (hfind : findBus busses bus.number = some bus) (htree : bus.IsTree)
    (hroute : bus.Route ports dev) (hlevels : ports.length = maxLevels + 1) (pathSize : ℤ) :
    ∃ stored, usbDevnum2path busses bus.number dev.devnum pathSize = some (0, stored) := by
  have hdepth := Nat.lt_succ_of_le (htree.route_length_le hroute)
  obtain ⟨arr, hrecurse⟩ := htree.recurseDev_deep hroute (List.replicate maxLevels 0) hdepth
    (by rw [List.length_replicate]; exact hlevels)
  rw [List.length_replicate] at hrecurse
  have hlist : usbDevnum2portlist bus dev.devnum (List.replicate maxLevels 0) maxLevels =
      some (0, arr) := by
    rw [usbDevnum2portlist, htree.find_devnum hroute.mem]
    simp only [hrecurse]
    rfl
  refine ⟨if pathSize ≠ 0 then [NUL] else [], ?_⟩
  rw [usbDevnum2path, hfind]
  simp only [Option.bind_eq_bind, Option.bind_some, hlist]
  rfl

section Written

variable (hfind : findBus busses bus.number = some bus) (htree : bus.IsTree)
  (hroute : bus.Route ports dev) (hlevels : ports.length ≤ maxLevels) (hnumber : bus.number = number)

include hfind htree hroute hlevels hnumber

theorem usbDevnum2path_number (hmax : (size : ℤ) + width number ≤ intMax) :
    ∃ (len : ℤ) (path : Cursor), -1 ≤ len ∧ path.size = spaceAfterBus number size ∧
      (width number - 1 ≤ size → len = width number ∧ path.Holds (decimal number)) ∧
      usbDevnum2path busses bus.number dev.devnum size = do
        let (ret, path) ← addPorts (ports ++ (List.replicate maxLevels 0).drop ports.length)
          ports.length 0 path len
        return (ret, path.stored) := by
  have hpath := usbDevnum2path_route hfind htree hroute hlevels size
  have hadd := addInt_natCast ⟨[], 0, size⟩ number
  have hwidth := width_pos number
  rw [← hnumber] at hadd
  dsimp only at hadd
  rcases Nat.lt_or_ge size (width number - 1) with hlt | hge
  · rw [if_pos (by omega)] at hadd
    refine ⟨-1, ⟨[], 0, size⟩, by omega, ?_, by omega, ?_⟩
    · rw [spaceAfterBus, if_pos hlt]
    · rw [hpath, hadd]
      rfl
  · rw [if_neg (by omega), if_neg (by omega)] at hadd
    refine ⟨width number, _, by omega, ?_, fun _ => ⟨rfl, ?_⟩, by rw [hpath, hadd]; rfl⟩
    · rw [spaceAfterBus, if_neg (Nat.not_lt.mpr hge)]
      simp
    · refine ⟨Cursor.store_eq [] [] rfl rfl (Nat.zero_le _), ?_⟩
      simp [width]

theorem usbDevnum2path_overdrawn (hmax : (size : ℤ) + width number ≤ intMax)
    (hover : Overdrawn (spaceAfterBus number size) ports) :
    ∃ stored, usbDevnum2path busses bus.number dev.devnum size = some (-1, stored) := by
  obtain ⟨len, path, -, hsize, -, hpath⟩ :=
    usbDevnum2path_number hfind htree hroute hlevels hnumber hmax
  have hports : ports <+: (ports ++ (List.replicate maxLevels 0).drop ports.length).drop 0 :=
    List.prefix_append _ _
  obtain ⟨path', hloop⟩ := addPorts_overdrawn len hover hports hroute.port_lt hsize
  exact ⟨path'.stored, by rw [hpath, hloop]; rfl⟩

theorem usbDevnum2path_written (hmax : (size : ℤ) + width number + growth ports ≤ intMax)
    (hover : ¬ Overdrawn (spaceAfterBus number size) ports) :
    ∃ ret stored, usbDevnum2path busses bus.number dev.devnum size = some (ret, stored) ∧
      0 ≤ ret ∧ (width number - 1 ≤ size → stored = pathText number ports ++ [NUL]) := by
  have hroom : (size : ℤ) + width number ≤ intMax := by omega
  obtain ⟨len, path, hlen, hsize, hholds, hpath⟩ :=
    usbDevnum2path_number hfind htree hroute hlevels hnumber hroom
  have hspace : spaceAfterBus number size ≤ size + width number := by
    rw [spaceAfterBus]
    split <;> omega
  have hgrowth : (spaceAfterBus number size : ℤ) + growth ports ≤ intMax := by omega
  have hports : ports <+: (ports ++ (List.replicate maxLevels 0).drop ports.length).drop 0 :=
    List.prefix_append _ _
  obtain ⟨path', hloop, hnext⟩ := addPorts_written len hover hports hsize hgrowth
  refine ⟨_, path'.stored, by rw [hpath, hloop]; rfl, by omega, fun hge => ?_⟩
  exact (hnext _ (hholds hge).2).1

theorem usbDevnum2path_overflow (hge : width number - 1 ≤ size) (hsize : size ≤ intMax)
    (hmax : intMax < (size : ℤ) + width number + growth ports)
    (hover : ¬ Overdrawn (spaceAfterBus number size) ports) :
    usbDevnum2path busses bus.number dev.devnum size = none := by
  rcases lt_or_ge intMax ((size : ℤ) + width number) with hlt | hle
  · have hadd := addInt_natCast ⟨[], 0, size⟩ number
    dsimp only at hadd
    rw [← hnumber, if_neg (by omega), if_pos hlt] at hadd
    rw [usbDevnum2path_route hfind htree hroute hlevels size, hadd]
    rfl
  · obtain ⟨len, path, -, hpathSize, -, hpath⟩ :=
      usbDevnum2path_number hfind htree hroute hlevels hnumber hle
    have hspace : spaceAfterBus number size = size + width number :=
      if_neg (Nat.not_lt.mpr hge)
    rw [hpath, addPorts_overflow len hover (List.prefix_append _ _) hpathSize (by omega) (by omega)]
    rfl

end Written

/-! ### Reading -/

theorem separator_notMem_decimal (n : ℕ) :
    (decimal n).countP (fun c => [c] = ascii "-" || [c] = ascii ".") = 0 := by
  rw [List.countP_eq_zero]
  intro c hc hsep
  have hdigit := isdigit_of_mem_decimal n c hc
  rw [Bool.or_eq_true, decide_eq_true_iff, decide_eq_true_iff] at hsep
  rcases hsep with hsep | hsep
  · rw [(List.cons.inj hsep).1] at hdigit
    exact absurd hdigit (by decide)
  · rw [(List.cons.inj hsep).1] at hdigit
    exact absurd hdigit (by decide)

theorem countP_portsText (ports : List ℕ) :
    (portsText first ports).countP (fun c => [c] = ascii "-" || [c] = ascii ".") =
      ports.length := by
  induction ports generalizing first with
  | nil => rfl
  | cons port ports ih =>
    have hsep : (separator first).countP (fun c => [c] = ascii "-" || [c] = ascii ".") = 1 := by
      cases first <;> decide
    rw [portsText, List.countP_append, List.countP_append, hsep, separator_notMem_decimal, ih,
      List.length_cons]
    omega

theorem toInt_of_le {n : ℕ} (hn : (n : ℤ) ≤ intMax) : toInt n = n := by
  rw [intMax] at hn
  exact Int.bmod_eq_of_le (by omega) (by omega)

theorem portsText_head (ports : List ℕ) :
    ∀ b ∈ (portsText first ports).head?, isdigit b = false := by
  intro b hb
  cases ports with
  | nil => cases hb
  | cons port ports =>
    cases first
    · cases hb
      decide
    · cases hb
      decide

theorem pathText_number {number' : ℕ} {ports' : List ℕ}
    (heq : pathText number ports = pathText number' ports') : number = number' := by
  have htake := congrArg (List.takeWhile isdigit) heq
  rw [pathText, pathText, (takeWhile_decimal number _ (portsText_head true ports)).1,
    (takeWhile_decimal number' _ (portsText_head true ports')).1] at htake
  rw [← decimalValue_decimal number, htake, decimalValue_decimal]

theorem readNumbers_portsText (hplatform : 0xffffffff ≤ platform.ulongMax) (first : Bool) {n : ℕ}
    (hne : n ≠ 0) (hn : (n : ℤ) ≤ intMax) (hports : ∀ port ∈ ports, port < 127) :
    readNumbers platform (ports.length + 1) first (decimal n ++ portsText first ports) =
      some (some (toNumber first n :: ports.map fun port : ℕ => (port : ℤ))) := by
  induction ports generalizing first n with
  | nil =>
    have hread : strtoul platform (decimal n ++ []) = (n, []) :=
      strtoul_decimal (by rw [intMax] at hn; omega) nofun
    rw [portsText, List.length_nil, readNumbers, hread]
    dsimp only
    rw [toInt_of_le hn, if_neg (Nat.cast_ne_zero.mpr hne)]
    rfl
  | cons port ports ih =>
    have hport := hports port List.mem_cons_self
    obtain ⟨sep, hsep⟩ : ∃ sep, separator first = [sep] :=
      List.length_eq_one_iff.mp (separator_length first)
    have htext : portsText first (port :: ports) =
        sep :: (decimal (port + 1) ++ portsText false ports) := by
      rw [portsText, hsep, List.append_assoc, List.singleton_append]
    have hread : strtoul platform (decimal n ++ portsText first (port :: ports)) =
        (n, portsText first (port :: ports)) :=
      strtoul_decimal (by rw [intMax] at hn; omega) (portsText_head first (port :: ports))
    rw [htext] at hread
    have hrest := ih false (Nat.succ_ne_zero port)
      (by rw [intMax]; omega) fun p hp => hports p (List.mem_cons_of_mem _ hp)
    have hnumber : toNumber false (port + 1) = port := by
      rw [toNumber, toInt_of_le (by rw [intMax]; omega)]
      simp
    rw [separator] at hsep
    rw [List.length_cons, htext, readNumbers, hread]
    simp only [toInt_of_le hn, Nat.cast_eq_zero, hne, if_false, hsep, ne_eq, not_true_eq_false,
      hrest, hnumber, Option.map_some, List.map_cons]

/-- **A path leads to its device.** -/
theorem usbPath2devnum_pathText (hplatform : 0xffffffff ≤ platform.ulongMax)
    (hfind : findBus busses bus.number = some bus) (htree : bus.IsTree)
    (hroute : bus.Route ports dev) (hnumber : bus.number = number) (hmax : bus.number ≤ intMax)
    (hne : number ≠ 0) :
    usbPath2devnum platform busses (pathText number ports) = some (dev.devnum : ℤ) := by
  have hnil : pathText number ports ≠ [] := by
    rw [pathText, ne_eq, List.append_eq_nil_iff, not_and]
    exact fun h => absurd h (decimal_ne_nil number)
  have hread := readNumbers_portsText hplatform true hne (hnumber ▸ hmax)
    hroute.port_lt
  have hfirst : toNumber true number = bus.number := by
    rw [toNumber, if_pos rfl, toInt_of_le (hnumber ▸ hmax), hnumber]
  have hcount : 1 + (pathText number ports).countP (fun c => [c] = ascii "-" || [c] = ascii ".") =
      ports.length + 1 := by
    rw [pathText, List.countP_append, separator_notMem_decimal, countP_portsText]
    omega
  rw [hfirst] at hread
  rw [usbPath2devnum, if_neg hnil]
  dsimp only
  rw [hcount, pathText, hread]
  simp only [Option.bind_eq_bind, Option.bind_some, List.headD_cons, hfind, List.tail_cons,
    htree.usbPortlist2devnum_route hroute]
  rfl

theorem usbPath2devnum_zero (ports : List ℕ) :
    usbPath2devnum platform busses (pathText 0 ports) = some (-1) := by
  have hread : strtoul platform (pathText 0 ports) = (0, portsText true ports) :=
    strtoul_decimal (Nat.zero_le _) (portsText_head true ports)
  have hnil : pathText 0 ports ≠ [] := List.cons_ne_nil _ _
  rw [usbPath2devnum, if_neg hnil]
  dsimp only
  rw [Nat.add_comm 1, readNumbers, hread]
  rfl

/-! ### The round trip -/

structure Consistent (busses : List UsbBus) : Prop where
  isTree : ∀ bus ∈ busses, bus.IsTree
  number_unique : ∀ bus ∈ busses, ∀ bus' ∈ busses, bus.number = bus'.number → bus = bus'
  number_range : ∀ bus ∈ busses, 0 ≤ bus.number ∧ bus.number ≤ intMax

/-- The path of the device is not too long, and there is room for it and its NUL. -/
def Fits (bus : UsbBus) (dev : UsbDevice) (size : ℕ) : Prop :=
  ∃ ports, bus.Route ports dev ∧ ports.length ≤ maxLevels ∧
    (pathText bus.number.toNat ports).length + 1 ≤ size

/-- For buffers of the given size: only what does not fit is refused, and of what fits the path is
stored, by which the device is found; no two devices have one path. -/
structure RoundTrip (platform : Platform) (busses : List UsbBus) (size : ℕ) : Prop where
  refuses_iff : ∀ bus ∈ busses, ∀ dev ∈ bus.devices,
    (∃ ret stored, usbDevnum2path busses bus.number dev.devnum size = some (ret, stored) ∧
      ret < 0) ↔ ¬ Fits bus dev size
  finds : ∀ bus ∈ busses, ∀ dev ∈ bus.devices, Fits bus dev size →
    ∃ ret path, usbDevnum2path busses bus.number dev.devnum size = some (ret, path ++ [NUL]) ∧
      NUL ∉ path ∧ path.length + 1 ≤ size ∧
      usbPath2devnum platform busses path = some (dev.devnum : ℤ)
  distinct : ∀ bus ∈ busses, ∀ dev ∈ bus.devices, ∀ bus' ∈ busses, ∀ dev' ∈ bus'.devices,
    ∀ ret ret' stored, Fits bus dev size → Fits bus' dev' size →
      usbDevnum2path busses bus.number dev.devnum size = some (ret, stored) →
      usbDevnum2path busses bus'.number dev'.devnum size = some (ret', stored) →
      bus = bus' ∧ dev = dev'

theorem Consistent.findBus_eq (hbusses : Consistent busses) (hbus : bus ∈ busses) :
    findBus busses bus.number = some bus := by
  cases hfind : findBus busses bus.number with
  | none =>
    rw [findBus, List.find?_eq_none] at hfind
    exact absurd (hfind bus hbus) (by simp)
  | some bus' =>
    have heq := List.find?_some hfind
    rw [decide_eq_true_iff] at heq
    rw [hbusses.number_unique bus' (List.mem_of_find?_eq_some hfind) bus hbus heq]

/-- The condition on one device: its route has no more levels than there may be, and either its path
fits and the account does not overflow, or the account is overdrawn. -/
def Handled (number : ℕ) (ports : List ℕ) (size : ℕ) : Prop :=
  ports.length ≤ maxLevels ∧
    if (pathText number ports).length + 1 ≤ size then
      number ≠ 0 ∧ (size : ℤ) + width number + growth ports ≤ intMax
    else Overdrawn (spaceAfterBus number size) ports

section Device

variable (hbusses : Consistent busses) (hbus : bus ∈ busses) (hroute : bus.Route ports dev)

include hbusses hbus hroute

theorem fits_iff : Fits bus dev size ↔
    ports.length ≤ maxLevels ∧ (pathText bus.number.toNat ports).length + 1 ≤ size := by
  constructor
  · rintro ⟨ports', hroute', hfits⟩
    rw [(hbusses.isTree bus hbus).route_unique hroute hroute']
    exact hfits
  · exact fun hfits => ⟨ports, hroute, hfits⟩

theorem usbDevnum2path_fits (hlevels : ports.length ≤ maxLevels)
    (hfits : (pathText bus.number.toNat ports).length + 1 ≤ size) (hsize : (size : ℤ) ≤ intMax) :
    if (size : ℤ) + width bus.number.toNat + growth ports ≤ intMax then
      ∃ ret, usbDevnum2path busses bus.number dev.devnum size =
        some (ret, pathText bus.number.toNat ports ++ [NUL]) ∧ 0 ≤ ret
    else usbDevnum2path busses bus.number dev.devnum size = none := by
  have hfind := hbusses.findBus_eq hbus
  have htree := hbusses.isTree bus hbus
  have hnumber : bus.number = (bus.number.toNat : ℕ) :=
    (Int.toNat_of_nonneg (hbusses.number_range bus hbus).1).symm
  rw [pathText_length] at hfits
  have hge : width bus.number.toNat - 1 ≤ size := by omega
  have hover : ¬ Overdrawn (spaceAfterBus bus.number.toNat size) ports := by
    apply not_overdrawn true
    rw [spaceAfterBus, if_neg (Nat.not_lt.mpr hge)]
    omega
  split
  case isTrue hmax =>
    obtain ⟨ret, stored, hpath, hret, hstored⟩ :=
      usbDevnum2path_written hfind htree hroute hlevels hnumber hmax hover
    exact ⟨ret, by rw [hpath, hstored hge], hret⟩
  case isFalse hmax =>
    exact usbDevnum2path_overflow hfind htree hroute hlevels hnumber hge hsize (not_le.mp hmax)
      hover

theorem usbDevnum2path_short (hlevels : ports.length ≤ maxLevels)
    (hshort : ¬ (pathText bus.number.toNat ports).length + 1 ≤ size) :
    (∃ ret stored, usbDevnum2path busses bus.number dev.devnum size = some (ret, stored) ∧
      ret < 0) ↔ Overdrawn (spaceAfterBus bus.number.toNat size) ports := by
  have hfind := hbusses.findBus_eq hbus
  have htree := hbusses.isTree bus hbus
  obtain ⟨hnonneg, hmax⟩ := hbusses.number_range bus hbus
  have hnumber : bus.number = (bus.number.toNat : ℕ) := (Int.toNat_of_nonneg hnonneg).symm
  have hwidth : width bus.number.toNat ≤ 10 := width_le (by decide) (by
    rw [intMax] at hmax
    omega)
  have hgrowth := growth_le hroute.port_lt
  have htext := portsText_length_le true hroute.port_lt
  rw [pathText_length] at hshort
  rw [maxLevels] at hlevels
  constructor
  · rintro ⟨ret, stored, hpath, hret⟩
    by_contra hover
    obtain ⟨ret', stored', hpath', hret', -⟩ := usbDevnum2path_written hfind htree hroute hlevels
      hnumber (by rw [intMax]; omega) hover
    rw [hpath] at hpath'
    cases hpath'
    omega
  · intro hover
    obtain ⟨stored, hpath⟩ := usbDevnum2path_overdrawn hfind htree hroute hlevels hnumber
      (by rw [intMax]; omega) hover
    exact ⟨-1, stored, hpath, by decide⟩

end Device

theorem Handled.finds (hplatform : 0xffffffff ≤ platform.ulongMax) (hbusses : Consistent busses)
    (hbus : bus ∈ busses) (hroute : bus.Route ports dev) (hsize : (size : ℤ) ≤ intMax)
    (hhandled : Handled bus.number.toNat ports size) (hfits : Fits bus dev size) :
    (∃ ret, usbDevnum2path busses bus.number dev.devnum size =
      some (ret, pathText bus.number.toNat ports ++ [NUL]) ∧ 0 ≤ ret) ∧
    usbPath2devnum platform busses (pathText bus.number.toNat ports) = some (dev.devnum : ℤ) := by
  obtain ⟨hlevels, hspace⟩ := (fits_iff hbusses hbus hroute).mp hfits
  obtain ⟨-, hcond⟩ := hhandled
  rw [if_pos hspace] at hcond
  have hpath := usbDevnum2path_fits hbusses hbus hroute hlevels hspace hsize
  rw [if_pos hcond.2] at hpath
  obtain ⟨hnonneg, hmax⟩ := hbusses.number_range bus hbus
  exact ⟨hpath, usbPath2devnum_pathText hplatform (hbusses.findBus_eq hbus)
    (hbusses.isTree bus hbus) hroute (Int.toNat_of_nonneg hnonneg).symm hmax hcond.1⟩

theorem RoundTrip.handled (hbusses : Consistent busses) (hsize : (size : ℤ) ≤ intMax)
    (h : RoundTrip platform busses size) (hbus : bus ∈ busses) (hroute : bus.Route ports dev) :
    Handled bus.number.toNat ports size := by
  have hlevels : ports.length ≤ maxLevels := by
    by_contra hdeep
    obtain ⟨dev', hroute'⟩ := hroute.take (maxLevels + 1)
    have hlength : (ports.take (maxLevels + 1)).length = maxLevels + 1 :=
      List.length_take_of_le (by omega)
    have hnot : ¬ Fits bus dev' size := by
      rw [fits_iff hbusses hbus hroute']
      omega
    obtain ⟨ret, stored, hpath, hret⟩ := (h.refuses_iff bus hbus dev' hroute'.mem).mpr hnot
    obtain ⟨stored', hzero⟩ := usbDevnum2path_deep (hbusses.findBus_eq hbus)
      (hbusses.isTree bus hbus) hroute' hlength size
    rw [hpath] at hzero
    cases hzero
    omega
  refine ⟨hlevels, ?_⟩
  split
  case isTrue hspace =>
    have hfits := (fits_iff hbusses hbus hroute).mpr ⟨hlevels, hspace⟩
    obtain ⟨ret, path, hpath, -, -, hdevnum⟩ := h.finds bus hbus dev hroute.mem hfits
    have hresult := usbDevnum2path_fits hbusses hbus hroute hlevels hspace hsize
    rw [hpath] at hresult
    split at hresult
    case isTrue hmax =>
      refine ⟨fun hzero => ?_, hmax⟩
      obtain ⟨ret', hsome, -⟩ := hresult
      obtain ⟨-, hstored⟩ := Prod.mk.inj (Option.some.inj hsome)
      rw [List.append_cancel_right hstored, hzero, usbPath2devnum_zero] at hdevnum
      have hnegative : (-1 : ℤ) = dev.devnum := Option.some.inj hdevnum
      omega
    case isFalse hmax => cases hresult
  case isFalse hshort =>
    rw [← usbDevnum2path_short hbusses hbus hroute hlevels hshort,
      h.refuses_iff bus hbus dev hroute.mem, fits_iff hbusses hbus hroute]
    exact fun hfits => hshort hfits.2

/-- **The round trip is exact where every device is handled.** -/
theorem roundTrip_iff (hplatform : 0xffffffff ≤ platform.ulongMax) (hbusses : Consistent busses)
    (hsize : (size : ℤ) ≤ intMax) :
    RoundTrip platform busses size ↔
      ∀ bus ∈ busses, ∀ dev ports, bus.Route ports dev →
        Handled bus.number.toNat ports size := by
  constructor
  · exact fun h bus hbus dev ports hroute => h.handled hbusses hsize hbus hroute
  intro hall
  have hfinds : ∀ bus ∈ busses, ∀ dev ∈ bus.devices, Fits bus dev size →
      ∃ (number : ℕ) (ports : List ℕ), (number : ℤ) = bus.number ∧
        (∃ ret, usbDevnum2path busses bus.number dev.devnum size =
          some (ret, pathText number ports ++ [NUL]) ∧ 0 ≤ ret) ∧
        (pathText number ports).length + 1 ≤ size ∧
        usbPath2devnum platform busses (pathText number ports) = some (dev.devnum : ℤ) := by
    intro bus hbus dev hdev hfits
    obtain ⟨ports, hroute⟩ := (hbusses.isTree bus hbus).exists_route hdev
    obtain ⟨hpath, hdevnum⟩ := (hall bus hbus dev ports hroute).finds hplatform hbusses hbus hroute
      hsize hfits
    exact ⟨bus.number.toNat, ports, Int.toNat_of_nonneg (hbusses.number_range bus hbus).1, hpath,
      ((fits_iff hbusses hbus hroute).mp hfits).2, hdevnum⟩
  refine ⟨fun bus hbus dev hdev => ?_, fun bus hbus dev hdev hfits => ?_, ?_⟩
  · by_cases hfits : Fits bus dev size
    · obtain ⟨number, ports, -, ⟨ret, hpath, hret⟩, -⟩ := hfinds bus hbus dev hdev hfits
      refine iff_of_false ?_ (not_not_intro hfits)
      rintro ⟨ret', stored', hpath', hret'⟩
      rw [hpath] at hpath'
      cases hpath'
      omega
    · obtain ⟨ports, hroute⟩ := (hbusses.isTree bus hbus).exists_route hdev
      obtain ⟨hlevels, hcond⟩ := hall bus hbus dev ports hroute
      have hshort : ¬ (pathText bus.number.toNat ports).length + 1 ≤ size :=
        fun hspace => hfits ((fits_iff hbusses hbus hroute).mpr ⟨hlevels, hspace⟩)
      rw [if_neg hshort] at hcond
      exact iff_of_true ((usbDevnum2path_short hbusses hbus hroute hlevels hshort).mpr hcond) hfits
  · obtain ⟨number, ports, -, ⟨ret, hpath, -⟩, hspace, hdevnum⟩ := hfinds bus hbus dev hdev hfits
    exact ⟨ret, _, hpath, nul_notMem_pathText number ports, hspace, hdevnum⟩
  · intro bus hbus dev hdev bus' hbus' dev' hdev' ret ret' stored hfits hfits' hsome hsome'
    obtain ⟨number, ports, hnumber, ⟨_, hpath, -⟩, -, hdevnum⟩ := hfinds bus hbus dev hdev hfits
    obtain ⟨number', ports', hnumber', ⟨_, hpath', -⟩, -, hdevnum'⟩ :=
      hfinds bus' hbus' dev' hdev' hfits'
    rw [hpath] at hsome
    rw [hpath'] at hsome'
    have hstored := (Prod.mk.inj (Option.some.inj hsome)).2
    have hstored' := (Prod.mk.inj (Option.some.inj hsome')).2
    have htext := List.append_cancel_right (hstored.trans hstored'.symm)
    have hbusEq : bus = bus' := hbusses.number_unique bus hbus bus' hbus' (by
      rw [← hnumber, ← hnumber', pathText_number htext])
    subst hbusEq
    refine ⟨rfl, (hbusses.isTree bus hbus).devnum_unique dev hdev dev' hdev' ?_⟩
    rw [htext, hdevnum', Option.some.injEq, Nat.cast_inj] at hdevnum
    exact hdevnum.symm

def sampleRoot : UsbDevice where
  address := 1
  devnum := 1
  isHub := true
  children := [2]
  port := List.replicate 11 0 ++ [2]
  nports_le := by decide

def sampleDevice : UsbDevice where
  address := 2
  devnum := 2
  isHub := false
  children := []
  port := []
  nports_le := by decide

def sampleBus : UsbBus := ⟨ascii "001", [sampleRoot, sampleDevice]⟩

theorem mem_sampleBus : dev ∈ sampleBus.devices ↔ dev = sampleRoot ∨ dev = sampleDevice := by
  simp [sampleBus]

theorem sampleBus_child {hub child : UsbDevice} :
    sampleBus.Child hub child ↔ hub = sampleRoot ∧ child = sampleDevice := by
  constructor
  · rintro ⟨hhub, hchild, haddress⟩
    rcases mem_sampleBus.mp hhub with rfl | rfl <;> rcases mem_sampleBus.mp hchild with rfl | rfl
    · exact absurd haddress (by decide)
    · exact ⟨rfl, rfl⟩
    · exact absurd haddress (by decide)
    · exact absurd haddress (by decide)
  · rintro ⟨rfl, rfl⟩
    exact ⟨mem_sampleBus.mpr (Or.inl rfl), mem_sampleBus.mpr (Or.inr rfl), by decide⟩

theorem sampleBus_isRoot : sampleBus.IsRoot dev ↔ dev = sampleRoot := by
  constructor
  · rintro ⟨hdev, hnot⟩
    rcases mem_sampleBus.mp hdev with rfl | rfl
    · rfl
    · exact absurd (sampleBus_child.mpr ⟨rfl, rfl⟩) (hnot sampleRoot)
  · rintro rfl
    refine ⟨mem_sampleBus.mpr (Or.inl rfl), fun hub hchild => ?_⟩
    exact absurd (sampleBus_child.mp hchild).2 (by decide)

theorem sampleBus_isTree : sampleBus.IsTree where
  address_unique := by decide
  devnum_unique := by decide
  devnum_ne_zero := by decide
  child_listed := by decide
  parent_unique hub hub' child hchild hchild' :=
    (sampleBus_child.mp hchild).1.trans (sampleBus_child.mp hchild').1.symm
  acyclic := acyclic_of_rank UsbDevice.devnum fun hub child hchild => by
    obtain ⟨rfl, rfl⟩ := sampleBus_child.mp hchild
    decide
  root_unique dev dev' hroot hroot' :=
    (sampleBus_isRoot.mp hroot).trans (sampleBus_isRoot.mp hroot').symm
  isHub_of_isRoot dev hroot := by
    rw [sampleBus_isRoot.mp hroot]
    rfl
  isHub_of_child hub child hchild := by
    rw [(sampleBus_child.mp hchild).1]
    rfl
  port_unique hub child hchild := by
    obtain ⟨rfl, rfl⟩ := sampleBus_child.mp hchild
    refine ⟨11, rfl, fun port hport => ?_⟩
    obtain ⟨hlt, -⟩ := List.getElem?_eq_some_iff.mp hport
    have hall : ∀ p < 12, sampleRoot.port[p]? = some sampleDevice.devnum → p = 11 := by decide
    exact hall port hlt hport

theorem sampleBus_consistent : Consistent [sampleBus] where
  isTree bus hbus := by
    rw [List.mem_singleton.mp hbus]
    exact sampleBus_isTree
  number_unique bus hbus bus' hbus' _ :=
    (List.mem_singleton.mp hbus).trans (List.mem_singleton.mp hbus').symm
  number_range bus hbus := by
    rw [List.mem_singleton.mp hbus]
    decide

theorem sampleBus_route_root : sampleBus.Route [] sampleRoot :=
  ⟨sampleRoot, sampleBus_isRoot.mpr rfl, .nil⟩

theorem sampleBus_route_device : sampleBus.Route [11] sampleDevice :=
  ⟨sampleRoot, sampleBus_isRoot.mpr rfl, Walk.nil.snoc ⟨sampleBus_child.mpr ⟨rfl, rfl⟩, rfl⟩⟩

/-- Five bytes are enough for `1-12`. -/
theorem roundTrip_five : RoundTrip ⟨true, 0xffffffff⟩ [sampleBus] 5 := by
  refine (roundTrip_iff (Nat.le_refl _) sampleBus_consistent (by decide)).mpr ?_
  intro bus hbus dev ports hroute
  rw [List.mem_singleton.mp hbus] at hroute ⊢
  unfold Handled
  rcases mem_sampleBus.mp hroute.mem with rfl | rfl
  · rw [sampleBus_isTree.route_unique hroute sampleBus_route_root]
    decide
  · rw [sampleBus_isTree.route_unique hroute sampleBus_route_device]
    decide

/-- One byte less is overrun by the NUL. -/
theorem not_roundTrip_four : ¬ ∀ (platform : Platform) (busses : List UsbBus) (size : ℕ),
    0xffffffff ≤ platform.ulongMax → Consistent busses → (size : ℤ) ≤ intMax →
      RoundTrip platform busses size := by
  intro hall
  have hround := hall ⟨true, 0xffffffff⟩ [sampleBus] 4 (Nat.le_refl _) sampleBus_consistent
    (by decide)
  have hdev : sampleDevice ∈ sampleBus.devices := mem_sampleBus.mpr (Or.inr rfl)
  have hnot : ¬ Fits sampleBus sampleDevice 4 := by
    rw [fits_iff sampleBus_consistent List.mem_cons_self sampleBus_route_device]
    decide
  obtain ⟨ret, stored, hpath, hret⟩ :=
    (hround.refuses_iff sampleBus List.mem_cons_self sampleDevice hdev).mpr hnot
  have hstored : usbDevnum2path [sampleBus] sampleBus.number sampleDevice.devnum (4 : ℕ) =
      some (5, ascii "1-12" ++ [NUL]) := by decide
  rw [hpath] at hstored
  cases hstored
  exact absurd hret (by decide)

end Openmoko.Usbpath
