import Openmoko.Library.Acyclic
import Openmoko.Usbpath.Usbpath

/-!
# The tree of a bus

Hubs and their children, and the route to a device: the ports that lead to it from the root hub. The
search for a device collects its route, and the port tables lead along the route to the device.
-/

namespace Openmoko.Usbpath

variable {bus : UsbBus}

def UsbBus.Child (bus : UsbBus) (hub child : UsbDevice) : Prop :=
  hub ∈ bus.devices ∧ child ∈ bus.devices ∧ child.address ∈ hub.children

def UsbBus.Port (bus : UsbBus) (hub : UsbDevice) (port : ℕ) (child : UsbDevice) : Prop :=
  bus.Child hub child ∧ hub.port[port]? = some child.devnum

def UsbBus.IsRoot (bus : UsbBus) (dev : UsbDevice) : Prop :=
  dev ∈ bus.devices ∧ ∀ hub, ¬ bus.Child hub dev

def UsbBus.Route (bus : UsbBus) (ports : List ℕ) (dev : UsbDevice) : Prop :=
  ∃ root, bus.IsRoot root ∧ Walk bus.Port root ports dev

structure UsbBus.IsTree (bus : UsbBus) : Prop where
  address_unique : ∀ dev ∈ bus.devices, ∀ dev' ∈ bus.devices,
    dev.address = dev'.address → dev = dev'
  devnum_unique : ∀ dev ∈ bus.devices, ∀ dev' ∈ bus.devices, dev.devnum = dev'.devnum → dev = dev'
  devnum_ne_zero : ∀ dev ∈ bus.devices, dev.devnum ≠ 0
  child_listed : ∀ hub ∈ bus.devices, ∀ address ∈ hub.children,
    ∃ child ∈ bus.devices, child.address = address
  parent_unique : ∀ hub hub' child, bus.Child hub child → bus.Child hub' child → hub = hub'
  acyclic : Acyclic bus.Child
  root_unique : ∀ dev dev', bus.IsRoot dev → bus.IsRoot dev' → dev = dev'
  isHub_of_isRoot : ∀ dev, bus.IsRoot dev → dev.isHub = true
  isHub_of_child : ∀ hub child, bus.Child hub child → hub.isHub = true
  port_unique : ∀ hub child, bus.Child hub child →
    ∃! port : ℕ, hub.port[port]? = some child.devnum

variable {dev child hub : UsbDevice} {ports : List ℕ} {port depth : ℕ}

theorem UsbBus.IsTree.exists_route (htree : bus.IsTree)
    (hdev : dev ∈ bus.devices) : ∃ ports, bus.Route ports dev := by
  obtain ⟨root, hroot, hfirst, ports, hwalk⟩ :=
    exists_walk bus.Port htree.acyclic (fun _ _ hchild => hchild.1)
      (fun hub child hchild => by
        obtain ⟨port, hport, -⟩ := htree.port_unique hub child hchild
        exact ⟨port, hchild, hport⟩) hdev
  exact ⟨ports, root, ⟨hroot, hfirst⟩, hwalk⟩

theorem UsbBus.IsTree.route_unique (htree : bus.IsTree) {ports' : List ℕ}
    (hroute : bus.Route ports dev) (hroute' : bus.Route ports' dev) : ports = ports' := by
  obtain ⟨root, hroot, hwalk⟩ := hroute
  obtain ⟨root', hroot', hwalk'⟩ := hroute'
  apply Walk.unique _ (fun hub _ hport => hroot.2 hub hport.1)
    (fun hub _ hport => hroot'.2 hub hport.1) hwalk hwalk'
  intro hub hub' port port' child hport hport'
  have hhub := htree.parent_unique hub hub' child hport.1 hport'.1
  subst hhub
  exact ⟨rfl, (htree.port_unique hub child hport.1).unique hport.2 hport'.2⟩

theorem UsbBus.IsTree.route_length_le (htree : bus.IsTree)
    (hroute : bus.Route ports dev) : ports.length ≤ bus.devices.length := by
  obtain ⟨_, -, hwalk⟩ := hroute
  exact hwalk.length_le htree.acyclic (fun _ _ _ hport => hport.1) (fun _ _ hchild => hchild.1)

theorem UsbBus.Route.mem (hroute : bus.Route ports dev) : dev ∈ bus.devices := by
  obtain ⟨_, hroot, hwalk⟩ := hroute
  exact hwalk.inv (fun _ _ _ hport _ => hport.1.2.1) hroot.1

theorem UsbBus.Route.take (hroute : bus.Route ports dev)
    (n : ℕ) : ∃ dev, bus.Route (ports.take n) dev := by
  obtain ⟨root, hroot, hwalk⟩ := hroute
  obtain ⟨dev, hwalk⟩ := hwalk.take n
  exact ⟨dev, root, hroot, hwalk⟩

theorem UsbBus.Route.port_lt (hroute : bus.Route ports dev) : ∀ port ∈ ports, port < 127 := by
  obtain ⟨root, hroot, hwalk⟩ := hroute
  clear hroot
  induction hwalk with
  | nil => exact nofun
  | @snoc ports port hub child _ hport ih =>
    intro p hp
    rcases List.mem_append.mp hp with hp | hp
    · exact ih p hp
    · rw [List.mem_singleton.mp hp]
      obtain ⟨hlt, -⟩ := List.getElem?_eq_some_iff.mp hport.2
      exact hlt.trans_le hub.nports_le

theorem findParent_of_isRoot (hroot : bus.IsRoot dev) : findParent bus.devices dev = none := by
  rw [findParent, List.findSome?_eq_none_iff]
  intro hub hhub
  rw [Option.map_eq_none_iff, List.findIdx?_eq_none_iff]
  intro address haddress
  rw [beq_eq_false_iff_ne]
  rintro rfl
  exact hroot.2 hub ⟨hhub, hroot.1, haddress⟩

theorem UsbBus.IsTree.findParent_of_child (htree : bus.IsTree)
    (hchild : bus.Child hub child) : ∃ i, findParent bus.devices child = some (hub, i) := by
  cases hfind : findParent bus.devices child with
  | none =>
    rw [findParent, List.findSome?_eq_none_iff] at hfind
    have hnone := hfind hub hchild.1
    rw [Option.map_eq_none_iff, List.findIdx?_eq_none_iff] at hnone
    exact absurd (hnone _ hchild.2.2) (by simp)
  | some found =>
    obtain ⟨hub', i⟩ := found
    obtain ⟨hub'', hmem, hsome⟩ := List.exists_of_findSome?_eq_some hfind
    obtain ⟨j, hj, heq⟩ := Option.map_eq_some_iff.mp hsome
    obtain ⟨rfl, rfl⟩ := Prod.mk.inj heq
    obtain ⟨hlt, haddress, -⟩ := List.findIdx?_eq_some_iff_getElem.mp hj
    have haddress' : child.address ∈ hub''.children :=
      beq_iff_eq.mp haddress ▸ List.getElem_mem hlt
    rw [htree.parent_unique hub hub'' child hchild ⟨hmem, hchild.2.1, haddress'⟩]
    exact ⟨j, rfl⟩

theorem UsbBus.IsTree.portByDevnum_eq (htree : bus.IsTree)
    (hport : bus.Port hub port child) : portByDevnum hub child.devnum = some port := by
  obtain ⟨hlt, heq⟩ := List.getElem?_eq_some_iff.mp hport.2
  cases hfind : portByDevnum hub child.devnum with
  | none =>
    rw [portByDevnum, List.findIdx?_eq_none_iff] at hfind
    exact absurd (hfind _ (List.getElem_mem hlt)) (by simp [heq])
  | some port' =>
    obtain ⟨hlt', heq', -⟩ := List.findIdx?_eq_some_iff_getElem.mp hfind
    have hport' : hub.port[port']? = some child.devnum :=
      List.getElem?_eq_some_iff.mpr ⟨hlt', beq_iff_eq.mp heq'⟩
    rw [(htree.port_unique hub child hport.1).unique hport' hport.2]

theorem UsbBus.IsTree.recurseDev_snoc (htree : bus.IsTree)
    (hport : bus.Port hub port child) {n numPorts : ℕ} {arr arr' : List ℕ}
    (hhub : recurseDev bus.devices numPorts depth arr hub = some ((n : ℤ), arr'))
    (hlength : arr'.length = numPorts) :
    recurseDev bus.devices numPorts (depth + 1) arr child =
      if n = numPorts then some (-1, arr')
      else if numPorts ≤ n then none
      else some (((n + 1 : ℕ) : ℤ), arr'.set n port) := by
  obtain ⟨i, hparent⟩ := htree.findParent_of_child hport.1
  have hneg : ¬ (n : ℤ) < 0 := by omega
  rw [recurseDev, hparent]
  simp only [hhub, Option.bind_eq_bind, Option.bind_some, hneg, if_false, Nat.cast_inj,
    htree.portByDevnum_eq hport, hlength, Nat.cast_le]
  by_cases heq : n = numPorts
  · rw [if_pos heq, if_pos heq]
    rfl
  · rw [if_neg heq, if_neg heq]
    by_cases hle : numPorts ≤ n
    · rw [if_pos hle, if_pos hle]
      rfl
    · rw [if_neg hle, if_neg hle]
      simp

theorem UsbBus.IsTree.recurseDev_route (htree : bus.IsTree)
    (hroute : bus.Route ports dev) (arr : List ℕ) (hdepth : ports.length < depth)
    (hle : ports.length ≤ arr.length) :
    recurseDev bus.devices arr.length depth arr dev =
      some ((ports.length : ℤ), ports ++ arr.drop ports.length) := by
  obtain ⟨root, hroot, hwalk⟩ := hroute
  induction hwalk generalizing depth with
  | nil =>
    obtain ⟨depth, rfl⟩ := Nat.exists_eq_succ_of_ne_zero (Nat.ne_zero_of_lt hdepth)
    rw [Nat.succ_eq_add_one, recurseDev, findParent_of_isRoot hroot]
    simp
  | @snoc ports port hub child _ hport ih =>
    rw [List.length_append, List.length_singleton] at hdepth hle ⊢
    obtain ⟨depth, rfl⟩ := Nat.exists_eq_succ_of_ne_zero (Nat.ne_zero_of_lt hdepth)
    have hhub := ih (by omega : ports.length < depth) (by omega)
    rw [Nat.succ_eq_add_one, htree.recurseDev_snoc hport hhub (by
      rw [List.length_append, List.length_drop]
      omega), if_neg (by omega), if_neg (by omega)]
    have hdrop : arr.drop ports.length = arr[ports.length] :: arr.drop (ports.length + 1) :=
      List.drop_eq_getElem_cons (by omega)
    rw [hdrop, List.set_append_right _ _ (Nat.le_refl _), Nat.sub_self, List.set_cons_zero,
      List.append_assoc, List.singleton_append]

theorem UsbBus.IsTree.recurseDev_deep (htree : bus.IsTree)
    (hroute : bus.Route ports dev) (arr : List ℕ) (hdepth : ports.length < depth)
    (hlength : ports.length = arr.length + 1) :
    ∃ arr', recurseDev bus.devices arr.length depth arr dev = some (-1, arr') := by
  obtain ⟨root, hroot, hwalk⟩ := hroute
  cases hwalk with
  | nil => exact absurd hlength (by simp)
  | @snoc ports port hub child hwalk hport =>
    rw [List.length_append, List.length_singleton] at hdepth hlength
    obtain ⟨depth, rfl⟩ := Nat.exists_eq_succ_of_ne_zero (Nat.ne_zero_of_lt hdepth)
    have hhub := htree.recurseDev_route ⟨root, hroot, hwalk⟩ arr
      (by omega : ports.length < depth) (by omega)
    refine ⟨ports ++ arr.drop ports.length, ?_⟩
    rw [Nat.succ_eq_add_one, htree.recurseDev_snoc hport hhub (by
      rw [List.length_append, List.length_drop]
      omega), if_pos (by omega)]

theorem UsbBus.IsTree.findRootHub_eq (htree : bus.IsTree) {root : UsbDevice}
    (hroot : bus.IsRoot root) : findRootHub bus.devices = some root := by
  have hisChild : ∀ dev ∈ bus.devices, isChild bus.devices dev = false → bus.IsRoot dev := by
    intro dev hdev hnot
    refine ⟨hdev, fun hub hchild => ?_⟩
    rw [isChild, List.any_eq_false] at hnot
    exact hnot hub hchild.1 (List.contains_iff_mem.mpr hchild.2.2)
  have hnot : isChild bus.devices root = false := by
    rw [isChild, List.any_eq_false]
    intro hub hhub hcontains
    exact hroot.2 hub ⟨hhub, hroot.1, List.contains_iff_mem.mp hcontains⟩
  cases hfind : findRootHub bus.devices with
  | none =>
    rw [findRootHub, List.find?_eq_none] at hfind
    exact absurd (hfind root hroot.1) (by simp [htree.isHub_of_isRoot root hroot, hnot])
  | some dev =>
    have hdev := List.mem_of_find?_eq_some hfind
    have hcond := List.find?_some hfind
    rw [Bool.and_eq_true, Bool.not_eq_true'] at hcond
    rw [htree.root_unique dev root (hisChild dev hdev hcond.2) hroot]

theorem UsbBus.find_number {key : UsbDevice → ℕ}
    (hunique : ∀ dev ∈ bus.devices, ∀ dev' ∈ bus.devices, key dev = key dev' → dev = dev')
    (hdev : dev ∈ bus.devices) :
    bus.devices.find? (key · == key dev) = some dev := by
  cases hfind : bus.devices.find? (key · == key dev) with
  | none =>
    rw [List.find?_eq_none] at hfind
    exact absurd (hfind dev hdev) (by simp)
  | some dev' =>
    have heq := List.find?_some hfind
    rw [hunique dev' (List.mem_of_find?_eq_some hfind) dev hdev (beq_iff_eq.mp heq)]

theorem UsbBus.IsTree.find_address (htree : bus.IsTree)
    (hdev : dev ∈ bus.devices) : bus.devices.find? (·.address == dev.address) = some dev :=
  UsbBus.find_number htree.address_unique hdev

theorem UsbBus.IsTree.find_devnum (htree : bus.IsTree)
    (hdev : dev ∈ bus.devices) : bus.devices.find? (·.devnum == dev.devnum) = some dev :=
  UsbBus.find_number htree.devnum_unique hdev

theorem UsbBus.IsTree.scanChildren_eq (htree : bus.IsTree)
    (hchild : child ∈ bus.devices) {children : List ℕ}
    (hlisted : ∀ address ∈ children, ∃ dev ∈ bus.devices, dev.address = address)
    (hmem : child.address ∈ children) (last : Option UsbDevice) :
    scanChildren bus.devices child.devnum last children = some child := by
  induction children generalizing last with
  | nil => exact absurd hmem List.not_mem_nil
  | cons address children ih =>
    obtain ⟨dev, hdev, rfl⟩ := hlisted address List.mem_cons_self
    rw [scanChildren, htree.find_address hdev]
    simp only [Option.bind_eq_bind, Option.bind_some]
    by_cases heq : dev.devnum = child.devnum
    · rw [if_pos heq, htree.devnum_unique dev hdev child hchild heq]
      rfl
    · rw [if_neg heq]
      refine ih (fun a ha => hlisted a (List.mem_cons_of_mem _ ha)) ?_ (some dev)
      rcases List.mem_cons.mp hmem with hmem | hmem
      · exact absurd (congrArg UsbDevice.devnum (htree.address_unique child hchild dev hdev hmem))
          (fun h => heq h.symm)
      · exact hmem

theorem devnumByPort_eq {devnum : ℕ}
    (hport : hub.port[port]? = some devnum) : devnumByPort hub port = some devnum := by
  obtain ⟨hlt, -⟩ := List.getElem?_eq_some_iff.mp hport
  rw [devnumByPort, if_neg (by omega), if_neg (by omega), Int.toNat_natCast, hport]

theorem UsbBus.IsTree.findHubPort_last (htree : bus.IsTree) (hport : bus.Port hub port child) :
    findHubPort bus.devices hub [(port : ℤ)] = some child.devnum := by
  rw [findHubPort, devnumByPort_eq hport.2]
  simp [htree.devnum_ne_zero child hport.1.2.1]

theorem UsbBus.IsTree.findHubPort_cons (htree : bus.IsTree)
    (hport : bus.Port hub port child) (hhub : child.isHub = true) {ports : List ℤ}
    (hports : ports ≠ []) :
    findHubPort bus.devices hub ((port : ℤ) :: ports) = findHubPort bus.devices child ports := by
  rw [findHubPort, devnumByPort_eq hport.2]
  simp [htree.devnum_ne_zero child hport.1.2.1, hports, hhub,
    htree.scanChildren_eq hport.1.2.1 (htree.child_listed hub hport.1.1) hport.1.2.2 none]

/-- **The port tables lead along the route to the device.** -/
theorem UsbBus.IsTree.usbPortlist2devnum_route (htree : bus.IsTree) (hroute : bus.Route ports dev) :
    usbPortlist2devnum bus (ports.map fun port : ℕ => (port : ℤ)) = some dev.devnum := by
  obtain ⟨root, hroot, hwalk⟩ := hroute
  rw [usbPortlist2devnum, htree.findRootHub_eq hroot]
  have hprefix : ∀ {ports : List ℕ} {hub : UsbDevice}, Walk bus.Port root ports hub →
      hub.isHub = true → ∀ rest : List ℤ, rest ≠ [] →
        findHubPort bus.devices root ((ports.map fun port : ℕ => (port : ℤ)) ++ rest) =
          findHubPort bus.devices hub rest := by
    intro ports hub hwalk
    induction hwalk with
    | nil => exact fun _ _ _ => rfl
    | @snoc ports port hub child _ hport ih =>
      intro hhub rest hrest
      rw [List.map_append, List.map_singleton, List.append_assoc, List.singleton_append,
        ih (htree.isHub_of_child hub child hport.1) _ (List.cons_ne_nil _ _),
        htree.findHubPort_cons hport hhub hrest]
  cases hwalk with
  | nil => simp
  | @snoc ports port hub child hwalk hport =>
    have hne : ((ports ++ [port]).map fun port : ℕ => (port : ℤ)) ≠ [] := by simp
    simp only [Option.bind_eq_bind, Option.bind_some, hne, if_false]
    rw [List.map_append, List.map_singleton,
      hprefix hwalk (htree.isHub_of_child hub dev hport.1) _ (List.cons_ne_nil _ _),
      htree.findHubPort_last hport]

end Openmoko.Usbpath
