import Openmoko.Library.Decimal

/-!
# USB device numbers and paths (`devnum2path.c`, `path2devnum.c`)

A function gives nothing where the program's behaviour is undefined or an assertion of it fails.
-/

namespace Openmoko.Usbpath

def intMax : ℤ := 0x7fffffff

def maxLevels : ℕ := 10

/-- `struct usb_device`, with what `usb_get_portinfo` gets from the kernel for it. Its children are
known by their addresses. -/
structure UsbDevice where
  address : ℕ
  devnum : ℕ
  /-- `descriptor.bDeviceClass == USB_CLASS_HUB`. -/
  isHub : Bool
  children : List ℕ
  /-- `portinfo.port`, as far as `portinfo.nports`. -/
  port : List ℕ
  nports_le : port.length ≤ 127
  deriving DecidableEq

structure UsbBus where
  dirname : List Byte
  devices : List UsbDevice
  deriving DecidableEq

def UsbBus.number (bus : UsbBus) : ℤ := atoi bus.dirname

def findBus (busses : List UsbBus) (busnum : ℤ) : Option UsbBus :=
  busses.find? fun bus => bus.number = busnum

def portByDevnum (hub : UsbDevice) (devnum : ℕ) : Option ℕ := hub.port.findIdx? (· == devnum)

def findParent (devs : List UsbDevice) (child : UsbDevice) : Option (UsbDevice × ℕ) :=
  devs.findSome? fun dev => (dev.children.findIdx? (· == child.address)).map (dev, ·)

def recurseDev (devs : List UsbDevice) (numPorts : ℕ) :
    ℕ → List ℕ → UsbDevice → Option (ℤ × List ℕ)
  | 0, _, _ => none
  | depth + 1, ports, child =>
    match findParent devs child with
    | none => some (0, ports)
    | some (dev, i) => do
      let (n, ports) ← recurseDev devs numPorts depth ports dev
      if n < 0 then
        return (i, ports)
      if n = numPorts then
        return (-1, ports)
      let port ← portByDevnum dev child.devnum
      if ports.length ≤ n then
        failure
      return (n + 1, ports.set n.toNat port)

def usbDevnum2portlist (bus : UsbBus) (devnum : ℕ) (ports : List ℕ) (numPorts : ℕ) :
    Option (ℤ × List ℕ) :=
  match bus.devices.find? (·.devnum == devnum) with
  | none => some (0, ports)
  | some dev => do
    let (n, ports) ← recurseDev bus.devices numPorts (bus.devices.length + 1) ports dev
    return (n + 1, ports)

/-- `path` and `path_size`, as they move on, with the bytes that are in the buffer. -/
structure Cursor where
  stored : List Byte
  pos : ℕ
  size : ℤ

def Cursor.store (path : Cursor) (bytes : List Byte) : List Byte :=
  path.stored.take path.pos ++ bytes ++ path.stored.drop (path.pos + bytes.length)

def countDigits (value : ℤ) : ℕ :=
  let n := (Nat.digits 10 value.natAbs).length
  if n = 0 then 1 else n

def addInt (path : Cursor) (value : ℤ) : Option (ℤ × Cursor) :=
  if path.size < countDigits value - 1 then some (-1, path)
  else
    let text := formatInt value
    if intMax < path.size + text.length then none
    else
      some (text.length,
        ⟨path.store (text ++ [NUL]), path.pos + text.length, path.size + text.length⟩)

def addPorts (ports : List ℕ) : ℕ → ℕ → Cursor → ℤ → Option (ℤ × Cursor)
  | 0, _, path, len => some (len + 1, path)
  | left + 1, i, path, len =>
    if path.size = 0 then some (-1, { path with size := -1 })
    else do
      let separator := if i = 0 then ascii "-" else ascii "."
      let port ← ports[i]?
      let (res, path) ← addInt ⟨path.store separator, path.pos + 1, path.size - 1⟩ (port + 1)
      if res < 0 then
        return (-1, path)
      addPorts ports left (i + 1) path (len + (res + 1))

def usbDevnum2path (busses : List UsbBus) (busnum : ℤ) (devnum : ℕ) (pathSize : ℤ) :
    Option (ℤ × List Byte) := do
  let bus ← findBus busses busnum
  let (n, ports) ← usbDevnum2portlist bus devnum (List.replicate maxLevels 0) maxLevels
  if n < 0 then
    return (-1, [])
  if n = 0 then
    return (0, if pathSize ≠ 0 then [NUL] else [])
  let (len, path) ← addInt ⟨[], 0, pathSize⟩ bus.number
  let (ret, path) ← addPorts ports (n - 1).toNat 0 path len
  return (ret, path.stored)

def devnumByPort (hub : UsbDevice) (port : ℤ) : Option ℕ :=
  if hub.port.length ≤ port then some 0
  else if port < 0 then none
  else hub.port[port.toNat]?

def scanChildren (devs : List UsbDevice) (devnum : ℕ) :
    Option UsbDevice → List ℕ → Option UsbDevice
  | dev, [] => dev
  | _, address :: children => do
    let dev ← devs.find? (·.address == address)
    if dev.devnum = devnum then
      return dev
    scanChildren devs devnum dev children

def findHubPort (devs : List UsbDevice) : UsbDevice → List ℤ → Option ℕ
  | _, [] => none
  | hub, port :: ports => do
    let devnum ← devnumByPort hub port
    if devnum = 0 then
      return 0
    if ports = [] then
      return devnum
    let dev ← scanChildren devs devnum none hub.children
    if !dev.isHub then
      return 0
    findHubPort devs dev ports

def isChild (devs : List UsbDevice) (child : UsbDevice) : Bool :=
  devs.any (·.children.contains child.address)

def findRootHub (devs : List UsbDevice) : Option UsbDevice :=
  devs.find? fun hub => hub.isHub && !isChild devs hub

def usbPortlist2devnum (bus : UsbBus) (ports : List ℤ) : Option ℕ := do
  let root ← findRootHub bus.devices
  if ports = [] then
    return root.devnum
  findHubPort bus.devices root ports

/-- An `unsigned long` that is stored in an `int`. -/
def toInt (value : ℕ) : ℤ := (value : ℤ).bmod (2 ^ 32)

def toNumber (first : Bool) (value : ℕ) : ℤ := if first then toInt value else toInt value - 1

def readNumbers (platform : Platform) : ℕ → Bool → List Byte → Option (Option (List ℤ))
  | 0, _, _ => none
  | room + 1, first, path =>
    let (value, stop) := strtoul platform path
    if toInt value = 0 then some none
    else
      match stop with
      | [] => some (if room = 0 then some [toNumber first value] else none)
      | c :: rest =>
        if [c] ≠ (if first then ascii "-" else ascii ".") then some none
        else (readNumbers platform room false rest).map (Option.map (toNumber first value :: ·))

def usbPath2devnum (platform : Platform) (busses : List UsbBus) (path : List Byte) : Option ℤ :=
  if path = [] then some (-1)
  else do
    let nums := 1 + path.countP fun c => [c] = ascii "-" || [c] = ascii "."
    match ← readNumbers platform nums true path with
    | none => return -1
    | some num =>
      match findBus busses (num.headD 0) with
      | none => return 0
      | some bus =>
        let devnum ← usbPortlist2devnum bus num.tail
        return devnum

end Openmoko.Usbpath
