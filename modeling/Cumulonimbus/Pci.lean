import Mathlib.Logic.Function.Basic
import Cumulonimbus.Exec
import Cumulonimbus.Linked

/-!
# PCI

`pci.c`: configuration registers behind an address port and a data port, and a linked list of
the functions that answer.  What a register holds after a write is up to the hardware, so it is
a parameter: `W a old value` for the register at the address `a`.  Pointers to devices are
32-bit addresses, 0 being `NULL`, and a device is what the memory holds at its address.

A pointer through which a function returns a value is that of a variable and never null.  What
is printed is recorded, and no function reads it.
-/

namespace Cumulonimbus.Pci

open Exec

inductive Status
  | success
  | badParam
  | notFound
  | notImplemented
  deriving DecidableEq

/-- `pci_addr_t` -/
structure Addr where
  bus : UInt8
  slot : UInt8
  func : UInt8
  offset : UInt8
  deriving DecidableEq

/-! ## The configuration header -/

/-- The number of 32-bit words in a `pci_config_t`. -/
def configWords : Nat := 18

/-- `pci_config_t`, as the words that are copied into it. -/
abbrev Config := Fin configWords → UInt32

/-- The byte of a register or a word at an offset. -/
def byteAt (w offset : UInt32) : UInt8 := (w >>> (offset * 8) &&& 0xff).toUInt8

/-- The 16 bits of a register or a word at an offset in bytes. -/
def shortAt (w offset : UInt32) : UInt16 := (w >>> (offset * 8) &&& 0xffff).toUInt16

namespace Config

variable (c : Config)

def vendorId : UInt16 := shortAt (c ⟨0, by decide⟩) 0
def deviceId : UInt16 := shortAt (c ⟨0, by decide⟩) 2
def command : UInt16 := shortAt (c ⟨1, by decide⟩) 0
def status : UInt16 := shortAt (c ⟨1, by decide⟩) 2
def revisionId : UInt8 := byteAt (c ⟨2, by decide⟩) 0
def progIF : UInt8 := byteAt (c ⟨2, by decide⟩) 1
def subClass : UInt8 := byteAt (c ⟨2, by decide⟩) 2
def classCode : UInt8 := byteAt (c ⟨2, by decide⟩) 3
def cacheLineSize : UInt8 := byteAt (c ⟨3, by decide⟩) 0
def latencyTimer : UInt8 := byteAt (c ⟨3, by decide⟩) 1
def headerType : UInt8 := byteAt (c ⟨3, by decide⟩) 2
def bist : UInt8 := byteAt (c ⟨3, by decide⟩) 3

/-- `headers.header` -/
def header (i : Fin 14) : UInt32 := c ⟨4 + i.val, Nat.add_lt_add_left i.isLt 4⟩

/-- `headers.type0.bar` -/
def bar (i : Fin 6) : UInt32 :=
  c ⟨4 + i.val, Nat.lt_trans (Nat.add_lt_add_left i.isLt 4) (by decide)⟩

def cardbusCis : UInt32 := c ⟨10, by decide⟩
def systemVendorId : UInt16 := shortAt (c ⟨11, by decide⟩) 0
def systemId : UInt16 := shortAt (c ⟨11, by decide⟩) 2
def romExpansionBar : UInt32 := c ⟨12, by decide⟩
def capabilitiesPtr : UInt8 := byteAt (c ⟨13, by decide⟩) 0

/-- `reserved[7]` -/
def reserved : List UInt8 :=
  [byteAt (c ⟨13, by decide⟩) 1, byteAt (c ⟨13, by decide⟩) 2, byteAt (c ⟨13, by decide⟩) 3,
    byteAt (c ⟨14, by decide⟩) 0, byteAt (c ⟨14, by decide⟩) 1, byteAt (c ⟨14, by decide⟩) 2,
    byteAt (c ⟨14, by decide⟩) 3]

def irqLine : UInt8 := byteAt (c ⟨15, by decide⟩) 0
def irqPin : UInt8 := byteAt (c ⟨15, by decide⟩) 1
def minGrant : UInt8 := byteAt (c ⟨15, by decide⟩) 2
def maxLatency : UInt8 := byteAt (c ⟨15, by decide⟩) 3

end Config

/-- `pci_device_t` -/
structure Device where
  address : Addr
  config : Config
  memorySpace : UInt32
  next : UInt32
  prev : UInt32

/-- `sizeof(pci_device_t)` -/
def deviceSize : UInt32 := 88

/-- A device with all bytes zero. -/
def Device.zero : Device := ⟨⟨0, 0, 0, 0⟩, fun _ => 0, 0, 0, 0⟩

/-- `pci_device_list_t` -/
structure DeviceList where
  size : UInt32
  first : UInt32
  last : UInt32

/-- A call of `c_printf`. -/
abbrev Line := String × List UInt32

structure State where
  /-- What `PCI_CONFIG_ADDRESS` has been set to. -/
  confAddress : UInt32
  /-- The registers behind `PCI_CONFIG_DATA`, by address. -/
  regs : UInt32 → UInt32
  kallocBase : UInt32
  devices : UInt32 → Device
  /-- The address of `_pci_devices`. -/
  listPtr : { p : UInt32 // p ≠ 0 }
  /-- `_pci_devices`, which is the list that the functions are given. -/
  list : DeviceList
  printed : List Line

/-- No device answers, and nothing has been allocated. -/
def State.initial : State :=
  ⟨0, fun _ => 0xffffffff, 0x2000000, fun _ => .zero, ⟨0x100000, by decide⟩, ⟨0, 0, 0⟩, []⟩

/-- Why a call does not return: `__panic`, in a state, or a list that goes round. -/
inductive Fault
  | panic (s : State)
  | spin

abbrev Conf := Prog State Fault

def State.setDevice (s : State) (p : UInt32) (d : Device) : State :=
  { s with devices := Function.update s.devices p d }

def cPrintf (fmt : String) (args : List UInt32) : Conf Unit :=
  modify fun s => { s with printed := s.printed ++ [(fmt, args)] }

def panic : Conf Unit := do
  let s ← get
  throw (.panic s)

/-! ## Registers -/

section Registers

variable (W : UInt32 → UInt32 → UInt32 → UInt32)

/-- `__outl(PCI_CONFIG_ADDRESS, address)` -/
def outAddress (address : UInt32) : Conf Unit := modify fun s => { s with confAddress := address }

/-- `__inl(PCI_CONFIG_DATA)` -/
def inData : Conf UInt32 := do
  let s ← get
  return s.regs s.confAddress

/-- `__outl(PCI_CONFIG_DATA, value)` -/
def outData (value : UInt32) : Conf Unit :=
  modify fun s => { s with
    regs := Function.update s.regs s.confAddress (W s.confAddress (s.regs s.confAddress) value) }

/-- What `_pci_read_long` and `_pci_write_long` write to the address port. -/
def portAddress (configAddr : UInt8) (addr : Addr) : UInt32 :=
  let bus := (addr.bus.toUInt32 &&& 0xff) <<< 16
  let slot := (addr.slot.toUInt32 &&& 0x1f) <<< 11
  let func := (addr.func.toUInt32 &&& 0x07) <<< 8
  let offset := (addr.offset &&& 0x3f).toUInt32 <<< 2
  bus ||| slot ||| func ||| configAddr.toUInt32 <<< 31 ||| offset

def pciReadLong (configAddr : UInt8) (addr : Addr) : Conf (Status × UInt32) := do
  outAddress (portAddress configAddr addr)
  let value ← inData
  return (.success, value)

/-- With the value that is stored, if one is. -/
def pciReadShort (configAddr : UInt8) (addr : Addr) (byteOffset : UInt8) :
    Conf (Status × Option UInt16) := do
  if 2 < byteOffset then return (.badParam, none)
  else
    let r ← pciReadLong configAddr addr
    if r.1 = .success then
      return (r.1, some (r.2 >>> (byteOffset.toUInt32 * 8) &&& 0xffff).toUInt16)
    else return (r.1, none)

def pciReadByte (configAddr : UInt8) (addr : Addr) (byteOffset : UInt8) :
    Conf (Status × Option UInt8) := do
  if 3 < byteOffset then return (.badParam, none)
  else
    let r ← pciReadLong configAddr addr
    if r.1 = .success then
      return (r.1, some (r.2 >>> (byteOffset.toUInt32 * 8) &&& 0xff).toUInt8)
    else return (r.1, none)

def pciWriteLong (configAddr : UInt8) (addr : Addr) (value : UInt32) : Conf Status := do
  outAddress (portAddress configAddr addr)
  outData W value
  return .success

def pciWriteShort (configAddr : UInt8) (addr : Addr) (byteOffset : UInt8) (value : UInt16) :
    Conf Status := do
  if 2 < byteOffset then return .badParam
  else
    let r ← pciReadLong configAddr addr
    if r.1 ≠ .success then return r.1
    else
      pciWriteLong W configAddr addr
        (r.2 ||| (value.toUInt32 &&& 0xffff) <<< (byteOffset.toUInt32 * 8))

def pciWriteByte (configAddr : UInt8) (addr : Addr) (byteOffset : UInt8) (value : UInt8) :
    Conf Status := do
  if 3 < byteOffset then return .badParam
  else
    let r ← pciReadLong configAddr addr
    if r.1 ≠ .success then return r.1
    else
      pciWriteLong W configAddr addr
        (r.2 ||| (value.toUInt32 &&& 0xff) <<< (byteOffset.toUInt32 * 8))

/-! ## The configuration of a function -/

/-- `*lptr = value`, where `lptr` is a word of the variable. -/
def Config.store (c : Config) (lptr : Nat) (value : UInt32) : Config :=
  fun k => if k.val = lptr then value else c k

/-- The local variables of `_pci_read_config`, and what `config` points to. -/
structure Copy where
  status : Status
  addr : Addr
  lptr : Nat
  config : Config

/-- `while (addr.offset * 4 < limit)`, for at most as many turns as there are words. -/
def copyWords (limit : Nat) : Nat → Copy → Conf Copy
  | 0, v => return v
  | turns + 1, v => do
    if v.addr.offset.toNat * 4 < limit then
      let r ← pciReadLong 1 v.addr
      let config := v.config.store v.lptr r.2
      if r.1 ≠ .success then return { v with status := r.1, config := config }
      else
        copyWords limit turns
          ⟨r.1, { v.addr with offset := v.addr.offset + 1 }, v.lptr + 1, config⟩
    else return v

/-- `PCI_TYPE0_MAX_OFFSET` -/
def type0MaxOffset : Nat := 0x3c

/-- `PCI_TYPE1_MAX_OFFSET` -/
def type1MaxOffset : Nat := 0x3c

/-- `PCI_TYPE2_MAX_OFFSET` -/
def type2MaxOffset : Nat := 0x44

/-- With the contents of the variable afterwards. -/
def pciReadConfig (addr : Addr) (config : Config) : Conf (Status × Config) := do
  let v ← copyWords 0x10 configWords ⟨.success, { addr with offset := 0 }, 0, config⟩
  if v.status ≠ .success then return (v.status, v.config)
  else if v.config.headerType = 0x00 then
    let v ← copyWords type0MaxOffset configWords v
    return (v.status, v.config)
  else if v.config.headerType = 0x01 then
    let v ← copyWords type1MaxOffset configWords v
    return (v.status, v.config)
  else if v.config.headerType = 0x02 then
    let v ← copyWords type2MaxOffset configWords v
    return (v.status, v.config)
  else return (v.status, v.config)

/-- `PCI_HEADER_1_BAR_COUNT` -/
def barCount : Nat := 6

/-- `PCI_HEADER_1_BAR_START` -/
def barStart : UInt8 := 4

/-- With the size that is stored, if one is. -/
def pciReadBarSize (device : Device) (barIndex : UInt8) : Conf (Status × Option UInt32) := do
  if device.config.headerType = 0x00 then
    if barCount - 1 < barIndex.toNat then return (.badParam, none)
    else
      let barAddr := { device.address with offset := barStart + barIndex }
      let originalBar := device.config.bar ⟨0, by decide⟩
      let _ ← pciWriteLong W 1 barAddr 0xffffffff
      let r ← pciReadLong 1 barAddr
      let size := ~~~(r.2 &&& 0xfffffff0) + 1
      let status ← pciWriteLong W 1 barAddr originalBar
      return (status, some size)
  else return (.notImplemented, none)

/-! ## Printing a device -/

/-- `PCI_IS_IOBARR` -/
def isIoBar (bar : UInt32) : UInt32 := bar &&& 0x1

/-- `PCI_GET_BAR_TYPE` -/
def barType (bar : UInt32) : UInt32 := bar >>> 1 &&& 0x3

def pciBaseAddr (bar : UInt32) : Conf UInt32 := do
  if isIoBar bar = 1 then return bar &&& 0xfffffffc
  else if barType bar = 0x00 then return bar &&& 0xfffffff0
  else if barType bar = 0x02 then return bar &&& 0xfffffff0
  else
    cPrintf "type=0x%x\n" [barType bar]
    panic
    return 0x0

/-- `_pci_read_bar_size(device, i, &addr)` between the two lines that are printed of a BAR. -/
def printBarSize (device : Device) (i : Nat) (addr : UInt32) : Conf Unit := do
  let r ← pciReadBarSize W device (UInt8.ofNat i)
  cPrintf "    BAR%d_Size: %d bytes\n" [UInt32.ofNat i, r.2.getD addr]

/-- The loop over the BARs from `i` on, for at most as many turns as there are BARs. -/
def printBars (device : Device) : Nat → Nat → Conf Unit
  | 0, _ => pure ()
  | turns + 1, i => do
    if h : i < barCount then
      let bar := device.config.bar ⟨i, h⟩
      if bar = 0x0 then printBars device turns (i + 1)
      else
        let addr ← pciBaseAddr bar
        if isIoBar bar = 1 then
          cPrintf "    BAR%d: 0x%x iospace\n" [UInt32.ofNat i, addr]
          printBars device turns (i + 1)
        else if barType bar = 0x00 then
          cPrintf "    BAR%d:      0x%x 32bit\n" [UInt32.ofNat i, addr]
          printBarSize W device i addr
          printBars device turns (i + 1)
        else if barType bar = 0x02 then
          -- the word behind the last BAR is the next one of the header
          cPrintf "    BAR%d:      0x%x%x 64bit\n"
            [UInt32.ofNat i,
              device.config.header ⟨i + 1, Nat.lt_trans (Nat.succ_lt_succ h) (by decide)⟩,
              addr]
          printBarSize W device i addr
          printBars device turns (i + 2)
        else printBars device turns (i + 1)
    else pure ()

def pciPrintConfig (device : Device) : Conf Unit := do
  cPrintf "Bus=%d Slot=%d Func=%d\n"
    [device.address.bus.toUInt32, device.address.slot.toUInt32, device.address.func.toUInt32]
  cPrintf "    DeviceId:  0x%x\n" [device.config.deviceId.toUInt32]
  cPrintf "    VendorId:  0x%x\n" [device.config.vendorId.toUInt32]
  cPrintf "    Status:    0x%x" [device.config.status.toUInt32]
  if 8 &&& device.config.status ≠ 0 then cPrintf "    IRQ Triggered" [] else pure ()
  cPrintf "\n" []
  cPrintf "    Command:   0x%x\n" [device.config.command.toUInt32]
  cPrintf "    Class:     0x%x\n" [device.config.classCode.toUInt32]
  cPrintf "    SubClass:  0x%x\n" [device.config.subClass.toUInt32]
  cPrintf "    ProgIF:    0x%x\n" [device.config.progIF.toUInt32]
  cPrintf "    Revision:  0x%x\n" [device.config.revisionId.toUInt32]
  cPrintf "    BIST:      0x%x\n" [device.config.bist.toUInt32]
  cPrintf "    Header:    0x%x\n" [device.config.headerType.toUInt32]
  cPrintf "    Latency:   0x%x\n" [device.config.latencyTimer.toUInt32]
  cPrintf "    CacheSize: 0x%x\n" [device.config.cacheLineSize.toUInt32]
  cPrintf "    IRQLine:   0x%x\n" [device.config.irqLine.toUInt32]
  cPrintf "    IRQPin:    0x%x\n" [device.config.irqPin.toUInt32]
  if device.config.headerType = 0x00 then printBars W device barCount 0 else pure ()

/-! ## The list of devices -/

/-- `kalloc` -/
def kalloc (bytes : UInt32) : Conf UInt32 := do
  let s ← get
  modify fun s => { s with kallocBase := s.kallocBase + bytes }
  return s.kallocBase

def pciAllocDevice : Conf UInt32 := do
  let dev ← kalloc deviceSize
  modify fun s => s.setDevice dev .zero
  return dev

def pciAppendDevice (list device : UInt32) : Conf Status := do
  let s ← get
  if list = 0 ∨ device = 0 then
    cPrintf "Passed list=0x%x device=0x%x\n" [list, device]
    return .badParam
  else
    if s.list.last = 0 then
      modify fun s => { s with list := { s.list with last := device, first := device } }
      modify fun s => s.setDevice s.list.last { s.devices s.list.last with next := 0 }
      modify fun s => s.setDevice s.list.first { s.devices s.list.first with prev := 0 }
    else
      modify fun s => s.setDevice s.list.last { s.devices s.list.last with next := device }
      modify fun s => s.setDevice device { s.devices device with prev := s.list.last }
      modify fun s => { s with list := { s.list with last := device } }
    modify fun s => { s with list := { s.list with size := s.list.size + 1 } }
    return .success

/-- No list without repetitions is longer. -/
def rounds : Nat := 0x100000000

/-- `while (tempPtr != NULL)`: the first device of the list at which the search stops. -/
def findDevice (stop : Device → Bool) : Conf (Option UInt32) := do
  let s ← get
  match Linked.scan (fun p => Linked.pointer 0 (s.devices p).next)
      (fun p => stop (s.devices p)) rounds
      (Linked.pointer 0 s.list.first) with
  | none => throw .spin
  | some p => return p

/-- `PCI_MAX_BUS_COUNT` -/
def maxBusCount : Nat := 0x100

/-- `PCI_MAX_SLOT_COUNT` -/
def maxSlotCount : Nat := 0x20

/-- `PCI_MAX_FUNC_COUNT` -/
def maxFuncCount : Nat := 0x08

/-- With the pointer that is stored, if one is. -/
def pciGetDeviceByAddress (addr : Addr) : Conf (Status × Option UInt32) := do
  if maxBusCount ≤ addr.bus.toNat ∨ maxSlotCount ≤ addr.slot.toNat ∨
      maxFuncCount ≤ addr.func.toNat then
    return (.badParam, none)
  else
    match ← findDevice fun d =>
        d.address.bus = addr.bus ∧ d.address.slot = addr.slot ∧ d.address.func = addr.func with
    | some p => return (.success, some p)
    | none => return (.notFound, some 0)

/-! ## The scan -/

/-- The local variables of `_pci_scan` that outlive a turn of a loop. -/
structure Locals where
  status : Status
  addr : Addr
  config : Config

/-- What is done for a function that answers: a device for it is put at the end of the list. -/
def addFunction (addr : Addr) (config : Config) : Conf Status := do
  let device ← pciAllocDevice
  modify fun s => s.setDevice device { s.devices device with address := addr }
  modify fun s => s.setDevice device { s.devices device with config := config }
  let s ← get
  if (s.devices device).config.headerType = 0x00 then
    let r ← pciReadBarSize W (s.devices device) 0
    modify fun s => s.setDevice device
      { s.devices device with memorySpace := r.2.getD (s.devices device).memorySpace }
  else pure ()
  pciAppendDevice s.listPtr device

/-- `for (func = 1; func < PCI_MAX_FUNC_COUNT; func++)`, over the values that are left.  An error
is a `return`. -/
def scanFuncs : List Nat → Locals → Conf (Except Status Locals)
  | [], v => return .ok v
  | func :: funcs, v => do
    let addr := { v.addr with func := UInt8.ofNat func }
    let r ← pciReadConfig addr v.config
    if r.1 ≠ .success then return .error r.1
    else if r.2.deviceId ≠ 0xffff then do
      let status ← addFunction W addr r.2
      if status ≠ .success then return .error status
      else scanFuncs funcs ⟨status, addr, r.2⟩
    else scanFuncs funcs ⟨r.1, addr, r.2⟩

/-- `for (slot = 0; slot < PCI_MAX_SLOT_COUNT; slot++)` -/
def scanSlots : List Nat → Locals → Conf (Except Status Locals)
  | [], v => return .ok v
  | slot :: slots, v => do
    let addr := { v.addr with slot := UInt8.ofNat slot, func := 0 }
    let r ← pciReadConfig addr v.config
    if r.1 ≠ .success then return .ok ⟨r.1, addr, r.2⟩
    else if r.2.deviceId ≠ 0xffff then do
      let status ← addFunction W addr r.2
      if status ≠ .success then return .error status
      else if r.2.headerType &&& 0x80 ≠ 0 then
        match ← scanFuncs W (List.range' 1 (maxFuncCount - 1)) ⟨status, addr, r.2⟩ with
        | .error status => return .error status
        | .ok v => scanSlots slots v
      else scanSlots slots ⟨status, addr, r.2⟩
    else scanSlots slots ⟨r.1, addr, r.2⟩

/-- `for (bus = 0; bus < PCI_MAX_BUS_COUNT; bus++)` -/
def scanBuses : List Nat → Locals → Conf (Except Status Locals)
  | [], v => return .ok v
  | bus :: buses, v => do
    match ← scanSlots W (List.range maxSlotCount)
        { v with addr := { v.addr with bus := UInt8.ofNat bus } } with
    | .error status => return .error status
    | .ok v => scanBuses buses v

/-- From any contents of the local variables `addr` and `config`. -/
def pciScan (addr : Addr) (config : Config) : Conf Status := do
  modify fun s => { s with list := { s.list with first := 0 } }
  modify fun s => { s with list := { s.list with last := 0 } }
  match ← scanBuses W (List.range maxBusCount)
      ⟨.success, { addr with offset := 0, func := 0 }, config⟩ with
  | .error status => return status
  | .ok v => return v.status

end Registers

end Cumulonimbus.Pci
