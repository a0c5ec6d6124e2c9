import Cumulonimbus.Ata
import Cumulonimbus.Exec

/-!
# Reading and writing sectors through ports

The part of `ide.c` that moves data: the registers of a device, which are reached through ports,
and the two calls that read and write a sector.  What the ports do is up to the hardware, so it is
a parameter, and the loops that wait for a device to be ready have a number of turns they may take.
A buffer of 512 bytes is the 256 words that are moved.

`ide_register_read` and `ide_register_write` have no other result than `E_SUCCESS`.
-/

namespace Cumulonimbus.Ide

open Exec Ata

/-- The ports of an `ide_channel_t`. -/
structure IdeChannel where
  baseIoRegister : UInt16
  baseControlRegister : UInt16
  busMasterBase : UInt16

/-- What the driver reads of an `ide_device_t`. -/
structure IdeDevice where
  ideChannel : IdeChannel
  drive : UInt8

/-- A device that stays busy. -/
inductive Spin
  | spin

def regSeccount0 : UInt8 := 0x02
def regLba0 : UInt8 := 0x03
def regLba1 : UInt8 := 0x04
def regLba2 : UInt8 := 0x05
def regHddevsel : UInt8 := 0x06
def regCommand : UInt8 := 0x07
def regStatus : UInt8 := 0x07
def regSeccount1 : UInt8 := 0x08
def regLba3 : UInt8 := 0x09
def regLba4 : UInt8 := 0x0A
def regLba5 : UInt8 := 0x0B
def regControl : UInt8 := 0x0C
def regAltstatus : UInt8 := 0x0C

def srBsy : UInt8 := 0x80
def srDf : UInt8 := 0x20
def srErr : UInt8 := 0x01

def cmdReadPioExt : UInt8 := 0x24
def cmdWritePioExt : UInt8 := 0x34
def cmdCacheFlushExt : UInt8 := 0xEA

section Registers

variable {σ : Type} (bus : Bus σ) (device : IdeDevice)

/-- `__inb` and its kin, for the low 16 bits of a port number. -/
def inb (port : UInt16) : Prog σ Spin UInt8 := fun s => .ok (bus.inb port s)
def inw (port : UInt16) : Prog σ Spin UInt16 := fun s => .ok (bus.inw port s)
def outb (port : UInt16) (v : UInt8) : Prog σ Spin Unit := modify (bus.outb port v)
def outw (port : UInt16) (v : UInt16) : Prog σ Spin Unit := modify (bus.outw port v)

/-- The port that a register number stands for. -/
def registerPort (reg : UInt8) : Option UInt16 :=
  if reg < 0x08 then some (device.ideChannel.baseIoRegister + reg.toUInt16 - 0x00)
  else if reg < 0x0C then some (device.ideChannel.baseIoRegister + reg.toUInt16 - 0x06)
  else if reg < 0x0E then some (device.ideChannel.baseControlRegister + reg.toUInt16 - 0x0A)
  else if reg < 0x16 then some (device.ideChannel.busMasterBase + reg.toUInt16 - 0x0E)
  else none

def outRegister (reg out : UInt8) : Prog σ Spin Unit :=
  match registerPort device reg with
  | some port => outb bus port out
  | none => pure ()

/-- The registers 8 to 11 lie behind others.  The calls that set the control register for them do
not call any further. -/
def ideRegisterWrite (reg out : UInt8) : Prog σ Spin Unit :=
  if 0x7 < reg ∧ reg < 0xc then do
    outRegister bus device regControl 0x82
    outRegister bus device reg out
    outRegister bus device regControl 0x2
  else outRegister bus device reg out

/-- With what `*ret` was before, which is returned where no port belongs to the register. -/
def inRegister (reg ret : UInt8) : Prog σ Spin UInt8 :=
  match registerPort device reg with
  | some port => inb bus port
  | none => pure ret

def ideRegisterRead (reg ret : UInt8) : Prog σ Spin UInt8 :=
  if 0x7 < reg ∧ reg < 0xc then do
    ideRegisterWrite bus device regControl 0x82
    let value ← inRegister bus device reg ret
    ideRegisterWrite bus device regControl 0x2
    return value
  else inRegister bus device reg ret

end Registers

section Sectors

-- how often the status of a device may be read before it is ready
variable {σ : Type} (bus : Bus σ) (patience : Nat) (device : IdeDevice)

/-- `while (status & ATA_SR_BSY)` -/
def waitWhileBusy (status : UInt8) : Prog σ Spin UInt8 :=
  loop .spin (fun status _ => status &&& srBsy ≠ 0)
    (fun status => ideRegisterRead bus device regStatus status) patience status

def idePolling (advancedCheck : Bool) : Prog σ Spin UInt32 := do
  let temp ← (List.range 4).foldlM (fun temp _ => ideRegisterRead bus device regAltstatus temp) 0
  let temp ← ideRegisterRead bus device regStatus temp
  let temp ← waitWhileBusy bus patience device temp
  if advancedCheck then
    let temp ← ideRegisterRead bus device regStatus temp
    if temp &&& srErr ≠ 0 then return 2
    else if temp &&& srDf ≠ 0 then return 1
    else return 0
  else return 0

/-- What `ide_pio_lba_read` and `ide_pio_lba_write` do up to their commands. -/
def pioCommand (sector : UInt32) (command : UInt8) : Prog σ Spin Unit := do
  ideRegisterWrite bus device regControl 0x2
  let driveStatus ← ideRegisterRead bus device regStatus 0
  let _ ← waitWhileBusy bus patience device driveStatus
  ideRegisterWrite bus device regHddevsel ((0xe0 : UInt8) ||| device.drive <<< (4 : UInt8))
  ideRegisterWrite bus device regSeccount1 0
  ideRegisterWrite bus device regLba3 ((sector &&& 0xFF000000) >>> 24).toUInt8
  ideRegisterWrite bus device regLba4 0
  ideRegisterWrite bus device regLba5 0
  ideRegisterWrite bus device regSeccount0 1
  ideRegisterWrite bus device regLba0 (sector &&& 0xFF).toUInt8
  ideRegisterWrite bus device regLba1 ((sector &&& 0xFF00) >>> 8).toUInt8
  ideRegisterWrite bus device regLba2 ((sector &&& 0xFF0000) >>> 16).toUInt8
  ideRegisterWrite bus device regCommand command

/-- With the contents of the buffer afterwards. -/
def idePioLbaRead (sector : UInt32) (buf : Words) : Prog σ Spin (UInt32 × Words) := do
  pioCommand bus patience device sector cmdReadPioExt
  let status ← idePolling bus patience device true
  if status ≠ 0 then return (status, buf)
  else
    let buf ← (List.finRange 256).foldlM (fun buf i => do
      let v ← inw bus device.ideChannel.baseIoRegister
      return Function.update buf i v) buf
    return (0, buf)

def idePioLbaWrite (sector : UInt32) (buf : Words) : Prog σ Spin UInt32 := do
  pioCommand bus patience device sector cmdWritePioExt
  let status ← idePolling bus patience device false
  if status ≠ 0 then return status
  else
    (List.finRange 256).forM fun i => outw bus device.ideChannel.baseIoRegister (buf i)
    ideRegisterWrite bus device regCommand cmdCacheFlushExt
    return 0

/-- `_ide_pio_lba_read`, for which the device is `ide_devices[1]`, with what it stores as the result
of the call. -/
def sysIdeRead (sector : UInt32) (buf : Words) : Prog σ Spin (UInt32 × Words) := do
  let r ← idePioLbaRead bus patience device sector buf
  return (0, r.2)

/-- `_ide_pio_lba_write` -/
def sysIdeWrite (sector : UInt32) (buf : Words) : Prog σ Spin UInt32 := do
  let _ ← idePioLbaWrite bus patience device sector buf
  return 0

end Sectors

end Cumulonimbus.Ide
