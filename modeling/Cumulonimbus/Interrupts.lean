import Cumulonimbus.Syscall

/-!
# Clock and serial interrupts, and the kernel as a whole

`_isr_clock`, `_isr_sio`, the state left by `_init`, and one entry into the
kernel: user code runs on its own memory, an interrupt arrives, and its handler
runs to the return to user mode.
-/

namespace Cumulonimbus

def clockFrequency : UInt32 := 100

/-- Wake the sleepers whose time has come, at top priority. -/
def wakeLoop : Nat → Key → Kernel Unit
  | 0, _ => throw .spin
  | fuel + 1, key => do
    match ← qRemoveByKey .sleep key with
    | .error _ => pure ()
    | .ok pcb =>
      schedule pcb prioMaximum
      wakeLoop fuel key

/-- Advance the system time and the pinwheel. -/
def tick : Kernel Unit :=
  modify fun σ =>
    let time := σ.systemTime + 1
    if σ.pinwheel + 1 = clockFrequency / 10 then
      { σ with systemTime := time, pinwheel := 0, pindex := σ.pindex + 1 }
    else { σ with systemTime := time, pinwheel := σ.pinwheel + 1 }

def isrClock : Kernel Unit := do
  tick
  let σ ← get
  wakeLoop ((σ.queues .sleep).items.length + 1) σ.systemTime
  let σ ← get
  schedule σ.current (σ.pcbs σ.current).prio
  dispatch

/-- One event that the serial device reports, with the data read for it. -/
inductive SioEvent
  | lineStatus (lsr : UInt8)
  | rx (ch : UInt8)
  | fifoTimeout (ch : UInt8)
  | tx
  | modemStatus (msr : UInt8)
  | other (eir : UInt8)

/-- A received character goes to the first waiting process, else into the
buffer; carriage return is mapped to line feed. -/
def sioReceive (raw : UInt8) : Kernel Unit := do
  let ch : UInt8 := if raw = 13 then 10 else raw
  let σ ← get
  if (σ.queues .reading).qEmpty then
    modify fun τ => { τ with sio := sioStore τ.sio ch }
  else
    match ← qRemove .reading with
    | .error stat => kpanic "_isr_sio" "serial wakeup status %s" stat.code.toNat
    | .ok pcb =>
      setEax pcb ch.toUInt32
      schedule pcb (σ.pcbs pcb).prio

/-- One turn of the loop of `_isr_sio`. -/
def sioEvent : SioEvent → Kernel Unit
  | .lineStatus _ => pure ()
  | .rx ch => sioReceive ch
  | .fifoTimeout _ => pure ()
  | .tx => modify fun τ => { τ with sio := sioSent τ.sio }
  | .modemStatus _ => pure ()
  | .other eir => kpanic "_isr_sio" "unknown device status (+100k)" (eir.toNat + 100000)

/-- Serve every pending event, until the device reports that there is none. -/
def isrSio : List SioEvent → Kernel Unit
  | [] => pure ()
  | ev :: rest => do
    sioEvent ev
    isrSio rest

/-! ## Entering the kernel -/

/-- What user code leaves behind when it is interrupted: the contents of all
stacks, with the running process's registers saved in its own, the objects it
passes by address, and where in its stack the saved context lies. -/
structure UserMem where
  stackMem : StackId → Nat → UInt32
  heap : UInt32 → Info
  context : Nat

/-- The interrupts of the model. -/
inductive Interrupt
  | syscall (ext : External)
  | clock
  | serial (events : List SioEvent)

/-- One input of the kernel: the user code that ran, and what interrupted it. -/
structure Input where
  user : UserMem
  interrupt : Interrupt

/-- The state in which the handler starts. -/
def State.enter (σ : State) (u : UserMem) : State :=
  { σ with
    stackMem := u.stackMem
    heap := u.heap
    pcbs := Function.update σ.pcbs σ.current
      { σ.pcbs σ.current with context := some u.context } }

def isr : Interrupt → Kernel Unit
  | .syscall ext => isrSyscall ext
  | .clock => isrClock
  | .serial events => isrSio events

/-- One entry into the kernel, up to the return to user mode. -/
def kernelEntry (i : Input) : Kernel Unit := do
  modify fun σ => σ.enter i.user
  isr i.interrupt

/-! ## The state left by `_init` -/

/-- What the machine looks like when the kernel comes up. -/
structure Boot where
  machine : Machine
  localMac : MacAddress
  stackMem : StackId → Nat → UInt32
  heap : UInt32 → Info

/-- Every queue empty, with the routines that `_pcb_init` and `_sched_init`
install. -/
def initialQueue : QName → Queue PcbId
  | .pcbAvail => {}
  | .ready _ => {}
  | .sleep => { compare := some compareUintAsc, remove := some removeIfLeU }
  | .reading => { compare := some compareUintAsc, remove := some removeIfEqual }
  | .waiting => { compare := some compareUintAsc, remove := some removeIfEqual }
  | .zombie => { compare := some compareUintAsc, remove := some removeIfEqual }

/-- The variables before any PCB or stack has been put on its queue. -/
def blankState (b : Boot) : State where
  machine := b.machine
  qnodes := nQnodes
  queues := initialQueue
  stackAvail := {}
  pcbs := fun _ => {}
  current := ⟨0, by decide⟩
  nextPid := ⟨pidInit, b.localMac, 0⟩
  localMac := b.localMac
  systemTime := 0
  pinwheel := 0
  pindex := 0
  sio := sioInit
  stackMem := b.stackMem
  heap := b.heap

/-- `_pcb_init`: put every PCB on the free list. -/
def pcbInit : List PcbId → Kernel Unit
  | [] => pure ()
  | p :: rest => do
    let stat ← pcbFree p
    check "_pcb_init" "_pcb_free status %s" stat
    pcbInit rest

/-- `_stack_init`: put every stack on the free list. -/
def stackInit : List StackId → Kernel Unit
  | [] => pure ()
  | s :: rest => do
    let stat ← stackFree (some s)
    check "_stack_init" "_stack_free status %s" stat
    stackInit rest

/-- The initial process.  Its state byte is not touched: it stays what
`_pcb_free` left there, until the process is first scheduled. -/
def firstProcess : Kernel Unit := do
  match ← pcbAlloc with
  | .error stat => kpanic "_init" "first pcb alloc status %s" stat.code.toNat
  | .ok pcb =>
    match ← stackAlloc with
    | .error stat => kpanic "_init" "first stack alloc status %s" stat.code.toNat
    | .ok stack =>
      let pid ← pidNext
      modifyPcb pcb fun b =>
        { b with stack := some stack, pid := pid, ppid := pid, prio := prioMaximum, screen := 0 }
      let σ ← get
      setupStack (some stack) σ.machine.initAddr
      setCurrent pcb
      modifyPcb pcb fun b => { b with context := some setupContext }
      modify fun τ => τ.setCtxWord pcb ctxEsp
        (τ.stackAddr stack + UInt32.ofNat (4 * setupContext))
      modify fun τ => { τ with sio := sioEnable τ.sio sioRx }

/-- The process part of `_init`. -/
def kernelInit : Kernel Unit := do
  pcbInit (List.finRange nPcbs)
  stackInit (List.finRange nStacks)
  firstProcess

/-- `σ` is the state that `_init` leaves on a machine that looks like `b`. -/
def BootState (b : Boot) (σ : State) : Prop :=
  kernelInit (blankState b) = .ok ((), σ)

/-- A run of the kernel from the state left by `_init`, with its steps. -/
abbrev KernelRun (good : State → Input → Prop) (σ₀ : State)
    (tr : List (State × Input)) (σ : State) : Prop :=
  Exec.Runs kernelEntry good σ₀ tr σ

end Cumulonimbus
