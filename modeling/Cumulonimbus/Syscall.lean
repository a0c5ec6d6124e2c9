import Cumulonimbus.Scheduler

/-!
# System calls

The second-level handlers of `syscall.c` and the dispatcher `_isr_syscall`.
The screen, message and disk calls keep their own state elsewhere; what they
tell the calling process is an input of the step.
-/

namespace Cumulonimbus

/-- What the handlers of other subsystems contribute to a system call: the value
they leave in `eax`, and whether the screen named by the caller has an owner. -/
structure External where
  result : UInt32
  owned : Bool

def numScreens : Nat := 16

/-! ## Calls that only read or write fields -/

def sysGetpid : Kernel Unit := do
  let σ ← get
  setEax σ.current (σ.pcbs σ.current).pid.id
  let ptr := σ.arg σ.current 1
  if ptr ≠ 0 then
    modifyInfo ptr fun i => { i with pid := (σ.pcbs σ.current).pid }

def sysGetppid : Kernel Unit := do
  let σ ← get
  setEax σ.current (σ.pcbs σ.current).ppid.id
  let ptr := σ.arg σ.current 1
  if ptr ≠ 0 then
    modifyInfo ptr fun i => { i with pid := (σ.pcbs σ.current).ppid }

def sysGetprio : Kernel Unit := do
  let σ ← get
  setEax σ.current (σ.pcbs σ.current).prio.toUInt32

def sysGettime : Kernel Unit := do
  let σ ← get
  setEax σ.current σ.systemTime

def sysSetprio : Kernel Unit := do
  let σ ← get
  setEax σ.current (σ.pcbs σ.current).prio.toUInt32
  modifyPcb σ.current fun pcb => { pcb with prio := (σ.arg σ.current 1).toUInt8 }

def sysSettime : Kernel Unit := do
  let σ ← get
  setEax σ.current σ.systemTime
  modify fun τ => { τ with systemTime := σ.arg σ.current 1 }

def sysWritec : Kernel Unit := do
  let σ ← get
  modify fun τ => { τ with sio := sioWritec τ.sio (σ.arg σ.current 1) }
  setEax σ.current Status.success.code

/-- `_sys_reads` and `_sys_writes`. -/
def sysNotImplemented : Kernel Unit := do
  let σ ← get
  setEax σ.current Status.notImplemented.code

def sysSetscreen (ext : External) : Kernel Unit := do
  let σ ← get
  let sh := (σ.arg σ.current 1).toInt32
  if 0 ≤ sh.toInt ∧ sh.toInt < numScreens ∧ ext.owned then
    setEax σ.current (σ.pcbs σ.current).screen
    modifyPcb σ.current fun pcb => { pcb with screen := σ.arg σ.current 1 }
  else
    setEax σ.current Status.badParam.code

def sysGetscreen : Kernel Unit := do
  let σ ← get
  setEax σ.current (σ.pcbs σ.current).screen

/-- A call served by a subsystem with a state of its own. -/
def sysExternal (ext : External) : Kernel Unit := do
  let σ ← get
  setEax σ.current ext.result

/-! ## Calls that give up the CPU -/

/-- The part of `_sys_sleep` that puts the current process on the sleep queue,
ordered by wakeup time. -/
def sleepInsert : Kernel Status := do
  let σ ← get
  let ticks := σ.arg σ.current 1
  let key := σ.systemTime + ticks
  modifyPcb σ.current fun pcb => { pcb with sleeptime := σ.systemTime, state := .sleeping }
  qInsert .sleep σ.current key

def sysSleep : Kernel Unit := do
  let σ ← get
  let stat ← sleepInsert
  if stat ≠ .success then
    setEax σ.current 0
  else
    dispatch

def sysYield : Kernel Unit := dispatch

/-- Block until a character comes in.  The source stores `BLOCKED` into the
termination status of the PCB, not into its state. -/
def readcBlock : Kernel Unit := do
  let σ ← get
  modifyPcb σ.current fun pcb => { pcb with status := UInt32.ofNat ProcState.blocked.code }
  let stat ← qInsert .reading σ.current (σ.pcbs σ.current).pid.id
  check "_sys_read" "insert status %s" stat
  dispatch

def sysReadc : Kernel Unit := do
  let σ ← get
  let (ch, sio) := sioReadc σ.sio
  modify fun τ => { τ with sio := sio }
  match ch with
  | some c => setEax σ.current c
  | none => readcBlock

/-! ## Creating and replacing processes -/

/-- The address of a stack, and the distance from one to another, in the
wrapping arithmetic of the target. -/
def State.stackAddr (σ : State) (s : StackId) : UInt32 :=
  σ.machine.stacksAddr + UInt32.ofNat (4 * stackSize * s)

/-- Copy the caller's stack into the child's.  The saved context of the child lies
as far into its stack as the caller's does into its own, with `esp` and `ebp`
moved by the distance of the two stacks. -/
def forkStack (child : PcbId) (stack : StackId) : Kernel Unit := do
  let σ ← get
  match (σ.pcbs σ.current).stack with
  | none => pure ()
  | some from_ =>
    modify fun τ => { τ with
      stackMem := Function.update τ.stackMem stack fun k =>
        if k < stackSize then τ.stackMem from_ k else τ.stackMem stack k }
    let offset := σ.stackAddr stack - σ.stackAddr from_
    modifyPcb child fun pcb => { pcb with context := (σ.pcbs σ.current).context }
    modify fun τ => τ.setCtxWord child ctxEsp (τ.ctxWord child ctxEsp + offset)
    modify fun τ => τ.setCtxWord child ctxEbp (τ.ctxWord child ctxEbp + offset)

/-- Fill in the child's PCB and stack from the caller's. -/
def forkSetup (child : PcbId) (stack : StackId) : Kernel Unit := do
  let pid ← pidNext
  modifyPcb child fun pcb => { pcb with pid := pid }
  let σ ← get
  let parent := σ.pcbs σ.current
  modifyPcb child fun pcb => { pcb with
    ppid := parent.pid, prio := parent.prio, stack := some stack, screen := parent.screen }
  forkStack child stack
  setEax child 0
  setEax σ.current pid.id
  schedule child parent.prio

/-- Create a new process; -1 in `eax` on failure. -/
def sysFork : Kernel Unit := do
  let σ ← get
  match ← pcbAlloc with
  | .error _ => setEax σ.current (-1)
  | .ok child =>
    match ← stackAlloc with
    | .error _ =>
      let stat ← pcbFree child
      check "_sys_fork" "free pcb status %s" stat
      setEax σ.current (-1)
    | .ok stack => forkSetup child stack

/-- Where `_setup_stack` puts the saved context: below the return address and
the argument of the simulated call to `exit`, and two longwords of filler. -/
def setupContext : Nat := stackSize - 5 - contextWords

/-- The longword `_setup_stack` leaves at position `k` of the fresh context. -/
def freshContextWord (m : Machine) (entry : UInt32) (k : Nat) : UInt32 :=
  match k with
  | 0 => 0x20     -- ss
  | 1 => 0x18     -- gs
  | 2 => 0x18     -- fs
  | 3 => 0x18     -- es
  | 4 => 0x18     -- ds
  | 46 => entry   -- eip
  | 47 => 0x10    -- cs
  | 48 => 0x202   -- eflags
  | k => if (5 ≤ k ∧ k ≤ 8) ∨ (17 ≤ k ∧ k ≤ 43) then m.freshWord k else 0

/-- Reinitialize a stack for a routine that starts at `entry`. -/
def setupStack (stack : Option StackId) (entry : UInt32) : Kernel Unit :=
  match stack with
  | none => pure ()
  | some s =>
    modify fun σ => { σ with
      stackMem := Function.update σ.stackMem s fun k =>
        if k = stackSize - 3 then 0
        else if k = stackSize - 4 then 0
        else if k = stackSize - 5 then σ.machine.exitAddr
        else if setupContext ≤ k ∧ k < stackSize - 5 then
          freshContextWord σ.machine entry (k - setupContext)
        else σ.stackMem s k }

/-- Replace the program of the calling process. -/
def sysExec : Kernel Unit := do
  let σ ← get
  let prio := (σ.arg σ.current 1).toUInt8
  setupStack (σ.pcbs σ.current).stack (σ.arg σ.current 2)
  modifyPcb σ.current fun pcb => { pcb with context := some setupContext, prio := prio }
  schedule σ.current prio
  dispatch

/-! ## Ending processes and waiting for them -/

/-- The `pid_t` that lies in three longwords. -/
def pidOfWords (w0 w1 w2 : UInt32) : Pid :=
  ⟨w0, #v[w1.toUInt8, (w1 >>> 8).toUInt8, (w1 >>> 16).toUInt8, (w1 >>> 24).toUInt8,
    w2.toUInt8, (w2 >>> 8).toUInt8], (w2 >>> 16).toUInt16⟩

/-- The process that `kill` aims at: the source copies a whole `pid_t` from where
the argument lies. -/
def State.killTarget (σ : State) : Option PcbId :=
  σ.pcbFind (pidOfWords (σ.arg σ.current 1) (σ.arg σ.current 2) (σ.arg σ.current 3))

/-- Mark a process as killed; `_dispatch` will clean it up. -/
def sysKill : Kernel Unit := do
  let σ ← get
  match σ.killTarget with
  | none => setEax σ.current Status.notFound.code
  | some pcb =>
    setState pcb .killed
    if pcb = σ.current then
      schedule pcb (σ.pcbs pcb).prio
      dispatch

/-- The variables of the loop in `_sys_wait`. -/
structure WaitScan where
  i : Nat
  pcb : PcbId
  found : Option PcbId

/-- Go through the PCB table for a child of `me`, stopping at a zombie. -/
def waitScan (pcbs : PcbId → Pcb) (me : Pid) : List PcbId → WaitScan → WaitScan
  | [], s => s
  | p :: rest, s =>
    if (pcbs p).ppid.same me then
      if (pcbs p).state = .zombie then { s with pcb := p, found := some p }
      else waitScan pcbs me rest { i := s.i + 1, pcb := p, found := some p }
    else waitScan pcbs me rest { s with i := s.i + 1, pcb := p }

/-- The process that `wait` goes on with, or `none` when it reports that there is
none: the one with the pid asked for, or the outcome of the scan. -/
def State.waitChoice (σ : State) (info : UInt32) : Option PcbId :=
  if 0 < (σ.heap info).pid.id then σ.pcbFind (σ.heap info).pid
  else
    let s := waitScan σ.pcbs (σ.pcbs σ.current).pid (List.finRange nPcbs)
      { i := 0, pcb := 0, found := none }
    if nPcbs < s.i then s.found else some s.pcb

/-- Report a zombie and release what it still holds. -/
def waitReap (info : UInt32) (pcb : PcbId) : Kernel Unit := do
  let σ ← get
  modifyInfo info fun _ => ⟨(σ.pcbs pcb).pid, (σ.pcbs pcb).status⟩
  match ← qRemoveByKey .zombie (σ.pcbs pcb).pid.id with
  | .error stat => kpanic "_sys_wait" "zombie not on queue, %s" stat.code.toNat
  | .ok pcb =>
    let stat ← stackFree (σ.pcbs pcb).stack
    check "_sys_wait" "stack free status %s" stat
    let stat ← pcbFree pcb
    check "_sys_wait" "pcb free status %s" stat

/-- Block the caller until a child terminates. -/
def waitBlock : Kernel Unit := do
  let σ ← get
  setState σ.current .waiting
  let stat ← qInsert .waiting σ.current (σ.pcbs σ.current).pid.id
  check "_sys_wait" "waiting insert status %s" stat
  dispatch

def sysWait : Kernel Unit := do
  let σ ← get
  let info := σ.arg σ.current 1
  if info = 0 then setEax σ.current Status.badParam.code
  else
    match σ.waitChoice info with
    | none => modifyInfo info fun i => { i with status := Status.notFound.code }
    | some pcb =>
      if (σ.pcbs pcb).state = .zombie then waitReap info pcb else waitBlock

/-- The PCB table once the children of `me` have been handed to `init`. -/
def reparent (pcbs : PcbId → Pcb) (me : Pid) (p : PcbId) : Pcb :=
  if (pcbs p).ppid.same me then { pcbs p with ppid := { (pcbs p).ppid with id := pidInit } }
  else pcbs p

/-- Terminate the calling process. -/
def sysExit : Kernel Unit := do
  let σ ← get
  modify fun τ => { τ with pcbs := reparent τ.pcbs (σ.pcbs σ.current).pid }
  zombify σ.current
  dispatch

/-! ## The dispatcher -/

def nSyscalls : Int := 256

/-- The system call table once the kernel is up. -/
def syscallTable : Nat → Option Syscall
  | 0 => some .exit
  | 1 => some .fork
  | 2 => some .exec
  | 3 => some .wait
  | 4 => some .kill
  | 5 => some .sleep
  | 6 => some .readc
  | 7 => some .reads
  | 8 => some .writec
  | 9 => some .writes
  | 10 => some .getpid
  | 11 => some .getppid
  | 12 => some .getprio
  | 13 => some .gettime
  | 14 => some .setprio
  | 15 => some .settime
  | 16 => some .setscreen
  | 17 => some .getscreen
  | 18 => some .switchscreen
  | 19 => some .openscreen
  | 20 => some .closescreen
  | 30 => some .yield
  | 31 => some .sendmsg
  | 0x69 => some .fat64UserInit
  | 0x70 => some .ideRead
  | 0x71 => some .ideWrite
  | _ => none

/-- The second-level handler of each call. -/
def handler (ext : External) : Syscall → Kernel Unit
  | .exit => sysExit
  | .fork => sysFork
  | .exec => sysExec
  | .wait => sysWait
  | .kill => sysKill
  | .sleep => sysSleep
  | .readc => sysReadc
  | .reads => sysNotImplemented
  | .writec => sysWritec
  | .writes => sysNotImplemented
  | .getpid => sysGetpid
  | .getppid => sysGetppid
  | .getprio => sysGetprio
  | .gettime => sysGettime
  | .setprio => sysSetprio
  | .settime => sysSettime
  | .setscreen => sysSetscreen ext
  | .getscreen => sysGetscreen
  | .switchscreen => sysExternal ext
  | .openscreen => sysExternal ext
  | .closescreen => sysExternal ext
  | .yield => sysYield
  | .sendmsg => sysExternal ext
  | .fat64UserInit => sysExternal ext
  | .ideRead => sysExternal ext
  | .ideWrite => sysExternal ext

/-- The call that the current process makes: the one in the table slot that its
saved `eax` selects, and `exit` for a code out of range. -/
def State.invoked (σ : State) : Option Syscall :=
  let syscode := (σ.ctxWord σ.current ctxEax).toInt32.toInt
  if syscode < 0 ∨ nSyscalls ≤ syscode then some .exit else syscallTable syscode.toNat

def isrSyscall (ext : External) : Kernel Unit := do
  let σ ← get
  match (σ.pcbs σ.current).context with
  | none => kpanic "_isr_syscall" "null _current context" 0
  | some _ =>
    match σ.invoked with
    | none => throw .nullHandler
    | some call => handler ext call

end Cumulonimbus
