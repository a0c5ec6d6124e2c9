import Mathlib.Data.Fintype.Sum
import Mathlib.Tactic.DeriveFintype
import Cumulonimbus.Exec
import Cumulonimbus.Queue
import Cumulonimbus.Sio

/-!
# The state of the kernel and the process module

The kernel's variables as one record, and `process.c` and `stack.c` over it.

PCBs and stacks are named by their index in `_pcbs` and `_stacks`.  A stack is
its words; a process's saved context is a word offset into its own stack, from
which the register save area and, above it, the arguments of the interrupted
call are read.  The `info_t` and `pid_t` objects that programs pass by address
live in a heap of their own, keyed by that address.
-/

namespace Cumulonimbus

abbrev nPcbs : Nat := 30
abbrev nStacks : Nat := 30
abbrev nPriorities : Nat := 4

/-- The number of queue nodes the kernel owns. -/
def nQnodes : Nat := nPcbs + nStacks + 5

/-- The longwords of a `stack_t`. -/
def stackSize : Nat := 0x10000

/-- An index into `_pcbs`. -/
abbrev PcbId := Fin nPcbs

/-- An index into `_stacks`. -/
abbrev StackId := Fin nStacks

abbrev MacAddress := Vector UInt8 6

structure Pid where
  id : UInt32
  host : MacAddress
  reserved : UInt16
  deriving DecidableEq

/-- A cleared `pid_t`. -/
def pidClear : Pid := ⟨0, Vector.replicate 6 0, 0⟩

/-- Whether `_pid_cmp` returns 0: host and id agree. -/
def Pid.same (p1 p2 : Pid) : Bool := p1.host == p2.host && p1.id == p2.id

def pidInit : UInt32 := 1

inductive ProcState
  | free | new | ready | running | sleeping | blocked | waiting | killed | zombie
  deriving DecidableEq, Repr

/-- The state byte. -/
def ProcState.code : ProcState → Nat
  | .free => 0
  | .new => 1
  | .ready => 2
  | .running => 3
  | .sleeping => 4
  | .blocked => 5
  | .waiting => 6
  | .killed => 8
  | .zombie => 9

/-- A process control block; the default value is a cleared one. -/
structure Pcb where
  context : Option Nat := none
  stack : Option StackId := none
  pid : Pid := pidClear
  ppid : Pid := pidClear
  status : UInt32 := 0
  sleeptime : UInt32 := 0
  state : ProcState := .free
  prio : UInt8 := 0
  screen : UInt32 := 0

/-- The `info_t` that `wait` reads and fills in. -/
structure Info where
  pid : Pid
  status : UInt32

/-- The queues that hold PCBs. -/
inductive QName
  | pcbAvail
  | ready (i : Fin nPriorities)
  | sleep
  | reading
  | waiting
  | zombie
  deriving DecidableEq, Fintype

/-- The system calls with a handler in the table, under the names of `syscall.h`. -/
inductive Syscall
  | exit | fork | exec | wait | kill | sleep | readc | reads | writec | writes
  | getpid | getppid | getprio | gettime | setprio | settime
  | setscreen | getscreen | switchscreen | openscreen | closescreen
  | yield | sendmsg | fat64UserInit | ideRead | ideWrite
  deriving DecidableEq, Repr

/-- What the link and the processor fix: the addresses of `_stacks`, `exit` and
`init`, and, by position, the longwords of a fresh context that the initial
coprocessor state and the control registers supply. -/
structure Machine where
  stacksAddr : UInt32
  exitAddr : UInt32
  initAddr : UInt32
  freshWord : Nat → UInt32

/-- The variables of the kernel. -/
structure State where
  machine : Machine
  qnodes : Nat
  queues : QName → Queue PcbId
  stackAvail : Queue StackId
  pcbs : PcbId → Pcb
  current : PcbId
  nextPid : Pid
  localMac : MacAddress
  systemTime : UInt32
  pinwheel : UInt32
  pindex : UInt32
  sio : Sio
  stackMem : StackId → Nat → UInt32
  heap : UInt32 → Info

/-- Why the kernel stopped for good: a panic with its module, text and code, a
call through an empty slot of the system call table, or a loop that would not
end. -/
inductive Halt
  | kpanic (module msg : String) (code : Nat)
  | nullHandler
  | spin
  deriving DecidableEq

/-- A routine of the kernel. -/
abbrev Kernel (α : Type) := Exec.Prog State Halt α

def kpanic {α : Type} (module msg : String) (code : Nat) : Kernel α :=
  throw (.kpanic module msg code)

/-- `if( stat != E_SUCCESS ) _kpanic( module, msg, stat )`. -/
def check (module msg : String) (stat : Status) : Kernel Unit :=
  if stat ≠ .success then kpanic module msg stat.code.toNat else pure ()

/-! ## Saved contexts -/

/-- The longwords of a `context_t`, and the positions the kernel uses. -/
def contextWords : Nat := 49
def ctxEbp : Nat := 11
def ctxEsp : Nat := 12
def ctxEax : Nat := 16

/-- Word `k` from the saved context of `p` upwards. -/
def State.ctxWord (σ : State) (p : PcbId) (k : Nat) : UInt32 :=
  match (σ.pcbs p).stack with
  | some s => σ.stackMem s ((σ.pcbs p).context.getD 0 + k)
  | none => 0

/-- `ARG(context, n)` for the saved context of `p`. -/
def State.arg (σ : State) (p : PcbId) (n : Nat) : UInt32 :=
  σ.ctxWord p (contextWords + n)

/-- Store into word `k` from the saved context of `p` upwards. -/
def State.setCtxWord (σ : State) (p : PcbId) (k : Nat) (v : UInt32) : State :=
  match (σ.pcbs p).stack with
  | some s =>
    { σ with
      stackMem := Function.update σ.stackMem s
        (Function.update (σ.stackMem s) ((σ.pcbs p).context.getD 0 + k) v) }
  | none => σ

/-- `context->eax = v` for process `p`. -/
def setEax (p : PcbId) (v : UInt32) : Kernel Unit :=
  modify fun σ => σ.setCtxWord p ctxEax v

/-- The PCB update that a handler makes through a PCB pointer. -/
def modifyPcb (p : PcbId) (f : Pcb → Pcb) : Kernel Unit :=
  modify fun σ => { σ with pcbs := Function.update σ.pcbs p (f (σ.pcbs p)) }

def setState (p : PcbId) (st : ProcState) : Kernel Unit :=
  modifyPcb p fun pcb => { pcb with state := st }

/-- `_current = p`. -/
def setCurrent (p : PcbId) : Kernel Unit :=
  modify fun σ => { σ with current := p }

/-- A store into the object at a user address. -/
def modifyInfo (ptr : UInt32) (f : Info → Info) : Kernel Unit :=
  modify fun σ => { σ with heap := Function.update σ.heap ptr (f (σ.heap ptr)) }

/-! ## The queues of the kernel -/

def qAppend (X : QName) (p : PcbId) (key : Key) : Kernel Status := do
  let σ ← get
  match (σ.queues X).qAppend σ.qnodes p key with
  | .error stat => return stat
  | .ok (n, q) =>
    set { σ with qnodes := n, queues := Function.update σ.queues X q }
    return .success

def qInsert (X : QName) (p : PcbId) (key : Key) : Kernel Status := do
  let σ ← get
  match (σ.queues X).qInsert σ.qnodes p key with
  | .error stat => return stat
  | .ok (n, q) =>
    set { σ with qnodes := n, queues := Function.update σ.queues X q }
    return .success

def qRemove (X : QName) : Kernel (Except Status PcbId) := do
  let σ ← get
  match (σ.queues X).qRemove σ.qnodes with
  | .error stat => return .error stat
  | .ok (p, n, q) =>
    set { σ with qnodes := n, queues := Function.update σ.queues X q }
    return .ok p

def qRemoveByKey (X : QName) (key : Key) : Kernel (Except Status PcbId) := do
  let σ ← get
  match (σ.queues X).qRemoveByKey σ.qnodes key with
  | .error stat => return .error stat
  | .ok (p, n, q) =>
    set { σ with qnodes := n, queues := Function.update σ.queues X q }
    return .ok p

/-! ## PCBs and stacks -/

def pcbAlloc : Kernel (Except Status PcbId) := qRemove .pcbAvail

def pcbFree (p : PcbId) : Kernel Status := do
  modifyPcb p fun _ => {}
  qAppend .pcbAvail p 0

/-- The PCB with this pid, in table order, among those not free. -/
def State.pcbFind (σ : State) (pid : Pid) : Option PcbId :=
  (List.finRange nPcbs).find? fun p =>
    decide ((σ.pcbs p).state ≠ .free) && (σ.pcbs p).pid.same pid

def stackAlloc : Kernel (Except Status StackId) := do
  let σ ← get
  match σ.stackAvail.qRemove σ.qnodes with
  | .error stat => return .error stat
  | .ok (s, n, q) =>
    set { σ with qnodes := n, stackAvail := q }
    return .ok s

/-- Clear a stack and put it back; a null pointer is refused. -/
def stackFree (old : Option StackId) : Kernel Status := do
  match old with
  | none => return .badParam
  | some s =>
    modify fun σ => { σ with
      stackMem := Function.update σ.stackMem s fun k =>
        if k < stackSize then 0 else σ.stackMem s k }
    let σ ← get
    match σ.stackAvail.qAppend σ.qnodes s 0 with
    | .error stat => return stat
    | .ok (n, q) =>
      set { σ with qnodes := n, stackAvail := q }
      return .success

/-- The next pid: the local host and the counter, which wraps. -/
def pidNext : Kernel Pid := do
  let σ ← get
  set { σ with nextPid := { σ.nextPid with id := σ.nextPid.id + 1 } }
  return { id := σ.nextPid.id, host := σ.localMac, reserved := 0 }

end Cumulonimbus
