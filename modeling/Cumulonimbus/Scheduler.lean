import Mathlib.Algebra.Ring.Nat
import Mathlib.Data.List.FinRange
import Cumulonimbus.Process

/-!
# Scheduling and the end of a process

`_schedule` and `_dispatch` of `scheduler.c`, with `_zombify` of `system.c`,
which `_dispatch` calls for a killed process and `exit` for its caller.
-/

namespace Cumulonimbus

def prioMaximum : UInt8 := 0

/-- The ready queue that `_schedule` picks: a priority out of range is lowered
to the last one. -/
def readyIndex (prio : UInt8) : Fin nPriorities :=
  if h : prio.toNat < nPriorities then ⟨prio.toNat, h⟩ else ⟨nPriorities - 1, by decide⟩

/-- Put a PCB into the ready queue with the specified priority. -/
def schedule (pcb : PcbId) (prio : UInt8) : Kernel Unit := do
  setState pcb .ready
  let stat ← qAppend (.ready (readyIndex prio)) pcb 0
  check "_schedule" "append status %s" stat

/-- The parent waits for this process: hand over pid and status, clean up, and
give the parent a quick dispatch.  `info` was read from the parent's context
before the removal replaces the parent pointer. -/
def zombifyDeliver (pcb parent : PcbId) (info : UInt32) : Kernel Unit := do
  let σ ← get
  match ← qRemoveByKey .waiting (σ.pcbs parent).pid.id with
  | .error stat => kpanic "_zombify" "wait remove status %s" stat.code.toNat
  | .ok parent =>
    modifyInfo info fun _ => ⟨(σ.pcbs σ.current).pid, σ.arg σ.current 1⟩
    let stat ← stackFree (σ.pcbs pcb).stack
    check "_zombify" "stack free status %s" stat
    let stat ← pcbFree pcb
    check "_zombify" "pcb free status %s" stat
    schedule parent prioMaximum

/-- Nobody waits for this process: put it on the zombie queue. -/
def zombifyKeep : Kernel Unit := do
  let σ ← get
  setState σ.current .zombie
  let stat ← qInsert .zombie σ.current (σ.pcbs σ.current).pid.id
  check "_zombify" "zombie insert status %s" stat

/-- What a waiting process asked for: the pid in the `info_t` that its saved
argument points to. -/
def State.want (σ : State) (p : PcbId) : Pid :=
  (σ.heap (σ.arg p 1)).pid

/-- Whether `parent` is waiting for the current process. -/
def State.awaited (σ : State) (parent : PcbId) : Bool :=
  (σ.pcbs parent).state == .waiting &&
    ((σ.want parent).id == 0 || (σ.want parent).same (σ.pcbs σ.current).pid)

/-- Create a "walking dead" process, or none if the parent is waiting for it. -/
def zombify (pcb : PcbId) : Kernel Unit := do
  let σ ← get
  match σ.pcbFind (σ.pcbs pcb).ppid with
  | none => kpanic "_zombify" "no process parent" 0
  | some parent =>
    if σ.awaited parent then zombifyDeliver pcb parent (σ.arg parent 1)
    else zombifyKeep

/-- The first nonempty ready queue. -/
def State.firstReady (σ : State) : Option (Fin nPriorities) :=
  (List.finRange nPriorities).find? fun i => !(σ.queues (.ready i)).qEmpty

/-- The loop of `_dispatch`, for at most as many turns as the first argument
says. -/
def dispatchLoop : Nat → Kernel Unit
  | 0 => throw .spin
  | fuel + 1 => do
    let σ ← get
    match σ.firstReady with
    | none => kpanic "_dispatch" "all queues empty" 0
    | some i =>
      match ← qRemove (.ready i) with
      | .error stat => kpanic "_dispatch" "queue remove status %s" stat.code.toNat
      | .ok p =>
        setCurrent p
        match (σ.pcbs p).state with
        | .ready => setState p .running
        | .killed =>
          zombify p
          dispatchLoop fuel
        | st => kpanic "_dispatch" "non-ready, state(+100k)" (st.code + 100000)

/-- How many entries the ready queues and the waiting queue hold.  Every turn of
the dispatch loop that goes round again takes one of them away for good. -/
def State.dispatchFuel (σ : State) : Nat :=
  (σ.queues .waiting).items.length +
    ((List.finRange nPriorities).map fun i => (σ.queues (.ready i)).items.length).sum

/-- Dispatch the next process. -/
def dispatch : Kernel Unit := do
  let σ ← get
  dispatchLoop (σ.dispatchFuel + 1)

end Cumulonimbus
