import Mathlib.Data.List.FinRange
import Mathlib.Logic.Function.Basic
import Cumulonimbus.Exec

/-!
# Interrupt bookkeeping

`irqs.c` and the allocator it uses, `kalloc.c`.  A vector has a list of actions behind a
sentinel that stands for no handler.  Pointers are the 32-bit addresses of the source, 0
being `NULL`, so that an action is what the memory holds at its address.

Three fields of the state record what happens and are read by no function: the handlers
called, the interrupt flag at each write of a list's link, and the bytes sent to the
interrupt controllers.
-/

namespace Cumulonimbus.Irqs

open Exec

/-- `_isr_action_t` -/
structure Action where
  handler : UInt32
  calls : UInt32
  next : UInt32
  deriving DecidableEq

/-- `sizeof(_isr_action_t)` -/
def actionSize : UInt32 := 12

/-- What `__isr_table` sends a vector to. -/
inductive Isr
  | globalHandler
  | waitHandler
  | other (routine : UInt32)
  deriving DecidableEq

/-- What an entry of the interrupt descriptor table points to: the stub that saves the whole
context, or the basic one. -/
inductive Stub
  | isr (vector : Fin 256)
  | basic (vector : Fin 256)
  deriving DecidableEq

/-- A handler is called with the vector and the error code. -/
structure Call where
  handler : UInt32
  vector : Int32
  code : Int32
  deriving DecidableEq

inductive Status
  | success
  | badParam
  | notFound
  | timeout
  | insufficientResources
  | error
  deriving DecidableEq

/-- `enum AlignmentValue` -/
inductive Alignment
  | byte
  | word
  | dword
  | qword
  | paragraph
  deriving DecidableEq

structure State where
  kallocBase : UInt32
  actions : UInt32 → Action
  vectorTable : Fin 256 → UInt32
  handlingInt : Bool
  terminateIsr : Bool
  handledInt : Int32
  testHandler : UInt32
  waitIrqCount : Int32
  isrTable : Fin 256 → Isr
  idt : Fin 256 → Stub
  /-- The processor's interrupt-enable flag. -/
  enabled : Bool
  /-- The handlers called, oldest first. -/
  called : List Call
  /-- The interrupt flag at each write of a link of a handler list. -/
  edits : List Bool
  /-- Bytes written to ports. -/
  outs : List (UInt16 × UInt8)

/-- The static initializers; `__init_interrupts` has filled the tables of the processor. -/
def State.initial : State where
  kallocBase := 0x2000000
  actions := fun _ => ⟨0, 0, 0⟩
  vectorTable := fun _ => 0
  handlingInt := false
  terminateIsr := false
  handledInt := -1
  testHandler := 0
  waitIrqCount := 0
  isrTable := fun _ => .other 0
  idt := .isr
  enabled := false
  called := []
  edits := []
  outs := []

/-- Why a call does not return: `__panic`, or a list that goes round. -/
inductive Fault
  | panic
  | spin
  deriving DecidableEq

abbrev Irq := Prog State Fault

/-! ## Memory -/

/-- `Align_*`: the next address that is a multiple of `mask + 1`. -/
def alignUp (mask a : UInt32) : UInt32 :=
  if mask &&& a ≠ 0 then (a &&& ~~~mask) + (mask + 1) else a

def Alignment.apply : Alignment → UInt32 → UInt32
  | .byte, a => a
  | .word, a => if 1 &&& a ≠ 0 then a + 1 else a
  | .dword, a => alignUp 3 a
  | .qword, a => alignUp 7 a
  | .paragraph, a => alignUp 15 a

def kalloc (bytes : UInt32) : Irq UInt32 := do
  let s ← get
  modify fun s => { s with kallocBase := s.kallocBase + bytes }
  return s.kallocBase

def kallocAligned (bytes : UInt32) (alignment : Alignment) : Irq UInt32 := do
  let s ← get
  let a := alignment.apply s.kallocBase
  modify fun s => { s with kallocBase := a + bytes }
  return a

/-- Memory is never given back. -/
def kfree (_ : UInt32) : Irq Unit := pure ()

def State.setAction (s : State) (a : UInt32) (action : Action) : State :=
  { s with actions := Function.update s.actions a action }

/-- Write the link of an action that is on a list. -/
def setNext (a next : UInt32) : Irq Unit :=
  modify fun s => { s.setAction a { s.actions a with next := next } with edits := s.edits ++ [s.enabled] }

/-! ## The interrupt flag -/

def sti : Irq Unit := modify fun s => { s with enabled := true }

def cli : Irq Unit := modify fun s => { s with enabled := false }

def interruptIsEnabled : Irq Bool := do
  let s ← get
  return s.enabled

def interruptEnable (enable : Bool) : Irq Unit := do
  let ifState ← interruptIsEnabled
  if ifState = enable then pure ()
  else if enable then sti
  else cli

/-! ## Initialization -/

def installIsr (vector : Fin 256) (handler : Isr) : Irq Unit :=
  modify fun s => { s with isrTable := Function.update s.isrTable vector handler }

/-- Install one handler for all vectors. -/
def installAll (handler : Isr) : Irq Unit :=
  forM (List.finRange 256) fun i => installIsr i handler

/-- Allocate the sentinel of a vector. -/
def initVector (i : Fin 256) : Irq Unit := do
  let a ← kallocAligned actionSize .qword
  modify fun s => { s with vectorTable := Function.update s.vectorTable i a }
  setNext a 0
  modify fun s => s.setAction a { s.actions a with calls := 0, handler := 0 }

def interruptInit : Irq Status := do
  let state ← interruptIsEnabled
  interruptEnable false
  forM (List.finRange 256) initVector
  installAll .globalHandler
  interruptEnable state
  return .success

def setIdtEntry (i : Fin 256) (stub : Stub) : Irq Unit :=
  modify fun s => { s with idt := Function.update s.idt i stub }

def interruptSwapIdt (basic : Bool) : Irq Unit := do
  let state ← interruptIsEnabled
  interruptEnable false
  forM (List.finRange 256) fun i => setIdtEntry i (if basic then .basic i else .isr i)
  interruptEnable state

/-! ## Handlers -/

/-- Acknowledge an interrupt to the interrupt controllers. -/
def interruptClear (vector : Int32) : Irq Unit :=
  if 0x20 ≤ vector ∧ vector < 0x30 then do
    modify fun s => { s with outs := s.outs ++ [(0x20, 0x20)] }
    if 0x28 < vector then modify fun s => { s with outs := s.outs ++ [(0xa0, 0x20)] }
    else pure ()
  else pure ()

def interruptTerminate : Irq Unit := do
  let s ← get
  if s.handlingInt then modify fun s => { s with terminateIsr := true }
  else pure ()

/-- A handler runs; `ends` says whether it calls `_interrupt_terminate`. -/
def callHandler (handler : UInt32) (vector code : Int32) (ends : Bool) : Irq Unit := do
  modify fun s => { s with called := s.called ++ [⟨handler, vector, code⟩] }
  if ends then interruptTerminate else pure ()

/-- The loop of `_interrupt_global_handler`.  The handlers called decide one after the other
whether to end the interrupt. -/
def handleActions (vector code : Int32) : Nat → (Nat → Bool) → UInt32 → Irq Unit
  | 0, _, _ => throw .spin
  | fuel + 1, ends, action => do
    let s ← get
    if action ≠ 0 ∧ s.terminateIsr = false then
      let live := (s.actions action).handler ≠ 0
      if live then callHandler (s.actions action).handler vector code (ends 0)
      else pure ()
      modify fun s =>
        s.setAction action { s.actions action with calls := (s.actions action).calls + 1 }
      let s ← get
      handleActions vector code fuel (if live then fun k => ends (k + 1) else ends)
        (s.actions action).next
    else pure ()

/-- No list is longer than there are addresses. -/
def addresses : Nat := 0x100000001

/-- The vectors that have a place in the tables. -/
def vectorOf (vector : Int32) : Option (Fin 256) :=
  if h : 0 ≤ vector.toInt ∧ vector.toInt < 256 then some ⟨vector.toInt.toNat, by omega⟩ else none

def interruptGlobalHandler (vector code : Int32) (ends : Nat → Bool) : Irq Unit := do
  let state ← interruptIsEnabled
  interruptEnable false
  match vectorOf vector with
  | none => throw .panic
  | some v => do
    modify fun s => { s with handlingInt := true }
    let s ← get
    handleActions vector code addresses ends (s.vectorTable v)
    modify fun s => { s with terminateIsr := false }
    modify fun s => { s with handlingInt := false }
    interruptClear vector
    interruptEnable state

def interruptWaitHandler (vector code : Int32) (ends : Nat → Bool) : Irq Unit := do
  let state ← interruptIsEnabled
  interruptEnable false
  modify fun s => { s with waitIrqCount := s.waitIrqCount + 1, handledInt := vector }
  let s ← get
  if s.testHandler ≠ 0 then callHandler s.testHandler vector code (ends 0)
  else pure ()
  interruptClear vector
  interruptEnable state

/-- An interrupt: its vector and error code, and what the handlers will do. -/
structure Arrival where
  vector : Fin 256
  code : Int32
  ends : Nat → Bool

/-- The processor goes through an interrupt gate, which switches interrupts off, and the stub calls
the routine of the vector; the return from the interrupt brings the flag back. -/
def interrupt (i : Arrival) : Irq Unit := do
  let entry ← interruptIsEnabled
  cli
  let s ← get
  match s.isrTable i.vector with
  | .globalHandler => interruptGlobalHandler (Int32.ofNat i.vector) i.code i.ends
  | .waitHandler => interruptWaitHandler (Int32.ofNat i.vector) i.code i.ends
  | .other _ => pure ()
  modify fun s => { s with enabled := entry }

/-! ## Waiting for an interrupt -/

/-- Until an interrupt was handled or the time is up; `during` lists the interrupts that arrive
in each millisecond. -/
def waitLoop (during : Nat → List Arrival) : Nat → Nat → Irq Unit
  | 0, _ => pure ()
  | timeoutMs + 1, k => do
    let s ← get
    if s.handledInt = -1 then
      forM (during k) interrupt
      waitLoop during timeoutMs (k + 1)
    else pure ()

/-- The interrupts that arrive while a call of `_interrupt_wait` has interrupts switched on:
before its loop, in each millisecond, and after the loop. -/
structure Arrivals where
  early : List Arrival
  during : Nat → List Arrival
  late : List Arrival

def interruptWait (timeoutMs handler : UInt32) (arrivals : Arrivals) : Irq Status := do
  let state ← interruptIsEnabled
  interruptEnable false
  modify fun s => { s with handledInt := -1, testHandler := handler, waitIrqCount := 0 }
  installAll .waitHandler
  interruptEnable true
  forM arrivals.early interrupt
  waitLoop arrivals.during timeoutMs.toNat 0
  forM arrivals.late interrupt
  interruptEnable false
  modify fun s => { s with testHandler := 0 }
  installAll .globalHandler
  interruptEnable state
  let s ← get
  if s.waitIrqCount = 1 then return .success
  else if 1 < s.waitIrqCount then return .error
  else return .timeout

/-! ## Registration -/

/-- The last action of a list. -/
def lastAction : Nat → UInt32 → Irq UInt32
  | 0, _ => throw .spin
  | fuel + 1, action => do
    let s ← get
    if (s.actions action).next ≠ 0 then lastAction fuel (s.actions action).next
    else return action

def interruptAddIsr (handler : UInt32) (vector : Int32) : Irq Status :=
  match vectorOf vector with
  | none => return .badParam
  | some v => do
    let action ← kallocAligned actionSize .qword
    if action = 0 then return .insufficientResources
    else
      modify fun s => s.setAction action ⟨handler, 0, 0⟩
      let state ← interruptIsEnabled
      interruptEnable false
      let s ← get
      let last ← lastAction addresses (s.vectorTable v)
      setNext last action
      interruptEnable state
      return .success

/-- The loop of `_interrupt_del_isr`.  Only the way out that finds nothing looks at `state`. -/
def removeAction (handler : UInt32) (state : Bool) : Nat → UInt32 → UInt32 → Irq Status
  | 0, _, _ => throw .spin
  | fuel + 1, previous, action => do
    if action ≠ 0 then
      let s ← get
      if (s.actions action).handler = handler then
        setNext previous (s.actions action).next
        kfree action
        sti
        return .success
      else removeAction handler state fuel action (s.actions action).next
    else
      interruptEnable state
      return .notFound

def interruptDelIsr (handler : UInt32) (vector : Int32) : Irq Status :=
  match vectorOf vector with
  | none => return .badParam
  | some v => do
    let state ← interruptIsEnabled
    interruptEnable false
    let s ← get
    let previous := s.vectorTable v
    removeAction handler state addresses previous (s.actions previous).next

end Cumulonimbus.Irqs
