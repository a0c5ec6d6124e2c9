import Mathlib.Logic.Function.Basic
import Cumulonimbus.Exec

/-!
# The kernel heap

`kheap.c`: first fit with splitting, and freeing with two-sided coalescing.  A block begins with
a word that holds its usable length in words; the word behind it is the first word of the
caller's memory or, while the block is free, the link to the next free block.  Addresses and
lengths are unsigned 32-bit numbers and wrap around; memory holds words, by address.

Two fields of the state are read by no function of the allocator: the words that the last call
has written, and the blocks obtained and not yet freed.
-/

namespace Cumulonimbus.Kheap

open Exec

structure State where
  freelist : UInt32
  mem : UInt32 → UInt32
  /-- The addresses written by the last call of the allocator. -/
  writes : List UInt32
  /-- The blocks obtained and not yet freed. -/
  live : List UInt32

/-- Why a call does not return: a list goes round. -/
inductive Spin
  | spin
  deriving DecidableEq

abbrev Heap := Prog State Spin

/-- No list without repetitions is longer. -/
def rounds : Nat := 0x100000001

/-- `block->length` -/
def State.length (s : State) (block : UInt32) : UInt32 := s.mem block

/-- `block->info.next` -/
def State.next (s : State) (block : UInt32) : UInt32 := s.mem (block + 4)

/-- `&block->info.memory` -/
def memoryOf (block : UInt32) : UInt32 := block + 4

/-- The second block immediately follows the first one. -/
def State.adjacent (s : State) (first second : UInt32) : Bool :=
  memoryOf first + 4 * s.length first = second

/-- The total length of a block, with its header. -/
def State.lengthOf (s : State) (block : UInt32) : UInt32 := s.length block + 1

/-- A word written by the allocator. -/
def State.put (s : State) (a value : UInt32) : State :=
  { s with mem := Function.update s.mem a value, writes := s.writes ++ [a] }

/-- The word that is stored. -/
theorem put_self (s : State) (a value : UInt32) : (s.put a value).mem a = value :=
  Function.update_self ..

/-- The other words stay. -/
theorem put_of_ne {a b : UInt32} (s : State) (value : UInt32) (h : b ≠ a) :
    (s.put a value).mem b = s.mem b :=
  Function.update_of_ne h ..

@[simp] theorem put_freelist (s : State) (a value : UInt32) :
    (s.put a value).freelist = s.freelist := rfl

@[simp] theorem put_writes (s : State) (a value : UInt32) :
    (s.put a value).writes = s.writes ++ [a] := rfl

@[simp] theorem put_live (s : State) (a value : UInt32) : (s.put a value).live = s.live := rfl

def poke (a value : UInt32) : Heap Unit := modify fun s => s.put a value

def setLength (block length : UInt32) : Heap Unit := poke block length

def setNext (block next : UInt32) : Heap Unit := poke (block + 4) next

/-- A `blockinfo_t **`: the head of the list, or the link of a block. -/
inductive Slot
  | freelist
  | next (block : UInt32)
  deriving DecidableEq

def setSlot : Slot → UInt32 → Heap Unit
  | .freelist, block => modify fun s => { s with freelist := block }
  | .next previous, block => setNext previous block

/-- The first entry that is large enough, and where the list refers to it. -/
def findBlock (desired : UInt32) : Heap (Slot × UInt32) := do
  let s ← get
  loop .spin (fun i s => decide (i.2 ≠ 0 ∧ s.length i.2 < desired))
    (fun i => do
      let s ← get
      return (.next i.2, s.next i.2)) rounds (.freelist, s.freelist)

/-- Allocate a piece at the end of the block, or all of it if the rest would be too small. -/
def takeBlock (desired : UInt32) (pointer : Slot) (block : UInt32) : Heap UInt32 := do
  let s ← get
  if desired + 2 < s.length block then
    let fragmentSize := 1 + desired
    let fragment := memoryOf block + 4 * s.length block - 4 * fragmentSize
    setLength fragment desired
    let s ← get
    setLength block (s.length block - fragmentSize)
    return memoryOf fragment
  else
    setSlot pointer (s.next block)
    return memoryOf block

def kalloc (desiredLength : UInt32) : Heap UInt32 := do
  let desired := (desiredLength + (4 - 1)) >>> 2
  let i ← findBlock desired
  if i.2 = 0 then return 0
  else takeBlock desired i.1 i.2

/-- The free blocks that straddle the place of a block. -/
def straddle (used : UInt32) : Heap (UInt32 × UInt32) := do
  let s ← get
  loop .spin (fun i _ => decide (i.2 ≠ 0 ∧ i.2 < used))
    (fun i => do
      let s ← get
      return (i.2, s.next i.2)) rounds (0, s.freelist)

/-- Combine a block with the previous one, or insert it; what is then the block that may be
followed by another. -/
def insertBlock (previous used : UInt32) : Heap UInt32 := do
  let s ← get
  if previous ≠ 0 then
    if s.adjacent previous used then
      setLength previous (s.length previous + s.lengthOf used)
      return previous
    else
      setNext used (s.next previous)
      setNext previous used
      return used
  else
    setNext used s.freelist
    setSlot .freelist used
    return used

/-- Combine a block with the next one, if they are adjacent. -/
def joinNext (used block : UInt32) : Heap Unit := do
  let s ← get
  if block ≠ 0 ∧ s.adjacent used block then
    setNext used (s.next block)
    let s ← get
    setLength used (s.length used + s.lengthOf block)
  else pure ()

def kfree (address : UInt32) : Heap Unit :=
  if address = 0 then pure ()
  else do
    let used := address - 4
    let i ← straddle used
    let used ← insertBlock i.1 used
    joinNext used i.2

/-! ## Callers -/

/-- Calls of the allocator, and stores by the owners of blocks. -/
inductive Event
  | alloc (n : UInt32)
  | free (address : UInt32)
  | store (a value : UInt32)

/-- An event, and what is answered to it. -/
def Event.run : Event → Heap UInt32
  | .alloc n => do
    modify fun s => { s with writes := [] }
    let address ← kalloc n
    if address = 0 then return 0
    else
      modify fun s => { s with live := (address - 4) :: s.live }
      return address
  | .free address => do
    modify fun s => { s with
      writes := []
      live := if address = 0 then s.live else s.live.erase (address - 4) }
    kfree address
    return 0
  | .store a value => do
    modify fun s => { s with writes := [], mem := Function.update s.mem a value }
    return 0

end Cumulonimbus.Kheap
