import Cumulonimbus.Syscall

/-!
# The system call table

`_syscall_init` fills a part of the table, `_syscall_install` and `_syscall_clear` change it
later.  The table has a slot for every code in range, but not every slot has a handler, and
`_isr_syscall` looks at the range only.  It calls through a null pointer where the slot is
empty, and where the code is out of range and the slot of `exit` is (`dispatch_iff`).
-/

namespace Cumulonimbus

/-- What a slot of the table can point to. -/
inductive Routine
  | handler (call : Syscall)
  | other (addr : UInt32)
  deriving DecidableEq

/-- `_syscalls`; an empty slot holds a null pointer. -/
abbrev SyscallTable := UInt8 → Option Routine

/-- The assignments of `_syscall_init`. -/
def initHandlers : List (UInt8 × Syscall) :=
  [(0, .exit), (1, .fork), (2, .exec), (3, .wait), (4, .kill), (5, .sleep), (6, .readc),
    (7, .reads), (8, .writec), (9, .writes), (10, .getpid), (11, .getppid), (12, .getprio),
    (13, .gettime), (14, .setprio), (15, .settime), (30, .yield), (16, .setscreen),
    (17, .getscreen), (18, .switchscreen), (19, .openscreen), (20, .closescreen)]

def syscallInit : SyscallTable :=
  initHandlers.foldl (fun t x => Function.update t x.1 (some (.handler x.2))) fun _ => none

/-- An 8-bit number is never out of range, whatever the source tests. -/
def syscallInstall (func : Option Routine) (num : UInt8) (t : SyscallTable) :
    Status × SyscallTable :=
  if nSyscalls < num.toNat then (.badParam, t)
  else if t num ≠ none then (.insufficientResources, t)
  else (.success, Function.update t num func)

def syscallClear (num : UInt8) (t : SyscallTable) : Status × SyscallTable :=
  if nSyscalls < num.toNat then (.badParam, t)
  else (.success, Function.update t num none)

/-- A change of the table. -/
inductive TableCall
  | install (func : Option Routine) (num : UInt8)
  | clear (num : UInt8)

def TableCall.run (t : SyscallTable) : TableCall → SyscallTable
  | .install func num => (syscallInstall func num t).2
  | .clear num => (syscallClear num t).2

/-- The table after some changes. -/
def tableAfter (calls : List TableCall) : SyscallTable := calls.foldl TableCall.run syscallInit

/-- The saved `eax` of the caller as the signed number that the source tests. -/
def syscode (eax : UInt32) : Int := eax.toInt32.toInt

def OutOfRange (eax : UInt32) : Prop := syscode eax < 0 ∨ nSyscalls ≤ syscode eax

instance (eax : UInt32) : Decidable (OutOfRange eax) := inferInstanceAs (Decidable (_ ∨ _))

/-- The slot of a code in range. -/
def slotOf (eax : UInt32) : UInt8 := UInt8.ofNat (syscode eax).toNat

/-- The pointer that `_isr_syscall` calls. -/
def called (t : SyscallTable) (eax : UInt32) : Option Routine :=
  if OutOfRange eax then t 0 else t (slotOf eax)

/-- The routine that should be called: the handler of the code, and `_sys_exit` for a code that
has none. -/
def intended (t : SyscallTable) (eax : UInt32) : Routine :=
  if OutOfRange eax then .handler .exit else (t (slotOf eax)).getD (.handler .exit)

/-- The code has a handler, or it is out of range and `exit` is in its slot. -/
def Served (t : SyscallTable) (eax : UInt32) : Prop :=
  if OutOfRange eax then t 0 = some (.handler .exit) else t (slotOf eax) ≠ none

section Run

variable {t : SyscallTable} {n : UInt8}

/-- The changes that the network, disk and file system modules make while the kernel comes up. -/
def bootCalls : List TableCall :=
  [.install (some (.handler .sendmsg)) 31, .install (some (.handler .ideRead)) 0x70,
    .install (some (.handler .ideWrite)) 0x71, .install (some (.handler .fat64UserInit)) 0x69]

/-- The table of the running kernel. -/
theorem bootTable_eq (n : UInt8) :
    tableAfter bootCalls n = (syscallTable n.toNat).map Routine.handler := by
  have hall : ∀ k : Fin 256, tableAfter bootCalls (UInt8.ofFin k) =
      (syscallTable (UInt8.ofFin k).toNat).map Routine.handler := by decide +kernel
  exact hall n.toFin

/-- The kernel calls through this table. -/
theorem invoked_eq (σ : State) :
    called (tableAfter bootCalls) (σ.ctxWord σ.current ctxEax) = σ.invoked.map Routine.handler := by
  have hout : OutOfRange (σ.ctxWord σ.current ctxEax) ↔
      (σ.ctxWord σ.current ctxEax).toInt32.toInt < 0 ∨
        nSyscalls ≤ (σ.ctxWord σ.current ctxEax).toInt32.toInt := Iff.rfl
  rw [called, State.invoked]
  by_cases h : OutOfRange (σ.ctxWord σ.current ctxEax)
  · rw [if_pos h, if_pos (hout.mp h)]
    exact bootTable_eq 0
  · rw [if_neg h, if_neg (mt hout.mpr h), bootTable_eq]
    rw [OutOfRange, not_or, nSyscalls] at h
    have hlt : (syscode (σ.ctxWord σ.current ctxEax)).toNat < 256 := by omega
    rw [slotOf, UInt8.toNat_ofNat_of_lt' hlt]
    rfl

end Run

/-- **Dispatch reaches the intended handler** exactly if the code is served. -/
theorem dispatch_iff (calls : List TableCall) (eax : UInt32) :
    called (tableAfter calls) eax = some (intended (tableAfter calls) eax) ↔
      Served (tableAfter calls) eax := by
  rw [called, intended, Served]
  split
  · exact Iff.rfl
  · cases h : tableAfter calls (slotOf eax) with
    | none => simp
    | some r => simp

/-- The code 21 has no handler. -/
theorem null_handler_called :
    ¬ ∀ (calls : List TableCall) (eax : UInt32),
      called (tableAfter calls) eax = some (intended (tableAfter calls) eax) := by
  intro h
  have hnull : called (tableAfter []) 21 = none := by decide
  rw [h [] 21] at hnull
  cases hnull

end Cumulonimbus
