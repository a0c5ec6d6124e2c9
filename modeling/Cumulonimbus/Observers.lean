import Cumulonimbus.Interrupts
import Cumulonimbus.Refinement

/-!
# What the kernel's routines leave alone

Most routines touch neither the queues of readers and sleepers nor the serial port nor the
system time.  `Watches f Y` says that `f` reads nothing else of the state but the one queue
`Y`, and `Blind f` that this is the queue of readers; what such an `f` reads stays as it is
through every routine below.
-/

namespace Cumulonimbus

open Exec

variable {γ : Type} {f : State → γ}

/-- `f` reads nothing but the queue of readers, the serial port and the system time. -/
def Blind (f : State → γ) : Prop :=
  ∀ σ τ, τ.queues .reading = σ.queues .reading → τ.sio = σ.sio → τ.systemTime = σ.systemTime →
    f τ = f σ

/-- The queues of processes that wait for an event from outside.  Only a call that files its
caller there and the interrupt that takes it off touch them. -/
class QName.Event (Y : QName) : Prop where
  eq : Y = .reading ∨ Y = .sleep

instance QName.event_reading : QName.Event .reading := ⟨Or.inl rfl⟩

instance QName.event_sleep : QName.Event .sleep := ⟨Or.inr rfl⟩

/-- `f` reads nothing but the queue `Y`, the serial port and the system time. -/
def Watches (f : State → γ) (Y : QName) : Prop :=
  ∀ σ τ, τ.queues Y = σ.queues Y → τ.sio = σ.sio → τ.systemTime = σ.systemTime → f τ = f σ

/-- `f` does not read the queue `X`. -/
def Overlooks (f : State → γ) (X : QName) : Prop :=
  ∀ σ n q, f { σ with qnodes := n, queues := Function.update σ.queues X q } = f σ

section Watches

variable {Y : QName} (watches : Watches f Y)
include watches

/-- A word of a saved context lies in the stacks, which `f` does not read. -/
theorem Watches.setCtxWord (σ : State) (p : PcbId) (k : Nat) (v : UInt32) :
    f (σ.setCtxWord p k v) = f σ := by
  obtain ⟨m, hm, -⟩ := σ.setCtxWord_eq p k v
  rw [hm]
  exact watches _ _ rfl rfl rfl

/-- The other queues are not read. -/
theorem Watches.queue (X : QName) (hX : X ≠ Y) : Overlooks f X :=
  fun _ _ _ => watches _ _ (Function.update_of_ne hX.symm _ _) rfl rfl

/-- Queues that hold no process waiting for an event are among them. -/
theorem Watches.other [event : Y.Event] (X : QName) (hX : X ≠ .reading ∧ X ≠ .sleep) :
    Overlooks f X := by
  refine watches.queue X ?_
  rcases event.eq with h | h
  · exact h ▸ hX.1
  · exact h ▸ hX.2

end Watches

/-- Being blind is to watch the readers. -/
theorem Blind.watches (blind : Blind f) : Watches f .reading := blind

/-- The queues that the blind overlook. -/
theorem Blind.queue (blind : Blind f) (X : QName) (hX : X ≠ .reading) : Overlooks f X :=
  blind.watches.queue X hX

section Queues

variable {X : QName} (h : Overlooks f X)
include h

/-- An operation on a queue that is overlooked. -/
theorem OnQueue.keeps {δ : Type} {x : Kernel δ} (hx : OnQueue X x) : Keeps f x := by
  intro σ
  obtain ⟨op, hop⟩ := hx
  rw [wp, hop]
  dsimp only
  cases (op σ.qnodes (σ.queues X)).2 with
  | none => rfl
  | some r => exact h σ _ _

/-- The four operations on a queue that `f` does not read. -/
theorem qAppend_keeps (p : PcbId) (key : Key) : Keeps f (qAppend X p key) :=
  (qAppend_onQueue X p key).keeps h

theorem qInsert_keeps (p : PcbId) (key : Key) : Keeps f (qInsert X p key) :=
  (qInsert_onQueue X p key).keeps h

theorem qRemove_keeps : Keeps f (qRemove X) := (qRemove_onQueue X).keeps h

theorem qRemoveByKey_keeps (key : Key) : Keeps f (qRemoveByKey X key) :=
  (qRemoveByKey_onQueue X key).keeps h

end Queues

/-- A check panics or does nothing. -/
theorem check_keeps (m msg : String) (stat : Status) : Keeps f (check m msg stat) :=
  .ite (.throw _) (.pure _)

section Watches

variable {Y : QName} (watches : Watches f Y)
include watches

/-- Results are stored in the stacks. -/
theorem setEax_keeps (p : PcbId) (v : UInt32) : Keeps f (setEax p v) :=
  .modify fun σ => watches.setCtxWord σ p ctxEax v

/-- The PCBs are not read. -/
theorem modifyPcb_keeps (p : PcbId) (g : Pcb → Pcb) : Keeps f (modifyPcb p g) :=
  .modify fun σ => watches σ _ rfl rfl rfl

/-- Nor are the objects at user addresses. -/
theorem modifyInfo_keeps (ptr : UInt32) (g : Info → Info) : Keeps f (modifyInfo ptr g) :=
  .modify fun σ => watches σ _ rfl rfl rfl

/-- The pool of stacks is outside as well. -/
theorem stackAlloc_keeps : Keeps f stackAlloc := by
  intro σ
  rw [stackAlloc, wp_bind, wp_get]
  split
  · exact rfl
  · exact watches σ _ rfl rfl rfl

/-- A stack is cleared and goes back to its pool. -/
theorem stackFree_keeps (old : Option StackId) : Keeps f (stackFree old) := by
  cases old with
  | none => exact .pure _
  | some s =>
    intro σ
    rw [stackFree, wp_bind, wp_modify, wp_bind, wp_get]
    split
    · exact watches σ _ rfl rfl rfl
    · exact watches σ _ rfl rfl rfl

/-- The counter of pids. -/
theorem pidNext_keeps : Keeps f pidNext := fun σ => watches σ _ rfl rfl rfl

/-- The first context of a program, on its stack. -/
theorem setupStack_keeps (s : Option StackId) (entry : UInt32) :
    Keeps f (setupStack s entry) := by
  cases s with
  | none => exact .pure _
  | some s => exact .modify fun σ => watches σ _ rfl rfl rfl

/-- The copy of the caller's stack, and the context in it. -/
theorem forkStack_keeps (child : PcbId) (s : StackId) :
    Keeps f (forkStack child s) := by
  refine .bind .get fun σ => ?_
  split
  · exact .pure _
  · exact .bind (.modify fun σ => watches σ _ rfl rfl rfl) fun _ =>
      .bind (modifyPcb_keeps watches _ _) fun _ =>
      .bind (.modify fun _ => watches.setCtxWord _ _ _ _) fun _ =>
      .modify fun _ => watches.setCtxWord _ _ _ _

/-- What `getpid` and `getppid` do. -/
theorem tell_keeps (p : PcbId) (v ptr : UInt32) (pid : Pid) :
    Keeps f (setEax p v >>= fun _ =>
      if ptr ≠ 0 then modifyInfo ptr fun i => { i with pid := pid } else pure ⟨⟩) :=
  .bind (setEax_keeps watches _ _) fun _ => .ite (modifyInfo_keeps watches _ _) (.pure _)

variable [Y.Event]

/-- The pool of PCBs is a queue, but not one of those that wait for an event. -/
theorem pcbFree_keeps (p : PcbId) : Keeps f (pcbFree p) :=
  .bind (modifyPcb_keeps watches p _) fun _ =>
    qAppend_keeps (watches.other .pcbAvail ⟨nofun, nofun⟩) _ _

/-- Neither are the ready queues. -/
theorem schedule_keeps (p : PcbId) (prio : UInt8) : Keeps f (schedule p prio) :=
  .bind (modifyPcb_keeps watches p _) fun _ =>
    .bind (qAppend_keeps (watches.other (.ready _) ⟨nofun, nofun⟩) _ _) fun _ => check_keeps _ _ _

/-- A process ends while its parent waits: the waiting queue, both pools and a ready queue. -/
theorem zombifyDeliver_keeps (p q : PcbId) (info : UInt32) :
    Keeps f (zombifyDeliver p q info) := by
  refine .bind .get fun σ =>
    .bind (qRemoveByKey_keeps (watches.other .waiting ⟨nofun, nofun⟩) _) fun r => ?_
  cases r with
  | error stat => exact .throw _
  | ok r =>
    exact .bind (modifyInfo_keeps watches _ _) fun _ => .bind (stackFree_keeps watches _) fun _ =>
      .bind (check_keeps _ _ _) fun _ => .bind (pcbFree_keeps watches _) fun _ =>
      .bind (check_keeps _ _ _) fun _ => schedule_keeps watches _ _

/-- A process ends, whether or not its parent waits. -/
theorem zombify_keeps (p : PcbId) : Keeps f (zombify p) := by
  refine .bind .get fun σ => ?_
  split
  · exact .throw _
  · exact .ite (zombifyDeliver_keeps watches _ _ _) (.bind .get fun _ =>
      .bind (modifyPcb_keeps watches _ _) fun _ =>
      .bind (qInsert_keeps (watches.other .zombie ⟨nofun, nofun⟩) _ _) fun _ => check_keeps _ _ _)

/-- The dispatcher takes from the ready queues, by induction on its fuel. -/
theorem dispatchLoop_keeps (n : Nat) : Keeps f (dispatchLoop n) := by
  induction n with
  | zero => exact .throw _
  | succ n ih =>
    rw [dispatchLoop]
    refine .bind .get fun σ => ?_
    split
    · exact .throw _
    refine .bind (qRemove_keeps (watches.other (.ready _) ⟨nofun, nofun⟩)) fun r => ?_
    cases r with
    | error stat => exact .throw _
    | ok p =>
      refine .bind (.modify fun σ => watches σ _ rfl rfl rfl) fun _ => ?_
      split
      · exact modifyPcb_keeps watches _ _
      · exact .bind (zombify_keeps watches p) fun _ => ih
      · exact .throw _

/-- So a dispatch is not seen. -/
theorem dispatch_keeps : Keeps f dispatch :=
  .bind .get fun _ => dispatchLoop_keeps watches _

/-- Everything that `fork` does once it has a PCB and a stack. -/
theorem forkSetup_keeps (child : PcbId) (s : StackId) :
    Keeps f (forkSetup child s) :=
  .bind (pidNext_keeps watches) fun _ => .bind (modifyPcb_keeps watches _ _) fun _ =>
    .bind .get fun _ => .bind (modifyPcb_keeps watches _ _) fun _ =>
    .bind (forkStack_keeps watches _ _) fun _ => .bind (setEax_keeps watches _ _) fun _ =>
    .bind (setEax_keeps watches _ _) fun _ => schedule_keeps watches _ _

/-- `fork`, and its two ways to fail. -/
theorem sysFork_keeps : Keeps f sysFork := by
  refine .bind .get fun σ =>
    .bind (qRemove_keeps (watches.other .pcbAvail ⟨nofun, nofun⟩)) fun r => ?_
  cases r with
  | error stat => exact setEax_keeps watches _ _
  | ok child =>
    refine .bind (stackAlloc_keeps watches) fun r => ?_
    cases r with
    | error stat =>
      exact .bind (pcbFree_keeps watches _) fun _ => .bind (check_keeps _ _ _) fun _ =>
        setEax_keeps watches _ _
    | ok s => exact forkSetup_keeps watches _ _

/-- `exec` schedules and dispatches. -/
theorem sysExec_keeps : Keeps f sysExec :=
  .bind .get fun _ => .bind (setupStack_keeps watches _ _) fun _ =>
    .bind (modifyPcb_keeps watches _ _) fun _ => .bind (schedule_keeps watches _ _) fun _ =>
    dispatch_keeps watches

/-- `kill` marks a PCB and dispatches if the caller killed itself. -/
theorem sysKill_keeps : Keeps f sysKill := by
  refine .bind .get fun σ => ?_
  split
  · exact setEax_keeps watches _ _
  · exact .bind (modifyPcb_keeps watches _ _) fun _ =>
      .ite (.bind (schedule_keeps watches _ _) fun _ => dispatch_keeps watches) (.pure _)

/-- `wait` where a zombie is there already. -/
theorem waitReap_keeps (info : UInt32) (q : PcbId) :
    Keeps f (waitReap info q) := by
  refine .bind .get fun σ => .bind (modifyInfo_keeps watches _ _) fun _ =>
    .bind (qRemoveByKey_keeps (watches.other .zombie ⟨nofun, nofun⟩) _) fun r => ?_
  cases r with
  | error stat => exact .throw _
  | ok r =>
    exact .bind (stackFree_keeps watches _) fun _ => .bind (check_keeps _ _ _) fun _ =>
      .bind (pcbFree_keeps watches _) fun _ => check_keeps _ _ _

/-- Queueing the caller and dispatching another process. -/
theorem insertAndDispatch_keeps {X : QName} (h : Overlooks f X) (p : PcbId) (key : Key)
    (m msg : String) :
    Keeps f (do
      let stat ← qInsert X p key
      check m msg stat
      dispatch) :=
  .bind (qInsert_keeps h _ _) fun _ => .bind (check_keeps _ _ _) fun _ => dispatch_keeps watches

/-- `wait`, in each of its outcomes. -/
theorem sysWait_keeps : Keeps f sysWait := by
  refine .bind .get fun σ => .ite (setEax_keeps watches _ _) ?_
  split
  · exact modifyInfo_keeps watches _ _
  · exact .ite (waitReap_keeps watches _ _) (.bind .get fun _ =>
      .bind (modifyPcb_keeps watches _ _) fun _ =>
      insertAndDispatch_keeps watches (watches.other .waiting ⟨nofun, nofun⟩) _ _ _ _)

/-- `exit` ends the caller and dispatches. -/
theorem sysExit_keeps : Keeps f sysExit :=
  .bind .get fun _ => .bind (.modify fun σ => watches σ _ rfl rfl rfl) fun _ =>
    .bind (zombify_keeps watches _) fun _ => dispatch_keeps watches

/-- All calls but these four. -/
theorem handler_watched (ext : External) {call : Syscall} (hset : call ≠ .settime)
    (hread : call ≠ .readc) (hwrite : call ≠ .writec) (hsleep : call ≠ .sleep) :
    Keeps f (handler ext call) := by
  cases call with
  | exit => exact sysExit_keeps watches
  | fork => exact sysFork_keeps watches
  | exec => exact sysExec_keeps watches
  | wait => exact sysWait_keeps watches
  | kill => exact sysKill_keeps watches
  | sleep => exact absurd rfl hsleep
  | readc => exact absurd rfl hread
  | writec => exact absurd rfl hwrite
  | getpid => exact .bind .get fun _ => tell_keeps watches _ _ _ _
  | getppid => exact .bind .get fun _ => tell_keeps watches _ _ _ _
  | setprio =>
    exact .bind .get fun _ => .bind (setEax_keeps watches _ _) fun _ => modifyPcb_keeps watches _ _
  | settime => exact absurd rfl hset
  | setscreen =>
    exact .bind .get fun _ => .ite (.bind (setEax_keeps watches _ _) fun _ =>
      modifyPcb_keeps watches _ _) (setEax_keeps watches _ _)
  | yield => exact dispatch_keeps watches
  | _ => exact .bind .get fun _ => setEax_keeps watches _ _

end Watches

section Serial

variable {Y : QName} (watches : Watches f Y) (port : ∀ σ s, f { σ with sio := s } = f σ)
include watches port

/-- `writec` leaves what `f` reads alone, where that is not the serial port. -/
theorem sysWritec_keeps : Keeps f sysWritec :=
  .bind .get fun _ => .bind (.modify fun σ => port σ _) fun _ => setEax_keeps watches _ _

variable [Y.Event] (reading : Overlooks f .reading)
include reading

/-- So does `readc`, where it is not the queue of readers either. -/
theorem sysReadc_keeps : Keeps f sysReadc := by
  refine .bind .get fun _ => .bind (.modify fun σ => port σ _) fun _ => ?_
  split
  · exact setEax_keeps watches _ _
  · exact .bind .get fun _ => .bind (modifyPcb_keeps watches _ _) fun _ =>
      insertAndDispatch_keeps watches reading _ _ _ _

/-- One event of the serial port wakes a reader or stores a character. -/
theorem sioEvent_keeps (event : SioEvent) : Keeps f (sioEvent event) := by
  cases event with
  | rx ch =>
    refine .bind .get fun _ => .ite (.modify fun σ => port σ _)
      (.bind (qRemove_keeps reading) fun r => ?_)
    cases r with
    | error stat => exact .throw _
    | ok p => exact .bind (setEax_keeps watches _ _) fun _ => schedule_keeps watches _ _
  | tx => exact .modify fun σ => port σ _
  | other eir => exact .throw _
  | _ => exact .pure _

/-- Event after event. -/
theorem isrSio_keeps (events : List SioEvent) : Keeps f (isrSio events) := by
  induction events with
  | nil => exact .pure _
  | cons event events ih => exact .bind (sioEvent_keeps watches port reading event) fun _ => ih

end Serial

section Blind

variable (blind : Blind f)
include blind

/-- `sleep` files its caller with the sleepers, whom a blind observer does not see. -/
theorem sysSleep_keeps : Keeps f sysSleep :=
  .bind .get fun _ => .bind (.bind .get fun _ => .bind (modifyPcb_keeps blind _ _) fun _ =>
    qInsert_keeps (blind.queue .sleep nofun) _ _) fun _ =>
    .ite (setEax_keeps blind _ _) (dispatch_keeps blind)

/-- All calls but these three. -/
theorem handler_keeps (ext : External) {call : Syscall} (hset : call ≠ .settime)
    (hread : call ≠ .readc) (hwrite : call ≠ .writec) : Keeps f (handler ext call) := by
  by_cases hsleep : call = .sleep
  · subst hsleep
    exact sysSleep_keeps blind
  · exact handler_watched blind ext hset hread hwrite hsleep

/-- Nor does it see them wake up. -/
theorem wakeLoop_keeps (n : Nat) (key : Key) : Keeps f (wakeLoop n key) := by
  induction n with
  | zero => exact .throw _
  | succ n ih =>
    refine .bind (qRemoveByKey_keeps (blind.queue .sleep nofun) _) fun r => ?_
    cases r with
    | error stat => exact .pure _
    | ok p => exact .bind (schedule_keeps blind _ _) fun _ => ih

/-- The clock interrupt, after the tick. -/
theorem clockRest_keeps : Keeps f (do
    let σ ← get
    wakeLoop ((σ.queues .sleep).items.length + 1) σ.systemTime
    let σ ← get
    schedule σ.current (σ.pcbs σ.current).prio
    dispatch) :=
  .bind .get fun _ => .bind (wakeLoop_keeps blind _ _) fun _ => .bind .get fun _ =>
    .bind (schedule_keeps blind _ _) fun _ => dispatch_keeps blind

end Blind

end Cumulonimbus
