import Cumulonimbus.Boot

/-!
# Where the dispatcher is called

A handler ends with a call of `_dispatch` or returns to its caller.  `beforeDispatch` is what it
does until then, and says which of the two it is (`isr_dispatches`).  Whenever the dispatcher is
called, no process has the CPU, and no process has been forked before in this entry
(`beforeDispatch_vacates`).
-/

namespace Cumulonimbus

open Exec

variable {σ ρ : State} {a : Life} {p : PcbId} {ext : External} {i : Input}

/-- Call the dispatcher, or not. -/
def thenDispatch (x : Kernel Bool) : Kernel Unit := do
  if ← x then dispatch

/-! ## Handlers without the call -/

def exitBefore : Kernel Bool := do
  let σ ← get
  modify fun τ => { τ with pcbs := reparent τ.pcbs (σ.pcbs σ.current).pid }
  zombify σ.current
  return true

def execBefore : Kernel Bool := do
  let σ ← get
  let prio := (σ.arg σ.current 1).toUInt8
  setupStack (σ.pcbs σ.current).stack (σ.arg σ.current 2)
  modifyPcb σ.current fun pcb => { pcb with context := some setupContext, prio := prio }
  schedule σ.current prio
  return true

def waitBlockBefore : Kernel Bool := do
  let σ ← get
  setState σ.current .waiting
  let stat ← qInsert .waiting σ.current (σ.pcbs σ.current).pid.id
  check "_sys_wait" "waiting insert status %s" stat
  return true

def waitBefore : Kernel Bool := do
  let σ ← get
  let info := σ.arg σ.current 1
  if info = 0 then
    setEax σ.current Status.badParam.code
    return false
  else
    match σ.waitChoice info with
    | none =>
      modifyInfo info fun i => { i with status := Status.notFound.code }
      return false
    | some pcb =>
      if (σ.pcbs pcb).state = .zombie then
        waitReap info pcb
        return false
      else waitBlockBefore

def killBefore : Kernel Bool := do
  let σ ← get
  match σ.killTarget with
  | none =>
    setEax σ.current Status.notFound.code
    return false
  | some pcb =>
    setState pcb .killed
    if pcb = σ.current then
      schedule pcb (σ.pcbs pcb).prio
      return true
    else return false

def sleepBefore : Kernel Bool := do
  let σ ← get
  let stat ← sleepInsert
  if stat ≠ .success then
    setEax σ.current 0
    return false
  else return true

def readcBlockBefore : Kernel Bool := do
  let σ ← get
  modifyPcb σ.current fun pcb => { pcb with status := UInt32.ofNat ProcState.blocked.code }
  let stat ← qInsert .reading σ.current (σ.pcbs σ.current).pid.id
  check "_sys_read" "insert status %s" stat
  return true

def readcBefore : Kernel Bool := do
  let σ ← get
  let (ch, sio) := sioReadc σ.sio
  modify fun τ => { τ with sio := sio }
  match ch with
  | some c =>
    setEax σ.current c
    return false
  | none => readcBlockBefore

def callBefore (ext : External) : Syscall → Kernel Bool
  | .exit => exitBefore
  | .exec => execBefore
  | .wait => waitBefore
  | .kill => killBefore
  | .sleep => sleepBefore
  | .readc => readcBefore
  | .yield => return true
  | call => do
    handler ext call
    return false

def syscallBefore (ext : External) : Kernel Bool := do
  let σ ← get
  match (σ.pcbs σ.current).context with
  | none => kpanic "_isr_syscall" "null _current context" 0
  | some _ =>
    match σ.invoked with
    | none => throw .nullHandler
    | some call => callBefore ext call

def clockBefore : Kernel Bool := do
  tick
  let σ ← get
  wakeLoop ((σ.queues .sleep).items.length + 1) σ.systemTime
  let σ ← get
  schedule σ.current (σ.pcbs σ.current).prio
  return true

/-- What the handler of an interrupt does before it calls the dispatcher, if it does. -/
def beforeDispatch : Interrupt → Kernel Bool
  | .syscall ext => syscallBefore ext
  | .clock => clockBefore
  | .serial events => do
    isrSio events
    return false

/-! ## Handlers with the call -/

/-- A handler that ends with a dispatch, its first part split off. -/
theorem thenDispatch_bind {α : Type} (x : Kernel α) (f : α → Kernel Bool) :
    thenDispatch (x >>= f) = x >>= fun y => thenDispatch (f y) := by
  rw [thenDispatch, bind_assoc]
  rfl

/-- A handler that asks for a dispatch gets one. -/
theorem thenDispatch_true : thenDispatch (pure true) = dispatch := rfl

/-- A handler that does not ask for one ends. -/
theorem thenDispatch_false (x : Kernel Unit) :
    thenDispatch (x >>= fun _ => pure false) = x := by
  rw [thenDispatch_bind]
  exact bind_pure_unit

/-- Each branch of a handler may ask. -/
theorem thenDispatch_ite {c : Prop} [Decidable c] (x y : Kernel Bool) :
    thenDispatch (if c then x else y) = if c then thenDispatch x else thenDispatch y := by
  split <;> rfl

/-- `wait` that blocks asks for one. -/
theorem waitBlock_dispatches : waitBlock = thenDispatch waitBlockBefore := by
  simp only [waitBlock, waitBlockBefore, thenDispatch_bind, thenDispatch_true]

/-- `wait` asks where it blocks. -/
theorem sysWait_dispatches : sysWait = thenDispatch waitBefore := by
  rw [sysWait, waitBefore, thenDispatch_bind]
  refine congrArg _ (funext fun σ => ?_)
  dsimp only
  rw [thenDispatch_ite, thenDispatch_false]
  refine congrArg _ ?_
  cases σ.waitChoice (σ.arg σ.current 1) with
  | none => exact (thenDispatch_false _).symm
  | some pcb =>
    dsimp only
    rw [thenDispatch_ite, thenDispatch_false, waitBlock_dispatches]

/-- `kill` asks where the caller has killed itself. -/
theorem sysKill_dispatches : sysKill = thenDispatch killBefore := by
  rw [sysKill, killBefore, thenDispatch_bind]
  refine congrArg _ (funext fun σ => ?_)
  cases σ.killTarget with
  | none => exact (thenDispatch_false _).symm
  | some pcb =>
    dsimp only
    rw [thenDispatch_bind]
    refine congrArg _ (funext fun _ => ?_)
    rw [thenDispatch_ite, thenDispatch_bind]
    rfl

/-- `sleep` asks where the caller sleeps. -/
theorem sysSleep_dispatches : sysSleep = thenDispatch sleepBefore := by
  rw [sysSleep, sleepBefore, thenDispatch_bind]
  refine congrArg _ (funext fun σ => ?_)
  rw [thenDispatch_bind]
  refine congrArg _ (funext fun stat => ?_)
  rw [thenDispatch_ite, thenDispatch_false]
  rfl

/-- `readc` that blocks asks for one. -/
theorem readcBlock_dispatches : readcBlock = thenDispatch readcBlockBefore := by
  simp only [readcBlock, readcBlockBefore, thenDispatch_bind, thenDispatch_true]

/-- `readc` asks where there is no character. -/
theorem sysReadc_dispatches : sysReadc = thenDispatch readcBefore := by
  rw [sysReadc, readcBefore, thenDispatch_bind]
  refine congrArg _ (funext fun σ => ?_)
  dsimp only
  rw [thenDispatch_bind]
  refine congrArg _ (funext fun _ => ?_)
  cases (sioReadc σ.sio).1 with
  | none => exact readcBlock_dispatches
  | some c => exact (thenDispatch_false _).symm

/-- **Every handler** dispatches at its end or not at all. -/
theorem handler_dispatches (call : Syscall) :
    handler ext call = thenDispatch (callBefore ext call) := by
  cases call with
  | exit =>
    simp only [handler, sysExit, callBefore, exitBefore, thenDispatch_bind, thenDispatch_true]
  | exec =>
    simp only [handler, sysExec, callBefore, execBefore, thenDispatch_bind, thenDispatch_true]
  | wait => exact sysWait_dispatches
  | kill => exact sysKill_dispatches
  | sleep => exact sysSleep_dispatches
  | readc => exact sysReadc_dispatches
  | yield => rfl
  | _ => exact (thenDispatch_false _).symm

/-- So does the whole interrupt. -/
theorem isrSyscall_dispatches : isrSyscall ext = thenDispatch (syscallBefore ext) := by
  rw [isrSyscall, syscallBefore, thenDispatch_bind]
  refine congrArg _ (funext fun σ => ?_)
  cases (σ.pcbs σ.current).context with
  | none => rfl
  | some _ =>
    dsimp only
    cases σ.invoked with
    | none => rfl
    | some call => exact handler_dispatches call

/-- **Every handler calls the dispatcher at most once, as the last thing it does.** -/
theorem isr_dispatches (interrupt : Interrupt) :
    isr interrupt = thenDispatch (beforeDispatch interrupt) := by
  cases interrupt with
  | syscall ext => exact isrSyscall_dispatches
  | clock =>
    simp only [isr, isrClock, beforeDispatch, clockBefore, thenDispatch_bind, thenDispatch_true]
  | serial events => exact (thenDispatch_false _).symm

/-- An entry that calls the dispatcher in the state `ρ`. -/
theorem kernelEntry_dispatches
    (arrives : beforeDispatch i.interrupt (σ.enter i.user) = .ok (true, ρ)) :
    kernelEntry i σ = dispatch ρ := by
  rw [kernelEntry, isr_dispatches]
  have hbefore : thenDispatch (beforeDispatch i.interrupt) (σ.enter i.user) = dispatch ρ := by
    simp only [thenDispatch, bind, StateT.bind, Except.bind, arrives]
    rfl
  exact hbefore

/-! ## The CPU is free then -/

/-- The move is no `fork`. -/
def Birthless (_ : Life) : Move → Prop
  | .fork _ _ _ _ => False
  | _ => True

/-- Nobody is born when a process ends. -/
theorem Move.Ends.birthless {m : Move} {b : Life} (ends : m.Ends p) : Birthless b m := by
  cases m with
  | fork _ _ _ _ => exact ends
  | _ => trivial

/-- The kernel has moved processes without a `fork`, and none has the CPU. -/
def Vacated (a : Life) (τ : State) : Prop :=
  ∃ b, Rel τ b ∧ b.Idle ∧ Moves Birthless a b

/-- What has been vacated after some moves without births. -/
theorem Vacated.after {b : Life} {τ : State} (run : Moves Birthless a b)
    (h : Vacated b τ) : Vacated a τ := by
  obtain ⟨c, hrel, hidle, hrun⟩ := h
  exact ⟨c, hrel, hidle, run.trans hrun⟩

/-- The running process has been moved off the CPU. -/
theorem vacated_of_move {m : Move} {τ : State} (runs : a.Runs p) (enabled : m.Enabled a)
    (birthless : Birthless a m) (h : Rel τ (m.apply a)) (hp : (m.apply a).place p ≠ .cpu)
    (hq : ∀ q, q ≠ p → (m.apply a).place q = a.place q) : Vacated a τ :=
  ⟨m.apply a, h, runs.idle_of hp hq, .single enabled birthless⟩

/-- What a handler does that does not call the dispatcher is of no concern. -/
theorem wp_returns_false {x : Kernel Unit} {Q : State → Prop} :
    wp (x >>= fun _ => pure false) (fun called τ => called = true → Q τ) (fun _ => True) σ :=
  wp_seq (wp_true x σ) fun _ _ _ => wp_pure.mpr fun h => absurd h Bool.false_ne_true

section Vacating

variable (h : Rel σ a) (sound : a.Sound) (rest : a.Resting σ.current)
include h rest

/-- A process that was scheduled has given up the processor. -/
theorem schedule_vacates (prio : UInt8) :
    wp (schedule σ.current prio >>= fun _ => pure true)
      (fun called τ => called = true → Vacated a τ) (fun _ => True) σ := by
  have enabled : (Move.ready σ.current (readyIndex prio)).Enabled a := rest.1
  refine wp_seq (schedule_rel h rest.1.loose prio) ?_
  intro _ τ hpost
  refine wp_pure.mpr fun _ => vacated_of_move rest.1 enabled trivial hpost.1 ?_ fun q hq => ?_
  · simp [Move.apply]
  · simp [Move.apply, hq]

/-- So has one that waits. -/
theorem waitBlock_vacates (enabled : (Move.blockWait σ.current (σ.want σ.current)).Enabled a) :
    wp waitBlockBefore (fun called τ => called = true → Vacated a τ) (fun _ => True) σ := by
  rw [waitBlockBefore, wp_bind, wp_get, h.pid, setState, modifyPcb, wp_bind, wp_modify]
  refine wp_seq (qInsert_rel h.setWaiting rest.1.loose) ?_
  intro stat τ hpost
  obtain ⟨rfl, hτ, -, -⟩ := hpost
  rw [wp_bind]
  refine check_spec (absurd rfl) fun _ => ?_
  refine wp_pure.mpr fun _ => vacated_of_move rest.1 enabled trivial hτ ?_ fun q hq => ?_
  · simp [Move.apply]
  · simp [Move.apply, hq]

/-- So has one that reads. -/
theorem readcBlock_vacates :
    wp readcBlockBefore (fun called τ => called = true → Vacated a τ) (fun _ => True) σ := by
  have enabled : (Move.blockRead σ.current).Enabled a := rest.1
  rw [readcBlockBefore, wp_bind, wp_get, h.pid, wp_bind, modifyPcb, wp_modify]
  refine wp_seq (qInsert_rel (h.setBlocked rest) rest.1.loose) ?_
  intro stat τ hpost
  obtain ⟨rfl, hτ, -, -⟩ := hpost
  rw [wp_bind]
  refine check_spec (absurd rfl) fun _ => ?_
  refine wp_pure.mpr fun _ => vacated_of_move rest.1 enabled trivial hτ ?_ fun q hq => ?_
  · simp [Move.apply]
  · simp [Move.apply, hq]

/-- So has the process that the clock interrupts. -/
theorem clockBefore_vacates :
    wp clockBefore (fun called τ => called = true → Vacated a τ) (fun _ => True) σ := by
  rw [clockBefore]
  refine wp_seq (tick_spec h) ?_
  intro _ τ hpost
  obtain ⟨hτ, hcurrent, -⟩ := hpost
  rw [wp_bind, wp_get]
  rw [← hcurrent] at rest
  have hwake : wp (wakeLoop ((τ.queues .sleep).items.length + 1) τ.systemTime)
      (fun _ υ => Returns Birthless a υ ∧ υ.current = τ.current) (fun _ => True) τ :=
    wakeLoop_spec _ hτ rest (Nat.lt_succ_self _) _ fun _ _ _ _ _ => trivial
  refine wp_seq hwake ?_
  intro _ υ hpost
  obtain ⟨⟨b, hb, hrest, hrun⟩, -⟩ := hpost
  rw [wp_bind, wp_get]
  refine wp_mono (schedule_vacates hb hrest _) ?_ fun _ he => he
  exact fun called τ hpost hc => (hpost hc).after hrun

include sound

/-- **Whoever calls the dispatcher** has given up the processor first. -/
theorem callBefore_vacates (call : Syscall) :
    wp (callBefore ext call) (fun called τ => called = true → Vacated a τ) (fun _ => True) σ := by
  cases call with
  | exit =>
    have enabled : (Move.reparent σ.current).Enabled a := rest.1
    have hsound := Move.sound sound enabled
    rw [callBefore, exitBefore, wp_bind, wp_get, wp_bind, wp_modify]
    refine wp_seq (zombify_ends (reparent_rel h) hsound rest.1 rfl (fun _ => trivial)
      fun _ => trivial) ?_
    intro _ τ hpost
    obtain ⟨m, ends, henabled, hτ, hidle, -⟩ := hpost
    have hrun : Moves Birthless a ((Move.reparent σ.current).apply a) := .single enabled trivial
    exact wp_pure.mpr fun _ => ⟨_, hτ, hidle, hrun.snoc henabled ends.birthless⟩
  | exec =>
    rw [callBefore, execBefore, wp_bind, wp_get]
    dsimp only
    refine wp_seq (setupStack_spec h sound.toApart rest.idle _) ?_
    intro _ τ hpost
    obtain ⟨hτ, hcurrent⟩ := hpost
    rw [wp_bind, modifyPcb, wp_modify]
    have hnew := hτ.touch (p := σ.current)
      (f := fun b => { b with context := some setupContext, prio := (σ.arg σ.current 1).toUInt8 })
      (fun _ => rfl) rest.idle
    rw [← hcurrent] at rest hnew ⊢
    exact schedule_vacates hnew rest _
  | wait =>
    rw [callBefore, waitBefore, wp_bind, wp_get]
    dsimp only
    rw [wp_ite]
    refine ⟨fun _ => wp_returns_false, fun _ => ?_⟩
    split
    · exact wp_returns_false
    rename_i q hchoice
    rw [h.state, wp_ite]
    refine ⟨fun _ => wp_returns_false, fun hzombie => ?_⟩
    exact waitBlock_vacates h rest (blockWait_enabled h rest hchoice hzombie)
  | kill =>
    rw [callBefore, killBefore, wp_bind, wp_get]
    split
    · exact wp_returns_false
    rename_i p htarget
    rw [wp_bind, setState, modifyPcb, wp_modify, wp_ite]
    refine ⟨fun hself => ?_, fun _ => wp_pure.mpr fun hc => absurd hc Bool.false_ne_true⟩
    subst hself
    -- `_schedule` stores `READY` over the mark
    have enabled : (Move.ready σ.current (readyIndex (σ.pcbs σ.current).prio)).Enabled a := rest.1
    have hmark : Rel { σ with
        pcbs := Function.update σ.pcbs σ.current { σ.pcbs σ.current with state := .killed } }
        (a.setState σ.current .killed) := h.setState (by decide)
    refine wp_seq (schedule_rel hmark rest.1.loose _) ?_
    intro _ τ hpost
    have hready : Rel τ
        ((Move.ready σ.current (readyIndex (σ.pcbs σ.current).prio)).apply a) := by
      convert hpost.1 using 1
      simp [Move.apply, Life.setState, Life.modify, Life.move]
    refine wp_pure.mpr fun _ => vacated_of_move rest.1 enabled trivial hready ?_ fun q hq => ?_
    · simp [Move.apply]
    · simp [Move.apply, hq]
  | sleep =>
    rw [callBefore, sleepBefore, wp_bind, wp_get]
    refine wp_seq (sleepInsert_spec h rest.1) ?_
    intro stat τ hpost
    obtain ⟨rfl, hτ⟩ := hpost
    have enabled : (Move.sleep σ.current (σ.systemTime + σ.arg σ.current 1)).Enabled a := rest.1
    refine wp_pure.mpr fun _ => vacated_of_move rest.1 enabled trivial hτ ?_ fun q hq => ?_
    · simp [Move.apply]
    · simp [Move.apply, hq]
  | readc =>
    rw [callBefore, readcBefore, wp_bind, wp_get]
    dsimp only
    rw [wp_bind, wp_modify]
    have hrel : Rel { σ with sio := (sioReadc σ.sio).2 } a :=
      ⟨h.placed.congr rfl rfl rfl, h.proc, h.want, h.nextPid⟩
    split
    · exact wp_returns_false
    · exact readcBlock_vacates hrel rest
  | yield =>
    have enabled : (Move.abandon σ.current).Enabled a := rest.1
    have hrel : Rel σ ((Move.abandon σ.current).apply a) := h.move_loose rest.1.loose (by simp)
    refine wp_pure.mpr fun _ => vacated_of_move rest.1 enabled trivial hrel ?_ fun q hq => ?_
    · simp [Move.apply]
    · simp [Move.apply, hq]
  | _ => exact wp_returns_false

/-- **Where the dispatcher is called, the CPU is free**, and no process is new. -/
theorem beforeDispatch_vacates (interrupt : Interrupt) :
    wp (beforeDispatch interrupt) (fun called τ => called = true → Vacated a τ)
      (fun _ => True) σ := by
  cases interrupt with
  | syscall ext =>
    rw [beforeDispatch, syscallBefore, wp_bind, wp_get]
    split
    · exact wp_throw.mpr trivial
    split
    · exact wp_throw.mpr trivial
    · exact callBefore_vacates h sound rest _
  | clock => exact clockBefore_vacates h rest
  | serial events => exact wp_returns_false

end Vacating

end Cumulonimbus
