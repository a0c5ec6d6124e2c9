import Cumulonimbus.Lockstep
import Cumulonimbus.Ownership

/-!
# What `kill` reads

The prototype is `int kill(int pid)`, but `_sys_kill` copies a whole `pid_t` from where the
argument lies, and `_pcb_find` compares its host with those of the processes.  So two calls that
agree up to the argument may do different things: they do the same, and find a local process with
the given pid, exactly if what lies above the argument is the address of the local host
(`kills_alike_iff`).

`Alike` relates the two runs.  Everything behind the search keeps it, since no saved context
reaches above the argument (`sysKill_lockstep`).
-/

namespace Cumulonimbus

open Exec

variable {σ τ : State} {i i' : Input} {above : StackId → Nat → Prop}
  {m m' : StackId → Nat → UInt32}

/-- The states are the same, but for words of the stacks that are `above`: one state still has `m`
there and the other `m'`. -/
def Differs (above : StackId → Nat → Prop) (m m' : StackId → Nat → UInt32) (σ τ : State) : Prop :=
  ∃ M, τ = { σ with stackMem := M } ∧ ∀ s k, M s k = σ.stackMem s k ∨
    above s k ∧ σ.stackMem s k = m s k ∧ M s k = m' s k

/-- No saved context, with the first argument above it, reaches into the words `above`. -/
def Shut (above : StackId → Nat → Prop) (σ : State) : Prop :=
  ∀ p s k, (σ.pcbs p).stack = some s → k ≤ contextWords + 1 →
    ¬ above s ((σ.pcbs p).context.getD 0 + k)

/-- The states differ where no handler that reads one argument looks. -/
def Alike (above : StackId → Nat → Prop) (m m' : StackId → Nat → UInt32) (σ τ : State) : Prop :=
  Differs above m m' σ τ ∧ Shut above σ

namespace Alike

/-- Both states change in the same way, and no context moves. -/
theorem store (h : Alike above m m' σ τ) (g : State → State)
    (frame : ∀ υ M, g { υ with stackMem := M } = { g υ with stackMem := M })
    (mem : (g σ).stackMem = σ.stackMem)
    (pcbs : ∀ p s, ((g σ).pcbs p).stack = some s →
      (σ.pcbs p).stack = some s ∧ ((g σ).pcbs p).context = (σ.pcbs p).context) :
    Alike above m m' (g σ) (g τ) := by
  obtain ⟨⟨M, rfl, hM⟩, hshut⟩ := h
  refine ⟨⟨M, frame σ M, fun s k => ?_⟩, fun p s k hs hk => ?_⟩
  · rw [mem]
    exact hM s k
  · obtain ⟨hs', hcontext⟩ := pcbs p s hs
    rw [hcontext]
    exact hshut p s k hs' hk

/-- Queues change alike. -/
theorem requeue (h : Alike above m m' σ τ) (X : QName) (n : Nat) (q : Queue PcbId) :
    Alike above m m' { σ with qnodes := n, queues := Function.update σ.queues X q }
      { τ with qnodes := n, queues := Function.update τ.queues X q } :=
  h.store (fun υ => { υ with qnodes := n, queues := Function.update υ.queues X q })
    (fun _ _ => rfl) rfl fun _ _ hs => ⟨hs, rfl⟩

/-- What is read of a process is the same. -/
theorem arg_eq (h : Alike above m m' σ τ) (p : PcbId) : τ.arg p 1 = σ.arg p 1 := by
  obtain ⟨⟨M, rfl, hM⟩, hshut⟩ := h
  unfold State.arg State.ctxWord
  dsimp only
  split
  · rename_i s hs
    rcases hM s ((σ.pcbs p).context.getD 0 + (contextWords + 1)) with heq | ⟨habove, -⟩
    · exact heq
    · exact absurd habove (hshut p s _ hs le_rfl)
  · rfl

/-- So both states agree on who is waited for. -/
theorem awaited_eq (h : Alike above m m' σ τ) (p : PcbId) : τ.awaited p = σ.awaited p := by
  have harg := h.arg_eq p
  obtain ⟨⟨M, rfl, -⟩, -⟩ := h
  unfold State.awaited State.want
  rw [harg]

end Alike

/-- An operation on a queue reads nothing of the stacks. -/
theorem OnQueue.relates {γ : Type} {X : QName} {x : Kernel γ} (hx : OnQueue X x) :
    Relates (Alike above m m') x := by
  intro σ τ h
  obtain ⟨⟨M, rfl, -⟩, -⟩ := id h
  obtain ⟨op, hop⟩ := hx
  rw [Lockstep, hop, hop]
  refine ⟨rfl, ?_⟩
  dsimp only
  cases (op σ.qnodes (σ.queues X)).2 with
  | none => exact h
  | some r => exact h.requeue X _ _

/-- A check depends on its status only. -/
theorem check_relates (module msg : String) (stat : Status) :
    Relates (Alike above m m') (check module msg stat) :=
  .ite (.throw _) (.pure _)

/-- A PCB changes alike, if no context moves. -/
theorem modifyPcb_relates (p : PcbId) (f : Pcb → Pcb)
    (still : ∀ b s, (f b).stack = some s → b.stack = some s ∧ (f b).context = b.context) :
    Relates (Alike above m m') (modifyPcb p f) := by
  intro σ τ h
  refine .modify (h.store (fun υ => { υ with
    pcbs := Function.update υ.pcbs p (f (υ.pcbs p)) }) (fun _ _ => rfl) rfl fun q s hs => ?_)
  dsimp only at hs ⊢
  by_cases hq : q = p
  · subst hq
    rw [Function.update_self] at hs ⊢
    exact still _ s hs
  · rw [Function.update_of_ne hq] at hs ⊢
    exact ⟨hs, rfl⟩

/-- A state is stored. -/
theorem setState_relates (p : PcbId) (st : ProcState) :
    Relates (Alike above m m') (setState p st) :=
  modifyPcb_relates p _ fun _ _ hs => ⟨hs, rfl⟩

/-- An answer goes to the same address. -/
theorem modifyInfo_relates (ptr : UInt32) (f : Info → Info) :
    Relates (Alike above m m') (modifyInfo ptr f) :=
  fun _ _ h => .modify (h.store (fun υ => { υ with
    heap := Function.update υ.heap ptr (f (υ.heap ptr)) }) (fun _ _ => rfl) rfl
    fun _ _ hs => ⟨hs, rfl⟩)

/-- Clearing a stack makes the same of both. -/
theorem stackFree_relates (old : Option StackId) : Relates (Alike above m m') (stackFree old) := by
  cases old with
  | none => exact .pure _
  | some s =>
    refine .bind (fun σ τ h => ?_) fun _ => ?_
    · obtain ⟨⟨M, rfl, hM⟩, hshut⟩ := h
      refine .modify ⟨⟨_, rfl, fun t k => ?_⟩, hshut⟩
      dsimp only
      by_cases ht : t = s
      · subst ht
        rw [Function.update_self, Function.update_self]
        split
        · exact Or.inl rfl
        · exact hM t k
      · rw [Function.update_of_ne ht, Function.update_of_ne ht]
        exact hM t k
    · intro σ τ h
      obtain ⟨⟨M, rfl, -⟩, -⟩ := id h
      refine .get ?_
      dsimp only
      split
      · exact .pure _ h
      · rename_i n q _
        exact .bind (.set (h.store (fun υ => { υ with qnodes := n, stackAvail := q })
          (fun _ _ => rfl) rfl fun _ _ hs => ⟨hs, rfl⟩)) fun _ _ _ h' => .pure _ h'

/-- A PCB goes back to its pool. -/
theorem pcbFree_relates (p : PcbId) : Relates (Alike above m m') (pcbFree p) :=
  .bind (modifyPcb_relates p _ nofun) fun _ => (qAppend_onQueue _ _ _).relates

/-- A process is scheduled. -/
theorem schedule_relates (p : PcbId) (prio : UInt8) :
    Relates (Alike above m m') (schedule p prio) :=
  .bind (setState_relates p _) fun _ =>
    .bind (qAppend_onQueue _ _ _).relates fun _ => check_relates _ _ _

/-- A process ends while its parent waits; the address for the answer is an argument, which lies
below. -/
theorem zombifyDeliver_relates (p q : PcbId) (info : UInt32) :
    Relates (Alike above m m') (zombifyDeliver p q info) := by
  intro σ τ h
  have harg := h.arg_eq σ.current
  obtain ⟨⟨M, rfl, -⟩, -⟩ := id h
  refine .get (.bind ((qRemoveByKey_onQueue _ _).relates _ _ h) fun r σ' τ' h' => ?_)
  dsimp only at harg ⊢
  cases r with
  | error stat => exact .throw _
  | ok r =>
    rw [harg]
    have hrest : Relates (Alike above m m') (do
        modifyInfo info fun _ => ⟨(σ.pcbs σ.current).pid, σ.arg σ.current 1⟩
        let stat ← stackFree (σ.pcbs p).stack
        check "_zombify" "stack free status %s" stat
        let stat ← pcbFree p
        check "_zombify" "pcb free status %s" stat
        schedule r prioMaximum) :=
      .bind (modifyInfo_relates _ _) fun _ => .bind (stackFree_relates _) fun _ =>
        .bind (check_relates _ _ _) fun _ => .bind (pcbFree_relates _) fun _ =>
        .bind (check_relates _ _ _) fun _ => schedule_relates _ _
    exact hrest σ' τ' h'

/-- A process becomes a zombie. -/
theorem zombifyKeep_relates : Relates (Alike above m m') zombifyKeep := by
  intro σ τ h
  obtain ⟨⟨M, rfl, -⟩, -⟩ := id h
  exact .get (.bind (setState_relates _ _ _ _ h) fun _ σ' τ' h' =>
    .bind ((qInsert_onQueue _ _ _).relates _ _ h') fun _ σ'' τ'' h'' => check_relates _ _ _ _ _ h'')

/-- So the end of a process goes the same way in both. -/
theorem zombify_relates (p : PcbId) : Relates (Alike above m m') (zombify p) := by
  intro σ τ h
  have harg := h.arg_eq
  have hawaited := h.awaited_eq
  obtain ⟨⟨M, rfl, -⟩, -⟩ := id h
  refine .get ?_
  have hfind : ({ σ with stackMem := M } : State).pcbFind = σ.pcbFind := rfl
  rw [hfind]
  dsimp only
  split
  · exact .throw _
  · rename_i q _
    rw [hawaited q, harg q]
    exact .ite (fun _ => zombifyDeliver_relates _ _ _ _ _ h) fun _ => zombifyKeep_relates _ _ h

/-- The dispatcher picks the same process, by induction on its fuel. -/
theorem dispatchLoop_relates (n : Nat) : Relates (Alike above m m') (dispatchLoop n) := by
  induction n with
  | zero => exact .throw _
  | succ n ih =>
    intro σ τ h
    obtain ⟨⟨M, rfl, -⟩, -⟩ := id h
    rw [dispatchLoop]
    refine .get ?_
    have hfirst : ({ σ with stackMem := M } : State).firstReady = σ.firstReady := rfl
    rw [hfirst]
    dsimp only
    split
    · exact .throw _
    refine .bind ((qRemove_onQueue _).relates _ _ h) fun r σ' τ' h' => ?_
    cases r with
    | error stat => exact .throw _
    | ok p =>
      have hcurrent : Alike above m m' { σ' with current := p } { τ' with current := p } :=
        h'.store (fun υ => { υ with current := p }) (fun _ _ => rfl) rfl fun _ _ hs => ⟨hs, rfl⟩
      refine .bind (.modify hcurrent) fun _ σ'' τ'' h'' => ?_
      split
      · exact setState_relates _ _ _ _ h''
      · exact .bind (zombify_relates p _ _ h'') fun _ σ''' τ''' h''' => ih _ _ h'''
      · exact .throw _

/-- So does a dispatch. -/
theorem dispatch_relates : Relates (Alike above m m') dispatch := by
  intro σ τ h
  obtain ⟨⟨M, rfl, -⟩, -⟩ := id h
  exact .get (dispatchLoop_relates _ _ _ h)

/-- A result is stored in the same context; the word may be one of those above. -/
theorem setEax_relates (p : PcbId) (v : UInt32) : Relates (Alike above m m') (setEax p v) := by
  intro σ τ h
  obtain ⟨⟨M, rfl, hM⟩, hshut⟩ := id h
  refine .modify ?_
  unfold State.setCtxWord
  dsimp only
  cases hs : (σ.pcbs p).stack with
  | none => exact h
  | some s =>
    refine ⟨⟨_, rfl, fun t k => ?_⟩, hshut⟩
    dsimp only
    by_cases ht : t = s
    · subst ht
      rw [Function.update_self, Function.update_self]
      by_cases hk : k = (σ.pcbs p).context.getD 0 + ctxEax
      · subst hk
        rw [Function.update_self, Function.update_self]
        exact Or.inl rfl
      · rw [Function.update_of_ne hk, Function.update_of_ne hk]
        exact hM t k
    · rw [Function.update_of_ne ht, Function.update_of_ne ht]
      exact hM t k

/-- **Only the search reads above the argument.** -/
theorem sysKill_lockstep (h : Alike above m m' σ τ) (same : τ.killTarget = σ.killTarget) :
    Lockstep (Alike above m m') sysKill sysKill σ τ := by
  refine .get ?_
  rw [same]
  obtain ⟨⟨M, rfl, -⟩, -⟩ := id h
  dsimp only
  split
  · exact setEax_relates _ _ _ _ h
  · rename_i p _
    exact .bind (setState_relates _ _ _ _ h) fun _ _ _ h' => .ite
      (fun _ => .bind (schedule_relates _ _ _ _ h') fun _ _ _ h'' => dispatch_relates _ _ h'')
      fun _ => .pure _ h'

/-! ## Entries that differ above the argument -/

/-- Word `k` of the stack `s` lies above the argument of the call. -/
def Input.Above (σ : State) (i : Input) (s : StackId) (k : Nat) : Prop :=
  (σ.pcbs σ.current).stack = some s ∧ i.user.context + (contextWords + 1) < k

/-- The entries differ at most in what lies above the argument. -/
structure Input.AgreesWith (σ : State) (i i' : Input) : Prop where
  interrupt : i'.interrupt = i.interrupt
  heap : i'.user.heap = i.user.heap
  context : i'.user.context = i.user.context
  stackMem : ∀ s k, ¬ i.Above σ s k → i'.user.stackMem s k = i.user.stackMem s k

/-- The argument of `kill(int pid)`. -/
def Input.pidArgument (σ : State) (i : Input) : UInt32 := (σ.enter i.user).arg σ.current 1

/-- What lies above the argument, taken for the rest of a `pid_t`, names the local host. -/
def Input.NamesLocal (σ : State) (i : Input) : Prop :=
  (pidOfWords 0 ((σ.enter i.user).arg σ.current 2) ((σ.enter i.user).arg σ.current 3)).host =
    σ.localMac

/-- `p` is the first process in the table with the pid `n`. -/
def State.First (σ : State) (n : UInt32) (p : PcbId) : Prop :=
  ((σ.pcbs p).state ≠ .free ∧ (σ.pcbs p).pid.id = n) ∧
    ∀ q, q < p → (σ.pcbs q).state ≠ .free → (σ.pcbs q).pid.id ≠ n

/-- `p` is marked as killed. -/
def State.marked (σ : State) (p : PcbId) : State :=
  { σ with pcbs := Function.update σ.pcbs p { σ.pcbs p with state := .killed } }

/-- What `_sys_kill` does once it has marked a process: the caller gives up the CPU. -/
def afterMark (p : PcbId) : Kernel Unit := do
  let σ ← get
  if p = σ.current then
    schedule p (σ.pcbs p).prio
    dispatch

/-- `_sys_kill` finds `p` and marks it. -/
def Input.Marks (σ : State) (i : Input) (p : PcbId) : Prop :=
  (σ.enter i.user).killTarget = some p ∧
    kernelEntry i σ = afterMark p ((σ.enter i.user).marked p)

/-- `kill` depends on its argument only: `i` and `i'`, which differ above it, have the same effect,
and a local process with this pid is found and marked. -/
structure Input.KillsAlike (σ : State) (i i' : Input) : Prop where
  same : Lockstep (Differs (i.Above σ) i.user.stackMem i'.user.stackMem) (kernelEntry i)
    (kernelEntry i') σ σ
  found : ∀ p, p ∉ (σ.queues .pcbAvail).members → (σ.pcbs p).pid.host = σ.localMac →
    (σ.pcbs p).pid.id = i.pidArgument σ → i.Marks σ p ∧ i'.Marks σ p

/-- The condition: wherever the argument is the pid of a process, the words above it name the
local host, and the process is the first with this pid. -/
def Input.KillsLocal (σ : State) (i i' : Input) : Prop :=
  ∀ p, p ∉ (σ.queues .pcbAvail).members → (σ.pcbs p).pid.id = i.pidArgument σ →
    (i.NamesLocal σ ∧ i'.NamesLocal σ) ∧ σ.First (i.pidArgument σ) p

instance Input.decidableNamesLocal (σ : State) (i : Input) : Decidable (i.NamesLocal σ) :=
  inferInstanceAs (Decidable (_ = _))

instance State.decidableFirst (σ : State) (n : UInt32) (p : PcbId) : Decidable (σ.First n p) :=
  inferInstanceAs (Decidable ((_ ∧ _) ∧ ∀ q, q < p → _ → _))

instance Input.decidableKillsLocal (σ : State) (i i' : Input) : Decidable (i.KillsLocal σ i') :=
  inferInstanceAs (Decidable (∀ _, _ → _ → (_ ∧ _) ∧ _))

/-- An entry with this call is the handler. -/
theorem kernelEntry_kill (call : i.call σ = some .kill) :
    kernelEntry i σ = sysKill (σ.enter i.user) := by
  cases hint : i.interrupt with
  | clock => simp [Input.call, hint] at call
  | serial events => simp [Input.call, hint] at call
  | syscall ext =>
    have hinvoked : (σ.enter i.user).invoked = some .kill := by
      simpa [Input.call, hint] using call
    have hcontext : ((σ.enter i.user).pcbs (σ.enter i.user).current).context =
        some i.user.context := by
      simp [State.enter]
    change isr i.interrupt (σ.enter i.user) = _
    rw [hint, isr, isrSyscall, get_run, hcontext, hinvoked]
    rfl

/-- The handler, where the search finds a process. -/
theorem sysKill_hit {p : PcbId} (hit : σ.killTarget = some p) :
    sysKill σ = afterMark p (σ.marked p) := by
  rw [sysKill, get_run, hit, afterMark, get_run]
  have hprio : ((σ.marked p).pcbs p).prio = (σ.pcbs p).prio := by simp [State.marked]
  rw [hprio]
  rfl

namespace Input.AgreesWith

variable (agree : i.AgreesWith σ i')
include agree

/-- The states in which the handler starts. -/
theorem alike (own : ∀ p q s, (σ.pcbs p).stack = some s → (σ.pcbs q).stack = some s → p = q) :
    Alike (i.Above σ) i.user.stackMem i'.user.stackMem (σ.enter i.user) (σ.enter i'.user) := by
  refine ⟨⟨i'.user.stackMem, ?_, fun s k => ?_⟩, fun p s k hs hk habove => ?_⟩
  · simp only [State.enter, agree.heap, agree.context]
  · by_cases habove : i.Above σ s k
    · exact Or.inr ⟨habove, rfl, rfl⟩
    · exact Or.inl (agree.stackMem s k habove)
  · obtain ⟨hcurrent, hlt⟩ := habove
    have hp : p = σ.current := by
      by_contra hne
      rw [State.enter] at hs
      dsimp only at hs
      rw [Function.update_of_ne hne] at hs
      exact hne (own _ _ s hs hcurrent)
    subst hp
    have hcontext : ((σ.enter i.user).pcbs σ.current).context = some i.user.context := by
      simp [State.enter]
    rw [hcontext, Option.getD_some] at hlt
    omega

/-- The words of the context and the first argument are those of the other input. -/
theorem ctxWord_eq {k : Nat} (hk : k ≤ contextWords + 1) :
    (σ.enter i'.user).ctxWord σ.current k = (σ.enter i.user).ctxWord σ.current k := by
  unfold State.ctxWord
  simp only [State.enter, Function.update_self, agree.context, Option.getD_some]
  split
  · refine agree.stackMem _ _ fun habove => ?_
    have hlt := habove.2
    omega
  · rfl

/-- So is the call. -/
theorem call_eq : i'.call σ = i.call σ := by
  have heax : (σ.enter i'.user).ctxWord (σ.enter i'.user).current ctxEax =
      (σ.enter i.user).ctxWord (σ.enter i.user).current ctxEax := agree.ctxWord_eq (by decide)
  unfold Input.call State.invoked
  rw [agree.interrupt, heax]

/-- So is the pid. -/
theorem pidArgument_eq : i'.pidArgument σ = i.pidArgument σ :=
  agree.ctxWord_eq le_rfl

end Input.AgreesWith

/-! ## The search -/

/-- User code does not change what the search finds. -/
theorem State.enter_find (u : UserMem) (pid : Pid) : (σ.enter u).pcbFind pid = σ.pcbFind pid := by
  have hproc : ∀ p, ((σ.enter u).pcbs p).state = (σ.pcbs p).state ∧
      ((σ.enter u).pcbs p).pid = (σ.pcbs p).pid := by
    intro p
    by_cases hp : p = σ.current
    · subst hp
      simp [State.enter]
    · simp [State.enter, hp]
  unfold State.pcbFind
  simp only [hproc]

/-- With local pids, a pid is found if it is local, and then by its number. -/
theorem State.find_iff_first (locals : ∀ p, (σ.pcbs p).state ≠ .free →
    (σ.pcbs p).pid.host = σ.localMac) (pid : Pid) (p : PcbId) :
    σ.pcbFind pid = some p ↔ pid.host = σ.localMac ∧ σ.First pid.id p := by
  unfold State.pcbFind
  rw [← Fin.find?_eq_find?_finRange, Fin.find?_eq_some_iff]
  have htest : ∀ q, (decide ((σ.pcbs q).state ≠ .free) && (σ.pcbs q).pid.same pid) = true ↔
      (σ.pcbs q).state ≠ .free ∧ pid.host = σ.localMac ∧ (σ.pcbs q).pid.id = pid.id := by
    intro q
    rw [Bool.and_eq_true, decide_eq_true_eq, Pid.same_iff]
    refine and_congr_right fun hstate => ?_
    rw [locals q hstate, eq_comm]
  simp only [← Bool.not_eq_true, htest]
  constructor
  · intro h
    obtain ⟨⟨hstate, hhost, hid⟩, hbefore⟩ := h
    exact ⟨hhost, ⟨hstate, hid⟩, fun q hq hqstate hqid => hbefore q hq ⟨hqstate, hhost, hqid⟩⟩
  · intro h
    obtain ⟨hhost, ⟨hstate, hid⟩, hbefore⟩ := h
    exact ⟨⟨hstate, hhost, hid⟩, fun q hq hfound => hbefore q hq hfound.1 hfound.2.2⟩

/-- The process that `_sys_kill` finds. -/
theorem enter_target_iff (locals : ∀ p, (σ.pcbs p).state ≠ .free →
    (σ.pcbs p).pid.host = σ.localMac) (p : PcbId) :
    (σ.enter i.user).killTarget = some p ↔ i.NamesLocal σ ∧ σ.First (i.pidArgument σ) p := by
  unfold State.killTarget
  rw [State.enter_find, State.find_iff_first locals]
  exact Iff.rfl

/-! ## Runs -/

section Run

variable {b : Boot} {σ₀ : State} {tr : List (State × Input)}

/-- The pids of processes are local wherever a run leads, and no two processes share a stack. -/
theorem run_local (boot : BootState b σ₀) (run : AnyRun σ₀ tr σ) :
    (∀ p, p ∉ (σ.queues .pcbAvail).members → (σ.pcbs p).pid.host = σ.localMac) ∧
    (∀ p, (σ.pcbs p).state ≠ .free → p ∉ (σ.queues .pcbAvail).members) ∧
    ∀ p q s, (σ.pcbs p).stack = some s → (σ.pcbs q).stack = some s → p = q := by
  obtain ⟨a, hrel, hsound, -, -⟩ := run_owned boot run
  refine ⟨fun p hp => ?_, fun p hp hmem => ?_, fun p q s hp hq => ?_⟩
  · have hhome := (hsound.home p fun hfree => hp ((hrel.free_iff p).mp hfree)).1
    rw [← hrel.pid, hrel.nextPid] at hhome
    exact hhome
  · exact hp ((hrel.state p).trans (hsound.state_free ((hrel.free_iff p).mpr hmem)))
  · rw [hrel.stack] at hp hq
    exact hsound.own p q s hp hq

/-- **`kill` depends on its argument only** exactly under that condition, whatever run has led
here. -/
theorem kills_alike_iff (boot : BootState b σ₀) (run : AnyRun σ₀ tr σ)
    (call : i.call σ = some .kill) (agree : i.AgreesWith σ i') :
    i.KillsAlike σ i' ↔ i.KillsLocal σ i' := by
  obtain ⟨hlocal, halloc, hown⟩ := run_local boot run
  have hlocals : ∀ p, (σ.pcbs p).state ≠ .free → (σ.pcbs p).pid.host = σ.localMac :=
    fun p hp => hlocal p (halloc p hp)
  have hcall : i'.call σ = some .kill := agree.call_eq.trans call
  have htarget := enter_target_iff (i := i) hlocals
  have htarget' := enter_target_iff (i := i') hlocals
  rw [agree.pidArgument_eq] at htarget'
  constructor
  · intro halike p hp hid
    obtain ⟨hmarks, hmarks'⟩ := halike.found p hp (hlocal p hp) hid
    obtain ⟨hnames, hfirst⟩ := (htarget p).mp hmarks.1
    exact ⟨⟨hnames, ((htarget' p).mp hmarks'.1).1⟩, hfirst⟩
  · intro hcond
    -- whom one entry finds, the other finds
    have hfinds : ∀ p, (σ.enter i.user).killTarget = some p ↔
        (σ.enter i'.user).killTarget = some p := by
      intro p
      rw [htarget, htarget']
      refine and_congr_left fun hfirst => ?_
      have hboth := (hcond p (halloc p hfirst.1.1) hfirst.1.2).1
      exact iff_of_true hboth.1 hboth.2
    constructor
    · have hlockstep := (sysKill_lockstep (agree.alike hown)
        (Option.ext fun p => (hfinds p).symm)).mono fun _ _ h => h.1
      unfold Lockstep at hlockstep ⊢
      rw [kernelEntry_kill call, kernelEntry_kill hcall]
      exact hlockstep
    · intro p hp _ hid
      obtain ⟨hnames, hfirst⟩ := hcond p hp hid
      have hhit := (htarget p).mpr ⟨hnames.1, hfirst⟩
      have hhit' := (hfinds p).mp hhit
      exact ⟨⟨hhit, (kernelEntry_kill call).trans (sysKill_hit hhit)⟩, hhit',
        (kernelEntry_kill hcall).trans (sysKill_hit hhit')⟩

end Run

/-- The call `kill(n)` by the process with the stack `s`, which has `rest` above the argument. -/
def killInput (n : UInt32) (s : StackId) (rest : Nat → UInt32) : Input where
  user :=
    { stackMem := fun t k =>
        if t = s ∧ callContext + (contextWords + 1) < k then
          rest (k - (callContext + (contextWords + 1)))
        else callStack 4 (fun _ => n) t k
      heap := blankHeap
      context := callContext }
  interrupt := .syscall ⟨0, false⟩

/-- The inputs of the example differ above the argument only. -/
theorem killInput_agrees {n : UInt32} {s : StackId} (rest rest' : Nat → UInt32)
    (stack : (σ.pcbs σ.current).stack = some s) :
    (killInput n s rest).AgreesWith σ (killInput n s rest') where
  interrupt := rfl
  heap := rfl
  context := rfl
  stackMem t k hk := by
    have hnot : ¬ (t = s ∧ callContext + (contextWords + 1) < k) := fun h =>
      hk ⟨h.1 ▸ stack, h.2⟩
    simp only [killInput, if_neg hnot]

/-- Init kills the child that it has forked.  The words of the host are 0, as they are in the
address of the local host, and what lies further up does not matter. -/
theorem kills_alike_child : ∃ σ₀ tr σ, BootState blankBoot σ₀ ∧ AnyRun σ₀ tr σ ∧
    (∃ p, p ∉ (σ.queues .pcbAvail).members ∧ (σ.pcbs p).pid.id = 2) ∧
    (killInput 2 0 fun _ => 0).KillsAlike σ (killInput 2 0 fun k => if k = 3 then 7 else 0) := by
  have hrun : bootTest (fun _ _ => True) blankBoot [callInput 1 (fun _ => 0) blankHeap] fun σ =>
      decide ((σ.pcbs σ.current).stack = some 0 ∧
        (killInput 2 0 fun _ => 0).call σ = some .kill ∧
        (∃ p, p ∉ (σ.queues .pcbAvail).members ∧ (σ.pcbs p).pid.id = 2) ∧
        (killInput 2 0 fun _ => 0).KillsLocal σ
          (killInput 2 0 fun k => if k = 3 then 7 else 0)) := by
    decide +kernel
  obtain ⟨σ₀, tr, σ, hboot, hany, -, htest⟩ := bootTest_run hrun
  obtain ⟨hstack, hcall, hchild, hlocal⟩ := of_decide_eq_true htest
  exact ⟨σ₀, tr, σ, hboot, hany, hchild,
    (kills_alike_iff hboot hany hcall (killInput_agrees _ _ hstack)).mpr hlocal⟩

/-- Init kills the child that it has forked, once with the address of the local host above the
argument and once with other words there: the child is not found. -/
theorem kill_reads_above : ¬ ∀ (b : Boot) (σ₀ : State) (tr : List (State × Input)) (σ : State)
    (i i' : Input), BootState b σ₀ → AnyRun σ₀ tr σ → i.call σ = some .kill →
    i.AgreesWith σ i' → i.KillsAlike σ i' := by
  intro hclaim
  have hrun : bootTest (fun _ _ => True) blankBoot [callInput 1 (fun _ => 0) blankHeap] fun σ =>
      decide ((σ.pcbs σ.current).stack = some 0 ∧
        (killInput 2 0 fun _ => 0).call σ = some .kill ∧
        (∃ p, p ∉ (σ.queues .pcbAvail).members ∧ (σ.pcbs p).pid.host = σ.localMac ∧
          (σ.pcbs p).pid.id = (killInput 2 0 fun _ => 0).pidArgument σ) ∧
        (σ.enter (killInput 2 0 fun _ => 0xC0FFEE).user).killTarget = none) := by
    decide +kernel
  obtain ⟨σ₀, tr, σ, hboot, hany, -, htest⟩ := bootTest_run hrun
  obtain ⟨hstack, hcall, ⟨p, hp, hhost, hid⟩, hmiss⟩ := of_decide_eq_true htest
  have halike := hclaim _ _ _ _ _ (killInput 2 0 fun _ => 0xC0FFEE) hboot hany hcall
    (killInput_agrees _ _ hstack)
  have hmarks := (halike.found p hp hhost hid).2
  rw [Input.Marks, hmiss] at hmarks
  cases hmarks.1

end Cumulonimbus
