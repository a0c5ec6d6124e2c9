import Cumulonimbus.RemovalsByPid
import Cumulonimbus.Ownership

/-!
# What a fork does

`_sys_fork` takes a PCB and a stack, copies the stack of its caller and moves the pointers in
the copy of the saved context, which lies in the stack (`sysFork_forks`).  Without a PCB it leaves
everything as it was but for `eax` (`sysFork_full`).  In a reachable state a free PCB means a free
stack, and the next pid is nobody's (`run_forkable`), so there is no third case.
-/

namespace Cumulonimbus

open Exec

variable {σ σ₀ τ : State} {a : Life} {b : Boot} {tr : List (State × Input)} {c p : PcbId}
  {s s₀ : StackId} {ctx : Nat}

/-! ## What the child is -/

/-- Word `k` of a copy of the stack `s₀` in `s`: the saved context lies at `ctx`, and its
`esp` and `ebp` are moved by the distance of the two stacks. -/
def State.shiftedWord (σ : State) (s₀ s : StackId) (ctx k : Nat) : UInt32 :=
  if k = ctx + ctxEsp ∨ k = ctx + ctxEbp then
    σ.stackMem s₀ k + (σ.stackAddr s - σ.stackAddr s₀)
  else σ.stackMem s₀ k

/-- The same in the child, for which `fork` returns 0. -/
def State.childWord (σ : State) (s₀ s : StackId) (ctx k : Nat) : UInt32 :=
  if k = ctx + ctxEax then 0 else σ.shiftedWord s₀ s ctx k

/-- The PCB of the child. -/
def State.childPcb (σ : State) (c : PcbId) (s : StackId) : Pcb :=
  { σ.pcbs c with
    context := (σ.pcbs σ.current).context
    stack := some s
    pid := ⟨σ.nextPid.id, σ.localMac, 0⟩
    ppid := (σ.pcbs σ.current).pid
    state := .ready
    prio := (σ.pcbs σ.current).prio
    screen := (σ.pcbs σ.current).screen }

/-- `τ` is `σ` with the PCB `pcb` for the child `c` on the stack `s`, but for what is on the
stacks. -/
structure Adopts (σ : State) (c : PcbId) (pcb : Pcb) (s : StackId) (τ : State) : Prop where
  pcbs : τ.pcbs = Function.update σ.pcbs c pcb
  pcbAvail : ∃ key, (σ.queues .pcbAvail).items = (key, c) :: (τ.queues .pcbAvail).items
  stackAvail : ∃ key, σ.stackAvail.items = (key, s) :: τ.stackAvail.items
  ready : (τ.queues (.ready (readyIndex (σ.pcbs σ.current).prio))).items =
    (σ.queues (.ready (readyIndex (σ.pcbs σ.current).prio))).items ++ [(0, c)]
  queues : ∀ X, X ≠ .pcbAvail → X ≠ .ready (readyIndex (σ.pcbs σ.current).prio) →
    τ.queues X = σ.queues X
  nextPid : τ.nextPid = { σ.nextPid with id := σ.nextPid.id + 1 }
  current : τ.current = σ.current
  heap : τ.heap = σ.heap
  sio : τ.sio = σ.sio
  time : τ.systemTime = σ.systemTime
  wheel : τ.pinwheel = σ.pinwheel ∧ τ.pindex = σ.pindex
  fixed : τ.machine = σ.machine ∧ τ.localMac = σ.localMac

/-- `τ` is `σ` with the child `c` on the stack `s`, for a caller on the stack `s₀`. -/
structure Forks (σ : State) (c : PcbId) (s₀ s : StackId) (τ : State) : Prop extends
    Adopts σ c (σ.childPcb c s) s τ where
  child : ∀ k, k < stackSize →
    τ.stackMem s k = σ.childWord s₀ s ((σ.pcbs σ.current).context.getD 0) k
  caller : τ.stackMem s₀ = Function.update (σ.stackMem s₀)
    ((σ.pcbs σ.current).context.getD 0 + ctxEax) σ.nextPid.id
  others : ∀ t, t ≠ s → t ≠ s₀ → τ.stackMem t = σ.stackMem t

/-! ## The stack -/

/-- A word of a context is stored in its stack. -/
theorem State.setCtxWord_of_stack (hs : (σ.pcbs p).stack = some s) (k : Nat) (v : UInt32) :
    σ.setCtxWord p k v = { σ with
      stackMem := Function.update σ.stackMem s
        (Function.update (σ.stackMem s) ((σ.pcbs p).context.getD 0 + k) v) } := by
  simp [State.setCtxWord, hs]

/-- The child gets a copy of the caller's stack, with the context at the same place. -/
theorem forkStack_copies (hcaller : (σ.pcbs σ.current).stack = some s₀)
    (hchild : (σ.pcbs c).stack = some s) :
    wp (forkStack c s)
      (fun _ τ => ∃ w, (∀ k, k < stackSize →
          w k = σ.shiftedWord s₀ s ((σ.pcbs σ.current).context.getD 0) k) ∧
        τ = { σ with
          pcbs := Function.update σ.pcbs c
            { σ.pcbs c with context := (σ.pcbs σ.current).context }
          stackMem := Function.update σ.stackMem s w }) (fun _ => False) σ := by
  rw [forkStack, wp_bind, wp_get]
  simp only [hcaller]
  rw [wp_bind, wp_modify, wp_bind, modifyPcb, wp_modify, wp_bind, wp_modify, wp_modify]
  simp only [State.setCtxWord, State.ctxWord, Function.update_self, Function.update_idem, hchild]
  refine ⟨_, ?_, rfl⟩
  intro k hk
  have hne : (σ.pcbs σ.current).context.getD 0 + ctxEbp ≠
      (σ.pcbs σ.current).context.getD 0 + ctxEsp := by simp [ctxEbp, ctxEsp]
  rw [State.shiftedWord]
  by_cases hebp : k = (σ.pcbs σ.current).context.getD 0 + ctxEbp
  · subst hebp
    rw [Function.update_self, Function.update_of_ne hne, if_pos hk, if_pos (Or.inr rfl)]
  · rw [Function.update_of_ne hebp]
    by_cases hesp : k = (σ.pcbs σ.current).context.getD 0 + ctxEsp
    · subst hesp
      rw [Function.update_self, if_pos hk, if_pos (Or.inl rfl)]
    · rw [Function.update_of_ne hesp, if_pos hk, if_neg (by simp [hebp, hesp])]

/-! ## The child -/

/-- The child's PCB before its stack is filled. -/
def State.adopted (σ : State) (c : PcbId) (s : StackId) : State :=
  { σ with
    nextPid := { σ.nextPid with id := σ.nextPid.id + 1 }
    pcbs := Function.update σ.pcbs c { σ.pcbs c with
      stack := some s
      pid := ⟨σ.nextPid.id, σ.localMac, 0⟩
      ppid := (σ.pcbs σ.current).pid
      prio := (σ.pcbs σ.current).prio
      screen := (σ.pcbs σ.current).screen } }

/-- The child gets its PCB. -/
theorem forkSetup_adopted (hc : σ.current ≠ c) {Q : Unit → State → Prop} {E : Halt → Prop}
    (h : wp (do
      forkStack c s
      setEax c 0
      setEax σ.current σ.nextPid.id
      schedule c (σ.pcbs σ.current).prio) Q E (σ.adopted c s)) : wp (forkSetup c s) Q E σ := by
  rw [forkSetup, wp_bind, pidNext, wp_bind, wp_get, wp_bind, wp_set, wp_pure, wp_bind, modifyPcb,
    wp_modify, wp_bind, wp_get]
  dsimp only
  rw [Function.update_of_ne hc, wp_bind, modifyPcb, wp_modify]
  simpa [State.adopted] using h

/-- The return values are set and the child is scheduled. -/
structure Launched (σ : State) (c : PcbId) (s₀ s : StackId) (v : UInt32) (prio : UInt8)
    (τ : State) : Prop where
  pcbs : τ.pcbs = Function.update σ.pcbs c { σ.pcbs c with state := .ready }
  child : τ.stackMem s = Function.update (σ.stackMem s) ((σ.pcbs c).context.getD 0 + ctxEax) 0
  caller : τ.stackMem s₀ = Function.update (σ.stackMem s₀)
    ((σ.pcbs σ.current).context.getD 0 + ctxEax) v
  others : ∀ t, t ≠ s → t ≠ s₀ → τ.stackMem t = σ.stackMem t
  ready : (τ.queues (.ready (readyIndex prio))).items =
    (σ.queues (.ready (readyIndex prio))).items ++ [(0, c)]
  queues : ∀ X, X ≠ .ready (readyIndex prio) → τ.queues X = σ.queues X
  stackAvail : τ.stackAvail = σ.stackAvail
  nextPid : τ.nextPid = σ.nextPid
  current : τ.current = σ.current
  heap : τ.heap = σ.heap
  sio : τ.sio = σ.sio
  time : τ.systemTime = σ.systemTime
  wheel : τ.pinwheel = σ.pinwheel ∧ τ.pindex = σ.pindex
  fixed : τ.machine = σ.machine ∧ τ.localMac = σ.localMac

/-- The results are stored and the child is scheduled. -/
theorem launch_child (hcaller : (σ.pcbs σ.current).stack = some s₀)
    (hchild : (σ.pcbs c).stack = some s) (hs : s ≠ s₀) {n : Nat} (hpool : σ.qnodes = n + 1)
    (v : UInt32) (prio : UInt8) :
    wp (do
      setEax c 0
      setEax σ.current v
      schedule c prio) (fun _ τ => Launched σ c s₀ s v prio τ) (fun _ => False) σ := by
  rw [wp_bind, setEax, wp_modify, State.setCtxWord_of_stack hchild, wp_bind, setEax, wp_modify]
  rw [State.setCtxWord_of_stack (s := s₀) (by exact hcaller), schedule, setState, wp_bind,
    modifyPcb, wp_modify, qAppend, bind_assoc, wp_bind, wp_get]
  simp only [hpool, Queue.qAppend]
  constructor
  · rfl
  · simp [Function.update_of_ne hs]
  · simp [Function.update_of_ne hs.symm]
  · intro t ht ht'
    simp [Function.update_of_ne ht, Function.update_of_ne ht']
  · simp
  · intro X hX
    exact Function.update_of_ne hX _ _
  · rfl
  · rfl
  · rfl
  · rfl
  · rfl
  · rfl
  · exact ⟨rfl, rfl⟩
  · exact ⟨rfl, rfl⟩

/-- The child as it is before it is scheduled, with the words `w` on its stack. -/
def State.filled (σ : State) (c : PcbId) (s : StackId) (w : Nat → UInt32) : State :=
  { σ.adopted c s with
    pcbs := Function.update σ.pcbs c { σ.childPcb c s with state := (σ.pcbs c).state }
    stackMem := Function.update σ.stackMem s w }

/-- The caller's PCB stays. -/
theorem State.filled_current (hc : σ.current ≠ c) (w : Nat → UInt32) :
    (σ.filled c s w).pcbs σ.current = σ.pcbs σ.current := Function.update_of_ne hc _ _

/-- The child's PCB has its own stack and pids. -/
theorem State.filled_child (w : Nat → UInt32) :
    (σ.filled c s w).pcbs c = { σ.childPcb c s with state := (σ.pcbs c).state } :=
  Function.update_self _ _ _

/-- The child's stack is filled with the words of the caller's, moved where they are saved pointers.
-/
theorem forkStack_filled (hcaller : (σ.pcbs σ.current).stack = some s₀) (hc : σ.current ≠ c) :
    wp (forkStack c s)
      (fun _ τ => ∃ w, (∀ k, k < stackSize →
          w k = σ.shiftedWord s₀ s ((σ.pcbs σ.current).context.getD 0) k) ∧
        τ = σ.filled c s w) (fun _ => False) (σ.adopted c s) := by
  have hsame : (σ.adopted c s).pcbs σ.current = σ.pcbs σ.current := Function.update_of_ne hc _ _
  have hchild : ((σ.adopted c s).pcbs c).stack = some s := by simp [State.adopted]
  refine wp_mono (forkStack_copies (σ := σ.adopted c s) (hsame ▸ hcaller) hchild) ?_
    fun _ he => he
  intro _ τ hpost
  obtain ⟨w, hw, rfl⟩ := hpost
  have hcurrent : (σ.adopted c s).current = σ.current := rfl
  rw [hcurrent, hsame] at hw
  refine ⟨w, hw, ?_⟩
  rw [hcurrent, hsame]
  simp [State.filled, State.adopted, State.childPcb]

/-- What `forkSetup` makes of a state from which PCB and stack have been taken. -/
theorem forkSetup_launched (hcaller : (σ.pcbs σ.current).stack = some s₀) (hc : σ.current ≠ c)
    (hs : s ≠ s₀) {n : Nat} (hpool : σ.qnodes = n + 1) :
    wp (forkSetup c s)
      (fun _ τ => ∃ w, (∀ k, k < stackSize →
          w k = σ.shiftedWord s₀ s ((σ.pcbs σ.current).context.getD 0) k) ∧
        Launched (σ.filled c s w) c s₀ s σ.nextPid.id (σ.pcbs σ.current).prio τ)
      (fun _ => False) σ := by
  refine forkSetup_adopted hc ?_
  refine wp_seq (forkStack_filled hcaller hc) ?_
  intro _ τ hpost
  obtain ⟨w, hw, rfl⟩ := hpost
  have hcaller' : ((σ.filled c s w).pcbs (σ.filled c s w).current).stack = some s₀ :=
    (congrArg Pcb.stack (State.filled_current hc w)).trans hcaller
  have hchild' : ((σ.filled c s w).pcbs c).stack = some s :=
    congrArg Pcb.stack (State.filled_child w)
  refine wp_mono (launch_child hcaller' hchild' hs hpool σ.nextPid.id
    (σ.pcbs σ.current).prio) ?_ fun _ he => he
  intro _ υ hυ
  exact ⟨w, hw, hυ⟩

/-- PCB and stack have been taken off their lists. -/
def State.drawn (σ : State) (pcbs : List (Key × PcbId)) (free : List (Key × StackId)) : State :=
  { σ with
    qnodes := σ.qnodes + 2
    queues := Function.update σ.queues .pcbAvail { σ.queues .pcbAvail with items := pcbs }
    stackAvail := { σ.stackAvail with items := free } }

section Call

variable {key key' : Key} {pcbs : List (Key × PcbId)} {free : List (Key × StackId)}

/-- So the child is a copy of its parent on the stack it was given. -/
theorem Launched.forks {w : Nat → UInt32}
    (hpcbs : (σ.queues .pcbAvail).items = (key, c) :: pcbs)
    (hfree : σ.stackAvail.items = (key', s) :: free) (hc : σ.current ≠ c) (hs : s ≠ s₀)
    (hw : ∀ k, k < stackSize →
      w k = σ.shiftedWord s₀ s ((σ.pcbs σ.current).context.getD 0) k)
    (h : Launched ((σ.drawn pcbs free).filled c s w) c s₀ s σ.nextPid.id
      (σ.pcbs σ.current).prio τ) : Forks σ c s₀ s τ := by
  have hown : ((σ.drawn pcbs free).filled c s w).pcbs σ.current = σ.pcbs σ.current :=
    State.filled_current (σ := σ.drawn pcbs free) hc w
  have hother : ∀ X, X ≠ .pcbAvail →
      ((σ.drawn pcbs free).filled c s w).queues X = σ.queues X :=
    fun X hX => Function.update_of_ne hX _ _
  have havail : (((σ.drawn pcbs free).filled c s w).queues .pcbAvail).items = pcbs := by
    change (Function.update σ.queues .pcbAvail _ _).items = pcbs
    rw [Function.update_self]
  have hadopts : Adopts σ c (σ.childPcb c s) s τ := by
    constructor
    · rw [h.pcbs, State.filled_child]
      exact Function.update_idem ..
    · refine ⟨key, ?_⟩
      rw [h.queues .pcbAvail QName.noConfusion, hpcbs, havail]
    · refine ⟨key', ?_⟩
      rw [h.stackAvail]
      exact hfree
    · rw [h.ready, hother (.ready _) QName.noConfusion]
    · intro X hX hX'
      exact (h.queues X hX').trans (hother X hX)
    · exact h.nextPid
    · exact h.current
    · exact h.heap
    · exact h.sio
    · exact h.time
    · exact h.wheel
    · exact h.fixed
  refine ⟨hadopts, ?_, ?_, ?_⟩
  · intro k hk
    rw [h.child, State.filled_child]
    change Function.update (Function.update σ.stackMem s w s) _ 0 k = _
    rw [Function.update_self, State.childWord]
    by_cases heax : k = (σ.pcbs σ.current).context.getD 0 + ctxEax
    · rw [if_pos heax, heax]
      exact Function.update_self _ _ _
    · rw [if_neg heax]
      exact (Function.update_of_ne heax _ _).trans (hw k hk)
  · refine h.caller.trans ?_
    change Function.update (Function.update σ.stackMem s w s₀)
      ((((σ.drawn pcbs free).filled c s w).pcbs σ.current).context.getD 0 + ctxEax) _ = _
    rw [Function.update_of_ne hs.symm, hown]
  · intro t ht ht'
    exact (h.others t ht ht').trans (Function.update_of_ne ht _ _)

/-- The whole call, where there are a PCB and a stack. -/
theorem sysFork_forks (hpcbs : (σ.queues .pcbAvail).items = (key, c) :: pcbs)
    (hfree : σ.stackAvail.items = (key', s) :: free)
    (hcaller : (σ.pcbs σ.current).stack = some s₀) (hc : σ.current ≠ c) (hs : s ≠ s₀) :
    wp sysFork (fun _ τ => Forks σ c s₀ s τ) (fun _ => False) σ := by
  have hsetup : wp (forkSetup c s) (fun _ τ => Forks σ c s₀ s τ) (fun _ => False)
      (σ.drawn pcbs free) := by
    refine wp_mono (forkSetup_launched (σ := σ.drawn pcbs free) hcaller hc hs
      (n := σ.qnodes + 1) rfl) ?_ fun _ he => he
    intro _ τ hpost
    obtain ⟨w, hw, hτ⟩ := hpost
    exact hτ.forks hpcbs hfree hc hs hw
  have hpcb : (σ.queues .pcbAvail).qRemove σ.qnodes =
      .ok (c, σ.qnodes + 1, { σ.queues .pcbAvail with items := pcbs }) := by
    simp [Queue.qRemove, hpcbs]
  have hstack : σ.stackAvail.qRemove (σ.qnodes + 1) =
      .ok (s, σ.qnodes + 2, { σ.stackAvail with items := free }) := by
    simp [Queue.qRemove, hfree]
  rw [sysFork, wp_bind, wp_get, pcbAlloc, qRemove, bind_assoc, wp_bind, wp_get, hpcb]
  dsimp only
  rw [bind_assoc, wp_bind, wp_set, pure_bind]
  dsimp only
  rw [stackAlloc, bind_assoc, wp_bind, wp_get]
  dsimp only
  rw [hstack]
  dsimp only
  rw [bind_assoc, wp_bind, wp_set, pure_bind]
  exact hsetup

end Call

/-- The whole call, where there is no PCB. -/
theorem sysFork_full (hpcbs : (σ.queues .pcbAvail).items = []) :
    sysFork σ = .ok ((), σ.setCtxWord σ.current ctxEax (-1)) := by
  have hpcb : (σ.queues .pcbAvail).qRemove σ.qnodes = .error .empty := by
    simp [Queue.qRemove, hpcbs]
  have hwp : wp sysFork (fun _ τ => τ = σ.setCtxWord σ.current ctxEax (-1)) (fun _ => False) σ := by
    rw [sysFork, wp_bind, wp_get, pcbAlloc, qRemove, bind_assoc, wp_bind, wp_get, hpcb]
    rfl
  obtain ⟨_, τ, hτ, rfl⟩ := wp_returns hwp
  exact hτ

/-! ## In a reachable state -/

/-- A PCB and a stack for a child, on other stacks than the caller's, and a pid that is
nobody's. -/
structure Forkable (σ : State) (c : PcbId) (pcbs : List (Key × PcbId)) (s : StackId)
    (free : List (Key × StackId)) (s₀ : StackId) : Prop where
  pcb : ∃ key, (σ.queues .pcbAvail).items = (key, c) :: pcbs
  stack : ∃ key, σ.stackAvail.items = (key, s) :: free
  caller : (σ.pcbs σ.current).stack = some s₀
  other : σ.current ≠ c
  apart : s ≠ s₀
  fresh : ∀ p, p ∉ (σ.queues .pcbAvail).members → (σ.pcbs p).pid.id ≠ σ.nextPid.id

/-- **A free PCB is enough for a child**, as long as fewer than `2 ^ 32 - 1` pids have been handed
out. -/
theorem run_forkable (boot : BootState b σ₀) (run : AnyRun σ₀ tr σ)
    (few : handedOut tr < 2 ^ 32 - 1) (hsome : (σ.queues .pcbAvail).items ≠ []) :
    ∃ c pcbs s free s₀, Forkable σ c pcbs s free s₀ := by
  obtain ⟨a, hrel, -, hrest, -, hcounted⟩ := run_counted boot run few
  obtain ⟨howned, -⟩ := stacks_owned boot run
  obtain ⟨⟨key, c⟩, pcbs, hpcbs⟩ := List.exists_cons_of_ne_nil hsome
  have hlen : 0 < σ.stackAvail.items.length := by
    rw [← howned.counts, hpcbs]
    exact Nat.succ_pos _
  obtain ⟨⟨key', s⟩, free, hfree⟩ := List.exists_cons_of_length_pos hlen
  have hcurrent : σ.current ∉ (σ.queues .pcbAvail).members := by
    rw [← hrel.free_iff]
    exact hrest.1.not_free
  have hchild : c ∈ (σ.queues .pcbAvail).members := by simp [Queue.members, hpcbs]
  have hstack : s ∈ σ.stackAvail.members := by simp [Queue.members, hfree]
  obtain ⟨s₀, hs₀, hheld⟩ := howned.owned _ hcurrent
  refine ⟨c, pcbs, s, free, s₀, ⟨key, hpcbs⟩, ⟨key', hfree⟩, hs₀, fun h => hcurrent (h ▸ hchild),
    fun h => hheld (h ▸ hstack), ?_⟩
  intro p hp hsame
  have hlt := hcounted.below p ((hrel.free_iff p).not.mpr hp)
  rw [← hrel.pid, hsame, hrel.nextPid] at hlt
  exact Nat.lt_irrefl _ hlt

end Cumulonimbus
