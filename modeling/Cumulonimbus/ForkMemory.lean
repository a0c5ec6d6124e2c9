import Cumulonimbus.ByteMemory
import Cumulonimbus.Fork

/-!
# A fork in memory

`_sys_fork` as it works on memory.  A saved context is wherever its pointer says.  The call copies
the stack of its caller and moves the pointer to the saved context by the distance of the two
stacks, so the child has a copy of the context of its own if the context of the caller lies in the
caller's stack, and only then (`fork_duplicates_iff`).

The comment in the source tells how it can lie elsewhere: the chain of frame pointers in the copied
stack is not corrected, so a child that returns goes on on the stack of its parent.  If that child
forks, the context of the new process lies in a stack that is not its own
(`fork_on_the_parents_stack`).
-/

namespace Cumulonimbus.ForkMemory

open Exec ByteMemory

/-- `sizeof(stack_t)` -/
def stackBytes : Nat := 4 * stackSize

/-- `sizeof(context_t)` -/
def contextBytes : Nat := 4 * contextWords

/-- The address of the longword `k` of a `context_t`. -/
def member (context : UInt32) (k : Nat) : UInt32 := context + UInt32.ofNat (4 * k)

/-- The variables of the kernel, memory, and the `context` members of the PCBs.  The stacks and
contexts in `kernel` are not looked at. -/
structure System where
  kernel : State
  mem : Memory
  context : PcbId → UInt32

abbrev Routine (α : Type) := Prog System Halt α

/-- A routine that uses the variables of the kernel only. -/
def onKernel {α : Type} (x : Kernel α) : Routine α :=
  zoom System.kernel (fun σ r => { r with kernel := σ }) x

/-- A store into a `context_t`. -/
def setMember (context : UInt32) (k : Nat) (v : UInt32) : Routine Unit :=
  modify fun r => { r with mem := store32 r.mem (member context k) v }

def addMember (context : UInt32) (k : Nat) (v : UInt32) : Routine Unit := do
  let r ← get
  setMember context k (load32 r.mem (member context k) + v)

/-- The `stack` member of a PCB. -/
def System.stack (r : System) (p : PcbId) : UInt32 :=
  match (r.kernel.pcbs p).stack with
  | some s => r.kernel.stackAddr s
  | none => 0

/-! ## The call -/

/-- Copy the stack at `from_` to `stack`, and move the pointer to the saved context and the two
pointers in it by the distance of the stacks. -/
def relocate (pcb : PcbId) (from_ stack : UInt32) : Routine Unit := do
  modify fun r => { r with mem := copyBytes r.mem stack from_ stackBytes }
  let r ← get
  let offset := stack - from_
  let child := r.context r.kernel.current + offset
  modify fun r => { r with context := Function.update r.context pcb child }
  addMember child ctxEsp offset
  addMember child ctxEbp offset

/-- Set up the child's PCB. -/
def adopt (pcb : PcbId) (stack : StackId) : Kernel Unit := do
  let pid ← pidNext
  modifyPcb pcb fun x => { x with pid := pid }
  let σ ← get
  let parent := σ.pcbs σ.current
  modifyPcb pcb fun x => { x with
    ppid := parent.pid, prio := parent.prio, stack := some stack, screen := parent.screen }

/-- Make the child, once PCB and stack have been taken. -/
def forkSetup (context : UInt32) (pcb : PcbId) (stack : StackId) : Routine Unit := do
  onKernel (adopt pcb stack)
  let r ← get
  relocate pcb (r.stack r.kernel.current) (r.stack pcb)
  let r ← get
  setMember (r.context pcb) ctxEax 0
  setMember context ctxEax (r.kernel.pcbs pcb).pid.id
  onKernel (schedule pcb (r.kernel.pcbs pcb).prio)

/-- Create a new process; -1 in `eax` on failure. -/
def sysFork (context : UInt32) : Routine Unit := do
  match ← onKernel pcbAlloc with
  | .error _ => setMember context ctxEax (-1)
  | .ok pcb =>
    match ← onKernel stackAlloc with
    | .error _ =>
      let stat ← onKernel (pcbFree pcb)
      onKernel (check "_sys_fork" "free pcb status %s" stat)
      setMember context ctxEax (-1)
    | .ok stack => forkSetup context pcb stack

/-- The call as `_isr_syscall` makes it, with `_current->context`. -/
def isrFork (r : System) : Except Halt (Unit × System) :=
  sysFork (r.context r.kernel.current) r

/-! ## What it does -/

variable {r r' : System} {c : PcbId} {s s₀ : StackId} {context : UInt32}

/-- Memory with the stack at `src` copied to `dst`, and the pointers of the saved context in the
copy moved. -/
def relocated (m : Memory) (dst src context : UInt32) : Memory :=
  let child := context + (dst - src)
  let m := copyBytes m dst src stackBytes
  let m := store32 m (member child ctxEsp) (load32 m (member child ctxEsp) + (dst - src))
  store32 m (member child ctxEbp) (load32 m (member child ctxEbp) + (dst - src))

/-- Memory after a fork, with the return values of child and caller. -/
def forkedMem (m : Memory) (dst src caller context id : UInt32) : Memory :=
  store32 (store32 (relocated m dst src caller) (member (caller + (dst - src)) ctxEax) 0)
    (member context ctxEax) id

/-- The loop moves the two saved pointers, and what is on the chain of frames. -/
theorem wp_relocate {src dst : UInt32} {Q : Unit → System → Prop} {E : Halt → Prop} :
    wp (relocate c src dst) Q E r ↔ Q () { r with
      mem := relocated r.mem dst src (r.context r.kernel.current)
      context := Function.update r.context c
        (r.context r.kernel.current + (dst - src)) } := Iff.rfl

/-- The child's PCB, without its saved context. -/
def childPcb (σ : State) (c : PcbId) (s : StackId) : Pcb :=
  { σ.childPcb c s with context := (σ.pcbs c).context }

/-- The kernel with the child in a ready queue, once PCB and stack have been taken. -/
def launched (σ : State) (c : PcbId) (s : StackId) : State :=
  let i := readyIndex (σ.pcbs σ.current).prio
  { σ with
    qnodes := σ.qnodes - 1
    nextPid := { σ.nextPid with id := σ.nextPid.id + 1 }
    pcbs := Function.update σ.pcbs c (childPcb σ c s)
    queues := Function.update σ.queues (.ready i)
      { σ.queues (.ready i) with items := (σ.queues (.ready i)).items ++ [(0, c)] } }

/-- What a fork makes of `r`: the kernel `σ`, and memory with the copy. -/
def System.forked (r : System) (c : PcbId) (s₀ s : StackId) (context : UInt32) (σ : State) :
    System where
  kernel := σ
  mem := forkedMem r.mem (r.kernel.stackAddr s) (r.kernel.stackAddr s₀)
    (r.context r.kernel.current) context r.kernel.nextPid.id
  context := Function.update r.context c
    (r.context r.kernel.current + (r.kernel.stackAddr s - r.kernel.stackAddr s₀))

@[simp] theorem System.forked_context {σ : State} :
    (r.forked c s₀ s context σ).context c =
      r.context r.kernel.current + (r.kernel.stackAddr s - r.kernel.stackAddr s₀) :=
  Function.update_self ..

/-- The child gets its PCB. -/
theorem adopt_adopted {σ : State} (hc : σ.current ≠ c) :
    wp (adopt c s) (fun _ τ => τ = σ.adopted c s) (fun _ => False) σ := by
  rw [adopt, wp_bind, pidNext, wp_bind, wp_get, wp_bind, wp_set, wp_pure, wp_bind, modifyPcb,
    wp_modify, wp_bind, wp_get]
  dsimp only
  rw [Function.update_of_ne hc, modifyPcb, wp_modify]
  simp [State.adopted]

/-- The child is scheduled. -/
theorem schedule_launched {σ : State} {n : Nat} (hpool : σ.qnodes = n + 1) :
    wp (schedule c ((σ.adopted c s).pcbs c).prio) (fun _ τ => τ = launched σ c s) (fun _ => False)
      (σ.adopted c s) := by
  rw [schedule, setState, wp_bind, modifyPcb, wp_modify, qAppend, bind_assoc, wp_bind, wp_get]
  simp [State.adopted, hpool, Queue.qAppend, launched, childPcb, State.childPcb, check]

/-- Everything that `fork` does on memory. -/
theorem forkSetup_forked (hcaller : (r.kernel.pcbs r.kernel.current).stack = some s₀)
    (hc : r.kernel.current ≠ c) {n : Nat} (hpool : r.kernel.qnodes = n + 1) :
    wp (forkSetup context c s) (fun _ r' => r' = r.forked c s₀ s context (launched r.kernel c s))
      (fun _ => False) r := by
  rw [forkSetup, wp_bind, onKernel, wp_zoom]
  refine wp_mono (adopt_adopted hc) ?_ fun _ he => he
  rintro - _ rfl
  have hfrom : System.stack { r with kernel := r.kernel.adopted c s } r.kernel.current =
      r.kernel.stackAddr s₀ := by
    have hown : ((r.kernel.adopted c s).pcbs r.kernel.current).stack = some s₀ := by
      simp [State.adopted, Function.update_of_ne hc, hcaller]
    rw [System.stack, hown]
    rfl
  have hto : System.stack { r with kernel := r.kernel.adopted c s } c = r.kernel.stackAddr s := by
    have hown : ((r.kernel.adopted c s).pcbs c).stack = some s := by simp [State.adopted]
    rw [System.stack, hown]
    rfl
  have hpid : ((r.kernel.adopted c s).pcbs c).pid.id = r.kernel.nextPid.id := by
    simp [State.adopted]
  have hcurrent : (r.kernel.adopted c s).current = r.kernel.current := rfl
  rw [wp_bind, wp_get, wp_bind, wp_relocate, wp_bind, wp_get]
  dsimp only
  rw [hcurrent, hfrom, hto, hpid, Function.update_self, wp_bind, setMember, wp_modify, wp_bind,
    setMember, wp_modify, onKernel, wp_zoom]
  refine wp_mono (schedule_launched hpool) ?_ fun _ he => he
  rintro - _ rfl
  rfl

/-- **A fork that finds a PCB and a stack.** -/
theorem sysFork_forked (context : UInt32) {pcbs : List (Key × PcbId)} {free : List (Key × StackId)}
    (h : Forkable r.kernel c pcbs s free s₀) :
    wp (sysFork context) (fun _ r' => r' =
        r.forked c s₀ s context (launched (r.kernel.drawn pcbs free) c s))
      (fun _ => False) r := by
  obtain ⟨⟨key, hpcbs⟩, ⟨key', hfree⟩, hcaller, hother, -, -⟩ := h
  have hpcb : (r.kernel.queues .pcbAvail).qRemove r.kernel.qnodes =
      .ok (c, r.kernel.qnodes + 1, { r.kernel.queues .pcbAvail with items := pcbs }) := by
    simp [Queue.qRemove, hpcbs]
  have hstack : r.kernel.stackAvail.qRemove (r.kernel.qnodes + 1) =
      .ok (s, r.kernel.qnodes + 2, { r.kernel.stackAvail with items := free }) := by
    simp [Queue.qRemove, hfree]
  rw [sysFork, wp_bind, onKernel, wp_zoom, pcbAlloc, qRemove, wp_bind, wp_get, hpcb]
  dsimp only
  rw [wp_bind, wp_set, wp_pure]
  dsimp only
  rw [wp_bind, onKernel, wp_zoom, stackAlloc, wp_bind, wp_get]
  dsimp only
  rw [hstack]
  dsimp only
  rw [wp_bind, wp_set, wp_pure]
  exact forkSetup_forked (r := { r with kernel := r.kernel.drawn pcbs free }) hcaller hother
    (n := r.kernel.qnodes + 1) rfl

/-- Where there is no PCB. -/
theorem sysFork_full (hpcbs : (r.kernel.queues .pcbAvail).items = []) :
    sysFork context r = .ok ((), { r with mem := store32 r.mem (member context ctxEax) (-1) }) := by
  have hpcb : (r.kernel.queues .pcbAvail).qRemove r.kernel.qnodes = .error .empty := by
    simp [Queue.qRemove, hpcbs]
  have hwp : wp (sysFork context)
      (fun _ r' => r' = { r with mem := store32 r.mem (member context ctxEax) (-1) })
      (fun _ => False) r := by
    rw [sysFork, wp_bind, onKernel, wp_zoom, pcbAlloc, qRemove, wp_bind, wp_get, hpcb]
    rfl
  obtain ⟨_, r', hr', rfl⟩ := wp_returns hwp
  exact hr'

/-- The kernel's part: the child, and nothing else. -/
theorem launched_adopts {σ : State} {pcbs : List (Key × PcbId)} {free : List (Key × StackId)}
    (h : Forkable σ c pcbs s free s₀) :
    Adopts σ c (childPcb σ c s) s (launched (σ.drawn pcbs free) c s) := by
  obtain ⟨⟨key, hpcbs⟩, ⟨key', hfree⟩, -, -, -, -⟩ := h
  constructor
  · rfl
  · exact ⟨key, by simp [launched, State.drawn, hpcbs]⟩
  · exact ⟨key', hfree⟩
  · simp [launched, State.drawn]
  · intro X hX hX'
    exact (Function.update_of_ne hX' _ _).trans (Function.update_of_ne hX _ _)
  · rfl
  · rfl
  · rfl
  · rfl
  · rfl
  · exact ⟨rfl, rfl⟩
  · exact ⟨rfl, rfl⟩

/-! ## Memory -/

section Memory

variable {m : Memory} {dst src : UInt32} {d k : Nat} {id : UInt32}

/-- A member of a context that lies `d` bytes into a stack. -/
theorem member_eq (a : UInt32) : member (a + UInt32.ofNat d) k = a + UInt32.ofNat (d + 4 * k) := by
  rw [member, UInt32.ofNat_add, UInt32.add_assoc]

/-- The context in the copy lies as far into its stack. -/
theorem moved_eq : src + UInt32.ofNat d + (dst - src) = dst + UInt32.ofNat d := by
  rw [UInt32.add_comm src, UInt32.add_assoc, UInt32.add_comm src, UInt32.sub_add_cancel,
    UInt32.add_comm]

/-- What a fork makes of memory, if the context lies in the caller's stack. -/
structure Copied (m : Memory) (dst src : UInt32) (d : Nat) (id : UInt32) (m' : Memory) : Prop where
  bytes : ∀ x, Within dst stackBytes x →
    (∀ k, k = ctxEbp ∨ k = ctxEsp ∨ k = ctxEax →
      ¬ Within (dst + UInt32.ofNat (d + 4 * k)) 4 x) → m' x = m (src + (x - dst))
  pointers : ∀ k, k = ctxEsp ∨ k = ctxEbp →
    load32 m' (dst + UInt32.ofNat (d + 4 * k)) =
      load32 m (src + UInt32.ofNat (d + 4 * k)) + (dst - src)
  eax : load32 m' (dst + UInt32.ofNat (d + 4 * ctxEax)) = 0
  caller : load32 m' (src + UInt32.ofNat (d + 4 * ctxEax)) = id
  others : ∀ x, ¬ Within dst stackBytes x → ¬ Within (src + UInt32.ofNat (d + 4 * ctxEax)) 4 x →
    m' x = m x

/-- With the context in the caller's own stack the child's stack is a copy. -/
theorem forkedMem_copied (apart : Apart dst stackBytes src stackBytes)
    (hd : d + contextBytes ≤ stackBytes) :
    Copied m dst src d id
      (forkedMem m dst src (src + UInt32.ofNat d) (src + UInt32.ofNat d) id) := by
  have hsize : stackBytes = 262144 := rfl
  have hcontext : contextBytes = 196 := rfl
  have hebp : 4 * ctxEbp = 44 := rfl
  have hesp : 4 * ctxEsp = 48 := rfl
  have heax : 4 * ctxEax = 64 := rfl
  rw [forkedMem, relocated, moved_eq]
  rw [member_eq, member_eq, member_eq, member_eq, hebp, hesp, heax]
  -- the words of the child are apart from each other, and from the word of the caller
  have hword : ∀ {i j : Nat}, i + 4 ≤ j → j + 4 ≤ stackBytes →
      Apart (dst + UInt32.ofNat i) 4 (dst + UInt32.ofNat j) 4 := fun hij hj =>
    apart_parts hij (by omega)
  have hcaller : ∀ {i : Nat}, i + 4 ≤ stackBytes →
      Apart (dst + UInt32.ofNat i) 4 (src + UInt32.ofNat (d + 64)) 4 := fun hi =>
    ((apart.part hi (by omega)).symm.part (by omega) (by omega)).symm
  have hcopy : ∀ {j : Nat}, j + 4 ≤ stackBytes →
      load32 (copyBytes m dst src stackBytes) (dst + UInt32.ofNat j) =
        load32 m (src + UInt32.ofNat j) := fun hj => load32_copyBytes apart (by omega) hj
  have hoverwritten : load32 (store32 (copyBytes m dst src stackBytes)
      (dst + UInt32.ofNat (d + 48)) (load32 m (src + UInt32.ofNat (d + 48)) + (dst - src)))
      (dst + UInt32.ofNat (d + 44)) = load32 m (src + UInt32.ofNat (d + 44)) := by
    rw [load32_store32_of_apart (hword (by omega) (by omega)), hcopy (by omega)]
  rw [hcopy (by omega), hoverwritten]
  constructor
  case bytes =>
    intro x hx hwords
    have hout : ¬ Within (src + UInt32.ofNat (d + 64)) 4 x := fun h =>
      apart x hx (h.of_part (by omega) (by omega))
    have hout_eax : ¬ Within (dst + UInt32.ofNat (d + 64)) 4 x := hwords ctxEax (.inr (.inr rfl))
    have hout_ebp : ¬ Within (dst + UInt32.ofNat (d + 44)) 4 x := hwords ctxEbp (.inl rfl)
    have hout_esp : ¬ Within (dst + UInt32.ofNat (d + 48)) 4 x := hwords ctxEsp (.inr (.inl rfl))
    rw [store32_apply hout, store32_apply hout_eax, store32_apply hout_ebp,
      store32_apply hout_esp, copyBytes_apply apart (by omega), if_pos hx]
  case pointers =>
    rintro k (rfl | rfl)
    · rw [hesp, load32_store32_of_apart (hcaller (by omega)),
        load32_store32_of_apart (hword (by omega) (by omega)),
        load32_store32_of_apart (hword (by omega) (by omega)).symm, load32_store32]
    · rw [hebp, load32_store32_of_apart (hcaller (by omega)),
        load32_store32_of_apart (hword (by omega) (by omega)), load32_store32]
  case eax =>
    rw [heax, load32_store32_of_apart (hcaller (by omega)), load32_store32]
  case caller => rw [heax, load32_store32]
  case others =>
    intro x hx hvalue
    have hout : ∀ {j : Nat}, j + 4 ≤ stackBytes → ¬ Within (dst + UInt32.ofNat j) 4 x :=
      fun hj h => hx (h.of_part hj (by omega))
    rw [heax] at hvalue
    rw [store32_apply hvalue, store32_apply (hout (by omega)), store32_apply (hout (by omega)),
      store32_apply (hout (by omega)), copyBytes_apply apart (by omega), if_neg hx]

end Memory

/-! ## All of a fork or nothing -/

/-- The saved context of `p` lies in the stack `s`. -/
def System.ContextIn (r : System) (p : PcbId) (s : StackId) : Prop :=
  (r.context p - r.kernel.stackAddr s).toNat + contextBytes ≤ stackBytes

/-- What is asked of a call that makes the child `c` on the stack `s` for a caller on `s₀`.  The
child is new, in a ready queue, and its pid is nobody's.  Its saved context lies in its own stack,
as far from the start as the caller's does, and the two stacks are alike but for `eax` and the two
pointers, which point into the one stack as they did into the other.  The caller's `eax` becomes
the pid of the child, and no other byte of memory changes. -/
structure Duplicates (r : System) (c : PcbId) (s₀ s : StackId) (r' : System) : Prop extends
    Adopts r.kernel c (childPcb r.kernel c s) s r'.kernel where
  caller_stack : (r.kernel.pcbs r.kernel.current).stack = some s₀
  stack_free : s ∈ r.kernel.stackAvail.members
  child_free : c ∈ (r.kernel.queues .pcbAvail).members
  child_new : c ≠ r.kernel.current
  pid_new : ∀ p, p ∉ (r.kernel.queues .pcbAvail).members →
    (r'.kernel.pcbs c).pid.id ≠ (r'.kernel.pcbs p).pid.id
  prio : (readyIndex (r.kernel.pcbs r.kernel.current).prio).val =
    min (r.kernel.pcbs r.kernel.current).prio.toNat 3
  inside : r'.ContextIn c s
  place : r'.context c - r.kernel.stackAddr s =
    r.context r.kernel.current - r.kernel.stackAddr s₀
  contexts : ∀ p, p ≠ c → r'.context p = r.context p
  bytes : ∀ x, Within (r.kernel.stackAddr s) stackBytes x →
    (∀ k, k = ctxEbp ∨ k = ctxEsp ∨ k = ctxEax → ¬ Within (member (r'.context c) k) 4 x) →
    r'.mem x = r.mem (r.kernel.stackAddr s₀ + (x - r.kernel.stackAddr s))
  pointers : ∀ k, k = ctxEsp ∨ k = ctxEbp → load32 r'.mem (member (r'.context c) k) =
    load32 r.mem (member (r.context r.kernel.current) k) +
      (r.kernel.stackAddr s - r.kernel.stackAddr s₀)
  eax : load32 r'.mem (member (r'.context c) ctxEax) = 0
  caller : load32 r'.mem (member (r.context r.kernel.current) ctxEax) = (r'.kernel.pcbs c).pid.id
  others : ∀ x, ¬ Within (r.kernel.stackAddr s) stackBytes x →
    ¬ Within (member (r.context r.kernel.current) ctxEax) 4 x → r'.mem x = r.mem x

/-- A pointer into the caller's stack becomes the same offset in the child's. -/
theorem Duplicates.pointer (h : Duplicates r c s₀ s r') {k : Nat} (hk : k = ctxEsp ∨ k = ctxEbp)
    {e : UInt32} (he : load32 r.mem (member (r.context r.kernel.current) k) =
      r.kernel.stackAddr s₀ + e) :
    load32 r'.mem (member (r'.context c) k) = r.kernel.stackAddr s + e := by
  rw [h.pointers k hk, he, UInt32.add_comm (r.kernel.stackAddr s₀), UInt32.add_assoc,
    UInt32.add_comm (r.kernel.stackAddr s₀), UInt32.sub_add_cancel, UInt32.add_comm]

/-- With a free PCB the call makes a child, and without one it only stores -1 into `eax`. -/
def ForksWell (r : System) : Prop :=
  ((r.kernel.queues .pcbAvail).items ≠ [] →
    ∃ c s₀ s r', isrFork r = .ok ((), r') ∧ Duplicates r c s₀ s r') ∧
  ((r.kernel.queues .pcbAvail).items = [] → isrFork r = .ok ((), { r with
    mem := store32 r.mem (member (r.context r.kernel.current) ctxEax) (-1) }))

/-- The caller's saved context lies in the caller's stack. -/
def System.OwnContext (r : System) : Prop :=
  ∀ s, (r.kernel.pcbs r.kernel.current).stack = some s → r.ContextIn r.kernel.current s

/-- The index of a ready queue. -/
theorem readyIndex_val (prio : UInt8) : (readyIndex prio).val = min prio.toNat 3 := by
  rw [readyIndex]
  split
  next h =>
    have hle : prio.toNat ≤ 3 := Nat.le_of_lt_succ h
    exact (Nat.min_eq_left hle).symm
  next h =>
    have hge : 3 ≤ prio.toNat := Nat.le_of_succ_le (Nat.not_lt.mp h)
    exact (Nat.min_eq_right hge).symm

/-- Two stacks have no byte in common. -/
theorem stacks_apart {σ : State} (hs : s ≠ s₀) :
    Apart (σ.stackAddr s) stackBytes (σ.stackAddr s₀) stackBytes := by
  have hsize : stackBytes = 4 * stackSize := rfl
  have hfits (t : StackId) : 4 * stackSize * t + stackBytes ≤ 2 ^ 32 := by
    have ht : t.val < 30 := t.isLt
    show 262144 * t.val + 262144 ≤ 2 ^ 32
    omega
  rcases Nat.lt_or_gt_of_ne (Fin.val_ne_of_ne hs) with hlt | hgt
  · refine apart_parts ?_ (hfits s₀)
    rw [hsize, ← Nat.mul_succ]
    exact Nat.mul_le_mul_left _ hlt
  · refine (apart_parts ?_ (hfits s)).symm
    rw [hsize, ← Nat.mul_succ]
    exact Nat.mul_le_mul_left _ hgt

/-- A child whose context lies `d` bytes into its stack. -/
theorem Copied.duplicates {pcbs : List (Key × PcbId)} {free : List (Key × StackId)} {d : Nat}
    (h : Forkable r.kernel c pcbs s free s₀)
    (adopts : Adopts r.kernel c (childPcb r.kernel c s) s r'.kernel)
    (copied : Copied r.mem (r.kernel.stackAddr s) (r.kernel.stackAddr s₀) d r.kernel.nextPid.id
      r'.mem)
    (hd : d + contextBytes ≤ stackBytes)
    (hcontext : r.context r.kernel.current = r.kernel.stackAddr s₀ + UInt32.ofNat d)
    (hmoved : r'.context c = r.kernel.stackAddr s + UInt32.ofNat d)
    (hothers : ∀ p, p ≠ c → r'.context p = r.context p) : Duplicates r c s₀ s r' := by
  obtain ⟨⟨key, hpcbs⟩, ⟨key', hfree⟩, hcaller, hother, hapart, hfresh⟩ := h
  have hchild : c ∈ (r.kernel.queues .pcbAvail).members := by simp [Queue.members, hpcbs]
  have hstack : s ∈ r.kernel.stackAvail.members := by simp [Queue.members, hfree]
  have hpid : (r'.kernel.pcbs c).pid.id = r.kernel.nextPid.id := by
    rw [adopts.pcbs, Function.update_self]
    rfl
  have hsmall : d < 2 ^ 32 := by
    have hsize : stackBytes = 262144 := rfl
    omega
  refine ⟨adopts, hcaller, hstack, hchild, hother.symm, ?_, readyIndex_val _, ?_, ?_, hothers,
    ?_, ?_, ?_, ?_, ?_⟩
  · -- the pid of the child is nobody's
    intro p hp
    have hpc : p ≠ c := fun heq => hp (heq ▸ hchild)
    rw [hpid, adopts.pcbs, Function.update_of_ne hpc]
    exact (hfresh p hp).symm
  · have hbase : r'.kernel.stackAddr s = r.kernel.stackAddr s := by
      rw [State.stackAddr, State.stackAddr, adopts.fixed.1]
    rw [System.ContextIn, hbase, hmoved, offset_toNat hsmall]
    exact hd
  · rw [hmoved, hcontext, UInt32.add_comm, UInt32.add_sub_cancel,
      UInt32.add_comm (r.kernel.stackAddr s₀), UInt32.add_sub_cancel]
  · intro x hx hwords
    refine copied.bytes x hx fun k hk => ?_
    have hword := hwords k hk
    rwa [hmoved, member_eq] at hword
  · intro k hk
    rw [hmoved, hcontext, member_eq, member_eq]
    exact copied.pointers k hk
  · rw [hmoved, member_eq]
    exact copied.eax
  · rw [hcontext, member_eq, hpid]
    exact copied.caller
  · intro x hx hvalue
    rw [hcontext, member_eq] at hvalue
    exact copied.others x hx hvalue

/-- The child of a caller whose context lies in its own stack. -/
theorem forked_duplicates {pcbs : List (Key × PcbId)} {free : List (Key × StackId)}
    (h : Forkable r.kernel c pcbs s free s₀) (own : r.OwnContext) :
    Duplicates r c s₀ s (r.forked c s₀ s (r.context r.kernel.current)
      (launched (r.kernel.drawn pcbs free) c s)) := by
  -- the distance of the context from the start of the stack
  obtain ⟨d, hd, hcontext⟩ : ∃ d, d + contextBytes ≤ stackBytes ∧
      r.context r.kernel.current = r.kernel.stackAddr s₀ + UInt32.ofNat d := by
    refine ⟨_, own s₀ h.caller, ?_⟩
    rw [UInt32.ofNat_toNat, UInt32.add_comm, UInt32.sub_add_cancel]
  refine Copied.duplicates h (launched_adopts h) ?_ hd hcontext ?_ fun p hp => ?_
  · rw [System.forked, hcontext]
    exact forkedMem_copied (stacks_apart h.apart) hd
  · rw [System.forked_context, hcontext, moved_eq]
  · exact Function.update_of_ne hp _ _

/-- A child whose context lies in its own stack has a parent whose context does. -/
theorem Duplicates.own (h : Duplicates r c s₀ s r') : r.OwnContext := by
  intro s₁ hs₁
  obtain rfl : s₀ = s₁ := Option.some.inj (h.caller_stack.symm.trans hs₁)
  have hinside := h.inside
  rw [System.ContextIn, State.stackAddr, h.fixed.1] at hinside
  rw [System.ContextIn, ← h.place]
  exact hinside

/-! ## The words of the stacks -/

/-- Memory has the words of the stacks of `σ`, and every saved context is where `σ` has it. -/
structure Shows (r : System) (σ : State) : Prop where
  word : ∀ s k, k < stackSize →
    load32 r.mem (σ.stackAddr s + UInt32.ofNat (4 * k)) = σ.stackMem s k
  context : ∀ p s, (σ.pcbs p).stack = some s →
    r.context p = σ.stackAddr s + UInt32.ofNat (4 * (σ.pcbs p).context.getD 0)

/-- Different words of a stack. -/
theorem words_apart (a : UInt32) {j k : Nat} (hj : j < stackSize) (hk : k < stackSize)
    (hne : j ≠ k) : Apart (a + UInt32.ofNat (4 * j)) 4 (a + UInt32.ofNat (4 * k)) 4 := by
  have hsize : stackSize = 65536 := rfl
  rcases Nat.lt_or_gt_of_ne hne with hlt | hgt
  · exact apart_parts (by omega) (by omega)
  · exact (apart_parts (by omega) (by omega)).symm

/-- The words of the copy, where the context starts with word `n`. -/
theorem Copied.word {m m' : Memory} {dst src id : UInt32} {n k : Nat}
    (h : Copied m dst src (4 * n) id m') (hn : n + contextWords ≤ stackSize) (hk : k < stackSize) :
    load32 m' (dst + UInt32.ofNat (4 * k)) =
      if k = n + ctxEax then 0
      else if k = n + ctxEsp ∨ k = n + ctxEbp then
        load32 m (src + UInt32.ofNat (4 * k)) + (dst - src)
      else load32 m (src + UInt32.ofNat (4 * k)) := by
  have hsize : stackSize = 65536 := rfl
  have hwords : contextWords = 49 := rfl
  have hmember (j : Nat) : 4 * n + 4 * j = 4 * (n + j) := (Nat.mul_add ..).symm
  split
  case isTrue heq =>
    subst heq
    rw [← hmember]
    exact h.eax
  case isFalse heax =>
    split
    case isTrue hptr =>
      rcases hptr with rfl | rfl
      · rw [← hmember]
        exact h.pointers ctxEsp (.inl rfl)
      · rw [← hmember]
        exact h.pointers ctxEbp (.inr rfl)
    case isFalse hptr =>
      obtain ⟨hesp, hebp⟩ := not_or.mp hptr
      refine load32_moved fun x hx => h.bytes x (hx.of_part ?_ ?_) fun j hj => ?_
      · show 4 * k + 4 ≤ 4 * stackSize
        omega
      · decide
      · have hbound : ctxEbp = 11 ∧ ctxEsp = 12 ∧ ctxEax = 16 := ⟨rfl, rfl, rfl⟩
        rw [hmember]
        refine words_apart dst hk (by omega) ?_ x hx
        rcases hj with rfl | rfl | rfl
        · exact hebp
        · exact hesp
        · exact heax

/-- The words of all stacks after a fork. -/
theorem Copied.shows {τ : State} {n : Nat}
    (copied : Copied r.mem (r.kernel.stackAddr s) (r.kernel.stackAddr s₀) (4 * n)
      r.kernel.nextPid.id r'.mem)
    (forks : Forks r.kernel c s₀ s τ) (shows : Shows r r.kernel)
    (hn : (r.kernel.pcbs r.kernel.current).context.getD 0 = n)
    (inside : n + contextWords ≤ stackSize) (hapart : s ≠ s₀)
    (hmoved : r'.context c = r.kernel.stackAddr s + UInt32.ofNat (4 * n))
    (hothers : ∀ p, p ≠ c → r'.context p = r.context p) : Shows r' τ := by
  have hwords : contextWords = 49 := rfl
  have hbase (t : StackId) : τ.stackAddr t = r.kernel.stackAddr t := by
    rw [State.stackAddr, State.stackAddr, forks.fixed.1]
  have hpart {t : StackId} {k : Nat} (hk : k < stackSize) {x : UInt32}
      (hx : Within (r.kernel.stackAddr t + UInt32.ofNat (4 * k)) 4 x) :
      Within (r.kernel.stackAddr t) stackBytes x := by
    refine hx.of_part ?_ (by decide)
    show 4 * k + 4 ≤ 4 * stackSize
    omega
  -- outside the new stack only the caller's `eax` has changed
  have hkept {t : StackId} {k : Nat} (hk : k < stackSize) (ht : t ≠ s)
      (hvalue : t = s₀ → k ≠ n + ctxEax) :
      load32 r'.mem (r.kernel.stackAddr t + UInt32.ofNat (4 * k)) = r.kernel.stackMem t k := by
    rw [← shows.word t k hk]
    refine load32_congr fun x hx => copied.others x ?_ ?_
    · exact stacks_apart ht x (hpart hk hx)
    · have hmember : 4 * n + 4 * ctxEax = 4 * (n + ctxEax) := (Nat.mul_add ..).symm
      have hbound : n + ctxEax < stackSize := by
        have heax : ctxEax = 16 := rfl
        omega
      rw [hmember]
      by_cases hs : t = s₀
      · subst hs
        exact words_apart _ hk hbound (hvalue rfl) x hx
      · exact fun hx' => stacks_apart hs x (hpart hk hx) (hpart hbound hx')
  refine ⟨fun t k hk => ?_, fun p t ht => ?_⟩
  · rw [hbase]
    by_cases hts : t = s
    · subst hts
      rw [copied.word inside hk, forks.child k hk, hn, State.childWord, State.shiftedWord,
        shows.word s₀ k hk]
    · by_cases hts₀ : t = s₀
      · subst hts₀
        rw [forks.caller, hn]
        by_cases hk' : k = n + ctxEax
        · subst hk'
          have hmember : 4 * (n + ctxEax) = 4 * n + 4 * ctxEax := Nat.mul_add ..
          rw [Function.update_self, hmember]
          exact copied.caller
        · rw [Function.update_of_ne hk']
          exact hkept hk hts fun _ => hk'
      · rw [forks.others t hts hts₀]
        exact hkept hk hts fun heq => absurd heq hts₀
  · rw [hbase]
    rw [forks.pcbs] at ht ⊢
    by_cases hp : p = c
    · subst hp
      rw [Function.update_self] at ht ⊢
      obtain rfl : s = t := Option.some.inj ht
      rw [hmoved, State.childPcb, hn]
    · rw [Function.update_of_ne hp] at ht ⊢
      rw [hothers p hp]
      exact shows.context p t ht

/-- **A fork in memory is a fork on words**, if the caller's context lies in its stack. -/
theorem fork_shows {pcbs : List (Key × PcbId)} {free : List (Key × StackId)}
    (h : Forkable r.kernel c pcbs s free s₀) (shows : Shows r r.kernel)
    (inside : (r.kernel.pcbs r.kernel.current).context.getD 0 + contextWords ≤ stackSize) :
    ∃ r' τ, isrFork r = .ok ((), r') ∧ Cumulonimbus.sysFork r.kernel = .ok ((), τ) ∧
      Adopts r.kernel c (childPcb r.kernel c s) s r'.kernel ∧ Forks r.kernel c s₀ s τ ∧
      Shows r' τ := by
  have hadopts := launched_adopts h
  have hcontext := shows.context _ _ h.caller
  generalize hn : (r.kernel.pcbs r.kernel.current).context.getD 0 = n at inside hcontext
  have hd : 4 * n + contextBytes ≤ stackBytes := by
    show 4 * n + 4 * contextWords ≤ 4 * stackSize
    omega
  have hcopied : Copied r.mem (r.kernel.stackAddr s) (r.kernel.stackAddr s₀) (4 * n)
      r.kernel.nextPid.id (r.forked c s₀ s (r.context r.kernel.current)
        (launched (r.kernel.drawn pcbs free) c s)).mem := by
    rw [System.forked, hcontext]
    exact forkedMem_copied (stacks_apart h.apart) hd
  have hmoved : (r.forked c s₀ s (r.context r.kernel.current)
      (launched (r.kernel.drawn pcbs free) c s)).context c =
        r.kernel.stackAddr s + UInt32.ofNat (4 * n) := by
    rw [System.forked_context, hcontext, moved_eq]
  have hothers : ∀ p, p ≠ c → (r.forked c s₀ s (r.context r.kernel.current)
      (launched (r.kernel.drawn pcbs free) c s)).context p = r.context p :=
    fun p hp => Function.update_of_ne hp _ _
  obtain ⟨_, r', hr', hforked⟩ := wp_returns
    (sysFork_forked (r.context r.kernel.current) h)
  rw [← hforked] at hcopied hmoved hothers
  have hadopts' : Adopts r.kernel c (childPcb r.kernel c s) s r'.kernel := hforked ▸ hadopts
  obtain ⟨⟨key, hpcbs⟩, ⟨key', hfree⟩, hcaller, hother, hapart, -⟩ := h
  obtain ⟨_, τ, hτ, hforks⟩ := wp_returns (sysFork_forks hpcbs hfree hcaller hother hapart)
  exact ⟨r', τ, hr', hτ, hadopts', hforks,
    hcopied.shows hforks shows hn inside hapart hmoved hothers⟩

/-! ## When a fork duplicates its caller -/

variable {b : Boot} {σ₀ σ : State} {tr : List (State × Input)}

/-- **When a fork duplicates its caller.**  In every reachable state, for any memory and any saved
contexts: exactly if there is no PCB for a child, or the caller's saved context lies in the caller's
stack. -/
theorem fork_duplicates_iff (boot : BootState b σ₀) (run : AnyRun σ₀ tr σ)
    (few : handedOut tr < 2 ^ 32 - 1) (mem : Memory) (context : PcbId → UInt32) :
    ForksWell ⟨σ, mem, context⟩ ↔
      ((σ.queues .pcbAvail).items ≠ [] → System.OwnContext ⟨σ, mem, context⟩) := by
  constructor
  · intro h hsome
    obtain ⟨c, s₀, s, r', -, hdup⟩ := h.1 hsome
    exact hdup.own
  · intro hown
    refine ⟨fun hsome => ?_, fun hnone => sysFork_full hnone⟩
    obtain ⟨c, pcbs, s, free, s₀, hforkable⟩ := run_forkable boot run few hsome
    obtain ⟨_, r', hr', rfl⟩ := wp_returns
      (sysFork_forked (r := ⟨σ, mem, context⟩) (context σ.current) hforkable)
    exact ⟨c, s₀, s, _, hr', forked_duplicates hforkable (hown hsome)⟩

/-- Init, which has forked once and has its context 4000 bytes into its stack, forks again. -/
theorem fork_duplicates_iff_init : ∃ σ₀ tr σ, BootState blankBoot σ₀ ∧ AnyRun σ₀ tr σ ∧
    tr.length = 1 ∧ (σ.queues .pcbAvail).items ≠ [] ∧
    ForksWell ⟨σ, fun x => x.toUInt8, fun _ => σ.stackAddr 0 + UInt32.ofNat 4000⟩ := by
  have hrun : bootTest (fun _ _ => True) blankBoot [callInput 1 (fun _ => 0) blankHeap] fun σ =>
      !(σ.queues .pcbAvail).items.isEmpty && decide ((σ.pcbs σ.current).stack = some 0) := by
    decide +kernel
  obtain ⟨σ₀, tr, σ, hboot, hany, htr, htest⟩ := bootTest_run hrun
  have hlen : tr.length = 1 := by simpa using congrArg List.length htr
  have hle := handedOut_le tr
  simp only [Bool.and_eq_true, Bool.not_eq_true', decide_eq_true_eq, List.isEmpty_eq_false_iff]
    at htest
  refine ⟨σ₀, tr, σ, hboot, hany, hlen, htest.1,
    (fork_duplicates_iff hboot hany (by omega) _ _).mpr fun _ s hs => ?_⟩
  obtain rfl : (0 : StackId) = s := Option.some.inj (htest.2.symm.trans hs)
  rw [System.ContextIn, offset_toNat (by decide)]
  decide

/-- Init's child runs on init's stack, where its context is, and forks: the new process has its
context in the stack of its parent, and nothing of the parent's context is in it. -/
theorem fork_on_the_parents_stack : ∃ σ₀ tr σ, BootState blankBoot σ₀ ∧ AnyRun σ₀ tr σ ∧
    handedOut tr < 2 ^ 32 - 1 ∧ σ.current = 1 ∧ (σ.pcbs 1).stack = some 1 ∧
    (∃ r', isrFork ⟨σ, fun _ => 0, fun _ => σ.stackAddr 0 + UInt32.ofNat 4000⟩ = .ok ((), r') ∧
      (r'.kernel.pcbs 2).stack = some 2 ∧ r'.context 2 = σ.stackAddr 1 + UInt32.ofNat 4000) ∧
    ¬ ForksWell ⟨σ, fun _ => 0, fun _ => σ.stackAddr 0 + UInt32.ofNat 4000⟩ := by
  have hrun : bootTest (fun _ _ => True) blankBoot
      [callInput 1 (fun _ => 0) blankHeap, clockInput (fun _ => 0) blankHeap] fun σ =>
        decide (σ.current = 1) && decide ((σ.pcbs 1).stack = some 1) &&
          decide ((σ.queues .pcbAvail).members.head? = some 2) &&
          decide (σ.stackAvail.members.head? = some 2) &&
          decide ((σ.stackAddr 0 + UInt32.ofNat 4000 - σ.stackAddr 1).toNat + contextBytes >
            stackBytes) &&
          decide (σ.stackAddr 0 + UInt32.ofNat 4000 + (σ.stackAddr 2 - σ.stackAddr 1) =
            σ.stackAddr 1 + UInt32.ofNat 4000) := by
    decide +kernel
  obtain ⟨σ₀, tr, σ, hboot, hany, htr, htest⟩ := bootTest_run hrun
  have hlen : tr.length = 2 := by simpa using congrArg List.length htr
  have hle := handedOut_le tr
  have hfew : handedOut tr < 2 ^ 32 - 1 := by omega
  simp only [Bool.and_eq_true, decide_eq_true_eq] at htest
  obtain ⟨⟨⟨⟨⟨hcurrent, hstack⟩, hpcb⟩, hfree⟩, hout⟩, hmoved⟩ := htest
  have hsome : (σ.queues .pcbAvail).items ≠ [] := by
    intro hnil
    rw [Queue.members, hnil] at hpcb
    cases hpcb
  refine ⟨σ₀, tr, σ, hboot, hany, hfew, hcurrent, hstack, ?_, fun hwell => ?_⟩
  · obtain ⟨c, pcbs, s, free, s₀, hforkable⟩ := run_forkable hboot hany hfew hsome
    obtain ⟨_, r', hr', rfl⟩ := wp_returns (sysFork_forked
      (r := ⟨σ, fun _ => 0, fun _ => σ.stackAddr 0 + UInt32.ofNat 4000⟩)
      (σ.stackAddr 0 + UInt32.ofNat 4000) hforkable)
    have hadopts := launched_adopts hforkable
    obtain ⟨⟨key, hpcbs⟩, ⟨key', hstacks⟩, hcaller, -, -, -⟩ := hforkable
    obtain rfl : c = 2 := by simpa [Queue.members, hpcbs] using hpcb
    obtain rfl : s = 2 := by simpa [Queue.members, hstacks] using hfree
    obtain rfl : (1 : StackId) = s₀ := by
      rw [hcurrent] at hcaller
      exact Option.some.inj (hstack.symm.trans hcaller)
    refine ⟨_, hr', ?_, ?_⟩
    · show ((launched (σ.drawn pcbs free) 2 2).pcbs 2).stack = some 2
      rw [hadopts.pcbs, Function.update_self]
      rfl
    · rw [System.forked_context]
      exact hmoved
  · obtain ⟨c, s₀, s, r', -, hdup⟩ := hwell.1 hsome
    have hown := hdup.own 1 (hcurrent ▸ hstack)
    exact absurd hown (Nat.not_le_of_gt hout)

end Cumulonimbus.ForkMemory
