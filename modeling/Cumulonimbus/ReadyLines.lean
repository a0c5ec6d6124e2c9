import Mathlib.Data.List.Infix
import Cumulonimbus.DispatchPoints
import Cumulonimbus.Preserving

/-!
# A ready process in its queue

Until the dispatcher is called, the ready queues only grow, at their ends, and a process that is
ready stays so, unless it is killed: `Waits` is what every handler preserves for such a process
(`callBefore_waits`, `clockBefore_waits`, `isrSio_waits`).
-/

namespace Cumulonimbus

open Exec

variable {σ₀ σ τ : State} {x p : PcbId} {X : QName}

/-- Since `σ₀` the ready queues have only grown, and `x` has stayed ready if it was. -/
structure Waits (σ₀ : State) (x : PcbId) (σ : State) : Prop where
  current : σ.current = σ₀.current
  lines : ∀ j, (σ₀.queues (.ready j)).members <+: (σ.queues (.ready j)).members
  ready : (σ₀.pcbs x).state = .ready → (σ.pcbs x).state = .ready
  prio : (σ.pcbs x).prio = (σ₀.pcbs x).prio
  allocated : x ∉ (σ.queues .pcbAvail).members
  alive : x ∉ (σ.queues .zombie).members

/-- `p` is not `x`, where that matters for the queue. -/
def Safe (x : PcbId) (X : QName) (p : PcbId) : Prop := X = .pcbAvail ∨ X = .zombie → p ≠ x

/-- Anything may go into a ready queue. -/
theorem safe_ready {j : Fin nPriorities} : Safe x (.ready j) p := by
  rintro (h | h) <;> cases h

namespace Waits

/-- The current process stays the same, so it is not the one that waits. -/
theorem ne (h : Waits σ₀ x σ) (other : x ≠ σ₀.current) : σ.current ≠ x := by
  rw [h.current]
  exact other.symm

/-- What is not a queue, a PCB or the current process does not matter. -/
theorem congr (h : Waits σ₀ x σ) (hcurrent : τ.current = σ.current)
    (hqueues : τ.queues = σ.queues) (hpcbs : τ.pcbs = σ.pcbs) : Waits σ₀ x τ where
  current := hcurrent.trans h.current
  lines := by rw [hqueues]; exact h.lines
  ready := by rw [hpcbs]; exact h.ready
  prio := by rw [hpcbs]; exact h.prio
  allocated := by rw [hqueues]; exact h.allocated
  alive := by rw [hqueues]; exact h.alive

/-- Another queue in the place of `X`. -/
theorem requeue (h : Waits σ₀ x σ) {n : Nat} {q : Queue PcbId}
    (line : ∀ j, X = .ready j → (σ.queues X).members <+: q.members)
    (free : X = .pcbAvail ∨ X = .zombie → x ∉ q.members) :
    Waits σ₀ x { σ with qnodes := n, queues := Function.update σ.queues X q } where
  current := h.current
  lines j := by
    by_cases hX : X = .ready j
    · subst hX
      simpa using (h.lines j).trans (line j rfl)
    · simpa [Ne.symm hX] using h.lines j
  ready := h.ready
  prio := h.prio
  allocated := by
    by_cases hX : X = .pcbAvail
    · subst hX
      simpa using free (Or.inl rfl)
    · simpa [Ne.symm hX] using h.allocated
  alive := by
    by_cases hX : X = .zombie
    · subst hX
      simpa using free (Or.inr rfl)
    · simpa [Ne.symm hX] using h.alive

/-- The process is in neither of the queues of processes that are gone. -/
theorem not_mem (h : Waits σ₀ x σ) (hX : X = .pcbAvail ∨ X = .zombie) :
    x ∉ (σ.queues X).members := by
  rcases hX with rfl | rfl
  · exact h.allocated
  · exact h.alive

/-- A PCB is stored; for `x` itself the state may only become ready and the priority stays. -/
theorem setPcb (h : Waits σ₀ x σ) {b : Pcb}
    (hb : p = x → ((σ.pcbs x).state = .ready → b.state = .ready) ∧ b.prio = (σ.pcbs x).prio) :
    Waits σ₀ x { σ with pcbs := Function.update σ.pcbs p b } where
  current := h.current
  lines := h.lines
  ready := by
    by_cases hp : p = x
    · subst hp
      simpa using fun hready => (hb rfl).1 (h.ready hready)
    · simpa [Ne.symm hp] using h.ready
  prio := by
    by_cases hp : p = x
    · subst hp
      simpa using (hb rfl).2.trans h.prio
    · simpa [Ne.symm hp] using h.prio
  allocated := h.allocated
  alive := h.alive

/-- A word of a saved context is no part of what is asked. -/
theorem setCtxWord (h : Waits σ₀ x σ) (p : PcbId) (k : Nat) (v : UInt32) :
    Waits σ₀ x (σ.setCtxWord p k v) := by
  obtain ⟨m, hm, -⟩ := σ.setCtxWord_eq p k v
  rw [hm]
  exact h.congr rfl rfl rfl

end Waits

/-! ## The routines of the other modules -/

/-- An entry at the end of a queue leaves those before it where they are. -/
theorem qAppend_waits (safe : Safe x X p) (key : Key) :
    Preserves (Waits σ₀ x) (qAppend X p key) := by
  refine .bind_get fun σ h => ?_
  split
  · exact h
  case h_2 n q hq =>
    obtain ⟨-, hitems, -, -⟩ := Queue.qAppend_ok hq
    have hmembers : q.members = (σ.queues X).members ++ [p] := by
      rw [Queue.members, hitems, List.map_append]
      rfl
    refine h.requeue (fun _ _ => ?_) fun hX => ?_
    · rw [hmembers]
      exact List.prefix_append _ _
    · rw [hmembers]
      simpa [(safe hX).symm] using h.not_mem hX

/-- An insertion may go anywhere, so it is allowed for the other queues only. -/
theorem qInsert_waits (safe : Safe x X p) (hX : ∀ j, X ≠ .ready j) (key : Key) :
    Preserves (Waits σ₀ x) (qInsert X p key) := by
  refine .bind_get fun σ h => ?_
  split
  · exact h
  case h_2 n q hq =>
    obtain ⟨-, hitems, -, -⟩ := Queue.qInsert_ok hq
    refine h.requeue (fun j hj => absurd hj (hX j)) fun hX => ?_
    have hmem : x ∈ q.members ↔ x ∈ p :: (σ.queues X).members := (hitems.map Prod.snd).mem_iff
    rw [hmem]
    simpa [(safe hX).symm] using h.not_mem hX

/-- What is taken off a queue that is not a ready queue was in it. -/
theorem qRemove_waits (hX : ∀ j, X ≠ .ready j) (h : Waits σ₀ x σ) :
    wp (qRemove X) (fun r τ => Waits σ₀ x τ ∧ ∀ p, r = .ok p → Safe x X p) (fun _ => True) σ := by
  rw [qRemove, wp_bind, wp_get]
  split
  · refine ⟨h, fun p hp => ?_⟩
    cases hp
  case h_2 p n q hq =>
    obtain ⟨-, ⟨key, hitems⟩, -, -⟩ := Queue.qRemove_ok hq
    have hmembers : (σ.queues X).members = p :: q.members := by
      rw [Queue.members, hitems]
      rfl
    refine ⟨h.requeue (fun j hj => absurd hj (hX j)) fun hX hx => h.not_mem hX ?_,
      fun r hr hX heq => h.not_mem hX ?_⟩
    · rw [hmembers]
      exact List.mem_cons_of_mem _ hx
    · obtain rfl : p = r := Except.ok.inj hr
      rw [hmembers, heq]
      exact List.mem_cons_self

/-- A removal from another queue; what it finds is not `x` where that matters. -/
theorem qRemoveByKey_waits (hX : ∀ j, X ≠ .ready j) (key : Key) (h : Waits σ₀ x σ) :
    wp (qRemoveByKey X key) (fun r τ => Waits σ₀ x τ ∧ ∀ p, r = .ok p → Safe x X p)
      (fun _ => True) σ := by
  rw [qRemoveByKey, wp_bind, wp_get]
  split
  · refine ⟨h, fun p hp => ?_⟩
    cases hp
  case h_2 p n q hq =>
    obtain ⟨-, ⟨k, hitems, -⟩, -, -⟩ := Queue.qRemoveByKey_ok hq
    have hmem : ∀ r, r ∈ (σ.queues X).members ↔ r ∈ p :: q.members := fun r =>
      (hitems.map Prod.snd).mem_iff
    refine ⟨h.requeue (fun j hj => absurd hj (hX j)) fun hX hx => h.not_mem hX ?_,
      fun r hr hX heq => h.not_mem hX ?_⟩
    · rw [hmem]
      exact List.mem_cons_of_mem _ hx
    · obtain rfl : p = r := Except.ok.inj hr
      rw [hmem, heq]
      exact List.mem_cons_self

/-- A check panics or does nothing. -/
theorem check_waits (m msg : String) (stat : Status) :
    Preserves (Waits σ₀ x) (check m msg stat) := .ite (.throw _) (.pure _)

/-- Results are stored in the stacks. -/
theorem setEax_waits (p : PcbId) (v : UInt32) : Preserves (Waits σ₀ x) (setEax p v) :=
  .modify fun _ h => h.setCtxWord p ctxEax v

/-- Answers go to addresses of the caller. -/
theorem modifyInfo_waits (ptr : UInt32) (g : Info → Info) :
    Preserves (Waits σ₀ x) (modifyInfo ptr g) := .modify fun _ h => h.congr rfl rfl rfl

/-- A handler may change a PCB as `Waits.setPcb` says. -/
theorem modifyPcb_waits {f : Pcb → Pcb}
    (hf : p = x → ∀ b, (b.state = .ready → (f b).state = .ready) ∧ (f b).prio = b.prio) :
    Preserves (Waits σ₀ x) (modifyPcb p f) :=
  .modify fun _ h => h.setPcb fun hp => hp ▸ hf hp _

/-- The pool of stacks is not a queue of processes. -/
theorem stackAlloc_waits : Preserves (Waits σ₀ x) stackAlloc := by
  refine .bind_get fun σ h => ?_
  split
  · exact h
  · exact h.congr rfl rfl rfl

/-- A stack goes back to its pool after it has been cleared. -/
theorem stackFree_waits (old : Option StackId) : Preserves (Waits σ₀ x) (stackFree old) := by
  cases old with
  | none => exact .pure _
  | some s =>
    refine .bind (.modify fun _ h => h.congr rfl rfl rfl) fun _ => .bind_get fun σ h => ?_
    split
    · exact h
    · exact h.congr rfl rfl rfl

/-- The counter of pids is outside. -/
theorem pidNext_waits : Preserves (Waits σ₀ x) pidNext := fun _ h => h.congr rfl rfl rfl

/-- A fresh stack gets its first context. -/
theorem setupStack_waits (s : Option StackId) (entry : UInt32) :
    Preserves (Waits σ₀ x) (setupStack s entry) := by
  cases s with
  | none => exact .pure _
  | some s => exact .modify fun _ h => h.congr rfl rfl rfl

/-- A PCB other than that of `x` goes back to its pool. -/
theorem pcbFree_waits (hp : p ≠ x) : Preserves (Waits σ₀ x) (pcbFree p) :=
  .bind (modifyPcb_waits fun h => absurd h hp) fun _ => qAppend_waits (fun _ => hp) _

/-- **Scheduling anyone** puts it behind those that wait. -/
theorem schedule_waits (p : PcbId) (prio : UInt8) : Preserves (Waits σ₀ x) (schedule p prio) :=
  .bind (modifyPcb_waits fun _ _ => ⟨fun _ => rfl, rfl⟩) fun _ =>
    .bind (qAppend_waits safe_ready _) fun _ => check_waits _ _ _

/-! ## The end of a process -/

/-- Another process ends and the one that waited for it is scheduled. -/
theorem zombifyDeliver_waits (hp : p ≠ x) (q : PcbId) (info : UInt32) :
    Preserves (Waits σ₀ x) (zombifyDeliver p q info) := by
  refine .bind_get fun σ h => wp_seq (qRemoveByKey_waits (by simp) _ h) ?_
  intro r τ hτ
  cases r with
  | error stat => exact wp_throw.mpr trivial
  | ok r =>
    exact (Preserves.bind (modifyInfo_waits _ _) fun _ => .bind (stackFree_waits _) fun _ =>
      .bind (check_waits _ _ _) fun _ => .bind (pcbFree_waits hp) fun _ =>
      .bind (check_waits _ _ _) fun _ => schedule_waits _ _) τ hτ.1

/-! ## Handlers and interrupts -/

/-- The parent collects a zombie, which is not `x`. -/
theorem waitReap_waits (info : UInt32) (pcb : PcbId) :
    Preserves (Waits σ₀ x) (waitReap info pcb) := by
  refine .bind_get fun σ h => Preserves.seq (modifyInfo_waits _ _) h fun _ τ hτ => ?_
  refine wp_seq (qRemoveByKey_waits (by simp) _ hτ) ?_
  intro r τ' hτ'
  cases r with
  | error stat => exact wp_throw.mpr trivial
  | ok r =>
    have hr : r ≠ x := hτ'.2 r rfl (Or.inr rfl)
    exact (Preserves.bind (stackFree_waits _) fun _ => .bind (check_waits _ _ _) fun _ =>
      .bind (pcbFree_waits hr) fun _ => check_waits _ _ _) τ' hτ'.1

/-- The child's stack and its saved context. -/
theorem forkStack_waits {child : PcbId} (hchild : child ≠ x) (s : StackId) :
    Preserves (Waits σ₀ x) (forkStack child s) := by
  refine .bind_get fun σ h => ?_
  split
  · exact h
  · exact (Preserves.bind (.modify fun _ h => h.congr rfl rfl rfl) fun _ =>
      .bind (modifyPcb_waits fun heq => absurd heq hchild) fun _ =>
      .bind (.modify fun _ h => h.setCtxWord _ _ _) fun _ =>
      .modify fun _ h => h.setCtxWord _ _ _) σ h

/-- A fork takes a PCB from the pool, where `x` is not, and schedules it. -/
theorem sysFork_waits : Preserves (Waits σ₀ x) sysFork := by
  refine .bind_get fun σ h => wp_seq (qRemove_waits (by simp) h) ?_
  intro r τ hτ
  cases r with
  | error stat => exact setEax_waits _ _ τ hτ.1
  | ok child =>
    have hchild : child ≠ x := hτ.2 child rfl (Or.inl rfl)
    refine Preserves.seq stackAlloc_waits hτ.1 fun r υ hυ => ?_
    cases r with
    | error stat =>
      exact (Preserves.bind (pcbFree_waits hchild) fun _ => .bind (check_waits _ _ _) fun _ =>
        setEax_waits _ _) υ hυ
    | ok s =>
      exact (Preserves.bind pidNext_waits fun _ =>
        .bind (modifyPcb_waits fun heq => absurd heq hchild) fun _ => .bind_get fun ρ hρ =>
        (Preserves.bind (modifyPcb_waits fun heq => absurd heq hchild) fun _ =>
          .bind (forkStack_waits hchild s) fun _ => .bind (setEax_waits _ _) fun _ =>
          .bind (setEax_waits _ _) fun _ => schedule_waits _ _) ρ hρ) υ hυ

/-- The calls that only tell or set something. -/
theorem tell_waits (p : PcbId) (v ptr : UInt32) (pid : Pid) :
    Preserves (Waits σ₀ x) (setEax p v >>= fun _ =>
      if ptr ≠ 0 then modifyInfo ptr fun i => { i with pid := pid } else pure ⟨⟩) :=
  .bind (setEax_waits _ _) fun _ => .ite (modifyInfo_waits _ _) (.pure _)

/-- Those whose time has come are scheduled one after the other. -/
theorem wakeLoop_waits (n : Nat) (key : Key) : Preserves (Waits σ₀ x) (wakeLoop n key) := by
  induction n with
  | zero => exact .throw _
  | succ n ih =>
    intro σ h
    rw [wakeLoop]
    refine wp_seq (qRemoveByKey_waits (by simp) _ h) ?_
    intro r τ hτ
    cases r with
    | error stat => exact hτ.1
    | ok r => exact (Preserves.bind (schedule_waits _ _) fun _ => ih) τ hτ.1

/-- The tick counts and draws the pinwheel. -/
theorem tick_waits : Preserves (Waits σ₀ x) tick := by
  refine .modify fun σ h => ?_
  dsimp only
  split
  · exact h.congr rfl rfl rfl
  · exact h.congr rfl rfl rfl

/-- **The clock interrupt** up to its dispatch: the sleepers that are due and then the current
process go behind those that wait. -/
theorem clockBefore_waits : Preserves (Waits σ₀ x) clockBefore :=
  .bind tick_waits fun _ => .bind_get fun σ h =>
    (Preserves.bind (wakeLoop_waits _ _) fun _ => .bind_get fun τ hτ =>
      (Preserves.bind (schedule_waits _ _) fun _ => .pure _) τ hτ) σ h

/-- A character is stored, or a reader gets it and is scheduled. -/
theorem sioReceive_waits (raw : UInt8) : Preserves (Waits σ₀ x) (sioReceive raw) := by
  refine .bind_get fun σ h => ?_
  rw [wp_ite]
  refine ⟨fun _ => h.congr rfl rfl rfl, fun _ => wp_seq (qRemove_waits (by simp) h) ?_⟩
  intro r τ hτ
  cases r with
  | error stat => exact wp_throw.mpr trivial
  | ok r => exact (Preserves.bind (setEax_waits _ _) fun _ => schedule_waits _ _) τ hτ.1

/-- **The serial interrupt**, event after event. -/
theorem isrSio_waits (events : List SioEvent) : Preserves (Waits σ₀ x) (isrSio events) := by
  induction events with
  | nil => exact .pure _
  | cons ev rest ih =>
    refine .bind ?_ fun _ => ih
    cases ev with
    | rx ch => exact sioReceive_waits ch
    | tx => exact .modify fun _ h => h.congr rfl rfl rfl
    | other eir => exact .throw _
    | _ => exact .pure _

/-! ## Calls of another process -/

section Other

variable (other : x ≠ σ₀.current)
include other

/-- The current process becomes a zombie. -/
theorem zombifyKeep_waits : Preserves (Waits σ₀ x) zombifyKeep :=
  .bind_get fun σ h =>
    (Preserves.bind (modifyPcb_waits fun heq => absurd heq (h.ne other)) fun _ =>
      .bind (qInsert_waits (fun _ => h.ne other) (by simp) _) fun _ => check_waits _ _ _) σ h

/-- Whichever way a process other than `x` ends. -/
theorem zombify_waits (hp : p ≠ x) : Preserves (Waits σ₀ x) (zombify p) := by
  refine .bind_get fun σ h => ?_
  split
  · exact wp_throw.mpr trivial
  · rw [wp_ite]
    exact ⟨fun _ => zombifyDeliver_waits hp _ _ σ h, fun _ => zombifyKeep_waits other σ h⟩

/-- `exit` up to its dispatch. -/
theorem exitBefore_waits : Preserves (Waits σ₀ x) exitBefore := by
  refine .bind_get fun σ h => ?_
  refine Preserves.seq (.modify fun τ hτ => ?_) h fun _ τ hτ => ?_
  · have hkeep : ∀ q, (reparent τ.pcbs (σ.pcbs σ.current).pid q).state = (τ.pcbs q).state ∧
        (reparent τ.pcbs (σ.pcbs σ.current).pid q).prio = (τ.pcbs q).prio := by
      intro q
      rw [reparent]
      split <;> exact ⟨rfl, rfl⟩
    exact ⟨hτ.current, hτ.lines, fun hready => (hkeep x).1.trans (hτ.ready hready),
      (hkeep x).2.trans hτ.prio, hτ.allocated, hτ.alive⟩
  · exact (Preserves.bind (zombify_waits other (h.ne other)) fun _ => .pure _) τ hτ

/-- `exec` up to its dispatch: the caller goes to the end of its ready queue. -/
theorem execBefore_waits : Preserves (Waits σ₀ x) execBefore :=
  .bind_get fun σ h =>
    (Preserves.bind (setupStack_waits _ _) fun _ =>
      .bind (modifyPcb_waits fun heq => absurd heq (h.ne other)) fun _ =>
      .bind (schedule_waits _ _) fun _ => .pure _) σ h

/-- The caller joins the waiting queue. -/
theorem waitBlockBefore_waits : Preserves (Waits σ₀ x) waitBlockBefore :=
  .bind_get fun σ h =>
    (Preserves.bind (modifyPcb_waits fun heq => absurd heq (h.ne other)) fun _ =>
      .bind (qInsert_waits (fun _ => h.ne other) (by simp) _) fun _ =>
      .bind (check_waits _ _ _) fun _ => .pure _) σ h

/-- `wait` up to its dispatch, in each of its outcomes. -/
theorem waitBefore_waits : Preserves (Waits σ₀ x) waitBefore := by
  refine .bind_get fun σ h => ?_
  dsimp only
  rw [wp_ite]
  refine ⟨fun _ => (Preserves.bind (setEax_waits _ _) fun _ => .pure _) σ h, fun _ => ?_⟩
  split
  · exact (Preserves.bind (modifyInfo_waits _ _) fun _ => .pure _) σ h
  · rw [wp_ite]
    exact ⟨fun _ => (Preserves.bind (waitReap_waits _ _) fun _ => .pure _) σ h,
      fun _ => waitBlockBefore_waits other σ h⟩

/-- `sleep` up to its dispatch. -/
theorem sleepBefore_waits : Preserves (Waits σ₀ x) sleepBefore := by
  refine .bind_get fun σ h => ?_
  refine Preserves.seq (x := sleepInsert) (.bind_get fun τ hτ => ?_) h fun stat τ hτ => ?_
  · exact (Preserves.bind (modifyPcb_waits fun heq => absurd heq (hτ.ne other)) fun _ =>
      qInsert_waits (fun _ => hτ.ne other) (by simp) _) τ hτ
  · rw [wp_ite]
    exact ⟨fun _ => (Preserves.bind (setEax_waits _ _) fun _ => .pure _) τ hτ, fun _ => hτ⟩

/-- `readc` up to its dispatch. -/
theorem readcBefore_waits : Preserves (Waits σ₀ x) readcBefore := by
  refine .bind_get fun σ h => Preserves.seq (.modify fun _ hτ => hτ.congr rfl rfl rfl) h ?_
  intro _ τ hτ
  split
  · exact (Preserves.bind (setEax_waits _ _) fun _ => .pure _) τ hτ
  · exact (Preserves.bind_get fun σ h =>
      (Preserves.bind (modifyPcb_waits fun heq => absurd heq (h.ne other)) fun _ =>
        .bind (qInsert_waits (fun _ => h.ne other) (by simp) _) fun _ =>
        .bind (check_waits _ _ _) fun _ => .pure _) σ h) τ hτ

/-- `setprio` changes the priority of the caller, not of `x`. -/
theorem sysSetprio_waits : Preserves (Waits σ₀ x) sysSetprio :=
  .bind_get fun σ h => (Preserves.bind (setEax_waits _ _) fun _ =>
    modifyPcb_waits fun heq => absurd heq (h.ne other)) σ h

/-- `setscreen` changes the screen of the caller. -/
theorem sysSetscreen_waits (ext : External) : Preserves (Waits σ₀ x) (sysSetscreen ext) :=
  .bind_get fun σ h => (Preserves.ite (.bind (setEax_waits _ _) fun _ =>
    modifyPcb_waits fun heq => absurd heq (h.ne other)) (setEax_waits _ _)) σ h

/-- **Every call but `kill`** up to its dispatch. -/
theorem callBefore_waits (ext : External) {call : Syscall} (hcall : call ≠ .kill) :
    Preserves (Waits σ₀ x) (callBefore ext call) := by
  cases call with
  | kill => exact absurd rfl hcall
  | exit => exact exitBefore_waits other
  | exec => exact execBefore_waits other
  | wait => exact waitBefore_waits other
  | sleep => exact sleepBefore_waits other
  | readc => exact readcBefore_waits other
  | yield => exact .pure _
  | fork => exact .bind sysFork_waits fun _ => .pure _
  | getpid => exact .bind (.bind_get fun σ h => tell_waits _ _ _ _ σ h) fun _ => .pure _
  | getppid => exact .bind (.bind_get fun σ h => tell_waits _ _ _ _ σ h) fun _ => .pure _
  | setprio => exact .bind (sysSetprio_waits other) fun _ => .pure _
  | setscreen => exact .bind (sysSetscreen_waits other ext) fun _ => .pure _
  | settime =>
    refine .bind (.bind_get fun σ h => ?_) fun _ => .pure _
    exact Preserves.seq (setEax_waits _ _) h fun _ τ hτ => hτ.congr rfl rfl rfl
  | writec =>
    refine .bind (.bind_get fun σ h => ?_) fun _ => .pure _
    exact Preserves.seq (.modify fun _ hτ => hτ.congr rfl rfl rfl) h fun _ τ hτ =>
      setEax_waits _ _ τ hτ
  | _ => exact .bind (.bind_get fun σ h => setEax_waits _ _ σ h) fun _ => .pure _

/-- What has become of `x` when the dispatcher is called, or the call returns without it. -/
def WaitsOrKilled (σ₀ : State) (x : PcbId) (called : Bool) (τ : State) : Prop :=
  Waits σ₀ x τ ∨ called = false ∧ (τ.pcbs x).state = .killed

/-- **`kill`** up to its dispatch: it may mark `x`, or leaves it as it was. -/
theorem killBefore_waits (h : Waits σ₀ x σ) :
    wp killBefore (WaitsOrKilled σ₀ x) (fun _ => True) σ := by
  rw [killBefore, wp_bind, wp_get]
  split
  · exact wp_mono ((Preserves.bind (setEax_waits _ _) fun _ => .pure false) σ h)
      (fun _ _ hτ => Or.inl hτ) fun _ he => he
  case h_2 p _ =>
    rw [setState, modifyPcb, wp_bind, wp_modify, wp_ite]
    by_cases hp : p = x
    · subst hp
      refine ⟨fun heq => absurd heq (h.ne other).symm, fun _ => Or.inr ⟨rfl, ?_⟩⟩
      dsimp only
      rw [Function.update_self]
    · have hkilled := h.setPcb (p := p) (b := { σ.pcbs p with state := .killed })
        fun heq => absurd heq hp
      exact ⟨fun _ => wp_mono ((Preserves.bind (schedule_waits _ _) fun _ => .pure true) _ hkilled)
        (fun _ _ hτ => Or.inl hτ) fun _ he => he, fun _ => Or.inl hkilled⟩

/-- **Until the dispatcher is called** a ready process keeps its place, or is killed. -/
theorem beforeDispatch_waits (h : Waits σ₀ x σ) (interrupt : Interrupt) :
    wp (beforeDispatch interrupt) (WaitsOrKilled σ₀ x) (fun _ => True) σ := by
  cases interrupt with
  | clock => exact wp_mono (clockBefore_waits σ h) (fun _ _ hτ => Or.inl hτ) fun _ he => he
  | serial events =>
    exact wp_mono ((Preserves.bind (isrSio_waits events) fun _ => .pure false) σ h)
      (fun _ _ hτ => Or.inl hτ) fun _ he => he
  | syscall ext =>
    rw [beforeDispatch, syscallBefore, wp_bind, wp_get]
    split
    · exact wp_throw.mpr trivial
    · split
      · exact wp_throw.mpr trivial
      case h_2 call _ =>
        by_cases hcall : call = .kill
        · subst hcall
          exact killBefore_waits other h
        · exact wp_mono (callBefore_waits other ext hcall σ h) (fun _ _ hτ => Or.inl hτ)
            fun _ he => he

end Other

end Cumulonimbus
