import Cumulonimbus.Dispatch

/-!
# Every entry into the kernel as a sequence of moves

`Origin σ i` lists, for the entry `i` made in state `σ`, which moves can come up
and in what circumstances: a process is killed only by `kill`, forgotten only by
`yield`, and so on.  The moves that depend on what the caller asked for happen at
a life that describes the state in which the handler started, so that a condition
on that state says something about the move.

The main result is `kernelEntry_spec`: one entry into the kernel is a sequence of
such moves, and it leaves a resting process on the CPU.
-/

namespace Cumulonimbus

open Exec

/-- The system call that an entry is about, if it is one. -/
def Input.call (σ : State) (i : Input) : Option Syscall :=
  match i.interrupt with
  | .syscall _ => (σ.enter i.user).invoked
  | _ => none

/-- What `getpid` and `getppid` write for a caller that passes a pointer. -/
def State.tell (σ : State) (pid : Pid) : State :=
  if σ.arg σ.current 1 ≠ 0 then
    { σ with
      heap := Function.update σ.heap (σ.arg σ.current 1)
        { σ.heap (σ.arg σ.current 1) with pid := pid } }
  else σ

/-- The memory once the user code has run and the caller has been told its pid, or
its parent's, if that is what it asked for. -/
def Input.told (σ : State) (i : Input) : State :=
  let τ := σ.enter i.user
  match i.call σ with
  | some .getpid => τ.tell (τ.pcbs τ.current).pid
  | some .getppid => τ.tell (τ.pcbs τ.current).ppid
  | _ => τ

/-- The circumstances in which an entry into the kernel makes a move. -/
def Origin (σ : State) (i : Input) (b : Life) : Move → Prop
  | .ready p _ => (b.proc p).state ≠ .killed
  | .wake _ _ => True
  | .sleep p _ => (b.proc p).state ≠ .killed
  | .blockRead p => (b.proc p).state ≠ .killed
  | .blockWait p w =>
    (b.proc p).state ≠ .killed ∧ i.call σ = some .wait ∧ p = σ.current ∧
      Rel (σ.enter i.user) b ∧ w = (σ.enter i.user).want p
  | .kill p =>
    i.call σ = some .kill ∧ (σ.enter i.user).killTarget = some p ∧ p ≠ σ.current ∧
      b.Runs σ.current ∧ Rel (σ.enter i.user) b
  | .fork p _ _ _ =>
    (b.proc p).state ≠ .killed ∧ i.call σ = some .fork ∧ p = σ.current ∧
      Rel (σ.enter i.user) b
  | .recycle _ => True
  | .reparent p => i.call σ = some .exit ∧ p = σ.current ∧ Rel (σ.enter i.user) b
  | .zombie p =>
    (b.proc p).state = .killed ∨
      (i.call σ = some .exit ∧ p = σ.current ∧
        ∀ c, (b.proc c).ppid.same (b.proc p).pid → (b.proc c).ppid.id = pidInit)
  | .deliver p _ _ _ =>
    (b.proc p).state = .killed ∨
      (i.call σ = some .exit ∧ p = σ.current ∧
        ∀ c, (b.proc c).ppid.same (b.proc p).pid → (b.proc c).ppid.id = pidInit)
  | .reap _ _ _ => i.call σ = some .wait
  | .take _ => True
  | .takeKilled _ => True
  | .abandon p => i.call σ = some .yield ∧ p = σ.current
  | .write w =>
    (Rel σ b ∧ w = (σ.enter i.user).want) ∨
      (Rel (σ.enter i.user) b ∧ w = (i.told σ).want)

/-- What an entry knows besides when it makes a move: only the clock wakes a sleeper, and
one whose time has come; a reader blocks for want of input; and a PCB is given back for
want of a stack. -/
def Cause (σ : State) (i : Input) (b : Life) : Move → Prop
  | .wake p _ =>
    (i.interrupt = .clock ∧
      ∃ key, b.place p = .queued .sleep key ∧ removeIfLeU key (σ.systemTime + 1)) ∨
    ∃ key, b.place p = .queued .reading key
  | .blockRead _ => i.call σ = some .readc ∧ (sioReadc σ.sio).1 = none
  | .recycle _ => ∀ s, ¬ b.freeStack s
  | _ => True

/-- The moves of an entry into the kernel. -/
def Caused (σ : State) (i : Input) (b : Life) (m : Move) : Prop := Origin σ i b m ∧ Cause σ i b m

/-- The dispatcher's moves may happen in any entry. -/
theorem Settling.origin {σ : State} {i : Input} (b : Life) (m : Move) (h : Settling b m) :
    Origin σ i b m := by
  cases m with
  | take p => trivial
  | takeKilled p => trivial
  | zombie p => exact Or.inl h
  | deliver p q r w => exact Or.inl h
  | _ => exact h.elim

/-- They are moves of the entry in both senses. -/
theorem Settling.caused {σ : State} {i : Input} (b : Life) (m : Move) (h : Settling b m) :
    Caused σ i b m := by
  refine ⟨Settling.origin b m h, ?_⟩
  cases m with
  | take p => trivial
  | takeKilled p => trivial
  | zombie p => trivial
  | deliver p q r w => trivial
  | _ => exact h.elim

/-! ## Calls that leave the processes alone -/

section Simple

variable {σ : State} {a : Life} {p : PcbId} {ok : Life → Move → Prop} {E : Halt → Prop}

/-- The process that has the processor does not wait. -/
theorem Life.Resting.idle (rest : a.Resting p) : (a.proc p).state ≠ .waiting := by
  rcases rest.2 with hs | hs <;> simp [hs]

/-- Nor has it been killed. -/
theorem Life.Resting.alive (rest : a.Resting p) : (a.proc p).state ≠ .killed := by
  rcases rest.2 with hs | hs <;> simp [hs]

/-- Without any move the kernel has returned already. -/
theorem Returns.stay {τ : State} (h : Rel τ a) (rest : a.Resting τ.current) :
    Returns ok a τ := ⟨a, h, rest, .refl⟩

/-- A PCB update that the life does not see. -/
theorem Rel.touch (h : Rel σ a) {f : Pcb → Pcb} (hf : ∀ b, (f b).proc = b.proc)
    (idle : (a.proc p).state ≠ .waiting) :
    Rel { σ with pcbs := Function.update σ.pcbs p (f (σ.pcbs p)) } a := by
  have hrel := h.modifyPcb (g := id) hf idle
  rwa [Life.modify_id] at hrel

/-- Storing a word of a context does not dispatch. -/
theorem State.setCtxWord_current (σ : State) (p : PcbId) (k : Nat) (v : UInt32) :
    (σ.setCtxWord p k v).current = σ.current := by
  obtain ⟨m, hm, -⟩ := σ.setCtxWord_eq p k v
  rw [hm]

variable (h : Rel σ a) (sound : a.Sound) (rest : a.Resting σ.current)
include h sound rest

/-- Storing a result is no move. -/
theorem setEax_spec (v : UInt32) : wp (setEax σ.current v) (fun _ τ => Returns ok a τ) E σ := by
  rw [setEax, wp_modify]
  exact .stay (h.setCtxWord sound.toApart rest.idle _ _)
    (by rw [State.setCtxWord_current]; exact rest)

/-- The calls that only answer make no move; here `getprio`. -/
theorem sysGetprio_spec : wp sysGetprio (fun _ τ => Returns ok a τ) E σ := by
  rw [sysGetprio, wp_bind, wp_get]
  exact setEax_spec h sound rest _

/-- `gettime` only answers. -/
theorem sysGettime_spec : wp sysGettime (fun _ τ => Returns ok a τ) E σ := by
  rw [sysGettime, wp_bind, wp_get]
  exact setEax_spec h sound rest _

/-- Calls that are not implemented answer so. -/
theorem sysNotImplemented_spec : wp sysNotImplemented (fun _ τ => Returns ok a τ) E σ := by
  rw [sysNotImplemented, wp_bind, wp_get]
  exact setEax_spec h sound rest _

/-- `getscreen` only answers. -/
theorem sysGetscreen_spec : wp sysGetscreen (fun _ τ => Returns ok a τ) E σ := by
  rw [sysGetscreen, wp_bind, wp_get]
  exact setEax_spec h sound rest _

/-- What drivers have installed answers from outside the model. -/
theorem sysExternal_spec (ext : External) :
    wp (sysExternal ext) (fun _ τ => Returns ok a τ) E σ := by
  rw [sysExternal, wp_bind, wp_get]
  exact setEax_spec h sound rest _

/-- `setEax` followed by a PCB update that the life does not see. -/
theorem setEax_touch (v : UInt32) {f : Pcb → Pcb} (hf : ∀ b, (f b).proc = b.proc) :
    wp (setEax σ.current v >>= fun _ => modifyPcb σ.current f)
      (fun _ τ => Returns ok a τ) E σ := by
  rw [wp_bind, setEax, wp_modify, modifyPcb, wp_modify]
  refine .stay ((h.setCtxWord sound.toApart rest.idle _ _).touch hf rest.idle) ?_
  rw [State.setCtxWord_current]
  exact rest

/-- `setprio` stores a number of the PCB that the abstract life does not have. -/
theorem sysSetprio_spec : wp sysSetprio (fun _ τ => Returns ok a τ) E σ := by
  rw [sysSetprio, wp_bind, wp_get]
  exact setEax_touch h sound rest _ fun _ => rfl

/-- So does `setscreen`. -/
theorem sysSetscreen_spec (ext : External) :
    wp (sysSetscreen ext) (fun _ τ => Returns ok a τ) E σ := by
  rw [sysSetscreen, wp_bind, wp_get]
  dsimp only
  rw [wp_ite]
  exact ⟨fun _ => setEax_touch h sound rest _ fun _ => rfl, fun _ => setEax_spec h sound rest _⟩

/-- The time is no part of the abstract life. -/
theorem sysSettime_spec : wp sysSettime (fun _ τ => Returns ok a τ) E σ := by
  rw [sysSettime, wp_bind, wp_get, wp_bind, setEax, wp_modify, wp_modify]
  have hrel := h.setCtxWord sound.toApart rest.idle ctxEax σ.systemTime
  refine .stay (a := a) ⟨hrel.placed.congr rfl rfl rfl, hrel.proc, hrel.want, hrel.nextPid⟩ ?_
  change a.Resting (σ.setCtxWord σ.current ctxEax σ.systemTime).current
  rw [State.setCtxWord_current]
  exact rest

/-- Nor is the serial port. -/
theorem sysWritec_spec : wp sysWritec (fun _ τ => Returns ok a τ) E σ := by
  rw [sysWritec, wp_bind, wp_get, wp_bind, wp_modify]
  have hrel : Rel { σ with sio := sioWritec σ.sio (σ.arg σ.current 1) } a :=
    ⟨h.placed.congr rfl rfl rfl, h.proc, h.want, h.nextPid⟩
  exact setEax_spec hrel sound rest _

/-- Telling the caller a pid may overwrite what a process waits for. -/
theorem tell_spec (v : UInt32) (pid : Pid) (allowed : ok a (.write (σ.tell pid).want)) :
    wp (setEax σ.current v >>= fun _ =>
        if σ.arg σ.current 1 ≠ 0 then
          modifyInfo (σ.arg σ.current 1) fun i => { i with pid := pid }
        else pure ⟨⟩)
      (fun _ τ => Returns ok a τ) E σ := by
  obtain ⟨m, hm, hkeep⟩ := σ.setCtxWord_eq σ.current ctxEax v
  have hrel := h.setCtxWord sound.toApart rest.idle ctxEax v
  rw [wp_bind, setEax, wp_modify, hm, wp_ite]
  rw [hm] at hrel
  refine ⟨fun hptr => ?_, fun _ => wp_pure.mpr (.stay hrel rest)⟩
  rw [modifyInfo, wp_modify]
  refine ⟨(Move.write (σ.tell pid).want).apply a, ?_, rest, .single trivial allowed⟩
  refine ⟨h.placed.congr rfl rfl rfl, h.proc, fun p hp => ?_, h.nextPid⟩
  symm
  simp only [Move.apply, State.tell, hptr, ne_eq, not_false_eq_true, if_true]
  refine State.want_congr rfl rfl fun s hs => hkeep s fun hcur => ?_
  have hs' : (a.proc p).stack = some s := by rw [← h.stack]; exact hs
  rw [h.stack] at hcur
  obtain rfl := sound.own _ _ s hcur hs'
  exact rest.idle hp

end Simple

/-! ## Calls that give up the CPU

Each theorem lists the moves that the handler makes as hypotheses `allowed`; the
moves of the dispatcher are allowed throughout. -/

section Blocking

variable {σ : State} {a : Life} {p : PcbId} {ok : Life → Move → Prop}

/-- The CPU is given up when the running process gets another place. -/
theorem Life.Runs.idle_of {b : Life} (runs : a.Runs p) (hp : b.place p ≠ .cpu)
    (hq : ∀ q, q ≠ p → b.place q = a.place q) : b.Idle := by
  intro q
  by_cases hqp : q = p
  · rw [hqp]; exact hp
  · rw [hq q hqp]
    exact fun hcpu => hqp ((runs q).mp hcpu)

/-- Dispatching after some moves that leave no process on the CPU. -/
theorem dispatch_after {b : Life} {τ : State} (settle : ∀ b m, Settling b m → ok b m)
    (run : Moves ok a b) (h : Rel τ b) (sound : b.Sound) (idle : b.Idle) :
    wp dispatch (fun _ υ => Returns ok a υ) (Foreseen (Orphaned ok a)) τ :=
  wp_mono (dispatch_spec h sound idle) (fun _ _ hr => (hr.mono settle).after run)
    fun _ he => he.mono fun ho => (ho.mono settle).after run

/-- The running process goes back to a ready queue. -/
theorem reschedule_spec {b : Life} {τ : State} (settle : ∀ b m, Settling b m → ok b m)
    (run : Moves ok a b) (hτ : Rel τ b) (hsound : b.Sound) (hruns : b.Runs p) (prio : UInt8)
    (allowed : ∀ i, ok b (.ready p i)) :
    wp (schedule p prio >>= fun _ => dispatch)
      (fun _ υ => Returns ok a υ) (Foreseen (Orphaned ok a)) τ := by
  refine wp_seq (schedule_rel hτ hruns.loose prio) ?_
  rintro - υ ⟨hυ, -, -⟩
  have enabled : (Move.ready p (readyIndex prio)).Enabled b := hruns
  exact dispatch_after settle (run.snoc enabled (allowed _)) hυ (Move.sound hsound enabled)
    (hruns.idle_of (by simp [Move.apply]) fun q hq => by simp [Move.apply, hq])

/-- The insertion into the sleep queue succeeds, under the time at which to wake up. -/
theorem sleepInsert_spec (h : Rel σ a) (runs : a.Runs σ.current) {E : Halt → Prop} :
    wp sleepInsert
      (fun stat τ => stat = .success ∧
        Rel τ ((Move.sleep σ.current (σ.systemTime + σ.arg σ.current 1)).apply a)) E σ := by
  have hrel : Rel { σ with
      pcbs := Function.update σ.pcbs σ.current
        { σ.pcbs σ.current with sleeptime := σ.systemTime, state := .sleeping } }
      (a.setState σ.current .sleeping) :=
    h.modifyPcb (f := fun b => { b with sleeptime := σ.systemTime, state := .sleeping })
      (fun _ => rfl) (by simp)
  rw [sleepInsert, wp_bind, wp_get, wp_bind, modifyPcb, wp_modify]
  refine wp_mono (qInsert_rel hrel runs.loose) ?_ fun _ he => he
  rintro stat τ ⟨hstat, hτ, -, -⟩
  exact ⟨hstat, hτ⟩

/-- Setting up the stack of a process that does not wait. -/
theorem setupStack_spec (h : Rel σ a) (apart : a.Apart) (idle : (a.proc p).state ≠ .waiting)
    (entry : UInt32) {E : Halt → Prop} :
    wp (setupStack (σ.pcbs p).stack entry) (fun _ τ => Rel τ a ∧ τ.current = σ.current) E σ := by
  cases hp : (σ.pcbs p).stack with
  | none => exact ⟨h, rfl⟩
  | some s =>
    rw [setupStack, wp_modify]
    refine ⟨h.store _ σ.heap fun q hq => State.want_congr rfl rfl fun t ht => ?_, rfl⟩
    rw [h.stack] at hp ht
    have hne : t ≠ s := by
      rintro rfl
      exact idle (apart.own p q t hp ht ▸ hq)
    simp only [Function.update_of_ne hne]

variable (h : Rel σ a) (sound : a.Sound) (rest : a.Resting σ.current)
  (settle : ∀ b m, Settling b m → ok b m)
include h sound rest settle

/-- **`yield`** abandons the processor and dispatches. -/
theorem sysYield_spec (allowed : ok a (.abandon σ.current)) :
    wp sysYield (fun _ τ => Returns ok a τ) (Foreseen (Orphaned ok a)) σ := by
  have enabled : (Move.abandon σ.current).Enabled a := rest.1
  have hrel : Rel σ ((Move.abandon σ.current).apply a) :=
    h.move_loose rest.1.loose (by simp)
  refine dispatch_after settle (.single enabled allowed) hrel (Move.sound sound enabled)
    (rest.1.idle_of (by simp [Move.apply]) fun q hq => by simp [Move.apply, hq])

/-- **`sleep`** files the caller under its wake-up time and dispatches. -/
theorem sysSleep_spec (allowed : ∀ key, ok a (.sleep σ.current key)) :
    wp sysSleep (fun _ τ => Returns ok a τ) (Foreseen (Orphaned ok a)) σ := by
  rw [sysSleep, wp_bind, wp_get]
  refine wp_seq (sleepInsert_spec h rest.1) ?_
  rintro stat τ ⟨rfl, hτ⟩
  rw [wp_ite]
  refine ⟨absurd rfl, fun _ => ?_⟩
  have enabled : (Move.sleep σ.current (σ.systemTime + σ.arg σ.current 1)).Enabled a := rest.1
  exact dispatch_after settle (.single enabled (allowed _)) hτ (Move.sound sound enabled)
    (rest.1.idle_of (by simp [Move.apply]) fun q hq => by simp [Move.apply, hq])

omit sound settle in
/-- The status that a blocked process gets is not part of the abstract life. -/
theorem Rel.setBlocked : Rel { σ with
      pcbs := Function.update σ.pcbs σ.current
        { σ.pcbs σ.current with status := UInt32.ofNat ProcState.blocked.code } }
      (a.modify σ.current fun b => { b with status := UInt32.ofNat ProcState.blocked.code }) :=
  h.modifyPcb (f := fun b => { b with status := UInt32.ofNat ProcState.blocked.code })
    (fun _ => rfl) rest.idle

/-- The caller of `readc` joins the readers, where there is no character. -/
theorem readcBlock_spec (allowed : ok a (.blockRead σ.current)) :
    wp readcBlock (fun _ τ => Returns ok a τ) (Foreseen (Orphaned ok a)) σ := by
  have hrel := h.setBlocked rest
  rw [readcBlock, wp_bind, wp_get, h.pid, wp_bind, modifyPcb, wp_modify]
  refine wp_seq (qInsert_rel hrel rest.1.loose) ?_
  rintro stat τ ⟨rfl, hτ, -, -⟩
  rw [wp_bind]
  refine check_spec (absurd rfl) fun _ => ?_
  have enabled : (Move.blockRead σ.current).Enabled a := rest.1
  exact dispatch_after settle (.single enabled allowed) hτ (Move.sound sound enabled)
    (rest.1.idle_of (by simp [Move.apply]) fun q hq => by simp [Move.apply, hq])

/-- **`readc`** returns a character or blocks. -/
theorem sysReadc_spec
    (allowed : (sioReadc σ.sio).1 = none → ok a (.blockRead σ.current)) :
    wp sysReadc (fun _ τ => Returns ok a τ) (Foreseen (Orphaned ok a)) σ := by
  rw [sysReadc, wp_bind, wp_get]
  dsimp only
  rw [wp_bind, wp_modify]
  have hrel : Rel { σ with sio := (sioReadc σ.sio).2 } a :=
    ⟨h.placed.congr rfl rfl rfl, h.proc, h.want, h.nextPid⟩
  split
  · exact setEax_spec hrel sound rest _
  · rename_i hempty
    exact readcBlock_spec hrel sound rest settle (allowed hempty)

/-- **`exec`** makes the caller ready again, with a new stack, and dispatches. -/
theorem sysExec_spec (allowed : ∀ i, ok a (.ready σ.current i)) :
    wp sysExec (fun _ τ => Returns ok a τ) (Foreseen (Orphaned ok a)) σ := by
  rw [sysExec, wp_bind, wp_get]
  dsimp only
  refine wp_seq (setupStack_spec h sound.toApart rest.idle _) ?_
  rintro - τ ⟨hτ, -⟩
  rw [wp_bind, modifyPcb, wp_modify]
  have hnew := hτ.touch (p := σ.current)
    (f := fun b => { b with context := some setupContext, prio := (σ.arg σ.current 1).toUInt8 })
    (fun _ => rfl) rest.idle
  exact reschedule_spec settle .refl hnew sound rest.1 _ allowed

/-- A process that kills itself just goes back to a ready queue: `_schedule` stores
`READY` over the mark. -/
theorem sysKill_spec
    (allowed : ∀ p, σ.killTarget = some p → p ≠ σ.current → ok a (.kill p))
    (again : ∀ i, ok a (.ready σ.current i)) :
    wp sysKill (fun _ τ => Returns ok a τ) (Foreseen (Orphaned ok a)) σ := by
  rw [sysKill, wp_bind, wp_get]
  split
  · exact setEax_spec h sound rest _
  rename_i p htarget
  have hmark : Rel { σ with
      pcbs := Function.update σ.pcbs p { σ.pcbs p with state := .killed } }
      (a.setState p .killed) := h.setState (by decide)
  rw [wp_bind, setState, modifyPcb, wp_modify, wp_ite]
  constructor
  · rintro rfl
    refine wp_seq (schedule_rel hmark rest.1.loose _) ?_
    rintro - τ ⟨hτ, -, -⟩
    have enabled : (Move.ready σ.current (readyIndex (σ.pcbs σ.current).prio)).Enabled a := rest.1
    have hready : Rel τ ((Move.ready σ.current
        (readyIndex (σ.pcbs σ.current).prio)).apply a) := by
      convert hτ using 1
      simp [Move.apply, Life.setState, Life.modify, Life.move]
    exact dispatch_after settle (.single enabled (again _)) hready (Move.sound sound enabled)
      (rest.1.idle_of (by simp [Move.apply]) fun q hq => by simp [Move.apply, hq])
  · intro hne
    have enabled : (Move.kill p).Enabled a := by
      have hfind := List.find?_some htarget
      simp only [Bool.and_eq_true, decide_eq_true_eq, h.state] at hfind
      exact hfind.1
    refine ⟨(Move.kill p).apply a, hmark, ⟨rest.1, ?_⟩, .single enabled (allowed p htarget hne)⟩
    simpa [Move.apply, Ne.symm hne] using rest.2

end Blocking

/-! ## `wait` -/

section Wait

variable {σ : State} {a : Life} {p : PcbId} {ok : Life → Move → Prop}

/-- The scan stops at the first child that is a zombie, or goes through the whole
list without meeting one. -/
theorem waitScan_spec (pcbs : PcbId → Pcb) (me : Pid) (l : List PcbId) (s : WaitScan) :
    (waitScan pcbs me l s).i ≤ s.i + l.length ∧
      ((pcbs (waitScan pcbs me l s).pcb).state = .zombie ∨
        ∀ p ∈ l, (pcbs p).ppid.same me → (pcbs p).state ≠ .zombie) := by
  induction l generalizing s with
  | nil => exact ⟨Nat.le_refl _, Or.inr (by simp)⟩
  | cons q rest ih =>
    unfold waitScan
    split
    · split
      · rename_i hstate
        exact ⟨Nat.le_add_right _ _, Or.inl hstate⟩
      · rename_i hstate
        obtain ⟨hi, hrest⟩ := ih { i := s.i + 1, pcb := q, found := some q }
        change _ ≤ s.i + 1 + rest.length at hi
        refine ⟨by simp only [List.length_cons]; omega, hrest.imp_right fun hnone p hp hchild => ?_⟩
        rcases List.mem_cons.mp hp with rfl | hp
        · exact hstate
        · exact hnone p hp hchild
    · rename_i hchild
      obtain ⟨hi, hrest⟩ := ih { s with i := s.i + 1, pcb := q }
      change _ ≤ s.i + 1 + rest.length at hi
      refine ⟨by simp only [List.length_cons]; omega,
        hrest.imp_right fun hnone p hp hsame => ?_⟩
      rcases List.mem_cons.mp hp with rfl | hp
      · exact absurd hsame hchild
      · exact hnone p hp hsame

/-- A caller that waits for any child never gets the answer that there is none; and
if it is made to wait, none of its children is a zombie. -/
theorem waitChoice_any (σ : State) {info : UInt32} (hid : (σ.heap info).pid.id = 0) :
    ∃ q, σ.waitChoice info = some q ∧
      ((σ.pcbs q).state ≠ .zombie →
        ∀ c, (σ.pcbs c).ppid.same (σ.pcbs σ.current).pid → (σ.pcbs c).state ≠ .zombie) := by
  obtain ⟨hi, hscan⟩ := waitScan_spec σ.pcbs (σ.pcbs σ.current).pid (List.finRange nPcbs)
    { i := 0, pcb := 0, found := none }
  have hlast : ¬ nPcbs < (waitScan σ.pcbs (σ.pcbs σ.current).pid (List.finRange nPcbs)
      { i := 0, pcb := 0, found := none }).i := by
    simp only [List.length_finRange] at hi
    omega
  refine ⟨_, by simp [State.waitChoice, hid, hlast]; rfl, fun hstate c hchild => ?_⟩
  exact (hscan.resolve_left hstate) c (List.mem_finRange c) hchild

/-- Collecting a zombie. -/
theorem waitReap_spec (h : Rel σ a) (sound : a.Sound) (rest : a.Resting σ.current)
    (info : UInt32) {q : PcbId} (zombie : (a.proc q).state = .zombie)
    (allowed : ∀ r w, ok a (.reap q r w)) {orphan : Prop} :
    wp (waitReap info q)
      (fun _ τ => Returns ok a τ ∧ τ.heap = Function.update σ.heap info
        ⟨(a.proc q).pid, (a.proc q).status⟩) (Foreseen orphan) σ := by
  rw [waitReap, wp_bind, wp_get, h.pid, h.status]
  refine wp_seq (modifyInfo_rel h info _) ?_
  rintro - τ₁ ⟨w, hw, h₁, hτ₁⟩
  have hfiled : a.place q = .queued .zombie (a.proc q).pid.id := sound.place_zombie zombie
  refine wp_seq (qRemoveByKey_target (p := q) h₁ hfiled rfl (by simp [removeIfEqual])) ?_
  rintro res τ₂ ⟨r, k, rfl, hplace, hrem, h₂, -, hframe₂, -⟩
  have hkey : k = (a.proc q).pid.id := by simpa [removeIfEqual] using hrem
  subst hkey
  have hne : r ≠ σ.current := by
    rintro rfl
    simp [rest.1.place] at hplace
  have hidle : (a.proc r).state ≠ .waiting := by
    have hfits := sound.fits r
    rw [show a.place r = _ from hplace] at hfits
    rcases hfits with hs | hs <;> simp [hs]
  dsimp only
  rw [h.stack]
  refine wp_seq (stackFree_rel (a := ({ a with want := w } : Life).move r .limbo) (p := r) h₂
    ⟨sound.own, sound.held⟩ hidle) ?_
  rintro stat τ₃ hstat
  rw [wp_bind]
  refine check_spec (fun hbad => ?_) fun hgood => ?_
  · rcases hstat with ⟨rfl, -⟩ | ⟨rfl, -⟩
    · exact foreseen_status (by decide) (by decide) (by simp [Halt.Misses])
    · exact absurd rfl hbad
  obtain ⟨-, h₃, hframe₃, -⟩ := hstat.resolve_left (by rintro ⟨rfl, -⟩; cases hgood)
  refine wp_seq (pcbFree_rel (p := r) h₃ (by intro X key; simp)) ?_
  rintro stat τ₄ ⟨rfl, h₄, hframe₄, -⟩
  refine check_spec (absurd rfl) fun _ => ?_
  have hcurrent : τ₄.current = σ.current := by
    rw [hframe₄.current, hframe₃.current, hframe₂.current, hτ₁]
  refine ⟨⟨(Move.reap q r w).apply a, ?_, ?_, .single ⟨zombie, hplace, hw⟩ (allowed r w)⟩, ?_⟩
  · convert h₄ using 1
    ext1
    · funext x
      by_cases hx : x = r <;> simp [Move.apply, hx]
    all_goals rfl
  · rw [hcurrent]
    refine ⟨fun x => ?_, by simpa [Move.apply, Ne.symm hne] using rest.2⟩
    by_cases hx : x = r
    · simp [Move.apply, hx, hne]
    · simpa [Move.apply, hx] using rest.1 x
  · rw [hframe₄.heap, hframe₃.heap, hframe₂.heap, hτ₁]

/-- What the caller of `wait` is told when there is nothing to wait for does not
touch any pid. -/
theorem modifyInfo_status (h : Rel σ a) (info : UInt32) (v : UInt32) {E : Halt → Prop} :
    wp (modifyInfo info fun i => { i with status := v })
      (fun _ τ => Rel τ a ∧ τ.current = σ.current) E σ := by
  rw [modifyInfo, wp_modify]
  refine ⟨h.store σ.stackMem _ fun x _ => ?_, rfl⟩
  change (Function.update σ.heap info { σ.heap info with status := v } (σ.arg x 1)).pid =
    (σ.heap (σ.arg x 1)).pid
  by_cases hinfo : σ.arg x 1 = info
  · rw [hinfo, Function.update_self]
  · rw [Function.update_of_ne hinfo]

/-- The caller is marked as waiting, for what its `info_t` says. -/
theorem Rel.setWaiting (h : Rel σ a) :
    Rel { σ with
      pcbs := Function.update σ.pcbs σ.current { σ.pcbs σ.current with state := .waiting } }
      { a.setState σ.current .waiting with
        want := Function.update a.want σ.current (σ.want σ.current) } := by
  refine ⟨h.placed.congr rfl rfl rfl, fun q => ?_, fun q hq => ?_, h.nextPid⟩
  · by_cases hqc : q = σ.current
    · rw [hqc]; simp [← h.proc, Pcb.proc]
    · simp [hqc, h.proc]
  · have hsame : ({ σ with
        pcbs := Function.update σ.pcbs σ.current
          { σ.pcbs σ.current with state := .waiting } } : State).want q = σ.want q := by
      by_cases hqc : q = σ.current
      · subst hqc; simp [State.want, State.arg, State.ctxWord]
      · exact State.want_congr (by simp [hqc]) rfl fun _ _ => rfl
    rw [hsame]
    by_cases hqc : q = σ.current
    · simp [hqc]
    · simpa [hqc] using h.want q (by simpa [hqc] using hq)

/-- The caller of `wait` may block when there is a child, but no zombie. -/
theorem blockWait_enabled (h : Rel σ a) (rest : a.Resting σ.current) {q : PcbId}
    (hchoice : σ.waitChoice (σ.arg σ.current 1) = some q) (hzombie : (a.proc q).state ≠ .zombie) :
    (Move.blockWait σ.current (σ.want σ.current)).Enabled a := by
  refine ⟨rest.1, fun hany c hchild => ?_, fun hid => ?_⟩
  · obtain ⟨q', hq', hnone⟩ := waitChoice_any σ hany
    obtain rfl : q = q' := by rw [hchoice] at hq'; exact Option.some.inj hq'
    rw [h.state] at hnone
    have hc := hnone hzombie c (by rw [h.ppid, h.pid]; exact hchild)
    rwa [h.state] at hc
  · have hpos : 0 < (σ.heap (σ.arg σ.current 1)).pid.id := UInt32.pos_iff_ne_zero.mpr hid
    rw [State.waitChoice, if_pos hpos, h.find] at hchoice
    exact ⟨q, hchoice, hzombie⟩

/-- The caller of `wait` joins the waiting queue under the pid it waits for. -/
theorem waitBlock_spec (h : Rel σ a) (sound : a.Sound) (settle : ∀ b m, Settling b m → ok b m)
    (enabled : (Move.blockWait σ.current (σ.want σ.current)).Enabled a)
    (allowed : ok a (.blockWait σ.current (σ.want σ.current))) :
    wp waitBlock (fun _ τ => Returns ok a τ) (Foreseen (Orphaned ok a)) σ := by
  have hruns := enabled.1
  have hrel := h.setWaiting
  rw [waitBlock, wp_bind, wp_get, h.pid, setState, modifyPcb, wp_bind, wp_modify]
  refine wp_seq (qInsert_rel hrel hruns.loose) ?_
  rintro stat τ ⟨rfl, hτ, -, -⟩
  rw [wp_bind]
  refine check_spec (absurd rfl) fun _ => ?_
  exact dispatch_after settle (.single enabled allowed) hτ (Move.sound sound enabled)
    (hruns.idle_of (by simp [Move.apply]) fun q hq => by simp [Move.apply, hq])

/-- **`wait`** refuses, collects a zombie, or blocks. -/
theorem sysWait_spec (h : Rel σ a) (sound : a.Sound) (rest : a.Resting σ.current)
    (settle : ∀ b m, Settling b m → ok b m)
    (blocked : ok a (.blockWait σ.current (σ.want σ.current)))
    (reaped : ∀ q r w, ok a (.reap q r w)) :
    wp sysWait (fun _ τ => Returns ok a τ) (Foreseen (Orphaned ok a)) σ := by
  rw [sysWait, wp_bind, wp_get]
  dsimp only
  rw [wp_ite]
  refine ⟨fun _ => setEax_spec h sound rest _, fun _ => ?_⟩
  split
  · refine wp_mono (modifyInfo_status h _ _) ?_ fun _ he => he
    rintro - τ ⟨hτ, hcurrent⟩
    exact .stay hτ (by rw [hcurrent]; exact rest)
  rename_i q hchoice
  rw [h.state, wp_ite]
  refine ⟨fun hzombie => wp_mono (waitReap_spec h sound rest _ hzombie (reaped q))
    (fun _ _ hreap => hreap.1) fun _ he => he, fun hzombie => ?_⟩
  exact waitBlock_spec h sound settle (blockWait_enabled h rest hchoice hzombie) blocked

end Wait

/-! ## `exit` and `fork` -/

section Family

variable {σ : State} {a : Life} {p : PcbId} {ok : Life → Move → Prop}

/-- The loop that hands the children over stores nothing but their parent. -/
theorem reparent_stack (pcbs : PcbId → Pcb) (me : Pid) (p : PcbId) :
    (reparent pcbs me p).stack = (pcbs p).stack := by
  unfold reparent
  split <;> rfl

/-- So their contexts stay. -/
theorem reparent_context (pcbs : PcbId → Pcb) (me : Pid) (p : PcbId) :
    (reparent pcbs me p).context = (pcbs p).context := by
  unfold reparent
  split <;> rfl

/-- The loop over the PCB table with which `exit` starts. -/
theorem reparent_rel (h : Rel σ a) :
    Rel { σ with pcbs := reparent σ.pcbs (σ.pcbs σ.current).pid }
      ((Move.reparent σ.current).apply a) := by
  refine ⟨h.placed.congr rfl rfl rfl, fun q => ?_, fun q hq => ?_, h.nextPid⟩
  · simp only [reparent, Move.apply, h.ppid, h.pid]
    split <;> simp [← h.proc, Pcb.proc]
  · have hstate : (a.proc q).state = .waiting := by
      simp only [Move.apply] at hq
      split at hq <;> exact hq
    rw [show ((Move.reparent σ.current).apply a).want = a.want from rfl, h.want q hstate]
    simp only [State.want, State.arg, State.ctxWord, reparent_stack, reparent_context]

/-- **`exit`** hands the children over, ends the caller and dispatches. -/
theorem sysExit_spec (h : Rel σ a) (sound : a.Sound) (rest : a.Resting σ.current)
    (settle : ∀ b m, Settling b m → ok b m) (handed : ok a (.reparent σ.current))
    (ended : ∀ m : Move, m.Ends σ.current → ok ((Move.reparent σ.current).apply a) m) :
    wp sysExit (fun _ τ => Returns ok a τ) (Foreseen (Orphaned ok a)) σ := by
  have enabled : (Move.reparent σ.current).Enabled a := rest.1
  have hsound := Move.sound sound enabled
  have hrun : Moves ok a ((Move.reparent σ.current).apply a) := .single enabled handed
  rw [sysExit, wp_bind, wp_get, wp_bind, wp_modify]
  refine wp_seq (wp_mono (zombify_spec (reparent_rel h) hsound rest.1 rfl) (fun _ _ hx => hx)
    fun e he => he.mono fun hnone => ⟨_, σ.current, hrun, rest.1, hnone⟩) ?_
  rintro - τ ⟨m, ends, henabled, hτ, hidle, -⟩
  exact dispatch_after settle (hrun.snoc henabled (ended m ends)) hτ
    (Move.sound hsound henabled) hidle

/-- The same move by move: the children are handed over, the caller ends, and the
dispatcher does the rest. -/
theorem sysExit_moves (h : Rel σ a) (sound : a.Sound) (rest : a.Resting σ.current) :
    wp sysExit
      (fun _ τ => ∃ m : Move, m.Ends σ.current ∧ m.Enabled ((Move.reparent σ.current).apply a) ∧
        Returns Settling (m.apply ((Move.reparent σ.current).apply a)) τ) (fun _ => True) σ := by
  have enabled : (Move.reparent σ.current).Enabled a := rest.1
  have hsound := Move.sound sound enabled
  rw [sysExit, wp_bind, wp_get, wp_bind, wp_modify]
  refine wp_seq (wp_mono (zombify_spec (reparent_rel h) hsound rest.1 rfl) (fun _ _ hx => hx)
    fun _ _ => trivial) ?_
  rintro - τ ⟨m, ends, henabled, hτ, hidle, -⟩
  exact wp_mono (dispatch_spec hτ (Move.sound hsound henabled) hidle)
    (fun _ _ hr => ⟨m, ends, henabled, hr⟩) fun _ _ => trivial

/-- A life in which the child has its PCB and stack but is not scheduled yet. -/
def Life.hatched (a : Life) (p c : PcbId) (s : StackId) : Life :=
  { (a.modify c fun b =>
      { b with pid := a.nextPid, ppid := (a.proc p).pid, stack := some s }).move c .limbo with
    freeStack := fun t => a.freeStack t ∧ t ≠ s
    nextPid := { a.nextPid with id := a.nextPid.id + 1 } }

/-- The stack that the child gets was free, so nobody else has it. -/
theorem Life.Sound.hatched (sound : a.Sound) {c : PcbId} {s : StackId} (free : a.freeStack s) :
    (a.hatched p c s).Apart where
  own x y t hx hy := by
    simp only [Life.hatched, Life.move_proc, Life.modify_proc] at hx hy
    split at hx <;> split at hy
    · simp_all
    · exact absurd free (sound.held y s (by simp_all))
    · exact absurd free (sound.held x s (by simp_all))
    · exact sound.own x y t hx hy
  held x t hx := by
    simp only [Life.hatched, Life.move_proc, Life.modify_proc] at hx
    split at hx
    · simp_all [Life.hatched]
    · exact fun hfree => sound.held x t hx hfree.1

/-- Filling the child's stack leaves every other process as it is. -/
theorem forkStack_spec (h : Rel σ a) (apart : a.Apart) {c : PcbId} {s : StackId}
    (hc : (a.proc c).stack = some s) (idle : (a.proc c).state ≠ .waiting) {E : Halt → Prop} :
    wp (forkStack c s) (fun _ τ => Rel τ a ∧ τ.current = σ.current) E σ := by
  rw [forkStack, wp_bind, wp_get]
  split
  · exact ⟨h, rfl⟩
  rename_i from_ _
  rw [wp_bind, wp_modify]
  dsimp only
  have h₁ := h.store (Function.update σ.stackMem s fun k =>
      if k < stackSize then σ.stackMem from_ k else σ.stackMem s k) σ.heap fun q hq => by
    refine State.want_congr rfl rfl fun t ht => ?_
    rw [h.stack] at ht
    have hne : t ≠ s := by
      rintro rfl
      exact idle (apart.own c q t hc ht ▸ hq)
    simp only [Function.update_of_ne hne]
  have h₂ := h₁.touch (p := c)
    (f := fun b => { b with context := (σ.pcbs σ.current).context }) (fun _ => rfl) idle
  rw [wp_bind, modifyPcb, wp_modify, wp_bind, wp_modify, wp_modify]
  refine ⟨(h₂.setCtxWord apart idle _ _).setCtxWord apart idle _ _, ?_⟩
  rw [State.setCtxWord_current, State.setCtxWord_current]

/-- **Everything `fork` does once it has a PCB and a stack** is one move. -/
theorem forkSetup_spec {c : PcbId} {s : StackId}
    (h : Rel σ { a.move c .limbo with freeStack := fun t => a.freeStack t ∧ t ≠ s })
    (sound : a.Sound) (rest : a.Resting σ.current) (hc : a.Free c) (hs : a.freeStack s)
    (allowed : ∀ i, ok a (.fork σ.current c s i)) {E : Halt → Prop} :
    wp (forkSetup c s) (fun _ τ => Returns ok a τ) E σ := by
  have hne : σ.current ≠ c := by
    rintro rfl
    exact rest.1.not_free hc
  have hstate : (a.proc c).state = .free := sound.state_free hc
  have hidle : ((a.hatched σ.current c s).proc c).state ≠ .waiting := by
    simp [Life.hatched, hstate]
  have hrest : ((a.hatched σ.current c s).proc σ.current).state ≠ .waiting := by
    simpa [Life.hatched, hne] using rest.idle
  have hapart : (a.hatched σ.current c s).Apart := sound.hatched hs
  rw [forkSetup, wp_bind, pidNext, wp_bind, wp_get, wp_bind, wp_set, wp_pure, wp_bind, modifyPcb,
    wp_modify, wp_bind, wp_get]
  dsimp only
  rw [Function.update_of_ne hne, wp_bind, modifyPcb, wp_modify]
  refine wp_seq (forkStack_spec (a := a.hatched σ.current c s) ?_ hapart
    (by simp [Life.hatched]) hidle) ?_
  · refine ⟨h.placed.congr rfl rfl rfl, fun q => ?_, fun q hq => ?_, ?_⟩
    · have hproc := h.proc q
      by_cases hqc : q = c
      · subst hqc
        have hpid := h.pid σ.current
        have hnext := h.nextPid
        simp only [Life.move_proc, Life.move_nextPid] at hproc hpid hnext
        simp [Life.hatched, hpid, hnext, ← hproc, Pcb.proc]
      · simpa [Life.hatched, hqc] using hproc
    · have hqc : q ≠ c := by
        rintro rfl
        exact hidle hq
      have hq' : (a.proc q).state = .waiting := by simpa [Life.hatched, hqc] using hq
      rw [show (a.hatched σ.current c s).want q = σ.want q from h.want q hq']
      symm
      exact State.want_congr (by simp [hqc]) rfl fun _ _ => rfl
    · have hnext := h.nextPid
      simp only [Life.move_nextPid] at hnext
      simp [Life.hatched, hnext]
  rintro - τ ⟨h₁, hcurrent⟩
  rw [wp_bind, setEax, wp_modify, wp_bind, setEax, wp_modify]
  have h₂ := h₁.setCtxWord hapart hidle ctxEax 0
  have h₃ := h₂.setCtxWord hapart hrest ctxEax σ.nextPid.id
  refine wp_mono (schedule_rel h₃ (by intro X key; simp [Life.hatched]) _) ?_ fun _ he => he
  rintro - υ ⟨hυ, hframe, -⟩
  have hcurrent' : υ.current = σ.current := by
    rw [hframe.current, State.setCtxWord_current, State.setCtxWord_current, hcurrent]
  refine ⟨(Move.fork σ.current c s (readyIndex (σ.pcbs σ.current).prio)).apply a, ?_, ?_,
    .single ⟨rest.1, hc, hs⟩ (allowed _)⟩
  · convert hυ using 1
    ext1
    · funext x
      by_cases hx : x = c <;> simp [Move.apply, Life.hatched, hx]
    · funext x
      by_cases hx : x = c <;> simp [Move.apply, Life.hatched, hx]
    all_goals rfl
  · rw [hcurrent']
    refine ⟨fun x => ?_, by simpa [Move.apply, hne] using rest.2⟩
    by_cases hx : x = c
    · simp [Move.apply, hx, Ne.symm hne]
    · simpa [Move.apply, hx] using rest.1 x

/-- **`fork` makes one process or none.**  If a PCB can be had but no stack, the
PCB goes back cleared. -/
theorem sysFork_spec (h : Rel σ a) (sound : a.Sound) (rest : a.Resting σ.current)
    (recycled : (∀ s, ¬ a.freeStack s) → ∀ c, ok a (.recycle c))
    (forked : ∀ c s i, ok a (.fork σ.current c s i))
    {orphan : Prop} :
    wp sysFork (fun _ τ => Returns ok a τ) (Foreseen orphan) σ := by
  rw [sysFork, wp_bind, wp_get, pcbAlloc]
  refine wp_seq (qRemove_rel h) ?_
  rintro res τ (⟨rfl, rfl, -⟩ | ⟨c, key, rfl, hplace, h₁, -, hframe, -⟩)
  · exact setEax_spec h sound rest _
  dsimp only
  have hfree : a.Free c := ⟨key, hplace⟩
  have hne : σ.current ≠ c := by
    rintro rfl
    exact rest.1.not_free hfree
  have hrest : a.Resting τ.current := by rw [hframe.current]; exact rest
  refine wp_seq (stackAlloc_spec h₁.placed) ?_
  rintro res υ (⟨stat, rfl, rfl, hnone⟩ | ⟨s, n, q, rfl, hs, rfl, hplaced⟩)
  · refine wp_seq (pcbFree_rel (p := c) h₁ (by intro X k; simp)) ?_
    rintro stat' υ' ⟨rfl, h₂, hframe₂, -⟩
    have enabled : (Move.recycle c).Enabled a := hfree
    have hrel : Rel υ' ((Move.recycle c).apply a) := by
      convert h₂ using 1
      simp [Move.apply, Life.move, Life.modify]
    have hresting : ((Move.recycle c).apply a).Resting υ'.current := by
      rw [hframe₂.current, hframe.current]
      refine ⟨fun x => ?_, by simpa [Move.apply, hne] using rest.2⟩
      by_cases hx : x = c
      · simp [Move.apply, hx, Ne.symm hne]
      · simpa [Move.apply, hx] using rest.1 x
    rw [wp_bind]
    refine check_spec (absurd rfl) fun _ => ?_
    have hcurrent : υ'.current = σ.current := hframe₂.current.trans hframe.current
    rw [← hcurrent]
    have hback : wp (setEax υ'.current (-1)) (fun _ τ => Returns ok ((Move.recycle c).apply a) τ)
        (Foreseen orphan) υ' := setEax_spec hrel (Move.sound sound enabled) hresting _
    exact wp_mono hback (fun _ _ hr => hr.after (.single enabled (recycled hnone c))) fun _ he => he
  · refine forkSetup_spec (a := a) (c := c) (s := s)
      ⟨hplaced, h₁.proc, h₁.want, h₁.nextPid⟩ sound hrest hfree hs ?_
    rw [show ({ τ with qnodes := n, stackAvail := q } : State).current = τ.current from rfl,
      hframe.current]
    exact forked c s

end Family

/-! ## Interrupts -/

section Interrupts

variable {σ : State} {a : Life} {ok : Life → Move → Prop} {E : Halt → Prop}

/-- Waking a process that has just been taken off its queue. -/
theorem wake_spec {p : PcbId} {τ : State} (rest : a.Resting σ.current)
    (enabled : ∃ key, a.place p = .queued .sleep key ∨ a.place p = .queued .reading key)
    (h : Rel τ (a.move p .limbo)) (current : τ.current = σ.current) (prio : UInt8)
    (allowed : ok a (.wake p (readyIndex prio))) :
    wp (schedule p prio)
      (fun _ υ => Returns ok a υ ∧ υ.current = σ.current ∧
        Grown τ (.ready (readyIndex prio)) υ) E τ := by
  have hne : p ≠ σ.current := by
    rintro rfl
    obtain ⟨key, hkey | hkey⟩ := enabled <;> simp [rest.1.place] at hkey
  refine wp_mono (schedule_rel h (by intro X key; simp) prio) ?_ fun _ he => he
  rintro - υ ⟨hυ, hframe, hgrown⟩
  refine ⟨⟨(Move.wake p (readyIndex prio)).apply a, ?_, ?_, .single enabled allowed⟩,
    hframe.current.trans current, hgrown⟩
  · convert hυ using 1
    simp [Move.apply, Life.move, Life.setState, Life.modify]
  · rw [hframe.current, current]
    refine ⟨fun x => ?_, by simpa [Move.apply, Ne.symm hne] using rest.2⟩
    by_cases hx : x = p
    · simp [Move.apply, hx, hne]
    · simpa [Move.apply, hx] using rest.1 x

/-- **The wake-up loop** takes at least one sleeper off its queue on each turn but
the last. -/
theorem wakeLoop_spec (n : Nat) (h : Rel σ a) (rest : a.Resting σ.current)
    (fuel : (σ.queues .sleep).items.length < n) (key : Key)
    (allowed : ∀ b p k, b.place p = .queued .sleep k → removeIfLeU k key →
      ok b (.wake p (readyIndex prioMaximum))) :
    wp (wakeLoop n key) (fun _ τ => Returns ok a τ ∧ τ.current = σ.current) E σ := by
  induction n generalizing σ a with
  | zero => omega
  | succ n ih =>
    rw [wakeLoop]
    refine wp_seq (qRemoveByKey_rel h) ?_
    rintro res τ (⟨stat, rfl, -, rfl⟩ | ⟨p, k, rfl, hplace, hrem, h₁, -, hframe, q, hq, hlen⟩)
    · exact ⟨.stay h rest, rfl⟩
    refine wp_seq (wake_spec rest ⟨k, Or.inl hplace⟩ h₁ hframe.current prioMaximum
      (allowed a p k hplace (hrem removeIfLeU rfl))) ?_
    rintro - υ ⟨⟨b, hb, hrest, hrun⟩, hcurrent, q', hq', -⟩
    have hsleep : (υ.queues .sleep).items.length + 1 = (σ.queues .sleep).items.length := by
      rw [hq', Function.update_of_ne (by simp), hq, Function.update_self]
      exact hlen
    refine wp_mono (ih hb hrest (by omega)) ?_ fun _ he => he
    rintro - φ ⟨hφ, hcur⟩
    exact ⟨hφ.after hrun, hcur.trans hcurrent⟩

/-- The tick changes nothing that the abstract life has. -/
theorem tick_spec (h : Rel σ a) :
    wp tick
      (fun _ τ => Rel τ a ∧ τ.current = σ.current ∧ τ.systemTime = σ.systemTime + 1) E σ := by
  rw [tick, wp_modify]
  dsimp only
  split <;> exact ⟨⟨h.placed.congr rfl rfl rfl, h.proc, h.want, h.nextPid⟩, rfl, rfl⟩

/-- **The clock interrupt** wakes the sleepers that are due, makes the current process ready and
dispatches. -/
theorem isrClock_spec (h : Rel σ a) (sound : a.Sound) (rest : a.Resting σ.current)
    (settle : ∀ b m, Settling b m → ok b m)
    (wake : ∀ b p k, b.place p = .queued .sleep k → removeIfLeU k (σ.systemTime + 1) →
      ok b (.wake p (readyIndex prioMaximum)))
    (ready : ∀ b p i, (b.proc p).state ≠ .killed → ok b (.ready p i)) :
    wp isrClock (fun _ τ => Returns ok a τ) (Foreseen (Orphaned ok a)) σ := by
  rw [isrClock]
  refine wp_seq (tick_spec h) ?_
  rintro - τ ⟨hτ, hcurrent, htime⟩
  rw [wp_bind, wp_get, htime]
  refine wp_seq (wakeLoop_spec _ hτ (by rw [hcurrent]; exact rest) (Nat.lt_succ_self _) _ wake) ?_
  rintro - υ ⟨⟨b, hb, hrest, hrun⟩, -⟩
  rw [wp_bind, wp_get]
  exact reschedule_spec settle hrun hb (hrun.sound sound) hrest.1 _
    fun i => ready b _ i hrest.alive

/-- A character wakes one reader, or is stored. -/
theorem sioReceive_spec (h : Rel σ a) (sound : a.Sound) (rest : a.Resting σ.current) (raw : UInt8)
    (wake : ∀ b p i k, b.place p = .queued .reading k → ok b (.wake p i)) {orphan : Prop} :
    wp (sioReceive raw) (fun _ τ => Returns ok a τ) (Foreseen orphan) σ := by
  rw [sioReceive, wp_bind, wp_get, wp_ite]
  refine ⟨fun _ => wp_modify.mpr (.stay
    ⟨h.placed.congr rfl rfl rfl, h.proc, h.want, h.nextPid⟩ rest), fun _ => ?_⟩
  refine wp_seq (qRemove_rel h) ?_
  rintro res τ (⟨rfl, -, -⟩ | ⟨p, key, rfl, hplace, h₁, -, hframe, -⟩)
  · exact wp_throw.mpr (foreseen_status (by decide) (by decide) (by simp [Halt.Misses]))
  have hidle : (a.proc p).state ≠ .waiting := by
    have hfits := sound.fits p
    rw [hplace] at hfits
    rcases hfits with hs | hs | hs <;> simp [hs]
  dsimp only
  rw [wp_bind, setEax, wp_modify]
  refine wp_mono (wake_spec rest ⟨key, Or.inr hplace⟩
    (h₁.setCtxWord ⟨sound.own, sound.held⟩ hidle _ _)
    ((State.setCtxWord_current ..).trans hframe.current) _
    (wake a p _ key hplace)) ?_ fun _ he => he
  exact fun _ υ hυ => hυ.1

/-- So each event is at most one move. -/
theorem sioEvent_spec (h : Rel σ a) (sound : a.Sound) (rest : a.Resting σ.current)
    (event : SioEvent) (wake : ∀ b p i k, b.place p = .queued .reading k → ok b (.wake p i))
    {orphan : Prop} :
    wp (sioEvent event) (fun _ τ => Returns ok a τ) (Foreseen orphan) σ := by
  cases event with
  | rx ch => exact sioReceive_spec h sound rest ch wake
  | tx =>
    rw [sioEvent, wp_modify]
    exact .stay ⟨h.placed.congr rfl rfl rfl, h.proc, h.want, h.nextPid⟩ rest
  | other eir =>
    refine wp_throw.mpr (foreseen_panic ?_ (by decide) (by simp [Halt.Misses]))
    have : Status.noQnodes.code.toNat = 8 := rfl
    omega
  | lineStatus _ => exact .stay h rest
  | fifoTimeout _ => exact .stay h rest
  | modemStatus _ => exact .stay h rest

/-- **The serial interrupt** is one event after another. -/
theorem isrSio_spec (events : List SioEvent) (h : Rel σ a) (sound : a.Sound)
    (rest : a.Resting σ.current)
    (wake : ∀ b p i k, b.place p = .queued .reading k → ok b (.wake p i)) {orphan : Prop} :
    wp (isrSio events) (fun _ τ => Returns ok a τ) (Foreseen orphan) σ := by
  induction events generalizing σ a with
  | nil => exact .stay h rest
  | cons event events ih =>
    rw [isrSio]
    refine wp_seq (sioEvent_spec h sound rest event wake) ?_
    rintro - τ ⟨b, hb, hrest, hrun⟩
    exact wp_mono (ih hb (hrun.sound sound) hrest) (fun _ _ hr => hr.after hrun) fun _ he => he

end Interrupts

/-! ## One entry into the kernel -/

section Entry

variable {σ : State} {a : Life} {i : Input}

/-- The life once the user code has run: processes may wait for something else. -/
def Life.entered (a : Life) (σ : State) (i : Input) : Life :=
  (Move.write (σ.enter i.user).want).apply a

/-- What user code leaves in the stacks may change what a process waits for, and nothing else. -/
theorem enter_rel (h : Rel σ a) : Rel (σ.enter i.user) (a.entered σ i) := by
  refine ⟨h.placed.congr rfl rfl rfl, fun q => ?_, fun _ _ => rfl, h.nextPid⟩
  by_cases hq : q = σ.current
  · rw [hq]; simp [State.enter, Life.entered, Move.apply, ← h.proc, Pcb.proc]
  · simpa [State.enter, Life.entered, Move.apply, hq] using h.proc q

/-- What user code leaves behind shows in no PCB that the life sees. -/
theorem Rel.proc_of_enter {u : UserMem} (h : Rel (σ.enter u) a) (p : PcbId) :
    a.proc p = (σ.pcbs p).proc := by
  rw [← h.proc]
  by_cases hp : p = σ.current
  · rw [hp]; simp [State.enter, Pcb.proc]
  · simp [State.enter, hp]

/-- Every system call makes the moves that `Caused` lists. -/
theorem handler_spec (h : Rel (σ.enter i.user) a) (sound : a.Sound) (rest : a.Resting σ.current)
    (ext : External) {call : Syscall} (hcall : i.call σ = some call) :
    wp (handler ext call) (fun _ τ => Returns (Caused σ i) a τ)
      (Foreseen (Orphaned (Caused σ i) a)) (σ.enter i.user) := by
  have settle : ∀ b m, Settling b m → Caused σ i b m := Settling.caused
  have halive : ∀ j, Caused σ i a (.ready σ.current j) := fun _ => ⟨rest.alive, trivial⟩
  have htold : ∀ pid, i.told σ = (σ.enter i.user).tell pid →
      Caused σ i a (.write ((σ.enter i.user).tell pid).want) :=
    fun pid hpid => ⟨Or.inr ⟨h, by rw [hpid]⟩, trivial⟩
  cases call with
  | exit =>
    refine sysExit_spec h sound rest settle ⟨⟨hcall, rfl, h⟩, trivial⟩ fun m ends => ?_
    have hfamily : ∀ c, (((Move.reparent σ.current).apply a).proc c).ppid.same
        (((Move.reparent σ.current).apply a).proc σ.current).pid →
        (((Move.reparent σ.current).apply a).proc c).ppid.id = pidInit := by
      intro c hc
      have hpid : (((Move.reparent σ.current).apply a).proc σ.current).pid =
          (a.proc σ.current).pid := by
        simp only [Move.apply]
        split <;> rfl
      rw [hpid] at hc
      simp only [Move.apply] at hc ⊢
      split at hc
      · rename_i hsame
        rw [if_pos hsame]
      · rename_i hsame
        exact absurd hc hsame
    cases m with
    | zombie q =>
      obtain rfl : q = σ.current := ends
      exact ⟨Or.inr ⟨hcall, rfl, hfamily⟩, trivial⟩
    | deliver q _ _ _ =>
      obtain rfl : q = σ.current := ends
      exact ⟨Or.inr ⟨hcall, rfl, hfamily⟩, trivial⟩
    | _ => exact ends.elim
  | fork =>
    exact sysFork_spec h sound rest (fun hnone _ => ⟨trivial, hnone⟩)
      fun _ _ _ => ⟨⟨rest.alive, hcall, rfl, h⟩, trivial⟩
  | exec => exact sysExec_spec h sound rest settle halive
  | wait =>
    exact sysWait_spec h sound rest settle ⟨⟨rest.alive, hcall, rfl, h, rfl⟩, trivial⟩
      fun _ _ _ => ⟨hcall, trivial⟩
  | kill =>
    exact sysKill_spec h sound rest settle
      (fun p hp hne => ⟨⟨hcall, hp, hne, rest.1, h⟩, trivial⟩) halive
  | sleep => exact sysSleep_spec h sound rest settle fun _ => ⟨rest.alive, trivial⟩
  | readc =>
    exact sysReadc_spec h sound rest settle fun hempty => ⟨rest.alive, hcall, hempty⟩
  | reads => exact sysNotImplemented_spec h sound rest
  | writec => exact sysWritec_spec h sound rest
  | writes => exact sysNotImplemented_spec h sound rest
  | getpid =>
    rw [handler, sysGetpid, wp_bind, wp_get]
    exact tell_spec h sound rest _ _ (htold _ (by simp [Input.told, hcall]))
  | getppid =>
    rw [handler, sysGetppid, wp_bind, wp_get]
    exact tell_spec h sound rest _ _ (htold _ (by simp [Input.told, hcall]))
  | getprio => exact sysGetprio_spec h sound rest
  | gettime => exact sysGettime_spec h sound rest
  | setprio => exact sysSetprio_spec h sound rest
  | settime => exact sysSettime_spec h sound rest
  | setscreen => exact sysSetscreen_spec h sound rest ext
  | getscreen => exact sysGetscreen_spec h sound rest
  | yield => exact sysYield_spec h sound rest settle ⟨⟨hcall, rfl⟩, trivial⟩
  | _ => exact sysExternal_spec h sound rest ext

/-- **One entry into the kernel is a sequence of moves**, and each of them has a cause. -/
theorem kernelEntry_caused (h : Rel σ a) (sound : a.Sound) (rest : a.Resting σ.current)
    (i : Input) :
    wp (kernelEntry i) (fun _ τ => Returns (Caused σ i) a τ)
      (Foreseen (Orphaned (Caused σ i) a)) σ := by
  have hwrite : Moves (Caused σ i) a (a.entered σ i) :=
    .single trivial ⟨Or.inl ⟨h, rfl⟩, trivial⟩
  have hrel : Rel (σ.enter i.user) (a.entered σ i) := enter_rel h
  have hsound : (a.entered σ i).Sound := hwrite.sound sound
  have hrest : (a.entered σ i).Resting σ.current := rest
  rw [kernelEntry, wp_bind, wp_modify]
  refine wp_mono (Q := fun _ τ => Returns (Caused σ i) (a.entered σ i) τ)
    (E := Foreseen (Orphaned (Caused σ i) (a.entered σ i))) ?_
    (fun _ _ hr => hr.after hwrite) fun _ he => he.mono (Orphaned.after hwrite)
  cases hint : i.interrupt with
  | syscall ext =>
    rw [isr, isrSyscall, wp_bind, wp_get]
    split
    · exact wp_throw.mpr (foreseen_panic (by decide) (by decide) (by simp [Halt.Misses]))
    split
    · exact wp_throw.mpr ⟨trivial, by simp [Halt.Misses]⟩
    rename_i call hcall
    exact handler_spec hrel hsound hrest ext (by simpa [Input.call, hint] using hcall)
  | clock =>
    exact isrClock_spec hrel hsound hrest Settling.caused
      (fun _ _ k hplace hkey => ⟨trivial, Or.inl ⟨hint, k, hplace, hkey⟩⟩)
      fun _ _ _ hs => ⟨hs, trivial⟩
  | serial events =>
    exact isrSio_spec events hrel hsound hrest
      fun _ _ _ k hplace => ⟨trivial, Or.inr ⟨k, hplace⟩⟩

/-- The same, with the circumstances of each move only. -/
theorem kernelEntry_spec (h : Rel σ a) (sound : a.Sound) (rest : a.Resting σ.current) (i : Input) :
    wp (kernelEntry i) (fun _ τ => Returns (Origin σ i) a τ)
      (Expected (Orphaned (Origin σ i) a)) σ :=
  wp_mono (kernelEntry_caused h sound rest i) (fun _ _ hr => hr.mono fun _ _ hm => hm.1)
    fun _ he => he.1.mono fun ho => ho.mono fun _ _ hm => hm.1

/-- What an entry that is a system call does, in terms of its handler. -/
theorem kernelEntry_call {call : Syscall} (hcall : i.call σ = some call)
    {Q : Unit → State → Prop} {E : Halt → Prop} (null : ∀ m msg, E (.kpanic m msg 0))
    (h : ∀ ext, wp (handler ext call) Q E (σ.enter i.user)) : wp (kernelEntry i) Q E σ := by
  cases hint : i.interrupt with
  | clock => simp [Input.call, hint] at hcall
  | serial events => simp [Input.call, hint] at hcall
  | syscall ext =>
    have hinvoked : (σ.enter i.user).invoked = some call := by
      simpa [Input.call, hint] using hcall
    rw [kernelEntry, wp_bind, wp_modify, hint, isr, isrSyscall, wp_bind, wp_get]
    split
    · exact wp_throw.mpr (null _ _)
    rw [hinvoked]
    exact h ext

end Entry

end Cumulonimbus
