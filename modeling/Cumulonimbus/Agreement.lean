import Cumulonimbus.Parents

/-!
# The state byte and the queue

The state byte of a process is written by every handler, the queue it is linked in by the
queue routines.  They agree everywhere but in two places: a reader that blocks keeps the
state it had on the CPU, and the first process has the state `FREE` until it is scheduled.
In a run whose first entry schedules it, and in which no reader blocks, the two agree at
every return to user mode (`states_agree`).
-/

namespace Cumulonimbus

open Exec

/-- The state bytes that a process in a queue should have. -/
def QName.Admits : QName → ProcState → Prop
  | .pcbAvail, st => st = .free
  | .ready _, st => st = .ready ∨ st = .killed
  | .sleep, st => st = .sleeping ∨ st = .killed
  | .reading, st => st = .blocked ∨ st = .killed
  | .waiting, st => st = .waiting ∨ st = .killed
  | .zombie, st => st = .zombie ∨ st = .killed

/-- The current process runs, every process in a queue has the state that goes with the
queue, and exactly the PCBs on the free list are free. -/
structure State.StatesAgree (σ : State) : Prop where
  current : (σ.pcbs σ.current).state = .running
  queued : ∀ X p, p ∈ (σ.queues X).members → X.Admits (σ.pcbs p).state
  free : ∀ p, (σ.pcbs p).state = .free ↔ p ∈ (σ.queues .pcbAvail).members

/-- The entry puts the running process back into a ready queue. -/
def Input.Launches (σ : State) (i : Input) : Prop :=
  i.interrupt = .clock ∨ i.call σ = some .exec

/-- If the entry is a `readc`, there is input for it. -/
def Input.FindsInput (σ : State) (i : Input) : Prop :=
  i.call σ = some .readc → 0 < σ.sio.incount

instance (σ : State) (i : Input) : Decidable (i.FindsInput σ) :=
  inferInstanceAs (Decidable (_ → _))

variable {σ σ₀ σ₁ τ : State} {a : Life} {p x : PcbId} {i : Input} {b : Boot}
  {tr : List (State × Input)}

/-! ## What moves keep -/

/-- A process outside the free list has a state other than `FREE` for good. -/
theorem Move.keeps_started {m : Move} (enabled : m.Enabled a)
    (started : ¬ a.Free x → (a.proc x).state ≠ .free) (hx : ¬ (m.apply a).Free x) :
    ((m.apply a).proc x).state ≠ .free := by
  by_cases hfork : ∃ p s j, m = .fork p x s j
  · obtain ⟨p, s, j, rfl⟩ := hfork
    simp [Move.apply]
  · have old : ∀ p s j, m ≠ .fork p x s j := fun p s j hm => hfork ⟨p, s, j, hm⟩
    exact Move.stays_started (started (Move.keeps_pids enabled old hx).1) hx

/-- No process is a reader but a killed one. -/
def Life.Unread (a : Life) : Prop :=
  ∀ p key, a.place p = .queued .reading key → (a.proc p).state = .killed

/-- Only `blockRead` makes a reader, and a killed reader stays killed. -/
theorem Move.unread {m : Move} (h : a.Unread) (enabled : m.Enabled a)
    (hm : ∀ p, m ≠ .blockRead p) : (m.apply a).Unread := by
  -- a move that puts `p` elsewhere leaves the other readers alone
  have others : ∀ {c : Life} {p : PcbId}, (∀ key, c.place p ≠ .queued .reading key) →
      (∀ y, y ≠ p → c.place y = a.place y ∧ (c.proc y).state = (a.proc y).state) →
      c.Unread := by
    intro c p hp hother y key hy
    have hyp : y ≠ p := by
      intro heq
      exact hp key (heq ▸ hy)
    obtain ⟨hplace, hstate⟩ := hother y hyp
    rw [hstate]
    exact h y key (hplace ▸ hy)
  cases m with
  | ready p j | wake p j | sleep p j | blockWait p j | zombie p | take p =>
    exact others (p := p) (by simp [Move.apply]) fun y hy => by simp [Move.apply, hy]
  | blockRead p => exact absurd rfl (hm p)
  | kill p =>
    intro y key hy
    by_cases hyp : y = p
    · simp [Move.apply, hyp]
    · simpa [Move.apply, hyp] using h y key hy
  | fork p c s j =>
    exact others (p := c) (by simp [Move.apply]) fun y hy => by simp [Move.apply, hy]
  | recycle c =>
    exact others (p := c) (by simp [Move.apply]) fun y hy => by simp [Move.apply, hy]
  | reparent p =>
    intro y key hy
    have hstate := h y key hy
    simp only [Move.apply]
    split <;> exact hstate
  | deliver p q r w =>
    intro y key hy
    by_cases hyr : y = r
    · simp [Move.apply, hyr] at hy
    · by_cases hyp : y = p
      · simp only [Move.apply, Life.move_place, if_neg hyr, Life.setState_place,
          Life.release_place, if_pos hyp] at hy
        cases hy
      · simpa [Move.apply, hyr, hyp] using h y key (by simpa [Move.apply, hyr, hyp] using hy)
  | reap q r w =>
    exact others (p := r) (by simp [Move.apply]) fun y hy => by simp [Move.apply, hy]
  | takeKilled p | abandon p =>
    exact others (p := p) (by simp [Move.apply]) fun y hy => by simp [Move.apply, hy]
  | write w => exact h

/-- In an entry that finds its input no reader blocks. -/
theorem Caused.not_blockRead {c : Life} {m : Move} (caused : Caused σ i c m)
    (finds : i.FindsInput σ) : ∀ p, m ≠ .blockRead p := by
  intro p hm
  subst hm
  obtain ⟨hcall, hempty⟩ := caused.2
  have hpos := finds hcall
  rw [sioReadc, if_pos hpos] at hempty
  dsimp only at hempty
  split at hempty <;> cases hempty

/-! ## The first entry -/

/-- The dispatcher ends no process that was not killed. -/
theorem Settling.keeps_alive {m : Move} (h : Settling a m) (enabled : m.Enabled a)
    (alive : (a.proc p).state ≠ .free ∧ (a.proc p).state ≠ .killed) :
    ((m.apply a).proc p).state ≠ .free ∧ ((m.apply a).proc p).state ≠ .killed := by
  cases m with
  | take q =>
    by_cases hp : p = q
    · simp [Move.apply, hp]
    · simpa [Move.apply, hp] using alive
  | takeKilled q => exact alive
  | zombie q =>
    by_cases hp : p = q
    · simp [Move.apply, hp]
    · simpa [Move.apply, hp] using alive
  | deliver q _ r w =>
    have hpq : p ≠ q := by
      intro heq
      exact alive.2 (heq ▸ h)
    by_cases hr : p = r
    · simp [Move.apply, hr]
    · simpa [Move.apply, hr, hpq] using alive
  | _ => exact h.elim

/-- A process that goes back to a ready queue is no longer `FREE` when the dispatcher is
done. -/
theorem reschedule_started (h : Rel τ a) (sound : a.Sound) (runs : a.Runs p) (prio : UInt8) :
    wp (schedule p prio >>= fun _ => dispatch) (fun _ υ => (υ.pcbs p).state ≠ .free)
      (fun _ => True) τ := by
  refine wp_seq (schedule_rel h runs.loose prio) ?_
  intro _ υ hpost
  obtain ⟨hυ, -, -⟩ := hpost
  have enabled : (Move.ready p (readyIndex prio)).Enabled a := runs
  have hidle : ((Move.ready p (readyIndex prio)).apply a).Idle :=
    runs.idle_of (by simp [Move.apply]) fun q hq => by simp [Move.apply, hq]
  refine wp_mono (dispatch_spec hυ (Move.sound sound enabled) hidle) ?_ fun _ _ => trivial
  intro _ φ hpost
  obtain ⟨c, hc, -, hrun⟩ := hpost
  have halive := hrun.invariant
    (I := fun d => (d.proc p).state ≠ .free ∧ (d.proc p).state ≠ .killed)
    (fun d m hd enabled settling => Settling.keeps_alive settling enabled hd)
    (by simp)
  rw [hc.state]
  exact halive.1

/-- An entry that puts the running process back into a ready queue. -/
theorem launch_started (h : Rel σ a) (sound : a.Sound) (rest : a.Resting σ.current)
    (launch : i.Launches σ) (step : kernelEntry i σ = .ok ((), τ)) :
    (τ.pcbs σ.current).state ≠ .free := by
  have hrel : Rel (σ.enter i.user) (a.entered σ i) := enter_rel h
  have hsound : (a.entered σ i).Sound := sound.rewant _
  have hrest : (a.entered σ i).Resting (σ.enter i.user).current := rest
  suffices hwp : wp (kernelEntry i) (fun _ υ => (υ.pcbs σ.current).state ≠ .free)
      (fun _ => True) σ from wp_ok (x := kernelEntry i) hwp step
  rcases launch with hclock | hexec
  · rw [kernelEntry, wp_bind, wp_modify, hclock, isr, isrClock]
    refine wp_seq (tick_spec hrel) ?_
    intro _ τ₁ hpost
    obtain ⟨h₁, hcurrent, -⟩ := hpost
    rw [wp_bind, wp_get]
    have hloop : wp (wakeLoop ((τ₁.queues .sleep).items.length + 1) τ₁.systemTime)
        (fun _ υ => Returns (fun _ _ => True) (a.entered σ i) υ ∧ υ.current = τ₁.current)
        (fun _ => True) τ₁ :=
      wakeLoop_spec _ h₁ (by rw [hcurrent]; exact hrest) (Nat.lt_succ_self _) _
        fun _ _ _ _ _ => trivial
    refine wp_seq hloop ?_
    intro _ τ₂ hpost
    obtain ⟨⟨c, hc, hcrest, hrun⟩, hcurrent₂⟩ := hpost
    have hsame : τ₂.current = σ.current := hcurrent₂.trans hcurrent
    rw [wp_bind, wp_get, ← hsame]
    exact reschedule_started hc (hrun.sound hsound) hcrest.1 _
  · refine kernelEntry_call hexec (fun _ _ => trivial) fun ext => ?_
    rw [handler, sysExec, wp_bind, wp_get]
    dsimp only
    refine wp_seq (setupStack_spec hrel hsound.toApart hrest.idle _) ?_
    intro _ τ₁ hpost
    obtain ⟨h₁, -⟩ := hpost
    rw [wp_bind, modifyPcb, wp_modify]
    exact reschedule_started (h₁.touch (p := (σ.enter i.user).current)
      (f := fun b => { b with
        context := some setupContext
        prio := ((σ.enter i.user).arg (σ.enter i.user).current 1).toUInt8 })
      (fun _ => rfl) hrest.idle) hsound hrest.1 _

/-! ## Runs -/

/-- A life in which only `init` may be `FREE` although it is not on the free list. -/
def Life.StartedBut (init : PcbId) (a : Life) : Prop :=
  ∀ p, p ≠ init → ¬ a.Free p → (a.proc p).state ≠ .free

theorem Life.Booted.startedBut (h : a.Booted b p) : a.StartedBut p :=
  fun q hq hfree => absurd (h.others q hq).1 hfree

theorem Life.Booted.unread (h : a.Booted b p) : a.Unread := by
  intro q key hkey
  by_cases hq : q = p
  · simp [hq, h.runs.place] at hkey
  · obtain ⟨k, hk⟩ := (h.others q hq).1
    simp [hk] at hkey

theorem Life.Sound.statesAgree (sound : a.Sound) (h : Rel σ a) (rest : a.Resting σ.current)
    (started : ∀ p, ¬ a.Free p → (a.proc p).state ≠ .free) (unread : a.Unread) :
    σ.StatesAgree where
  current := by
    rw [h.state]
    exact rest.2.resolve_right (started _ rest.1.not_free)
  queued := by
    intro X p hp
    obtain ⟨key, hkey⟩ := (h.placed.mem_members X p).mp hp
    have hfits := sound.fits p
    rw [hkey] at hfits
    rw [h.state]
    cases X with
    | reading => exact Or.inr (unread p key hkey)
    | _ => exact hfits
  free := by
    intro p
    rw [h.state, ← h.free_iff]
    exact ⟨fun hfree => not_not.mp fun hnot => started p hnot hfree, sound.state_free⟩

/-- **Process state and queue agree** at every return to user mode, if the first entry
after `_init` is a clock interrupt or an `exec`, and no `readc` finds the input buffer
empty. -/
theorem states_agree (boot : BootState b σ₀)
    (run : KernelRun (fun σ i => i.FindsInput σ) σ₀ tr σ) (first : tr.head? = some (σ₀, i))
    (launch : i.Launches σ₀) : σ.StatesAgree := by
  obtain ⟨rest, rfl⟩ := List.head?_eq_some_iff.mp first
  obtain ⟨_, hfinds, σ₁, hstep, hrest⟩ := run.uncons
  obtain ⟨a₀, hrel₀, hboot⟩ := boot.rel
  -- after the first entry, all processes have started
  obtain ⟨a₁, hrel₁, hsound₁, hrest₁, hstarted₁, hunread₁⟩ := step_invariant
    (I := fun c => c.StartedBut σ₀.current ∧ c.Unread) hrel₀ hboot.sound hboot.resting
    ⟨hboot.startedBut, hboot.unread⟩
    (fun c m _ hc enabled caused =>
      ⟨fun p hp hfree => Move.keeps_started enabled (hc.1 p hp) hfree,
        Move.unread hc.2 enabled (caused.not_blockRead hfinds)⟩) hstep
  have hinit : (a₁.proc σ₀.current).state ≠ .free := by
    rw [← hrel₁.state]
    exact launch_started hrel₀ hboot.sound hboot.resting launch hstep
  have hall : ∀ p, ¬ a₁.Free p → (a₁.proc p).state ≠ .free := by
    intro p hfree
    by_cases hp : p = σ₀.current
    · rw [hp]
      exact hinit
    · exact hstarted₁ p hp hfree
  obtain ⟨a, hrel, hsound, hrest, hstarted, hunread⟩ := KernelRun.carry
    (I := fun c => (∀ p, ¬ c.Free p → (c.proc p).state ≠ .free) ∧ c.Unread)
    hrel₁ hsound₁ hrest₁ ⟨hall, hunread₁⟩
    (fun _ _ c m finds _ hc enabled caused =>
      ⟨fun p hfree => Move.keeps_started enabled (hc.1 p) hfree,
        Move.unread hc.2 enabled (caused.not_blockRead finds)⟩) hrest
  exact hsound.statesAgree hrel hrest hstarted hunread

/-- In a family of which one member sleeps, one waits and one is a zombie. -/
theorem states_agree_family : ∃ σ₀ i tr σ, BootState blankBoot σ₀ ∧
    KernelRun (fun σ i => i.FindsInput σ) σ₀ tr σ ∧ tr.head? = some (σ₀, i) ∧
    i.Launches σ₀ ∧ (σ.queues .sleep).items ≠ [] ∧ (σ.queues .waiting).items ≠ [] ∧
    (σ.queues .zombie).items ≠ [] ∧ σ.StatesAgree := by
  have hrun : bootTest (fun σ i => i.FindsInput σ) blankBoot familyRun fun σ =>
      !(σ.queues .sleep).items.isEmpty && !(σ.queues .waiting).items.isEmpty &&
        !(σ.queues .zombie).items.isEmpty := by
    decide +kernel
  obtain ⟨σ₀, tr, σ, hboot, hrun, htr, htest⟩ := bootTest_run hrun
  simp only [Bool.and_eq_true, Bool.not_eq_true', List.isEmpty_eq_false_iff] at htest
  rcases tr with _ | ⟨⟨τ, i⟩, rest⟩
  · cases htr
  · obtain ⟨rfl, -⟩ := hrun.uncons
    have hi : i = clockInput (fun _ => 0) blankHeap := (List.cons_eq_cons.mp htr).1
    have hlaunch : i.Launches τ := Or.inl (by rw [hi]; rfl)
    exact ⟨τ, i, _, σ, hboot, hrun, rfl, hlaunch, htest.1.1, htest.1.2, htest.2,
      states_agree hboot hrun rfl hlaunch⟩

/-- Init is scheduled, forks a child, and asks for a character when there is none. -/
def readRun : List Input :=
  [clockInput (fun _ => 0) blankHeap, callInput 1 (fun _ => 0) blankHeap,
    callInput 6 (fun _ => 0) blankHeap]

/-- A reader that blocks is `RUNNING` on the reading queue. -/
theorem blocked_reader_runs :
    ¬ ∀ (b : Boot) (σ₀ : State) (tr : List (State × Input)) (σ : State), BootState b σ₀ →
      AnyRun σ₀ tr σ → tr ≠ [] → σ.StatesAgree := by
  intro h
  have hrun : bootTest (fun _ _ => True) blankBoot readRun
      (fun σ => decide (0 ∈ (σ.queues .reading).members) &&
        decide ((σ.pcbs 0).state = .running)) := by
    decide +kernel
  obtain ⟨σ₀, tr, σ, hboot, hrun, htr, htest⟩ := bootTest_run hrun
  simp only [Bool.and_eq_true, decide_eq_true_eq] at htest
  have hne : tr ≠ [] := by
    intro hnil
    rw [hnil] at htr
    cases htr
  have hadmits := (h _ _ _ _ hboot hrun hne).queued .reading 0 htest.1
  rw [htest.2] at hadmits
  rcases hadmits with hst | hst <;> cases hst

end Cumulonimbus
