import Cumulonimbus.Pids

/-!
# When a killed process stays dead

`_sys_kill` flips the state of its victim and leaves the rest to the dispatcher,
but `_schedule` stores `READY` into whatever it is handed.  The victim comes back
if it kills itself, if the clock wakes it up, or if a character arrives for it;
and a namesake could come back in its place.  If none of these is what `kill` is
used for, the victim never runs again (`kill_is_final`).
-/

namespace Cumulonimbus

open Exec

variable {σ σ₀ : State} {a : Life} {b : Boot} {p : PcbId}

/-- If the entry is a `kill`, it finds neither its caller nor a process that sleeps
or is blocked in `readc`. -/
def Input.KillsSafely (σ : State) (i : Input) : Prop :=
  i.call σ = some .kill → ∀ p, (σ.enter i.user).killTarget = some p →
    p ≠ σ.current ∧ p ∉ (σ.queues .sleep).members ∧ p ∉ (σ.queues .reading).members

instance (σ : State) (i : Input) : Decidable (i.KillsSafely σ) :=
  inferInstanceAs (Decidable (_ → ∀ p, (σ.enter i.user).killTarget = some p →
    p ≠ σ.current ∧ p ∉ (σ.queues .sleep).members ∧ p ∉ (σ.queues .reading).members))

/-- `p` was killed earlier in a run that has led to `τ`, and its PCB has not been
freed since.  All entries of the run are `good`, and the `kill` is `aimed`. -/
def KilledEarlier (good aimed : State → Input → Prop) (σ₀ : State) (p : PcbId) (τ : State) :
    Prop :=
  ∃ tr σ i σ₁ tr', KernelRun good σ₀ tr σ ∧ good σ i ∧ aimed σ i ∧ i.call σ = some .kill ∧
    (σ.enter i.user).killTarget = some p ∧ kernelEntry i σ = .ok ((), σ₁) ∧
    KernelRun good σ₁ tr' τ ∧ ∀ x ∈ tr', p ∉ (x.1.queues .pcbAvail).members

/-- The process is dead: its PCB is free, or it is marked and will not be woken. -/
def Life.Dead (a : Life) (p : PcbId) : Prop :=
  a.Free p ∨ ((a.proc p).state = .killed ∨ (a.proc p).state = .zombie) ∧
    ∀ key, a.place p ≠ .queued .sleep key ∧ a.place p ≠ .queued .reading key

/-- A move of the running process is not one of a dead process, unless that process
was taken off its queue to be ended. -/
theorem Life.Dead.not_runs (dead : a.Dead p) (sound : a.Sound) {q : PcbId} (runs : a.Runs q)
    (alive : (a.proc q).state ≠ .killed) : p ≠ q := by
  rintro rfl
  rcases dead with hfree | ⟨hkilled | hzombie, -⟩
  · exact runs.not_free hfree
  · exact alive hkilled
  · rcases sound.state_cpu runs.place with hs | hs | hs <;> simp [hzombie] at hs

/-- **The dead stay dead** under every move of an entry. -/
theorem Move.dead {i : Input} {m : Move} (dead : a.Dead p) (sound : a.Sound) (unique : a.Unique)
    (enabled : m.Enabled a) (origin : Origin σ i a m)
    (notFree : p ∉ (σ.queues .pcbAvail).members) : (m.apply a).Dead p := by
  -- whatever leaves the place and the mark of `p` alone
  have kept : ∀ {c : Life}, c.place p = a.place p → (c.proc p).state = (a.proc p).state →
      c.Dead p := by
    intro c hplace hstate
    unfold Life.Dead Life.Free
    rw [hplace, hstate]
    exact dead
  cases m with
  | ready q j =>
    have hne := dead.not_runs sound enabled origin
    exact kept (by simp [Move.apply, hne]) (by simp [Move.apply, hne])
  | wake q j =>
    have hne : p ≠ q := by
      rintro rfl
      obtain ⟨key, hkey⟩ := enabled
      rcases dead with ⟨k, hk⟩ | ⟨-, hplace⟩
      · rcases hkey with hkey | hkey <;> simp [hk] at hkey
      · exact hkey.elim (hplace key).1 (hplace key).2
    exact kept (by simp [Move.apply, hne]) (by simp [Move.apply, hne])
  | sleep q key =>
    have hne := dead.not_runs sound enabled origin
    exact kept (by simp [Move.apply, hne]) (by simp [Move.apply, hne])
  | blockRead q =>
    have hne := dead.not_runs sound enabled origin
    exact kept (by simp [Move.apply, hne]) (by simp [Move.apply, hne])
  | blockWait q w =>
    have hne := dead.not_runs sound enabled.1 origin.1
    exact kept (by simp [Move.apply, hne]) (by simp [Move.apply, hne])
  | kill q =>
    by_cases hq : p = q
    · subst hq
      have hfree : ¬ a.Free p := sound.not_free enabled
      exact Or.inr ⟨Or.inl (by simp [Move.apply]), (dead.resolve_left hfree).2⟩
    · exact kept rfl (by simp [Move.apply, hq])
  | fork q c s j =>
    have hne : p ≠ c := by
      rintro rfl
      exact notFree ((origin.2.2.2.free_iff p).mp enabled.2.1)
    exact kept (by simp [Move.apply, hne]) (by simp [Move.apply, hne])
  | recycle c =>
    by_cases hc : p = c
    · exact Or.inl ⟨0, by simp [Move.apply, hc]⟩
    · exact kept (by simp [Move.apply, hc]) (by simp [Move.apply, hc])
  | reparent q =>
    refine kept rfl ?_
    simp only [Move.apply]
    split <;> rfl
  | zombie q =>
    by_cases hq : p = q
    · exact Or.inr ⟨Or.inr (by simp [Move.apply, hq]), fun key => by simp [Move.apply, hq]⟩
    · exact kept (by simp [Move.apply, hq]) (by simp [Move.apply, hq])
  | deliver q parent r w =>
    obtain ⟨hruns, -, hawaits, hr, -⟩ := enabled
    have hparent : ¬ a.Free parent := sound.not_free (by rw [hawaits.1]; simp)
    have hrp : r = parent := unique.eq_of_key sound hparent (Or.inl rfl) hr
    have hpr : p ≠ r := by
      rintro rfl
      rcases dead with ⟨key, hkey⟩ | ⟨hmark, -⟩
      · simp [hr] at hkey
      · rw [hrp, hawaits.1] at hmark
        simp at hmark
    by_cases hq : p = q
    · exact Or.inl ⟨0, by simp [Move.apply, hpr, ← hq]⟩
    · exact kept (by simp [Move.apply, hpr, hq]) (by simp [Move.apply, hpr, hq])
  | reap q r w =>
    by_cases hr : p = r
    · exact Or.inl ⟨0, by simp [Move.apply, hr]⟩
    · exact kept (by simp [Move.apply, hr]) (by simp [Move.apply, hr])
  | take q =>
    have hne : p ≠ q := by
      rintro rfl
      obtain ⟨-, ⟨j, key, hkey⟩, hready⟩ := enabled
      rcases dead with ⟨k, hk⟩ | ⟨hmark, -⟩
      · simp [hk] at hkey
      · simp [hready] at hmark
    exact kept (by simp [Move.apply, hne]) (by simp [Move.apply, hne])
  | takeKilled q =>
    by_cases hq : p = q
    · exact Or.inr ⟨Or.inl (by simpa [Move.apply, hq] using enabled.2.2),
        fun key => by simp [Move.apply, hq]⟩
    · exact kept (by simp [Move.apply, hq]) (by simp [Move.apply])
  | abandon q =>
    by_cases hq : p = q
    · have hfree : ¬ a.Free p := by rw [hq]; exact enabled.not_free
      exact Or.inr ⟨by simpa [Move.apply] using (dead.resolve_left hfree).1,
        fun key => by simp [Move.apply, hq]⟩
    · exact kept (by simp [Move.apply, hq]) (by simp [Move.apply])
  | write w => exact kept rfl rfl

/-- What `_sys_kill` does to a victim other than its caller. -/
theorem kill_step {i : Input} {τ : State} (call : i.call σ = some .kill)
    (target : (σ.enter i.user).killTarget = some p) (other : p ≠ σ.current)
    (step : kernelEntry i σ = .ok ((), τ)) :
    (τ.pcbs p).state = .killed ∧ τ.queues = σ.queues := by
  have hwp : wp (kernelEntry i)
      (fun _ υ => (υ.pcbs p).state = .killed ∧ υ.queues = σ.queues) (fun _ => True) σ := by
    refine kernelEntry_call call (fun _ _ => trivial) fun ext => ?_
    rw [handler, sysKill, wp_bind, wp_get, target]
    dsimp only
    rw [wp_bind, setState, modifyPcb, wp_modify, wp_ite]
    refine ⟨fun hself => absurd hself other, fun _ => ?_⟩
    rw [wp_pure]
    exact ⟨by simp, rfl⟩
  exact wp_ok (x := kernelEntry i) hwp step

/-- The victim of a safe `kill` is dead. -/
theorem killed_dead {i : Input} {τ : State} {c : Life} (h : Rel τ c)
    (safe : i.KillsSafely σ) (call : i.call σ = some .kill)
    (target : (σ.enter i.user).killTarget = some p) (step : kernelEntry i σ = .ok ((), τ)) :
    c.Dead p := by
  obtain ⟨hother, hsleep, hreading⟩ := safe call p target
  obtain ⟨hstate, hqueues⟩ := kill_step call target hother step
  refine Or.inr ⟨Or.inl (by rw [← h.state]; exact hstate), fun key => ⟨fun hp => ?_, fun hp => ?_⟩⟩
  · have := (h.placed.mem_members .sleep p).mpr ⟨key, hp⟩
    rw [hqueues] at this
    exact hsleep this
  · have := (h.placed.mem_members .reading p).mpr ⟨key, hp⟩
    rw [hqueues] at this
    exact hreading this

/-- **Kill is final** if it finds neither its caller nor a process that sleeps or
reads, in a run whose forks are fresh: as long as the victim's PCB has not been
freed, it is neither running nor ready. -/
theorem kill_is_final {τ : State} (boot : BootState b σ₀)
    (killed : KilledEarlier (fun σ i => i.ForksFresh σ) (fun σ i => i.KillsSafely σ) σ₀ p τ) :
    (τ.pcbs p).state ≠ .ready ∧ (τ.pcbs p).state ≠ .running ∧ p ≠ τ.current := by
  obtain ⟨tr, σ, i, σ₁, tr', before, fresh, safe, call, target, step, after, notFree⟩ := killed
  obtain ⟨a, hrel, hsound, hrest, hunique⟩ := KernelRun.invariant (I := Life.Unique) boot
    (fun _ hboot => hboot.unique)
    (fun _ _ _ _ good _ hu enabled caused => Move.unique_of_origin hu enabled caused.1 good) before
  obtain ⟨c, hc, hcsound, hcrest, hcunique⟩ := step_invariant hrel hsound hrest hunique
    (fun _ _ _ hu enabled caused => Move.unique_of_origin hu enabled caused.1 fresh) step
  -- the second part of the run, in which `p` is dead and its PCB stays allocated
  have later := after.restrict (fun s j => j.ForksFresh s ∧ p ∉ (s.queues .pcbAvail).members)
    fun x hx => ⟨after.good_of_mem x hx, notFree x hx⟩
  obtain ⟨d, hd, hdsound, hdrest, -, hdead⟩ := KernelRun.carry
    (I := fun e => e.Unique ∧ e.Dead p) hc hcsound hcrest
    ⟨hcunique, killed_dead hc safe call target step⟩
    (fun _ _ _ _ good hs he enabled caused =>
      ⟨Move.unique_of_origin he.1 enabled caused.1 good.1,
        Move.dead he.2 hs he.1 enabled caused.1 good.2⟩) later
  have hne : p ≠ τ.current := hdead.not_runs hdsound hdrest.1 hdrest.alive
  rw [hd.state]
  rcases hdead with hfree | ⟨hmark, -⟩
  · simp [hdsound.state_free hfree, hne]
  · rcases hmark with hs | hs <;> simp [hs, hne]

/-- The end of a concrete run: a `kill` of `p`, further entries before which its PCB is not free,
and a test of the state they lead to. -/
def killTest (good : State → Input → Prop) [∀ σ i, Decidable (good σ i)] (k : Input)
    (later : List Input) (p : PcbId) (test : State → Bool) (σ : State) : Bool :=
  decide (k.call σ = some .kill) && decide ((σ.enter k.user).killTarget = some p) &&
    match kernelEntry k σ with
    | .ok (_, τ) =>
      (play kernelEntry (fun s i => good s i ∧ p ∉ (s.queues .pcbAvail).members) later τ).any
        fun r => test r.2
    | .error _ => false

theorem killTest_run (good aimed : State → Input → Prop) [∀ σ i, Decidable (good σ i)]
    [∀ σ i, Decidable (aimed σ i)] {l later : List Input} {k : Input} {test : State → Bool}
    (h : bootTest good b l
      fun σ => decide (good σ k) && decide (aimed σ k) && killTest good k later p test σ) :
    ∃ σ₀ τ, BootState b σ₀ ∧ KilledEarlier good aimed σ₀ p τ ∧ test τ := by
  obtain ⟨σ₀, tr, σ, hboot, hrun, -, htest⟩ := bootTest_run h
  simp only [Bool.and_eq_true, decide_eq_true_eq, killTest] at htest
  obtain ⟨⟨hgood, haimed⟩, ⟨hcall, htarget⟩, hlast⟩ := htest
  split at hlast
  · rename_i σ₁ hstep
    obtain ⟨⟨tr', τ⟩, hplay, hτ⟩ := (Option.any_eq_true _ _).mp hlast
    obtain ⟨hafter, -⟩ := play_runs hplay
    have hkilled : KilledEarlier good aimed σ₀ p τ :=
      ⟨tr, σ, k, σ₁, tr', hrun, hgood, haimed, hcall, htarget, hstep,
        hafter.mono fun _ _ hboth => hboth.1, fun x hx => (hafter.good_of_mem x hx).2⟩
    exact ⟨σ₀, τ, hboot, hkilled, hτ⟩
  · cases hlast

/-- `fork`, then a clock tick, so that the child (pid 2) runs and init is ready. -/
def childRuns : List Input :=
  [callInput 1 (fun _ => 0) blankHeap, clockInput (fun _ => 0) blankHeap]

/-- The child kills itself, and is ready again. -/
theorem self_kill_is_ready :
    ¬ ∀ (b : Boot) (σ₀ : State) (p : PcbId) (τ : State), BootState b σ₀ →
      KilledEarlier (fun _ _ => True) (fun _ _ => True) σ₀ p τ →
      (τ.pcbs p).state ≠ .ready ∧ (τ.pcbs p).state ≠ .running ∧ p ≠ τ.current := by
  intro h
  have hrun : bootTest (fun _ _ => True) blankBoot childRuns
      fun σ => decide True && decide True && killTest (fun _ _ => True)
        (callInput 4 (fun _ => 2) blankHeap) [] 1
        (fun τ => decide ((τ.pcbs 1).state = .ready)) σ := by
    decide +kernel
  obtain ⟨σ₀, τ, hboot, hkilled, hready⟩ :=
    killTest_run (fun _ _ => True) (fun _ _ => True) hrun
  exact (h _ _ _ _ hboot hkilled).1 (of_decide_eq_true hready)

/-- Init kills its child, which is in a ready queue.  At the next tick the dispatcher takes the
child off and makes it a zombie, init runs on, and the clock goes on ticking. -/
theorem kill_is_final_ready : ∃ σ₀ τ, BootState blankBoot σ₀ ∧
    KilledEarlier (fun σ i => i.ForksFresh σ) (fun σ i => i.KillsSafely σ) σ₀ 1 τ ∧
    1 ∈ (τ.queues .zombie).members ∧
    (τ.pcbs 1).state ≠ .ready ∧ (τ.pcbs 1).state ≠ .running ∧ (1 : PcbId) ≠ τ.current := by
  have hrun : bootTest (fun σ i => i.ForksFresh σ) blankBoot [callInput 1 (fun _ => 0) blankHeap]
      fun σ => decide ((callInput 4 (fun _ => 2) blankHeap).ForksFresh σ) &&
        decide ((callInput 4 (fun _ => 2) blankHeap).KillsSafely σ) &&
        killTest (fun σ i => i.ForksFresh σ) (callInput 4 (fun _ => 2) blankHeap)
          [clockInput (fun _ => 0) blankHeap, clockInput (fun _ => 0) blankHeap,
            clockInput (fun _ => 0) blankHeap] 1
          (fun τ => decide (1 ∈ (τ.queues .zombie).members)) σ := by
    decide +kernel
  obtain ⟨σ₀, τ, hboot, hkilled, hzombie⟩ := killTest_run _ _ hrun
  exact ⟨σ₀, τ, hboot, hkilled, of_decide_eq_true hzombie, kill_is_final hboot hkilled⟩

end Cumulonimbus
