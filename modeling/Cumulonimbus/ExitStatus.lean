import Cumulonimbus.Boot

/-!
# What a parent learns of its child

A child that exits hands over its status in one of two ways.  If its parent is
waiting for it, `_zombify` reads the status from the saved context of the child.
Otherwise the child becomes a zombie, and `wait` reports the `status` field of its
PCB later on; but no routine ever stores the exit status there.  What is found in
the field is 0, or 5 after a `readc` that blocked, which stores `BLOCKED` in the
wrong field.

`collected_iff` says when a parent learns the truth.
-/

namespace Cumulonimbus

open Exec

variable {σ σ₀ τ υ : State} {a : Life} {b : Boot} {i : Input} {p : PcbId} {v : Info}
  {tr : List (State × Input)}

/-- The status that the caller of `exit` passes. -/
def Input.exitStatus (σ : State) (i : Input) : UInt32 := (σ.enter i.user).arg σ.current 1

/-- The state in which `exit` calls `_zombify`. -/
def Input.ending (σ : State) (i : Input) : State :=
  { σ.enter i.user with
    pcbs := reparent (σ.enter i.user).pcbs ((σ.enter i.user).pcbs σ.current).pid }

/-- The parent of the current process, if it is waiting for it. -/
def State.heir (σ : State) : Option PcbId :=
  (σ.pcbFind (σ.pcbs σ.current).ppid).filter σ.awaited

/-- `v` is written where a parent is told of the end of the process that enters the
kernel with `i`: by `_zombify`, if the parent is waiting; or by a later `wait`, after
entries during which the PCB of the process has not been freed. -/
inductive Collected (σ : State) (i : Input) : Info → Prop
  | delivered {q : PcbId} {τ : State} (parent : (i.ending σ).heir = some q)
      (ends : zombify σ.current (i.ending σ) = .ok ((), τ)) :
      Collected σ i (τ.heap ((i.ending σ).arg q 1))
  | reaped {j : Input} {τ υ φ : State} {tr : List (State × Input)}
      (alone : (i.ending σ).heir = none) (ends : kernelEntry i σ = .ok ((), τ))
      (run : AnyRun τ tr υ) (kept : ∀ x ∈ tr, σ.current ∉ (x.1.queues .pcbAvail).members)
      (call : j.call υ = some .wait) (ptr : (υ.enter j.user).arg υ.current 1 ≠ 0)
      (choice : (υ.enter j.user).waitChoice ((υ.enter j.user).arg υ.current 1) = some σ.current)
      (zombie : (υ.pcbs σ.current).state = .zombie) (wait : kernelEntry j υ = .ok ((), φ)) :
      Collected σ i (φ.heap ((υ.enter j.user).arg υ.current 1))

/-- The PCB of `p` is free, or that of a process that has ended, with this pid and
status. -/
def Life.Filed (a : Life) (p : PcbId) (pid : Pid) (status : UInt32) : Prop :=
  a.Free p ∨ (∃ key, a.place p = .queued .zombie key) ∧ (a.proc p).pid = pid ∧
    (a.proc p).status = status

/-- **A zombie keeps its pid and its status** until it is collected, and its PCB is
not given to another process before that. -/
theorem Move.filed {m : Move} {pid : Pid} {status : UInt32} (h : a.Filed p pid status)
    (enabled : m.Enabled a) (fork : ∀ q s j, m ≠ .fork q p s j) :
    (m.apply a).Filed p pid status := by
  have kept : ∀ {c : Life}, c.place p = a.place p → (c.proc p).pid = (a.proc p).pid →
      (c.proc p).status = (a.proc p).status → c.Filed p pid status := by
    intro c hplace hpid hstatus
    unfold Life.Filed Life.Free
    rw [hplace, hpid, hstatus]
    exact h
  -- `p` is on the free list or among the zombies
  have elsewhere : ∀ pl : Place, a.place p = pl →
      ∃ X key, pl = .queued X key ∧ (X = .pcbAvail ∨ X = .zombie) := by
    rintro pl rfl
    rcases h with ⟨key, hkey⟩ | ⟨⟨key, hkey⟩, -⟩
    · exact ⟨_, _, hkey, Or.inl rfl⟩
    · exact ⟨_, _, hkey, Or.inr rfl⟩
  have hruns : ∀ q, a.Runs q → p ≠ q := by
    rintro q hq rfl
    obtain ⟨X, key, hcpu, -⟩ := elsewhere _ hq.place
    cases hcpu
  have hqueued : ∀ {q X key}, a.place q = .queued X key → X ≠ .pcbAvail → X ≠ .zombie →
      p ≠ q := by
    rintro q X key hq hX hX' rfl
    obtain ⟨Y, k, hY, hor⟩ := elsewhere _ hq
    obtain ⟨rfl, -⟩ := Place.queued.inj hY
    exact hor.elim hX hX'
  cases m with
  | ready q j | sleep q key | blockRead q | abandon q =>
    have hne := hruns q enabled
    exact kept (by simp [Move.apply, hne]) (by simp [Move.apply, hne])
      (by simp [Move.apply, hne])
  | blockWait q w | zombie q =>
    have hne := hruns q enabled.1
    exact kept (by simp [Move.apply, hne]) (by simp [Move.apply, hne])
      (by simp [Move.apply, hne])
  | wake q j =>
    have hne : p ≠ q := by
      obtain ⟨key, hkey | hkey⟩ := enabled <;> exact hqueued hkey (by simp) (by simp)
    exact kept (by simp [Move.apply, hne]) (by simp [Move.apply, hne])
      (by simp [Move.apply, hne])
  | take q | takeKilled q =>
    obtain ⟨-, ⟨j, key, hkey⟩, -⟩ := enabled
    have hne := hqueued hkey (by simp) (by simp)
    exact kept (by simp [Move.apply, hne]) (by simp [Move.apply, hne])
      (by simp [Move.apply, hne])
  | kill q =>
    refine kept rfl ?_ ?_ <;> by_cases hq : p = q <;> simp [Move.apply, hq]
  | fork q c s j =>
    have hne : p ≠ c := by
      rintro rfl
      exact fork q s j rfl
    exact kept (by simp [Move.apply, hne]) (by simp [Move.apply, hne])
      (by simp [Move.apply, hne])
  | recycle c =>
    by_cases hc : p = c
    · exact Or.inl ⟨0, by simp [Move.apply, hc]⟩
    · exact kept (by simp [Move.apply, hc]) (by simp [Move.apply, hc]) (by simp [Move.apply, hc])
  | reparent q =>
    refine kept rfl ?_ ?_ <;> simp only [Move.apply] <;> split <;> rfl
  | deliver q parent r w =>
    have hq := hruns q enabled.1
    have hr := hqueued enabled.2.2.2.1 (by simp) (by simp)
    exact kept (by simp [Move.apply, hq, hr]) (by simp [Move.apply, hq, hr])
      (by simp [Move.apply, hq, hr])
  | reap q r w =>
    by_cases hr : p = r
    · exact Or.inl ⟨0, by simp [Move.apply, hr]⟩
    · exact kept (by simp [Move.apply, hr]) (by simp [Move.apply, hr]) (by simp [Move.apply, hr])
  | write w => exact kept rfl rfl rfl

/-- The state in which `_zombify` is called, and its life. -/
theorem ending_rel (h : Rel σ a) :
    Rel (i.ending σ) ((Move.reparent σ.current).apply (a.entered σ i)) :=
  reparent_rel (enter_rel h)

/-- Until it ends, the caller of `exit` has the pid it had before. -/
theorem ending_pid (i : Input) :
    ((i.ending σ).pcbs σ.current).pid = (σ.pcbs σ.current).pid := by
  simp only [Input.ending, reparent]
  split <;> simp [State.enter]

theorem ending_status (i : Input) :
    ((i.ending σ).pcbs σ.current).status = (σ.pcbs σ.current).status := by
  simp only [Input.ending, reparent]
  split <;> simp [State.enter]

theorem ending_arg (i : Input) : (i.ending σ).arg σ.current 1 = i.exitStatus σ := by
  simp only [Input.exitStatus, State.arg, State.ctxWord, Input.ending, reparent_stack,
    reparent_context]

theorem State.heir_eq_some {q : PcbId} :
    σ.heir = some q ↔ σ.pcbFind (σ.pcbs σ.current).ppid = some q ∧ σ.awaited q := by
  rw [State.heir, Option.filter_eq_some_iff]

/-- **A waiting parent learns the pid and the exit status.** -/
theorem delivered_heap {q : PcbId} (h : Rel σ a) (sound : a.Sound) (rest : a.Resting σ.current)
    (parent : (i.ending σ).heir = some q) (ends : zombify σ.current (i.ending σ) = .ok ((), τ)) :
    τ.heap ((i.ending σ).arg q 1) = ⟨(σ.pcbs σ.current).pid, i.exitStatus σ⟩ := by
  have hrel := ending_rel (i := i) h
  have hr : (Move.reparent σ.current).Enabled (a.entered σ i) := rest.1
  have hsound := Move.sound (sound.rewant (σ.enter i.user).want) hr
  obtain ⟨hfind, hawaits⟩ := State.heir_eq_some.mp parent
  have hfind' : ((Move.reparent σ.current).apply (a.entered σ i)).find
      (((Move.reparent σ.current).apply (a.entered σ i)).proc (i.ending σ).current).ppid =
        some q := by
    rw [← hrel.find, ← hrel.ppid]
    exact hfind
  have hdeliver : wp (zombifyDeliver σ.current q ((i.ending σ).arg q 1)) _ (fun _ => True) _ :=
    zombifyDeliver_spec hrel hsound rest.1 hfind' ((hrel.awaited q).mp hawaits) _ fun _ => trivial
  have hwp : wp (zombify σ.current) (fun _ υ => υ.heap ((i.ending σ).arg q 1) =
      ⟨(σ.pcbs σ.current).pid, i.exitStatus σ⟩) (fun _ => True) (i.ending σ) := by
    have hppid : (i.ending σ).pcbFind ((i.ending σ).pcbs σ.current).ppid = some q := hfind
    rw [zombify, wp_bind, wp_get, hppid]
    dsimp only
    rw [wp_ite]
    refine ⟨fun _ => wp_mono hdeliver (fun _ υ hυ => ?_) fun _ _ => trivial,
      fun hnot => absurd hawaits hnot⟩
    rw [hυ.2, Function.update_self]
    congr 1
    · exact ending_pid i
    · exact ending_arg i
  exact wp_ok (x := zombify σ.current) hwp ends

/-- **A child whose parent does not wait for it becomes a zombie**, with the status
that its PCB had before. -/
theorem alone_filed (h : Rel σ a) (sound : a.Sound) (rest : a.Resting σ.current)
    (call : i.call σ = some .exit) (alone : (i.ending σ).heir = none)
    (step : kernelEntry i σ = .ok ((), τ)) :
    ∃ c : Life, Rel τ c ∧ c.Sound ∧ c.Resting τ.current ∧
      c.Filed σ.current (σ.pcbs σ.current).pid (σ.pcbs σ.current).status := by
  have hrel := ending_rel (i := i) h
  have hr : (Move.reparent σ.current).Enabled (a.entered σ i) := rest.1
  have hsound := Move.sound (sound.rewant (σ.enter i.user).want) hr
  obtain ⟨m, ends, enabled, c, hc, hcrest, hmoves⟩ := exit_rel h sound rest call step
  have hend := Move.sound hsound enabled
  refine ⟨c, hc, hmoves.sound hend, hcrest, ?_⟩
  refine hmoves.invariant (fun d n hd en settling => Move.filed hd en ?_) ?_
  · rintro q s j rfl
    exact settling
  cases m with
  | zombie q =>
    have hq : q = σ.current := ends
    subst hq
    refine Or.inr ⟨⟨_, by simp [Move.apply]; rfl⟩, ?_, ?_⟩
    · rw [← ending_pid i, hrel.pid]
      simp [Move.apply]
    · rw [← ending_status i, hrel.status]
      simp [Move.apply]
  | deliver q parent r w =>
    have hq : q = σ.current := ends
    subst hq
    obtain ⟨-, hfind, hawaits, -⟩ := enabled
    have hsome : (i.ending σ).heir = some parent := by
      refine State.heir_eq_some.mpr ⟨?_, (hrel.awaited parent).mpr hawaits⟩
      rw [hrel.find, hrel.ppid]
      exact hfind
    rw [alone] at hsome
    cases hsome
  | _ => exact ends.elim

/-- A zombie that is not collected during a run keeps its pid and its status. -/
theorem run_filed {pid : Pid} {status : UInt32} (h : Rel τ a) (sound : a.Sound)
    (rest : a.Resting τ.current) (filed : a.Filed p pid status) (run : AnyRun τ tr υ)
    (kept : ∀ x ∈ tr, p ∉ (x.1.queues .pcbAvail).members) :
    ∃ c : Life, Rel υ c ∧ c.Sound ∧ c.Resting υ.current ∧ c.Filed p pid status := by
  have hrun := run.restrict (fun s _ => p ∉ (s.queues .pcbAvail).members) kept
  refine KernelRun.carry h sound rest filed (fun s j c m good _ hc enabled caused => ?_) hrun
  refine Move.filed hc enabled ?_
  rintro q t k rfl
  exact good ((caused.1.2.2.2.placed.mem_members _ p).mpr enabled.2.1)

/-- **`wait` reports the status field of the zombie it collects.** -/
theorem reaped_heap {j : Input} {φ : State} (h : Rel υ a) (sound : a.Sound)
    (rest : a.Resting υ.current) (call : j.call υ = some .wait)
    (ptr : (υ.enter j.user).arg υ.current 1 ≠ 0)
    (choice : (υ.enter j.user).waitChoice ((υ.enter j.user).arg υ.current 1) = some p)
    (zombie : (υ.pcbs p).state = .zombie) (wait : kernelEntry j υ = .ok ((), φ)) :
    φ.heap ((υ.enter j.user).arg υ.current 1) = ⟨(a.proc p).pid, (a.proc p).status⟩ := by
  have hrel : Rel (υ.enter j.user) (a.entered υ j) := enter_rel h
  have hzombie : (a.proc p).state = .zombie := by rw [← h.state]; exact zombie
  have hzombie' : ((υ.enter j.user).pcbs p).state = .zombie := by
    rw [hrel.state]
    exact hzombie
  have hwp : wp (kernelEntry j) (fun _ χ => χ.heap ((υ.enter j.user).arg υ.current 1) =
      ⟨(a.proc p).pid, (a.proc p).status⟩) (fun _ => True) υ := by
    refine kernelEntry_call call (fun _ _ => trivial) fun ext => ?_
    rw [handler, sysWait, wp_bind, wp_get]
    dsimp only
    rw [wp_ite]
    refine ⟨fun hnull => absurd hnull ptr, fun _ => ?_⟩
    rw [show (υ.enter j.user).current = υ.current from rfl, choice]
    dsimp only
    rw [if_pos hzombie']
    have hreap : wp (waitReap _ p) (fun _ χ => Returns (fun _ _ => True) _ χ ∧ _)
        (Foreseen True) (υ.enter j.user) :=
      waitReap_spec hrel (sound.rewant (υ.enter j.user).want) rest
        ((υ.enter j.user).arg υ.current 1) hzombie fun _ _ => trivial
    refine wp_mono hreap (fun _ χ hχ => ?_) fun _ _ => trivial
    rw [hχ.2, Function.update_self]
    rfl
  exact wp_ok (x := kernelEntry j) hwp wait

/-- **A parent that collects a child learns its pid and exit status exactly if** it
was waiting for the child already, or the status field of the child's PCB happens to
hold the exit status. -/
theorem collected_iff (boot : BootState b σ₀) (run : AnyRun σ₀ tr σ)
    (call : i.call σ = some .exit) (collected : Collected σ i v) :
    v = ⟨(σ.pcbs σ.current).pid, i.exitStatus σ⟩ ↔
      (i.ending σ).heir ≠ none ∨ (σ.pcbs σ.current).status = i.exitStatus σ := by
  obtain ⟨a, hrel, hsound, hrest, -⟩ := KernelRun.invariant (I := fun _ => True) boot
    (fun _ _ => trivial) (fun _ _ _ _ _ _ _ _ _ => trivial) run
  cases collected with
  | delivered parent ends =>
    rw [delivered_heap hrel hsound hrest parent ends, parent]
    simp
  | reaped alone ends later kept wait ptr choice zombie step =>
    obtain ⟨c, hc, hcsound, hcrest, hfiled⟩ := alone_filed hrel hsound hrest call alone ends
    obtain ⟨d, hd, hdsound, hdrest, hdfiled⟩ := run_filed hc hcsound hcrest hfiled later kept
    have hfree : ¬ d.Free σ.current := hdsound.not_free (by rw [← hd.state, zombie]; simp)
    obtain ⟨-, hpid, hstatus⟩ := hdfiled.resolve_left hfree
    rw [reaped_heap hd hdsound hdrest wait ptr choice zombie step, hpid, hstatus, alone]
    simp

/-! ## Two histories -/

/-- An `exit` with nobody waiting, followed at once by the `wait` that collects the
zombie, with a test of what it reports. -/
def reapTest (i j : Input) (test : Info → Bool) (σ : State) : Bool :=
  decide (i.call σ = some .exit ∧ (i.ending σ).heir = none) &&
    match kernelEntry i σ with
    | .error _ => false
    | .ok (_, υ) =>
      let ptr := (υ.enter j.user).arg υ.current 1
      decide (j.call υ = some .wait ∧ ptr ≠ 0 ∧
        (υ.enter j.user).waitChoice ptr = some σ.current ∧
        (υ.pcbs σ.current).state = .zombie) &&
      match kernelEntry j υ with
      | .error _ => false
      | .ok (_, φ) => test (φ.heap ptr)

theorem reapTest_collected {j : Input} {test : Info → Bool} (h : reapTest i j test σ) :
    i.call σ = some .exit ∧ ∃ v, Collected σ i v ∧ test v := by
  obtain ⟨hcall, hreap⟩ := Bool.and_eq_true_iff.mp h
  obtain ⟨hexit, halone⟩ := of_decide_eq_true hcall
  refine ⟨hexit, ?_⟩
  split at hreap
  · cases hreap
  rename_i υ hυ
  obtain ⟨hwait, hlast⟩ := Bool.and_eq_true_iff.mp hreap
  obtain ⟨hcall', hptr, hchoice, hzombie⟩ := of_decide_eq_true hwait
  split at hlast
  · cases hlast
  rename_i φ hφ
  exact ⟨_, .reaped halone hυ .nil (by simp) hcall' hptr hchoice hzombie hφ, hlast⟩

/-- The child exits with status 7 before init waits: init is told 0. -/
theorem zombie_status_lost :
    ¬ ∀ (b : Boot) (σ₀ : State) (tr : List (State × Input)) (σ : State) (i : Input) (v : Info),
      BootState b σ₀ → AnyRun σ₀ tr σ → i.call σ = some .exit → Collected σ i v →
      v = ⟨(σ.pcbs σ.current).pid, i.exitStatus σ⟩ := by
  intro h
  have hrun : bootTest (fun _ _ => True) blankBoot
      [callInput 1 (fun _ => 0) blankHeap, clockInput (fun _ => 0) blankHeap]
      fun σ => decide ((callInput 0 (fun _ => 7) blankHeap).exitStatus σ = 7) &&
        reapTest (callInput 0 (fun _ => 7) blankHeap) (callInput 3 (fun _ => 16) blankHeap)
          (fun v => decide (v.status = 0)) σ := by
    decide +kernel
  obtain ⟨σ₀, tr, σ, hboot, hany, -, htest⟩ := bootTest_run hrun
  obtain ⟨hseven, hreap⟩ := Bool.and_eq_true_iff.mp htest
  obtain ⟨hcall, v, hcollected, hzero⟩ := reapTest_collected hreap
  have hv := h _ _ _ _ _ _ hboot hany hcall hcollected
  rw [hv, of_decide_eq_true hseven] at hzero
  simp at hzero

/-- Init waits first, and is told 7. -/
theorem collected_iff_delivered : ∃ σ₀ tr σ i v, BootState blankBoot σ₀ ∧ AnyRun σ₀ tr σ ∧
    i.call σ = some .exit ∧ Collected σ i v ∧ i.exitStatus σ = 7 ∧
    v = ⟨(σ.pcbs σ.current).pid, i.exitStatus σ⟩ := by
  have hrun : bootTest (fun _ _ => True) blankBoot
      [callInput 1 (fun _ => 0) blankHeap, callInput 3 (fun _ => 16) blankHeap] fun σ =>
      let i := callInput 0 (fun s => if s = 0 then 16 else 7) blankHeap
      decide (i.call σ = some .exit ∧ i.exitStatus σ = 7 ∧ (i.ending σ).heir ≠ none) &&
        match zombify σ.current (i.ending σ) with
        | .ok _ => true
        | .error _ => false := by
    decide +kernel
  obtain ⟨σ₀, tr, σ, hboot, hany, -, htest⟩ := bootTest_run hrun
  obtain ⟨hfacts, hends⟩ := Bool.and_eq_true_iff.mp htest
  obtain ⟨hcall, hseven, hheir⟩ := of_decide_eq_true hfacts
  obtain ⟨q, hq⟩ := Option.ne_none_iff_exists'.mp hheir
  split at hends
  · rename_i r hr
    have hcollected := Collected.delivered hq hr
    exact ⟨σ₀, tr, σ, _, _, hboot, hany, hcall, hcollected, hseven,
      (collected_iff hboot hany hcall hcollected).mpr (Or.inl hheir)⟩
  · cases hends

end Cumulonimbus
