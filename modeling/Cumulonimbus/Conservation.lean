import Cumulonimbus.Boot

/-!
# No process is lost, none is queued twice

A process that the kernel has taken off the free list is on the CPU or on one of
the other queues, unless some process called `yield`: that handler dispatches
without having put its caller anywhere, and the caller never comes back
(`nothingLost_iff`).  No process is ever linked twice, and so the node pool never
runs dry (`singly_linked`).
-/

namespace Cumulonimbus

open Exec

variable {σ σ₀ : State} {a : Life} {b : Boot} {tr : List (State × Input)}

/-- Every PCB that is not on the free list is current or on another queue. -/
def State.NothingLost (σ : State) : Prop :=
  ∀ p, p ∉ (σ.queues .pcbAvail).members →
    p = σ.current ∨ ∃ X, X ≠ .pcbAvail ∧ p ∈ (σ.queues X).members

instance (σ : State) : Decidable σ.NothingLost :=
  inferInstanceAs (Decidable (∀ p, p ∉ (σ.queues .pcbAvail).members →
    p = σ.current ∨ ∃ X, X ≠ .pcbAvail ∧ p ∈ (σ.queues X).members))

/-- Being lost is being in limbo. -/
theorem Rel.nothingLost_iff_place (h : Rel σ a) (runs : a.Runs σ.current) :
    σ.NothingLost ↔ ∀ p, a.place p ≠ .limbo := by
  constructor
  · intro hlost p hp
    have havail : p ∉ (σ.queues .pcbAvail).members := by
      rw [h.placed.mem_members]
      simp [hp]
    rcases hlost p havail with rfl | ⟨X, -, hX⟩
    · simp [runs.place] at hp
    · obtain ⟨key, hkey⟩ := (h.placed.mem_members X p).mp hX
      simp [hp] at hkey
  · intro hall p havail
    cases hp : a.place p with
    | cpu => exact Or.inl ((runs p).mp hp)
    | limbo => exact absurd hp (hall p)
    | queued X key =>
      refine Or.inr ⟨X, ?_, (h.placed.mem_members X p).mpr ⟨key, hp⟩⟩
      rintro rfl
      exact havail ((h.placed.mem_members _ p).mpr ⟨key, hp⟩)

/-- Only `abandon` puts a process into limbo. -/
theorem Move.no_limbo {m : Move} (hm : ∀ p, m ≠ .abandon p) (h : ∀ p, a.place p ≠ .limbo) :
    ∀ p, (m.apply a).place p ≠ .limbo := by
  intro q
  cases m with
  | abandon p => exact absurd rfl (hm p)
  | deliver p q' r w =>
    by_cases hr : q = r
    · simp [Move.apply, hr]
    · by_cases hp : q = p
      · subst hp; simp [Move.apply, hr]
      · simp [Move.apply, hr, hp, h q]
  | kill p => exact h q
  | reparent p => exact h q
  | write w => exact h q
  | ready p _ | wake p _ | sleep p _ | blockRead p | blockWait p _ | fork _ p _ _ | recycle p
  | zombie p | reap _ p _ | take p | takeKilled p =>
    by_cases hp : q = p <;> simp [Move.apply, hp, h q]

/-- No move leads out of limbo. -/
theorem Move.stays_lost {m : Move} {q : PcbId} (enabled : m.Enabled a)
    (h : a.place q = .limbo) : (m.apply a).place q = .limbo := by
  have hruns : ∀ p, a.Runs p → q ≠ p := by
    rintro p hp rfl
    simp [hp.place] at h
  cases m with
  | ready p i => simpa [Move.apply, hruns p enabled] using h
  | wake p i =>
    have hne : q ≠ p := by
      rintro rfl
      obtain ⟨key, hkey | hkey⟩ := enabled <;> simp [h] at hkey
    simpa [Move.apply, hne] using h
  | sleep p key => simpa [Move.apply, hruns p enabled] using h
  | blockRead p => simpa [Move.apply, hruns p enabled] using h
  | blockWait p w => simpa [Move.apply, hruns p enabled.1] using h
  | kill p => exact h
  | fork p c s i =>
    have hne : q ≠ c := by
      rintro rfl
      obtain ⟨key, hkey⟩ := enabled.2.1
      simp [h] at hkey
    simpa [Move.apply, hne] using h
  | recycle c =>
    have hne : q ≠ c := by
      rintro rfl
      obtain ⟨key, hkey⟩ := enabled
      simp [h] at hkey
    simpa [Move.apply, hne] using h
  | reparent p => exact h
  | zombie p => simpa [Move.apply, hruns p enabled.1] using h
  | deliver p q' r w =>
    have hne : q ≠ r := by
      rintro rfl
      simp [h, Move.Enabled] at enabled
    simpa [Move.apply, hne, hruns p enabled.1] using h
  | reap q' r w =>
    have hne : q ≠ r := by
      rintro rfl
      simp [h, Move.Enabled] at enabled
    simpa [Move.apply, hne] using h
  | take p =>
    have hne : q ≠ p := by
      rintro rfl
      obtain ⟨-, ⟨i, key, hkey⟩, -⟩ := enabled
      simp [h] at hkey
    simpa [Move.apply, hne] using h
  | takeKilled p =>
    have hne : q ≠ p := by
      rintro rfl
      obtain ⟨-, ⟨i, key, hkey⟩, -⟩ := enabled
      simp [h] at hkey
    simpa [Move.apply, hne] using h
  | abandon p => simpa [Move.apply, hruns p enabled] using h
  | write w => exact h

theorem Moves.stays_lost {ok : Life → Move → Prop} {c : Life} {q : PcbId} (run : Moves ok a c)
    (h : a.place q = .limbo) : c.place q = .limbo :=
  run.invariant (I := fun d => d.place q = .limbo)
    (fun _ _ hd enabled _ => Move.stays_lost enabled hd) h

/-- **`yield` loses its caller.** -/
theorem yield_loses {τ : State} {i : Input} (h : Rel σ a) (sound : a.Sound)
    (rest : a.Resting σ.current) (call : i.call σ = some .yield)
    (step : kernelEntry i σ = .ok ((), τ)) :
    ∃ c, Rel τ c ∧ c.Sound ∧ c.Resting τ.current ∧ c.place σ.current = .limbo := by
  have hrel : Rel (σ.enter i.user) (a.entered σ i) := enter_rel h
  have hrest : (a.entered σ i).Runs σ.current := rest.1
  have enabled : (Move.abandon σ.current).Enabled (a.entered σ i) := hrest
  have hlost : Rel (σ.enter i.user) ((Move.abandon σ.current).apply (a.entered σ i)) :=
    hrel.move_loose hrest.loose (by simp)
  have hsound := Move.sound (sound.rewant (σ.enter i.user).want) enabled
  have hidle : ((Move.abandon σ.current).apply (a.entered σ i)).Idle :=
    hrest.idle_of (by simp [Move.apply]) fun q hq => by simp [Move.apply, hq]
  have hwp : wp (kernelEntry i)
      (fun _ υ => Returns Settling ((Move.abandon σ.current).apply (a.entered σ i)) υ)
      (fun _ => True) σ := by
    refine kernelEntry_call call (fun _ _ => trivial) fun ext => ?_
    exact wp_mono (dispatch_spec hlost hsound hidle) (fun _ _ hr => hr) fun _ _ => trivial
  obtain ⟨c, hc, hcrest, hrun⟩ := wp_ok (x := kernelEntry i) hwp step
  exact ⟨c, hc, hrun.sound hsound, hcrest, hrun.stays_lost (by simp [Move.apply])⟩

/-- The two directions together, for the life that describes the last state. -/
theorem limbo_iff (boot : BootState b σ₀) (run : AnyRun σ₀ tr σ) :
    ∃ a : Life, Rel σ a ∧ a.Sound ∧ a.Resting σ.current ∧
      ((∀ p, a.place p ≠ .limbo) ↔ ∀ x ∈ tr, x.2.call x.1 ≠ some .yield) := by
  induction run with
  | nil =>
    obtain ⟨a, hrel, hboot⟩ := boot.rel
    refine ⟨a, hrel, hboot.sound, hboot.resting, by simp, fun _ p hp => ?_⟩
    by_cases hpc : p = σ₀.current
    · rw [hpc, hboot.runs.place] at hp
      cases hp
    · obtain ⟨key, hkey⟩ := (hboot.others p hpc).1
      simp [hkey] at hp
  | snoc _ ok next ih =>
    rename_i tr t u i _
    obtain ⟨a, hrel, hsound, hrest, hiff⟩ := ih
    by_cases hcall : i.call t = some .yield
    · obtain ⟨c, hc, hcsound, hcrest, hlost⟩ := yield_loses hrel hsound hrest hcall next
      refine ⟨c, hc, hcsound, hcrest, fun hall => absurd hlost (hall _), fun hall => ?_⟩
      exact absurd hcall (hall (t, i) (by simp))
    · obtain ⟨c, hc, hcrest, hmoves⟩ := step_rel hrel hsound hrest next
      refine ⟨c, hc, hmoves.sound hsound, hcrest, fun hall => ?_, fun hall => ?_⟩
      · have hbefore : ∀ p, a.place p ≠ .limbo :=
          fun p hp => hall p (hmoves.stays_lost hp)
        intro x hx
        rcases List.mem_append.mp hx with hx | hx
        · exact hiff.mp hbefore x hx
        · obtain rfl : x = (t, i) := by simpa using hx
          exact hcall
      · have hbefore := hiff.mpr fun x hx => hall x (List.mem_append_left _ hx)
        refine hmoves.invariant (I := fun d => ∀ p, d.place p ≠ .limbo)
          (fun d m hd _ origin => Move.no_limbo (fun p hm => ?_) hd) hbefore
        subst hm
        exact hcall origin.1

/-- **Nothing is lost exactly as long as nobody yields.** -/
theorem nothingLost_iff (boot : BootState b σ₀) (run : AnyRun σ₀ tr σ) :
    σ.NothingLost ↔ ∀ x ∈ tr, x.2.call x.1 ≠ some .yield := by
  obtain ⟨a, hrel, -, hrest, hiff⟩ := limbo_iff boot run
  rw [hrel.nothingLost_iff_place hrest.1, hiff]

/-- After `fork` and `yield` the first process is nowhere. -/
theorem yield_loses_init :
    ¬ ∀ (b : Boot) (σ₀ : State) (tr : List (State × Input)) (σ : State),
      BootState b σ₀ → AnyRun σ₀ tr σ → σ.NothingLost := by
  intro h
  have hrun : bootTest (fun _ _ => True) blankBoot [callInput 1 (fun _ => 0) blankHeap,
      callInput 30 (fun _ => 0) blankHeap] (fun σ => ¬ σ.NothingLost) := by
    decide +kernel
  obtain ⟨σ₀, tr, σ, hboot, hany, -, hlost⟩ := bootTest_run hrun
  exact of_decide_eq_true hlost (h _ _ _ _ hboot hany)

/-- `fork` and a clock tick, which preempts the first process: nobody yields and
nothing is lost. -/
theorem nothingLost_iff_tick : ∃ σ₀ tr σ, BootState blankBoot σ₀ ∧ AnyRun σ₀ tr σ ∧
    tr.length = 2 ∧ (σ.NothingLost ↔ ∀ x ∈ tr, x.2.call x.1 ≠ some .yield) := by
  have hrun : bootTest (fun _ _ => True) blankBoot [callInput 1 (fun _ => 0) blankHeap,
      clockInput (fun _ => 0) blankHeap] (fun _ => true) := by
    decide +kernel
  obtain ⟨σ₀, tr, σ, hboot, hany, htr, -⟩ := bootTest_run hrun
  have hlen : tr.length = 2 := by simpa using congrArg List.length htr
  exact ⟨σ₀, tr, σ, hboot, hany, hlen, nothingLost_iff hboot hany⟩

/-! ## Single membership -/

/-- Every PCB is linked at most once over all queues, the current one in none, and
every stack at most once. -/
structure State.SinglyLinked (σ : State) : Prop where
  pcb : ∀ p, ∑ X, (σ.queues X).members.count p ≤ 1
  current : ∀ X, σ.current ∉ (σ.queues X).members
  stack : ∀ s, σ.stackAvail.members.count s ≤ 1

theorem Rel.singlyLinked (h : Rel σ a) (runs : a.Runs σ.current) : σ.SinglyLinked where
  pcb p := by
    by_cases hp : ∃ X, p ∈ (σ.queues X).members
    · obtain ⟨X, hX⟩ := hp
      rw [Finset.sum_eq_single X]
      · exact List.nodup_iff_count_le_one.mp (h.placed.nodup X) p
      · intro Y _ hne
        refine List.count_eq_zero.mpr fun hY => hne ?_
        exact h.placed.eq_of_mem hY hX
      · exact fun hX => absurd (Finset.mem_univ X) hX
    · have hzero : ∀ X, (σ.queues X).members.count p = 0 :=
        fun X => List.count_eq_zero.mpr fun hX => hp ⟨X, hX⟩
      simp [hzero]
  current X hX := by
    obtain ⟨key, hkey⟩ := (h.placed.mem_members X _).mp hX
    simp [runs.place] at hkey
  stack s := List.nodup_iff_count_le_one.mp h.placed.stackNodup s

/-- **Single membership, and the node pool suffices.**  In every state reached from
the start nothing is linked twice; and whatever enters the kernel next, no routine
panics with `E_NO_QNODES`, and the insertion that `sleep` makes succeeds. -/
theorem singlyLinked_and_pool_suffices (boot : BootState b σ₀) (run : AnyRun σ₀ tr σ) :
    σ.SinglyLinked ∧ ∀ i : Input,
      (∀ m msg, kernelEntry i σ ≠ .error (.kpanic m msg Status.noQnodes.code.toNat)) ∧
      (i.call σ = some .sleep → ∃ τ, sleepInsert (σ.enter i.user) = .ok (.success, τ)) := by
  obtain ⟨a, hrel, hsound, hrest, -⟩ := KernelRun.invariant (I := fun _ => True) boot
    (fun _ _ => trivial) (fun _ _ _ _ _ _ _ _ _ => trivial) run
  refine ⟨hrel.singlyLinked hrest.1, fun i => ⟨fun m msg herror => ?_, fun _ => ?_⟩⟩
  · have hexpected := wp_error (x := kernelEntry i) (kernelEntry_spec hrel hsound hrest i) herror
    exact hexpected.1 rfl
  · have hinsert := sleepInsert_spec (E := fun _ => False) (enter_rel (i := i) hrel) hrest.1
    cases hrun : sleepInsert (σ.enter i.user) with
    | error e => exact (wp_error (x := sleepInsert) hinsert hrun).elim
    | ok r =>
      have hstat : r.1 = .success := (wp_ok (x := sleepInsert) hinsert (hrun.trans rfl)).1
      exact ⟨r.2, by rw [← hstat]⟩

/-- The invariant at work after `fork` and a clock tick. -/
theorem singlyLinked_and_pool_suffices_tick : ∃ σ₀ tr σ, BootState blankBoot σ₀ ∧
    AnyRun σ₀ tr σ ∧ tr.length = 2 ∧ σ.SinglyLinked := by
  have hrun : bootTest (fun _ _ => True) blankBoot [callInput 1 (fun _ => 0) blankHeap,
      clockInput (fun _ => 0) blankHeap] (fun _ => true) := by
    decide +kernel
  obtain ⟨σ₀, tr, σ, hboot, hany, htr, -⟩ := bootTest_run hrun
  have hlen : tr.length = 2 := by simpa using congrArg List.length htr
  exact ⟨σ₀, tr, σ, hboot, hany, hlen, (singlyLinked_and_pool_suffices hboot hany).1⟩

end Cumulonimbus
