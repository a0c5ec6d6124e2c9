import Cumulonimbus.Pids

/-!
# Removal by pid

`_zombify` takes the waiting parent off `_waiting`, and `_sys_wait` a zombie off `_zombie`,
by a key that is the pid of the PCB at hand; the PCB that comes off is then used instead of
it.  Until the counter of `_pid_next` has run through all its values no two processes have
the same pid, so what comes off is the PCB whose pid was the key (`removals_hit`).
-/

namespace Cumulonimbus

open Exec

variable {σ σ₀ τ : State} {a c : Life} {p q : PcbId} {i : Input} {b : Boot}
  {tr : List (State × Input)}

/-- The entry is a `fork` for which there are a PCB and a stack. -/
def Input.HandsOut (σ : State) (i : Input) : Prop :=
  i.call σ = some .fork ∧ (σ.queues .pcbAvail).items ≠ [] ∧ σ.stackAvail.items ≠ []

instance (σ : State) (i : Input) : Decidable (i.HandsOut σ) :=
  inferInstanceAs (Decidable (_ ∧ _ ∧ _))

/-- How many pids have been handed out: one by `_init`, and one by each such `fork`. -/
def handedOut (tr : List (State × Input)) : Nat :=
  1 + tr.countP fun x => decide (x.2.HandsOut x.1)

/-- The pids handed out, after one more entry. -/
theorem handedOut_concat (tr : List (State × Input)) (σ : State) (i : Input) :
    handedOut (tr ++ [(σ, i)]) = handedOut tr + (if i.HandsOut σ then 1 else 0) := by
  simp only [handedOut, List.countP_append, List.countP_singleton, decide_eq_true_eq,
    Nat.add_assoc]

/-- A run of `n` entries hands out one pid in `_init`, and no more than `n` others. -/
theorem handedOut_le (tr : List (State × Input)) : handedOut tr ≤ 1 + tr.length :=
  Nat.add_le_add_left List.countP_le_length 1

/-- The pids of allocated PCBs are distinct, and waiting processes and zombies are filed
under theirs. -/
structure State.Filed (σ : State) : Prop where
  distinct : ∀ p q, p ∉ (σ.queues .pcbAvail).members → q ∉ (σ.queues .pcbAvail).members →
    (σ.pcbs p).pid.id = (σ.pcbs q).pid.id → p = q
  waiting : ∀ p, (σ.pcbs p).state = .waiting →
    ((σ.pcbs p).pid.id, p) ∈ (σ.queues .waiting).items
  zombie : ∀ p, (σ.pcbs p).state = .zombie →
    ((σ.pcbs p).pid.id, p) ∈ (σ.queues .zombie).items

/-- `_q_remove_by_key` with the pid of `p` succeeds and yields `p`. -/
def State.Hits (σ : State) (X : QName) (p : PcbId) : Prop :=
  ∃ τ, qRemoveByKey X (σ.pcbs p).pid.id σ = .ok (.ok p, τ)

/-- The removals that `_zombify` and `_sys_wait` may ask for in this state. -/
structure State.RemovalsHit (σ : State) : Prop where
  waiting : ∀ p, (σ.pcbs p).state = .waiting → σ.Hits .waiting p
  zombie : ∀ p, (σ.pcbs p).state = .zombie → σ.Hits .zombie p

/-- Where a move takes a process off by a key, it is the one whose pid was the key. -/
def Move.Exact : Move → Prop
  | .deliver _ q r _ => r = q
  | .reap q r _ => r = q
  | _ => True

namespace Life

/-- A process that is filed under its pid is what a removal by that pid yields. -/
theorem Unique.hits (h : a.Unique) (sound : a.Sound) (hrel : Rel τ a) {X : QName}
    (hX : X = .waiting ∨ X = .zombie)
    (hp : a.place p = .queued X (a.proc p).pid.id) : τ.Hits X p := by
  have hremove : (initialQueue X).remove = some removeIfEqual := by
    rcases hX with rfl | rfl <;> rfl
  have hfree : ¬ a.Free p := by
    intro ⟨key, hkey⟩
    rcases hX with rfl | rfl <;> simp [hp] at hkey
  have hwp := qRemoveByKey_target (E := fun _ => False) hrel hp hremove
    (by simp [removeIfEqual] : removeIfEqual (a.proc p).pid.id (a.proc p).pid.id)
  obtain ⟨r, υ, hrun, q, k, rfl, hplace, hkey, -⟩ := wp_returns hwp
  have hk : k = (a.proc p).pid.id := by simpa [removeIfEqual] using hkey
  subst hk
  have hqp := h.eq_of_key sound hfree hX hplace
  subst hqp
  exact ⟨υ, by rw [hrel.pid]; exact hrun⟩

/-- With unique pids every removal by pid takes the process that is meant. -/
theorem Unique.removalsHit (h : a.Unique) (sound : a.Sound) (hrel : Rel τ a) :
    τ.RemovalsHit where
  waiting p hp := by
    rw [hrel.state] at hp
    exact h.hits sound hrel (Or.inl rfl) (sound.place_waiting hp)
  zombie p hp := by
    rw [hrel.state] at hp
    exact h.hits sound hrel (Or.inr rfl) (sound.place_zombie hp)

/-- Whoever waits or has ended is filed under his own numbers. -/
theorem Unique.filed (h : a.Unique) (sound : a.Sound) (hrel : Rel τ a) : τ.Filed where
  distinct p q hp hq hid := by
    rw [← hrel.free_iff] at hp hq
    rw [hrel.pid, hrel.pid] at hid
    refine h p q hp hq ((Pid.same_iff _ _).mpr ⟨?_, hid⟩)
    rw [(sound.home p hp).1, (sound.home q hq).1]
  waiting p hp := by
    rw [hrel.state] at hp
    rw [hrel.pid]
    exact (hrel.placed.mem .waiting _ p).mpr (sound.place_waiting hp)
  zombie p hp := by
    rw [hrel.state] at hp
    rw [hrel.pid]
    exact (hrel.placed.mem .zombie _ p).mpr (sound.place_zombie hp)

/-- The counter has not passed `n`, and all pids lie below it. -/
structure Counted (a : Life) (n : Nat) : Prop where
  next : a.nextPid.id.toNat ≤ n
  below : ∀ p, ¬ a.Free p → (a.proc p).pid.id.toNat < a.nextPid.id.toNat

/-- At boot two pids have been handed out. -/
theorem Booted.counted (h : a.Booted b p) : a.Counted 2 := by
  have hfirst : (pidInit + 1).toNat = 2 := by decide
  refine ⟨by rw [h.nextPid, hfirst], fun q hq => ?_⟩
  by_cases hqp : q = p
  · obtain ⟨s, hs⟩ := h.proc
    rw [hqp, hs, h.nextPid, hfirst]
    exact Nat.lt_succ_self 1
  · exact absurd (h.others q hqp).1 hq

/-- As long as the counter has not wrapped around, a `fork` is fresh. -/
theorem Counted.forksFresh {n : Nat} (h : a.Counted n) (hrel : Rel σ a) (i : Input) :
    i.ForksFresh σ := by
  intro _ p hp hsame
  rw [← hrel.free_iff] at hp
  have hlt := h.below p hp
  rw [Pid.same_iff, hrel.pid, State.upcoming] at hsame
  rw [hsame.2, hrel.nextPid] at hlt
  exact Nat.lt_irrefl _ hlt

end Life

/-- Only `fork` hands out a pid. -/
theorem Move.nextPid_eq {m : Move} (hm : ∀ p c s j, m ≠ .fork p c s j) :
    (m.apply a).nextPid = a.nextPid := by
  cases m with
  | fork p c s j => exact absurd rfl (hm p c s j)
  | _ => rfl

/-- A move keeps the pids below the counter, if the counter has room for a `fork`. -/
theorem Move.counted {m : Move} {n n' : Nat} (h : a.Counted n) (enabled : m.Enabled a)
    (le : n ≤ n') (room : ∀ p c s j, m = .fork p c s j →
      a.nextPid.id.toNat + 1 ≤ n' ∧ a.nextPid.id.toNat + 1 < 2 ^ 32) :
    (m.apply a).Counted n' := by
  by_cases hfork : ∃ p c s j, m = .fork p c s j
  · obtain ⟨p, c, s, j, rfl⟩ := hfork
    obtain ⟨hle, hlt⟩ := room p c s j rfl
    have hnext : ((Move.fork p c s j).apply a).nextPid.id.toNat = a.nextPid.id.toNat + 1 := by
      show (a.nextPid.id + 1).toNat = _
      rw [UInt32.toNat_add, UInt32.toNat_one, Nat.mod_eq_of_lt hlt]
    refine ⟨hnext ▸ hle, fun x hx => ?_⟩
    rw [hnext]
    by_cases hxc : x = c
    · simp [Move.apply, hxc]
    · have hold : ¬ a.Free x := by simpa [Move.apply, Life.Free, hxc] using hx
      have hpid : (((Move.fork p c s j).apply a).proc x).pid = (a.proc x).pid := by
        simp [Move.apply, hxc]
      rw [hpid]
      exact Nat.lt_succ_of_lt (h.below x hold)
  · have hm : ∀ p c s j, m ≠ .fork p c s j := fun p c s j hm => hfork ⟨p, c, s, j, hm⟩
    have hnext := Move.nextPid_eq (a := a) hm
    refine ⟨by rw [hnext]; exact Nat.le_trans h.next le, fun x hx => ?_⟩
    obtain ⟨hold, hpid, -⟩ := Move.keeps_pids enabled (fun p s j => hm p x s j) hx
    rw [hnext, hpid]
    exact h.below x hold

/-- An entry that makes a `fork` hands out a pid. -/
theorem Caused.handsOut {c' : PcbId} {s : StackId} {j : Fin nPriorities}
    (caused : Caused σ i c (.fork p c' s j)) (enabled : (Move.fork p c' s j).Enabled c) :
    i.HandsOut σ := by
  obtain ⟨-, hcall, -, hrel⟩ := caused.1
  obtain ⟨-, ⟨key, hkey⟩, hs⟩ := enabled
  refine ⟨hcall, ?_, ?_⟩
  · exact List.ne_nil_of_mem ((hrel.placed.mem .pcbAvail key c').mpr hkey)
  · have hmem := (hrel.placed.stack s).mpr hs
    intro hnil
    rw [Queue.members, show (σ.enter i.user).stackAvail.items = [] from hnil] at hmem
    cases hmem

/-- One entry: the pids stay distinct and below the counter. -/
theorem step_counted {k : Nat} (hrel : Rel σ a) (sound : a.Sound) (rest : a.Resting σ.current)
    (unique : a.Unique) (counted : a.Counted (k + 1))
    (few : k + (if i.HandsOut σ then 1 else 0) < 2 ^ 32 - 1)
    (step : kernelEntry i σ = .ok ((), τ)) :
    ∃ d : Life, Rel τ d ∧ d.Sound ∧ d.Resting τ.current ∧ d.Unique ∧
      d.Counted (k + (if i.HandsOut σ then 1 else 0) + 1) := by
  have fresh := counted.forksFresh hrel i
  refine step_invariant (I := fun d => d.Unique ∧
    d.Counted (k + (if i.HandsOut σ then 1 else 0) + 1)) hrel sound rest
    ⟨unique, Nat.le_trans counted.next (by omega), counted.below⟩ ?_ step
  intro d m _ hd enabled caused
  refine ⟨Move.unique_of_origin hd.1 enabled caused.1 fresh,
    Move.counted hd.2 enabled (Nat.le_refl _) ?_⟩
  intro p c s j hm
  subst hm
  -- the counter is where the entry found it
  have hnext : d.nextPid.id = a.nextPid.id := by
    rw [caused.1.2.2.2.nextPid, hrel.nextPid]
    rfl
  have hle := counted.next
  rw [if_pos (caused.handsOut enabled)] at few ⊢
  rw [hnext]
  omega

/-- Fewer than `2 ^ 32 - 1` pids are distinct. -/
theorem run_counted (boot : BootState b σ₀) (run : AnyRun σ₀ tr σ)
    (few : handedOut tr < 2 ^ 32 - 1) :
    ∃ a : Life, Rel σ a ∧ a.Sound ∧ a.Resting σ.current ∧ a.Unique ∧
      a.Counted (handedOut tr + 1) := by
  induction run with
  | nil =>
    obtain ⟨a, hrel, hboot⟩ := boot.rel
    exact ⟨a, hrel, hboot.sound, hboot.resting, hboot.unique, hboot.counted⟩
  | @snoc tr τ υ i _ _ next ih =>
    rw [handedOut_concat] at few ⊢
    obtain ⟨a, hrel, hsound, hrest, hunique, hcounted⟩ := ih (by omega)
    exact step_counted hrel hsound hrest hunique hcounted few next

/-- **Removals by key hit their target.**  In a state reached with fewer than `2 ^ 32 - 1`
pids handed out, the pids are distinct, waiting processes and zombies are filed under
theirs, and removals by pid yield the process that was meant.  The same holds in every
state that the next entry passes through; none of its removals misses, and each takes off
the PCB whose pid was the key. -/
theorem removals_hit (boot : BootState b σ₀) (run : AnyRun σ₀ tr σ)
    (few : handedOut tr < 2 ^ 32 - 1) :
    σ.Filed ∧ σ.RemovalsHit ∧ ∃ a : Life, Rel σ a ∧ ∀ i : Input,
      wp (kernelEntry i)
        (fun _ τ => Returns
          (fun c m => Caused σ i c m ∧ m.Exact ∧
            ∀ υ : State, Rel υ c → υ.Filed ∧ υ.RemovalsHit) a τ)
        (fun e => ¬ e.Misses) σ := by
  obtain ⟨a, hrel, hsound, hrest, hunique, hcounted⟩ := run_counted boot run few
  refine ⟨hunique.filed hsound hrel, hunique.removalsHit hsound hrel, a, hrel, fun i => ?_⟩
  have fresh := hcounted.forksFresh hrel i
  refine wp_mono (kernelEntry_caused hrel hsound hrest i) ?_ fun _ he => he.2
  intro _ τ ⟨c, hc, hcrest, hmoves⟩
  refine ⟨c, hc, hcrest, (hmoves.strengthen (I := fun d => d.Sound ∧ d.Unique) ?_
    ⟨hsound, hunique⟩).1⟩
  intro d m ⟨hs, hu⟩ enabled caused
  refine ⟨⟨Move.sound hs enabled, Move.unique_of_origin hu enabled caused.1 fresh⟩, caused, ?_,
    fun υ hυ => ⟨hu.filed hs hυ, hu.removalsHit hs hυ⟩⟩
  cases m with
  | deliver p q r w =>
    obtain ⟨-, -, hawaits, hr, -⟩ := enabled
    exact hu.eq_of_key hs (hs.not_free (by rw [hawaits.1]; simp)) (Or.inl rfl) hr
  | reap q r w =>
    obtain ⟨hzombie, hr, -⟩ := enabled
    exact hu.eq_of_key hs (hs.not_free (by rw [hzombie]; simp)) (Or.inr rfl) hr
  | _ => trivial

/-- In a family of which one member is a zombie and one waits. -/
theorem removals_hit_family : ∃ σ₀ tr σ, BootState blankBoot σ₀ ∧ AnyRun σ₀ tr σ ∧
    (∃ p, (σ.pcbs p).state = .waiting) ∧ (∃ p, (σ.pcbs p).state = .zombie) ∧
    σ.Filed ∧ σ.RemovalsHit := by
  have hrun : bootTest (fun _ _ => True) blankBoot familyRun fun σ =>
      decide (∃ p, (σ.pcbs p).state = .waiting) && decide (∃ p, (σ.pcbs p).state = .zombie) := by
    decide +kernel
  obtain ⟨σ₀, tr, σ, hboot, hany, htr, htest⟩ := bootTest_run hrun
  rw [Bool.and_eq_true, decide_eq_true_eq, decide_eq_true_eq] at htest
  have hlen : tr.length = 9 := by simpa [familyRun] using congrArg List.length htr
  have hle := handedOut_le tr
  obtain ⟨hfiled, hhit, -⟩ := removals_hit hboot hany (by omega)
  exact ⟨σ₀, tr, σ, hboot, hany, htest.1, htest.2, hfiled, hhit⟩

end Cumulonimbus
