import Cumulonimbus.Boot

/-!
# Pids stay distinct while forks are fresh

`_pid_next` counts up and wraps around without looking at the PCB table.  As long
as no `fork` hands out a pid that a process in the table still bears, no two
processes bear the same pid, and a process that is filed under its pid on a queue
is the one the kernel means when it looks there.
-/

namespace Cumulonimbus

variable {σ : State} {a : Life} {p q r : PcbId}

/-- The pid that the next `fork` hands out. -/
def State.upcoming (σ : State) : Pid := { id := σ.nextPid.id, host := σ.localMac, reserved := 0 }

/-- If the entry is a `fork`, the new pid is not borne by a process in the table. -/
def Input.ForksFresh (σ : State) (i : Input) : Prop :=
  i.call σ = some .fork →
    ∀ p, p ∉ (σ.queues .pcbAvail).members → ¬ (σ.pcbs p).pid.same σ.upcoming

instance (σ : State) (i : Input) : Decidable (i.ForksFresh σ) :=
  inferInstanceAs (Decidable (_ → ∀ p, p ∉ (σ.queues .pcbAvail).members →
    ¬ (σ.pcbs p).pid.same σ.upcoming))

/-- Two pids are the same if host and number are. -/
theorem Pid.same_iff (p1 p2 : Pid) : p1.same p2 ↔ p1.host = p2.host ∧ p1.id = p2.id := by
  simp [Pid.same]

/-- The other way round. -/
theorem Pid.same_symm {p1 p2 : Pid} (h : p1.same p2) : p2.same p1 := by
  rw [Pid.same_iff] at *
  exact ⟨h.1.symm, h.2.symm⟩

/-- Over a third one. -/
theorem Pid.same_trans {p1 p2 p3 : Pid} (h : p1.same p2) (h' : p2.same p3) : p1.same p3 := by
  rw [Pid.same_iff] at *
  exact ⟨h.1.trans h'.1, h.2.trans h'.2⟩

/-- A PCB is free exactly when it is in the pool. -/
theorem Rel.free_iff (h : Rel σ a) (p : PcbId) :
    a.Free p ↔ p ∈ (σ.queues .pcbAvail).members :=
  (h.placed.mem_members .pcbAvail p).symm

/-- A fresh fork, seen from the life at which it happens. -/
theorem Rel.fresh {i : Input} {b : Life} (h : Rel (σ.enter i.user) b) (fresh : i.ForksFresh σ)
    (call : i.call σ = some .fork) (hq : ¬ b.Free q) : ¬ (b.proc q).pid.same b.nextPid := by
  have havail : q ∉ (σ.queues .pcbAvail).members := fun hmem => hq ((h.free_iff q).mpr hmem)
  have hpid : (b.proc q).pid = (σ.pcbs q).pid := by
    rw [h.proc_of_enter]
    rfl
  rw [hpid, h.nextPid]
  exact fresh call q havail

namespace Life

/-- No two processes bear the same pid. -/
def Unique (a : Life) : Prop :=
  ∀ p q, ¬ a.Free p → ¬ a.Free q → (a.proc p).pid.same (a.proc q).pid → p = q

/-- At boot there is one process. -/
theorem Booted.unique {b : Boot} (h : a.Booted b p) : a.Unique := by
  intro x y hx hy _
  have hxp : x = p := not_not.mp fun hne => hx (h.others x hne).1
  have hyp : y = p := not_not.mp fun hne => hy (h.others y hne).1
  rw [hxp, hyp]

/-- The process that is filed under the key of `q` on the waiting queue or among
the zombies is `q`. -/
theorem Unique.eq_of_key (h : a.Unique) (sound : a.Sound) (hq : ¬ a.Free q) {X : QName}
    (hX : X = .waiting ∨ X = .zombie)
    (hr : a.place r = .queued X (a.proc q).pid.id) : r = q := by
  have hrfree : ¬ a.Free r := by
    rintro ⟨key, hkey⟩
    rcases hX with rfl | rfl <;> simp [hr] at hkey
  have hkeyed := sound.keyed r
  rw [hr] at hkeyed
  refine h r q hrfree hq ((Pid.same_iff _ _).mpr ⟨?_, ?_⟩)
  · rw [(sound.home r hrfree).1, (sound.home q hq).1]
  · rcases hX with rfl | rfl <;> exact hkeyed.symm

end Life

/-- **Moves keep pids distinct** if the forks among them are fresh. -/
theorem Move.unique {m : Move} (h : a.Unique) (enabled : m.Enabled a)
    (fresh : ∀ p c s i, m = .fork p c s i →
      ∀ q, ¬ a.Free q → ¬ (a.proc q).pid.same a.nextPid) : (m.apply a).Unique := by
  intro x y hx hy hsame
  by_cases hfork : ∃ p c s i, m = .fork p c s i
  · obtain ⟨p, c, s, i, rfl⟩ := hfork
    have hfresh := fresh p c s i rfl
    have hold : ∀ z, z ≠ c → ¬ ((Move.fork p c s i).apply a).Free z → ¬ a.Free z := by
      intro z hzc hz
      simpa [Move.apply, Life.Free, hzc] using hz
    by_cases hxc : x = c
    · by_cases hyc : y = c
      · rw [hxc, hyc]
      · simp only [Move.apply, hxc, Life.move_proc, Life.modify_proc, if_true, hyc, if_false]
          at hsame
        exact absurd (Pid.same_symm hsame) (hfresh y (hold y hyc hy))
    · by_cases hyc : y = c
      · simp only [Move.apply, hyc, Life.move_proc, Life.modify_proc, if_true, hxc, if_false]
          at hsame
        exact absurd hsame (hfresh x (hold x hxc hx))
      · simp only [Move.apply, Life.move_proc, Life.modify_proc, hxc, hyc, if_false] at hsame
        exact h x y (hold x hxc hx) (hold y hyc hy) hsame
  · have hold : ∀ z p s i, m ≠ .fork p z s i := fun z p s i hm => hfork ⟨p, z, s, i, hm⟩
    obtain ⟨hxa, hpx, -⟩ := Move.keeps_pids enabled (hold x) hx
    obtain ⟨hya, hpy, -⟩ := Move.keeps_pids enabled (hold y) hy
    rw [hpx, hpy] at hsame
    exact h x y hxa hya hsame

/-- In an entry with a fresh fork every move keeps pids distinct. -/
theorem Move.unique_of_origin {i : Input} {m : Move} (h : a.Unique) (enabled : m.Enabled a)
    (origin : Origin σ i a m) (fresh : i.ForksFresh σ) : (m.apply a).Unique := by
  refine Move.unique h enabled ?_
  rintro p c s j rfl q hq
  exact origin.2.2.2.fresh fresh origin.2.1 hq

end Cumulonimbus
