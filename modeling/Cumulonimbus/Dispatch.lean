import Cumulonimbus.Refinement

/-!
# The dispatcher as a sequence of moves

`_zombify` is one move: the process that ends is collected by its waiting parent,
or it becomes a zombie.  `_dispatch` takes processes off the ready queues, ends
those that were killed, and stops at the first one that is still ready; it always
comes to an end, because every killed process it passes is gone for good.
-/

namespace Cumulonimbus

open Exec

variable {σ : State} {a : Life} {p : PcbId}

/-- The moves that end `p`. -/
def Move.Ends (p : PcbId) : Move → Prop
  | .zombie q => q = p
  | .deliver q _ _ _ => q = p
  | _ => False

/-- The moves of the dispatcher: processes are taken off the ready queues, and
those it ends were killed. -/
def Settling (b : Life) : Move → Prop
  | .take _ => True
  | .takeKilled _ => True
  | .zombie p => (b.proc p).state = .killed
  | .deliver p _ _ _ => (b.proc p).state = .killed
  | _ => False

/-- `p` has the CPU and was not killed there: what every handler returns to. -/
def Life.Resting (a : Life) (p : PcbId) : Prop :=
  a.Runs p ∧ ((a.proc p).state = .running ∨ (a.proc p).state = .free)

/-- Who runs is in no queue. -/
theorem Life.Runs.loose (h : a.Runs p) : Loose a.place p := by
  intro X key
  simp [h.place]

/-- What `zombify` and `zombifyDeliver` leave behind. -/
def Ended (σ : State) (a : Life) (τ : State) : Prop :=
  ∃ m : Move, m.Ends σ.current ∧ m.Enabled a ∧ Rel τ (m.apply a) ∧ (m.apply a).Idle ∧
    τ.dispatchFuel = σ.dispatchFuel

/-- The panic of `_zombify` over a process without a stack. -/
def noStackPanic : Halt :=
  .kpanic "_zombify" "stack free status %s" Status.badParam.code.toNat

/-- The panic for a null stack is foreseen. -/
theorem foreseen_noStack {orphan : Prop} : Foreseen orphan noStackPanic :=
  foreseen_status (by decide) (by decide) (by simp [Halt.Misses])

/-- Handing pid and status over to a waiting parent. -/
theorem zombifyDeliver_spec (h : Rel σ a) (sound : a.Sound) (runs : a.Runs σ.current)
    {q : PcbId} (parent : a.find (a.proc σ.current).ppid = some q)
    (awaits : a.Awaits q σ.current) (info : UInt32) {E : Halt → Prop}
    (noStack : (a.proc σ.current).stack = none → E noStackPanic) :
    wp (zombifyDeliver σ.current q info)
      (fun _ τ => Ended σ a τ ∧ τ.heap = Function.update σ.heap info
        ⟨(σ.pcbs σ.current).pid, σ.arg σ.current 1⟩) E σ := by
  have hidle : (a.proc σ.current).state ≠ .waiting := by
    rcases sound.state_cpu runs.place with hs | hs | hs <;> simp [hs]
  rw [zombifyDeliver, wp_bind, wp_get]
  -- the parent is filed under its pid, so the removal finds something
  have hfiled : a.place q = .queued .waiting (a.proc q).pid.id := sound.place_waiting awaits.1
  rw [h.pid]
  refine wp_seq (qRemoveByKey_target h hfiled rfl (by simp [removeIfEqual])) ?_
  rintro res τ ⟨r, k, rfl, hplace, hrem, h₁, -, hframe₁, hshrunk⟩
  have hkey : k = (a.proc q).pid.id := by simpa [removeIfEqual] using hrem
  subst hkey
  have hne : r ≠ σ.current := by
    rintro rfl
    simp [runs.place] at hplace
  -- the status is written through the parent's pointer
  refine wp_seq (modifyInfo_rel h₁ info _) ?_
  rintro - τ₂ ⟨w, hw, h₂, hτ₂⟩
  rw [h.stack]
  refine wp_seq (stackFree_rel (a := { a.move r .limbo with want := w }) (p := σ.current) h₂
    ⟨sound.own, sound.held⟩ hidle) ?_
  rintro stat τ₃ hstat
  rw [wp_bind]
  refine check_spec (fun hbad => ?_) fun hgood => ?_
  · rcases hstat with ⟨rfl, hnone⟩ | ⟨rfl, -⟩
    · exact noStack hnone
    · exact absurd rfl hbad
  obtain ⟨-, h₃, hframe₃, hqueues₃⟩ := hstat.resolve_left (by rintro ⟨rfl, -⟩; cases hgood)
  have hloose : Loose (a.move r .limbo).place σ.current := by
    intro X key
    simp [hne.symm, runs.place]
  refine wp_seq (pcbFree_rel h₃ hloose) ?_
  rintro stat τ₄ ⟨rfl, h₄, hframe₄, hgrown₄⟩
  rw [wp_bind]
  refine check_spec (absurd rfl) fun _ => ?_
  refine wp_mono (schedule_rel (p := r) h₄ ?_ prioMaximum) ?_ fun _ he => he
  · intro X key
    simp [hne]
  rintro _ τ₅ ⟨h₅, hframe₅, hgrown₅⟩
  refine ⟨⟨.deliver σ.current q r w, rfl, ⟨runs, parent, awaits, hplace, ?_⟩, ?_, ?_, ?_⟩, ?_⟩
  · simpa [h.pid] using hw
  · convert h₅ using 1
    have hzero : readyIndex prioMaximum = 0 := rfl
    ext1
    · funext x
      by_cases hx : x = r <;> simp [Move.apply, hx, hzero, Life.release, Life.modify]
    all_goals rfl
  · intro x
    by_cases hx : x = r
    · simp [Move.apply, hx]
    · by_cases hxp : x = σ.current
      · simp [Move.apply, hxp, hne.symm]
      · simpa [Move.apply, hx, hxp] using fun hcpu => hxp ((runs x).mp hcpu)
  · have hfuel₁ := hshrunk.dispatchFuel
    have hfuel₂ : τ₂.dispatchFuel = τ.dispatchFuel := dispatchFuel_congr (by rw [hτ₂])
    have hfuel₃ := dispatchFuel_congr hqueues₃
    have hfuel₄ := hgrown₄.dispatchFuel
    have hfuel₅ := hgrown₅.dispatchFuel
    simp only [QName.weight] at hfuel₁ hfuel₄ hfuel₅
    omega
  · rw [hframe₅.heap, hframe₄.heap, hframe₃.heap, hτ₂]
    change Function.update τ.heap _ _ = _
    rw [hframe₁.heap]

/-- Becoming a zombie. -/
theorem zombifyKeep_spec (h : Rel σ a) (runs : a.Runs σ.current) {q : PcbId}
    (parent : a.find (a.proc σ.current).ppid = some q) (awaits : ¬ a.Awaits q σ.current)
    {E : Halt → Prop} :
    wp zombifyKeep (fun _ τ => Ended σ a τ) E σ := by
  have h₁ : Rel { σ with
      pcbs := Function.update σ.pcbs σ.current { σ.pcbs σ.current with state := .zombie } }
      (a.setState σ.current .zombie) := h.setState (by decide)
  rw [zombifyKeep, wp_bind, wp_get, h.pid, setState, modifyPcb, wp_bind, wp_modify]
  refine wp_seq (qInsert_rel h₁ runs.loose) ?_
  rintro stat τ ⟨rfl, h₂, hframe, hgrown⟩
  refine check_spec (absurd rfl) fun _ => ?_
  refine ⟨.zombie σ.current, rfl, ⟨runs, q, parent, awaits⟩, h₂, fun x => ?_,
    hgrown.dispatchFuel⟩
  by_cases hx : x = σ.current
  · simp [Move.apply, hx]
  · simpa [Move.apply, hx] using fun hcpu => hx ((runs x).mp hcpu)

/-- **`_zombify` ends the current process.**  It stops only for want of a parent or of a
stack. -/
theorem zombify_ends (h : Rel σ a) (sound : a.Sound) (runs : a.Runs p) (current : σ.current = p)
    {E : Halt → Prop} (noStack : (a.proc p).stack = none → E noStackPanic)
    (noParent : a.find (a.proc p).ppid = none → E (.kpanic "_zombify" "no process parent" 0)) :
    wp (zombify p) (fun _ τ => Ended σ a τ) E σ := by
  subst current
  rw [zombify, wp_bind, wp_get, h.find, h.ppid]
  split
  · rename_i hnone
    exact wp_throw.mpr (noParent hnone)
  · rename_i q hsome
    rw [wp_ite, h.awaited]
    exact ⟨fun hawaits => wp_mono (zombifyDeliver_spec h sound runs hsome hawaits _ noStack)
        (fun _ _ hended => hended.1) fun _ he => he,
      fun hawaits => zombifyKeep_spec h runs hsome hawaits⟩

/-- In the terms of every handler. -/
theorem zombify_spec (h : Rel σ a) (sound : a.Sound) (runs : a.Runs p) (current : σ.current = p) :
    wp (zombify p) (fun _ τ => Ended σ a τ) (Foreseen (a.find (a.proc p).ppid = none)) σ :=
  zombify_ends h sound runs current (fun _ => foreseen_noStack)
    fun hnone => ⟨⟨by decide, fun _ => hnone⟩, by simp [Halt.Misses]⟩

/-- The dispatcher ends processes that were killed. -/
theorem Move.Ends.settling {m : Move} {b : Life} (ends : m.Ends p)
    (killed : (b.proc p).state = .killed) : Settling b m := by
  cases m with
  | zombie q => exact (show q = p from ends) ▸ killed
  | deliver q _ _ _ => exact (show q = p from ends) ▸ killed
  | _ => exact ends.elim

/-- The kernel is back in a state described by a life that `ok` moves lead to, with
a resting process on the CPU. -/
def Returns (ok : Life → Move → Prop) (a : Life) (τ : State) : Prop :=
  ∃ b, Rel τ b ∧ b.Resting τ.current ∧ Moves ok a b

/-- Some moves, and then those of the rest. -/
theorem Returns.after {ok : Life → Move → Prop} {a b : Life} {τ : State}
    (run : Moves ok a b) (h : Returns ok b τ) : Returns ok a τ := by
  obtain ⟨c, hrel, hrest, hrun⟩ := h
  exact ⟨c, hrel, hrest, run.trans hrun⟩

/-- A wider permission. -/
theorem Returns.mono {ok ok' : Life → Move → Prop} {τ : State}
    (h : ∀ b m, ok b m → ok' b m) (returns : Returns ok a τ) : Returns ok' a τ := by
  obtain ⟨c, hrel, hrest, hrun⟩ := returns
  exact ⟨c, hrel, hrest, hrun.mono h⟩

/-- **The dispatch loop.**  Induction on the fuel, of which there is always more
than there are entries left to pass. -/
theorem dispatchLoop_spec (n : Nat) (h : Rel σ a) (sound : a.Sound) (idle : a.Idle)
    (fuel : σ.dispatchFuel < n) :
    wp (dispatchLoop n) (fun _ τ => Returns Settling a τ)
      (Foreseen (Orphaned Settling a)) σ := by
  induction n generalizing σ a with
  | zero => omega
  | succ n ih =>
    rw [dispatchLoop, wp_bind, wp_get]
    split
    · exact wp_throw.mpr (foreseen_panic (by decide) (by decide) (by simp [Halt.Misses]))
    rename_i i _
    refine wp_seq (qRemove_rel h) ?_
    rintro res τ (⟨rfl, -, -⟩ | ⟨p, key, rfl, hplace, h₁, -, -, hshrunk⟩)
    · exact wp_throw.mpr (foreseen_status (by decide) (by decide) (by simp [Halt.Misses]))
    have hloose : Loose (a.move p .limbo).place p := by
      intro X k
      simp
    have hfuel : τ.dispatchFuel + 1 = σ.dispatchFuel := hshrunk.dispatchFuel
    have hqueued : ∃ i key, a.place p = .queued (.ready i) key := ⟨i, key, hplace⟩
    dsimp only
    rw [setCurrent, wp_bind, wp_modify, h.state]
    split
    · -- the process that gets the CPU
      rename_i hstate
      have h₂ : Rel _ (((a.move p .limbo).setState p .running).move p .cpu) :=
        ((h₁.setCurrent p).setState (by decide)).move_loose hloose (by simp)
      rw [setState, modifyPcb, wp_modify]
      have htake : (Move.take p).apply a = ((a.move p .limbo).setState p .running).move p .cpu := by
        simp [Move.apply, Life.move, Life.setState, Life.modify]
      refine ⟨(Move.take p).apply a, htake ▸ h₂, ⟨fun q => ?_, Or.inl ?_⟩,
        .single ⟨idle, hqueued, hstate⟩ trivial⟩
      · by_cases hq : q = p
        · simp [Move.apply, hq]
        · simpa [Move.apply, hq] using idle q
      · simp [Move.apply]
    · -- a killed process ends, and the loop goes round
      rename_i hstate
      have htake : (Move.takeKilled p).apply a = (a.move p .limbo).move p .cpu := by
        simp [Move.apply, Life.move]
      have h₂ : Rel { τ with current := p } ((Move.takeKilled p).apply a) :=
        htake ▸ (h₁.setCurrent p).move_loose hloose (by simp)
      have enabled : (Move.takeKilled p).Enabled a := ⟨idle, hqueued, hstate⟩
      have hsound := Move.sound sound enabled
      have hrun : Moves Settling a ((Move.takeKilled p).apply a) := .single enabled trivial
      have hruns : ((Move.takeKilled p).apply a).Runs p := by
        intro q
        by_cases hq : q = p
        · simp [Move.apply, hq]
        · simpa [Move.apply, hq] using idle q
      refine wp_seq (wp_mono (zombify_spec h₂ hsound hruns rfl) (fun _ _ hx => hx)
        fun e he => he.mono fun hnone => ⟨_, p, hrun, hruns, hnone⟩) ?_
      rintro _ υ ⟨m, ends, henabled, hrel, hidle, hfuel'⟩
      have hkilled : (((Move.takeKilled p).apply a).proc p).state = .killed := hstate
      have hrun' := hrun.snoc henabled (ends.settling hkilled)
      have hfuel'' : υ.dispatchFuel = τ.dispatchFuel := hfuel'.trans (dispatchFuel_congr rfl)
      refine wp_mono (ih hrel (Move.sound hsound henabled) hidle (by omega))
        (fun _ _ hx => hx.after hrun') fun e he => he.mono (Orphaned.after hrun')
    · refine wp_throw.mpr (foreseen_panic ?_ (by decide) (by simp [Halt.Misses]))
      have : Status.noQnodes.code.toNat = 8 := rfl
      omega

/-- **The dispatcher** picks a process that is not killed and cleans up those that are. -/
theorem dispatch_spec (h : Rel σ a) (sound : a.Sound) (idle : a.Idle) :
    wp dispatch (fun _ τ => Returns Settling a τ) (Foreseen (Orphaned Settling a)) σ := by
  rw [dispatch, wp_bind, wp_get]
  exact dispatchLoop_spec _ h sound idle (by omega)

end Cumulonimbus
