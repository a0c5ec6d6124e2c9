import Cumulonimbus.ReadyTurns
import Cumulonimbus.Zombify

/-!
# Starvation

A process of the first priority that makes no system calls goes back to the first ready queue with
every clock interrupt, and the dispatcher looks there first.  So no process of another ready queue
moves forward, let alone runs, until somebody kills that one (`starves`).
-/

namespace Cumulonimbus

open Exec

variable {σ₀ σ ρ τ : State} {x p q : PcbId} {i j : Fin nPriorities} {n : Nat} {prio : UInt8}
  {a : Life}

/-! ## The dispatcher, when the first queue is not empty -/

/-- The ready queues but the first. -/
def State.lesser (σ : State) : {j // j ≠ readyIndex prioMaximum} → Queue PcbId :=
  fun j => σ.queues (.ready j)

/-- The lesser ready queues are not the others. -/
theorem State.lesser_overlooks {X : QName} (hX : ∀ j, j ≠ readyIndex prioMaximum → X ≠ .ready j) :
    Overlooks State.lesser X := by
  intro σ n q
  funext j
  exact Function.update_of_ne (hX j j.2).symm _ _

/-- A process of the first priority does not join them. -/
theorem schedule_lesser (p : PcbId) : Keeps State.lesser (schedule p prioMaximum) :=
  schedule_others p prioMaximum

/-- Stacks are no processes. -/
theorem stackFree_lesser (s : Option StackId) : Keeps State.lesser (stackFree s) := by
  cases s with
  | none => exact .pure _
  | some s =>
    refine .bind (.modify fun _ => rfl) fun _ => fun σ => ?_
    rw [wp_bind, wp_get]
    split <;> rfl

/-- Who ends joins none of them. -/
theorem zombify_lesser (p : PcbId) : Keeps State.lesser (zombify p) := by
  refine .bind .get fun σ => ?_
  cases σ.pcbFind (σ.pcbs p).ppid with
  | none => exact .throw _
  | some parent =>
    refine .ite (.bind .get fun σ =>
      .bind (qRemoveByKey_keeps (State.lesser_overlooks (by simp)) _) fun r => ?_)
      (.bind .get fun σ => .bind (.modify fun _ => rfl) fun _ =>
        .bind (qInsert_keeps (State.lesser_overlooks (by simp)) _ _) fun _ => check_keeps _ _ _)
    cases r with
    | error stat => exact .throw _
    | ok r =>
      exact .bind (.modify fun _ => rfl) fun _ => .bind (stackFree_lesser _) fun _ =>
        .bind (check_keeps _ _ _) fun _ =>
        .bind (.bind (.modify fun _ => rfl) fun _ =>
          qAppend_keeps (State.lesser_overlooks (by simp)) _ _) fun _ =>
        .bind (check_keeps _ _ _) fun _ => schedule_lesser _

/-- **The dispatcher leaves the other queues alone** if a ready process is in the first. -/
theorem dispatchLoop_lesser (fuel : Nat) (h : Awaiting 0 n q [] prio σ) :
    wp (dispatchLoop fuel) (fun _ τ => τ.lesser = σ.lesser) (fun _ => True) σ := by
  induction fuel generalizing σ n with
  | zero => exact wp_throw.mpr trivial
  | succ fuel ih =>
    have hne := h.stands.ne_nil
    have hfirst : σ.firstReady = some 0 :=
      State.firstReady_of_empty hne fun j hj => absurd hj (Fin.not_lt_zero j)
    obtain ⟨⟨k, p⟩, rest, head⟩ := List.exists_cons_of_ne_nil hne
    rw [dispatchLoop, wp_bind, wp_get, hfirst]
    dsimp only
    refine wp_seq (qRemove_first head) ?_
    intro res τ hpost
    obtain ⟨rfl, l, rfl⟩ := hpost
    dsimp only
    rw [setCurrent, wp_bind, wp_modify]
    have hpulled : (σ.pulled 0 l rest p).lesser = σ.lesser := by
      funext j
      exact Function.update_of_ne (fun heq => j.2 (QName.ready.inj heq)) _ _
    split
    · rw [setState, modifyPcb, wp_modify]
      exact hpulled
    case h_2 hkilled =>
      have hp : p ≠ q := by
        rintro rfl
        rw [h.ready] at hkilled
        cases hkilled
      obtain ⟨m, -, hawaits, -⟩ := h.pull (l := l) head hp
      have hends := wp_and (zombify_waits (Ne.symm hp) hp _ hawaits.waits)
        (zombify_lesser p (σ.pulled 0 l rest p))
      refine wp_seq (wp_mono hends (fun _ _ hυ => hυ) fun _ _ => trivial) ?_
      intro _ υ hυ
      refine wp_mono (ih (hawaits.after hυ.1)) ?_ fun _ he => he
      intro _ τ hτ
      exact (hτ.trans hυ.2).trans hpulled
    · exact wp_throw.mpr trivial

/-! ## The process that keeps the processor busy -/

/-- `q` has the first priority, and runs or stands in the first ready queue. -/
structure Busy (q : PcbId) (σ : State) : Prop where
  first : readyIndex (σ.pcbs q).prio = 0
  place : σ.current = q ∨ ∃ n, Awaiting 0 n q [] (σ.pcbs q).prio σ

/-- The entry is not a system call of `q`. -/
def Unasked (q : PcbId) (σ : State) (inp : Input) : Prop :=
  σ.current = q → ∀ ext, inp.interrupt ≠ .syscall ext

/-- A process joins its ready queue. -/
theorem schedule_joins (p : PcbId) (prio : UInt8) :
    wp (schedule p prio) (fun _ τ => (τ.pcbs p).state = .ready ∧
      p ∈ (τ.queues (.ready (readyIndex prio))).members) (fun _ => True) σ := by
  rw [schedule, setState, modifyPcb, wp_bind, wp_modify]
  refine wp_seq (qAppend_stores (.ready (readyIndex prio)) p 0) ?_
  intro stat τ hτ
  refine check_passes fun hsuccess => ?_
  obtain ⟨⟨n, q, rfl⟩, hitems⟩ := hτ hsuccess
  refine ⟨?_, ?_⟩
  · show (Function.update σ.pcbs p _ p).state = .ready
    rw [Function.update_self]
  · rw [Queue.members, hitems, List.map_append]
    exact List.mem_append_right _ List.mem_cons_self

/-- The process that the clock interrupts joins its ready queue. -/
theorem clockBefore_joins (h : Waits σ₀ σ₀.current σ) :
    wp clockBefore (fun _ τ => (τ.pcbs σ₀.current).state = .ready ∧ σ₀.current ∈
      (τ.queues (.ready (readyIndex (σ₀.pcbs σ₀.current).prio))).members) (fun _ => True) σ := by
  refine Preserves.seq tick_waits h fun _ τ hτ => ?_
  rw [wp_bind, wp_get]
  refine Preserves.seq (wakeLoop_waits _ _) hτ fun _ υ hυ => ?_
  rw [wp_bind, wp_get, hυ.current, hυ.prio]
  exact wp_seq (schedule_joins _ _) fun _ _ hφ => hφ

/-- Who is in a queue has a place there. -/
theorem State.Stands.of_mem (h : q ∈ (σ.queues (.ready i)).members) :
    ∃ n, σ.Stands i n q [] := by
  obtain ⟨pre, post, heq⟩ := List.append_of_mem h
  exact ⟨pre.length, pre, post, heq, rfl⟩

/-- **A dispatch with someone in the first queue** takes from there and leaves the lesser queues. -/
theorem dispatch_busy (h : Awaiting 0 n q [] prio σ) (first : readyIndex prio = 0) :
    wp dispatch (fun _ τ => Busy q τ ∧ τ.lesser = σ.lesser) (fun _ => True) σ := by
  have hboth := wp_and (dispatchLoop_turn (σ.dispatchFuel + 1) h)
    (dispatchLoop_lesser (σ.dispatchFuel + 1) h)
  refine wp_mono hboth ?_ fun _ _ => trivial
  intro _ τ hτ
  refine ⟨?_, hτ.2⟩
  rcases hτ.1 with ⟨hcurrent, hprio⟩ | ⟨m, -, hawaits, -⟩
  · exact ⟨by rw [hprio]; exact first, Or.inl hcurrent⟩
  · have hprio := hawaits.prio
    exact ⟨by rw [hprio]; exact first, Or.inr ⟨m, by rw [hprio]; exact hawaits⟩⟩

/-- The other ready queues keep who is in them. -/
def Stay (σ τ : State) : Prop :=
  ∀ j, j ≠ readyIndex prioMaximum →
    (σ.queues (.ready j)).members <+: (τ.queues (.ready j)).members

/-- A ready process that waits stays. -/
theorem Waits.stay (h : Waits σ q ρ) (hlesser : τ.lesser = ρ.lesser) : Stay σ τ := by
  intro j hj
  have hsame : τ.queues (.ready j) = ρ.queues (.ready j) := congrFun hlesser ⟨j, hj⟩
  rw [hsame]
  exact h.lines j

/-- **One entry.**  The process stays busy, unless it is killed, and the other ready queues only
grow. -/
theorem entry_busy (h : Rel σ a) (sound : a.Sound) (rest : a.Resting σ.current) (busy : Busy q σ)
    {inp : Input} (unasked : Unasked q σ inp) :
    wp (kernelEntry inp) (fun _ τ => (τ.pcbs q).state = .killed ∨ Busy q τ ∧ Stay σ τ)
      (fun _ => True) σ := by
  rw [kernelEntry, wp_bind, wp_modify, isr_dispatches, thenDispatch]
  by_cases hcurrent : σ.current = q
  · subst hcurrent
    have hwaits := h.waits_enter sound rest (Or.inl rfl) inp.user
    cases hint : inp.interrupt with
    | syscall ext => exact absurd hint (unasked rfl ext)
    | serial events =>
      rw [beforeDispatch, bind_assoc]
      refine Preserves.seq (isrSio_waits events) hwaits fun _ τ hτ => ?_
      refine Or.inr ⟨⟨?_, Or.inl hτ.current⟩, hτ.stay rfl⟩
      rw [hτ.prio]
      exact busy.first
    | clock =>
      have hclock := wp_and (clockBefore_waits _ hwaits)
        (wp_and (clockBefore_joins hwaits) clockBefore_calls)
      refine wp_seq (wp_mono hclock (fun _ _ hρ => hρ) fun _ _ => trivial) ?_
      intro called ρ hρ
      obtain ⟨hkeep, ⟨hready, hmem⟩, rfl⟩ := hρ
      rw [busy.first] at hmem
      obtain ⟨n, hstands⟩ := State.Stands.of_mem hmem
      have hawaits : Awaiting 0 n σ.current [] (σ.pcbs σ.current).prio ρ :=
        ⟨hready, hkeep.prio, hkeep.allocated, hkeep.alive, hstands⟩
      exact wp_mono (dispatch_busy hawaits busy.first)
        (fun _ _ hτ => Or.inr ⟨hτ.1, hkeep.stay hτ.2⟩) fun _ he => he
  · obtain ⟨n, hawaits⟩ := busy.place.resolve_left hcurrent
    have hwaits := h.waits_enter sound rest (Or.inr hawaits.ready) inp.user
    refine wp_seq (beforeDispatch_waits (Ne.symm hcurrent) hwaits inp.interrupt) ?_
    intro called ρ hρ
    rcases hρ with hρ | ⟨rfl, hkilled⟩
    · have hstill := hawaits.after hρ
      cases called with
      | true =>
        exact wp_mono (dispatch_busy hstill busy.first)
          (fun _ _ hτ => Or.inr ⟨hτ.1, hρ.stay hτ.2⟩) fun _ he => he
      | false =>
        have hprio := hstill.prio
        refine Or.inr ⟨⟨?_, Or.inr ⟨n, ?_⟩⟩, hρ.stay rfl⟩
        · rw [hprio]
          exact busy.first
        · rw [hprio]
          exact hstill
    · exact Or.inl hkilled

/-! ## Runs -/

variable {b : Boot} {tr₀ tr : List (State × Input)}

/-- Someone of the first priority runs or is ready. -/
theorem Rel.busy (h : Rel σ a) (sound : a.Sound) (rest : a.Resting σ.current)
    (first : readyIndex (σ.pcbs q).prio = 0)
    (place : σ.current = q ∨ (σ.pcbs q).state = .ready ∧ q ∈ (σ.queues (.ready 0)).members) :
    Busy q σ := by
  refine ⟨first, place.imp_right fun hplace => ?_⟩
  obtain ⟨n, hstands⟩ := State.Stands.of_mem hplace.2
  have hwaits := h.waits_enter sound rest (Or.inr hplace.1) ⟨σ.stackMem, σ.heap, 0⟩
  exact ⟨n, hplace.1, rfl, hwaits.allocated, hwaits.alive, hstands⟩

/-- The states of a run with one more step. -/
theorem visited_concat {tr : List (State × Input)} {e : Input} :
    visited (tr ++ [(σ, e)]) τ = visited tr σ ++ [τ] := by
  rw [visited, visited, List.map_append]
  rfl

/-- **Starvation.**  While a process of the first priority runs or is ready for the processor, no
process of another ready queue runs, unless that one makes a system call or is killed. -/
theorem starves (boot : BootState b σ₀) (run₀ : AnyRun σ₀ tr₀ σ)
    (first : readyIndex (σ.pcbs q).prio = 0)
    (place : σ.current = q ∨ (σ.pcbs q).state = .ready ∧ q ∈ (σ.queues (.ready 0)).members)
    (hi : i ≠ 0) (hx : x ∈ (σ.queues (.ready i)).members) (run : KernelRun (Unasked q) σ tr τ)
    (alive : ∀ ρ ∈ visited tr τ, (ρ.pcbs q).state ≠ .killed) :
    Busy q τ ∧ x ∈ (τ.queues (.ready i)).members ∧ ∀ ρ ∈ visited tr τ, ρ.current ≠ x := by
  induction run with
  | nil =>
    obtain ⟨a, hrel, hsound, hrest, -⟩ := run_owned boot run₀
    refine ⟨hrel.busy hsound hrest first place, hx, fun ρ hρ => ?_⟩
    obtain rfl := List.mem_singleton.mp hρ
    exact hrel.queued_ne hrest hx
  | @snoc tr υ φ e run ok next ih =>
    rw [visited_concat] at alive ⊢
    obtain ⟨hbusy, hin, hnever⟩ := ih fun ρ hρ => alive ρ (List.mem_append_left _ hρ)
    have hany : AnyRun σ tr υ := run.mono fun _ _ _ => trivial
    obtain ⟨a, hrel, hsound, hrest, -⟩ := run_owned boot (run₀.append hany)
    obtain ⟨c, hrel', -, hrest', -⟩ := run_owned boot (run₀.append (hany.snoc trivial next))
    rcases wp_ok (entry_busy hrel hsound hrest hbusy ok) next with hkilled | ⟨hbusy', hstay⟩
    · exact absurd hkilled (alive φ (List.mem_append_right _ List.mem_cons_self))
    · have hin' := (hstay i hi).subset hin
      refine ⟨hbusy', hin', fun ρ hρ => ?_⟩
      rcases List.mem_append.mp hρ with hρ | hρ
      · exact hnever ρ hρ
      · obtain rfl := List.mem_singleton.mp hρ
        exact hrel'.queued_ne hrest' hin'

/-- A child of init has lowered its priority, and waits while init computes on. -/
theorem starves_child : ∃ σ₀ tr₀ σ tr τ, BootState blankBoot σ₀ ∧ AnyRun σ₀ tr₀ σ ∧
    KernelRun (Unasked 0) σ tr τ ∧ (σ.pcbs 1).state = .ready ∧ tr ≠ [] ∧
    ∀ ρ ∈ visited tr τ, ρ.current ≠ 1 := by
  have hrun : bootTest (fun _ _ => True) blankBoot
      [callInput 1 (fun _ => 0) blankHeap, clockInput (fun _ => 0) blankHeap,
        callInput 14 (fun _ => 1) blankHeap, clockInput (fun _ => 0) blankHeap] fun σ =>
      decide (σ.current = 0 ∧ (σ.pcbs 0).prio = 0 ∧ (σ.pcbs 0).state ≠ .killed ∧
        (σ.pcbs 1).state = .ready ∧ 1 ∈ (σ.queues (.ready 1)).members) &&
      (play kernelEntry (fun _ _ => True) [clockInput (fun _ => 0) blankHeap] σ).any fun r =>
        decide ((r.2.pcbs 0).state ≠ .killed) := by
    decide +kernel
  obtain ⟨σ₀, tr₀, σ, hboot, hany, -, htest⟩ := bootTest_run hrun
  obtain ⟨hstate, hplay⟩ := Bool.and_eq_true_iff.mp htest
  obtain ⟨hcurrent, hprio, halive, hready, hmem⟩ := of_decide_eq_true hstate
  have hfirst : readyIndex (σ.pcbs 0).prio = 0 := by
    rw [hprio]
    rfl
  obtain ⟨⟨tr, τ⟩, hτ, halive'⟩ := (Option.any_eq_true _ _).mp hplay
  obtain ⟨htick, htr⟩ := play_runs hτ
  obtain ⟨e, rfl, he⟩ := List.map_eq_singleton_iff.mp htr
  obtain ⟨heq, -⟩ := htick.uncons
  have hstep : KernelRun (Unasked 0) σ [e] τ := by
    refine htick.restrict (Unasked 0) fun x hx _ ext h => ?_
    rw [List.mem_singleton.mp hx, he] at h
    cases h
  have hvisited : ∀ ρ ∈ visited [e] τ, (ρ.pcbs 0).state ≠ .killed := by
    intro ρ hρ
    rcases List.mem_cons.mp hρ with rfl | hρ
    · rw [heq]
      exact halive
    · obtain rfl := List.mem_singleton.mp hρ
      exact of_decide_eq_true halive'
  exact ⟨σ₀, tr₀, σ, _, τ, hboot, hany, hstep, hready, List.cons_ne_nil _ _,
    (starves hboot hany hfirst (Or.inl hcurrent) (by decide) hmem hstep hvisited).2.2⟩

end Cumulonimbus
