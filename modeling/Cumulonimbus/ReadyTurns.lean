import Cumulonimbus.DispatchOrder
import Cumulonimbus.ReadyLines
import Cumulonimbus.SleepOrder

/-!
# Taking turns

The dispatcher takes the first process of the first nonempty ready queue.  So a ready process waits
for those that stand before it and for those that come to the queues before its own, and for no
others.  A clock interrupt that finds nothing to do in the queues before brings it one place
forward (`ready_waits`); who stands behind it stays behind (`first_come_first_served`).
-/

namespace Cumulonimbus

open Exec

variable {σ₀ σ ρ τ : State} {x p r : PcbId} {i j : Fin nPriorities} {m n : Nat}
  {behind : List PcbId} {a : Life}

/-- In the queue with index `i`, `n` processes stand before `x` and the others behind it. -/
def State.Stands (σ : State) (i : Fin nPriorities) (n : Nat) (x : PcbId) (behind : List PcbId) :
    Prop :=
  ∃ pre post, (σ.queues (.ready i)).members = pre ++ x :: (behind ++ post) ∧ pre.length = n

/-- `x` is ready, and waits in the queue with index `i` behind `n` others. -/
structure Awaiting (i : Fin nPriorities) (n : Nat) (x : PcbId) (behind : List PcbId) (prio : UInt8)
    (σ : State) : Prop where
  ready : (σ.pcbs x).state = .ready
  prio : (σ.pcbs x).prio = prio
  allocated : x ∉ (σ.queues .pcbAvail).members
  alive : x ∉ (σ.queues .zombie).members
  stands : σ.Stands i n x behind

/-- A ready queue that grows at its end leaves the place as it is. -/
theorem State.Stands.grow (h : σ.Stands i n x behind)
    (line : (σ.queues (.ready i)).members <+: (τ.queues (.ready i)).members) :
    τ.Stands i n x behind := by
  obtain ⟨pre, post, heq, hn⟩ := h
  obtain ⟨new, hnew⟩ := line
  refine ⟨pre, post ++ new, ?_, hn⟩
  rw [← hnew, heq]
  simp

/-- Who has a place in the queue is in it. -/
theorem State.Stands.mem (h : σ.Stands i n x behind) : x ∈ (σ.queues (.ready i)).members := by
  obtain ⟨pre, post, heq, -⟩ := h
  rw [heq]
  simp

/-- So the queue is not empty. -/
theorem State.Stands.ne_nil (h : σ.Stands i n x behind) : (σ.queues (.ready i)).items ≠ [] := by
  intro hnil
  have hmem := h.mem
  rw [Queue.members, hnil] at hmem
  cases hmem

/-- Until the dispatcher is called a ready process keeps its place. -/
theorem Waits.awaiting (h : Waits σ₀ x σ) (ready : (σ₀.pcbs x).state = .ready)
    (stands : σ₀.Stands i n x behind) : Awaiting i n x behind (σ₀.pcbs x).prio σ :=
  ⟨h.ready ready, h.prio, h.allocated, h.alive, stands.grow (h.lines i)⟩

/-! ## The dispatcher -/

/-- Another process is taken off a queue: `x` stands as before, or has moved forward. -/
theorem Awaiting.pull {prio : UInt8} {rest : List (Key × PcbId)} {k : Key} {l : Nat}
    (h : Awaiting i n x behind prio σ) (head : (σ.queues (.ready j)).items = (k, p) :: rest)
    (hp : p ≠ x) :
    ∃ m ≤ n, Awaiting i m x behind prio (σ.pulled j l rest p) ∧ (j = i → m < n) := by
  have hawaits : ∀ m, (σ.pulled j l rest p).Stands i m x behind →
      Awaiting i m x behind prio (σ.pulled j l rest p) := fun m hm =>
    ⟨h.ready, h.prio, by simpa [State.pulled] using h.allocated,
      by simpa [State.pulled] using h.alive, hm⟩
  have hmembers : ((σ.pulled j l rest p).queues (.ready i)).members =
      if i = j then rest.map Prod.snd else (σ.queues (.ready i)).members := by
    rw [Queue.members, State.pulled_ready]
    split <;> rfl
  obtain ⟨pre, post, heq, hn⟩ := h.stands
  by_cases hj : i = j
  · subst hj
    rw [if_pos rfl] at hmembers
    rw [Queue.members, head, List.map_cons] at heq
    cases pre with
    | nil => exact absurd (List.cons.inj heq).1 hp
    | cons z pre =>
      have hlt : pre.length < n := by
        rw [← hn]
        exact Nat.lt_succ_self _
      exact ⟨pre.length, hlt.le, hawaits _ ⟨pre, post, hmembers.trans (List.cons.inj heq).2, rfl⟩,
        fun _ => hlt⟩
  · rw [if_neg hj] at hmembers
    exact ⟨n, le_rfl, hawaits _ ⟨pre, post, hmembers.trans heq, hn⟩,
      fun heq => absurd heq.symm hj⟩

/-- From where it stands now. -/
theorem Awaiting.waits {prio : UInt8} (h : Awaiting i n x behind prio σ) : Waits σ x σ :=
  ⟨rfl, fun _ => List.prefix_rfl, id, rfl, h.allocated, h.alive⟩

/-- And after what leaves it waiting. -/
theorem Awaiting.after {prio : UInt8} (h : Awaiting i n x behind prio σ) (waits : Waits σ x τ) :
    Awaiting i n x behind prio τ :=
  ⟨waits.ready h.ready, waits.prio.trans h.prio, waits.allocated, waits.alive,
    h.stands.grow (waits.lines i)⟩

/-- **The dispatcher** takes `x`, or leaves it ready and no further behind; and further forward if
its queue is the first that is not empty. -/
theorem dispatchLoop_turn (fuel : Nat) {prio : UInt8} (h : Awaiting i n x behind prio σ) :
    wp (dispatchLoop fuel)
      (fun _ τ => τ.current = x ∧ (τ.pcbs x).prio = prio ∨
        ∃ m ≤ n, Awaiting i m x behind prio τ ∧ (σ.firstReady = some i → m < n))
      (fun _ => True) σ := by
  induction fuel generalizing σ n with
  | zero => exact wp_throw.mpr trivial
  | succ fuel ih =>
    rw [dispatchLoop, wp_bind, wp_get]
    split
    · exact wp_throw.mpr trivial
    case h_2 j hj =>
      obtain ⟨⟨k, p⟩, rest, head⟩ := List.exists_cons_of_ne_nil (State.firstReady_some hj).1
      refine wp_seq (qRemove_first head) ?_
      intro res τ hpost
      obtain ⟨rfl, l, rfl⟩ := hpost
      dsimp only
      rw [setCurrent, wp_bind, wp_modify]
      by_cases hp : p = x
      · subst hp
        rw [h.ready]
        refine Or.inl ⟨rfl, ?_⟩
        show (Function.update σ.pcbs p _ p).prio = prio
        rw [Function.update_self]
        exact h.prio
      · obtain ⟨m, hm, hpulled, hlt⟩ := h.pull (l := l) head hp
        have hfirst : σ.firstReady = some i → m < n := fun heq =>
          hlt (Option.some.inj (hj.symm.trans heq))
        have hwaits := hpulled.waits
        split
        · -- the one that is taken
          rw [setState, modifyPcb, wp_modify]
          exact Or.inr ⟨m, hm, hpulled.after (hwaits.setPcb fun heq => absurd heq hp), hfirst⟩
        · -- a killed one, and round again
          refine Preserves.seq (zombify_waits (Ne.symm hp) hp) hwaits fun _ υ hυ => ?_
          refine wp_mono (ih (hpulled.after hυ)) ?_ fun _ he => he
          intro _ τ hτ
          rcases hτ with hcurrent | ⟨m', hm', hawaits, -⟩
          · exact Or.inl hcurrent
          · exact Or.inr ⟨m', hm'.trans hm, hawaits, fun heq => hm'.trans_lt (hfirst heq)⟩
        · exact wp_throw.mpr trivial

/-! ## One entry into the kernel -/

/-- A clock interrupt finds nothing to do in the ready queues before the one with index `i`: they
are empty, the running process does not go there, and nobody is woken. -/
def State.unhindered (σ : State) (i : Fin nPriorities) : Bool :=
  ((List.finRange nPriorities).all fun j => decide (i ≤ j) || (σ.queues (.ready j)).qEmpty) &&
    decide (i ≤ readyIndex (σ.pcbs σ.current).prio) &&
    (decide (i = readyIndex prioMaximum) || (due (σ.systemTime + 1) σ.sleepers).isEmpty)

def Interrupt.isClock : Interrupt → Bool
  | .clock => true
  | _ => false

/-- The entry is a clock interrupt with nothing to do before the queue with index `i`. -/
def turn (i : Fin nPriorities) (e : State × Input) : Bool :=
  e.2.interrupt.isClock && e.1.unhindered i

/-- Nobody in front, no better process to come back, and no sleeper to wake up in front. -/
theorem State.unhindered_iff : σ.unhindered i ↔
    (∀ j < i, (σ.queues (.ready j)).items = []) ∧ i ≤ readyIndex (σ.pcbs σ.current).prio ∧
      (i = 0 ∨ due (σ.systemTime + 1) σ.sleepers = []) := by
  have hempty : (∀ j, i ≤ j ∨ (σ.queues (.ready j)).items = []) ↔
      ∀ j < i, (σ.queues (.ready j)).items = [] := by
    refine forall_congr' fun j => ?_
    rw [← not_lt]
    exact imp_iff_not_or.symm
  simp only [State.unhindered, Bool.and_eq_true, List.all_eq_true, List.mem_finRange,
    Bool.or_eq_true, decide_eq_true_eq, Queue.qEmpty, List.isEmpty_iff, forall_const, hempty,
    and_assoc]
  exact Iff.rfl

/-- A process goes to one ready queue. -/
theorem schedule_others (p : PcbId) (prio : UInt8) :
    Keeps (fun σ (j : {j // j ≠ readyIndex prio}) => σ.queues (.ready j)) (schedule p prio) := by
  refine .bind (.modify fun _ => rfl) fun _ => .bind (qAppend_keeps (fun σ n q => ?_) p 0)
    fun _ => check_keeps _ _ _
  funext j
  exact Function.update_of_ne (fun heq => j.2 (QName.ready.inj heq)) _ _

/-- Where the clock calls the dispatcher, the queues before are still empty. -/
theorem clockBefore_unhindered (hremove : (σ.queues .sleep).remove = some removeIfLeU)
    (h : σ.unhindered i) :
    wp clockBefore (fun _ ρ => ∀ j < i, (ρ.queues (.ready j)).items = []) (fun _ => True) σ := by
  obtain ⟨hempty, hindex, hsleep⟩ := State.unhindered_iff.mp h
  rcases hsleep with rfl | hsleep
  · exact wp_mono (wp_true _ _) (fun _ _ _ j hj => absurd hj (Fin.not_lt_zero j)) fun _ he => he
  have htick : wp tick (fun _ τ => τ.queues = σ.queues ∧ τ.pcbs = σ.pcbs ∧
      τ.current = σ.current ∧ τ.systemTime = σ.systemTime + 1) (fun _ => True) σ := by
    rw [tick, wp_modify]
    dsimp only
    split <;> exact ⟨rfl, rfl, rfl, rfl⟩
  refine wp_seq htick ?_
  intro _ τ hτ
  obtain ⟨hqueues, hpcbs, hcurrent, htime⟩ := hτ
  rw [wp_bind, wp_get, wakeLoop, htime]
  have hnone : due (σ.systemTime + 1) τ.sleepers = [] := by
    rw [State.sleepers, hqueues]
    exact hsleep
  have hcall := qRemoveByKey_none (by rw [hqueues]; exact hremove) hnone
  rw [wp_bind]
  refine wp_seq (wp_mono hcall (fun _ _ hx => hx) fun _ _ => trivial) ?_
  intro r υ hυ
  obtain ⟨⟨stat, rfl⟩, rfl⟩ := hυ
  dsimp only
  rw [wp_pure, wp_bind, wp_get, hcurrent, hpcbs]
  refine wp_seq (schedule_others _ _ υ) ?_
  intro _ ρ hρ j hj
  have hsame : ρ.queues (.ready j) = υ.queues (.ready j) :=
    congrFun hρ ⟨j, (hj.trans_le hindex).ne⟩
  rw [hsame, hqueues]
  exact hempty j hj

/-- A clock interrupt always dispatches. -/
theorem clockBefore_calls : wp clockBefore (fun called _ => called = true) (fun _ => True) σ := by
  refine wp_seq (wp_true _ _) fun _ τ _ => ?_
  rw [wp_bind, wp_get]
  refine wp_seq (wp_true _ _) fun _ ρ _ => ?_
  rw [wp_bind, wp_get]
  exact wp_seq (wp_true _ _) fun _ _ _ => rfl

/-- Entering the kernel saves the context of the current process. -/
theorem State.enter_current (σ : State) (u : UserMem) :
    (σ.enter u).pcbs σ.current = { σ.pcbs σ.current with context := some u.context } :=
  Function.update_self ..

/-- So it hinders nobody. -/
theorem State.unhindered_enter (u : UserMem) : (σ.enter u).unhindered i = σ.unhindered i := by
  have hprio : ((σ.enter u).pcbs (σ.enter u).current).prio = (σ.pcbs σ.current).prio := by
    have hpcb := congrArg Pcb.prio (σ.enter_current u)
    exact hpcb
  rw [State.unhindered, hprio]
  rfl

/-- With all better queues empty the dispatcher takes from this one. -/
theorem State.firstReady_of_empty (hne : (σ.queues (.ready i)).items ≠ [])
    (h : ∀ j < i, (σ.queues (.ready j)).items = []) : σ.firstReady = some i := by
  rw [State.firstReady, ← Fin.find?_eq_find?_finRange, Fin.find?_eq_some_iff]
  refine ⟨by simpa [Queue.qEmpty] using hne, fun j hj => ?_⟩
  simpa [Queue.qEmpty] using h j hj

/-- Who is in a ready queue does not run. -/
theorem Rel.queued_ne (h : Rel σ a) (rest : a.Resting σ.current)
    (hx : x ∈ (σ.queues (.ready i)).members) : σ.current ≠ x := by
  rintro rfl
  obtain ⟨key, hplace⟩ := (h.placed.mem_members _ _).mp hx
  rw [rest.1.place] at hplace
  cases hplace

/-- A ready process is not the running one. -/
theorem Rel.ready_ne (h : Rel σ a) (rest : a.Resting σ.current)
    (ready : (σ.pcbs x).state = .ready) : x ≠ σ.current := by
  rintro rfl
  rw [h.state] at ready
  rcases rest.2 with hs | hs <;> rw [hs] at ready <;> cases ready

/-- A process that is ready or runs, when the kernel is entered. -/
theorem Rel.waits_enter (h : Rel σ a) (sound : a.Sound) (rest : a.Resting σ.current)
    (hx : x = σ.current ∨ (σ.pcbs x).state = .ready) (u : UserMem) : Waits σ x (σ.enter u) := by
  have hqueue : ∀ X, X = .pcbAvail ∨ X = .zombie → x ∉ (σ.queues X).members := by
    intro X hX hmem
    obtain ⟨key, hplace⟩ := (h.placed.mem_members X x).mp hmem
    rcases hx with rfl | ready
    · rw [rest.1.place] at hplace
      cases hplace
    · have hfits := sound.fits x
      rw [hplace, ← h.state, ready] at hfits
      rcases hX with rfl | rfl <;> simp [Place.Fits] at hfits
  have hpcb : ((σ.enter u).pcbs x).state = (σ.pcbs x).state ∧
      ((σ.enter u).pcbs x).prio = (σ.pcbs x).prio := by
    by_cases hcurrent : x = σ.current
    · subst hcurrent
      rw [State.enter_current]
      exact ⟨rfl, rfl⟩
    · have hsame : (σ.enter u).pcbs x = σ.pcbs x := Function.update_of_ne hcurrent _ _
      rw [hsame]
      exact ⟨rfl, rfl⟩
  exact ⟨rfl, fun _ => List.prefix_rfl, hpcb.1.trans, hpcb.2, hqueue _ (Or.inl rfl),
    hqueue _ (Or.inr rfl)⟩

/-- **One entry.**  A ready process runs, or is killed, or stands no further behind, and further
forward if the entry is a turn of its queue. -/
theorem entry_turn (h : Rel σ a) (sound : a.Sound) (rest : a.Resting σ.current)
    (ready : (σ.pcbs x).state = .ready) (stands : σ.Stands i n x behind) (inp : Input) :
    wp (kernelEntry inp)
      (fun _ τ => τ.current = x ∧ (τ.pcbs x).prio = (σ.pcbs x).prio ∨
        (τ.pcbs x).state = .killed ∨
        ∃ m ≤ n, Awaiting i m x behind (σ.pcbs x).prio τ ∧ (turn i (σ, inp) → m < n))
      (fun _ => True) σ := by
  rw [kernelEntry, wp_bind, wp_modify, isr_dispatches, thenDispatch]
  have hwaits := h.waits_enter sound rest (Or.inr ready) inp.user
  have hother := h.ready_ne rest ready
  have hbefore : wp (beforeDispatch inp.interrupt)
      (fun called ρ => WaitsOrKilled σ x called ρ ∧ (turn i (σ, inp) → called = true ∧
        ∀ j < i, (ρ.queues (.ready j)).items = [])) (fun _ => True) (σ.enter inp.user) := by
    have hkeep := beforeDispatch_waits hother hwaits inp.interrupt
    by_cases hturn : turn i (σ, inp) = true
    · obtain ⟨hclock, hfree⟩ := Bool.and_eq_true_iff.mp hturn
      cases hint : inp.interrupt with
      | clock =>
        rw [hint] at hkeep
        have hfree : (σ.enter inp.user).unhindered i := by rwa [State.unhindered_enter]
        have hremove : ((σ.enter inp.user).queues .sleep).remove = some removeIfLeU :=
          h.placed.remove .sleep
        have hcall := wp_and clockBefore_calls (clockBefore_unhindered hremove hfree)
        exact wp_mono (wp_and hkeep hcall) (fun _ _ hρ => ⟨hρ.1, fun _ => hρ.2⟩) fun _ _ => trivial
      | syscall ext =>
        rw [hint] at hclock
        cases hclock
      | serial events =>
        rw [hint] at hclock
        cases hclock
    · exact wp_mono hkeep (fun _ _ hρ => ⟨hρ, fun h => absurd h hturn⟩) fun _ he => he
  refine wp_seq hbefore ?_
  intro called ρ hρ
  obtain ⟨hρ, hturn⟩ := hρ
  rcases hρ with hρ | ⟨rfl, hkilled⟩
  · have hawaits := hρ.awaiting ready stands
    cases called with
    | false =>
      exact Or.inr (Or.inr ⟨n, le_rfl, hawaits, fun h => absurd (hturn h).1 Bool.false_ne_true⟩)
    | true =>
      refine wp_mono (dispatchLoop_turn _ hawaits) ?_ fun _ he => he
      intro _ τ hτ
      rcases hτ with hcurrent | ⟨m, hm, hτ, hlt⟩
      · exact Or.inl hcurrent
      · have hfirst : turn i (σ, inp) → ρ.firstReady = some i := fun h =>
          State.firstReady_of_empty hawaits.stands.ne_nil (hturn h).2
        exact Or.inr (Or.inr ⟨m, hm, hτ, fun h => hlt (hfirst h)⟩)
  · exact Or.inr (Or.inl hkilled)

/-! ## Runs -/

/-- The states of a run, at each return to user mode, are its first ones and the last. -/
def visited (tr : List (State × Input)) (τ : State) : List State := tr.map Prod.fst ++ [τ]

/-- A process has run, or has been killed, in one of the states of a run. -/
def HasRun (x : PcbId) (states : List State) : Prop :=
  ∃ ρ ∈ states, ρ.current = x ∨ (ρ.pcbs x).state = .killed

/-- Who has run has run. -/
theorem HasRun.concat {tr : List (State × Input)} {e : Input} (h : HasRun x (visited tr σ)) :
    HasRun x (visited (tr ++ [(σ, e)]) τ) := by
  obtain ⟨ρ, hρ, hran⟩ := h
  refine ⟨ρ, ?_, hran⟩
  rw [visited, List.map_append]
  exact List.mem_append_left _ hρ

/-- Who runs now, or has been killed by now. -/
theorem hasRun_last {tr : List (State × Input)}
    (h : τ.current = x ∨ (τ.pcbs x).state = .killed) : HasRun x (visited tr τ) :=
  ⟨τ, List.mem_append_right _ List.mem_cons_self, h⟩

variable {b : Boot} {tr₀ tr : List (State × Input)}

/-- **A ready process waits for those before it.**  Each turn of its queue brings it a place
forward, so it runs, or has been killed, before there have been more turns than places; and those
behind it stay behind. -/
theorem ready_waits (boot : BootState b σ₀) (run₀ : AnyRun σ₀ tr₀ σ)
    (ready : (σ.pcbs x).state = .ready) (stands : σ.Stands i n x behind) (run : AnyRun σ tr τ) :
    HasRun x (visited tr τ) ∨ (τ.pcbs x).state = .ready ∧ (τ.pcbs x).prio = (σ.pcbs x).prio ∧
      ∃ m, τ.Stands i m x behind ∧ m + tr.countP (turn i) ≤ n := by
  induction run with
  | nil => exact Or.inr ⟨ready, rfl, n, stands, le_rfl⟩
  | @snoc tr υ φ e run _ next ih =>
    rcases ih with hran | ⟨hready, hprio, m, hstands, hm⟩
    · exact Or.inl hran.concat
    obtain ⟨a, hrel, hsound, hrest, -⟩ := run_owned boot (run₀.append run)
    rcases wp_ok (entry_turn hrel hsound hrest hready hstands e) next with hcur | hkilled | hnext
    · exact Or.inl (hasRun_last (Or.inl hcur.1))
    · exact Or.inl (hasRun_last (Or.inr hkilled))
    · obtain ⟨k, hk, hawaits, hturn⟩ := hnext
      refine Or.inr ⟨hawaits.ready, hawaits.prio.trans hprio, k, hawaits.stands, ?_⟩
      rw [List.countP_append, List.countP_singleton]
      by_cases h : turn i (υ, e) = true
      · have := hturn h
        rw [if_pos h]
        omega
      · rw [if_neg h]
        omega

/-- In the first queue every clock interrupt is a turn. -/
theorem turn_first (e : State × Input) : turn 0 e = e.2.interrupt.isClock := by
  have hfree : e.1.unhindered 0 :=
    State.unhindered_iff.mpr ⟨fun j hj => absurd hj (Fin.not_lt_zero j), Fin.zero_le _, Or.inl rfl⟩
  rw [turn, hfree, Bool.and_true]

/-- For the first ready queue every clock interrupt is a turn. -/
theorem countP_turn_first (tr : List (State × Input)) :
    tr.countP (turn 0) = (tr.map Prod.snd).countP fun inp => inp.interrupt.isClock := by
  rw [List.countP_map]
  exact List.countP_congr fun e _ => by rw [turn_first]; rfl

/-- Init has forked the children `p` and `q`, and the clock interrupts twice. -/
def twoChildren (p q : PcbId) (test : State → Bool) : Bool :=
  bootTest (fun _ _ => True) blankBoot
    [callInput 1 (fun _ => 0) blankHeap, callInput 1 (fun _ => 0) blankHeap] fun σ =>
      decide ((σ.queues (.ready (readyIndex prioMaximum))).members = [p, q] ∧
        (σ.pcbs p).state = .ready ∧ (σ.pcbs q).state = .ready) &&
      (play kernelEntry (fun _ _ => True)
        [clockInput (fun _ => 0) blankHeap, clockInput (fun _ => 0) blankHeap] σ).any
        fun r => test r.2

/-- The run of the examples: two children wait in the first ready queue. -/
theorem twoChildren_run {q : PcbId} {test : State → Bool} (h : twoChildren p q test) :
    ∃ σ₀ tr₀ σ tr τ, BootState blankBoot σ₀ ∧ AnyRun σ₀ tr₀ σ ∧
      (σ.queues (.ready 0)).members = [p, q] ∧ (σ.pcbs p).state = .ready ∧
      (σ.pcbs q).state = .ready ∧ AnyRun σ tr τ ∧ tr.map Prod.snd =
        [clockInput (fun _ => 0) blankHeap, clockInput (fun _ => 0) blankHeap] ∧ test τ := by
  obtain ⟨σ₀, tr₀, σ, hboot, hany, -, htest⟩ := bootTest_run h
  obtain ⟨hstate, hplay⟩ := Bool.and_eq_true_iff.mp htest
  obtain ⟨hmembers, hready⟩ := of_decide_eq_true hstate
  obtain ⟨⟨tr, τ⟩, hτ, htest⟩ := (Option.any_eq_true _ _).mp hplay
  obtain ⟨hrun, htr⟩ := play_runs hτ
  exact ⟨σ₀, tr₀, σ, tr, τ, hboot, hany, hmembers, hready.1, hready.2, hrun, htr, htest⟩

/-- The second child, behind one other, has run after two ticks. -/
theorem ready_waits_second : ∃ σ₀ tr₀ σ tr τ, BootState blankBoot σ₀ ∧ AnyRun σ₀ tr₀ σ ∧
    AnyRun σ tr τ ∧ HasRun 2 (visited tr τ) := by
  have hrun : twoChildren 1 2 fun _ => true := by decide +kernel
  obtain ⟨σ₀, tr₀, σ, tr, τ, hboot, hany, hmembers, -, hready, hτ, htr, -⟩ := twoChildren_run hrun
  refine ⟨σ₀, tr₀, σ, tr, τ, hboot, hany, hτ, ?_⟩
  have hstands : σ.Stands 0 1 2 [] := ⟨[1], [], hmembers, rfl⟩
  refine (ready_waits hboot hany hready hstands hτ).resolve_right ?_
  intro h
  obtain ⟨-, -, m, -, hm⟩ := h
  rw [countP_turn_first, htr] at hm
  exact absurd (Nat.le_of_add_left_le hm) (by decide)

/-- **First come, first served.**  Before a process runs, those that stood before it in its ready
queue have run or have been killed. -/
theorem first_come_first_served (boot : BootState b σ₀) (run₀ : AnyRun σ₀ tr₀ σ)
    (ready : (σ.pcbs x).state = .ready) (stands : σ.Stands i n x behind) (run : AnyRun σ tr τ)
    (hr : r ∈ behind) (hcurrent : τ.current = r) : HasRun x (visited tr τ) := by
  refine (ready_waits boot run₀ ready stands run).resolve_right ?_
  intro h
  obtain ⟨-, -, m, ⟨pre, post, heq, -⟩, -⟩ := h
  obtain ⟨a, hrel, -, hrest, -⟩ := run_owned boot (run₀.append run)
  have hmem : r ∈ (τ.queues (.ready i)).members := by
    rw [heq]
    simp [hr]
  exact hrel.queued_ne hrest hmem hcurrent

/-- When the second child runs, the first one has. -/
theorem first_come_first_served_child : ∃ σ₀ tr₀ σ tr τ, BootState blankBoot σ₀ ∧
    AnyRun σ₀ tr₀ σ ∧ AnyRun σ tr τ ∧ τ.current = 2 ∧ HasRun 1 (visited tr τ) := by
  have hrun : twoChildren 1 2 fun τ => decide (τ.current = 2) := by decide +kernel
  obtain ⟨σ₀, tr₀, σ, tr, τ, hboot, hany, hmembers, hready, -, hτ, -, htest⟩ :=
    twoChildren_run hrun
  have hcurrent : τ.current = 2 := of_decide_eq_true htest
  have hstands : σ.Stands 0 0 1 [2] := ⟨[], [], hmembers, rfl⟩
  exact ⟨σ₀, tr₀, σ, tr, τ, hboot, hany, hτ, hcurrent,
    first_come_first_served hboot hany hready hstands hτ List.mem_cons_self hcurrent⟩

end Cumulonimbus
