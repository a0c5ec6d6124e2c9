import Cumulonimbus.Sleep

/-!
# The sleep queue in order, and the clock

The sleepers stand in the order of their wake-up times, and those with the same time in the
order of their calls.  So the wake-up loop of `_isr_clock`, which takes off one sleeper after
another, peels off a prefix of the queue: those whose time has come (`clock_wakes_due`).
-/

namespace Cumulonimbus

open Exec

variable {σ σ₀ τ : State} {a : Life} {b : Boot} {i : Input} {tr : List (State × Input)}
  {e f : Key × PcbId} {l : List (Key × PcbId)}

/-- The sleep queue from head to tail. -/
def State.sleepers (σ : State) : List (Key × PcbId) := (σ.queues .sleep).items

/-- The sleepers are a queue of those that wait for an event. -/
theorem sleepers_watches : Watches State.sleepers .sleep :=
  fun _ _ hqueue _ _ => congrArg Queue.items hqueue

/-- They are not the readers. -/
theorem sleepers_overlook : Overlooks State.sleepers .reading :=
  sleepers_watches.queue .reading nofun

/-! ## The wake-up loop -/

/-- The sleepers that are due at a time, and those that are not. -/
def due (now : Key) (l : List (Key × PcbId)) : List (Key × PcbId) :=
  l.filter fun e => removeIfLeU e.1 now

def later (now : Key) (l : List (Key × PcbId)) : List (Key × PcbId) :=
  l.filter fun e => !removeIfLeU e.1 now

/-- Whoever is due at the front wakes up before the others. -/
theorem due_cons {now : Key} (h : removeIfLeU e.1 now = true) :
    due now (e :: l) = e :: due now l ∧ later now (e :: l) = later now l :=
  ⟨List.filter_cons_of_pos h, List.filter_cons_of_neg (by simp [h])⟩

/-- A sleeper is not due while its key is above the time. -/
theorem not_removeIfLeU {k now : Key} : removeIfLeU k now = false ↔ now < k := by
  rw [removeIfLeU, decide_eq_false_iff_not, UInt32.not_le]

/-- In a sorted queue nobody is due behind one who is not. -/
theorem due_eq_nil {now : Key} (sorted : (e :: l).Pairwise fun x y => x.1 ≤ y.1)
    (late : removeIfLeU e.1 now = false) : due now (e :: l) = [] := by
  rw [due, List.filter_eq_nil_iff]
  intro x hx
  rw [Bool.not_eq_true, not_removeIfLeU]
  rw [not_removeIfLeU] at late
  rcases List.mem_cons.mp hx with rfl | hx
  · exact late
  · exact UInt32.lt_of_lt_of_le late (List.rel_of_pairwise_cons sorted hx)

/-- If nobody is due, all stay. -/
theorem later_of_due {now : Key} (none : due now l = []) : later now l = l := by
  rw [due, List.filter_eq_nil_iff] at none
  rw [later, List.filter_eq_self]
  intro x hx
  simpa using none x hx

/-- What the loop leaves: the sleepers that are not due, and the others at the end of the
first ready queue. -/
structure Woken (now : Key) (σ τ : State) : Prop where
  sleepers : τ.sleepers = later now σ.sleepers
  ready : (τ.queues wakeQueue).items =
    (σ.queues wakeQueue).items ++ (due now σ.sleepers).map fun e => (0, e.2)
  others : ∀ X, X ≠ .sleep → X ≠ wakeQueue → τ.queues X = σ.queues X
  qnodes : τ.qnodes = σ.qnodes

/-- Filing a process in the first ready queue, where there is a node. -/
theorem schedule_woken {n : Nat} (p : PcbId) (hpool : σ.qnodes = n + 1) :
    wp (schedule p prioMaximum)
      (fun _ τ => τ.qnodes = n ∧ (∀ X, X ≠ wakeQueue → τ.queues X = σ.queues X) ∧
        (τ.queues wakeQueue).items = (σ.queues wakeQueue).items ++ [(0, p)])
      (fun _ => False) σ := by
  rw [schedule, setState, modifyPcb, wp_bind, wp_modify, qAppend, bind_assoc, wp_bind, wp_get]
  simp only [hpool, Queue.qAppend]
  refine ⟨rfl, ?_, ?_⟩
  · intro X hX
    exact Function.update_of_ne hX _ _
  · simp

/-- The first sleeper comes off if it is due. -/
theorem qRemoveByKey_first {now : Key} (hremove : (σ.queues .sleep).remove = some removeIfLeU)
    (hitems : σ.sleepers = e :: l) (hdue : removeIfLeU e.1 now = true) :
    wp (qRemoveByKey .sleep now)
      (fun r τ => r = .ok e.2 ∧ τ.qnodes = σ.qnodes + 1 ∧ τ.sleepers = l ∧
        (τ.queues .sleep).remove = some removeIfLeU ∧
        ∀ X, X ≠ .sleep → τ.queues X = σ.queues X) (fun _ => False) σ := by
  rw [State.sleepers] at hitems
  have hcall : (σ.queues .sleep).qRemoveByKey σ.qnodes now =
      .ok (e.2, σ.qnodes + 1, { σ.queues .sleep with items := l }) := by
    simp [Queue.qRemoveByKey, Queue.qEmpty, hremove, hitems, hdue]
  rw [qRemoveByKey, wp_bind, wp_get, hcall]
  refine ⟨rfl, rfl, ?_, ?_, ?_⟩
  · simp [State.sleepers]
  · simpa using hremove
  · intro X hX
    exact Function.update_of_ne hX _ _

/-- No sleeper comes off if none is due. -/
theorem qRemoveByKey_none {now : Key} (hremove : (σ.queues .sleep).remove = some removeIfLeU)
    (hnone : due now σ.sleepers = []) :
    wp (qRemoveByKey .sleep now) (fun r τ => (∃ stat, r = .error stat) ∧ τ = σ)
      (fun _ => False) σ := by
  rw [due, List.filter_eq_nil_iff, State.sleepers] at hnone
  have hcall : ∃ stat, (σ.queues .sleep).qRemoveByKey σ.qnodes now = .error stat := by
    have hfind : (σ.queues .sleep).items.find? (fun e => removeIfLeU e.1 now) = none :=
      List.find?_eq_none.mpr hnone
    rw [Queue.qRemoveByKey, hremove]
    dsimp only
    rw [hfind]
    split
    · exact ⟨_, rfl⟩
    · exact ⟨_, rfl⟩
  obtain ⟨stat, hstat⟩ := hcall
  rw [qRemoveByKey, wp_bind, wp_get, hstat]
  exact ⟨⟨stat, rfl⟩, rfl⟩

/-- **The wake-up loop.**  Induction on the queue, of which each turn but the last takes the
first entry. -/
theorem wakeLoop_woken {now : Key} {n : Nat} (hremove : (σ.queues .sleep).remove = some removeIfLeU)
    (hitems : σ.sleepers = l) (sorted : l.Pairwise fun x y => x.1 ≤ y.1) (hn : l.length < n) :
    wp (wakeLoop n now) (fun _ τ => Woken now σ τ) (fun _ => False) σ := by
  induction l generalizing σ n with
  | nil =>
    rcases n with _ | n
    · exact absurd hn (Nat.not_lt_zero _)
    have hnone : due now σ.sleepers = [] := by rw [hitems]; rfl
    refine wp_seq (qRemoveByKey_none hremove hnone) ?_
    intro r τ hpost
    obtain ⟨⟨stat, rfl⟩, rfl⟩ := hpost
    exact ⟨(later_of_due hnone).symm, by rw [hnone]; simp, fun _ _ _ => rfl, rfl⟩
  | cons e l ih =>
    rcases n with _ | n
    · exact absurd hn (Nat.not_lt_zero _)
    by_cases hdue : removeIfLeU e.1 now = true
    · refine wp_seq (qRemoveByKey_first hremove hitems hdue) ?_
      intro r τ hpost
      obtain ⟨rfl, hpool, hsleepers, hremove', hothers⟩ := hpost
      refine wp_seq (schedule_woken e.2 hpool) ?_
      intro _ υ hpost
      obtain ⟨hpool', hothers', hready⟩ := hpost
      have hsleep : υ.queues .sleep = τ.queues .sleep := hothers' _ nofun
      have hkept : υ.sleepers = l := (congrArg Queue.items hsleep).trans hsleepers
      refine wp_mono (ih (hsleep ▸ hremove') hkept (List.Pairwise.of_cons sorted)
        (Nat.lt_of_succ_lt_succ hn)) ?_ fun _ he => he
      intro _ φ hφ
      refine ⟨?_, ?_, ?_, hφ.qnodes.trans hpool'⟩
      · rw [hφ.sleepers, hkept, hitems, (due_cons hdue).2]
      · rw [hφ.ready, hkept, hready, hothers wakeQueue QName.noConfusion, hitems,
          (due_cons hdue).1, List.map_cons, List.append_assoc]
        rfl
      · intro X hX hX'
        rw [hφ.others X hX hX', hothers' X hX', hothers X hX]
    · have hnone : due now σ.sleepers = [] := by
        rw [hitems]
        exact due_eq_nil sorted (by simpa using hdue)
      refine wp_seq (qRemoveByKey_none hremove hnone) ?_
      intro r τ hpost
      obtain ⟨⟨stat, rfl⟩, rfl⟩ := hpost
      exact ⟨(later_of_due hnone).symm, by rw [hnone]; simp, fun _ _ _ => rfl, rfl⟩

/-! ## Entries that leave the order alone -/

/-- The wake-up loop only takes sleepers off. -/
theorem wakeLoop_sublist (n : Nat) (now : Key) :
    wp (wakeLoop n now) (fun _ τ => τ.sleepers.Sublist σ.sleepers) (fun _ => True) σ := by
  induction n generalizing σ with
  | zero => exact trivial
  | succ n ih =>
    have hremove : wp (qRemoveByKey .sleep now)
        (fun _ τ => τ.sleepers.Sublist σ.sleepers) (fun _ => True) σ := by
      rw [qRemoveByKey, wp_bind, wp_get]
      split
      · exact List.Sublist.refl _
      · rename_i p n q hcall
        have hq : q.items.Sublist σ.sleepers := Queue.qRemoveByKey_sublist hcall
        rw [wp_bind, wp_set, wp_pure]
        simpa [State.sleepers] using hq
    rw [wakeLoop]
    refine wp_seq hremove ?_
    intro r τ hτ
    cases r with
    | error stat => exact hτ
    | ok p =>
      refine wp_seq (schedule_keeps sleepers_watches p prioMaximum τ) ?_
      intro _ υ hυ
      refine wp_mono ih ?_ fun _ he => he
      intro _ φ hφ
      exact hφ.trans (hυ ▸ hτ)

/-- **The clock interrupt** only takes sleepers off. -/
theorem isrClock_sublist :
    wp isrClock (fun _ τ => τ.sleepers.Sublist σ.sleepers) (fun _ => True) σ := by
  have htick : wp tick (fun _ τ => τ.sleepers = σ.sleepers) (fun _ => True) σ := by
    rw [tick, wp_modify]
    dsimp only
    split <;> rfl
  rw [isrClock]
  refine wp_seq htick ?_
  intro _ τ hτ
  rw [wp_bind, wp_get]
  refine wp_seq (wakeLoop_sublist _ _) ?_
  intro _ υ hυ
  have hrest : Keeps State.sleepers (do
      schedule υ.current (υ.pcbs υ.current).prio
      dispatch) :=
    .bind (schedule_keeps sleepers_watches _ _) fun _ => dispatch_keeps sleepers_watches
  refine wp_mono (hrest υ) ?_ fun _ he => he
  intro _ φ hφ
  rw [hφ, ← hτ]
  exact hυ

/-- **Only `sleep`** files anyone with the sleepers. -/
theorem handler_sleepers (ext : External) {call : Syscall} (hsleep : call ≠ .sleep) :
    Keeps State.sleepers (handler ext call) := by
  by_cases hread : call = .readc
  · subst hread
    exact sysReadc_keeps sleepers_watches (fun _ _ => rfl) sleepers_overlook
  by_cases hwrite : call = .writec
  · subst hwrite
    exact sysWritec_keeps sleepers_watches fun _ _ => rfl
  by_cases hset : call = .settime
  · subst hset
    exact .bind .get fun _ =>
      .bind (setEax_keeps sleepers_watches _ _) fun _ => .modify fun _ => rfl
  exact handler_watched sleepers_watches ext hset hread hwrite hsleep

/-- Nobody but the caller of `sleep` joins the sleepers. -/
theorem kernelEntry_sublist (hsleep : i.call σ ≠ some .sleep) :
    wp (kernelEntry i) (fun _ τ => τ.sleepers.Sublist σ.sleepers) (fun _ => True) σ := by
  have hkeeps : ∀ {x : Kernel Unit}, Keeps State.sleepers x →
      wp x (fun _ τ => τ.sleepers.Sublist σ.sleepers) (fun _ => True) (σ.enter i.user) := by
    intro x hx
    refine wp_mono (hx _) ?_ fun _ he => he
    intro _ τ hτ
    rw [hτ]
    exact List.Sublist.refl _
  rw [kernelEntry, wp_bind, wp_modify]
  cases hint : i.interrupt with
  | syscall ext =>
    rw [isr, isrSyscall, wp_bind, wp_get]
    split
    · exact trivial
    split
    · exact trivial
    · rename_i call hcall
      refine hkeeps (handler_sleepers ext ?_)
      rintro rfl
      exact hsleep (by simpa [Input.call, hint] using hcall)
  | clock => exact isrClock_sublist
  | serial events =>
    exact hkeeps (isrSio_keeps sleepers_watches (fun _ _ => rfl) sleepers_overlook events)

/-! ## The call -/

/-- Where the caller of `sleep` is filed. -/
def fileSleeper (e : Key × PcbId) (l : List (Key × PcbId)) : List (Key × PcbId) :=
  l.orderedInsert (fun e x => ¬ compareUintAsc x e ≤ 0) e

/-- The caller is filed under its wake-up time, behind those with keys up to it. -/
theorem sleepInsert_sleepers (hcompare : (σ.queues .sleep).compare = some compareUintAsc) :
    wp sleepInsert
      (fun stat τ => stat = .success →
        τ.sleepers = fileSleeper (σ.systemTime + σ.arg σ.current 1, σ.current) σ.sleepers)
      (fun _ => True) σ := by
  rw [sleepInsert, wp_bind, wp_get]
  dsimp only
  rw [modifyPcb, wp_bind, wp_modify, qInsert, wp_bind, wp_get]
  rcases hpool : σ.qnodes with _ | n
  · simp [Queue.qInsert]
  · simp only [Queue.qInsert, hcompare]
    intro _
    simp [State.sleepers, fileSleeper]

/-- So is the caller of `sleep`. -/
theorem sysSleep_sleepers (hrel : Rel σ a) (runs : a.Runs σ.current) :
    wp sysSleep
      (fun _ τ => τ.sleepers =
        fileSleeper (σ.systemTime + σ.arg σ.current 1, σ.current) σ.sleepers)
      (fun _ => True) σ := by
  rw [sysSleep, wp_bind, wp_get]
  refine wp_seq (wp_mono (wp_and (sleepInsert_spec (E := fun _ => True) hrel runs)
    (sleepInsert_sleepers (hrel.placed.compare .sleep))) (fun _ _ h => h) fun _ h => h.1) ?_
  intro stat τ hpost
  obtain ⟨⟨rfl, -⟩, hfiled⟩ := hpost
  rw [if_neg (not_not.mpr rfl)]
  refine wp_mono (dispatch_keeps sleepers_watches τ) ?_ fun _ he => he
  intro _ υ hυ
  rw [hυ, hfiled rfl]

/-- So it is over the whole entry. -/
theorem kernelEntry_sleep (hrel : Rel σ a) (rest : a.Resting σ.current)
    (call : i.call σ = some .sleep) :
    wp (kernelEntry i)
      (fun _ τ => τ.sleepers = fileSleeper (σ.systemTime + i.ticks σ, σ.current) σ.sleepers)
      (fun _ => True) σ :=
  kernelEntry_call call (fun _ _ => trivial) fun _ =>
    sysSleep_sleepers (enter_rel (i := i) hrel) rest.1

/-! ## Which call filed a sleeper -/

/-- Entry `n` of the run filed this sleeper: it is the last `sleep` that the process called, and
the key is the sum of the time and the ticks. -/
def FiledBy (tr : List (State × Input)) (e : Key × PcbId) (n : Nat) : Prop :=
  ∃ σ i, tr[n]? = some (σ, i) ∧ i.call σ = some .sleep ∧ σ.current = e.2 ∧
    e.1 = σ.systemTime + i.ticks σ ∧
    ∀ m x, n < m → tr[m]? = some x → ¬ (x.2.call x.1 = some .sleep ∧ x.1.current = e.2)

/-- `e` wakes up before `f`, or at the same time and was the first to call `sleep`. -/
def Ahead (tr : List (State × Input)) (e f : Key × PcbId) : Prop :=
  e.1 < f.1 ∨ (e.1 = f.1 ∧ ∃ m n, m < n ∧ FiledBy tr e m ∧ FiledBy tr f n)

/-- The sleepers have called `sleep`, and stand in this order. -/
structure State.InOrder (σ : State) (tr : List (State × Input)) : Prop where
  filed : ∀ e ∈ σ.sleepers, ∃ n, FiledBy tr e n
  ahead : σ.sleepers.Pairwise (Ahead tr)

/-- An entry was filed by a step of the run. -/
theorem FiledBy.lt {n : Nat} (h : FiledBy tr e n) : n < tr.length := by
  obtain ⟨σ, i, hn, -⟩ := h
  exact (List.getElem?_eq_some_iff.mp hn).1

/-- Another entry does not change who filed a sleeper, unless it is a call of that process. -/
theorem FiledBy.snoc {n : Nat} (h : FiledBy tr e n)
    (other : ¬ (i.call σ = some .sleep ∧ σ.current = e.2)) : FiledBy (tr ++ [(σ, i)]) e n := by
  have hlt := h.lt
  obtain ⟨υ, j, hn, hcall, hcurrent, hkey, hlast⟩ := h
  refine ⟨υ, j, ?_, hcall, hcurrent, hkey, ?_⟩
  · rw [List.getElem?_append_left hlt]
    exact hn
  · intro m x hm hx
    rcases Nat.lt_or_ge m tr.length with hmem | hend
    · rw [List.getElem?_append_left hmem] at hx
      exact hlast m x hm hx
    · rw [List.getElem?_append_right hend] at hx
      obtain rfl : x = (σ, i) := by
        have := List.mem_of_getElem? hx
        simpa using this
      exact other

/-- The entry that files a sleeper. -/
theorem FiledBy.last (call : i.call σ = some .sleep) :
    FiledBy (tr ++ [(σ, i)]) (σ.systemTime + i.ticks σ, σ.current) tr.length := by
  refine ⟨σ, i, by simp, call, rfl, rfl, ?_⟩
  intro m x hm hx
  have hlen := (List.getElem?_eq_some_iff.mp hx).1
  rw [List.length_append, List.length_singleton] at hlen
  omega

/-- An entry ahead has a smaller key, or the same. -/
theorem Ahead.le (h : Ahead tr e f) : e.1 ≤ f.1 := by
  rcases h with h | h
  · exact UInt32.le_of_lt h
  · exact h.1 ▸ UInt32.le_refl _

/-- So the keys are in order. -/
theorem State.InOrder.sorted (h : σ.InOrder tr) : σ.sleepers.Pairwise fun x y => x.1 ≤ y.1 :=
  h.ahead.imp Ahead.le

/-- `compareUintAsc` puts a new sleeper behind all whose time is not later. -/
theorem compareUintAsc_pos {x y : Key × PcbId} : ¬ compareUintAsc x y ≤ 0 ↔ y.1 < x.1 := by
  unfold compareUintAsc
  split
  next h => simpa using UInt32.le_of_lt h
  next h =>
    split
    next heq => simp [heq]
    next hne =>
      have hle := UInt32.not_lt.mp h
      simpa using UInt32.lt_of_le_of_ne hle (Ne.symm hne)

/-- Filing adds one entry. -/
theorem mem_fileSleeper {x : Key × PcbId} : x ∈ fileSleeper e l ↔ x = e ∨ x ∈ l := by
  rw [fileSleeper, List.mem_orderedInsert]

/-- Filing keeps a relation that holds between the new sleeper and the others. -/
theorem pairwise_fileSleeper {R : Key × PcbId → Key × PcbId → Prop} (pairs : l.Pairwise R)
    (sorted : l.Pairwise fun x y => x.1 ≤ y.1) (before : ∀ x ∈ l, x.1 ≤ e.1 → R x e)
    (after : ∀ x ∈ l, e.1 < x.1 → R e x) : (fileSleeper e l).Pairwise R := by
  induction l with
  | nil => exact List.pairwise_singleton R e
  | cons x l ih =>
    obtain ⟨hx, hl⟩ := List.pairwise_cons.mp pairs
    obtain ⟨hxk, hlk⟩ := List.pairwise_cons.mp sorted
    rw [fileSleeper, List.orderedInsert_cons]
    split
    next hlt =>
      rw [compareUintAsc_pos] at hlt
      refine List.pairwise_cons.mpr ⟨?_, pairs⟩
      intro y hy
      refine after y hy ?_
      rcases List.mem_cons.mp hy with rfl | hmem
      · exact hlt
      · exact UInt32.lt_of_lt_of_le hlt (hxk y hmem)
    next hge =>
      rw [compareUintAsc_pos, UInt32.not_lt] at hge
      refine List.pairwise_cons.mpr
        ⟨?_, ih hl hlk (fun y hy => before y (List.mem_cons_of_mem _ hy))
        fun y hy => after y (List.mem_cons_of_mem _ hy)⟩
      intro y hy
      rcases mem_fileSleeper.mp hy with rfl | hmem
      · exact before x List.mem_cons_self hge
      · exact hx y hmem

/-! ## One entry, and a run -/

/-- An entry keeps the sleepers in order. -/
theorem State.InOrder.step (h : σ.InOrder tr) (hrel : Rel σ a) (rest : a.Resting σ.current)
    (next : kernelEntry i σ = .ok ((), τ)) : τ.InOrder (tr ++ [(σ, i)]) := by
  by_cases call : i.call σ = some .sleep
  · have hsleepers := wp_ok (x := kernelEntry i) (kernelEntry_sleep hrel rest call) next
    -- the caller is on the CPU, and so on no queue
    have hother : ∀ e ∈ σ.sleepers, ¬ (i.call σ = some .sleep ∧ σ.current = e.2) := by
      intro e he hcaller
      have hplace := (hrel.placed.mem .sleep e.1 e.2).mp he
      rw [← hcaller.2, rest.1.place] at hplace
      cases hplace
    have hnew : FiledBy (tr ++ [(σ, i)]) (σ.systemTime + i.ticks σ, σ.current) tr.length :=
      FiledBy.last call
    constructor
    · intro e he
      rw [hsleepers, mem_fileSleeper] at he
      rcases he with rfl | he
      · exact ⟨_, hnew⟩
      · obtain ⟨n, hn⟩ := h.filed e he
        exact ⟨n, hn.snoc (hother e he)⟩
    · rw [hsleepers]
      refine pairwise_fileSleeper ?_ h.sorted ?_ ?_
      · refine h.ahead.imp_of_mem ?_
        intro e f he hf hahead
        rcases hahead with hlt | ⟨heq, m, n, hmn, hm, hn⟩
        · exact .inl hlt
        · exact .inr ⟨heq, m, n, hmn, hm.snoc (hother e he), hn.snoc (hother f hf)⟩
      · intro e he hle
        rcases UInt32.lt_or_eq_of_le hle with hlt | heq
        · exact .inl hlt
        · obtain ⟨n, hn⟩ := h.filed e he
          exact .inr ⟨heq, n, _, hn.lt, hn.snoc (hother e he), hnew⟩
      · intro e _ hlt
        exact .inl hlt
  · have hsub := wp_ok (x := kernelEntry i) (kernelEntry_sublist call) next
    have hother : ∀ e : Key × PcbId, ¬ (i.call σ = some .sleep ∧ σ.current = e.2) :=
      fun e hcaller => call hcaller.1
    constructor
    · intro e he
      obtain ⟨n, hn⟩ := h.filed e (hsub.subset he)
      exact ⟨n, hn.snoc (hother e)⟩
    · refine (h.ahead.sublist hsub).imp ?_
      intro e f hahead
      rcases hahead with hlt | ⟨heq, m, n, hmn, hm, hn⟩
      · exact .inl hlt
      · exact .inr ⟨heq, m, n, hmn, hm.snoc (hother e), hn.snoc (hother f)⟩

/-- When the kernel comes up nobody sleeps. -/
theorem BootState.inOrder (boot : BootState b σ) : σ.InOrder [] := by
  obtain ⟨a, hrel, hboot⟩ := boot.rel
  have hnone : σ.sleepers = [] := by
    rw [List.eq_nil_iff_forall_not_mem]
    intro e he
    have hplace := (hrel.placed.mem .sleep e.1 e.2).mp he
    by_cases hcurrent : e.2 = σ.current
    · rw [(hboot.runs e.2).mpr hcurrent] at hplace
      cases hplace
    · obtain ⟨key, hfree⟩ := (hboot.others e.2 hcurrent).1
      rw [hfree] at hplace
      cases hplace
  exact ⟨by simp [hnone], by simp [hnone]⟩

/-- **In every state of a run** the sleepers are in order of their keys, and in the order of their
calls where keys are the same. -/
theorem run_inOrder (boot : BootState b σ₀) (run : AnyRun σ₀ tr σ) : σ.InOrder tr := by
  induction run with
  | nil => exact boot.inOrder
  | snoc run _ next ih =>
    obtain ⟨a, hrel, -, hrest, -⟩ := KernelRun.invariant (I := fun _ => True) boot
      (fun _ _ => trivial) (fun _ _ _ _ _ _ _ _ _ => trivial) run
    exact ih.step hrel hrest next

/-- **A clock tick wakes exactly the due sleepers.**  Whatever user code ran, the loop ends
within as many turns as there are sleepers and one more.  It leaves those whose time has not
come, in their order, and appends the others to the first ready queue: by time, and where the
times are the same, in the order of their calls. -/
theorem clock_wakes_due (boot : BootState b σ₀) (run : AnyRun σ₀ tr σ) (u : UserMem) :
    ∃ τ υ, tick (σ.enter u) = .ok ((), τ) ∧ τ.systemTime = σ.systemTime + 1 ∧
      wakeLoop ((τ.queues .sleep).items.length + 1) τ.systemTime τ = .ok ((), υ) ∧
      Woken τ.systemTime σ υ ∧ (due τ.systemTime σ.sleepers).Pairwise (Ahead tr) := by
  obtain ⟨a, hrel, -⟩ := KernelRun.invariant (I := fun _ => True) boot
    (fun _ _ => trivial) (fun _ _ _ _ _ _ _ _ _ => trivial) run
  have horder := run_inOrder boot run
  have htick : wp tick (fun _ τ => τ.queues = σ.queues ∧ τ.qnodes = σ.qnodes ∧
      τ.systemTime = σ.systemTime + 1) (fun _ => False) (σ.enter u) := by
    rw [tick, wp_modify]
    dsimp only
    split <;> exact ⟨rfl, rfl, rfl⟩
  obtain ⟨_, τ, hτ, hqueues, hqnodes, htime⟩ := wp_returns htick
  have hsleepers : τ.sleepers = σ.sleepers := by rw [State.sleepers, hqueues]; rfl
  have hremove : (τ.queues .sleep).remove = some removeIfLeU := by
    rw [hqueues]
    exact hrel.placed.remove .sleep
  have hlength : σ.sleepers.length < τ.sleepers.length + 1 := by
    rw [hsleepers]
    exact Nat.lt_succ_self _
  have hwake : wp (wakeLoop (τ.sleepers.length + 1) τ.systemTime)
      (fun _ υ => Woken τ.systemTime τ υ) (fun _ => False) τ :=
    wakeLoop_woken hremove hsleepers horder.sorted hlength
  obtain ⟨_, υ, hυ, hwoken⟩ := wp_returns hwake
  refine ⟨τ, υ, hτ, htime, hυ, ?_, horder.ahead.sublist List.filter_sublist⟩
  refine ⟨?_, ?_, ?_, hwoken.qnodes.trans hqnodes⟩
  · rw [hwoken.sleepers, hsleepers]
  · rw [hwoken.ready, hsleepers, hqueues]
  · intro X hX hX'
    rw [hwoken.others X hX hX', hqueues]

/-- Init forks four times and sleeps for five ticks, its children for three, five and a hundred;
then the last child moves the clock on to 20. -/
def sleepersRun : List Input :=
  [callInput 1 (fun _ => 0) blankHeap, callInput 1 (fun _ => 0) blankHeap,
    callInput 1 (fun _ => 0) blankHeap, callInput 1 (fun _ => 0) blankHeap,
    callInput 5 (fun _ => 5) blankHeap, callInput 5 (fun _ => 3) blankHeap,
    callInput 5 (fun _ => 5) blankHeap, callInput 5 (fun _ => 100) blankHeap,
    callInput 15 (fun _ => 20) blankHeap]

/-- Three sleepers are due at once, two of them at the same time, and one is not. -/
theorem clock_wakes_due_sleeper : ∃ σ₀ tr σ, BootState blankBoot σ₀ ∧ AnyRun σ₀ tr σ ∧
    due (σ.systemTime + 1) σ.sleepers = [(3, 1), (5, 0), (5, 2)] ∧
    later (σ.systemTime + 1) σ.sleepers = [(100, 3)] ∧
    ∃ τ υ, tick (σ.enter ⟨fun _ _ => 0, blankHeap, 0⟩) = .ok ((), τ) ∧
      Woken τ.systemTime σ υ ∧ (due τ.systemTime σ.sleepers).Pairwise (Ahead tr) := by
  have hrun : bootTest (fun _ _ => True) blankBoot sleepersRun fun σ =>
      decide (due (σ.systemTime + 1) σ.sleepers = [(3, 1), (5, 0), (5, 2)]) &&
        decide (later (σ.systemTime + 1) σ.sleepers = [(100, 3)]) := by
    decide +kernel
  obtain ⟨σ₀, tr, σ, hboot, hany, -, htest⟩ := bootTest_run hrun
  rw [Bool.and_eq_true, decide_eq_true_eq, decide_eq_true_eq] at htest
  obtain ⟨τ, υ, hτ, -, -, hwoken, hahead⟩ := clock_wakes_due hboot hany ⟨fun _ _ => 0, blankHeap, 0⟩
  exact ⟨σ₀, tr, σ, hboot, hany, htest.1, htest.2, τ, υ, hτ, hwoken, hahead⟩

end Cumulonimbus
