import Cumulonimbus.RemovalsByPid
import Cumulonimbus.Observers

/-!
# How long a sleep lasts

`sleep` files its caller under the time at which to wake up, and a clock interrupt wakes
every process whose key is at most the time.  Both are 32-bit numbers compared unsigned: a
key that wraps around is in the past at once.  The sleep is exact as long as neither the key
nor the clock wraps around, and also when the call falls on the last tick before the clock
does (`sleepsExactly_iff`).
-/

namespace Cumulonimbus

open Exec

variable {σ σ₀ σ₁ τ : State} {a c : Life} {p : PcbId} {i : Input} {b : Boot}
  {tr tr' : List (State × Input)}

/-! ## The system time

Only the clock interrupt and `settime` store it. -/

section Time

/-- The system time is what a blind observer sees. -/
theorem time_blind : Blind State.systemTime := fun _ _ _ _ htime => htime

/-- It is no queue. -/
theorem time_overlooks (X : QName) : Overlooks State.systemTime X := fun _ _ _ => rfl

/-- No system call but `settime` stores the system time. -/
theorem call_keeps_time (ext : External) {call : Syscall} (hcall : call ≠ .settime) :
    Keeps State.systemTime (handler ext call) := by
  by_cases hread : call = .readc
  · subst hread
    exact sysReadc_keeps time_blind.watches (fun _ _ => rfl) (time_overlooks _)
  by_cases hwrite : call = .writec
  · subst hwrite
    exact sysWritec_keeps time_blind.watches fun _ _ => rfl
  exact handler_keeps time_blind ext hcall hread hwrite

/-- **Only `settime`** stores the time. -/
theorem isrSyscall_keeps (ext : External) (h : σ.invoked ≠ some .settime) :
    wp (isrSyscall ext) (fun _ τ => τ.systemTime = σ.systemTime) (fun _ => True) σ := by
  rw [isrSyscall, wp_bind, wp_get]
  split
  · exact trivial
  split
  · exact trivial
  · rename_i call hcall
    exact call_keeps_time ext (fun hset => h (hset ▸ hcall)) σ

/-- **The clock interrupt** counts. -/
theorem isrClock_keeps :
    wp isrClock (fun _ τ => τ.systemTime = σ.systemTime + 1) (fun _ => True) σ := by
  have htick : wp tick (fun _ τ => τ.systemTime = σ.systemTime + 1) (fun _ => True) σ := by
    rw [tick, wp_modify]
    dsimp only
    split <;> rfl
  rw [isrClock]
  refine wp_seq htick ?_
  intro _ τ hτ
  exact wp_mono (clockRest_keeps time_blind τ) (fun _ _ hu => hu.trans hτ) fun _ he => he

end Time

def Input.isClock (i : Input) : Bool :=
  match i.interrupt with
  | .clock => true
  | _ => false

/-- The clock interrupts of a run. -/
def clocks (tr : List (State × Input)) : Nat := tr.countP fun x => x.2.isClock

/-- The clock interrupts of a run with one more step. -/
theorem clocks_snoc (tr : List (State × Input)) (σ : State) (i : Input) :
    clocks (tr ++ [(σ, i)]) = clocks tr + if i.isClock then 1 else 0 := by
  rw [clocks, clocks, List.countP_append, List.countP_singleton]

/-- One entry moves the system time by one if it is a clock interrupt, and leaves it alone
if it is anything else but `settime`. -/
theorem kernelEntry_time (unset : i.call σ ≠ some .settime)
    (step : kernelEntry i σ = .ok ((), τ)) :
    τ.systemTime = σ.systemTime + if i.isClock then 1 else 0 := by
  have hwp : wp (kernelEntry i)
      (fun _ τ => τ.systemTime = σ.systemTime + if i.isClock then 1 else 0) (fun _ => True) σ := by
    have henter : (σ.enter i.user).systemTime = σ.systemTime := rfl
    rw [kernelEntry, wp_bind, wp_modify]
    cases hint : i.interrupt with
    | syscall ext =>
      have hcall : (σ.enter i.user).invoked ≠ some .settime := by
        simpa [Input.call, hint] using unset
      simpa [Input.isClock, hint, isr, henter] using isrSyscall_keeps ext hcall
    | clock =>
      simpa [Input.isClock, hint, isr, henter] using isrClock_keeps (σ := σ.enter i.user)
    | serial events =>
      have hserial := isrSio_keeps time_blind.watches (fun _ _ => rfl) (time_overlooks _) events
        (σ.enter i.user)
      simpa [Input.isClock, hint, isr, henter] using hserial
  exact wp_ok (x := kernelEntry i) hwp step

/-- The same for a run. -/
theorem KernelRun.time (run : KernelRun (fun σ i => i.call σ ≠ some .settime) σ₁ tr τ) :
    τ.systemTime = σ₁.systemTime + UInt32.ofNat (clocks tr) := by
  induction run with
  | nil => simp [clocks]
  | @snoc tr σ υ i _ unset next ih =>
    rw [kernelEntry_time unset next, ih, clocks_snoc, UInt32.add_assoc, UInt32.ofNat_add]
    split <;> rfl

/-! ## When a key is due -/

/-- The sums that `sleep` and the clock form for a sleep of `t` ticks from time `T` on do
not wrap around, or they do so together. -/
def Fits (T t : UInt32) : Prop :=
  T.toNat + max t.toNat 1 < 2 ^ 32 ∨ (T.toNat = 2 ^ 32 - 1 ∧ 1 ≤ t.toNat)

instance (T t : UInt32) : Decidable (Fits T t) := inferInstanceAs (Decidable (_ ∨ _))

/-- Up to the last tick, the key is not due. -/
theorem Fits.not_due {T t : UInt32} (fits : Fits T t) {k : Nat} (pos : 1 ≤ k)
    (early : k < max t.toNat 1) : ¬ removeIfLeU (T + t) (T + UInt32.ofNat k) := by
  have hlt : k < t.toNat := by omega
  have ht := t.toNat_lt
  have hT := T.toNat_lt
  have hk : (UInt32.ofNat k).toNat = k :=
    UInt32.toNat_ofNat_of_lt' (Nat.lt_trans hlt t.toNat_lt)
  rw [removeIfLeU, decide_eq_true_eq, UInt32.le_iff_toNat_le, UInt32.toNat_add, UInt32.toNat_add,
    hk, Nat.not_le]
  rcases fits with hsum | ⟨hlast, -⟩
  · rw [Nat.mod_eq_of_lt (by omega), Nat.mod_eq_of_lt (by omega)]
    omega
  · have hwrap : ∀ n, 1 ≤ n → n < 2 ^ 32 → (T.toNat + n) % 2 ^ 32 = n - 1 := by omega
    rw [hwrap k pos (by omega), hwrap t.toNat (by omega) ht]
    omega

/-- At the last tick it is. -/
theorem Fits.due {T t : UInt32} (fits : Fits T t) :
    removeIfLeU (T + t) (T + UInt32.ofNat (max t.toNat 1)) := by
  have ht := t.toNat_lt
  have hn : (UInt32.ofNat (max t.toNat 1)).toNat = max t.toNat 1 :=
    UInt32.toNat_ofNat_of_lt' (Nat.max_lt.mpr ⟨t.toNat_lt, by decide⟩)
  rw [removeIfLeU, decide_eq_true_eq, UInt32.le_iff_toNat_le, UInt32.toNat_add, UInt32.toNat_add,
    hn]
  rcases fits with hsum | ⟨hlast, hpos⟩
  · rw [Nat.mod_eq_of_lt (by omega), Nat.mod_eq_of_lt (by omega)]
    omega
  · rw [Nat.max_eq_left hpos]

/-- A sleep of no ticks from the last time on is not over when the clock wraps around. -/
theorem Fits.late {T t : UInt32} (fits : ¬ Fits T t) (short : max t.toNat 1 = 1) :
    ¬ removeIfLeU (T + t) (T + 1) := by
  have hT := T.toNat_lt
  rw [Fits, short] at fits
  have hlast : T.toNat = 2 ^ 32 - 1 := by omega
  have ht : t.toNat = 0 := by omega
  rw [removeIfLeU, decide_eq_true_eq, UInt32.le_iff_toNat_le, UInt32.toNat_add, UInt32.toNat_add,
    hlast, ht]
  decide

/-- A sleep past the end of the clock is over at the first tick. -/
theorem Fits.early {T t : UInt32} (fits : ¬ Fits T t) (long : max t.toNat 1 ≠ 1) :
    removeIfLeU (T + t) (T + 1) := by
  have hT := T.toNat_lt
  have ht := t.toNat_lt
  rw [Fits] at fits
  have hwrap : 2 ^ 32 ≤ T.toNat + t.toNat := by omega
  have hroom : T.toNat + 1 < 2 ^ 32 := by omega
  rw [removeIfLeU, decide_eq_true_eq, UInt32.le_iff_toNat_le, UInt32.toNat_add, UInt32.toNat_add,
    UInt32.toNat_one, Nat.mod_eq_of_lt hroom]
  omega

/-! ## A sleeper among the moves -/

/-- Only its own wake-up takes a sleeper off the sleep queue. -/
theorem Move.keeps_asleep {m : Move} {key : Key} (enabled : m.Enabled a)
    (other : ∀ i, m ≠ .wake p i) (asleep : a.place p = .queued .sleep key) :
    (m.apply a).place p = .queued .sleep key := by
  -- the process that a move takes elsewhere was in another place
  have hne : ∀ {q : PcbId}, a.place q ≠ .queued .sleep key → p ≠ q := by
    intro q hq hpq
    exact hq (hpq ▸ asleep)
  have hruns : ∀ {q : PcbId}, a.Runs q → p ≠ q := fun hq => hne (by simp [hq.place])
  have hfree : ∀ {q : PcbId}, a.Free q → p ≠ q := by
    intro q ⟨k, hk⟩
    exact hne (by simp [hk])
  cases m with
  | ready q i => simpa [Move.apply, hruns enabled] using asleep
  | wake q i =>
    have hpq : p ≠ q := fun hpq => other i (hpq ▸ rfl)
    simpa [Move.apply, hpq] using asleep
  | sleep q k => simpa [Move.apply, hruns enabled] using asleep
  | blockRead q => simpa [Move.apply, hruns enabled] using asleep
  | blockWait q w => simpa [Move.apply, hruns enabled.1] using asleep
  | kill q => exact asleep
  | fork q d s i => simpa [Move.apply, hfree enabled.2.1] using asleep
  | recycle d => simpa [Move.apply, hfree enabled] using asleep
  | reparent q => exact asleep
  | zombie q => simpa [Move.apply, hruns enabled.1] using asleep
  | deliver q d r w =>
    obtain ⟨hq, -, -, hr, -⟩ := enabled
    simpa [Move.apply, hruns hq, hne (q := r) (by simp [hr])] using asleep
  | reap d r w => simpa [Move.apply, hne (q := r) (by simp [enabled.2.1])] using asleep
  | take q =>
    obtain ⟨-, ⟨j, k, hk⟩, -⟩ := enabled
    simpa [Move.apply, hne (q := q) (by simp [hk])] using asleep
  | takeKilled q =>
    obtain ⟨-, ⟨j, k, hk⟩, -⟩ := enabled
    simpa [Move.apply, hne (q := q) (by simp [hk])] using asleep
  | abandon q => simpa [Move.apply, hruns enabled] using asleep
  | write w => exact asleep

/-- One entry leaves a sleeper where it is, unless it is a clock interrupt at which the key
is due. -/
theorem step_asleep {key : Key} (hrel : Rel σ a) (sound : a.Sound) (rest : a.Resting σ.current)
    (asleep : a.place p = .queued .sleep key)
    (early : i.isClock → ¬ removeIfLeU key (σ.systemTime + 1))
    (step : kernelEntry i σ = .ok ((), τ)) :
    ∃ d : Life, Rel τ d ∧ d.Sound ∧ d.Resting τ.current ∧ d.place p = .queued .sleep key := by
  refine step_invariant (I := fun d => d.place p = .queued .sleep key) hrel sound rest asleep
    ?_ step
  intro d m _ hd enabled caused
  refine Move.keeps_asleep enabled ?_ hd
  intro j hm
  subst hm
  rcases caused.2 with ⟨hclock, k, hk, hdue⟩ | ⟨k, hk⟩
  · rw [hd] at hk
    cases hk
    exact early (by simp [Input.isClock, hclock]) hdue
  · rw [hd] at hk
    cases hk

/-! ## The clock interrupt that wakes a process -/

/-- The wake-up loop ends with a removal that finds nothing. -/
theorem wakeLoop_stops (n : Nat) (key : Key) :
    wp (wakeLoop n key)
      (fun _ τ => ∃ stat, (τ.queues .sleep).qRemoveByKey τ.qnodes key = .error stat)
      (fun _ => True) σ := by
  induction n generalizing σ with
  | zero => exact trivial
  | succ n ih =>
    have hremove : wp (qRemoveByKey .sleep key)
        (fun r τ => ∀ stat, r = .error stat →
          (τ.queues .sleep).qRemoveByKey τ.qnodes key = .error stat) (fun _ => True) σ := by
      rw [qRemoveByKey, wp_bind, wp_get]
      split
      · rename_i stat hstat
        intro stat' heq
        cases heq
        exact hstat
      · intro stat heq
        cases heq
    rw [wakeLoop]
    refine wp_seq hremove ?_
    intro r τ hτ
    cases r with
    | error stat => exact ⟨stat, hτ stat rfl⟩
    | ok q =>
      refine wp_seq (R := fun _ _ => True) (wp_mono (schedule_keeps time_blind q prioMaximum τ)
        (fun _ _ _ => trivial) fun _ he => he) ?_
      intro _ υ _
      exact ih

/-- Where the removal finds nothing, no sleeper is due. -/
theorem Rel.not_due {key k : Key} (hrel : Rel τ a)
    (stops : ∃ stat, (τ.queues .sleep).qRemoveByKey τ.qnodes key = .error stat)
    (asleep : a.place p = .queued .sleep k) : ¬ removeIfLeU k key := by
  intro hdue
  obtain ⟨stat, hstat⟩ := stops
  have hmem := (hrel.placed.mem .sleep k p).mpr asleep
  obtain ⟨out, hout⟩ := Queue.qRemoveByKey_eq_ok τ.qnodes (hrel.placed.remove .sleep) hmem hdue
  rw [hstat] at hout
  cases hout

/-- The queue to which the clock takes those it wakes. -/
abbrev wakeQueue : QName := .ready (readyIndex prioMaximum)

/-- A process that has been woken: it is ready at top priority, or runs already. -/
def Life.Awake (a : Life) (p : PcbId) : Prop :=
  (a.place p = .queued wakeQueue 0 ∧ (a.proc p).state = .ready) ∨
    (a.place p = .cpu ∧ (a.proc p).state = .running)

/-- The dispatcher leaves such a process where it is, or picks it. -/
theorem Settling.awake {m : Move} (enabled : m.Enabled a) (settling : Settling a m)
    (h : a.Awake p) : (m.apply a).Awake p := by
  have hstate : ∀ {q : PcbId}, (a.proc q).state = .killed → p ≠ q := by
    intro q hq hpq
    subst hpq
    rcases h with ⟨-, hp⟩ | ⟨-, hp⟩
    · rw [hq] at hp
      cases hp
    · rw [hq] at hp
      cases hp
  cases m with
  | take q =>
    by_cases hpq : p = q
    · exact Or.inr (by simp [Move.apply, hpq])
    · simpa [Life.Awake, Move.apply, hpq] using h
  | takeKilled q => simpa [Life.Awake, Move.apply, hstate enabled.2.2] using h
  | zombie q => simpa [Life.Awake, Move.apply, hstate settling] using h
  | deliver q d r w =>
    have hr : p ≠ r := by
      intro hpr
      obtain ⟨-, -, -, hplace, -⟩ := enabled
      rw [← hpr] at hplace
      rcases h with ⟨hp, -⟩ | ⟨hp, -⟩
      · rw [hp] at hplace
        cases hplace
      · rw [hp] at hplace
        cases hplace
    simpa [Life.Awake, Move.apply, hstate settling, hr] using h
  | _ => exact settling.elim

/-- What a wake-up does to the sleeper under `key`. -/
theorem Move.wake_due {key now k : Key} {q : PcbId}
    (h : a.place p = .queued .sleep key ∨
      (removeIfLeU key now ∧ a.place p = .queued wakeQueue 0 ∧ (a.proc p).state = .ready))
    (hq : a.place q = .queued .sleep k) (due : removeIfLeU k now) :
    ((Move.wake q (readyIndex prioMaximum)).apply a).place p = .queued .sleep key ∨
      (removeIfLeU key now ∧
        ((Move.wake q (readyIndex prioMaximum)).apply a).place p = .queued wakeQueue 0 ∧
        (((Move.wake q (readyIndex prioMaximum)).apply a).proc p).state = .ready) := by
  by_cases hpq : p = q
  · subst hpq
    rcases h with hp | ⟨-, hp, -⟩
    · rw [hp] at hq
      cases hq
      exact Or.inr ⟨due, by simp [Move.apply], by simp [Move.apply]⟩
    · rw [hp] at hq
      cases hq
  · simpa [Move.apply, hpq] using h

/-- **The interrupt at which the key is due** takes the sleeper to the first ready queue,
from which the dispatcher may already have taken it. -/
theorem isrClock_wakes {key : Key} (hrel : Rel σ a) (sound : a.Sound)
    (rest : a.Resting σ.current) (asleep : a.place p = .queued .sleep key)
    (due : removeIfLeU key (σ.systemTime + 1)) :
    wp isrClock (fun _ τ => ∃ d : Life, Rel τ d ∧ d.Resting τ.current ∧ d.Awake p)
      (fun _ => True) σ := by
  rw [isrClock]
  refine wp_seq (tick_spec hrel) ?_
  intro _ τ hpost
  obtain ⟨hτ, hcurrent, htime⟩ := hpost
  rw [wp_bind, wp_get, htime]
  have hloop : wp (wakeLoop ((τ.queues .sleep).items.length + 1) (σ.systemTime + 1))
      (fun _ υ => Returns (fun c m => ∃ q k, m = .wake q (readyIndex prioMaximum) ∧
        c.place q = .queued .sleep k ∧ removeIfLeU k (σ.systemTime + 1)) a υ ∧
        υ.current = τ.current) (fun _ => True) τ :=
    wakeLoop_spec _ hτ (by rw [hcurrent]; exact rest) (Nat.lt_succ_self _) _
      fun _ q k hq hdue => ⟨q, k, rfl, hq, hdue⟩
  refine wp_seq (wp_mono (wp_and hloop (wakeLoop_stops _ _)) (fun _ _ hx => hx)
    fun _ _ => trivial) ?_
  intro _ υ hpost
  obtain ⟨⟨⟨d, hd, hdrest, hmoves⟩, -⟩, hstops⟩ := hpost
  have hsound := hmoves.sound sound
  -- the loop would have gone on if the sleeper were still there
  have hwoken : d.place p = .queued wakeQueue 0 ∧ (d.proc p).state = .ready := by
    have hcases := hmoves.invariant
      (I := fun e => e.place p = .queued .sleep key ∨ (removeIfLeU key (σ.systemTime + 1) ∧
        e.place p = .queued wakeQueue 0 ∧ (e.proc p).state = .ready))
      (fun e m he _ hm => by
        obtain ⟨q, k, rfl, hq, hdue⟩ := hm
        exact Move.wake_due he hq hdue) (Or.inl asleep)
    rcases hcases with hp | ⟨-, hp⟩
    · exact absurd due (hd.not_due hstops hp)
    · exact hp
  have hne : p ≠ υ.current := by
    intro hp
    rw [hp, hdrest.1.place] at hwoken
    cases hwoken.1
  rw [wp_bind, wp_get]
  refine wp_seq (schedule_rel hd hdrest.1.loose _) ?_
  intro _ φ hpost
  obtain ⟨hφ, -, -⟩ := hpost
  have enabled : (Move.ready υ.current (readyIndex (υ.pcbs υ.current).prio)).Enabled d :=
    hdrest.1
  have hidle : ((Move.ready υ.current (readyIndex (υ.pcbs υ.current).prio)).apply d).Idle :=
    hdrest.1.idle_of (by simp [Move.apply]) fun q hq => by simp [Move.apply, hq]
  refine wp_mono (dispatch_spec hφ (Move.sound hsound enabled) hidle) ?_ fun _ _ => trivial
  intro _ ψ hpost
  obtain ⟨e, he, herest, hsettle⟩ := hpost
  refine ⟨e, he, herest, hsettle.invariant (I := fun f => f.Awake p)
    (fun f m hf hm settling => Settling.awake hm settling hf) (Or.inl ?_)⟩
  simpa [Move.apply, hne] using hwoken

/-- **A clock interrupt wakes** a sleeper that is due. -/
theorem step_wakes {key : Key} (hrel : Rel σ a) (sound : a.Sound) (rest : a.Resting σ.current)
    (asleep : a.place p = .queued .sleep key) (due : removeIfLeU key (σ.systemTime + 1))
    (clock : i.isClock) (step : kernelEntry i σ = .ok ((), τ)) :
    ∃ d : Life, Rel τ d ∧ d.Resting τ.current ∧ d.Awake p := by
  have hwp : wp (kernelEntry i) (fun _ τ => ∃ d : Life, Rel τ d ∧ d.Resting τ.current ∧ d.Awake p)
      (fun _ => True) σ := by
    rw [kernelEntry, wp_bind, wp_modify]
    cases hint : i.interrupt with
    | clock =>
      exact isrClock_wakes (enter_rel (i := i) hrel) (sound.rewant (σ.enter i.user).want) rest
        asleep due
    | syscall ext => simp [Input.isClock, hint] at clock
    | serial events => simp [Input.isClock, hint] at clock
  exact wp_ok (x := kernelEntry i) hwp step

/-! ## From the call to the wake-up -/

/-- The first argument of the call. -/
def Input.ticks (σ : State) (i : Input) : UInt32 := (σ.enter i.user).arg σ.current 1

/-- The caller of `sleep` is filed under the sum of the time and the ticks. -/
theorem sysSleep_asleep (hrel : Rel σ a) (sound : a.Sound) (rest : a.Resting σ.current) :
    wp sysSleep
      (fun _ τ => ∃ d : Life, Rel τ d ∧ d.Sound ∧ d.Resting τ.current ∧
        d.place σ.current = .queued .sleep (σ.systemTime + σ.arg σ.current 1))
      (fun _ => True) σ := by
  rw [sysSleep, wp_bind, wp_get]
  refine wp_seq (sleepInsert_spec hrel rest.1) ?_
  intro stat τ hpost
  obtain ⟨hstat, hτ⟩ := hpost
  rw [if_neg (not_not.mpr hstat)]
  have enabled : (Move.sleep σ.current (σ.systemTime + σ.arg σ.current 1)).Enabled a := rest.1
  have hsound := Move.sound sound enabled
  have hidle : ((Move.sleep σ.current (σ.systemTime + σ.arg σ.current 1)).apply a).Idle :=
    rest.1.idle_of (by simp [Move.apply]) fun q hq => by simp [Move.apply, hq]
  refine wp_mono (dispatch_spec hτ hsound hidle) ?_ fun _ _ => trivial
  intro _ υ hpost
  obtain ⟨d, hd, hdrest, hmoves⟩ := hpost
  refine ⟨d, hd, hmoves.sound hsound, hdrest, hmoves.invariant
    (I := fun e => e.place σ.current = .queued .sleep (σ.systemTime + σ.arg σ.current 1)) ?_
    (by simp [Move.apply])⟩
  intro e m he henabled settling
  refine Move.keeps_asleep henabled ?_ he
  intro j hm
  rw [hm] at settling
  exact settling

/-- **The call** files its caller under the time plus the number of ticks. -/
theorem step_sleeps (hrel : Rel σ a) (sound : a.Sound) (rest : a.Resting σ.current)
    (call : i.call σ = some .sleep) (step : kernelEntry i σ = .ok ((), τ)) :
    ∃ d : Life, Rel τ d ∧ d.Sound ∧ d.Resting τ.current ∧
      d.place σ.current = .queued .sleep (σ.systemTime + i.ticks σ) := by
  have hwp := kernelEntry_call call (fun _ _ => trivial) fun ext =>
    (sysSleep_asleep (enter_rel (i := i) hrel) (sound.rewant (σ.enter i.user).want) rest :
      wp (handler ext .sleep) _ _ _)
  exact wp_ok (x := kernelEntry i) hwp step

/-- Until its last tick a sleeper stays on the sleep queue. -/
theorem run_asleep {T t : UInt32} (fits : Fits T t) (hrel : Rel σ₁ a) (sound : a.Sound)
    (rest : a.Resting σ₁.current) (time : σ₁.systemTime = T)
    (asleep : a.place p = .queued .sleep (T + t))
    (run : KernelRun (fun σ i => i.call σ ≠ some .settime) σ₁ tr τ)
    (early : clocks tr < max t.toNat 1) :
    ∃ d : Life, Rel τ d ∧ d.Sound ∧ d.Resting τ.current ∧ d.place p = .queued .sleep (T + t) := by
  induction run with
  | nil => exact ⟨a, hrel, sound, rest, asleep⟩
  | @snoc tr σ υ i run _ next ih =>
    rw [clocks_snoc] at early
    obtain ⟨d, hd, hsound, hdrest, hplace⟩ := ih (by omega)
    refine step_asleep hd hsound hdrest hplace ?_ next
    intro hclock
    rw [if_pos hclock] at early
    have hnow : σ.systemTime + 1 = T + UInt32.ofNat (clocks tr + 1) := by
      rw [KernelRun.time run, time, UInt32.ofNat_add, UInt32.add_assoc]
      rfl
    rw [hnow]
    exact fits.not_due (Nat.le_add_left 1 _) early

/-- Between the call and the first clock interrupt after it, a sleeper stays where it is. -/
theorem run_quiet {key : Key} (hrel : Rel σ₁ a) (sound : a.Sound) (rest : a.Resting σ₁.current)
    (asleep : a.place p = .queued .sleep key)
    (run : KernelRun (fun σ i => i.call σ ≠ some .settime) σ₁ tr τ) (quiet : clocks tr = 0) :
    ∃ d : Life, Rel τ d ∧ d.Sound ∧ d.Resting τ.current ∧ d.place p = .queued .sleep key := by
  induction run with
  | nil => exact ⟨a, hrel, sound, rest, asleep⟩
  | @snoc tr σ υ i run _ next ih =>
    rw [clocks_snoc] at quiet
    obtain ⟨d, hd, hsound, hdrest, hplace⟩ := ih (by omega)
    refine step_asleep hd hsound hdrest hplace ?_ next
    intro hclock
    rw [if_pos hclock] at quiet
    omega

/-- From `σ₁` on, the process `p` is on the sleep queue until `n` clock interrupts have
occurred, and the last of them makes it ready. -/
def SleepsExactly (σ₁ : State) (p : PcbId) (n : Nat) : Prop :=
  ∀ (tr : List (State × Input)) (τ : State),
    KernelRun (fun σ i => i.call σ ≠ some .settime) σ₁ tr τ →
    (clocks tr < n → p ∈ (τ.queues .sleep).members) ∧
      ∀ (j : Input) (υ : State), j.isClock → clocks tr + 1 = n → kernelEntry j τ = .ok ((), υ) →
        p ∉ (υ.queues .sleep).members ∧
          (p ∈ (υ.queues wakeQueue).members ∨ p = υ.current)

/-- A clock interrupt does occur after `σ₁`. -/
def TicksOn (σ₁ : State) : Prop :=
  ∃ tr τ j υ, KernelRun (fun σ i => i.call σ ≠ some .settime) σ₁ tr τ ∧ clocks tr = 0 ∧
    j.isClock ∧ kernelEntry j τ = .ok ((), υ)

/-- Who is awake does not sleep. -/
theorem Life.Awake.not_asleep (h : a.Awake p) (hrel : Rel τ a) :
    p ∉ (τ.queues .sleep).members := by
  intro hmem
  obtain ⟨k, hk⟩ := (hrel.placed.mem_members .sleep p).mp hmem
  rcases h with ⟨hp, -⟩ | ⟨hp, -⟩
  · rw [hp] at hk
    cases hk
  · rw [hp] at hk
    cases hk

/-- Who is awake is ready or runs. -/
theorem Life.Awake.ready (h : a.Awake p) (hrel : Rel τ a) (rest : a.Resting τ.current) :
    p ∈ (τ.queues wakeQueue).members ∨ p = τ.current := by
  rcases h with ⟨hp, -⟩ | ⟨hp, -⟩
  · exact Or.inl ((hrel.placed.mem_members _ p).mpr ⟨0, hp⟩)
  · exact Or.inr ((rest.1 p).mp hp)

/-- **A sleep whose key does not wrap around** lasts as many ticks as asked for, and at least one;
by induction on the run. -/
theorem Fits.sleepsExactly {T t : UInt32} (fits : Fits T t) (hrel : Rel σ₁ a) (sound : a.Sound)
    (rest : a.Resting σ₁.current) (time : σ₁.systemTime = T)
    (asleep : a.place p = .queued .sleep (T + t)) : SleepsExactly σ₁ p (max t.toNat 1) := by
  intro tr τ run
  refine ⟨fun early => ?_, ?_⟩
  · obtain ⟨e, he, -, -, hasleep⟩ := run_asleep fits hrel sound rest time asleep run early
    exact (he.placed.mem_members .sleep p).mpr ⟨_, hasleep⟩
  · intro j υ hclock hlast hstep
    obtain ⟨e, he, hesound, herest, hasleep⟩ :=
      run_asleep fits hrel sound rest time asleep run (by omega)
    have hnow : τ.systemTime + 1 = T + UInt32.ofNat (max t.toNat 1) := by
      rw [KernelRun.time run, time, ← hlast, UInt32.ofNat_add, UInt32.add_assoc]
      rfl
    have hdue : removeIfLeU (T + t) (τ.systemTime + 1) := by
      rw [hnow]
      exact fits.due
    obtain ⟨f, hf, hfrest, hawake⟩ := step_wakes he hesound herest hasleep hdue hclock hstep
    exact ⟨hawake.not_asleep hf, hawake.ready hf hfrest⟩

/-- Otherwise the first clock interrupt already goes wrong. -/
theorem SleepsExactly.fits {T t : UInt32} (sleeps : SleepsExactly σ₁ p (max t.toNat 1))
    (hrel : Rel σ₁ a) (sound : a.Sound) (rest : a.Resting σ₁.current) (time : σ₁.systemTime = T)
    (asleep : a.place p = .queued .sleep (T + t)) (ticks : TicksOn σ₁) : Fits T t := by
  by_contra hfits
  obtain ⟨tr, τ, j, υ, run, hquiet, hclock, hstep⟩ := ticks
  obtain ⟨e, he, hesound, herest, hasleep⟩ := run_quiet hrel sound rest asleep run hquiet
  have hnow : τ.systemTime + 1 = T + 1 := by
    simp [KernelRun.time run, time, hquiet]
  by_cases hlast : max t.toNat 1 = 1
  · -- the key is the last time there is, and the clock is back at zero
    have hlate : ¬ removeIfLeU (T + t) (τ.systemTime + 1) := by
      rw [hnow]
      exact Fits.late hfits hlast
    obtain ⟨f, hf, -, -, hplace⟩ :=
      step_asleep he hesound herest hasleep (fun _ => hlate) hstep
    have hgone := ((sleeps tr τ run).2 j υ hclock (by omega) hstep).1
    exact hgone ((hf.placed.mem_members .sleep p).mpr ⟨_, hplace⟩)
  · -- the key has wrapped around, and the clock has not
    have hearly : removeIfLeU (T + t) (τ.systemTime + 1) := by
      rw [hnow]
      exact Fits.early hfits hlast
    obtain ⟨f, hf, -, hawake⟩ := step_wakes he hesound herest hasleep hearly hclock hstep
    have hsnoc : KernelRun (fun σ i => i.call σ ≠ some .settime) σ₁ (tr ++ [(τ, j)]) υ := by
      refine run.snoc ?_ hstep
      rw [Input.call]
      cases hint : j.interrupt <;> simp_all [Input.isClock]
    have hasleep' := (sleeps _ υ hsnoc).1 (by rw [clocks_snoc, hquiet, if_pos hclock]; omega)
    exact hawake.not_asleep hf hasleep'

/-- **How long a sleep lasts.**  A process that calls `sleep` with `t` at time `T` stays on
the sleep queue until `max t 1` clock interrupts have occurred, and that one makes it
ready, if the sums of time and ticks fit in 32 bits or wrap around together; and only then,
unless no clock interrupt occurs any more.  Nothing is asked of the other sleepers, or of
what came before the call. -/
theorem sleepsExactly_iff (boot : BootState b σ₀) (before : AnyRun σ₀ tr σ)
    (call : i.call σ = some .sleep) (step : kernelEntry i σ = .ok ((), σ₁)) :
    (Fits σ.systemTime (i.ticks σ) →
        SleepsExactly σ₁ σ.current (max (i.ticks σ).toNat 1)) ∧
      (TicksOn σ₁ → (SleepsExactly σ₁ σ.current (max (i.ticks σ).toNat 1) ↔
        Fits σ.systemTime (i.ticks σ))) := by
  obtain ⟨a, hrel, hsound, hrest, -⟩ := KernelRun.invariant (I := fun _ => True) boot
    (fun _ _ => trivial) (fun _ _ _ _ _ _ _ _ _ => trivial) before
  obtain ⟨d, hd, hdsound, hdrest, hplace⟩ := step_sleeps hrel hsound hrest call step
  have htime : σ₁.systemTime = σ.systemTime := by
    rw [kernelEntry_time (by rw [call]; simp) step]
    cases hint : i.interrupt <;> simp_all [Input.isClock, Input.call]
  have hfits : Fits σ.systemTime (i.ticks σ) →
      SleepsExactly σ₁ σ.current (max (i.ticks σ).toNat 1) :=
    fun fits => fits.sleepsExactly hd hdsound hdrest htime hplace
  exact ⟨hfits, fun ticks =>
    ⟨fun sleeps => sleeps.fits hd hdsound hdrest htime hplace ticks, hfits⟩⟩

/-- Init is scheduled by the first clock interrupt and forks. -/
def forkRun : List Input := [clockInput (fun _ => 0) blankHeap, callInput 1 (fun _ => 0) blankHeap]

/-- The process on the CPU sleeps for `t` ticks, and the clock interrupts its successor. -/
def sleepTest (t : UInt32) (test : State → State → Bool) (σ : State) : Bool :=
  decide ((callInput 5 (fun _ => t) blankHeap).call σ = some .sleep) &&
    decide (σ.systemTime = 1) &&
    decide ((callInput 5 (fun _ => t) blankHeap).ticks σ = t) &&
    match kernelEntry (callInput 5 (fun _ => t) blankHeap) σ with
    | .ok (_, σ₁) =>
      (play kernelEntry (fun σ i => i.call σ ≠ some .settime) [clockInput (fun _ => 0) blankHeap]
        σ₁).any fun r => test σ r.2
    | .error _ => false

theorem sleepTest_run {t : UInt32} {test : State → State → Bool}
    (h : bootTest (fun σ i => i.call σ ≠ some .settime) blankBoot forkRun (sleepTest t test)) :
    ∃ σ₀ tr σ i σ₁ tr' τ, BootState blankBoot σ₀ ∧
      KernelRun (fun σ i => i.call σ ≠ some .settime) σ₀ tr σ ∧ i.call σ = some .sleep ∧
      σ.systemTime = 1 ∧ i.ticks σ = t ∧ kernelEntry i σ = .ok ((), σ₁) ∧
      KernelRun (fun σ i => i.call σ ≠ some .settime) σ₁ tr' τ ∧ clocks tr' = 1 ∧ test σ τ := by
  obtain ⟨σ₀, tr, σ, hboot, hrun, -, htest⟩ := bootTest_run h
  simp only [sleepTest, Bool.and_eq_true, decide_eq_true_eq] at htest
  obtain ⟨⟨⟨hcall, htime⟩, hticks⟩, hrest⟩ := htest
  split at hrest
  · rename_i σ₁ hstep
    obtain ⟨⟨tr', τ⟩, hplay, hτ⟩ := (Option.any_eq_true _ _).mp hrest
    obtain ⟨hafter, htr'⟩ := play_runs hplay
    refine ⟨σ₀, tr, σ, _, σ₁, tr', τ, hboot, hrun, hcall, htime, hticks, hstep, hafter, ?_, hτ⟩
    obtain ⟨x, rfl, hx⟩ := List.map_eq_singleton_iff.mp htr'
    simp [clocks, hx, clockInput, Input.isClock]
  · cases hrest

theorem sleepsExactly_two : ∃ σ₀ tr σ i σ₁, BootState blankBoot σ₀ ∧ AnyRun σ₀ tr σ ∧
    i.call σ = some .sleep ∧ i.ticks σ = 2 ∧ kernelEntry i σ = .ok ((), σ₁) ∧
    SleepsExactly σ₁ σ.current 2 := by
  have hrun : bootTest (fun σ i => i.call σ ≠ some .settime) blankBoot forkRun
      (sleepTest 2 fun _ _ => true) := by
    decide +kernel
  obtain ⟨σ₀, tr, σ, i, σ₁, -, -, hboot, hbefore, hcall, htime, hticks, hstep, -⟩ :=
    sleepTest_run hrun
  have hany := hbefore.restrict (fun _ _ => True) fun _ _ => trivial
  have hfits : Fits σ.systemTime (i.ticks σ) := by
    rw [htime, hticks]
    decide
  have hsleeps := (sleepsExactly_iff hboot hany hcall hstep).1 hfits
  rw [hticks] at hsleeps
  exact ⟨σ₀, tr, σ, i, σ₁, hboot, hany, hcall, hticks, hstep, hsleeps⟩

/-- A sleep of 4294967295 ticks from time 1 on ends with the first tick. -/
theorem long_sleep_ends_at_once :
    ¬ ∀ (b : Boot) (σ₀ : State) (tr : List (State × Input)) (σ : State) (i : Input) (σ₁ : State),
      BootState b σ₀ → KernelRun (fun σ i => i.call σ ≠ some .settime) σ₀ tr σ →
      i.call σ = some .sleep → kernelEntry i σ = .ok ((), σ₁) →
      SleepsExactly σ₁ σ.current (max (i.ticks σ).toNat 1) := by
  intro h
  have hrun : bootTest (fun σ i => i.call σ ≠ some .settime) blankBoot forkRun
      (sleepTest 0xFFFFFFFF fun σ τ => decide (σ.current ∉ (τ.queues .sleep).members)) := by
    decide +kernel
  obtain ⟨σ₀, tr, σ, i, σ₁, tr', τ, hboot, hbefore, hcall, -, hticks, hstep, hafter,
    hclocks, htest⟩ := sleepTest_run hrun
  have hasleep := (h _ _ _ _ _ _ hboot hbefore hcall hstep _ _ hafter).1
  refine of_decide_eq_true htest (hasleep ?_)
  rw [hclocks, hticks]
  decide

end Cumulonimbus
