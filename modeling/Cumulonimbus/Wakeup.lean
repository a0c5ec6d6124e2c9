import Cumulonimbus.Pids

/-!
# Whether a process that waits will be woken

`wait` scans the table before it blocks its caller, and `_zombify` wakes a parent
that waits for the process that ends.  Between the two nothing is missed, with one
exception: `exit` hands the children of its caller over to init, and those that
have ended already are not reported to an init that is waiting for anyone.

In runs in which this does not come up, in which a specific `wait` names a child
of the caller, and in which pids and the objects that processes wait on are not
reused under them, no wake-up is lost (`no_wakeup_lost`).
-/

namespace Cumulonimbus

open Exec

variable {σ σ₀ : State} {a : Life} {b : Boot} {i : Input} {p q P : PcbId}
  {tr : List (State × Input)}

/-- Nobody waits for a process that has already ended. -/
def State.NothingMissed (σ : State) : Prop :=
  ∀ P, (σ.pcbs P).state = .waiting →
    ((σ.want P).id = 0 → ∀ c, (σ.pcbs c).ppid.same (σ.pcbs P).pid →
      (σ.pcbs c).state ≠ .zombie) ∧
    ((σ.want P).id ≠ 0 → ∀ q, (σ.pcbs q).pid.same (σ.want P) → (σ.pcbs q).state ≠ .zombie)

instance (σ : State) : Decidable σ.NothingMissed :=
  inferInstanceAs (Decidable (∀ P, (σ.pcbs P).state = .waiting →
    ((σ.want P).id = 0 → ∀ c, (σ.pcbs c).ppid.same (σ.pcbs P).pid →
      (σ.pcbs c).state ≠ .zombie) ∧
    ((σ.want P).id ≠ 0 → ∀ q, (σ.pcbs q).pid.same (σ.want P) → (σ.pcbs q).state ≠ .zombie)))

/-! ## The conditions on an entry -/

/-- What a process waits for is not overwritten while it waits. -/
def Input.KeepsWants (σ : State) (i : Input) : Prop :=
  ∀ p, (σ.pcbs p).state = .waiting →
    (σ.enter i.user).want p = σ.want p ∧ (i.told σ).want p = σ.want p

/-- A `fork` hands out a pid other than 0 that nobody bears and nobody waits for. -/
def Input.ForksNew (σ : State) (i : Input) : Prop :=
  i.ForksFresh σ ∧ (i.call σ = some .fork → σ.upcoming.id ≠ 0 ∧
    ∀ p, (σ.pcbs p).state = .waiting → ¬ σ.upcoming.same (σ.want p))

/-- A `wait` for a specific process names a child of the caller. -/
def Input.WaitsForChild (σ : State) (i : Input) : Prop :=
  i.call σ = some .wait → ((σ.enter i.user).want σ.current).id ≠ 0 →
    ∀ q, (σ.pcbs q).pid.same ((σ.enter i.user).want σ.current) →
      (σ.pcbs q).ppid.same (σ.pcbs σ.current).pid

/-- An `exit` by a process that has a zombie among its children does not find init
waiting for anyone, unless the caller is itself a child of init. -/
def Input.ExitsHeard (σ : State) (i : Input) : Prop :=
  i.call σ = some .exit → ∀ P, (σ.pcbs P).state = .waiting → (σ.pcbs P).pid.id = pidInit →
    (σ.want P).id = 0 → ¬ (σ.pcbs σ.current).ppid.same (σ.pcbs P).pid →
    ∀ c, (σ.pcbs c).ppid.same (σ.pcbs σ.current).pid → (σ.pcbs c).state ≠ .zombie

/-- The four conditions together. -/
def Input.Heedful (σ : State) (i : Input) : Prop :=
  i.KeepsWants σ ∧ i.ForksNew σ ∧ i.WaitsForChild σ ∧ i.ExitsHeard σ

instance (σ : State) (i : Input) : Decidable (i.KeepsWants σ) :=
  inferInstanceAs (Decidable (∀ p, (σ.pcbs p).state = .waiting →
    (σ.enter i.user).want p = σ.want p ∧ (i.told σ).want p = σ.want p))

instance (σ : State) (i : Input) : Decidable (i.ForksNew σ) :=
  inferInstanceAs (Decidable (_ ∧ (i.call σ = some .fork → σ.upcoming.id ≠ 0 ∧
    ∀ p, (σ.pcbs p).state = .waiting → ¬ σ.upcoming.same (σ.want p))))

instance (σ : State) (i : Input) : Decidable (i.WaitsForChild σ) :=
  inferInstanceAs (Decidable (i.call σ = some .wait →
    ((σ.enter i.user).want σ.current).id ≠ 0 →
    ∀ q, (σ.pcbs q).pid.same ((σ.enter i.user).want σ.current) →
      (σ.pcbs q).ppid.same (σ.pcbs σ.current).pid))

instance (σ : State) (i : Input) : Decidable (i.ExitsHeard σ) :=
  inferInstanceAs (Decidable (i.call σ = some .exit → ∀ P, (σ.pcbs P).state = .waiting →
    (σ.pcbs P).pid.id = pidInit → (σ.want P).id = 0 →
    ¬ (σ.pcbs σ.current).ppid.same (σ.pcbs P).pid →
    ∀ c, (σ.pcbs c).ppid.same (σ.pcbs σ.current).pid → (σ.pcbs c).state ≠ .zombie))

instance (σ : State) (i : Input) : Decidable (i.Heedful σ) :=
  inferInstanceAs (Decidable (_ ∧ _ ∧ _ ∧ _))

/-! ## The invariant -/

namespace Life

/-- No process bears the pid 0, which stands for anyone. -/
def Numbered (a : Life) : Prop := ∀ p, ¬ a.Free p → (a.proc p).pid.id ≠ 0

/-- If `P` waits for anyone, none of its children has ended; if it waits for a process
in the table, that is a child of it and has not ended. -/
structure HeardBy (a : Life) (P : PcbId) : Prop where
  any : (a.want P).id = 0 → ∀ c, ¬ a.Free c → (a.proc c).ppid.same (a.proc P).pid →
    (a.proc c).state ≠ .zombie
  one : (a.want P).id ≠ 0 → ∀ q, ¬ a.Free q → (a.proc q).pid.same (a.want P) →
    (a.proc q).state ≠ .zombie ∧ (a.proc q).ppid.same (a.proc P).pid

/-- Every process that waits hears of the end of those it waits for. -/
def Heard (a : Life) : Prop := ∀ P, (a.proc P).state = .waiting → a.HeardBy P

/-- Nobody is new in the table, and nobody has become a zombie. -/
structure Calm (a c : Life) : Prop where
  table : ∀ x, ¬ c.Free x → ¬ a.Free x ∧ (c.proc x).pid = (a.proc x).pid ∧
    (c.proc x).ppid = (a.proc x).ppid
  ended : ∀ x, ¬ c.Free x → (c.proc x).state = .zombie → (a.proc x).state = .zombie

theorem HeardBy.mono {c : Life} (h : a.HeardBy P) (calm : a.Calm c) (hP : ¬ c.Free P)
    (want : c.want P = a.want P) : c.HeardBy P := by
  have hpid := (calm.table P hP).2.1
  refine ⟨fun hid x hx hchild hz => ?_, fun hid x hx hsame => ?_⟩
  · obtain ⟨hxa, -, hppid⟩ := calm.table x hx
    rw [hppid, hpid] at hchild
    exact h.any (want ▸ hid) x hxa hchild (calm.ended x hx hz)
  · obtain ⟨hxa, hxpid, hppid⟩ := calm.table x hx
    rw [hxpid, want] at hsame
    obtain ⟨halive, hchild⟩ := h.one (want ▸ hid) x hxa hsame
    exact ⟨fun hz => halive (calm.ended x hx hz), by rw [hppid, hpid]; exact hchild⟩

/-- The pid of a process that has just left the table may be written where `P` waits:
nobody bears it any more. -/
theorem HeardBy.collect {c : Life} (h : a.HeardBy P) (calm : a.Calm c) (hP : ¬ c.Free P)
    (unique : a.Unique) (numbered : a.Numbered) (hq : ¬ a.Free q) (gone : c.Free q)
    (want : c.want P = a.want P ∨ c.want P = (a.proc q).pid) : c.HeardBy P := by
  rcases want with hwant | hwant
  · exact h.mono calm hP hwant
  · refine ⟨fun hid => absurd (hwant ▸ hid) (numbered q hq), fun _ x hx hsame => ?_⟩
    obtain ⟨hxa, hpid, -⟩ := calm.table x hx
    rw [hpid, hwant] at hsame
    obtain rfl := unique x q hxa hq hsame
    exact absurd gone hx

/-- The parent of a process is the one process with its pid. -/
theorem Unique.find_eq (h : a.Unique) (sound : a.Sound) {pid : Pid}
    (hfind : a.find pid = some q) (hP : ¬ a.Free P) (hsame : pid.same (a.proc P).pid) :
    q = P := by
  have hq := List.find?_some hfind
  simp only [Bool.and_eq_true, decide_eq_true_eq] at hq
  exact h q P (sound.not_free hq.1) hP (Pid.same_trans hq.2 hsame)

end Life

/-- Moves keep processes numbered if the forks among them are. -/
theorem Move.numbered {m : Move} (h : a.Numbered) (enabled : m.Enabled a)
    (new : ∀ p c s j, m = .fork p c s j → a.nextPid.id ≠ 0) : (m.apply a).Numbered := by
  intro x hx
  by_cases hfork : ∃ p s j, m = .fork p x s j
  · obtain ⟨p, s, j, rfl⟩ := hfork
    simpa [Move.apply] using new p x s j rfl
  · obtain ⟨hxa, hpid, -⟩ := Move.keeps_pids enabled
      (fun p s j hm => hfork ⟨p, s, j, hm⟩) hx
    rw [hpid]
    exact h x hxa

/-- A process that ends while its parent waits for it does not become a zombie: the
parent is taken off the waiting queue. -/
theorem Move.Ends.wakes {m : Move} (ends : m.Ends p) (unique : a.Unique) (sound : a.Sound)
    (enabled : m.Enabled a) (awaits : a.Awaits P p)
    (parent : (a.proc p).ppid.same (a.proc P).pid) :
    ((m.apply a).proc P).state = .ready := by
  have hP : ¬ a.Free P := sound.not_free (by rw [awaits.1]; simp)
  cases m with
  | zombie q =>
    obtain rfl : q = p := ends
    obtain ⟨-, q', hfind, hnot⟩ := enabled
    obtain rfl := unique.find_eq sound hfind hP parent
    exact absurd awaits hnot
  | deliver q q' r w =>
    obtain rfl : q = p := ends
    obtain ⟨-, hfind, -, hr, -⟩ := enabled
    obtain rfl := unique.find_eq sound hfind hP parent
    obtain rfl := unique.eq_of_key sound hP (Or.inl rfl) hr
    simp [Move.apply]
  | _ => exact ends.elim

/-- Nobody new comes up in a move other than `fork`, `reparent` and `zombie`. -/
theorem Move.calm {m : Move} (enabled : m.Enabled a)
    (hm : (∀ p c s j, m ≠ .fork p c s j) ∧ (∀ p, m ≠ .reparent p) ∧ ∀ p, m ≠ .zombie p) :
    a.Calm (m.apply a) := by
  refine ⟨fun x hx => ?_, fun x hx hz => ?_⟩
  · obtain ⟨hxa, hpid, hppid⟩ := Move.keeps_pids enabled (fun p s j => hm.1 p x s j) hx
    exact ⟨hxa, hpid, hppid hm.2.1⟩
  · cases m with
    | fork p c s j => exact absurd rfl (hm.1 p c s j)
    | reparent p => exact absurd rfl (hm.2.1 p)
    | zombie p => exact absurd rfl (hm.2.2 p)
    | deliver p _ r w =>
      by_cases hr : x = r
      · simp [Move.apply, hr] at hz
      · by_cases hp : x = p
        · exact absurd ⟨0, by simp [Move.apply, hr, ← hp]⟩ hx
        · simpa [Move.apply, hr, hp] using hz
    | reap _ r w =>
      by_cases hr : x = r
      · exact absurd ⟨0, by simp [Move.apply, hr]⟩ hx
      · simpa [Move.apply, hr] using hz
    | recycle c =>
      by_cases hc : x = c
      · exact absurd ⟨0, by simp [Move.apply, hc]⟩ hx
      · simpa [Move.apply, hc] using hz
    | takeKilled p | abandon p | write w => exact hz
    | blockRead p =>
      by_cases hp : x = p
      · subst hp; simpa [Move.apply] using hz
      · simpa [Move.apply, hp] using hz
    | ready p _ | wake p _ | sleep p _ | blockWait p _ | kill p | take p =>
      by_cases hp : x = p
      · simp [Move.apply, hp] at hz
      · simpa [Move.apply, hp] using hz

/-- Ending a process is heard by everyone who has missed nothing so far. -/
theorem Move.Ends.heardBy {m : Move} (ends : m.Ends p) (unique : a.Unique) (sound : a.Sound)
    (numbered : a.Numbered) (enabled : m.Enabled a)
    (waits : ((m.apply a).proc P).state = .waiting)
    (before : (a.proc P).state = .waiting → a.HeardBy P) : (m.apply a).HeardBy P := by
  have hP : ¬ (m.apply a).Free P :=
    (Move.sound sound enabled).not_free (by rw [waits]; simp)
  cases m with
  | zombie q =>
    have hqp : q = p := ends
    subst hqp
    have hPq : P ≠ q := by
      rintro rfl
      simp [Move.apply] at waits
    have hPa : (a.proc P).state = .waiting := by simpa [Move.apply, hPq] using waits
    have hmisses : a.Awaits P q → ¬ (a.proc q).ppid.same (a.proc P).pid := fun hawaits hparent =>
      by simp [ends.wakes unique sound enabled hawaits hparent] at waits
    have htable : ∀ x, ¬ ((Move.zombie q).apply a).Free x → ¬ a.Free x ∧
        (((Move.zombie q).apply a).proc x).pid = (a.proc x).pid ∧
        (((Move.zombie q).apply a).proc x).ppid = (a.proc x).ppid := fun x hx => by
      obtain ⟨hxa, hpid, hppid⟩ := Move.keeps_pids enabled (by simp) hx
      exact ⟨hxa, hpid, hppid (by simp)⟩
    have hstate : ∀ x, x ≠ q →
        (((Move.zombie q).apply a).proc x).state = (a.proc x).state := by
      intro x hx
      simp [Move.apply, hx]
    obtain ⟨hany, hone⟩ := before hPa
    refine ⟨fun hid x hx hchild hz => ?_, fun hid x hx hsame => ?_⟩
    · obtain ⟨hxa, -, hppid⟩ := htable x hx
      rw [hppid, (htable P hP).2.1] at hchild
      by_cases hxq : x = q
      · exact hmisses ⟨hPa, Or.inl hid⟩ (hxq ▸ hchild)
      · exact hany hid x hxa hchild (by rw [← hstate x hxq]; exact hz)
    · obtain ⟨hxa, hpid, hppid⟩ := htable x hx
      rw [hpid] at hsame
      obtain ⟨halive, hchild⟩ := hone hid x hxa hsame
      rw [hppid, (htable P hP).2.1]
      refine ⟨?_, hchild⟩
      by_cases hxq : x = q
      · subst hxq
        exact absurd hchild (hmisses ⟨hPa, Or.inr (Pid.same_symm hsame)⟩)
      · rw [hstate x hxq]; exact halive
  | deliver q q' r w =>
    obtain rfl : q = p := ends
    have hPr : P ≠ r := by
      rintro rfl
      simp [Move.apply] at waits
    have hrq : r ≠ q := by
      rintro rfl
      obtain ⟨hruns, -, -, hr, -⟩ := enabled
      simp [hruns.place] at hr
    have hPq : P ≠ q := by
      rintro rfl
      exact hP ⟨0, by simp [Move.apply, hPr]⟩
    have hPa : (a.proc P).state = .waiting := by simpa [Move.apply, hPr, hPq] using waits
    have hwant := enabled.2.2.2.2 P hPa
    exact (before hPa).collect (Move.calm enabled (by simp)) hP unique numbered
      enabled.1.not_free ⟨0, by simp [Move.apply, Ne.symm hrq]⟩ hwant
  | _ => exact ends.elim

/-- A wait is heard of if there is no zombie among the children and, where the call names one
process, that one is a child that has not ended. -/
theorem Move.heardBy_blockWait {w : Pid} (unique : a.Unique) (sound : a.Sound)
    (enabled : (Move.blockWait P w).Enabled a) (hP : ¬ ((Move.blockWait P w).apply a).Free P)
    (child : w.id ≠ 0 → ∀ q, (a.proc q).pid.same w → (a.proc q).ppid.same (a.proc P).pid) :
    ((Move.blockWait P w).apply a).HeardBy P := by
  have hcalm := Move.calm enabled (by simp)
  obtain ⟨-, hany, hone⟩ := enabled
  have hwant : ((Move.blockWait P w).apply a).want P = w := by simp [Move.apply]
  have hpid := (hcalm.table P hP).2.1
  refine ⟨fun hid x hx hchild hz => ?_, fun hid x hx hsame => ?_⟩
  · rw [(hcalm.table x hx).2.2, hpid] at hchild
    exact hany (hwant ▸ hid) x hchild (hcalm.ended x hx hz)
  · obtain ⟨hxa, hxpid, hxppid⟩ := hcalm.table x hx
    rw [hxpid, hwant] at hsame
    rw [hwant] at hid
    rw [hxppid, hpid]
    obtain ⟨q, hfind, halive⟩ := hone hid
    obtain rfl := unique.find_eq sound hfind hxa (Pid.same_symm hsame)
    exact ⟨fun hz => halive (hcalm.ended q hx hz), child hid q hsame⟩

/-- A fork is heard of by everyone who does not wait for the new pid. -/
theorem Move.heardBy_fork {c : PcbId} {s : StackId} {j : Fin nPriorities} (h : a.HeardBy P)
    (hPc : P ≠ c) (hnew : ¬ a.nextPid.same (a.want P)) :
    ((Move.fork p c s j).apply a).HeardBy P := by
  refine ⟨fun hid x hx hchild hz => ?_, fun hid x hx hsame => ?_⟩
  · by_cases hxc : x = c
    · simp [Move.apply, hxc] at hz
    · simp only [Move.apply, Life.move_proc, Life.modify_proc, hxc, hPc, if_false] at hchild hz
      exact h.any hid x (by simpa [Move.apply, Life.Free, hxc] using hx) hchild hz
  · by_cases hxc : x = c
    · refine absurd ?_ hnew
      simpa [Move.apply, hxc] using hsame
    · simp only [Move.apply, Life.move_proc, Life.modify_proc, hxc, hPc, if_false] at hsame ⊢
      exact h.one hid x (by simpa [Move.apply, Life.Free, hxc] using hx) hsame

/-- **Every move of an entry other than `exit` is heard.** -/
theorem Move.heard {m : Move} (h : a.Heard) (unique : a.Unique) (sound : a.Sound)
    (numbered : a.Numbered) (enabled : m.Enabled a)
    (allowed : Settling a m ∨ Origin σ i a m ∧ i.call σ ≠ some .exit)
    (heedful : i.Heedful σ) : (m.apply a).Heard := by
  intro P hP
  obtain ⟨keeps, forks, waits, -⟩ := heedful
  have hnext := Move.sound sound enabled
  have hPfree : ¬ (m.apply a).Free P := hnext.not_free (by rw [hP]; simp)
  -- a move that leaves the processes that wait alone
  have quiet : ((∀ p c s j, m ≠ .fork p c s j) ∧ (∀ p, m ≠ .reparent p) ∧ ∀ p, m ≠ .zombie p) →
      (a.proc P).state = .waiting → (m.apply a).want P = a.want P → (m.apply a).HeardBy P :=
    fun hm hPa hwant => (h P hPa).mono (Move.calm enabled hm) hPfree hwant
  cases m with
  | ready p j | wake p j | sleep p key | take p | kill p | recycle p =>
    have hne : P ≠ p := by
      rintro rfl
      simp [Move.apply, Pcb.proc] at hP
    exact quiet (by simp) (by simpa [Move.apply, hne] using hP) rfl
  | takeKilled p | abandon p => exact quiet (by simp) hP rfl
  | blockRead p =>
    refine quiet (by simp) ?_ rfl
    by_cases hne : P = p
    · subst hne; simpa [Move.apply] using hP
    · simpa [Move.apply, hne] using hP
  | blockWait p w =>
    obtain ⟨⟨-, hcall, hcurrent, hrel, hw⟩, -⟩ := allowed.resolve_left id
    by_cases hne : P = p
    · subst hne
      refine Move.heardBy_blockWait unique sound enabled hPfree fun hid q hsame => ?_
      -- the caller names a child
      rw [hrel.proc_of_enter] at hsame
      rw [hrel.proc_of_enter, hrel.proc_of_enter]
      subst hcurrent
      subst hw
      exact waits hcall hid q hsame
    · refine quiet (by simp) (by simpa [Move.apply, hne] using hP) ?_
      simp [Move.apply, hne]
  | fork p c s j =>
    obtain ⟨⟨-, hcall, -, hrel⟩, -⟩ := allowed.resolve_left id
    have hPc : P ≠ c := by
      rintro rfl
      simp [Move.apply] at hP
    have hPa : (a.proc P).state = .waiting := by simpa [Move.apply, hPc] using hP
    have hPσ : (σ.pcbs P).state = .waiting := by
      rw [← hPa, hrel.proc_of_enter]
      rfl
    have hnew : ¬ a.nextPid.same (a.want P) := by
      rw [hrel.nextPid, hrel.want P hPa, (keeps P hPσ).1]
      exact (forks.2 hcall).2 P hPσ
    exact Move.heardBy_fork (h P hPa) hPc hnew
  | reparent p =>
    obtain ⟨⟨hcall, -⟩, hexit⟩ := allowed.resolve_left id
    exact absurd hcall hexit
  | zombie p => exact Move.Ends.heardBy rfl unique sound numbered enabled hP (h P)
  | deliver p q r w => exact Move.Ends.heardBy rfl unique sound numbered enabled hP (h P)
  | reap q r w =>
    have hPr : P ≠ r := by
      rintro rfl
      exact hPfree ⟨0, by simp [Move.apply]⟩
    have hPa : (a.proc P).state = .waiting := by simpa [Move.apply, hPr] using hP
    have hq : ¬ a.Free q := sound.not_free (by rw [enabled.1]; simp)
    obtain rfl := unique.eq_of_key sound hq (Or.inr rfl) enabled.2.1
    exact (h P hPa).collect (Move.calm enabled (by simp)) hPfree unique numbered hq
      ⟨0, by simp [Move.apply]⟩ (enabled.2.2 P hPa)
  | write w =>
    refine quiet (by simp) hP ?_
    have hPa : (a.proc P).state = .waiting := hP
    obtain ⟨hrel, rfl⟩ | ⟨hrel, rfl⟩ := (allowed.resolve_left id).1
    · rw [hrel.want P hPa]
      exact (keeps P (by rw [hrel.state]; exact hPa)).1
    · have hPσ : (σ.pcbs P).state = .waiting := by
        rw [← hPa, hrel.proc_of_enter]
        rfl
      rw [hrel.want P hPa, (keeps P hPσ).1]
      exact (keeps P hPσ).2

/-- **An exit is heard**: the children are handed over and their parent ends.  Init
may miss a child that has ended already only if it does not hear of the parent. -/
theorem Move.Ends.heard_exit {m : Move} (ends : m.Ends p) (h : a.Heard) (unique : a.Unique)
    (sound : a.Sound) (numbered : a.Numbered) (runs : a.Runs p)
    (enabled : m.Enabled ((Move.reparent p).apply a))
    (handed : ∀ P, (a.proc P).state = .waiting → (a.proc P).pid.id = pidInit →
      (a.want P).id = 0 → ¬ (a.proc p).ppid.same (a.proc P).pid →
      ∀ c, (a.proc c).ppid.same (a.proc p).pid → (a.proc c).state ≠ .zombie) :
    (m.apply ((Move.reparent p).apply a)).Heard := by
  have hr : (Move.reparent p).Enabled a := runs
  have hsound := Move.sound sound hr
  have hunique := Move.unique unique hr (by simp)
  have hkeep : ∀ q, (((Move.reparent p).apply a).proc q).state = (a.proc q).state ∧
      (((Move.reparent p).apply a).proc q).pid = (a.proc q).pid := by
    intro q
    simp only [Move.apply]
    split <;> exact ⟨rfl, rfl⟩
  have hchild : ∀ q, (a.proc q).ppid.same (a.proc p).pid →
      (((Move.reparent p).apply a).proc q).ppid = { (a.proc q).ppid with id := pidInit } := by
    intro q hq
    simp only [Move.apply, hq, if_true]
  have hother : ∀ q, ¬ (a.proc q).ppid.same (a.proc p).pid →
      (((Move.reparent p).apply a).proc q).ppid = (a.proc q).ppid := by
    intro q hq
    simp only [Move.apply, hq]
    rfl
  intro P hP
  refine ends.heardBy hunique hsound (Move.numbered numbered hr (by simp)) enabled hP
    fun hwait => ?_
  have hPa : (a.proc P).state = .waiting := by rw [← (hkeep P).1]; exact hwait
  have hPfree : ¬ a.Free P := sound.not_free (by rw [hPa]; simp)
  have hPp : P ≠ p := by
    rintro rfl
    rcases sound.state_cpu runs.place with hs | hs | hs <;> simp [hPa] at hs
  obtain ⟨hany, hone⟩ := h P hPa
  refine ⟨fun hid c hc hsame hz => ?_, fun hid q hq hsame => ?_⟩
  · rw [(hkeep P).2] at hsame
    rw [(hkeep c).1] at hz
    by_cases hcp : (a.proc c).ppid.same (a.proc p).pid
    · -- a child that is handed over: `P` is init
      rw [hchild c hcp, Pid.same_iff] at hsame
      have hPid : (a.proc P).pid.id = pidInit := hsame.2.symm
      by_cases hparent : (a.proc p).ppid.same (a.proc P).pid
      · -- init is about to be woken
        refine absurd (ends.wakes (P := P) hunique hsound enabled ⟨hwait, Or.inl hid⟩ ?_)
          (by rw [hP]; simp)
        rw [(hkeep P).2]
        by_cases hpp : (a.proc p).ppid.same (a.proc p).pid
        · rw [hchild p hpp, Pid.same_iff]
          exact ⟨((Pid.same_iff _ _).mp hparent).1, hPid.symm⟩
        · rw [hother p hpp]; exact hparent
      · exact handed P hPa hPid hid hparent c hcp hz
    · rw [hother c hcp] at hsame
      exact hany hid c hc hsame hz
  · rw [(hkeep q).2] at hsame
    obtain ⟨halive, hqP⟩ := hone hid q hq hsame
    have hqp : ¬ (a.proc q).ppid.same (a.proc p).pid := fun hqp =>
      hPp (unique P p hPfree runs.not_free (Pid.same_trans (Pid.same_symm hqP) hqp))
    rw [(hkeep q).1, (hkeep P).2, hother q hqp]
    exact ⟨halive, hqP⟩

/-! ## Runs -/

/-- The invariant of heedful runs. -/
structure Life.Attentive (a : Life) : Prop where
  sound : a.Sound
  unique : a.Unique
  numbered : a.Numbered
  heard : a.Heard

theorem Life.Booted.attentive (h : a.Booted b p) : a.Attentive := by
  obtain ⟨s, hproc⟩ := h.proc
  have hself : ∀ q, ¬ a.Free q → q = p := fun q hq => not_not.mp fun hne => hq (h.others q hne).1
  refine ⟨h.sound, h.unique, fun q hq => ?_, fun q hq => ?_⟩
  · rw [hself q hq, hproc]
    simp [pidInit]
  · rw [hself q (h.sound.not_free (by rw [hq]; simp)), hproc] at hq
    cases hq

theorem Move.attentive {m : Move} (h : a.Attentive) (enabled : m.Enabled a)
    (allowed : Settling a m ∨ Origin σ i a m ∧ i.call σ ≠ some .exit)
    (heedful : i.Heedful σ) : (m.apply a).Attentive where
  sound := Move.sound h.sound enabled
  unique := by
    refine Move.unique h.unique enabled ?_
    rintro p c s j rfl q hq
    obtain ⟨-, hcall, -, hrel⟩ := (allowed.resolve_left id).1
    exact hrel.fresh heedful.2.1.1 hcall hq
  numbered := by
    refine Move.numbered h.numbered enabled ?_
    rintro p c s j rfl
    obtain ⟨-, hcall, -, hrel⟩ := (allowed.resolve_left id).1
    rw [hrel.nextPid]
    exact (heedful.2.1.2 hcall).1
  heard := Move.heard h.heard h.unique h.sound h.numbered enabled allowed heedful

/-- User code that keeps what processes wait for. -/
theorem Life.Attentive.entered (h : a.Attentive) (hrel : Rel σ a) (keeps : i.KeepsWants σ) :
    (a.entered σ i).Attentive := by
  have hwrite : (Move.write (σ.enter i.user).want).Enabled a := trivial
  refine ⟨Move.sound h.sound hwrite, h.unique, h.numbered, fun P hP => ?_⟩
  have hPa : (a.proc P).state = .waiting := hP
  refine (h.heard P hPa).mono (Move.calm hwrite (by simp)) (h.sound.not_free (by rw [hPa]; simp)) ?_
  rw [hrel.want P hPa]
  exact (keeps P (by rw [hrel.state]; exact hPa)).1

/-- What holds between entries is kept by a heedful one. -/
theorem step_attentive {τ : State} (hrel : Rel σ a) (h : a.Attentive)
    (rest : a.Resting σ.current) (heedful : i.Heedful σ) (step : kernelEntry i σ = .ok ((), τ)) :
    ∃ c : Life, Rel τ c ∧ c.Resting τ.current ∧ c.Attentive := by
  by_cases hcall : i.call σ = some .exit
  · obtain ⟨m, ends, enabled, c, hc, hcrest, hmoves⟩ := exit_rel hrel h.sound rest hcall step
    have hentered := h.entered hrel heedful.1
    have hr : (Move.reparent σ.current).Enabled (a.entered σ i) := rest.1
    have hkeeps := heedful.1
    have hheard := ends.heard_exit hentered.heard hentered.unique hentered.sound
      hentered.numbered rest.1 enabled fun P hP hid hany hparent x hx => ?_
    · have hunique := Move.unique hentered.unique hr (by simp)
      have hnumbered := Move.numbered hentered.numbered hr (by simp)
      have hsound := Move.sound hentered.sound hr
      have hend : (m.apply ((Move.reparent σ.current).apply (a.entered σ i))).Attentive :=
        ⟨Move.sound hsound enabled, Move.unique hunique enabled (by rintro _ _ _ _ rfl; cases ends),
          Move.numbered hnumbered enabled (by rintro _ _ _ _ rfl; cases ends), hheard⟩
      exact ⟨c, hc, hcrest, hmoves.invariant (I := Life.Attentive)
        (fun d n hd en settling => Move.attentive hd en (Or.inl settling) heedful) hend⟩
    · have hPa : (a.proc P).state = .waiting := hP
      have hPσ : (σ.pcbs P).state = .waiting := by rw [hrel.state]; exact hPa
      have hid' : (σ.pcbs P).pid.id = pidInit := by rw [hrel.pid]; exact hid
      have hany' : (σ.want P).id = 0 := by rw [← (hkeeps P hPσ).1]; exact hany
      have hnext := heedful.2.2.2 hcall P hPσ hid' hany'
        (by rw [hrel.ppid, hrel.pid]; exact hparent)
        x (by rw [hrel.ppid, hrel.pid]; exact hx)
      rwa [hrel.state] at hnext
  · obtain ⟨c, hc, hcrest, hmoves⟩ := step_rel hrel h.sound rest step
    exact ⟨c, hc, hcrest, hmoves.invariant (I := Life.Attentive)
      (fun d n hd en origin => Move.attentive hd en (Or.inr ⟨origin, hcall⟩) heedful) h⟩

/-- **No wake-up is lost** in a heedful run. -/
theorem no_wakeup_lost (boot : BootState b σ₀)
    (run : KernelRun (fun σ i => i.Heedful σ) σ₀ tr σ) : σ.NothingMissed := by
  suffices h : ∃ a : Life, Rel σ a ∧ a.Resting σ.current ∧ a.Attentive by
    obtain ⟨a, hrel, -, hatt⟩ := h
    intro P hP
    rw [hrel.state] at hP
    obtain ⟨hany, hone⟩ := hatt.heard P hP
    rw [hrel.want P hP] at hany hone
    refine ⟨fun hid c hchild hz => ?_, fun hid q hsame hz => ?_⟩
    · rw [hrel.ppid, hrel.pid] at hchild
      rw [hrel.state] at hz
      exact hany hid c (hatt.sound.not_free (by rw [hz]; simp)) hchild hz
    · rw [hrel.pid] at hsame
      rw [hrel.state] at hz
      exact (hone hid q (hatt.sound.not_free (by rw [hz]; simp)) hsame).1 hz
  induction run with
  | nil =>
    obtain ⟨a, hrel, hboot⟩ := boot.rel
    exact ⟨a, hrel, hboot.resting, hboot.attentive⟩
  | snoc _ good next ih =>
    obtain ⟨a, hrel, hrest, hatt⟩ := ih
    exact step_attentive hrel hatt hrest good next

/-- Init forks a child, that one a grandchild (pid 3), and that one a child of its
own (pid 4).  While init waits for anyone, the last one exits, and then the
grandchild. -/
def missedRun : List Input :=
  let fork := callInput 1 (fun _ => 0) blankHeap
  let wait := callInput 3 (fun _ => 16) blankHeap
  let exit := callInput 0 (fun _ => 0) blankHeap
  let clock := clockInput (fun _ => 16) blankHeap
  [fork, clock, fork, clock, clock, fork, clock, clock, wait, exit, exit]

/-- The last process has been handed over to init, which goes on waiting. -/
theorem init_misses_orphan :
    ¬ ∀ (b : Boot) (σ₀ : State) (tr : List (State × Input)) (σ : State), BootState b σ₀ →
      KernelRun (fun σ i => i.KeepsWants σ ∧ i.ForksNew σ ∧ i.WaitsForChild σ ∧
        i.call σ ∈ [none, some .fork, some .exec, some .exit, some .wait, some .kill,
          some .sleep]) σ₀ tr σ →
      σ.NothingMissed := by
  intro h
  have hrun : bootTest (fun σ i => i.KeepsWants σ ∧ i.ForksNew σ ∧ i.WaitsForChild σ ∧
      i.call σ ∈ [none, some .fork, some .exec, some .exit, some .wait, some .kill,
        some .sleep]) blankBoot missedRun fun σ => decide (¬ σ.NothingMissed) := by
    decide +kernel
  obtain ⟨σ₀, tr, σ, hboot, hgood, -, hmissed⟩ := bootTest_run hrun
  exact of_decide_eq_true hmissed (h _ _ _ _ hboot hgood)

/-- Init forks and waits for anyone; nothing is missed while the child runs. -/
theorem no_wakeup_lost_wait : ∃ σ₀ tr σ, BootState blankBoot σ₀ ∧
    KernelRun (fun σ i => i.Heedful σ) σ₀ tr σ ∧ tr.length = 3 ∧
    (σ.pcbs 0).state = .waiting ∧ σ.NothingMissed := by
  have hrun : bootTest (fun σ i => i.Heedful σ) blankBoot
      [callInput 1 (fun _ => 0) blankHeap, callInput 3 (fun _ => 16) blankHeap,
        clockInput (fun _ => 16) blankHeap] fun σ => decide ((σ.pcbs 0).state = .waiting) := by
    decide +kernel
  obtain ⟨σ₀, tr, σ, hboot, hgood, htr, hwaits⟩ := bootTest_run hrun
  have hlen : tr.length = 3 := by simpa using congrArg List.length htr
  exact ⟨σ₀, tr, σ, hboot, hgood, hlen, of_decide_eq_true hwaits, no_wakeup_lost hboot hgood⟩

end Cumulonimbus
