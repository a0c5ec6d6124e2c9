import Cumulonimbus.Pids

/-!
# Who still has a parent

`exit` hands the children of its caller to init, but the dispatcher ends a killed
process without doing so; once such a process has been collected, its children
have no parent, and the kernel panics when one of them ends.  Until its first
dispatch init itself does not count as a parent either, because `_pcb_find` skips
`FREE` PCBs and `_init` leaves init in that state.

As long as init lives and `kill` finds no parent in a ready queue, every process
has a parent (`every_process_has_parent`).
-/

namespace Cumulonimbus

open Exec

variable {σ σ₀ : State} {a : Life} {b : Boot} {p init : PcbId} {tr : List (State × Input)}

/-- Every process in the table has a parent there. -/
def State.EveryParent (σ : State) : Prop :=
  ∀ p, p ∉ (σ.queues .pcbAvail).members → (σ.pcbFind (σ.pcbs p).ppid).isSome

/-- The entry neither ends nor kills `init`. -/
def Input.SparesInit (init : PcbId) (σ : State) (i : Input) : Prop :=
  (i.call σ = some .exit → σ.current ≠ init) ∧
    (i.call σ = some .kill → (σ.enter i.user).killTarget ≠ some init)

instance (init : PcbId) (σ : State) (i : Input) : Decidable (i.SparesInit init σ) :=
  inferInstanceAs (Decidable (_ ∧ _))

/-- If the entry is a `kill`, it does not find a process in a ready queue that has
children. -/
def Input.KillsChildless (σ : State) (i : Input) : Prop :=
  i.call σ = some .kill → ∀ p, (σ.enter i.user).killTarget = some p →
    (∃ j, p ∈ (σ.queues (.ready j)).members) →
    ∀ c, c ∉ (σ.queues .pcbAvail).members → ¬ (σ.pcbs p).pid.same (σ.pcbs c).ppid

instance (σ : State) (i : Input) : Decidable (i.KillsChildless σ) :=
  inferInstanceAs (Decidable (_ → ∀ p, (σ.enter i.user).killTarget = some p →
    (∃ j, p ∈ (σ.queues (.ready j)).members) →
    ∀ c, c ∉ (σ.queues .pcbAvail).members → ¬ (σ.pcbs p).pid.same (σ.pcbs c).ppid))

namespace Life

/-- `p` is in the table and is not on its way out. -/
structure Staying (a : Life) (p : PcbId) : Prop where
  allocated : ¬ a.Free p
  notZombie : ∀ key, a.place p ≠ .queued .zombie key
  notReady : (a.proc p).state = .killed → ∀ j key, a.place p ≠ .queued (.ready j) key
  notCpu : (a.proc p).state = .killed → a.place p ≠ .cpu

/-- The parent that `pid` names stays. -/
def Kept (a : Life) (pid : Pid) : Prop := ∃ s, a.Staying s ∧ (a.proc s).pid.same pid

/-- What is known of init and of everybody's parent. -/
structure Parented (init : PcbId) (a : Life) : Prop where
  init_stays : a.Staying init
  init_alive : (a.proc init).state ≠ .killed
  init_pid : (a.proc init).pid.id = pidInit
  started : ∀ p, ¬ a.Free p → p ≠ init → (a.proc p).state ≠ .free
  parent : ∀ p, ¬ a.Free p → a.Kept (a.proc p).ppid

theorem Booted.parented (h : a.Booted b p) : a.Parented p := by
  obtain ⟨s, hproc⟩ := h.proc
  have hplace := h.runs.place
  have hstays : a.Staying p := ⟨h.runs.not_free, by simp [hplace], by simp [hproc], by simp [hproc]⟩
  have hself : ∀ q, ¬ a.Free q → q = p := fun q hq => not_not.mp fun hne => hq (h.others q hne).1
  refine ⟨hstays, by simp [hproc], by simp [hproc], fun q hq hne => absurd (hself q hq) hne,
    fun q hq => ⟨p, hstays, ?_⟩⟩
  rw [hself q hq, hproc, Pid.same_iff]
  exact ⟨rfl, rfl⟩

/-- The parent of a process is found, once init has left the state `FREE`. -/
theorem Parented.find (h : a.Parented init) (left : (a.proc init).state ≠ .free)
    (hp : ¬ a.Free p) : a.find (a.proc p).ppid ≠ none := by
  obtain ⟨s, hs, hsame⟩ := h.parent p hp
  have hstate : (a.proc s).state ≠ .free := by
    by_cases hsi : s = init
    · rw [hsi]; exact left
    · exact h.started s hs.allocated hsi
  intro hnone
  have := List.find?_eq_none.mp hnone s (List.mem_finRange s)
  simp [hstate, hsame] at this

/-- A process that is alive on a queue other than those for free PCBs and zombies. -/
theorem staying_of_alive {X : QName} {key : Key} (hX : X ≠ .pcbAvail ∧ X ≠ .zombie)
    (place : a.place p = .queued X key) (alive : (a.proc p).state ≠ .killed) : a.Staying p where
  allocated := by
    rintro ⟨k, hk⟩
    rw [place] at hk
    exact hX.1 (Place.queued.inj hk).1
  notZombie k hk := by
    rw [place] at hk
    exact hX.2 (Place.queued.inj hk).1
  notReady hkilled := absurd hkilled alive
  notCpu hkilled := absurd hkilled alive

/-- Only its place and its state decide whether a process stays. -/
theorem Staying.congr {c : Life} (hs : a.Staying p) (place : c.place p = a.place p)
    (state : (c.proc p).state = (a.proc p).state) : c.Staying p where
  allocated := by rw [Free, place]; exact hs.allocated
  notZombie := by rw [place]; exact hs.notZombie
  notReady := by rw [place, state]; exact hs.notReady
  notCpu := by rw [place, state]; exact hs.notCpu

/-- Whoever stays and is on the CPU was not killed. -/
theorem Staying.not_killed (hs : a.Staying p) (runs : a.Runs p) :
    (a.proc p).state ≠ .killed :=
  fun hkilled => hs.notCpu hkilled runs.place

/-- A change in which nobody who stays leaves, apart from some that nobody needs
any more as a parent. -/
theorem Parented.step {c : Life} (h : a.Parented init) (out : PcbId → Prop) (inside : ¬ out init)
    (stays : ∀ s, ¬ out s → a.Staying s → c.Staying s ∧ (c.proc s).pid = (a.proc s).pid)
    (alive : (c.proc init).state ≠ .killed)
    (started : ∀ x, ¬ c.Free x → x ≠ init → (c.proc x).state ≠ .free)
    (kept : ∀ x, ¬ c.Free x →
      ∃ s, ¬ out s ∧ a.Staying s ∧ (a.proc s).pid.same (c.proc x).ppid) :
    c.Parented init where
  init_stays := (stays init inside h.init_stays).1
  init_alive := alive
  init_pid := by rw [(stays init inside h.init_stays).2]; exact h.init_pid
  started := started
  parent x hx := by
    obtain ⟨s, hin, hs, hsame⟩ := kept x hx
    obtain ⟨hsc, hpid⟩ := stays s hin hs
    exact ⟨s, hsc, by rw [hpid]; exact hsame⟩

/-- What processes wait for plays no role. -/
theorem Parented.rewant (h : a.Parented init) (w : PcbId → Pid) :
    ({ a with want := w } : Life).Parented init := by
  refine h.step (fun _ => False) id (fun s _ hs => ⟨hs.congr rfl rfl, rfl⟩) h.init_alive
    h.started fun x hx => ?_
  obtain ⟨s, hs, hsame⟩ := h.parent x hx
  exact ⟨s, id, hs, hsame⟩

/-- A process that changes place, state or both, and stays if it did before. -/
theorem Parented.relocate (h : a.Parented init) {pl : Place} {f : Proc → Proc} (marks : Marks f)
    (old : ¬ a.Free p) (stays : a.Staying p → ((a.modify p f).move p pl).Staying p)
    (alive : p = init → (f (a.proc p)).state ≠ .killed)
    (started : p ≠ init → (f (a.proc p)).state ≠ .free) :
    ((a.modify p f).move p pl).Parented init := by
  refine h.step (fun _ => False) id (fun s _ hs => ?_) ?_ (fun x hx hne => ?_) fun x hx => ?_
  · by_cases hsp : s = p
    · subst hsp
      exact ⟨stays hs, by simp [marks.pid]⟩
    · exact ⟨hs.congr (by simp [hsp]) (by simp [hsp]), by simp [hsp]⟩
  · by_cases hip : init = p
    · simpa [hip] using alive hip.symm
    · simpa [hip] using h.init_alive
  · by_cases hxp : x = p
    · subst hxp
      simpa using started hne
    · simpa [hxp] using h.started x (by simpa [Free, hxp] using hx) hne
  · have hxa : ¬ a.Free x := by
      by_cases hxp : x = p
      · rwa [hxp]
      · simpa [Free, hxp] using hx
    have hppid : (((a.modify p f).move p pl).proc x).ppid = (a.proc x).ppid := by
      by_cases hxp : x = p <;> simp [hxp, marks.ppid]
    rw [hppid]
    obtain ⟨s, hs, hsame⟩ := h.parent x hxa
    exact ⟨s, id, hs, hsame⟩

/-- A process that goes to a queue alive. -/
theorem Parented.requeue (h : a.Parented init) {X : QName} {key : Key} {f : Proc → Proc}
    (marks : Marks f) (old : ¬ a.Free p) (hX : X ≠ .pcbAvail ∧ X ≠ .zombie)
    (alive : (f (a.proc p)).state ≠ .killed)
    (started : p ≠ init → (f (a.proc p)).state ≠ .free) :
    ((a.modify p f).move p (.queued X key)).Parented init :=
  h.relocate marks old (fun _ => staying_of_alive hX (by simp; rfl) (by simpa using alive))
    (fun _ => alive) started

/-- A PCB that is cleared, whose process was not staying. -/
theorem Parented.clear {c : Life} (h : a.Parented init) (gone : ¬ a.Staying p) (free : c.Free p)
    (others : ∀ x, x ≠ p → c.place x = a.place x ∧ c.proc x = a.proc x) : c.Parented init := by
  have hsp : ∀ s, a.Staying s → s ≠ p := by
    rintro s hs rfl
    exact gone hs
  have hold : ∀ x, ¬ c.Free x → x ≠ p ∧ ¬ a.Free x := by
    intro x hx
    have hxp : x ≠ p := by
      rintro rfl
      exact hx free
    exact ⟨hxp, by rwa [Free, ← (others x hxp).1]⟩
  refine h.step (fun _ => False) id (fun s _ hs => ?_) ?_ (fun x hx hxi => ?_) fun x hx => ?_
  · obtain ⟨hplace, hproc⟩ := others s (hsp s hs)
    exact ⟨hs.congr hplace (by rw [hproc]), by rw [hproc]⟩
  · rw [(others init (hsp init h.init_stays)).2]
    exact h.init_alive
  · obtain ⟨hxp, hxa⟩ := hold x hx
    rw [(others x hxp).2]
    exact h.started x hxa hxi
  · obtain ⟨hxp, hxa⟩ := hold x hx
    rw [(others x hxp).2]
    obtain ⟨s, hs, hsame⟩ := h.parent x hxa
    exact ⟨s, id, hs, hsame⟩

/-- Init is a parent for every pid of this host with the number of init. -/
theorem Parented.kept_init (h : a.Parented init) (sound : a.Sound) {pid : Pid}
    (host : pid.host = a.nextPid.host) (hid : pid.id = pidInit) :
    (a.proc init).pid.same pid := by
  rw [Pid.same_iff, (sound.home init h.init_stays.allocated).1, host, h.init_pid, hid]
  exact ⟨rfl, rfl⟩

/-- A process whose children have been handed over is nobody's only parent. -/
theorem Parented.handed (h : a.Parented init) (sound : a.Sound) (hp : p ≠ init)
    (family : a.Staying p → ∀ c, (a.proc c).ppid.same (a.proc p).pid →
      (a.proc c).ppid.id = pidInit) {x : PcbId} (hx : ¬ a.Free x) :
    ∃ s, s ≠ p ∧ a.Staying s ∧ (a.proc s).pid.same (a.proc x).ppid := by
  obtain ⟨s, hs, hsame⟩ := h.parent x hx
  by_cases hsp : s = p
  · subst hsp
    exact ⟨init, hp.symm, h.init_stays,
      h.kept_init sound (sound.home x hx).2 (family hs x (Pid.same_symm hsame))⟩
  · exact ⟨s, hsp, hs, hsame⟩

/-- A process that is killed where it waits.  In a ready queue it is on its way out, so it must not
be a parent there. -/
theorem Parented.kill (h : a.Parented init) (hne : p ≠ init) (hcpu : a.place p ≠ .cpu)
    (childless : ∀ j key, a.place p = .queued (.ready j) key →
      ∀ x, ¬ a.Free x → ¬ (a.proc p).pid.same (a.proc x).ppid) :
    (a.setState p .killed).Parented init := by
  refine h.step (fun s => s = p ∧ ∃ j key, a.place p = .queued (.ready j) key)
    (fun hout => hne hout.1.symm) (fun s hin hs => ?_) ?_ (fun x hx hxi => ?_) fun x hx => ?_
  · by_cases hsp : s = p
    · subst hsp
      exact ⟨⟨hs.allocated, hs.notZombie, fun _ j key hplace => hin ⟨rfl, j, key, hplace⟩,
        fun _ => hcpu⟩, by simp⟩
    · exact ⟨hs.congr rfl (by simp [hsp]), by simp [hsp]⟩
  · simpa [Ne.symm hne] using h.init_alive
  · by_cases hxp : x = p
    · simp [hxp]
    · simpa [hxp] using h.started x hx hxi
  · obtain ⟨s, hs, hsame⟩ := h.parent x hx
    have hppid : ((a.setState p .killed).proc x).ppid = (a.proc x).ppid := by
      by_cases hxp : x = p <;> simp [hxp]
    rw [hppid]
    refine ⟨s, ?_, hs, hsame⟩
    rintro ⟨rfl, j, key, hplace⟩
    exact childless j key hplace x hx hsame

/-- The parent of the child is on the CPU, and stays. -/
theorem Parented.fork {c : PcbId} {s : StackId} (h : a.Parented init) (hruns : a.Runs p)
    (alive : (a.proc p).state ≠ .killed) (hfree : a.Free c) (j : Fin nPriorities) :
    (Move.apply a (.fork p c s j)).Parented init := by
  have hsc : ∀ s, a.Staying s → s ≠ c := by
    rintro s hs rfl
    exact hs.allocated hfree
  have hstays : a.Staying p :=
    ⟨hruns.not_free, by simp [hruns.place], fun hk => absurd hk alive, fun hk => absurd hk alive⟩
  have hold : ∀ x, x ≠ c → ¬ ((Move.fork p c s j).apply a).Free x → ¬ a.Free x := by
    intro x hxc hx
    simpa [Move.apply, Free, hxc] using hx
  refine h.step (fun _ => False) id (fun s _ hs => ?_) ?_ (fun x hx hxi => ?_) fun x hx => ?_
  · have hne := hsc s hs
    exact ⟨hs.congr (by simp [Move.apply, hne]) (by simp [Move.apply, hne]),
      by simp [Move.apply, hne]⟩
  · simpa [Move.apply, hsc init h.init_stays] using h.init_alive
  · by_cases hxc : x = c
    · simp [Move.apply, hxc]
    · simpa [Move.apply, hxc] using h.started x (hold x hxc hx) hxi
  · by_cases hxc : x = c
    · refine ⟨p, id, hstays, ?_⟩
      simp [Move.apply, hxc, Pid.same_iff]
    · obtain ⟨s, hs, hsame⟩ := h.parent x (hold x hxc hx)
      exact ⟨s, id, hs, by simpa [Move.apply, hxc] using hsame⟩

/-- Children that are handed over get init as their parent. -/
theorem Parented.reparent (h : a.Parented init) (sound : a.Sound) (p : PcbId) :
    (Move.apply a (.reparent p)).Parented init := by
  have hkeep : ∀ q, ((Move.apply a (.reparent p)).proc q).state = (a.proc q).state ∧
      ((Move.apply a (.reparent p)).proc q).pid = (a.proc q).pid := by
    intro q
    simp only [Move.apply]
    split <;> exact ⟨rfl, rfl⟩
  refine h.step (fun _ => False) id (fun s _ hs => ⟨hs.congr rfl (hkeep s).1, (hkeep s).2⟩) ?_
    (fun x hx hxi => ?_) fun x hx => ?_
  · rw [(hkeep init).1]; exact h.init_alive
  · rw [(hkeep x).1]; exact h.started x hx hxi
  · by_cases hchild : (a.proc x).ppid.same (a.proc p).pid
    · refine ⟨init, id, h.init_stays, ?_⟩
      simp only [Move.apply, hchild, if_true]
      exact h.kept_init sound (sound.home x hx).2 rfl
    · obtain ⟨s, hs, hsame⟩ := h.parent x hx
      exact ⟨s, id, hs, by simpa [Move.apply, hchild] using hsame⟩

/-- `p` is not init, and no process needs it as a parent. -/
structure Spare (a : Life) (init p : PcbId) : Prop where
  ne : p ≠ init
  kept : ∀ x, ¬ a.Free x → ∃ s, s ≠ p ∧ a.Staying s ∧ (a.proc s).pid.same (a.proc x).ppid

/-- A zombie may go if nobody needs it. -/
theorem Parented.zombie (h : a.Parented init) (spare : a.Spare init p) (hp : ¬ a.Free p) :
    (Move.apply a (.zombie p)).Parented init := by
  refine h.step (· = p) spare.ne.symm (fun s hsp hs => ?_) ?_ (fun x hx hxi => ?_) fun x hx => ?_
  · exact ⟨hs.congr (by simp [Move.apply, hsp]) (by simp [Move.apply, hsp]),
      by simp [Move.apply, hsp]⟩
  · simpa [Move.apply, Ne.symm spare.ne] using h.init_alive
  · by_cases hxp : x = p
    · simp [Move.apply, hxp]
    · simpa [Move.apply, hxp] using
        h.started x (by simpa [Move.apply, Free, hxp] using hx) hxi
  · have hxa : ¬ a.Free x := by
      by_cases hxp : x = p
      · rwa [hxp]
      · simpa [Move.apply, Free, hxp] using hx
    have hppid : ((Move.apply a (.zombie p)).proc x).ppid = (a.proc x).ppid := by
      by_cases hxp : x = p <;> simp [Move.apply, hxp]
    rw [hppid]
    exact spare.kept x hxa

/-- The process that ends is freed, and the one that waits goes to a ready queue alive. -/
theorem Parented.deliver {q r : PcbId} {key : Key} (h : a.Parented init)
    (spare : a.Spare init p) (hruns : a.Runs p) (hr : a.place r = .queued .waiting key)
    (w : PcbId → Pid) : (Move.apply a (.deliver p q r w)).Parented init := by
  have hrp : r ≠ p := by
    rintro rfl
    simp [hruns.place] at hr
  have hold : ∀ x, ¬ (Move.apply a (.deliver p q r w)).Free x → x ≠ p ∧ ¬ a.Free x := by
    intro x hx
    have hxp : x ≠ p := by
      rintro rfl
      exact hx ⟨0, by simp [Move.apply, Ne.symm hrp]⟩
    by_cases hxr : x = r
    · exact ⟨hxp, by simp [Free, hxr, hr]⟩
    · exact ⟨hxp, by simpa [Move.apply, Free, hxp, hxr] using hx⟩
  refine h.step (· = p) spare.ne.symm (fun s hsp hs => ?_) ?_ (fun x hx hxi => ?_) fun x hx => ?_
  · by_cases hsr : s = r
    · subst hsr
      exact ⟨staying_of_alive (by simp)
        (show _ = Place.queued (.ready 0) 0 by simp [Move.apply]) (by simp [Move.apply]),
        by simp [Move.apply, hsp]⟩
    · exact ⟨hs.congr (by simp [Move.apply, hsp, hsr]) (by simp [Move.apply, hsp, hsr]),
        by simp [Move.apply, hsp, hsr]⟩
  · by_cases hir : init = r
    · simp [Move.apply, hir]
    · simpa [Move.apply, hir, Ne.symm spare.ne] using h.init_alive
  · obtain ⟨hxp, hxa⟩ := hold x hx
    by_cases hxr : x = r
    · simp [Move.apply, hxr]
    · simpa [Move.apply, hxp, hxr] using h.started x hxa hxi
  · obtain ⟨hxp, hxa⟩ := hold x hx
    have hppid : ((Move.apply a (.deliver p q r w)).proc x).ppid = (a.proc x).ppid := by
      by_cases hxr : x = r
      · simp [Move.apply, hxr, hrp]
      · simp [Move.apply, hxp, hxr]
    rw [hppid]
    exact spare.kept x hxa

/-- The dispatcher takes a killed process from a ready queue, where it did not stay. -/
theorem Parented.takeKilled {j : Fin nPriorities} {key : Key} (h : a.Parented init)
    (hplace : a.place p = .queued (.ready j) key) (hkilled : (a.proc p).state = .killed) :
    (a.move p .cpu).Parented init := by
  have hnext : ((a.modify p id).move p .cpu).Parented init :=
    h.relocate marks_id (by simp [Free, hplace])
      (fun hs => absurd hplace (hs.notReady hkilled j key))
      (fun hp => absurd hkilled (hp ▸ h.init_alive)) (by simp [hkilled])
  rwa [modify_id] at hnext

/-- A process that is forgotten is still in the table. -/
theorem Parented.abandon (h : a.Parented init) (hruns : a.Runs p) :
    (a.move p .limbo).Parented init := by
  have hnext : ((a.modify p id).move p .limbo).Parented init :=
    h.relocate marks_id hruns.not_free (fun _ => ⟨by simp [Free], by simp, by simp, by simp⟩)
      (fun hp => hp ▸ h.init_alive) (h.started p hruns.not_free)
  rwa [modify_id] at hnext

/-- A process that ends has been killed, or has handed its children over. -/
theorem Parented.spare_of_ends {i : Input} (h : a.Parented init) (sound : a.Sound)
    (spares : i.SparesInit init σ) (runs : a.Runs p)
    (ends : (a.proc p).state = .killed ∨ (i.call σ = some .exit ∧ p = σ.current ∧
      ∀ c, (a.proc c).ppid.same (a.proc p).pid → (a.proc c).ppid.id = pidInit)) :
    a.Spare init p := by
  have hne : p ≠ init := by
    rintro rfl
    rcases ends with hkilled | ⟨hcall, hcurrent, -⟩
    · exact h.init_alive hkilled
    · exact spares.1 hcall hcurrent.symm
  refine ⟨hne, fun x hx => h.handed sound hne (fun hs => ?_) hx⟩
  exact (ends.resolve_left (hs.not_killed runs)).2.2

end Life

/-- In a state that fits the concrete one, `KillsChildless` speaks of the abstract process. -/
theorem Input.KillsChildless.parents {i : Input} (childless : i.KillsChildless σ)
    (hrel : Rel (σ.enter i.user) a) (hcall : i.call σ = some .kill)
    (htarget : (σ.enter i.user).killTarget = some p) {j : Fin nPriorities} {key : Key}
    (hplace : a.place p = .queued (.ready j) key) {x : PcbId} (hx : ¬ a.Free x) :
    ¬ (a.proc p).pid.same (a.proc x).ppid := by
  have hpids : ∀ x, (a.proc x).pid = (σ.pcbs x).pid ∧ (a.proc x).ppid = (σ.pcbs x).ppid := by
    intro x
    rw [hrel.proc_of_enter]
    exact ⟨rfl, rfl⟩
  have hx' : x ∉ (σ.queues .pcbAvail).members := fun hmem => hx ((hrel.free_iff x).mpr hmem)
  rw [(hpids p).1, (hpids x).2]
  exact childless hcall p htarget
    ⟨j, (hrel.placed.mem_members (.ready j) p).mpr ⟨key, hplace⟩⟩ x hx'

/-- **Every move leaves everybody a parent**, if init is spared and `kill` finds no
parent in a ready queue. -/
theorem Move.parented {i : Input} {m : Move} (h : a.Parented init) (sound : a.Sound)
    (enabled : m.Enabled a) (origin : Origin σ i a m) (spares : i.SparesInit init σ)
    (childless : i.KillsChildless σ) : (m.apply a).Parented init := by
  cases m with
  | ready p j =>
    exact h.requeue (Life.marks_state _) enabled.not_free (by simp) (by simp) (by simp)
  | wake p j =>
    have hold : ¬ a.Free p := by
      obtain ⟨key, hkey | hkey⟩ := enabled <;> simp [Life.Free, hkey]
    exact h.requeue (Life.marks_state _) hold (by simp) (by simp) (by simp)
  | sleep p key =>
    exact h.requeue (Life.marks_state _) enabled.not_free (by simp) (by simp) (by simp)
  | blockRead p =>
    exact h.requeue Life.marks_blocked enabled.not_free (by simp) origin
      (h.started p enabled.not_free)
  | blockWait p w =>
    have hnext : ((a.setState p .waiting).move p (.queued .waiting (a.proc p).pid.id)).Parented
        init :=
      h.requeue (Life.marks_state _) enabled.1.not_free (by simp) (by simp) (by simp)
    exact hnext.rewant _
  | kill p =>
    obtain ⟨hcall, htarget, hother, hruns, hrel⟩ := origin
    have hne : p ≠ init := by
      rintro rfl
      exact spares.2 hcall htarget
    exact h.kill hne (fun hcpu => hother ((hruns p).mp hcpu)) fun j key hplace x hx =>
      childless.parents hrel hcall htarget hplace hx
  | fork p c s j => exact h.fork enabled.1 origin.1 enabled.2.1 j
  | recycle c =>
    exact h.clear (p := c) (fun hs => hs.allocated enabled) ⟨0, by simp [Move.apply]⟩
      fun x hx => ⟨by simp [Move.apply, hx], by simp [Move.apply, hx]⟩
  | reparent p => exact h.reparent sound p
  | zombie p =>
    exact h.zombie (h.spare_of_ends sound spares enabled.1 origin) enabled.1.not_free
  | deliver p q r w =>
    obtain ⟨hruns, -, -, hr, -⟩ := enabled
    exact h.deliver (h.spare_of_ends sound spares hruns origin) hruns hr w
  | reap q r w =>
    exact h.clear (p := r) (fun hs => hs.notZombie _ enabled.2.1) ⟨0, by simp [Move.apply]⟩
      fun x hx => ⟨by simp [Move.apply, hx], by simp [Move.apply, hx]⟩
  | take p =>
    obtain ⟨-, ⟨j, key, hplace⟩, -⟩ := enabled
    exact h.relocate (Life.marks_state _) (by simp [Life.Free, hplace])
      (fun _ => ⟨by simp [Life.Free], by simp, by simp, by simp⟩) (by simp) (by simp)
  | takeKilled p =>
    obtain ⟨-, ⟨j, key, hplace⟩, hkilled⟩ := enabled
    exact h.takeKilled hplace hkilled
  | abandon p => exact h.abandon enabled
  | write w => exact h.rewant w

/-- Nobody gets the state `FREE` except by being freed. -/
theorem Move.stays_started {m : Move} (started : (a.proc p).state ≠ .free)
    (kept : ¬ (m.apply a).Free p) : ((m.apply a).proc p).state ≠ .free := by
  cases m with
  | recycle c =>
    by_cases hp : p = c
    · exact absurd ⟨0, by simp [Move.apply, hp]⟩ kept
    · simpa [Move.apply, hp] using started
  | reparent q =>
    simp only [Move.apply]
    split <;> exact started
  | deliver q _ r w =>
    by_cases hr : p = r
    · simp [Move.apply, hr]
    · by_cases hp : p = q
      · exact absurd ⟨0, by simp [Move.apply, ← hp, hr]⟩ kept
      · simpa [Move.apply, hr, hp] using started
  | reap _ r w =>
    by_cases hp : p = r
    · exact absurd ⟨0, by simp [Move.apply, hp]⟩ kept
    · simpa [Move.apply, hp] using started
  | takeKilled q | abandon q | write w => exact started
  | ready q _ | wake q _ | sleep q _ | blockWait q _ | kill q | fork _ q _ _ | zombie q
  | take q => by_cases hp : p = q <;> simp [Move.apply, hp, started]
  | blockRead q =>
    by_cases hp : p = q
    · subst hp; simpa [Move.apply] using started
    · simpa [Move.apply, hp] using started

/-- **Every process has a parent** in a run that spares init and in which `kill`
finds no parent in a ready queue, once init has left the state `FREE`; and the next
entry of that kind does not panic for want of one. -/
theorem every_process_has_parent (boot : BootState b σ₀)
    (run : KernelRun (fun σ i => i.SparesInit σ₀.current σ ∧ i.KillsChildless σ) σ₀ tr σ)
    (left : (σ.pcbs σ₀.current).state ≠ .free) :
    σ.EveryParent ∧ ∀ i : Input, i.SparesInit σ₀.current σ → i.KillsChildless σ →
      ∀ m code, kernelEntry i σ ≠ .error (.kpanic m "no process parent" code) := by
  obtain ⟨a, hrel, hsound, hrest, hparented⟩ := KernelRun.invariant
    (I := Life.Parented σ₀.current) boot (fun _ hboot => hboot.parented)
    (fun _ _ _ _ good hs hp enabled caused =>
      Move.parented hp hs enabled caused.1 good.1 good.2) run
  have hleft : (a.proc σ₀.current).state ≠ .free := by rwa [← hrel.state]
  refine ⟨fun p hp => ?_, fun i spares childless m code herror => ?_⟩
  · have hfree : ¬ a.Free p := fun h => hp ((hrel.free_iff p).mp h)
    rw [hrel.find, hrel.ppid]
    exact Option.isSome_iff_ne_none.mpr (hparented.find hleft hfree)
  · obtain ⟨-, horphan⟩ := wp_error (x := kernelEntry i) (kernelEntry_spec hrel hsound hrest i)
      herror
    obtain ⟨c, p, hmoves, hruns, hnone⟩ := horphan rfl
    -- the parents are there at every life that the entry passes through
    obtain ⟨-, hc, hcleft⟩ := hmoves.invariant
      (I := fun d => d.Sound ∧ d.Parented σ₀.current ∧ (d.proc σ₀.current).state ≠ .free)
      (fun d n hd enabled origin => by
        have hnext := Move.parented hd.2.1 hd.1 enabled origin spares childless
        exact ⟨Move.sound hd.1 enabled, hnext,
          Move.stays_started hd.2.2 hnext.init_stays.allocated⟩)
      ⟨hsound, hparented, hleft⟩
    exact hc.find hcleft hruns.not_free hnone

/-- Init forks a child (pid 2), which forks a grandchild (pid 3); init kills the
child, which is in a ready queue, and collects it; the grandchild is next. -/
def orphanRun : List Input :=
  [callInput 1 (fun _ => 0) blankHeap, clockInput (fun _ => 0) blankHeap,
    callInput 1 (fun _ => 0) blankHeap, clockInput (fun _ => 0) blankHeap,
    callInput 4 (fun _ => 2) blankHeap, clockInput (fun _ => 0) blankHeap,
    clockInput (fun _ => 0) blankHeap, callInput 3 (fun _ => 16) blankHeap,
    clockInput (fun _ => 0) blankHeap]

/-- The grandchild exits, and the kernel panics. -/
theorem orphan_panics :
    ¬ ∀ (b : Boot) (σ₀ : State) (tr : List (State × Input)) (σ : State), BootState b σ₀ →
      KernelRun (fun σ i => i.SparesInit σ₀.current σ) σ₀ tr σ →
      σ.EveryParent ∧ ∀ i : Input, i.SparesInit σ₀.current σ →
        ∀ m code, kernelEntry i σ ≠ .error (.kpanic m "no process parent" code) := by
  intro h
  have hrun : bootTest (fun σ i => i.SparesInit 0 σ) blankBoot orphanRun
      fun σ => decide ((callInput 0 (fun _ => 0) blankHeap).SparesInit 0 σ) &&
        match kernelEntry (callInput 0 (fun _ => 0) blankHeap) σ with
        | .ok _ => false
        | .error e => decide (e = .kpanic "_zombify" "no process parent" 0) := by
    decide +kernel
  obtain ⟨σ₀, tr, σ, hboot, hgood, -, htest⟩ := bootTest_run hrun
  have hzero : σ₀.current = 0 := blankBoot_current hboot
  obtain ⟨hspares, hpanic⟩ := Bool.and_eq_true_iff.mp htest
  have hnext := (h _ _ _ _ hboot (by rw [hzero]; exact hgood)).2 _
    (by rw [hzero]; exact of_decide_eq_true hspares) "_zombify" 0
  split at hpanic
  · cases hpanic
  · rename_i e herror
    rw [of_decide_eq_true hpanic] at herror
    exact hnext herror

/-- In the family of `familyRun` the grandchild forks, exits, and hands its child over to init, who
kills it; two more have exited or been killed before the last tick. -/
theorem every_process_has_parent_family : ∃ σ₀ tr σ, BootState blankBoot σ₀ ∧
    KernelRun (fun σ i => i.SparesInit σ₀.current σ ∧ i.KillsChildless σ) σ₀ tr σ ∧
    tr.length = 14 ∧ (σ.queues .zombie).members.length = 2 ∧ σ.EveryParent := by
  have hrun : bootTest (fun σ i => i.SparesInit 0 σ ∧ i.KillsChildless σ) blankBoot
      (familyRun ++ [clockInput (fun _ => 0) blankHeap, callInput 1 (fun _ => 0) blankHeap,
        callInput 0 (fun _ => 0) blankHeap, callInput 4 (fun _ => 6) blankHeap,
        clockInput (fun _ => 0) blankHeap]) fun σ =>
      decide ((σ.pcbs 0).state ≠ .free) &&
        decide ((σ.queues .zombie).members.length = 2) := by
    decide +kernel
  obtain ⟨σ₀, tr, σ, hboot, hgood, htr, htest⟩ := bootTest_run hrun
  rw [Bool.and_eq_true, decide_eq_true_eq, decide_eq_true_eq] at htest
  obtain ⟨hleft, hzombies⟩ := htest
  have hzero : σ₀.current = 0 := blankBoot_current hboot
  rw [← hzero] at hgood hleft
  have hlen : tr.length = 14 := by simpa [familyRun] using congrArg List.length htr
  exact ⟨σ₀, tr, σ, hboot, hgood, hlen, hzombies, (every_process_has_parent hboot hgood hleft).1⟩

end Cumulonimbus
