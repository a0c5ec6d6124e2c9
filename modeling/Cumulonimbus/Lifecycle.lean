import Cumulonimbus.Process

/-!
# The life of a process

The abstract model of process management.  A process is in exactly one place:
on one of the kernel's queues, on the CPU, or nowhere (`limbo`), and the kernel
moves processes about one at a time.  A move has a condition under which it may
happen and an effect; every entry into the kernel is a sequence of moves
(`Refinement.lean`), so a property that every move keeps holds of every
reachable kernel state.

Order within a queue plays no role here: a place remembers the queue and the key
only.
-/

namespace Cumulonimbus

/-- Where a process is. -/
inductive Place
  | queued (X : QName) (key : Key)
  | cpu
  | limbo
  deriving DecidableEq

/-- What the life of a process reads of its PCB. -/
structure Proc where
  state : ProcState
  pid : Pid
  ppid : Pid
  status : UInt32
  stack : Option StackId

def Pcb.proc (b : Pcb) : Proc := ⟨b.state, b.pid, b.ppid, b.status, b.stack⟩

/-- Where every process is, its PCB, what it waits for if it waits, the free
stacks and the next pid. -/
@[ext] structure Life where
  place : PcbId → Place
  proc : PcbId → Proc
  want : PcbId → Pid
  freeStack : StackId → Prop
  nextPid : Pid

namespace Life

variable (a : Life)

/-- The PCB is on the free list. -/
def Free (p : PcbId) : Prop := ∃ key, a.place p = .queued .pcbAvail key

/-- `_pcb_find` over the abstract table. -/
def find (pid : Pid) : Option PcbId :=
  (List.finRange nPcbs).find? fun p =>
    decide ((a.proc p).state ≠ .free) && (a.proc p).pid.same pid

/-- `q` waits, and for `p` or for anyone. -/
def Awaits (q p : PcbId) : Prop :=
  (a.proc q).state = .waiting ∧
    ((a.want q).id = 0 ∨ (a.want q).same (a.proc p).pid)

/-- No process is on the CPU. -/
def Idle : Prop := ∀ p, a.place p ≠ .cpu

/-- Exactly `p` is on the CPU. -/
def Runs (p : PcbId) : Prop := ∀ q, a.place q = .cpu ↔ q = p

/-- Put `p` into another place. -/
def move (p : PcbId) (pl : Place) : Life :=
  { a with place := Function.update a.place p pl }

/-- Change what is known of `p`. -/
def modify (p : PcbId) (f : Proc → Proc) : Life :=
  { a with proc := Function.update a.proc p (f (a.proc p)) }

def setState (p : PcbId) (st : ProcState) : Life :=
  a.modify p fun b => { b with state := st }

/-- Clear the PCB of `p` and put it and its stack on the free lists. -/
def release (p : PcbId) : Life :=
  { (a.modify p fun _ => Pcb.proc {}).move p (.queued .pcbAvail 0) with
    freeStack := fun s => a.freeStack s ∨ (a.proc p).stack = some s }

end Life

/-- The moves of process management. -/
inductive Move
  /-- the running process becomes ready -/
  | ready (p : PcbId) (i : Fin nPriorities)
  /-- a sleeper, or a reader, becomes ready -/
  | wake (p : PcbId) (i : Fin nPriorities)
  | sleep (p : PcbId) (key : Key)
  | blockRead (p : PcbId)
  /-- the running process waits for a child, as the pid says -/
  | blockWait (p : PcbId) (w : Pid)
  | kill (p : PcbId)
  /-- `p` creates the process `c`, with the stack `s` -/
  | fork (p c : PcbId) (s : StackId) (i : Fin nPriorities)
  /-- the free PCB `c` is taken and given back -/
  | recycle (c : PcbId)
  /-- the children of `p` go to init -/
  | reparent (p : PcbId)
  /-- `p` ends and nobody waits for it -/
  | zombie (p : PcbId)
  /-- `p` ends while its parent `q` waits for it; `r` is taken off the waiting queue -/
  | deliver (p q r : PcbId) (w : PcbId → Pid)
  /-- the zombie `q` is collected; `r` is taken off the zombie queue -/
  | reap (q r : PcbId) (w : PcbId → Pid)
  /-- the dispatcher picks `p` -/
  | take (p : PcbId)
  /-- the dispatcher takes a killed process off its queue -/
  | takeKilled (p : PcbId)
  /-- the running process is forgotten -/
  | abandon (p : PcbId)
  /-- a program or a call on its behalf overwrites what processes wait for -/
  | write (w : PcbId → Pid)

namespace Move

/-- The condition under which a move may happen. -/
def Enabled (a : Life) : Move → Prop
  | .ready p _ => a.Runs p
  | .wake p _ =>
    ∃ key, a.place p = .queued .sleep key ∨ a.place p = .queued .reading key
  | .sleep p _ => a.Runs p
  | .blockRead p => a.Runs p
  | .blockWait p w =>
    a.Runs p ∧
      (w.id = 0 → ∀ c, (a.proc c).ppid.same (a.proc p).pid → (a.proc c).state ≠ .zombie) ∧
      (w.id ≠ 0 → ∃ q, a.find w = some q ∧ (a.proc q).state ≠ .zombie)
  | .kill p => (a.proc p).state ≠ .free
  | .fork p c s _ => a.Runs p ∧ a.Free c ∧ a.freeStack s
  | .recycle c => a.Free c
  | .reparent p => a.Runs p
  | .zombie p => a.Runs p ∧ ∃ q, a.find (a.proc p).ppid = some q ∧ ¬ a.Awaits q p
  | .deliver p q r w =>
    a.Runs p ∧ a.find (a.proc p).ppid = some q ∧ a.Awaits q p ∧
      a.place r = .queued .waiting (a.proc q).pid.id ∧
      ∀ x, (a.proc x).state = .waiting → w x = a.want x ∨ w x = (a.proc p).pid
  | .reap q r w =>
    (a.proc q).state = .zombie ∧ a.place r = .queued .zombie (a.proc q).pid.id ∧
      ∀ x, (a.proc x).state = .waiting → w x = a.want x ∨ w x = (a.proc q).pid
  | .take p =>
    a.Idle ∧ (∃ i key, a.place p = .queued (.ready i) key) ∧ (a.proc p).state = .ready
  | .takeKilled p =>
    a.Idle ∧ (∃ i key, a.place p = .queued (.ready i) key) ∧ (a.proc p).state = .killed
  | .abandon p => a.Runs p
  | .write _ => True

/-- The state after a move. -/
def apply (a : Life) : Move → Life
  | .ready p i => (a.setState p .ready).move p (.queued (.ready i) 0)
  | .wake p i => (a.setState p .ready).move p (.queued (.ready i) 0)
  | .sleep p key => (a.setState p .sleeping).move p (.queued .sleep key)
  | .blockRead p =>
    (a.modify p fun b => { b with status := UInt32.ofNat ProcState.blocked.code }).move p
      (.queued .reading (a.proc p).pid.id)
  | .blockWait p w =>
    { (a.setState p .waiting).move p (.queued .waiting (a.proc p).pid.id) with
      want := Function.update a.want p w }
  | .kill p => a.setState p .killed
  | .fork p c s i =>
    { (a.modify c fun b =>
        { b with
          state := .ready, pid := a.nextPid, ppid := (a.proc p).pid, stack := some s }).move c
        (.queued (.ready i) 0) with
      freeStack := fun t => a.freeStack t ∧ t ≠ s
      nextPid := { a.nextPid with id := a.nextPid.id + 1 } }
  | .recycle c => (a.modify c fun _ => Pcb.proc {}).move c (.queued .pcbAvail 0)
  | .reparent p =>
    { a with
      proc := fun q =>
        if (a.proc q).ppid.same (a.proc p).pid then
          { a.proc q with ppid := { (a.proc q).ppid with id := pidInit } }
        else a.proc q }
  | .zombie p => (a.setState p .zombie).move p (.queued .zombie (a.proc p).pid.id)
  | .deliver p _ r w =>
    { ((a.release p).setState r .ready).move r (.queued (.ready 0) 0) with want := w }
  | .reap _ r w => { a.release r with want := w }
  | .take p => (a.setState p .running).move p .cpu
  | .takeKilled p => a.move p .cpu
  | .abandon p => a.move p .limbo
  | .write w => { a with want := w }

end Move

/-- A sequence of moves, each of them satisfying `ok` where it happens. -/
inductive Moves (ok : Life → Move → Prop) (a : Life) : Life → Prop
  | refl : Moves ok a a
  | snoc {b : Life} {m : Move} (run : Moves ok a b) (enabled : m.Enabled b) (allowed : ok b m) :
      Moves ok a (m.apply b)

namespace Moves

variable {ok ok' : Life → Move → Prop} {a b c : Life}

/-- One move that is allowed. -/
theorem single {m : Move} (enabled : m.Enabled a) (allowed : ok a m) :
    Moves ok a (m.apply a) :=
  .snoc .refl enabled allowed

/-- Two sequences, one behind the other. -/
theorem trans (h : Moves ok a b) (h' : Moves ok b c) : Moves ok a c := by
  induction h' with
  | refl => exact h
  | snoc _ enabled allowed ih => exact ih.snoc enabled allowed

/-- A wider permission allows the same moves. -/
theorem mono (h : ∀ b m, ok b m → ok' b m) (run : Moves ok a b) : Moves ok' a b := by
  induction run with
  | refl => exact .refl
  | snoc _ enabled allowed ih => exact ih.snoc enabled (h _ _ allowed)

/-- A sequence of moves that keep an invariant, each of them with what the invariant says
where it happens. -/
theorem strengthen {I : Life → Prop}
    (keep : ∀ b m, I b → m.Enabled b → ok b m → I (m.apply b) ∧ ok' b m)
    (run : Moves ok a b) (start : I a) : Moves ok' a b ∧ I b := by
  induction run with
  | refl => exact ⟨.refl, start⟩
  | snoc _ enabled allowed ih =>
    obtain ⟨hrun, hinv⟩ := ih
    obtain ⟨hnext, hok⟩ := keep _ _ hinv enabled allowed
    exact ⟨hrun.snoc enabled hok, hnext⟩

/-- What every allowed move keeps, every sequence of allowed moves keeps. -/
theorem invariant {I : Life → Prop}
    (keep : ∀ b m, I b → m.Enabled b → ok b m → I (m.apply b))
    (run : Moves ok a b) (start : I a) : I b := by
  induction run with
  | refl => exact start
  | snoc _ enabled allowed ih => exact keep _ _ ih enabled allowed

end Moves

/-- Some sequence of allowed moves leads to a process that has no parent while it
is on the CPU. -/
def Orphaned (ok : Life → Move → Prop) (a : Life) : Prop :=
  ∃ b p, Moves ok a b ∧ b.Runs p ∧ b.find (b.proc p).ppid = none

/-- An orphan that comes up later comes up. -/
theorem Orphaned.after {ok : Life → Move → Prop} {a b : Life} (run : Moves ok a b)
    (h : Orphaned ok b) : Orphaned ok a := by
  obtain ⟨c, p, hrun, hp⟩ := h
  exact ⟨c, p, run.trans hrun, hp⟩

/-- The same under a wider permission. -/
theorem Orphaned.mono {ok ok' : Life → Move → Prop} {a : Life}
    (h : ∀ b m, ok b m → ok' b m) (orphaned : Orphaned ok a) : Orphaned ok' a := by
  obtain ⟨c, p, hrun, hp⟩ := orphaned
  exact ⟨c, p, hrun.mono h, hp⟩

/-! ## Reading a state after a move -/

namespace Life

variable (a : Life) (p q : PcbId)

@[simp] theorem move_place (pl : Place) :
    (a.move p pl).place q = if q = p then pl else a.place q := by
  by_cases h : q = p
  · subst h; simp [move]
  · simp [move, h]

@[simp] theorem move_proc (pl : Place) : (a.move p pl).proc = a.proc := rfl
@[simp] theorem move_want (pl : Place) : (a.move p pl).want = a.want := rfl
@[simp] theorem move_freeStack (pl : Place) : (a.move p pl).freeStack = a.freeStack := rfl
@[simp] theorem move_nextPid (pl : Place) : (a.move p pl).nextPid = a.nextPid := rfl

@[simp] theorem modify_place (f : Proc → Proc) : (a.modify p f).place = a.place := rfl
@[simp] theorem modify_want (f : Proc → Proc) : (a.modify p f).want = a.want := rfl
@[simp] theorem modify_freeStack (f : Proc → Proc) : (a.modify p f).freeStack = a.freeStack := rfl
@[simp] theorem modify_nextPid (f : Proc → Proc) : (a.modify p f).nextPid = a.nextPid := rfl

@[simp] theorem modify_proc (f : Proc → Proc) :
    (a.modify p f).proc q = if q = p then f (a.proc p) else a.proc q := by
  by_cases h : q = p
  · subst h; simp [modify]
  · simp [modify, h]

@[simp] theorem modify_id : a.modify p id = a := by simp [modify]

@[simp] theorem setState_place (st : ProcState) : (a.setState p st).place = a.place := rfl
@[simp] theorem setState_want (st : ProcState) : (a.setState p st).want = a.want := rfl
@[simp] theorem setState_freeStack (st : ProcState) :
    (a.setState p st).freeStack = a.freeStack := rfl
@[simp] theorem setState_nextPid (st : ProcState) : (a.setState p st).nextPid = a.nextPid := rfl

@[simp] theorem setState_proc (st : ProcState) :
    (a.setState p st).proc q = if q = p then { a.proc p with state := st } else a.proc q := by
  simp [setState]

@[simp] theorem release_place :
    (a.release p).place q = if q = p then .queued .pcbAvail 0 else a.place q := by
  by_cases h : q = p
  · subst h; simp [release, move]
  · simp [release, move, h]

@[simp] theorem release_proc :
    (a.release p).proc q = if q = p then Pcb.proc {} else a.proc q := by
  by_cases h : q = p
  · subst h; simp [release, modify, move]
  · simp [release, modify, move, h]

@[simp] theorem release_want : (a.release p).want = a.want := rfl
@[simp] theorem release_nextPid : (a.release p).nextPid = a.nextPid := rfl
@[simp] theorem release_freeStack (s : StackId) :
    (a.release p).freeStack s ↔ a.freeStack s ∨ (a.proc p).stack = some s := Iff.rfl

end Life

/-! ## What holds of every life

Two processes never share a stack, no process holds a free one, the state byte of
a process fits the place it is in, waiting processes and zombies are filed under
their own pid, and all pids are of this host. -/

/-- The state bytes a process may have in a place.  `kill` marks a process
wherever it is, and a reader keeps the state it had on the CPU. -/
def Place.Fits : Place → ProcState → Prop
  | .queued .pcbAvail _, st => st = .free
  | .queued (.ready _) _, st => st = .ready ∨ st = .killed
  | .queued .sleep _, st => st = .sleeping ∨ st = .killed
  | .queued .reading _, st => st = .running ∨ st = .free ∨ st = .killed
  | .queued .waiting _, st => st = .waiting ∨ st = .killed
  | .queued .zombie _, st => st = .zombie ∨ st = .killed
  | .cpu, st => st = .running ∨ st = .free ∨ st = .killed
  | .limbo, st => st = .running ∨ st = .free ∨ st = .killed

/-- The key under which a process with the given pid is filed. -/
def Place.Keyed : Place → UInt32 → Prop
  | .queued .waiting key, id => key = id
  | .queued .zombie key, id => key = id
  | _, _ => True

namespace Life

/-- Every stack is free or has at most one owner. -/
structure Apart (a : Life) : Prop where
  own : ∀ p q s, (a.proc p).stack = some s → (a.proc q).stack = some s → p = q
  held : ∀ p s, (a.proc p).stack = some s → ¬ a.freeStack s

structure Sound (a : Life) : Prop extends Apart a where
  fits : ∀ p, (a.place p).Fits (a.proc p).state
  keyed : ∀ p, (a.place p).Keyed (a.proc p).pid.id
  home : ∀ p, ¬ a.Free p →
    (a.proc p).pid.host = a.nextPid.host ∧ (a.proc p).ppid.host = a.nextPid.host

variable {a : Life} {p q : PcbId}

/-- The process that has the processor runs, or has just been freed or killed. -/
theorem Sound.state_cpu (h : a.Sound) (hp : a.place p = .cpu) :
    (a.proc p).state = .running ∨ (a.proc p).state = .free ∨ (a.proc p).state = .killed := by
  simpa [hp, Place.Fits] using h.fits p

/-- A PCB in the pool is free. -/
theorem Sound.state_free (h : a.Sound) (hp : a.Free p) : (a.proc p).state = .free := by
  obtain ⟨key, hkey⟩ := hp
  simpa [hkey, Place.Fits] using h.fits p

/-- A process whose state fits the queue `X` alone is there, and where `X` is filed by pids, under
its pid. -/
theorem Sound.place_of {X : QName} {st : ProcState} (h : a.Sound)
    (only : ∀ pl : Place, pl.Fits st → ∃ key, pl = .queued X key)
    (filed : ∀ key id, (Place.queued X key).Keyed id → key = id) (hp : (a.proc p).state = st) :
    a.place p = .queued X (a.proc p).pid.id := by
  have hfits := h.fits p
  have hkeyed := h.keyed p
  rw [hp] at hfits
  obtain ⟨key, hplace⟩ := only _ hfits
  rw [hplace] at hkeyed ⊢
  rw [filed key _ hkeyed]

/-- A waiting process is filed under its pid. -/
theorem Sound.place_waiting (h : a.Sound) (hp : (a.proc p).state = .waiting) :
    a.place p = .queued .waiting (a.proc p).pid.id := by
  refine h.place_of (fun pl hfits => ?_) (fun _ _ hkeyed => hkeyed) hp
  rcases pl with ⟨X, key⟩ | _ | _
  · cases X <;> simp_all [Place.Fits]
  all_goals simp [Place.Fits] at hfits

/-- A zombie is filed under its pid. -/
theorem Sound.place_zombie (h : a.Sound) (hp : (a.proc p).state = .zombie) :
    a.place p = .queued .zombie (a.proc p).pid.id := by
  refine h.place_of (fun pl hfits => ?_) (fun _ _ hkeyed => hkeyed) hp
  rcases pl with ⟨X, key⟩ | _ | _
  · cases X <;> simp_all [Place.Fits]
  all_goals simp [Place.Fits] at hfits

/-- So a process in any other state is not in the pool. -/
theorem Sound.not_free (h : a.Sound) (hp : (a.proc p).state ≠ .free) : ¬ a.Free p :=
  fun hfree => hp (h.state_free hfree)

/-- A process that runs has the processor. -/
theorem Runs.place (h : a.Runs p) : a.place p = .cpu := (h p).mpr rfl

/-- So it is not in the pool. -/
theorem Runs.not_free (h : a.Runs p) : ¬ a.Free p := by
  rintro ⟨key, hkey⟩
  simp [h.place] at hkey

/-- A change of a PCB that leaves the pids and the stack alone. -/
structure Marks (f : Proc → Proc) : Prop where
  stack : ∀ b, (f b).stack = b.stack
  pid : ∀ b, (f b).pid = b.pid
  ppid : ∀ b, (f b).ppid = b.ppid

/-- Storing a state is such a change. -/
theorem marks_state (st : ProcState) : Marks fun b => { b with state := st } :=
  ⟨fun _ => rfl, fun _ => rfl, fun _ => rfl⟩

/-- So is storing a state together with a status. -/
theorem marks_blocked :
    Marks fun b => { b with status := UInt32.ofNat ProcState.blocked.code } :=
  ⟨fun _ => rfl, fun _ => rfl, fun _ => rfl⟩

/-- And so is changing nothing. -/
theorem marks_id : Marks id := ⟨fun _ => rfl, fun _ => rfl, fun _ => rfl⟩

/-- Clearing a PCB keeps the stacks apart, whether its stack is freed or lost. -/
theorem Sound.clear (h : a.Sound) (p : PcbId) {free : StackId → Prop}
    (hfree : ∀ s, free s → a.freeStack s ∨ (a.proc p).stack = some s) :
    Sound { (a.modify p fun _ => Pcb.proc {}).move p (.queued .pcbAvail 0) with
      freeStack := free } where
  own x y s hx hy := by
    by_cases hxp : x = p
    · simp [hxp, Pcb.proc] at hx
    · by_cases hyp : y = p
      · simp [hyp, Pcb.proc] at hy
      · exact h.own x y s (by simpa [hxp] using hx) (by simpa [hyp] using hy)
  held x s hx := by
    by_cases hxp : x = p
    · simp [hxp, Pcb.proc] at hx
    · have hx' : (a.proc x).stack = some s := by simpa [hxp] using hx
      intro hs
      rcases hfree s hs with hold | hp
      · exact h.held x s hx' hold
      · exact hxp (h.own x p s hx' hp)
  fits x := by
    by_cases hxp : x = p
    · simp [hxp, Place.Fits, Pcb.proc]
    · simpa [hxp] using h.fits x
  keyed x := by
    by_cases hxp : x = p
    · simp [hxp, Place.Keyed]
    · simpa [hxp] using h.keyed x
  home x hx := by
    by_cases hxp : x = p
    · exact absurd ⟨0, by simp [hxp]⟩ hx
    · have : ¬ a.Free x := by simpa [Free, hxp] using hx
      simpa [hxp] using h.home x this

/-- The stack of the process is freed. -/
theorem Sound.release (h : a.Sound) (p : PcbId) : (a.release p).Sound :=
  h.clear p fun _ hs => hs

/-- A PCB that is taken and given back had no stack. -/
theorem Sound.recycle (h : a.Sound) (c : PcbId) : (Move.apply a (.recycle c)).Sound :=
  h.clear c fun _ => Or.inl

/-- A process that moves and changes its state keeps its stack and its pids. -/
theorem Sound.relocate (h : a.Sound) (pl : Place) {f : Proc → Proc} (marks : Marks f)
    (old : ¬ a.Free p) (fits : pl.Fits (f (a.proc p)).state)
    (keyed : pl.Keyed (a.proc p).pid.id) : ((a.modify p f).move p pl).Sound where
  own x y s hx hy := by
    refine h.own x y s ?_ ?_
    · by_cases hxp : x = p
      · subst hxp; simpa [marks.stack] using hx
      · simpa [hxp] using hx
    · by_cases hyp : y = p
      · subst hyp; simpa [marks.stack] using hy
      · simpa [hyp] using hy
  held x s hx := by
    refine h.held x s ?_
    by_cases hxp : x = p
    · subst hxp; simpa [marks.stack] using hx
    · simpa [hxp] using hx
  fits x := by
    by_cases hxp : x = p
    · simpa [hxp] using fits
    · simpa [hxp] using h.fits x
  keyed x := by
    by_cases hxp : x = p
    · simpa [hxp, marks.pid] using keyed
    · simpa [hxp] using h.keyed x
  home x hx := by
    by_cases hxp : x = p
    · simpa [hxp, marks.pid, marks.ppid] using h.home p old
    · have : ¬ a.Free x := by simpa [Free, hxp] using hx
      simpa [hxp] using h.home x this

/-- A process that stays where it is. -/
theorem Sound.remark (h : a.Sound) {f : Proc → Proc} (marks : Marks f) (old : ¬ a.Free p)
    (fits : (a.place p).Fits (f (a.proc p)).state) : (a.modify p f).Sound := by
  have : (a.modify p f).move p (a.place p) = a.modify p f := by
    ext1
    · funext q; by_cases hq : q = p <;> simp [hq]
    all_goals rfl
  rw [← this]
  exact h.relocate _ marks old fits (h.keyed p)

/-- What processes wait for plays no role. -/
theorem Sound.rewant (h : a.Sound) (w : PcbId → Pid) : ({ a with want := w } : Life).Sound :=
  ⟨⟨h.own, h.held⟩, h.fits, h.keyed, h.home⟩

/-- A process is marked where it is, and every place but the free list may hold a killed one. -/
theorem Sound.kill (h : a.Sound) (hp : (a.proc p).state ≠ .free) : (a.setState p .killed).Sound := by
  refine h.remark (marks_state _) (h.not_free hp) ?_
  have hfits := h.fits p
  cases hpl : a.place p with
  | queued X key =>
    cases X with
    | pcbAvail => exact absurd (by simpa [hpl, Place.Fits] using hfits) hp
    | _ => simp [Place.Fits]
  | _ => simp [Place.Fits]

/-- The child takes the stack off the free list, and its pids are of this host as its parent's
are. -/
theorem Sound.fork {c : PcbId} {s : StackId} (h : a.Sound) (hp : a.Runs p) (hs : a.freeStack s)
    (i : Fin nPriorities) : (Move.apply a (.fork p c s i)).Sound where
  own x y t hx hy := by
    simp only [Move.apply, move_proc, modify_proc] at hx hy
    split at hx <;> split at hy
    · simp_all
    · exact absurd (by simp_all) (h.held y s (by simp_all))
    · exact absurd (by simp_all) (h.held x s (by simp_all))
    · exact h.own x y t hx hy
  held x t hx := by
    simp only [Move.apply, move_proc, modify_proc] at hx
    split at hx
    · simp_all [Move.apply]
    · exact fun ⟨hfree, _⟩ => h.held x t hx hfree
  fits x := by
    by_cases hx : x = c
    · simp [Move.apply, hx, Place.Fits]
    · simpa [Move.apply, hx] using h.fits x
  keyed x := by
    by_cases hx : x = c
    · simp [Move.apply, hx, Place.Keyed]
    · simpa [Move.apply, hx] using h.keyed x
  home x hx := by
    by_cases hxc : x = c
    · simpa [Move.apply, hxc] using (h.home p hp.not_free).1
    · have : ¬ a.Free x := by simpa [Move.apply, Free, hxc] using hx
      simpa [Move.apply, hxc] using h.home x this

/-- Only the number in a parent's pid changes. -/
theorem Sound.reparent (h : a.Sound) (p : PcbId) : (Move.apply a (.reparent p)).Sound := by
  have hkeep : ∀ q, ((Move.apply a (.reparent p)).proc q).stack = (a.proc q).stack ∧
      ((Move.apply a (.reparent p)).proc q).state = (a.proc q).state ∧
      ((Move.apply a (.reparent p)).proc q).pid = (a.proc q).pid ∧
      ((Move.apply a (.reparent p)).proc q).ppid.host = (a.proc q).ppid.host := by
    intro q
    simp only [Move.apply]
    split <;> exact ⟨rfl, rfl, rfl, rfl⟩
  refine ⟨⟨fun x y s hx hy => ?_, fun x s hx => ?_⟩, fun x => ?_, fun x => ?_, fun x hx => ?_⟩
  · exact h.own x y s ((hkeep x).1 ▸ hx) ((hkeep y).1 ▸ hy)
  · exact h.held x s ((hkeep x).1 ▸ hx)
  · rw [(hkeep x).2.1]; exact h.fits x
  · rw [(hkeep x).2.2.1]; exact h.keyed x
  · rw [(hkeep x).2.2.1, (hkeep x).2.2.2]; exact h.home x hx

/-- The process that waits is another one than the process that ends. -/
theorem Sound.deliver {r : PcbId} {key : Key} (h : a.Sound) (hp : a.Runs p)
    (hr : a.place r = .queued .waiting key) :
    (((a.release p).setState r .ready).move r (.queued (.ready 0) 0)).Sound := by
  have hrp : r ≠ p := by
    rintro rfl
    simp [hp.place] at hr
  have hold : ¬ (a.release p).Free r := by simp [Free, hrp, hr]
  exact (h.release p).relocate _ (marks_state .ready) hold (by simp [Place.Fits]) trivial

end Life

/-- **Every move keeps a life sound.** -/
theorem Move.sound {a : Life} {m : Move} (h : a.Sound) (enabled : m.Enabled a) :
    (m.apply a).Sound := by
  cases m with
  | ready p i =>
    exact h.relocate _ (Life.marks_state _) enabled.not_free (by simp [Place.Fits]) trivial
  | wake p i =>
    have hold : ¬ a.Free p := by
      obtain ⟨key, hkey | hkey⟩ := enabled <;> simp [Life.Free, hkey]
    exact h.relocate _ (Life.marks_state _) hold (by simp [Place.Fits]) trivial
  | sleep p key =>
    exact h.relocate _ (Life.marks_state _) enabled.not_free (by simp [Place.Fits]) trivial
  | blockRead p =>
    have hstate := h.state_cpu enabled.place
    exact h.relocate _ ⟨fun _ => rfl, fun _ => rfl, fun _ => rfl⟩ enabled.not_free
      (by simpa [Place.Fits] using hstate) trivial
  | blockWait p w =>
    have hnext := h.relocate (.queued .waiting (a.proc p).pid.id)
      (Life.marks_state .waiting) enabled.1.not_free (by simp [Place.Fits]) rfl
    exact hnext.rewant _
  | kill p => exact h.kill enabled
  | fork p c s i => exact h.fork enabled.1 enabled.2.2 i
  | recycle c => exact h.recycle c
  | reparent p => exact h.reparent p
  | zombie p =>
    exact h.relocate _ (Life.marks_state _) enabled.1.not_free (by simp [Place.Fits]) rfl
  | deliver p q r w =>
    obtain ⟨hp, -, -, hr, -⟩ := enabled
    exact (h.deliver hp hr).rewant w
  | reap q r w => exact (h.release r).rewant w
  | take p =>
    obtain ⟨-, ⟨i, key, hplace⟩, -⟩ := enabled
    exact h.relocate _ (Life.marks_state _) (by simp [Life.Free, hplace]) (by simp [Place.Fits])
      trivial
  | takeKilled p =>
    obtain ⟨-, ⟨i, key, hplace⟩, hstate⟩ := enabled
    have hnext := h.relocate .cpu Life.marks_id (p := p) (by simp [Life.Free, hplace])
      (by simp [Place.Fits, hstate]) trivial
    rwa [Life.modify_id] at hnext
  | abandon p =>
    have hstate := h.state_cpu enabled.place
    have hnext := h.relocate .limbo Life.marks_id enabled.not_free
      (by simpa [Place.Fits] using hstate) trivial
    rwa [Life.modify_id] at hnext
  | write w => exact h.rewant w

/-- **A sequence of moves** keeps everything sound, by induction on it. -/
theorem Moves.sound {ok : Life → Move → Prop} {a b : Life} (run : Moves ok a b) (h : a.Sound) :
    b.Sound :=
  run.invariant (fun _ _ hs enabled _ => Move.sound hs enabled) h

/-- A process that was in the table before, with its pids. -/
structure Life.KeepsPids (a c : Life) (x : PcbId) : Prop where
  old : ¬ a.Free x
  pid : (c.proc x).pid = (a.proc x).pid
  ppid : (c.proc x).ppid = (a.proc x).ppid

namespace Life.KeepsPids

variable {a c : Life} {p x : PcbId}

/-- One process changes its place, and its PCB only within `Marks`. -/
theorem of_relocate {pl : Place} {f : Proc → Proc} (hp : ¬ a.Free p) (marks : Marks f)
    (hx : ¬ c.Free x) (hplace : c.place = ((a.modify p f).move p pl).place)
    (hproc : c.proc = ((a.modify p f).move p pl).proc) : KeepsPids a c x := by
  by_cases hxp : x = p
  · subst hxp
    exact ⟨hp, by simp [hproc, marks.pid], by simp [hproc, marks.ppid]⟩
  · exact ⟨by simpa [Life.Free, hplace, hxp] using hx, by simp [hproc, hxp], by simp [hproc, hxp]⟩

/-- The PCB of `p` goes to the free list, and the others stay as they are. -/
theorem of_others (hx : ¬ c.Free x) (hp : c.Free p)
    (hother : x ≠ p → c.place x = a.place x ∧ c.proc x = a.proc x) : KeepsPids a c x := by
  have hxp : x ≠ p := by
    rintro rfl
    exact hx hp
  obtain ⟨hplace, hproc⟩ := hother hxp
  exact ⟨by rwa [Life.Free, ← hplace], by rw [hproc], by rw [hproc]⟩

end Life.KeepsPids

/-- A move that is not a `reparent` keeps the pids of every process that is in the table after it,
but for the child of a `fork`. -/
theorem Move.keepsPids {a : Life} {m : Move} {x : PcbId} (enabled : m.Enabled a)
    (old : ∀ p s i, m ≠ .fork p x s i) (hm : ∀ p, m ≠ .reparent p) (hx : ¬ (m.apply a).Free x) :
    a.KeepsPids (m.apply a) x := by
  cases m with
  | ready p i => exact .of_relocate enabled.not_free (Life.marks_state _) hx rfl rfl
  | wake p i =>
    have hp : ¬ a.Free p := by
      obtain ⟨key, hkey | hkey⟩ := enabled <;> simp [Life.Free, hkey]
    exact .of_relocate hp (Life.marks_state _) hx rfl rfl
  | sleep p key => exact .of_relocate enabled.not_free (Life.marks_state _) hx rfl rfl
  | blockRead p => exact .of_relocate enabled.not_free Life.marks_blocked hx rfl rfl
  | blockWait p w => exact .of_relocate enabled.1.not_free (Life.marks_state _) hx rfl rfl
  | kill p =>
    refine ⟨hx, ?_, ?_⟩ <;> by_cases hxp : x = p <;> simp [Move.apply, hxp]
  | fork p c s i =>
    have hxc : x ≠ c := by
      rintro rfl
      exact old p s i rfl
    exact ⟨by simpa [Move.apply, Life.Free, hxc] using hx, by simp [Move.apply, hxc],
      by simp [Move.apply, hxc]⟩
  | recycle c =>
    exact .of_others (p := c) hx ⟨0, by simp [Move.apply]⟩
      fun hxc => ⟨by simp [Move.apply, hxc], by simp [Move.apply, hxc]⟩
  | reparent p => exact absurd rfl (hm p)
  | zombie p => exact .of_relocate enabled.1.not_free (Life.marks_state _) hx rfl rfl
  | deliver p q r w =>
    obtain ⟨hruns, -, -, hr, -⟩ := enabled
    have hrp : r ≠ p := by
      rintro rfl
      simp [hruns.place] at hr
    by_cases hxr : x = r
    · exact ⟨by simp [Life.Free, hxr, hr], by simp [Move.apply, hxr, hrp],
        by simp [Move.apply, hxr, hrp]⟩
    · exact .of_others (p := p) hx ⟨0, by simp [Move.apply, Ne.symm hrp]⟩
        fun hxp => ⟨by simp [Move.apply, hxr, hxp], by simp [Move.apply, hxr, hxp]⟩
  | reap q r w =>
    exact .of_others (p := r) hx ⟨0, by simp [Move.apply]⟩
      fun hxr => ⟨by simp [Move.apply, hxr], by simp [Move.apply, hxr]⟩
  | take p =>
    obtain ⟨-, ⟨i, key, hplace⟩, -⟩ := enabled
    exact .of_relocate (by simp [Life.Free, hplace]) (Life.marks_state _) hx rfl rfl
  | takeKilled p =>
    obtain ⟨-, ⟨i, key, hplace⟩, -⟩ := enabled
    have hp : ¬ a.Free p := by simp [Life.Free, hplace]
    exact .of_relocate hp Life.marks_id hx (by rw [Life.modify_id]; rfl)
      (by rw [Life.modify_id]; rfl)
  | abandon p =>
    exact .of_relocate enabled.not_free Life.marks_id hx (by rw [Life.modify_id]; rfl)
      (by rw [Life.modify_id]; rfl)
  | write w => exact ⟨hx, rfl, rfl⟩

/-- A process in the table after a move was there before, with the same pid, unless
it is the child of a `fork`; and only `reparent` changes its parent. -/
theorem Move.keeps_pids {a : Life} {m : Move} {x : PcbId} (enabled : m.Enabled a)
    (old : ∀ p s i, m ≠ .fork p x s i) (hx : ¬ (m.apply a).Free x) :
    ¬ a.Free x ∧ ((m.apply a).proc x).pid = (a.proc x).pid ∧
      ((∀ p, m ≠ .reparent p) → ((m.apply a).proc x).ppid = (a.proc x).ppid) := by
  by_cases hm : ∀ p, m ≠ .reparent p
  · have hkeeps := Move.keepsPids enabled old hm hx
    exact ⟨hkeeps.old, hkeeps.pid, fun _ => hkeeps.ppid⟩
  · obtain ⟨p, hp⟩ := not_forall.mp hm
    obtain rfl := not_not.mp hp
    refine ⟨hx, ?_, fun h => absurd h hm⟩
    simp only [Move.apply]
    split <;> rfl

end Cumulonimbus
