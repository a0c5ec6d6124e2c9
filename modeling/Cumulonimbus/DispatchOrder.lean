import Cumulonimbus.DispatchPoints
import Cumulonimbus.RemovalsByPid
import Cumulonimbus.Ownership
import Cumulonimbus.Parents
import Cumulonimbus.Wakeup
import Cumulonimbus.Zombify

/-!
# The dispatcher on its way to a ready process

`_dispatch` takes processes off the ready queues until it finds one that is ready.  It ends those
that were killed, and so wakes parents that wait, who go to the end of the first ready queue while
it is searched.  `Dispatched` says what has become of the queues and of the processes then;
`Cleaned` and `Passed` say the same of the turns so far, and one turn is `Midway.end_killed`.

A killed process does not hand its children over.  If its parent collects it, and a killed child of
it comes next, the child has no parent any more and `_zombify` panics.  That is the one thing that
can go wrong (`dispatches_iff`).
-/

namespace Cumulonimbus

open Exec

variable {ρ σ τ : State} {a : Life} {p q r x z : PcbId} {A : UInt32}
  {front : Fin nPriorities → List (Key × PcbId)} {done pre : List PcbId}
  {gone : List (PcbId × PcbId)}

/-- If `x` ended now, its parent `q` would collect it: `q` waits for it, or for anyone. -/
def State.Collector (ρ : State) (x q : PcbId) : Prop :=
  ρ.pcbFind (ρ.pcbs x).ppid = some q ∧ ({ ρ with current := x } : State).awaited q = true

/-- `q` collects `x` although the processes `pre` end before it: a pid that is handed over for one
of those goes to another address than the one that `q` waits with. -/
def State.StillCollects (ρ : State) (pre : List PcbId) (x q : PcbId) : Prop :=
  ρ.Collector x q ∧ ∀ y ∈ pre, ∀ r, ρ.Collector y r → ρ.arg r 1 ≠ ρ.arg q 1

/-- The pids of allocated PCBs are distinct, and none is 0. -/
structure State.PidsDistinct (ρ : State) : Prop where
  nonzero : ∀ p, p ∉ (ρ.queues .pcbAvail).members → (ρ.pcbs p).pid.id ≠ 0
  distinct : ∀ p q, p ∉ (ρ.queues .pcbAvail).members → q ∉ (ρ.queues .pcbAvail).members →
    (ρ.pcbs p).pid.id = (ρ.pcbs q).pid.id → p = q

/-- At the head of the first ready queue stand killed processes only, up to one, `y`, whose parent
`x` is among them and is collected before. -/
def State.Bereaved (ρ : State) : Prop :=
  ∃ pre x mid y post q,
    (ρ.queues (.ready (readyIndex prioMaximum))).members = pre ++ x :: mid ++ y :: post ∧
    (∀ z ∈ pre ++ x :: mid ++ [y], (ρ.pcbs z).state = .killed) ∧
    ρ.StillCollects pre x q ∧ (ρ.pcbs x).pid.same (ρ.pcbs y).ppid

/-- The entries that woken processes add to a ready queue. -/
def arrivals (j : Fin nPriorities) (woken : List PcbId) : List (Key × PcbId) :=
  if j = readyIndex prioMaximum then woken.map fun q => (0, q) else []

/-- The dispatcher has gone from `ρ` to `τ`: it has taken `cleaned` and then `taken` off the ready
queues, where `taken` came from the queue with index `i`, and has woken `woken`. -/
structure Dispatched (ρ : State) (i : Fin nPriorities) (taken : Key × PcbId)
    (cleaned : Fin nPriorities → List (Key × PcbId)) (woken : List PcbId) (τ : State) : Prop where
  current : τ.current = taken.2
  ready : (ρ.pcbs taken.2).state = .ready ∨ taken.2 ∈ woken
  running : (τ.pcbs taken.2).state = .running
  smaller : ∀ j, j < i → (τ.queues (.ready j)).items = []
  entries : ∀ j, (ρ.queues (.ready j)).items ++ arrivals j woken =
    cleaned j ++ ((if j = i then [taken] else []) ++ (τ.queues (.ready j)).items)
  ended : ∀ j, ∀ e ∈ cleaned j, (ρ.pcbs e.2).state = .killed ∧
    ((τ.pcbs e.2).state = .zombie ∧ e.2 ∈ (τ.queues .zombie).members ∨
      (τ.pcbs e.2).state = .free ∧ e.2 ∈ (τ.queues .pcbAvail).members ∧
        ∃ q ∈ woken, ρ.pcbFind (ρ.pcbs e.2).ppid = some q)
  waited : ∀ q ∈ woken, (ρ.pcbs q).state = .waiting ∧
    (q ≠ taken.2 → (τ.pcbs q).state = .ready)
  kept : ∀ j p, p ∈ (ρ.queues (.ready j)).members → (ρ.pcbs p).state = .ready → p ≠ taken.2 →
    p ∈ (τ.queues (.ready j)).members ∧ (τ.pcbs p).state = .ready

/-- The dispatcher, called in `ρ`, comes to an end and does what it is for. -/
def State.Dispatches (ρ : State) : Prop :=
  ∃ τ i taken cleaned woken, dispatch ρ = .ok ((), τ) ∧ Dispatched ρ i taken cleaned woken τ

/-- What is known of the PCBs at the start. -/
structure Orderly (ρ : State) : Prop where
  nonzero : ∀ p, (ρ.pcbs p).state ≠ .free → (ρ.pcbs p).pid.id ≠ 0
  distinct : ∀ p q, (ρ.pcbs p).state ≠ .free → (ρ.pcbs q).state ≠ .free →
    (ρ.pcbs p).pid.id = (ρ.pcbs q).pid.id → p = q
  apart : ∀ p q s, (ρ.pcbs p).stack = some s → (ρ.pcbs q).stack = some s → p = q

/-- The state after the killed processes `done` have ended, where each first component of `gone`
has been collected by the second. -/
structure Cleaned (ρ : State) (done : List PcbId) (gone : List (PcbId × PcbId)) (σ : State) :
    Prop where
  killed : ∀ x ∈ done, (ρ.pcbs x).state = .killed
  gone_iff : ∀ x q, (x, q) ∈ gone ↔ ∃ pre post, done = pre ++ x :: post ∧ ρ.StillCollects pre x q
  overwritten : ∀ x ∈ done, ∀ q, ρ.Collector x q → ∃ e ∈ gone, ρ.arg e.2 1 = ρ.arg q 1
  freed : ∀ e ∈ gone, σ.pcbs e.1 = {}
  zombies : ∀ x ∈ done, (∀ q, (x, q) ∉ gone) → σ.pcbs x = { ρ.pcbs x with state := .zombie }
  woken : ∀ e ∈ gone, σ.pcbs e.2 = { ρ.pcbs e.2 with state := .ready }
  others : ∀ p, p ∉ done → (∀ x, (x, p) ∉ gone) → σ.pcbs p = ρ.pcbs p
  written : ∀ e ∈ gone, (σ.heap (ρ.arg e.2 1)).pid = (ρ.pcbs e.1).pid
  heap : ∀ A, (∀ e ∈ gone, ρ.arg e.2 1 ≠ A) → σ.heap A = ρ.heap A
  stackMem : ∀ s, (∀ e ∈ gone, (ρ.pcbs e.1).stack ≠ some s) → σ.stackMem s = ρ.stackMem s
  avail : ∀ e ∈ gone, e.1 ∈ (σ.queues .pcbAvail).members

/-- The entries `front` have been taken off the ready queues. -/
structure Passed (ρ : State) (front : Fin nPriorities → List (Key × PcbId)) (done : List PcbId)
    (gone : List (PcbId × PcbId)) (σ : State) : Prop where
  entries : ∀ j, (ρ.queues (.ready j)).items ++ arrivals j (gone.map Prod.snd) =
    front j ++ (σ.queues (.ready j)).items
  mem : ∀ j, ∀ e ∈ front j, e.2 ∈ done
  first : ∀ e post, (ρ.queues (.ready 0)).items = front 0 ++ e :: post →
    done = (front 0).map Prod.snd

/-! ## Processes that have ended -/

/-- The last process of a list, or an earlier one, at its place. -/
theorem concat_split {P : List PcbId → Prop} :
    (∃ pre post, done ++ [z] = pre ++ x :: post ∧ P pre) ↔
      (∃ pre post, done = pre ++ x :: post ∧ P pre) ∨ (x = z ∧ P done) := by
  constructor
  · intro h
    obtain ⟨pre, post, heq, hP⟩ := h
    rcases List.eq_nil_or_concat post with rfl | ⟨post, y, rfl⟩
    · obtain ⟨rfl, hlast⟩ := List.append_inj' heq rfl
      obtain rfl : z = x := (List.cons.inj hlast).1
      exact Or.inr ⟨rfl, hP⟩
    · rw [List.concat_eq_append, ← List.cons_append, ← List.append_assoc] at heq
      obtain ⟨rfl, -⟩ := List.append_inj' heq rfl
      exact Or.inl ⟨pre, post, rfl, hP⟩
  · intro h
    rcases h with ⟨pre, post, rfl, hP⟩ | ⟨rfl, hP⟩
    · exact ⟨pre, post ++ [z], by simp, hP⟩
    · exact ⟨done, [], rfl, hP⟩

/-- One more process that was killed. -/
theorem killed_concat (old : ∀ x ∈ done, (ρ.pcbs x).state = .killed)
    (killed : (ρ.pcbs z).state = .killed) : ∀ x ∈ done ++ [z], (ρ.pcbs x).state = .killed := by
  intro x hx
  rcases List.mem_append.mp hx with hx | hx
  · exact old x hx
  · rw [List.mem_singleton.mp hx]
    exact killed

/-- Who is waited for: a waiting process that waits for anyone or for the current process. -/
theorem State.awaited_iff : σ.awaited q = true ↔ (σ.pcbs q).state = .waiting ∧
    ((σ.want q).id = 0 ∨ (σ.want q).same (σ.pcbs σ.current).pid = true) := by
  unfold State.awaited
  simp

/-- Who collects a process waits. -/
theorem State.Collector.waiting (h : ρ.Collector x q) : (ρ.pcbs q).state = .waiting :=
  (State.awaited_iff.mp h.2).1

/-- Nobody is collected twice. -/
theorem State.Collector.unique (h : ρ.Collector x q) (h' : ρ.Collector x r) : q = r :=
  Option.some.inj (h.1.symm.trans h'.1)

namespace Cleaned

/-- Before the first process is taken. -/
theorem start : Cleaned ρ [] [] ρ := by
  constructor
  case gone_iff =>
    intro x q
    constructor
    · intro h
      cases h
    · intro h
      obtain ⟨pre, post, heq, -⟩ := h
      cases pre <;> cases heq
  all_goals simp

variable (h : Cleaned ρ done gone σ)
include h

/-- Whoever has gone was taken and collected. -/
theorem gone_spec {e : PcbId × PcbId} (he : e ∈ gone) : e.1 ∈ done ∧ ρ.Collector e.1 e.2 := by
  obtain ⟨pre, post, rfl, hcollects⟩ := (h.gone_iff e.1 e.2).mp he
  exact ⟨by simp, hcollects.1⟩

/-- A killed process did not wait. -/
theorem killed_not_woken (killed : (ρ.pcbs x).state = .killed) (y : PcbId) : (y, x) ∉ gone := by
  intro hy
  have hwaiting := (h.gone_spec hy).2.waiting
  rw [killed] at hwaiting
  cases hwaiting

/-- A process that is ready has not ended, and was not killed. -/
theorem ready_spec (ready : (σ.pcbs x).state = .ready) :
    x ∉ done ∧ (ρ.pcbs x).state ≠ .killed := by
  have hdone : x ∉ done := by
    intro hmem
    by_cases hgone : ∃ q, (x, q) ∈ gone
    · obtain ⟨q, hq⟩ := hgone
      rw [h.freed _ hq] at ready
      cases ready
    · rw [h.zombies x hmem fun q hq => hgone ⟨q, hq⟩] at ready
      cases ready
  refine ⟨hdone, fun hkilled => ?_⟩
  by_cases hwoken : ∃ y, (y, x) ∈ gone
  · obtain ⟨y, hy⟩ := hwoken
    rw [(h.gone_spec hy).2.waiting] at hkilled
    cases hkilled
  · rw [h.others x hdone fun y hy => hwoken ⟨y, hy⟩, hkilled] at ready
    cases ready

/-- What has become of a process: collected, or as it was but for its state. -/
theorem pcb_cases (p : PcbId) :
    (∃ q, (p, q) ∈ gone) ∧ σ.pcbs p = {} ∨
      (∀ q, (p, q) ∉ gone) ∧ ((σ.pcbs p).state = .free ↔ (ρ.pcbs p).state = .free) ∧
        σ.pcbs p = { ρ.pcbs p with state := (σ.pcbs p).state } := by
  by_cases hgone : ∃ q, (p, q) ∈ gone
  · obtain ⟨q, hq⟩ := hgone
    exact Or.inl ⟨⟨q, hq⟩, h.freed _ hq⟩
  have hnone : ∀ q, (p, q) ∉ gone := fun q hq => hgone ⟨q, hq⟩
  refine Or.inr ⟨hnone, ?_⟩
  by_cases hdone : p ∈ done
  · rw [h.zombies p hdone hnone, h.killed p hdone]
    simp
  by_cases hwoken : ∃ y, (y, p) ∈ gone
  · obtain ⟨y, hy⟩ := hwoken
    rw [h.woken _ hy, (h.gone_spec hy).2.waiting]
    simp
  · rw [h.others p hdone fun y hy => hwoken ⟨y, hy⟩]
    simp

/-- The other processes are as they were. -/
theorem proc_eq (hp : ∀ q, (p, q) ∉ gone) :
    (σ.pcbs p).pid = (ρ.pcbs p).pid ∧ (σ.pcbs p).ppid = (ρ.pcbs p).ppid ∧
      (σ.pcbs p).stack = (ρ.pcbs p).stack ∧ (σ.pcbs p).context = (ρ.pcbs p).context := by
  rcases h.pcb_cases p with ⟨⟨q, hq⟩, -⟩ | ⟨-, -, hpcb⟩
  · exact absurd hq (hp q)
  · rw [hpcb]
    exact ⟨rfl, rfl, rfl, rfl⟩

/-- Where a process has its argument is not touched before it ends. -/
theorem arg_eq (orderly : Orderly ρ) (hp : p ∉ done) : σ.arg p 1 = ρ.arg p 1 := by
  have hnot : ∀ q, (p, q) ∉ gone := fun q hq => hp (h.gone_spec hq).1
  obtain ⟨-, -, hstack, hcontext⟩ := h.proc_eq hnot
  unfold State.arg State.ctxWord
  rw [hstack, hcontext]
  split
  · rename_i s hs
    rw [h.stackMem s]
    intro e he hse
    have hsame : e.1 = p := orderly.apart _ _ s hse hs
    exact hp (hsame ▸ (h.gone_spec he).1)
  · rfl

/-- A process is found as before, until it has been collected. -/
theorem find_eq (orderly : Orderly ρ) {pid : Pid} (hfind : ρ.pcbFind pid = some q) :
    ((∀ r, (q, r) ∉ gone) → σ.pcbFind pid = some q) ∧
      ((∃ r, (q, r) ∈ gone) → σ.pcbFind pid = none) := by
  have hq := List.find?_some hfind
  simp only [Bool.and_eq_true, decide_eq_true_eq] at hq
  have honly : ∀ p, (σ.pcbs p).state ≠ .free → (σ.pcbs p).pid.same pid →
      p = q ∧ ∀ r, (p, r) ∉ gone := by
    intro p hstate hsame
    rcases h.pcb_cases p with ⟨-, hpcb⟩ | ⟨hnot, hfree, -⟩
    · rw [hpcb] at hstate
      exact absurd rfl hstate
    have hpid := (h.proc_eq hnot).1
    rw [hpid] at hsame
    have hid := ((Pid.same_iff _ _).mp (Pid.same_trans hsame (Pid.same_symm hq.2))).2
    exact ⟨orderly.distinct p q (fun hf => hstate (hfree.mpr hf)) hq.1 hid, hnot⟩
  constructor
  · intro hnot
    rcases h.pcb_cases q with ⟨⟨r, hr⟩, -⟩ | ⟨-, hfree, -⟩
    · exact absurd hr (hnot r)
    cases hres : σ.pcbFind pid with
    | none =>
      have hmiss := List.find?_eq_none.mp hres q (List.mem_finRange q)
      rw [(h.proc_eq hnot).1] at hmiss
      refine absurd ?_ hmiss
      simp [hfree, hq.1, hq.2]
    | some p =>
      have hp := List.find?_some hres
      simp only [Bool.and_eq_true, decide_eq_true_eq] at hp
      rw [(honly p hp.1 hp.2).1]
  · intro hgone
    obtain ⟨r, hr⟩ := hgone
    refine List.find?_eq_none.mpr fun p _ hp => ?_
    simp only [Bool.and_eq_true, decide_eq_true_eq] at hp
    obtain ⟨rfl, hnot⟩ := honly p hp.1 hp.2
    exact hnot r hr

/-- A process that would collect the next one has not ended, and nothing has been stored where it
waits. -/
theorem collects_fresh (collects : ρ.StillCollects done z q) :
    q ∉ done ∧ (∀ e ∈ gone, ρ.arg e.2 1 ≠ ρ.arg q 1) ∧ ∀ y, (y, q) ∉ gone := by
  obtain ⟨hcollector, hother⟩ := collects
  have hwaiting := hcollector.waiting
  have hfresh : ∀ e ∈ gone, ρ.arg e.2 1 ≠ ρ.arg q 1 := by
    intro e he
    obtain ⟨hedone, hecollector⟩ := h.gone_spec he
    exact hother e.1 hedone e.2 hecollector
  refine ⟨fun hmem => ?_, hfresh, fun y hy => hfresh _ hy rfl⟩
  rw [h.killed q hmem] at hwaiting
  cases hwaiting

/-- **Who is waited for in the middle of it.**  The pids that were handed over meanwhile are
those of other processes. -/
theorem awaited_iff (orderly : Orderly ρ) (current : σ.current = z) (hz : z ∉ done)
    (alive : (ρ.pcbs z).state ≠ .free) (parent : ρ.pcbFind (ρ.pcbs z).ppid = some q)
    (hq : ∀ r, (q, r) ∉ gone) : σ.awaited q = true ↔ ρ.StillCollects done z q := by
  have hznot : ∀ r, (z, r) ∉ gone := fun r hr => hz (h.gone_spec hr).1
  have hzpid := (h.proc_eq hznot).1
  rw [State.awaited_iff, current, hzpid]
  constructor
  · intro hawaits
    obtain ⟨hwaiting, hwant⟩ := hawaits
    have hqdone : q ∉ done := by
      intro hmem
      rw [h.zombies q hmem hq] at hwaiting
      cases hwaiting
    have hqwoken : ∀ y, (y, q) ∉ gone := by
      intro y hy
      rw [h.woken _ hy] at hwaiting
      cases hwaiting
    have harg := h.arg_eq orderly hqdone
    have hfresh : ∀ e ∈ gone, ρ.arg e.2 1 ≠ ρ.arg q 1 := by
      intro e he heq
      have hpid := h.written e he
      rw [heq, ← harg] at hpid
      have hedone := (h.gone_spec he).1
      have healive : (ρ.pcbs e.1).state ≠ .free := by
        rw [h.killed _ hedone]
        simp
      rw [State.want, hpid] at hwant
      rcases hwant with hzero | hsame
      · exact orderly.nonzero _ healive hzero
      · have hez := orderly.distinct _ _ healive alive ((Pid.same_iff _ _).mp hsame).2
        exact hz (hez ▸ hedone)
    have hstill : σ.want q = ρ.want q := by
      rw [State.want, State.want, harg, h.heap _ hfresh]
    refine ⟨⟨parent, State.awaited_iff.mpr ⟨?_, ?_⟩⟩, fun y hy r hcollector heq => ?_⟩
    · rw [h.others q hqdone hqwoken] at hwaiting
      exact hwaiting
    · rw [hstill] at hwant
      exact hwant
    · obtain ⟨e, he, hsame⟩ := h.overwritten y hy r hcollector
      exact hfresh e he (hsame.trans heq)
  · intro hcollects
    obtain ⟨hqdone, hfresh, hqwoken⟩ := h.collects_fresh hcollects
    have hstill : σ.want q = ρ.want q := by
      rw [State.want, State.want, h.arg_eq orderly hqdone, h.heap _ hfresh]
    rw [h.others q hqdone hqwoken, hstill]
    exact State.awaited_iff.mp hcollects.1.2

/-- Moving entries between other queues. -/
theorem congr (hpcbs : τ.pcbs = σ.pcbs) (hheap : τ.heap = σ.heap)
    (hstack : τ.stackMem = σ.stackMem)
    (havail : (τ.queues .pcbAvail) = (σ.queues .pcbAvail)) : Cleaned ρ done gone τ where
  killed := h.killed
  gone_iff := h.gone_iff
  overwritten := h.overwritten
  freed := by rw [hpcbs]; exact h.freed
  zombies := by rw [hpcbs]; exact h.zombies
  woken := by rw [hpcbs]; exact h.woken
  others := by rw [hpcbs]; exact h.others
  written := by rw [hheap]; exact h.written
  heap := by rw [hheap]; exact h.heap
  stackMem := by rw [hstack]; exact h.stackMem
  avail := by rw [havail]; exact h.avail

/-! ## One more process ends -/

variable (current : σ.current = z) (hz : z ∉ done) (killed : (ρ.pcbs z).state = .killed)
include current hz killed

/-- Nobody waits for it. -/
theorem shelve (hnot : ∀ q, ¬ ρ.StillCollects done z q) (h' : Shelved σ τ) :
    Cleaned ρ (done ++ [z]) gone τ := by
  have hwoken := h.killed_not_woken killed
  have hother : ∀ p, p ≠ z → τ.pcbs p = σ.pcbs p := by
    intro p hp
    rw [h'.pcbs, current, Function.update_of_ne hp]
  have hself : τ.pcbs z = { ρ.pcbs z with state := .zombie } := by
    rw [h'.pcbs, current, Function.update_self, h.others z hz hwoken]
  have hne : ∀ e ∈ gone, e.1 ≠ z ∧ e.2 ≠ z := by
    intro e he
    refine ⟨fun heq => hz (heq ▸ (h.gone_spec he).1), fun heq => hwoken e.1 ?_⟩
    rw [← heq]
    exact he
  constructor
  case killed => exact killed_concat h.killed killed
  case gone_iff =>
    intro x q
    rw [h.gone_iff, concat_split (P := fun pre => ρ.StillCollects pre x q)]
    constructor
    · exact Or.inl
    · intro hor
      rcases hor with hold | ⟨rfl, hcollects⟩
      · exact hold
      · exact absurd hcollects (hnot q)
  case overwritten =>
    intro x hx q hcollector
    rcases List.mem_append.mp hx with hx | hx
    · exact h.overwritten x hx q hcollector
    rw [List.mem_singleton.mp hx] at hcollector
    by_contra hnone
    refine hnot q ⟨hcollector, fun y hy r hr heq => hnone ?_⟩
    obtain ⟨e, he, hsame⟩ := h.overwritten y hy r hr
    exact ⟨e, he, hsame.trans heq⟩
  case freed =>
    intro e he
    rw [hother _ (hne e he).1]
    exact h.freed e he
  case zombies =>
    intro x hx hgone
    by_cases hxz : x = z
    · rw [hxz]
      exact hself
    · rw [hother x hxz]
      have hold : x ∈ done := (List.mem_append.mp hx).resolve_right (by simp [hxz])
      exact h.zombies x hold hgone
  case woken =>
    intro e he
    rw [hother _ (hne e he).2]
    exact h.woken e he
  case others =>
    intro p hp hgone
    have hpz : p ≠ z := fun heq => hp (by simp [heq])
    rw [hother p hpz]
    exact h.others p (fun hmem => hp (List.mem_append_left _ hmem)) hgone
  case written => rw [h'.heap]; exact h.written
  case heap => rw [h'.heap]; exact h.heap
  case stackMem => rw [h'.stackMem]; exact h.stackMem
  case avail => rw [h'.queues .pcbAvail (by simp)]; exact h.avail

/-- Its parent has waited for it. -/
theorem deliver (orderly : Orderly ρ) (collects : ρ.StillCollects done z q)
    (h' : Delivered σ q q (σ.arg q 1) τ) : Cleaned ρ (done ++ [z]) (gone ++ [(z, q)]) τ := by
  obtain ⟨hqdone, hfresh, hqwoken⟩ := h.collects_fresh collects
  obtain ⟨hcollector, hother⟩ := collects
  have hwaiting := hcollector.waiting
  have hqz : q ≠ z := by
    intro heq
    rw [heq, killed] at hwaiting
    cases hwaiting
  have hzwoken := h.killed_not_woken killed
  have hznot : ∀ r, (z, r) ∉ gone := fun r hr => hz (h.gone_spec hr).1
  obtain ⟨hzpid, -, hzstack, -⟩ := h.proc_eq hznot
  have hne : ∀ e ∈ gone, (e.1 ≠ z ∧ e.1 ≠ q) ∧ e.2 ≠ z ∧ e.2 ≠ q := by
    intro e he
    have hedone := (h.gone_spec he).1
    refine ⟨⟨fun heq => hz (heq ▸ hedone), fun heq => hqdone (heq ▸ hedone)⟩,
      fun heq => hzwoken e.1 ?_, fun heq => hfresh e he (by rw [heq])⟩
    rw [← heq]
    exact he
  have hpcb : ∀ p, p ≠ z → p ≠ q → τ.pcbs p = σ.pcbs p := by
    intro p hpz hpq
    rw [h'.pcbs, current, Function.update_of_ne hpq, Function.update_of_ne hpz]
  have hself : τ.pcbs z = {} := by
    rw [h'.pcbs, current, Function.update_of_ne (Ne.symm hqz), Function.update_self]
  have hparent : τ.pcbs q = { ρ.pcbs q with state := .ready } := by
    rw [h'.pcbs, current, Function.update_self, Function.update_of_ne hqz,
      h.others q hqdone hqwoken]
  have hheap := h'.heap
  rw [h.arg_eq orderly hqdone, current, hzpid] at hheap
  have hmem : ∀ {e : PcbId × PcbId}, e ∈ gone ++ [(z, q)] ↔ e ∈ gone ∨ e = (z, q) := by
    intro e
    rw [List.mem_append, List.mem_singleton]
  constructor
  case killed => exact killed_concat h.killed killed
  case gone_iff =>
    intro x p
    rw [hmem, h.gone_iff, concat_split (P := fun pre => ρ.StillCollects pre x p), Prod.mk.injEq]
    refine or_congr Iff.rfl ⟨fun heq => ?_, fun heq => ?_⟩
    · obtain ⟨rfl, rfl⟩ := heq
      exact ⟨rfl, hcollector, hother⟩
    · obtain ⟨rfl, hcollects⟩ := heq
      exact ⟨rfl, hcollects.1.unique hcollector⟩
  case overwritten =>
    intro x hx p hp
    rcases List.mem_append.mp hx with hx | hx
    · obtain ⟨e, he, hsame⟩ := h.overwritten x hx p hp
      exact ⟨e, List.mem_append_left _ he, hsame⟩
    · rw [List.mem_singleton.mp hx] at hp
      exact ⟨(z, q), by simp, by rw [hp.unique hcollector]⟩
  case freed =>
    intro e he
    rcases hmem.mp he with hold | rfl
    · rw [hpcb _ (hne e hold).1.1 (hne e hold).1.2]
      exact h.freed e hold
    · exact hself
  case zombies =>
    intro x hx hgone
    have hxz : x ≠ z := fun heq => hgone q (hmem.mpr (Or.inr (by rw [heq])))
    have hold : x ∈ done := (List.mem_append.mp hx).resolve_right (by simp [hxz])
    rw [hpcb x hxz fun heq => hqdone (heq ▸ hold)]
    exact h.zombies x hold fun p hp => hgone p (hmem.mpr (Or.inl hp))
  case woken =>
    intro e he
    rcases hmem.mp he with hold | rfl
    · rw [hpcb _ (hne e hold).2.1 (hne e hold).2.2]
      exact h.woken e hold
    · exact hparent
  case others =>
    intro p hp hgone
    have hpz : p ≠ z := fun heq => hp (by simp [heq])
    have hpq : p ≠ q := fun heq => hgone z (hmem.mpr (Or.inr (by rw [heq])))
    rw [hpcb p hpz hpq]
    exact h.others p (fun hold => hp (List.mem_append_left _ hold))
      fun x hx => hgone x (hmem.mpr (Or.inl hx))
  case written =>
    intro e he
    rcases hmem.mp he with hold | rfl
    · rw [hheap, Function.update_of_ne (hfresh e hold)]
      exact h.written e hold
    · rw [hheap, Function.update_self]
  case heap =>
    intro A hA
    have hne' : A ≠ ρ.arg q 1 := fun heq => hA (z, q) (by simp) heq.symm
    rw [hheap, Function.update_of_ne hne']
    exact h.heap A fun e he => hA e (hmem.mpr (Or.inl he))
  case stackMem =>
    intro s hs
    rw [h'.stackMem s ?_]
    · exact h.stackMem s fun e he => hs e (hmem.mpr (Or.inl he))
    · rw [current, hzstack]
      exact hs (z, q) (by simp)
  case avail =>
    intro e he
    have havail : (τ.queues .pcbAvail).members = (σ.queues .pcbAvail).members ++ [z] := by
      rw [Queue.members, h'.avail, List.map_append, current]
      rfl
    rw [havail]
    rcases hmem.mp he with hold | rfl
    · exact List.mem_append_left _ (h.avail e hold)
    · exact List.mem_append_right _ List.mem_cons_self

end Cleaned

/-! ## The ready queues -/

/-- Who joins a ready queue, in two parts. -/
theorem arrivals_append (j : Fin nPriorities) (l l' : List PcbId) :
    arrivals j (l ++ l') = arrivals j l ++ arrivals j l' := by
  unfold arrivals
  split
  · exact List.map_append
  · rfl

/-- Those who were waiting join the first ready queue only. -/
theorem arrivals_of_ne {j : Fin nPriorities} (h : j ≠ 0) (l : List PcbId) : arrivals j l = [] :=
  if_neg h

/-- Who joins was among them. -/
theorem mem_arrivals {j : Fin nPriorities} {l : List PcbId} {e : Key × PcbId}
    (h : e ∈ arrivals j l) : e.2 ∈ l := by
  unfold arrivals at h
  split at h
  · obtain ⟨q, hq, rfl⟩ := List.mem_map.mp h
    exact hq
  · cases h

namespace Passed

/-- Before the first process is passed over. -/
theorem start : Passed ρ (fun _ => []) [] [] ρ where
  entries j := by
    unfold arrivals
    split <;> simp
  mem j e he := by cases he
  first _ _ _ := rfl

variable (h : Passed ρ front done gone σ) {i : Fin nPriorities} {k : Key}
  {rest : List (Key × PcbId)}
include h

/-- The first entry of the first ready queue with entries is taken, and `new` processes are
collected and their parents woken. -/
theorem turn (head : (σ.queues (.ready i)).items = (k, z) :: rest)
    (before : ∀ j, j < i → (σ.queues (.ready j)).items = []) (new : List (PcbId × PcbId))
    (after : ∀ j, (τ.queues (.ready j)).items =
      (if j = i then rest else (σ.queues (.ready j)).items) ++ arrivals j (new.map Prod.snd)) :
    Passed ρ (Function.update front i (front i ++ [(k, z)])) (done ++ [z]) (gone ++ new) τ where
  entries j := by
    rw [List.map_append, arrivals_append, ← List.append_assoc, h.entries j, after j]
    by_cases hj : j = i
    · subst hj
      rw [if_pos rfl, Function.update_self, head]
      simp
    · rw [if_neg hj, Function.update_of_ne hj, List.append_assoc]
  mem j e he := by
    by_cases hj : j = i
    · subst hj
      rw [Function.update_self] at he
      rcases List.mem_append.mp he with he | he
      · exact List.mem_append_left _ (h.mem j e he)
      · rw [List.mem_singleton.mp he]
        exact List.mem_append_right _ List.mem_cons_self
    · rw [Function.update_of_ne hj] at he
      exact List.mem_append_left _ (h.mem j e he)
  first e post heq := by
    by_cases hi : i = 0
    · subst hi
      rw [Function.update_self] at heq ⊢
      rw [h.first (k, z) (e :: post) (by rw [heq]; simp), List.map_append]
      rfl
    · -- the first ready queue was empty
      have hpos : (0 : Fin nPriorities) < i := Fin.pos_iff_ne_zero.mpr hi
      have hall := congrArg List.length (h.entries 0)
      rw [Function.update_of_ne (Ne.symm hi)] at heq
      rw [before 0 hpos, heq] at hall
      simp at hall

/-- What is left of the first ready queue, if the next process has not just been woken. -/
theorem first_eq (head : (σ.queues (.ready 0)).items = (k, z) :: rest)
    (hz : z ∉ gone.map Prod.snd) :
    ∃ post, (ρ.queues (.ready 0)).items = front 0 ++ (k, z) :: post := by
  have hentries := h.entries 0
  rw [head] at hentries
  rcases List.append_eq_append_iff.mp hentries with ⟨l, -, hl⟩ | ⟨l, hl, hrest⟩
  · have hmem : (k, z) ∈ arrivals 0 (gone.map Prod.snd) := by
      rw [hl]
      simp
    exact absurd (mem_arrivals hmem) hz
  · cases l with
    | nil =>
      have hmem : (k, z) ∈ arrivals 0 (gone.map Prod.snd) := by
        rw [List.nil_append] at hrest
        rw [← hrest]
        exact List.mem_cons_self
      exact absurd (mem_arrivals hmem) hz
    | cons e post =>
      obtain rfl : (k, z) = e := (List.cons.inj hrest).1
      exact ⟨post, hl⟩

/-- Before the first ready queue is through, the next process of it is next. -/
theorem next {y : PcbId} {post : List PcbId} (walked : done = (front 0).map Prod.snd)
    (members : (ρ.queues (.ready 0)).members = done ++ y :: post)
    (head : (σ.queues (.ready i)).items = (k, z) :: rest)
    (before : ∀ j, j < i → (σ.queues (.ready j)).items = []) : i = 0 ∧ z = y := by
  have hentries := congrArg (List.map Prod.snd) (h.entries 0)
  rw [List.map_append, List.map_append, ← walked] at hentries
  change (ρ.queues (.ready 0)).members ++ _ = _ at hentries
  rw [members, List.append_assoc, List.append_cancel_left_eq, List.cons_append] at hentries
  have hi : i = 0 := by
    by_contra hne
    rw [before 0 (Fin.pos_iff_ne_zero.mpr hne)] at hentries
    cases hentries
  subst hi
  rw [head, List.map_cons] at hentries
  exact ⟨rfl, ((List.cons.inj hentries).1).symm⟩

end Passed

/-! ## The loop -/

/-- Where the dispatcher stands between two turns. -/
structure Midway (ρ : State) (front : Fin nPriorities → List (Key × PcbId)) (done : List PcbId)
    (gone : List (PcbId × PcbId)) (σ : State) (a : Life) : Prop where
  orderly : Orderly ρ
  rel : Rel σ a
  sound : a.Sound
  idle : a.Idle
  owned : a.Owned
  cleaned : Cleaned ρ done gone σ
  passed : Passed ρ front done gone σ

/-- The process `z` has been taken off a ready queue, of which `rest` is left. -/
def State.pulled (σ : State) (i : Fin nPriorities) (n : Nat) (rest : List (Key × PcbId))
    (z : PcbId) : State :=
  { σ with
    qnodes := n
    queues := Function.update σ.queues (.ready i) { σ.queues (.ready i) with items := rest }
    current := z }

/-- Taking a process off a ready queue leaves the other ready queues. -/
theorem State.pulled_ready (σ : State) (i j : Fin nPriorities) (n : Nat)
    (rest : List (Key × PcbId)) (z : PcbId) :
    ((σ.pulled i n rest z).queues (.ready j)).items =
      if j = i then rest else (σ.queues (.ready j)).items := by
  by_cases hj : j = i
  · subst hj
    simp [pulled]
  · simp [pulled, hj]

/-- The first entry of a queue is taken. -/
theorem qRemove_first {X : QName} {k : Key} {rest : List (Key × PcbId)}
    (head : (σ.queues X).items = (k, z) :: rest) {E : Halt → Prop} :
    wp (qRemove X)
      (fun res τ => res = .ok z ∧ ∃ n, τ = { σ with
        qnodes := n,
        queues := Function.update σ.queues X { σ.queues X with items := rest } }) E σ := by
  have hcall : (σ.queues X).qRemove σ.qnodes =
      .ok (z, σ.qnodes + 1, { σ.queues X with items := rest }) := by
    rw [Queue.qRemove, head]
  rw [qRemove, wp_bind, wp_get, hcall]
  exact ⟨rfl, _, rfl⟩

/-- A process filed under the pid of `q` is `q`. -/
theorem Cleaned.filed_eq (h : Cleaned ρ done gone σ) (orderly : Orderly ρ) (hrel : Rel σ a)
    (sound : a.Sound) (hq : ∀ r, (q, r) ∉ gone) (alive : (ρ.pcbs q).state ≠ .free)
    (filed : (σ.queues .waiting).Files (σ.pcbs q).pid.id r) : r = q := by
  obtain ⟨k, hmem, hrem⟩ := filed
  have hplace := (hrel.placed.mem .waiting k r).mp hmem
  have hkey : k = (σ.pcbs q).pid.id := by
    have hrem' := hrem removeIfEqual (hrel.placed.remove .waiting)
    simpa [removeIfEqual] using hrem'
  have hkeyed := sound.keyed r
  rw [hplace] at hkeyed
  have hfits := sound.fits r
  rw [hplace, ← hrel.state] at hfits
  have hlive : (σ.pcbs r).state ≠ .free := by
    rcases hfits with hs | hs <;> simp [hs]
  rcases h.pcb_cases r with ⟨-, hpcb⟩ | ⟨hnot, hfree, -⟩
  · rw [hpcb] at hlive
    exact absurd rfl hlive
  refine orderly.distinct r q (fun hf => hlive (hfree.mpr hf)) alive ?_
  rw [← (h.proc_eq hnot).1, ← (h.proc_eq hq).1, hrel.pid, ← hkey]
  exact hkeyed.symm

namespace Midway

variable (h : Midway ρ front done gone σ a) {i : Fin nPriorities} {k : Key}
  {rest : List (Key × PcbId)} {n : Nat}
include h

/-- A process that is still killed has not ended and was killed before. -/
theorem killed_before (killed : (σ.pcbs z).state = .killed) :
    z ∉ done ∧ (∀ y, (y, z) ∉ gone) ∧ (ρ.pcbs z).state = .killed := by
  have hwoken : ∀ y, (y, z) ∉ gone := by
    intro y hy
    rw [h.cleaned.woken _ hy] at killed
    cases killed
  have hdone : z ∉ done := by
    intro hmem
    by_cases hgone : ∃ q, (z, q) ∈ gone
    · obtain ⟨q, hq⟩ := hgone
      rw [h.cleaned.freed _ hq] at killed
      cases killed
    · rw [h.cleaned.zombies z hmem fun q hq => hgone ⟨q, hq⟩] at killed
      cases killed
  refine ⟨hdone, hwoken, ?_⟩
  rw [h.cleaned.others z hdone hwoken] at killed
  exact killed

/-- Taking the first entry of a ready queue. -/
theorem pull (head : (σ.queues (.ready i)).items = (k, z) :: rest) {E : Halt → Prop} :
    wp (qRemove (.ready i))
      (fun res τ => res = .ok z ∧ ∃ n k', { τ with current := z } = σ.pulled i n rest z ∧
        a.place z = .queued (.ready i) k' ∧ Rel τ (a.move z .limbo) ∧
        τ.dispatchFuel + 1 = σ.dispatchFuel) E σ := by
  refine wp_mono (wp_and (qRemove_rel (E := E) h.rel) (qRemove_first (E := E) head)) ?_
    fun _ he => he.1
  intro res τ hpost
  obtain ⟨hrel, rfl, n, hτ⟩ := hpost
  rcases hrel with ⟨hbad, -⟩ | ⟨p, k', hp, hplace, hτrel, -, -, hshrunk⟩
  · cases hbad
  cases hp
  exact ⟨rfl, n, k', by rw [hτ]; rfl, hplace, hτrel, hshrunk.dispatchFuel⟩

/-- **One turn with a killed process**, whose parent is `q`: it panics if the parent has been
collected meanwhile, and otherwise the process ends. -/
theorem end_killed (head : (σ.queues (.ready i)).items = (k, z) :: rest)
    (before : ∀ j, j < i → (σ.queues (.ready j)).items = [])
    (killed : (σ.pcbs z).state = .killed) (parent : ρ.pcbFind (ρ.pcbs z).ppid = some q)
    {k' : Key} (hplace : a.place z = .queued (.ready i) k')
    (hrel : Rel (σ.pulled i n rest z) ((Move.takeKilled z).apply a)) {E : Halt → Prop}
    (panics : ∀ r, (q, r) ∈ gone → ∀ e, E e) :
    wp (zombify z)
      (fun _ υ => (∀ r, (q, r) ∉ gone) ∧
        (∃ gone' b, Midway ρ (Function.update front i (front i ++ [(k, z)])) (done ++ [z]) gone'
          υ b) ∧ υ.dispatchFuel = (σ.pulled i n rest z).dispatchFuel) E (σ.pulled i n rest z) := by
  have orderly := h.orderly
  obtain ⟨hz, hwoken, hkilled⟩ := h.killed_before killed
  have halive : (ρ.pcbs z).state ≠ .free := by
    rw [hkilled]
    simp
  have enabled : (Move.takeKilled z).Enabled a := by
    refine ⟨h.idle, ⟨i, k', hplace⟩, ?_⟩
    rw [← h.rel.state]
    exact killed
  have hsound := Move.sound h.sound enabled
  have howned := Move.owned h.owned enabled
  have hruns : ((Move.takeKilled z).apply a).Runs z := by
    intro p
    by_cases hp : p = z
    · simp [Move.apply, hp]
    · simpa [Move.apply, hp] using h.idle p
  have hclean : Cleaned ρ done gone (σ.pulled i n rest z) :=
    h.cleaned.congr rfl rfl rfl (by simp [State.pulled])
  have hznot : ∀ r, (z, r) ∉ gone := fun r hr => hz (hclean.gone_spec hr).1
  have hppid : ((σ.pulled i n rest z).pcbs z).ppid = (ρ.pcbs z).ppid := (hclean.proc_eq hznot).2.1
  have hends := zombify_ends (E := fun _ => ∃ r, (q, r) ∈ gone) hrel hsound hruns rfl
    (fun hnone => absurd ((howned.stack z).mp hnone) hruns.not_free) fun hnone => by
      by_contra hnot
      have hfind := (hclean.find_eq orderly parent).1 fun r hr => hnot ⟨r, hr⟩
      rw [← hrel.find, ← hrel.ppid, hppid, hfind] at hnone
      cases hnone
  have hstores : wp (zombify z) _ _ (σ.pulled i n rest z) := zombify_stores rfl
  refine wp_mono (wp_and hends hstores) ?_ fun e he => ?_
  · intro _ υ hpost
    obtain ⟨⟨m, -, menabled, hυ, hidle, hfuel⟩, q', hq', hcase⟩ := hpost
    rw [hppid] at hq'
    have hnot : ∀ r, (q, r) ∉ gone := by
      intro r hr
      rw [(hclean.find_eq orderly parent).2 ⟨r, hr⟩] at hq'
      cases hq'
    obtain rfl : q = q' := by
      rw [(hclean.find_eq orderly parent).1 hnot] at hq'
      exact Option.some.inj hq'
    have hiff := hclean.awaited_iff orderly rfl hz halive parent hnot
    refine ⟨hnot, ?_, hfuel⟩
    by_cases hawaited : (σ.pulled i n rest z).awaited q = true
    · rw [if_pos hawaited] at hcase
      obtain ⟨r, hdelivered⟩ := hcase
      have hcollects := hiff.mp hawaited
      have hqalive : (ρ.pcbs q).state ≠ .free := by
        rw [hcollects.1.waiting]
        simp
      obtain rfl : r = q := hclean.filed_eq orderly hrel hsound hnot hqalive hdelivered.filed
      refine ⟨gone ++ [(z, r)], m.apply _, orderly, hυ, Move.sound hsound menabled, hidle,
        Move.owned howned menabled, hclean.deliver rfl hz hkilled orderly hcollects hdelivered,
        h.passed.turn head before [(z, r)] fun j => ?_⟩
      rw [← σ.pulled_ready i j n rest z]
      by_cases hj : j = 0
      · subst hj
        exact hdelivered.woken
      · rw [hdelivered.queues (.ready j) (by simp) (by simp) (by simpa using hj),
          arrivals_of_ne hj, List.append_nil]
    · rw [if_neg hawaited] at hcase
      have hnobody : ∀ r, ¬ ρ.StillCollects done z r := by
        intro r hr
        obtain rfl : q = r := Option.some.inj (parent.symm.trans hr.1.1)
        exact hawaited (hiff.mpr hr)
      have hturn := h.passed.turn (τ := υ) head before [] fun j => by
        rw [← σ.pulled_ready i j n rest z, hcase.queues (.ready j) (by simp)]
        simp [arrivals]
      rw [List.append_nil] at hturn
      exact ⟨gone, m.apply _, orderly, hυ, Move.sound hsound menabled, hidle,
        Move.owned howned menabled, hclean.shelve rfl hz hkilled hnobody hcase, hturn⟩
  · obtain ⟨r, hr⟩ := he.1
    exact panics r hr e

/-- If the parent of the next process has been collected, the process is bereaved. -/
theorem bereaved (head : (σ.queues (.ready i)).items = (k, z) :: rest)
    (before : ∀ j, j < i → (σ.queues (.ready j)).items = [])
    (killed : (σ.pcbs z).state = .killed) (parent : ρ.pcbFind (ρ.pcbs z).ppid = some q)
    (hgone : (q, r) ∈ gone) : ρ.Bereaved := by
  obtain ⟨hz, hwoken, hkilled⟩ := h.killed_before killed
  have hznot : z ∉ gone.map Prod.snd := by
    intro hmem
    obtain ⟨e, he, rfl⟩ := List.mem_map.mp hmem
    exact hwoken e.1 he
  -- the woken parent is in the first ready queue
  have hi : i = 0 := by
    by_contra hne
    have hempty := before 0 (Fin.pos_iff_ne_zero.mpr hne)
    have hentries := h.passed.entries 0
    rw [hempty, List.append_nil] at hentries
    have hmem : (0, r) ∈ front 0 := by
      rw [← hentries]
      refine List.mem_append_right _ ?_
      exact List.mem_map.mpr ⟨r, List.mem_map.mpr ⟨(q, r), hgone, rfl⟩, rfl⟩
    exact h.cleaned.killed_not_woken (h.cleaned.killed _ (h.passed.mem 0 _ hmem)) q hgone
  subst hi
  obtain ⟨post, hfirst⟩ := h.passed.first_eq head hznot
  have hdone := h.passed.first _ _ hfirst
  obtain ⟨pre, mid, heq, hcollects⟩ := (h.cleaned.gone_iff q r).mp hgone
  refine ⟨pre, q, mid, z, post.map Prod.snd, r, ?_, fun y hy => ?_, hcollects, ?_⟩
  · change (ρ.queues (.ready 0)).members = _
    rw [Queue.members, hfirst, List.map_append, ← hdone, heq]
    simp
  · rw [← heq] at hy
    exact killed_concat h.cleaned.killed hkilled y hy
  · have hq := List.find?_some parent
    simp only [Bool.and_eq_true, decide_eq_true_eq] at hq
    exact hq.2

/-- What has become of a killed process that has been taken off its queue. -/
theorem ended (hx : x ∈ done) :
    (σ.pcbs x).state = .zombie ∧ x ∈ (σ.queues .zombie).members ∨
      (σ.pcbs x).state = .free ∧ x ∈ (σ.queues .pcbAvail).members ∧
        ∃ q ∈ gone.map Prod.snd, ρ.pcbFind (ρ.pcbs x).ppid = some q := by
  by_cases hgone : ∃ q, (x, q) ∈ gone
  · obtain ⟨q, hq⟩ := hgone
    refine Or.inr ⟨?_, h.cleaned.avail _ hq, q, List.mem_map.mpr ⟨(x, q), hq, rfl⟩,
      (h.cleaned.gone_spec hq).2.1⟩
    rw [h.cleaned.freed _ hq]
  · have hzombie : (σ.pcbs x).state = .zombie := by
      rw [h.cleaned.zombies _ hx fun q hq => hgone ⟨q, hq⟩]
    have hplace := h.sound.place_zombie (p := x) (by rw [← h.rel.state]; exact hzombie)
    exact Or.inl ⟨hzombie, (h.rel.placed.mem_members .zombie x).mpr ⟨_, hplace⟩⟩

/-- A process that was ready is where it was. -/
theorem kept {j : Fin nPriorities} {e : Key × PcbId} (he : e ∈ (ρ.queues (.ready j)).items)
    (ready : (ρ.pcbs e.2).state = .ready) :
    e ∈ (σ.queues (.ready j)).items ∧ σ.pcbs e.2 = ρ.pcbs e.2 := by
  have hdone : e.2 ∉ done := by
    intro hmem
    rw [h.cleaned.killed _ hmem] at ready
    cases ready
  have hwoken : ∀ y, (y, e.2) ∉ gone := by
    intro y hy
    rw [(h.cleaned.gone_spec hy).2.waiting] at ready
    cases ready
  refine ⟨?_, h.cleaned.others _ hdone hwoken⟩
  have hall : e ∈ front j ++ (σ.queues (.ready j)).items := by
    rw [← h.passed.entries j]
    exact List.mem_append_left _ he
  exact (List.mem_append.mp hall).resolve_left fun hf => hdone (h.passed.mem j e hf)

/-- **The last turn**, with a process that is ready. -/
theorem take_ready (head : (σ.queues (.ready i)).items = (k, z) :: rest)
    (before : ∀ j, j < i → (σ.queues (.ready j)).items = [])
    (ready : (σ.pcbs z).state = .ready) :
    Dispatched ρ i (k, z) front (gone.map Prod.snd)
      { σ.pulled i n rest z with
        pcbs := Function.update σ.pcbs z { σ.pcbs z with state := .running } } := by
  have hzdone : z ∉ done := (h.cleaned.ready_spec ready).1
  have hqueue : ∀ j, ((σ.pulled i n rest z).queues (.ready j)).items =
      if j = i then rest else (σ.queues (.ready j)).items := fun j => σ.pulled_ready i j n rest z
  constructor
  case current => rfl
  case ready =>
    by_cases hwoken : ∃ y, (y, z) ∈ gone
    · obtain ⟨y, hy⟩ := hwoken
      exact Or.inr (List.mem_map.mpr ⟨(y, z), hy, rfl⟩)
    · rw [h.cleaned.others z hzdone fun y hy => hwoken ⟨y, hy⟩] at ready
      exact Or.inl ready
  case running =>
    dsimp only
    rw [Function.update_self]
  case smaller =>
    intro j hj
    rw [hqueue, if_neg hj.ne]
    exact before j hj
  case entries =>
    intro j
    rw [h.passed.entries, hqueue]
    by_cases hj : j = i
    · subst hj
      rw [if_pos rfl, if_pos rfl, head]
      rfl
    · rw [if_neg hj, if_neg hj, List.nil_append]
  case ended =>
    intro j e he
    have hdone := h.passed.mem j e he
    have hne : e.2 ≠ z := fun heq => hzdone (heq ▸ hdone)
    have hzombies : (σ.pulled i n rest z).queues .zombie = σ.queues .zombie := by
      simp [State.pulled]
    have havail : (σ.pulled i n rest z).queues .pcbAvail = σ.queues .pcbAvail := by
      simp [State.pulled]
    refine ⟨h.cleaned.killed _ hdone, ?_⟩
    dsimp only
    rw [hzombies, havail, Function.update_of_ne hne]
    exact h.ended hdone
  case waited =>
    intro q hq
    obtain ⟨e, he, rfl⟩ := List.mem_map.mp hq
    refine ⟨(h.cleaned.gone_spec he).2.waiting, fun hne => ?_⟩
    dsimp only
    rw [Function.update_of_ne hne, h.cleaned.woken e he]
  case kept =>
    intro j p hp hready hne
    obtain ⟨e, he, rfl⟩ := List.mem_map.mp hp
    obtain ⟨hmem, hsame⟩ := h.kept he hready
    constructor
    · refine List.mem_map.mpr ⟨e, ?_, rfl⟩
      rw [hqueue]
      by_cases hj : j = i
      · subst hj
        rw [head] at hmem
        rw [if_pos rfl]
        rcases List.mem_cons.mp hmem with rfl | hmem
        · exact absurd rfl hne
        · exact hmem
      · rw [if_neg hj]
        exact hmem
    · dsimp only
      rw [Function.update_of_ne hne, hsame]
      exact hready

end Midway

/-- The dispatcher looks at the first queue that is not empty. -/
theorem State.firstReady_some {i : Fin nPriorities} (h : σ.firstReady = some i) :
    (σ.queues (.ready i)).items ≠ [] ∧ ∀ j, j < i → (σ.queues (.ready j)).items = [] := by
  rw [State.firstReady, ← Fin.find?_eq_find?_finRange, Fin.find?_eq_some_iff] at h
  obtain ⟨hi, hbefore⟩ := h
  constructor
  · simpa [Queue.qEmpty] using hi
  · intro j hj
    simpa [Queue.qEmpty] using hbefore j hj

/-- There is none if all are empty. -/
theorem State.firstReady_none (h : σ.firstReady = none) (j : Fin nPriorities) :
    (σ.queues (.ready j)).items = [] := by
  have hempty := List.find?_eq_none.mp h j (List.mem_finRange j)
  simpa [Queue.qEmpty] using hempty

/-- What the dispatcher finds at the head of a ready queue. -/
theorem Midway.head_state (h : Midway ρ front done gone σ a) {i : Fin nPriorities} {k : Key}
    (hplace : a.place z = .queued (.ready i) k) :
    (σ.pcbs z).state = .ready ∨ (σ.pcbs z).state = .killed := by
  have hfits := h.sound.fits z
  rwa [hplace, ← h.rel.state] at hfits

/-- **One turn of the loop**: it goes on with the last process, or round again after a killed
one. -/
theorem Midway.dispatchLoop_turn (h : Midway ρ front done gone σ a) (n : Nat)
    {Q : PUnit → State → Prop} {E : Halt → Prop}
    (empty : σ.firstReady = none → E (.kpanic "_dispatch" "all queues empty" 0))
    (last : ∀ i k z rest m, (σ.queues (.ready i)).items = (k, z) :: rest →
      (∀ j, j < i → (σ.queues (.ready j)).items = []) → (σ.pcbs z).state = .ready →
      Q ⟨⟩ { σ.pulled i m rest z with
        pcbs := Function.update σ.pcbs z { σ.pcbs z with state := .running } })
    (round : ∀ i k z rest m k', (σ.queues (.ready i)).items = (k, z) :: rest →
      (∀ j, j < i → (σ.queues (.ready j)).items = []) → (σ.pcbs z).state = .killed →
      a.place z = .queued (.ready i) k' →
      Rel (σ.pulled i m rest z) ((Move.takeKilled z).apply a) →
      (σ.pulled i m rest z).dispatchFuel + 1 = σ.dispatchFuel →
      wp (zombify z >>= fun _ => dispatchLoop n) Q E (σ.pulled i m rest z)) :
    wp (dispatchLoop (n + 1)) Q E σ := by
  rw [dispatchLoop, wp_bind, wp_get]
  split
  · rename_i hnone
    exact wp_throw.mpr (empty hnone)
  rename_i i hi
  obtain ⟨hne, hbefore⟩ := State.firstReady_some hi
  obtain ⟨⟨k, z⟩, rest, head⟩ := List.exists_cons_of_ne_nil hne
  refine wp_seq (h.pull head) ?_
  intro res τ hpost
  obtain ⟨rfl, m, k', hpulled, hplace, hτ, hfuel⟩ := hpost
  dsimp only
  rw [setCurrent, wp_bind, wp_modify, hpulled]
  have hfits := h.head_state hplace
  split
  · rename_i hready
    rw [setState, modifyPcb, wp_modify]
    exact last i k z rest m head hbefore hready
  · rename_i hkilled
    have htake : (Move.takeKilled z).apply a = (a.move z .limbo).move z .cpu := by
      simp [Move.apply, Life.move]
    have hloose : Loose (a.move z .limbo).place z := by
      intro X key
      simp
    have hrel : Rel (σ.pulled i m rest z) ((Move.takeKilled z).apply a) :=
      hpulled ▸ htake ▸ (hτ.setCurrent z).move_loose hloose (by simp)
    have hsame : (σ.pulled i m rest z).dispatchFuel = τ.dispatchFuel := by
      rw [← hpulled]
      exact dispatchFuel_congr rfl
    exact round i k z rest m k' head hbefore hkilled hplace hrel (by omega)
  · rename_i hready hkilled
    rcases hfits with hs | hs
    · exact absurd hs hready
    · exact absurd hs hkilled

/-- **The loop comes to an end** if a ready process is queued and no killed one is bereaved.
Induction on the number of turns allowed, of which there are more than entries left. -/
theorem dispatchLoop_dispatches (n : Nat) (h : Midway ρ front done gone σ a)
    (parents : ∀ p, (ρ.pcbs p).state = .killed → ∃ q, ρ.pcbFind (ρ.pcbs p).ppid = some q)
    (ready : ∃ j p, p ∈ (ρ.queues (.ready j)).members ∧ (ρ.pcbs p).state = .ready)
    (attended : ¬ ρ.Bereaved) (fuel : σ.dispatchFuel < n) :
    wp (dispatchLoop n) (fun _ τ => ∃ i taken cleaned woken, Dispatched ρ i taken cleaned woken τ)
      (fun _ => False) σ := by
  induction n generalizing σ a front done gone with
  | zero => omega
  | succ n ih =>
    refine h.dispatchLoop_turn n (fun hnone => ?_) (fun i k z rest m head before hready => ?_)
      fun i k z rest m k' head before killed hplace hrel hfuel => ?_
    · -- the ready process is still there
      obtain ⟨j, p, hp, hready⟩ := ready
      obtain ⟨e, he, rfl⟩ := List.mem_map.mp hp
      have hmem := (h.kept he hready).1
      rw [State.firstReady_none hnone j] at hmem
      cases hmem
    · exact ⟨i, (k, z), front, _, h.take_ready head before hready⟩
    · obtain ⟨q, hq⟩ := parents z (h.killed_before killed).2.2
      refine wp_seq (h.end_killed head before killed hq hplace hrel fun r hr _ =>
        attended (h.bereaved head before killed hq hr)) ?_
      intro _ υ hpost
      obtain ⟨-, ⟨gone', b, hnext⟩, hsame⟩ := hpost
      exact ih hnext (by omega)

/-- **The loop halts over a bereaved process.**  It goes through the first ready queue up to
that process, whose parent it has collected by then. -/
theorem dispatchLoop_bereaved (n : Nat) (h : Midway ρ front done gone σ a)
    (parents : ∀ p, (ρ.pcbs p).state = .killed → ∃ q, ρ.pcbFind (ρ.pcbs p).ppid = some q)
    {mid post : List PcbId} {y : PcbId}
    (members : (ρ.queues (.ready 0)).members = pre ++ x :: mid ++ y :: post)
    (killed : ∀ z ∈ pre ++ x :: mid ++ [y], (ρ.pcbs z).state = .killed)
    (collects : ρ.StillCollects pre x q) (child : (ρ.pcbs x).pid.same (ρ.pcbs y).ppid)
    {ahead : List PcbId} (way : done ++ ahead = pre ++ x :: mid)
    (walked : done = (front 0).map Prod.snd) :
    wp (dispatchLoop n) (fun _ _ => False) (fun _ => True) σ := by
  induction n generalizing σ a front done gone ahead with
  | zero => exact wp_throw.mpr trivial
  | succ n ih =>
    rw [← way, List.append_assoc] at members
    obtain ⟨w, ws, hw⟩ : ∃ w ws, ahead ++ [y] = w :: ws := by
      cases ahead with
      | nil => exact ⟨y, [], rfl⟩
      | cons w ws => exact ⟨w, ws ++ [y], rfl⟩
    have hall : pre ++ x :: mid ++ [y] = done ++ w :: ws := by
      rw [← way, List.append_assoc, hw]
    have hmembers : (ρ.queues (.ready 0)).members = done ++ w :: (ws ++ post) := by
      rw [members, ← List.cons_append, ← hw]
      simp
    have hwkilled : (ρ.pcbs w).state = .killed := killed w (by rw [hall]; simp)
    refine h.dispatchLoop_turn n (fun _ => trivial) (fun i k z rest m head before hready => ?_)
      fun i k z rest m k' head before hkilled hplace hrel hfuel => ?_
    · obtain ⟨-, rfl⟩ := h.passed.next walked hmembers head before
      exact (h.cleaned.ready_spec hready).2 hwkilled
    · obtain ⟨rfl, rfl⟩ := h.passed.next walked hmembers head before
      obtain ⟨r, hr⟩ := parents z hwkilled
      refine wp_seq (h.end_killed head before hkilled hr hplace hrel fun _ _ _ => trivial) ?_
      intro _ υ hpost
      obtain ⟨hparent, ⟨gone', b, hnext⟩, -⟩ := hpost
      cases ahead with
      | nil =>
        -- the process is the bereaved one
        obtain rfl : y = z := (List.cons.inj hw).1
        rw [List.append_nil] at way
        have hfound := List.find?_some hr
        simp only [Bool.and_eq_true, decide_eq_true_eq] at hfound
        have hxkilled := killed x (by simp)
        have hsame := ((Pid.same_iff _ _).mp (Pid.same_trans hfound.2 (Pid.same_symm child))).2
        obtain rfl : r = x := h.orderly.distinct r x hfound.1 (by rw [hxkilled]; simp) hsame
        exact absurd ((h.cleaned.gone_iff r q).mpr ⟨pre, mid, way, collects⟩) (hparent q)
      | cons w' ws' =>
        obtain ⟨rfl, -⟩ := List.cons.inj hw
        have hway : (done ++ [w']) ++ ws' = pre ++ x :: mid := by
          rw [List.append_assoc]
          exact way
        refine ih hnext hway ?_
        rw [Function.update_self, List.map_append, walked]
        rfl

/-! ## Where a handler calls the dispatcher -/

/-- What a sound life says of the queues. -/
theorem Rel.orderly (h : Rel ρ a) (sound : a.Sound) (distinct : ρ.PidsDistinct) :
    Orderly ρ := by
  have halloc : ∀ p, (ρ.pcbs p).state ≠ .free → p ∉ (ρ.queues .pcbAvail).members := by
    intro p hp hmem
    exact hp ((h.state p).trans (sound.state_free ((h.free_iff p).mpr hmem)))
  refine ⟨fun p hp => distinct.nonzero p (halloc p hp),
    fun p q hp hq => distinct.distinct p q (halloc p hp) (halloc q hq), fun p q s hp hq => ?_⟩
  rw [h.stack] at hp hq
  exact sound.own p q s hp hq

/-- At the first turn. -/
theorem Rel.midway (h : Rel ρ a) (sound : a.Sound) (idle : a.Idle) (owned : a.Owned)
    (distinct : ρ.PidsDistinct) : Midway ρ (fun _ => []) [] [] ρ a where
  orderly := h.orderly sound distinct
  rel := h
  sound := sound
  idle := idle
  owned := owned
  cleaned := .start
  passed := .start

/-- What holds wherever the dispatcher is called. -/
theorem run_dispatches {b : Boot} {σ₀ : State} {tr : List (State × Input)} {i : Input}
    (boot : BootState b σ₀) (run : AnyRun σ₀ tr σ)
    (arrives : beforeDispatch i.interrupt (σ.enter i.user) = .ok (true, ρ)) :
    ∃ c : Life, Rel ρ c ∧ c.Sound ∧ c.Idle ∧ c.Owned := by
  obtain ⟨a, hrel, hsound, hrest, howned⟩ := run_owned boot run
  have henter : Rel (σ.enter i.user) (a.entered σ i) := enter_rel hrel
  have hsound' : (a.entered σ i).Sound := hsound.rewant _
  have howned' : (a.entered σ i).Owned :=
    howned.congr (fun _ => Iff.rfl) (fun _ => rfl) rfl
  have hvacates := beforeDispatch_vacates henter hsound' hrest i.interrupt
  obtain ⟨c, hc, hidle, hmoves⟩ := wp_ok hvacates arrives rfl
  refine ⟨c, hc, hmoves.sound hsound', hidle, ?_⟩
  exact hmoves.invariant (I := Life.Owned) (fun _ _ ho enabled _ => Move.owned ho enabled) howned'

/-- Processes are numbered from 1 as long as fewer than `2 ^ 32 - 1` pids have been handed out. -/
theorem run_numbered {b : Boot} {σ₀ : State} {tr : List (State × Input)} (boot : BootState b σ₀)
    (run : AnyRun σ₀ tr σ) (few : handedOut tr < 2 ^ 32 - 1) (p : PcbId)
    (alloc : p ∉ (σ.queues .pcbAvail).members) : (σ.pcbs p).pid.id ≠ 0 := by
  induction run generalizing p with
  | nil =>
    obtain ⟨a, hrel, hboot⟩ := boot.rel
    rw [hrel.pid]
    exact hboot.attentive.numbered p fun hfree => alloc ((hrel.free_iff p).mp hfree)
  | @snoc tr τ υ i run _ next ih =>
    have hfew : handedOut tr < 2 ^ 32 - 1 := by
      rw [handedOut_concat] at few
      omega
    obtain ⟨a, hrel, hsound, hrest, -, hcounted⟩ := run_counted boot run hfew
    have hnumbered : a.Numbered := by
      intro q hq
      rw [← hrel.pid]
      exact ih hfew q fun hmem => hq ((hrel.free_iff q).mpr hmem)
    -- the pid of the running process lies below the counter
    have hnext : a.nextPid.id ≠ 0 := by
      intro hzero
      have hbelow := hcounted.below τ.current hrest.1.not_free
      rw [hzero] at hbelow
      exact Nat.not_lt_zero _ hbelow
    obtain ⟨d, hd, -, -, hdnumbered⟩ := step_invariant (I := Life.Numbered) hrel hsound hrest
      hnumbered (fun c m _ hc enabled caused => Move.numbered hc enabled fun p c' s j hm => by
        subst hm
        rw [caused.1.2.2.2.nextPid]
        rw [hrel.nextPid] at hnext
        exact hnext) next
    rw [hd.pid]
    exact hdnumbered p fun hfree => alloc ((hd.free_iff p).mp hfree)

/-- Pids are distinct where the dispatcher is called, as long as fewer than `2 ^ 32 - 1` have been
handed out. -/
theorem run_pidsDistinct {b : Boot} {σ₀ : State} {tr : List (State × Input)} {i : Input}
    (boot : BootState b σ₀) (run : AnyRun σ₀ tr σ) (few : handedOut tr < 2 ^ 32 - 1)
    (arrives : beforeDispatch i.interrupt (σ.enter i.user) = .ok (true, ρ)) :
    ρ.PidsDistinct := by
  obtain ⟨a, hrel, hsound, hrest, hunique, -⟩ := run_counted boot run few
  have hnumbered : a.Numbered := by
    intro q hq
    rw [← hrel.pid]
    exact run_numbered boot run few q fun hmem => hq ((hrel.free_iff q).mpr hmem)
  have henter : Rel (σ.enter i.user) (a.entered σ i) := enter_rel hrel
  have hsound' : (a.entered σ i).Sound := hsound.rewant _
  obtain ⟨c, hc, -, hmoves⟩ := wp_ok (beforeDispatch_vacates henter hsound' hrest i.interrupt)
    arrives rfl
  obtain ⟨hcunique, hcnumbered⟩ := hmoves.invariant (I := fun d => d.Unique ∧ d.Numbered)
    (fun d m hd enabled birthless =>
      ⟨Move.unique hd.1 enabled fun p c s j hm => absurd birthless (hm ▸ id),
        Move.numbered hd.2 enabled fun p c s j hm => absurd birthless (hm ▸ id)⟩)
    (show (a.entered σ i).Unique ∧ (a.entered σ i).Numbered from ⟨hunique, hnumbered⟩)
  refine ⟨fun p hp => ?_, (hcunique.filed (hmoves.sound hsound') hc).distinct⟩
  rw [hc.pid]
  exact hcnumbered p fun hfree => hp ((hc.free_iff p).mp hfree)

/-- A killed process that is queued has a parent, if every process has one. -/
theorem Rel.killed_parent (h : Rel ρ a) (sound : a.Sound) (parents : ρ.EveryParent) (p : PcbId)
    (killed : (ρ.pcbs p).state = .killed) : ∃ q, ρ.pcbFind (ρ.pcbs p).ppid = some q := by
  have halloc : p ∉ (ρ.queues .pcbAvail).members := by
    intro hmem
    rw [h.state, sound.state_free ((h.free_iff p).mpr hmem)] at killed
    cases killed
  exact Option.isSome_iff_exists.mp (parents p halloc)

/-- **The dispatcher comes to an end, and does what it is for**, exactly if no killed process is
bereaved: whatever run of the kernel has led to a call of it in which every process has a parent
and a ready process is queued.  Two processes with the same pid could be taken for each other; it
takes more forks than a pid counts for that. -/
theorem dispatches_iff {b : Boot} {σ₀ : State} {tr : List (State × Input)} {i : Input}
    (boot : BootState b σ₀) (run : AnyRun σ₀ tr σ)
    (arrives : beforeDispatch i.interrupt (σ.enter i.user) = .ok (true, ρ))
    (parents : ρ.EveryParent)
    (ready : ∃ j p, p ∈ (ρ.queues (.ready j)).members ∧ (ρ.pcbs p).state = .ready)
    (distinct : handedOut tr < 2 ^ 32 - 1 ∨ ρ.PidsDistinct) : ρ.Dispatches ↔ ¬ ρ.Bereaved := by
  obtain ⟨c, hc, hsound, hidle, howned⟩ := run_dispatches boot run arrives
  have hdistinct := distinct.elim (fun few => run_pidsDistinct boot run few arrives) id
  have hstart := hc.midway hsound hidle howned hdistinct
  have hparents := hc.killed_parent hsound parents
  constructor
  · intro hdispatches hbereaved
    obtain ⟨τ, -, -, -, -, hrun, -⟩ := hdispatches
    obtain ⟨pre, x, mid, y, post, q, hmembers, hkilled, hcollects, hchild⟩ := hbereaved
    have hhalts := dispatchLoop_bereaved (ρ.dispatchFuel + 1) hstart hparents hmembers hkilled
      hcollects hchild (List.nil_append _) rfl
    exact wp_ok hhalts hrun
  · intro hattended
    have hends := dispatchLoop_dispatches (ρ.dispatchFuel + 1) hstart hparents ready hattended
      (Nat.lt_succ_self _)
    obtain ⟨_, τ, hrun, i, taken, cleaned, woken, hdispatched⟩ := wp_returns hends
    exact ⟨τ, i, taken, cleaned, woken, hrun, hdispatched⟩

/-- The state in which a clock interrupt calls the dispatcher. -/
def State.atTick (σ : State) : Option State :=
  match beforeDispatch .clock (σ.enter (clockInput (fun _ => 0) blankHeap).user) with
  | .ok (true, ρ) => some ρ
  | _ => none

/-- The state at the tick is that of a clock interrupt before its dispatch. -/
theorem State.atTick_eq (h : σ.atTick = some ρ) :
    beforeDispatch (clockInput (fun _ => 0) blankHeap).interrupt
      (σ.enter (clockInput (fun _ => 0) blankHeap).user) = .ok (true, ρ) := by
  unfold State.atTick at h
  split at h
  · rename_i ρ' hρ
    rw [← Option.some.inj h]
    exact hρ
  · cases h

/-- Init has forked a child; the clock interrupts it. -/
theorem dispatches_iff_tick : ∃ σ₀ tr σ ρ, BootState blankBoot σ₀ ∧ AnyRun σ₀ tr σ ∧
    σ.atTick = some ρ ∧ ρ.Dispatches := by
  have hrun : bootTest (fun _ _ => True) blankBoot [callInput 1 (fun _ => 0) blankHeap] fun σ =>
      σ.atTick.any fun ρ =>
        decide ((∀ p, p ∉ (ρ.queues .pcbAvail).members →
            (ρ.pcbFind (ρ.pcbs p).ppid).isSome) ∧
          (∃ j p, p ∈ (ρ.queues (.ready j)).members ∧ (ρ.pcbs p).state = .ready) ∧
          ∀ p, (ρ.pcbs p).state ≠ .killed) := by
    decide +kernel
  obtain ⟨σ₀, tr, σ, hboot, hany, htr, htest⟩ := bootTest_run hrun
  obtain ⟨ρ, hρ, htest⟩ := (Option.any_eq_true _ _).mp htest
  obtain ⟨hparents, hready, hkilled⟩ := of_decide_eq_true htest
  have hlen : tr.length = 1 := by simpa using congrArg List.length htr
  have hfew : handedOut tr < 2 ^ 32 - 1 := by
    have hle := handedOut_le tr
    omega
  refine ⟨σ₀, tr, σ, ρ, hboot, hany, hρ, ?_⟩
  refine (dispatches_iff hboot hany (State.atTick_eq hρ) hparents hready (.inl hfew)).mpr ?_
  intro hbereaved
  obtain ⟨pre, x, mid, y, post, q, -, hk, -⟩ := hbereaved
  exact hkilled x (hk x (by simp))

/-- Init waits for anyone.  Its child and its grandchild are killed while both are queued, and the
dispatcher, which has freed the child, finds no parent for the grandchild. -/
theorem dispatch_panics : ¬ ∀ (b : Boot) (σ₀ : State) (tr : List (State × Input)) (σ ρ : State)
    (i : Input), BootState b σ₀ → AnyRun σ₀ tr σ →
    beforeDispatch i.interrupt (σ.enter i.user) = .ok (true, ρ) → ρ.EveryParent →
    (∃ j p, p ∈ (ρ.queues (.ready j)).members ∧ (ρ.pcbs p).state = .ready) →
    ρ.Dispatches := by
  intro hclaim
  have hrun : bootTest (fun _ _ => True) blankBoot
      [clockInput (fun _ => 0) blankHeap, callInput 1 (fun _ => 0) blankHeap,
        clockInput (fun _ => 0) blankHeap, callInput 1 (fun _ => 0) blankHeap,
        clockInput (fun _ => 0) blankHeap, callInput 1 (fun _ => 0) blankHeap,
        callInput 3 (fun _ => 16) blankHeap, callInput 5 (fun _ => 2) blankHeap,
        clockInput (fun _ => 0) blankHeap, clockInput (fun _ => 0) blankHeap,
        clockInput (fun _ => 0) blankHeap, clockInput (fun _ => 0) blankHeap,
        callInput 4 (fun _ => 2) blankHeap, callInput 4 (fun _ => 3) blankHeap] fun σ =>
      σ.atTick.any fun ρ =>
        decide ((∀ p, p ∉ (ρ.queues .pcbAvail).members →
            (ρ.pcbFind (ρ.pcbs p).ppid).isSome) ∧
          ∃ j p, p ∈ (ρ.queues (.ready j)).members ∧ (ρ.pcbs p).state = .ready) &&
        match dispatch ρ with
        | .ok _ => false
        | .error _ => true := by
    decide +kernel
  obtain ⟨σ₀, tr, σ, hboot, hany, -, htest⟩ := bootTest_run hrun
  obtain ⟨ρ, hρ, htest⟩ := (Option.any_eq_true _ _).mp htest
  obtain ⟨hstate, hhalts⟩ := Bool.and_eq_true_iff.mp htest
  obtain ⟨hparents, hready⟩ := of_decide_eq_true hstate
  obtain ⟨τ, -, -, -, -, hdispatch, -⟩ :=
    hclaim _ _ _ _ _ _ hboot hany (State.atTick_eq hρ) hparents hready
  rw [hdispatch] at hhalts
  cases hhalts

end Cumulonimbus
