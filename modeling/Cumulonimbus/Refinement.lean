import Cumulonimbus.Membership

/-!
# The kernel refines the life of a process

`Rel σ a` says that the kernel state `σ` is described by the abstract life `a`.
The routines that every handler shares come first: each of them is one move of
`Lifecycle.lean`, or none, and the dispatcher is a sequence of them.

The halting condition `Expected` is the same throughout: no panic carries the
status `E_NO_QNODES`, no loop runs forever, and the panic about a missing parent
only comes up where the abstract life has no parent either.
-/

namespace Cumulonimbus

open Exec

/-- `a` describes the kernel state `σ`. -/
structure Rel (σ : State) (a : Life) : Prop where
  placed : Placed σ a.place a.freeStack
  proc : ∀ p, (σ.pcbs p).proc = a.proc p
  want : ∀ p, (a.proc p).state = .waiting → a.want p = σ.want p
  nextPid : a.nextPid = { id := σ.nextPid.id, host := σ.localMac, reserved := 0 }

/-- The ways in which the kernel may stop; `orphan` is what must have happened if
it stops for want of a parent. -/
def Expected (orphan : Prop) : Halt → Prop
  | .kpanic _ msg code =>
    code ≠ Status.noQnodes.code.toNat ∧ (msg = "no process parent" → orphan)
  | .nullHandler => True
  | .spin => False

/-- The same halts, where orphans may come up more often. -/
theorem Expected.mono {orphan orphan' : Prop} (h : orphan → orphan') {e : Halt}
    (he : Expected orphan e) : Expected orphan' e := by
  cases e with
  | kpanic m msg code => exact ⟨he.1, fun hmsg => h (he.2 hmsg)⟩
  | nullHandler => trivial
  | spin => exact he

/-- The panics of `_zombify` and `_sys_wait` over a removal that misses its target. -/
def Halt.Misses : Halt → Prop
  | .kpanic _ msg _ => msg = "wait remove status %s" ∨ msg = "zombie not on queue, %s"
  | _ => False

/-- The ways in which the kernel does stop: no removal misses. -/
def Foreseen (orphan : Prop) (e : Halt) : Prop := Expected orphan e ∧ ¬ e.Misses

/-- The same where no removal misses. -/
theorem Foreseen.mono {orphan orphan' : Prop} (h : orphan → orphan') {e : Halt}
    (he : Foreseen orphan e) : Foreseen orphan' e :=
  ⟨he.1.mono h, he.2⟩

/-- A panic with a text of its own and a code other than `E_NO_QNODES`. -/
theorem foreseen_panic {orphan : Prop} {m msg : String} {code : Nat}
    (hcode : code ≠ Status.noQnodes.code.toNat) (hmsg : msg ≠ "no process parent")
    (hits : ¬ (Halt.kpanic m msg code).Misses) : Foreseen orphan (.kpanic m msg code) :=
  ⟨⟨hcode, fun h => absurd h hmsg⟩, hits⟩

/-- A status other than `E_NO_QNODES` may end up in a panic. -/
theorem foreseen_status {orphan : Prop} {m msg : String} {stat : Status}
    (hstat : stat ≠ .noQnodes) (hmsg : msg ≠ "no process parent")
    (hits : ¬ (Halt.kpanic m msg stat.code.toNat).Misses) :
    Foreseen orphan (.kpanic m msg stat.code.toNat) := by
  refine foreseen_panic ?_ hmsg hits
  cases stat <;> first | exact absurd rfl hstat | decide

/-! ## What a process waits for -/

/-- A word of a context depends on the PCB and on its stack. -/
theorem State.ctxWord_congr {σ τ : State} {p : PcbId} (pcb : τ.pcbs p = σ.pcbs p)
    (mem : ∀ s, (σ.pcbs p).stack = some s → τ.stackMem s = σ.stackMem s) (k : Nat) :
    τ.ctxWord p k = σ.ctxWord p k := by
  unfold State.ctxWord
  rw [pcb]
  split
  · rename_i s hs
    rw [mem s hs]
  · rfl

/-- What `p` waits for depends on its own PCB and stack and on the heap. -/
theorem State.want_congr {σ τ : State} {p : PcbId} (pcb : τ.pcbs p = σ.pcbs p)
    (heap : τ.heap = σ.heap)
    (mem : ∀ s, (σ.pcbs p).stack = some s → τ.stackMem s = σ.stackMem s) :
    τ.want p = σ.want p := by
  unfold State.want State.arg
  rw [heap, State.ctxWord_congr pcb mem]

/-- `setCtxWord` writes to one stack only. -/
theorem State.setCtxWord_eq (σ : State) (p : PcbId) (k : Nat) (v : UInt32) :
    ∃ m, σ.setCtxWord p k v = { σ with stackMem := m } ∧
      ∀ s, (σ.pcbs p).stack ≠ some s → m s = σ.stackMem s := by
  unfold State.setCtxWord
  split
  · rename_i s hs
    refine ⟨_, rfl, fun t ht => ?_⟩
    have hne : t ≠ s := by rintro rfl; exact ht hs
    rw [Function.update_of_ne hne]
  · exact ⟨σ.stackMem, rfl, fun _ _ => rfl⟩

/-! ## Keeping the relation -/

namespace Rel

variable {σ τ : State} {a b : Life} {p q : PcbId}

/-- What the life says of a process is what its PCB has: its state. -/
theorem state (h : Rel σ a) (p : PcbId) : (σ.pcbs p).state = (a.proc p).state :=
  congrArg Proc.state (h.proc p)

/-- Its pid. -/
theorem pid (h : Rel σ a) (p : PcbId) : (σ.pcbs p).pid = (a.proc p).pid :=
  congrArg Proc.pid (h.proc p)

/-- Its parent. -/
theorem ppid (h : Rel σ a) (p : PcbId) : (σ.pcbs p).ppid = (a.proc p).ppid :=
  congrArg Proc.ppid (h.proc p)

/-- Its status. -/
theorem status (h : Rel σ a) (p : PcbId) : (σ.pcbs p).status = (a.proc p).status :=
  congrArg Proc.status (h.proc p)

/-- Its stack. -/
theorem stack (h : Rel σ a) (p : PcbId) : (σ.pcbs p).stack = (a.proc p).stack :=
  congrArg Proc.stack (h.proc p)

/-- The search for a pid finds the same process in both. -/
theorem find (h : Rel σ a) (pid : Pid) : σ.pcbFind pid = a.find pid := by
  unfold State.pcbFind Life.find
  congr 1
  funext p
  rw [h.state, h.pid]

/-- A process is waited for in the kernel exactly when it is in the life. -/
theorem awaited (h : Rel σ a) (q : PcbId) : σ.awaited q ↔ a.Awaits q σ.current := by
  unfold State.awaited Life.Awaits
  rw [h.state, h.pid]
  constructor
  · intro hq
    have hstate : (a.proc q).state = .waiting := by simpa using (Bool.and_eq_true_iff.mp hq).1
    rw [h.want q hstate]
    exact ⟨hstate, by simpa using (Bool.and_eq_true_iff.mp hq).2⟩
  · rintro ⟨hstate, hwant⟩
    rw [h.want q hstate] at hwant
    simpa [hstate] using hwant

/-- Queues and places change together; the rest of the state stays. -/
theorem requeue (h : Rel σ a) {n : Nat} {qs : QName → Queue PcbId} {place : PcbId → Place}
    (placed : Placed { σ with qnodes := n, queues := qs } place a.freeStack) :
    Rel { σ with qnodes := n, queues := qs } { a with place := place } :=
  ⟨placed, h.proc, h.want, h.nextPid⟩

/-- Only whether and where a process is queued matters to the relation. -/
theorem move_loose (h : Rel σ a) (hp : Loose a.place p) {pl : Place}
    (hpl : ∀ X key, pl ≠ .queued X key) : Rel σ (a.move p pl) where
  placed := by
    refine ⟨fun X key q => ?_, h.placed.nodup, h.placed.stack, h.placed.stackNodup,
      h.placed.pool, h.placed.compare, h.placed.remove⟩
    by_cases hq : q = p
    · subst hq
      simp [h.placed.mem, hp X key, hpl X key]
    · simp [h.placed.mem, hq]
  proc := h.proc
  want := h.want
  nextPid := h.nextPid

/-- Which process is current is not part of the relation. -/
theorem setCurrent (h : Rel σ a) (p : PcbId) : Rel { σ with current := p } a :=
  ⟨h.placed.congr rfl rfl rfl, h.proc, h.want, h.nextPid⟩

/-- A store that leaves queues and PCBs alone. -/
theorem store (h : Rel σ a) (m : StackId → Nat → UInt32) (g : UInt32 → Info)
    (want : ∀ p, (a.proc p).state = .waiting →
      ({ σ with stackMem := m, heap := g } : State).want p = σ.want p) :
    Rel { σ with stackMem := m, heap := g } a where
  placed := h.placed.congr rfl rfl rfl
  proc := h.proc
  want p hp := (h.want p hp).trans (want p hp).symm
  nextPid := h.nextPid

/-- The same, where the store may change what processes wait for. -/
theorem overwrite (h : Rel σ a) (m : StackId → Nat → UInt32) (g : UInt32 → Info) :
    Rel { σ with stackMem := m, heap := g }
      { a with want := ({ σ with stackMem := m, heap := g } : State).want } where
  placed := h.placed.congr rfl rfl rfl
  proc := h.proc
  want _ _ := rfl
  nextPid := h.nextPid

/-- A change of the PCB of a process that does not wait. -/
theorem modifyPcb (h : Rel σ a) {f : Pcb → Pcb} {g : Proc → Proc}
    (fg : ∀ b, (f b).proc = g b.proc) (idle : (g (a.proc p)).state ≠ .waiting) :
    Rel { σ with pcbs := Function.update σ.pcbs p (f (σ.pcbs p)) } (a.modify p g) where
  placed := h.placed.congr rfl rfl rfl
  proc q := by
    by_cases hq : q = p
    · subst hq; simp [fg, h.proc]
    · simp [hq, h.proc]
  want q hq := by
    have hne : q ≠ p := by
      rintro rfl
      exact idle (by simpa using hq)
    have hstate : (a.proc q).state = .waiting := by simpa [hne] using hq
    rw [Life.modify_want, h.want q hstate]
    symm
    exact State.want_congr (by simp [hne]) rfl (fun _ _ => rfl)
  nextPid := h.nextPid

/-- A state is stored that does not make a process wait. -/
theorem setState (h : Rel σ a) {st : ProcState} (idle : st ≠ .waiting) :
    Rel { σ with pcbs := Function.update σ.pcbs p { σ.pcbs p with state := st } }
      (a.setState p st) :=
  h.modifyPcb (f := fun b => { b with state := st }) (g := fun b => { b with state := st })
    (fun _ => rfl) idle

/-- A store into the saved context of a process that does not wait. -/
theorem setCtxWord (h : Rel σ a) (apart : a.Apart) (idle : (a.proc p).state ≠ .waiting)
    (k : Nat) (v : UInt32) : Rel (σ.setCtxWord p k v) a := by
  obtain ⟨m, hm, hkeep⟩ := σ.setCtxWord_eq p k v
  rw [hm]
  refine h.store m σ.heap fun q hq => State.want_congr rfl rfl fun s hs => hkeep s ?_
  intro hp
  rw [h.stack] at hs hp
  have : p = q := apart.own p q s hp hs
  exact idle (this ▸ hq)

end Rel

/-! ## Scheduling -/

variable {σ : State} {a : Life} {p : PcbId} {orphan : Prop}

/-- A check panics on any status but success. -/
theorem check_spec {m msg : String} {stat : Status} {Q : PUnit → State → Prop}
    {E : Halt → Prop} (bad : stat ≠ .success → E (.kpanic m msg stat.code.toNat))
    (good : stat = .success → Q ⟨⟩ σ) : wp (check m msg stat) Q E σ := by
  rw [check, wp_ite]
  exact ⟨fun h => wp_throw.mpr (bad h), fun h => good (not_not.mp h)⟩

/-! ## What the shared routines do

Each specification says how the abstract life moves, which queue has one entry
more or fewer, and that the current process and the heap stay. -/

/-- What no queue operation touches. -/
structure Frame (σ τ : State) : Prop where
  current : τ.current = σ.current
  heap : τ.heap = σ.heap

/-- What two steps leave alone. -/
theorem Frame.trans {σ τ υ : State} (h : Frame σ τ) (h' : Frame τ υ) : Frame σ υ :=
  ⟨h'.current.trans h.current, h'.heap.trans h.heap⟩

/-- One more entry in queue `X`, the others as they were. -/
def Grown (σ : State) (X : QName) (τ : State) : Prop :=
  ∃ q, τ.queues = Function.update σ.queues X q ∧
    q.items.length = (σ.queues X).items.length + 1

/-- One entry fewer in queue `X`, the others as they were. -/
def Shrunk (σ : State) (X : QName) (τ : State) : Prop :=
  ∃ q, τ.queues = Function.update σ.queues X q ∧
    q.items.length + 1 = (σ.queues X).items.length

variable {X : QName} {key : Key} {E : Halt → Prop}

/-- A process is filed in a queue, in the kernel and in the abstract life. -/
theorem Rel.filed (h : Rel σ a) {x : Kernel Status}
    (hx : wp x (fun stat τ => stat = .success ∧
      (∃ n q, τ = { σ with qnodes := n, queues := Function.update σ.queues X q } ∧
        q.items.length = (σ.queues X).items.length + 1) ∧
      Placed τ (Function.update a.place p (.queued X key)) a.freeStack) E σ) :
    wp x (fun stat τ => stat = .success ∧ Rel τ (a.move p (.queued X key)) ∧ Frame σ τ ∧
      Grown σ X τ) E σ := by
  refine wp_mono hx ?_ fun _ he => he
  rintro stat τ ⟨hstat, ⟨n, q, rfl, hlen⟩, hplaced⟩
  exact ⟨hstat, h.requeue hplaced, ⟨rfl, rfl⟩, q, rfl, hlen⟩

/-- An append files a process at the end of a queue. -/
theorem qAppend_rel (h : Rel σ a) (loose : Loose a.place p) :
    wp (qAppend X p key)
      (fun stat τ => stat = .success ∧ Rel τ (a.move p (.queued X key)) ∧ Frame σ τ ∧
        Grown σ X τ) E σ :=
  h.filed (qAppend_spec h.placed loose)

/-- An insertion files it where its key belongs. -/
theorem qInsert_rel (h : Rel σ a) (loose : Loose a.place p) :
    wp (qInsert X p key)
      (fun stat τ => stat = .success ∧ Rel τ (a.move p (.queued X key)) ∧ Frame σ τ ∧
        Grown σ X τ) E σ :=
  h.filed (qInsert_spec h.placed loose)

/-- A removal takes a process off its queue, or finds the queue empty. -/
theorem qRemove_rel (h : Rel σ a) :
    wp (qRemove X)
      (fun r τ => (r = .error .empty ∧ τ = σ ∧ (σ.queues X).qEmpty) ∨
        ∃ p key, r = .ok p ∧ a.place p = .queued X key ∧ Rel τ (a.move p .limbo) ∧
          τ.pcbs = σ.pcbs ∧ Frame σ τ ∧ Shrunk σ X τ) E σ := by
  refine wp_mono (qRemove_spec h.placed) ?_ fun _ he => he
  rintro r τ (hempty | ⟨p, key, hr, hplace, ⟨n, q, rfl, hlen⟩, hplaced⟩)
  · exact Or.inl hempty
  · exact Or.inr ⟨p, key, hr, hplace, h.requeue hplaced, rfl, ⟨rfl, rfl⟩, q, rfl, hlen⟩

/-- A removal by key takes one that the removal routine accepts, or fails. -/
theorem qRemoveByKey_rel (h : Rel σ a) :
    wp (qRemoveByKey X key)
      (fun r τ => (∃ stat, r = .error stat ∧ stat ≠ .noQnodes ∧ τ = σ) ∨
        ∃ p k, r = .ok p ∧ a.place p = .queued X k ∧
          (∀ rem, (initialQueue X).remove = some rem → rem k key) ∧ Rel τ (a.move p .limbo) ∧
          τ.pcbs = σ.pcbs ∧ Frame σ τ ∧ Shrunk σ X τ) E σ := by
  refine wp_mono (qRemoveByKey_spec h.placed) ?_ fun _ he => he
  rintro r τ (herror | ⟨p, k, hr, hplace, hrem, ⟨n, q, rfl, hlen⟩, hplaced⟩)
  · exact Or.inl herror
  · exact Or.inr ⟨p, k, hr, hplace, hrem, h.requeue hplaced, rfl, ⟨rfl, rfl⟩, q, rfl, hlen⟩

/-- The same where a process is filed under what the removal looks for. -/
theorem qRemoveByKey_target (h : Rel σ a) {k : Key} (hp : a.place p = .queued X k)
    {rem : Key → Key → Bool} (hX : (initialQueue X).remove = some rem) (hkey : rem k key) :
    wp (qRemoveByKey X key)
      (fun r τ => ∃ q k', r = .ok q ∧ a.place q = .queued X k' ∧ rem k' key ∧
        Rel τ (a.move q .limbo) ∧ τ.pcbs = σ.pcbs ∧ Frame σ τ ∧ Shrunk σ X τ) E σ := by
  refine wp_mono
    (wp_and (qRemoveByKey_rel (E := E) h) (qRemoveByKey_hits (E := E) h.placed hp hX hkey)) ?_
    fun _ he => he.1
  intro r τ ⟨hrel, q, hq⟩
  subst hq
  rcases hrel with ⟨_, hbad, _⟩ | ⟨q', k', hr, hplace, hrem, hrest⟩
  · cases hbad
  · exact ⟨q', k', hr, hplace, hrem rem hX, hrest⟩

/-- **`_schedule`** makes a process ready and files it by its priority. -/
theorem schedule_rel (h : Rel σ a) (loose : Loose a.place p) (prio : UInt8) :
    wp (schedule p prio)
      (fun _ τ => Rel τ ((a.setState p .ready).move p (.queued (.ready (readyIndex prio)) 0)) ∧
        Frame σ τ ∧ Grown σ (.ready (readyIndex prio)) τ) E σ := by
  have hready : Rel { σ with
      pcbs := Function.update σ.pcbs p { σ.pcbs p with state := .ready } } (a.setState p .ready) :=
    h.setState (by decide)
  rw [schedule, setState, Cumulonimbus.modifyPcb, wp_bind, wp_modify]
  refine wp_seq (qAppend_rel hready loose) ?_
  rintro stat τ ⟨hstat, hrel, hframe, hgrown⟩
  exact check_spec (absurd hstat) fun _ => ⟨hrel, ⟨hframe.current, hframe.heap⟩, hgrown⟩

/-- A PCB update through a pointer. -/
theorem modifyPcb_rel (h : Rel σ a) {f : Pcb → Pcb} {g : Proc → Proc}
    (fg : ∀ b, (f b).proc = g b.proc) (idle : (g (a.proc p)).state ≠ .waiting) :
    wp (modifyPcb p f)
      (fun _ τ => Rel τ (a.modify p g) ∧ Frame σ τ ∧
        τ.pcbs = Function.update σ.pcbs p (f (σ.pcbs p))) E σ := by
  rw [Cumulonimbus.modifyPcb, wp_modify]
  exact ⟨h.modifyPcb fg idle, ⟨rfl, rfl⟩, rfl⟩

/-- Every pid that is handed out is the next one. -/
theorem pidNext_rel (h : Rel σ a) :
    wp pidNext
      (fun pid τ => pid = a.nextPid ∧
        Rel τ { a with nextPid := { a.nextPid with id := a.nextPid.id + 1 } } ∧ Frame σ τ ∧
        τ.pcbs = σ.pcbs) E σ := by
  rw [pidNext, wp_bind, wp_get, wp_bind, wp_set, wp_pure]
  refine ⟨h.nextPid.symm, ⟨h.placed.congr rfl rfl rfl, h.proc, h.want, ?_⟩, ⟨rfl, rfl⟩, rfl⟩
  rw [h.nextPid]

/-- A pid and a status written to an address: a process that waits there may find
that pid. -/
theorem modifyInfo_rel (h : Rel σ a) (info : UInt32) (i : Info) :
    wp (modifyInfo info fun _ => i)
      (fun _ τ => ∃ w : PcbId → Pid,
        (∀ x, (a.proc x).state = .waiting → w x = a.want x ∨ w x = i.pid) ∧
        Rel τ { a with want := w } ∧
        τ = { σ with heap := Function.update σ.heap info i }) E σ := by
  rw [modifyInfo, wp_modify]
  refine ⟨_, fun x hx => ?_, h.overwrite σ.stackMem (Function.update σ.heap info i), rfl⟩
  rw [h.want x hx]
  by_cases hinfo : σ.arg x 1 = info
  · right
    change (Function.update σ.heap info i (σ.arg x 1)).pid = i.pid
    rw [hinfo, Function.update_self]
  · left
    change (Function.update σ.heap info i (σ.arg x 1)).pid = (σ.heap (σ.arg x 1)).pid
    rw [Function.update_of_ne hinfo]

/-- Freeing the stack of a process that does not wait. -/
theorem stackFree_rel (h : Rel σ a) (apart : a.Apart) (idle : (a.proc p).state ≠ .waiting) :
    wp (stackFree (a.proc p).stack)
      (fun stat τ => (stat = .badParam ∧ (a.proc p).stack = none) ∨ stat = .success ∧
        Rel τ { a with freeStack := fun s => a.freeStack s ∨ (a.proc p).stack = some s } ∧
        Frame σ τ ∧ τ.queues = σ.queues) E σ := by
  cases hp : (a.proc p).stack with
  | none => exact Or.inl ⟨rfl, rfl⟩
  | some s =>
    refine wp_mono (stackFree_spec h.placed (apart.held p s hp)) ?_ fun _ he => he
    rintro stat τ ⟨hstat, ⟨n, q, m, rfl, hm⟩, hplaced⟩
    refine Or.inr ⟨hstat, ⟨hplaced, h.proc, fun x hx => ?_, h.nextPid⟩, ⟨rfl, rfl⟩, rfl⟩
    rw [h.want x hx]
    symm
    refine State.want_congr rfl rfl fun t ht => hm t ?_
    rintro rfl
    rw [h.stack] at ht
    exact idle (apart.own p x t hp ht ▸ hx)

/-- Clearing a PCB and putting it on the free list. -/
theorem pcbFree_rel (h : Rel σ a) (loose : Loose a.place p) :
    wp (pcbFree p)
      (fun stat τ => stat = .success ∧
        Rel τ ((a.modify p fun _ => Pcb.proc {}).move p (.queued .pcbAvail 0)) ∧
        Frame σ τ ∧ Grown σ .pcbAvail τ) E σ := by
  have hcleared : Rel { σ with pcbs := Function.update σ.pcbs p {} }
      (a.modify p fun _ => Pcb.proc {}) :=
    h.modifyPcb (f := fun _ => {}) (fun _ => rfl) (by decide)
  rw [pcbFree, Cumulonimbus.modifyPcb, wp_bind, wp_modify]
  refine wp_mono (qAppend_rel hcleared loose) ?_ fun _ he => he
  rintro stat τ ⟨hstat, hrel, hframe, hgrown⟩
  exact ⟨hstat, hrel, ⟨hframe.current, hframe.heap⟩, hgrown⟩

/-! ## The dispatcher's fuel -/

/-- How much an entry of a queue counts for in `dispatchFuel`. -/
def QName.weight : QName → Nat
  | .ready _ => 1
  | .waiting => 1
  | _ => 0

/-- The fuel of the dispatcher counts entries, so it follows the length of the queue that changes.
-/
theorem dispatchFuel_update {σ τ : State} {q : Queue PcbId}
    (h : τ.queues = Function.update σ.queues X q) :
    τ.dispatchFuel + X.weight * (σ.queues X).items.length =
      σ.dispatchFuel + X.weight * q.items.length := by
  have hfin : List.finRange nPriorities = [0, 1, 2, 3] := rfl
  simp only [State.dispatchFuel, h, hfin, List.map_cons, List.map_nil, List.sum_cons,
    List.sum_nil]
  cases X with
  | ready i =>
    have hi : ∀ j : Fin nPriorities, j = 0 ∨ j = 1 ∨ j = 2 ∨ j = 3 := by decide
    rcases hi i with rfl | rfl | rfl | rfl <;> simp +decide [QName.weight] <;> omega
  | waiting => simp [QName.weight]; omega
  | _ => simp [QName.weight]

/-- It depends on nothing but the queues. -/
theorem dispatchFuel_congr {σ τ : State} (h : τ.queues = σ.queues) :
    τ.dispatchFuel = σ.dispatchFuel := by
  simp only [State.dispatchFuel, h]

/-- It grows with a queue. -/
theorem Grown.dispatchFuel {τ : State} (h : Grown σ X τ) :
    τ.dispatchFuel = σ.dispatchFuel + X.weight := by
  obtain ⟨q, hqueues, hlen⟩ := h
  have hfuel := dispatchFuel_update hqueues
  rw [hlen, Nat.mul_add] at hfuel
  omega

/-- It shrinks with a queue. -/
theorem Shrunk.dispatchFuel {τ : State} (h : Shrunk σ X τ) :
    τ.dispatchFuel + X.weight = σ.dispatchFuel := by
  obtain ⟨q, hqueues, hlen⟩ := h
  have hfuel := dispatchFuel_update hqueues
  rw [← hlen, Nat.mul_add] at hfuel
  omega

end Cumulonimbus
