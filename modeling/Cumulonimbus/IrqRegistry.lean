import Cumulonimbus.IrqLists

/-!
# Interrupt delivery as a registry

What the lists are for: every vector has the handlers registered for it, in order.  An
interrupt calls them up to the first that ends it, and registering and deleting edit one
vector's handlers.  The memory of the kernel answers every sequence of calls and interrupts
as the registry does, as long as its allocator, which takes nothing back, has addresses left.
-/

namespace Cumulonimbus.Irqs

open Exec Linked

variable {s t : State} {E : Fault → Prop} {nodes : Fin 256 → List UInt32} {v : Fin 256}
  {l : List UInt32} {a : UInt32}

/-! ## The functions on lists -/

/-- The memory with the action `a` registered behind `last`. -/
def State.appended (s : State) (last a handler : UInt32) : State :=
  let s := { s.setAction a ⟨handler, 0, 0⟩ with kallocBase := a + actionSize }
  { s.setAction last { s.actions last with next := a } with edits := s.edits ++ [false] }

/-- `_interrupt_add_isr` with memory. -/
theorem interruptAddIsr_spec {vector : Int32} {handler : UInt32} (hv : vectorOf vector = some v)
    (ha : Alignment.qword.apply s.kallocBase = a) (hne : a ≠ 0)
    (path : Path (s.setAction a ⟨handler, 0, 0⟩).link (some (s.vectorTable v))
      (s.vectorTable v :: l) none) :
    wp (interruptAddIsr handler vector)
      (fun r t => r = .success ∧
        t = s.appended ((s.vectorTable v :: l).getLast (List.cons_ne_nil _ _)) a handler) E s := by
  rw [interruptAddIsr, hv]
  dsimp only
  rw [wp_bind, wp_kallocAligned, ha, if_neg hne, wp_bind, wp_modify, wp_bind,
    wp_interruptIsEnabled, wp_bind, wp_interruptEnable, wp_bind, wp_get]
  have hlen := length_lt_addresses path
  rw [List.length_cons] at hlen
  refine wp_seq (lastAction_spec (l := l) path (by omega)) ?_
  intro last t hpost
  obtain ⟨rfl, rfl⟩ := hpost
  rw [wp_bind, wp_setNext, wp_bind, wp_interruptEnable, wp_pure]
  exact ⟨rfl, rfl⟩

/-- The memory with the action `n` behind `previous` taken off its list. -/
def State.removed (s : State) (previous n : UInt32) : State :=
  { s.setAction previous { s.actions previous with next := (s.actions n).next } with
    edits := s.edits ++ [false]
    enabled := true }

/-- `_interrupt_del_isr`: nothing changes if the handler is not registered. -/
theorem interruptDelIsr_spec {vector : Int32} {handler : UInt32} (hv : vectorOf vector = some v)
    (path : Path s.link (some (s.vectorTable v)) (s.vectorTable v :: l) none) :
    wp (interruptDelIsr handler vector)
      (fun r t =>
        (handler ∉ l.map s.handler ∧ r = .notFound ∧ t = s) ∨
        ∃ l₁ n l₂, l = l₁ ++ n :: l₂ ∧ handler ∉ l₁.map s.handler ∧ s.handler n = handler ∧
          r = .success ∧
          t = s.removed ((s.vectorTable v :: l₁).getLast (List.cons_ne_nil _ _)) n)
      E s := by
  rw [interruptDelIsr, hv]
  dsimp only
  rw [wp_bind, wp_interruptIsEnabled, wp_bind, wp_interruptEnable, wp_bind, wp_get]
  have hlen := length_lt_addresses path
  rw [List.length_cons] at hlen
  exact removeAction_spec (s := { s with enabled := false }) (l := l) handler s.enabled path
    (by omega)

/-- The numbers from 0 to 255 are vectors. -/
theorem vectorOf_ofNat : ∀ v : Fin 256, vectorOf (Int32.ofNat v) = some v := by
  decide +kernel

/-- The global handler. -/
theorem interruptGlobalHandler_spec (code : Int32) (ends : Nat → Bool) (handlers : List UInt32)
    (path : Path s.link (some (s.vectorTable v)) (s.vectorTable v :: l) none)
    (present : s.vectorTable v ≠ 0) (sentinel : s.handler (s.vectorTable v) = 0)
    (registered : l.map s.handler = handlers) (quiet : s.terminateIsr = false) :
    wp (interruptGlobalHandler (Int32.ofNat v) code ends)
      (fun _ t => SameLists s t ∧ ∃ actions outs, t = { s with
        actions := actions
        outs := outs
        handlingInt := false
        terminateIsr := false
        called := s.called ++ (deliver ends (handlers.filter (· ≠ 0))).map
          (⟨·, Int32.ofNat v, code⟩) }) E s := by
  rw [interruptGlobalHandler, wp_bind, wp_interruptIsEnabled, wp_bind, wp_interruptEnable,
    vectorOf_ofNat]
  dsimp only
  rw [wp_bind, wp_modify, wp_bind, wp_get]
  have hlen := length_lt_addresses path
  have hpath := path
  rw [← pointer_of_ne present] at hpath
  refine wp_seq (handleActions_spec _ code ends (0 :: handlers) hpath ?_ rfl quiet hlen) ?_
  · rw [List.map_cons, ← registered]
    exact congrArg (· :: l.map s.handler) sentinel
  · intro _ t hpost
    obtain ⟨hsame, actions, terminate, rfl⟩ := hpost
    rw [wp_bind, wp_modify, wp_bind, wp_modify, wp_bind, wp_interruptClear, wp_interruptEnable]
    exact ⟨⟨hsame.table, hsame.link, hsame.handler⟩, actions,
      s.outs ++ acknowledgement (Int32.ofNat v), rfl⟩

/-! ## Waiting -/

/-- What interrupts change that go to the handler of `_interrupt_wait`. -/
def Waited (s t : State) : Prop :=
  ∃ count handled called terminate outs,
    (s.handlingInt = false → terminate = s.terminateIsr) ∧
    t = { s with
      waitIrqCount := count
      handledInt := handled
      called := called
      terminateIsr := terminate
      outs := outs }

/-- No interrupt has come. -/
theorem Waited.refl (s : State) : Waited s s := ⟨_, _, _, _, _, fun _ => rfl, rfl⟩

/-- First some interrupts, then others. -/
theorem Waited.trans {u : State} (h : Waited s t) (h' : Waited t u) : Waited s u := by
  obtain ⟨_, _, _, terminate, _, hquiet, rfl⟩ := h
  obtain ⟨count', handled', called', terminate', outs', hquiet', rfl⟩ := h'
  exact ⟨count', handled', called', terminate', outs', fun h => (hquiet' h).trans (hquiet h), rfl⟩

/-- The handler of a wait counts what it waits for. -/
theorem interruptWaitHandler_spec (vector code : Int32) (ends : Nat → Bool) :
    wp (interruptWaitHandler vector code ends) (fun _ t => Waited s t) E s := by
  rw [interruptWaitHandler, wp_bind, wp_interruptIsEnabled, wp_bind, wp_interruptEnable, wp_bind,
    wp_modify, wp_bind, wp_get]
  dsimp only
  split
  · rw [wp_bind, wp_callHandler, wp_bind, wp_interruptClear, wp_interruptEnable]
    refine ⟨_, _, _, _, _, fun hidle => ?_, rfl⟩
    rw [hidle, Bool.and_false, Bool.false_or]
  · rw [wp_bind, wp_interruptClear, wp_interruptEnable]
    exact ⟨_, _, _, _, _, fun _ => rfl, rfl⟩

/-- An interrupt while the vectors go to the handler of `_interrupt_wait`. -/
theorem interrupt_waited (i : Arrival) (waiting : s.isrTable = fun _ => .waitHandler) :
    wp (interrupt i) (fun _ t => Waited s t) E s := by
  rw [interrupt, wp_bind, wp_interruptIsEnabled, cli, wp_bind, wp_modify, wp_bind, wp_get, waiting]
  dsimp only
  refine wp_seq (interruptWaitHandler_spec _ i.code i.ends) ?_
  intro _ t hpost
  obtain ⟨count, handled, called, terminate, outs, hquiet, rfl⟩ := hpost
  rw [wp_modify]
  refine ⟨count, handled, called, terminate, outs, hquiet, ?_⟩
  rw [← waiting]

/-- A wait leaves the table alone. -/
theorem Waited.isrTable (h : Waited s t) : t.isrTable = s.isrTable := by
  obtain ⟨_, _, _, _, _, _, rfl⟩ := h
  rfl

/-- Interrupts one after the other, while the wait handler is installed. -/
theorem forM_waited (arrivals : List Arrival) (waiting : s.isrTable = fun _ => .waitHandler) :
    wp (forM arrivals interrupt) (fun _ t => Waited s t) E s := by
  induction arrivals generalizing s with
  | nil => exact .refl s
  | cons i arrivals ih =>
    rw [List.forM_cons]
    refine wp_seq (interrupt_waited i waiting) ?_
    intro _ t ht
    exact wp_mono (ih (ht.isrTable.trans waiting)) (fun _ _ hu => ht.trans hu) fun _ he => he

/-- The loop waits until its time is over. -/
theorem waitLoop_waited (during : Nat → List Arrival) (timeoutMs k : Nat)
    (waiting : s.isrTable = fun _ => .waitHandler) :
    wp (waitLoop during timeoutMs k) (fun _ t => Waited s t) E s := by
  induction timeoutMs generalizing s k with
  | zero => exact .refl s
  | succ timeoutMs ih =>
    rw [waitLoop, wp_bind, wp_get]
    split
    · refine wp_seq (forM_waited (during k) waiting) ?_
      intro _ t ht
      exact wp_mono (ih (k + 1) (ht.isrTable.trans waiting)) (fun _ _ hu => ht.trans hu)
        fun _ he => he
    · exact .refl s

/-- `_interrupt_wait` leaves the vectors with the global handler. -/
theorem interruptWait_spec (timeoutMs handler : UInt32) (arrivals : Arrivals) :
    wp (interruptWait timeoutMs handler arrivals)
      (fun _ t => ∃ u, Waited s u ∧
        t = { u with testHandler := 0, isrTable := fun _ => .globalHandler }) E s := by
  rw [interruptWait, wp_bind, wp_interruptIsEnabled, wp_bind, wp_interruptEnable, wp_bind,
    wp_modify, wp_bind, wp_installAll, wp_bind, wp_interruptEnable]
  refine wp_seq (forM_waited arrivals.early rfl) ?_
  intro _ t ht
  refine wp_seq (waitLoop_waited arrivals.during timeoutMs.toNat 0 (ht.isrTable.trans rfl)) ?_
  intro _ u hu
  have htu := ht.trans hu
  refine wp_seq (forM_waited arrivals.late (htu.isrTable.trans rfl)) ?_
  intro _ w hw
  obtain ⟨count, handled, called, terminate, outs, hquiet, rfl⟩ := htu.trans hw
  rw [wp_bind, wp_interruptEnable, wp_bind, wp_modify, wp_bind, wp_installAll, wp_bind,
    wp_interruptEnable, wp_bind, wp_get]
  have hdone : ∃ u, Waited s u ∧ ({ s with
      waitIrqCount := count
      handledInt := handled
      called := called
      terminateIsr := terminate
      outs := outs
      testHandler := 0
      isrTable := fun _ => .globalHandler } : State) =
      { u with testHandler := 0, isrTable := fun _ => .globalHandler } :=
    ⟨{ s with
        waitIrqCount := count
        handledInt := handled
        called := called
        terminateIsr := terminate
        outs := outs }, ⟨count, handled, called, terminate, outs, hquiet, rfl⟩, rfl⟩
  split
  · exact hdone
  · split
    · exact hdone
    · exact hdone

/-! ## Initialization -/

/-- The sentinels of the vectors `done` are allocated, and no two share memory. -/
structure Sentinels (s : State) (done : List (Fin 256)) : Prop where
  present : ∀ v ∈ done, s.vectorTable v ≠ 0
  below : ∀ v ∈ done, (s.vectorTable v).toNat < s.kallocBase.toNat
  single : ∀ v ∈ done, s.link (s.vectorTable v) = none ∧ s.handler (s.vectorTable v) = 0
  apart : ∀ v ∈ done, ∀ w ∈ done, v ≠ w → s.vectorTable v ≠ s.vectorTable w

/-- Before the first vector. -/
theorem Sentinels.nil (s : State) : Sentinels s [] :=
  ⟨by simp, by simp, by simp, by simp⟩

/-- The memory after a vector was initialized with the sentinel `a`. -/
def State.sentinelAt (s : State) (i : Fin 256) (a : UInt32) : State :=
  { s.setAction a ⟨0, 0, 0⟩ with
    kallocBase := a + actionSize
    vectorTable := Function.update s.vectorTable i a
    edits := s.edits ++ [s.enabled] }

/-- A vector gets a node that stands for no handler. -/
theorem wp_initVector {Q : Unit → State → Prop} (i : Fin 256)
    (h : Q () (s.sentinelAt i (Alignment.qword.apply s.kallocBase))) :
    wp (initVector i) Q E s := by
  rw [initVector, wp_bind, wp_kallocAligned, wp_bind, wp_modify, wp_bind, wp_setNext, wp_modify]
  refine cast (congrArg (Q ()) ?_) h
  rw [State.sentinelAt, State.setAction, State.setAction, State.setAction]
  dsimp only
  rw [Function.update_idem, Function.update_self]

/-- Bytes that an allocation of an action may use up. -/
def actionNeed : Nat := 19

/-- An allocation that stays below the end of the address space. -/
theorem kallocAligned_bounds (fits : s.kallocBase.toNat + actionNeed < 0x100000000) :
    s.kallocBase.toNat ≤ (Alignment.qword.apply s.kallocBase).toNat ∧
      (Alignment.qword.apply s.kallocBase + actionSize).toNat =
        (Alignment.qword.apply s.kallocBase).toNat + 12 ∧
      (Alignment.qword.apply s.kallocBase).toNat + 12 ≤ s.kallocBase.toNat + actionNeed := by
  have hneed : actionNeed = 19 := rfl
  have hbounds : s.kallocBase.toNat ≤ (Alignment.qword.apply s.kallocBase).toNat ∧
      (Alignment.qword.apply s.kallocBase).toNat ≤ s.kallocBase.toNat + 7 :=
    alignUp_bounds 7 s.kallocBase (show s.kallocBase.toNat + 7 < 0x100000000 by omega)
  rw [UInt32.toNat_add, show actionSize.toNat = 12 from rfl]
  omega

/-- A link is stored. -/
theorem setAction_link (s : State) (a : UInt32) (action : Action) (b : UInt32) :
    (s.setAction a action).link b = if b = a then pointer 0 action.next else s.link b := by
  rw [State.link, setAction_actions]
  split <;> rfl

/-- A handler is stored. -/
theorem setAction_handler (s : State) (a : UInt32) (action : Action) (b : UInt32) :
    (s.setAction a action).handler b = if b = a then action.handler else s.handler b := by
  rw [State.handler, setAction_actions]
  split <;> rfl

/-- The new action is written first, and then the link of the last one. -/
theorem appended_link (s : State) (last a handler : UInt32) (b : UInt32) :
    (s.appended last a handler).link b =
      if b = last then pointer 0 a else if b = a then pointer 0 0 else s.link b := by
  refine (setAction_link _ last _ b).trans ?_
  split
  · rfl
  · exact setAction_link s a ⟨handler, 0, 0⟩ b

/-- A node that is appended has its handler; the others keep theirs. -/
theorem appended_handler (s : State) {last a : UInt32} (handler : UInt32) (hlast : last ≠ a)
    (b : UInt32) :
    (s.appended last a handler).handler b = if b = a then handler else s.handler b := by
  refine (setAction_handler _ last _ b).trans ?_
  split
  case isTrue hb =>
    rw [hb, if_neg hlast]
    exact (setAction_handler s a ⟨handler, 0, 0⟩ last).trans (if_neg hlast)
  case isFalse => exact setAction_handler s a ⟨handler, 0, 0⟩ b

/-- One more sentinel. -/
theorem Sentinels.step {done : List (Fin 256)} (h : Sentinels s done) (i : Fin 256)
    (started : 0 < s.kallocBase.toNat)
    (fits : s.kallocBase.toNat + actionNeed < 0x100000000) :
    Sentinels (s.sentinelAt i (Alignment.qword.apply s.kallocBase)) (i :: done) := by
  obtain ⟨hle, hnext, -⟩ := kallocAligned_bounds fits
  generalize Alignment.qword.apply s.kallocBase = a at hle hnext
  have hbase : (s.sentinelAt i a).kallocBase.toNat = a.toNat + 12 := hnext
  have hi : (s.sentinelAt i a).vectorTable i = a := Function.update_self ..
  have hne (v : Fin 256) (hv : v ≠ i) : (s.sentinelAt i a).vectorTable v = s.vectorTable v :=
    Function.update_of_ne hv ..
  have hother (v : Fin 256) (hv : v ∈ done) : s.vectorTable v ≠ a := by
    intro hva
    have hbelow := h.below v hv
    rw [hva] at hbelow
    omega
  have hlink (b : UInt32) : (s.sentinelAt i a).link b = if b = a then none else s.link b :=
    setAction_link s a ⟨0, 0, 0⟩ b
  have hhandler (b : UInt32) : (s.sentinelAt i a).handler b = if b = a then 0 else s.handler b :=
    setAction_handler s a ⟨0, 0, 0⟩ b
  have hcase (v : Fin 256) (hv : v ∈ i :: done) : v = i ∨ v ≠ i ∧ v ∈ done := by
    by_cases hvi : v = i
    · exact .inl hvi
    · exact .inr ⟨hvi, (List.mem_cons.mp hv).resolve_left hvi⟩
  refine ⟨fun v hv => ?_, fun v hv => ?_, fun v hv => ?_, fun v hv w hw hvw => ?_⟩
  · rcases hcase v hv with rfl | ⟨hvi, hv⟩
    · rw [hi]
      intro hzero
      rw [hzero] at hle
      exact absurd hle (Nat.not_le.mpr started)
    · rw [hne v hvi]
      exact h.present v hv
  · rw [hbase]
    rcases hcase v hv with rfl | ⟨hvi, hv⟩
    · rw [hi]
      omega
    · rw [hne v hvi]
      have hbelow := h.below v hv
      omega
  · rw [hlink, hhandler]
    rcases hcase v hv with rfl | ⟨hvi, hv⟩
    · rw [hi, if_pos rfl, if_pos rfl]
      exact ⟨rfl, rfl⟩
    · rw [hne v hvi, if_neg (hother v hv), if_neg (hother v hv)]
      exact h.single v hv
  · rcases hcase v hv with hvi | ⟨hvi, hvd⟩
    · rcases hcase w hw with hwi | ⟨hwi, hwd⟩
      · exact absurd (hvi.trans hwi.symm) hvw
      · rw [hvi, hi, hne w hwi]
        exact (hother w hwd).symm
    · rcases hcase w hw with hwi | ⟨hwi, hwd⟩
      · rw [hwi, hi, hne v hvi]
        exact hother v hvd
      · rw [hne v hvi, hne w hwi]
        exact h.apart v hvd w hwd hvw

/-- What the initialization of vectors leaves alone. -/
def SentinelsOnly (s t : State) : Prop :=
  ∃ base actions table edits, t = { s with
    kallocBase := base
    actions := actions
    vectorTable := table
    edits := edits }

/-- The loop has given each vector so far a node, in room that was free. -/
theorem initVectors_spec {done : List (Fin 256)} (l : List (Fin 256)) (h : Sentinels s done)
    (started : 0 < s.kallocBase.toNat)
    (fits : s.kallocBase.toNat + l.length * actionNeed < 0x100000000) :
    wp (forM l initVector)
      (fun _ t => Sentinels t (l.reverse ++ done) ∧ SentinelsOnly s t ∧
        t.kallocBase.toNat ≤ s.kallocBase.toNat + l.length * actionNeed ∧
        0 < t.kallocBase.toNat) E s := by
  induction l generalizing s done with
  | nil => exact ⟨h, ⟨_, _, _, _, rfl⟩, Nat.le_add_right _ _, started⟩
  | cons i l ih =>
    rw [List.length_cons, Nat.add_mul, Nat.one_mul] at fits ⊢
    obtain ⟨hle, hnext, hneed⟩ := kallocAligned_bounds (s := s) (by omega)
    have hstep := h.step i started (by omega)
    rw [List.forM_cons, wp_bind]
    refine wp_initVector i ?_
    have hbase : (s.sentinelAt i (Alignment.qword.apply s.kallocBase)).kallocBase.toNat =
        (Alignment.qword.apply s.kallocBase).toNat + 12 := hnext
    refine wp_mono (ih hstep (by omega) (by omega)) ?_ fun _ he => he
    intro _ t hpost
    obtain ⟨hdone, ⟨base, actions, table, edits, rfl⟩, hle', hpos⟩ := hpost
    refine ⟨?_, ⟨base, actions, table, edits, rfl⟩, by omega, hpos⟩
    rw [List.reverse_cons, List.append_assoc]
    exact hdone

/-! ## The registry -/

/-- **What the lists are for**: the handlers of each vector, in order of registration. -/
abbrev Registry := Fin 256 → List UInt32

/-- Calls of the kernel, and interrupts. -/
inductive Event
  | add (handler : UInt32) (vector : Int32)
  | del (handler : UInt32) (vector : Int32)
  | terminate
  | interrupt (i : Arrival)
  | wait (timeoutMs handler : UInt32) (arrivals : Arrivals)
  | swapIdt (basic : Bool)
  | enable (b : Bool)
  | kalloc (bytes : UInt32)
  | kallocAligned (bytes : UInt32) (alignment : Alignment)

/-- What a caller is told, or which handlers an interrupt calls. -/
inductive Answer
  | done
  | status (status : Status)
  | called (calls : List Call)
  deriving DecidableEq

def Event.run : Event → Irq Answer
  | .add handler vector => do
    let status ← interruptAddIsr handler vector
    return .status status
  | .del handler vector => do
    let status ← interruptDelIsr handler vector
    return .status status
  | .terminate => do
    interruptTerminate
    return .done
  | .interrupt i => do
    let before ← get
    Irqs.interrupt i
    let after ← get
    return .called (after.called.drop before.called.length)
  | .wait timeoutMs handler arrivals => do
    let _ ← interruptWait timeoutMs handler arrivals
    return .done
  | .swapIdt basic => do
    interruptSwapIdt basic
    return .done
  | .enable b => do
    interruptEnable b
    return .done
  | .kalloc bytes => do
    let _ ← Irqs.kalloc bytes
    return .done
  | .kallocAligned bytes alignment => do
    let _ ← Irqs.kallocAligned bytes alignment
    return .done

/-- Registering comes last in the vector's list, deleting takes the first registration of the
handler, and an interrupt calls the vector's handlers up to the first that ends it.  A `NULL`
handler can be registered and is never called. -/
def Registry.answer (reg : Registry) : Event → Answer × Registry
  | .add handler vector =>
    match vectorOf vector with
    | none => (.status .badParam, reg)
    | some v => (.status .success, Function.update reg v (reg v ++ [handler]))
  | .del handler vector =>
    match vectorOf vector with
    | none => (.status .badParam, reg)
    | some v =>
      if handler ∈ reg v then (.status .success, Function.update reg v ((reg v).erase handler))
      else (.status .notFound, reg)
  | .interrupt i =>
    (.called ((deliver i.ends ((reg i.vector).filter (· ≠ 0))).map
      (⟨·, Int32.ofNat i.vector, i.code⟩)), reg)
  | _ => (.done, reg)

def Registry.answers : List Event → Registry → List Answer
  | [], _ => []
  | e :: es, reg => (reg.answer e).1 :: answers es (reg.answer e).2

def Registry.after (events : List Event) (reg : Registry) : Registry :=
  events.foldl (fun reg e => (reg.answer e).2) reg

/-- The memory an event may take. -/
def Event.need : Event → Nat
  | .add .. => actionNeed
  | .kalloc bytes => bytes.toNat
  | .kallocAligned bytes _ => bytes.toNat + 15
  | _ => 0

def needs : List Event → Nat
  | [] => 0
  | e :: es => e.need + needs es

/-- Between calls: the lists are there, below what is still free, no interrupt is being handled,
and all vectors go to the global handler. -/
structure Ready (s : State) (nodes : Fin 256 → List UInt32) : Prop where
  lists : Lists s nodes
  present : ∀ v, s.vectorTable v ≠ 0
  below : ∀ v, ∀ a ∈ s.vectorTable v :: nodes v, a.toNat < s.kallocBase.toNat
  idle : s.handlingInt = false
  quiet : s.terminateIsr = false
  installed : s.isrTable = fun _ => .globalHandler

/-- **The lists in memory are those of the registry.** -/
def State.Holds (s : State) (reg : Registry) : Prop :=
  ∃ nodes, Ready s nodes ∧ ∀ v, (nodes v).map s.handler = reg v

variable {reg : Registry}

/-- What leaves the lists alone keeps the registry. -/
theorem State.Holds.same (h : s.Holds reg) (same : SameLists s t)
    (base : s.kallocBase.toNat ≤ t.kallocBase.toNat) (idle : t.handlingInt = false)
    (quiet : t.terminateIsr = false) (installed : t.isrTable = fun _ => .globalHandler) :
    t.Holds reg := by
  obtain ⟨nodes, ready, hreg⟩ := h
  refine ⟨nodes, ⟨ready.lists.same same, ?_, ?_, idle, quiet, installed⟩, fun v => ?_⟩
  · rw [same.table]
    exact ready.present
  · rw [same.table]
    exact fun v a ha => (ready.below v a ha).trans_le base
  · rw [handlers_same _ same]
    exact hreg v

/-- Sentinels only, and no interrupt being handled. -/
theorem Sentinels.holds {done : List (Fin 256)} (h : Sentinels s done) (all : ∀ v, v ∈ done)
    (idle : s.handlingInt = false) (quiet : s.terminateIsr = false)
    (installed : s.isrTable = fun _ => .globalHandler) : s.Holds (fun _ => []) := by
  refine ⟨fun _ => [],
    ⟨⟨fun v => ⟨rfl, (h.single v (all v)).1⟩, fun v => (h.single v (all v)).2, ?_⟩,
    fun v => h.present v (all v), ?_, idle, quiet, installed⟩, fun _ => rfl⟩
  · intro v w hvw a ha ha'
    rw [List.mem_singleton] at ha ha'
    exact h.apart v (all v) w (all w) hvw (ha.symm.trans ha')
  · intro v a ha
    rw [List.mem_singleton.mp ha]
    exact h.below v (all v)

attribute [local irreducible] wp

/-- **After `_interrupt_init`** no handler is registered for any vector. -/
theorem initVectors_holds (l : List (Fin 256)) (all : ∀ v, v ∈ l) (state : Bool)
    (idle : s.handlingInt = false) (quiet : s.terminateIsr = false)
    (started : 0 < s.kallocBase.toNat)
    (fits : s.kallocBase.toNat + l.length * actionNeed < 0x100000000) :
    wp (do
        forM l initVector
        installAll .globalHandler
        interruptEnable state
        return Status.success)
      (fun _ t => t.Holds (fun _ => []) ∧
        t.kallocBase.toNat ≤ s.kallocBase.toNat + l.length * actionNeed ∧
        0 < t.kallocBase.toNat) E s := by
  refine wp_seq (initVectors_spec l (.nil _) started fits) ?_
  intro _ t hpost
  obtain ⟨hsentinels, ⟨base, actions, table, edits, rfl⟩, hbase⟩ := hpost
  rw [wp_bind, wp_installAll, wp_bind, wp_interruptEnable, wp_pure]
  refine ⟨Sentinels.holds ⟨hsentinels.present, hsentinels.below, hsentinels.single,
    hsentinels.apart⟩ (by simp [all]) idle quiet rfl, hbase⟩

/-- The memory that `_interrupt_init` may take. -/
def initNeed : Nat := 256 * actionNeed

/-- After `_interrupt_init` nothing is registered. -/
theorem interruptInit_holds (idle : s.handlingInt = false) (quiet : s.terminateIsr = false)
    (started : 0 < s.kallocBase.toNat)
    (fits : s.kallocBase.toNat + initNeed < 0x100000000) :
    wp interruptInit
      (fun _ t => t.Holds (fun _ => []) ∧
        t.kallocBase.toNat ≤ s.kallocBase.toNat + initNeed ∧ 0 < t.kallocBase.toNat) E s := by
  have hneed : (List.finRange 256).length * actionNeed = initNeed := by
    rw [List.length_finRange, initNeed]
  rw [interruptInit, wp_bind, wp_interruptIsEnabled, wp_bind, wp_interruptEnable]
  rw [← hneed] at fits ⊢
  exact initVectors_holds (s := { s with enabled := false }) _ List.mem_finRange s.enabled idle
    quiet
    started fits

/-! ## One event -/

/-- `_interrupt_add_isr` registers the handler last. -/
theorem interruptAddIsr_holds {vector : Int32} {handler : UInt32} (h : s.Holds reg)
    (hv : vectorOf vector = some v) (started : 0 < s.kallocBase.toNat)
    (fits : s.kallocBase.toNat + actionNeed < 0x100000000) :
    wp (interruptAddIsr handler vector)
      (fun r t => r = .success ∧ t.Holds (Function.update reg v (reg v ++ [handler])) ∧
        s.kallocBase.toNat ≤ t.kallocBase.toNat ∧
        t.kallocBase.toNat ≤ s.kallocBase.toNat + actionNeed) E s := by
  obtain ⟨nodes, ready, hreg⟩ := h
  obtain ⟨hle, hnext, hneed⟩ := kallocAligned_bounds fits
  generalize ha : Alignment.qword.apply s.kallocBase = a at hle hnext hneed
  have hne : a ≠ 0 := by
    intro hzero
    rw [hzero] at hle
    exact absurd hle (Nat.not_le.mpr started)
  have new (w : Fin 256) : a ∉ s.vectorTable w :: nodes w := by
    intro hmem
    have hbelow := ready.below w a hmem
    omega
  have hpath : Path (s.setAction a ⟨handler, 0, 0⟩).link (some (s.vectorTable v))
      (s.vectorTable v :: nodes v) none := by
    refine (ready.lists.path v).congr fun x hx => ?_
    rw [setAction_link, if_neg fun hxa : x = a => new v (hxa ▸ hx)]
  refine wp_mono (interruptAddIsr_spec hv ha hne hpath) ?_ fun _ he => he
  intro r t hpost
  obtain ⟨rfl, ht⟩ := hpost
  generalize hlast : (s.vectorTable v :: nodes v).getLast (List.cons_ne_nil _ _) = last at ht
  have hlasta : last ≠ a := by
    intro hla
    refine new v ?_
    rw [← hla, ← hlast]
    exact List.getLast_mem _
  have htable : t.vectorTable = s.vectorTable := by rw [ht, State.appended]; rfl
  have hbase : t.kallocBase.toNat = a.toNat + 12 := by rw [ht]; exact hnext
  have hlink (x : UInt32) := appended_link s last a handler x
  have hhandler (x : UInt32) := appended_handler s handler hlasta x
  rw [← ht] at hlink hhandler
  have hlists : Lists t (Function.update nodes v (nodes v ++ [a])) := by
    refine ready.lists.add hlast.symm new htable ?_ ?_ ?_ ?_
    · rw [hlink, if_pos rfl, pointer_of_ne hne]
    · rw [hlink, if_neg hlasta.symm, if_pos rfl, pointer_null]
    · intro x hx hxa
      rw [hlink, if_neg hx, if_neg hxa]
    · intro x hxa
      rw [hhandler, if_neg hxa]
  have hsame (w : Fin 256) : (nodes w).map t.handler = reg w := by
    rw [← hreg w]
    refine List.map_congr_left fun x hx => ?_
    rw [hhandler, if_neg fun hxa : x = a => new w (hxa ▸ List.mem_cons_of_mem _ hx)]
  refine ⟨rfl, ⟨_, ⟨hlists, ?_, fun w x hx => ?_, ?_, ?_, ?_⟩, fun w => ?_⟩, by omega, by omega⟩
  · rw [htable]
    exact ready.present
  · rw [hbase]
    rw [htable] at hx
    have hold (hx : x ∈ s.vectorTable w :: nodes w) : x.toNat < a.toNat + 12 := by
      have hbelow := ready.below w x hx
      omega
    by_cases hw : w = v
    · subst hw
      rw [Function.update_self, ← List.cons_append, List.mem_append, List.mem_singleton] at hx
      rcases hx with hx | rfl
      · exact hold hx
      · omega
    · rw [Function.update_of_ne hw] at hx
      exact hold hx
  · rw [ht]
    exact ready.idle
  · rw [ht]
    exact ready.quiet
  · rw [ht]
    exact ready.installed
  · by_cases hw : w = v
    · subst hw
      rw [Function.update_self, Function.update_self, List.map_append, hsame, List.map_singleton,
        hhandler, if_pos rfl]
    · rw [Function.update_of_ne hw, Function.update_of_ne hw]
      exact hsame w

/-- `_interrupt_del_isr` takes the first registration away, or changes nothing. -/
theorem interruptDelIsr_holds {vector : Int32} {handler : UInt32} (h : s.Holds reg)
    (hv : vectorOf vector = some v) :
    wp (interruptDelIsr handler vector)
      (fun r t => t.kallocBase = s.kallocBase ∧
        if handler ∈ reg v then
          r = .success ∧ t.Holds (Function.update reg v ((reg v).erase handler))
        else r = .notFound ∧ t = s) E s := by
  obtain ⟨nodes, ready, hreg⟩ := h
  refine wp_mono (interruptDelIsr_spec hv (ready.lists.path v)) ?_ fun _ he => he
  intro r t hpost
  rcases hpost with ⟨hnot, rfl, rfl⟩ | ⟨l₁, n, l₂, hsplit, hnot, hn, rfl, ht⟩
  · rw [hreg] at hnot
    rw [if_neg hnot]
    exact ⟨rfl, rfl, rfl⟩
  · generalize hprevious : (s.vectorTable v :: l₁).getLast (List.cons_ne_nil _ _) = previous at ht
    have hrow : reg v = l₁.map s.handler ++ handler :: l₂.map s.handler := by
      rw [← hreg, hsplit, List.map_append, List.map_cons, hn]
    have htable : t.vectorTable = s.vectorTable := by rw [ht]; rfl
    have hbase : t.kallocBase = s.kallocBase := by rw [ht]; rfl
    have hlink (x : UInt32) : t.link x = if x = previous then s.link n else s.link x := by
      rw [ht]
      exact setAction_link s previous _ x
    have hhandler (x : UInt32) : t.handler x = s.handler x := by
      rw [ht]
      refine (setAction_handler s previous _ x).trans ?_
      split
      case isTrue hx => rw [hx]; rfl
      case isFalse => rfl
    have hlists : Lists t (Function.update nodes v (l₁ ++ l₂)) := by
      refine ready.lists.remove hsplit hprevious.symm htable ?_ ?_ hhandler
      · rw [hlink, if_pos rfl]
      · intro x hx
        rw [hlink, if_neg hx]
    rw [if_pos (by rw [hrow]; simp)]
    refine ⟨hbase, rfl, _, ⟨hlists, ?_, fun w x hx => ?_, ?_, ?_, ?_⟩, fun w => ?_⟩
    · rw [htable]
      exact ready.present
    · rw [htable] at hx
      rw [hbase]
      refine ready.below w x ?_
      by_cases hw : w = v
      · subst hw
        rw [Function.update_self, ← List.cons_append, List.mem_append] at hx
        rw [hsplit, ← List.cons_append]
        exact List.mem_append.mpr (hx.imp_right (List.mem_cons_of_mem n))
      · rwa [Function.update_of_ne hw] at hx
    · rw [ht]
      exact ready.idle
    · rw [ht]
      exact ready.quiet
    · rw [ht]
      exact ready.installed
    · have hmap (l : List UInt32) : l.map t.handler = l.map s.handler :=
        List.map_congr_left fun x _ => hhandler x
      by_cases hw : w = v
      · subst hw
        rw [Function.update_self, Function.update_self, hmap, List.map_append, hrow,
          List.erase_append_right _ hnot, List.erase_cons_head]
      · rw [Function.update_of_ne hw, Function.update_of_ne hw, hmap]
        exact hreg w

/-- An interrupt calls the handlers of its vector, and its request to terminate ends with it. -/
theorem interrupt_holds (h : s.Holds reg) (i : Arrival) :
    wp (interrupt i)
      (fun _ t => t.called = s.called ++
          (deliver i.ends ((reg i.vector).filter (· ≠ 0))).map
            (⟨·, Int32.ofNat i.vector, i.code⟩) ∧
        t.Holds reg ∧ t.kallocBase = s.kallocBase) E s := by
  obtain ⟨nodes, ready, hreg⟩ := id h
  rw [interrupt, wp_bind, wp_interruptIsEnabled, cli, wp_bind, wp_modify, wp_bind, wp_get,
    ready.installed]
  dsimp only
  refine wp_seq (interruptGlobalHandler_spec (s := { s with enabled := false, isrTable := _ }) i.code
    i.ends (reg i.vector) (ready.lists.path i.vector) (ready.present i.vector)
    (ready.lists.sentinel i.vector) (hreg i.vector) ready.quiet) ?_
  intro _ t hpost
  obtain ⟨same, actions, outs, rfl⟩ := hpost
  rw [wp_modify]
  refine ⟨rfl, ?_, rfl⟩
  exact h.same ⟨same.table, same.link, same.handler⟩ le_rfl rfl rfl rfl

/-- **A wait** leaves the registry as it was. -/
theorem interruptWait_holds (h : s.Holds reg) (timeoutMs handler : UInt32) (arrivals : Arrivals) :
    wp (interruptWait timeoutMs handler arrivals)
      (fun _ t => t.Holds reg ∧ t.kallocBase = s.kallocBase) E s := by
  refine wp_mono (interruptWait_spec timeoutMs handler arrivals) ?_ fun _ he => he
  intro _ t hpost
  obtain ⟨u, ⟨count, handled, called, terminate, outs, hquiet, rfl⟩, rfl⟩ := hpost
  obtain ⟨nodes, ready, -⟩ := id h
  exact ⟨h.same ⟨rfl, fun _ => rfl, fun _ => rfl⟩ le_rfl ready.idle
    ((hquiet ready.idle).trans ready.quiet) rfl, rfl⟩

/-- **One event**: the memory answers as the registry. -/
theorem Event.run_holds (h : s.Holds reg) (e : Event) (started : 0 < s.kallocBase.toNat)
    (fits : s.kallocBase.toNat + e.need < 0x100000000) :
    wp e.run
      (fun r t => r = (reg.answer e).1 ∧ t.Holds (reg.answer e).2 ∧
        s.kallocBase.toNat ≤ t.kallocBase.toNat ∧
        t.kallocBase.toNat ≤ s.kallocBase.toNat + e.need) E s := by
  obtain ⟨nodes, ready, hreg⟩ := id h
  have keep {t : State} (ht : t.Holds reg) (hbase : t.kallocBase = s.kallocBase) :
      t.Holds reg ∧ s.kallocBase.toNat ≤ t.kallocBase.toNat ∧
        t.kallocBase.toNat ≤ s.kallocBase.toNat + e.need := by
    rw [hbase]
    exact ⟨ht, le_rfl, Nat.le_add_right _ _⟩
  cases e with
  | add handler vector =>
    rw [Event.run, Registry.answer]
    cases hv : vectorOf vector with
    | none =>
      rw [interruptAddIsr, hv]
      dsimp only
      rw [wp_bind, wp_pure, wp_pure]
      exact ⟨rfl, keep h rfl⟩
    | some v =>
      refine wp_seq (interruptAddIsr_holds h hv started fits) ?_
      intro r t hpost
      obtain ⟨rfl, hpost⟩ := hpost
      rw [wp_pure]
      exact ⟨rfl, hpost⟩
  | del handler vector =>
    rw [Event.run, Registry.answer]
    cases hv : vectorOf vector with
    | none =>
      rw [interruptDelIsr, hv]
      dsimp only
      rw [wp_bind, wp_pure, wp_pure]
      exact ⟨rfl, keep h rfl⟩
    | some v =>
      refine wp_seq (interruptDelIsr_holds h hv) ?_
      intro r t hpost
      obtain ⟨hbase, hpost⟩ := hpost
      rw [wp_pure, hbase]
      dsimp only
      split at hpost
      case isTrue hmem =>
        rw [if_pos hmem]
        obtain ⟨rfl, ht⟩ := hpost
        exact ⟨rfl, ht, le_rfl, Nat.le_add_right _ _⟩
      case isFalse hnot =>
        rw [if_neg hnot]
        obtain ⟨rfl, rfl⟩ := hpost
        exact ⟨rfl, h, le_rfl, Nat.le_add_right _ _⟩
  | terminate =>
    rw [Event.run, wp_bind, wp_interruptTerminate, wp_pure, ready.idle, Bool.false_or]
    exact ⟨rfl, keep (h.same ⟨rfl, fun _ => rfl, fun _ => rfl⟩ le_rfl rfl ready.quiet
      ready.installed) rfl⟩
  | interrupt i =>
    rw [Event.run, wp_bind, wp_get]
    refine wp_seq (interrupt_holds h i) ?_
    intro _ t hpost
    obtain ⟨hcalled, ht, hbase⟩ := hpost
    rw [wp_bind, wp_get, wp_pure, hcalled, List.drop_left]
    exact ⟨rfl, keep ht hbase⟩
  | wait timeoutMs handler arrivals =>
    rw [Event.run]
    refine wp_seq (interruptWait_holds h timeoutMs handler arrivals) ?_
    intro _ t hpost
    rw [wp_pure]
    exact ⟨rfl, keep hpost.1 hpost.2⟩
  | swapIdt basic =>
    rw [Event.run, wp_bind, wp_interruptSwapIdt, wp_pure]
    exact ⟨rfl, keep (h.same ⟨rfl, fun _ => rfl, fun _ => rfl⟩ le_rfl ready.idle ready.quiet
      ready.installed) rfl⟩
  | enable b =>
    rw [Event.run, wp_bind, wp_interruptEnable, wp_pure]
    exact ⟨rfl, keep (h.same ⟨rfl, fun _ => rfl, fun _ => rfl⟩ le_rfl ready.idle ready.quiet
      ready.installed) rfl⟩
  | kalloc bytes =>
    have hnext : (s.kallocBase + bytes).toNat = s.kallocBase.toNat + bytes.toNat := by
      rw [UInt32.toNat_add]
      exact Nat.mod_eq_of_lt fits
    rw [Event.run, Irqs.kalloc, wp_bind, wp_bind, wp_get, wp_bind, wp_modify, wp_pure, wp_pure]
    refine ⟨rfl, h.same ⟨rfl, fun _ => rfl, fun _ => rfl⟩ ?_ ready.idle ready.quiet
      ready.installed, ?_, hnext.le⟩
    · exact (Nat.le_add_right _ _).trans hnext.ge
    · exact (Nat.le_add_right _ _).trans hnext.ge
  | kallocAligned bytes alignment =>
    rw [Event.need] at fits ⊢
    have hbounds := alignment.apply_bounds (a := s.kallocBase) (by omega)
    have hnext : (alignment.apply s.kallocBase + bytes).toNat =
        (alignment.apply s.kallocBase).toNat + bytes.toNat := by
      rw [UInt32.toNat_add]
      exact Nat.mod_eq_of_lt (by omega)
    rw [Event.run, wp_bind, wp_kallocAligned, wp_pure]
    have hle : s.kallocBase.toNat ≤ (alignment.apply s.kallocBase + bytes).toNat := by omega
    refine ⟨rfl, h.same ⟨rfl, fun _ => rfl, fun _ => rfl⟩ hle ready.idle ready.quiet
      ready.installed, hle, ?_⟩
    dsimp only
    omega

/-- A sequence of events. -/
theorem events_holds (events : List Event) (h : s.Holds reg) (started : 0 < s.kallocBase.toNat)
    (fits : s.kallocBase.toNat + needs events < 0x100000000) :
    wp (events.mapM Event.run)
      (fun answers t => answers = Registry.answers events reg ∧
        t.Holds (Registry.after events reg)) E s := by
  induction events generalizing s reg with
  | nil =>
    rw [List.mapM_nil, wp_pure]
    exact ⟨rfl, h⟩
  | cons e events ih =>
    rw [needs] at fits
    rw [List.mapM_cons]
    refine wp_seq (e.run_holds h started (by omega)) ?_
    intro answer t hpost
    obtain ⟨rfl, ht, hle, hle'⟩ := hpost
    refine wp_seq (ih ht (by omega) (by omega)) ?_
    intro answers u hpost
    rw [wp_pure, hpost.1]
    exact ⟨rfl, hpost.2⟩

/-- **Interrupt delivery follows the registration list.**  After `_interrupt_init`, every sequence
of calls and interrupts is answered as by the registry, whose lists are those in memory, as long
as what the allocator hands out stays below the end of the address space. -/
theorem delivery_follows_registry (events : List Event) (idle : s.handlingInt = false)
    (quiet : s.terminateIsr = false) (started : 0 < s.kallocBase.toNat)
    (fits : s.kallocBase.toNat + initNeed + needs events < 0x100000000) :
    wp (do
        let _ ← interruptInit
        events.mapM Event.run)
      (fun answers t => answers = Registry.answers events (fun _ => []) ∧
        t.Holds (Registry.after events fun _ => [])) (fun _ => False) s := by
  refine wp_seq (interruptInit_holds idle quiet started (by omega)) ?_
  intro _ t hpost
  obtain ⟨ht, hle, hstarted⟩ := hpost
  exact events_holds events ht hstarted (by omega)

/-- Two handlers, one of them registered twice: the second call ends the interrupt, and the next
interrupt finds one registration less. -/
def twiceRegistered : List Event :=
  let vector : Fin 256 := ⟨0x20, Nat.le_of_ble_eq_true rfl⟩
  [.add 0x1000 0x20, .add 0x2000 0x20, .add 0x1000 0x20, .interrupt ⟨vector, 0, fun k => k.beq 1⟩,
    .del 0x1000 0x20, .interrupt ⟨vector, 0, fun _ => false⟩]

theorem delivery_twice_registered :
    wp (do
        let _ ← interruptInit
        twiceRegistered.mapM Event.run)
      (fun answers _ => answers =
        [.status .success, .status .success, .status .success,
          .called [⟨0x1000, 0x20, 0⟩, ⟨0x2000, 0x20, 0⟩], .status .success,
          .called [⟨0x2000, 0x20, 0⟩, ⟨0x1000, 0x20, 0⟩]]) (fun _ => False) .initial := by
  have hrun := delivery_follows_registry (s := .initial) twiceRegistered rfl rfl (by decide)
    (by decide)
  refine wp_mono hrun ?_ fun _ he => he
  intro answers t hpost
  rw [hpost.1]
  decide +kernel

/-- What is answered to events after `_interrupt_init`. -/
def answersAfterInit (events : List Event) : Option (List Answer) :=
  let run : Irq (List Answer) := do
    let _ ← interruptInit
    events.mapM Event.run
  match run .initial with
  | .ok (answers, _) => some answers
  | .error _ => none

/-- A `NULL` handler is registered and not called; a vector beyond the table is a bad parameter, not
a vector without that handler; and once the allocator has gone round the address space, a handler
registered for one vector is called for another. -/
theorem null_handler_bad_vector_no_memory :
    answersAfterInit [.add 0 0x20, .interrupt ⟨0x20, 0, fun _ => false⟩] =
        some [.status .success, .called []] ∧
      answersAfterInit [.del 0x1000 256] = some [.status .badParam] ∧
      answersAfterInit [.kalloc 0xfffff004, .add 0x1000 0x20, .interrupt ⟨0, 0, fun _ => false⟩] =
        some [.done, .status .success, .called [⟨0x1000, 0, 0⟩]] := by
  decide +kernel

end Cumulonimbus.Irqs
