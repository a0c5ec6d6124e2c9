import Cumulonimbus.Handlers

/-!
# The state left by `_init`, and the states reached from it

`kernelInit_spec` describes the first life: one process, on the CPU, with the
first pid and its own parent; every other PCB is free.  From there
`KernelRun.invariant` carries what the moves keep to every state of a run.
-/

namespace Cumulonimbus

open Exec

/-! ## Initialization -/

/-- The life before anything is on a queue. -/
def Life.blank (b : Boot) : Life where
  place := fun _ => .limbo
  proc := fun _ => Pcb.proc {}
  want := fun _ => pidClear
  freeStack := fun _ => False
  nextPid := ⟨pidInit, b.localMac, 0⟩

variable {b : Boot} {σ : State} {a : Life}

/-- Before `_init` the life is blank. -/
theorem blankState_rel (b : Boot) : Rel (blankState b) (Life.blank b) where
  placed := by
    refine ⟨fun X key p => ?_, fun X => ?_, fun s => ?_, ?_, ?_, fun X => rfl, fun X => rfl⟩
    · cases X <;> simp [blankState, initialQueue, Life.blank]
    · cases X <;> simp [blankState, initialQueue, Queue.members]
    · simp [blankState, Queue.members, Life.blank]
    · simp [blankState, Queue.members]
    · have hnil : ∀ X, (initialQueue X).items = [] := by intro X; cases X <;> rfl
      simp [blankState, hnil]
  proc _ := rfl
  want p hp := by simp [Life.blank, Pcb.proc] at hp
  nextPid := rfl

/-- `_pcb_init` puts the listed PCBs on the free list, cleared. -/
theorem pcbInit_spec (l : List PcbId) (nodup : l.Nodup) (h : Rel σ a)
    (loose : ∀ p ∈ l, Loose a.place p) {E : Halt → Prop} :
    wp (pcbInit l)
      (fun _ τ => ∃ c, Rel τ c ∧ c.freeStack = a.freeStack ∧ c.nextPid = a.nextPid ∧
        (∀ p ∈ l, c.place p = .queued .pcbAvail 0 ∧ c.proc p = Pcb.proc {}) ∧
        ∀ p ∉ l, c.place p = a.place p ∧ c.proc p = a.proc p) E σ := by
  induction l generalizing σ a with
  | nil => exact ⟨a, h, rfl, rfl, by simp, fun _ _ => ⟨rfl, rfl⟩⟩
  | cons q rest ih =>
    obtain ⟨hq, hrest⟩ := List.nodup_cons.mp nodup
    rw [pcbInit]
    refine wp_seq (pcbFree_rel (p := q) h (loose q List.mem_cons_self)) ?_
    rintro stat τ ⟨rfl, h₁, -, -⟩
    rw [wp_bind]
    refine check_spec (absurd rfl) fun _ => ?_
    refine wp_mono (ih hrest h₁ fun p hp X key => ?_) ?_ fun _ he => he
    · have hne : p ≠ q := by rintro rfl; exact hq hp
      simpa [hne] using loose p (List.mem_cons_of_mem _ hp) X key
    rintro - υ ⟨c, hc, hstack, hnext, hin, hout⟩
    refine ⟨c, hc, hstack, hnext, fun p hp => ?_, fun p hp => ?_⟩
    · by_cases hpr : p ∈ rest
      · exact hin p hpr
      · obtain rfl : p = q := (List.mem_cons.mp hp).resolve_right hpr
        have := hout p hpr
        simpa using this
    · obtain ⟨hne, hpr⟩ := not_or.mp (mt List.mem_cons.mpr hp)
      have := hout p hpr
      simpa [hne] using this

/-- `_stack_init` puts the listed stacks on the free list. -/
theorem stackInit_spec (l : List StackId) (nodup : l.Nodup) (h : Rel σ a)
    (held : ∀ s ∈ l, ¬ a.freeStack s) (idle : ∀ p, (a.proc p).state ≠ .waiting)
    {E : Halt → Prop} :
    wp (stackInit l)
      (fun _ τ => Rel τ { a with freeStack := fun s => a.freeStack s ∨ s ∈ l }) E σ := by
  induction l generalizing σ a with
  | nil => simpa [stackInit] using h
  | cons t rest ih =>
    obtain ⟨ht, hrest⟩ := List.nodup_cons.mp nodup
    rw [stackInit]
    refine wp_seq (stackFree_spec h.placed (held t List.mem_cons_self)) ?_
    rintro stat τ ⟨rfl, ⟨n, q, m, rfl, -⟩, hplaced⟩
    rw [wp_bind]
    refine check_spec (absurd rfl) fun _ => ?_
    have h₁ : Rel { σ with qnodes := n, stackAvail := q, stackMem := m }
        { a with freeStack := fun s => a.freeStack s ∨ some t = some s } :=
      ⟨hplaced, h.proc, fun p hp => absurd hp (idle p), h.nextPid⟩
    refine wp_mono (ih hrest h₁ (fun s hs => ?_) idle) ?_ fun _ he => he
    · rintro (hfree | hts)
      · exact held s (List.mem_cons_of_mem _ hs) hfree
      · exact ht (Option.some.inj hts ▸ hs)
    · rintro - υ hυ
      convert hυ using 2
      funext s
      simp only [List.mem_cons, Option.some.injEq, or_assoc, eq_comm]

/-- What `_init` leaves: `p`, with the first pid and its own parent, has the CPU;
all other PCBs are free. -/
structure Life.Booted (a : Life) (b : Boot) (p : PcbId) : Prop where
  sound : a.Sound
  runs : a.Runs p
  proc : ∃ s, a.proc p = ⟨.free, ⟨pidInit, b.localMac, 0⟩, ⟨pidInit, b.localMac, 0⟩, 0, some s⟩
  others : ∀ q, q ≠ p → a.Free q ∧ a.proc q = Pcb.proc {}
  nextPid : a.nextPid = ⟨pidInit + 1, b.localMac, 0⟩

/-- The first process rests. -/
theorem Life.Booted.resting {p : PcbId} (h : a.Booted b p) : a.Resting p := by
  obtain ⟨s, hs⟩ := h.proc
  exact ⟨h.runs, Or.inr (by rw [hs])⟩

/-- Every stack is free or has an owner. -/
def Life.Stocked (a : Life) : Prop := ∀ s, a.freeStack s ∨ ∃ p, (a.proc p).stack = some s

/-- The life with a first process `p` on the stack `s`. -/
def Life.born (a : Life) (b : Boot) (p : PcbId) (s : StackId) : Life where
  place := Function.update a.place p .cpu
  proc := Function.update a.proc p
    ⟨.free, ⟨pidInit, b.localMac, 0⟩, ⟨pidInit, b.localMac, 0⟩, 0, some s⟩
  want := a.want
  freeStack := fun t => a.freeStack t ∧ t ≠ s
  nextPid := ⟨pidInit + 1, b.localMac, 0⟩

/-- The first process of a blank life has been booted. -/
theorem Life.born_booted {p : PcbId} {s : StackId}
    (hfree : ∀ p, a.place p = .queued .pcbAvail 0) (hproc : ∀ p, a.proc p = Pcb.proc {}) :
    (a.born b p s).Booted b p := by
  have hothers : ∀ q, q ≠ p → (a.born b p s).Free q ∧ (a.born b p s).proc q = Pcb.proc {} :=
    fun q hq => ⟨⟨0, by simp [Life.born, hq, hfree]⟩, by simp [Life.born, hq, hproc]⟩
  have hself : (a.born b p s).proc p =
      ⟨.free, ⟨pidInit, b.localMac, 0⟩, ⟨pidInit, b.localMac, 0⟩, 0, some s⟩ := by
    simp [Life.born]
  have hstack : ∀ q t, ((a.born b p s).proc q).stack = some t → q = p ∧ t = s := by
    intro q t hq
    by_cases hqp : q = p
    · rw [hqp, hself] at hq
      exact ⟨hqp, (Option.some.inj hq).symm⟩
    · rw [(hothers q hqp).2] at hq
      cases hq
  refine ⟨⟨⟨fun x y t hx hy => ?_, fun x t hx => ?_⟩, fun x => ?_, fun x => ?_, fun x hx => ?_⟩,
    fun x => ?_, ⟨s, hself⟩, hothers, rfl⟩
  · rw [(hstack x t hx).1, (hstack y t hy).1]
  · exact fun hfree => hfree.2 (hstack x t hx).2
  · by_cases hxp : x = p
    · rw [hxp, hself]; simp [Life.born, Place.Fits]
    · obtain ⟨⟨key, hkey⟩, hclear⟩ := hothers x hxp
      simp [hkey, hclear, Place.Fits, Pcb.proc]
  · by_cases hxp : x = p
    · simp [hxp, Life.born, Place.Keyed]
    · simp [hxp, Life.born, hfree, Place.Keyed]
  · by_cases hxp : x = p
    · rw [hxp, hself]; exact ⟨rfl, rfl⟩
    · exact absurd (hothers x hxp).1 hx
  · by_cases hxp : x = p
    · simp [hxp, Life.born]
    · simp [hxp, Life.born, hfree]

/-- There are stacks for others. -/
theorem Life.born_stocked {p : PcbId} {s : StackId} (hstacks : ∀ s, a.freeStack s) :
    (a.born b p s).Stocked := by
  intro t
  by_cases ht : t = s
  · exact Or.inr ⟨p, by simp [Life.born, ht]⟩
  · exact Or.inl ⟨hstacks t, ht⟩

/-- **The first process.** -/
theorem firstProcess_spec (h : Rel σ a) (hfree : ∀ p, a.place p = .queued .pcbAvail 0)
    (hproc : ∀ p, a.proc p = Pcb.proc {}) (hstacks : ∀ s, a.freeStack s)
    (hnext : a.nextPid = ⟨pidInit, b.localMac, 0⟩) :
    wp firstProcess (fun _ τ => ∃ c : Life, Rel τ c ∧ c.Booted b τ.current ∧ c.Stocked)
      (fun _ => False) σ := by
  rw [firstProcess, pcbAlloc]
  refine wp_seq (qRemove_rel h) ?_
  rintro res τ (⟨rfl, rfl, hempty⟩ | ⟨p, key, rfl, hplace, h₁, -, -, -⟩)
  · have hmem := (h.placed.mem .pcbAvail 0 0).mpr (hfree 0)
    rw [Queue.qEmpty, List.isEmpty_iff] at hempty
    simp [hempty] at hmem
  refine wp_seq (stackAlloc_spec h₁.placed) ?_
  rintro res υ (⟨stat, rfl, rfl, hnone⟩ | ⟨s, n, q, rfl, hs, rfl, hplaced⟩)
  · exact (hnone 0 (hstacks 0)).elim
  have h₂ : Rel { τ with qnodes := n, stackAvail := q }
      { a.move p .limbo with freeStack := fun t => a.freeStack t ∧ t ≠ s } :=
    ⟨hplaced, h₁.proc, h₁.want, h₁.nextPid⟩
  dsimp only
  refine wp_seq (pidNext_rel h₂) ?_
  rintro pid τ₃ ⟨rfl, h₃, -, -⟩
  rw [show ({ a.move p .limbo with freeStack := fun t => a.freeStack t ∧ t ≠ s } : Life).nextPid =
    ⟨pidInit, b.localMac, 0⟩ from hnext] at h₃ ⊢
  have hborn := Life.born_booted (b := b) (p := p) (s := s) hfree hproc
  have hidle : ((a.born b p s).proc p).state ≠ .waiting := hborn.resting.idle
  refine wp_seq (modifyPcb_rel (p := p) h₃ (g := fun c =>
    { c with pid := ⟨pidInit, b.localMac, 0⟩, ppid := ⟨pidInit, b.localMac, 0⟩, stack := some s })
    (fun _ => rfl) (by simp [hproc, Pcb.proc])) ?_
  rintro - τ₄ ⟨h₄, -, hpcbs⟩
  generalize hc : Life.modify _ p _ = c at h₄
  have heq : c.move p .cpu = a.born b p s := by
    subst hc
    ext1
    · funext x
      by_cases hx : x = p <;> simp [Life.born, hx]
    · funext x
      by_cases hx : x = p <;> simp [Life.born, hx, hproc, Pcb.proc]
    all_goals rfl
  have hapart : c.Apart := by
    have := hborn.sound.toApart
    rw [← heq] at this
    exact ⟨this.own, this.held⟩
  have hidle : (c.proc p).state ≠ .waiting := by
    rw [show c.proc p = (c.move p .cpu).proc p from rfl, heq]
    exact hborn.resting.idle
  have hloose : Loose c.place p := by
    subst hc
    intro X k
    simp
  have hstack : (τ₄.pcbs p).stack = some s := by simp [hpcbs]
  rw [wp_bind, wp_get, ← hstack]
  refine wp_seq (setupStack_spec h₄ hapart hidle _) ?_
  rintro - τ₅ ⟨h₅, -⟩
  rw [setCurrent, wp_bind, wp_modify]
  refine wp_seq (modifyPcb_rel (p := p) (h₅.setCurrent p) (g := id) (fun _ => rfl) hidle) ?_
  rintro - τ₆ ⟨h₆, hframe₆, -⟩
  rw [Life.modify_id] at h₆
  rw [wp_bind, wp_modify, wp_modify]
  have h₇ := h₆.setCtxWord hapart hidle ctxEsp
    (τ₆.stackAddr s + UInt32.ofNat (4 * setupContext))
  refine ⟨a.born b p s, ?_, ?_, Life.born_stocked hstacks⟩
  · rw [← heq]
    refine Rel.move_loose (a := c) ?_ hloose (by simp)
    exact ⟨h₇.placed.congr rfl rfl rfl, h₇.proc, h₇.want, h₇.nextPid⟩
  · have hcurrent : (τ₆.setCtxWord p ctxEsp
        (τ₆.stackAddr s + UInt32.ofNat (4 * setupContext))).current = p := by
      rw [State.setCtxWord_current, hframe₆.current]
    change (a.born b p s).Booted b (τ₆.setCtxWord p ctxEsp
        (τ₆.stackAddr s + UInt32.ofNat (4 * setupContext))).current
    rw [hcurrent]
    exact hborn

/-- **`_init` comes up**, and leaves the first process as the only one. -/
theorem kernelInit_run {τ : State} (h : Rel τ (Life.blank b)) :
    ∃ υ, kernelInit τ = .ok ((), υ) ∧
      ∃ a : Life, Rel υ a ∧ a.Booted b υ.current ∧ a.Stocked := by
  suffices hwp : wp kernelInit (fun _ υ => ∃ c : Life, Rel υ c ∧ c.Booted b υ.current ∧ c.Stocked)
      (fun _ => False) τ by
    cases hrun : kernelInit τ with
    | ok r => exact ⟨r.2, rfl, wp_ok hwp hrun⟩
    | error e => exact (wp_error hwp hrun).elim
  rw [kernelInit]
  refine wp_seq (pcbInit_spec (List.finRange nPcbs) (List.nodup_finRange _) h
    fun p _ X key => by simp [Life.blank]) ?_
  rintro - τ ⟨c, hc, hstack, hnext, hin, -⟩
  have hfree : ∀ p, c.place p = .queued .pcbAvail 0 := fun p => (hin p (List.mem_finRange p)).1
  have hproc : ∀ p, c.proc p = Pcb.proc {} := fun p => (hin p (List.mem_finRange p)).2
  refine wp_seq (stackInit_spec (List.finRange nStacks) (List.nodup_finRange _) hc
    (fun s _ => by rw [hstack]; exact not_false) fun p => by simp [hproc, Pcb.proc]) ?_
  rintro - υ hυ
  exact firstProcess_spec hυ hfree hproc (fun s => Or.inr (List.mem_finRange s)) hnext

/-- **After `_init`** the life has one process and stacks for others. -/
theorem BootState.stocked (boot : BootState b σ) :
    ∃ a : Life, Rel σ a ∧ a.Booted b σ.current ∧ a.Stocked := by
  obtain ⟨υ, hrun, hυ⟩ := kernelInit_run (blankState_rel b)
  rw [BootState, hrun] at boot
  cases boot
  exact hυ

/-- So the kernel refines a life from the start. -/
theorem BootState.rel (boot : BootState b σ) : ∃ a : Life, Rel σ a ∧ a.Booted b σ.current := by
  obtain ⟨a, hrel, hboot, -⟩ := boot.stocked
  exact ⟨a, hrel, hboot⟩

/-- Every machine comes up. -/
theorem bootState_exists (b : Boot) : ∃ σ, BootState b σ := by
  obtain ⟨υ, hrun, -⟩ := kernelInit_run (blankState_rel b)
  exact ⟨υ, hrun⟩

/-! ## Runs -/

variable {good : State → Input → Prop} {σ₀ : State} {tr : List (State × Input)}

/-- One step of a run. -/
theorem step_caused {τ : State} {i : Input} (h : Rel σ a) (sound : a.Sound)
    (rest : a.Resting σ.current) (step : kernelEntry i σ = .ok ((), τ)) :
    Returns (Caused σ i) a τ :=
  wp_ok (x := kernelEntry i) (kernelEntry_caused h sound rest i) step

/-- **Each entry** leads to a life again. -/
theorem step_rel {τ : State} {i : Input} (h : Rel σ a) (sound : a.Sound)
    (rest : a.Resting σ.current) (step : kernelEntry i σ = .ok ((), τ)) :
    Returns (Origin σ i) a τ :=
  (step_caused h sound rest step).mono fun _ _ hm => hm.1

/-- An `exit`, move by move. -/
theorem exit_rel {τ : State} {i : Input} (h : Rel σ a) (sound : a.Sound)
    (rest : a.Resting σ.current) (call : i.call σ = some .exit)
    (step : kernelEntry i σ = .ok ((), τ)) :
    ∃ m : Move, m.Ends σ.current ∧
      m.Enabled ((Move.reparent σ.current).apply (a.entered σ i)) ∧
      Returns Settling (m.apply ((Move.reparent σ.current).apply (a.entered σ i))) τ := by
  have hwp := kernelEntry_call call (fun _ _ => trivial) fun ext =>
    (sysExit_moves (enter_rel (i := i) h) (sound.rewant (σ.enter i.user).want) rest :
      wp (handler ext .exit) _ _ _)
  exact wp_ok (x := kernelEntry i) hwp step

/-- What every move of an entry keeps, the entry keeps. -/
theorem step_invariant {I : Life → Prop} {τ : State} {i : Input} (h : Rel σ a)
    (sound : a.Sound) (rest : a.Resting σ.current) (inv : I a)
    (keep : ∀ c m, c.Sound → I c → Move.Enabled c m → Caused σ i c m → I (m.apply c))
    (step : kernelEntry i σ = .ok ((), τ)) :
    ∃ c : Life, Rel τ c ∧ c.Sound ∧ c.Resting τ.current ∧ I c := by
  obtain ⟨c, hc, hcrest, hmoves⟩ := step_caused h sound rest step
  have hboth : c.Sound ∧ I c := hmoves.invariant (I := fun d => d.Sound ∧ I d)
    (fun d m hd enabled caused => ⟨Move.sound hd.1 enabled, keep d m hd.1 hd.2 enabled caused⟩)
    ⟨sound, inv⟩
  exact ⟨c, hc, hboth.1, hcrest, hboth.2⟩

/-- What every move of a good entry keeps, a run of good entries keeps. -/
theorem KernelRun.carry {I : Life → Prop} (h : Rel σ₀ a) (sound : a.Sound)
    (rest : a.Resting σ₀.current) (inv : I a)
    (keep : ∀ σ i c m, good σ i → c.Sound → I c → Move.Enabled c m → Caused σ i c m →
      I (m.apply c))
    (run : KernelRun good σ₀ tr σ) :
    ∃ c : Life, Rel σ c ∧ c.Sound ∧ c.Resting σ.current ∧ I c := by
  induction run with
  | nil => exact ⟨a, h, sound, rest, inv⟩
  | snoc _ ok next ih =>
    obtain ⟨c, hc, hsound, hrest, hinv⟩ := ih
    exact step_invariant hc hsound hrest hinv (fun d m => keep _ _ d m ok) next

/-- **Invariants of the life of processes.**  What holds when the first process
starts and is kept by every move that a good entry makes holds in every state
that good entries lead to. -/
theorem KernelRun.invariant {I : Life → Prop} (boot : BootState b σ₀)
    (start : ∀ a : Life, a.Booted b σ₀.current → I a)
    (keep : ∀ σ i c m, good σ i → c.Sound → I c → Move.Enabled c m → Caused σ i c m →
      I (m.apply c))
    (run : KernelRun good σ₀ tr σ) :
    ∃ a : Life, Rel σ a ∧ a.Sound ∧ a.Resting σ.current ∧ I a := by
  obtain ⟨a, hrel, hboot⟩ := boot.rel
  exact run.carry hrel hboot.sound hboot.resting (start a hboot) keep

/-- A run on which nothing is asked of the inputs. -/
abbrev AnyRun (σ₀ : State) (tr : List (State × Input)) (σ : State) : Prop :=
  KernelRun (fun _ _ => True) σ₀ tr σ

instance decidableAnyStep (σ : State) (i : Input) :
    Decidable ((fun _ _ => True : State → Input → Prop) σ i) :=
  inferInstanceAs (Decidable True)

/-- Inputs that run through from the start of the machine, with a test of the last state. -/
def bootTest (good : State → Input → Prop) [∀ σ i, Decidable (good σ i)] (b : Boot)
    (l : List Input) (test : State → Bool) : Bool :=
  match kernelInit (blankState b) with
  | .ok (_, σ₀) => (play kernelEntry good l σ₀).any fun r => test r.2
  | .error _ => false

/-- What a list of inputs that runs through shows. -/
theorem bootTest_run [∀ σ i, Decidable (good σ i)] {l : List Input} {test : State → Bool}
    (h : bootTest good b l test) :
    ∃ σ₀ tr σ, BootState b σ₀ ∧ KernelRun good σ₀ tr σ ∧ tr.map Prod.snd = l ∧ test σ := by
  rw [bootTest] at h
  split at h
  · rename_i σ₀ hboot
    obtain ⟨⟨tr, σ⟩, hplay, htest⟩ := (Option.any_eq_true _ _).mp h
    obtain ⟨hrun, htr⟩ := play_runs hplay
    exact ⟨σ₀, tr, σ, hboot, hrun, htr, htest⟩
  · cases h

/-! ## Programs that make one call

For concrete runs: every saved context lies at the same distance into its stack,
and a call is the value of `eax` and, for each stack, the first argument found
there. -/

def callContext : Nat := 1000

/-- The stacks of processes that make the call `code`. -/
def callStack (code : UInt32) (arg : StackId → UInt32) (s : StackId) (k : Nat) : UInt32 :=
  if k = callContext + ctxEax then code
  else if k = callContext + contextWords + 1 then arg s
  else 0

/-- A system call. -/
def callInput (code : UInt32) (arg : StackId → UInt32) (heap : UInt32 → Info) : Input where
  user := ⟨callStack code arg, heap, callContext⟩
  interrupt := .syscall ⟨0, false⟩

/-- A clock interrupt while user code with the same memory runs. -/
def clockInput (arg : StackId → UInt32) (heap : UInt32 → Info) : Input where
  user := ⟨callStack 0 arg, heap, callContext⟩
  interrupt := .clock

/-- The heap in which every object holds the pid 0 and no status. -/
def blankHeap : UInt32 → Info := fun _ => ⟨pidClear, 0⟩

/-- A machine with empty memory. -/
def blankBoot : Boot where
  machine := ⟨0x100000, 0x2000, 0x1000, fun _ => 0⟩
  localMac := Vector.replicate 6 0
  stackMem := fun _ _ => 0
  heap := blankHeap

/-- Init forks three children.  The first goes to sleep, the second exits, and the third forks a
child of its own and waits for it, so that init runs again. -/
def familyRun : List Input :=
  [clockInput (fun _ => 0) blankHeap, callInput 1 (fun _ => 0) blankHeap,
    callInput 1 (fun _ => 0) blankHeap, callInput 1 (fun _ => 0) blankHeap,
    clockInput (fun _ => 0) blankHeap, callInput 5 (fun _ => 9) blankHeap,
    callInput 0 (fun _ => 0) blankHeap, callInput 1 (fun _ => 0) blankHeap,
    callInput 3 (fun _ => 16) blankHeap]

/-- The first process on that machine is PCB 0. -/
theorem blankBoot_current (boot : BootState blankBoot σ) : σ.current = 0 := by
  have hstart : (match kernelInit (blankState blankBoot) with
      | .ok (_, τ) => decide (τ.current = 0)
      | .error _ => false) = true := by
    decide +kernel
  rw [BootState] at boot
  rw [boot] at hstart
  exact of_decide_eq_true hstart

end Cumulonimbus
