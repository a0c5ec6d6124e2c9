import Cumulonimbus.Dispatch

/-!
# What `_zombify` stores

`Dispatch.lean` says which move `_zombify` makes.  Here is what it stores: either the current
process becomes a zombie and nothing else changes, or its PCB and stack are cleared, its pid goes
to an address, and a process that waited goes to the end of the first ready queue.
-/

namespace Cumulonimbus

open Exec

variable {σ τ : State} {a : Life} {p q r : PcbId} {info : UInt32} {E : Halt → Prop}

/-- The current process has become a zombie. -/
structure Shelved (σ τ : State) : Prop where
  pcbs : τ.pcbs = Function.update σ.pcbs σ.current { σ.pcbs σ.current with state := .zombie }
  queues : ∀ X, X ≠ .zombie → τ.queues X = σ.queues X
  heap : τ.heap = σ.heap
  stackMem : τ.stackMem = σ.stackMem

/-- `p` is in a queue, under a key that the removal routine takes for the given one. -/
def Queue.Files (q : Queue PcbId) (key : Key) (p : PcbId) : Prop :=
  ∃ k, (k, p) ∈ q.items ∧ ∀ rem, q.remove = some rem → rem k key

/-- The current process has been collected for its parent `q`: its pid and status are where `info`
points, and `r`, which was filed under the pid of `q`, is ready. -/
structure Delivered (σ : State) (q r : PcbId) (info : UInt32) (τ : State) : Prop where
  filed : (σ.queues .waiting).Files (σ.pcbs q).pid.id r
  pcbs : τ.pcbs = Function.update (Function.update σ.pcbs σ.current {}) r
    { Function.update σ.pcbs σ.current {} r with state := .ready }
  avail : (τ.queues .pcbAvail).items = (σ.queues .pcbAvail).items ++ [(0, σ.current)]
  woken : (τ.queues (.ready 0)).items = (σ.queues (.ready 0)).items ++ [(0, r)]
  queues : ∀ X, X ≠ .waiting → X ≠ .pcbAvail → X ≠ .ready 0 → τ.queues X = σ.queues X
  heap : τ.heap = Function.update σ.heap info ⟨(σ.pcbs σ.current).pid, σ.arg σ.current 1⟩
  stackMem : ∀ s, (σ.pcbs σ.current).stack ≠ some s → τ.stackMem s = σ.stackMem s

/-! ## The routines that it calls -/

/-- What a queue operation may change. -/
def Requeued (X : QName) (σ τ : State) : Prop :=
  ∃ n q, τ = { σ with qnodes := n, queues := Function.update σ.queues X q }

/-- A status other than success panics. -/
theorem check_passes {m msg : String} {stat : Status} {Q : PUnit → State → Prop}
    (good : stat = .success → Q ⟨⟩ σ) : wp (check m msg stat) Q (fun _ => True) σ :=
  check_spec (fun _ => trivial) good

/-- An append stores the entry at the end, where it succeeds. -/
theorem qAppend_stores (X : QName) (p : PcbId) (key : Key) :
    wp (qAppend X p key)
      (fun stat τ => stat = .success → Requeued X σ τ ∧
        (τ.queues X).items = (σ.queues X).items ++ [(key, p)]) E σ := by
  rw [qAppend, wp_bind, wp_get]
  split
  · rename_i stat hstat
    intro hok
    unfold Queue.qAppend at hstat
    split at hstat
    · cases hstat
      cases hok
    · cases hstat
  · rename_i n q hq
    have hitems := (Queue.qAppend_ok hq).2.1
    refine fun _ => ⟨⟨n, q, rfl⟩, ?_⟩
    simpa using hitems

/-- An insertion stores the entry somewhere. -/
theorem qInsert_stores (X : QName) (p : PcbId) (key : Key) :
    wp (qInsert X p key) (fun _ τ => Requeued X σ τ) E σ := by
  rw [qInsert, wp_bind, wp_get]
  split
  · exact ⟨σ.qnodes, σ.queues X, by rw [Function.update_eq_self]⟩
  · exact ⟨_, _, rfl⟩

/-- A removal by key takes an entry that was filed under the key. -/
theorem qRemoveByKey_stores (X : QName) (key : Key) :
    wp (qRemoveByKey X key)
      (fun res τ => ∀ p, res = .ok p → Requeued X σ τ ∧ (σ.queues X).Files key p) E σ := by
  rw [qRemoveByKey, wp_bind, wp_get]
  split
  · intro p hp
    cases hp
  · rename_i r n q hq
    intro p hp
    cases hp
    obtain ⟨-, ⟨k, hperm, hrem⟩, -⟩ := Queue.qRemoveByKey_ok hq
    exact ⟨⟨n, q, rfl⟩, k, hperm.mem_iff.mpr List.mem_cons_self, hrem⟩

/-- Clearing a stack leaves the others alone. -/
theorem stackFree_stores (old : Option StackId) :
    wp (stackFree old)
      (fun stat τ => stat = .success → ∃ n q m,
        τ = { σ with qnodes := n, stackAvail := q, stackMem := m } ∧
          ∀ s, old ≠ some s → m s = σ.stackMem s) E σ := by
  unfold stackFree
  cases old with
  | none =>
    intro hbad
    cases hbad
  | some t =>
    rw [wp_bind, wp_modify, wp_bind, wp_get]
    have hkept : ∀ s, some t ≠ some s → Function.update σ.stackMem t
        (fun k => if k < stackSize then 0 else σ.stackMem t k) s = σ.stackMem s := by
      intro s hs
      exact Function.update_of_ne (fun heq => hs (congrArg some heq.symm)) _ _
    split
    · exact fun _ => ⟨_, _, _, rfl, hkept⟩
    · exact fun _ => ⟨_, _, _, rfl, hkept⟩

/-- A PCB is cleared and goes to the end of its pool. -/
theorem pcbFree_stores (p : PcbId) :
    wp (pcbFree p)
      (fun stat τ => stat = .success →
        Requeued .pcbAvail { σ with pcbs := Function.update σ.pcbs p {} } τ ∧
        (τ.queues .pcbAvail).items = (σ.queues .pcbAvail).items ++ [(0, p)]) E σ := by
  rw [pcbFree, modifyPcb, wp_bind, wp_modify]
  exact qAppend_stores .pcbAvail p 0

/-- A process becomes ready and goes to the end of its queue. -/
theorem schedule_stores (p : PcbId) (prio : UInt8) :
    wp (schedule p prio)
      (fun _ τ => Requeued (.ready (readyIndex prio))
          { σ with pcbs := Function.update σ.pcbs p { σ.pcbs p with state := .ready } } τ ∧
        (τ.queues (.ready (readyIndex prio))).items =
          (σ.queues (.ready (readyIndex prio))).items ++ [(0, p)]) (fun _ => True) σ := by
  rw [schedule, setState, modifyPcb, wp_bind, wp_modify]
  refine wp_seq (qAppend_stores _ p 0) ?_
  exact fun stat τ hpost => check_passes hpost

/-! ## `_zombify` -/

/-- **Nobody waits**: the process becomes a zombie. -/
theorem zombifyKeep_stores : wp zombifyKeep (fun _ τ => Shelved σ τ) (fun _ => True) σ := by
  rw [zombifyKeep, wp_bind, wp_get, wp_bind, setState, modifyPcb, wp_modify]
  refine wp_seq (qInsert_stores _ _ _) ?_
  intro stat τ hpost
  refine check_passes fun _ => ?_
  obtain ⟨n, q, rfl⟩ := hpost
  exact ⟨rfl, fun X hX => Function.update_of_ne hX _ _, rfl, rfl⟩

/-- **Somebody waits**: everything is handed over. -/
theorem zombifyDeliver_stores (q : PcbId) (info : UInt32) :
    wp (zombifyDeliver σ.current q info) (fun _ τ => ∃ r, Delivered σ q r info τ)
      (fun _ => True) σ := by
  rw [zombifyDeliver, wp_bind, wp_get]
  refine wp_seq (qRemoveByKey_stores _ _) ?_
  intro res σ₁ hpost
  rcases res with stat | r
  · exact wp_throw.mpr trivial
  obtain ⟨⟨n₁, q₁, rfl⟩, hfiled⟩ := hpost r rfl
  dsimp only
  rw [wp_bind, modifyInfo, wp_modify]
  refine wp_seq (stackFree_stores _) ?_
  intro stat σ₂ hpost
  rw [wp_bind]
  refine check_passes fun hok => ?_
  obtain ⟨n₂, q₂, m, rfl, hm⟩ := hpost hok
  refine wp_seq (pcbFree_stores _) ?_
  intro stat σ₃ hpost
  rw [wp_bind]
  refine check_passes fun hok => ?_
  obtain ⟨⟨n₃, q₃, rfl⟩, havail⟩ := hpost hok
  refine wp_mono (schedule_stores r prioMaximum) ?_ fun _ he => he
  intro _ τ hpost
  have hzero : readyIndex prioMaximum = 0 := rfl
  rw [hzero] at hpost
  obtain ⟨⟨n₄, q₄, rfl⟩, hready⟩ := hpost
  refine ⟨r, hfiled, rfl, ?_, ?_, ?_, rfl, fun s hs => hm s hs⟩
  · simpa using havail
  · simpa using hready
  · intro X hwaiting hpcbs hfirst
    simp [hwaiting, hpcbs, hfirst]

/-- **What `_zombify` stores**: whether the parent waits for the process decides which. -/
theorem zombify_stores (current : σ.current = p) :
    wp (zombify p)
      (fun _ τ => ∃ q, σ.pcbFind (σ.pcbs p).ppid = some q ∧
        if σ.awaited q then ∃ r, Delivered σ q r (σ.arg q 1) τ else Shelved σ τ)
      (fun _ => True) σ := by
  subst current
  rw [zombify, wp_bind, wp_get]
  split
  · exact wp_throw.mpr trivial
  · rename_i q hq
    rw [wp_ite]
    constructor
    · intro hawaited
      refine wp_mono (zombifyDeliver_stores q _) ?_ fun _ he => he
      exact fun _ τ hpost => ⟨q, hq, by rwa [if_pos hawaited]⟩
    · intro hawaited
      refine wp_mono zombifyKeep_stores ?_ fun _ he => he
      exact fun _ τ hpost => ⟨q, hq, by rwa [if_neg hawaited]⟩

end Cumulonimbus
