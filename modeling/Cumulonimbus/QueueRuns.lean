import Cumulonimbus.QueueLists

/-!
# Runs of the queue module

From `_q_init` and one `_q_reset` for every queue on, whatever calls follow: the queues
are doubly linked lists and no node is ever lost or shared (`nodes_conserved`), and each
call does to the `(key, data)` pairs what an ordered list would do
(`queues_refine_lists`).
-/

namespace Cumulonimbus.Qnodes

open Exec Linked

variable {ι α : Type} {s t : QueueState ι α} {L : Option ι → List NodeId} {q : ι} {n : NodeId}
  {E : Stop → Prop}

variable [DecidableEq ι]

/-! ## Initialisation -/

/-- A queue with the routines it is reset with. -/
structure Reset (ι α : Type) where
  queue : ι
  compare : Option (Qnode α → Qnode α → Int)
  remove : Option (Key → Key → Bool)

/-- `_q_init`, and then one `_q_reset` after the other. -/
def boot (resets : List (Reset ι α)) : Q ι α Unit := do
  qInit
  forM resets fun r => qReset (some r.queue) r.compare r.remove

/-- A header as `_q_reset` leaves it. -/
def Header.Cleared (h : Header α) : Prop := h.length = 0 ∧ h.head = none ∧ h.tail = none

/-- One turn of the loop of `_q_init`. -/
def pushed (s : QueueState ι α) (i : NodeId) : QueueState ι α :=
  { s with
    qnodes := Function.update s.qnodes i { s.qnodes i with next := s.qnodeAvail }
    qnodeAvail := some i }

omit [DecidableEq ι] in
/-- A node goes in front of the free list. -/
theorem pushed_path {i : NodeId} {l : List NodeId} (hi : i ∉ l)
    (path : Path s.next s.qnodeAvail l none) :
    Path (pushed s i).next (pushed s i).qnodeAvail (i :: l) none := by
  have hfirst : (pushed s i).next i = s.qnodeAvail := by simp [QueueState.next, pushed]
  refine ⟨rfl, ?_⟩
  rw [hfirst]
  refine path.congr fun x hx => ?_
  have hxi : x ≠ i := fun h => hi (h ▸ hx)
  simp [QueueState.next, pushed, hxi]

-- `wp` is used through its rules; unfolding it would run the loop over all nodes.
attribute [local irreducible] wp

omit [DecidableEq ι] in
/-- The loop of `_q_init` has freed the nodes so far, the last one first; by induction on those to
come. -/
theorem qInit_loop (l done : List NodeId) (nodup : (l ++ done).Nodup)
    (path : Path s.next s.qnodeAvail done none) :
    wp (forM l fun i => (do
        let s ← get
        modifyNode i fun x => { x with next := s.qnodeAvail }
        modify fun s => { s with qnodeAvail := some i } : Q ι α Unit))
      (fun _ t => Path t.next t.qnodeAvail (l.reverse ++ done) none) E s := by
  induction l generalizing s done with
  | nil => exact wp_pure.mpr path
  | cons i l ih =>
    rw [List.cons_append, List.nodup_cons] at nodup
    have hi : i ∉ done := fun h => nodup.1 (List.mem_append_right l h)
    have hstart : (l ++ i :: done).Nodup := List.nodup_middle.mpr (List.nodup_cons.mpr nodup)
    have hrest := ih (s := pushed s i) (i :: done) hstart (pushed_path hi path)
    rw [List.forM_cons, wp_bind, wp_bind, wp_get, wp_bind, wp_modifyNode, wp_modify,
      List.reverse_cons, List.append_assoc]
    exact hrest

omit [DecidableEq ι] in
/-- **After `_q_init`** every node is free. -/
theorem qInit_spec :
    wp (qInit : Q ι α Unit)
      (fun _ t => Path t.next t.qnodeAvail (List.finRange nQnodes).reverse none) E s := by
  have hloop := qInit_loop (E := E) (s := { s with qnodeAvail := none }) (List.finRange nQnodes) []
    (by rw [List.append_nil]; exact List.nodup_finRange nQnodes) rfl
  rw [List.append_nil] at hloop
  rw [qInit, wp_bind, wp_modify]
  exact hloop

/-- A reset clears its own queue and no node. -/
theorem resets_spec (resets : List (Reset ι α)) :
    wp (forM resets fun r => qReset (some r.queue) r.compare r.remove)
      (fun _ t => t.qnodes = s.qnodes ∧ t.qnodeAvail = s.qnodeAvail ∧
        ∀ q, ((s.queues q).Cleared ∨ ∃ r ∈ resets, r.queue = q) → (t.queues q).Cleared) E s := by
  induction resets generalizing s with
  | nil => exact wp_pure.mpr ⟨rfl, rfl, fun q h => by simpa using h⟩
  | cons r rest ih =>
    rw [List.forM_cons, wp_bind, qReset, wp_modifyQueue]
    refine wp_mono ih ?_ fun _ he => he
    intro _ t ⟨hnodes, havail, hcleared⟩
    dsimp only at hnodes havail hcleared
    refine ⟨hnodes, havail, fun q hq => hcleared q ?_⟩
    by_cases hqr : q = r.queue
    · left
      rw [hqr, Function.update_self]
      exact ⟨rfl, rfl, rfl⟩
    · rcases hq with hold | ⟨r', hmem, hr'⟩
      · left
        rwa [Function.update_of_ne hqr]
      · rcases List.mem_cons.mp hmem with rfl | hmem
        · exact absurd hr'.symm hqr
        · exact Or.inr ⟨r', hmem, hr'⟩

/-- The layout after initialisation: every node is free. -/
def allFree : Option ι → List NodeId
  | none => (List.finRange nQnodes).reverse
  | some _ => []

/-- **Set-up** leaves every queue empty and every node free. -/
theorem boot_spec (resets : List (Reset ι α)) (all : ∀ q, ∃ r ∈ resets, r.queue = q) :
    wp (boot resets) (fun _ t => Wf t allFree) E s := by
  rw [boot]
  refine wp_seq qInit_spec fun _ t hpath => ?_
  refine wp_mono (resets_spec resets) ?_ fun _ he => he
  intro _ u ⟨hnodes, havail, hcleared⟩
  have hnext : u.next = t.next := by
    funext x
    rw [QueueState.next, QueueState.next, hnodes]
  constructor
  case doubly =>
    intro q
    obtain ⟨-, hhead, htail⟩ := hcleared q (Or.inr (all q))
    exact ⟨hhead, htail⟩
  case length =>
    intro q
    obtain ⟨hlength, -, -⟩ := hcleared q (Or.inr (all q))
    rw [hlength]
    rfl
  case free =>
    rw [hnext, havail]
    exact hpath
  case place =>
    intro n
    refine ⟨none, fun p' => ?_⟩
    rcases p' with _ | p' <;> simp [allFree]

/-! ## Reachable states -/

/-- The states of the module: after `_q_init` and a `_q_reset` of every queue, whatever
was in memory before, and after each call from there on. -/
inductive Reachable : QueueState ι α → Prop
  | boot {s₀ s : QueueState ι α} (resets : List (Reset ι α))
      (all : ∀ q, ∃ r ∈ resets, r.queue = q) (init : boot resets s₀ = .ok ((), s)) : Reachable s
  | call {s t : QueueState ι α} (op : Op ι α) {r : Status × Option α} (before : Reachable s)
      (returns : op.call s = .ok (r, t)) : Reachable t

/-- So it leaves the lists well formed. -/
theorem boot_wf {s₀ : QueueState ι α} {resets : List (Reset ι α)}
    (all : ∀ q, ∃ r ∈ resets, r.queue = q) (init : boot resets s₀ = .ok ((), s)) :
    Wf s allFree :=
  have hboot : wp (boot resets) (fun _ t => Wf t allFree) (fun _ => True) s₀ := boot_spec resets all
  wp_ok (x := boot resets) hboot init

/-- **In every reachable state** the lists are well formed, by induction on the operations. -/
theorem Reachable.wf (h : Reachable s) : ∃ L, Wf s L := by
  induction h with
  | boot resets all init => exact ⟨allFree, boot_wf all init⟩
  | call op before returns ih =>
    obtain ⟨L, wf⟩ := ih
    rcases wp_ok (op.call_spec wf) returns with ⟨-, rfl⟩ | ⟨-, L', hchange⟩
    · exact ⟨L, wf⟩
    · exact ⟨L', wf.change hchange⟩

/-- What a well-formed state looks like. -/
structure Intact (s : QueueState ι α) : Prop where
  forth : ∀ q, Path s.next (s.queues q).head (s.nodesOf q) none
  distinct : ∀ q, (s.nodesOf q).Nodup
  length : ∀ q, (s.nodesOf q).length = (s.queues q).length.toNat
  ends : ∀ q, (s.queues q).tail = (s.nodesOf q).getLast?
  inverse : ∀ q, ∀ n ∈ s.nodesOf q, ∀ m ∈ s.nodesOf q, s.next n = some m ↔ s.prev m = some n
  head_prev : ∀ q n, (s.queues q).head = some n → s.prev n = none
  tail_next : ∀ q n, (s.queues q).tail = some n → s.next n = none
  head_null : ∀ q, (s.queues q).head = none ↔ (s.queues q).length = 0
  tail_null : ∀ q, (s.queues q).tail = none ↔ (s.queues q).length = 0
  free : Path s.next s.qnodeAvail s.freeNodes none
  apart : ∀ p q, p ≠ q → List.Disjoint (s.nodesOf p) (s.nodesOf q)
  free_apart : ∀ q, List.Disjoint s.freeNodes (s.nodesOf q)
  every : ∀ n, n ∈ s.freeNodes ∨ ∃ q, n ∈ s.nodesOf q

omit [DecidableEq ι] in
/-- Well-formed lists have what was asked of the nodes. -/
theorem Wf.intact (wf : Wf s L) : Intact s := by
  have hzero : ∀ q, (s.queues q).length = 0 ↔ L (some q) = [] := fun q => by
    rw [← UInt32.toNat_inj, wf.length q, UInt32.toNat_zero, List.length_eq_zero_iff]
  constructor
  case forth => exact fun q => wf.nodesOf_eq q ▸ (wf.doubly q).forth
  case distinct => exact fun q => wf.nodesOf_eq q ▸ (wf.doubly q).forth.nodup
  case length => exact fun q => by rw [wf.nodesOf_eq q, wf.length q]
  case ends => exact fun q => wf.nodesOf_eq q ▸ (wf.doubly q).tail_eq
  case inverse =>
    intro q n hn m hm
    rw [wf.nodesOf_eq q] at hn hm
    exact (wf.doubly q).inverse hn hm
  case head_prev =>
    intro q n hn
    have hd := wf.doubly q
    obtain ⟨l, hl⟩ := List.head?_eq_some_iff.mp (hd.forth.head_eq.symm.trans hn)
    rw [hl] at hd
    exact hd.prev_first
  case tail_next =>
    intro q n hn
    have hd := wf.doubly q
    obtain ⟨l, hl⟩ := List.getLast?_eq_some_iff.mp (hd.tail_eq.symm.trans hn)
    rw [hl] at hd
    exact hd.next_eq
  case head_null =>
    exact fun q => by rw [hzero, (wf.doubly q).forth.head_eq, List.head?_eq_none_iff]
  case tail_null => exact fun q => by rw [hzero, (wf.doubly q).tail_eq, List.getLast?_eq_none_iff]
  case free => exact wf.freeNodes_eq ▸ wf.free
  case apart =>
    intro p q hpq n hp hq
    rw [wf.nodesOf_eq] at hp hq
    exact hpq (Option.some.inj (wf.eq_of_mem hp hq))
  case free_apart =>
    intro q n hf hq
    rw [wf.nodesOf_eq] at hq
    rw [wf.freeNodes_eq] at hf
    cases wf.eq_of_mem hf hq
  case every =>
    intro n
    obtain ⟨p, hp⟩ := wf.place n
    have hn := (hp p).mpr rfl
    rcases p with _ | q
    · exact Or.inl (wf.freeNodes_eq ▸ hn)
    · exact Or.inr ⟨q, wf.nodesOf_eq q ▸ hn⟩

/-- **Representation and conservation.**  In every reachable state each queue is a doubly
linked list of `length` nodes, the queues and the free list have no node in common and
make up all nodes; and every call returns, but for `_q_append` on a null queue. -/
theorem nodes_conserved (h : Reachable s) :
    Intact s ∧ ∀ op : Op ι α, ¬ op.NullAppend → ∃ r t, op.call s = .ok (r, t) := by
  obtain ⟨L, wf⟩ := h.wf
  refine ⟨wf.intact, fun op hop => ?_⟩
  have hwp := op.call_spec wf
  cases hcall : op.call s with
  | error e => exact absurd (wp_error hwp hcall) hop
  | ok out => exact ⟨out.1, out.2, rfl⟩

/-- Two queues: one that is ordered, and one from which pairs are removed by their keys. -/
def twoQueues : List (Reset Bool Nat) :=
  [⟨true, some compareUintAsc, none⟩, ⟨false, none, some fun k key => k = key⟩]

/-- Memory in which every pointer is null. -/
def nullMemory : QueueState Bool Nat where
  qnodes := fun _ => ⟨0, 0, none, none⟩
  qnodeAvail := none
  queues := fun _ => ⟨none, none, 0, none, none⟩

/-- Calls, one after the other, as long as they return. -/
def runCalls : List (Op Bool Nat) → QueueState Bool Nat → Option (QueueState Bool Nat)
  | [], s => some s
  | op :: ops, s =>
    match op.call s with
    | .ok (_, t) => runCalls ops t
    | .error _ => none

/-- A list of operations that was run leads to a reachable state. -/
theorem runCalls_reachable {ops : List (Op Bool Nat)} {s t : QueueState Bool Nat}
    (h : Reachable s) (calls : runCalls ops s = some t) : Reachable t := by
  induction ops generalizing s with
  | nil => exact Option.some.inj calls ▸ h
  | cons op ops ih =>
    rw [runCalls] at calls
    split at calls
    case h_1 _ r u hcall => exact ih (h.call op hcall) calls
    case h_2 => cases calls

/-- Four insertions that are not in order, two of them with the same key, two appends, and a
removal of either kind. -/
def someCalls : List (Op Bool Nat) :=
  [.insert (some true) 1 5, .insert (some true) 2 3, .insert (some true) 3 5,
    .insert (some true) 4 2, .append (some false) 5 8, .append (some false) 6 9,
    .remove (some true) true, .removeByKey (some false) true 9]

/-- They leave three pairs in one queue and one in the other. -/
theorem someCalls_state : ∃ s : QueueState Bool Nat, Reachable s ∧
    s.items true = [(3, 2), (5, 1), (5, 3)] ∧ s.items false = [(8, 5)] ∧
    s.freeNodes.length + 4 = nQnodes := by
  have hrun : (match boot twoQueues nullMemory with
      | .ok (_, s) => (runCalls someCalls s).any fun t =>
          decide (t.items true = [(3, 2), (5, 1), (5, 3)]) && decide (t.items false = [(8, 5)]) &&
            decide (t.freeNodes.length + 4 = nQnodes)
      | .error _ => false) = true := by
    decide +kernel
  split at hrun
  case h_1 _ s hboot =>
    obtain ⟨t, hcalls, htest⟩ := (Option.any_eq_true _ _).mp hrun
    simp only [Bool.and_eq_true, decide_eq_true_eq] at htest
    have hreach : Reachable s := .boot twoQueues (fun q => by cases q <;> simp [twoQueues]) hboot
    exact ⟨t, runCalls_reachable hreach hcalls, htest.1.1, htest.1.2, htest.2⟩
  case h_2 => cases hrun

/-- The invariant after calls on both queues. -/
theorem nodes_conserved_calls : ∃ s : QueueState Bool Nat, Reachable s ∧
    s.items true = [(3, 2), (5, 1), (5, 3)] ∧ s.freeNodes.length + 4 = nQnodes ∧ Intact s ∧
    ∀ op : Op Bool Nat, ¬ op.NullAppend → ∃ r t, op.call s = .ok (r, t) := by
  obtain ⟨s, hreach, hitems, -, hfree⟩ := someCalls_state
  exact ⟨s, hreach, hitems, hfree, nodes_conserved hreach⟩

/-! ## Queues as lists -/

omit [DecidableEq ι] in
/-- The entries of a list in two parts. -/
theorem pairs_append (l₁ l₂ : List NodeId) : s.pairs (l₁ ++ l₂) = s.pairs l₁ ++ s.pairs l₂ :=
  List.map_append

/-- Linking a node leaves the entries of the others as they are. -/
theorem pairs_linkIn {pred succ : Option NodeId} {key : Key} {data : α} {l : List NodeId}
    (hl : ∀ x ∈ l, x ≠ n) : (linkIn s q n pred succ key data).pairs l = s.pairs l := by
  refine List.map_congr_left fun x hx => ?_
  simp [linkIn, hl x hx]

/-- Unlinking a node does as well. -/
theorem pairs_unlink (l : List NodeId) : (unlink s q n).pairs l = s.pairs l := by
  refine List.map_congr_left fun x _ => ?_
  by_cases hx : x = n <;> simp [unlink, hx]

/-- The pairs of queue `q` have become `l`, and those of every other queue are the same. -/
def Becomes (s t : QueueState ι α) (q : ι) (l : List (Key × α)) : Prop :=
  t.items q = l ∧ ∀ p, p ≠ q → t.items p = s.items p

/-- After a node has been linked the queue has one entry more, at that place. -/
theorem linkIn_becomes {rest l₁ l₂ : List NodeId} (wf : Wf s L)
    (free : L none = n :: rest) (here : L (some q) = l₁ ++ l₂) (key : Key) (data : α) :
    Becomes s (linkIn s q n l₁.getLast? l₂.head? key data) q
      (s.pairs l₁ ++ (key, data) :: s.pairs l₂) := by
  have wf' := wf.linkIn free here key data
  have hl₁ : ∀ x ∈ l₁, x ≠ n := fun x hx => wf.fresh free (here ▸ List.mem_append_left l₂ hx)
  have hl₂ : ∀ x ∈ l₂, x ≠ n := fun x hx => wf.fresh free (here ▸ List.mem_append_right l₁ hx)
  refine ⟨?_, fun p hp => ?_⟩
  · rw [wf'.items_eq, relay_self, pairs_append, pairs_linkIn hl₁]
    refine congrArg _ (List.cons_eq_cons.mpr ⟨?_, pairs_linkIn hl₂⟩)
    simp [linkIn]
  · rw [wf'.items_eq, wf.items_eq, relay_of_ne hp, pairs_linkIn fun x hx => wf.fresh free hx]

/-- After a node has been unlinked the queue lacks its entry. -/
theorem unlink_becomes {l₁ l₂ : List NodeId} (wf : Wf s L) (here : L (some q) = l₁ ++ n :: l₂) :
    Becomes s (unlink s q n) q (s.pairs l₁ ++ s.pairs l₂) := by
  have wf' := wf.unlink here
  refine ⟨?_, fun p hp => ?_⟩
  · rw [wf'.items_eq, relay_self, pairs_unlink, pairs_append]
  · rw [wf'.items_eq, wf.items_eq, relay_of_ne hp, pairs_unlink]

/-- What the calls do to a queue, seen as the list of its pairs from head to tail: those that
succeed, and those that find no free node, an empty queue, no pair to remove or a null pointer. -/
structure ActsAsList (s : QueueState ι α) : Prop where
  append : ∀ q key data, s.freeNodes ≠ [] →
    ∃ t, (Op.append (some q) data key).call s = .ok ((.success, none), t) ∧
      Becomes s t q (s.items q ++ [(key, data)])
  insert_plain : ∀ q key data, s.freeNodes ≠ [] → (s.queues q).compare = none →
    ∃ t, (Op.insert (some q) data key).call s = .ok ((.success, none), t) ∧
      Becomes s t q (s.items q ++ [(key, data)])
  insert_sorted : ∀ q key data, s.freeNodes ≠ [] →
    (s.queues q).compare = some compareUintAsc →
    (s.items q).Pairwise (fun x y => x.1 ≤ y.1) →
    ∃ t l₁ l₂, (Op.insert (some q) data key).call s = .ok ((.success, none), t) ∧
      s.items q = l₁ ++ l₂ ∧ (∀ x ∈ l₁, x.1 ≤ key) ∧ (∀ x ∈ l₂, key < x.1) ∧
      Becomes s t q (l₁ ++ (key, data) :: l₂) ∧ (t.items q).Pairwise (fun x y => x.1 ≤ y.1)
  remove : ∀ q x l, s.items q = x :: l →
    ∃ t, (Op.remove (some q) true).call s = .ok ((.success, some x.2), t) ∧ Becomes s t q l
  removeByKey : ∀ q key remove l₁ x l₂, (s.queues q).remove = some remove →
    s.items q = l₁ ++ x :: l₂ → (∀ y ∈ l₁, remove y.1 key = false) → remove x.1 key = true →
    ∃ t, (Op.removeByKey (some q) true key).call s = .ok ((.success, some x.2), t) ∧
      Becomes s t q (l₁ ++ l₂)
  removeByKey_plain : ∀ q key x l, (s.queues q).remove = none → s.items q = x :: l →
    ∃ t, (Op.removeByKey (some q) true key).call s = .ok ((.success, some x.2), t) ∧
      Becomes s t q l
  append_full : ∀ q key data, s.freeNodes = [] →
    (Op.append (some q) data key).call s = .ok ((.noQnodes, none), s)
  insert_full : ∀ q key data, s.freeNodes = [] →
    (Op.insert (some q) data key).call s = .ok ((.noQnodes, none), s)
  remove_empty : ∀ q, s.items q = [] →
    (Op.remove (some q) true).call s = .ok ((.empty, none), s)
  removeByKey_empty : ∀ q key, s.items q = [] →
    (Op.removeByKey (some q) true key).call s = .ok ((.empty, none), s)
  removeByKey_notFound : ∀ q key remove, (s.queues q).remove = some remove → s.items q ≠ [] →
    (∀ x ∈ s.items q, remove x.1 key = false) →
    (Op.removeByKey (some q) true key).call s = .ok ((.notFound, none), s)
  badParam : ∀ op : Op ι α, op.NullPointer → op.call s = .ok ((.badParam, none), s)
  failed : ∀ (op : Op ι α) r t, op.call s = .ok (r, t) → r.1 ≠ .success → t = s

/-- A call that must change nothing returns and changes nothing. -/
theorem unchanged_of_wp {op : Op ι α} {r : Status × Option α}
    (h : wp op.call (fun r' t => r' = r ∧ t = s) (fun _ => False) s) :
    op.call s = .ok (r, s) := by
  obtain ⟨_, _, hcall, rfl, rfl⟩ := wp_returns h
  exact hcall

/-- A call that must return does so. -/
theorem returns_of_wp {op : Op ι α} {r : Status × Option α} {P : QueueState ι α → Prop}
    (h : wp op.call (fun r' t => r' = r ∧ P t) (fun _ => False) s) :
    ∃ t, op.call s = .ok (r, t) ∧ P t := by
  obtain ⟨_, t, hcall, rfl, ht⟩ := wp_returns h
  exact ⟨t, hcall, ht⟩

/-- The comparison routine compares keys without a sign. -/
theorem compareUintAsc_le {old new : Qnode α} : compareUintAsc old new ≤ 0 ↔ old.key ≤ new.key := by
  rw [compareUintAsc, UInt32.le_iff_toNat_le]
  split
  · rename_i h
    simp [Nat.le_of_lt (UInt32.lt_iff_toNat_lt.mp h)]
  · rename_i h
    have hle : ¬ old.key.toNat < new.key.toNat := fun h' => h (UInt32.lt_iff_toNat_lt.mpr h')
    split
    · rename_i heq
      simp [heq]
    · rename_i hne
      have hne' : old.key.toNat ≠ new.key.toNat := fun h' => hne (UInt32.toNat_inj.mp h')
      simp
      omega

omit [DecidableEq ι] in
/-- In a sorted list everything from the first larger key on is larger. -/
theorem lt_of_sorted {l : List (Key × α)} {key : Key} (sorted : l.Pairwise fun x y => x.1 ≤ y.1)
    (first : ∀ x, l.head? = some x → key < x.1) : ∀ x ∈ l, key < x.1 := by
  cases l with
  | nil => simp
  | cons y l =>
    intro x hx
    have hy : key < y.1 := first y rfl
    rcases List.mem_cons.mp hx with rfl | hx
    · exact hy
    · exact UInt32.lt_of_lt_of_le hy ((List.pairwise_cons.mp sorted).1 x hx)

omit [DecidableEq ι] in
/-- An entry behind those with keys up to its own keeps a queue in order. -/
theorem sorted_insert {l₁ l₂ : List (Key × α)} {key : Key} {data : α}
    (sorted : (l₁ ++ l₂).Pairwise fun x y => x.1 ≤ y.1) (before : ∀ x ∈ l₁, x.1 ≤ key)
    (behind : ∀ x ∈ l₂, key < x.1) :
    (l₁ ++ (key, data) :: l₂).Pairwise fun x y => x.1 ≤ y.1 := by
  rw [List.pairwise_append] at sorted ⊢
  obtain ⟨h₁, h₂, hacross⟩ := sorted
  refine ⟨h₁, List.pairwise_cons.mpr ⟨fun x hx => UInt32.le_of_lt (behind x hx), h₂⟩, ?_⟩
  intro x hx y hy
  rcases List.mem_cons.mp hy with rfl | hy
  · exact before x hx
  · exact hacross x hx y hy

omit [DecidableEq ι] in
/-- A split of the pairs is a split of the nodes. -/
theorem Wf.split_items (wf : Wf s L) {i₁ i₂ : List (Key × α)} {x : Key × α}
    (h : s.items q = i₁ ++ x :: i₂) :
    ∃ l₁ n l₂, L (some q) = l₁ ++ n :: l₂ ∧ s.pairs l₁ = i₁ ∧ s.pairs l₂ = i₂ ∧
      ((s.qnodes n).key, (s.qnodes n).data) = x := by
  rw [wf.items_eq, QueueState.pairs, List.map_eq_append_iff] at h
  obtain ⟨l₁, l, here, hl₁, hl⟩ := h
  obtain ⟨n, l₂, rfl, hx, hl₂⟩ := List.map_eq_cons_iff.mp hl
  exact ⟨l₁, n, l₂, here, hl₁, hl₂, hx⟩

omit [DecidableEq ι] in
/-- A free node is at the front of the free list. -/
theorem Wf.exists_free (wf : Wf s L) (some_ : s.freeNodes ≠ []) : ∃ n rest, L none = n :: rest := by
  rw [wf.freeNodes_eq] at some_
  exact List.exists_cons_of_ne_nil some_

omit [DecidableEq ι] in
/-- A queue with an entry is not empty. -/
theorem Wf.not_empty (wf : Wf s L) {x : Key × α} {l : List (Key × α)}
    (h : s.items q = x :: l) : (s.queues q).qEmpty = false := by
  rw [Bool.eq_false_iff]
  intro he
  rw [wf.items_eq, wf.qEmpty_iff.mp he] at h
  cases h

/-- A removal yields the first entry. -/
theorem call_remove (wf : Wf s L) {x : Key × α} {l : List (Key × α)} (h : s.items q = x :: l) :
    wp (qRemove (some q) true)
      (fun r t => r = (.success, some x.2) ∧ Becomes s t q l) E s := by
  obtain ⟨l₁, n, l₂, here, hl₁, hl₂, hx⟩ := wf.split_items (show s.items q = [] ++ x :: l from h)
  obtain rfl : l₁ = [] := by simpa [QueueState.pairs] using hl₁
  have hbecomes := unlink_becomes wf here
  rw [hl₁, hl₂] at hbecomes
  refine wp_mono (qRemove_spec wf here) ?_ fun _ he => he
  intro r t ⟨hr, ht⟩
  exact ⟨by rw [hr, ← hx], by rw [ht]; exact hbecomes⟩

/-- An append puts the pair at the end. -/
theorem call_append (wf : Wf s L) (some_ : s.freeNodes ≠ []) (key : Key) (data : α) :
    wp (Op.append (some q) data key).call
      (fun r t => r = (.success, none) ∧ Becomes s t q (s.items q ++ [(key, data)])) E s := by
  obtain ⟨n, rest, free⟩ := wf.exists_free some_
  refine wp_bind.mpr (wp_mono (qAppend_spec wf free) ?_ fun _ he => he)
  intro r t ⟨hr, ht⟩
  have hbecomes := linkIn_becomes (q := q) wf free (List.append_nil _).symm key data
  rw [List.head?_nil, ← wf.items_eq, ← ht] at hbecomes
  exact wp_pure.mpr ⟨by rw [hr], hbecomes⟩

/-- So does an insertion into a queue without a comparison routine. -/
theorem call_insert_plain (wf : Wf s L) (some_ : s.freeNodes ≠ []) (key : Key) (data : α)
    (hcompare : (s.queues q).compare = none) :
    wp (Op.insert (some q) data key).call
      (fun r t => r = (.success, none) ∧ Becomes s t q (s.items q ++ [(key, data)])) E s := by
  obtain ⟨n, rest, free⟩ := wf.exists_free some_
  refine wp_bind.mpr (wp_mono (qInsert_spec wf free) ?_ fun _ he => he)
  intro r t ⟨hr, l₁, l₂, here, hat, ht⟩
  obtain rfl := hat.last hcompare
  have hbecomes := linkIn_becomes wf free here key data
  rw [List.append_nil] at here
  rw [← here, ← wf.items_eq, here, ← ht] at hbecomes
  exact wp_pure.mpr ⟨by rw [hr], hbecomes⟩

omit [DecidableEq ι] in
/-- The place in a sorted queue where the loop of `_q_insert` stops: behind all pairs with a key
up to the new one, and before all larger ones. -/
theorem InsertsAt.sorted {l₁ l₂ : List NodeId} {key : Key} {data : α}
    (hcompare : (s.queues q).compare = some compareUintAsc)
    (hat : InsertsAt s q key data l₁ l₂)
    (hsorted : (s.pairs l₂).Pairwise fun x y => x.1 ≤ y.1) :
    (∀ x ∈ s.pairs l₁, x.1 ≤ key) ∧ ∀ x ∈ s.pairs l₂, key < x.1 := by
  constructor
  · intro x hx
    obtain ⟨m, hm, rfl⟩ := List.mem_map.mp hx
    exact compareUintAsc_le.mp (hat.passed _ hcompare m hm)
  · refine lt_of_sorted hsorted fun x hx => ?_
    rw [QueueState.pairs, List.head?_map, Option.map_eq_some_iff] at hx
    obtain ⟨m, hm, rfl⟩ := hx
    have hstop := hat.stopped _ hcompare m hm
    rw [compareUintAsc_le] at hstop
    exact UInt32.not_le.mp hstop

/-- An insertion into a sorted queue puts the pair there. -/
theorem call_insert_sorted (wf : Wf s L) (some_ : s.freeNodes ≠ []) (key : Key) (data : α)
    (hcompare : (s.queues q).compare = some compareUintAsc)
    (hsorted : (s.items q).Pairwise fun x y => x.1 ≤ y.1) :
    wp (Op.insert (some q) data key).call (fun r t => r = (.success, none) ∧
      ∃ l₁ l₂, s.items q = l₁ ++ l₂ ∧ (∀ x ∈ l₁, x.1 ≤ key) ∧ (∀ x ∈ l₂, key < x.1) ∧
        Becomes s t q (l₁ ++ (key, data) :: l₂) ∧
        (t.items q).Pairwise fun x y => x.1 ≤ y.1) E s := by
  obtain ⟨n, rest, free⟩ := wf.exists_free some_
  refine wp_bind.mpr (wp_mono (qInsert_spec wf free) ?_ fun _ he => he)
  intro r t ⟨hr, l₁, l₂, here, hat, ht⟩
  have hitems : s.items q = s.pairs l₁ ++ s.pairs l₂ := by
    rw [wf.items_eq, here, pairs_append]
  have hbecomes := linkIn_becomes wf free here key data
  rw [← ht] at hbecomes
  rw [hitems] at hsorted
  obtain ⟨hbefore, hbehind⟩ := hat.sorted hcompare (List.pairwise_append.mp hsorted).2.1
  refine wp_pure.mpr ⟨by rw [hr], s.pairs l₁, s.pairs l₂, hitems, hbefore, hbehind, hbecomes, ?_⟩
  rw [hbecomes.1]
  exact sorted_insert hsorted hbefore hbehind

/-- A removal by key yields the first pair that the routine hits. -/
theorem call_removeByKey (wf : Wf s L) {i₁ i₂ : List (Key × α)} {x : Key × α} {key : Key}
    {remove : Key → Key → Bool} (hroutine : (s.queues q).remove = some remove)
    (hitems : s.items q = i₁ ++ x :: i₂) (hbefore : ∀ y ∈ i₁, remove y.1 key = false)
    (hhit : remove x.1 key = true) :
    wp (Op.removeByKey (some q) true key).call
      (fun r t => r = (.success, some x.2) ∧ Becomes s t q (i₁ ++ i₂)) E s := by
  obtain ⟨l₁, n, l₂, here, hl₁, hl₂, hx⟩ := wf.split_items hitems
  have hbecomes := unlink_becomes wf here
  rw [hl₁, hl₂] at hbecomes
  have hmiss : ∀ m ∈ l₁, remove (s.qnodes m).key key = false := by
    intro m hm
    have hmem : ((s.qnodes m).key, (s.qnodes m).data) ∈ i₁ := by
      rw [← hl₁]
      exact List.mem_map.mpr ⟨m, hm, rfl⟩
    exact hbefore _ hmem
  have hkey : (s.qnodes n).key = x.1 := by rw [← hx]
  refine wp_mono (qRemoveByKey_spec wf here hroutine hmiss (by rwa [hkey])) ?_ fun _ he => he
  intro r t ⟨hr, ht⟩
  exact ⟨by rw [hr, ← hx], by rw [ht]; exact hbecomes⟩

omit [DecidableEq ι] in
/-- Without a free node the pointer to the free list is null. -/
theorem Wf.none_free (wf : Wf s L) (h : s.freeNodes = []) : s.qnodeAvail = none := by
  rw [wf.free.head_eq, ← wf.freeNodes_eq, h, List.head?_nil]

/-- Without a free node nothing is appended. -/
theorem call_append_full (wf : Wf s L) (h : s.freeNodes = []) (key : Key) (data : α) :
    wp (Op.append (some q) data key).call (fun r t => r = (.noQnodes, none) ∧ t = s) E s := by
  refine wp_bind.mpr (wp_mono (qAppend_full (wf.none_free h)) ?_ fun _ he => he)
  intro r t ⟨hr, ht⟩
  exact wp_pure.mpr ⟨by rw [hr], ht⟩

/-- Nor is anything inserted. -/
theorem call_insert_full (wf : Wf s L) (h : s.freeNodes = []) (key : Key) (data : α) :
    wp (Op.insert (some q) data key).call (fun r t => r = (.noQnodes, none) ∧ t = s) E s := by
  refine wp_bind.mpr (wp_mono (qInsert_full (wf.none_free h)) ?_ fun _ he => he)
  intro r t ⟨hr, ht⟩
  exact wp_pure.mpr ⟨by rw [hr], ht⟩

omit [DecidableEq ι] in
/-- The test for an empty queue asks whether it has entries. -/
theorem Wf.empty_iff (wf : Wf s L) : s.items q = [] ↔ (s.queues q).qEmpty = true := by
  rw [wf.qEmpty_iff, wf.items_eq, QueueState.pairs, List.map_eq_nil_iff]

/-- Where the routine hits no key, nothing is removed. -/
theorem call_removeByKey_notFound (wf : Wf s L) {key : Key} {remove : Key → Key → Bool}
    (hroutine : (s.queues q).remove = some remove) (some_ : s.items q ≠ [])
    (hmiss : ∀ x ∈ s.items q, remove x.1 key = false) :
    wp (Op.removeByKey (some q) true key).call (fun r t => r = (.notFound, none) ∧ t = s) E s := by
  have hempty : (s.queues q).qEmpty = false := by
    rw [Bool.eq_false_iff]
    exact fun he => some_ (wf.empty_iff.mpr he)
  refine qRemoveByKey_notFound wf hempty hroutine fun x hx => ?_
  rw [wf.items_eq] at hmiss
  exact hmiss _ (List.mem_map_of_mem hx)

/-- A null pointer is found out before anything else happens. -/
theorem Op.NullPointer.call {op : Op ι α} (h : op.NullPointer) :
    op.call s = .ok ((.badParam, none), s) := by
  cases op with
  | append queue data key => exact h.elim
  | insert queue data key =>
    obtain rfl : queue = none := h
    rfl
  | remove queue data | removeByKey queue data key =>
    cases queue with
    | none => rfl
    | some q =>
      obtain rfl : data = false := h.resolve_left nofun
      rfl

/-- **Queues refine ordered lists**, in every reachable state. -/
theorem queues_refine_lists (h : Reachable s) : ActsAsList s := by
  obtain ⟨L, wf⟩ := h.wf
  constructor
  case append => exact fun q key data some_ => returns_of_wp (call_append wf some_ key data)
  case insert_plain =>
    intro q key data some_ hcompare
    exact returns_of_wp (call_insert_plain wf some_ key data hcompare)
  case insert_sorted =>
    intro q key data some_ hcompare hsorted
    obtain ⟨t, hcall, l₁, l₂, hrest⟩ :=
      returns_of_wp (call_insert_sorted wf some_ key data hcompare hsorted)
    exact ⟨t, l₁, l₂, hcall, hrest⟩
  case remove => exact fun q x l hitems => returns_of_wp (call_remove wf hitems)
  case removeByKey =>
    intro q key remove i₁ x i₂ hroutine hitems hbefore hhit
    exact returns_of_wp (call_removeByKey wf hroutine hitems hbefore hhit)
  case removeByKey_plain =>
    intro q key x l hroutine hitems
    exact returns_of_wp ((qRemoveByKey_plain (wf.not_empty hitems) hroutine).mpr
      (call_remove wf hitems))
  case append_full =>
    exact fun q key data none_ => unchanged_of_wp (call_append_full wf none_ key data)
  case insert_full =>
    exact fun q key data none_ => unchanged_of_wp (call_insert_full wf none_ key data)
  case remove_empty =>
    exact fun q hitems => unchanged_of_wp (qRemove_empty (wf.empty_iff.mp hitems))
  case removeByKey_empty =>
    exact fun q key hitems => unchanged_of_wp (qRemoveByKey_empty (wf.empty_iff.mp hitems))
  case removeByKey_notFound =>
    intro q key remove hroutine some_ hmiss
    exact unchanged_of_wp (call_removeByKey_notFound wf hroutine some_ hmiss)
  case badParam => exact fun op hop => hop.call
  case failed =>
    intro op r t hcall hfailed
    rcases wp_ok (op.call_spec wf) hcall with ⟨-, ht⟩ | ⟨hok, -⟩
    · exact ht
    · exact absurd hok hfailed

/-- Lists after calls on both queues. -/
theorem queues_refine_lists_calls : ∃ s : QueueState Bool Nat, Reachable s ∧
    s.items true = [(3, 2), (5, 1), (5, 3)] ∧ s.items false = [(8, 5)] ∧
    s.freeNodes.length + 4 = nQnodes ∧ ActsAsList s := by
  obtain ⟨s, hreach, hordered, hplain, hfree⟩ := someCalls_state
  exact ⟨s, hreach, hordered, hplain, hfree, queues_refine_lists hreach⟩

/-! ## The kernel's queues

The rest of the kernel is modelled over `Queue`, lists of pairs with a count of the free
nodes.  Here the nodes are shown to follow that model: `embed` says how the data of a
queue are stored in the nodes. -/

section Model

variable {β : Type} {embed : β → α} {Q : Cumulonimbus.Queue β} {key : Key}

/-- Queue `q` holds what `Q` holds, and has the same routines. -/
structure Models (embed : β → α) (s : QueueState ι α) (L : Option ι → List NodeId) (q : ι)
    (Q : Cumulonimbus.Queue β) : Prop where
  items : s.pairs (L (some q)) = Q.items.map (Prod.map id embed)
  remove : (s.queues q).remove = Q.remove
  compare : ((s.queues q).compare = none ∧ Q.compare = none) ∨
    ((s.queues q).compare = some compareUintAsc ∧
      Q.compare = some Cumulonimbus.compareUintAsc)

/-- `t` comes from `s` by a change of queue `q` alone, which is now as `Q` and leaves
`pool` free nodes. -/
def Follows (embed : β → α) (s t : QueueState ι α) (q : ι) (pool : Nat)
    (Q : Cumulonimbus.Queue β) : Prop :=
  ∃ L', Wf t L' ∧ (L' none).length = pool ∧ Models embed t L' q Q ∧
    ∀ p, p ≠ q → t.items p = s.items p ∧ t.queues p = s.queues p

/-- Linking a node is an insertion into the list of the model. -/
theorem linkIn_follows {rest l₁ l₂ : List NodeId} {i₁ i₂ : List (Key × β)}
    (wf : Wf s L) (model : Models embed s L q Q) (free : L none = n :: rest)
    (here : L (some q) = l₁ ++ l₂) (h₁ : s.pairs l₁ = i₁.map (Prod.map id embed))
    (h₂ : s.pairs l₂ = i₂.map (Prod.map id embed)) (key : Key) (data : β) :
    Follows embed s (linkIn s q n l₁.getLast? l₂.head? key (embed data)) q rest.length
      { Q with items := i₁ ++ (key, data) :: i₂ } := by
  have wf' := wf.linkIn free here key (embed data)
  obtain ⟨hitems, hothers⟩ := linkIn_becomes wf free here key (embed data)
  refine ⟨_, wf', rfl, ⟨?_, ?_, ?_⟩, fun p hp => ⟨hothers p hp, ?_⟩⟩
  · rw [← wf'.items_eq, hitems, h₁, h₂]
    simp
  · simpa [linkIn] using model.remove
  · simpa [linkIn] using model.compare
  · simp [linkIn, hp]

/-- Unlinking one is a removal from it. -/
theorem unlink_follows {l₁ l₂ : List NodeId} {i₁ i₂ : List (Key × β)} (wf : Wf s L)
    (model : Models embed s L q Q) (here : L (some q) = l₁ ++ n :: l₂)
    (h₁ : s.pairs l₁ = i₁.map (Prod.map id embed))
    (h₂ : s.pairs l₂ = i₂.map (Prod.map id embed)) :
    Follows embed s (unlink s q n) q ((L none).length + 1) { Q with items := i₁ ++ i₂ } := by
  have wf' := wf.unlink here
  obtain ⟨hitems, hothers⟩ := unlink_becomes wf here
  refine ⟨_, wf', rfl, ⟨?_, ?_, ?_⟩, fun p hp => ⟨hothers p hp, ?_⟩⟩
  · rw [← wf'.items_eq, hitems, h₁, h₂, List.map_append]
  · simpa [unlink] using model.remove
  · simpa [unlink] using model.compare
  · simp [unlink, hp]

/-- `_q_append` does what its model does. -/
theorem qAppend_models {data : β} (wf : Wf s L) (model : Models embed s L q Q) :
    wp (qAppend (some q) (embed data) key)
      (fun r t => match Queue.qAppend (L none).length Q data key with
        | .error stat => r = stat ∧ t = s
        | .ok (pool, Q') => r = .success ∧ Follows embed s t q pool Q') E s := by
  cases free : L none with
  | nil =>
    have avail : s.qnodeAvail = none := by rw [wf.free.head_eq, free, List.head?_nil]
    exact qAppend_full avail
  | cons n rest =>
    refine wp_mono (qAppend_spec wf free) ?_ fun _ he => he
    intro r t ⟨hr, ht⟩
    have hfollows := linkIn_follows wf model free (List.append_nil _).symm model.items
      (show s.pairs [] = List.map (Prod.map id embed) [] from rfl) key data
    exact ⟨hr, ht ▸ hfollows⟩

/-- A value goes in front of the first element that it precedes. -/
theorem orderedInsert_split {γ : Type} {r : γ → γ → Prop} [DecidableRel r] {x : γ}
    {l₁ l₂ : List γ} (passed : ∀ y ∈ l₁, ¬ r x y) (stopped : ∀ y, l₂.head? = some y → r x y) :
    (l₁ ++ l₂).orderedInsert r x = l₁ ++ x :: l₂ := by
  induction l₁ with
  | nil =>
    cases l₂ with
    | nil => rfl
    | cons y l₂ => exact if_pos (stopped y rfl)
  | cons y l₁ ih =>
    rw [List.cons_append, List.orderedInsert_cons, if_neg (passed y List.mem_cons_self),
      ih fun z hz => passed z (List.mem_cons_of_mem y hz)]
    rfl

omit [DecidableEq ι] in
/-- The comparison routines agree. -/
theorem compare_agree (embed : β → α) {m : NodeId} {x : Key × β} {data : β}
    (old : (s.qnodes m).key = x.1) :
    Cumulonimbus.compareUintAsc x (key, data) ≤ 0 ↔
      compareUintAsc (s.qnodes m) ⟨key, embed data, none, none⟩ ≤ 0 := by
  rw [Cumulonimbus.compareUintAsc, compareUintAsc, old]

/-- `_q_insert` does what its model does. -/
theorem qInsert_models {data : β} (wf : Wf s L) (model : Models embed s L q Q) :
    wp (qInsert (some q) (embed data) key)
      (fun r t => match Queue.qInsert (L none).length Q data key with
        | .error stat => r = stat ∧ t = s
        | .ok (pool, Q') => r = .success ∧ Follows embed s t q pool Q') E s := by
  cases free : L none with
  | nil =>
    have avail : s.qnodeAvail = none := by rw [wf.free.head_eq, free, List.head?_nil]
    exact qInsert_full avail
  | cons n rest =>
    refine wp_mono (qInsert_spec wf free) ?_ fun _ he => he
    intro r t ⟨hr, l₁, l₂, here, hat, ht⟩
    have hitems := model.items
    rw [here, pairs_append] at hitems
    obtain ⟨i₁, i₂, hi, h₁, h₂⟩ := List.map_eq_append_iff.mp hitems.symm
    have hfollows := linkIn_follows wf model free here h₁.symm h₂.symm key data
    rw [← ht] at hfollows
    rcases model.compare with ⟨hcmp, hcmp'⟩ | ⟨hcmp, hcmp'⟩
    · obtain rfl := hat.last hcmp
      obtain rfl : i₂ = [] := by simpa [QueueState.pairs] using h₂
      rw [hcmp'] at hfollows
      simp only [Queue.qInsert, List.length_cons, hcmp']
      refine ⟨hr, ?_⟩
      rw [hi, List.append_nil]
      exact hfollows
    · rw [hcmp'] at hfollows
      simp only [Queue.qInsert, List.length_cons, hcmp']
      refine ⟨hr, ?_⟩
      rw [hi, orderedInsert_split]
      · exact hfollows
      · intro x hx
        have hmem : Prod.map id embed x ∈ s.pairs l₁ := h₁ ▸ List.mem_map_of_mem hx
        obtain ⟨m, hm, hmx⟩ := List.mem_map.mp hmem
        have hkey : (s.qnodes m).key = x.1 := congrArg Prod.fst hmx
        rw [not_not, compare_agree embed hkey]
        exact hat.passed _ hcmp m hm
      · intro x hx
        have hhead : (s.pairs l₂).head? = some (Prod.map id embed x) := by
          rw [← h₂, List.head?_map, hx]
          rfl
        rw [QueueState.pairs, List.head?_map, Option.map_eq_some_iff] at hhead
        obtain ⟨m, hm, hmx⟩ := hhead
        have hkey : (s.qnodes m).key = x.1 := congrArg Prod.fst hmx
        rw [compare_agree embed hkey]
        exact hat.stopped _ hcmp m hm

/-- `_q_remove` does what its model does. -/
theorem qRemove_models (wf : Wf s L) (model : Models embed s L q Q) :
    wp (qRemove (some q) true)
      (fun r t => match Queue.qRemove (L none).length Q with
        | .error stat => r = (stat, none) ∧ t = s
        | .ok (data, pool, Q') => r = (.success, some (embed data)) ∧
            Follows embed s t q pool Q') E s := by
  have hitems := model.items
  cases hQ : Q.items with
  | nil =>
    have hnil : L (some q) = [] := by simpa [hQ, QueueState.pairs] using hitems
    simp only [Queue.qRemove, hQ]
    exact qRemove_empty (wf.qEmpty_iff.mpr hnil)
  | cons x rest =>
    rw [hQ, List.map_cons, QueueState.pairs, List.map_eq_cons_iff] at hitems
    obtain ⟨n, l₂, here, hx, hl₂⟩ := hitems
    have hfollows := unlink_follows wf model (show L (some q) = [] ++ n :: l₂ from here)
      (show s.pairs [] = List.map (Prod.map id embed) [] from rfl) hl₂
    have hdata : (s.qnodes n).data = embed x.2 := congrArg Prod.snd hx
    simp only [Queue.qRemove, hQ]
    refine wp_mono (qRemove_spec wf here) ?_ fun _ he => he
    intro r t ⟨hr, ht⟩
    exact ⟨by rw [hr, hdata], ht ▸ hfollows⟩

/-- `_q_remove_by_key` does what its model does. -/
theorem qRemoveByKey_models (wf : Wf s L) (model : Models embed s L q Q) :
    wp (qRemoveByKey (some q) true key)
      (fun r t => match Queue.qRemoveByKey (L none).length Q key with
        | .error stat => r = (stat, none) ∧ t = s
        | .ok (data, pool, Q') => r = (.success, some (embed data)) ∧
            Follows embed s t q pool Q') E s := by
  have hitems := model.items
  have hempty : (s.queues q).qEmpty = Q.qEmpty := by
    rw [Bool.eq_iff_iff, wf.qEmpty_iff, Queue.qEmpty, List.isEmpty_iff]
    have hlen := congrArg List.length hitems
    rw [QueueState.pairs, List.length_map, List.length_map] at hlen
    rw [← List.length_eq_zero_iff, hlen, List.length_eq_zero_iff]
  rw [Queue.qRemoveByKey]
  cases hQ : Q.qEmpty with
  | true => exact qRemoveByKey_empty (hempty.trans hQ)
  | false =>
    have hsome := hempty.trans hQ
    cases hrem : Q.remove with
    | none =>
      exact (qRemoveByKey_plain hsome (model.remove.trans hrem)).mpr (qRemove_models wf model)
    | some remove =>
      have hroutine := model.remove.trans hrem
      simp only [Bool.false_eq_true, if_false]
      cases hfind : Q.items.find? fun e => remove e.1 key with
      | none =>
        refine qRemoveByKey_notFound wf hsome hroutine fun m hm => ?_
        have hmem : ((s.qnodes m).key, (s.qnodes m).data) ∈ Q.items.map (Prod.map id embed) :=
          hitems ▸ List.mem_map.mpr ⟨m, hm, rfl⟩
        obtain ⟨x, hx, hxm⟩ := List.mem_map.mp hmem
        have hkey : x.1 = (s.qnodes m).key := congrArg Prod.fst hxm
        rw [← hkey]
        simpa using List.find?_eq_none.mp hfind x hx
      | some x =>
        obtain ⟨hit, i₁, i₂, hi, hmiss⟩ := List.find?_eq_some_iff_append.mp hfind
        have hsplit := hitems
        rw [hi, List.map_append, List.map_cons, QueueState.pairs, List.map_eq_append_iff] at hsplit
        obtain ⟨l₁, l, here, h₁, hl⟩ := hsplit
        obtain ⟨n, l₂, rfl, hx, h₂⟩ := List.map_eq_cons_iff.mp hl
        have hkey : (s.qnodes n).key = x.1 := congrArg Prod.fst hx
        have hdata : (s.qnodes n).data = embed x.2 := congrArg Prod.snd hx
        have hfollows := unlink_follows wf model here h₁ h₂
        have hbefore : ∀ m ∈ l₁, remove (s.qnodes m).key key = false := by
          intro m hm
          have hmem : ((s.qnodes m).key, (s.qnodes m).data) ∈ i₁.map (Prod.map id embed) :=
            h₁ ▸ List.mem_map.mpr ⟨m, hm, rfl⟩
          obtain ⟨y, hy, hym⟩ := List.mem_map.mp hmem
          have hkey' : y.1 = (s.qnodes m).key := congrArg Prod.fst hym
          rw [← hkey']
          simpa using hmiss y hy
        have herase : Q.items.eraseP (fun e => remove e.1 key) = i₁ ++ i₂ := by
          rw [hi, List.eraseP_append_right _ (by simpa using hmiss)]
          simp [hit]
        rw [hrem] at hfollows
        rw [herase]
        refine wp_mono (qRemoveByKey_spec wf here hroutine hbefore (by rwa [hkey])) ?_
          fun _ he => he
        intro r t hpost
        obtain ⟨hr, ht⟩ := hpost
        exact ⟨by rw [hr, hdata], ht ▸ hfollows⟩

end Model

end Cumulonimbus.Qnodes
