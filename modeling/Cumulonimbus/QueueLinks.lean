import Cumulonimbus.QueueNodes

/-!
# Queues as linked lists

The representation invariant of the queue module: every queue is a doubly linked list of
as many nodes as its `length` says, the free nodes are linked along `next`, and every
node is in exactly one of these lists.  A layout `L` names the nodes of each queue, and
those of the free list under `none`.

Whatever branch an operation takes, it computes `linkIn` or `unlink`, and these keep the
invariant.
-/

namespace Cumulonimbus.Qnodes

open Exec Linked

variable {ι α : Type}

def QueueState.next (s : QueueState ι α) (n : NodeId) : Option NodeId := (s.qnodes n).next

def QueueState.prev (s : QueueState ι α) (n : NodeId) : Option NodeId := (s.qnodes n).prev

/-- The nodes of a queue from head to tail. -/
def QueueState.nodesOf (s : QueueState ι α) (q : ι) : List NodeId :=
  walk s.next nQnodes (s.queues q).head

/-- The nodes of the free list. -/
def QueueState.freeNodes (s : QueueState ι α) : List NodeId := walk s.next nQnodes s.qnodeAvail

/-- What some nodes hold. -/
def QueueState.pairs (s : QueueState ι α) (l : List NodeId) : List (Key × α) :=
  l.map fun n => ((s.qnodes n).key, (s.qnodes n).data)

/-- The `(key, data)` pairs of a queue from head to tail. -/
def QueueState.items (s : QueueState ι α) (q : ι) : List (Key × α) := s.pairs (s.nodesOf q)

/-- The representation invariant, for the layout `L`. -/
structure Wf (s : QueueState ι α) (L : Option ι → List NodeId) : Prop where
  doubly : ∀ q, Doubly s.next s.prev (s.queues q).head (s.queues q).tail (L (some q))
  length : ∀ q, (s.queues q).length.toNat = (L (some q)).length
  free : Path s.next s.qnodeAvail (L none) none
  place : ∀ n, ∃ p, ∀ p', n ∈ L p' ↔ p' = p

variable {s t : QueueState ι α} {L : Option ι → List NodeId} {q : ι} {n : NodeId}
  {rest l₁ l₂ : List NodeId}

/-- A node is in one list. -/
theorem Wf.eq_of_mem (wf : Wf s L) {p p' : Option ι} (h : n ∈ L p) (h' : n ∈ L p') : p = p' := by
  obtain ⟨p₀, hp₀⟩ := wf.place n
  rw [(hp₀ p).mp h, (hp₀ p').mp h']

/-- So it is in no other. -/
theorem Wf.not_mem (wf : Wf s L) {p p' : Option ι} (h : n ∈ L p) (hne : p' ≠ p) : n ∉ L p' :=
  fun h' => hne (wf.eq_of_mem h' h)

/-- A walk from the head of a queue passes its list. -/
theorem Wf.nodesOf_eq (wf : Wf s L) (q : ι) : s.nodesOf q = L (some q) :=
  (wf.doubly q).forth.walk_eq (by simpa using (wf.doubly q).forth.length_le)

/-- A walk from the pointer to the free list passes the free nodes. -/
theorem Wf.freeNodes_eq (wf : Wf s L) : s.freeNodes = L none :=
  wf.free.walk_eq (by simpa using wf.free.length_le)

/-- The entries of a queue are those of its nodes. -/
theorem Wf.items_eq (wf : Wf s L) (q : ι) : s.items q = s.pairs (L (some q)) := by
  rw [QueueState.items, wf.nodesOf_eq]

/-- A queue has no more nodes than there are. -/
theorem Wf.length_le (wf : Wf s L) (q : ι) : (L (some q)).length ≤ nQnodes := by
  simpa using (wf.doubly q).forth.length_le

/-- The counter of a queue is zero exactly when its list is empty. -/
theorem Wf.qEmpty_iff (wf : Wf s L) : (s.queues q).qEmpty = true ↔ L (some q) = [] := by
  have hlen := wf.length q
  rw [Header.qEmpty, decide_eq_true_iff, UInt32.lt_iff_toNat_lt, hlen, ← List.length_eq_zero_iff]
  simp

/-! ## The two splices -/

variable [DecidableEq ι]

/-- Node `n`, the first of the free list, between `pred` and `succ` in queue `q`. -/
def linkIn (s : QueueState ι α) (q : ι) (n : NodeId) (pred succ : Option NodeId) (key : Key)
    (data : α) : QueueState ι α where
  qnodes := fun x =>
    if x = n then ⟨key, data, pred, succ⟩
    else { s.qnodes x with
      prev := if succ = some x then some n else (s.qnodes x).prev
      next := if pred = some x then some n else (s.qnodes x).next }
  qnodeAvail := (s.qnodes n).next
  queues := Function.update s.queues q { s.queues q with
    length := (s.queues q).length + 1
    head := if pred = none then some n else (s.queues q).head
    tail := if succ = none then some n else (s.queues q).tail }

/-- Node `n` taken out of queue `q` and put at the front of the free list. -/
def unlink (s : QueueState ι α) (q : ι) (n : NodeId) : QueueState ι α where
  qnodes := fun x =>
    if x = n then { s.qnodes n with next := s.qnodeAvail }
    else { s.qnodes x with
      prev := if s.next n = some x then s.prev n else (s.qnodes x).prev
      next := if s.prev n = some x then s.next n else (s.qnodes x).next }
  qnodeAvail := some n
  queues := Function.update s.queues q { s.queues q with
    length := (s.queues q).length - 1
    head := if s.prev n = none then s.next n else (s.queues q).head
    tail := if s.next n = none then s.prev n else (s.queues q).tail }

/-- A layout in which queue `q` and the free list have changed. -/
def relay (L : Option ι → List NodeId) (q : ι) (free l : List NodeId) : Option ι → List NodeId
  | none => free
  | some p => if p = q then l else L (some p)

@[simp] theorem relay_none {free l : List NodeId} : relay L q free l none = free := rfl

@[simp] theorem relay_self {free l : List NodeId} : relay L q free l (some q) = l := if_pos rfl

@[simp] theorem relay_of_ne {free l : List NodeId} {p : ι} (h : p ≠ q) :
    relay L q free l (some p) = L (some p) := if_neg h

/-- **Putting a free node into a queue** keeps the invariant. -/
theorem Wf.linkIn (wf : Wf s L) (free : L none = n :: rest) (here : L (some q) = l₁ ++ l₂)
    (key : Key) (data : α) :
    Wf (linkIn s q n l₁.getLast? l₂.head? key data) (relay L q rest (l₁ ++ n :: l₂)) := by
  have hn : n ∈ L none := free ▸ List.mem_cons_self
  have hfresh : ∀ p x, x ∈ L (some p) → x ≠ n := fun p x hx hxn =>
    wf.not_mem hn (Option.some_ne_none p) (hxn ▸ hx)
  have hl₁ : ∀ x, l₁.getLast? = some x → x ∈ L (some q) := fun x hx => by
    rw [here]
    exact List.mem_append_left _ (List.mem_of_getLast? hx)
  have hl₂ : ∀ x, l₂.head? = some x → x ∈ L (some q) := fun x hx => by
    rw [here]
    exact List.mem_append_right _ (List.mem_of_head? hx)
  -- outside queue `q` and away from `n` nothing is touched
  have hnext : ∀ x, x ≠ n → x ∉ L (some q) →
      (Qnodes.linkIn s q n l₁.getLast? l₂.head? key data).next x = s.next x := by
    intro x hxn hx
    have hx₁ : l₁.getLast? ≠ some x := fun h => hx (hl₁ x h)
    simp [Qnodes.linkIn, QueueState.next, hxn, hx₁]
  have hprev : ∀ x, x ≠ n → x ∉ L (some q) →
      (Qnodes.linkIn s q n l₁.getLast? l₂.head? key data).prev x = s.prev x := by
    intro x hxn hx
    have hx₂ : l₂.head? ≠ some x := fun h => hx (hl₂ x h)
    simp [Qnodes.linkIn, QueueState.prev, hxn, hx₂]
  constructor
  case doubly =>
    intro p
    by_cases hp : p = q
    · subst hp
      have hold := wf.doubly p
      rw [here] at hold
      have hins : Doubly (Qnodes.linkIn s p n l₁.getLast? l₂.head? key data).next
          (Qnodes.linkIn s p n l₁.getLast? l₂.head? key data).prev _ _ (l₁ ++ n :: l₂) := hold.insert
        (fun x hx hx' => by
          simp [Qnodes.linkIn, QueueState.next, hfresh p x (here ▸ hx), hx'])
        (fun x hx => by
          simp [Qnodes.linkIn, QueueState.next, hfresh p x (hl₁ x hx), hx])
        (by simp [Qnodes.linkIn, QueueState.next])
        (fun x hx hx' => by
          simp [Qnodes.linkIn, QueueState.prev, hfresh p x (here ▸ hx), hx'])
        (fun x hx => by
          simp [Qnodes.linkIn, QueueState.prev, hfresh p x (hl₂ x hx), hx])
        (by simp [Qnodes.linkIn, QueueState.prev])
      simpa [Qnodes.linkIn] using hins
    · rw [relay_of_ne hp]
      have hout : ∀ x ∈ L (some p), x ∉ L (some q) := fun x hx =>
        wf.not_mem hx fun h => hp (Option.some.inj h).symm
      have hold := (wf.doubly p).congr (fun x hx => hnext x (hfresh p x hx) (hout x hx))
        (fun x hx => hprev x (hfresh p x hx) (hout x hx))
      simpa [Qnodes.linkIn, hp] using hold
  case length =>
    intro p
    by_cases hp : p = q
    · subst hp
      have hlen := wf.length p
      have hbound := wf.length_le p
      have hN : nQnodes = 65 := rfl
      rw [here] at hlen hbound
      simp only [Qnodes.linkIn, Function.update_self, relay_self]
      rw [UInt32.toNat_add, hlen, UInt32.toNat_one, Nat.mod_eq_of_lt (by omega)]
      simp only [List.length_append, List.length_cons]
      omega
    · simpa [Qnodes.linkIn, hp] using wf.length p
  case free =>
    have hold := wf.free
    rw [free] at hold
    have hnodup := hold.nodup
    have havail : s.next n = (Qnodes.linkIn s q n l₁.getLast? l₂.head? key data).qnodeAvail := rfl
    rw [relay_none, ← havail]
    refine hold.2.congr fun x hx => hnext x ?_ ?_
    · exact fun hxn => (List.nodup_cons.mp hnodup).1 (hxn ▸ hx)
    · have hx' : x ∈ L none := free ▸ List.mem_cons_of_mem n hx
      exact wf.not_mem hx' (Option.some_ne_none q)
  case place =>
    have hnodup := wf.free.nodup
    rw [free, List.nodup_cons] at hnodup
    intro x
    by_cases hxn : x = n
    · subst hxn
      refine ⟨some q, fun p' => ?_⟩
      rcases p' with _ | p'
      · simp [hnodup.1]
      · by_cases hp : p' = q
        · simp [hp]
        · simpa [hp] using wf.not_mem hn (Option.some_ne_none p')
    · obtain ⟨p, hp⟩ := wf.place x
      refine ⟨p, fun p' => ?_⟩
      rw [← hp p']
      rcases p' with _ | p'
      · simp [free, hxn]
      · by_cases hpq : p' = q
        · simp [hpq, here, hxn]
        · simp [hpq]

/-- **Taking a node out of a queue** keeps the invariant. -/
theorem Wf.unlink (wf : Wf s L) (here : L (some q) = l₁ ++ n :: l₂) :
    Wf (unlink s q n) (relay L q (n :: L none) (l₁ ++ l₂)) := by
  have hold := wf.doubly q
  rw [here] at hold
  have hnext_n : s.next n = l₂.head? := hold.next_eq
  have hprev_n : s.prev n = l₁.getLast? := hold.prev_eq
  have hnodup := hold.forth.nodup
  have hn : n ∈ L (some q) := by simp [here]
  have hne : ∀ x ∈ l₁ ++ l₂, x ≠ n := by
    intro x hx hxn
    subst hxn
    exact (List.nodup_middle.mp hnodup).notMem hx
  have hl₁ : ∀ x, l₁.getLast? = some x → x ∈ L (some q) := fun x hx => by
    rw [here]
    exact List.mem_append_left _ (List.mem_of_getLast? hx)
  have hl₂ : ∀ x, l₂.head? = some x → x ∈ L (some q) := fun x hx => by
    rw [here]
    exact List.mem_append_right _ (List.mem_cons_of_mem n (List.mem_of_head? hx))
  have hnext : ∀ x, x ∉ L (some q) → (Qnodes.unlink s q n).next x = s.next x := by
    intro x hx
    have hxn : x ≠ n := fun h => hx (h ▸ hn)
    have hx₁ : l₁.getLast? ≠ some x := fun h => hx (hl₁ x h)
    simp only [Qnodes.unlink, QueueState.next, if_neg hxn, hprev_n, if_neg hx₁]
  have hprev : ∀ x, x ∉ L (some q) → (Qnodes.unlink s q n).prev x = s.prev x := by
    intro x hx
    have hxn : x ≠ n := fun h => hx (h ▸ hn)
    have hx₂ : l₂.head? ≠ some x := fun h => hx (hl₂ x h)
    simp only [Qnodes.unlink, QueueState.prev, if_neg hxn, hnext_n, if_neg hx₂]
  constructor
  case doubly =>
    intro p
    by_cases hp : p = q
    · subst hp
      have hers : Doubly (Qnodes.unlink s p n).next (Qnodes.unlink s p n).prev _ _ (l₁ ++ l₂) :=
        hold.erase
        (fun x hx hx' => by
          simp only [Qnodes.unlink, QueueState.next, if_neg (hne x hx), hprev_n, if_neg hx'])
        (fun x hx => by
          have hxn : x ≠ n := hne x (List.mem_append_left _ (List.mem_of_getLast? hx))
          simp only [Qnodes.unlink, QueueState.next, if_neg hxn, hprev_n, if_pos hx])
        (fun x hx hx' => by
          simp only [Qnodes.unlink, QueueState.prev, if_neg (hne x hx), hnext_n, if_neg hx'])
        (fun x hx => by
          have hxn : x ≠ n := hne x (List.mem_append_right _ (List.mem_of_head? hx))
          simp only [Qnodes.unlink, QueueState.prev, if_neg hxn, hnext_n, if_pos hx])
      simpa [Qnodes.unlink, hnext_n, hprev_n] using hers
    · rw [relay_of_ne hp]
      have hout : ∀ x ∈ L (some p), x ∉ L (some q) := fun x hx =>
        wf.not_mem hx fun h => hp (Option.some.inj h).symm
      have hother := (wf.doubly p).congr (fun x hx => hnext x (hout x hx))
        (fun x hx => hprev x (hout x hx))
      simpa [Qnodes.unlink, hp] using hother
  case length =>
    intro p
    by_cases hp : p = q
    · subst hp
      have hlen := wf.length p
      rw [here, List.length_append, List.length_cons] at hlen
      simp only [Qnodes.unlink, Function.update_self, relay_self]
      rw [UInt32.toNat_sub_of_le _ _
        (by rw [UInt32.le_iff_toNat_le, hlen, UInt32.toNat_one]; omega)]
      rw [hlen, UInt32.toNat_one, List.length_append]
      omega
    · simpa [Qnodes.unlink, hp] using wf.length p
  case free =>
    refine ⟨rfl, ?_⟩
    have hfirst : (Qnodes.unlink s q n).next n = s.qnodeAvail := by
      simp [Qnodes.unlink, QueueState.next]
    rw [hfirst]
    exact wf.free.congr fun x hx => hnext x (wf.not_mem hx (Option.some_ne_none q))
  case place =>
    intro x
    by_cases hxn : x = n
    · subst hxn
      refine ⟨none, fun p' => ?_⟩
      rcases p' with _ | p'
      · simp
      · by_cases hp : p' = q
        · subst hp
          simpa using fun h => hne x h rfl
        · simpa [hp] using wf.not_mem hn fun h => hp (Option.some.inj h)
    · obtain ⟨p, hp⟩ := wf.place x
      refine ⟨p, fun p' => ?_⟩
      rw [← hp p']
      rcases p' with _ | p'
      · simp [hxn]
      · by_cases hpq : p' = q
        · simp [hpq, here, hxn]
        · simp [hpq]

end Cumulonimbus.Qnodes
