import Cumulonimbus.Linked
import Cumulonimbus.Process

/-!
# The nodes behind the queues

`queue.c` as it stands: `queue_t` headers, `qnode_t` nodes with their four members, and
the list of free nodes, which uses the `next` member only.  Pointers to nodes are
indices into `_qnodes`; a null pointer is `none`.  The queues in use are the members of
a type `ι`, and what they hold is generic.

Each operation that puts a node in computes `linkIn`, and each one that takes a node out
computes `unlink`, whichever branch it takes.  These two keep the representation
invariant `Wf`, by the library's rules for doubly linked lists.
-/

namespace Cumulonimbus.Qnodes

open Exec Linked

/-- An index into `_qnodes`. -/
abbrev NodeId := Fin nQnodes

/-- A `qnode_t`. -/
@[ext] structure Qnode (α : Type) where
  key : Key
  data : α
  prev : Option NodeId
  next : Option NodeId

/-- A `queue_t`. -/
@[ext] structure Header (α : Type) where
  compare : Option (Qnode α → Qnode α → Int)
  remove : Option (Key → Key → Bool)
  length : UInt32
  head : Option NodeId
  tail : Option NodeId

variable {ι α : Type}

/-- The pseudo-function `_q_empty`. -/
def Header.qEmpty (h : Header α) : Bool := h.length < 1

/-- The nodes, the free list and the queues. -/
@[ext] structure QueueState (ι α : Type) where
  qnodes : NodeId → Qnode α
  qnodeAvail : Option NodeId
  queues : ι → Header α

/-- Why a call does not return: `_kpanic`, a null pointer that is followed, or a loop
around a cycle of nodes. -/
inductive Stop
  | panic | fault | spin

/-- A routine of the queue module. -/
abbrev Q (ι α β : Type) := Prog (QueueState ι α) Stop β

variable [DecidableEq ι]

def modifyNode (n : NodeId) (f : Qnode α → Qnode α) : Q ι α Unit :=
  modify fun s => { s with qnodes := Function.update s.qnodes n (f (s.qnodes n)) }

def modifyQueue (q : ι) (f : Header α → Header α) : Q ι α Unit :=
  modify fun s => { s with queues := Function.update s.queues q (f (s.queues q)) }

/-- Follow a pointer. -/
def deref : Option NodeId → Q ι α NodeId
  | some n => pure n
  | none => throw .fault

/-! ## The routines -/

/-- Take the first free node. -/
def qnodeAlloc : Q ι α (Except Status NodeId) := do
  let s ← get
  match s.qnodeAvail with
  | none => return .error .noQnodes
  | some n => do
    set { s with qnodeAvail := (s.qnodes n).next }
    return .ok n

/-- Put a node at the front of the free list. -/
def qnodeFree (qnode : Option NodeId) : Q ι α Status :=
  match qnode with
  | none => return .badParam
  | some n => do
    let s ← get
    modifyNode n fun x => { x with next := s.qnodeAvail }
    modify fun s => { s with qnodeAvail := some n }
    return .success

/-- Make the free list of all nodes. -/
def qInit : Q ι α Unit := do
  modify fun s => { s with qnodeAvail := none }
  forM (List.finRange nQnodes) fun i => do
    let s ← get
    modifyNode i fun x => { x with next := s.qnodeAvail }
    modify fun s => { s with qnodeAvail := some i }

def qReset (queue : Option ι) (compare : Option (Qnode α → Qnode α → Int))
    (remove : Option (Key → Key → Bool)) : Q ι α Unit :=
  match queue with
  | none => throw .panic
  | some q => modifyQueue q fun _ => ⟨compare, remove, 0, none, none⟩

/-- The links of `_q_remove` around the first node of a queue. -/
def dropHead (q : ι) (next : Option NodeId) : Q ι α Unit := do
  modifyQueue q fun h => { h with length := h.length - 1, head := next }
  match next with
  | none => modifyQueue q fun h => { h with tail := none }
  | some m => modifyNode m fun x => { x with prev := none }

/-- Remove the first element.  `data` says whether the caller passes a place for it; what
is stored there is returned beside the status. -/
def qRemove (queue : Option ι) (data : Bool) : Q ι α (Status × Option α) :=
  match queue with
  | none => return (.badParam, none)
  | some q =>
    if !data then return (.badParam, none)
    else do
      let s ← get
      if (s.queues q).qEmpty then return (.empty, none)
      else do
        let qnode ← deref (s.queues q).head
        dropHead q (s.qnodes qnode).next
        let stat ← qnodeFree (some qnode)
        return (stat, some (s.qnodes qnode).data)

/-- `qnode->prev->next = qnode->next`, or the same for the head of the queue. -/
def bypassNext (q : ι) (x : Qnode α) : Q ι α Unit :=
  match x.prev with
  | some p => modifyNode p fun y => { y with next := x.next }
  | none => modifyQueue q fun h => { h with head := x.next }

/-- `qnode->next->prev = qnode->prev`, or the same for the tail of the queue. -/
def bypassPrev (q : ι) (x : Qnode α) : Q ι α Unit :=
  match x.next with
  | some m => modifyNode m fun y => { y with prev := x.prev }
  | none => modifyQueue q fun h => { h with tail := x.prev }

/-- Remove the first element whose key the removal routine accepts; without a removal
routine, an ordinary remove. -/
def qRemoveByKey (queue : Option ι) (data : Bool) (key : Key) : Q ι α (Status × Option α) :=
  match queue with
  | none => return (.badParam, none)
  | some q =>
    if !data then return (.badParam, none)
    else do
      let s ← get
      if (s.queues q).qEmpty then return (.empty, none)
      else
        match (s.queues q).remove with
        | none => qRemove (some q) data
        | some remove =>
          match scan (fun n => (s.qnodes n).next) (fun n => remove (s.qnodes n).key key)
              nQnodes (s.queues q).head with
          | none => throw .spin
          | some none => return (.notFound, none)
          | some (some qnode) => do
            bypassNext q (s.qnodes qnode)
            let s ← get
            bypassPrev q (s.qnodes qnode)
            modifyQueue q fun h => { h with length := h.length - 1 }
            let s ← get
            let stat ← qnodeFree (some qnode)
            if stat ≠ .success then throw .panic
            else return (.success, some (s.qnodes qnode).data)

/-- `queue->tail->next = qnode`. -/
def hookTail (q : ι) (qnode : NodeId) : Q ι α Unit := do
  let s ← get
  let t ← deref (s.queues q).tail
  modifyNode t fun x => { x with next := some qnode }

/-- The first link of `_q_append`. -/
def hookLast (q : ι) (qnode : NodeId) : Q ι α Unit := do
  let s ← get
  if (s.queues q).qEmpty then modifyQueue q fun h => { h with head := some qnode }
  else hookTail q qnode

def qAppend (queue : Option ι) (data : α) (key : Key) : Q ι α Status :=
  match queue with
  | none => throw .panic
  | some q => do
    match ← qnodeAlloc with
    | .error stat => return stat
    | .ok qnode =>
      modifyNode qnode fun x => { x with key := key, data := data }
      hookLast q qnode
      let s ← get
      modifyNode qnode fun x => { x with next := none, prev := (s.queues q).tail }
      modifyQueue q fun h => { h with tail := some qnode, length := h.length + 1 }
      return .success

/-- The last element of `_q_insert`, where the queue is not empty. -/
def insertLast (q : ι) (qnode : NodeId) : Q ι α Status := do
  hookTail q qnode
  let s ← get
  modifyNode qnode fun x => { x with prev := (s.queues q).tail }
  modifyQueue q fun h => { h with tail := some qnode, length := h.length + 1 }
  return .success

/-- The links to a new node in front of `curr`. -/
def hookBefore (q : ι) (qnode : NodeId) (prev : Option NodeId) : Q ι α Unit :=
  match prev with
  | none => modifyQueue q fun h => { h with head := some qnode }
  | some p => do
    modifyNode p fun x => { x with next := some qnode }
    modifyNode qnode fun x => { x with prev := some p }

/-- An element of `_q_insert` in front of `curr`. -/
def insertBefore (q : ι) (qnode curr : NodeId) : Q ι α Status := do
  modifyNode qnode fun x => { x with next := some curr }
  let s ← get
  hookBefore q qnode (s.qnodes curr).prev
  modifyNode curr fun x => { x with prev := some qnode }
  modifyQueue q fun h => { h with length := h.length + 1 }
  return .success

/-- The end of `_q_insert`, once the new node is filled in. -/
def insertNode (q : ι) (qnode : NodeId) : Q ι α Status := do
  let s ← get
  if (s.queues q).qEmpty then do
    modifyQueue q fun h => { h with head := some qnode, tail := some qnode, length := 1 }
    return .success
  else
    match (s.queues q).compare with
    | none => insertLast q qnode
    | some compare =>
      match scan (fun n => (s.qnodes n).next)
          (fun n => ¬ compare (s.qnodes n) (s.qnodes qnode) ≤ 0) nQnodes (s.queues q).head with
      | none => throw .spin
      | some none => insertLast q qnode
      | some (some curr) => insertBefore q qnode curr

/-- Insert behind every element that the comparison routine puts at or before the new
one; without a comparison routine, append. -/
def qInsert (queue : Option ι) (data : α) (key : Key) : Q ι α Status :=
  match queue with
  | none => return .badParam
  | some q => do
    match ← qnodeAlloc with
    | .error stat => return stat
    | .ok qnode =>
      modifyNode qnode fun _ => ⟨key, data, none, none⟩
      insertNode q qnode

/-- Ascending order of the unsigned keys. -/
def compareUintAsc (old new : Qnode α) : Int :=
  if old.key < new.key then -1 else if old.key = new.key then 0 else 1

end Cumulonimbus.Qnodes
