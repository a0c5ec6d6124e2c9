import Mathlib.Data.List.Sort
import Mathlib.Data.List.Perm.Basic

/-!
# The kernel's queues

`queue.c` keeps every waiting list of the kernel as a doubly linked list of
nodes drawn from one pool of `N_QNODES`.  Here a queue is the list of its
`(key, data)` pairs from head to tail, together with the comparison and removal
routines it was reset with; the pool is the number of nodes still free.  Each
operation takes the pool and the queue and returns both, or the status with
which the source refuses.
-/

namespace Cumulonimbus

/-- The status codes of `status.h` that the kernel hands out. -/
inductive Status
  | success | undefined | badParam | empty | notFound | notTimeout
  | notImplemented | timeout | insufficientResources | noQnodes | tooManyTries
  deriving DecidableEq, Repr

/-- The number behind a status. -/
def Status.code : Status → UInt32
  | .success => 0
  | .undefined => 0
  | .badParam => 1
  | .empty => 2
  | .notFound => 3
  | .notTimeout => 4
  | .notImplemented => 5
  | .timeout => 6
  | .insufficientResources => 7
  | .noQnodes => 8
  | .tooManyTries => 9

/-- A queue ordering key; every routine of the kernel reads its `u` member. -/
abbrev Key := UInt32

/-- A self-ordering queue: its routines, and its entries from head to tail. -/
structure Queue (α : Type) where
  compare : Option (Key × α → Key × α → Int) := none
  remove : Option (Key → Key → Bool) := none
  items : List (Key × α) := []

variable {α : Type}

/-- Ascending order of the unsigned keys. -/
def compareUintAsc (old new : Key × α) : Int :=
  if old.1 < new.1 then -1 else if old.1 = new.1 then 0 else 1

def removeIfEqual (k1 k2 : Key) : Bool := k1 == k2

def removeIfLeU (k1 k2 : Key) : Bool := decide (k1 ≤ k2)

namespace Queue

/-- The pseudo-function `_q_empty`. -/
def qEmpty (q : Queue α) : Bool := q.items.isEmpty

/-- The data of the queue, from head to tail. -/
def members (q : Queue α) : List α := q.items.map Prod.snd

/-- Add `data` at the tail; the key is stored and otherwise ignored. -/
def qAppend (pool : Nat) (q : Queue α) (data : α) (key : Key) :
    Except Status (Nat × Queue α) :=
  match pool with
  | 0 => .error .noQnodes
  | n + 1 => .ok (n, { q with items := q.items ++ [(key, data)] })

/-- Insert `data` behind every entry that the comparison routine puts at or
before it; without a comparison routine, append. -/
def qInsert (pool : Nat) (q : Queue α) (data : α) (key : Key) :
    Except Status (Nat × Queue α) :=
  match pool with
  | 0 => .error .noQnodes
  | n + 1 =>
    match q.compare with
    | none => .ok (n, { q with items := q.items ++ [(key, data)] })
    | some cmp =>
      .ok (n, { q with
        items := q.items.orderedInsert (fun e x => ¬ cmp x e ≤ 0) (key, data) })

/-- Take the first entry off the queue. -/
def qRemove (pool : Nat) (q : Queue α) : Except Status (α × Nat × Queue α) :=
  match q.items with
  | [] => .error .empty
  | e :: rest => .ok (e.2, pool + 1, { q with items := rest })

/-- Take off the first entry whose key the removal routine accepts; without a
removal routine, an ordinary remove. -/
def qRemoveByKey (pool : Nat) (q : Queue α) (key : Key) :
    Except Status (α × Nat × Queue α) :=
  if q.qEmpty then .error .empty
  else
    match q.remove with
    | none => q.qRemove pool
    | some rem =>
      match q.items.find? (fun e => rem e.1 key) with
      | none => .error .notFound
      | some e =>
        .ok (e.2, pool + 1, { q with items := q.items.eraseP (fun e => rem e.1 key) })

/-! ## What the operations do to the entries

Up to order, an insertion adds one entry and a removal takes one away; the pool
moves by one in the other direction. -/

/-- Splitting a list at the first entry that satisfies `p`. -/
theorem perm_cons_eraseP {β : Type} {p : β → Bool} {l : List β} {e : β}
    (h : l.find? p = some e) : l.Perm (e :: l.eraseP p) := by
  induction l with
  | nil => simp at h
  | cons x xs ih =>
    by_cases hx : p x
    · obtain rfl : x = e := by simpa [hx] using h
      simp [hx]
    · have hxs : xs.find? p = some e := by simpa [hx] using h
      rw [List.eraseP_cons_of_neg (by simpa using hx)]
      exact ((ih hxs).cons x).trans (List.Perm.swap e x _)

/-- What a successful append does. -/
theorem qAppend_ok {pool n : Nat} {q q' : Queue α} {data : α} {key : Key}
    (h : qAppend pool q data key = .ok (n, q')) :
    pool = n + 1 ∧ q'.items = q.items ++ [(key, data)] ∧
      q'.compare = q.compare ∧ q'.remove = q.remove := by
  cases pool with
  | zero => simp [qAppend] at h
  | succ m =>
    simp only [qAppend, Except.ok.injEq, Prod.mk.injEq] at h
    obtain ⟨rfl, rfl⟩ := h
    exact ⟨rfl, rfl, rfl, rfl⟩

/-- What a successful insertion does, up to order. -/
theorem qInsert_ok {pool n : Nat} {q q' : Queue α} {data : α} {key : Key}
    (h : qInsert pool q data key = .ok (n, q')) :
    pool = n + 1 ∧ q'.items.Perm ((key, data) :: q.items) ∧
      q'.compare = q.compare ∧ q'.remove = q.remove := by
  cases pool with
  | zero => simp [qInsert] at h
  | succ m =>
    cases hc : q.compare with
    | none =>
      simp only [qInsert, hc, Except.ok.injEq, Prod.mk.injEq] at h
      obtain ⟨rfl, rfl⟩ := h
      exact ⟨rfl, List.perm_append_singleton _ _, rfl, rfl⟩
    | some cmp =>
      simp only [qInsert, hc, Except.ok.injEq, Prod.mk.injEq] at h
      obtain ⟨rfl, rfl⟩ := h
      exact ⟨rfl, List.perm_orderedInsert _ _ _, rfl, rfl⟩

/-- What a successful removal does. -/
theorem qRemove_ok {pool n : Nat} {q q' : Queue α} {data : α}
    (h : qRemove pool q = .ok (data, n, q')) :
    n = pool + 1 ∧ (∃ key, q.items = (key, data) :: q'.items) ∧
      q'.compare = q.compare ∧ q'.remove = q.remove := by
  unfold qRemove at h
  split at h
  · simp at h
  · rename_i e rest hitems
    simp only [Except.ok.injEq, Prod.mk.injEq] at h
    obtain ⟨rfl, rfl, rfl⟩ := h
    exact ⟨rfl, ⟨e.1, hitems⟩, rfl, rfl⟩

/-- What a successful removal by key does, up to order. -/
theorem qRemoveByKey_ok {pool n : Nat} {q q' : Queue α} {data : α} {key : Key}
    (h : qRemoveByKey pool q key = .ok (data, n, q')) :
    n = pool + 1 ∧
      (∃ k, q.items.Perm ((k, data) :: q'.items) ∧ ∀ rem, q.remove = some rem → rem k key) ∧
      q'.compare = q.compare ∧ q'.remove = q.remove := by
  unfold qRemoveByKey at h
  split at h
  · simp at h
  · split at h
    · rename_i hnone
      obtain ⟨hn, ⟨k, hk⟩, hcmp, hrem⟩ := qRemove_ok h
      refine ⟨hn, ⟨k, by rw [hk], ?_⟩, hcmp, hrem⟩
      intro rem hsome
      rw [hnone] at hsome
      cases hsome
    · rename_i rem hsome
      split at h
      · simp at h
      · rename_i e hfind
        simp only [Except.ok.injEq, Prod.mk.injEq] at h
        obtain ⟨rfl, rfl, rfl⟩ := h
        refine ⟨rfl, ⟨e.1, perm_cons_eraseP hfind, ?_⟩, rfl, rfl⟩
        intro rem' hrem'
        obtain rfl : rem = rem' := by rw [hsome] at hrem'; exact Option.some.inj hrem'
        exact (List.find?_eq_some_iff_append.mp hfind).1

/-- A removal by key takes the first entry that the removal routine accepts. -/
theorem qRemoveByKey_find {pool n : Nat} {q q' : Queue α} {rem : Key → Key → Bool} {data : α}
    {key : Key} (h : qRemoveByKey pool q key = .ok (data, n, q')) (hrem : q.remove = some rem) :
    (q.items.find? fun e => rem e.1 key).map Prod.snd = some data := by
  unfold qRemoveByKey at h
  split at h
  · cases h
  rw [hrem] at h
  dsimp only at h
  split at h
  · cases h
  · rename_i e hfind
    cases h
    rw [hfind]
    rfl

/-- A removal by key keeps the order of the others. -/
theorem qRemoveByKey_sublist {pool n : Nat} {q q' : Queue α} {data : α} {key : Key}
    (h : qRemoveByKey pool q key = .ok (data, n, q')) : q'.items.Sublist q.items := by
  unfold qRemoveByKey at h
  split at h
  · cases h
  split at h
  · obtain ⟨-, ⟨k, hk⟩, -⟩ := qRemove_ok h
    rw [hk]
    exact List.sublist_cons_self _ _
  · split at h
    · cases h
    · cases h
      exact List.eraseP_sublist

/-- A removal by key finds its target if there is one. -/
theorem qRemoveByKey_eq_ok (pool : Nat) {q : Queue α} {rem : Key → Key → Bool} {key : Key}
    {e : Key × α} (hrem : q.remove = some rem) (he : e ∈ q.items) (hkey : rem e.1 key) :
    ∃ out, qRemoveByKey pool q key = .ok out := by
  have hne : ¬ q.qEmpty := by
    intro hempty
    rw [qEmpty, List.isEmpty_iff] at hempty
    rw [hempty] at he
    cases he
  unfold qRemoveByKey
  rw [if_neg hne, hrem]
  dsimp only
  split
  · rename_i hnone
    exact absurd hkey (List.find?_eq_none.mp hnone e he)
  · exact ⟨_, rfl⟩

/-- The pool is the only reason for an insertion to fail. -/
theorem qAppend_eq_ok {pool : Nat} (hpool : 0 < pool) (q : Queue α) (data : α) (key : Key) :
    ∃ q', qAppend pool q data key = .ok (pool - 1, q') := by
  obtain ⟨n, rfl⟩ : ∃ n, pool = n + 1 := ⟨pool - 1, by omega⟩
  exact ⟨_, rfl⟩

/-- With a node in the pool an insertion succeeds. -/
theorem qInsert_eq_ok {pool : Nat} (hpool : 0 < pool) (q : Queue α) (data : α) (key : Key) :
    ∃ q', qInsert pool q data key = .ok (pool - 1, q') := by
  obtain ⟨n, rfl⟩ : ∃ n, pool = n + 1 := ⟨pool - 1, by omega⟩
  unfold qInsert
  cases q.compare with
  | none => exact ⟨_, rfl⟩
  | some cmp => exact ⟨_, rfl⟩

end Queue

end Cumulonimbus
