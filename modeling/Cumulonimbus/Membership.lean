import Mathlib.Algebra.Order.BigOperators.Group.Finset
import Mathlib.Data.Fintype.BigOperators
import Cumulonimbus.Lifecycle
import Cumulonimbus.Interrupts

/-!
# Which queue holds which process

`Placed σ place free` ties the queues of the kernel to an assignment of places:
a process is linked in a queue exactly when its place says so, so it is linked at
most once in all of them.  The queue nodes in use and those in the pool add up to
the number the kernel owns, and since a process or a stack takes up one node at
most, the pool never runs dry (`Placed.qnodes_pos`).

Each queue operation of the kernel has one specification here, with the state it
leaves written out; nothing later unfolds an operation.
-/

namespace Cumulonimbus

open Exec

variable {σ : State} {place : PcbId → Place} {free : StackId → Prop}

/-- The queues hold what the places say, and every node is accounted for. -/
structure Placed (σ : State) (place : PcbId → Place) (free : StackId → Prop) : Prop where
  mem : ∀ X key p, (key, p) ∈ (σ.queues X).items ↔ place p = .queued X key
  nodup : ∀ X, (σ.queues X).members.Nodup
  stack : ∀ s, s ∈ σ.stackAvail.members ↔ free s
  stackNodup : σ.stackAvail.members.Nodup
  pool : σ.qnodes + ∑ X, (σ.queues X).items.length + σ.stackAvail.items.length = nQnodes
  compare : ∀ X, (σ.queues X).compare = (initialQueue X).compare
  remove : ∀ X, (σ.queues X).remove = (initialQueue X).remove

/-- A process that is on no queue. -/
def Loose (place : PcbId → Place) (p : PcbId) : Prop := ∀ X key, place p ≠ .queued X key

/-! ## Counting nodes -/

/-- Replacing one queue moves the sum of the lengths by the difference. -/
theorem sum_length_update (f : QName → Queue PcbId) (X : QName) (q : Queue PcbId) :
    ∑ Y, (Function.update f X q Y).items.length + (f X).items.length =
      ∑ Y, (f Y).items.length + q.items.length := by
  have hf := Finset.sum_erase_add Finset.univ (fun Y => (f Y).items.length) (Finset.mem_univ X)
  have hu := Finset.sum_erase_add Finset.univ
    (fun Y => (Function.update f X q Y).items.length) (Finset.mem_univ X)
  have hrest : ∑ Y ∈ Finset.univ.erase X, (Function.update f X q Y).items.length =
      ∑ Y ∈ Finset.univ.erase X, (f Y).items.length := by
    refine Finset.sum_congr rfl fun Y hY => ?_
    rw [Function.update_of_ne (Finset.ne_of_mem_erase hY)]
  simp only [Function.update_self] at hu
  omega

namespace Placed

/-- Who is in a queue has his place there. -/
theorem mem_members (h : Placed σ place free) (X : QName) (p : PcbId) :
    p ∈ (σ.queues X).members ↔ ∃ key, place p = .queued X key := by
  simp [Queue.members, ← h.mem]

/-- **Single membership.**  No process is linked in two queues. -/
theorem eq_of_mem (h : Placed σ place free) {X Y : QName} {p : PcbId}
    (hX : p ∈ (σ.queues X).members) (hY : p ∈ (σ.queues Y).members) : X = Y := by
  obtain ⟨key, hkey⟩ := (h.mem_members X p).mp hX
  obtain ⟨key', hkey'⟩ := (h.mem_members Y p).mp hY
  exact (Place.queued.inj (hkey.symm.trans hkey')).1

/-- All queues of PCBs together use at most one node for each PCB. -/
theorem sum_length_le (h : Placed σ place free) :
    ∑ X, (σ.queues X).items.length ≤ nPcbs := by
  have hlen : ∀ X, (σ.queues X).items.length = (σ.queues X).members.toFinset.card := by
    intro X
    rw [List.toFinset_card_of_nodup (h.nodup X), Queue.members, List.length_map]
  calc ∑ X, (σ.queues X).items.length
      = ∑ X, (σ.queues X).members.toFinset.card := Finset.sum_congr rfl fun X _ => hlen X
    _ = (Finset.univ.biUnion fun X => (σ.queues X).members.toFinset).card := by
        refine (Finset.card_biUnion fun X _ Y _ hne => ?_).symm
        refine Finset.disjoint_left.mpr ?_
        intro p hX hY
        exact hne (h.eq_of_mem (List.mem_toFinset.mp hX) (List.mem_toFinset.mp hY))
    _ ≤ (Finset.univ : Finset PcbId).card := Finset.card_le_univ _
    _ = nPcbs := by simp

/-- The stacks on the free list use at most one node for each stack. -/
theorem stack_length_le (h : Placed σ place free) :
    σ.stackAvail.items.length ≤ nStacks := by
  have := h.stackNodup.length_le_card
  simpa [Queue.members] using this

/-- **The node pool suffices.** -/
theorem qnodes_pos (h : Placed σ place free) : 0 < σ.qnodes := by
  have hsum := h.sum_length_le
  have hstack := h.stack_length_le
  have hpool := h.pool
  simp only [nQnodes, nPcbs, nStacks] at hsum hstack hpool
  omega

/-- Adding a process to a queue. -/
theorem add (h : Placed σ place free) {X : QName} {p : PcbId} {key : Key} {n : Nat}
    {q : Queue PcbId} (loose : Loose place p) (pool : σ.qnodes = n + 1)
    (items : q.items.Perm ((key, p) :: (σ.queues X).items))
    (cmp : q.compare = (σ.queues X).compare) (rem : q.remove = (σ.queues X).remove) :
    Placed { σ with qnodes := n, queues := Function.update σ.queues X q }
      (Function.update place p (.queued X key)) free where
  mem Y key' p' := by
    by_cases hp : p' = p
    · subst hp
      have hold : ∀ k, (k, p') ∉ (σ.queues Y).items := fun k hk => loose Y k ((h.mem Y k p').mp hk)
      by_cases hY : Y = X
      · subst hY
        simp [items.mem_iff, hold, eq_comm]
      · simp [Function.update_of_ne hY, hold, Ne.symm hY]
    · by_cases hY : Y = X
      · subst hY
        simp [items.mem_iff, hp, h.mem]
      · simp [Function.update_of_ne hY, hp, h.mem]
  nodup Y := by
    by_cases hY : Y = X
    · subst hY
      have hnew : p ∉ (σ.queues Y).members := by
        rw [h.mem_members]
        rintro ⟨k, hk⟩
        exact loose Y k hk
      have hperm : q.members.Perm (p :: (σ.queues Y).members) := items.map Prod.snd
      simpa using hperm.nodup_iff.mpr (List.nodup_cons.mpr ⟨hnew, h.nodup Y⟩)
    · simpa [Function.update_of_ne hY] using h.nodup Y
  stack := h.stack
  stackNodup := h.stackNodup
  pool := by
    have hsum := sum_length_update σ.queues X q
    have hlen := items.length_eq
    have hpool := h.pool
    simp only [List.length_cons] at hlen
    dsimp only
    omega
  compare Y := by
    by_cases hY : Y = X
    · subst hY; simpa [cmp] using h.compare Y
    · simpa [Function.update_of_ne hY] using h.compare Y
  remove Y := by
    by_cases hY : Y = X
    · subst hY; simpa [rem] using h.remove Y
    · simpa [Function.update_of_ne hY] using h.remove Y

/-- Taking a process off a queue. -/
theorem take (h : Placed σ place free) {X : QName} {p : PcbId} {key : Key}
    {q : Queue PcbId} (items : (σ.queues X).items.Perm ((key, p) :: q.items))
    (cmp : q.compare = (σ.queues X).compare) (rem : q.remove = (σ.queues X).remove) :
    place p = .queued X key ∧
      Placed { σ with qnodes := σ.qnodes + 1, queues := Function.update σ.queues X q }
        (Function.update place p .limbo) free := by
  have hplace : place p = .queued X key := by
    rw [← h.mem, items.mem_iff]
    exact List.mem_cons_self
  have hnodup : (p :: q.members).Nodup :=
    (items.map Prod.snd).nodup_iff.mp (h.nodup X)
  refine ⟨hplace, ?_, ?_, h.stack, h.stackNodup, ?_, ?_, ?_⟩
  · intro Y key' p'
    by_cases hp : p' = p
    · subst hp
      by_cases hY : Y = X
      · subst hY
        have hnot : (key', p') ∉ q.items := fun hmem =>
          (List.nodup_cons.mp hnodup).1 (List.mem_map_of_mem (f := Prod.snd) hmem)
        simp [hnot]
      · simp [Function.update_of_ne hY, h.mem, hplace, Ne.symm hY]
    · by_cases hY : Y = X
      · subst hY
        have := h.mem Y key' p'
        rw [items.mem_iff] at this
        simpa [hp] using this
      · simp [Function.update_of_ne hY, hp, h.mem]
  · intro Y
    by_cases hY : Y = X
    · subst hY; simpa using (List.nodup_cons.mp hnodup).2
    · simpa [Function.update_of_ne hY] using h.nodup Y
  · have hsum := sum_length_update σ.queues X q
    have hlen := items.length_eq
    have hpool := h.pool
    simp only [List.length_cons] at hlen
    dsimp only
    omega
  · intro Y
    by_cases hY : Y = X
    · subst hY; simpa [cmp] using h.compare Y
    · simpa [Function.update_of_ne hY] using h.compare Y
  · intro Y
    by_cases hY : Y = X
    · subst hY; simpa [rem] using h.remove Y
    · simpa [Function.update_of_ne hY] using h.remove Y

/-- Only the queues and the pool matter. -/
theorem congr {τ : State} (h : Placed σ place free) (qnodes : τ.qnodes = σ.qnodes)
    (queues : τ.queues = σ.queues) (stackAvail : τ.stackAvail = σ.stackAvail) :
    Placed τ place free where
  mem := by rw [queues]; exact h.mem
  nodup := by rw [queues]; exact h.nodup
  stack := by rw [stackAvail]; exact h.stack
  stackNodup := by rw [stackAvail]; exact h.stackNodup
  pool := by rw [qnodes, queues, stackAvail]; exact h.pool
  compare := by rw [queues]; exact h.compare
  remove := by rw [queues]; exact h.remove

end Placed

/-! ## The queue operations of the kernel -/

variable {X : QName} {p : PcbId} {key : Key} {E : Halt → Prop}

/-- `x` reads nothing but the pool and the queue `X`, and stores nothing else. -/
def OnQueue {γ : Type} (X : QName) (x : Kernel γ) : Prop :=
  ∃ op : Nat → Queue PcbId → γ × Option (Nat × Queue PcbId), ∀ σ : State,
    x σ = .ok ((op σ.qnodes (σ.queues X)).1, match (op σ.qnodes (σ.queues X)).2 with
      | none => σ
      | some (n, q) => { σ with qnodes := n, queues := Function.update σ.queues X q })

/-- The four operations are on one queue each. -/
theorem qAppend_onQueue (X : QName) (p : PcbId) (key : Key) : OnQueue X (qAppend X p key) := by
  refine ⟨fun n q => match q.qAppend n p key with
    | .error stat => (stat, none)
    | .ok r => (.success, some r), fun σ => ?_⟩
  rw [qAppend, get_run]
  dsimp only
  cases (σ.queues X).qAppend σ.qnodes p key <;> rfl

theorem qInsert_onQueue (X : QName) (p : PcbId) (key : Key) : OnQueue X (qInsert X p key) := by
  refine ⟨fun n q => match q.qInsert n p key with
    | .error stat => (stat, none)
    | .ok r => (.success, some r), fun σ => ?_⟩
  rw [qInsert, get_run]
  dsimp only
  cases (σ.queues X).qInsert σ.qnodes p key <;> rfl

theorem qRemove_onQueue (X : QName) : OnQueue X (qRemove X) := by
  refine ⟨fun n q => match q.qRemove n with
    | .error stat => (.error stat, none)
    | .ok (p, r) => (.ok p, some r), fun σ => ?_⟩
  rw [qRemove, get_run]
  dsimp only
  cases (σ.queues X).qRemove σ.qnodes <;> rfl

theorem qRemoveByKey_onQueue (X : QName) (key : Key) : OnQueue X (qRemoveByKey X key) := by
  refine ⟨fun n q => match q.qRemoveByKey n key with
    | .error stat => (.error stat, none)
    | .ok (p, r) => (.ok p, some r), fun σ => ?_⟩
  rw [qRemoveByKey, get_run]
  dsimp only
  cases (σ.queues X).qRemoveByKey σ.qnodes key <;> rfl

/-- An append puts a loose process at the end. -/
theorem qAppend_spec (h : Placed σ place free) (loose : Loose place p) :
    wp (qAppend X p key)
      (fun stat τ => stat = .success ∧
        (∃ n q, τ = { σ with qnodes := n, queues := Function.update σ.queues X q } ∧
          q.items.length = (σ.queues X).items.length + 1) ∧
        Placed τ (Function.update place p (.queued X key)) free) E σ := by
  obtain ⟨q, hq⟩ := Queue.qAppend_eq_ok h.qnodes_pos (σ.queues X) p key
  obtain ⟨pool, items, cmp, rem⟩ := Queue.qAppend_ok hq
  simp only [qAppend, wp_bind, wp_get, hq, wp_set, wp_pure, true_and]
  refine ⟨⟨_, _, rfl, by simp [items]⟩, h.add loose pool ?_ cmp rem⟩
  rw [items]
  exact List.perm_append_singleton _ _

/-- An insertion puts it where its key belongs. -/
theorem qInsert_spec (h : Placed σ place free) (loose : Loose place p) :
    wp (qInsert X p key)
      (fun stat τ => stat = .success ∧
        (∃ n q, τ = { σ with qnodes := n, queues := Function.update σ.queues X q } ∧
          q.items.length = (σ.queues X).items.length + 1) ∧
        Placed τ (Function.update place p (.queued X key)) free) E σ := by
  obtain ⟨q, hq⟩ := Queue.qInsert_eq_ok h.qnodes_pos (σ.queues X) p key
  obtain ⟨pool, items, cmp, rem⟩ := Queue.qInsert_ok hq
  simp only [qInsert, wp_bind, wp_get, hq, wp_set, wp_pure, true_and]
  exact ⟨⟨_, _, rfl, by simp [items.length_eq]⟩, h.add loose pool items cmp rem⟩

/-- A removal takes the first entry, or finds the queue empty. -/
theorem qRemove_spec (h : Placed σ place free) :
    wp (qRemove X)
      (fun r τ => (r = .error .empty ∧ τ = σ ∧ (σ.queues X).qEmpty) ∨
        ∃ p key, r = .ok p ∧ place p = .queued X key ∧
          (∃ n q, τ = { σ with qnodes := n, queues := Function.update σ.queues X q } ∧
            q.items.length + 1 = (σ.queues X).items.length) ∧
          Placed τ (Function.update place p .limbo) free) E σ := by
  rw [qRemove, wp_bind, wp_get]
  split
  · rename_i stat hstat
    cases hitems : (σ.queues X).items with
    | nil =>
      have : stat = .empty := by simpa [Queue.qRemove, hitems] using hstat.symm
      simp [this, Queue.qEmpty, hitems]
    | cons e rest => simp [Queue.qRemove, hitems] at hstat
  · rename_i p n q hq
    obtain ⟨rfl, ⟨key, items⟩, cmp, rem⟩ := Queue.qRemove_ok hq
    obtain ⟨hplace, hplaced⟩ := h.take (List.Perm.of_eq items) cmp rem
    refine Or.inr ⟨p, key, rfl, hplace, ⟨_, _, rfl, by simp [items]⟩, hplaced⟩

/-- A removal by key takes an entry that the removal routine accepts. -/
theorem qRemoveByKey_spec (h : Placed σ place free) :
    wp (qRemoveByKey X key)
      (fun r τ => (∃ stat, r = .error stat ∧ stat ≠ .noQnodes ∧ τ = σ) ∨
        ∃ p k, r = .ok p ∧ place p = .queued X k ∧
          (∀ rem, (initialQueue X).remove = some rem → rem k key) ∧
          (∃ n q, τ = { σ with qnodes := n, queues := Function.update σ.queues X q } ∧
            q.items.length + 1 = (σ.queues X).items.length) ∧
          Placed τ (Function.update place p .limbo) free) E σ := by
  rw [qRemoveByKey, wp_bind, wp_get]
  split
  · rename_i stat hstat
    refine Or.inl ⟨stat, rfl, ?_, rfl⟩
    rintro rfl
    unfold Queue.qRemoveByKey Queue.qRemove at hstat
    split at hstat
    · simp at hstat
    · split at hstat <;> split at hstat <;> simp at hstat
  · rename_i p n q hq
    obtain ⟨rfl, ⟨k, items, hrem⟩, cmp, rem⟩ := Queue.qRemoveByKey_ok hq
    obtain ⟨hplace, hplaced⟩ := h.take items cmp rem
    rw [h.remove] at hrem
    exact Or.inr ⟨p, k, rfl, hplace, hrem, ⟨_, _, rfl, by simp [items.length_eq]⟩, hplaced⟩

/-- A removal by key does not miss a process that is filed where it looks. -/
theorem qRemoveByKey_hits (h : Placed σ place free) {k : Key} (hp : place p = .queued X k)
    {rem : Key → Key → Bool} (hX : (initialQueue X).remove = some rem) (hkey : rem k key) :
    wp (qRemoveByKey X key) (fun r _ => ∃ q, r = .ok q) E σ := by
  obtain ⟨out, hout⟩ :=
    Queue.qRemoveByKey_eq_ok σ.qnodes ((h.remove X).trans hX) ((h.mem X k p).mpr hp) hkey
  rw [qRemoveByKey, wp_bind, wp_get, hout]
  exact ⟨out.1, rfl⟩

/-- A stack comes off the free list, or there is none. -/
theorem stackAlloc_spec (h : Placed σ place free) :
    wp stackAlloc
      (fun r τ => (∃ stat, r = .error stat ∧ τ = σ ∧ ∀ s, ¬ free s) ∨
        ∃ s n q, r = .ok s ∧ free s ∧ τ = { σ with qnodes := n, stackAvail := q } ∧
          Placed τ place (fun t => free t ∧ t ≠ s)) E σ := by
  rw [stackAlloc, wp_bind, wp_get]
  split
  · rename_i stat hstat
    refine Or.inl ⟨stat, rfl, rfl, fun s hs => ?_⟩
    cases hitems : σ.stackAvail.items with
    | nil => simpa [Queue.members, hitems] using (h.stack s).mpr hs
    | cons e rest => simp [Queue.qRemove, hitems] at hstat
  · rename_i s n q hq
    obtain ⟨rfl, ⟨key, items⟩, -, -⟩ := Queue.qRemove_ok hq
    have hmembers : σ.stackAvail.members = s :: q.members := by simp [Queue.members, items]
    have hnodup := h.stackNodup
    rw [hmembers, List.nodup_cons] at hnodup
    have hs : free s := (h.stack s).mp (by simp [hmembers])
    refine Or.inr ⟨s, _, q, rfl, hs, rfl, h.mem, h.nodup, ?_, hnodup.2, ?_, h.compare, h.remove⟩
    · intro t
      rw [← h.stack, hmembers, List.mem_cons]
      by_cases ht : t = s
      · simpa [ht] using hnodup.1
      · simp [ht]
    · have hpool := h.pool
      simp only [items, List.length_cons] at hpool
      dsimp only
      omega

/-- A stack that is not free goes back to the free list, cleared. -/
theorem stackFree_spec (h : Placed σ place free) {s : StackId} (hs : ¬ free s) :
    wp (stackFree (some s))
      (fun stat τ => stat = .success ∧
        (∃ n q m, τ = { σ with qnodes := n, stackAvail := q, stackMem := m } ∧
          ∀ t, t ≠ s → m t = σ.stackMem t) ∧
        Placed τ place (fun t => free t ∨ some s = some t)) E σ := by
  obtain ⟨q, hq⟩ := Queue.qAppend_eq_ok h.qnodes_pos σ.stackAvail s 0
  obtain ⟨pool, items, -, -⟩ := Queue.qAppend_ok hq
  have hmembers : q.members = σ.stackAvail.members ++ [s] := by simp [Queue.members, items]
  have hnot : s ∉ σ.stackAvail.members := fun hmem => hs ((h.stack s).mp hmem)
  simp only [stackFree, wp_bind, wp_modify, wp_get, hq, wp_set, wp_pure, true_and]
  refine ⟨⟨_, _, _, rfl, fun t ht => by simp [ht]⟩,
    h.mem, h.nodup, ?_, ?_, ?_, h.compare, h.remove⟩
  · intro t
    simp [hmembers, h.stack, eq_comm]
  · simpa [hmembers, List.nodup_append] using
      ⟨h.stackNodup, fun a ha has => hnot (has ▸ ha)⟩
  · have hpool := h.pool
    simp only [items, List.length_append, List.length_singleton]
    omega

end Cumulonimbus
