import Cumulonimbus.QueueLinks

/-!
# Queues as ordered lists

What each routine of the queue module does to the nodes, and from that to the lists of
`(key, data)` pairs: appending adds at the end, inserting in ascending order keeps the
list sorted with equal keys in order of arrival, removing takes the first pair that
qualifies, and a call that fails changes nothing.
-/

namespace Cumulonimbus.Qnodes

open Exec Linked

variable {ι α : Type} {s t : QueueState ι α} {L : Option ι → List NodeId} {q : ι} {n : NodeId}
  {rest l₁ l₂ : List NodeId} {data : α} {key : Key} {E : Stop → Prop}

@[simp] theorem deref_some : (deref (some n) : Q ι α NodeId) = pure n := rfl

@[simp] theorem wp_modifyNode {f : Qnode α → Qnode α} {P : Unit → QueueState ι α → Prop} :
    wp (modifyNode n f) P E s ↔
      P () { s with qnodes := Function.update s.qnodes n (f (s.qnodes n)) } := Iff.rfl

variable [DecidableEq ι]

@[simp] theorem wp_modifyQueue {f : Header α → Header α} {P : Unit → QueueState ι α → Prop} :
    wp (modifyQueue q f) P E s ↔
      P () { s with queues := Function.update s.queues q (f (s.queues q)) } := Iff.rfl

/-- Two states that agree on every member. -/
theorem state_eq (q : ι) (nodes : ∀ x, s.qnodes x = t.qnodes x)
    (avail : s.qnodeAvail = t.qnodeAvail) (here : s.queues q = t.queues q)
    (elsewhere : ∀ p, p ≠ q → s.queues p = t.queues p) : s = t := by
  refine QueueState.ext (funext nodes) avail (funext fun p => ?_)
  by_cases hp : p = q
  · rw [hp, here]
  · exact elsewhere p hp

omit [DecidableEq ι] in
/-- The first node of the free list is the one that an allocation takes. -/
theorem Wf.avail_eq (wf : Wf s L) (free : L none = n :: rest) : s.qnodeAvail = some n := by
  rw [wf.free.head_eq, free, List.head?_cons]

omit [DecidableEq ι] in
/-- The first free node is in no queue. -/
theorem Wf.fresh (wf : Wf s L) (free : L none = n :: rest) {x : NodeId} (hx : x ∈ L (some q)) :
    x ≠ n := by
  have hn : n ∈ L none := free ▸ List.mem_cons_self
  exact fun hxn => wf.not_mem hn (Option.some_ne_none q) (hxn ▸ hx)

/-! ## What the routines compute -/

/-- **An append** takes a free node and links it behind the last one. -/
theorem qAppend_spec (wf : Wf s L) (free : L none = n :: rest) :
    wp (qAppend (some q) data key)
      (fun r t => r = .success ∧ t = linkIn s q n (L (some q)).getLast? none key data) E s := by
  have avail := wf.avail_eq free
  have htail := (wf.doubly q).tail_eq
  cases hlast : (L (some q)).getLast? with
  | none =>
    have hempty : (s.queues q).qEmpty = true :=
      wf.qEmpty_iff.mpr (List.getLast?_eq_none_iff.mp hlast)
    rw [hlast] at htail
    simp only [qAppend, qnodeAlloc, hookLast, wp_bind, wp_get, avail, wp_set, wp_pure,
      wp_modifyNode, wp_modifyQueue, hempty, if_true, Function.update_self, htail, true_and]
    refine state_eq q (fun x => ?_) rfl (by simp [linkIn]) fun p hp => by simp [linkIn, hp]
    by_cases hx : x = n <;> simp [linkIn, hx]
  | some m =>
    have hmem : m ∈ L (some q) := List.mem_of_getLast? hlast
    have hempty : (s.queues q).qEmpty = false := by
      rw [Bool.eq_false_iff]
      exact fun he => by simp [wf.qEmpty_iff.mp he] at hmem
    have hmn : m ≠ n := wf.fresh free hmem
    rw [hlast] at htail
    simp only [qAppend, qnodeAlloc, hookLast, hookTail, wp_bind, wp_get, avail, wp_set, wp_pure,
      wp_modifyNode, wp_modifyQueue, hempty, deref_some, Bool.false_eq_true, if_false, htail,
      true_and]
    refine state_eq q (fun x => ?_) rfl (by simp [linkIn]) fun p hp => by simp [linkIn, hp]
    by_cases hx : x = n
    · simp [linkIn, hx, hmn.symm]
    · by_cases hxm : x = m
      · simp [linkIn, hmn, hxm]
      · simp [linkIn, hx, hxm, Ne.symm hxm]

/-- The state in which `_q_insert` has filled in its node. -/
def filled (s : QueueState ι α) (n : NodeId) (key : Key) (data : α) : QueueState ι α where
  qnodes := Function.update s.qnodes n ⟨key, data, none, none⟩
  qnodeAvail := (s.qnodes n).next
  queues := s.queues

/-- Once a node is there, an insertion is what it does with the filled node. -/
theorem wp_qInsert (avail : s.qnodeAvail = some n) {P : Status → QueueState ι α → Prop} :
    wp (qInsert (some q) data key) P E s ↔ wp (insertNode q n) P E (filled s n key data) := by
  simp only [qInsert, qnodeAlloc, wp_bind, wp_get, avail, wp_set, wp_pure, wp_modifyNode]
  rfl

/-- At the end: the old tail gets the node behind it. -/
theorem insertLast_spec {m : NodeId} (key : Key) (data : α) (htail : (s.queues q).tail = some m)
    (hmn : m ≠ n) :
    wp (insertLast q n)
      (fun r t => r = .success ∧ t = linkIn s q n (some m) none key data) E
      (filled s n key data) := by
  simp only [insertLast, hookTail, filled, wp_bind, wp_get, wp_pure, wp_modifyNode,
    wp_modifyQueue, deref_some, htail, true_and]
  refine state_eq q (fun x => ?_) rfl (by simp [linkIn]) fun p hp => by simp [linkIn, hp]
  by_cases hx : x = n
  · simp [linkIn, hx, hmn.symm]
  · by_cases hxm : x = m
    · simp [linkIn, hmn, hxm]
    · simp [linkIn, hx, hxm, Ne.symm hxm]

/-- In front of the node `c`: what was in front of `c` gets the node behind it. -/
theorem insertBefore_spec {c : NodeId} (key : Key) (data : α) (hcn : c ≠ n) (hpn : s.prev c ≠ some n)
    (hpc : s.prev c ≠ some c) :
    wp (insertBefore q n c)
      (fun r t => r = .success ∧ t = linkIn s q n (s.prev c) (some c) key data) E
      (filled s n key data) := by
  have hprev : (Function.update s.qnodes n ⟨key, data, none, some c⟩ c).prev = s.prev c := by
    rw [Function.update_of_ne hcn]
    rfl
  cases hp : s.prev c with
  | none =>
    rw [hp] at hprev
    simp only [insertBefore, hookBefore, filled, wp_bind, wp_get, wp_pure, wp_modifyNode,
      wp_modifyQueue, Function.update_self, Function.update_idem, hprev, true_and]
    refine state_eq q (fun x => ?_) rfl (by simp [linkIn]) fun p hp => by simp [linkIn, hp]
    by_cases hx : x = n
    · simp [linkIn, hx, hcn.symm]
    · by_cases hxc : x = c
      · simp [linkIn, hcn, hxc]
      · simp [linkIn, hx, hxc, Ne.symm hxc]
  | some m =>
    have hmn : m ≠ n := fun h => hpn (by rw [hp, h])
    have hmc : m ≠ c := fun h => hpc (by rw [hp, h])
    rw [hp] at hprev
    simp only [insertBefore, hookBefore, filled, wp_bind, wp_get, wp_pure, wp_modifyNode,
      wp_modifyQueue, Function.update_self, Function.update_idem, hprev, true_and]
    refine state_eq q (fun x => ?_) rfl (by simp [linkIn]) fun p hp => by simp [linkIn, hp]
    by_cases hx : x = n
    · simp [linkIn, hx, hcn.symm, hmn.symm]
    · by_cases hxc : x = c
      · simp [linkIn, hcn, hxc, hmc, hmc.symm]
      · by_cases hxm : x = m
        · simp [linkIn, hxm, hmn, hmc, Ne.symm hmc]
        · simp [linkIn, hx, hxc, hxm, Ne.symm hxc, Ne.symm hxm]

/-- Where `_q_insert` puts a new node: at the end without a comparison routine, and else
behind the nodes that this routine puts at or before it, up to the first one that it
does not. -/
structure InsertsAt (s : QueueState ι α) (q : ι) (key : Key) (data : α) (l₁ l₂ : List NodeId) :
    Prop where
  last : (s.queues q).compare = none → l₂ = []
  passed : ∀ compare, (s.queues q).compare = some compare →
    ∀ x ∈ l₁, compare (s.qnodes x) ⟨key, data, none, none⟩ ≤ 0
  stopped : ∀ compare, (s.queues q).compare = some compare →
    ∀ x, l₂.head? = some x → ¬ compare (s.qnodes x) ⟨key, data, none, none⟩ ≤ 0

/-- **An insertion** takes a free node and links it at the place that the comparison routine finds.
-/
theorem qInsert_spec (wf : Wf s L) (free : L none = n :: rest) :
    wp (qInsert (some q) data key)
      (fun r t => r = .success ∧ ∃ l₁ l₂, L (some q) = l₁ ++ l₂ ∧
        InsertsAt s q key data l₁ l₂ ∧
        t = linkIn s q n l₁.getLast? l₂.head? key data) E s := by
  have avail := wf.avail_eq free
  have htail := (wf.doubly q).tail_eq
  rw [wp_qInsert avail, insertNode, wp_bind, wp_get, wp_ite]
  refine ⟨fun hempty => ?_, fun hsome => ?_⟩
  · have hnil : L (some q) = [] := wf.qEmpty_iff.mp hempty
    have hlen : (s.queues q).length = 0 :=
      UInt32.toNat_inj.mp (by rw [wf.length q, hnil]; rfl)
    simp only [wp_bind, wp_modifyQueue, wp_pure, true_and]
    refine ⟨[], [], hnil, ⟨fun _ => rfl, by simp, by simp⟩, ?_⟩
    refine state_eq q (fun x => ?_) rfl (by simp [filled, linkIn, hlen]) fun p hp => by
      simp [filled, linkIn, hp]
    by_cases hx : x = n <;> simp [filled, linkIn, hx]
  have hne : L (some q) ≠ [] := fun hnil => hsome (wf.qEmpty_iff.mpr hnil)
  obtain ⟨m, hm⟩ := Option.isSome_iff_exists.mp (List.getLast?_isSome.mpr hne)
  have hmn : m ≠ n := wf.fresh free (List.mem_of_getLast? hm)
  have hlast := insertLast_spec (E := E) key data (htail.trans hm) hmn
  cases hcmp : (s.queues q).compare with
  | none =>
    have hq : ((filled s n key data).queues q).compare = none := hcmp
    simp only [hq]
    refine wp_mono hlast ?_ fun _ he => he
    rintro r t ⟨hr, ht⟩
    refine ⟨hr, L (some q), [], by simp, ⟨fun _ => rfl, ?_, by simp⟩, by simpa [hm] using ht⟩
    intro compare hc
    rw [hcmp] at hc
    cases hc
  | some compare =>
    have hq : ((filled s n key data).queues q).compare = some compare := hcmp
    simp only [hq]
    have hagree : ∀ x ∈ L (some q), (filled s n key data).qnodes x = s.qnodes x := fun x hx =>
      Function.update_of_ne (wf.fresh free hx) _ _
    have hnew : (filled s n key data).qnodes n = ⟨key, data, none, none⟩ :=
      Function.update_self ..
    have hpath : Path (fun x => ((filled s n key data).qnodes x).next)
        ((filled s n key data).queues q).head (L (some q)) none :=
      (wf.doubly q).forth.congr fun x hx => by rw [hagree x hx]; rfl
    rw [hpath.scan_eq _ (by simpa using wf.length_le q), hnew]
    cases hfind : (L (some q)).find? fun x =>
        ¬ compare ((filled s n key data).qnodes x) ⟨key, data, none, none⟩ ≤ 0 with
    | none =>
      refine wp_mono hlast ?_ fun _ he => he
      rintro r t ⟨hr, ht⟩
      refine ⟨hr, L (some q), [], by simp, ⟨fun _ => rfl, ?_, by simp⟩, by simpa [hm] using ht⟩
      intro compare' hc x hx
      obtain rfl : compare = compare' := Option.some.inj (hcmp.symm.trans hc)
      have hpass := List.find?_eq_none.mp hfind x hx
      rw [hagree x hx] at hpass
      simpa using hpass
    | some c =>
      obtain ⟨hstop, l₁, l₂, hl, hpass⟩ := List.find?_eq_some_iff_append.mp hfind
      have hc : c ∈ L (some q) := by simp [hl]
      have hdoubly := wf.doubly q
      rw [hl] at hdoubly
      have hnodup := hdoubly.forth.nodup
      have hprev : s.prev c = l₁.getLast? := hdoubly.prev_eq
      have hbefore := insertBefore_spec (q := q) (E := E) key data
        (wf.fresh free hc)
        (fun hpn => by
          rw [hprev] at hpn
          have hmem : n ∈ L (some q) := by
            rw [hl]
            exact List.mem_append_left _ (List.mem_of_getLast? hpn)
          exact wf.fresh free hmem rfl)
        (fun hpc => by
          rw [hprev] at hpc
          exact (List.nodup_middle.mp hnodup).notMem
            (List.mem_append_left _ (List.mem_of_getLast? hpc)))
      refine wp_mono hbefore ?_ fun _ he => he
      rintro r t ⟨hr, ht⟩
      refine ⟨hr, l₁, c :: l₂, hl, ⟨fun h => ?_, ?_, ?_⟩, by simpa [hprev] using ht⟩
      · rw [hcmp] at h
        cases h
      · intro compare' h x hx
        obtain rfl : compare = compare' := Option.some.inj (hcmp.symm.trans h)
        have hxp := hpass x hx
        rw [hagree x (by simp [hl, hx])] at hxp
        simpa using hxp
      · intro compare' h x hx
        obtain rfl : compare = compare' := Option.some.inj (hcmp.symm.trans h)
        obtain rfl : c = x := by simpa using hx
        rw [hagree c hc] at hstop
        simpa using hstop

/-- The state before `_q_remove` and `_q_remove_by_key` free the node. -/
def bypassed (s : QueueState ι α) (q : ι) (n : NodeId) : QueueState ι α where
  qnodes := fun x => { s.qnodes x with
    prev := if s.next n = some x then s.prev n else (s.qnodes x).prev
    next := if s.prev n = some x then s.next n else (s.qnodes x).next }
  qnodeAvail := s.qnodeAvail
  queues := (unlink s q n).queues

/-- A node that is out of its queue goes to the front of the free list. -/
theorem qnodeFree_spec (hnext : s.next n ≠ some n) (hprev : s.prev n ≠ some n) :
    wp (qnodeFree (some n) : Q ι α Status) (fun r t => r = .success ∧ t = unlink s q n) E
      (bypassed s q n) := by
  simp only [qnodeFree, bypassed, wp_bind, wp_get, wp_modifyNode, wp_modify, wp_pure, true_and]
  refine state_eq q (fun x => ?_) rfl rfl fun _ _ => rfl
  by_cases hx : x = n
  · subst hx
    simp [unlink, hnext]
  · simp [unlink, hx]

/-- **A removal** takes the first node. -/
theorem qRemove_spec (wf : Wf s L) (here : L (some q) = n :: l₂) :
    wp (qRemove (some q) true)
      (fun r t => r = (.success, some (s.qnodes n).data) ∧ t = unlink s q n) E s := by
  have hempty : (s.queues q).qEmpty = false := by
    rw [Bool.eq_false_iff]
    exact fun he => by simp [wf.qEmpty_iff.mp he] at here
  have hdoubly := wf.doubly q
  rw [here] at hdoubly
  have hhead : (s.queues q).head = some n := hdoubly.forth.head_eq
  have hnodup := hdoubly.forth.nodup
  have hprev : s.prev n = none := hdoubly.prev_first
  have hnext : s.next n = l₂.head? := hdoubly.next_first
  have hself : s.next n ≠ some n := fun h => by
    rw [hnext] at h
    exact (List.nodup_cons.mp hnodup).1 (List.mem_of_head? h)
  have hdrop : wp (dropHead q (s.next n)) (fun _ t => t = bypassed s q n) E s := by
    cases hm : s.next n with
    | none =>
      simp only [dropHead, wp_bind, wp_modifyQueue]
      refine state_eq q (fun x => ?_) rfl (by simp [bypassed, unlink, hm, hprev]) fun p hp => by
        simp [bypassed, unlink, hp]
      simp [bypassed, hm, hprev]
    | some m =>
      simp only [dropHead, wp_bind, wp_modifyQueue, wp_modifyNode]
      refine state_eq q (fun x => ?_) rfl (by simp [bypassed, unlink, hm, hprev]) fun p hp => by
        simp [bypassed, unlink, hp]
      by_cases hx : x = m
      · simp [bypassed, hm, hprev, hx]
      · simp [bypassed, hm, hprev, hx, Ne.symm hx]
  simp only [qRemove, Bool.not_true, Bool.false_eq_true, if_false, wp_bind, wp_get, hempty, hhead,
    deref_some, wp_pure]
  refine wp_mono hdrop ?_ fun _ he => he
  rintro - t rfl
  refine wp_mono (qnodeFree_spec hself (by simp [hprev])) ?_ fun _ he => he
  rintro r t ⟨rfl, rfl⟩
  exact ⟨rfl, rfl⟩

/-- After the first link of `_q_remove_by_key`. -/
def skipNext (s : QueueState ι α) (q : ι) (n : NodeId) : QueueState ι α where
  qnodes := fun x =>
    { s.qnodes x with next := if s.prev n = some x then s.next n else (s.qnodes x).next }
  qnodeAvail := s.qnodeAvail
  queues := Function.update s.queues q { s.queues q with
    head := if s.prev n = none then s.next n else (s.queues q).head }

/-- After the second one. -/
def skipPrev (s : QueueState ι α) (q : ι) (n : NodeId) : QueueState ι α where
  qnodes := fun x =>
    { s.qnodes x with prev := if s.next n = some x then s.prev n else (s.qnodes x).prev }
  qnodeAvail := s.qnodeAvail
  queues := Function.update s.queues q { s.queues q with
    tail := if s.next n = none then s.prev n else (s.queues q).tail }

/-- What was in front of the node goes on behind it. -/
theorem bypassNext_spec (s : QueueState ι α) :
    wp (bypassNext q (s.qnodes n)) (fun _ t => t = skipNext s q n) E s := by
  cases hp : (s.qnodes n).prev with
  | none =>
    have hp' : s.prev n = none := hp
    simp only [bypassNext, hp, wp_modifyQueue]
    refine state_eq q (fun x => ?_) rfl ?_ fun p hp => by simp [skipNext, hp]
    · simp [skipNext, hp']
    · simp [skipNext, hp', QueueState.next]
  | some k =>
    have hp' : s.prev n = some k := hp
    simp only [bypassNext, hp, wp_modifyNode]
    refine state_eq q (fun x => ?_) rfl (by simp [skipNext, hp']) fun p hp => by simp [skipNext, hp]
    by_cases hx : x = k
    · simp [skipNext, hp', hx, QueueState.next]
    · simp [skipNext, hp', hx, Ne.symm hx]

/-- What was behind the node goes back in front of it. -/
theorem bypassPrev_spec (s : QueueState ι α) :
    wp (bypassPrev q (s.qnodes n)) (fun _ t => t = skipPrev s q n) E s := by
  cases hm : (s.qnodes n).next with
  | none =>
    have hm' : s.next n = none := hm
    simp only [bypassPrev, hm, wp_modifyQueue]
    refine state_eq q (fun x => ?_) rfl ?_ fun p hp => by simp [skipPrev, hp]
    · simp [skipPrev, hm']
    · simp [skipPrev, hm', QueueState.prev]
  | some m =>
    have hm' : s.next n = some m := hm
    simp only [bypassPrev, hm, wp_modifyNode]
    refine state_eq q (fun x => ?_) rfl (by simp [skipPrev, hm']) fun p hp => by simp [skipPrev, hp]
    by_cases hx : x = m
    · simp [skipPrev, hm', hx, QueueState.prev]
    · simp [skipPrev, hm', hx, Ne.symm hx]

/-- **A removal by key** takes the first node that the removal routine accepts. -/
theorem qRemoveByKey_spec (wf : Wf s L) (here : L (some q) = l₁ ++ n :: l₂)
    {remove : Key → Key → Bool} (routine : (s.queues q).remove = some remove)
    (before : ∀ x ∈ l₁, remove (s.qnodes x).key key = false)
    (hit : remove (s.qnodes n).key key = true) :
    wp (qRemoveByKey (some q) true key)
      (fun r t => r = (.success, some (s.qnodes n).data) ∧ t = unlink s q n) E s := by
  have hempty : (s.queues q).qEmpty = false := by
    rw [Bool.eq_false_iff]
    exact fun he => by simp [wf.qEmpty_iff.mp he] at here
  have hdoubly := wf.doubly q
  have hscan := hdoubly.forth.scan_eq (fun x => remove (s.qnodes x).key key)
    (by simpa using wf.length_le q)
  have hfind : (L (some q)).find? (fun x => remove (s.qnodes x).key key) = some n := by
    refine List.find?_eq_some_iff_append.mpr ⟨hit, l₁, l₂, here, fun x hx => ?_⟩
    rw [before x hx]
    rfl
  rw [hfind] at hscan
  rw [here] at hdoubly
  have hnodup := List.nodup_middle.mp hdoubly.forth.nodup
  have hself : s.next n ≠ some n := fun h => by
    rw [hdoubly.next_eq] at h
    exact hnodup.notMem (List.mem_append_right _ (List.mem_of_head? h))
  have hself' : s.prev n ≠ some n := fun h => by
    rw [hdoubly.prev_eq] at h
    exact hnodup.notMem (List.mem_append_left _ (List.mem_of_getLast? h))
  -- the first link leaves the node itself as it was
  have hnode : (skipNext s q n).qnodes n = s.qnodes n := by simp [skipNext, hself']
  have hnext : (skipNext s q n).next n = s.next n := by simp [QueueState.next, hnode]
  have hprev : (skipNext s q n).prev n = s.prev n := by simp [QueueState.prev, hnode]
  simp only [qRemoveByKey, Bool.not_true, Bool.false_eq_true, if_false, wp_bind, wp_get, hempty,
    routine]
  rw [show (fun x => (s.qnodes x).next) = s.next from rfl, hscan]
  simp only [wp_bind, wp_get]
  refine wp_mono (bypassNext_spec s) ?_ fun _ he => he
  rintro - t rfl
  refine wp_mono (bypassPrev_spec (skipNext s q n)) ?_ fun _ he => he
  rintro - t rfl
  rw [wp_modifyQueue]
  have hstate : ({ skipPrev (skipNext s q n) q n with
      queues := Function.update (skipPrev (skipNext s q n) q n).queues q
        { (skipPrev (skipNext s q n) q n).queues q with
          length := ((skipPrev (skipNext s q n) q n).queues q).length - 1 } } : QueueState ι α) =
      bypassed s q n := by
    refine state_eq q (fun x => ?_) rfl ?_ fun p hp => by
      simp [skipPrev, skipNext, bypassed, unlink, hp]
    · simp only [skipPrev, hnext, hprev]
      simp [skipNext, bypassed]
    · simp only [skipPrev, hnext, hprev]
      simp [skipNext, bypassed, unlink]
  have hdata : (bypassed s q n).qnodes n = s.qnodes n := by simp [bypassed, hself, hself']
  rw [hstate]
  refine wp_mono (qnodeFree_spec hself hself') ?_ fun _ he => he
  rintro r t ⟨rfl, rfl⟩
  rw [hdata, if_neg (by decide)]
  exact wp_pure.mpr ⟨rfl, rfl⟩

/-! ## Calls -/

/-- The calls of the queue module, with the arguments a caller passes; `none` is a null
queue, and `data` says whether there is a place for the result. -/
inductive Op (ι α : Type)
  | append (queue : Option ι) (data : α) (key : Key)
  | insert (queue : Option ι) (data : α) (key : Key)
  | remove (queue : Option ι) (data : Bool)
  | removeByKey (queue : Option ι) (data : Bool) (key : Key)

/-- A call returns a status and, from a removal, what it stored for the caller. -/
def Op.call : Op ι α → Q ι α (Status × Option α)
  | .append queue data key => do return (← qAppend queue data key, none)
  | .insert queue data key => do return (← qInsert queue data key, none)
  | .remove queue data => qRemove queue data
  | .removeByKey queue data key => qRemoveByKey queue data key

/-- The call that `_q_append` answers with a panic. -/
def Op.NullAppend : Op ι α → Prop
  | .append queue _ _ => queue = none
  | _ => False

/-- A call with a null pointer that is answered with `E_BAD_PARAM`. -/
def Op.NullPointer : Op ι α → Prop
  | .append _ _ _ => False
  | .insert queue _ _ => queue = none
  | .remove queue data => queue = none ∨ data = false
  | .removeByKey queue data _ => queue = none ∨ data = false

/-- What a successful call does. -/
inductive Change (s : QueueState ι α) (L : Option ι → List NodeId) :
    QueueState ι α → (Option ι → List NodeId) → Prop
  | linkIn {q : ι} {n : NodeId} {rest l₁ l₂ : List NodeId} (free : L none = n :: rest)
      (here : L (some q) = l₁ ++ l₂) (key : Key) (data : α) :
      Change s L (linkIn s q n l₁.getLast? l₂.head? key data) (relay L q rest (l₁ ++ n :: l₂))
  | unlink {q : ι} {n : NodeId} {l₁ l₂ : List NodeId} (here : L (some q) = l₁ ++ n :: l₂) :
      Change s L (unlink s q n) (relay L q (n :: L none) (l₁ ++ l₂))

/-- A node moves between a queue and the free list, and all lists stay well formed. -/
theorem Wf.change (wf : Wf s L) {L' : Option ι → List NodeId} (h : Change s L t L') :
    Wf t L' := by
  cases h with
  | linkIn free here key data => exact wf.linkIn free here key data
  | unlink here => exact wf.unlink here

/-- A call that fails leaves everything as it was. -/
theorem qAppend_full (avail : s.qnodeAvail = none) :
    wp (qAppend (some q) data key) (fun r t => r = .noQnodes ∧ t = s) E s := by
  simp [qAppend, qnodeAlloc, wp_bind, avail]

/-- Without a free node an insertion changes nothing. -/
theorem qInsert_full (avail : s.qnodeAvail = none) :
    wp (qInsert (some q) data key) (fun r t => r = .noQnodes ∧ t = s) E s := by
  simp [qInsert, qnodeAlloc, wp_bind, avail]

/-- A removal from an empty queue changes nothing. -/
theorem qRemove_empty (empty : (s.queues q).qEmpty = true) :
    wp (qRemove (some q) true) (fun r t => r = (.empty, none) ∧ t = s) E s := by
  simp [qRemove, wp_bind, empty]

/-- So does a removal by key. -/
theorem qRemoveByKey_empty (empty : (s.queues q).qEmpty = true) :
    wp (qRemoveByKey (some q) true key) (fun r t => r = (.empty, none) ∧ t = s) E s := by
  simp [qRemoveByKey, wp_bind, empty]

/-- A queue without a removal routine is served from its head. -/
theorem qRemoveByKey_plain (some_ : (s.queues q).qEmpty = false)
    (routine : (s.queues q).remove = none) {P : Status × Option α → QueueState ι α → Prop} :
    wp (qRemoveByKey (some q) true key) P E s ↔ wp (qRemove (some q) true) P E s := by
  simp [qRemoveByKey, wp_bind, some_, routine]

/-- Where no key matches, nothing changes either. -/
theorem qRemoveByKey_notFound (wf : Wf s L) (some_ : (s.queues q).qEmpty = false)
    {remove : Key → Key → Bool} (routine : (s.queues q).remove = some remove)
    (miss : ∀ x ∈ L (some q), remove (s.qnodes x).key key = false) :
    wp (qRemoveByKey (some q) true key) (fun r t => r = (.notFound, none) ∧ t = s) E s := by
  have hscan := (wf.doubly q).forth.scan_eq (fun x => remove (s.qnodes x).key key)
    (by simpa using wf.length_le q)
  rw [List.find?_eq_none.mpr (by simpa using miss)] at hscan
  simp only [qRemoveByKey, Bool.not_true, Bool.false_eq_true, if_false, wp_bind, wp_get, some_,
    routine]
  rw [show (fun x => (s.qnodes x).next) = s.next from rfl, hscan]
  exact wp_pure.mpr ⟨rfl, rfl⟩

/-- What the outcome of a call says about the change it made. -/
def Outcome (s : QueueState ι α) (L : Option ι → List NodeId) (stat : Status)
    (t : QueueState ι α) : Prop :=
  (stat ≠ .success ∧ t = s) ∨ (stat = .success ∧ ∃ L', Change s L t L')

/-- Every outcome of an append is a change of the lists or none. -/
theorem qAppend_outcome (wf : Wf s L) :
    wp (qAppend (some q) data key) (fun r t => Outcome s L r t) E s := by
  cases free : L none with
  | nil =>
    have avail : s.qnodeAvail = none := by rw [wf.free.head_eq, free, List.head?_nil]
    refine wp_mono (qAppend_full avail) ?_ fun _ he => he
    intro r t ⟨hr, ht⟩
    exact Or.inl ⟨by simp [hr], ht⟩
  | cons n rest =>
    refine wp_mono (qAppend_spec wf free) ?_ fun _ he => he
    intro r t ⟨hr, ht⟩
    have hchange := Change.linkIn (s := s) (q := q) free (List.append_nil _).symm key data
    exact Or.inr ⟨hr, _, ht ▸ hchange⟩

/-- The same for an insertion, with or without a comparison routine. -/
theorem qInsert_outcome (wf : Wf s L) :
    wp (qInsert (some q) data key) (fun r t => Outcome s L r t) E s := by
  cases free : L none with
  | nil =>
    have avail : s.qnodeAvail = none := by rw [wf.free.head_eq, free, List.head?_nil]
    refine wp_mono (qInsert_full avail) ?_ fun _ he => he
    intro r t ⟨hr, ht⟩
    exact Or.inl ⟨by simp [hr], ht⟩
  | cons n rest =>
    refine wp_mono (qInsert_spec wf free) ?_ fun _ he => he
    intro r t ⟨hr, l₁, l₂, here, _, ht⟩
    exact Or.inr ⟨hr, _, ht ▸ Change.linkIn free here key data⟩

/-- The same for a removal. -/
theorem qRemove_outcome (wf : Wf s L) :
    wp (qRemove (some q) true) (fun r t => Outcome s L r.1 t) E s := by
  cases here : L (some q) with
  | nil =>
    refine wp_mono (qRemove_empty (wf.qEmpty_iff.mpr here)) ?_ fun _ he => he
    intro r t ⟨hr, ht⟩
    exact Or.inl ⟨by simp [hr], ht⟩
  | cons n l₂ =>
    refine wp_mono (qRemove_spec wf here) ?_ fun _ he => he
    intro r t ⟨hr, ht⟩
    have hchange := Change.unlink (s := s) (show L (some q) = [] ++ n :: l₂ from here)
    exact Or.inr ⟨by rw [hr], _, ht ▸ hchange⟩

omit [DecidableEq ι] in
/-- The first node of a queue that the removal routine accepts, if there is one. -/
theorem split_by_key (L : Option ι → List NodeId) (q : ι) (p : NodeId → Bool) :
    (∀ x ∈ L (some q), p x = false) ∨
      ∃ l₁ n l₂, L (some q) = l₁ ++ n :: l₂ ∧ (∀ x ∈ l₁, p x = false) ∧ p n = true := by
  cases hfind : (L (some q)).find? p with
  | none => exact Or.inl (by simpa using List.find?_eq_none.mp hfind)
  | some n =>
    obtain ⟨hit, l₁, l₂, here, before⟩ := List.find?_eq_some_iff_append.mp hfind
    exact Or.inr ⟨l₁, n, l₂, here, by simpa using before, hit⟩

/-- The same for a removal by key, which may find nothing. -/
theorem qRemoveByKey_outcome (wf : Wf s L) :
    wp (qRemoveByKey (some q) true key) (fun r t => Outcome s L r.1 t) E s := by
  cases hempty : (s.queues q).qEmpty with
  | true =>
    refine wp_mono (qRemoveByKey_empty hempty) ?_ fun _ he => he
    intro r t ⟨hr, ht⟩
    exact Or.inl ⟨by simp [hr], ht⟩
  | false =>
    cases routine : (s.queues q).remove with
    | none => exact (qRemoveByKey_plain hempty routine).mpr (qRemove_outcome wf)
    | some remove =>
      rcases split_by_key L q fun x => remove (s.qnodes x).key key with
        miss | ⟨l₁, n, l₂, here, before, hit⟩
      · refine wp_mono (qRemoveByKey_notFound wf hempty routine miss) ?_ fun _ he => he
        intro r t ⟨hr, ht⟩
        exact Or.inl ⟨by simp [hr], ht⟩
      · refine wp_mono (qRemoveByKey_spec wf here routine before hit) ?_ fun _ he => he
        intro r t ⟨hr, ht⟩
        exact Or.inr ⟨by rw [hr], _, ht ▸ Change.unlink here⟩

/-- **What a call can do.**  It fails and changes nothing, or it moves one node; only
`_q_append` on a null queue does not return. -/
theorem Op.call_spec (wf : Wf s L) (op : Op ι α) :
    wp op.call (fun r t => Outcome s L r.1 t) (fun _ => op.NullAppend) s := by
  have bad : ∀ out : Option α, Outcome s L (Status.badParam, out).1 s := fun _ =>
    Or.inl ⟨by simp, rfl⟩
  cases op with
  | append queue data key =>
    cases queue with
    | none => exact wp_bind.mpr (wp_throw.mpr rfl)
    | some q => exact wp_bind.mpr (qAppend_outcome wf)
  | insert queue data key =>
    cases queue with
    | none => exact wp_bind.mpr (wp_pure.mpr (bad none))
    | some q => exact wp_bind.mpr (qInsert_outcome wf)
  | remove queue data =>
    cases queue with
    | none => exact bad none
    | some q =>
      cases data with
      | false => exact bad none
      | true => exact qRemove_outcome wf
  | removeByKey queue data key =>
    cases queue with
    | none => exact bad none
    | some q =>
      cases data with
      | false => exact bad none
      | true => exact qRemoveByKey_outcome wf

end Cumulonimbus.Qnodes
