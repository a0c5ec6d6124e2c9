import Cumulonimbus.Linked
import Cumulonimbus.Screen

/-!
# The lists of screens

Every node is in one of two linked lists, and a screen that is in the list of unused screens has
no owner.  Opening a screen moves the first unused node to the end of the other list, and
closing one moves it back; both keep the lists in shape whatever handles they are given.
-/

namespace Cumulonimbus.Screens

open Exec Linked

def System.next (s : System) (n : ScreenId) : Option ScreenId := (s.nodes n).next

/-- The nodes of a queue, from the first to the last. -/
structure System.Holds (s : System) (q : QName) (l : List ScreenId) : Prop where
  path : Path s.next (s.queues q).first l none
  last : (s.queues q).last = l.getLast?
  length : (s.queues q).length.toNat = l.length

/-- `t` differs from `s` in nodes and queues only. -/
def Frame (s t : System) : Prop := { t with nodes := s.nodes, queues := s.queues } = s

/-- `t` is `s` with the queue `q` relinked, whose nodes are among `l`. -/
structure Relinks (s t : System) (q : QName) (l : List ScreenId) : Prop where
  rest : Frame s t
  node : ∀ n ∉ l, t.nodes n = s.nodes n
  handle : ∀ n, (t.nodes n).handle = (s.nodes n).handle
  queue : ∀ q' ≠ q, t.queues q' = s.queues q'

variable {s t u : System} {q q' : QName} {l l' l₁ l₂ : List ScreenId} {n : ScreenId}

/-- Two steps that change nodes and queues only. -/
theorem Frame.trans (h : Frame s t) (h' : Frame t u) : Frame s u := by
  have hu : { u with nodes := s.nodes, queues := s.queues } =
      { t with nodes := s.nodes, queues := s.queues } := by
    rw [← h']
  rw [Frame, hu, h]

/-- The screens are outside of nodes and queues. -/
theorem Frame.screens (h : Frame s t) : t.screens = s.screens := by
  rw [Frame] at h
  have hscreens := congrArg System.screens h
  exact hscreens

/-- So is the active screen. -/
theorem Frame.activeScreen (h : Frame s t) : t.activeScreen = s.activeScreen := by
  rw [Frame] at h
  have hactive := congrArg System.activeScreen h
  exact hactive

/-- So are the screens that processes have chosen. -/
theorem Frame.pcbScreen (h : Frame s t) : t.pcbScreen = s.pcbScreen := by
  rw [Frame] at h
  have hpcbs := congrArg System.pcbScreen h
  exact hpcbs

/-- Storing a screen on both sides. -/
theorem Frame.setScreen (h : Frame s t) (n : ScreenId) (scr : Screen) :
    Frame (s.setScreen n scr) (t.setScreen n scr) := by
  have hscreens := h.screens
  rw [Frame] at h
  have hset := congrArg (fun r : System => r.setScreen n scr) h
  rw [Frame, ← hset]
  rfl

/-- Relinking nothing. -/
theorem Relinks.refl (s : System) (q : QName) (l : List ScreenId) : Relinks s s q l :=
  ⟨rfl, fun _ _ => rfl, fun _ => rfl, fun _ _ => rfl⟩

/-- The other queue keeps its nodes. -/
theorem Relinks.holds (h : Relinks s t q l) (hl : s.Holds q' l') (hq : q' ≠ q)
    (disjoint : ∀ n ∈ l', n ∉ l) : t.Holds q' l' := by
  refine ⟨?_, ?_, ?_⟩
  · rw [h.queue q' hq]
    exact hl.path.congr fun x hx => congrArg QNode.next (h.node x (disjoint x hx))
  · rw [h.queue q' hq]
    exact hl.last
  · rw [h.queue q' hq]
    exact hl.length

/-- A queue has at most one node for each screen, since none is in it twice. -/
theorem System.Holds.length_le (h : s.Holds q l) : l.length ≤ numScreens := by
  simpa using h.path.length_le

/-- The counter of a queue is zero exactly when its list is empty. -/
theorem System.Holds.length_eq_zero (h : s.Holds q l) : (s.queues q).length = 0 ↔ l = [] := by
  rw [← UInt32.toNat_inj, h.length, UInt32.toNat_zero, List.length_eq_zero_iff]

/-- Counting one node less, where there is one. -/
theorem System.Holds.length_pred (h : s.Holds q l) (hl : l ≠ []) :
    ((s.queues q).length - 1).toNat = l.length - 1 := by
  have hpos := List.length_pos_iff.mpr hl
  have hlen := h.length
  rw [UInt32.toNat_sub_of_le _ _ (UInt32.le_iff_toNat_le.mpr (by rw [hlen]; exact hpos)), hlen]
  rfl

/-- Counting one node more. -/
theorem System.Holds.length_succ (h : s.Holds q l) :
    ((s.queues q).length + 1).toNat = l.length + 1 := by
  have hle : l.length ≤ 16 := h.length_le
  rw [UInt32.toNat_add, h.length]
  exact Nat.mod_eq_of_lt (by simp only [UInt32.toNat_one]; omega)

@[simp] theorem setScreen_self (s : System) (n : ScreenId) (scr : Screen) :
    (s.setScreen n scr).screens n = scr := Function.update_self ..

/-- The other screens stay. -/
theorem setScreen_of_ne (s : System) {n m : ScreenId} (h : m ≠ n) (scr : Screen) :
    (s.setScreen n scr).screens m = s.screens m := Function.update_of_ne h ..

@[simp] theorem setQueue_self (s : System) (q : QName) (l : ScreenQueue) :
    (s.setQueue q l).queues q = l := Function.update_self ..

/-- The other queue stays. -/
theorem setQueue_of_ne (s : System) {q q' : QName} (h : q' ≠ q) (l : ScreenQueue) :
    (s.setQueue q l).queues q' = s.queues q' := Function.update_of_ne h ..

@[simp] theorem setQueue_next (s : System) (q : QName) (l : ScreenQueue) :
    (s.setQueue q l).next = s.next := rfl

@[simp] theorem setNext_queues (s : System) (m : ScreenId) (next : Option ScreenId) :
    (s.setNext m next).queues = s.queues := rfl

/-- One link is stored. -/
theorem setNext_next (s : System) (m x : ScreenId) (next : Option ScreenId) :
    (s.setNext m next).next x = if x = m then next else s.next x := by
  rw [System.next, System.setNext]
  dsimp only
  by_cases hx : x = m
  · rw [hx, Function.update_self, if_pos rfl]
  · rw [Function.update_of_ne hx, if_neg hx]
    rfl

/-- A new header of `q`. -/
theorem Relinks.setQueue (s : System) (q : QName) (k : ScreenQueue) (l : List ScreenId) :
    Relinks s (s.setQueue q k) q l :=
  ⟨rfl, fun _ _ => rfl, fun _ => rfl, fun _ hq => setQueue_of_ne s hq k⟩

/-- A new link of a node among `l`. -/
theorem Relinks.setNext (s : System) (q : QName) (hn : n ∈ l) (next : Option ScreenId) :
    Relinks s (s.setNext n next) q l := by
  refine ⟨rfl, fun x hx => ?_, fun x => ?_, fun _ _ => rfl⟩
  · exact Function.update_of_ne (fun heq : x = n => hx (heq ▸ hn)) ..
  · rw [System.setNext]
    dsimp only
    rw [Function.update_apply]
    split
    · rename_i heq
      rw [heq]
    · rfl

/-- Relinking twice. -/
theorem Relinks.trans (h : Relinks s t q l) (h' : Relinks t u q l) : Relinks s u q l :=
  ⟨h.rest.trans h'.rest, fun x hx => (h'.node x hx).trans (h.node x hx),
    fun x => (h'.handle x).trans (h.handle x),
    fun x hx => (h'.queue x hx).trans (h.queue x hx)⟩

/-! ## The operations on one list -/

/-- **Taking the first node** of a queue, or finding it empty. -/
theorem dequeue_spec {E : Fault → Prop} (h : s.Holds q l) :
    wp (dequeue q)
      (fun r t => r = l.head? ∧ t.Holds q l.tail ∧ Relinks s t q [] ∧ (l = [] → t = s)) E s := by
  rw [dequeue, wp_bind, wp_get]
  dsimp only
  cases l with
  | nil =>
    rw [if_pos (h.length_eq_zero.mpr rfl)]
    exact ⟨rfl, h, .refl s q [], fun _ => rfl⟩
  | cons n l =>
    rw [if_neg fun hzero => List.cons_ne_nil n l (h.length_eq_zero.mp hzero), h.path.1]
    dsimp only
    rw [wp_bind, wp_set, wp_pure]
    refine ⟨rfl, ⟨?_, ?_, ?_⟩, .setQueue s q _ [], fun hnil => absurd hnil (List.cons_ne_nil n l)⟩
    · rw [setQueue_self]
      exact h.path.2
    · rw [setQueue_self, h.last, List.tail_cons]
      dsimp only
      cases l with
      | nil => exact if_pos rfl
      | cons m l =>
        rw [List.getLast?_cons_cons]
        refine if_neg fun heq => ?_
        -- the first node is not visited again
        exact (List.nodup_cons.mp h.path.nodup).1 (List.mem_of_getLast? heq.symm)
    · rw [setQueue_self]
      exact h.length_pred (List.cons_ne_nil n l)

/-- **Adding a node** at the end of a queue that it is not in. -/
theorem enqueue_spec {E : Fault → Prop} (h : s.Holds q l) (hn : n ∉ l) :
    wp (enqueue q n) (fun _ t => t.Holds q (l ++ [n]) ∧ Relinks s t q (n :: l)) E s := by
  rw [enqueue, wp_bind, wp_get]
  dsimp only
  by_cases hl : l = []
  · subst hl
    rw [if_neg (not_not.mpr (h.length_eq_zero.mpr rfl)), wp_set]
    refine ⟨⟨?_, ?_, ?_⟩, (Relinks.setNext s q List.mem_cons_self _).trans (.setQueue _ q _ _)⟩
    · rw [setQueue_self, setQueue_next]
      exact ⟨rfl, by rw [setNext_next, if_pos rfl]; rfl⟩
    · rw [setQueue_self]
      rfl
    · rw [setQueue_self]
      exact h.length_succ
  · rw [if_pos fun hzero => hl (h.length_eq_zero.mp hzero), h.last]
    obtain ⟨last, hlast⟩ := Option.ne_none_iff_exists'.mp
      (fun hnone => hl (List.getLast?_eq_none_iff.mp hnone) : l.getLast? ≠ none)
    rw [hlast]
    dsimp only
    have hmem : last ∈ l := List.mem_of_getLast? hlast
    have hne : n ≠ last := fun heq => hn (heq ▸ hmem)
    rw [wp_set]
    refine ⟨⟨?_, ?_, ?_⟩, ((Relinks.setNext s q List.mem_cons_self _).trans
      (.setNext _ q (List.mem_cons_of_mem n hmem) _)).trans (.setQueue _ q _ _)⟩
    · rw [setQueue_self, setQueue_next]
      have hpath : Path s.next (s.queues q).first (l ++ []) none := by
        rw [List.append_nil]
        exact h.path
      have hins : Path ((s.setNext n none).setNext last (some n)).next
          (if l = [] then some n else (s.queues q).first) (l ++ n :: []) none :=
        hpath.insert (fun x hx hx' => ?_) (fun x hx => ?_) ?_
      · rwa [if_neg hl] at hins
      · rw [List.append_nil] at hx
        rw [setNext_next, if_neg fun heq : x = last => hx' (heq ▸ hlast), setNext_next,
          if_neg fun heq : x = n => hn (heq ▸ hx)]
      · obtain rfl := Option.some.inj (hlast.symm.trans hx)
        rw [setNext_next, if_pos rfl]
      · rw [setNext_next, if_neg hne, setNext_next, if_pos rfl]
        rfl
    · rw [setQueue_self, List.getLast?_concat]
    · rw [setQueue_self, List.length_append]
      exact h.length_succ

/-- The search stops at the node with the handle, and has the node before it. -/
theorem findNode_spec (handle : ∀ x, (s.nodes x).handle = x) {a : Option ScreenId}
    (h : Path s.next a (l₁ ++ n :: l₂) none) (hn : n ∉ l₁) (prev : Option ScreenId) (fuel : Nat)
    (hfuel : l₁.length < fuel) :
    findNode s.nodes n fuel prev a = some (if l₁ = [] then prev else l₁.getLast?, some n) := by
  induction l₁ generalizing a prev fuel with
  | nil =>
    obtain ⟨fuel, rfl⟩ : ∃ k, fuel = k + 1 := ⟨fuel - 1, by omega⟩
    rw [h.1, findNode, if_pos (handle n), if_pos rfl]
  | cons m l₁ ih =>
    obtain ⟨fuel, rfl⟩ : ∃ k, fuel = k + 1 := ⟨fuel - 1, by omega⟩
    rw [h.1, findNode, if_neg]
    · rw [List.length_cons] at hfuel
      refine (ih h.2 (fun hmem => hn (List.mem_cons_of_mem m hmem)) (some m) fuel
        (by omega)).trans ?_
      rw [if_neg (List.cons_ne_nil m l₁)]
      cases l₁ with
      | nil => rfl
      | cons k l₁ => rw [if_neg (List.cons_ne_nil k l₁), List.getLast?_cons_cons]
    · rw [handle m]
      exact fun heq => hn (heq ▸ List.mem_cons_self)

/-- **Taking a node** from wherever it is; the search goes by its handle. -/
theorem removeNode_spec {E : Fault → Prop} (handle : ∀ x, (s.nodes x).handle = x)
    (h : s.Holds q (l₁ ++ n :: l₂)) :
    wp (removeNode q n)
      (fun r t => r = some n ∧ t.Holds q (l₁ ++ l₂) ∧ Relinks s t q (l₁ ++ n :: l₂)) E s := by
  have hnodup := h.path.nodup
  have hn : n ∉ l₁ := by
    intro hmem
    exact (List.nodup_append.mp hnodup).2.2 n hmem n List.mem_cons_self rfl
  have hnext : s.next n = l₂.head? := by
    obtain ⟨b, -, -, hb⟩ := path_append.mp h.path
    exact hb.head_eq
  have hlength : ((s.queues q).length - 1).toNat = (l₁ ++ l₂).length := by
    rw [h.length_pred (by simp)]
    simp
  have hle := h.length_le
  have hfind := findNode_spec handle h.path hn none numScreens
    (by simp only [List.length_append, List.length_cons] at hle; omega)
  -- a last node is the new last one only if nothing follows it
  have hlast : (l₁ ++ l₂).getLast? =
      if s.next n = none then l₁.getLast? else (s.queues q).last := by
    rw [h.last, hnext]
    cases l₂ with
    | nil => simp
    | cons m l₂ => simp [List.getLast?_append]
  rw [removeNode, wp_bind, wp_get]
  dsimp only
  rw [hfind]
  by_cases hl₁ : l₁ = []
  · subst hl₁
    rw [if_pos rfl]
    dsimp only
    rw [wp_bind, wp_set, wp_pure]
    refine ⟨rfl, ⟨?_, ?_, ?_⟩, .setQueue s q _ _⟩
    · rw [setQueue_self, setQueue_next]
      exact h.path.2
    · rw [setQueue_self, hlast]
      rfl
    · rw [setQueue_self]
      exact hlength
  · obtain ⟨prev, hprev⟩ := Option.ne_none_iff_exists'.mp
      (fun hnone => hl₁ (List.getLast?_eq_none_iff.mp hnone) : l₁.getLast? ≠ none)
    rw [if_neg hl₁, hprev]
    dsimp only
    rw [wp_bind, wp_set, wp_pure]
    have hmem : prev ∈ l₁ ++ n :: l₂ := List.mem_append_left _ (List.mem_of_getLast? hprev)
    refine ⟨rfl, ⟨?_, ?_, ?_⟩, (Relinks.setNext s q hmem _).trans (.setQueue _ q _ _)⟩
    · rw [setQueue_self, setQueue_next]
      have herase : Path (s.setNext prev (s.nodes n).next).next
          (if l₁ = [] then s.next n else (s.queues q).first) (l₁ ++ l₂) none :=
        h.path.erase (fun x _ hx' => ?_) (fun x hx => ?_)
      · rwa [if_neg hl₁] at herase
      · rw [setNext_next, if_neg fun heq : x = prev => hx' (heq ▸ hprev)]
      · obtain rfl := Option.some.inj (hprev.symm.trans hx)
        rw [setNext_next, if_pos rfl]
        rfl
    · rw [setQueue_self, hlast, hprev]
      rfl
    · rw [setQueue_self]
      exact hlength

/-! ## Opening and closing -/

/-- Every node is in one list, node `n` has handle `n`, and unused screens have no owner. -/
structure System.Consistent (s : System) (U A : List ScreenId) : Prop where
  unused : s.Holds .unused U
  active : s.Holds .active A
  disjoint : ∀ n ∈ U, n ∉ A
  cover : ∀ n, n ∈ U ∨ n ∈ A
  handle : ∀ n, (s.nodes n).handle = n
  unowned : ∀ n ∈ U, (s.screens n).owner.id = 0

/-- The screen that the status code `E_EMPTY` names if it is taken for a handle. -/
def emptyHandle : ScreenId := ⟨Status.empty.code.toNat, by decide⟩

variable {U A : List ScreenId} {L : Layout} {E : Fault → Prop}

/-- The lists stay consistent while the unused screens have no owner. -/
theorem System.Consistent.of_screens (c : s.Consistent U A) (screens : ScreenId → Screen)
    (h : ∀ n ∈ U, (screens n).owner.id = 0) :
    System.Consistent { s with screens := screens } U A where
  unused := ⟨c.unused.path, c.unused.last, c.unused.length⟩
  active := ⟨c.active.path, c.active.last, c.active.length⟩
  disjoint := c.disjoint
  cover := c.cover
  handle := c.handle
  unowned := h

/-- **Opening**, as far as the lists are concerned: the first unused screen becomes the last active
one, or there is none and the answer is a status code. -/
theorem screenDequeue_spec (c : s.Consistent U A) :
    wp screenDequeue
      (fun r t => (U = [] ∧ r = Int32.ofNat emptyHandle.val ∧ t = s) ∨
        ∃ n U', U = n :: U' ∧ r = Int32.ofNat n.val ∧ t.Consistent U' (A ++ [n]) ∧
          Frame (s.setScreen n .clear) t) E s := by
  rw [screenDequeue]
  refine wp_seq (dequeue_spec c.unused) ?_
  intro r s₁ hpost
  obtain ⟨rfl, hunused, hlinks, hsame⟩ := hpost
  cases U with
  | nil => exact Or.inl ⟨rfl, rfl, hsame rfl⟩
  | cons n U' =>
    have hnodup := List.nodup_cons.mp c.unused.path.nodup
    have hactive : s₁.Holds .active A := hlinks.holds c.active (by decide) (by simp)
    have hn : n ∉ A := c.disjoint n List.mem_cons_self
    dsimp only [List.head?_cons]
    refine wp_seq (enqueue_spec hactive hn) ?_
    intro _ s₂ hpost
    obtain ⟨hactive₂, hlinks₂⟩ := hpost
    have hunused₂ : s₂.Holds .unused U' := by
      refine hlinks₂.holds hunused (by decide) fun x hx hmem => ?_
      rcases List.mem_cons.mp hmem with rfl | hmem
      · exact hnodup.1 hx
      · exact c.disjoint x (List.mem_cons_of_mem n hx) hmem
    have hframe : Frame s s₂ := hlinks.rest.trans hlinks₂.rest
    have hhandle : ∀ x, (s₂.nodes x).handle = x := fun x =>
      (hlinks₂.handle x).trans ((hlinks.handle x).trans (c.handle x))
    rw [wp_bind, wp_modify, hhandle n, wp_bind, wp_get, wp_pure]
    refine Or.inr ⟨n, U', rfl, ?_, ?_, hframe.setScreen n .clear⟩
    · exact congrArg (fun m : ScreenId => Int32.ofNat m.val) (hhandle n)
    · refine System.Consistent.of_screens (s := s₂) ⟨hunused₂, hactive₂, ?_, ?_, hhandle, ?_⟩ _ ?_
      · intro x hx hmem
        rcases List.mem_append.mp hmem with hmem | hmem
        · exact c.disjoint x (List.mem_cons_of_mem n hx) hmem
        · exact hnodup.1 (List.mem_singleton.mp hmem ▸ hx)
      · intro x
        rcases c.cover x with hx | hx
        · rcases List.mem_cons.mp hx with rfl | hx
          · exact Or.inr (by simp)
          · exact Or.inl hx
        · exact Or.inr (List.mem_append_left _ hx)
      · intro x hx
        rw [hframe.screens]
        exact c.unowned x (List.mem_cons_of_mem n hx)
      · intro x hx
        rw [Function.update_of_ne (fun heq : x = n => hnodup.1 (heq ▸ hx)), hframe.screens]
        exact c.unowned x (List.mem_cons_of_mem n hx)

/-- A handle, as a call passes it, names its screen. -/
theorem screenOf_ofNat : ∀ n : ScreenId, screenOf (Int32.ofNat n.val) = some n := by decide

/-- The same handle as the unsigned number that is returned. -/
theorem toUInt32_ofNat : ∀ n : ScreenId, (Int32.ofNat n.val).toUInt32 = UInt32.ofNat n.val := by
  decide

/-- The call takes the first unused screen; when there is none, it takes the status code for a
screen. -/
theorem sysOpenscreen_spec (c : s.Consistent U A) (pid : Pid) :
    wp (sysOpenscreen L pid)
      (fun r t => (U = [] ∧ r = UInt32.ofNat emptyHandle.val ∧
          t = s.setScreen emptyHandle ((s.screens emptyHandle).open L emptyHandle pid)) ∨
        ∃ n U', U = n :: U' ∧ r = UInt32.ofNat n.val ∧ t.Consistent U' (A ++ [n]) ∧
          Frame (s.setScreen n (Screen.clear.open L n pid)) t) E s := by
  rw [sysOpenscreen]
  refine wp_seq (screenDequeue_spec c) ?_
  intro r s₁ hpost
  rcases hpost with ⟨hU, rfl, rfl⟩ | ⟨n, U', hU, rfl, hc, hframe⟩
  · rw [screenOf_ofNat]
    dsimp only
    rw [wp_bind, wp_modify, wp_pure]
    exact Or.inl ⟨hU, toUInt32_ofNat emptyHandle, rfl⟩
  · rw [screenOf_ofNat]
    dsimp only
    rw [wp_bind, wp_modify, wp_pure]
    refine Or.inr ⟨n, U', hU, toUInt32_ofNat n, hc.of_screens _ fun x hx => ?_, ?_⟩
    · have hne : x ≠ n := fun heq => hc.disjoint x hx (heq ▸ List.mem_append_right A (by simp))
      rw [Function.update_of_ne hne]
      exact hc.unowned x hx
    · have hn : s₁.screens n = .clear := by
        rw [hframe.screens, setScreen_self]
      rw [hn]
      have hset := hframe.setScreen n (Screen.clear.open L n pid)
      rwa [System.setScreen, System.setScreen, Function.update_idem] at hset

/-- The call puts an owned screen back, and refuses all others. -/
theorem sysClosescreen_spec (c : s.Consistent U A) (sh : Int32) :
    wp (sysClosescreen sh)
      (fun r t => (∃ h A', screenOf sh = some h ∧ (s.screens h).owner.id ≠ 0 ∧
          r = Status.success.code ∧ A.Perm (h :: A') ∧ t.Consistent (U ++ [h]) A' ∧
          Frame (s.setScreen h { s.screens h with owner := pidClear }) t) ∨
        ((∀ h, screenOf sh = some h → (s.screens h).owner.id = 0) ∧
          r = Status.badParam.code ∧ t = s)) E s := by
  rw [sysClosescreen, wp_bind, wp_get]
  cases hsh : screenOf sh with
  | none =>
    refine wp_pure.mpr (Or.inr ⟨fun h hh => ?_, rfl, rfl⟩)
    cases hh
  | some h =>
    dsimp only
    by_cases howner : (s.screens h).owner.id = 0
    · rw [if_neg (not_not.mpr howner)]
      refine wp_pure.mpr (Or.inr ⟨fun h' hh => ?_, rfl, rfl⟩)
      obtain rfl := Option.some.inj hh
      exact howner
    rw [if_pos howner, wp_bind, wp_set]
    have hU : h ∉ U := fun hmem => howner (c.unowned h hmem)
    obtain ⟨l₁, l₂, rfl⟩ := List.append_of_mem ((c.cover h).resolve_left hU)
    have hactive := c.active.path.nodup
    have hc : (s.setScreen h { s.screens h with owner := pidClear }).Consistent U
        (l₁ ++ h :: l₂) := by
      refine c.of_screens _ fun x hx => ?_
      rw [Function.update_of_ne (fun heq : x = h => hU (heq ▸ hx))]
      exact c.unowned x hx
    rw [screenEnqueue, wp_bind]
    refine wp_seq (removeNode_spec hc.handle hc.active) ?_
    intro r s₁ hpost
    obtain ⟨rfl, hactive₁, hlinks₁⟩ := hpost
    have hunused₁ : s₁.Holds .unused U := hlinks₁.holds hc.unused (by decide) hc.disjoint
    dsimp only
    refine wp_seq (enqueue_spec hunused₁ hU) ?_
    intro _ s₂ hpost
    obtain ⟨hunused₂, hlinks₂⟩ := hpost
    have hsub : ∀ x ∈ l₁ ++ l₂, x ∈ l₁ ++ h :: l₂ := by
      intro x hx
      rcases List.mem_append.mp hx with hx | hx
      · exact List.mem_append_left _ hx
      · exact List.mem_append_right _ (List.mem_cons_of_mem h hx)
    have hperm : (l₁ ++ h :: l₂).Perm (h :: (l₁ ++ l₂)) := List.perm_middle
    have hh : h ∉ l₁ ++ l₂ := (List.nodup_cons.mp (hperm.nodup_iff.mp hactive)).1
    have hout : ∀ x ∈ l₁ ++ l₂, x ∉ h :: U := by
      intro x hx hmem
      rcases List.mem_cons.mp hmem with rfl | hmem
      · exact hh hx
      · exact c.disjoint x hmem (hsub x hx)
    have hframe := hlinks₁.rest.trans hlinks₂.rest
    rw [wp_pure, wp_pure]
    refine Or.inl ⟨h, l₁ ++ l₂, rfl, howner, rfl, hperm,
      ⟨hunused₂, hlinks₂.holds hactive₁ (by decide) hout, ?_, ?_, ?_, ?_⟩, hframe⟩
    · intro x hx hmem
      refine hout x hmem ?_
      rcases List.mem_append.mp hx with hx | hx
      · exact List.mem_cons_of_mem h hx
      · exact List.mem_cons.mpr (Or.inl (List.mem_singleton.mp hx))
    · intro x
      rcases c.cover x with hx | hx
      · exact Or.inl (List.mem_append_left _ hx)
      · rcases List.mem_cons.mp (hperm.mem_iff.mp hx) with rfl | hx
        · exact Or.inl (by simp)
        · exact Or.inr hx
    · exact fun x => (hlinks₂.handle x).trans ((hlinks₁.handle x).trans (hc.handle x))
    · intro x hx
      rw [hframe.screens]
      rcases List.mem_append.mp hx with hx | hx
      · exact hc.unowned x hx
      · rw [List.mem_singleton.mp hx, setScreen_self]
        rfl

/-! ## All events -/

/-- The lists and the owners. -/
def System.lists (s : System) : (ScreenId → QNode) × (QName → ScreenQueue) × (ScreenId → Pid) :=
  (s.nodes, s.queues, fun n => (s.screens n).owner)

/-- Nothing but opening and closing touches the lists. -/
theorem System.Consistent.of_lists (c : s.Consistent U A) (h : t.lists = s.lists) :
    t.Consistent U A := by
  obtain ⟨hnodes, hqueues, howners⟩ : t.nodes = s.nodes ∧ t.queues = s.queues ∧ _ := by
    simpa [System.lists] using h
  have hnext : t.next = s.next := by
    funext n
    rw [System.next, System.next, hnodes]
  have hholds : ∀ q l, s.Holds q l → t.Holds q l := by
    intro q l hl
    refine ⟨?_, ?_, ?_⟩
    · rw [hnext, hqueues]
      exact hl.path
    · rw [hqueues]
      exact hl.last
    · rw [hqueues]
      exact hl.length
  refine ⟨hholds _ _ c.unused, hholds _ _ c.active, c.disjoint, c.cover, ?_, ?_⟩
  · rw [hnodes]
    exact c.handle
  · intro n hn
    rw [congrFun howners n]
    exact c.unowned n hn

/-- Only the owner of a screen matters to the lists. -/
theorem setScreen_lists (s : System) (n : ScreenId) {scr : Screen}
    (h : scr.owner = (s.screens n).owner) : (s.setScreen n scr).lists = s.lists := by
  refine congrArg (fun owners => (s.nodes, s.queues, owners)) (funext fun m => ?_)
  by_cases hm : m = n
  · rw [hm, setScreen_self, h]
  · rw [setScreen_of_ne s hm]

/-- Choosing a screen leaves the lists alone. -/
theorem sysSetscreen_lists (p : PcbId) (sh : Int32) : Keeps System.lists (sysSetscreen p sh) := by
  refine fun s => ?_
  rw [sysSetscreen, wp_bind, wp_get]
  split
  · split
    · exact rfl
    · exact rfl
  · exact rfl

/-- So does switching to one. -/
theorem sysSwitchscreen_lists (sh : Int32) : Keeps System.lists (sysSwitchscreen sh) := by
  intro s
  rw [sysSwitchscreen, wp_bind, wp_get]
  split
  · split
    · exact setScreen_lists s s.activeScreen rfl
    · exact rfl
  · exact rfl

/-- And so does drawing. -/
theorem gsDrawPixel_lists (p : PcbId) (x : Fin xResolution) (y : Fin yResolution)
    (color : UInt16) : Keeps System.lists (gsDrawPixel p x y color) := by
  intro s
  rw [gsDrawPixel, wp_bind, wp_get]
  dsimp only
  split
  · exact rfl
  · exact setScreen_lists s (s.pcbScreen p) rfl

/-! ### Input -/

section Input

variable {γ : Type} {f : System → γ}

/-- `f` reads nothing that the input routines store. -/
structure IgnoresInput (f : System → γ) : Prop where
  keys : ∀ s shift mask, f { s with shift := shift, ctrlMask := mask } = f s
  buffers : ∀ s h kb mouse stored, f { s.setScreen h { s.screens h with
    kbBuf := kb
    mouseBuf := mouse } with stored := stored } = f s

variable (ignores : IgnoresInput f)
include ignores

/-- A key goes into an input buffer. -/
theorem kbStore_keeps (code : UInt8) : Keeps f (kbStore L code) := by
  intro s
  rw [kbStore, wp_bind, wp_get]
  dsimp only
  split
  · exact ignores.buffers s s.activeScreen _ (s.screens s.activeScreen).mouseBuf _
  · exact rfl

/-- A scan code changes the state of the modifiers or stores a key. -/
theorem cInputScanCode_keeps (code : UInt8) : Keeps f (cInputScanCode L code) := by
  intro s
  rw [cInputScanCode, wp_bind, wp_get]
  split
  · exact ignores.keys s true s.ctrlMask
  split
  · exact ignores.keys s false s.ctrlMask
  split
  · exact ignores.keys s s.shift 0x1f
  split
  · exact ignores.keys s s.shift 0xff
  split
  · dsimp only
    split
    · exact kbStore_keeps ignores _ s
    · exact rfl
  · exact rfl

/-- A packet goes into an input buffer. -/
theorem isrMouse_keeps (packet : UInt8) : Keeps f (isrMouse L packet) :=
  .modify fun s => ignores.buffers s s.activeScreen (s.screens s.activeScreen).kbBuf _ _

/-- Reading a key takes it out of the buffer, after waiting for one. -/
theorem cGetchar_keeps (p : PcbId) : Keeps f (cGetchar L p) := by
  intro s
  rw [cGetchar, wp_bind, wp_get]
  dsimp only
  split
  · exact rfl
  · exact ignores.buffers s (s.pcbScreen p) _ (s.screens (s.pcbScreen p)).mouseBuf s.stored

/-- The same for a byte of the mouse. -/
theorem getMouse_keeps (p : PcbId) : Keeps f (getMouse L p) := by
  intro s
  rw [getMouse, wp_bind, wp_get]
  dsimp only
  split
  · exact rfl
  · exact ignores.buffers s (s.pcbScreen p) (s.screens (s.pcbScreen p)).kbBuf _ s.stored

/-- The buffer of the mouse is emptied. -/
theorem clearMouse_keeps (p : PcbId) : Keeps f (clearMouse p) :=
  .modify fun s =>
    ignores.buffers s (s.pcbScreen p) (s.screens (s.pcbScreen p)).kbBuf _ s.stored

end Input

/-- An operation that is run for its effect keeps what it keeps. -/
theorem effect_keeps {α γ : Type} {f : System → γ} {x : Op α} (h : Keeps f x) :
    Keeps f (effect x) := fun s => wp_map.mpr (h s)

/-- The lists are made of nodes, headers and owners, none of which an input routine stores. -/
theorem lists_ignores : IgnoresInput System.lists :=
  ⟨fun _ _ _ => rfl, fun s h _ _ _ => setScreen_lists s h rfl⟩

/-- A screen is opened only by a process whose pid is not 0. -/
def Event.Named : Event → Prop
  | .openscreen pid => pid.id ≠ 0
  | _ => True

/-- Every screen in the list of active screens has an owner. -/
def System.Owned (s : System) (A : List ScreenId) : Prop := ∀ n ∈ A, (s.screens n).owner.id ≠ 0

/-- A screen that is opened belongs to the caller. -/
theorem open_owner (scr : Screen) (h : ScreenId) (pid : Pid) :
    (scr.open L h pid).owner = pid := rfl

/-- The screen that has been opened has an owner, as the others have. -/
theorem Frame.owned {pid : Pid} {scr : Screen} (h : Frame (s.setScreen n (scr.open L n pid)) t)
    (howned : s.Owned A) (hpid : pid.id ≠ 0) : t.Owned (A ++ [n]) := by
  intro m hm
  rw [h.screens]
  by_cases hmn : m = n
  · rw [hmn, setScreen_self, open_owner]
    exact hpid
  · rw [setScreen_of_ne s hmn]
    exact howned m ((List.mem_append.mp hm).resolve_right (by simpa using hmn))

/-- **`openscreen`** keeps the lists consistent, and owned if the caller's pid is not 0. -/
theorem sysOpenscreen_consistent (c : s.Consistent U A) (pid : Pid) :
    wp (sysOpenscreen L pid)
      (fun _ t => ∃ U' A', t.Consistent U' A' ∧ (s.Owned A → pid.id ≠ 0 → t.Owned A')) E s := by
  refine wp_mono (sysOpenscreen_spec c pid) ?_ fun _ he => he
  intro r t hpost
  rcases hpost with ⟨hU, -, rfl⟩ | ⟨n, U', hU, -, hc, hframe⟩
  · subst hU
    refine ⟨[], A, c.of_screens _ (by simp), fun howned hpid m hm => ?_⟩
    by_cases hme : m = emptyHandle
    · rw [hme, setScreen_self, open_owner]
      exact hpid
    · rw [setScreen_of_ne s hme]
      exact howned m hm
  · exact ⟨U', A ++ [n], hc, fun howned hpid => hframe.owned howned hpid⟩

/-- **`closescreen`** keeps them too, whatever number it is given. -/
theorem sysClosescreen_consistent (c : s.Consistent U A) (sh : Int32) :
    wp (sysClosescreen sh)
      (fun _ t => ∃ U' A', t.Consistent U' A' ∧ (s.Owned A → t.Owned A')) E s := by
  refine wp_mono (sysClosescreen_spec c sh) ?_ fun _ he => he
  intro r t hpost
  rcases hpost with ⟨h, A', -, -, -, hperm, hc, hframe⟩ | ⟨-, -, rfl⟩
  · refine ⟨U ++ [h], A', hc, fun howned m hm => ?_⟩
    have hne : m ≠ h := by
      intro heq
      exact hc.disjoint m (by simp [heq]) hm
    rw [hframe.screens, setScreen_of_ne s hne]
    exact howned m (hperm.mem_iff.mpr (List.mem_cons_of_mem h hm))
  · exact ⟨U, A, c, fun howned => howned⟩

/-- What leaves the lists and the owners alone. -/
theorem wp_lists {x : Op Unit} (c : s.Consistent U A) (h : Keeps System.lists x) :
    wp x (fun _ t => ∃ U' A', t.Consistent U' A' ∧ (s.Owned A → t.Owned A')) (fun _ => True) s := by
  refine wp_mono (h s) ?_ fun _ he => he
  intro _ t ht
  refine ⟨U, A, c.of_lists ht, fun howned n hn => ?_⟩
  have howner : (t.screens n).owner = (s.screens n).owner :=
    congrFun (congrArg (fun l => l.2.2) ht) n
  rw [howner]
  exact howned n hn

/-- **Every event keeps the lists consistent.** -/
theorem Event.run_consistent (c : s.Consistent U A) (e : Event) :
    wp (e.run L)
      (fun _ t => ∃ U' A', t.Consistent U' A' ∧ (e.Named → s.Owned A → t.Owned A'))
      (fun _ => True) s := by
  have hquiet : Keeps System.lists (e.run L) →
      wp (e.run L)
        (fun _ t => ∃ U' A', t.Consistent U' A' ∧ (e.Named → s.Owned A → t.Owned A'))
        (fun _ => True) s := by
    intro hkeeps
    refine wp_mono (wp_lists c hkeeps) ?_ fun _ he => he
    intro _ t hpost
    obtain ⟨U', A', hc, howned⟩ := hpost
    exact ⟨U', A', hc, fun _ => howned⟩
  cases e with
  | openscreen pid =>
    refine wp_map.mpr (wp_mono (sysOpenscreen_consistent c pid) ?_ fun _ he => he)
    intro _ t hpost
    obtain ⟨U', A', hc, howned⟩ := hpost
    exact ⟨U', A', hc, fun hpid h => howned h hpid⟩
  | closescreen sh =>
    refine wp_map.mpr (wp_mono (sysClosescreen_consistent c sh) ?_ fun _ he => he)
    intro _ t hpost
    obtain ⟨U', A', hc, howned⟩ := hpost
    exact ⟨U', A', hc, fun _ => howned⟩
  | setscreen p sh => exact hquiet (effect_keeps (sysSetscreen_lists p sh))
  | getscreen p => exact hquiet (effect_keeps (.bind .get fun _ => .pure _))
  | switchscreen sh => exact hquiet (effect_keeps (sysSwitchscreen_lists sh))
  | fork parent child => exact hquiet (.modify fun _ => rfl)
  | drawPixel p x y color => exact hquiet (gsDrawPixel_lists p x y color)
  | getPixel p x y => exact hquiet (effect_keeps (.bind .get fun _ => .ite (.pure _) (.pure _)))
  | keyboard code => exact hquiet (cInputScanCode_keeps lists_ignores code)
  | mouse packet => exact hquiet (isrMouse_keeps lists_ignores packet)
  | getchar p => exact hquiet (effect_keeps (cGetchar_keeps lists_ignores p))
  | getMouse p => exact hquiet (effect_keeps (getMouse_keeps lists_ignores p))
  | clearMouse p => exact hquiet (clearMouse_keeps lists_ignores p)

variable {video : Picture} {tr : List (System × Event)} {good : System → Event → Prop}

/-- Set-up links the nodes in the order of their numbers. -/
theorem initial_path :
    Path (fun n : ScreenId =>
        if hlt : n.val + 1 < numScreens then some ⟨n.val + 1, hlt⟩ else none)
      (some ⟨0, by decide⟩) (List.finRange numScreens) none := by
  decide

/-- **After set-up** all nodes are unused. -/
theorem booted_consistent (video : Picture) :
    (booted video).Consistent (List.finRange numScreens) [] where
  unused := ⟨initial_path, rfl, rfl⟩
  active := ⟨rfl, rfl, rfl⟩
  disjoint := by simp
  cover := fun n => Or.inl (List.mem_finRange n)
  handle := fun _ => rfl
  unowned := fun _ _ => rfl

/-- **In every state that a run reaches** the lists are consistent, by induction on the run. -/
theorem ScreenRun.consistent (run : ScreenRun L good video tr s) :
    ∃ U A, s.Consistent U A := by
  refine Runs.invariant (I := fun s => ∃ U A, s.Consistent U A)
    ⟨_, _, booted_consistent video⟩ ?_ run
  intro t e hc _
  obtain ⟨U, A, hc⟩ := hc
  refine wp_mono (Event.run_consistent hc e) ?_ fun _ he => he
  intro _ u hpost
  obtain ⟨U', A', hc', -⟩ := hpost
  exact ⟨U', A', hc'⟩

/-- **The lists of screens stay consistent**, whatever handles the calls are given, as long as
the callers' pids are not 0: each is a list from its first to its last node, of the length it is
said to have; together they have every node once; the screens with an owner are the active ones;
and closing one of these succeeds. -/
theorem screens_consistent (run : ScreenRun L (fun _ e => e.Named) video tr s) :
    ∃ U A, s.Holds .unused U ∧ s.Holds .active A ∧
      (∀ q, (s.queues q).first = none ↔ (s.queues q).length = 0) ∧
      (U ++ A).Perm (List.finRange numScreens) ∧
      (∀ h, (s.screens h).owner.id ≠ 0 ↔ h ∈ A) ∧
      ∀ sh h, screenOf sh = some h → (s.screens h).owner.id ≠ 0 →
        ∃ t, sysClosescreen sh s = .ok (Status.success.code, t) := by
  have hinv : ∃ U A, s.Consistent U A ∧ s.Owned A := by
    refine Runs.invariant (I := fun s => ∃ U A, s.Consistent U A ∧ s.Owned A)
      ⟨_, _, booted_consistent video, by simp [System.Owned]⟩ ?_ run
    intro t e hc named
    obtain ⟨U, A, hc, howned⟩ := hc
    refine wp_mono (Event.run_consistent hc e) ?_ fun _ he => he
    intro _ u hpost
    obtain ⟨U', A', hc', howned'⟩ := hpost
    exact ⟨U', A', hc', howned' named howned⟩
  obtain ⟨U, A, c, howned⟩ := hinv
  have hfirst : ∀ q l, s.Holds q l → ((s.queues q).first = none ↔ (s.queues q).length = 0) := by
    intro q l hl
    rw [hl.length_eq_zero, hl.path.head_eq, List.head?_eq_none_iff]
  refine ⟨U, A, c.unused, c.active, fun q => ?_, ?_, fun h => ⟨fun hne => ?_, howned h⟩, ?_⟩
  · cases q with
    | unused => exact hfirst _ U c.unused
    | active => exact hfirst _ A c.active
  · refine (List.perm_ext_iff_of_nodup ?_ (List.nodup_finRange _)).mpr fun n => ?_
    · exact List.nodup_append'.mpr ⟨c.unused.path.nodup, c.active.path.nodup, c.disjoint⟩
    · exact iff_of_true (List.mem_append.mpr (c.cover n)) (List.mem_finRange n)
  · exact (c.cover h).resolve_left fun hU => hne (c.unowned h hU)
  · intro sh h hsh hne
    obtain ⟨r, t, hrun, hpost⟩ := wp_returns (sysClosescreen_spec c sh)
    rcases hpost with ⟨-, -, -, -, rfl, -⟩ | ⟨hnone, -, -⟩
    · exact ⟨t, hrun⟩
    · exact absurd (hnone h hsh) hne

/-- One process opens some screens in a row. -/
theorem opens_run (L : Layout) (video : Picture) (pid : Pid) (hpid : pid.id ≠ 0) {k : Nat}
    (hk : k ≤ numScreens) :
    ∃ tr s U A, tr.length = k ∧ ScreenRun L (fun _ e => e.Named) video tr s ∧
      s.Consistent U A ∧ s.Owned A ∧ U.length = numScreens - k := by
  induction k with
  | zero =>
    exact ⟨[], _, _, [], rfl, .nil, booted_consistent video, by simp [System.Owned],
      List.length_finRange⟩
  | succ k ih =>
    obtain ⟨tr, s, U, A, hlen, run, c, howned, hU⟩ := ih (by omega)
    obtain ⟨r, t, hopen, hpost⟩ := wp_returns (sysOpenscreen_spec (L := L) c pid)
    rcases hpost with ⟨rfl, -, -⟩ | ⟨n, U', rfl, -, hc, hframe⟩
    · rw [List.length_nil] at hU
      omega
    · have hstep : Event.run L (.openscreen pid) s = .ok ((), t) := by
        obtain ⟨_, _, hrun, rfl⟩ := wp_returns (x := Event.run L (.openscreen pid))
          (Q := fun _ t' => t' = t) (wp_map.mpr (wp_of_eq hopen rfl))
        exact hrun
      have named : (Event.openscreen pid).Named := hpid
      refine ⟨tr ++ [(s, .openscreen pid)], t, U', A ++ [n], ?_, run.snoc named hstep, hc,
        hframe.owned howned hpid, ?_⟩
      · rw [List.length_append, hlen]
        rfl
      · rw [List.length_cons] at hU
        omega

/-- Four screens are opened, and one of them is closed. -/
theorem screens_consistent_some : ∃ tr s U A, tr.map Prod.snd = someEvents ∧
    ScreenRun flatLayout (fun _ e => e.Named) (fun _ => 0) tr s ∧
    s.Holds .unused U ∧ s.Holds .active A ∧ (U ++ A).Perm (List.finRange numScreens) ∧
    A.length = 3 := by
  have hplay : screenTest someEvents fun _ s => decide ((s.queues .active).length = 3) := by
    decide +kernel
  obtain ⟨tr, s, run, htr, htest⟩ := screenTest_run hplay
  have hnamed : ∀ x ∈ tr, x.2.Named := by
    intro x hx
    have hmem : x.2 ∈ someEvents := htr ▸ List.mem_map_of_mem hx
    revert hmem
    generalize x.2 = e
    intro hmem
    simp only [someEvents, List.mem_cons, List.not_mem_nil, or_false] at hmem
    rcases hmem with rfl | rfl | rfl | rfl | rfl | rfl | rfl | rfl | rfl | rfl | rfl <;>
      first | trivial | exact show (_ : UInt32) ≠ 0 by decide
  have run' := run.restrict (fun _ e => e.Named) hnamed
  obtain ⟨U, A, hunused, hactive, -, hperm, -, -⟩ := screens_consistent run'
  refine ⟨tr, s, U, A, htr, run', hunused, hactive, hperm, ?_⟩
  rw [← hactive.length, of_decide_eq_true htest]
  rfl

/-! ## Exhaustion -/

/-- The call gives the caller a screen that had no owner, if there is one; otherwise it fails,
and changes no screen. -/
def OpensUnowned (s : System) (pid : Pid) (r : UInt32) (t : System) : Prop :=
  ((∃ h, (s.screens h).owner.id = 0) →
    ∃ h : ScreenId, r = UInt32.ofNat h.val ∧ (s.screens h).owner.id = 0 ∧
      (t.screens h).owner = pid ∧ ∀ k ≠ h, (t.screens k).owner = (s.screens k).owner) ∧
  ((∀ h, (s.screens h).owner.id ≠ 0) →
    r.toInt32 < 0 ∧ ∀ h, (t.screens h).owner = (s.screens h).owner ∧
      (t.screens h).fb = (s.screens h).fb ∧ (t.screens h).kbBuf = (s.screens h).kbBuf ∧
      (t.screens h).mouseBuf = (s.screens h).mouseBuf)

/-- A screen that is opened without an owner is opened as it should be. -/
theorem opensUnowned_of_open {h : ScreenId} {pid : Pid} {scr : Screen}
    (hopen : t.screens = (s.setScreen h (scr.open L h pid)).screens)
    (hnone : (s.screens h).owner.id = 0) : OpensUnowned s pid (UInt32.ofNat h.val) t := by
  refine ⟨fun _ => ⟨h, rfl, hnone, ?_, fun k hk => ?_⟩, fun hall => absurd hnone (hall h)⟩
  · rw [hopen, setScreen_self, open_owner]
  · rw [hopen, setScreen_of_ne s hk]

/-- Different screens have different handles. -/
theorem ofNat_screenId_inj :
    ∀ n m : ScreenId, UInt32.ofNat n.val = UInt32.ofNat m.val → n = m := by
  decide

/-- The status code for an empty queue is not negative, so it passes for a handle. -/
theorem emptyHandle_not_neg : ¬ (UInt32.ofNat emptyHandle.val).toInt32 < 0 := by
  decide

/-- **`openscreen` gives a screen without an owner** unless there is none left and screen 2 is
owned. -/
theorem sysOpenscreen_unowned (c : s.Consistent U A) (pid : Pid) :
    wp (sysOpenscreen L pid)
      (fun r t => OpensUnowned s pid r t ↔
        (s.queues .unused).length ≠ 0 ∨ (s.screens emptyHandle).owner.id = 0) E s := by
  refine wp_mono (sysOpenscreen_spec c pid) ?_ fun _ he => he
  intro r t hpost
  rcases hpost with ⟨rfl, rfl, rfl⟩ | ⟨n, U', rfl, rfl, -, hframe⟩
  · have hlength : (s.queues .unused).length = 0 := c.unused.length_eq_zero.mpr rfl
    constructor
    · intro hopens
      by_contra hcond
      rw [not_or] at hcond
      by_cases hsome : ∃ h, (s.screens h).owner.id = 0
      · obtain ⟨h, hr, hnone, -⟩ := hopens.1 hsome
        rw [← ofNat_screenId_inj _ _ hr] at hnone
        exact hcond.2 hnone
      · exact emptyHandle_not_neg (hopens.2 fun h hh => hsome ⟨h, hh⟩).1
    · intro hcond
      exact opensUnowned_of_open rfl (hcond.resolve_left (not_not.mpr hlength))
  · refine iff_of_true (opensUnowned_of_open hframe.screens
      (c.unowned n List.mem_cons_self)) (Or.inl fun hzero => ?_)
    exact List.cons_ne_nil n U' (c.unused.length_eq_zero.mp hzero)

/-- **`openscreen` never hands out a screen in use**, in any state that a run can reach, exactly
if the list of unused screens is not empty, or screen 2 happens to have no owner. -/
theorem opens_unowned_iff (run : ScreenRun L good video tr s) (pid : Pid) :
    ∃ r t, sysOpenscreen L pid s = .ok (r, t) ∧ (OpensUnowned s pid r t ↔
      (s.queues .unused).length ≠ 0 ∨ (s.screens emptyHandle).owner.id = 0) := by
  obtain ⟨U, A, c⟩ := ScreenRun.consistent run
  exact wp_returns (sysOpenscreen_unowned c pid)

theorem opens_unowned_at_boot :
    ∃ r t, sysOpenscreen flatLayout ⟨1, Vector.replicate 6 0, 0⟩ (booted fun _ => 0) = .ok (r, t) ∧
      OpensUnowned (booted fun _ => 0) ⟨1, Vector.replicate 6 0, 0⟩ r t := by
  have run : ScreenRun flatLayout (fun _ _ => True) (fun _ => 0) [] (booted fun _ => 0) := .nil
  obtain ⟨r, t, hopen, hiff⟩ := opens_unowned_iff run ⟨1, Vector.replicate 6 0, 0⟩
  exact ⟨r, t, hopen, hiff.mpr (Or.inl (by decide))⟩

/-- When one process has all screens, the next to ask is given screen 2. -/
theorem screen_in_use_handed_out :
    ¬ ∀ (L : Layout) (video : Picture) (tr : List (System × Event)) (s : System) (pid : Pid)
      (r : UInt32) (t : System), ScreenRun L (fun _ e => e.Named) video tr s →
      sysOpenscreen L pid s = .ok (r, t) → OpensUnowned s pid r t := by
  intro h
  obtain ⟨tr, s, U, A, -, run, c, howned, hU⟩ := opens_run flatLayout (fun _ => 0)
    ⟨1, Vector.replicate 6 0, 0⟩ (by decide) (le_refl numScreens)
  obtain rfl : U = [] := List.length_eq_zero_iff.mp (by rw [hU, Nat.sub_self])
  obtain ⟨r, t, hopen, hiff⟩ := wp_returns
    (sysOpenscreen_unowned (L := flatLayout) c ⟨2, Vector.replicate 6 0, 0⟩)
  rcases hiff.mp (h _ _ _ _ _ _ _ run hopen) with hlength | hnone
  · exact hlength (c.unused.length_eq_zero.mpr rfl)
  · exact howned _ ((c.cover emptyHandle).resolve_left (by simp)) hnone

end Cumulonimbus.Screens
