import Cumulonimbus.Irqs
import Cumulonimbus.Linked
import Mathlib.Data.List.Basic

/-!
# The lists of interrupt handlers

Every vector's list is a path along `next` that begins at the sentinel of the vector and
visits the registered actions in order.  An interrupt walks the path and changes no link;
registering lengthens one path by a node that was in no list, and deleting shortens one.
-/

namespace Cumulonimbus.Irqs

open Exec Linked

variable {s t : State} {E : Fault → Prop}

/-! ## Memory -/

/-- Clearing the bits of a mask takes them off. -/
theorem and_not_eq_sub (mask a : UInt32) : a &&& ~~~mask = a - (mask &&& a) := by
  have hsum : (mask &&& a) + (a &&& ~~~mask) = a := by
    refine UInt32.toBitVec_inj.mp ?_
    rw [UInt32.toBitVec_add, UInt32.toBitVec_and, UInt32.toBitVec_and, UInt32.toBitVec_not,
      BitVec.add_eq_or_of_and_eq_zero]
    · ext i hi
      simp only [BitVec.getElem_or, BitVec.getElem_and, BitVec.getElem_not]
      cases mask.toBitVec[i] <;> simp
    · ext i hi
      simp only [BitVec.getElem_and, BitVec.getElem_not, BitVec.getElem_zero]
      cases mask.toBitVec[i] <;> simp
  rw [UInt32.eq_sub_iff_add_eq, UInt32.add_comm]
  exact hsum

/-- Aligning goes up by at most the mask. -/
theorem alignUp_bounds (mask a : UInt32) (fits : a.toNat + mask.toNat < 0x100000000) :
    a.toNat ≤ (alignUp mask a).toNat ∧ (alignUp mask a).toNat ≤ a.toNat + mask.toNat := by
  rw [alignUp]
  split
  case isFalse => omega
  case isTrue hne =>
    have hpos : (mask &&& a).toNat ≠ 0 := fun h => hne (UInt32.toNat_inj.mp h)
    have hle : (mask &&& a).toNat ≤ mask.toNat := by
      rw [UInt32.toNat_and]
      exact Nat.and_le_left
    have hle' : (mask &&& a).toNat ≤ a.toNat := by
      rw [UInt32.toNat_and]
      exact Nat.and_le_right
    have hsum : (alignUp mask a).toNat = a.toNat - (mask &&& a).toNat + (mask.toNat + 1) := by
      rw [alignUp, if_pos hne, and_not_eq_sub, UInt32.toNat_add, UInt32.toNat_add,
        UInt32.toNat_sub_of_le _ _ (UInt32.le_iff_toNat_le.mpr hle'), UInt32.toNat_one]
      omega
    rw [alignUp, if_pos hne] at hsum
    omega

/-- Aligning an address moves it by fewer than sixteen bytes. -/
theorem Alignment.apply_bounds (alignment : Alignment) {a : UInt32}
    (fits : a.toNat + 15 < 0x100000000) :
    a.toNat ≤ (alignment.apply a).toNat ∧ (alignment.apply a).toNat ≤ a.toNat + 15 := by
  have hmask (mask : UInt32) (hm : mask.toNat ≤ 15) :
      a.toNat ≤ (alignUp mask a).toNat ∧ (alignUp mask a).toNat ≤ a.toNat + 15 := by
    have hbounds := alignUp_bounds mask a (by omega)
    omega
  cases alignment with
  | byte => exact ⟨le_refl _, Nat.le_add_right _ _⟩
  | word =>
    rw [Alignment.apply]
    split
    · rw [UInt32.toNat_add, UInt32.toNat_one]
      omega
    · omega
  | dword => exact hmask 3 (by decide)
  | qword => exact hmask 7 (by decide)
  | paragraph => exact hmask 15 (by decide)

/-! ## What the small functions do -/

section Steps

variable {Q : Unit → State → Prop}

/-- One rule for each of the primitives: the flag is read. -/
theorem wp_interruptIsEnabled {Q : Bool → State → Prop} :
    wp interruptIsEnabled Q E s ↔ Q s.enabled s := Iff.rfl

/-- The flag is set. -/
theorem wp_interruptEnable (b : Bool) :
    wp (interruptEnable b) Q E s ↔ Q () { s with enabled := b } := by
  rw [interruptEnable, wp_bind, wp_interruptIsEnabled]
  by_cases h : s.enabled = b
  · rw [if_pos h, wp_pure, ← h]
  · rw [if_neg h]
    cases b <;> exact Iff.rfl

/-- The heap is taken from its base. -/
theorem wp_kallocAligned {Q : UInt32 → State → Prop} (bytes : UInt32) (alignment : Alignment) :
    wp (kallocAligned bytes alignment) Q E s ↔
      Q (alignment.apply s.kallocBase)
        { s with kallocBase := alignment.apply s.kallocBase + bytes } := Iff.rfl

/-- A link of a node is stored. -/
theorem wp_setNext (a next : UInt32) :
    wp (setNext a next) Q E s ↔
      Q () { s.setAction a { s.actions a with next := next } with
        edits := s.edits ++ [s.enabled] } := Iff.rfl

/-- A table filled entry by entry. -/
theorem foldl_update {β : Type} (g f : Fin 256 → β) (l : List (Fin 256)) (i : Fin 256) :
    (l.foldl (fun f i => Function.update f i (g i)) f) i = if i ∈ l then g i else f i := by
  induction l generalizing f with
  | nil => simp
  | cons j l ih =>
    rw [List.foldl_cons, ih]
    by_cases hl : i ∈ l
    · simp [hl]
    · by_cases hij : i = j
      · simp [hij]
      · simp [hl, hij]

/-- Storing an entry for each vector is storing the table. -/
theorem foldl_finRange {β : Type} (g f : Fin 256 → β) :
    (List.finRange 256).foldl (fun f i => Function.update f i (g i)) f = g := by
  funext i
  rw [foldl_update, if_pos (List.mem_finRange i)]

/-- So the whole table changes. -/
theorem wp_installAll (handler : Isr) :
    wp (installAll handler) Q E s ↔ Q () { s with isrTable := fun _ => handler } := by
  have hrun (l : List (Fin 256)) (s : State) : wp (forM l fun i => installIsr i handler) Q E s ↔
      Q () { s with isrTable := l.foldl (fun f i => Function.update f i handler) s.isrTable } := by
    induction l generalizing s with
    | nil => exact Iff.rfl
    | cons i l ih =>
      rw [List.forM_cons, wp_bind, installIsr, wp_modify]
      exact ih _
  rw [installAll, hrun, foldl_finRange]

/-- The gates change. -/
theorem wp_interruptSwapIdt (basic : Bool) :
    wp (interruptSwapIdt basic) Q E s ↔
      Q () { s with idt := fun i => if basic then .basic i else .isr i } := by
  have hrun (l : List (Fin 256)) (s : State) (Q : Unit → State → Prop) :
      wp (forM l fun i => setIdtEntry i (if basic then .basic i else .isr i)) Q E s ↔
        Q () { s with idt := l.foldl (fun f i => Function.update f i
          (if basic then .basic i else .isr i)) s.idt } := by
    induction l generalizing s with
    | nil => exact Iff.rfl
    | cons i l ih =>
      rw [List.forM_cons, wp_bind, setIdtEntry, wp_modify]
      exact ih _
  rw [interruptSwapIdt, wp_bind, wp_interruptIsEnabled, wp_bind, wp_interruptEnable, wp_bind,
    hrun, wp_interruptEnable, foldl_finRange]

/-- What the interrupt controllers are told. -/
def acknowledgement (vector : Int32) : List (UInt16 × UInt8) :=
  if 0x20 ≤ vector ∧ vector < 0x30 then
    if 0x28 < vector then [(0x20, 0x20), (0xa0, 0x20)] else [(0x20, 0x20)]
  else []

/-- The controllers are told. -/
theorem wp_interruptClear (vector : Int32) :
    wp (interruptClear vector) Q E s ↔
      Q () { s with outs := s.outs ++ acknowledgement vector } := by
  rw [interruptClear, acknowledgement]
  split
  · rw [wp_bind, wp_modify]
    split
    · rw [wp_modify, List.append_assoc]
      rfl
    · exact Iff.rfl
  · rw [wp_pure, List.append_nil]

/-- Outside of an interrupt the request to terminate is ignored. -/
theorem wp_interruptTerminate :
    wp interruptTerminate Q E s ↔
      Q () { s with terminateIsr := s.handlingInt || s.terminateIsr } := by
  rw [interruptTerminate, wp_bind, wp_get]
  by_cases h : s.handlingInt = true
  · rw [if_pos h, wp_modify, show (s.handlingInt || s.terminateIsr) = true by rw [h]; rfl]
  · have hterminate : (s.handlingInt || s.terminateIsr) = s.terminateIsr := by
      rw [Bool.eq_false_iff.mpr h]
      rfl
    rw [if_neg h, wp_pure, hterminate]

/-- A handler is called. -/
theorem wp_callHandler (handler : UInt32) (vector code : Int32) (ends : Bool) :
    wp (callHandler handler vector code ends) Q E s ↔
      Q () { s with
        called := s.called ++ [⟨handler, vector, code⟩]
        terminateIsr := (ends && s.handlingInt) || s.terminateIsr } := by
  rw [callHandler, wp_bind, wp_modify]
  cases ends
  · exact Iff.rfl
  · exact wp_interruptTerminate

end Steps

/-! ## Lists -/

/-- The link of an action. -/
def State.link (s : State) (a : UInt32) : Option UInt32 := pointer 0 (s.actions a).next

def State.handler (s : State) (a : UInt32) : UInt32 := (s.actions a).handler

/-- The actions `nodes v` are registered for the vector `v`, behind its sentinel. -/
structure Lists (s : State) (nodes : Fin 256 → List UInt32) : Prop where
  path : ∀ v, Path s.link (some (s.vectorTable v)) (s.vectorTable v :: nodes v) none
  sentinel : ∀ v, s.handler (s.vectorTable v) = 0
  apart : ∀ v w, v ≠ w →
    ∀ a ∈ s.vectorTable v :: nodes v, a ∉ s.vectorTable w :: nodes w

variable {nodes : Fin 256 → List UInt32} {v : Fin 256} {l : List UInt32} {a : UInt32}

/-- No list is longer than there are addresses. -/
theorem length_lt_addresses {b : Option UInt32} (h : Path s.link b l none) :
    l.length < addresses := by
  have hlen := h.length_addresses
  have haddresses : addresses = 4294967297 := rfl
  omega

/-- The search for the end of a list. -/
theorem lastAction_spec {fuel : Nat} (h : Path s.link (some a) (a :: l) none)
    (hfuel : l.length < fuel) :
    wp (lastAction fuel a) (fun last t => last = (a :: l).getLast (List.cons_ne_nil a l) ∧ t = s)
      E s := by
  induction l generalizing a fuel with
  | nil =>
    obtain ⟨fuel, rfl⟩ := Nat.exists_eq_add_one_of_ne_zero (by omega : fuel ≠ 0)
    have hend : (s.actions a).next = 0 := pointer_eq_none.mp h.2
    rw [lastAction, wp_bind, wp_get, if_neg (not_not.mpr hend)]
    exact ⟨rfl, rfl⟩
  | cons b l ih =>
    obtain ⟨fuel, rfl⟩ := Nat.exists_eq_add_one_of_ne_zero (by omega : fuel ≠ 0)
    have hrest : Path s.link (s.link a) (b :: l) none := h.2
    obtain ⟨hne, hnext⟩ := pointer_eq_some.mp hrest.1
    rw [lastAction, wp_bind, wp_get, if_pos hne, hnext]
    rw [hrest.1] at hrest
    rw [List.length_cons] at hfuel
    refine wp_mono (ih hrest (by omega)) ?_ fun _ he => he
    intro last t hlast
    rw [List.getLast_cons (List.cons_ne_nil b l)]
    exact hlast

/-- The actions whose handlers an interrupt calls: up to the first that ends it. -/
def deliver (ends : Nat → Bool) : List UInt32 → List UInt32
  | [] => []
  | h :: l => h :: if ends 0 then [] else deliver (fun k => ends (k + 1)) l

/-- The memory `t` holds the lists of `s`: only counts of calls may differ. -/
structure SameLists (s t : State) : Prop where
  table : t.vectorTable = s.vectorTable
  link : ∀ a, t.link a = s.link a
  handler : ∀ a, t.handler a = s.handler a

/-- Nothing has changed. -/
theorem SameLists.refl (s : State) : SameLists s s := ⟨rfl, fun _ => rfl, fun _ => rfl⟩

/-- Nothing has changed twice. -/
theorem SameLists.trans {u : State} (h : SameLists s t) (h' : SameLists t u) : SameLists s u :=
  ⟨h'.table.trans h.table, fun a => (h'.link a).trans (h.link a),
    fun a => (h'.handler a).trans (h.handler a)⟩

/-- The handlers of a list that has not changed. -/
theorem handlers_same (l : List UInt32) (same : SameLists s t) :
    l.map t.handler = l.map s.handler := List.map_congr_left fun x _ => same.handler x

@[simp] theorem setAction_actions (s : State) (a : UInt32) (action : Action) (b : UInt32) :
    (s.setAction a action).actions b = if b = a then action else s.actions b :=
  Function.update_apply ..

/-- Counting a call leaves links and handlers as they are. -/
theorem sameLists_calls (s : State) (a calls : UInt32) :
    SameLists s (s.setAction a { s.actions a with calls := calls }) := by
  refine ⟨rfl, fun b => ?_, fun b => ?_⟩
  · rw [State.link, State.link, setAction_actions]
    split
    case isTrue hb => rw [hb]
    case isFalse => rfl
  · rw [State.handler, State.handler, setAction_actions]
    split
    case isTrue hb => rw [hb]
    case isFalse => rfl

/-- A request to terminate ends the loop. -/
theorem handleActions_terminated {Q : Unit → State → Prop} {fuel : Nat} (vector code : Int32)
    (ends : Nat → Bool) (terminated : s.terminateIsr = true) (hfuel : fuel ≠ 0) (post : Q () s) :
    wp (handleActions vector code fuel ends a) Q E s := by
  obtain ⟨fuel, rfl⟩ := Nat.exists_eq_add_one_of_ne_zero hfuel
  rw [handleActions, wp_bind, wp_get, if_neg fun h => by simp [terminated] at h]
  exact post

/-- **The loop of the global handler.** -/
theorem handleActions_spec {fuel : Nat} (vector code : Int32) (ends : Nat → Bool)
    (handlers : List UInt32) (path : Path s.link (pointer 0 a) l none)
    (registered : l.map s.handler = handlers) (running : s.handlingInt = true)
    (quiet : s.terminateIsr = false) (hfuel : l.length < fuel) :
    wp (handleActions vector code fuel ends a)
      (fun _ t => SameLists s t ∧ ∃ actions terminate, t = { s with
        actions := actions
        terminateIsr := terminate
        called := s.called ++
          (deliver ends (handlers.filter (· ≠ 0))).map (⟨·, vector, code⟩) }) E s := by
  induction l generalizing s ends a fuel handlers with
  | nil =>
    obtain ⟨fuel, rfl⟩ := Nat.exists_eq_add_one_of_ne_zero (by omega : fuel ≠ 0)
    have hnull : a = 0 := pointer_eq_none.mp path
    rw [handleActions, wp_bind, wp_get, if_neg fun h => h.1 hnull, wp_pure]
    refine ⟨.refl s, s.actions, s.terminateIsr, ?_⟩
    rw [← registered, List.map_nil, List.filter_nil, deliver, List.map_nil, List.append_nil]
  | cons b l ih =>
    obtain ⟨fuel, rfl⟩ := Nat.exists_eq_add_one_of_ne_zero (by omega : fuel ≠ 0)
    obtain ⟨hne, rfl⟩ := pointer_eq_some.mp path.1
    rw [List.length_cons] at hfuel
    rw [handleActions, wp_bind, wp_get, if_pos ⟨hne, quiet⟩]
    dsimp only
    have hrest (u : State) (same : SameLists s u) :
        Path u.link (pointer 0 (u.actions a).next) l none := by
      have htail := path.2.congr fun x _ => same.link x
      rwa [← same.link a] at htail
    have same := sameLists_calls s a ((s.actions a).calls + 1)
    by_cases hdead : (s.actions a).handler = 0
    · have hfilter : handlers.filter (· ≠ 0) = (l.map s.handler).filter (· ≠ 0) := by
        rw [← registered, List.map_cons, State.handler, hdead]
        rfl
      rw [if_neg (not_not.mpr hdead), if_neg (not_not.mpr hdead), wp_bind, wp_modify, wp_bind,
        wp_get, hfilter]
      refine wp_mono (ih ends _ (hrest _ same) (handlers_same l same) running quiet (by omega)) ?_
        fun _ he => he
      intro _ t hpost
      obtain ⟨hsame, hrest⟩ := hpost
      exact ⟨same.trans hsame, hrest⟩
    · have hfilter : handlers.filter (· ≠ 0) =
          s.handler a :: (l.map s.handler).filter (· ≠ 0) := by
        rw [← registered, List.map_cons, List.filter_cons_of_pos]
        exact decide_eq_true hdead
      rw [if_pos hdead, if_pos hdead, wp_bind, wp_callHandler, wp_bind, wp_modify, wp_bind, wp_get,
        hfilter, deliver]
      cases hends : ends 0 with
      | true =>
        refine handleActions_terminated vector code _ ?_ (by omega) ?_
        · exact Bool.or_eq_true_iff.mpr (.inl running)
        · exact ⟨⟨same.table, same.link, same.handler⟩, _, _, rfl⟩
      | false =>
        refine wp_mono (ih _ (l.map s.handler) ?_ ?_ running quiet (by omega)) ?_ fun _ he => he
        · exact hrest _ ⟨same.table, same.link, same.handler⟩
        · exact handlers_same l ⟨same.table, same.link, same.handler⟩
        · intro _ t hpost
          obtain ⟨hsame, actions, terminate, ht⟩ := hpost
          refine ⟨⟨hsame.table, fun x => (hsame.link x).trans (same.link x),
            fun x => (hsame.handler x).trans (same.handler x)⟩, actions, terminate, ?_⟩
          rw [ht, if_neg Bool.false_ne_true, List.map_cons, List.append_cons _ _ (List.map _ _)]
          rfl

/-- The action `n` behind `previous` is taken off its list. -/
def State.unlinked (s : State) (previous n : UInt32) : State :=
  { s.setAction previous { s.actions previous with next := (s.actions n).next } with
    edits := s.edits ++ [s.enabled] }

/-- **The loop of `_interrupt_del_isr`.** -/
theorem removeAction_spec {fuel : Nat} (handler : UInt32) (state : Bool)
    (path : Path s.link (some a) (a :: l) none) (hfuel : l.length < fuel) :
    wp (removeAction handler state fuel a (s.actions a).next)
      (fun r t =>
        (handler ∉ l.map s.handler ∧ r = .notFound ∧ t = { s with enabled := state }) ∨
        ∃ l₁ n l₂, l = l₁ ++ n :: l₂ ∧ handler ∉ l₁.map s.handler ∧ s.handler n = handler ∧
          r = .success ∧
          t = { s.unlinked ((a :: l₁).getLast (List.cons_ne_nil a l₁)) n with enabled := true })
      E s := by
  induction l generalizing a fuel with
  | nil =>
    obtain ⟨fuel, rfl⟩ := Nat.exists_eq_add_one_of_ne_zero (by omega : fuel ≠ 0)
    have hend : (s.actions a).next = 0 := pointer_eq_none.mp path.2
    rw [removeAction, if_neg (not_not.mpr hend), wp_bind, wp_interruptEnable, wp_pure]
    exact .inl ⟨List.not_mem_nil, rfl, rfl⟩
  | cons b l ih =>
    obtain ⟨fuel, rfl⟩ := Nat.exists_eq_add_one_of_ne_zero (by omega : fuel ≠ 0)
    have hrest : Path s.link (s.link a) (b :: l) none := path.2
    obtain ⟨hne, hnext⟩ := pointer_eq_some.mp hrest.1
    rw [List.length_cons] at hfuel
    rw [removeAction, if_pos hne, wp_bind, wp_get, hnext]
    by_cases hfound : (s.actions b).handler = handler
    · rw [if_pos hfound, wp_bind, wp_setNext]
      exact .inr ⟨[], b, l, rfl, List.not_mem_nil, hfound, rfl, rfl⟩
    · rw [if_neg hfound]
      rw [hrest.1] at hrest
      refine wp_mono (ih hrest (by omega)) ?_ fun _ he => he
      intro r t hpost
      have hother : handler ≠ s.handler b := fun h => hfound h.symm
      rcases hpost with ⟨hnot, hr, ht⟩ | ⟨l₁, n, l₂, hl, hnot, hn, hr, ht⟩
      · refine .inl ⟨?_, hr, ht⟩
        rw [List.map_cons, List.mem_cons]
        exact not_or.mpr ⟨hother, hnot⟩
      · refine .inr ⟨b :: l₁, n, l₂, by rw [hl]; rfl, ?_, hn, hr, ?_⟩
        · rw [List.map_cons, List.mem_cons]
          exact not_or.mpr ⟨hother, hnot⟩
        · rw [List.getLast_cons (List.cons_ne_nil b l₁)]
          exact ht

/-! ## Editing a list -/

/-- Every list is left alone. -/
theorem Lists.same (h : Lists s nodes) (same : SameLists s t) : Lists t nodes := by
  refine ⟨fun v => ?_, fun v => ?_, ?_⟩
  · rw [same.table]
    exact (h.path v).congr fun x _ => same.link x
  · rw [same.table, same.handler]
    exact h.sentinel v
  · rw [same.table]
    exact h.apart

/-- The list of one vector gets a new member. -/
theorem Lists.add {last : UInt32} (h : Lists s nodes)
    (hlast : last = (s.vectorTable v :: nodes v).getLast (List.cons_ne_nil _ _))
    (new : ∀ w, a ∉ s.vectorTable w :: nodes w) (table : t.vectorTable = s.vectorTable)
    (link_last : t.link last = some a) (link_new : t.link a = none)
    (link : ∀ x, x ≠ last → x ≠ a → t.link x = s.link x)
    (handler : ∀ x, x ≠ a → t.handler x = s.handler x) :
    Lists t (Function.update nodes v (nodes v ++ [a])) := by
  have hmem : last ∈ s.vectorTable v :: nodes v := by
    rw [hlast]
    exact List.getLast_mem _
  have hrow (w : Fin 256) (x : UInt32)
      (hx : x ∈ s.vectorTable w :: Function.update nodes v (nodes v ++ [a]) w) :
      x ∈ s.vectorTable w :: nodes w ∨ w = v ∧ x = a := by
    by_cases hw : w = v
    · subst hw
      rw [Function.update_self, ← List.cons_append, List.mem_append, List.mem_singleton] at hx
      exact hx.imp_right fun hxa => ⟨rfl, hxa⟩
    · rw [Function.update_of_ne hw] at hx
      exact .inl hx
  refine ⟨fun w => ?_, fun w => ?_, ?_⟩
  · rw [table]
    by_cases hw : w = v
    · subst hw
      have hnone : s.link last = none := by
        rw [hlast]
        exact (h.path w).next_getLast _
      rw [Function.update_self, ← List.cons_append]
      refine (h.path w).extend hmem hnone link_last link_new fun x hx hne => link x hne ?_
      intro hxa
      exact new w (hxa ▸ hx)
    · rw [Function.update_of_ne hw]
      refine (h.path w).congr fun x hx => link x ?_ ?_
      · intro hxl
        exact h.apart w v hw x hx (hxl ▸ hmem)
      · intro hxa
        exact new w (hxa ▸ hx)
  · rw [table, handler]
    · exact h.sentinel w
    · intro hw
      exact new w (hw ▸ List.mem_cons_self)
  · rw [table]
    intro w w' hne x hx hx'
    rcases hrow w x hx with hin | ⟨hw, hxa⟩
    · rcases hrow w' x hx' with hin' | ⟨-, hxa⟩
      · exact h.apart w w' hne x hin hin'
      · exact new w (hxa ▸ hin)
    · rcases hrow w' x hx' with hin' | ⟨hw', -⟩
      · exact new w' (hxa ▸ hin')
      · exact hne (hw.trans hw'.symm)

/-- The list of one vector loses a member. -/
theorem Lists.remove {l₁ l₂ : List UInt32} {n previous : UInt32} (h : Lists s nodes)
    (hsplit : nodes v = l₁ ++ n :: l₂)
    (hprevious : previous = (s.vectorTable v :: l₁).getLast (List.cons_ne_nil _ _))
    (table : t.vectorTable = s.vectorTable) (link_previous : t.link previous = s.link n)
    (link : ∀ x, x ≠ previous → t.link x = s.link x) (handler : ∀ x, t.handler x = s.handler x) :
    Lists t (Function.update nodes v (l₁ ++ l₂)) := by
  have hlast : (s.vectorTable v :: l₁).getLast? = some previous := by
    rw [hprevious]
    exact List.getLast?_eq_some_getLast _
  have hmem : previous ∈ s.vectorTable v :: nodes v := by
    rw [hsplit, ← List.cons_append]
    exact List.mem_append_left _ (List.mem_of_getLast? hlast)
  have hrow (w : Fin 256) (x : UInt32)
      (hx : x ∈ s.vectorTable w :: Function.update nodes v (l₁ ++ l₂) w) :
      x ∈ s.vectorTable w :: nodes w := by
    by_cases hw : w = v
    · subst hw
      rw [Function.update_self, ← List.cons_append, List.mem_append] at hx
      rw [hsplit, ← List.cons_append]
      exact List.mem_append.mpr (hx.imp_right (List.mem_cons_of_mem n))
    · rwa [Function.update_of_ne hw] at hx
  refine ⟨fun w => ?_, fun w => ?_, ?_⟩
  · rw [table]
    by_cases hw : w = v
    · subst hw
      have hpath := h.path w
      rw [hsplit, ← List.cons_append] at hpath
      have hshort : Path t.link (if s.vectorTable w :: l₁ = [] then s.link n
          else some (s.vectorTable w)) (s.vectorTable w :: l₁ ++ l₂) none := by
        refine hpath.erase (fun x _ hx => link x fun hxp => hx (hxp ▸ hlast)) fun x hx => ?_
        rw [hlast] at hx
        rw [← Option.some.inj hx]
        exact link_previous
      rw [Function.update_self]
      rwa [if_neg (List.cons_ne_nil _ _)] at hshort
    · rw [Function.update_of_ne hw]
      refine (h.path w).congr fun x hx => link x fun hxp => ?_
      exact h.apart w v hw x hx (hxp ▸ hmem)
  · rw [table, handler]
    exact h.sentinel w
  · rw [table]
    intro w w' hne x hx hx'
    exact h.apart w w' hne x (hrow w x hx) (hrow w' x hx')

end Cumulonimbus.Irqs
