import Cumulonimbus.IrqRegistry

/-!
# The interrupt flag

The functions of `irqs.c` save the interrupt flag, clear it, and put it back before they
return.  `_interrupt_del_isr` puts it back if it finds nothing; if it finds the handler it
switches interrupts on, whatever its caller had.
-/

namespace Cumulonimbus.Irqs

open Exec Linked

attribute [local irreducible] wp

variable {s t : State} {E : Fault → Prop} {nodes : Fin 256 → List UInt32} {v : Fin 256}
  {a : UInt32}

/-- The functions that switch interrupts off for a while. -/
inductive Request
  | init
  | swapIdt (basic : Bool)
  | wait (timeoutMs handler : UInt32) (arrivals : Arrivals)
  | add (handler : UInt32) (vector : Int32)
  | del (handler : UInt32) (vector : Int32)

def Request.run : Request → Irq Unit
  | .init => do
    let _ ← interruptInit
  | .swapIdt basic => interruptSwapIdt basic
  | .wait timeoutMs handler arrivals => do
    let _ ← interruptWait timeoutMs handler arrivals
  | .add handler vector => do
    let _ ← interruptAddIsr handler vector
  | .del handler vector => do
    let _ ← interruptDelIsr handler vector

/-- The interrupt flag is as before, and was off whenever a link of a list was written. -/
structure FlagKept (s t : State) : Prop where
  enabled : t.enabled = s.enabled
  edits : ∃ new, t.edits = s.edits ++ new ∧ ∀ flag ∈ new, flag = false

/-- The request returns, with the interrupt flag kept. -/
def Request.KeepsFlag (c : Request) (s : State) : Prop :=
  wp c.run (fun _ t => FlagKept s t) (fun _ => False) s

/-- A registered handler is deleted while interrupts are off. -/
def Request.OpensSection (s : State) (nodes : Fin 256 → List UInt32) : Request → Prop
  | .del handler vector =>
    s.enabled = false ∧ ∃ v, vectorOf vector = some v ∧ handler ∈ (nodes v).map s.handler
  | _ => False

/-- Where neither the flag nor a list has been touched. -/
theorem FlagKept.of_eq (enabled : t.enabled = s.enabled) (edits : t.edits = s.edits) :
    FlagKept s t :=
  ⟨enabled, [], by rw [edits, List.append_nil], fun _ h => absurd h List.not_mem_nil⟩

/-- The links that the initialization writes. -/
theorem initVectors_edits (l : List (Fin 256)) :
    wp (forM l initVector)
      (fun _ t => t.enabled = s.enabled ∧ t.edits = s.edits ++ List.replicate l.length s.enabled)
      E s := by
  induction l generalizing s with
  | nil =>
    rw [List.forM_nil, wp_pure, List.length_nil, List.replicate_zero, List.append_nil]
    exact ⟨rfl, rfl⟩
  | cons i l ih =>
    rw [List.forM_cons, wp_bind]
    refine wp_initVector i ?_
    refine wp_mono ih ?_ fun _ he => he
    intro _ t hpost
    refine ⟨hpost.1, ?_⟩
    rw [hpost.2, List.length_cons, List.replicate_succ, List.append_cons]
    rfl

/-- `_interrupt_init` puts the flag back. -/
theorem interruptInit_keepsFlag : Request.init.KeepsFlag s := by
  rw [Request.KeepsFlag, Request.run, wp_bind, interruptInit, wp_bind, wp_interruptIsEnabled,
    wp_bind, wp_interruptEnable]
  refine wp_seq (initVectors_edits _) ?_
  intro _ t hpost
  rw [wp_bind, wp_installAll, wp_bind, wp_interruptEnable, wp_pure, wp_pure]
  refine ⟨rfl, _, hpost.2, ?_⟩
  intro flag hflag
  exact List.eq_of_mem_replicate hflag

/-- So does a wait. -/
theorem interruptWait_keepsFlag (timeoutMs handler : UInt32) (arrivals : Arrivals) :
    (Request.wait timeoutMs handler arrivals).KeepsFlag s := by
  rw [Request.KeepsFlag, Request.run]
  refine wp_seq (interruptWait_spec timeoutMs handler arrivals) ?_
  intro _ t hpost
  obtain ⟨u, ⟨count, handled, called, terminate, outs, -, rfl⟩, rfl⟩ := hpost
  rw [wp_pure]
  exact .of_eq rfl rfl

/-- A list still ends when one of its actions is written over by the allocator. -/
theorem path_setAction (h : Lists s nodes) (v : Fin 256) (a handler : UInt32) :
    ∃ l, Path (s.setAction a ⟨handler, 0, 0⟩).link (some (s.vectorTable v))
      (s.vectorTable v :: l) none := by
  obtain ⟨l, hl⟩ :
      ∃ l, Path (s.setAction a ⟨handler, 0, 0⟩).link (some (s.vectorTable v)) l none := by
    refine (h.path v).cut (p := a) ?_ fun x _ hx => ?_
    · rw [setAction_link, if_pos rfl]
      rfl
    · rw [setAction_link, if_neg hx]
  cases l with
  | nil => cases hl
  | cons b l =>
    obtain rfl := Option.some.inj hl.1
    exact ⟨l, hl⟩

/-- So does a registration. -/
theorem interruptAddIsr_keepsFlag (h : Lists s nodes) (handler : UInt32) (vector : Int32) :
    (Request.add handler vector).KeepsFlag s := by
  rw [Request.KeepsFlag, Request.run]
  cases hv : vectorOf vector with
  | none =>
    rw [interruptAddIsr, hv]
    dsimp only
    rw [wp_bind, wp_pure, wp_pure]
    exact .of_eq rfl rfl
  | some v =>
    by_cases hnull : Alignment.qword.apply s.kallocBase = 0
    · rw [interruptAddIsr, hv]
      dsimp only
      rw [wp_bind, wp_bind, wp_kallocAligned, if_pos hnull, wp_pure, wp_pure]
      exact .of_eq rfl rfl
    · obtain ⟨l, hl⟩ := path_setAction h v (Alignment.qword.apply s.kallocBase) handler
      refine wp_seq (interruptAddIsr_spec hv rfl hnull hl) ?_
      intro _ t hpost
      obtain ⟨-, rfl⟩ := hpost
      rw [wp_pure]
      exact ⟨rfl, [false], rfl, fun flag hflag => List.mem_singleton.mp hflag⟩

/-- **Deleting.** -/
theorem interruptDelIsr_flag (h : Lists s nodes) {handler : UInt32} {vector : Int32} :
    (Request.del handler vector).KeepsFlag s ↔
      ¬ (Request.del handler vector).OpensSection s nodes := by
  rw [Request.KeepsFlag, Request.run]
  cases hv : vectorOf vector with
  | none =>
    rw [interruptDelIsr, hv]
    dsimp only
    rw [wp_bind, wp_pure, wp_pure]
    refine iff_of_true (.of_eq rfl rfl) ?_
    intro hopens
    obtain ⟨-, v, hv', -⟩ := hopens
    rw [hv] at hv'
    cases hv'
  | some v =>
    have hspec : wp (do let _ ← interruptDelIsr handler vector)
        (fun _ t => if handler ∈ (nodes v).map s.handler then
            t.enabled = true ∧ t.edits = s.edits ++ [false]
          else t = s) (fun _ => False) s := by
      refine wp_seq (interruptDelIsr_spec hv (h.path v)) ?_
      intro r t hpost
      rw [wp_pure]
      rcases hpost with ⟨hnot, -, rfl⟩ | ⟨l₁, n, l₂, hsplit, -, hn, -, rfl⟩
      · rw [if_neg hnot]
      · rw [if_pos]
        · exact ⟨rfl, rfl⟩
        · rw [hsplit, ← hn]
          exact List.mem_map_of_mem (by simp)
    constructor
    · intro hkeeps hopens
      obtain ⟨hoff, v', hv', hmem⟩ := hopens
      obtain rfl : v = v' := Option.some.inj (hv.symm.trans hv')
      obtain ⟨_, t, -, hkept, ht⟩ := wp_returns (wp_mono (wp_and hkeeps hspec)
        (fun _ _ hpost => hpost) fun _ he => he.1)
      rw [if_pos hmem] at ht
      have hflag := hkept.enabled
      rw [ht.1, hoff] at hflag
      cases hflag
    · intro hnot
      refine wp_mono hspec ?_ fun _ he => he
      intro _ t ht
      split at ht
      case isTrue hmem =>
        have hon : s.enabled = true := by
          by_contra hoff
          exact hnot ⟨Bool.eq_false_iff.mpr hoff, v, hv, hmem⟩
        exact ⟨ht.1.trans hon.symm, [false], ht.2, fun flag hflag => List.mem_singleton.mp hflag⟩
      case isFalse =>
        rw [ht]
        exact .of_eq rfl rfl

/-- Set the module up, register a handler, and set the flag. -/
def oneHandler (on : Bool) : Irq Unit := do
  let _ ← interruptInit
  let _ ← interruptAddIsr 0x1000 0x20
  interruptEnable on

/-- The example has one handler. -/
theorem oneHandler_lists (on : Bool) :
    wp (oneHandler on)
      (fun _ t => t.enabled = on ∧ ∃ nodes, Lists t nodes ∧ (nodes 0x20).map t.handler = [0x1000])
      (fun _ => False) .initial := by
  rw [oneHandler]
  refine wp_seq (interruptInit_holds (s := .initial) rfl rfl (by decide) (by decide)) ?_
  intro _ t hpost
  obtain ⟨ht, hle, hstarted⟩ := hpost
  have hfits : t.kallocBase.toNat + actionNeed < 0x100000000 :=
    lt_of_le_of_lt (Nat.add_le_add_right hle _) (by decide)
  refine wp_seq (interruptAddIsr_holds (v := 0x20) ht (by decide) hstarted hfits) ?_
  intro _ u hpost
  obtain ⟨-, ⟨nodes, ready, hreg⟩, -⟩ := hpost
  rw [wp_interruptEnable]
  exact ⟨rfl, nodes, ready.lists.same ⟨rfl, fun _ => rfl, fun _ => rfl⟩, hreg 0x20⟩

/-- **Interrupt bookkeeping restores the interrupt flag**, unless a handler that is registered is
deleted while interrupts are off. -/
theorem keepsFlag_iff (h : Lists s nodes) (c : Request) :
    c.KeepsFlag s ↔ ¬ c.OpensSection s nodes := by
  cases c with
  | init => exact iff_of_true interruptInit_keepsFlag id
  | swapIdt basic =>
    rw [Request.KeepsFlag, Request.run, wp_interruptSwapIdt]
    exact iff_of_true (.of_eq rfl rfl) id
  | wait timeoutMs handler arrivals =>
    exact iff_of_true (interruptWait_keepsFlag timeoutMs handler arrivals) id
  | add handler vector => exact iff_of_true (interruptAddIsr_keepsFlag h handler vector) id
  | del handler vector => exact interruptDelIsr_flag h

/-- With a handler registered and interrupts on, it may be deleted and another one added; with
interrupts off, one that is not registered may be deleted. -/
theorem keepsFlag_registered :
    wp (oneHandler true)
      (fun _ t => (Request.del 0x1000 0x20).KeepsFlag t ∧ (Request.add 0x2000 0x20).KeepsFlag t)
      (fun _ => False) .initial ∧
    wp (oneHandler false) (fun _ t => (Request.del 0x2000 0x20).KeepsFlag t) (fun _ => False)
      .initial := by
  constructor
  · refine wp_mono (oneHandler_lists true) ?_ fun _ he => he
    intro _ t hpost
    obtain ⟨hon, nodes, lists, -⟩ := hpost
    refine ⟨(keepsFlag_iff lists _).mpr fun hopens => ?_, (keepsFlag_iff lists _).mpr id⟩
    exact Bool.false_ne_true (hopens.1.symm.trans hon)
  · refine wp_mono (oneHandler_lists false) ?_ fun _ he => he
    intro _ t hpost
    obtain ⟨-, nodes, lists, hone⟩ := hpost
    refine (keepsFlag_iff lists _).mpr fun hopens => ?_
    obtain ⟨-, v, hv, hmem⟩ := hopens
    obtain rfl : (0x20 : Fin 256) = v := Option.some.inj hv
    rw [hone] at hmem
    exact absurd hmem (by decide)

/-- A handler deleted with interrupts off leaves them on. -/
theorem del_switches_on :
    wp (oneHandler false)
      (fun _ t => t.enabled = false ∧ ¬ (Request.del 0x1000 0x20).KeepsFlag t)
      (fun _ => False) .initial := by
  refine wp_mono (oneHandler_lists false) ?_ fun _ he => he
  intro _ t hpost
  obtain ⟨hoff, nodes, lists, hone⟩ := hpost
  rw [interruptDelIsr_flag lists]
  refine ⟨hoff, not_not_intro ⟨hoff, 0x20, by decide, ?_⟩⟩
  rw [hone]
  exact List.mem_singleton_self _

end Cumulonimbus.Irqs
