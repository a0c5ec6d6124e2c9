import Mathlib.Data.Fintype.Card
import Cumulonimbus.Parents

/-!
# PCBs and stacks

PCBs and stacks are two pools of the same size.  `fork` takes one of each, and what a
process leaves behind goes back on three paths: with the parent that waits for it, with
the `wait` that collects the zombie, and in the dispatcher.  On all of them the PCB and its
stack go back together, so every stack is free or has one owner, the pools have the same
number of free entries, and `fork` never finds a PCB without finding a stack
(`stacks_owned`).
-/

namespace Cumulonimbus

open Exec

/-- If the entries outside two lists correspond one to one, and there are equally many
candidates for both, the lists are equally long. -/
theorem length_eq_of_owners {α β : Type} [Fintype α] [Fintype β] [DecidableEq α]
    [DecidableEq β] (card : Fintype.card α = Fintype.card β) {l : List α} {l' : List β}
    (nodup : l.Nodup) (nodup' : l'.Nodup) (own : α → Option β)
    (owned : ∀ p, p ∉ l → ∃ s, own p = some s ∧ s ∉ l')
    (apart : ∀ p q s, p ∉ l → q ∉ l → own p = some s → own q = some s → p = q)
    (cover : ∀ s, s ∉ l' → ∃ p, p ∉ l ∧ own p = some s) : l.length = l'.length := by
  have outside : ((Finset.univ : Finset α).filter (· ∉ l)).card =
      ((Finset.univ : Finset β).filter (· ∉ l')).card := by
    choose f hf using fun p : { p // p ∉ l } => owned p.1 p.2
    refine Finset.card_bij (fun p hp => f ⟨p, (Finset.mem_filter.mp hp).2⟩) ?_ ?_ ?_
    · intro p hp
      simpa using (hf ⟨p, (Finset.mem_filter.mp hp).2⟩).2
    · intro p hp q hq heq
      have hp' := (Finset.mem_filter.mp hp).2
      have hq' := (Finset.mem_filter.mp hq).2
      exact apart p q _ hp' hq' (hf ⟨p, hp'⟩).1 (heq ▸ (hf ⟨q, hq'⟩).1)
    · intro s hs
      obtain ⟨p, hp, hps⟩ := cover s (Finset.mem_filter.mp hs).2
      refine ⟨p, by simpa using hp, ?_⟩
      exact Option.some_inj.mp ((hf ⟨p, hp⟩).1.symm.trans hps)
  have inside : ∀ {γ : Type} [Fintype γ] [DecidableEq γ] {m : List γ}, m.Nodup →
      m.length + ((Finset.univ : Finset γ).filter (· ∉ m)).card = Fintype.card γ := by
    intro γ _ _ m hm
    have hfilter : (Finset.univ : Finset γ).filter (· ∈ m) = m.toFinset := by
      ext x
      simp
    rw [← List.toFinset_card_of_nodup hm, ← hfilter, Finset.card_filter_add_card_filter_not,
      Finset.card_univ]
  have hl := inside nodup
  have hl' := inside nodup'
  omega

/-- Each allocated PCB has a stack of its own that is not free, every stack is free or has
exactly one owner, and there are as many free PCBs as free stacks. -/
structure State.StacksOwned (σ : State) : Prop where
  owned : ∀ p, p ∉ (σ.queues .pcbAvail).members →
    ∃ s, (σ.pcbs p).stack = some s ∧ s ∉ σ.stackAvail.members
  apart : ∀ p q s, p ∉ (σ.queues .pcbAvail).members → q ∉ (σ.queues .pcbAvail).members →
    (σ.pcbs p).stack = some s → (σ.pcbs q).stack = some s → p = q
  owner : ∀ s, Xor (s ∈ σ.stackAvail.members)
    (∃! p, p ∉ (σ.queues .pcbAvail).members ∧ (σ.pcbs p).stack = some s)
  counts : (σ.queues .pcbAvail).items.length = σ.stackAvail.items.length

variable {σ σ₀ : State} {a c : Life} {b : Boot} {tr : List (State × Input)}

/-! ## What moves keep -/

namespace Life

/-- A PCB has a stack exactly when it is allocated, and every stack is free or has an
owner. -/
structure Owned (a : Life) : Prop where
  stack : ∀ p, (a.proc p).stack = none ↔ a.Free p
  stocked : a.Stocked

/-- Nothing but the places outside the free list has changed. -/
theorem Owned.congr (h : a.Owned) (free : ∀ p, c.Free p ↔ a.Free p)
    (stack : ∀ p, (c.proc p).stack = (a.proc p).stack) (pool : c.freeStack = a.freeStack) :
    c.Owned where
  stack p := by rw [stack, free, h.stack]
  stocked s := by
    rw [pool]
    rcases h.stocked s with hs | ⟨p, hp⟩
    · exact Or.inl hs
    · exact Or.inr ⟨p, by rw [stack, hp]⟩

/-- One process outside the free list moves to a place outside the free list. -/
theorem Owned.relocate (h : a.Owned) {p : PcbId} (old : ¬ a.Free p) (new : ¬ c.Free p)
    (others : ∀ q, q ≠ p → c.place q = a.place q)
    (stack : ∀ q, (c.proc q).stack = (a.proc q).stack) (pool : c.freeStack = a.freeStack) :
    c.Owned := by
  refine h.congr (fun q => ?_) stack pool
  by_cases hq : q = p
  · rw [hq]
    exact iff_of_false new old
  · rw [Free, Free, others q hq]

/-- A PCB and its stack go back together. -/
theorem Owned.release (h : a.Owned) (p : PcbId) : (a.release p).Owned where
  stack q := by
    by_cases hq : q = p
    · simp [hq, Free, Pcb.proc]
    · simpa [hq, Free] using h.stack q
  stocked s := by
    rw [release_freeStack]
    rcases h.stocked s with hs | ⟨q, hq⟩
    · exact Or.inl (Or.inl hs)
    · by_cases hqp : q = p
      · exact Or.inl (Or.inr (hqp ▸ hq))
      · exact Or.inr ⟨q, by simp [hqp, hq]⟩

/-- If there is a free PCB, there is a free stack. -/
theorem Owned.exists_free (h : a.Owned) {p : PcbId} (hp : a.Free p) :
    ∃ s, a.freeStack s := by
  by_contra hnone
  -- then every stack has an owner, and none of the owners is `p`
  have howner : ∀ s : StackId, ∃ q, (a.proc q).stack = some s := fun s =>
    (h.stocked s).resolve_left fun hs => hnone ⟨s, hs⟩
  choose f hf using howner
  have hinj : Function.Injective f := by
    intro s t heq
    exact Option.some_inj.mp ((hf s).symm.trans (heq ▸ hf t))
  obtain ⟨s, hs⟩ := (Finite.injective_iff_surjective (f := f)).mp hinj p
  have hnil := (h.stack p).mpr hp
  rw [← hs, hf s] at hnil
  cases hnil

end Life

/-- **Every move keeps the stacks owned.** -/
theorem Move.owned {m : Move} (h : a.Owned) (enabled : m.Enabled a) : (m.apply a).Owned := by
  cases m with
  | ready p i | sleep p key | blockRead p =>
    refine h.relocate (p := p) enabled.not_free (by simp [Move.apply, Life.Free])
      (fun q hq => by simp [Move.apply, hq]) (fun q => ?_) rfl
    by_cases hq : q = p <;> simp [Move.apply, hq]
  | wake p i =>
    have hold : ¬ a.Free p := by
      obtain ⟨key, hkey | hkey⟩ := enabled <;> simp [Life.Free, hkey]
    refine h.relocate (p := p) hold (by simp [Move.apply, Life.Free])
      (fun q hq => by simp [Move.apply, hq]) (fun q => ?_) rfl
    by_cases hq : q = p <;> simp [Move.apply, hq]
  | blockWait p w =>
    refine h.relocate (p := p) enabled.1.not_free (by simp [Move.apply, Life.Free])
      (fun q hq => by simp [Move.apply, hq]) (fun q => ?_) rfl
    by_cases hq : q = p <;> simp [Move.apply, hq]
  | zombie p =>
    refine h.relocate (p := p) enabled.1.not_free (by simp [Move.apply, Life.Free])
      (fun q hq => by simp [Move.apply, hq]) (fun q => ?_) rfl
    by_cases hq : q = p <;> simp [Move.apply, hq]
  | kill p =>
    refine h.congr (fun q => Iff.rfl) (fun q => ?_) rfl
    by_cases hq : q = p <;> simp [Move.apply, hq]
  | fork p f s i =>
    obtain ⟨-, hfree, hs⟩ := enabled
    refine ⟨fun q => ?_, fun t => ?_⟩
    · by_cases hq : q = f
      · simp [Move.apply, Life.Free, hq]
      · simpa [Move.apply, Life.Free, hq] using h.stack q
    · by_cases ht : t = s
      · exact Or.inr ⟨f, by simp [Move.apply, ht]⟩
      · rcases h.stocked t with hfree' | ⟨q, hq⟩
        · exact Or.inl ⟨hfree', ht⟩
        · have hqf : q ≠ f := by
            intro heq
            rw [heq, (h.stack f).mpr hfree] at hq
            cases hq
          exact Or.inr ⟨q, by simp [Move.apply, hqf, hq]⟩
  | recycle f =>
    have hnone := (h.stack f).mpr enabled
    refine h.congr (fun q => ?_) (fun q => ?_) rfl
    · by_cases hq : q = f
      · rw [hq]
        exact iff_of_true ⟨0, by simp [Move.apply]⟩ enabled
      · simp [Move.apply, Life.Free, hq]
    · by_cases hq : q = f
      · simp [Move.apply, hq, hnone, Pcb.proc]
      · simp [Move.apply, hq]
  | reparent p =>
    refine h.congr (fun q => Iff.rfl) (fun q => ?_) rfl
    simp only [Move.apply]
    split <;> rfl
  | deliver p q r w =>
    obtain ⟨hruns, -, -, hr, -⟩ := enabled
    have hrp : r ≠ p := by
      intro heq
      rw [heq, hruns.place] at hr
      cases hr
    refine (h.release p).relocate (p := r) (by simp [Life.Free, hrp, hr])
      (by simp [Move.apply, Life.Free]) (fun x hx => by simp [Move.apply, hx]) (fun x => ?_) rfl
    by_cases hx : x = r <;> simp [Move.apply, hx]
  | reap q r w =>
    exact (h.release r).congr (fun _ => Iff.rfl) (fun _ => rfl) rfl
  | take p =>
    obtain ⟨-, ⟨i, key, hplace⟩, -⟩ := enabled
    refine h.relocate (p := p) (by simp [Life.Free, hplace]) (by simp [Move.apply, Life.Free])
      (fun q hq => by simp [Move.apply, hq]) (fun q => ?_) rfl
    by_cases hq : q = p <;> simp [Move.apply, hq]
  | takeKilled p =>
    obtain ⟨-, ⟨i, key, hplace⟩, -⟩ := enabled
    exact h.relocate (p := p) (by simp [Life.Free, hplace]) (by simp [Move.apply, Life.Free])
      (fun q hq => by simp [Move.apply, hq]) (fun _ => rfl) rfl
  | abandon p =>
    exact h.relocate (p := p) enabled.not_free (by simp [Move.apply, Life.Free])
      (fun q hq => by simp [Move.apply, hq]) (fun _ => rfl) rfl
  | write w => exact h.congr (fun _ => Iff.rfl) (fun _ => rfl) rfl

theorem Life.Booted.owned {p : PcbId} (h : a.Booted b p) (stocked : a.Stocked) : a.Owned := by
  refine ⟨fun q => ?_, stocked⟩
  by_cases hq : q = p
  · obtain ⟨s, hs⟩ := h.proc
    rw [hq, hs]
    exact iff_of_false (by simp) h.runs.not_free
  · rw [(h.others q hq).2]
    exact iff_of_true rfl (h.others q hq).1

/-! ## What it says of the kernel -/

theorem Life.Owned.stacksOwned (h : a.Owned) (hrel : Rel σ a) (apart : a.Apart) :
    σ.StacksOwned := by
  have hstack : ∀ s, s ∈ σ.stackAvail.members ↔ a.freeStack s := hrel.placed.stack
  have howned : ∀ p, p ∉ (σ.queues .pcbAvail).members →
      ∃ s, (σ.pcbs p).stack = some s ∧ s ∉ σ.stackAvail.members := by
    intro p hp
    rw [← hrel.free_iff, ← h.stack] at hp
    obtain ⟨s, hs⟩ := Option.ne_none_iff_exists'.mp hp
    refine ⟨s, by rw [hrel.stack, hs], ?_⟩
    rw [hstack]
    exact apart.held p s hs
  have hone : ∀ p q s, (σ.pcbs p).stack = some s → (σ.pcbs q).stack = some s → p = q := by
    intro p q s hp hq
    rw [hrel.stack] at hp hq
    exact apart.own p q s hp hq
  have hcover : ∀ s, s ∉ σ.stackAvail.members →
      ∃ p, p ∉ (σ.queues .pcbAvail).members ∧ (σ.pcbs p).stack = some s := by
    intro s hs
    rw [hstack] at hs
    obtain ⟨p, hp⟩ := (h.stocked s).resolve_left hs
    refine ⟨p, ?_, by rw [hrel.stack, hp]⟩
    rw [← hrel.free_iff, ← h.stack, hp]
    simp
  refine ⟨howned, fun p q s _ _ hp hq => hone p q s hp hq, fun s => ?_, ?_⟩
  · by_cases hs : s ∈ σ.stackAvail.members
    · refine Or.inl ⟨hs, ?_⟩
      intro ⟨p, ⟨hp, hps⟩, _⟩
      obtain ⟨t, ht, hfree⟩ := howned p hp
      rw [hps, Option.some_inj] at ht
      exact hfree (ht ▸ hs)
    · obtain ⟨p, hp, hps⟩ := hcover s hs
      exact Or.inr ⟨⟨p, ⟨hp, hps⟩, fun q hq => hone q p s hq.2 hps⟩, hs⟩
  · have hlen := length_eq_of_owners (by simp) (hrel.placed.nodup .pcbAvail)
      hrel.placed.stackNodup (fun p => (σ.pcbs p).stack) howned
      (fun p q s _ _ => hone p q s) hcover
    simpa [Queue.members] using hlen

/-- A stack comes off the free list where a PCB did. -/
theorem Life.Owned.stackAlloc_succeeds (h : a.Owned) (hrel : Rel σ a)
    {child : PcbId} {τ : State} (alloc : pcbAlloc σ = .ok (.ok child, τ)) :
    ∃ s υ, stackAlloc τ = .ok (.ok s, υ) := by
  have hwp : wp pcbAlloc (fun r τ => (r = .error .empty ∧ τ = σ ∧ (σ.queues .pcbAvail).qEmpty) ∨
      ∃ p key, r = .ok p ∧ a.place p = .queued .pcbAvail key ∧ Rel τ (a.move p .limbo) ∧
        τ.pcbs = σ.pcbs ∧ Frame σ τ ∧ Shrunk σ .pcbAvail τ) (fun _ => False) σ := qRemove_rel hrel
  rcases wp_ok hwp alloc with ⟨hbad, _⟩ | ⟨p, key, _, hplace, hτ, _⟩
  · cases hbad
  obtain ⟨r, υ, hrun, hpost⟩ := wp_returns (stackAlloc_spec hτ.placed)
  rcases hpost with ⟨_, _, _, hnone⟩ | ⟨s, n, q, rfl, _⟩
  · obtain ⟨s, hs⟩ := h.exists_free ⟨key, hplace⟩
    exact absurd hs (hnone s)
  · exact ⟨s, υ, hrun⟩

/-- The life behind a state that a run leads to. -/
theorem run_owned (boot : BootState b σ₀) (run : AnyRun σ₀ tr σ) :
    ∃ a : Life, Rel σ a ∧ a.Sound ∧ a.Resting σ.current ∧ a.Owned := by
  obtain ⟨a₀, hrel₀, hboot, hstocked⟩ := boot.stocked
  exact KernelRun.carry (I := Life.Owned) hrel₀ hboot.sound hboot.resting (hboot.owned hstocked)
    (fun _ _ _ _ _ _ ho enabled _ => Move.owned ho enabled) run

/-- **PCBs and stacks are owned one to one** at every return to user mode, and in the next
entry a `fork` that gets a PCB gets a stack. -/
theorem stacks_owned (boot : BootState b σ₀) (run : AnyRun σ₀ tr σ) :
    σ.StacksOwned ∧
      ∀ (u : UserMem) (child : PcbId) (τ : State), pcbAlloc (σ.enter u) = .ok (.ok child, τ) →
        ∃ s υ, stackAlloc τ = .ok (.ok s, υ) := by
  obtain ⟨a, hrel, hsound, -, howned⟩ := run_owned boot run
  refine ⟨howned.stacksOwned hrel hsound.toApart, ?_⟩
  intro u child τ alloc
  have henter : Rel (σ.enter u) (a.entered σ ⟨u, .clock⟩) := enter_rel (i := ⟨u, .clock⟩) hrel
  exact Life.Owned.stackAlloc_succeeds (a := a.entered σ ⟨u, .clock⟩)
    (howned.congr (fun _ => Iff.rfl) (fun _ => rfl) rfl) henter alloc

theorem stacks_owned_fork : ∃ σ₀ tr σ, BootState blankBoot σ₀ ∧ AnyRun σ₀ tr σ ∧
    tr.length = 1 ∧ σ.StacksOwned ∧
      ∀ (u : UserMem) (child : PcbId) (τ : State), pcbAlloc (σ.enter u) = .ok (.ok child, τ) →
        ∃ s υ, stackAlloc τ = .ok (.ok s, υ) := by
  have hrun : bootTest (fun _ _ => True) blankBoot [callInput 1 (fun _ => 0) blankHeap]
      (fun _ => true) := by
    decide +kernel
  obtain ⟨σ₀, tr, σ, hboot, hrun, htr, -⟩ := bootTest_run hrun
  have hlen : tr.length = 1 := by simpa using congrArg List.length htr
  exact ⟨σ₀, tr, σ, hboot, hrun, hlen, stacks_owned hboot hrun⟩

end Cumulonimbus
