import Cumulonimbus.Kheap
import Cumulonimbus.Linked
import Cumulonimbus.Tiling
import Mathlib.Data.List.Pairwise

/-!
# The blocks of the kernel heap

The free and the allocated blocks tile the memory.  Taking a block from the free list moves a
tile from one list to the other, splitting cuts a tile, and coalescing joins two.  What is
written lies in blocks that are free, so that the tiles of all others stay where they are.
-/

namespace Cumulonimbus.Kheap

open Exec Linked Tiling

variable {s t : State} {E : Spin → Prop} {M : Nat → Prop} {seam : Option UInt32}
  {free l₁ l₂ : List UInt32} {a b c d : UInt32}

/-- The link of a free block. -/
def State.link (s : State) (b : UInt32) : Option UInt32 := pointer 0 (s.next b)

/-- The address behind a block. -/
def State.stop (s : State) (b : UInt32) : Nat := b.toNat + 4 * ((s.length b).toNat + 1)

/-- The bytes of a block, with its header. -/
def State.span (s : State) (b : UInt32) : Nat × Nat := (b.toNat, s.stop b)

/-- No memory at address 0 or at the last address. -/
def Bounded (M : Nat → Prop) : Prop := ∀ w, M w → 0 < w ∧ w + 1 < 0x100000000

/-- The free list, sorted by address, and with the allocated blocks a tiling of the memory `M`.
Every free block has room for its link, and none but the block `seam` ends where a free block
begins. -/
structure Blocks (M : Nat → Prop) (seam : Option UInt32) (s : State) (free : List UInt32) :
    Prop where
  path : Path s.link (pointer 0 s.freelist) free none
  roomy : ∀ b ∈ free, s.length b ≠ 0
  sorted : free.Pairwise (· < ·)
  gaps : ∀ b ∈ free, ∀ c ∈ free, s.stop b = c.toNat → seam = some b
  tiles : Tiles ((free ++ s.live).map s.span) M

/-- A block is at least its header. -/
theorem stop_pos (s : State) (b : UInt32) : b.toNat + 4 ≤ s.stop b := by
  rw [State.stop]
  omega

/-- A block that has a word behind its header. -/
theorem stop_roomy (h : s.length b ≠ 0) : b.toNat + 8 ≤ s.stop b := by
  have hpos : (s.length b).toNat ≠ 0 := fun hzero => h (UInt32.toNat_inj.mp hzero)
  rw [State.stop]
  omega

/-! ## Blocks and memory -/

/-- No block reaches the last address. -/
theorem Blocks.bounds (h : Blocks M seam s free) (bounded : Bounded M) (hb : b ∈ free ++ s.live) :
    0 < b.toNat ∧ s.stop b < 0x100000000 := by
  have hspan : s.span b ∈ (free ++ s.live).map s.span := List.mem_map_of_mem hb
  have hpos := stop_pos s b
  have hfirst := bounded b.toNat ((h.tiles.cover _).mp
    ⟨_, hspan, Nat.le_refl _, show b.toNat < s.stop b by omega⟩)
  have hlast := bounded (s.stop b - 1) ((h.tiles.cover _).mp
    ⟨_, hspan, show b.toNat ≤ s.stop b - 1 by omega, show s.stop b - 1 < s.stop b by omega⟩)
  omega

/-- Two blocks do not overlap. -/
theorem Blocks.apart (h : Blocks M seam s free) (hb : b ∈ free ++ s.live) (hc : c ∈ free ++ s.live)
    (hne : b ≠ c) : s.stop b ≤ c.toNat ∨ s.stop c ≤ b.toNat := by
  have hpair := List.pairwise_map.mp h.tiles.apart
  have hsymm : Std.Symm fun b c => Apart (s.span b) (s.span c) := ⟨fun _ _ hbc => hbc.symm⟩
  exact hpair.forall hb hc hne

/-- Of two blocks the first one ends before the second begins. -/
theorem Blocks.stop_le (h : Blocks M seam s free) (hb : b ∈ free ++ s.live)
    (hc : c ∈ free ++ s.live) (hlt : b < c) : s.stop b ≤ c.toNat := by
  have hlt' := UInt32.lt_iff_toNat_lt.mp hlt
  have hpos := stop_pos s c
  rcases h.apart hb hc fun heq => by rw [heq] at hlt'; omega with hle | hle
  · exact hle
  · omega

/-- A word of one block is no word of another. -/
theorem Blocks.word_ne (h : Blocks M seam s free) (hb : b ∈ free ++ s.live)
    (hc : c ∈ free ++ s.live) (hne : b ≠ c) {x y : UInt32} (hx : b.toNat ≤ x.toNat)
    (hx' : x.toNat < s.stop b) (hy : c.toNat ≤ y.toNat) (hy' : y.toNat < s.stop c) : x ≠ y := by
  intro heq
  rw [heq] at hx hx'
  rcases h.apart hb hc hne with hle | hle
  · omega
  · omega

/-- The link of a block lies in it. -/
theorem toNat_link (hstop : s.stop b < 0x100000000) : (b + 4).toNat = b.toNat + 4 := by
  have hpos := stop_pos s b
  rw [UInt32.toNat_add, show (4 : UInt32).toNat = 4 from rfl]
  omega

/-- The test for adjacent blocks computes without wrapping around. -/
theorem adjacent_iff (hstop : s.stop b < 0x100000000) :
    s.adjacent b c = true ↔ s.stop b = c.toNat := by
  have hlink := toNat_link hstop
  have hsum : (memoryOf b + 4 * s.length b).toNat = s.stop b := by
    rw [State.stop] at hstop ⊢
    rw [memoryOf, UInt32.toNat_add, UInt32.toNat_mul, hlink, show (4 : UInt32).toNat = 4 from rfl]
    omega
  rw [State.adjacent, decide_eq_true_iff, ← hsum]
  exact UInt32.toNat_inj.symm

/-- No free block is null. -/
theorem Blocks.ne_zero (h : Blocks M seam s free) (bounded : Bounded M) (hb : b ∈ free) :
    b ≠ 0 := by
  intro heq
  have hpos := (h.bounds bounded (List.mem_append_left _ hb)).1
  rw [heq] at hpos
  exact Nat.lt_irrefl 0 hpos

/-! ## The loops -/

/-- Where the list refers to what comes behind the blocks `l`. -/
def slotOf (l : List UInt32) : Slot :=
  match l.getLast? with
  | none => .freelist
  | some b => .next b

/-- The slot behind a block is its link. -/
theorem slotOf_concat (l : List UInt32) (b : UInt32) : slotOf (l ++ [b]) = .next b := by
  rw [slotOf, List.getLast?_concat]

/-- The block that a pointer points to is the first of what is left. -/
theorem path_next {l : List UInt32} (h : Path s.link (pointer 0 a) l none) (ha : a ≠ 0) :
    ∃ l', l = a :: l' ∧ Path s.link (pointer 0 (s.next a)) l' none := by
  rw [pointer_of_ne ha] at h
  cases l with
  | nil => cases h
  | cons b l =>
    obtain ⟨hb, hl⟩ := h
    cases hb
    exact ⟨l, rfl, hl⟩

/-- **The search** finds a block that is large enough, and the slot that points to it, or 0. -/
theorem findBlock_spec (h : Path s.link (pointer 0 s.freelist) free none) (desired : UInt32) :
    wp (findBlock desired)
      (fun i t => t = s ∧ (i.2 = 0 ∨ ∃ l₁ l₂, free = l₁ ++ i.2 :: l₂ ∧ i.1 = slotOf l₁ ∧
        desired ≤ s.length i.2)) E s := by
  have hlen := h.length_addresses
  rw [findBlock, wp_bind, wp_get]
  refine wp_mono (wp_loop_indexed (I := fun n i t => t = s ∧ ∃ l₁ l₂, free = l₁ ++ l₂ ∧
    l₂.length = n ∧ i.1 = slotOf l₁ ∧ Path s.link (pointer 0 i.2) l₂ none) ?_
    ⟨rfl, [], free, rfl, rfl, rfl, h⟩ ?_) ?_ fun _ he => he
  · intro n i t hinv hcond
    obtain ⟨rfl, l₁, l₂, hfree, hn, hslot, hpath⟩ := hinv
    obtain ⟨hne, -⟩ := of_decide_eq_true hcond
    obtain ⟨l₂, rfl, hrest⟩ := path_next hpath hne
    rw [wp_bind, wp_get, wp_pure]
    rw [List.length_cons] at hn
    exact ⟨l₂.length, by omega, rfl, l₁ ++ [i.2], l₂, by rw [hfree, List.append_assoc]; rfl, rfl,
      (slotOf_concat l₁ i.2).symm, hrest⟩
  · rw [show rounds = 4294967297 from rfl]
    omega
  · intro i t hpost
    obtain ⟨⟨n, rfl, l₁, l₂, hfree, -, hslot, hpath⟩, hdone⟩ := hpost
    refine ⟨rfl, ?_⟩
    by_cases hzero : i.2 = 0
    · exact .inl hzero
    · obtain ⟨l₂, rfl, -⟩ := path_next hpath hzero
      refine .inr ⟨l₁, l₂, hfree, hslot, ?_⟩
      rw [decide_eq_false_iff_not, not_and, UInt32.not_lt] at hdone
      exact hdone hzero

/-- **The place of a block** is between those with smaller and those with larger addresses. -/
theorem straddle_spec (h : Path s.link (pointer 0 s.freelist) free none)
    (sorted : free.Pairwise (· < ·)) (used : UInt32) :
    wp (straddle used)
      (fun i t => t = s ∧ ∃ l₁ l₂, free = l₁ ++ l₂ ∧ pointer 0 i.1 = l₁.getLast? ∧
        pointer 0 i.2 = l₂.head? ∧ (∀ b ∈ l₁, b < used) ∧ ∀ c ∈ l₂, used ≤ c) E s := by
  have hlen := h.length_addresses
  rw [straddle, wp_bind, wp_get]
  refine wp_mono (wp_loop_indexed (I := fun n i t => t = s ∧ ∃ l₁ l₂, free = l₁ ++ l₂ ∧
    l₂.length = n ∧ pointer 0 i.1 = l₁.getLast? ∧ Path s.link (pointer 0 i.2) l₂ none ∧
    ∀ b ∈ l₁, b < used) ?_ ⟨rfl, [], free, rfl, rfl, pointer_null 0, h, by simp⟩ ?_) ?_
    fun _ he => he
  · intro n i t hinv hcond
    obtain ⟨rfl, l₁, l₂, hfree, hn, hprevious, hpath, hbefore⟩ := hinv
    obtain ⟨hne, hlt⟩ := of_decide_eq_true hcond
    obtain ⟨l₂, rfl, hrest⟩ := path_next hpath hne
    rw [wp_bind, wp_get, wp_pure]
    rw [List.length_cons] at hn
    refine ⟨l₂.length, by omega, rfl, l₁ ++ [i.2], l₂, by rw [hfree, List.append_assoc]; rfl, rfl,
      ?_, hrest, ?_⟩
    · rw [List.getLast?_concat, pointer_of_ne hne]
    · intro b hb
      rcases List.mem_append.mp hb with hb | hb
      · exact hbefore b hb
      · rw [List.mem_singleton.mp hb]
        exact hlt
  · rw [show rounds = 4294967297 from rfl]
    omega
  · intro i t hpost
    obtain ⟨⟨n, rfl, l₁, l₂, hfree, -, hprevious, hpath, hbefore⟩, hdone⟩ := hpost
    refine ⟨rfl, l₁, l₂, hfree, hprevious, hpath.head_eq, hbefore, ?_⟩
    intro c hc
    rw [decide_eq_false_iff_not, not_and, UInt32.not_lt] at hdone
    by_cases hzero : i.2 = 0
    · rw [hzero, pointer_null] at hpath
      cases l₂ with
      | nil => cases hc
      | cons b l₂ => cases hpath.1
    · obtain ⟨l₂, rfl, -⟩ := path_next hpath hzero
      have hle := hdone hzero
      rcases List.mem_cons.mp hc with rfl | hc
      · exact hle
      · rw [hfree, List.pairwise_append] at sorted
        have hlt := (List.pairwise_cons.mp sorted.2.1).1 c hc
        exact UInt32.le_trans hle (UInt32.le_of_lt hlt)

end Cumulonimbus.Kheap
