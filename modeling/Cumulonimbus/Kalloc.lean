import Mathlib.Data.List.Chain
import Mathlib.Order.Bounds.Defs
import Mathlib.Order.Interval.Set.Defs
import Cumulonimbus.Ioports
import Cumulonimbus.IrqLists

/-!
# The blocks of the boot allocator

`kalloc` and `kalloc_aligned` move `_kalloc_base` up and never give memory back.  The masks of
the alignments round the base up, so as long as it stays below 2^32 every block starts at the
first multiple of its alignment behind the blocks before it.
-/

namespace Cumulonimbus.Irqs

open Exec
open Ioports (roundUp dvd_roundUp)

/-- `KALLOC_BASE_ADDR` -/
def kallocBaseAddr : UInt32 := 0x2000000

/-- The numbers of `enum AlignmentValue`. -/
def Alignment.value : Alignment → Nat
  | .byte => 0x01
  | .word => 0x02
  | .dword => 0x04
  | .qword => 0x08
  | .paragraph => 0x10

/-- A call of one of the two. -/
inductive Demand
  | kalloc (bytes : UInt32)
  | kallocAligned (bytes : UInt32) (alignment : Alignment)

namespace Demand

def bytes : Demand → UInt32
  | .kalloc bytes => bytes
  | .kallocAligned bytes _ => bytes

/-- Any byte will do for `kalloc`. -/
def alignment : Demand → Alignment
  | .kalloc _ => .byte
  | .kallocAligned _ alignment => alignment

def call : Demand → Irq UInt32
  | .kalloc bytes => Irqs.kalloc bytes
  | .kallocAligned bytes alignment => Irqs.kallocAligned bytes alignment

/-- A demand is served by one call. -/
theorem call_eq (d : Demand) : d.call = Irqs.kallocAligned d.bytes d.alignment := by
  cases d <;> rfl

end Demand

/-- What a call returns, and `_kalloc_base` before it. -/
structure Block where
  demand : Demand
  base : UInt32
  start : UInt32

/-- The addresses of a block. -/
def Block.span (b : Block) : Set Nat :=
  Set.Ico b.start.toNat (b.start.toNat + b.demand.bytes.toNat)

def serve : List Demand → Irq (List Block)
  | [] => return []
  | d :: ds => do
    let s ← get
    let start ← d.call
    let blocks ← serve ds
    return ⟨d, s.kallocBase, start⟩ :: blocks

/-- Where the base comes to be when the sizes and the padding are added up without a limit. -/
def finish : List Demand → Nat → Nat
  | [], n => n
  | d :: ds, n => finish ds (roundUp n d.alignment.value + d.bytes.toNat)

/-- **What the allocator is for**: blocks behind each other from an address upwards, each of them
aligned and with no more before it than its alignment asks for. -/
structure Placed (bottom : Nat) (blocks : List Block) : Prop where
  disjoint : blocks.Pairwise fun b b' => ∀ m ∈ b.span, m ∉ b'.span
  above : ∀ b ∈ blocks, bottom ≤ b.start.toNat
  least : ∀ b ∈ blocks,
    IsLeast {m | b.demand.alignment.value ∣ m ∧ b.base.toNat ≤ m} b.start.toNat
  first : ∀ b ∈ blocks.head?, b.base.toNat = bottom ∧
    b.start.toNat - bottom ≤ b.demand.alignment.value - 1
  gap : blocks.IsChain fun b b' =>
    b'.base.toNat = b.start.toNat + b.demand.bytes.toNat ∧ b'.base.toNat ≤ b'.start.toNat ∧
      b'.start.toNat - b'.base.toNat ≤ b'.demand.alignment.value - 1

variable {a : UInt32} {n : Nat}

/-! ## Rounding up -/

/-- Alignments are positive. -/
theorem Alignment.value_pos (alignment : Alignment) : 0 < alignment.value := by
  cases alignment <;> decide

/-- Rounding up does not go back. -/
theorem le_roundUp (n a : Nat) : n ≤ roundUp n a := Nat.le_add_right _ _

/-- It goes on by less than the alignment. -/
theorem roundUp_lt {a : Nat} (ha : 0 < a) : roundUp n a < n + a :=
  Nat.add_lt_add_left (Nat.mod_lt _ ha) n

/-- It goes no further than it has to. -/
theorem roundUp_isLeast {a : Nat} (ha : 0 < a) : IsLeast {m | a ∣ m ∧ n ≤ m} (roundUp n a) := by
  refine ⟨⟨dvd_roundUp n ha, le_roundUp n a⟩, ?_⟩
  intro m hm
  -- two multiples less than `a` apart
  obtain ⟨k, hk⟩ := dvd_roundUp n ha
  obtain ⟨⟨l, rfl⟩, hle⟩ := hm
  have hlt := roundUp_lt (n := n) ha
  rw [hk] at hlt ⊢
  have hkl : k < l + 1 := by
    refine Nat.lt_of_mul_lt_mul_left (a := a) ?_
    rw [Nat.mul_add]
    omega
  exact Nat.mul_le_mul_left a (by omega)

/-- The mask computes the remainder. -/
theorem mask_and_toNat (mask a : UInt32)
    (hmask : mask = 1 ∨ mask = 3 ∨ mask = 7 ∨ mask = 15) :
    (mask &&& a).toNat = a.toNat % (mask.toNat + 1) := by
  rw [UInt32.toNat_and, Nat.and_comm]
  rcases hmask with rfl | rfl | rfl | rfl
  · exact Nat.and_two_pow_sub_one_eq_mod a.toNat 1
  · exact Nat.and_two_pow_sub_one_eq_mod a.toNat 2
  · exact Nat.and_two_pow_sub_one_eq_mod a.toNat 3
  · exact Nat.and_two_pow_sub_one_eq_mod a.toNat 4

/-- A mask of low bits rounds up. -/
theorem alignUp_toNat (mask : UInt32) (hmask : mask = 1 ∨ mask = 3 ∨ mask = 7 ∨ mask = 15)
    (fits : roundUp a.toNat (mask.toNat + 1) < 0x100000000) :
    (alignUp mask a).toNat = roundUp a.toNat (mask.toNat + 1) := by
  have hand := mask_and_toNat mask a hmask
  have hlt : a.toNat % (mask.toNat + 1) < mask.toNat + 1 := Nat.mod_lt _ (Nat.succ_pos _)
  have hle : a.toNat % (mask.toNat + 1) ≤ a.toNat := Nat.mod_le _ _
  unfold alignUp
  unfold roundUp at fits ⊢
  split
  case isFalse hzero =>
    have hmod : a.toNat % (mask.toNat + 1) = 0 := by
      rw [← hand, not_not.mp hzero, UInt32.toNat_zero]
    rw [hmod, Nat.sub_zero, Nat.mod_self, Nat.add_zero]
  case isTrue hne =>
    have hmod : a.toNat % (mask.toNat + 1) ≠ 0 := by
      intro h
      exact hne (UInt32.toNat_inj.mp (hand.trans h))
    rw [Nat.mod_eq_of_lt (by omega)] at fits ⊢
    rw [and_not_eq_sub, UInt32.toNat_add, UInt32.toNat_add, UInt32.toNat_sub_of_le _ _
      (UInt32.le_iff_toNat_le.mpr (by omega)), hand, UInt32.toNat_one]
    omega

/-- **Each branch of the source rounds up.** -/
theorem Alignment.apply_toNat (alignment : Alignment)
    (fits : roundUp a.toNat alignment.value < 0x100000000) :
    (alignment.apply a).toNat = roundUp a.toNat alignment.value := by
  cases alignment with
  | byte => exact (Nat.add_eq_left.mpr (Nat.mod_one _)).symm
  | word =>
    -- the one branch that adds without clearing
    have hand : (1 &&& a).toNat = a.toNat % 2 := mask_and_toNat 1 a (by decide)
    show (if 1 &&& a ≠ 0 then a + 1 else a).toNat = roundUp a.toNat 2
    replace fits : roundUp a.toNat 2 < 0x100000000 := fits
    unfold roundUp at fits ⊢
    split
    case isTrue hne =>
      have hodd : a.toNat % 2 ≠ 0 := by
        intro h
        exact hne (UInt32.toNat_inj.mp (hand.trans h))
      rw [UInt32.toNat_add, UInt32.toNat_one]
      omega
    case isFalse hzero =>
      have heven : a.toNat % 2 = 0 := by
        rw [← hand, not_not.mp hzero, UInt32.toNat_zero]
      omega
  | dword => exact alignUp_toNat 3 (by decide) fits
  | qword => exact alignUp_toNat 7 (by decide) fits
  | paragraph => exact alignUp_toNat 15 (by decide) fits

/-! ## A run of calls -/

/-- The heap only grows. -/
theorem le_finish (ds : List Demand) (n : Nat) : n ≤ finish ds n := by
  induction ds generalizing n with
  | nil => exact Nat.le_refl n
  | cons d ds ih =>
    have hround := le_roundUp n d.alignment.value
    exact Nat.le_trans (Nat.le_trans hround (Nat.le_add_right _ _)) (ih _)

/-- One more block in front. -/
theorem Placed.cons {d : Demand} {base start : UInt32} {blocks : List Block}
    (hstart : start.toNat = roundUp base.toNat d.alignment.value)
    (placed : Placed (start.toNat + d.bytes.toNat) blocks) :
    Placed base.toNat (⟨d, base, start⟩ :: blocks) := by
  have hle := le_roundUp base.toNat d.alignment.value
  have hlt := roundUp_lt (n := base.toNat) d.alignment.value_pos
  constructor
  case disjoint =>
    refine List.pairwise_cons.mpr ⟨?_, placed.disjoint⟩
    intro b hb
    have habove := placed.above b hb
    intro m hm hm'
    exact absurd (Nat.lt_of_lt_of_le hm.2 (Nat.le_trans habove hm'.1)) (Nat.lt_irrefl _)
  case above =>
    refine List.forall_mem_cons.mpr ⟨hle.trans hstart.ge, ?_⟩
    intro b hb
    have habove := placed.above b hb
    omega
  case least =>
    refine List.forall_mem_cons.mpr ⟨?_, placed.least⟩
    show IsLeast _ start.toNat
    rw [hstart]
    exact roundUp_isLeast d.alignment.value_pos
  case first =>
    intro b hb
    obtain rfl := Option.some.inj hb
    refine ⟨rfl, ?_⟩
    dsimp only
    omega
  case gap =>
    refine List.isChain_cons.mpr ⟨?_, placed.gap⟩
    intro b hb
    obtain ⟨hbase, hgap⟩ := placed.first b hb
    have hleast := placed.least b (List.mem_of_mem_head? hb)
    rw [hbase]
    exact ⟨rfl, hbase ▸ hleast.1.2, hgap⟩

/-- What a run hands out and where it leaves the base. -/
structure Served (ds : List Demand) (bottom : Nat) (blocks : List Block) (t : State) : Prop where
  demands : blocks.map (·.demand) = ds
  placed : Placed bottom blocks
  base : t.kallocBase.toNat = finish ds bottom

/-- **All demands** are served, if the heap does not wrap around. -/
theorem wp_serve {E : Fault → Prop} (ds : List Demand) (s : State)
    (fits : finish ds s.kallocBase.toNat < 0x100000000) :
    wp (serve ds) (fun blocks t => Served ds s.kallocBase.toNat blocks t) E s := by
  induction ds generalizing s with
  | nil => exact ⟨rfl, ⟨.nil, by simp, by simp, by simp, .nil⟩, rfl⟩
  | cons d ds ih =>
    rw [finish] at fits
    have hle := le_finish ds (roundUp s.kallocBase.toNat d.alignment.value + d.bytes.toNat)
    have hstart := d.alignment.apply_toNat (a := s.kallocBase) (by omega)
    have hnext : (d.alignment.apply s.kallocBase + d.bytes).toNat =
        (d.alignment.apply s.kallocBase).toNat + d.bytes.toNat := by
      rw [UInt32.toNat_add]
      omega
    rw [serve, wp_bind, wp_get, wp_bind, Demand.call_eq, wp_kallocAligned]
    rw [← hstart, ← hnext] at fits
    refine wp_seq (ih _ fits) ?_
    intro blocks t hserved
    have hplaced : Placed (d.alignment.apply s.kallocBase + d.bytes).toNat blocks := hserved.placed
    have hbase : t.kallocBase.toNat = finish ds (d.alignment.apply s.kallocBase + d.bytes).toNat :=
      hserved.base
    rw [hnext] at hplaced hbase
    constructor
    case demands => exact congrArg (d :: ·) hserved.demands
    case placed => exact hplaced.cons hstart
    case base => rw [hbase, hstart, finish]

/-- **The boot allocator's blocks are aligned and disjoint**, in every run of calls whose sizes and
padding keep `_kalloc_base` below 2^32. -/
theorem kalloc_blocks (ds : List Demand) (s : State) (hboot : s.kallocBase = kallocBaseAddr)
    (hfits : finish ds kallocBaseAddr.toNat < 0x100000000) :
    ∃ blocks t, serve ds s = .ok (blocks, t) ∧ Served ds kallocBaseAddr.toNat blocks t := by
  rw [← hboot] at hfits ⊢
  exact wp_returns (wp_serve ds s hfits)

/-- A string, a device record and a descriptor list. -/
theorem boot_blocks :
    ∃ blocks t, serve [.kalloc 5, .kallocAligned 60 .dword, .kallocAligned 256 .paragraph]
        State.initial = .ok (blocks, t) ∧
      Served [.kalloc 5, .kallocAligned 60 .dword, .kallocAligned 256 .paragraph]
        kallocBaseAddr.toNat blocks t :=
  kalloc_blocks _ State.initial rfl (by decide)

end Cumulonimbus.Irqs
