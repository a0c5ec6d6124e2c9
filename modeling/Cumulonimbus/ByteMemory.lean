import Cumulonimbus.Bytes

/-!
# A byte-addressed memory

Memory is one byte for every 32-bit address, and addresses wrap around.  An object is a run of
bytes, given by its first address and its size; two objects are apart if they have no byte in
common.  Each access has one rule for the bytes it reaches and one for the rest, so that a proof
about a program never looks at single bytes.

Nothing here depends on the program that is verified with it.
-/

namespace ByteMemory

open Bytes

abbrev Memory := UInt32 → UInt8

/-- The address `x` is one of the `n` from `a` on. -/
def Within (a : UInt32) (n : Nat) (x : UInt32) : Prop := (x - a).toNat < n

instance (a : UInt32) (n : Nat) (x : UInt32) : Decidable (Within a n x) :=
  inferInstanceAs (Decidable (_ < _))

/-- Two runs of bytes that have none in common. -/
def Apart (a : UInt32) (n : Nat) (b : UInt32) (k : Nat) : Prop :=
  ∀ x, Within a n x → ¬ Within b k x

/-- The number in the four bytes from `a` on. -/
def load32 (m : Memory) (a : UInt32) : UInt32 := get32 (fun k => m (a + UInt32.ofNat k)) 0

def store8 (m : Memory) (a : UInt32) (b : UInt8) : Memory := Function.update m a b

def store32 (m : Memory) (a v : UInt32) : Memory :=
  fun x => if Within a 4 x then byte v.toNat (x - a).toNat else m x

/-- Copy `n` bytes, one after the other. -/
def copyBytes (m : Memory) (dst src : UInt32) : Nat → Memory
  | 0 => m
  | n + 1 =>
    let m' := copyBytes m dst src n
    store8 m' (dst + UInt32.ofNat n) (m' (src + UInt32.ofNat n))

variable {m m' : Memory} {a b v x dst src : UInt32} {n k : Nat}

/-! ## Runs of bytes -/

/-- The distance to an address is what was added. -/
theorem offset_toNat (hk : k < 2 ^ 32) : (a + UInt32.ofNat k - a).toNat = k := by
  rw [UInt32.add_comm, UInt32.add_sub_cancel, UInt32.toNat_ofNat', Nat.mod_eq_of_lt hk]

/-- Where a part of an object is. -/
theorem within_offset (hk : k < n) (hn : n ≤ 2 ^ 32) : Within a n (a + UInt32.ofNat k) := by
  rw [Within, offset_toNat (by omega)]
  exact hk

/-- An object has its first byte. -/
theorem within_self (hn : 0 < n) : Within a n a := by
  rw [Within, UInt32.sub_self]
  exact hn

/-- A byte of a run is at some distance from its start. -/
theorem Within.exists_offset (h : Within a n x) : ∃ k < n, x = a + UInt32.ofNat k := by
  refine ⟨(x - a).toNat, h, ?_⟩
  rw [UInt32.ofNat_toNat, UInt32.add_comm, UInt32.sub_add_cancel]

/-- A larger object has the byte still. -/
theorem Within.mono (h : Within a n x) (hle : n ≤ k) : Within a k x := Nat.lt_of_lt_of_le h hle

/-- Two objects that are apart, the other way round. -/
theorem Apart.symm (h : Apart a n b k) : Apart b k a n := fun x hb ha => h x ha hb

/-- What is in a part is in the whole. -/
theorem Within.of_part {j len : Nat} (h : Within (a + UInt32.ofNat j) len x) (hin : j + len ≤ n)
    (hn : n ≤ 2 ^ 32) : Within a n x := by
  obtain ⟨i, hi, rfl⟩ := h.exists_offset
  rw [UInt32.add_assoc, ← UInt32.ofNat_add]
  exact within_offset (by omega) hn

/-- A shorter run that starts later is apart from what the whole run is apart from. -/
theorem Apart.part {j len : Nat} (h : Apart a n b k) (hin : j + len ≤ n) (hn : n ≤ 2 ^ 32) :
    Apart (a + UInt32.ofNat j) len b k := by
  intro x hx
  exact h x (hx.of_part hin hn)

/-- Two parts of one run, of which one ends before the other starts. -/
theorem apart_parts {j len i len' : Nat} (hbefore : j + len ≤ i) (hin : i + len' ≤ 2 ^ 32) :
    Apart (a + UInt32.ofNat j) len (a + UInt32.ofNat i) len' := by
  intro x hx hx'
  obtain ⟨p, hp, rfl⟩ := hx.exists_offset
  obtain ⟨q, hq, heq⟩ := hx'.exists_offset
  have hsame : UInt32.ofNat (j + p) = UInt32.ofNat (i + q) := by
    rw [UInt32.ofNat_add, UInt32.ofNat_add]
    refine (UInt32.add_right_inj a).mp ?_
    rw [← UInt32.add_assoc, ← UInt32.add_assoc]
    exact heq
  have hnat := congrArg UInt32.toNat hsame
  rw [UInt32.toNat_ofNat', UInt32.toNat_ofNat', Nat.mod_eq_of_lt (by omega),
    Nat.mod_eq_of_lt (by omega)] at hnat
  omega

/-! ## Loads and stores -/

/-- A word depends on its four bytes. -/
theorem load32_congr (h : ∀ x, Within a 4 x → m x = m' x) : load32 m a = load32 m' a := by
  refine get32_congr fun k hk => ?_
  rw [Nat.zero_add]
  exact h _ (within_offset hk (by decide))

/-- Other bytes stay where a word is stored. -/
theorem store32_apply (hx : ¬ Within a 4 x) : store32 m a v x = m x := if_neg hx

/-- A word that was stored is loaded. -/
theorem load32_store32 (m : Memory) (a v : UInt32) : load32 (store32 m a v) a = v := by
  refine get32_eq fun k hk => ?_
  rw [Nat.zero_add, store32, if_pos (within_offset hk (by decide)), offset_toNat (by omega)]

/-- A word apart from it stays. -/
theorem load32_store32_of_apart (h : Apart a 4 b 4) :
    load32 (store32 m b v) a = load32 m a :=
  load32_congr fun x hx => store32_apply (h x hx)

/-- A byte that was stored. -/
theorem store8_self (m : Memory) (a : UInt32) (c : UInt8) : store8 m a c a = c :=
  Function.update_self ..

/-- The other bytes stay. -/
theorem store8_apply {c : UInt8} (hx : x ≠ a) : store8 m a c x = m x := Function.update_of_ne hx ..

/-- A word stays unless the byte is one of its own. -/
theorem load32_store8_of_not_within {c : UInt8} (h : ¬ Within a 4 b) :
    load32 (store8 m b c) a = load32 m a :=
  load32_congr fun _ hx => store8_apply fun heq => h (heq ▸ hx)

/-- The bytes of a word. -/
theorem byte_load32 (m : Memory) (a : UInt32) (hk : k < 4) :
    byte (load32 m a).toNat k = m (a + UInt32.ofNat k) := by
  have hsame : load32 (store32 m a (load32 m a)) a = load32 m a := load32_store32 ..
  have hbyte := get32_inj hsame k hk
  rw [Nat.zero_add, store32, if_pos (within_offset hk (by decide)),
    offset_toNat (by omega)] at hbyte
  exact hbyte

/-- A word whose lowest byte is replaced. -/
theorem load32_store8_self {c : UInt8} (hload : load32 m a = v) (hlow : byte b.toNat 0 = c)
    (hrest : ∀ k < 4, k ≠ 0 → byte b.toNat k = byte v.toNat k) :
    load32 (store8 m a c) a = b := by
  refine get32_eq fun k hk => ?_
  rw [Nat.zero_add]
  by_cases hzero : k = 0
  · rw [hzero, hlow]
    show store8 m a c (a + 0) = c
    rw [UInt32.add_zero, store8_self]
  · rw [hrest k hk hzero, ← hload, byte_load32 m a hk]
    refine store8_apply fun heq => hzero ?_
    have hoff := offset_toNat (a := a) (k := k) (by omega)
    rw [heq, UInt32.sub_self] at hoff
    exact hoff.symm

/-! ## Copies -/

/-- **A copy between two runs that are apart** moves every byte by the same distance. -/
theorem copyBytes_apply (apart : Apart dst n src n) (hn : n ≤ 2 ^ 32) (x : UInt32) :
    copyBytes m dst src n x = if Within dst n x then m (src + (x - dst)) else m x := by
  have hstep : ∀ j ≤ n, ∀ x, copyBytes m dst src j x =
      if Within dst j x then m (src + (x - dst)) else m x := by
    intro j hj
    induction j with
    | zero => exact fun x => (if_neg (Nat.not_lt_zero _)).symm
    | succ j ih =>
      intro x
      have hsource : ¬ Within dst j (src + UInt32.ofNat j) := by
        intro hdst
        exact apart _ (hdst.mono (by omega)) (within_offset hj hn)
      rw [copyBytes]
      by_cases hx : x = dst + UInt32.ofNat j
      · rw [hx, store8_self, ih (by omega), if_neg hsource,
          if_pos (within_offset (Nat.lt_succ_self j) (by omega)), UInt32.add_comm dst,
          UInt32.add_sub_cancel]
      · have hsame : Within dst (j + 1) x ↔ Within dst j x := by
          refine ⟨fun h => ?_, fun h => h.mono (Nat.le_succ j)⟩
          obtain ⟨i, hi, rfl⟩ := h.exists_offset
          refine within_offset (Nat.lt_of_le_of_ne (Nat.le_of_lt_succ hi) ?_) (by omega)
          rintro rfl
          exact hx rfl
        rw [store8_apply hx, ih (by omega) x, if_congr hsame rfl rfl]
  exact hstep n (Nat.le_refl n) x

/-- A word whose bytes come from as far behind `src` as they lie behind `dst`. -/
theorem load32_moved {j : Nat}
    (h : ∀ x, Within (dst + UInt32.ofNat j) 4 x → m' x = m (src + (x - dst))) :
    load32 m' (dst + UInt32.ofNat j) = load32 m (src + UInt32.ofNat j) := by
  refine get32_congr fun k hk => ?_
  have hbyte : ∀ a : UInt32, a + UInt32.ofNat j + UInt32.ofNat k = a + UInt32.ofNat (j + k) := by
    intro a
    rw [UInt32.ofNat_add, UInt32.add_assoc]
  rw [Nat.zero_add, h _ (within_offset hk (by decide)), hbyte, hbyte, UInt32.add_comm dst,
    UInt32.add_sub_cancel]

/-- A word of a copy. -/
theorem load32_copyBytes (apart : Apart dst n src n) (hn : n ≤ 2 ^ 32) {j : Nat}
    (hj : j + 4 ≤ n) : load32 (copyBytes m dst src n) (dst + UInt32.ofNat j) =
      load32 m (src + UInt32.ofNat j) :=
  load32_moved fun x hx => by rw [copyBytes_apply apart hn, if_pos (hx.of_part hj hn)]

end ByteMemory
