import Cumulonimbus.Knet

/-!
# Comparing memory

`memcmp` finds out whether two buffers are equal, and `_pid_cmp` whether two processes have the
same host and id.  Buffers of fewer than four bytes are ordered by the first byte that differs.
Longer ones are ordered by the first word that differs, where the byte that comes last in memory
counts most and the difference wraps around.
-/

namespace Cumulonimbus.Knet

/-- `memcmp` with the `int` that callers pass: no loop runs if it is negative. -/
def memcmpInt (s1 s2 : Nat → UInt8) (size : Int32) : Int32 := memcmp s1 s2 size.toNatClampNeg

/-- `_pid_cmp` -/
def pidCmp (p1 p2 : Pid) : Int32 :=
  let ret := memcmpInt (fun k => p1.host.toArray.getD k 0) (fun k => p2.host.toArray.getD k 0) 6
  if ret = 0 then memcmpInt (Bytes.byte p1.id.toNat) (Bytes.byte p2.id.toNat) 4 else ret

/-- The first byte of the buffers that differs. -/
structure FirstDifference (s1 s2 : Nat → UInt8) (size : Int32) (k : Nat) : Prop where
  lt : k < size.toNatClampNeg
  before : ∀ l < k, s1 l = s2 l
  ne : s1 k ≠ s2 k

/-- **What a comparison is for**: 0 for equal bytes, and otherwise the sign of the difference of
the first two bytes that differ, as signed characters. -/
structure Agrees (s1 s2 : Nat → UInt8) (size : Int32) : Prop where
  zero : memcmpInt s1 s2 size = 0 ↔ ∀ k < size.toNatClampNeg, s1 k = s2 k
  sign : ∀ k, FirstDifference s1 s2 size k →
    (memcmpInt s1 s2 size).toInt.sign = ((s1 k).toInt8.toInt - (s2 k).toInt8.toInt).sign

/-- Ahead by less than half of all words, counted around. -/
def Ahead (x y : UInt32) : Prop :=
  y.toNat < x.toNat ∧ x.toNat < y.toNat + 0x80000000 ∨ x.toNat + 0x80000000 < y.toNat

/-- Of two bytes in whole words that are the first to differ, the greater one is in the word that
is ahead. -/
def WordsOrdered (s1 s2 : Nat → UInt8) (size : Int32) : Prop :=
  ∀ k, FirstDifference s1 s2 size k → k < 4 * (size.toNatClampNeg / 4) →
    (Ahead (Bytes.get32 s1 (4 * (k / 4))) (Bytes.get32 s2 (4 * (k / 4))) ↔
      (s2 k).toInt8.toInt < (s1 k).toInt8.toInt)

variable {s1 s2 : Nat → UInt8} {size : Int32} {k : Nat}

/-! ## Differences -/

/-- A word as a signed number. -/
theorem toInt32_toInt (x : UInt32) :
    x.toInt32.toInt = if x.toNat < 0x80000000 then (x.toNat : Int) else x.toNat - 0x100000000 := by
  have hcond := BitVec.toInt_eq_toNat_cond (x := x.toBitVec)
  show x.toBitVec.toInt = _
  rw [hcond]
  show (if 2 * x.toNat < 0x100000000 then (x.toNat : Int) else x.toNat - (0x100000000 : Nat)) = _
  split_ifs <;> omega

/-- When the difference of two words is positive. -/
theorem wordDiff_pos_iff (x y : UInt32) : 0 < (x.toInt32 - y.toInt32).toInt ↔ Ahead x y := by
  have hx := x.toNat_lt
  have hy := y.toNat_lt
  show 0 < (x - y).toInt32.toInt ↔ _
  rw [toInt32_toInt, UInt32.toNat_sub, Ahead]
  split_ifs <;> omega

/-- The difference of two bytes does not overflow. -/
theorem byteDiff_toInt (a b : UInt8) :
    (a.toInt8.toInt32 - b.toInt8.toInt32).toInt = a.toInt8.toInt - b.toInt8.toInt := by
  have ha := a.toInt8.le_toInt
  have ha' := a.toInt8.toInt_lt
  have hb := b.toInt8.le_toInt
  have hb' := b.toInt8.toInt_lt
  rw [Int32.toInt_sub, Int8.toInt_toInt32, Int8.toInt_toInt32]
  exact Int.bmod_eq_of_le (by omega) (by omega)

/-- Different bytes are different numbers. -/
theorem toInt8_toInt_ne {a b : UInt8} (h : a ≠ b) : a.toInt8.toInt ≠ b.toInt8.toInt := by
  intro heq
  exact h (toInt8_injective (Int8.toInt_inj.mp heq))

/-- Numbers other than zero have the same sign if they are positive together. -/
theorem sign_eq_iff {d e : Int} (hd : d ≠ 0) (he : e ≠ 0) : d.sign = e.sign ↔ (0 < d ↔ 0 < e) := by
  rcases Int.lt_or_gt_of_ne hd with hd | hd <;> rcases Int.lt_or_gt_of_ne he with he | he
  · rw [Int.sign_eq_neg_one_of_neg hd, Int.sign_eq_neg_one_of_neg he]
    omega
  · rw [Int.sign_eq_neg_one_of_neg hd, Int.sign_eq_one_of_pos he]
    omega
  · rw [Int.sign_eq_one_of_pos hd, Int.sign_eq_neg_one_of_neg he]
    omega
  · rw [Int.sign_eq_one_of_pos hd, Int.sign_eq_one_of_pos he]
    omega

/-! ## The first difference -/

/-- The first hit of a search through a range. -/
theorem findSome?_range {β : Type} {f : Nat → Option β} {n i : Nat} {x : β} (hi : i < n)
    (hbefore : ∀ j < i, f j = none) (hx : f i = some x) :
    (List.range n).findSome? f = some x := by
  induction n with
  | zero => exact absurd hi (Nat.not_lt_zero i)
  | succ n ih =>
    rw [List.range_succ, List.findSome?_append]
    by_cases hn : i < n
    · rw [ih hn]
      rfl
    · obtain rfl : i = n := by omega
      have hnone : (List.range i).findSome? f = none :=
        List.findSome?_eq_none_iff.mpr fun j hj => hbefore j (List.mem_range.mp hj)
      rw [hnone, List.findSome?_singleton, hx]
      rfl

/-- In a whole word the words are subtracted. -/
theorem memcmpInt_of_word (first : FirstDifference s1 s2 size k)
    (hword : k < 4 * (size.toNatClampNeg / 4)) :
    memcmpInt s1 s2 size = (Bytes.get32 s1 (4 * (k / 4))).toInt32 -
      (Bytes.get32 s2 (4 * (k / 4))).toInt32 := by
  have hne : Bytes.get32 s1 (4 * (k / 4)) ≠ Bytes.get32 s2 (4 * (k / 4)) := by
    intro heq
    have hbyte := Bytes.get32_inj heq (k % 4) (Nat.mod_lt k (by decide))
    rw [Nat.div_add_mod] at hbyte
    exact first.ne hbyte
  have hsigned : (Bytes.get32 s1 (4 * (k / 4))).toInt32 ≠ (Bytes.get32 s2 (4 * (k / 4))).toInt32 :=
    toInt32_injective.ne hne
  have hfind : (List.range (size.toNatClampNeg / 4)).findSome? (wordDiff s1 s2) =
      some ((Bytes.get32 s1 (4 * (k / 4))).toInt32 - (Bytes.get32 s2 (4 * (k / 4))).toInt32) := by
    refine findSome?_range (i := k / 4) (by omega) ?_ (if_pos hsigned)
    intro j hj
    exact wordDiff_eq_none.mpr (Bytes.get32_congr fun l hl => first.before _ (by omega))
  rw [memcmpInt, memcmp, if_neg (by omega), hfind]
  rfl

/-- Otherwise the bytes are. -/
theorem memcmpInt_of_byte (first : FirstDifference s1 s2 size k)
    (hbyte : ¬ k < 4 * (size.toNatClampNeg / 4)) :
    memcmpInt s1 s2 size = (s1 k).toInt8.toInt32 - (s2 k).toInt8.toInt32 := by
  have hsigned : (s1 k).toInt8 ≠ (s2 k).toInt8 :=
    toInt8_injective.ne first.ne
  have hfind : (List.range size.toNatClampNeg).findSome? (byteDiff s1 s2) =
      some ((s1 k).toInt8.toInt32 - (s2 k).toInt8.toInt32) :=
    findSome?_range first.lt (fun j hj => byteDiff_eq_none.mpr (first.before j hj))
      (if_pos hsigned)
  rw [memcmpInt, memcmp, hfind]
  split
  case isTrue => rfl
  case isFalse =>
    have hwords : (List.range (size.toNatClampNeg / 4)).findSome? (wordDiff s1 s2) = none := by
      refine List.findSome?_eq_none_iff.mpr fun i hi => ?_
      have hi' := List.mem_range.mp hi
      exact wordDiff_eq_none.mpr (Bytes.get32_congr fun l hl => first.before _ (by omega))
    rw [hwords]
    rfl

/-! ## Agreement -/

/-- **The comparison is 0** exactly when all bytes are the same. -/
theorem memcmpInt_eq_zero : memcmpInt s1 s2 size = 0 ↔ ∀ k < size.toNatClampNeg, s1 k = s2 k :=
  memcmp_eq_zero

/-- **`_pid_cmp` is 0 for processes with equal host and id.** -/
theorem pidCmp_eq_zero (p1 p2 : Pid) : pidCmp p1 p2 = 0 ↔ p1.host = p2.host ∧ p1.id = p2.id := by
  have hhost : memcmpInt (fun k => p1.host.toArray.getD k 0) (fun k => p2.host.toArray.getD k 0)
      6 = 0 ↔ p1.host = p2.host := memcmp_mac
  have hid : memcmpInt (Bytes.byte p1.id.toNat) (Bytes.byte p2.id.toNat) 4 = 0 ↔
      p1.id = p2.id := by
    rw [memcmpInt_eq_zero]
    constructor
    · intro heq
      have hlt := p1.id.toNat_lt
      have hlt' := p2.id.toNat_lt
      have hnum : Bytes.leNat 4 (Bytes.byte p1.id.toNat) = Bytes.leNat 4 (Bytes.byte p2.id.toNat) :=
        Bytes.leNat_congr heq
      rw [Bytes.leNat_byte, Bytes.leNat_byte] at hnum
      exact UInt32.toNat_inj.mp (by omega)
    · intro heq k _
      rw [heq]
  unfold pidCmp
  dsimp only
  split
  case isTrue hzero => rw [hid, hhost.mp hzero, eq_self, true_and]
  case isFalse hne =>
    have hother : p1.host ≠ p2.host := fun heq => hne (hhost.mpr heq)
    exact ⟨fun hzero => absurd hzero hne, fun heq => absurd heq.1 hother⟩

/-- **Comparing by words agrees with comparing by bytes** if and only if the words are ordered as
their first bytes that differ; processes are always told apart. -/
theorem memcmp_agrees_iff (s1 s2 : Nat → UInt8) (size : Int32) (p1 p2 : Pid) :
    (Agrees s1 s2 size ↔ WordsOrdered s1 s2 size) ∧
      (pidCmp p1 p2 = 0 ↔ p1.host = p2.host ∧ p1.id = p2.id) := by
  refine ⟨?_, pidCmp_eq_zero p1 p2⟩
  have hsign : ∀ k, FirstDifference s1 s2 size k → k < 4 * (size.toNatClampNeg / 4) →
      ((memcmpInt s1 s2 size).toInt.sign = ((s1 k).toInt8.toInt - (s2 k).toInt8.toInt).sign ↔
        (Ahead (Bytes.get32 s1 (4 * (k / 4))) (Bytes.get32 s2 (4 * (k / 4))) ↔
          (s2 k).toInt8.toInt < (s1 k).toInt8.toInt)) := by
    intro k first hword
    have hbyte := toInt8_toInt_ne first.ne
    have hvalue := memcmpInt_of_word first hword
    have hne : (memcmpInt s1 s2 size).toInt ≠ 0 := by
      intro hzero
      have heq := memcmpInt_eq_zero.mp (Int32.toInt_inj.mp hzero)
      exact first.ne (heq k first.lt)
    rw [sign_eq_iff hne (by omega), hvalue, wordDiff_pos_iff, Int.sub_pos]
  constructor
  · intro hagrees k first hword
    exact (hsign k first hword).mp (hagrees.sign k first)
  · intro hordered
    refine ⟨memcmpInt_eq_zero, fun k first => ?_⟩
    by_cases hword : k < 4 * (size.toNatClampNeg / 4)
    · exact (hsign k first hword).mpr (hordered k first hword)
    · rw [memcmpInt_of_byte first hword, byteDiff_toInt]

/-- Bytes 1, 0, 0, 0 come out less than 0, 1, 0, 0, and as buffers of three bytes greater. -/
theorem memcmp_disagrees :
    ¬ ∀ (s1 s2 : Nat → UInt8) (size : Int32), Agrees s1 s2 size := by
  intro hclaim
  have hfirst : FirstDifference (fun k => if k = 0 then 1 else 0) (fun k => if k = 1 then 1 else 0)
      4 0 := by
    refine ⟨by decide, ?_, by decide⟩
    intro l hl
    exact absurd hl (Nat.not_lt_zero l)
  have hsign := (hclaim _ _ _).sign 0 hfirst
  revert hsign
  decide

end Cumulonimbus.Knet
