import Mathlib.Data.Nat.Bitwise

/-!
# Bit fields of numbers

`field lo n w` is the number that the `n` bits of `w` from bit `lo` on make.  Fields go through
`|||`, and a number shifted into place is seen by its own field and by no field beside it.  So a
word that is put together from its parts is taken apart again by reading them.

Nothing here depends on the program that is verified with it.
-/

namespace Fields

variable {lo n o m w v a b : ℕ}

/-- The `n` bits of `w` from bit `lo` on. -/
def field (lo n w : ℕ) : ℕ := w >>> lo % 2 ^ n

theorem testBit_field (i : ℕ) :
    (field lo n w).testBit i = (decide (i < n) && w.testBit (lo + i)) := by
  simp [field, Nat.testBit_mod_two_pow, Nat.testBit_shiftRight]

theorem field_or (lo n a b : ℕ) : field lo n (a ||| b) = field lo n a ||| field lo n b := by
  refine Nat.eq_of_testBit_eq fun i => ?_
  simp only [testBit_field, Nat.testBit_or]
  cases decide (i < n) <;> simp

/-- A field shows what was shifted to its place. -/
theorem field_shiftLeft_self (h : v < 2 ^ n) : field lo n (v <<< lo) = v := by
  rw [field, Nat.shiftLeft_shiftRight, Nat.mod_eq_of_lt h]

/-- What is shifted to another place does not reach the field. -/
theorem field_shiftLeft_apart (h : v < 2 ^ m) (apart : lo + n ≤ o ∨ o + m ≤ lo) :
    field lo n (v <<< o) = 0 := by
  refine Nat.eq_of_testBit_eq fun i => ?_
  rw [testBit_field, Nat.testBit_shiftLeft, Nat.zero_testBit]
  by_cases hi : i < n
  · rcases apart with hlow | hhigh
    · simp [show ¬ o ≤ lo + i by omega]
    · have hbig : v < 2 ^ (lo + i - o) :=
        lt_of_lt_of_le h (Nat.pow_le_pow_right (by omega) (by omega))
      simp [Nat.testBit_lt_two_pow hbig]
  · simp [hi]

end Fields
