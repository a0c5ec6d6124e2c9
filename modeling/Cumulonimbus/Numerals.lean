import Mathlib.Data.Nat.Digits.Lemmas

/-!
# Numerals

The canonical numeral of a number in a base: its digits, the most significant first, without
leading zeros but for zero itself.  A digit is put at the end of a numeral, and the digits give
the number back.

Nothing here depends on the program that is verified with it.
-/

namespace Numerals

variable {b n d k : ℕ}

/-- The digits of a number, the most significant first. -/
def numeral (b n : ℕ) : List ℕ := if n = 0 then [0] else (b.digits n).reverse

/-- The number that digits stand for. -/
def value (b : ℕ) (ds : List ℕ) : ℕ := ds.foldl (fun n d => n * b + d) 0

/-- One digit more. -/
theorem value_concat (b : ℕ) (ds : List ℕ) (d : ℕ) : value b (ds ++ [d]) = value b ds * b + d := by
  simp [value]

/-- The same as Mathlib's value, whose first digit is the last one. -/
theorem value_reverse (b : ℕ) (ds : List ℕ) : value b ds.reverse = Nat.ofDigits b ds := by
  induction ds with
  | nil => rfl
  | cons d ds ih =>
    rw [List.reverse_cons, value_concat, ih, Nat.ofDigits_cons]
    ring

@[simp] theorem value_numeral (b n : ℕ) : value b (numeral b n) = n := by
  unfold numeral
  split
  case isTrue hn => simp [value, hn]
  case isFalse => rw [value_reverse, Nat.ofDigits_digits]

/-- A numeral has at least one digit. -/
theorem numeral_ne_nil (b n : ℕ) : numeral b n ≠ [] := by
  unfold numeral
  split
  case isTrue => simp
  case isFalse hn => simpa [Nat.digits_eq_nil_iff_eq_zero] using hn

/-- Its digits are below the base. -/
theorem numeral_lt (hb : 1 < b) : ∀ d ∈ numeral b n, d < b := by
  intro d hd
  unfold numeral at hd
  split at hd
  case isTrue =>
    rw [List.mem_singleton.mp hd]
    omega
  case isFalse => exact Nat.digits_lt_base hb (List.mem_reverse.mp hd)

/-- Only zero starts with a zero. -/
theorem numeral_head (h : (numeral b n).head? = some 0) : n = 0 := by
  unfold numeral at h
  split at h
  case isTrue hn => exact hn
  case isFalse hn =>
    have hne := Nat.digits_ne_nil_iff_ne_zero (b := b) |>.mpr hn
    rw [List.head?_reverse, List.getLast?_eq_some_getLast hne] at h
    exact absurd (Option.some.inj h) (Nat.getLast_digit_ne_zero b hn)

/-- A small number is one digit. -/
theorem numeral_of_lt (h : d < b) : numeral b d = [d] := by
  unfold numeral
  split
  case isTrue hd => rw [hd]
  case isFalse hd => rw [Nat.digits_of_lt b d hd h, List.reverse_singleton]

/-- One more digit. -/
theorem numeral_push (hn : 0 < n) (hd : d < b) (hb : 1 < b) :
    numeral b (n * b + d) = numeral b n ++ [d] := by
  have hpos : 0 < n * b + d := Nat.add_pos_left (Nat.mul_pos hn (by omega)) d
  have hmod : (n * b + d) % b = d := by
    rw [Nat.mul_add_mod_self_right, Nat.mod_eq_of_lt hd]
  have hdiv : (n * b + d) / b = n := by
    rw [Nat.add_comm, Nat.add_mul_div_right _ _ (by omega), Nat.div_eq_of_lt hd, Nat.zero_add]
  rw [numeral, numeral, if_neg (by omega), if_neg (by omega), Nat.digits_def' hb hpos, hmod, hdiv,
    List.reverse_cons]

/-- The length of a numeral. -/
theorem numeral_length_le (hb : 1 < b) (hk : 0 < k) (h : n < b ^ k) : (numeral b n).length ≤ k := by
  unfold numeral
  split
  case isTrue => exact hk
  case isFalse => rwa [List.length_reverse, Nat.digits_length_le_iff hb]

end Numerals
