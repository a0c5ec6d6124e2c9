import Cumulonimbus.Numerals
import Cumulonimbus.Printf

/-!
# The numbers of formatted output

What the conversions of `c_io.c` leave in their buffer.  Decimal output is the numeral of the
value behind its sign, and hexadecimal output the numeral of the value read as unsigned.  Octal
output starts with a group of two bits and then drops three, so it shows another number for all
values but two.
-/

namespace Cumulonimbus.Printf

open Numerals

/-! ## What a buffer shows -/

/-- The character of a digit. -/
def digitChar (d : Nat) : UInt8 := hexdigits.getD d 0

/-- The numeral of a number, as characters. -/
def digits (b n : Nat) : List UInt8 := (numeral b n).map digitChar

/-- The characters in a buffer that a conversion returns with their number. -/
def text (r : Bytes × Nat) : List UInt8 := (List.range r.2).map r.1

/-- A conversion into `buf` has put a string there and returned its length: with the null
character it takes at most twelve bytes, and nothing behind it has changed. -/
structure Prints (buf : Bytes) (r : Bytes × Nat) (chars : List UInt8) : Prop where
  text : text r = chars
  nonzero : ∀ c ∈ chars, c ≠ 0
  terminated : r.1 r.2 = 0
  fits : r.2 + 1 ≤ 12
  beyond : ∀ i, r.2 < i → r.1 i = buf i

/-- A buffer into which characters have been put from its start on. -/
def filled (buf : Bytes) (chars : List UInt8) : Out :=
  ⟨fun i => chars.getD i (buf i), chars.length⟩

/-- Before the first character. -/
theorem filled_nil (buf : Bytes) : filled buf [] = ⟨buf, 0⟩ := rfl

/-- One character more. -/
theorem filled_put (buf : Bytes) (chars : List UInt8) (c : UInt8) :
    (filled buf chars).put c = filled buf (chars ++ [c]) := by
  unfold filled Out.put
  congr 1
  case e_buf =>
    funext i
    rcases Nat.lt_trichotomy i chars.length with hlt | rfl | hgt
    · rw [Function.update_of_ne hlt.ne]
      simp [List.getD, List.getElem?_append_left hlt]
    · simp [List.getD]
    · rw [Function.update_of_ne hgt.ne']
      simp [List.getD, List.getElem?_eq_none hgt.le,
        List.getElem?_eq_none (show (chars ++ [c]).length ≤ i by simpa using hgt)]
  case e_bp => simp

/-- What is read back from the buffer is what was put there. -/
theorem text_filled (buf : Bytes) (chars : List UInt8) :
    text (filled buf chars).finish = chars := by
  refine List.ext_getElem (by simp [text, filled, Out.finish]) ?_
  intro i _ hi
  simp [text, filled, Out.finish, Function.update_of_ne hi.ne, List.getD, hi]

/-- Characters that are not null and fit make a string. -/
theorem prints_filled {buf : Bytes} {chars : List UInt8} (hnonzero : ∀ c ∈ chars, c ≠ 0)
    (hfits : chars.length + 1 ≤ 12) : Prints buf (filled buf chars).finish chars where
  text := text_filled buf chars
  nonzero := hnonzero
  terminated := Function.update_self ..
  fits := hfits
  beyond := by
    intro i hi
    have hlt : chars.length < i := hi
    simp [filled, Out.finish, Function.update_of_ne hlt.ne', List.getD, hlt.le]

/-- No digit is the null character. -/
theorem digitChar_ne_zero {d : Nat} (h : d < 16) : digitChar d ≠ 0 := by
  have hall : ∀ d < 16, digitChar d ≠ 0 := by decide
  exact hall d h

/-- The number that characters stand for, if they are digits of a base. -/
def readDigits (b : Nat) (chars : List UInt8) : Option Nat :=
  if chars.isEmpty ∨ chars.any fun c => b ≤ hexdigits.idxOf c then none
  else some (value b (chars.map (hexdigits.idxOf ·)))

/-- A digit is found again in the table of digits. -/
theorem idxOf_digitChar {d : Nat} (h : d < 16) : hexdigits.idxOf (digitChar d) = d := by
  have hall : ∀ d < 16, hexdigits.idxOf (digitChar d) = d := by decide
  exact hall d h

variable {b n m : Nat} {buf : Bytes}

/-- So no numeral has a null character in it. -/
theorem digits_ne_zero (hb : 1 < b) (hb16 : b ≤ 16) : ∀ c ∈ digits b n, c ≠ 0 := by
  intro c hc
  obtain ⟨d, hd, rfl⟩ := List.mem_map.mp hc
  have hlt := numeral_lt hb d hd
  exact digitChar_ne_zero (by omega)

/-- A numeral has at least one digit. -/
theorem digits_ne_nil (b n : Nat) : digits b n ≠ [] := by
  simpa [digits] using numeral_ne_nil b n

/-- A numeral stands for its number. -/
theorem readDigits_digits (hb : 1 < b) (hb16 : b ≤ 16) : readDigits b (digits b n) = some n := by
  have hidx : ∀ d ∈ numeral b n, hexdigits.idxOf (digitChar d) = d := by
    intro d hd
    have hlt := numeral_lt hb d hd
    exact idxOf_digitChar (by omega)
  have hdigits : ∀ c ∈ digits b n, ¬ b ≤ hexdigits.idxOf c := by
    intro c hc
    obtain ⟨d, hd, rfl⟩ := List.mem_map.mp hc
    rw [hidx d hd]
    exact Nat.not_le.mpr (numeral_lt hb d hd)
  have hread : ¬ ((digits b n).isEmpty = true ∨
      (digits b n).any (fun c => b ≤ hexdigits.idxOf c) = true) := by
    rw [List.isEmpty_iff, List.any_eq_true]
    intro h
    rcases h with hnil | ⟨c, hc, hle⟩
    · exact digits_ne_nil b n hnil
    · exact hdigits c hc (of_decide_eq_true hle)
  have hvalue : (digits b n).map (hexdigits.idxOf ·) = numeral b n := by
    rw [digits, List.map_map, List.map_congr_left (g := id), List.map_id]
    exact hidx
  rw [readDigits, if_neg hread, hvalue, value_numeral]

/-- Different numbers have different numerals. -/
theorem digits_inj (hb : 1 < b) (hb16 : b ≤ 16) (h : digits b n = digits b m) : n = m := by
  have hread := readDigits_digits (n := n) hb hb16
  rw [h, readDigits_digits hb hb16] at hread
  exact (Option.some.inj hread).symm

/-- A number below a power of the base has no more digits than the exponent. -/
theorem digits_length_le {k : Nat} (hb : 1 < b) (hk : 0 < k) (h : n < b ^ k) :
    (digits b n).length ≤ k := by
  simpa [digits] using numeral_length_le hb hk h

/-! ## Decimal output -/

/-- The values that the digits are taken from: those that are not negative, and the one that
negation leaves as it is. -/
def Sized (value : Int32) : Prop := 0 ≤ value.toInt ∨ value.toInt = -0x80000000

/-- The first division is ordinary, except for the number that has no negative. -/
theorem Sized.cases {value : Int32} (h : Sized value) :
    (0 ≤ value.toInt ∧ ¬ value < 0 ∧ (value / 10).toInt = value.toInt / 10 ∧
      ¬ value / 10 < 0) ∨ value = Int32.minValue := by
  have hdiv := toInt_div10 value
  have h0 : (0 : Int32).toInt = 0 := by decide
  rcases h with hpos | hmin
  · left
    rw [if_neg (by omega)] at hdiv
    rw [Int32.lt_iff_toInt_lt, Int32.lt_iff_toInt_lt, h0]
    exact ⟨hpos, by omega, hdiv, by omega⟩
  · right
    exact Int32.toInt_inj.mp hmin

/-- The size of a number that is not negative is the number. -/
theorem decimalSize_of_nonneg {value : Int32} (h : 0 ≤ value.toInt) :
    (decimalSize value : Int) = value.toInt := by
  have hnot : ¬ value < 0 := by
    rw [Int32.lt_iff_toInt_lt, show (0 : Int32).toInt = 0 by decide]
    omega
  rw [decimalSize, if_neg hnot, Int.toNat_of_nonneg h]

/-- Every division yields a tenth of the size, and from the first on nothing is negative. -/
theorem Sized.quotient {value : Int32} (h : Sized value) :
    0 ≤ (decimalQuotient value).toInt ∧
      (decimalQuotient value).toInt = (decimalSize value / 10 : Nat) := by
  rcases h.cases with ⟨hpos, -, hdiv, hquotient⟩ | rfl
  · have hsize := decimalSize_of_nonneg hpos
    rw [decimalQuotient, if_neg hquotient]
    omega
  · decide

/-- The character that a turn puts last. -/
theorem Sized.digit {value : Int32} (h : Sized value) :
    ((if value / 10 < 0 then 8 else value) % 10 + 48).toUInt32.toUInt8 =
      digitChar (decimalSize value % 10) := by
  rcases h.cases with ⟨hpos, -, -, hquotient⟩ | rfl
  · have hsize := decimalSize_of_nonneg hpos
    rw [if_neg hquotient]
    have hmod : (value % 10).toInt = (decimalSize value % 10 : Nat) := by
      rw [Int32.toInt_mod, show (10 : Int32).toInt = 10 by decide, Int.tmod_eq_emod_of_nonneg hpos]
      omega
    have hof : value % 10 = Int32.ofInt (decimalSize value % 10 : Nat) := by
      rw [← hmod, Int32.ofInt_toInt]
    have hall : ∀ d < 10, (Int32.ofInt (d : Nat) + 48).toUInt32.toUInt8 = digitChar d := by decide
    rw [hof]
    exact hall _ (Nat.mod_lt _ (by decide))
  · decide

/-- So the recursion stays among these values. -/
theorem Sized.of_quotient {value : Int32} (h : Sized value) : Sized (decimalQuotient value) :=
  Or.inl h.quotient.1

/-- **The recursion of `__cvtdec0`** puts the digits of the size behind what is there, by induction
on the size. -/
theorem cvtdec0_filled {chars : List UInt8} {value : Int32} (h : Sized value) :
    cvtdec0 (filled buf chars) value = filled buf (chars ++ digits 10 (decimalSize value)) := by
  induction hsize : decimalSize value using Nat.strong_induction_on generalizing value with
  | _ size ih =>
    have hquotient := h.quotient
    have hdigit := h.digit
    rw [hsize] at hquotient hdigit
    rw [cvtdec0]
    simp only [hdigit]
    by_cases hzero : decimalQuotient value = 0
    · have hsmall : size < 10 := by
        rw [hzero, show (0 : Int32).toInt = 0 by decide] at hquotient
        omega
      rw [if_neg (by simpa using hzero), filled_put, Nat.mod_eq_of_lt hsmall, digits,
        numeral_of_lt hsmall, List.map_singleton]
    · have hlt := decimalQuotient_lt hzero
      have hrest : decimalSize (decimalQuotient value) = size / 10 := by
        have hsize' := decimalSize_of_nonneg hquotient.1
        omega
      have hpos : 0 < size / 10 := by
        have hne : (decimalQuotient value).toInt ≠ (0 : Int32).toInt :=
          fun heq => hzero (Int32.toInt_inj.mp heq)
        rw [show (0 : Int32).toInt = 0 by decide] at hne
        omega
      have hpush : digits 10 size = digits 10 (size / 10) ++ [digitChar (size % 10)] := by
        conv_lhs => rw [← Nat.div_add_mod' size 10]
        rw [digits, numeral_push hpos (Nat.mod_lt _ (by decide)) (by decide), List.map_append]
        rfl
      rw [if_pos hzero, ih _ (by omega) h.of_quotient hrest, filled_put, hpush, List.append_assoc]

/-- The string of a number in decimal. -/
def decimal (n : Int) : List UInt8 :=
  (if n < 0 then [chr '-'] else []) ++ digits 10 n.natAbs

/-- Negation, which leaves the least value as it is. -/
theorem sized_neg {value : Int32} (h : value.toInt < 0) :
    Sized (-value) ∧ decimalSize (-value) = value.toInt.natAbs := by
  have hle := value.le_toInt
  by_cases hmin : value.toInt = -0x80000000
  · obtain rfl : value = Int32.minValue := Int32.toInt_inj.mp hmin
    exact ⟨Or.inr (by decide), by decide⟩
  · have hneg : (-value).toInt = -value.toInt := by
      rw [Int32.toInt_neg]
      exact Int.bmod_eq_of_le (by omega) (by omega)
    have hsize := decimalSize_of_nonneg (show 0 ≤ (-value).toInt by omega)
    exact ⟨Or.inl (by omega), by omega⟩

/-- **`__cvtdec`** writes the decimal numeral, sign included. -/
theorem cvtdec_eq (buf : Bytes) (value : Int32) :
    cvtdec buf value = (filled buf (decimal value.toInt)).finish := by
  have h0 : (0 : Int32).toInt = 0 := by decide
  unfold cvtdec decimal
  simp only [Int32.lt_iff_toInt_lt, h0]
  split
  case isTrue hneg =>
    obtain ⟨hsized, hsize⟩ := sized_neg hneg
    rw [← filled_nil, filled_put, cvtdec0_filled hsized, hsize, List.nil_append]
  case isFalse hpos =>
    have hsize := decimalSize_of_nonneg (show 0 ≤ value.toInt by omega)
    rw [← filled_nil, cvtdec0_filled (Or.inl (by omega)),
      show decimalSize value = value.toInt.natAbs by omega]

/-- The number that a decimal string stands for: digits, behind a minus sign or not. -/
def readDecimal (chars : List UInt8) : Option Int :=
  if chars.head? = some (chr '-') then (readDigits 10 chars.tail).map fun n => -(n : Int)
  else (readDigits 10 chars).map fun n => (n : Int)

/-- Digits behind at most one minus sign, of which only the numeral of zero starts with a zero. -/
def Canonical (chars : List UInt8) : Prop :=
  ∃ (sign : Bool) (ds : List Nat),
    chars = (if sign then [chr '-'] else []) ++ ds.map digitChar ∧ ds ≠ [] ∧ (∀ d ∈ ds, d < 10) ∧
      (ds.head? = some 0 → sign = false ∧ ds = [0])

/-- A decimal numeral is read back as its number. -/
theorem readDecimal_decimal (n : Int) : readDecimal (decimal n) = some n := by
  have hread : readDigits 10 (digits 10 n.natAbs) = some n.natAbs :=
    readDigits_digits (by decide) (by decide)
  unfold readDecimal decimal
  by_cases hneg : n < 0
  · have habs : -(n.natAbs : Int) = n := by omega
    simpa [hneg, hread] using habs
  · have hhead : (digits 10 n.natAbs).head? ≠ some (chr '-') := by
      intro hhead
      have hmem := List.mem_of_mem_head? hhead
      obtain ⟨d, hd, hminus⟩ := List.mem_map.mp hmem
      have hall : ∀ d < 10, digitChar d ≠ chr '-' := by decide
      exact hall d (numeral_lt (by decide) d hd) hminus
    have habs : (n.natAbs : Int) = n := by omega
    simpa [hneg, hhead, hread] using habs

/-- It has no leading zeros, and zero has no sign. -/
theorem canonical_decimal (n : Int) : Canonical (decimal n) := by
  refine ⟨decide (n < 0), numeral 10 n.natAbs, by simp [decimal, digits], numeral_ne_nil _ _,
    numeral_lt (by decide), ?_⟩
  intro hhead
  have hzero := numeral_head hhead
  obtain rfl : n = 0 := by omega
  exact ⟨by decide, numeral_of_lt (by decide)⟩

/-- **Every 32-bit value fits** the buffer as a decimal numeral. -/
theorem cvtdec_prints (buf : Bytes) (value : Int32) :
    Prints buf (cvtdec buf value) (decimal value.toInt) := by
  rw [cvtdec_eq]
  have hle := value.le_toInt
  have hlt := value.toInt_lt
  have hlength : (digits 10 value.toInt.natAbs).length ≤ 10 :=
    digits_length_le (by decide) (by decide) (by omega)
  refine prints_filled ?_ ?_
  · intro c hc
    rcases List.mem_append.mp hc with hsign | hdigit
    · split at hsign
      case isTrue =>
        rw [List.mem_singleton.mp hsign]
        decide
      case isFalse => cases hsign
    · exact digits_ne_zero (by decide) (by decide) c hdigit
  · rw [decimal, List.length_append]
    split
    case isTrue => simp; omega
    case isFalse => simp; omega

/-- **Decimal output denotes the number.** -/
theorem decimal_output (buf : Bytes) (value : Int32) :
    ∃ chars, Prints buf (cvtdec buf value) chars ∧ Canonical chars ∧
      readDecimal chars = some value.toInt :=
  ⟨decimal value.toInt, cvtdec_prints buf value, canonical_decimal _, readDecimal_decimal _⟩

/-! ## Groups of bits -/

/-- The bits from a place up, taken by a mask, a shift that keeps the sign and another mask. -/
theorem top_bits {b upper lower : BitVec 32} {k : Nat}
    (hupper : ∀ j < 32, upper.getLsbD j = decide (k ≤ j))
    (hlower : ∀ j < 32, lower.getLsbD j = decide (k + j < 32)) :
    (b &&& upper).sshiftRight k &&& lower = b >>> k := by
  apply BitVec.eq_of_getLsbD_eq
  intro j hj
  rw [BitVec.getLsbD_and, hlower j hj, BitVec.getLsbD_sshiftRight, BitVec.getLsbD_ushiftRight]
  by_cases hin : k + j < 32
  · rw [if_pos hin, BitVec.getLsbD_and, hupper _ hin]
    simp [hj, hin]
  · simp [hin, BitVec.getLsbD_of_ge b _ (Nat.le_of_not_lt hin)]

/-- They are all zero. -/
theorem top_bits_eq_zero {b upper lower : BitVec 32} {k : Nat}
    (hupper : ∀ j < 32, upper.getLsbD j = decide (k ≤ j))
    (hlower : ∀ j < 32, lower.getLsbD j = decide (k + j < 32)) :
    (b &&& upper) = 0#32 ↔ b >>> k = 0#32 := by
  constructor
  · intro hzero
    rw [← top_bits hupper hlower, hzero]
    simp
  · intro hzero
    apply BitVec.eq_of_getLsbD_eq
    intro j hj
    rw [BitVec.getLsbD_and, hupper j hj]
    by_cases hk : k ≤ j
    · have hbit := congrArg (BitVec.getLsbD · (j - k)) hzero
      simp only [BitVec.getLsbD_ushiftRight, Nat.add_sub_cancel' hk] at hbit
      simp [hbit]
    · simp [hk]

/-- A mask for the upper bits and the shift that brings them down ask for the same bits. -/
theorem top_bits_shift_eq_zero {b upper lower : BitVec 32} {k : Nat}
    (hupper : ∀ j < 32, upper.getLsbD j = decide (k ≤ j))
    (hlower : ∀ j < 32, lower.getLsbD j = decide (k + j < 32)) :
    (b &&& upper).sshiftRight k = 0#32 ↔ b >>> k = 0#32 := by
  constructor
  · intro hzero
    rw [← top_bits hupper hlower, hzero, BitVec.zero_and]
  · intro hzero
    rw [(top_bits_eq_zero hupper hlower).mpr hzero, BitVec.zero_sshiftRight]

/-! ## Digits from the top -/

/-- The digits that have been shown while there are only zeros: none. -/
def leading (b n : Nat) : List UInt8 := if n = 0 then [] else digits b n

/-- The next digit: a leading zero is dropped as soon as another digit follows. -/
theorem leading_push {d : Nat} (hb : 1 < b) (hd : d < b) :
    leading b n ++ [digitChar d] = digits b (n * b + d) := by
  unfold leading
  split
  case isTrue hn => rw [hn, Nat.zero_mul, Nat.zero_add, digits, numeral_of_lt hd]; rfl
  case isFalse hn =>
    unfold digits
    rw [numeral_push (Nat.pos_of_ne_zero hn) hd hb, List.map_append]
    rfl

/-- What a turn does with a digit: it is left out while only zeros have come, unless it is the
last. -/
def Takes (last : Prop) (d : Nat) (v w : Peel) : Prop :=
  (last ∨ d ≠ 0 ∨ v.charsStored = true →
    w.out = v.out.put (digitChar d) ∧ w.charsStored = true) ∧
  (¬ (last ∨ d ≠ 0 ∨ v.charsStored = true) → w.out = v.out ∧ w.charsStored = v.charsStored)

/-- The digits of a number, from the top, leave its numeral.  `P i` is what the turn for digit
`i` starts from. -/
theorem peel_run {turn : Peel → Nat → Peel} {P : Nat → Peel → Prop} {k : Nat} {v : Peel}
    (hb : 1 < b) (hn : n < b ^ (k + 1)) (hout : v.out = filled buf [])
    (hstored : v.charsStored = false) (hplace : P 0 v)
    (step : ∀ i ≤ k, ∀ v, P i v →
      P (i + 1) (turn v i) ∧ Takes (i = k) (n / b ^ (k - i) % b) v (turn v i)) :
    ((List.range (k + 1)).foldl turn v).out = filled buf (digits b n) := by
  have hpush : ∀ i ≤ k, n / b ^ (k + 1 - i) * b + n / b ^ (k - i) % b = n / b ^ (k - i) := by
    intro i hi
    rw [show k + 1 - i = (k - i) + 1 by omega, Nat.pow_succ, ← Nat.div_div_eq_div_mul,
      Nat.div_add_mod']
  have hbefore : ∀ i ≤ k, ∀ w, (List.range i).foldl turn v = w →
      P i w ∧ w.out = filled buf (leading b (n / b ^ (k + 1 - i))) ∧
        (w.charsStored = true ↔ n / b ^ (k + 1 - i) ≠ 0) := by
    intro i
    induction i with
    | zero =>
      intro _ w hw
      obtain rfl : v = w := hw
      have hzero : n / b ^ (k + 1) = 0 := Nat.div_eq_of_lt hn
      simp [hplace, hout, hstored, hzero, leading]
    | succ i ih =>
      intro hi w hw
      obtain ⟨hplace, hout, hstored⟩ := ih (by omega) _ rfl
      obtain ⟨hnext, htake, hleave⟩ := step i (by omega) _ hplace
      rw [List.range_succ, List.foldl_concat] at hw
      rw [hw] at hnext htake hleave
      have hd : n / b ^ (k - i) % b < b := Nat.mod_lt _ (by omega)
      have hsum := hpush i (by omega)
      have hk : k + 1 - (i + 1) = k - i := by omega
      rw [hk, ← hsum]
      refine ⟨hnext, ?_⟩
      by_cases htaken : n / b ^ (k - i) % b ≠ 0 ∨
          (List.foldl turn v (List.range i)).charsStored = true
      · obtain ⟨hwout, hwstored⟩ := htake (Or.inr htaken)
        have hne : n / b ^ (k + 1 - i) * b + n / b ^ (k - i) % b ≠ 0 := by
          rcases htaken with hdigit | hbefore
          · omega
          · have hpos := Nat.mul_pos (Nat.pos_of_ne_zero (hstored.mp hbefore)) (show 0 < b by omega)
            omega
        rw [hwout, hout, filled_put, leading_push hb hd, leading, if_neg hne]
        exact ⟨rfl, iff_of_true hwstored hne⟩
      · have hnot : ¬ (i = k ∨ n / b ^ (k - i) % b ≠ 0 ∨
            (List.foldl turn v (List.range i)).charsStored = true) := by
          intro hany
          rcases hany with heq | h
          · omega
          · exact htaken h
        obtain ⟨hwout, hwstored⟩ := hleave hnot
        obtain ⟨hdigit, hbefore⟩ := not_or.mp htaken
        have hzero : n / b ^ (k + 1 - i) = 0 := not_not.mp fun h => hbefore (hstored.mpr h)
        rw [hwout, hwstored, hout, hstored, not_not.mp hdigit, hzero, Nat.zero_mul]
        exact ⟨rfl, Iff.rfl⟩
  obtain ⟨hplace, hout, -⟩ := hbefore k le_rfl _ rfl
  obtain ⟨-, htake, -⟩ := step k le_rfl _ hplace
  have hsum := hpush k le_rfl
  have hd : n / b ^ (k - k) % b < b := Nat.mod_lt _ (by omega)
  rw [List.range_succ, List.foldl_concat, (htake (Or.inl rfl)).1, hout, filled_put,
    leading_push hb hd, hsum, Nat.sub_self, Nat.pow_zero, Nat.div_one]

/-! ## Hexadecimal and octal output -/

/-- A value read as unsigned. -/
def unsigned (value : Int32) : Nat := value.toUInt32.toNat

/-- Shifting left drops the digit at the top. -/
theorem unsigned_shiftLeft (value : Int32) :
    unsigned (value <<< 4) = unsigned value * 16 % 0x100000000 ∧
      unsigned (value <<< 3) = unsigned value * 8 % 0x100000000 := by
  have h4 : unsigned (value <<< 4) = (value.toBitVec <<< (4#32)).toNat := rfl
  have h3 : unsigned (value <<< 3) = (value.toBitVec <<< (3#32)).toNat := rfl
  rw [h4, h3]
  simp only [BitVec.toNat_shiftLeft, BitVec.shiftLeft_eq', Nat.shiftLeft_eq]
  exact ⟨rfl, rfl⟩

/-- What a shift of the bits means for the number. -/
theorem toNat_of_toBitVec {x value : Int32} {k : Nat} (hk : 0 < k)
    (h : x.toBitVec = value.toBitVec >>> k) :
    x.toInt.toNat = unsigned value / 2 ^ k := by
  have hnat : (value.toBitVec >>> k).toNat = unsigned value / 2 ^ k := by
    rw [BitVec.toNat_ushiftRight, Nat.shiftRight_eq_div_pow]
    rfl
  have hlt : unsigned value < 2 ^ 32 := value.toUInt32.toNat_lt
  have hhalf : unsigned value / 2 ^ k ≤ unsigned value / 2 ^ 1 :=
    Nat.div_le_div_left (Nat.pow_le_pow_right (by decide) hk) (by decide)
  rw [← Int32.toInt_toBitVec, h, BitVec.toInt_eq_toNat_of_lt (by omega), hnat, Int.toNat_natCast]

/-- The test for zero, in the same terms. -/
theorem ne_zero_of_toBitVec {x value : Int32} {k : Nat}
    (h : x.toBitVec = 0#32 ↔ value.toBitVec >>> k = 0#32) : x ≠ 0 ↔ unsigned value / 2 ^ k ≠ 0 := by
  have hnat : (value.toBitVec >>> k).toNat = unsigned value / 2 ^ k := by
    rw [BitVec.toNat_ushiftRight, Nat.shiftRight_eq_div_pow]
    rfl
  have hx : x = 0 ↔ x.toBitVec = 0#32 := Int32.toBitVec_inj.symm
  rw [Ne, hx, h, ← hnat, BitVec.toNat_eq]
  rfl

/-- The first four bits are the first hexadecimal digit. -/
theorem hex_group (value : Int32) :
    (value &&& pattern 0xf0000000 ≠ 0 ↔ unsigned value / 2 ^ 28 ≠ 0) ∧
      hexdigit ((value &&& pattern 0xf0000000) >>> 28 &&& 0xf) =
        digitChar (unsigned value / 2 ^ 28) := by
  have hupper : ∀ j < 32, (0xf0000000#32).getLsbD j = decide (28 ≤ j) := by decide
  have hlower : ∀ j < 32, (0xf#32).getLsbD j = decide (28 + j < 32) := by decide
  exact ⟨ne_zero_of_toBitVec (top_bits_eq_zero hupper hlower),
    congrArg digitChar (toNat_of_toBitVec (by decide) (top_bits hupper hlower))⟩

/-- Three bits are an octal digit. -/
theorem oct_group (value : Int32) :
    ((value &&& pattern 0xe0000000) >>> 29 ≠ 0 ↔ unsigned value / 2 ^ 29 ≠ 0) ∧
      hexdigit ((value &&& pattern 0xe0000000) >>> 29 &&& 0x7) =
        digitChar (unsigned value / 2 ^ 29) := by
  have hupper : ∀ j < 32, (0xe0000000#32).getLsbD j = decide (29 ≤ j) := by decide
  have hlower : ∀ j < 32, (0x7#32).getLsbD j = decide (29 + j < 32) := by decide
  exact ⟨ne_zero_of_toBitVec (top_bits_shift_eq_zero hupper hlower),
    congrArg digitChar (toNat_of_toBitVec (by decide) (top_bits hupper hlower))⟩

/-- The digit that the first two bits give, the higher one copied above them. -/
def leadDigit (value : Int32) : Nat :=
  if unsigned value / 2 ^ 30 < 2 then unsigned value / 2 ^ 30 else unsigned value / 2 ^ 30 + 4

/-- The two bits at the top are the first one, as the arithmetic shift leaves them. -/
theorem lead_group (value : Int32) :
    ((value &&& pattern 0xc0000000) >>> 30 ≠ 0 ↔ leadDigit value ≠ 0) ∧
      hexdigit ((value &&& pattern 0xc0000000) >>> 30 &&& 0x7) = digitChar (leadDigit value) := by
  have hnat : (value.toBitVec >>> 30).toNat = unsigned value / 2 ^ 30 := by
    rw [BitVec.toNat_ushiftRight, Nat.shiftRight_eq_div_pow]
    rfl
  have hlt : unsigned value < 2 ^ 32 := value.toUInt32.toNat_lt
  have hmask : value.toBitVec &&& 0xc0000000#32 =
      BitVec.ofNat 32 (unsigned value / 2 ^ 30) <<< 30 := by
    have hupper : ∀ j < 32, (0xc0000000#32).getLsbD j = decide (30 ≤ j) := by decide
    rw [← hnat, BitVec.ofNat_toNat, BitVec.setWidth_eq]
    apply BitVec.eq_of_getLsbD_eq
    intro j hj
    rw [BitVec.getLsbD_and, hupper j hj, BitVec.getLsbD_shiftLeft, BitVec.getLsbD_ushiftRight]
    grind
  have hvalue : value &&& pattern 0xc0000000 =
      Int32.ofBitVec (BitVec.ofNat 32 (unsigned value / 2 ^ 30) <<< 30) := by
    rw [← hmask]
    rfl
  have hall : ∀ d < 4,
      (Int32.ofBitVec (BitVec.ofNat 32 d <<< 30) >>> 30 ≠ 0 ↔ (if d < 2 then d else d + 4) ≠ 0) ∧
      hexdigit (Int32.ofBitVec (BitVec.ofNat 32 d <<< 30) >>> 30 &&& 0x7) =
        digitChar (if d < 2 then d else d + 4) := by decide
  rw [hvalue]
  exact hall _ (by omega)

/-- **`__cvthex`** writes the hexadecimal numeral of the unsigned value. -/
theorem cvthex_eq (buf : Bytes) (value : Int32) :
    cvthex buf value = (filled buf (digits 16 (unsigned value))).finish := by
  have hlt : unsigned value < 2 ^ 32 := value.toUInt32.toNat_lt
  unfold cvthex
  rw [peel_run (b := 16) (k := 7) (n := unsigned value)
    (P := fun i v => unsigned v.value = unsigned value * 16 ^ i % 0x100000000)
    (by decide) hlt rfl rfl]
  · simp only [Nat.pow_zero]
    omega
  · intro i hi v hplace
    obtain ⟨hzero, hdigit⟩ := hex_group v.value
    have hshift := (unsigned_shiftLeft v.value).1
    have hd : unsigned v.value / 2 ^ 28 = unsigned value / 16 ^ (7 - i) % 16 := by
      rw [hplace]
      interval_cases i <;> omega
    rw [hd] at hzero hdigit
    rw [hplace, Nat.mod_mul_mod, Nat.mul_assoc, ← Nat.pow_succ] at hshift
    unfold Takes hexTurn
    simp only [hzero, hdigit]
    split
    case isTrue htaken => exact ⟨hshift, fun _ => ⟨rfl, rfl⟩, absurd htaken⟩
    case isFalse hleft => exact ⟨hshift, fun htaken => absurd htaken hleft, fun _ => ⟨rfl, rfl⟩⟩

/-- The number that octal output shows: the first digit, and then the bits below the first three,
a place too high. -/
def octalShown (value : Int32) : Nat := leadDigit value * 2 ^ 30 + 2 * (unsigned value % 2 ^ 29)

/-- Eleven octal digits are enough. -/
theorem octalShown_lt (value : Int32) : octalShown value < 8 ^ 11 := by
  have hlt : unsigned value < 2 ^ 32 := value.toUInt32.toNat_lt
  unfold octalShown leadDigit
  split <;> omega

/-- **`__cvtoct`** writes the octal numeral of what it shows. -/
theorem cvtoct_eq (buf : Bytes) (value : Int32) :
    cvtoct buf value = (filled buf (digits 8 (octalShown value))).finish := by
  have hlt : unsigned value < 2 ^ 32 := value.toUInt32.toNat_lt
  have hshown := octalShown_lt value
  have hlead : octalShown value / 8 ^ 10 % 8 = leadDigit value := by
    unfold octalShown leadDigit
    split <;> omega
  have hlater : ∀ i < 10, unsigned value * 8 ^ (i + 1) % 0x100000000 / 2 ^ 29 =
      octalShown value / 8 ^ (10 - (i + 1)) % 8 := by
    intro i hi
    unfold octalShown
    generalize leadDigit value = lead
    interval_cases i <;> omega
  unfold cvtoct
  rw [peel_run (b := 8) (k := 10) (n := octalShown value)
    (P := fun i v => unsigned v.value = unsigned value * 8 ^ i % 0x100000000 ∧ (i ≤ 10 →
      (v.val ≠ 0 ↔ octalShown value / 8 ^ (10 - i) % 8 ≠ 0) ∧
      hexdigit (v.val &&& 0x7) = digitChar (octalShown value / 8 ^ (10 - i) % 8)))
    (by decide) hshown rfl rfl]
  · refine ⟨?_, fun _ => ?_⟩
    · simp only [Nat.pow_zero]
      omega
    · rw [Nat.sub_zero, hlead]
      exact lead_group value
  · intro i hi v hplace
    obtain ⟨hvalue, hval⟩ := hplace
    obtain ⟨hzero, hdigit⟩ := hval hi
    have hshift := (unsigned_shiftLeft v.value).2
    rw [hvalue, Nat.mod_mul_mod, Nat.mul_assoc, ← Nat.pow_succ] at hshift
    have hgroup := oct_group (v.value <<< 3)
    have hnext : i + 1 ≤ 10 →
        ((v.value <<< 3 &&& pattern 0xe0000000) >>> 29 ≠ 0 ↔
          octalShown value / 8 ^ (10 - (i + 1)) % 8 ≠ 0) ∧
        hexdigit ((v.value <<< 3 &&& pattern 0xe0000000) >>> 29 &&& 0x7) =
          digitChar (octalShown value / 8 ^ (10 - (i + 1)) % 8) := by
      intro hi
      rw [← hlater i hi, ← hshift]
      exact hgroup
    unfold Takes octTurn
    simp only [hzero, hdigit]
    split
    case isTrue htaken => exact ⟨⟨hshift, hnext⟩, fun _ => ⟨rfl, rfl⟩, absurd htaken⟩
    case isFalse hleft =>
      exact ⟨⟨hshift, hnext⟩, fun htaken => absurd htaken hleft, fun _ => ⟨rfl, rfl⟩⟩

/-- The number that is shown is that of the value for two values only. -/
theorem octalShown_eq_iff (value : Int32) :
    octalShown value = unsigned value ↔ value = 0 ∨ value = 0x40000000 := by
  have hlt : unsigned value < 2 ^ 32 := value.toUInt32.toNat_lt
  have hunsigned : ∀ w : Int32, value = w ↔ unsigned value = unsigned w := by
    intro w
    rw [← Int32.toBitVec_inj, ← BitVec.toNat_inj]
    rfl
  rw [hunsigned 0, hunsigned 0x40000000, show unsigned 0 = 0 by decide,
    show unsigned 0x40000000 = 0x40000000 by decide]
  unfold octalShown leadDigit
  split <;> omega

/-- A numeral of at most eleven digits fits the buffer. -/
theorem prints_digits {b : Nat} (hb : 1 < b) (hb16 : b ≤ 16) (hn : n < b ^ 11) :
    Prints buf (filled buf (digits b n)).finish (digits b n) := by
  have hlength := digits_length_le (n := n) hb (by decide) hn
  exact prints_filled (digits_ne_zero hb hb16) (by omega)

/-- **Every 32-bit value fits** the buffer as a hexadecimal numeral. -/
theorem cvthex_prints (buf : Bytes) (value : Int32) :
    Prints buf (cvthex buf value) (digits 16 (unsigned value)) := by
  have hlt : unsigned value < 2 ^ 32 := value.toUInt32.toNat_lt
  rw [cvthex_eq]
  exact prints_digits (by decide) (by decide) (by omega)

/-- Octal output shows the digits of a number, but not of the value. -/
theorem cvtoct_prints (buf : Bytes) (value : Int32) :
    Prints buf (cvtoct buf value) (digits 8 (octalShown value)) := by
  rw [cvtoct_eq]
  exact prints_digits (by decide) (by decide) (octalShown_lt value)

/-- **Numbers in bases of bits.**  Hexadecimal output always denotes the value read as unsigned;
octal output does so for zero and for 2^30 only. -/
theorem radix_output_iff (buf : Bytes) (value : Int32) :
    Prints buf (cvthex buf value) (digits 16 (unsigned value)) ∧
      (Prints buf (cvtoct buf value) (digits 8 (unsigned value)) ↔
        value = 0 ∨ value = 0x40000000) := by
  refine ⟨cvthex_prints buf value, ?_⟩
  rw [← octalShown_eq_iff]
  constructor
  · intro hprints
    have htext := (cvtoct_prints buf value).text.symm.trans hprints.text
    exact digits_inj (by decide) (by decide) htext
  · intro heq
    have hprints := cvtoct_prints buf value
    rwa [heq] at hprints

/-- Eight is shown as `20`. -/
theorem octal_eight : text (cvtoct (fun _ => 0) 8) = [chr '2', chr '0'] ∧
    ¬ Prints (fun _ => 0) (cvtoct (fun _ => 0) 8) (digits 8 (unsigned 8)) := by
  have htwo : digits 8 (octalShown 8) = [chr '2', chr '0'] := by
    rw [digits, show octalShown 8 = 2 * 8 + 0 by decide,
      numeral_push (by decide) (by decide) (by decide), numeral_of_lt (by decide)]
    decide
  have hone : digits 8 (unsigned 8) = [chr '1', chr '0'] := by
    rw [digits, show unsigned 8 = 1 * 8 + 0 by decide,
      numeral_push (by decide) (by decide) (by decide), numeral_of_lt (by decide)]
    decide
  have htext := (cvtoct_prints (fun _ => 0) 8).text.trans htwo
  refine ⟨htext, ?_⟩
  intro hprints
  have hsame := htext.symm.trans (hprints.text.trans hone)
  exact absurd hsame (by decide)

end Cumulonimbus.Printf
