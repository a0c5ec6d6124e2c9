import Mathlib.Logic.Function.Basic
import Mathlib.Tactic.Ring

/-!
# Numbers in little-endian byte order

A number is stored in a run of bytes, least significant byte first.  `leNat` reads
`w` bytes from the start of a run; `byte n k` is the byte that belongs at position
`k`.  `get64` and `get32` read a fixed-width field at an offset.

Nothing here depends on the program that is verified with it.
-/

namespace Bytes

/-- The number in the first `w` bytes. -/
def leNat : Nat → (Nat → UInt8) → Nat
  | 0, _ => 0
  | w + 1, b => (b 0).toNat + 256 * leNat w fun k => b (k + 1)

/-- Byte `k` of a number. -/
def byte (n k : Nat) : UInt8 := UInt8.ofNat (n / 256 ^ k)

/-- A number depends on its bytes. -/
theorem leNat_congr {w : Nat} {b b' : Nat → UInt8} (h : ∀ k, k < w → b k = b' k) :
    leNat w b = leNat w b' := by
  induction w generalizing b b' with
  | zero => rfl
  | succ w ih =>
    rw [leNat, leNat, h 0 (Nat.succ_pos w), ih fun k hk => h (k + 1) (Nat.succ_lt_succ hk)]

/-- It has no more digits than bytes. -/
theorem leNat_lt (w : Nat) (b : Nat → UInt8) : leNat w b < 256 ^ w := by
  induction w generalizing b with
  | zero => exact Nat.one_pos
  | succ w ih =>
    have hrest := ih fun k => b (k + 1)
    have hfirst := (b 0).toNat_lt
    rw [leNat, Nat.pow_succ']
    omega

/-- The bytes are the digits of the number. -/
theorem leNat_inj {w : Nat} {b b' : Nat → UInt8} (h : leNat w b = leNat w b') :
    ∀ k < w, b k = b' k := by
  induction w generalizing b b' with
  | zero => intro k hk; exact absurd hk (Nat.not_lt_zero k)
  | succ w ih =>
    rw [leNat, leNat] at h
    have hb := (b 0).toNat_lt
    have hb' := (b' 0).toNat_lt
    have hfirst : b 0 = b' 0 := UInt8.toNat_inj.mp (by omega)
    have hrest := @ih (fun k => b (k + 1)) (fun k => b' (k + 1)) (by omega)
    intro k hk
    cases k with
    | zero => exact hfirst
    | succ k => exact hrest k (by omega)

/-- Reading back what was stored. -/
theorem leNat_byte (w n : Nat) : leNat w (byte n) = n % 256 ^ w := by
  induction w generalizing n with
  | zero => simp [leNat, Nat.mod_one]
  | succ w ih =>
    have hrest : (fun k => byte n (k + 1)) = byte (n / 256) := by
      funext k
      rw [byte, byte, Nat.pow_succ', Nat.div_div_eq_div_mul]
    have hlow : (byte n 0).toNat = n % 256 := by simp [byte]
    rw [leNat, hrest, ih, hlow, Nat.pow_succ', Nat.mod_mul]

/-- The 64-bit number at an offset. -/
def get64 (b : Nat → UInt8) (off : Nat) : UInt64 := UInt64.ofNat (leNat 8 fun k => b (off + k))

/-- The 32-bit number at an offset. -/
def get32 (b : Nat → UInt8) (off : Nat) : UInt32 := UInt32.ofNat (leNat 4 fun k => b (off + k))

/-- The 16-bit number at an offset. -/
def get16 (b : Nat → UInt8) (off : Nat) : UInt16 := UInt16.ofNat (leNat 2 fun k => b (off + k))

/-- The bytes of a number are read back as the number. -/
theorem get64_eq {b : Nat → UInt8} {off : Nat} {x : UInt64}
    (h : ∀ k, k < 8 → b (off + k) = byte x.toNat k) : get64 b off = x := by
  have hmod : x.toNat % 256 ^ 8 = x.toNat := Nat.mod_eq_of_lt x.toNat_lt
  rw [get64, leNat_congr h, leNat_byte, hmod, UInt64.ofNat_toNat]

/-- Four bytes. -/
theorem get32_eq {b : Nat → UInt8} {off : Nat} {x : UInt32}
    (h : ∀ k, k < 4 → b (off + k) = byte x.toNat k) : get32 b off = x := by
  have hmod : x.toNat % 256 ^ 4 = x.toNat := Nat.mod_eq_of_lt x.toNat_lt
  rw [get32, leNat_congr h, leNat_byte, hmod, UInt32.ofNat_toNat]

/-- Two bytes. -/
theorem get16_eq {b : Nat → UInt8} {off : Nat} {x : UInt16}
    (h : ∀ k, k < 2 → b (off + k) = byte x.toNat k) : get16 b off = x := by
  have hmod : x.toNat % 256 ^ 2 = x.toNat := Nat.mod_eq_of_lt x.toNat_lt
  rw [get16, leNat_congr h, leNat_byte, hmod, UInt16.ofNat_toNat]

/-- A number depends on its eight bytes. -/
theorem get64_congr {b b' : Nat → UInt8} {off off' : Nat}
    (h : ∀ k, k < 8 → b (off + k) = b' (off' + k)) : get64 b off = get64 b' off' := by
  rw [get64, get64, leNat_congr h]

/-- A number depends on its four bytes. -/
theorem get32_congr {b b' : Nat → UInt8} {off off' : Nat}
    (h : ∀ k, k < 4 → b (off + k) = b' (off' + k)) : get32 b off = get32 b' off' := by
  rw [get32, get32, leNat_congr h]

/-- Different bytes make different numbers. -/
theorem get32_inj {b b' : Nat → UInt8} {off : Nat} (h : get32 b off = get32 b' off) :
    ∀ k < 4, b (off + k) = b' (off + k) := by
  refine @leNat_inj 4 (fun k => b (off + k)) (fun k => b' (off + k)) ?_
  have hlt := leNat_lt 4 fun k => b (off + k)
  have hlt' := leNat_lt 4 fun k => b' (off + k)
  have hnat := congrArg UInt32.toNat h
  rw [get32, get32, UInt32.toNat_ofNat', UInt32.toNat_ofNat'] at hnat
  omega

/-- A number depends on its two bytes. -/
theorem get16_congr {b b' : Nat → UInt8} {off off' : Nat}
    (h : ∀ k, k < 2 → b (off + k) = b' (off' + k)) : get16 b off = get16 b' off' := by
  rw [get16, get16, leNat_congr h]

/-- The bytes of a field. -/
theorem byte_get16 (b : Nat → UInt8) (off : Nat) {k : Nat} (hk : k < 2) :
    byte (get16 b off).toNat k = b (off + k) := by
  have hlt := leNat_lt 2 fun k => b (off + k)
  have hval : (get16 b off).toNat = leNat 2 fun k => b (off + k) := by
    rw [get16, UInt16.toNat_ofNat']
    exact Nat.mod_eq_of_lt hlt
  have hbytes : leNat 2 (byte (get16 b off).toNat) = leNat 2 fun k => b (off + k) := by
    rw [leNat_byte, hval, Nat.mod_eq_of_lt hlt]
  exact leNat_inj hbytes k hk

/-- The field of a run of zeros. -/
theorem get64_zero {b : Nat → UInt8} {off : Nat} (h : ∀ k, k < 8 → b (off + k) = 0) :
    get64 b off = 0 :=
  get64_eq fun k hk => by simp [h k hk, byte]

/-- Bytes of zero make zero. -/
theorem get32_zero {b : Nat → UInt8} {off : Nat} (h : ∀ k, k < 4 → b (off + k) = 0) :
    get32 b off = 0 :=
  get32_eq fun k hk => by simp [h k hk, byte]

end Bytes
