import Cumulonimbus.Fields
import Cumulonimbus.Pci

/-!
# Configuration registers

Every function has its own registers: the address port tells the four parts of an address
apart.  A byte or a short is written into a register by or-ing it in, so that bits that were set
there stay set.
-/

namespace Cumulonimbus.Pci

open Exec Fields

variable {W : UInt32 → UInt32 → UInt32 → UInt32} {E : Fault → Prop} {s : State}

/-! ## Addresses -/

/-- A mask of the low bits. -/
theorem and_low (mask n : Nat) (h : mask = 2 ^ n - 1) (w : Nat) : w &&& mask = w % 2 ^ n := by
  rw [h, Nat.and_two_pow_sub_one_eq_mod]

/-- The address that goes to the port, field by field. -/
theorem toNat_portAddress (configAddr : UInt8) (a : Addr) :
    (portAddress configAddr a).toNat =
      a.bus.toNat <<< 16 ||| (a.slot.toNat % 32) <<< 11 ||| (a.func.toNat % 8) <<< 8 |||
        (configAddr.toNat % 2) <<< 31 ||| (a.offset.toNat % 64) <<< 2 := by
  have hbus : (a.bus.toNat &&& 255) <<< 16 % 4294967296 = a.bus.toNat <<< 16 := by
    have hlt := a.bus.toNat_lt
    rw [and_low 255 8 rfl, Nat.shiftLeft_eq, Nat.shiftLeft_eq]
    omega
  have hslot : (a.slot.toNat &&& 31) <<< 11 % 4294967296 = (a.slot.toNat % 32) <<< 11 := by
    rw [and_low 31 5 rfl, Nat.shiftLeft_eq, Nat.shiftLeft_eq]
    omega
  have hfunc : (a.func.toNat &&& 7) <<< 8 % 4294967296 = (a.func.toNat % 8) <<< 8 := by
    rw [and_low 7 3 rfl, Nat.shiftLeft_eq, Nat.shiftLeft_eq]
    omega
  have hconf : configAddr.toNat <<< 31 % 4294967296 = (configAddr.toNat % 2) <<< 31 := by
    rw [Nat.shiftLeft_eq, Nat.shiftLeft_eq]
    omega
  have hoffset : (a.offset.toNat &&& 63) <<< 2 % 4294967296 = (a.offset.toNat % 64) <<< 2 := by
    rw [and_low 63 6 rfl, Nat.shiftLeft_eq, Nat.shiftLeft_eq]
    omega
  simp [portAddress, hbus, hslot, hfunc, hconf, hoffset]

/-- What of an address the hardware sees. -/
structure SameRegister (a b : Addr) : Prop where
  bus : a.bus = b.bus
  slot : a.slot.toNat % 32 = b.slot.toNat % 32
  func : a.func.toNat % 8 = b.func.toNat % 8
  offset : a.offset.toNat % 64 = b.offset.toNat % 64

/-- Each part of an address is a field of what is written to the port. -/
theorem field_portAddress (configAddr : UInt8) (a : Addr) :
    field 16 8 (portAddress configAddr a).toNat = a.bus.toNat ∧
      field 11 5 (portAddress configAddr a).toNat = a.slot.toNat % 32 ∧
      field 8 3 (portAddress configAddr a).toNat = a.func.toNat % 8 ∧
      field 2 6 (portAddress configAddr a).toNat = a.offset.toNat % 64 := by
  have hbus : a.bus.toNat < 2 ^ 8 := a.bus.toNat_lt
  have hslot : a.slot.toNat % 32 < 2 ^ 5 := Nat.mod_lt _ (by decide)
  have hfunc : a.func.toNat % 8 < 2 ^ 3 := Nat.mod_lt _ (by decide)
  have hconf : configAddr.toNat % 2 < 2 ^ 1 := Nat.mod_lt _ (by decide)
  have hoffset : a.offset.toNat % 64 < 2 ^ 6 := Nat.mod_lt _ (by decide)
  rw [toNat_portAddress]
  simp only [field_or]
  refine ⟨?_, ?_, ?_, ?_⟩
  · rw [field_shiftLeft_self hbus, field_shiftLeft_apart hslot, field_shiftLeft_apart hfunc,
      field_shiftLeft_apart hconf, field_shiftLeft_apart hoffset] <;> simp
  · rw [field_shiftLeft_self hslot, field_shiftLeft_apart hbus, field_shiftLeft_apart hfunc,
      field_shiftLeft_apart hconf, field_shiftLeft_apart hoffset] <;> simp
  · rw [field_shiftLeft_self hfunc, field_shiftLeft_apart hbus, field_shiftLeft_apart hslot,
      field_shiftLeft_apart hconf, field_shiftLeft_apart hoffset] <;> simp
  · rw [field_shiftLeft_self hoffset, field_shiftLeft_apart hbus, field_shiftLeft_apart hslot,
      field_shiftLeft_apart hfunc, field_shiftLeft_apart hconf] <;> simp

/-- **The port tells addresses apart.** -/
theorem portAddress_inj {configAddr : UInt8} {a b : Addr}
    (h : portAddress configAddr a = portAddress configAddr b) : SameRegister a b := by
  obtain ⟨hbus, hslot, hfunc, hoffset⟩ := field_portAddress configAddr a
  obtain ⟨hbus', hslot', hfunc', hoffset'⟩ := field_portAddress configAddr b
  rw [h] at hbus hslot hfunc hoffset
  exact ⟨UInt8.toNat_inj.mp (hbus.symm.trans hbus'), hslot.symm.trans hslot',
    hfunc.symm.trans hfunc', hoffset.symm.trans hoffset'⟩

/-! ## Reading and writing a register -/

/-- The register that an address selects. -/
def State.reg (s : State) (configAddr : UInt8) (addr : Addr) : UInt32 :=
  s.regs (portAddress configAddr addr)

def State.at (s : State) (configAddr : UInt8) (addr : Addr) : State :=
  { s with confAddress := portAddress configAddr addr }

def State.write (W : UInt32 → UInt32 → UInt32 → UInt32) (s : State) (configAddr : UInt8)
    (addr : Addr) (value : UInt32) : State :=
  { s with
    confAddress := portAddress configAddr addr
    regs := Function.update s.regs (portAddress configAddr addr)
      (W (portAddress configAddr addr) (s.reg configAddr addr) value) }

@[simp] theorem regs_at (configAddr : UInt8) (addr : Addr) : (s.at configAddr addr).regs = s.regs :=
  rfl

/-- Reading a register, by its effect. -/
theorem wp_pciReadLong {Q : Status × UInt32 → State → Prop} (configAddr : UInt8) (addr : Addr) :
    wp (pciReadLong configAddr addr) Q E s ↔
      Q (.success, s.reg configAddr addr) (s.at configAddr addr) := Iff.rfl

/-- Writing a register, by its effect: the device decides what it makes of the value. -/
theorem wp_pciWriteLong {Q : Status → State → Prop} (configAddr : UInt8) (addr : Addr)
    (value : UInt32) :
    wp (pciWriteLong W configAddr addr value) Q E s ↔
      Q .success (s.write W configAddr addr value) := Iff.rfl

/-- The register that is written. -/
theorem reg_write_self (configAddr : UInt8) (addr : Addr) (value : UInt32) :
    (s.write W configAddr addr value).reg configAddr addr =
      W (portAddress configAddr addr) (s.reg configAddr addr) value := Function.update_self ..

/-- The others stay. -/
theorem regs_write_of_ne {configAddr : UInt8} {addr : Addr} {value a : UInt32}
    (h : a ≠ portAddress configAddr addr) :
    (s.write W configAddr addr value).regs a = s.regs a := Function.update_of_ne h ..

/-! ## Bytes and shorts -/

/-- A byte of a register as a field of its bits. -/
theorem toNat_byteAt {w off : UInt32} (h : off.toNat ≤ 3) :
    (byteAt w off).toNat = field (off.toNat * 8) 8 w.toNat := by
  have hoff : off.toNat * 8 % 4294967296 % 32 = off.toNat * 8 := by omega
  simp [byteAt, field, hoff, and_low 255 8 rfl]

/-- Two bytes of a register as a field of its bits. -/
theorem toNat_shortAt {w off : UInt32} (h : off.toNat ≤ 2) :
    (shortAt w off).toNat = field (off.toNat * 8) 16 w.toNat := by
  have hoff : off.toNat * 8 % 4294967296 % 32 = off.toNat * 8 := by omega
  simp [shortAt, field, hoff, and_low 65535 16 rfl]

/-- A value that is or-ed into a register at an offset in bytes. -/
theorem toNat_merge {n : Nat} {r x off : UInt32} (hoff : off.toNat * 8 + n ≤ 32)
    (hx : x.toNat < 2 ^ n) (hn : 0 < n) :
    (r ||| x <<< (off * 8)).toNat = r.toNat ||| x.toNat <<< (off.toNat * 8) := by
  have hshift : off.toNat * 8 % 4294967296 % 32 = off.toNat * 8 := by omega
  have hfits : x.toNat <<< (off.toNat * 8) < 4294967296 := by
    rw [Nat.shiftLeft_eq]
    calc x.toNat * 2 ^ (off.toNat * 8) < 2 ^ n * 2 ^ (off.toNat * 8) :=
          Nat.mul_lt_mul_of_pos_right hx (Nat.two_pow_pos _)
      _ = 2 ^ (off.toNat * 8 + n) := by rw [← Nat.pow_add, Nat.add_comm]
      _ ≤ 2 ^ 32 := Nat.pow_le_pow_right (by decide) hoff
  simp [hshift, Nat.mod_eq_of_lt hfits]

/-- The bytes beside the value are as they were. -/
theorem byteAt_merge_of_ne {n : Nat} {r x off k : UInt32} (hoff : off.toNat * 8 + n ≤ 32)
    (hx : x.toNat < 2 ^ n) (hn : 0 < n) (hk : k.toNat ≤ 3)
    (apart : k.toNat * 8 + 8 ≤ off.toNat * 8 ∨ off.toNat * 8 + n ≤ k.toNat * 8) :
    byteAt (r ||| x <<< (off * 8)) k = byteAt r k := by
  refine UInt8.toNat_inj.mp ?_
  rw [toNat_byteAt hk, toNat_byteAt hk, toNat_merge hoff hx hn, field_or,
    field_shiftLeft_apart hx apart, Nat.or_zero]

/-- Masking a byte to eight bits leaves it. -/
theorem toNat_mask8 (v : UInt8) : (v.toUInt32 &&& 0xff).toNat = v.toNat := by
  rw [UInt32.toNat_and, UInt8.toNat_toUInt32, show (0xff : UInt32).toNat = 255 from rfl,
    and_low 255 8 rfl, Nat.mod_eq_of_lt v.toNat_lt]

/-- Masking two bytes to sixteen bits leaves them. -/
theorem toNat_mask16 (v : UInt16) : (v.toUInt32 &&& 0xffff).toNat = v.toNat := by
  rw [UInt32.toNat_and, UInt16.toNat_toUInt32, show (0xffff : UInt32).toNat = 65535 from rfl,
    and_low 65535 16 rfl, Nat.mod_eq_of_lt v.toNat_lt]

/-- So it is less than 256. -/
theorem mask8_lt (v : UInt8) : (v.toUInt32 &&& 0xff).toNat < 2 ^ 8 := by
  rw [toNat_mask8]
  exact v.toNat_lt

/-- So they are less than 65536. -/
theorem mask16_lt (v : UInt16) : (v.toUInt32 &&& 0xffff).toNat < 2 ^ 16 := by
  rw [toNat_mask16]
  exact v.toNat_lt

/-- What is read back has the old bits as well. -/
theorem byteAt_merge {r off : UInt32} (v : UInt8) (hoff : off.toNat ≤ 3) :
    byteAt (r ||| (v.toUInt32 &&& 0xff) <<< (off * 8)) off = byteAt r off ||| v := by
  refine UInt8.toNat_inj.mp ?_
  rw [UInt8.toNat_or, toNat_byteAt hoff, toNat_byteAt hoff,
    toNat_merge (by omega) (mask8_lt v) (by decide), field_or, toNat_mask8,
    field_shiftLeft_self v.toNat_lt]

/-- What the code stores is the disjunction of the old bytes and the new ones. -/
theorem shortAt_merge {r off : UInt32} (v : UInt16) (hoff : off.toNat ≤ 2) :
    shortAt (r ||| (v.toUInt32 &&& 0xffff) <<< (off * 8)) off = shortAt r off ||| v := by
  refine UInt16.toNat_inj.mp ?_
  rw [UInt16.toNat_or, toNat_shortAt hoff, toNat_shortAt hoff,
    toNat_merge (by omega) (mask16_lt v) (by decide), field_or, toNat_mask16,
    field_shiftLeft_self v.toNat_lt]

/-! ## Writing a part of a register -/

/-- Writing a byte, by its effect. -/
theorem wp_pciWriteByte {Q : Status → State → Prop} (configAddr : UInt8) (addr : Addr)
    (off v : UInt8) :
    wp (pciWriteByte W configAddr addr off v) Q E s ↔
      if 3 < off then Q .badParam s
      else Q .success (s.write W configAddr addr
        (s.reg configAddr addr ||| (v.toUInt32 &&& 0xff) <<< (off.toUInt32 * 8))) := by
  unfold pciWriteByte
  split
  · rfl
  · rfl

/-- Writing two bytes, by its effect. -/
theorem wp_pciWriteShort {Q : Status → State → Prop} (configAddr : UInt8) (addr : Addr)
    (off : UInt8) (v : UInt16) :
    wp (pciWriteShort W configAddr addr off v) Q E s ↔
      if 2 < off then Q .badParam s
      else Q .success (s.write W configAddr addr
        (s.reg configAddr addr ||| (v.toUInt32 &&& 0xffff) <<< (off.toUInt32 * 8))) := by
  unfold pciWriteShort
  split
  · rfl
  · rfl

/-- Reading a byte, by its effect. -/
theorem wp_pciReadByte {Q : Status × Option UInt8 → State → Prop} (configAddr : UInt8)
    (addr : Addr) (off : UInt8) :
    wp (pciReadByte configAddr addr off) Q E s ↔
      if 3 < off then Q (.badParam, none) s
      else Q (.success, some (byteAt (s.reg configAddr addr) off.toUInt32))
        (s.at configAddr addr) := by
  unfold pciReadByte
  split
  · rfl
  · rfl

/-- Reading two bytes, by its effect. -/
theorem wp_pciReadShort {Q : Status × Option UInt16 → State → Prop} (configAddr : UInt8)
    (addr : Addr) (off : UInt8) :
    wp (pciReadShort configAddr addr off) Q E s ↔
      if 2 < off then Q (.badParam, none) s
      else Q (.success, some (shortAt (s.reg configAddr addr) off.toUInt32))
        (s.at configAddr addr) := by
  unfold pciReadShort
  split
  · rfl
  · rfl

/-- All bytes of the register but `count` from `off` on are as they were, and so is every other
register. -/
structure SameBeside (s t : State) (configAddr : UInt8) (addr : Addr) (off : UInt8)
    (count : Nat) : Prop where
  bytes : ∀ k : UInt8, k ≤ 3 → (k < off ∨ off.toNat + count ≤ k.toNat) →
    byteAt (t.reg configAddr addr) k.toUInt32 = byteAt (s.reg configAddr addr) k.toUInt32
  registers : ∀ a, a ≠ portAddress configAddr addr → t.regs a = s.regs a

/-- What `_pci_write_byte` is to do. -/
def ByteWritten (s : State) (configAddr : UInt8) (addr : Addr) (off v : UInt8) (status : Status)
    (t : State) : Prop :=
  if off ≤ 3 then
    status = .success ∧
      wp (pciReadByte configAddr addr off) (fun r _ => r = (.success, some v)) (fun _ => False) t ∧
      SameBeside s t configAddr addr off 1
  else status = .badParam ∧ t = s

/-- What `_pci_write_short` is to do. -/
def ShortWritten (s : State) (configAddr : UInt8) (addr : Addr) (off : UInt8) (v : UInt16)
    (status : Status) (t : State) : Prop :=
  if off ≤ 2 then
    status = .success ∧
      wp (pciReadShort configAddr addr off) (fun r _ => r = (.success, some v)) (fun _ => False) t ∧
      SameBeside s t configAddr addr off 2
  else status = .badParam ∧ t = s

/-- Or-ing a value in changes nothing beside it. -/
theorem sameBeside_merge {configAddr : UInt8} {addr : Addr} {off : UInt8} {count : Nat} {x : UInt32}
    (stores : ∀ old value, W (portAddress configAddr addr) old value = value)
    (hoff : off.toNat + count ≤ 4) (hcount : 0 < count) (hx : x.toNat < 2 ^ (count * 8)) :
    SameBeside s
      (s.write W configAddr addr (s.reg configAddr addr ||| x <<< (off.toUInt32 * 8)))
      configAddr addr off count := by
  constructor
  · intro k hk hapart
    have hk3 : k.toNat ≤ 3 := hk
    rw [reg_write_self, stores]
    refine byteAt_merge_of_ne (n := count * 8) ?_ hx (by omega) ?_ ?_
    · rw [UInt8.toNat_toUInt32]
      omega
    · rw [UInt8.toNat_toUInt32]
      exact hk3
    · rw [UInt8.toNat_toUInt32, UInt8.toNat_toUInt32]
      rcases hapart with hlow | hhigh
      · have hlt : k.toNat < off.toNat := hlow
        omega
      · omega
  · intro a ha
    exact regs_write_of_ne ha

/-- **A byte is written** exactly when it has all bits that were set before. -/
theorem byteWritten_iff {configAddr : UInt8} {addr : Addr}
    (stores : ∀ old value, W (portAddress configAddr addr) old value = value) (off v : UInt8) :
    wp (pciWriteByte W configAddr addr off v) (ByteWritten s configAddr addr off v)
        (fun _ => False) s ↔
      (off ≤ 3 → byteAt (s.reg configAddr addr) off.toUInt32 ||| v = v) := by
  rw [wp_pciWriteByte]
  by_cases hoff : off ≤ 3
  · have hnot : ¬ 3 < off := UInt8.not_lt.mpr hoff
    have hoff3 : off.toUInt32.toNat ≤ 3 := by
      rw [UInt8.toNat_toUInt32]
      exact hoff
    have hend : off.toNat + 1 ≤ 4 := Nat.succ_le_succ hoff
    have hsame := sameBeside_merge (s := s) stores hend Nat.one_pos (mask8_lt v)
    rw [if_neg hnot, ByteWritten, if_pos hoff, wp_pciReadByte, if_neg hnot, reg_write_self, stores,
      byteAt_merge v hoff3]
    simp [hoff, hsame]
  · have hlt : 3 < off := UInt8.not_le.mp hoff
    rw [if_pos hlt, ByteWritten, if_neg hoff]
    simp [hoff]

/-- **Two bytes are written** under the same condition. -/
theorem shortWritten_iff {configAddr : UInt8} {addr : Addr}
    (stores : ∀ old value, W (portAddress configAddr addr) old value = value) (off : UInt8)
    (v : UInt16) :
    wp (pciWriteShort W configAddr addr off v) (ShortWritten s configAddr addr off v)
        (fun _ => False) s ↔
      (off ≤ 2 → shortAt (s.reg configAddr addr) off.toUInt32 ||| v = v) := by
  rw [wp_pciWriteShort]
  by_cases hoff : off ≤ 2
  · have hnot : ¬ 2 < off := UInt8.not_lt.mpr hoff
    have hoff2 : off.toUInt32.toNat ≤ 2 := by
      rw [UInt8.toNat_toUInt32]
      exact hoff
    have hsame := sameBeside_merge (s := s) stores (by simpa using hoff2) Nat.two_pos (mask16_lt v)
    rw [if_neg hnot, ShortWritten, if_pos hoff, wp_pciReadShort, if_neg hnot, reg_write_self,
      stores, shortAt_merge v hoff2]
    simp [hoff, hsame]
  · have hlt : 2 < off := UInt8.not_le.mp hoff
    rw [if_pos hlt, ShortWritten, if_neg hoff]
    simp [hoff]

/-- **A part of a register is written if it has no other bits set.**  For a register that stores
what is written, the byte or the short that is read back is the value written exactly if the old
one has no bit that the value lacks; what is beside it is unchanged anyway, and an offset that is
out of range is refused. -/
theorem subword_write_iff (W : UInt32 → UInt32 → UInt32 → UInt32) (s : State) (configAddr : UInt8)
    (addr : Addr) (stores : ∀ old value, W (portAddress configAddr addr) old value = value) :
    (∀ off v : UInt8,
      wp (pciWriteByte W configAddr addr off v) (ByteWritten s configAddr addr off v)
          (fun _ => False) s ↔
        (off ≤ 3 → byteAt (s.reg configAddr addr) off.toUInt32 ||| v = v)) ∧
    (∀ (off : UInt8) (v : UInt16),
      wp (pciWriteShort W configAddr addr off v) (ShortWritten s configAddr addr off v)
          (fun _ => False) s ↔
        (off ≤ 2 → shortAt (s.reg configAddr addr) off.toUInt32 ||| v = v)) :=
  ⟨byteWritten_iff stores, shortWritten_iff stores⟩

/-- A register of the hardware that stores what is written. -/
theorem subword_write_plain :
    wp (pciWriteByte (fun _ _ v => v) 1 ⟨0, 0, 0, 1⟩ 1 0xff)
        (ByteWritten .initial 1 ⟨0, 0, 0, 1⟩ 1 0xff) (fun _ => False) .initial ∧
      wp (pciWriteShort (fun _ _ v => v) 1 ⟨0, 0, 0, 1⟩ 2 0xffff)
        (ShortWritten .initial 1 ⟨0, 0, 0, 1⟩ 2 0xffff) (fun _ => False) .initial :=
  ⟨((subword_write_iff (fun _ _ v => v) .initial 1 ⟨0, 0, 0, 1⟩ fun _ _ => rfl).1 1 0xff).mpr
      (by decide),
    ((subword_write_iff (fun _ _ v => v) .initial 1 ⟨0, 0, 0, 1⟩ fun _ _ => rfl).2 2 0xffff).mpr
      (by decide)⟩

/-- A zero is written over a register of ones, and ones are read back. -/
theorem subword_write_keeps_ones :
    ¬ wp (pciWriteByte (fun _ _ v => v) 1 ⟨0, 0, 0, 1⟩ 1 0)
      (ByteWritten .initial 1 ⟨0, 0, 0, 1⟩ 1 0) (fun _ => False) .initial := by
  rw [byteWritten_iff fun _ _ => rfl]
  decide

end Cumulonimbus.Pci
