import Mathlib.Tactic.IntervalCases
import Cumulonimbus.PciRegisters

/-!
# Sizes of base address registers

`_pci_read_bar_size` finds the size of a region by writing ones to its register, and then writes
back what the device's copy of the first register says, whichever register it was.  The size is
read with the mask for memory, so it is never less than 16.

A region is a power of two.  Its register keeps the address bits above the size of what is
written, and below it shows the type.
-/

namespace Cumulonimbus.Pci

open Exec

variable {W : UInt32 → UInt32 → UInt32 → UInt32} {s t : State} {device : Device}

/-! ## Regions -/

/-- A region of `2 ^ exponent` bytes of memory, at least 16, or of ports, at least 4. -/
structure Region where
  io : Bool
  exponent : Nat
  typeBits : UInt32
  least : (if io then 2 else 4) ≤ exponent
  most : exponent ≤ 31
  bits : typeBits &&& (if io then 0xfffffffd else 0xfffffff1) = if io then 1 else 0

/-- Masks distribute. -/
theorem or_and (a b c : UInt32) : (a ||| b) &&& c = a &&& c ||| b &&& c := by
  refine UInt32.toNat_inj.mp ?_
  rw [UInt32.toNat_and, UInt32.toNat_or, UInt32.toNat_or, UInt32.toNat_and, UInt32.toNat_and,
    Nat.and_or_distrib_right]

/-- Masking once more with a smaller mask. -/
theorem and_of_and {v m n b : UInt32} (h : v &&& m = b) (hn : m &&& n = n) : v &&& n = b &&& n := by
  rw [← h, UInt32.and_assoc, hn]

/-- The address bits of a size. -/
def addressBits (exponent : Nat) : UInt32 := 0xffffffff <<< UInt32.ofNat exponent

/-- The address bits of an I/O region lie above its two type bits. -/
theorem addressBits_io {e : Nat} (h : 2 ≤ e) (h' : e ≤ 31) :
    0xfffffffc &&& addressBits e = addressBits e := by
  unfold addressBits
  interval_cases e <;> decide

/-- Those of a memory region lie above its four. -/
theorem addressBits_memory {e : Nat} (h : 4 ≤ e) (h' : e ≤ 31) :
    0xfffffff0 &&& addressBits e = addressBits e := by
  unfold addressBits
  interval_cases e <;> decide

/-- The size that is read back from the address bits, with the mask for memory. -/
theorem size_read {e : Nat} (h : 2 ≤ e) (h' : e ≤ 31) :
    (~~~(addressBits e &&& 0xfffffff0) + 1 : UInt32) = 1 <<< UInt32.ofNat e ↔ 4 ≤ e := by
  unfold addressBits
  interval_cases e <;> decide

namespace Region

variable (r : Region)

def size : UInt32 := 1 <<< UInt32.ofNat r.exponent

def mask : UInt32 := addressBits r.exponent

/-- What the register holds after a value has been written. -/
def contents (v : UInt32) : UInt32 := v &&& r.mask ||| r.typeBits

/-- No region is smaller than four bytes. -/
theorem two_le : 2 ≤ r.exponent := by
  have hleast := r.least
  split at hleast <;> omega

/-- The type bits are below the mask for memory. -/
theorem typeBits_and_memory : r.typeBits &&& 0xfffffff0 = 0 := by
  have hbits := r.bits
  split at hbits
  · exact and_of_and hbits rfl
  · exact and_of_and hbits rfl

/-- The type bits lie below the address bits. -/
theorem typeBits_and_mask : r.typeBits &&& r.mask = 0 := by
  have hbits := r.bits
  have hleast := r.least
  split at hbits
  case isTrue hio =>
    have hlow : r.typeBits &&& 0xfffffffc = 0 := and_of_and hbits rfl
    rw [← UInt32.zero_and]
    exact and_of_and hlow (addressBits_io r.two_le r.most)
  case isFalse hmem =>
    rw [if_neg hmem] at hleast
    rw [← UInt32.zero_and]
    exact and_of_and r.typeBits_and_memory (addressBits_memory hleast r.most)

/-- What a register keeps of a value, apart from its type bits. -/
theorem contents_and_mask (v : UInt32) : r.contents v &&& r.mask = v &&& r.mask := by
  rw [contents, or_and, typeBits_and_mask, UInt32.and_assoc, UInt32.and_self, UInt32.or_zero]

/-- A register shows of a value its address bits. -/
theorem contents_eq_iff (v w : UInt32) :
    r.contents v = r.contents w ↔ v &&& r.mask = r.contents w &&& r.mask := by
  rw [contents_and_mask]
  constructor
  · intro h
    rw [← r.contents_and_mask v, h, contents_and_mask]
  · intro h
    rw [contents, contents, h]

/-- **The size that is read** is the region's if it is 16 at least. -/
theorem sizeRead_iff :
    ~~~(r.contents 0xffffffff &&& 0xfffffff0) + 1 = r.size ↔ 4 ≤ r.exponent := by
  have hones : r.contents 0xffffffff &&& 0xfffffff0 = addressBits r.exponent &&& 0xfffffff0 := by
    rw [contents, or_and, typeBits_and_memory, UInt32.or_zero, mask,
      show (0xffffffff : UInt32) = -1 from rfl, UInt32.neg_one_and]
  rw [hones]
  exact size_read r.two_le r.most

end Region

/-! ## Probing -/

/-- What the port is told for a base address register. -/
def barPort (device : Device) (i : UInt8) : UInt32 :=
  portAddress 1 { device.address with offset := barStart + i }

/-- The register at an address belongs to a region. -/
structure Implements (W : UInt32 → UInt32 → UInt32 → UInt32) (s : State) (a : UInt32)
    (r : Region) : Prop where
  writes : ∀ old v, W a old v = r.contents v
  holds : ∃ v, s.regs a = r.contents v

/-- There is a first register. -/
theorem zero_lt_six : 0 < 6 := Nat.zero_lt_succ 5

/-- The first base address register as the device's copy has it. -/
def Device.firstBar (device : Device) : UInt32 := device.config.bar ⟨0, zero_lt_six⟩

/-- The state that a probe leaves. -/
def State.probed (W : UInt32 → UInt32 → UInt32 → UInt32) (s : State) (device : Device) (i : UInt8) :
    State :=
  { s with
    confAddress := barPort device i
    regs := Function.update s.regs (barPort device i)
      (W (barPort device i) (W (barPort device i) (s.regs (barPort device i)) 0xffffffff)
        device.firstBar) }

/-- The probe writes all ones, reads back and writes the value that the device structure has. -/
theorem wp_pciReadBarSize {E : Fault → Prop} {Q : Status × Option UInt32 → State → Prop} {i : UInt8}
    (hdr : device.config.headerType = 0) (hi : i ≤ 5) :
    wp (pciReadBarSize W device i) Q E s ↔
      Q (.success,
        some (~~~(W (barPort device i) (s.regs (barPort device i)) 0xffffffff &&& 0xfffffff0) + 1))
        (s.probed W device i) := by
  have hrange : ¬ barCount - 1 < i.toNat := Nat.not_lt.mpr hi
  unfold pciReadBarSize
  rw [if_pos hdr, if_neg hrange, wp_bind, wp_pciWriteLong, wp_bind, wp_pciReadLong, wp_bind,
    wp_pciWriteLong, wp_pure, reg_write_self]
  have hstate : ((s.write W 1 { device.address with offset := barStart + i } 0xffffffff).at 1
      { device.address with offset := barStart + i }).write W 1
        { device.address with offset := barStart + i } device.firstBar = s.probed W device i := by
    simp [State.write, State.at, State.reg, State.probed, barPort]
  rw [← hstate]
  rfl

/-- After the probe the register has what the structure gives it. -/
theorem probed_self {r : Region} {i : UInt8}
    (h : ∀ old v, W (barPort device i) old v = r.contents v) :
    (s.probed W device i).regs (barPort device i) = r.contents device.firstBar := by
  simp [State.probed, h]

/-- The other registers stay. -/
theorem probed_of_ne {i : UInt8} {a : UInt32} (h : a ≠ barPort device i) :
    (s.probed W device i).regs a = s.regs a := Function.update_of_ne h ..

/-- A probe leaves the registers as they were if the device's first register has the address bits
of the one that is probed. -/
theorem probed_neutral_iff {r : Region} {i : UInt8} (h : Implements W s (barPort device i) r) :
    (s.probed W device i).regs = s.regs ↔
      device.firstBar &&& r.mask = s.regs (barPort device i) &&& r.mask := by
  obtain ⟨v, hv⟩ := h.holds
  rw [hv, ← r.contents_eq_iff]
  constructor
  · intro hsame
    rw [← hv, ← hsame, probed_self h.writes]
  · intro heq
    funext a
    by_cases ha : a = barPort device i
    · rw [ha, probed_self h.writes, heq, hv]
    · exact probed_of_ne ha

/-! ## Printing a device -/

/-- The registers that `_pci_print_config` probes, from one on: those of memory, up to one of
another kind.  A 64-bit register takes the next one up. -/
def probes (device : Device) : Nat → Nat → List Nat
  | 0, _ => []
  | turns + 1, i =>
    if h : i < barCount then
      let bar := device.config.bar ⟨i, h⟩
      if bar = 0 ∨ isIoBar bar = 1 then probes device turns (i + 1)
      else if barType bar = 0 then i :: probes device turns (i + 1)
      else if barType bar = 2 then i :: probes device turns (i + 2)
      else []
    else []

/-- What printing does to the registers. -/
structure Probed (device : Device) (regions : Nat → Region) (l : List Nat) (s t : State) : Prop where
  probed : ∀ i ∈ l, t.regs (barPort device (UInt8.ofNat i)) = (regions i).contents device.firstBar
  others : ∀ a, (∀ i ∈ l, a ≠ barPort device (UInt8.ofNat i)) → t.regs a = s.regs a

/-- The loop probes registers from its start on. -/
theorem probes_range (device : Device) (turns i : Nat) :
    ∀ j ∈ probes device turns i, i ≤ j ∧ j < 6 := by
  induction turns generalizing i with
  | zero => simp [probes]
  | succ turns ih =>
    intro j hj
    unfold probes at hj
    split at hj
    case isFalse => cases hj
    case isTrue hi =>
      have hi6 : i < 6 := hi
      have hstep : ∀ k, i < k → j ∈ probes device turns k → i ≤ j ∧ j < 6 := by
        intro k hk hmem
        have hrange := ih k j hmem
        omega
      simp only at hj
      split at hj
      · exact hstep _ (by omega) hj
      · split at hj
        · rcases List.mem_cons.mp hj with rfl | hj
          · omega
          · exact hstep _ (by omega) hj
        · split at hj
          · rcases List.mem_cons.mp hj with rfl | hj
            · omega
            · exact hstep _ (by omega) hj
          · cases hj

/-- Each base address register has a port of its own. -/
theorem barPort_inj {i j : Nat} (hi : i < 6) (hj : j < 6)
    (h : barPort device (UInt8.ofNat i) = barPort device (UInt8.ofNat j)) : i = j := by
  have hoffset : ∀ k < 6, (barStart + UInt8.ofNat k).toNat % 64 = 4 + k := by decide
  have hsame : (barStart + UInt8.ofNat i).toNat % 64 = (barStart + UInt8.ofNat j).toNat % 64 :=
    (portAddress_inj h).offset
  rw [hoffset i hi, hoffset j hj] at hsame
  omega

variable {regions : Nat → Region}

/-- Only the registers matter. -/
theorem Probed.of_regs {l : List Nat} {s' : State} (h : Probed device regions l s t)
    (hregs : s.regs = s'.regs) : Probed device regions l s' t :=
  ⟨h.probed, by rw [← hregs]; exact h.others⟩

/-- No probe. -/
theorem probed_nil (hregs : t.regs = s.regs) : Probed device regions [] s t :=
  ⟨by simp, fun a _ => congrFun hregs a⟩

/-- One probe, and then those of later registers. -/
theorem Probed.cons {l : List Nat} {i : Nat} (hi : i < 6)
    (hW : ∀ old v, W (barPort device (UInt8.ofNat i)) old v = (regions i).contents v)
    (later : ∀ j ∈ l, i < j ∧ j < 6)
    (h : Probed device regions l (s.probed W device (UInt8.ofNat i)) t) :
    Probed device regions (i :: l) s t := by
  have hapart : ∀ j ∈ l, barPort device (UInt8.ofNat i) ≠ barPort device (UInt8.ofNat j) := by
    intro j hj heq
    have hrange := later j hj
    have hij := barPort_inj hi hrange.2 heq
    omega
  constructor
  · intro j hj
    rcases List.mem_cons.mp hj with rfl | hj
    · rw [h.others _ hapart, probed_self hW]
    · exact h.probed j hj
  · intro a ha
    rw [h.others a fun j hj => ha j (List.mem_cons_of_mem i hj),
      probed_of_ne (ha i List.mem_cons_self)]

/-- A run ends in `__panic`, in a state in which `P` holds. -/
def PanicIn (P : State → Prop) : Fault → Prop
  | .panic t => P t
  | .spin => False

/-- A weaker condition on the state of a panic. -/
theorem PanicIn.mono {P P' : State → Prop} (h : ∀ t, P t → P' t) :
    ∀ e, PanicIn P e → PanicIn P' e
  | .panic t, ht => h t ht
  | .spin, ht => ht

/-- Printing only adds to what has been printed. -/
theorem wp_cPrintf {E : Fault → Prop} {Q : Unit → State → Prop} (fmt : String) (args : List UInt32) :
    wp (cPrintf fmt args) Q E s ↔ Q () { s with printed := s.printed ++ [(fmt, args)] } := Iff.rfl

/-- `_pci_base_addr` only panics, or prints nothing. -/
theorem pciBaseAddr_spec (bar : UInt32) :
    wp (pciBaseAddr bar)
      (fun _ t => t = s ∧ (isIoBar bar = 1 ∨ barType bar = 0 ∨ barType bar = 2))
      (PanicIn fun t => t.regs = s.regs ∧ isIoBar bar ≠ 1 ∧ barType bar ≠ 0 ∧ barType bar ≠ 2) s := by
  unfold pciBaseAddr
  split
  case isTrue hio => exact ⟨rfl, Or.inl hio⟩
  case isFalse hio =>
    split
    case isTrue h32 => exact ⟨rfl, Or.inr (Or.inl h32)⟩
    case isFalse h32 =>
      split
      case isTrue h64 => exact ⟨rfl, Or.inr (Or.inr h64)⟩
      case isFalse h64 => exact ⟨rfl, hio, h32, h64⟩

/-- The lines that are printed for a register that is probed. -/
theorem printBarSize_spec {i : Nat} (hdr : device.config.headerType = 0) (hi : i < 6)
    (addr : UInt32) :
    wp (printBarSize W device i addr)
      (fun _ t => t.regs = (s.probed W device (UInt8.ofNat i)).regs) (fun _ => False) s := by
  have hi5 : UInt8.ofNat i ≤ 5 := by
    interval_cases i <;> decide
  rw [printBarSize, wp_bind, wp_pciReadBarSize hdr hi5, wp_cPrintf]

/-- The loop has probed what it has come to, when it ends or panics. -/
theorem printBars_spec (hdr : device.config.headerType = 0) (turns i : Nat)
    (hW : ∀ j ∈ probes device turns i, ∀ old v,
      W (barPort device (UInt8.ofNat j)) old v = (regions j).contents v) (s : State) :
    wp (printBars W device turns i)
      (fun _ t => Probed device regions (probes device turns i) s t)
      (PanicIn fun t => Probed device regions (probes device turns i) s t) s := by
  induction turns generalizing i s with
  | zero => exact probed_nil rfl
  | succ turns ih =>
    unfold printBars
    unfold probes at hW ⊢
    split
    case isFalse => exact probed_nil rfl
    case isTrue hi =>
      rw [dif_pos hi] at hW
      have hi6 : i < 6 := hi
      simp only at hW ⊢
      generalize device.config.bar ⟨i, hi⟩ = bar at hW ⊢
      by_cases hzero : bar = 0
      · rw [if_pos hzero]
        rw [if_pos (Or.inl hzero)] at hW ⊢
        exact ih _ hW s
      rw [if_neg hzero]
      refine wp_seq (wp_mono (pciBaseAddr_spec bar) (fun _ _ h => h)
        (PanicIn.mono fun t ht => ?_)) ?_
      · obtain ⟨hregs, hio, h32, h64⟩ := ht
        rw [if_neg (not_or.mpr ⟨hzero, hio⟩), if_neg h32, if_neg h64]
        exact probed_nil hregs
      intro addr t ht
      obtain ⟨rfl, hkind⟩ := ht
      by_cases hio : isIoBar bar = 1
      · rw [if_pos hio, wp_bind, wp_cPrintf]
        rw [if_pos (Or.inr hio)] at hW ⊢
        refine wp_mono (ih _ hW _) (fun _ _ h => h.of_regs rfl)
          (PanicIn.mono fun _ h => h.of_regs rfl)
      have hmem : ¬ (bar = 0 ∨ isIoBar bar = 1) := not_or.mpr ⟨hzero, hio⟩
      -- a probe, and then the registers from `k` on
      have hprobe : ∀ k, i < k →
          (∀ j ∈ i :: probes device turns k, ∀ old v,
            W (barPort device (UInt8.ofNat j)) old v = (regions j).contents v) →
          ∀ u, u.regs = t.regs →
          wp (do
              printBarSize W device i addr
              printBars W device turns k)
            (fun _ u => Probed device regions (i :: probes device turns k) t u)
            (PanicIn fun u => Probed device regions (i :: probes device turns k) t u) u := by
        intro k hk hWk u hu
        refine wp_seq (wp_mono (printBarSize_spec hdr hi6 addr) (fun _ _ h => h)
          fun _ h => h.elim) ?_
        intro _ v hv
        have hregs : v.regs = (t.probed W device (UInt8.ofNat i)).regs := by
          rw [hv, State.probed, State.probed, hu]
        have hlater : ∀ j ∈ probes device turns k, i < j ∧ j < 6 := by
          intro j hj
          have hrange := probes_range device turns k j hj
          omega
        refine wp_mono (ih k (fun j hj => hWk j (List.mem_cons_of_mem i hj)) v) ?_
          (PanicIn.mono fun w hw => ?_)
        · intro _ w hw
          exact (hw.of_regs hregs).cons hi6 (hWk i List.mem_cons_self) hlater
        · exact (hw.of_regs hregs).cons hi6 (hWk i List.mem_cons_self) hlater
      rw [if_neg hmem] at hW ⊢
      rw [if_neg hio]
      by_cases h32 : barType bar = 0
      · rw [if_pos h32, wp_bind, wp_cPrintf]
        rw [if_pos h32] at hW ⊢
        exact hprobe _ (by omega) hW _ rfl
      have h64 : barType bar = 2 := (hkind.resolve_left hio).resolve_left h32
      rw [if_neg h32, if_pos h64, wp_bind, wp_cPrintf]
      rw [if_neg h32, if_pos h64] at hW ⊢
      exact hprobe _ (by omega) hW _ rfl

/-- So has the routine. -/
theorem pciPrintConfig_spec (hdr : device.config.headerType = 0)
    (hW : ∀ j ∈ probes device barCount 0, ∀ old v,
      W (barPort device (UInt8.ofNat j)) old v = (regions j).contents v) :
    wp (pciPrintConfig W device)
      (fun _ t => Probed device regions (probes device barCount 0) s t)
      (PanicIn fun t => Probed device regions (probes device barCount 0) s t) s := by
  have hbars : ∀ u, u.regs = s.regs →
      wp (printBars W device barCount 0)
        (fun _ t => Probed device regions (probes device barCount 0) s t)
        (PanicIn fun t => Probed device regions (probes device barCount 0) s t) u := by
    intro u hu
    exact wp_mono (printBars_spec hdr barCount 0 hW u) (fun _ _ h => h.of_regs hu)
      (PanicIn.mono fun _ h => h.of_regs hu)
  unfold pciPrintConfig
  simp only [wp_bind, wp_cPrintf, if_pos hdr]
  split
  · exact hbars _ rfl
  · exact hbars _ rfl

/-! ## What a probe leaves alone -/

/-- What printing leaves as it was. -/
theorem Probed.neutral_iff {l : List Nat} (h : Probed device regions l s t)
    (himpl : ∀ i ∈ l, Implements W s (barPort device (UInt8.ofNat i)) (regions i)) :
    t.regs = s.regs ↔
      ∀ i ∈ l, device.firstBar &&& (regions i).mask =
        s.regs (barPort device (UInt8.ofNat i)) &&& (regions i).mask := by
  have hone : ∀ i ∈ l, t.regs (barPort device (UInt8.ofNat i)) =
      s.regs (barPort device (UInt8.ofNat i)) ↔ device.firstBar &&& (regions i).mask =
        s.regs (barPort device (UInt8.ofNat i)) &&& (regions i).mask := by
    intro i hi
    obtain ⟨v, hv⟩ := (himpl i hi).holds
    rw [h.probed i hi, hv, (regions i).contents_eq_iff]
  constructor
  · intro hsame i hi
    exact (hone i hi).mp (congrFun hsame _)
  · intro heq
    funext a
    by_cases ha : ∃ i ∈ l, a = barPort device (UInt8.ofNat i)
    · obtain ⟨i, hi, rfl⟩ := ha
      exact (hone i hi).mpr (heq i hi)
    · exact h.others a fun i hi hai => ha ⟨i, hi, hai⟩

/-- The size is right, and every register is as it was. -/
theorem readBarSize_iff {r : Region} {i : UInt8} (hdr : device.config.headerType = 0) (hi : i ≤ 5)
    (h : Implements W s (barPort device i) r) :
    wp (pciReadBarSize W device i)
        (fun res t => res = (.success, some r.size) ∧ t.regs = s.regs) (fun _ => False) s ↔
      4 ≤ r.exponent ∧ device.firstBar &&& r.mask = s.regs (barPort device i) &&& r.mask := by
  rw [wp_pciReadBarSize hdr hi, h.writes, probed_neutral_iff h, ← r.sizeRead_iff]
  simp

/-- **The registers are as before** exactly when the structure's first register agrees with each on
its address bits. -/
theorem printConfig_iff (hdr : device.config.headerType = 0)
    (himpl : ∀ i ∈ probes device barCount 0,
      Implements W s (barPort device (UInt8.ofNat i)) (regions i)) :
    wp (pciPrintConfig W device) (fun _ t => t.regs = s.regs) (PanicIn fun t => t.regs = s.regs) s ↔
      ∀ i ∈ probes device barCount 0, device.firstBar &&& (regions i).mask =
        s.regs (barPort device (UInt8.ofNat i)) &&& (regions i).mask := by
  have hspec := pciPrintConfig_spec (s := s) hdr fun j hj => (himpl j hj).writes
  constructor
  · intro hsame
    have hboth := wp_and hspec hsame
    unfold wp at hboth
    split at hboth
    case h_1 => exact (hboth.1.neutral_iff himpl).mp hboth.2
    case h_2 e _ =>
      cases e with
      | panic t => exact (Probed.neutral_iff hboth.1 himpl).mp hboth.2
      | spin => exact hboth.1.elim
  · intro heq
    exact wp_mono hspec (fun _ _ h => (h.neutral_iff himpl).mpr heq)
      (PanicIn.mono fun _ h => (h.neutral_iff himpl).mpr heq)

/-- **Probing a register.**  Where a base address register belongs to a region, its size is read
and every register is left as it was exactly if the region has 16 bytes at least and the device's
copy of the first register has the address bits of the one that is probed.  So printing a device
changes nothing exactly if that holds of the address bits of each memory register it prints. -/
theorem bar_probe_iff (W : UInt32 → UInt32 → UInt32 → UInt32) (s : State) (device : Device)
    (hdr : device.config.headerType = 0) :
    (∀ (i : UInt8) (r : Region), i ≤ 5 → Implements W s (barPort device i) r →
      (wp (pciReadBarSize W device i)
          (fun res t => res = (.success, some r.size) ∧ t.regs = s.regs) (fun _ => False) s ↔
        4 ≤ r.exponent ∧ device.firstBar &&& r.mask = s.regs (barPort device i) &&& r.mask)) ∧
    (∀ regions : Nat → Region,
      (∀ i ∈ probes device barCount 0,
        Implements W s (barPort device (UInt8.ofNat i)) (regions i)) →
      (wp (pciPrintConfig W device) (fun _ t => t.regs = s.regs)
          (PanicIn fun t => t.regs = s.regs) s ↔
        ∀ i ∈ probes device barCount 0, device.firstBar &&& (regions i).mask =
          s.regs (barPort device (UInt8.ofNat i)) &&& (regions i).mask)) :=
  ⟨fun _ _ hi h => readBarSize_iff hdr hi h, fun _ himpl => printConfig_iff hdr himpl⟩

/-- A page of memory. -/
def page : Region := ⟨false, 12, 0, by decide, by decide, by decide⟩

/-- A device with two pages of memory. -/
def twoPages : Device :=
  { Device.zero with
    config := fun k => if k.val = 4 then 0xf0000000 else if k.val = 5 then 0xe0000000 else 0 }

/-- Its registers. -/
def twoPagesState : State :=
  { State.initial with
    regs := fun a =>
      if a = barPort twoPages 0 then 0xf0000000
      else if a = barPort twoPages 1 then 0xe0000000
      else 0 }

/-- The registers of the example behave as registers do. -/
theorem twoPages_implements (i : UInt8) (hi : i = 0 ∨ i = 1) :
    Implements (fun _ _ v => page.contents v) twoPagesState (barPort twoPages i) page := by
  rcases hi with rfl | rfl
  · exact ⟨fun _ _ => rfl, 0xf0000000, by decide⟩
  · exact ⟨fun _ _ => rfl, 0xe0000000, by decide⟩

/-- The first page is probed, and nothing changes. -/
theorem bar_probe_first :
    wp (pciReadBarSize (fun _ _ v => page.contents v) twoPages 0)
      (fun res t => res = (.success, some page.size) ∧ t.regs = twoPagesState.regs)
      (fun _ => False) twoPagesState :=
  ((bar_probe_iff (fun _ _ v => page.contents v) twoPagesState twoPages (by decide)).1 0 page
    (by decide) (twoPages_implements 0 (Or.inl rfl))).mpr ⟨by decide, by decide⟩

/-- The second page is probed, and then it is where the first one is. -/
theorem bar_probe_moves_second :
    ¬ wp (pciReadBarSize (fun _ _ v => page.contents v) twoPages 1)
      (fun res t => res = (.success, some page.size) ∧ t.regs = twoPagesState.regs)
      (fun _ => False) twoPagesState := by
  rw [readBarSize_iff (by decide) (by decide) (twoPages_implements 1 (Or.inr rfl))]
  decide

end Cumulonimbus.Pci
