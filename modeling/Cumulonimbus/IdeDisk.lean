import Cumulonimbus.Ide

/-!
# The disk that the driver makes of a drive

The driver of `ide.c` in front of a channel that keeps the rules of its ports.  However long the
drives are busy, a read brings what was last written to the sector, and a write changes this one
sector of this one drive.  A sector that is bad brings nothing and keeps nothing; of that a read
tells its caller, and a write does not (`wp_idePioLbaRead`, `wp_idePioLbaWrite`).
-/

namespace Cumulonimbus.Ide

open Exec Ata

attribute [local irreducible] wp

/-- The device is drive `d` of a channel that keeps the rules. -/
structure IdeDevice.Wired {σ : Type} (device : IdeDevice) (d : Bool) (bus : Bus σ)
    (good : Bool → Nat → Bool) (patience : Nat) (view : σ → View) : Prop where
  drive : device.drive = if d then 1 else 0
  obeys : Obeys bus device.ideChannel.baseIoRegister (device.ideChannel.baseControlRegister + 2)
    good patience view

variable {σ : Type} {bus : Bus σ} {device : IdeDevice} {d : Bool} {good : Bool → Nat → Bool}
  {patience : Nat} {view : σ → View} {s t : σ} {w : View} {E : Spin → Prop}

/-! ## Registers -/

/-- The port of a register that lies behind another one. -/
theorem port_back (a b k : UInt16) : a + b - k = a + (b - k) := by
  rw [UInt16.sub_eq_add_neg, UInt16.add_assoc, ← UInt16.sub_eq_add_neg]

/-- The first eight registers have ports of their own. -/
theorem registerPort_low {reg : UInt8} (hreg : reg < 0x8) :
    registerPort device reg = some (device.ideChannel.baseIoRegister + reg.toUInt16) := by
  rw [registerPort, if_pos hreg, UInt16.sub_zero]

/-- The registers 8 to 11 share ports with others. -/
theorem registerPort_behind {reg : UInt8} (hreg : 0x7 < reg ∧ reg < 0xc) :
    registerPort device reg = some (device.ideChannel.baseIoRegister + (reg.toUInt16 - 0x6)) := by
  have hlow : ¬ reg < 0x8 := by
    rw [UInt8.lt_iff_toNat_lt] at hreg ⊢
    simp at hreg ⊢
    omega
  rw [registerPort, if_neg hlow, if_pos hreg.2, port_back]

/-- The control register. -/
theorem registerPort_control : registerPort device regControl =
    some (device.ideChannel.baseControlRegister + 2) :=
  congrArg some (port_back device.ideChannel.baseControlRegister 0x0C 0x0A)

/-- A write to one of the first eight is a write to its port. -/
theorem ideRegisterWrite_low {reg : UInt8} (hreg : reg < 0x8) (v : UInt8) :
    ideRegisterWrite bus device reg v =
      modify (bus.outb (device.ideChannel.baseIoRegister + reg.toUInt16) v) := by
  have hlow : ¬ (0x7 < reg ∧ reg < 0xc) := by
    rw [UInt8.lt_iff_toNat_lt] at hreg ⊢
    simp at hreg ⊢
    omega
  rw [ideRegisterWrite, if_neg hlow, outRegister, registerPort_low hreg]
  rfl

section Wired

variable (hw : device.Wired d bus good patience view)
include hw

/-- A write to the control register that does not reset changes nothing. -/
theorem wp_outRegister_control {v : UInt8} (hv : v &&& 0x04 = 0) :
    wp (outRegister bus device regControl v) (fun _ t => view t = view s) E s := by
  rw [outRegister, registerPort_control]
  dsimp only [outb]
  rw [wp_modify]
  exact hw.obeys.control s v hv

/-- The same through the routine. -/
theorem wp_ideRegisterWrite_control {v : UInt8} (hv : v &&& 0x04 = 0) :
    wp (ideRegisterWrite bus device regControl v) (fun _ t => view t = view s) E s := by
  rw [ideRegisterWrite, if_neg (by decide)]
  exact wp_outRegister_control hw hv

/-- An argument of a command. -/
theorem wp_argument (hs : view s = w) (hready : w.Ready) {reg : UInt8} (r : Register)
    (hreg : reg < 0x8) (hr : reg.toUInt16 = r.offset) (v : UInt8) :
    wp (ideRegisterWrite bus device reg v)
      (fun _ t => view t = { w with task := w.task.put r v }) E s := by
  subst hs
  rw [ideRegisterWrite_low hreg, wp_modify, hr]
  exact hw.obeys.register s r v hready

/-- The high order byte of an argument, through the registers 8 to 11. -/
theorem wp_argument_behind (hs : view s = w) (hready : w.Ready) {reg : UInt8} (r : Register)
    (hreg : 0x7 < reg ∧ reg < 0xc) (hr : reg.toUInt16 - 0x6 = r.offset) (v : UInt8) :
    wp (ideRegisterWrite bus device reg v)
      (fun _ t => view t = { w with task := w.task.put r v }) E s := by
  subst hs
  rw [ideRegisterWrite, if_pos hreg]
  refine wp_seq (wp_outRegister_control hw (by decide)) fun _ t ht => ?_
  have hout : wp (outRegister bus device reg v)
      (fun _ u => view u = { view s with task := (view s).task.put r v }) E t := by
    rw [outRegister, registerPort_behind hreg]
    dsimp only [outb]
    rw [wp_modify, hr, ← ht]
    exact hw.obeys.register t r v (ht.symm ▸ hready)
  refine wp_seq hout fun _ u hu => ?_
  exact wp_mono (wp_outRegister_control hw (by decide)) (fun _ _ h => h.trans hu) fun _ he => he

end Wired

/-! ## Waiting -/

/-- A status that has been read, and what is still to come. -/
structure Watched (view : σ → View) (w : View) (v : UInt8) (t : σ) : Prop where
  same : view t = { w with wait := (view t).wait }
  le : (view t).wait ≤ w.wait
  seen : v &&& srBsy ≠ 0 ∧ (view t).wait < w.wait ∨ (view t).wait = 0 ∧ v &&& srBsy = 0

/-- How often the status is still read. -/
def turnsLeft (view : σ → View) (v : UInt8) (t : σ) : Nat :=
  if v &&& srBsy ≠ 0 then (view t).wait + 1 else 0

section Wired

variable (hw : device.Wired d bus good patience view)
include hw

/-- A status read through either port may shorten what is left to wait, and nothing else. -/
theorem watched_status {port : UInt16} (hport : port = device.ideChannel.baseIoRegister + 7 ∨
      port = device.ideChannel.baseControlRegister + 2)
    (same : view t = { w with wait := (view t).wait }) (hle : (view t).wait ≤ w.wait) :
    Watched view w (bus.inb port t).1 (bus.inb port t).2 ∧
      ((bus.inb port t).1 &&& srBsy ≠ 0 → (view (bus.inb port t).2).wait < (view t).wait) := by
  by_cases hwait : (view t).wait = 0
  · obtain ⟨hclear, -, hview⟩ := hw.obeys.status t port hport hwait
    refine ⟨⟨?_, ?_, .inr ⟨?_, hclear⟩⟩, fun hbusy => absurd hclear hbusy⟩
    · rw [hview]
      exact same
    · rw [hview]
      exact hle
    · rw [hview]
      exact hwait
  · obtain ⟨hbusy, n, hn, hview⟩ := hw.obeys.busy t port hport hwait
    have hnew : (view (bus.inb port t).2).wait = n := by rw [hview]
    refine ⟨⟨?_, by omega, .inl ⟨hbusy, by omega⟩⟩, fun _ => by omega⟩
    rw [hnew, hview, same]

omit hw in
/-- Reading the alternate status is reading its port. -/
theorem wp_altstatus {v : UInt8} {Q : UInt8 → σ → Prop}
    (hQ : Q (bus.inb (device.ideChannel.baseControlRegister + 2) t).1
      (bus.inb (device.ideChannel.baseControlRegister + 2) t).2) :
    wp (ideRegisterRead bus device regAltstatus v) Q E t := by
  rw [ideRegisterRead, if_neg (by decide), inRegister,
    show registerPort device regAltstatus = _ from registerPort_control]
  exact wp_of_eq rfl hQ

omit hw in
/-- Reading the status is reading its port. -/
theorem wp_status {v : UInt8} {Q : UInt8 → σ → Prop}
    (hQ : Q (bus.inb (device.ideChannel.baseIoRegister + 7) t).1
      (bus.inb (device.ideChannel.baseIoRegister + 7) t).2) :
    wp (ideRegisterRead bus device regStatus v) Q E t := by
  rw [ideRegisterRead, if_neg (by decide), inRegister, registerPort_low (by decide)]
  exact wp_of_eq rfl hQ

/-- **Waiting ends** once the drive is ready, however long that takes. -/
theorem wp_waitWhileBusy {v : UInt8} (hv : Watched view w v t) (enough : w.wait < patience) :
    wp (waitWhileBusy bus patience device v) (fun _ u => view u = { w with wait := 0 }) E t := by
  rw [waitWhileBusy]
  refine wp_mono (wp_loop (I := Watched view w) (turnsLeft view) ?_ hv ?_) ?_ fun _ he => he
  · intro v t hv hcond
    obtain ⟨hnext, hless⟩ := watched_status hw (.inl rfl) hv.same hv.le
    refine wp_status ⟨hnext, ?_⟩
    rw [turnsLeft, turnsLeft, if_pos (show v &&& srBsy ≠ 0 by simpa using hcond)]
    split
    case isTrue hbusy => exact Nat.succ_lt_succ (hless hbusy)
    case isFalse => exact Nat.succ_pos _
  · rw [turnsLeft]
    rcases hv.seen with ⟨-, hlt⟩ | ⟨-, hclear⟩
    · split <;> omega
    · rw [if_neg (not_not.mpr hclear)]
      omega
  · intro v u hpost
    obtain ⟨hv, hdone⟩ := hpost
    rcases hv.seen with ⟨hbusy, -⟩ | ⟨hzero, -⟩
    · simp [hbusy] at hdone
    · rw [hv.same, hzero]

omit hw in
/-- The mask asks for both error bits. -/
theorem error_bits (x : UInt8) : x &&& 0x21 ≠ 0 ↔ x &&& srErr ≠ 0 ∨ x &&& srDf ≠ 0 := by
  have hboth : x &&& 0x21 = (x &&& srErr) ||| (x &&& srDf) := 
    UInt8.toBitVec_inj.mp (BitVec.and_or_distrib_left (y := srErr.toBitVec) (z := srDf.toBitVec))
  rw [hboth, ne_eq, UInt8.or_eq_zero_iff, not_and_or]

/-- Polling reports an error where it looks for one. -/
theorem wp_idePolling (advancedCheck : Bool) (hs : view s = w) (enough : w.wait < patience) :
    wp (idePolling bus patience device advancedCheck)
      (fun r t => view t = { w with wait := 0 } ∧
        (r ≠ 0 ↔ advancedCheck = true ∧ w.failed = true)) E s := by
  rw [idePolling, wp_bind]
  refine wp_mono (wp_foldlM (I := fun _ _ t => view t = { w with wait := (view t).wait } ∧
    (view t).wait ≤ w.wait) ?_ ⟨by rw [hs], by rw [hs]⟩) ?_ fun _ he => he
  · intro k hk v t hI
    have hlook := (watched_status hw (.inr rfl) hI.1 hI.2).1
    exact wp_altstatus ⟨hlook.same, hlook.le⟩
  · intro v t hI
    refine wp_seq (R := Watched view w)
      (wp_status (watched_status hw (.inl rfl) hI.1 hI.2).1) ?_
    intro v t hv
    refine wp_seq (wp_waitWhileBusy hw hv enough) ?_
    intro v t ht
    cases advancedCheck with
    | false => exact wp_pure.mpr ⟨ht, by simp⟩
    | true =>
      rw [if_pos rfl, wp_bind]
      obtain ⟨-, hfailed, hview⟩ :=
        hw.obeys.status t _ (.inl rfl) (show (view t).wait = 0 by rw [ht])
      refine wp_status ?_
      rw [ht] at hfailed hview
      generalize (bus.inb (device.ideChannel.baseIoRegister + 7) t).1 = x at hfailed ⊢
      have hbits := error_bits x
      rw [hfailed] at hbits
      by_cases herr : x &&& srErr ≠ 0
      · rw [if_pos herr]
        exact wp_pure.mpr ⟨hview, fun _ => ⟨rfl, hbits.mpr (.inl herr)⟩, fun _ => by decide⟩
      rw [if_neg herr]
      by_cases hdf : x &&& srDf ≠ 0
      · rw [if_pos hdf]
        exact wp_pure.mpr ⟨hview, fun _ => ⟨rfl, hbits.mpr (.inr hdf)⟩, fun _ => by decide⟩
      · rw [if_neg hdf]
        refine wp_pure.mpr ⟨hview, fun h => absurd rfl h, fun h => ?_⟩
        exact absurd (hbits.mp h.2) (not_or.mpr ⟨herr, hdf⟩)

end Wired

/-! ## Commands -/

/-- The arguments of a command for one sector. -/
def addressed (d : Bool) (sector : UInt32) : Task where
  count := ⟨1, 0⟩
  lbaLow := ⟨(sector &&& 0xFF).toUInt8, ((sector &&& 0xFF000000) >>> 24).toUInt8⟩
  lbaMid := ⟨((sector &&& 0xFF00) >>> 8).toUInt8, 0⟩
  lbaHigh := ⟨((sector &&& 0xFF0000) >>> 16).toUInt8, 0⟩
  device := if d then 0xf0 else 0xe0

/-- What the code masks and shifts out of a sector number is one of its bytes. -/
theorem byte_of_masked {n m k : Nat} (hm : m >>> k = 2 ^ 8 - 1) :
    (n &&& m) >>> k % 2 ^ 8 = n / 2 ^ k % 2 ^ 8 := by
  rw [Nat.shiftRight_and_distrib, hm, Nat.and_two_pow_sub_one_eq_mod, Nat.mod_mod,
    Nat.shiftRight_eq_div_pow]

/-- The registers have the sector number. -/
theorem addressed_lba (d : Bool) (sector : UInt32) : (addressed d sector).lba = sector.toNat := by
  have hlt := sector.toNat_lt
  have h0 : (sector &&& 0xFF).toUInt8.toNat = sector.toNat / 2 ^ 0 % 2 ^ 8 :=
    byte_of_masked (n := sector.toNat) (m := 0xFF) (k := 0) rfl
  have h1 : ((sector &&& 0xFF00) >>> 8).toUInt8.toNat = sector.toNat / 2 ^ 8 % 2 ^ 8 :=
    byte_of_masked (n := sector.toNat) (m := 0xFF00) (k := 8) rfl
  have h2 : ((sector &&& 0xFF0000) >>> 16).toUInt8.toNat = sector.toNat / 2 ^ 16 % 2 ^ 8 :=
    byte_of_masked (n := sector.toNat) (m := 0xFF0000) (k := 16) rfl
  have h3 : ((sector &&& 0xFF000000) >>> 24).toUInt8.toNat = sector.toNat / 2 ^ 24 % 2 ^ 8 :=
    byte_of_masked (n := sector.toNat) (m := 0xFF000000) (k := 24) rfl
  have hzero : (0 : UInt8).toNat = 0 := rfl
  dsimp only [Task.lba, addressed]
  rw [h0, h1, h2, h3, hzero]
  omega

/-- They have the drive. -/
theorem addressed_selected (d : Bool) (sector : UInt32) : (addressed d sector).selected = d := by
  change decide ((if d then (0xf0 : UInt8) else 0xe0) &&& 0x10 ≠ 0) = d
  cases d <;> decide

/-- They have the count 1. -/
theorem addressed_sectors (d : Bool) (sector : UInt32) : (addressed d sector).sectors = 1 := rfl

section Wired

variable (hw : device.Wired d bus good patience view)
include hw

/-- The command is written to a channel that is ready, with its arguments before it. -/
theorem wp_pioCommand (hs : view s = w) (hw' : w.Between patience) (sector : UInt32)
    (command : UInt8) :
    wp (pioCommand bus patience device sector command)
      (fun _ t => ∃ u, t = bus.outb (device.ideChannel.baseIoRegister + 7) command u ∧
        view u = { w with task := addressed d sector, wait := 0 }) E s := by
  have hselect : (0xe0 : UInt8) ||| device.drive <<< (4 : UInt8) = if d then 0xf0 else 0xe0 := by
    rw [hw.drive]
    cases d <;> decide
  have ready : ∀ x : Task, View.Ready { w with task := x, wait := 0 } := fun _ => ⟨hw'.1, rfl⟩
  rw [pioCommand]
  refine wp_seq (wp_ideRegisterWrite_control hw (by decide)) fun _ t ht => ?_
  have hlook := (watched_status hw (t := t) (w := w) (.inl rfl) (by rw [ht, hs]) (by rw [ht, hs])).1
  refine wp_seq (R := Watched view w) (wp_status hlook) fun v t hv => ?_
  refine wp_seq (wp_waitWhileBusy hw hv hw'.2) fun _ t ht => ?_
  rw [hselect]
  refine wp_seq (wp_argument hw ht (ready _) .device (by decide) rfl _) fun _ t ht => ?_
  refine wp_seq (wp_argument_behind hw ht (ready _) .count (by decide) rfl _) fun _ t ht => ?_
  refine wp_seq (wp_argument_behind hw ht (ready _) .lbaLow (by decide) rfl _) fun _ t ht => ?_
  refine wp_seq (wp_argument_behind hw ht (ready _) .lbaMid (by decide) rfl _) fun _ t ht => ?_
  refine wp_seq (wp_argument_behind hw ht (ready _) .lbaHigh (by decide) rfl _) fun _ t ht => ?_
  refine wp_seq (wp_argument hw ht (ready _) .count (by decide) rfl _) fun _ t ht => ?_
  refine wp_seq (wp_argument hw ht (ready _) .lbaLow (by decide) rfl _) fun _ t ht => ?_
  refine wp_seq (wp_argument hw ht (ready _) .lbaMid (by decide) rfl _) fun _ t ht => ?_
  refine wp_seq (wp_argument hw ht (ready _) .lbaHigh (by decide) rfl _) fun _ t ht => ?_
  rw [ideRegisterWrite_low (by decide), wp_modify]
  exact ⟨t, rfl, ht⟩

end Wired

/-! ## Sectors -/

section Wired

variable (hw : device.Wired d bus good patience view)
include hw

/-- The words of a sector that is good. -/
theorem wp_words_read (x : Words) (hs : view s = w) (hphase : w.phase = .toHost x ⟨0, words_pos⟩)
    (hwait : w.wait = 0) (buf : Words) :
    wp ((List.finRange 256).foldlM (fun buf i => do
        let v ← inw bus device.ideChannel.baseIoRegister
        return Function.update buf i v) buf)
      (fun buf t => buf = x ∧ (view t).Between patience ∧ (view t).media = w.media) E s := by
  refine wp_mono (wp_foldlM (I := fun k buf t => (∀ i : Fin 256, i.val < k → buf i = x i) ∧
    (view t).media = w.media ∧
      ((∃ h : k < 256, (view t).phase = .toHost x ⟨k, h⟩ ∧ (view t).wait = 0) ∨
        k = 256 ∧ (view t).Between patience)) ?_ ?_) ?_ fun _ he => he
  · intro k hk buf t hI
    obtain ⟨hbuf, hmedia, hnext⟩ := hI
    rw [List.length_finRange] at hk
    obtain ⟨_, htphase, htwait⟩ := hnext.resolve_right fun h => absurd h.1 (Nat.ne_of_lt hk)
    obtain ⟨hword, n, hn, hmore, failed, hview⟩ := hw.obeys.take t x ⟨k, hk⟩ htphase htwait
    rw [List.getElem_finRange, wp_bind]
    refine wp_of_eq (show _ = Except.ok (bus.inw device.ideChannel.baseIoRegister t) from rfl) ?_
    refine wp_pure.mpr ⟨fun i hi => ?_, ?_, ?_⟩
    · rcases Nat.lt_or_eq_of_le (Nat.le_of_lt_succ hi) with hlt | rfl
      · rw [Function.update_of_ne fun heq => Nat.ne_of_lt hlt (congrArg Fin.val heq)]
        exact hbuf i hlt
      · exact (Function.update_self ..).trans hword
    · rw [hview]
      exact hmedia
    · rw [hview]
      by_cases hlast : k + 1 < 256
      · exact .inl ⟨hlast, dif_pos hlast, hmore hlast⟩
      · exact .inr ⟨by omega, dif_neg hlast, hn⟩
  · exact ⟨fun i hi => absurd hi (Nat.not_lt_zero _), by rw [hs],
      .inl ⟨by decide, by rw [hs]; exact hphase, by rw [hs]; exact hwait⟩⟩
  · intro buf t hI
    rw [List.length_finRange] at hI
    obtain ⟨hbuf, hmedia, hnext⟩ := hI
    rcases hnext with ⟨hlt, -⟩ | ⟨-, between⟩
    · exact absurd hlt (Nat.lt_irrefl _)
    · exact ⟨funext fun i => hbuf i i.isLt, between, hmedia⟩

/-- **Reading a sector.**  The buffer of a reader stays as it is where the sector is bad. -/
theorem wp_idePioLbaRead (between : (view s).Between patience) (sector : UInt32) (buf : Words) :
    wp (idePioLbaRead bus patience device sector buf)
      (fun r t => (view t).Between patience ∧ (view t).media = (view s).media ∧
        (r.1 = 0 ↔ good d sector.toNat = true) ∧
        r.2 = if good d sector.toNat then (view s).media d sector.toNat else buf) E s := by
  rw [idePioLbaRead]
  refine wp_seq (wp_pioCommand hw rfl between sector _) ?_
  rintro - _ ⟨t, rfl, ht⟩
  obtain ⟨n, hn, hissued⟩ := hw.obeys.read t (by rw [ht]; exact ⟨between.1, rfl⟩)
    (by rw [ht]; exact addressed_sectors d sector)
  rw [ht] at hissued
  dsimp only at hissued
  rw [addressed_selected, addressed_lba] at hissued
  by_cases hgood : good d sector.toNat = true
  · rw [if_pos hgood] at hissued
    refine wp_seq (wp_idePolling hw true hissued hn) fun status u hpost => ?_
    obtain ⟨hu, hstatus⟩ := hpost
    have hzero : ¬ status ≠ 0 := fun hne => Bool.false_ne_true (hstatus.mp hne).2
    rw [if_neg hzero]
    refine wp_seq (wp_words_read hw _ hu rfl rfl buf) ?_
    rintro _ u ⟨rfl, hbetween, hmedia⟩
    exact wp_pure.mpr ⟨hbetween, hmedia, iff_of_true rfl hgood, (if_pos hgood).symm⟩
  · rw [if_neg hgood] at hissued
    refine wp_seq (wp_idePolling hw true hissued hn) fun status u hpost => ?_
    obtain ⟨hu, hstatus⟩ := hpost
    have hne : status ≠ 0 := hstatus.mpr ⟨rfl, rfl⟩
    rw [if_pos hne]
    refine wp_pure.mpr ⟨?_, ?_, iff_of_false hne hgood, (if_neg hgood).symm⟩
    · rw [hu]
      exact ⟨between.1, Nat.zero_lt_of_lt hn⟩
    · rw [hu]

/-- The first `k` words of a buffer. -/
def firstWords (buf : Words) (k : Nat) : Words := fun i => if i.val < k then buf i else 0

omit hw in
/-- One word more has been transferred. -/
theorem firstWords_succ (buf : Words) {k : Nat} (hk : k < 256) :
    Function.update (firstWords buf k) ⟨k, hk⟩ (buf ⟨k, hk⟩) = firstWords buf (k + 1) := by
  funext i
  rw [firstWords]
  by_cases heq : i = ⟨k, hk⟩
  · subst heq
    rw [Function.update_self, if_pos (Nat.lt_succ_self _)]
  · have hne : i.val ≠ k := fun hval => heq (Fin.ext hval)
    rw [Function.update_of_ne heq]
    refine if_congr ?_ rfl rfl
    omega

omit hw in
/-- All of them have. -/
theorem firstWords_all (buf : Words) : firstWords buf 256 = buf := funext fun i => if_pos i.isLt

/-- The words for a sector that is good. -/
theorem wp_words_written (hs : view s = w) {lba : Nat}
    (hphase : w.phase = .fromHost lba (fun _ => 0) ⟨0, words_pos⟩) (hwait : w.wait = 0) (buf : Words) :
    wp (forM (List.finRange 256) fun i => outw bus device.ideChannel.baseIoRegister (buf i))
      (fun _ t => (view t).Between patience ∧ (view t).media = Function.update w.media
        w.task.selected (Function.update (w.media w.task.selected) lba buf)) E s := by
  refine wp_mono (wp_forM (I := fun k t => (view t).task = w.task ∧
    ((∃ h : k < 256, (view t).phase = .fromHost lba (firstWords buf k) ⟨k, h⟩ ∧
        (view t).wait = 0 ∧ (view t).media = w.media) ∨
      k = 256 ∧ (view t).Between patience ∧ (view t).media = Function.update w.media
        w.task.selected (Function.update (w.media w.task.selected) lba buf))) ?_ ?_) ?_
    fun _ he => he
  · intro k hk t hI
    obtain ⟨htask, hnext⟩ := hI
    rw [List.length_finRange] at hk
    obtain ⟨_, htphase, htwait, hmedia⟩ :=
      hnext.resolve_right fun h => absurd h.1 (Nat.ne_of_lt hk)
    obtain ⟨n, hn, hmore, failed, hview⟩ :=
      hw.obeys.give t lba _ _ (buf ⟨k, hk⟩) htphase htwait
    rw [firstWords_succ] at hview
    rw [List.getElem_finRange, outw, wp_modify]
    by_cases hlast : k + 1 < 256
    · rw [View.given, dif_pos hlast] at hview
      refine ⟨?_, .inl ⟨hlast, ?_, ?_, ?_⟩⟩
      all_goals rw [show Fin.cast _ _ = (⟨k, hk⟩ : Fin 256) from rfl, hview]
      · exact htask
      · exact hmore hlast
      · exact hmedia
    · obtain rfl : k = 255 := by omega
      rw [View.given, dif_neg hlast, firstWords_all, htask, hmedia] at hview
      refine ⟨?_, .inr ⟨rfl, ?_, ?_⟩⟩
      all_goals rw [show Fin.cast _ _ = (⟨255, hk⟩ : Fin 256) from rfl, hview]
      exact ⟨rfl, hn⟩
  · subst hs
    exact ⟨rfl, .inl ⟨by decide, hphase, hwait, rfl⟩⟩
  · intro _ t hI
    rw [List.length_finRange] at hI
    rcases hI.2 with ⟨hlt, -⟩ | ⟨-, hpost⟩
    · exact absurd hlt (Nat.lt_irrefl _)
    · exact hpost

/-- Words for a sector that is bad. -/
theorem wp_words_discarded (hs : view s = w) (hphase : w.phase = .discards)
    (hwait : w.wait < patience) (buf : Words) :
    wp (forM (List.finRange 256) fun i => outw bus device.ideChannel.baseIoRegister (buf i))
      (fun _ t => (view t).phase = .discards ∧ (view t).wait < patience ∧
        (view t).media = w.media) E s := by
  subst hs
  refine wp_forM (I := fun _ t => (view t).phase = .discards ∧ (view t).wait < patience ∧
    (view t).media = (view s).media) ?_ ⟨hphase, hwait, rfl⟩
  rintro k - t ⟨htphase, htwait, hmedia⟩
  rw [outw, wp_modify]
  obtain ⟨n, hn, failed, hview⟩ := hw.obeys.discard t (buf (List.finRange 256)[k]) htwait htphase
  rw [hview]
  exact ⟨htphase, hn, hmedia⟩

/-- The flush ends a command, or finds none; the medium stays. -/
theorem wp_flush (hwait : (view s).wait < patience)
    (hphase : (view s).phase = .idle ∨ (view s).phase = .discards) :
    wp (ideRegisterWrite bus device regCommand cmdCacheFlushExt)
      (fun _ t => (view t).Between patience ∧ (view t).media = (view s).media) E s := by
  rw [ideRegisterWrite_low (by decide), wp_modify]
  obtain ⟨n, hn, failed, hview⟩ := hw.obeys.flush s hwait hphase
  rw [show device.ideChannel.baseIoRegister + UInt8.toUInt16 regCommand =
    device.ideChannel.baseIoRegister + 7 from rfl, cmdCacheFlushExt, hview]
  exact ⟨⟨rfl, hn⟩, rfl⟩

/-- **Writing a sector.**  Nothing is reported of a sector that is bad. -/
theorem wp_idePioLbaWrite (between : (view s).Between patience) (sector : UInt32) (buf : Words) :
    wp (idePioLbaWrite bus patience device sector buf)
      (fun r t => (view t).Between patience ∧ r = 0 ∧ (view t).media =
        if good d sector.toNat then
          Function.update (view s).media d (Function.update ((view s).media d) sector.toNat buf)
        else (view s).media) E s := by
  rw [idePioLbaWrite]
  refine wp_seq (wp_pioCommand hw rfl between sector _) ?_
  rintro - _ ⟨t, rfl, ht⟩
  obtain ⟨n, hn, failed, hissued⟩ := hw.obeys.write t (by rw [ht]; exact ⟨between.1, rfl⟩)
    (by rw [ht]; exact addressed_sectors d sector)
  rw [ht] at hissued
  dsimp only at hissued
  rw [addressed_selected, addressed_lba] at hissued
  by_cases hgood : good d sector.toNat = true
  · rw [if_pos hgood] at hissued
    refine wp_seq (wp_idePolling hw false hissued hn) fun status u hpost => ?_
    obtain ⟨hu, hstatus⟩ := hpost
    rw [if_neg fun hne => Bool.false_ne_true (hstatus.mp hne).1]
    refine wp_seq (wp_words_written hw hu rfl rfl buf) fun _ x hx => ?_
    refine wp_seq (wp_flush hw hx.1.2 (.inl hx.1.1)) fun _ y hy => ?_
    refine wp_pure.mpr ⟨hy.1, rfl, hy.2.trans (hx.2.trans ?_)⟩
    rw [if_pos hgood, show Task.selected _ = d from addressed_selected d sector]
  · rw [if_neg hgood] at hissued
    refine wp_seq (wp_idePolling hw false hissued hn) fun status u hpost => ?_
    obtain ⟨hu, hstatus⟩ := hpost
    rw [if_neg fun hne => Bool.false_ne_true (hstatus.mp hne).1]
    refine wp_seq (wp_words_discarded hw hu rfl (Nat.zero_lt_of_lt hn) buf) fun _ x hx => ?_
    refine wp_seq (wp_flush hw hx.2.1 (.inr hx.1)) fun _ y hy => ?_
    exact wp_pure.mpr ⟨hy.1, rfl, hy.2.trans (hx.2.2.trans (if_neg hgood).symm)⟩

end Wired

end Cumulonimbus.Ide
