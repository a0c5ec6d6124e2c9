import Mathlib.Tactic.IntervalCases
import Cumulonimbus.PciRegisters

/-!
# Configuration headers

`_pci_read_config` copies the first four words of a header, and then as many as the type of the
header says, if it is exactly 0, 1 or 2.  The words that it does not copy stay as they were in
the variable that it fills.
-/

namespace Cumulonimbus.Pci

open Exec

variable {E : Fault → Prop} {s : State} {addr : Addr}

/-- The configuration space of a function. -/
def State.space (s : State) (addr : Addr) : Config :=
  fun k => s.reg 1 { addr with offset := UInt8.ofNat k.val }

/-- The words from `i` up to `m` are those of `d`. -/
def Config.filled (c : Config) (i m : Nat) (d : Config) : Config :=
  fun k => if i ≤ k.val ∧ k.val < m then d k else c k

/-- One word more has been read. -/
theorem store_filled {c d : Config} {i m : Nat} (hi : i < m) (hm : m ≤ configWords) :
    (c.store i (d ⟨i, Nat.lt_of_lt_of_le hi hm⟩)).filled (i + 1) m d = c.filled i m d := by
  funext k
  rw [Config.filled, Config.filled, Config.store]
  by_cases hk : k.val = i
  · have hki : k = ⟨i, Nat.lt_of_lt_of_le hi hm⟩ := Fin.ext hk
    rw [if_neg (by omega), if_pos hk, if_pos (by omega), hki]
  · rw [if_neg hk]
    by_cases hin : i ≤ k.val ∧ k.val < m
    · rw [if_pos (by omega), if_pos hin]
    · rw [if_neg (by omega), if_neg hin]

/-- Words up to one place, and on from there. -/
theorem filled_filled (c d : Config) {i m n : Nat} (him : i ≤ m) (hmn : m ≤ n) :
    (c.filled i m d).filled m n d = c.filled i n d := by
  funext k
  simp only [Config.filled]
  by_cases hm : m ≤ k.val
  · by_cases hn : k.val < n
    · rw [if_pos ⟨hm, hn⟩, if_pos ⟨by omega, hn⟩]
    · rw [if_neg (by omega), if_neg (by omega), if_neg (by omega)]
  · by_cases hi : i ≤ k.val
    · rw [if_neg (by omega), if_pos (by omega), if_pos (by omega)]
    · rw [if_neg (by omega), if_neg (by omega), if_neg (by omega)]

/-- No words. -/
theorem filled_self (c d : Config) (i : Nat) : c.filled i i d = c := by
  funext k
  exact if_neg (by omega)

/-- Only the address port was written. -/
def SameButPort (s t : State) : Prop := ∃ c, t = { s with confAddress := c }

/-- Nothing has changed. -/
theorem SameButPort.refl (s : State) : SameButPort s s := ⟨s.confAddress, rfl⟩

/-- Nothing but the port has changed twice. -/
theorem SameButPort.trans {t u : State} (h : SameButPort s t) (h' : SameButPort t u) :
    SameButPort s u := by
  obtain ⟨c, rfl⟩ := h
  obtain ⟨d, rfl⟩ := h'
  exact ⟨d, rfl⟩

/-- The configuration space is behind the port. -/
theorem SameButPort.space {t : State} (h : SameButPort s t) (addr : Addr) :
    t.space addr = s.space addr := by
  obtain ⟨c, rfl⟩ := h
  rfl

/-- The variables when the words up to `m` have been copied. -/
def Copy.upTo (v : Copy) (m : Nat) (d : Config) : Copy :=
  ⟨.success, { v.addr with offset := UInt8.ofNat m }, m, v.config.filled v.lptr m d⟩

/-- The loop has come to this word. -/
theorem upTo_self {v : Copy} {m : Nat} (hstatus : v.status = .success)
    (hoffset : v.addr.offset.toNat = v.lptr) (heq : v.lptr = m) (d : Config) : v = v.upTo m d := by
  have hval : UInt8.ofNat m = v.addr.offset := by
    rw [← heq, ← hoffset, UInt8.ofNat_toNat]
  rw [Copy.upTo, hval, ← heq, filled_self, ← hstatus]

/-- The loop copies the words up to its limit. -/
theorem copyWords_spec {m : Nat} (hm : m ≤ configWords) (turns : Nat) (v : Copy) (s : State)
    (hstatus : v.status = .success) (hoffset : v.addr.offset.toNat = v.lptr) (hle : v.lptr ≤ m)
    (enough : m ≤ v.lptr + turns) :
    wp (copyWords (m * 4) turns v)
      (fun w t => w = v.upTo m (s.space v.addr) ∧ SameButPort s t) E s := by
  have hwords : configWords = 18 := rfl
  induction turns generalizing v s with
  | zero => exact ⟨upTo_self hstatus hoffset (by omega) _, .refl s⟩
  | succ turns ih =>
    unfold copyWords
    split
    case isFalse hlimit => exact ⟨upTo_self hstatus hoffset (by omega) _, .refl s⟩
    case isTrue hlimit =>
      have hlt : v.lptr < m := by omega
      rw [wp_bind, wp_pciReadLong]
      rw [if_neg (not_not.mpr rfl)]
      have hval : UInt8.ofNat v.lptr = v.addr.offset := by
        rw [← hoffset, UInt8.ofNat_toNat]
      have hnext : (v.addr.offset + 1).toNat = v.lptr + 1 := by
        rw [UInt8.toNat_add, UInt8.toNat_one]
        omega
      have hread : s.reg 1 v.addr = s.space v.addr ⟨v.lptr, Nat.lt_of_lt_of_le hlt hm⟩ := by
        change s.reg 1 v.addr = s.reg 1 { v.addr with offset := UInt8.ofNat v.lptr }
        rw [hval]
      refine wp_mono (ih ⟨.success, { v.addr with offset := v.addr.offset + 1 }, v.lptr + 1,
        v.config.store v.lptr (s.reg 1 v.addr)⟩ (s.at 1 v.addr) rfl hnext hlt
        (show m ≤ v.lptr + 1 + turns by omega)) ?_ fun _ h => h
      intro w t hpost
      obtain ⟨rfl, hsame⟩ := hpost
      refine ⟨?_, SameButPort.trans ⟨_, rfl⟩ hsame⟩
      have hspace : (s.at 1 v.addr).space { v.addr with offset := v.addr.offset + 1 } =
          s.space v.addr := rfl
      rw [Copy.upTo, Copy.upTo, hspace, hread, store_filled hlt hm]

/-- How many words are copied for a type of header. -/
def wordsRead (headerType : UInt8) : Nat :=
  if headerType = 0 ∨ headerType = 1 then 15 else if headerType = 2 then 17 else 4

/-- At least the first four words are read. -/
theorem four_le_wordsRead (headerType : UInt8) : 4 ≤ wordsRead headerType := by
  unfold wordsRead
  split
  · decide
  · split <;> decide

/-- They have the header type. -/
theorem headerType_filled {c d : Config} {m : Nat} (hm : 4 ≤ m) :
    (c.filled 0 m d).headerType = d.headerType := by
  have hword : c.filled 0 m d ⟨3, by decide⟩ = d ⟨3, by decide⟩ := if_pos ⟨Nat.zero_le 3, hm⟩
  rw [Config.headerType, Config.headerType, hword]

/-- They have the device. -/
theorem deviceId_filled {c d : Config} {m : Nat} (hm : 4 ≤ m) :
    (c.filled 0 m d).deviceId = d.deviceId := by
  have hword : c.filled 0 m d ⟨0, by decide⟩ = d ⟨0, by decide⟩ :=
    if_pos ⟨Nat.le_refl 0, Nat.lt_of_lt_of_le (by decide) hm⟩
  rw [Config.deviceId, Config.deviceId, hword]

/-- What the variable holds after the configuration of a function has been read into it. -/
def Config.read (c d : Config) : Config := c.filled 0 (wordsRead d.headerType) d

/-- **What `_pci_read_config` does.** -/
theorem pciReadConfig_spec (addr : Addr) (config : Config) (s : State) :
    wp (pciReadConfig addr config)
      (fun r t => r = (.success, config.read (s.space addr)) ∧ SameButPort s t) E s := by
  unfold pciReadConfig
  refine wp_seq (copyWords_spec (m := 4) (by decide) configWords
    ⟨.success, { addr with offset := 0 }, 0, config⟩ s rfl rfl (Nat.zero_le 4)
    (Nat.le_of_ble_eq_true rfl)) ?_
  intro v t hpost
  obtain ⟨hv, hsame⟩ := hpost
  have hstatus : v.status = .success := by rw [hv]; rfl
  have hoffset : v.addr.offset.toNat = v.lptr := by rw [hv]; rfl
  have hlptr : v.lptr = 4 := by rw [hv]; rfl
  have hconfig : v.config = config.filled 0 4 (s.space addr) := by rw [hv]; rfl
  have hspace : t.space v.addr = s.space addr := by
    rw [hsame.space, hv]
    rfl
  have htype : v.config.headerType = (s.space addr).headerType := by
    rw [hconfig, headerType_filled (Nat.le_refl 4)]
  clear hv
  -- the second loop, up to `m`
  have hmore : ∀ m, 4 ≤ m → m ≤ configWords → wordsRead (s.space addr).headerType = m →
      wp (do
          let v ← copyWords (m * 4) configWords v
          pure (v.status, v.config))
        (fun r t => r = (.success, config.read (s.space addr)) ∧ SameButPort s t) E t := by
    intro m hm hmw hread
    refine wp_seq (copyWords_spec hmw configWords v t hstatus hoffset (by omega)
      (Nat.le_trans hmw (Nat.le_add_left _ _))) ?_
    intro w u hpost
    obtain ⟨rfl, hsame'⟩ := hpost
    refine ⟨?_, hsame.trans hsame'⟩
    rw [Copy.upTo, hspace, hconfig, hlptr, filled_filled config _ (Nat.zero_le 4) hm, Config.read,
      hread]
  rw [if_neg (not_not.mpr hstatus), htype]
  split
  case isTrue h0 => exact hmore 15 (by decide) (by decide) (by rw [wordsRead, if_pos (Or.inl h0)])
  case isFalse h0 =>
    split
    case isTrue h1 => exact hmore 15 (by decide) (by decide) (by rw [wordsRead, if_pos (Or.inr h1)])
    case isFalse h1 =>
      have hnot : ¬ ((s.space addr).headerType = 0 ∨ (s.space addr).headerType = 1) :=
        not_or.mpr ⟨h0, h1⟩
      split
      case isTrue h2 =>
        exact hmore 17 (by decide) (by decide) (by rw [wordsRead, if_neg hnot, if_pos h2])
      case isFalse h2 =>
        refine ⟨?_, hsame⟩
        rw [hstatus, hconfig, Config.read, wordsRead, if_neg hnot, if_neg h2]

/-! ## Fields -/

/-- Every field of a header of type 0 is the same in two configurations. -/
structure SameFields (c d : Config) : Prop where
  vendorId : c.vendorId = d.vendorId
  deviceId : c.deviceId = d.deviceId
  command : c.command = d.command
  status : c.status = d.status
  revisionId : c.revisionId = d.revisionId
  progIF : c.progIF = d.progIF
  subClass : c.subClass = d.subClass
  classCode : c.classCode = d.classCode
  cacheLineSize : c.cacheLineSize = d.cacheLineSize
  latencyTimer : c.latencyTimer = d.latencyTimer
  headerType : c.headerType = d.headerType
  bist : c.bist = d.bist
  bar : ∀ i, c.bar i = d.bar i
  cardbusCis : c.cardbusCis = d.cardbusCis
  systemVendorId : c.systemVendorId = d.systemVendorId
  systemId : c.systemId = d.systemId
  romExpansionBar : c.romExpansionBar = d.romExpansionBar
  capabilitiesPtr : c.capabilitiesPtr = d.capabilitiesPtr
  reserved : c.reserved = d.reserved
  irqLine : c.irqLine = d.irqLine
  irqPin : c.irqPin = d.irqPin
  minGrant : c.minGrant = d.minGrant
  maxLatency : c.maxLatency = d.maxLatency

/-- A word is made up of its four bytes. -/
theorem word_eq_of_bytes {v w : UInt32} (h0 : byteAt v 0 = byteAt w 0)
    (h1 : byteAt v 1 = byteAt w 1) (h2 : byteAt v 2 = byteAt w 2) (h3 : byteAt v 3 = byteAt w 3) :
    v = w := by
  have hv := v.toNat_lt
  have hw := w.toNat_lt
  have hb0 := congrArg UInt8.toNat h0
  have hb1 := congrArg UInt8.toNat h1
  have hb2 := congrArg UInt8.toNat h2
  have hb3 := congrArg UInt8.toNat h3
  rw [toNat_byteAt (by decide), toNat_byteAt (by decide)] at hb0 hb1 hb2 hb3
  simp only [Fields.field, Nat.shiftRight_eq_div_pow, UInt32.reduceToNat] at hb0 hb1 hb2 hb3
  refine UInt32.toNat_inj.mp ?_
  omega

/-- A word is its two halves. -/
theorem word_eq_of_shorts {v w : UInt32} (h0 : shortAt v 0 = shortAt w 0)
    (h2 : shortAt v 2 = shortAt w 2) : v = w := by
  have hv := v.toNat_lt
  have hw := w.toNat_lt
  have hb0 := congrArg UInt16.toNat h0
  have hb2 := congrArg UInt16.toNat h2
  rw [toNat_shortAt (by decide), toNat_shortAt (by decide)] at hb0 hb2
  simp only [Fields.field, Nat.shiftRight_eq_div_pow, UInt32.reduceToNat] at hb0 hb2
  refine UInt32.toNat_inj.mp ?_
  omega

/-- The fields cover the first sixteen words, and nothing else. -/
theorem sameFields_iff {c d : Config} :
    SameFields c d ↔ ∀ k : Fin configWords, k.val < 16 → c k = d k := by
  constructor
  · intro h k hk
    have hreserved := h.reserved
    simp only [Config.reserved, List.cons.injEq] at hreserved
    obtain ⟨h13b1, h13b2, h13b3, h14b0, h14b1, h14b2, h14b3, -⟩ := hreserved
    have hbar : ∀ i : Fin 6, c ⟨4 + i.val, by have := i.isLt; unfold configWords; omega⟩ =
        d ⟨4 + i.val, by have := i.isLt; unfold configWords; omega⟩ := h.bar
    obtain ⟨k, hk18⟩ := k
    interval_cases k
    · exact word_eq_of_shorts h.vendorId h.deviceId
    · exact word_eq_of_shorts h.command h.status
    · exact word_eq_of_bytes h.revisionId h.progIF h.subClass h.classCode
    · exact word_eq_of_bytes h.cacheLineSize h.latencyTimer h.headerType h.bist
    · exact hbar ⟨0, by decide⟩
    · exact hbar ⟨1, by decide⟩
    · exact hbar ⟨2, by decide⟩
    · exact hbar ⟨3, by decide⟩
    · exact hbar ⟨4, by decide⟩
    · exact hbar ⟨5, by decide⟩
    · exact h.cardbusCis
    · exact word_eq_of_shorts h.systemVendorId h.systemId
    · exact h.romExpansionBar
    · exact word_eq_of_bytes h.capabilitiesPtr h13b1 h13b2 h13b3
    · exact word_eq_of_bytes h14b0 h14b1 h14b2 h14b3
    · exact word_eq_of_bytes h.irqLine h.irqPin h.minGrant h.maxLatency
  · intro h
    have hword : ∀ k : Nat, (hk : k < 16) →
        c ⟨k, Nat.lt_trans hk (by decide)⟩ = d ⟨k, Nat.lt_trans hk (by decide)⟩ :=
      fun k hk => h ⟨k, _⟩ hk
    have h0 := hword 0 (by decide)
    have h1 := hword 1 (by decide)
    have h2 := hword 2 (by decide)
    have h3 := hword 3 (by decide)
    have h11 := hword 11 (by decide)
    have h13 := hword 13 (by decide)
    have h14 := hword 14 (by decide)
    have h15 := hword 15 (by decide)
    exact
      { vendorId := congrArg (shortAt · 0) h0
        deviceId := congrArg (shortAt · 2) h0
        command := congrArg (shortAt · 0) h1
        status := congrArg (shortAt · 2) h1
        revisionId := congrArg (byteAt · 0) h2
        progIF := congrArg (byteAt · 1) h2
        subClass := congrArg (byteAt · 2) h2
        classCode := congrArg (byteAt · 3) h2
        cacheLineSize := congrArg (byteAt · 0) h3
        latencyTimer := congrArg (byteAt · 1) h3
        headerType := congrArg (byteAt · 2) h3
        bist := congrArg (byteAt · 3) h3
        bar := fun i => hword (4 + i.val) (by have := i.isLt; omega)
        cardbusCis := hword 10 (by decide)
        systemVendorId := congrArg (shortAt · 0) h11
        systemId := congrArg (shortAt · 2) h11
        romExpansionBar := hword 12 (by decide)
        capabilitiesPtr := congrArg (byteAt · 0) h13
        reserved := by
          unfold Config.reserved
          rw [h13, h14]
        irqLine := congrArg (byteAt · 0) h15
        irqPin := congrArg (byteAt · 1) h15
        minGrant := congrArg (byteAt · 2) h15
        maxLatency := congrArg (byteAt · 3) h15 }

/-- What is read is faithful exactly if the words that are not read were right before. -/
theorem sameFields_read_iff {c d : Config} :
    SameFields (c.read d) d ↔
      ∀ k : Fin configWords, k.val < 16 → wordsRead d.headerType ≤ k.val → c k = d k := by
  rw [sameFields_iff]
  have hread : ∀ k : Fin configWords,
      c.read d k = if k.val < wordsRead d.headerType then d k else c k := by
    intro k
    rw [Config.read, Config.filled]
    simp
  constructor
  · intro h k hk hstale
    have hsame := h k hk
    rwa [hread, if_neg (by omega)] at hsame
  · intro h k hk
    rw [hread]
    split
    case isTrue => rfl
    case isFalse hstale => exact h k hk (by omega)

end Cumulonimbus.Pci
