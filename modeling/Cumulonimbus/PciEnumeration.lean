import Cumulonimbus.PciScan

/-!
# What the list of devices says

After a scan the list holds every function that is to be listed, once and in order, and looking
for an address finds it or says that it is not there.  What a device says of its function's
header may be wrong in the words that are not read: they come from a function that was visited
before, or from nowhere.
-/

namespace Cumulonimbus.Pci

open Exec Linked

variable {W : UInt32 → UInt32 → UInt32 → UInt32} {E : Fault → Prop} {s t : State}

/-! ## Order -/

/-- An address that a function can have. -/
def Addr.InRange (addr : Addr) : Prop := addr.slot < 32 ∧ addr.func < 8

instance Addr.decidableInRange (addr : Addr) : Decidable addr.InRange :=
  inferInstanceAs (Decidable (_ ∧ _))

/-- The order of bus, slot and function. -/
def Addr.Before (a b : Addr) : Prop :=
  a.bus < b.bus ∨ a.bus = b.bus ∧ (a.slot < b.slot ∨ a.slot = b.slot ∧ a.func < b.func)

/-- The numbers from 0 on are places in range. -/
theorem place_inRange (n : Nat) : (place n).InRange := by
  constructor
  · refine UInt8.lt_iff_toNat_lt.mpr ?_
    rw [place_slot]
    exact Nat.mod_lt _ (by decide)
  · refine UInt8.lt_iff_toNat_lt.mpr ?_
    rw [place_func]
    exact Nat.mod_lt _ (by decide)

/-- The number of a function. -/
def Addr.number (addr : Addr) : Nat :=
  addr.bus.toNat * 256 + addr.slot.toNat * 8 + addr.func.toNat

/-- Places in range have numbers below 65536. -/
theorem number_lt {addr : Addr} (h : addr.InRange) : addr.number < 65536 := by
  have hbus := addr.bus.toNat_lt
  have hslot : addr.slot.toNat < 32 := UInt8.lt_iff_toNat_lt.mp h.1
  have hfunc : addr.func.toNat < 8 := UInt8.lt_iff_toNat_lt.mp h.2
  unfold Addr.number
  omega

/-- The place with the number of a place is that place. -/
theorem place_number {addr : Addr} (h : addr.InRange) :
    place addr.number = { addr with offset := 0 } := by
  have hslot : addr.slot.toNat < 32 := UInt8.lt_iff_toNat_lt.mp h.1
  have hfunc : addr.func.toNat < 8 := UInt8.lt_iff_toNat_lt.mp h.2
  have hb : addr.number / 256 = addr.bus.toNat := by
    unfold Addr.number
    omega
  have hs : addr.number / 8 % 32 = addr.slot.toNat := by
    unfold Addr.number
    omega
  have hf : addr.number % 8 = addr.func.toNat := by
    unfold Addr.number
    omega
  rw [place, hb, hs, hf, UInt8.ofNat_toNat, UInt8.ofNat_toNat, UInt8.ofNat_toNat]

/-- Numbers order functions by bus, slot and function. -/
theorem place_before {m n : Nat} (hmn : m < n) (hn : n < 65536) :
    (place m).Before (place n) := by
  have hm : m < 65536 := Nat.lt_trans hmn hn
  rw [Addr.Before, UInt8.lt_iff_toNat_lt, UInt8.lt_iff_toNat_lt, UInt8.lt_iff_toNat_lt,
    ← UInt8.toNat_inj, ← UInt8.toNat_inj, place_bus hm, place_bus hn, place_slot, place_slot,
    place_func, place_func]
  omega

/-- Which functions are listed. -/
theorem mem_listed {n k : Nat} : k ∈ s.listed n ↔ k < n ∧ s.Listed (place k) := by
  rw [State.listed, List.mem_filter, List.mem_range, decide_eq_true_iff]

/-- They are listed in the order of their numbers, none of them twice. -/
theorem listed_sorted (s : State) (n : Nat) : (s.listed n).Pairwise (· < ·) :=
  List.Pairwise.filter _ List.pairwise_lt_range

/-- Whether a function is listed does not depend on the offset. -/
theorem listed_offset (s : State) (addr : Addr) :
    s.Listed { addr with offset := 0 } ↔ s.Listed addr :=
  Iff.rfl

/-! ## The list -/

/-- The addresses of the devices of the list. -/
def State.addresses (t : State) (l : List UInt32) : List Addr :=
  l.map fun p => (t.devices p).address

/-- The structures have the addresses of the listed functions, in this order. -/
theorem Scanned.addresses {config : Config} {n : Nat} (h : Scanned s config n t) :
    t.addresses (devicePtrs s.kallocBase (s.listed n).length) = (s.listed n).map place := by
  have hentries := congrArg (List.map Prod.fst) h.entries
  rw [List.map_map, List.map_map] at hentries
  exact hentries

/-- The loop finds the first device at which it stops. -/
theorem findDevice_spec {l : List UInt32} (hl : t.Holds l) (stop : Device → Bool) :
    wp (findDevice stop) (fun r u => u = t ∧ r = l.find? fun p => stop (t.devices p)) E t := by
  have hlength : l.length ≤ rounds := hl.forth.length_addresses
  have hscan : Linked.scan (fun p => pointer 0 (t.devices p).next) (fun p => stop (t.devices p))
      rounds (pointer 0 t.list.first) = some (l.find? fun p => stop (t.devices p)) :=
    hl.forth.scan_eq _ hlength
  rw [findDevice, wp_bind, wp_get, hscan]
  exact ⟨rfl, rfl⟩

/-- Two addresses are of one function. -/
def Addr.Same (a b : Addr) : Prop := a.bus = b.bus ∧ a.slot = b.slot ∧ a.func = b.func

/-- The comparison of addresses leaves the offset out. -/
theorem same_iff {a b : Addr} (ha : a.offset = 0) : a.Same b ↔ a = { b with offset := 0 } := by
  constructor
  · intro h
    obtain ⟨hbus, hslot, hfunc⟩ := h
    obtain ⟨bus, slot, func, offset⟩ := a
    dsimp only at ha hbus hslot hfunc
    rw [ha, hbus, hslot, hfunc]
  · intro h
    rw [h]
    exact ⟨rfl, rfl, rfl⟩

/-- What `_pci_get_device_by_address` does for an address in range. -/
theorem getDeviceByAddress_spec {l : List UInt32} (hl : t.Holds l) {addr : Addr}
    (hrange : addr.InRange) :
    wp (pciGetDeviceByAddress addr)
      (fun r u => u = t ∧
        ((∃ p ∈ l, (t.devices p).address.Same addr ∧ r = (.success, some p)) ∨
          (∀ p ∈ l, ¬ (t.devices p).address.Same addr) ∧ r = (.notFound, some 0)))
      E t := by
  have hbus : ¬ maxBusCount ≤ addr.bus.toNat := Nat.not_le.mpr addr.bus.toNat_lt
  have hslot : ¬ maxSlotCount ≤ addr.slot.toNat :=
    Nat.not_le.mpr (UInt8.lt_iff_toNat_lt.mp hrange.1)
  have hfunc : ¬ maxFuncCount ≤ addr.func.toNat :=
    Nat.not_le.mpr (UInt8.lt_iff_toNat_lt.mp hrange.2)
  rw [pciGetDeviceByAddress, if_neg (not_or.mpr ⟨hbus, not_or.mpr ⟨hslot, hfunc⟩⟩)]
  refine wp_seq (findDevice_spec hl _) ?_
  intro r u hpost
  obtain ⟨rfl, rfl⟩ := hpost
  split
  case h_1 p hp =>
    have hstop := List.find?_some hp
    refine ⟨rfl, Or.inl ⟨p, List.mem_of_find?_eq_some hp, ?_, rfl⟩⟩
    simpa [Addr.Same] using hstop
  case h_2 hnone =>
    refine ⟨rfl, Or.inr ⟨fun p hp hsame => ?_, rfl⟩⟩
    have hstop := List.find?_eq_none.mp hnone p hp
    exact hstop (by simpa [Addr.Same] using hsame)

/-- **What the list is to say** of the functions that answered in `s`. -/
structure Enumerates (s t : State) (l : List UInt32) : Prop where
  /-- From `first` along `next` and from `last` along `prev`, to `NULL`. -/
  links : t.Holds l
  inverse : ∀ p ∈ l, ∀ q ∈ l, t.nextOf p = some q ↔ t.prevOf q = some p
  size : t.list.size.toNat = l.length
  complete : ∀ addr, addr ∈ t.addresses l ↔ addr.InRange ∧ addr.offset = 0 ∧ s.Listed addr
  order : (t.addresses l).Pairwise Addr.Before
  lookup : ∀ addr, addr.InRange →
    wp (pciGetDeviceByAddress addr)
      (fun r u => u = t ∧
        (s.Listed addr → ∃ p ∈ l, (t.devices p).address.Same addr ∧ r = (.success, some p)) ∧
        (¬ s.Listed addr → r = (.notFound, some 0)))
      (fun _ => False) t

/-- **Nothing is missed**: a function is listed exactly when it answers. -/
theorem Scanned.complete {config : Config} (h : Scanned s config 65536 t) (addr : Addr) :
    addr ∈ t.addresses (devicePtrs s.kallocBase (s.listed 65536).length) ↔
      addr.InRange ∧ addr.offset = 0 ∧ s.Listed addr := by
  rw [h.addresses, List.mem_map]
  constructor
  · intro hmem
    obtain ⟨k, hk, rfl⟩ := hmem
    exact ⟨place_inRange k, rfl, (mem_listed.mp hk).2⟩
  · intro hmem
    obtain ⟨hrange, hoffset, hlisted⟩ := hmem
    have hplace : place addr.number = addr := by
      rw [place_number hrange, ← hoffset]
    exact ⟨addr.number, mem_listed.mpr ⟨number_lt hrange, by rwa [hplace]⟩, hplace⟩

/-- **The scan enumerates** what answers. -/
theorem Scanned.enumerates {config : Config} (h : Scanned s config 65536 t) :
    Enumerates s t (devicePtrs s.kallocBase (s.listed 65536).length) := by
  have hlength := length_listed_le s 65536
  have hoffset : ∀ p ∈ devicePtrs s.kallocBase (s.listed 65536).length,
      (t.devices p).address.offset = 0 ∧ s.Listed (t.devices p).address := by
    intro p hp
    have hmem := (h.complete _).mp (List.mem_map_of_mem hp)
    exact hmem.2
  refine ⟨h.links, fun p hp q hq => h.links.inverse hp hq, ?_, h.complete, ?_, ?_⟩
  · rw [h.size, UInt32.toNat_ofNat_of_lt' (Nat.lt_of_le_of_lt hlength (by decide)), devicePtrs,
      List.length_map, List.length_range]
  · rw [h.addresses, List.pairwise_map]
    refine (listed_sorted s 65536).imp_of_mem fun _ hn hlt => ?_
    exact place_before hlt (mem_listed.mp hn).1
  · intro addr hrange
    refine wp_mono (getDeviceByAddress_spec h.links hrange) ?_ fun _ he => he
    intro r u hpost
    obtain ⟨rfl, ⟨p, hp, hsame, rfl⟩ | ⟨hnone, rfl⟩⟩ := hpost
    · refine ⟨rfl, fun _ => ⟨p, hp, hsame, rfl⟩, fun hnot => (hnot ?_).elim⟩
      have haddr := (same_iff (hoffset p hp).1).mp hsame
      rw [← listed_offset, ← haddr]
      exact (hoffset p hp).2
    · refine ⟨rfl, fun hlisted => ?_, fun _ => rfl⟩
      obtain ⟨p, hp, haddr⟩ := List.mem_map.mp
        ((h.complete { addr with offset := 0 }).mpr
          ⟨hrange, rfl, (listed_offset s addr).mpr hlisted⟩)
      refine (hnone p hp ?_).elim
      rw [haddr]
      exact ⟨rfl, rfl, rfl⟩

/-- **The scan lists every function once and in order.** -/
theorem scan_enumerates (W : UInt32 → UInt32 → UInt32 → UInt32) (s : State) (addr : Addr)
    (config : Config) (room : Room s) (hempty : s.list.size = 0) :
    ∃ t, pciScan W addr config s = .ok (.success, t) ∧ ∃ l, Enumerates s t l := by
  obtain ⟨_, t, hrun, rfl, hscanned⟩ := wp_returns (pciScan_spec room hempty addr config)
  exact ⟨t, hrun, _, hscanned.enumerates⟩

/-- Every function answers and says that there are others. -/
def crowded : State := { State.initial with regs := fun _ => 0x00800000 }

/-- The heap of the example has room. -/
theorem crowded_room : Room crowded := ⟨by decide, by decide⟩

theorem scan_enumerates_crowded :
    ∃ t, pciScan (fun _ old _ => old) ⟨0, 0, 0, 0⟩ (fun _ => 0) crowded = .ok (.success, t) ∧
      ∃ l, Enumerates crowded t l :=
  scan_enumerates (fun _ old _ => old) crowded ⟨0, 0, 0, 0⟩ (fun _ => 0) crowded_room rfl

/-! ## What a device says of its header -/

/-- The header of a function is of type 0, with or without the bit for several functions. -/
def State.Type0 (s : State) (addr : Addr) : Prop := (s.space addr).headerType &&& 0x7f = 0

instance State.decidableType0 (s : State) (addr : Addr) : Decidable (s.Type0 addr) :=
  inferInstanceAs (Decidable (_ = _))

/-- A word of the variable is copied from a function. -/
def State.Supplies (s : State) (k m : Nat) : Prop :=
  s.Visited (place m) ∧ k < wordsRead (s.space (place m)).headerType

/-- What the scan finds in a word of its variable when it comes to a function: what the last
function before that supplies the word has there or, if there is none, what was there at first. -/
def State.Finds (s : State) (config : Config) (n : Nat) (k : Fin configWords) (v : UInt32) : Prop :=
  (∃ m < n, s.Supplies k.val m ∧ s.space (place m) k = v ∧
    ∀ i, m < i → i < n → ¬ s.Supplies k.val i) ∨
  (∀ i < n, ¬ s.Supplies k.val i) ∧ config k = v

/-- A word of the header is read where the function supplies it, and stale otherwise. -/
theorem held_succ_word (s : State) (config : Config) (n : Nat) (k : Fin configWords) :
    (s.Supplies k.val n → s.held config (n + 1) k = s.space (place n) k) ∧
      (¬ s.Supplies k.val n → s.held config (n + 1) k = s.held config n k) := by
  by_cases hvisited : s.Visited (place n)
  · rw [held_succ hvisited, Config.read, Config.filled]
    constructor
    · intro h
      exact if_pos ⟨Nat.zero_le _, h.2⟩
    · intro h
      exact if_neg fun hk => h ⟨hvisited, hk.2⟩
  · constructor
    · intro h
      exact absurd h.1 hvisited
    · intro _
      rw [State.held, if_neg hvisited]

/-- Where a word of the structure comes from. -/
theorem finds_iff (s : State) (config : Config) (n : Nat) (k : Fin configWords) (v : UInt32) :
    s.Finds config n k v ↔ s.held config n k = v := by
  induction n with
  | zero => simp [State.Finds, State.held]
  | succ n ih =>
    obtain ⟨hyes, hno⟩ := held_succ_word s config n k
    by_cases h : s.Supplies k.val n
    · rw [hyes h]
      constructor
      · intro hfinds
        rcases hfinds with ⟨m, hm, -, rfl, hlast⟩ | ⟨hnone, -⟩
        · by_cases hmn : m = n
          · rw [hmn]
          · exact absurd h (hlast n (by omega) (by omega))
        · exact absurd h (hnone n (by omega))
      · intro hv
        exact Or.inl ⟨n, by omega, h, hv, fun i hi hi' => by omega⟩
    · rw [hno h, ← ih]
      constructor
      · intro hfinds
        rcases hfinds with ⟨m, hm, hsup, hv, hlast⟩ | ⟨hnone, hv⟩
        · have hmn : m ≠ n := fun heq => h (heq ▸ hsup)
          exact Or.inl ⟨m, by omega, hsup, hv, fun i hi hi' => hlast i hi (by omega)⟩
        · exact Or.inr ⟨fun i hi => hnone i (by omega), hv⟩
      · intro hfinds
        rcases hfinds with ⟨m, hm, hsup, hv, hlast⟩ | ⟨hnone, hv⟩
        · refine Or.inl ⟨m, by omega, hsup, hv, fun i hi hi' => ?_⟩
          by_cases hin : i = n
          · rwa [hin]
          · exact hlast i hi (by omega)
        · refine Or.inr ⟨fun i hi => ?_, hv⟩
          by_cases hin : i = n
          · rwa [hin]
          · exact hnone i (by omega)

/-- The words of a header of type 0 that are not read are right anyway. -/
def Config.StaleRight (c d : Config) : Prop :=
  ∀ k : Fin configWords, k.val < 16 → wordsRead d.headerType ≤ k.val → c k = d k

/-- **A header is right** exactly when the words that are not read happened to be. -/
theorem readConfig_iff (addr : Addr) (config : Config) :
    wp (pciReadConfig addr config)
        (fun r _ => r.1 = .success ∧ SameFields r.2 (s.space addr)) (fun _ => False) s ↔
      config.StaleRight (s.space addr) := by
  have hspec := pciReadConfig_spec (E := fun _ => False) addr config s
  rw [Config.StaleRight, ← sameFields_read_iff]
  constructor
  · intro h
    obtain ⟨_, t, -, ⟨rfl, -⟩, -, hsame⟩ := wp_returns (wp_mono (wp_and hspec h) (fun _ _ h => h)
      fun _ he => he.1)
    exact hsame
  · intro h
    refine wp_mono hspec ?_ fun _ he => he
    intro r t hpost
    obtain ⟨rfl, -⟩ := hpost
    exact ⟨rfl, h⟩

/-- The header that the scan stores for a function. -/
theorem Scanned.stored {config : Config} {n : Nat} (h : Scanned s config n t) {p : UInt32}
    (hp : p ∈ devicePtrs s.kallocBase (s.listed n).length) :
    ∃ k ∈ s.listed n, (t.devices p).address = place k ∧
      (t.devices p).config = (s.held config k).read (s.space (place k)) := by
  have hmem := List.mem_map_of_mem (f := fun p => ((t.devices p).address, (t.devices p).config)) hp
  rw [h.entries, List.mem_map] at hmem
  obtain ⟨k, hk, heq⟩ := hmem
  obtain ⟨haddr, hconfig⟩ := Prod.mk.inj heq
  refine ⟨k, hk, haddr.symm, ?_⟩
  rw [← hconfig, held_succ (mem_listed.mp hk).2.2]

/-- Each listed function has a structure, filled from what was there before. -/
theorem Scanned.exists_stored {config : Config} {n : Nat} (h : Scanned s config n t) {k : Nat}
    (hk : k ∈ s.listed n) :
    ∃ p ∈ devicePtrs s.kallocBase (s.listed n).length, (t.devices p).address = place k ∧
      (t.devices p).config = (s.held config k).read (s.space (place k)) := by
  have hmem : (place k, s.held config (k + 1)) ∈
      (s.listed n).map fun k => (place k, s.held config (k + 1)) := List.mem_map_of_mem hk
  rw [← h.entries, List.mem_map] at hmem
  obtain ⟨p, hp, heq⟩ := hmem
  obtain ⟨haddr, hconfig⟩ := Prod.mk.inj heq
  refine ⟨p, hp, haddr, ?_⟩
  rw [hconfig, held_succ (mem_listed.mp hk).2.2]

/-- **A copy of a header of type 0 is right** exactly if the words that are not read happen to be
right: the last one, or all but the first four if the bit for several functions is set.  For the
scan these words are what earlier functions have left in its variable. -/
theorem headers_right_iff (W : UInt32 → UInt32 → UInt32 → UInt32) (s : State) :
    (∀ (addr : Addr) (config : Config), s.Type0 addr →
      (wp (pciReadConfig addr config)
          (fun r _ => r.1 = .success ∧ SameFields r.2 (s.space addr)) (fun _ => False) s ↔
        config.StaleRight (s.space addr))) ∧
    (∀ (addr : Addr) (config : Config), Room s → s.list.size = 0 →
      ∃ t l, pciScan W addr config s = .ok (.success, t) ∧ Enumerates s t l ∧
        ((∀ p ∈ l, s.Type0 (t.devices p).address →
            SameFields (t.devices p).config (s.space (t.devices p).address)) ↔
          ∀ n < 65536, s.Listed (place n) → s.Type0 (place n) → ∀ k : Fin configWords, k.val < 16 →
            wordsRead (s.space (place n)).headerType ≤ k.val →
              s.Finds config n k (s.space (place n) k))) := by
  refine ⟨fun addr config _ => readConfig_iff addr config, fun addr config room hempty => ?_⟩
  obtain ⟨_, t, hrun, rfl, hscanned⟩ := wp_returns (pciScan_spec room hempty addr config)
  refine ⟨t, _, hrun, hscanned.enumerates, ?_⟩
  simp only [finds_iff]
  constructor
  · intro h n hn hlisted htype
    obtain ⟨p, hp, haddr, hconfig⟩ := hscanned.exists_stored (mem_listed.mpr ⟨hn, hlisted⟩)
    have hsame := h p hp (by rwa [haddr])
    rw [haddr, hconfig, sameFields_read_iff] at hsame
    exact hsame
  · intro h p hp htype
    obtain ⟨k, hk, haddr, hconfig⟩ := hscanned.stored hp
    rw [haddr] at htype ⊢
    rw [hconfig, sameFields_read_iff]
    exact h k (mem_listed.mp hk).1 (mem_listed.mp hk).2 htype

/-- The variable happens to hold the right words, and every function is listed. -/
theorem headers_right_crowded :
    wp (pciReadConfig ⟨0, 0, 0, 0⟩ fun _ => 0x00800000)
        (fun r _ => r.1 = .success ∧ SameFields r.2 (crowded.space ⟨0, 0, 0, 0⟩))
        (fun _ => False) crowded ∧
      ∃ t l, pciScan (fun _ old _ => old) ⟨0, 0, 0, 0⟩ (fun _ => 0) crowded = .ok (.success, t) ∧
        Enumerates crowded t l := by
  obtain ⟨hone, hall⟩ := headers_right_iff (fun _ old _ => old) crowded
  refine ⟨(hone ⟨0, 0, 0, 0⟩ (fun _ => 0x00800000) (by decide)).mpr fun _ _ _ => rfl, ?_⟩
  obtain ⟨t, l, hrun, henum, -⟩ := hall ⟨0, 0, 0, 0⟩ (fun _ => 0) crowded_room rfl
  exact ⟨t, l, hrun, henum⟩

/-- One function has its interrupt on line 11. -/
def withIrqLine : State :=
  { State.initial with regs := fun a => if a = portAddress 1 ⟨0, 0, 0, 15⟩ then 0x10b else 0 }

/-- The line is not read, and of a device with several functions no register is. -/
theorem header_words_not_read :
    ¬ wp (pciReadConfig ⟨0, 0, 0, 0⟩ fun _ => 0)
        (fun r _ => r.1 = .success ∧ SameFields r.2 (withIrqLine.space ⟨0, 0, 0, 0⟩))
        (fun _ => False) withIrqLine ∧
      ¬ wp (pciReadConfig ⟨0, 0, 0, 0⟩ fun _ => 0)
        (fun r _ => r.1 = .success ∧ SameFields r.2 (crowded.space ⟨0, 0, 0, 0⟩))
        (fun _ => False) crowded := by
  rw [readConfig_iff, readConfig_iff]
  constructor
  · intro h
    exact absurd (h ⟨15, by decide⟩ (by decide) (by decide)) (by decide)
  · intro h
    exact absurd (h ⟨4, by decide⟩ (by decide) (by decide)) (by decide)

end Cumulonimbus.Pci
