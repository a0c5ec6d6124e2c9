import Cumulonimbus.PciBars
import Cumulonimbus.PciHeaders

/-!
# The scan of the buses

Functions are numbered by bus, slot and function.  When the scan has come to a number, the list
holds those below it that answer, in order, and the registers of the others are untouched.  From
one number to the next there are three cases: a function is added, it does not answer, or it is
passed over because its slot has one function only.
-/

namespace Cumulonimbus.Pci

open Exec Linked

variable {W : UInt32 → UInt32 → UInt32 → UInt32} {E : Fault → Prop} {s t u : State}

/-! ## Adding a function -/

def State.nextOf (s : State) (p : UInt32) : Option UInt32 := pointer 0 (s.devices p).next

def State.prevOf (s : State) (p : UInt32) : Option UInt32 := pointer 0 (s.devices p).prev

/-- The devices of the list, in order. -/
def State.Holds (s : State) (l : List UInt32) : Prop :=
  Doubly s.nextOf s.prevOf (pointer 0 s.list.first) (pointer 0 s.list.last) l

/-- The registers of every other function are as they were. -/
def SameElsewhere (addr : Addr) (s t : State) : Prop :=
  ∀ a, a ≠ portAddress 1 { addr with offset := 4 } → t.regs a = s.regs a

/-- There is a new device at `p`, not in the list yet. -/
structure Prepared (addr : Addr) (config : Config) (p : UInt32) (s t : State) : Prop where
  base : t.kallocBase = s.kallocBase + deviceSize
  list : t.list = s.list
  others : ∀ q, q ≠ p → t.devices q = s.devices q
  address : (t.devices p).address = addr
  config : (t.devices p).config = config
  next : (t.devices p).next = 0
  prev : (t.devices p).prev = 0
  regs : SameElsewhere addr s t

/-- The device at `p` is new and the last of the list. -/
structure Added (addr : Addr) (config : Config) (p : UInt32) (s t : State) : Prop where
  base : t.kallocBase = s.kallocBase + deviceSize
  list : t.list = ⟨s.list.size + 1, if s.list.last = 0 then p else s.list.first, p⟩
  others : ∀ q, q ≠ p → q ≠ s.list.last → t.devices q = s.devices q
  before : s.list.last ≠ 0 → t.devices s.list.last = { s.devices s.list.last with next := p }
  address : (t.devices p).address = addr
  config : (t.devices p).config = config
  next : (t.devices p).next = 0
  prev : (t.devices p).prev = s.list.last
  regs : SameElsewhere addr s t

@[simp] theorem devices_setDevice_self (s : State) (p : UInt32) (d : Device) :
    (s.setDevice p d).devices p = d := Function.update_self ..

/-- The other device structures stay. -/
theorem devices_setDevice_of_ne {p q : UInt32} (h : q ≠ p) (s : State) (d : Device) :
    (s.setDevice p d).devices q = s.devices q := Function.update_of_ne h ..

@[simp] theorem setDevice_setDevice (s : State) (p : UInt32) (d d' : Device) :
    (s.setDevice p d).setDevice p d' = s.setDevice p d' := by
  simp [State.setDevice]

/-- An allocation clears the structure at the base of the heap and moves the base. -/
theorem wp_pciAllocDevice {Q : UInt32 → State → Prop} :
    wp pciAllocDevice Q E s ↔
      Q s.kallocBase (State.setDevice { s with kallocBase := s.kallocBase + deviceSize }
        s.kallocBase .zero) := Iff.rfl

@[simp] theorem list_setDevice (s : State) (p : UInt32) (d : Device) :
    (s.setDevice p d).list = s.list := rfl

/-- The state after `_pci_append_device`. -/
def State.appended (s : State) (p : UInt32) : State :=
  if s.list.last = 0 then
    { s.setDevice p { s.devices p with next := 0, prev := 0 } with
      list := ⟨s.list.size + 1, p, p⟩ }
  else
    { (s.setDevice s.list.last { s.devices s.list.last with next := p }).setDevice p
        { s.devices p with prev := s.list.last } with
      list := ⟨s.list.size + 1, s.list.first, p⟩ }

/-- Appending a structure to the list of devices, by its effect. -/
theorem wp_pciAppendDevice {Q : Status → State → Prop} {list : { p : UInt32 // p ≠ 0 }}
    {p : UInt32} (hp : p ≠ 0) (hlast : p ≠ s.list.last) :
    wp (pciAppendDevice list p) Q E s ↔ Q .success (s.appended p) := by
  unfold pciAppendDevice State.appended
  rw [wp_bind, wp_get, if_neg (not_or.mpr ⟨list.property, hp⟩)]
  split
  · simp only [wp_bind, wp_modify, wp_pure, list_setDevice, devices_setDevice_self,
      setDevice_setDevice]
    rfl
  · simp only [wp_bind, wp_modify, wp_pure, list_setDevice, devices_setDevice_of_ne hlast]

/-- A device that was prepared is appended. -/
theorem Prepared.added {addr : Addr} {config : Config} {p : UInt32}
    (hlast : p ≠ s.list.last) (h : Prepared addr config p s t) :
    Added addr config p s (t.appended p) := by
  unfold State.appended
  rw [h.list]
  split
  case isTrue hnull =>
    exact
      { base := h.base
        list := by rw [if_pos hnull]
        others := fun q hq _ => (devices_setDevice_of_ne hq ..).trans (h.others q hq)
        before := fun hne => absurd hnull hne
        address := (congrArg Device.address (devices_setDevice_self ..)).trans h.address
        config := (congrArg Device.config (devices_setDevice_self ..)).trans h.config
        next := congrArg Device.next (devices_setDevice_self ..)
        prev := (congrArg Device.prev (devices_setDevice_self ..)).trans hnull.symm
        regs := h.regs }
  case isFalse hnull =>
    have hold : t.devices s.list.last = s.devices s.list.last := h.others _ hlast.symm
    exact
      { base := h.base
        list := by rw [if_neg hnull]
        others := fun q hq hq' => (devices_setDevice_of_ne hq ..).trans
          ((devices_setDevice_of_ne hq' ..).trans (h.others q hq))
        before := fun _ => by
          rw [← hold]
          exact (devices_setDevice_of_ne hlast.symm ..).trans (devices_setDevice_self ..)
        address := (congrArg Device.address (devices_setDevice_self ..)).trans h.address
        config := (congrArg Device.config (devices_setDevice_self ..)).trans h.config
        next := (congrArg Device.next (devices_setDevice_self ..)).trans h.next
        prev := congrArg Device.prev (devices_setDevice_self ..)
        regs := h.regs }

/-- **What is done for a function that answers.** -/
theorem addFunction_spec (addr : Addr) (config : Config) (hp : s.kallocBase ≠ 0)
    (hlast : s.kallocBase ≠ s.list.last) :
    wp (addFunction W addr config)
      (fun status t => status = .success ∧ Added addr config s.kallocBase s t) E s := by
  have hend : ∀ list : { p : UInt32 // p ≠ 0 }, ∀ t, Prepared addr config s.kallocBase s t →
      wp (pciAppendDevice list s.kallocBase)
        (fun status t => status = .success ∧ Added addr config s.kallocBase s t) E t := by
    intro list t ht
    rw [wp_pciAppendDevice hp (by rw [ht.list]; exact hlast)]
    exact ⟨rfl, ht.added hlast⟩
  unfold addFunction
  rw [wp_bind, wp_pciAllocDevice, wp_bind, wp_modify, wp_bind, wp_modify, wp_bind, wp_get]
  simp only [setDevice_setDevice, devices_setDevice_self]
  split
  case isTrue hdr =>
    have hdr' : (Device.mk addr config Device.zero.memorySpace Device.zero.next
        Device.zero.prev).config.headerType = 0 := hdr
    rw [wp_bind, wp_pciReadBarSize hdr' (by decide), wp_bind, wp_modify]
    refine hend _ _ ?_
    exact
      { base := rfl
        list := rfl
        others := fun q hq => (devices_setDevice_of_ne hq ..).trans (devices_setDevice_of_ne hq ..)
        address := (congrArg Device.address (devices_setDevice_self ..)).trans
          (congrArg Device.address (devices_setDevice_self ..))
        config := (congrArg Device.config (devices_setDevice_self ..)).trans
          (congrArg Device.config (devices_setDevice_self ..))
        next := (congrArg Device.next (devices_setDevice_self ..)).trans
          (congrArg Device.next (devices_setDevice_self ..))
        prev := (congrArg Device.prev (devices_setDevice_self ..)).trans
          (congrArg Device.prev (devices_setDevice_self ..))
        regs := fun a ha => Function.update_of_ne ha .. }
  case isFalse hdr =>
    refine hend _ _ ?_
    exact
      { base := rfl
        list := rfl
        others := fun q hq => devices_setDevice_of_ne hq ..
        address := congrArg Device.address (devices_setDevice_self ..)
        config := congrArg Device.config (devices_setDevice_self ..)
        next := congrArg Device.next (devices_setDevice_self ..)
        prev := congrArg Device.prev (devices_setDevice_self ..)
        regs := fun _ _ => rfl }

/-! ## Functions by number -/

/-- The function with a number. -/
def place (n : Nat) : Addr :=
  ⟨UInt8.ofNat (n / 256), UInt8.ofNat (n / 8 % 32), UInt8.ofNat (n % 8), 0⟩

/-- Function 0 of the slot. -/
def Addr.first (addr : Addr) : Addr := { addr with func := 0 }

/-- A function answers. -/
def State.Present (s : State) (addr : Addr) : Prop := (s.space addr).deviceId ≠ 0xffff

instance State.decidablePresent (s : State) (addr : Addr) : Decidable (s.Present addr) :=
  inferInstanceAs (Decidable (_ ≠ _))

/-- The slot's function 0 answers, and says that there are others. -/
def State.Multi (s : State) (addr : Addr) : Prop :=
  s.Present addr.first ∧ (s.space addr.first).headerType &&& 0x80 ≠ 0

instance State.decidableMulti (s : State) (addr : Addr) : Decidable (s.Multi addr) :=
  inferInstanceAs (Decidable (_ ∧ _))

/-- The scan reads the configuration of a function. -/
def State.Visited (s : State) (addr : Addr) : Prop := addr.func = 0 ∨ s.Multi addr

instance State.decidableVisited (s : State) (addr : Addr) : Decidable (s.Visited addr) :=
  inferInstanceAs (Decidable (_ ∨ _))

/-- The functions that are to be listed: function 0 of a slot if it answers and, if it says that
there are others, those of functions 1 to 7 that answer. -/
def State.Listed (s : State) (addr : Addr) : Prop := s.Present addr ∧ s.Visited addr

instance State.decidableListed (s : State) (addr : Addr) : Decidable (s.Listed addr) :=
  inferInstanceAs (Decidable (_ ∧ _))

/-- The numbers below `n` of the functions that are to be listed. -/
def State.listed (s : State) (n : Nat) : List Nat :=
  (List.range n).filter fun k => s.Listed (place k)

/-- What the variable `config` holds when the scan has come to `n`. -/
def State.held (s : State) (config : Config) : Nat → Config
  | 0 => config
  | n + 1 =>
    if s.Visited (place n) then (s.held config n).read (s.space (place n)) else s.held config n

/-- One more function, which has a device of its own. -/
theorem listed_succ_of_listed {n : Nat} (h : s.Listed (place n)) :
    s.listed (n + 1) = s.listed n ++ [n] := by
  simp [State.listed, List.range_succ, h]

/-- One more function, which has none. -/
theorem listed_succ_of_not {n : Nat} (h : ¬ s.Listed (place n)) :
    s.listed (n + 1) = s.listed n := by
  simp [State.listed, List.range_succ, h]

/-- There are at most as many devices as functions. -/
theorem length_listed_le (s : State) (n : Nat) : (s.listed n).length ≤ n := by
  have hle := List.length_filter_le (fun k => decide (s.Listed (place k))) (List.range n)
  rwa [List.length_range] at hle

/-- The bus is the upper part of the number. -/
theorem place_bus {n : Nat} (hn : n < 65536) : (place n).bus.toNat = n / 256 := by
  rw [place, UInt8.toNat_ofNat_of_lt' (show n / 256 < 256 by omega)]

/-- The slot is its middle part. -/
theorem place_slot (n : Nat) : (place n).slot.toNat = n / 8 % 32 := by
  rw [place, UInt8.toNat_ofNat_of_lt' (show n / 8 % 32 < 256 by omega)]

/-- The function is its last three bits. -/
theorem place_func (n : Nat) : (place n).func.toNat = n % 8 := by
  rw [place, UInt8.toNat_ofNat_of_lt' (show n % 8 < 256 by omega)]

/-- Functions with different numbers have different registers. -/
theorem place_inj {m n : Nat} (hm : m < 65536) (hn : n < 65536) {i j : UInt8}
    (h : portAddress 1 { place m with offset := i } = portAddress 1 { place n with offset := j }) :
    m = n := by
  have hsame := portAddress_inj h
  have hbus : (place m).bus.toNat = (place n).bus.toNat := congrArg UInt8.toNat hsame.bus
  have hslot : (place m).slot.toNat % 32 = (place n).slot.toNat % 32 := hsame.slot
  have hfunc : (place m).func.toNat % 8 = (place n).func.toNat % 8 := hsame.func
  rw [place_bus hm, place_bus hn] at hbus
  rw [place_slot, place_slot] at hslot
  rw [place_func, place_func] at hfunc
  omega

/-! ## What the scan keeps -/

/-- The device that was allocated after `i` others. -/
def devicePtr (base : UInt32) (i : Nat) : UInt32 := base + deviceSize * UInt32.ofNat i

def devicePtrs (base : UInt32) (m : Nat) : List UInt32 := (List.range m).map (devicePtr base)

/-- There is room for a device of every function. -/
structure Room (s : State) : Prop where
  started : 0 < s.kallocBase.toNat
  fits : s.kallocBase.toNat + 65536 * 88 ≤ 0x100000000

/-- The heap has room, so the addresses of the structures do not wrap around. -/
theorem Room.toNat_devicePtr (room : Room s) {i : Nat} (hi : i < 65536) :
    (devicePtr s.kallocBase i).toNat = s.kallocBase.toNat + 88 * i := by
  have hfits := room.fits
  have hi' : (UInt32.ofNat i).toNat = i := UInt32.toNat_ofNat_of_lt' (show i < 4294967296 by omega)
  rw [devicePtr, UInt32.toNat_add, UInt32.toNat_mul, hi', show deviceSize.toNat = 88 from rfl]
  omega

/-- The list, and what is left, when the scan has come to `n`. -/
structure Scanned (s : State) (config : Config) (n : Nat) (t : State) : Prop where
  base : t.kallocBase = devicePtr s.kallocBase (s.listed n).length
  size : t.list.size = UInt32.ofNat (s.listed n).length
  links : t.Holds (devicePtrs s.kallocBase (s.listed n).length)
  entries : (devicePtrs s.kallocBase (s.listed n).length).map
      (fun p => ((t.devices p).address, (t.devices p).config)) =
    (s.listed n).map fun k => (place k, s.held config (k + 1))
  space : ∀ k, n ≤ k → k < 65536 → t.space (place k) = s.space (place k)

/-- Only the port of the address register may differ. -/
theorem Scanned.port {config : Config} {n : Nat} (h : Scanned s config n t)
    (hport : SameButPort t u) :
    Scanned s config n u := by
  obtain ⟨c, rfl⟩ := hport
  exact ⟨h.base, h.size, h.links, h.entries, h.space⟩

/-- A function that is not listed. -/
theorem Scanned.skip {config : Config} {n : Nat} (h : Scanned s config n t)
    (hn : ¬ s.Listed (place n)) : Scanned s config (n + 1) t := by
  have hlisted := listed_succ_of_not hn
  refine ⟨?_, ?_, ?_, ?_, fun k hk => h.space k (by omega)⟩
  · rw [hlisted, h.base]
  · rw [hlisted, h.size]
  · rw [hlisted]
    exact h.links
  · rw [hlisted, h.entries]

/-- The structures lie one behind the other. -/
theorem devicePtr_succ (base : UInt32) (i : Nat) :
    devicePtr base (i + 1) = devicePtr base i + deviceSize := by
  rw [devicePtr, devicePtr, UInt32.ofNat_add]
  grind

/-- One structure more. -/
theorem devicePtrs_succ (base : UInt32) (m : Nat) :
    devicePtrs base (m + 1) = devicePtrs base m ++ [devicePtr base m] := by
  simp [devicePtrs, List.range_succ]

/-- The next device is none of those before. -/
theorem Room.fresh (room : Room s) {m : Nat} (hm : m < 65536) :
    ∀ p ∈ devicePtrs s.kallocBase m, p ≠ devicePtr s.kallocBase m := by
  intro p hp heq
  obtain ⟨i, hi, rfl⟩ := List.mem_map.mp hp
  have him := List.mem_range.mp hi
  have hnat := congrArg UInt32.toNat heq
  rw [room.toNat_devicePtr (by omega), room.toNat_devicePtr hm] at hnat
  omega

/-- None of them is at address 0. -/
theorem Room.ne_null (room : Room s) {m : Nat} (hm : m < 65536) : devicePtr s.kallocBase m ≠ 0 := by
  intro heq
  have hnat := congrArg UInt32.toNat heq
  have hstarted := room.started
  rw [room.toNat_devicePtr hm, UInt32.toNat_zero] at hnat
  omega

/-- The list with the new device at its end. -/
theorem Added.holds {addr : Addr} {config : Config} {p : UInt32} {l : List UInt32} (hp : p ≠ 0)
    (hfresh : ∀ q ∈ l, q ≠ p) (hl : t.Holds l) (hadd : Added addr config p t u) :
    u.Holds (l ++ [p]) := by
  have htail := hl.tail_eq
  have hempty : l = [] ↔ t.list.last = 0 := by
    have hnull : pointer 0 t.list.last = none ↔ t.list.last = 0 := pointer_eq_none
    rw [← hnull, htail, List.getLast?_eq_none_iff]
  have hpush : Doubly u.nextOf u.prevOf (if l = [] then some p else pointer 0 t.list.first) (some p)
      (l ++ [p]) := hl.push ?_ ?_ ?_ ?_ ?_
  · have hfirst : pointer 0 u.list.first = if l = [] then some p else pointer 0 t.list.first := by
      rw [hadd.list]
      simp only [hempty]
      split
      · exact pointer_of_ne hp
      · rfl
    have hlast : pointer 0 u.list.last = some p := by
      rw [hadd.list]
      exact pointer_of_ne hp
    unfold State.Holds
    rw [hfirst, hlast]
    exact hpush
  · intro q hq hnotlast
    have hq' : q ≠ t.list.last := by
      intro heq
      by_cases hnull : t.list.last = 0
      · rw [hempty.mpr hnull] at hq
        cases hq
      · exact hnotlast (by rw [← htail, heq, pointer_of_ne hnull])
    rw [State.nextOf, State.nextOf, hadd.others q (hfresh q hq) hq']
  · intro q hq
    rw [← htail, pointer_eq_some] at hq
    rw [← hq.2, State.nextOf, hadd.before hq.1]
    exact pointer_of_ne hp
  · rw [State.nextOf, hadd.next, pointer_null]
  · intro q hq
    by_cases hq' : q = t.list.last
    · have hnull : t.list.last ≠ 0 := by
        intro hnull
        rw [hempty.mpr hnull] at hq
        cases hq
      rw [hq', State.prevOf, State.prevOf, hadd.before hnull]
    · rw [State.prevOf, State.prevOf, hadd.others q (hfresh q hq) hq']
  · rw [State.prevOf, hadd.prev]

/-- What a device is for does not change. -/
theorem Added.same_entry {addr : Addr} {config : Config} {p q : UInt32} (hq : q ≠ p)
    (hlast : q = t.list.last → q ≠ 0) (hadd : Added addr config p t u) :
    ((u.devices q).address, (u.devices q).config) =
      ((t.devices q).address, (t.devices q).config) := by
  by_cases hq' : q = t.list.last
  · rw [hq'] at hlast ⊢
    rw [hadd.before (hlast rfl)]
  · rw [hadd.others q hq hq']

/-- A function that is added. -/
theorem Scanned.add {config : Config} {n : Nat} (h : Scanned s config n t) (room : Room s)
    (hn : n < 65536) (hlisted : s.Listed (place n))
    (hadd : Added (place n) (s.held config (n + 1)) t.kallocBase t u) :
    Scanned s config (n + 1) u := by
  have hm : (s.listed n).length < 65536 := Nat.lt_of_le_of_lt (length_listed_le s n) hn
  have hlength : (s.listed (n + 1)).length = (s.listed n).length + 1 := by
    rw [listed_succ_of_listed hlisted, List.length_append, List.length_singleton]
  have hfresh := room.fresh hm
  have hnull := room.ne_null hm
  rw [← h.base] at hfresh hnull
  refine ⟨?_, ?_, ?_, ?_, ?_⟩
  · rw [hlength, devicePtr_succ, ← h.base, hadd.base]
  · rw [hlength, hadd.list, h.size, UInt32.ofNat_add]
    rfl
  · rw [hlength, devicePtrs_succ, ← h.base]
    exact hadd.holds hnull hfresh h.links
  · rw [hlength, devicePtrs_succ, ← h.base, listed_succ_of_listed hlisted, List.map_append,
      List.map_append, ← h.entries]
    congr 1
    · refine List.map_congr_left fun q hq => ?_
      refine hadd.same_entry (hfresh q hq) fun hlast hzero => ?_
      have htail := h.links.tail_eq
      rw [← hlast, hzero, pointer_null] at htail
      rw [List.getLast?_eq_none_iff.mp htail.symm] at hq
      cases hq
    · rw [List.map_singleton, List.map_singleton, hadd.address, hadd.config]
  · intro k hk hk'
    rw [← h.space k (by omega) hk']
    funext i
    refine hadd.regs _ fun heq => ?_
    have hkn : k = n := place_inj hk' hn heq
    omega

/-! ## The loops -/

/-- The loops go through the numbers eight at a time. -/
theorem place_eq {q f : Nat} (hf : f < 8) :
    place (8 * q + f) = ⟨UInt8.ofNat (q / 32), UInt8.ofNat (q % 32), UInt8.ofNat f, 0⟩ := by
  rw [place, show (8 * q + f) / 256 = q / 32 by omega, show (8 * q + f) / 8 % 32 = q % 32 by omega,
    show (8 * q + f) % 8 = f by omega]

/-- Each slot starts with its function 0. -/
theorem place_eq_zero (q : Nat) :
    place (8 * q) = ⟨UInt8.ofNat (q / 32), UInt8.ofNat (q % 32), 0, 0⟩ :=
  place_eq (f := 0) (by decide)

/-- Function 0 of a slot answers for all of them. -/
theorem place_first {q f : Nat} (hf : f < 8) : (place (8 * q + f)).first = place (8 * q) := by
  rw [place_eq hf, place_eq_zero, Addr.first]

/-- The functions after it are not function 0. -/
theorem func_ne_zero {f : Nat} (hf : f < 8) (hpos : 0 < f) : UInt8.ofNat f ≠ 0 := by
  intro heq
  have hnat := congrArg UInt8.toNat heq
  rw [UInt8.toNat_ofNat_of_lt' (show f < 256 by omega), UInt8.toNat_zero] at hnat
  omega

/-- Function 0 is always visited, and the others if it says so. -/
theorem visited_zero (s : State) (q : Nat) : s.Visited (place (8 * q)) := by
  rw [State.Visited, place_eq_zero]
  exact Or.inl rfl

/-- The loop goes on to them exactly where the header says that there are several. -/
theorem visited_iff {q f : Nat} (hf : f < 8) (hpos : 0 < f) :
    s.Visited (place (8 * q + f)) ↔ s.Multi (place (8 * q)) := by
  have hfirst : (place (8 * q)).first = place (8 * q) := place_first (f := 0) (by decide)
  rw [State.Visited, State.Multi, State.Multi, place_first hf, hfirst, place_eq hf]
  simp [func_ne_zero hf hpos]

/-- What that test asks of the header. -/
theorem multi_iff (s : State) (q : Nat) :
    s.Multi (place (8 * q)) ↔ s.Present (place (8 * q)) ∧
      (s.space (place (8 * q))).headerType &&& 0x80 ≠ 0 := by
  have hfirst : (place (8 * q)).first = place (8 * q) := place_first (f := 0) (by decide)
  rw [State.Multi, hfirst]

/-- A function that is visited is read into the structure. -/
theorem held_succ {config : Config} {n : Nat} (h : s.Visited (place n)) :
    s.held config (n + 1) = (s.held config n).read (s.space (place n)) := if_pos h

/-- The local variables and the list when the scan has come to `n`. -/
structure AtPlace (s : State) (config : Config) (n : Nat) (v : Locals) (t : State) : Prop where
  status : v.status = .success
  offset : v.addr.offset = 0
  holds : v.config = s.held config n
  scanned : Scanned s config n t

/-- The configuration of a function is read. -/
theorem visit_spec {config : Config} {n : Nat} (hn : n < 65536) (hvisited : s.Visited (place n))
    (h : Scanned s config n t) :
    wp (pciReadConfig (place n) (s.held config n))
      (fun r u => r = (.success, s.held config (n + 1)) ∧ Scanned s config n u) E t := by
  refine wp_mono (pciReadConfig_spec (place n) (s.held config n) t) ?_ fun _ he => he
  intro r u hpost
  obtain ⟨rfl, hport⟩ := hpost
  refine ⟨?_, h.port hport⟩
  rw [h.space n (Nat.le_refl n) hn, held_succ hvisited]

/-- A function that answers is added. -/
theorem add_spec {config : Config} {n : Nat} (room : Room s) (hn : n < 65536)
    (hlisted : s.Listed (place n)) (h : Scanned s config n t) :
    wp (addFunction W (place n) (s.held config (n + 1)))
      (fun status u => status = .success ∧ Scanned s config (n + 1) u) E t := by
  have hm : (s.listed n).length < 65536 := Nat.lt_of_le_of_lt (length_listed_le s n) hn
  have hnull : t.kallocBase ≠ 0 := by
    rw [h.base]
    exact room.ne_null hm
  have hlast : t.kallocBase ≠ t.list.last := by
    intro heq
    have htail := h.links.tail_eq
    rw [← heq, pointer_of_ne hnull, h.base] at htail
    exact room.fresh hm _ (List.mem_of_getLast? htail.symm) rfl
  refine wp_mono (addFunction_spec (place n) _ hnull hlast) ?_ fun _ he => he
  intro status u hpost
  exact ⟨hpost.1, h.add room hn hlisted hpost.2⟩

/-- The device id and the header type that are tested are those of the function. -/
theorem held_deviceId {config : Config} {n : Nat} (h : s.Visited (place n)) :
    (s.held config (n + 1)).deviceId = (s.space (place n)).deviceId := by
  rw [held_succ h]
  exact deviceId_filled (four_le_wordsRead _)

/-- After that the structure has the header type of the function. -/
theorem held_headerType {config : Config} {n : Nat} (h : s.Visited (place n)) :
    (s.held config (n + 1)).headerType = (s.space (place n)).headerType := by
  rw [held_succ h]
  exact headerType_filled (four_le_wordsRead _)

/-- The loop over the functions 1 to 7 of a slot. -/
theorem scanFuncs_spec {config : Config} (room : Room s) {q : Nat} (hq : q < 8192)
    (hmulti : s.Multi (place (8 * q))) (k f : Nat) (hf : 0 < f) (hk : f + k = 8) (v : Locals)
    (hslot : v.addr.first = place (8 * q)) (t : State) (h : AtPlace s config (8 * q + f) v t) :
    wp (scanFuncs W (List.range' f k) v)
      (fun r u => ∃ w, r = .ok w ∧ w.addr.first = place (8 * q) ∧ AtPlace s config (8 * q + 8) w u)
      E t := by
  induction k generalizing f v t with
  | zero =>
    obtain rfl : f = 8 := by omega
    exact ⟨v, rfl, hslot, h⟩
  | succ k ih =>
    have hf8 : f < 8 := by omega
    have hn : 8 * q + f < 65536 := by omega
    have hvisited := (visited_iff (s := s) hf8 hf).mpr hmulti
    have haddr : { v.addr with func := UInt8.ofNat f } = place (8 * q + f) := by
      rw [place_eq_zero, Addr.first] at hslot
      rw [place_eq hf8]
      injection hslot with hbus hslot _ hoffset
      simp [hbus, hslot, hoffset]
    rw [List.range'_succ, scanFuncs, haddr, h.holds]
    refine wp_seq (visit_spec hn hvisited h.scanned) ?_
    intro r u hpost
    obtain ⟨rfl, hscanned⟩ := hpost
    rw [if_neg (not_not.mpr rfl), held_deviceId hvisited]
    have hnext : ∀ w, Scanned s config (8 * q + f + 1) w →
        wp (scanFuncs W (List.range' (f + 1) k)
            ⟨.success, place (8 * q + f), s.held config (8 * q + f + 1)⟩)
          (fun r u => ∃ w, r = .ok w ∧ w.addr.first = place (8 * q) ∧
            AtPlace s config (8 * q + 8) w u) E w := by
      intro w hw
      refine ih (f + 1) (by omega) (by omega) _ (place_first hf8) w ?_
      exact ⟨rfl, by rw [place_eq hf8], rfl, hw⟩
    split
    case isTrue hpresent =>
      refine wp_seq (add_spec room hn ⟨hpresent, hvisited⟩ hscanned) ?_
      intro status w hpost
      obtain ⟨rfl, hadded⟩ := hpost
      rw [if_neg (not_not.mpr rfl)]
      exact hnext w hadded
    case isFalse habsent => exact hnext u (hscanned.skip fun hlisted => habsent hlisted.1)

/-- The rest of a slot that has one function only. -/
theorem skip_rest {config : Config} {q : Nat} (hmulti : ¬ s.Multi (place (8 * q))) (k : Nat)
    (hk : k < 8) (h : Scanned s config (8 * q + 1) t) :
    Scanned s config (8 * q + 1 + k) t ∧
      s.held config (8 * q + 1 + k) = s.held config (8 * q + 1) := by
  induction k with
  | zero => exact ⟨h, rfl⟩
  | succ k ih =>
    obtain ⟨hscanned, hheld⟩ := ih (by omega)
    have hvisited : ¬ s.Visited (place (8 * q + 1 + k)) := by
      rw [Nat.add_assoc, visited_iff (by omega) (by omega)]
      exact hmulti
    refine ⟨hscanned.skip fun hlisted => hvisited hlisted.2, ?_⟩
    rw [← hheld]
    exact if_neg hvisited

/-- The loop over the slots of a bus. -/
theorem scanSlots_spec {config : Config} (room : Room s) {b : Nat} (hb : b < 256) (k j : Nat)
    (hk : j + k = 32) (v : Locals) (hbus : v.addr.bus = UInt8.ofNat b) (t : State)
    (h : AtPlace s config (8 * (32 * b + j)) v t) :
    wp (scanSlots W (List.range' j k) v)
      (fun r u => ∃ w, r = .ok w ∧ AtPlace s config (256 * (b + 1)) w u) E t := by
  induction k generalizing j v t with
  | zero =>
    obtain rfl : j = 32 := by omega
    rw [show 8 * (32 * b + 32) = 256 * (b + 1) by omega] at h
    exact ⟨v, rfl, h⟩
  | succ k ih =>
    have hq : 32 * b + j < 8192 := by omega
    have hn : 8 * (32 * b + j) < 65536 := by omega
    have haddr : { v.addr with slot := UInt8.ofNat j, func := 0 } = place (8 * (32 * b + j)) := by
      rw [place_eq_zero, show (32 * b + j) / 32 = b by omega, show (32 * b + j) % 32 = j by omega]
      simp [hbus, h.offset]
    have hvisited := visited_zero s (32 * b + j)
    have hplaceBus : (place (8 * (32 * b + j))).bus = UInt8.ofNat b := by
      rw [← haddr]
      exact hbus
    rw [List.range'_succ, scanSlots, haddr, h.holds]
    refine wp_seq (visit_spec hn hvisited h.scanned) ?_
    intro r u hpost
    obtain ⟨rfl, hscanned⟩ := hpost
    rw [if_neg (not_not.mpr rfl), held_deviceId hvisited]
    -- the next slot
    have hnext : ∀ v w, v.addr.bus = UInt8.ofNat b →
        AtPlace s config (8 * (32 * b + j) + 8) v w →
        wp (scanSlots W (List.range' (j + 1) k) v)
          (fun r u => ∃ w, r = .ok w ∧ AtPlace s config (256 * (b + 1)) w u) E w := by
      intro v w hvbus hw
      refine ih (j + 1) (by omega) v hvbus w ?_
      rwa [show 8 * (32 * b + (j + 1)) = 8 * (32 * b + j) + 8 by omega]
    have hsingle : ∀ w, ¬ s.Multi (place (8 * (32 * b + j))) →
        Scanned s config (8 * (32 * b + j) + 1) w →
        wp (scanSlots W (List.range' (j + 1) k)
            ⟨.success, place (8 * (32 * b + j)), s.held config (8 * (32 * b + j) + 1)⟩)
          (fun r u => ∃ w, r = .ok w ∧ AtPlace s config (256 * (b + 1)) w u) E w := by
      intro w hmulti hw
      obtain ⟨hrest, hheld⟩ := skip_rest hmulti 7 (by decide) hw
      refine hnext _ w hplaceBus ⟨rfl, ?_, hheld.symm, hrest⟩
      rw [place_eq_zero]
    split
    case isTrue hpresent =>
      refine wp_seq (add_spec room hn ⟨hpresent, hvisited⟩ hscanned) ?_
      intro status w hpost
      obtain ⟨rfl, hadded⟩ := hpost
      rw [if_neg (not_not.mpr rfl), held_headerType hvisited]
      split
      case isTrue hheader =>
        have hmulti := (multi_iff s (32 * b + j)).mpr ⟨hpresent, hheader⟩
        refine wp_seq (scanFuncs_spec room hq hmulti 7 1 (by decide) rfl _
          (place_first (f := 0) (by decide)) w ⟨rfl, by rw [place_eq_zero], rfl, hadded⟩) ?_
        intro r x hpost
        obtain ⟨v, rfl, hslot, hplace⟩ := hpost
        refine hnext v x ?_ hplace
        rw [← hplaceBus, ← hslot, Addr.first]
      case isFalse hheader =>
        exact hsingle w (fun hmulti => hheader ((multi_iff s _).mp hmulti).2) hadded
    case isFalse habsent =>
      refine hsingle u (fun hmulti => habsent ((multi_iff s _).mp hmulti).1) ?_
      exact hscanned.skip fun hlisted => habsent hlisted.1

/-- The loop over the buses. -/
theorem scanBuses_spec {config : Config} (room : Room s) (k b : Nat) (hk : b + k = 256) (v : Locals)
    (t : State) (h : AtPlace s config (256 * b) v t) :
    wp (scanBuses W (List.range' b k) v)
      (fun r u => ∃ w, r = .ok w ∧ AtPlace s config 65536 w u) E t := by
  induction k generalizing b v t with
  | zero =>
    obtain rfl : b = 256 := by omega
    exact ⟨v, rfl, h⟩
  | succ k ih =>
    rw [List.range'_succ, scanBuses, List.range_eq_range']
    have hstart : AtPlace s config (8 * (32 * b + 0))
        { v with addr := { v.addr with bus := UInt8.ofNat b } } t := by
      rw [show 8 * (32 * b + 0) = 256 * b by omega]
      exact ⟨h.status, h.offset, h.holds, h.scanned⟩
    refine wp_seq (scanSlots_spec room (show b < 256 by omega) 32 0 rfl _ rfl t hstart) ?_
    intro r u hpost
    obtain ⟨w, rfl, hplace⟩ := hpost
    exact ih (b + 1) (by omega) w u hplace

/-- **What the scan does**, from an empty list. -/
theorem pciScan_spec (room : Room s) (hempty : s.list.size = 0) (addr : Addr) (config : Config) :
    wp (pciScan W addr config)
      (fun status t => status = .success ∧ Scanned s config 65536 t) E s := by
  unfold pciScan
  rw [wp_bind, wp_modify, wp_bind, wp_modify, List.range_eq_range']
  have hstart : Scanned s config (256 * 0)
      { s with list := { { s.list with first := 0 } with last := 0 } } := by
    refine ⟨?_, hempty, ?_, rfl, fun _ _ _ => rfl⟩
    · rw [State.listed, List.range_zero, List.filter_nil, List.length_nil, devicePtr]
      simp
    · exact ⟨pointer_null 0, pointer_null 0⟩
  refine wp_seq (scanBuses_spec room 256 0 rfl _ _ ⟨rfl, rfl, rfl, hstart⟩) ?_
  intro r u hpost
  obtain ⟨w, rfl, hplace⟩ := hpost
  exact ⟨hplace.status, hplace.scanned⟩

end Cumulonimbus.Pci
