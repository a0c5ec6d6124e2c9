import Cumulonimbus.ByteMemory
import Cumulonimbus.SerialLine

/-!
# The transmitter in memory

The output side of `sio.c` as it works on memory.  `_outlast` and `_outnext` are addresses, and
`_sio_writec` stores wherever `_outlast` points: `_outbuffer` is followed by what the linker has
put there, which may be the module's own variables.

As long as every character goes into the array, memory shows a transmitter whose buffer is a
memory of its own, and that one never stalls.  A character behind the array can turn `_sending`
off while the transmit interrupt is enabled and characters wait (`stray_store_stalls`).
-/

namespace Cumulonimbus.SerialMemory

open ByteMemory

/-! ## The variables -/

/-- The variables of the output side. -/
inductive Var
  | outbuffer | outlast | outnext | outcount | sending | ier
  deriving DecidableEq

def Var.size : Var → Nat
  | .outbuffer => bufSize
  | .ier => 1
  | .outlast | .outnext | .outcount | .sending => 4

/-- Where the linker puts the variables, and what the compiler makes of `*_outlast++ = ch`: the
language leaves open whether the pointer or the character is stored first. -/
structure Layout where
  addr : Var → UInt32
  pointerFirst : Bool

/-- The variables are apart from each other, and there is an address behind the array. -/
structure Layout.Sound (L : Layout) : Prop where
  apart : ∀ v w, v ≠ w → Apart (L.addr v) v.size (L.addr w) w.size
  fits : (L.addr .outbuffer).toNat + bufSize < 2 ^ 32

/-- Memory, the bytes handed to `UA4_TXD` so far, and the contents of `UA4_IER`. -/
structure Port where
  mem : Memory
  txd : List UInt8
  ierReg : UInt8

section Code

variable (L : Layout)

def Port.load (r : Port) (v : Var) : UInt32 := load32 r.mem (L.addr v)

def Port.store (r : Port) (v : Var) (x : UInt32) : Port :=
  { r with mem := store32 r.mem (L.addr v) x }

def Port.ier (r : Port) : UInt8 := r.mem (L.addr .ier)

def Port.setIer (r : Port) (b : UInt8) : Port := { r with mem := store8 r.mem (L.addr .ier) b }

/-- `&_outbuffer[i]` -/
def Layout.place (i : Nat) : UInt32 := L.addr .outbuffer + UInt32.ofNat i

/-! ## The routines -/

/-- The output variables as `_sio_init` leaves them. -/
def sioInit (m : Memory) : Port :=
  let clear : Memory := fun x => if Within (L.addr .outbuffer) bufSize x then 0 else m x
  let r : Port := ⟨clear, [], 0⟩
  let r := r.store L .outnext (L.addr .outbuffer)
  let r := r.store L .outlast (L.addr .outbuffer)
  let r := r.store L .outcount 0
  let r := r.store L .sending 0
  r.setIer L 0

/-- Write the shadow register through to the device if it has changed. -/
def flushIer (old : UInt8) (r : Port) : Port :=
  if old ≠ r.ier L then { r with ierReg := r.ier L } else r

def sioEnable (which : UInt8) (r : Port) : Port :=
  let old := r.ier L
  let r := if which &&& sioTx ≠ 0 then r.setIer L (r.ier L ||| ua4IerTxIntEnable) else r
  let r := if which &&& sioRx ≠ 0 then r.setIer L (r.ier L ||| ua4IerRxIntEnable) else r
  flushIer L old r

def sioDisable (which : UInt8) (r : Port) : Port :=
  let old := r.ier L
  let r := if which &&& sioTx ≠ 0 then r.setIer L (r.ier L &&& ~~~ua4IerTxIntEnable) else r
  let r := if which &&& sioRx ≠ 0 then r.setIer L (r.ier L &&& ~~~ua4IerRxIntEnable) else r
  flushIer L old r

/-- `*_outlast++ = ch` -/
def storeOut (ch : UInt8) (r : Port) : Port :=
  let p := r.load L .outlast
  if L.pointerFirst then
    { r with mem := store8 (store32 r.mem (L.addr .outlast) (p + 1)) p ch }
  else { r with mem := store32 (store8 r.mem p ch) (L.addr .outlast) (p + 1) }

/-- `_sio_writec` once line feeds have been mapped. -/
def sioPut (ch : UInt8) (r : Port) : Port :=
  if r.load L .sending ≠ 0 then
    let r := storeOut L ch r
    r.store L .outcount (r.load L .outcount + 1)
  else
    let r := r.store L .sending 1
    sioEnable L sioTx { r with txd := r.txd ++ [ch] }

/-- Write one character, a line feed as carriage return and line feed. -/
def sioWritec (ch : UInt32) (r : Port) : Port :=
  sioPut L ch.toUInt8 (if ch = 10 then sioPut L 13 r else r)

/-- The loop of `_sio_writes`, for at most as many characters as the first argument says; the
second counts those copied so far. -/
def sioWritesLoop (buffer : Nat → UInt8) : Nat → Nat → Port → Nat × Port
  | 0, copied, r => (copied, r)
  | n + 1, copied, r =>
    if r.load L .outcount < bufSize.toUInt32 then
      let r := storeOut L (buffer copied) r
      let r := if L.place bufSize ≤ r.load L .outlast then
        r.store L .outlast (L.addr .outbuffer) else r
      let r := r.store L .outcount (r.load L .outcount + 1)
      sioWritesLoop buffer n (copied + 1) r
    else (copied, r)

def sioWrites (buffer : Nat → UInt8) (length : Int32) (r : Port) : Nat × Port :=
  let copied : Nat := if r.load L .sending ≠ 0 then 0 else 1
  let (copied, r) := sioWritesLoop L buffer (length.toInt - copied).toNat copied r
  (copied, if r.load L .sending ≠ 0 then r
    else sioWritec L (buffer 0).toInt8.toInt32.toUInt32 r)

/-- The branch of `_isr_sio` for a transmitter that is ready for another character. -/
def sioSent (r : Port) : Port :=
  if r.load L .sending ≠ 0 ∧ 0 < r.load L .outcount then
    let r := { r with txd := r.txd ++ [r.mem (r.load L .outnext)] }
    let r := r.store L .outnext (r.load L .outnext + 1)
    let r := if L.place bufSize ≤ r.load L .outnext then
      r.store L .outnext (L.addr .outbuffer) else r
    r.store L .outcount (r.load L .outcount - 1)
  else
    let r := r.store L .outcount 0
    let r := r.store L .outnext (L.addr .outbuffer)
    let r := r.store L .outlast (L.addr .outbuffer)
    let r := r.store L .sending 0
    sioDisable L sioTx r

def call (r : Port) : LineCall → Port
  | .writec ch => sioWritec L ch r
  | .writes buffer length => (sioWrites L buffer length r).2
  | .enableRx => sioEnable L sioRx r
  | .txInterrupt => sioSent L r

/-- The transmitter after some calls, whatever was in memory before `_sio_init`. -/
def portAfter (m : Memory) (calls : List LineCall) : Port := calls.foldl (call L) (sioInit L m)

/-- One call more. -/
theorem portAfter_concat (m : Memory) (calls : List LineCall) (c : LineCall) :
    portAfter L m (calls ++ [c]) = call L (portAfter L m calls) c :=
  List.foldl_append

/-- How far `_outlast` is behind the start of the array. -/
def Port.filled (r : Port) : Nat := (r.load L .outlast - L.addr .outbuffer).toNat

/-- A busy transmitter has room in the array: for the character, of which a line feed takes two
bytes, or for the first character of a block that is going to be stored. -/
def Room (r : Port) : LineCall → Prop
  | .writec ch => r.load L .sending ≠ 0 → r.filled L + (if ch = 10 then 2 else 1) ≤ bufSize
  | .writes _ length => r.load L .sending ≠ 0 → 0 < length →
      r.load L .outcount < bufSize.toUInt32 → r.filled L < bufSize
  | .enableRx | .txInterrupt => True

/-- What is asked of the transmitter between calls: the registers agree, the flag is set exactly
when the transmit interrupt is enabled, and what is queued has an interrupt to come. -/
structure NeverStalls (r : Port) : Prop where
  device : r.ier L = r.ierReg
  sending : r.load L .sending = 1 ↔ TxEnabled (r.ier L)
  idle : r.load L .sending = 0 → r.load L .outcount = 0
  queued : r.load L .outcount ≠ 0 → TxEnabled r.ierReg

end Code

/-! ## Memory shows a transmitter -/

variable {L : Layout} {r : Port} {s s' : Sio} {i n : Nat} {ch : UInt8}

/-- The bytes of a variable show what it is in `s`. -/
def Holds (L : Layout) (m : Memory) (s : Sio) : Var → Prop
  | .outbuffer => ∀ i < bufSize, m (L.place i) = s.outbuffer i
  | .outlast => load32 m (L.addr .outlast) = L.place s.outlast
  | .outnext => load32 m (L.addr .outnext) = L.place s.outnext
  | .outcount => load32 m (L.addr .outcount) = s.outcount
  | .sending => load32 m (L.addr .sending) = if s.sending then 1 else 0
  | .ier => m (L.addr .ier) = s.ier

structure Shows (L : Layout) (r : Port) (s : Sio) : Prop where
  vars : ∀ v, Holds L r.mem s v
  txd : r.txd = s.txd
  ierReg : r.ierReg = s.ierReg

/-- A variable depends on its own bytes. -/
theorem Holds.congr {m m' : Memory} {v : Var} (h : Holds L m s v)
    (same : ∀ x, Within (L.addr v) v.size x → m' x = m x) : Holds L m' s v := by
  cases v with
  | outbuffer =>
    intro i hi
    have hkept : m' (L.place i) = m (L.place i) := same _ (within_offset hi (by decide))
    exact hkept.trans (h i hi)
  | outlast => exact (load32_congr same).trans h
  | outnext => exact (load32_congr same).trans h
  | outcount => exact (load32_congr same).trans h
  | sending => exact (load32_congr same).trans h
  | ier => exact (same _ (within_self (by decide))).trans h

/-- A store into one variable. -/
theorem Shows.assign (h : Shows L r s) (v : Var) {m : Memory}
    (keeps : ∀ w, w ≠ v → ∀ x, Within (L.addr w) w.size x → m x = r.mem x)
    (same : ∀ w, w ≠ v → Holds L m s w → Holds L m s' w) (new : Holds L m s' v)
    (txd : s'.txd = s.txd) (ierReg : s'.ierReg = s.ierReg) : Shows L { r with mem := m } s' := by
  refine ⟨fun w => ?_, h.txd.trans txd.symm, h.ierReg.trans ierReg.symm⟩
  by_cases hw : w = v
  · exact hw ▸ new
  · exact same w hw ((h.vars w).congr (keeps w hw))

section Stores

variable (sound : L.Sound)

include sound

/-- The array lies in one piece: the address of a place does not wrap around. -/
theorem Layout.Sound.place_toNat (hi : i ≤ bufSize) :
    (L.place i).toNat = (L.addr .outbuffer).toNat + i := by
  have hfits := sound.fits
  have hsize : bufSize = 2048 := rfl
  rw [Layout.place, UInt32.toNat_add, UInt32.toNat_ofNat']
  omega

/-- Different places have different addresses. -/
theorem Layout.Sound.place_inj {j : Nat} (hi : i ≤ bufSize) (hj : j ≤ bufSize)
    (heq : L.place i = L.place j) : i = j := by
  have hnat := congrArg UInt32.toNat heq
  rw [sound.place_toNat hi, sound.place_toNat hj] at hnat
  omega

/-- The test for the end of the array. -/
theorem Layout.Sound.end_le_place (hi : i ≤ bufSize) :
    L.place bufSize ≤ L.place i ↔ bufSize ≤ i := by
  rw [UInt32.le_iff_toNat_le, sound.place_toNat hi, sound.place_toNat (Nat.le_refl _)]
  omega

/-- A store into one variable leaves the bytes of the others. -/
theorem Layout.Sound.store_keeps {v w : Var} (hv : v.size = 4) (hw : w ≠ v) (x : UInt32) :
    ∀ y, Within (L.addr w) w.size y → store32 r.mem (L.addr v) x y = r.mem y := by
  intro y hy
  have hapart := sound.apart w v hw y hy
  rw [hv] at hapart
  exact store32_apply hapart

/-- A store into one of the variables that are words. -/
theorem Shows.setWord (h : Shows L r s) {v : Var} (hv : v.size = 4) {x : UInt32}
    (same : ∀ w, w ≠ v → ∀ m, Holds L m s w → Holds L m s' w)
    (new : ∀ m, load32 m (L.addr v) = x → Holds L m s' v)
    (txd : s'.txd = s.txd) (ierReg : s'.ierReg = s.ierReg) : Shows L (r.store L v x) s' :=
  h.assign v (fun _ hw => sound.store_keeps hv hw _) (fun w hw => same w hw _)
    (new _ (load32_store32 ..)) txd ierReg

/-- Storing a pointer to a place of the array. -/
theorem Shows.setLast (h : Shows L r s) (n : Nat) :
    Shows L (r.store L .outlast (L.place n)) { s with outlast := n } :=
  h.setWord sound rfl
    (fun w hw _ hold => by cases w <;> first | exact hold | exact absurd rfl hw)
    (fun _ hload => hload) rfl rfl

/-- The same for the other pointer. -/
theorem Shows.setNext (h : Shows L r s) (n : Nat) :
    Shows L (r.store L .outnext (L.place n)) { s with outnext := n } :=
  h.setWord sound rfl
    (fun w hw _ hold => by cases w <;> first | exact hold | exact absurd rfl hw)
    (fun _ hload => hload) rfl rfl

/-- Storing the counter. -/
theorem Shows.setCount (h : Shows L r s) (x : UInt32) :
    Shows L (r.store L .outcount x) { s with outcount := x } :=
  h.setWord sound rfl
    (fun w hw _ hold => by cases w <;> first | exact hold | exact absurd rfl hw)
    (fun _ hload => hload) rfl rfl

/-- Storing the flag, which the program keeps as 0 or 1. -/
theorem Shows.setSending (h : Shows L r s) (b : Bool) :
    Shows L (r.store L .sending (if b then 1 else 0)) { s with sending := b } :=
  h.setWord sound rfl
    (fun w hw _ hold => by cases w <;> first | exact hold | exact absurd rfl hw)
    (fun _ hload => hload) rfl rfl

/-- Storing the shadow of the device's register. -/
theorem Shows.setShadow (h : Shows L r s) (b : UInt8) :
    Shows L (r.setIer L b) { s with ier := b } := by
  refine h.assign .ier (fun w hw y hy => store8_apply ?_)
    (fun w hw hold => by cases w <;> first | exact hold | exact absurd rfl hw)
    (store8_self ..) rfl rfl
  rintro rfl
  exact sound.apart w .ier hw _ hy (within_self (by decide))

/-- A store into the array. -/
theorem Shows.setPlace (h : Shows L r s) (hi : i < bufSize) (ch : UInt8) :
    Shows L { r with mem := store8 r.mem (L.place i) ch }
      { s with outbuffer := Function.update s.outbuffer i ch } := by
  refine h.assign .outbuffer (fun w hw y hy => store8_apply ?_)
    (fun w hw hold => by cases w <;> first | exact hold | exact absurd rfl hw) ?_ rfl rfl
  · rintro rfl
    exact sound.apart w .outbuffer hw _ hy (within_offset hi (by decide))
  · intro j hj
    by_cases hij : j = i
    · rw [hij, store8_self]
      exact (Function.update_self i ch s.outbuffer).symm
    · rw [store8_apply fun heq => hij (sound.place_inj hj.le hi.le heq)]
      exact (h.vars .outbuffer j hj).trans (Function.update_of_ne hij ch s.outbuffer).symm

end Stores

/-! ## The routines on memory -/

/-- The program tests the flag against 0. -/
theorem Shows.busy_iff (h : Shows L r s) : r.load L .sending ≠ 0 ↔ s.sending = true := by
  rw [Port.load, h.vars .sending]
  cases s.sending with
  | true => simp
  | false => simp

/-- The distance to `_outlast` is the place that it points to. -/
theorem Shows.filled_eq (h : Shows L r s) (hlast : s.outlast ≤ bufSize) :
    r.filled L = s.outlast := by
  have hsize : bufSize = 2048 := rfl
  have hload : r.load L .outlast = L.place s.outlast := h.vars .outlast
  rw [Port.filled, hload, Layout.place, offset_toNat (by omega)]

/-- Incrementing a pointer goes on to the next place. -/
theorem place_succ (i : Nat) : L.place i + 1 = L.place (i + 1) := by
  rw [Layout.place, Layout.place, UInt32.ofNat_add, UInt32.add_assoc]
  rfl

/-- The array starts at its first place. -/
theorem place_zero : L.place 0 = L.addr .outbuffer := UInt32.add_zero _

section Routines

variable (sound : L.Sound)

include sound

/-- Inside the array it does not matter which of the two stores comes first. -/
theorem Shows.storeOut (h : Shows L r s) (room : s.outlast < bufSize) (ch : UInt8) :
    Shows L (storeOut L ch r) { s with
      outbuffer := Function.update s.outbuffer s.outlast ch
      outlast := s.outlast + 1 } := by
  have hlast : r.load L .outlast = L.place s.outlast := h.vars .outlast
  rw [SerialMemory.storeOut, hlast, place_succ]
  split
  · exact (h.setLast sound (s.outlast + 1)).setPlace sound room ch
  · exact (h.setPlace sound room ch).setLast sound (s.outlast + 1)

/-- The counter is loaded, changed and stored. -/
theorem Shows.mapCount (h : Shows L r s) (f : UInt32 → UInt32) :
    Shows L (r.store L .outcount (f (r.load L .outcount))) { s with outcount := f s.outcount } := by
  have hcount : r.load L .outcount = s.outcount := h.vars .outcount
  rw [hcount]
  exact h.setCount sound (f s.outcount)

/-- `++_outnext` -/
theorem Shows.advanceNext (h : Shows L r s) :
    Shows L (r.store L .outnext (r.load L .outnext + 1)) { s with outnext := s.outnext + 1 } := by
  have hnext : r.load L .outnext = L.place s.outnext := h.vars .outnext
  rw [hnext, place_succ]
  exact h.setNext sound (s.outnext + 1)

/-- Storing the shadow register and writing it through. -/
theorem Shows.setIer (h : Shows L r s) (b : UInt8) :
    Shows L (flushIer L (r.ier L) (r.setIer L b)) (s.setIer b) := by
  have hold : r.ier L = s.ier := h.vars .ier
  have hnew : (r.setIer L b).ier L = b := store8_self ..
  have hset := h.setShadow sound b
  rw [flushIer, hnew, hold, Sio.setIer]
  by_cases hb : s.ier = b
  · rw [if_neg (not_not.mpr hb), if_neg (not_not.mpr hb)]
    exact hset
  · rw [if_pos hb, if_pos hb]
    exact ⟨hset.vars, hset.txd, rfl⟩

/-- Turning the transmit interrupt on. -/
theorem Shows.enableTx (h : Shows L r s) :
    Shows L (sioEnable L sioTx r) (Cumulonimbus.sioEnable s sioTx) := by
  have hset := h.setIer sound (r.ier L ||| ua4IerTxIntEnable)
  have hold : r.ier L = s.ier := h.vars .ier
  rw [sioEnable_tx, UInt8.or_zero, ← hold]
  exact hset

/-- Turning the receive interrupt on. -/
theorem Shows.enableRx (h : Shows L r s) :
    Shows L (sioEnable L sioRx r) (Cumulonimbus.sioEnable s sioRx) := by
  have hset := h.setIer sound (r.ier L ||| ua4IerRxIntEnable)
  have hold : r.ier L = s.ier := h.vars .ier
  rw [sioEnable_rx, UInt8.or_zero, ← hold]
  exact hset

/-- Turning the transmit interrupt off. -/
theorem Shows.disableTx (h : Shows L r s) :
    Shows L (sioDisable L sioTx r) (Cumulonimbus.sioDisable s sioTx) := by
  have hset := h.setIer sound (r.ier L &&& ~~~ua4IerTxIntEnable)
  have hold : r.ier L = s.ier := h.vars .ier
  have hones (b : UInt8) : b &&& 0xff = b := UInt8.and_neg_one
  rw [sioDisable_tx, hones, ← hold]
  exact hset

/-- An idle transmitter sends the character; nothing goes into the array. -/
theorem Shows.put_idle (h : Shows L r s) (idle : s.sending = false) (ch : UInt8) :
    Shows L (sioPut L ch r) (Cumulonimbus.sioPut s ch) := by
  have hidle : ¬ r.load L .sending ≠ 0 := by
    rw [h.busy_iff, idle]
    exact Bool.false_ne_true
  have hset := h.setSending sound true
  have hsent : Shows L { r.store L .sending 1 with txd := r.txd ++ [ch] }
      { s with sending := true, txd := s.txd ++ [ch] } :=
    ⟨hset.vars, congrArg (· ++ [ch]) h.txd, hset.ierReg⟩
  rw [sioPut, if_neg hidle, Cumulonimbus.sioPut, idle, if_neg Bool.false_ne_true]
  exact hsent.enableTx sound

/-- A busy one stores it, for which there has to be room. -/
theorem Shows.put_busy (h : Shows L r s) (busy : s.sending = true) (room : s.outlast < bufSize)
    (ch : UInt8) : Shows L (sioPut L ch r) (Cumulonimbus.sioPut s ch) := by
  rw [sioPut, if_pos (h.busy_iff.mpr busy), Cumulonimbus.sioPut, if_pos busy]
  exact (h.storeOut sound room ch).mapCount sound (· + 1)

/-- A pointer to place `i` wraps around at the end of the array. -/
theorem Layout.Sound.wrap {v : Var} (hload : r.load L v = L.place i) (hi : i ≤ bufSize) :
    (if L.place bufSize ≤ r.load L v then r.store L v (L.addr .outbuffer) else r) =
      if bufSize ≤ i then r.store L v (L.place 0) else r := by
  simp only [hload, sound.end_le_place hi, place_zero]

/-- The test behind a store through `_outlast`. -/
theorem Shows.wrapLast (h : Shows L r s) (hlast : s.outlast ≤ bufSize) :
    Shows L (if L.place bufSize ≤ r.load L .outlast then
        r.store L .outlast (L.addr .outbuffer) else r)
      { s with outlast := if bufSize ≤ s.outlast then 0 else s.outlast } := by
  rw [sound.wrap (h.vars .outlast) hlast]
  split
  · exact h.setLast sound 0
  · exact h

/-- The test behind a read through `_outnext`. -/
theorem Shows.wrapNext (h : Shows L r s) (hnext : s.outnext ≤ bufSize) :
    Shows L (if L.place bufSize ≤ r.load L .outnext then
        r.store L .outnext (L.addr .outbuffer) else r)
      { s with outnext := if bufSize ≤ s.outnext then 0 else s.outnext } := by
  rw [sound.wrap (h.vars .outnext) hnext]
  split
  · exact h.setNext sound 0
  · exact h

/-- A character, if its bytes have room. -/
theorem Shows.writec (h : Shows L r s) (ch : UInt32)
    (room : s.outlast + ((if s.sending then 1 else 0) + if ch = 10 then 1 else 0) ≤ bufSize) :
    Shows L (sioWritec L ch r) (Cumulonimbus.sioWritec s ch) := by
  rw [sioWritec, Cumulonimbus.sioWritec]
  cases hsending : s.sending with
  | false =>
    rw [hsending] at room
    by_cases hlf : ch = 10
    · rw [if_pos hlf] at room
      rw [if_pos hlf, if_pos hlf]
      have hfirst := h.put_idle sound hsending 13
      have hbusy : (Cumulonimbus.sioPut s 13).sending = true := by
        rw [Cumulonimbus.sioPut, hsending]
        rfl
      have hlast : (Cumulonimbus.sioPut s 13).outlast = s.outlast := by
        rw [Cumulonimbus.sioPut, hsending]
        rfl
      exact hfirst.put_busy sound hbusy (hlast ▸ Nat.lt_of_succ_le (by simpa using room)) _
    · rw [if_neg hlf, if_neg hlf]
      exact h.put_idle sound hsending _
  | true =>
    rw [hsending, if_pos rfl] at room
    by_cases hlf : ch = 10
    · rw [if_pos hlf] at room
      rw [if_pos hlf, if_pos hlf]
      have hfirst := h.put_busy sound hsending (by omega) 13
      have hbusy : (Cumulonimbus.sioPut s 13).sending = true := by
        rw [Cumulonimbus.sioPut, if_pos hsending, hsending]
      have hlast : (Cumulonimbus.sioPut s 13).outlast = s.outlast + 1 := by
        rw [Cumulonimbus.sioPut, if_pos hsending]
      exact hfirst.put_busy sound hbusy (by omega) _
    · rw [if_neg hlf] at room
      rw [if_neg hlf, if_neg hlf]
      exact h.put_busy sound hsending (by omega) _

/-- The loop of `_sio_writes` wraps `_outlast` around, so one place is enough. -/
theorem Shows.writesLoop (buffer : Nat → UInt8) (n copied : Nat) (h : Shows L r s)
    (room : s.outlast < bufSize) :
    (sioWritesLoop L buffer n copied r).1 = (Cumulonimbus.sioWritesLoop buffer n copied s).1 ∧
      Shows L (sioWritesLoop L buffer n copied r).2
        (Cumulonimbus.sioWritesLoop buffer n copied s).2 ∧
      (Cumulonimbus.sioWritesLoop buffer n copied s).2.outlast < bufSize := by
  induction n generalizing copied r s with
  | zero => exact ⟨rfl, h, room⟩
  | succ n ih =>
    have hcount : r.load L .outcount = s.outcount := h.vars .outcount
    rw [sioWritesLoop, Cumulonimbus.sioWritesLoop, hcount]
    by_cases hroom : s.outcount < bufSize.toUInt32
    · rw [if_pos hroom, if_pos hroom]
      have hwrapped := (h.storeOut sound room (buffer copied)).wrapLast sound room
      refine ih (copied + 1) (hwrapped.mapCount sound (· + 1)) ?_
      show (if bufSize ≤ s.outlast + 1 then 0 else s.outlast + 1) < bufSize
      split
      · exact Nat.zero_lt_of_lt room
      · omega
    · rw [if_neg hroom, if_neg hroom]
      exact ⟨rfl, h, room⟩

/-- A block.  For an idle transmitter, whose `_outlast` is at the start, there is room anyway. -/
theorem Shows.writes (h : Shows L r s) (buffer : Nat → UInt8) (length : Int32)
    (rested : s.sending = false → s.outlast = 0)
    (room : s.sending = true → 0 < length → s.outcount < bufSize.toUInt32 →
      s.outlast < bufSize) :
    Shows L (sioWrites L buffer length r).2 (Cumulonimbus.sioWrites buffer length s).2 := by
  have hsize : bufSize = 2048 := rfl
  -- without room nothing is stored
  have hfull (n copied : Nat) (hn : s.outlast < bufSize ∨ n = 0 ∨
      ¬ s.outcount < bufSize.toUInt32) :
      Shows L (sioWritesLoop L buffer n copied r).2
        (Cumulonimbus.sioWritesLoop buffer n copied s).2 ∧
      (s.outlast < bufSize →
        (Cumulonimbus.sioWritesLoop buffer n copied s).2.outlast < bufSize) := by
    have hcount : r.load L .outcount = s.outcount := h.vars .outcount
    by_cases hlast : s.outlast < bufSize
    · obtain ⟨-, hshows, hkept⟩ := Shows.writesLoop sound buffer n copied h hlast
      exact ⟨hshows, fun _ => hkept⟩
    · rcases hn with hn | rfl | hn
      · exact absurd hn hlast
      · exact ⟨h, fun hlt => absurd hlt hlast⟩
      · cases n with
        | zero => exact ⟨h, fun hlt => absurd hlt hlast⟩
        | succ n =>
          rw [sioWritesLoop, Cumulonimbus.sioWritesLoop, hcount, if_neg hn, if_neg hn]
          exact ⟨h, fun hlt => absurd hlt hlast⟩
  rw [sioWrites, Cumulonimbus.sioWrites]
  cases hsending : s.sending with
  | true =>
    rw [if_pos (h.busy_iff.mpr hsending), if_pos rfl]
    dsimp only
    obtain ⟨hshows, -⟩ := hfull (length.toInt - (0 : Nat)).toNat 0 (by
      by_cases hlen : 0 < length
      · by_cases hcount : s.outcount < bufSize.toUInt32
        · exact .inl (room hsending hlen hcount)
        · exact .inr (.inr hcount)
      · refine .inr (.inl ?_)
        have hneg : length.toInt ≤ 0 := by
          rw [Int32.lt_iff_toInt_lt] at hlen
          exact Int.not_lt.mp hlen
        omega)
    have hbusy : (Cumulonimbus.sioWritesLoop buffer (length.toInt - (0 : Nat)).toNat 0 s).2.sending
        = true := (sioWritesLoop_keeps buffer _ 0 s).1.trans hsending
    rw [if_pos (hshows.busy_iff.mpr hbusy), if_pos hbusy]
    exact hshows
  | false =>
    have hidle : ¬ r.load L .sending ≠ 0 := by
      rw [h.busy_iff, hsending]
      exact Bool.false_ne_true
    have hlast : s.outlast < bufSize := by
      rw [rested hsending]
      omega
    rw [if_neg hidle, if_neg Bool.false_ne_true]
    dsimp only
    obtain ⟨hshows, hkept⟩ := hfull (length.toInt - (1 : Nat)).toNat 1 (.inl hlast)
    have hstill : (Cumulonimbus.sioWritesLoop buffer (length.toInt - (1 : Nat)).toNat 1 s).2.sending
        = false := (sioWritesLoop_keeps buffer _ 1 s).1.trans hsending
    have hidle' : ¬ (sioWritesLoop L buffer (length.toInt - (1 : Nat)).toNat 1 r).2.load L .sending
        ≠ 0 := by
      rw [hshows.busy_iff, hstill]
      exact Bool.false_ne_true
    rw [if_neg hidle', hstill, if_neg Bool.false_ne_true]
    refine hshows.writec sound _ ?_
    have hroom := hkept hlast
    rw [hstill, if_neg Bool.false_ne_true]
    split <;> omega

/-- **The transmit interrupt** reads within the array and wraps around, so memory shows what it
does. -/
theorem Shows.sent (h : Shows L r s) (hnext : s.outnext < bufSize) :
    Shows L (sioSent L r) (Cumulonimbus.sioSent s) := by
  have hcount : r.load L .outcount = s.outcount := h.vars .outcount
  have hread : r.load L .outnext = L.place s.outnext := h.vars .outnext
  have hmore : r.load L .sending ≠ 0 ∧ 0 < r.load L .outcount ↔
      s.sending = true ∧ 0 < s.outcount := by rw [h.busy_iff, hcount]
  rw [sioSent, Cumulonimbus.sioSent]
  by_cases hwaits : s.sending = true ∧ 0 < s.outcount
  · rw [if_pos (hmore.mpr hwaits), if_pos hwaits]
    have hbyte : r.mem (L.place s.outnext) = s.outbuffer s.outnext := h.vars .outbuffer _ hnext
    have hsent : Shows L { r with txd := r.txd ++ [r.mem (r.load L .outnext)] }
        { s with txd := s.txd ++ [s.outbuffer s.outnext] } := by
      refine ⟨h.vars, ?_, h.ierReg⟩
      rw [h.txd, hread, hbyte]
    exact ((hsent.advanceNext sound).wrapNext sound hnext).mapCount sound (· - 1)
  · rw [if_neg (mt hmore.mp hwaits), if_neg hwaits]
    have hcleared := ((h.setCount sound 0).setNext sound 0).setLast sound 0
    rw [place_zero] at hcleared
    exact (hcleared.setSending sound false).disableTx sound

end Routines

/-! ## The pointers stay inside -/

/-- The pointers are inside the array, or at its end, and at rest they are at the start. -/
structure Fits (s : Sio) : Prop where
  last : s.outlast ≤ bufSize
  next : s.outnext < bufSize
  rested : s.sending = false → s.outlast = 0

/-- A character moves `_outlast` on if the transmitter is busy. -/
theorem sioPut_pointers (s : Sio) (ch : UInt8) :
    (Cumulonimbus.sioPut s ch).outlast = s.outlast + (if s.sending then 1 else 0) ∧
      (Cumulonimbus.sioPut s ch).outnext = s.outnext ∧
      (Cumulonimbus.sioPut s ch).sending = true := by
  rw [Cumulonimbus.sioPut]
  cases hsending : s.sending with
  | false => exact ⟨rfl, rfl, rfl⟩
  | true => exact ⟨rfl, rfl, rfl⟩

/-- A line feed moves it on once more. -/
theorem sioWritec_pointers (s : Sio) (ch : UInt32) :
    (Cumulonimbus.sioWritec s ch).outlast =
        s.outlast + ((if s.sending then 1 else 0) + if ch = 10 then 1 else 0) ∧
      (Cumulonimbus.sioWritec s ch).outnext = s.outnext ∧
      (Cumulonimbus.sioWritec s ch).sending = true := by
  rw [Cumulonimbus.sioWritec]
  obtain ⟨hlast, hnext, hbusy⟩ := sioPut_pointers s 13
  by_cases hlf : ch = 10
  · obtain ⟨hlast', hnext', hbusy'⟩ :=
      sioPut_pointers (Cumulonimbus.sioPut s 13) ch.toUInt8
    rw [if_pos hlf, if_pos hlf, hlast', hlast, hbusy, hnext', hnext, hbusy']
    exact ⟨Nat.add_assoc .., rfl, rfl⟩
  · rw [if_neg hlf, if_neg hlf]
    exact sioPut_pointers s ch.toUInt8

/-- A block wraps around, so it never brings `_outlast` to the end. -/
theorem sioWritesLoop_pointers (buffer : Nat → UInt8) (n copied : Nat) (s : Sio) :
    (Cumulonimbus.sioWritesLoop buffer n copied s).2.outlast ≤ max s.outlast (bufSize - 1) ∧
      (Cumulonimbus.sioWritesLoop buffer n copied s).2.outnext = s.outnext := by
  induction n generalizing copied s with
  | zero => exact ⟨Nat.le_max_left .., rfl⟩
  | succ n ih =>
    rw [Cumulonimbus.sioWritesLoop]
    split
    case isTrue =>
      refine ⟨(ih (copied + 1) _).1.trans ?_, (ih (copied + 1) _).2⟩
      show max (if bufSize ≤ s.outlast + 1 then 0 else s.outlast + 1) (bufSize - 1) ≤ _
      split <;> omega
    case isFalse => exact ⟨Nat.le_max_left .., rfl⟩

/-- What a call leaves, if it has room. -/
theorem Fits.run (fits : Fits s) (c : LineCall)
    (room : ∀ ch, c = .writec ch →
      s.outlast + ((if s.sending then 1 else 0) + if ch = 10 then 1 else 0) ≤ bufSize) :
    Fits (c.run s) := by
  have hsize : bufSize = 2048 := rfl
  cases c with
  | writec ch =>
    obtain ⟨hlast, hnext, hbusy⟩ := sioWritec_pointers s ch
    refine ⟨hlast ▸ room ch rfl, hnext ▸ fits.next, fun hidle => ?_⟩
    exact absurd (hbusy.symm.trans hidle) Bool.false_ne_true.symm
  | writes buffer length =>
    rw [LineCall.run, Cumulonimbus.sioWrites]
    dsimp only
    generalize hcopied : (if s.sending = true then 0 else 1) = copied
    obtain ⟨hlast, hnext⟩ := sioWritesLoop_pointers buffer (length.toInt - (copied : Nat)).toNat
      copied s
    have hsending := (sioWritesLoop_keeps buffer (length.toInt - (copied : Nat)).toNat copied s).1
    have hbound := fits.last
    have hinside := fits.next
    split
    case isTrue hbusy =>
      refine ⟨by omega, hnext ▸ fits.next, fun hidle => ?_⟩
      exact absurd (hbusy.symm.trans hidle) Bool.false_ne_true.symm
    case isFalse hidle =>
      have hrest := fits.rested (by
        rw [← hsending]
        exact Bool.eq_false_iff.mpr hidle)
      obtain ⟨hlast', hnext', hbusy⟩ := sioWritec_pointers
        (Cumulonimbus.sioWritesLoop buffer (length.toInt - (copied : Nat)).toNat copied s).2
        (buffer 0).toInt8.toInt32.toUInt32
      refine ⟨?_, by omega, fun hidle' => ?_⟩
      · rw [hlast', if_neg hidle]
        split <;> omega
      · exact absurd (hbusy.symm.trans hidle') Bool.false_ne_true.symm
  | enableRx => exact ⟨fits.last, fits.next, fits.rested⟩
  | txInterrupt =>
    rw [LineCall.run, Cumulonimbus.sioSent]
    split
    case isTrue hmore =>
      refine ⟨fits.last, ?_, fits.rested⟩
      show (if bufSize ≤ s.outnext + 1 then 0 else s.outnext + 1) < bufSize
      split
      · omega
      · omega
    case isFalse => exact ⟨Nat.zero_le _, Nat.zero_lt_of_lt fits.next, fun _ => rfl⟩

/-! ## Runs -/

/-- The variables that memory shows so far. -/
def Shown (L : Layout) (m : Memory) (s : Sio) (vs : List Var) : Prop := ∀ v ∈ vs, Holds L m s v

/-- The variables that have been stored so far, and one more. -/
theorem Shown.store {m : Memory} {vs : List Var} (h : Shown L m s vs) (sound : L.Sound) {v : Var}
    (hv : v.size = 4) (x : UInt32) (new : Holds L (store32 m (L.addr v) x) s v) :
    Shown L (store32 m (L.addr v) x) s (v :: vs) := by
  intro w hw
  by_cases hwv : w = v
  · exact hwv ▸ new
  · have hmem := (List.mem_cons.mp hw).resolve_left hwv
    exact (h w hmem).congr (sound.store_keeps (r := ⟨m, [], 0⟩) hv hwv x)

/-- **After `_sio_init`** memory shows a transmitter, whatever it held before. -/
theorem sioInit_shows (sound : L.Sound) (m : Memory) :
    Shows L (sioInit L m) Cumulonimbus.sioInit := by
  have hclear : Shown L (fun x => if Within (L.addr .outbuffer) bufSize x then 0 else m x)
      Cumulonimbus.sioInit [.outbuffer] := by
    intro v hv
    obtain rfl := List.mem_singleton.mp hv
    intro i hi
    exact if_pos (within_offset hi (by decide))
  have hstart : ∀ m' v, load32 (store32 m' (L.addr v) (L.addr .outbuffer)) (L.addr v) =
      L.place 0 := fun m' v => (load32_store32 ..).trans place_zero.symm
  have hwords := (((hclear.store sound (v := .outnext) rfl (L.addr .outbuffer)
    (hstart _ _)).store sound (v := .outlast) rfl (L.addr .outbuffer)
    (hstart _ _)).store sound (v := .outcount) rfl 0
    (load32_store32 ..)).store sound (v := .sending) rfl 0 (load32_store32 ..)
  refine ⟨fun v => ?_, rfl, rfl⟩
  by_cases hv : v = .ier
  · subst hv
    exact store8_self ..
  · have hmem : v ∈ [Var.sending, .outcount, .outlast, .outnext, .outbuffer] := by
      cases v <;> first | exact absurd rfl hv | decide
    refine (hwords v hmem).congr fun x hx => store8_apply ?_
    rintro rfl
    exact sound.apart v .ier hv _ hx (within_self (by decide))

/-- **A call with room** does in memory what it does to the transmitter. -/
theorem Shows.call (h : Shows L r s) (sound : L.Sound) (fits : Fits s) (c : LineCall)
    (room : Room L r c) : Shows L (call L r c) (c.run s) ∧ Fits (c.run s) := by
  have hfilled := h.filled_eq fits.last
  cases c with
  | writec ch =>
    have hroom : s.outlast + ((if s.sending then 1 else 0) + if ch = 10 then 1 else 0) ≤
        bufSize := by
      have hsize : bufSize = 2048 := rfl
      cases hsending : s.sending with
      | true =>
        have hfull := room (h.busy_iff.mpr hsending)
        rw [hfilled] at hfull
        rw [if_pos rfl]
        by_cases hlf : ch = 10
        · rw [if_pos hlf] at hfull ⊢
          exact hfull
        · rw [if_neg hlf] at hfull ⊢
          exact hfull
      | false =>
        have hrest := fits.rested hsending
        rw [if_neg Bool.false_ne_true]
        split <;> omega
    exact ⟨h.writec sound ch hroom, fits.run _ fun ch' heq => by
      obtain rfl := LineCall.writec.inj heq
      exact hroom⟩
  | writes buffer length =>
    refine ⟨h.writes sound buffer length fits.rested fun hbusy hlen hcount => ?_,
      fits.run _ fun _ heq => nomatch heq⟩
    rw [← hfilled]
    refine room (h.busy_iff.mpr hbusy) hlen ?_
    rw [show r.load L .outcount = s.outcount from h.vars .outcount]
    exact hcount
  | enableRx => exact ⟨h.enableRx sound, fits.run _ fun _ heq => nomatch heq⟩
  | txInterrupt => exact ⟨h.sent sound fits.next, fits.run _ fun _ heq => nomatch heq⟩

/-- A run of calls that have room. -/
def Roomy (L : Layout) : Port → List LineCall → Prop
  | _, [] => True
  | r, c :: calls => Room L r c ∧ Roomy L (call L r c) calls

/-- **As long as there is room** memory shows the transmitter, by induction on the calls. -/
theorem Roomy.shows (sound : L.Sound) {calls rest : List LineCall} (h : Shows L r s)
    (fits : Fits s) (roomy : Roomy L r (calls ++ rest)) :
    Shows L (calls.foldl (call L) r) (calls.foldl LineCall.run s) := by
  induction calls generalizing r s with
  | nil => exact h
  | cons c calls ih =>
    obtain ⟨hshows, hfits⟩ := h.call sound fits c roomy.1
    exact ih hshows hfits roomy.2

/-- A transmitter that memory shows does not stall, if it is live. -/
theorem Shows.neverStalls (h : Shows L r s) (live : s.Live) : NeverStalls L r := by
  have hier : r.ier L = s.ier := h.vars .ier
  have hcount : r.load L .outcount = s.outcount := h.vars .outcount
  have hsending : r.load L .sending = 1 ↔ s.sending = true := by
    rw [Port.load, h.vars .sending]
    cases s.sending <;> simp
  have hidle : r.load L .sending = 0 → s.sending = false := by
    intro hzero
    exact Bool.eq_false_iff.mpr fun hbusy => h.busy_iff.mpr hbusy hzero
  refine ⟨?_, ?_, ?_, ?_⟩
  · rw [hier, h.ierReg, live.device]
  · rw [hsending, hier]
    exact live.sending
  · intro hzero
    rw [hcount]
    exact live.idle (hidle hzero)
  · intro hqueued
    rw [hcount] at hqueued
    rw [h.ierReg, live.device, ← live.sending]
    by_contra hoff
    exact hqueued (live.idle (Bool.eq_false_iff.mpr hoff))

/-- **The transmitter never stalls** as long as every character goes into the array: in a run of
calls that have room, memory is as it should be after each of them. -/
theorem transmitter_never_stalls (sound : L.Sound) (m : Memory) (calls rest : List LineCall)
    (roomy : Roomy L (sioInit L m) (calls ++ rest)) : NeverStalls L (portAfter L m calls) :=
  (roomy.shows sound (sioInit_shows sound m)
    ⟨Nat.zero_le _, by decide, fun _ => rfl⟩).neverStalls (lineAfter_live calls)

/-! ## A character behind the array -/

/-- The distances of the variables from the array if they lie as they are declared. -/
def Var.offset : Var → Nat
  | .outbuffer => 0
  | .outlast => 2048
  | .outnext => 2052
  | .outcount => 2056
  | .sending => 2060
  | .ier => 2064

/-- The variables in the order of their declarations, and a compiler that stores the pointer
first. -/
def declared : Layout where
  addr v := 0x100000 + UInt32.ofNat v.offset
  pointerFirst := true

/-- The variables one behind the other, in the order of their declarations, are apart. -/
theorem declared_sound : declared.Sound := by
  refine ⟨fun v w hne => ?_, by decide⟩
  have horder : v.offset + v.size ≤ w.offset ∨ w.offset + w.size ≤ v.offset := by
    cases v <;> cases w <;> first | exact absurd rfl hne | decide
  have hfits : v.offset + v.size ≤ 2 ^ 32 ∧ w.offset + w.size ≤ 2 ^ 32 := by
    cases v <;> cases w <;> decide
  rcases horder with horder | horder
  · exact apart_parts horder hfits.2
  · exact (apart_parts horder hfits.1).symm

instance decidableRoom (L : Layout) (r : Port) : (c : LineCall) → Decidable (Room L r c)
  | .writec ch => inferInstanceAs (Decidable (_ → r.filled L + (if ch = 10 then 2 else 1) ≤ _))
  | .writes _ length => inferInstanceAs (Decidable (_ → 0 < length → _ → _))
  | .enableRx => inferInstanceAs (Decidable True)
  | .txInterrupt => inferInstanceAs (Decidable True)

instance decidableRoomy (L : Layout) :
    (r : Port) → (calls : List LineCall) → Decidable (Roomy L r calls)
  | _, [] => inferInstanceAs (Decidable True)
  | r, c :: calls =>
    have := decidableRoomy L (call L r c) calls
    inferInstanceAs (Decidable (Room L r c ∧ Roomy L (call L r c) calls))

/-- Characters, blocks and interrupts, on memory that held something else before. -/
def someCalls : List LineCall :=
  [.writec 72, .writec 10, .txInterrupt, .writes (fun _ => 65) 3, .enableRx, .txInterrupt]

theorem transmitter_never_stalls_some :
    (portAfter declared (fun _ => 0xcc) someCalls).load declared .outcount = 3 ∧
      NeverStalls declared (portAfter declared (fun _ => 0xcc) someCalls) := by
  refine ⟨by decide +kernel, transmitter_never_stalls declared_sound _ someCalls [] ?_⟩
  decide +kernel

/-- As long as no interrupt comes, every character after the first waits. -/
theorem lineAfter_fill (n : Nat) :
    (lineAfter (List.replicate (n + 1) (.writec 97))).sending = true ∧
      (lineAfter (List.replicate (n + 1) (.writec 97))).outlast = n ∧
      (lineAfter (List.replicate (n + 1) (.writec 97))).outcount = UInt32.ofNat n ∧
      (lineAfter (List.replicate (n + 1) (.writec 97))).ier = ua4IerTxIntEnable := by
  induction n with
  | zero => exact ⟨rfl, rfl, rfl, by decide⟩
  | succ n ih =>
    obtain ⟨hbusy, hlast, hcount, hier⟩ := ih
    have hstep : lineAfter (List.replicate (n + 1 + 1) (.writec 97)) =
        (LineCall.writec 97).run (lineAfter (List.replicate (n + 1) (.writec 97))) := by
      rw [List.replicate_succ', lineAfter_concat]
    rw [hstep]
    generalize lineAfter (List.replicate (n + 1) (.writec 97)) = s at hbusy hlast hcount hier
    have hput : (LineCall.writec 97).run s = { s with
        outbuffer := Function.update s.outbuffer s.outlast 97
        outlast := s.outlast + 1
        outcount := s.outcount + 1 } := by
      show Cumulonimbus.sioPut s 97 = _
      rw [Cumulonimbus.sioPut, if_pos hbusy]
    rw [hput]
    exact ⟨hbusy, congrArg (· + 1) hlast, by rw [hcount, UInt32.ofNat_add]; rfl, hier⟩

/-- The array filled to its end, a character at a time: memory still shows the transmitter. -/
theorem portAfter_fill (sound : L.Sound) (m : Memory) {n : Nat} (hn : n ≤ bufSize) :
    Shows L (portAfter L m (List.replicate (n + 1) (.writec 97)))
        (lineAfter (List.replicate (n + 1) (.writec 97))) ∧
      Fits (lineAfter (List.replicate (n + 1) (.writec 97))) := by
  induction n with
  | zero =>
    have hstart := sioInit_shows sound m
    have hroom : Room L (sioInit L m) (.writec 97) := fun hbusy =>
      absurd (hstart.busy_iff.mp hbusy) Bool.false_ne_true
    rw [Nat.zero_add, List.replicate_one, portAfter, lineAfter, List.foldl_cons, List.foldl_cons,
      List.foldl_nil, List.foldl_nil]
    exact hstart.call sound ⟨Nat.zero_le _, by decide, fun _ => rfl⟩ _ hroom
  | succ n ih =>
    obtain ⟨hshows, hfits⟩ := ih (by omega)
    obtain ⟨-, hlast, -, -⟩ := lineAfter_fill n
    have hroom : Room L (portAfter L m (List.replicate (n + 1) (.writec 97))) (.writec 97) := by
      intro _
      rw [hshows.filled_eq hfits.last, hlast]
      exact hn
    rw [List.replicate_succ', portAfter_concat, lineAfter_concat]
    exact hshows.call sound hfits _ hroom

/-- 2049 characters fill the array; the next one goes into the lowest byte of `_outlast`, which
then points to `_sending`, and the last one into `_sending`. -/
def overfull : List LineCall :=
  List.replicate (bufSize + 1) (.writec 97) ++ [.writec 0x0c, .writec 0]

/-- A character for a busy transmitter whose `_outlast` points to the lowest byte of a variable,
where the pointer is stored first: the variable has the character in it, and the count is one
more. -/
theorem writec_stray (sound : L.Sound) (hfirst : L.pointerFirst = true) (ch : UInt32)
    (hlf : ch ≠ 10) (busy : r.load L .sending ≠ 0) {v : Var} (hv : v.size = 4)
    (hcount : v ≠ .outcount) (hp : r.load L .outlast = L.addr v) :
    (call L r (.writec ch)).load L v =
        load32 (store8 (store32 r.mem (L.addr .outlast) (L.addr v + 1)) (L.addr v) ch.toUInt8)
          (L.addr v) ∧
      (call L r (.writec ch)).load L .outcount = r.load L .outcount + 1 ∧
      ∀ w, w ≠ v → w ≠ .outlast → w ≠ .outcount → w.size = 4 →
        (call L r (.writec ch)).load L w = r.load L w := by
  have hword : ∀ {w w' : Var}, w ≠ w' → w.size = 4 → w'.size = 4 →
      Apart (L.addr w) 4 (L.addr w') 4 := by
    intro w w' hne hw hw'
    have hapart := sound.apart w w' hne
    rwa [hw, hw'] at hapart
  have hmissed : ∀ w, w ≠ v → w.size = 4 → ¬ Within (L.addr w) 4 (L.addr v) := fun w hne hw hin =>
    hword hne hw hv _ hin (within_self (by decide))
  have hcalled : call L r (.writec ch) =
      let t : Port := { r with
        mem := store8 (store32 r.mem (L.addr .outlast) (L.addr v + 1)) (L.addr v) ch.toUInt8 }
      t.store L .outcount (t.load L .outcount + 1) := by
    rw [call, sioWritec, if_neg hlf, sioPut, if_pos busy, storeOut, if_pos hfirst, hp]
  rw [hcalled]
  refine ⟨?_, ?_, fun w hwv hwl hwc hw => ?_⟩
  · exact load32_store32_of_apart (hword hcount hv rfl)
  · rw [Port.load, Port.store, load32_store32, Port.load,
      load32_store8_of_not_within (hmissed _ (Ne.symm hcount) rfl),
      load32_store32_of_apart (hword (by decide) rfl rfl)]
    rfl
  · rw [Port.load, Port.store, load32_store32_of_apart (hword hwc hw rfl),
      load32_store8_of_not_within (hmissed w hwv hw), load32_store32_of_apart (hword hwl hw rfl)]
    rfl

/-- **A stray store stalls the transmitter**: `_sending` is off and characters wait. -/
theorem stray_store_stalls : declared.Sound ∧
    (portAfter declared (fun _ => 0) overfull).load declared .sending = 0 ∧
    (portAfter declared (fun _ => 0) overfull).load declared .outcount = 2050 ∧
    ¬ NeverStalls declared (portAfter declared (fun _ => 0) overfull) := by
  obtain ⟨hshows, hfits⟩ := portAfter_fill declared_sound (fun _ => 0) (Nat.le_refl bufSize)
  obtain ⟨hbusy, hlast, hcount, -⟩ := lineAfter_fill bufSize
  have hrun : portAfter declared (fun _ => 0) overfull =
      call declared (call declared (portAfter declared (fun _ => 0)
        (List.replicate (bufSize + 1) (.writec 97))) (.writec 0x0c)) (.writec 0) := by
    rw [← portAfter_concat, ← portAfter_concat, List.append_assoc]
    rfl
  generalize portAfter declared (fun _ => 0) (List.replicate (bufSize + 1) (.writec 97)) = r
    at hshows hrun
  have hsending : r.load declared .sending = 1 := by
    rw [Port.load, hshows.vars .sending, hbusy]
    rfl
  have hnumber : r.load declared .outcount = 2048 := (hshows.vars .outcount).trans hcount
  have hend : r.load declared .outlast = declared.addr .outlast := by
    rw [Port.load, hshows.vars .outlast, hlast]
    decide
  -- the first stray character makes the pointer point to the flag
  obtain ⟨hptr, hnumber', hkept⟩ := writec_stray declared_sound rfl 0x0c (by decide)
    (by rw [hsending]; decide) (v := .outlast) rfl (by decide) hend
  have hflag : load32 (store8 (store32 r.mem (declared.addr .outlast)
      (declared.addr .outlast + 1)) (declared.addr .outlast) (12 : UInt32).toUInt8)
      (declared.addr .outlast) = declared.addr .sending :=
    load32_store8_self (load32_store32 ..) (by decide) (by decide)
  rw [hflag] at hptr
  have hsending' := hkept .sending (by decide) (by decide) (by decide) rfl
  rw [hsending] at hsending'
  generalize call declared r (.writec 0x0c) = t at hrun hptr hnumber' hsending'
  -- the second one clears it
  obtain ⟨hcleared, hnumber'', -⟩ := writec_stray declared_sound rfl 0 (by decide)
    (by rw [hsending']; decide) (v := .sending) rfl (by decide) hptr
  have hkept' : load32 (store32 t.mem (declared.addr .outlast) (declared.addr .sending + 1))
      (declared.addr .sending) = 1 :=
    (load32_store32_of_apart (declared_sound.apart .sending .outlast (by decide))).trans hsending'
  rw [load32_store8_self (b := 0) hkept' (by decide) (by decide)] at hcleared
  rw [hnumber', hnumber] at hnumber''
  rw [hrun]
  refine ⟨declared_sound, hcleared, hnumber'', fun h => ?_⟩
  have hnone := h.idle hcleared
  rw [hnumber''] at hnone
  exact absurd hnone (by decide)

end Cumulonimbus.SerialMemory
