import Cumulonimbus.Ring
import Cumulonimbus.ScreenInput

/-!
# Input buffers as queues

The keyboard and the mouse buffer of a screen are rings of `BUFSIZE` bytes.  The keyboard
interrupt looks for room before it stores, and `c_input_queue` counts what is there: the buffer
is a queue of at most `C_BUFSIZE - 1` characters.  The mouse interrupt does not look, so one byte
too many turns a full buffer into an empty one; and `size_mouse` takes the difference of the
pointers the wrong way round.
-/

namespace Cumulonimbus.Screens

open Exec Ring

variable {s t : System} {L : Layout} {E : Fault → Prop} {base a : UInt32} {buf : InputBuffer}
  {l : List UInt8} {c : UInt8} {p : PcbId}

/-! ## One buffer -/

/-- The byte in a slot of the buffer. -/
def InputBuffer.slots (buf : InputBuffer) (k : Nat) : UInt8 :=
  if h : k < inputSize then buf.inputBuffer ⟨k, h⟩ else 0

/-- The place of an address in the buffer that begins at `base`. -/
def slotOf (base a : UInt32) : Nat := a.toNat - base.toNat

/-- The buffer that begins at `base` holds the queue `l`. -/
structure InputBuffer.Queues (buf : InputBuffer) (base : UInt32) (l : List UInt8) : Prop where
  own : buf.Own base
  ring : Holds inputSize buf.slots (slotOf base buf.nextChar) (slotOf base buf.nextSpace) l

/-- A pointer into a buffer points to one of its slots. -/
theorem slotOf_lt (ha : InBuffer base a) : slotOf base a < inputSize := by
  obtain ⟨hle, hlt⟩ := ha
  rw [UInt32.le_iff_toNat_le] at hle
  rw [slotOf]
  omega

/-- Different pointers point to different slots. -/
theorem slotOf_inj {b : UInt32} (ha : InBuffer base a) (hb : InBuffer base b) :
    slotOf base a = slotOf base b ↔ a = b := by
  refine ⟨fun h => ?_, fun h => by rw [h]⟩
  have hla := UInt32.le_iff_toNat_le.mp ha.1
  have hlb := UInt32.le_iff_toNat_le.mp hb.1
  rw [slotOf, slotOf] at h
  exact UInt32.toNat_inj.mp (by omega)

/-- `__c_increment` goes to the next slot. -/
theorem slotOf_increment (fits : base.toNat + inputSize < 2 ^ 32) (ha : InBuffer base a) :
    slotOf base (increment base a) = place inputSize (slotOf base a) 1 := by
  have hlt := slotOf_lt ha
  have hle := UInt32.le_iff_toNat_le.mp ha.1
  have hsize : inputSize = 200 := rfl
  have hnext : (a + 1).toNat = a.toNat + 1 := by
    have hsmall := ha.2
    rw [UInt32.toNat_add, UInt32.toNat_one]
    omega
  have hlimit : (base + UInt32.ofNat inputSize).toNat = base.toNat + inputSize := by
    rw [UInt32.toNat_add, show (UInt32.ofNat inputSize).toNat = inputSize from rfl]
    exact Nat.mod_eq_of_lt fits
  have hcond : base + UInt32.ofNat inputSize ≤ a + 1 ↔ base.toNat + inputSize ≤ a.toNat + 1 := by
    rw [UInt32.le_iff_toNat_le, hlimit, hnext]
  rw [increment, place]
  unfold slotOf at hlt ⊢
  by_cases hend : base.toNat + inputSize ≤ a.toNat + 1
  · rw [if_pos (hcond.mpr hend), if_neg (by omega)]
    omega
  · rw [if_neg fun h => hend (hcond.mp h), if_pos (by omega), hnext]
    omega

/-- Storing changes the slot of the address only. -/
theorem slots_store (ha : InBuffer base a) (k : Nat) :
    (buf.store base a c).slots k = if k = slotOf base a then c else buf.slots k := by
  have hlt := slotOf_lt ha
  have hle := UInt32.le_iff_toNat_le.mp ha.1
  rw [slotOf] at hlt ⊢
  unfold InputBuffer.slots InputBuffer.store
  dsimp only
  by_cases hk : k < inputSize
  · rw [dif_pos hk, dif_pos hk]
    refine if_congr ?_ rfl rfl
    omega
  · rw [dif_neg hk, dif_neg hk, if_neg (by omega)]

/-- An empty buffer. -/
theorem InputBuffer.Own.queues_nil (own : buf.Own base) (empty : buf.nextChar = buf.nextSpace) :
    buf.Queues base [] := by
  refine ⟨own, ?_⟩
  rw [← empty]
  exact .nil _ (slotOf_lt own.1)

/-- The test of the reading loop. -/
theorem InputBuffer.Queues.empty_iff (h : buf.Queues base l) :
    buf.nextChar = buf.nextSpace ↔ l = [] := by
  rw [← slotOf_inj h.own.1 h.own.2]
  exact h.ring.empty_iff

/-- The test for room. -/
theorem InputBuffer.Queues.full_iff (fits : base.toNat + inputSize < 2 ^ 32)
    (h : buf.Queues base l) :
    increment base buf.nextSpace = buf.nextChar ↔ ¬ l.length < inputSize - 1 := by
  rw [← slotOf_inj (inBuffer_increment fits h.own.2) h.own.1, slotOf_increment fits h.own.2]
  exact h.ring.full_iff

/-- The buffer with one more byte. -/
def InputBuffer.pushed (buf : InputBuffer) (base : UInt32) (c : UInt8) : InputBuffer :=
  { buf.store base buf.nextSpace c with nextSpace := increment base buf.nextSpace }

/-- The buffer without its first byte. -/
def InputBuffer.popped (buf : InputBuffer) (base : UInt32) : InputBuffer :=
  { buf with nextChar := increment base buf.nextChar }

/-- After a store both pointers are in the buffer. -/
theorem InputBuffer.Own.pushed (fits : base.toNat + inputSize < 2 ^ 32) (own : buf.Own base) :
    (buf.pushed base c).Own base := by
  unfold InputBuffer.pushed InputBuffer.store
  exact ⟨own.1, inBuffer_increment fits own.2⟩

/-- After a load as well. -/
theorem InputBuffer.Own.popped (fits : base.toNat + inputSize < 2 ^ 32) (own : buf.Own base) :
    (buf.popped base).Own base := by
  unfold InputBuffer.popped
  exact ⟨inBuffer_increment fits own.1, own.2⟩

/-- **A byte that is stored** comes last, if there is room. -/
theorem InputBuffer.Queues.push (fits : base.toNat + inputSize < 2 ^ 32) (h : buf.Queues base l)
    (room : l.length < inputSize - 1) : (buf.pushed base c).Queues base (l ++ [c]) := by
  have hslots (k : Nat) : (buf.pushed base c).slots k =
      if k = slotOf base buf.nextSpace then c else buf.slots k := by
    rw [← slots_store h.own.2]
    unfold InputBuffer.slots InputBuffer.pushed
    dsimp only
  have hfirst : (buf.pushed base c).nextChar = buf.nextChar := by
    unfold InputBuffer.pushed InputBuffer.store
    dsimp only
  have hnext : (buf.pushed base c).nextSpace = increment base buf.nextSpace := rfl
  refine ⟨h.own.pushed fits, ?_⟩
  rw [hfirst, hnext, slotOf_increment fits h.own.2]
  refine h.ring.push room ?_ fun k hk => ?_
  · rw [hslots, if_pos rfl]
  · rw [hslots, if_neg hk]

/-- **A byte that is loaded** was the first. -/
theorem InputBuffer.Queues.pop (fits : base.toNat + inputSize < 2 ^ 32)
    (h : buf.Queues base (c :: l)) :
    buf.load base buf.nextChar = c ∧ (buf.popped base).Queues base l := by
  obtain ⟨hfirst, hrest⟩ := h.ring.pop
  refine ⟨hfirst, h.own.popped fits, ?_⟩
  unfold InputBuffer.popped
  dsimp only
  rw [slotOf_increment fits h.own.1]
  exact hrest

/-! ## Counting -/

/-- A difference of pointers, forwards. -/
theorem difference_forwards : ∀ d, d < 200 →
    ¬ (UInt32.ofNat d).toInt32 < 0 ∧ (UInt32.ofNat d).toInt32 = Int32.ofNat d := by
  intro d hd
  have hsigned : (UInt32.ofNat d).toInt32 = Int32.ofNat d := rfl
  refine ⟨?_, hsigned⟩
  rw [hsigned, Int32.lt_iff_toInt_lt, Int32.toInt_ofNat_of_lt (by omega), Int32.toInt_zero]
  omega

/-- A difference of pointers, backwards. -/
theorem difference_backwards : ∀ d, d < 200 → 0 < d →
    (-(UInt32.ofNat d)).toInt32 < 0 ∧
      (-(UInt32.ofNat d)).toInt32 + Int32.ofNat 200 = Int32.ofNat (200 - d) := by
  intro d hd hpos
  have hsigned : (-(UInt32.ofNat d)).toInt32 = -Int32.ofNat d := rfl
  have hd' : (Int32.ofNat d).toInt = d := Int32.toInt_ofNat_of_lt (by omega)
  have hneg : (-Int32.ofNat d).toInt = -d := by
    rw [Int32.toInt_neg, hd']
    exact Int.bmod_eq_of_le (by omega) (by omega)
  rw [hsigned]
  constructor
  · rw [Int32.lt_iff_toInt_lt, hneg, Int32.toInt_zero]
    omega
  · refine Int32.toInt_inj.mp ?_
    rw [Int32.toInt_add, hneg, Int32.toInt_ofNat_of_lt (by decide),
      Int32.toInt_ofNat_of_lt (by omega), Int.bmod_eq_of_le (by omega) (by omega)]
    omega

/-- The difference of two pointers into a buffer. -/
theorem sub_eq {b : UInt32} (ha : InBuffer base a) (hb : InBuffer base b) :
    b - a = if slotOf base b < slotOf base a then -(UInt32.ofNat (slotOf base a - slotOf base b))
      else UInt32.ofNat (slotOf base b - slotOf base a) := by
  have hla := UInt32.le_iff_toNat_le.mp ha.1
  have hlb := UInt32.le_iff_toNat_le.mp hb.1
  have hbound := a.toNat_lt
  have hbound' := b.toNat_lt
  rw [slotOf, slotOf]
  refine UInt32.toNat_inj.mp ?_
  rw [UInt32.toNat_sub]
  split
  · rw [UInt32.toNat_neg, show UInt32.size = 2 ^ 32 from rfl,
      UInt32.toNat_ofNat_of_lt' (show _ < 2 ^ 32 by omega)]
    omega
  · rw [UInt32.toNat_ofNat_of_lt' (show _ < 2 ^ 32 by omega)]
    omega

/-- One slot stays empty. -/
theorem InputBuffer.Queues.length_lt (h : buf.Queues base l) : l.length < 200 := h.ring.length_lt

/-- `c_input_queue` counts. -/
theorem count_forwards (h : buf.Queues base l) :
    (if (buf.nextSpace - buf.nextChar).toInt32 < 0
      then (buf.nextSpace - buf.nextChar).toInt32 + Int32.ofNat inputSize
      else (buf.nextSpace - buf.nextChar).toInt32) = Int32.ofNat l.length := by
  have hlen := h.ring.length_eq
  have hlow := slotOf_lt h.own.1
  have hhigh := slotOf_lt h.own.2
  have hsize : inputSize = 200 := rfl
  rw [hsize] at hlen hlow hhigh ⊢
  rw [sub_eq h.own.1 h.own.2, hlen]
  split
  · obtain ⟨hneg, hsum⟩ := difference_backwards
      (slotOf base buf.nextChar - slotOf base buf.nextSpace) (by omega) (by omega)
    rw [if_pos hneg, hsum]
    congr 1
    omega
  · obtain ⟨hpos, heq⟩ := difference_forwards
      (slotOf base buf.nextSpace - slotOf base buf.nextChar) (by omega)
    rw [if_neg hpos, heq]

/-- `size_mouse` counts the free slots, or 0 if the buffer is empty. -/
theorem count_backwards (h : buf.Queues base l) :
    (if 0 ≤ (buf.nextChar - buf.nextSpace).toInt32 then (buf.nextChar - buf.nextSpace).toInt32
      else Int32.ofNat inputSize + (buf.nextChar - buf.nextSpace).toInt32) =
      Int32.ofNat (if l.length = 0 then 0 else inputSize - l.length) := by
  have hlen := h.ring.length_eq
  have hlow := slotOf_lt h.own.1
  have hhigh := slotOf_lt h.own.2
  have hsize : inputSize = 200 := rfl
  rw [hsize] at hlen hlow hhigh ⊢
  rw [sub_eq h.own.2 h.own.1]
  by_cases hlt : slotOf base buf.nextChar < slotOf base buf.nextSpace
  · obtain ⟨hneg, hsum⟩ := difference_backwards
      (slotOf base buf.nextSpace - slotOf base buf.nextChar) (by omega) (by omega)
    rw [if_pos hlt, if_neg (Int32.not_le.mpr hneg), Int32.add_comm, hsum]
    rw [if_neg (by omega : ¬ slotOf base buf.nextSpace < slotOf base buf.nextChar)] at hlen
    rw [hlen, if_neg (by omega)]
  · obtain ⟨hpos, heq⟩ := difference_forwards
      (slotOf base buf.nextChar - slotOf base buf.nextSpace) (by omega)
    rw [if_neg hlt, if_pos (Int32.not_lt.mp hpos), heq]
    congr 1
    split at hlen <;> split <;> omega

/-! ## The keyboard -/

/-- The modifier keys, and the characters that were typed and not read yet. -/
structure Keyboard where
  shift : Bool
  ctrlMask : UInt8
  unread : List UInt8

/-- A scan code: a modifier, or a key that goes down, whose character is discarded exactly if
`C_BUFSIZE - 1` characters are unread, or a key that goes up. -/
def Keyboard.press (k : Keyboard) (code : UInt8) : Keyboard :=
  if code = 0x2a ∨ code = 0x36 then { k with shift := true }
  else if code = 0xaa ∨ code = 0xb6 then { k with shift := false }
  else if code = 0x1d then { k with ctrlMask := 0x1f }
  else if code = 0x9d then { k with ctrlMask := 0xff }
  else if code &&& 0x80 = 0 then
    { k with
      unread := put (inputSize - 1) k.unread
        ((scanCode k.shift).getD code.toNat 0 &&& k.ctrlMask) }
  else k

/-- What happens to a keyboard buffer: keystrokes, and calls by processes. -/
inductive KbCall
  | key (code : UInt8)
  | getchar (p : PcbId) (early late : List UInt8)
  | inputQueue (p : PcbId)

/-- What a caller is told; `char none` says that `c_getchar` blocks. -/
inductive Answer
  | nothing
  | char (c : Option UInt8)
  | count (n : Int)
  deriving DecidableEq

def KbCall.run (L : Layout) : KbCall → Op Answer
  | .key code => do
    cInputScanCode L code
    return .nothing
  | .getchar p early late => do
    let c ← cGetcharDuring L p early late
    return .char c
  | .inputQueue p => do
    let n ← cInputQueue p
    return .count n.toInt

/-- The process that calls. -/
def KbCall.caller : KbCall → Option PcbId
  | .key _ => none
  | .getchar p _ _ | .inputQueue p => some p

/-- **The keyboard as a queue.**  A read takes the first character, or blocks if there is none. -/
def Keyboard.answer (k : Keyboard) : KbCall → Answer × Keyboard
  | .key code => (.nothing, k.press code)
  | .getchar _ early late =>
    match k.unread with
    | [] => (.char none, k)
    | c :: _ =>
      let k' := (early ++ late).foldl press k
      (.char (some c), { k' with unread := k'.unread.tail })
  | .inputQueue _ => (.count k.unread.length, k)

/-- The answers to a sequence of calls. -/
def Keyboard.answers : List KbCall → Keyboard → List Answer
  | [], _ => []
  | e :: es, k => (k.answer e).1 :: answers es (k.answer e).2

/-- The active screen's keyboard buffer holds what is unread. -/
structure System.Types (L : Layout) (s : System) (k : Keyboard) : Prop where
  shift : s.shift = k.shift
  ctrlMask : s.ctrlMask = k.ctrlMask
  queue : (s.screens s.activeScreen).kbBuf.Queues (L.kb s.activeScreen) k.unread

/-- The same screens are shown to the user and to the processes. -/
def System.SameView (s t : System) : Prop :=
  t.activeScreen = s.activeScreen ∧ t.pcbScreen = s.pcbScreen

variable {k : Keyboard}

/-- A screen that is stored has its buffer. -/
theorem kbBuf_setScreen (s : System) {n : ScreenId} {scr : Screen} (h : scr.kbBuf.Queues base l) :
    ((s.setScreen n scr).screens n).kbBuf.Queues base l := by
  rw [setScreen_self]
  exact h

/-- A key that is stored has been typed, unless there is no room. -/
theorem kbStore_types (h : s.Types L k) (char : UInt8) :
    wp (kbStore L char)
      (fun _ t => t.Types L
        { k with unread := put (inputSize - 1) k.unread (char &&& k.ctrlMask) } ∧ s.SameView t)
      E s := by
  rw [kbStore, wp_bind, wp_get]
  dsimp only
  rw [wp_ite]
  have hfull := h.queue.full_iff (L.kb_fits s.activeScreen)
  constructor
  · intro hroom
    have hlt : k.unread.length < inputSize - 1 := by
      by_contra hnot
      exact hroom (hfull.mpr hnot)
    rw [put_of_lt hlt, h.ctrlMask]
    refine ⟨⟨h.shift, h.ctrlMask, ?_⟩, rfl, rfl⟩
    exact kbBuf_setScreen s (h.queue.push (L.kb_fits s.activeScreen) hlt)
  · intro hnext
    rw [put_of_full (hfull.mp (not_not.mp hnext))]
    exact ⟨h, rfl, rfl⟩

/-- A keyboard interrupt. -/
theorem cInputScanCode_types (h : s.Types L k) (code : UInt8) :
    wp (cInputScanCode L code) (fun _ t => t.Types L (k.press code) ∧ s.SameView t) E s := by
  rw [cInputScanCode, wp_bind, wp_get, Keyboard.press]
  split
  · exact ⟨⟨rfl, h.ctrlMask, h.queue⟩, rfl, rfl⟩
  split
  · exact ⟨⟨rfl, h.ctrlMask, h.queue⟩, rfl, rfl⟩
  split
  · exact ⟨⟨h.shift, rfl, h.queue⟩, rfl, rfl⟩
  split
  · exact ⟨⟨h.shift, rfl, h.queue⟩, rfl, rfl⟩
  split
  · dsimp only
    rw [if_pos (by omega), h.shift]
    exact kbStore_types h _
  · exact ⟨h, rfl, rfl⟩

/-- Keys pressed while a routine waits, one after the other. -/
theorem forM_types (codes : List UInt8) (h : s.Types L k) :
    wp (forM codes (cInputScanCode L))
      (fun _ t => t.Types L (codes.foldl Keyboard.press k) ∧ s.SameView t) E s := by
  induction codes generalizing s k with
  | nil => exact ⟨h, rfl, rfl⟩
  | cons code codes ih =>
    rw [List.forM_cons]
    refine wp_seq (cInputScanCode_types h code) ?_
    intro _ t hpost
    obtain ⟨ht, hview⟩ := hpost
    refine wp_mono (ih ht) ?_ fun _ he => he
    intro _ u hpost
    exact ⟨hpost.1, hpost.2.1.trans hview.1, hpost.2.2.trans hview.2⟩

/-- Keys do not touch the first unread character. -/
theorem press_head {l : List UInt8} (codes : List UInt8) (h : k.unread = c :: l) :
    ∃ l', (codes.foldl Keyboard.press k).unread = c :: l' := by
  induction codes generalizing k l with
  | nil => exact ⟨l, h⟩
  | cons code codes ih =>
    have hput : ∀ x, ∃ l', put (inputSize - 1) k.unread x = c :: l' := by
      intro x
      rw [put, h]
      split
      · exact ⟨l ++ [x], rfl⟩
      · exact ⟨l, rfl⟩
    have hstep : ∃ l', (k.press code).unread = c :: l' := by
      unfold Keyboard.press
      split_ifs
      all_goals first | exact ⟨l, h⟩ | exact hput _
    obtain ⟨l', hl'⟩ := hstep
    exact ih hl'

/-- Taking the first character. -/
theorem Types.pop {l : List UInt8} (h : s.Types L k) (hhead : k.unread = c :: l) :
    (s.screens s.activeScreen).kbBuf.load (L.kb s.activeScreen)
        (s.screens s.activeScreen).kbBuf.nextChar = c ∧
      (s.setScreen s.activeScreen { s.screens s.activeScreen with
        kbBuf := (s.screens s.activeScreen).kbBuf.popped (L.kb s.activeScreen) }).Types L
        { k with unread := k.unread.tail } := by
  have hqueue := h.queue
  rw [hhead] at hqueue
  obtain ⟨hload, hrest⟩ := hqueue.pop (L.kb_fits s.activeScreen)
  refine ⟨hload, h.shift, h.ctrlMask, ?_⟩
  rw [hhead]
  exact kbBuf_setScreen s hrest

/-- A read, with interrupts. -/
theorem cGetcharDuring_types (h : s.Types L k) (hp : s.pcbScreen p = s.activeScreen)
    (early late : List UInt8) :
    wp (cGetcharDuring L p early late)
      (fun r t => Answer.char r = (k.answer (.getchar p early late)).1 ∧
        t.Types L (k.answer (.getchar p early late)).2 ∧ s.SameView t) E s := by
  rw [cGetcharDuring, wp_bind, wp_get]
  dsimp only
  rw [hp, wp_ite, h.queue.empty_iff, Keyboard.answer]
  constructor
  · intro hempty
    rw [hempty]
    exact ⟨rfl, h, rfl, rfl⟩
  · intro hne
    obtain ⟨c, l, hhead⟩ := List.exists_cons_of_ne_nil hne
    rw [hhead]
    dsimp only
    refine wp_seq (forM_types early h) ?_
    intro _ t hpost
    obtain ⟨ht, hview⟩ := hpost
    rw [wp_bind, wp_get]
    refine wp_seq (forM_types late ht) ?_
    intro _ u hpost
    obtain ⟨hu, hview'⟩ := hpost
    rw [← List.foldl_append] at hu
    obtain ⟨l₁, hhead₁⟩ := press_head early hhead
    obtain ⟨l₂, hhead₂⟩ := press_head (early ++ late) hhead
    have hload := (Types.pop ht hhead₁).1
    have hpop := (Types.pop hu hhead₂).2
    rw [hview'.1, hview.1] at hpop
    rw [hview.1] at hload
    rw [wp_bind, wp_modify, wp_pure, hload]
    exact ⟨rfl, hpop, hview'.1.trans hview.1, hview'.2.trans hview.2⟩

/-- **`c_input_queue`** counts the keys that are unread. -/
theorem cInputQueue_spec (h : s.Types L k) (hp : s.pcbScreen p = s.activeScreen) :
    wp (cInputQueue p) (fun n t => n.toInt = k.unread.length ∧ t = s) E s := by
  rw [cInputQueue, wp_bind, wp_get]
  dsimp only
  rw [hp, count_forwards h.queue, wp_pure]
  refine ⟨?_, rfl⟩
  have hlen := h.queue.length_lt
  exact Int32.toInt_ofNat_of_lt (by omega)

/-- **One call.** -/
theorem KbCall.run_types (h : s.Types L k) (e : KbCall)
    (hp : ∀ p, e.caller = some p → s.pcbScreen p = s.activeScreen) :
    wp (e.run L)
      (fun r t => r = (k.answer e).1 ∧ t.Types L (k.answer e).2 ∧ s.SameView t) E s := by
  cases e with
  | key code =>
    rw [KbCall.run]
    refine wp_seq (cInputScanCode_types h code) ?_
    intro _ t hpost
    exact ⟨rfl, hpost⟩
  | getchar p early late =>
    rw [KbCall.run]
    refine wp_seq (cGetcharDuring_types h (hp p rfl) early late) ?_
    intro r t hpost
    exact hpost
  | inputQueue p =>
    rw [KbCall.run]
    refine wp_seq (cInputQueue_spec h (hp p rfl)) ?_
    intro n t hpost
    obtain ⟨hn, rfl⟩ := hpost
    rw [wp_pure, hn]
    exact ⟨rfl, h, rfl, rfl⟩

/-- Any calls give the answers of a queue, by induction on the calls. -/
theorem keyboard_answers (events : List KbCall) (h : s.Types L k)
    (callers : ∀ e ∈ events, ∀ p, e.caller = some p → s.pcbScreen p = s.activeScreen) :
    wp (events.mapM (KbCall.run L)) (fun answers _ => answers = Keyboard.answers events k) E s := by
  induction events generalizing s k with
  | nil => exact rfl
  | cons e events ih =>
    rw [List.mapM_cons]
    refine wp_seq (KbCall.run_types h e (callers e List.mem_cons_self)) ?_
    intro answer t hpost
    obtain ⟨hanswer, ht, hview⟩ := hpost
    refine wp_seq (ih ht fun e' he' p hp => ?_) ?_
    · rw [hview.1, hview.2]
      exact callers e' (List.mem_cons_of_mem e he') p hp
    · intro answers _ hrest
      rw [wp_pure, hanswer, hrest]
      rfl

/-- **The keyboard buffer is a queue** of at most `C_BUFSIZE - 1` characters: from an empty
buffer on, whatever keys are pressed and whichever processes on the active screen read and count,
the answers are those of the queue. -/
theorem keyboard_is_queue (events : List KbCall)
    (own : (s.screens s.activeScreen).kbBuf.Own (L.kb s.activeScreen))
    (empty : (s.screens s.activeScreen).kbBuf.nextChar = (s.screens s.activeScreen).kbBuf.nextSpace)
    (callers : ∀ e ∈ events, ∀ p, e.caller = some p → s.pcbScreen p = s.activeScreen) :
    wp (events.mapM (KbCall.run L))
      (fun answers _ => answers = Keyboard.answers events ⟨s.shift, s.ctrlMask, []⟩)
      (fun _ => False) s :=
  keyboard_answers events ⟨rfl, rfl, own.queues_nil empty⟩ callers

/-- A system with one open screen. -/
def oneScreen : System :=
  (blankSystem fun _ => 0).setScreen firstScreen (Screen.clear.open flatLayout firstScreen pidClear)

/-- The example has one screen with its pointers in place. -/
theorem oneScreen_own :
    (oneScreen.screens oneScreen.activeScreen).kbBuf.Own (flatLayout.kb oneScreen.activeScreen) ∧
      (oneScreen.screens oneScreen.activeScreen).mouseBuf.Own
        (flatLayout.mouse oneScreen.activeScreen) := open_live _ _ _ _

/-- An `a` is read while a `b` is typed, which is left then. -/
theorem keyboard_is_queue_typed :
    wp ([.key 0x1e, .getchar firstPcb [] [0x30], .inputQueue firstPcb].mapM
        (KbCall.run flatLayout))
      (fun answers _ => answers = [.nothing, .char (some 97), .count 1]) (fun _ => False)
      oneScreen :=
  keyboard_is_queue _ oneScreen_own.1 rfl fun _ _ _ _ => rfl

/-! ## The mouse -/

/-- What happens to a mouse buffer: bytes, and calls by processes. -/
inductive MouseCall
  | packet (b : UInt8)
  | getMouse (p : PcbId) (early late : List UInt8)
  | sizeMouse (p : PcbId)

def MouseCall.run (L : Layout) : MouseCall → Op Answer
  | .packet b => do
    isrMouse L b
    return .nothing
  | .getMouse p early late => do
    let c ← getMouseDuring L p early late
    return .char c
  | .sizeMouse p => do
    let n ← Screens.sizeMouse p
    return .count n.toInt

def MouseCall.caller : MouseCall → Option PcbId
  | .packet _ => none
  | .getMouse p _ _ | .sizeMouse p => some p

/-- **The mouse as a queue**, which discards what comes while `BUFSIZE - 1` bytes are unread. -/
def mouseAnswer (l : List UInt8) : MouseCall → Answer × List UInt8
  | .packet b => (.nothing, put (inputSize - 1) l b)
  | .getMouse _ early late =>
    match l with
    | [] => (.char none, [])
    | c :: l => (.char (some c), ((early ++ late).foldl (put (inputSize - 1)) (c :: l)).tail)
  | .sizeMouse _ => (.count l.length, l)

/-- The answers to a sequence of calls. -/
def mouseAnswers : List MouseCall → List UInt8 → List Answer
  | [], _ => []
  | e :: es, l => (mouseAnswer l e).1 :: mouseAnswers es (mouseAnswer l e).2

/-- Fewer than `BUFSIZE - 1` bytes are unread whenever one arrives. -/
def MouseCall.InTime (l : List UInt8) : MouseCall → Prop
  | .packet _ => l.length < inputSize - 1
  | .getMouse _ early late => l ≠ [] → l.length + (early ++ late).length ≤ inputSize - 1
  | .sizeMouse _ => True

/-- No bytes, or half of `BUFSIZE`, are unread when `size_mouse` is called. -/
def MouseCall.SizeKnown (l : List UInt8) : MouseCall → Prop
  | .sizeMouse _ => l.length = 0 ∨ l.length = inputSize / 2
  | _ => True

/-- All calls of a sequence meet a condition on what is unread. -/
def AllMeet (cond : List UInt8 → MouseCall → Prop) : List MouseCall → List UInt8 → Prop
  | [], _ => True
  | e :: es, l => cond l e ∧ AllMeet cond es (mouseAnswer l e).2

/-- The active screen's mouse buffer holds the queue `l`. -/
def System.Moves (L : Layout) (s : System) (l : List UInt8) : Prop :=
  (s.screens s.activeScreen).mouseBuf.Queues (L.mouse s.activeScreen) l

/-- A screen that is stored has its buffer. -/
theorem mouseBuf_setScreen (s : System) {n : ScreenId} {scr : Screen}
    (h : scr.mouseBuf.Queues base l) : ((s.setScreen n scr).screens n).mouseBuf.Queues base l := by
  rw [setScreen_self]
  exact h

/-- A mouse interrupt for which there is room. -/
theorem isrMouse_moves (h : s.Moves L l) (room : l.length < inputSize - 1) (b : UInt8) :
    wp (isrMouse L b) (fun _ t => t.Moves L (l ++ [b]) ∧ s.SameView t) E s := by
  rw [isrMouse, wp_modify]
  exact ⟨mouseBuf_setScreen s (h.push (L.mouse_fits s.activeScreen) room), rfl, rfl⟩

/-- Bytes that arrive while a routine waits, with room for all of them. -/
theorem forM_moves (bytes : List UInt8) (h : s.Moves L l)
    (room : l.length + bytes.length ≤ inputSize - 1) :
    wp (forM bytes (isrMouse L)) (fun _ t => t.Moves L (l ++ bytes) ∧ s.SameView t) E s := by
  induction bytes generalizing s l with
  | nil =>
    rw [List.append_nil]
    exact ⟨h, rfl, rfl⟩
  | cons b bytes ih =>
    rw [List.length_cons] at room
    rw [List.forM_cons]
    refine wp_seq (isrMouse_moves h (by omega) b) ?_
    intro _ t hpost
    obtain ⟨ht, hview⟩ := hpost
    refine wp_mono (ih ht (by simp; omega)) ?_ fun _ he => he
    intro _ u hpost
    rw [List.append_assoc] at hpost
    exact ⟨hpost.1, hpost.2.1.trans hview.1, hpost.2.2.trans hview.2⟩

/-- Bytes for which there is room are all kept. -/
theorem foldl_put (bytes : List UInt8) (room : l.length + bytes.length ≤ inputSize - 1) :
    bytes.foldl (put (inputSize - 1)) l = l ++ bytes := by
  induction bytes generalizing l with
  | nil => simp
  | cons b bytes ih =>
    rw [List.length_cons] at room
    rw [List.foldl_cons, put_of_lt (by omega), ih (by simp; omega), List.append_assoc]
    rfl

/-- Taking the first byte. -/
theorem Moves.pop (h : s.Moves L (c :: l)) :
    (s.screens s.activeScreen).mouseBuf.load (L.mouse s.activeScreen)
        (s.screens s.activeScreen).mouseBuf.nextChar = c ∧
      (s.setScreen s.activeScreen { s.screens s.activeScreen with
        mouseBuf := (s.screens s.activeScreen).mouseBuf.popped (L.mouse s.activeScreen) }).Moves
        L l := by
  obtain ⟨hload, hrest⟩ := InputBuffer.Queues.pop (L.mouse_fits s.activeScreen) h
  exact ⟨hload, mouseBuf_setScreen s hrest⟩

/-- A byte of the mouse, with interrupts before and after the test. -/
theorem getMouseDuring_moves (h : s.Moves L l) (hp : s.pcbScreen p = s.activeScreen)
    {early late : List UInt8} (intime : (MouseCall.getMouse p early late).InTime l) :
    wp (getMouseDuring L p early late)
      (fun r t => Answer.char r = (mouseAnswer l (.getMouse p early late)).1 ∧
        t.Moves L (mouseAnswer l (.getMouse p early late)).2 ∧ s.SameView t) E s := by
  rw [getMouseDuring, wp_bind, wp_get]
  dsimp only
  rw [hp, wp_ite, InputBuffer.Queues.empty_iff h]
  constructor
  · intro hempty
    subst hempty
    exact ⟨rfl, h, rfl, rfl⟩
  · intro hne
    have room := intime hne
    obtain ⟨c, l, rfl⟩ := List.exists_cons_of_ne_nil hne
    rw [mouseAnswer, foldl_put _ room]
    rw [List.length_append] at room
    refine wp_seq (forM_moves early h (by omega)) ?_
    intro _ t hpost
    obtain ⟨ht, hview⟩ := hpost
    rw [wp_bind, wp_get]
    refine wp_seq (forM_moves late ht (by rw [List.length_append]; omega)) ?_
    intro _ u hpost
    obtain ⟨hu, hview'⟩ := hpost
    have hload := (Moves.pop (c := c) (l := l ++ early) ht).1
    have hpop := (Moves.pop (c := c) (l := l ++ early ++ late) hu).2
    rw [hview'.1, hview.1] at hpop
    rw [hview.1] at hload
    rw [wp_bind, wp_modify, wp_pure, hload]
    refine ⟨rfl, ?_, hview'.1.trans hview.1, hview'.2.trans hview.2⟩
    rw [List.cons_append, List.tail_cons, ← List.append_assoc]
    exact hpop

/-- `size_mouse` gives the number of free slots, or 0 for an empty buffer. -/
theorem sizeMouse_spec (h : s.Moves L l) (hp : s.pcbScreen p = s.activeScreen) :
    wp (sizeMouse p)
      (fun n t => (n.toInt = l.length ↔ (MouseCall.sizeMouse p).SizeKnown l) ∧ t = s) E s := by
  rw [sizeMouse, wp_bind, wp_get]
  dsimp only
  rw [hp, count_backwards h, wp_pure]
  refine ⟨?_, rfl⟩
  have hlen := h.length_lt
  have hsize : inputSize = 200 := rfl
  rw [MouseCall.SizeKnown, hsize, Int32.toInt_ofNat_of_lt (by split <;> omega)]
  split <;> omega

/-- **One call** whose bytes arrive in time. -/
theorem MouseCall.run_moves (h : s.Moves L l) (e : MouseCall) (intime : e.InTime l)
    (hp : ∀ p, e.caller = some p → s.pcbScreen p = s.activeScreen) :
    wp (e.run L)
      (fun r t => (r = (mouseAnswer l e).1 ↔ e.SizeKnown l) ∧ t.Moves L (mouseAnswer l e).2 ∧
        s.SameView t) E s := by
  cases e with
  | packet b =>
    rw [MouseCall.run]
    refine wp_seq (isrMouse_moves h intime b) ?_
    intro _ t hpost
    rw [wp_pure, mouseAnswer, put_of_lt intime]
    exact ⟨iff_of_true rfl trivial, hpost⟩
  | getMouse p early late =>
    rw [MouseCall.run]
    refine wp_seq (getMouseDuring_moves h (hp p rfl) intime) ?_
    intro r t hpost
    exact ⟨iff_of_true hpost.1 trivial, hpost.2⟩
  | sizeMouse p =>
    rw [MouseCall.run]
    refine wp_seq (sizeMouse_spec h (hp p rfl)) ?_
    intro n t hpost
    obtain ⟨hn, rfl⟩ := hpost
    refine ⟨?_, h, rfl, rfl⟩
    rw [← hn]
    exact ⟨Answer.count.inj, congrArg Answer.count⟩

/-- Any calls give the answers of a queue exactly when no size is asked for that the code computes
the wrong way round. -/
theorem mouse_answers (events : List MouseCall) (h : s.Moves L l)
    (intime : AllMeet MouseCall.InTime events l)
    (callers : ∀ e ∈ events, ∀ p, e.caller = some p → s.pcbScreen p = s.activeScreen) :
    wp (events.mapM (MouseCall.run L))
      (fun answers _ => answers = mouseAnswers events l ↔ AllMeet MouseCall.SizeKnown events l)
      E s := by
  induction events generalizing s l with
  | nil => exact iff_of_true rfl trivial
  | cons e events ih =>
    rw [List.mapM_cons]
    refine wp_seq (MouseCall.run_moves h e intime.1 (callers e List.mem_cons_self)) ?_
    intro answer t hpost
    obtain ⟨hanswer, ht, hview⟩ := hpost
    refine wp_seq (ih ht intime.2 fun e' he' p hp => ?_) ?_
    · rw [hview.1, hview.2]
      exact callers e' (List.mem_cons_of_mem e he') p hp
    · intro answers _ hrest
      rw [wp_pure, mouseAnswers, AllMeet, List.cons.injEq, hanswer, hrest]

/-- **The mouse buffer is a queue** as long as every byte arrives in time, up to `size_mouse`,
whose answers are right exactly where the used and the free slots are equally many, or all are
free. -/
theorem mouse_is_queue_iff (events : List MouseCall)
    (own : (s.screens s.activeScreen).mouseBuf.Own (L.mouse s.activeScreen))
    (empty : (s.screens s.activeScreen).mouseBuf.nextChar =
      (s.screens s.activeScreen).mouseBuf.nextSpace)
    (callers : ∀ e ∈ events, ∀ p, e.caller = some p → s.pcbScreen p = s.activeScreen)
    (intime : AllMeet MouseCall.InTime events []) :
    wp (events.mapM (MouseCall.run L))
      (fun answers _ => answers = mouseAnswers events [] ↔ AllMeet MouseCall.SizeKnown events [])
      (fun _ => False) s :=
  mouse_answers events (own.queues_nil empty) intime callers

/-- A byte arrives and is read while another one arrives. -/
theorem mouse_is_queue_read :
    wp ([.sizeMouse firstPcb, .packet 8, .getMouse firstPcb [] [9]].mapM
        (MouseCall.run flatLayout))
      (fun answers _ => answers = [.count 0, .nothing, .char (some 8)]) (fun _ => False)
      oneScreen := by
  refine wp_mono (mouse_is_queue_iff (L := flatLayout) (s := oneScreen)
    [.sizeMouse firstPcb, .packet 8, .getMouse firstPcb [] [9]] oneScreen_own.2 rfl
    (fun _ _ _ _ => rfl)
    ⟨trivial, Nat.zero_lt_succ 198, fun _ => Nat.le_of_ble_eq_true rfl, trivial⟩) ?_
    fun _ he => he
  intro answers _ hiff
  exact hiff.mpr ⟨Or.inl rfl, trivial, trivial, trivial⟩

/-- With one byte unread, `size_mouse` says 199. -/
theorem size_mouse_backwards :
    ¬ ∀ (L : Layout) (s : System) (events : List MouseCall),
      (s.screens s.activeScreen).mouseBuf.Own (L.mouse s.activeScreen) →
      (s.screens s.activeScreen).mouseBuf.nextChar =
        (s.screens s.activeScreen).mouseBuf.nextSpace →
      (∀ e ∈ events, ∀ p, e.caller = some p → s.pcbScreen p = s.activeScreen) →
      wp (events.mapM (MouseCall.run L)) (fun answers _ => answers = mouseAnswers events [])
        (fun _ => False) s := by
  intro hclaim
  have hempty := oneScreen_own.2.queues_nil rfl
  have hiff := mouse_answers (E := fun _ => False) [.packet 8, .sizeMouse firstPcb] hempty
    ⟨Nat.zero_lt_succ 198, trivial, trivial⟩ fun _ _ _ _ => rfl
  obtain ⟨answers, t, hrun, hanswers⟩ := wp_returns
    (hclaim flatLayout oneScreen [.packet 8, .sizeMouse firstPcb] oneScreen_own.2 rfl
      fun _ _ _ _ => rfl)
  have hknown : 1 = 0 ∨ 1 = inputSize / 2 := ((wp_ok hiff hrun).mp hanswers).2.1
  exact absurd hknown (by decide)

end Cumulonimbus.Screens
