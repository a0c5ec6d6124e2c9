import Cumulonimbus.Knet

/-!
# The receive ring of the network card

The receive side of `i8255x_ethernet.c`, and the receive unit of the card as far as it
touches the ring.  Driver and card walk the same ring: the card fills the buffer at its
own position until it has filled one that is marked as the end of the list, the driver
takes filled buffers from `rx_buffer_ptr` on and starts the card again at
`rx_buffer_base`.  The two pointers of the driver part ways as soon as the card has
stopped once, so the ring works for one lap (`frames_delivered_iff`).
-/

namespace Cumulonimbus.I8255x
open Function Knet

/-- `I8255X_RX_BUFFER_COUNT`. -/
abbrev rxBufferCount : Nat := 5

/-- The address of a receive buffer. -/
abbrev RxId := Fin rxBufferCount

def actionHdrCmdS : UInt16 := 0x4000
def actionHdrCmdEl : UInt16 := 0x8000

def ethDataLen : UInt16 := 1500

/-- An `intel_rx_buffer_t`. -/
structure RxBuffer where
  status : UInt16
  command : UInt16
  linkAddr : RxId
  size : UInt16
  frame : Frame

/-- Whether the command of a buffer has the EL bit. -/
def RxBuffer.endOfList (b : RxBuffer) : Bool := b.command &&& actionHdrCmdEl ≠ 0

/-- A frame from the wire, with the status that the card gives it. -/
structure Arrival where
  frame : Frame
  status : UInt16
  nonzero : status ≠ 0

/-- What happens to a buffer: the card fills it, the driver passes its frame on. -/
inductive Event
  | filled (b : RxId) (f : Frame)
  | passed (b : RxId) (f : Frame)

structure Nic where
  bufs : RxId → RxBuffer
  rxBufferBase : RxId
  rxBufferPtr : RxId
  /-- The card: where it stores the next frame, whether it receives, FR and RNR. -/
  pos : RxId
  ready : Bool
  fr : Bool
  rnr : Bool
  log : List Event

/-! ## The driver -/

def initRxb (rxBuf : RxBuffer) : RxBuffer :=
  { rxBuf with status := 0, size := ethDataLen, command := actionHdrCmdEl ||| actionHdrCmdS }

/-- The buffers after the loop of `i8255x_setup_rfa`, the last one linked to the first. -/
def setupRfa (i : RxId) : RxBuffer where
  status := 0
  command := if i = Fin.last 4 then actionHdrCmdEl ||| actionHdrCmdS else 0
  linkAddr := i + 1
  size := ethDataLen
  frame := fun _ => 0

/-- `RUC_START` at an address. -/
def rucStart (s : Nic) (p : RxId) : Nic := { s with pos := p, ready := true }

/-- The ring as the initialisation of the driver leaves it. -/
def driverInit : Nic :=
  rucStart
    { bufs := setupRfa, rxBufferBase := 0, rxBufferPtr := 0, pos := 0, ready := false,
      fr := false, rnr := false, log := [] } 0

/-- Pass a frame to `_knet_process_frame`. -/
def pass (s : Nic) (rxBuf : RxId) : Nic :=
  { s with log := s.log ++ [.passed rxBuf (s.bufs rxBuf).frame] }

/-- `i8255x_init_rxb` on a buffer of the ring. -/
def recycle (s : Nic) (rxBuf : RxId) : Nic :=
  { s with bufs := update s.bufs rxBuf (initRxb (s.bufs rxBuf)) }

/-- The loop of the handler from `rxBuf` on, for at most so many turns.  It stores where
it ends in `rx_buffer_ptr`. -/
def frLoop : Nat → Nic → RxId → Option Nic
  | 0, _, _ => none
  | n + 1, s, rxBuf =>
    let b := s.bufs rxBuf
    if b.status = 0 then some { s with rxBufferPtr := rxBuf }
    -- back at the start
    else if b.linkAddr = s.rxBufferPtr then some { s with rxBufferPtr := rxBuf }
    else
      let s := recycle (pass s rxBuf) rxBuf
      -- the receive unit stopped here
      if b.endOfList then some { s with rxBufferPtr := b.linkAddr }
      else frLoop n s b.linkAddr

/-- The part for RNR: start the receive unit at the buffer behind the last start. -/
def rnrRestart (s : Nic) : Nic :=
  let base := (s.bufs s.rxBufferBase).linkAddr
  rucStart { s with rxBufferBase := base } base

/-- The rest of the handler: RNR, and everything is acknowledged. -/
def serveRnr (s : Nic) : Nic :=
  { (if s.rnr then rnrRestart s else s) with fr := false, rnr := false }

/-- `i8255x_driver_isr`. -/
def driverIsr (s : Nic) : Option Nic :=
  (if s.fr then frLoop (rxBufferCount + 1) s s.rxBufferPtr else some s).map serveRnr

/-! ## The card -/

/-- A frame arrives. -/
def receive (s : Nic) (a : Arrival) : Nic :=
  if s.ready then
    let b := s.bufs s.pos
    { s with
      bufs := update s.bufs s.pos { b with status := a.status, frame := a.frame }
      pos := b.linkAddr
      ready := !b.endOfList
      fr := true
      rnr := s.rnr || b.endOfList
      log := s.log ++ [.filled s.pos a.frame] }
  else { s with rnr := true }

/-- Groups of arrivals, each followed by an interrupt. -/
def run : List (List Arrival) → Nic → Option Nic
  | [], s => some s
  | g :: gs, s => (driverIsr (g.foldl receive s)).bind (run gs)

/-! ## What the log should say -/

def Event.fill? : Event → Option (RxId × Frame)
  | .filled b f => some (b, f)
  | .passed _ _ => none

def Event.pass? : Event → Option (RxId × Frame)
  | .filled _ _ => none
  | .passed b f => some (b, f)

/-- The frames that were stored, in that order, with their buffers. -/
def fills (log : List Event) : List (RxId × Frame) := log.filterMap Event.fill?

/-- The frames that were passed on, in that order, with their buffers. -/
def passes (log : List Event) : List (RxId × Frame) := log.filterMap Event.pass?

/-- How often a buffer occurs in such a list. -/
def times (b : RxId) (l : List (RxId × Frame)) : Nat := l.countP (·.1 = b)

/-- No buffer was filled while a frame stored in it had not been passed on. -/
def Timely (log : List Event) : Prop :=
  ∀ before b f after, log = before ++ .filled b f :: after →
    times b (passes before) = times b (fills before)

/-- Every stored frame was passed on exactly once, in the order of storage, and before
its buffer was filled again. -/
structure EachOnce (log : List Event) : Prop where
  inOrder : passes log = fills log
  timely : Timely log

/-- The condition: with `k` frames received so far, the groups to come bring fewer than a
ring full in total, or the group that fills the ring is not the first one with a frame in
it and nothing arrives after it. -/
def OneLap : Nat → List (List Arrival) → Prop
  | _, [] => True
  | k, g :: gs =>
    if k + g.length < rxBufferCount then OneLap (k + g.length) gs
    else 0 < k ∧ gs.flatten = []

section log
variable (log : List Event) (b : RxId) (f : Frame)

@[simp] theorem fills_filled : fills (log ++ [.filled b f]) = fills log ++ [(b, f)] := by
  simp [fills, Event.fill?]

@[simp] theorem fills_passed : fills (log ++ [.passed b f]) = fills log := by
  simp [fills, Event.fill?]

@[simp] theorem passes_filled : passes (log ++ [.filled b f]) = passes log := by
  simp [passes, Event.pass?]

@[simp] theorem passes_passed : passes (log ++ [.passed b f]) = passes log ++ [(b, f)] := by
  simp [passes, Event.pass?]

variable {log}

/-- The log goes on. -/
theorem Timely.append (h : Timely log) (e : Event)
    (he : ∀ b f, e = .filled b f → times b (passes log) = times b (fills log)) :
    Timely (log ++ [e]) := by
  intro before b f after heq
  rcases List.eq_nil_or_concat after with rfl | ⟨after, e', rfl⟩
  · obtain ⟨rfl, he'⟩ := List.append_inj' heq rfl
    exact he b f (List.singleton_inj.mp he')
  · rw [List.concat_eq_append, ← List.cons_append, ← List.append_assoc] at heq
    exact h before b f after (List.append_inj' heq rfl).1

/-- A frame that is passed on. -/
theorem Timely.passed (h : Timely log) : Timely (log ++ [.passed b f]) :=
  h.append _ fun _ _ he => by cases he

end log

/-! ## The first lap -/

/-- In the first lap: `m` frames have been passed on, and those stored after them wait in
the buffers from `m` on. -/
structure Lap (s : Nic) (m : Nat) (pend : List (RxId × Frame)) : Prop where
  link : ∀ i, (s.bufs i).linkAddr = i + 1
  endOfList : ∀ i, (s.bufs i).endOfList = true ↔ i.val < m ∨ i.val = 4
  status : ∀ i, (s.bufs i).status ≠ 0 ↔ m ≤ i.val ∧ i.val < m + pend.length
  base : s.rxBufferBase = 0
  le : m + pend.length ≤ 5
  pos : s.pos.val = (m + pend.length) % 5
  ready : s.ready = decide (m + pend.length < 5)
  buffers : pend.map (fun x => x.1.val) = List.range' m pend.length
  frames : ∀ x ∈ pend, (s.bufs x.1).frame = x.2
  order : fills s.log = passes s.log ++ pend
  timely : Timely s.log

/-- The buffers are a ring of five. -/
theorem next_val (i : RxId) : (i + 1).val = (i.val + 1) % 5 := by
  simp [Fin.val_add]

/-- A buffer starts as the last one. -/
theorem initRxb_endOfList (b : RxBuffer) : (initRxb b).endOfList = true := by
  have hbits : (actionHdrCmdEl ||| actionHdrCmdS) &&& actionHdrCmdEl ≠ 0 := by decide
  exact decide_eq_true hbits

section lap
variable {s : Nic} {m : Nat} {pend : List (RxId × Frame)}

/-- The buffers that wait are those between the two counts. -/
theorem Lap.mem_buffers (h : Lap s m pend) {x : RxId × Frame} (hx : x ∈ pend) :
    m ≤ x.1.val ∧ x.1.val < m + pend.length := by
  have hmem := List.mem_map_of_mem (f := fun x => x.1.val) hx
  rw [h.buffers, List.mem_range'_1] at hmem
  exact hmem

/-- A frame arrives while the ring has room. -/
theorem Lap.fill (h : Lap s m pend) (a : Arrival) (hk : m + pend.length < 5) :
    Lap (receive s a) m (pend ++ [(s.pos, a.frame)]) := by
  have hpos : s.pos.val = m + pend.length := by rw [h.pos, Nat.mod_eq_of_lt hk]
  have hready : s.ready = true := by rw [h.ready, decide_eq_true hk]
  have hne : ∀ x ∈ pend, x.1 ≠ s.pos := by
    intro x hx heq
    have := h.mem_buffers hx
    rw [heq] at this
    omega
  have hother : ∀ i, i ≠ s.pos → (receive s a).bufs i = s.bufs i := by
    intro i hi
    simp [receive, hready, hi]
  have hself : (receive s a).bufs s.pos =
      { s.bufs s.pos with status := a.status, frame := a.frame } := by
    simp [receive, hready]
  have hlog : (receive s a).log = s.log ++ [.filled s.pos a.frame] := by
    simp [receive, hready]
  have hpending : times s.pos pend = 0 := by
    refine List.countP_eq_zero.mpr fun x hx => ?_
    simpa using hne x hx
  have hel : (s.bufs s.pos).endOfList = decide (m + pend.length = 4) := by
    have hiff := h.endOfList s.pos
    grind
  constructor
  case link =>
    intro i
    by_cases hi : i = s.pos
    · rw [hi, hself]
      exact h.link s.pos
    · rw [hother i hi]
      exact h.link i
  case endOfList =>
    intro i
    by_cases hi : i = s.pos
    · rw [hi, hself]
      exact h.endOfList s.pos
    · rw [hother i hi]
      exact h.endOfList i
  case status =>
    intro i
    rw [List.length_append, List.length_singleton]
    by_cases hi : i = s.pos
    · rw [hi, hself]
      have := a.nonzero
      simp only [ne_eq, this, not_false_eq_true, true_iff]
      omega
    · have hval : i.val ≠ s.pos.val := fun heq => hi (Fin.ext heq)
      rw [hother i hi, h.status i]
      omega
  case base =>
    simpa [receive, hready] using h.base
  case le =>
    rw [List.length_append, List.length_singleton]
    omega
  case pos =>
    have hnext : (receive s a).pos = s.pos + 1 := by
      simp [receive, hready, h.link]
    rw [hnext, next_val, hpos, List.length_append, List.length_singleton, Nat.add_assoc]
  case ready =>
    have hnext : (receive s a).ready = !(s.bufs s.pos).endOfList := by
      simp [receive, hready]
    rw [hnext, hel, List.length_append, List.length_singleton]
    grind
  case buffers =>
    rw [List.map_append, h.buffers, List.length_append, List.length_singleton,
      List.range'_concat]
    simp [hpos]
  case frames =>
    intro x hx
    rcases List.mem_append.mp hx with hx | hx
    · rw [hother _ (hne x hx)]
      exact h.frames x hx
    · rw [List.mem_singleton.mp hx, hself]
  case order =>
    rw [hlog, fills_filled, passes_filled, h.order, List.append_assoc]
  case timely =>
    rw [hlog]
    refine h.timely.append _ fun b f he => ?_
    cases he
    rw [h.order, times, times, List.countP_append]
    exact (Nat.add_eq_left.mpr hpending).symm

/-- The first waiting frame is passed on and its buffer recycled. -/
theorem Lap.passOne {x : RxId × Frame} (h : Lap s m (x :: pend)) :
    Lap (recycle (pass s x.1) x.1) (m + 1) pend := by
  have hlen : m + (x :: pend).length = m + 1 + pend.length := by
    rw [List.length_cons]
    omega
  have hfront : x.1.val = m ∧ pend.map (fun x => x.1.val) = List.range' (m + 1) pend.length := by
    have hb := h.buffers
    rw [List.map_cons, List.length_cons, List.range'_succ] at hb
    exact List.cons_eq_cons.mp hb
  have hframe : (s.bufs x.1).frame = x.2 := h.frames x List.mem_cons_self
  have hother : ∀ i, i ≠ x.1 → (recycle (pass s x.1) x.1).bufs i = s.bufs i := by
    intro i hi
    simp [recycle, pass, hi]
  have hself : (recycle (pass s x.1) x.1).bufs x.1 = initRxb (s.bufs x.1) := by
    simp [recycle, pass]
  have hlog : (recycle (pass s x.1) x.1).log = s.log ++ [.passed x.1 x.2] := by
    simp [recycle, pass, hframe]
  constructor
  case link =>
    intro i
    by_cases hi : i = x.1
    · rw [hi, hself]
      exact h.link x.1
    · rw [hother i hi]
      exact h.link i
  case endOfList =>
    intro i
    by_cases hi : i = x.1
    · rw [hi, hself, hfront.1]
      simp [initRxb_endOfList]
    · have hval : i.val ≠ x.1.val := fun heq => hi (Fin.ext heq)
      rw [hother i hi, h.endOfList i]
      omega
  case status =>
    intro i
    by_cases hi : i = x.1
    · rw [hi, hself, hfront.1]
      simp [initRxb]
    · have hval : i.val ≠ x.1.val := fun heq => hi (Fin.ext heq)
      rw [hother i hi, h.status i]
      omega
  case base => exact h.base
  case le => exact hlen ▸ h.le
  case pos => exact hlen ▸ h.pos
  case ready => exact hlen ▸ h.ready
  case buffers => exact hfront.2
  case frames =>
    intro y hy
    have hne : y.1 ≠ x.1 := by
      intro heq
      have hmem := List.mem_map_of_mem (f := fun x => x.1.val) hy
      rw [hfront.2, List.mem_range'_1, heq] at hmem
      omega
    rw [hother _ hne]
    exact h.frames y (List.mem_cons_of_mem _ hy)
  case order =>
    rw [hlog, fills_passed, passes_passed, h.order, List.append_assoc]
    rfl
  case timely =>
    rw [hlog]
    exact h.timely.passed _ _

/-- Where the driver ends does not matter to the rest. -/
theorem Lap.setPtr (h : Lap s m pend) (p : RxId) : Lap { s with rxBufferPtr := p } m pend :=
  ⟨h.link, h.endOfList, h.status, h.base, h.le, h.pos, h.ready, h.buffers, h.frames, h.order,
    h.timely⟩

/-- The buffer behind the last one passed on is the first that waits. -/
theorem Lap.first {x : RxId × Frame} (h : Lap s m (x :: pend)) : x.1.val = m := by
  have hb := h.buffers
  rw [List.map_cons, List.length_cons, List.range'_succ] at hb
  exact (List.cons_eq_cons.mp hb).1

/-- A buffer that is empty says so. -/
theorem Lap.status_eq_zero (h : Lap s m []) (i : RxId) : (s.bufs i).status = 0 := by
  by_contra hne
  have := (h.status i).mp hne
  rw [List.length_nil] at this
  omega

/-- The turns of the loop suffice. -/
theorem Lap.fuel (h : Lap s m pend) : pend.length < rxBufferCount + 1 :=
  Nat.lt_succ_of_le (Nat.le_trans (Nat.le_add_left _ _) h.le)

/-- One turn of the loop: the frame is passed on, and the loop ends behind the buffer that
is marked as the end of the list. -/
theorem Lap.turn {x : RxId × Frame} (h : Lap s m (x :: pend)) (n : Nat)
    (hback : x.1 + 1 ≠ s.rxBufferPtr) :
    frLoop (n + 1) s x.1 =
      if m = 4 then some { recycle (pass s x.1) x.1 with rxBufferPtr := x.1 + 1 }
      else frLoop n (recycle (pass s x.1) x.1) (x.1 + 1) := by
  have hmem := h.mem_buffers List.mem_cons_self
  have hstatus : (s.bufs x.1).status ≠ 0 := (h.status x.1).mpr hmem
  have hel : (s.bufs x.1).endOfList = decide (m = 4) := by
    have hiff := h.endOfList x.1
    have := h.first
    grind
  simp [frLoop, hstatus, h.link, hback, hel]

/-- The loop of the handler, unless it can run into the buffer it started from. -/
theorem Lap.passAll (h : Lap s m pend) (hm : m < 5) {n : Nat} (hn : pend.length < n)
    (hptr : s.rxBufferPtr.val ≤ m) (hgo : s.rxBufferPtr.val ≠ 0 ∨ m + pend.length < 5)
    {rxBuf : RxId} (hbuf : rxBuf.val = m) :
    ∃ s', frLoop n s rxBuf = some s' ∧ Lap s' (m + pend.length) [] ∧
      s'.rxBufferPtr.val = (m + pend.length) % 5 ∧ s'.rnr = s.rnr := by
  obtain ⟨n, rfl⟩ : ∃ n', n = n' + 1 := ⟨n - 1, by omega⟩
  induction pend generalizing s m n rxBuf with
  | nil =>
    refine ⟨{ s with rxBufferPtr := rxBuf }, ?_, h.setPtr _, ?_, rfl⟩
    · simp [frLoop, h.status_eq_zero]
    · simpa [Nat.mod_eq_of_lt hm] using hbuf
  | cons x pend ih =>
    have hfirst := h.first
    have hle := h.le
    have hnext := next_val x.1
    rw [List.length_cons] at hle hn hgo
    obtain rfl : rxBuf = x.1 := Fin.ext (by omega)
    have hback : x.1 + 1 ≠ s.rxBufferPtr := by
      intro heq
      rw [heq] at hnext
      omega
    have hdel := h.passOne
    rw [h.turn n hback, List.length_cons]
    by_cases h4 : m = 4
    · obtain rfl : pend = [] := List.eq_nil_of_length_eq_zero (by omega)
      subst h4
      refine ⟨_, if_pos rfl, hdel.setPtr _, ?_, rfl⟩
      show (x.1 + 1).val = _
      rw [hnext, hfirst]
      rfl
    · rw [if_neg h4]
      obtain ⟨n, rfl⟩ : ∃ n', n = n' + 1 := ⟨n - 1, by omega⟩
      have hsum : m + (pend.length + 1) = m + 1 + pend.length := by omega
      rw [hsum]
      exact ih hdel (by omega) (Nat.le_succ_of_le hptr) (hsum ▸ hgo) (by omega) n (by omega)

/-- If the loop starts from a full ring, it leaves the last buffer waiting. -/
theorem Lap.passAllButOne (h : Lap s m pend) (hfull : m + pend.length = 5) (hm : m < 5) {n : Nat}
    (hn : pend.length < n) (hptr : s.rxBufferPtr = 0) {rxBuf : RxId} (hbuf : rxBuf.val = m) :
    ∃ s' x, frLoop n s rxBuf = some s' ∧ Lap s' 4 [x] ∧ s'.rnr = s.rnr := by
  obtain ⟨n, rfl⟩ : ∃ n', n = n' + 1 := ⟨n - 1, by omega⟩
  induction pend generalizing s m n rxBuf with
  | nil => simp at hfull; omega
  | cons x pend ih =>
    have hfirst := h.first
    have hnext := next_val x.1
    rw [List.length_cons] at hn hfull
    obtain rfl : rxBuf = x.1 := Fin.ext (by omega)
    by_cases h4 : m = 4
    · obtain rfl : pend = [] := List.eq_nil_of_length_eq_zero (by omega)
      subst h4
      refine ⟨{ s with rxBufferPtr := x.1 }, x, ?_, h.setPtr _, rfl⟩
      have hstatus := (h.status x.1).mpr (h.mem_buffers List.mem_cons_self)
      have hback : x.1 + 1 = s.rxBufferPtr := by
        rw [hptr]
        exact Fin.ext (by rw [hnext, hfirst]; rfl)
      simp [frLoop, hstatus, h.link, hback]
    · have hback : x.1 + 1 ≠ s.rxBufferPtr := by
        intro heq
        rw [heq, hptr] at hnext
        simp at hnext
        omega
      rw [h.turn n hback, if_neg h4]
      obtain ⟨n, rfl⟩ : ∃ n', n = n' + 1 := ⟨n - 1, by omega⟩
      exact ih h.passOne (by omega) (by omega) hptr (by omega) n (by omega)

end lap

/-! ## After the first stop -/

/-- Once every buffer is marked as the end of the list, the card stops at each frame, and
each interrupt passes on at most one. -/
structure Stopping (s : Nic) : Prop where
  link : ∀ i, (s.bufs i).linkAddr = i + 1
  endOfList : ∀ i, (s.bufs i).endOfList = true
  ready : s.ready = true
  fr : s.fr = false
  rnr : s.rnr = false

/-- The number of stored frames that have not been passed on does not get smaller. -/
def Behind (s s' : Nic) : Prop :=
  (fills s.log).length + (passes s'.log).length ≤ (fills s'.log).length + (passes s.log).length

/-- A card that has stopped drops what arrives. -/
theorem foldl_receive_of_not_ready {s : Nic} (hready : s.ready = false) (hrnr : s.rnr = true)
    (g : List Arrival) : g.foldl receive s = s := by
  have hone : ∀ a, receive s a = s := by
    intro a
    cases s
    simp_all [receive]
  induction g with
  | nil => rfl
  | cons a g ih => rw [List.foldl_cons, hone, ih]

/-- An interrupt without FR and RNR leaves the ring alone. -/
theorem driverIsr_idle {s : Nic} (hfr : s.fr = false) (hrnr : s.rnr = false) :
    driverIsr s = some s := by
  cases s
  simp_all [driverIsr, serveRnr]

/-- The receiver is started again after it has run out of buffers. -/
theorem serveRnr_of_rnr {s : Nic} (h : s.rnr = true) :
    serveRnr s = { rnrRestart s with fr := false, rnr := false } := by
  rw [serveRnr, if_pos h]

/-- Without frames and causes nothing happens. -/
theorem run_idle {s : Nic} (hfr : s.fr = false) (hrnr : s.rnr = false)
    {gs : List (List Arrival)} (h : gs.flatten = []) : run gs s = some s := by
  induction gs with
  | nil => rfl
  | cons g gs ih =>
    rw [List.flatten_cons, List.append_eq_nil_iff] at h
    rw [run, h.1, List.foldl_nil, driverIsr_idle hfr hrnr, Option.bind_some, ih h.2]

section stopping
variable {s : Nic}

/-- The loop passes on at most one frame, and none if the next buffer is empty. -/
theorem Stopping.loop (link : ∀ i, (s.bufs i).linkAddr = i + 1)
    (hel : ∀ i, (s.bufs i).endOfList = true) :
    ∃ s', frLoop (rxBufferCount + 1) s s.rxBufferPtr = some s' ∧
      (∀ i, (s'.bufs i).linkAddr = i + 1) ∧ (∀ i, (s'.bufs i).endOfList = true) ∧
      s'.rnr = s.rnr ∧ fills s'.log = fills s.log ∧
      (passes s'.log).length ≤ (passes s.log).length + 1 ∧
      ((s.bufs s.rxBufferPtr).status = 0 → passes s'.log = passes s.log) := by
  by_cases hstatus : (s.bufs s.rxBufferPtr).status = 0
  · refine ⟨{ s with rxBufferPtr := s.rxBufferPtr }, ?_, link, hel, rfl, rfl, ?_, ?_⟩
    · simp [frLoop, hstatus]
    · exact Nat.le_succ _
    · intro _
      rfl
  · have hback : s.rxBufferPtr + 1 ≠ s.rxBufferPtr := by
      intro heq
      have hnext := next_val s.rxBufferPtr
      rw [heq] at hnext
      omega
    refine ⟨{ recycle (pass s s.rxBufferPtr) s.rxBufferPtr with
      rxBufferPtr := s.rxBufferPtr + 1 }, ?_, ?_, ?_, rfl, ?_, ?_, ?_⟩
    · simp [frLoop, hstatus, link, hback, hel]
    · intro i
      by_cases hi : i = s.rxBufferPtr
      · rw [hi]
        simp [recycle, pass, initRxb, link]
      · simp [recycle, pass, hi, link]
    · intro i
      by_cases hi : i = s.rxBufferPtr
      · rw [hi]
        simp [recycle, pass, initRxb_endOfList]
      · simp [recycle, pass, hi, hel]
    · simp [recycle, pass]
    · simp [recycle, pass]
    · intro h
      exact absurd h hstatus

/-- A group with a frame in it: one frame is stored. -/
theorem Stopping.group (h : Stopping s) (a : Arrival) (g : List Arrival) :
    ∃ s', driverIsr ((a :: g).foldl receive s) = some s' ∧ Stopping s' ∧
      (fills s'.log).length = (fills s.log).length + 1 ∧
      (passes s'.log).length ≤ (passes s.log).length + 1 ∧
      ((s.bufs s.rxBufferPtr).status = 0 → s.rxBufferPtr ≠ s.pos →
        passes s'.log = passes s.log) := by
  have hstop : (receive s a).ready = false := by simp [receive, h.ready, h.endOfList]
  have hrnr : (receive s a).rnr = true := by simp [receive, h.ready, h.endOfList]
  have hfr : (receive s a).fr = true := by simp [receive, h.ready]
  have hptr : (receive s a).rxBufferPtr = s.rxBufferPtr := by simp [receive, h.ready]
  have hlog : (receive s a).log = s.log ++ [.filled s.pos a.frame] := by
    simp [receive, h.ready]
  have hbufs : ∀ i, ((receive s a).bufs i).linkAddr = i + 1 ∧
      ((receive s a).bufs i).endOfList = true := by
    intro i
    by_cases hi : i = s.pos
    · rw [hi]
      have hel : (s.bufs s.pos).endOfList = true := h.endOfList s.pos
      constructor
      · simp [receive, h.ready, h.link]
      · simpa [receive, h.ready, RxBuffer.endOfList] using hel
    · simp [receive, h.ready, hi, h.link, h.endOfList]
  obtain ⟨s', hloop, hlink, hel, hrnr', hfills, hle, hnone⟩ :=
    Stopping.loop (fun i => (hbufs i).1) fun i => (hbufs i).2
  rw [hlog, fills_filled] at hfills
  rw [hlog, passes_filled] at hle hnone
  rw [List.foldl_cons, foldl_receive_of_not_ready hstop hrnr, driverIsr, if_pos hfr, hloop]
  rw [hrnr] at hrnr'
  have hserve := serveRnr_of_rnr hrnr'
  refine ⟨serveRnr s', rfl, ?_, ?_, ?_, ?_⟩
  · rw [hserve]
    exact ⟨hlink, hel, rfl, rfl, rfl⟩
  · rw [hserve]
    show (fills s'.log).length = _
    rw [hfills, List.length_append, List.length_singleton]
  · rw [hserve]
    exact hle
  · intro hstatus hne
    rw [hserve]
    refine hnone ?_
    rw [hptr]
    simpa [receive, h.ready, hne] using hstatus

/-- Frames that have not been passed on are never caught up with. -/
theorem Stopping.run_behind (h : Stopping s) (gs : List (List Arrival)) :
    ∃ s', run gs s = some s' ∧ Behind s s' := by
  induction gs generalizing s with
  | nil => exact ⟨s, rfl, Nat.le_refl _⟩
  | cons g gs ih =>
    rcases g with _ | ⟨a, g⟩
    · obtain ⟨s', hrun, hbehind⟩ := ih h
      refine ⟨s', ?_, hbehind⟩
      rw [run, List.foldl_nil, driverIsr_idle h.fr h.rnr, Option.bind_some, hrun]
    · obtain ⟨s₁, hisr, hs₁, hfills, hpasses, -⟩ := h.group a g
      obtain ⟨s', hrun, hbehind⟩ := ih hs₁
      refine ⟨s', ?_, ?_⟩
      · rw [run, hisr, Option.bind_some, hrun]
      · unfold Behind at *
        omega

/-- From a stop with nothing waiting, where the card stores the next frame behind the
buffer that the driver looks at: the next frame is missed. -/
theorem Stopping.run_misses (h : Stopping s) (heq : (passes s.log).length = (fills s.log).length)
    (hstatus : (s.bufs s.rxBufferPtr).status = 0) (hne : s.rxBufferPtr ≠ s.pos)
    {gs : List (List Arrival)} (hgs : gs.flatten ≠ []) :
    ∃ s', run gs s = some s' ∧ (passes s'.log).length < (fills s'.log).length := by
  induction gs with
  | nil => exact absurd rfl hgs
  | cons g gs ih =>
    rcases g with _ | ⟨a, g⟩
    · obtain ⟨s', hrun, hlt⟩ := ih (by simpa using hgs)
      refine ⟨s', ?_, hlt⟩
      rw [run, List.foldl_nil, driverIsr_idle h.fr h.rnr, Option.bind_some, hrun]
    · obtain ⟨s₁, hisr, hs₁, hfills, -, hnone⟩ := h.group a g
      obtain ⟨s', hrun, hbehind⟩ := hs₁.run_behind gs
      have hsame := congrArg List.length (hnone hstatus hne)
      refine ⟨s', ?_, ?_⟩
      · rw [run, hisr, Option.bind_some, hrun]
      · unfold Behind at hbehind
        omega

end stopping

/-! ## Runs -/

/-- Between two interrupts of the first lap: all that was stored has been passed on. -/
structure Started (s : Nic) (k : Nat) : Prop where
  lap : Lap s k []
  lt : k < 5
  ptr : s.rxBufferPtr.val = k
  fr : s.fr = false
  rnr : s.rnr = false

/-- In a lap every frame is passed on once. -/
theorem Lap.eachOnce {s : Nic} {k : Nat} (h : Lap s k []) : EachOnce s.log :=
  ⟨by rw [h.order, List.append_nil], h.timely⟩

/-- **After set-up** the first buffer is next. -/
theorem started_driverInit : Started driverInit 0 where
  lap := by
    constructor
    case link => intro i; rfl
    case endOfList => decide
    case status => decide
    case base => rfl
    case le => decide
    case pos => rfl
    case ready => rfl
    case buffers => rfl
    case frames => intro x hx; cases hx
    case order => rfl
    case timely => intro before b f after heq; simp [driverInit, rucStart] at heq
  lt := by decide
  ptr := rfl
  fr := rfl
  rnr := rfl

/-- A group of arrivals in the first lap: those that find room are stored. -/
theorem Lap.fillAll {s : Nic} {m : Nat} {pend : List (RxId × Frame)} (h : Lap s m pend)
    (hfr : s.fr = decide (pend ≠ [])) (hrnr : s.rnr = decide (m + pend.length = 5))
    (g : List Arrival) :
    ∃ pend', Lap (g.foldl receive s) m pend' ∧
      m + pend'.length = min 5 (m + pend.length + g.length) ∧
      (g.foldl receive s).fr = decide (pend' ≠ []) ∧
      (g.foldl receive s).rnr = decide (m + pend'.length = 5) ∧
      (g.foldl receive s).rxBufferPtr = s.rxBufferPtr := by
  induction g generalizing s pend with
  | nil =>
    have hle := h.le
    refine ⟨pend, h, ?_, hfr, hrnr, rfl⟩
    rw [List.length_nil]
    omega
  | cons a g ih =>
    have hle := h.le
    by_cases hk : m + pend.length < 5
    · have hready : s.ready = true := by rw [h.ready, decide_eq_true hk]
      have hpos : s.pos.val = m + pend.length := by rw [h.pos, Nat.mod_eq_of_lt hk]
      have hfr' : (receive s a).fr = decide (pend ++ [(s.pos, a.frame)] ≠ []) := by
        simp [receive, hready]
      have hrnr' : (receive s a).rnr = decide (m + (pend ++ [(s.pos, a.frame)]).length = 5) := by
        have hiff := h.endOfList s.pos
        rw [decide_eq_false (by omega)] at hrnr
        simp only [receive, hready, if_true, hrnr, Bool.false_or, List.length_append,
          List.length_singleton]
        grind
      have hptr : (receive s a).rxBufferPtr = s.rxBufferPtr := by simp [receive, hready]
      obtain ⟨pend', hlap, hlen, hrest⟩ := ih (h.fill a hk) hfr' hrnr'
      rw [hptr] at hrest
      refine ⟨pend', hlap, ?_, hrest⟩
      rw [hlen, List.length_append, List.length_singleton, List.length_cons]
      omega
    · have hready : s.ready = false := by rw [h.ready, decide_eq_false hk]
      have hfull : s.rnr = true := by rw [hrnr, decide_eq_true (by omega)]
      rw [foldl_receive_of_not_ready hready hfull]
      refine ⟨pend, h, ?_, hfr, hrnr, rfl⟩
      omega

/-- The restart after the first stop, wherever the driver's own pointer is. -/
theorem Lap.restart {s : Nic} {m : Nat} {pend : List (RxId × Frame)} (h : Lap s m pend)
    (hm : 4 ≤ m) (hrnr : s.rnr = true) :
    Stopping (serveRnr s) ∧ (serveRnr s).pos = 1 ∧ (serveRnr s).bufs = s.bufs ∧
      (serveRnr s).log = s.log ∧ (serveRnr s).rxBufferPtr = s.rxBufferPtr := by
  rw [serveRnr_of_rnr hrnr]
  have hel : ∀ i, (s.bufs i).endOfList = true := by
    intro i
    have hi : i.val < 5 := i.isLt
    rw [h.endOfList]
    omega
  refine ⟨⟨h.link, hel, rfl, rfl, rfl⟩, ?_, rfl, rfl, rfl⟩
  show (s.bufs s.rxBufferBase).linkAddr = 1
  rw [h.base, h.link]
  rfl

section started
variable {s : Nic} {k : Nat} {g : List Arrival}

/-- What a group of arrivals leaves to the interrupt. -/
theorem Started.fillAll (h : Started s k) (g : List Arrival) :
    ∃ pend, Lap (g.foldl receive s) k pend ∧ k + pend.length = min 5 (k + g.length) ∧
      (g.foldl receive s).fr = decide (pend ≠ []) ∧
      (g.foldl receive s).rnr = decide (k + pend.length = 5) ∧
      (g.foldl receive s).rxBufferPtr = s.rxBufferPtr := by
  have hlt := h.lt
  have hrnr : s.rnr = decide (k + 0 = 5) := by rw [h.rnr, decide_eq_false (by omega)]
  exact h.lap.fillAll h.fr hrnr g

/-- A group that leaves room in the ring. -/
theorem Started.group_room (h : Started s k) (hk : k + g.length < 5) :
    ∃ s', driverIsr (g.foldl receive s) = some s' ∧ Started s' (k + g.length) := by
  obtain ⟨pend, hlap, hlen, hfr, hrnr, hptr⟩ := h.fillAll g
  have hsum : k + pend.length = k + g.length := by omega
  rw [decide_eq_false (by omega)] at hrnr
  by_cases hpend : pend = []
  · subst hpend
    rw [decide_eq_false (by simp)] at hfr
    rw [List.length_nil] at hsum
    refine ⟨_, driverIsr_idle hfr hrnr, ?_⟩
    rw [← hsum]
    exact ⟨hlap, h.lt, by rw [hptr, h.ptr, Nat.add_zero], hfr, hrnr⟩
  · rw [decide_eq_true hpend] at hfr
    obtain ⟨s', hloop, hlap', hptr', hrnr'⟩ := hlap.passAll h.lt
      hlap.fuel (by rw [hptr, h.ptr]) (.inr (by omega))
      (by rw [hptr, h.ptr] : (g.foldl receive s).rxBufferPtr.val = k)
    rw [hrnr] at hrnr'
    refine ⟨{ s' with fr := false, rnr := false }, ?_, ?_⟩
    · rw [driverIsr, if_pos hfr, hloop, Option.map_some, serveRnr, if_neg (by simp [hrnr'])]
    · rw [← hsum]
      refine ⟨?_, by omega, ?_, rfl, rfl⟩
      · exact ⟨hlap'.link, hlap'.endOfList, hlap'.status, hlap'.base, hlap'.le, hlap'.pos,
          hlap'.ready, hlap'.buffers, hlap'.frames, hlap'.order, hlap'.timely⟩
      · rw [hptr', Nat.mod_eq_of_lt (by omega)]

/-- A group that fills the ring up, when some of it has been used before. -/
theorem Started.group_full (h : Started s k) (hk : 5 ≤ k + g.length) (hpos : 0 < k) :
    ∃ s', driverIsr (g.foldl receive s) = some s' ∧ Stopping s' ∧ EachOnce s'.log ∧
      (s'.bufs s'.rxBufferPtr).status = 0 ∧ s'.rxBufferPtr ≠ s'.pos := by
  obtain ⟨pend, hlap, hlen, hfr, hrnr, hptr⟩ := h.fillAll g
  have hlt := h.lt
  have hsum : k + pend.length = 5 := by omega
  have hpend : pend ≠ [] := by
    intro heq
    rw [heq, List.length_nil] at hsum
    omega
  rw [decide_eq_true hpend] at hfr
  rw [decide_eq_true hsum] at hrnr
  have hstart : (g.foldl receive s).rxBufferPtr.val = k := by rw [hptr, h.ptr]
  obtain ⟨s', hloop, hlap', hptr', hrnr'⟩ := hlap.passAll hlt
    hlap.fuel (by omega) (.inl (by omega)) hstart
  rw [hsum] at hlap' hptr'
  obtain ⟨hstop, hpos', hbufs, hlog, hptr''⟩ := hlap'.restart (by omega) (hrnr'.trans hrnr)
  refine ⟨serveRnr s', ?_, hstop, ?_, ?_, ?_⟩
  · rw [driverIsr, if_pos hfr, hloop, Option.map_some]
  · rw [hlog]
    exact hlap'.eachOnce
  · rw [hbufs]
    exact hlap'.status_eq_zero _
  · rw [hpos', hptr'']
    intro heq
    rw [heq] at hptr'
    exact absurd hptr' (by decide)

/-- A first group that fills the whole ring: the loop comes back to where it started. -/
theorem Started.group_lap (h : Started s 0) (hk : 5 ≤ g.length) :
    ∃ s', driverIsr (g.foldl receive s) = some s' ∧ Stopping s' ∧
      (passes s'.log).length < (fills s'.log).length := by
  obtain ⟨pend, hlap, hlen, hfr, hrnr, hptr⟩ := h.fillAll g
  have hsum : 0 + pend.length = 5 := by omega
  have hpend : pend ≠ [] := by
    intro heq
    rw [heq, List.length_nil] at hsum
    omega
  rw [decide_eq_true hpend] at hfr
  rw [decide_eq_true hsum] at hrnr
  have hstart : (g.foldl receive s).rxBufferPtr = 0 := by
    rw [hptr]
    exact Fin.ext h.ptr
  obtain ⟨s', x, hloop, hlap', hrnr'⟩ := hlap.passAllButOne hsum (by omega)
    hlap.fuel hstart (congrArg Fin.val hstart)
  obtain ⟨hstop, -, -, hlog, -⟩ := hlap'.restart (by omega) (hrnr'.trans hrnr)
  refine ⟨serveRnr s', ?_, hstop, ?_⟩
  · rw [driverIsr, if_pos hfr, hloop, Option.map_some]
  · rw [hlog, hlap'.order, List.length_append, List.length_singleton]
    omega

/-- The runs of the ring from any point of the first lap. -/
theorem Started.run_eachOnce_iff (h : Started s k) (gs : List (List Arrival)) :
    ∃ s', run gs s = some s' ∧ (EachOnce s'.log ↔ OneLap k gs) := by
  induction gs generalizing s k with
  | nil => exact ⟨s, rfl, iff_of_true h.lap.eachOnce trivial⟩
  | cons g gs ih =>
    rw [run, OneLap]
    by_cases hk : k + g.length < rxBufferCount
    · obtain ⟨s₁, hisr, hs₁⟩ := h.group_room hk
      rw [if_pos hk, hisr, Option.bind_some]
      exact ih hs₁
    · rw [if_neg hk]
      have hk' : 5 ≤ k + g.length := Nat.not_lt.mp hk
      rcases Nat.eq_zero_or_pos k with rfl | hpos
      · rw [Nat.zero_add] at hk'
        obtain ⟨s₁, hisr, hs₁, hlt⟩ := h.group_lap hk'
        obtain ⟨s', hrun, hbehind⟩ := hs₁.run_behind gs
        rw [hisr, Option.bind_some]
        refine ⟨s', hrun, iff_of_false ?_ (by omega)⟩
        intro hall
        rw [Behind, hall.inOrder] at hbehind
        omega
      · obtain ⟨s₁, hisr, hs₁, hall, hstatus, hne⟩ := h.group_full hk' hpos
        rw [hisr, Option.bind_some]
        by_cases hgs : gs.flatten = []
        · exact ⟨s₁, run_idle hs₁.fr hs₁.rnr hgs, iff_of_true hall ⟨hpos, hgs⟩⟩
        · obtain ⟨s', hrun, hlt⟩ :=
            hs₁.run_misses (congrArg List.length hall.inOrder) hstatus hne hgs
          refine ⟨s', hrun, iff_of_false ?_ fun h => hgs h.2⟩
          intro hall'
          rw [hall'.inOrder] at hlt
          omega

end started

/-- **Every received frame is delivered once and in order for one lap of the ring only.**
From the ring as the driver sets it up, for every sequence of arrivals and every grouping
into interrupts: exactly the runs of the stated kind pass on each stored frame once, in
order, and before its buffer is filled again. -/
theorem frames_delivered_iff (gs : List (List Arrival)) :
    ∃ s, run gs driverInit = some s ∧ (EachOnce s.log ↔ OneLap 0 gs) :=
  started_driverInit.run_eachOnce_iff gs

/-- An arrival whose bytes are all `x`. -/
def arrivalOf (x : UInt8) : Arrival := ⟨fun _ => x, 0xA000, by decide⟩

/-- Five frames arrive, two before a first interrupt and three before the next, and then
one more: it is stored in the second buffer while the driver looks at the first. -/
theorem frame_after_lap_missed :
    ¬ ∀ gs : List (List Arrival), ∃ s, run gs driverInit = some s ∧ EachOnce s.log := by
  intro h
  obtain ⟨s, hrun, hall⟩ :=
    h [[arrivalOf 1, arrivalOf 2], [arrivalOf 3, arrivalOf 4, arrivalOf 5], [arrivalOf 6]]
  obtain ⟨s', hrun', hiff⟩ := started_driverInit.run_eachOnce_iff
    [[arrivalOf 1, arrivalOf 2], [arrivalOf 3, arrivalOf 4, arrivalOf 5], [arrivalOf 6]]
  rw [hrun, Option.some_inj] at hrun'
  subst hrun'
  exact absurd (hiff.mp hall) (by simp [OneLap])

end Cumulonimbus.I8255x
