import Cumulonimbus.SerialInput

/-!
# Serial output as a queue of bytes

The output buffer of `sio.c` has no bound of its own: `_sio_writec` stores at `_outlast`
without looking at the count, and only the interrupt that finds nothing left to send puts
the pointers back to the start.  The read pointer wraps around at the end of the array
and the write pointer does not.  So the buffer is a queue exactly as long as no more than
`BUF_SIZE` bytes are queued between two moments at which the transmitter is idle
(`output_fifo_iff`).
-/

namespace Cumulonimbus

/-- What happens to the output buffer. -/
inductive OutEvent
  | writec (ch : UInt32)
  | txInterrupt

/-- The bytes that a written character stands for: a line feed is sent as carriage return
and line feed. -/
def crLf (ch : UInt32) : List UInt8 := if ch = 10 then [13, 10] else [ch.toUInt8]

/-- What one byte, or one interrupt, asks of the output buffer. -/
inductive ByteEvent
  | put (b : UInt8)
  | sent

def OutEvent.bytes : OutEvent → List ByteEvent
  | .writec ch => (crLf ch).map .put
  | .txInterrupt => [.sent]

/-- A run of the output side: the module's state and the places of `_outbuffer` that were
accessed. -/
structure OutRun where
  sio : Sio
  accesses : List Nat

/-- One byte of `_sio_writec`, or the transmitter's branch of `_isr_sio`. -/
def byteStep (r : OutRun) : ByteEvent → OutRun
  | .put b =>
    { sio := sioPut r.sio b
      accesses := r.accesses ++ if r.sio.sending then [r.sio.outlast] else [] }
  | .sent =>
    { sio := sioSent r.sio
      accesses := r.accesses ++
        if r.sio.sending ∧ 0 < r.sio.outcount then [r.sio.outnext] else [] }

def byteRun (es : List ByteEvent) : OutRun := es.foldl byteStep ⟨sioInit, []⟩

/-- The run from the state that `_sio_init` leaves. -/
def outRun (es : List OutEvent) : OutRun := byteRun (es.flatMap OutEvent.bytes)

/-- `_sio_writec` is its bytes, one after the other. -/
theorem sioWritec_eq (s : Sio) (ch : UInt32) : sioWritec s ch = (crLf ch).foldl sioPut s := by
  rw [sioWritec, crLf]
  by_cases hlf : ch = 10
  · subst hlf
    rfl
  · rw [if_neg hlf, if_neg hlf]
    rfl

/-- What an event does to the state of the module. -/
def outStep (s : Sio) : OutEvent → Sio
  | .writec ch => sioWritec s ch
  | .txInterrupt => sioSent s

/-- A run goes through the states that the source's routines leave. -/
theorem outRun_sio (es : List OutEvent) : (outRun es).sio = es.foldl outStep sioInit := by
  have hput : ∀ (l : List UInt8) (r : OutRun),
      ((l.map ByteEvent.put).foldl byteStep r).sio = l.foldl sioPut r.sio := by
    intro l
    induction l with
    | nil => exact fun _ => rfl
    | cons b l ih => exact fun r => ih _
  induction es using List.reverseRecOn with
  | nil => rfl
  | append_singleton es e ih =>
    have hrun : outRun (es ++ [e]) = e.bytes.foldl byteStep (outRun es) := by
      simp [outRun, byteRun]
    rw [hrun, List.foldl_concat, ← ih]
    cases e with
    | writec ch => rw [OutEvent.bytes, hput, outStep, sioWritec_eq]
    | txInterrupt => rfl

/-- The bytes that the next `n` interrupts will send, from place `next` on. -/
def queuedFrom (b : Nat → UInt8) : Nat → Nat → List UInt8
  | 0, _ => []
  | n + 1, next => b next :: queuedFrom b n (if bufSize ≤ next + 1 then 0 else next + 1)

/-- The bytes still queued. -/
def Sio.queued (s : Sio) : List UInt8 := queuedFrom s.outbuffer s.outcount.toNat s.outnext

/-- The transmitter as a queue sees it: whether it is busy, the number of bytes that wait,
and the number of bytes queued since it was last idle. -/
structure Line where
  busy : Bool
  waiting : Nat
  since : Nat

def lineStep (l : Line) : ByteEvent → Line
  | .put _ => if l.busy then { l with waiting := l.waiting + 1, since := l.since + 1 }
    else { l with busy := true }
  | .sent => if l.busy ∧ 0 < l.waiting then { l with waiting := l.waiting - 1 }
    else ⟨false, 0, 0⟩

def lineRun (es : List ByteEvent) : Line := es.foldl lineStep ⟨false, 0, 0⟩

/-- Whenever a byte is written to the busy transmitter, fewer than `BUF_SIZE` have been
queued since it was last idle. -/
def ByteRests (es : List ByteEvent) : Prop :=
  ∀ pre b post, es = pre ++ .put b :: post → (lineRun pre).busy → (lineRun pre).since < bufSize

/-- The same for calls of `_sio_writec`. -/
def Rests (es : List OutEvent) : Prop := ByteRests (es.flatMap OutEvent.bytes)

/-- The bytes written so far. -/
def putBytes : List ByteEvent → List UInt8
  | [] => []
  | .put b :: es => b :: putBytes es
  | .sent :: es => putBytes es

/-- The bytes put, in two parts. -/
theorem putBytes_append (es es' : List ByteEvent) :
    putBytes (es ++ es') = putBytes es ++ putBytes es' := by
  induction es with
  | nil => rfl
  | cons e es ih => cases e <;> simp [putBytes, ih]

/-- Bytes that are put are the bytes put. -/
theorem putBytes_map (l : List UInt8) : putBytes (l.map .put) = l := by
  induction l with
  | nil => rfl
  | cons b l ih => rw [List.map_cons, putBytes, ih]

/-- The written characters, each line feed as two bytes. -/
def written : List OutEvent → List UInt8
  | [] => []
  | .writec ch :: es => crLf ch ++ written es
  | .txInterrupt :: es => written es

/-- The bytes put are those written, line feeds mapped. -/
theorem putBytes_flatMap (es : List OutEvent) :
    putBytes (es.flatMap OutEvent.bytes) = written es := by
  induction es with
  | nil => rfl
  | cons e es ih =>
    rw [List.flatMap_cons, putBytes_append, ih]
    cases e with
    | writec ch => rw [OutEvent.bytes, putBytes_map, written]
    | txInterrupt => rfl

/-- Up to the end of the array the queued bytes lie in a row. -/
theorem queuedFrom_eq (b : Nat → UInt8) {n next : Nat} (h : next + n ≤ bufSize) :
    queuedFrom b n next = stretch b next n := by
  induction n generalizing next with
  | zero => rfl
  | succ n ih =>
    rw [queuedFrom, stretch_succ]
    by_cases hwrap : bufSize ≤ next + 1
    · have hn : n = 0 := by omega
      rw [hn]
      rfl
    · rw [if_neg hwrap, ih (by omega)]

/-- The module shows the line: what is queued lies in a row from `_outnext` to `_outlast`,
which counts the bytes since the transmitter was idle; only at the very end of the array,
with nothing queued, the read pointer has already gone back to the start. -/
structure OutRel (r : OutRun) (l : Line) (out : List UInt8) : Prop where
  busy : r.sio.sending = l.busy
  count : r.sio.outcount.toNat = l.waiting
  last : r.sio.outlast = l.since
  bound : l.since ≤ bufSize
  next : r.sio.outnext + l.waiting = l.since ∨
    (r.sio.outnext = 0 ∧ l.waiting = 0 ∧ l.since = bufSize)
  idle : l.busy = false → l.since = 0 ∧ l.waiting = 0
  bytes : r.sio.txd ++ stretch r.sio.outbuffer r.sio.outnext l.waiting = out
  accesses : ∀ i ∈ r.accesses, i < bufSize

/-- **After `_sio_init`** nothing has been put. -/
theorem outRel_init : OutRel ⟨sioInit, []⟩ ⟨false, 0, 0⟩ [] where
  busy := rfl
  count := rfl
  last := rfl
  bound := Nat.zero_le _
  next := Or.inl rfl
  idle := fun _ => ⟨rfl, rfl⟩
  bytes := rfl
  accesses := by simp

variable {r : OutRun} {l : Line} {out : List UInt8}

/-- What has gone out, followed by what is queued, is what was put. -/
theorem OutRel.queued (h : OutRel r l out) : r.sio.txd ++ r.sio.queued = out := by
  have hbound := h.bound
  have hnext := h.next
  rw [Sio.queued, h.count, queuedFrom_eq _ (by omega), h.bytes]

/-- **A byte is put**: a busy transmitter has rested recently enough. -/
theorem OutRel.put (h : OutRel r l out) (b : UInt8) (rests : l.busy → l.since < bufSize) :
    OutRel (byteStep r (.put b)) (lineStep l (.put b)) (out ++ [b]) := by
  cases hbusy : l.busy with
  | false =>
    have hsending : r.sio.sending = false := h.busy.trans hbusy
    obtain ⟨hsince, hwaiting⟩ := h.idle hbusy
    have hbytes := h.bytes
    rw [hwaiting, stretch_zero, List.append_nil] at hbytes
    simp only [byteStep, lineStep, sioPut, hsending, hbusy, Bool.false_eq_true, if_false,
      List.append_nil]
    constructor
    case busy => rfl
    case count => exact h.count
    case last => exact h.last
    case bound => exact h.bound
    case next => exact h.next
    case idle => simp
    case bytes => simp [sioEnable, Sio.setIer, hwaiting, hbytes]
    case accesses => exact h.accesses
  | true =>
    have hsending : r.sio.sending = true := h.busy.trans hbusy
    have hsince := rests hbusy
    have hnext : r.sio.outnext + l.waiting = l.since := by
      rcases h.next with hnext | ⟨-, -, hend⟩
      · exact hnext
      · omega
    have hlast : r.sio.outlast = r.sio.outnext + l.waiting := by rw [h.last, hnext]
    have hcount : (r.sio.outcount + 1).toNat = l.waiting + 1 := by
      rw [UInt32.toNat_add, h.count, UInt32.toNat_one]
      rw [bufSize_eq] at hsince
      omega
    simp only [byteStep, lineStep, sioPut, hsending, hbusy, if_true]
    constructor
    case busy => rfl
    case count => exact hcount
    case last => exact congrArg (· + 1) h.last
    case bound => exact hsince
    case next =>
      left
      show r.sio.outnext + (l.waiting + 1) = l.since + 1
      omega
    case idle => simp
    case bytes =>
      show r.sio.txd ++ stretch (Function.update r.sio.outbuffer r.sio.outlast b) r.sio.outnext
        (l.waiting + 1) = out ++ [b]
      rw [hlast, stretch_update, ← List.append_assoc, h.bytes]
    case accesses =>
      intro i hi
      rcases List.mem_append.mp hi with hi | hi
      · exact h.accesses i hi
      · rw [List.mem_singleton.mp hi, h.last]
        exact hsince

/-- **A transmit interrupt** moves a byte from the queue to the line. -/
theorem OutRel.sent (h : OutRel r l out) :
    OutRel (byteStep r .sent) (lineStep l .sent) out := by
  have hpos : 0 < r.sio.outcount ↔ 0 < l.waiting := by
    rw [UInt32.lt_iff_toNat_lt, h.count]
    rfl
  by_cases hmore : l.busy ∧ 0 < l.waiting
  · obtain ⟨hbusy, hwaiting⟩ := hmore
    have hsending : r.sio.sending = true := h.busy.trans hbusy
    have hcond : r.sio.sending = true ∧ 0 < r.sio.outcount := ⟨hsending, hpos.mpr hwaiting⟩
    have hnext : r.sio.outnext + l.waiting = l.since := by
      rcases h.next with hnext | ⟨-, hzero, -⟩
      · exact hnext
      · omega
    have hbound := h.bound
    obtain ⟨n, hn⟩ : ∃ n, l.waiting = n + 1 := ⟨l.waiting - 1, by omega⟩
    have hcount : (r.sio.outcount - 1).toNat = l.waiting - 1 := by
      rw [UInt32.toNat_sub_of_le _ _ (by
        rw [UInt32.le_iff_toNat_le, h.count, UInt32.toNat_one]
        exact hwaiting), h.count, UInt32.toNat_one]
    have hbytes := h.bytes
    rw [hn, stretch_succ] at hbytes
    have hl : lineStep l .sent = { l with waiting := l.waiting - 1 } := if_pos ⟨hbusy, hwaiting⟩
    rw [hl]
    simp only [byteStep, sioSent, if_pos hcond]
    constructor
    case busy => exact h.busy
    case count => exact hcount
    case last => exact h.last
    case bound => exact hbound
    case next =>
      show (if bufSize ≤ r.sio.outnext + 1 then 0 else r.sio.outnext + 1) + (l.waiting - 1) =
        l.since ∨ _
      split
      · right
        dsimp only
        omega
      · left
        omega
    case idle =>
      intro hidle
      exact absurd (hbusy.symm.trans hidle) (by simp)
    case bytes =>
      show r.sio.txd ++ [r.sio.outbuffer r.sio.outnext] ++ stretch r.sio.outbuffer
        (if bufSize ≤ r.sio.outnext + 1 then 0 else r.sio.outnext + 1) (l.waiting - 1) = out
      rw [hn, Nat.add_sub_cancel, List.append_assoc, List.singleton_append]
      split
      · have hzero : n = 0 := by omega
        rw [hzero] at hbytes ⊢
        exact hbytes
      · exact hbytes
    case accesses =>
      intro i hi
      rcases List.mem_append.mp hi with hi | hi
      · exact h.accesses i hi
      · rw [List.mem_singleton.mp hi]
        omega
  · have hcond : ¬ (r.sio.sending = true ∧ 0 < r.sio.outcount) := by
      rw [h.busy, hpos]
      exact hmore
    have hwaiting : l.waiting = 0 := by
      cases hbusy : l.busy with
      | false => exact (h.idle hbusy).2
      | true =>
        by_contra hne
        exact hmore ⟨hbusy, Nat.pos_of_ne_zero hne⟩
    have hbytes := h.bytes
    rw [hwaiting, stretch_zero, List.append_nil] at hbytes
    have hl : lineStep l .sent = ⟨false, 0, 0⟩ := if_neg hmore
    rw [hl]
    simp only [byteStep, sioSent, if_neg hcond, List.append_nil]
    constructor
    case busy => rfl
    case count => rfl
    case last => rfl
    case bound => exact Nat.zero_le _
    case next => exact Or.inl rfl
    case idle => exact fun _ => ⟨rfl, rfl⟩
    case bytes => simpa [sioDisable, Sio.setIer] using hbytes
    case accesses => exact h.accesses

/-- So each event keeps them together. -/
theorem OutRel.step (h : OutRel r l out) (e : ByteEvent)
    (rests : ∀ b, e = .put b → l.busy → l.since < bufSize) :
    OutRel (byteStep r e) (lineStep l e) (out ++ putBytes [e]) := by
  cases e with
  | put b => exact h.put b (rests b rfl)
  | sent => simpa [putBytes] using h.sent

/-- One event more, in the driver. -/
theorem byteRun_concat (es : List ByteEvent) (e : ByteEvent) :
    byteRun (es ++ [e]) = byteStep (byteRun es) e := List.foldl_concat ..

/-- One event more, in the ideal line. -/
theorem lineRun_concat (es : List ByteEvent) (e : ByteEvent) :
    lineRun (es ++ [e]) = lineStep (lineRun es) e := List.foldl_concat ..

/-- One event more, of which the condition holds. -/
theorem byteRests_concat (es : List ByteEvent) (e : ByteEvent) :
    ByteRests (es ++ [e]) ↔ ByteRests es ∧
      ∀ b, e = .put b → (lineRun es).busy → (lineRun es).since < bufSize := by
  constructor
  · intro h
    refine ⟨fun pre b post hes => h pre b (post ++ [e]) (by simp [hes]), ?_⟩
    intro b he
    exact h es b [] (by simp [he])
  · intro ⟨hes, he⟩ pre b post heq
    rcases List.eq_nil_or_concat post with rfl | ⟨post, e', rfl⟩
    · obtain ⟨rfl, heq⟩ := List.append_inj' heq rfl
      exact he b (by simpa using heq)
    · refine hes pre b post ?_
      have hcat : es ++ [e] = (pre ++ .put b :: post) ++ [e'] := by simpa using heq
      exact (List.append_inj' hcat rfl).1

/-- A run in which the transmitter rests in time agrees with the queue. -/
theorem byteRun_rel {es : List ByteEvent} (h : ByteRests es) :
    OutRel (byteRun es) (lineRun es) (putBytes es) := by
  induction es using List.reverseRecOn with
  | nil => exact outRel_init
  | append_singleton es e ih =>
    obtain ⟨hes, he⟩ := (byteRests_concat es e).mp h
    rw [byteRun_concat, lineRun_concat, putBytes_append]
    exact (ih hes).step e he

/-- The first byte that comes too late goes behind the array. -/
theorem byteRun_overrun {es : List ByteEvent} (h : ¬ ByteRests es) :
    ∃ i ∈ (byteRun es).accesses, bufSize ≤ i := by
  induction es using List.reverseRecOn with
  | nil =>
    refine absurd (fun pre b post hes => ?_) h
    simp at hes
  | append_singleton es e ih =>
    rw [byteRun_concat]
    by_cases hes : ByteRests es
    · have hrel := byteRun_rel hes
      obtain ⟨b, rfl, hbusy, hsince⟩ : ∃ b, e = .put b ∧ (lineRun es).busy = true ∧
          bufSize ≤ (lineRun es).since := by
        by_contra hno
        refine h ((byteRests_concat es e).mpr ⟨hes, fun b he hbusy => ?_⟩)
        by_contra hsince
        exact hno ⟨b, he, hbusy, Nat.le_of_not_lt hsince⟩
      refine ⟨(byteRun es).sio.outlast, ?_, by rw [hrel.last]; exact hsince⟩
      simp [byteStep, hrel.busy.trans hbusy]
    · obtain ⟨i, hi, hlow⟩ := ih hes
      refine ⟨i, ?_, hlow⟩
      cases e <;> exact List.mem_append_left _ hi

/-- **Serial output is a queue** on a run exactly if the transmitter has been idle in
time: whenever a byte is written while it is busy, fewer than `BUF_SIZE` have been queued
since. -/
theorem output_fifo_iff (es : List OutEvent) :
    ((∀ i ∈ (outRun es).accesses, i < bufSize) ∧
      (outRun es).sio.txd ++ (outRun es).sio.queued = written es) ↔ Rests es := by
  constructor
  · intro ⟨hin, _⟩
    by_contra hnot
    obtain ⟨i, hi, hlow⟩ := byteRun_overrun hnot
    exact absurd (hin i hi) (Nat.not_lt_of_le hlow)
  · intro h
    have hrel := byteRun_rel h
    exact ⟨hrel.accesses, hrel.queued.trans (putBytes_flatMap es)⟩

/-- As long as no interrupt comes, every byte after the first is queued. -/
theorem lineRun_fill (b : UInt8) (n : Nat) :
    lineRun (List.replicate (n + 1) (.put b)) = ⟨true, n, n⟩ := by
  induction n with
  | zero => rfl
  | succ n ih =>
    rw [List.replicate_succ', lineRun_concat, ih]
    rfl

/-- 2050 characters are written before the transmitter takes the second one. -/
def overrun : List OutEvent := List.replicate (bufSize + 2) (.writec 97)

/-- The counterexample: one byte more than the buffer and the transmitter hold. -/
theorem overrun_bytes :
    overrun.flatMap OutEvent.bytes = List.replicate (bufSize + 1) (.put 97) ++ [.put 97] := by
  have hbytes : ∀ n, (List.replicate n (OutEvent.writec 97)).flatMap OutEvent.bytes =
      List.replicate n (.put 97) := by
    intro n
    induction n with
    | zero => rfl
    | succ n ih =>
      rw [List.replicate_succ, List.flatMap_cons, ih]
      rfl
  rw [overrun, hbytes, List.replicate_succ']

/-- The last character is stored behind the array. -/
theorem overrun_leaves_buffer :
    ¬ ((∀ i ∈ (outRun overrun).accesses, i < bufSize) ∧
      (outRun overrun).sio.txd ++ (outRun overrun).sio.queued = written overrun) := by
  have hlate : ¬ Rests overrun := by
    intro h
    have hsince := h (List.replicate (bufSize + 1) (.put 97)) 97 [] overrun_bytes
    rw [lineRun_fill] at hsince
    exact absurd (hsince rfl) (Nat.lt_irrefl _)
  intro ⟨hin, _⟩
  obtain ⟨i, hi, hlow⟩ := byteRun_overrun hlate
  exact absurd (hin i hi) (Nat.not_lt_of_le hlow)

end Cumulonimbus
