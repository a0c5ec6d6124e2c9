import Cumulonimbus.SerialLine
import Cumulonimbus.SerialOutput

/-!
# Writing a block and writing its characters

`_sio_writes` stores a block in the output buffer as it is; `_sio_writec` makes two bytes of a line
feed.  An idle transmitter gets the first character last, behind a queue that is already filled, and
gets it even if the block is empty.  So the two agree exactly on blocks without line feeds, and on a
single character for an idle transmitter (`writes_agree_iff`).
-/

namespace Cumulonimbus

variable {s t : Sio} {q : List UInt8} {b : UInt8} {n : Nat}

/-- The characters `q` wait in a row, from `_outnext` up to `_outlast`. -/
structure Sio.Row (s : Sio) (q : List UInt8) : Prop where
  count : s.outcount.toNat = q.length
  last : s.outlast = s.outnext + q.length
  bytes : stretch s.outbuffer s.outnext q.length = q

/-- The output buffer has not wrapped around, and nothing waits for an idle transmitter. -/
def Sio.Unwrapped (s : Sio) : Prop := ∃ q, s.Row q ∧ (s.sending = false → q = [])

/-- The bytes that have been sent, and those that the interrupts to come will send. -/
def Sio.eventually (s : Sio) : List UInt8 := s.txd ++ s.queued

/-- What is in a row in the buffer is what is queued. -/
theorem Sio.Row.queued_eq (h : s.Row q) (fits : s.outlast ≤ bufSize) : s.queued = q := by
  have hlast := h.last
  rw [Sio.queued, h.count, queuedFrom_eq _ (by omega), h.bytes]

/-- Runs of `_sio_writec` and interrupts do not wrap around before the buffer is full. -/
theorem OutRel.unwrapped {r : OutRun} {l : Line} {out : List UInt8} (h : OutRel r l out)
    (room : l.since < bufSize) : r.sio.Unwrapped := by
  have hnext : r.sio.outnext + l.waiting = l.since := by
    rcases h.next with hnext | ⟨-, -, hend⟩
    · exact hnext
    · omega
  refine ⟨stretch r.sio.outbuffer r.sio.outnext l.waiting, ⟨?_, ?_, ?_⟩, fun hidle => ?_⟩
  · rw [length_stretch, h.count]
  · rw [length_stretch, h.last, hnext]
  · rw [length_stretch]
  · rw [(h.idle (h.busy.symm.trans hidle)).2, stretch_zero]

/-! ## Storing characters -/

/-- One more character waits. -/
theorem Sio.Row.store (h : s.Row q) (room : q.length < bufSize) (b : UInt8)
    (buffer : t.outbuffer = Function.update s.outbuffer s.outlast b) (next : t.outnext = s.outnext)
    (last : t.outlast = s.outlast + 1) (count : t.outcount = s.outcount + 1) :
    t.Row (q ++ [b]) := by
  have hlast := h.last
  have hlen : (q ++ [b]).length = q.length + 1 := List.length_append
  rw [bufSize_eq] at room
  refine ⟨?_, ?_, ?_⟩
  · rw [count, UInt32.toNat_add, h.count, UInt32.toNat_one, hlen]
    omega
  · rw [last, next, hlen, hlast]
    rfl
  · rw [buffer, next, hlen, hlast, stretch_update, h.bytes]

/-- A busy transmitter adds the byte to the row. -/
theorem sioPut_busy (h : s.Row q) (busy : s.sending = true) (room : q.length < bufSize)
    (b : UInt8) :
    (sioPut s b).Row (q ++ [b]) ∧ (sioPut s b).sending = true ∧ (sioPut s b).txd = s.txd ∧
      (sioPut s b).outlast = s.outlast + 1 := by
  rw [sioPut, if_pos busy]
  exact ⟨h.store room b rfl rfl rfl rfl, busy, rfl, rfl⟩

/-- An idle one sends it at once. -/
theorem sioPut_idle (h : s.Row q) (idle : s.sending = false) (b : UInt8) :
    (sioPut s b).Row q ∧ (sioPut s b).sending = true ∧ (sioPut s b).txd = s.txd ++ [b] ∧
      (sioPut s b).outlast = s.outlast := by
  rw [sioPut, idle, if_neg Bool.false_ne_true]
  exact ⟨⟨h.count, h.last, h.bytes⟩, rfl, rfl, rfl⟩

/-- Bytes for a busy transmitter. -/
theorem foldl_sioPut (l : List UInt8) (h : s.Row q) (busy : s.sending = true)
    (room : q.length + l.length ≤ bufSize) :
    (l.foldl sioPut s).Row (q ++ l) ∧ (l.foldl sioPut s).txd = s.txd ∧
      (l.foldl sioPut s).outlast = s.outlast + l.length := by
  induction l generalizing s q with
  | nil => exact ⟨by rwa [List.append_nil], rfl, rfl⟩
  | cons b l ih =>
    rw [List.length_cons] at room
    obtain ⟨hrow, hbusy, htxd, hlast⟩ := sioPut_busy h busy (by omega) b
    have hlen : (q ++ [b]).length = q.length + 1 := List.length_append
    obtain ⟨hrow', htxd', hlast'⟩ := ih hrow hbusy (by omega)
    rw [List.append_assoc] at hrow'
    refine ⟨hrow', htxd'.trans htxd, ?_⟩
    rw [List.foldl_cons, hlast', hlast, List.length_cons]
    omega

/-! ## Characters -/

/-- A character as the argument of `_sio_writec`. -/
def charArg (b : UInt8) : UInt32 := b.toInt8.toInt32.toUInt32

/-- The bytes of a character. -/
def lineBytes (b : UInt8) : List UInt8 := if b = 10 then [13, 10] else [b]

/-- A byte that is passed as a character keeps its bytes. -/
theorem crLf_charArg (b : UInt8) : crLf (charArg b) = lineBytes b := by
  refine forall_byte (P := fun b => crLf (charArg b) = lineBytes b) ?_ b
  decide +kernel

/-- `n` calls of `_sio_writec`. -/
def sioWritecs (buffer : Nat → UInt8) (n : Nat) (s : Sio) : Sio :=
  (List.range n).foldl (fun s i => sioWritec s (charArg (buffer i))) s

/-- Writing characters one by one is putting their bytes. -/
theorem sioWritecs_eq (buffer : Nat → UInt8) (n : Nat) (s : Sio) :
    sioWritecs buffer n s = ((stretch buffer 0 n).flatMap lineBytes).foldl sioPut s := by
  have hchar : (fun (s : Sio) i => sioWritec s (charArg (buffer i))) =
      fun s i => (lineBytes (buffer i)).foldl sioPut s := by
    funext s i
    rw [sioWritec_eq, crLf_charArg]
  rw [sioWritecs, hchar, stretch, List.foldl_flatMap, List.foldl_map, List.range_eq_range']

/-- Each character has at least one byte. -/
theorem length_le_lineBytes (l : List UInt8) : l.length ≤ (l.flatMap lineBytes).length := by
  induction l with
  | nil => exact Nat.le_refl 0
  | cons b l ih =>
    rw [List.flatMap_cons, List.length_append, List.length_cons, lineBytes]
    split
    · rw [List.length_cons, List.length_singleton]
      omega
    · rw [List.length_singleton]
      omega

/-- Only a block without line feeds is sent as it is. -/
theorem lineBytes_eq_self (l : List UInt8) : l.flatMap lineBytes = l ↔ ∀ b ∈ l, b ≠ 10 := by
  induction l with
  | nil => simp
  | cons b l ih =>
    rw [List.flatMap_cons, List.forall_mem_cons, lineBytes]
    by_cases hlf : b = 10
    · have hle := length_le_lineBytes l
      rw [if_pos hlf]
      constructor
      · intro heq
        have hlen := congrArg List.length heq
        simp only [List.length_append, List.length_cons, List.length_nil] at hlen
        omega
      · intro hboth
        exact absurd hlf hboth.1
    · rw [if_neg hlf, List.singleton_append, List.cons_inj_right, ih]
      exact (and_iff_right hlf).symm

/-! ## Writing a block -/

/-- The loop of `_sio_writes`. -/
theorem sioWritesLoop_row (buffer : Nat → UInt8) (n copied : Nat) (h : s.Row q)
    (room : s.outlast + n < bufSize) :
    (sioWritesLoop buffer n copied s).1 = copied + n ∧
      (sioWritesLoop buffer n copied s).2.Row (q ++ stretch buffer copied n) ∧
      (sioWritesLoop buffer n copied s).2.sending = s.sending ∧
      (sioWritesLoop buffer n copied s).2.txd = s.txd ∧
      (sioWritesLoop buffer n copied s).2.outlast = s.outlast + n := by
  induction n generalizing s q copied with
  | zero => exact ⟨rfl, by rwa [stretch_zero, List.append_nil], rfl, rfl, rfl⟩
  | succ n ih =>
    have hlast := h.last
    have hroom : s.outcount < bufSize.toUInt32 := by
      rw [UInt32.lt_iff_toNat_lt, h.count, bufSize_toNat]
      rw [bufSize_eq] at room
      omega
    have hstep : (if bufSize ≤ s.outlast + 1 then 0 else s.outlast + 1) = s.outlast + 1 :=
      if_neg (by omega)
    rw [sioWritesLoop, if_pos hroom, hstep]
    have hrow := h.store (t := { s with
      outbuffer := Function.update s.outbuffer s.outlast (buffer copied)
      outlast := s.outlast + 1
      outcount := s.outcount + 1 }) (by omega) (buffer copied) rfl rfl rfl rfl
    obtain ⟨hcount, hrow', hsending, htxd, hlast'⟩ := ih (copied + 1) hrow
      (show s.outlast + 1 + n < bufSize by omega)
    rw [List.append_assoc, List.singleton_append, ← stretch_succ] at hrow'
    exact ⟨hcount.trans (by omega), hrow', hsending, htxd,
      hlast'.trans (Nat.succ_add_eq_add_succ _ _)⟩

/-- The last place that bytes for the transmitter take. -/
def Sio.Fits (s : Sio) (n : Nat) : Prop :=
  if s.sending then s.outlast + n < bufSize else s.outlast + n ≤ bufSize

instance Sio.Fits.decidable (s : Sio) (n : Nat) : Decidable (s.Fits n) :=
  inferInstanceAs (Decidable (if s.sending then s.outlast + n < bufSize else _))

/-- What goes out in the end, from a busy transmitter. -/
theorem eventually_busy (h : s.Row q) (busy : s.sending = true) (l : List UInt8)
    (room : s.outlast + l.length ≤ bufSize) :
    (l.foldl sioPut s).eventually = s.txd ++ (q ++ l) := by
  have hlast := h.last
  obtain ⟨hrow, htxd, hlast'⟩ := foldl_sioPut l h busy (by omega)
  rw [Sio.eventually, hrow.queued_eq (by omega), htxd]

/-- What goes out in the end, from an idle one. -/
theorem eventually_idle (h : s.Row q) (idle : s.sending = false) (b : UInt8) (l : List UInt8)
    (room : s.outlast + l.length ≤ bufSize) :
    ((b :: l).foldl sioPut s).eventually = s.txd ++ b :: (q ++ l) := by
  obtain ⟨hrow, hbusy, htxd, hlast⟩ := sioPut_idle h idle b
  rw [List.foldl_cons, eventually_busy hrow hbusy l (by omega), htxd, List.append_assoc]
  rfl

/-- What comes out of a block for a busy transmitter. -/
theorem sioWrites_busy (h : s.Row q) (busy : s.sending = true) (buffer : Nat → UInt8)
    (small : n < 2 ^ 31) (room : s.outlast + n < bufSize) :
    (sioWrites buffer (Int32.ofNat n) s).1 = n ∧
      (sioWrites buffer (Int32.ofNat n) s).2.eventually = s.txd ++ (q ++ stretch buffer 0 n) := by
  have hn : ((Int32.ofNat n).toInt - ((0 : Nat) : Int)).toNat = n := by
    rw [Int32.toInt_ofNat_of_lt small]
    omega
  obtain ⟨hcount, hrow, hsending, htxd, hlast⟩ := sioWritesLoop_row buffer n 0 h room
  rw [busy] at hsending
  rw [sioWrites, if_pos busy, hn]
  generalize sioWritesLoop buffer n 0 s = r at hcount hrow hsending htxd hlast
  obtain ⟨copied, t⟩ := r
  dsimp only at hcount hrow hsending htxd hlast ⊢
  rw [if_pos hsending, Sio.eventually, hrow.queued_eq (by omega), htxd]
  exact ⟨hcount.trans (Nat.zero_add n), rfl⟩

/-- What comes out of a block for an idle transmitter: the first character, which `_sio_writec`
sends, comes before the others, but the line feed that it may be comes after them. -/
theorem sioWrites_idle (h : s.Row []) (idle : s.sending = false) (buffer : Nat → UInt8)
    (small : n + 1 < 2 ^ 31) (room : s.outlast + (n + 1) ≤ bufSize) :
    (sioWrites buffer (Int32.ofNat (n + 1)) s).1 = n + 1 ∧
      (sioWrites buffer (Int32.ofNat (n + 1)) s).2.eventually = s.txd ++
        if buffer 0 = 10 then 13 :: (stretch buffer 1 n ++ [10])
        else buffer 0 :: stretch buffer 1 n := by
  have hn : ((Int32.ofNat (n + 1)).toInt - ((1 : Nat) : Int)).toNat = n := by
    rw [Int32.toInt_ofNat_of_lt small]
    omega
  have hidle : ¬ s.sending = true := fun hbusy => Bool.false_ne_true (idle.symm.trans hbusy)
  obtain ⟨hcount, hrow, hsending, htxd, hlast⟩ := sioWritesLoop_row buffer n 1 h (by omega)
  rw [idle] at hsending
  rw [sioWrites, if_neg hidle, hn]
  generalize sioWritesLoop buffer n 1 s = r at hcount hrow hsending htxd hlast
  obtain ⟨copied, t⟩ := r
  dsimp only at hcount hrow hsending htxd hlast ⊢
  rw [List.nil_append] at hrow
  rw [hsending, if_neg Bool.false_ne_true]
  refine ⟨by omega, ?_⟩
  rw [show (buffer 0).toInt8.toInt32.toUInt32 = charArg (buffer 0) from rfl, sioWritec_eq,
    crLf_charArg, lineBytes]
  by_cases hlf : buffer 0 = 10
  · rw [if_pos hlf, if_pos hlf, eventually_idle hrow hsending 13 [10] (by
      rw [List.length_singleton]
      omega), htxd]
  · rw [if_neg hlf, if_neg hlf, eventually_idle hrow hsending (buffer 0) [] (by
      rw [List.length_nil]
      omega), htxd, List.append_nil]

/-- Only if nothing else waits does the line feed come in time. -/
theorem lineFeed_in_time (l : List UInt8) :
    13 :: (l ++ [10]) = 13 :: 10 :: l.flatMap lineBytes ↔ l = [] := by
  constructor
  · intro h
    have htail : l ++ [10] = 10 :: l.flatMap lineBytes := (List.cons.inj h).2
    cases l with
    | nil => rfl
    | cons b l =>
      obtain rfl : b = 10 := (List.cons.inj htail).1
      have hle := length_le_lineBytes l
      have hlen := congrArg List.length htail
      rw [List.flatMap_cons, lineBytes, if_pos rfl] at hlen
      simp only [List.length_append, List.length_cons, List.length_nil] at hlen
      omega
  · intro h
    rw [h]
    rfl

/-- **When a block is as good as its characters.** -/
theorem writes_agree_iff (unwrapped : s.Unwrapped) (buffer : Nat → UInt8) (n : Nat)
    (room : s.Fits ((stretch buffer 0 n).flatMap lineBytes).length) :
    ((sioWrites buffer (Int32.ofNat n) s).2.eventually = (sioWritecs buffer n s).eventually ∧
        (sioWrites buffer (Int32.ofNat n) s).1 = n) ↔
      (∀ i < n, buffer i ≠ 10) ∧ (s.sending = true ∨ n ≠ 0) ∨ s.sending = false ∧ n = 1 := by
  obtain ⟨q, hrow, hempty⟩ := unwrapped
  have hsize := bufSize_eq
  have hlen := length_le_lineBytes (stretch buffer 0 n)
  rw [length_stretch] at hlen
  have hplain : (∀ i < n, buffer i ≠ 10) ↔ ∀ b ∈ stretch buffer 0 n, b ≠ 10 := by
    simp [stretch, ← List.range_eq_range']
  cases hsending : s.sending with
  | true =>
    rw [Sio.Fits, if_pos hsending] at room
    obtain ⟨hcount, hbytes⟩ := sioWrites_busy hrow hsending buffer (n := n) (by omega) (by omega)
    rw [hcount, hbytes, sioWritecs_eq, eventually_busy hrow hsending _ room.le, hplain,
      ← lineBytes_eq_self, List.append_right_inj, List.append_right_inj]
    simp [eq_comm]
  | false =>
    rw [Sio.Fits, hsending, if_neg Bool.false_ne_true] at room
    obtain rfl := hempty hsending
    cases n with
    | zero =>
      have hcount : (sioWrites buffer (Int32.ofNat 0) s).1 = 1 := by
        rw [sioWrites, hsending]
        rfl
      rw [hcount]
      simp
    | succ n =>
      obtain ⟨hcount, hbytes⟩ := sioWrites_idle hrow hsending buffer (n := n) (by omega) (by omega)
      rw [stretch_succ, List.flatMap_cons] at room
      rw [hcount, hbytes, sioWritecs_eq, hplain, stretch_succ, List.flatMap_cons, lineBytes,
        List.forall_mem_cons, ← lineBytes_eq_self]
      have hnil : stretch buffer 1 n = [] ↔ n = 0 := by
        rw [← List.length_eq_zero_iff, length_stretch]
      by_cases hlf : buffer 0 = 10
      · rw [lineBytes, if_pos hlf] at room
        rw [if_pos hlf, if_pos hlf, List.cons_append, eventually_idle hrow hsending,
          List.nil_append,
          List.append_right_inj, List.singleton_append, lineFeed_in_time, hnil]
        · simp [hlf]
        · simp only [List.length_append, List.length_cons, List.length_nil] at room ⊢
          omega
      · rw [lineBytes, if_neg hlf] at room
        rw [if_neg hlf, if_neg hlf, List.singleton_append, eventually_idle hrow hsending,
          List.nil_append, List.append_right_inj, List.cons_inj_right]
        · constructor
          · intro heq
            exact .inl ⟨⟨hlf, heq.1.symm⟩, .inr n.succ_ne_zero⟩
          · intro hcond
            refine ⟨?_, rfl⟩
            rcases hcond with hplain | hone
            · exact hplain.1.2.symm
            · rw [show n = 0 by omega, stretch_zero, List.flatMap_nil]
        · simp only [List.length_append, List.length_cons, List.length_nil] at room ⊢
          omega

/-- After `_sio_init` the buffer is empty and starts at its start. -/
theorem sioInit_unwrapped : sioInit.Unwrapped := ⟨[], ⟨rfl, rfl, rfl⟩, fun _ => rfl⟩

theorem writes_agree_two : (sioWrites (fun i => if i = 0 then 72 else 105) 2 sioInit).1 = 2 :=
  ((writes_agree_iff sioInit_unwrapped (fun i => if i = 0 then 72 else 105) 2 (by decide)).mpr
    (.inl ⟨by decide, .inr (by decide)⟩)).2

/-- A line feed behind another character goes out as it is, and an empty block sends what lies
there. -/
theorem writes_disagree :
    ((sioWrites (fun i => if i = 0 then 72 else 10) 2 sioInit).2.eventually = [72, 10] ∧
      (sioWritecs (fun i => if i = 0 then 72 else 10) 2 sioInit).eventually = [72, 13, 10]) ∧
    (sioWrites (fun _ => 72) 0 sioInit).1 = 1 ∧
      (sioWrites (fun _ => 72) 0 sioInit).2.eventually = [72] := by
  decide

end Cumulonimbus
