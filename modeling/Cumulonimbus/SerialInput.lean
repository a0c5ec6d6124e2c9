import Cumulonimbus.Interrupts

/-!
# Serial input as a queue of characters

The input buffer of `sio.c` is meant as a bounded queue.  Its pointers only move forward
and go back to the start of the array when the buffer is found empty (`_sio_reads` wraps
around one place too late), so it works as a queue exactly as long as no more than
`BUF_SIZE` characters pass through it between two moments at which it is empty.

The ideal queue below counts the characters since that moment.  While the count stays in
bounds the buffer and the queue agree; the first character beyond it goes to the place
behind the array (`input_fifo_iff`).
-/

namespace Cumulonimbus

open Exec

/-! ## Stretches of a buffer -/

/-- The `n` bytes from place `lo` on. -/
def stretch (b : Nat → UInt8) (lo n : Nat) : List UInt8 := (List.range' lo n).map b

@[simp] theorem stretch_zero (b : Nat → UInt8) (lo : Nat) : stretch b lo 0 = [] := rfl

/-- The first byte of a stretch, and the rest. -/
theorem stretch_succ (b : Nat → UInt8) (lo n : Nat) :
    stretch b lo (n + 1) = b lo :: stretch b (lo + 1) n := rfl

@[simp] theorem length_stretch (b : Nat → UInt8) (lo n : Nat) : (stretch b lo n).length = n := by
  simp [stretch]

/-- A byte stored at the end makes the stretch longer. -/
theorem stretch_update (b : Nat → UInt8) (lo n : Nat) (x : UInt8) :
    stretch (Function.update b (lo + n) x) lo (n + 1) = stretch b lo n ++ [x] := by
  induction n generalizing lo with
  | zero => simp [stretch_succ]
  | succ n ih =>
    have hlo : lo ≠ lo + (n + 1) := by omega
    have hend : lo + (n + 1) = lo + 1 + n := by omega
    rw [stretch_succ, Function.update_of_ne hlo, hend, ih (lo + 1), stretch_succ]
    rfl

/-- The front part of a stretch. -/
theorem stretch_take (b : Nat → UInt8) (lo : Nat) {k n : Nat} (h : k ≤ n) :
    (stretch b lo n).take k = stretch b lo k := by
  induction k generalizing lo n with
  | zero => simp
  | succ k ih =>
    obtain ⟨n, rfl⟩ : ∃ n', n = n' + 1 := ⟨n - 1, by omega⟩
    rw [stretch_succ, stretch_succ, List.take_succ_cons, ih (lo + 1) (by omega)]

/-- What is behind it. -/
theorem stretch_drop (b : Nat → UInt8) (lo k n : Nat) :
    (stretch b lo n).drop k = stretch b (lo + k) (n - k) := by
  rw [stretch, ← List.map_drop, List.drop_range', Nat.mul_one]
  rfl

/-! ## Input -/

/-- Carriage return is mapped to line feed. -/
def crToLf (ch : UInt8) : UInt8 := if ch = 13 then 10 else ch

/-- What happens to the input buffer while no process waits on `_reading`. -/
inductive InEvent
  | received (ch : UInt8)
  | readc
  | reads (length : Int32)

/-- A run of the input side: the module's state, the characters returned to callers and
the places of `_inbuffer` that were accessed. -/
structure InRun where
  sio : Sio
  returned : List UInt32
  accesses : List Nat

/-- The places that `_sio_reads` copies from. -/
def sioReadsPlaces (s : Sio) (length : Int32) : List Nat :=
  if s.incount < 1 then [] else (sioReadsLoop length.toInt s.incount.toNat [] s).1

def inStep (r : InRun) : InEvent → InRun
  | .received ch =>
    { sio := sioStore r.sio (crToLf ch)
      returned := r.returned
      accesses := r.accesses ++ if r.sio.incount < bufSize.toUInt32 then [r.sio.inlast] else [] }
  | .readc =>
    { sio := (sioReadc r.sio).2
      returned := r.returned ++ (sioReadc r.sio).1.toList
      accesses := r.accesses ++ if 0 < r.sio.incount then [r.sio.innext] else [] }
  | .reads length =>
    { sio := (sioReads r.sio length).2
      returned := r.returned ++ (sioReads r.sio length).1.map UInt8.toUInt32
      accesses := r.accesses ++ sioReadsPlaces r.sio length }

/-- The run from the state that `_sio_init` leaves. -/
def inRun (es : List InEvent) : InRun := es.foldl inStep ⟨sioInit, [], []⟩

/-- A character that the interrupt handler receives while nobody waits is stored. -/
theorem sioReceive_eq {σ : State} (idle : (σ.queues .reading).qEmpty) (ch : UInt8) :
    sioReceive ch σ = .ok ((), { σ with sio := sioStore σ.sio (crToLf ch) }) := by
  have hrun : wp (sioReceive ch) (fun _ τ => τ = { σ with sio := sioStore σ.sio (crToLf ch) })
      (fun _ => False) σ := by
    rw [sioReceive, wp_bind, wp_get, if_pos idle, wp_modify]
    rfl
  obtain ⟨_, τ, hτ, rfl⟩ := wp_returns hrun
  exact hτ

/-- A bounded queue of characters, with those returned so far and the number of
characters accepted since it was last empty. -/
structure Mailbox where
  unread : List UInt8
  returned : List UInt8
  since : Nat

/-- Return the first `n` characters. -/
def Mailbox.take (m : Mailbox) (n : Nat) : Mailbox where
  unread := m.unread.drop n
  returned := m.returned ++ m.unread.take n
  since := if m.unread.drop n = [] then 0 else m.since

def mailStep (m : Mailbox) : InEvent → Mailbox
  | .received ch =>
    if m.unread.length < bufSize then
      { m with unread := m.unread ++ [crToLf ch], since := m.since + 1 }
    else m
  | .readc => m.take 1
  | .reads length => m.take length.toInt.toNat

def mailRun (es : List InEvent) : Mailbox := es.foldl mailStep ⟨[], [], 0⟩

/-- Whenever a character arrives for which there is room, fewer than `BUF_SIZE` have been
accepted since the queue was last empty. -/
def Drains (es : List InEvent) : Prop :=
  ∀ pre ch post, es = pre ++ .received ch :: post →
    (mailRun pre).unread.length < bufSize → (mailRun pre).since < bufSize

/-- The buffer shows the queue: its characters lie in a row from `_innext` to `_inlast`,
and `_inlast` counts the characters since the buffer was last empty. -/
structure InRel (r : InRun) (m : Mailbox) : Prop where
  count : r.sio.incount.toNat = m.unread.length
  last : r.sio.inlast = m.since
  next : r.sio.innext + m.unread.length = m.since
  bound : m.since ≤ bufSize
  drained : m.unread = [] → m.since = 0
  unread : m.unread = stretch r.sio.inbuffer r.sio.innext m.unread.length
  returned : r.returned = m.returned.map UInt8.toUInt32
  accesses : ∀ i ∈ r.accesses, i < bufSize

/-- The size of a buffer, for arithmetic. -/
theorem bufSize_eq : bufSize = 2048 := rfl

/-- The same where the code compares it with a counter. -/
theorem bufSize_toNat : bufSize.toUInt32.toNat = 2048 := rfl

/-- **After `_sio_init`** the buffer shows an empty mailbox. -/
theorem inRel_init : InRel ⟨sioInit, [], []⟩ ⟨[], [], 0⟩ where
  count := rfl
  last := rfl
  next := rfl
  bound := Nat.zero_le _
  drained := fun _ => rfl
  unread := rfl
  returned := rfl
  accesses := by simp

variable {r : InRun} {m : Mailbox}

/-- The driver has room exactly when the mailbox has. -/
theorem InRel.room (h : InRel r m) :
    r.sio.incount < bufSize.toUInt32 ↔ m.unread.length < bufSize := by
  rw [UInt32.lt_iff_toNat_lt, h.count, bufSize_toNat, bufSize_eq]

/-- A character is stored where the queue wants it. -/
theorem InRel.received (h : InRel r m) (ch : UInt8)
    (drained : m.unread.length < bufSize → m.since < bufSize) :
    InRel (inStep r (.received ch)) (mailStep m (.received ch)) := by
  by_cases hroom : m.unread.length < bufSize
  · have hstore := h.room.mpr hroom
    have hsince := drained hroom
    have hlast : r.sio.inlast = r.sio.innext + m.unread.length := by rw [h.last, h.next]
    have hcount : (r.sio.incount + 1).toNat = m.unread.length + 1 := by
      rw [UInt32.toNat_add, h.count, UInt32.toNat_one]
      rw [bufSize_eq] at hroom
      omega
    simp only [inStep, mailStep, sioStore, if_pos hstore, if_pos hroom]
    constructor
    case count => simpa using hcount
    case last => exact congrArg (· + 1) h.last
    case next =>
      have hnext := h.next
      simp only [List.length_append, List.length_singleton]
      omega
    case bound => exact hsince
    case drained => simp
    case unread =>
      rw [List.length_append, List.length_singleton, hlast, stretch_update, ← h.unread]
    case returned => exact h.returned
    case accesses =>
      intro i hi
      rcases List.mem_append.mp hi with hi | hi
      · exact h.accesses i hi
      · rw [List.mem_singleton.mp hi, h.last]
        exact hsince
  · have hfull : ¬ r.sio.incount < bufSize.toUInt32 := fun hlt => hroom (h.room.mp hlt)
    simp only [inStep, mailStep, sioStore, if_neg hfull, if_neg hroom, List.append_nil]
    exact h

/-- The module after `k` characters have been taken and `c` are left. -/
def Sio.taken (s : Sio) (k : Nat) (c : UInt32) : Sio :=
  if c < 1 then { s with inlast := 0, innext := 0, incount := c }
  else { s with innext := s.innext + k, incount := c }

/-- Taking bytes from the front, as a reader or an interrupt does. -/
theorem InRel.take (h : InRel r m) {k : Nat} (hk : k ≤ m.unread.length) {c : UInt32}
    (hc : c.toNat = m.unread.length - k) :
    InRel ⟨r.sio.taken k c, r.returned ++ (m.unread.take k).map UInt8.toUInt32,
      r.accesses ++ List.range' r.sio.innext k⟩ (m.take k) := by
  have hnext := h.next
  have hbound := h.bound
  have hreturned : r.returned ++ (m.unread.take k).map UInt8.toUInt32 =
      (m.take k).returned.map UInt8.toUInt32 := by
    rw [h.returned, Mailbox.take, List.map_append]
  have haccesses : ∀ i ∈ r.accesses ++ List.range' r.sio.innext k, i < bufSize := by
    intro i hi
    rcases List.mem_append.mp hi with hi | hi
    · exact h.accesses i hi
    · obtain ⟨-, hlt⟩ := List.mem_range'_1.mp hi
      omega
  have hdrop : (m.unread.drop k).length = m.unread.length - k := List.length_drop
  by_cases hempty : m.unread.drop k = []
  · have hzero : m.unread.length - k = 0 := by
      rw [← hdrop, hempty, List.length_nil]
    have hc0 : c < 1 := by
      rw [UInt32.lt_iff_toNat_lt, hc, hzero]
      decide
    constructor
    case count => simp [Sio.taken, Mailbox.take, hc0, hc]
    case last => simp [Sio.taken, Mailbox.take, hc0, hempty]
    case next => simp [Sio.taken, Mailbox.take, hc0, hempty]
    case bound => simp [Mailbox.take, hempty]
    case drained => simp [Mailbox.take, hempty]
    case unread => simp [Mailbox.take, hempty]
    case returned => exact hreturned
    case accesses => exact haccesses
  · have hpos : 0 < m.unread.length - k := by
      rw [← hdrop]
      exact List.length_pos_iff.mpr hempty
    have hc0 : ¬ c < 1 := by
      rw [UInt32.lt_iff_toNat_lt, hc, UInt32.toNat_one]
      omega
    constructor
    case count => simp [Sio.taken, Mailbox.take, hc0, hc]
    case last => simpa [Sio.taken, Mailbox.take, hc0, hempty] using h.last
    case next =>
      simp only [Sio.taken, Mailbox.take, if_neg hc0, if_neg hempty, hdrop]
      omega
    case bound => simpa [Mailbox.take, hempty] using hbound
    case drained => exact fun hnil => absurd hnil hempty
    case unread =>
      simp only [Sio.taken, Mailbox.take, if_neg hc0, hdrop]
      rw [h.unread, stretch_drop, length_stretch]
    case returned => exact hreturned
    case accesses => exact haccesses

/-- Nobody takes more than there is. -/
theorem Mailbox.take_min (m : Mailbox) (n : Nat) : m.take (min n m.unread.length) = m.take n := by
  rcases Nat.le_total n m.unread.length with hle | hle
  · rw [Nat.min_eq_left hle]
  · rw [Nat.min_eq_right hle]
    simp [Mailbox.take, List.drop_of_length_le hle, List.take_of_length_le hle]

/-- The counter is zero exactly when nothing is unread. -/
theorem InRel.incount_pos (h : InRel r m) : 0 < r.sio.incount ↔ m.unread ≠ [] := by
  rw [UInt32.lt_iff_toNat_lt, h.count, ← List.length_pos_iff]
  rfl

/-- **`readc`** takes the oldest byte. -/
theorem InRel.readc (h : InRel r m) : InRel (inStep r .readc) (mailStep m .readc) := by
  by_cases hempty : m.unread = []
  · have hzero : ¬ 0 < r.sio.incount := fun hpos => h.incount_pos.mp hpos hempty
    have htake : m.take 1 = m := by
      obtain ⟨unread, returned, since⟩ := m
      simp only at hempty
      have hsince := h.drained hempty
      simp only at hsince
      simp [Mailbox.take, hempty, hsince]
    simp only [inStep, mailStep, sioReadc, if_neg hzero, htake, Option.toList_none,
      List.append_nil]
    exact h
  · have hpos := h.incount_pos.mpr hempty
    have hlen : 0 < m.unread.length := List.length_pos_iff.mpr hempty
    have hc : (r.sio.incount - 1).toNat = m.unread.length - 1 := by
      rw [UInt32.toNat_sub_of_le _ _ (by
        rw [UInt32.le_iff_toNat_le, h.count, UInt32.toNat_one]
        exact hlen), h.count, UInt32.toNat_one]
    have hfirst : m.unread.take 1 = [r.sio.inbuffer r.sio.innext] := by
      rw [h.unread, stretch_take _ _ hlen]
      rfl
    have htaken := h.take hlen hc
    rw [hfirst] at htaken
    simp only [inStep, mailStep, sioReadc, if_pos hpos]
    by_cases hlast : r.sio.incount - 1 < 1
    · simpa [Sio.taken, hlast] using htaken
    · simpa [Sio.taken, hlast] using htaken

/-- The loop of `_sio_reads` takes a stretch of the buffer. -/
theorem sioReadsLoop_eq (length : Int) {n : Nat} {s : Sio} (places : List Nat)
    (count : s.incount.toNat = n) (bound : s.innext + n ≤ bufSize) :
    ∃ c : UInt32, c.toNat = n - (length - places.length).toNat ∧
      sioReadsLoop length n places s =
        (places ++ List.range' s.innext (min n (length - places.length).toNat),
          { s with
            innext := s.innext + min n (length - places.length).toNat
            incount := c }) := by
  induction n generalizing s places with
  | zero => exact ⟨s.incount, by omega, by simp [sioReadsLoop]⟩
  | succ n ih =>
    have hpos : 0 < s.incount := by
      rw [UInt32.lt_iff_toNat_lt, count]
      exact Nat.succ_pos n
    by_cases hmore : (places.length : Int) < length
    · have hc : (s.incount - 1).toNat = n := by
        rw [UInt32.toNat_sub_of_le _ _ (by
          rw [UInt32.le_iff_toNat_le, count, UInt32.toNat_one]
          omega), count, UInt32.toNat_one]
        rfl
      have hwrap : ¬ bufSize < s.innext + 1 := by omega
      obtain ⟨c, hcn, hloop⟩ := ih (s := { s with
        innext := s.innext + 1, incount := s.incount - 1 }) (places ++ [s.innext]) hc (by
          show s.innext + 1 + n ≤ bufSize
          omega)
      have hlen : ((places ++ [s.innext]).length : Int) = places.length + 1 := by simp
      have hleft : (length - places.length).toNat =
          (length - ((places ++ [s.innext]).length : Int)).toNat + 1 := by omega
      refine ⟨c, by omega, ?_⟩
      rw [sioReadsLoop, if_pos ⟨hpos, hmore⟩, if_neg hwrap, hloop, hleft, Nat.add_min_add_right,
        List.range'_succ, List.append_assoc]
      simp only [List.singleton_append]
      congr 2
      omega
    · have hleft : (length - places.length).toNat = 0 := by omega
      refine ⟨s.incount, by omega, ?_⟩
      rw [sioReadsLoop, if_neg fun h => hmore h.2, hleft]
      simp

/-- **`reads`** takes as many as the caller asks for and there are. -/
theorem InRel.reads (h : InRel r m) (length : Int32) :
    InRel (inStep r (.reads length)) (mailStep m (.reads length)) := by
  by_cases hempty : m.unread = []
  · have hzero : r.sio.incount < 1 := by
      rw [UInt32.lt_iff_toNat_lt, h.count, hempty]
      decide
    have htake : m.take length.toInt.toNat = m := by
      obtain ⟨unread, returned, since⟩ := m
      simp only at hempty
      have hsince := h.drained hempty
      simp only at hsince
      simp [Mailbox.take, hempty, hsince]
    simp only [inStep, mailStep, sioReads, sioReadsPlaces, if_pos hzero, htake, List.map_nil,
      List.append_nil]
    exact h
  · have hsome : ¬ r.sio.incount < 1 := by
      have hlen : 0 < m.unread.length := List.length_pos_iff.mpr hempty
      rw [UInt32.lt_iff_toNat_lt, h.count, UInt32.toNat_one]
      omega
    have hnext := h.next
    have hbound := h.bound
    obtain ⟨c, hc, hloop⟩ := sioReadsLoop_eq length.toInt [] h.count (by omega)
    simp only [List.length_nil, Int.ofNat_zero, Int.sub_zero, List.nil_append] at hc hloop
    have htaken := h.take (Nat.min_le_left _ _)
      (show c.toNat = m.unread.length - min m.unread.length length.toInt.toNat by omega)
    have hbytes : (List.range' r.sio.innext (min m.unread.length length.toInt.toNat)).map
        r.sio.inbuffer = m.unread.take (min m.unread.length length.toInt.toNat) := by
      rw [h.unread, stretch_take _ _ (by simp), length_stretch]
      rfl
    rw [Nat.min_comm, m.take_min, Nat.min_comm] at htaken
    simp only [inStep, mailStep, sioReads, sioReadsPlaces, if_neg hsome, h.count, hloop, hbytes]
    exact htaken

/-- **One event** is served as the queue serves it, unless a character would go behind the
array. -/
theorem InRel.step (h : InRel r m) (e : InEvent)
    (drained : ∀ ch, e = .received ch → m.unread.length < bufSize → m.since < bufSize) :
    InRel (inStep r e) (mailStep m e) := by
  cases e with
  | received ch => exact h.received ch (drained ch rfl)
  | readc => exact h.readc
  | reads length => exact h.reads length

/-- One event more, in the driver. -/
theorem inRun_concat (es : List InEvent) (e : InEvent) :
    inRun (es ++ [e]) = inStep (inRun es) e := List.foldl_concat ..

/-- One event more, in the mailbox. -/
theorem mailRun_concat (es : List InEvent) (e : InEvent) :
    mailRun (es ++ [e]) = mailStep (mailRun es) e := List.foldl_concat ..

/-- One event more: a byte arrives only while fewer than the size of the buffer have come since it
was empty. -/
theorem drains_concat (es : List InEvent) (e : InEvent) :
    Drains (es ++ [e]) ↔ Drains es ∧ ∀ ch, e = .received ch →
      (mailRun es).unread.length < bufSize → (mailRun es).since < bufSize := by
  constructor
  · intro h
    refine ⟨fun pre ch post hes => h pre ch (post ++ [e]) (by simp [hes]), ?_⟩
    intro ch he
    exact h es ch [] (by simp [he])
  · intro ⟨hes, he⟩ pre ch post heq
    rcases List.eq_nil_or_concat post with rfl | ⟨post, e', rfl⟩
    · obtain ⟨rfl, heq⟩ := List.append_inj' heq rfl
      exact he ch (by simpa using heq)
    · refine hes pre ch post ?_
      have hcat : es ++ [e] = (pre ++ .received ch :: post) ++ [e'] := by simpa using heq
      exact (List.append_inj' hcat rfl).1

/-- A run that drains in time agrees with the queue. -/
theorem inRun_rel {es : List InEvent} (h : Drains es) : InRel (inRun es) (mailRun es) := by
  induction es using List.reverseRecOn with
  | nil => exact inRel_init
  | append_singleton es e ih =>
    obtain ⟨hes, he⟩ := (drains_concat es e).mp h
    rw [inRun_concat, mailRun_concat]
    exact (ih hes).step e he

/-- The record of accesses grows. -/
theorem accesses_mono (r : InRun) (e : InEvent) {i : Nat} (h : i ∈ r.accesses) :
    i ∈ (inStep r e).accesses := by
  cases e <;> exact List.mem_append_left _ h

/-- The first character that comes too late goes behind the array. -/
theorem inRun_overrun {es : List InEvent} (h : ¬ Drains es) :
    ∃ i ∈ (inRun es).accesses, bufSize ≤ i := by
  induction es using List.reverseRecOn with
  | nil =>
    refine absurd (fun pre ch post hes => ?_) h
    simp at hes
  | append_singleton es e ih =>
    rw [inRun_concat]
    by_cases hes : Drains es
    · have hrel := inRun_rel hes
      obtain ⟨ch, rfl, hroom, hsince⟩ : ∃ ch, e = .received ch ∧
          (mailRun es).unread.length < bufSize ∧ bufSize ≤ (mailRun es).since := by
        by_contra hno
        refine h ((drains_concat es e).mpr ⟨hes, fun ch he hroom => ?_⟩)
        by_contra hsince
        exact hno ⟨ch, he, hroom, Nat.le_of_not_lt hsince⟩
      refine ⟨(inRun es).sio.inlast, ?_, by rw [hrel.last]; exact hsince⟩
      simp [inStep, hrel.room.mpr hroom]
    · obtain ⟨i, hi, hlow⟩ := ih hes
      exact ⟨i, accesses_mono _ e hi, hlow⟩

/-- **Serial input is a bounded queue** on a run exactly if the buffer has been empty in
time: whenever a character arrives for which there is room, fewer than `BUF_SIZE` have
been stored since. -/
theorem input_fifo_iff (es : List InEvent) :
    ((∀ i ∈ (inRun es).accesses, i < bufSize) ∧
      (inRun es).returned = (mailRun es).returned.map UInt8.toUInt32) ↔ Drains es := by
  constructor
  · intro ⟨hin, _⟩
    by_contra hnot
    obtain ⟨i, hi, hlow⟩ := inRun_overrun hnot
    exact absurd (hin i hi) (Nat.not_lt_of_le hlow)
  · intro h
    have hrel := inRun_rel h
    exact ⟨hrel.accesses, hrel.returned⟩

/-- As long as characters are only received, all of them are unread. -/
theorem mailRun_fill (ch : UInt8) {n : Nat} (h : n ≤ bufSize) :
    mailRun (List.replicate n (.received ch)) = ⟨List.replicate n (crToLf ch), [], n⟩ := by
  induction n with
  | zero => rfl
  | succ n ih =>
    have hroom : (List.replicate n (crToLf ch)).length < bufSize := by
      rw [List.length_replicate]
      exact h
    rw [List.replicate_succ', mailRun_concat, ih (Nat.le_of_succ_le h)]
    simp only [mailStep, if_pos hroom]
    rw [List.replicate_succ']

/-- 2048 characters, of which one is read, and one character more. -/
def overfill : List InEvent :=
  List.replicate bufSize (.received 97) ++ [.readc] ++ [.received 98]

/-- The last character is stored behind the array. -/
theorem overfill_leaves_buffer :
    ¬ ((∀ i ∈ (inRun overfill).accesses, i < bufSize) ∧
      (inRun overfill).returned = (mailRun overfill).returned.map UInt8.toUInt32) := by
  have hread : mailRun (List.replicate bufSize (.received 97) ++ [.readc]) =
      ⟨List.replicate 2047 97, [97], 2048⟩ := by
    rw [mailRun_concat, mailRun_fill 97 (Nat.le_refl _)]
    rfl
  have hlate : ¬ Drains overfill := by
    intro h
    have hsince := h (List.replicate bufSize (.received 97) ++ [.readc]) 98 [] rfl
    rw [hread] at hsince
    exact absurd (hsince (by rw [List.length_replicate]; decide)) (Nat.lt_irrefl _)
  intro ⟨hin, _⟩
  obtain ⟨i, hi, hlow⟩ := inRun_overrun hlate
  exact absurd (hin i hi) (Nat.not_lt_of_le hlow)

end Cumulonimbus
