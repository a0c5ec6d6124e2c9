import Cumulonimbus.Bytes
import Cumulonimbus.Process

/-!
# Messages over the network

`_knet_send_msg` and `_knet_process_frame` of `knet.c`, over frames of bytes in the
layout of the packed structures of `ethernet.h` and `process.h`.  The sender builds its
frame on the stack and fills in every member that the receiver looks at but one: the
length in the CTP header.  So a message arrives exactly when the stale bytes there happen
to read as a number that is large enough (`message_received_iff`).
-/

namespace Cumulonimbus.Knet
open Function

def protoCtp : UInt16 := 0x0C79
def ctpIpc : UInt32 := 0x1f1f

/-- The size of an `ethframe_t`. -/
abbrev ethframeSize : Nat := 1514

abbrev maxMessageLen : Nat := 1024

/-- The size of a `message_t`. -/
def messageSize : Nat := 1050

/-- `MESSAGE_HDR_LEN`: two pids and a length. -/
def messageHdrLen : Nat := 26

abbrev numMessages : Nat := 20

/-- A `message_t`. -/
@[ext] structure Message where
  sender : Pid
  dest : Pid
  length : UInt16
  data : Fin maxMessageLen → UInt8

abbrev Frame := Fin ethframeSize → UInt8

/-! ## Members in bytes -/

/-- The 12 bytes of a `pid_t`. -/
def pidBytes (p : Pid) (k : Nat) : UInt8 :=
  if k < 4 then Bytes.byte p.id.toNat k
  else if h : k - 4 < 6 then p.host[k - 4]
  else Bytes.byte p.reserved.toNat (k - 10)

def pidAt (b : Nat → UInt8) : Pid where
  id := Bytes.get32 b 0
  host := Vector.ofFn fun i => b (4 + i.val)
  reserved := Bytes.get16 b 10

def Message.toBytes (m : Message) (k : Nat) : UInt8 :=
  if k < 12 then pidBytes m.sender k
  else if k < 24 then pidBytes m.dest (k - 12)
  else if k < 26 then Bytes.byte m.length.toNat (k - 24)
  else if h : k - 26 < maxMessageLen then m.data ⟨k - 26, h⟩
  else 0

def Message.ofBytes (b : Nat → UInt8) : Message where
  sender := pidAt b
  dest := pidAt fun k => b (12 + k)
  length := Bytes.get16 b 24
  data := fun k => b (26 + k.val)

/-- The bytes of a frame from an offset on. -/
def bytesFrom (f : Frame) (off : Nat) : Nat → UInt8 := fun k => f (Fin.ofNat ethframeSize (off + k))

/-- `memcpy` of `w` bytes to an offset in a frame. -/
def poke (f : Frame) (off w : Nat) (b : Nat → UInt8) : Frame := fun k =>
  if off ≤ k.val ∧ k.val < off + w then b (k.val - off) else f k

/-- The member `type` of the frame's CTP header, and so on for the others. -/
def frameProto (f : Frame) : UInt16 := Bytes.get16 (bytesFrom f 12) 0
def ctpLength (f : Frame) : UInt16 := Bytes.get16 (bytesFrom f 14) 0
def ctpType (f : Frame) : UInt32 := Bytes.get32 (bytesFrom f 16) 0

/-- The message behind the CTP header. -/
def frameMessage (f : Frame) : Message := .ofBytes (bytesFrom f 28)

/-! ## Sending -/

/-- Build the frame for a message in a buffer with the given contents. -/
def messageFrame (localMac : MacAddress) (frame : Frame) (msg : Message) : Frame :=
  let frame := poke frame 6 6 fun k => localMac.toArray.getD k 0
  let frame := poke frame 0 6 fun k => msg.dest.host.toArray.getD k 0
  let frame := poke frame 12 2 (Bytes.byte protoCtp.toNat)
  let frame := poke frame 16 4 (Bytes.byte ctpIpc.toNat)
  poke frame 28 messageSize msg.toBytes

/-- Send a message: the status, and the bytes handed to the transmit routine, which
reports success. -/
def knetSendMsg (localMac : MacAddress) (frame : Frame) (msg : Option Message) :
    Status × Option Frame :=
  match msg with
  | none => (.badParam, none)
  | some msg => (.success, some (messageFrame localMac frame msg))

/-! ## Receiving -/

/-- The difference of two words, if there is one. -/
def wordDiff (s1 s2 : Nat → UInt8) (i : Nat) : Option Int32 :=
  let x := (Bytes.get32 s1 (4 * i)).toInt32
  let y := (Bytes.get32 s2 (4 * i)).toInt32
  if x ≠ y then some (x - y) else none

def byteDiff (s1 s2 : Nat → UInt8) (i : Nat) : Option Int32 :=
  let x := (s1 i).toInt8
  let y := (s2 i).toInt8
  if x ≠ y then some (x.toInt32 - y.toInt32) else none

/-- `memcmp` of `utils.c`: word by word first, where there are words. -/
def memcmp (s1 s2 : Nat → UInt8) (size : Nat) : Int32 :=
  if size < 4 then ((List.range size).findSome? (byteDiff s1 s2)).getD 0
  else
    (((List.range (size / 4)).findSome? (wordDiff s1 s2)).or
      ((List.range size).findSome? (byteDiff s1 s2))).getD 0

/-- An entry of `_messages`. -/
structure Slot where
  avail : Bool
  mesg : Message

abbrev Table := Fin numMessages → Slot

/-- The search of `_knet_get_avail_msg` from `idx` on, for at most as many turns as the
first argument says.  It is meant to end where it began; `_next_message_idx` is 0 and
stays 0, and `idx` is never 0 after a turn, so it goes on until it finds a buffer. -/
def availLoop (t : Table) : Nat → Nat → Option (Fin numMessages)
  | 0, _ => none
  | n + 1, idx =>
    let idx := if h : idx < numMessages then ⟨idx, h⟩ else (0 : Fin numMessages)
    if (t idx).avail then some idx else availLoop t n (idx.val + 1)

/-- Claim a free buffer, or never return if there is none. -/
def knetGetAvailMsg (t : Table) : Option (Fin numMessages × Table) :=
  (availLoop t (numMessages + 1) 0).map fun i =>
    (i, Function.update t i { t i with avail := false })

/-- Take in a frame; `none` where the source never returns. -/
def knetProcessFrame (localMac : MacAddress) (t : Table) (frame : Frame) : Option Table :=
  if frameProto frame = protoCtp ∧ ctpType frame = ctpIpc ∧
      messageHdrLen ≤ (ctpLength frame).toNat then
    let temp := frameMessage frame
    if memcmp (fun k => temp.dest.host.toArray.getD k 0) (fun k => localMac.toArray.getD k 0) 6 =
        0 then
      (knetGetAvailMsg t).map fun (i, t) => Function.update t i { t i with mesg := temp }
    else some t
  else some t

/-! ## What is read back -/

/-- A field of a frame after another one has been stored. -/
theorem bytesFrom_poke (f : Frame) (o w : Nat) (b : Nat → UInt8) {off k : Nat}
    (hk : off + k < ethframeSize) :
    bytesFrom (poke f o w b) off k =
      if o ≤ off + k ∧ off + k < o + w then b (off + k - o) else bytesFrom f off k := by
  unfold bytesFrom poke
  have hval : (Fin.ofNat ethframeSize (off + k)).val = off + k := Nat.mod_eq_of_lt hk
  rw [hval]

/-- The bytes of the written part. -/
theorem bytesFrom_poke_self (f : Frame) {off w k : Nat} (b : Nat → UInt8) (hk : k < w)
    (hw : off + w ≤ ethframeSize) : bytesFrom (poke f off w b) off k = b k := by
  rw [bytesFrom_poke _ _ _ _ (by omega), if_pos (by omega), Nat.add_sub_cancel_left]

/-- The bytes of any other part. -/
theorem bytesFrom_poke_of_disjoint (f : Frame) {o w off k : Nat} (b : Nat → UInt8)
    (hk : off + k < ethframeSize) (h : off + k < o ∨ o + w ≤ off + k) :
    bytesFrom (poke f o w b) off k = bytesFrom f off k := by
  rw [bytesFrom_poke _ _ _ _ hk, if_neg (by omega)]

/-- A pid is its twelve bytes. -/
theorem pidAt_eq {b : Nat → UInt8} {p : Pid} (h : ∀ k, k < 12 → b k = pidBytes p k) :
    pidAt b = p := by
  have hid : Bytes.get32 b 0 = p.id := by
    refine Bytes.get32_eq fun k hk => ?_
    rw [Nat.zero_add, h k (by omega), pidBytes, if_pos hk]
  have hres : Bytes.get16 b 10 = p.reserved := by
    refine Bytes.get16_eq fun k hk => ?_
    rw [h _ (by omega), pidBytes, if_neg (by omega), dif_neg (by omega), Nat.add_sub_cancel_left]
  have hhost : (Vector.ofFn fun i => b (4 + i.val)) = p.host := by
    ext i hi
    rw [Vector.getElem_ofFn, h _ (by omega), pidBytes, if_neg (by omega)]
    simp [hi]
  rw [pidAt, hid, hres, hhost]

/-- A message is determined by its bytes. -/
theorem Message.ofBytes_eq {b : Nat → UInt8} {m : Message}
    (h : ∀ k, k < messageSize → b k = m.toBytes k) : Message.ofBytes b = m := by
  unfold messageSize at h
  have hsender : pidAt b = m.sender := by
    refine pidAt_eq fun k hk => ?_
    rw [h k (by omega), toBytes, if_pos hk]
  have hdest : (pidAt fun k => b (12 + k)) = m.dest := by
    refine pidAt_eq fun k hk => ?_
    rw [h _ (by omega), toBytes, if_neg (by omega), if_pos (by omega), Nat.add_sub_cancel_left]
  have hlength : Bytes.get16 b 24 = m.length := by
    refine Bytes.get16_eq fun k hk => ?_
    rw [h _ (by omega), toBytes, if_neg (by omega), if_neg (by omega), if_pos (by omega),
      Nat.add_sub_cancel_left]
  have hdata : (fun k : Fin maxMessageLen => b (26 + k.val)) = m.data := by
    funext k
    have hk : k.val < 1024 := k.isLt
    rw [h _ (by omega), toBytes, if_neg (by omega), if_neg (by omega), if_neg (by omega)]
    simp [hk]
  rw [ofBytes, hsender, hdest, hlength, hdata]

/-! ## The frame that is sent -/

section
variable (localMac : MacAddress) (frame : Frame) (m : Message)

/-- **What was sent is what is read** from the frame. -/
theorem frameMessage_messageFrame : frameMessage (messageFrame localMac frame m) = m := by
  refine Message.ofBytes_eq fun k hk => ?_
  exact bytesFrom_poke_self _ _ hk (by decide)

/-- The frame has the protocol that the receiver asks for. -/
theorem frameProto_messageFrame : frameProto (messageFrame localMac frame m) = protoCtp := by
  refine Bytes.get16_eq fun k hk => ?_
  rw [Nat.zero_add]
  have hlt : 12 + k < 1514 := by omega
  unfold messageFrame
  rw [bytesFrom_poke_of_disjoint _ _ hlt (by omega),
    bytesFrom_poke_of_disjoint _ _ hlt (by omega),
    bytesFrom_poke_self _ _ hk (by decide)]

/-- And the type. -/
theorem ctpType_messageFrame : ctpType (messageFrame localMac frame m) = ctpIpc := by
  refine Bytes.get32_eq fun k hk => ?_
  rw [Nat.zero_add]
  have hlt : 16 + k < 1514 := by omega
  unfold messageFrame
  rw [bytesFrom_poke_of_disjoint _ _ hlt (by omega),
    bytesFrom_poke_self _ _ hk (by decide)]

/-- The length in the CTP header is what the stack held. -/
theorem ctpLength_messageFrame : ctpLength (messageFrame localMac frame m) = ctpLength frame := by
  refine Bytes.get16_congr fun k hk => ?_
  have hlt : 14 + (0 + k) < 1514 := by omega
  unfold messageFrame
  rw [bytesFrom_poke_of_disjoint _ _ hlt (by omega),
    bytesFrom_poke_of_disjoint _ _ hlt (by omega),
    bytesFrom_poke_of_disjoint _ _ hlt (by omega),
    bytesFrom_poke_of_disjoint _ _ hlt (by omega),
    bytesFrom_poke_of_disjoint _ _ hlt (by omega)]

end

/-! ## Comparing addresses -/

/-- Signed and unsigned are the same bits. -/
theorem toInt32_injective : Injective UInt32.toInt32 :=
  LeftInverse.injective UInt32.toUInt32_toInt32

/-- For bytes as well. -/
theorem toInt8_injective : Injective UInt8.toInt8 := LeftInverse.injective UInt8.toUInt8_toInt8

/-- Two words are the same exactly when the comparison goes on. -/
theorem wordDiff_eq_none {s1 s2 : Nat → UInt8} {i : Nat} :
    wordDiff s1 s2 i = none ↔ Bytes.get32 s1 (4 * i) = Bytes.get32 s2 (4 * i) := by
  simp [wordDiff, toInt32_injective.eq_iff]

/-- So are two bytes. -/
theorem byteDiff_eq_none {s1 s2 : Nat → UInt8} {i : Nat} :
    byteDiff s1 s2 i = none ↔ s1 i = s2 i := by
  simp [byteDiff, toInt8_injective.eq_iff]

/-- Where it stops the difference is not 0. -/
theorem wordDiff_ne_zero {s1 s2 : Nat → UInt8} {i : Nat} : wordDiff s1 s2 i ≠ some 0 := by
  unfold wordDiff
  grind

/-- For bytes as well. -/
theorem byteDiff_ne_zero {s1 s2 : Nat → UInt8} {i : Nat} : byteDiff s1 s2 i ≠ some 0 := by
  have hinj : Injective Int8.toInt32 := LeftInverse.injective Int8.toInt8_toInt32
  unfold byteDiff
  grind [Injective]

/-- The first difference in a range is 0 if there is none. -/
theorem findSome?_getD_eq_zero {f : Nat → Option Int32} (hne : ∀ i, f i ≠ some 0) (n : Nat) :
    ((List.range n).findSome? f).getD 0 = 0 ↔ ∀ i, i < n → f i = none := by
  rcases hf : (List.range n).findSome? f with _ | x
  · simpa using hf
  · obtain ⟨i, hi, hx⟩ := List.exists_of_findSome?_eq_some hf
    have hlt : i < n := List.mem_range.mp hi
    have hx0 : x ≠ 0 := fun h => hne i (h ▸ hx)
    simp only [Option.getD_some, hx0, false_iff]
    intro h
    rw [h i hlt] at hx
    cases hx

/-- `memcmp` returns 0 exactly on equal bytes. -/
theorem memcmp_eq_zero {s1 s2 : Nat → UInt8} {size : Nat} :
    memcmp s1 s2 size = 0 ↔ ∀ k, k < size → s1 k = s2 k := by
  have hbytes : ((List.range size).findSome? (byteDiff s1 s2)).getD 0 = 0 ↔
      ∀ k, k < size → s1 k = s2 k := by
    simp only [findSome?_getD_eq_zero (fun _ => byteDiff_ne_zero), byteDiff_eq_none]
  unfold memcmp
  split
  · exact hbytes
  · rcases hw : (List.range (size / 4)).findSome? (wordDiff s1 s2) with _ | x
    · exact hbytes
    · -- the words already differ, and so some byte does
      obtain ⟨i, hi, hx⟩ := List.exists_of_findSome?_eq_some hw
      have hlt : i < size / 4 := List.mem_range.mp hi
      have hx0 : x ≠ 0 := fun h => wordDiff_ne_zero (h ▸ hx)
      simp only [Option.some_or, Option.getD_some, hx0, false_iff]
      intro h
      have hnone : wordDiff s1 s2 i = none :=
        wordDiff_eq_none.mpr (Bytes.get32_congr fun k hk => h _ (by omega))
      rw [hnone] at hx
      cases hx

/-- **Two hardware addresses are compared** as they are. -/
theorem memcmp_mac {a b : MacAddress} :
    memcmp (fun k => a.toArray.getD k 0) (fun k => b.toArray.getD k 0) 6 = 0 ↔ a = b := by
  rw [memcmp_eq_zero]
  constructor
  · intro h
    ext i hi : 1
    simpa [hi] using h i hi
  · intro h k _
    rw [h]

/-! ## Claiming a buffer -/

/-- The search finds an available buffer before it has gone round. -/
theorem availLoop_isSome {t : Table} {i : Fin numMessages} (hi : (t i).avail) :
    ∀ {n idx : Nat}, idx ≤ i → i < idx + n → ∃ j, availLoop t n idx = some j ∧ (t j).avail := by
  intro n
  induction n with
  | zero => intro idx h h'; omega
  | succ n ih =>
    intro idx h h'
    have hlt : idx < numMessages := Nat.lt_of_le_of_lt h i.isLt
    simp only [availLoop, hlt, dif_pos]
    by_cases hav : (t ⟨idx, hlt⟩).avail
    · exact ⟨⟨idx, hlt⟩, if_pos hav, hav⟩
    · rw [if_neg hav]
      have hne : idx ≠ i.val := by
        intro heq
        exact hav (by simpa [heq] using hi)
      exact ih (by omega) (by omega)

/-- An available slot is found if there is one, and taken. -/
theorem knetGetAvailMsg_eq {t : Table} (h : ∃ i, (t i).avail) :
    ∃ j, (t j).avail ∧ knetGetAvailMsg t = some (j, update t j { t j with avail := false }) := by
  obtain ⟨i, hi⟩ := h
  obtain ⟨j, hj, hav⟩ := availLoop_isSome hi (Nat.zero_le _)
    (by omega : i.val < 0 + (numMessages + 1))
  exact ⟨j, hav, by rw [knetGetAvailMsg, hj]; rfl⟩

/-! ## From the sender to the receiver -/

/-- What the arrival of a message should do to the buffers of a host: on the host it is
for, one available buffer is claimed and holds the message; on any other, nothing. -/
def Delivered (mac : MacAddress) (m : Message) (t t' : Table) : Prop :=
  if mac = m.dest.host then ∃ i, (t i).avail ∧ t' = update t i ⟨false, m⟩ else t' = t

/-- A frame that passes the header checks. -/
theorem knetProcessFrame_of_accepted {mac : MacAddress} {t : Table} {f : Frame}
    (hproto : frameProto f = protoCtp) (htype : ctpType f = ctpIpc)
    (hlen : messageHdrLen ≤ (ctpLength f).toNat)
    (avail : mac = (frameMessage f).dest.host → ∃ i, (t i).avail) :
    ∃ t', knetProcessFrame mac t f = some t' ∧ Delivered mac (frameMessage f) t t' := by
  unfold knetProcessFrame Delivered
  rw [if_pos ⟨hproto, htype, hlen⟩]
  simp only [memcmp_mac]
  by_cases hmac : mac = (frameMessage f).dest.host
  · obtain ⟨j, hav, hget⟩ := knetGetAvailMsg_eq (avail hmac)
    refine ⟨update t j ⟨false, frameMessage f⟩, ?_, ?_⟩
    · rw [if_pos hmac.symm, hget]
      simp
    · rw [if_pos hmac]
      exact ⟨j, hav, rfl⟩
  · rw [if_neg (Ne.symm hmac)]
    exact ⟨t, rfl, if_neg hmac ▸ rfl⟩

/-- A frame with too small a length is ignored. -/
theorem knetProcessFrame_of_short {mac : MacAddress} {t : Table} {f : Frame}
    (hlen : ¬ messageHdrLen ≤ (ctpLength f).toNat) : knetProcessFrame mac t f = some t := by
  unfold knetProcessFrame
  rw [if_neg fun h => hlen h.2.2]

/-- A message that arrives changes the buffers. -/
theorem Delivered.ne {mac : MacAddress} {m : Message} {t t' : Table} (h : Delivered mac m t t')
    (hmac : mac = m.dest.host) : t' ≠ t := by
  rw [Delivered, if_pos hmac] at h
  obtain ⟨i, hav, rfl⟩ := h
  intro heq
  have hi := congrFun heq i
  rw [update_self] at hi
  rw [← hi] at hav
  cases hav

/-- **Sent messages are received intact exactly when the stale length lets them.**  Whatever
was in the frame buffer, the frame sent for a message does to the buffers of a host what it
should, if and only if the host is another one or bytes 14 and 15 of the frame buffer already
read as a length of at least `MESSAGE_HDR_LEN`. -/
theorem message_received_iff (localMac mac : MacAddress) (stale : Frame) (m : Message)
    (t : Table) (avail : mac = m.dest.host → ∃ i, (t i).avail) :
    (∃ f t', knetSendMsg localMac stale (some m) = (.success, some f) ∧
        knetProcessFrame mac t f = some t' ∧ Delivered mac m t t') ↔
      (mac = m.dest.host → messageHdrLen ≤ (ctpLength stale).toNat) := by
  constructor
  · intro ⟨f, t', hsend, hrecv, hdel⟩ hmac
    cases hsend
    by_contra hlen
    rw [← ctpLength_messageFrame localMac stale m] at hlen
    rw [knetProcessFrame_of_short hlen, Option.some_inj] at hrecv
    exact hdel.ne hmac hrecv.symm
  · intro h
    have hmsg := frameMessage_messageFrame localMac stale m
    by_cases hlen : messageHdrLen ≤ (ctpLength stale).toNat
    · obtain ⟨t', hrecv, hdel⟩ := knetProcessFrame_of_accepted
        (frameProto_messageFrame localMac stale m) (ctpType_messageFrame localMac stale m)
        ((ctpLength_messageFrame localMac stale m).symm ▸ hlen) (hmsg.symm ▸ avail)
      exact ⟨_, t', rfl, hrecv, hmsg ▸ hdel⟩
    · have hmac : mac ≠ m.dest.host := fun heq => hlen (h heq)
      refine ⟨_, t, rfl, knetProcessFrame_of_short ?_, ?_⟩
      · rw [ctpLength_messageFrame]
        exact hlen
      · rw [Delivered, if_neg hmac]

/-- A message from process 5 of one host to process 9 of another. -/
def greeting : Message where
  sender := ⟨5, Vector.replicate 6 1, 0⟩
  dest := ⟨9, Vector.replicate 6 2, 0⟩
  length := 5
  data k := UInt8.ofNat (104 + k.val)

/-- The buffers of the other host; the first one is in use. -/
def someBuffers : Table := fun i => ⟨decide (i ≠ 0), { greeting with length := 0 }⟩

theorem greeting_received :
    ∃ f t', knetSendMsg (Vector.replicate 6 1) (fun _ => 255) (some greeting) =
        (.success, some f) ∧
      knetProcessFrame greeting.dest.host someBuffers f = some t' ∧
      Delivered greeting.dest.host greeting someBuffers t' :=
  (message_received_iff _ _ _ _ _ fun _ => ⟨1, by decide⟩).mpr fun _ => by decide

/-- An empty message between two processes of the host with the all-zero address. -/
def emptyMessage : Message := ⟨pidClear, pidClear, 0, fun _ => 0⟩

/-- A frame buffer that happens to be all zeros: the message is ignored on arrival. -/
theorem zero_frame_drops_message :
    ¬ ∀ (localMac mac : MacAddress) (stale : Frame) (m : Message) (t : Table),
      (mac = m.dest.host → ∃ i, (t i).avail) →
        ∃ f t', knetSendMsg localMac stale (some m) = (.success, some f) ∧
          knetProcessFrame mac t f = some t' ∧ Delivered mac m t t' := by
  intro h
  let t : Table := fun _ => ⟨true, emptyMessage⟩
  obtain ⟨f, t', hsend, hrecv, hdel⟩ :=
    h pidClear.host pidClear.host (fun _ => 0) emptyMessage t fun _ => ⟨0, rfl⟩
  cases hsend
  rw [knetProcessFrame_of_short] at hrecv
  · exact hdel.ne rfl (Option.some_inj.mp hrecv).symm
  · rw [ctpLength_messageFrame]
    decide

end Cumulonimbus.Knet
