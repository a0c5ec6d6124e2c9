import Cumulonimbus.Knet
import Mathlib.Data.Fintype.Card

/-!
# The search for a message buffer

`_knet_get_avail_msg` of `knet.c` with its index `_next_message_idx`, and the frames that
need it.  The loop wraps its index at the top and tests it for the start at the bottom, so
from index 0 the test compares 20 with 0 once a round.  Index 0 is the one the kernel uses:
`_next_message_idx` is never written.  So the search returns exactly when a buffer is free
or the index is not 0 (`frames_processed_iff`).
-/

namespace Cumulonimbus.Knet
open Function

/-- `_messages` and `_next_message_idx`. -/
structure Buffers where
  messages : Table
  nextMessageIdx : Fin numMessages

/-- `_messages[i].avail = FALSE`. -/
def Buffers.claim (b : Buffers) (i : Fin numMessages) : Buffers :=
  { b with messages := update b.messages i { b.messages i with avail := false } }

/-- `memcpy` of a message into a buffer. -/
def Buffers.store (b : Buffers) (i : Fin numMessages) (m : Message) : Buffers :=
  { b with messages := update b.messages i { b.messages i with mesg := m } }

/-- `if(idx >= NUM_MESSAGES) idx = 0`. -/
def wrapped (idx : Nat) : Fin numMessages :=
  if h : idx < numMessages then ⟨idx, h⟩ else ⟨0, Nat.zero_lt_succ 19⟩

/-- The loop of `_knet_get_avail_msg` from `idx` on, for at most so many turns: `none` if it
is still running then, `some none` if it has left by its test. -/
def searchLoop (b : Buffers) : Nat → Nat → Option (Option (Fin numMessages))
  | 0, _ => none
  | n + 1, idx =>
    let idx := wrapped idx
    if (b.messages idx).avail then some (some idx)
    else if idx.val + 1 = b.nextMessageIdx.val then some none
    else searchLoop b n (idx.val + 1)

/-- The buffer that is returned, `none` for NULL, and the buffers then. -/
def getAvailMsg (fuel : Nat) (b : Buffers) : Option (Option (Fin numMessages) × Buffers) :=
  match searchLoop b fuel b.nextMessageIdx.val with
  | none => none
  | some none => some (none, b)
  | some (some i) => some (some i, b.claim i)

/-- The checks of `_knet_process_frame`: an IPC message for this host. -/
def addressed (localMac : MacAddress) (frame : Frame) : Bool :=
  if frameProto frame = protoCtp ∧ ctpType frame = ctpIpc ∧
      messageHdrLen ≤ (ctpLength frame).toNat then
    if memcmp (fun k => (frameMessage frame).dest.host.toArray.getD k 0)
        (fun k => localMac.toArray.getD k 0) 6 = 0 then true
    else false
  else false

/-- `_knet_process_frame`; a message that finds no buffer is dropped. -/
def processFrame (fuel : Nat) (localMac : MacAddress) (b : Buffers) (frame : Frame) :
    Option Buffers :=
  if addressed localMac frame then
    match getAvailMsg fuel b with
    | none => none
    | some (none, b) => some b
    | some (some i, b) => some (b.store i (frameMessage frame))
  else some b

def processFrames (fuel : Nat) (localMac : MacAddress) (b : Buffers) : List Frame → Option Buffers
  | [] => some b
  | f :: fs => (processFrame fuel localMac b f).bind fun b => processFrames fuel localMac b fs

/-! ## The two kinds of start -/

/-- One turn of the loop. -/
theorem availLoop_succ (t : Table) (n idx : Nat) :
    availLoop t (n + 1) idx =
      if (t (wrapped idx)).avail then some (wrapped idx)
      else availLoop t n ((wrapped idx).val + 1) := rfl

/-- From index 0 the test at the bottom never succeeds. -/
theorem searchLoop_of_zero {b : Buffers} (h : b.nextMessageIdx = 0) (n idx : Nat) :
    searchLoop b n idx = (availLoop b.messages n idx).map some := by
  induction n generalizing idx with
  | zero => rfl
  | succ n ih =>
    simp only [searchLoop, availLoop_succ, h]
    split <;> simp [ih]

/-- With every slot in use nothing is found. -/
theorem availLoop_eq_none {t : Table} (h : ∀ i, (t i).avail = false) (n idx : Nat) :
    availLoop t n idx = none := by
  induction n generalizing idx with
  | zero => rfl
  | succ n ih =>
    simp [availLoop_succ, h, ih]

/-- What is found is available. -/
theorem availLoop_avail {t : Table} {n idx : Nat} {i : Fin numMessages}
    (h : availLoop t n idx = some i) : (t i).avail := by
  induction n generalizing idx with
  | zero => cases h
  | succ n ih =>
    rw [availLoop_succ] at h
    by_cases hav : (t (wrapped idx)).avail
    · rw [if_pos hav] at h
      cases h
      exact hav
    · rw [if_neg hav] at h
      exact ih h

/-- The `k`-th place that a search from `s` looks at. -/
def place (s : Fin numMessages) (k : Nat) : Fin numMessages :=
  ⟨(s.val + k) % numMessages, Nat.mod_lt _ (by decide)⟩

/-- The search comes to every slot, wherever it starts. -/
theorem exists_place (s i : Fin numMessages) : ∃ k, k < numMessages ∧ place s k = i := by
  have hs := s.isLt
  have hi := i.isLt
  refine ⟨(i.val + numMessages - s.val) % numMessages, Nat.mod_lt _ (by decide), ?_⟩
  ext
  simp only [place, numMessages] at *
  omega

/-- The search starts at the given slot. -/
theorem wrapped_val (s : Fin numMessages) : wrapped s.val = place s 0 := by
  rw [wrapped, dif_pos s.isLt]
  ext
  exact (Nat.mod_eq_of_lt s.isLt).symm

/-- It goes on with the next one, and from the last to the first. -/
theorem wrapped_succ (s : Fin numMessages) (k : Nat) :
    wrapped ((place s k).val + 1) = place s (k + 1) := by
  have hval : (place s k).val = (s.val + k) % 20 := rfl
  have hval' : (place s (k + 1)).val = (s.val + (k + 1)) % 20 := rfl
  have hlt : (place s k).val < 20 := (place s k).isLt
  ext
  by_cases hend : (place s k).val + 1 < 20
  · rw [wrapped, dif_pos hend]
    change (place s k).val + 1 = _
    omega
  · rw [wrapped, dif_neg hend]
    change 0 = _
    omega

/-- The test succeeds after a whole round, unless it began at index 0. -/
theorem place_succ_eq_iff {s : Fin numMessages} (h : s ≠ 0) {k : Nat} (hk : k < numMessages) :
    (place s k).val + 1 = s.val ↔ k + 1 = numMessages := by
  have hs := s.isLt
  have hpos : s.val ≠ 0 := fun h0 => h (Fin.ext h0)
  simp only [place, numMessages] at *
  omega

/-- A search from another index than 0, once it has looked at `k` places. -/
theorem searchLoop_of_ne_zero {b : Buffers} (h : b.nextMessageIdx ≠ 0) (n : Nat) :
    ∀ {k idx : Nat}, k + (n + 1) = numMessages → wrapped idx = place b.nextMessageIdx k →
      (∃ i, searchLoop b (n + 1) idx = some (some i) ∧ (b.messages i).avail) ∨
      (searchLoop b (n + 1) idx = some none ∧
        ∀ j, k ≤ j → j < numMessages → (b.messages (place b.nextMessageIdx j)).avail = false) := by
  induction n with
  | zero =>
    intro k idx hk hidx
    rw [searchLoop, hidx]
    by_cases hav : (b.messages (place b.nextMessageIdx k)).avail
    · exact .inl ⟨_, if_pos hav, hav⟩
    · right
      simp only [if_neg hav, if_pos ((place_succ_eq_iff h (by omega)).mpr hk), true_and]
      intro j hj hj'
      have : j = k := by omega
      simpa [this] using hav
  | succ n ih =>
    intro k idx hk hidx
    rw [searchLoop, hidx]
    by_cases hav : (b.messages (place b.nextMessageIdx k)).avail
    · exact .inl ⟨_, if_pos hav, hav⟩
    · have hend : ¬ (place b.nextMessageIdx k).val + 1 = b.nextMessageIdx.val := by
        rw [place_succ_eq_iff h (by omega)]
        omega
      simp only [if_neg hav, if_neg hend]
      rcases ih (by omega) (wrapped_succ b.nextMessageIdx k) with ⟨i, hi, hiav⟩ | ⟨hnull, hnone⟩
      · exact .inl ⟨i, hi, hiav⟩
      · right
        refine ⟨hnull, ?_⟩
        intro j hj hj'
        rcases Nat.eq_or_lt_of_le hj with rfl | hlt
        · simpa using hav
        · exact hnone j hlt hj'

/-! ## One search -/

/-- What a search should do: return a free buffer and claim it alone, or return NULL because
there is none. -/
def Searches (b : Buffers) : Prop :=
  ∃ fuel r, getAvailMsg fuel b = some r ∧
    ((∃ i, (b.messages i).avail ∧ r = (some i, b.claim i)) ∨
      ((∀ i, (b.messages i).avail = false) ∧ r = (none, b)))

/-- With a free buffer, a round and a turn are enough. -/
theorem getAvailMsg_of_avail {b : Buffers} (h : ∃ i, (b.messages i).avail) :
    ∃ i, (b.messages i).avail ∧ getAvailMsg numMessages b = some (some i, b.claim i) := by
  by_cases h0 : b.nextMessageIdx = 0
  · obtain ⟨i, hi⟩ := h
    obtain ⟨j, hj, hav⟩ := availLoop_isSome (n := numMessages) hi (Nat.zero_le i)
      (by omega)
    refine ⟨j, hav, ?_⟩
    have hval : b.nextMessageIdx.val = 0 := by rw [h0]; rfl
    rw [getAvailMsg, searchLoop_of_zero h0, hval, hj]
    rfl
  · rcases searchLoop_of_ne_zero h0 19 rfl (wrapped_val _) with ⟨i, hi, hav⟩ | ⟨_, hnone⟩
    · exact ⟨i, hav, by rw [getAvailMsg, hi]⟩
    · obtain ⟨i, hi⟩ := h
      obtain ⟨k, hk, rfl⟩ := exists_place b.nextMessageIdx i
      rw [hnone k (Nat.zero_le _) hk] at hi
      cases hi

/-- Without one, the search comes back to where it began, unless that is index 0. -/
theorem getAvailMsg_of_full {b : Buffers} (h : ∀ i, (b.messages i).avail = false) :
    (b.nextMessageIdx ≠ 0 → getAvailMsg numMessages b = some (none, b)) ∧
      (b.nextMessageIdx = 0 → ∀ fuel, getAvailMsg fuel b = none) := by
  constructor
  · intro h0
    rcases searchLoop_of_ne_zero h0 19 rfl (wrapped_val _) with ⟨i, _, hav⟩ | ⟨hnull, _⟩
    · rw [h i] at hav
      cases hav
    · rw [getAvailMsg, hnull]
  · intro h0 fuel
    rw [getAvailMsg, searchLoop_of_zero h0, availLoop_eq_none h]
    rfl

/-- **The search ends** if there is a slot, or if it does not start at slot 0. -/
theorem searches_iff (b : Buffers) :
    Searches b ↔ (∃ i, (b.messages i).avail) ∨ b.nextMessageIdx ≠ 0 := by
  constructor
  · intro h
    obtain ⟨fuel, r, hr, -⟩ := h
    by_contra hcon
    push Not at hcon
    have hfull : ∀ i, (b.messages i).avail = false := by simpa using hcon.1
    rw [(getAvailMsg_of_full hfull).2 hcon.2 fuel] at hr
    cases hr
  · intro h
    by_cases hav : ∃ i, (b.messages i).avail
    · obtain ⟨i, hi, hget⟩ := getAvailMsg_of_avail hav
      exact ⟨_, _, hget, .inl ⟨i, hi, rfl⟩⟩
    · have hfull : ∀ i, (b.messages i).avail = false := by simpa using hav
      have h0 : b.nextMessageIdx ≠ 0 := h.resolve_left hav
      exact ⟨_, _, (getAvailMsg_of_full hfull).1 h0, .inr ⟨hfull, rfl⟩⟩

/-! ## Frames one after another -/

/-- The buffers that are free. -/
def free (b : Buffers) : Finset (Fin numMessages) :=
  Finset.univ.filter fun i => (b.messages i).avail = true

/-- The slots that are available. -/
theorem mem_free {b : Buffers} {i : Fin numMessages} : i ∈ free b ↔ (b.messages i).avail := by
  simp [free]

/-- A message that is stored takes up one free buffer. -/
theorem free_store_claim (b : Buffers) (i : Fin numMessages) (m : Message) :
    free ((b.claim i).store i m) = (free b).erase i := by
  ext j
  by_cases hj : j = i
  · simp [mem_free, Buffers.store, Buffers.claim, hj]
  · simp [mem_free, Buffers.store, Buffers.claim, hj]

/-- What one frame does. -/
theorem processFrame_of_addressed {mac : MacAddress} {b : Buffers} {f : Frame}
    (ha : addressed mac f) (hfree : (free b).Nonempty) :
    ∃ i, i ∈ free b ∧
      processFrame numMessages mac b f = some ((b.claim i).store i (frameMessage f)) := by
  obtain ⟨i, hi⟩ := hfree
  obtain ⟨j, hj, hget⟩ := getAvailMsg_of_avail ⟨i, mem_free.mp hi⟩
  refine ⟨j, mem_free.mpr hj, ?_⟩
  rw [processFrame, if_pos ha, hget]

/-- With every slot in use a message is lost, or the search for a slot never ends. -/
theorem processFrame_of_full {mac : MacAddress} {b : Buffers} {f : Frame} (ha : addressed mac f)
    (hfull : ¬ (free b).Nonempty) :
    (b.nextMessageIdx ≠ 0 → processFrame numMessages mac b f = some b) ∧
      (b.nextMessageIdx = 0 → ∀ fuel, processFrame fuel mac b f = none) := by
  have hnone : ∀ i, (b.messages i).avail = false := by
    intro i
    by_contra hi
    exact hfull ⟨i, mem_free.mpr (by simpa using hi)⟩
  constructor
  · intro h0
    rw [processFrame, if_pos ha, (getAvailMsg_of_full hnone).1 h0]
  · intro h0 fuel
    rw [processFrame, if_pos ha, (getAvailMsg_of_full hnone).2 h0]

/-- A frame for somebody else is ignored. -/
theorem processFrame_of_not {mac : MacAddress} {b : Buffers} {f : Frame} (ha : ¬ addressed mac f)
    (fuel : Nat) : processFrame fuel mac b f = some b := if_neg ha

/-- A search that returns from index 0 has found a buffer. -/
theorem processFrame_of_zero {fuel : Nat} {mac : MacAddress} {b b' : Buffers} {f : Frame}
    (ha : addressed mac f) (h0 : b.nextMessageIdx = 0) (h : processFrame fuel mac b f = some b') :
    ∃ i, i ∈ free b ∧ b' = (b.claim i).store i (frameMessage f) := by
  have hav : (free b).Nonempty := by
    by_contra hfull
    rw [(processFrame_of_full ha hfull).2 h0 fuel] at h
    cases h
  rw [processFrame, if_pos ha, getAvailMsg, searchLoop_of_zero h0] at h
  rcases hi : availLoop b.messages fuel b.nextMessageIdx.val with _ | i
  · rw [hi] at h
    cases h
  · rw [hi] at h
    cases h
    exact ⟨i, mem_free.mpr (availLoop_avail hi), rfl⟩

/-- The frames of `Knet` are those of a host whose index is 0. -/
theorem processFrame_eq_knetProcessFrame (mac : MacAddress) {b : Buffers}
    (h0 : b.nextMessageIdx = 0) (f : Frame) :
    (processFrame (numMessages + 1) mac b f).map (·.messages) =
      knetProcessFrame mac b.messages f := by
  have hval : b.nextMessageIdx.val = 0 := by rw [h0]; rfl
  unfold processFrame knetProcessFrame getAvailMsg knetGetAvailMsg addressed
  rw [searchLoop_of_zero h0, hval]
  by_cases hacc : frameProto f = protoCtp ∧ ctpType f = ctpIpc ∧
      messageHdrLen ≤ (ctpLength f).toNat
  · simp only [if_pos hacc]
    split
    next hmac =>
      rcases availLoop b.messages (numMessages + 1) 0 with _ | i
      · simp
      · simp [Buffers.store, Buffers.claim]
    next => simp
  · simp [hacc]

/-- From another index than 0 every frame is dealt with. -/
theorem processFrames_of_ne_zero (mac : MacAddress) (frames : List Frame) :
    ∀ {b : Buffers}, b.nextMessageIdx ≠ 0 →
      ∃ b', processFrames numMessages mac b frames = some b' := by
  induction frames with
  | nil => exact fun {b} _ => ⟨b, rfl⟩
  | cons f fs ih =>
    intro b h0
    rw [processFrames]
    by_cases ha : addressed mac f
    · by_cases hfree : (free b).Nonempty
      · obtain ⟨i, _, hf⟩ := processFrame_of_addressed ha hfree
        rw [hf]
        exact ih h0
      · rw [(processFrame_of_full ha hfree).1 h0]
        exact ih h0
    · rw [processFrame_of_not ha]
      exact ih h0

/-- From index 0 there must be a buffer for each message. -/
theorem count_le_of_processFrames {fuel : Nat} {mac : MacAddress} {frames : List Frame} :
    ∀ {b b' : Buffers}, b.nextMessageIdx = 0 → processFrames fuel mac b frames = some b' →
      frames.countP (addressed mac) ≤ (free b).card := by
  induction frames with
  | nil => simp
  | cons f fs ih =>
    intro b b' h0 h
    obtain ⟨b₁, hf, hfs⟩ := Option.bind_eq_some_iff.mp h
    by_cases ha : addressed mac f
    · obtain ⟨i, hi, rfl⟩ := processFrame_of_zero ha h0 hf
      have hle := ih (b := (b.claim i).store i (frameMessage f)) h0 hfs
      have hpos : 0 < (free b).card := Finset.card_pos.mpr ⟨i, hi⟩
      rw [free_store_claim, Finset.card_erase_of_mem hi] at hle
      rw [List.countP_cons_of_pos ha]
      omega
    · rw [processFrame_of_not ha] at hf
      cases hf
      rw [List.countP_cons_of_neg ha]
      exact ih h0 hfs

/-- Messages for which there are slots enough are processed, by induction on the frames. -/
theorem processFrames_of_count_le {mac : MacAddress} {frames : List Frame} :
    ∀ {b : Buffers}, frames.countP (addressed mac) ≤ (free b).card →
      ∃ b', processFrames numMessages mac b frames = some b' := by
  induction frames with
  | nil => exact fun {b} _ => ⟨b, rfl⟩
  | cons f fs ih =>
    intro b h
    rw [processFrames]
    by_cases ha : addressed mac f
    · rw [List.countP_cons_of_pos ha] at h
      have hfree : (free b).Nonempty := Finset.card_pos.mp (by omega)
      obtain ⟨i, hi, hf⟩ := processFrame_of_addressed ha hfree
      rw [hf]
      refine ih ?_
      rw [free_store_claim, Finset.card_erase_of_mem hi]
      omega
    · rw [List.countP_cons_of_neg ha] at h
      rw [processFrame_of_not ha]
      exact ih h

/-- **The search returns exactly when a buffer is free or its index is not 0.**  Where it
returns it does what it should.  And a sequence of frames is dealt with exactly when the
index is not 0 or there is a free buffer for each message among them that is for this host. -/
theorem frames_processed_iff (b : Buffers) :
    (Searches b ↔ (∃ i, (b.messages i).avail) ∨ b.nextMessageIdx ≠ 0) ∧
    ∀ (mac : MacAddress) (frames : List Frame),
      (∃ fuel b', processFrames fuel mac b frames = some b') ↔
        b.nextMessageIdx ≠ 0 ∨ frames.countP (addressed mac) ≤ (free b).card := by
  refine ⟨searches_iff b, ?_⟩
  intro mac frames
  constructor
  · intro h
    obtain ⟨fuel, b', hrun⟩ := h
    by_cases h0 : b.nextMessageIdx = 0
    · exact .inr (count_le_of_processFrames h0 hrun)
    · exact .inl h0
  · intro h
    rcases h with h0 | hle
    · exact ⟨_, processFrames_of_ne_zero mac frames h0⟩
    · exact ⟨_, processFrames_of_count_le hle⟩

/-- The buffers of a host after twenty messages: the search for another never returns. -/
theorem full_buffers_hang :
    ¬ ((∀ b : Buffers, Searches b) ∧
      ∀ (b : Buffers) (mac : MacAddress) (frames : List Frame),
        ∃ fuel b', processFrames fuel mac b frames = some b') := by
  intro h
  obtain ⟨fuel, r, hr, -⟩ := h.1 ⟨fun _ => ⟨false, emptyMessage⟩, 0⟩
  rw [(getAvailMsg_of_full fun _ => rfl).2 rfl fuel] at hr
  cases hr

end Cumulonimbus.Knet
