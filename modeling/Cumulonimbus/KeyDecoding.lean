import Cumulonimbus.InputQueues

/-!
# Scan codes and characters

What `__c_input_scan_code` makes of a history of scan codes.  A key that goes down stands for an
entry of one of two tables; which one, and the mask that is put over it, is up to the last event of
a shift key and of a control key.  The number that marks an undefined entry is compared with a
signed character and never found, so that an undefined key is stored like any other
(`decodes_iff`).
-/

namespace Cumulonimbus.Screens

open Exec Ring

variable {s t : System} {L : Layout} {E : Fault → Prop} {k : Keyboard} {past codes : List UInt8}
  {code : UInt8}

/-! ## Characters by history -/

/-- Whether a scan code is a press or a release of a shift key. -/
def shiftEvent (code : UInt8) : Option Bool :=
  if code = 0x2a ∨ code = 0x36 then some true
  else if code = 0xaa ∨ code = 0xb6 then some false
  else none

/-- The same for the control key. -/
def ctrlEvent (code : UInt8) : Option Bool :=
  if code = 0x1d then some true else if code = 0x9d then some false else none

/-- Whether the latest shift event of a history, which is listed backwards, was a press. -/
def shiftAfter (past : List UInt8) : Bool := (past.findSome? shiftEvent).getD false

def ctrlMaskAfter (past : List UInt8) : UInt8 :=
  if (past.findSome? ctrlEvent).getD false then 0x1f else 0xff

/-- A key other than shift and control goes down. -/
def IsPress (code : UInt8) : Prop :=
  code &&& 0x80 = 0 ∧ shiftEvent code = none ∧ ctrlEvent code = none

instance (code : UInt8) : Decidable (IsPress code) := inferInstanceAs (Decidable (_ ∧ _ ∧ _))

/-- The entry of the table for a key, after a history. -/
def keyEntry (past : List UInt8) (code : UInt8) : UInt8 :=
  (scanCode (shiftAfter past)).getD code.toNat 0

/-- The characters that scan codes stand for, after a history. -/
def characters : List UInt8 → List UInt8 → List UInt8
  | _, [] => []
  | past, code :: codes =>
    (if IsPress code ∧ keyEntry past code ≠ 0xff then [keyEntry past code &&& ctrlMaskAfter past]
      else []) ++ characters (code :: past) codes

/-- No key with an undefined entry goes down. -/
def AllDefined : List UInt8 → List UInt8 → Prop
  | _, [] => True
  | past, code :: codes =>
    (IsPress code → keyEntry past code ≠ 0xff) ∧ AllDefined (code :: past) codes

instance AllDefined.decidable : ∀ past codes, Decidable (AllDefined past codes)
  | _, [] => inferInstanceAs (Decidable True)
  | past, code :: codes =>
    have : Decidable (AllDefined (code :: past) codes) := AllDefined.decidable (code :: past) codes
    inferInstanceAs (Decidable ((IsPress code → keyEntry past code ≠ 0xff) ∧
      AllDefined (code :: past) codes))

/-- What is stored: an entry for every key, defined or not. -/
def entries : List UInt8 → List UInt8 → List UInt8
  | _, [] => []
  | past, code :: codes =>
    (if IsPress code then [keyEntry past code &&& ctrlMaskAfter past] else []) ++
      entries (code :: past) codes

/-- While every key has a character all of them are entered. -/
theorem entries_eq (h : AllDefined past codes) : entries past codes = characters past codes := by
  induction codes generalizing past with
  | nil => rfl
  | cons code codes ih =>
    obtain ⟨hfirst, hrest⟩ := h
    rw [entries, characters, ih hrest]
    by_cases hpress : IsPress code
    · rw [if_pos hpress, if_pos ⟨hpress, hfirst hpress⟩]
    · rw [if_neg hpress, if_neg fun hboth => hpress hboth.1]

/-- No more characters than keys. -/
theorem characters_length_le (past codes : List UInt8) :
    (characters past codes).length ≤ (entries past codes).length := by
  induction codes generalizing past with
  | nil => exact Nat.le_refl 0
  | cons code codes ih =>
    have hrest := ih (code :: past)
    rw [entries, characters, List.length_append, List.length_append]
    by_cases hpress : IsPress code
    · rw [if_pos hpress, List.length_singleton]
      split
      · rw [List.length_singleton]
        omega
      · rw [List.length_nil]
        omega
    · rw [if_neg hpress, if_neg fun hboth => hpress hboth.1]
      omega

/-- An undefined key is one character too many. -/
theorem allDefined_of_length (h : (entries past codes).length = (characters past codes).length) :
    AllDefined past codes := by
  induction codes generalizing past with
  | nil => trivial
  | cons code codes ih =>
    have hrest := characters_length_le (code :: past) codes
    rw [entries, characters, List.length_append, List.length_append] at h
    by_cases hpress : IsPress code
    · by_cases hundefined : keyEntry past code = 0xff
      · rw [if_pos hpress, if_neg fun hboth => hboth.2 hundefined, List.length_singleton,
          List.length_nil] at h
        omega
      · rw [if_pos hpress, if_pos ⟨hpress, hundefined⟩, List.length_singleton] at h
        exact ⟨fun _ => hundefined, ih (by omega)⟩
    · rw [if_neg hpress, if_neg fun hboth => hpress hboth.1] at h
      exact ⟨fun hyes => absurd hyes hpress, ih (by omega)⟩

/-! ## The decoder -/

/-- The modifiers after a history. -/
def Keyboard.Recalls (k : Keyboard) (past : List UInt8) : Prop :=
  k.shift = shiftAfter past ∧ k.ctrlMask = ctrlMaskAfter past

/-- The shift state after one more code. -/
theorem shiftAfter_cons (code : UInt8) (past : List UInt8) :
    shiftAfter (code :: past) = (shiftEvent code).getD (shiftAfter past) := by
  rw [shiftAfter, List.findSome?_cons]
  cases shiftEvent code with
  | none => rfl
  | some b => rfl

/-- The control state after one more code. -/
theorem ctrlMaskAfter_cons (code : UInt8) (past : List UInt8) :
    ctrlMaskAfter (code :: past) = match ctrlEvent code with
      | none => ctrlMaskAfter past
      | some b => if b then 0x1f else 0xff := by
  rw [ctrlMaskAfter, List.findSome?_cons]
  cases ctrlEvent code with
  | none => rfl
  | some b => rfl

/-- A scan code by its kind. -/
theorem Keyboard.press_eq (k : Keyboard) (code : UInt8) : k.press code =
    { shift := (shiftEvent code).getD k.shift
      ctrlMask := match ctrlEvent code with
        | none => k.ctrlMask
        | some b => if b then 0x1f else 0xff
      unread := if IsPress code then put (inputSize - 1) k.unread
          ((scanCode k.shift).getD code.toNat 0 &&& k.ctrlMask)
        else k.unread } := by
  by_cases hdown : code = 0x2a ∨ code = 0x36
  · rcases hdown with rfl | rfl
    · rfl
    · rfl
  by_cases hup : code = 0xaa ∨ code = 0xb6
  · rcases hup with rfl | rfl
    · rfl
    · rfl
  by_cases hctrl : code = 0x1d
  · subst hctrl
    rfl
  by_cases hrelease : code = 0x9d
  · subst hrelease
    rfl
  have hshift : shiftEvent code = none := (if_neg hdown).trans (if_neg hup)
  have hnone : ctrlEvent code = none := (if_neg hctrl).trans (if_neg hrelease)
  rw [Keyboard.press, if_neg hdown, if_neg hup, if_neg hctrl, if_neg hrelease, hshift, hnone]
  by_cases hpress : code &&& 0x80 = 0
  · rw [if_pos hpress, if_pos ⟨hpress, hshift, hnone⟩]
    rfl
  · rw [if_neg hpress, if_neg fun hyes => hpress hyes.1]
    rfl

/-- One scan code, with room for a character. -/
theorem Keyboard.Recalls.press (h : k.Recalls past) (code : UInt8)
    (room : IsPress code → k.unread.length < inputSize - 1) :
    (k.press code).Recalls (code :: past) ∧ (k.press code).unread =
      k.unread ++ if IsPress code then [keyEntry past code &&& ctrlMaskAfter past] else [] := by
  obtain ⟨hshift, hctrl⟩ := h
  rw [Recalls, shiftAfter_cons, ctrlMaskAfter_cons, Keyboard.press_eq, hshift, hctrl]
  refine ⟨⟨rfl, rfl⟩, ?_⟩
  by_cases hpress : IsPress code
  · rw [if_pos hpress, if_pos hpress, put_of_lt (room hpress)]
    rfl
  · rw [if_neg hpress, if_neg hpress, List.append_nil]

/-! ## Typing and reading -/

/-- A scan code arrives, or a process takes a character, if there is one. -/
inductive KeyEvent
  | key (code : UInt8)
  | read (p : PcbId)

def KeyEvent.run (L : Layout) : KeyEvent → Op (Option UInt8)
  | .key code => do
    cInputScanCode L code
    return none
  | .read p => cGetcharDuring L p [] []

/-- The scan codes among the events. -/
def scanCodes : List KeyEvent → List UInt8
  | [] => []
  | .key code :: events => code :: scanCodes events
  | .read _ :: events => scanCodes events

/-- Whenever a key goes down there is room in the ring, which holds `n` characters now. -/
def HasRoom : List KeyEvent → Nat → Prop
  | [], _ => True
  | .key code :: events, n =>
    (IsPress code → n < inputSize - 1) ∧ HasRoom events (if IsPress code then n + 1 else n)
  | .read _ :: events, n => HasRoom events (n - 1)

instance HasRoom.decidable : ∀ events n, Decidable (HasRoom events n)
  | [], _ => inferInstanceAs (Decidable True)
  | .key code :: events, n =>
    have : Decidable (HasRoom events (if IsPress code then n + 1 else n)) :=
      HasRoom.decidable events _
    inferInstanceAs (Decidable ((IsPress code → n < inputSize - 1) ∧
      HasRoom events (if IsPress code then n + 1 else n)))
  | .read _ :: events, n => HasRoom.decidable events (n - 1)

/-- The characters read and those still in the ring are the ones that the scan codes stand for. -/
def Decodes (L : Layout) (s : System) (events : List KeyEvent) : Prop :=
  wp (events.mapM (KeyEvent.run L)) (fun read t => ∃ unread,
      (t.screens t.activeScreen).kbBuf.Queues (L.kb t.activeScreen) unread ∧
      read.reduceOption ++ unread = characters [] (scanCodes events)) (fun _ => False) s

/-- **Any calls** yield what the codes mean, by induction on the calls. -/
theorem run_entries (events : List KeyEvent) (h : s.Types L k) (recalls : k.Recalls past)
    (room : HasRoom events k.unread.length)
    (readers : ∀ p, KeyEvent.read p ∈ events → s.pcbScreen p = s.activeScreen) :
    wp (events.mapM (KeyEvent.run L)) (fun read t => ∃ k', t.Types L k' ∧
      read.reduceOption ++ k'.unread = k.unread ++ entries past (scanCodes events)) E s := by
  induction events generalizing s k past with
  | nil => exact ⟨k, h, (List.append_nil _).symm⟩
  | cons e events ih =>
    rw [List.mapM_cons]
    cases e with
    | key code =>
      obtain ⟨hfits, hroom⟩ := room
      obtain ⟨hrecalls, hunread⟩ := recalls.press code hfits
      rw [KeyEvent.run, wp_bind, wp_bind]
      refine wp_mono (cInputScanCode_types h code) ?_ fun _ he => he
      intro _ t hpost
      obtain ⟨ht, hview⟩ := hpost
      rw [wp_pure]
      refine wp_seq (ih ht hrecalls ?_ fun p hp => ?_) ?_
      · rw [hunread, List.length_append]
        by_cases hpress : IsPress code
        · rw [if_pos hpress] at hroom ⊢
          exact hroom
        · rw [if_neg hpress] at hroom ⊢
          exact hroom
      · rw [hview.1, hview.2]
        exact readers p (List.mem_cons_of_mem _ hp)
      · intro read u hpost
        obtain ⟨k', hu, hsame⟩ := hpost
        refine ⟨k', hu, ?_⟩
        rw [hunread, List.append_assoc] at hsame
        exact hsame
    | read p =>
      obtain ⟨k₁, hanswer, hrecalls, hroom, hsame⟩ : ∃ k₁ : Keyboard,
          (k.answer (.getchar p [] [])).2 = k₁ ∧ k₁.Recalls past ∧
          HasRoom events k₁.unread.length ∧ ∀ r : Option UInt8,
            Answer.char r = (k.answer (.getchar p [] [])).1 →
              r.toList ++ k₁.unread = k.unread := by
        obtain ⟨sh, mask, unread⟩ := k
        cases unread with
        | nil =>
          refine ⟨⟨sh, mask, []⟩, rfl, recalls, room, fun r hr => ?_⟩
          cases hr
          rfl
        | cons c l =>
          refine ⟨⟨sh, mask, l⟩, rfl, recalls, room, fun r hr => ?_⟩
          cases hr
          rfl
      refine wp_seq (cGetcharDuring_types h (readers p List.mem_cons_self) [] []) ?_
      intro r t hpost
      obtain ⟨hr, ht, hview⟩ := hpost
      rw [hanswer] at ht
      refine wp_seq (ih ht hrecalls hroom fun p hp => ?_) ?_
      · rw [hview.1, hview.2]
        exact readers p (List.mem_cons_of_mem _ hp)
      · intro read u hpost
        obtain ⟨k', hu, hrest⟩ := hpost
        refine ⟨k', hu, ?_⟩
        rw [← hsame r hr, List.append_assoc, scanCodes, ← hrest]
        cases r with
        | none => rfl
        | some c => rfl

/-- Two queues in one buffer have the same length. -/
theorem InputBuffer.Queues.length_unique {buf : InputBuffer} {base : UInt32} {l l' : List UInt8}
    (h : buf.Queues base l) (h' : buf.Queues base l') : l.length = l'.length := by
  rw [h.ring.length_eq, h'.ring.length_eq]

/-- **Keys are decoded by the modifiers, unless an undefined one is pressed.** -/
theorem decodes_iff (events : List KeyEvent) (shift : s.shift = false) (ctrl : s.ctrlMask = 0xff)
    (own : (s.screens s.activeScreen).kbBuf.Own (L.kb s.activeScreen))
    (empty : (s.screens s.activeScreen).kbBuf.nextChar = (s.screens s.activeScreen).kbBuf.nextSpace)
    (readers : ∀ p, KeyEvent.read p ∈ events → s.pcbScreen p = s.activeScreen)
    (room : HasRoom events 0) :
    Decodes L s events ↔ AllDefined [] (scanCodes events) := by
  have hstart : s.Types L ⟨false, 0xff, []⟩ := ⟨shift, ctrl, own.queues_nil empty⟩
  have hrecalls : Keyboard.Recalls ⟨false, 0xff, []⟩ [] := ⟨rfl, rfl⟩
  have hrun := run_entries (E := fun _ => False) events hstart hrecalls room readers
  constructor
  · intro hdecodes
    have hboth := wp_returns (wp_mono (wp_and hdecodes hrun) (fun _ _ h => h) fun _ h => h.1)
    obtain ⟨read, t, -, ⟨unread, hqueue, hread⟩, k', ht, hread'⟩ := hboth
    refine allDefined_of_length ?_
    have hlen := hqueue.length_unique ht.queue
    have hlen₁ := congrArg List.length hread
    have hlen₂ := congrArg List.length hread'
    rw [List.length_append] at hlen₁ hlen₂
    rw [List.nil_append] at hlen₂
    omega
  · intro hdefined
    refine wp_mono hrun ?_ fun _ he => he
    intro read t hpost
    obtain ⟨k', ht, hread⟩ := hpost
    rw [List.nil_append, entries_eq hdefined] at hread
    exact ⟨k'.unread, ht.queue, hread⟩

/-- Shift and `a`, which is read, and control and `c`. -/
theorem decodes_shift_ctrl : Decodes flatLayout oneScreen
    [.key 0x2a, .key 0x1e, .read firstPcb, .key 0xaa, .key 0x1d, .key 0x2e] :=
  (decodes_iff _ rfl rfl oneScreen_own.1 rfl (fun _ _ => rfl) (by decide)).mpr
    (by decide)

/-- The alternate key has no entry and is stored as 255. -/
theorem alternate_not_decoded : ¬ Decodes flatLayout oneScreen [.key 0x38] := by
  intro hdecodes
  have hstart : oneScreen.Types flatLayout ⟨false, 0xff, []⟩ :=
    ⟨rfl, rfl, oneScreen_own.1.queues_nil rfl⟩
  have hrecalls : Keyboard.Recalls ⟨false, 0xff, []⟩ [] := ⟨rfl, rfl⟩
  have hrun := run_entries (E := fun _ => False) [.key 0x38] hstart hrecalls (by decide)
    fun _ _ => rfl
  have hboth := wp_returns (wp_mono (wp_and hdecodes hrun) (fun _ _ h => h) fun _ h => h.1)
  obtain ⟨read, t, -, ⟨unread, hqueue, hread⟩, k', ht, hread'⟩ := hboth
  have hlen := hqueue.length_unique ht.queue
  rw [show characters [] (scanCodes [.key 0x38]) = [] by decide] at hread
  rw [show [] ++ entries [] (scanCodes [.key 0x38]) = [255] by decide] at hread'
  have hlen₁ := congrArg List.length hread
  have hlen₂ := congrArg List.length hread'
  rw [List.length_append, List.length_nil] at hlen₁
  rw [List.length_append, List.length_singleton] at hlen₂
  omega

end Cumulonimbus.Screens
