import Mathlib.Algebra.Ring.Nat
import Mathlib.Logic.Function.Basic

/-!
# An ATA channel, as its host knows it

Two drives behind the ports of a channel, with 48-bit addresses and transfers through the data
port.  The drives are not described.  A `View` is what a host can know of them, and `Obeys` says
what the host may rely on when it reads or writes a port.  Left open is how long a drive is busy,
what its status shows meanwhile, which sectors are bad, whether a write to a bad sector ends before
or after the data, and what comes of a command that is written too early.

Nothing here depends on the program that is verified with it.
-/

namespace Ata

/-- The words of a sector. -/
abbrev Words := Fin 256 → UInt16

/-- A sector has a first word. -/
theorem words_pos : 0 < 256 := by decide

/-- Reading and writing ports. -/
structure Bus (σ : Type) where
  inb : UInt16 → σ → UInt8 × σ
  inw : UInt16 → σ → UInt16 × σ
  outb : UInt16 → UInt8 → σ → σ
  outw : UInt16 → UInt16 → σ → σ

/-- A register of the command block is two bytes deep: what is written pushes the byte before it
back. -/
structure Deep where
  recent : UInt8
  previous : UInt8

def Deep.push (r : Deep) (v : UInt8) : Deep := ⟨v, r.recent⟩

/-- The registers with the arguments of a command. -/
structure Task where
  count : Deep
  lbaLow : Deep
  lbaMid : Deep
  lbaHigh : Deep
  device : UInt8

inductive Register
  | count | lbaLow | lbaMid | lbaHigh | device

/-- Where a register lies in the command block. -/
def Register.offset : Register → UInt16
  | .count => 2
  | .lbaLow => 3
  | .lbaMid => 4
  | .lbaHigh => 5
  | .device => 6

namespace Task

variable (t : Task)

def put (r : Register) (v : UInt8) : Task :=
  match r with
  | .count => { t with count := t.count.push v }
  | .lbaLow => { t with lbaLow := t.lbaLow.push v }
  | .lbaMid => { t with lbaMid := t.lbaMid.push v }
  | .lbaHigh => { t with lbaHigh := t.lbaHigh.push v }
  | .device => { t with device := v }

/-- The drive that the device register selects. -/
def selected : Bool := t.device &&& 0x10 ≠ 0

/-- The address of a command. -/
def lba : Nat :=
  t.lbaLow.recent.toNat + 2 ^ 8 * t.lbaMid.recent.toNat + 2 ^ 16 * t.lbaHigh.recent.toNat +
    2 ^ 24 * t.lbaLow.previous.toNat + 2 ^ 32 * t.lbaMid.previous.toNat +
    2 ^ 40 * t.lbaHigh.previous.toNat

/-- The number of sectors of a command. -/
def sectors : Nat := t.count.recent.toNat + 2 ^ 8 * t.count.previous.toNat

end Task

/-- What is moved through the data port: the words of a sector from word `k` on, or, behind a write
to a bad sector, words that are thrown away. -/
inductive Phase
  | idle
  | toHost (w : Words) (k : Fin 256)
  | fromHost (lba : Nat) (w : Words) (k : Fin 256)
  | discards

/-- What can be known of a channel. -/
structure View where
  media : Bool → Nat → Words
  task : Task
  phase : Phase
  /-- How often the status still shows that a drive is busy, at most. -/
  wait : Nat
  /-- The status shows an error or a fault. -/
  failed : Bool

namespace View

variable (v : View)

/-- A command may be written, with its arguments before it. -/
def Ready : Prop := v.phase = .idle ∧ v.wait = 0

/-- No transfer is under way, and before long no drive is busy. -/
def Between (patience : Nat) : Prop := v.phase = .idle ∧ v.wait < patience

/-- The next phase and the media, when the sector that is read is behind word `k`. -/
def taken (w : Words) (k : Fin 256) : View :=
  { v with phase := if h : k.val + 1 < 256 then .toHost w ⟨k.val + 1, h⟩ else .idle }

/-- The same for a sector that is written: behind its last word it is stored. -/
def given (lba : Nat) (w : Words) (k : Fin 256) : View :=
  if h : k.val + 1 < 256 then { v with phase := .fromHost lba w ⟨k.val + 1, h⟩ }
  else { v with
    phase := .idle
    media := Function.update v.media v.task.selected
      (Function.update (v.media v.task.selected) lba w) }

end View

/-- **What a host relies on**, with the command block at `io`, the device control register at
`ctl`, the sectors that are `good`, and no drive that stays busy for `patience` reads of its
status. -/
structure Obeys {σ : Type} (bus : Bus σ) (io ctl : UInt16) (good : Bool → Nat → Bool)
    (patience : Nat) (view : σ → View) : Prop where
  /-- Without its reset bit, the device control register does nothing that is known. -/
  control : ∀ s v, v &&& 0x04 = 0 → view (bus.outb ctl v s) = view s
  /-- The status, or the alternate status, of a drive that is busy. -/
  busy : ∀ s port, port = io + 7 ∨ port = ctl → (view s).wait ≠ 0 →
    (bus.inb port s).1 &&& 0x80 ≠ 0 ∧
      ∃ n < (view s).wait, view (bus.inb port s).2 = { view s with wait := n }
  /-- The same of a drive that is not busy.  The error bit and the fault bit are set where the
  command has failed. -/
  status : ∀ s port, port = io + 7 ∨ port = ctl → (view s).wait = 0 →
    (bus.inb port s).1 &&& 0x80 = 0 ∧
      ((bus.inb port s).1 &&& 0x21 ≠ 0 ↔ (view s).failed = true) ∧
      view (bus.inb port s).2 = view s
  register : ∀ s (r : Register) v, (view s).Ready →
    view (bus.outb (io + r.offset) v s) = { view s with task := (view s).task.put r v }
  /-- READ SECTORS EXT -/
  read : ∀ s, (view s).Ready → (view s).task.sectors = 1 →
    ∃ n < patience, view (bus.outb (io + 7) 0x24 s) =
      if good (view s).task.selected (view s).task.lba then
        { view s with
          phase := .toHost ((view s).media (view s).task.selected (view s).task.lba)
            ⟨0, words_pos⟩
          wait := n
          failed := false }
      else { view s with wait := n, failed := true }
  /-- A word is read, and behind the last one the drive may be busy. -/
  take : ∀ s w k, (view s).phase = .toHost w k → (view s).wait = 0 →
    (bus.inw io s).1 = w k ∧ ∃ n < patience, (k.val + 1 < 256 → n = 0) ∧
      ∃ failed, view (bus.inw io s).2 = { (view s).taken w k with wait := n, failed := failed }
  /-- WRITE SECTORS EXT -/
  write : ∀ s, (view s).Ready → (view s).task.sectors = 1 →
    ∃ n < patience, ∃ failed, view (bus.outb (io + 7) 0x34 s) =
      if good (view s).task.selected (view s).task.lba then
        { view s with
          phase := .fromHost (view s).task.lba (fun _ => 0) ⟨0, words_pos⟩
          wait := n
          failed := failed }
      else { view s with phase := .discards, wait := n, failed := failed }
  /-- A word is written, and behind the last one the drive may be busy. -/
  give : ∀ s lba w k v, (view s).phase = .fromHost lba w k → (view s).wait = 0 →
    ∃ n < patience, (k.val + 1 < 256 → n = 0) ∧ ∃ failed, view (bus.outw io v s) =
      { (view s).given lba (Function.update w k v) k with wait := n, failed := failed }
  /-- Words for a bad sector. -/
  discard : ∀ s v, (view s).wait < patience → (view s).phase = .discards →
    ∃ n < patience, ∃ failed,
      view (bus.outw io v s) = { view s with wait := n, failed := failed }
  /-- FLUSH CACHE EXT leaves the sectors as they are, also where a drive that is busy does not take
  it, and ends what is left of a write to a bad sector. -/
  flush : ∀ s, (view s).wait < patience → (view s).phase = .idle ∨ (view s).phase = .discards →
    ∃ n < patience, ∃ failed,
      view (bus.outb (io + 7) 0xEA s) = { view s with phase := .idle, wait := n, failed := failed }

/-! ## A channel that keeps the rules -/

/-- What lies at a port of the first channel of a PC. -/
inductive Place
  | data | argument (r : Register) | command | control | nothing

def place (port : UInt16) : Place :=
  if port = 0x1f0 then .data
  else if port = 0x1f2 then .argument .count
  else if port = 0x1f3 then .argument .lbaLow
  else if port = 0x1f4 then .argument .lbaMid
  else if port = 0x1f5 then .argument .lbaHigh
  else if port = 0x1f6 then .argument .device
  else if port = 0x1f7 then .command
  else if port = 0x3f6 then .control
  else .nothing

/-- Where the registers are. -/
theorem place_register (r : Register) : place (0x1f0 + r.offset) = .argument r := by
  cases r <;> rfl

namespace View

variable (good : Bool → Nat → Bool) (lag : Nat) (v : View)

/-- The status, which shows a busy drive for `lag` reads after each command and each sector. -/
def look : UInt8 × View :=
  if v.wait = 0 then (if v.failed then 0x41 else 0x40, v)
  else (0x80, { v with wait := v.wait - 1 })

def enter (r : Register) (x : UInt8) : View :=
  match v.phase with
  | .idle => { v with task := v.task.put r x }
  | _ => v

/-- A command.  One that comes too early is not taken. -/
def execute (x : UInt8) : View :=
  match v.phase with
  | .idle =>
    if v.wait ≠ 0 then v
    else if x = 0x24 then
      if good v.task.selected v.task.lba then
        { v with
          phase := .toHost (v.media v.task.selected v.task.lba) ⟨0, words_pos⟩
          wait := lag
          failed := false }
      else { v with wait := lag, failed := true }
    else if x = 0x34 then
      if good v.task.selected v.task.lba then
        { v with
          phase := .fromHost v.task.lba (fun _ => 0) ⟨0, words_pos⟩
          wait := lag
          failed := false }
      else { v with phase := .discards, wait := lag, failed := true }
    else { v with wait := lag, failed := x ≠ 0xEA }
  | .discards => { v with phase := .idle }
  | _ => v

def takeWord : UInt16 × View :=
  match v.phase with
  | .toHost w k => (w k, { v.taken w k with wait := if k.val + 1 < 256 then 0 else lag })
  | _ => (0, v)

def giveWord (x : UInt16) : View :=
  match v.phase with
  | .fromHost lba w k =>
    { v.given lba (Function.update w k x) k with wait := if k.val + 1 < 256 then 0 else lag }
  | _ => v

end View

/-- A channel that is what its host knows of it. -/
def plainBus (good : Bool → Nat → Bool) (lag : Nat) : Bus View where
  inb port v :=
    match place port with
    | .command | .control => v.look
    | _ => (0, v)
  inw port v :=
    match place port with
    | .data => v.takeWord lag
    | _ => (0, v)
  outb port x v :=
    match place port with
    | .argument r => v.enter r x
    | .command => v.execute good lag x
    | _ => v
  outw port x v :=
    match place port with
    | .data => v.giveWord lag x
    | _ => v

variable {good : Bool → Nat → Bool} {lag : Nat}

/-- Both ports show the status. -/
theorem plainBus_look {port : UInt16} (hport : port = 0x1f0 + 7 ∨ port = 0x3f6) (v : View) :
    (plainBus good lag).inb port v = v.look := by
  rcases hport with rfl | rfl <;> rfl

/-- While the drive is busy, reading the status brings the end nearer. -/
theorem View.look_busy {v : View} (hwait : v.wait ≠ 0) :
    v.look = (0x80, { v with wait := v.wait - 1 }) := if_neg hwait

/-- After that the status says whether the command has failed. -/
theorem View.look_done {v : View} (hwait : v.wait = 0) :
    v.look = (if v.failed then 0x41 else 0x40, v) := if_pos hwait

/-- What a drive that is ready makes of a command. -/
theorem View.execute_ready {v : View} (hready : v.Ready) (x : UInt8) :
    v.execute good lag x =
      if x = 0x24 then
        if good v.task.selected v.task.lba then
          { v with
            phase := .toHost (v.media v.task.selected v.task.lba) ⟨0, words_pos⟩
            wait := lag
            failed := false }
        else { v with wait := lag, failed := true }
      else if x = 0x34 then
        if good v.task.selected v.task.lba then
          { v with
            phase := .fromHost v.task.lba (fun _ => 0) ⟨0, words_pos⟩
            wait := lag
            failed := false }
        else { v with phase := .discards, wait := lag, failed := true }
      else { v with wait := lag, failed := x ≠ 0xEA } := by
  rw [execute, hready.1]
  dsimp only
  rw [if_neg (not_not.mpr hready.2)]

/-- **The rules can be kept.** -/
theorem plainBus_obeys (good : Bool → Nat → Bool) (lag : Nat) :
    Obeys (plainBus good lag) 0x1f0 0x3f6 good (lag + 1) fun v => v := by
  have hlag : lag < lag + 1 := Nat.lt_succ_self lag
  constructor
  case control => exact fun _ _ _ => rfl
  case busy =>
    intro v port hport hwait
    rw [plainBus_look hport, View.look_busy hwait]
    exact ⟨show (0x80 : UInt8) &&& 0x80 ≠ 0 by decide, v.wait - 1, Nat.sub_one_lt hwait, rfl⟩
  case status =>
    intro v port hport hwait
    rw [plainBus_look hport, View.look_done hwait]
    dsimp only
    cases v.failed <;> exact ⟨by decide, by decide, rfl⟩
  case register =>
    intro v r x hready
    simp only [plainBus, place_register, View.enter, hready.1]
  case read =>
    intro v hready _
    refine ⟨lag, hlag, ?_⟩
    exact (View.execute_ready hready 0x24).trans (if_pos rfl)
  case take =>
    intro v w k hphase _
    have htake : (plainBus good lag).inw 0x1f0 v =
        (w k, { v.taken w k with wait := if k.val + 1 < 256 then 0 else lag }) := by
      show v.takeWord lag = _
      rw [View.takeWord, hphase]
    rw [htake]
    refine ⟨rfl, _, ?_, fun hmore => if_pos hmore, v.failed, rfl⟩
    split <;> omega
  case write =>
    intro v hready _
    refine ⟨lag, hlag, !good v.task.selected v.task.lba, ?_⟩
    refine (View.execute_ready hready 0x34).trans ?_
    rw [if_neg (by decide), if_pos rfl]
    cases good v.task.selected v.task.lba <;> rfl
  case give =>
    intro v lba w k x hphase _
    have hgive : (plainBus good lag).outw 0x1f0 x v =
        { v.given lba (Function.update w k x) k with
          wait := if k.val + 1 < 256 then 0 else lag } := by
      show v.giveWord lag x = _
      rw [View.giveWord, hphase]
    rw [hgive]
    refine ⟨_, ?_, fun hmore => if_pos hmore, _, rfl⟩
    split <;> omega
  case discard =>
    intro v x hwait hphase
    refine ⟨v.wait, hwait, v.failed, ?_⟩
    show v.giveWord lag x = v
    rw [View.giveWord, hphase]
  case flush =>
    intro v hwait hphase
    have hexecute : (plainBus good lag).outb (0x1f0 + 7) 0xEA v = v.execute good lag 0xEA := rfl
    rw [hexecute]
    rcases hphase with hidle | hdiscards
    · by_cases hbusy : v.wait = 0
      · refine ⟨lag, hlag, false, ?_⟩
        rw [View.execute_ready ⟨hidle, hbusy⟩, if_neg (by decide), if_neg (by decide), hidle]
        rfl
      · refine ⟨v.wait, hwait, v.failed, ?_⟩
        rw [View.execute, hidle]
        dsimp only
        rw [if_pos hbusy, ← hidle]
    · refine ⟨v.wait, hwait, v.failed, ?_⟩
      rw [View.execute, hdiscards]

end Ata
