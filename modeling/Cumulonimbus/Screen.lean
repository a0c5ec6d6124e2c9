import Cumulonimbus.Process

/-!
# Screens

`screen.c` and the code around it.  There are sixteen screens, each with a frame buffer, an
owner and two input buffers, and a node for each in one of two linked lists.  Pixels are drawn
to video memory if the drawing process's screen is the active one, and to the screen's frame
buffer otherwise; keyboard and mouse input goes to the buffers of the active screen.

The resolution is 1280 by 1024, and the kernel is built with VESA.  The pointers of an input
buffer are addresses; a `Layout` says where the buffers lie.
-/

namespace Cumulonimbus.Screens

open Exec

def numScreens : Nat := 16

/-- `BUFSIZE` and `C_BUFSIZE`. -/
def inputSize : Nat := 200

def xResolution : Nat := 1280
def yResolution : Nat := 1024

/-- A handle in range: it names a screen and a node. -/
abbrev ScreenId := Fin numScreens

abbrev Picture := Fin (yResolution * xResolution) → UInt16

theorem pixel_lt (x : Fin xResolution) (y : Fin yResolution) :
    y.val * xResolution + x.val < yResolution * xResolution := by
  have hx : x.val < 1280 := x.isLt
  have hy : y.val < 1024 := y.isLt
  change y.val * 1280 + x.val < 1024 * 1280
  omega

/-- `GET_PIXEL`: the place of a pixel in a picture. -/
def pixelAt (x : Fin xResolution) (y : Fin yResolution) : Fin (yResolution * xResolution) :=
  ⟨y.val * xResolution + x.val, pixel_lt x y⟩

/-- A `screen_qnode_t`. -/
structure QNode where
  handle : ScreenId
  next : Option ScreenId

/-- A `screen_queue_t`. -/
structure ScreenQueue where
  first : Option ScreenId
  last : Option ScreenId
  length : UInt32

/-- The two queues. -/
inductive QName
  | unused | active
  deriving DecidableEq

/-- A `screen_input_buffer_t`. -/
structure InputBuffer where
  inputBuffer : Fin inputSize → UInt8
  nextChar : UInt32
  nextSpace : UInt32

structure Screen where
  fb : Picture
  drawMode : UInt32
  owner : Pid
  kbBuf : InputBuffer
  mouseBuf : InputBuffer

/-- The addresses of the input buffers, none of which wraps around the end of memory. -/
structure Layout where
  kb : ScreenId → UInt32
  mouse : ScreenId → UInt32
  kb_fits : ∀ h, (kb h).toNat + inputSize < 2 ^ 32
  mouse_fits : ∀ h, (mouse h).toNat + inputSize < 2 ^ 32

/-- The variables of the subsystem, the screen of every process, and a record of the addresses
at which the input interrupts have stored a byte, the latest first. -/
structure System where
  activeScreen : ScreenId
  screens : ScreenId → Screen
  nodes : ScreenId → QNode
  queues : QName → ScreenQueue
  video : Picture
  pcbScreen : PcbId → ScreenId
  shift : Bool
  ctrlMask : UInt8
  stored : List UInt32

/-- A null pointer is followed, or a loop would not end. -/
inductive Fault
  | null
  | spin
  deriving DecidableEq

abbrev Op (α : Type) := Prog System Fault α

def System.setScreen (s : System) (h : ScreenId) (scr : Screen) : System :=
  { s with screens := Function.update s.screens h scr }

def System.setQueue (s : System) (q : QName) (l : ScreenQueue) : System :=
  { s with queues := Function.update s.queues q l }

def System.setNext (s : System) (n : ScreenId) (next : Option ScreenId) : System :=
  { s with nodes := Function.update s.nodes n { s.nodes n with next := next } }

/-! ## Queues -/

/-- Take the first node off. -/
def dequeue (q : QName) : Op (Option ScreenId) := do
  let s ← get
  let l := s.queues q
  if l.length = 0 then return none
  else
    match l.first with
    | none => throw .null
    | some n =>
      set (s.setQueue q
        { first := (s.nodes n).next
          last := if some n = l.last then none else l.last
          length := l.length - 1 })
      return some n

/-- The loop of `_remove_node`, for at most as many nodes as the first argument says: the node
with a handle, if there is one, and the node before it. -/
def findNode (nodes : ScreenId → QNode) (sd : ScreenId) :
    Nat → Option ScreenId → Option ScreenId → Option (Option ScreenId × Option ScreenId)
  | _, prev, none => some (prev, none)
  | 0, _, some _ => none
  | fuel + 1, prev, some n =>
    if (nodes n).handle = sd then some (prev, some n)
    else findNode nodes sd fuel (some n) (nodes n).next

/-- Take the node with a handle off.  The length goes down also if there is none. -/
def removeNode (q : QName) (sd : ScreenId) : Op (Option ScreenId) := do
  let s ← get
  let l := s.queues q
  match findNode s.nodes sd numScreens none l.first with
  | none => throw .spin
  | some (_, none) =>
    set (s.setQueue q { l with length := l.length - 1 })
    return none
  | some (none, some n) =>
    let next := (s.nodes n).next
    set (s.setQueue q
      { first := next
        last := if next = none then none else l.last
        length := l.length - 1 })
    return some n
  | some (some prev, some n) =>
    let next := (s.nodes n).next
    set ((s.setNext prev next).setQueue q
      { l with
        last := if next = none then some prev else l.last
        length := l.length - 1 })
    return some n

/-- Put a node at the end. -/
def enqueue (q : QName) (n : ScreenId) : Op Unit := do
  let s ← get
  let l := s.queues q
  let s := s.setNext n none
  if l.length ≠ 0 then
    match l.last with
    | none => throw .null
    | some last =>
      set ((s.setNext last (some n)).setQueue q
        { l with last := some n, length := l.length + 1 })
  else set (s.setQueue q { first := some n, last := some n, length := l.length + 1 })

/-- An input buffer with all bytes zero. -/
def InputBuffer.zero : InputBuffer := ⟨fun _ => 0, 0, 0⟩

/-- `_clear_screen`. -/
def Screen.clear : Screen := ⟨fun _ => 0, 0, pidClear, .zero, .zero⟩

/-- Everything zero, as the variables are before the kernel runs. -/
def blankSystem (video : Picture) : System where
  activeScreen := ⟨0, by decide⟩
  screens := fun _ => .clear
  nodes := fun _ => ⟨⟨0, by decide⟩, none⟩
  queues := fun _ => ⟨none, none, 0⟩
  video := video
  pcbScreen := fun _ => ⟨0, by decide⟩
  shift := false
  ctrlMask := 0xff
  stored := []

def screenInit (s : System) : System :=
  { s with
    screens := fun h => { s.screens h with owner := pidClear }
    nodes := fun h =>
      { handle := h
        next := if hlt : h.val + 1 < numScreens then some ⟨h.val + 1, hlt⟩ else (s.nodes h).next }
    queues := fun
      | .unused => ⟨some ⟨0, by decide⟩, some ⟨numScreens - 1, by decide⟩, UInt32.ofNat numScreens⟩
      | .active => ⟨none, none, 0⟩ }

/-- Take an unused screen.  Without one, the status code is returned as it is. -/
def screenDequeue : Op Int32 := do
  match ← dequeue .unused with
  | none => return Status.empty.code.toInt32
  | some n =>
    enqueue .active n
    modify fun s => s.setScreen (s.nodes n).handle .clear
    let s ← get
    return Int32.ofNat (s.nodes n).handle.val

def screenEnqueue (sd : ScreenId) : Op Status := do
  match ← removeNode .active sd with
  | some n =>
    enqueue .unused n
    return .success
  | none => return .badParam

/-! ## System calls -/

variable (L : Layout)

/-- The screen that a handle names. -/
def screenOf (sh : Int32) : Option ScreenId :=
  if h : 0 ≤ sh.toInt ∧ sh.toInt.toNat < numScreens then some ⟨sh.toInt.toNat, h.2⟩ else none

def sysSetscreen (p : PcbId) (sh : Int32) : Op UInt32 := do
  let s ← get
  match screenOf sh with
  | some h =>
    if (s.screens h).owner.id ≠ 0 then do
      set { s with pcbScreen := Function.update s.pcbScreen p h }
      return UInt32.ofNat (s.pcbScreen p).val
    else return Status.badParam.code
  | none => return Status.badParam.code

def sysGetscreen (p : PcbId) : Op UInt32 := do
  let s ← get
  return UInt32.ofNat (s.pcbScreen p).val

/-- Show another screen: save the picture in video memory and load that of the new screen. -/
def sysSwitchscreen (sh : Int32) : Op UInt32 := do
  let s ← get
  match screenOf sh with
  | some h =>
    if h ≠ s.activeScreen then do
      let old := s.activeScreen
      let s := s.setScreen old { s.screens old with fb := s.video }
      set { s with video := (s.screens h).fb, activeScreen := h }
      return UInt32.ofNat old.val
    else return Status.badParam.code
  | none => return Status.badParam.code

/-- Make a process the owner of a screen, and its input buffers empty. -/
def Screen.open (scr : Screen) (h : ScreenId) (pid : Pid) : Screen :=
  { scr with
    owner := pid
    kbBuf := { scr.kbBuf with nextChar := L.kb h, nextSpace := L.kb h }
    mouseBuf := { scr.mouseBuf with nextChar := L.mouse h, nextSpace := L.mouse h } }

/-- Open a screen for the process with the given pid.  A handle that is not negative is in
range. -/
def sysOpenscreen (pid : Pid) : Op UInt32 := do
  let sh ← screenDequeue
  match screenOf sh with
  | some h =>
    modify fun s => s.setScreen h ((s.screens h).open L h pid)
    return sh.toUInt32
  | none => return sh.toUInt32

def sysClosescreen (sh : Int32) : Op UInt32 := do
  let s ← get
  match screenOf sh with
  | some h =>
    if (s.screens h).owner.id ≠ 0 then do
      set (s.setScreen h { s.screens h with owner := pidClear })
      let stat ← screenEnqueue h
      return stat.code
    else return Status.badParam.code
  | none => return Status.badParam.code

/-- What `fork` does to the child's screen. -/
def forkScreen (parent child : PcbId) : Op Unit :=
  modify fun s => { s with pcbScreen := Function.update s.pcbScreen child (s.pcbScreen parent) }

/-! ## Drawing -/

def gsGetPixel (p : PcbId) (x : Fin xResolution) (y : Fin yResolution) : Op UInt16 := do
  let s ← get
  if s.pcbScreen p = s.activeScreen then return s.video (pixelAt x y)
  else return (s.screens (s.pcbScreen p)).fb (pixelAt x y)

def gsDrawPixel (p : PcbId) (x : Fin xResolution) (y : Fin yResolution) (color : UInt16) :
    Op Unit := do
  let s ← get
  let h := s.pcbScreen p
  if h = s.activeScreen then
    set { s with video := Function.update s.video (pixelAt x y) color }
  else
    set (s.setScreen h { s.screens h with
      fb := Function.update (s.screens h).fb (pixelAt x y) color })

/-! ## Input -/

/-- Whether an address lies in the input buffer that begins at `base`. -/
def InBuffer (base a : UInt32) : Prop := base ≤ a ∧ a.toNat < base.toNat + inputSize

instance (base a : UInt32) : Decidable (InBuffer base a) := inferInstanceAs (Decidable (_ ∧ _))

/-- `__c_increment`, and the same for the mouse. -/
def increment (base a : UInt32) : UInt32 :=
  if base + UInt32.ofNat inputSize ≤ a + 1 then base else a + 1

/-- Store a byte through a pointer.  A byte that does not belong to the buffer goes to memory
that is not part of the model. -/
def InputBuffer.store (buf : InputBuffer) (base a : UInt32) (b : UInt8) : InputBuffer :=
  { buf with
    inputBuffer := fun k => if base.toNat + k.val = a.toNat then b else buf.inputBuffer k }

/-- Load the byte at an address; what lies outside the buffer is not part of the model. -/
def InputBuffer.load (buf : InputBuffer) (base a : UInt32) : UInt8 :=
  if h : a.toNat - base.toNat < inputSize then buf.inputBuffer ⟨a.toNat - base.toNat, h⟩ else 0

def scanCode (shift : Bool) : List UInt8 :=
  if !shift then [
    255, 27, 49, 50, 51, 52, 53, 54, 55, 56, 57, 48, 45, 61, 8, 9,
    113, 119, 101, 114, 116, 121, 117, 105, 111, 112, 91, 93, 10, 255, 97, 115,
    100, 102, 103, 104, 106, 107, 108, 59, 39, 96, 255, 92, 122, 120, 99, 118,
    98, 110, 109, 44, 46, 47, 255, 42, 255, 32, 255, 255, 255, 255, 255, 255,
    255, 255, 255, 255, 255, 255, 255, 55, 56, 57, 45, 52, 53, 54, 43, 49,
    50, 51, 48, 46, 255, 255, 255, 255, 255, 255, 255, 255, 255, 255, 255, 255,
    255, 255, 255, 255, 255, 255, 255, 255, 255, 255, 255, 255, 255, 255, 255, 255,
    255, 255, 255, 255, 255, 255, 255, 255, 255, 255, 255, 255, 255, 255, 255, 255]
  else [
    255, 27, 33, 64, 35, 36, 37, 94, 38, 42, 40, 41, 95, 43, 8, 9,
    81, 87, 69, 82, 84, 89, 85, 73, 79, 80, 123, 125, 10, 255, 65, 83,
    68, 70, 71, 72, 74, 75, 76, 58, 34, 126, 255, 124, 90, 88, 67, 86,
    66, 78, 77, 60, 62, 63, 255, 42, 255, 32, 255, 255, 255, 255, 255, 255,
    255, 255, 255, 255, 255, 255, 255, 55, 56, 57, 45, 52, 53, 54, 43, 49,
    50, 51, 48, 46, 255, 255, 255, 255, 255, 255, 255, 255, 255, 255, 255, 255,
    255, 255, 255, 255, 255, 255, 255, 255, 255, 255, 255, 255, 255, 255, 255, 255,
    255, 255, 255, 255, 255, 255, 255, 255, 255, 255, 255, 255, 255, 255, 255, 255]

/-- Store a character in the active screen's keyboard buffer if there is room for it. -/
def kbStore (code : UInt8) : Op Unit := do
  let s ← get
  let h := s.activeScreen
  let buf := (s.screens h).kbBuf
  let next := increment (L.kb h) buf.nextSpace
  if next ≠ buf.nextChar then
    let stored := buf.store (L.kb h) buf.nextSpace (code &&& s.ctrlMask)
    set { s.setScreen h { s.screens h with kbBuf := { stored with nextSpace := next } } with
      stored := buf.nextSpace :: s.stored }

/-- `__c_input_scan_code`.  The table has unsigned bytes, and the code for undefined keys that
they are compared with is -1: no key is ignored. -/
def cInputScanCode (code : UInt8) : Op Unit := do
  let s ← get
  if code = 0x2a ∨ code = 0x36 then set { s with shift := true }
  else if code = 0xaa ∨ code = 0xb6 then set { s with shift := false }
  else if code = 0x1d then set { s with ctrlMask := 0x1f }
  else if code = 0x9d then set { s with ctrlMask := 0xff }
  else if code &&& 0x80 = 0 then
    let char := (scanCode s.shift).getD code.toNat 0
    if (char.toNat : Int) ≠ -1 then kbStore L char

/-- `_isr_mouse`: the packet is stored whether there is room or not. -/
def isrMouse (packet : UInt8) : Op Unit :=
  modify fun s =>
    let h := s.activeScreen
    let buf := (s.screens h).mouseBuf
    let stored := buf.store (L.mouse h) buf.nextSpace packet
    let next := increment (L.mouse h) buf.nextSpace
    { s.setScreen h { s.screens h with mouseBuf := { stored with nextSpace := next } } with
      stored := buf.nextSpace :: s.stored }

/-- `c_getchar`; nothing while the buffer is empty. -/
def cGetchar (p : PcbId) : Op (Option UInt8) := do
  let s ← get
  let h := s.pcbScreen p
  let buf := (s.screens h).kbBuf
  if buf.nextChar = buf.nextSpace then return none
  else
    set (s.setScreen h { s.screens h with
      kbBuf := { buf with nextChar := increment (L.kb h) buf.nextChar } })
    return some (buf.load (L.kb h) buf.nextChar)

/-- `get_mouse`; nothing while the buffer is empty. -/
def getMouse (p : PcbId) : Op (Option UInt8) := do
  let s ← get
  let h := s.pcbScreen p
  let buf := (s.screens h).mouseBuf
  if buf.nextChar = buf.nextSpace then return none
  else
    set (s.setScreen h { s.screens h with
      mouseBuf := { buf with nextChar := increment (L.mouse h) buf.nextChar } })
    return some (buf.load (L.mouse h) buf.nextChar)

def clearMouse (p : PcbId) : Op Unit :=
  modify fun s =>
    let h := s.pcbScreen p
    let buf := (s.screens h).mouseBuf
    s.setScreen h { s.screens h with mouseBuf := { buf with nextChar := buf.nextSpace } }

/-- `c_getchar` with keyboard interrupts at the places where they can make a difference: after
the test of the loop, and between the load and the store of the pointer. -/
def cGetcharDuring (p : PcbId) (early late : List UInt8) : Op (Option UInt8) := do
  let s ← get
  let h := s.pcbScreen p
  if (s.screens h).kbBuf.nextChar = (s.screens h).kbBuf.nextSpace then return none
  else
    forM early (cInputScanCode L)
    let s ← get
    let c := (s.screens h).kbBuf.load (L.kb h) (s.screens h).kbBuf.nextChar
    forM late (cInputScanCode L)
    modify fun s =>
      let buf := (s.screens h).kbBuf
      s.setScreen h { s.screens h with
        kbBuf := { buf with nextChar := increment (L.kb h) buf.nextChar } }
    return some c

/-- `get_mouse` with mouse interrupts at the same places. -/
def getMouseDuring (p : PcbId) (early late : List UInt8) : Op (Option UInt8) := do
  let s ← get
  let h := s.pcbScreen p
  if (s.screens h).mouseBuf.nextChar = (s.screens h).mouseBuf.nextSpace then return none
  else
    forM early (isrMouse L)
    let s ← get
    let packet := (s.screens h).mouseBuf.load (L.mouse h) (s.screens h).mouseBuf.nextChar
    forM late (isrMouse L)
    modify fun s =>
      let buf := (s.screens h).mouseBuf
      s.setScreen h { s.screens h with
        mouseBuf := { buf with nextChar := increment (L.mouse h) buf.nextChar } }
    return some packet

/-- The number of characters in the buffer. -/
def cInputQueue (p : PcbId) : Op Int32 := do
  let s ← get
  let buf := (s.screens (s.pcbScreen p)).kbBuf
  let nChars := (buf.nextSpace - buf.nextChar).toInt32
  return if nChars < 0 then nChars + Int32.ofNat inputSize else nChars

/-- The number of bytes in the mouse buffer, as the source has it: the difference is the other
way round. -/
def sizeMouse (p : PcbId) : Op Int32 := do
  let s ← get
  let buf := (s.screens (s.pcbScreen p)).mouseBuf
  let offset := (buf.nextChar - buf.nextSpace).toInt32
  return if 0 ≤ offset then offset else Int32.ofNat inputSize + offset

/-! ## Runs -/

/-- What can happen: calls by processes, and interrupts. -/
inductive Event
  | openscreen (pid : Pid)
  | closescreen (sh : Int32)
  | setscreen (p : PcbId) (sh : Int32)
  | getscreen (p : PcbId)
  | switchscreen (sh : Int32)
  | fork (parent child : PcbId)
  | drawPixel (p : PcbId) (x : Fin xResolution) (y : Fin yResolution) (color : UInt16)
  | getPixel (p : PcbId) (x : Fin xResolution) (y : Fin yResolution)
  | keyboard (code : UInt8)
  | mouse (packet : UInt8)
  | getchar (p : PcbId)
  | getMouse (p : PcbId)
  | clearMouse (p : PcbId)

/-- Run an operation for its effect. -/
def effect {α : Type} (x : Op α) : Op Unit := (fun _ => ()) <$> x

def Event.run : Event → Op Unit
  | .openscreen pid => effect (sysOpenscreen L pid)
  | .closescreen sh => effect (sysClosescreen sh)
  | .setscreen p sh => effect (sysSetscreen p sh)
  | .getscreen p => effect (sysGetscreen p)
  | .switchscreen sh => effect (sysSwitchscreen sh)
  | .fork parent child => forkScreen parent child
  | .drawPixel p x y color => gsDrawPixel p x y color
  | .getPixel p x y => effect (gsGetPixel p x y)
  | .keyboard code => cInputScanCode L code
  | .mouse packet => isrMouse L packet
  | .getchar p => effect (cGetchar L p)
  | .getMouse p => effect (Screens.getMouse L p)
  | .clearMouse p => Screens.clearMouse p

/-- The state that `_screen_init` leaves. -/
def booted (video : Picture) : System := screenInit (blankSystem video)

/-- A run from there. -/
abbrev ScreenRun (good : System → Event → Prop) (video : Picture)
    (tr : List (System × Event)) (s : System) : Prop :=
  Runs (Event.run L) good (booted video) tr s

/-- The input buffers one after the other, from 1 MB on. -/
def flatLayout : Layout where
  kb := fun h => UInt32.ofNat (0x100000 + 512 * h.val)
  mouse := fun h => UInt32.ofNat (0x100100 + 512 * h.val)
  kb_fits := by decide
  mouse_fits := by decide

/-- Events that run through from `booted`, with a test of the trace and of the last state. -/
def screenTest (l : List Event) (test : List (System × Event) → System → Bool) : Bool :=
  (play (Event.run flatLayout) (fun _ _ => True) l (booted fun _ => 0)).any fun r => test r.1 r.2

theorem screenTest_run {l : List Event} {test : List (System × Event) → System → Bool}
    (h : screenTest l test) :
    ∃ tr s, ScreenRun flatLayout (fun _ _ => True) (fun _ => 0) tr s ∧ tr.map Prod.snd = l ∧
      test tr s := by
  obtain ⟨⟨tr, s⟩, hplay, htest⟩ := (Option.any_eq_true _ _).mp h
  obtain ⟨run, htr⟩ := play_runs hplay
  exact ⟨tr, s, run, htr, htest⟩

/-- The process that everything starts with. -/
def firstPcb : PcbId := ⟨0, Nat.zero_lt_succ 29⟩

/-- Three screens are opened and the second is closed again.  The first process draws on the third,
which is then shown, draws on it again, and the first screen comes back; a key is pressed, and a
fourth screen is opened. -/
def someEvents : List Event :=
  [.openscreen ⟨1, Vector.replicate 6 0, 0⟩, .openscreen ⟨2, Vector.replicate 6 0, 0⟩,
    .openscreen ⟨3, Vector.replicate 6 0, 0⟩, .closescreen 1, .setscreen firstPcb 2,
    .drawPixel firstPcb ⟨3, by decide⟩ ⟨4, by decide⟩ 5, .switchscreen 2,
    .drawPixel firstPcb ⟨3, by decide⟩ ⟨5, by decide⟩ 6, .switchscreen 0, .keyboard 30,
    .openscreen ⟨4, Vector.replicate 6 0, 0⟩]

end Cumulonimbus.Screens
