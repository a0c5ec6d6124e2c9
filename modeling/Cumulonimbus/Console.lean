import Mathlib.Logic.Function.Basic
import Cumulonimbus.Exec

/-!
# Console output

The scrolling output routines of `c_io.c`: a cursor and a scroll region on a screen of 16-bit
cells in video memory.  Coordinates are unsigned 32-bit numbers and wrap around; cells are
written through addresses computed from them.
-/

namespace Cumulonimbus.Console

open Exec

/-- The kernel is built with or without `NO_VESA`. -/
inductive Video
  | vesa
  | noVesa
  deriving DecidableEq

/-- `VIDEO_BASE_ADDR` -/
def Video.base : Video → UInt32
  | .vesa => 0x50000
  | .noVesa => 0xb8000

/-- `SCREEN_X_SIZE` -/
def Video.xSize : Video → UInt32
  | .vesa => 106
  | .noVesa => 80

/-- `SCREEN_Y_SIZE` -/
def Video.ySize : Video → UInt32
  | .vesa => 64
  | .noVesa => 25

structure State where
  scrollMinX : UInt32
  scrollMinY : UInt32
  scrollMaxX : UInt32
  scrollMaxY : UInt32
  currX : UInt32
  currY : UInt32
  minX : UInt32
  minY : UInt32
  maxX : UInt32
  maxY : UInt32
  /-- The 16-bit cells, by address. -/
  video : UInt32 → UInt16
  /-- Bytes written to ports. -/
  outs : List (UInt16 × UInt8)

/-- Why a call does not return: a loop goes on for ever. -/
inductive Spin
  | spin
  deriving DecidableEq

abbrev Con := Prog State Spin

/-- No unsigned counter goes through more values. -/
def rounds : Nat := 0x100000001

/-- `VIDEO_ADDR` -/
def videoAddr (V : Video) (x y : UInt32) : UInt32 := V.base + 2 * (y * V.xSize + x)

def bound (min value max : UInt32) : UInt32 :=
  let value := if value < min then min else value
  if max < value then max else value

def outb (port : UInt16) (value : UInt8) : Con Unit :=
  modify fun s => { s with outs := s.outs ++ [(port, value)] }

/-- `*addr = cell` -/
def poke (addr : UInt32) (cell : UInt16) : Con Unit :=
  modify fun s => { s with video := Function.update s.video addr cell }

def setCursor (V : Video) : Con Unit := do
  let s ← get
  let y := if s.scrollMaxY < s.currY then s.scrollMaxY else s.currY
  let addr := y * V.xSize + s.currX
  outb 0x3d4 0xe
  outb 0x3d5 (addr >>> 8 &&& 0xff).toUInt8
  outb 0x3d4 0xf
  outb 0x3d5 (addr &&& 0xff).toUInt8

/-- `__c_putchar_at` -/
def putcharAt (V : Video) (x y c : UInt32) : Con Unit := do
  let s ← get
  if x ≤ s.maxX ∧ y ≤ s.maxY then
    if 0xff < c then poke (videoAddr V x y) c.toUInt16
    else poke (videoAddr V x y) (c.toUInt16 ||| 0x0700)
  else pure ()

def cSetscroll (V : Video) (sMinX sMinY sMaxX sMaxY : UInt32) : Con Unit := do
  modify fun s => { s with scrollMinX := bound s.minX sMinX s.maxX }
  modify fun s => { s with scrollMinY := bound s.minY sMinY s.maxY }
  modify fun s => { s with scrollMaxX := bound s.scrollMinX sMaxX s.maxX }
  modify fun s => { s with scrollMaxY := bound s.scrollMinY sMaxY s.maxY }
  modify fun s => { s with currX := s.scrollMinX }
  modify fun s => { s with currY := s.scrollMinY }
  setCursor V

def cMoveto (V : Video) (x y : UInt32) : Con Unit := do
  modify fun s => { s with currX := bound s.scrollMinX (x + s.scrollMinX) s.scrollMaxX }
  modify fun s => { s with currY := bound s.scrollMinY (y + s.scrollMinY) s.scrollMaxY }
  setCursor V

/-- `' ' | 0x0700` -/
def blank : UInt16 := 0x0720

/-- `for (c = 0; c < nchars; c += 1) *to++ = value;`, where the value may be `*from++`.  The counter
is unsigned in one function and signed in another. -/
def writeCells {κ : Type} (more : κ → Bool) (next : κ → κ) (value : State → UInt32 → UInt16)
    (start : κ) (dest source : UInt32) : Con Unit := do
  let _ ← loop .spin (fun i _ => more i.1)
    (fun i => do
      let s ← get
      poke i.2.1 (value s i.2.2)
      return (next i.1, i.2.1 + 2, i.2.2 + 2)) rounds (start, dest, source)
  pure ()

def cClearscroll (V : Video) : Con Unit := do
  let s ← get
  let nchars := s.scrollMaxX - s.scrollMinX + 1
  let _ ← loop .spin (fun l s => l ≤ s.scrollMaxY)
    (fun l => do
      let s ← get
      let dest := videoAddr V s.scrollMinX l
      writeCells (fun c : UInt32 => c < nchars) (· + 1) (fun _ _ => blank) 0 dest dest
      return l + 1) rounds s.scrollMinY
  pure ()

/-- `int line` is compared and added to as an unsigned number. -/
def cScroll (V : Video) (lines : UInt32) : Con Unit := do
  let s ← get
  let nchars := (s.scrollMaxX - s.scrollMinX + 1).toInt32
  if s.scrollMaxY - s.scrollMinY < lines then
    cClearscroll V
    modify fun s => { s with currX := s.scrollMinX }
    modify fun s => { s with currY := s.scrollMinY }
    setCursor V
  else
    let line ← loop .spin (fun line s => line ≤ s.scrollMaxY - lines)
      (fun line => do
        let s ← get
        let source := videoAddr V s.scrollMinX (line + lines)
        let dest := videoAddr V s.scrollMinX line
        writeCells (fun c : Int32 => c < nchars) (· + 1) (fun s a => s.video a) 0 dest source
        return line + 1) rounds s.scrollMinY
    let _ ← loop .spin (fun line s => line ≤ s.scrollMaxY)
      (fun line => do
        let s ← get
        let dest := videoAddr V s.scrollMinX line
        writeCells (fun c : Int32 => c < nchars) (· + 1) (fun _ _ => blank) 0 dest dest
        return line + 1) rounds line
    pure ()

/-- Scroll the window if the cursor is off its bottom. -/
def delayedScroll (V : Video) : Con Unit := do
  let s ← get
  if s.scrollMaxY < s.currY then
    cScroll V (s.currY - s.scrollMaxY)
    modify fun s => { s with currY := s.scrollMaxY }
  else pure ()

/-- `case '\n'`: the rest of the line is erased; the scroll is delayed until the next output. -/
def newline (V : Video) : Con Unit := do
  loop .spin (fun _ s => s.currX ≤ s.scrollMaxX)
    (fun _ => do
      let s ← get
      putcharAt V s.currX s.currY 0x20
      modify fun s => { s with currX := s.currX + 1 }) rounds ()
  modify fun s => { s with currX := s.scrollMinX }
  modify fun s => { s with currY := s.currY + 1 }

/-- `default:` the character is shown, and the cursor goes on. -/
def showChar (V : Video) (c : UInt32) : Con Unit := do
  let s ← get
  putcharAt V s.currX s.currY c
  modify fun s => { s with currX := s.currX + 1 }
  let s ← get
  if s.scrollMaxX < s.currX then
    modify fun s => { s with currX := s.scrollMinX }
    modify fun s => { s with currY := s.currY + 1 }
  else pure ()

/-- The `switch` of `c_putchar`. -/
def putcharSwitch (V : Video) (c : UInt32) : Con Unit :=
  if c &&& 0xff = 0x0a then newline V
  else if c &&& 0xff = 0x0d then modify fun s => { s with currX := s.scrollMinX }
  else showChar V c

def cPutchar (V : Video) (c : UInt32) : Con Unit := do
  delayedScroll V
  putcharSwitch V c
  setCursor V

/-- A `char` is signed, and its sign goes into the 32 bits of the argument. -/
def promote (ch : UInt8) : UInt32 := ch.toInt8.toInt32.toUInt32

/-- The bytes of the string up to its null character. -/
def cPuts (V : Video) : List UInt8 → Con Unit
  | [] => pure ()
  | ch :: str =>
    if ch = 0 then pure ()
    else do
      cPutchar V (promote ch)
      cPuts V str

/-- `c_io_init`, less the registration of the keyboard interrupt. -/
def cIoInit (V : Video) : Con Unit := do
  modify fun s => { s with
    minX := 0
    minY := 0
    maxX := V.xSize - 1
    maxY := V.ySize - 1 }
  modify fun s => { s with
    scrollMinX := 0
    scrollMinY := 0
    scrollMaxX := V.xSize - 1
    scrollMaxY := V.ySize - 1 }
  modify fun s => { s with currY := s.minY, currX := s.minX }
  setCursor V

/-- Calls of the scrolling output routines. -/
inductive Call
  | setscroll (sMinX sMinY sMaxX sMaxY : UInt32)
  | moveto (x y : UInt32)
  | putchar (c : UInt32)
  | puts (str : List UInt8)
  | scroll (lines : UInt32)

def Call.run (V : Video) : Call → Con Unit
  | .setscroll sMinX sMinY sMaxX sMaxY => cSetscroll V sMinX sMinY sMaxX sMaxY
  | .moveto x y => cMoveto V x y
  | .putchar c => cPutchar V c
  | .puts str => cPuts V str
  | .scroll lines => cScroll V lines

end Cumulonimbus.Console
