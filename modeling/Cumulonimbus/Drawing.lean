import Cumulonimbus.Screen

/-!
# Drawing of text and copying of frame buffers

The text routines and the buffer copies of `gs_io.c`, at a resolution of 1280 by 1024.  Memory is
a cell of sixteen bits for every pixel address; a double pixel is two of them.  The routines
record what they touch: text the column and the row of every pixel that it writes, and the copies
the addresses of double pixels.
-/

namespace Cumulonimbus.Drawing

open Screens (ScreenId)

def vesaXResolution : UInt32 := 1280
def vesaYResolution : UInt32 := 1024

def fontCharWidth : Int32 := 12
def fontCharHeight : Int32 := 16

/-- `GS_DRAW_MODE_FLAT` -/
def modeFlat : UInt32 := 0x0
/-- `GS_DRAW_MODE_AND` -/
def modeAnd : UInt32 := 0x1
/-- `GS_DRAW_MODE_OR` -/
def modeOr : UInt32 := 0x2
/-- `GS_DRAW_MODE_XOR` -/
def modeXor : UInt32 := 0x3
/-- `GS_DRAW_MODE_MASK` -/
def modeMask : UInt32 := 0x3
/-- `GS_DRAW_MODE_INVERT` -/
def modeInvert : UInt32 := 0x8

/-- `sizeof(gs_framebuffer_t)` -/
def framebufferSize : UInt32 := 2621440

/-- `sizeof(screen_t)`: the frame buffer, which comes first, 4 bytes for the draw mode, 12 for the
owner and 208 for each input buffer. -/
def screenSize : UInt32 := 2621872

/-- Where things are while a process draws. -/
structure Device where
  /-- The address of `_screens`. -/
  screens : UInt32
  vesaVideoMemory : UInt32
  activeScreen : ScreenId
  /-- `_current->screen` -/
  current : ScreenId

/-- `&_screens[h].fb` -/
def Device.framebuffer (D : Device) (h : ScreenId) : UInt32 :=
  D.screens + screenSize * UInt32.ofNat h.val

structure State where
  mem : UInt32 → UInt16
  /-- The pixels that text has written, oldest first. -/
  drawn : List (UInt32 × UInt32)
  /-- The double pixels that have been read in copies, oldest first. -/
  reads : List UInt32
  /-- The double pixels that have been written in copies, oldest first. -/
  writes : List UInt32

/-! ## Text -/

/-- `GET_PIXEL_BUF` -/
def getPixelBuf (x y buf : UInt32) : UInt32 := buf + 2 * (y * vesaXResolution) + 2 * x

/-- The `switch` over the draw mode. -/
def blend (dm : UInt32) (pix old : UInt16) : UInt16 :=
  if dm &&& modeMask = modeFlat then pix
  else if dm &&& modeMask = modeXor then old ^^^ pix
  else if dm &&& modeMask = modeAnd then old &&& pix
  else if dm &&& modeMask = modeOr then old ||| pix
  else old

/-- `*GET_PIXEL_BUF(x, y, buf) = pix`, or another assignment. -/
def putPixel (buf dm : UInt32) (pix : UInt16) (x y : UInt32) (s : State) : State :=
  let p := getPixelBuf x y buf
  { s with
    mem := Function.update s.mem p (blend dm pix (s.mem p))
    drawn := s.drawn ++ [(x, y)] }

section Font

-- `font[c][i][j]`
variable (font : UInt32 → Nat → Nat → UInt8)

/-- The pixel of the font, white or black, and inverted or not. -/
def fontPixel (c : UInt8) (dm : UInt32) (i j : Nat) : UInt16 :=
  let pix : UInt16 := (font c.toInt8.toInt32.toUInt32 i j).toUInt16
  let pix := if pix ≠ 0 then 0xffff else pix
  if dm &&& modeInvert ≠ 0 then ~~~pix else pix

/-- A pixel of the font is drawn as four. -/
def putBlock (x y : UInt32) (buf dm : UInt32) (pix : UInt16) (i j : Nat) (s : State) : State :=
  let i := UInt32.ofNat i <<< 1
  let j := UInt32.ofNat j <<< 1
  let s := putPixel buf dm pix (x + j) (y + i) s
  let s := putPixel buf dm pix (x + j) (y + 1 + i) s
  let s := putPixel buf dm pix (x + 1 + j) (y + i) s
  putPixel buf dm pix (x + 1 + j) (y + 1 + i) s

def gsPutcAtBuf (x y : Int32) (c : UInt8) (buf dm : UInt32) (s : State) : State :=
  (List.range 8).foldl (fun s i =>
    (List.range 6).foldl (fun s j =>
      putBlock x.toUInt32 y.toUInt32 buf dm (fontPixel font c dm i j) i j s) s) s

def gsPutcAt (D : Device) (x y : Int32) (c : UInt8) (dm : UInt32) (s : State) : State :=
  if D.current = D.activeScreen then gsPutcAtBuf font x y c D.vesaVideoMemory dm s
  else gsPutcAtBuf font x y c (D.framebuffer D.current) dm s

/-- The tests before a character is drawn: `x > vesa_x_resolution` and `y > vesa_y_resolution`,
which compare unsigned numbers. -/
def wrap (x y : Int32) : Int32 × Int32 :=
  let p := if vesaXResolution < x.toUInt32 then (0, y + fontCharHeight) else (x, y)
  if vesaYResolution < p.2.toUInt32 then (0, 0) else p

/-- The bytes of the string up to its null character. -/
def gsPutsAt (D : Device) (dm : UInt32) : List UInt8 → Int32 → Int32 → State → State
  | [], _, _, s => s
  | ch :: str, x, y, s =>
    if ch = 0x0a then gsPutsAt D dm str 0 (y + fontCharHeight) s
    else if ch = 0x0d then gsPutsAt D dm str 0 y s
    else
      let p := wrap x y
      gsPutsAt D dm str (p.1 + fontCharWidth) p.2 (gsPutcAt font D p.1 p.2 ch dm s)

/-- `x += FONT_CHAR_WIDTH` is an argument of the call here. -/
def gsPutsAtBuf (buf dm : UInt32) : List UInt8 → Int32 → Int32 → State → State
  | [], _, _, s => s
  | ch :: str, x, y, s =>
    if ch = 0x0a then gsPutsAtBuf buf dm str 0 (y + fontCharHeight) s
    else if ch = 0x0d then gsPutsAtBuf buf dm str 0 y s
    else
      let p := wrap x y
      let x := p.1 + fontCharWidth
      gsPutsAtBuf buf dm str x p.2 (gsPutcAtBuf font x p.2 ch buf dm s)

end Font

/-! ## Copies -/

/-- `*dest = *source`, for double pixels. -/
def copyDouble (dest source : UInt32) (s : State) : State :=
  { s with
    mem := Function.update (Function.update s.mem dest (s.mem source)) (dest + 2)
      (s.mem (source + 2))
    reads := s.reads ++ [source]
    writes := s.writes ++ [dest] }

/-- The pointers `m` and `b` of a copy, and the state. -/
structure Copying where
  m : UInt32
  b : UInt32
  state : State

/-- The loops over rows and columns. -/
def forPixels (body : Copying → Copying) (v : Copying) : Copying :=
  (List.range vesaYResolution.toNat).foldl (fun v _ =>
    (List.range vesaXResolution.toNat).foldl (fun v _ => body v) v) v

/-- Where the picture of the caller's screen is. -/
def Device.picture (D : Device) : UInt32 :=
  if D.current = D.activeScreen then D.vesaVideoMemory else D.framebuffer D.current

def gsDrawBuf (D : Device) (buf : UInt32) (s : State) : State :=
  (forPixels (fun v => ⟨v.m + 4, v.b + 4, copyDouble v.m v.b v.state⟩) ⟨D.picture, buf, s⟩).state

def gsSaveBuf (D : Device) (buf : UInt32) (s : State) : State :=
  (forPixels (fun v => ⟨v.m + 4, v.b + 4, copyDouble v.b v.m v.state⟩) ⟨D.picture, buf, s⟩).state

/-! ## Clearing -/

/-- The pointer `p` and the state. -/
structure Clearing where
  p : UInt32
  state : State

/-- `*p = 0; ++p` -/
def clearPixel (v : Clearing) : Clearing :=
  ⟨v.p + 2, { v.state with mem := Function.update v.state.mem v.p 0 }⟩

def gsClearBuf (buf : UInt32) (s : State) : State :=
  ((List.range vesaYResolution.toNat).foldl (fun v _ =>
    (List.range vesaXResolution.toNat).foldl (fun v _ => clearPixel v) v) ⟨buf, s⟩).state

def gsClear (D : Device) (s : State) : State :=
  if D.current = D.activeScreen then gsClearBuf D.vesaVideoMemory s
  else gsClearBuf (D.framebuffer D.current) s

/-! ## Addresses -/

/-- The address of a pixel of a buffer, by its number. -/
def pixelAddr (buf : UInt32) (p : Nat) : UInt32 := buf + 2 * UInt32.ofNat p

theorem pixelAddr_inj {buf : UInt32} {p q : Nat} (hp : p < 0x80000000) (hq : q < 0x80000000)
    (h : pixelAddr buf p = pixelAddr buf q) : p = q := by
  unfold pixelAddr at h
  have h2 : 2 * UInt32.ofNat p = 2 * UInt32.ofNat q := (UInt32.add_right_inj buf).mp h
  have hnat := congrArg UInt32.toNat h2
  rw [UInt32.toNat_mul, UInt32.toNat_mul, UInt32.toNat_ofNat', UInt32.toNat_ofNat',
    show (2 : UInt32).toNat = 2 by decide] at hnat
  omega

end Cumulonimbus.Drawing
