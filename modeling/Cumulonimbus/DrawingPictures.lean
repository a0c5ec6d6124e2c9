import Mathlib.Algebra.Group.Nat.Even
import Cumulonimbus.DrawingText

/-!
# The pictures of the two text routines

Every pixel of a frame buffer is blended with the pixels of the font that fall on it, in the order
in which they are drawn.  White and black pixels that are blended in turn either turn a pixel over,
in the xor mode, or give it a colour that does not depend on what it was, or leave it alone.  On a
buffer the text is twelve columns further to the right, so the two routines draw the same picture
on every frame buffer if and only if they change nothing on any: pixel by pixel, what is drawn has
no more effect than what is drawn twelve columns to the left, which at the left edge of the first
row is nothing.  On one frame buffer, the colours that a pixel gets from here and from twelve
columns to the left must agree, or the frame buffer has had the colour already.
-/

namespace Cumulonimbus.Drawing

/-! ## What a stroke does to a buffer -/

/-- The place of a stroke in a buffer. -/
def Stroke.place (k : Stroke) : Nat := k.y.toNat * 1280 + k.x.toNat

variable {font : UInt32 → Nat → Nat → UInt8} {D : Device} {dm buf : UInt32} {s : State}
  {strokes : List Stroke} {p : Nat}

/-- The address of a stroke is that of its place. -/
theorem getPixelBuf_eq (k : Stroke) : getPixelBuf k.x k.y buf = pixelAddr buf k.place := by
  unfold getPixelBuf pixelAddr Stroke.place
  rw [UInt32.ofNat_add, UInt32.ofNat_mul, UInt32.ofNat_toNat, UInt32.ofNat_toNat, UInt32.mul_add,
    UInt32.add_assoc]
  rfl

/-- A stroke some columns to the right. -/
def Stroke.shift (lead : UInt32) (k : Stroke) : Stroke := { k with x := k.x + lead }

section Modes

variable {pixs : List UInt16}

/-- The colour that pixels of the font give to whatever they are blended with, if they change it
at all; for the modes other than xor. -/
def cover (dm : UInt32) (pixs : List UInt16) : Option UInt16 :=
  if dm &&& modeMask = modeFlat then pixs.getLast?
  else if dm &&& modeMask = modeAnd then if 0 ∈ pixs then some 0 else none
  else if 0xffff ∈ pixs then some 0xffff else none

end Modes

/-! ## The two pictures -/

/-- What is drawn here and what is drawn there leave a pixel alike: both give it the same colour or
none, or one of them leaves it alone and it has had the colour that the other gives it. -/
def Alike (here there : Option UInt16) (old : UInt16) : Prop :=
  here = there ∨ (here = none ∧ there = some old) ∨ (here = some old ∧ there = none)

end Cumulonimbus.Drawing
