import Cumulonimbus.Console

/-!
# Formatted output

`__c_do_printf` of `c_io.c` and what it calls: the conversions of numbers, padding, and output at
a place of the screen.  A string is given by the bytes from its first one on.  The format lies in
the memory at `f`, and each character that is taken from it is recorded by its offset; the
arguments are the words behind it on the stack.
-/

namespace Cumulonimbus.Printf

open Exec Console

/-- A character constant. -/
def chr (c : Char) : UInt8 := c.toUInt8

/-- The bytes from a pointer on. -/
abbrev Bytes := Nat → UInt8

/-! ## Conversions of numbers -/

/-- A buffer, and how many characters have been put into it. -/
structure Out where
  buf : Bytes
  bp : Nat

/-- `*bp++ = c` -/
def Out.put (o : Out) (c : UInt8) : Out := ⟨Function.update o.buf o.bp c, o.bp + 1⟩

/-- `*bp = '\0'`, and what is returned. -/
def Out.finish (o : Out) : Bytes × Nat := (Function.update o.buf o.bp 0, o.bp)

/-- The size of an argument of `cvtdec0`, which every recursive call makes smaller. -/
def decimalSize (value : Int32) : Nat := if value < 0 then 0x80000000 else value.toInt.toNat

/-- The quotient after the correction, which `value` gets as well. -/
def decimalQuotient (value : Int32) : Int32 := if value / 10 < 0 then 214748364 else value / 10

theorem toInt_div10 (value : Int32) :
    (value / 10).toInt = if value.toInt < 0 then -(-value.toInt / 10) else value.toInt / 10 := by
  have hdiv : (value / 10).toInt = value.toInt.tdiv 10 :=
    Int32.toInt_div_of_ne_right _ _ (by decide)
  rw [hdiv]
  split
  case isTrue h =>
    rw [← Int.tdiv_eq_ediv_of_nonneg (show 0 ≤ -value.toInt by omega), Int.neg_tdiv, Int.neg_neg]
  case isFalse h => exact Int.tdiv_eq_ediv_of_nonneg (by omega)

theorem decimalQuotient_lt {value : Int32} (h : decimalQuotient value ≠ 0) :
    decimalSize (decimalQuotient value) < decimalSize value := by
  have hdiv := toInt_div10 value
  have h0 : (0 : Int32).toInt = 0 := by decide
  unfold decimalQuotient at h ⊢
  unfold decimalSize
  split at h
  case isTrue hneg =>
    have hvalue : value < 0 := by
      rw [Int32.lt_iff_toInt_lt, hdiv, h0] at hneg
      rw [Int32.lt_iff_toInt_lt, h0]
      split at hneg <;> omega
    rw [if_pos hneg, if_pos hvalue]
    decide
  case isFalse hpos =>
    have hne : (value / 10).toInt ≠ 0 := fun heq => h (Int32.toInt_inj.mp (heq.trans h0.symm))
    rw [Int32.lt_iff_toInt_lt, h0] at hpos
    have hvalue : ¬ value < 0 := by
      rw [Int32.lt_iff_toInt_lt, h0]
      split at hdiv <;> omega
    have hquotient : ¬ value / 10 < 0 := by
      rwa [Int32.lt_iff_toInt_lt, h0]
    rw [if_neg hquotient, if_neg hquotient, if_neg hvalue]
    split at hdiv <;> omega

def cvtdec0 (o : Out) (value : Int32) : Out :=
  let quotient := decimalQuotient value
  let digit := (if value / 10 < 0 then 8 else value) % 10 + 48
  let o := if quotient ≠ 0 then cvtdec0 o quotient else o
  o.put digit.toUInt32.toUInt8
termination_by decimalSize value
decreasing_by exact decimalQuotient_lt (by assumption)

/-- The buffer, and the number of characters. -/
def cvtdec (buf : Bytes) (value : Int32) : Bytes × Nat :=
  let o : Out := ⟨buf, 0⟩
  if value < 0 then (cvtdec0 (o.put (chr '-')) (-value)).finish
  else (cvtdec0 o value).finish

def hexdigits : List UInt8 :=
  [chr '0', chr '1', chr '2', chr '3', chr '4', chr '5', chr '6', chr '7', chr '8', chr '9',
    chr 'A', chr 'B', chr 'C', chr 'D', chr 'E', chr 'F']

/-- `hexdigits[val]` -/
def hexdigit (val : Int32) : UInt8 := hexdigits.getD val.toInt.toNat 0

/-- The local variables of `cvthex` and `cvtoct`. -/
structure Peel where
  out : Out
  charsStored : Bool
  value : Int32
  val : Int32

/-- A bit pattern as an `int`. -/
def pattern (w : UInt32) : Int32 := w.toInt32

/-- A turn of the loop of `cvthex`. -/
def hexTurn (v : Peel) (i : Nat) : Peel :=
  let val := v.value &&& pattern 0xf0000000
  if i = 7 ∨ val ≠ 0 ∨ v.charsStored then
    let val := val >>> 28 &&& 0xf
    ⟨v.out.put (hexdigit val), true, v.value <<< 4, val⟩
  else { v with value := v.value <<< 4, val := val }

def cvthex (buf : Bytes) (value : Int32) : Bytes × Nat :=
  ((List.range 8).foldl hexTurn ⟨⟨buf, 0⟩, false, value, 0⟩).out.finish

/-- A turn of the loop of `cvtoct`. -/
def octTurn (v : Peel) (i : Nat) : Peel :=
  let w :=
    if i = 10 ∨ v.val ≠ 0 ∨ v.charsStored then
      let val := v.val &&& 0x7
      { v with out := v.out.put (hexdigit val), charsStored := true, val := val }
    else v
  let value := w.value <<< 3
  { w with value := value, val := (value &&& pattern 0xe0000000) >>> 29 }

def cvtoct (buf : Bytes) (value : Int32) : Bytes × Nat :=
  ((List.range 11).foldl octTurn
    ⟨⟨buf, 0⟩, false, value, (value &&& pattern 0xc0000000) >>> 30⟩).out.finish

/-! ## Output at a place -/

/-- Where `c_putchar_at` stops to erase the rest of a line. -/
def eraseLimit (s : State) (x : UInt32) : UInt32 :=
  if s.scrollMaxX < x then s.maxX
  else if s.scrollMinX ≤ x then s.scrollMaxX
  else s.scrollMinX - 1

def cPutcharAt (V : Video) (x y c : UInt32) : Console.Con Unit := do
  if c &&& 0x7f = (chr '\n').toUInt32 then
    let s ← get
    let limit := eraseLimit s x
    let _ ← loop .spin (fun x _ => x ≤ limit)
      (fun x => do
        putcharAt V x y 0x20
        return x + 1) rounds x
    pure ()
  else putcharAt V x y c

/-- The characters of a string up to its null character. -/
def cPutsAt (V : Video) (x y : UInt32) : List UInt8 → Console.Con Unit
  | [] => pure ()
  | ch :: str => do
    let s ← get
    if x ≤ s.maxX then
      cPutcharAt V x y (promote ch)
      cPutsAt V (x + 1) y str
    else pure ()

/-- The characters from a pointer up to the null character, of which there are at most as many as
the number says. -/
def readString : Nat → Bytes → Console.Con (List UInt8)
  | 0, _ => throw .spin
  | n + 1, src =>
    if src 0 = 0 then pure []
    else do
      let rest ← readString n fun i => src (i + 1)
      return src 0 :: rest

/-- Whether output goes to a place. -/
def placed (x y : Int32) : Prop := x ≠ -1 ∨ y ≠ -1

instance decidablePlaced (x y : Int32) : Decidable (placed x y) :=
  inferInstanceAs (Decidable (_ ∨ _))

/-- `extra` turns, and the column after them. -/
def padTurns (V : Video) (y padchar : Int32) : Nat → Int32 → Console.Con Int32
  | 0, x => return x
  | extra + 1, x => do
    if placed x y then
      cPutcharAt V x.toUInt32 y.toUInt32 padchar.toUInt32
      padTurns V y padchar extra (x + 1)
    else
      cPutchar V padchar.toUInt32
      padTurns V y padchar extra x

def pad (V : Video) (x y extra padchar : Int32) : Console.Con Int32 :=
  padTurns V y padchar extra.toInt.toNat x

/-- A negative length stands for that of the string. -/
def padstr (V : Video) (x y : Int32) (src : Bytes) (len width : Int32) (leftadjust : Bool)
    (padchar : Int32) : Console.Con Int32 := do
  let str ← readString rounds src
  let len := if len < 0 then Int32.ofNat str.length else len
  let extra := width - len
  let x ← if 0 < extra ∧ leftadjust = false then pad V x y extra padchar else pure x
  let x ← if placed x y then do
      cPutsAt V x.toUInt32 y.toUInt32 str
      pure (x + len)
    else do
      cPuts V str
      pure x
  if 0 < extra ∧ leftadjust = true then pad V x y extra padchar else return x

/-! ## The format -/

/-- The local variables of `__c_do_printf`.  The pointers `fmt` and `ap` are offsets from the format
and from the first argument. -/
structure Locals where
  x : Int32
  y : Int32
  fmt : Nat
  ap : Nat
  buf : Bytes
  ch : UInt8
  leftadjust : Bool
  width : Int32
  padchar : Int32
  /-- The offsets of the characters of the format that have been read, oldest first. -/
  fetched : List Nat

section Format

variable (V : Video) (mem : UInt32 → UInt8) (f : UInt32) (args : Nat → UInt32)

/-- `ch = *fmt++` -/
def fetch (v : Locals) : Locals :=
  { v with
    ch := mem (f + UInt32.ofNat v.fmt)
    fmt := v.fmt + 1
    fetched := v.fetched ++ [v.fmt] }

def isDigit (ch : UInt8) : Bool := chr '0' ≤ ch ∧ ch ≤ chr '9'

/-- `while (ch >= '0' && ch <= '9')` -/
def takeWidth (v : Locals) : Console.Con Locals :=
  loop .spin (fun v _ => isDigit v.ch)
    (fun v => do
      let width := v.width * 10 + (v.ch - chr '0').toUInt32.toInt32
      return fetch mem f { v with width := width }) rounds v

/-- `if (ch == '-')` -/
def takeAlignment (v : Locals) : Locals :=
  if v.ch = chr '-' then fetch mem f { v with leftadjust := true } else v

/-- `if (ch == '0')` -/
def takeFill (v : Locals) : Locals :=
  if v.ch = chr '0' then fetch mem f { v with padchar := (chr '0').toUInt32.toInt32 } else v

/-- `*ap++` -/
def takeArg (v : Locals) : Locals := { v with ap := v.ap + 1 }

/-- `x = padstr(...)` -/
def padLocals (v : Locals) (src : Bytes) (len : Int32) : Console.Con Locals := do
  let x ← padstr V v.x v.y src len v.width v.leftadjust v.padchar
  return { v with x := x }

/-- A conversion into the buffer, `len = cvt(buf, *ap++)`, and its output. -/
def padNumber (v : Locals) (cvt : Bytes → Int32 → Bytes × Nat) : Console.Con Locals :=
  let r := cvt v.buf (args v.ap).toInt32
  padLocals V { takeArg v with buf := r.1 } r.1 (Int32.ofNat r.2)

/-- The `switch` over the type of the data. -/
def convert (v : Locals) : Console.Con Locals :=
  if v.ch = chr 'c' then
    let ch := (args v.ap).toUInt8
    let buf := Function.update (Function.update v.buf 0 ch) 1 0
    padLocals V { takeArg v with ch := ch, buf := buf } buf 1
  else if v.ch = chr 'd' then padNumber V args v cvtdec
  else if v.ch = chr 's' then
    padLocals V (takeArg v) (fun i => mem (args v.ap + UInt32.ofNat i)) (-1)
  else if v.ch = chr 'x' then padNumber V args v cvthex
  else if v.ch = chr 'o' then padNumber V args v cvtoct
  else return v

/-- The branch for `%`. -/
def formatCode (v : Locals) : Console.Con Locals := do
  let v := fetch mem f
    { v with leftadjust := false, padchar := (chr ' ').toUInt32.toInt32, width := 0 }
  let v ← takeWidth mem f (takeFill mem f (takeAlignment mem f v))
  convert V mem args v

/-- The branch for a character that is shown as it is. -/
def showPlain (v : Locals) : Console.Con Locals := do
  if placed v.x v.y then
    cPutcharAt V v.x.toUInt32 v.y.toUInt32 (promote v.ch)
    let s ← get
    if v.ch = chr '\n' then return { v with y := v.y + 1, x := s.scrollMinX.toInt32 }
    else if v.ch = chr '\r' then return { v with x := s.scrollMinX.toInt32 }
    else return { v with x := v.x + 1 }
  else
    cPutchar V (promote v.ch)
    return v

/-- A turn of the main loop, and the next character. -/
def formatTurn (v : Locals) : Console.Con Locals := do
  let v ← if v.ch = chr '%' then formatCode V mem f args v else showPlain V v
  return fetch mem f v

/-- `while ((ch = *fmt++) != '\0')` -/
def cDoPrintf (x y : Int32) (buf : Bytes) : Console.Con Locals :=
  loop .spin (fun v _ => v.ch ≠ 0) (formatTurn V mem f args) rounds
    (fetch mem f ⟨x, y, 0, 0, buf, 0, false, 0, 0, []⟩)

def cPrintfAt (x y : UInt32) (buf : Bytes) : Console.Con Locals :=
  cDoPrintf V mem f args x.toInt32 y.toInt32 buf

def cPrintf (buf : Bytes) : Console.Con Locals := cDoPrintf V mem f args (-1) (-1) buf

end Format

end Cumulonimbus.Printf
