import Mathlib.Logic.Function.Basic

/-!
# The serial port's buffers

`sio.c` keeps one buffer of received characters that no process has asked for
yet and one of characters the transmitter still has to send.  Both buffers are
walked by raw pointers; here a pointer is its distance from the start of its
array, and the cells at `bufSize` and beyond stand for whatever the linker put
behind the array.  What a store there does to the variables of the module is
not said here: `SerialMemory` has the output side with its variables in memory,
and shows that the two agree as long as all stores go into the array.
-/

namespace Cumulonimbus

def bufSize : Nat := 2048

/-- The interrupt selectors of `sio.h`. -/
def sioTx : UInt8 := 0x01
def sioRx : UInt8 := 0x02

/-- The bits of the device's interrupt enable register. -/
def ua4IerRxIntEnable : UInt8 := 0x01
def ua4IerTxIntEnable : UInt8 := 0x02

/-- The state of the serial module, with the two device registers it drives:
the bytes handed to `UA4_TXD` so far, oldest first, and the contents of
`UA4_IER`. -/
structure Sio where
  inbuffer : Nat → UInt8
  inlast : Nat
  innext : Nat
  incount : UInt32
  outbuffer : Nat → UInt8
  outlast : Nat
  outnext : Nat
  outcount : UInt32
  sending : Bool
  ier : UInt8
  txd : List UInt8
  ierReg : UInt8

/-- The variables as `_sio_init` leaves them. -/
def sioInit : Sio where
  inbuffer := fun _ => 0
  inlast := 0
  innext := 0
  incount := 0
  outbuffer := fun _ => 0
  outlast := 0
  outnext := 0
  outcount := 0
  sending := false
  ier := 0
  txd := []
  ierReg := 0

/-- Write the shadow register through to the device if it changed. -/
def Sio.setIer (s : Sio) (ier : UInt8) : Sio :=
  { s with ier := ier, ierReg := if s.ier ≠ ier then ier else s.ierReg }

def sioEnable (s : Sio) (which : UInt8) : Sio :=
  let tx := if which &&& sioTx ≠ 0 then ua4IerTxIntEnable else 0
  let rx := if which &&& sioRx ≠ 0 then ua4IerRxIntEnable else 0
  s.setIer (s.ier ||| tx ||| rx)

def sioDisable (s : Sio) (which : UInt8) : Sio :=
  let tx := if which &&& sioTx ≠ 0 then ~~~ ua4IerTxIntEnable else 0xff
  let rx := if which &&& sioRx ≠ 0 then ~~~ ua4IerRxIntEnable else 0xff
  s.setIer (s.ier &&& tx &&& rx)

/-- The next input character, or `none` where the source returns -1. -/
def sioReadc (s : Sio) : Option UInt32 × Sio :=
  if 0 < s.incount then
    let ch := (s.inbuffer s.innext).toUInt32
    let s := { s with innext := s.innext + 1, incount := s.incount - 1 }
    -- the pointers go back to the start only when the buffer has drained
    if s.incount < 1 then (some ch, { s with inlast := 0, innext := 0 }) else (some ch, s)
  else (none, s)

/-- The loop of `_sio_reads`, for at most as many turns as the first argument says: the
places of the buffer that it copies from, one for each character copied so far. -/
def sioReadsLoop (length : Int) : Nat → List Nat → Sio → List Nat × Sio
  | 0, places, s => (places, s)
  | n + 1, places, s =>
    if 0 < s.incount ∧ (places.length : Int) < length then
      sioReadsLoop length n (places ++ [s.innext])
        { s with
          innext := if bufSize < s.innext + 1 then 0 else s.innext + 1
          incount := s.incount - 1 }
    else (places, s)

/-- Copy unread characters into a buffer of the given length; the characters copied, whose
number the source returns.  Every turn of the loop takes one off the count. -/
def sioReads (s : Sio) (length : Int32) : List UInt8 × Sio :=
  if s.incount < 1 then ([], s)
  else
    let (places, t) := sioReadsLoop length.toInt s.incount.toNat [] s
    (places.map s.inbuffer, if t.incount < 1 then { t with inlast := 0, innext := 0 } else t)

/-- `_sio_writec` once line feeds have been mapped. -/
def sioPut (s : Sio) (ch : UInt8) : Sio :=
  if s.sending then
    { s with
      outbuffer := Function.update s.outbuffer s.outlast ch
      outlast := s.outlast + 1
      outcount := s.outcount + 1 }
  else sioEnable { s with sending := true, txd := s.txd ++ [ch] } sioTx

/-- Write one character, a line feed as carriage return and line feed. -/
def sioWritec (s : Sio) (ch : UInt32) : Sio :=
  sioPut (if ch = 10 then sioPut s 13 else s) ch.toUInt8

/-- The loop of `_sio_writes`, for at most as many characters as the first argument says; the
second counts those copied so far. -/
def sioWritesLoop (buffer : Nat → UInt8) : Nat → Nat → Sio → Nat × Sio
  | 0, copied, s => (copied, s)
  | n + 1, copied, s =>
    if s.outcount < bufSize.toUInt32 then
      sioWritesLoop buffer n (copied + 1)
        { s with
          outbuffer := Function.update s.outbuffer s.outlast (buffer copied)
          outlast := if bufSize ≤ s.outlast + 1 then 0 else s.outlast + 1
          outcount := s.outcount + 1 }
    else (copied, s)

/-- Write a buffer; the number of characters copied.  An idle transmitter gets the first one at
the end, by `_sio_writec`. -/
def sioWrites (buffer : Nat → UInt8) (length : Int32) (s : Sio) : Nat × Sio :=
  let copied : Nat := if s.sending then 0 else 1
  let (copied, t) := sioWritesLoop buffer (length.toInt - copied).toNat copied s
  (copied, if t.sending then t else sioWritec t (buffer 0).toInt8.toInt32.toUInt32)

/-- Buffer a received character if there is room for it. -/
def sioStore (s : Sio) (ch : UInt8) : Sio :=
  if s.incount < bufSize.toUInt32 then
    { s with
      inbuffer := Function.update s.inbuffer s.inlast ch
      inlast := s.inlast + 1
      incount := s.incount + 1 }
  else s

/-- The transmitter is ready for another character. -/
def sioSent (s : Sio) : Sio :=
  if s.sending ∧ 0 < s.outcount then
    { s with
      txd := s.txd ++ [s.outbuffer s.outnext]
      outnext := if bufSize ≤ s.outnext + 1 then 0 else s.outnext + 1
      outcount := s.outcount - 1 }
  else
    sioDisable { s with outcount := 0, outlast := 0, outnext := 0, sending := false } sioTx

end Cumulonimbus
