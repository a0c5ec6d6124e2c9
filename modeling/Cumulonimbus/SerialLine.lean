import Mathlib.Data.List.Induction
import Cumulonimbus.Sio

/-!
# A live transmitter

The flag `_sending`, the shadow register `_ier` and the device register say the same about the
transmit interrupt, and nothing is queued while it is off.  Both write paths and the interrupt
handler keep this, in whatever order they come, as long as what they store in the output buffer
reaches nothing else.
-/

namespace Cumulonimbus

/-- What happens to the transmitter. -/
inductive LineCall
  | writec (ch : UInt32)
  | writes (buffer : Nat → UInt8) (length : Int32)
  | enableRx
  | txInterrupt

def LineCall.run (s : Sio) : LineCall → Sio
  | .writec ch => sioWritec s ch
  | .writes buffer length => (sioWrites buffer length s).2
  | .enableRx => sioEnable s sioRx
  | .txInterrupt => sioSent s

/-- The transmit interrupt is enabled. -/
def TxEnabled (ier : UInt8) : Prop := ier &&& ua4IerTxIntEnable ≠ 0

instance (ier : UInt8) : Decidable (TxEnabled ier) := inferInstanceAs (Decidable (_ ≠ _))

/-- Flag, shadow register and device register agree. -/
structure Sio.Agrees (s : Sio) : Prop where
  device : s.ierReg = s.ier
  sending : s.sending = true ↔ TxEnabled s.ier

/-- They agree, and an idle transmitter has nothing to send. -/
structure Sio.Live (s : Sio) : Prop extends s.Agrees where
  idle : s.sending = false → s.outcount = 0

variable {s : Sio}

/-- The shadow register is written through. -/
theorem Sio.setIer_device (h : s.ierReg = s.ier) (ier : UInt8) :
    (s.setIer ier).ierReg = (s.setIer ier).ier := by
  rw [setIer]
  dsimp only
  split
  · rfl
  · rename_i heq
    exact h.trans (not_not.mp heq)

/-- A property of all bytes. -/
theorem forall_byte {P : UInt8 → Prop} (h : ∀ k : Fin 256, P (UInt8.ofFin k)) (b : UInt8) : P b :=
  h b.toFin

/-- The transmit bit is set. -/
theorem enabled_tx (b : UInt8) : TxEnabled (b ||| ua4IerTxIntEnable ||| 0) :=
  forall_byte (P := fun b => TxEnabled (b ||| ua4IerTxIntEnable ||| 0)) (by decide +kernel) b

/-- The receive bit is another one. -/
theorem enabled_rx (b : UInt8) : TxEnabled (b ||| 0 ||| ua4IerRxIntEnable) ↔ TxEnabled b :=
  forall_byte (P := fun b => TxEnabled (b ||| 0 ||| ua4IerRxIntEnable) ↔ TxEnabled b)
    (by decide +kernel) b

/-- The transmit bit is cleared. -/
theorem disabled_tx (b : UInt8) : ¬ TxEnabled (b &&& ~~~ua4IerTxIntEnable &&& 0xff) :=
  forall_byte (P := fun b => ¬ TxEnabled (b &&& ~~~ua4IerTxIntEnable &&& 0xff))
    (by decide +kernel) b

/-- What `_sio_enable` does for the transmitter. -/
theorem sioEnable_tx (s : Sio) :
    sioEnable s sioTx = s.setIer (s.ier ||| ua4IerTxIntEnable ||| 0) := rfl

/-- What it does for the receiver. -/
theorem sioEnable_rx (s : Sio) :
    sioEnable s sioRx = s.setIer (s.ier ||| 0 ||| ua4IerRxIntEnable) := rfl

/-- What `_sio_disable` does for the transmitter. -/
theorem sioDisable_tx (s : Sio) :
    sioDisable s sioTx = s.setIer (s.ier &&& ~~~ua4IerTxIntEnable &&& 0xff) := rfl

/-- Once it sends, there is nothing more to ask. -/
theorem Sio.Agrees.live (h : s.Agrees) (hsending : s.sending = true) : s.Live :=
  ⟨h, fun hidle => absurd hsending (by simp [hidle])⟩

/-- A character leaves the transmitter busy, with its interrupt enabled. -/
theorem sioPut_agrees (h : s.Agrees) (ch : UInt8) :
    (sioPut s ch).Agrees ∧ (sioPut s ch).sending = true := by
  rw [sioPut]
  split
  · rename_i hsending
    exact ⟨⟨h.device, h.sending⟩, hsending⟩
  · rw [sioEnable_tx]
    exact ⟨⟨Sio.setIer_device h.device _, iff_of_true rfl (enabled_tx s.ier)⟩, rfl⟩

/-- So does a line feed. -/
theorem sioWritec_agrees (h : s.Agrees) (ch : UInt32) :
    (sioWritec s ch).Agrees ∧ (sioWritec s ch).sending = true := by
  rw [sioWritec]
  split
  · exact sioPut_agrees (sioPut_agrees h 13).1 ch.toUInt8
  · exact sioPut_agrees h ch.toUInt8

/-- The loop of `_sio_writes` fills the buffer only. -/
theorem sioWritesLoop_keeps (buffer : Nat → UInt8) (n copied : Nat) (s : Sio) :
    (sioWritesLoop buffer n copied s).2.sending = s.sending ∧
      (sioWritesLoop buffer n copied s).2.ier = s.ier ∧
      (sioWritesLoop buffer n copied s).2.ierReg = s.ierReg := by
  induction n generalizing copied s with
  | zero => exact ⟨rfl, rfl, rfl⟩
  | succ n ih =>
    rw [sioWritesLoop]
    split
    · exact ih _ _
    · exact ⟨rfl, rfl, rfl⟩

/-- While the idle transmitter's characters are queued, its flag does not say so; the first
character makes up for it. -/
theorem sioWrites_live (h : s.Agrees) (buffer : Nat → UInt8) (length : Int32) :
    (sioWrites buffer length s).2.Live := by
  rw [sioWrites]
  dsimp only
  generalize (if s.sending = true then 0 else 1) = copied
  obtain ⟨hsending, hier, hreg⟩ :=
    sioWritesLoop_keeps buffer (length.toInt - (copied : Nat)).toNat copied s
  have hloop : (sioWritesLoop buffer (length.toInt - (copied : Nat)).toNat copied s).2.Agrees := by
    refine ⟨?_, ?_⟩
    · rw [hreg, hier]
      exact h.device
    · rw [hsending, hier]
      exact h.sending
  split
  · rename_i hbusy
    exact hloop.live hbusy
  · obtain ⟨hagrees, hbusy⟩ := sioWritec_agrees hloop (buffer 0).toInt8.toInt32.toUInt32
    exact hagrees.live hbusy

/-- **The transmit interrupt** goes on with the queue, or turns itself off when the queue is empty.
-/
theorem sioSent_live (h : s.Live) : (sioSent s).Live := by
  rw [sioSent]
  split
  · rename_i hmore
    exact Sio.Agrees.live ⟨h.device, h.sending⟩ hmore.1
  · rw [sioDisable_tx]
    refine ⟨⟨?_, iff_of_false Bool.false_ne_true (disabled_tx s.ier)⟩, fun _ => rfl⟩
    exact Sio.setIer_device (by exact h.device) _

/-- **Every call keeps the transmitter live.** -/
theorem LineCall.run_live (h : s.Live) (c : LineCall) : (c.run s).Live := by
  cases c with
  | writec ch =>
    obtain ⟨hagrees, hbusy⟩ := sioWritec_agrees h.toAgrees ch
    exact hagrees.live hbusy
  | writes buffer length => exact sioWrites_live h.toAgrees buffer length
  | enableRx =>
    rw [run, sioEnable_rx]
    exact ⟨⟨Sio.setIer_device h.device _, h.sending.trans (enabled_rx s.ier).symm⟩, h.idle⟩
  | txInterrupt => exact sioSent_live h

/-- **After `_sio_init`** the transmitter is idle. -/
theorem sioInit_live : sioInit.Live := by
  refine ⟨⟨rfl, ?_⟩, fun _ => rfl⟩
  rw [TxEnabled]
  decide

/-- The transmitter after some calls. -/
def lineAfter (calls : List LineCall) : Sio := calls.foldl LineCall.run sioInit

/-- One call more. -/
theorem lineAfter_concat (calls : List LineCall) (c : LineCall) :
    lineAfter (calls ++ [c]) = c.run (lineAfter calls) :=
  List.foldl_append

/-- The transmitter is live after any calls. -/
theorem lineAfter_live (calls : List LineCall) : (lineAfter calls).Live := by
  induction calls using List.reverseRecOn with
  | nil => exact sioInit_live
  | append_singleton calls c ih =>
    rw [lineAfter_concat]
    exact LineCall.run_live ih c

end Cumulonimbus
