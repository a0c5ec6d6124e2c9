import Cumulonimbus.Agreement
import Cumulonimbus.Observers

/-!
# Readers and buffered input

`readc` queues its caller on `_reading` when the input buffer is empty, and the serial interrupt
buffers a character when `_reading` is.  So a process never waits for input that is there.
-/

namespace Cumulonimbus

open Exec

variable {σ σ₀ τ : State} {b : Boot} {i : Input} {tr : List (State × Input)}

/-- The readers and the count of buffered characters. -/
def State.input (σ : State) : Queue PcbId × UInt32 := (σ.queues .reading, σ.sio.incount)

/-- Nobody waits while a character is buffered. -/
def State.Served (σ : State) : Prop := (σ.queues .reading).items ≠ [] → σ.sio.incount = 0

end Cumulonimbus
