import Cumulonimbus.Fat64Calls

/-!
# Sessions

Any number of handles and any order of calls on them.  A call with two handles may be
given the same one twice.
-/

namespace Cumulonimbus.Fat64

open Exec

attribute [local irreducible] wp

/-- The disk, and the handles of the callers. -/
structure Session where
  disk : Disk
  handle : Nat → File

/-- A call of the file system, with the numbers of its handles. -/
inductive Call
  | openRoot (h : Nat)
  | reopen (h : Nat)
  | close (h : Nat)
  | rm (h : Nat)
  | putc (h : Nat) (data : UInt8)
  | write (h : Nat) (data : List UInt8)
  | flush (h : Nat)
  | dirEntry (h : Nat) (index : UInt64) (g : Nat)
  | touch (h : Nat) (name : FileName)
  | mkdir (h : Nat) (name : FileName)

/-- A routine on one handle. -/
def onHandle (h : Nat) (x : File → Fat File) : Prog Session Spin Unit := fun s => do
  let (f, d) ← x (s.handle h) s.disk
  return ((), ⟨d, Function.update s.handle h f⟩)

/-- A routine on two handles. -/
def onHandles (h g : Nat) (x : File → File → Fat (File × File)) : Prog Session Spin Unit :=
  fun s => do
    let ((f, f'), d) ← x (s.handle h) (s.handle g) s.disk
    return ((), ⟨d, Function.update (Function.update s.handle h f) g f'⟩)

variable (v : Partition)

/-- What a call does to the session; its status goes to the caller. -/
def Call.run : Call → Prog Session Spin Unit
  | .openRoot h => onHandle h fun f => Prod.snd <$> fat64Open v f
  | .reopen h => onHandle h (fat64Reopen v)
  | .close h => onHandle h fun f => Prod.snd <$> fat64Close v f
  | .rm h => onHandle h fun f => Prod.snd <$> fat64Rm v f
  | .putc h data => onHandle h fun f => Prod.snd <$> fat64Putc v f data
  | .write h data => onHandle h fun f => Prod.snd <$> fat64Write v f data
  | .flush h => onHandle h (fat64Flush v)
  | .dirEntry h index g =>
    if g = h then onHandle h fun f => Prod.snd <$> fat64DirEntrySame v f index
    else onHandles h g fun d f => Prod.snd <$> fat64DirEntry v d index f
  | .touch h name => onHandle h fun f => Prod.snd <$> fat64Touch v f name
  | .mkdir h name => onHandle h fun f => Prod.snd <$> fat64Mkdir v f name

section Rules

variable {h g : Nat} {s : Session} {Q : Unit → Session → Prop} {E : Spin → Prop}

theorem wp_onHandle {x : File → Fat File}
    (hx : wp (x (s.handle h)) (fun f d => Q () ⟨d, Function.update s.handle h f⟩) E s.disk) :
    wp (onHandle h x) Q E s := by
  unfold wp at *
  simp only [onHandle, bind, Except.bind]
  cases hrun : x (s.handle h) s.disk with
  | error e =>
    rw [hrun] at hx
    exact hx
  | ok r =>
    rw [hrun] at hx
    exact hx

theorem wp_onHandles {x : File → File → Fat (File × File)}
    (hx : wp (x (s.handle h) (s.handle g))
      (fun r d => Q () ⟨d, Function.update (Function.update s.handle h r.1) g r.2⟩) E s.disk) :
    wp (onHandles h g x) Q E s := by
  unfold wp at *
  simp only [onHandles, bind, Except.bind]
  cases hrun : x (s.handle h) (s.handle g) s.disk with
  | error e =>
    rw [hrun] at hx
    exact hx
  | ok r =>
    rw [hrun] at hx
    exact hx

end Rules

/-- The handle is open on a directory. -/
def File.OnDirectory (f : File) : Prop := f.cluster ≠ 0 ∧ f.entry.IsDirectory

/-- The directory of the handle has a free entry on the disk. -/
def HasSlot (d : Disk) (f : File) : Prop :=
  ∃ i, i < 8 ∧ ¬ (slot (d.chunk v f.entry.file) i).Valid

/-- Some cluster is free on the disk. -/
def HasFreeCluster (d : Disk) : Prop := ∃ c : UInt64, c.toNat < v.size ∧ d.tag v c = freeTags

variable {v}

theorem Shows.hasFree {d : Disk} {vol : Volume} (h : Shows v d vol) (hfree : HasFreeCluster v d) :
    vol.HasFree v := by
  obtain ⟨c, hc, hfree⟩ := hfree
  exact ⟨c, hc, (h.tag c hc).symm.trans hfree⟩

end Cumulonimbus.Fat64
