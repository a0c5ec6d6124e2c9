import Cumulonimbus.Fat64Files
import Cumulonimbus.Fat64Sessions

/-!
# Requests and their accesses

A request is a call, or a call that reads.  `Request.InBounds` says that every byte and every
directory entry that it reads or writes in a handle lies within the 4096 bytes of the cluster
buffer; it follows the accesses of the source, one by one.  `Request.Careful` says what a request
needs of the state it is made in.
-/

namespace Cumulonimbus.Fat64

open Exec Linked

attribute [local irreducible] wp

/-- A request of a user: a call, or a call that reads. -/
inductive Request
  | call (c : Call)
  | getc (h : Nat)
  | read (h : Nat) (amount : Nat)

variable (v : Partition)

def Request.run : Request → Prog Session Spin Unit
  | .call c => c.run v
  | .getc h => onHandle h fun f => (fun r => r.2.1) <$> fat64Getc v f
  | .read h amount => onHandle h fun f => (fun r => r.2.1) <$> fat64Read v f amount

/-! ## Accesses -/

/-- `buf[location]` in `fat64_getc`. -/
def GetcInBounds (f : File) : Prop :=
  f.cluster = 0 ∨ f.location = eof32 ∨ f.location.toNat < clusterSize

/-- `entries[dir_entry_num]` in `save_dir_entry`. -/
def EntryInBounds (e : Entry) : Prop := e.dirEntryNum.toNat < entriesPerCluster

/-- `buf[location]` in `fat64_putc`, where there is room, and the entry that is saved if the file
grows. -/
def PutcInBounds (f : File) (d : Disk) : Prop :=
  f.cluster = 0 ∨
    wp (putcExtend v f)
      (fun r _ => r.1 = .success → r.2.location.toNat < clusterSize ∧
        (r.2.entry.size < r.2.absLocation + 1 → EntryInBounds r.2.entry))
      (fun _ => True) d

/-- The accesses of the loop of `fat64_read`. -/
def ReadInBounds (amount : Nat) : Nat → UInt32 → File → Disk → Prop
  | 0, _, _, _ => True
  | n + 1, i, f, d => i.toNat < amount → GetcInBounds f ∧
    wp (fat64Getc v f)
      (fun r d' => r.1 = .success → ReadInBounds amount n (i + 1) r.2.1 d') (fun _ => True) d

/-- The accesses of the loop of `fat64_write`. -/
def WriteInBounds (data : List UInt8) : Nat → UInt32 → File → Disk → Prop
  | 0, _, _, _ => True
  | n + 1, i, f, d => i.toNat < data.length → PutcInBounds v f d ∧
    wp (fat64Putc v f (data.getD i.toNat 0))
      (fun r d' => r.1 = .success → WriteInBounds data n (i + 1) r.2 d') (fun _ => True) d

/-- The accesses of a request.  What loads or saves a cluster, and the search for a slot, go
through the buffer from its start to its end. -/
def Request.InBounds (s : Session) : Request → Prop
  | .call (.openRoot _) | .call (.reopen _) | .call (.close _) | .call (.flush _) => True
  | .call (.rm h) => (s.handle h).cluster = 0 ∨ EntryInBounds (s.handle h).entry
  | .call (.putc h _) => PutcInBounds v (s.handle h) s.disk
  | .call (.write h data) => WriteInBounds v data turns 0 (s.handle h) s.disk
  | .call (.dirEntry _ index _) => 8 < index.toNat ∨ index.toNat < entriesPerCluster
  | .call (.touch h _) | .call (.mkdir h _) =>
    (getFreeDirEntry (s.handle h).buf).toNat < entriesPerCluster
  | .getc h => GetcInBounds (s.handle h)
  | .read h amount => ReadInBounds v amount turns 0 (s.handle h) s.disk

/-! ## Careful requests -/

/-- The handle has not been used to remove its file. -/
def File.Live (f : File) : Prop := f.cluster ≠ clusterTagEof

/-- The handle is not at the end of a cluster, where reading to the end of a file leaves it. -/
def File.NotReadOut (f : File) : Prop := f.location.toNat ≠ clusterSize

/-- From where the handle stands there are `n` more bytes to the end of the last cluster. -/
def HasBytes (d : Disk) (f : File) (n : Nat) : Prop :=
  ∃ l, Path (d.next v) (link f.currentTags.next) l none ∧
    n + f.location.toNat ≤ clusterSize * (l.length + 1)

/-- No other handle is open on what the handle is open on, or on something in it. -/
def Session.Exclusive (s : Session) (h : Nat) : Prop :=
  ∀ k, k ≠ h → (s.handle k).cluster ≠ 0 → (s.handle k).Live →
    (s.handle k).entry.file ≠ (s.handle h).entry.file ∧
      (s.handle k).entry.parent ≠ (s.handle h).entry.file

/-- What the requests need. -/
def Request.Careful (s : Session) : Request → Prop
  | .call (.openRoot _) | .call (.close _) => True
  | .call (.reopen h) | .call (.flush h) => (s.handle h).Live
  | .call (.rm h) => (s.handle h).Live ∧ (s.handle h).entry.file ≠ UInt64.ofNat v.rootDir ∧
      s.Exclusive h
  | .call (.putc h _) | .call (.write h _) =>
    (s.handle h).Live ∧ ¬ (s.handle h).OnDirectory ∧ (s.handle h).NotReadOut
  | .call (.dirEntry h index _) => (s.handle h).OnDirectory ∧ index ≠ 8
  | .call (.touch h _) | .call (.mkdir h _) => (s.handle h).OnDirectory ∧
      getFreeDirEntry (s.handle h).buf ≠ eof32 ∧ HasFreeCluster v s.disk
  | .getc h => (s.handle h).Live ∧ (s.handle h).NotReadOut
  | .read h amount => (s.handle h).Live ∧
      ((s.handle h).cluster ≠ 0 → (s.handle h).location ≠ eof32 →
        amount < 2 ^ 32 ∧ HasBytes v s.disk (s.handle h) amount)

end Cumulonimbus.Fat64
