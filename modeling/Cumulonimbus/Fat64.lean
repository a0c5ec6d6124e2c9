import Cumulonimbus.Exec
import Cumulonimbus.Bytes

/-!
# The FAT64 file system

`fat64.c` over a disk of sectors.  A cluster is eight sectors.  The tag table has
two numbers for each cluster, its neighbours in the file it belongs to; a directory
is one cluster with eight entries.  A handle caches one cluster of a file, the tags
of that cluster and the directory entry of the file.

Sector numbers have 32 bits and all other numbers 64; pointers into a cluster
buffer wrap at 32 bits.  The disk returns what was last written to a sector.
-/

namespace Cumulonimbus.Fat64

open Exec

def sectorSize : Nat := 512
def clusterSize : Nat := 4096
def sectorsPerCluster : Nat := clusterSize / sectorSize
def tagsPerSector : Nat := sectorSize / 16
def entriesPerCluster : Nat := clusterSize / 512

def clusterTagEof : UInt64 := 0xFFFFFFFF
def clusterTagFree : UInt64 := 0

def validFlag : UInt32 := 1
def directoryFlag : UInt32 := 2

/-- `FAT64_EOF` as a location and as an entry number. -/
def eof32 : UInt32 := 0xFFFFFFFF

/-- The status codes of the file system calls. -/
inductive Status
  | success | eof | badHandle
  deriving DecidableEq

abbrev Sector := Fin 512 → UInt8
abbrev Cluster := Fin 4096 → UInt8

/-- The superblock. -/
structure Partition where
  rootDir : Nat
  clusterTags : Nat
  size : Nat
  clusterSize : Nat
  partitionLocation : Nat

@[ext] structure Tags where
  prev : UInt64
  next : UInt64
  deriving DecidableEq

@[ext] structure Entry where
  name : Fin 256 → UInt8
  file : UInt64
  parent : UInt64
  size : UInt64
  timeCreated : UInt64
  timeAccessed : UInt64
  timeModified : UInt64
  flags : UInt32
  dirEntryNum : UInt32
  unused : Fin 200 → UInt8

/-- A cleared `fat64_dir_entry_t`. -/
def Entry.zero : Entry := ⟨fun _ => 0, 0, 0, 0, 0, 0, 0, 0, 0, fun _ => 0⟩

def Entry.Valid (e : Entry) : Prop := e.flags &&& validFlag ≠ 0

def Entry.IsDirectory (e : Entry) : Prop := e.flags &&& directoryFlag ≠ 0

instance (e : Entry) : Decidable e.Valid := inferInstanceAs (Decidable (_ ≠ _))
instance (e : Entry) : Decidable e.IsDirectory := inferInstanceAs (Decidable (_ ≠ _))

/-- A `fat64_file_t`, with the memory that lies behind it. -/
structure File where
  entry : Entry
  currentTags : Tags
  cluster : UInt64
  absLocation : UInt64
  location : UInt32
  buf : Cluster
  dirty : Bool
  behind : Nat → UInt8

/-- A handle cleared by `memset`. -/
def File.clear (f : File) : File := ⟨.zero, ⟨0, 0⟩, 0, 0, 0, fun _ => 0, false, f.behind⟩

/-- A handle on the stack of the callee, which clears it or never reads what it does
not write. -/
def File.fresh : File := ⟨.zero, ⟨0, 0⟩, 0, 0, 0, fun _ => 0, false, fun _ => 0⟩

/-- The byte `k` places after the start of the buffer of a handle: `dirty` follows the
buffer, and other memory follows that. -/
def File.byteAt (f : File) (k : Nat) : UInt8 :=
  if h : k < 4096 then f.buf ⟨k, h⟩
  else if k = 4096 then (if f.dirty then 1 else 0)
  else f.behind (k - 4097)

/-- The disk, with a record of the sectors that `save_cluster` has written, the latest
first. -/
structure Disk where
  sector : Nat → Sector
  saved : List Nat

/-- A loop that would not end. -/
inductive Spin
  | spin

/-- As many turns as a loop over 64-bit numbers can take before it repeats itself. -/
def turns : Nat := 2 ^ 64

/-- A routine of the file system. -/
abbrev Fat (α : Type) := Prog Disk Spin α

/-! ## Records in bytes -/

/-- The `fat64_dir_entry_t` in 512 bytes. -/
def Entry.ofBytes (b : Nat → UInt8) : Entry where
  name := fun k => b k.val
  file := Bytes.get64 b 256
  parent := Bytes.get64 b 264
  size := Bytes.get64 b 272
  timeCreated := Bytes.get64 b 280
  timeAccessed := Bytes.get64 b 288
  timeModified := Bytes.get64 b 296
  flags := Bytes.get32 b 304
  dirEntryNum := Bytes.get32 b 308
  unused := fun k => b (312 + k.val)

def Entry.toBytes (e : Entry) (k : Nat) : UInt8 :=
  if h : k < 256 then e.name ⟨k, h⟩
  else if k < 264 then Bytes.byte e.file.toNat (k - 256)
  else if k < 272 then Bytes.byte e.parent.toNat (k - 264)
  else if k < 280 then Bytes.byte e.size.toNat (k - 272)
  else if k < 288 then Bytes.byte e.timeCreated.toNat (k - 280)
  else if k < 296 then Bytes.byte e.timeAccessed.toNat (k - 288)
  else if k < 304 then Bytes.byte e.timeModified.toNat (k - 296)
  else if k < 308 then Bytes.byte e.flags.toNat (k - 304)
  else if k < 312 then Bytes.byte e.dirEntryNum.toNat (k - 308)
  else if h : k < 512 then e.unused ⟨k - 312, by omega⟩
  else 0

/-- `entries[i]` of a cluster buffer. -/
def slot (b : Cluster) (i : Nat) : Entry :=
  .ofBytes fun k => b (Fin.ofNat 4096 (512 * i + k))

/-- `entries[i] = e`. -/
def putSlot (b : Cluster) (i : Nat) (e : Entry) : Cluster :=
  fun k => if k.val / 512 = i then e.toBytes (k.val % 512) else b k

/-- `tags[j]` of a sector. -/
def tagAt (s : Sector) (j : Nat) : Tags where
  prev := Bytes.get64 (fun k => s (Fin.ofNat 512 k)) (16 * j)
  next := Bytes.get64 (fun k => s (Fin.ofNat 512 k)) (16 * j + 8)

/-- `tags[j] = t`. -/
def putTag (s : Sector) (j : Nat) (t : Tags) : Sector := fun k =>
  if k.val / 16 = j then
    if k.val % 16 < 8 then Bytes.byte t.prev.toNat (k.val % 16)
    else Bytes.byte t.next.toNat (k.val % 16 - 8)
  else s k

/-! ## Sectors -/

def ideRead (sector : Nat) : Fat Sector := do
  let d ← get
  return d.sector sector

def ideWrite (sector : Nat) (b : Sector) : Fat Unit :=
  modify fun d => { d with sector := Function.update d.sector sector b }

variable (v : Partition)

/-- Sector `i` of a cluster. -/
def clusterSector (cluster : UInt64) (i : Nat) : Nat :=
  (sectorsPerCluster * cluster.toNat + i + v.partitionLocation) % 2 ^ 32

/-- The sector of the tag table that has the tags of a cluster. -/
def tagSector (cluster : UInt64) : Nat :=
  (cluster.toNat % 2 ^ 32 / tagsPerSector + v.clusterTags * sectorsPerCluster +
    v.partitionLocation) % 2 ^ 32

/-- The place of a cluster in that sector. -/
def whichTag (cluster : UInt64) : Nat := cluster.toNat % 2 ^ 32 % tagsPerSector

/-- The contents of a cluster on the disk. -/
def Disk.chunk (d : Disk) (cluster : UInt64) : Cluster :=
  fun k => d.sector (clusterSector v cluster (k.val / 512)) (Fin.ofNat 512 k)

/-! ## Helper functions -/

/-- Read sector `i` of a cluster into the buffer. -/
def loadSector (f : File) (i : Nat) : Fat File := do
  let s ← ideRead (clusterSector v f.cluster i)
  return { f with
    buf := fun k => if k.val / 512 = i then s (Fin.ofNat 512 k) else f.buf k }

def loadCluster (f : File) : Fat File :=
  (List.range sectorsPerCluster).foldlM (loadSector v) f

/-- Write a part of the buffer to sector `i` of the cluster. -/
def saveSector (f : File) (i : Nat) : Fat Unit := do
  let sector := clusterSector v f.cluster i
  ideWrite sector fun k => f.buf (Fin.ofNat 4096 (512 * i + k.val))
  modify fun d => { d with saved := sector :: d.saved }

/-- Write a dirty buffer to its cluster. -/
def saveCluster (f : File) : Fat File :=
  if !f.dirty then return f
  else do
    forM (List.range sectorsPerCluster) (saveSector v f)
    return { f with dirty := false }

def loadClusterTags (f : File) : Fat File := do
  let s ← ideRead (tagSector v f.cluster)
  return { f with currentTags := tagAt s (whichTag f.cluster) }

def saveClusterTags (f : File) : Fat Unit := do
  let s ← ideRead (tagSector v f.cluster)
  ideWrite (tagSector v f.cluster) (putTag s (whichTag f.cluster) f.currentTags)

def openCluster (f : File) : Fat File := do
  let f ← loadCluster v f
  loadClusterTags v f

def markCluster (cluster prev next : UInt64) : Fat Unit := do
  let s ← ideRead (tagSector v cluster)
  ideWrite (tagSector v cluster) (putTag s (whichTag cluster) ⟨prev, next⟩)

/-- Read a new sector of the tag table, where one starts. -/
def tagBuffer (cluster : UInt64) (s : Sector) : Fat Sector :=
  if whichTag cluster = 0 then ideRead (tagSector v cluster) else pure s

/-- The search for a free cluster, from `freeCluster` on and for at most as many
clusters as the first argument says, with the sector that was read last. -/
def findFree : Nat → UInt64 → Sector → Fat UInt64
  | 0, freeCluster, _ => return freeCluster
  | n + 1, freeCluster, s => do
    let s ← tagBuffer v freeCluster s
    if tagAt s (whichTag freeCluster) = ⟨clusterTagFree, clusterTagFree⟩ then return freeCluster
    else findFree n (freeCluster + 1) s

/-- Take the first free cluster, or none if all are in use. -/
def getFreeCluster (prev next : UInt64) : Fat UInt64 := do
  let freeCluster ← findFree v v.size 0 fun _ => 0
  if v.size ≤ freeCluster.toNat then return clusterTagEof
  else do
    markCluster v freeCluster prev next
    return freeCluster

/-- The number of the first invalid entry in a buffer. -/
def getFreeDirEntry (b : Cluster) : UInt32 :=
  match (List.range entriesPerCluster).find? fun i => ¬ (slot b i).Valid with
  | some i => UInt32.ofNat i
  | none => eof32

/-- Store an entry into the buffer of a directory handle.  The address
`&entries[num]` wraps at 32 bits: number `FAT64_EOF` lies 512 bytes before the
buffer, where the entry overwrites the cluster number of the handle, and other
numbers out of range lie in foreign memory. -/
def storeEntry (dir : File) (e : Entry) : File :=
  let num := e.dirEntryNum.toNat % 2 ^ 23
  if num < entriesPerCluster then { dir with buf := putSlot dir.buf num e }
  else if num = 2 ^ 23 - 1 then { dir with cluster := Bytes.get64 e.toBytes 492 }
  else dir

/-- Write the entry of a handle into its parent directory. -/
def saveDirEntry (f : File) : Fat Unit := do
  let dir ← openCluster v { File.fresh with cluster := f.entry.parent }
  let dir := storeEntry dir f.entry
  let _ ← saveCluster v { dir with dirty := true }

/-- The entry of the root directory. -/
def rootEntry : Entry :=
  { Entry.zero with
    name := fun k => if k = 0 then 47 else 0
    file := UInt64.ofNat v.rootDir
    parent := UInt64.ofNat v.rootDir
    size := UInt64.ofNat clusterSize
    flags := validFlag ||| directoryFlag }

def openRoot (f : File) : Fat File :=
  openCluster v { f.clear with entry := rootEntry v, cluster := UInt64.ofNat v.rootDir }

/-! ## Generic functions -/

def fat64Open (f : File) : Fat (Status × File) := do
  let f ← openRoot v f
  return (.success, f)

def fat64Reopen (f : File) : Fat File := loadCluster v f

def fat64Close (f : File) : Fat (Status × File) := do
  let f ← saveCluster v f
  return (.success, f.clear)

/-! ## File functions -/

/-- The loop of `fat64_rm` that frees the clusters of a file, for at most as many
clusters as the first argument says. -/
def rmLoop : Nat → File → Fat File
  | 0, _ => throw .spin
  | n + 1, f =>
    if f.cluster = clusterTagEof then return f
    else do
      markCluster v f.cluster clusterTagFree clusterTagFree
      let f ← loadClusterTags v { f with cluster := f.currentTags.next }
      rmLoop n f

/-- Remove a file: mark its entry as invalid and free its clusters. -/
def fat64Rm (f : File) : Fat (Status × File) := do
  if f.cluster = 0 then return (.badHandle, f)
  else do
    let f := { f with entry := { f.entry with flags := 0 } }
    saveDirEntry v f
    let f ← rmLoop v turns { f with cluster := f.entry.file }
    return (.success, f)

/-- Move to the next cluster of the file. -/
def nextCluster (f : File) : Fat File := do
  let f ← openCluster v { f with cluster := f.currentTags.next }
  return { f with location := 0 }

/-- The end of `fat64_getc`; the source compares the location with `FAT64_EOF` where
it means to assign it. -/
def getcEnd (f : File) : Fat File := do
  if f.location.toNat = clusterSize then
    let f ← saveCluster v f
    if f.currentTags.next ≠ clusterTagEof then nextCluster v f else return f
  else return f

def fat64Getc (f : File) : Fat (Status × File × Option UInt8) := do
  if f.cluster = 0 then return (.badHandle, f, none)
  else if f.location = eof32 then return (.eof, f, none)
  else do
    let data := f.byteAt f.location.toNat
    let f ← getcEnd v { f with
      location := f.location + 1, absLocation := f.absLocation + 1 }
    return (.success, f, some data)

/-- Append a cluster to a file that is written at its end, or report that this is not
possible. -/
def putcExtend (f : File) : Fat (Status × File) := do
  if f.location = eof32 then
    if f.entry.IsDirectory then return (.eof, f)
    else do
      let newCluster ← getFreeCluster v f.cluster clusterTagEof
      if newCluster = clusterTagEof then return (.eof, f)
      else do
        let f := { f with currentTags := { f.currentTags with next := newCluster } }
        saveClusterTags v f
        let f ← saveCluster v f
        let f ← nextCluster v f
        return (.success, f)
  else return (.success, f)

/-- Write a byte to the buffer.  A store behind the buffer hits `dirty`, which is set
next, or foreign memory. -/
def putcStore (f : File) (data : UInt8) : Fat File := do
  let f := { f with
    buf := fun k => if k.val = f.location.toNat then data else f.buf k
    location := f.location + 1
    absLocation := f.absLocation + 1
    dirty := true }
  if f.entry.size < f.absLocation then
    let f := { f with entry := { f.entry with size := f.entry.size + 1 } }
    saveDirEntry v f
    return f
  else return f

/-- At the end of a cluster: save it, and move on if there is another one. -/
def putcEnd (f : File) : Fat File := do
  if f.location.toNat = clusterSize then
    let f ← saveCluster v f
    if f.currentTags.next ≠ clusterTagEof then nextCluster v f
    else return { f with location := eof32 }
  else return f

def fat64Putc (f : File) (data : UInt8) : Fat (Status × File) := do
  if f.cluster = 0 then return (.badHandle, f)
  else do
    let (stat, f) ← putcExtend v f
    if stat ≠ .success then return (stat, f)
    else do
      let f ← putcStore v f data
      let f ← putcEnd v f
      return (.success, f)

/-- The loop of `fat64_read`; the counter has 32 bits and the amount 64. -/
def readLoop (amount : Nat) : Nat → UInt32 → File → List UInt8 →
    Fat (Status × File × List UInt8)
  | 0, _, _, _ => throw .spin
  | n + 1, i, f, acc =>
    if i.toNat < amount then do
      let (stat, f, data) ← fat64Getc v f
      if stat ≠ .success then return (stat, f, acc)
      else readLoop amount n (i + 1) f (acc ++ data.toList)
    else return (.success, f, acc)

/-- Read bytes, which are returned in the order of the buffer they go to. -/
def fat64Read (f : File) (amount : Nat) : Fat (Status × File × List UInt8) :=
  readLoop v amount turns 0 f []

/-- The loop of `fat64_write`. -/
def writeLoop (data : List UInt8) : Nat → UInt32 → File → Fat (Status × File)
  | 0, _, _ => throw .spin
  | n + 1, i, f =>
    if i.toNat < data.length then do
      let (stat, f) ← fat64Putc v f (data.getD i.toNat 0)
      if stat ≠ .success then return (stat, f) else writeLoop data n (i + 1) f
    else return (.success, f)

/-- Write bytes; the amount is the length of the list. -/
def fat64Write (f : File) (data : List UInt8) : Fat (Status × File) :=
  writeLoop v data turns 0 f

def fat64Flush (f : File) : Fat File := saveCluster v f

/-! ## Directory functions -/

/-- Open the file of an entry.  The handles are two different ones.  Index 8 passes the
test and reads what lies behind the buffer. -/
def fat64DirEntry (d : File) (index : UInt64) (f : File) : Fat (Status × File × File) := do
  let d ← loadCluster v d
  let e := Entry.ofBytes fun k => d.byteAt (512 * index.toNat + k)
  if 8 < index.toNat ∨ ¬ e.Valid then return (.eof, d, f)
  else do
    let f ← openCluster v { f.clear with entry := e, cluster := e.file }
    return (.success, d, f)

/-- The same with one handle for both, which is cleared before the entry is copied. -/
def fat64DirEntrySame (d : File) (index : UInt64) : Fat (Status × File) := do
  let d ← loadCluster v d
  let e := Entry.ofBytes fun k => d.byteAt (512 * index.toNat + k)
  if 8 < index.toNat ∨ ¬ e.Valid then return (.eof, d)
  else do
    let e := Entry.ofBytes fun k => d.clear.byteAt (512 * index.toNat + k)
    let f ← openCluster v { d.clear with entry := e, cluster := e.file }
    return (.success, f)

/-- A file name that fits, with its terminator, into an entry. -/
abbrev FileName := { l : List UInt8 // l.length < 256 ∧ 0 ∉ l }

/-- `strcpy` into a cleared name. -/
def FileName.field (name : FileName) (k : Fin 256) : UInt8 := name.val.getD k.val 0

/-- The handle that `touch` and `mkdir` set up for the new entry. -/
def newFile (d : File) (name : FileName) (cluster : UInt64) (num : UInt32) (size : UInt64)
    (flags : UInt32) : File :=
  { File.fresh with
    cluster := cluster
    entry := { Entry.zero with
      name := name.field
      file := cluster
      parent := d.entry.file
      size := size
      flags := flags
      dirEntryNum := num } }

/-- Create a file.  The entry number comes from the buffer as it was before the
directory is loaded again.  The source then compares the address of the handle with
`FAT64_EOF`, which it never equals. -/
def fat64Touch (d : File) (name : FileName) : Fat (Status × File) := do
  let entryNum := getFreeDirEntry d.buf
  let d ← loadCluster v d
  let cluster ← getFreeCluster v clusterTagEof clusterTagEof
  saveDirEntry v (newFile d name cluster entryNum 0 validFlag)
  return (.success, d)

/-- Create a directory, whose cluster is zeroed. -/
def fat64Mkdir (d : File) (name : FileName) : Fat (Status × File) := do
  let entryNum := getFreeDirEntry d.buf
  let cluster ← getFreeCluster v clusterTagEof clusterTagEof
  let f := newFile d name cluster entryNum (UInt64.ofNat clusterSize) (validFlag ||| directoryFlag)
  saveDirEntry v f
  let _ ← saveCluster v { f with dirty := true }
  return (.success, d)

/-! ## Making a file system -/

def partitionType : UInt8 := 0x69

/-- The master boot record that `_fat64_mkfs` writes. -/
def mbrSector (firstLba numSectors : Nat) : Sector := fun k =>
  if k.val = 450 then partitionType
  else if 454 ≤ k.val ∧ k.val < 458 then Bytes.byte firstLba (k.val - 454)
  else if 458 ≤ k.val ∧ k.val < 462 then Bytes.byte numSectors (k.val - 458)
  else if k.val = 510 then 0x55
  else if k.val = 511 then 0xAA
  else 0

/-- The first sector of the superblock. -/
def Partition.toSector (v : Partition) : Sector := fun k =>
  if k.val < 8 then Bytes.byte v.rootDir k.val
  else if k.val < 16 then Bytes.byte v.clusterTags (k.val - 8)
  else if k.val < 24 then Bytes.byte v.size (k.val - 16)
  else if k.val < 32 then Bytes.byte v.clusterSize (k.val - 24)
  else if k.val < 40 then Bytes.byte v.partitionLocation (k.val - 32)
  else 0

/-- The number of clusters of the tag table, in the 32-bit arithmetic of the source. -/
def clusterTagSize (size : Nat) : Nat :=
  16 * (size / sectorSize % 2 ^ 32 * sectorSize % 2 ^ 32 / (clusterSize * clusterSize))

/-- The superblock for a given size; the number of clusters is fixed. -/
def mkfsPartition (size : Nat) : Partition where
  partitionLocation := 8
  clusterTags := 1
  rootDir := clusterTagSize size + 1
  size := 262144
  clusterSize := clusterSize

/-- Mark the clusters of the tag table as used. -/
def mkfsTable (n : Nat) : Fat Unit :=
  forM (List.range n) fun i =>
    markCluster v (UInt64.ofNat (i + v.clusterTags))
      (if i = 0 then clusterTagEof else UInt64.ofNat i)
      (if i = n - 1 then clusterTagEof else UInt64.ofNat (i + 2))

def fat64Mkfs (size : Nat) : Fat Partition := do
  let v := mkfsPartition size
  ideWrite 0 (mbrSector 8 (size / sectorSize))
  ideWrite v.partitionLocation v.toSector
  markCluster v 0 clusterTagEof clusterTagEof
  mkfsTable v (clusterTagSize size)
  markCluster v (UInt64.ofNat v.rootDir) clusterTagEof clusterTagEof
  return v

def fsSize : Nat := 0x40000000

end Cumulonimbus.Fat64
