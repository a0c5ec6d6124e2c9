import Cumulonimbus.Clients
import Cumulonimbus.Fat64Requests

/-!
# The file system by its calls of the disk

The routines of `fat64.c` know the disk by nothing but their calls of `ide_read` and `ide_write`.
So they do over the driver what they do on the disk of the model, and what a call can change bounds
what they can: the first sixteen sectors, where the superblock is, change only where `save_cluster`
has written them (`ByCalls.leaves`).
-/

namespace Cumulonimbus.Fat64

open Exec

attribute [local irreducible] wp

/-- What the file system asks of the disk: to read a sector, to write one of those in `marks`, and
to save a sector of a cluster. -/
inductive SectorCall (marks : Nat → Prop)
  | read (sector : UInt32)
  | mark (sector : UInt32) (h : marks sector.toNat) (b : Sector)
  | save (sector : UInt32) (b : Sector)

variable {marks : Nat → Prop}

abbrev SectorCall.Answer : SectorCall marks → Type
  | .read _ => Sector
  | .mark _ _ _ => Unit
  | .save _ _ => Unit

/-- The calls on the disk of the model, which keeps a record of what is saved. -/
def SectorCall.onDisk : (q : SectorCall marks) → Fat q.Answer
  | .read sector => ideRead sector.toNat
  | .mark sector _ b => ideWrite sector.toNat b
  | .save sector b => do
    ideWrite sector.toNat b
    modify fun disk => { disk with saved := sector.toNat :: disk.saved }

/-- The calls of a routine: a program that asks for sectors, chooses each call by the answers to
those before it, and does on the disk of the model what the routine does.  Apart from what it saves
it writes to sectors in `marks` only. -/
abbrev ByCalls {α : Type} (marks : Nat → Prop) (x : Fat α) : Type :=
  Made (@SectorCall.onDisk marks) x

variable {v : Partition}

/-- The call of `ide_read` is the read of the sector, since the number fits the argument. -/
theorem onDisk_read {n : Nat} (hn : n < 2 ^ 32) :
    @SectorCall.onDisk marks (.read (UInt32.ofNat n)) = ideRead n :=
  congrArg ideRead (UInt32.toNat_ofNat_of_lt' hn)

/-- The call that marks a sector is the write of it. -/
theorem onDisk_mark {n : Nat} (hn : n < 2 ^ 32) (h : marks (UInt32.ofNat n).toNat) (b : Sector) :
    SectorCall.onDisk (.mark (UInt32.ofNat n) h b) = ideWrite n b :=
  congrArg (ideWrite · b) (UInt32.toNat_ofNat_of_lt' hn)

/-- The call that saves a sector is the write with a record of it. -/
theorem onDisk_save {n : Nat} (hn : n < 2 ^ 32) (b : Sector) :
    @SectorCall.onDisk marks (.save (UInt32.ofNat n) b) = (do
      ideWrite n b
      modify fun d => { d with saved := n :: d.saved } : Fat Unit) := by
  rw [SectorCall.onDisk, UInt32.toNat_ofNat_of_lt' hn]

/-- A sector of `marks`, by the number in the argument. -/
theorem marks_ofNat {n : Nat} (hn : n < 2 ^ 32) (hmark : marks n) :
    marks (UInt32.ofNat n).toNat := by
  rw [UInt32.toNat_ofNat_of_lt' hn]
  exact hmark

def readCalls {n : Nat} (hn : n < 2 ^ 32) : ByCalls marks (ideRead n) :=
  (Made.ask (SectorCall.read (UInt32.ofNat n))).of_eq (onDisk_read hn)

def markCalls {n : Nat} (hn : n < 2 ^ 32) (hmark : marks n) (b : Sector) :
    ByCalls marks (ideWrite n b) :=
  (Made.ask (SectorCall.mark (UInt32.ofNat n) (marks_ofNat hn hmark) b)).of_eq (onDisk_mark hn _ b)

def saveCalls {n : Nat} (hn : n < 2 ^ 32) (b : Sector) :
    ByCalls marks (do
      ideWrite n b
      modify fun d => { d with saved := n :: d.saved } : Fat Unit) :=
  (Made.ask (SectorCall.save (UInt32.ofNat n) b)).of_eq (onDisk_save hn b)

/-- The sectors of clusters have numbers that fit the argument: the code computes them in 32 bits.
-/
theorem clusterSector_lt (v : Partition) (c : UInt64) (i : Nat) : clusterSector v c i < 2 ^ 32 :=
  Nat.mod_lt _ (by decide)

/-- So do the sectors of the tag table. -/
theorem tagSector_lt (v : Partition) (c : UInt64) : tagSector v c < 2 ^ 32 :=
  Nat.mod_lt _ (by decide)

/-! ## Routines that leave the tag table alone -/

section Reading

variable (v) (f : File)

def loadSectorCalls (i : Nat) : ByCalls marks (loadSector v f i) :=
  (readCalls (clusterSector_lt v f.cluster i)).bind fun _ => .pure _

/-- The eight sectors of a cluster are read into the buffer. -/
def loadClusterCalls : ByCalls marks (loadCluster v f) :=
  Made.foldlM (loadSectorCalls v) _ _

def saveSectorCalls (i : Nat) : ByCalls marks (saveSector v f i) :=
  saveCalls (clusterSector_lt v f.cluster i) _

/-- `save_cluster` writes nothing but sectors that are recorded as saved. -/
def saveClusterCalls : ByCalls marks (saveCluster v f) :=
  Made.ite (.pure _) ((Made.forM (saveSectorCalls v f) _).bind fun _ => .pure _)

/-- The tags of the cluster are read from the table. -/
def loadClusterTagsCalls : ByCalls marks (loadClusterTags v f) :=
  (readCalls (tagSector_lt v f.cluster)).bind fun _ => .pure _

/-- A cluster is opened by loading its bytes and then its tags. -/
def openClusterCalls : ByCalls marks (openCluster v f) :=
  (loadClusterCalls v f).bind fun f => loadClusterTagsCalls v f

/-- The search for a free cluster reads the table, a sector at a time. -/
def findFreeCalls : (n : Nat) → (c : UInt64) → (s : Sector) → ByCalls marks (findFree v n c s)
  | 0, _, _ => .pure _
  | n + 1, c, _ => (Made.ite (readCalls (tagSector_lt v c)) (.pure _)).bind fun s =>
    Made.ite (.pure _) (findFreeCalls n (c + 1) s)

/-- The entry goes into the directory's cluster, which is loaded, changed and saved. -/
def saveDirEntryCalls : ByCalls marks (saveDirEntry v f) :=
  (openClusterCalls v _).bind fun _ => (saveClusterCalls v _).bind fun _ => .pure _

def fat64OpenCalls : ByCalls marks (fat64Open v f) :=
  (openClusterCalls v _).bind fun _ => .pure _

def fat64CloseCalls : ByCalls marks (fat64Close v f) :=
  (saveClusterCalls v f).bind fun _ => .pure _

def nextClusterCalls : ByCalls marks (nextCluster v f) :=
  (openClusterCalls v _).bind fun _ => .pure _

/-- A byte is read from the buffer, with the next cluster behind its end. -/
def fat64GetcCalls : ByCalls marks (fat64Getc v f) :=
  Made.ite (.pure _) (Made.ite (.pure _) (Made.bind (Made.ite
    ((saveClusterCalls v _).bind fun f => Made.ite (nextClusterCalls v f) (.pure _))
    (.pure _)) fun _ => .pure _))

/-- The loop of `fat64_read` is one `fat64_getc` after another. -/
def readLoopCalls (amount : Nat) : (n : Nat) → (i : UInt32) → (f : File) → (acc : List UInt8) →
    ByCalls marks (readLoop v amount n i f acc)
  | 0, _, _, _ => .throw _
  | n + 1, _, f, _ => Made.ite ((fat64GetcCalls v f).bind fun _ =>
    Made.ite (.pure _) (readLoopCalls amount n _ _ _)) (.pure _)

def fat64ReadCalls (amount : Nat) : ByCalls marks (fat64Read v f amount) :=
  readLoopCalls v amount _ _ _ _

/-- `fat64_dir_entry` loads the directory and opens the entry on its second handle. -/
def fat64DirEntryCalls (d : File) (index : UInt64) : ByCalls marks (fat64DirEntry v d index f) :=
  (loadClusterCalls v d).bind fun _ => Made.ite (.pure _)
    ((openClusterCalls v _).bind fun _ => .pure _)

/-- The same with one handle for both. -/
def fat64DirEntrySameCalls (index : UInt64) : ByCalls marks (fat64DirEntrySame v f index) :=
  (loadClusterCalls v f).bind fun _ => Made.ite (.pure _)
    ((openClusterCalls v _).bind fun _ => .pure _)

end Reading

/-! ## Routines that write to the tag table -/

section Marking

variable (htags : ∀ c, marks (tagSector v c)) (f : File)

/-- Only here a sector of the tag table is written for the cluster of the handle. -/
def saveClusterTagsCalls : ByCalls marks (saveClusterTags v f) :=
  (readCalls (tagSector_lt v f.cluster)).bind fun _ =>
    markCalls (tagSector_lt v _) (htags _) _

/-- A tag is written into its sector of the table. -/
def markClusterCalls (c prev next : UInt64) : ByCalls marks (markCluster v c prev next) :=
  (readCalls (tagSector_lt v c)).bind fun _ => markCalls (tagSector_lt v c) (htags c) _

/-- A free cluster is found by reading and taken by marking it. -/
def getFreeClusterCalls (prev next : UInt64) : ByCalls marks (getFreeCluster v prev next) :=
  (findFreeCalls v _ _ _).bind fun c => Made.ite (.pure _)
    ((markClusterCalls htags c prev next).bind fun _ => .pure _)

/-- The loop of `fat64_rm` clears a tag for each cluster of the chain. -/
def rmLoopCalls : (n : Nat) → (f : File) → ByCalls marks (rmLoop v n f)
  | 0, _ => .throw _
  | n + 1, _ => Made.ite (.pure _) ((markClusterCalls htags _ _ _).bind fun _ =>
    (loadClusterTagsCalls v _).bind fun f => rmLoopCalls n f)

/-- `fat64_rm` saves the entry as invalid and clears the tags of the chain. -/
def fat64RmCalls : ByCalls marks (fat64Rm v f) :=
  Made.ite (.pure _) ((saveDirEntryCalls v _).bind fun _ =>
    (rmLoopCalls htags _ _).bind fun _ => .pure _)

/-- A file grows by taking a free cluster and linking it. -/
def putcExtendCalls : ByCalls marks (putcExtend v f) :=
  Made.ite (Made.ite (.pure _) ((getFreeClusterCalls htags _ _).bind fun _ =>
    Made.ite (.pure _) ((saveClusterTagsCalls htags _).bind fun _ =>
      (saveClusterCalls v _).bind fun f => (nextClusterCalls v f).bind fun _ => .pure _)))
    (.pure _)

/-- A byte goes into the buffer; the disk changes when the file grows or goes on to the next
cluster. -/
def fat64PutcCalls (data : UInt8) : ByCalls marks (fat64Putc v f data) :=
  Made.ite (.pure _) ((putcExtendCalls htags f).bind fun _ => Made.ite (.pure _)
    (Made.bind (Made.ite ((saveDirEntryCalls v _).bind fun _ => .pure _) (.pure _)) fun f =>
      Made.bind (Made.ite ((saveClusterCalls v f).bind fun f =>
        Made.ite (nextClusterCalls v f) (.pure _)) (.pure _)) fun _ => .pure _))

/-- The loop of `fat64_write` is one `fat64_putc` after another. -/
def writeLoopCalls (data : List UInt8) : (n : Nat) → (i : UInt32) → (f : File) →
    ByCalls marks (writeLoop v data n i f)
  | 0, _, _ => .throw _
  | n + 1, _, f => Made.ite ((fat64PutcCalls htags f _).bind fun _ =>
    Made.ite (.pure _) (writeLoopCalls data n _ _)) (.pure _)

def fat64WriteCalls (data : List UInt8) : ByCalls marks (fat64Write v f data) :=
  writeLoopCalls htags data _ _ _

/-- A file is created by taking a cluster and saving its entry. -/
def fat64TouchCalls (name : FileName) : ByCalls marks (fat64Touch v f name) :=
  (loadClusterCalls v f).bind fun _ => (getFreeClusterCalls htags _ _).bind fun _ =>
    (saveDirEntryCalls v _).bind fun _ => .pure _

/-- A directory is created like a file, and its cluster is saved empty. -/
def fat64MkdirCalls (name : FileName) : ByCalls marks (fat64Mkdir v f name) :=
  (getFreeClusterCalls htags _ _).bind fun _ => (saveDirEntryCalls v _).bind fun _ =>
    (saveClusterCalls v _).bind fun _ => .pure _

end Marking

/-! ## Requests -/

section Requests

variable (v)

/-- A request as a routine on all the handles. -/
def Request.routine (r : Request) (hs : Nat → File) : Fat (Nat → File) :=
  match r with
  | .call (.openRoot h) => (fun r => Function.update hs h r.2) <$> fat64Open v (hs h)
  | .call (.reopen h) => (fun f => Function.update hs h f) <$> fat64Reopen v (hs h)
  | .call (.close h) => (fun r => Function.update hs h r.2) <$> fat64Close v (hs h)
  | .call (.rm h) => (fun r => Function.update hs h r.2) <$> fat64Rm v (hs h)
  | .call (.putc h data) => (fun r => Function.update hs h r.2) <$> fat64Putc v (hs h) data
  | .call (.write h data) => (fun r => Function.update hs h r.2) <$> fat64Write v (hs h) data
  | .call (.flush h) => (fun f => Function.update hs h f) <$> fat64Flush v (hs h)
  | .call (.dirEntry h index g) =>
    if g = h then (fun r => Function.update hs h r.2) <$> fat64DirEntrySame v (hs h) index
    else (fun r => Function.update (Function.update hs h r.2.1) g r.2.2) <$>
      fat64DirEntry v (hs h) index (hs g)
  | .call (.touch h name) => (fun r => Function.update hs h r.2) <$> fat64Touch v (hs h) name
  | .call (.mkdir h name) => (fun r => Function.update hs h r.2) <$> fat64Mkdir v (hs h) name
  | .getc h => (fun r => Function.update hs h r.2.1) <$> fat64Getc v (hs h)
  | .read h amount => (fun r => Function.update hs h r.2.1) <$> fat64Read v (hs h) amount

/-- The calls of a request. -/
def Request.calls {v : Partition} (htags : ∀ c, marks (tagSector v c)) (r : Request)
    (hs : Nat → File) : ByCalls marks (r.routine v hs) :=
  match r with
  | .call (.openRoot _) => .map _ (fat64OpenCalls v _)
  | .call (.reopen _) => .map _ (loadClusterCalls v _)
  | .call (.close _) => .map _ (fat64CloseCalls v _)
  | .call (.rm _) => .map _ (fat64RmCalls htags _)
  | .call (.putc _ data) => .map _ (fat64PutcCalls htags _ data)
  | .call (.write _ data) => .map _ (fat64WriteCalls htags _ data)
  | .call (.flush _) => .map _ (saveClusterCalls v _)
  | .call (.dirEntry _ index _) =>
    .ite (.map _ (fat64DirEntrySameCalls v _ index)) (.map _ (fat64DirEntryCalls v _ _ index))
  | .call (.touch _ name) => .map _ (fat64TouchCalls htags _ name)
  | .call (.mkdir _ name) => .map _ (fat64MkdirCalls htags _ name)
  | .getc _ => .map _ (fat64GetcCalls v _)
  | .read _ amount => .map _ (fat64ReadCalls v _ amount)

/-- The session after a routine on its handles. -/
def session (r : Except Spin ((Nat → File) × Disk)) : Except Spin (Unit × Session) :=
  r.map fun r => ((), ⟨r.2, r.1⟩)

/-- A request on one handle, as the routine it runs on the disk and the handle that this leaves. -/
theorem onHandle_map {α : Type} (h : Nat) (x : File → Fat α) (g : α → File) (s : Session) :
    onHandle h (fun f => g <$> x f) s =
      session (((fun r => Function.update s.handle h (g r)) <$> x (s.handle h)) s.disk) := by
  simp only [onHandle, session, Functor.map, StateT.map, bind, Except.bind]
  cases x (s.handle h) s.disk <;> rfl

/-- The same for a request on two handles; the second is stored last. -/
theorem onHandles_map {α : Type} (h g : Nat) (x : File → File → Fat α) (k : α → File × File)
    (s : Session) :
    onHandles h g (fun f f' => k <$> x f f') s =
      session (((fun r => Function.update (Function.update s.handle h (k r).1) g (k r).2) <$>
        x (s.handle h) (s.handle g)) s.disk) := by
  simp only [onHandles, session, Functor.map, StateT.map, bind, Except.bind]
  cases x (s.handle h) (s.handle g) s.disk <;> rfl

/-- **A request is its routine.** What a session becomes is the new disk with the handles put back.
-/
theorem run_eq_routine (r : Request) (s : Session) :
    r.run v s = session (r.routine v s.handle s.disk) := by
  cases r with
  | call c =>
    cases c with
    | openRoot h => exact onHandle_map h _ _ s
    | reopen h =>
      have hid := onHandle_map h (fat64Reopen v) id s
      simp only [id_map] at hid
      exact hid
    | close h => exact onHandle_map h _ _ s
    | rm h => exact onHandle_map h _ _ s
    | putc h data => exact onHandle_map h (fun f => fat64Putc v f data) _ s
    | write h data => exact onHandle_map h (fun f => fat64Write v f data) _ s
    | flush h =>
      have hid := onHandle_map h (fat64Flush v) id s
      simp only [id_map] at hid
      exact hid
    | dirEntry h index g =>
      rw [Request.run, Call.run, Request.routine]
      split
      · exact onHandle_map h _ _ s
      · exact onHandles_map h g _ _ s
    | touch h name => exact onHandle_map h (fun f => fat64Touch v f name) _ s
    | mkdir h name => exact onHandle_map h (fun f => fat64Mkdir v f name) _ s
  | getc h => exact onHandle_map h _ _ s
  | read h amount => exact onHandle_map h (fun f => fat64Read v f amount) _ s

end Requests

/-! ## The first sectors -/

/-- What differs of the first sixteen sectors has been saved. -/
structure Leaves (d d' : Disk) : Prop where
  sector : ∀ n < 16, n ∉ d'.saved → d'.sector n = d.sector n
  saved : ∀ n ∈ d.saved, n ∈ d'.saved

/-- What two steps leave alone, both of them together leave alone. -/
theorem Leaves.trans {d d' d'' : Disk} (h : Leaves d d') (h' : Leaves d' d'') : Leaves d d'' where
  sector n hn hsaved := (h'.sector n hn hsaved).trans
    (h.sector n hn fun hmem => hsaved (h'.saved n hmem))
  saved n hmem := h'.saved n (h.saved n hmem)

/-- The tag table starts behind the sixteen sectors of the superblock. -/
theorem Partition.Wf.sixteen_le_tagSector (wf : v.Wf) (c : UInt64) :
    16 ≤ Fat64.tagSector v c := by
  rw [Fat64.tagSector, wf.location, wf.clusterTags, sectorsPerCluster_eq, tagsPerSector_eq]
  omega

/-- **The superblock is left alone** by whatever marks no sector in front of the tag table, except
where a cluster has been saved there. -/
theorem ByCalls.leaves {α : Type} {x : Fat α} (m : ByCalls (16 ≤ ·) x) (d : Disk) :
    wp x (fun _ d' => Leaves d d') (fun _ => True) d := by
  refine Made.respects (R := Leaves) (fun d => ⟨fun _ _ _ => rfl, fun _ h => h⟩)
    (fun _ _ _ => Leaves.trans) ?_ m d
  intro q d
  cases q with
  | read sector =>
    rw [SectorCall.onDisk, ideRead, wp_bind, wp_get, wp_pure]
    exact ⟨fun _ _ _ => rfl, fun _ h => h⟩
  | mark sector h b =>
    rw [SectorCall.onDisk, ideWrite, wp_modify]
    refine ⟨fun n hn _ => Function.update_of_ne ?_ _ _, fun _ h => h⟩
    rintro rfl
    exact Nat.not_lt.mpr h hn
  | save sector b =>
    rw [SectorCall.onDisk, ideWrite, wp_bind, wp_modify, wp_modify]
    refine ⟨fun n _ hsaved => Function.update_of_ne ?_ _ _, fun n => List.mem_cons_of_mem _⟩
    rintro rfl
    exact hsaved List.mem_cons_self

end Cumulonimbus.Fat64
