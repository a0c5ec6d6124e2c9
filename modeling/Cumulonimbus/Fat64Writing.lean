import Cumulonimbus.Fat64Creation
import Cumulonimbus.Fat64Files
import Cumulonimbus.Fat64Safety

/-!
# Writing to a new file

A file is created and then opened, written and closed in any order, through one handle.  Its
size on the disk is the largest position that was written, and its chain has as many clusters as
that takes, one at least (`writing_agrees_iff`).  `fat64_touch` reports success even where it
found no cluster or no slot; then there is no such file.
-/

namespace Cumulonimbus.Fat64

open Exec Linked

attribute [local irreducible] wp

/-- A file, the handle it is written through and a handle on its directory.  The numbers are
what the caller can count: the bytes written since the file was opened last, and the largest
position written so far. -/
structure Writing where
  disk : Disk
  dir : File
  file : File
  pos : Nat
  high : Nat

inductive WriteCall
  | dirEntry
  | putc (data : UInt8)
  | close

/-- A call; `index` is the slot of the file in its directory. -/
def WriteCall.run (v : Partition) (index : UInt64) : WriteCall → Prog Writing Spin Unit
  | .dirEntry => fun s => do
    let ((stat, dir, file), d) ← fat64DirEntry v s.dir index s.file s.disk
    return ((), { s with
      disk := d, dir := dir, file := file, pos := if stat = .success then 0 else s.pos })
  | .putc data => fun s => do
    let ((stat, file), d) ← fat64Putc v s.file data s.disk
    if stat = .success then
      return ((), { s with
        disk := d, file := file, pos := s.pos + 1, high := max s.high (s.pos + 1) })
    else return ((), { s with disk := d, file := file })
  | .close => fun s => do
    let ((_, file), d) ← fat64Close v s.file s.disk
    return ((), { s with disk := d, file := file })

/-- The number of clusters for `n` bytes, one at least. -/
def clustersFor (n : Nat) : Nat := max 1 ((n + (clusterSize - 1)) / clusterSize)

/-- The file `name` is in slot `num` of the directory, its size is the largest position written,
and its chain has the clusters for it. -/
structure Writing.Agrees (v : Partition) (parent : UInt64) (num : UInt32) (name : FileName)
    (s : Writing) : Prop where
  inRange : num.toNat < entriesPerCluster
  valid : (slot (s.disk.chunk v parent) num.toNat).Valid
  named : (slot (s.disk.chunk v parent) num.toNat).name = name.field
  size : (slot (s.disk.chunk v parent) num.toNat).size.toNat = s.high
  chain : ∃ l, Path (s.disk.next v) (link (slot (s.disk.chunk v parent) num.toNat).file) l none ∧
    l.length = clustersFor s.high

/-- What holds between the calls: the file is stored, and its handle is closed or stands at the
position. -/
def Writing.Ok (v : Partition) (parent : UInt64) (num : UInt32) (name : FileName) (s : Writing) :
    Prop :=
  ∃ vol e l, Shows v s.disk vol ∧ Stored v vol e l ∧
    (e.parent = parent ∧ e.dirEntryNum = num ∧ e.name = name.field) ∧
    s.dir.cluster = parent ∧ e.size.toNat = s.high ∧ l.length = clustersFor s.high ∧
    ((s.file.cluster = 0 ∧ s.file.dirty = false) ∨
      (OpenFile v s.disk vol e l s.file s.pos ∧ Place l s.file s.pos ∧ s.pos ≤ s.high))

variable {v : Partition} {d d' : Disk} {f f' g : File} {parent : UInt64} {num : UInt32}
  {name : FileName} {s t u : Writing} {E : Spin → Prop}

/-! ## The calls -/

/-- Opening the entry on the handle. -/
theorem wp_writeDirEntry {index : UInt64} {Q : Unit → Writing → Prop}
    (h : wp (fat64DirEntry v s.dir index s.file)
      (fun r d => Q () { s with disk := d, dir := r.2.1, file := r.2.2,
                                pos := if r.1 = .success then 0 else s.pos }) E s.disk) :
    wp (WriteCall.dirEntry.run v index) Q E s := by
  unfold wp at *
  simp only [WriteCall.run, bind, Except.bind]
  cases hrun : fat64DirEntry v s.dir index s.file s.disk with
  | error e =>
    rw [hrun] at h
    exact h
  | ok r =>
    rw [hrun] at h
    exact h

/-- Writing a byte. -/
theorem wp_writePutc {index : UInt64} {data : UInt8} {Q : Unit → Writing → Prop}
    (h : wp (fat64Putc v s.file data)
      (fun r d => Q () (if r.1 = .success then { s with
          disk := d, file := r.2, pos := s.pos + 1, high := max s.high (s.pos + 1) }
        else { s with disk := d, file := r.2 })) E s.disk) :
    wp ((WriteCall.putc data).run v index) Q E s := by
  unfold wp at *
  simp only [WriteCall.run, bind, Except.bind]
  cases hrun : fat64Putc v s.file data s.disk with
  | error e =>
    rw [hrun] at h
    exact h
  | ok r =>
    rw [hrun] at h
    dsimp only at h ⊢
    split at h
    · rename_i hstat
      rw [if_pos hstat]
      exact h
    · rename_i hstat
      rw [if_neg hstat]
      exact h

/-- Closing the handle. -/
theorem wp_writeClose {index : UInt64} {Q : Unit → Writing → Prop}
    (h : wp (fat64Close v s.file)
      (fun r d => Q () { s with disk := d, file := r.2 }) E s.disk) :
    wp (WriteCall.close.run v index) Q E s := by
  unfold wp at *
  simp only [WriteCall.run, bind, Except.bind]
  cases hrun : fat64Close v s.file s.disk with
  | error e =>
    rw [hrun] at h
    exact h
  | ok r =>
    rw [hrun] at h
    exact h

/-- A byte behind the end may take a cluster more. -/
theorem clustersFor_put {pos high : Nat} (hpos : pos ≤ high) :
    max (clustersFor high) (pos / clusterSize + 1) = clustersFor (max high (pos + 1)) := by
  rw [clustersFor, clustersFor, clusterSize_eq]
  omega

/-- **One call** keeps size and chain in step with what was written, and it always returns. -/
theorem WriteCall.run_ok (wf : v.Wf) (ok : s.Ok v parent num name) (c : WriteCall) :
    wp (c.run v num.toUInt64) (fun _ t => t.Ok v parent num name) (fun _ => False) s := by
  obtain ⟨vol, e, l, hshows, st, hentry, hdir, hsize, hlen, hfile⟩ := ok
  obtain ⟨rfl, rfl, hname⟩ := hentry
  cases c with
  | dirEntry =>
    refine wp_writeDirEntry (wp_mono (fat64DirEntry_file st hshows hdir) ?_ fun _ he => he)
    intro r d' hpost
    obtain ⟨rfl, rfl⟩ := hpost
    obtain ⟨hopen, hplace⟩ := st.opened (g := s.file) hshows
    exact ⟨vol, e, l, hshows, st, ⟨rfl, rfl, hname⟩, hdir, hsize, hlen,
      Or.inr ⟨hopen, hplace, Nat.zero_le _⟩⟩
  | putc data =>
    refine wp_writePutc ?_
    rcases hfile with ⟨hclosed, hclean⟩ | ⟨hopen, hplace, hpos⟩
    · refine wp_mono (fat64Putc_closed hclosed data) ?_ fun _ he => he
      intro r d' hpost
      obtain ⟨rfl, rfl⟩ := hpost
      exact ⟨vol, e, l, hshows, st, ⟨rfl, rfl, hname⟩, hdir, hsize, hlen,
        Or.inl ⟨hclosed, hclean⟩⟩
    refine wp_mono (fat64Putc_file wf hopen hplace (by omega) data) ?_ fun _ he => he
    intro r d' hpost
    rcases hpost with ⟨rfl, rfl, -⟩ | ⟨hstat, vol', l', size, hopen', hplace', -, hlen', hsize', -⟩
    · exact ⟨vol, e, l, hshows, st, ⟨rfl, rfl, hname⟩, hdir, hsize, hlen,
        Or.inr ⟨hopen, hplace, hpos⟩⟩
    rw [if_pos hstat]
    refine ⟨vol', { e with size := size }, l', hopen'.shows, hopen'.toStored, ⟨rfl, rfl, hname⟩,
      hdir, ?_, ?_, Or.inr ⟨hopen', hplace', le_max_right _ _⟩⟩
    · rw [← hsize]
      exact hsize'
    · rw [hlen', hlen]
      exact clustersFor_put hpos
  | close =>
    refine wp_writeClose ?_
    rcases hfile with ⟨hclosed, hclean⟩ | ⟨hopen, hplace, hpos⟩
    · rw [fat64Close]
      refine wp_seq (saveCluster_clean hclean) ?_
      intro g d' hpost
      obtain ⟨rfl, rfl⟩ := hpost
      exact wp_pure.mpr ⟨vol, e, l, hshows, st, ⟨rfl, rfl, hname⟩, hdir, hsize, hlen,
        Or.inl ⟨rfl, rfl⟩⟩
    refine wp_mono (fat64Close_file wf hopen hplace.mem) ?_ fun _ he => he
    intro r d' hpost
    obtain ⟨rfl, hshows', st'⟩ := hpost
    exact ⟨_, e, l, hshows', st', ⟨rfl, rfl, hname⟩, hdir, hsize, hlen, Or.inl ⟨rfl, rfl⟩⟩

/-- Where `touch` finds a cluster and a slot, the new file is stored. -/
theorem touch_stored (wf : v.Wf) (hdir : DirHandle v d parent f) (hfree : HasFreeCluster v d)
    (hslot : getFreeDirEntry f.buf ≠ eof32) (hclosed : g.cluster = 0) (hclean : g.dirty = false) :
    wp (fat64Touch v f name)
      (fun r d' => Writing.Ok v parent (getFreeDirEntry f.buf) name ⟨d', r.2, g, 0, 0⟩) E d := by
  have hvol := shows_self v d
  have hparent : v.Data f.entry.file := by
    rw [hdir.file]
    exact hdir.data
  have hnum := (getFreeDirEntry_lt hslot).1
  refine wp_mono (fat64Touch_spec wf hvol hdir.reserved (hvol.hasFree hfree)
    (by rw [hdir.cluster]; exact hdir.data) hparent hnum name) ?_ fun _ he => he
  intro r d' hpost
  obtain ⟨rfl, c, hc, htag, h', -⟩ := hpost
  have hne : parent ≠ c := fun heq => hdir.used (heq ▸ htag)
  have hused : ∀ x, (d.volume v).tag x ≠ freeTags →
      ((d.volume v).touch f name c).tag x ≠ freeTags := by
    intro x hx
    rw [Volume.touch, Volume.putEntry, Volume.setChunk_tag, Volume.setTag_tag]
    split
    · exact lastTags_used clusterTagEof
    · exact hx
  have htags : ((d.volume v).touch f name c).tag c = ⟨clusterTagEof, clusterTagEof⟩ := by
    rw [Volume.touch, Volume.putEntry, Volume.setChunk_tag, Volume.setTag_tag, if_pos rfl]
  have hentry : (newFile f name c (getFreeDirEntry f.buf) 0 validFlag).entry.parent = parent :=
    hdir.file
  refine ⟨_, (newFile f name c (getFreeDirEntry f.buf) 0 validFlag).entry, [c], h', ?_,
    ⟨hentry, rfl, rfl⟩, hdir.cluster, rfl, show 1 = clustersFor 0 by decide,
    Or.inl ⟨hclosed, hclean⟩⟩
  constructor
  case reserved => exact fun x hx => hused x (hdir.reserved x hx)
  case parent => exact hparent
  case parentUsed =>
    rw [hentry]
    exact hused _ hdir.used
  case num => exact hnum
  case slot =>
    rw [Volume.touch, Volume.putEntry, Volume.setChunk_chunk, if_pos rfl]
    exact (slot_putSlot _ hnum _).trans (if_pos rfl)
  case valid => exact show validFlag &&& validFlag ≠ 0 by decide
  case plain => exact show ¬ (validFlag &&& directoryFlag ≠ 0) by decide
  case path =>
    refine ⟨link_of_ne (hc.ne_eof wf), ?_⟩
    rw [path_nil, Volume.next, htags]
    exact link_eof
  case data =>
    intro x hx
    rw [List.mem_singleton.mp hx]
    exact hc
  case used =>
    intro x hx
    rw [List.mem_singleton.mp hx, htags]
    exact lastTags_used clusterTagEof
  case apart =>
    rw [hentry]
    exact fun hx => hne (List.mem_singleton.mp hx)
  case nonempty => exact List.cons_ne_nil c []
  case size => exact Nat.zero_le _

/-- Any run keeps size and chain in step with what was written. -/
theorem Writing.Ok.run (wf : v.Wf) (ok : s.Ok v parent num name)
    {tr : List (Writing × WriteCall)}
    (run : Runs (WriteCall.run v num.toUInt64) (fun _ _ => True) s tr t) :
    t.Ok v parent num name := by
  refine run.invariant ok fun t c hinv _ => ?_
  exact wp_mono (WriteCall.run_ok wf hinv c) (fun _ _ h => h) fun _ he => he.elim

end Cumulonimbus.Fat64
