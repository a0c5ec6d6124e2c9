import Cumulonimbus.Fat64Census
import Cumulonimbus.Fat64Creation
import Cumulonimbus.Fat64Requests

/-!
# Handles and the census

What each call does to the census of the clusters and to its handles.  A handle is closed, has
been used to remove its file, or is open on something that the census knows; in its buffer it
stands before the end, except where it has been read to the end of a file.
-/

namespace Cumulonimbus.Fat64

open Exec Linked

attribute [local irreducible] wp

variable {v : Partition} {d : Disk} {vol vol' : Volume} {S S' : Census} {f g : File} {c : UInt64}
  {E : Spin → Prop}

/-! ## Handles -/

/-- The handle stands in its buffer, or behind it at the end of a file. -/
def File.Placed (f : File) : Prop :=
  f.location = eof32 ∨ f.location.toNat < clusterSize ∨
    (f.location.toNat = clusterSize ∧ f.currentTags.next = clusterTagEof)

/-- A handle on a file. -/
structure HoldsFile (S : Census) (f : File) : Prop where
  cluster : f.cluster ∈ S.files
  own : S.own f.cluster = f.entry.file
  known : f.entry.Known S
  valid : f.entry.Valid
  plain : ¬ f.entry.IsDirectory
  next : f.currentTags.next = clusterTagEof ∨
    (f.currentTags.next ∈ S.files ∧ S.own f.currentTags.next = f.entry.file ∧
      f.currentTags.next ≠ f.entry.file)

/-- A handle on a directory. -/
structure HoldsDir (v : Partition) (S : Census) (f : File) : Prop where
  cluster : f.cluster ∈ S.dirs
  file : f.entry.file = f.cluster
  parent : f.entry.parent ∈ S.dirs
  num : f.entry.dirEntryNum.toNat < 8
  isDir : f.entry.IsDirectory
  clean : f.dirty = false
  last : f.currentTags.next = clusterTagEof
  home : f.entry.file ≠ UInt64.ofNat v.rootDir →
    S.home f.entry.file = (f.entry.parent, f.entry.dirEntryNum.toNat)

/-- A handle that is closed, has been used to remove its file, or is open. -/
inductive Held (v : Partition) (S : Census) (f : File) : Prop
  | closed (cluster : f.cluster = 0) (clean : f.dirty = false)
  | removed (cluster : f.cluster = clusterTagEof) (flags : f.entry.flags = 0)
  | dir (holds : HoldsDir v S f) (placed : f.Placed)
  | file (holds : HoldsFile S f) (placed : f.Placed)

/-- The volume shown after a call, with the handle of the call. -/
def Follows (v : Partition) (S : Census) (f : File) (d : Disk) : Prop :=
  ∃ vol S', Shows v d vol ∧ Sane v vol S' ∧ S.Sub S' ∧ Held v S' f

/-- A larger census has the file still. -/
theorem HoldsFile.mono (h : HoldsFile S f) (sub : S.Sub S') : HoldsFile S' f := by
  refine ⟨sub.files h.cluster, (sub.own _ h.cluster).trans h.own, h.known.mono sub, h.valid,
    h.plain, h.next.imp_right fun hnext => ?_⟩
  exact ⟨sub.files hnext.1, (sub.own _ hnext.1).trans hnext.2.1, hnext.2.2⟩

/-- A larger census has the directory still. -/
theorem HoldsDir.mono (h : HoldsDir v S f) (sub : S.Sub S') : HoldsDir v S' f := by
  refine ⟨sub.dirs h.cluster, h.file, sub.dirs h.parent, h.num, h.isDir, h.clean, h.last,
    fun hroot => ?_⟩
  have hdir : f.entry.file ∈ S.dirs := by
    rw [h.file]
    exact h.cluster
  exact (sub.home _ (Or.inl hdir)).trans (h.home hroot)

/-- So whatever a handle holds stays held while the census grows. -/
theorem Held.mono (h : Held v S f) (sub : S.Sub S') : Held v S' f := by
  cases h with
  | closed cluster clean => exact .closed cluster clean
  | removed cluster flags => exact .removed cluster flags
  | dir holds placed => exact .dir (holds.mono sub) placed
  | file holds placed => exact .file (holds.mono sub) placed

/-- What follows a census follows a smaller one. -/
theorem Follows.sub {S₀ : Census} (sub : S₀.Sub S) (h : Follows v S f d) : Follows v S₀ f d := by
  obtain ⟨vol, S', hshows, sane, hsub, held⟩ := h
  exact ⟨vol, S', hshows, sane, sub.trans hsub, held⟩

/-- The first cluster of the file is in the census. -/
theorem HoldsFile.head (h : HoldsFile S f) : f.entry.file ∈ S.files :=
  h.known.file h.plain

/-- The tags of a cluster of a file name another cluster of it. -/
theorem Sane.next_of (sane : Sane v vol S) (hc : c ∈ S.files) :
    (vol.tag c).next = clusterTagEof ∨ ((vol.tag c).next ∈ S.files ∧
      S.own (vol.tag c).next = S.own c ∧ (vol.tag c).next ≠ S.own c) := by
  by_cases heof : (vol.tag c).next = clusterTagEof
  · exact Or.inl heof
  · have hnext : vol.next c = some (vol.tag c).next := link_of_ne heof
    obtain ⟨hown, hne⟩ := sane.owned c hc _ hnext
    exact Or.inr ⟨sane.next_mem hc hnext, hown, hne⟩

/-- The handle moves to another cluster of its file. -/
theorem HoldsFile.moved (h : HoldsFile S f) (sane : Sane v vol S) (hc : c ∈ S.files)
    (hown : S.own c = f.entry.file) : HoldsFile S (f.moved vol c) := by
  have hnext := sane.next_of hc
  rw [hown] at hnext
  exact ⟨hc, hown, h.known, h.valid, h.plain, hnext⟩

/-- Whether the buffer has changed does not matter. -/
theorem HoldsFile.dirty (h : HoldsFile S f) (b : Bool) : HoldsFile S { f with dirty := b } :=
  ⟨h.cluster, h.own, h.known, h.valid, h.plain, h.next⟩

/-- Nor does the place in the buffer. -/
theorem HoldsFile.advanced (h : HoldsFile S f) : HoldsFile S f.advanced :=
  ⟨h.cluster, h.own, h.known, h.valid, h.plain, h.next⟩

/-- Nor what the buffer has. -/
theorem HoldsFile.stored (h : HoldsFile S f) (data : UInt8) : HoldsFile S (f.stored data) := by
  have hentry : ∃ size, (f.stored data).entry = { f.entry with size := size } := by
    rw [File.stored]
    dsimp only
    split
    · exact ⟨f.entry.size + 1, rfl⟩
    · exact ⟨f.entry.size, rfl⟩
  obtain ⟨size, hentry⟩ := hentry
  refine ⟨h.cluster, ?_, ?_, ?_, ?_, ?_⟩
  · rw [hentry]
    exact h.own
  · rw [hentry]
    exact h.known.setSize size
  · rw [hentry]
    exact h.valid
  · rw [hentry]
    exact h.plain
  · rw [hentry]
    exact h.next

/-- The cluster of the handle is a data cluster of the partition. -/
theorem HoldsFile.data (h : HoldsFile S f) (sane : Sane v vol S) : v.Data f.cluster :=
  sane.data _ (Or.inr h.cluster)

/-- So is the next one, if there is one. -/
theorem HoldsFile.nextData (h : HoldsFile S f) (sane : Sane v vol S) :
    f.currentTags.next = clusterTagEof ∨ v.Data f.currentTags.next :=
  h.next.imp_right fun hnext => sane.data _ (Or.inr hnext.1)

/-- The start of a cluster is within the buffer. -/
theorem location_zero_lt : (0 : UInt32).toNat < clusterSize := by decide

/-! ## Writing -/

/-- **A file grows** under its handle, which goes on to the new cluster. -/
theorem HoldsFile.extend (wf : v.Wf) (sane : Sane v vol S) (h : HoldsFile S f) (hc : v.Data c)
    (hfree : vol.tag c = freeTags) :
    Sane v (vol.extend f c) (S.grow c f.entry.file) ∧ S.Sub (S.grow c f.entry.file) ∧
      HoldsFile (S.grow c f.entry.file) ({ f with dirty := false }.moved (vol.extend f c) c) := by
  have hhead : S.own f.cluster ∈ S.files := by
    rw [h.own]
    exact h.head
  have grown := sane.extend wf h.cluster hhead hc hfree
  rw [h.own] at grown
  have sub : S.Sub (S.grow c f.entry.file) := S.grow_sub (sane.not_file hfree)
  exact ⟨grown, sub, ((h.mono sub).dirty false).moved grown (Or.inl rfl) (Function.update_self ..)⟩

/-- `HasBytes`, on the volume. -/
def Volume.HasBytes (vol : Volume) (f : File) (n : Nat) : Prop :=
  ∃ l, Path vol.next (link f.currentTags.next) l none ∧
    n + f.location.toNat ≤ clusterSize * (l.length + 1)

/-- The bytes that are left are those of the chain that the volume shows. -/
theorem HasBytes.volume (hshows : Shows v d vol) (sane : Sane v vol S)
    (hnext : f.currentTags.next = clusterTagEof ∨ f.currentTags.next ∈ S.files) {n : Nat}
    (h : HasBytes v d f n) : vol.HasBytes f n := by
  obtain ⟨l, hpath, hlen⟩ := h
  by_cases heof : f.currentTags.next = clusterTagEof
  · rw [heof, link_eof] at hpath
    cases l with
    | nil => exact ⟨[], by rw [heof, link_eof, path_nil], hlen⟩
    | cons c l => cases hpath.1
  have hmem := hnext.resolve_left heof
  rw [link_of_ne heof] at hpath
  obtain ⟨l', hl'⟩ := sane.ends _ hmem
  -- the tags on the disk are those of the volume, along the whole chain
  have hdisk : Path (d.next v) (some f.currentTags.next) l' none := by
    refine hl'.congr fun x hx => ?_
    have hxdata := sane.data x (Or.inr (sane.path_own hmem hl' x hx).1)
    rw [Disk.next, hshows.tag x hxdata.2, Volume.next]
  obtain rfl := hpath.unique hdisk
  exact ⟨l, by rw [link_of_ne heof]; exact hl', hlen⟩

/-- Where there is a byte to read, the handle stands in its buffer. -/
theorem Volume.HasBytes.lt {n : Nat} (h : vol.HasBytes f (n + 1)) (placed : f.Placed)
    (hloc : f.location ≠ eof32) : f.location.toNat < clusterSize := by
  obtain ⟨l, hpath, hlen⟩ := h
  rcases placed with heof | hlt | ⟨hend, hlast⟩
  · exact absurd heof hloc
  · exact hlt
  · rw [hlast, link_eof] at hpath
    cases l with
    | nil =>
      rw [List.length_nil, hend] at hlen
      omega
    | cons c l => cases hpath.1

/-- One place further; the location does not wrap around within a cluster. -/
theorem advanced_location (hlt : f.location.toNat < clusterSize) :
    f.advanced.location.toNat = f.location.toNat + 1 := by
  have hsum : f.advanced.location = f.location + 1 := rfl
  rw [hsum, UInt32.toNat_add]
  rw [clusterSize_eq] at hlt
  exact Nat.mod_eq_of_lt (show f.location.toNat + 1 < 2 ^ 32 by omega)

/-- An open handle, without what is special about directories and files. -/
structure Reads (v : Partition) (vol : Volume) (S : Census) (f : File) : Prop where
  sane : Sane v vol S
  held : Held v S f
  live : f.Live

/-- An open handle is on a data cluster, and what it links to is part of a file. -/
theorem Reads.data (h : Reads v vol S f) (hopen : f.cluster ≠ 0) :
    v.Data f.cluster ∧ f.Placed ∧
      (f.currentTags.next = clusterTagEof ∨ f.currentTags.next ∈ S.files) := by
  cases h.held with
  | closed cluster clean => exact absurd cluster hopen
  | removed cluster flags => exact absurd cluster h.live
  | dir holds placed =>
    exact ⟨h.sane.data _ (Or.inl holds.cluster), placed, Or.inl holds.last⟩
  | file holds placed =>
    exact ⟨holds.data h.sane, placed, holds.next.imp_right fun hnext => hnext.1⟩

/-- The handle of an entry in its place. -/
theorem Held.opened (sane : Sane v vol S) {e : Entry} (he : e.Known S) (hvalid : e.Valid) :
    Held v S (g.opened vol e) := by
  have placed : (g.opened vol e).Placed := Or.inr (Or.inl location_zero_lt)
  by_cases hdir : e.IsDirectory
  · exact .dir ⟨he.dir hdir, rfl, he.parent, he.num, hdir, rfl, sane.last _ (he.dir hdir),
      fun _ => he.home⟩ placed
  · have hnext := sane.next_of (he.file hdir)
    rw [he.own hdir] at hnext
    exact .file ⟨he.file hdir, he.own hdir, he, hvalid, hdir, hnext⟩ placed

/-- Another buffer, in a handle that is not about to save it. -/
theorem Held.setBuf (h : Held v S f) (b : Cluster) : Held v S { f with buf := b } := by
  cases h with
  | closed cluster clean => exact .closed cluster clean
  | removed cluster flags => exact .removed cluster flags
  | dir holds placed =>
    exact .dir ⟨holds.cluster, holds.file, holds.parent, holds.num, holds.isDir, holds.clean,
      holds.last, holds.home⟩ placed
  | file holds placed =>
    exact .file ⟨holds.cluster, holds.own, holds.known, holds.valid, holds.plain, holds.next⟩ placed

/-- What is open on a directory holds one. -/
theorem Held.onDirectory (h : Held v S f) (hdir : f.OnDirectory) : HoldsDir v S f := by
  cases h with
  | closed cluster clean => exact absurd cluster hdir.1
  | removed cluster flags =>
    have hflags : f.entry.flags &&& directoryFlag ≠ 0 := hdir.2
    rw [flags] at hflags
    exact absurd hflags (by decide)
  | dir holds placed => exact holds
  | file holds placed => exact absurd hdir.2 holds.plain

/-- A file is created in the directory of a handle. -/
theorem Sane.touch (sane : Sane v vol S) (hparent : f.entry.file ∈ S.dirs)
    (hnum : (getFreeDirEntry f.buf).toNat < 8) (hc : v.Data c) (hfree : vol.tag c = freeTags)
    (name : FileName) :
    Sane v (vol.touch f name c) (S.addFile c (f.entry.file, (getFreeDirEntry f.buf).toNat)) ∧
      S.Sub (S.addFile c (f.entry.file, (getFreeDirEntry f.buf).toNat)) := by
  have hknown : (newFile f name c (getFreeDirEntry f.buf) 0 validFlag).entry.Known
      (S.addFile c (f.entry.file, (getFreeDirEntry f.buf).toNat)) := by
    refine ⟨⟨hparent, hnum, fun hd => ?_, fun _ => Or.inl rfl⟩, Function.update_self ..,
      fun _ => Function.update_self ..⟩
    exact absurd hd (show ¬ (validFlag &&& directoryFlag ≠ 0) by decide)
  exact ⟨(sane.addFile hc hfree _).putEntry hknown (show validFlag &&& validFlag ≠ 0 by decide),
    S.addFile_sub (sane.not_dir hfree) (sane.not_file hfree)⟩

/-- A directory is created in the directory of a handle. -/
theorem Sane.mkdir (sane : Sane v vol S) (hparent : f.entry.file ∈ S.dirs)
    (hnum : (getFreeDirEntry f.buf).toNat < 8) (hc : v.Data c) (hfree : vol.tag c = freeTags)
    (name : FileName) :
    Sane v (vol.mkdir f name c) (S.addDir c (f.entry.file, (getFreeDirEntry f.buf).toNat)) ∧
      S.Sub (S.addDir c (f.entry.file, (getFreeDirEntry f.buf).toNat)) := by
  have hne : f.entry.file ≠ c := fun heq => sane.not_dir hfree (heq ▸ hparent)
  have hknown : (newFile f name c (getFreeDirEntry f.buf) (UInt64.ofNat clusterSize)
      (validFlag ||| directoryFlag)).entry.Known
      (S.addDir c (f.entry.file, (getFreeDirEntry f.buf).toNat)) := by
    have hisDir : (validFlag ||| directoryFlag) &&& directoryFlag ≠ 0 := by decide
    exact ⟨⟨Or.inr hparent, hnum, fun _ => Or.inl rfl, fun hp => absurd hisDir hp⟩,
      Function.update_self .., fun hp => absurd hisDir hp⟩
  rw [Volume.mkdir, Volume.putEntry_setChunk _ _ hne]
  exact ⟨(sane.addDir hc hfree _).putEntry hknown
    (show (validFlag ||| directoryFlag) &&& validFlag ≠ 0 by decide),
    S.addDir_sub (sane.not_dir hfree) (sane.not_file hfree)⟩

/-- The cluster of the directory is in the census. -/
theorem HoldsDir.file_mem (h : HoldsDir v S f) : f.entry.file ∈ S.dirs := by
  rw [h.file]
  exact h.cluster

/-- A handle on something else is not affected when a file or directory goes. -/
theorem HoldsDir.remove (h : HoldsDir v S g) {head : UInt64} (hfile : g.entry.file ≠ head)
    (hparent : g.entry.parent ≠ head) : HoldsDir v (S.remove head) g :=
  ⟨⟨h.cluster, by rw [← h.file]; exact hfile⟩, h.file, ⟨h.parent, hparent⟩, h.num, h.isDir,
    h.clean, h.last, h.home⟩

/-- A file stays held where another one is removed. -/
theorem HoldsFile.remove (h : HoldsFile S g) {head : UInt64} (hfile : g.entry.file ≠ head)
    (hparent : g.entry.parent ≠ head) : HoldsFile (S.remove head) g := by
  have hown : S.own g.entry.file ≠ head := by
    rw [h.known.own h.plain]
    exact hfile
  have hknown : g.entry.Known (S.remove head) :=
    ⟨⟨⟨h.known.parent, hparent⟩, h.known.num, fun hd => absurd hd h.plain,
      fun hp => ⟨h.known.file hp, hown⟩⟩, h.known.home, h.known.own⟩
  refine ⟨⟨h.cluster, by rw [h.own]; exact hfile⟩, h.own, hknown, h.valid, h.plain,
    h.next.imp_right fun hnext => ⟨⟨hnext.1, ?_⟩, hnext.2⟩⟩
  rw [hnext.2.1]
  exact hfile

/-- So does everything that is not what is removed, nor in it. -/
theorem Held.remove (wf : v.Wf) (sane : Sane v vol S) (h : Held v S g) {head : UInt64}
    (hother : g.cluster ≠ 0 → g.Live → g.entry.file ≠ head ∧ g.entry.parent ≠ head) :
    Held v (S.remove head) g := by
  have hopen : v.Data g.cluster → g.cluster ≠ 0 ∧ g.Live :=
    fun hdata => ⟨hdata.ne_zero wf, hdata.ne_eof wf⟩
  cases h with
  | closed cluster clean => exact .closed cluster clean
  | removed cluster flags => exact .removed cluster flags
  | dir holds placed =>
    obtain ⟨hzero, live⟩ := hopen (sane.data _ (Or.inl holds.cluster))
    obtain ⟨hfile, hparent⟩ := hother hzero live
    exact .dir (holds.remove hfile hparent) placed
  | file holds placed =>
    obtain ⟨hzero, live⟩ := hopen (holds.data sane)
    obtain ⟨hfile, hparent⟩ := hother hzero live
    exact .file (holds.remove hfile hparent) placed

/-- The rest of a file, from the cluster after that of the handle. -/
theorem HoldsFile.rest (wf : v.Wf) (sane : Sane v vol S) (h : HoldsFile S f) :
    ∃ l, Path vol.next (link f.currentTags.next) l none ∧
      (∀ x ∈ l, x ∈ S.files ∧ S.own x = f.entry.file) ∧ f.entry.file ∉ l := by
  rcases h.next with heof | ⟨hmem, hown, hne⟩
  · exact ⟨[], by rw [heof, link_eof, path_nil], (fun x hx => by cases hx), List.not_mem_nil⟩
  · obtain ⟨l, hl⟩ := sane.ends _ hmem
    rw [← hown] at hne ⊢
    rw [link_of_ne ((sane.data _ (Or.inr hmem)).ne_eof wf)]
    exact ⟨l, hl, sane.path_own hmem hl, sane.own_not_mem hmem hne hl⟩

end Cumulonimbus.Fat64
