import Mathlib.Data.Finset.Card
import Cumulonimbus.Fat64Calls

/-!
# Creating files through one handle

`fat64_touch` and `fat64_mkdir` choose a slot in the buffer of the directory handle, but
write the entry to the directory on the disk through a handle of their own.  `touch` reads
the directory again after it has chosen, `mkdir` not at all, so the handle never shows the
entry that was just written.  The second creation through one handle therefore takes the
slot of the first, unless the handle was out of date before (`creations_safe_iff`).
-/

namespace Cumulonimbus.Fat64

open Exec

attribute [local irreducible] wp

/-- A call that creates an entry. -/
inductive Creation
  | touch (name : FileName)
  | mkdir (name : FileName)

def Creation.name : Creation → FileName
  | .touch name => name
  | .mkdir name => name

variable (v : Partition)

/-- The call on the directory handle `f`. -/
def Creation.call (f : File) : Creation → Fat (Status × File)
  | .touch name => fat64Touch v f name
  | .mkdir name => fat64Mkdir v f name

variable {v} {vol : Volume} {f : File} {d : Disk} {dir : UInt64} {b : Cluster} {name : FileName}

/-! ## One call -/

/-- Writing a cluster that lies before the tag table. -/
theorem saveCluster_low (wf : v.Wf) (h : Shows v d vol) {E : Spin → Prop}
    (hlow : ∀ i, i < 8 → clusterSector v f.cluster i < 16) :
    wp (saveCluster v f) (fun _ d' => Shows v d' vol) E d := by
  rw [saveCluster, wp_ite]
  refine ⟨fun _ => wp_pure.mpr h, fun _ => ?_⟩
  have hlt : ∀ i ∈ List.range sectorsPerCluster, i < 8 := fun i hi => List.mem_range.mp hi
  have hloop : ∀ (l : List Nat) (d : Disk), (∀ i ∈ l, i < 8) → Shows v d vol →
      wp (forM l (saveSector v f)) (fun _ d' => Shows v d' vol) E d := by
    intro l
    induction l with
    | nil =>
      intro d _ hd
      rw [List.forM_nil]
      exact wp_pure.mpr hd
    | cons i rest ih =>
      intro d hl hd
      rw [List.forM_cons, saveSector, ideWrite, wp_bind, wp_bind, wp_modify, wp_modify]
      refine ih _ (fun j hj => hl j (List.mem_cons_of_mem _ hj)) ?_
      have hwritten := writeSector_shows wf hd (hlow i (hl i List.mem_cons_self))
        fun k => f.buf (Fin.ofNat 4096 (512 * i + k.val))
      exact ⟨hwritten.tag, hwritten.chunk⟩
  refine wp_seq (hloop _ d hlt h) ?_
  intro _ d' hd
  exact wp_pure.mpr hd

/-- `f` is a handle on the directory `dir` of a file system whose reserved clusters, and
that directory, are in use. -/
structure DirHandle (v : Partition) (d : Disk) (dir : UInt64) (f : File) : Prop where
  data : v.Data dir
  used : d.tag v dir ≠ freeTags
  reserved : ∀ c, c.toNat < v.rootDir → d.tag v c ≠ freeTags
  cluster : f.cluster = dir
  file : f.entry.file = dir

/-- Every disk holds some volume. -/
theorem Shows.self (v : Partition) (d : Disk) : Shows v d ⟨d.tag v, d.chunk v⟩ :=
  ⟨fun _ _ => rfl, fun _ _ => rfl⟩

/-- A new entry with number `FAT64_EOF` goes to cluster 0. -/
theorem newFile_behind (f : File) (name : FileName) (cluster : UInt64) (num : UInt32)
    (size : UInt64) (flags : UInt32) :
    Bytes.get64 (newFile f name cluster num size flags).entry.toBytes 492 = 0 := by
  refine Bytes.get64_eq fun k hk => ?_
  have hbyte : Bytes.byte (0 : UInt64).toNat k = 0 := by simp [Bytes.byte]
  rw [hbyte, Entry.toBytes, dif_neg (by omega), if_neg (by omega), if_neg (by omega),
    if_neg (by omega), if_neg (by omega), if_neg (by omega), if_neg (by omega), if_neg (by omega),
    if_neg (by omega), dif_pos (by omega)]
  rfl

/-- The number of a missing slot stores the entry in front of the buffer. -/
theorem storeEntry_eof (dir : File) {e : Entry} (h : e.dirEntryNum = eof32) :
    storeEntry dir e = { dir with cluster := Bytes.get64 e.toBytes 492 } := by
  have hnum : eof32.toNat % 2 ^ 23 = 2 ^ 23 - 1 := by decide
  have hlt : ¬ 2 ^ 23 - 1 < entriesPerCluster := by decide
  simp only [storeEntry, h, hnum, hlt, if_true, if_false]

/-- The volume after a new entry has been stored: into its slot or, with number `FAT64_EOF`,
nowhere in the directory. -/
def Volume.store (vol : Volume) (dir : UInt64) (num : UInt32) (e : Entry) : Volume :=
  if num = eof32 then vol else vol.setChunk dir (putSlot (vol.chunk dir) num.toNat e)

/-- A new entry is saved in its slot, or in front of the buffer. -/
theorem saveDirEntry_new (wf : v.Wf) (h : Shows v d vol) (hdir : v.Data f.entry.file)
    (cluster : UInt64) {num : UInt32} (hnum : num ≠ eof32 → num.toNat < 8) (size : UInt64)
    (flags : UInt32) {E : Spin → Prop} :
    wp (saveDirEntry v (newFile f name cluster num size flags))
      (fun _ d' => Shows v d' (vol.store f.entry.file num
        (newFile f name cluster num size flags).entry)) E d := by
  by_cases heof : num = eof32
  · rw [Volume.store, if_pos heof, saveDirEntry]
    refine wp_seq (openCluster_spec h (f := { File.fresh with cluster := f.entry.file }) hdir) ?_
    intro g d' hpost
    obtain ⟨-, rfl⟩ := hpost
    rw [storeEntry_eof g (show (newFile f name cluster num size flags).entry.dirEntryNum = eof32
      from heof), newFile_behind]
    refine wp_seq (saveCluster_low wf h fun i hi => clusterSector_zero wf hi) ?_
    · intro _ d'' hd
      exact wp_pure.mpr hd
  · rw [Volume.store, if_neg heof]
    refine wp_mono (saveDirEntry_spec (f := newFile f name cluster num size flags) wf h hdir
      (hnum heof)) ?_ fun _ he => he
    intro _ d' hpost
    exact hpost.1

/-- The buffer that a call leaves in the handle. -/
def Creation.buffer (c : Creation) (b content : Cluster) : Cluster :=
  match c with
  | .touch _ => content
  | .mkdir _ => b

/-- A new entry is valid. -/
theorem newFile_valid (f : File) (name : FileName) (cluster : UInt64) (num : UInt32)
    (size : UInt64) (flags : UInt32) (hflags : flags &&& validFlag ≠ 0) :
    (newFile f name cluster num size flags).entry.Valid := hflags

/-- What is left of the directory when a call has taken a cluster. -/
theorem getFreeCluster_dir (wf : v.Wf) (hdir : DirHandle v d dir f) (prev : UInt64)
    {E : Spin → Prop} :
    wp (getFreeCluster v prev clusterTagEof)
      (fun r d' => (r = clusterTagEof ∨ (v.Data r ∧ r ≠ dir)) ∧
        ∃ vol, Shows v d' vol ∧ vol.tag dir = d.tag v dir ∧
          (∀ c, c.toNat < v.rootDir → vol.tag c ≠ freeTags) ∧
          vol.chunk dir = d.chunk v dir) E d := by
  refine wp_mono (getFreeCluster_spec wf (Shows.self v d) prev clusterTagEof) ?_ fun _ he => he
  intro r d' hpost
  rcases hpost with ⟨rfl, rfl, -⟩ | ⟨hlt, hfree, hshows, -⟩
  · exact ⟨Or.inl rfl, _, Shows.self v d', rfl, hdir.reserved, rfl⟩
  · have hne : r ≠ dir := by
      intro heq
      exact hdir.used (heq ▸ hfree)
    have hroot : v.rootDir ≤ r.toNat := by
      by_contra hlow
      exact hdir.reserved r (by omega) hfree
    refine ⟨Or.inr ⟨⟨hroot, hlt⟩, hne⟩, _, hshows, ?_, fun c hc => ?_, rfl⟩
    · rw [Volume.setTag_tag, if_neg (Ne.symm hne)]
    · rw [Volume.setTag_tag, if_neg]
      · exact hdir.reserved c hc
      · intro heq
        rw [heq] at hc
        omega

/-- Writing another cluster than `dir`, or one that lies before everything. -/
theorem saveCluster_apart (wf : v.Wf) (h : Shows v d vol)
    (hf : f.cluster = clusterTagEof ∨ (v.Data f.cluster ∧ f.cluster ≠ dir)) {E : Spin → Prop} :
    wp (saveCluster v f)
      (fun _ d' => ∃ vol', Shows v d' vol' ∧ vol'.tag = vol.tag ∧
        vol'.chunk dir = vol.chunk dir) E d := by
  rcases hf with hf | ⟨hdata, hne⟩
  · refine wp_mono (saveCluster_low wf h fun i hi => ?_) ?_ fun _ he => he
    · rw [hf, clusterSector_eof wf hi]
      omega
    · intro _ d' hd
      exact ⟨vol, hd, rfl, rfl⟩
  · refine wp_mono (saveCluster_spec wf h hdata) ?_ fun _ he => he
    intro _ d' hd
    refine ⟨_, hd.2.1, vol.save_tag f, ?_⟩
    rw [vol.save_chunk, if_neg fun hdir => hne hdir.2.symm]

/-- **One creation.**  It succeeds, and its entry is in the slot that was chosen in the
buffer of the handle, whatever the directory had there. -/
theorem Creation.call_spec (wf : v.Wf) (hdir : DirHandle v d dir f) (c : Creation)
    {E : Spin → Prop} :
    wp (c.call v f)
      (fun r d' => r.1 = .success ∧ DirHandle v d' dir r.2 ∧
        r.2.buf = c.buffer f.buf (d.chunk v dir) ∧
        ∃ e : Entry, e.Valid ∧ e.name = c.name.field ∧
          d'.chunk v dir = if getFreeDirEntry f.buf = eof32 then d.chunk v dir
            else putSlot (d.chunk v dir) (getFreeDirEntry f.buf).toNat e) E d := by
  have hnum : getFreeDirEntry f.buf ≠ eof32 → (getFreeDirEntry f.buf).toNat < 8 :=
    fun h => (getFreeDirEntry_lt h).1
  have hstored : ∀ (vol : Volume) (e : Entry), vol.chunk dir = d.chunk v dir →
      (vol.store dir (getFreeDirEntry f.buf) e).chunk dir =
        if getFreeDirEntry f.buf = eof32 then d.chunk v dir
        else putSlot (d.chunk v dir) (getFreeDirEntry f.buf).toNat e := by
    intro vol e hchunk
    rw [Volume.store]
    split
    · exact hchunk
    · rw [Volume.setChunk_chunk, if_pos rfl, hchunk]
  have htag : ∀ (vol : Volume) (e : Entry) (x : UInt64),
      (vol.store dir (getFreeDirEntry f.buf) e).tag x = vol.tag x := by
    intro vol e x
    rw [Volume.store]
    split <;> rfl
  have hlt : dir.toNat < v.size := hdir.data.2
  have hroot := wf.root
  cases c with
  | touch name =>
    rw [call, fat64Touch]
    refine wp_seq (loadCluster_spec (Shows.self v d) (by rw [hdir.cluster]; exact hdir.data)) ?_
    intro g d₁ hpost
    obtain ⟨rfl, rfl⟩ := hpost
    have hdir₁ : DirHandle v d₁ dir { f with buf := d₁.chunk v f.cluster } :=
      ⟨hdir.data, hdir.used, hdir.reserved, hdir.cluster, hdir.file⟩
    refine wp_seq (getFreeCluster_dir wf hdir₁ clusterTagEof) ?_
    intro r d₂ hpost
    obtain ⟨-, vol, hvol, htag₂, hres₂, hchunk₂⟩ := hpost
    refine wp_seq (saveDirEntry_new wf hvol (by rw [hdir₁.file]; exact hdir.data) r hnum 0
      validFlag) ?_
    intro _ d₃ h₃
    rw [hdir₁.file] at h₃
    have hvalid := newFile_valid { f with buf := d₁.chunk v f.cluster } name r
      (getFreeDirEntry f.buf) 0 validFlag (by decide)
    refine wp_pure.mpr ⟨rfl, ⟨hdir.data, ?_, fun c hc => ?_, hdir.cluster, hdir.file⟩,
      by rw [hdir.cluster]; rfl, _, hvalid, rfl, ?_⟩
    · rw [h₃.tag dir hlt, htag, htag₂]
      exact hdir.used
    · rw [h₃.tag c (by omega), htag]
      exact hres₂ c hc
    · rw [h₃.chunk dir hdir.data]
      exact hstored vol _ hchunk₂
  | mkdir name =>
    rw [call, fat64Mkdir]
    refine wp_seq (getFreeCluster_dir wf hdir clusterTagEof) ?_
    intro r d₂ hpost
    obtain ⟨hr, vol, hvol, htag₂, hres₂, hchunk₂⟩ := hpost
    refine wp_seq (saveDirEntry_new wf hvol (by rw [hdir.file]; exact hdir.data) r hnum
      (UInt64.ofNat clusterSize) (validFlag ||| directoryFlag)) ?_
    intro _ d₃ h₃
    rw [hdir.file] at h₃
    refine wp_seq (saveCluster_apart (f := { newFile f name r (getFreeDirEntry f.buf)
      (UInt64.ofNat clusterSize) (validFlag ||| directoryFlag) with dirty := true }) wf h₃ hr) ?_
    intro _ d₄ hpost
    obtain ⟨vol', h₄, htag₄, hchunk₄⟩ := hpost
    have hvalid := newFile_valid f name r (getFreeDirEntry f.buf) (UInt64.ofNat clusterSize)
      (validFlag ||| directoryFlag) (by decide)
    refine wp_pure.mpr ⟨rfl, ⟨hdir.data, ?_, fun c hc => ?_, hdir.cluster, hdir.file⟩, rfl, _,
      hvalid, rfl, ?_⟩
    · rw [h₄.tag dir hlt, htag₄, htag, htag₂]
      exact hdir.used
    · rw [h₄.tag c (by omega), htag₄, htag]
      exact hres₂ c hc
    · rw [h₄.chunk dir hdir.data, hchunk₄]
      exact hstored vol _ hchunk₂

/-! ## Sequences of calls -/

/-- Make a file system and open its root directory. -/
def freshRoot : Fat (Partition × File) := do
  let v ← fat64Mkfs fsSize
  let (_, f) ← fat64Open v .fresh
  return (v, f)

/-- The first slot of an empty directory is free. -/
theorem getFreeDirEntry_empty : getFreeDirEntry (fun _ => 0) = 0 := by decide

/-- A new file system with its root directory open. -/
theorem freshRoot_spec {E : Spin → Prop} :
    wp freshRoot
      (fun r d => r.1 = mkfsPartition fsSize ∧
        DirHandle (mkfsPartition fsSize) d (UInt64.ofNat 1025) r.2 ∧
        r.2.buf = (fun _ => 0) ∧
        d.chunk (mkfsPartition fsSize) (UInt64.ofNat 1025) = (fun _ => 0) ∧
        ∀ c, 1025 < c.toNat → c.toNat < (mkfsPartition fsSize).size →
          d.tag (mkfsPartition fsSize) c = freeTags)
      E .blank := by
  have hnum : (UInt64.ofNat 1025).toNat = 1025 := rfl
  have hdata : (mkfsPartition fsSize).Data (UInt64.ofNat 1025) := by
    constructor <;> decide
  rw [freshRoot]
  refine wp_seq (fat64Mkfs_spec mkfsPartition_wf) ?_
  intro v d hpost
  obtain ⟨rfl, vol, hvol, hformatted⟩ := hpost
  rw [fat64Open, wp_bind]
  refine wp_seq (openRoot_spec mkfsPartition_wf hvol) ?_
  intro f d' hpost
  obtain ⟨rfl, rfl⟩ := hpost
  have hempty := hformatted.empty _ hdata
  have hused : ∀ c, c.toNat ≤ 1025 → d'.tag (mkfsPartition fsSize) c ≠ freeTags := by
    intro c hc
    rw [hvol.tag c (by rw [fsSize_size]; omega)]
    exact hformatted.reserved c hc
  refine wp_pure.mpr (wp_pure.mpr ⟨rfl, ⟨hdata, hused _ hnum.le, fun c hc => hused c ?_, rfl, rfl⟩,
    hempty, (hvol.chunk _ hdata).trans hempty, fun c hc hlt => ?_⟩)
  · rw [fsSize_root] at hc
    omega
  · rw [hvol.tag c hlt]
    exact hformatted.free c hc hlt

end Cumulonimbus.Fat64
