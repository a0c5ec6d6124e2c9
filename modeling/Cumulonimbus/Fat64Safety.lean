import Mathlib.Data.Set.Insert
import Cumulonimbus.Fat64Sessions

/-!
# File data stays out of the file system

The clusters that directories and files use, `Region`, only grow as long as nothing is
removed.  Every cluster number in a directory entry, in the tags of a file or in a handle is
one of them, so `save_cluster` writes data sectors only (`data_stays_in_clusters`).  What breaks
this is a cluster number that is none: `FAT64_CLUSTER_TAG_EOF` from a search that found no
free cluster, or whatever lies behind the buffer of a handle, or what a caller has written
over the entries of a directory.
-/

namespace Cumulonimbus.Fat64

open Exec

attribute [local irreducible] wp

/-- The clusters of directories and those of files. -/
structure Region where
  dirs : Set UInt64
  files : Set UInt64

/-- The entry has a place in a directory and a cluster of its kind. -/
structure Entry.Named (e : Entry) (R : Region) : Prop where
  parent : e.parent ∈ R.dirs
  num : e.dirEntryNum.toNat < 8
  dir : e.IsDirectory → e.file ∈ R.dirs
  file : ¬ e.IsDirectory → e.file ∈ R.files

/-- Directory entries and tags name clusters of the region only. -/
structure Healthy (v : Partition) (vol : Volume) (R : Region) : Prop where
  reserved : vol.Reserves v
  root : UInt64.ofNat v.rootDir ∈ R.dirs
  data : ∀ c, c ∈ R.dirs ∨ c ∈ R.files → v.Data c
  used : ∀ c, c ∈ R.dirs ∨ c ∈ R.files → vol.tag c ≠ freeTags
  apart : ∀ c, c ∈ R.files → c ∉ R.dirs
  next : ∀ c, c ∈ R.files → (vol.tag c).next = clusterTagEof ∨ (vol.tag c).next ∈ R.files
  entries : ∀ c, c ∈ R.dirs → ∀ i, i < 8 → (slot (vol.chunk c) i).Valid →
    (slot (vol.chunk c) i).Named R

/-- A handle on a file. -/
structure OnFile (R : Region) (f : File) : Prop where
  cluster : f.cluster ∈ R.files
  named : f.entry.Named R
  valid : f.entry.Valid
  plain : ¬ f.entry.IsDirectory
  next : f.currentTags.next = clusterTagEof ∨ f.currentTags.next ∈ R.files

/-- A handle is closed, or open on a directory and no further than the disk, or open on a
file. -/
inductive HandleOk (vol : Volume) (R : Region) (f : File) : Prop
  | closed (cluster : f.cluster = 0) (clean : f.dirty = false)
  | dir (cluster : f.cluster ∈ R.dirs) (file : f.entry.file = f.cluster)
      (isDir : f.entry.IsDirectory) (clean : f.dirty = false)
      (old : ∀ i, i < 8 → (slot f.buf i).Valid → (slot (vol.chunk f.cluster) i).Valid)
  | file (onFile : OnFile R f)

/-- Clusters are added to the region and entries to directories. -/
structure Grows (vol : Volume) (R : Region) (vol' : Volume) (R' : Region) : Prop where
  dirs : R.dirs ⊆ R'.dirs
  files : R.files ⊆ R'.files
  valid : ∀ c, c ∈ R.dirs → ∀ i, i < 8 → (slot (vol.chunk c) i).Valid →
    (slot (vol'.chunk c) i).Valid

/-- The volume shown after a call, with the handle of the call. -/
def Continues (v : Partition) (d : Disk) (vol : Volume) (R : Region) (f : File) (d' : Disk) :
    Prop :=
  ∃ vol' R', Shows v d' vol' ∧ Healthy v vol' R' ∧ Grows vol R vol' R' ∧ HandleOk vol' R' f ∧
    Saves v d d'

variable {v : Partition} {d : Disk} {vol vol' vol'' : Volume} {R R' R'' : Region} {f g : File}
  {c : UInt64} {e : Entry} {E : Spin → Prop}

/-! ## Growing -/

/-- Nothing has grown. -/
theorem Grows.refl : Grows vol R vol R :=
  ⟨subset_rfl, subset_rfl, fun _ _ _ _ h => h⟩

/-- What grows twice. -/
theorem Grows.trans (h : Grows vol R vol' R') (h' : Grows vol' R' vol'' R'') :
    Grows vol R vol'' R'' :=
  ⟨h.dirs.trans h'.dirs, h.files.trans h'.files, fun c hc i hi hvalid =>
    h'.valid c (h.dirs hc) i hi (h.valid c hc i hi hvalid)⟩

/-- An entry that names a cluster of a region names one of a larger region. -/
theorem Entry.Named.mono (h : e.Named R) (hdirs : R.dirs ⊆ R'.dirs) (hfiles : R.files ⊆ R'.files) :
    e.Named R' :=
  ⟨hdirs h.parent, h.num, fun hdir => hdirs (h.dir hdir), fun hfile => hfiles (h.file hfile)⟩

/-- The file of a handle is there still. -/
theorem OnFile.mono (h : OnFile R f) (grows : Grows vol R vol' R') : OnFile R' f :=
  ⟨grows.files h.cluster, h.named.mono grows.dirs grows.files, h.valid, h.plain,
    h.next.imp_right fun hnext => grows.files hnext⟩

/-- So is what its buffer says of a directory. -/
theorem HandleOk.mono (h : HandleOk vol R f) (grows : Grows vol R vol' R') :
    HandleOk vol' R' f := by
  cases h with
  | closed cluster clean => exact .closed cluster clean
  | dir cluster file isDir clean old =>
    exact .dir (grows.dirs cluster) file isDir clean fun i hi hvalid =>
      grows.valid _ cluster i hi (old i hi hvalid)
  | file onFile => exact .file (onFile.mono grows)

namespace Healthy

/-- A free cluster is no directory. -/
theorem not_dir (h : Healthy v vol R) (hfree : vol.tag c = freeTags) : c ∉ R.dirs :=
  fun hc => h.used c (Or.inl hc) hfree

/-- Nor is it part of a file. -/
theorem not_file (h : Healthy v vol R) (hfree : vol.tag c = freeTags) : c ∉ R.files :=
  fun hc => h.used c (Or.inr hc) hfree

/-- New tags, which are not those of a free cluster. -/
theorem setTag (h : Healthy v vol R) {t : Tags} (ht : t ≠ freeTags)
    (hnext : c ∈ R.files → t.next = clusterTagEof ∨ t.next ∈ R.files) :
    Healthy v (vol.setTag c t) R := by
  refine ⟨fun x hx => ?_, h.root, h.data, fun x hx => ?_, h.apart, fun x hx => ?_, h.entries⟩
  · rw [Volume.setTag_tag]
    split
    · exact ht
    · exact h.reserved x hx
  · rw [Volume.setTag_tag]
    split
    · exact ht
    · exact h.used x hx
  · rw [Volume.setTag_tag]
    split
    · rename_i heq
      exact hnext (heq ▸ hx)
    · exact h.next x hx

/-- New contents outside the directories. -/
theorem setChunk (h : Healthy v vol R) (hc : c ∉ R.dirs) (b : Cluster) :
    Healthy v (vol.setChunk c b) R := by
  refine ⟨h.reserved, h.root, h.data, h.used, h.apart, h.next, fun x hx i hi => ?_⟩
  have hne : x ≠ c := fun heq => hc (heq ▸ hx)
  rw [Volume.setChunk_chunk, if_neg hne]
  exact h.entries x hx i hi

/-- A cluster that was free becomes the last one of a file. -/
theorem addFile (h : Healthy v vol R) (hc : v.Data c) (hfree : vol.tag c = freeTags)
    (prev : UInt64) :
    Healthy v (vol.setTag c ⟨prev, clusterTagEof⟩) { R with files := insert c R.files } := by
  have h' := h.setTag (c := c) (lastTags_used prev) fun _ => Or.inl rfl
  have htag : (vol.setTag c ⟨prev, clusterTagEof⟩).tag c = ⟨prev, clusterTagEof⟩ := by
    rw [Volume.setTag_tag, if_pos rfl]
  refine ⟨h'.reserved, h'.root, fun x hx => ?_, fun x hx => ?_, fun x hx => ?_, fun x hx => ?_,
    fun x hx i hi hvalid => (h'.entries x hx i hi hvalid).mono subset_rfl (Set.subset_insert c _)⟩
  · rcases hx with hx | rfl | hx
    · exact h'.data x (Or.inl hx)
    · exact hc
    · exact h'.data x (Or.inr hx)
  · rcases hx with hx | rfl | hx
    · exact h'.used x (Or.inl hx)
    · rw [htag]
      exact lastTags_used prev
    · exact h'.used x (Or.inr hx)
  · rcases hx with rfl | hx
    · exact h.not_dir hfree
    · exact h'.apart x hx
  · rcases hx with rfl | hx
    · rw [htag]
      exact Or.inl rfl
    · exact (h'.next x hx).imp_right fun hx => Or.inr hx

/-- A cluster that was free becomes a directory without entries. -/
theorem addDir (h : Healthy v vol R) (hc : v.Data c) (hfree : vol.tag c = freeTags) :
    Healthy v ((vol.setTag c ⟨clusterTagEof, clusterTagEof⟩).setChunk c fun _ => 0)
      { R with dirs := insert c R.dirs } := by
  have h' := (h.setTag (c := c) (lastTags_used clusterTagEof) fun _ => Or.inl rfl).setChunk
    (h.not_dir hfree) fun _ => 0
  refine ⟨h'.reserved, Or.inr h'.root, fun x hx => ?_, fun x hx => ?_, fun x hx => ?_, h'.next,
    fun x hx i hi hvalid => ?_⟩
  · rcases hx with (rfl | hx) | hx
    · exact hc
    · exact h'.data x (Or.inl hx)
    · exact h'.data x (Or.inr hx)
  · rcases hx with (rfl | hx) | hx
    · rw [Volume.setChunk_tag, Volume.setTag_tag, if_pos rfl]
      exact lastTags_used clusterTagEof
    · exact h'.used x (Or.inl hx)
    · exact h'.used x (Or.inr hx)
  · intro hxdir
    rcases hxdir with rfl | hxdir
    · exact h.not_file hfree hx
    · exact h'.apart x hx hxdir
  · rcases hx with rfl | hx
    · rw [Volume.setChunk_chunk, if_pos rfl] at hvalid
      exact absurd hvalid (slot_zero i)
    · exact (h'.entries x hx i hi hvalid).mono (Set.subset_insert c _) subset_rfl

/-- An entry that names clusters of the region goes into its slot. -/
theorem putEntry (h : Healthy v vol R) (he : e.Named R) (hvalid : e.Valid) :
    Healthy v (vol.putEntry e) R ∧ Grows vol R (vol.putEntry e) R := by
  refine ⟨⟨h.reserved, h.root, h.data, h.used, h.apart, h.next, fun x hx i hi => ?_⟩,
    subset_rfl, subset_rfl, fun x hx i hi => ?_⟩
  · rw [Volume.putEntry, Volume.setChunk_chunk]
    split
    · rename_i heq
      rw [slot_putSlot _ hi]
      split
      · exact fun _ => he
      · exact h.entries _ he.parent i hi
    · exact h.entries x hx i hi
  · intro hold
    rw [Volume.putEntry, Volume.setChunk_chunk]
    split
    · rename_i heq
      rw [slot_putSlot _ hi]
      split
      · exact hvalid
      · rwa [← heq]
    · exact hold

end Healthy

/-- Growing leaves the directories' bytes alone. -/
theorem Grows.of_chunk (hdirs : R.dirs ⊆ R'.dirs) (hfiles : R.files ⊆ R'.files)
    (hchunk : ∀ c, c ∈ R.dirs → vol'.chunk c = vol.chunk c) : Grows vol R vol' R' :=
  ⟨hdirs, hfiles, fun c hc i _ hvalid => by rwa [hchunk c hc]⟩

/-- Saving the buffer of a handle on a file. -/
theorem Healthy.save (h : Healthy v vol R) (hf : f.cluster ∈ R.files) :
    Healthy v (vol.save f) R ∧ Grows vol R (vol.save f) R := by
  have hdir := h.apart _ hf
  refine ⟨?_, .of_chunk subset_rfl subset_rfl fun x hx => ?_⟩
  · rw [Volume.save]
    split
    · exact h.setChunk hdir f.buf
    · exact h
  · have hne : ¬ (f.dirty ∧ x = f.cluster) := fun heq => hdir (heq.2 ▸ hx)
    rw [Volume.save_chunk, if_neg hne]

/-- A file grows by a cluster that was free. -/
theorem Healthy.extend (wf : v.Wf) (h : Healthy v vol R) (hf : f.cluster ∈ R.files)
    (hc : v.Data c) (hfree : vol.tag c = freeTags) :
    Healthy v (vol.extend f c) { R with files := insert c R.files } ∧
      Grows vol R (vol.extend f c) { R with files := insert c R.files } := by
  have hne : f.cluster ≠ c := fun heq => h.not_file hfree (heq ▸ hf)
  have hlink := linkTags_used wf hc f.currentTags.prev
  have h₁ := h.addFile hc hfree f.cluster
  have h₂ := h₁.setTag (c := f.cluster) (t := ⟨f.currentTags.prev, c⟩) hlink
    fun _ => Or.inr (Or.inl rfl)
  obtain ⟨h₃, grows⟩ := h₂.save (f := f) (Or.inr hf)
  have grown : Grows vol R ((vol.setTag c ⟨f.cluster, clusterTagEof⟩).setTag f.cluster
      ⟨f.currentTags.prev, c⟩) { R with files := insert c R.files } :=
    .of_chunk subset_rfl (Set.subset_insert c _) fun _ _ => rfl
  exact ⟨h₃, grown.trans grows⟩

/-! ## Calls on a file -/

/-- Whether the buffer has changed does not matter. -/
theorem OnFile.dirty (h : OnFile R f) (b : Bool) : OnFile R { f with dirty := b } :=
  ⟨h.cluster, h.named, h.valid, h.plain, h.next⟩

/-- The handle moves on to another cluster of the region. -/
theorem OnFile.moved (hf : OnFile R f) (h : Healthy v vol R) (hc : c ∈ R.files) :
    OnFile R (f.moved vol c) :=
  ⟨hc, hf.named, hf.valid, hf.plain, h.next c hc⟩

/-- Nor what it has. -/
theorem OnFile.stored (h : OnFile R f) (data : UInt8) : OnFile R (f.stored data) := by
  have hentry : (f.stored data).entry = f.entry ∨
      (f.stored data).entry = { f.entry with size := f.entry.size + 1 } := by
    rw [File.stored]
    dsimp only
    split
    · exact Or.inr rfl
    · exact Or.inl rfl
  rcases hentry with heq | heq
  · exact ⟨h.cluster, heq ▸ h.named, heq ▸ h.valid, heq ▸ h.plain, h.next⟩
  · refine ⟨h.cluster, ?_, ?_, ?_, h.next⟩
    · rw [heq]
      exact ⟨h.named.parent, h.named.num, h.named.dir, h.named.file⟩
    · rw [heq]
      exact h.valid
    · rw [heq]
      exact h.plain

/-- A handle on a file is not on a directory. -/
theorem OnFile.not_onDirectory (h : OnFile R f) : ¬ f.OnDirectory := fun hdir => h.plain hdir.2

/-- **A byte is written** into clusters of files, and its entry into a directory. -/
theorem fat64Putc_continues (wf : v.Wf) (h : Shows v d vol) (healthy : Healthy v vol R)
    (ok : HandleOk vol R f) (hdir : ¬ f.OnDirectory) (data : UInt8) :
    wp (fat64Putc v f data)
      (fun r d' => Continues v d vol R r.2 d' ∧ ¬ r.2.OnDirectory) E d := by
  have hstays : Continues v d vol R f d ∧ ¬ f.OnDirectory :=
    ⟨⟨vol, R, h, healthy, .refl, ok, .of_eq rfl⟩, hdir⟩
  rw [fat64Putc, wp_ite]
  refine ⟨fun _ => wp_pure.mpr hstays, fun hne => ?_⟩
  cases ok with
  | closed cluster clean => exact absurd cluster hne
  | dir cluster file isDir clean old => exact absurd ⟨hne, isDir⟩ hdir
  | file onFile =>
    refine wp_seq (putcExtend_spec wf h healthy.reserved
      (healthy.data _ (Or.inr onFile.cluster))) ?_
    intro r d₁ hpost
    rw [wp_ite]
    have hextended : r.1 = .success → ∃ vol₁ R₁, Shows v d₁ vol₁ ∧ Healthy v vol₁ R₁ ∧
        Grows vol R vol₁ R₁ ∧ OnFile R₁ r.2 ∧ Saves v d d₁ := by
      intro hstat
      rcases hpost with ⟨rfl, -, rfl⟩ | ⟨rfl, -⟩ | ⟨-, -, c, hc, hfree, rfl, h₁, hsaves⟩
      · exact ⟨vol, R, h, healthy, .refl, onFile, .of_eq rfl⟩
      · cases hstat
      · obtain ⟨healthy₁, grows⟩ := healthy.extend wf onFile.cluster hc hfree
        exact ⟨_, _, h₁, healthy₁, grows,
          ((onFile.mono grows).dirty false).moved healthy₁ (Or.inl rfl), hsaves⟩
    refine ⟨fun hstat => wp_pure.mpr ?_, fun hstat => ?_⟩
    · rcases hpost with ⟨rfl, -, rfl⟩ | ⟨rfl, -, rfl, -⟩ | ⟨-, -, c, -, -, rfl, -⟩
      · exact hstays
      · exact hstays
      · exact absurd rfl hstat
    obtain ⟨vol₁, R₁, h₁, healthy₁, grows₁, onFile₁, hsaves₁⟩ := hextended (not_not.mp hstat)
    refine wp_seq (putcStore_spec wf h₁ (healthy₁.data _ (Or.inl onFile₁.named.parent))
      onFile₁.named.num data) ?_
    intro g d₂ hpost
    obtain ⟨rfl, h₂, hsaves₂⟩ := hpost
    have onFile₂ := onFile₁.stored data
    obtain ⟨healthy₂, grows₂⟩ : Healthy v (vol₁.grow r.2 data) R₁ ∧
        Grows vol₁ R₁ (vol₁.grow r.2 data) R₁ := by
      rw [Volume.grow]
      split
      · exact healthy₁.putEntry onFile₂.named onFile₂.valid
      · exact ⟨healthy₁, .refl⟩
    refine wp_seq (putcEnd_spec wf h₂ (healthy₂.data _ (Or.inr onFile₂.cluster))
      (onFile₂.next.imp_right fun hnext => healthy₂.data _ (Or.inr hnext))) ?_
    intro g d₃ hpost
    rcases hpost with ⟨-, rfl, rfl⟩ | ⟨-, h₃, hsaves₃, rfl⟩
    · exact wp_pure.mpr ⟨⟨_, R₁, h₂, healthy₂, grows₁.trans grows₂, .file onFile₂,
        hsaves₁.trans hsaves₂⟩, onFile₂.not_onDirectory⟩
    obtain ⟨healthy₃, grows₃⟩ := healthy₂.save onFile₂.cluster
    have onFile₃ : OnFile R₁ (if (r.2.stored data).currentTags.next = clusterTagEof then
        { r.2.stored data with dirty := false, location := eof32 }
        else { r.2.stored data with dirty := false }.moved ((vol₁.grow r.2 data).save
          (r.2.stored data)) (r.2.stored data).currentTags.next) := by
      split
      · exact ⟨onFile₂.cluster, onFile₂.named, onFile₂.valid, onFile₂.plain, onFile₂.next⟩
      · rename_i hmore
        exact (onFile₂.dirty false).moved healthy₃ (onFile₂.next.resolve_left hmore)
    exact wp_pure.mpr ⟨⟨_, R₁, h₃, healthy₃, (grows₁.trans grows₂).trans grows₃, .file onFile₃,
      (hsaves₁.trans hsaves₂).trans hsaves₃⟩, onFile₃.not_onDirectory⟩

/-- A call after one that has grown and saved. -/
theorem Continues.after {d' d'' : Disk} (grows : Grows vol R vol' R') (hsaves : Saves v d d')
    (h : Continues v d' vol' R' f d'') : Continues v d vol R f d'' := by
  obtain ⟨vol₂, R₂, hshows, hhealthy, hgrows, hok, hsaves'⟩ := h
  exact ⟨vol₂, R₂, hshows, hhealthy, grows.trans hgrows, hok, hsaves.trans hsaves'⟩

/-- `fat64_write` is one `fat64_putc` after another, by induction on the fuel. -/
theorem writeLoop_continues (wf : v.Wf) (data : List UInt8) (n : Nat) (i : UInt32)
    (h : Shows v d vol) (healthy : Healthy v vol R) (ok : HandleOk vol R f)
    (hdir : ¬ f.OnDirectory) :
    wp (writeLoop v data n i f) (fun r d' => Continues v d vol R r.2 d') (fun _ => True) d := by
  have hstays : Continues v d vol R f d := ⟨vol, R, h, healthy, .refl, ok, .of_eq rfl⟩
  induction n generalizing i f d vol R with
  | zero =>
    rw [writeLoop]
    exact wp_throw.mpr trivial
  | succ n ih =>
    rw [writeLoop, wp_ite]
    refine ⟨fun _ => ?_, fun _ => wp_pure.mpr hstays⟩
    refine wp_seq (fat64Putc_continues wf h healthy ok hdir _) ?_
    intro r d₁ hpost
    obtain ⟨hcont, hdir₁⟩ := hpost
    rw [wp_ite]
    refine ⟨fun _ => wp_pure.mpr hcont, fun _ => ?_⟩
    obtain ⟨vol₁, R₁, h₁, healthy₁, grows, ok₁, hsaves⟩ := hcont
    refine wp_mono (ih (i + 1) h₁ healthy₁ ok₁ hdir₁
      ⟨vol₁, R₁, h₁, healthy₁, .refl, ok₁, .of_eq rfl⟩) ?_ fun _ he => he
    intro r₂ d₂ hcont
    exact hcont.after grows hsaves

/-- A clean buffer is not saved. -/
theorem saveCluster_clean (hclean : f.dirty = false) :
    wp (saveCluster v f) (fun g d' => g = f ∧ d' = d) E d := by
  rw [saveCluster, wp_ite]
  exact ⟨fun _ => wp_pure.mpr ⟨rfl, rfl⟩, fun hdirty => absurd hclean (by simpa using hdirty)⟩

/-- Only a handle on a file saves its buffer. -/
theorem saveCluster_continues (wf : v.Wf) (h : Shows v d vol) (healthy : Healthy v vol R)
    (ok : HandleOk vol R f) :
    wp (saveCluster v f) (fun g d' => Continues v d vol R g d') E d := by
  have hclean : f.dirty = false →
      wp (saveCluster v f) (fun g d' => Continues v d vol R g d') E d := by
    intro hclean
    refine wp_mono (saveCluster_clean hclean) ?_ fun _ he => he
    intro g d' hpost
    obtain ⟨rfl, rfl⟩ := hpost
    exact ⟨vol, R, h, healthy, .refl, ok, .of_eq rfl⟩
  cases ok with
  | closed cluster clean => exact hclean clean
  | dir cluster file isDir clean old => exact hclean clean
  | file onFile =>
    refine wp_mono (saveCluster_spec wf h (healthy.data _ (Or.inr onFile.cluster))) ?_
      fun _ he => he
    intro g d' hpost
    obtain ⟨rfl, h', hsaves⟩ := hpost
    obtain ⟨healthy', grows⟩ := healthy.save onFile.cluster
    exact ⟨_, R, h', healthy', grows, .file (onFile.dirty false), hsaves⟩

/-! ## Calls on a directory -/

/-- Loading the buffer again saves nothing. -/
theorem fat64Reopen_continues (h : Shows v d vol) (healthy : Healthy v vol R)
    (ok : HandleOk vol R f) :
    wp (fat64Reopen v f) (fun g d' => Continues v d vol R g d') E d := by
  refine wp_of_eq (loadCluster_eq f d) ⟨vol, R, h, healthy, .refl, ?_, .of_eq rfl⟩
  cases ok with
  | closed cluster clean => exact .closed cluster clean
  | dir cluster file isDir clean old =>
    refine .dir cluster file isDir clean fun i _ hvalid => ?_
    rwa [← h.chunk _ (healthy.data _ (Or.inl cluster))]
  | file onFile =>
    exact .file ⟨onFile.cluster, onFile.named, onFile.valid, onFile.plain, onFile.next⟩

/-- The handle of an entry of the region. -/
theorem HandleOk.opened (healthy : Healthy v vol R) (he : e.Named R) (hvalid : e.Valid) :
    HandleOk vol R (g.opened vol e) := by
  by_cases hdir : e.IsDirectory
  · exact .dir (he.dir hdir) rfl hdir rfl fun _ _ hold => hold
  · exact .file ⟨he.file hdir, he, hvalid, hdir, healthy.next _ (he.file hdir)⟩

/-- The root directory is one. -/
theorem rootEntry_isDirectory (v : Partition) : (rootEntry v).IsDirectory :=
  show (validFlag ||| directoryFlag) &&& directoryFlag ≠ 0 by decide

/-- **Opening the root directory** saves nothing. -/
theorem fat64Open_continues (wf : v.Wf) (h : Shows v d vol) (healthy : Healthy v vol R) :
    wp (fat64Open v f) (fun r d' => Continues v d vol R r.2 d') E d := by
  rw [fat64Open]
  refine wp_seq (openRoot_spec wf h) ?_
  intro g d' hpost
  obtain ⟨rfl, rfl⟩ := hpost
  exact wp_pure.mpr ⟨vol, R, h, healthy, .refl,
    .dir healthy.root rfl (rootEntry_isDirectory v) rfl fun _ _ hold => hold, .of_eq rfl⟩

/-- A handle on a directory, by its parts. -/
theorem HandleOk.onDirectory (ok : HandleOk vol R f) (hdir : f.OnDirectory) :
    f.cluster ∈ R.dirs ∧ f.entry.file = f.cluster ∧ f.dirty = false ∧
      ∀ i, i < 8 → (slot f.buf i).Valid → (slot (vol.chunk f.cluster) i).Valid := by
  cases ok with
  | closed cluster clean => exact absurd cluster hdir.1
  | dir cluster file isDir clean old => exact ⟨cluster, file, clean, old⟩
  | file onFile => exact absurd hdir.2 onFile.plain

/-- A free entry on the disk is free in the buffer of the handle, too. -/
theorem HandleOk.slot_lt (h : Shows v d vol) (healthy : Healthy v vol R) (ok : HandleOk vol R f)
    (hdir : f.OnDirectory) (hslot : HasSlot v d f) : (getFreeDirEntry f.buf).toNat < 8 := by
  obtain ⟨hcluster, hfile, -, hold⟩ := ok.onDirectory hdir
  obtain ⟨i, hi, hinvalid⟩ := hslot
  rw [hfile, h.chunk _ (healthy.data _ (Or.inl hcluster))] at hinvalid
  exact (getFreeDirEntry_lt (getFreeDirEntry_ne hi fun hvalid => hinvalid (hold i hi hvalid))).1

/-- **Creating a file** where there is a slot and a free cluster: the entry is saved in the
directory. -/
theorem fat64Touch_continues (wf : v.Wf) (h : Shows v d vol) (healthy : Healthy v vol R)
    (ok : HandleOk vol R f) (hdir : f.OnDirectory) (hslot : HasSlot v d f)
    (hfree : HasFreeCluster v d) (name : FileName) :
    wp (fat64Touch v f name) (fun r d' => Continues v d vol R r.2 d') E d := by
  obtain ⟨hcluster, hfile, hclean, -⟩ := ok.onDirectory hdir
  have hdata := healthy.data _ (Or.inl hcluster)
  have hnum := ok.slot_lt h healthy hdir hslot
  refine wp_mono (fat64Touch_spec wf h healthy.reserved (h.hasFree hfree) hdata
    (by rw [hfile]; exact hdata) hnum name) ?_ fun _ he => he
  intro r d' hpost
  obtain ⟨rfl, c, hc, htag, h', hsaves⟩ := hpost
  have hplain : ¬ (newFile f name c (getFreeDirEntry f.buf) 0 validFlag).entry.IsDirectory :=
    show ¬ (validFlag &&& directoryFlag ≠ 0) by decide
  obtain ⟨healthy', grows⟩ := (healthy.addFile hc htag clusterTagEof).putEntry
    (e := (newFile f name c (getFreeDirEntry f.buf) 0 validFlag).entry)
    ⟨by rw [← hfile] at hcluster; exact hcluster, hnum, fun hd => absurd hd hplain,
      fun _ => Or.inl rfl⟩ (show validFlag &&& validFlag ≠ 0 by decide)
  have hgrows : Grows vol R (vol.touch f name c) { R with files := insert c R.files } := by
    have hmarked : Grows vol R (vol.setTag c ⟨clusterTagEof, clusterTagEof⟩)
        { R with files := insert c R.files } :=
      .of_chunk subset_rfl (Set.subset_insert c _) fun _ _ => rfl
    exact hmarked.trans grows
  have hok : HandleOk vol R { f with buf := vol.chunk f.cluster } :=
    .dir hcluster hfile hdir.2 hclean fun _ _ hold => hold
  exact ⟨_, _, h', healthy', hgrows, hok.mono hgrows, hsaves⟩

/-- Stores into different clusters in either order. -/
theorem Volume.putEntry_setChunk (vol : Volume) {e : Entry} (b : Cluster) (hne : e.parent ≠ c) :
    (vol.putEntry e).setChunk c b = (vol.setChunk c b).putEntry e := by
  rw [putEntry, putEntry, setChunk_chunk, if_neg hne, setChunk, setChunk, setChunk, setChunk]
  exact congrArg (Volume.mk vol.tag) (Function.update_comm hne _ _ _)

/-- **Creating a directory** under the same conditions: its cluster is saved too. -/
theorem fat64Mkdir_continues (wf : v.Wf) (h : Shows v d vol) (healthy : Healthy v vol R)
    (ok : HandleOk vol R f) (hdir : f.OnDirectory) (hslot : HasSlot v d f)
    (hfree : HasFreeCluster v d) (name : FileName) :
    wp (fat64Mkdir v f name) (fun r d' => Continues v d vol R r.2 d') E d := by
  obtain ⟨hcluster, hfile, -, -⟩ := ok.onDirectory hdir
  have hnum := ok.slot_lt h healthy hdir hslot
  refine wp_mono (fat64Mkdir_spec wf h healthy.reserved (h.hasFree hfree)
    (by rw [hfile]; exact healthy.data _ (Or.inl hcluster)) hnum name) ?_ fun _ he => he
  intro r d' hpost
  obtain ⟨rfl, c, hc, htag, h', hsaves⟩ := hpost
  have hparent : f.entry.file ≠ c := by
    rw [hfile]
    exact fun heq => healthy.not_dir htag (heq ▸ hcluster)
  rw [Volume.mkdir, Volume.putEntry_setChunk _ _ hparent] at h'
  obtain ⟨healthy', grows⟩ := (healthy.addDir hc htag).putEntry
    (e := (newFile f name c (getFreeDirEntry f.buf) (UInt64.ofNat clusterSize)
      (validFlag ||| directoryFlag)).entry)
    ⟨Or.inr (by rw [← hfile] at hcluster; exact hcluster), hnum, fun _ => Or.inl rfl,
      fun hplain => absurd (show (validFlag ||| directoryFlag) &&& directoryFlag ≠ 0 by decide)
        hplain⟩
    (show (validFlag ||| directoryFlag) &&& validFlag ≠ 0 by decide)
  have hgrows : Grows vol R
      ((vol.setTag c ⟨clusterTagEof, clusterTagEof⟩).setChunk c fun _ => 0)
      { R with dirs := insert c R.dirs } := by
    refine .of_chunk (Set.subset_insert c _) subset_rfl fun x hx => ?_
    have hne : x ≠ c := fun heq => healthy.not_dir htag (heq ▸ hx)
    rw [Volume.setChunk_chunk, if_neg hne]
    rfl
  have hall := hgrows.trans grows
  exact ⟨_, _, h', healthy', hall, ok.mono hall, hsaves⟩

/-- **Opening an entry** saves nothing, and the new handle is on what the entry names. -/
theorem fat64DirEntry_continues (h : Shows v d vol) (healthy : Healthy v vol R)
    (ok : HandleOk vol R f) (hdir : f.OnDirectory) (ok' : HandleOk vol R g) {index : UInt64}
    (hindex : index ≠ 8) :
    wp (fat64DirEntry v f index g)
      (fun r d' => d' = d ∧ HandleOk vol R r.2.1 ∧ HandleOk vol R r.2.2) E d := by
  obtain ⟨hcluster, hfile, hclean, -⟩ := ok.onDirectory hdir
  have hnamed := healthy.entries _ hcluster
  have hdata : ∀ e : Entry, e.Named R → v.Data e.file := by
    intro e he
    by_cases hd : e.IsDirectory
    · exact healthy.data _ (Or.inl (he.dir hd))
    · exact healthy.data _ (Or.inr (he.file hd))
  refine wp_mono (fat64DirEntry_spec h (healthy.data _ (Or.inl hcluster)) hindex
    fun hlt hvalid => hdata _ (hnamed _ hlt hvalid)) ?_ fun _ he => he
  intro r d' hpost
  obtain ⟨rfl, hr, hcases⟩ := hpost
  refine ⟨rfl, ?_, ?_⟩
  · rw [hr]
    exact .dir hcluster hfile hdir.2 hclean fun _ _ hold => hold
  · rcases hcases with ⟨-, hg, -⟩ | ⟨-, hlt, hvalid, hg⟩
    · rw [hg]
      exact ok'
    · rw [hg]
      exact .opened healthy (hnamed _ hlt hvalid) hvalid

/-- With one handle for both, the handle ends up closed. -/
theorem fat64DirEntrySame_continues (h : Shows v d vol) (healthy : Healthy v vol R)
    (ok : HandleOk vol R f) (hdir : f.OnDirectory) {index : UInt64} (hindex : index ≠ 8) :
    wp (fat64DirEntrySame v f index) (fun r d' => Continues v d vol R r.2 d') E d := by
  obtain ⟨hcluster, hfile, hclean, -⟩ := ok.onDirectory hdir
  refine wp_mono (fat64DirEntrySame_spec h (healthy.data _ (Or.inl hcluster)) hindex) ?_
    fun _ he => he
  intro r d' hpost
  obtain ⟨rfl, hcases⟩ := hpost
  rcases hcases with hr | ⟨hclosed, hdirty⟩
  · rw [hr]
    exact ⟨vol, R, h, healthy, .refl, .dir hcluster hfile hdir.2 hclean fun _ _ hold => hold,
      .of_eq rfl⟩
  · exact ⟨vol, R, h, healthy, .refl, .closed hclosed hdirty, .of_eq rfl⟩

/-! ## Sessions -/

/-- A well-formed file system, and handles that fit it. -/
def Session.Ok (v : Partition) (s : Session) : Prop :=
  ∃ vol R, Shows v s.disk vol ∧ Healthy v vol R ∧ ∀ h, HandleOk vol R (s.handle h)

/-- Nothing is removed, and what is called on directories is called on handles of
directories, to which entries are added only while one is free. -/
def Call.Orderly (v : Partition) (s : Session) : Call → Prop
  | .rm _ => False
  | .dirEntry h _ _ => (s.handle h).OnDirectory
  | .touch h _ | .mkdir h _ => (s.handle h).OnDirectory ∧ HasSlot v s.disk (s.handle h)
  | _ => True

/-- A cluster is free for what is created, the index is not 8, and no byte is put into a
directory. -/
def Call.Careful (v : Partition) (s : Session) : Call → Prop
  | .touch _ _ | .mkdir _ _ => HasFreeCluster v s.disk
  | .dirEntry _ index _ => index ≠ 8
  | .putc h _ | .write h _ => ¬ (s.handle h).OnDirectory
  | _ => True

/-- A request on one handle leaves the others as they are. -/
theorem onHandle_ok {s : Session} {h : Nat} {x : File → Fat File}
    (oks : ∀ k, HandleOk vol R (s.handle k))
    (hx : wp (x (s.handle h)) (fun f d' => Continues v s.disk vol R f d') E s.disk) :
    wp (onHandle h x) (fun _ t => t.Ok v ∧ Saves v s.disk t.disk) E s := by
  refine wp_onHandle (wp_mono hx ?_ fun _ he => he)
  intro f d' hcont
  obtain ⟨vol', R', h', healthy', grows, ok, hsaves⟩ := hcont
  refine ⟨⟨vol', R', h', healthy', fun k => ?_⟩, hsaves⟩
  dsimp only
  rw [Function.update_apply]
  split
  · exact ok
  · exact (oks k).mono grows

/-- **One call** keeps the file system well formed and saves data sectors only. -/
theorem Call.run_ok (wf : v.Wf) {s : Session} (ok : s.Ok v) (c : Call) (orderly : c.Orderly v s)
    (careful : c.Careful v s) :
    wp (c.run v) (fun _ t => t.Ok v ∧ Saves v s.disk t.disk) (fun _ => True) s := by
  obtain ⟨vol, R, hshows, healthy, oks⟩ := ok
  cases c with
  | openRoot h =>
    rw [run]
    refine onHandle_ok oks ?_
    exact wp_map.mpr (fat64Open_continues wf hshows healthy)
  | reopen h => exact onHandle_ok oks (fat64Reopen_continues hshows healthy (oks h))
  | close h =>
    rw [run]
    refine onHandle_ok oks ?_
    rw [wp_map, fat64Close]
    refine wp_seq (saveCluster_continues wf hshows healthy (oks h)) ?_
    intro g d' hcont
    obtain ⟨vol', R', h', healthy', grows, -, hsaves⟩ := hcont
    exact wp_pure.mpr ⟨vol', R', h', healthy', grows, .closed rfl rfl, hsaves⟩
  | rm h => exact orderly.elim
  | putc h data =>
    rw [run]
    refine onHandle_ok oks ?_
    rw [wp_map]
    refine wp_mono (fat64Putc_continues wf hshows healthy (oks h) careful data) ?_ fun _ he => he
    intro _ _ hpost
    exact hpost.1
  | write h data =>
    rw [run]
    refine onHandle_ok oks ?_
    exact wp_map.mpr (writeLoop_continues wf data turns 0 hshows healthy (oks h) careful)
  | flush h => exact onHandle_ok oks (saveCluster_continues wf hshows healthy (oks h))
  | dirEntry h index g =>
    rw [run]
    split
    · refine onHandle_ok oks ?_
      exact wp_map.mpr (fat64DirEntrySame_continues hshows healthy (oks h) orderly careful)
    · refine wp_onHandles ?_
      rw [wp_map]
      refine wp_mono (fat64DirEntry_continues hshows healthy (oks h) orderly (oks g) careful) ?_
        fun _ he => he
      intro r d' hpost
      obtain ⟨rfl, ok₁, ok₂⟩ := hpost
      refine ⟨⟨vol, R, hshows, healthy, fun k => ?_⟩, .of_eq rfl⟩
      dsimp only
      rw [Function.update_apply, Function.update_apply]
      split
      · exact ok₂
      · split
        · exact ok₁
        · exact oks k
  | touch h name =>
    rw [run]
    refine onHandle_ok oks ?_
    exact wp_map.mpr
      (fat64Touch_continues wf hshows healthy (oks h) orderly.1 orderly.2 careful name)
  | mkdir h name =>
    rw [run]
    refine onHandle_ok oks ?_
    exact wp_map.mpr
      (fat64Mkdir_continues wf hshows healthy (oks h) orderly.1 orderly.2 careful name)

/-- The root directory alone. -/
def rootRegion (v : Partition) : Region := ⟨{UInt64.ofNat v.rootDir}, ∅⟩

/-- With every data cluster empty, a region of the root directory alone is healthy. -/
theorem Healthy.of_root (wf : v.Wf) (hres : ∀ c, c.toNat ≤ v.rootDir → vol.tag c ≠ freeTags)
    (hempty : ∀ c, v.Data c → vol.chunk c = fun _ => 0) : Healthy v vol (rootRegion v) := by
  have hroot := wf.root
  have hsectors := wf.sectors
  have hnum : (UInt64.ofNat v.rootDir).toNat = v.rootDir :=
    UInt64.toNat_ofNat_of_lt' (show v.rootDir < 2 ^ 64 by omega)
  have hdata : v.Data (UInt64.ofNat v.rootDir) := ⟨hnum.ge, by rw [hnum]; exact hroot⟩
  refine ⟨fun c hc => hres c (by omega), rfl, fun c hc => ?_, fun c hc => ?_, fun c hc => hc.elim,
    fun c hc => hc.elim, fun c hc i _ hvalid => ?_⟩
  · rcases hc with rfl | hc
    · exact hdata
    · exact hc.elim
  · rcases hc with rfl | hc
    · exact hres _ hnum.le
    · exact hc.elim
  · rcases hc with rfl
    rw [hempty _ hdata] at hvalid
    exact absurd hvalid (slot_zero i)

/-- A disk on which no handle is open. -/
def Disk.session (d : Disk) : Session := ⟨d, fun _ => .fresh⟩

variable {s t : Session} {tr : List (Session × Call)}

/-- Opening the root directory through the handle 0 of a new session. -/
theorem openRoot_run (wf : v.Wf) (h : Shows v d vol) (good : Session → Call → Prop)
    (hgood : good d.session (.openRoot 0)) :
    ∃ s, Runs (Call.run v) good d.session [(d.session, .openRoot 0)] s ∧ s.disk = d ∧
      (s.handle 0).OnDirectory ∧ (s.handle 0).cluster = UInt64.ofNat v.rootDir ∧
      (s.handle 0).entry.file = UInt64.ofNat v.rootDir ∧
      (s.handle 0).buf = vol.chunk (UInt64.ofNat v.rootDir) := by
  have hne : UInt64.ofNat v.rootDir ≠ 0 := by
    intro heq
    have hroot := wf.root
    have htable := wf.table
    have hsectors := wf.sectors
    have hnum : (UInt64.ofNat v.rootDir).toNat = v.rootDir :=
      UInt64.toNat_ofNat_of_lt' (show v.rootDir < 2 ^ 64 by omega)
    rw [heq] at hnum
    have hzero : (0 : UInt64).toNat = 0 := rfl
    omega
  have hopen : wp (Call.run v (.openRoot 0)) (fun _ s => s.disk = d ∧
      (s.handle 0).OnDirectory ∧ (s.handle 0).cluster = UInt64.ofNat v.rootDir ∧
      (s.handle 0).entry.file = UInt64.ofNat v.rootDir ∧
      (s.handle 0).buf = vol.chunk (UInt64.ofNat v.rootDir)) (fun _ => False) d.session := by
    rw [Call.run]
    refine wp_onHandle ?_
    rw [wp_map, fat64Open]
    refine wp_seq (openRoot_spec wf h) ?_
    intro g d' hpost
    obtain ⟨rfl, rfl⟩ := hpost
    refine wp_pure.mpr ⟨rfl, ?_⟩
    dsimp only
    rw [Function.update_self]
    exact ⟨⟨hne, rootEntry_isDirectory v⟩, rfl, rfl, rfl⟩
  obtain ⟨_, s, hrun, hpost⟩ := wp_returns hopen
  have hstart : Runs (Call.run v) good d.session [] d.session := .nil
  exact ⟨s, hstart.snoc hgood hrun, hpost⟩

end Cumulonimbus.Fat64
