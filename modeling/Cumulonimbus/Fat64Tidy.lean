import Cumulonimbus.Fat64Chains

/-!
# One handle for each file

What the calls do to an exact census and to the handles on it.  A handle on a file has the tags
of its cluster, and knows when it stands at the end of the file.
-/

namespace Cumulonimbus.Fat64

open Exec Linked

attribute [local irreducible] wp

/-- A handle on a file, with the tags of its cluster. -/
structure Tracks (vol : Volume) (S : Census) (f : File) : Prop extends HoldsFile S f where
  tags : f.currentTags = vol.tag f.cluster
  within : f.location ≠ eof32 → f.location.toNat < clusterSize
  atEnd : f.location = eof32 → f.currentTags.next = clusterTagEof

/-- A handle that is closed, has been used to remove its file, or is open. -/
inductive Steady (v : Partition) (vol : Volume) (S : Census) (f : File) : Prop
  | closed (cluster : f.cluster = 0) (clean : f.dirty = false)
  | removed (cluster : f.cluster = clusterTagEof) (flags : f.entry.flags = 0)
  | dir (holds : HoldsDir v S f)
      (top : f.entry.file = UInt64.ofNat v.rootDir → f.entry.parent = UInt64.ofNat v.rootDir)
  | file (tracks : Tracks vol S f)

/-- The handle is open, and its file has not been removed through it. -/
def File.Open (f : File) : Prop := f.cluster ≠ 0 ∧ f.Live

/-- What a call on the handle `f` leaves in it: nothing, what it was open on, or the root
directory.  The tags of other files stay as they are. -/
def Advances (v : Partition) (vol : Volume) (S : Census) (f g : File) (d : Disk) : Prop :=
  ∃ vol' S' head, Shows v d vol' ∧ Exact v vol' S' ∧ Evolves head vol S vol' S' ∧
    (head = 0 ∨ (f.Open ∧ head = f.entry.file)) ∧ Steady v vol' S' g ∧
    (g.Open → (f.Open ∧ g.entry.file = f.entry.file) ∨ g.entry.file = UInt64.ofNat v.rootDir)

/-- A handle on a file, after a byte has been written. -/
def Writes (v : Partition) (vol : Volume) (S : Census) (f g : File) (d : Disk) : Prop :=
  ∃ vol' S', Shows v d vol' ∧ Exact v vol' S' ∧ Evolves f.entry.file vol S vol' S' ∧
    Tracks vol' S' g ∧ g.entry.file = f.entry.file

variable {v : Partition} {d : Disk} {vol vol' : Volume} {S S' : Census} {f g k : File}
  {e : Entry} {c head : UInt64} {E : Spin → Prop}

/-! ## Handles -/

/-- A handle on another file is as before. -/
theorem Tracks.mono (h : Tracks vol S f) (evolves : Evolves head vol S vol' S')
    (hne : f.entry.file ≠ head) : Tracks vol' S' f := by
  have hown : S.own f.cluster ≠ head := by
    rw [h.own]
    exact hne
  exact ⟨h.toHoldsFile.mono evolves.sub, h.tags.trans (evolves.others _ h.cluster hown).symm,
    h.within, h.atEnd⟩

/-- A handle that tracks a file is open. -/
theorem Tracks.open (wf : v.Wf) (sane : Sane v vol S) (h : Tracks vol S f) : f.Open :=
  ⟨(h.data sane).ne_zero wf, (h.data sane).ne_eof wf⟩

/-- Whatever is not what has changed is steady still. -/
theorem Steady.mono (wf : v.Wf) (sane : Sane v vol S) (h : Steady v vol S f)
    (evolves : Evolves head vol S vol' S')
    (hne : f.Open → f.entry.file ∈ S.files → f.entry.file ≠ head) : Steady v vol' S' f := by
  cases h with
  | closed cluster clean => exact .closed cluster clean
  | removed cluster flags => exact .removed cluster flags
  | dir holds top => exact .dir (holds.mono evolves.sub) top
  | file tracks => exact .file (tracks.mono evolves (hne (tracks.open wf sane) tracks.head))

/-- The handle moves to another cluster of its file. -/
theorem Tracks.moved (h : HoldsFile S f) (sane : Sane v vol S) (hc : c ∈ S.files)
    (hown : S.own c = f.entry.file) : Tracks vol S (f.moved vol c) :=
  ⟨h.moved sane hc hown, rfl, fun _ => location_zero_lt,
    fun hloc => absurd hloc (show (0 : UInt32) ≠ eof32 by decide)⟩

/-! ## Writing -/

/-- Before a byte is written the file has grown, or cannot grow and nothing has changed. -/
theorem putcExtend_writes (wf : v.Wf) (hshows : Shows v d vol) (exact : Exact v vol S)
    (h : Tracks vol S f) :
    wp (putcExtend v f)
      (fun r d' => (r = (.eof, f) ∧ d' = d) ∨ (r.1 = .success ∧ r.2.location ≠ eof32 ∧
        Writes v vol S f r.2 d')) E d := by
  refine wp_mono (putcExtend_spec wf hshows exact.reserved (h.data exact.toSane)) ?_
    fun _ he => he
  intro r d' hpost
  rcases hpost with ⟨rfl, hloc, rfl⟩ | ⟨rfl, -, rfl, -⟩ | ⟨hloc, -, c, hc, hfree, rfl, h', -⟩
  · exact Or.inr ⟨rfl, hloc, vol, S, hshows, exact, .refl, h, rfl⟩
  · exact Or.inl ⟨rfl, rfl⟩
  · obtain ⟨grown, evolves⟩ := exact.extend wf h.toHoldsFile hc hfree h.tags (h.atEnd hloc)
    have holds : HoldsFile (S.grow c f.entry.file) { f with dirty := false } :=
      (h.toHoldsFile.mono evolves.sub).dirty false
    exact Or.inr ⟨rfl, show (0 : UInt32) ≠ eof32 by decide, _, _, h', grown, evolves,
      Tracks.moved holds grown.toSane (Or.inl rfl) (Function.update_self ..), rfl⟩

/-- Storing a byte is no matter of tags. -/
theorem Volume.grow_tag (vol : Volume) (f : File) (data : UInt8) :
    (vol.grow f data).tag = vol.tag := by
  rw [Volume.grow]
  split <;> rfl

/-- A byte more in the buffer is the same file. -/
theorem File.stored_file (f : File) (data : UInt8) :
    (f.stored data).entry.file = f.entry.file := by
  rw [File.stored]
  dsimp only
  split <;> rfl

/-- Where no tags change, nothing else is needed of the volume. -/
theorem Evolves.of_tag (h : vol'.tag = vol.tag) : Evolves head vol S vol' S :=
  ⟨.refl, fun x _ _ => congrFun h x⟩

/-- **A byte is written.** -/
theorem fat64Putc_writes (wf : v.Wf) (hshows : Shows v d vol) (exact : Exact v vol S)
    (h : Tracks vol S f) (data : UInt8) :
    wp (fat64Putc v f data) (fun r d' => Writes v vol S f r.2 d') E d := by
  have hstays : Writes v vol S f f d := ⟨vol, S, hshows, exact, .refl, h, rfl⟩
  rw [fat64Putc, wp_ite]
  refine ⟨fun _ => wp_pure.mpr hstays, fun _ => ?_⟩
  refine wp_seq (putcExtend_writes wf hshows exact h) ?_
  intro r d₁ hpost
  rw [wp_ite]
  rcases hpost with ⟨rfl, rfl⟩ | ⟨hstat, hloc, hwrites⟩
  · exact ⟨fun _ => wp_pure.mpr hstays, fun hstat => absurd (not_not.mp hstat) (by simp)⟩
  refine ⟨fun hne => absurd hstat hne, fun _ => ?_⟩
  obtain ⟨vol₁, S₁, h₁, exact₁, evolves₁, tracks₁, hfile₁⟩ := hwrites
  have hlt := tracks₁.within hloc
  refine wp_seq (putcStore_spec wf h₁ (exact₁.data _ (Or.inl tracks₁.known.parent))
    tracks₁.known.num data) ?_
  intro g d₂ hpost
  obtain ⟨rfl, h₂, -⟩ := hpost
  have holds₂ := tracks₁.toHoldsFile.stored data
  have hfile₂ : (r.2.stored data).entry.file = f.entry.file :=
    (r.2.stored_file data).trans hfile₁
  have exact₂ : Exact v (vol₁.grow r.2 data) S₁ := by
    rw [Volume.grow]
    split
    · exact exact₁.putEntry holds₂.known holds₂.valid holds₂.plain
    · exact exact₁
  have htag₂ := vol₁.grow_tag r.2 data
  have evolves₂ : Evolves f.entry.file vol S (vol₁.grow r.2 data) S₁ :=
    evolves₁.trans (.of_tag htag₂)
  have htags₂ : (r.2.stored data).currentTags =
      (vol₁.grow r.2 data).tag (r.2.stored data).cluster := by
    rw [htag₂]
    exact tracks₁.tags
  have hnum : (r.2.stored data).location.toNat = r.2.location.toNat + 1 :=
    advanced_location (f := r.2) hlt
  refine wp_seq (putcEnd_spec wf h₂ (holds₂.data exact₂.toSane) (holds₂.nextData exact₂.toSane)) ?_
  intro g d₃ hpost
  rcases hpost with ⟨hne, rfl, rfl⟩ | ⟨-, h₃, -, rfl⟩
  · have hin : (r.2.stored data).location.toNat < clusterSize := by omega
    refine wp_pure.mpr ⟨_, S₁, h₂, exact₂, evolves₂, ⟨holds₂, htags₂, fun _ => hin, ?_⟩, hfile₂⟩
    intro heof
    rw [heof] at hin
    exact absurd hin (by decide)
  have exact₃ := exact₂.save holds₂.cluster
  have htag₃ := (vol₁.grow r.2 data).save_tag (r.2.stored data)
  have evolves₃ := evolves₂.trans (.of_tag htag₃)
  by_cases heof : (r.2.stored data).currentTags.next = clusterTagEof
  · rw [if_pos heof]
    have holds₃ : HoldsFile S₁ { r.2.stored data with dirty := false, location := eof32 } :=
      ⟨holds₂.cluster, holds₂.own, holds₂.known, holds₂.valid, holds₂.plain, holds₂.next⟩
    refine wp_pure.mpr ⟨_, S₁, h₃, exact₃, evolves₃, ⟨holds₃, ?_, fun hne => absurd rfl hne,
      fun _ => heof⟩, hfile₂⟩
    rw [htag₃]
    exact htags₂
  · rw [if_neg heof]
    obtain ⟨hmem, hown, -⟩ := holds₂.next.resolve_left heof
    exact wp_pure.mpr ⟨_, S₁, h₃, exact₃, evolves₃,
      Tracks.moved (holds₂.dirty false) exact₃.toSane hmem hown, hfile₂⟩

/-- Bytes are written, one after the other. -/
theorem writeLoop_writes (wf : v.Wf) (data : List UInt8) (n : Nat) (i : UInt32)
    (hshows : Shows v d vol) (exact : Exact v vol S) (h : Tracks vol S f) :
    wp (writeLoop v data n i f) (fun r d' => Writes v vol S f r.2 d') (fun _ => True) d := by
  induction n generalizing i f d vol S with
  | zero =>
    rw [writeLoop]
    exact wp_throw.mpr trivial
  | succ n ih =>
    rw [writeLoop, wp_ite]
    refine ⟨fun _ => ?_, fun _ => wp_pure.mpr ⟨vol, S, hshows, exact, .refl, h, rfl⟩⟩
    refine wp_seq (fat64Putc_writes wf hshows exact h _) ?_
    intro r d₁ hpost
    rw [wp_ite]
    refine ⟨fun _ => wp_pure.mpr hpost, fun _ => ?_⟩
    obtain ⟨vol₁, S₁, h₁, exact₁, evolves₁, tracks₁, hfile₁⟩ := hpost
    refine wp_mono (ih (i + 1) h₁ exact₁ tracks₁) ?_ fun _ he => he
    intro r' d₂ hpost
    obtain ⟨vol₂, S₂, h₂, exact₂, evolves₂, tracks₂, hfile₂⟩ := hpost
    rw [hfile₁] at evolves₂
    exact ⟨vol₂, S₂, h₂, exact₂, evolves₁.trans evolves₂, tracks₂, hfile₂.trans hfile₁⟩

/-! ## Opening, saving and closing -/

/-- What is written on a handle that has not been closed or used to remove its file. -/
theorem Writes.advances (h : Writes v vol S f g d) (hopen : f.Open) : Advances v vol S f g d := by
  obtain ⟨vol', S', hshows, exact', evolves, tracks, hfile⟩ := h
  exact ⟨vol', S', _, hshows, exact', evolves, Or.inr ⟨hopen, rfl⟩, .file tracks,
    fun _ => Or.inl ⟨hopen, hfile⟩⟩

/-- Nothing happens to the volume, and the handle stays what it is. -/
theorem Advances.same (hshows : Shows v d vol) (exact : Exact v vol S) (h : Steady v vol S g)
    (hcluster : g.cluster = f.cluster) (hfile : g.entry.file = f.entry.file) :
    Advances v vol S f g d := by
  refine ⟨vol, S, 0, hshows, exact, .refl, Or.inl rfl, h, fun hopen => Or.inl ⟨?_, hfile⟩⟩
  exact ⟨hcluster ▸ hopen.1, fun heof => hopen.2 (hcluster.trans heof)⟩

/-- What the buffer has does not matter to what is held. -/
theorem HoldsDir.setBuf (h : HoldsDir v S f) (b : Cluster) : HoldsDir v S { f with buf := b } :=
  ⟨h.cluster, h.file, h.parent, h.num, h.isDir, h.clean, h.last, h.home⟩

/-- Another buffer. -/
theorem Steady.setBuf (h : Steady v vol S f) (b : Cluster) :
    Steady v vol S { f with buf := b } := by
  cases h with
  | closed cluster clean => exact .closed cluster clean
  | removed cluster flags => exact .removed cluster flags
  | dir holds top => exact .dir (holds.setBuf b) top
  | file tracks =>
    have holds : HoldsFile S { f with buf := b } :=
      ⟨tracks.cluster, tracks.own, tracks.known, tracks.valid, tracks.plain, tracks.next⟩
    exact .file ⟨holds, tracks.tags, tracks.within, tracks.atEnd⟩

/-- The handle of an entry in its place. -/
theorem Steady.opened (exact : Exact v vol S) (he : e.Known S) (hvalid : e.Valid) :
    Steady v vol S (g.opened vol e) := by
  cases Held.opened (g := g) exact.toSane he hvalid with
  | closed cluster clean => exact .closed cluster clean
  | removed cluster flags => exact .removed cluster flags
  | dir holds placed =>
    refine .dir holds fun hroot => absurd hroot ?_
    exact exact.head_ne_root (exact.head_of_known he)
  | file holds placed =>
    exact .file ⟨holds, rfl, fun _ => location_zero_lt,
      fun hloc => absurd hloc (show (0 : UInt32) ≠ eof32 by decide)⟩

/-- **Opening the root directory** changes nothing. -/
theorem fat64Open_advances (wf : v.Wf) (hshows : Shows v d vol) (exact : Exact v vol S) :
    wp (fat64Open v f) (fun r d' => Advances v vol S f r.2 d') E d := by
  rw [fat64Open]
  refine wp_seq (openRoot_spec wf hshows) ?_
  intro g d' hpost
  obtain ⟨rfl, rfl⟩ := hpost
  have holds : HoldsDir v S { f.clear with
      entry := rootEntry v
      cluster := UInt64.ofNat v.rootDir
      buf := vol.chunk (UInt64.ofNat v.rootDir)
      currentTags := vol.tag (UInt64.ofNat v.rootDir) } :=
    ⟨exact.root, rfl, exact.root, show (0 : UInt32).toNat < 8 by decide, rootEntry_isDirectory v,
      rfl, exact.last _ exact.root, fun hne => absurd rfl hne⟩
  exact wp_pure.mpr ⟨vol, S, 0, hshows, exact, .refl, Or.inl rfl, .dir holds fun _ => rfl,
    fun _ => Or.inr rfl⟩

/-- **Loading the buffer again** changes nothing on the disk. -/
theorem fat64Reopen_advances (hshows : Shows v d vol) (exact : Exact v vol S)
    (h : Steady v vol S f) : wp (fat64Reopen v f) (fun g d' => Advances v vol S f g d') E d :=
  wp_of_eq (loadCluster_eq f d) (.same hshows exact (h.setBuf _) rfl rfl)

/-- Only a handle on a file saves its buffer. -/
theorem saveCluster_tidy (wf : v.Wf) (hshows : Shows v d vol) (exact : Exact v vol S)
    (h : Steady v vol S f) (live : f.Live) :
    wp (saveCluster v f)
      (fun g d' => ∃ vol', Shows v d' vol' ∧ Exact v vol' S ∧ vol'.tag = vol.tag ∧
        Steady v vol' S g ∧ g.cluster = f.cluster ∧ g.entry.file = f.entry.file) E d := by
  have hclean : f.dirty = false → wp (saveCluster v f)
      (fun g d' => ∃ vol', Shows v d' vol' ∧ Exact v vol' S ∧ vol'.tag = vol.tag ∧
        Steady v vol' S g ∧ g.cluster = f.cluster ∧ g.entry.file = f.entry.file) E d := by
    intro hclean
    refine wp_mono (saveCluster_clean hclean) ?_ fun _ he => he
    intro g d' hpost
    obtain ⟨rfl, rfl⟩ := hpost
    exact ⟨vol, hshows, exact, rfl, h, rfl, rfl⟩
  cases h with
  | closed cluster clean => exact hclean clean
  | removed cluster flags => exact absurd cluster live
  | dir holds top => exact hclean holds.clean
  | file tracks =>
    refine wp_mono (saveCluster_spec wf hshows (tracks.data exact.toSane)) ?_ fun _ he => he
    intro g d' hpost
    obtain ⟨rfl, h', -⟩ := hpost
    have htag := vol.save_tag f
    have tracks' : Tracks (vol.save f) S { f with dirty := false } := by
      refine ⟨tracks.dirty false, ?_, tracks.within, tracks.atEnd⟩
      rw [htag]
      exact tracks.tags
    exact ⟨_, h', exact.save tracks.cluster, htag, .file tracks', rfl, rfl⟩

/-- **Saving** the buffer of a handle that is not removed. -/
theorem saveCluster_advances (wf : v.Wf) (hshows : Shows v d vol) (exact : Exact v vol S)
    (h : Steady v vol S f) (live : f.Live) :
    wp (saveCluster v f) (fun g d' => Advances v vol S f g d') E d := by
  refine wp_mono (saveCluster_tidy wf hshows exact h live) ?_ fun _ he => he
  intro g d' hpost
  obtain ⟨vol', h', exact', htag, steady', hcluster, hfile⟩ := hpost
  refine ⟨vol', S, 0, h', exact', .of_tag htag, Or.inl rfl, steady', fun hopen => ?_⟩
  refine Or.inl ⟨⟨hcluster ▸ hopen.1, fun heof => hopen.2 (hcluster.trans heof)⟩, hfile⟩

/-- **Closing** saves and forgets. -/
theorem fat64Close_advances (wf : v.Wf) (hshows : Shows v d vol) (exact : Exact v vol S)
    (h : Steady v vol S f) : wp (fat64Close v f) (fun r d' => Advances v vol S f r.2 d') E d := by
  rw [fat64Close]
  have hclosed : ∀ (g : File) (d' : Disk) (vol' : Volume), Shows v d' vol' → Exact v vol' S →
      vol'.tag = vol.tag → Advances v vol S f g.clear d' := fun g d' vol' h' exact' htag =>
    ⟨vol', S, 0, h', exact', .of_tag htag, Or.inl rfl, .closed rfl rfl,
      fun hopen => absurd rfl hopen.1⟩
  by_cases hremoved : f.cluster = clusterTagEof
  · -- the first sectors of the disk are overwritten, before the tag table
    refine wp_seq (saveCluster_low wf hshows fun i hi => ?_) ?_
    · rw [hremoved, clusterSector_eof wf hi]
      omega
    intro g d' h'
    exact wp_pure.mpr (hclosed g d' vol h' exact rfl)
  · refine wp_seq (saveCluster_tidy wf hshows exact h hremoved) ?_
    intro g d' hpost
    obtain ⟨vol', h', exact', htag, -⟩ := hpost
    exact wp_pure.mpr (hclosed g d' vol' h' exact' htag)

/-! ## Calls on a directory -/

/-- A steady handle on a directory holds it. -/
theorem Steady.onDirectory (h : Steady v vol S f) (hdir : f.OnDirectory) : HoldsDir v S f := by
  cases h with
  | closed cluster clean => exact absurd cluster hdir.1
  | removed cluster flags =>
    have hflags : f.entry.flags &&& directoryFlag ≠ 0 := hdir.2
    rw [flags] at hflags
    exact absurd hflags (by decide)
  | dir holds top => exact holds
  | file tracks => exact absurd hdir.2 tracks.plain

/-- The slot that the buffer of a handle shows to be free is free on the disk. -/
theorem HoldsDir.emptySlot (holds : HoldsDir v S f) (hshows : Shows v d vol)
    (exact : Exact v vol S) (hslot : getFreeDirEntry f.buf ≠ eof32)
    (hbuf : f.buf = d.chunk v f.cluster) : (getFreeDirEntry f.buf).toNat < 8 ∧
      ¬ (slot (vol.chunk f.entry.file) (getFreeDirEntry f.buf).toNat).Valid := by
  obtain ⟨hnum, hempty⟩ := getFreeDirEntry_lt hslot
  have hchunk : f.buf = vol.chunk f.entry.file := by
    rw [hbuf, holds.file, hshows.chunk _ (exact.data _ (Or.inl holds.cluster))]
  exact ⟨hnum, by rw [← hchunk]; exact hempty⟩

/-- What is created leaves the chains of the files as they are, and the handle of its directory but
for the buffer. -/
theorem creation_advances (wf : v.Wf) (exact : Exact v vol S) (h : Steady v vol S f)
    (holds : HoldsDir v S f) {x : Fat (Status × File)} {e : UInt64 → Entry}
    {change : UInt64 → Volume} {S' : UInt64 → Census}
    (spec : wp x (fun r d' => ∃ b c, r.2 = { f with buf := b } ∧ v.Data c ∧
      vol.tag c = freeTags ∧ Shows v d' (change c)) E d)
    (creates : ∀ c, v.Data c → vol.tag c = freeTags →
      Creates v vol S (e c) (change c) (S' c)) :
    wp x (fun r d' => Advances v vol S f r.2 d') E d := by
  refine wp_mono spec ?_ fun _ he => he
  rintro r d' ⟨b, c, hr, hc, htag, h'⟩
  obtain ⟨exact', evolves⟩ := (creates c hc htag).exact exact 0
  rw [hr]
  refine ⟨_, _, 0, h', exact', evolves, Or.inl rfl, ?_, fun hopen => Or.inl ⟨hopen, rfl⟩⟩
  refine (h.setBuf b).mono wf exact.toSane evolves fun _ hfile => ?_
  exact absurd holds.file_mem (exact.apart _ hfile)

/-- **Creating a file** in a slot that the disk has empty. -/
theorem fat64Touch_advances (wf : v.Wf) (hshows : Shows v d vol) (exact : Exact v vol S)
    (h : Steady v vol S f) (hdir : f.OnDirectory) (hslot : getFreeDirEntry f.buf ≠ eof32)
    (hbuf : f.buf = d.chunk v f.cluster) (hfree : HasFreeCluster v d) (name : FileName) :
    wp (fat64Touch v f name) (fun r d' => Advances v vol S f r.2 d') E d := by
  have holds := h.onDirectory hdir
  obtain ⟨hnum, hempty⟩ := holds.emptySlot hshows exact hslot hbuf
  refine creation_advances wf exact h holds (wp_mono (fat64Touch_spec wf hshows exact.reserved
      (hshows.hasFree hfree) (exact.data _ (Or.inl holds.cluster))
      (exact.data _ (Or.inl holds.file_mem)) hnum name) ?_ fun _ he => he)
    fun c hc htag => exact.touch holds.file_mem hnum hempty hc htag name
  rintro r d' ⟨rfl, c, hc, htag, h', -⟩
  exact ⟨_, c, rfl, hc, htag, h'⟩

/-- **Creating a directory** in such a slot. -/
theorem fat64Mkdir_advances (wf : v.Wf) (hshows : Shows v d vol) (exact : Exact v vol S)
    (h : Steady v vol S f) (hdir : f.OnDirectory) (hslot : getFreeDirEntry f.buf ≠ eof32)
    (hbuf : f.buf = d.chunk v f.cluster) (hfree : HasFreeCluster v d) (name : FileName) :
    wp (fat64Mkdir v f name) (fun r d' => Advances v vol S f r.2 d') E d := by
  have holds := h.onDirectory hdir
  obtain ⟨hnum, hempty⟩ := holds.emptySlot hshows exact hslot hbuf
  refine creation_advances wf exact h holds (wp_mono (fat64Mkdir_spec wf hshows exact.reserved
      (hshows.hasFree hfree) (exact.data _ (Or.inl holds.file_mem)) hnum name) ?_ fun _ he => he)
    fun c hc htag => exact.mkdir holds.file_mem hnum hempty hc htag name
  rintro r d' ⟨rfl, c, hc, htag, h', -⟩
  exact ⟨f.buf, c, rfl, hc, htag, h'⟩

/-! ## Removing -/

/-- A handle on something else stays as it is when a file or an empty directory goes. -/
theorem Steady.remove (exact : Exact v vol S) (h : Steady v vol S g) {e : Entry}
    (hroot : e.file ≠ UInt64.ofNat v.rootDir)
    (hempty : ∀ x, S.Head v x → (S.home x).1 ≠ e.file)
    (hothers : ∀ x, x ∈ S.files → S.own x ≠ e.file → vol'.tag x = vol.tag x)
    (hne : g.cluster ∈ S.dirs ∨ g.cluster ∈ S.files → g.entry.file ≠ e.file) :
    Steady v vol' (S.remove e.file) g := by
  cases h with
  | closed cluster clean => exact .closed cluster clean
  | removed cluster flags => exact .removed cluster flags
  | dir holds top =>
    refine .dir (holds.remove (hne (Or.inl holds.cluster)) ?_) top
    by_cases htop : g.entry.file = UInt64.ofNat v.rootDir
    · rw [top htop]
      exact hroot.symm
    · have hmem : g.entry.file ∈ S.dirs := by
        rw [holds.file]
        exact holds.cluster
      have hhome := hempty _ (Or.inl ⟨hmem, htop⟩)
      rwa [holds.home htop] at hhome
  | file tracks =>
    have hfile := hne (Or.inr tracks.cluster)
    have hparent : g.entry.parent ≠ e.file := by
      have hhome := hempty _ (exact.head_of_known tracks.known)
      rwa [tracks.known.home] at hhome
    refine .file ⟨tracks.remove hfile hparent, ?_, tracks.within, tracks.atEnd⟩
    rw [hothers _ tracks.cluster (by rw [tracks.own]; exact hfile)]
    exact tracks.tags

/-- **Removing** what a handle at its first cluster is open on. -/
theorem fat64Rm_tidy (wf : v.Wf) (hshows : Shows v d vol) (exact : Exact v vol S)
    (h : Steady v vol S f) (live : f.Live) (hroot : f.entry.file ≠ UInt64.ofNat v.rootDir)
    (hstart : f.cluster = f.entry.file)
    (hempty : f.OnDirectory → ∀ i, i < 8 → ¬ (slot (d.chunk v f.entry.file) i).Valid) :
    wp (fat64Rm v f)
      (fun r d' => (r.2 = f ∧ d' = d) ∨
        (f.cluster ≠ 0 ∧ r.2.cluster = clusterTagEof ∧ r.2.entry.flags = 0 ∧
          (∀ x, S.Head v x → (S.home x).1 ≠ f.entry.file) ∧
          ∃ vol', Shows v d' vol' ∧ Exact v vol' (S.remove f.entry.file) ∧
            ∀ x, x ∈ S.files → S.own x ≠ f.entry.file → vol'.tag x = vol.tag x)) E d := by
  by_cases hclosed : f.cluster = 0
  · rw [fat64Rm, wp_ite]
    exact ⟨fun _ => wp_pure.mpr (Or.inl ⟨rfl, rfl⟩), fun hne => absurd hclosed hne⟩
  cases h with
  | closed cluster clean => exact absurd cluster hclosed
  | removed cluster flags => exact absurd cluster live
  | dir holds top =>
    have hmem : f.entry.file ∈ S.dirs := by
      rw [holds.file]
      exact holds.cluster
    have hdata := exact.data _ (Or.inl hmem)
    have hnone : ∀ x, S.Head v x → (S.home x).1 ≠ f.entry.file := by
      intro x hx heq
      have named := exact.named x hx
      have hvalid := named.valid
      rw [Volume.entryAt, heq, ← hshows.chunk _ hdata] at hvalid
      exact hempty ⟨hclosed, holds.isDir⟩ _ named.num hvalid
    refine wp_mono (fat64Rm_spec (l := []) wf hshows hclosed (exact.data _ (Or.inl holds.parent))
      holds.num hdata (by rw [holds.last, link_eof, path_nil]) (fun x hx => by cases hx)
      List.not_mem_nil) ?_ fun _ he => he
    intro r d' hpost
    obtain ⟨hcluster, hflags, h'⟩ := hpost
    have hfiles : ∀ x, x ∈ S.files → x ∉ [f.entry.file] := by
      intro x hx hl
      rw [List.mem_singleton.mp hl] at hx
      exact exact.apart _ hx hmem
    refine Or.inr ⟨hclosed, hcluster, hflags, hnone, _, h', exact.remove (Or.inl ⟨hmem, hroot⟩)
      (holds.home hroot) hnone ?_ ?_ fun x _ => List.mem_singleton, fun x hx _ =>
        if_neg (hfiles x hx)⟩
    · intro x hx
      rw [List.mem_singleton.mp hx]
      exact hdata
    · refine fun x hx => iff_of_false (hfiles x hx) fun heq => ?_
      exact exact.apart _ (exact.chain x hx).1 (heq ▸ hmem)
  | file tracks =>
    have hhead := tracks.head
    have hown := tracks.known.own tracks.plain
    obtain ⟨l, hpath, hrest, hnot⟩ := tracks.rest wf exact.toSane
    have hfreed : ∀ x ∈ f.entry.file :: l, x ∈ S.files ∧ S.own x = f.entry.file := by
      intro x hx
      rcases List.mem_cons.mp hx with rfl | hx
      · exact ⟨hhead, hown⟩
      · exact hrest x hx
    -- the clusters that go are the whole chain of the file
    have hwhole : Path vol.next (some f.entry.file) (f.entry.file :: l) none := by
      refine ⟨rfl, ?_⟩
      have hnext : vol.next f.entry.file = link f.currentTags.next := by
        rw [Volume.next, tracks.tags, hstart]
      rw [hnext]
      exact hpath
    have hall : ∀ x, x ∈ S.files → (x ∈ f.entry.file :: l ↔ S.own x = f.entry.file) := by
      refine fun x hx => ⟨fun hl => (hfreed x hl).2, fun hxown => ?_⟩
      obtain ⟨-, -, m, hm, hxm⟩ := exact.chain x hx
      rw [hxown] at hm
      rwa [hwhole.unique hm]
    have hnone : ∀ x, S.Head v x → (S.home x).1 ≠ f.entry.file := fun x hx =>
      exact.home_ne hx hhead
    refine wp_mono (fat64Rm_spec wf hshows hclosed (exact.data _ (Or.inl tracks.known.parent))
      tracks.known.num (exact.data _ (Or.inr hhead)) hpath
      (fun x hx => exact.data _ (Or.inr (hrest x hx).1)) hnot) ?_ fun _ he => he
    intro r d' hpost
    obtain ⟨hcluster, hflags, h'⟩ := hpost
    refine Or.inr ⟨hclosed, hcluster, hflags, hnone, _, h', exact.remove (Or.inr ⟨hhead, hown⟩)
      tracks.known.home hnone (fun x hx => exact.data _ (Or.inr (hfreed x hx).1)) hall ?_,
      fun x hx hxown => if_neg fun hl => hxown ((hall x hx).mp hl)⟩
    refine fun x hx => iff_of_false (fun hl => exact.apart _ (hfreed x hl).1 hx) fun heq => ?_
    exact exact.apart _ hhead (heq ▸ hx)

end Cumulonimbus.Fat64
