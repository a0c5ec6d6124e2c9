import Cumulonimbus.Fat64Volume

/-!
# The calls on volumes

What each call of the file system does to the volume and to its handles, where the handle
stands on a data cluster that is in use and its directory entry has a place.  A cluster that
is taken was free before; which one it is does not matter to what follows.
-/

namespace Cumulonimbus.Fat64

open Exec

attribute [local irreducible] wp

variable {v : Partition} {d : Disk} {vol : Volume} {f g : File} {c : UInt64} {b : Cluster}
  {E : Spin → Prop}

/-- The clusters before the root directory are in use. -/
def Volume.Reserves (v : Partition) (vol : Volume) : Prop :=
  ∀ c, c.toNat < v.rootDir → vol.tag c ≠ freeTags

/-- Some cluster is free. -/
def Volume.HasFree (v : Partition) (vol : Volume) : Prop :=
  ∃ c, c.toNat < v.size ∧ vol.tag c = freeTags

/-- The handle moved on to the start of the cluster `c`. -/
def File.moved (f : File) (vol : Volume) (c : UInt64) : File :=
  { f with cluster := c, buf := vol.chunk c, currentTags := vol.tag c, location := 0 }

/-- The last cluster of a file is not free. -/
theorem lastTags_used (prev : UInt64) : (⟨prev, clusterTagEof⟩ : Tags) ≠ freeTags := by
  intro heq
  have hnext : clusterTagEof = clusterTagFree := congrArg Tags.next heq
  exact absurd hnext (by decide)

/-- No data cluster has the number of a closed handle. -/
theorem Partition.Data.ne_zero (wf : v.Wf) (h : v.Data c) : c ≠ 0 := by
  intro heq
  have hroot := h.1
  have htable := wf.table
  have hsize := wf.root
  have hnum : c.toNat = 0 := congrArg UInt64.toNat heq
  omega

/-- A cluster that has another one behind it is not free. -/
theorem linkTags_used (wf : v.Wf) (hc : v.Data c) (prev : UInt64) :
    (⟨prev, c⟩ : Tags) ≠ freeTags :=
  fun heq => hc.ne_zero wf (congrArg Tags.next heq)

/-- A free cluster is taken, or there is none. -/
theorem getFreeCluster_data (wf : v.Wf) (h : Shows v d vol) (hres : vol.Reserves v)
    (prev next : UInt64) :
    wp (getFreeCluster v prev next)
      (fun r d' => (r = clusterTagEof ∧ d' = d ∧ ¬ vol.HasFree v) ∨
        (v.Data r ∧ vol.tag r = freeTags ∧ r ≠ clusterTagEof ∧
          Shows v d' (vol.setTag r ⟨prev, next⟩) ∧ d'.saved = d.saved)) E d := by
  refine wp_mono (getFreeCluster_spec wf h prev next) ?_ fun _ he => he
  intro r d' hpost
  rcases hpost with ⟨hr, hd, hnone⟩ | ⟨hlt, hfree, hshows, hsaved⟩
  · exact Or.inl ⟨hr, hd, fun ⟨c, hc, hfree⟩ => hnone c hc hfree⟩
  · have hroot : v.rootDir ≤ r.toNat := by
      by_contra hlow
      exact hres r (by omega) hfree
    refine Or.inr ⟨⟨hroot, hlt⟩, hfree, fun heq => ?_, hshows, hsaved⟩
    have hsectors := wf.sectors
    have heof : clusterTagEof.toNat = 4294967295 := rfl
    rw [heq] at hlt
    omega

/-- The next cluster is opened at its start. -/
theorem nextCluster_spec (h : Shows v d vol) (hc : v.Data f.currentTags.next) :
    wp (nextCluster v f)
      (fun g d' => g = f.moved vol f.currentTags.next ∧ d' = d) E d := by
  rw [nextCluster]
  refine wp_seq (openCluster_spec (f := { f with cluster := f.currentTags.next }) h hc) ?_
  intro g d' hpost
  obtain ⟨rfl, rfl⟩ := hpost
  exact wp_pure.mpr ⟨rfl, rfl⟩

/-! ## Writing a byte -/

/-- The volume after `c` has been linked behind the cluster of the handle. -/
def Volume.extend (vol : Volume) (f : File) (c : UInt64) : Volume :=
  ((vol.setTag c ⟨f.cluster, clusterTagEof⟩).setTag f.cluster ⟨f.currentTags.prev, c⟩).save f

/-- Nothing happens, the file cannot grow, or it grows by a cluster. -/
theorem putcExtend_spec (wf : v.Wf) (h : Shows v d vol) (hres : vol.Reserves v)
    (hc : v.Data f.cluster) :
    wp (putcExtend v f)
      (fun r d' => (r = (.success, f) ∧ f.location ≠ eof32 ∧ d' = d) ∨
        (r = (.eof, f) ∧ f.location = eof32 ∧ d' = d ∧ (f.entry.IsDirectory ∨ ¬ vol.HasFree v)) ∨
        (f.location = eof32 ∧ ¬ f.entry.IsDirectory ∧ ∃ c, v.Data c ∧ vol.tag c = freeTags ∧
          r = (.success, { f with dirty := false }.moved (vol.extend f c) c) ∧
          Shows v d' (vol.extend f c) ∧ Saves v d d')) E d := by
  rw [putcExtend, wp_ite]
  refine ⟨fun hloc => ?_, fun hloc => wp_pure.mpr (Or.inl ⟨rfl, hloc, rfl⟩)⟩
  rw [wp_ite]
  refine ⟨fun hdir => wp_pure.mpr (Or.inr (Or.inl ⟨rfl, hloc, rfl, Or.inl hdir⟩)), fun hdir => ?_⟩
  refine wp_seq (getFreeCluster_data wf h hres f.cluster clusterTagEof) ?_
  intro r d₁ hpost
  rw [wp_ite]
  rcases hpost with ⟨rfl, rfl, hnone⟩ | ⟨hr, hfree, hne, h₁, hsaved₁⟩
  · exact ⟨fun _ => wp_pure.mpr (Or.inr (Or.inl ⟨rfl, hloc, rfl, Or.inr hnone⟩)),
      fun hne => absurd rfl hne⟩
  refine ⟨fun heq => absurd heq hne, fun _ => ?_⟩
  refine wp_seq (saveClusterTags_spec
    (f := { f with currentTags := { f.currentTags with next := r } }) wf h₁ hc.2) ?_
  intro _ d₂ hpost
  obtain ⟨h₂, hsaved₂⟩ := hpost
  refine wp_seq (saveCluster_spec
    (f := { f with currentTags := { f.currentTags with next := r } }) wf h₂ hc) ?_
  intro g d₃ hpost
  obtain ⟨rfl, h₃, hsaves⟩ := hpost
  refine wp_seq (nextCluster_spec (f := { f with
    currentTags := { f.currentTags with next := r }, dirty := false }) h₃ hr) ?_
  intro g d₄ hpost
  obtain ⟨rfl, rfl⟩ := hpost
  refine wp_pure.mpr (Or.inr (Or.inr ⟨hloc, hdir, r, hr, hfree, rfl, h₃, ?_⟩))
  exact (Saves.of_eq (hsaved₂.trans hsaved₁)).trans hsaves

/-- The handle after a byte has been stored. -/
def File.stored (f : File) (data : UInt8) : File :=
  { f with
    buf := fun k => if k.val = f.location.toNat then data else f.buf k
    location := f.location + 1
    absLocation := f.absLocation + 1
    dirty := true
    entry := if f.entry.size < f.absLocation + 1 then { f.entry with size := f.entry.size + 1 }
      else f.entry }

/-- The volume after the entry of a handle has been written. -/
def Volume.putEntry (vol : Volume) (e : Entry) : Volume :=
  vol.setChunk e.parent (putSlot (vol.chunk e.parent) e.dirEntryNum.toNat e)

/-- The volume after a byte has been stored in the handle. -/
def Volume.grow (vol : Volume) (f : File) (data : UInt8) : Volume :=
  if f.entry.size < f.absLocation + 1 then vol.putEntry (f.stored data).entry else vol

/-- The byte goes into the buffer, and a larger size into the entry. -/
theorem putcStore_spec (wf : v.Wf) (h : Shows v d vol) (hp : v.Data f.entry.parent)
    (hnum : f.entry.dirEntryNum.toNat < 8) (data : UInt8) :
    wp (putcStore v f data)
      (fun g d' => g = f.stored data ∧ Shows v d' (vol.grow f data) ∧ Saves v d d') E d := by
  rw [putcStore, wp_ite]
  refine ⟨fun hgrow => ?_, fun hstay => ?_⟩
  · refine wp_seq (saveDirEntry_spec wf h hp hnum) ?_
    intro _ d' hpost
    obtain ⟨h', hsaves⟩ := hpost
    refine wp_pure.mpr ⟨by rw [File.stored, if_pos hgrow], ?_, hsaves⟩
    rw [Volume.grow, if_pos hgrow, File.stored, if_pos hgrow]
    exact h'
  · refine wp_pure.mpr ⟨by rw [File.stored, if_neg hstay], ?_, .of_eq rfl⟩
    rw [Volume.grow, if_neg hstay]
    exact h

/-- The end of a cluster: it is saved, and the handle moves on, unless it is in the last one.  There
reading and writing differ in what they leave. -/
theorem clusterEnd_spec (wf : v.Wf) (h : Shows v d vol) (hc : v.Data f.cluster)
    (hnext : f.currentTags.next = clusterTagEof ∨ v.Data f.currentTags.next) (last : File → File) :
    wp (if f.location.toNat = clusterSize then do
        let f ← saveCluster v f
        if f.currentTags.next ≠ clusterTagEof then nextCluster v f else return last f
      else return f)
      (fun g d' => (f.location.toNat ≠ clusterSize ∧ g = f ∧ d' = d) ∨
        (f.location.toNat = clusterSize ∧ Shows v d' (vol.save f) ∧ Saves v d d' ∧
          g = if f.currentTags.next = clusterTagEof then last { f with dirty := false }
            else { f with dirty := false }.moved (vol.save f) f.currentTags.next)) E d := by
  rw [wp_ite]
  refine ⟨fun hloc => ?_, fun hloc => wp_pure.mpr (Or.inl ⟨hloc, rfl, rfl⟩)⟩
  refine wp_seq (saveCluster_spec wf h hc) ?_
  intro g d₁ hpost
  obtain ⟨rfl, h₁, hsaves⟩ := hpost
  rw [wp_ite]
  refine ⟨fun hne => ?_, fun heof => ?_⟩
  · refine wp_mono (nextCluster_spec (f := { f with dirty := false }) h₁
      (hnext.resolve_left hne)) ?_ fun _ he => he
    intro g d₂ hpost
    obtain ⟨rfl, rfl⟩ := hpost
    exact Or.inr ⟨hloc, h₁, hsaves, by rw [if_neg hne]⟩
  · exact wp_pure.mpr (Or.inr ⟨hloc, h₁, hsaves, by rw [if_pos (not_not.mp heof)]⟩)

/-- Writing leaves a handle at the end of its file. -/
theorem putcEnd_spec (wf : v.Wf) (h : Shows v d vol) (hc : v.Data f.cluster)
    (hnext : f.currentTags.next = clusterTagEof ∨ v.Data f.currentTags.next) :
    wp (putcEnd v f)
      (fun g d' => (f.location.toNat ≠ clusterSize ∧ g = f ∧ d' = d) ∨
        (f.location.toNat = clusterSize ∧ Shows v d' (vol.save f) ∧ Saves v d d' ∧
          g = if f.currentTags.next = clusterTagEof then
              { f with dirty := false, location := eof32 }
            else { f with dirty := false }.moved (vol.save f) f.currentTags.next)) E d :=
  clusterEnd_spec wf h hc hnext fun f => { f with location := eof32 }

/-- A handle that is not open cannot be written to. -/
theorem fat64Putc_closed (hclosed : f.cluster = 0) (data : UInt8) :
    wp (fat64Putc v f data) (fun r d' => r = (.badHandle, f) ∧ d' = d) E d := by
  rw [fat64Putc, wp_ite]
  exact ⟨fun _ => wp_pure.mpr ⟨rfl, rfl⟩, fun hne => absurd hclosed hne⟩

/-- On a closed handle nothing is written. -/
theorem writeLoop_closed (hclosed : f.cluster = 0) (data : List UInt8) (n : Nat) (i : UInt32) :
    wp (writeLoop v data n i f) (fun r d' => r.2 = f ∧ d' = d) (fun _ => True) d := by
  cases n with
  | zero =>
    rw [writeLoop]
    exact wp_throw.mpr trivial
  | succ n =>
    rw [writeLoop, wp_ite]
    refine ⟨fun _ => ?_, fun _ => wp_pure.mpr ⟨rfl, rfl⟩⟩
    refine wp_seq (fat64Putc_closed hclosed _) ?_
    intro r d' hpost
    obtain ⟨rfl, rfl⟩ := hpost
    rw [wp_ite]
    exact ⟨fun _ => wp_pure.mpr ⟨rfl, rfl⟩, fun hstat => absurd (not_not.mp hstat) (by simp)⟩

/-! ## Reading a byte -/

/-- The handle after a byte has been read, before it leaves its cluster. -/
def File.advanced (f : File) : File :=
  { f with location := f.location + 1, absLocation := f.absLocation + 1 }

/-- Reading leaves a handle where it is, behind its last cluster. -/
theorem getcEnd_spec (wf : v.Wf) (h : Shows v d vol) (hc : v.Data f.cluster)
    (hnext : f.currentTags.next = clusterTagEof ∨ v.Data f.currentTags.next) :
    wp (getcEnd v f)
      (fun g d' => (f.location.toNat ≠ clusterSize ∧ g = f ∧ d' = d) ∨
        (f.location.toNat = clusterSize ∧ Shows v d' (vol.save f) ∧
          g = if f.currentTags.next = clusterTagEof then { f with dirty := false }
            else { f with dirty := false }.moved (vol.save f) f.currentTags.next)) E d :=
  wp_mono (clusterEnd_spec wf h hc hnext id)
    (fun _ _ hpost => hpost.imp_right fun ⟨hloc, h', _, hg⟩ => ⟨hloc, h', hg⟩) fun _ he => he

/-- A byte is read from the buffer, or the handle is closed or behind its file. -/
theorem fat64Getc_spec (wf : v.Wf) (h : Shows v d vol) (hc : f.cluster ≠ 0 → v.Data f.cluster)
    (hnext : f.cluster ≠ 0 → f.currentTags.next = clusterTagEof ∨ v.Data f.currentTags.next) :
    wp (fat64Getc v f)
      (fun r d' => (r.1 ≠ .success ∧ (f.cluster = 0 ∨ f.location = eof32) ∧ r.2.1 = f ∧ d' = d) ∨
        (f.cluster ≠ 0 ∧ f.location ≠ eof32 ∧ r.1 = .success ∧
          r.2.2 = some (f.byteAt f.location.toNat) ∧
          ((f.advanced.location.toNat ≠ clusterSize ∧ r.2.1 = f.advanced ∧ d' = d) ∨
            (f.advanced.location.toNat = clusterSize ∧ Shows v d' (vol.save f) ∧
              r.2.1 = if f.currentTags.next = clusterTagEof then { f.advanced with dirty := false }
                else { f.advanced with dirty := false }.moved (vol.save f)
                  f.currentTags.next)))) E d := by
  rw [fat64Getc, wp_ite]
  refine ⟨fun hclosed => wp_pure.mpr (Or.inl ⟨by simp, Or.inl hclosed, rfl, rfl⟩), fun hopen => ?_⟩
  rw [wp_ite]
  refine ⟨fun hloc => wp_pure.mpr (Or.inl ⟨by simp, Or.inr hloc, rfl, rfl⟩), fun hloc => ?_⟩
  refine wp_seq (getcEnd_spec (f := f.advanced) wf h (hc hopen) (hnext hopen)) ?_
  intro g d' hpost
  exact wp_pure.mpr (Or.inr ⟨hopen, hloc, rfl, rfl, hpost⟩)

/-! ## The choice of a slot -/

/-- An empty cluster has no valid entry. -/
theorem slot_zero (i : Nat) : ¬ (slot (fun _ => 0) i).Valid := by
  have hflags : (slot (fun _ => 0) i).flags = 0 :=
    show Bytes.get32 (fun _ => 0) 304 = 0 from Bytes.get32_zero fun _ _ => rfl
  rw [Entry.Valid, hflags]
  decide

/-- The first invalid slot, or none. -/
theorem getFreeDirEntry_cases (b : Cluster) :
    (getFreeDirEntry b = eof32 ∧ ∀ i, i < 8 → (slot b i).Valid) ∨
      ∃ i, i < 8 ∧ getFreeDirEntry b = UInt32.ofNat i ∧ ¬ (slot b i).Valid ∧
        ∀ j, j < i → (slot b j).Valid := by
  rw [getFreeDirEntry]
  split
  · rename_i i hfind
    obtain ⟨hinvalid, hmem, hbefore⟩ := List.find?_range_eq_some.mp hfind
    refine Or.inr ⟨i, List.mem_range.mp hmem, rfl, by simpa using hinvalid, fun j hj => ?_⟩
    simpa using hbefore j hj
  · rename_i hfind
    refine Or.inl ⟨rfl, fun i hi => ?_⟩
    simpa using List.find?_range_eq_none.mp hfind i hi

/-- The number of a slot is not that of a missing one. -/
theorem ofNat_slot {i : Nat} (hi : i < 8) :
    (UInt32.ofNat i).toNat = i ∧ UInt32.ofNat i ≠ eof32 := by
  have hnum : (UInt32.ofNat i).toNat = i :=
    UInt32.toNat_ofNat_of_lt' (Nat.lt_trans hi (by decide))
  refine ⟨hnum, fun heq => ?_⟩
  rw [heq] at hnum
  have heof : eof32.toNat = 4294967295 := rfl
  omega

/-- The number of a slot is below 8. -/
theorem getFreeDirEntry_lt (h : getFreeDirEntry b ≠ eof32) :
    (getFreeDirEntry b).toNat < 8 ∧ ¬ (slot b (getFreeDirEntry b).toNat).Valid := by
  rcases getFreeDirEntry_cases b with ⟨heof, -⟩ | ⟨i, hi, hnum, hinvalid, -⟩
  · exact absurd heof h
  · rw [hnum, (ofNat_slot hi).1]
    exact ⟨hi, hinvalid⟩

/-- Where some slot is invalid, one is chosen. -/
theorem getFreeDirEntry_ne {i : Nat} (hi : i < 8) (h : ¬ (slot b i).Valid) :
    getFreeDirEntry b ≠ eof32 := by
  rcases getFreeDirEntry_cases b with ⟨-, hfull⟩ | ⟨j, hj, hnum, -, -⟩
  · exact absurd (hfull i hi) h
  · rw [hnum]
    exact (ofNat_slot hj).2

/-- The handle that `fat64_dir_entry` sets up for an entry. -/
def File.opened (f : File) (vol : Volume) (e : Entry) : File :=
  { f.clear with
    entry := e
    cluster := e.file
    buf := vol.chunk e.file
    currentTags := vol.tag e.file }

/-- What lies at an index below 8 of the buffer. -/
theorem ofBytes_byteAt (f : File) {i : Nat} (hi : i < 8) :
    (Entry.ofBytes fun k => f.byteAt (512 * i + k)) = slot f.buf i := by
  refine Entry.ofBytes_congr fun k hk => ?_
  have hlt : 512 * i + k < 4096 := by omega
  rw [File.byteAt, dif_pos hlt]
  exact congrArg f.buf (Fin.ext (Nat.mod_eq_of_lt hlt).symm)

/-- **Opening an entry**: the handle is on what the entry names, or the call refuses. -/
theorem fat64DirEntry_spec (h : Shows v d vol) (hc : v.Data f.cluster) {index : UInt64}
    (hindex : index ≠ 8)
    (hfile : index.toNat < 8 → (slot (vol.chunk f.cluster) index.toNat).Valid →
      v.Data (slot (vol.chunk f.cluster) index.toNat).file) :
    wp (fat64DirEntry v f index g)
      (fun r d' => d' = d ∧ r.2.1 = { f with buf := vol.chunk f.cluster } ∧
        ((r.1 = .eof ∧ r.2.2 = g ∧
            ¬ (index.toNat < 8 ∧ (slot (vol.chunk f.cluster) index.toNat).Valid)) ∨
          (r.1 = .success ∧ index.toNat < 8 ∧ (slot (vol.chunk f.cluster) index.toNat).Valid ∧
            r.2.2 = g.opened vol (slot (vol.chunk f.cluster) index.toNat)))) E d := by
  rw [fat64DirEntry]
  refine wp_seq (loadCluster_spec h hc) ?_
  intro dir d' hpost
  obtain ⟨rfl, rfl⟩ := hpost
  rw [wp_ite]
  refine ⟨fun hfail => wp_pure.mpr ⟨rfl, rfl, Or.inl ⟨rfl, rfl, fun hvalid => ?_⟩⟩,
    fun hvalid => ?_⟩
  · rw [ofBytes_byteAt { f with buf := vol.chunk f.cluster } hvalid.1] at hfail
    rcases hfail with hhigh | hinvalid
    · omega
    · exact hinvalid hvalid.2
  rw [not_or, not_not] at hvalid
  have hlt : index.toNat < 8 := by
    have hne : index.toNat ≠ 8 := fun heq => hindex (UInt64.toNat_inj.mp heq)
    omega
  rw [ofBytes_byteAt { f with buf := vol.chunk f.cluster } hlt] at hvalid ⊢
  dsimp only at hvalid ⊢
  refine wp_seq (openCluster_spec (f := { g.clear with
    entry := slot (vol.chunk f.cluster) index.toNat
    cluster := (slot (vol.chunk f.cluster) index.toNat).file }) h (hfile hlt hvalid.2)) ?_
  intro x d'' hpost
  obtain ⟨rfl, rfl⟩ := hpost
  exact wp_pure.mpr ⟨rfl, rfl, Or.inr ⟨rfl, hlt, hvalid.2, rfl⟩⟩

/-- Opening a cluster reads. -/
theorem openCluster_keeps (f : File) (d : Disk) :
    wp (openCluster v f) (fun g d' => d' = d ∧ g.cluster = f.cluster ∧ g.dirty = f.dirty) E d := by
  rw [openCluster]
  refine wp_seq (R := fun g d' => g = { f with buf := d.chunk v f.cluster } ∧ d' = d)
    (wp_of_eq (loadCluster_eq f d) ⟨rfl, rfl⟩) ?_
  intro g d' hpost
  obtain ⟨rfl, rfl⟩ := hpost
  rw [loadClusterTags, ideRead, wp_bind, wp_bind, wp_get, wp_pure, wp_pure]
  exact ⟨rfl, rfl, rfl⟩

/-- With one handle for both, the entry is lost before it is copied, and nothing is opened. -/
theorem fat64DirEntrySame_spec (h : Shows v d vol) (hc : v.Data f.cluster) {index : UInt64}
    (hindex : index ≠ 8) :
    wp (fat64DirEntrySame v f index)
      (fun r d' => d' = d ∧ (r.2 = { f with buf := vol.chunk f.cluster } ∨
        (r.2.cluster = 0 ∧ r.2.dirty = false))) E d := by
  rw [fat64DirEntrySame]
  refine wp_seq (loadCluster_spec h hc) ?_
  intro g d' hpost
  obtain ⟨rfl, rfl⟩ := hpost
  rw [wp_ite]
  refine ⟨fun _ => wp_pure.mpr ⟨rfl, Or.inl rfl⟩, fun hlow => ?_⟩
  rw [not_or] at hlow
  have hlt : index.toNat < 8 := by
    have hne : index.toNat ≠ 8 := fun heq => hindex (UInt64.toNat_inj.mp heq)
    omega
  have hzero : (slot (fun _ => 0) index.toNat).file = 0 :=
    show Bytes.get64 (fun _ => 0) 256 = 0 from Bytes.get64_zero fun _ _ => rfl
  refine wp_seq (openCluster_keeps _ d') ?_
  intro g d'' hpost
  obtain ⟨rfl, hcluster, hdirty⟩ := hpost
  refine wp_pure.mpr ⟨rfl, Or.inr ⟨hcluster.trans ?_, hdirty⟩⟩
  rw [ofBytes_byteAt _ hlt]
  exact hzero

/-- The volume after `touch` has taken the cluster `c`. -/
def Volume.touch (vol : Volume) (f : File) (name : FileName) (c : UInt64) : Volume :=
  (vol.setTag c ⟨clusterTagEof, clusterTagEof⟩).putEntry
    (newFile f name c (getFreeDirEntry f.buf) 0 validFlag).entry

/-- **Creating a file**: a free cluster is taken and the entry stored. -/
theorem fat64Touch_spec (wf : v.Wf) (h : Shows v d vol) (hres : vol.Reserves v)
    (hfree : vol.HasFree v) (hc : v.Data f.cluster) (hp : v.Data f.entry.file)
    (hnum : (getFreeDirEntry f.buf).toNat < 8) (name : FileName) :
    wp (fat64Touch v f name)
      (fun r d' => r = (.success, { f with buf := vol.chunk f.cluster }) ∧
        ∃ c, v.Data c ∧ vol.tag c = freeTags ∧ Shows v d' (vol.touch f name c) ∧ Saves v d d')
      E d := by
  rw [fat64Touch]
  refine wp_seq (loadCluster_spec h hc) ?_
  intro dir d₁ hpost
  obtain ⟨rfl, rfl⟩ := hpost
  refine wp_seq (getFreeCluster_data wf h hres clusterTagEof clusterTagEof) ?_
  intro c d₂ hpost
  rcases hpost with ⟨-, -, hnone⟩ | ⟨hdata, htag, -, h₂, hsaved⟩
  · exact absurd hfree hnone
  refine wp_seq (saveDirEntry_spec (f := newFile { f with buf := vol.chunk f.cluster } name c
    (getFreeDirEntry f.buf) 0 validFlag) wf h₂ hp hnum) ?_
  intro _ d₃ hpost
  obtain ⟨h₃, hsaves⟩ := hpost
  exact wp_pure.mpr ⟨rfl, c, hdata, htag, h₃, (Saves.of_eq hsaved).trans hsaves⟩

/-- The volume after `mkdir` has taken the cluster `c`. -/
def Volume.mkdir (vol : Volume) (f : File) (name : FileName) (c : UInt64) : Volume :=
  ((vol.setTag c ⟨clusterTagEof, clusterTagEof⟩).putEntry
    (newFile f name c (getFreeDirEntry f.buf) (UInt64.ofNat clusterSize)
      (validFlag ||| directoryFlag)).entry).setChunk c fun _ => 0

/-- **Creating a directory**: its cluster is saved as well. -/
theorem fat64Mkdir_spec (wf : v.Wf) (h : Shows v d vol) (hres : vol.Reserves v)
    (hfree : vol.HasFree v) (hp : v.Data f.entry.file)
    (hnum : (getFreeDirEntry f.buf).toNat < 8) (name : FileName) :
    wp (fat64Mkdir v f name)
      (fun r d' => r = (.success, f) ∧
        ∃ c, v.Data c ∧ vol.tag c = freeTags ∧ Shows v d' (vol.mkdir f name c) ∧ Saves v d d')
      E d := by
  rw [fat64Mkdir]
  refine wp_seq (getFreeCluster_data wf h hres clusterTagEof clusterTagEof) ?_
  intro c d₁ hpost
  rcases hpost with ⟨-, -, hnone⟩ | ⟨hdata, htag, -, h₁, hsaved⟩
  · exact absurd hfree hnone
  refine wp_seq (saveDirEntry_spec (f := newFile f name c (getFreeDirEntry f.buf)
    (UInt64.ofNat clusterSize) (validFlag ||| directoryFlag)) wf h₁ hp hnum) ?_
  intro _ d₂ hpost
  obtain ⟨h₂, hsaves₂⟩ := hpost
  refine wp_seq (saveCluster_spec (f := { newFile f name c (getFreeDirEntry f.buf)
    (UInt64.ofNat clusterSize) (validFlag ||| directoryFlag) with dirty := true }) wf h₂ hdata) ?_
  intro _ d₃ hpost
  obtain ⟨-, h₃, hsaves₃⟩ := hpost
  exact wp_pure.mpr ⟨rfl, c, hdata, htag, h₃,
    (Saves.of_eq hsaved).trans (hsaves₂.trans hsaves₃)⟩

end Cumulonimbus.Fat64
