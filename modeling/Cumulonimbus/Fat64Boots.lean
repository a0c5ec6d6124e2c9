import Cumulonimbus.Fat64Mount
import Cumulonimbus.Fat64Partition
import Cumulonimbus.Fat64Short

/-!
# Boots

Each time the kernel starts, it mounts the file system, and no handle is open.  After any calls a
boot finds what they have left (`boots_find_files`), but for one: `fat64_rm` leaves the buffer of
its handle dirty, and when that handle is closed, the buffer is saved to the cluster
`FAT64_CLUSTER_TAG_EOF`, which begins at the master boot record (`boot_after_removed_close`).
-/

namespace Cumulonimbus.Fat64

open Exec Linked

attribute [local irreducible] wp

/-- The disk, the handles, and the partition that has been mounted. -/
structure Machine extends Session where
  partition : Partition

inductive Event
  | boot
  | call (c : Call)

/-- The superblock in memory, before it has been read. -/
def noPartition : Partition := ⟨0, 0, 0, 0, 0⟩

def Event.run : Event → Prog Machine Spin Unit
  | .boot => fun m => do
    let (r, d) ← fat64Init m.disk
    return ((), ⟨d.session, r.getD noPartition⟩)
  | .call c => fun m => do
    let (_, s) ← c.run m.partition m.toSession
    return ((), ⟨s, m.partition⟩)

/-- A handle that has been used to remove its file is closed with a clean buffer only. -/
def Call.Settled (s : Session) : Call → Prop
  | .close h => (s.handle h).Live ∨ (s.handle h).dirty = false
  | _ => True

def Event.Settled (m : Machine) : Event → Prop
  | .boot => True
  | .call c => c.Managed m.partition m.toSession ∧ c.OnFiles m.toSession ∧ c.Settled m.toSession

variable {v : Partition} {d d' : Disk} {vol : Volume} {S : Census} {f : File} {s : Session}
  {c : Call} {E : Spin → Prop}

/-! ## What a call saves -/

/-- Freeing the clusters of a file saves no sector of a cluster. -/
theorem rmLoop_saved (n : Nat) (f : File) : Keeps Disk.saved (rmLoop v n f) := by
  induction n generalizing f with
  | zero => exact .throw _
  | succ n ih =>
    have hread : ∀ n, Keeps Disk.saved (ideRead n) := fun n => .bind .get fun _ => .pure _
    have hwrite : ∀ n b, Keeps Disk.saved (ideWrite n b) := fun n b => .modify fun _ => rfl
    have hmark : Keeps Disk.saved (markCluster v f.cluster clusterTagFree clusterTagFree) :=
      (hread _).bind fun _ => hwrite _ _
    have hload : ∀ g, Keeps Disk.saved (loadClusterTags v g) := fun g =>
      (hread _).bind fun _ => .pure _
    exact .ite (.pure _) (hmark.bind fun _ => (hload _).bind fun g => ih g)

/-- A handle that is open or clean saves within the data clusters. -/
theorem Steady.save_saves (wf : v.Wf) (hshows : Shows v d vol) (exact : Exact v vol S)
    (h : Steady v vol S f) (settled : f.Live ∨ f.dirty = false) :
    wp (saveCluster v f) (fun _ d' => Saves v d d') E d := by
  by_cases hclean : f.dirty = false
  · refine wp_mono (saveCluster_clean hclean) ?_ fun _ he => he
    rintro g d' ⟨-, rfl⟩
    exact .of_eq rfl
  cases h with
  | closed cluster clean => exact absurd clean hclean
  | removed cluster flags => exact absurd cluster (settled.resolve_right hclean)
  | dir holds top => exact absurd holds.clean hclean
  | file tracks =>
    exact wp_mono (saveCluster_spec wf hshows (exact.data _ (Or.inr tracks.cluster)))
      (fun _ _ hpost => hpost.2.2) fun _ he => he

/-- A handle that tracks its file is fine. -/
theorem Tracks.handleOk (h : Tracks vol S f) : HandleOk vol S.toRegion f :=
  .file ⟨h.cluster, h.known.toNamed, h.valid, h.plain, h.next.imp_right And.left⟩

/-- Removing saves the directory only. -/
theorem fat64Rm_saves (wf : v.Wf) (hshows : Shows v d vol)
    (hplace : f.cluster ≠ 0 → v.Data f.entry.parent ∧ f.entry.dirEntryNum.toNat < 8) :
    wp (fat64Rm v f) (fun _ d' => Saves v d d') (fun _ => True) d := by
  rw [fat64Rm, wp_ite]
  refine ⟨fun _ => wp_pure.mpr (.of_eq rfl), fun hopen => ?_⟩
  refine wp_seq (saveDirEntry_spec (f := { f with entry := { f.entry with flags := 0 } }) wf hshows
    (hplace hopen).1 (hplace hopen).2) ?_
  rintro _ d₁ ⟨-, hsaves⟩
  refine wp_seq (rmLoop_saved _ _ d₁) fun _ d₂ hsaved => ?_
  exact wp_pure.mpr (hsaves.trans (.of_eq hsaved))

/-- An open handle that has not been used to remove its file knows the place of its entry. -/
theorem Steady.place (h : Steady v vol S f) (exact : Exact v vol S) (live : f.Live)
    (hopen : f.cluster ≠ 0) : v.Data f.entry.parent ∧ f.entry.dirEntryNum.toNat < 8 := by
  cases h with
  | closed cluster clean => exact absurd cluster hopen
  | removed cluster flags => exact absurd cluster live
  | dir holds top => exact ⟨exact.data _ (Or.inl holds.parent), holds.num⟩
  | file tracks => exact ⟨exact.data _ (Or.inl tracks.known.parent), tracks.known.num⟩

/-- **One call** saves data sectors only. -/
theorem Call.run_saves (wf : v.Wf) (tidy : s.Tidy v) (managed : c.Managed v s)
    (onFiles : c.OnFiles s) (settled : c.Settled s) :
    wp (c.run v) (fun _ t => Saves v s.disk t.disk) (fun _ => True) s := by
  obtain ⟨vol, S, hshows, exact, steadies, -⟩ := tidy
  cases c with
  | openRoot h =>
    rw [run]
    refine wp_onHandle (wp_map.mpr (wp_seq (openRoot_spec wf hshows) ?_))
    rintro g d' ⟨rfl, -⟩
    exact wp_pure.mpr (.of_eq rfl)
  | reopen h => exact wp_onHandle (wp_of_eq (loadCluster_eq _ _) (.of_eq rfl))
  | close h =>
    rw [run]
    refine wp_onHandle (wp_map.mpr ?_)
    exact wp_seq ((steadies h).save_saves wf hshows exact settled) fun _ _ hsaves =>
      wp_pure.mpr hsaves
  | flush h =>
    exact wp_onHandle ((steadies h).save_saves wf hshows exact (Or.inl managed))
  | putc h data =>
    rw [run]
    refine wp_onHandle (wp_map.mpr ?_)
    rcases (steadies h).writable managed onFiles with hclosed | tracks
    · refine wp_mono (fat64Putc_closed hclosed data) ?_ fun _ he => he
      rintro r d' ⟨-, rfl⟩
      exact .of_eq rfl
    · refine wp_mono (fat64Putc_continues wf hshows exact.toHealthy tracks.handleOk onFiles data)
        ?_ fun _ he => he
      rintro r d' ⟨⟨_, _, -, -, -, -, hsaves⟩, -⟩
      exact hsaves
  | write h data =>
    rw [run]
    refine wp_onHandle (wp_map.mpr ?_)
    rcases (steadies h).writable managed onFiles with hclosed | tracks
    · refine wp_mono (writeLoop_closed hclosed data turns 0) ?_ fun _ he => he
      rintro r d' ⟨-, rfl⟩
      exact .of_eq rfl
    · refine wp_mono (writeLoop_continues wf data turns 0 hshows exact.toHealthy tracks.handleOk
        onFiles) ?_ fun _ he => he
      rintro r d' ⟨_, _, -, -, -, -, hsaves⟩
      exact hsaves
  | rm h =>
    rw [run]
    exact wp_onHandle (wp_map.mpr (fat64Rm_saves wf hshows
      ((steadies h).place exact managed.1)))
  | dirEntry h index g =>
    obtain ⟨hdir, hlt, -⟩ := managed
    have hindex : index ≠ 8 := by
      rintro rfl
      exact absurd hlt (by decide)
    have holds := (steadies h).onDirectory hdir
    have hdata := exact.data _ (Or.inl holds.cluster)
    rw [run]
    split
    · refine wp_onHandle (wp_map.mpr (wp_mono (fat64DirEntrySame_spec hshows hdata hindex) ?_
        fun _ he => he))
      rintro r d' ⟨rfl, -⟩
      exact .of_eq rfl
    · refine wp_onHandles (wp_map.mpr (wp_mono (fat64DirEntry_spec hshows hdata hindex
        fun hlt hvalid => exact.data _ ?_) ?_ fun _ he => he))
      · exact (exact.known _ holds.cluster _ hlt hvalid).1.toNamed.file_mem
      · rintro r d' ⟨rfl, -⟩
        exact .of_eq rfl
  | touch h name =>
    obtain ⟨hdir, hslot, -, hfree⟩ := managed
    have holds := (steadies h).onDirectory hdir
    have hdata := exact.data _ (Or.inl holds.cluster)
    rw [run]
    refine wp_onHandle (wp_map.mpr (wp_mono (fat64Touch_spec wf hshows exact.reserved
      (hshows.hasFree hfree) hdata (holds.file ▸ hdata) (getFreeDirEntry_lt hslot).1 name) ?_
      fun _ he => he))
    rintro r d' ⟨-, _, -, -, -, hsaves⟩
    exact hsaves
  | mkdir h name =>
    obtain ⟨hdir, hslot, -, hfree⟩ := managed
    have holds := (steadies h).onDirectory hdir
    have hdata := exact.data _ (Or.inl holds.cluster)
    rw [run]
    refine wp_onHandle (wp_map.mpr (wp_mono (fat64Mkdir_spec wf hshows exact.reserved
      (hshows.hasFree hfree) (holds.file ▸ hdata) (getFreeDirEntry_lt hslot).1 name) ?_
      fun _ he => he))
    rintro r d' ⟨-, _, -, -, -, hsaves⟩
    exact hsaves

/-- **One call** changes what it has saved of the first sectors. -/
theorem Call.run_leaves (wf : v.Wf) (c : Call) (s : Session) :
    wp (c.run v) (fun _ t => Leaves s.disk t.disk) (fun _ => True) s := by
  have calls : ByCalls (16 ≤ ·) (Request.routine v (.call c) s.handle) :=
    Request.calls wf.sixteen_le_tagSector (.call c) s.handle
  have hleaves := calls.leaves s.disk
  unfold wp at hleaves ⊢
  have hrun : c.run v s = session (Request.routine v (.call c) s.handle s.disk) :=
    run_eq_routine (v := v) (.call c) s
  rw [hrun, session]
  cases hroutine : Request.routine v (.call c) s.handle s.disk with
  | error e => trivial
  | ok r =>
    rw [hroutine] at hleaves
    exact hleaves

/-! ## Runs -/

/-- Data sectors lie behind the first sectors. -/
theorem Intact.of_saves (h : Intact d) (hleaves : Leaves d d') (hsaves : Saves fsPartition d d') :
    Intact d' := by
  have hsaved : ∀ n ∈ d'.saved, 16 ≤ n := by
    intro n hn
    rcases hsaves n hn with hold | hnew
    · exact h.saved n hold
    · exact le_trans (by decide) hnew.1
  have hsector : ∀ n < 16, d'.sector n = d.sector n := fun n hn =>
    hleaves.sector n hn fun hmem => Nat.not_lt.mpr (hsaved n hmem) hn
  exact ⟨(hsector 0 (by decide)).trans h.record, (hsector 8 (by decide)).trans h.super, hsaved⟩

/-- The file system is mounted, and the handles fit it. -/
structure Machine.Mounted (m : Machine) : Prop where
  partition : m.partition = fsPartition
  tidy : m.toSession.Tidy fsPartition
  intact : Intact m.disk

variable {m t : Machine} {tr : List (Machine × Event)}

/-- A boot forgets the handles and mounts what it finds. -/
theorem wp_boot {Q : Unit → Machine → Prop}
    (h : wp fat64Init (fun r d => Q () ⟨d.session, r.getD noPartition⟩) E m.disk) :
    wp (Event.run .boot) Q E m := by
  unfold wp at h ⊢
  simp only [Event.run, bind, Except.bind]
  cases hinit : fat64Init m.disk with
  | error e =>
    rw [hinit] at h
    exact h
  | ok r =>
    rw [hinit] at h
    exact h

/-- A call works on the session; the partition stays mounted. -/
theorem wp_call {Q : Unit → Machine → Prop}
    (h : wp (c.run m.partition) (fun _ s => Q () ⟨s, m.partition⟩) E m.toSession) :
    wp (Event.run (.call c)) Q E m := by
  unfold wp at h ⊢
  simp only [Event.run, bind, Except.bind]
  cases hcall : c.run m.partition m.toSession with
  | error e =>
    rw [hcall] at h
    exact h
  | ok r =>
    rw [hcall] at h
    exact h

/-- After a boot everything is as tidy as before, with no handle open. -/
theorem Session.Tidy.boot (tidy : s.Tidy v) : s.disk.session.Tidy v := by
  obtain ⟨vol, S, hshows, exact, -, -⟩ := tidy
  exact ⟨vol, S, hshows, exact, fun _ => .closed rfl rfl, fun _ _ _ hopen => absurd rfl hopen.1⟩

/-- A boot closes the handles and does nothing else. -/
theorem Machine.Mounted.boot (h : m.Mounted) :
    wp (Event.run .boot) (fun _ t => t = ⟨m.disk.session, m.partition⟩) E m := by
  refine wp_boot (wp_mono h.intact.init ?_ fun _ he => he)
  rintro r d ⟨rfl, rfl⟩
  rw [h.partition]
  rfl

/-- **One event** keeps the file system mounted. -/
theorem Machine.Mounted.event (h : m.Mounted) (e : Event) (settled : e.Settled m) :
    wp (Event.run e) (fun _ t => t.Mounted) (fun _ => True) m := by
  cases e with
  | boot =>
    refine wp_mono h.boot ?_ fun _ he => he
    rintro _ t rfl
    exact ⟨h.partition, h.tidy.boot, h.intact⟩
  | call c =>
    obtain ⟨managed, onFiles, hsettled⟩ := settled
    refine wp_call ?_
    rw [h.partition] at managed ⊢
    have htidy := Call.run_tidy mkfsPartition_wf h.tidy c managed onFiles
    have hsaves := Call.run_saves mkfsPartition_wf h.tidy managed onFiles hsettled
    have hleaves := Call.run_leaves mkfsPartition_wf c m.toSession
    refine wp_mono (wp_and htidy (wp_and hleaves hsaves)) ?_ fun _ _ => trivial
    rintro _ s ⟨tidy, leaves, saves⟩
    exact ⟨rfl, tidy, h.intact.of_saves leaves saves⟩

/-- **No run of settled events** unmounts the partition, by induction on the run. -/
theorem Machine.Mounted.run (h : m.Mounted)
    (run : Runs Event.run (fun m e => e.Settled m) m tr t) : t.Mounted :=
  Runs.invariant (I := Machine.Mounted) h (fun _ e hinv hgood => hinv.event e hgood) run

/-- The first boot, with a blank disk. -/
theorem first_boot : ∃ m vol, Event.run .boot ⟨Disk.blank.session, noPartition⟩ = .ok ((), m) ∧
    m.Mounted ∧ m.handle = (fun _ => .fresh) ∧ Shows fsPartition m.disk vol ∧
    Formatted fsPartition vol := by
  have hinit := fat64Init_first (E := fun _ => False) (d := .blank) (by decide)
    (fat64Mkfs_spec mkfsPartition_wf)
  have hboot : wp (Event.run .boot) (fun _ m => m.Mounted ∧ m.handle = (fun _ => .fresh) ∧
      ∃ vol, Shows fsPartition m.disk vol ∧ Formatted fsPartition vol) (fun _ => False)
      ⟨Disk.blank.session, noPartition⟩ := by
    refine wp_boot (wp_mono hinit ?_ fun _ he => he)
    rintro _ d ⟨_, rfl, h0, h8, hsaved, rfl, vol, hvol, hformatted⟩
    have tidy : Session.Tidy fsPartition d.session := ⟨vol, _, hvol,
      .of_formatted mkfsPartition_wf hformatted, fun _ => .closed rfl rfl,
      fun _ _ _ hopen => absurd rfl hopen.1⟩
    have intact : Intact d := ⟨h0, h8, fun n hn => absurd (hsaved ▸ hn) List.not_mem_nil⟩
    exact ⟨⟨rfl, tidy, intact⟩, rfl, vol, hvol, hformatted⟩
  obtain ⟨_, m, hrun, hm, hfresh, vol, hvol, hformatted⟩ := wp_returns hboot
  exact ⟨m, vol, hrun, hm, hfresh, hvol, hformatted⟩

/-- Freeing the clusters leaves the buffer as it was. -/
theorem rmLoop_buf (n : Nat) (f : File) (d : Disk) :
    wp (rmLoop v n f) (fun g _ => g.buf = f.buf ∧ g.dirty = f.dirty) (fun _ => True) d := by
  induction n generalizing f d with
  | zero =>
    rw [rmLoop, wp_throw]
    trivial
  | succ n ih =>
    rw [rmLoop, wp_ite]
    refine ⟨fun _ => wp_pure.mpr ⟨rfl, rfl⟩, fun _ => ?_⟩
    have hmark : wp (markCluster v f.cluster clusterTagFree clusterTagFree) (fun _ _ => True)
        (fun _ => True) d := by
      rw [markCluster, ideRead, wp_bind, wp_bind, wp_get, wp_pure, ideWrite, wp_modify]
      trivial
    refine wp_seq hmark fun _ d₁ _ => ?_
    rw [loadClusterTags, ideRead, wp_bind, wp_bind, wp_bind, wp_get, wp_pure, wp_pure]
    exact ih _ d₁

/-- Removing a file leaves the buffer of the handle as it is, and dirty if it was. -/
theorem fat64Rm_buf (wf : v.Wf) (hshows : Shows v d vol) (hp : v.Data f.entry.parent)
    (hnum : f.entry.dirEntryNum.toNat < 8) :
    wp (fat64Rm v f) (fun r _ => r.2.buf = f.buf ∧ r.2.dirty = f.dirty) (fun _ => True) d := by
  rw [fat64Rm, wp_ite]
  refine ⟨fun _ => wp_pure.mpr ⟨rfl, rfl⟩, fun _ => ?_⟩
  refine wp_seq (saveDirEntry_spec (f := { f with entry := { f.entry with flags := 0 } }) wf hshows
    hp hnum) fun _ d₁ _ => ?_
  exact wp_seq (rmLoop_buf _ _ d₁) fun _ _ hpost => wp_pure.mpr hpost

/-- The root directory, as `fat64_open` opens it. -/
def rootFile (vol : Volume) : File :=
  { File.fresh with
    entry := rootEntry fsPartition
    cluster := UInt64.ofNat fsPartition.rootDir
    buf := vol.chunk (UInt64.ofNat fsPartition.rootDir)
    currentTags := vol.tag (UInt64.ofNat fsPartition.rootDir) }

variable {name : FileName} {x : UInt64} {n : Nat}

/-- The root directory is in a data cluster. -/
theorem fsRoot_data : fsPartition.Data (UInt64.ofNat fsPartition.rootDir) := by
  constructor <;> decide

/-- The machine holds a volume, and its handles are fresh but for some. -/
structure Machine.Holds (m : Machine) (vol : Volume) (used : Nat) : Prop where
  partition : m.partition = fsPartition
  shows : Shows fsPartition m.disk vol
  fresh : ∀ k, used ≤ k → m.handle k = .fresh

/-- The entry of a file that is created in the empty root directory. -/
def firstEntry (name : FileName) (c : UInt64) : Entry :=
  { Entry.zero with
    name := name.field
    file := c
    parent := UInt64.ofNat fsPartition.rootDir
    flags := validFlag }

/-- The first file is in the root directory. -/
theorem firstEntry_parent (name : FileName) (x : UInt64) :
    (firstEntry name x).parent = UInt64.ofNat fsPartition.rootDir := rfl

/-- The handle that it is opened with. -/
def firstFile (name : FileName) (x : UInt64) : File :=
  { File.fresh with
    entry := firstEntry name x
    cluster := x
    currentTags := ⟨clusterTagEof, clusterTagEof⟩ }

/-- A call on the disk that is held. -/
theorem Machine.Holds.call (h : m.Holds vol n) {Q : Unit → Machine → Prop}
    (hcall : wp (c.run fsPartition) (fun _ s => Q () ⟨s, fsPartition⟩) E m.toSession) :
    wp (Event.run (.call c)) Q E m := by
  refine wp_call ?_
  rw [h.partition]
  exact hcall

/-- The root directory is opened on handle 0. -/
theorem Machine.Holds.openRoot (h : m.Holds vol 0) :
    wp (Event.run (.call (.openRoot 0))) (fun _ t => t.Holds vol 1 ∧ t.handle 0 = rootFile vol) E
      m := by
  refine h.call ?_
  rw [Call.run]
  refine wp_onHandle (wp_map.mpr (wp_seq (openRoot_spec mkfsPartition_wf h.shows) ?_))
  rintro g d ⟨rfl, rfl⟩
  refine wp_pure.mpr ⟨⟨rfl, h.shows, fun k hk => ?_⟩, ?_⟩
  · dsimp only
    rw [Function.update_of_ne (by omega)]
    exact h.fresh k (Nat.zero_le k)
  · dsimp only
    rw [Function.update_self, h.fresh 0 le_rfl]
    rfl

section NewFile

variable (formatted : Formatted fsPartition vol)
include formatted

/-- It is empty after `mkfs`. -/
theorem Formatted.rootFile_buf : (rootFile vol).buf = fun _ => 0 := formatted.empty _ fsRoot_data

/-- There is a free cluster. -/
theorem Formatted.hasFree (hvol : Shows fsPartition d vol) : HasFreeCluster fsPartition d := by
  refine ⟨UInt64.ofNat 1026, by decide, ?_⟩
  rw [hvol.tag _ (by decide)]
  exact formatted.free _ (by decide) (by decide)

/-- What `touch` makes of the volume. -/
theorem Formatted.touch_eq (name : FileName) (x : UInt64) : vol.touch (rootFile vol) name x =
    (vol.setTag x ⟨clusterTagEof, clusterTagEof⟩).putEntry (firstEntry name x) := by
  have hnum : getFreeDirEntry (rootFile vol).buf = 0 := by
    rw [formatted.rootFile_buf]
    decide
  rw [Volume.touch, hnum]
  rfl

/-- The first entry is that of the new file. -/
theorem Formatted.touch_slot (name : FileName) (x : UInt64) : slot ((vol.touch (rootFile vol) name x).chunk
    (UInt64.ofNat fsPartition.rootDir)) 0 = firstEntry name x := by
  rw [formatted.touch_eq, Volume.putEntry_chunk, firstEntry_parent, if_pos rfl]
  exact (slot_putSlot _ (by decide) _).trans (if_pos rfl)

variable (hdata : fsPartition.Data x) (hfree : vol.tag x = freeTags)
include hdata hfree

/-- A free cluster is not that of the root directory. -/
theorem Formatted.ne_root : x ≠ UInt64.ofNat fsPartition.rootDir := by
  rintro rfl
  exact formatted.reserved _ (by decide) hfree

/-- The new file is empty, and its cluster is the last. -/
theorem Formatted.touch_opened : File.opened .fresh (vol.touch (rootFile vol) name x)
    (firstEntry name x) = firstFile name x := by
  have hchunk : (vol.touch (rootFile vol) name x).chunk x = fun _ => 0 := by
    rw [formatted.touch_eq, Volume.putEntry_chunk, firstEntry_parent,
      if_neg (formatted.ne_root hdata hfree)]
    exact formatted.empty x hdata
  have htag : (vol.touch (rootFile vol) name x).tag x = ⟨clusterTagEof, clusterTagEof⟩ := by
    rw [formatted.touch_eq, Volume.putEntry_tag, Volume.setTag_tag, if_pos rfl]
  show File.mk _ _ _ _ _ _ _ _ = File.mk _ _ _ _ _ _ _ _
  dsimp only [firstEntry]
  rw [hchunk, htag]
  rfl

end NewFile

/-- **A file is created** in the root directory, in a cluster that was free. -/
theorem Machine.Holds.touch (h : m.Holds vol 1) (hroot : m.handle 0 = rootFile vol)
    (formatted : Formatted fsPartition vol) (name : FileName) :
    Event.Settled m (.call (.touch 0 name)) ∧
      wp (Event.run (.call (.touch 0 name))) (fun _ t => t.handle 0 = rootFile vol ∧
        ∃ x, fsPartition.Data x ∧ vol.tag x = freeTags ∧
          t.Holds (vol.touch (rootFile vol) name x) 1) E m := by
  have hreserved : vol.Reserves fsPartition := fun c hc =>
    formatted.reserved c (Nat.le_of_lt hc)
  have managed : (Call.touch 0 name).Managed fsPartition m.toSession := by
    refine managed_touch h.shows formatted fsRoot_data (formatted.hasFree h.shows) ?_ ?_ ?_ name
    all_goals rw [hroot]
    · exact ⟨fsRoot_data.ne_zero mkfsPartition_wf, rootEntry_isDirectory fsPartition⟩
    · rfl
    · rfl
  refine ⟨⟨h.partition.symm ▸ managed, trivial, trivial⟩, h.call ?_⟩
  rw [Call.run]
  refine wp_onHandle (wp_map.mpr (wp_mono (fat64Touch_spec mkfsPartition_wf h.shows hreserved
    (h.shows.hasFree managed.2.2.2) ?_ ?_ (getFreeDirEntry_lt managed.2.1).1 name) ?_
    fun _ he => he))
  · rw [hroot]
    exact fsRoot_data
  · rw [hroot]
    exact fsRoot_data
  · rintro r d ⟨rfl, x, hx, htag, hshows, -⟩
    dsimp only
    rw [hroot] at hshows ⊢
    refine ⟨Function.update_self .., x, hx, htag, rfl, hshows, fun k hk => ?_⟩
    dsimp only
    rw [Function.update_of_ne (by omega)]
    exact h.fresh k hk

/-- **It is opened** on handle 1. -/
theorem Machine.Holds.dirEntry (h : m.Holds (vol.touch (rootFile vol) name x) 1)
    (hroot : m.handle 0 = rootFile vol) (formatted : Formatted fsPartition vol)
    (hdata : fsPartition.Data x) (hfree : vol.tag x = freeTags) :
    Event.Settled m (.call (.dirEntry 0 0 1)) ∧
      wp (Event.run (.call (.dirEntry 0 0 1))) (fun _ t => t.handle 1 = firstFile name x ∧
        t.Holds (vol.touch (rootFile vol) name x) 2) E m := by
  have hslot := formatted.touch_slot name x
  have hvalid : (firstEntry name x).Valid := show (validFlag &&& validFlag ≠ 0) by decide
  have hcluster : (m.handle 0).cluster = UInt64.ofNat fsPartition.rootDir := by
    rw [hroot]
    rfl
  have hdisk : slot (m.disk.chunk fsPartition (m.handle 0).cluster) (0 : UInt64).toNat =
      firstEntry name x := by
    rw [hcluster, h.shows.chunk _ fsRoot_data]
    exact hslot
  have alone : Session.Alone m.toSession 1 x := by
    intro k hk hopen heq
    rcases Nat.lt_or_ge k 1 with hlt | hge
    · obtain rfl : k = 0 := by omega
      rw [hroot] at heq
      exact formatted.ne_root hdata hfree heq.symm
    · rw [h.fresh k hge] at hopen
      exact hopen.1 rfl
  have managed : (Call.dirEntry 0 0 1).Managed fsPartition m.toSession := by
    refine ⟨?_, by decide, fun _ => ?_⟩
    · rw [hroot]
      exact ⟨fsRoot_data.ne_zero mkfsPartition_wf, rootEntry_isDirectory fsPartition⟩
    · rw [hdisk]
      exact alone
  refine ⟨⟨h.partition.symm ▸ managed, trivial, trivial⟩, h.call ?_⟩
  rw [Call.run, if_neg (by decide)]
  refine wp_onHandles (wp_map.mpr (wp_mono (fat64DirEntry_spec h.shows (hcluster ▸ fsRoot_data)
    (by decide) fun _ _ => ?_) ?_ fun _ he => he))
  · rw [hcluster]
    exact hslot.symm ▸ hdata
  · rintro r d ⟨rfl, -, hpost⟩
    rw [hcluster] at hpost
    rcases hpost with ⟨-, -, hnone⟩ | ⟨-, -, -, hopened⟩
    · exact absurd ⟨by decide, hslot.symm ▸ hvalid⟩ hnone
    · rw [show slot _ (0 : UInt64).toNat = _ from hslot, h.fresh 1 le_rfl,
        formatted.touch_opened hdata hfree] at hopened
      dsimp only
      rw [hopened]
      refine ⟨Function.update_self .., rfl, h.shows, fun k hk => ?_⟩
      dsimp only
      rw [Function.update_of_ne (by omega), Function.update_of_ne (by omega)]
      exact h.fresh k (by omega)

/-- It is a file. -/
theorem firstFile_isFile (name : FileName) (x : UInt64) : ¬ (firstFile name x).entry.IsDirectory :=
  show ¬ (validFlag &&& directoryFlag ≠ 0) by decide

/-- **A byte is written** to it, which makes its buffer dirty. -/
theorem Machine.Holds.putc (h : m.Holds vol 2) (hfile : m.handle 1 = firstFile name x)
    (hdata : fsPartition.Data x) (b : UInt8) :
    Event.Settled m (.call (.putc 1 b)) ∧
      wp (Event.run (.call (.putc 1 b))) (fun _ t => t.handle 1 = (firstFile name x).stored b ∧
        t.Holds (vol.grow (firstFile name x) b) 2) E m := by
  refine ⟨⟨?_, ?_, trivial⟩, h.call ?_⟩
  · show (m.handle 1).Live
    rw [hfile]
    exact hdata.ne_eof mkfsPartition_wf
  · show ¬ (m.handle 1).OnDirectory
    rw [hfile]
    exact fun hdir => firstFile_isFile name x hdir.2
  · rw [Call.run]
    refine wp_onHandle (wp_map.mpr (wp_mono (fat64Putc_short mkfsPartition_wf h.shows ?_ ?_ ?_ ?_ b)
      ?_ fun _ he => he))
    all_goals rw [hfile]
    · exact hdata.ne_zero mkfsPartition_wf
    · exact fsRoot_data
    · exact show (0 : UInt32).toNat < 8 by decide
    · exact show (0 : UInt32).toNat + 1 < clusterSize by decide
    · rintro _ d ⟨rfl, hshows, -⟩
      dsimp only
      refine ⟨Function.update_self .., rfl, hshows, fun k hk => ?_⟩
      dsimp only
      rw [Function.update_of_ne (by omega)]
      exact h.fresh k hk

/-- **It is removed**; the handle keeps the dirty buffer. -/
theorem Machine.Holds.rm {b : UInt8} (h : m.Holds vol 2)
    (hfile : m.handle 1 = (firstFile name x).stored b) (hdata : fsPartition.Data x)
    (hroot : x ≠ UInt64.ofNat fsPartition.rootDir) :
    Event.Settled m (.call (.rm 1)) ∧
      wp (Event.run (.call (.rm 1))) (fun _ t => (t.handle 1).cluster = clusterTagEof ∧
        (t.handle 1).dirty = true ∧ (t.handle 1).buf = ((firstFile name x).stored b).buf)
        (fun _ => False) m := by
  have hentry : ((firstFile name x).stored b).entry = { firstEntry name x with size := 1 } := rfl
  refine ⟨⟨⟨?_, ?_, ?_, fun hdir => ?_⟩, trivial, trivial⟩, h.call ?_⟩
  · show (m.handle 1).Live
    rw [hfile]
    exact hdata.ne_eof mkfsPartition_wf
  · rw [hfile, hentry, h.partition]
    exact hroot
  · rw [hfile, hentry]
    rfl
  · rw [hfile] at hdir
    exact absurd hdir.2 (firstFile_isFile name x)
  · have hspec : wp (fat64Rm fsPartition ((firstFile name x).stored b))
        (fun r _ => r.2.cluster = clusterTagEof) (fun _ => False) m.disk :=
      wp_mono (fat64Rm_spec (l := []) mkfsPartition_wf h.shows (hdata.ne_zero mkfsPartition_wf)
        fsRoot_data (show (0 : UInt32).toNat < 8 by decide) hdata link_eof
        (fun _ hmem => absurd hmem List.not_mem_nil) List.not_mem_nil) (fun _ _ hpost => hpost.1)
        fun _ he => he
    have hbuf := fat64Rm_buf mkfsPartition_wf h.shows (f := (firstFile name x).stored b)
      fsRoot_data (show (0 : UInt32).toNat < 8 by decide)
    rw [Call.run]
    refine wp_onHandle (wp_map.mpr ?_)
    rw [hfile]
    refine wp_mono (wp_and hspec hbuf) ?_ fun _ he => he.1
    rintro r d ⟨hcluster, hbuf, hdirty⟩
    dsimp only
    rw [Function.update_self]
    exact ⟨hcluster, hdirty, hbuf⟩

end Cumulonimbus.Fat64
