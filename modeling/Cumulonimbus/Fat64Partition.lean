import Cumulonimbus.Fat64Tidy

/-!
# Clusters in use are in exactly one chain

`Partitioned` says of a disk, without any census, that the chains of the files and directories
that can be reached from the root directory have every cluster in use, each once.  This holds in
every run on a new file system in which no byte is written to a directory.
-/

namespace Cumulonimbus.Fat64

open Exec Linked

attribute [local irreducible] wp

/-! ## What the disk says -/

/-- `FAT64_CLUSTER_TAG_EOF` is no predecessor. -/
def Disk.prev (v : Partition) (d : Disk) (c : UInt64) : Option UInt64 := link (d.tag v c).prev

variable {v : Partition} {d : Disk} {vol : Volume} {S : Census} {c x : UInt64}
  {p q : UInt64 × Nat} {l : List UInt64}

/-! ## What the census says of the disk -/

section Shown

variable (hshows : Shows v d vol) (exact : Exact v vol S)

include hshows exact

/-- The links forward are those of the volume. -/
theorem Exact.next_eq (hc : c ∈ S.dirs ∨ c ∈ S.files) : d.next v c = vol.next c := by
  rw [Disk.next, hshows.tag c (exact.data c hc).2, Volume.next]

/-- So are the links back. -/
theorem Exact.prev_eq (hc : c ∈ S.dirs ∨ c ∈ S.files) :
    d.prev v c = link (vol.tag c).prev := by
  rw [Disk.prev, hshows.tag c (exact.data c hc).2]

/-- From a cluster that an entry names goes a chain, and all of it belongs to the entry. -/
theorem Exact.doubly (wf : v.Wf) (hc : S.Head v c) :
    ∃ l, Doubly (d.next v) (d.prev v) (some c) l.getLast? l ∧
      ∀ x ∈ l, (x ∈ S.files ∧ S.own x = c) ∨ (x ∈ S.dirs ∧ x = c) := by
  have hfirst := exact.first c hc
  rcases hc with ⟨hdir, -⟩ | ⟨hfile, hown⟩
  · have hmem : c ∈ S.dirs ∨ c ∈ S.files := Or.inl hdir
    refine ⟨[c], ⟨⟨rfl, ?_⟩, ⟨rfl, ?_⟩⟩, fun x hx => ?_⟩
    · rw [exact.next_eq hshows hmem, Volume.next, exact.last c hdir, link_eof]
      rfl
    · rw [exact.prev_eq hshows hmem, hfirst, link_eof]
      rfl
    · rw [List.mem_singleton.mp hx]
      exact Or.inr ⟨hdir, rfl⟩
  · obtain ⟨l, hl⟩ := exact.ends c hfile
    have hmem := exact.path_own hfile hl
    rw [hown] at hmem
    refine ⟨l, Path.doubly ?_ ?_ ?_, fun x hx => Or.inl (hmem x hx)⟩
    · exact hl.congr fun x hx => exact.next_eq hshows (Or.inr (hmem x hx).1)
    · intro m hm n hn
      have hmfile := (hmem m hm).1
      rw [exact.next_eq hshows (Or.inr hmfile)] at hn
      rw [exact.prev_eq hshows (Or.inr (exact.next_mem hmfile hn)), exact.back m hmfile n hn]
      exact link_of_ne ((exact.data m (Or.inr hmfile)).ne_eof wf)
    · intro n hn
      cases hn
      rw [exact.prev_eq hshows (Or.inr hfile), hfirst]
      exact link_eof

end Shown

/-! ## Sessions -/

/-- No other handle is open on the file or directory with this cluster. -/
def Session.Alone (s : Session) (g : Nat) (c : UInt64) : Prop :=
  ∀ k, k ≠ g → (s.handle k).Open → (s.handle k).entry.file ≠ c

/-- No handle is used after its file has been removed, and none is opened on what another one is
open on.  What is removed is removed through a handle at its first cluster, where opening leaves
it, and a directory is empty.  What is created is created through a handle whose buffer has been
read again, in a directory with an empty slot, while a cluster is free. -/
def Call.Managed (v : Partition) (s : Session) : Call → Prop
  | .openRoot _ | .close _ => True
  | .reopen h | .flush h | .putc h _ | .write h _ => (s.handle h).Live
  | .rm h => (s.handle h).Live ∧ (s.handle h).entry.file ≠ UInt64.ofNat v.rootDir ∧
      (s.handle h).cluster = (s.handle h).entry.file ∧
      ((s.handle h).OnDirectory →
        ∀ i, i < 8 → ¬ (slot (s.disk.chunk v (s.handle h).entry.file) i).Valid)
  | .dirEntry h index g => (s.handle h).OnDirectory ∧ index.toNat < 8 ∧
      ((slot (s.disk.chunk v (s.handle h).cluster) index.toNat).Valid →
        s.Alone g (slot (s.disk.chunk v (s.handle h).cluster) index.toNat).file)
  | .touch h _ | .mkdir h _ => (s.handle h).OnDirectory ∧
      getFreeDirEntry (s.handle h).buf ≠ eof32 ∧
      (s.handle h).buf = s.disk.chunk v (s.handle h).cluster ∧ HasFreeCluster v s.disk

/-- Bytes are not written to directories. -/
def Call.OnFiles (s : Session) : Call → Prop
  | .putc h _ | .write h _ => ¬ (s.handle h).OnDirectory
  | _ => True

/-- Only the root directory is open twice. -/
def Session.OneEach (v : Partition) (s : Session) : Prop :=
  ∀ h k, h ≠ k → (s.handle h).Open → (s.handle k).Open →
    (s.handle h).entry.file = (s.handle k).entry.file →
    (s.handle h).entry.file = UInt64.ofNat v.rootDir

/-- An exact census, and handles that fit it. -/
def Session.Tidy (v : Partition) (s : Session) : Prop :=
  ∃ vol S, Shows v s.disk vol ∧ Exact v vol S ∧ (∀ h, Steady v vol S (s.handle h)) ∧ s.OneEach v

variable {s t : Session} {h g : Nat} {f f' : File} {d' : Disk} {E : Spin → Prop}
  {tr : List (Session × Call)}

/-- One handle is replaced by one that is open on the same, or on the root directory. -/
theorem Session.OneEach.update (one : s.OneEach v)
    (hf : f.Open → ((s.handle h).Open ∧ f.entry.file = (s.handle h).entry.file) ∨
      f.entry.file = UInt64.ofNat v.rootDir ∨ s.Alone h f.entry.file) :
    Session.OneEach v ⟨d', Function.update s.handle h f⟩ := by
  have hother : ∀ k, k ≠ h → f.Open → (s.handle k).Open →
      f.entry.file = (s.handle k).entry.file → f.entry.file = UInt64.ofNat v.rootDir := by
    intro k hk hopen hkopen heq
    rcases hf hopen with ⟨hold, hfile⟩ | hroot | halone
    · rw [hfile] at heq ⊢
      exact one h k (Ne.symm hk) hold hkopen heq
    · exact hroot
    · exact absurd heq.symm (halone k hk hkopen)
  intro j k hne
  dsimp only
  rw [Function.update_apply, Function.update_apply]
  by_cases hj : j = h
  · rw [if_pos hj, if_neg fun hk => hne (hj.trans hk.symm)]
    exact hother k fun hk => hne (hj.trans hk.symm)
  · rw [if_neg hj]
    split
    · intro hjopen hopen heq
      rw [heq]
      exact hother j hj hopen hjopen heq.symm
    · exact one j k hne

/-- A request on one handle that advances keeps the session tidy. -/
theorem onHandle_tidy (wf : v.Wf) (exact : Exact v vol S)
    (steadies : ∀ k, Steady v vol S (s.handle k)) (one : s.OneEach v) {x : File → Fat File}
    (hx : wp (x (s.handle h)) (fun f d' => Advances v vol S (s.handle h) f d') E s.disk) :
    wp (onHandle h x) (fun _ t => t.Tidy v) E s := by
  refine wp_onHandle (wp_mono hx ?_ fun _ he => he)
  intro f d' hpost
  obtain ⟨vol', S', head, h', exact', evolves, hhead, steady, hfile⟩ := hpost
  refine ⟨vol', S', h', exact', fun k => ?_, one.update fun hopen =>
    (hfile hopen).imp_right Or.inl⟩
  dsimp only
  rw [Function.update_apply]
  split
  · exact steady
  · rename_i hk
    refine (steadies k).mono wf exact.toSane evolves fun hkopen hmem => ?_
    rcases hhead with hzero | ⟨hopen, hsame⟩
    · rw [hzero]
      exact (exact.data _ (Or.inr hmem)).ne_zero wf
    · rw [hsame]
      intro heq
      have hroot := one k h hk hkopen hopen heq
      exact exact.apart _ hmem (hroot ▸ exact.root)

/-- A handle on which a byte can be written is closed or open on a file. -/
theorem Steady.writable (steady : Steady v vol S f) (live : f.Live) (hdir : ¬ f.OnDirectory) :
    f.cluster = 0 ∨ Tracks vol S f := by
  by_cases hclosed : f.cluster = 0
  · exact Or.inl hclosed
  cases steady with
  | closed cluster clean => exact Or.inl cluster
  | removed cluster flags => exact absurd cluster live
  | dir holds top => exact absurd ⟨hclosed, holds.isDir⟩ hdir
  | file tracks => exact Or.inr tracks

/-! ## One lemma for each call -/

section Calls

variable (wf : v.Wf) (hshows : Shows v s.disk vol) (exact : Exact v vol S)
  (steadies : ∀ k, Steady v vol S (s.handle k)) (one : s.OneEach v)
include wf hshows exact steadies one

/-- A byte goes to a closed handle, which refuses it, or to a file. -/
theorem Call.putc_tidy (live : (s.handle h).Live) (hdir : ¬ (s.handle h).OnDirectory)
    (data : UInt8) : wp (run v (.putc h data)) (fun _ t => t.Tidy v) (fun _ => True) s := by
  rw [run]
  refine onHandle_tidy wf exact steadies one (wp_map.mpr ?_)
  rcases (steadies h).writable live hdir with hclosed | tracks
  · refine wp_mono (fat64Putc_closed hclosed data) ?_ fun _ he => he
    rintro r d' ⟨rfl, rfl⟩
    exact .same hshows exact (steadies h) rfl rfl
  · exact wp_mono (fat64Putc_writes wf hshows exact tracks data)
      (fun _ _ hpost => hpost.advances (tracks.open wf exact.toSane)) fun _ he => he

/-- **`fat64_write`** on a file that is not removed. -/
theorem Call.write_tidy (live : (s.handle h).Live) (hdir : ¬ (s.handle h).OnDirectory)
    (data : List UInt8) : wp (run v (.write h data)) (fun _ t => t.Tidy v) (fun _ => True) s := by
  rw [run]
  refine onHandle_tidy wf exact steadies one (wp_map.mpr ?_)
  rcases (steadies h).writable live hdir with hclosed | tracks
  · refine wp_mono (writeLoop_closed hclosed data turns 0) ?_ fun _ he => he
    rintro r d' ⟨hr, rfl⟩
    rw [hr]
    exact .same hshows exact (steadies h) rfl rfl
  · exact wp_mono (writeLoop_writes wf data turns 0 hshows exact tracks)
      (fun _ _ hpost => hpost.advances (tracks.open wf exact.toSane)) fun _ he => he

/-- A handle through which a file has been removed is dead, and no other one was open on the
file. -/
theorem Call.rm_tidy (managed : Call.Managed v s (.rm h)) :
    wp (run v (.rm h)) (fun _ t => t.Tidy v) (fun _ => True) s := by
  obtain ⟨live, hroot, hstart, hempty⟩ := managed
  rw [run]
  refine wp_onHandle (wp_map.mpr (wp_mono
    (fat64Rm_tidy wf hshows exact (steadies h) live hroot hstart hempty) ?_ fun _ he => he))
  intro r d' hpost
  rcases hpost with ⟨hr, rfl⟩ | ⟨hzero, hcluster, hflags, hnone, vol', h', exact', hothers⟩
  · refine ⟨vol, S, hshows, exact, fun k => ?_, ?_⟩
    · dsimp only
      rw [hr, Function.update_eq_self]
      exact steadies k
    · rw [hr, Function.update_eq_self]
      exact one
  have hdead : ¬ File.Open r.2 := fun hopen => hopen.2 hcluster
  refine ⟨vol', _, h', exact', fun k => ?_, one.update fun hopen => absurd hopen hdead⟩
  dsimp only
  rw [Function.update_apply]
  split
  · exact .removed hcluster hflags
  rename_i hk
  refine (steadies k).remove exact hroot hnone hothers fun hmem heq => ?_
  have hdata := exact.data _ hmem
  exact hroot (heq ▸ one k h hk ⟨hdata.ne_zero wf, hdata.ne_eof wf⟩ ⟨hzero, live⟩ heq)

omit wf in
/-- The handle of a directory, and the one that is opened on an entry of it. -/
theorem Session.Tidy.opened {f : File} (hf : f = { s.handle h with buf := f.buf })
    (hg : Steady v vol S f') (hfile : f'.Open → ((s.handle g).Open ∧
      f'.entry.file = (s.handle g).entry.file ∧ g ≠ h) ∨ s.Alone g f'.entry.file) :
    Session.Tidy v ⟨s.disk, Function.update (Function.update s.handle h f) g f'⟩ := by
  have held : Steady v vol S f := by
    rw [hf]
    exact (steadies h).setBuf _
  have hopen : f.Open ↔ (s.handle h).Open := by
    rw [hf]
    exact Iff.rfl
  have hentry : f.entry.file = (s.handle h).entry.file := by rw [hf]
  have one' : Session.OneEach v ⟨s.disk, Function.update s.handle h f⟩ :=
    one.update fun ho => Or.inl ⟨hopen.mp ho, hentry⟩
  refine ⟨vol, S, hshows, exact, fun k => ?_, one'.update fun ho => ?_⟩
  · dsimp only
    rw [Function.update_apply, Function.update_apply]
    split
    · exact hg
    · split
      · exact held
      · exact steadies k
  · rcases hfile ho with ⟨hopenG, hsame, hne⟩ | halone
    · refine Or.inl ?_
      dsimp only
      rw [Function.update_of_ne hne]
      exact ⟨hopenG, hsame⟩
    · refine Or.inr (Or.inr fun k hk => ?_)
      dsimp only
      rw [Function.update_apply]
      split
      case isTrue heq =>
        rw [hopen, hentry, ← heq]
        exact halone k hk
      case isFalse => exact halone k hk

/-- What is opened on an entry is opened on what no other handle is open on. -/
theorem Call.dirEntry_tidy {index : UInt64} (managed : Call.Managed v s (.dirEntry h index g)) :
    wp (run v (.dirEntry h index g)) (fun _ t => t.Tidy v) (fun _ => True) s := by
  obtain ⟨hdir, hlt, halone⟩ := managed
  have hindex : index ≠ 8 := by
    rintro rfl
    exact absurd hlt (by decide)
  have holds := (steadies h).onDirectory hdir
  have hdata := exact.data _ (Or.inl holds.cluster)
  have hknown := exact.known _ holds.cluster
  rw [hshows.chunk _ hdata] at halone
  rw [run]
  split
  case isTrue =>
    refine onHandle_tidy wf exact steadies one (wp_map.mpr ?_)
    refine wp_mono (fat64DirEntrySame_spec hshows hdata hindex) ?_ fun _ he => he
    rintro r d' ⟨rfl, hcases⟩
    rcases hcases with hr | ⟨hcluster, hdirty⟩
    · rw [hr]
      exact .same hshows exact ((steadies h).setBuf _) rfl rfl
    · exact ⟨vol, S, 0, hshows, exact, .refl, Or.inl rfl, .closed hcluster hdirty,
        fun hopen => absurd hcluster hopen.1⟩
  case isFalse hne =>
    refine wp_onHandles (wp_map.mpr ?_)
    refine wp_mono (fat64DirEntry_spec hshows hdata hindex fun hlt hvalid =>
      exact.data _ (hknown _ hlt hvalid).1.toNamed.file_mem) ?_ fun _ he => he
    rintro r d' ⟨rfl, hr, hcases⟩
    rcases hcases with ⟨-, hg, -⟩ | ⟨-, hlt, hvalid, hg⟩
    · exact Session.Tidy.opened hshows exact steadies one (by rw [hr]) (hg ▸ steadies g)
        fun hopen => Or.inl ⟨hg ▸ hopen, by rw [hg], hne⟩
    · refine Session.Tidy.opened hshows exact steadies one (by rw [hr])
        (hg ▸ .opened exact (hknown _ hlt hvalid).1 hvalid) fun _ => Or.inr ?_
      rw [hg]
      exact halone hvalid

end Calls

/-- **One call** keeps the census exact. -/
theorem Call.run_tidy (wf : v.Wf) (tidy : s.Tidy v) (c : Call) (managed : c.Managed v s)
    (onFiles : c.OnFiles s) : wp (c.run v) (fun _ t => t.Tidy v) (fun _ => True) s := by
  obtain ⟨vol, S, hshows, exact, steadies, one⟩ := tidy
  cases c with
  | openRoot h =>
    rw [run]
    exact onHandle_tidy wf exact steadies one (wp_map.mpr (fat64Open_advances wf hshows exact))
  | reopen h =>
    exact onHandle_tidy wf exact steadies one (fat64Reopen_advances hshows exact (steadies h))
  | close h =>
    rw [run]
    exact onHandle_tidy wf exact steadies one
      (wp_map.mpr (fat64Close_advances wf hshows exact (steadies h)))
  | flush h =>
    exact onHandle_tidy wf exact steadies one
      (saveCluster_advances wf hshows exact (steadies h) managed)
  | putc h data => exact putc_tidy wf hshows exact steadies one managed onFiles data
  | write h data => exact write_tidy wf hshows exact steadies one managed onFiles data
  | touch h name =>
    obtain ⟨hdir, hslot, hbuf, hfree⟩ := managed
    rw [run]
    exact onHandle_tidy wf exact steadies one (wp_map.mpr
      (fat64Touch_advances wf hshows exact (steadies h) hdir hslot hbuf hfree name))
  | mkdir h name =>
    obtain ⟨hdir, hslot, hbuf, hfree⟩ := managed
    rw [run]
    exact onHandle_tidy wf exact steadies one (wp_map.mpr
      (fat64Mkdir_advances wf hshows exact (steadies h) hdir hslot hbuf hfree name))
  | rm h => exact rm_tidy wf hshows exact steadies one managed
  | dirEntry h index g => exact dirEntry_tidy wf hshows exact steadies one managed

/-! ## Runs on a new file system -/

/-- A handle on the root directory of a new file system can be used to create a file. -/
theorem managed_touch (hvol : Shows v s.disk vol) (formatted : Formatted v vol)
    (hroot : v.Data (UInt64.ofNat v.rootDir)) (hfree : HasFreeCluster v s.disk)
    (hdir : (s.handle 0).OnDirectory) (hcluster : (s.handle 0).cluster = UInt64.ofNat v.rootDir)
    (hbuf : (s.handle 0).buf = vol.chunk (UInt64.ofNat v.rootDir)) (name : FileName) :
    (Call.touch 0 name).Managed v s := by
  refine ⟨hdir, ?_, ?_, hfree⟩
  · rw [hbuf, formatted.empty _ hroot]
    decide
  · rw [hbuf, hcluster, hvol.chunk _ hroot]

/-- A new file system, with a free cluster behind its root directory. -/
theorem new_fileSystem : ∃ v d vol, fat64Mkfs fsSize .blank = .ok (v, d) ∧ v.Wf ∧ Shows v d vol ∧
    Formatted v vol ∧ v.Data (UInt64.ofNat v.rootDir) ∧
    ∀ d', Shows v d' vol → HasFreeCluster v d' := by
  obtain ⟨v, d, hmkfs, rfl, vol, hvol, formatted⟩ :=
    wp_returns (fat64Mkfs_spec (E := fun _ => False) mkfsPartition_wf)
  refine ⟨_, d, vol, hmkfs, mkfsPartition_wf, hvol, formatted, by constructor <;> decide, ?_⟩
  intro d' hvol'
  refine ⟨UInt64.ofNat 1026, by decide, ?_⟩
  rw [hvol'.tag _ (by decide)]
  exact formatted.free _ (by decide) (by decide)

/-- A handle on the root directory that is about to save its buffer. -/
structure File.Stale (v : Partition) (f : File) : Prop where
  cluster : f.cluster = UInt64.ofNat v.rootDir
  entry : f.entry = rootEntry v
  dirty : f.dirty = true

/-- A stale handle stays so whatever its buffer has. -/
theorem File.Stale.setBuf (stale : f.Stale v) (b : Cluster) : File.Stale v { f with buf := b } :=
  ⟨stale.cluster, stale.entry, stale.dirty⟩

/-- It is on a directory. -/
theorem File.Stale.onDirectory (stale : f.Stale v) (hne : UInt64.ofNat v.rootDir ≠ 0) :
    f.OnDirectory := by
  refine ⟨by rw [stale.cluster]; exact hne, ?_⟩
  rw [stale.entry]
  exact rootEntry_isDirectory v

end Cumulonimbus.Fat64
