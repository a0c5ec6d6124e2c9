import Cumulonimbus.Fat64Mount
import Cumulonimbus.Fat64Partition
import Cumulonimbus.IdeRuns

/-!
# The file system on a drive

A program that knows the disk by its calls of `ide_read` and `ide_write` only does over the driver,
and a drive without bad sectors, what it does on the disk of the model, call by call
(`programs_on_drive`).  So does the program that makes the calls of any sequence of requests to the
file system (`requests_on_drive`).
-/

namespace Cumulonimbus.Fat64

open Exec Ide Ata

attribute [local irreducible] wp

/-! ## The calls -/

/-- The contents of a buffer in the order of its bytes. -/
def bytesOf (w : Words) : Sector :=
  fun k => Bytes.byte (w ⟨k / 2, by omega⟩).toNat (k % 2)

def wordsOf (b : Sector) : Words :=
  fun i => Bytes.get16 (sectorByte b) (2 * i)

theorem bytesOf_wordsOf (b : Sector) : bytesOf (wordsOf b) = b := by
  funext k
  rw [bytesOf, wordsOf, Bytes.byte_get16 _ _ (Nat.mod_lt _ Nat.two_pos)]
  have hk : 2 * (k.val / 2) + k.val % 2 = k.val := Nat.div_add_mod _ _
  rw [sectorByte, dif_pos (hk.symm ▸ k.isLt)]
  exact congrArg b (Fin.ext hk)

/-- The calls of the driver, with what is in the buffer of a reader before. -/
def SectorCall.onDrive {marks : Nat → Prop} {σ : Type} (bus : Bus σ) (patience : Nat)
    (device : IdeDevice) (before : Words) : (q : SectorCall marks) → Prog σ Ide.Spin q.Answer
  | .read sector => do
    let r ← (Access.read sector before).call bus patience device
    return bytesOf r.2
  | .mark sector _ b | .save sector b => do
    let _ ← (Access.write sector (wordsOf b)).call bus patience device
    return ()

/-- The drive holds the sectors of the disk, and the other drive is as it was. -/
structure Holds {σ : Type} (view : σ → View) (d : Bool) (patience : Nat) (other : Nat → Words)
    (disk : Disk) (s : σ) : Prop where
  between : (view s).Between patience
  sectors : ∀ n < 2 ^ 32, bytesOf ((view s).media d n) = disk.sector n
  other : (view s).media (!d) = other

variable {marks : Nat → Prop} {σ α : Type} {bus : Bus σ} {device : IdeDevice} {d : Bool}
  {good : Bool → Nat → Bool} {patience : Nat} {view : σ → View} {s : σ} {other : Nat → Words}
  {disk : Disk}

section Wired

variable (hw : device.Wired d bus good patience view) (hgood : ∀ n < 2 ^ 32, good d n = true)
include hw hgood

/-- A sector is written to both. -/
theorem wp_write_holds (hs : Holds view d patience other disk s) (sector : UInt32) (b : Sector)
    (saved : List Nat) :
    wp ((Access.write sector (wordsOf b)).call bus patience device)
      (fun _ t => Holds view d patience other
        ⟨Function.update disk.sector sector.toNat b, saved⟩ t) (fun _ => False) s := by
  refine wp_mono (Ide.wp_call hw hs.between (.write sector (wordsOf b))) ?_ fun _ he => he
  intro r t hcall
  have hmedia : (view t).media = Function.update (view s).media d
      (Function.update ((view s).media d) sector.toNat (wordsOf b)) := by
    rw [hcall.media, Access.effect, hgood _ sector.toNat_lt, if_pos rfl]
  refine ⟨hcall.between, fun n hn => ?_, ?_⟩
  · rw [hmedia, Function.update_self]
    change _ = Function.update disk.sector sector.toNat b n
    by_cases heq : n = sector.toNat
    · rw [heq, Function.update_self, Function.update_self, bytesOf_wordsOf]
    · rw [Function.update_of_ne heq, Function.update_of_ne heq]
      exact hs.sectors n hn
  · rw [hmedia, Function.update_of_ne (by cases d <;> decide)]
    exact hs.other

/-- **The driver makes a disk of a drive** without bad sectors. -/
theorem drive_simulates_disk (other : Nat → Words) (before : Words) :
    Client.Simulates (Holds view d patience other) (@SectorCall.onDisk marks)
      (SectorCall.onDrive bus patience device before) := by
  intro q disk s hs
  cases q with
  | read sector =>
    rw [SectorCall.onDisk, ideRead, wp_bind, wp_get, wp_pure, SectorCall.onDrive]
    refine wp_seq (Ide.wp_call hw hs.between (.read sector before)) ?_
    intro r t hcall
    have hmedia : (view t).media = (view s).media :=
      hcall.media.trans (Function.update_eq_self d _)
    refine wp_pure.mpr ⟨?_, hcall.between, ?_, ?_⟩
    · rw [hcall.answer, Access.effect, hgood _ sector.toNat_lt, if_pos rfl]
      exact hs.sectors _ sector.toNat_lt
    · rw [hmedia]
      exact hs.sectors
    · rw [hmedia]
      exact hs.other
  | mark sector _ b =>
    rw [SectorCall.onDisk, ideWrite, wp_modify, SectorCall.onDrive]
    refine wp_seq (wp_write_holds hw hgood hs sector b disk.saved) ?_
    exact fun _ t ht => wp_pure.mpr ⟨rfl, ht⟩
  | save sector b =>
    rw [SectorCall.onDisk, ideWrite, wp_bind, wp_modify, wp_modify, SectorCall.onDrive]
    refine wp_seq (wp_write_holds hw hgood hs sector b (sector.toNat :: disk.saved)) ?_
    exact fun _ t ht => wp_pure.mpr ⟨rfl, ht⟩

end Wired

/-! ## Programs -/

/-- A program that uses the disk by calls. -/
abbrev SectorClient (α : Type) : Type :=
  Client (SectorCall fun _ => True) SectorCall.Answer Spin α

/-- A program over the driver. -/
def onDrive (bus : Bus σ) (device : IdeDevice) (patience : Nat) (before : Words)
    (y : SectorClient α) : Prog σ Ide.Spin α :=
  y.on (SectorCall.onDrive bus patience device before) fun _ => .spin

/-- **Programs on a drive.**  Whatever a program makes of the sectors that it reads, over the driver
and a drive without bad sectors it comes to the same answer as on the disk of the model, and the
drive holds the sectors of that disk; it does not end where it does not on the disk. -/
theorem programs_on_drive (hw : device.Wired d bus good patience view)
    (hgood : ∀ n < 2 ^ 32, good d n = true) (y : SectorClient α) (before : Words)
    (hs : Holds view d patience other disk s) :
    (∀ a disk', y.on SectorCall.onDisk id disk = .ok (a, disk') →
      ∃ s', onDrive bus device patience before y s = .ok (a, s') ∧
        Holds view d patience other disk' s') ∧
    ∀ e, y.on SectorCall.onDisk id disk = .error e →
      onDrive bus device patience before y s = .error .spin :=
  ⟨fun _ _ hrun => Client.simulation_ok (drive_simulates_disk hw hgood other before) hs hrun,
    fun _ hrun => Client.simulation_error (drive_simulates_disk hw hgood other before) hs hrun⟩

/-! ## Requests -/

/-- Any number of requests as a routine on all the handles. -/
def routines (v : Partition) (rs : List Request) (hs : Nat → File) : Fat (Nat → File) :=
  rs.foldlM (fun hs r => r.routine v hs) hs

/-- The calls that the routines of the file system make for the requests, one routine after the
other. -/
def routinesCalls (v : Partition) (rs : List Request) (hs : Nat → File) :
    ByCalls (fun _ => True) (routines v rs hs) :=
  Made.foldlM (fun hs r => r.calls (fun _ => trivial) hs) rs hs

/-- The program that makes these calls and returns the handles. -/
def fileSystem (v : Partition) (rs : List Request) (hs : Nat → File) : SectorClient (Nat → File) :=
  (routinesCalls v rs hs).client

theorem runs_eq_routines (v : Partition) (rs : List Request) (s : Session) :
    (forM rs (Request.run v)) s = session (routines v rs s.handle s.disk) := by
  induction rs generalizing s with
  | nil => rfl
  | cons r rs ih =>
    rw [List.forM_cons, routines, List.foldlM_cons]
    simp only [bind, StateT.bind, run_eq_routine, session]
    cases r.routine v s.handle s.disk with
    | error e => rfl
    | ok p => exact ih ⟨p.2, p.1⟩

/-- **Requests on a drive.**  The file system, making its calls of the driver, comes to the same
handles over a drive as on the disk of the model, and the drive holds the sectors of that disk. -/
theorem requests_on_drive (hw : device.Wired d bus good patience view)
    (hgood : ∀ n < 2 ^ 32, good d n = true) (before : Words) (v : Partition) (rs : List Request)
    {u : Session} (hs : Holds view d patience other u.disk s) :
    (∀ u', forM rs (Request.run v) u = .ok ((), u') →
      ∃ s', onDrive bus device patience before (fileSystem v rs u.handle) s = .ok (u'.handle, s') ∧
        Holds view d patience other u'.disk s') ∧
    ∀ e, forM rs (Request.run v) u = .error e →
      onDrive bus device patience before (fileSystem v rs u.handle) s = .error .spin := by
  obtain ⟨hok, herror⟩ := programs_on_drive hw hgood (fileSystem v rs u.handle) before hs
  rw [runs_eq_routines]
  rw [fileSystem, (routinesCalls v rs u.handle).on_eq] at hok herror
  cases hroutine : routines v rs u.handle u.disk with
  | ok p =>
    refine ⟨fun u' hrun => ?_, fun e hrun => (nomatch hrun)⟩
    obtain rfl : (⟨p.2, p.1⟩ : Session) = u' := congrArg Prod.snd (Except.ok.inj hrun)
    exact hok _ _ hroutine
  | error e => exact ⟨fun u' hrun => (nomatch hrun), fun _ _ => herror e hroutine⟩

/-- A drive that holds the sectors of a disk, the second of its channel. -/
def viewOf (disk : Disk) : View :=
  { blankView with media := fun second n => if second then wordsOf (disk.sector n) else fun _ => 0 }

/-- It is ready and holds them. -/
theorem viewOf_holds (disk : Disk) :
    Holds (fun v => v) true 2 (fun _ _ => 0) disk (viewOf disk) where
  between := ⟨rfl, Nat.two_pos⟩
  sectors n _ := bytesOf_wordsOf (disk.sector n)
  other := rfl

/-- A run of calls is one of requests. -/
theorem requests_of_run {v : Partition} {u u' : Session} {tr : List (Session × Call)}
    {allowed : Session → Call → Prop} (run : Runs (Call.run v) allowed u tr u') :
    forM ((tr.map Prod.snd).map Request.call) (Request.run v) u = .ok ((), u') := by
  rw [List.forM_map]
  exact run.forM_eq

/-- The root directory of a new file system is opened and a file is created in it, over the second
drive of a channel. -/
theorem requests_on_second_drive :
    ∃ (v : Partition) (d : Disk) (u : Session) (t : View),
      fat64Mkfs fsSize .blank = .ok (v, d) ∧
      forM [.call (.openRoot 0), .call (.touch 0 ⟨[97], by decide⟩)] (Request.run v) d.session =
        .ok ((), u) ∧
      onDrive (plainBus (fun _ _ => true) 1) secondDrive 2 (fun _ => 0)
        (fileSystem v [.call (.openRoot 0), .call (.touch 0 ⟨[97], by decide⟩)] d.session.handle)
        (viewOf d) = .ok (u.handle, t) ∧
      (u.handle 0).cluster = UInt64.ofNat v.rootDir ∧
      ∀ n < 2 ^ 32, bytesOf (t.media true n) = u.disk.sector n := by
  obtain ⟨v, d, vol, hmkfs, wf, hvol, formatted, hroot, hfree⟩ := new_fileSystem
  obtain ⟨s, run, hdisk, hdir, hcluster, hfile, hbuf⟩ := openRoot_run wf hvol
    (fun _ _ => True) trivial
  have hshows : Shows v s.disk vol := hdisk ▸ hvol
  have managed := managed_touch hshows formatted hroot (hfree _ hshows) hdir hcluster hbuf
    ⟨[97], by decide⟩
  have htouch : wp (Call.run v (.touch 0 ⟨[97], by decide⟩))
      (fun _ u => (u.handle 0).cluster = UInt64.ofNat v.rootDir) (fun _ => False) s := by
    rw [Call.run]
    refine wp_onHandle (wp_map.mpr (wp_mono (fat64Touch_spec wf hshows
      (fun c hc => formatted.reserved c (Nat.le_of_lt hc)) (hshows.hasFree (hfree _ hshows))
      (by rw [hcluster]; exact hroot) (by rw [hfile]; exact hroot)
      (getFreeDirEntry_lt managed.2.1).1 _) ?_ fun _ he => he))
    intro r d' hpost
    dsimp only
    rw [Function.update_self, hpost.1]
    exact hcluster
  obtain ⟨u, run', hcluster'⟩ := run.next trivial htouch
  have hrun := requests_of_run run'
  obtain ⟨t, ht, hholds⟩ := (requests_on_drive (secondDrive_wired (fun _ _ => true) 1)
    (fun _ _ => rfl) (fun _ => 0) v _ (viewOf_holds d)).1 u hrun
  exact ⟨v, d, u, t, hmkfs, hrun, ht, hcluster', hholds.sectors⟩

end Cumulonimbus.Fat64
