import Cumulonimbus.Fat64ByCalls
import Cumulonimbus.Fat64Format

/-!
# Mounting

`_fat64_init` formats a disk that has no master boot record, reads the superblock back and goes on
with that.  The superblock that `_fat64_mkfs` has written is read back as it was, and a disk that
has been formatted is left alone, as long as no one else writes to its first sectors
(`Intact.init`).
-/

namespace Cumulonimbus.Fat64

open Exec

attribute [local irreducible] wp

/-- Byte `k` of a sector, which has no more than 512. -/
def sectorByte (b : Sector) (k : Nat) : UInt8 := if h : k < 512 then b ⟨k, h⟩ else 0

/-- `MBR_SIG` -/
def mbrSig : UInt16 := 0xAA55

/-- The `fat64_partition_t` in a sector. -/
def Partition.ofSector (s : Sector) : Partition where
  rootDir := (Bytes.get64 (sectorByte s) 0).toNat
  clusterTags := (Bytes.get64 (sectorByte s) 8).toNat
  size := (Bytes.get64 (sectorByte s) 16).toNat
  clusterSize := (Bytes.get64 (sectorByte s) 24).toNat
  partitionLocation := (Bytes.get64 (sectorByte s) 32).toNat

/-- The sector holds no master boot record: the status of the first partition or the signature is
wrong. -/
def NoRecord (s : Sector) : Prop :=
  (sectorByte s 446 ≠ 0x00 ∧ sectorByte s 446 ≠ 0x80) ∨
    Bytes.get16 (sectorByte s) 510 ≠ mbrSig

instance (s : Sector) : Decidable (NoRecord s) := inferInstanceAs (Decidable (_ ∨ _))

/-- The master boot record of the disk, which is formatted if it has none. -/
def bootRecord : Fat Sector := do
  let mbr ← ideRead 0
  if NoRecord mbr then do
    let _ ← fat64Mkfs fsSize
    return mbrSector 8 (fsSize / sectorSize)
  else return mbr

/-- `_fat64_init`, up to the installation of its system call; with the superblock, or nothing where
the partition is of another type. -/
def fat64Init : Fat (Option Partition) := do
  let mbr ← bootRecord
  if sectorByte mbr 450 ≠ partitionType then return none
  else do
    let s ← ideRead (Bytes.get32 (sectorByte mbr) 454).toNat
    return some (.ofSector s)

/-- The partition of the file system. -/
abbrev fsPartition : Partition := mkfsPartition fsSize

variable {v : Partition}

theorem sectorByte_toSector {n : Nat} (hn : n < 512) : sectorByte v.toSector n =
    if n < 8 then Bytes.byte v.rootDir n
    else if n < 16 then Bytes.byte v.clusterTags (n - 8)
    else if n < 24 then Bytes.byte v.size (n - 16)
    else if n < 32 then Bytes.byte v.clusterSize (n - 24)
    else if n < 40 then Bytes.byte v.partitionLocation (n - 32)
    else 0 :=
  dif_pos hn

/-- A field of the superblock is read back. -/
theorem get64_toSector {x i : Nat} (hx : x < 2 ^ 64)
    (h : ∀ k < 8, sectorByte v.toSector (8 * i + k) = Bytes.byte x k) :
    (Bytes.get64 (sectorByte v.toSector) (8 * i)).toNat = x := by
  have hnum : (UInt64.ofNat x).toNat = x := UInt64.toNat_ofNat_of_lt' hx
  have hfield : Bytes.get64 (sectorByte v.toSector) (8 * i) = UInt64.ofNat x :=
    Bytes.get64_eq fun k hk => by rw [h k hk, hnum]
  rw [hfield, hnum]

/-- The superblock is read back as it was written. -/
theorem ofSector_toSector (hroot : v.rootDir < 2 ^ 64) (htags : v.clusterTags < 2 ^ 64)
    (hsize : v.size < 2 ^ 64) (hcluster : v.clusterSize < 2 ^ 64)
    (hlocation : v.partitionLocation < 2 ^ 64) : Partition.ofSector v.toSector = v := by
  have h0 : (Bytes.get64 (sectorByte v.toSector) (8 * 0)).toNat = v.rootDir := by
    refine get64_toSector hroot fun k hk => ?_
    rw [sectorByte_toSector (by omega), if_pos (by omega), Nat.mul_zero,
      Nat.zero_add]
  have h1 : (Bytes.get64 (sectorByte v.toSector) (8 * 1)).toNat =
      v.clusterTags := by
    refine get64_toSector htags fun k hk => ?_
    rw [sectorByte_toSector (by omega), if_neg (by omega), if_pos (by omega),
      Nat.mul_one, Nat.add_sub_cancel_left]
  have h2 : (Bytes.get64 (sectorByte v.toSector) (8 * 2)).toNat = v.size := by
    refine get64_toSector hsize fun k hk => ?_
    rw [sectorByte_toSector (by omega), if_neg (by omega), if_neg (by omega),
      if_pos (by omega), show 8 * 2 + k - 16 = k by omega]
  have h3 : (Bytes.get64 (sectorByte v.toSector) (8 * 3)).toNat =
      v.clusterSize := by
    refine get64_toSector hcluster fun k hk => ?_
    rw [sectorByte_toSector (by omega), if_neg (by omega), if_neg (by omega),
      if_neg (by omega), if_pos (by omega), show 8 * 3 + k - 24 = k by omega]
  have h4 : (Bytes.get64 (sectorByte v.toSector) (8 * 4)).toNat =
      v.partitionLocation := by
    refine get64_toSector hlocation fun k hk => ?_
    rw [sectorByte_toSector (by omega), if_neg (by omega), if_neg (by omega),
      if_neg (by omega), if_neg (by omega), if_pos (by omega),
      show 8 * 4 + k - 32 = k by omega]
  obtain ⟨rootDir, clusterTags, size, clusterSize, location⟩ := v
  exact (Partition.mk.injEq ..).mpr ⟨h0, h1, h2, h3, h4⟩

/-- The first sectors are those of a new file system, and have not been saved to. -/
structure Intact (d : Disk) : Prop where
  record : d.sector 0 = mbrSector 8 (fsSize / sectorSize)
  super : d.sector 8 = fsPartition.toSector
  saved : ∀ n ∈ d.saved, 16 ≤ n

variable {d d' : Disk} {E : Spin → Prop}

/-- The master boot record of a new file system. -/
abbrev fsRecord : Sector := mbrSector 8 (fsSize / sectorSize)

theorem fsRecord_isRecord : ¬ NoRecord fsRecord := by
  rw [NoRecord, not_or, not_and_or, not_not]
  refine ⟨.inl rfl, not_not.mpr ?_⟩
  rfl

theorem fsRecord_firstLba :
    (Bytes.get32 (sectorByte fsRecord) 454).toNat = 8 := by
  rfl

/-- What is read of a disk that has been formatted. -/
theorem wp_super (h : d.sector 8 = fsPartition.toSector) :
    wp (if sectorByte fsRecord 450 ≠ partitionType then return none
        else do
          let s ← ideRead (Bytes.get32 (sectorByte fsRecord) 454).toNat
          return some (.ofSector s) : Fat (Option Partition))
      (fun r d' => r = some fsPartition ∧ d' = d) E d := by
  have htype : sectorByte fsRecord 450 = partitionType := rfl
  rw [if_neg (not_not.mpr htype), fsRecord_firstLba, ideRead, wp_bind, wp_bind, wp_get, wp_pure,
    wp_pure, h, ofSector_toSector] <;> first | exact ⟨rfl, rfl⟩ | decide

/-- **Mounting again** leaves the disk alone and finds the same partition. -/
theorem Intact.init (h : Intact d) :
    wp fat64Init (fun r d' => r = some fsPartition ∧ d' = d) E d := by
  rw [fat64Init, bootRecord, ideRead, wp_bind, wp_bind, wp_bind, wp_get, wp_pure, h.record,
    if_neg fsRecord_isRecord, wp_pure]
  exact wp_super h.super

/-- Marking clusters leaves the first sectors alone. -/
theorem markCluster_keeps {v : Partition} (wf : v.Wf) (c prev next : UInt64) :
    Keeps (fun d : Disk => (d.sector 0, d.sector 8, d.saved)) (markCluster v c prev next) := by
  have hsector := wf.sixteen_le_tagSector c
  intro d
  rw [markCluster, ideRead, wp_bind, wp_bind, wp_get, wp_pure, ideWrite, wp_modify]
  have h0 : 0 ≠ tagSector v c := by omega
  have h8 : 8 ≠ tagSector v c := by omega
  dsimp only
  rw [Function.update_of_ne h0, Function.update_of_ne h8]

/-- What `_fat64_mkfs` does to the first sectors. -/
theorem fat64Mkfs_first (d : Disk) :
    wp (fat64Mkfs fsSize)
      (fun _ d' => (d'.sector 0, d'.sector 8, d'.saved) = (fsRecord, fsPartition.toSector, d.saved))
      (fun _ => True) d := by
  rw [fat64Mkfs, ideWrite, ideWrite, wp_bind, wp_modify, wp_bind, wp_modify]
  have hmark := markCluster_keeps mkfsPartition_wf
  have hrest : Keeps (fun d : Disk => (d.sector 0, d.sector 8, d.saved)) (do
      markCluster fsPartition 0 clusterTagEof clusterTagEof
      mkfsTable fsPartition (clusterTagSize fsSize)
      markCluster fsPartition (UInt64.ofNat fsPartition.rootDir) clusterTagEof clusterTagEof
      return fsPartition) := by
    refine (hmark _ _ _).bind fun _ => ?_
    refine (Keeps.forM (fun i => hmark _ _ _) _).bind fun _ => ?_
    exact (hmark _ _ _).bind fun _ => .pure _
  refine wp_mono (hrest _) (fun _ d' h => h.trans ?_) fun _ he => he
  have h0 : Function.update (Function.update d.sector 0 fsRecord) 8 fsPartition.toSector 0 =
      fsRecord := rfl
  have h8 : Function.update (Function.update d.sector 0 fsRecord) 8 fsPartition.toSector 8 =
      fsPartition.toSector := Function.update_self ..
  exact Prod.ext h0 (Prod.ext h8 rfl)

/-- **Mounting** a disk without a record, with whatever else is known of `_fat64_mkfs` on it. -/
theorem fat64Init_first {P : Partition → Disk → Prop} (hnone : NoRecord (d.sector 0))
    (hmkfs : wp (fat64Mkfs fsSize) P (fun _ => False) d) :
    wp fat64Init (fun r d' => ∃ v, r = some fsPartition ∧ d'.sector 0 = fsRecord ∧
      d'.sector 8 = fsPartition.toSector ∧ d'.saved = d.saved ∧ P v d') E d := by
  rw [fat64Init, bootRecord, ideRead, wp_bind, wp_bind, wp_bind, wp_get, wp_pure, if_pos hnone,
    wp_bind]
  refine wp_mono (wp_and (fat64Mkfs_first d) hmkfs) ?_ fun _ he => he.2.elim
  rintro v d' ⟨hfirst, hpost⟩
  obtain ⟨h0, h8, hsaved⟩ := (Prod.mk.inj hfirst).imp_right Prod.mk.inj
  rw [wp_pure]
  refine wp_mono (wp_super h8) ?_ fun _ he => he
  rintro r d'' ⟨rfl, rfl⟩
  exact ⟨v, rfl, h0, h8, hsaved, hpost⟩

end Cumulonimbus.Fat64
