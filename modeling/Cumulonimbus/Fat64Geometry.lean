import Cumulonimbus.Fat64Tags

/-!
# The geometry of a new file system

`_fat64_mkfs` takes the size of the partition, writes a fixed number of clusters into the
superblock, and rounds the tag table down.  At the size that the kernel asks for, everything is as
it should be; at no other size does the superblock describe the partition (`geometry_iff`).
-/

namespace Cumulonimbus.Fat64

open Exec

attribute [local irreducible] wp

variable {v : Partition} {d : Disk} {size : Nat}

/-- The superblock `v` describes a partition of `size` bytes: it has the number of clusters; the
tag table, which lies between its first cluster and the root directory, has 16 bytes for each of
them; and the root directory is one of them. -/
structure Geometry (v : Partition) (size : Nat) : Prop where
  size : v.size = size / clusterSize
  table : v.clusterTags ≤ v.rootDir
  tags : 16 * v.size ≤ clusterSize * (v.rootDir - v.clusterTags)
  root : v.rootDir < v.size

/-- Allocation stays in the partition, and accesses to the tags of its clusters in the table. -/
structure Contained (v : Partition) (size : Nat) : Prop where
  allocated : ∀ prev next d, wp (getFreeCluster v prev next)
    (fun c _ => c = clusterTagEof ∨ c.toNat < size / clusterSize) (fun _ => False) d
  table : ∀ c : UInt64, c.toNat < v.size →
    v.partitionLocation + sectorsPerCluster * v.clusterTags ≤ tagSector v c ∧
      tagSector v c < v.partitionLocation + sectorsPerCluster * v.rootDir

/-- A sound geometry of a partition in 32-bit sector numbers contains everything. -/
theorem Geometry.contained (h : Geometry v size)
    (fits : v.partitionLocation + sectorsPerCluster * v.size ≤ 0x100000000) :
    Contained v size := by
  have hroot := h.root
  have htags := h.tags
  rw [sectorsPerCluster_eq] at fits
  rw [show clusterSize = 4096 from rfl] at htags
  refine ⟨fun prev next d => ?_, fun c hc => ?_⟩
  · refine wp_mono (getFreeCluster_tag (by omega) prev next) ?_ fun _ he => he
    intro c d' hpost
    rcases hpost with ⟨hc, -, -⟩ | ⟨hc, -, -, -⟩
    · exact .inl hc
    · rw [h.size] at hc
      exact .inr hc
  · have hlow : c.toNat % 2 ^ 32 = c.toNat := Nat.mod_eq_of_lt (by omega)
    have htable := h.table
    rw [tagSector, hlow, sectorsPerCluster_eq, tagsPerSector_eq]
    rw [Nat.mod_eq_of_lt (by omega)]
    omega

/-! ## Making a file system -/

/-- The tag table begins behind the superblock. -/
theorem mkfs_tagSector_ne (size : Nat) (c : UInt64) :
    tagSector (mkfsPartition size) c ≠ (mkfsPartition size).partitionLocation := by
  have hlocation : (mkfsPartition size).partitionLocation = 8 := rfl
  have htags : (mkfsPartition size).clusterTags = 1 := rfl
  rw [tagSector, hlocation, htags, sectorsPerCluster_eq, tagsPerSector_eq]
  omega

/-- Marking clusters leaves the superblock alone. -/
theorem markCluster_superblock (size : Nat) (c prev next : UInt64) {s : Sector}
    (h : d.sector (mkfsPartition size).partitionLocation = s) {E : Spin → Prop} :
    wp (markCluster (mkfsPartition size) c prev next)
      (fun _ d' => d'.sector (mkfsPartition size).partitionLocation = s) E d := by
  rw [markCluster, ideRead, wp_bind, wp_bind, wp_get, wp_pure, ideWrite, wp_modify]
  exact (Function.update_of_ne (mkfs_tagSector_ne size c).symm _ _).trans h

theorem mkfsTable_superblock (size n : Nat) {s : Sector}
    (h : d.sector (mkfsPartition size).partitionLocation = s) {E : Spin → Prop} :
    wp (mkfsTable (mkfsPartition size) n)
      (fun _ d' => d'.sector (mkfsPartition size).partitionLocation = s) E d := by
  rw [mkfsTable]
  induction List.range n generalizing d with
  | nil =>
    rw [List.forM_nil, wp_pure]
    exact h
  | cons i l ih =>
    rw [List.forM_cons]
    exact wp_seq (markCluster_superblock size _ _ _ h) fun _ _ h' => ih h'

/-- `_fat64_mkfs` returns, and what it leaves in the superblock is what it computed. -/
theorem fat64Mkfs_superblock (size : Nat) (d : Disk) {E : Spin → Prop} :
    wp (fat64Mkfs size) (fun v d' => v = mkfsPartition size ∧
      d'.sector v.partitionLocation = v.toSector) E d := by
  rw [fat64Mkfs, ideWrite, ideWrite, wp_bind, wp_modify, wp_bind, wp_modify]
  refine wp_seq (markCluster_superblock (s := (mkfsPartition size).toSector) size _ _ _ (by
    dsimp only
    rw [Function.update_self])) fun _ _ h => ?_
  refine wp_seq (mkfsTable_superblock size _ h) fun _ _ h => ?_
  exact wp_seq (markCluster_superblock size _ _ _ h) fun _ _ h => wp_pure.mpr ⟨rfl, h⟩

/-- What `_fat64_mkfs` should do for a partition of `size` bytes, whatever was on the disk. -/
def MkfsSound (size : Nat) : Prop :=
  ∀ d, wp (fat64Mkfs size) (fun v d' => d'.sector v.partitionLocation = v.toSector ∧
    Geometry v size ∧ Contained v size) (fun _ => False) d

theorem fsSize_geometry : Geometry (mkfsPartition fsSize) fsSize := by
  refine ⟨?_, ?_, ?_, ?_⟩
  · decide
  · decide
  · decide
  · decide

/-- **The superblock describes the partition only at the size that the kernel asks for.** -/
theorem geometry_iff (size : Nat) (aligned : clusterSize ∣ size) :
    MkfsSound size ↔ size = fsSize := by
  constructor
  · intro h
    obtain ⟨v, d', -, hsound, hmade⟩ := wp_returns
      (wp_mono (wp_and (h ⟨fun _ _ => 0, []⟩) (fat64Mkfs_superblock size _ (E := fun _ => False)))
        (fun _ _ hb => hb) fun _ he => he.1)
    have hsize := hsound.2.1.size
    rw [hmade.1, show (mkfsPartition size).size = 262144 from rfl] at hsize
    rw [← Nat.div_mul_cancel aligned, ← hsize]
    rfl
  · intro h d
    subst h
    refine wp_mono (fat64Mkfs_superblock fsSize d) ?_ fun _ he => he
    intro v d' hpost
    obtain ⟨rfl, hsector⟩ := hpost
    exact ⟨hsector, fsSize_geometry, fsSize_geometry.contained (by decide)⟩

theorem geometry_at_boot : MkfsSound 0x40000000 :=
  (geometry_iff 0x40000000 ⟨262144, rfl⟩).mpr rfl

/-- For a partition of 4 MiB the superblock claims 1 GiB, and there is no tag table: the root
directory lies where it should begin. -/
theorem small_partition_unsound : ¬ MkfsSound 0x400000 ∧
    (mkfsPartition 0x400000).size = 262144 ∧ 0x400000 / clusterSize = 1024 ∧
    (mkfsPartition 0x400000).rootDir = (mkfsPartition 0x400000).clusterTags := by
  refine ⟨fun h => ?_, rfl, rfl, rfl⟩
  obtain ⟨v, d', -, hsound, hmade⟩ := wp_returns (wp_mono (wp_and (h ⟨fun _ _ => 0, []⟩)
    (fat64Mkfs_superblock 0x400000 _ (E := fun _ => False))) (fun _ _ hb => hb) fun _ he => he.1)
  have hsize := hsound.2.1.size
  rw [hmade.1] at hsize
  exact absurd hsize (by decide)

end Cumulonimbus.Fat64
