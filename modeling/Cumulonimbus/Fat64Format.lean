import Cumulonimbus.Fat64Volume

/-!
# Formatting a used disk

`_fat64_mkfs` marks the clusters that the file system itself takes up, one by one, in sectors
that it reads back.  It writes no other tags, and it does not clear the root directory; so what
it makes is empty exactly if these were empty before.
-/

namespace Cumulonimbus.Fat64

open Exec

attribute [local irreducible] wp

variable {v : Partition} {d : Disk} {vol : Volume}

/-- Every cluster behind the root directory is free, and the root directory has no entries. -/
structure Disk.Vacant (v : Partition) (d : Disk) : Prop where
  free : ∀ c, v.rootDir < c.toNat → c.toNat < v.size → d.tag v c = freeTags
  root : ∀ i, i < entriesPerCluster → ¬ (slot (d.chunk v (UInt64.ofNat v.rootDir)) i).Valid

/-- The disk holds an empty file system: the superblock, a tag table that is linked in order, and
the root directory are in use, and nothing else is. -/
structure Disk.Empty (v : Partition) (d : Disk) : Prop extends d.Vacant v where
  reserved : ∀ c, c.toNat ≤ v.rootDir → d.tag v c ≠ freeTags
  table : ∀ c, 0 < c.toNat → c.toNat < v.rootDir → d.tag v c = tableTags (v.rootDir - 1) c

theorem format_reserved (wf : v.Wf) (h : Shows v d (vol.format v)) {c : UInt64}
    (hc : c.toNat ≤ v.rootDir) : d.tag v c ≠ freeTags := by
  have hroot := wf.root
  rw [h.tag c (by omega)]
  exact Volume.format_used wf hc

theorem format_table (wf : v.Wf) (h : Shows v d (vol.format v)) {c : UInt64}
    (hpos : 0 < c.toNat) (hc : c.toNat < v.rootDir) :
    d.tag v c = tableTags (v.rootDir - 1) c := by
  have hroot := wf.root
  rw [h.tag c (by omega), Volume.format]
  dsimp only
  rw [if_neg (by omega), if_pos hc]

/-- Formatting neither frees clusters nor removes entries. -/
theorem format_vacant {d' : Disk} (wf : v.Wf) (h : Shows v d vol)
    (h' : Shows v d' (vol.format v)) : d'.Vacant v ↔ d.Vacant v := by
  have hroot := wf.root
  have hsectors := wf.sectors
  have htag : ∀ c, v.rootDir < c.toNat → c.toNat < v.size → d'.tag v c = d.tag v c := by
    intro c hc hlt
    rw [h'.tag c hlt, h.tag c hlt, Volume.format]
    dsimp only
    rw [if_neg (by omega), if_neg (by omega)]
  have hnum : (UInt64.ofNat v.rootDir).toNat = v.rootDir :=
    UInt64.toNat_ofNat_of_lt' (show v.rootDir < 2 ^ 64 by omega)
  have hdata : v.Data (UInt64.ofNat v.rootDir) := ⟨hnum.ge, by rw [hnum]; exact hroot⟩
  have hchunk : d'.chunk v (UInt64.ofNat v.rootDir) = d.chunk v (UInt64.ofNat v.rootDir) :=
    (h'.chunk _ hdata).trans (h.chunk _ hdata).symm
  constructor
  · intro hvacant
    refine ⟨fun c hc hlt => ?_, ?_⟩
    · rw [← htag c hc hlt]
      exact hvacant.free c hc hlt
    · rw [← hchunk]
      exact hvacant.root
  · intro hvacant
    refine ⟨fun c hc hlt => ?_, ?_⟩
    · rw [htag c hc hlt]
      exact hvacant.free c hc hlt
    · rw [hchunk]
      exact hvacant.root

theorem format_empty {d' : Disk} (wf : v.Wf) (h : Shows v d vol)
    (h' : Shows v d' (vol.format v)) : d'.Empty v ↔ d.Vacant v := by
  rw [← format_vacant wf h h']
  exact ⟨fun hempty => hempty.toVacant, fun hvacant =>
    ⟨hvacant, fun _ hc => format_reserved wf h' hc, fun _ hpos hc => format_table wf h' hpos hc⟩⟩

theorem fat64Mkfs_run (d : Disk) :
    ∃ d', fat64Mkfs fsSize d = .ok (mkfsPartition fsSize, d') ∧
      Shows (mkfsPartition fsSize) d' ((d.volume (mkfsPartition fsSize)).format
        (mkfsPartition fsSize)) := by
  obtain ⟨v, d', hrun, rfl, hshows⟩ := wp_returns
    (fat64Mkfs_format (E := fun _ => False) mkfsPartition_wf (shows_self (mkfsPartition fsSize) d))
  exact ⟨d', hrun, hshows⟩

/-- **Formatting any disk** reserves the clusters of the file system itself and links the tag
table.  What is there then is an empty file system exactly if, before, every cluster behind the
root directory was free and the root directory had no valid entry. -/
theorem mkfs_empties_iff (d : Disk) :
    ∃ d', fat64Mkfs fsSize d = .ok (mkfsPartition fsSize, d') ∧
      (∀ c, c.toNat ≤ (mkfsPartition fsSize).rootDir →
        d'.tag (mkfsPartition fsSize) c ≠ freeTags) ∧
      (∀ c, 0 < c.toNat → c.toNat < (mkfsPartition fsSize).rootDir →
        d'.tag (mkfsPartition fsSize) c = tableTags ((mkfsPartition fsSize).rootDir - 1) c) ∧
      (d'.Empty (mkfsPartition fsSize) ↔ d.Vacant (mkfsPartition fsSize)) := by
  obtain ⟨d', hrun, hshows⟩ := fat64Mkfs_run d
  exact ⟨d', hrun, fun _ hc => format_reserved mkfsPartition_wf hshows hc,
    fun _ hpos hc => format_table mkfsPartition_wf hshows hpos hc,
    format_empty mkfsPartition_wf (shows_self _ d) hshows⟩

/-- A disk full of ones. -/
def Disk.ones : Disk := ⟨fun _ _ => 0xFF, []⟩

/-- On a disk full of ones no cluster becomes free. -/
theorem mkfs_keeps_old_tags :
    ¬ ∀ (d d' : Disk) (v : Partition), fat64Mkfs fsSize d = .ok (v, d') → d'.Empty v := by
  intro h
  obtain ⟨d', hrun, hshows⟩ := fat64Mkfs_run .ones
  have hvacant := (format_vacant mkfsPartition_wf (shows_self _ .ones) hshows).mp
    (h _ _ _ hrun).toVacant
  have hfree := hvacant.free 1026 (by decide) (by decide)
  exact absurd hfree (by decide +kernel)

end Cumulonimbus.Fat64
