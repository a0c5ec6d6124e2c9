import Cumulonimbus.Fat64Volume

/-!
# The tag table as a map

`load_cluster_tags`, `save_cluster_tags`, `mark_cluster` and `get_free_cluster` compute the sector
and the place of a tag each for itself.  They agree wherever the table lies: what is stored for a
cluster is what is loaded for it, and for no other; and the search for a free cluster, which reads
every sector of the table once, finds the least one.
-/

namespace Cumulonimbus.Fat64

open Exec

attribute [local irreducible] wp

variable {v : Partition} {d : Disk} {c : UInt64} {t : Tags}

/-- `load_cluster_tags` yields the pair `t` for cluster `c`, in any handle. -/
def Disk.Loads (v : Partition) (d : Disk) (c : UInt64) (t : Tags) : Prop :=
  ∀ f : File, wp (loadClusterTags v { f with cluster := c })
    (fun g d' => g = { f with cluster := c, currentTags := t } ∧ d' = d) (fun _ => False) d

/-- The tags of `c` have become `t`, and those of no other cluster have changed. -/
def Disk.Stores (v : Partition) (d d' : Disk) (c : UInt64) (t : Tags) : Prop :=
  d'.Loads v c t ∧ ∀ x, x.toNat < v.size → x ≠ c → ∀ u, d'.Loads v x u ↔ d.Loads v x u

theorem loads_iff : d.Loads v c t ↔ d.tag v c = t := by
  have hload (f : File) : wp (loadClusterTags v { f with cluster := c })
      (fun g d' => g = { f with cluster := c, currentTags := d.tag v c } ∧ d' = d)
      (fun _ => False) d := by
    rw [loadClusterTags, ideRead, wp_bind, wp_bind, wp_get, wp_pure, wp_pure]
    exact ⟨rfl, rfl⟩
  constructor
  · intro h
    obtain ⟨g, d', -, hloads, htag⟩ := wp_returns
      (wp_mono (wp_and (h File.fresh) (hload File.fresh)) (fun _ _ hb => hb) fun _ he => he.1)
    have hcurrent : g.currentTags = d.tag v c := by rw [htag.1]
    rw [← hcurrent, hloads.1]
  · intro h
    subst h
    exact hload

/-- Writing a pair into its place. -/
theorem stores_writeTag (fits : v.size < 0x100000000) (hc : c.toNat < v.size) (t : Tags) :
    d.Stores v { d with
      sector := Function.update d.sector (tagSector v c)
        (putTag (d.sector (tagSector v c)) (whichTag c) t) } c t := by
  refine ⟨loads_iff.mpr ?_, fun x hx hne u => ?_⟩
  · rw [writeTag_tag d t (by omega) (by omega), if_pos rfl]
  · rw [loads_iff, loads_iff, writeTag_tag d t (by omega) (by omega), if_neg hne]

/-- **The tag table is a map, and allocation takes the least free cluster.** -/
theorem tags_are_map (fits : 8 * v.size + v.partitionLocation ≤ 0x100000000) (d : Disk) :
    (∀ c, c.toNat < v.size → ∀ prev next, wp (markCluster v c prev next)
      (fun _ d' => d.Stores v d' c ⟨prev, next⟩) (fun _ => False) d) ∧
    (∀ f : File, f.cluster.toNat < v.size → wp (saveClusterTags v f)
      (fun _ d' => d.Stores v d' f.cluster f.currentTags) (fun _ => False) d) ∧
    ∀ prev next, wp (getFreeCluster v prev next)
      (fun r d' => (r.toNat < v.size ∧ d.Loads v r freeTags ∧
          (∀ x, x.toNat < r.toNat → ¬ d.Loads v x freeTags) ∧ d.Stores v d' r ⟨prev, next⟩) ∨
        ((∀ x, x.toNat < v.size → ¬ d.Loads v x freeTags) ∧ r = clusterTagEof ∧ d' = d))
      (fun _ => False) d := by
  have hsmall : v.size < 0x100000000 := by omega
  refine ⟨fun c hc prev next => ?_, fun f hf => ?_, fun prev next => ?_⟩
  · rw [markCluster, ideRead, wp_bind, wp_bind, wp_get, wp_pure, ideWrite, wp_modify]
    exact stores_writeTag hsmall hc _
  · rw [saveClusterTags, ideRead, wp_bind, wp_bind, wp_get, wp_pure, ideWrite, wp_modify]
    exact stores_writeTag hsmall hf _
  · refine wp_mono (getFreeCluster_tag hsmall prev next) ?_ fun _ he => he
    intro r d' hpost
    rcases hpost with ⟨hr, hd, hnone⟩ | ⟨hlt, hfree, hbefore, rfl⟩
    · exact .inr ⟨fun x hx hloads => hnone x hx (loads_iff.mp hloads), hr, hd⟩
    · exact .inl ⟨hlt, loads_iff.mpr hfree, fun x hx hloads => hbefore x hx (loads_iff.mp hloads),
        stores_writeTag hsmall hlt _⟩

/-- On a blank disk the first cluster is taken. -/
theorem tags_are_map_blank : ∃ r d',
    getFreeCluster (mkfsPartition fsSize) 1 2 ⟨fun _ _ => 0, []⟩ = .ok (r, d') ∧
      d'.Loads (mkfsPartition fsSize) r ⟨1, 2⟩ := by
  obtain ⟨r, d', hrun, hpost⟩ := wp_returns
    ((tags_are_map (v := mkfsPartition fsSize) (by decide) ⟨fun _ _ => 0, []⟩).2.2 1 2)
  refine ⟨r, d', hrun, ?_⟩
  rcases hpost with ⟨-, -, -, hstores⟩ | ⟨hnone, -, -⟩
  · exact hstores.1
  · exact absurd (loads_iff.mpr (by decide)) (hnone 0 (by decide))

end Cumulonimbus.Fat64
