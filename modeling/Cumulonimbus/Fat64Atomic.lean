import Cumulonimbus.Fat64Creation
import Cumulonimbus.Fat64Safety

/-!
# A creation that fails

Neither `fat64_touch` nor `fat64_mkdir` looks at what `get_free_dir_entry` and
`get_free_cluster` return.  Where the directory has a slot and the volume a cluster, the call
takes one of each; where one of them is missing, it goes on with `FAT64_EOF` in its place and
reports success.
-/

namespace Cumulonimbus.Fat64

open Exec

attribute [local irreducible] wp

/-- The cluster `x`, which was free, is one of its own; other tags are what they were. -/
def TakesCluster (v : Partition) (d d' : Disk) (x : UInt64) : Prop :=
  x.toNat < v.size ∧ d.tag v x = freeTags ∧
    ∀ y : UInt64, y.toNat < v.size →
      d'.tag v y = if y = x then ⟨clusterTagEof, clusterTagEof⟩ else d.tag v y

/-- One slot, which was invalid, is valid and names the cluster `x`; the others are what they
were. -/
def TakesSlot (before after : Cluster) (x : UInt64) : Prop :=
  ∃ i, i < 8 ∧ ¬ (slot before i).Valid ∧ (slot after i).Valid ∧ (slot after i).file = x ∧
    ∀ j, j < 8 → j ≠ i → slot after j = slot before j

variable {v : Partition} {d : Disk} {dir : UInt64} {f : File} {E : Spin → Prop}

/-- An entry that was put into a slot that was invalid. -/
theorem takesSlot_putEntry {vol : Volume} {e : Entry} (hparent : e.parent = dir)
    (hchunk : vol.chunk dir = d.chunk v dir) (hnum : e.dirEntryNum.toNat < 8)
    (hinvalid : ¬ (slot (d.chunk v dir) e.dirEntryNum.toNat).Valid) (hvalid : e.Valid) :
    TakesSlot (d.chunk v dir) ((vol.putEntry e).chunk dir) e.file := by
  have hput : (vol.putEntry e).chunk dir = putSlot (d.chunk v dir) e.dirEntryNum.toNat e := by
    rw [Volume.putEntry, Volume.setChunk_chunk, if_pos hparent.symm, hparent, hchunk]
  have hslot : ∀ j, j < 8 → slot ((vol.putEntry e).chunk dir) j =
      if j = e.dirEntryNum.toNat then e else slot (d.chunk v dir) j := by
    intro j hj
    rw [hput]
    exact slot_putSlot _ hj e
  refine ⟨_, hnum, hinvalid, ?_, ?_, fun j hj hne => ?_⟩
  · rw [hslot _ hnum, if_pos rfl]
    exact hvalid
  · rw [hslot _ hnum, if_pos rfl]
  · rw [hslot j hj, if_neg hne]

/-- The tags after a cluster was taken. -/
theorem takesCluster_of_shows {d' : Disk} {vol : Volume} {x : UInt64} (hx : v.Data x)
    (hfree : d.tag v x = freeTags) (h : Shows v d' vol)
    (htag : vol.tag = ((d.volume v).setTag x ⟨clusterTagEof, clusterTagEof⟩).tag) :
    TakesCluster v d d' x := by
  refine ⟨hx.2, hfree, fun y hy => ?_⟩
  rw [h.tag y hy, htag, Volume.setTag_tag]
  rfl

/-- **A creation that has what it needs.** -/
theorem Creation.takes (wf : v.Wf) (hdir : DirHandle v d dir f) (hfree : HasFreeCluster v d)
    (hnum : (getFreeDirEntry f.buf).toNat < 8)
    (hinvalid : ¬ (slot (d.chunk v dir) (getFreeDirEntry f.buf).toNat).Valid) (c : Creation) :
    wp (c.call v f)
      (fun r d' => r.1 = .success ∧ ∃ x, TakesCluster v d d' x ∧
        TakesSlot (d.chunk v dir) (d'.chunk v dir) x) E d := by
  have hvol := shows_self v d
  have hparent : v.Data f.entry.file := by
    rw [hdir.file]
    exact hdir.data
  cases c with
  | touch name =>
    refine wp_mono (fat64Touch_spec wf hvol hdir.reserved (hvol.hasFree hfree)
      (by rw [hdir.cluster]; exact hdir.data) hparent hnum name) ?_ fun _ he => he
    intro r d' hpost
    obtain ⟨rfl, x, hx, htag, h, -⟩ := hpost
    refine ⟨rfl, x, takesCluster_of_shows hx htag h rfl, ?_⟩
    rw [h.chunk dir hdir.data]
    exact takesSlot_putEntry hdir.file rfl hnum hinvalid
      (newFile_valid f name x (getFreeDirEntry f.buf) 0 validFlag (by decide))
  | mkdir name =>
    refine wp_mono (fat64Mkdir_spec wf hvol hdir.reserved (hvol.hasFree hfree) hparent hnum name)
      ?_ fun _ he => he
    intro r d' hpost
    obtain ⟨rfl, x, hx, htag, h, -⟩ := hpost
    refine ⟨rfl, x, takesCluster_of_shows hx htag h rfl, ?_⟩
    have hne : dir ≠ x := by
      intro heq
      exact hdir.used (heq ▸ htag)
    rw [h.chunk dir hdir.data, Volume.mkdir, Volume.setChunk_chunk, if_neg hne]
    exact takesSlot_putEntry hdir.file rfl hnum hinvalid
      (newFile_valid f name x (getFreeDirEntry f.buf) _ (validFlag ||| directoryFlag) (by decide))

end Cumulonimbus.Fat64
