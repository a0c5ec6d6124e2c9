import Cumulonimbus.Fat64Census
import Cumulonimbus.Fat64ReadBack
import Cumulonimbus.Fat64Writing

/-!
# What `rm` frees

`fat64_rm` frees the first cluster of the file and goes on with the tags in the handle, which are
those of the cluster that the handle stands in.  So it frees the file exactly if the handle
stands in the first cluster; from there on, the clusters up to the handle stay allocated.
-/

namespace Cumulonimbus.Fat64

open Exec Linked

attribute [local irreducible] wp

/-- A handle that stands somewhere in a file with the clusters `l`. -/
structure StandsIn (v : Partition) (d : Disk) (f : File) (l : List UInt64) : Prop where
  path : Path (d.next v) (some f.entry.file) l none
  data : ∀ c ∈ l, v.Data c
  parent : v.Data f.entry.parent
  num : f.entry.dirEntryNum.toNat < 8
  cluster : f.cluster ∈ l
  tags : f.currentTags = d.tag v f.cluster

/-- `rm` ends; the entry of the file is not valid any more, its clusters are free, and the tags
of all others are what they were. -/
def RemovesExactly (v : Partition) (f : File) (l : List UInt64) (d : Disk) : Prop :=
  wp (fat64Rm v f)
    (fun _ d' => ¬ (slot (d'.chunk v f.entry.parent) f.entry.dirEntryNum.toNat).Valid ∧
      (∀ c ∈ l, d'.tag v c = freeTags) ∧
      ∀ c : UInt64, c.toNat < v.size → c ∉ l → d'.tag v c = d.tag v c)
    (fun _ => False) d

variable {v : Partition} {d : Disk} {f : File} {c : UInt64} {l : List UInt64} {E : Spin → Prop}

/-- So does a handle that `fat64_open`, reads and writes have brought to some position. -/
theorem OpenFile.standsIn {vol : Volume} {e : Entry} {pos : Nat} (h : OpenFile v d vol e l f pos)
    (hplace : Place l f pos) : StandsIn v d f l := by
  have hentry := h.entry
  have hnext : ∀ c ∈ l, d.next v c = vol.next c := by
    intro c hc
    rw [Disk.next, Volume.next, h.shows.tag c (h.data c hc).2]
  have hfile : link e.file = some e.file := by
    cases l with
    | nil => exact absurd rfl h.nonempty
    | cons x l =>
      have hhead := h.path.1
      exact hhead.trans (congrArg some (link_eq_some hhead).1.symm)
  constructor
  case path =>
    rw [hentry, ← hfile]
    exact h.path.congr hnext
  case data => exact h.data
  case parent => rw [hentry]; exact h.parent
  case num => rw [hentry]; exact h.num
  case cluster => exact hplace.mem
  case tags => rw [h.tags, h.shows.tag _ (h.data _ hplace.mem).2]

/-- A cluster of a file is not free. -/
theorem StandsIn.used (wf : v.Wf) (h : StandsIn v d f l) (hc : c ∈ l) : d.tag v c ≠ freeTags := by
  intro hfree
  have hnext : d.next v c = some 0 := by
    rw [Disk.next, hfree]
    exact link_of_ne (by decide)
  obtain ⟨l₁, l₂, rfl⟩ := List.append_of_mem hc
  obtain ⟨b, -, -, hrest⟩ := path_append.mp h.path
  rw [hnext] at hrest
  cases l₂ with
  | nil => cases hrest
  | cons x l₂ =>
    obtain rfl : x = 0 := (Option.some.inj hrest.1).symm
    exact (h.data 0 (by simp)).ne_zero wf rfl

/-- **Removing** frees the first cluster and those behind the handle. -/
theorem StandsIn.rm (wf : v.Wf) {l₁ l₂ : List UInt64} (h : StandsIn v d f (l₁ ++ f.cluster :: l₂)) :
    wp (fat64Rm v f)
      (fun _ d' => ¬ (slot (d'.chunk v f.entry.parent) f.entry.dirEntryNum.toNat).Valid ∧
        ∀ c : UInt64, c.toNat < v.size → d'.tag v c =
          if c ∈ f.entry.file :: l₂ then freeTags else d.tag v c) E d := by
  have hfirst : f.entry.file ∈ l₁ ++ f.cluster :: l₂ :=
    List.mem_of_head? h.path.head_eq.symm
  have hcluster := h.data _ h.cluster
  have hpath : Path (d.volume v).next (link f.currentTags.next) l₂ none := by
    obtain ⟨b, -, -, hrest⟩ := path_append.mp h.path
    rw [h.tags]
    exact hrest
  have hnot : f.entry.file ∉ l₂ := by
    have hnodup := h.path.nodup
    have hhead := h.path.head_eq
    intro hmem
    cases l₁ with
    | nil =>
      have hsame : f.entry.file = f.cluster := Option.some.inj hhead
      rw [hsame] at hmem
      exact (List.nodup_cons.mp hnodup).1 hmem
    | cons x l₁ =>
      have hsame : f.entry.file = x := Option.some.inj hhead
      rw [hsame] at hmem
      exact (List.nodup_cons.mp hnodup).1 (by simp [hmem])
  refine wp_mono (fat64Rm_spec wf (shows_self v d) (hcluster.ne_zero wf) h.parent h.num
    (h.data _ hfirst) hpath (fun x hx => h.data x (by simp [hx])) hnot) ?_ fun _ he => he
  intro r d' hpost
  obtain ⟨-, -, h'⟩ := hpost
  refine ⟨?_, fun c hc => h'.tag c hc⟩
  rw [h'.chunk _ h.parent, Volume.free, Volume.putEntry, Volume.setChunk_chunk, if_pos rfl,
    slot_putSlot _ h.num, if_pos rfl]
  exact show ¬ ((0 : UInt32) &&& validFlag ≠ 0) by decide

theorem removesExactly_of_first (wf : v.Wf) (h : StandsIn v d f l)
    (hfirst : f.cluster = f.entry.file) : RemovesExactly v f l d := by
  cases l with
  | nil => cases h.path
  | cons x l =>
    obtain rfl : x = f.cluster := by
      rw [hfirst]
      exact (Option.some.inj h.path.1).symm
    have hsplit : StandsIn v d f ([] ++ f.cluster :: l) := h
    refine wp_mono (hsplit.rm wf) ?_ fun _ he => he
    intro r d' hpost
    obtain ⟨hinvalid, htag⟩ := hpost
    rw [← hfirst] at htag
    refine ⟨hinvalid, fun c hc => ?_, fun c hlt hc => ?_⟩
    · rw [htag c (h.data c hc).2, if_pos hc]
    · rw [htag c hlt, if_neg hc]

/-- The cluster that the handle stands in, if it is not the first, stays allocated. -/
theorem first_of_removesExactly (wf : v.Wf) (h : StandsIn v d f l)
    (hexact : RemovesExactly v f l d) : f.cluster = f.entry.file := by
  by_contra hne
  obtain ⟨l₁, l₂, rfl⟩ := List.append_of_mem h.cluster
  have hnot : f.cluster ∉ f.entry.file :: l₂ := by
    intro hmem
    rcases List.mem_cons.mp hmem with heq | hmem
    · exact hne heq
    · exact (List.nodup_cons.mp (List.nodup_append.mp h.path.nodup).2.1).1 hmem
  obtain ⟨r, d', hrun, -, hfree, -⟩ := wp_returns hexact
  have hkept := (wp_ok (StandsIn.rm (E := fun _ => True) wf h) hrun).2 _ (h.data _ h.cluster).2
  rw [if_neg hnot, hfree _ h.cluster] at hkept
  exact h.used wf h.cluster hkept.symm

/-- **`rm` frees exactly the file** exactly if the handle stands in its first cluster. -/
theorem removes_exactly_iff (wf : v.Wf) (h : StandsIn v d f l) :
    RemovesExactly v f l d ↔ f.cluster = f.entry.file :=
  ⟨first_of_removesExactly wf h, removesExactly_of_first wf h⟩

/-- `rm` on a file of many clusters that was just opened. -/
theorem removes_exactly_large :
    RemovesExactly largePartition
      (File.fresh.opened (largeDisk.volume largePartition) largeEntry)
      ((List.range' 4201 1048576).map UInt64.ofNat) largeDisk := by
  have hopened := largeFile_stored.opened (g := .fresh) (shows_self largePartition largeDisk)
  exact (removes_exactly_iff largePartition_wf (hopened.1.standsIn hopened.2)).mpr rfl

/-- The handle of the large file after its first cluster was read. -/
theorem second_cluster_not_removed :
    ¬ ∀ (v : Partition) (d : Disk) (f : File) (l : List UInt64),
      v.Wf → StandsIn v d f l → RemovesExactly v f l d := by
  intro hclaim
  have hopened := largeFile_stored.opened (g := .fresh) (shows_self largePartition largeDisk)
  have hstands := hopened.1.standsIn hopened.2
  have hmoved : StandsIn largePartition largeDisk
      { File.fresh.opened (largeDisk.volume largePartition) largeEntry with
        cluster := 4202
        currentTags := largeDisk.tag largePartition 4202
        absLocation := 4096 }
      ((List.range' 4201 1048576).map UInt64.ofNat) :=
    { hstands with
      cluster := List.mem_map.mpr ⟨4202, List.mem_range'_1.mpr ⟨by omega, by omega⟩, rfl⟩
      tags := rfl }
  exact absurd (first_of_removesExactly largePartition_wf hmoved
    (hclaim _ _ _ _ largePartition_wf hmoved)) (by decide : (4202 : UInt64) ≠ 4201)

end Cumulonimbus.Fat64
