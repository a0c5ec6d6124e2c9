import Mathlib.Data.List.GetD
import Mathlib.Data.List.Perm.Subperm
import Cumulonimbus.Fat64Calls
import Cumulonimbus.Linked

/-!
# Files as sequences of bytes

A file is a chain of clusters, and its bytes are those of the chain up to its size.  A handle
stands at a position of the file: in a cluster of the chain, or behind the last one when that
is full.  Writing a byte replaces the byte at the position, or adds one at the end, whatever
happens to clusters meanwhile (`fat64Putc_file`).
-/

namespace Cumulonimbus.Fat64

open Exec Linked

attribute [local irreducible] wp

/-- The cluster that a tag or an entry names, unless it is `FAT64_CLUSTER_TAG_EOF`. -/
def link (c : UInt64) : Option UInt64 := if c = clusterTagEof then none else some c

/-- The cluster after `c` in its chain. -/
def Volume.next (vol : Volume) (c : UInt64) : Option UInt64 := link (vol.tag c).next

/-- The cluster after `c`, on the disk. -/
def Disk.next (v : Partition) (d : Disk) (c : UInt64) : Option UInt64 := link (d.tag v c).next

/-- The file with the entry `e` is on the disk: the entry lies in its slot, and the file is the
chain `l`. -/
structure Stored (v : Partition) (vol : Volume) (e : Entry) (l : List UInt64) : Prop where
  reserved : vol.Reserves v
  parent : v.Data e.parent
  parentUsed : vol.tag e.parent ≠ freeTags
  num : e.dirEntryNum.toNat < 8
  slot : slot (vol.chunk e.parent) e.dirEntryNum.toNat = e
  valid : e.Valid
  plain : ¬ e.IsDirectory
  path : Path vol.next (link e.file) l none
  data : ∀ c ∈ l, v.Data c
  used : ∀ c ∈ l, vol.tag c ≠ freeTags
  apart : e.parent ∉ l
  nonempty : l ≠ []
  size : e.size.toNat ≤ clusterSize * l.length

/-- The byte at a position of a chain of clusters. -/
def Volume.byteOf (vol : Volume) (l : List UInt64) (p : Nat) : UInt8 :=
  vol.chunk (l.getD (p / clusterSize) 0) ⟨p % 4096, Nat.mod_lt p (Nat.zero_lt_succ 4095)⟩

/-- The first `n` bytes of a chain of clusters. -/
def Volume.bytes (vol : Volume) (l : List UInt64) (n : Nat) : List UInt8 :=
  (List.range n).map (vol.byteOf l)

/-- `l'` is `l`, or `l` and clusters that were free, and no others have been taken. -/
structure Takes (vol vol' : Volume) (l l' : List UInt64) : Prop where
  initial : l <+: l'
  new : ∀ x ∈ l', x ∈ l ∨ vol.tag x = freeTags
  free : ∀ x, vol'.tag x = freeTags ↔ vol.tag x = freeTags ∧ x ∉ l'

variable {v : Partition} {d : Disk} {vol vol' vol'' : Volume} {e : Entry} {f g : File}
  {l l' l'' : List UInt64} {c : UInt64} {n i pos : Nat} {E : Spin → Prop}

/-! ## Chains -/

/-- The tag `EOF` links to nothing. -/
theorem link_eof : link clusterTagEof = none := if_pos rfl

/-- Any other number links to its cluster. -/
theorem link_of_ne (h : c ≠ clusterTagEof) : link c = some c := if_neg h

/-- Only `EOF` links to nothing. -/
theorem link_eq_none (h : link c = none) : c = clusterTagEof := by
  by_contra hne
  rw [link_of_ne hne] at h
  cases h

/-- What a link leads to is the number itself. -/
theorem link_eq_some {x : UInt64} (h : link c = some x) : c = x ∧ c ≠ clusterTagEof := by
  by_cases heof : c = clusterTagEof
  · rw [heof, link_eof] at h
    cases h
  · rw [link_of_ne heof] at h
    exact ⟨Option.some.inj h, heof⟩

/-- No data cluster has the number `EOF`: the partition is far smaller. -/
theorem Partition.Data.ne_eof (wf : v.Wf) (h : v.Data c) : c ≠ clusterTagEof := by
  intro heq
  have hsectors := wf.sectors
  have heof : clusterTagEof.toNat = 4294967295 := rfl
  have hlt := h.2
  rw [heq] at hlt
  omega

/-- The next cluster depends on the tag. -/
theorem Volume.next_congr (h : vol'.tag c = vol.tag c) : vol'.next c = vol.next c := by
  rw [next, next, h]

/-- Nothing is taken where no tag changes. -/
theorem Takes.refl (hused : ∀ c ∈ l, vol.tag c ≠ freeTags) (htag : ∀ c, vol'.tag c = vol.tag c) :
    Takes vol vol' l l := by
  refine ⟨List.prefix_refl l, fun _ hx => Or.inl hx, fun x => ?_⟩
  rw [htag]
  exact ⟨fun hfree => ⟨hfree, fun hx => hused x hx hfree⟩, fun h => h.1⟩

/-- What is taken in two steps. -/
theorem Takes.trans (h : Takes vol vol' l l') (h' : Takes vol' vol'' l' l'') :
    Takes vol vol'' l l'' := by
  refine ⟨h.initial.trans h'.initial, fun x hx => ?_, fun x => ?_⟩
  · rcases h'.new x hx with hold | hfree
    · exact h.new x hold
    · exact Or.inr ((h.free x).mp hfree).1
  · rw [h'.free, h.free]
    constructor
    · intro hfree
      exact ⟨hfree.1.1, hfree.2⟩
    · intro hfree
      exact ⟨⟨hfree.1, fun hx => hfree.2 (h'.initial.subset hx)⟩, hfree.2⟩

/-- A chain is no longer than the partition. -/
theorem chain_length_le {a : Option UInt64} (h : Path vol.next a l none)
    (hdata : ∀ c ∈ l, v.Data c) : l.length ≤ v.size := by
  have hnodup : (l.map UInt64.toNat).Nodup :=
    h.nodup.map fun _ _ heq => UInt64.toNat_inj.mp heq
  have hsubset : l.map UInt64.toNat ⊆ List.range v.size := by
    intro x hx
    obtain ⟨c, hc, rfl⟩ := List.mem_map.mp hx
    exact List.mem_range.mpr (hdata c hc).2
  simpa using (hnodup.subperm hsubset).length_le

namespace Stored

/-- No cluster is twice in the chain of a file. -/
theorem nodup (st : Stored v vol e l) : l.Nodup := st.path.nodup

/-- So it has no more clusters than the partition. -/
theorem length_le (st : Stored v vol e l) : l.length ≤ v.size := chain_length_le st.path st.data

/-- The tag of a cluster names the one after it in the chain. -/
theorem next_eq (st : Stored v vol e l) (hi : l[i]? = some c) :
    link (vol.tag c).next = l[i + 1]? := st.path.next_of_getElem? hi

/-- Tags of other clusters and contents of clusters that are not directories may change. -/
theorem congr (st : Stored v vol e l) (hres : vol'.Reserves v)
    (hparent : vol'.tag e.parent ≠ freeTags) (htag : ∀ c ∈ l, vol'.tag c = vol.tag c)
    (hchunk : vol'.chunk e.parent = vol.chunk e.parent) : Stored v vol' e l where
  reserved := hres
  parent := st.parent
  parentUsed := hparent
  num := st.num
  slot := by rw [hchunk]; exact st.slot
  valid := st.valid
  plain := st.plain
  path := st.path.congr fun c hc => Volume.next_congr (htag c hc)
  data := st.data
  used := fun c hc => by rw [htag c hc]; exact st.used c hc
  apart := st.apart
  nonempty := st.nonempty
  size := st.size

/-- Saving a cluster of the file. -/
theorem save (st : Stored v vol e l) (hf : f.cluster ∈ l) : Stored v (vol.save f) e l := by
  refine st.congr ?_ ?_ (fun c _ => ?_) ?_
  · intro c hc
    rw [Volume.save_tag]
    exact st.reserved c hc
  · rw [Volume.save_tag]
    exact st.parentUsed
  · rw [Volume.save_tag]
  · have hne : ¬ (f.dirty ∧ e.parent = f.cluster) := fun h => st.apart (h.2 ▸ hf)
    rw [Volume.save_chunk, if_neg hne]

/-- The entry of the file is written with a new size. -/
theorem putEntry (st : Stored v vol e l) {size : UInt64}
    (hsize : size.toNat ≤ clusterSize * l.length) :
    Stored v (vol.putEntry { e with size := size }) { e with size := size } l where
  reserved := st.reserved
  parent := st.parent
  parentUsed := st.parentUsed
  num := st.num
  slot := by
    rw [Volume.putEntry, Volume.setChunk_chunk, if_pos rfl]
    dsimp only
    rw [slot_putSlot _ st.num, if_pos rfl]
  valid := st.valid
  plain := st.plain
  path := st.path
  data := st.data
  used := st.used
  apart := st.apart
  nonempty := st.nonempty
  size := hsize

end Stored

/-- The volume after `c` has been linked behind the cluster of a handle, by its tags. -/
theorem Volume.extend_tag (vol : Volume) (f : File) (c x : UInt64) :
    (vol.extend f c).tag x = if x = f.cluster then ⟨f.currentTags.prev, c⟩
      else if x = c then ⟨f.cluster, clusterTagEof⟩ else vol.tag x := by
  rw [extend, save_tag, setTag_tag, setTag_tag]

/-- The other clusters keep their tags. -/
theorem Volume.extend_tag_of_ne (vol : Volume) {f : File} {c x : UInt64} (hxf : x ≠ f.cluster)
    (hxc : x ≠ c) : (vol.extend f c).tag x = vol.tag x := by
  rw [Volume.extend_tag, if_neg hxf, if_neg hxc]

/-- The new cluster is behind the cluster of the handle. -/
theorem Volume.extend_next_old (wf : v.Wf) (vol : Volume) (f : File) {c : UInt64}
    (hc : v.Data c) : (vol.extend f c).next f.cluster = some c := by
  rw [Volume.next, Volume.extend_tag, if_pos rfl]
  exact link_of_ne (hc.ne_eof wf)

/-- The new cluster is the last one. -/
theorem Volume.extend_next_new (vol : Volume) {f : File} {c : UInt64} (hne : c ≠ f.cluster) :
    (vol.extend f c).next c = none := by
  rw [Volume.next, Volume.extend_tag, if_neg hne, if_pos rfl]
  exact link_eof

/-- The buffer of the handle goes to its own cluster. -/
theorem Volume.extend_chunk_of_ne (vol : Volume) {f : File} {c x : UInt64}
    (hne : x ≠ f.cluster) : (vol.extend f c).chunk x = vol.chunk x := by
  rw [Volume.extend, Volume.save_chunk, if_neg fun h => hne h.2]
  rfl

/-- A cluster that was free is linked behind the last one of a file. -/
theorem Stored.extend (wf : v.Wf) (st : Stored v vol e l) (hlast : l.getLast? = some f.cluster)
    (hc : v.Data c) (hfree : vol.tag c = freeTags) :
    Stored v (vol.extend f c) e (l ++ [c]) ∧ Takes vol (vol.extend f c) l (l ++ [c]) := by
  have hmem : f.cluster ∈ l := List.mem_of_getLast? hlast
  have hnew : c ∉ l := fun hcl => st.used c hcl hfree
  have hparent : e.parent ≠ c := fun heq => st.parentUsed (heq ▸ hfree)
  have hne : c ≠ f.cluster := fun heq => hnew (heq ▸ hmem)
  have hlink := linkTags_used wf hc f.currentTags.prev
  have hend := lastTags_used f.cluster
  have hfreeIff : ∀ x, (vol.extend f c).tag x = freeTags ↔
      vol.tag x = freeTags ∧ x ∉ l ++ [c] := by
    intro x
    rw [Volume.extend_tag, List.mem_append, List.mem_singleton]
    by_cases hxf : x = f.cluster
    · rw [if_pos hxf]
      exact ⟨fun h => absurd h hlink, fun h => absurd (Or.inl (hxf ▸ hmem)) h.2⟩
    rw [if_neg hxf]
    by_cases hxc : x = c
    · rw [if_pos hxc]
      exact ⟨fun h => absurd h hend, fun h => absurd (Or.inr hxc) h.2⟩
    rw [if_neg hxc]
    refine ⟨fun h => ⟨h, fun hx => ?_⟩, fun h => h.1⟩
    exact st.used x (hx.resolve_right hxc) h
  have hpath : Path (vol.extend f c).next (link e.file) (l ++ [c]) none := by
    have hold : Path vol.next (link e.file) (l ++ []) none := by
      rw [List.append_nil]
      exact st.path
    have hinsert : Path (vol.extend f c).next (if l = [] then some c else link e.file)
        (l ++ c :: []) none := hold.insert ?_ ?_ ?_
    · rwa [if_neg st.nonempty] at hinsert
    · intro x hx hxlast
      rw [List.append_nil] at hx
      have hxc : x ≠ c := fun heq => hnew (heq ▸ hx)
      have hxf : x ≠ f.cluster := fun heq => hxlast (heq ▸ hlast)
      exact Volume.next_congr (vol.extend_tag_of_ne hxf hxc)
    · intro x hx
      obtain rfl : f.cluster = x := Option.some.inj (hlast.symm.trans hx)
      exact vol.extend_next_old wf f hc
    · exact vol.extend_next_new hne
  have hsaved : (vol.extend f c).chunk e.parent = vol.chunk e.parent :=
    vol.extend_chunk_of_ne fun heq => st.apart (heq ▸ hmem)
  refine ⟨⟨fun x hx hxfree => st.reserved x hx ((hfreeIff x).mp hxfree).1, st.parent,
    fun h => st.parentUsed ((hfreeIff _).mp h).1, st.num, by rw [hsaved]; exact st.slot, st.valid,
    st.plain, hpath, fun x hx => ?_, fun x hx hxfree => ((hfreeIff x).mp hxfree).2 hx, ?_, by simp,
    ?_⟩, ⟨List.prefix_append l [c], fun x hx => ?_, hfreeIff⟩⟩
  · rcases List.mem_append.mp hx with hx | hx
    · exact st.data x hx
    · rw [List.mem_singleton.mp hx]
      exact hc
  · intro hx
    rcases List.mem_append.mp hx with hx | hx
    · exact st.apart hx
    · exact hparent (List.mem_singleton.mp hx)
  · rw [List.length_append, List.length_singleton]
    have hsize := st.size
    have hclusterSize : clusterSize = 4096 := rfl
    rw [hclusterSize] at hsize ⊢
    omega
  · rcases List.mem_append.mp hx with hx | hx
    · exact Or.inl hx
    · rw [List.mem_singleton.mp hx]
      exact Or.inr hfree

/-! ## Bytes -/

/-- The size of a cluster, for arithmetic. -/
theorem clusterSize_eq : clusterSize = 4096 := rfl

@[simp] theorem Volume.length_bytes (vol : Volume) (l : List UInt64) (n : Nat) :
    (vol.bytes l n).length = n := by
  simp [bytes]

@[simp] theorem Volume.getElem_bytes (vol : Volume) (l : List UInt64) {p : Nat}
    (hp : p < (vol.bytes l n).length) : (vol.bytes l n)[p] = vol.byteOf l p := by
  simp [bytes]

/-- Bytes are determined by the clusters that they lie in. -/
theorem Volume.bytes_congr
    (h : ∀ j, clusterSize * j < n → vol'.chunk (l'.getD j 0) = vol.chunk (l.getD j 0)) :
    vol'.bytes l' n = vol.bytes l n := by
  refine List.map_congr_left fun p hp => ?_
  have hlt := List.mem_range.mp hp
  rw [byteOf, byteOf, h]
  exact Nat.lt_of_le_of_lt (Nat.mul_div_le p clusterSize) hlt

/-- One byte of one cluster is replaced. -/
theorem Volume.byteOf_store (hnodup : l.Nodup) (hc : l[i]? = some c) {k : Nat}
    (hk : k < clusterSize) {data : UInt8}
    (hin : vol'.chunk c = fun j => if j.val = k then data else vol.chunk c j)
    (hout : ∀ x ∈ l, x ≠ c → vol'.chunk x = vol.chunk x) {p : Nat}
    (hp : p < clusterSize * l.length) :
    vol'.byteOf l p = if p = clusterSize * i + k then data else vol.byteOf l p := by
  rw [clusterSize_eq] at *
  have hdiv : p / 4096 < l.length := Nat.div_lt_of_lt_mul hp
  obtain ⟨hi, hci⟩ := List.getElem?_eq_some_iff.mp hc
  rw [byteOf, byteOf, clusterSize_eq, List.getD_eq_getElem _ _ hdiv]
  by_cases hsame : p / 4096 = i
  · have hx : l[p / 4096] = c := by
      rw [← hci]
      exact getElem_congr_idx hsame
    rw [hx, hin]
    dsimp only
    have hpos : p % 4096 = k ↔ p = 4096 * i + k := by omega
    simp only [hpos]
  · have hx : l[p / 4096] ≠ c := by
      rw [← hci]
      exact fun heq => hsame ((hnodup.getElem_inj_iff).mp heq)
    rw [hout _ (List.getElem_mem hdiv) hx, if_neg (by omega)]

/-- The byte at `pos` is replaced, or added at the end. -/
theorem Volume.bytes_store (hnodup : l.Nodup) (hc : l[i]? = some c) {k : Nat}
    (hk : k < clusterSize) {data : UInt8}
    (hin : vol'.chunk c = fun j => if j.val = k then data else vol.chunk c j)
    (hout : ∀ x ∈ l, x ≠ c → vol'.chunk x = vol.chunk x) (hpos : pos = clusterSize * i + k)
    (hn : pos ≤ n) (hlen : n ≤ clusterSize * l.length) :
    vol'.bytes l (max n (pos + 1)) =
      (vol.bytes l n).take pos ++ data :: (vol.bytes l n).drop (pos + 1) := by
  obtain ⟨hi, -⟩ := List.getElem?_eq_some_iff.mp hc
  have hend : pos + 1 ≤ clusterSize * l.length := by
    rw [clusterSize_eq] at *
    omega
  refine List.ext_getElem ?_ fun p hp hp' => ?_
  · simp only [length_bytes, List.length_append, List.length_take, List.length_cons,
      List.length_drop]
    omega
  rw [length_bytes] at hp
  rw [getElem_bytes, byteOf_store hnodup hc hk hin hout (by omega), ← hpos]
  rcases Nat.lt_trichotomy p pos with hlt | rfl | hgt
  · rw [if_neg hlt.ne, List.getElem_append_left (by simp; omega), List.getElem_take, getElem_bytes]
  · rw [if_pos rfl, List.getElem_append_right (by simp)]
    simp [Nat.min_eq_left hn]
  · rw [if_neg (by omega), List.getElem_append_right (by simp; omega)]
    have hidx : p - ((vol.bytes l n).take pos).length = p - (pos + 1) + 1 := by
      rw [List.length_take, length_bytes, Nat.min_eq_left hn]
      omega
    simp only [hidx, List.getElem_cons_succ, List.getElem_drop, getElem_bytes]
    congr 1
    omega

/-! ## Handles at a position -/

/-- A handle that is open on a stored file, at the position `pos`. -/
structure OpenFile (v : Partition) (d : Disk) (vol : Volume) (e : Entry) (l : List UInt64)
    (f : File) (pos : Nat) : Prop extends Stored v vol e l where
  shows : Shows v d vol
  entry : f.entry = e
  tags : f.currentTags = vol.tag f.cluster
  clean : f.dirty = false → f.buf = vol.chunk f.cluster
  abs : f.absLocation.toNat = pos

/-- The handle stands in cluster `i` of the chain. -/
structure Inside (l : List UInt64) (f : File) (i pos : Nat) : Prop where
  cluster : l[i]? = some f.cluster
  pos : pos = clusterSize * i + f.location.toNat

/-- The handle stands behind the last cluster of the chain. -/
structure Behind (l : List UInt64) (f : File) (pos : Nat) : Prop where
  cluster : l.getLast? = some f.cluster
  location : f.location = eof32
  pos : pos = clusterSize * l.length

/-- Where a handle stands between two calls. -/
def Place (l : List UInt64) (f : File) (pos : Nat) : Prop :=
  (∃ i, Inside l f i pos ∧ f.location.toNat < clusterSize) ∨ Behind l f pos

/-- The place is within the chain. -/
theorem Inside.lt (h : Inside l f i pos) : i < l.length :=
  (List.getElem?_eq_some_iff.mp h.cluster).1

/-- The cluster of the handle is part of the chain. -/
theorem Inside.mem (h : Inside l f i pos) : f.cluster ∈ l := List.mem_of_getElem? h.cluster

/-- So it is where the handle is behind the last byte. -/
theorem Behind.mem (h : Behind l f pos) : f.cluster ∈ l := List.mem_of_getLast? h.cluster

/-- So it is in both cases. -/
theorem Place.mem (h : Place l f pos) : f.cluster ∈ l := by
  rcases h with ⟨i, h, -⟩ | h
  · exact h.mem
  · exact h.mem

/-- The location `FAT64_EOF`, for arithmetic. -/
theorem eof32_toNat : eof32.toNat = 4294967295 := rfl

/-- A handle at the location `FAT64_EOF` is behind the last byte. -/
theorem Place.behind (h : Place l f pos) (hloc : f.location = eof32) : Behind l f pos := by
  rcases h with ⟨i, -, hlt⟩ | h
  · rw [hloc, eof32_toNat, clusterSize_eq] at hlt
    omega
  · exact h

/-- The contents of a handle's own cluster, once it is saved. -/
theorem OpenFile.buf_eq (h : OpenFile v d vol e l f pos) :
    (vol.save f).chunk f.cluster = f.buf := by
  rw [Volume.save_chunk]
  by_cases hdirty : f.dirty = true
  · rw [if_pos ⟨hdirty, rfl⟩]
  · have hclean : f.dirty = false := by simpa using hdirty
    rw [if_neg fun hd => hdirty hd.1, h.clean hclean]

/-- Positions of a file fit into 64 bits. -/
theorem Stored.bound (wf : v.Wf) (st : Stored v vol e l) :
    clusterSize * l.length + 1 < 2 ^ 64 := by
  have hlen := st.length_le
  have hsectors := wf.sectors
  rw [clusterSize_eq]
  omega

/-- A clean buffer has nothing to save. -/
theorem Volume.save_clean (hclean : f.dirty = false) : vol.save f = vol := by
  rw [save, hclean]
  rfl

/-- The part of `fat64_putc` that makes room at the end of a full file. -/
theorem putcExtend_file (wf : v.Wf) (h : OpenFile v d vol e l f pos) (place : Place l f pos) :
    wp (putcExtend v f)
      (fun r d' => (r = (.eof, f) ∧ d' = d ∧ ¬ vol.HasFree v ∧ pos = clusterSize * l.length) ∨
        (r.1 = .success ∧ ∃ vol' l' i, OpenFile v d' vol' e l' r.2 pos ∧ Inside l' r.2 i pos ∧
          r.2.location.toNat < clusterSize ∧ Takes vol vol' l l' ∧
          l'.length = max l.length (pos / clusterSize + 1) ∧
          ∀ n, n ≤ clusterSize * l.length →
            (vol'.save r.2).bytes l' n = (vol.save f).bytes l n)) E d := by
  refine wp_mono (putcExtend_spec wf h.shows h.reserved (h.data _ place.mem)) ?_ fun _ he => he
  intro r d' hpost
  rcases hpost with ⟨rfl, hloc, rfl⟩ | ⟨rfl, hloc, rfl, hfull⟩ | ⟨hloc, -, c, hc, hfree, rfl, h', -⟩
  · rcases place with ⟨i, inside, hlt⟩ | behind
    · refine Or.inr ⟨rfl, vol, l, i, h, inside, hlt, .refl h.used fun _ => rfl, ?_, fun _ _ => rfl⟩
      have hi := inside.lt
      have hpos := inside.pos
      rw [clusterSize_eq] at *
      omega
    · exact absurd behind.location hloc
  · refine Or.inl ⟨rfl, rfl, hfull.resolve_left ?_, (place.behind hloc).pos⟩
    rw [h.entry]
    exact h.plain
  have behind := place.behind hloc
  obtain ⟨st, takes⟩ := h.toStored.extend wf behind.cluster hc hfree
  refine Or.inr ⟨rfl, vol.extend f c, l ++ [c], l.length, ?_, ?_, ?_, takes, ?_, fun n hn => ?_⟩
  · exact ⟨st, h', h.entry, rfl, fun _ => rfl, h.abs⟩
  · exact ⟨by simp [File.moved], by simpa [File.moved] using behind.pos⟩
  · show (0 : UInt32).toNat < clusterSize
    decide
  · have hpos := behind.pos
    rw [List.length_append, List.length_singleton]
    rw [clusterSize_eq] at *
    omega
  · rw [Volume.save_clean rfl]
    refine Volume.bytes_congr fun j hj => ?_
    have hlt : j < l.length := by
      rw [clusterSize_eq] at *
      omega
    rw [List.getD_append _ _ _ _ hlt]
    rw [Volume.extend, Volume.save_chunk, Volume.save_chunk]
    rfl

/-- The part of `fat64_putc` that stores the byte. -/
theorem putcStore_file (wf : v.Wf) (h : OpenFile v d vol e l f pos) (inside : Inside l f i pos)
    (hlt : f.location.toNat < clusterSize) (hpos : pos ≤ e.size.toNat) (data : UInt8) :
    wp (putcStore v f data)
      (fun g d' => ∃ vol' size, OpenFile v d' vol' { e with size := size } l g (pos + 1) ∧
        Inside l g i (pos + 1) ∧ g.location.toNat = f.location.toNat + 1 ∧
        (∀ c, vol'.tag c = vol.tag c) ∧ size.toNat = max e.size.toNat (pos + 1) ∧
        (vol'.save g).bytes l size.toNat = ((vol.save f).bytes l e.size.toNat).take pos ++
          data :: ((vol.save f).bytes l e.size.toNat).drop (pos + 1)) E d := by
  have hentry := h.entry
  have hbound := h.bound wf
  have hsize := h.size
  have hi := inside.lt
  have hplace := inside.pos
  have hend : pos + 1 ≤ clusterSize * l.length := by
    rw [clusterSize_eq] at *
    omega
  have habs : (f.absLocation + 1).toNat = pos + 1 := by
    rw [UInt64.toNat_add, h.abs]
    exact Nat.mod_eq_of_lt (show pos + 1 < 2 ^ 64 by omega)
  have hloc : (f.location + 1).toNat = f.location.toNat + 1 := by
    rw [UInt32.toNat_add]
    rw [clusterSize_eq] at hlt
    exact Nat.mod_eq_of_lt (show f.location.toNat + 1 < 2 ^ 32 by omega)
  refine wp_mono (putcStore_spec wf h.shows (by rw [hentry]; exact h.parent)
    (by rw [hentry]; exact h.num) data) ?_ fun _ he => he
  intro g d' hpost
  obtain ⟨rfl, h', -⟩ := hpost
  -- the bytes do not depend on the entry
  have hbytes : ∀ vol' : Volume, (∀ x ∈ l, vol'.chunk x = vol.chunk x) →
      (vol'.save (f.stored data)).bytes l (max e.size.toNat (pos + 1)) =
        ((vol.save f).bytes l e.size.toNat).take pos ++
          data :: ((vol.save f).bytes l e.size.toNat).drop (pos + 1) := by
    intro vol' hsame
    refine Volume.bytes_store h.nodup inside.cluster hlt ?_ (fun x hx hne => ?_) hplace hpos hsize
    · rw [h.buf_eq, Volume.save_chunk, if_pos ⟨rfl, rfl⟩]
      rfl
    · rw [Volume.save_chunk, Volume.save_chunk, if_neg fun hd => hne hd.2,
        if_neg fun hd => hne hd.2]
      exact hsame x hx
  have hinside : Inside l (f.stored data) i (pos + 1) := by
    refine ⟨inside.cluster, ?_⟩
    have hstored : (f.stored data).location = f.location + 1 := rfl
    rw [hstored, hloc]
    omega
  rw [Volume.grow] at h'
  by_cases hgrow : f.entry.size < f.absLocation + 1
  · rw [if_pos hgrow] at h'
    have hfull : e.size.toNat = pos := by
      rw [UInt64.lt_iff_toNat_lt, habs, hentry] at hgrow
      omega
    have hsucc : (e.size + 1).toNat = pos + 1 := by
      rw [UInt64.toNat_add, hfull]
      exact Nat.mod_eq_of_lt (show pos + 1 < 2 ^ 64 by omega)
    have hstored : (f.stored data).entry = { e with size := e.size + 1 } := by
      rw [File.stored]
      dsimp only
      rw [if_pos hgrow, hentry]
    rw [hstored] at h'
    have hapart : ∀ x ∈ l, x ≠ e.parent := fun x hx heq => h.apart (heq ▸ hx)
    refine ⟨_, e.size + 1, ⟨h.toStored.putEntry (by omega), h', hstored, h.tags,
      (fun hd => by cases hd), habs⟩, hinside, hloc, fun _ => rfl, by omega, ?_⟩
    have hmax : (e.size + 1).toNat = max e.size.toNat (pos + 1) := by omega
    rw [hmax]
    refine hbytes _ fun x hx => ?_
    rw [Volume.putEntry, Volume.setChunk_chunk, if_neg (hapart x hx)]
  · rw [if_neg hgrow] at h'
    have hless : pos + 1 ≤ e.size.toNat := by
      rw [UInt64.lt_iff_toNat_lt, habs, hentry] at hgrow
      omega
    have hstored : (f.stored data).entry = e := by
      rw [File.stored]
      dsimp only
      rw [if_neg hgrow, hentry]
    have hmax : e.size.toNat = max e.size.toNat (pos + 1) := by omega
    refine ⟨vol, e.size, ⟨h.toStored, h', hstored, h.tags, (fun hd => by cases hd), habs⟩, hinside,
      hloc, fun _ => rfl, hmax, ?_⟩
    have hstill := hbytes vol fun _ _ => rfl
    rwa [← hmax] at hstill

/-- The buffer of the handle is saved. -/
theorem OpenFile.saved {d' : Disk} (h : OpenFile v d vol e l f pos) (hf : f.cluster ∈ l)
    (h' : Shows v d' (vol.save f)) :
    OpenFile v d' (vol.save f) e l { f with dirty := false } pos :=
  ⟨h.toStored.save hf, h', h.entry, by rw [Volume.save_tag]; exact h.tags,
    fun _ => h.buf_eq.symm, h.abs⟩

/-- The handle moves on to another cluster. -/
theorem OpenFile.moved (h : OpenFile v d vol e l f pos) (c : UInt64) :
    OpenFile v d vol e l (f.moved vol c) pos :=
  ⟨h.toStored, h.shows, h.entry, rfl, fun _ => rfl, h.abs⟩

/-- The part of `fat64_putc` that leaves a cluster at its end. -/
theorem putcEnd_file (wf : v.Wf) (h : OpenFile v d vol e l f pos) (inside : Inside l f i pos)
    (hle : f.location.toNat ≤ clusterSize) :
    wp (putcEnd v f)
      (fun g d' => ∃ vol', OpenFile v d' vol' e l g pos ∧ Place l g pos ∧
        (∀ c, vol'.tag c = vol.tag c) ∧ ∀ n, (vol'.save g).bytes l n = (vol.save f).bytes l n)
      E d := by
  have hnext := h.next_eq inside.cluster
  rw [← h.tags] at hnext
  have hdata : f.currentTags.next = clusterTagEof ∨ v.Data f.currentTags.next := by
    by_cases heof : f.currentTags.next = clusterTagEof
    · exact Or.inl heof
    · rw [link_of_ne heof] at hnext
      exact Or.inr (h.data _ (List.mem_of_getElem? hnext.symm))
  refine wp_mono (putcEnd_spec wf h.shows (h.data _ inside.mem) hdata) ?_ fun _ he => he
  intro g d' hpost
  rcases hpost with ⟨hne, rfl, rfl⟩ | ⟨hloc, h', -, rfl⟩
  · exact ⟨vol, h, Or.inl ⟨i, inside, by omega⟩, fun _ => rfl, fun _ => rfl⟩
  have hsaved := h.saved inside.mem h'
  have hpos := inside.pos
  refine ⟨vol.save f, ?_⟩
  by_cases heof : f.currentTags.next = clusterTagEof
  · rw [if_pos heof]
    rw [heof, link_eof, eq_comm, List.getElem?_eq_none_iff] at hnext
    have hi := inside.lt
    have hlast : l.length = i + 1 := by omega
    refine ⟨⟨hsaved.toStored, hsaved.shows, hsaved.entry, hsaved.tags, hsaved.clean, hsaved.abs⟩,
      Or.inr ⟨?_, rfl, ?_⟩, fun c => by rw [Volume.save_tag], fun n => ?_⟩
    · rw [List.getLast?_eq_getElem?, hlast]
      exact inside.cluster
    · rw [hpos, hloc, hlast]
      rfl
    · rw [Volume.save_clean rfl]
  · rw [if_neg heof]
    rw [link_of_ne heof] at hnext
    refine ⟨hsaved.moved _, Or.inl ⟨i + 1, ⟨hnext.symm, ?_⟩, ?_⟩,
      fun c => by rw [Volume.save_tag], fun n => ?_⟩
    · rw [hpos, hloc]
      rfl
    · show (0 : UInt32).toNat < clusterSize
      decide
    · rw [Volume.save_clean rfl]

/-- **Writing a byte** puts it at the position of the handle: over the byte there, or behind the
last one.  It fails only where the file is full and no cluster is free. -/
theorem fat64Putc_file (wf : v.Wf) (h : OpenFile v d vol e l f pos) (place : Place l f pos)
    (hpos : pos ≤ e.size.toNat) (data : UInt8) :
    wp (fat64Putc v f data)
      (fun r d' => (r = (.eof, f) ∧ d' = d ∧ ¬ vol.HasFree v ∧ pos = clusterSize * l.length) ∨
        (r.1 = .success ∧ ∃ vol' l' size,
          OpenFile v d' vol' { e with size := size } l' r.2 (pos + 1) ∧ Place l' r.2 (pos + 1) ∧
          Takes vol vol' l l' ∧ l'.length = max l.length (pos / clusterSize + 1) ∧
          size.toNat = max e.size.toNat (pos + 1) ∧
          (vol'.save r.2).bytes l' size.toNat = ((vol.save f).bytes l e.size.toNat).take pos ++
            data :: ((vol.save f).bytes l e.size.toNat).drop (pos + 1))) E d := by
  rw [fat64Putc, wp_ite]
  refine ⟨fun heq => absurd heq ((h.data _ place.mem).ne_zero wf), fun _ => ?_⟩
  refine wp_seq (putcExtend_file wf h place) ?_
  intro r d₁ hpost
  rw [wp_ite]
  rcases hpost with ⟨rfl, rfl, hfull⟩ |
    ⟨hstat, vol₁, l₁, i, h₁, inside₁, hlt₁, takes, hlen, hbytes₁⟩
  · exact ⟨fun _ => wp_pure.mpr (Or.inl ⟨rfl, rfl, hfull⟩),
      fun hstat => absurd (not_not.mp hstat) (by simp)⟩
  refine ⟨fun hne => absurd hstat hne, fun _ => ?_⟩
  refine wp_seq (putcStore_file wf h₁ inside₁ hlt₁ hpos data) ?_
  intro g d₂ hpost
  obtain ⟨vol₂, size, h₂, inside₂, hloc, htag₂, hsize, hbytes₂⟩ := hpost
  refine wp_seq (putcEnd_file wf h₂ inside₂ (by omega)) ?_
  intro g' d₃ hpost
  obtain ⟨vol₃, h₃, place₃, htag₃, hbytes₃⟩ := hpost
  refine wp_pure.mpr (Or.inr ⟨rfl, vol₃, l₁, size, h₃, place₃, ?_, hlen, hsize, ?_⟩)
  · exact takes.trans (.refl h₁.used fun c => (htag₃ c).trans (htag₂ c))
  · rw [hbytes₃, hbytes₂, hbytes₁ _ h.size]

/-! ## Opening and closing -/

/-- The handle that `fat64_dir_entry` sets up stands at the start of the file. -/
theorem Stored.opened (st : Stored v vol e l) (h : Shows v d vol) :
    OpenFile v d vol e l (g.opened vol e) 0 ∧ Place l (g.opened vol e) 0 := by
  refine ⟨⟨st, h, rfl, rfl, fun _ => rfl, rfl⟩, Or.inl ⟨0, ⟨?_, rfl⟩, ?_⟩⟩
  · have hhead := st.path.head_eq
    rw [List.head?_eq_getElem?, List.getElem?_eq_getElem (List.length_pos_iff.mpr st.nonempty)]
      at hhead
    rw [List.getElem?_eq_getElem (List.length_pos_iff.mpr st.nonempty)]
    exact congrArg some (link_eq_some hhead).1.symm
  · show (0 : UInt32).toNat < clusterSize
    decide

/-- The number of a slot as an index. -/
theorem toUInt64_slot {num : UInt32} (hnum : num.toNat < 8) :
    num.toUInt64.toNat = num.toNat ∧ num.toUInt64 ≠ 8 := by
  have htoNat : num.toUInt64.toNat = num.toNat := UInt32.toNat_toUInt64 num
  refine ⟨htoNat, fun heq => ?_⟩
  rw [heq] at htoNat
  have height : (8 : UInt64).toNat = 8 := rfl
  omega

/-- **Opening a stored file** by its place in the directory: the handle is at its first byte. -/
theorem fat64DirEntry_file (st : Stored v vol e l) (h : Shows v d vol)
    (hdir : f.cluster = e.parent) :
    wp (fat64DirEntry v f e.dirEntryNum.toUInt64 g)
      (fun r d' => d' = d ∧ r = (.success, { f with buf := vol.chunk f.cluster },
        g.opened vol e)) E d := by
  obtain ⟨hindex, hne⟩ := toUInt64_slot st.num
  have hslot : slot (vol.chunk f.cluster) e.dirEntryNum.toUInt64.toNat = e := by
    rw [hindex, hdir]
    exact st.slot
  have hfile : v.Data e.file := by
    have hmem := (st.opened (g := g) h).2.mem
    exact st.data _ hmem
  have hparent : v.Data f.cluster := by
    rw [hdir]
    exact st.parent
  refine wp_mono (fat64DirEntry_spec h hparent hne fun _ _ => by rw [hslot]; exact hfile) ?_
    fun _ he => he
  intro r d' hpost
  obtain ⟨hd, hdirHandle, hcases⟩ := hpost
  rw [hslot] at hcases
  rcases hcases with ⟨-, -, hfail⟩ | ⟨hstat, -, -, hopened⟩
  · refine absurd ⟨?_, st.valid⟩ hfail
    rw [hindex]
    exact st.num
  · exact ⟨hd, Prod.ext hstat (Prod.ext hdirHandle hopened)⟩

/-- Closing a handle saves what it holds. -/
theorem fat64Close_file (wf : v.Wf) (h : OpenFile v d vol e l f pos) (hf : f.cluster ∈ l) :
    wp (fat64Close v f)
      (fun r d' => r = (.success, f.clear) ∧ Shows v d' (vol.save f) ∧ Stored v (vol.save f) e l)
      E d := by
  rw [fat64Close]
  refine wp_seq (saveCluster_spec wf h.shows (h.data _ hf)) ?_
  intro g d' hpost
  obtain ⟨rfl, h', -⟩ := hpost
  exact wp_pure.mpr ⟨rfl, h', h.toStored.save hf⟩

end Cumulonimbus.Fat64
