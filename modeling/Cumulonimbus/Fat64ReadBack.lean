import Mathlib.Data.Finset.Card
import Cumulonimbus.Fat64Writing

/-!
# Reading back what was written

A file is opened, written from its start, closed, opened again and read.  What is read is what
was written, followed by the rest of what the file held before (`reads_back_iff`).  The counter
of `fat64_read` has 32 bits and its amount 64, so a file of 2^32 bytes and more is never read
completely: the loop does not stop at the amount.
-/

namespace Cumulonimbus.Fat64

open Exec Linked

attribute [local irreducible] wp

variable {v : Partition} {d : Disk} {vol vol' : Volume} {e : Entry} {f g dir : File}
  {l l' : List UInt64} {c w : List UInt8} {n i pos : Nat} {E : Spin → Prop}

/-! ## Counting free clusters -/

/-- The free clusters. -/
def Volume.freeSet (v : Partition) (vol : Volume) : Finset Nat :=
  (Finset.range v.size).filter fun n => vol.tag (UInt64.ofNat n) = freeTags

/-- The set of free clusters. -/
theorem Volume.mem_freeSet (wf : v.Wf) {x : UInt64} (hx : x.toNat < v.size) :
    x.toNat ∈ vol.freeSet v ↔ vol.tag x = freeTags := by
  have hsectors := wf.sectors
  have hnum : UInt64.ofNat x.toNat = x := UInt64.ofNat_toNat
  rw [freeSet, Finset.mem_filter, Finset.mem_range, hnum]
  exact ⟨fun h => h.2, fun h => ⟨hx, h⟩⟩

/-- If it is not empty there is a free cluster. -/
theorem Volume.hasFree_of_freeSet (wf : v.Wf) (h : (vol.freeSet v).Nonempty) : vol.HasFree v := by
  have hsectors := wf.sectors
  obtain ⟨n, hn⟩ := h
  obtain ⟨hlt, hfree⟩ := Finset.mem_filter.mp hn
  have hsize := Finset.mem_range.mp hlt
  refine ⟨UInt64.ofNat n, ?_, hfree⟩
  rwa [UInt64.toNat_ofNat_of_lt' (show n < 2 ^ 64 by omega)]

/-- What a file gains, the free clusters lose. -/
theorem Takes.card (wf : v.Wf) (h : Takes vol vol' l l') (hused : ∀ c ∈ l, vol.tag c ≠ freeTags)
    (hnodup : l'.Nodup) (hdata : ∀ c ∈ l', v.Data c) :
    (vol'.freeSet v).card + l'.length = (vol.freeSet v).card + l.length := by
  obtain ⟨m, rfl⟩ := h.initial
  have hnew : ∀ x ∈ m, vol.tag x = freeTags := by
    intro x hx
    rcases h.new x (List.mem_append_right l hx) with hold | hfree
    · exact absurd hold fun hl => (List.nodup_append.mp hnodup).2.2 x hl x hx rfl
    · exact hfree
  have hm : (m.map UInt64.toNat).toFinset.card = m.length := by
    rw [List.toFinset_card_of_nodup, List.length_map]
    exact (List.nodup_append.mp hnodup).2.1.map fun _ _ heq => UInt64.toNat_inj.mp heq
  have hsectors := wf.sectors
  have hsplit : vol.freeSet v = vol'.freeSet v ∪ (m.map UInt64.toNat).toFinset := by
    ext n
    rw [Finset.mem_union, List.mem_toFinset, List.mem_map]
    constructor
    · intro hn
      obtain ⟨hlt, hfree⟩ := Finset.mem_filter.mp hn
      have hsize := Finset.mem_range.mp hlt
      have hnum : (UInt64.ofNat n).toNat = n :=
        UInt64.toNat_ofNat_of_lt' (show n < 2 ^ 64 by omega)
      by_cases hmem : UInt64.ofNat n ∈ m
      · exact Or.inr ⟨_, hmem, hnum⟩
      · refine Or.inl (Finset.mem_filter.mpr ⟨hlt, (h.free _).mpr ⟨hfree, fun hx => ?_⟩⟩)
        rcases List.mem_append.mp hx with hx | hx
        · exact hused _ hx hfree
        · exact hmem hx
    · intro hn
      rcases hn with hn | ⟨x, hx, rfl⟩
      · obtain ⟨hlt, hfree⟩ := Finset.mem_filter.mp hn
        exact Finset.mem_filter.mpr ⟨hlt, ((h.free _).mp hfree).1⟩
      · have hxdata := hdata x (List.mem_append_right l hx)
        exact (Volume.mem_freeSet wf hxdata.2).mpr (hnew x hx)
  have hdisjoint : Disjoint (vol'.freeSet v) (m.map UInt64.toNat).toFinset := by
    refine Finset.disjoint_left.mpr fun n hn hnm => ?_
    obtain ⟨x, hx, rfl⟩ := List.mem_map.mp (List.mem_toFinset.mp hnm)
    have hxdata := hdata x (List.mem_append_right l hx)
    have hfree := (Volume.mem_freeSet wf hxdata.2).mp hn
    exact ((h.free x).mp hfree).2 (List.mem_append_right l hx)
  rw [hsplit, Finset.card_union_of_disjoint hdisjoint, hm, List.length_append]
  omega

/-! ## Writing -/

/-- The first `i` bytes of `w` have been written over a file that held `c`. -/
structure Written (v : Partition) (vol₀ : Volume) (e₀ : Entry) (l₀ : List UInt64)
    (c w : List UInt8) (i : Nat) (f : File) (d : Disk) (vol : Volume) (len : UInt64)
    (l : List UInt64) : Prop extends OpenFile v d vol { e₀ with size := len } l f i where
  place : Place l f i
  takes : Takes vol₀ vol l₀ l
  length : l.length = max l₀.length ((i + (clusterSize - 1)) / clusterSize)
  len_eq : len.toNat = max c.length i
  bytes : (vol.save f).bytes l len.toNat = w.take i ++ c.drop i

/-- One byte more. -/
theorem bytes_succ (hi : i < w.length) :
    (w.take i ++ c.drop i).take i ++ w.getD i 0 :: (w.take i ++ c.drop i).drop (i + 1) =
      w.take (i + 1) ++ c.drop (i + 1) := by
  have hlen : (w.take i).length = i := by simp; omega
  have htake : w.take (i + 1) = w.take i ++ [w[i]] := List.take_succ_eq_append_getElem hi
  have hdrop : (w.take i ++ c.drop i).drop (i + 1) = c.drop (i + 1) := by
    rw [List.drop_append, hlen, List.drop_of_length_le (by omega), List.nil_append, List.drop_drop]
    congr 1
    omega
  rw [List.take_left' hlen, hdrop, htake, List.getD_eq_getElem _ _ hi, List.append_assoc,
    List.singleton_append]

/-- **The loop of `fat64_write`**: after `k` bytes the file has the first `k` bytes of the text, by
induction on the fuel. -/
theorem writeLoop_file (wf : v.Wf) {vol₀ : Volume} {e₀ : Entry} {l₀ : List UInt64}
    (hw : w.length < 2 ^ 32) (hused : ∀ c ∈ l₀, vol₀.tag c ≠ freeTags)
    (hroom : (w.length + (clusterSize - 1)) / clusterSize ≤ l₀.length + (vol₀.freeSet v).card)
    (n : Nat) (k : UInt32) {len : UInt64} (hk : k.toNat ≤ w.length)
    (hn : w.length - k.toNat < n) (h : Written v vol₀ e₀ l₀ c w k.toNat f d vol len l) :
    wp (writeLoop v w n k f)
      (fun r d' => r.1 = .success ∧ ∃ vol' len' l',
        Written v vol₀ e₀ l₀ c w w.length r.2 d' vol' len' l') E d := by
  induction n generalizing k f d vol len l with
  | zero => omega
  | succ n ih =>
    rw [writeLoop, wp_ite]
    refine ⟨fun hlt => ?_, fun hge => ?_⟩
    · have hpos : k.toNat ≤ len.toNat := by
        rw [h.len_eq]
        exact le_max_right _ _
      refine wp_seq (fat64Putc_file wf h.toOpenFile h.place hpos _) ?_
      intro r d' hpost
      rw [wp_ite]
      rcases hpost with ⟨rfl, rfl, hfull, hend⟩ |
        ⟨hstat, vol', l', len', hopen, hplace, takes, hlength, hlen, hbytes⟩
      · -- there is a cluster left for what is still to be written
        have hcard := h.takes.card wf hused h.nodup h.data
        have hnone : (vol.freeSet v).card = 0 := by
          rw [Finset.card_eq_zero, ← Finset.not_nonempty_iff_eq_empty]
          exact fun hne => hfull (Volume.hasFree_of_freeSet wf hne)
        rw [clusterSize_eq] at *
        omega
      refine ⟨fun hne => absurd hstat hne, fun _ => ?_⟩
      have hnum : (k + 1).toNat = k.toNat + 1 := by
        rw [UInt32.toNat_add]
        exact Nat.mod_eq_of_lt (show k.toNat + 1 < 2 ^ 32 by omega)
      have hlen₀ := h.len_eq
      have hwritten : Written v vol₀ e₀ l₀ c w (k + 1).toNat r.2 d' vol' len' l' := by
        rw [hnum]
        refine ⟨hopen, hplace, h.takes.trans takes, ?_, ?_, ?_⟩
        · rw [hlength, h.length, clusterSize_eq]
          omega
        · rw [hlen]
          dsimp only
          omega
        · rw [hbytes]
          dsimp only
          rw [h.bytes]
          exact bytes_succ hlt
      exact ih (k + 1) (by omega) (by omega) hwritten
    · have hlast : k.toNat = w.length := by omega
      rw [hlast] at h
      exact wp_pure.mpr ⟨rfl, vol, len, l, h⟩

/-! ## Reading -/

/-- Where a handle stands that only reads. -/
def Reading (l : List UInt64) (f : File) (pos : Nat) : Prop :=
  ∃ i, Inside l f i pos ∧
    (f.location.toNat < clusterSize ∨ (f.location.toNat = clusterSize ∧ i + 1 = l.length))

/-- The handle is not behind the last byte. -/
theorem Reading.inside (h : Reading l f pos) (hlt : pos < clusterSize * l.length) :
    ∃ i, Inside l f i pos ∧ f.location.toNat < clusterSize := by
  obtain ⟨i, inside, hlt' | ⟨hend, hlast⟩⟩ := h
  · exact ⟨i, inside, hlt'⟩
  · have hpos := inside.pos
    rw [clusterSize_eq] at *
    omega

/-- **A byte is read** from where the handle stands. -/
theorem fat64Getc_file (wf : v.Wf) (h : OpenFile v d vol e l f pos) (hclean : f.dirty = false)
    (reading : Reading l f pos) (hlt : pos < clusterSize * l.length) :
    wp (fat64Getc v f)
      (fun r d' => r.1 = .success ∧ r.2.2 = some (vol.byteOf l pos) ∧
        OpenFile v d' vol e l r.2.1 (pos + 1) ∧ r.2.1.dirty = false ∧ Reading l r.2.1 (pos + 1))
      E d := by
  obtain ⟨i, inside, hin⟩ := reading.inside hlt
  have hbound := h.bound wf
  have hnext := h.next_eq inside.cluster
  rw [← h.tags] at hnext
  have hdata : f.currentTags.next = clusterTagEof ∨ v.Data f.currentTags.next := by
    by_cases heof : f.currentTags.next = clusterTagEof
    · exact Or.inl heof
    · rw [link_of_ne heof] at hnext
      exact Or.inr (h.data _ (List.mem_of_getElem? hnext.symm))
  have hcluster := h.data _ inside.mem
  refine wp_mono (fat64Getc_spec wf h.shows (fun _ => hcluster) fun _ => hdata) ?_ fun _ he => he
  intro r d' hpost
  have hpos := inside.pos
  have habs : f.advanced.absLocation.toNat = pos + 1 := by
    have hsum : f.advanced.absLocation = f.absLocation + 1 := rfl
    rw [hsum, UInt64.toNat_add, h.abs]
    exact Nat.mod_eq_of_lt (show pos + 1 < 2 ^ 64 by omega)
  have hloc : f.advanced.location.toNat = f.location.toNat + 1 := by
    have hsum : f.advanced.location = f.location + 1 := rfl
    rw [hsum, UInt32.toNat_add]
    rw [clusterSize_eq] at hin
    exact Nat.mod_eq_of_lt (show f.location.toNat + 1 < 2 ^ 32 by omega)
  have hbyte : f.byteAt f.location.toNat = vol.byteOf l pos := by
    rw [clusterSize_eq] at *
    have hdiv : pos / 4096 = i := by omega
    have hmod : pos % 4096 = f.location.toNat := by omega
    obtain ⟨hi, hci⟩ := List.getElem?_eq_some_iff.mp inside.cluster
    rw [File.byteAt, dif_pos hin, h.clean hclean, Volume.byteOf, clusterSize_eq, hdiv,
      List.getD_eq_getElem _ _ hi, hci]
    exact congrArg _ (Fin.ext hmod.symm)
  have hopened : ∀ d', Shows v d' vol → OpenFile v d' vol e l { f.advanced with dirty := false }
      (pos + 1) := fun d' h' => ⟨h.toStored, h', h.entry, h.tags, fun _ => h.clean hclean, habs⟩
  rcases hpost with ⟨-, hclosed | heof, -⟩ | ⟨-, -, hstat, hdatum, hmoves⟩
  · exact absurd hclosed (hcluster.ne_zero wf)
  · rw [heof, eof32_toNat, clusterSize_eq] at hin
    omega
  refine ⟨hstat, by rw [hdatum, hbyte], ?_⟩
  rcases hmoves with ⟨hne, hr, rfl⟩ | ⟨hend, h', hr⟩
  · have hsame : f.advanced = { f.advanced with dirty := false } := by
      have hdirty : f.advanced.dirty = false := hclean
      rw [← hdirty]
    rw [hr, hsame]
    refine ⟨hopened d' h.shows, rfl, i, ⟨inside.cluster, ?_⟩, Or.inl ?_⟩
    · show pos + 1 = clusterSize * i + f.advanced.location.toNat
      omega
    · show f.advanced.location.toNat < clusterSize
      omega
  rw [Volume.save_clean hclean] at h' hr
  by_cases heof : f.currentTags.next = clusterTagEof
  · rw [if_pos heof] at hr
    rw [heof, link_eof, eq_comm, List.getElem?_eq_none_iff] at hnext
    have hi := inside.lt
    rw [hr]
    refine ⟨hopened d' h', rfl, i, ⟨inside.cluster, ?_⟩, Or.inr ⟨hend, by omega⟩⟩
    show pos + 1 = clusterSize * i + f.advanced.location.toNat
    omega
  · rw [if_neg heof] at hr
    rw [link_of_ne heof] at hnext
    rw [hr]
    refine ⟨(hopened d' h').moved _, rfl, i + 1, ⟨hnext.symm, ?_⟩, Or.inl ?_⟩
    · show pos + 1 = clusterSize * (i + 1) + (0 : UInt32).toNat
      have hzero : (0 : UInt32).toNat = 0 := rfl
      rw [clusterSize_eq] at *
      omega
    · show (0 : UInt32).toNat < clusterSize
      decide

/-- **The loop of `fat64_read`** reads one byte after another, by induction on the fuel. -/
theorem readLoop_file (wf : v.Wf) (hn : n ≤ clusterSize * l.length) (hsmall : n < 2 ^ 32)
    (fuel : Nat) (k : UInt32) (hk : k.toNat ≤ n) (hfuel : n - k.toNat < fuel)
    (h : OpenFile v d vol e l f k.toNat) (hclean : f.dirty = false)
    (reading : Reading l f k.toNat) :
    wp (readLoop v n fuel k f (vol.bytes l k.toNat))
      (fun r d' => r.1 = .success ∧ r.2.2 = vol.bytes l n ∧ Shows v d' vol) E d := by
  induction fuel generalizing k f d with
  | zero => omega
  | succ fuel ih =>
    rw [readLoop, wp_ite]
    refine ⟨fun hlt => ?_, fun hge => ?_⟩
    · refine wp_seq (fat64Getc_file wf h hclean reading (by omega)) ?_
      intro r d' hpost
      obtain ⟨hstat, hdatum, hopen, hclean', reading'⟩ := hpost
      rw [wp_ite]
      refine ⟨fun hne => absurd hstat hne, fun _ => ?_⟩
      have hnum : (k + 1).toNat = k.toNat + 1 := by
        rw [UInt32.toNat_add]
        exact Nat.mod_eq_of_lt (show k.toNat + 1 < 2 ^ 32 by omega)
      have hacc : vol.bytes l k.toNat ++ r.2.2.toList = vol.bytes l (k + 1).toNat := by
        rw [hdatum, hnum, Volume.bytes, Volume.bytes, List.range_succ, List.map_append]
        rfl
      rw [hacc]
      exact ih (k + 1) (by omega) (by omega) (by rw [hnum]; exact hopen) hclean'
        (by rw [hnum]; exact reading')
    · have hlast : k.toNat = n := by omega
      exact wp_pure.mpr ⟨rfl, by rw [hlast], h.shows⟩

/-- A loop whose counter cannot reach the amount does not succeed. -/
theorem readLoop_large (hlarge : 2 ^ 32 ≤ n) (fuel : Nat) (k : UInt32) (f : File)
    (acc : List UInt8) (d : Disk) :
    wp (readLoop v n fuel k f acc) (fun r _ => r.1 ≠ .success) (fun _ => True) d := by
  induction fuel generalizing k f acc d with
  | zero =>
    rw [readLoop]
    exact wp_throw.mpr trivial
  | succ fuel ih =>
    have hk : k.toNat < n := Nat.lt_of_lt_of_le k.toNat_lt hlarge
    rw [readLoop, wp_ite]
    refine ⟨fun _ => ?_, fun hge => absurd hk hge⟩
    refine wp_seq (wp_true _ _) ?_
    intro r d' _
    rw [wp_ite]
    exact ⟨fun hstat => wp_pure.mpr hstat, fun _ => ih _ _ _ _⟩

/-! ## Writing, then reading -/

/-- Open a file, write to it and close it; open it again and read. -/
def writeThenRead (v : Partition) (dir : File) (index : UInt64) (f : File) (w : List UInt8)
    (amount : Nat) : Fat (List Status × List UInt8) := do
  let (stat₁, dir, f) ← fat64DirEntry v dir index f
  let (stat₂, f) ← fat64Write v f w
  let (stat₃, f) ← fat64Close v f
  let (stat₄, _, f) ← fat64DirEntry v dir index f
  let (stat₅, _, data) ← fat64Read v f amount
  return ([stat₁, stat₂, stat₃, stat₄, stat₅], data)

/-- For a file with the entry `e` that holds `c`: every call succeeds, the bytes `w` come back
with what they have not overwritten, and the entry on the disk has the size of both. -/
def ReadsBack (v : Partition) (dir : File) (e : Entry) (f : File) (c w : List UInt8) (d : Disk) :
    Prop :=
  wp (writeThenRead v dir e.dirEntryNum.toUInt64 f w (max c.length w.length))
    (fun r d' => (∀ stat ∈ r.1, stat = .success) ∧ r.2 = w ++ c.drop w.length ∧
      (slot (d'.chunk v e.parent) e.dirEntryNum.toNat).size.toNat = max c.length w.length)
    (fun _ => False) d

/-- The number of clusters that `w` takes up is there, in the file and among the free ones. -/
def HasRoom (v : Partition) (d : Disk) (l : List UInt64) (w : List UInt8) : Prop :=
  (w.length + (clusterSize - 1)) / clusterSize ≤ l.length + ((d.volume v).freeSet v).card

/-- **A file below 2^32 bytes** is read back as it was written. -/
theorem readsBack_of_small (wf : v.Wf) (st : Stored v (d.volume v) e l)
    (hdir : dir.cluster = e.parent) (f : File) (hw : w.length < 2 ^ 32) (hroom : HasRoom v d l w)
    (hsmall : e.size.toNat < 2 ^ 32) :
    ReadsBack v dir e f ((d.volume v).bytes l e.size.toNat) w d := by
  have hvol := shows_self v d
  obtain ⟨hopen₁, hplace₁⟩ := st.opened (g := f) hvol
  rw [ReadsBack, writeThenRead, Volume.length_bytes]
  refine wp_seq (fat64DirEntry_file st hvol hdir) ?_
  intro r₁ d₁ hpost
  obtain ⟨rfl, rfl⟩ := hpost
  have hstart : Written v (d₁.volume v) e l ((d₁.volume v).bytes l e.size.toNat) w 0
      (f.opened (d₁.volume v) e) d₁ (d₁.volume v) e.size l := by
    refine ⟨hopen₁, hplace₁, .refl st.used fun _ => rfl, ?_, ?_, ?_⟩
    · rw [clusterSize_eq]
      omega
    · rw [Volume.length_bytes]
      omega
    · rw [Volume.save_clean rfl, List.take_zero, List.drop_zero, List.nil_append]
  refine wp_seq (writeLoop_file wf hw st.used hroom turns 0 (Nat.zero_le _)
    (show w.length - 0 < turns by rw [turns]; omega) hstart) ?_
  intro r₂ d₂ hpost
  obtain ⟨hstat₂, vol₂, len, l₂, written⟩ := hpost
  have hlen := written.len_eq
  rw [Volume.length_bytes] at hlen
  have hbytes := written.bytes
  rw [List.take_length] at hbytes
  refine wp_seq (fat64Close_file wf written.toOpenFile written.place.mem) ?_
  intro r₃ d₃ hpost
  obtain ⟨rfl, h₃, st₃⟩ := hpost
  refine wp_seq (fat64DirEntry_file (e := { e with size := len }) st₃ h₃ hdir) ?_
  intro r₄ d₄ hpost
  obtain ⟨rfl, rfl⟩ := hpost
  obtain ⟨hopen₄, hplace₄⟩ := st₃.opened (g := r₂.2.clear) h₃
  have hreading : Reading l₂ (r₂.2.clear.opened (vol₂.save r₂.2) { e with size := len }) 0 := by
    rcases hplace₄ with ⟨i, inside, hlt⟩ | behind
    · exact ⟨i, inside, Or.inl hlt⟩
    · exact absurd behind.location (show (0 : UInt32) ≠ eof32 by decide)
  have hsize := st₃.size
  dsimp only at hsize
  rw [← hlen]
  refine wp_seq (readLoop_file wf hsize (by omega) turns 0 (Nat.zero_le _)
    (show len.toNat - 0 < turns by rw [turns]; omega) hopen₄ rfl hreading) ?_
  intro r₅ d₅ hpost
  obtain ⟨hstat₅, hdata, h₅⟩ := hpost
  refine wp_pure.mpr ⟨?_, ?_, ?_⟩
  · intro stat hstat
    simp only [List.mem_cons, List.not_mem_nil, or_false] at hstat
    rcases hstat with rfl | rfl | rfl | rfl | rfl
    · rfl
    · exact hstat₂
    · rfl
    · rfl
    · exact hstat₅
  · rw [hdata]
    exact hbytes
  · rw [h₅.chunk _ st.parent]
    exact congrArg (fun x : Entry => x.size.toNat) st₃.slot

/-- No larger one is. -/
theorem small_of_readsBack (h : ReadsBack v dir e f c w d) : c.length < 2 ^ 32 := by
  by_contra hlarge
  have hamount : 2 ^ 32 ≤ max c.length w.length := by omega
  have hfails : wp (writeThenRead v dir e.dirEntryNum.toUInt64 f w (max c.length w.length))
      (fun r _ => ¬ ∀ stat ∈ r.1, stat = .success) (fun _ => True) d := by
    rw [writeThenRead]
    refine wp_seq (wp_true _ _) fun _ _ _ => ?_
    refine wp_seq (wp_true _ _) fun _ _ _ => ?_
    refine wp_seq (wp_true _ _) fun _ _ _ => ?_
    refine wp_seq (wp_true _ _) fun _ _ _ => ?_
    refine wp_seq (readLoop_large hamount turns 0 _ [] _) ?_
    intro r d' hstat
    exact wp_pure.mpr fun hall => hstat (hall _ (by simp))
  obtain ⟨r, d', hrun, hgood, -⟩ := wp_returns h
  exact wp_ok hfails hrun hgood

/-- **What is written can be read back**, for every file and every string for which there is
room, exactly if the file holds less than 2^32 bytes. -/
theorem reads_back_iff (wf : v.Wf) (st : Stored v (d.volume v) e l)
    (hdir : dir.cluster = e.parent) (f : File) (hw : w.length < 2 ^ 32)
    (hroom : HasRoom v d l w) :
    ReadsBack v dir e f ((d.volume v).bytes l e.size.toNat) w d ↔ e.size.toNat < 2 ^ 32 := by
  constructor
  · intro h
    have hsmall := small_of_readsBack h
    rwa [Volume.length_bytes] at hsmall
  · exact readsBack_of_small wf st hdir f hw hroom

/-- A file stored on a volume is stored on the disk that shows it. -/
theorem Stored.shown (h : Shows v d vol) (st : Stored v vol e l) : Stored v (d.volume v) e l := by
  have hused : ∀ x : UInt64, x.toNat < v.size → vol.tag x ≠ freeTags →
      (d.volume v).tag x ≠ freeTags := by
    intro x hx hne
    exact fun heq => hne ((h.tag x hx).symm.trans heq)
  constructor
  case reserved =>
    intro x hx
    have hlow := st.parent.1
    exact hused x (by have hhigh := st.parent.2; omega) (st.reserved x hx)
  case parent => exact st.parent
  case parentUsed => exact hused _ st.parent.2 st.parentUsed
  case num => exact st.num
  case slot =>
    rw [Disk.volume]
    dsimp only
    rw [h.chunk _ st.parent]
    exact st.slot
  case valid => exact st.valid
  case plain => exact st.plain
  case path =>
    refine st.path.congr fun x hx => ?_
    exact congrArg (fun t : Tags => link t.next) (h.tag x (st.data x hx).2)
  case data => exact st.data
  case used => exact fun x hx => hused x (st.data x hx).2 (st.used x hx)
  case apart => exact st.apart
  case nonempty => exact st.nonempty
  case size => exact st.size

/-- A file that was just created in the root directory of a new file system. -/
theorem touched_stored :
    wp freshRoot
      (fun r d => r.1.Wf ∧ ∃ out d' e l,
        fat64Touch r.1 r.2 ⟨[97], by decide⟩ d = .ok (out, d') ∧
        Stored r.1 (d'.volume r.1) e l ∧ out.2.cluster = e.parent ∧ e.size = 0 ∧ l.length = 1)
      (fun _ => False) .blank := by
  refine wp_mono freshRoot_spec ?_ fun _ he => he
  intro r d hpost
  obtain ⟨hv, hdir, hbuf, -, hfree⟩ := hpost
  rw [hv]
  have hcluster : HasFreeCluster (mkfsPartition fsSize) d :=
    ⟨UInt64.ofNat 1026, by decide, hfree _ (by decide) (by decide)⟩
  have hslot : getFreeDirEntry r.2.buf ≠ eof32 := by
    rw [hbuf, getFreeDirEntry_empty]
    decide
  have hstored : wp (fat64Touch (mkfsPartition fsSize) r.2 ⟨[97], by decide⟩) _ (fun _ => False) d :=
    touch_stored (g := .fresh) mkfsPartition_wf hdir hcluster hslot rfl rfl
  obtain ⟨out, d', htouch, vol, e, l, h, st, ⟨hparent, -⟩, hcluster, hsize, hlen, -⟩ :=
    wp_returns hstored
  have hempty : e.size = 0 := UInt64.toNat_inj.mp hsize
  have hone : clustersFor 0 = 1 := by decide
  exact ⟨mkfsPartition_wf, out, d', e, l, htouch, st.shown h, hcluster.trans hparent.symm, hempty,
    hlen.trans hone⟩

/-- A new file takes two bytes and gives them back. -/
theorem reads_back_new :
    wp freshRoot
      (fun r d => ∃ out d' e, fat64Touch r.1 r.2 ⟨[97], by decide⟩ d = .ok (out, d') ∧
        ReadsBack r.1 out.2 e .fresh [] [104, 105] d')
      (fun _ => False) .blank := by
  refine wp_mono touched_stored ?_ fun _ he => he
  intro r d hpost
  obtain ⟨wf, out, d', e, l, htouch, st, hdir, hsize, hlen⟩ := hpost
  refine ⟨out, d', e, htouch, ?_⟩
  have hroom : HasRoom r.1 d' l [104, 105] :=
    Nat.le_trans hlen.ge (Nat.le_add_right _ _)
  have hiff := reads_back_iff wf st hdir .fresh (by decide) hroom
  rw [hsize] at hiff
  exact hiff.mpr (by decide)

/-! ## A file of 2^32 bytes -/

/-- A partition with room for a file of 2^20 clusters. -/
def largePartition : Partition where
  rootDir := 4200
  clusterTags := 1
  size := 1052777
  clusterSize := clusterSize
  partitionLocation := 8

/-- The partition of the counterexample is well formed. -/
theorem largePartition_wf : largePartition.Wf := by
  constructor <;> decide

/-- Every cluster behind the root directory belongs to one file. -/
def largeTags (c : UInt64) : Tags :=
  ⟨clusterTagEof, if c.toNat ≤ 4200 ∨ c.toNat = 1052776 then clusterTagEof else c + 1⟩

def largeEntry : Entry :=
  { Entry.zero with
    file := 4201
    parent := 4200
    size := 4294967296
    flags := validFlag }

/-- The disk with this file in the first slot of the root directory. -/
def largeDisk : Disk where
  sector := fun s k =>
    if s < 33608 then
      putTag (fun _ => 0) (k.val / 16) (largeTags (UInt64.ofNat (32 * (s - 16) + k.val / 16))) k
    else putSlot (fun _ => 0) 0 largeEntry
      ⟨(512 * (s - 33608) + k.val) % 4096, Nat.mod_lt _ (Nat.zero_lt_succ 4095)⟩
  saved := []

/-- A tag is its sixteen bytes. -/
theorem tagAt_congr {s s' : Sector} {j : Nat} (hj : j < 32)
    (h : ∀ k : Fin 512, k.val / 16 = j → s k = s' k) : tagAt s j = tagAt s' j := by
  have hbyte : ∀ k, k < 16 → s (Fin.ofNat 512 (16 * j + k)) = s' (Fin.ofNat 512 (16 * j + k)) := by
    intro k hk
    refine h _ ?_
    rw [Fin.val_ofNat]
    omega
  refine Tags.ext ?_ ?_ <;> simp only [tagAt] <;> refine Bytes.get64_congr fun k hk => ?_
  · exact hbyte k (by omega)
  · rw [Nat.add_assoc]
    exact hbyte (8 + k) (by omega)

/-- The tags of its disk. -/
theorem largeDisk_tag {x : UInt64} (hx : x.toNat < largePartition.size) :
    largeDisk.tag largePartition x = largeTags x := by
  have hlow := largePartition_wf.tagSector_lt hx
  rw [Disk.tag, largePartition_wf.tagSector hx, largePartition_wf.whichTag hx]
  rw [largePartition_wf.tagSector hx] at hlow
  have hsector : x.toNat / 32 + 16 < 33608 := hlow
  have hnum : 32 * (x.toNat / 32 + 16 - 16) + x.toNat % 32 = x.toNat := by omega
  have hsame : tagAt (largeDisk.sector (x.toNat / 32 + 16)) (x.toNat % 32) =
      tagAt (putTag (fun _ => 0) (x.toNat % 32) (largeTags x)) (x.toNat % 32) := by
    refine tagAt_congr (by omega) fun k hk => ?_
    rw [largeDisk]
    dsimp only
    rw [if_pos hsector, hk, hnum, UInt64.ofNat_toNat]
  rw [hsame, tagAt_putTag _ (by omega), if_pos rfl]

/-- Its root directory has one entry. -/
theorem largeDisk_root :
    largeDisk.chunk largePartition 4200 = putSlot (fun _ => 0) 0 largeEntry := by
  funext k
  rw [Disk.chunk, largePartition_wf.clusterSector (by decide) (by omega), largeDisk]
  dsimp only
  have hnum : (4200 : UInt64).toNat = 4200 := rfl
  rw [hnum, if_neg (by omega)]
  refine congrArg _ (Fin.ext ?_)
  dsimp only
  rw [Fin.val_ofNat]
  omega

/-- Clusters in a row are a chain. -/
theorem path_range {next : UInt64 → Option UInt64} (n s : Nat)
    (hnext : ∀ k, s ≤ k → k < s + n → next (UInt64.ofNat k) = some (UInt64.ofNat (k + 1)))
    (hlast : next (UInt64.ofNat (s + n)) = none) :
    Path next (some (UInt64.ofNat s)) ((List.range' s (n + 1)).map UInt64.ofNat) none := by
  induction n generalizing s with
  | zero => exact ⟨rfl, hlast⟩
  | succ n ih =>
    refine ⟨rfl, ?_⟩
    rw [hnext s (Nat.le_refl s) (by omega)]
    refine ih (s + 1) (fun k hk hlt => hnext k (by omega) (by omega)) ?_
    rwa [show s + 1 + n = s + (n + 1) by omega]

/-- The file of that entry is a chain of 1048576 clusters. -/
theorem largeFile_stored :
    Stored largePartition (largeDisk.volume largePartition) largeEntry
      ((List.range' 4201 1048576).map UInt64.ofNat) := by
  have hused : ∀ x : UInt64, x.toNat < largePartition.size →
      (largeDisk.volume largePartition).tag x ≠ freeTags := by
    intro x hx heq
    have htag : largeTags x = freeTags := (largeDisk_tag hx).symm.trans heq
    exact absurd (congrArg Tags.prev htag) (by decide : clusterTagEof ≠ clusterTagFree)
  have hdata : ∀ x ∈ (List.range' 4201 1048576).map UInt64.ofNat,
      4201 ≤ x.toNat ∧ x.toNat < 1052777 := by
    intro x hx
    obtain ⟨k, hk, rfl⟩ := List.mem_map.mp hx
    have hrange := List.mem_range'_1.mp hk
    rw [UInt64.toNat_ofNat_of_lt' (show k < 2 ^ 64 by omega)]
    omega
  have hnext : ∀ k, 4201 ≤ k → k < 1052777 →
      (largeDisk.volume largePartition).next (UInt64.ofNat k) =
        link (if k = 1052776 then clusterTagEof else UInt64.ofNat (k + 1)) := by
    intro k hlow hhigh
    have hnum : (UInt64.ofNat k).toNat = k := UInt64.toNat_ofNat_of_lt' (show k < 2 ^ 64 by omega)
    have htag : (largeDisk.volume largePartition).tag (UInt64.ofNat k) =
        largeTags (UInt64.ofNat k) := largeDisk_tag (by rw [hnum]; exact hhigh)
    rw [Volume.next, htag, largeTags, hnum]
    dsimp only
    by_cases hlast : k = 1052776
    · rw [if_pos (Or.inr hlast), if_pos hlast]
    · rw [if_neg (by omega), if_neg hlast, UInt64.ofNat_add]
      rfl
  constructor
  case reserved => exact fun x hx => hused x (Nat.lt_trans hx (by decide))
  case parent => constructor <;> decide
  case parentUsed => exact hused 4200 (by decide)
  case num => decide
  case slot =>
    refine (congrArg (fun b => slot b 0) largeDisk_root).trans ?_
    exact (slot_putSlot _ (by decide) _).trans (if_pos rfl)
  case valid => decide
  case plain => decide
  case path =>
    refine path_range 1048575 4201 (fun k hlow hhigh => ?_) ?_
    · rw [hnext k hlow (by omega), if_neg (by omega)]
      refine link_of_ne fun heq => ?_
      have hnum := congrArg UInt64.toNat heq
      rw [UInt64.toNat_ofNat_of_lt' (show k + 1 < 2 ^ 64 by omega)] at hnum
      have heof : clusterTagEof.toNat = 4294967295 := rfl
      omega
    · rw [hnext _ (by omega) (by omega), if_pos rfl]
      exact link_eof
  case data =>
    intro x hx
    obtain ⟨hlow, hhigh⟩ := hdata x hx
    exact ⟨show 4200 ≤ x.toNat by omega, hhigh⟩
  case used => exact fun x hx => hused x (hdata x hx).2
  case apart =>
    intro hx
    have hlow := (hdata _ hx).1
    exact absurd hlow (by decide)
  case nonempty =>
    intro heq
    have hlen := congrArg List.length heq
    rw [List.length_map, List.length_range'] at hlen
    exact absurd hlen (by decide)
  case size =>
    rw [List.length_map, List.length_range']
    decide

/-- A file of 2^32 bytes is not read back, not even where nothing is written to it. -/
theorem large_file_not_read_back :
    ¬ ∀ (v : Partition) (d : Disk) (e : Entry) (dir f : File) (l : List UInt64) (w : List UInt8),
      v.Wf → Stored v (d.volume v) e l → dir.cluster = e.parent → w.length < 2 ^ 32 →
      HasRoom v d l w → ReadsBack v dir e f ((d.volume v).bytes l e.size.toNat) w d := by
  intro hclaim
  have hsmall := small_of_readsBack (hclaim _ _ _ { File.fresh with cluster := 4200 } .fresh _ []
    largePartition_wf largeFile_stored rfl (by decide) (Nat.zero_le _))
  rw [Volume.length_bytes] at hsmall
  exact absurd hsmall (by decide)

end Cumulonimbus.Fat64
