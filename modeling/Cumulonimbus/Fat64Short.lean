import Cumulonimbus.Fat64Census

/-!
# Short files

Reading and writing that stay inside the first cluster of a file.  Then no cluster is taken or
saved on the way: what is written is in the buffer of the handle until it is flushed, and only the
size of the file goes to the directory.
-/

namespace Cumulonimbus.Fat64

open Exec

attribute [local irreducible] wp

variable {v : Partition} {d : Disk} {vol vol' : Volume} {e : Entry} {f g : File}
  {data : List UInt8} {k n : Nat} {E : Spin → Prop}

section Volumes

variable (vol : Volume) (e : Entry)

@[simp] theorem Volume.putEntry_tag : (vol.putEntry e).tag = vol.tag := rfl

/-- An entry goes into the directory's cluster. -/
theorem Volume.putEntry_chunk (x : UInt64) : (vol.putEntry e).chunk x =
    if x = e.parent then putSlot (vol.chunk e.parent) e.dirEntryNum.toNat e else vol.chunk x :=
  Volume.setChunk_chunk ..

@[simp] theorem Volume.free_chunk (l : List UInt64) : (vol.free l).chunk = vol.chunk := rfl

end Volumes

/-- An entry without flags is not valid. -/
theorem Entry.not_valid (h : e.flags = 0) : ¬ e.Valid := by
  rw [Entry.Valid, h]
  decide

/-- Within a cluster the location does not wrap around. -/
theorem location_next (h : f.location.toNat + 1 < clusterSize) :
    f.location ≠ eof32 ∧ (f.location + 1).toNat = f.location.toNat + 1 := by
  have hsize : clusterSize = 4096 := rfl
  refine ⟨fun heof => ?_, ?_⟩
  · rw [heof] at h
    exact absurd h (by decide)
  · rw [UInt32.toNat_add, UInt32.toNat_one]
    omega

/-! ## Writing -/

/-- **A byte is written** within the first cluster. -/
theorem fat64Putc_short (wf : v.Wf) (h : Shows v d vol) (hopen : f.cluster ≠ 0)
    (hp : v.Data f.entry.parent) (hnum : f.entry.dirEntryNum.toNat < 8)
    (hloc : f.location.toNat + 1 < clusterSize) (b : UInt8) :
    wp (fat64Putc v f b)
      (fun r d' => r = (.success, f.stored b) ∧ Shows v d' (vol.grow f b) ∧ Saves v d d') E d := by
  obtain ⟨hne, hnext⟩ := location_next hloc
  have hextend : putcExtend v f = pure (.success, f) := by rw [putcExtend, if_neg hne]
  rw [fat64Putc, if_neg hopen, hextend, pure_bind]
  dsimp only
  rw [if_neg (by decide)]
  refine wp_seq (putcStore_spec wf h hp hnum b) ?_
  rintro _ d' ⟨rfl, hpost⟩
  have hstay : (f.stored b).location.toNat ≠ clusterSize := by
    show (f.location + 1).toNat ≠ clusterSize
    omega
  rw [putcEnd, if_neg hstay, pure_bind]
  exact wp_pure.mpr ⟨rfl, hpost⟩

/-- The handle of the file `e`, and the volume, after `k` bytes have been written. -/
structure Filling (vol : Volume) (e : Entry) (data : List UInt8) (k : Nat) (g : File)
    (vol' : Volume) : Prop where
  cluster : g.cluster = e.file
  location : g.location.toNat = k
  abs : g.absLocation.toNat = k
  entry : g.entry = { e with size := g.entry.size }
  size : g.entry.size.toNat = max e.size.toNat k
  buf : ∀ j, g.buf j = if j.val < k then data.getD j.val 0 else vol.chunk e.file j
  dirty : 0 < k → g.dirty = true
  tag : vol'.tag = vol.tag
  chunk : ∀ x, x ≠ e.parent → vol'.chunk x = vol.chunk x
  slots : ∀ i < 8, slot (vol'.chunk e.parent) i =
    if i = e.dirEntryNum.toNat then g.entry else slot (vol.chunk e.parent) i

/-- Before the first byte. -/
theorem Filling.start (hslot : slot (vol.chunk e.parent) e.dirEntryNum.toNat = e) :
    Filling vol e data 0 (g.opened vol e) vol where
  cluster := rfl
  location := rfl
  abs := rfl
  entry := rfl
  size := (Nat.max_zero _).symm
  buf := fun _ => rfl
  dirty := fun h => absurd h (Nat.lt_irrefl 0)
  tag := rfl
  chunk := fun _ _ => rfl
  slots := by
    intro i _
    split
    case isTrue heq => rw [heq, hslot]; rfl
    case isFalse => rfl

/-- One byte. -/
theorem Filling.next (h : Filling vol e data k g vol') (hk : k + 1 < clusterSize) :
    Filling vol e data (k + 1) (g.stored (data.getD k 0)) (vol'.grow g (data.getD k 0)) := by
  have hlocation := h.location
  have habs := h.abs
  have hsize := h.size
  have hcluster : clusterSize = 4096 := rfl
  have habs' : (g.absLocation + 1).toNat = k + 1 := by
    rw [UInt64.toNat_add, UInt64.toNat_one]
    omega
  have hgrows : g.entry.size < g.absLocation + 1 ↔ e.size.toNat ≤ k := by
    rw [UInt64.lt_iff_toNat_lt, habs', hsize]
    omega
  have hentry : (g.stored (data.getD k 0)).entry =
      { e with size := (g.stored (data.getD k 0)).entry.size } := by
    rw [File.stored]
    split
    · rw [h.entry]
    · exact h.entry
  constructor
  case cluster => exact h.cluster
  case location => exact (location_next (by omega)).2.trans (by rw [hlocation])
  case abs => exact habs'
  case entry => exact hentry
  case size =>
    rw [File.stored]
    by_cases hgrow : g.entry.size < g.absLocation + 1
    · have hle := hgrows.mp hgrow
      rw [if_pos hgrow]
      show (g.entry.size + 1).toNat = _
      rw [UInt64.toNat_add, UInt64.toNat_one]
      omega
    · have hlt := mt hgrows.mpr hgrow
      rw [if_neg hgrow]
      show g.entry.size.toNat = _
      omega
  case buf =>
    intro j
    show (if j.val = g.location.toNat then data.getD k 0 else g.buf j) = _
    rw [hlocation, h.buf j]
    by_cases hj : j.val = k
    · rw [if_pos hj, if_pos (by omega), hj]
    · rw [if_neg hj]
      by_cases hlt : j.val < k
      · rw [if_pos hlt, if_pos (by omega)]
      · rw [if_neg hlt, if_neg (by omega)]
  case dirty => exact fun _ => rfl
  case tag =>
    rw [Volume.grow]
    split
    · exact h.tag
    · exact h.tag
  case chunk =>
    intro x hx
    rw [Volume.grow]
    split
    · rw [Volume.putEntry, Volume.setChunk_chunk, hentry, if_neg hx]
      exact h.chunk x hx
    · exact h.chunk x hx
  case slots =>
    intro i hi
    rw [Volume.grow]
    split
    case isTrue =>
      rw [Volume.putEntry, Volume.setChunk_chunk, hentry, if_pos rfl, slot_putSlot _ hi,
        h.slots i hi]
      by_cases heq : i = e.dirEntryNum.toNat
      · rw [if_pos heq, if_pos heq]
      · rw [if_neg heq, if_neg heq, if_neg heq]
    case isFalse hstay =>
      rw [h.slots i hi, File.stored, if_neg hstay]

/-- **A short text** goes into the first cluster, by induction on the fuel. -/
theorem writeLoop_short (wf : v.Wf) (hopen : e.file ≠ 0) (hp : v.Data e.parent)
    (hnum : e.dirEntryNum.toNat < 8) (hdata : data.length < clusterSize) (n : Nat) (i : UInt32)
    (hi : i.toNat ≤ data.length) (hn : data.length - i.toNat < n) (h : Shows v d vol')
    (filling : Filling vol e data i.toNat g vol') :
    wp (writeLoop v data n i g)
      (fun r d' => r.1 = .success ∧ Saves v d d' ∧ ∃ vol', Shows v d' vol' ∧
        Filling vol e data data.length r.2 vol') E d := by
  induction n generalizing i g d vol' with
  | zero => omega
  | succ n ih =>
    have hcluster : clusterSize = 4096 := rfl
    rw [writeLoop]
    by_cases hlt : i.toNat < data.length
    · have hnext : (i + 1).toNat = i.toNat + 1 := by
        rw [UInt32.toNat_add, UInt32.toNat_one]
        omega
      have hparent : g.entry.parent = e.parent := by rw [filling.entry]
      have hplace : g.entry.dirEntryNum = e.dirEntryNum := by rw [filling.entry]
      have hlocation := filling.location
      rw [if_pos hlt]
      refine wp_seq (fat64Putc_short wf h (filling.cluster ▸ hopen) (hparent ▸ hp)
        (hplace ▸ hnum) (by omega) (data.getD i.toNat 0)) ?_
      rintro _ d₁ ⟨rfl, h₁, hsaves⟩
      dsimp only
      rw [if_neg (by decide)]
      have hstep := filling.next (by omega)
      rw [← hnext] at hstep
      refine wp_mono (ih (i + 1) (by omega) (by omega) h₁ hstep) ?_ fun _ he => he
      rintro r d' ⟨hstat, hsaves', hpost⟩
      exact ⟨hstat, hsaves.trans hsaves', hpost⟩
    · have hend : i.toNat = data.length := by omega
      rw [if_neg hlt]
      rw [hend] at filling
      exact wp_pure.mpr ⟨rfl, .of_eq rfl, vol', h, filling⟩

/-! ## Reading -/

/-- **A byte is read** within the first cluster. -/
theorem fat64Getc_short (hopen : f.cluster ≠ 0) (hloc : f.location.toNat + 1 < clusterSize) :
    wp (fat64Getc v f)
      (fun r d' => r = (.success, f.advanced, some (f.byteAt f.location.toNat)) ∧ d' = d) E d := by
  obtain ⟨hne, hnext⟩ := location_next hloc
  have hstay : f.advanced.location.toNat ≠ clusterSize := by
    show (f.location + 1).toNat ≠ clusterSize
    omega
  have hend : getcEnd v f.advanced = pure f.advanced := by rw [getcEnd, if_neg hstay]
  rw [fat64Getc, if_neg hopen, if_neg hne]
  show wp (getcEnd v f.advanced >>= _) _ _ _
  rw [hend, pure_bind]
  exact wp_pure.mpr ⟨rfl, rfl⟩

/-- **A short text** is read from the first cluster, by induction on the fuel. -/
theorem readLoop_short (hn : n < clusterSize) (fuel : Nat) (i : UInt32) (hi : i.toNat ≤ n)
    (hfuel : n - i.toNat < fuel) (hopen : f.cluster ≠ 0) (hloc : f.location = i) :
    wp (readLoop v n fuel i f ((List.range i.toNat).map f.byteAt))
      (fun r d' => r.1 = .success ∧ r.2.2 = (List.range n).map f.byteAt ∧ d' = d) E d := by
  induction fuel generalizing i f with
  | zero => omega
  | succ fuel ih =>
    have hcluster : clusterSize = 4096 := rfl
    rw [readLoop]
    by_cases hlt : i.toNat < n
    · have hnext : (i + 1).toNat = i.toNat + 1 := by
        rw [UInt32.toNat_add, UInt32.toNat_one]
        omega
      rw [if_pos hlt]
      refine wp_seq (fat64Getc_short hopen (by rw [hloc]; omega)) ?_
      rintro _ _ ⟨rfl, rfl⟩
      dsimp only
      rw [if_neg (by decide), hloc]
      have hbytes : (List.range i.toNat).map f.byteAt ++ (some (f.byteAt i.toNat)).toList =
          (List.range (i + 1).toNat).map f.advanced.byteAt := by
        rw [hnext, List.range_succ, List.map_append]
        rfl
      rw [hbytes]
      refine ih (i + 1) (by omega) (by omega) hopen ?_
      show f.location + 1 = i + 1
      rw [hloc]
    · have hend : i.toNat = n := by omega
      rw [if_neg hlt, hend]
      exact wp_pure.mpr ⟨rfl, rfl, rfl⟩

end Cumulonimbus.Fat64
