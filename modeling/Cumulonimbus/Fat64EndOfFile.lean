import Cumulonimbus.Fat64ReadBack

/-!
# The end of a file

`fat64_getc` does not look at the size of a file, and at the end of the last cluster it compares
the location with `FAT64_EOF` where it means to assign it.  Calls after the last byte give the rest
of the last cluster and then the memory behind the buffer, and the first that reports the end is the
one that finds the 32-bit location at `FAT64_EOF` by counting (`getcs_spec`).  So no file is read to
its end and no further (`reading_never_stops`).
-/

namespace Cumulonimbus.Fat64

open Exec

attribute [local irreducible] wp

/-- `n` calls of `fat64_getc` on one handle. -/
def getcs (v : Partition) : Nat → File → Fat (List (Status × Option UInt8) × File)
  | 0, f => return ([], f)
  | n + 1, f => do
    let (stat, f, data) ← fat64Getc v f
    let (rest, f) ← getcs v n f
    return ((stat, data) :: rest, f)

/-- Open a file and read `n` bytes one by one. -/
def openThenGetcs (v : Partition) (dir : File) (index : UInt64) (f : File) (n : Nat) :
    Fat (List (Status × Option UInt8) × File) := do
  let (_, _, f) ← fat64DirEntry v dir index f
  getcs v n f

/-- Open a file, read `n` bytes one by one and then `amount` at once. -/
def openThenRead (v : Partition) (dir : File) (index : UInt64) (f : File) (n amount : Nat) :
    Fat Status := do
  let (_, f) ← openThenGetcs v dir index f n
  let (stat, _) ← fat64Read v f amount
  return stat

/-- What `n` calls should give for a file that holds `c`. -/
def untilEof (c : List UInt8) (n : Nat) : List (Status × Option UInt8) :=
  (c.take n).map (fun data => (.success, some data)) ++ List.replicate (n - c.length) (.eof, none)

/-- However often `fat64_getc` is called on a file with the entry `e` that holds `c`, it gives the
bytes of the file in order and then `FAT64_EOF`. -/
def GetcStops (v : Partition) (dir : File) (e : Entry) (f : File) (c : List UInt8) (d : Disk) :
    Prop :=
  ∀ n, wp (openThenGetcs v dir e.dirEntryNum.toUInt64 f n) (fun r _ => r.1 = untilEof c n)
    (fun _ => False) d

/-- Wherever in the file the handle stands, `fat64_read` succeeds exactly if the amount does not
exceed the bytes that remain. -/
def ReadStops (v : Partition) (dir : File) (e : Entry) (f : File) (c : List UInt8) (d : Disk) :
    Prop :=
  ∀ n amount, n ≤ c.length → amount < 0x100000000 →
    wp (openThenRead v dir e.dirEntryNum.toUInt64 f n amount)
      (fun stat _ => stat = .success ↔ amount ≤ c.length - n) (fun _ => False) d

/-- The number of calls after which the location is `FAT64_EOF`, for a chain of clusters. -/
def countedEof (l : List UInt64) : Nat := clusterSize * (l.length - 1) + eof32.toNat

/-- What calls of `fat64_getc` give from the position `pos` on. -/
def Gives (vol : Volume) (l : List UInt64) (pos : Nat) (out : List (Status × Option UInt8)) :
    Prop :=
  ∀ k stat data, out[k]? = some (stat, data) →
    stat = (if pos + k < countedEof l then .success else .eof) ∧
      (pos + k < clusterSize * l.length → data = some (vol.byteOf l (pos + k)))

/-- A handle on which only `fat64_getc` has been called. -/
structure Counting (v : Partition) (d : Disk) (vol : Volume) (e : Entry) (l : List UInt64)
    (f : File) (pos : Nat) : Prop extends OpenFile v d vol e l f pos where
  unchanged : f.dirty = false
  stands : ∃ i, Inside l f i pos ∧ (f.location.toNat < clusterSize ∨ i + 1 = l.length)

variable {v : Partition} {d : Disk} {vol : Volume} {e : Entry} {f g dir : File} {l : List UInt64}
  {c : List UInt8} {n pos : Nat} {E : Spin → Prop}

/-! ## One call -/

theorem Stored.counted_bound (wf : v.Wf) (st : Stored v vol e l) :
    clusterSize * l.length < countedEof l ∧ countedEof l + 1 < 2 ^ 64 := by
  have hlen := st.length_le
  have hsectors := wf.sectors
  have hne := List.length_pos_iff.mpr st.nonempty
  rw [countedEof, clusterSize_eq, eof32_toNat]
  omega

/-- The end is reported where the location has counted up to it. -/
theorem Counting.eof_iff (h : Counting v d vol e l f pos) :
    f.location = eof32 ↔ pos = countedEof l := by
  obtain ⟨i, inside, hstands⟩ := h.stands
  have hi := inside.lt
  have hpos := inside.pos
  have heof := eof32_toNat
  rw [countedEof, ← UInt32.toNat_inj]
  rw [clusterSize_eq] at *
  constructor
  · intro hloc
    have hlast : i = l.length - 1 := by omega
    rw [hpos, hloc, hlast]
  · intro hcount
    have hloc := f.location.toNat_lt
    have hlast : i = l.length - 1 := by omega
    rw [hlast] at hpos
    omega

/-- A byte behind the last cluster comes from the memory behind the buffer. -/
theorem Counting.getc_beyond (wf : v.Wf) (h : Counting v d vol e l f pos)
    (hge : clusterSize * l.length ≤ pos) (hlt : pos < countedEof l) :
    wp (fat64Getc v f)
      (fun r d' => r.1 = .success ∧ Counting v d' vol e l r.2.1 (pos + 1)) E d := by
  obtain ⟨i, inside, hstands⟩ := h.stands
  have hcluster := h.data _ inside.mem
  have hloc : f.location ≠ eof32 := fun heq => hlt.ne (h.eof_iff.mp heq)
  have hi := inside.lt
  have hpos := inside.pos
  have hbound := (h.counted_bound wf).2
  have hmax := f.location.toNat_lt
  have hbehind : clusterSize ≤ f.location.toNat := by
    rw [clusterSize_eq] at *
    omega
  have hnum : (f.location + 1).toNat = f.location.toNat + 1 := by
    have hne : f.location.toNat ≠ 4294967295 := fun heq => hloc (UInt32.toNat_inj.mp heq)
    rw [UInt32.toNat_add]
    exact Nat.mod_eq_of_lt (show f.location.toNat + 1 < 2 ^ 32 by omega)
  have habs : (f.absLocation + 1).toNat = pos + 1 := by
    rw [UInt64.toNat_add, h.abs]
    exact Nat.mod_eq_of_lt (show pos + 1 < 2 ^ 64 by omega)
  rw [fat64Getc, wp_ite]
  refine ⟨fun hclosed => absurd hclosed (hcluster.ne_zero wf), fun _ => ?_⟩
  rw [wp_ite]
  refine ⟨fun heq => absurd heq hloc, fun _ => ?_⟩
  have hend : (f.location + 1).toNat ≠ clusterSize := by omega
  rw [getcEnd, if_neg hend, wp_bind, wp_pure, wp_pure]
  refine ⟨rfl, ⟨⟨h.toStored, h.shows, h.entry, h.tags, h.clean, habs⟩, h.unchanged, i,
    ⟨inside.cluster, ?_⟩, Or.inr (hstands.resolve_left (by omega))⟩⟩
  show pos + 1 = clusterSize * i + (f.location + 1).toNat
  omega

/-- Inside the chain a byte of it is read. -/
theorem Counting.getc_inside (wf : v.Wf) (h : Counting v d vol e l f pos)
    (hlt : pos < clusterSize * l.length) :
    wp (fat64Getc v f)
      (fun r d' => r.1 = .success ∧ r.2.2 = some (vol.byteOf l pos) ∧
        Counting v d' vol e l r.2.1 (pos + 1)) E d := by
  obtain ⟨i, inside, hstands⟩ := h.stands
  have hreading : Reading l f pos := by
    refine ⟨i, inside, Or.inl ?_⟩
    have hpos := inside.pos
    rcases hstands with hin | hlast
    · exact hin
    · rw [← hlast, Nat.mul_succ] at hlt
      omega
  refine wp_mono (fat64Getc_file wf h.toOpenFile h.unchanged hreading hlt) ?_ fun _ he => he
  intro r d' hpost
  obtain ⟨hstat, hdata, hopen, hclean, i', inside', hstands'⟩ := hpost
  exact ⟨hstat, hdata, hopen, hclean, i', inside', hstands'.imp_right And.right⟩

/-- One call at a position, or at the end that is counted up to. -/
theorem Counting.getc (wf : v.Wf) (h : Counting v d vol e l f (min pos (countedEof l))) :
    wp (fat64Getc v f)
      (fun r d' => r.1 = (if pos < countedEof l then .success else .eof) ∧
        (pos < clusterSize * l.length → r.2.2 = some (vol.byteOf l pos)) ∧
        Counting v d' vol e l r.2.1 (min (pos + 1) (countedEof l))) E d := by
  have hbound := (h.counted_bound wf).1
  by_cases hlt : pos < countedEof l
  · rw [Nat.min_eq_left hlt.le] at h
    rw [if_pos hlt, Nat.min_eq_left hlt]
    by_cases hin : pos < clusterSize * l.length
    · refine wp_mono (h.getc_inside wf hin) ?_ fun _ he => he
      exact fun r d' hpost => ⟨hpost.1, fun _ => hpost.2.1, hpost.2.2⟩
    · refine wp_mono (h.getc_beyond wf (Nat.le_of_not_lt hin) hlt) ?_ fun _ he => he
      exact fun r d' hpost => ⟨hpost.1, fun hlow => absurd hlow hin, hpost.2⟩
  · have hge := Nat.le_of_not_lt hlt
    rw [Nat.min_eq_right hge] at h
    rw [if_neg hlt, Nat.min_eq_right (by omega)]
    have hloc := h.eof_iff.mpr rfl
    have hopen : f.cluster ≠ 0 := by
      obtain ⟨i, inside, -⟩ := h.stands
      exact (h.data _ inside.mem).ne_zero wf
    rw [fat64Getc, if_neg hopen, if_pos hloc, wp_pure]
    exact ⟨rfl, fun hlow => absurd (hlow.trans hbound) hlt, h⟩

/-! ## Many calls -/

theorem Gives.cons {x : Status × Option UInt8} {out : List (Status × Option UInt8)}
    (hstat : x.1 = if pos < countedEof l then .success else .eof)
    (hdata : pos < clusterSize * l.length → x.2 = some (vol.byteOf l pos))
    (h : Gives vol l (pos + 1) out) : Gives vol l pos (x :: out) := by
  intro k stat data hk
  cases k with
  | zero =>
    obtain rfl : x = (stat, data) := Option.some.inj hk
    exact ⟨hstat, hdata⟩
  | succ k =>
    have hrest := h k stat data hk
    rwa [Nat.add_right_comm] at hrest

/-- **What any number of calls gives**: the bytes of the chain, whatever the size of the file, then
other bytes until the location is `FAT64_EOF`. -/
theorem getcs_spec (wf : v.Wf) (h : Counting v d vol e l f (min pos (countedEof l))) (n : Nat) :
    wp (getcs v n f)
      (fun r d' => r.1.length = n ∧ Gives vol l pos r.1 ∧
        Counting v d' vol e l r.2 (min (pos + n) (countedEof l))) E d := by
  induction n generalizing pos f d with
  | zero =>
    rw [getcs, wp_pure]
    refine ⟨rfl, fun k stat data hk => ?_, h⟩
    rw [List.getElem?_nil] at hk
    cases hk
  | succ n ih =>
    rw [getcs]
    refine wp_seq (h.getc wf) ?_
    intro r d' hpost
    obtain ⟨hstat, hdata, h'⟩ := hpost
    refine wp_seq (ih h') ?_
    intro r' d'' hpost
    obtain ⟨hlen, hgives, h''⟩ := hpost
    rw [wp_pure, Nat.add_assoc pos 1 n, Nat.add_comm 1 n] at *
    exact ⟨congrArg Nat.succ hlen, hgives.cons hstat hdata, h''⟩

/-- `fat64_read` succeeds as long as the location does not count up to `FAT64_EOF`. -/
theorem readLoop_counts (wf : v.Wf) {amount : Nat} (hsmall : amount < 0x100000000) (fuel : Nat)
    (k : UInt32) (acc : List UInt8) (hk : k.toNat ≤ amount) (hfuel : amount - k.toNat < fuel)
    (hle : pos + k.toNat ≤ countedEof l) (h : Counting v d vol e l f (pos + k.toNat)) :
    wp (readLoop v amount fuel k f acc)
      (fun r _ => r.1 = .success ↔ pos + amount ≤ countedEof l) E d := by
  induction fuel generalizing k f acc d with
  | zero => omega
  | succ fuel ih =>
    rw [readLoop, wp_ite]
    refine ⟨fun hlt => ?_, fun hge => ?_⟩
    · rw [← Nat.min_eq_left hle] at h
      refine wp_seq (h.getc wf) ?_
      intro r d' hpost
      obtain ⟨hstat, -, h'⟩ := hpost
      rw [wp_ite]
      by_cases hroom : pos + k.toNat < countedEof l
      · rw [if_pos hroom] at hstat
        refine ⟨fun hne => absurd hstat hne, fun _ => ?_⟩
        have hnum : (k + 1).toNat = k.toNat + 1 := by
          rw [UInt32.toNat_add]
          exact Nat.mod_eq_of_lt (show k.toNat + 1 < 2 ^ 32 by omega)
        have hpos : min (pos + k.toNat + 1) (countedEof l) = pos + (k + 1).toNat := by omega
        rw [hpos] at h'
        exact ih (k + 1) _ (by omega) (by omega) (by omega) h'
      · rw [if_neg hroom] at hstat
        have hfailed : r.1 ≠ .success := by
          rw [hstat]
          simp
        refine ⟨fun _ => wp_pure.mpr ?_, fun hok => absurd hfailed hok⟩
        exact ⟨fun heq => absurd heq hfailed, fun hall => absurd hall (by omega)⟩
    · have hlast : k.toNat = amount := by omega
      exact wp_pure.mpr ⟨fun _ => hlast ▸ hle, fun _ => rfl⟩

/-! ## Opened files -/

/-- A handle that was just opened. -/
theorem Stored.counting (st : Stored v vol e l) (h : Shows v d vol) :
    Counting v d vol e l (g.opened vol e) 0 := by
  obtain ⟨hopen, hplace⟩ := st.opened (g := g) h
  refine ⟨hopen, rfl, ?_⟩
  rcases hplace with ⟨i, inside, hlt⟩ | behind
  · exact ⟨i, inside, Or.inl hlt⟩
  · exact absurd behind.location (show (0 : UInt32) ≠ eof32 by decide)

theorem openThenGetcs_spec (wf : v.Wf) (st : Stored v (d.volume v) e l)
    (hdir : dir.cluster = e.parent) (f : File) (n : Nat) :
    wp (openThenGetcs v dir e.dirEntryNum.toUInt64 f n)
      (fun r d' => r.1.length = n ∧ Gives (d.volume v) l 0 r.1 ∧
        Counting v d' (d.volume v) e l r.2 (min n (countedEof l))) E d := by
  have hvol := shows_self v d
  rw [openThenGetcs]
  refine wp_seq (fat64DirEntry_file st hvol hdir) ?_
  intro r d' hpost
  obtain ⟨rfl, rfl⟩ := hpost
  have hstart : Counting v d' (d'.volume v) e l (f.opened (d'.volume v) e)
      (min 0 (countedEof l)) := by
    rw [Nat.zero_min]
    exact st.counting hvol
  have hrun := getcs_spec (E := E) wf hstart n
  rwa [Nat.zero_add] at hrun

theorem openThenRead_spec (wf : v.Wf) (st : Stored v (d.volume v) e l)
    (hdir : dir.cluster = e.parent) (f : File) {amount : Nat} (hn : n ≤ e.size.toNat)
    (hsmall : amount < 0x100000000) :
    wp (openThenRead v dir e.dirEntryNum.toUInt64 f n amount)
      (fun stat _ => stat = .success ↔ n + amount ≤ countedEof l) E d := by
  have hle : n ≤ countedEof l := (hn.trans st.size).trans (st.counted_bound wf).1.le
  rw [openThenRead]
  refine wp_seq (openThenGetcs_spec wf st hdir f n) ?_
  intro r d' hpost
  obtain ⟨-, -, h⟩ := hpost
  rw [Nat.min_eq_left hle] at h
  refine wp_seq (readLoop_counts wf hsmall turns 0 [] (Nat.zero_le _)
    (show amount - 0 < turns by rw [turns]; omega) hle h) ?_
  exact fun r d' hpost => wp_pure.mpr hpost

/-- The call after the last byte succeeds. -/
theorem not_getcStops (wf : v.Wf) (st : Stored v (d.volume v) e l) (hdir : dir.cluster = e.parent)
    (f : File) : ¬ GetcStops v dir e f ((d.volume v).bytes l e.size.toNat) d := by
  intro hstops
  obtain ⟨r, d', -, hgood, hlen, hgives, -⟩ := wp_returns (wp_mono (wp_and
    (hstops (e.size.toNat + 1)) (openThenGetcs_spec (E := fun _ => False) wf st hdir f _))
    (fun _ _ h => h) fun _ he => he.1)
  have hlast : r.1[e.size.toNat]? = some (.eof, none) := by
    rw [hgood, untilEof, List.getElem?_append_right (by simp)]
    simp
  have hbound := (st.counted_bound wf).1
  have hsize := st.size
  have hstat := (hgives _ _ _ hlast).1
  rw [if_pos (by omega)] at hstat
  cases hstat

/-- A byte more than the file has is read without an error. -/
theorem not_readStops (wf : v.Wf) (st : Stored v (d.volume v) e l) (hdir : dir.cluster = e.parent)
    (f : File) : ¬ ReadStops v dir e f ((d.volume v).bytes l e.size.toNat) d := by
  intro hstops
  have hstop := hstops e.size.toNat 1 (Volume.length_bytes _ _ _).ge (by decide)
  obtain ⟨stat, d', -, hgood, hcount⟩ := wp_returns (wp_mono (wp_and hstop
    (openThenRead_spec (E := fun _ => False) wf st hdir f le_rfl (by decide)))
    (fun _ _ h => h) fun _ he => he.1)
  have hbound := (st.counted_bound wf).1
  have hsize := st.size
  have hmore := hgood.mp (hcount.mpr (by omega))
  rw [Volume.length_bytes] at hmore
  omega

/-- **Reading stops at the end of no file.**  The bytes of the file come first, and in order, but
neither `fat64_getc` nor `fat64_read` ends with them: the calls succeed until the location, which
has 32 bits, is `FAT64_EOF`. -/
theorem reading_never_stops (wf : v.Wf) (st : Stored v (d.volume v) e l)
    (hdir : dir.cluster = e.parent) (f : File) :
    ¬ GetcStops v dir e f ((d.volume v).bytes l e.size.toNat) d ∧
    ¬ ReadStops v dir e f ((d.volume v).bytes l e.size.toNat) d ∧
    (∀ n, wp (openThenGetcs v dir e.dirEntryNum.toUInt64 f n)
      (fun r _ => r.1.length = n ∧ Gives (d.volume v) l 0 r.1) (fun _ => False) d) ∧
    ∀ n amount, n ≤ e.size.toNat → amount < 0x100000000 →
      wp (openThenRead v dir e.dirEntryNum.toUInt64 f n amount)
        (fun stat _ => stat = .success ↔ n + amount ≤ countedEof l) (fun _ => False) d := by
  refine ⟨not_getcStops wf st hdir f, not_readStops wf st hdir f, fun n => ?_, fun n amount => ?_⟩
  · refine wp_mono (openThenGetcs_spec wf st hdir f n) ?_ fun _ he => he
    exact fun r d' hpost => ⟨hpost.1, hpost.2.1⟩
  · exact openThenRead_spec wf st hdir f

/-- A new file, which is empty. -/
theorem reading_never_stops_new :
    wp freshRoot
      (fun r d => ∃ out d' e, fat64Touch r.1 r.2 ⟨[97], by decide⟩ d = .ok (out, d') ∧
        e.size = 0 ∧ ¬ GetcStops r.1 out.2 e .fresh [] d' ∧ ¬ ReadStops r.1 out.2 e .fresh [] d')
      (fun _ => False) .blank := by
  refine wp_mono touched_stored ?_ fun _ he => he
  intro r d hpost
  obtain ⟨hwf, out, d', e, l, htouch, st, hdir, hsize, -⟩ := hpost
  have hnever := reading_never_stops hwf st hdir .fresh
  rw [hsize] at hnever
  exact ⟨out, d', e, htouch, hsize, hnever.1, hnever.2.1⟩

/-- The end of an empty file, which has one cluster, is not reported. -/
theorem empty_file_never_ends :
    ¬ ∀ (v : Partition) (d : Disk) (e : Entry) (dir f : File) (l : List UInt64),
      v.Wf → Stored v (d.volume v) e l → l.length = clustersFor e.size.toNat →
      dir.cluster = e.parent →
        GetcStops v dir e f ((d.volume v).bytes l e.size.toNat) d ∧
          ReadStops v dir e f ((d.volume v).bytes l e.size.toNat) d := by
  intro hclaim
  obtain ⟨r, d, -, hwf, out, d', e, l, -, st, hdir, hsize, hlen⟩ := wp_returns touched_stored
  have hclusters : l.length = clustersFor e.size.toNat := by
    rw [hsize, hlen]
    decide
  exact not_getcStops hwf st hdir .fresh (hclaim _ _ _ _ _ _ hwf st hclusters hdir).1

end Cumulonimbus.Fat64
