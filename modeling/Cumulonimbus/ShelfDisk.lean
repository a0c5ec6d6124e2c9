import Cumulonimbus.Fat64Short
import Cumulonimbus.Shelf

/-!
# A shelf on a disk

How a volume holds a shelf: the slots are the entries of the root directory, and the cells are the
first eight clusters behind it.  Each call that the shell makes of the file system is then what it
wants to be done with the shelf.
-/

namespace Cumulonimbus.Shell

open Exec Fat64 Linked

attribute [local irreducible] wp

/-- The root directory. -/
abbrev rootCluster : UInt64 := UInt64.ofNat fsPartition.rootDir

/-- The cluster of a cell. -/
def cellCluster (k : Fin 8) : UInt64 := UInt64.ofNat (fsPartition.rootDir + 1 + k.val)

/-- A text lies in the first sector of its cluster. -/
theorem text_fits : 128 ≤ 4096 := by decide

/-- The text at the start of a cluster. -/
def clusterText (b : Cluster) (j : Fin 128) : UInt8 := b (j.castLE text_fits)

/-- The entry of the card in a slot. -/
structure Filed (e : Entry) (i : Fin 8) (c : Card) : Prop where
  name : e.name = c.name.field
  file : e.file = cellCluster c.cell
  parent : e.parent = rootCluster
  flags : e.flags = validFlag
  num : e.dirEntryNum = UInt32.ofNat i.val
  size : e.size.toNat ≤ 128

/-- The volume holds the shelf. -/
structure Shelved (vol : Volume) (s : Shelf) : Prop where
  reserved : ∀ x, x.toNat ≤ fsPartition.rootDir → vol.tag x ≠ freeTags
  taken : ∀ k, s.Taken k → vol.tag (cellCluster k) = ⟨clusterTagEof, clusterTagEof⟩
  free : ∀ k, ¬ s.Taken k → vol.tag (cellCluster k) = freeTags
  filed : ∀ i c, s.slot i = some c → Filed (slot (vol.chunk rootCluster) i.val) i c
  vacant : ∀ i, s.slot i = none → ¬ (slot (vol.chunk rootCluster) i.val).Valid
  text : ∀ k, clusterText (vol.chunk (cellCluster k)) = s.text k

/-- The disk shows a volume that holds the shelf. -/
def OnDisk (s : Shelf) (d : Disk) (vol : Volume) : Prop := Shows fsPartition d vol ∧ Shelved vol s

variable {vol vol' : Volume} {d : Disk} {s s' : Shelf} {i j k : Fin 8} {c : Card} {e : Entry}
  {cd f : File} {E : Spin → Prop}

/-! ## Clusters -/

/-- The root directory is in cluster 1025. -/
theorem rootCluster_toNat : rootCluster.toNat = 1025 := rfl

/-- That is a data cluster. -/
theorem rootCluster_data : fsPartition.Data rootCluster := ⟨by decide, by decide⟩

/-- The cells are the clusters behind it. -/
theorem cellCluster_toNat (k : Fin 8) : (cellCluster k).toNat = 1026 + k.val :=
  UInt64.toNat_ofNat_of_lt' (show 1026 + k.val < 2 ^ 64 by omega)

/-- They are data clusters as well. -/
theorem cellCluster_data (k : Fin 8) : fsPartition.Data (cellCluster k) := by
  have hroot : fsPartition.rootDir = 1025 := rfl
  have hsize : fsPartition.size = 262144 := rfl
  have hnum := cellCluster_toNat k
  exact ⟨by omega, by omega⟩

/-- Each cell has a cluster of its own. -/
theorem cellCluster_inj : cellCluster j = cellCluster k ↔ j = k := by
  refine ⟨fun h => Fin.ext ?_, fun h => h ▸ rfl⟩
  have hnum := congrArg UInt64.toNat h
  rw [cellCluster_toNat, cellCluster_toNat] at hnum
  omega

/-- None of these is the root directory's. -/
theorem cellCluster_ne_root (k : Fin 8) : cellCluster k ≠ rootCluster := by
  intro h
  have hnum := congrArg UInt64.toNat h
  rw [cellCluster_toNat, rootCluster_toNat] at hnum
  omega

/-- None is one in front of it. -/
theorem cellCluster_ne_of_le {x : UInt64} (hx : x.toNat ≤ fsPartition.rootDir) (k : Fin 8) :
    x ≠ cellCluster k := by
  have hroot : fsPartition.rootDir = 1025 := rfl
  rintro rfl
  rw [cellCluster_toNat] at hx
  omega

/-- No cell is cluster 0, which would be a closed handle. -/
theorem cellCluster_ne_zero (k : Fin 8) : cellCluster k ≠ 0 := by
  intro h
  have hnum := congrArg UInt64.toNat h
  rw [cellCluster_toNat, UInt64.toNat_zero] at hnum
  omega

/-- The entry of a card is valid. -/
theorem Filed.valid (h : Filed e i c) : e.Valid := by
  rw [Entry.Valid, h.flags]
  decide

/-- It has the number of its slot. -/
theorem Filed.num_toNat (h : Filed e i c) : e.dirEntryNum.toNat = i.val := by
  rw [h.num]
  exact (ofNat_slot i.isLt).1

/-- The choice of a slot for a new card. -/
theorem Shelved.firstSlot (h : Shelved vol s) (hi : s.firstSlot = some i) :
    getFreeDirEntry (vol.chunk rootCluster) = UInt32.ofNat i.val := by
  obtain ⟨hnone, hbefore⟩ := Shelf.firstSlot_some hi
  have hvalid : ∀ j < i, (slot (vol.chunk rootCluster) j.val).Valid := by
    intro j hj
    obtain ⟨c, hc⟩ := Option.ne_none_iff_exists'.mp (hbefore j hj)
    exact (h.filed j c hc).valid
  rcases getFreeDirEntry_cases (vol.chunk rootCluster) with
    ⟨-, hfull⟩ | ⟨n, hn, hnum, hinvalid, hlow⟩
  · exact absurd (hfull i.val i.isLt) (h.vacant i hnone)
  · rcases Nat.lt_trichotomy n i.val with hlt | rfl | hgt
    · exact absurd (hvalid ⟨n, hn⟩ hlt) hinvalid
    · exact hnum
    · exact absurd (hlow i.val hgt) (h.vacant i hnone)

/-- The choice of a cluster for a new card. -/
theorem Shelved.firstCell (h : Shelved vol s) (hk : s.firstCell = some k) {x : UInt64}
    (hfree : vol.tag x = freeTags) (hbefore : ∀ y, y.toNat < x.toNat → vol.tag y ≠ freeTags) :
    x = cellCluster k := by
  obtain ⟨hnot, htaken⟩ := Shelf.firstCell_some hk
  have hroot : fsPartition.rootDir = 1025 := rfl
  have hcell := cellCluster_toNat k
  have hle : x.toNat ≤ (cellCluster k).toNat :=
    Nat.not_lt.mp fun hlt => hbefore _ hlt (h.free k hnot)
  have hgt : 1025 < x.toNat := Nat.not_le.mp fun hle => h.reserved x hle hfree
  have hx : x = cellCluster ⟨x.toNat - 1026, by omega⟩ := by
    refine UInt64.toNat_inj.mp ?_
    rw [cellCluster_toNat]
    show x.toNat = 1026 + (x.toNat - 1026)
    omega
  rcases Nat.lt_or_ge x.toNat (cellCluster k).toNat with hlt | hge
  · have htag := h.taken ⟨x.toNat - 1026, by omega⟩ (htaken _ (Fin.lt_def.mpr (by simp; omega)))
    rw [← hx, hfree] at htag
    exact absurd htag (by decide)
  · exact UInt64.toNat_inj.mp (Nat.le_antisymm hle hge)

/-! ## The calls -/

/-- What lies behind a handle that is clean is not taken for an entry. -/
def Quiet (behind : Nat → UInt8) : Prop :=
  ¬ (Entry.ofBytes fun k => if k = 0 then 0 else behind (k - 1)).Valid

/-- The handle of the current directory. -/
structure AtRoot (cd : File) : Prop where
  cluster : cd.cluster = rootCluster
  file : cd.entry.file = rootCluster
  clean : cd.dirty = false
  quiet : Quiet cd.behind

/-- A handle stays on the root whatever its buffer has. -/
theorem AtRoot.setBuf (h : AtRoot cd) (b : Cluster) : AtRoot { cd with buf := b } :=
  ⟨h.cluster, h.file, h.clean, h.quiet⟩

/-- What is behind the buffer of the directory is not taken for an entry. -/
theorem AtRoot.not_valid (h : AtRoot cd) :
    ¬ (Entry.ofBytes fun k => cd.byteAt (512 * 8 + k)).Valid := by
  have hbytes : (fun k => cd.byteAt (512 * 8 + k)) =
      fun k => if k = 0 then 0 else cd.behind (k - 1) := by
    funext k
    rw [File.byteAt, dif_neg (by omega), h.clean]
    cases k with
    | zero => rfl
    | succ k =>
      rw [if_neg (by omega), if_neg (Nat.succ_ne_zero k)]
      exact congrArg cd.behind (by omega)
  rw [hbytes]
  exact h.quiet

/-- The card that an index stands for. -/
def Shelf.at (s : Shelf) (index : UInt64) : Option (Fin 8 × Card) :=
  if h : index.toNat < 8 then (s.slot ⟨index.toNat, h⟩).map fun c => (⟨index.toNat, h⟩, c) else none

/-- The card at an index. -/
theorem Shelf.at_of {index : UInt64} (hi : index.toNat = i.val) :
    s.at index = (s.slot i).map fun c => (i, c) := by
  have hlt : index.toNat < 8 := hi ▸ i.isLt
  rw [Shelf.at, dif_pos hlt, show (⟨index.toNat, hlt⟩ : Fin 8) = i from Fin.ext hi]

/-- What `fat64_dir_entry` returns. -/
def Opened (vol : Volume) : Option (Fin 8 × Card) → Fat64.Status × File → Prop
  | none, r => r.1 = .eof
  | some (i, _), r =>
    r = (.success, File.fresh.opened vol (slot (vol.chunk rootCluster) i.val))

/-- **Opening** an entry. -/
theorem dirEntry_shelved (h : Shows fsPartition d vol) (hs : Shelved vol s) (hcd : AtRoot cd)
    (index : UInt64) :
    wp (fat64DirEntry fsPartition cd index .fresh)
      (fun r d' => d' = d ∧ r.2.1 = { cd with buf := vol.chunk rootCluster } ∧
        Opened vol (s.at index) (r.1, r.2.2)) E d := by
  have hdata : fsPartition.Data cd.cluster := hcd.cluster ▸ rootCluster_data
  have hchunk : vol.chunk cd.cluster = vol.chunk rootCluster := by rw [hcd.cluster]
  by_cases hlt : index.toNat < 8
  · obtain ⟨i, hi⟩ : ∃ i : Fin 8, index.toNat = i.val := ⟨⟨_, hlt⟩, rfl⟩
    have hindex : index ≠ 8 := by
      rintro rfl
      exact absurd hlt (by decide)
    have hfile : (slot (vol.chunk rootCluster) i.val).Valid →
        fsPartition.Data (slot (vol.chunk rootCluster) i.val).file := by
      intro hvalid
      cases hslot : s.slot i with
      | none => exact absurd hvalid (hs.vacant i hslot)
      | some c =>
        rw [(hs.filed i c hslot).file]
        exact cellCluster_data c.cell
    rw [Shelf.at_of hi]
    refine wp_mono (fat64DirEntry_spec h hdata hindex ?_) ?_ fun _ he => he
    · rw [hchunk, hi]
      exact fun _ => hfile
    · rintro ⟨stat, dir, file⟩ d' ⟨rfl, hdir, hcases⟩
      rw [hchunk, hi] at hcases
      rw [hchunk] at hdir
      refine ⟨rfl, hdir, ?_⟩
      cases hslot : s.slot i with
      | none =>
        rcases hcases with ⟨heof, -, -⟩ | ⟨-, -, hvalid, -⟩
        · exact heof
        · exact absurd hvalid (hs.vacant i hslot)
      | some c =>
        rcases hcases with ⟨-, -, hnot⟩ | ⟨hstat, -, -, hfile⟩
        · exact absurd ⟨i.isLt, (hs.filed i c hslot).valid⟩ hnot
        · exact Prod.ext hstat hfile
  · rw [Shelf.at, dif_neg hlt, fat64DirEntry]
    refine wp_seq (loadCluster_spec h hdata) ?_
    rintro dir d' ⟨rfl, rfl⟩
    rw [hchunk]
    have hfail : 8 < index.toNat ∨ ¬ (Entry.ofBytes fun k =>
        { cd with buf := vol.chunk rootCluster }.byteAt (512 * index.toNat + k)).Valid := by
      rcases Nat.lt_or_ge 8 index.toNat with hgt | hle
      · exact Or.inl hgt
      · rw [show index.toNat = 8 by omega]
        exact Or.inr (hcd.setBuf _).not_valid
    dsimp only
    rw [if_pos hfail]
    exact wp_pure.mpr ⟨rfl, rfl, rfl⟩

/-! ## What the calls make of the shelf -/

/-- **A card is added** in the first empty slot, with the first empty cell. -/
theorem Shelved.add (hs : Shelved vol s) {name : FileName} (hadd : s.add name = some s')
    (hj : s.firstSlot = some j) (hk : s.firstCell = some k) (he : Filed e j ⟨name, k⟩)
    (hroot : ∀ x, x.toNat ≤ fsPartition.rootDir → vol'.tag x = vol.tag x)
    (htag : ∀ m, vol'.tag (cellCluster m) =
      if m = k then ⟨clusterTagEof, clusterTagEof⟩ else vol.tag (cellCluster m))
    (hslot : ∀ i : Fin 8, slot (vol'.chunk rootCluster) i.val =
      if i = j then e else slot (vol.chunk rootCluster) i.val)
    (hcells : ∀ m, vol'.chunk (cellCluster m) = vol.chunk (cellCluster m)) : Shelved vol' s' := by
  obtain ⟨j', k', hj', hk', hs', htext⟩ := Shelf.add_eq_some hadd
  obtain rfl := Option.some.inj (hj.symm.trans hj')
  obtain rfl := Option.some.inj (hk.symm.trans hk')
  constructor
  case reserved => exact fun x hx => hroot x hx ▸ hs.reserved x hx
  case taken =>
    intro m hm
    rw [htag]
    rcases (Shelf.taken_add hadd hk m).mp hm with rfl | hold
    · rw [if_pos rfl]
    · split
      · rfl
      · exact hs.taken m hold
  case free =>
    intro m hm
    rw [Shelf.taken_add hadd hk m, not_or] at hm
    rw [htag, if_neg hm.1]
    exact hs.free m hm.2
  case filed =>
    intro i c hc
    rw [hs', Function.update_apply] at hc
    rw [hslot]
    split at hc
    case isTrue heq =>
      subst heq
      obtain rfl := Option.some.inj hc
      rw [if_pos rfl]
      exact he
    case isFalse hne =>
      rw [if_neg hne]
      exact hs.filed i c hc
  case vacant =>
    intro i hi
    rw [hs', Function.update_apply] at hi
    rw [hslot]
    split at hi
    case isTrue => cases hi
    case isFalse hne =>
      rw [if_neg hne]
      exact hs.vacant i hi
  case text =>
    intro m
    rw [hcells, htext]
    exact hs.text m

/-- **A card is taken away**, and its cell is empty again. -/
theorem Shelved.drop (hs : Shelved vol s) (hc : s.slot j = some c) (he : ¬ e.Valid)
    (hroot : ∀ x, x.toNat ≤ fsPartition.rootDir → vol'.tag x = vol.tag x)
    (htag : ∀ m, vol'.tag (cellCluster m) =
      if m = c.cell then freeTags else vol.tag (cellCluster m))
    (hslot : ∀ i : Fin 8, slot (vol'.chunk rootCluster) i.val =
      if i = j then e else slot (vol.chunk rootCluster) i.val)
    (hcells : ∀ m, vol'.chunk (cellCluster m) = vol.chunk (cellCluster m)) :
    Shelved vol' (s.drop j) := by
  constructor
  case reserved => exact fun x hx => hroot x hx ▸ hs.reserved x hx
  case taken =>
    intro m hm
    obtain ⟨hne, hold⟩ := (Shelf.taken_drop hc m).mp hm
    rw [htag, if_neg hne]
    exact hs.taken m hold
  case free =>
    intro m hm
    rw [Shelf.taken_drop hc m, not_and] at hm
    rw [htag]
    split
    case isTrue => rfl
    case isFalse hne => exact hs.free m (hm hne)
  case filed =>
    intro i c' hc'
    rw [Shelf.drop_slot, Function.update_apply] at hc'
    rw [hslot]
    split at hc'
    case isTrue => cases hc'
    case isFalse hne =>
      rw [if_neg hne]
      exact hs.filed i c' hc'
  case vacant =>
    intro i hi
    rw [Shelf.drop_slot, Function.update_apply] at hi
    rw [hslot]
    split at hi
    case isTrue heq =>
      rw [if_pos heq]
      exact he
    case isFalse hne =>
      rw [if_neg hne]
      exact hs.vacant i hi
  case text =>
    intro m
    rw [hcells]
    exact hs.text m

/-- **A text is written** into the cell of a card. -/
theorem Shelved.fill (hs : Shelved vol s) (hc : s.slot j = some c) (he : Filed e j c)
    {data : Fin 128 → UInt8} (htag : ∀ x, vol'.tag x = vol.tag x)
    (hslot : ∀ i : Fin 8, slot (vol'.chunk rootCluster) i.val =
      if i = j then e else slot (vol.chunk rootCluster) i.val)
    (hdata : clusterText (vol'.chunk (cellCluster c.cell)) = data)
    (hcells : ∀ m, m ≠ c.cell → vol'.chunk (cellCluster m) = vol.chunk (cellCluster m)) :
    Shelved vol' (s.fill c.cell data) := by
  constructor
  case reserved => exact fun x hx => htag x ▸ hs.reserved x hx
  case taken => exact fun m hm => (htag _).trans (hs.taken m hm)
  case free => exact fun m hm => (htag _).trans (hs.free m hm)
  case filed =>
    intro i c' hc'
    rw [hslot]
    split
    case isTrue heq =>
      subst heq
      obtain rfl := Option.some.inj (hc.symm.trans hc')
      exact he
    case isFalse => exact hs.filed i c' hc'
  case vacant =>
    intro i hi
    rw [hslot]
    split
    case isTrue heq =>
      rw [heq] at hi
      exact absurd (hc.symm.trans hi) (by simp)
    case isFalse => exact hs.vacant i hi
  case text =>
    intro m
    rw [Shelf.fill_text, Function.update_apply]
    split
    case isTrue heq => rw [heq, hdata]
    case isFalse hne =>
      rw [hcells m hne]
      exact hs.text m

/-- **A new card.** -/
theorem touch_shelved (h : Shows fsPartition d vol) (hs : Shelved vol s) (hcd : AtRoot cd)
    (hbuf : cd.buf = vol.chunk rootCluster) {name : FileName} (hadd : s.add name = some s') :
    wp (fat64Touch fsPartition cd name)
      (fun r d' => Saves fsPartition d d' ∧ r = (.success, cd) ∧ ∃ vol', OnDisk s' d' vol') E d := by
  obtain ⟨j, k, hj, hk, -, -⟩ := Shelf.add_eq_some hadd
  have hnum := hs.firstSlot hj
  have hsmall : (UInt32.ofNat j.val).toNat = j.val := (ofNat_slot j.isLt).1
  have hload : loadCluster fsPartition cd d = .ok (cd, d) := by
    rw [loadCluster_eq, h.chunk _ (hcd.cluster ▸ rootCluster_data), hcd.cluster, ← hbuf,
      ← hcd.cluster]
  rw [fat64Touch, hbuf, hnum]
  refine wp_seq (wp_of_eq (Q := fun g d' => cd = g ∧ d = d') hload ⟨rfl, rfl⟩) ?_
  rintro _ _ ⟨rfl, rfl⟩
  refine wp_seq (getFreeCluster_tag (by decide) clusterTagEof clusterTagEof) ?_
  rintro x d₁ (⟨-, -, hnone⟩ | ⟨hlt, hfree, hbefore, rfl⟩)
  · have hcell := hs.free k (Shelf.firstCell_some hk).1
    rw [← h.tag _ (cellCluster_data k).2] at hcell
    exact absurd hcell (hnone _ (cellCluster_data k).2)
  rw [h.tag x hlt] at hfree
  obtain rfl := hs.firstCell hk hfree fun y hy => by
    rw [← h.tag y (Nat.lt_trans hy hlt)]
    exact hbefore y hy
  have h₁ := writeTag_shows mkfsPartition_wf h hlt ⟨clusterTagEof, clusterTagEof⟩
  have hdata : fsPartition.Data cd.entry.file := hcd.file ▸ rootCluster_data
  refine wp_seq (saveDirEntry_spec mkfsPartition_wf h₁ hdata (hsmall.trans_lt j.isLt)) ?_
  rintro _ d₂ ⟨h₂, hsaves⟩
  refine wp_pure.mpr ⟨.trans (.of_eq rfl) hsaves, rfl, _, h₂, ?_⟩
  refine hs.add hadd hj hk (e := (newFile cd name (cellCluster k) (UInt32.ofNat j.val) 0
    validFlag).entry) ⟨rfl, rfl, hcd.file, rfl, rfl, Nat.zero_le _⟩ ?_ ?_ ?_ ?_
  · intro x hx
    rw [Volume.setChunk_tag, Volume.setTag_tag, if_neg (cellCluster_ne_of_le hx k)]
  · intro m
    simp only [Volume.setChunk_tag, Volume.setTag_tag, cellCluster_inj]
  · intro i
    have hparent : rootCluster = (newFile cd name (cellCluster k) (UInt32.ofNat j.val) 0
      validFlag).entry.parent := hcd.file.symm
    rw [Volume.setChunk_chunk, if_pos hparent, slot_putSlot _ i.isLt, ← hparent,
      Volume.setTag_chunk]
    show (if i.val = (UInt32.ofNat j.val).toNat then _ else _) = _
    rw [hsmall]
    simp only [Fin.ext_iff]
  · intro m
    have hne : cellCluster m ≠ cd.entry.file := hcd.file ▸ cellCluster_ne_root m
    exact (Volume.setChunk_chunk ..).trans (if_neg hne)

section Cards

variable (h : Shows fsPartition d vol) (hs : Shelved vol s) (hc : s.slot j = some c)
  (he : slot (vol.chunk rootCluster) j.val = e)
include h hs hc he

omit h in
/-- The handle of a card is open. -/
theorem card_open : (File.fresh.opened vol e).cluster ≠ 0 := by
  show e.file ≠ 0
  rw [← he, (hs.filed j c hc).file]
  exact cellCluster_ne_zero c.cell

/-- **A card is taken away.** -/
theorem rm_shelved :
    wp (fat64Rm fsPartition (File.fresh.opened vol e))
      (fun _ d' => Saves fsPartition d d' ∧ ∃ vol', OnDisk (s.drop j) d' vol') E d := by
  have hopen := card_open hs hc he
  have hfiled := hs.filed j c hc
  rw [he] at hfiled
  have hnum := hfiled.num_toNat
  have hlt : e.dirEntryNum.toNat < 8 := hnum.trans_lt j.isLt
  have hparent : fsPartition.Data e.parent := hfiled.parent ▸ rootCluster_data
  have hfile : fsPartition.Data e.file := hfiled.file ▸ cellCluster_data c.cell
  have hnext : link (vol.tag e.file).next = none := by
    rw [hfiled.file, hs.taken _ (Shelf.taken_of_slot hc)]
    exact link_eof
  have hspec := fat64Rm_spec (f := File.fresh.opened vol e) (l := []) (E := E) mkfsPartition_wf h
    hopen hparent hlt hfile hnext (fun x hx => absurd hx List.not_mem_nil) List.not_mem_nil
  have hsaves := fat64Rm_saves (f := File.fresh.opened vol e) mkfsPartition_wf h
    fun _ => ⟨hparent, hlt⟩
  refine wp_mono (wp_and hspec hsaves) ?_ fun _ he => he.1
  rintro r d' ⟨⟨-, -, h'⟩, hsaved⟩
  refine ⟨hsaved, _, h', ?_⟩
  refine hs.drop hc (e := { e with flags := 0 }) (Entry.not_valid rfl) ?_ ?_ ?_ ?_
  · intro x hx
    have hnot : x ∉ [e.file] := by
      rw [List.mem_singleton, hfiled.file]
      exact cellCluster_ne_of_le hx c.cell
    exact if_neg hnot
  · intro m
    show (if cellCluster m ∈ [e.file] then freeTags else vol.tag (cellCluster m)) = _
    simp only [List.mem_singleton, hfiled.file, cellCluster_inj]
  · intro i
    rw [Volume.free_chunk, Volume.putEntry_chunk]
    show slot (if rootCluster = e.parent then _ else _) i.val = _
    rw [if_pos hfiled.parent.symm, slot_putSlot _ i.isLt]
    show (if i.val = e.dirEntryNum.toNat then _ else slot (vol.chunk e.parent) i.val) = _
    rw [hnum, show vol.chunk e.parent = vol.chunk rootCluster by rw [hfiled.parent]]
    simp only [Fin.ext_iff]
    rfl
  · intro m
    rw [Volume.free_chunk, Volume.putEntry_chunk]
    have hne : cellCluster m ≠ e.parent := hfiled.parent ▸ cellCluster_ne_root m
    exact if_neg hne

/-- **A text is typed in**, so far into the buffer of the handle. -/
theorem write_shelved {data : List UInt8} (hlen : data.length = 128) :
    wp (fat64Write fsPartition (File.fresh.opened vol e) data)
      (fun r d' => Saves fsPartition d d' ∧ ∃ vol', Shows fsPartition d' vol' ∧
        Filling vol e data 128 r.2 vol') E d := by
  have hopen := card_open hs hc he
  have hfiled := hs.filed j c hc
  rw [he] at hfiled
  have hnum := hfiled.num_toNat
  have hslot : slot (vol.chunk e.parent) e.dirEntryNum.toNat = e := by
    rw [hnum, hfiled.parent, he]
  have hsize : clusterSize = 4096 := rfl
  have hturns : data.length < turns := by
    rw [hlen]
    decide
  refine wp_mono (writeLoop_short mkfsPartition_wf hopen (hfiled.parent ▸ rootCluster_data)
    (hnum.trans_lt j.isLt) (by omega) turns 0 (Nat.zero_le _) hturns h (.start hslot)) ?_
    fun _ he => he
  rintro r d' ⟨-, hsaves, hpost⟩
  rw [hlen] at hpost
  exact ⟨hsaves, hpost⟩

omit h in
/-- **The text is in the cell** when the handle has been flushed. -/
theorem flush_shelved {data : List UInt8} {d' : Disk} (h' : Shows fsPartition d' vol')
    (hf : Filling vol e data 128 f vol') :
    wp (fat64Flush fsPartition f) (fun _ d'' => Saves fsPartition d' d'' ∧
      ∃ vol'', OnDisk (s.fill c.cell fun k => data.getD k.val 0) d'' vol'') E d' := by
  have hfiled := hs.filed j c hc
  rw [he] at hfiled
  have hnum := hfiled.num_toNat
  have hcluster : f.cluster = cellCluster c.cell := hf.cluster.trans hfiled.file
  refine wp_mono (saveCluster_spec mkfsPartition_wf h' (hcluster ▸ cellCluster_data c.cell)) ?_
    fun _ he => he
  rintro g d'' ⟨-, h'', hsaves⟩
  refine ⟨hsaves, _, h'', ?_⟩
  have hdirty : f.dirty = true := hf.dirty (by decide)
  have hchunk : ∀ x, (vol'.save f).chunk x =
      if x = cellCluster c.cell then f.buf else vol'.chunk x := by
    intro x
    rw [Volume.save_chunk, hdirty, hcluster]
    simp only [true_and]
  have hentry : Filed f.entry j c := by
    have hsize := hf.size
    rw [hf.entry]
    exact ⟨hfiled.name, hfiled.file, hfiled.parent, hfiled.flags, hfiled.num, by
      rw [hsize]
      exact max_le hfiled.size le_rfl⟩
  refine hs.fill hc hentry ?_ ?_ ?_ ?_
  · intro x
    rw [Volume.save_tag, hf.tag]
  · intro i
    have hslots := hf.slots i.val i.isLt
    rw [hfiled.parent, hnum] at hslots
    rw [hchunk, if_neg (cellCluster_ne_root c.cell).symm, hslots]
    simp only [Fin.ext_iff]
  · funext k
    rw [hchunk, if_pos rfl, clusterText, hf.buf]
    exact if_pos k.isLt
  · intro m hm
    have hne : cellCluster m ≠ e.parent := hfiled.parent ▸ cellCluster_ne_root m
    rw [hchunk, if_neg (mt cellCluster_inj.mp hm)]
    exact hf.chunk _ hne

/-- **A text is shown.** -/
theorem read_shelved :
    wp (fat64Read fsPartition (File.fresh.opened vol e) 128)
      (fun r d' => Saves fsPartition d d' ∧ d' = d ∧
        r.2.2 = (List.finRange 128).map (s.text c.cell)) E d := by
  have hopen := card_open hs hc he
  have hfiled := hs.filed j c hc
  rw [he] at hfiled
  refine wp_mono (readLoop_short (f := File.fresh.opened vol e) (by decide) turns 0 (Nat.zero_le _)
    (by decide) hopen rfl) ?_ fun _ he => he
  rintro r d' ⟨-, hdata, rfl⟩
  refine ⟨.of_eq rfl, rfl, hdata.trans ?_⟩
  rw [← List.map_coe_finRange_eq_range, List.map_map]
  refine List.map_congr_left fun k _ => ?_
  have hlt : k.val < 4096 := Nat.lt_of_lt_of_le k.isLt text_fits
  rw [← hs.text c.cell, ← hfiled.file]
  show (File.fresh.opened vol e).byteAt k.val = _
  rw [File.byteAt, dif_pos hlt]
  rfl

end Cards

end Cumulonimbus.Shell
