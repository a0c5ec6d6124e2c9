import Cumulonimbus.Fat64Handles

/-!
# The chains of a file system

While every file has at most one open handle, the tags in the handle are those on the disk.  Then
the clusters of a file form a single chain, linked in both directions, and the entry of a file or
directory is where the census says.  So the census has every cluster that is in use
(`Exact.covered`), each once.
-/

namespace Cumulonimbus.Fat64

open Exec Linked

attribute [local irreducible] wp

/-- The entry in a slot of a directory. -/
def Volume.entryAt (vol : Volume) (p : UInt64 × Nat) : Entry := slot (vol.chunk p.1) p.2

/-- A cluster that an entry names: a directory other than the root, or the first of a file. -/
def Census.Head (v : Partition) (S : Census) (c : UInt64) : Prop :=
  (c ∈ S.dirs ∧ c ≠ UInt64.ofNat v.rootDir) ∨ (c ∈ S.files ∧ S.own c = c)

/-- The entry of `c` is in its place. -/
structure Volume.Names (vol : Volume) (S : Census) (c : UInt64) : Prop where
  dir : (S.home c).1 ∈ S.dirs
  num : (S.home c).2 < 8
  valid : (vol.entryAt (S.home c)).Valid
  file : (vol.entryAt (S.home c)).file = c
  kind : (vol.entryAt (S.home c)).IsDirectory ↔ c ∈ S.dirs

/-- The clusters in use are those of the census, and the files of the census are chains. -/
structure Exact (v : Partition) (vol : Volume) (S : Census) : Prop extends Sane v vol S where
  chain : ∀ c, c ∈ S.files → S.own c ∈ S.files ∧ S.own (S.own c) = S.own c ∧
    ∃ l, Path vol.next (some (S.own c)) l none ∧ c ∈ l
  back : ∀ c, c ∈ S.files → ∀ x, vol.next c = some x → (vol.tag x).prev = c
  first : ∀ c, S.Head v c → (vol.tag c).prev = clusterTagEof
  named : ∀ c, S.Head v c → vol.Names S c
  rootHome : 8 ≤ (S.home (UInt64.ofNat v.rootDir)).2
  ranked : ∃ rank : UInt64 → Nat, ∀ c, c ∈ S.dirs → c ≠ UInt64.ofNat v.rootDir →
    rank (S.home c).1 < rank c
  covered : ∀ c, v.Data c → vol.tag c ≠ freeTags → c ∈ S.dirs ∨ c ∈ S.files

/-- What happens to one file leaves the tags of the others alone. -/
structure Evolves (head : UInt64) (vol : Volume) (S : Census) (vol' : Volume) (S' : Census) :
    Prop where
  sub : S.Sub S'
  others : ∀ x, x ∈ S.files → S.own x ≠ head → vol'.tag x = vol.tag x

variable {v : Partition} {d : Disk} {vol vol' vol'' : Volume} {S S' S'' : Census} {f g : File}
  {e : Entry} {c x head : UInt64} {l : List UInt64} {name : FileName} {E : Spin → Prop}

/-- Nothing happens. -/
theorem Evolves.refl : Evolves head vol S vol S := ⟨.refl, fun _ _ _ => rfl⟩

/-- One thing after another happens to the file. -/
theorem Evolves.trans (h : Evolves head vol S vol' S') (h' : Evolves head vol' S' vol'' S'') :
    Evolves head vol S vol'' S'' := by
  refine ⟨h.sub.trans h'.sub, fun x hx hown => ?_⟩
  have hown' : S'.own x ≠ head := by
    rw [h.sub.own x hx]
    exact hown
  exact (h'.others x (h.sub.files hx) hown').trans (h.others x hx hown)

/-! ## Places -/

/-- An entry that is stored is in its place; the others stay in theirs. -/
theorem Volume.putEntry_entryAt (vol : Volume) (e : Entry) {p : UInt64 × Nat} (hp : p.2 < 8) :
    (vol.putEntry e).entryAt p =
      if p = (e.parent, e.dirEntryNum.toNat) then e else vol.entryAt p := by
  obtain ⟨c, i⟩ := p
  rw [Volume.entryAt, Volume.entryAt, Volume.putEntry, Volume.setChunk_chunk]
  dsimp only
  by_cases hc : c = e.parent
  · rw [if_pos hc, slot_putSlot _ hp, hc]
    by_cases hi : i = e.dirEntryNum.toNat
    · rw [if_pos hi, hi, if_pos rfl]
    · rw [if_neg hi, if_neg fun h => hi (congrArg Prod.snd h)]
  · rw [if_neg hc, if_neg fun h => hc (congrArg Prod.fst h)]

/-- The entry of a cluster stays where it is. -/
theorem Volume.Names.stay (h : vol.Names S c) (hhome : S'.home c = S.home c)
    (hdir : (S.home c).1 ∈ S'.dirs) (hkind : c ∈ S'.dirs ↔ c ∈ S.dirs)
    (hsame : vol'.entryAt (S.home c) = vol.entryAt (S.home c)) : vol'.Names S' c := by
  constructor <;> rw [hhome]
  case dir => exact hdir
  case num => exact h.num
  case valid => rw [hsame]; exact h.valid
  case file => rw [hsame]; exact h.file
  case kind => rw [hsame, hkind]; exact h.kind

namespace Exact

/-- Two clusters with one place are one cluster. -/
theorem home_inj (exact : Exact v vol S) (hc : S.Head v c) (hx : S.Head v x)
    (h : S.home c = S.home x) : c = x := by
  rw [← (exact.named c hc).file, ← (exact.named x hx).file, h]

/-- The cluster of an entry that is in its place. -/
theorem head_of_known (exact : Exact v vol S) (he : e.Known S) : S.Head v e.file := by
  by_cases hdir : e.IsDirectory
  · refine Or.inl ⟨he.dir hdir, fun hroot => ?_⟩
    have hhome := exact.rootHome
    rw [← hroot, he.home] at hhome
    have hnum := he.num
    dsimp only at hhome
    omega
  · exact Or.inr ⟨he.file hdir, he.own hdir⟩

/-- The root directory has no entry. -/
theorem head_ne_root (exact : Exact v vol S) (hc : S.Head v c) :
    c ≠ UInt64.ofNat v.rootDir := by
  rcases hc with hc | hc
  · exact hc.2
  · exact fun heq => exact.apart _ hc.1 (heq ▸ exact.root)

/-- A file is in a directory, which is no file. -/
theorem home_ne (exact : Exact v vol S) (hc : S.Head v c) (hx : x ∈ S.files) :
    (S.home c).1 ≠ x := fun heq => exact.apart x hx (heq ▸ (exact.named c hc).dir)

/-- Where the tags stay and the entries stay in their places. -/
theorem congr (exact : Exact v vol S) (sane : Sane v vol' S) (htag : vol'.tag = vol.tag)
    (hnamed : ∀ c, S.Head v c → vol'.Names S c) : Exact v vol' S := by
  have hnext : vol'.next = vol.next := funext fun c => Volume.next_congr (congrFun htag c)
  constructor
  case toSane => exact sane
  case chain =>
    rw [hnext]
    exact exact.chain
  case back =>
    rw [hnext, htag]
    exact exact.back
  case first =>
    rw [htag]
    exact exact.first
  case named => exact hnamed
  case rootHome => exact exact.rootHome
  case ranked => exact exact.ranked
  case covered =>
    rw [htag]
    exact exact.covered

/-- Saving the buffer of a handle on a file. -/
theorem save (exact : Exact v vol S) (hf : f.cluster ∈ S.files) : Exact v (vol.save f) S := by
  refine exact.congr (exact.toSane.save hf) (Volume.save_tag vol f) fun c hc => ?_
  have named := exact.named c hc
  refine named.stay rfl named.dir Iff.rfl ?_
  rw [Volume.entryAt, Volume.save_chunk, if_neg fun h => exact.home_ne hc hf h.2]
  rfl

/-- The entry of a file is written again. -/
theorem putEntry (exact : Exact v vol S) (he : e.Known S) (hvalid : e.Valid)
    (hplain : ¬ e.IsDirectory) : Exact v (vol.putEntry e) S := by
  refine exact.congr (exact.toSane.putEntry he hvalid) rfl fun c hc => ?_
  have named := exact.named c hc
  have hplace := vol.putEntry_entryAt e named.num
  by_cases hhome : S.home c = (e.parent, e.dirEntryNum.toNat)
  · have hfile : c = e.file :=
      exact.home_inj hc (exact.head_of_known he) (hhome.trans he.home.symm)
    rw [if_pos hhome] at hplace
    refine ⟨named.dir, named.num, ?_, ?_, ?_⟩ <;> rw [hplace]
    · exact hvalid
    · exact hfile.symm
    · rw [hfile]
      exact iff_of_false hplain (exact.apart _ (he.file hplain))
  · rw [if_neg hhome] at hplace
    exact named.stay rfl named.dir Iff.rfl hplace

end Exact

/-! ## Growing -/

/-- What is in front of a cluster stays; only the new one is different. -/
theorem Volume.extend_prev (htags : f.currentTags = vol.tag f.cluster) (hxc : x ≠ c) :
    ((vol.extend f c).tag x).prev = (vol.tag x).prev := by
  by_cases hxf : x = f.cluster
  · rw [hxf, Volume.extend_tag, if_pos rfl, htags]
  · rw [vol.extend_tag_of_ne hxf hxc]

/-- The larger census has no new entry. -/
theorem Census.grow_head (h : HoldsFile S f) (hnew : c ∉ S.files)
    (hx : (S.grow c f.entry.file).Head v x) : S.Head v x := by
  rcases hx with hx | ⟨hx, hxown⟩
  · exact Or.inl hx
  have hxc : x ≠ c := by
    rintro rfl
    have hown : (S.grow x f.entry.file).own x = f.entry.file := Function.update_self ..
    exact hnew ((hown.symm.trans hxown) ▸ h.head)
  have hxold : x ∈ S.files := hx.resolve_left hxc
  exact Or.inr ⟨hxold, ((S.grow_sub hnew).own x hxold).symm.trans hxown⟩

namespace Exact

section Growing

variable (wf : v.Wf) (exact : Exact v vol S) (h : HoldsFile S f) (hc : v.Data c)
  (hfree : vol.tag c = freeTags)

include exact h hfree

/-- The new cluster is not the old last one, which is in use. -/
theorem grown_ne : c ≠ f.cluster := fun heq => exact.not_file hfree (heq ▸ h.cluster)

/-- The clusters of the other files keep their tags. -/
theorem grown_others (hx : x ∈ S.files) (hown : S.own x ≠ f.entry.file) :
    (vol.extend f c).tag x = vol.tag x := by
  refine vol.extend_tag_of_ne (fun heq => hown ?_) fun heq => exact.not_file hfree (heq ▸ hx)
  rw [heq, h.own]

include wf hc

/-- The chain of the file, with the new cluster behind it. -/
theorem grown_path (hend : vol.next f.cluster = none) :
    ∃ l, Path (vol.extend f c).next (some f.entry.file) (l ++ [c]) none ∧
      ∀ x, x ∈ S.files → S.own x = f.entry.file → x ∈ l := by
  obtain ⟨-, -, l, hl, hmem⟩ := exact.chain f.cluster h.cluster
  rw [h.own] at hl
  refine ⟨l, hl.extend hmem hend (vol.extend_next_old wf f hc)
    (vol.extend_next_new (exact.grown_ne h hfree)) fun x hx hxf => ?_, fun x hx hxown => ?_⟩
  · have hxfile := (exact.path_own h.head hl x hx).1
    exact Volume.next_congr (vol.extend_tag_of_ne hxf fun heq =>
      exact.not_file hfree (heq ▸ hxfile))
  · obtain ⟨-, -, m, hm, hxm⟩ := exact.chain x hx
    rw [hxown] at hm
    rwa [hl.unique hm]

/-- Every file is a chain still. -/
theorem grown_chain (hend : vol.next f.cluster = none)
    (hx : x ∈ (S.grow c f.entry.file).files) :
    (S.grow c f.entry.file).own x ∈ (S.grow c f.entry.file).files ∧
      (S.grow c f.entry.file).own ((S.grow c f.entry.file).own x) =
        (S.grow c f.entry.file).own x ∧
      ∃ l, Path (vol.extend f c).next (some ((S.grow c f.entry.file).own x)) l none ∧ x ∈ l := by
  have hnew := exact.not_file hfree
  have sub : S.Sub (S.grow c f.entry.file) := S.grow_sub hnew
  obtain ⟨l, hl, hall⟩ := exact.grown_path wf h hc hfree hend
  by_cases hxc : x = c
  · have hown : (S.grow c f.entry.file).own c = f.entry.file := Function.update_self ..
    rw [hxc, hown, sub.own _ h.head]
    exact ⟨Or.inr h.head, h.known.own h.plain, _, hl, List.mem_append_right l (by simp)⟩
  have hxold : x ∈ S.files := hx.resolve_left hxc
  obtain ⟨hmem, hidem, m, hm, hxm⟩ := exact.chain x hxold
  rw [sub.own x hxold, sub.own _ hmem]
  refine ⟨Or.inr hmem, hidem, ?_⟩
  by_cases hxown : S.own x = f.entry.file
  · rw [hxown]
    exact ⟨_, hl, List.mem_append_left [c] (hall x hxold hxown)⟩
  · refine ⟨m, hm.congr fun y hy => Volume.next_congr ?_, hxm⟩
    obtain ⟨hyfile, hyown⟩ := exact.path_own hmem hm y hy
    exact exact.grown_others h hfree hyfile fun heq => hxown (hidem ▸ hyown ▸ heq)

/-- The links lead back still. -/
theorem grown_back (htags : f.currentTags = vol.tag f.cluster)
    (hx : x ∈ (S.grow c f.entry.file).files) (y : UInt64)
    (hy : (vol.extend f c).next x = some y) : ((vol.extend f c).tag y).prev = x := by
  have hnew := exact.not_file hfree
  have hne := exact.grown_ne h hfree
  by_cases hxc : x = c
  · rw [hxc, vol.extend_next_new hne] at hy
    cases hy
  have hxold : x ∈ S.files := hx.resolve_left hxc
  by_cases hxf : x = f.cluster
  · rw [hxf, vol.extend_next_old wf f hc] at hy
    cases hy
    rw [Volume.extend_tag, if_neg hne, if_pos rfl, hxf]
  · rw [Volume.next_congr (vol.extend_tag_of_ne hxf hxc)] at hy
    have hyfile := exact.next_mem hxold hy
    have hyc : y ≠ c := fun heq => hnew (heq ▸ hyfile)
    rw [Volume.extend_prev htags hyc]
    exact exact.back x hxold y hy

/-- **A file grows** by a cluster that was free, at its end. -/
theorem extend (htags : f.currentTags = vol.tag f.cluster)
    (hlast : f.currentTags.next = clusterTagEof) :
    Exact v (vol.extend f c) (S.grow c f.entry.file) ∧
      Evolves f.entry.file vol S (vol.extend f c) (S.grow c f.entry.file) := by
  obtain ⟨sane', sub, -⟩ := h.extend wf exact.toSane hc hfree
  have hnew := exact.not_file hfree
  have hend : vol.next f.cluster = none := by
    rw [Volume.next, ← htags, hlast]
    exact link_eof
  refine ⟨?_, sub, fun x hx hxown => exact.grown_others h hfree hx hxown⟩
  constructor
  case toSane => exact sane'
  case chain => exact fun x hx => exact.grown_chain wf h hc hfree hend hx
  case back => exact fun x hx => exact.grown_back wf h hc hfree htags hx
  case first =>
    intro x hx
    have hxold := Census.grow_head h hnew hx
    rw [Volume.extend_prev htags]
    · exact exact.first x hxold
    · rintro rfl
      rcases hxold with hxold | hxold
      · exact exact.not_dir hfree hxold.1
      · exact hnew hxold.1
  case named =>
    intro x hx
    have named := exact.named x (Census.grow_head h hnew hx)
    have hxf : (S.home x).1 ≠ f.cluster := fun heq =>
      exact.apart _ h.cluster (heq ▸ named.dir)
    refine named.stay rfl named.dir Iff.rfl ?_
    rw [Volume.entryAt, vol.extend_chunk_of_ne hxf]
    rfl
  case rootHome => exact exact.rootHome
  case ranked => exact exact.ranked
  case covered =>
    intro x hx hused
    by_cases hxc : x = c
    · exact Or.inr (Or.inl hxc)
    by_cases hxf : x = f.cluster
    · exact Or.inr (Or.inr (hxf ▸ h.cluster))
    rw [vol.extend_tag_of_ne hxf hxc] at hused
    exact (exact.covered x hx hused).imp_right Or.inr

end Growing

end Exact

/-! ## Creating -/

/-- The entry `e` goes into an empty slot, and its cluster, which was free, into the census. -/
structure Creates (v : Partition) (vol : Volume) (S : Census) (e : Entry) (vol' : Volume)
    (S' : Census) : Prop where
  sane : Sane v vol' S'
  sub : S.Sub S'
  free : vol.tag e.file = freeTags
  new : e.file ∈ S'.dirs ∨ e.file ∈ S'.files
  dirs : ∀ x, x ∈ S'.dirs → x ∈ S.dirs ∨ x = e.file
  files : ∀ x, x ∈ S'.files → x ∈ S.files ∨ (x = e.file ∧ S'.own x = x)
  tag : vol'.tag e.file = ⟨clusterTagEof, clusterTagEof⟩
  others : ∀ x, x ≠ e.file → vol'.tag x = vol.tag x
  home : S'.home e.file = (e.parent, e.dirEntryNum.toNat)
  parent : e.parent ∈ S.dirs
  num : e.dirEntryNum.toNat < 8
  empty : ¬ (vol.entryAt (e.parent, e.dirEntryNum.toNat)).Valid
  entries : ∀ p : UInt64 × Nat, p.1 ∈ S.dirs → p.2 < 8 → vol'.entryAt p =
    if p = (e.parent, e.dirEntryNum.toNat) then e else vol.entryAt p
  valid : e.Valid
  kind : e.IsDirectory ↔ e.file ∈ S'.dirs

namespace Creates

/-- The new cluster was free, so it is none of the old ones. -/
theorem old_ne (creates : Creates v vol S e vol' S') (exact : Exact v vol S)
    (hx : x ∈ S.dirs ∨ x ∈ S.files) : x ≠ e.file :=
  fun heq => exact.used x hx (heq ▸ creates.free)

/-- What an entry names is old, or what has been created. -/
theorem oldHead (creates : Creates v vol S e vol' S') (hx : S'.Head v x) :
    S.Head v x ∨ x = e.file := by
  rcases hx with ⟨hx, hroot⟩ | ⟨hx, hxown⟩
  · exact (creates.dirs x hx).imp_left fun hx => Or.inl ⟨hx, hroot⟩
  · rcases creates.files x hx with hx | hx
    · exact Or.inl (Or.inr ⟨hx, (creates.sub.own x hx).symm.trans hxown⟩)
    · exact Or.inr hx.1

/-- Every entry is in its place. -/
theorem names (creates : Creates v vol S e vol' S') (exact : Exact v vol S) (hx : S'.Head v x) :
    vol'.Names S' x := by
  rcases creates.oldHead hx with hx | rfl
  · have named := exact.named x hx
    have hmem : x ∈ S.dirs ∨ x ∈ S.files := hx.imp (fun h => h.1) fun h => h.1
    have hplace : S.home x ≠ (e.parent, e.dirEntryNum.toNat) := by
      intro heq
      have hvalid := named.valid
      rw [heq] at hvalid
      exact creates.empty hvalid
    refine named.stay (creates.sub.home x hmem) (creates.sub.dirs named.dir)
      ⟨fun h => ?_, fun h => ?_⟩ ?_
    · exact (creates.dirs x h).resolve_right (creates.old_ne exact hmem)
    · exact creates.sub.dirs h
    · rw [creates.entries _ named.dir named.num, if_neg hplace]
  · have hentry := creates.entries (e.parent, e.dirEntryNum.toNat) creates.parent creates.num
    rw [if_pos rfl] at hentry
    constructor <;> rw [creates.home]
    case dir => exact creates.sub.dirs creates.parent
    case num => exact creates.num
    case valid => rw [hentry]; exact creates.valid
    case file => rw [hentry]
    case kind => rw [hentry]; exact creates.kind

/-- **A file or directory is created.** -/
theorem exact (creates : Creates v vol S e vol' S') (exact : Exact v vol S) (head : UInt64) :
    Exact v vol' S' ∧ Evolves head vol S vol' S' := by
  have hold : ∀ x, x ∈ S.files → vol'.tag x = vol.tag x := fun x hx =>
    creates.others x (creates.old_ne exact (Or.inr hx))
  have hlast : vol'.next e.file = none := by
    rw [Volume.next, creates.tag]
    exact link_eof
  refine ⟨?_, creates.sub, fun x hx _ => hold x hx⟩
  constructor
  case toSane => exact creates.sane
  case chain =>
    intro x hx
    rcases creates.files x hx with hxold | ⟨rfl, hxown⟩
    · obtain ⟨hmem, hidem, l, hl, hxl⟩ := exact.chain x hxold
      rw [creates.sub.own x hxold, creates.sub.own _ hmem]
      refine ⟨creates.sub.files hmem, hidem, l, hl.congr fun y hy => Volume.next_congr ?_, hxl⟩
      exact hold y (exact.path_own hmem hl y hy).1
    · rw [hxown]
      exact ⟨hx, hxown, [e.file], ⟨rfl, hlast⟩, List.mem_singleton_self _⟩
  case back =>
    intro x hx y hy
    rcases creates.files x hx with hxold | ⟨rfl, -⟩
    · rw [Volume.next_congr (hold x hxold)] at hy
      rw [hold y (exact.next_mem hxold hy)]
      exact exact.back x hxold y hy
    · rw [hlast] at hy
      cases hy
  case first =>
    intro x hx
    rcases creates.oldHead hx with hxold | rfl
    · rw [creates.others x (creates.old_ne exact (hxold.imp (fun h => h.1) fun h => h.1))]
      exact exact.first x hxold
    · rw [creates.tag]
  case named => exact fun x hx => creates.names exact hx
  case rootHome =>
    rw [creates.sub.home _ (Or.inl exact.root)]
    exact exact.rootHome
  case ranked =>
    obtain ⟨rank, hrank⟩ := exact.ranked
    refine ⟨Function.update rank e.file (rank e.parent + 1), fun x hx hroot => ?_⟩
    have hstay : ∀ y, y ∈ S.dirs → Function.update rank e.file (rank e.parent + 1) y = rank y :=
      fun y hy => Function.update_of_ne (creates.old_ne exact (Or.inl hy)) _ _
    rcases creates.dirs x hx with hxold | rfl
    · rw [creates.sub.home x (Or.inl hxold), hstay x hxold,
        hstay _ (exact.named x (Or.inl ⟨hxold, hroot⟩)).dir]
      exact hrank x hxold hroot
    · rw [creates.home, hstay _ creates.parent, Function.update_self]
      exact Nat.lt_succ_self _
  case covered =>
    intro x hx hused
    by_cases hxe : x = e.file
    · rw [hxe]
      exact creates.new
    · rw [creates.others x hxe] at hused
      exact (exact.covered x hx hused).imp (@creates.sub.dirs x) (@creates.sub.files x)

end Creates

/-- A file is created in a slot that is empty on the disk. -/
theorem Exact.touch (exact : Exact v vol S) (hparent : f.entry.file ∈ S.dirs)
    (hnum : (getFreeDirEntry f.buf).toNat < 8)
    (hempty : ¬ (slot (vol.chunk f.entry.file) (getFreeDirEntry f.buf).toNat).Valid)
    (hc : v.Data c) (hfree : vol.tag c = freeTags) (name : FileName) :
    Creates v vol S (newFile f name c (getFreeDirEntry f.buf) 0 validFlag).entry
      (vol.touch f name c) (S.addFile c (f.entry.file, (getFreeDirEntry f.buf).toNat)) := by
  obtain ⟨sane', sub⟩ := exact.toSane.touch hparent hnum hc hfree name
  have htag : ∀ x, (vol.touch f name c).tag x =
      if x = c then ⟨clusterTagEof, clusterTagEof⟩ else vol.tag x :=
    fun _ => Volume.setTag_tag ..
  constructor
  case sane => exact sane'
  case sub => exact sub
  case free => exact hfree
  case new => exact Or.inr (Or.inl rfl)
  case dirs => exact fun x hx => Or.inl hx
  case files =>
    intro x hx
    rcases hx with rfl | hx
    · exact Or.inr ⟨rfl, Function.update_self ..⟩
    · exact Or.inl hx
  case tag => exact (htag c).trans (if_pos rfl)
  case others => exact fun x hx => (htag x).trans (if_neg hx)
  case home => exact Function.update_self c _ S.home
  case parent => exact hparent
  case num => exact hnum
  case empty => exact hempty
  case entries => exact fun p _ hp => Volume.putEntry_entryAt _ _ hp
  case valid => exact show validFlag &&& validFlag ≠ 0 by decide
  case kind =>
    refine iff_of_false (show ¬ (validFlag &&& directoryFlag ≠ 0) by decide) ?_
    exact exact.not_dir hfree

/-- A directory is created in a slot that is empty on the disk. -/
theorem Exact.mkdir (exact : Exact v vol S) (hparent : f.entry.file ∈ S.dirs)
    (hnum : (getFreeDirEntry f.buf).toNat < 8)
    (hempty : ¬ (slot (vol.chunk f.entry.file) (getFreeDirEntry f.buf).toNat).Valid)
    (hc : v.Data c) (hfree : vol.tag c = freeTags) (name : FileName) :
    Creates v vol S (newFile f name c (getFreeDirEntry f.buf) (UInt64.ofNat clusterSize)
      (validFlag ||| directoryFlag)).entry
      (vol.mkdir f name c) (S.addDir c (f.entry.file, (getFreeDirEntry f.buf).toNat)) := by
  obtain ⟨sane', sub⟩ := exact.toSane.mkdir hparent hnum hc hfree name
  have htag : ∀ x, (vol.mkdir f name c).tag x =
      if x = c then ⟨clusterTagEof, clusterTagEof⟩ else vol.tag x :=
    fun _ => Volume.setTag_tag ..
  constructor
  case sane => exact sane'
  case sub => exact sub
  case free => exact hfree
  case new => exact Or.inl (Or.inl rfl)
  case dirs => exact fun x hx => hx.symm
  case files => exact fun x hx => Or.inl hx
  case tag => exact (htag c).trans (if_pos rfl)
  case others => exact fun x hx => (htag x).trans (if_neg hx)
  case home => exact Function.update_self c _ S.home
  case parent => exact hparent
  case num => exact hnum
  case empty => exact hempty
  case entries =>
    intro p hp hnum
    have hne : p.1 ≠ c := fun heq => exact.not_dir hfree (heq ▸ hp)
    rw [Volume.mkdir, Volume.entryAt, Volume.setChunk_chunk, if_neg hne]
    exact Volume.putEntry_entryAt _ _ hnum
  case valid => exact show (validFlag ||| directoryFlag) &&& validFlag ≠ 0 by decide
  case kind =>
    refine iff_of_true ?_ (Or.inl rfl)
    exact show (validFlag ||| directoryFlag) &&& directoryFlag ≠ 0 by decide

/-! ## Removing -/

/-- **A file or directory goes**, with the clusters `l`. -/
theorem Exact.remove (exact : Exact v vol S) (he : S.Head v e.file)
    (hhome : S.home e.file = (e.parent, e.dirEntryNum.toNat))
    (hempty : ∀ x, S.Head v x → (S.home x).1 ≠ e.file) (hdata : ∀ x ∈ l, v.Data x)
    (hfiles : ∀ x, x ∈ S.files → (x ∈ l ↔ S.own x = e.file))
    (hdirs : ∀ x, x ∈ S.dirs → (x ∈ l ↔ x = e.file)) :
    Exact v ((vol.putEntry { e with flags := 0 }).free l) (S.remove e.file) := by
  have htag : ∀ x, x ∉ l → ((vol.putEntry { e with flags := 0 }).free l).tag x = vol.tag x :=
    fun x hx => if_neg hx
  have htagFile : ∀ x, x ∈ S.files → S.own x ≠ e.file →
      ((vol.putEntry { e with flags := 0 }).free l).tag x = vol.tag x :=
    fun x hx hown => htag x fun hl => hown ((hfiles x hx).mp hl)
  have hhead : ∀ x, (S.remove e.file).Head v x → S.Head v x ∧ x ≠ e.file := by
    intro x hx
    rcases hx with ⟨⟨hx, hne⟩, hxroot⟩ | ⟨⟨hx, hne⟩, hown⟩
    · exact ⟨Or.inl ⟨hx, hxroot⟩, hne⟩
    · exact ⟨Or.inr ⟨hx, hown⟩, fun heq => hne (hown.trans heq)⟩
  constructor
  case toSane =>
    exact exact.toSane.remove (exact.head_ne_root he) hhome hdata
      (fun x hl hx => (hfiles x hx).mp hl)
      fun x hl hx => (hdirs x hx).mp hl
  case chain =>
    intro x hx
    obtain ⟨hmem, hidem, m, hm, hxm⟩ := exact.chain x hx.1
    refine ⟨⟨hmem, fun heq => hx.2 (hidem.symm.trans heq)⟩, hidem, m, ?_, hxm⟩
    refine hm.congr fun y hy => Volume.next_congr ?_
    obtain ⟨hyfile, hyown⟩ := exact.path_own hmem hm y hy
    exact htagFile y hyfile fun heq => hx.2 (hidem.symm.trans (hyown.symm.trans heq))
  case back =>
    intro x hx y hy
    rw [Volume.next_congr (htagFile x hx.1 hx.2)] at hy
    have hyown := (exact.owned x hx.1 y hy).1
    rw [htagFile y (exact.next_mem hx.1 hy) (by rw [hyown]; exact hx.2)]
    exact exact.back x hx.1 y hy
  case first =>
    intro x hx
    obtain ⟨hxhead, hne⟩ := hhead x hx
    rw [htag x]
    · exact exact.first x hxhead
    · intro hl
      rcases hx with hx | hx
      · exact hx.1.2 ((hdirs x hx.1.1).mp hl)
      · exact hx.1.2 ((hfiles x hx.1.1).mp hl)
  case named =>
    intro x hx
    obtain ⟨hxhead, hne⟩ := hhead x hx
    have named := exact.named x hxhead
    have hplace : S.home x ≠ (e.parent, e.dirEntryNum.toNat) := fun heq =>
      hne (exact.home_inj hxhead he (heq.trans hhome.symm))
    refine named.stay rfl ⟨named.dir, hempty x hxhead⟩ ⟨fun h => h.1, fun h => ⟨h, hne⟩⟩ ?_
    exact (vol.putEntry_entryAt { e with flags := 0 } named.num).trans (if_neg hplace)
  case rootHome => exact exact.rootHome
  case ranked =>
    obtain ⟨rank, hrank⟩ := exact.ranked
    exact ⟨rank, fun x hx => hrank x hx.1⟩
  case covered =>
    intro x hx hused
    have hl : x ∉ l := fun hl => hused (if_pos hl)
    rw [htag x hl] at hused
    rcases exact.covered x hx hused with hmem | hmem
    · exact Or.inl ⟨hmem, fun heq => hl ((hdirs x hmem).mpr heq)⟩
    · exact Or.inr ⟨hmem, fun heq => hl ((hfiles x hmem).mpr heq)⟩

/-! ## The new file system -/

/-- **A new file system** has no entry. -/
theorem Exact.of_formatted (wf : v.Wf) (h : Formatted v vol) : Exact v vol (rootCensus v) := by
  have hroot := wf.root
  have hsectors := wf.sectors
  have hnum : (UInt64.ofNat v.rootDir).toNat = v.rootDir :=
    UInt64.toNat_ofNat_of_lt' (show v.rootDir < 2 ^ 64 by omega)
  have hnone : ∀ c, ¬ (rootCensus v).Head v c := by
    intro c hc
    rcases hc with hc | hc
    · exact hc.2 hc.1
    · exact hc.1
  constructor
  case toSane => exact .of_formatted wf h
  case chain => exact fun c hc => hc.elim
  case back => exact fun c hc => hc.elim
  case first => exact fun c hc => absurd hc (hnone c)
  case named => exact fun c hc => absurd hc (hnone c)
  case rootHome => exact Nat.le_refl 8
  case ranked => exact ⟨fun _ => 0, fun c hc hne => absurd hc hne⟩
  case covered =>
    intro c hc hused
    refine Or.inl (UInt64.toNat_inj.mp ?_)
    rw [hnum]
    by_contra hne
    have hlow := hc.1
    exact hused (h.free c (by omega) hc.2)

end Cumulonimbus.Fat64
