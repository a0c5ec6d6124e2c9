import Cumulonimbus.Fat64Files
import Cumulonimbus.Fat64Safety

/-!
# Who owns a cluster

With several handles on one file the clusters of a file need not be a single chain: two handles
that both stand at its end append to the same cluster, and one of the new clusters is lost.  What
remains true is that every cluster belongs to one file, that the links of a cluster stay within
the file and end, and that no two entries name the same file.  So the clusters of a file that is
removed are not used by anything else.
-/

namespace Cumulonimbus.Fat64

open Exec Linked

attribute [local irreducible] wp

/-- The clusters of directories and files, the first cluster of the file that each belongs to,
and the directory and slot of the entry that names a file or directory. -/
structure Census extends Region where
  own : UInt64 → UInt64
  home : UInt64 → UInt64 × Nat

/-- An entry that is in its place. -/
structure Entry.Known (e : Entry) (S : Census) : Prop extends e.Named S.toRegion where
  home : S.home e.file = (e.parent, e.dirEntryNum.toNat)
  own : ¬ e.IsDirectory → S.own e.file = e.file

/-- What the disk has is what the census says. -/
structure Sane (v : Partition) (vol : Volume) (S : Census) : Prop
    extends Healthy v vol S.toRegion where
  owned : ∀ c, c ∈ S.files → ∀ x, vol.next c = some x → S.own x = S.own c ∧ x ≠ S.own c
  ends : ∀ c, c ∈ S.files → ∃ l, Path vol.next (some c) l none
  last : ∀ c, c ∈ S.dirs → (vol.tag c).next = clusterTagEof
  known : ∀ c, c ∈ S.dirs → ∀ i, i < 8 → (slot (vol.chunk c) i).Valid →
    (slot (vol.chunk c) i).Known S ∧ (slot (vol.chunk c) i).parent = c ∧
      (slot (vol.chunk c) i).dirEntryNum.toNat = i

/-- `S'` has what `S` has, in the same places. -/
structure Census.Sub (S S' : Census) : Prop where
  dirs : S.dirs ⊆ S'.dirs
  files : S.files ⊆ S'.files
  own : ∀ c, c ∈ S.files → S'.own c = S.own c
  home : ∀ c, c ∈ S.dirs ∨ c ∈ S.files → S'.home c = S.home c

/-- A cluster is added to the file `head`. -/
def Census.grow (S : Census) (c head : UInt64) : Census :=
  { S with files := insert c S.files, own := Function.update S.own c head }

/-- A file is added whose only cluster is `c`. -/
def Census.addFile (S : Census) (c : UInt64) (place : UInt64 × Nat) : Census :=
  { S.grow c c with home := Function.update S.home c place }

def Census.addDir (S : Census) (c : UInt64) (place : UInt64 × Nat) : Census :=
  { S with dirs := insert c S.dirs, home := Function.update S.home c place }

/-- A file or directory is removed. -/
def Census.remove (S : Census) (head : UInt64) : Census :=
  { S with dirs := {c | c ∈ S.dirs ∧ c ≠ head}, files := {c | c ∈ S.files ∧ S.own c ≠ head} }

variable {v : Partition} {d : Disk} {vol vol' : Volume} {S S' S'' : Census} {f g : File}
  {e : Entry} {c x head : UInt64} {l : List UInt64} {place : UInt64 × Nat} {E : Spin → Prop}

/-! ## Larger censuses -/

/-- A census has what it has. -/
theorem Census.Sub.refl : S.Sub S := ⟨subset_rfl, subset_rfl, fun _ _ => rfl, fun _ _ => rfl⟩

/-- Larger twice. -/
theorem Census.Sub.trans (h : S.Sub S') (h' : S'.Sub S'') : S.Sub S'' :=
  ⟨h.dirs.trans h'.dirs, h.files.trans h'.files,
    fun c hc => (h'.own c (h.files hc)).trans (h.own c hc),
    fun c hc => (h'.home c (hc.imp (@h.dirs c) (@h.files c))).trans (h.home c hc)⟩

/-- A cluster more of a file. -/
theorem Census.grow_sub (hc : c ∉ S.files) : S.Sub (S.grow c head) := by
  refine ⟨subset_rfl, Set.subset_insert c _, fun x hx => ?_, fun _ _ => rfl⟩
  have hne : x ≠ c := fun heq => hc (heq ▸ hx)
  exact Function.update_of_ne hne _ _

/-- A new file. -/
theorem Census.addFile_sub (hd : c ∉ S.dirs) (hf : c ∉ S.files) : S.Sub (S.addFile c place) := by
  have hgrow : S.Sub (S.grow c c) := S.grow_sub hf
  refine ⟨hgrow.dirs, hgrow.files, hgrow.own, fun x hx => ?_⟩
  refine Function.update_of_ne (fun heq => ?_) _ _
  rcases hx with hx | hx
  · exact hd (heq ▸ hx)
  · exact hf (heq ▸ hx)

/-- A new directory. -/
theorem Census.addDir_sub (hd : c ∉ S.dirs) (hf : c ∉ S.files) : S.Sub (S.addDir c place) := by
  refine ⟨Set.subset_insert c _, subset_rfl, fun _ _ => rfl, fun x hx => ?_⟩
  refine Function.update_of_ne (fun heq => ?_) _ _
  rcases hx with hx | hx
  · exact hd (heq ▸ hx)
  · exact hf (heq ▸ hx)

/-- What an entry names is in the region. -/
theorem Entry.Named.file_mem {R : Region} (h : e.Named R) : e.file ∈ R.dirs ∨ e.file ∈ R.files := by
  by_cases hdir : e.IsDirectory
  · exact Or.inl (h.dir hdir)
  · exact Or.inr (h.file hdir)

/-- An entry that is known to a census is known to a larger one. -/
theorem Entry.Known.mono (h : e.Known S) (sub : S.Sub S') : e.Known S' :=
  ⟨h.toNamed.mono sub.dirs sub.files, (sub.home _ h.file_mem).trans h.home,
    fun hplain => (sub.own _ (h.file hplain)).trans (h.own hplain)⟩

/-- An entry with another size is in the same place. -/
theorem Entry.Known.setSize (h : e.Known S) (size : UInt64) : { e with size := size }.Known S :=
  ⟨⟨h.parent, h.num, h.dir, h.file⟩, h.home, h.own⟩

/-! ## Changes of the volume -/

namespace Sane

/-- The chain of a file stays in the census. -/
theorem next_mem (sane : Sane v vol S) (hc : c ∈ S.files) (h : vol.next c = some x) :
    x ∈ S.files := by
  rcases sane.next c hc with heof | hmem
  · rw [Volume.next, heof, link_eof] at h
    cases h
  · rwa [← (link_eq_some h).1]

/-- The chain from a cluster of a file stays within the file. -/
theorem path_own (sane : Sane v vol S) (hc : c ∈ S.files) (h : Path vol.next (some c) l none) :
    ∀ x ∈ l, x ∈ S.files ∧ S.own x = S.own c := by
  induction l generalizing c with
  | nil => cases h
  | cons m l ih =>
    obtain ⟨hm, hl⟩ := h
    obtain rfl : m = c := (Option.some.inj hm).symm
    intro x hx
    rcases List.mem_cons.mp hx with rfl | hx
    · exact ⟨hc, rfl⟩
    cases l with
    | nil => cases hx
    | cons y l =>
      have hnext : vol.next m = some y := hl.1
      have hown := sane.owned m hc y hnext
      rw [hnext] at hl
      obtain ⟨hx, howned⟩ := ih (sane.next_mem hc hnext) hl x hx
      exact ⟨hx, howned.trans hown.1⟩

/-- A chain that starts behind the first cluster of a file never comes to it. -/
theorem own_not_mem (sane : Sane v vol S) (hc : c ∈ S.files) (hne : c ≠ S.own c)
    (h : Path vol.next (some c) l none) : S.own c ∉ l := by
  induction l generalizing c with
  | nil => exact List.not_mem_nil
  | cons m l ih =>
    obtain ⟨hm, hl⟩ := h
    obtain rfl : m = c := (Option.some.inj hm).symm
    intro hx
    rcases List.mem_cons.mp hx with heq | hx
    · exact hne heq.symm
    cases l with
    | nil => cases hx
    | cons y l =>
      have hnext : vol.next m = some y := hl.1
      obtain ⟨hown, hyne⟩ := sane.owned m hc y hnext
      rw [hnext] at hl
      rw [← hown] at hx hyne
      exact ih (sane.next_mem hc hnext) hyne hl hx

/-- New tags, where the links of files stay. -/
theorem congr_tag (sane : Sane v vol S) (healthy : Healthy v vol' S.toRegion)
    (hnext : ∀ c, c ∈ S.files → vol'.next c = vol.next c)
    (hlast : ∀ c, c ∈ S.dirs → (vol'.tag c).next = clusterTagEof)
    (hchunk : ∀ c, c ∈ S.dirs → vol'.chunk c = vol.chunk c) : Sane v vol' S := by
  refine ⟨healthy, fun c hc x hx => ?_, fun c hc => ?_, hlast, fun c hc i hi => ?_⟩
  · rw [hnext c hc] at hx
    exact sane.owned c hc x hx
  · obtain ⟨l, hl⟩ := sane.ends c hc
    exact ⟨l, hl.congr fun x hx => hnext x (sane.path_own hc hl x hx).1⟩
  · rw [hchunk c hc]
    exact sane.known c hc i hi

/-- Saving the buffer of a handle on a file. -/
theorem save (sane : Sane v vol S) (hf : f.cluster ∈ S.files) : Sane v (vol.save f) S := by
  have hdir := sane.apart _ hf
  refine sane.congr_tag (sane.toHealthy.save hf).1 (fun c _ => ?_) (fun c hc => ?_) fun c hc => ?_
  · exact Volume.next_congr (by rw [Volume.save_tag])
  · rw [Volume.save_tag]
    exact sane.last c hc
  · have hne : ¬ (f.dirty ∧ c = f.cluster) := fun heq => hdir (heq.2 ▸ hc)
    rw [Volume.save_chunk, if_neg hne]

/-- An entry goes into its place. -/
theorem putEntry (sane : Sane v vol S) (he : e.Known S) (hvalid : e.Valid) :
    Sane v (vol.putEntry e) S := by
  refine ⟨(sane.toHealthy.putEntry he.toNamed hvalid).1, sane.owned, sane.ends, sane.last,
    fun c hc i hi => ?_⟩
  rw [Volume.putEntry, Volume.setChunk_chunk]
  split
  · rename_i heq
    rw [slot_putSlot _ hi]
    split
    · rename_i hnum
      exact fun _ => ⟨he, heq.symm, hnum.symm⟩
    · rw [← heq]
      exact sane.known c hc i hi
  · exact sane.known c hc i hi

/-- A cluster that was free is linked behind the cluster of a handle. -/
theorem extend (wf : v.Wf) (sane : Sane v vol S) (hf : f.cluster ∈ S.files)
    (hhead : S.own f.cluster ∈ S.files) (hc : v.Data c) (hfree : vol.tag c = freeTags) :
    Sane v (vol.extend f c) (S.grow c (S.own f.cluster)) := by
  have hnew := sane.not_file hfree
  have hnewDir := sane.not_dir hfree
  have hne : f.cluster ≠ c := fun heq => hnew (heq ▸ hf)
  have hown : (S.grow c (S.own f.cluster)).own c = S.own f.cluster := Function.update_self ..
  have hold : ∀ x, x ∈ S.files → (S.grow c (S.own f.cluster)).own x = S.own x :=
    fun x hx => (S.grow_sub hnew).own x hx
  have hnext : ∀ x, x ≠ f.cluster → x ≠ c → (vol.extend f c).next x = vol.next x :=
    fun x hxf hxc => Volume.next_congr (vol.extend_tag_of_ne hxf hxc)
  have hnextF := vol.extend_next_old wf f hc
  have hnextC := vol.extend_next_new hne.symm
  refine ⟨(sane.toHealthy.extend wf hf hc hfree).1, fun x hx y hy => ?_, fun x hx => ?_,
    fun x hx => ?_, fun x hx i hi hvalid => ?_⟩
  · by_cases hxc : x = c
    · rw [hxc, hnextC] at hy
      cases hy
    have hxold : x ∈ S.files := hx.resolve_left hxc
    rw [hold x hxold]
    by_cases hxf : x = f.cluster
    · rw [hxf, hnextF] at hy
      cases hy
      exact ⟨by rw [hown, hxf], fun heq => hnew (heq ▸ hxf ▸ hhead)⟩
    · rw [hnext x hxf hxc] at hy
      obtain ⟨hyown, hyne⟩ := sane.owned x hxold y hy
      exact ⟨(hold y (sane.next_mem hxold hy)).trans hyown, hyne⟩
  · by_cases hxc : x = c
    · exact ⟨[c], by rw [hxc], hnextC⟩
    obtain ⟨l, hl⟩ := sane.ends x (hx.resolve_left hxc)
    refine hl.redirect hnextF hnextC fun y hy hyf => hnext y hyf ?_
    intro heq
    exact hnew (heq ▸ (sane.path_own (hx.resolve_left hxc) hl y hy).1)
  · have hxf : x ≠ f.cluster := fun heq => sane.apart _ hf (heq ▸ hx)
    have hxc : x ≠ c := fun heq => hnewDir (heq ▸ hx)
    rw [vol.extend_tag_of_ne hxf hxc]
    exact sane.last x hx
  · have hxf : x ≠ f.cluster := fun heq => sane.apart _ hf (heq ▸ hx)
    rw [vol.extend_chunk_of_ne hxf] at hvalid ⊢
    obtain ⟨hknown, hplace⟩ := sane.known x hx i hi hvalid
    exact ⟨hknown.mono (S.grow_sub hnew), hplace⟩

/-- A cluster that was free becomes a file. -/
theorem addFile (sane : Sane v vol S) (hc : v.Data c) (hfree : vol.tag c = freeTags)
    (place : UInt64 × Nat) :
    Sane v (vol.setTag c ⟨clusterTagEof, clusterTagEof⟩) (S.addFile c place) := by
  have hnew := sane.not_file hfree
  have hnewDir := sane.not_dir hfree
  have sub : S.Sub (S.addFile c place) := S.addFile_sub hnewDir hnew
  have hnext : ∀ x, x ≠ c →
      (vol.setTag c ⟨clusterTagEof, clusterTagEof⟩).next x = vol.next x := by
    intro x hxc
    exact Volume.next_congr (by rw [Volume.setTag_tag, if_neg hxc])
  have hnextC : (vol.setTag c ⟨clusterTagEof, clusterTagEof⟩).next c = none := by
    rw [Volume.next, Volume.setTag_tag, if_pos rfl]
    exact link_eof
  refine ⟨sane.toHealthy.addFile hc hfree clusterTagEof, fun x hx y hy => ?_, fun x hx => ?_,
    fun x hx => ?_, fun x hx i hi hvalid => ?_⟩
  · by_cases hxc : x = c
    · rw [hxc, hnextC] at hy
      cases hy
    have hxold : x ∈ S.files := hx.resolve_left hxc
    rw [hnext x hxc] at hy
    obtain ⟨hyown, hyne⟩ := sane.owned x hxold y hy
    rw [sub.own x hxold, sub.own y (sane.next_mem hxold hy)]
    exact ⟨hyown, hyne⟩
  · by_cases hxc : x = c
    · exact ⟨[c], by rw [hxc], hnextC⟩
    obtain ⟨l, hl⟩ := sane.ends x (hx.resolve_left hxc)
    refine ⟨l, hl.congr fun y hy => hnext y fun heq => hnew ?_⟩
    exact heq ▸ (sane.path_own (hx.resolve_left hxc) hl y hy).1
  · have hxc : x ≠ c := fun heq => hnewDir (heq ▸ hx)
    rw [Volume.setTag_tag, if_neg hxc]
    exact sane.last x hx
  · obtain ⟨hknown, hplace⟩ := sane.known x hx i hi hvalid
    exact ⟨hknown.mono sub, hplace⟩

/-- A cluster that was free becomes a directory without entries. -/
theorem addDir (sane : Sane v vol S) (hc : v.Data c) (hfree : vol.tag c = freeTags)
    (place : UInt64 × Nat) :
    Sane v ((vol.setTag c ⟨clusterTagEof, clusterTagEof⟩).setChunk c fun _ => 0)
      (S.addDir c place) := by
  have hnew := sane.not_file hfree
  have hnewDir := sane.not_dir hfree
  have sub : S.Sub (S.addDir c place) := S.addDir_sub hnewDir hnew
  have hnext : ∀ x, x ∈ S.files → ((vol.setTag c ⟨clusterTagEof, clusterTagEof⟩).setChunk c
      fun _ => 0).next x = vol.next x := by
    intro x hx
    refine Volume.next_congr ?_
    rw [Volume.setChunk_tag, Volume.setTag_tag, if_neg fun heq : x = c => hnew (heq ▸ hx)]
  refine ⟨sane.toHealthy.addDir hc hfree, fun x hx y hy => ?_, fun x hx => ?_, fun x hx => ?_,
    fun x hx i hi => ?_⟩
  · rw [hnext x hx] at hy
    exact sane.owned x hx y hy
  · obtain ⟨l, hl⟩ := sane.ends x hx
    exact ⟨l, hl.congr fun y hy => hnext y (sane.path_own hx hl y hy).1⟩
  · rw [Volume.setChunk_tag, Volume.setTag_tag]
    by_cases hxc : x = c
    · rw [if_pos hxc]
    · rw [if_neg hxc]
      exact sane.last x (hx.resolve_left hxc)
  · rw [Volume.setChunk_chunk]
    by_cases hxc : x = c
    · rw [if_pos hxc]
      exact fun hvalid => absurd hvalid (slot_zero i)
    · rw [if_neg hxc]
      intro hvalid
      obtain ⟨hknown, hplace⟩ := sane.known x (hx.resolve_left hxc) i hi hvalid
      exact ⟨hknown.mono sub, hplace⟩

end Sane

/-! ## Removing -/

/-- The volume after clusters have been freed. -/
def Volume.free (vol : Volume) (l : List UInt64) : Volume :=
  { vol with tag := fun x => if x ∈ l then freeTags else vol.tag x }

/-- Freeing clusters clears their tags. -/
theorem Volume.free_tag (vol : Volume) (l : List UInt64) (x : UInt64) :
    (vol.free l).tag x = if x ∈ l then freeTags else vol.tag x := rfl

/-- A file or directory goes, with clusters that nothing else uses. -/
theorem Sane.remove (sane : Sane v vol S) (hroot : e.file ≠ UInt64.ofNat v.rootDir)
    (hhome : S.home e.file = (e.parent, e.dirEntryNum.toNat)) (hdata : ∀ x ∈ l, v.Data x)
    (hfiles : ∀ x ∈ l, x ∈ S.files → S.own x = e.file)
    (hdirs : ∀ x ∈ l, x ∈ S.dirs → x = e.file) :
    Sane v ((vol.putEntry { e with flags := 0 }).free l) (S.remove e.file) := by
  have htagFile : ∀ c, c ∈ S.files → S.own c ≠ e.file →
      ((vol.putEntry { e with flags := 0 }).free l).tag c = vol.tag c := by
    intro c hc hown
    rw [Volume.free_tag, if_neg fun hcl => hown (hfiles c hcl hc)]
    rfl
  have htagDir : ∀ c, c ∈ S.dirs → c ≠ e.file →
      ((vol.putEntry { e with flags := 0 }).free l).tag c = vol.tag c := by
    intro c hc hne
    rw [Volume.free_tag, if_neg fun hcl => hne (hdirs c hcl hc)]
    rfl
  -- the entries that are still valid are old ones, and name something else
  have hstill : ∀ c, c ∈ S.dirs → c ≠ e.file → ∀ i, i < 8 →
      (slot (((vol.putEntry { e with flags := 0 }).free l).chunk c) i).Valid →
      (slot (((vol.putEntry { e with flags := 0 }).free l).chunk c) i).Known (S.remove e.file) ∧
        (slot (((vol.putEntry { e with flags := 0 }).free l).chunk c) i).parent = c ∧
        (slot (((vol.putEntry { e with flags := 0 }).free l).chunk c) i).dirEntryNum.toNat = i := by
    intro c hc hce i hi
    have hchunk : ((vol.putEntry { e with flags := 0 }).free l).chunk c =
        if c = e.parent then putSlot (vol.chunk e.parent) e.dirEntryNum.toNat { e with flags := 0 }
        else vol.chunk c := Volume.setChunk_chunk ..
    have hplace : (c = e.parent ∧ i = e.dirEntryNum.toNat) ∨
        ((c, i) ≠ S.home e.file ∧ slot (((vol.putEntry { e with flags := 0 }).free l).chunk c) i =
          slot (vol.chunk c) i) := by
      rw [hchunk, hhome, Ne, Prod.mk.injEq]
      by_cases hcp : c = e.parent
      · rw [if_pos hcp, slot_putSlot _ hi, hcp]
        by_cases hin : i = e.dirEntryNum.toNat
        · exact Or.inl ⟨rfl, hin⟩
        · exact Or.inr ⟨fun h => hin h.2, if_neg hin⟩
      · rw [if_neg hcp]
        exact Or.inr ⟨fun h => hcp h.1, rfl⟩
    rcases hplace with ⟨hcp, hin⟩ | ⟨hne, hsame⟩
    · rw [hchunk, if_pos hcp, slot_putSlot _ hi, if_pos hin]
      intro hvalid
      exact absurd hvalid (show ¬ ((0 : UInt32) &&& validFlag ≠ 0) by decide)
    rw [hsame]
    intro hvalid
    obtain ⟨hknown, hparent, hnum⟩ := sane.known c hc i hi hvalid
    have hother : (slot (vol.chunk c) i).file ≠ e.file := by
      intro heq
      have hhere := hknown.home
      rw [hparent, hnum, heq] at hhere
      exact hne hhere.symm
    refine ⟨⟨⟨⟨hknown.parent, ?_⟩, hknown.num, fun hd => ⟨hknown.dir hd, hother⟩, fun hp => ?_⟩,
      hknown.home, hknown.own⟩, hparent, hnum⟩
    · rw [hparent]
      exact hce
    · refine ⟨hknown.file hp, ?_⟩
      rw [hknown.own hp]
      exact hother
  refine ⟨⟨fun c hc => ?_, ⟨sane.root, hroot.symm⟩, fun c hc => ?_, fun c hc => ?_, fun c hc hd => ?_,
    fun c hc => ?_, fun c hc i hi hvalid => (hstill c hc.1 hc.2 i hi hvalid).1.toNamed⟩,
    fun c hc x hx => ?_, fun c hc => ?_, fun c hc => ?_, fun c hc => hstill c hc.1 hc.2⟩
  · rw [Volume.free_tag, if_neg]
    · exact sane.reserved c hc
    · intro hcl
      have hlow := (hdata c hcl).1
      omega
  · exact sane.data c (hc.imp (fun h => h.1) fun h => h.1)
  · rcases hc with hc | hc
    · rw [htagDir c hc.1 hc.2]
      exact sane.used c (Or.inl hc.1)
    · rw [htagFile c hc.1 hc.2]
      exact sane.used c (Or.inr hc.1)
  · exact sane.apart c hc.1 hd.1
  · rw [htagFile c hc.1 hc.2]
    by_cases heof : (vol.tag c).next = clusterTagEof
    · exact Or.inl heof
    · have hnext : vol.next c = some (vol.tag c).next := link_of_ne heof
      refine Or.inr ⟨sane.next_mem hc.1 hnext, ?_⟩
      rw [(sane.owned c hc.1 _ hnext).1]
      exact hc.2
  · rw [Volume.next_congr (htagFile c hc.1 hc.2)] at hx
    exact sane.owned c hc.1 x hx
  · obtain ⟨p, hp⟩ := sane.ends c hc.1
    refine ⟨p, hp.congr fun x hx => ?_⟩
    obtain ⟨hxfile, hxown⟩ := sane.path_own hc.1 hp x hx
    exact Volume.next_congr (htagFile x hxfile (by rw [hxown]; exact hc.2))
  · rw [htagDir c hc.1 hc.2]
    exact sane.last c hc.1

/-- The loop of `fat64_rm` frees the cluster it starts with and those that follow. -/
theorem rmLoop_spec (wf : v.Wf) (h : Shows v d vol) (hc : v.Data f.cluster)
    (hpath : Path vol.next (link f.currentTags.next) l none) (hdata : ∀ x ∈ l, v.Data x)
    (hnot : f.cluster ∉ l) {n : Nat} (hn : l.length + 1 < n) :
    wp (rmLoop v n f)
      (fun g d' => g.cluster = clusterTagEof ∧ g.entry = f.entry ∧
        Shows v d' (vol.free (f.cluster :: l))) E d := by
  induction l generalizing n f d vol with
  | nil =>
    obtain ⟨n, rfl⟩ : ∃ k, n = k + 2 := ⟨n - 2, by simp at hn; omega⟩
    have hnext : f.currentTags.next = clusterTagEof := link_eq_none hpath
    rw [rmLoop, wp_ite]
    refine ⟨fun heof => absurd heof (hc.ne_eof wf), fun _ => ?_⟩
    refine wp_seq (markCluster_spec wf h hc.2 clusterTagFree clusterTagFree) ?_
    intro _ d₁ hpost
    obtain ⟨h₁, -⟩ := hpost
    rw [hnext, loadClusterTags, ideRead, wp_bind, wp_bind, wp_bind, wp_get, wp_pure, wp_pure]
    rw [rmLoop, wp_ite]
    refine ⟨fun _ => wp_pure.mpr ⟨rfl, rfl, h₁.congr (fun x => ?_) rfl⟩, fun hne => absurd rfl hne⟩
    simp only [Volume.setTag_tag, Volume.free_tag, List.mem_singleton]
  | cons m l ih =>
    obtain ⟨n, rfl⟩ : ∃ k, n = k + 1 := ⟨n - 1, by omega⟩
    obtain ⟨hm, hl⟩ := hpath
    obtain ⟨hnext, -⟩ := link_eq_some hm
    have hmdata := hdata m List.mem_cons_self
    have hnodup : m ∉ l := by
      have hpath : Path vol.next (some m) (m :: l) none := ⟨rfl, hl⟩
      exact (List.nodup_cons.mp hpath.nodup).1
    have hne : m ≠ f.cluster := fun heq => hnot (heq ▸ List.mem_cons_self)
    have hrest : f.cluster ∉ l := fun hx => hnot (List.mem_cons_of_mem m hx)
    rw [rmLoop, wp_ite]
    refine ⟨fun heof => absurd heof (hc.ne_eof wf), fun _ => ?_⟩
    refine wp_seq (markCluster_spec wf h hc.2 clusterTagFree clusterTagFree) ?_
    intro _ d₁ hpost
    obtain ⟨h₁, -⟩ := hpost
    refine wp_seq (loadClusterTags_spec (f := { f with cluster := f.currentTags.next }) h₁
      (by rw [hnext]; exact hmdata.2)) ?_
    intro g d₂ hpost
    obtain ⟨rfl, rfl⟩ := hpost
    have htag : (vol.setTag f.cluster freeTags).tag m = vol.tag m := by
      rw [Volume.setTag_tag, if_neg hne]
    have hpath : Path (vol.setTag f.cluster freeTags).next (link (vol.tag m).next) l none := by
      refine hl.congr fun x hx => Volume.next_congr ?_
      rw [Volume.setTag_tag, if_neg fun heq : x = f.cluster => hrest (heq ▸ hx)]
    refine wp_mono (ih (f := { f with
        cluster := f.currentTags.next
        currentTags := (vol.setTag f.cluster freeTags).tag f.currentTags.next }) h₁ ?_ ?_
      (fun x hx => hdata x (List.mem_cons_of_mem m hx)) ?_ (by simp at hn; omega)) ?_ fun _ he => he
    · dsimp only
      rw [hnext]
      exact hmdata
    · dsimp only
      rw [hnext, htag]
      exact hpath
    · dsimp only
      rw [hnext]
      exact hnodup
    intro g d₃ hpost
    obtain ⟨hcluster, hentry, h₃⟩ := hpost
    refine ⟨hcluster, hentry, h₃.congr (fun x => ?_) rfl⟩
    dsimp only
    rw [Volume.free_tag, Volume.free_tag, Volume.setTag_tag, hnext]
    by_cases hx : x = f.cluster <;> simp [hx]

/-- **Removing** a file invalidates its entry and frees its clusters. -/
theorem fat64Rm_spec (wf : v.Wf) (h : Shows v d vol) (hopen : f.cluster ≠ 0)
    (hp : v.Data f.entry.parent) (hnum : f.entry.dirEntryNum.toNat < 8)
    (hfile : v.Data f.entry.file) (hpath : Path vol.next (link f.currentTags.next) l none)
    (hdata : ∀ x ∈ l, v.Data x) (hnot : f.entry.file ∉ l) :
    wp (fat64Rm v f)
      (fun r d' => r.2.cluster = clusterTagEof ∧ r.2.entry.flags = 0 ∧
        Shows v d' ((vol.putEntry { f.entry with flags := 0 }).free (f.entry.file :: l))) E d := by
  have hlen := chain_length_le hpath hdata
  have hsectors := wf.sectors
  rw [fat64Rm, wp_ite]
  refine ⟨fun hclosed => absurd hclosed hopen, fun _ => ?_⟩
  refine wp_seq (saveDirEntry_spec (f := { f with entry := { f.entry with flags := 0 } }) wf h hp
    hnum) ?_
  intro _ d₁ hpost
  obtain ⟨h₁, -⟩ := hpost
  refine wp_seq (rmLoop_spec (f := { f with
    entry := { f.entry with flags := 0 }, cluster := f.entry.file }) wf h₁ hfile hpath hdata hnot
    (show l.length + 1 < turns by rw [turns]; omega)) ?_
  intro g d₂ hpost
  obtain ⟨hcluster, hentry, h₂⟩ := hpost
  exact wp_pure.mpr ⟨hcluster, by rw [hentry], h₂⟩

/-! ## The new file system -/

/-- The census of a file system without files.  The root directory is in no slot. -/
def rootCensus (v : Partition) : Census := ⟨rootRegion v, id, fun _ => (0, 8)⟩

/-- **A new file system** has the census of its root directory. -/
theorem Sane.of_formatted (wf : v.Wf) (h : Formatted v vol) : Sane v vol (rootCensus v) := by
  have hroot := wf.root
  have hsectors := wf.sectors
  have hnum : (UInt64.ofNat v.rootDir).toNat = v.rootDir :=
    UInt64.toNat_ofNat_of_lt' (show v.rootDir < 2 ^ 64 by omega)
  have hdata : v.Data (UInt64.ofNat v.rootDir) := ⟨hnum.ge, by rw [hnum]; exact hroot⟩
  refine ⟨Healthy.of_root wf h.reserved h.empty, fun c hc => hc.elim, fun c hc => hc.elim,
    fun c hc => ?_, fun c hc i _ hvalid => ?_⟩
  · rcases hc with rfl
    rw [h.root _ hnum]
  · rcases hc with rfl
    rw [h.empty _ hdata] at hvalid
    exact absurd hvalid (slot_zero i)

end Cumulonimbus.Fat64
