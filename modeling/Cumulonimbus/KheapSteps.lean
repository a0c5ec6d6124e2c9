import Cumulonimbus.KheapBlocks

/-!
# Cutting, taking and joining blocks

What each write of the allocator makes of the free list and of the tiling: splitting cuts a tile,
taking a block hands its tile on, and freeing hands it back and joins it with the tiles beside it.
Between the two halves of freeing, the block just put back may still touch the one behind it.
-/

namespace Cumulonimbus.Kheap

open Exec Linked Tiling

variable {s t : State} {M : Nat → Prop} {seam : Option UInt32}
  {free l₁ l₂ : List UInt32} {a b c d used : UInt32}

/-! ## What a write leaves alone -/

/-- The header of another block is not hit. -/
theorem Blocks.header_ne (h : Blocks M seam s free) (hb : b ∈ free ++ s.live)
    (hc : c ∈ free ++ s.live) (hne : c ≠ b) {x : UInt32} (hx : b.toNat ≤ x.toNat)
    (hx' : x.toNat < s.stop b) : c ≠ x := by
  have hpos := stop_pos s c
  exact h.word_ne hc hb hne (Nat.le_refl _) (by omega) hx hx'

/-- The link of another free block is not hit. -/
theorem Blocks.link_ne (h : Blocks M seam s free) (bounded : Bounded M) (hb : b ∈ free ++ s.live)
    (hc : c ∈ free) (hne : c ≠ b) {x : UInt32} (hx : b.toNat ≤ x.toNat)
    (hx' : x.toNat < s.stop b) : c + 4 ≠ x := by
  have hc' := List.mem_append_left s.live hc
  have hroom := stop_roomy (h.roomy c hc)
  have hlink := toNat_link (h.bounds bounded hc').2
  exact h.word_ne hc' hb hne (by omega) (by omega) hx hx'

theorem Blocks.toNat_link (h : Blocks M seam s free) (bounded : Bounded M)
    (hb : b ∈ free ++ s.live) : (b + 4).toNat = b.toNat + 4 :=
  Kheap.toNat_link (h.bounds bounded hb).2

theorem link_ne_self (b : UInt32) : b + 4 ≠ b := by
  intro heq
  have hsum := UInt32.toNat_inj.mpr heq
  rw [UInt32.toNat_add, show (4 : UInt32).toNat = 4 from rfl] at hsum
  have hlt := b.toNat_lt
  omega

theorem span_congr {l : List UInt32} (same : ∀ c ∈ l, t.length c = s.length c) :
    l.map t.span = l.map s.span := by
  refine List.map_congr_left fun c hc => ?_
  rw [State.span, State.span, State.stop, State.stop, same c hc]

/-- Every block is listed once, as a free or as an allocated one. -/
theorem Blocks.nodup (h : Blocks M seam s free) : (free ++ s.live).Nodup := by
  refine (List.pairwise_map.mp h.tiles.apart).imp ?_
  intro x y hxy heq
  have hpos := stop_pos s y
  rw [heq] at hxy
  rcases hxy with hle | hle
  · exact absurd (show s.stop y ≤ y.toNat from hle) (by omega)
  · exact absurd (show s.stop y ≤ y.toNat from hle) (by omega)

/-! ## Tiles of blocks -/

/-- One of the free blocks first. -/
theorem perm_free (l₁ l₂ l : List UInt32) (b : UInt32) :
    (l₁ ++ b :: l₂ ++ l).Perm (b :: (l₁ ++ l₂ ++ l)) := by
  rw [List.append_assoc, List.append_assoc, List.cons_append]
  exact List.perm_middle

/-- One of the allocated blocks first. -/
theorem perm_live {l : List UInt32} (hb : b ∈ l) (free : List UInt32) :
    (free ++ l).Perm (b :: (free ++ l.erase b)) :=
  ((List.perm_cons_erase hb).append_left free).trans List.perm_middle

/-- A block extended by the one behind it. -/
theorem stop_add (touch : s.stop b = c.toNat) (hc : s.stop c < 0x100000000)
    (length : t.length b = s.length b + s.lengthOf c) : t.stop b = s.stop c := by
  rw [State.stop] at touch hc
  rw [State.stop, State.stop, length, State.lengthOf, UInt32.toNat_add, UInt32.toNat_add,
    show (1 : UInt32).toNat = 1 from rfl]
  omega

theorem roomy_add (touch : s.stop b = c.toNat) (hc : s.stop c < 0x100000000)
    (length : t.length b = s.length b + s.lengthOf c) : t.length b ≠ 0 := by
  intro hzero
  have hstop := stop_add touch hc length
  have hb := stop_pos s b
  have hc := stop_pos s c
  rw [State.stop, hzero, UInt32.toNat_zero] at hstop
  omega

/-- Two blocks that touch become one. -/
theorem tiles_join {l : List UInt32} (h : Tiles ((b :: c :: l).map s.span) M)
    (touch : s.stop b = c.toNat) (stop : t.stop b = s.stop c)
    (same : ∀ x ∈ l, t.length x = s.length x) : Tiles ((b :: l).map t.span) M := by
  have hb := stop_pos s b
  have hc := stop_pos s c
  rw [List.map_cons, List.map_cons, State.span, State.span, touch] at h
  rw [List.map_cons, span_congr same, State.span, stop]
  exact (tiles_cut (by omega) (by omega)).mpr h

/-- A block becomes two that touch. -/
theorem tiles_split {l : List UInt32} (h : Tiles ((b :: l).map s.span) M)
    (touch : t.stop b = c.toNat) (stop : t.stop c = s.stop b)
    (same : ∀ x ∈ l, t.length x = s.length x) : Tiles ((b :: c :: l).map t.span) M := by
  have hb := stop_pos t b
  have hc := stop_pos t c
  rw [List.map_cons, State.span, ← stop] at h
  rw [List.map_cons, List.map_cons, span_congr same, State.span, State.span, touch]
  exact (tiles_cut (by omega) (by omega)).mp h

/-! ## Taking blocks -/

/-- The second of two pieces of a block is given away. -/
theorem Blocks.split (h : Blocks M none s free) (bounded : Bounded M) (hb : b ∈ free)
    (hstop : b.toNat + 4 * (((s.length b).toNat - (d.toNat + 1)) + 1) = c.toNat)
    (hroom : d.toNat + 1 < (s.length b).toNat) (list : t.freelist = s.freelist)
    (live : t.live = c :: s.live) (length : t.length b = s.length b - (1 + d))
    (piece : t.length c = d) (same : ∀ x, x ≠ b → x ≠ c → t.mem x = s.mem x) :
    Blocks M none t free := by
  have hb' := List.mem_append_left s.live hb
  have hlt := (h.bounds bounded hb').2
  have hlink := h.toNat_link bounded hb'
  have hend : s.stop b = c.toNat + 4 * (d.toNat + 1) := by
    rw [State.stop]
    omega
  have hone : (1 + d).toNat = d.toNat + 1 := by
    rw [UInt32.toNat_add, show (1 : UInt32).toNat = 1 from rfl]
    have := (s.length b).toNat_lt
    omega
  have hrest : (s.length b - (1 + d)).toNat = (s.length b).toNat - (d.toNat + 1) := by
    rw [UInt32.toNat_sub_of_le _ _ (UInt32.le_iff_toNat_le.mpr (by omega)), hone]
  have hlen (x : UInt32) (hx : x ∈ free ++ s.live) (hne : x ≠ b) : t.length x = s.length x :=
    same x hne (h.header_ne hb' hx hne (by omega) (by omega))
  have hfirst : t.stop b = c.toNat := by
    rw [State.stop, length, hrest]
    exact hstop
  refine ⟨?_, ?_, h.sorted, ?_, ?_⟩
  · rw [list]
    refine h.path.congr fun x hx => ?_
    refine congrArg (pointer 0) (same (x + 4) ?_ ?_)
    · by_cases hxb : x = b
      · rw [hxb]
        exact link_ne_self b
      · exact h.link_ne bounded hb' hx hxb (Nat.le_refl _) (by omega)
    · by_cases hxb : x = b
      · intro heq
        rw [hxb] at heq
        have := congrArg UInt32.toNat heq
        omega
      · exact h.link_ne bounded hb' hx hxb (by omega) (by omega)
  · intro x hx
    by_cases hxb : x = b
    · intro hzero
      rw [hxb, length] at hzero
      have := congrArg UInt32.toNat hzero
      rw [hrest, UInt32.toNat_zero] at this
      omega
    · rw [hlen x (List.mem_append_left _ hx) hxb]
      exact h.roomy x hx
  · intro x hx y hy htouch
    by_cases hxb : x = b
    · -- the rest of the block ends where the piece begins, and no free block does that
      rw [hxb, hfirst] at htouch
      by_cases hyb : y = b
      · rw [hyb] at htouch
        omega
      · have hpos := stop_pos s y
        rcases h.apart hb' (List.mem_append_left _ hy) (Ne.symm hyb) with hle | hle
        · omega
        · omega
    · rw [State.stop, hlen x (List.mem_append_left _ hx) hxb] at htouch
      exact h.gaps x hx y hy htouch
  · obtain ⟨l₁, l₂, hfree⟩ := List.append_of_mem hb
    rw [hfree] at h hlen ⊢
    rw [live]
    have hnodup := (perm_free l₁ l₂ s.live b).nodup_iff.mp (hfree ▸ h.nodup)
    have htiles := tiles_split (h.tiles.perm ((perm_free l₁ l₂ s.live b).map s.span)) hfirst
      (by rw [State.stop, piece]; exact hend.symm) fun x hx => ?_
    · refine htiles.perm (List.Perm.map t.span ?_)
      exact ((perm_free l₁ l₂ (c :: s.live) b).trans (List.perm_middle.cons b)).symm
    · refine hlen x ((perm_free l₁ l₂ s.live b).mem_iff.mpr (List.mem_cons_of_mem b hx)) ?_
      exact fun heq => (List.nodup_cons.mp hnodup).1 (heq ▸ hx)

/-- The word behind the header of a block is no header. -/
theorem Blocks.header_ne_link (h : Blocks M seam s free) (bounded : Bounded M)
    (hb : b ∈ free ++ s.live) (roomy : s.length b ≠ 0) (hc : c ∈ free ++ s.live) : c ≠ b + 4 := by
  by_cases hcb : c = b
  · rw [hcb]
    exact (link_ne_self b).symm
  · have hlink := h.toNat_link bounded hb
    have hroom := stop_roomy roomy
    exact h.header_ne hb hc hcb (by omega) (by omega)

/-- A whole block is given away. -/
theorem Blocks.take (h : Blocks M none s (l₁ ++ b :: l₂)) (bounded : Bounded M)
    (live : t.live = b :: s.live) (list : t.freelist = if l₁ = [] then s.next b else s.freelist)
    (before : ∀ p, l₁.getLast? = some p → t.next p = s.next b)
    (same : ∀ x, (∀ p, l₁.getLast? = some p → x ≠ p + 4) → t.mem x = s.mem x) :
    Blocks M none t (l₁ ++ l₂) := by
  have hsub : (l₁ ++ l₂).Sublist (l₁ ++ b :: l₂) :=
    (List.Sublist.refl l₁).append (List.sublist_cons_self b l₂)
  have hlen (x : UInt32) (hx : x ∈ l₁ ++ b :: l₂ ++ s.live) : t.length x = s.length x :=
    same x fun p hp =>
      have hp' := List.mem_append_left (b :: l₂) (List.mem_of_getLast? hp)
      h.header_ne_link bounded (List.mem_append_left _ hp') (h.roomy p hp') hx
  have hlen' (x : UInt32) (hx : x ∈ l₁ ++ l₂) : t.length x = s.length x :=
    hlen x (List.mem_append_left _ (hsub.subset hx))
  refine ⟨?_, ?_, h.sorted.sublist hsub, ?_, ?_⟩
  · rw [list, apply_ite (pointer 0)]
    refine h.path.erase (fun x _ hlast => ?_) fun p hp => congrArg (pointer 0) (before p hp)
    refine congrArg (pointer 0) (same (x + 4) fun p hp heq => hlast ?_)
    rw [hp, (UInt32.add_left_inj 4).mp heq]
  · intro x hx
    rw [hlen' x hx]
    exact h.roomy x (hsub.subset hx)
  · intro x hx y hy htouch
    rw [State.stop, hlen' x hx] at htouch
    exact h.gaps x (hsub.subset hx) y (hsub.subset hy) htouch
  · rw [live]
    have hperm : (l₁ ++ b :: l₂ ++ s.live).Perm (l₁ ++ l₂ ++ b :: s.live) :=
      (perm_free l₁ l₂ s.live b).trans List.perm_middle.symm
    rw [span_congr fun x hx => hlen x (hperm.mem_iff.mpr hx)]
    exact h.tiles.perm (hperm.map s.span)

/-! ## Putting blocks back -/

/-- The block put back becomes part of the one before it. -/
theorem Blocks.absorb (h : Blocks M none s free) (bounded : Bounded M) (hb : b ∈ free)
    (hused : used ∈ s.live) (touch : s.stop b = used.toNat) (list : t.freelist = s.freelist)
    (live : t.live = s.live.erase used) (length : t.length b = s.length b + s.lengthOf used)
    (same : ∀ x, x ≠ b → t.mem x = s.mem x) : Blocks M (some b) t free := by
  have hb' := List.mem_append_left s.live hb
  have hused' := List.mem_append_right free hused
  have hlt := (h.bounds bounded hused').2
  have hstop := stop_add touch hlt length
  have hperm := perm_live hused free
  have hroom := stop_pos s used
  have hlen (x : UInt32) (hne : x ≠ b) : t.length x = s.length x := same x hne
  refine ⟨?_, ?_, h.sorted, ?_, ?_⟩
  · rw [list]
    refine h.path.congr fun x hx => congrArg (pointer 0) (same (x + 4) ?_)
    by_cases hxb : x = b
    · rw [hxb]
      exact link_ne_self b
    · have hroom' := stop_roomy (h.roomy b hb)
      exact h.link_ne bounded hb' hx hxb (Nat.le_refl _) (by omega)
  · intro x hx
    by_cases hxb : x = b
    · rw [hxb]
      exact roomy_add touch hlt length
    · rw [hlen x hxb]
      exact h.roomy x hx
  · intro x hx y hy htouch
    by_cases hxb : x = b
    · rw [hxb]
    · rw [State.stop, hlen x hxb] at htouch
      exact absurd (h.gaps x hx y hy htouch) (by simp)
  · obtain ⟨l₁, l₂, hfree⟩ := List.append_of_mem hb
    rw [live]
    have hperm' := perm_free l₁ l₂ (s.live.erase used) b
    rw [← hfree] at hperm'
    have hswap : (free ++ s.live).Perm (b :: used :: (l₁ ++ l₂ ++ s.live.erase used)) :=
      (hperm.trans (hperm'.cons used)).trans (List.Perm.swap b used _)
    have hnodup := hswap.nodup_iff.mp h.nodup
    refine (tiles_join (h.tiles.perm (hswap.map s.span)) touch hstop fun x hx => ?_).perm
      (hperm'.map t.span).symm
    refine hlen x fun heq => (List.nodup_cons.mp hnodup).1 ?_
    exact heq ▸ List.mem_cons_of_mem used hx

/-- Only the last of the blocks before it can touch the block put back. -/
theorem Blocks.getLast_of_touch (h : Blocks M seam s (l₁ ++ l₂)) (before : ∀ x ∈ l₁, x < used)
    (after : ∀ x ∈ l₂, used ≤ x) (hb : b ∈ l₁ ++ l₂) (touch : s.stop b = used.toNat) :
    l₁.getLast? = some b := by
  have hpos := stop_pos s b
  rcases List.mem_append.mp hb with hb' | hb'
  · obtain ⟨l, p, rfl⟩ := (List.eq_nil_or_concat' l₁).resolve_left (List.ne_nil_of_mem hb')
    rw [List.getLast?_concat]
    have hp : p ∈ l ++ [p] := List.mem_append_right l (List.mem_singleton_self p)
    rcases List.mem_append.mp hb' with hl | hl
    · have hlt := (List.pairwise_append.mp (List.pairwise_append.mp h.sorted).1).2.2 b hl p
        (List.mem_singleton_self p)
      have hle := h.stop_le (List.mem_append_left _ hb)
        (List.mem_append_left _ (List.mem_append_left l₂ hp)) hlt
      have hused := UInt32.lt_iff_toNat_lt.mp (before p hp)
      omega
    · rw [List.mem_singleton.mp hl]
  · have hused := UInt32.le_iff_toNat_le.mp (after b hb')
    omega

/-- The block put back becomes an entry of the list. -/
theorem Blocks.insert (h : Blocks M none s (l₁ ++ l₂)) (bounded : Bounded M) (hused : used ∈ s.live)
    (roomy : s.length used ≠ 0) (before : ∀ x ∈ l₁, x < used) (after : ∀ x ∈ l₂, used ≤ x)
    (apart : ∀ p, l₁.getLast? = some p → s.stop p ≠ used.toNat)
    (list : t.freelist = if l₁ = [] then used else s.freelist) (live : t.live = s.live.erase used)
    (link : pointer 0 (t.next used) = l₂.head?)
    (previous : ∀ p, l₁.getLast? = some p → t.next p = used)
    (same : ∀ x, x ≠ used + 4 → (∀ p, l₁.getLast? = some p → x ≠ p + 4) → t.mem x = s.mem x) :
    Blocks M (some used) t (l₁ ++ used :: l₂) := by
  have hused' := List.mem_append_right (l₁ ++ l₂) hused
  have hperm := perm_live hused (l₁ ++ l₂)
  have hnotin (x : UInt32) (hx : x ∈ l₁ ++ l₂) : x ≠ used := fun heq =>
    (List.nodup_append.mp h.nodup).2.2 x hx used hused heq
  have hafter (x : UInt32) (hx : x ∈ l₂) : used < x :=
    UInt32.lt_of_le_of_ne (after x hx) (hnotin x (List.mem_append_right _ hx)).symm
  have hlast {p : UInt32} (hp : l₁.getLast? = some p) : p ∈ l₁ ++ l₂ :=
    List.mem_append_left l₂ (List.mem_of_getLast? hp)
  have hlen (x : UInt32) (hx : x ∈ l₁ ++ l₂ ++ s.live) : t.length x = s.length x :=
    same x (h.header_ne_link bounded hused' roomy hx) fun p hp =>
      h.header_ne_link bounded (List.mem_append_left _ (hlast hp)) (h.roomy p (hlast hp)) hx
  have hnew {P : UInt32 → Prop} (hself : P used) (hold : ∀ x ∈ l₁ ++ l₂, P x) :
      ∀ x ∈ l₁ ++ used :: l₂, P x := by
    intro x hx
    rcases List.mem_cons.mp (List.perm_middle.mem_iff.mp hx) with hx | hx
    · rw [hx]
      exact hself
    · exact hold x hx
  refine ⟨?_, ?_, ?_, ?_, ?_⟩
  · have hpos := (h.bounds bounded hused').1
    have hne : used ≠ 0 := fun hzero => by
      rw [hzero] at hpos
      exact Nat.lt_irrefl 0 hpos
    rw [list, apply_ite (pointer 0), pointer_of_ne hne]
    refine h.path.insert (fun x hx hx' => ?_) (fun p hp => ?_) link
    · refine congrArg (pointer 0) (same (x + 4) ?_ fun p hp heq => hx' ?_)
      · exact fun heq => hnotin x hx ((UInt32.add_left_inj 4).mp heq)
      · rw [hp, (UInt32.add_left_inj 4).mp heq]
    · rw [State.link, previous p hp, pointer_of_ne hne]
  · refine hnew ?_ fun x hx => ?_
    · rw [hlen used hused']
      exact roomy
    · rw [hlen x (List.mem_append_left _ hx)]
      exact h.roomy x hx
  · have hsorted := List.pairwise_append.mp h.sorted
    refine List.pairwise_append.mpr ⟨hsorted.1, List.pairwise_cons.mpr ⟨hafter, hsorted.2.1⟩, ?_⟩
    intro x hx y hy
    rcases List.mem_cons.mp hy with hy | hy
    · rw [hy]
      exact before x hx
    · exact hsorted.2.2 x hx y hy
  · refine hnew (fun _ _ _ => rfl) fun x hx y hy htouch => ?_
    have hx' := List.mem_append_left s.live hx
    rw [State.stop, hlen x hx'] at htouch
    rcases List.mem_cons.mp (List.perm_middle.mem_iff.mp hy) with hy | hy
    · rw [hy] at htouch
      exact absurd htouch (apart x (h.getLast_of_touch before after hx htouch))
    · exact absurd (h.gaps x hx y hy htouch) (by simp)
  · rw [live]
    have hperm' : (l₁ ++ l₂ ++ s.live).Perm (l₁ ++ used :: l₂ ++ s.live.erase used) :=
      hperm.trans (perm_free l₁ l₂ _ used).symm
    rw [span_congr fun x hx => hlen x (hperm'.mem_iff.mpr hx)]
    exact h.tiles.perm (hperm'.map s.span)

/-- The block put back is followed by one that it does not touch, or by none. -/
theorem Blocks.seal (h : Blocks M (some used) s (l₁ ++ used :: l₂))
    (apart : ∀ c, l₂.head? = some c → s.stop used ≠ c.toNat) :
    Blocks M none s (l₁ ++ used :: l₂) := by
  refine ⟨h.path, h.roomy, h.sorted, ?_, h.tiles⟩
  intro x hx y hy htouch
  have hxu : used = x := Option.some.inj (h.gaps x hx y hy htouch)
  subst hxu
  have hpos := stop_pos s used
  have hlt : used.toNat < y.toNat := by omega
  have hsorted := List.pairwise_append.mp h.sorted
  rcases List.mem_append.mp hy with hy | hy
  · exact absurd (UInt32.lt_iff_toNat_lt.mp (hsorted.2.2 y hy used List.mem_cons_self)) (by omega)
  · rcases List.mem_cons.mp hy with rfl | hy
    · omega
    · cases l₂ with
      | nil => cases hy
      | cons c l =>
        have hc := apart c rfl
        rcases List.mem_cons.mp hy with rfl | hy
        · exact absurd htouch hc
        · have htail := List.pairwise_cons.mp hsorted.2.1
          have hcy := UInt32.lt_iff_toNat_lt.mp ((List.pairwise_cons.mp htail.2).1 y hy)
          have hle := h.stop_le (b := used) (c := c) (by simp) (by simp)
            (htail.1 c List.mem_cons_self)
          omega

/-- The block put back is joined with the one it touches. -/
theorem Blocks.join (h : Blocks M (some used) s (l₁ ++ used :: c :: l₂)) (bounded : Bounded M)
    (touch : s.stop used = c.toNat) (list : t.freelist = s.freelist) (live : t.live = s.live)
    (length : t.length used = s.length used + s.lengthOf c) (link : t.next used = s.next c)
    (same : ∀ x, x ≠ used → x ≠ used + 4 → t.mem x = s.mem x) :
    Blocks M none t (l₁ ++ used :: l₂) := by
  have hsub : (l₁ ++ used :: l₂).Sublist (l₁ ++ used :: c :: l₂) :=
    (List.Sublist.refl l₁).append ((List.sublist_cons_self c l₂).cons_cons used)
  have hused : used ∈ l₁ ++ used :: c :: l₂ := by simp
  have hc : c ∈ l₁ ++ used :: c :: l₂ := by simp
  have hused' := List.mem_append_left s.live hused
  have hc' := List.mem_append_left s.live hc
  have hlt := (h.bounds bounded hc').2
  have hroom := stop_roomy (h.roomy used hused)
  have hswap : (l₁ ++ used :: c :: l₂ ++ s.live).Perm (used :: c :: (l₁ ++ l₂ ++ s.live)) :=
    (perm_free l₁ (c :: l₂) s.live used).trans ((perm_free l₁ l₂ s.live c).cons used)
  have hnodup := List.nodup_cons.mp (hswap.nodup_iff.mp h.nodup)
  have hne : used ≠ c := fun heq => hnodup.1 (heq ▸ List.mem_cons_self)
  have hlen (x : UInt32) (hx : x ∈ l₁ ++ used :: c :: l₂ ++ s.live) (hxu : x ≠ used) :
      t.length x = s.length x :=
    same x hxu (h.header_ne_link bounded hused' (h.roomy used hused) hx)
  refine ⟨?_, ?_, h.sorted.sublist hsub, ?_, ?_⟩
  · have hpath := h.path
    rw [List.append_cons] at hpath
    have hstart : (if l₁ ++ [used] = [] then s.link c else pointer 0 s.freelist) =
        pointer 0 s.freelist := if_neg (by simp)
    rw [list, List.append_cons l₁ used l₂, ← hstart]
    refine hpath.erase (fun x hx hlast => ?_) fun p hp => ?_
    · rw [← List.append_cons] at hx
      have hxu : x ≠ used := fun heq => hlast (by rw [heq, List.getLast?_concat])
      refine congrArg (pointer 0) (same (x + 4) ?_ fun heq => hxu ((UInt32.add_left_inj 4).mp heq))
      exact h.link_ne bounded hused' (hsub.subset hx) hxu (Nat.le_refl _) (by omega)
    · rw [List.getLast?_concat] at hp
      rw [← Option.some.inj hp]
      exact congrArg (pointer 0) link
  · intro x hx
    by_cases hxu : x = used
    · rw [hxu]
      exact roomy_add touch hlt length
    · rw [hlen x (List.mem_append_left _ (hsub.subset hx)) hxu]
      exact h.roomy x (hsub.subset hx)
  · intro x hx y hy htouch
    by_cases hxu : x = used
    · -- the joined block ends where the second one did, which touches none
      rw [hxu, stop_add touch hlt length] at htouch
      exact absurd (Option.some.inj (h.gaps c hc y (hsub.subset hy) htouch)) hne
    · rw [State.stop, hlen x (List.mem_append_left _ (hsub.subset hx)) hxu] at htouch
      exact absurd (Option.some.inj (h.gaps x (hsub.subset hx) y (hsub.subset hy) htouch)).symm hxu
  · rw [live]
    refine (tiles_join (h.tiles.perm (hswap.map s.span)) touch (stop_add touch hlt length)
      fun x hx => ?_).perm ((perm_free l₁ l₂ s.live used).map t.span).symm
    have hx' := List.mem_cons_of_mem c hx
    exact hlen x (hswap.mem_iff.mpr (List.mem_cons_of_mem used hx')) fun heq => hnodup.1 (heq ▸ hx')

/-! ## Stores by the owners -/

/-- A store into the memory of an allocated block. -/
theorem Blocks.store (h : Blocks M none s free) (bounded : Bounded M) (hb : b ∈ s.live)
    (first : b.toNat + 4 ≤ a.toNat) (last : a.toNat < s.stop b) (list : t.freelist = s.freelist)
    (live : t.live = s.live) (same : ∀ x, x ≠ a → t.mem x = s.mem x) : Blocks M none t free := by
  have hb' := List.mem_append_right free hb
  have hlen (x : UInt32) (hx : x ∈ free ++ s.live) : t.length x = s.length x := by
    by_cases hxb : x = b
    · refine same x fun heq => ?_
      rw [← heq, hxb] at first
      omega
    · exact same x (h.header_ne hb' hx hxb (by omega) last)
  refine ⟨?_, ?_, h.sorted, ?_, ?_⟩
  · rw [list]
    refine h.path.congr fun x hx => congrArg (pointer 0) (same (x + 4) ?_)
    have hne : x ≠ b := fun heq => (List.nodup_append.mp h.nodup).2.2 x hx b hb heq
    exact h.link_ne bounded hb' hx hne (by omega) last
  · intro x hx
    rw [hlen x (List.mem_append_left _ hx)]
    exact h.roomy x hx
  · intro x hx y hy htouch
    rw [State.stop, hlen x (List.mem_append_left _ hx)] at htouch
    exact h.gaps x hx y hy htouch
  · rw [live, span_congr hlen]
    exact h.tiles

end Cumulonimbus.Kheap
