import Cumulonimbus.KheapSteps

/-!
# Runs of the kernel heap

Every call of the allocator leaves the blocks in order and writes to headers and links of blocks
only, as long as no request is within three bytes of the largest number and no freed block is too
short for a link.
-/

namespace Cumulonimbus.Kheap

open Exec Linked Tiling

variable {s t : State} {E : Spin → Prop} {M : Nat → Prop} {free l₁ l₂ : List UInt32}
  {b d used : UInt32}

/-! ## What is written -/

/-- The words written are headers and links of free blocks, or headers of allocated ones. -/
def Within (s : State) (free : List UInt32) : Prop :=
  ∀ w ∈ s.writes, (∃ b ∈ free, w = b ∨ w = b + 4) ∨ w ∈ s.live

/-- Stores within some blocks are within more of them. -/
theorem Within.mono (h : Within s l₁) (hsub : l₁ ⊆ l₂) : Within s l₂ := by
  intro w hw
  rcases h w hw with ⟨b, hb, hbw⟩ | hlive
  · exact .inl ⟨b, hsub hb, hbw⟩
  · exact .inr hlive

/-- A block has been obtained. -/
def State.own (s : State) (b : UInt32) : State := { s with live := b :: s.live }

/-- A block is given back. -/
def State.disown (s : State) (b : UInt32) : State :=
  { s with writes := [], live := s.live.erase b }

@[simp] theorem disown_writes (s : State) (b : UInt32) : (s.disown b).writes = [] := rfl

@[simp] theorem own_writes (s : State) (b : UInt32) : (s.own b).writes = s.writes := rfl

/-! ## Allocating -/

/-- Where the piece at the end of a block begins. -/
theorem toNat_piece (hstop : s.stop b < 0x100000000) (hroom : d.toNat + 2 < (s.length b).toNat) :
    b.toNat + 4 * ((s.length b).toNat - (d.toNat + 1) + 1) =
      (memoryOf b + 4 * s.length b - 4 * (1 + d)).toNat := by
  have hlink := toNat_link hstop
  rw [State.stop] at hstop
  rw [memoryOf, UInt32.toNat_sub, UInt32.toNat_add, UInt32.toNat_mul, UInt32.toNat_mul,
    UInt32.toNat_add, hlink, show (4 : UInt32).toNat = 4 from rfl,
    show (1 : UInt32).toNat = 1 from rfl]
  omega

/-- **A block is taken** from the list, whole or split. -/
theorem takeBlock_spec (h : Blocks M none s (l₁ ++ b :: l₂)) (bounded : Bounded M)
    (fresh : s.writes = []) (small : d.toNat < 0x40000000) (fits : d ≤ s.length b) :
    wp (takeBlock d (slotOf l₁) b) (fun a t => ∃ c free, a = memoryOf c ∧ d ≤ t.length c ∧
      Blocks M none (t.own c) free ∧ Within (t.own c) free) E s := by
  have hb : b ∈ l₁ ++ b :: l₂ := by simp
  have hlt := (h.bounds bounded (List.mem_append_left _ hb)).2
  rw [takeBlock, wp_bind, wp_get, wp_ite]
  constructor
  · intro hroom
    rw [UInt32.lt_iff_toNat_lt, UInt32.toNat_add, show (2 : UInt32).toNat = 2 from rfl] at hroom
    have hpiece := toNat_piece (d := d) hlt (by omega)
    simp only [setLength, poke, wp_bind, wp_modify, wp_get, wp_pure]
    generalize memoryOf b + 4 * s.length b - 4 * (1 + d) = c at hpiece ⊢
    have hcb : c ≠ b := fun heq => by
      rw [heq] at hpiece
      omega
    have hkept : (s.put c d).length b = s.length b := put_of_ne s d hcb.symm
    refine ⟨c, l₁ ++ b :: l₂, rfl, ?_, h.split bounded hb hpiece (by omega) rfl rfl ?_ ?_ ?_, ?_⟩
    · rw [State.length, put_of_ne _ _ hcb, put_self]
      exact UInt32.le_refl d
    · rw [← hkept]
      exact put_self ..
    · exact (put_of_ne _ _ hcb).trans (put_self s c d)
    · intro x hxb hxc
      exact (put_of_ne _ _ hxb).trans (put_of_ne s d hxc)
    · intro w hw
      simp only [own_writes, put_writes, fresh, List.nil_append, List.mem_append,
        List.mem_singleton] at hw
      rcases hw with rfl | rfl
      · exact .inr List.mem_cons_self
      · exact .inl ⟨w, hb, .inl rfl⟩
  · intro hroom
    rcases List.eq_nil_or_concat' l₁ with rfl | ⟨l, p, rfl⟩
    · refine ⟨b, l₂, rfl, fits, h.take bounded rfl rfl (by simp) fun x _ => rfl, fun w hw => ?_⟩
      simp [fresh] at hw
    · rw [slotOf_concat]
      have hp : p ∈ l ++ [p] ++ b :: l₂ := by simp
      have hp' : p ∈ l ++ [p] ++ l₂ := by simp
      have hlast (q : UInt32) (hq : (l ++ [p]).getLast? = some q) : q = p := by
        rw [List.getLast?_concat] at hq
        exact (Option.some.inj hq).symm
      refine ⟨b, l ++ [p] ++ l₂, rfl, ?_, h.take bounded rfl ?_ (fun q hq => ?_) fun x hx => ?_,
        fun w hw => ?_⟩
      · have hne := h.header_ne_link bounded (List.mem_append_left _ hp) (h.roomy p hp)
          (List.mem_append_left _ hb)
        exact fits.trans_eq (put_of_ne s _ hne).symm
      · rw [if_neg (by simp)]
        rfl
      · rw [hlast q hq]
        exact put_self ..
      · exact put_of_ne s _ (hx p List.getLast?_concat)
      · have hw' : w = p + 4 := by simpa [fresh] using hw
        exact .inl ⟨p, hp', .inr hw'⟩

/-- **`_kalloc`** returns a block of its own, or 0. -/
theorem kalloc_spec (h : Blocks M none s free) (bounded : Bounded M) (fresh : s.writes = [])
    (n : UInt32) :
    wp (kalloc n) (fun a t => (a = 0 ∧ t = s) ∨ s.freelist ≠ 0 ∧ ∃ c free, a = memoryOf c ∧
      (n + 3) >>> 2 ≤ t.length c ∧ Blocks M none (t.own c) free ∧ Within (t.own c) free) E s := by
  rw [kalloc]
  refine wp_seq (findBlock_spec h.path _) ?_
  intro i t hi
  obtain ⟨rfl, hfound⟩ := hi
  rw [wp_ite]
  constructor
  · intro _
    exact .inl ⟨rfl, rfl⟩
  · intro hne
    obtain ⟨l₁, l₂, rfl, hslot, hfits⟩ := hfound.resolve_left hne
    rw [hslot]
    have hlist : t.freelist ≠ 0 := fun hnull => by
      have hpath := h.path.head_eq
      rw [hnull, pointer_null] at hpath
      cases l₁ with
      | nil => cases hpath
      | cons x l => cases hpath
    refine wp_mono (takeBlock_spec h bounded fresh ?_ hfits) (fun a t ht => .inr ⟨hlist, ht⟩)
      fun _ he => he
    rw [UInt32.toNat_shiftRight, show (2 : UInt32).toNat % 32 = 2 from rfl,
      Nat.shiftRight_eq_div_pow]
    have hlt := (n + (4 - 1)).toNat_lt
    omega

/-! ## Freeing -/

/-- **A block goes back** to its place in the list, joined with the one in front if they touch. -/
theorem insertBlock_spec (h : Blocks M none s (l₁ ++ l₂)) (bounded : Bounded M)
    (hused : used ∈ s.live) (before : ∀ x ∈ l₁, x < used) (after : ∀ x ∈ l₂, used ≤ x)
    (fits : s.length used ≠ 0 ∨ ∃ x ∈ l₁ ++ l₂, s.stop x = used.toNat)
    (previous : UInt32) (hp : pointer 0 previous = l₁.getLast?) :
    wp (insertBlock previous used) (fun u t => ∃ l, Blocks M (some u) t (l ++ u :: l₂) ∧
      Within t (l ++ [u])) E (s.disown used) := by
  have hroomy (apart : ∀ p, l₁.getLast? = some p → s.stop p ≠ used.toNat) : s.length used ≠ 0 := by
    refine fits.resolve_right fun htouch => ?_
    obtain ⟨x, hx, htouch⟩ := htouch
    exact apart x (h.getLast_of_touch before after hx htouch) htouch
  rw [insertBlock, wp_bind, wp_get, wp_ite]
  constructor
  · intro hne
    rw [pointer_of_ne hne] at hp
    obtain ⟨l, rfl⟩ := List.getLast?_eq_some_iff.mp hp.symm
    have hmem : previous ∈ l ++ [previous] ++ l₂ := by simp
    have hadj : (s.disown used).adjacent previous used = true ↔ s.stop previous = used.toNat :=
      adjacent_iff (s := s) (h.bounds bounded (List.mem_append_left _ hmem)).2
    rw [wp_ite, hadj]
    constructor
    · intro htouch
      refine ⟨l, ?_, fun w hw => ?_⟩
      · rw [List.append_cons]
        refine h.absorb bounded hmem hused htouch rfl rfl (put_self ..) fun x hx => ?_
        exact put_of_ne _ _ hx
      · have hw' : w = previous := by simpa using hw
        exact .inl ⟨previous, by simp, .inl hw'⟩
    · intro hapart
      have hlast (p : UInt32) (hp' : (l ++ [previous]).getLast? = some p) : p = previous := by
        rw [List.getLast?_concat] at hp'
        exact (Option.some.inj hp').symm
      have htouch (p : UInt32) (hp' : (l ++ [previous]).getLast? = some p) :
          s.stop p ≠ used.toNat := by
        rw [hlast p hp']
        exact hapart
      have hother : used + 4 ≠ previous + 4 := fun heq =>
        absurd (before previous (by simp)) (by rw [(UInt32.add_left_inj 4).mp heq]; simp)
      have hnext : s.link previous = l₂.head? := by
        have hpath := h.path
        rw [← List.append_cons] at hpath
        exact hpath.next_eq
      refine ⟨l ++ [previous], h.insert bounded hused (hroomy htouch) before after htouch ?_ rfl ?_
        (fun p hp' => ?_) (fun x hx hx' => ?_), fun w hw => ?_⟩
      · rw [if_neg (by simp)]
        rfl
      · rw [← hnext, State.link, State.next, put_of_ne _ _ hother, put_self]
        rfl
      · rw [hlast p hp']
        exact put_self ..
      · rw [put_of_ne _ _ (hx' previous List.getLast?_concat), put_of_ne _ _ hx]
        rfl
      · have hw' : w = used + 4 ∨ w = previous + 4 := by simpa using hw
        rcases hw' with hw' | hw'
        · exact .inl ⟨used, by simp, .inr hw'⟩
        · exact .inl ⟨previous, by simp, .inr hw'⟩
  · intro hzero
    rw [not_not.mp hzero, pointer_null] at hp
    obtain rfl := List.getLast?_eq_none_iff.mp hp.symm
    have hnone (p : UInt32) (hp' : ([] : List UInt32).getLast? = some p) :
        s.stop p ≠ used.toNat := by cases hp'
    refine ⟨[], h.insert bounded hused (hroomy hnone) before after hnone rfl rfl ?_
      (fun p hp' => ?_) (fun x hx _ => ?_), fun w hw => ?_⟩
    · exact (congrArg (pointer 0) (put_self ..)).trans (h.path.head_eq (l := l₂))
    · cases hp'
    · exact put_of_ne _ _ hx
    · have hw' : w = used + 4 := by simpa using hw
      exact .inl ⟨used, by simp, .inr hw'⟩

/-- **It is joined** with the one behind if they touch. -/
theorem joinNext_spec (h : Blocks M (some used) s (l₁ ++ used :: l₂)) (bounded : Bounded M)
    (within : Within s (l₁ ++ [used])) (block : UInt32) (hblock : pointer 0 block = l₂.head?) :
    wp (joinNext used block) (fun _ t => ∃ free, Blocks M none t free ∧ Within t free) E s := by
  have hused : used ∈ l₁ ++ used :: l₂ := by simp
  have hadj : s.adjacent used block = true ↔ s.stop used = block.toNat :=
    adjacent_iff (h.bounds bounded (List.mem_append_left _ hused)).2
  rw [joinNext, wp_bind, wp_get, wp_ite, hadj]
  constructor
  · intro hcond
    obtain ⟨hne, htouch⟩ := hcond
    rw [pointer_of_ne hne] at hblock
    obtain ⟨l, rfl⟩ := List.head?_eq_some_iff.mp hblock.symm
    have hself := link_ne_self used
    have hheader := h.header_ne_link bounded (List.mem_append_left _ hused) (h.roomy used hused)
      (c := block) (by simp)
    simp only [setNext, setLength, poke, wp_bind, wp_modify, wp_get, State.lengthOf]
    refine ⟨l₁ ++ used :: l, h.join bounded htouch rfl rfl ?_ ?_ ?_, fun w hw => ?_⟩
    · refine (put_self ..).trans ?_
      rw [State.length, State.length, put_of_ne _ _ hself.symm, put_of_ne _ _ hheader]
      rfl
    · rw [State.next, put_of_ne _ _ hself, put_self]
    · intro x hx hx'
      rw [put_of_ne _ _ hx, put_of_ne _ _ hx']
    · simp only [put_writes, List.mem_append, List.mem_singleton] at hw
      rcases hw with (hw | hw) | hw
      · exact within.mono (by simp) w hw
      · exact .inl ⟨used, by simp, .inr hw⟩
      · exact .inl ⟨used, by simp, .inl hw⟩
  · intro hcond
    refine ⟨l₁ ++ used :: l₂, h.seal fun c hc htouch => ?_, within.mono (by simp)⟩
    rw [hc] at hblock
    obtain ⟨hne, rfl⟩ := pointer_eq_some.mp hblock
    exact hcond ⟨hne, htouch⟩

/-- **`_kfree`** does both. -/
theorem kfree_spec (h : Blocks M none s free) (bounded : Bounded M) {address : UInt32}
    (hne : address ≠ 0) (hused : address - 4 ∈ s.live)
    (fits : s.length (address - 4) ≠ 0 ∨ ∃ x ∈ free, s.stop x = (address - 4).toNat) :
    wp (kfree address) (fun _ t => ∃ free, Blocks M none t free ∧ Within t free) E
      (s.disown (address - 4)) := by
  have hpath : Path (s.disown (address - 4)).link (pointer 0 (s.disown (address - 4)).freelist)
    free none := h.path
  rw [kfree, if_neg hne]
  refine wp_seq (straddle_spec hpath h.sorted (address - 4)) ?_
  intro i t hi
  obtain ⟨rfl, l₁, l₂, rfl, hprevious, hnext, hbefore, hafter⟩ := hi
  refine wp_seq (insertBlock_spec h bounded hused hbefore hafter fits i.1 hprevious) ?_
  intro u t ht
  obtain ⟨l, hblocks, hwithin⟩ := ht
  exact joinNext_spec hblocks bounded hwithin i.2 hnext

/-! ## Runs -/

/-- What the callers keep to: they give back what they have, and write to what they have. -/
def Allowed (s : State) : Event → Prop
  | .alloc _ => True
  | .free address => address = 0 ∨ address - 4 ∈ s.live
  | .store a _ => ∃ b ∈ s.live, (memoryOf b).toNat ≤ a.toNat ∧ a.toNat + 4 ≤ s.stop b

/-- The requests that the allocator can serve: rounding a length up to words does not overflow,
and a block given back has room for its link, unless it becomes part of the one before it. -/
def Fits (s : State) : Event → Prop
  | .alloc n => n ≤ 0xFFFFFFFC ∨ s.freelist = 0
  | .free address => address = 0 ∨ s.length (address - 4) ≠ 0 ∨
      ∃ free, Path s.link (pointer 0 s.freelist) free none ∧
        ∃ b ∈ free, s.adjacent b (address - 4) = true
  | .store _ _ => True

/-- The memory `M` as a list of free blocks that do not touch, each with room for its link, in
order of address; nothing has been allocated. -/
structure Fresh (M : Nat → Prop) (s : State) (free : List UInt32) : Prop where
  path : Path s.link (pointer 0 s.freelist) free none
  roomy : ∀ b ∈ free, s.length b ≠ 0
  sorted : free.Pairwise (· < ·)
  gaps : ∀ b ∈ free, ∀ c ∈ free, s.stop b ≠ c.toNat
  tiles : Tiles (free.map s.span) M
  live : s.live = []
  writes : s.writes = []

/-- The free list is in order of address and no two of its blocks are adjacent, free and allocated
blocks tile the memory, and the last call has written nothing outside the memory and nothing to
the memory of an allocated block. -/
structure Sound (M : Nat → Prop) (s : State) (free : List UInt32) : Prop where
  path : Path s.link (pointer 0 s.freelist) free none
  sorted : free.Pairwise (· < ·)
  gaps : ∀ b ∈ free, ∀ c ∈ free, s.adjacent b c = false
  tiles : Tiles ((free ++ s.live).map s.span) M
  writes : ∀ w ∈ s.writes, ∀ x, w.toNat ≤ x → x < w.toNat + 4 →
    M x ∧ ∀ b ∈ s.live, x < (memoryOf b).toNat ∨ s.stop b ≤ x

/-- A block that is answered is one of the caller's own, and at least as long as was asked for. -/
def Usable (t : State) (answer : UInt32) : Event → Prop
  | .alloc n => answer ≠ 0 →
      answer - 4 ∈ t.live ∧ n.toNat ≤ 4 * (t.length (answer - 4)).toNat
  | _ => True

/-- An event whose answer is not looked at. -/
def Event.step (e : Event) : Heap Unit := do
  let _ ← e.run

/-- Bytes of headers and links belong to the memory, but to no caller. -/
theorem Blocks.writes (h : Blocks M none s free) (bounded : Bounded M) (within : Within s free) :
    ∀ w ∈ s.writes, ∀ x, w.toNat ≤ x → x < w.toNat + 4 →
      M x ∧ ∀ b ∈ s.live, x < (memoryOf b).toNat ∨ s.stop b ≤ x := by
  intro w hw x hx hx'
  obtain ⟨y, hy, hfirst, hlast, howner⟩ : ∃ y ∈ free ++ s.live, y.toNat ≤ x ∧ x < s.stop y ∧
      (y ∈ s.live → x < y.toNat + 4) := by
    rcases within w hw with ⟨b, hb, hwb⟩ | hlive
    · have hb' := List.mem_append_left s.live hb
      have hlink := h.toNat_link bounded hb'
      have hroom := stop_roomy (h.roomy b hb)
      have hnot : b ∈ s.live → x < b.toNat + 4 := fun hlive =>
        absurd rfl ((List.nodup_append.mp h.nodup).2.2 b hb b hlive)
      rcases hwb with rfl | rfl
      · exact ⟨w, hb', by omega, by omega, hnot⟩
      · exact ⟨b, hb', by omega, by omega, hnot⟩
    · have hpos := stop_pos s w
      exact ⟨w, List.mem_append_right free hlive, hx, by omega, fun _ => hx'⟩
  refine ⟨(h.tiles.cover x).mp ⟨s.span y, List.mem_map_of_mem hy, hfirst, hlast⟩, ?_⟩
  intro b hb
  have hb' := List.mem_append_right free hb
  have hlink : (memoryOf b).toNat = b.toNat + 4 := h.toNat_link bounded hb'
  by_cases hyb : y = b
  · have hheader := howner (hyb ▸ hb)
    rw [hyb] at hheader
    exact .inl (by omega)
  · rcases h.apart hy hb' hyb with hle | hle
    · exact .inl (by omega)
    · exact .inr (by omega)

/-- Between calls the blocks neither overlap nor touch, and they tile the heap. -/
theorem Blocks.sound (h : Blocks M none s free) (bounded : Bounded M) (within : Within s free) :
    Sound M s free := by
  refine ⟨h.path, h.sorted, fun b hb c hc => ?_, h.tiles, h.writes bounded within⟩
  refine Bool.eq_false_iff.mpr fun hadj => ?_
  have htouch := (adjacent_iff (h.bounds bounded (List.mem_append_left _ hb)).2).mp hadj
  exact absurd (h.gaps b hb c hc htouch) (by simp)

/-- At the start there is one free block for each area. -/
theorem Fresh.blocks (h : Fresh M s free) : Blocks M none s free := by
  refine ⟨h.path, h.roomy, h.sorted, fun b hb c hc htouch => ?_, ?_⟩
  · exact absurd htouch (h.gaps b hb c hc)
  · rw [h.live, List.append_nil]
    exact h.tiles

/-- Rounding up to words, unless it overflows. -/
theorem bytes_le {n length : UInt32} (hn : n ≤ 0xFFFFFFFC) (h : (n + 3) >>> 2 ≤ length) :
    n.toNat ≤ 4 * length.toNat := by
  rw [UInt32.le_iff_toNat_le, show (0xFFFFFFFC : UInt32).toNat = 0xFFFFFFFC from rfl] at hn
  rw [UInt32.le_iff_toNat_le, UInt32.toNat_shiftRight, show (2 : UInt32).toNat % 32 = 2 from rfl,
    Nat.shiftRight_eq_div_pow, UInt32.toNat_add, show (3 : UInt32).toNat = 3 from rfl] at h
  omega

/-- One event. -/
theorem run_spec (h : Blocks M none s free) (bounded : Bounded M) {e : Event}
    (allowed : Allowed s e) (fits : Fits s e) :
    wp e.run (fun answer t => (∃ free, Blocks M none t free ∧ Within t free) ∧
      Usable t answer e) E s := by
  cases e with
  | alloc n =>
    have hstart : Blocks M none { s with writes := [] } free :=
      ⟨h.path, h.roomy, h.sorted, h.gaps, h.tiles⟩
    rw [Event.run, wp_bind, wp_modify]
    refine wp_seq (kalloc_spec hstart bounded rfl n) ?_
    intro a t ha
    rw [wp_ite]
    rcases ha with ⟨rfl, rfl⟩ | ⟨hlist, c, free, rfl, hlen, hblocks, hwithin⟩
    · refine ⟨fun _ => ⟨⟨free, hstart, fun w hw => ?_⟩, fun hne => absurd rfl hne⟩, fun hne => ?_⟩
      · cases hw
      · exact absurd rfl hne
    · have hc : c ∈ free ++ (t.own c).live := List.mem_append_right free List.mem_cons_self
      have hback : memoryOf c - 4 = c := UInt32.add_sub_cancel c 4
      refine ⟨fun hzero => ?_, fun _ => ?_⟩
      · have hlink := hblocks.toNat_link bounded hc
        rw [show c + 4 = 0 from hzero, UInt32.toNat_zero] at hlink
        omega
      · rw [wp_bind, wp_modify, hback]
        exact ⟨⟨free, hblocks, hwithin⟩, fun _ => ⟨by rw [hback]; exact List.mem_cons_self,
          by rw [hback]; exact bytes_le (fits.resolve_right hlist) hlen⟩⟩
  | free address =>
    rw [Event.run, wp_bind, wp_modify]
    by_cases hzero : address = 0
    · rw [if_pos hzero, hzero]
      exact ⟨⟨free, ⟨h.path, h.roomy, h.sorted, h.gaps, h.tiles⟩, fun w hw => by cases hw⟩, trivial⟩
    · rw [if_neg hzero]
      refine wp_seq (kfree_spec h bounded hzero (allowed.resolve_left hzero) ?_) ?_
      · refine (fits.resolve_left hzero).imp_right fun htouch => ?_
        obtain ⟨l, hl, b, hb, hadj⟩ := htouch
        rw [hl.unique h.path] at hb
        exact ⟨b, hb, (adjacent_iff (h.bounds bounded (List.mem_append_left _ hb)).2).mp hadj⟩
      · intro _ t ht
        exact ⟨ht, trivial⟩
  | store a value =>
    obtain ⟨b, hb, hfirst, hlast⟩ := allowed
    have hlink := h.toNat_link bounded (List.mem_append_right free hb)
    rw [memoryOf, hlink] at hfirst
    refine ⟨⟨free, h.store bounded hb hfirst (by omega) rfl rfl ?_, fun w hw => ?_⟩, trivial⟩
    · exact fun x hx => Function.update_of_ne hx _ _
    · cases hw

/-- **Blocks never overlap and coalesce fully.** -/
theorem blocks_stay_apart (bounded : Bounded M) (start : Fresh M s free) {tr : List (State × Event)}
    (run : Runs Event.step (fun s e => Allowed s e ∧ Fits s e) s tr t) :
    (∃ free, Sound M t free) ∧ ∀ e, Allowed t e → Fits t e →
      wp e.run (fun answer t => (∃ free, Sound M t free) ∧ Usable t answer e)
        (fun _ => False) t := by
  have hkept : ∃ free, Blocks M none t free ∧ Within t free := by
    refine run.invariant (I := fun t => ∃ free, Blocks M none t free ∧ Within t free)
      ⟨free, start.blocks, fun w hw => ?_⟩ ?_
    · rw [start.writes] at hw
      cases hw
    · intro s e hs hgood
      obtain ⟨free, hblocks, -⟩ := hs
      refine wp_seq (run_spec hblocks bounded hgood.1 hgood.2) ?_
      intro _ t ht
      exact ht.1
  obtain ⟨free, hblocks, hwithin⟩ := hkept
  refine ⟨⟨free, hblocks.sound bounded hwithin⟩, fun e allowed fits => ?_⟩
  refine wp_mono (run_spec hblocks bounded allowed fits) ?_ fun _ he => he
  intro answer u hu
  obtain ⟨⟨free, hblocks, hwithin⟩, husable⟩ := hu
  exact ⟨⟨free, hblocks.sound bounded hwithin⟩, husable⟩

/-! ## A heap of eleven words -/

/-- One free block of ten words and its header. -/
def elevenWords : State where
  freelist := 0x1000
  mem := fun a => if a = 0x1000 then 10 else 0
  writes := []
  live := []

def ElevenWords (w : Nat) : Prop := 0x1000 ≤ w ∧ w < 0x102C

/-- The memory of the example ends well below the last address. -/
theorem elevenWords_bounded : Bounded ElevenWords := by
  intro w hw
  rw [ElevenWords] at hw
  omega

/-- It starts as one block. -/
theorem elevenWords_fresh : Fresh ElevenWords elevenWords [0x1000] := by
  have hlength : elevenWords.length 0x1000 = 10 := rfl
  have hstop : elevenWords.stop 0x1000 = 0x102C := rfl
  refine ⟨⟨rfl, rfl⟩, fun b hb => ?_, List.pairwise_singleton _ _, fun b hb c hc => ?_,
    ⟨fun x hx => ?_, List.pairwise_singleton _ _, fun w => ?_⟩, rfl, rfl⟩
  · rw [List.mem_singleton.mp hb, hlength]
    decide
  · rw [List.mem_singleton.mp hb, List.mem_singleton.mp hc, hstop]
    decide
  · rw [List.mem_singleton.mp hx]
    exact Nat.lt_of_lt_of_le (Nat.lt_add_of_pos_right (by decide)) (stop_pos elevenWords 0x1000)
  · simp only [List.map_cons, List.map_nil, List.mem_singleton, exists_eq_left]
    exact Iff.rfl

/-- Two blocks are allocated, the first is stored into and given back, a third is allocated, and the
second, which lies between it and the free one, is given back too. -/
theorem blocks_stay_apart_some : ∃ tr t, tr.map Prod.snd =
      [.alloc 8, .alloc 4, .store 0x1024 7, .free 0x1024, .alloc 2, .free 0x101C] ∧
    Runs Event.step (fun s e => Allowed s e ∧ Fits s e) elevenWords tr t ∧ t.live = [0x1010] ∧
    ∃ free, Sound ElevenWords t free := by
  obtain ⟨s₁, s₂, s₃, s₄, s₅, t, h₁, h₂, h₃, h₄, h₅, h₆, hlive₂, hstop₂, hlive₃, hlen₃, hlive₅,
      hlen₅, hlive⟩ : ∃ s₁ s₂ s₃ s₄ s₅ t, Event.step (.alloc 8) elevenWords = .ok ((), s₁) ∧
      Event.step (.alloc 4) s₁ = .ok ((), s₂) ∧
      Event.step (.store 0x1024 7) s₂ = .ok ((), s₃) ∧ Event.step (.free 0x1024) s₃ = .ok ((), s₄) ∧
      Event.step (.alloc 2) s₄ = .ok ((), s₅) ∧ Event.step (.free 0x101C) s₅ = .ok ((), t) ∧
      s₂.live = [0x1018, 0x1020] ∧ s₂.stop 0x1020 = 0x102C ∧ s₃.live = [0x1018, 0x1020] ∧
      s₃.length 0x1020 = 2 ∧ s₅.live = [0x1010, 0x1018] ∧ s₅.length 0x1018 = 1 ∧
      t.live = [0x1010] :=
    ⟨_, _, _, _, _, _, rfl, rfl, rfl, rfl, rfl, rfl, rfl, rfl, rfl, rfl, rfl, rfl, rfl⟩
  have hstore : Allowed s₂ (.store 0x1024 7) := by
    refine ⟨0x1020, by rw [hlive₂]; decide, by decide, ?_⟩
    rw [hstop₂]
    decide
  have hfree₃ : Allowed s₃ (.free 0x1024) ∧ Fits s₃ (.free 0x1024) := by
    refine ⟨Or.inr ?_, Or.inr (Or.inl ?_)⟩
    · rw [hlive₃]
      decide
    · rw [show (0x1024 : UInt32) - 4 = 0x1020 by decide, hlen₃]
      decide
  have hfree₅ : Allowed s₅ (.free 0x101C) ∧ Fits s₅ (.free 0x101C) := by
    refine ⟨Or.inr ?_, Or.inr (Or.inl ?_)⟩
    · rw [hlive₅]
      decide
    · rw [show (0x101C : UInt32) - 4 = 0x1018 by decide, hlen₅]
      decide
  have hfits : ∀ s n, n ≤ 0xFFFFFFFC → Allowed s (.alloc n) ∧ Fits s (.alloc n) :=
    fun _ _ hn => ⟨trivial, .inl hn⟩
  have start : Runs Event.step (fun s e => Allowed s e ∧ Fits s e) elevenWords []
      elevenWords := .nil
  have stored := ((start.snoc (hfits _ 8 (by decide)) h₁).snoc (hfits _ 4 (by decide)) h₂).snoc
    ⟨hstore, trivial⟩ h₃
  have run := ((stored.snoc hfree₃ h₄).snoc (hfits _ 2 (by decide)) h₅).snoc hfree₅ h₆
  exact ⟨_, t, rfl, run, hlive, (blocks_stay_apart elevenWords_bounded elevenWords_fresh run).1⟩

/-- The largest request is answered with a block without any memory; and of two blocks the first,
empty one is given back by writing its link behind the end of the memory. -/
theorem unfit_requests : (∃ t, (Event.alloc 0xFFFFFFFF).run elevenWords = .ok (0x102C, t) ∧
      t.live = [0x1028] ∧ t.length 0x1028 = 0) ∧
    ∃ tr t, Runs Event.step Allowed elevenWords tr t ∧ 0x102C ∈ t.writes ∧
      ¬ ElevenWords (0x102C : UInt32).toNat := by
  refine ⟨⟨_, rfl, rfl, rfl⟩, ?_⟩
  obtain ⟨s, t, u, hs, ht, hu, hlive, hwrites⟩ : ∃ s t u,
      Event.step (.alloc 0) elevenWords = .ok ((), s) ∧ Event.step (.alloc 4) s = .ok ((), t) ∧
      Event.step (.free 0x102C) t = .ok ((), u) ∧ t.live = [0x1020, 0x1028] ∧
      u.writes = [0x102C, 0x1004] := ⟨_, _, _, rfl, rfl, rfl, rfl, rfl⟩
  have hallowed : Allowed t (.free 0x102C) := by
    refine Or.inr ?_
    rw [hlive]
    decide
  refine ⟨_, u, ((Runs.nil.snoc trivial hs).snoc trivial ht).snoc hallowed hu, ?_, ?_⟩
  · rw [hwrites]
    decide
  · intro h
    exact absurd h.2 (by decide)

end Cumulonimbus.Kheap
