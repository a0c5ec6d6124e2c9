import Mathlib.Logic.Function.Iterate
import Cumulonimbus.DrawingText

/-!
# Copying frame buffers

The loops of `gs_draw_buf` and `gs_save_buf` run once for every pixel, and each turn copies two.
So a copy moves twice the bytes of a frame buffer: the second half is read from behind the buffer
and written behind the screen's frame buffer, over its draw mode, its owner, its input buffers and
the next screens.
-/

namespace Cumulonimbus.Drawing

variable {D : Device} {buf buf' dest source : UInt32} {s : State}

/-! ## The loops -/

/-- The turns of both loops. -/
def turns : Nat := 1310720

/-- Two nested loops that do not look at their counters are one. -/
theorem forPixels_eq (body : Copying → Copying) (v : Copying) :
    forPixels body v = Nat.iterate body turns v := by
  unfold forPixels
  simp only [List.foldl_const, List.length_range]
  rw [← Function.iterate_mul]
  rfl

/-- Double pixels, one after the other. -/
def copyRun (n : Nat) (dest source : UInt32) (s : State) : State :=
  (List.range n).foldl (fun s i =>
    copyDouble (pixelAddr dest (2 * i)) (pixelAddr source (2 * i)) s) s

/-- One double pixel more. -/
theorem copyRun_succ (n : Nat) : copyRun (n + 1) dest source s =
    copyDouble (pixelAddr dest (2 * n)) (pixelAddr source (2 * n)) (copyRun n dest source s) := by
  rw [copyRun, List.range_succ, List.foldl_concat]
  rfl

/-- A pixel is two bytes. -/
theorem pixelAddr_succ (buf : UInt32) (p : Nat) :
    pixelAddr buf (p + 1) = pixelAddr buf p + 2 := by
  unfold pixelAddr
  rw [UInt32.ofNat_add, UInt32.mul_add, ← UInt32.add_assoc]
  rfl

/-- A double pixel is four. -/
theorem pixelAddr_next (buf : UInt32) (n : Nat) :
    pixelAddr buf (2 * (n + 1)) = pixelAddr buf (2 * n) + 4 := by
  rw [show 2 * (n + 1) = 2 * n + 1 + 1 by omega, pixelAddr_succ, pixelAddr_succ, UInt32.add_assoc]
  rfl

/-- A picture starts at its first pixel. -/
theorem pixelAddr_zero (buf : UInt32) : pixelAddr buf 0 = buf := UInt32.add_zero buf

/-- After some turns both pointers have moved on by as many double pixels. -/
theorem iterate_turns (act : UInt32 → UInt32 → State → State) (n : Nat) (m b : UInt32)
    (s : State) :
    Nat.iterate (fun v => ⟨v.m + 4, v.b + 4, act v.m v.b v.state⟩) n (⟨m, b, s⟩ : Copying) =
      ⟨pixelAddr m (2 * n), pixelAddr b (2 * n), (List.range n).foldl
        (fun s i => act (pixelAddr m (2 * i)) (pixelAddr b (2 * i)) s) s⟩ := by
  induction n with
  | zero =>
    rw [Nat.mul_zero, pixelAddr_zero, pixelAddr_zero]
    rfl
  | succ n ih =>
    rw [Function.iterate_succ_apply', ih, pixelAddr_next, pixelAddr_next, List.range_succ,
      List.foldl_concat]

/-- The routine copies one double pixel after another. -/
theorem gsDrawBuf_eq : gsDrawBuf D buf s = copyRun turns D.picture buf s := by
  unfold gsDrawBuf
  rw [forPixels_eq, iterate_turns copyDouble, copyRun]

/-! ## What a copy moves -/

/-- Where it reads. -/
theorem copyRun_reads (n : Nat) : (copyRun n dest source s).reads =
    s.reads ++ (List.range n).map fun i => pixelAddr source (2 * i) := by
  induction n with
  | zero => exact (List.append_nil _).symm
  | succ n ih =>
    rw [copyRun_succ, List.range_succ, List.map_append, ← List.append_assoc, ← ih]
    rfl

/-- The first pixels of two buffers share no cell. -/
def Apart (n : Nat) (a b : UInt32) : Prop := ∀ p < n, ∀ q < n, pixelAddr a p ≠ pixelAddr b q

/-- Every turn moves two pixels, and nothing else changes. -/
theorem copyRun_mem {n : Nat} (hn : n ≤ turns) (hapart : Apart (2 * n) dest source) :
    (∀ p < 2 * n, (copyRun n dest source s).mem (pixelAddr dest p) =
      s.mem (pixelAddr source p)) ∧
    ∀ a, (∀ p < 2 * n, a ≠ pixelAddr dest p) → (copyRun n dest source s).mem a = s.mem a := by
  have hturns : turns = 1310720 := rfl
  induction n with
  | zero => exact ⟨fun p hp => absurd hp (by omega), fun _ _ => rfl⟩
  | succ n ih =>
    obtain ⟨hmoved, hkept⟩ := ih (by omega) fun p hp q hq => hapart p (by omega) q (by omega)
    have hsource : ∀ q < 2 * (n + 1),
        (copyRun n dest source s).mem (pixelAddr source q) = s.mem (pixelAddr source q) := by
      intro q hq
      exact hkept _ fun p hp heq => hapart p (by omega) q hq heq.symm
    have hmem : (copyRun (n + 1) dest source s).mem =
        Function.update (Function.update (copyRun n dest source s).mem (pixelAddr dest (2 * n))
          (s.mem (pixelAddr source (2 * n)))) (pixelAddr dest (2 * n + 1))
          (s.mem (pixelAddr source (2 * n + 1))) := by
      rw [← hsource _ (by omega), ← hsource (2 * n + 1) (by omega), copyRun_succ, pixelAddr_succ,
        pixelAddr_succ]
      rfl
    rw [hmem]
    constructor
    · intro p hp
      by_cases hlast : p = 2 * n + 1
      · rw [hlast, Function.update_self]
      rw [Function.update_of_ne fun heq => hlast (pixelAddr_inj (by omega) (by omega) heq)]
      by_cases hfirst : p = 2 * n
      · rw [hfirst, Function.update_self]
      rw [Function.update_of_ne fun heq => hfirst (pixelAddr_inj (by omega) (by omega) heq)]
      exact hmoved p (by omega)
    · intro a ha
      rw [Function.update_of_ne (ha _ (by omega)), Function.update_of_ne (ha _ (by omega))]
      exact hkept a fun p hp => ha p (by omega)

/-- The pixels of a frame buffer, and as many behind it. -/
def moved : Nat := 2 * turns

/-- `gs_draw_buf` moves twice what a frame buffer holds. -/
theorem gsDrawBuf_mem (hapart : Apart moved D.picture buf) :
    (∀ p < moved, (gsDrawBuf D buf s).mem (pixelAddr D.picture p) = s.mem (pixelAddr buf p)) ∧
    ∀ a, (∀ p < moved, a ≠ pixelAddr D.picture p) → (gsDrawBuf D buf s).mem a = s.mem a := by
  rw [gsDrawBuf_eq]
  exact copyRun_mem (Nat.le_refl _) hapart

/-- **The damage**: the draw mode and the owner of the caller's screen become what lies behind the
buffer that is drawn. -/
theorem draw_mode_overwritten (hinactive : D.current ≠ D.activeScreen)
    (hapart : Apart moved (D.framebuffer D.current) buf) (k : Nat) (hk : k < 8) :
    (gsDrawBuf D buf s).mem
        (pixelAddr (D.framebuffer D.current + framebufferSize) k) =
      s.mem (pixelAddr (buf + framebufferSize) k) := by
  have hpicture : D.picture = D.framebuffer D.current := if_neg hinactive
  have hbehind (b : UInt32) : pixelAddr (b + framebufferSize) k = pixelAddr b (turns + k) := by
    unfold pixelAddr
    rw [UInt32.ofNat_add, UInt32.mul_add, ← UInt32.add_assoc]
    rfl
  have hlt : turns + k < moved := by
    rw [moved, show turns = 1310720 from rfl]
    omega
  rw [← hpicture] at hapart ⊢
  rw [hbehind, hbehind]
  exact (gsDrawBuf_mem hapart).1 _ hlt

/-! ## Bounds -/

/-- A double pixel lies in the frame buffer at `obj`. -/
def InObject (obj a : UInt32) : Prop := (a - obj).toNat + 4 ≤ framebufferSize.toNat

/-- Drawing `buf` and saving to `buf'` carries the picture over and touches the frame buffers only,
or video memory. -/
structure CopiesExactly (D : Device) (buf buf' : UInt32) (s : State) : Prop where
  roundTrip : ∀ p < 1280 * 1024,
    (gsSaveBuf D buf' (gsDrawBuf D buf s)).mem (pixelAddr buf' p) = s.mem (pixelAddr buf p)
  drawReads : ∀ a ∈ (gsDrawBuf D buf { s with reads := [] }).reads, InObject buf a
  drawWrites : D.current ≠ D.activeScreen →
    ∀ a ∈ (gsDrawBuf D buf { s with writes := [] }).writes, InObject D.picture a
  saveReads : D.current ≠ D.activeScreen →
    ∀ a ∈ (gsSaveBuf D buf' { gsDrawBuf D buf s with reads := [] }).reads, InObject D.picture a
  saveWrites : ∀ a ∈ (gsSaveBuf D buf' { gsDrawBuf D buf s with writes := [] }).writes,
    InObject buf' a
  elsewhere : ∀ a, (∀ p < 1280 * 1024, a ≠ pixelAddr D.picture p) →
    (∀ p < 1280 * 1024, a ≠ pixelAddr buf' p) →
    (gsSaveBuf D buf' (gsDrawBuf D buf s)).mem a = s.mem a

/-- Half of the double pixels that are read lie behind the buffer. -/
theorem draw_reads_behind (D : Device) (buf : UInt32) (s : State) :
    ∃ a ∈ (gsDrawBuf D buf { s with reads := [] }).reads, ¬ InObject buf a := by
  refine ⟨pixelAddr buf (2 * 655360), ?_, ?_⟩
  · rw [gsDrawBuf_eq, copyRun_reads, List.nil_append]
    exact List.mem_map.mpr ⟨655360, List.mem_range.mpr (by decide), rfl⟩
  · unfold InObject pixelAddr
    rw [UInt32.add_comm, UInt32.add_sub_cancel]
    decide

/-- **No copy stays in bounds.** -/
theorem never_copies_exactly (D : Device) (buf buf' : UInt32) (s : State) :
    ¬ CopiesExactly D buf buf' s := by
  intro h
  obtain ⟨a, ha, hbehind⟩ := draw_reads_behind D buf s
  exact hbehind (h.drawReads a ha)

/-- A buffer of zeros, with a seven behind it. -/
def sevenBehind : State :=
  { blankMemory with mem := fun a => if a = 0xb00000 + framebufferSize then 7 else 0 }

/-- The seven becomes the draw mode of the caller's screen. -/
theorem draw_mode_seven : ¬ CopiesExactly background 0xb00000 0x1200000 sevenBehind ∧
    sevenBehind.mem (background.framebuffer background.current + framebufferSize) = 0 ∧
    (gsDrawBuf background 0xb00000 sevenBehind).mem
      (background.framebuffer background.current + framebufferSize) = 7 := by
  refine ⟨?_, by decide, ?_⟩
  · intro h
    obtain ⟨a, ha, hbehind⟩ := draw_reads_behind background 0xb00000 sevenBehind
    exact hbehind (h.drawReads a ha)
  · have hapart : Apart moved (background.framebuffer background.current) 0xb00000 := by
      intro p hp q hq heq
      have hnat := congrArg UInt32.toNat heq
      have hfb : (background.framebuffer background.current).toNat = 0x4801b0 := by decide
      have hmoved : moved = 2621440 := rfl
      unfold pixelAddr at hnat
      rw [UInt32.toNat_add, UInt32.toNat_add, UInt32.toNat_mul, UInt32.toNat_mul,
        UInt32.toNat_ofNat', UInt32.toNat_ofNat', hfb, show (2 : UInt32).toNat = 2 by decide,
        show (0xb00000 : UInt32).toNat = 0xb00000 by decide] at hnat
      omega
    have hmode := draw_mode_overwritten (s := sevenBehind) (by decide) hapart 0 (by decide)
    rw [pixelAddr_zero, pixelAddr_zero] at hmode
    rw [hmode]
    decide

end Cumulonimbus.Drawing
