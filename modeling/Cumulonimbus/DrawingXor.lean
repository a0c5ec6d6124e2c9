import Cumulonimbus.DrawingPictures

/-!
# Characters that are xored

A character is drawn as 192 pixels, each of them once.  In the xor mode a call therefore xors
every pixel of the cell with its pixel of the font, and nothing else, so a second call takes the
character away again.
-/

namespace Cumulonimbus.Drawing

variable {font : UInt32 → Nat → Nat → UInt8} {dm buf a : UInt32} {s : State}
  {strokes : List Stroke} {x y : UInt32} {c : UInt8} {k : Stroke}

/-! ## Strokes that are xored -/

/-- What strokes add up to at an address. -/
def ink (buf : UInt32) (strokes : List Stroke) (a : UInt32) : UInt16 :=
  ((strokes.filter fun k => getPixelBuf k.x k.y buf = a).map (·.pix)).foldr (· ^^^ ·) 0

/-- One stroke more. -/
theorem ink_cons (k : Stroke) (strokes : List Stroke) :
    ink buf (k :: strokes) a =
      if getPixelBuf k.x k.y buf = a then k.pix ^^^ ink buf strokes a else ink buf strokes a := by
  unfold ink
  rw [List.filter_cons]
  by_cases h : getPixelBuf k.x k.y buf = a
  · rw [if_pos (decide_eq_true h), if_pos h]
    rfl
  · rw [if_neg (by simpa using h), if_neg h]

/-- **In the mode of exclusive or** a pixel changes by the ink that falls there. -/
theorem draw_xor (hmode : dm &&& modeMask = modeXor) :
    (draw buf dm strokes s).mem a = s.mem a ^^^ ink buf strokes a := by
  have hblend (pix old : UInt16) : blend dm pix old = old ^^^ pix := by
    simp [blend, hmode, modeXor, modeFlat]
  induction strokes generalizing s with
  | nil => exact UInt16.xor_zero.symm
  | cons k strokes ih =>
    show (draw buf dm strokes (putPixel buf dm k.pix k.x k.y s)).mem a = _
    rw [ih, ink_cons]
    show Function.update s.mem (getPixelBuf k.x k.y buf) _ a ^^^ _ = _
    by_cases h : getPixelBuf k.x k.y buf = a
    · rw [if_pos h, h, Function.update_self, hblend, UInt16.xor_assoc]
    · rw [if_neg h, Function.update_of_ne (Ne.symm h)]

/-- The same strokes again. -/
theorem draw_xor_twice (hmode : dm &&& modeMask = modeXor) :
    (draw buf dm strokes (draw buf dm strokes s)).mem = s.mem := by
  funext a
  rw [draw_xor hmode, draw_xor hmode, UInt16.xor_assoc, UInt16.xor_self, UInt16.xor_zero]

/-- Where no stroke falls there is no ink. -/
theorem ink_of_forall_ne (h : ∀ k ∈ strokes, getPixelBuf k.x k.y buf ≠ a) :
    ink buf strokes a = 0 := by
  unfold ink
  rw [List.filter_eq_nil_iff.mpr fun k hk => by simpa using h k hk]
  rfl

/-- A pixel that is drawn once. -/
theorem ink_of_nodup (buf : UInt32)
    (hnodup : (strokes.map fun k => getPixelBuf k.x k.y buf).Nodup) (hk : k ∈ strokes) :
    ink buf strokes (getPixelBuf k.x k.y buf) = k.pix := by
  induction strokes with
  | nil => cases hk
  | cons k' strokes ih =>
    obtain ⟨hnew, hnodup⟩ := List.nodup_cons.mp hnodup
    rw [ink_cons]
    rcases List.mem_cons.mp hk with rfl | hk
    · rw [if_pos rfl, ink_of_forall_ne, UInt16.xor_zero]
      intro k' hk' heq
      exact hnew (List.mem_map.mpr ⟨k', hk', heq⟩)
    · rw [if_neg, ih hnodup hk]
      intro heq
      exact hnew (List.mem_map.mpr ⟨k, hk, heq.symm⟩)

/-! ## The pixels of a cell -/

/-- Where the four pixels lie in the cell that a pixel of the font is drawn as. -/
def block (i j : Nat) : List (Nat × Nat) :=
  [(2 * j, 2 * i), (2 * j, 2 * i + 1), (2 * j + 1, 2 * i), (2 * j + 1, 2 * i + 1)]

/-- Where all pixels do, in the order in which they are drawn. -/
def offsets : List (Nat × Nat) :=
  (List.range 8).flatMap fun i => (List.range 6).flatMap (block i)

/-- A block is two by two pixels. -/
theorem mem_block {i j : Nat} {o : Nat × Nat} (h : o ∈ block i j) : o.2 / 2 = i ∧ o.1 / 2 = j := by
  simp only [block, List.mem_cons, List.not_mem_nil, or_false] at h
  rcases h with rfl | rfl | rfl | rfl <;> dsimp only <;> omega

/-- No pixel of a character is drawn twice. -/
theorem offsets_nodup : offsets.Nodup := by
  have hblock (i j : Nat) : (block i j).Nodup := by simp [block]
  refine List.nodup_flatMap.mpr ⟨fun i _ => List.nodup_flatMap.mpr ⟨fun j _ => hblock i j, ?_⟩, ?_⟩
  · refine List.nodup_range.imp fun hne => List.disjoint_left.mpr fun o ho ho' => hne ?_
    exact (mem_block ho).2.symm.trans (mem_block ho').2
  · refine List.nodup_range.imp fun hne => List.disjoint_left.mpr fun o ho ho' => hne ?_
    obtain ⟨_, -, ho⟩ := List.mem_flatMap.mp ho
    obtain ⟨_, -, ho'⟩ := List.mem_flatMap.mp ho'
    exact (mem_block ho).1.symm.trans (mem_block ho').1

/-- Where the strokes of a character are. -/
theorem cell_offsets (hx : x.toNat ≤ 2000) (hy : y.toNat ≤ 2000) :
    (cell font dm x y c).map (fun k => (k.x.toNat, k.y.toNat)) =
      offsets.map fun o => (x.toNat + o.1, y.toNat + o.2) := by
  unfold cell offsets block
  simp only [List.map_flatMap]
  refine List.flatMap_congr fun i hi => List.flatMap_congr fun j hj => ?_
  rw [List.mem_range] at hi hj
  have hi' := shift_toNat i hi
  have hj' := shift_toNat j (by omega)
  simp only [List.map_cons, List.map_nil, UInt32.toNat_add, UInt32.toNat_one, hi', hj']
  refine List.cons_eq_cons.mpr ⟨?_, List.cons_eq_cons.mpr ⟨?_, List.cons_eq_cons.mpr
    ⟨?_, List.cons_eq_cons.mpr ⟨?_, rfl⟩⟩⟩⟩ <;> ext <;> dsimp only <;> omega

/-- Pixels of the screen have addresses of their own. -/
theorem getPixelBuf_inj {column row column' row' : UInt32} (hcolumn : column.toNat < 1280)
    (hcolumn' : column'.toNat < 1280) (hrow : row.toNat < 1024) (hrow' : row'.toNat < 1024)
    (h : getPixelBuf column row buf = getPixelBuf column' row' buf) :
    column = column' ∧ row = row' := by
  rw [getPixelBuf_eq ⟨column, row, 0⟩, getPixelBuf_eq ⟨column', row', 0⟩] at h
  have hplace : row.toNat * 1280 + column.toNat = row'.toNat * 1280 + column'.toNat := by
    exact pixelAddr_inj (by omega) (by omega) h
  exact ⟨UInt32.toNat_inj.mp (by omega), UInt32.toNat_inj.mp (by omega)⟩

/-- The 192 addresses of a call are different. -/
theorem cell_nodup (hx : x.toNat + 12 ≤ 1280) (hy : y.toNat + 16 ≤ 1024) :
    ((cell font dm x y c).map fun k => getPixelBuf k.x k.y buf).Nodup := by
  have hplaces : ((cell font dm x y c).map fun k => (k.x.toNat, k.y.toNat)).Nodup := by
    rw [cell_offsets (by omega) (by omega)]
    refine offsets_nodup.map fun o o' h => ?_
    obtain ⟨hcolumn, hrow⟩ := Prod.mk.inj h
    ext <;> omega
  refine List.pairwise_map.mpr ((List.pairwise_map.mp hplaces).imp_of_mem ?_)
  intro k k' hk hk' hne heq
  have hbounds := cell_bounds (by omega) (by omega) hk
  have hbounds' := cell_bounds (by omega) (by omega) hk'
  obtain ⟨hcolumn, hrow⟩ := getPixelBuf_inj (by omega) (by omega) (by omega) (by omega) heq
  rw [hcolumn, hrow] at hne
  exact hne rfl

/-- Each pixel of the cell is drawn, with half of its column and of its row in the font. -/
theorem exists_stroke {column row : UInt32} (hx : x.toNat + 12 ≤ 1280) (hy : y.toNat + 16 ≤ 1024)
    (hcolumn : x.toNat ≤ column.toNat ∧ column.toNat < x.toNat + 12)
    (hrow : y.toNat ≤ row.toNat ∧ row.toNat < y.toNat + 16) :
    (⟨column, row, fontPixel font c dm ((row.toNat - y.toNat) / 2)
      ((column.toNat - x.toNat) / 2)⟩ : Stroke) ∈ cell font dm x y c := by
  have hi := shift_toNat ((row.toNat - y.toNat) / 2) (by omega)
  have hj := shift_toNat ((column.toNat - x.toNat) / 2) (by omega)
  refine List.mem_flatMap.mpr ⟨(row.toNat - y.toNat) / 2, List.mem_range.mpr (by omega),
    List.mem_flatMap.mpr ⟨(column.toNat - x.toNat) / 2, List.mem_range.mpr (by omega), ?_⟩⟩
  have hrows : row.toNat = y.toNat + 2 * ((row.toNat - y.toNat) / 2) ∨
      row.toNat = y.toNat + 1 + 2 * ((row.toNat - y.toNat) / 2) := by omega
  have hcolumns : column.toNat = x.toNat + 2 * ((column.toNat - x.toNat) / 2) ∨
      column.toNat = x.toNat + 1 + 2 * ((column.toNat - x.toNat) / 2) := by omega
  generalize (row.toNat - y.toNat) / 2 = i at *
  generalize (column.toNat - x.toNat) / 2 = j at *
  have hcolumn₀ : (x + UInt32.ofNat j <<< 1).toNat = x.toNat + 2 * j := by
    rw [UInt32.toNat_add, hj]
    omega
  have hcolumn₁ : (x + (1 : UInt32) + UInt32.ofNat j <<< (1 : UInt32)).toNat =
      x.toNat + 1 + 2 * j := by
    rw [UInt32.toNat_add, UInt32.toNat_add, hj, UInt32.toNat_one]
    omega
  have hrow₀ : (y + UInt32.ofNat i <<< 1).toNat = y.toNat + 2 * i := by
    rw [UInt32.toNat_add, hi]
    omega
  have hrow₁ : (y + (1 : UInt32) + UInt32.ofNat i <<< (1 : UInt32)).toNat =
      y.toNat + 1 + 2 * i := by
    rw [UInt32.toNat_add, UInt32.toNat_add, hi, UInt32.toNat_one]
    omega
  simp only [List.mem_cons, List.not_mem_nil, or_false, Stroke.mk.injEq, and_true,
    ← UInt32.toNat_inj, hcolumn₀, hcolumn₁, hrow₀, hrow₁]
  rcases hcolumns with hcolumn | hcolumn <;> rcases hrows with hrow | hrow
  · exact Or.inl ⟨hcolumn, hrow⟩
  · exact Or.inr (Or.inl ⟨hcolumn, hrow⟩)
  · exact Or.inr (Or.inr (Or.inl ⟨hcolumn, hrow⟩))
  · exact Or.inr (Or.inr (Or.inr ⟨hcolumn, hrow⟩))

/-! ## A call -/

/-- The cell of a character lies inside a buffer. -/
def CellFits (x y : Int32) : Prop :=
  0 ≤ x.toInt ∧ x.toInt + 12 ≤ 1280 ∧ 0 ≤ y.toInt ∧ y.toInt + 16 ≤ 1024

/-- A pixel of that cell. -/
def InCell (x y : Int32) (column row : UInt32) : Prop :=
  (x.toInt ≤ column.toNat ∧ column.toNat < x.toInt + 12) ∧
    y.toInt ≤ row.toNat ∧ row.toNat < y.toInt + 16

/-- A coordinate that is not negative keeps its value. -/
theorem toUInt32_toNat {x : Int32} (h : 0 ≤ x.toInt) : (x.toUInt32.toNat : Int) = x.toInt := by
  have hle : 0 ≤ x := Int32.le_iff_toInt_le.mpr h
  rw [Int32.toNat_toUInt32_of_le hle, Int32.toInt_eq_toNatClampNeg hle]

/-- **What a call in the xor mode does**, pixel by pixel. -/
theorem gsPutcAtBuf_xor (hmode : dm &&& modeMask = modeXor) {x y : Int32} (hfits : CellFits x y)
    {column row : UInt32} (hcolumn : column < vesaXResolution) (hrow : row < vesaYResolution) :
    (InCell x y column row →
      (gsPutcAtBuf font x y c buf dm s).mem (getPixelBuf column row buf) =
        s.mem (getPixelBuf column row buf) ^^^ fontPixel font c dm
          ((row.toNat - y.toUInt32.toNat) / 2) ((column.toNat - x.toUInt32.toNat) / 2)) ∧
    (¬ InCell x y column row →
      (gsPutcAtBuf font x y c buf dm s).mem (getPixelBuf column row buf) =
        s.mem (getPixelBuf column row buf)) := by
  obtain ⟨hx, hx', hy, hy'⟩ := hfits
  have hxnat := toUInt32_toNat hx
  have hynat := toUInt32_toNat hy
  have hcolumn' : column.toNat < 1280 := UInt32.lt_iff_toNat_lt.mp hcolumn
  have hrow' : row.toNat < 1024 := UInt32.lt_iff_toNat_lt.mp hrow
  rw [gsPutcAtBuf_eq, draw_xor hmode]
  unfold InCell
  constructor
  · intro hcell
    have hstroke : ⟨column, row, fontPixel font c dm ((row.toNat - y.toUInt32.toNat) / 2)
        ((column.toNat - x.toUInt32.toNat) / 2)⟩ ∈ cell font dm x.toUInt32 y.toUInt32 c :=
      exists_stroke (by omega) (by omega) (by omega) (by omega)
    have hink := ink_of_nodup buf (cell_nodup (by omega) (by omega)) hstroke
    rw [hink]
  · intro houtside
    rw [ink_of_forall_ne, UInt16.xor_zero]
    intro k hk heq
    have hbounds := cell_bounds (by omega) (by omega) hk
    obtain ⟨rfl, rfl⟩ := getPixelBuf_inj (by omega) hcolumn' (by omega) hrow' heq
    omega

/-- **Xored text is its own inverse**: the second of two calls with the same arguments restores the
frame buffer, and all the rest of the memory, and one call changes pixels of its cell only. -/
theorem xor_text_restores (font : UInt32 → Nat → Nat → UInt8) {dm : UInt32}
    (hmode : dm &&& modeMask = modeXor) (c : UInt8) (buf : UInt32) {x y : Int32}
    (hfits : CellFits x y) (s : State) :
    (gsPutcAtBuf font x y c buf dm (gsPutcAtBuf font x y c buf dm s)).mem = s.mem ∧
    ∀ column < vesaXResolution, ∀ row < vesaYResolution, ¬ InCell x y column row →
      (gsPutcAtBuf font x y c buf dm s).mem (getPixelBuf column row buf) =
        s.mem (getPixelBuf column row buf) := by
  constructor
  · rw [gsPutcAtBuf_eq, gsPutcAtBuf_eq]
    exact draw_xor_twice hmode
  · intro column hcolumn row hrow
    exact (gsPutcAtBuf_xor hmode hfits hcolumn hrow).2

/-- A letter in the lower right corner, inverted. -/
theorem xor_letter_restores :
    (gsPutcAtBuf (fun _ _ _ => 1) 1268 1008 0x41 0xE0000000 (modeXor ||| modeInvert)
        (gsPutcAtBuf (fun _ _ _ => 1) 1268 1008 0x41 0xE0000000 (modeXor ||| modeInvert)
          blankMemory)).mem = blankMemory.mem ∧
    ∀ column < vesaXResolution, ∀ row < vesaYResolution, ¬ InCell 1268 1008 column row →
      (gsPutcAtBuf (fun _ _ _ => 1) 1268 1008 0x41 0xE0000000 (modeXor ||| modeInvert)
          blankMemory).mem (getPixelBuf column row 0xE0000000) =
        blankMemory.mem (getPixelBuf column row 0xE0000000) :=
  xor_text_restores (fun _ _ _ => 1) (by decide) 0x41 0xE0000000 (by unfold CellFits; decide)
    blankMemory

end Cumulonimbus.Drawing
