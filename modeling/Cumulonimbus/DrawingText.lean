import Cumulonimbus.Drawing

/-!
# Where text is drawn

Drawing text is a list of strokes, one for each pixel that is written.  Both text routines move
their pen alike, so they place the characters of a string alike; one draws each character where
it is placed, and the other twelve columns to the right.  The tests before a character look at its
upper left corner, so the last cell of a line that is too long, and the cells of a line that is
too low, cross the edge of the screen.
-/

namespace Cumulonimbus.Drawing

/-! ## Strokes -/

/-- A pixel that is written. -/
structure Stroke where
  x : UInt32
  y : UInt32
  pix : UInt16

/-- The strokes of the cell of a character. -/
def cell (font : UInt32 → Nat → Nat → UInt8) (dm x y : UInt32) (c : UInt8) : List Stroke :=
  (List.range 8).flatMap fun i => (List.range 6).flatMap fun j =>
    let pix := fontPixel font c dm i j
    let i := UInt32.ofNat i <<< 1
    let j := UInt32.ofNat j <<< 1
    [⟨x + j, y + i, pix⟩, ⟨x + j, y + 1 + i, pix⟩, ⟨x + 1 + j, y + i, pix⟩,
      ⟨x + 1 + j, y + 1 + i, pix⟩]

/-- Strokes on a buffer. -/
def draw (buf dm : UInt32) (strokes : List Stroke) (s : State) : State :=
  strokes.foldl (fun s k => putPixel buf dm k.pix k.x k.y s) s

variable {font : UInt32 → Nat → Nat → UInt8} {D : Device} {dm buf : UInt32} {s : State}

/-- Drawing some strokes and then others. -/
theorem draw_append (strokes strokes' : List Stroke) :
    draw buf dm (strokes ++ strokes') s = draw buf dm strokes' (draw buf dm strokes s) :=
  List.foldl_append

/-- A character is the strokes of its cell. -/
theorem gsPutcAtBuf_eq (x y : Int32) (c : UInt8) :
    gsPutcAtBuf font x y c buf dm s = draw buf dm (cell font dm x.toUInt32 y.toUInt32 c) s := by
  unfold gsPutcAtBuf draw cell
  simp only [List.foldl_flatMap]
  rfl

/-- The record of what has been drawn. -/
theorem drawn_draw (strokes : List Stroke) :
    (draw buf dm strokes s).drawn = s.drawn ++ strokes.map fun k => (k.x, k.y) := by
  induction strokes generalizing s with
  | nil => exact (List.append_nil _).symm
  | cons k strokes ih =>
    show (draw buf dm strokes (putPixel buf dm k.pix k.x k.y s)).drawn = _
    rw [ih]
    show (s.drawn ++ [(k.x, k.y)]) ++ _ = _
    rw [List.append_assoc]
    rfl

/-! ## The layout of a string -/

/-- A character and where the pen was. -/
structure Placed where
  x : Int32
  y : Int32
  ch : UInt8

/-- The places of the characters of a string. -/
def layout : List UInt8 → Int32 → Int32 → List Placed
  | [], _, _ => []
  | ch :: str, x, y =>
    if ch = 0x0a then layout str 0 (y + fontCharHeight)
    else if ch = 0x0d then layout str 0 y
    else
      let p := wrap x y
      ⟨p.1, p.2, ch⟩ :: layout str (p.1 + fontCharWidth) p.2

/-- The strokes of a string whose cells are that many columns to the right of their places. -/
def text (font : UInt32 → Nat → Nat → UInt8) (dm lead : UInt32) (cs : List Placed) :
    List Stroke :=
  cs.flatMap fun c => cell font dm (c.x.toUInt32 + lead) c.y.toUInt32 c.ch

/-- So it is on the caller's screen. -/
theorem gsPutcAt_eq (D : Device) (x y : Int32) (c : UInt8) :
    gsPutcAt font D x y c dm s =
      draw D.picture dm (cell font dm x.toUInt32 y.toUInt32 c) s := by
  unfold gsPutcAt Device.picture
  split
  · exact gsPutcAtBuf_eq ..
  · exact gsPutcAtBuf_eq ..

/-- `gs_puts_at` draws the characters where they are placed. -/
theorem gsPutsAt_eq (str : List UInt8) (x y : Int32) :
    gsPutsAt font D dm str x y s = draw D.picture dm (text font dm 0 (layout str x y)) s := by
  induction str generalizing x y s with
  | nil => rfl
  | cons ch str ih =>
    unfold gsPutsAt layout
    split_ifs
    · exact ih _ _
    · exact ih _ _
    · rw [ih, gsPutcAt_eq, text, text, List.flatMap_cons, draw_append, UInt32.add_zero]

/-- `gs_puts_at_buf` draws them a character's width to the right. -/
theorem gsPutsAtBuf_eq (str : List UInt8) (x y : Int32) :
    gsPutsAtBuf font buf dm str x y s = draw buf dm (text font dm 12 (layout str x y)) s := by
  induction str generalizing x y s with
  | nil => rfl
  | cons ch str ih =>
    unfold gsPutsAtBuf layout
    split_ifs
    · exact ih _ _
    · exact ih _ _
    · dsimp only
      rw [ih, gsPutcAtBuf_eq, text, text, List.flatMap_cons, draw_append]
      rfl

/-! ## The edges of the screen -/

/-- A pixel of the screen, by its column and row. -/
def Visible (k : UInt32 × UInt32) : Prop := k.1 < vesaXResolution ∧ k.2 < vesaYResolution

/-- No run of characters without a line end is longer than what fits: the first one than `room`,
the others than `full`. -/
def SegmentsFit (full : Nat) : Nat → List UInt8 → Prop
  | _, [] => True
  | room, ch :: str =>
    if ch = 0x0a ∨ ch = 0x0d then SegmentsFit full full str
    else room ≠ 0 ∧ SegmentsFit full (room - 1) str

/-- No line with text starts below row 1008, but for those that start below row 1024: their text
goes to the top. -/
def RowsFit : UInt32 → List UInt8 → Prop
  | _, [] => True
  | row, ch :: str =>
    if ch = 0x0a then RowsFit (row + 16) str
    else if ch = 0x0d then RowsFit row str
    else if 1024 < row then RowsFit 0 str
    else row ≤ 1008 ∧ RowsFit row str

instance decidableSegmentsFit (full : Nat) :
    (room : Nat) → (str : List UInt8) → Decidable (SegmentsFit full room str)
  | _, [] => isTrue trivial
  | room, ch :: str =>
    have := decidableSegmentsFit full full str
    have := decidableSegmentsFit full (room - 1) str
    inferInstanceAs (Decidable (if ch = 0x0a ∨ ch = 0x0d then SegmentsFit full full str
      else room ≠ 0 ∧ SegmentsFit full (room - 1) str))

instance decidableRowsFit : (row : UInt32) → (str : List UInt8) → Decidable (RowsFit row str)
  | _, [] => isTrue trivial
  | row, ch :: str =>
    have := decidableRowsFit (row + 16) str
    have := decidableRowsFit 0 str
    have := decidableRowsFit row str
    inferInstanceAs (Decidable (if ch = 0x0a then RowsFit (row + 16) str
      else if ch = 0x0d then RowsFit row str
      else if 1024 < row then RowsFit 0 str
      else row ≤ 1008 ∧ RowsFit row str))

variable {x y : UInt32}

/-- `i<<1`, for the rows and columns of the font. -/
theorem shift_toNat : ∀ i < 8, (UInt32.ofNat i <<< 1).toNat = 2 * i := by decide

/-- The pixels of a cell. -/
theorem cell_bounds {c : UInt8} {k : Stroke} (hx : x.toNat ≤ 2000) (hy : y.toNat ≤ 2000)
    (hk : k ∈ cell font dm x y c) :
    x.toNat ≤ k.x.toNat ∧ k.x.toNat ≤ x.toNat + 11 ∧
      y.toNat ≤ k.y.toNat ∧ k.y.toNat ≤ y.toNat + 15 := by
  obtain ⟨i, hi, hk⟩ := List.mem_flatMap.mp hk
  obtain ⟨j, hj, hk⟩ := List.mem_flatMap.mp hk
  rw [List.mem_range] at hi hj
  have hi' := shift_toNat i hi
  have hj' := shift_toNat j (by omega)
  simp only [List.mem_cons, List.not_mem_nil, or_false] at hk
  rcases hk with rfl | rfl | rfl | rfl
  all_goals
    simp only [UInt32.toNat_add, UInt32.toNat_one, hi', hj']
    omega

/-- The lower right pixel. -/
theorem cell_corner (c : UInt8) (hx : x.toNat ≤ 2000) (hy : y.toNat ≤ 2000) :
    ∃ k ∈ cell font dm x y c, k.x.toNat = x.toNat + 11 ∧ k.y.toNat = y.toNat + 15 := by
  have hj := shift_toNat 5 (by decide)
  have hi := shift_toNat 7 (by decide)
  refine ⟨_, List.mem_flatMap.mpr ⟨7, by simp, List.mem_flatMap.mpr ⟨5, by simp,
    List.mem_cons_of_mem _ (List.mem_cons_of_mem _ (List.mem_cons_of_mem _ List.mem_cons_self))⟩⟩,
    ?_, ?_⟩
  · rw [UInt32.toNat_add, UInt32.toNat_add, hj, UInt32.toNat_one]
    omega
  · rw [UInt32.toNat_add, UInt32.toNat_add, hi, UInt32.toNat_one]
    omega

/-- A cell lies on the screen. -/
theorem cell_visible_iff (c : UInt8) (hx : x.toNat ≤ 2000) (hy : y.toNat ≤ 2000) :
    (∀ k ∈ cell font dm x y c, Visible (k.x, k.y)) ↔
      x.toNat + 12 ≤ 1280 ∧ y.toNat + 16 ≤ 1024 := by
  have hvisible (k : Stroke) : Visible (k.x, k.y) ↔ k.x.toNat < 1280 ∧ k.y.toNat < 1024 :=
    and_congr UInt32.lt_iff_toNat_lt UInt32.lt_iff_toNat_lt
  constructor
  · intro hall
    obtain ⟨k, hk, hkx, hky⟩ := cell_corner c hx hy
    have hcorner := (hvisible k).mp (hall k hk)
    omega
  · intro hfits k hk
    have hbounds := cell_bounds hx hy hk
    exact (hvisible k).mpr (by omega)

/-- What the tests before a character do to a pen that is not beyond the right edge. -/
theorem wrap_eq {x y : Int32} (hx : x.toUInt32.toNat ≤ 1280) :
    wrap x y = if 1024 < y.toUInt32 then (0, 0) else (x, y) := by
  have hle : ¬ vesaXResolution < x.toUInt32 := by
    rw [UInt32.lt_iff_toNat_lt]
    exact Nat.not_lt.mpr hx
  unfold wrap
  rw [if_neg hle]
  rfl

/-- A text is visible if each of its characters is. -/
theorem text_cons_visible_iff {lead : UInt32} (c : Placed) (cs : List Placed) :
    (∀ k ∈ text font dm lead (c :: cs), Visible (k.x, k.y)) ↔
      (∀ k ∈ cell font dm (c.x.toUInt32 + lead) c.y.toUInt32 c.ch, Visible (k.x, k.y)) ∧
        ∀ k ∈ text font dm lead cs, Visible (k.x, k.y) := by
  rw [text, List.flatMap_cons, List.forall_mem_append]
  rfl

/-- All cells of a string lie on the screen if and only if its lines are short enough and none of
them starts in the wrong place.  `lead` is the distance between places and cells. -/
theorem text_visible_iff {lead : UInt32} (hlead : lead.toNat ≤ 12) (str : List UInt8)
    (x y : Int32) (hx : x.toUInt32.toNat ≤ 1280) (hlow : 1024 < y.toUInt32 → x = 0) :
    (∀ k ∈ text font dm lead (layout str x y), Visible (k.x, k.y)) ↔
      SegmentsFit ((1280 - lead.toNat) / 12) ((1280 - lead.toNat - x.toUInt32.toNat) / 12) str ∧
        RowsFit y.toUInt32 str := by
  induction str generalizing x y with
  | nil => simp [layout, text, SegmentsFit, RowsFit]
  | cons ch str ih =>
    unfold layout SegmentsFit RowsFit
    by_cases hnewline : ch = 0x0a
    · rw [if_pos hnewline, if_pos (Or.inl hnewline), if_pos hnewline]
      exact ih 0 _ (by decide) fun _ => rfl
    by_cases hreturn : ch = 0x0d
    · rw [if_neg hnewline, if_pos hreturn, if_pos (Or.inr hreturn), if_neg hnewline, if_pos hreturn]
      exact ih 0 _ (by decide) fun _ => rfl
    rw [if_neg hnewline, if_neg hreturn, if_neg (not_or.mpr ⟨hnewline, hreturn⟩), if_neg hnewline,
      if_neg hreturn, wrap_eq hx]
    have hwidth : fontCharWidth.toUInt32.toNat = 12 := by decide
    by_cases hbelow : 1024 < y.toUInt32
    · -- the pen goes to the top
      obtain rfl := hlow hbelow
      have hzero : (0 : Int32).toUInt32.toNat = 0 := by decide
      have hnext : (0 + fontCharWidth).toUInt32.toNat = 12 := by decide
      have hsum : ((0 : Int32).toUInt32 + lead).toNat = lead.toNat := by
        rw [UInt32.toNat_add, hzero]
        omega
      have hroom : (1280 - lead.toNat - 12) / 12 = (1280 - lead.toNat - 0) / 12 - 1 := by omega
      have hfits : lead.toNat + 12 ≤ 1280 ∧ 0 + 16 ≤ 1024 := by omega
      have hne : (1280 - lead.toNat - 0) / 12 ≠ 0 := by omega
      rw [if_pos hbelow, if_pos hbelow, text_cons_visible_iff]
      dsimp only
      rw [cell_visible_iff _ (by omega) (by decide), ih _ _ (by omega) (by decide), hnext, hzero,
        hsum, hroom, and_iff_right hfits, and_iff_right hne]
      rfl
    · have hy : y.toUInt32.toNat ≤ 1024 := UInt32.le_iff_toNat_le.mp (UInt32.not_lt.mp hbelow)
      have hsum : (x.toUInt32 + lead).toNat = x.toUInt32.toNat + lead.toNat := by
        rw [UInt32.toNat_add]
        omega
      have hrow : y.toUInt32 ≤ 1008 ↔ y.toUInt32.toNat + 16 ≤ 1024 := by
        rw [UInt32.le_iff_toNat_le, show (1008 : UInt32).toNat = 1008 by decide]
        omega
      rw [if_neg hbelow, if_neg hbelow, text_cons_visible_iff]
      dsimp only
      rw [cell_visible_iff _ (by omega) (by omega), hsum, hrow]
      by_cases hfits : x.toUInt32.toNat + lead.toNat + 12 ≤ 1280
      · have hnext : (x + fontCharWidth).toUInt32.toNat = x.toUInt32.toNat + 12 := by
          rw [Int32.toUInt32_add, UInt32.toNat_add, hwidth]
          omega
        have hless : (1280 - lead.toNat - (x.toUInt32.toNat + 12)) / 12 =
            (1280 - lead.toNat - x.toUInt32.toNat) / 12 - 1 := by omega
        have hne : (1280 - lead.toNat - x.toUInt32.toNat) / 12 ≠ 0 := by omega
        rw [ih _ _ (by omega) fun hlt => absurd hlt hbelow, hnext, hless, and_iff_right hfits,
          and_iff_right hne, and_left_comm]
      · have hzero : (1280 - lead.toNat - x.toUInt32.toNat) / 12 = 0 := by omega
        constructor
        · intro h
          exact absurd h.1.1 hfits
        · intro h
          exact absurd hzero h.1.1

/-- **Text on the screen.**  From a place where a cell fits, `gs_puts_at` stays on the screen if and
only if no line is too long and none starts between rows 1008 and 1024; `gs_puts_at_buf` needs a
cell more in every line. -/
theorem text_on_screen_iff (font : UInt32 → Nat → Nat → UInt8) (D : Device) (buf dm : UInt32)
    (str : List UInt8) (x y : Int32) (s : State) (hx : x.toUInt32.toNat ≤ 1268)
    (hy : y.toUInt32.toNat ≤ 1008) :
    ((∀ k ∈ (gsPutsAt font D dm str x y { s with drawn := [] }).drawn, Visible k) ↔
      SegmentsFit 106 ((1280 - x.toUInt32.toNat) / 12) str ∧ RowsFit y.toUInt32 str) ∧
    ((∀ k ∈ (gsPutsAtBuf font buf dm str x y { s with drawn := [] }).drawn, Visible k) ↔
      SegmentsFit 105 ((1268 - x.toUInt32.toNat) / 12) str ∧ RowsFit y.toUInt32 str) := by
  have hlow : 1024 < y.toUInt32 → x = 0 := by
    intro hbelow
    have hlt : 1024 < y.toUInt32.toNat := UInt32.lt_iff_toNat_lt.mp hbelow
    omega
  have hvisible (strokes : List Stroke) : (∀ k ∈ strokes.map fun k => (k.x, k.y), Visible k) ↔
      ∀ k ∈ strokes, Visible (k.x, k.y) := by
    simp
  rw [gsPutsAt_eq, gsPutsAtBuf_eq, drawn_draw, drawn_draw, List.nil_append, List.nil_append,
    hvisible, hvisible]
  have hplain : (0 : UInt32).toNat ≤ 12 := by decide
  have hbuf : (12 : UInt32).toNat ≤ 12 := by decide
  exact ⟨text_visible_iff hplain str x y (by omega) hlow,
    text_visible_iff hbuf str x y (by omega) hlow⟩

/-- There is a first screen. -/
theorem zero_lt_numScreens : 0 < Screens.numScreens := by decide

/-- There is a second screen. -/
theorem one_lt_numScreens : 1 < Screens.numScreens := by decide

/-- A kernel that shows screen 0 while a process draws on screen 1. -/
def background : Device :=
  ⟨0x200000, 0xe0000000, ⟨0, zero_lt_numScreens⟩, ⟨1, one_lt_numScreens⟩⟩

def blankMemory : State := ⟨fun _ => 0, [], [], []⟩

theorem text_on_screen_letter :
    (∀ k ∈ (gsPutsAt (fun _ _ _ => 0) background modeFlat [0x41] 0 0 blankMemory).drawn,
      Visible k) ∧
    ∀ k ∈ (gsPutsAtBuf (fun _ _ _ => 0) 0x400000 modeFlat [0x41] 0 0 blankMemory).drawn,
      Visible k := by
  have hiff := text_on_screen_iff (fun _ _ _ => 0) background 0x400000 modeFlat [0x41] 0 0
    blankMemory (by decide) (by decide)
  exact ⟨hiff.1.mpr (by decide), hiff.2.mpr (by decide)⟩

/-- In the last place where a cell fits, the second character of a string crosses the right edge,
and the first one on a buffer. -/
theorem second_letter_off_screen :
    (¬ ∀ k ∈ (gsPutsAt (fun _ _ _ => 0) background modeFlat [0x41, 0x41] 1268 0
      blankMemory).drawn, Visible k) ∧
    ¬ ∀ k ∈ (gsPutsAtBuf (fun _ _ _ => 0) 0x400000 modeFlat [0x41] 1268 0 blankMemory).drawn,
      Visible k := by
  have hlow : 1024 < (0 : Int32).toUInt32 → (1268 : Int32) = 0 := fun h => absurd h (by decide)
  have hplain : (0 : UInt32).toNat ≤ 12 := by decide
  have hbuf : (12 : UInt32).toNat ≤ 12 := by decide
  rw [gsPutsAt_eq, gsPutsAtBuf_eq, drawn_draw, drawn_draw]
  simp only [blankMemory, List.nil_append, List.forall_mem_map]
  rw [text_visible_iff hplain _ _ _ (by decide) hlow,
    text_visible_iff hbuf _ _ _ (by decide) hlow]
  decide

end Cumulonimbus.Drawing
