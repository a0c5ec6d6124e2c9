import Cumulonimbus.Console

/-!
# Console output and its scroll region

Every routine keeps the cursor and the region where they belong and writes cells of the region
only.  The loops that fill and move rows are brought to a statement about cells by the
while rule; from there on rows and columns are all there is.
-/

namespace Cumulonimbus.Console

open Exec

variable {V : Video} {s t u : State} {E : Spin → Prop} {x y : UInt32} {a : UInt32}

/-! ## Cells -/

/-- Two places of the screen are two cells. -/
theorem videoAddr_inj {x' y' : UInt32} (hx : x < V.xSize) (hy : y < V.ySize) (hx' : x' < V.xSize)
    (hy' : y' < V.ySize) (h : videoAddr V x y = videoAddr V x' y') : x = x' ∧ y = y' := by
  cases V <;> grind [videoAddr, Video.base, Video.xSize, Video.ySize]

/-- The cells of a row of the scroll region. -/
def Row (V : Video) (s : State) (y a : UInt32) : Prop :=
  ∃ x, s.scrollMinX ≤ x ∧ x ≤ s.scrollMaxX ∧ a = videoAddr V x y

/-- The cells of the scroll region. -/
def Region (V : Video) (s : State) (a : UInt32) : Prop :=
  ∃ y, s.scrollMinY ≤ y ∧ y ≤ s.scrollMaxY ∧ Row V s y a

/-- What lies outside of the scroll region that `s` has is as it was. -/
def SameOutside (V : Video) (s t : State) : Prop :=
  ∀ a, ¬ Region V s a → t.video a = s.video a

/-- The scroll region lies on the screen. -/
structure OnScreen (V : Video) (s : State) : Prop where
  minX : s.minX = 0
  minY : s.minY = 0
  maxX : s.maxX = V.xSize - 1
  maxY : s.maxY = V.ySize - 1
  leftX : s.minX ≤ s.scrollMinX
  orderX : s.scrollMinX ≤ s.scrollMaxX
  rightX : s.scrollMaxX ≤ s.maxX
  topY : s.minY ≤ s.scrollMinY
  orderY : s.scrollMinY ≤ s.scrollMaxY
  bottomY : s.scrollMaxY ≤ s.maxY

/-- The cursor is in the region or, if scrolling is delayed, on the line below it. -/
structure Inside (V : Video) (s : State) : Prop extends OnScreen V s where
  leftCurr : s.scrollMinX ≤ s.currX
  rightCurr : s.currX ≤ s.scrollMaxX
  topCurr : s.scrollMinY ≤ s.currY
  bottomCurr : s.currY ≤ s.scrollMaxY + 1

/-- A column of the region is on the screen. -/
theorem OnScreen.x_lt (h : OnScreen V s) (hx : x ≤ s.scrollMaxX) : x < V.xSize := by
  have hright := h.rightX
  have hmax := h.maxX
  cases V <;> grind [Video.xSize]

/-- So is a row of the region. -/
theorem OnScreen.y_lt (h : OnScreen V s) (hy : y ≤ s.scrollMaxY) : y < V.ySize := by
  have hbottom := h.bottomY
  have hmax := h.maxY
  cases V <;> grind [Video.ySize]

/-- Rows share no cell. -/
theorem OnScreen.row_inj {y' : UInt32} (h : OnScreen V s) (hy : y ≤ s.scrollMaxY)
    (hy' : y' ≤ s.scrollMaxY) (hrow : Row V s y a) (hrow' : Row V s y' a) : y = y' := by
  obtain ⟨x, -, hx, rfl⟩ := hrow
  obtain ⟨x', -, hx', hxy⟩ := hrow'
  exact (videoAddr_inj (h.x_lt hx) (h.y_lt hy) (h.x_lt hx') (h.y_lt hy') hxy).2

/-! ## One row -/

/-- The cell `k` behind `a`. -/
def ahead (a : UInt32) (k : Nat) : UInt32 := a + 2 * UInt32.ofNat k

/-- No cell ahead is the cell itself. -/
theorem ahead_zero (a : UInt32) : ahead a 0 = a := by
  grind [ahead]

/-- A pointer to cells goes on by two bytes. -/
theorem ahead_succ (a : UInt32) (k : Nat) : ahead a k + 2 = ahead a (k + 1) := by
  rw [ahead, ahead, UInt32.ofNat_add]
  grind

/-- The cells of a row, from the left. -/
theorem ahead_videoAddr (V : Video) (x y : UInt32) (k : Nat) :
    ahead (videoAddr V x y) k = videoAddr V (x + UInt32.ofNat k) y := by
  grind [ahead, videoAddr]

/-- What the loop over a row leaves: `n` cells from `dest` on hold what was to be written. -/
def Wrote (value : State → UInt32 → UInt16) (n : Nat) (dest source : UInt32) (s t : State) : Prop :=
  ∃ video, t = { s with video := video } ∧
    (∀ k < n, video (ahead dest k) = value s (ahead source k)) ∧
    ∀ a, (∀ k < n, a ≠ ahead dest k) → video a = s.video a

/-- **The loop over a row.**  The counter takes the values from 0 to `n`; the cells written are
different, and none is written before it is read. -/
theorem writeCells_spec {κ : Type} {more : κ → Bool} {next : κ → κ} {start : κ}
    {value : State → UInt32 → UInt16} {dest source : UInt32} (count : κ → Nat) (n : Nat)
    (small : n < rounds) (zero : count start = 0)
    (hmore : ∀ c, count c ≤ n → (more c = true ↔ count c < n))
    (hnext : ∀ c, count c < n → count (next c) = count c + 1)
    (apart : ∀ j k, j < k → k < n → ahead dest j ≠ ahead dest k)
    (reads : ∀ k < n, ∀ video : UInt32 → UInt16,
      (∀ a, (∀ j < k, a ≠ ahead dest j) → video a = s.video a) →
        value { s with video := video } (ahead source k) = value s (ahead source k)) :
    wp (writeCells more next value start dest source) (fun _ t => Wrote value n dest source s t) E
      s := by
  rw [writeCells]
  refine wp_seq (wp_loop (I := fun i t => count i.1 ≤ n ∧ i.2.1 = ahead dest (count i.1) ∧
      i.2.2 = ahead source (count i.1) ∧ Wrote value (count i.1) dest source s t)
    (fun i _ => n - count i.1) ?_ ?_ ?_) ?_
  · intro i t hinv hcond
    obtain ⟨c, dest', source'⟩ := i
    obtain ⟨hle, hto, hsource, video, rfl, hwritten, hframe⟩ := hinv
    dsimp only at hto hsource hle hcond hwritten hframe ⊢
    have hlt : count c < n := (hmore c hle).mp hcond
    have hsucc := hnext c hlt
    rw [wp_bind, wp_get, wp_bind, poke, wp_modify, wp_pure]
    refine ⟨⟨?_, ?_, ?_, Function.update video dest' _, rfl, ?_, ?_⟩, ?_⟩
    · exact hsucc ▸ hlt
    · exact hto ▸ hsucc ▸ ahead_succ dest (count c)
    · exact hsource ▸ hsucc ▸ ahead_succ source (count c)
    · intro k hk
      rw [hsucc] at hk
      rcases Nat.lt_succ_iff_lt_or_eq.mp hk with hk | rfl
      · rw [Function.update_of_ne (hto ▸ apart k (count c) hk hlt)]
        exact hwritten k hk
      · rw [← hto, Function.update_self, hsource]
        exact reads (count c) hlt video hframe
    · intro a ha
      rw [hsucc] at ha
      rw [Function.update_of_ne (hto ▸ ha (count c) (Nat.lt_succ_self _))]
      exact hframe a fun k hk => ha k (Nat.lt_succ_of_lt hk)
    · show n - count (next c) < n - count c
      omega
  · rw [zero]
    exact ⟨Nat.zero_le n, (ahead_zero dest).symm, (ahead_zero source).symm, s.video, rfl,
      fun k hk => absurd hk (Nat.not_lt_zero k), fun _ _ => rfl⟩
  · omega
  · intro i t hpost
    obtain ⟨⟨hle, -, -, hwrote⟩, hdone⟩ := hpost
    have hcount : count i.1 = n := by
      by_contra hne
      have htrue := (hmore i.1 hle).mpr (by omega)
      rw [htrue] at hdone
      cases hdone
    rw [hcount] at hwrote
    exact hwrote

/-- The number of cells in a row of the scroll region. -/
def State.width (s : State) : UInt32 := s.scrollMaxX - s.scrollMinX + 1

/-- The region is far from the size at which widths would wrap around. -/
theorem OnScreen.right_lt (h : OnScreen V s) : s.scrollMaxX.toNat < 106 := by
  have hx := h.x_lt (UInt32.le_refl _)
  rw [UInt32.lt_iff_toNat_lt] at hx
  cases V with
  | vesa => exact hx
  | noVesa => exact Nat.lt_trans hx (by decide)

/-- How many columns the region has. -/
theorem OnScreen.width_eq (h : OnScreen V s) :
    s.width.toNat = s.scrollMaxX.toNat + 1 - s.scrollMinX.toNat := by
  have hright := h.right_lt
  have horder := h.orderX
  have hle := UInt32.le_iff_toNat_le.mp horder
  rw [State.width, UInt32.toNat_add, UInt32.toNat_sub_of_le _ _ horder, UInt32.toNat_one]
  omega

/-- A place in a row, by the number of cells from the left end. -/
theorem OnScreen.toNat_column (h : OnScreen V s) {k : Nat} (hk : k < s.width.toNat) :
    (s.scrollMinX + UInt32.ofNat k).toNat = s.scrollMinX.toNat + k := by
  have hright := h.right_lt
  rw [h.width_eq] at hk
  rw [UInt32.toNat_add, UInt32.toNat_ofNat_of_lt' (show k < 4294967296 by omega)]
  omega

/-- The columns of the region, counted from its left side. -/
theorem OnScreen.column_le (h : OnScreen V s) {k : Nat} (hk : k < s.width.toNat) :
    s.scrollMinX ≤ s.scrollMinX + UInt32.ofNat k ∧
      s.scrollMinX + UInt32.ofNat k ≤ s.scrollMaxX := by
  have hcolumn := h.toNat_column hk
  rw [h.width_eq] at hk
  rw [UInt32.le_iff_toNat_le, UInt32.le_iff_toNat_le, hcolumn]
  omega

/-- Every place in a row is some number of cells from the left end. -/
theorem OnScreen.exists_column (h : OnScreen V s) (hle : s.scrollMinX ≤ x)
    (hx : x ≤ s.scrollMaxX) : ∃ k < s.width.toNat, x = s.scrollMinX + UInt32.ofNat k := by
  refine ⟨(x - s.scrollMinX).toNat, ?_, ?_⟩
  · have hle' := UInt32.le_iff_toNat_le.mp hle
    have hx' := UInt32.le_iff_toNat_le.mp hx
    rw [h.width_eq, UInt32.toNat_sub_of_le _ _ hle]
    omega
  · rw [UInt32.ofNat_toNat, UInt32.add_comm, UInt32.sub_add_cancel]

/-- The cells of a row are those ahead of its first one. -/
theorem OnScreen.row_iff (h : OnScreen V s) :
    Row V s y a ↔ ∃ k < s.width.toNat, a = ahead (videoAddr V s.scrollMinX y) k := by
  constructor
  · intro hrow
    obtain ⟨x, hle, hx, rfl⟩ := hrow
    obtain ⟨k, hk, rfl⟩ := h.exists_column hle hx
    exact ⟨k, hk, (ahead_videoAddr V _ _ k).symm⟩
  · intro hrow
    obtain ⟨k, hk, rfl⟩ := hrow
    exact ⟨_, (h.column_le hk).1, (h.column_le hk).2, ahead_videoAddr V _ _ k⟩

/-- Cells at different distances from the left end of rows are different. -/
theorem OnScreen.ahead_ne {y' : UInt32} (h : OnScreen V s) (hy : y ≤ s.scrollMaxY)
    (hy' : y' ≤ s.scrollMaxY) {j k : Nat} (hjk : j < k) (hk : k < s.width.toNat) :
    ahead (videoAddr V s.scrollMinX y) j ≠ ahead (videoAddr V s.scrollMinX y') k := by
  have hj := h.column_le (Nat.lt_trans hjk hk)
  have hx := h.column_le hk
  rw [ahead_videoAddr, ahead_videoAddr]
  intro heq
  have hsame := (videoAddr_inj (h.x_lt hj.2) (h.y_lt hy) (h.x_lt hx.2) (h.y_lt hy') heq).1
  have hcolumns := congrArg UInt32.toNat hsame
  rw [h.toNat_column (Nat.lt_trans hjk hk), h.toNat_column hk] at hcolumns
  omega

/-- What a row is changed to. -/
def RowBecomes (V : Video) (y : UInt32) (cell : UInt32 → UInt16) (s t : State) : Prop :=
  ∃ video, t = { s with video := video } ∧
    (∀ x, s.scrollMinX ≤ x → x ≤ s.scrollMaxX → video (videoAddr V x y) = cell x) ∧
    ∀ a, ¬ Row V s y a → video a = s.video a

/-- A loop that has written as many cells as the region is wide, from the left side on, has written
the row. -/
theorem OnScreen.rowBecomes (h : OnScreen V s) {value : State → UInt32 → UInt16} {source : UInt32}
    {cell : UInt32 → UInt16}
    (wrote : Wrote value s.width.toNat (videoAddr V s.scrollMinX y) source s t)
    (hcell : ∀ k, value s (ahead source k) = cell (s.scrollMinX + UInt32.ofNat k)) :
    RowBecomes V y cell s t := by
  obtain ⟨video, rfl, hwritten, hframe⟩ := wrote
  refine ⟨video, rfl, ?_, ?_⟩
  · intro x hle hx
    obtain ⟨k, hk, rfl⟩ := h.exists_column hle hx
    rw [← ahead_videoAddr, hwritten k hk, hcell]
  · intro a ha
    exact hframe a fun k hk hak => ha (h.row_iff.mpr ⟨k, hk, hak⟩)

/-- The counter of `c_clearscroll`. -/
theorem unsigned_counter {n : UInt32} (c : UInt32) :
    (decide (c < n) = true ↔ c.toNat < n.toNat) ∧
      (c.toNat < n.toNat → (c + 1).toNat = c.toNat + 1) := by
  rw [decide_eq_true_iff, UInt32.lt_iff_toNat_lt, UInt32.toNat_add, UInt32.toNat_one]
  have hn := n.toNat_lt
  omega

/-- Signed counters of a row. -/
theorem toInt_small : ∀ c ≤ 107, (UInt32.ofNat c).toInt32.toInt = c ∧
    (UInt32.ofNat c).toInt32 + 1 = (UInt32.ofNat (c + 1)).toInt32 := by
  intro c hc
  have hsigned : (UInt32.ofNat c).toInt32 = Int32.ofNat c := rfl
  rw [UInt32.ofNat_add, hsigned, Int32.toInt_ofNat_of_lt (by omega)]
  exact ⟨rfl, rfl⟩

/-- The counters of `c_scroll`. -/
theorem signed_counter {n : UInt32} (hn : n.toNat ≤ 106) (c : Int32)
    (hc : c.toUInt32.toNat ≤ n.toNat) :
    (decide (c < n.toInt32) = true ↔ c.toUInt32.toNat < n.toNat) ∧
      (c + 1).toUInt32.toNat = c.toUInt32.toNat + 1 := by
  obtain ⟨d, hd⟩ : ∃ d, c.toUInt32 = UInt32.ofNat d ∧ d ≤ 106 :=
    ⟨c.toUInt32.toNat, UInt32.ofNat_toNat.symm, by omega⟩
  have hcd : c = (UInt32.ofNat d).toInt32 := by rw [← hd.1]; rfl
  have hnat : (UInt32.ofNat d).toNat = d :=
    UInt32.toNat_ofNat_of_lt' (show d < 4294967296 by omega)
  have hnat' : (UInt32.ofNat (d + 1)).toNat = d + 1 :=
    UInt32.toNat_ofNat_of_lt' (show d + 1 < 4294967296 by omega)
  have hnn : n.toInt32.toInt = n.toNat := by
    have hsmall := (toInt_small n.toNat (by omega)).1
    rwa [UInt32.ofNat_toNat] at hsmall
  rw [decide_eq_true_iff, Int32.lt_iff_toInt_lt, hnn, hcd, (toInt_small d (by omega)).1,
    (toInt_small d (by omega)).2, UInt32.toUInt32_toInt32, UInt32.toUInt32_toInt32, hnat, hnat']
  omega

/-- The loop of `c_clearscroll` over a row. -/
theorem clearRow_spec (h : OnScreen V s) (hy : y ≤ s.scrollMaxY) (source : UInt32) :
    wp (writeCells (fun c : UInt32 => c < s.width) (· + 1) (fun _ _ => blank) 0
        (videoAddr V s.scrollMinX y) source)
      (fun _ t => RowBecomes V y (fun _ => blank) s t) E s := by
  have hwidth : s.width.toNat < rounds := Nat.lt_of_lt_of_le s.width.toNat_lt (by decide)
  refine wp_mono (writeCells_spec UInt32.toNat s.width.toNat hwidth rfl
    (fun c _ => (unsigned_counter c).1) (fun c => (unsigned_counter c).2)
    (fun j k hjk hk => h.ahead_ne hy hy hjk hk) fun _ _ _ _ => rfl) ?_ fun _ he => he
  intro _ t hwrote
  exact h.rowBecomes hwrote fun _ => rfl

/-- No row is longer than the screen. -/
theorem OnScreen.width_le (h : OnScreen V s) : s.width.toNat ≤ 106 := by
  have hright := h.right_lt
  rw [h.width_eq]
  omega

/-- A loop of `c_scroll` over a row. -/
theorem scrollRow_spec {value : State → UInt32 → UInt16} {source : UInt32}
    {cell : UInt32 → UInt16} (h : OnScreen V s) (hy : y ≤ s.scrollMaxY)
    (hcell : ∀ k, value s (ahead source k) = cell (s.scrollMinX + UInt32.ofNat k))
    (reads : ∀ k < s.width.toNat, ∀ video : UInt32 → UInt16,
      (∀ a, (∀ j < k, a ≠ ahead (videoAddr V s.scrollMinX y) j) → video a = s.video a) →
        value { s with video := video } (ahead source k) = value s (ahead source k)) :
    wp (writeCells (fun c : Int32 => c < s.width.toInt32) (· + 1) value 0
        (videoAddr V s.scrollMinX y) source)
      (fun _ t => RowBecomes V y cell s t) E s := by
  have hle := h.width_le
  have hwidth : s.width.toNat < rounds := Nat.lt_of_lt_of_le s.width.toNat_lt (by decide)
  refine wp_mono (writeCells_spec (fun c : Int32 => c.toUInt32.toNat) s.width.toNat hwidth rfl
    (fun c hc => (signed_counter hle c hc).1)
    (fun c hc => (signed_counter hle c (Nat.le_of_lt hc)).2)
    (fun j k hjk hk => h.ahead_ne hy hy hjk hk) reads) ?_ fun _ he => he
  intro _ t hwrote
  exact h.rowBecomes hwrote hcell

/-- A row is copied from another, or from itself. -/
theorem copyRow_spec {y' : UInt32} (h : OnScreen V s) (hy : y ≤ s.scrollMaxY)
    (hy' : y' ≤ s.scrollMaxY) :
    wp (writeCells (fun c : Int32 => c < s.width.toInt32) (· + 1) (fun s a => s.video a) 0
        (videoAddr V s.scrollMinX y) (videoAddr V s.scrollMinX y'))
      (fun _ t => RowBecomes V y (fun x => s.video (videoAddr V x y')) s t) E s := by
  refine scrollRow_spec h hy (fun k => ?_) fun k hk video hframe => hframe _ fun j hjk => ?_
  · rw [ahead_videoAddr]
  · exact (h.ahead_ne hy hy' hjk hk).symm

/-- **Clearing a row** of the region. -/
theorem blankRow_spec (h : OnScreen V s) (hy : y ≤ s.scrollMaxY) (source : UInt32) :
    wp (writeCells (fun c : Int32 => c < s.width.toInt32) (· + 1) (fun _ _ => blank) 0
        (videoAddr V s.scrollMinX y) source)
      (fun _ t => RowBecomes V y (fun _ => blank) s t) E s :=
  scrollRow_spec h hy (fun _ => rfl) fun _ _ _ _ => rfl

/-! ## All rows -/

/-- The rows of the region above `bottom` become `cell`, and nothing else changes. -/
def RowsBecome (V : Video) (bottom : UInt32) (cell : UInt32 → UInt32 → UInt16) (s t : State) :
    Prop :=
  ∃ video, t = { s with video := video } ∧
    (∀ x y, s.scrollMinX ≤ x → x ≤ s.scrollMaxX → s.scrollMinY ≤ y → y < bottom →
      video (videoAddr V x y) = cell x y) ∧
    ∀ a, (∀ y, s.scrollMinY ≤ y → y < bottom → ¬ Row V s y a) → video a = s.video a

/-- Before the first row. -/
theorem RowsBecome.start (V : Video) (cell : UInt32 → UInt32 → UInt16) (s : State) :
    RowsBecome V s.scrollMinY cell s s :=
  ⟨s.video, rfl, fun _ _ _ _ hle hlt => absurd hle (UInt32.not_le.mpr hlt), fun _ _ => rfl⟩

/-- One row more. -/
theorem RowsBecome.step {line : UInt32} {cell : UInt32 → UInt32 → UInt16} (h : OnScreen V s)
    (htop : s.scrollMinY ≤ line) (hline : line ≤ s.scrollMaxY) (rows : RowsBecome V line cell s t)
    (row : RowBecomes V line (fun x => cell x line) t u) : RowsBecome V (line + 1) cell s u := by
  obtain ⟨video, rfl, hrows, hframe⟩ := rows
  obtain ⟨video', rfl, hrow, hframe'⟩ := row
  have hlast := h.y_lt hline
  have hsucc (y : UInt32) : y < line + 1 ↔ y < line ∨ y = line := by
    cases V <;> grind [Video.ySize]
  refine ⟨video', rfl, ?_, ?_⟩
  · intro x y hleft hright htop hy
    rcases (hsucc y).mp hy with hlt | rfl
    · have hother : ¬ Row V s line (videoAddr V x y) := by
        intro hmem
        have hyline := h.row_inj (UInt32.le_trans (UInt32.le_of_lt hlt) hline) hline
          ⟨x, hleft, hright, rfl⟩ hmem
        exact UInt32.lt_irrefl _ (hyline ▸ hlt)
      exact (hframe' _ hother).trans (hrows x y hleft hright htop hlt)
    · exact hrow x hleft hright
  · intro a ha
    have hrow' := ha line htop ((hsucc line).mpr (.inr rfl))
    exact (hframe' a hrow').trans (hframe a fun y hy hlt => ha y hy ((hsucc y).mpr (.inl hlt)))

/-- A loop over rows, from `line` to `last`: a round changes one row to what `cell` says. -/
theorem rowLoop_spec {cond : UInt32 → State → Bool} {body : UInt32 → Con UInt32}
    {line last : UInt32} (h : OnScreen V s) (cell : UInt32 → UInt32 → UInt16)
    (hlast : last ≤ s.scrollMaxY) (htop : s.scrollMinY ≤ line) (hline : line ≤ last + 1)
    (hcond : ∀ video l, cond l { s with video := video } = decide (l ≤ last))
    (hbody : ∀ t l, line ≤ l → l ≤ last → RowsBecome V l cell s t →
      wp (body l) (fun l' u => l' = l + 1 ∧ RowBecomes V l (fun x => cell x l) t u) E t)
    (rows : RowsBecome V line cell s t) :
    wp (loop .spin cond body rounds line)
      (fun l u => l = last + 1 ∧ RowsBecome V (last + 1) cell s u) E t := by
  have hsize : last < V.ySize := h.y_lt hlast
  have hnext (l : UInt32) (hl : l ≤ last) : l + 1 ≤ last + 1 ∧
      last.toNat + 1 - (l + 1).toNat < last.toNat + 1 - l.toNat := by
    have hlt : last.toNat < 64 := by
      rw [UInt32.lt_iff_toNat_lt] at hsize
      cases V with
      | vesa => exact hsize
      | noVesa => exact Nat.lt_trans hsize (by decide)
    rw [UInt32.le_iff_toNat_le] at hl ⊢
    rw [UInt32.toNat_add, UInt32.toNat_add, UInt32.toNat_one]
    omega
  refine wp_mono (wp_loop (I := fun l t => line ≤ l ∧ l ≤ last + 1 ∧
      RowsBecome V l cell s t) (fun l _ => last.toNat + 1 - l.toNat) ?_
      ⟨UInt32.le_refl _, hline, rows⟩ ?_) ?_
    fun _ he => he
  · intro l t hinv hl
    obtain ⟨hfirst, -, hrows⟩ := hinv
    obtain ⟨video, ht, -⟩ := id hrows
    rw [ht, hcond, decide_eq_true_iff] at hl
    refine wp_mono (hbody t l hfirst hl hrows) ?_ fun _ he => he
    intro l' u hpost
    obtain ⟨rfl, hrow⟩ := hpost
    have hmax := UInt32.le_trans hl hlast
    refine ⟨⟨?_, (hnext l hl).1, hrows.step h (UInt32.le_trans htop hfirst) hmax hrow⟩,
      (hnext l hl).2⟩
    cases V <;> grind [Video.ySize]
  · have hbig := last.toNat_lt
    rw [show rounds = 4294967297 from rfl]
    omega
  · intro l t hpost
    obtain ⟨⟨-, hl, hrows⟩, hdone⟩ := hpost
    obtain ⟨video, ht, -⟩ := id hrows
    rw [ht, hcond, decide_eq_false_iff_not] at hdone
    have hend : l = last + 1 := by
      cases V <;> grind [Video.ySize]
    rw [hend] at hrows
    exact ⟨hend, hrows⟩

/-- Writing cells leaves the region where it is. -/
theorem RowsBecome.onScreen {bottom : UInt32} {cell : UInt32 → UInt32 → UInt16} (h : OnScreen V s)
    (rows : RowsBecome V bottom cell s t) : OnScreen V t := by
  obtain ⟨video, rfl, -⟩ := rows
  exact ⟨h.minX, h.minY, h.maxX, h.maxY, h.leftX, h.orderX, h.rightX, h.topY, h.orderY, h.bottomY⟩

/-- `c_clearscroll` blanks the region. -/
theorem cClearscroll_spec (h : OnScreen V s) :
    wp (cClearscroll V) (fun _ t => RowsBecome V (s.scrollMaxY + 1) (fun _ _ => blank) s t) E
      s := by
  rw [cClearscroll, wp_bind, wp_get]
  dsimp only
  have horder := h.orderY
  refine wp_seq (rowLoop_spec h (fun _ _ => blank) (UInt32.le_refl _) (UInt32.le_refl _) ?_
    (fun _ _ => rfl) ?_ (.start V _ s)) ?_
  · have hsize := h.y_lt (UInt32.le_refl _)
    cases V <;> grind [Video.ySize]
  · intro t l htop hl hrows
    have ht := hrows.onScreen h
    obtain ⟨video, rfl, -⟩ := hrows
    rw [wp_bind, wp_get]
    refine wp_seq (clearRow_spec ht hl _) ?_
    intro _ u hrow
    exact ⟨rfl, hrow⟩
  · intro l t hpost
    exact hpost.2

/-- The hardware cursor is told a place; nothing else changes. -/
theorem setCursor_spec (V : Video) (s : State) :
    wp (setCursor V) (fun _ t => ∃ outs, t = { s with outs := outs }) E s := by
  rw [setCursor, wp_bind, wp_get]
  simp only [outb, wp_bind, wp_modify]
  exact ⟨_, rfl⟩

/-- What a cell holds after scrolling by `lines`. -/
def scrolled (V : Video) (s : State) (lines x y : UInt32) : UInt16 :=
  if y ≤ s.scrollMaxY - lines then s.video (videoAddr V x (y + lines)) else blank

/-- The region is cleared, and the cursor goes to its upper left corner. -/
def Cleared (V : Video) (s t : State) : Prop :=
  ∃ u outs, RowsBecome V (s.scrollMaxY + 1) (fun _ _ => blank) s u ∧
    t = { u with currX := s.scrollMinX, currY := s.scrollMinY, outs := outs }

/-- **`c_scroll`** -/
theorem cScroll_spec (h : OnScreen V s) (lines : UInt32) :
    wp (cScroll V lines)
      (fun _ t => if s.scrollMaxY - s.scrollMinY < lines then Cleared V s t
        else RowsBecome V (s.scrollMaxY + 1) (scrolled V s lines) s t) E s := by
  have hsize := h.y_lt (UInt32.le_refl _)
  have horder := h.orderY
  rw [cScroll, wp_bind, wp_get]
  dsimp only
  by_cases hall : s.scrollMaxY - s.scrollMinY < lines
  · simp only [if_pos hall]
    refine wp_seq (cClearscroll_spec h) ?_
    intro _ t hrows
    obtain ⟨video, rfl, hrest⟩ := hrows
    rw [wp_bind, wp_modify, wp_bind, wp_modify]
    refine wp_mono (setCursor_spec V _) ?_ fun _ he => he
    intro _ u hpost
    obtain ⟨outs, rfl⟩ := hpost
    exact ⟨_, outs, ⟨video, rfl, hrest⟩, rfl⟩
  · simp only [if_neg hall]
    have hlines : lines ≤ s.scrollMaxY - s.scrollMinY := UInt32.not_lt.mp hall
    have hlast : s.scrollMaxY - lines ≤ s.scrollMaxY := by
      cases V <;> grind [Video.ySize]
    have hstart : s.scrollMinY ≤ s.scrollMaxY - lines + 1 := by
      cases V <;> grind [Video.ySize]
    refine wp_seq (rowLoop_spec h (scrolled V s lines) hlast (UInt32.le_refl _) hstart
      (fun _ _ => rfl) ?_ (.start V _ s)) ?_
    · intro t l htop hl hrows
      have ht := hrows.onScreen h
      have hsource : l + lines ≤ s.scrollMaxY ∧ l ≤ l + lines := by
        cases V <;> grind [Video.ySize]
      obtain ⟨video, rfl, hdone, hframe⟩ := hrows
      rw [wp_bind, wp_get]
      refine wp_seq (copyRow_spec ht (UInt32.le_trans hl hlast) hsource.1) ?_
      intro _ u hrow
      refine ⟨rfl, ?_⟩
      obtain ⟨video', hu, hrow, hframe'⟩ := hrow
      refine ⟨video', hu, fun x hleft hright => (hrow x hleft hright).trans ?_, hframe'⟩
      -- the row that is copied was not written yet
      dsimp only
      rw [scrolled, if_pos hl]
      refine hframe _ fun y hy hlt hmem => ?_
      have heq := h.row_inj (UInt32.le_trans (UInt32.le_of_lt hlt) (UInt32.le_trans hl hlast))
        hsource.1 hmem ⟨x, hleft, hright, rfl⟩
      exact UInt32.not_lt.mpr hsource.2 (heq ▸ hlt)
    · intro line t hpost
      obtain ⟨rfl, hrows⟩ := hpost
      have hend : s.scrollMaxY - lines + 1 ≤ s.scrollMaxY + 1 := by
        cases V <;> grind [Video.ySize]
      refine wp_seq (rowLoop_spec h (scrolled V s lines) (UInt32.le_refl _) hstart hend
        (fun _ _ => rfl) ?_ hrows) ?_
      · intro t l hfirst hl hrows
        have ht := hrows.onScreen h
        have hblank : ¬ l ≤ s.scrollMaxY - lines := by
          cases V <;> grind [Video.ySize]
        obtain ⟨video, rfl, -⟩ := hrows
        rw [wp_bind, wp_get]
        refine wp_seq (blankRow_spec ht hl _) ?_
        intro _ u hrow
        refine ⟨rfl, ?_⟩
        obtain ⟨video', hu, hrow, hframe⟩ := hrow
        refine ⟨video', hu, fun x hleft hright => (hrow x hleft hright).trans ?_, hframe⟩
        dsimp only
        rw [scrolled, if_neg hblank]
      · intro line u hpost
        exact hpost.2

/-- Writing rows of the region leaves everything outside as it was. -/
theorem RowsBecome.outside {cell : UInt32 → UInt32 → UInt16} (h : OnScreen V s)
    (rows : RowsBecome V (s.scrollMaxY + 1) cell s t) : SameOutside V s t := by
  obtain ⟨video, rfl, -, hframe⟩ := rows
  have hsize := h.y_lt (UInt32.le_refl _)
  intro a ha
  refine hframe a fun y hy hlt hrow => ha ⟨y, hy, ?_, hrow⟩
  cases V <;> grind [Video.ySize]

/-! ## Printing -/

/-- What output changes: cells of the region, the cursor, which stays where it belongs, and the
hardware cursor. -/
def Printed (V : Video) (s t : State) : Prop :=
  ∃ video currX currY outs,
    t = { s with video := video, currX := currX, currY := currY, outs := outs } ∧
    (∀ a, ¬ Region V s a → video a = s.video a) ∧
    s.scrollMinX ≤ currX ∧ currX ≤ s.scrollMaxX ∧
    s.scrollMinY ≤ currY ∧ currY ≤ s.scrollMaxY + 1

/-- One output after another. -/
theorem Printed.trans (h : Printed V s t) (h' : Printed V t u) : Printed V s u := by
  obtain ⟨video, currX, currY, outs, rfl, hframe, -⟩ := h
  obtain ⟨video', currX', currY', outs', rfl, hframe', hbounds⟩ := h'
  exact ⟨video', currX', currY', outs', rfl, fun a ha => (hframe' a ha).trans (hframe a ha),
    hbounds⟩

/-- No output. -/
theorem Inside.printed_self (h : Inside V s) : Printed V s s :=
  ⟨s.video, s.currX, s.currY, s.outs, rfl, fun _ _ => rfl, h.leftCurr, h.rightCurr, h.topCurr,
    h.bottomCurr⟩

/-- After an output the cursor is in the region. -/
theorem Printed.inside (h : Printed V s t) (on : OnScreen V s) : Inside V t := by
  obtain ⟨video, currX, currY, outs, rfl, -, hleft, hright, htop, hbottom⟩ := h
  exact ⟨⟨on.minX, on.minY, on.maxX, on.maxY, on.leftX, on.orderX, on.rightX, on.topY, on.orderY,
    on.bottomY⟩, hleft, hright, htop, hbottom⟩

/-- And nothing outside has changed. -/
theorem Printed.outside (h : Printed V s t) : SameOutside V s t := by
  obtain ⟨video, currX, currY, outs, rfl, hframe, -⟩ := h
  exact hframe

/-- One character in the region. -/
theorem putcharAt_spec (hx : s.scrollMinX ≤ x ∧ x ≤ s.scrollMaxX)
    (hy : s.scrollMinY ≤ y ∧ y ≤ s.scrollMaxY) (c : UInt32) :
    wp (putcharAt V x y c)
      (fun _ t => ∃ video, t = { s with video := video } ∧
        ∀ a, ¬ Region V s a → video a = s.video a) E s := by
  have hpoke (cell : UInt16) : wp (poke (videoAddr V x y) cell)
      (fun _ t => ∃ video, t = { s with video := video } ∧
        ∀ a, ¬ Region V s a → video a = s.video a) E s := by
    refine ⟨_, rfl, fun a ha => Function.update_of_ne ?_ ..⟩
    intro heq
    exact ha ⟨y, hy.1, hy.2, x, hx.1, hx.2, heq⟩
  rw [putcharAt, wp_bind, wp_get]
  split
  · split
    · exact hpoke _
    · exact hpoke _
  · exact ⟨s.video, rfl, fun _ _ => rfl⟩

/-- The window is scrolled if the cursor is below it. -/
theorem delayedScroll_spec (h : Inside V s) :
    wp (delayedScroll V) (fun _ t => Printed V s t ∧ t.currY ≤ t.scrollMaxY) E s := by
  rw [delayedScroll, wp_bind, wp_get]
  have on := h.toOnScreen
  have hnext : s.scrollMaxY ≤ s.scrollMaxY + 1 := by
    have hsize := on.y_lt (UInt32.le_refl _)
    cases V <;> grind [Video.ySize]
  split
  · refine wp_seq (cScroll_spec on _) ?_
    intro _ t hpost
    rw [wp_modify]
    split at hpost
    · obtain ⟨u, outs, hrows, rfl⟩ := hpost
      have hout := hrows.outside on
      obtain ⟨video, rfl, -⟩ := hrows
      exact ⟨⟨video, s.scrollMinX, s.scrollMaxY, outs, rfl, hout, UInt32.le_refl _, on.orderX,
        on.orderY, hnext⟩, UInt32.le_refl _⟩
    · have hout := hpost.outside on
      obtain ⟨video, rfl, -⟩ := hpost
      exact ⟨⟨video, s.currX, s.scrollMaxY, s.outs, rfl, hout, h.leftCurr, h.rightCurr,
        on.orderY, hnext⟩, UInt32.le_refl _⟩
  · next hle =>
    exact ⟨h.printed_self, UInt32.not_lt.mp hle⟩

/-- A line further down, which may be the one below the region. -/
theorem OnScreen.next_line (h : OnScreen V s) (hy : s.currY ≤ s.scrollMaxY)
    (htop : s.scrollMinY ≤ s.currY) :
    s.scrollMinY ≤ s.currY + 1 ∧ s.currY + 1 ≤ s.scrollMaxY + 1 := by
  have hsize := h.y_lt (UInt32.le_refl _)
  cases V <;> grind [Video.ySize]

/-- **A new line** moves the cursor down, or scrolls where there is no row left. -/
theorem newline_spec (h : Inside V s) (hy : s.currY ≤ s.scrollMaxY) :
    wp (newline V) (fun _ t => Printed V s t) E s := by
  have hright := h.right_lt
  have hnext := OnScreen.next_line h.toOnScreen hy h.topCurr
  rw [newline]
  refine wp_seq (wp_loop (I := fun _ t => ∃ video currX,
      t = { s with video := video, currX := currX } ∧ s.scrollMinX ≤ currX ∧
      ∀ a, ¬ Region V s a → video a = s.video a)
    (fun _ t => t.scrollMaxX.toNat + 1 - t.currX.toNat) ?_ ?_ ?_) ?_
  · intro _ t hinv hcond
    obtain ⟨video, currX, rfl, hleft, hframe⟩ := hinv
    have hle : currX ≤ s.scrollMaxX := of_decide_eq_true hcond
    have hle' := UInt32.le_iff_toNat_le.mp hle
    have hsucc : (currX + 1).toNat = currX.toNat + 1 := by
      rw [UInt32.toNat_add, UInt32.toNat_one]
      omega
    rw [wp_bind, wp_get]
    refine wp_seq (putcharAt_spec (s := { s with video := video, currX := currX }) ⟨hleft, hle⟩
      ⟨h.topCurr, hy⟩ 0x20) ?_
    intro _ u hpost
    obtain ⟨video', rfl, hframe'⟩ := hpost
    rw [wp_modify]
    refine ⟨⟨video', currX + 1, rfl, ?_, fun a ha => (hframe' a ha).trans (hframe a ha)⟩, ?_⟩
    · rw [UInt32.le_iff_toNat_le] at hleft ⊢
      omega
    · show s.scrollMaxX.toNat + 1 - (currX + 1).toNat < s.scrollMaxX.toNat + 1 - currX.toNat
      omega
  · exact ⟨s.video, s.currX, rfl, h.leftCurr, fun _ _ => rfl⟩
  · rw [show rounds = 4294967297 from rfl]
    omega
  · intro _ t hpost
    obtain ⟨⟨video, currX, rfl, -, hframe⟩, -⟩ := hpost
    rw [wp_bind, wp_modify, wp_modify]
    exact ⟨video, s.scrollMinX, s.currY + 1, s.outs, rfl, hframe, UInt32.le_refl _, h.orderX, hnext⟩

/-- **A character** goes where the cursor is, and the cursor goes on. -/
theorem showChar_spec (h : Inside V s) (hy : s.currY ≤ s.scrollMaxY) (c : UInt32) :
    wp (showChar V c) (fun _ t => Printed V s t) E s := by
  have hright := h.right_lt
  have hnext := OnScreen.next_line h.toOnScreen hy h.topCurr
  rw [showChar, wp_bind, wp_get]
  refine wp_seq (putcharAt_spec ⟨h.leftCurr, h.rightCurr⟩ ⟨h.topCurr, hy⟩ c) ?_
  intro _ t hpost
  obtain ⟨video, rfl, hframe⟩ := hpost
  rw [wp_bind, wp_modify, wp_bind, wp_get]
  split
  · rw [wp_bind, wp_modify, wp_modify]
    exact ⟨video, s.scrollMinX, s.currY + 1, s.outs, rfl, hframe, UInt32.le_refl _, h.orderX, hnext⟩
  · next hle =>
    have hcurr : s.currX + 1 ≤ s.scrollMaxX := UInt32.not_lt.mp hle
    refine ⟨video, s.currX + 1, s.currY, s.outs, rfl, hframe, ?_, hcurr, h.topCurr, h.bottomCurr⟩
    have hx := h.x_lt h.rightCurr
    have hleft := h.leftCurr
    cases V <;> grind [Video.xSize]

/-- `c_putchar` -/
theorem cPutchar_spec (h : Inside V s) (c : UInt32) :
    wp (cPutchar V c) (fun _ t => Printed V s t) E s := by
  rw [cPutchar]
  refine wp_seq (delayedScroll_spec h) ?_
  intro _ t hpost
  obtain ⟨hscrolled, hy⟩ := hpost
  have ht := hscrolled.inside h.toOnScreen
  have hswitch : wp (putcharSwitch V c) (fun _ u => Printed V t u) E t := by
    rw [putcharSwitch]
    split
    · exact newline_spec ht hy
    · split
      · exact ⟨t.video, t.scrollMinX, t.currY, t.outs, rfl, fun _ _ => rfl, UInt32.le_refl _, ht.orderX,
          ht.topCurr, ht.bottomCurr⟩
      · exact showChar_spec ht hy c
  refine wp_seq hswitch ?_
  intro _ u hu
  refine wp_mono (setCursor_spec V u) ?_ fun _ he => he
  intro _ w hw
  obtain ⟨outs, rfl⟩ := hw
  obtain ⟨video, currX, currY, outs', rfl, hrest⟩ := hscrolled.trans hu
  exact ⟨video, currX, currY, outs, rfl, hrest⟩

/-- `c_puts`, character by character. -/
theorem cPuts_spec (h : Inside V s) (str : List UInt8) :
    wp (cPuts V str) (fun _ t => Printed V s t) E s := by
  induction str generalizing s with
  | nil => exact h.printed_self
  | cons ch str ih =>
    rw [cPuts]
    split
    · exact h.printed_self
    · refine wp_seq (cPutchar_spec h _) ?_
      intro _ t ht
      exact wp_mono (ih (ht.inside h.toOnScreen)) (fun _ _ hu => ht.trans hu) fun _ he => he

/-! ## The region and the cursor -/

/-- `bound` yields a number between its limits. -/
theorem bound_spec {min max : UInt32} (value : UInt32) (h : min ≤ max) :
    min ≤ bound min value max ∧ bound min value max ≤ max := by
  grind [bound]

/-- `c_setscroll` writes no cell, and puts the region on the screen and the cursor into it. -/
theorem cSetscroll_spec (h : OnScreen V s) (sMinX sMinY sMaxX sMaxY : UInt32) :
    wp (cSetscroll V sMinX sMinY sMaxX sMaxY) (fun _ t => Inside V t ∧ t.video = s.video) E s := by
  have hx := bound_spec sMinX (UInt32.le_trans h.leftX (UInt32.le_trans h.orderX h.rightX))
  have hy := bound_spec sMinY (UInt32.le_trans h.topY (UInt32.le_trans h.orderY h.bottomY))
  have hx' := bound_spec sMaxX hx.2
  have hy' := bound_spec sMaxY hy.2
  have hnext : bound s.minY sMinY s.maxY ≤ bound (bound s.minY sMinY s.maxY) sMaxY s.maxY + 1 := by
    have hmax := h.maxY
    cases V <;> grind [Video.ySize]
  simp only [cSetscroll, wp_bind, wp_modify]
  refine wp_mono (setCursor_spec V _) ?_ fun _ he => he
  intro _ t hpost
  obtain ⟨outs, rfl⟩ := hpost
  exact ⟨⟨⟨h.minX, h.minY, h.maxX, h.maxY, hx.1, hx'.1, hx'.2, hy.1, hy'.1, hy'.2⟩,
    UInt32.le_refl _, hx'.1, UInt32.le_refl _, hnext⟩, rfl⟩

/-- **Moving the cursor** keeps it in the region, wherever the caller wants it. -/
theorem cMoveto_spec (h : OnScreen V s) (x y : UInt32) :
    wp (cMoveto V x y) (fun _ t => Printed V s t) E s := by
  have hx := bound_spec (x + s.scrollMinX) h.orderX
  have hy := bound_spec (y + s.scrollMinY) h.orderY
  have hnext : bound s.scrollMinY (y + s.scrollMinY) s.scrollMaxY ≤ s.scrollMaxY + 1 := by
    have hsize := h.y_lt (UInt32.le_refl _)
    cases V <;> grind [Video.ySize]
  simp only [cMoveto, wp_bind, wp_modify]
  refine wp_mono (setCursor_spec V _) ?_ fun _ he => he
  intro _ t hpost
  obtain ⟨outs, rfl⟩ := hpost
  exact ⟨s.video, _, _, outs, rfl, fun _ _ => rfl, hx.1, hx.2, hy.1, hnext⟩

/-- **After `c_io_init`** the region lies on the screen, with the cursor in it. -/
theorem cIoInit_spec (V : Video) (s : State) :
    wp (cIoInit V) (fun _ t => Inside V t) E s := by
  have hsizes : 0 ≤ V.xSize - 1 ∧ 0 ≤ V.ySize - 1 ∧ 0 ≤ V.ySize - 1 + 1 := by
    cases V <;> decide
  simp only [cIoInit, wp_bind, wp_modify]
  refine wp_mono (setCursor_spec V _) ?_ fun _ he => he
  intro _ t hpost
  obtain ⟨outs, rfl⟩ := hpost
  have hzero := UInt32.le_refl 0
  exact ⟨⟨rfl, rfl, rfl, rfl, hzero, hsizes.1, UInt32.le_refl _, hzero, hsizes.2.1,
    UInt32.le_refl _⟩, hzero, hsizes.1, hzero, hsizes.2.2⟩

/-- The number of rows of the scroll region. -/
def State.height (s : State) : UInt32 := s.scrollMaxY - s.scrollMinY + 1

/-- The rows of the region of `s` have moved up by `lines`, and the last ones are blank. -/
def MovedUp (V : Video) (lines : UInt32) (s t : State) : Prop :=
  ∀ x y, s.scrollMinX ≤ x → x ≤ s.scrollMaxX → s.scrollMinY ≤ y → y ≤ s.scrollMaxY →
    t.video (videoAddr V x y) =
      if y + lines ≤ s.scrollMaxY then s.video (videoAddr V x (y + lines)) else blank

/-- `c_scroll` for its callers. -/
theorem cScroll_moves (h : Inside V s) (lines : UInt32) :
    wp (cScroll V lines)
      (fun _ t => Printed V s t ∧ (lines < s.height → MovedUp V lines s t)) E s := by
  have hsize := h.y_lt (UInt32.le_refl _)
  have horder := h.orderY
  have hnext : s.scrollMinY ≤ s.scrollMaxY + 1 := by
    cases V <;> grind [Video.ySize]
  refine wp_mono (cScroll_spec h.toOnScreen lines) ?_ fun _ he => he
  intro _ t hpost
  split at hpost
  case isTrue hall =>
    obtain ⟨u, outs, hrows, rfl⟩ := hpost
    have hout := hrows.outside h.toOnScreen
    obtain ⟨video, rfl, -⟩ := hrows
    refine ⟨⟨video, _, _, outs, rfl, hout, UInt32.le_refl _, h.orderX, UInt32.le_refl _, hnext⟩,
      fun hfew => ?_⟩
    rw [State.height] at hfew
    exfalso
    cases V <;> grind [Video.ySize]
  case isFalse hfew =>
    have hout := hpost.outside h.toOnScreen
    obtain ⟨video, rfl, hrows, -⟩ := hpost
    refine ⟨⟨video, _, _, _, rfl, hout, h.leftCurr, h.rightCurr, h.topCurr, h.bottomCurr⟩, ?_⟩
    intro _ x y hleft hright htop hbottom
    have hy : y < s.scrollMaxY + 1 := by
      cases V <;> grind [Video.ySize]
    have hsame : y + lines ≤ s.scrollMaxY ↔ y ≤ s.scrollMaxY - lines := by
      cases V <;> grind [Video.ySize]
    refine (hrows x y hleft hright htop hy).trans ?_
    rw [scrolled]
    exact if_congr hsame.symm rfl rfl

/-- **One call**: the cursor and the region stay where they belong, no cell outside of the region
changes, and scrolling by less than the region moves its rows. -/
theorem Call.run_spec (h : Inside V s) (c : Call) :
    wp (c.run V)
      (fun _ t => Inside V t ∧ SameOutside V s t ∧
        ∀ lines, c = .scroll lines → lines < s.height → MovedUp V lines s t) E s := by
  have hprinted {x : Con Unit} (hx : wp x (fun _ t => Printed V s t) E s)
      (hc : ∀ lines, c ≠ .scroll lines) :
      wp x (fun _ t => Inside V t ∧ SameOutside V s t ∧
        ∀ lines, c = .scroll lines → lines < s.height → MovedUp V lines s t) E s := by
    refine wp_mono hx ?_ fun _ he => he
    intro _ t ht
    exact ⟨ht.inside h.toOnScreen, ht.outside, fun lines heq => absurd heq (hc lines)⟩
  cases c with
  | setscroll sMinX sMinY sMaxX sMaxY =>
    refine wp_mono (cSetscroll_spec h.toOnScreen sMinX sMinY sMaxX sMaxY) ?_ fun _ he => he
    intro _ t hpost
    exact ⟨hpost.1, fun a _ => congrFun hpost.2 a, fun _ heq => by cases heq⟩
  | moveto x y => exact hprinted (cMoveto_spec h.toOnScreen x y) fun _ => by simp
  | putchar c => exact hprinted (cPutchar_spec h c) fun _ => by simp
  | puts str => exact hprinted (cPuts_spec h str) fun _ => by simp
  | scroll lines =>
    refine wp_mono (cScroll_moves h lines) ?_ fun _ he => he
    intro _ t hpost
    refine ⟨hpost.1.inside h.toOnScreen, hpost.1.outside, ?_⟩
    intro lines' heq hfew
    cases heq
    exact hpost.2 hfew

/-- A sequence of calls. -/
theorem calls_inside (calls : List Call) (h : Inside V s) :
    wp (forM calls (Call.run V)) (fun _ t => Inside V t) E s := by
  induction calls generalizing s with
  | nil => exact h
  | cons c calls ih =>
    rw [List.forM_cons]
    refine wp_seq (c.run_spec h) ?_
    intro _ t hpost
    exact ih hpost.1

/-- **Console output stays inside the scroll region.**  After `c_io_init` and any calls, the cursor
and the region are where they belong, and so they are after one more call, which changes no cell
outside of the region that it finds; `c_scroll` moves rows up and blanks the last ones. -/
theorem output_stays_inside (V : Video) (s : State) (calls : List Call) (c : Call) :
    wp (do
        cIoInit V
        forM calls (Call.run V))
      (fun _ s => Inside V s ∧
        wp (c.run V)
          (fun _ t => Inside V t ∧ SameOutside V s t ∧
            ∀ lines, c = .scroll lines → lines < s.height → MovedUp V lines s t)
          (fun _ => False) s)
      (fun _ => False) s := by
  refine wp_seq (cIoInit_spec V s) ?_
  intro _ t ht
  refine wp_mono (calls_inside calls ht) ?_ fun _ he => he
  intro _ u hu
  exact ⟨hu, c.run_spec hu⟩

end Cumulonimbus.Console
