import Cumulonimbus.DrawingText

/-!
# Input of the shell

`get_input` of `shell.c` reads keys into a buffer of the caller up to the end of a line, as a stack
that backspaces take characters from.  It does not know how large the buffer is, and it ends the
line with a null character only where a backspace has left one: the callers clear their buffers
before, but for the text of a message.
-/

namespace Cumulonimbus.Shell

open Drawing (Device)

/-- `LEGACY_SCREEN_HEIGHT` -/
def legacyScreenHeight : UInt32 := 64

/-- The variables of `shell.c`, and the pictures of the screens. -/
structure Cursor where
  scrX : UInt32
  scrY : UInt32
  screen : Drawing.State

/-- The variables of `get_input`. -/
structure Typing extends Cursor where
  loc : UInt32
  buf : UInt32 → UInt8
  /-- The indices of the writes to the buffer, oldest first. -/
  written : List UInt32

variable (font : UInt32 → Nat → Nat → UInt8) (D : Device)

/-- `gs_putc_at(FONT_CHAR_WIDTH*scr_x, FONT_CHAR_HEIGHT*scr_y, c, GS_DRAW_MODE_FLAT)` -/
def putc (c : UInt8) (v : Cursor) : Cursor :=
  { v with
    screen := Drawing.gsPutcAt font D (Drawing.fontCharWidth.toUInt32 * v.scrX).toInt32
      (Drawing.fontCharHeight.toUInt32 * v.scrY).toInt32 c Drawing.modeFlat v.screen }

def newLine (v : Cursor) : Cursor :=
  let v := { v with scrY := v.scrY + 1 }
  let v :=
    if v.scrY = legacyScreenHeight then { v with scrY := 0, screen := Drawing.gsClear D v.screen }
    else v
  { v with scrX := 0 }

/-- `buf[loc] = c` -/
def write (c : UInt8) (v : Typing) : Typing :=
  { v with buf := Function.update v.buf v.loc c, written := v.written ++ [v.loc] }

/-- A backspace. -/
def erase (v : Typing) : Typing :=
  if v.loc = 0 then v
  else
    let v := write 0 { v with loc := v.loc - 1 }
    let v := { v with scrX := v.scrX - 1 }
    { v with toCursor := putc font D 0 v.toCursor }

/-- Any other character. -/
def typeIn (input : UInt8) (v : Typing) : Typing :=
  let v := write input v
  let v := { v with toCursor := putc font D (v.buf v.loc) v.toCursor }
  { v with loc := v.loc + 1, scrX := v.scrX + 1 }

/-- The loop over the characters that `c_getchar` returns, and the characters that are left;
nothing while it waits for more. -/
def getChars : List UInt8 → Typing → Option (List UInt8 × Typing)
  | [], _ => none
  | input :: inputs, v =>
    if input = 0x08 then getChars inputs (erase font D v)
    else if input = 0x0d ∨ input = 0x0a then some (inputs, v)
    else getChars inputs (typeIn font D input v)

def getInput (inputs : List UInt8) (buf : UInt32 → UInt8) (v : Cursor) :
    Option (List UInt8 × Typing) :=
  (getChars font D inputs ⟨v, 0, buf, []⟩).map fun r =>
    (r.1, { r.2 with toCursor := newLine D r.2.toCursor })

/-! ## Lines -/

/-- `isPrintable` -/
abbrev Printable := {c : UInt8 // 0x20 ≤ c ∧ c ≤ 0x7e}

inductive Keystroke
  | char (c : Printable)
  | backspace

def Keystroke.code : Keystroke → UInt8
  | .char c => c.val
  | .backspace => 0x08

/-- What a keystroke makes of a line. -/
def Keystroke.edit (text : List UInt8) : Keystroke → List UInt8
  | .char c => text ++ [c.val]
  | .backspace => text.dropLast

/-- **The line that is typed.** -/
def edited (keys : List Keystroke) (text : List UInt8) : List UInt8 :=
  keys.foldl Keystroke.edit text

/-- The greatest length of the line. -/
def longest : List Keystroke → List UInt8 → Nat
  | [], text => text.length
  | k :: keys, text => max text.length (longest keys (k.edit text))

/-- A buffer of `n` bytes holds the line, as much of it as there is room for, and a null character
behind it; and nothing else has been written to. -/
structure Holds (n : UInt32) (text : List UInt8) (v : Typing) : Prop where
  inside : ∀ i ∈ v.written, i < n
  chars : ∀ i c, (text.take (n.toNat - 1))[i]? = some c → v.buf (UInt32.ofNat i) = c
  null : v.buf (UInt32.ofNat (text.take (n.toNat - 1)).length) = 0

/-- The line is at no time longer than the buffer and at last shorter, and what follows it was
typed and taken back, or was a null character before. -/
structure Fits (n : UInt32) (keys : List Keystroke) (buf : UInt32 → UInt8) : Prop where
  inside : longest keys [] ≤ n.toNat
  shorter : (edited keys []).length < n.toNat
  ended : (edited keys []).length < longest keys [] ∨
    buf (UInt32.ofNat (edited keys []).length) = 0

variable {font D} {n : UInt32} {start : UInt32 → UInt8} {m : Nat} {text : List UInt8} {v : Typing}
  {keys : List Keystroke} {k : Keystroke} {c : UInt8}

/-! ## A keystroke -/

def press (font : UInt32 → Nat → Nat → UInt8) (D : Device) (v : Typing) : Keystroke → Typing
  | .char c => typeIn font D c.val v
  | .backspace => erase font D v

@[simp] theorem typeIn_loc : (typeIn font D c v).loc = v.loc + 1 := rfl

@[simp] theorem typeIn_buf : (typeIn font D c v).buf = Function.update v.buf v.loc c := rfl

@[simp] theorem typeIn_written : (typeIn font D c v).written = v.written ++ [v.loc] := rfl

/-- At the start there is nothing to erase. -/
theorem erase_start (h : v.loc = 0) : erase font D v = v := if_pos h

/-- Erasing goes back by one character. -/
theorem erase_loc (h : v.loc ≠ 0) : (erase font D v).loc = v.loc - 1 := by
  rw [erase, if_neg h]
  rfl

/-- That character becomes null. -/
theorem erase_buf (h : v.loc ≠ 0) :
    (erase font D v).buf = Function.update v.buf (v.loc - 1) 0 := by
  rw [erase, if_neg h]
  rfl

/-- This is a store like any other. -/
theorem erase_written (h : v.loc ≠ 0) :
    (erase font D v).written = v.written ++ [v.loc - 1] := by
  rw [erase, if_neg h]
  rfl

/-- What `get_input` has written when the line has been at most `m` characters long. -/
structure Editing (n : UInt32) (start : UInt32 → UInt8) (m : Nat) (text : List UInt8)
    (v : Typing) : Prop where
  loc : v.loc.toNat = text.length
  le : text.length ≤ m
  bound : m ≤ n.toNat
  chars : ∀ i c, text[i]? = some c → v.buf (UInt32.ofNat i) = c
  erased : ∀ i, text.length ≤ i → i < m → v.buf (UInt32.ofNat i) = 0
  fresh : ∀ i, m ≤ i → i < 0x100000000 → v.buf (UInt32.ofNat i) = start (UInt32.ofNat i)
  inside : ∀ i ∈ v.written, i < n

/-- Different places of the buffer, as the code counts them. -/
theorem ofNat_ne {i : Nat} {l : UInt32} (hi : i < 0x100000000) (h : i ≠ l.toNat) :
    UInt32.ofNat i ≠ l := by
  rintro rfl
  rw [UInt32.toNat_ofNat', Nat.mod_eq_of_lt hi] at h
  exact h rfl

/-- **A character** is added to the line. -/
theorem Editing.typeIn (h : Editing n start m text v) (hroom : text.length < n.toNat)
    (c : UInt8) : Editing n start (max m (text.length + 1)) (text ++ [c]) (typeIn font D c v) := by
  have hloc := h.loc
  have hle := h.le
  have hbound := h.bound
  have hn := n.toNat_lt
  have hlength : (text ++ [c]).length = text.length + 1 := by simp
  constructor
  case loc =>
    rw [typeIn_loc, UInt32.toNat_add, UInt32.toNat_one, hlength]
    omega
  case le => omega
  case bound => omega
  case chars =>
    intro i d hd
    have hi : i < text.length + 1 := hlength ▸ (List.getElem?_eq_some_iff.mp hd).1
    rw [typeIn_buf]
    by_cases hlast : i = text.length
    · subst hlast
      rw [List.getElem?_concat_length] at hd
      rw [← hloc, UInt32.ofNat_toNat, Function.update_self]
      exact Option.some.inj hd
    · rw [Function.update_of_ne (ofNat_ne (by omega) (by omega))]
      rw [List.getElem?_append_left (by omega)] at hd
      exact h.chars i d hd
  case erased =>
    intro i hlow hhigh
    rw [typeIn_buf, Function.update_of_ne (ofNat_ne (by omega) (by omega))]
    exact h.erased i (by omega) (by omega)
  case fresh =>
    intro i hlow hhigh
    rw [typeIn_buf, Function.update_of_ne (ofNat_ne hhigh (by omega))]
    exact h.fresh i (by omega) hhigh
  case inside =>
    rw [typeIn_written]
    refine List.forall_mem_append.mpr ⟨h.inside, List.forall_mem_singleton.mpr ?_⟩
    exact UInt32.lt_iff_toNat_lt.mpr (by omega)

/-- **The erase key** takes the last one away. -/
theorem Editing.erase (h : Editing n start m text v) :
    Editing n start m text.dropLast (erase font D v) := by
  have hloc := h.loc
  by_cases hzero : v.loc = 0
  · obtain rfl : text = [] := by
      rw [hzero] at hloc
      exact List.eq_nil_of_length_eq_zero hloc.symm
    rw [erase_start hzero]
    exact h
  · have hle := h.le
    have hbound := h.bound
    have hn := n.toNat_lt
    have hpos : v.loc.toNat ≠ 0 := fun heq => hzero (UInt32.toNat_inj.mp heq)
    have hprev : (v.loc - 1).toNat = text.length - 1 := by
      rw [UInt32.toNat_sub, UInt32.toNat_one]
      omega
    have hlength : text.dropLast.length = text.length - 1 := List.length_dropLast
    constructor
    case loc => rw [erase_loc hzero, hprev, hlength]
    case le => omega
    case bound => exact hbound
    case chars =>
      intro i d hd
      have hi : i < text.length - 1 := hlength ▸ (List.getElem?_eq_some_iff.mp hd).1
      rw [erase_buf hzero, Function.update_of_ne (ofNat_ne (by omega) (by omega))]
      rw [List.getElem?_dropLast, if_pos hi] at hd
      exact h.chars i d hd
    case erased =>
      intro i hlow hhigh
      rw [erase_buf hzero]
      by_cases hlast : i = text.length - 1
      · rw [hlast, ← hprev, UInt32.ofNat_toNat, Function.update_self]
      · rw [Function.update_of_ne (ofNat_ne (by omega) (by omega))]
        exact h.erased i (by omega) hhigh
    case fresh =>
      intro i hlow hhigh
      rw [erase_buf hzero, Function.update_of_ne (ofNat_ne hhigh (by omega))]
      exact h.fresh i hlow hhigh
    case inside =>
      rw [erase_written hzero]
      refine List.forall_mem_append.mpr ⟨h.inside, List.forall_mem_singleton.mpr ?_⟩
      exact UInt32.lt_iff_toNat_lt.mpr (by omega)

/-- **Each key** does what it does to the line, as long as the line fits. -/
theorem Editing.press (font : UInt32 → Nat → Nat → UInt8) (D : Device)
    (h : Editing n start m text v) (hfits : (k.edit text).length ≤ n.toNat) :
    Editing n start (max m (k.edit text).length) (k.edit text) (press font D v k) := by
  cases k with
  | char c =>
    have hlength : (text ++ [c.val]).length = text.length + 1 := by simp
    have hroom : text.length < n.toNat := Nat.lt_of_lt_of_le (by omega) (hlength ▸ hfits)
    show Editing n start (max m (text ++ [c.val]).length) (text ++ [c.val]) _
    rw [hlength]
    exact h.typeIn hroom c.val
  | backspace =>
    have hle := h.le
    have hlength : text.dropLast.length = text.length - 1 := List.length_dropLast
    show Editing n start (max m text.dropLast.length) text.dropLast _
    rw [Nat.max_eq_left (by omega)]
    exact h.erase

/-! ## A line -/

/-- The line at its longest is at least as long as now. -/
theorem length_le_longest (keys : List Keystroke) (text : List UInt8) :
    text.length ≤ longest keys text := by
  cases keys with
  | nil => exact Nat.le_refl _
  | cons k keys => exact Nat.le_max_left ..

/-- A line that stays inside the buffer. -/
theorem Editing.run (font : UInt32 → Nat → Nat → UInt8) (D : Device)
    (h : Editing n start m text v) (hfits : longest keys text ≤ n.toNat) :
    Editing n start (max m (longest keys text)) (edited keys text)
      (keys.foldl (Shell.press font D) v) := by
  induction keys generalizing m text v with
  | nil =>
    show Editing n start (max m text.length) text v
    rw [Nat.max_eq_left h.le]
    exact h
  | cons k keys ih =>
    have hrest : longest keys (k.edit text) ≤ n.toNat := Nat.le_trans (Nat.le_max_right ..) hfits
    have hlength := length_le_longest keys (k.edit text)
    have hrun := ih (h.press font D (Nat.le_trans hlength hrest)) hrest
    have hle := h.le
    have hmax : max (max m (k.edit text).length) (longest keys (k.edit text)) =
        max m (longest (k :: keys) text) := by
      show _ = max m (max text.length (longest keys (k.edit text)))
      omega
    rw [← hmax]
    exact hrun

/-- What has been stored stays on record. -/
theorem mem_press {i : UInt32} (h : i ∈ v.written) : i ∈ (press font D v k).written := by
  cases k with
  | char c => exact List.mem_append_left _ h
  | backspace =>
    show i ∈ (Shell.erase font D v).written
    by_cases hzero : v.loc = 0
    · rwa [erase_start hzero]
    · rw [erase_written hzero]
      exact List.mem_append_left _ h

/-- Over several keys as well. -/
theorem mem_presses {i : UInt32} (h : i ∈ v.written) :
    i ∈ (keys.foldl (press font D) v).written := by
  induction keys generalizing v with
  | nil => exact h
  | cons k keys ih => exact ih (mem_press h)

/-- A line that does not. -/
theorem Editing.overrun (font : UInt32 → Nat → Nat → UInt8) (D : Device)
    (h : Editing n start m text v) (hlong : n.toNat < longest keys text) :
    n ∈ (keys.foldl (Shell.press font D) v).written := by
  induction keys generalizing m text v with
  | nil =>
    have hle := h.le
    have hbound := h.bound
    have hlong' : n.toNat < text.length := hlong
    omega
  | cons k keys ih =>
    have hle := h.le
    have hbound := h.bound
    by_cases hfits : (k.edit text).length ≤ n.toNat
    · refine ih (h.press font D hfits) ?_
      have hmax : n.toNat < max text.length (longest keys (k.edit text)) := hlong
      omega
    · cases k with
      | char c =>
        have hlength : (Keystroke.edit text (.char c)).length = text.length + 1 := by
          simp [Keystroke.edit]
        have hloc : v.loc = n := UInt32.toNat_inj.mp (by rw [h.loc]; omega)
        have hmem : n ∈ (Shell.press font D v (.char c)).written := by
          show n ∈ v.written ++ [v.loc]
          rw [hloc]
          exact List.mem_append_right _ List.mem_cons_self
        rw [List.foldl_cons]
        exact mem_presses hmem
      | backspace =>
        have hlength : (Keystroke.edit text .backspace).length = text.length - 1 :=
          List.length_dropLast
        omega

/-- **The loop of `get_input`** goes on to the first return key. -/
theorem getChars_eq (hnl : c = 0x0a ∨ c = 0x0d) (rest : List UInt8) :
    getChars font D (keys.map Keystroke.code ++ c :: rest) v =
      some (rest, keys.foldl (press font D) v) := by
  induction keys generalizing v with
  | nil =>
    rcases hnl with rfl | rfl
    · rfl
    · rfl
  | cons k keys ih =>
    rw [List.map_cons, List.cons_append, List.foldl_cons, ← ih]
    cases k with
    | char c =>
      have hback : ¬ c.val = 0x08 := fun heq => absurd (heq ▸ c.property.1) (by decide)
      have hend : ¬ (c.val = 0x0d ∨ c.val = 0x0a) := by
        rintro (heq | heq)
        · exact absurd (heq ▸ c.property.1) (by decide)
        · exact absurd (heq ▸ c.property.1) (by decide)
      show (if c.val = 0x08 then _ else if c.val = 0x0d ∨ c.val = 0x0a then _ else _) = _
      rw [if_neg hback, if_neg hend]
      rfl
    | backspace => rfl

/-! ## What the buffer holds -/

/-- A line without null characters stays so. -/
theorem edited_ne_zero (keys : List Keystroke) (htext : ∀ c ∈ text, c ≠ 0) :
    ∀ c ∈ edited keys text, c ≠ 0 := by
  induction keys generalizing text with
  | nil => exact htext
  | cons k keys ih =>
    refine ih ?_
    cases k with
    | char c =>
      refine List.forall_mem_append.mpr ⟨htext, List.forall_mem_singleton.mpr ?_⟩
      intro heq
      exact absurd (heq ▸ c.property.1) (by decide)
    | backspace => exact fun c hc => htext c (List.mem_of_mem_dropLast hc)

/-- Before the first key. -/
theorem editing_nil (n : UInt32) (buf : UInt32 → UInt8) (v : Cursor) :
    Editing n buf 0 [] ⟨v, 0, buf, []⟩ where
  loc := rfl
  le := Nat.le_refl 0
  bound := Nat.zero_le _
  chars := by simp
  erased := by simp
  fresh := fun _ _ _ => rfl
  inside := by simp

/-- A line inside the buffer, at the end. -/
theorem Editing.holds_iff (h : Editing n start m text v) (hn : 0 < n)
    (hchars : ∀ c ∈ text, c ≠ 0) :
    Holds n text v ↔ text.length < n.toNat ∧
      (text.length < m ∨ start (UInt32.ofNat text.length) = 0) := by
  have hn' : 0 < n.toNat := UInt32.lt_iff_toNat_lt.mp hn
  have hlt := n.toNat_lt
  have hle := h.le
  have hbound := h.bound
  by_cases hshort : text.length < n.toNat
  · have htake : text.take (n.toNat - 1) = text := List.take_of_length_le (by omega)
    have hnull : v.buf (UInt32.ofNat text.length) = 0 ↔
        text.length < m ∨ start (UInt32.ofNat text.length) = 0 := by
      by_cases herased : text.length < m
      · exact iff_of_true (h.erased _ (Nat.le_refl _) herased) (Or.inl herased)
      · rw [h.fresh _ (by omega) (by omega), or_iff_right herased]
    constructor
    · intro hholds
      have hend := hholds.null
      rw [htake] at hend
      exact ⟨hshort, hnull.mp hend⟩
    · intro hcond
      constructor
      case inside => exact h.inside
      case chars =>
        rw [htake]
        exact h.chars
      case null =>
        rw [htake]
        exact hnull.mpr hcond.2
  · -- the last character has the place of the null character
    refine iff_of_false (fun hholds => ?_) fun hcond => hshort hcond.1
    have hend := hholds.null
    rw [List.length_take, Nat.min_eq_left (by omega)] at hend
    have hlast : text[n.toNat - 1]? = some text[n.toNat - 1] := List.getElem?_eq_getElem _
    have hzero : text[n.toNat - 1] = 0 := (h.chars _ _ hlast).symm.trans hend
    exact hchars _ (List.getElem_mem _) hzero

/-- Where the echo is does not matter. -/
theorem Editing.withCursor (h : Editing n start m text v) (u : Cursor) :
    Editing n start m text { v with toCursor := u } :=
  ⟨h.loc, h.le, h.bound, h.chars, h.erased, h.fresh, h.inside⟩

/-- **Line input is the edited line** if and only if the line fits the buffer. -/
theorem get_input_iff (font : UInt32 → Nat → Nat → UInt8) (D : Device) (keys : List Keystroke)
    {newline : UInt8} (hnewline : newline = 0x0a ∨ newline = 0x0d) (rest : List UInt8)
    {n : UInt32} (hn : 0 < n) (buf : UInt32 → UInt8) (cursor : Cursor) :
    ∃ v, getInput font D (keys.map Keystroke.code ++ newline :: rest) buf cursor = some (rest, v) ∧
      (Holds n (edited keys []) v ↔ Fits n keys buf) := by
  have hstart := editing_nil n buf cursor
  refine ⟨_, by rw [getInput, getChars_eq hnewline]; rfl, ?_⟩
  by_cases hlong : n.toNat < longest keys []
  · refine iff_of_false (fun hholds => ?_) fun hfits => Nat.not_lt.mpr hfits.inside hlong
    have hmem := hstart.overrun font D hlong
    exact absurd (hholds.inside n hmem) (UInt32.lt_irrefl n)
  · have hrun := (hstart.run font D (Nat.not_lt.mp hlong)).withCursor
      (newLine D (keys.foldl (press font D) ⟨cursor, 0, buf, []⟩).toCursor)
    rw [Nat.zero_max] at hrun
    refine (hrun.holds_iff hn (edited_ne_zero keys (by simp))).trans ?_
    constructor
    · intro hcond
      exact ⟨Nat.not_lt.mp hlong, hcond.1, hcond.2⟩
    · intro hfits
      exact ⟨hfits.shorter, hfits.ended⟩

/-- The command ls, mistyped at first. -/
theorem ls_read :
    ∃ v, getInput (fun _ _ _ => 0) Drawing.background
        ([.char ⟨0x6c, by decide⟩, .char ⟨0x64, by decide⟩, .backspace,
          .char ⟨0x73, by decide⟩].map Keystroke.code ++ 0x0a :: [])
        (fun _ => 0) ⟨2, 0, Drawing.blankMemory⟩ = some ([], v) ∧
      Holds 1024 [0x6c, 0x73] v := by
  obtain ⟨v, hread, hholds⟩ := get_input_iff (fun _ _ _ => 0) Drawing.background
    [.char ⟨0x6c, by decide⟩, .char ⟨0x64, by decide⟩, .backspace, .char ⟨0x73, by decide⟩]
    (Or.inl rfl) [] (n := 1024) (by decide) (fun _ => 0) ⟨2, 0, Drawing.blankMemory⟩
  exact ⟨v, hread, hholds.mpr ⟨by decide, by decide, Or.inr rfl⟩⟩

/-- A message of two characters, in memory that is not clear. -/
theorem message_unterminated :
    ¬ ∀ (font : UInt32 → Nat → Nat → UInt8) (D : Device) (keys : List Keystroke) (newline : UInt8)
        (rest : List UInt8) (n : UInt32) (buf : UInt32 → UInt8) (cursor : Cursor),
      newline = 0x0a ∨ newline = 0x0d → 0 < n →
      ∃ v, getInput font D (keys.map Keystroke.code ++ newline :: rest) buf cursor =
        some (rest, v) ∧ Holds n (edited keys []) v := by
  intro hclaim
  obtain ⟨v, hread, hholds⟩ := hclaim (fun _ _ _ => 0) Drawing.background
    [.char ⟨0x68, by decide⟩, .char ⟨0x69, by decide⟩] 0x0a [] 1024 (fun _ => 0x41)
    ⟨10, 0, Drawing.blankMemory⟩ (Or.inl rfl) (by decide)
  obtain rfl := (Prod.mk.inj (Option.some.inj hread)).2
  have hnull := hholds.null
  revert hnull
  decide

end Cumulonimbus.Shell
