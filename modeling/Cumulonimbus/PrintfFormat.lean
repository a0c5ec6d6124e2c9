import Cumulonimbus.ConsoleRegion
import Cumulonimbus.PrintfNumbers

/-!
# The format of formatted output

Formats as a grammar: characters that are shown, and conversions, each with its options and the
character that closes it.  A string that ends within a conversion is truncated, and no format is.
The parser of `__c_do_printf` follows the grammar.  Only its main loop looks for the null
character, so that of a truncated format closes the conversion, and the parser reads on behind it.
-/

namespace Cumulonimbus.Printf

open Exec Console

/-! ## The grammar -/

/-- A character that may be left out. -/
def optional (ch : UInt8) (given : Bool) : List UInt8 := if given then [ch] else []

/-- `[-][0][digits]` -/
def Options (t : List UInt8) : Prop :=
  ∃ (minus zero : Bool) (ds : List UInt8), (∀ d ∈ ds, isDigit d = true) ∧
    t = optional (chr '-') minus ++ optional (chr '0') zero ++ ds

/-- The types of data. -/
def types : List UInt8 := [chr 'c', chr 'd', chr 's', chr 'x', chr 'o']

/-- A format, and the number of its conversions that take an argument. -/
inductive Format : List UInt8 → Nat → Prop
  | nil : Format [] 0
  | plain {ch : UInt8} {s : List UInt8} {n : Nat} (shown : ch ≠ chr '%') (rest : Format s n) :
    Format (ch :: s) n
  /-- Options, as many as there are, and the character that closes the conversion. -/
  | conversion {t s : List UInt8} {ch : UInt8} {n : Nat} (options : Options t)
    (closes : ¬ Options (t ++ [ch])) (rest : Format s n) :
    Format (chr '%' :: (t ++ ch :: s)) (if ch ∈ types then n + 1 else n)

/-- A format and, behind it, a conversion that is not closed. -/
def TruncatedAfter (s : List UInt8) (n : Nat) : Prop :=
  ∃ p t, Format p n ∧ Options t ∧ s = p ++ chr '%' :: t

def Truncated (s : List UInt8) : Prop := ∃ n, TruncatedAfter s n

/-- How many conversions of a string take an argument. -/
def Specifications (s : List UInt8) (n : Nat) : Prop := Format s n ∨ TruncatedAfter s n

variable {s s' t u p : List UInt8} {ch ch' : UInt8} {n n' : Nat}

/-- A zero is a digit, too. -/
theorem options_iff : Options t ↔ ∃ (minus : Bool) (ds : List UInt8),
    (∀ d ∈ ds, isDigit d = true) ∧ t = optional (chr '-') minus ++ ds := by
  constructor
  · intro h
    obtain ⟨minus, zero, ds, hds, rfl⟩ := h
    refine ⟨minus, optional (chr '0') zero ++ ds, ?_, List.append_assoc ..⟩
    intro d hd
    rcases List.mem_append.mp hd with hzero | hd
    · cases zero with
      | true =>
        rw [List.mem_singleton.mp hzero]
        decide
      | false => cases hzero
    · exact hds d hd
  · intro h
    obtain ⟨minus, ds, hds, rfl⟩ := h
    exact ⟨minus, false, ds, hds, by simp [optional]⟩

/-- The options of a specification that has more of them. -/
theorem Options.before (h : Options (t ++ u)) : Options t := by
  obtain ⟨minus, ds, hds, heq⟩ := options_iff.mp h
  rw [options_iff]
  rcases List.append_eq_append_iff.mp heq with ⟨c, hminus, -⟩ | ⟨c, ht, hc⟩
  · cases minus with
    | true =>
      rcases List.append_eq_singleton_iff.mp hminus.symm with ⟨rfl, -⟩ | ⟨rfl, -⟩
      · exact ⟨false, [], by simp, rfl⟩
      · exact ⟨true, [], by simp, rfl⟩
    | false =>
      obtain ⟨rfl, -⟩ := List.append_eq_nil_iff.mp hminus.symm
      exact ⟨false, [], by simp, rfl⟩
  · refine ⟨minus, c, ?_, ht⟩
    intro d hd
    exact hds d (hc ▸ List.mem_append_left _ hd)

/-- What options end with. -/
theorem Options.last (h : Options (t ++ [ch])) : isDigit ch = true ∨ t = [] ∧ ch = chr '-' := by
  obtain ⟨minus, ds, hds, heq⟩ := options_iff.mp h
  rcases List.eq_nil_or_concat ds with rfl | ⟨ds, d, rfl⟩
  · right
    cases minus with
    | true => simpa [optional, List.append_eq_singleton_iff] using heq
    | false => simp [optional] at heq
  · left
    rw [List.concat_eq_append, ← List.append_assoc] at heq
    obtain ⟨-, hd⟩ := List.append_inj' heq rfl
    rw [List.singleton_inj.mp hd]
    exact hds d (by simp)

/-- The character that closes a conversion is determined. -/
theorem closes_unique (ht : Options t) (hclose : ¬ Options (t ++ [ch])) (hu : Options u)
    (hclose' : ¬ Options (u ++ [ch'])) (h : t ++ ch :: s = u ++ ch' :: s') : s = s' := by
  rcases List.append_eq_append_iff.mp h with ⟨c, rfl, hc⟩ | ⟨c, rfl, hc⟩
  · cases c with
    | nil => exact (List.cons.inj hc).2
    | cons d c =>
      obtain ⟨rfl, -⟩ := List.cons.inj hc
      exact absurd (Options.before (u := c) (by simpa using hu)) hclose
  · cases c with
    | nil => exact (List.cons.inj hc).2.symm
    | cons d c =>
      obtain ⟨rfl, -⟩ := List.cons.inj hc
      exact absurd (Options.before (u := c) (by simpa using ht)) hclose'

/-- A format that starts with a conversion. -/
theorem Format.percent (h : Format (chr '%' :: s) n) : ∃ t ch s' n', s = t ++ ch :: s' ∧
    Options t ∧ ¬ Options (t ++ [ch]) ∧ Format s' n' := by
  generalize hl : chr '%' :: s = l at h
  cases h with
  | nil => cases hl
  | plain shown _ =>
    obtain ⟨rfl, -⟩ := List.cons.inj hl
    exact absurd rfl shown
  | conversion options closes rest =>
    obtain ⟨-, rfl⟩ := List.cons.inj hl
    exact ⟨_, _, _, _, rfl, options, closes, rest⟩

/-- A format in two parts. -/
theorem Format.append (h : Format s n) (h' : Format s' n') : Format (s ++ s') (n' + n) := by
  induction h with
  | nil => exact h'
  | plain shown _ ih => exact .plain shown ih
  | @conversion t s ch n options closes _ ih =>
    have hnext := Format.conversion options closes ih
    rw [show chr '%' :: (t ++ ch :: s) ++ s' = chr '%' :: (t ++ ch :: (s ++ s')) by simp]
    split
    case isTrue htype => rwa [if_pos htype] at hnext
    case isFalse htype => rwa [if_neg htype] at hnext

/-- A format is not truncated. -/
theorem Format.not_truncated (h : Format s n) : ¬ Truncated s := by
  intro ht
  obtain ⟨n', p, u, hp, hu, heq⟩ := ht
  induction h generalizing p n' with
  | nil => simp at heq
  | @plain ch s n shown _ ih =>
    cases p with
    | nil =>
      obtain ⟨rfl, -⟩ := List.cons.inj heq
      exact shown rfl
    | cons d p =>
      obtain ⟨rfl, hs⟩ := List.cons.inj heq
      cases hp with
      | plain _ hp => exact ih _ _ hp hs
      | conversion _ _ _ => exact shown rfl
  | @conversion t s ch n options closes _ ih =>
    cases p with
    | nil =>
      obtain ⟨-, rfl⟩ := List.cons.inj heq
      exact closes (Options.before (u := s) (by simpa using hu))
    | cons d p =>
      obtain ⟨rfl, hs⟩ := List.cons.inj heq
      obtain ⟨t', ch', p', _, rfl, ht', hclose', hp'⟩ := hp.percent
      have hsplit : t ++ ch :: s = t' ++ ch' :: (p' ++ chr '%' :: u) := by simpa using hs
      exact ih _ _ hp' (closes_unique options closes ht' hclose' hsplit)

/-! ## Output

Whatever is put out and wherever, the scroll region and the cursor stay where they belong. -/

variable {V : Video} {σ : State} {E : Spin → Prop}

/-- The cells of the screen do not matter to where the cursor is. -/
theorem inside_video (h : Inside V σ) (video : UInt32 → UInt16) :
    Inside V { σ with video := video } :=
  ⟨⟨h.minX, h.minY, h.maxX, h.maxY, h.leftX, h.orderX, h.rightX, h.topY, h.orderY, h.bottomY⟩,
    h.leftCurr, h.rightCurr, h.topCurr, h.bottomCurr⟩

/-- A character at a place writes a cell. -/
theorem putcharAt_video (V : Video) (x y c : UInt32) (σ : State) :
    wp (putcharAt V x y c) (fun _ τ => ∃ video, τ = { σ with video := video }) E σ := by
  rw [putcharAt, wp_bind, wp_get]
  split
  · split
    · exact ⟨_, rfl⟩
    · exact ⟨_, rfl⟩
  · exact ⟨σ.video, rfl⟩

/-- The loop that erases ends. -/
theorem eraseLimit_lt (h : Inside V σ) (x : UInt32) : (eraseLimit σ x).toNat < 0xffffffff := by
  have hmax : σ.maxX.toNat ≤ 105 := by
    rw [h.maxX]
    cases V <;> decide
  have hright := UInt32.le_iff_toNat_le.mp h.rightX
  have horder := UInt32.le_iff_toNat_le.mp h.orderX
  unfold eraseLimit
  split
  case isTrue => omega
  case isFalse =>
    split
    case isTrue => omega
    case isFalse hleft =>
      have hlt := UInt32.lt_iff_toNat_lt.mp (UInt32.not_le.mp hleft)
      rw [UInt32.toNat_sub_of_le _ _ (UInt32.le_iff_toNat_le.mpr (by rw [UInt32.toNat_one]; omega)),
        UInt32.toNat_one]
      omega

/-- A character at a place keeps the cursor in the region. -/
theorem cPutcharAt_inside (h : Inside V σ) (x y c : UInt32) :
    wp (cPutcharAt V x y c) (fun _ τ => Inside V τ) E σ := by
  rw [cPutcharAt]
  split
  case isTrue =>
    rw [wp_bind, wp_get]
    have hlimit := eraseLimit_lt h x
    refine wp_seq (wp_loop (I := fun _ τ => Inside V τ)
      (fun (x' : UInt32) _ => (eraseLimit σ x).toNat + 1 - x'.toNat) ?_ h ?_) ?_
    · intro x' τ hτ hcond
      have hle := UInt32.le_iff_toNat_le.mp (of_decide_eq_true hcond)
      refine wp_seq (putcharAt_video V x' y 0x20 τ) ?_
      intro _ υ hυ
      obtain ⟨video, rfl⟩ := hυ
      refine ⟨inside_video hτ video, ?_⟩
      rw [UInt32.toNat_add, UInt32.toNat_one]
      omega
    · rw [show rounds = 4294967297 from rfl]
      omega
    · intro _ τ hτ
      exact hτ.1
  case isFalse =>
    refine wp_mono (putcharAt_video V x y c σ) ?_ fun _ he => he
    intro _ τ hτ
    obtain ⟨video, rfl⟩ := hτ
    exact inside_video h video

/-- So does one at the cursor. -/
theorem cPutchar_inside (h : Inside V σ) (c : UInt32) :
    wp (cPutchar V c) (fun _ τ => Inside V τ) E σ :=
  wp_mono (cPutchar_spec h c) (fun _ _ hprinted => hprinted.inside h.toOnScreen) fun _ he => he

/-- So does a text. -/
theorem cPutsAt_inside (h : Inside V σ) (x y : UInt32) (str : List UInt8) :
    wp (cPutsAt V x y str) (fun _ τ => Inside V τ) E σ := by
  induction str generalizing x σ with
  | nil => exact h
  | cons ch str ih =>
    rw [cPutsAt, wp_bind, wp_get]
    split
    · refine wp_seq (cPutcharAt_inside h x y _) ?_
      intro _ τ hτ
      exact ih hτ _
    · exact h

/-- So does padding. -/
theorem pad_inside (h : Inside V σ) (x y extra padchar : Int32) :
    wp (pad V x y extra padchar) (fun _ τ => Inside V τ) E σ := by
  unfold pad
  induction extra.toInt.toNat generalizing x σ with
  | zero => exact h
  | succ extra ih =>
    rw [padTurns]
    split
    · refine wp_seq (cPutcharAt_inside h _ _ _) ?_
      intro _ τ hτ
      exact ih hτ _
    · refine wp_seq (cPutchar_inside h _) ?_
      intro _ τ hτ
      exact ih hτ _

/-- A string that has an end is read. -/
theorem readString_spec {src : Bytes} {k : Nat} (hk : k < n) (hnull : src k = 0) :
    wp (readString n src) (fun _ τ => τ = σ) E σ := by
  induction n generalizing src k with
  | zero => omega
  | succ n ih =>
    rw [readString]
    split
    case isTrue => rfl
    case isFalse hfirst =>
      cases k with
      | zero => exact absurd hnull hfirst
      | succ k =>
        have hrest : wp (readString n fun i => src (i + 1)) (fun _ τ => τ = σ) E σ :=
          ih (Nat.lt_of_succ_lt_succ hk) hnull
        refine wp_seq hrest ?_
        intro _ τ hτ
        exact hτ

/-- So does a padded string that ends. -/
theorem padstr_inside {src : Bytes} (h : Inside V σ) (hsrc : ∃ k < rounds, src k = 0)
    (x y len width : Int32) (leftadjust : Bool) (padchar : Int32) :
    wp (padstr V x y src len width leftadjust padchar) (fun _ τ => Inside V τ) E σ := by
  obtain ⟨k, hk, hnull⟩ := hsrc
  have hpad {c : Prop} [Decidable c] {extra x' : Int32} {τ : State} (hτ : Inside V τ) :
      wp (if c then pad V x' y extra padchar else pure x') (fun _ τ => Inside V τ) E τ := by
    split
    · exact pad_inside hτ _ _ _ _
    · exact hτ
  have hshow {str : List UInt8} {x' len' : Int32} {k : Int32 → Console.Con Int32} {τ : State}
      (hτ : Inside V τ) (hk : ∀ x'' υ, Inside V υ → wp (k x'') (fun _ υ => Inside V υ) E υ) :
      wp (if placed x' y then do
          cPutsAt V x'.toUInt32 y.toUInt32 str
          let x'' ← pure (x' + len')
          k x''
        else do
          cPuts V str
          let x'' ← pure x'
          k x'') (fun _ υ => Inside V υ) E τ := by
    split
    · refine wp_seq (cPutsAt_inside hτ _ _ _) ?_
      intro _ υ hυ
      exact hk _ υ hυ
    · refine wp_seq (cPuts_spec hτ _) ?_
      intro _ υ hυ
      exact hk _ υ (hυ.inside hτ.toOnScreen)
  rw [padstr]
  refine wp_seq (readString_spec hk hnull) ?_
  intro str τ hτ
  obtain rfl := hτ
  dsimp only
  generalize (if len < 0 then Int32.ofNat str.length else len) = len
  split
  · refine wp_seq (pad_inside h _ _ _ _) ?_
    intro x' τ hτ
    exact hshow hτ fun _ _ hυ => hpad hυ
  · exact hshow h fun _ _ hυ => hpad hυ

/-! ## Reading the format -/

/-- A string lies in memory with the null character behind it. -/
structure Lies (mem : UInt32 → UInt8) (f : UInt32) (s : List UInt8) : Prop where
  chars : ∀ i (h : i < s.length), mem (f + UInt32.ofNat i) = s.get ⟨i, h⟩
  nonzero : ∀ ch ∈ s, ch ≠ 0
  null : mem (f + UInt32.ofNat s.length) = 0

variable {mem : UInt32 → UInt8} {f : UInt32} {args : Nat → UInt32} {pre rest : List UInt8}
  {v w : Locals}

/-- Memory would repeat behind its last address. -/
theorem Lies.length_lt (h : Lies mem f s) : s.length < 0x100000000 := by
  by_contra hge
  have hlt : s.length - 0x100000000 < s.length := by omega
  have hsame : UInt32.ofNat (s.length - 0x100000000) = UInt32.ofNat s.length := by
    rw [← UInt32.toNat_inj, UInt32.toNat_ofNat', UInt32.toNat_ofNat']
    omega
  have hchar := h.chars _ hlt
  rw [hsame, h.null] at hchar
  exact h.nonzero _ (List.get_mem s ⟨_, hlt⟩) hchar.symm

/-- The characters of `pre` and the one behind them have been read, each once and in order. -/
structure Reads (s pre rest : List UInt8) (v : Locals) : Prop where
  split : s = pre ++ rest
  fmt : v.fmt = pre.length + 1
  fetched : v.fetched = List.range (pre.length + 1)

/-- The last one is the current character. -/
structure At (s pre rest : List UInt8) (v : Locals) : Prop extends Reads s pre rest v where
  ch : v.ch = rest.headD 0

/-- The character at a place of the format. -/
theorem Lies.char (h : Lies mem f s) (hs : s = pre ++ rest) :
    mem (f + UInt32.ofNat pre.length) = rest.headD 0 := by
  subst hs
  cases rest with
  | nil =>
    have hnull := h.null
    rwa [List.append_nil] at hnull
  | cons ch rest =>
    have hlt : pre.length < (pre ++ ch :: rest).length := by simp
    rw [h.chars _ hlt]
    simp

/-- The next character. -/
theorem Reads.fetch (h : Lies mem f s) (hv : Reads s pre (ch :: rest) v) :
    At s (pre ++ [ch]) rest (fetch mem f v) := by
  have hs : s = (pre ++ [ch]) ++ rest := by
    rw [hv.split, List.append_assoc]
    rfl
  have hlength : (pre ++ [ch]).length = pre.length + 1 := List.length_append
  refine ⟨⟨hs, ?_, ?_⟩, ?_⟩
  · show v.fmt + 1 = _
    rw [hv.fmt, hlength]
  · show v.fetched ++ [v.fmt] = _
    rw [hv.fetched, hv.fmt, hlength, ← List.range_succ]
  · show mem (f + UInt32.ofNat v.fmt) = _
    rw [hv.fmt, ← hlength, h.char hs]

/-- The loop ends exactly at the end of the format. -/
theorem At.ch_ne_zero (h : Lies mem f s) (hv : At s pre rest v) : v.ch ≠ 0 ↔ rest ≠ [] := by
  cases rest with
  | nil => simp [hv.ch]
  | cons ch rest =>
    have hmem : ch ∈ s := by
      rw [hv.split]
      simp
    simp [hv.ch, h.nonzero ch hmem]

/-- A character that may be left out. -/
theorem At.skip (hv : At s pre rest v) (ch : UInt8) (h : Lies mem f s) (hch : ch ≠ 0)
    (hw : w.fmt = v.fmt ∧ w.fetched = v.fetched) :
    ∃ given rest', rest = optional ch given ++ rest' ∧ (given = false → rest'.head? ≠ some ch) ∧
      At s (pre ++ optional ch given) rest' (if v.ch = ch then fetch mem f w else v) := by
  split
  case isTrue heq =>
    cases rest with
    | nil => exact absurd (heq.symm.trans hv.ch) hch
    | cons ch' rest =>
      obtain rfl : ch' = ch := hv.ch.symm.trans heq
      have hreads : Reads s pre (ch' :: rest) w :=
        ⟨hv.split, hw.1.trans hv.fmt, hw.2.trans hv.fetched⟩
      exact ⟨true, rest, rfl, by simp, hreads.fetch h⟩
  case isFalse hne =>
    refine ⟨false, rest, rfl, ?_, by simpa [optional] using hv⟩
    intro _ hhead
    have hch := hv.ch
    cases rest with
    | nil => cases hhead
    | cons ch' rest => exact hne (hch.trans (Option.some.inj hhead))

/-- The digits of a width. -/
theorem takeWidth_spec (h : Lies mem f s) (hv : At s pre rest v) :
    wp (takeWidth mem f v)
      (fun w τ => τ = σ ∧ w.ap = v.ap ∧ ∃ ds rest', rest = ds ++ rest' ∧
        (∀ d ∈ ds, isDigit d = true) ∧ (∀ d ∈ rest'.head?, isDigit d = false) ∧
        At s (pre ++ ds) rest' w) E σ := by
  refine wp_mono (wp_loop_indexed (I := fun n w τ => τ = σ ∧ w.ap = v.ap ∧ ∃ ds rest',
    rest = ds ++ rest' ∧ (∀ d ∈ ds, isDigit d = true) ∧ At s (pre ++ ds) rest' w ∧
    n = rest'.length) ?_ (n := rest.length) ?_ ?_) ?_ fun _ he => he
  · intro n w τ hinv hcond
    obtain ⟨rfl, hap, ds, rest', rfl, hds, hw, rfl⟩ := hinv
    have hdigit : isDigit w.ch = true := hcond
    cases rest' with
    | nil =>
      rw [hw.ch] at hdigit
      exact absurd hdigit (by decide)
    | cons d rest' =>
      rw [hw.ch] at hdigit
      have hreads : Reads s (pre ++ ds) (d :: rest')
          { w with width := w.width * 10 + (w.ch - chr '0').toUInt32.toInt32 } :=
        ⟨hw.split, hw.fmt, hw.fetched⟩
      have hnext := hreads.fetch h
      refine ⟨rest'.length, by simp, rfl, hap, ds ++ [d], rest', by simp, ?_, ?_, rfl⟩
      · intro e he
        rcases List.mem_append.mp he with he | he
        · exact hds e he
        · rw [List.mem_singleton.mp he]
          exact hdigit
      · rwa [List.append_assoc] at hnext
  · exact ⟨rfl, rfl, [], rest, rfl, by simp, by simpa using hv, rfl⟩
  · have hlt := h.length_lt
    rw [hv.split, List.length_append] at hlt
    rw [show rounds = 4294967297 from rfl]
    omega
  · intro w τ hpost
    obtain ⟨⟨_, rfl, hap, ds, rest', rfl, hds, hw, -⟩, hdone⟩ := hpost
    refine ⟨rfl, hap, ds, rest', rfl, hds, ?_, hw⟩
    intro d hd
    have hdone' : isDigit w.ch = false := hdone
    cases rest' with
    | nil => cases hd
    | cons d' rest' =>
      obtain rfl : d' = d := Option.some.inj hd
      rwa [hw.ch] at hdone'

/-- The options of a conversion, as many as there are. -/
theorem options_spec (h : Lies mem f s) (hv : At s pre rest v) :
    wp (takeWidth mem f (takeFill mem f (takeAlignment mem f v)))
      (fun w τ => τ = σ ∧ w.ap = v.ap ∧ ∃ t rest', rest = t ++ rest' ∧ Options t ∧
        (∀ ch ∈ rest'.head?, ¬ Options (t ++ [ch])) ∧ At s (pre ++ t) rest' w) E σ := by
  obtain ⟨minus, rest₁, rfl, hminus, hv₁⟩ :=
    hv.skip (chr '-') (w := { v with leftadjust := true }) h (by decide) ⟨rfl, rfl⟩
  obtain ⟨zero, rest₂, rfl, -, hv₂⟩ :=
    hv₁.skip (chr '0')
      (w := { takeAlignment mem f v with padchar := (chr '0').toUInt32.toInt32 })
      h (by decide) ⟨rfl, rfl⟩
  have hap : (takeFill mem f (takeAlignment mem f v)).ap = v.ap := by
    unfold takeFill takeAlignment
    grind [fetch]
  refine wp_mono (takeWidth_spec h hv₂) ?_ fun _ he => he
  intro w τ hw
  obtain ⟨rfl, hwap, ds, rest', rfl, hds, hlast, hw⟩ := hw
  refine ⟨rfl, hwap.trans hap, optional (chr '-') minus ++ optional (chr '0') zero ++ ds, rest',
    by simp, ⟨minus, zero, ds, hds, rfl⟩, ?_, by simpa using hw⟩
  intro ch hch hoptions
  rcases hoptions.last with hdigit | ⟨hnil, rfl⟩
  · exact absurd hdigit (by simp [hlast ch hch])
  · simp only [List.append_eq_nil_iff] at hnil
    obtain ⟨⟨hnominus, hnozero⟩, rfl⟩ := hnil
    have hfalse : minus = false := by
      cases minus with
      | true => cases hnominus
      | false => rfl
    refine hminus hfalse ?_
    rw [hnozero]
    exact hch

/-- A conversion puts something out and takes an argument if it has one of the types. -/
theorem convert_spec (hin : Inside V σ) (hnull : ∃ a, mem a = 0) (v : Locals) :
    wp (convert V mem args v)
      (fun w τ => Inside V τ ∧ w.fmt = v.fmt ∧ w.fetched = v.fetched ∧
        w.ap = if v.ch ∈ types then v.ap + 1 else v.ap) E σ := by
  have hpad {u : Locals} {src : Bytes} {len : Int32} (hsrc : ∃ k < rounds, src k = 0)
      (hu : u.fmt = v.fmt ∧ u.fetched = v.fetched ∧ u.ap = v.ap + 1) (htype : v.ch ∈ types) :
      wp (padLocals V u src len)
        (fun w τ => Inside V τ ∧ w.fmt = v.fmt ∧ w.fetched = v.fetched ∧
          w.ap = if v.ch ∈ types then v.ap + 1 else v.ap) E σ := by
    rw [if_pos htype]
    refine wp_seq (padstr_inside hin hsrc _ _ _ _ _ _) ?_
    intro x τ hτ
    exact ⟨hτ, hu⟩
  have hnumber {cvt : Bytes → Int32 → Bytes × Nat}
      (hcvt : ∀ buf value, ∃ chars, Prints buf (cvt buf value) chars) (htype : v.ch ∈ types) :
      wp (padNumber V args v cvt)
        (fun w τ => Inside V τ ∧ w.fmt = v.fmt ∧ w.fetched = v.fetched ∧
          w.ap = if v.ch ∈ types then v.ap + 1 else v.ap) E σ := by
    obtain ⟨chars, hprints⟩ := hcvt v.buf (args v.ap).toInt32
    have hfits := hprints.fits
    refine hpad ⟨_, ?_, hprints.terminated⟩ ⟨rfl, rfl, rfl⟩ htype
    rw [show rounds = 4294967297 from rfl]
    omega
  rw [convert]
  split
  case isTrue heq =>
    exact hpad ⟨1, by decide, Function.update_self ..⟩ ⟨rfl, rfl, rfl⟩ (by rw [heq]; decide)
  case isFalse hc =>
    split
    case isTrue heq =>
      exact hnumber (fun buf value => ⟨_, cvtdec_prints buf value⟩) (by rw [heq]; decide)
    case isFalse hd =>
      split
      case isTrue heq =>
        obtain ⟨a, ha⟩ := hnull
        refine hpad ⟨(a - args v.ap).toNat, ?_, ?_⟩ ⟨rfl, rfl, rfl⟩ (by rw [heq]; decide)
        · have hlt := (a - args v.ap).toNat_lt
          rw [show rounds = 4294967297 from rfl]
          omega
        · rw [UInt32.ofNat_toNat, UInt32.add_comm, UInt32.sub_add_cancel]
          exact ha
      case isFalse hs =>
        split
        case isTrue heq =>
          exact hnumber (fun buf value => ⟨_, cvthex_prints buf value⟩) (by rw [heq]; decide)
        case isFalse hx =>
          split
          case isTrue heq =>
            exact hnumber (fun buf value => ⟨_, cvtoct_prints buf value⟩) (by rw [heq]; decide)
          case isFalse ho =>
            have htype : v.ch ∉ types := by simp [types, hc, hd, hs, hx, ho]
            rw [if_neg htype]
            exact ⟨hin, rfl, rfl, rfl⟩

/-! ## The turns of the main loop -/

/-- What a turn comes to: the character behind a format, or, when a conversion has taken the null
character, the byte behind that. -/
def Parsed (s : List UInt8) (n : Nat) (w : Locals) : Prop :=
  (∃ pre rest, rest.length < n ∧ At s pre rest w ∧ Format pre w.ap) ∨
  (TruncatedAfter s w.ap ∧ s.length + 1 ∈ w.fetched)

/-- A character that is shown as it is fetches nothing and takes no argument. -/
theorem showPlain_spec (hin : Inside V σ) (v : Locals) :
    wp (showPlain V v)
      (fun w τ => Inside V τ ∧ w.fmt = v.fmt ∧ w.fetched = v.fetched ∧ w.ap = v.ap) E σ := by
  rw [showPlain]
  split
  · refine wp_seq (cPutcharAt_inside hin _ _ _) ?_
    intro _ τ hτ
    rw [wp_bind, wp_get]
    split
    · exact ⟨hτ, rfl, rfl, rfl⟩
    · split
      · exact ⟨hτ, rfl, rfl, rfl⟩
      · exact ⟨hτ, rfl, rfl, rfl⟩
  · refine wp_seq (cPutchar_inside hin _) ?_
    intro _ τ hτ
    exact ⟨hτ, rfl, rfl, rfl⟩

/-- **A specification** takes one argument if its type is known, and its last character is the one
behind the options. -/
theorem formatCode_spec (h : Lies mem f s) (hin : Inside V σ) (hv : At s pre (chr '%' :: rest) v) :
    wp (formatCode V mem f args v)
      (fun w τ => Inside V τ ∧ ∃ t rest', rest = t ++ rest' ∧ Options t ∧
        (∀ ch ∈ rest'.head?, ¬ Options (t ++ [ch])) ∧ Reads s (pre ++ chr '%' :: t) rest' w ∧
        w.ap = if rest'.headD 0 ∈ types then v.ap + 1 else v.ap) E σ := by
  have hreads : Reads s pre (chr '%' :: rest)
      { v with leftadjust := false, padchar := (chr ' ').toUInt32.toInt32, width := 0 } :=
    ⟨hv.split, hv.fmt, hv.fetched⟩
  rw [formatCode]
  refine wp_seq (options_spec h (hreads.fetch h)) ?_
  intro w τ hw
  obtain ⟨rfl, hap, t, rest', rfl, ht, hcloses, hw⟩ := hw
  refine wp_mono (convert_spec hin ⟨_, h.null⟩ w) ?_ fun _ he => he
  intro u υ hu
  obtain ⟨hυ, hfmt, hfetched, huap⟩ := hu
  have happend : pre ++ [chr '%'] ++ t = pre ++ chr '%' :: t := by simp
  rw [happend] at hw
  refine ⟨hυ, t, rest', rfl, ht, hcloses,
    ⟨hw.split, hfmt.trans hw.fmt, hfetched.trans hw.fetched⟩, ?_⟩
  rw [huap, hw.ch, hap]
  rfl

/-- **One turn.** -/
theorem formatTurn_spec (h : Lies mem f s) (hin : Inside V σ) (hv : At s pre (ch :: rest) v)
    (hpre : Format pre v.ap) :
    wp (formatTurn V mem f args v)
      (fun w τ => Inside V τ ∧ Parsed s (ch :: rest).length w) E σ := by
  have hch : v.ch = ch := hv.ch
  rw [formatTurn]
  split
  case isTrue hpercent =>
    obtain rfl : ch = chr '%' := hch.symm.trans hpercent
    refine wp_seq (formatCode_spec h hin hv) ?_
    intro w τ hw
    obtain ⟨hτ, t, rest', rfl, ht, hcloses, hw, hap⟩ := hw
    refine ⟨hτ, ?_⟩
    cases rest' with
    | nil =>
      have hs : s = pre ++ chr '%' :: t := by simpa using hw.split
      have hlength : w.fmt = s.length + 1 := by rw [hw.fmt, hs]
      right
      refine ⟨⟨pre, t, ?_, ht, hs⟩, ?_⟩
      · show Format pre w.ap
        rw [hap, if_neg (by decide)]
        exact hpre
      · show _ ∈ w.fetched ++ [w.fmt]
        simp [hlength]
    | cons ch rest' =>
      left
      refine ⟨pre ++ chr '%' :: t ++ [ch], rest', by simp; omega, hw.fetch h, ?_⟩
      have hformat := hpre.append (Format.conversion ht (hcloses ch rfl) .nil)
      have hsum : (if ch ∈ types then 0 + 1 else 0) + v.ap =
          if (ch :: rest').headD 0 ∈ types then v.ap + 1 else v.ap := by
        rw [List.headD_cons]
        split <;> omega
      rw [hsum, ← hap] at hformat
      rwa [List.append_assoc]
  case isFalse hplain =>
    refine wp_seq (showPlain_spec hin v) ?_
    intro w τ hw
    obtain ⟨hτ, hfmt, hfetched, hap⟩ := hw
    have hreads : Reads s pre (ch :: rest) w :=
      ⟨hv.split, hfmt.trans hv.fmt, hfetched.trans hv.fetched⟩
    refine ⟨hτ, Or.inl ⟨pre ++ [ch], rest, by simp, hreads.fetch h, ?_⟩⟩
    show Format _ w.ap
    have hformat := hpre.append (Format.plain (hch ▸ hplain) .nil)
    rwa [hap, ← Nat.zero_add v.ap]

/-- What has been read stays read. -/
theorem formatTurn_grows (v : Locals) (i : Nat) (hi : i ∈ v.fetched) :
    wp (formatTurn V mem f args v) (fun w _ => i ∈ w.fetched) (fun _ => True) σ := by
  have hfetch {u : Locals} (hu : i ∈ u.fetched) : i ∈ (fetch mem f u).fetched :=
    List.mem_append_left _ hu
  have hpad {u : Locals} {src : Bytes} {len : Int32} {τ : State} (hu : i ∈ u.fetched) :
      wp (padLocals V u src len) (fun w _ => i ∈ w.fetched) (fun _ => True) τ := by
    refine wp_seq (wp_true _ _) ?_
    intro _ _ _
    exact hu
  have hconvert {u : Locals} {τ : State} (hu : i ∈ u.fetched) :
      wp (convert V mem args u) (fun w _ => i ∈ w.fetched) (fun _ => True) τ := by
    unfold convert padNumber
    split_ifs
    · exact hpad hu
    · exact hpad hu
    · exact hpad hu
    · exact hpad hu
    · exact hpad hu
    · exact hu
  have hwidth {u : Locals} {τ : State} (hu : i ∈ u.fetched) :
      wp (takeWidth mem f u) (fun w _ => i ∈ w.fetched) (fun _ => True) τ := by
    refine wp_mono (wp_loop_endless (I := fun w _ => i ∈ w.fetched) trivial ?_ hu) ?_ fun _ he => he
    · intro w _ hw _
      exact hfetch hw
    · intro w _ hw
      exact hw.1
  have hoptions {u : Locals} (hu : i ∈ u.fetched) :
      i ∈ (takeFill mem f (takeAlignment mem f u)).fetched := by
    unfold takeFill takeAlignment
    split_ifs
    · exact hfetch (hfetch hu)
    · exact hfetch hu
    · exact hfetch hu
    · exact hu
  rw [formatTurn]
  split
  · rw [formatCode]
    refine wp_seq (R := fun w _ => i ∈ w.fetched) ?_ ?_
    · refine wp_seq (hwidth (hoptions (hfetch hi))) ?_
      intro w _ hw
      exact hconvert hw
    · intro w _ hw
      exact hfetch hw
  · refine wp_seq (R := fun w _ => i ∈ w.fetched) ?_ ?_
    · rw [showPlain]
      split
      · refine wp_seq (wp_true _ _) ?_
        intro _ τ _
        rw [wp_bind, wp_get]
        split_ifs
        · exact hi
        · exact hi
        · exact hi
      · refine wp_seq (wp_true _ _) ?_
        intro _ _ _
        exact hi
    · intro w _ hw
      exact hfetch hw

/-! ## Runs -/

variable {x y : Int32} {buf : Bytes}

/-- The loop starts at the first character. -/
theorem start_at (h : Lies mem f s) (x y : Int32) (buf : Bytes) :
    At s [] s (fetch mem f ⟨x, y, 0, 0, buf, 0, false, 0, 0, []⟩) :=
  ⟨⟨rfl, rfl, rfl⟩, h.char (show s = [] ++ s from rfl)⟩

/-- Where the loop ends, the format does. -/
theorem At.done (h : Lies mem f s) (hv : At s pre rest v) (hdone : v.ch = 0)
    (hpre : Format pre v.ap) :
    Format s v.ap ∧ v.fmt = s.length + 1 ∧ v.fetched = List.range (s.length + 1) := by
  have hrest : rest = [] := by
    by_contra hne
    exact (hv.ch_ne_zero h).mpr hne hdone
  have hs : s = pre := by
    rw [hv.split, hrest, List.append_nil]
  rw [hs]
  exact ⟨hpre, hv.fmt, hv.fetched⟩

/-- A format that is not truncated is read to its end and no further. -/
theorem format_read (h : Lies mem f s) (hin : Inside V σ) (hwhole : ¬ Truncated s) :
    wp (cDoPrintf V mem f args x y buf)
      (fun w τ => Inside V τ ∧ Format s w.ap ∧ w.fmt = s.length + 1 ∧
        w.fetched = List.range (s.length + 1)) E σ := by
  refine wp_mono (wp_loop_indexed (I := fun n w τ => Inside V τ ∧ ∃ pre rest, n = rest.length ∧
    At s pre rest w ∧ Format pre w.ap) ?_ (n := s.length) ?_ ?_) ?_ fun _ he => he
  · intro n v τ hinv hcond
    obtain ⟨hτ, pre, rest, rfl, hv, hpre⟩ := hinv
    have hne : rest ≠ [] := (hv.ch_ne_zero h).mp (of_decide_eq_true hcond)
    obtain ⟨ch, rest, rfl⟩ := List.exists_cons_of_ne_nil hne
    refine wp_mono (formatTurn_spec h hτ hv hpre) ?_ fun _ he => he
    intro w υ hpost
    obtain ⟨hυ, hparsed⟩ := hpost
    rcases hparsed with ⟨pre', rest', hlt, hw, hpre'⟩ | ⟨htruncated, -⟩
    · exact ⟨rest'.length, hlt, hυ, pre', rest', rfl, hw, hpre'⟩
    · exact absurd ⟨_, htruncated⟩ hwhole
  · exact ⟨hin, [], s, rfl, start_at h x y buf, .nil⟩
  · have hlt := h.length_lt
    rw [show rounds = 4294967297 from rfl]
    omega
  · intro w τ hpost
    obtain ⟨⟨_, hτ, pre, rest, -, hw, hpre⟩, hdone⟩ := hpost
    exact ⟨hτ, hw.done h (by simpa using hdone) hpre⟩

/-- Behind a truncated format at least one byte is read. -/
theorem truncated_read (h : Lies mem f s) (hin : Inside V σ) (htruncated : Truncated s) :
    wp (cDoPrintf V mem f args x y buf) (fun w _ => s.length + 1 ∈ w.fetched) (fun _ => True)
      σ := by
  refine wp_mono (wp_loop_endless (I := fun w τ => s.length + 1 ∈ w.fetched ∨
    Inside V τ ∧ ∃ pre rest, At s pre rest w ∧ Format pre w.ap) trivial ?_ ?_) ?_ fun _ he => he
  · intro v τ hinv hcond
    rcases hinv with hpast | ⟨hτ, pre, rest, hv, hpre⟩
    · exact wp_mono (formatTurn_grows v _ hpast) (fun _ _ hw => Or.inl hw) fun _ he => he
    · have hne : rest ≠ [] := (hv.ch_ne_zero h).mp (of_decide_eq_true hcond)
      obtain ⟨ch, rest, rfl⟩ := List.exists_cons_of_ne_nil hne
      refine wp_mono (formatTurn_spec h hτ hv hpre) ?_ fun _ he => he
      intro w υ hpost
      obtain ⟨hυ, hparsed⟩ := hpost
      rcases hparsed with ⟨pre', rest', -, hw, hpre'⟩ | ⟨-, hpast⟩
      · exact Or.inr ⟨hυ, pre', rest', hw, hpre'⟩
      · exact Or.inl hpast
  · exact Or.inr ⟨hin, [], s, start_at h x y buf, .nil⟩
  · intro w τ hpost
    obtain ⟨hinv, hdone⟩ := hpost
    rcases hinv with hpast | ⟨-, pre, rest, hw, hpre⟩
    · exact hpast
    · have hformat := (hw.done h (by simpa using hdone) hpre).1
      exact absurd htruncated hformat.not_truncated

/-- **The format parser stays inside its string** unless the string ends within a conversion. -/
theorem format_read_iff (V : Video) {mem : UInt32 → UInt8} {f : UInt32} {s : List UInt8}
    {σ : State} (h : Lies mem f s) (hin : Inside V σ) (args : Nat → UInt32) (x y : Int32)
    (buf : Bytes) :
    (∃ w τ, cDoPrintf V mem f args x y buf σ = .ok (w, τ) ∧ (∀ i ∈ w.fetched, i ≤ s.length) ∧
      w.fmt = s.length + 1 ∧ Specifications s w.ap) ↔ ¬ Truncated s := by
  constructor
  · intro hrun htruncated
    obtain ⟨w, τ, hrun, hinside, -⟩ := hrun
    have hpast := wp_ok (truncated_read h hin htruncated) hrun
    have hle := hinside _ hpast
    omega
  · intro hwhole
    have hread : wp (cDoPrintf V mem f args x y buf) _ (fun _ => False) σ :=
      format_read h hin hwhole
    obtain ⟨w, τ, hrun, -, hformat, hfmt, hfetched⟩ := wp_returns hread
    refine ⟨w, τ, hrun, ?_, hfmt, Or.inl hformat⟩
    intro i hi
    rw [hfetched, List.mem_range] at hi
    omega

/-- A console whose scroll region is the screen. -/
def wholeScreen : State :=
  ⟨0, 0, 105, 63, 0, 0, 0, 0, 105, 63, fun _ => 0, []⟩

/-- The cursor of the example is in its region. -/
theorem inside_wholeScreen : Inside .vesa wholeScreen := by
  have hleft : (0 : UInt32) ≤ 105 := by decide
  have htop : (0 : UInt32) ≤ 63 := by decide
  exact ⟨⟨rfl, rfl, rfl, rfl, by decide, hleft, by decide, by decide, htop, by decide⟩, by decide,
    hleft, by decide, by decide⟩

/-- `%d` takes one argument. -/
theorem decimal_specification : Format [chr '%', chr 'd'] 1 := by
  have hcloses : ¬ Options ([] ++ [chr 'd']) := by
    intro h
    rcases h.last with hdigit | ⟨-, hminus⟩
    · exact absurd hdigit (by decide)
    · exact absurd hminus (by decide)
  exact .conversion (t := []) ⟨false, false, [], by simp, rfl⟩ hcloses .nil

theorem format_read_decimal :
    ∃ w τ, cPrintfAt .vesa (fun a => if a = 0 then chr '%' else if a = 1 then chr 'd' else 0) 0
        (fun _ => 42) 10 5 (fun _ => 0) wholeScreen = .ok (w, τ) ∧
      (∀ i ∈ w.fetched, i ≤ 2) ∧ w.fmt = 3 ∧ Specifications [chr '%', chr 'd'] w.ap := by
  have hlies : Lies (fun a => if a = 0 then chr '%' else if a = 1 then chr 'd' else 0) 0
      [chr '%', chr 'd'] :=
    ⟨by decide, List.forall_mem_cons.mpr ⟨by decide, List.forall_mem_singleton.mpr (by decide)⟩,
      by decide⟩
  exact (format_read_iff .vesa hlies inside_wholeScreen _ _ _ _).mpr
    decimal_specification.not_truncated

/-- The format `%` is read behind its null character. -/
theorem lone_percent_read_on : ¬ ∃ w τ, cPrintf .vesa (fun a => if a = 0 then chr '%' else 0) 0
    (fun _ => 0) (fun _ => 0) wholeScreen = .ok (w, τ) ∧ ∀ i ∈ w.fetched, i ≤ 1 := by
  intro h
  obtain ⟨w, τ, hrun, hinside⟩ := h
  have hlies : Lies (fun a => if a = 0 then chr '%' else 0) 0 [chr '%'] :=
    ⟨by decide, List.forall_mem_singleton.mpr (by decide), by decide⟩
  have htruncated : Truncated [chr '%'] :=
    ⟨0, [], [], .nil, ⟨false, false, [], by simp, rfl⟩, rfl⟩
  have hpast := wp_ok (truncated_read hlies inside_wholeScreen htruncated) hrun
  exact absurd (hinside _ hpast) (by decide)

end Cumulonimbus.Printf
