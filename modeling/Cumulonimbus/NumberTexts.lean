import Mathlib.Data.List.TakeWhile
import Cumulonimbus.Numerals

/-!
# Numbers in texts

The integers that C reads from text: blanks, a sign, and digits of a base, which a prefix can tell.
`scan` reads as much of a text as is part of a number and gives the rest back, and `strtol` keeps
what it has read within the limits of its type.  What is read to the end is what the grammar says,
`Literal`, and the value of a literal is unique.

Nothing here depends on the program that is verified with it.
-/

namespace NumberTexts

open Numerals

/-- `isspace` -/
def isSpace (c : UInt8) : Bool := c = 0x20 || (0x09 ≤ c && c ≤ 0x0d)

/-- The value of a digit, in bases up to 36. -/
def digitValue (c : UInt8) : Nat :=
  if 0x30 ≤ c ∧ c ≤ 0x39 then c.toNat - 0x30
  else if 0x41 ≤ c ∧ c ≤ 0x5a then c.toNat - 0x37
  else if 0x61 ≤ c ∧ c ≤ 0x7a then c.toNat - 0x57
  else 36

def isDigit (b : Nat) (c : UInt8) : Bool := digitValue c < b

/-- What digits stand for. -/
def number (b : Nat) (ds : List UInt8) : Nat := value b (ds.map digitValue)

/-! ## The grammar -/

/-- An integer constant without a sign: octal after a 0, hexadecimal after 0x, decimal
otherwise. -/
inductive Constant : List UInt8 → Nat → Prop
  | decimal {ds : List UInt8} (hne : ds ≠ []) (hhead : ds.head? ≠ some 0x30)
      (hds : ∀ c ∈ ds, isDigit 10 c = true) : Constant ds (number 10 ds)
  | octal {ds : List UInt8} (hds : ∀ c ∈ ds, isDigit 8 c = true) :
      Constant (0x30 :: ds) (number 8 ds)
  | hexadecimal {x : UInt8} {ds : List UInt8} (hx : x = 0x78 ∨ x = 0x58) (hne : ds ≠ [])
      (hds : ∀ c ∈ ds, isDigit 16 c = true) : Constant (0x30 :: x :: ds) (number 16 ds)

inductive Signed : List UInt8 → Int → Prop
  | plain {ds : List UInt8} {n : Nat} (hds : Constant ds n) : Signed ds n
  | plus {ds : List UInt8} {n : Nat} (hds : Constant ds n) : Signed (0x2b :: ds) n
  | minus {ds : List UInt8} {n : Nat} (hds : Constant ds n) : Signed (0x2d :: ds) (-n)

/-- A whole text: blanks may come first. -/
inductive Literal : List UInt8 → Int → Prop
  | signed {text : List UInt8} {a : Int} (h : Signed text a) : Literal text a
  | blank {c : UInt8} {text : List UInt8} {a : Int} (hc : isSpace c = true) (h : Literal text a) :
      Literal (c :: text) a

/-! ## Reading -/

def isNegative : List UInt8 → Bool
  | c :: _ => c = 0x2d
  | [] => false

def dropSign : List UInt8 → List UInt8
  | c :: text => if c = 0x2d || c = 0x2b then text else c :: text
  | [] => []

/-- 0x or 0X, and a digit. -/
def hasPrefix : List UInt8 → Bool
  | z :: x :: d :: _ => z = 0x30 && (x = 0x78 || x = 0x58) && isDigit 16 d
  | _ => false

def startsWithZero : List UInt8 → Bool
  | z :: _ => z = 0x30
  | [] => false

/-- The base that digits are read in: base 0 leaves it to the text. -/
def baseOf (base : Nat) (text : List UInt8) : Nat :=
  if base = 0 then (if hasPrefix text then 16 else if startsWithZero text then 8 else 10)
  else base

def dropPrefix (base : Nat) (text : List UInt8) : List UInt8 :=
  if (base = 0 || base = 16) && hasPrefix text then text.drop 2 else text

/-- A number without a sign at the start of a text, and what comes behind it. -/
def scanUnsigned (base : Nat) (text : List UInt8) : Option (Nat × List UInt8) :=
  let b := baseOf base text
  let ds := (dropPrefix base text).takeWhile (isDigit b)
  if ds.isEmpty then none else some (number b ds, (dropPrefix base text).dropWhile (isDigit b))

def scanSigned (base : Nat) (text : List UInt8) : Option (Int × List UInt8) :=
  (scanUnsigned base (dropSign text)).map fun r =>
    (if isNegative text then -(r.1 : Int) else r.1, r.2)

/-- Blanks may come first; without a number, 0 and the whole text. -/
def scan (base : Nat) (text : List UInt8) : Int × List UInt8 :=
  (scanSigned base (text.dropWhile isSpace)).getD (0, text)

/-- `strtol`, for a `long` of `w` bits. -/
def strtol (w base : Nat) (text : List UInt8) : Int × List UInt8 :=
  (max (-2 ^ (w - 1)) (min (2 ^ (w - 1) - 1) (scan base text).1), (scan base text).2)

variable {b n w base : Nat} {c : UInt8} {a a' : Int} {ds text : List UInt8}

/-! ## Constants -/

/-- A leading zero does not count. -/
theorem number_zero_cons : number b (0x30 :: ds) = number b ds := by
  show List.foldl _ (0 * b + digitValue 0x30) _ = List.foldl _ 0 _
  rw [Nat.zero_mul]
  rfl

/-- An octal numeral has no prefix of another base. -/
theorem hasPrefix_octal (hds : ∀ c ∈ ds, isDigit 8 c = true) : hasPrefix (0x30 :: ds) = false := by
  match ds with
  | [] => rfl
  | [_] => rfl
  | x :: d :: _ =>
    have hx := hds x List.mem_cons_self
    simp only [hasPrefix, Bool.and_eq_false_iff, Bool.or_eq_false_iff, decide_eq_false_iff_not]
    refine Or.inl (Or.inr ?_)
    constructor <;> rintro rfl <;> exact absurd hx (by decide)

/-- A numeral that does not start with 0 has none. -/
theorem hasPrefix_of_not_zero (h : startsWithZero text = false) : hasPrefix text = false := by
  match text with
  | [] => rfl
  | [_] => rfl
  | [_, _] => rfl
  | z :: x :: d :: _ =>
    have hz : (decide (z = 0x30)) = false := h
    simp only [hasPrefix, hz, Bool.false_and]

/-- A numeral is scanned to its end. -/
theorem scanUnsigned_eq {digits : List UInt8} (hbase : baseOf 0 ds = b)
    (hdigits : dropPrefix 0 ds = digits) (hne : digits ≠ [])
    (hds : ∀ c ∈ digits, isDigit b c = true) : scanUnsigned 0 ds = some (number b digits, []) := by
  have htake := List.takeWhile_eq_self_iff.mpr hds
  have hdrop := List.dropWhile_eq_nil_iff.mpr hds
  unfold scanUnsigned
  dsimp only
  rw [hbase, hdigits, htake, hdrop, if_neg (by simpa using hne)]

/-- A constant is read to the end. -/
theorem scanUnsigned_of_constant (h : Constant ds n) : scanUnsigned 0 ds = some (n, []) := by
  cases h with
  | decimal hne hhead hds =>
    have hzero : startsWithZero ds = false := by
      match ds with
      | [] => rfl
      | z :: _ => exact decide_eq_false fun hz => hhead (congrArg some hz)
    have hprefix := hasPrefix_of_not_zero hzero
    have hbase : baseOf 0 ds = 10 := by simp [baseOf, hprefix, hzero]
    have hdigits : dropPrefix 0 ds = ds := by simp [dropPrefix, hprefix]
    exact scanUnsigned_eq hbase hdigits hne hds
  | @octal ds hds =>
    have hprefix := hasPrefix_octal hds
    have hbase : baseOf 0 (0x30 :: ds) = 8 := by simp [baseOf, hprefix, startsWithZero]
    have hdigits : dropPrefix 0 (0x30 :: ds) = 0x30 :: ds := by simp [dropPrefix, hprefix]
    rw [scanUnsigned_eq hbase hdigits (List.cons_ne_nil _ _)
      (List.forall_mem_cons.mpr ⟨by decide, hds⟩), number_zero_cons]
  | @hexadecimal x ds hx hne hds =>
    have hprefix : hasPrefix (0x30 :: x :: ds) = true := by
      match ds with
      | [] => exact absurd rfl hne
      | d :: _ =>
        have hd := hds d List.mem_cons_self
        rcases hx with rfl | rfl <;> simp [hasPrefix, hd]
    have hbase : baseOf 0 (0x30 :: x :: ds) = 16 := by simp [baseOf, hprefix]
    have hdigits : dropPrefix 0 (0x30 :: x :: ds) = ds := by simp [dropPrefix, hprefix]
    exact scanUnsigned_eq hbase hdigits hne hds

/-- What is read to the end is a constant. -/
theorem constant_of_scanUnsigned (h : scanUnsigned 0 ds = some (n, [])) : Constant ds n := by
  obtain ⟨hne, hds, rfl⟩ : dropPrefix 0 ds ≠ [] ∧
      (∀ c ∈ dropPrefix 0 ds, isDigit (baseOf 0 ds) c = true) ∧
        number (baseOf 0 ds) (dropPrefix 0 ds) = n := by
    unfold scanUnsigned at h
    dsimp only at h
    split at h
    case isTrue => cases h
    case isFalse hne =>
      obtain ⟨hvalue, hrest⟩ := Prod.mk.inj (Option.some.inj h)
      have hds := List.dropWhile_eq_nil_iff.mp hrest
      rw [List.takeWhile_eq_self_iff.mpr hds] at hne hvalue
      exact ⟨by simpa using hne, hds, hvalue⟩
  cases hprefix : hasPrefix ds with
  | true =>
    have hbase : baseOf 0 ds = 16 := by simp [baseOf, hprefix]
    have hdigits : dropPrefix 0 ds = ds.drop 2 := by simp [dropPrefix, hprefix]
    rw [hdigits] at hne
    rw [hbase, hdigits] at hds ⊢
    match ds with
    | z :: x :: d :: rest =>
      simp only [hasPrefix, Bool.and_eq_true, Bool.or_eq_true, decide_eq_true_eq] at hprefix
      obtain ⟨⟨rfl, hx⟩, -⟩ := hprefix
      exact .hexadecimal hx hne hds
  | false =>
    have hdigits : dropPrefix 0 ds = ds := by simp [dropPrefix, hprefix]
    rw [hdigits] at hne hds ⊢
    cases hzero : startsWithZero ds with
    | true =>
      have hbase : baseOf 0 ds = 8 := by simp [baseOf, hprefix, hzero]
      rw [hbase] at hds ⊢
      match ds with
      | z :: rest =>
        obtain rfl : z = 0x30 := of_decide_eq_true hzero
        rw [number_zero_cons]
        exact .octal (List.forall_mem_cons.mp hds).2
    | false =>
      have hbase : baseOf 0 ds = 10 := by simp [baseOf, hprefix, hzero]
      rw [hbase] at hds ⊢
      refine .decimal hne ?_ hds
      match ds with
      | z :: rest => exact fun hz => of_decide_eq_false hzero (Option.some.inj hz)

/-! ## Numbers with a sign -/

/-- A constant starts with a digit. -/
theorem constant_head (h : Constant ds n) : ∃ c rest, ds = c :: rest ∧ 0x30 ≤ c ∧ c ≤ 0x39 := by
  cases h with
  | @decimal _ hne _ hds =>
    match ds with
    | c :: rest =>
      have hc : digitValue c < 10 := of_decide_eq_true (hds c List.mem_cons_self)
      refine ⟨c, rest, rfl, ?_⟩
      unfold digitValue at hc
      simp only [UInt8.le_iff_toNat_le, UInt8.toNat_ofNat] at hc ⊢
      split_ifs at hc <;> omega
  | octal => exact ⟨_, _, rfl, by decide, by decide⟩
  | hexadecimal => exact ⟨_, _, rfl, by decide, by decide⟩

/-- A digit is no sign and no blank. -/
theorem digit_head (hc : 0x30 ≤ c) (hc' : c ≤ 0x39) (text : List UInt8) :
    dropSign (c :: text) = c :: text ∧ isNegative (c :: text) = false ∧ isSpace c = false := by
  have hminus : c ≠ 0x2d := by rintro rfl; exact absurd hc (by decide)
  have hplus : c ≠ 0x2b := by rintro rfl; exact absurd hc (by decide)
  have hspace : c ≠ 0x20 := by rintro rfl; exact absurd hc (by decide)
  have hreturn : ¬ c ≤ 0x0d := fun hle => absurd (UInt8.le_trans hc hle) (by decide)
  refine ⟨?_, decide_eq_false hminus, ?_⟩
  · simp [dropSign, hminus, hplus]
  · simp [isSpace, hspace, hreturn]

/-- **Signed numerals** are what is scanned to the end. -/
theorem scanSigned_iff : scanSigned 0 text = some (a, []) ↔ Signed text a := by
  constructor
  · intro h
    obtain ⟨⟨n, rest⟩, hscan, hr⟩ := Option.map_eq_some_iff.mp h
    obtain ⟨hvalue, rfl⟩ := Prod.mk.inj hr
    have hconstant := constant_of_scanUnsigned hscan
    match text with
    | [] => obtain ⟨_, _, hnil, -⟩ := constant_head hconstant; cases hnil
    | c :: text =>
      by_cases hminus : c = 0x2d
      · subst hminus
        rw [← hvalue]
        exact .minus hconstant
      · have hpositive : isNegative (c :: text) = false := decide_eq_false hminus
        rw [← hvalue, hpositive]
        by_cases hplus : c = 0x2b
        · subst hplus
          exact .plus hconstant
        · rw [show dropSign (c :: text) = c :: text by simp [dropSign, hminus, hplus]] at hconstant
          exact .plain hconstant
  · intro h
    cases h with
    | plain hds =>
      obtain ⟨c, rest, rfl, hc, hc'⟩ := constant_head hds
      obtain ⟨hdrop, hpositive, -⟩ := digit_head hc hc' rest
      rw [scanSigned, hdrop, scanUnsigned_of_constant hds, hpositive]
      rfl
    | plus hds =>
      have hscan := scanUnsigned_of_constant hds
      exact congrArg (Option.map _) hscan
    | minus hds =>
      have hscan := scanUnsigned_of_constant hds
      exact congrArg (Option.map _) hscan

/-! ## Whole texts -/

/-- **So are literals**, blanks in front left out. -/
theorem literal_iff : Literal text a ↔ scanSigned 0 (text.dropWhile isSpace) = some (a, []) := by
  constructor
  · intro h
    induction h with
    | @signed text a h =>
      have hhead : ∃ c rest, text = c :: rest ∧ isSpace c = false := by
        cases h with
        | plain hds =>
          obtain ⟨c, rest, rfl, hc, hc'⟩ := constant_head hds
          exact ⟨c, rest, rfl, (digit_head hc hc' rest).2.2⟩
        | plus => exact ⟨_, _, rfl, by decide⟩
        | minus => exact ⟨_, _, rfl, by decide⟩
      obtain ⟨c, rest, rfl, hc⟩ := hhead
      rw [List.dropWhile_cons_of_neg (by simp [hc])]
      exact scanSigned_iff.mpr h
    | blank hc h ih => rwa [List.dropWhile_cons_of_pos hc]
  · intro h
    induction text with
    | nil => exact .signed (scanSigned_iff.mp h)
    | cons c text ih =>
      cases hc : isSpace c with
      | true =>
        rw [List.dropWhile_cons_of_pos hc] at h
        exact .blank hc (ih h)
      | false =>
        rw [List.dropWhile_cons_of_neg (by simp [hc])] at h
        exact .signed (scanSigned_iff.mp h)

/-- **Reading to the end**: the texts that are read to the end are the empty one and the literals,
which are read as what they stand for. -/
theorem scan_iff : scan 0 text = (a, []) ↔ text = [] ∧ a = 0 ∨ Literal text a := by
  rw [literal_iff, scan]
  cases hscan : scanSigned 0 (text.dropWhile isSpace) with
  | none =>
    rw [Option.getD_none, Prod.mk.injEq, eq_comm, and_comm]
    simp
  | some r =>
    rw [Option.getD_some, Option.some.injEq]
    constructor
    · exact Or.inr
    · intro h
      rcases h with ⟨rfl, rfl⟩ | h
      · cases hscan
      · exact h

/-- A literal has one value. -/
theorem Literal.unique (h : Literal text a) (h' : Literal text a') : a = a' := by
  have hsome := (literal_iff.mp h).symm.trans (literal_iff.mp h')
  exact (Prod.mk.inj (Option.some.inj hsome)).1

/-! ## Colons -/

/-- A character that is not skipped stays. -/
theorem mem_dropWhile {p : UInt8 → Bool} (hc : p c = false) (h : c ∈ text) :
    c ∈ text.dropWhile p := by
  rw [← List.takeWhile_append_dropWhile (p := p) (l := text)] at h
  rcases List.mem_append.mp h with htake | hdrop
  · rw [List.mem_takeWhile_imp htake] at hc
    cases hc
  · exact hdrop

/-- A colon is no sign. -/
theorem mem_dropSign (h : 0x3a ∈ text) : 0x3a ∈ dropSign text := by
  match text with
  | [] => exact h
  | c :: text =>
    show 0x3a ∈ if c = 0x2d || c = 0x2b then text else c :: text
    split
    case isTrue hsign =>
      rcases List.mem_cons.mp h with rfl | h
      · exact absurd hsign (by decide)
      · exact h
    case isFalse => exact h

/-- A colon is no prefix. -/
theorem mem_dropPrefix (base : Nat) (h : 0x3a ∈ text) : 0x3a ∈ dropPrefix base text := by
  unfold dropPrefix
  split
  case isTrue hcond =>
    have hprefix := (Bool.and_eq_true_iff.mp hcond).2
    match text with
    | z :: x :: d :: rest =>
      simp only [hasPrefix, Bool.and_eq_true, Bool.or_eq_true, decide_eq_true_eq] at hprefix
      obtain ⟨⟨rfl, hx⟩, -⟩ := hprefix
      have hz : (0x3a : UInt8) ≠ 0x30 := by decide
      have hx' : (0x3a : UInt8) ≠ x := by rcases hx with rfl | rfl <;> decide
      exact List.mem_of_ne_of_mem hx' (List.mem_of_ne_of_mem hz h)
  case isFalse => exact h

/-- **No number goes beyond a colon.** -/
theorem colon_mem_scan (hbase : base ≤ 36) (h : 0x3a ∈ text) : 0x3a ∈ (scan base text).2 := by
  have hdigit : isDigit (baseOf base (dropSign (text.dropWhile isSpace))) 0x3a = false := by
    have hle : baseOf base (dropSign (text.dropWhile isSpace)) ≤ 36 := by
      unfold baseOf
      split_ifs <;> omega
    have hvalue : digitValue 0x3a = 36 := by decide
    exact decide_eq_false (by omega)
  have hmem := mem_dropWhile hdigit
    (mem_dropPrefix base (mem_dropSign (mem_dropWhile (p := isSpace) (by decide) h)))
  unfold scan scanSigned
  cases hscan : scanUnsigned base (dropSign (text.dropWhile isSpace)) with
  | none => exact h
  | some r =>
    unfold scanUnsigned at hscan
    dsimp only at hscan
    split at hscan
    case isTrue => cases hscan
    case isFalse =>
      obtain rfl := Option.some.inj hscan
      exact hmem

end NumberTexts
