import Cumulonimbus.Exec
import Cumulonimbus.NumberTexts

/-!
# The programs of the boot image

`process_file` of `BuildImage.c` copies a program to the image and stores how many sectors it has
and where it is to be loaded, as a segment and an offset.  Addresses up to 0x9fffff are taken, but
a segment is a `short`: from 0x100000 on, and below zero, the stored address is another one.  The
other form of an address, segment:offset, is always refused, because what is read of it ends at the
colon.
-/

namespace Cumulonimbus.BuildImage

open Exec NumberTexts

/-- `N_INFO` -/
def nInfo : Nat := 256

structure Image where
  /-- The sectors that have been written to the disk image. -/
  out : List (List UInt8)
  info : Nat → Int16
  /-- `n_info` -/
  next : Nat

/-- Calls of `quit`, after the message. -/
inductive Quit
  /-- The reason why the file cannot be opened. -/
  | cannotOpen (name : List UInt8)
  /-- Write failed or was wrong size -/
  | writeFailed
  /-- Invalid address: %s -/
  | invalidAddress (addr : List UInt8)
  /-- Program %s too large to start at 0x%08x -/
  | tooLarge (name : List UInt8) (address : Int)
  /-- Too many programs! -/
  | tooMany
  deriving DecidableEq

abbrev Build := Prog Image Quit

-- the contents of the files that can be opened, the sectors of the image that can be written, and
-- the bits of a `long`
variable (fopen : List UInt8 → Option (List UInt8)) (writable : Nat → Bool) (w : Nat)

/-- The loop of `copy_file`, for at most as many turns as the first argument says. -/
def copySectors : Nat → List UInt8 → Int32 → Build Int32
  | 0, _, nSectors => return nSectors
  | fuel + 1, file, nSectors => do
    let buf := file.take 512
    if buf.isEmpty then return nSectors
    else
      let s ← get
      if writable s.out.length then
        set { s with out := s.out ++ [buf ++ List.replicate (512 - buf.length) 0] }
        copySectors fuel (file.drop 512) (nSectors + 1)
      else throw .writeFailed

def copyFile (file : List UInt8) : Build Int32 := copySectors writable (file.length + 1) file 0

/-- What is decoded of a load address. -/
structure Place where
  address : Int
  segment : Int16
  offset : Int16
  deriving DecidableEq

/-- `segment << 4` and the sum are of type `int`, which has room for them. -/
def decodePair (addr : List UInt8) : Option Place :=
  if addr.length = 9 ∧ addr.findIdx (fun c => c = 0x3a) = 4 then
    let u1 := strtol w 16 addr
    let u2 := strtol w 16 (addr.drop 5)
    let segment := Int16.ofInt u1.1
    let offset := Int16.ofInt u2.1
    if u1.2.isEmpty && u2.2.isEmpty then some ⟨segment.toInt * 16 + offset.toInt, segment, offset⟩
    else none
  else none

def decodeNumber (addr : List UInt8) : Option Place :=
  let u := strtol w 0 addr
  if u.2.isEmpty && u.1 ≤ 0x009fffff then
    -- `address >> 4` and `address & 0xf`, which also hold for negative numbers
    some ⟨u.1, Int16.ofInt (u.1 / 16), Int16.ofInt (u.1 % 16)⟩
  else none

/-- The place that an address stands for, if it is valid. -/
def decodeAddress (addr : List UInt8) : Option Place :=
  if addr.any (fun c => c = 0x3a) then decodePair w addr else decodeNumber w addr

/-- `info[ --n_info ] = word` -/
def push (word : Int16) (s : Image) : Image :=
  { s with next := s.next - 1, info := Function.update s.info (s.next - 1) word }

/-- The product is of type `int` and the sum of type `long`. -/
def lastAddress (address : Int) (nSectors : Int32) : Int :=
  (address + (nSectors * 512).toInt).bmod (2 ^ w)

def processFile (name addr : List UInt8) : Build Unit :=
  match fopen name with
  | none => throw (.cannotOpen name)
  | some file => do
    let nSectors ← copyFile writable file
    match decodeAddress w addr with
    | none => throw (.invalidAddress addr)
    | some place =>
      if 0x009fffff < lastAddress w place.address nSectors then
        throw (.tooLarge name place.address)
      else
        let s ← get
        if s.next < 3 then throw .tooMany
        else modify fun s => push place.offset (push place.segment (push nSectors.toInt16 s))

/-! ## Load addresses -/

/-- A pair of four digits each, in hexadecimal. -/
structure Pair (addr : List UInt8) (a : Int) : Prop where
  split : ∃ segment offset, addr = segment ++ 0x3a :: offset ∧ segment.length = 4 ∧
    offset.length = 4 ∧ (∀ c ∈ segment ++ offset, isDigit 16 c = true) ∧
      a = number 16 segment * 16 + number 16 offset

/-- **The address that a text denotes**, as the usage message explains it. -/
inductive Denotes : List UInt8 → Int → Prop
  | number {addr : List UInt8} {a : Int} (h : Literal addr a) : Denotes addr a
  | pair {addr : List UInt8} {a : Int} (h : Pair addr a) : Denotes addr a

/-- The sectors of a file. -/
def sectorCount (file : List UInt8) : Nat := (file.length + 511) / 512

/-- The unsigned words that were stored last. -/
def Image.word (t : Image) (i : Nat) : Nat := (t.info (t.next + i)).toUInt16.toNat

/-- **What the image is for**: the words segment and offset give the address that was asked for,
and the program that the count of sectors tells ends within the memory. -/
def RecordsAddress (addr : List UInt8) (t : Image) : Prop :=
  ∃ a, Denotes addr a ∧ (t.word 1 * 16 + t.word 0 : Nat) = a ∧ a + 512 * t.word 2 ≤ 0x009fffff

variable {fopen writable w} {name addr file : List UInt8} {s t : Image} {place : Place} {a : Int}

/-! ## What a call stores -/

/-- A sector less. -/
theorem sectorCount_drop (hne : file ≠ []) :
    sectorCount file = sectorCount (file.drop 512) + 1 := by
  have hpos := List.length_pos_iff.mpr hne
  unfold sectorCount
  rw [List.length_drop]
  omega

/-- The loop counts the sectors of the file, unless it stops. -/
theorem wp_copySectors (fuel : Nat) (file : List UInt8) (nSectors : Int32) (s : Image)
    (enough : file.length < fuel) :
    wp (copySectors writable fuel file nSectors)
      (fun r t => r = nSectors + Int32.ofNat (sectorCount file) ∧ t.info = s.info ∧
        t.next = s.next) (fun _ => True) s := by
  induction fuel generalizing file nSectors s with
  | zero => exact absurd enough (Nat.not_lt_zero _)
  | succ fuel ih =>
    unfold copySectors
    dsimp only
    split
    case isTrue hempty =>
      have hnil : file = [] := by simpa using hempty
      rw [hnil]
      exact ⟨(Int32.add_zero _).symm, rfl, rfl⟩
    case isFalse hbuf =>
      have hne : file ≠ [] := by
        rintro rfl
        exact hbuf rfl
      rw [wp_bind, wp_get]
      split
      case isFalse => trivial
      case isTrue =>
        have hpos := List.length_pos_iff.mpr hne
        rw [wp_bind, wp_set]
        refine wp_mono (ih _ _ _ (by rw [List.length_drop]; omega)) ?_ fun _ h => h
        rintro r t ⟨rfl, hinfo, hnext⟩
        refine ⟨?_, hinfo, hnext⟩
        rw [sectorCount_drop hne, Int32.ofNat_add, Int32.add_assoc, Int32.add_comm 1]
        rfl

/-- A program's record, in front of those that were stored before. -/
structure Recorded (w : Nat) (file : List UInt8) (place : Place) (s t : Image) : Prop where
  next : t.next + 3 = s.next
  offset : t.info t.next = place.offset
  segment : t.info (t.next + 1) = place.segment
  sectors : t.info (t.next + 2) = (Int32.ofNat (sectorCount file)).toInt16
  fits : lastAddress w place.address (Int32.ofNat (sectorCount file)) ≤ 0x009fffff
  others : ∀ i, s.next ≤ i → t.info i = s.info i

/-- The three words of a record, pushed from the back. -/
theorem recorded_push {u : Image} (hroom : 3 ≤ u.next) (hinfo : u.info = s.info)
    (hnext : u.next = s.next)
    (hfits : lastAddress w place.address (Int32.ofNat (sectorCount file)) ≤ 0x009fffff) :
    Recorded w file place s (push place.offset (push place.segment
      (push (Int32.ofNat (sectorCount file)).toInt16 u))) := by
  obtain ⟨k, hk⟩ : ∃ k, u.next = k + 3 := ⟨u.next - 3, by omega⟩
  unfold push
  dsimp only
  rw [hk, show k + 3 - 1 = k + 2 from rfl, show k + 2 - 1 = k + 1 from rfl, Nat.add_sub_cancel]
  constructor
  case next => exact hk.symm.trans hnext
  case offset => exact Function.update_self ..
  case segment =>
    dsimp only
    rw [Function.update_of_ne (by omega), Function.update_self]
  case sectors =>
    dsimp only
    rw [Function.update_of_ne (by omega), Function.update_of_ne (by omega), Function.update_self]
  case fits => exact hfits
  case others =>
    intro i hi
    dsimp only
    rw [Function.update_of_ne (by omega), Function.update_of_ne (by omega),
      Function.update_of_ne (by omega), hinfo]

/-- **A file that is processed** has its record. -/
theorem wp_processFile : wp (processFile fopen writable w name addr)
    (fun _ t => ∃ file place, fopen name = some file ∧ decodeAddress w addr = some place ∧
      Recorded w file place s t) (fun _ => True) s := by
  unfold processFile
  split
  case h_1 => trivial
  case h_2 file hopen =>
    refine wp_seq (wp_copySectors _ file 0 s (Nat.lt_succ_self _)) ?_
    rintro nSectors u ⟨rfl, hinfo, hnext⟩
    rw [Int32.zero_add]
    split
    case h_1 => trivial
    case h_2 place hplace =>
      split
      case isTrue => trivial
      case isFalse hfits =>
        rw [wp_bind, wp_get]
        split
        case isTrue => trivial
        case isFalse hroom =>
          exact ⟨file, place, hopen, hplace,
            recorded_push (by omega) hinfo hnext (by omega)⟩

/-! ## What is stored of an address -/

/-- **A text with a colon is refused**: what is read of its first part ends there. -/
theorem decodeAddress_colon (h : 0x3a ∈ addr) : decodeAddress w addr = none := by
  have hany : addr.any (fun c => c = 0x3a) = true :=
    List.any_eq_true.mpr ⟨0x3a, h, decide_eq_true rfl⟩
  have hrest : (strtol w 16 addr).2.isEmpty = false :=
    List.isEmpty_eq_false_iff.mpr (List.ne_nil_of_mem (colon_mem_scan (by decide) h))
  unfold decodeAddress decodePair
  dsimp only
  rw [if_pos hany, hrest, Bool.false_and, if_neg Bool.false_ne_true, ite_self]

/-- A segment and an offset have a colon between them. -/
theorem pair_colon (h : Pair addr a) : 0x3a ∈ addr := by
  obtain ⟨segment, offset, rfl, -⟩ := h.split
  exact List.mem_append_right _ List.mem_cons_self

/-- What `strtol` makes of a number. -/
def clamp (w : Nat) (a : Int) : Int := max (-2 ^ (w - 1)) (min (2 ^ (w - 1) - 1) a)

/-- **What is accepted** is a number that is read to its end. -/
theorem decodeAddress_eq (h : decodeAddress w addr = some place) :
    ∃ v, scan 0 addr = (v, []) ∧ clamp w v ≤ 0x009fffff ∧
      place = ⟨clamp w v, Int16.ofInt (clamp w v / 16), Int16.ofInt (clamp w v % 16)⟩ := by
  have hcolon : 0x3a ∉ addr := by
    intro hmem
    rw [decodeAddress_colon hmem] at h
    cases h
  have hany : ¬ addr.any (fun c => c = 0x3a) = true := by
    intro hany
    obtain ⟨c, hc, heq⟩ := List.any_eq_true.mp hany
    exact hcolon (of_decide_eq_true heq ▸ hc)
  unfold decodeAddress decodeNumber at h
  dsimp only at h
  rw [if_neg hany] at h
  split at h
  case isFalse => cases h
  case isTrue hvalid =>
    obtain ⟨hrest, hle⟩ := Bool.and_eq_true_iff.mp hvalid
    refine ⟨(scan 0 addr).1, ?_, of_decide_eq_true hle, (Option.some.inj h).symm⟩
    exact Prod.ext rfl (List.isEmpty_iff.mp hrest)

/-- What an accepted text denotes is what is read of it. -/
theorem scan_of_denotes (h : decodeAddress w addr = some place) (hdenotes : Denotes addr a) :
    scan 0 addr = (a, []) := by
  cases hdenotes with
  | number hliteral => exact scan_iff.mpr (Or.inr hliteral)
  | pair hpair =>
    rw [decodeAddress_colon (pair_colon hpair)] at h
    cases h

/-- **The form segment:offset is refused**, although the usage message offers it. -/
theorem pair_refused (h : Pair addr a) :
    processFile fopen writable w name addr s ≠ .ok ((), t) := by
  intro haccepted
  obtain ⟨_, _, -, hplace, -⟩ := wp_ok wp_processFile haccepted
  rw [decodeAddress_colon (pair_colon h)] at hplace
  cases hplace

/-- The empty text is the only one that is accepted and denotes no address. -/
theorem accepted_denotes (haccepted : processFile fopen writable w name addr s = .ok ((), t))
    (hne : addr ≠ []) : ∃ a, Denotes addr a := by
  obtain ⟨_, _, -, hplace, -⟩ := wp_ok wp_processFile haccepted
  obtain ⟨v, hscan, -⟩ := decodeAddress_eq hplace
  rcases scan_iff.mp hscan with ⟨hnil, -⟩ | hliteral
  · exact absurd hnil hne
  · exact ⟨v, .number hliteral⟩

/-! ## Words -/

/-- A number as an unsigned word. -/
theorem ofInt_word (v : Int) : ((Int16.ofInt v).toUInt16.toNat : Int) = v % 65536 := by
  show ((BitVec.ofInt 16 v).toNat : Int) = _
  rw [BitVec.toNat_ofInt]
  omega

/-- The number of sectors as an unsigned word. -/
theorem sectors_word (n : Nat) : (Int32.ofNat n).toInt16.toUInt16.toNat = n % 65536 := by
  rw [Int32.toInt16_ofNat']
  exact UInt16.toNat_ofNat'

/-- A small number fits. -/
theorem bmod_small (hw : 32 ≤ w) (h : 0 ≤ a) (hlt : a < 0x80000000) : a.bmod (2 ^ w) = a := by
  have hpow : 2 ^ 32 ≤ 2 ^ w := Nat.pow_le_pow_right (by decide) hw
  exact Int.bmod_eq_of_le (by omega) (by omega)

/-- Small addresses are computed as they are. -/
theorem lastAddress_small {n : Nat} (hw : 32 ≤ w) (h : 0 ≤ a) (hlt : a + 512 * n < 0x80000000) :
    lastAddress w a (Int32.ofNat n) = a + 512 * n := by
  have hproduct : (Int32.ofNat n * 512).toInt = 512 * n := by
    rw [show (512 : Int32) = Int32.ofNat 512 from rfl, ← Int32.ofNat_mul,
      Int32.toInt_ofNat_of_lt (by omega)]
    omega
  rw [lastAddress, hproduct, bmod_small hw (by omega) hlt]

/-- Addresses that are accepted are kept, but for those below the least `long`. -/
theorem clamp_eq (hw : 32 ≤ w) (h : clamp w a ≤ 0x009fffff) : clamp w a = max (-2 ^ (w - 1)) a := by
  have hpow : (2 : Int) ^ 31 ≤ 2 ^ (w - 1) := by
    exact_mod_cast Nat.pow_le_pow_right (by decide) (by omega : 31 ≤ w - 1)
  unfold clamp at h ⊢
  omega

/-- The two words of an address keep its last twenty bits. -/
theorem words_eq_iff (hw : 32 ≤ w) (h : clamp w a ≤ 0x009fffff) :
    (((Int16.ofInt (clamp w a / 16)).toUInt16.toNat * 16 +
      (Int16.ofInt (clamp w a % 16)).toUInt16.toNat : Nat) : Int) = a ↔ 0 ≤ a ∧ a ≤ 0xfffff := by
  have hsegment := ofInt_word (clamp w a / 16)
  have hoffset := ofInt_word (clamp w a % 16)
  have hpow : 0 < (2 : Int) ^ (w - 1) := by positivity
  rw [clamp_eq hw h] at *
  omega

/-- **The image records the address that was asked for** if and only if that address is below 2^20,
and the end of the program is a number that `process_file` can compare. -/
theorem records_address_iff (hw : 32 ≤ w)
    (haccepted : processFile fopen writable w name addr s = .ok ((), t))
    (hfile : fopen name = some file) :
    RecordsAddress addr t ↔ ∃ a, Denotes addr a ∧ 0 ≤ a ∧ a ≤ 0xfffff ∧
      (a + 512 * sectorCount file < 0x80000000 ∨
        a + 512 * (sectorCount file % 65536 : Nat) ≤ 0x009fffff) := by
  obtain ⟨file', place, hfile', hplace, hrecorded⟩ := wp_ok wp_processFile haccepted
  obtain rfl : file' = file := Option.some.inj (hfile'.symm.trans hfile)
  obtain ⟨v, hscan, hle, rfl⟩ := decodeAddress_eq hplace
  have hwords : ∀ a, Denotes addr a →
      ((t.word 1 * 16 + t.word 0 : Nat) = a ↔ 0 ≤ a ∧ a ≤ 0xfffff) := by
    intro a hdenotes
    obtain rfl : v = a :=
      (Prod.mk.inj (hscan.symm.trans (scan_of_denotes hplace hdenotes))).1
    have hsegment : t.info (t.next + 1) = Int16.ofInt (clamp w v / 16) := hrecorded.segment
    have hoffset : t.info t.next = Int16.ofInt (clamp w v % 16) := hrecorded.offset
    have hiff := words_eq_iff hw hle
    rwa [← hsegment, ← hoffset] at hiff
  have hcount : t.word 2 = sectorCount file' % 65536 := by
    unfold Image.word
    rw [hrecorded.sectors, sectors_word]
  unfold RecordsAddress
  rw [hcount]
  constructor
  · rintro ⟨a, hdenotes, hsame, hend⟩
    obtain ⟨hpos, hsmall⟩ := (hwords a hdenotes).mp hsame
    exact ⟨a, hdenotes, hpos, hsmall, Or.inr hend⟩
  · rintro ⟨a, hdenotes, hpos, hsmall, hend⟩
    refine ⟨a, hdenotes, (hwords a hdenotes).mpr ⟨hpos, hsmall⟩, ?_⟩
    rcases hend with hshort | hend
    · -- the comparison of the source is exact, and leaves fewer than 2^16 sectors
      obtain rfl : v = a :=
        (Prod.mk.inj (hscan.symm.trans (scan_of_denotes hplace hdenotes))).1
      have hfits := hrecorded.fits
      have hclamp : clamp w v = v := by
        have hpow : 0 < (2 : Int) ^ (w - 1) := by positivity
        rw [clamp_eq hw hle]
        omega
      dsimp only at hfits
      rw [hclamp, lastAddress_small hw hpos hshort] at hfits
      omega
    · exact hend

/-- Nothing is stored yet. -/
def emptyImage : Image := ⟨[], fun _ => 0, nInfo⟩

/-- 0x10000, where the kernel is loaded, for a program of one sector. -/
theorem kernel_address_recorded :
    ∃ t, processFile (fun _ => some [0x90]) (fun _ => true) 64 [0x6b]
        [0x30, 0x78, 0x31, 0x30, 0x30, 0x30, 0x30] emptyImage = .ok ((), t) ∧
      RecordsAddress [0x30, 0x78, 0x31, 0x30, 0x30, 0x30, 0x30] t := by
  obtain ⟨t, haccepted⟩ : ∃ t, processFile (fun _ => some [0x90]) (fun _ => true) 64 [0x6b]
      [0x30, 0x78, 0x31, 0x30, 0x30, 0x30, 0x30] emptyImage = .ok ((), t) := ⟨_, rfl⟩
  have hliteral : Literal [0x30, 0x78, 0x31, 0x30, 0x30, 0x30, 0x30] 0x10000 :=
    literal_iff.mpr (by decide)
  exact ⟨t, haccepted, (records_address_iff (by decide) haccepted rfl).mpr
    ⟨0x10000, .number hliteral, by decide⟩⟩

/-- 0x100000 is stored as 0. -/
theorem high_address_lost :
    ¬ ∀ (fopen : List UInt8 → Option (List UInt8)) (writable : Nat → Bool) (w : Nat)
        (name addr : List UInt8) (s t : Image), 32 ≤ w →
      processFile fopen writable w name addr s = .ok ((), t) → RecordsAddress addr t := by
  intro hclaim
  obtain ⟨t, haccepted⟩ : ∃ t, processFile (fun _ => some [0x90]) (fun _ => true) 64 [0x6b]
      [0x30, 0x78, 0x31, 0x30, 0x30, 0x30, 0x30, 0x30] emptyImage = .ok ((), t) := ⟨_, rfl⟩
  obtain ⟨a, hdenotes, hsame, -⟩ := hclaim _ _ _ _ _ _ _ (by decide) haccepted
  have hzero : decodeAddress 64 [0x30, 0x78, 0x31, 0x30, 0x30, 0x30, 0x30, 0x30] =
      some ⟨0x100000, 0, 0⟩ := by decide
  have hread : scan 0 [0x30, 0x78, 0x31, 0x30, 0x30, 0x30, 0x30, 0x30] = (0x100000, []) := by
    decide
  have ha : 0x100000 = a :=
    (Prod.mk.inj (hread.symm.trans (scan_of_denotes hzero hdenotes))).1
  obtain ⟨_, place, -, hplace, hrecorded⟩ := wp_ok wp_processFile haccepted
  obtain rfl : ⟨0x100000, 0, 0⟩ = place := Option.some.inj (hzero.symm.trans hplace)
  have hsegment : t.word 1 = 0 := congrArg (fun v : Int16 => v.toUInt16.toNat) hrecorded.segment
  have hoffset : t.word 0 = 0 := congrArg (fun v : Int16 => v.toUInt16.toNat) hrecorded.offset
  omega

end Cumulonimbus.BuildImage
