import Cumulonimbus.Refining
import Cumulonimbus.ShelfDisk

/-!
# The shell does what is wanted

The shell with the disk does what the shell with the shelf does, turn by turn and across boots
(`shell_does`), as long as no card is wanted for which there is no slot.
-/

namespace Cumulonimbus.Shell

open Exec Fat64
open Printf (chr)

attribute [local irreducible] wp Matches

/-- The keys are those of the lines, each with its end. -/
inductive Typed : List UInt8 → List Line → Prop
  | nil : Typed [] []
  | cons {newline : UInt8} {l : Line} {keys : List UInt8} {lines : List Line}
      (hnewline : newline = 0x0a ∨ newline = 0x0d) (rest : Typed keys lines) :
      Typed (l.map Keystroke.code ++ newline :: keys) (l :: lines)

/-- Keys typed one after the other. -/
theorem Typed.append {keys keys' : List UInt8} {lines lines' : List Line} (h : Typed keys lines)
    (h' : Typed keys' lines') : Typed (keys ++ keys') (lines ++ lines') := by
  induction h with
  | nil => exact h'
  | cons hnewline _ ih =>
    rw [List.append_assoc, List.cons_append]
    exact .cons hnewline ih

/-- The terminal and the sitting agree. -/
structure Agrees (t : Terminal) (s : Sitting) : Prop where
  partition : t.partition = fsPartition
  intact : Intact t.disk
  cd : AtRoot t.cd
  shelf : ∃ vol, OnDisk s.shelf t.disk vol
  keys : Typed t.keys s.lines
  shown : t.shown = s.shown

/-- What stops the shell when the sitting stops. -/
def halting : Stop → Option Halt
  | .waits => some .waits
  | .overruns => some .overruns
  | .leaves => some .leaves
  | .full => none

/-- `x` does what `y` wants. -/
abbrev Does {α β : Type} (V : α → β → Prop) (x : Command α) (y : Wanted β) (t : Terminal)
    (s : Sitting) : Prop :=
  Matches Agrees halting V x y t s

/-- They still agree, and neither the disk nor the shelf has changed. -/
structure Idle (t : Terminal) (s : Sitting) (t' : Terminal) (s' : Sitting) : Prop
    extends Agrees t' s' where
  disk : t'.disk = t.disk
  kept : s'.shelf = s.shelf

/-- A buffer holds the bytes. -/
def Same (buf : UInt32 → UInt8) (b : Nat → UInt8) : Prop := ∀ k < 0x100000000, bytes buf k = b k

variable {font : UInt32 → Nat → Nat → UInt8} {D : Drawing.Device} {t : Terminal} {s : Sitting}
  {buf : UInt32 → UInt8} {b : Nat → UInt8} {vol : Volume} {n : Nat}

/-! ## The screen and the keys -/

/-- Printing a text on the console is showing it. -/
theorem puts_does (h : Agrees t s) (text : List UInt8) :
    Matches (Idle t s) halting (fun _ _ => True) (puts font D text) (Sitting.puts text) t s :=
  Matches.modify ⟨⟨h.partition, h.intact, h.cd, h.shelf, h.keys, by rw [h.shown]⟩, rfl, rfl⟩

/-- What only moves the cursor. -/
theorem Agrees.cursor (h : Agrees t s) (c : Cursor) : Agrees { t with toCursor := c } s :=
  ⟨h.partition, h.intact, h.cd, h.shelf, h.keys, h.shown⟩

/-- A new line of the console changes nothing that is compared. -/
theorem wp_nextLine (h : Agrees t s) :
    wp (nextLine D) (fun _ t' => True ∧ Agrees t' s) (fun _ => False) t := by
  rw [nextLine, wp_modify]
  exact ⟨trivial, h.cursor _⟩

/-- The line as edited lies over what the buffer had before. -/
theorem Editing.over {size : UInt32} {l : Line} {v : Typing} {start : UInt32 → UInt8}
    (h : Editing size start (longest l []) (edited l []) v) (hb : Same start b) :
    Same v.buf (l.over b) := by
  intro k hk
  rw [bytes, Line.over]
  split
  case isTrue hlt =>
    rw [List.getD_eq_getElem _ _ hlt]
    exact h.chars k _ (List.getElem?_eq_getElem hlt)
  case isFalse hge =>
    split
    case isTrue hlt => exact h.erased k (Nat.not_lt.mp hge) hlt
    case isFalse hge => exact (h.fresh k (Nat.not_lt.mp hge) hk).trans (hb k hk)

/-- **Reading a line** takes the keys of one line and leaves the edited text in the buffer. -/
theorem getLine_does (h : Agrees t s) {size : UInt32} (hsize : size.toNat = n)
    {start : UInt32 → UInt8} (hb : Same start b) :
    Matches (Idle t s) halting Same (getLine font D size start) (Sitting.getLine n b) t s := by
  subst hsize
  obtain ⟨shelf, lines, shown⟩ := s
  refine Matches.left_get (Matches.right_get ?_)
  have htyped := h.keys
  cases lines with
  | nil =>
    generalize hkeys : t.keys = keys at htyped ⊢
    cases htyped
    exact Matches.throw rfl
  | cons l lines =>
    generalize hkeys : t.keys = keys at htyped ⊢
    cases htyped with
    | cons hnewline rest =>
      have hstart := editing_nil size start t.toCursor
      rw [getInput, getChars_eq hnewline, Option.map_some]
      dsimp only
      by_cases hlong : longest l [] ≤ size.toNat
      · have hrun := (hstart.run font D hlong).withCursor
          (newLine D (l.foldl (press font D) ⟨t.toCursor, 0, start, []⟩).toCursor)
        rw [Nat.zero_max] at hrun
        rw [if_pos (by simpa using hrun.inside), if_pos hlong]
        exact Matches.of_wp rfl (wp_of_eq rfl ⟨hrun.over hb,
          ⟨h.partition, h.intact, h.cd, h.shelf, rest, h.shown⟩, rfl, rfl⟩)
      · have hmem := hstart.overrun font D (Nat.not_le.mp hlong)
        have hnot : ¬ (l.foldl (press font D) ⟨t.toCursor, 0, start, []⟩).written.all (· < size) :=
          fun hall => absurd (List.all_eq_true.mp hall size hmem) (by simp)
        rw [if_neg hnot, if_neg hlong]
        exact Matches.throw rfl

/-- A question and the line that answers it. -/
theorem ask_does {α β : Type} {V : α → β → Prop} {f : (UInt32 → UInt8) → Command α}
    {g : (Nat → UInt8) → Wanted β} (h : Agrees t s) (text : List UInt8) (x : UInt32)
    {size : UInt32} (hsize : size.toNat = n)
    (hf : ∀ buf b t s, Same buf b → Agrees t s → Does V (f buf) (g b) t s) :
    Does V (puts font D text >>= fun _ => setX x >>= fun _ =>
        getLine font D size (fun _ => 0) >>= f)
      (Sitting.puts text >>= fun _ => Sitting.getLine n (fun _ => 0) >>= g) t s := by
  refine (puts_does h _).bind fun _ _ t s _ h => Matches.left_modify ?_
  refine (getLine_does (h.cursor _) hsize fun _ _ => rfl).bind fun buf b t s hb h => ?_
  exact hf buf b t s hb h.toAgrees

/-- A string that has an end, or the shell halts. -/
theorem checkEnd_does {α β : Type} {V : α → β → Prop} {f : Unit → Command α} {g : Unit → Wanted β}
    {b' : Nat → UInt8} (hb : ∀ k < n, b k = b' k) (hf : Does V (f ()) (g ()) t s) :
    Does V (checkEnd n b >>= f) (Sitting.checkEnd n b' >>= g) t s := by
  have hends : Ends n b ↔ Ends n b' :=
    exists_congr fun k => and_congr_right fun hk => by rw [hb k hk]
  rw [checkEnd, Sitting.checkEnd]
  by_cases hend : Ends n b
  · rw [if_pos hend, if_pos (hends.mp hend)]
    exact hf
  · rw [if_neg hend, if_neg (mt hends.mpr hend)]
    exact Matches.throw rfl

/-! ## The file system -/

/-- A call of the file system, from what it does on the disk. -/
theorem call_eq {α : Type} {x : Fat α} {a : α} {d : Disk} (h : x t.disk = .ok (a, d)) :
    call x t = .ok (a, { t with disk := d }) := by
  rw [call, h]

/-- A call leaves the first sectors alone. -/
theorem wp_fatCall {α : Type} {x : Fat α} {Q : α → Disk → Prop} (calls : ByCalls (16 ≤ ·) x)
    (intact : Intact t.disk)
    (hx : wp x (fun a d => Saves fsPartition t.disk d ∧ Q a d) (fun _ : Spin => False) t.disk) :
    wp (call x) (fun a t' => ∃ d, t' = { t with disk := d } ∧ Intact d ∧ Q a d)
      (fun _ => False) t := by
  have hboth := wp_and hx (calls.leaves t.disk)
  obtain ⟨a, d, hrun, ⟨hsaves, hQ⟩, hleaves⟩ := wp_returns
    (wp_mono hboth (fun _ _ h => h) fun _ he => he.1)
  exact wp_of_eq (call_eq hrun) ⟨d, rfl, intact.of_saves hleaves hsaves, hQ⟩

/-- The disk has changed, and so has the shelf. -/
theorem Agrees.withDisk (h : Agrees t s) {d : Disk} {shelf : Shelf} (intact : Intact d)
    (hd : ∃ vol, OnDisk shelf d vol) : Agrees { t with disk := d } { s with shelf := shelf } :=
  ⟨h.partition, intact, h.cd, hd, h.keys, h.shown⟩

/-- The handle of the current directory is on the root still. -/
theorem Agrees.withDir (h : Agrees t s) {cd : File} (hcd : AtRoot cd) :
    Agrees { t with cd := cd } s :=
  ⟨h.partition, h.intact, hcd, h.shelf, h.keys, h.shown⟩

/-- `fat64_reopen(cur_dir)` reads the root directory. -/
theorem wp_reopenDir (h : Agrees t s) :
    wp reopenDir (fun _ t' => Agrees t' s ∧ ∃ vol, OnDisk s.shelf t'.disk vol ∧
      t'.cd.buf = vol.chunk rootCluster) (fun _ => False) t := by
  obtain ⟨vol, hshows, hshelved⟩ := h.shelf
  have hload : loadCluster fsPartition t.cd t.disk =
      .ok ({ t.cd with buf := vol.chunk rootCluster }, t.disk) := by
    rw [loadCluster_eq, hshows.chunk _ (h.cd.cluster ▸ rootCluster_data),
      show vol.chunk t.cd.cluster = vol.chunk rootCluster by rw [h.cd.cluster]]
  rw [reopenDir, wp_bind, wp_get, wp_bind, h.partition]
  refine wp_of_eq (call_eq hload) ?_
  rw [setDir, wp_modify]
  exact ⟨h.withDir (h.cd.setBuf _), vol, ⟨hshows, hshelved⟩, rfl⟩

/-- `fat64_flush(cur_dir)` has nothing to write. -/
theorem wp_flushDir (h : Agrees t s) :
    wp flushDir (fun _ t' => Agrees t' s) (fun _ => False) t := by
  have hsave : fat64Flush fsPartition t.cd t.disk = .ok (t.cd, t.disk) := by
    rw [fat64Flush, saveCluster, h.cd.clean]
    rfl
  rw [flushDir, wp_bind, wp_get, wp_bind, h.partition]
  refine wp_of_eq (call_eq hsave) ?_
  rw [setDir, wp_modify]
  exact h.withDir h.cd

/-- The handle that `fat64_dir_entry` opens. -/
def handle (vol : Volume) : Option (Fin 8 × Card) → Option File
  | none => none
  | some (i, _) => some (File.fresh.opened vol (slot (vol.chunk rootCluster) i.val))

/-- **Opening an entry** of the root directory, as the shelf has it at that place. -/
theorem wp_dirEntry (h : Agrees t s) (index : UInt64) :
    wp (dirEntry index) (fun r t' => Agrees t' s ∧ ∃ vol, OnDisk s.shelf t'.disk vol ∧
      r = handle vol (s.shelf.at index)) (fun _ => False) t := by
  obtain ⟨vol, hshows, hshelved⟩ := h.shelf
  have hentry := dirEntry_shelved (E := fun _ => False) hshows hshelved h.cd index
  obtain ⟨⟨stat, cd, file⟩, d, hrun, rfl, hcd, hopened⟩ := wp_returns hentry
  rw [dirEntry, wp_bind, wp_get, wp_bind, h.partition]
  refine wp_of_eq (call_eq hrun) ?_
  dsimp only
  rw [setDir, wp_bind, wp_modify, wp_pure]
  have hroot : AtRoot cd := by
    rw [show cd = { t.cd with buf := vol.chunk rootCluster } from hcd]
    exact h.cd.setBuf _
  refine ⟨h.withDir hroot, vol, ⟨hshows, hshelved⟩, ?_⟩
  generalize s.shelf.at index = card at hopened ⊢
  cases card with
  | none =>
    obtain rfl : stat = .eof := hopened
    rfl
  | some p =>
    obtain ⟨rfl, rfl⟩ : stat = .success ∧
        file = File.fresh.opened vol (slot (vol.chunk rootCluster) p.1.val) :=
      Prod.mk.inj hopened
    rfl

/-- The number that a character stands for, and what is no number of a slot. -/
theorem digit_index : ∀ n < 256,
    (48 ≤ n ∧ n < 56 → (UInt64.ofInt ((UInt8.ofNat n).toInt8.toInt - 48)).toNat = n - 48) ∧
      (¬ (48 ≤ n ∧ n < 56) →
        8 ≤ (UInt64.ofInt ((UInt8.ofNat n).toInt8.toInt - 48)).toNat) := by
  decide +kernel

/-- The number that is typed names the same card. -/
theorem find_eq_at (shelf : Shelf) (hb : Same buf b) :
    shelf.find (b 0) = shelf.at (entryNum buf) := by
  obtain ⟨hnum, hout⟩ := digit_index (b 0).toNat (b 0).toNat_lt
  rw [UInt8.ofNat_toNat, ← show buf 0 = b 0 from hb 0 (by decide)] at hnum hout
  rw [← show buf 0 = b 0 from hb 0 (by decide), Shelf.find]
  split
  case isTrue hdigit => exact (Shelf.at_of (hnum hdigit)).symm
  case isFalse hdigit =>
    have hge : 8 ≤ (entryNum buf).toNat := hout hdigit
    rw [Shelf.at, dif_neg (Nat.not_lt.mpr hge)]

/-- **Naming a card**: both find none, or the shell has a handle of it. -/
theorem find_does {α β : Type} {V : α → β → Prop} {f : Option File → Command α}
    {g : Option (Fin 8 × Card) → Wanted β} (h : Agrees t s) (hb : Same buf b)
    (hnone : ∀ t', Agrees t' s → Does V (f none) (g none) t' s)
    (hsome : ∀ t' vol i c, Agrees t' s → OnDisk s.shelf t'.disk vol → s.shelf.slot i = some c →
      Does V (f (some (File.fresh.opened vol (slot (vol.chunk rootCluster) i.val))))
        (g (some (i, c))) t' s) :
    Does V (dirEntry (entryNum buf) >>= f) (Sitting.card b >>= g) t s := by
  refine Matches.right (b := s.shelf.find (b 0)) rfl (Matches.left (wp_dirEntry h _) ?_)
  rintro r t' ⟨h', vol, hdisk, rfl⟩
  rw [← find_eq_at s.shelf hb]
  cases hfind : s.shelf.find (b 0) with
  | none => exact hnone t' h'
  | some p => exact hsome t' vol p.1 p.2 h' hdisk (Shelf.find_eq_some hfind).1

/-! ## The commands -/

/-- A string depends on the bytes up to its limit. -/
theorem cString_congr {b' : Nat → UInt8} (h : ∀ k < n, b k = b' k) :
    cString n b = cString n b' := by
  rw [cString, cString]
  refine congrArg _ (List.map_congr_left fun k hk => h k (List.mem_range.mp hk))

/-- Buffers that are the same have the same bytes. -/
theorem Same.upTo (hb : Same buf b) (hn : n ≤ 0x100000000) : ∀ k < n, bytes buf k = b k :=
  fun k hk => hb k (Nat.lt_of_lt_of_le hk hn)

/-- The name of a card as it is in the entry. -/
theorem cString_name {e : Entry} {i : Fin 8} {c : Card} (he : Filed e i c) :
    cString 512 e.toBytes = c.name.val := by
  obtain ⟨hlen, hzero⟩ := c.name.property
  have hbyte : ∀ k < 256, e.toBytes k = c.name.val.getD k 0 := by
    intro k hk
    rw [Entry.toBytes, dif_pos hk, he.name]
    rfl
  have hsplit : List.range 512 = List.range c.name.val.length ++
      c.name.val.length :: List.range' (c.name.val.length + 1) (511 - c.name.val.length) := by
    have happ := @List.range'_append_1 0 c.name.val.length (511 - c.name.val.length + 1)
    rw [Nat.zero_add, show c.name.val.length + (511 - c.name.val.length + 1) = 512 by omega] at happ
    rw [List.range_eq_range', List.range_eq_range', ← List.range'_succ, happ]
  have hfirst : (List.range c.name.val.length).map e.toBytes = c.name.val := by
    refine List.ext_getElem (by simp) fun k hk hk' => ?_
    rw [List.getElem_map, List.getElem_range, hbyte k (by omega), List.getD_eq_getElem _ _ hk']
  have hend : e.toBytes c.name.val.length = 0 := by
    rw [hbyte _ hlen]
    exact List.getD_eq_default _ _ le_rfl
  have hall : ∀ x ∈ c.name.val, decide (x ≠ 0) = true := by
    intro x hx
    refine decide_eq_true fun heq => hzero (heq ▸ hx)
  rw [cString, hsplit, List.map_append, List.map_cons, hfirst, hend,
    List.takeWhile_append_of_pos hall, List.takeWhile_cons_of_neg (by simp), List.append_nil]

/-- The entries have numbers of one digit. -/
theorem digit_toUInt8 : ∀ i : Fin 8, (UInt32.ofNat i.val).toUInt8 = i.val.toUInt8 := by decide

/-- `ls` lists what is on the shelf. -/
theorem cmdLs_does (h : Agrees t s) : Does (fun _ _ => True) (cmdLs font D) Sitting.cmdLs t s := by
  refine Matches.left (wp_reopenDir h) ?_
  rintro _ t ⟨h, -⟩
  refine Matches.forM (fun i t s h => ?_) _ h
  have hindex : (UInt64.ofNat i.val).toNat = i.val :=
    UInt64.toNat_ofNat_of_lt' (show i.val < 2 ^ 64 by omega)
  refine Matches.left (wp_dirEntry h _) ?_
  rintro r t ⟨h, vol, ⟨-, hshelved⟩, rfl⟩
  refine Matches.right_get ?_
  rw [Shelf.at_of hindex]
  cases hslot : s.shelf.slot i with
  | none => exact Matches.pure trivial h
  | some c =>
    have hfiled := hshelved.filed i c hslot
    have hnum : (slot (vol.chunk rootCluster) i.val).dirEntryNum.toUInt8 = i.val.toUInt8 := by
      rw [hfiled.num]
      exact digit_toUInt8 i
    have hname := cString_name hfiled
    show Does _ (puts font D [chr '0' + (slot (vol.chunk rootCluster) i.val).dirEntryNum.toUInt8,
      chr ':', chr ' '] >>= _) _ t s
    rw [hnum]
    refine (puts_does h _).bind fun _ _ t s _ h => ?_
    refine Matches.left_modify ?_
    show Does _ (puts font D (cString 512 (slot (vol.chunk rootCluster) i.val).toBytes) >>= _) _ _ s
    rw [hname]
    refine Matches.after (puts_does (h.cursor _) _) fun _ _ t s _ h => ?_
    exact wp_nextLine h.toAgrees

/-- `touch` puts an empty file there. -/
theorem cmdTouch_does (h : Agrees t s) :
    Does (fun _ _ => True) (cmdTouch font D) Sitting.cmdTouch t s := by
  refine ask_does h _ _ rfl fun buf b t s hb h => ?_
  refine Matches.left (wp_reopenDir h) ?_
  rintro _ t ⟨h, vol, hdisk, hbuf⟩
  have hbytes := hb.upTo (n := 255) (by decide)
  refine checkEnd_does hbytes (Matches.left_get (Matches.right_get ?_))
  have hname : fileName (bytes buf) = fileName b := Subtype.ext (cString_congr hbytes)
  rw [hname, h.partition]
  cases hadd : s.shelf.add (fileName b) with
  | none => exact Matches.waive rfl
  | some shelf =>
    refine Matches.left (wp_fatCall (fat64TouchCalls mkfsPartition_wf.sixteen_le_tagSector _ _)
      h.intact (touch_shelved hdisk.1 hdisk.2 h.cd hbuf hadd)) ?_
    rintro _ _ ⟨d, rfl, intact, rfl, hd⟩
    refine Matches.left_modify (Matches.of_wp rfl ?_)
    refine wp_mono (wp_flushDir ((h.withDisk intact hd).withDir h.cd)) ?_ fun _ he => he
    exact fun _ _ h => ⟨trivial, h⟩

/-- `rm` takes a file away. -/
theorem cmdRm_does (h : Agrees t s) :
    Does (fun _ _ => True) (cmdRm font D) Sitting.cmdRm t s := by
  refine ask_does h _ _ rfl fun buf b t s hb h => ?_
  refine find_does h hb (fun t h => Matches.pure trivial h) fun t vol i c h hdisk hc => ?_
  refine Matches.left_get (Matches.right_get ?_)
  rw [h.partition]
  refine Matches.left (wp_fatCall (fat64RmCalls mkfsPartition_wf.sixteen_le_tagSector _)
    h.intact (rm_shelved hdisk.1 hdisk.2 hc rfl)) ?_
  rintro _ _ ⟨d, rfl, intact, hd⟩
  refine Matches.of_wp rfl (wp_mono (wp_flushDir (h.withDisk intact hd)) ?_ fun _ he => he)
  exact fun _ _ h => ⟨trivial, h⟩

/-- `write` appends a line to a file. -/
theorem cmdWrite_does (h : Agrees t s) :
    Does (fun _ _ => True) (cmdWrite font D) Sitting.cmdWrite t s := by
  refine ask_does h _ _ rfl fun buf b t s hb h => ?_
  refine find_does h hb (fun t h => Matches.pure trivial h) fun t vol i c h hdisk hc => ?_
  refine Matches.left_modify ?_
  refine (puts_does (h.cursor _) _).bind fun _ _ t₁ s₁ _ h₁ => Matches.left_modify ?_
  refine (getLine_does (h₁.cursor _) (n := 255) rfl hb).bind fun buf b t₂ s₂ hb h₂ => ?_
  have hdisk₂ : t₂.disk = t.disk := h₂.disk.trans h₁.disk
  have hshelf₂ : s₂.shelf = s.shelf := h₂.kept.trans h₁.kept
  refine Matches.left_get (Matches.right_get ?_)
  rw [h₂.partition, hshelf₂]
  have hlen : ((List.range 128).map (bytes buf)).length = 128 := by simp
  rw [← hdisk₂] at hdisk
  refine Matches.left (wp_fatCall (fat64WriteCalls mkfsPartition_wf.sixteen_le_tagSector _ _)
    h₂.intact (write_shelved hdisk.1 hdisk.2 hc rfl hlen)) ?_
  rintro ⟨_, file⟩ _ ⟨d, rfl, intact, vol', hshows, hfill⟩
  refine Matches.of_wp rfl ?_
  have hdata : (fun k : Fin 128 => ((List.range 128).map (bytes buf)).getD k.val 0) =
      fun k => b k.val := by
    funext k
    have hlt : k.val < ((List.range 128).map (bytes buf)).length := by rw [hlen]; exact k.isLt
    rw [List.getD_eq_getElem _ _ hlt, List.getElem_map, List.getElem_range]
    exact hb.upTo (n := 128) (by decide) k.val k.isLt
  have hflush := flush_shelved (E := fun _ => False) hdisk.2 hc rfl hshows hfill
  rw [hdata] at hflush
  refine wp_seq (wp_fatCall (t := { t₂ with disk := d }) (saveClusterCalls _ file) intact
    hflush) ?_
  rintro _ _ ⟨d', rfl, intact', hd'⟩
  exact wp_pure.mpr ⟨trivial, h₂.withDisk intact' hd'⟩

/-- The buffer after the file has been read. -/
theorem getD_text (shelf : Shelf) (k : Fin 8) (hb : Same buf b) {j : Nat} (hj : j < 0x100000000) :
    ((List.finRange 128).map (shelf.text k)).getD j (bytes buf j) =
      if h : j < 128 then shelf.text k ⟨j, h⟩ else b j := by
  split
  case isTrue h =>
    have hlt : j < ((List.finRange 128).map (shelf.text k)).length := by simpa using h
    rw [List.getD_eq_getElem _ _ hlt, List.getElem_map, List.getElem_finRange]
    rfl
  case isFalse h =>
    rw [List.getD_eq_default _ _ (by simpa using h)]
    exact hb j hj

/-- `cat` shows a file. -/
theorem cmdCat_does (h : Agrees t s) :
    Does (fun _ _ => True) (cmdCat font D) Sitting.cmdCat t s := by
  refine ask_does h _ _ rfl fun buf b t s hb h => ?_
  refine find_does h hb (fun t h => Matches.pure trivial h) fun t vol i c h hdisk hc => ?_
  refine Matches.left_get (Matches.right_get ?_)
  rw [h.partition]
  refine Matches.left (wp_fatCall (fat64ReadCalls _ _ 128) h.intact
    (read_shelved hdisk.1 hdisk.2 hc rfl)) ?_
  rintro ⟨_, _, data⟩ _ ⟨d, rfl, intact, rfl, rfl⟩
  refine Matches.left_modify ?_
  have hbytes : ∀ j < 255, ((List.finRange 128).map (s.shelf.text c.cell)).getD j (bytes buf j) =
      if h : j < 128 then s.shelf.text c.cell ⟨j, h⟩ else b j :=
    fun j hj => getD_text s.shelf c.cell hb (Nat.lt_trans hj (by decide))
  refine checkEnd_does hbytes ?_
  rw [cString_congr hbytes]
  exact (puts_does (h.cursor _) _).mono (fun _ _ _ => trivial) fun _ _ h => h.toAgrees

/-! ## Turns -/

/-- **Each command** does on the disk what it does on the shelf. -/
theorem command_does (h : Agrees t s) (cmd : List UInt8) :
    Does (fun _ _ => True) (command font D cmd) (Sitting.command cmd) t s := by
  refine Matches.ite (fun _ => cmdLs_does h) fun _ => ?_
  refine Matches.ite (fun _ => cmdTouch_does h) fun _ => ?_
  refine Matches.ite (fun _ => cmdRm_does h) fun _ => ?_
  refine Matches.ite (fun _ => cmdWrite_does h) fun _ => ?_
  refine Matches.ite (fun _ => cmdCat_does h) fun _ => ?_
  refine Matches.ite (fun _ => Matches.throw rfl) fun _ => ?_
  refine Matches.ite (fun _ => Matches.pure trivial h) fun _ => ?_
  refine Matches.ite (fun _ => ?_) fun _ => ?_
  · refine Matches.of_wp rfl (wp_modify.mpr ⟨trivial, h.cursor ⟨0, 0, _⟩⟩)
  refine Matches.ite (fun _ => Matches.throw rfl) fun _ => ?_
  exact (puts_does h _).mono (fun _ _ _ => trivial) fun _ _ h => h.toAgrees

/-- **One turn.** -/
theorem turn_does (h : Agrees t s) :
    Does (fun _ _ => True) (turn font D) Sitting.turn t s := by
  refine ask_does h _ _ (show UInt32.toNat 1024 = 1024 from rfl) fun buf b t s hb h => ?_
  rw [cString_congr (hb.upTo (n := 1024) (by decide))]
  exact Matches.after (command_does h _) fun _ _ _ _ _ h => wp_nextLine h

/-! ## Boots -/

/-- The shell starts, on a disk with a shelf. -/
theorem wp_boot (shelf : Shelf) (quiet : Quiet t.cd.behind)
    (hinit : wp fat64Init (fun r d => r = some fsPartition ∧ Intact d ∧ ∃ vol, OnDisk shelf d vol)
      (fun _ => False) t.disk) :
    wp (boot D) (fun _ t' => Agrees t' ⟨shelf, [], t.shown⟩) (fun _ => False) t := by
  obtain ⟨_, d, hrun, rfl, intact, vol, hdisk⟩ := wp_returns hinit
  have hopen : wp (fat64Open fsPartition { File.fresh with behind := t.cd.behind })
      (fun r d' => d' = d ∧ AtRoot r.2) (fun _ => False) d := by
    refine wp_seq (openRoot_spec mkfsPartition_wf hdisk.1) ?_
    rintro _ _ ⟨rfl, rfl⟩
    exact wp_pure.mpr ⟨rfl, rfl, rfl, rfl, quiet⟩
  obtain ⟨⟨_, cd⟩, _, hopened, rfl, hroot⟩ := wp_returns hopen
  rw [boot, wp_bind]
  refine wp_of_eq (call_eq hrun) ?_
  rw [wp_bind, wp_modify, wp_bind, wp_get, wp_bind]
  refine wp_of_eq (call_eq hopened) ?_
  dsimp only
  rw [setDir, wp_bind, wp_modify, wp_modify]
  exact ⟨rfl, intact, hroot, ⟨vol, hdisk⟩, .nil, rfl⟩

/-- The kernel starts again. -/
theorem boot_does (h : Agrees t s) :
    Does (fun _ _ => True) (boot D) (Doing.run .boot) t s := by
  refine Matches.of_wp rfl (wp_mono (wp_boot s.shelf h.cd.quiet ?_) ?_ fun _ he => he)
  · refine wp_mono h.intact.init ?_ fun _ he => he
    rintro _ _ ⟨rfl, rfl⟩
    exact ⟨rfl, h.intact, h.shelf⟩
  · intro _ t' h'
    rw [h.shown] at h'
    exact ⟨trivial, h'⟩

/-- A disk before it is first used: it has no master boot record, and no cluster is in use. -/
structure Unused (d : Disk) : Prop extends d.Vacant fsPartition where
  noRecord : NoRecord (d.sector 0)
  unsaved : d.saved = []

/-- What is in the cells of a disk. -/
def diskText (d : Disk) (k : Fin 8) : Fin 128 → UInt8 :=
  clusterText (d.chunk fsPartition (cellCluster k))

/-- A disk that was never used is formatted, and its shelf is bare. -/
theorem Unused.shelved {d : Disk} (h : Unused d) :
    Shelved ((d.volume fsPartition).format fsPartition) (Shelf.bare (diskText d)) where
  reserved := fun _ hx => Volume.format_used mkfsPartition_wf hx
  taken := by
    rintro k ⟨i, hi⟩
    cases hi
  free := by
    intro k _
    have hroot : fsPartition.rootDir = 1025 := rfl
    have hnum := cellCluster_toNat k
    rw [Volume.format]
    dsimp only
    rw [if_neg (by omega), if_neg (by omega)]
    exact h.free _ (by omega) (cellCluster_data k).2
  filed := by
    intro i c hc
    cases hc
  vacant := fun i _ => h.root i.val i.isLt
  text := fun _ => rfl

/-- **The first boot.** -/
theorem first_boot {d : Disk} (h : Unused d) (hdisk : t.disk = d) (quiet : Quiet t.cd.behind) :
    wp (boot D) (fun _ t' => Agrees t' ⟨Shelf.bare (diskText d), [], t.shown⟩)
      (fun _ => False) t := by
  subst hdisk
  refine wp_boot _ quiet (wp_mono (fat64Init_first h.noRecord
    (fat64Mkfs_format mkfsPartition_wf (shows_self _ t.disk))) ?_ fun _ he => he)
  rintro _ d ⟨_, rfl, h0, h8, hsaved, rfl, hformat⟩
  refine ⟨rfl, ⟨h0, h8, fun n hn => ?_⟩, _, hformat, h.shelved⟩
  rw [hsaved, h.unsaved] at hn
  exact absurd hn List.not_mem_nil

/-! ## Runs -/

/-- What happens at the terminal, and what it means. -/
inductive Event.Means : Event → Doing → Prop
  | boot : Means .boot .boot
  | turn {keys : List UInt8} {lines : List Line} (h : Typed keys lines) :
      Means (.turn keys) (.turn lines)

/-- **Each event** does so, a boot included. -/
theorem event_does {e : Event} {a : Doing} (he : e.Means a) (h : Agrees t s) :
    Does (fun _ _ => True) (e.run font D) a.run t s := by
  cases he with
  | boot => exact boot_does h
  | turn htyped =>
    refine Matches.left_modify (Matches.right (b := ⟨⟩) rfl ?_)
    exact turn_does ⟨h.partition, h.intact, h.cd, h.shelf, h.keys.append htyped, h.shown⟩

/-- What happens to a shell that runs. -/
def goOn (font : UInt32 → Nat → Nat → UInt8) (D : Drawing.Device) (events : List Event) :
    Command Unit :=
  forM events fun e => e.run font D

/-- **So does a whole sitting**, by induction on the events. -/
theorem goOn_does {events : List Event} {doings : List Doing}
    (means : List.Forall₂ Event.Means events doings) (h : Agrees t s) :
    Does (fun _ _ => True) (goOn font D events) (forM doings Doing.run) t s :=
  Matches.forM_of means (fun _ _ he _ _ h => event_does he h) h

/-- The shell from its first boot on. -/
def run (font : UInt32 → Nat → Nat → UInt8) (D : Drawing.Device) (events : List Event) :
    Command Unit := do
  boot D
  goOn font D events

/-- **The shell does what is wanted**, from its first boot on, whatever is typed and however often
the kernel starts again: it shows the same texts and ends with the same shelf, or it stops for the
same reason; only where a card is wanted for which there is no slot, nothing is said. -/
theorem shell_does (unused : Unused t.disk) (quiet : Quiet t.cd.behind) {events : List Event}
    {doings : List Doing} (means : List.Forall₂ Event.Means events doings) :
    (∀ s, forM doings Doing.run ⟨Shelf.bare (diskText t.disk), [], t.shown⟩ = .ok (⟨⟩, s) →
      ∃ t', run font D events t = .ok (⟨⟩, t') ∧ Agrees t' s) ∧
    ∀ stop halt, forM doings Doing.run ⟨Shelf.bare (diskText t.disk), [], t.shown⟩ = .error stop →
      halting stop = some halt → run font D events t = .error halt := by
  have hrun : Does (fun _ _ => True) (run font D events) (forM doings Doing.run) t
      ⟨Shelf.bare (diskText t.disk), [], t.shown⟩ :=
    Matches.left (first_boot unused rfl quiet) fun _ t' h => goOn_does means h
  refine ⟨fun s hs => ?_, fun stop halt hstop hhalt => hrun.of_error hstop hhalt⟩
  obtain ⟨_, t', ht', -, hagrees⟩ := hrun.of_ok hs
  exact ⟨t', ht', hagrees⟩

/-- The keys for some lines. -/
def typing (lines : List Line) : List UInt8 :=
  lines.flatMap fun l => l.map Keystroke.code ++ [0x0a]

/-- The keys of some lines, each with its return key, are typed as these lines. -/
theorem typed_typing (lines : List Line) : Typed (typing lines) lines := by
  induction lines with
  | nil => exact .nil
  | cons l lines ih =>
    have hkeys : typing (l :: lines) = l.map Keystroke.code ++ 0x0a :: typing lines := by
      rw [typing, List.flatMap_cons, List.append_assoc]
      rfl
    rw [hkeys]
    exact .cons (Or.inl rfl) ih

/-- The keystrokes of a text. -/
def Line.of (text : List UInt8) : Line :=
  text.filterMap fun c => if h : 0x20 ≤ c ∧ c ≤ 0x7e then some (.char ⟨c, h⟩) else none

/-- A terminal with a disk on which nothing has been written. -/
def blankTerminal : Terminal where
  scrX := 0
  scrY := 0
  screen := Drawing.blankMemory
  cd := .fresh
  partition := noPartition
  disk := .blank
  keys := []
  shown := []

/-- A blank disk has never been used. -/
theorem blank_unused : Unused .blank where
  free := fun c _ hc => (blank_shows fsPartition).tag c hc
  root := by decide
  noRecord := by decide
  unsaved := rfl

/-- What a sitting shows, read off its result. -/
theorem shown_of_map (doings : List Doing) (s : Sitting) {texts : List (List UInt8)}
    (h : (forM doings Doing.run s).toOption.map (fun r => r.2.shown) = some texts) :
    ∃ s', forM doings Doing.run s = .ok (⟨⟩, s') ∧ s'.shown = texts := by
  cases hrun : forM doings Doing.run s with
  | error e =>
    rw [hrun] at h
    cases h
  | ok r =>
    rw [hrun] at h
    exact ⟨r.2, rfl, Option.some.inj h⟩

/-- A file is created and written, and shown after the kernel has started again. -/
theorem shell_does_file :
    ∃ t', run (fun _ _ _ => 0) Drawing.background
        [.turn (typing [.of touch, .of [0x61]]),
          .turn (typing [.of writeWord, .of [0x30], .of [0x68, 0x69]]), .boot,
          .turn (typing [.of cat, .of [0x30]])] blankTerminal = .ok (⟨⟩, t') ∧
      t'.shown = [prompt, filenamePrompt, prompt, entryPrompt, dataPrompt, prompt, entryPrompt,
        [0x68, 0x69]] := by
  have hshows : (forM [.turn [.of touch, .of [0x61]],
        .turn [.of writeWord, .of [0x30], .of [0x68, 0x69]], .boot, .turn [.of cat, .of [0x30]]]
      Doing.run ⟨Shelf.bare (diskText .blank), [], []⟩).toOption.map (fun r => r.2.shown) =
      some [prompt, filenamePrompt, prompt, entryPrompt, dataPrompt, prompt, entryPrompt,
        [0x68, 0x69]] := by decide +kernel
  have hquiet : ¬ (Entry.ofBytes fun k => if k = 0 then 0 else 0).Valid := by decide
  obtain ⟨s, hs, hshown⟩ := shown_of_map _ _ hshows
  have hmeans : List.Forall₂ Event.Means _ _ := .cons (.turn (typed_typing [.of touch, .of [0x61]]))
    (.cons (.turn (typed_typing [.of writeWord, .of [0x30], .of [0x68, 0x69]]))
      (.cons .boot (.cons (.turn (typed_typing [.of cat, .of [0x30]])) .nil)))
  obtain ⟨t', ht', hagrees⟩ := (shell_does (t := blankTerminal) blank_unused hquiet hmeans).1 s hs
  exact ⟨t', ht', hagrees.shown.trans hshown⟩

end Cumulonimbus.Shell
