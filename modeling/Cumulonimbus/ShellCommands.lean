import Mathlib.Data.List.TakeWhile
import Cumulonimbus.Fat64Boots
import Cumulonimbus.Printf
import Cumulonimbus.ShellInput

/-!
# The shell and its files

The loop of `shell.c` and its commands on the files of the root directory.  A command asks for a
line, takes the number of an entry from its first character, and works on the file through a handle
of its own.  Each line is read to a buffer on the stack, and a line that is longer than its buffer
goes on in the memory behind it; what happens then is not modelled.

`send` belongs to the network and `manager` to the processes, so the shell is left there.
-/

namespace Cumulonimbus.Shell

open Exec Fat64
open Printf (chr)

/-- Why the shell does not come to its next prompt. -/
inductive Halt
  /-- It waits for a key. -/
  | waits
  /-- A line has been written past the end of its buffer, or a text is read past it. -/
  | overruns
  /-- A loop of the file system does not end. -/
  | spins
  /-- A command that is not modelled. -/
  | leaves
  deriving DecidableEq

/-- The variables of `shell.c`, and what it works with: the file system, the keys that have not been
read, and the texts that it has drawn, the latest last. -/
structure Terminal extends Cursor where
  cd : File
  partition : Partition
  disk : Disk
  keys : List UInt8
  shown : List (List UInt8)

abbrev Command (α : Type) := Prog Terminal Halt α

/-! ## Texts -/

/-- The string at the start of `n` bytes, or all of them where it has no end. -/
def cString (n : Nat) (b : Nat → UInt8) : List UInt8 :=
  ((List.range n).map b).takeWhile (· ≠ 0)

/-- The string ends within `n` bytes. -/
def Ends (n : Nat) (b : Nat → UInt8) : Prop := ∃ k, k < n ∧ b k = 0

instance (n : Nat) (b : Nat → UInt8) : Decidable (Ends n b) :=
  inferInstanceAs (Decidable (∃ k, k < n ∧ b k = 0))

theorem length_cString_le (n : Nat) (b : Nat → UInt8) : (cString n b).length ≤ n := by
  have hle := (List.takeWhile_sublist (· ≠ 0) (l := (List.range n).map b)).length_le
  rw [List.length_map, List.length_range] at hle
  exact hle

theorem zero_notMem_cString {n : Nat} {b : Nat → UInt8} : 0 ∉ cString n b := fun hmem => by
  have hne := List.mem_takeWhile_imp hmem
  simp at hne

/-- What `strcpy` makes of the string in a buffer of 255 bytes. -/
def fileName (b : Nat → UInt8) : FileName :=
  ⟨cString 255 b, Nat.lt_succ_of_le (length_cString_le 255 b), zero_notMem_cString⟩

/-- The bytes of a buffer of the model of `get_input`. -/
def bytes (buf : UInt32 → UInt8) (k : Nat) : UInt8 := buf (UInt32.ofNat k)

/-- `entry[0]-'0'`, where `char` has a sign. -/
def entryNum (buf : UInt32 → UInt8) : UInt64 := UInt64.ofInt ((buf 0).toInt8.toInt - 48)

def prompt : List UInt8 := [' ', '>'].map chr
def filenamePrompt : List UInt8 := ['F', 'i', 'l', 'e', 'n', 'a', 'm', 'e', ':', ' '].map chr
def entryPrompt : List UInt8 := ['E', 'n', 't', 'r', 'y', ':', ' '].map chr
def dataPrompt : List UInt8 := ['D', 'a', 't', 'a', ':', ' '].map chr
def notFound : List UInt8 :=
  [' ', '-', ' ', 'C', 'o', 'm', 'm', 'a', 'n', 'd', ' ', 'n', 'o', 't', ' ', 'f', 'o', 'u', 'n',
    'd'].map chr

/-! The names of the commands, as `cmd_ls` and so on have them. -/

def ls : List UInt8 := ['l', 's'].map chr
def touch : List UInt8 := ['t', 'o', 'u', 'c', 'h'].map chr
def rm : List UInt8 := ['r', 'm'].map chr
def writeWord : List UInt8 := ['w', 'r', 'i', 't', 'e'].map chr
def cat : List UInt8 := ['c', 'a', 't'].map chr
def send : List UInt8 := ['s', 'e', 'n', 'd'].map chr
def home : List UInt8 := ['h', 'o', 'm', 'e'].map chr
def clear : List UInt8 := ['c', 'l', 'e', 'a', 'r'].map chr
def manager : List UInt8 := ['m', 'a', 'n', 'a', 'g', 'e', 'r'].map chr

section Commands

variable (font : UInt32 → Nat → Nat → UInt8) (D : Drawing.Device)

/-! ## The screen and the keys -/

/-- `gs_puts_at(FONT_CHAR_WIDTH*scr_x, FONT_CHAR_HEIGHT*scr_y, s, GS_DRAW_MODE_FLAT)` -/
def puts (s : List UInt8) : Command Unit :=
  modify fun t => { t with
    screen := Drawing.gsPutsAt font D Drawing.modeFlat s
      (Drawing.fontCharWidth.toUInt32 * t.scrX).toInt32
      (Drawing.fontCharHeight.toUInt32 * t.scrY).toInt32 t.screen
    shown := t.shown ++ [s] }

/-- `scr_x = x` -/
def setX (x : UInt32) : Command Unit := modify fun t => { t with scrX := x }

def nextLine : Command Unit := modify fun t => { t with toCursor := newLine D t.toCursor }

/-- `get_input` with a buffer of `n` bytes. -/
def getLine (n : UInt32) (buf : UInt32 → UInt8) : Command (UInt32 → UInt8) := do
  let t ← get
  match getInput font D t.keys buf t.toCursor with
  | none => throw .waits
  | some (keys, v) =>
    if v.written.all (· < n) then do
      set { t with toCursor := v.toCursor, keys := keys }
      return v.buf
    else throw .overruns

/-- A string that is read from a buffer of `n` bytes. -/
def checkEnd (n : Nat) (b : Nat → UInt8) : Command Unit :=
  if Ends n b then return () else throw .overruns

/-! ## The file system -/

def call {α : Type} (x : Fat α) : Command α := fun t =>
  match x t.disk with
  | .ok (a, d) => .ok (a, { t with disk := d })
  | .error _ => .error .spins

def setDir (cd : File) : Command Unit := modify fun t => { t with cd := cd }

/-- `fat64_reopen(cur_dir)` -/
def reopenDir : Command Unit := do
  let t ← get
  let cd ← call (fat64Reopen t.partition t.cd)
  setDir cd

/-- `fat64_flush(cur_dir)` -/
def flushDir : Command Unit := do
  let t ← get
  let cd ← call (fat64Flush t.partition t.cd)
  setDir cd

/-- `fat64_dir_entry(cur_dir, index, file)`, with the handle where there is such a file. -/
def dirEntry (index : UInt64) : Command (Option File) := do
  let t ← get
  let (stat, cd, file) ← call (fat64DirEntry t.partition t.cd index .fresh)
  setDir cd
  return if stat = .success then some file else none

/-! ## The commands -/

/-- `_cmd_ls` -/
def cmdLs : Command Unit := do
  reopenDir
  forM (List.finRange 8) fun i => do
    match ← dirEntry (UInt64.ofNat i.val) with
    | none => return ()
    | some f => do
      puts font D [chr '0' + f.entry.dirEntryNum.toUInt8, chr ':', chr ' ']
      modify fun t => { t with scrX := t.scrX + 3 }
      puts font D (cString 512 f.entry.toBytes)
      nextLine D

/-- `_cmd_touch` -/
def cmdTouch : Command Unit := do
  puts font D filenamePrompt
  setX 10
  let name ← getLine font D 255 fun _ => 0
  reopenDir
  checkEnd 255 (bytes name)
  let t ← get
  let (_, cd) ← call (fat64Touch t.partition t.cd (fileName (bytes name)))
  setDir cd
  flushDir

/-- `_cmd_rm` -/
def cmdRm : Command Unit := do
  puts font D entryPrompt
  setX 7
  let entry ← getLine font D 255 fun _ => 0
  match ← dirEntry (entryNum entry) with
  | none => return ()
  | some file => do
    let t ← get
    let _ ← call (fat64Rm t.partition file)
    flushDir

/-- `_cmd_write`, which reads the data to the buffer that has the number of the entry. -/
def cmdWrite : Command Unit := do
  puts font D entryPrompt
  setX 7
  let entry ← getLine font D 255 fun _ => 0
  match ← dirEntry (entryNum entry) with
  | none => return ()
  | some file => do
    nextLine D
    puts font D dataPrompt
    setX 6
    let entry ← getLine font D 255 entry
    let t ← get
    let (_, file) ← call (fat64Write t.partition file ((List.range 128).map (bytes entry)))
    let _ ← call (fat64Flush t.partition file)

/-- `_cmd_cat`, which reads the file to the buffer that has the number of the entry. -/
def cmdCat : Command Unit := do
  puts font D entryPrompt
  setX 7
  let entry ← getLine font D 255 fun _ => 0
  match ← dirEntry (entryNum entry) with
  | none => return ()
  | some file => do
    let t ← get
    let (_, _, data) ← call (fat64Read t.partition file 128)
    let entry := fun k => data.getD k (bytes entry k)
    nextLine D
    checkEnd 255 entry
    puts font D (cString 255 entry)

/-- The command that has been typed.  The screen that `home` shows instead is another one. -/
def command (cmd : List UInt8) : Command Unit :=
  if cmd = ls then cmdLs font D
  else if cmd = touch then cmdTouch font D
  else if cmd = rm then cmdRm font D
  else if cmd = writeWord then cmdWrite font D
  else if cmd = cat then cmdCat font D
  else if cmd = send then throw .leaves
  else if cmd = home then return ()
  else if cmd = clear then
    modify fun t => { t with scrX := 0, scrY := 0, screen := Drawing.gsClear D t.screen }
  else if cmd = manager then throw .leaves
  else puts font D notFound

/-- One turn of the loop of `shell`. -/
def turn : Command Unit := do
  puts font D prompt
  setX 2
  let buf ← getLine font D 1024 fun _ => 0
  command font D (cString 1024 (bytes buf))
  nextLine D

/-- The kernel starts, with the file system, and the shell up to its loop. -/
def boot : Command Unit := do
  let r ← call fat64Init
  modify fun t => { t with partition := r.getD noPartition, scrX := 0, scrY := 0, keys := [] }
  let t ← get
  let (_, cd) ← call (fat64Open t.partition { File.fresh with behind := t.cd.behind })
  setDir cd
  modify fun t => { t with screen := Drawing.gsClear D t.screen }

inductive Event
  | boot
  /-- A turn, and what is typed before it. -/
  | turn (keys : List UInt8)

def Event.run : Event → Command Unit
  | .boot => Shell.boot D
  | .turn keys => do
    modify fun t => { t with keys := t.keys ++ keys }
    Shell.turn font D

end Commands

end Cumulonimbus.Shell
