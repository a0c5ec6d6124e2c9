import Mathlib.Data.Fintype.Card
import Mathlib.Order.Fin.Basic
import Cumulonimbus.ShellCommands

/-!
# A shelf of texts

What the commands of the shell are for, without a disk.  A shelf has eight slots for cards, and
each card has a name and a cell of its own, where its text is.  A new card goes to the first slot
and takes the first cell that no card has.  A cell keeps its text when the card is taken away, so
the next card may show it.
-/

namespace Cumulonimbus.Shell

open Exec
open Fat64 (FileName)
open Printf (chr)

structure Card where
  name : FileName
  cell : Fin 8

/-- The cards, and what is in the cells; no two cards have one cell. -/
structure Shelf where
  slot : Fin 8 → Option Card
  text : Fin 8 → Fin 128 → UInt8
  apart : ∀ i j c c', slot i = some c → slot j = some c' → c.cell = c'.cell → i = j

namespace Shelf

variable (s : Shelf)

/-- Some card has the cell. -/
def Taken (k : Fin 8) : Prop := ∃ i, (s.slot i).map Card.cell = some k

instance (k : Fin 8) : Decidable (s.Taken k) :=
  inferInstanceAs (Decidable (∃ i, (s.slot i).map Card.cell = some k))

def firstSlot : Option (Fin 8) := Fin.find? fun i => (s.slot i).isNone

def firstCell : Option (Fin 8) := Fin.find? fun k => ¬ s.Taken k

variable {s} {i j k : Fin 8} {c : Card}

/-- The cell of a card is taken. -/
theorem taken_of_slot (h : s.slot i = some c) : s.Taken c.cell := ⟨i, by rw [h]; rfl⟩

/-- The first empty slot is empty, and those in front of it are not. -/
theorem firstSlot_some (h : s.firstSlot = some i) :
    s.slot i = none ∧ ∀ j < i, s.slot j ≠ none := by
  obtain ⟨hnone, hbefore⟩ := Fin.find?_eq_some_iff.mp h
  refine ⟨Option.isNone_iff_eq_none.mp hnone, fun j hj hslot => ?_⟩
  have hsome := hbefore j hj
  rw [hslot] at hsome
  cases hsome

/-- The first free cell is free, and those in front of it are taken. -/
theorem firstCell_some (h : s.firstCell = some k) : ¬ s.Taken k ∧ ∀ j < k, s.Taken j := by
  simpa using Fin.find?_eq_some_iff.mp h

/-- No cards, and whatever is in the cells. -/
def bare (text : Fin 8 → Fin 128 → UInt8) : Shelf where
  slot := fun _ => none
  text := text
  apart := fun _ _ _ _ h => by cases h

/-! ## What is done with cards -/

/-- A new card in a free cell shares it with no other. -/
theorem apart_add {name : FileName} (hk : s.firstCell = some k) (i i' : Fin 8) (j : Fin 8)
    (c c' : Card) (h : Function.update s.slot j (some ⟨name, k⟩) i = some c)
    (h' : Function.update s.slot j (some ⟨name, k⟩) i' = some c') (heq : c.cell = c'.cell) :
    i = i' := by
  have hfree := (firstCell_some hk).1
  rw [Function.update_apply] at h h'
  by_cases hi : i = j <;> by_cases hi' : i' = j
  · rw [hi, hi']
  · rw [if_pos hi] at h
    rw [if_neg hi'] at h'
    obtain rfl := Option.some.inj h
    exact absurd (taken_of_slot h') (heq ▸ hfree)
  · rw [if_neg hi] at h
    rw [if_pos hi'] at h'
    obtain rfl := Option.some.inj h'
    exact absurd (taken_of_slot h) (heq ▸ hfree)
  · rw [if_neg hi] at h
    rw [if_neg hi'] at h'
    exact s.apart i i' c c' h h' heq

/-- With a card less no two share a cell either. -/
theorem apart_drop (j i i' : Fin 8) (c c' : Card) (h : Function.update s.slot j none i = some c)
    (h' : Function.update s.slot j none i' = some c') (heq : c.cell = c'.cell) : i = i' := by
  rw [Function.update_apply] at h h'
  split at h
  · cases h
  · split at h'
    · cases h'
    · exact s.apart i i' c c' h h' heq

variable (s)

/-- A new card, if there is a slot. -/
def add (name : FileName) : Option Shelf :=
  match s.firstSlot, hk : s.firstCell with
  | some j, some k => some { s with
      slot := Function.update s.slot j (some ⟨name, k⟩)
      apart := fun i i' => apart_add hk i i' j }
  | _, _ => none

def drop (j : Fin 8) : Shelf :=
  { s with slot := Function.update s.slot j none, apart := apart_drop j }

/-- Another text in a cell. -/
def fill (k : Fin 8) (data : Fin 128 → UInt8) : Shelf :=
  { s with text := Function.update s.text k data }

/-- The card in the slot whose number is typed. -/
def find (digit : UInt8) : Option (Fin 8 × Card) :=
  if h : 48 ≤ digit.toNat ∧ digit.toNat < 56 then
    let i : Fin 8 := ⟨digit.toNat - 48, Nat.sub_lt_left_of_lt_add h.1 h.2⟩
    (s.slot i).map fun c => (i, c)
  else none

variable {s} {s' : Shelf} {name : FileName}

/-- **Adding a card** takes the first empty slot and the first free cell, and leaves the texts. -/
theorem add_eq_some (h : s.add name = some s') : ∃ j k, s.firstSlot = some j ∧
    s.firstCell = some k ∧ s'.slot = Function.update s.slot j (some ⟨name, k⟩) ∧
    s'.text = s.text := by
  rw [add] at h
  split at h
  case h_1 j k hj hk =>
    obtain rfl := Option.some.inj h
    exact ⟨j, k, hj, hk, rfl, rfl⟩
  case h_2 => cases h

/-- Its cell is taken then. -/
theorem taken_add (h : s.add name = some s') (hk : s.firstCell = some k) (m : Fin 8) :
    s'.Taken m ↔ m = k ∨ s.Taken m := by
  obtain ⟨j, k', hj, hk', hslot, -⟩ := add_eq_some h
  obtain rfl := Option.some.inj (hk.symm.trans hk')
  rw [Taken, hslot]
  constructor
  · rintro ⟨i, hi⟩
    rw [Function.update_apply] at hi
    split at hi
    · exact Or.inl (Option.some.inj hi).symm
    · exact Or.inr ⟨i, hi⟩
  · rintro (rfl | ⟨i, hi⟩)
    · exact ⟨j, by rw [Function.update_self]; rfl⟩
    · refine ⟨i, ?_⟩
      rw [Function.update_of_ne]
      · exact hi
      · rintro rfl
        rw [(firstSlot_some hj).1] at hi
        cases hi

@[simp] theorem drop_slot : (s.drop j).slot = Function.update s.slot j none := rfl

@[simp] theorem drop_text : (s.drop j).text = s.text := rfl

@[simp] theorem fill_slot (data : Fin 128 → UInt8) : (s.fill k data).slot = s.slot := rfl

@[simp] theorem fill_text (data : Fin 128 → UInt8) :
    (s.fill k data).text = Function.update s.text k data := rfl

/-- **Finding a card** by the digit of its slot. -/
theorem find_eq_some {digit : UInt8} (h : s.find digit = some (j, c)) :
    s.slot j = some c ∧ digit.toNat = 48 + j.val := by
  rw [find] at h
  split at h
  case isTrue hdigit =>
    obtain ⟨c', hc', heq⟩ := Option.map_eq_some_iff.mp h
    obtain ⟨rfl, rfl⟩ := Prod.mk.inj heq
    exact ⟨hc', (Nat.add_sub_cancel' hdigit.1).symm⟩
  case isFalse => cases h

/-- A card that is taken away frees its cell. -/
theorem taken_drop (h : s.slot j = some c) (m : Fin 8) :
    (s.drop j).Taken m ↔ m ≠ c.cell ∧ s.Taken m := by
  rw [Taken, drop_slot]
  constructor
  · rintro ⟨i, hi⟩
    rw [Function.update_apply] at hi
    split at hi
    case isTrue => cases hi
    case isFalse hne =>
      refine ⟨fun heq => hne ?_, i, hi⟩
      obtain ⟨c', hc', hcell⟩ := Option.map_eq_some_iff.mp hi
      exact s.apart i j c' c hc' h (hcell.trans heq)
  · rintro ⟨hne, i, hi⟩
    refine ⟨i, ?_⟩
    rw [Function.update_of_ne]
    · exact hi
    · rintro rfl
      rw [h] at hi
      exact hne (Option.some.inj hi).symm

end Shelf

/-! ## The shell with a shelf -/

/-- A line, as it is typed. -/
abbrev Line := List Keystroke

/-- What the line makes of the bytes it is typed over: what has been taken back is zero. -/
def Line.over (l : Line) (before : Nat → UInt8) (k : Nat) : UInt8 :=
  if k < (edited l []).length then (edited l []).getD k 0
  else if k < longest l [] then 0
  else before k

/-- The shelf, the lines that are going to be typed, and the texts that have been shown. -/
structure Sitting where
  shelf : Shelf
  lines : List Line
  shown : List (List UInt8)

/-- Why there is no next prompt. -/
inductive Stop
  | waits
  | overruns
  | leaves
  /-- There is no slot for a new card, and what happens is not said. -/
  | full
  deriving DecidableEq

abbrev Wanted (α : Type) := Prog Sitting Stop α

namespace Sitting

def puts (s : List UInt8) : Wanted Unit := modify fun t => { t with shown := t.shown ++ [s] }

/-- The next line, typed over the bytes of a buffer. -/
def getLine (n : Nat) (before : Nat → UInt8) : Wanted (Nat → UInt8) := do
  let t ← get
  match t.lines with
  | [] => throw .waits
  | l :: lines =>
    if longest l [] ≤ n then do
      set { t with lines := lines }
      return l.over before
    else throw .overruns

/-- The card in the slot that a line names. -/
def card (b : Nat → UInt8) : Wanted (Option (Fin 8 × Card)) := do
  let t ← get
  return t.shelf.find (b 0)

def checkEnd (n : Nat) (b : Nat → UInt8) : Wanted Unit :=
  if Ends n b then return () else throw .overruns

def setShelf (s : Shelf) : Wanted Unit := modify fun t => { t with shelf := s }

def cmdLs : Wanted Unit :=
  forM (List.finRange 8) fun i => do
    let t ← get
    match t.shelf.slot i with
    | none => return ()
    | some c => do
      puts [chr '0' + i.val.toUInt8, chr ':', chr ' ']
      puts c.name.val

def cmdTouch : Wanted Unit := do
  puts filenamePrompt
  let name ← getLine 255 fun _ => 0
  checkEnd 255 name
  let t ← get
  match t.shelf.add (fileName name) with
  | none => throw .full
  | some s => setShelf s

def cmdRm : Wanted Unit := do
  puts entryPrompt
  let entry ← getLine 255 fun _ => 0
  match ← card entry with
  | none => return ()
  | some (i, _) => do
    let t ← get
    setShelf (t.shelf.drop i)

def cmdWrite : Wanted Unit := do
  puts entryPrompt
  let entry ← getLine 255 fun _ => 0
  match ← card entry with
  | none => return ()
  | some (_, c) => do
    puts dataPrompt
    let entry ← getLine 255 entry
    let t ← get
    setShelf (t.shelf.fill c.cell fun j => entry j.val)

def cmdCat : Wanted Unit := do
  puts entryPrompt
  let entry ← getLine 255 fun _ => 0
  match ← card entry with
  | none => return ()
  | some (_, c) => do
    let t ← get
    let entry := fun k => if h : k < 128 then t.shelf.text c.cell ⟨k, h⟩ else entry k
    checkEnd 255 entry
    puts (cString 255 entry)

def command (cmd : List UInt8) : Wanted Unit :=
  if cmd = ls then cmdLs
  else if cmd = touch then cmdTouch
  else if cmd = rm then cmdRm
  else if cmd = writeWord then cmdWrite
  else if cmd = cat then cmdCat
  else if cmd = send then throw .leaves
  else if cmd = home then return ()
  else if cmd = clear then return ()
  else if cmd = manager then throw .leaves
  else puts notFound

def turn : Wanted Unit := do
  puts prompt
  let buf ← getLine 1024 fun _ => 0
  command (cString 1024 buf)

end Sitting

/-- The kernel starts again, or a turn is taken after lines have been typed. -/
inductive Doing
  | boot
  | turn (lines : List Line)

def Doing.run : Doing → Wanted Unit
  | .boot => modify fun t => { t with lines := [] }
  | .turn lines => do
    modify fun t => { t with lines := t.lines ++ lines }
    Sitting.turn

end Cumulonimbus.Shell
