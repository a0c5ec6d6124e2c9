import Cumulonimbus.ShellRuns

/-!
# What `cat` shows

A text stays in its cell until another one is written there.  Removing its file does not touch it,
nor does a boot; so the next file that gets the cluster shows it (`cat_shows_cell`).
-/

namespace Cumulonimbus.Shell

open Exec Fat64

attribute [local irreducible] wp Matches

variable {font : UInt32 → Nat → Nat → UInt8} {D : Drawing.Device} {t : Terminal} {s s' : Sitting}
  {b : Nat → UInt8} {k : Fin 8} {n : Nat}

/-- The bytes of a buffer that has been cleared. -/
abbrev cleared : Nat → UInt8 := fun _ => 0

/-- The command that a line is. -/
def Line.command (l : Line) : List UInt8 := cString 1024 (l.over cleared)

/-- The turn does not write a text to the cell. -/
def Doing.Leaves (k : Fin 8) (s : Sitting) : Doing → Prop
  | .boot => True
  | .turn lines => ∀ l e rest, s.lines ++ lines = l :: e :: rest → Line.command l = writeWord →
    ∀ i c, s.shelf.find (Line.over e cleared 0) = some (i, c) → c.cell ≠ k

/-! ## What the commands leave as it is -/

/-- A line is read if there is one. -/
theorem wp_getLine {Q : (Nat → UInt8) → Sitting → Prop}
    (h : ∀ l lines, s.lines = l :: lines → Q (l.over b) { s with lines := lines }) :
    wp (Sitting.getLine n b) Q (fun _ => True) s := by
  rw [Sitting.getLine, wp_bind, wp_get]
  split
  case h_1 => exact wp_throw.mpr trivial
  case h_2 l lines hlines =>
    rw [wp_ite]
    refine ⟨fun _ => ?_, fun _ => wp_throw.mpr trivial⟩
    rw [wp_bind, wp_set, wp_pure]
    exact h l lines hlines

/-- What is in the cells. -/
abbrev Sitting.text (s : Sitting) : Fin 8 → Fin 128 → UInt8 := s.shelf.text

/-- Printing changes no text. -/
theorem puts_keeps (text : List UInt8) : Keeps Sitting.text (Sitting.puts text) :=
  .modify fun _ => rfl

/-- Nor does reading a line. -/
theorem getLine_keeps : Keeps Sitting.text (Sitting.getLine n b) :=
  fun _ => wp_getLine fun _ _ _ => rfl

/-- Nor does the test whether it ends. -/
theorem checkEnd_keeps : Keeps Sitting.text (Sitting.checkEnd n b) := .ite (.pure _) (.throw _)

/-- Nor does choosing a file. -/
theorem card_keeps : Keeps Sitting.text (Sitting.card b) := .bind .get fun _ => .pure _

/-- `ls` changes no text. -/
theorem cmdLs_keeps : Keeps Sitting.text Sitting.cmdLs := by
  refine Keeps.forM (fun i => .bind .get fun t => ?_) _
  cases t.shelf.slot i with
  | none => exact .pure _
  | some c => exact (puts_keeps _).bind fun _ => puts_keeps _

/-- Nor does `touch`, which leaves the cell as it is. -/
theorem cmdTouch_keeps : Keeps Sitting.text Sitting.cmdTouch := by
  refine (puts_keeps _).bind fun _ => getLine_keeps.bind fun b => checkEnd_keeps.bind fun _ s => ?_
  rw [wp_bind, wp_get]
  cases hadd : s.shelf.add (fileName b) with
  | none => exact wp_throw.mpr trivial
  | some shelf =>
    obtain ⟨_, _, -, -, -, htext⟩ := Shelf.add_eq_some hadd
    exact wp_modify.mpr htext

/-- Nor does `rm`. -/
theorem cmdRm_keeps : Keeps Sitting.text Sitting.cmdRm := by
  refine (puts_keeps _).bind fun _ => getLine_keeps.bind fun b => card_keeps.bind fun r => ?_
  cases r with
  | none => exact .pure _
  | some p => exact fun s => wp_modify.mpr rfl

/-- Nor does `cat`. -/
theorem cmdCat_keeps : Keeps Sitting.text Sitting.cmdCat := by
  refine (puts_keeps _).bind fun _ => getLine_keeps.bind fun b => card_keeps.bind fun r => ?_
  cases r with
  | none => exact .pure _
  | some p => exact .bind .get fun _ => checkEnd_keeps.bind fun _ => puts_keeps _

/-- Writing changes the cell of the card that is named. -/
theorem cmdWrite_leaves (h : ∀ e rest, s.lines = e :: rest → ∀ i c,
      s.shelf.find (Line.over e cleared 0) = some (i, c) → c.cell ≠ k) :
    wp Sitting.cmdWrite (fun _ s' => s'.text k = s.text k) (fun _ => True) s := by
  rw [Sitting.cmdWrite, Sitting.puts, wp_bind, wp_modify, wp_bind]
  refine wp_getLine fun e rest hlines => ?_
  rw [Sitting.card, wp_bind, wp_bind, wp_get, wp_pure]
  have hcell := h e rest hlines
  cases hfind : s.shelf.find (Line.over e cleared 0) with
  | none =>
    exact wp_pure.mpr rfl
  | some p =>
    dsimp only
    rw [Sitting.puts, wp_bind, wp_modify, wp_bind]
    refine wp_getLine fun _ _ _ => ?_
    rw [wp_bind, wp_get, Sitting.setShelf, wp_modify]
    exact Function.update_of_ne (hcell p.1 p.2 hfind).symm _ _

/-- **Only `write`** changes texts. -/
theorem command_keeps {cmd : List UInt8} (h : cmd ≠ writeWord) :
    Keeps Sitting.text (Sitting.command cmd) := by
  refine .ite cmdLs_keeps (.ite cmdTouch_keeps (.ite cmdRm_keeps ?_))
  rw [if_neg h]
  refine .ite cmdCat_keeps (.ite (.throw _) (.ite (.pure _) (.ite (.pure _) ?_)))
  exact .ite (.throw _) (puts_keeps _)

/-- **One turn or boot.** -/
theorem Doing.Leaves.run {a : Doing} (h : a.Leaves k s) :
    wp a.run (fun _ s' => s'.text k = s.text k) (fun _ => True) s := by
  cases a with
  | boot => exact wp_modify.mpr rfl
  | turn lines =>
    rw [Doing.run, wp_bind, wp_modify, Sitting.turn, Sitting.puts, wp_bind, wp_modify, wp_bind]
    refine wp_getLine fun l rest hlines => ?_
    by_cases hwrite : cString 1024 (l.over cleared) = writeWord
    · rw [hwrite, Sitting.command, if_neg (by decide), if_neg (by decide), if_neg (by decide),
        if_pos rfl]
      refine wp_mono (cmdWrite_leaves (k := k) fun e rest' hrest => ?_) (fun _ _ h => h)
        fun _ he => he
      have hrest : rest = e :: rest' := hrest
      exact h l e rest' (by rw [← hrest]; exact hlines) hwrite
    · exact wp_mono (command_keeps hwrite _) (fun _ s' hs' => congrFun hs' k) fun _ he => he

/-- **A text stays** over any turns and boots in which nothing is written to its cell. -/
theorem text_stays {tr : List (Sitting × Doing)}
    (run : Runs Doing.run (fun s a => a.Leaves k s) s tr s') : s'.text k = s.text k :=
  Runs.invariant (I := fun u => u.text k = s.text k) rfl
    (fun _ _ hu hgood => wp_mono hgood.run (fun _ _ h => h.trans hu) fun _ he => he) run

/-! ## What is shown -/

/-- **A run of the sitting** is a run of the shell. -/
theorem shell_runs (unused : Unused t.disk) (quiet : Quiet t.cd.behind) {events : List Event}
    {tr : List (Sitting × Doing)} {good : Sitting → Doing → Prop}
    (done : Runs Doing.run good ⟨Shelf.bare (diskText t.disk), [], t.shown⟩ tr s)
    (means : List.Forall₂ Event.Means events (tr.map Prod.snd)) :
    ∃ t', run font D events t = .ok (⟨⟩, t') ∧ Agrees t' s :=
  (shell_does unused quiet means).1 s done.forM_eq

/-- What `cat` shows of a cell: its text, and behind that what the line has left in the buffer. -/
def catText (text : Fin 128 → UInt8) (e : Line) (j : Nat) : UInt8 :=
  if h : j < 128 then text ⟨j, h⟩ else e.over cleared j

/-- A line that fits is read. -/
theorem wp_getLine_ok {Q : (Nat → UInt8) → Sitting → Prop} {E : Stop → Prop} (l : Line)
    (lines : List Line) (hlines : s.lines = l :: lines) (hl : longest l [] ≤ n)
    (hQ : Q (l.over b) { s with lines := lines }) : wp (Sitting.getLine n b) Q E s := by
  rw [Sitting.getLine, wp_bind, wp_get, hlines]
  dsimp only
  rw [if_pos hl, wp_bind, wp_set, wp_pure]
  exact hQ

/-- A turn with the command `cat`. -/
theorem cat_turn {i : Fin 8} {c : Card} {l e : Line} (hlines : s.lines = [])
    (hc : s.shelf.find (e.over cleared 0) = some (i, c)) (hcat : l.command = cat)
    (hl : longest l [] ≤ 1024) (he : longest e [] ≤ 255)
    (hends : Ends 255 (catText (s.text c.cell) e)) {E : Stop → Prop} :
    wp (Doing.run (.turn [l, e]))
      (fun _ s' => s'.shown.getLast? = some (cString 255 (catText (s.text c.cell) e))) E s := by
  have hcat : cString 1024 (l.over fun _ => 0) = cat := hcat
  have hc : s.shelf.find (e.over (fun _ => 0) 0) = some (i, c) := hc
  rw [Doing.run, wp_bind, wp_modify, Sitting.turn, Sitting.puts, wp_bind, wp_modify, wp_bind]
  refine wp_getLine_ok l [e] (by rw [hlines]; rfl) hl ?_
  rw [hcat, Sitting.command, if_neg (by decide), if_neg (by decide), if_neg (by decide),
    if_neg (by decide), if_pos rfl, Sitting.cmdCat, Sitting.puts, wp_bind, wp_modify, wp_bind]
  refine wp_getLine_ok e [] rfl he ?_
  rw [Sitting.card, wp_bind, wp_bind, wp_get, wp_pure]
  dsimp only
  rw [hc]
  dsimp only
  rw [wp_bind, wp_get]
  show wp (Sitting.checkEnd 255 (catText (s.text c.cell) e) >>= fun _ =>
    Sitting.puts (cString 255 (catText (s.text c.cell) e))) _ _ _
  rw [Sitting.checkEnd, if_pos hends, wp_bind, wp_pure, Sitting.puts, wp_modify]
  exact List.getLast?_concat ..

/-- **What `cat` shows**, of a file that has the cluster of a cell, is the text that was in the cell
at any time before, as long as no `write` has gone to it since.  That may be the text of a file that
has been removed. -/
theorem cat_shows_cell (h : Agrees t s) {tr : List (Sitting × Doing)} {events : List Event}
    (run : Runs Doing.run (fun s a => a.Leaves k s) s tr s')
    (means : List.Forall₂ Event.Means events (tr.map Prod.snd)) (hlines : s'.lines = [])
    {l e : Line} {keys : List UInt8} {i : Fin 8} {c : Card} (typed : Typed keys [l, e])
    (hcat : l.command = cat) (hc : s'.shelf.find (e.over cleared 0) = some (i, c))
    (hcell : c.cell = k) (hl : longest l [] ≤ 1024) (he : longest e [] ≤ 255)
    (hends : Ends 255 (catText (s.text k) e)) :
    ∃ t', goOn font D (events ++ [.turn keys]) t = .ok (⟨⟩, t') ∧
      t'.shown.getLast? = some (cString 255 (catText (s.text k) e)) := by
  have htext := text_stays run
  subst hcell
  rw [← htext] at hends
  obtain ⟨_, s'', hturn, hlast⟩ := wp_returns
    (cat_turn (E := fun _ => False) hlines hc hcat hl he hends)
  have hdone : Runs Doing.run (fun _ _ => True) s (tr ++ [(s', .turn [l, e])]) s'' :=
    (run.mono fun _ _ _ => trivial).snoc trivial hturn
  have hmeans : List.Forall₂ Event.Means (events ++ [.turn keys])
      ((tr ++ [(s', Doing.turn [l, e])]).map Prod.snd) := by
    rw [List.map_append]
    exact List.rel_append means (.cons (.turn typed) .nil)
  obtain ⟨_, t', ht', -, hagrees⟩ := (goOn_does hmeans h).of_ok hdone.forM_eq
  refine ⟨t', ht', ?_⟩
  rw [hagrees.shown, hlast, htext]

/-- The sitting after a turn or a boot that goes through. -/
def Sitting.after (s : Sitting) (a : Doing) : Sitting :=
  match a.run s with
  | .ok r => r.2
  | .error _ => s

/-- Where a doing succeeds it leads to what comes after it. -/
theorem run_after {a : Doing} (h : (a.run s).toOption.isSome) :
    a.run s = .ok (⟨⟩, s.after a) := by
  rw [Sitting.after]
  cases hrun : a.run s with
  | ok r => rfl
  | error e =>
    rw [hrun] at h
    cases h

/-- A turn with another command leaves the texts. -/
theorem leaves_of_command {l : Line} {lines : List Line} (hlines : s.lines = [])
    (h : l.command ≠ writeWord) : (Doing.turn (l :: lines)).Leaves k s := by
  intro l' e rest heq hcommand
  rw [hlines] at heq
  obtain ⟨rfl, -⟩ := List.cons.inj heq
  exact absurd hcommand h

/-- A file with the text `hi`. -/
def hiSitting : Sitting :=
  ((⟨Shelf.bare (diskText .blank), [], []⟩ : Sitting).after
    (.turn [.of touch, .of [0x61]])).after (.turn [.of writeWord, .of [0x30], .of [0x68, 0x69]])

theorem hi_agrees : ∃ t, run (fun _ _ _ => 0) Drawing.background
      [.turn (typing [.of touch, .of [0x61]]),
        .turn (typing [.of writeWord, .of [0x30], .of [0x68, 0x69]])] blankTerminal = .ok (⟨⟩, t) ∧
    Agrees t hiSitting := by
  have hquiet : ¬ (Entry.ofBytes fun k => if k = 0 then 0 else 0).Valid := by decide
  have htouch : Doing.run (.turn [.of touch, .of [0x61]])
      ⟨Shelf.bare (diskText .blank), [], []⟩ = .ok (⟨⟩, _) := run_after (by decide +kernel)
  have hwrite : Doing.run (.turn [.of writeWord, .of [0x30], .of [0x68, 0x69]]) _ =
      .ok (⟨⟩, hiSitting) := run_after (by decide +kernel)
  have hruns : Runs Doing.run (fun _ _ => True) _ _ hiSitting :=
    (Runs.nil.snoc trivial htouch).snoc trivial hwrite
  exact shell_runs (t := blankTerminal) blank_unused hquiet hruns
    (.cons (.turn (typed_typing [.of touch, .of [0x61]]))
      (.cons (.turn (typed_typing [.of writeWord, .of [0x30], .of [0x68, 0x69]])) .nil))

/-- A run of the shell goes on with more events. -/
theorem run_append {events events' : List Event} {t' : Terminal}
    (h : run font D events t = .ok (⟨⟩, t')) :
    run font D (events ++ events') t = goOn font D events' t' := by
  have hsplit : run font D (events ++ events') = run font D events >>= fun _ =>
      goOn font D events' := by
    rw [run, run, goOn, List.forM_append, bind_assoc]
    rfl
  rw [hsplit]
  show Except.bind _ _ = _
  rw [h]
  rfl

/-- The text `hi` is written to a file, the file is removed, and `cat` shows the text of a new
file. -/
theorem cat_shows_removed :
    ∃ t', run (fun _ _ _ => 0) Drawing.background
        ([.turn (typing [.of touch, .of [0x61]]),
          .turn (typing [.of writeWord, .of [0x30], .of [0x68, 0x69]])] ++
        ([.turn (typing [.of rm, .of [0x30]]), .turn (typing [.of touch, .of [0x62]])] ++
        [.turn (typing [.of cat, .of [0x30]])])) blankTerminal = .ok (⟨⟩, t') ∧
      t'.shown.getLast? = some [0x68, 0x69] := by
  obtain ⟨t, ht, hagrees⟩ := hi_agrees
  rw [run_append ht]
  have hrm : Doing.run (.turn [.of rm, .of [0x30]]) hiSitting = .ok (⟨⟩, _) :=
    run_after (by decide +kernel)
  have htouch : Doing.run (.turn [.of touch, .of [0x62]])
    (hiSitting.after (.turn [.of rm, .of [0x30]])) = .ok (⟨⟩, _) := run_after (by decide +kernel)
  have hruns : Runs Doing.run (fun s a => a.Leaves 0 s) hiSitting _ _ := (Runs.nil.snoc
    (leaves_of_command (by decide +kernel) (by decide +kernel)) hrm).snoc
    (leaves_of_command (by decide +kernel) (by decide +kernel)) htouch
  have hfound : (((hiSitting.after (.turn [.of rm, .of [0x30]])).after
      (.turn [.of touch, .of [0x62]])).shelf.find (Line.over (.of [0x30]) cleared 0)).map
      (fun p => p.2.cell) = some 0 := by decide +kernel
  obtain ⟨⟨i, c⟩, hc, hcell⟩ := Option.map_eq_some_iff.mp hfound
  have hends : Ends 255 (catText (hiSitting.text 0) (.of [0x30])) := by decide +kernel
  have hshown : cString 255 (catText (hiSitting.text 0) (.of [0x30])) = [0x68, 0x69] := by
    decide +kernel
  rw [← hshown]
  exact cat_shows_cell hagrees hruns (.cons (.turn (typed_typing [.of rm, .of [0x30]]))
      (.cons (.turn (typed_typing [.of touch, .of [0x62]])) .nil))
    (by decide +kernel) (typed_typing [.of cat, .of [0x30]]) (by decide +kernel) hc hcell
    (by decide +kernel) (by decide +kernel) hends

end Cumulonimbus.Shell
