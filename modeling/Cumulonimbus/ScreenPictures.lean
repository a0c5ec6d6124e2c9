import Cumulonimbus.ScreenLists

/-!
# Pictures

The picture of a screen is in video memory while the screen is active, and in its frame buffer
otherwise.  Switching screens moves pictures between the two, and drawing goes to wherever the
picture is; so what a process sees of its screen does not depend on who switches screens.
-/

namespace Cumulonimbus.Screens

open Exec

/-- The picture of a screen. -/
def System.content (s : System) (h : ScreenId) : Picture :=
  if h = s.activeScreen then s.video else (s.screens h).fb

variable {s t : System} {U A : List ScreenId} {L : Layout} {E : Fault → Prop} {n : ScreenId}

/-- The picture of the active screen is what is seen. -/
theorem content_active (h : n = s.activeScreen) : s.content n = s.video := if_pos h

/-- The picture of another one is what it has saved. -/
theorem content_inactive (h : n ≠ s.activeScreen) : s.content n = (s.screens n).fb := if_neg h

/-- What is stored in a screen but not in its frame buffer leaves all pictures alone. -/
theorem setScreen_content (s : System) (n : ScreenId) {scr : Screen}
    (h : scr.fb = (s.screens n).fb) : (s.setScreen n scr).content = s.content := by
  funext k
  rw [System.content, System.content]
  by_cases hk : k = n
  · rw [hk, setScreen_self, h]
    rfl
  · rw [setScreen_of_ne s hk]
    rfl

/-- Storing one screen leaves the pictures of the others. -/
theorem setScreen_content_ne (s : System) {k : ScreenId} (h : k ≠ n) (scr : Screen) :
    (s.setScreen n scr).content k = s.content k := by
  rw [System.content, System.content, setScreen_of_ne s h]
  rfl

/-- The lists have no pictures. -/
theorem Frame.content (h : Frame s t) : t.content = s.content := by
  rw [Frame] at h
  rw [← h]
  rfl

/-! ## The calls -/

/-- **Switching screens changes no picture.** -/
theorem sysSwitchscreen_content (sh : Int32) :
    wp (sysSwitchscreen sh) (fun _ t => t.content = s.content) E s := by
  rw [sysSwitchscreen, wp_bind, wp_get]
  cases screenOf sh with
  | none => exact rfl
  | some h =>
    dsimp only
    by_cases hactive : h = s.activeScreen
    · rw [if_neg (not_not.mpr hactive)]
      exact rfl
    rw [if_pos hactive, wp_bind, wp_set, wp_pure]
    funext k
    by_cases hk : k = h
    · -- the new screen's picture is loaded
      rw [content_active (by exact hk), content_inactive (hk ▸ hactive), hk]
      exact congrArg Screen.fb (setScreen_of_ne s hactive _)
    rw [content_inactive (by exact hk)]
    by_cases hold : k = s.activeScreen
    · -- the old screen's is saved
      rw [content_active hold, hold]
      exact congrArg Screen.fb (setScreen_self s s.activeScreen _)
    · rw [content_inactive hold]
      exact congrArg Screen.fb (setScreen_of_ne s hold _)

/-- **Drawing changes one pixel** of the picture of the caller's screen. -/
theorem gsDrawPixel_content (p : PcbId) (x : Fin xResolution) (y : Fin yResolution)
    (color : UInt16) :
    wp (gsDrawPixel p x y color)
      (fun _ t => t.content = Function.update s.content (s.pcbScreen p)
        (Function.update (s.content (s.pcbScreen p)) (pixelAt x y) color)) E s := by
  rw [gsDrawPixel, wp_bind, wp_get]
  dsimp only
  by_cases hactive : s.pcbScreen p = s.activeScreen
  · rw [if_pos hactive, wp_set]
    funext k
    by_cases hk : k = s.pcbScreen p
    · rw [hk, Function.update_self, content_active hactive, content_active (by exact hactive)]
    · have hinactive : k ≠ s.activeScreen := hactive ▸ hk
      rw [Function.update_of_ne hk, content_inactive hinactive,
        content_inactive (by exact hinactive)]
  · rw [if_neg hactive, wp_set]
    funext k
    by_cases hk : k = s.pcbScreen p
    · rw [hk, Function.update_self, content_inactive hactive, content_inactive (by exact hactive),
        setScreen_self]
    · rw [Function.update_of_ne hk, setScreen_content_ne s hk]

/-- **Opening a screen** changes the picture of no other. -/
theorem sysOpenscreen_content (c : s.Consistent U A) (pid : Pid) :
    wp (sysOpenscreen L pid)
      (fun r t => ∃ h : ScreenId, r = UInt32.ofNat h.val ∧ (∀ k ≠ h, t.content k = s.content k) ∧
        (U = [] → t.content = s.content) ∧ (U ≠ [] → U.head? = some h)) E s := by
  refine wp_mono (sysOpenscreen_spec c pid) ?_ fun _ he => he
  intro r t hpost
  rcases hpost with ⟨hU, rfl, rfl⟩ | ⟨n, U', hU, rfl, -, hframe⟩
  · have hsame : (s.setScreen emptyHandle
        ((s.screens emptyHandle).open L emptyHandle pid)).content = s.content :=
      setScreen_content s emptyHandle rfl
    exact ⟨emptyHandle, rfl, fun k _ => congrFun hsame k, fun _ => hsame,
      fun hne => absurd hU hne⟩
  · subst hU
    refine ⟨n, rfl, fun k hk => ?_, fun hnil => absurd hnil (List.cons_ne_nil n U'), fun _ => rfl⟩
    rw [hframe.content, setScreen_content_ne s hk]

/-- **`closescreen`** changes no picture. -/
theorem sysClosescreen_content (c : s.Consistent U A) (sh : Int32) :
    wp (sysClosescreen sh) (fun _ t => t.content = s.content) E s := by
  refine wp_mono (sysClosescreen_spec c sh) ?_ fun _ he => he
  intro r t hpost
  rcases hpost with ⟨h, A', -, -, -, -, -, hframe⟩ | ⟨-, -, rfl⟩
  · rw [hframe.content]
    exact setScreen_content s h rfl
  · rfl

/-- **Reading a pixel** reads the caller's screen, active or not. -/
theorem gsGetPixel_content (p : PcbId) (x : Fin xResolution) (y : Fin yResolution) :
    wp (gsGetPixel p x y)
      (fun r t => r = s.content (s.pcbScreen p) (pixelAt x y) ∧ t = s) E s := by
  rw [gsGetPixel, wp_bind, wp_get]
  by_cases hactive : s.pcbScreen p = s.activeScreen
  · rw [if_pos hactive, content_active hactive]
    exact ⟨rfl, rfl⟩
  · rw [if_neg hactive, content_inactive hactive]
    exact ⟨rfl, rfl⟩

/-! ## Reading back -/

/-- Every pixel has a place of its own. -/
theorem pixelAt_inj {x x' : Fin xResolution} {y y' : Fin yResolution}
    (h : pixelAt x y = pixelAt x' y') : x = x' ∧ y = y' := by
  have hval : y.val * 1280 + x.val = y'.val * 1280 + x'.val := congrArg Fin.val h
  have hx : x.val < 1280 := x.isLt
  have hx' : x'.val < 1280 := x'.isLt
  exact ⟨Fin.ext (by omega), Fin.ext (by omega)⟩

/-- The pixel last drawn at a place of a screen since the screen was taken off the list of unused
screens, after an event. -/
def Event.drawn (s : System) (e : Event) (h : ScreenId) (x : Fin xResolution)
    (y : Fin yResolution) (old : Option UInt16) : Option UInt16 :=
  match e with
  | .drawPixel p x' y' color => if s.pcbScreen p = h ∧ x' = x ∧ y' = y then some color else old
  | .openscreen _ =>
    if (s.queues .unused).length ≠ 0 ∧ (s.queues .unused).first = some h then none else old
  | _ => old

/-- The same after a run. -/
def lastDrawn (tr : List (System × Event)) (h : ScreenId) (x : Fin xResolution)
    (y : Fin yResolution) : Option UInt16 :=
  tr.foldl (fun old step => step.2.drawn step.1 h x y old) none

/-- What was drawn last, after one more event. -/
theorem lastDrawn_snoc (tr : List (System × Event)) (s : System) (e : Event) (h : ScreenId)
    (x : Fin xResolution) (y : Fin yResolution) :
    lastDrawn (tr ++ [(s, e)]) h x y = e.drawn s h x y (lastDrawn tr h x y) := by
  rw [lastDrawn, List.foldl_append]
  rfl

/-- The pictures have the pixels that were drawn. -/
def System.Remembers (s : System)
    (drawn : ScreenId → Fin xResolution → Fin yResolution → Option UInt16) : Prop :=
  ∀ h x y color, drawn h x y = some color → s.content h (pixelAt x y) = color

variable {drawn : ScreenId → Fin xResolution → Fin yResolution → Option UInt16}

/-- Events that change no picture. -/
theorem wp_remembers {x : Op Unit} (rem : s.Remembers drawn) (h : Keeps System.content x) :
    wp x (fun _ t => t.Remembers drawn) (fun _ => True) s := by
  refine wp_mono (h s) ?_ fun _ he => he
  intro _ t ht k x y color hdrawn
  rw [ht]
  exact rem k x y color hdrawn

/-- The input routines change no picture. -/
theorem content_ignores : IgnoresInput System.content :=
  ⟨fun _ _ _ => rfl, fun s h _ _ _ => setScreen_content s h rfl⟩

/-- Choosing a screen changes none either. -/
theorem sysSetscreen_content (p : PcbId) (sh : Int32) :
    Keeps System.content (sysSetscreen p sh) := by
  intro s
  rw [sysSetscreen, wp_bind, wp_get]
  split
  · split
    · exact rfl
    · exact rfl
  · exact rfl

/-- A pixel that was drawn before is there until it is drawn again. -/
theorem Event.run_remembers (c : s.Consistent U A) (rem : s.Remembers drawn) (e : Event) :
    wp (e.run L) (fun _ t => t.Remembers fun h x y => e.drawn s h x y (drawn h x y))
      (fun _ => True) s := by
  cases e with
  | openscreen pid =>
    refine wp_map.mpr (wp_mono (sysOpenscreen_content c pid) ?_ fun _ he => he)
    intro _ t hpost
    obtain ⟨h, -, hothers, hnone, hfirst⟩ := hpost
    intro k x y color hdrawn
    simp only [Event.drawn] at hdrawn
    split at hdrawn
    · cases hdrawn
    rename_i hkept
    refine Eq.trans ?_ (rem k x y color hdrawn)
    by_cases hU : U = []
    · rw [hnone hU]
    · have hlength : (s.queues .unused).length ≠ 0 := fun hzero =>
        hU (c.unused.length_eq_zero.mp hzero)
      have hk : k ≠ h := by
        intro hk
        refine hkept ⟨hlength, ?_⟩
        rw [c.unused.path.head_eq, hfirst hU, hk]
      rw [hothers k hk]
  | closescreen sh =>
    refine wp_map.mpr (wp_mono (sysClosescreen_content c sh) ?_ fun _ he => he)
    intro _ t ht k x y color hdrawn
    rw [ht]
    exact rem k x y color hdrawn
  | drawPixel p x' y' color' =>
    refine wp_mono (gsDrawPixel_content p x' y' color') ?_ fun _ he => he
    intro _ t ht k x y color hdrawn
    simp only [Event.drawn] at hdrawn
    rw [ht]
    split at hdrawn
    · rename_i hplace
      obtain ⟨rfl, rfl, rfl⟩ := hplace
      rw [Function.update_self, Function.update_self]
      exact Option.some.inj hdrawn
    · rename_i hplace
      have hold := rem k x y color hdrawn
      by_cases hk : k = s.pcbScreen p
      · rw [hk, Function.update_self, Function.update_of_ne, ← hk, hold]
        intro hpixel
        obtain ⟨hx, hy⟩ := pixelAt_inj hpixel
        exact hplace ⟨hk.symm, hx.symm, hy.symm⟩
      · rw [Function.update_of_ne hk, hold]
  | setscreen p sh => exact wp_remembers rem (effect_keeps (sysSetscreen_content p sh))
  | getscreen p => exact wp_remembers rem (effect_keeps (.bind .get fun _ => .pure _))
  | switchscreen sh =>
    exact wp_remembers rem (effect_keeps fun _ => sysSwitchscreen_content sh)
  | fork parent child => exact wp_remembers rem (.modify fun _ => rfl)
  | getPixel p x y =>
    exact wp_remembers rem (effect_keeps (.bind .get fun _ => .ite (.pure _) (.pure _)))
  | keyboard code => exact wp_remembers rem (cInputScanCode_keeps content_ignores code)
  | mouse packet => exact wp_remembers rem (isrMouse_keeps content_ignores packet)
  | getchar p => exact wp_remembers rem (effect_keeps (cGetchar_keeps content_ignores p))
  | getMouse p => exact wp_remembers rem (effect_keeps (getMouse_keeps content_ignores p))
  | clearMouse p => exact wp_remembers rem (clearMouse_keeps content_ignores p)

variable {video : Picture} {tr : List (System × Event)} {good : System → Event → Prop}

/-- **In every state of a run** each screen shows what was drawn there last, by induction on the
run. -/
theorem ScreenRun.remembers (run : ScreenRun L good video tr s) : s.Remembers (lastDrawn tr) := by
  induction run with
  | nil =>
    intro h x y color hdrawn
    cases hdrawn
  | @snoc tr t u e run _ next ih =>
    obtain ⟨U, A, c⟩ := ScreenRun.consistent run
    have hstep := wp_ok (Event.run_remembers c ih e) next
    intro h x y color hdrawn
    rw [lastDrawn_snoc] at hdrawn
    exact hstep h x y color hdrawn

/-- **Switching screens preserves every picture.**  In every state that a run reaches, switching
changes no picture, drawing changes one pixel of the picture of the caller's screen, opening
changes no picture but that of the screen it returns, and a process that reads a pixel gets the
one last drawn there since its screen was opened. -/
theorem pictures_preserved (run : ScreenRun L good video tr s) :
    (∀ sh, ∃ r t, sysSwitchscreen sh s = .ok (r, t) ∧ ∀ h, t.content h = s.content h) ∧
      (∀ p x y color, ∃ t, gsDrawPixel p x y color s = .ok ((), t) ∧
        ∀ h k, t.content h k =
          if h = s.pcbScreen p ∧ k = pixelAt x y then color else s.content h k) ∧
      (∀ pid, ∃ (r : UInt32) (t : System) (h : ScreenId), sysOpenscreen L pid s = .ok (r, t) ∧
        r = UInt32.ofNat h.val ∧ ∀ k, k ≠ h → t.content k = s.content k) ∧
      ∀ p x y, ∃ color t, gsGetPixel p x y s = .ok (color, t) ∧
        ∀ old, lastDrawn tr (s.pcbScreen p) x y = some old → color = old := by
  obtain ⟨U, A, c⟩ := ScreenRun.consistent run
  refine ⟨fun sh => ?_, fun p x y color => ?_, fun pid => ?_, fun p x y => ?_⟩
  · obtain ⟨r, t, hswitch, hsame⟩ := wp_returns (s := s) (sysSwitchscreen_content sh)
    exact ⟨r, t, hswitch, congrFun hsame⟩
  · obtain ⟨_, t, hdraw, hpixel⟩ := wp_returns (s := s) (gsDrawPixel_content p x y color)
    refine ⟨t, hdraw, fun h k => ?_⟩
    rw [hpixel, Function.update_apply]
    by_cases hh : h = s.pcbScreen p
    · rw [if_pos hh, Function.update_apply, hh]
      simp
    · rw [if_neg hh, if_neg fun hplace => hh hplace.1]
  · obtain ⟨r, t, hopen, h, hr, hothers, -⟩ := wp_returns (sysOpenscreen_content (L := L) c pid)
    exact ⟨r, t, h, hopen, hr, hothers⟩
  · obtain ⟨color, t, hget, hcolor, -⟩ := wp_returns (s := s) (gsGetPixel_content p x y)
    refine ⟨color, t, hget, fun old hdrawn => ?_⟩
    rw [hcolor]
    exact ScreenRun.remembers run _ x y old hdrawn

/-- A pixel drawn on a screen before it was shown is read back when another screen is shown
again. -/
theorem pixel_read_back : ∃ (tr : List (System × Event)) (s : System) (color : UInt16)
    (t : System), ScreenRun flatLayout (fun _ _ => True) (fun _ => 0) tr s ∧
      tr.map Prod.snd = someEvents ∧ s.pcbScreen firstPcb ≠ s.activeScreen ∧
      gsGetPixel firstPcb ⟨3, by decide⟩ ⟨4, by decide⟩ s = .ok (color, t) ∧ color = 5 := by
  have hplay : screenTest someEvents fun tr s =>
      decide (s.pcbScreen firstPcb ≠ s.activeScreen) &&
        decide (lastDrawn tr (s.pcbScreen firstPcb) ⟨3, by decide⟩ ⟨4, by decide⟩ =
          some 5) := by
    decide +kernel
  obtain ⟨tr, s, run, htr, htest⟩ := screenTest_run hplay
  simp only [Bool.and_eq_true, decide_eq_true_eq] at htest
  obtain ⟨hhidden, hdrawn⟩ := htest
  obtain ⟨color, t, hget, hlast⟩ := (pictures_preserved run).2.2.2 firstPcb ⟨3, by decide⟩
    ⟨4, by decide⟩
  exact ⟨tr, s, color, t, run, htr, hhidden, hget, hlast 5 hdrawn⟩

end Cumulonimbus.Screens
