import Cumulonimbus.ScreenLists

/-!
# Where input lands

The pointers of a screen's input buffers are set when the screen is opened, and are null before.
`setscreen` refuses a screen that nobody owns, so processes use opened screens; `switchscreen`
does not, and the interrupts store through the pointers of whatever screen is active.
-/

namespace Cumulonimbus.Screens

open Exec

variable {s t : System} {U A : List ScreenId} {L : Layout} {E : Fault → Prop} {h : ScreenId}
  {O : ScreenId → Prop}

/-! ## Pointers into a buffer -/

/-- Both pointers point into the buffer that begins at `base`. -/
def InputBuffer.Own (buf : InputBuffer) (base : UInt32) : Prop :=
  InBuffer base buf.nextChar ∧ InBuffer base buf.nextSpace

instance (buf : InputBuffer) (base : UInt32) : Decidable (buf.Own base) :=
  inferInstanceAs (Decidable (_ ∧ _))

/-- The first byte of a buffer is in it. -/
theorem inBuffer_base (base : UInt32) : InBuffer base base :=
  ⟨UInt32.le_refl base, Nat.lt_add_of_pos_right (by decide)⟩

/-- A pointer into a buffer stays there. -/
theorem inBuffer_increment {base a : UInt32} (fits : base.toNat + inputSize < 2 ^ 32)
    (ha : InBuffer base a) : InBuffer base (increment base a) := by
  rw [increment]
  split
  · exact inBuffer_base base
  · rename_i hend
    obtain ⟨hle, hlt⟩ := ha
    have hsize : (UInt32.ofNat inputSize).toNat = inputSize := rfl
    have hnext : (a + 1).toNat = a.toNat + 1 := by
      rw [UInt32.toNat_add]
      exact Nat.mod_eq_of_lt (by simp only [UInt32.toNat_one]; omega)
    have hlimit : (base + UInt32.ofNat inputSize).toNat = base.toNat + inputSize := by
      rw [UInt32.toNat_add, hsize]
      exact Nat.mod_eq_of_lt fits
    rw [UInt32.le_iff_toNat_le, hlimit, hnext] at hend
    rw [UInt32.le_iff_toNat_le] at hle
    refine ⟨UInt32.le_iff_toNat_le.mpr ?_, ?_⟩
    · rw [hnext]
      omega
    · rw [hnext]
      omega

/-- The input buffers of a screen are in order. -/
def System.Live (L : Layout) (s : System) (h : ScreenId) : Prop :=
  (s.screens h).kbBuf.Own (L.kb h) ∧ (s.screens h).mouseBuf.Own (L.mouse h)

/-- What is opened is live. -/
theorem open_live (s : System) (h : ScreenId) (scr : Screen) (pid : Pid) :
    (s.setScreen h (scr.open L h pid)).Live L h := by
  rw [System.Live, setScreen_self]
  exact ⟨⟨inBuffer_base _, inBuffer_base _⟩, inBuffer_base _, inBuffer_base _⟩

/-- Storing input buffers that are in order keeps every live screen live. -/
theorem setScreen_live {k : ScreenId} {scr : Screen} (live : s.Live L k)
    (hscr : s.Live L h → scr.kbBuf.Own (L.kb h) ∧ scr.mouseBuf.Own (L.mouse h)) :
    (s.setScreen h scr).Live L k := by
  by_cases hk : k = h
  · subst hk
    rw [System.Live, setScreen_self]
    exact hscr live
  · rw [System.Live, setScreen_of_ne s hk]
    exact live

/-- A key is stored in the buffer of the active screen, whose pointers stay in it. -/
theorem kbStore_live (code : UInt8) :
    wp (kbStore L code)
      (fun _ t => (∀ k, s.Live L k → t.Live L k) ∧
        (s.Live L s.activeScreen →
          ∀ a ∈ t.stored, a ∈ s.stored ∨ InBuffer (L.kb s.activeScreen) a)) E s := by
  rw [kbStore, wp_bind, wp_get]
  dsimp only
  split
  · refine ⟨fun k live => ?_, fun live a ha => ?_⟩
    · exact setScreen_live live fun own =>
        ⟨⟨own.1.1, inBuffer_increment (L.kb_fits _) own.1.2⟩, own.2⟩
    · rcases List.mem_cons.mp ha with rfl | ha
      · exact Or.inr live.1.2
      · exact Or.inl ha
  · exact ⟨fun _ live => live, fun _ a ha => Or.inl ha⟩

/-- So is what a scan code gives. -/
theorem cInputScanCode_live (code : UInt8) :
    wp (cInputScanCode L code)
      (fun _ t => (∀ k, s.Live L k → t.Live L k) ∧
        (s.Live L s.activeScreen →
          ∀ a ∈ t.stored, a ∈ s.stored ∨ InBuffer (L.kb s.activeScreen) a)) E s := by
  rw [cInputScanCode, wp_bind, wp_get]
  split
  · exact ⟨fun _ live => live, fun _ a ha => Or.inl ha⟩
  split
  · exact ⟨fun _ live => live, fun _ a ha => Or.inl ha⟩
  split
  · exact ⟨fun _ live => live, fun _ a ha => Or.inl ha⟩
  split
  · exact ⟨fun _ live => live, fun _ a ha => Or.inl ha⟩
  split
  · dsimp only
    split
    · exact kbStore_live _
    · exact ⟨fun _ live => live, fun _ a ha => Or.inl ha⟩
  · exact ⟨fun _ live => live, fun _ a ha => Or.inl ha⟩

/-- A packet is stored in the other buffer of the active screen. -/
theorem isrMouse_live (packet : UInt8) :
    wp (isrMouse L packet)
      (fun _ t => (∀ k, s.Live L k → t.Live L k) ∧
        (s.Live L s.activeScreen →
          ∀ a ∈ t.stored, a ∈ s.stored ∨ InBuffer (L.mouse s.activeScreen) a)) E s := by
  rw [isrMouse, wp_modify]
  refine ⟨fun k live => ?_, fun live a ha => ?_⟩
  · exact setScreen_live live fun own =>
      ⟨own.1, own.2.1, inBuffer_increment (L.mouse_fits _) own.2.2⟩
  · rcases List.mem_cons.mp ha with rfl | ha
    · exact Or.inr live.2.2
    · exact Or.inl ha

/-- Reading moves a pointer within its buffer. -/
theorem cGetchar_live (p : PcbId) :
    wp (cGetchar L p) (fun _ t => ∀ k, s.Live L k → t.Live L k) E s := by
  rw [cGetchar, wp_bind, wp_get]
  dsimp only
  split
  · exact fun _ live => live
  · exact fun k live => setScreen_live live fun own =>
      ⟨⟨inBuffer_increment (L.kb_fits _) own.1.1, own.1.2⟩, own.2⟩

/-- The same for the mouse. -/
theorem getMouse_live (p : PcbId) :
    wp (getMouse L p) (fun _ t => ∀ k, s.Live L k → t.Live L k) E s := by
  rw [getMouse, wp_bind, wp_get]
  dsimp only
  split
  · exact fun _ live => live
  · exact fun k live => setScreen_live live fun own =>
      ⟨own.1, inBuffer_increment (L.mouse_fits _) own.2.1, own.2.2⟩

/-- Emptying sets both pointers to the start. -/
theorem clearMouse_live (p : PcbId) :
    wp (clearMouse p) (fun _ t => ∀ k, s.Live L k → t.Live L k) E s :=
  fun _ live => setScreen_live live fun own => ⟨own.1, own.2.2, own.2.2⟩

/-! ## Which screens are in use -/

/-- The screen shown, and the screens of the processes. -/
def System.InUse (s : System) (h : ScreenId) : Prop := h = s.activeScreen ∨ ∃ p, s.pcbScreen p = h

/-- The event is a call of `openscreen` that returns the handle. -/
def Event.Opens (L : Layout) (s : System) (e : Event) (h : ScreenId) : Prop :=
  ∃ pid t, e = .openscreen pid ∧ sysOpenscreen L pid s = .ok (UInt32.ofNat h.val, t)

/-- The pid for which an event opens a screen. -/
def Event.opener : Event → Option Pid
  | .openscreen pid => some pid
  | _ => none

/-- Whether an event opens a screen can be computed. -/
theorem Event.opens_iff {e : Event} : e.Opens L s h ↔ (e.opener.any fun pid =>
    (sysOpenscreen L pid s).toOption.any fun r => decide (r.1 = UInt32.ofNat h.val)) = true := by
  simp only [Option.any_eq_true, decide_eq_true_eq]
  constructor
  · rintro ⟨pid, t, rfl, hopen⟩
    exact ⟨pid, rfl, ⟨_, t⟩, by rw [hopen]; rfl, rfl⟩
  · rintro ⟨pid, hpid, ⟨r, t⟩, hopen, rfl⟩
    cases e with
    | openscreen pid' =>
      obtain rfl := Option.some.inj hpid
      cases hcall : sysOpenscreen L pid' s with
      | ok r' =>
        rw [hcall] at hopen
        obtain rfl := Option.some.inj hopen
        exact ⟨pid', t, rfl, hcall⟩
      | error e =>
        rw [hcall] at hopen
        cases hopen
    | _ => cases hpid

instance (L : Layout) (s : System) (e : Event) (h : ScreenId) : Decidable (e.Opens L s h) :=
  decidable_of_iff' _ Event.opens_iff

/-- The screen that everything starts with. -/
def firstScreen : ScreenId := ⟨0, Nat.zero_lt_succ 15⟩

/-- The screens that have been opened, those in `O`, are live, among them all that are not
unused now; and a screen in use is one of them, or none has been opened and it is the first. -/
structure Ready (L : Layout) (O : ScreenId → Prop) (s : System) (U A : List ScreenId) : Prop
    extends s.Consistent U A where
  live : ∀ h, O h → s.Live L h
  taken : ∀ h ∈ A, O h
  inUse : ∀ h, s.InUse h → O h ∨ (h = firstScreen ∧ U.head? = some firstScreen ∧ ∀ k, ¬ O k)

/-- The screens that the event leaves opened. -/
abbrev Event.opened (L : Layout) (s : System) (e : Event) (O : ScreenId → Prop) (h : ScreenId) :
    Prop :=
  O h ∨ e.Opens L s h

/-- A screen with an owner has been opened. -/
theorem Ready.owned (r : Ready L O s U A) (howner : (s.screens h).owner.id ≠ 0) : O h :=
  r.taken h ((r.cover h).resolve_left fun hU => howner (r.unowned h hU))

/-- Only `openscreen` opens screens. -/
theorem Event.not_opens {e : Event} (he : ∀ pid, e ≠ .openscreen pid) (h : ScreenId) :
    ¬ e.Opens L s h := by
  intro hopens
  obtain ⟨pid, _, heq, -⟩ := hopens
  exact he pid heq

/-- An event that opens nothing. -/
theorem Ready.of_quiet {e : Event} (r : Ready L O t U A) (he : ∀ pid, e ≠ .openscreen pid) :
    Ready L (e.opened L s O) t U A := by
  refine ⟨r.toConsistent, fun k hk => ?_, fun k hk => Or.inl (r.taken k hk), fun k hk => ?_⟩
  · exact r.live k (hk.resolve_right (Event.not_opens he k))
  · rcases r.inUse k hk with hk | ⟨hfirst, hhead, hnone⟩
    · exact Or.inl (Or.inl hk)
    · refine Or.inr ⟨hfirst, hhead, fun m hm => ?_⟩
      exact hnone m (hm.resolve_right (Event.not_opens he m))

/-- What changes neither the lists nor the screens in use, and keeps live screens live. -/
theorem Ready.congr (r : Ready L O s U A) (lists : t.lists = s.lists)
    (active : t.activeScreen = s.activeScreen) (pcbs : t.pcbScreen = s.pcbScreen)
    (live : ∀ k, s.Live L k → t.Live L k) : Ready L O t U A := by
  refine ⟨r.toConsistent.of_lists lists, fun k hk => live k (r.live k hk), r.taken, fun k hk => ?_⟩
  rw [System.InUse, active, pcbs] at hk
  exact r.inUse k hk

/-- An opened screen is put to use. -/
theorem Ready.use (r : Ready L O s U A) (lists : t.lists = s.lists) (hO : O h)
    (inUse : ∀ k, t.InUse k → s.InUse k ∨ k = h) (live : ∀ k, s.Live L k → t.Live L k) :
    Ready L O t U A := by
  refine ⟨r.toConsistent.of_lists lists, fun k hk => live k (r.live k hk), r.taken, fun k hk => ?_⟩
  rcases inUse k hk with hk | rfl
  · exact r.inUse k hk
  · exact Or.inl hO

/-- **`openscreen`** readies the buffers of the screen that it gives away. -/
theorem Ready.openscreen (r : Ready L O s U A) (pid : Pid) :
    wp (sysOpenscreen L pid)
      (fun v t => ∀ O' : ScreenId → Prop, (∀ k, O k → O' k) →
        (∀ k, O' k ↔ O k ∨ v = UInt32.ofNat k.val) → ∃ U' A', Ready L O' t U' A') E s := by
  refine wp_mono (sysOpenscreen_spec r.toConsistent pid) ?_ fun _ he => he
  intro v t hpost O' hmono hO'
  rcases hpost with ⟨rfl, rfl, rfl⟩ | ⟨n, U', rfl, rfl, hc, hframe⟩
  · have hall : ∀ k, O k := fun k => r.taken k ((r.cover k).resolve_left (by simp))
    refine ⟨[], A, r.toConsistent.of_screens _ (by simp), fun k _ => ?_,
      fun k _ => hmono k (hall k), fun k _ => Or.inl (hmono k (hall k))⟩
    exact setScreen_live (r.live k (hall k)) fun _ =>
      ⟨⟨inBuffer_base _, inBuffer_base _⟩, inBuffer_base _, inBuffer_base _⟩
  · refine ⟨U', A ++ [n], hc, fun k hk => ?_, fun k hk => ?_, fun k hk => ?_⟩
    · have hset : (s.setScreen n (Screen.clear.open L n pid)).Live L k := by
        by_cases hkn : k = n
        · rw [hkn]
          exact open_live s n _ pid
        · rcases (hO' k).mp hk with hk | hk
          · exact setScreen_live (r.live k hk) fun _ =>
              ⟨⟨inBuffer_base _, inBuffer_base _⟩, inBuffer_base _, inBuffer_base _⟩
          · exact absurd (ofNat_screenId_inj _ _ hk).symm hkn
      rw [System.Live, hframe.screens]
      exact hset
    · rcases List.mem_append.mp hk with hk | hk
      · exact hmono k (r.taken k hk)
      · rw [List.mem_singleton.mp hk]
        exact (hO' n).mpr (Or.inr rfl)
    · have hkept : s.InUse k := by
        rw [System.InUse, hframe.activeScreen, hframe.pcbScreen] at hk
        exact hk
      rcases r.inUse k hkept with hk | ⟨rfl, hhead, -⟩
      · exact Or.inl (hmono k hk)
      · obtain rfl : n = firstScreen := by simpa using hhead
        exact Or.inl ((hO' _).mpr (Or.inr rfl))

/-- **`closescreen`** leaves the buffers alone. -/
theorem Ready.closescreen (r : Ready L O s U A) (sh : Int32) :
    wp (sysClosescreen sh) (fun _ t => ∃ U' A', Ready L O t U' A') E s := by
  refine wp_mono (sysClosescreen_spec r.toConsistent sh) ?_ fun _ he => he
  intro v t hpost
  rcases hpost with ⟨h, A', -, howner, -, hperm, hc, hframe⟩ | ⟨-, -, rfl⟩
  · refine ⟨U ++ [h], A', hc, fun k hk => ?_, fun k hk => ?_, fun k hk => ?_⟩
    · have hset : (s.setScreen h { s.screens h with owner := pidClear }).Live L k :=
        setScreen_live (r.live k hk) fun own => own
      rw [System.Live, hframe.screens]
      exact hset
    · exact r.taken k (hperm.mem_iff.mpr (List.mem_cons_of_mem h hk))
    · have hkept : s.InUse k := by
        rw [System.InUse, hframe.activeScreen, hframe.pcbScreen] at hk
        exact hk
      rcases r.inUse k hkept with hk | ⟨-, -, hnone⟩
      · exact Or.inl hk
      · exact absurd (r.owned howner) (hnone h)
  · exact ⟨U, A, r⟩

/-- Choosing a screen changes no buffer. -/
theorem Ready.setscreen (r : Ready L O s U A) (p : PcbId) (sh : Int32) :
    wp (sysSetscreen p sh) (fun _ t => Ready L O t U A) E s := by
  rw [sysSetscreen, wp_bind, wp_get]
  cases screenOf sh with
  | none => exact r
  | some h =>
    dsimp only
    by_cases howner : (s.screens h).owner.id = 0
    · rw [if_neg (not_not.mpr howner)]
      exact r
    rw [if_pos howner, wp_bind, wp_set, wp_pure]
    refine r.use rfl (r.owned howner) (fun k hk => ?_) fun _ live => live
    rcases hk with hk | ⟨q, hq⟩
    · exact Or.inl (Or.inl hk)
    · by_cases hqp : q = p
      · right
        rw [← hq, hqp]
        exact Function.update_self ..
      · left
        refine Or.inr ⟨q, ?_⟩
        rw [← hq]
        exact (Function.update_of_ne hqp ..).symm

/-- Switching to a screen that has been opened. -/
theorem Ready.switchscreen (r : Ready L O s U A) {sh : Int32}
    (opened : ∀ h, screenOf sh = some h → h ≠ s.activeScreen → O h) :
    wp (sysSwitchscreen sh) (fun _ t => Ready L O t U A) E s := by
  rw [sysSwitchscreen, wp_bind, wp_get]
  cases hsh : screenOf sh with
  | none => exact r
  | some h =>
    dsimp only
    by_cases hactive : h = s.activeScreen
    · rw [if_neg (not_not.mpr hactive)]
      exact r
    rw [if_pos hactive, wp_bind, wp_set, wp_pure]
    refine r.use (setScreen_lists s s.activeScreen rfl) (opened h hsh hactive) (fun k hk => ?_)
      fun k live => ?_
    · rcases hk with hk | hk
      · exact Or.inr hk
      · exact Or.inl (Or.inr hk)
    · have hset : (s.setScreen s.activeScreen
          { s.screens s.activeScreen with fb := s.video }).Live L k :=
        setScreen_live live fun own => own
      exact hset

/-- A child has the screen of its parent. -/
theorem Ready.fork (r : Ready L O s U A) (parent child : PcbId) :
    wp (forkScreen parent child) (fun _ t => Ready L O t U A) E s := by
  rw [forkScreen, wp_modify]
  refine ⟨r.toConsistent.of_lists rfl, r.live, r.taken, fun k hk => r.inUse k ?_⟩
  rcases hk with hk | ⟨q, hq⟩
  · exact Or.inl hk
  · by_cases hqc : q = child
    · refine Or.inr ⟨parent, ?_⟩
      rw [← hq, hqc]
      dsimp only
      rw [Function.update_self]
    · refine Or.inr ⟨q, ?_⟩
      rw [← hq]
      dsimp only
      rw [Function.update_of_ne hqc]

/-- Drawing changes no buffer. -/
theorem Ready.drawPixel (r : Ready L O s U A) (p : PcbId) (x : Fin xResolution)
    (y : Fin yResolution) (color : UInt16) :
    wp (gsDrawPixel p x y color) (fun _ t => Ready L O t U A) E s := by
  rw [gsDrawPixel, wp_bind, wp_get]
  dsimp only
  split
  · exact r.congr rfl rfl rfl fun _ live => live
  · exact r.congr (setScreen_lists s (s.pcbScreen p) rfl) rfl rfl fun _ live =>
      setScreen_live live fun own => own

/-- What the input routines leave alone. -/
theorem chosen_ignores :
    IgnoresInput fun s : System => (s.lists, s.activeScreen, s.pcbScreen) :=
  ⟨fun _ _ _ => rfl, fun s h _ _ _ => by
    exact congrArg (fun l => (l, s.activeScreen, s.pcbScreen)) (setScreen_lists s h rfl)⟩

/-- An input routine that keeps live screens live. -/
theorem Ready.input {x : Op Unit} (r : Ready L O s U A)
    (keeps : Keeps (fun s : System => (s.lists, s.activeScreen, s.pcbScreen)) x)
    (live : wp x (fun _ t => ∀ k, s.Live L k → t.Live L k) (fun _ => True) s) :
    wp x (fun _ t => Ready L O t U A) (fun _ => True) s := by
  refine wp_mono (wp_and (keeps s) live) ?_ fun _ _ => trivial
  intro _ t hpost
  obtain ⟨hkept, hlive⟩ := hpost
  obtain ⟨hlists, hrest⟩ := Prod.mk.inj hkept
  obtain ⟨hactive, hpcbs⟩ := Prod.mk.inj hrest
  exact r.congr hlists hactive hpcbs hlive

/-- The event does not switch to a screen that has never been opened. -/
def Event.SwitchesWell (O : ScreenId → Prop) (s : System) : Event → Prop
  | .switchscreen sh => ∀ h, screenOf sh = some h → h ≠ s.activeScreen → O h
  | _ => True

/-- The screen that an event asks to be shown. -/
def Event.target : Event → Option ScreenId
  | .switchscreen sh => screenOf sh
  | _ => none

/-- The condition on an event is about the screen that it switches to. -/
theorem Event.switchesWell_iff {e : Event} :
    e.SwitchesWell O s ↔ ∀ h, e.target = some h → h ≠ s.activeScreen → O h := by
  cases e with
  | switchscreen sh => exact Iff.rfl
  | _ => exact iff_of_true trivial fun _ h => by cases h

instance [DecidablePred O] (s : System) (e : Event) : Decidable (e.SwitchesWell O s) :=
  decidable_of_iff' _ Event.switchesWell_iff

/-- **One event** leaves the screens in use live, unless it switches to a screen that has never
been opened. -/
theorem Event.run_ready (r : Ready L O s U A) (e : Event) (well : e.SwitchesWell O s) :
    wp (e.run L) (fun _ t => ∃ U' A', Ready L (e.opened L s O) t U' A') (fun _ => True) s := by
  have hquiet : (∀ pid, e ≠ .openscreen pid) →
      wp (e.run L) (fun _ t => Ready L O t U A) (fun _ => True) s →
      wp (e.run L) (fun _ t => ∃ U' A', Ready L (e.opened L s O) t U' A') (fun _ => True) s := by
    intro he hwp
    refine wp_mono hwp ?_ fun _ he => he
    intro _ t ht
    exact ⟨U, A, ht.of_quiet he⟩
  cases e with
  | openscreen pid =>
    cases hopen : sysOpenscreen L pid s with
    | error halt =>
      refine wp_map.mpr ?_
      rw [wp, hopen]
      exact trivial
    | ok out =>
      refine wp_map.mpr (wp_of_eq hopen ?_)
      refine wp_ok (r.openscreen (E := fun _ => True) pid) hopen _ (fun k hk => Or.inl hk)
        fun k => ?_
      refine or_congr_right ⟨fun hopens => ?_, fun hv => ⟨pid, out.2, rfl, ?_⟩⟩
      · obtain ⟨pid', t, heq, ht⟩ := hopens
        cases heq
        rw [hopen] at ht
        exact congrArg Prod.fst (Except.ok.inj ht)
      · rw [hopen, ← hv]
  | closescreen sh =>
    refine wp_map.mpr (wp_mono (r.closescreen sh) ?_ fun _ he => he)
    intro _ t hpost
    obtain ⟨U', A', hr⟩ := hpost
    exact ⟨U', A', hr.of_quiet (by simp)⟩
  | setscreen p sh => exact hquiet (by simp) (wp_map.mpr (r.setscreen p sh))
  | getscreen p => exact hquiet (by simp) r
  | switchscreen sh => exact hquiet (by simp) (wp_map.mpr (r.switchscreen well))
  | fork parent child => exact hquiet (by simp) (r.fork parent child)
  | drawPixel p x y color => exact hquiet (by simp) (r.drawPixel p x y color)
  | getPixel p x y =>
    refine hquiet (by simp) (wp_map.mpr ?_)
    rw [gsGetPixel, wp_bind, wp_get]
    split
    · exact r
    · exact r
  | keyboard code =>
    exact hquiet (by simp) (r.input (cInputScanCode_keeps chosen_ignores code)
      (wp_mono (cInputScanCode_live code) (fun _ _ hpost => hpost.1) fun _ he => he))
  | mouse packet =>
    exact hquiet (by simp) (r.input (isrMouse_keeps chosen_ignores packet)
      (wp_mono (isrMouse_live packet) (fun _ _ hpost => hpost.1) fun _ he => he))
  | getchar p =>
    exact hquiet (by simp) (r.input (effect_keeps (cGetchar_keeps chosen_ignores p))
      (wp_map.mpr (cGetchar_live p)))
  | getMouse p =>
    exact hquiet (by simp) (r.input (effect_keeps (getMouse_keeps chosen_ignores p))
      (wp_map.mpr (getMouse_live p)))
  | clearMouse p =>
    exact hquiet (by simp) (r.input (clearMouse_keeps chosen_ignores p) (clearMouse_live p))

/-! ## Runs -/

/-- The screens that a run has opened. -/
def Opened (L : Layout) (tr : List (System × Event)) (h : ScreenId) : Prop :=
  ∃ step ∈ tr, step.2.Opens L step.1 h

/-- The screens that have been opened, after one more event. -/
theorem opened_snoc (L : Layout) (tr : List (System × Event)) (s : System) (e : Event) :
    Opened L (tr ++ [(s, e)]) = e.opened L s (Opened L tr) := by
  funext h
  refine propext ⟨fun hopened => ?_, fun hopened => ?_⟩
  · obtain ⟨step, hstep, hopens⟩ := hopened
    rcases List.mem_append.mp hstep with hstep | hstep
    · exact Or.inl ⟨step, hstep, hopens⟩
    · obtain rfl := List.mem_singleton.mp hstep
      exact Or.inr hopens
  · rcases hopened with ⟨step, hstep, hopens⟩ | hopens
    · exact ⟨step, List.mem_append_left _ hstep, hopens⟩
    · exact ⟨(s, e), List.mem_append_right _ (List.mem_singleton.mpr rfl), hopens⟩

/-- Every switch of a run is to the active screen, or to a screen that was opened before. -/
def SwitchesToOpened (L : Layout) (tr : List (System × Event)) : Prop :=
  ∀ before s e after, tr = before ++ (s, e) :: after → e.SwitchesWell (Opened L before) s

instance (L : Layout) (tr : List (System × Event)) : DecidablePred (Opened L tr) :=
  fun _ => inferInstanceAs (Decidable (∃ step ∈ tr, _))

/-- The same, step by step. -/
theorem SwitchesToOpened.of_take {tr : List (System × Event)}
    (h : ∀ k : Fin tr.length, tr[k].2.SwitchesWell (Opened L (tr.take k)) tr[k].1) :
    SwitchesToOpened L tr := by
  rintro before s e after rfl
  have hk := h ⟨before.length, by simp⟩
  simpa using hk

/-- The input buffers of the screens in use are in order, and both interrupts store into those
of the active screen. -/
structure System.InputLands (L : Layout) (s : System) : Prop where
  live : ∀ h, s.InUse h → s.Live L h
  keyboard : ∀ code t, cInputScanCode L code s = .ok ((), t) →
    ∀ a ∈ t.stored, a ∈ s.stored ∨ InBuffer (L.kb s.activeScreen) a
  mouse : ∀ packet t, isrMouse L packet s = .ok ((), t) →
    ∀ a ∈ t.stored, a ∈ s.stored ∨ InBuffer (L.mouse s.activeScreen) a

variable {video : Picture} {tr : List (System × Event)} {good : System → Event → Prop}

/-- **After set-up** no screen has been opened, and none is switched to. -/
theorem booted_ready (L : Layout) (video : Picture) :
    Ready L (Opened L []) (booted video) (List.finRange numScreens) [] where
  toConsistent := booted_consistent video
  live := by simp [Opened]
  taken := by simp
  inUse := by
    intro h hh
    refine Or.inr ⟨?_, by decide, by simp [Opened]⟩
    rcases hh with hh | ⟨p, hp⟩
    · exact hh
    · exact hp.symm

/-- **In every state of a run** the screens opened so far have their buffers ready. -/
theorem ScreenRun.ready (run : ScreenRun L good video tr s) (well : SwitchesToOpened L tr) :
    ∃ U A, Ready L (Opened L tr) s U A := by
  induction run with
  | nil => exact ⟨_, _, booted_ready L video⟩
  | @snoc tr t u e _ _ next ih =>
    obtain ⟨U, A, r⟩ := ih fun before s e' after htr =>
      well before s e' (after ++ [(t, e)]) (by rw [htr, List.append_assoc]; rfl)
    have hstep := wp_ok (Event.run_ready r e (well tr t e [] rfl)) next
    rw [opened_snoc]
    exact hstep

/-- **Input always lands in a live buffer** from the first opened screen on, in every run that
never switches to a screen that has not been opened. -/
theorem input_lands (run : ScreenRun L good video tr s) (well : SwitchesToOpened L tr)
    (opened : ∃ h, Opened L tr h) : s.InputLands L := by
  obtain ⟨U, A, r⟩ := ScreenRun.ready run well
  obtain ⟨h₀, hopened⟩ := opened
  have hlive : ∀ h, s.InUse h → s.Live L h := by
    intro h hh
    rcases r.inUse h hh with hO | ⟨-, -, hnone⟩
    · exact r.live h hO
    · exact absurd hopened (hnone h₀)
  have hactive : s.Live L s.activeScreen := hlive _ (Or.inl rfl)
  refine ⟨hlive, fun code t hstep => ?_, fun packet t hstep => ?_⟩
  · exact (wp_ok (cInputScanCode_live (E := fun _ => True) code) hstep).2 hactive
  · exact (wp_ok (isrMouse_live (E := fun _ => True) packet) hstep).2 hactive

/-- Input lands although the screen that is shown was switched twice. -/
theorem input_lands_some : ∃ tr s, tr.map Prod.snd = someEvents ∧
    ScreenRun flatLayout (fun _ _ => True) (fun _ => 0) tr s ∧ s.InputLands flatLayout := by
  have hplay : screenTest someEvents fun tr _ =>
      decide (Opened flatLayout tr firstScreen) &&
        decide (∀ k : Fin tr.length,
          tr[k].2.SwitchesWell (Opened flatLayout (tr.take k)) tr[k].1) := by
    decide +kernel
  obtain ⟨tr, s, run, htr, htest⟩ := screenTest_run hplay
  simp only [Bool.and_eq_true, decide_eq_true_eq] at htest
  exact ⟨tr, s, htr, run, input_lands run (.of_take htest.2) ⟨firstScreen, htest.1⟩⟩

/-- After a switch to a screen that was never opened, input goes to address 0. -/
theorem input_lost :
    ¬ ∀ (L : Layout) (video : Picture) (tr : List (System × Event)) (s : System),
      ScreenRun L (fun _ _ => True) video tr s → (∃ h, Opened L tr h) → s.InputLands L := by
  intro hall
  have hplay : screenTest [.openscreen ⟨1, Vector.replicate 6 0, 0⟩, .switchscreen 5] fun tr s =>
      decide (Opened flatLayout tr firstScreen) && decide (¬ (s.screens s.activeScreen).mouseBuf.Own
        (flatLayout.mouse s.activeScreen)) := by
    decide +kernel
  obtain ⟨tr, s, run, -, htest⟩ := screenTest_run hplay
  simp only [Bool.and_eq_true, decide_eq_true_eq] at htest
  obtain ⟨hopened, hlost⟩ := htest
  have hlands := hall _ _ _ _ run ⟨firstScreen, hopened⟩
  exact hlost (hlands.live _ (Or.inl rfl)).2

end Cumulonimbus.Screens
