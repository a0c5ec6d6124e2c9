import Cumulonimbus.Ownership
import Cumulonimbus.Pids

/-!
# Whom `wait` collects

`_sys_wait` looks for a child in one of two ways: by its pid, with `_pcb_find`, or by a scan of
the PCB table.  After the scan it asks whether the index is greater than `N_PCBS`, which it never
is; so without a zombie child it goes on with whatever is in the last slot of the table.  And
`_pcb_find` does not ask whose child it finds.
-/

namespace Cumulonimbus

open Exec

variable {σ σ₀ τ : State} {a : Life} {b : Boot} {p q : PcbId} {tr : List (State × Input)}

/-! ## What `wait` is for -/

/-- An allocated PCB with the caller as its parent, and with the pid that the caller asks for if
it asks for one. -/
def State.Sought (σ : State) (p : PcbId) : Prop :=
  p ∉ (σ.queues .pcbAvail).members ∧ (σ.pcbs p).ppid.same (σ.pcbs σ.current).pid ∧
    (0 < (σ.want σ.current).id → (σ.pcbs p).pid.same (σ.want σ.current))

/-- Such a PCB whose process has ended. -/
def State.Ended (σ : State) (p : PcbId) : Prop := σ.Sought p ∧ (σ.pcbs p).state = .zombie

instance (σ : State) (p : PcbId) : Decidable (σ.Sought p) := inferInstanceAs (Decidable (_ ∧ _ ∧ _))
instance (σ : State) (p : PcbId) : Decidable (σ.Ended p) := inferInstanceAs (Decidable (_ ∧ _))

/-- `τ` is `σ` without `p`: its PCB and its stack are free, it is not among the zombies, and the
caller, which stays on the CPU, is told its pid. -/
structure State.Collects (σ : State) (p : PcbId) (τ : State) : Prop where
  current : τ.current = σ.current
  pcbs : τ.pcbs = Function.update σ.pcbs p {}
  avail : (τ.queues .pcbAvail).members = (σ.queues .pcbAvail).members ++ [p]
  zombies : (σ.queues .zombie).items.Perm (((σ.pcbs p).pid.id, p) :: (τ.queues .zombie).items)
  others : ∀ X, X ≠ .pcbAvail → X ≠ .zombie → τ.queues X = σ.queues X
  stack : ∃ s, (σ.pcbs p).stack = some s ∧
    τ.stackAvail.members = σ.stackAvail.members ++ [s]
  told : (τ.heap (σ.arg σ.current 1)).pid.same (σ.pcbs p).pid

/-- `τ` is `σ` with the caller in the state WAITING and on the queue `_waiting`. -/
structure State.Blocks (σ τ : State) : Prop where
  current : τ.current = σ.current
  pcbs : τ.pcbs = Function.update σ.pcbs σ.current { σ.pcbs σ.current with state := .waiting }
  waiting : (τ.queues .waiting).items.Perm
    (((σ.pcbs σ.current).pid.id, σ.current) :: (σ.queues .waiting).items)
  others : ∀ X, X ≠ .waiting → τ.queues X = σ.queues X
  stackAvail : τ.stackAvail = σ.stackAvail
  heap : τ.heap = σ.heap

/-- `E_NOT_FOUND` in the status of the `info_t`. -/
def State.toldNone (σ : State) : State :=
  { σ with
    heap := Function.update σ.heap (σ.arg σ.current 1)
      { σ.heap (σ.arg σ.current 1) with status := Status.notFound.code } }

/-- `_sys_wait` up to the point where it gives up the CPU, and whether it does. -/
def waitUpTo : Kernel Bool := do
  let σ ← get
  let info := σ.arg σ.current 1
  if info = 0 then
    setEax σ.current Status.badParam.code
    return false
  else
    match σ.waitChoice info with
    | none =>
      modifyInfo info fun i => { i with status := Status.notFound.code }
      return false
    | some pcb =>
      if (σ.pcbs pcb).state = .zombie then
        waitReap info pcb
        return false
      else
        setState σ.current .waiting
        let stat ← qInsert .waiting σ.current (σ.pcbs σ.current).pid.id
        check "_sys_wait" "waiting insert status %s" stat
        return true

/-- The specification of `wait`. -/
def State.WaitsAsSpecified (σ : State) : Prop :=
  wp waitUpTo
    (fun gives τ =>
      ((∃ p, σ.Ended p) → gives = false ∧ ∃ p, σ.Ended p ∧ σ.Collects p τ) ∧
      ((∀ p, ¬ σ.Ended p) → (∃ p, σ.Sought p) → gives = true ∧ σ.Blocks τ) ∧
      ((∀ p, ¬ σ.Sought p) → gives = false ∧ τ = σ.toldNone))
    (fun _ => False) σ

/-- Then `_sys_wait` calls the dispatcher, or returns. -/
theorem sysWait_eq :
    sysWait = (do let gives ← waitUpTo; if gives then dispatch else pure ()) := by
  have hget : ∀ {α : Type} (k : State → Kernel α) (σ : State), (get >>= k) σ = k σ σ :=
    fun _ _ => rfl
  funext σ
  rw [sysWait, waitUpTo, bind_assoc, hget, hget]
  dsimp only
  split
  · simp
  cases σ.waitChoice (σ.arg σ.current 1) with
  | none => simp
  | some pcb =>
    dsimp only
    split
    · simp
    · rw [waitBlock, hget]
      simp

/-! ## When it does that -/

/-- The first entry of `_zombie` with this pid number is that of `p`. -/
def State.FiledFirst (σ : State) (key : Key) (p : PcbId) : Prop :=
  ((σ.queues .zombie).items.find? fun e => e.1 == key).map Prod.snd = some p

/-- What `_q_remove_by_key` finds under the pid of `q` is a zombie child. -/
def State.YieldsChild (σ : State) (q : PcbId) : Prop :=
  ∃ r, σ.FiledFirst (σ.pcbs q).pid.id r ∧ σ.Ended r

/-- The first child in the PCB table that is a zombie. -/
def State.firstEnded (σ : State) : Option PcbId :=
  (List.finRange nPcbs).find? fun p =>
    (σ.pcbs p).ppid.same (σ.pcbs σ.current).pid && decide ((σ.pcbs p).state = .zombie)

/-- What the search for a pid must have found. -/
def State.FindsChild (σ : State) : Option PcbId → Prop
  | none => ∀ p, ¬ σ.Sought p
  | some q =>
    if (σ.pcbs q).state = .zombie then σ.YieldsChild q
    else (∃ p, σ.Sought p) ∧ ∀ p, ¬ σ.Ended p

/-- What the scan for any child must have found. -/
def State.MeetsChild (σ : State) : Option PcbId → Prop
  | none => (σ.pcbs (Fin.last 29)).state ≠ .zombie ∧ ∃ p, σ.Sought p
  | some q => σ.YieldsChild q

/-- The condition under which `wait` does what it is for. -/
def State.WaitsWell (σ : State) : Prop :=
  if 0 < (σ.want σ.current).id then σ.FindsChild (σ.pcbFind (σ.want σ.current))
  else σ.MeetsChild σ.firstEnded

instance (σ : State) (key : Key) (p : PcbId) : Decidable (σ.FiledFirst key p) :=
  inferInstanceAs (Decidable (_ = _))

instance (σ : State) (q : PcbId) : Decidable (σ.YieldsChild q) :=
  inferInstanceAs (Decidable (∃ _, _ ∧ _))

instance (σ : State) : ∀ o, Decidable (σ.FindsChild o)
  | none => inferInstanceAs (Decidable (∀ _, ¬ _))
  | some q =>
    inferInstanceAs (Decidable (if (σ.pcbs q).state = .zombie then σ.YieldsChild q
      else (∃ p, σ.Sought p) ∧ ∀ p, ¬ σ.Ended p))

instance (σ : State) : ∀ o, Decidable (σ.MeetsChild o)
  | none => inferInstanceAs (Decidable (_ ∧ ∃ _, _))
  | some q => inferInstanceAs (Decidable (σ.YieldsChild q))

instance (σ : State) : Decidable σ.WaitsWell :=
  inferInstanceAs (Decidable (if 0 < (σ.want σ.current).id
    then σ.FindsChild (σ.pcbFind (σ.want σ.current)) else σ.MeetsChild σ.firstEnded))

/-- What comes before the last element is no default. -/
theorem getD_getLast?_cons {α : Type} (o : Option α) (x : α) (l : List α) (y : α) :
    (o.or l.getLast?).getD x = (o.or (x :: l).getLast?).getD y := by
  cases o with
  | some z => rfl
  | none =>
    rw [Option.none_or, Option.none_or, List.getLast?_cons]
    rfl

/-- The scan stops at the first zombie child, or at the last slot. -/
theorem waitScan_pcb (pcbs : PcbId → Pcb) (me : Pid) (l : List PcbId) (s : WaitScan) :
    (waitScan pcbs me l s).pcb =
      ((l.find? fun p => (pcbs p).ppid.same me && decide ((pcbs p).state = .zombie)).or
        l.getLast?).getD s.pcb := by
  induction l generalizing s with
  | nil => rfl
  | cons q rest ih =>
    rw [waitScan]
    split
    · rename_i hchild
      split
      · rename_i hzombie
        simp [hchild, hzombie]
      · rename_i hzombie
        rw [ih, List.find?_cons_of_neg (by simp [hzombie])]
        exact getD_getLast?_cons _ q rest s.pcb
    · rename_i hchild
      rw [ih, List.find?_cons_of_neg (by simp [hchild])]
      exact getD_getLast?_cons _ q rest s.pcb

theorem waitScan_i (pcbs : PcbId → Pcb) (me : Pid) (l : List PcbId) (s : WaitScan) :
    (waitScan pcbs me l s).i ≤ s.i + l.length := (waitScan_spec pcbs me l s).1

/-- The PCB that `wait` goes on with. -/
theorem waitChoice_eq (σ : State) :
    σ.waitChoice (σ.arg σ.current 1) =
      if 0 < (σ.want σ.current).id then σ.pcbFind (σ.want σ.current)
      else some (σ.firstEnded.getD (Fin.last 29)) := by
  rw [State.waitChoice]
  refine if_congr Iff.rfl rfl ?_
  have hi := waitScan_i σ.pcbs (σ.pcbs σ.current).pid (List.finRange nPcbs)
    { i := 0, pcb := 0, found := none }
  rw [List.length_finRange] at hi
  dsimp only at hi ⊢
  rw [if_neg (by omega), waitScan_pcb, State.firstEnded]
  have hlast : (List.finRange nPcbs).getLast? = some (Fin.last 29) := by decide
  rw [hlast]
  cases (List.finRange nPcbs).find? _ <;> rfl

/-- Nothing to wait for. -/
theorem waitUpTo_none (ptr : σ.arg σ.current 1 ≠ 0)
    (choice : σ.waitChoice (σ.arg σ.current 1) = none) {E : Halt → Prop} :
    wp waitUpTo (fun gives τ => gives = false ∧ τ = σ.toldNone) E σ := by
  rw [waitUpTo, wp_bind, wp_get]
  dsimp only
  rw [if_neg ptr, choice]
  exact ⟨rfl, rfl⟩

/-- Waiting for a process that has not ended. -/
theorem waitUpTo_blocks (h : Rel σ a) (ptr : σ.arg σ.current 1 ≠ 0)
    (choice : σ.waitChoice (σ.arg σ.current 1) = some q) (alive : (σ.pcbs q).state ≠ .zombie)
    {E : Halt → Prop} :
    wp waitUpTo (fun gives τ => gives = true ∧ σ.Blocks τ) E σ := by
  rw [waitUpTo, wp_bind, wp_get]
  dsimp only
  rw [if_neg ptr, choice]
  dsimp only
  rw [if_neg alive, setState, modifyPcb, wp_bind, wp_modify]
  obtain ⟨queue, hqueue⟩ := Queue.qInsert_eq_ok h.placed.qnodes_pos (σ.queues .waiting) σ.current
    (σ.pcbs σ.current).pid.id
  obtain ⟨-, hitems, -⟩ := Queue.qInsert_ok hqueue
  simp only [qInsert, wp_bind, wp_get, hqueue, wp_set, wp_pure]
  refine check_spec (absurd rfl) fun _ => ?_
  refine ⟨trivial, rfl, rfl, ?_, fun X hX => ?_, rfl, rfl⟩
  · dsimp only
    rw [Function.update_self]
    exact hitems
  · exact Function.update_of_ne hX _ _

/-- Collecting a process that has ended. -/
theorem waitUpTo_collects (h : Rel σ a) (sound : a.Sound) (owned : a.Owned)
    (ptr : σ.arg σ.current 1 ≠ 0) (choice : σ.waitChoice (σ.arg σ.current 1) = some q)
    (ended : (σ.pcbs q).state = .zombie) {E : Halt → Prop} :
    wp waitUpTo
      (fun gives τ => gives = false ∧ ∃ r, σ.FiledFirst (σ.pcbs q).pid.id r ∧ σ.Collects r τ)
      E σ := by
  have hfiled : ((σ.pcbs q).pid.id, q) ∈ (σ.queues .zombie).items := by
    rw [h.pid]
    exact (h.placed.mem .zombie _ q).mpr (sound.place_zombie (by rw [← h.state]; exact ended))
  have hremove : (σ.queues .zombie).remove = some removeIfEqual := h.placed.remove .zombie
  obtain ⟨⟨r, n, queue⟩, hout⟩ := Queue.qRemoveByKey_eq_ok σ.qnodes hremove hfiled
    (by simp [removeIfEqual] : removeIfEqual (σ.pcbs q).pid.id (σ.pcbs q).pid.id)
  obtain ⟨rfl, ⟨k, hitems, hkey⟩, -⟩ := Queue.qRemoveByKey_ok hout
  obtain rfl : k = (σ.pcbs q).pid.id := by simpa [removeIfEqual] using hkey _ hremove
  have hmem : ((σ.pcbs q).pid.id, r) ∈ (σ.queues .zombie).items :=
    hitems.mem_iff.mpr List.mem_cons_self
  have hplace := (h.placed.mem .zombie _ r).mp hmem
  have hfirst : σ.FiledFirst (σ.pcbs q).pid.id r := Queue.qRemoveByKey_find hout hremove
  have hfree : ¬ a.Free r := by
    intro hfree
    obtain ⟨key, hkey⟩ := hfree
    rw [hplace] at hkey
    cases hkey
  have hid : (σ.pcbs r).pid.id = (σ.pcbs q).pid.id := by
    have hkeyed := sound.keyed r
    rw [hplace] at hkeyed
    rw [h.pid r]
    exact hkeyed.symm
  have hhost : (σ.pcbs q).pid.host = (σ.pcbs r).pid.host := by
    rw [h.pid, h.pid, (sound.home r hfree).1, (sound.home q (sound.not_free ?_)).1]
    rw [← h.state, ended]
    simp
  obtain ⟨s, hs⟩ : ∃ s, (σ.pcbs r).stack = some s := by
    rw [h.stack]
    exact Option.ne_none_iff_exists'.mp fun hnone => hfree ((owned.stack r).mp hnone)
  obtain ⟨m, hm⟩ := Nat.exists_eq_succ_of_ne_zero h.placed.qnodes_pos.ne'
  rw [waitUpTo, wp_bind, wp_get]
  dsimp only
  rw [if_neg ptr, choice]
  dsimp only
  rw [if_pos ended, waitReap, wp_bind, wp_bind, wp_get, modifyInfo, wp_bind, wp_modify]
  simp only [qRemoveByKey, wp_bind, wp_get, hout, wp_set, wp_pure, hs, stackFree, wp_modify,
    Queue.qAppend]
  refine check_spec (absurd rfl) fun _ => ?_
  simp only [pcbFree, modifyPcb, qAppend, wp_bind, wp_modify, wp_get, hm, Queue.qAppend, wp_set,
    wp_pure]
  refine check_spec (absurd rfl) fun _ => ?_
  refine ⟨trivial, r, hfirst, rfl, rfl, ?_, ?_, fun X hX hX' => ?_, ⟨s, hs, ?_⟩, ?_⟩
  · simp [Queue.members]
  · rw [hid]
    simpa using hitems
  · simp [hX, hX']
  · simp [Queue.members]
  · dsimp only
    rw [Function.update_self]
    exact (Pid.same_iff _ _).mpr ⟨hhost, hid.symm⟩

/-- A zombie's PCB is not cleared yet. -/
theorem State.Ended.ne_clear (h : σ.Ended p) : Function.update σ.pcbs p {} ≠ σ.pcbs := by
  intro heq
  have hstate := h.2
  rw [← heq, Function.update_self] at hstate
  cases hstate

/-- Only one PCB is cleared. -/
theorem State.Ended.eq_of_collects (h : σ.Ended p) (hp : σ.Collects p τ) (hq : σ.Collects q τ) :
    p = q := by
  by_contra hne
  have hsame : τ.pcbs p = σ.pcbs p := by rw [hq.pcbs, Function.update_of_ne hne]
  refine h.ne_clear ?_
  rw [← hp.pcbs]
  funext x
  by_cases hx : x = p
  · rw [hx, hsame]
  · rw [hp.pcbs, Function.update_of_ne hx]

/-- What `wait` does follows from the PCB that it goes on with. -/
theorem waitsAsSpecified_iff_choice (h : Rel σ a) (sound : a.Sound) (owned : a.Owned)
    (ptr : σ.arg σ.current 1 ≠ 0) :
    σ.WaitsAsSpecified ↔ σ.FindsChild (σ.waitChoice (σ.arg σ.current 1)) := by
  rw [State.WaitsAsSpecified]
  cases choice : σ.waitChoice (σ.arg σ.current 1) with
  | none =>
    have hnone := waitUpTo_none (E := fun _ => False) ptr choice
    constructor
    · intro hspec p hsought
      obtain ⟨gives, τ, hrun, hended, hblocks, -⟩ := wp_returns hspec
      obtain ⟨rfl, rfl⟩ := wp_ok hnone hrun
      by_cases hany : ∃ q, σ.Ended q
      · obtain ⟨-, q, hq, hcollects⟩ := hended hany
        exact hq.ne_clear hcollects.pcbs.symm
      · exact absurd (hblocks (fun q hq => hany ⟨q, hq⟩) ⟨p, hsought⟩).1 (by decide)
    · intro hnobody
      refine wp_mono hnone ?_ fun _ he => he
      intro gives τ hpost
      exact ⟨fun ⟨p, hp⟩ => absurd hp.1 (hnobody p), fun _ ⟨p, hp⟩ => absurd hp (hnobody p),
        fun _ => hpost⟩
  | some q =>
    rw [State.FindsChild]
    by_cases hzombie : (σ.pcbs q).state = .zombie
    · rw [if_pos hzombie]
      have hcollect := waitUpTo_collects (E := fun _ => False) h sound owned ptr choice hzombie
      constructor
      · intro hspec
        obtain ⟨gives, τ, hrun, hended, hblocks, hnobody⟩ := wp_returns hspec
        obtain ⟨rfl, r, hfirst, hτ⟩ := wp_ok hcollect hrun
        refine ⟨r, hfirst, ?_⟩
        by_cases hany : ∃ p, σ.Ended p
        · obtain ⟨-, p, hp, hτ'⟩ := hended hany
          exact hp.eq_of_collects hτ' hτ ▸ hp
        · have hsought : ∀ p, ¬ σ.Sought p := by
            intro p hp
            exact absurd (hblocks (fun q hq => hany ⟨q, hq⟩) ⟨p, hp⟩).1 (by decide)
          obtain ⟨s, hs, -⟩ := hτ.stack
          have hpcbs : Function.update σ.pcbs r {} = σ.pcbs := by
            rw [← hτ.pcbs, (hnobody hsought).2]
            rfl
          rw [← hpcbs, Function.update_self] at hs
          cases hs
      · intro hyields
        obtain ⟨r, hr, hchild⟩ := hyields
        refine wp_mono hcollect ?_ fun _ he => he
        intro gives τ hpost
        obtain ⟨hgives, r', hr', hτ⟩ := hpost
        obtain rfl : r' = r := Option.some.inj (hr'.symm.trans hr)
        exact ⟨fun _ => ⟨hgives, r', hchild, hτ⟩, fun hnone _ => absurd hchild (hnone r'),
          fun hnone => absurd hchild.1 (hnone r')⟩
    · rw [if_neg hzombie]
      have hblock := waitUpTo_blocks (E := fun _ => False) h ptr choice hzombie
      constructor
      · intro hspec
        obtain ⟨gives, τ, hrun, hended, -, hnobody⟩ := wp_returns hspec
        obtain ⟨rfl, -⟩ := wp_ok hblock hrun
        constructor
        · by_contra hnone
          exact absurd (hnobody fun p hp => hnone ⟨p, hp⟩).1 (by decide)
        · intro p hp
          exact absurd (hended ⟨p, hp⟩).1 (by decide)
      · intro hchild
        refine wp_mono hblock ?_ fun _ he => he
        intro gives τ hpost
        exact ⟨fun ⟨p, hp⟩ => absurd hp (hchild.2 p), fun _ _ => hpost,
          fun hnone => absurd hchild.1 fun ⟨p, hp⟩ => hnone p hp⟩

theorem State.firstEnded_eq_some (h : σ.firstEnded = some q) : (σ.pcbs q).state = .zombie := by
  have htest := List.find?_some h
  exact of_decide_eq_true (Bool.and_eq_true_iff.mp htest).2

/-- Without a scan that stops, no child is a zombie. -/
theorem State.firstEnded_eq_none (h : σ.firstEnded = none) (p : PcbId) : ¬ σ.Ended p := by
  intro hp
  have htest := List.find?_eq_none.mp h p (List.mem_finRange p)
  exact htest (by simp [hp.1.2.1, hp.2])

/-- The condition in terms of the table. -/
theorem waitsWell_iff_choice (σ : State) :
    σ.WaitsWell ↔ σ.FindsChild (σ.waitChoice (σ.arg σ.current 1)) := by
  rw [State.WaitsWell, waitChoice_eq]
  by_cases hid : 0 < (σ.want σ.current).id
  · rw [if_pos hid, if_pos hid]
  · rw [if_neg hid, if_neg hid]
    cases hfirst : σ.firstEnded with
    | some q =>
      rw [Option.getD_some, State.FindsChild, if_pos (State.firstEnded_eq_some hfirst)]
      exact Iff.rfl
    | none =>
      have hnone := State.firstEnded_eq_none hfirst
      rw [Option.getD_none, State.FindsChild, State.MeetsChild]
      by_cases hlast : (σ.pcbs (Fin.last 29)).state = .zombie
      · rw [if_pos hlast]
        exact iff_of_false (fun h => h.1 hlast) fun ⟨r, _, hr⟩ => hnone r hr
      · rw [if_neg hlast]
        exact ⟨fun h => ⟨h.2, hnone⟩, fun h => ⟨hlast, h.1⟩⟩

/-- In a state that a run leads to, once the caller has entered the kernel. -/
theorem entered_waits_iff (boot : BootState b σ₀) (run : AnyRun σ₀ tr σ) (u : UserMem)
    (ptr : (σ.enter u).arg σ.current 1 ≠ 0) :
    (σ.enter u).WaitsAsSpecified ↔
      (σ.enter u).FindsChild ((σ.enter u).waitChoice ((σ.enter u).arg σ.current 1)) := by
  obtain ⟨a, hrel, hsound, -, howned⟩ := run_owned boot run
  have henter : Rel (σ.enter u) (a.entered σ ⟨u, .clock⟩) := enter_rel (i := ⟨u, .clock⟩) hrel
  exact waitsAsSpecified_iff_choice henter (hsound.rewant _)
    (howned.congr (fun _ => Iff.rfl) (fun _ => rfl) rfl) ptr

/-- **`wait` does what it is for** exactly under that condition, whatever run has led here and
whatever the caller asks for. -/
theorem waits_as_specified_iff (boot : BootState b σ₀) (run : AnyRun σ₀ tr σ) (u : UserMem)
    (ptr : (σ.enter u).arg σ.current 1 ≠ 0) :
    (σ.enter u).WaitsAsSpecified ↔ (σ.enter u).WaitsWell := by
  rw [waitsWell_iff_choice]
  exact entered_waits_iff boot run u ptr

/-- Init waits for the child that it has forked. -/
theorem waits_as_specified_init : ∃ σ₀ tr σ u, BootState blankBoot σ₀ ∧ AnyRun σ₀ tr σ ∧
    (∃ p, p ≠ σ.current ∧ (State.enter σ u).Sought p) ∧ (State.enter σ u).WaitsAsSpecified := by
  have hrun : bootTest (fun _ _ => True) blankBoot [callInput 1 (fun _ => 0) blankHeap] fun σ =>
      let υ := σ.enter (callInput 3 (fun _ => 16) blankHeap).user
      decide (υ.arg σ.current 1 ≠ 0 ∧ (∃ p, p ≠ σ.current ∧ υ.Sought p) ∧ υ.WaitsWell) := by
    decide +kernel
  obtain ⟨σ₀, tr, σ, hboot, hany, -, htest⟩ := bootTest_run hrun
  obtain ⟨hptr, hchild, hwell⟩ := of_decide_eq_true htest
  exact ⟨σ₀, tr, σ, _, hboot, hany, hchild, (waits_as_specified_iff hboot hany _ hptr).mpr hwell⟩

/-- The child that init has forked waits although it has no children. -/
theorem childless_waits :
    ¬ ∀ (b : Boot) (σ₀ : State) (tr : List (State × Input)) (σ : State) (u : UserMem),
      BootState b σ₀ → AnyRun σ₀ tr σ → (σ.enter u).arg σ.current 1 ≠ 0 →
      (σ.enter u).WaitsAsSpecified := by
  intro hclaim
  have hrun : bootTest (fun _ _ => True) blankBoot
      [callInput 1 (fun _ => 0) blankHeap, clockInput (fun _ => 0) blankHeap] fun σ =>
      let υ := σ.enter (callInput 3 (fun _ => 16) blankHeap).user
      decide (υ.arg σ.current 1 ≠ 0 ∧ (∀ p, ¬ υ.Sought p) ∧ ¬ υ.WaitsWell) := by
    decide +kernel
  obtain ⟨σ₀, tr, σ, hboot, hany, -, htest⟩ := bootTest_run hrun
  obtain ⟨hptr, -, hill⟩ := of_decide_eq_true htest
  have hfinds := (entered_waits_iff hboot hany _ hptr).mp (hclaim _ _ _ _ _ hboot hany hptr)
  exact hill ((waitsWell_iff_choice _).mpr hfinds)

end Cumulonimbus
