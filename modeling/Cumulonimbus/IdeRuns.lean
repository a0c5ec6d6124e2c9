import Cumulonimbus.IdeDisk

/-!
# System calls of the driver

Any sequence of reads and writes of sectors.  The system calls answer `E_SUCCESS` whatever the
driver returns to them, and the driver does not even look after a write: a bad sector leaves the
buffer of a reader as it was and swallows what is written to it (`errors_are_swallowed`).
-/

namespace Cumulonimbus.Ide

open Exec Ata

attribute [local irreducible] wp

/-- A system call. -/
inductive Access
  | read (sector : UInt32) (buf : Words)
  | write (sector : UInt32) (buf : Words)

/-- The call, with its status and the buffer afterwards. -/
def Access.call {σ : Type} (bus : Bus σ) (patience : Nat) (device : IdeDevice) :
    Access → Prog σ Spin (UInt32 × Words)
  | .read sector buf => sysIdeRead bus patience device sector buf
  | .write sector buf => do
    let r ← sysIdeWrite bus patience device sector buf
    return (r, buf)

/-- What a call does where only the good sectors exist: the buffer and the medium afterwards. -/
def Access.effect (good : Nat → Bool) (m : Nat → Words) : Access → Words × (Nat → Words)
  | .read sector buf => (if good sector.toNat then m sector.toNat else buf, m)
  | .write sector buf => (buf, if good sector.toNat then Function.update m sector.toNat buf else m)

/-- The same for any number of calls. -/
def effects (good : Nat → Bool) : List Access → (Nat → Words) → List Words × (Nat → Words)
  | [], m => ([], m)
  | a :: rest, m =>
    let r := a.effect good m
    let s := effects good rest r.2
    (r.1 :: s.1, s.2)

variable {σ : Type} {bus : Bus σ} {device : IdeDevice} {d : Bool} {good : Bool → Nat → Bool}
  {patience : Nat} {view : σ → View} {s : σ}

/-- The state after a call. -/
structure Called (view : σ → View) (d : Bool) (good : Nat → Bool) (patience : Nat) (s : σ)
    (a : Access) (r : UInt32 × Words) (t : σ) : Prop where
  between : (view t).Between patience
  answer : r = (0, (a.effect good ((view s).media d)).1)
  media : (view t).media =
    Function.update (view s).media d (a.effect good ((view s).media d)).2

section Wired

variable (hw : device.Wired d bus good patience view)
include hw

/-- **One call.** -/
theorem wp_call (between : (view s).Between patience) (a : Access) :
    wp (a.call bus patience device) (Called view d (good d) patience s a) (fun _ => False) s := by
  cases a with
  | read sector buf =>
    rw [Access.call, sysIdeRead]
    refine wp_seq (wp_idePioLbaRead hw between sector buf) ?_
    rintro r t ⟨hbetween, hmedia, -, hbuf⟩
    refine wp_pure.mpr ⟨hbetween, Prod.ext rfl hbuf, ?_⟩
    rw [hmedia]
    exact (Function.update_eq_self d _).symm
  | write sector buf =>
    rw [Access.call, sysIdeWrite, bind_assoc]
    refine wp_seq (wp_idePioLbaWrite hw between sector buf) ?_
    rintro r t ⟨hbetween, -, hmedia⟩
    rw [pure_bind]
    refine wp_pure.mpr ⟨hbetween, rfl, hmedia.trans ?_⟩
    rw [Access.effect]
    split
    · rfl
    · exact (Function.update_eq_self d _).symm

/-- **Any number of calls.** -/
theorem wp_calls (between : (view s).Between patience) (as : List Access) :
    wp (as.mapM (Access.call bus patience device))
      (fun rs t => rs = (effects (good d) as ((view s).media d)).1.map (fun buf => (0, buf)) ∧
        (view t).media =
          Function.update (view s).media d (effects (good d) as ((view s).media d)).2)
      (fun _ => False) s := by
  induction as generalizing s with
  | nil =>
    rw [List.mapM_nil]
    exact wp_pure.mpr ⟨rfl, (Function.update_eq_self d _).symm⟩
  | cons a as ih =>
    rw [List.mapM_cons]
    refine wp_seq (wp_call hw between a) ?_
    intro r t hcall
    refine wp_seq (ih hcall.between) ?_
    rintro rs u ⟨rfl, hmedia⟩
    have hmine : (view t).media d = (a.effect (good d) ((view s).media d)).2 := by
      rw [hcall.media, Function.update_self]
    rw [hmine] at hmedia ⊢
    refine wp_pure.mpr ⟨?_, ?_⟩
    · rw [hcall.answer]
      rfl
    · rw [hmedia, hcall.media, Function.update_idem]
      rfl

/-- **Errors are swallowed.**  Every call answers `E_SUCCESS`, and what it does is what it would do
if the bad sectors did not exist.  The other drive is left alone. -/
theorem errors_are_swallowed (between : (view s).Between patience) (as : List Access) :
    ∃ t, as.mapM (Access.call bus patience device) s =
        .ok ((effects (good d) as ((view s).media d)).1.map (fun buf => (0, buf)), t) ∧
      (view t).media d = (effects (good d) as ((view s).media d)).2 ∧
      (view t).media (!d) = (view s).media (!d) := by
  obtain ⟨rs, t, hrun, rfl, hmedia⟩ := wp_returns (wp_calls hw between as)
  refine ⟨t, hrun, ?_, ?_⟩
  · rw [hmedia, Function.update_self]
  · rw [hmedia, Function.update_of_ne (by cases d <;> decide)]

end Wired

/-- The second drive of the first channel of a PC. -/
def secondDrive : IdeDevice := ⟨⟨0x1f0, 0x3f4, 0⟩, 1⟩

theorem secondDrive_wired (good : Bool → Nat → Bool) (lag : Nat) :
    secondDrive.Wired true (plainBus good lag) good (lag + 1) fun v => v :=
  ⟨rfl, plainBus_obeys good lag⟩

/-- A channel without data. -/
def blankView : View :=
  ⟨fun _ _ _ => 0, ⟨⟨0, 0⟩, ⟨0, 0⟩, ⟨0, 0⟩, ⟨0, 0⟩, 0⟩, .idle, 0, false⟩

/-- Sector 7 is bad. -/
theorem errors_are_swallowed_at_7 :
    ∃ t, [Access.write 5 fun _ => 1, .write 7 fun _ => 1, .read 5 fun _ => 9,
        .read 7 fun _ => 9].mapM (Access.call (plainBus (fun _ n => n ≠ 7) 3) 4 secondDrive)
        blankView =
      .ok ([(0, fun _ => 1), (0, fun _ => 1), (0, fun _ => 1), (0, fun _ => 9)], t) := by
  obtain ⟨t, hrun, -⟩ := errors_are_swallowed (secondDrive_wired (fun _ n => n ≠ 7) 3)
    (s := blankView) ⟨rfl, by decide⟩
    [.write 5 fun _ => 1, .write 7 fun _ => 1, .read 5 fun _ => 9, .read 7 fun _ => 9]
  exact ⟨t, hrun⟩

end Cumulonimbus.Ide
