import Mathlib.Logic.Basic
import Mathlib.Logic.Relation

/-!
# Halting computations and their weakest preconditions

A computation over a state `σ` either returns a value and a new state or halts
with a reason `ε` that ends the run for good.  `wp x Q E s` says that `x`,
started in `s`, returns only into `Q` and halts only for reasons in `E`.  The
rules below take a computation apart along its binds, so that each primitive
needs one specification lemma and no caller unfolds it.

Nothing here depends on the program that is verified with it.
-/

namespace Exec

variable {σ ε α β : Type}

/-- A state-passing computation that may halt. -/
abbrev Prog (σ ε α : Type) := StateT σ (Except ε) α

/-- Weakest precondition of `x` for the postcondition `Q` and the halting
condition `E`. -/
def wp (x : Prog σ ε α) (Q : α → σ → Prop) (E : ε → Prop) (s : σ) : Prop :=
  match x s with
  | .ok (a, s') => Q a s'
  | .error e => E e

/-- What holds of a program holds of the result that it returns. -/
theorem wp_ok {x : Prog σ ε α} {Q : α → σ → Prop} {E : ε → Prop} {s s' : σ} {a : α}
    (h : wp x Q E s) (hx : x s = .ok (a, s')) : Q a s' := by
  simpa [wp, hx] using h

/-- The same for the error that it stops with. -/
theorem wp_error {x : Prog σ ε α} {Q : α → σ → Prop} {E : ε → Prop} {s : σ} {e : ε}
    (h : wp x Q E s) (hx : x s = .error e) : E e := by
  simpa [wp, hx] using h

/-- What cannot halt returns. -/
theorem wp_returns {x : Prog σ ε α} {Q : α → σ → Prop} {s : σ} (h : wp x Q (fun _ => False) s) :
    ∃ a s', x s = .ok (a, s') ∧ Q a s' := by
  cases hx : x s with
  | error e => exact (wp_error h hx).elim
  | ok out => exact ⟨out.1, out.2, rfl, wp_ok h hx⟩

/-- A program with a known result. -/
theorem wp_of_eq {x : Prog σ ε α} {Q : α → σ → Prop} {E : ε → Prop} {s s' : σ} {a : α}
    (hx : x s = .ok (a, s')) (h : Q a s') : wp x Q E s := by
  simpa [wp, hx] using h

/-- Weakening of the postcondition and of the halting condition. -/
theorem wp_mono {x : Prog σ ε α} {Q Q' : α → σ → Prop} {E E' : ε → Prop} {s : σ}
    (h : wp x Q E s) (hQ : ∀ a s', Q a s' → Q' a s') (hE : ∀ e, E e → E' e) :
    wp x Q' E' s := by
  unfold wp at *
  split at h
  · exact hQ _ _ h
  · exact hE _ h

/-- Two specifications of one computation. -/
theorem wp_and {x : Prog σ ε α} {Q Q' : α → σ → Prop} {E E' : ε → Prop} {s : σ}
    (h : wp x Q E s) (h' : wp x Q' E' s) :
    wp x (fun a s' => Q a s' ∧ Q' a s') (fun e => E e ∧ E' e) s := by
  unfold wp at *
  cases hx : x s with
  | ok out =>
    rw [hx] at h h'
    exact ⟨h, h'⟩
  | error e =>
    rw [hx] at h h'
    exact ⟨h, h'⟩

/-- What any computation does. -/
theorem wp_true (x : Prog σ ε α) (s : σ) : wp x (fun _ _ => True) (fun _ => True) s := by
  unfold wp
  split <;> trivial

/-- A value is returned in the state as it is; the rules that follow are one for each way to build a
program. -/
@[simp] theorem wp_pure {a : α} {Q : α → σ → Prop} {E : ε → Prop} {s : σ} :
    wp (pure a : Prog σ ε α) Q E s ↔ Q a s := Iff.rfl

theorem wp_bind {x : Prog σ ε α} {f : α → Prog σ ε β} {Q : β → σ → Prop}
    {E : ε → Prop} {s : σ} :
    wp (x >>= f) Q E s ↔ wp x (fun a s' => wp (f a) Q E s') E s := by
  simp only [wp, bind, StateT.bind, Except.bind]
  cases x s <;> rfl

/-- The form of `wp_bind` used on a goal: first the specification of `x`, then
the rest of the computation from whatever `x` leaves. -/
theorem wp_seq {x : Prog σ ε α} {f : α → Prog σ ε β} {R : α → σ → Prop}
    {Q : β → σ → Prop} {E : ε → Prop} {s : σ} (hx : wp x R E s)
    (hf : ∀ a s', R a s' → wp (f a) Q E s') : wp (x >>= f) Q E s :=
  wp_bind.mpr (wp_mono hx hf (fun _ h => h))

theorem wp_map {x : Prog σ ε α} {f : α → β} {Q : β → σ → Prop} {E : ε → Prop} {s : σ} :
    wp (f <$> x) Q E s ↔ wp x (fun a s' => Q (f a) s') E s := by
  simp only [wp, Functor.map, StateT.map, Except.bind, bind]
  cases x s <;> rfl

@[simp] theorem wp_get {Q : σ → σ → Prop} {E : ε → Prop} {s : σ} :
    wp (get : Prog σ ε σ) Q E s ↔ Q s s := Iff.rfl

/-- Reading the state and going on. -/
theorem get_run {f : σ → Prog σ ε α} {s : σ} : (get >>= f) s = f s s := rfl

@[simp] theorem wp_set {t : σ} {Q : PUnit → σ → Prop} {E : ε → Prop} {s : σ} :
    wp (set t : Prog σ ε PUnit) Q E s ↔ Q ⟨⟩ t := Iff.rfl

@[simp] theorem wp_modify {f : σ → σ} {Q : PUnit → σ → Prop} {E : ε → Prop} {s : σ} :
    wp (modify f : Prog σ ε PUnit) Q E s ↔ Q ⟨⟩ (f s) := Iff.rfl

@[simp] theorem wp_throw {e : ε} {Q : α → σ → Prop} {E : ε → Prop} {s : σ} :
    wp (throw e : Prog σ ε α) Q E s ↔ E e := Iff.rfl

/-- A branch is proved under its condition. -/
theorem wp_ite {c : Prop} [Decidable c] {x y : Prog σ ε α} {Q : α → σ → Prop}
    {E : ε → Prop} {s : σ} :
    wp (if c then x else y) Q E s ↔ (c → wp x Q E s) ∧ (¬ c → wp y Q E s) := by
  by_cases h : c <;> simp [h]

/-- A computation on a part of a larger state. -/
def zoom {τ : Type} (get : τ → σ) (put : σ → τ → τ) (x : Prog σ ε α) : Prog τ ε α := fun t =>
  match x (get t) with
  | .ok (a, s) => .ok (a, put s t)
  | .error e => .error e

/-- A program on a part of the state. -/
theorem wp_zoom {τ : Type} {get : τ → σ} {put : σ → τ → τ} {x : Prog σ ε α}
    {Q : α → τ → Prop} {E : ε → Prop} {t : τ} :
    wp (zoom get put x) Q E t ↔ wp x (fun a s => Q a (put s t)) E (get t) := by
  unfold wp zoom
  cases x (get t) <;> rfl

/-! ## Loops -/

/-- `while (cond a) a = body a;`, for at most as many rounds as the number says. -/
def loop (spin : ε) (cond : α → σ → Bool) (body : α → Prog σ ε α) : Nat → α → Prog σ ε α
  | 0, _ => throw spin
  | fuel + 1, a => do
    let s ← get
    if cond a s then
      let a ← body a
      loop spin cond body fuel a
    else pure a

/-- The rule for loops.  The invariant carries the number of rounds that may still come. -/
theorem wp_loop_indexed {spin : ε} {cond : α → σ → Bool} {body : α → Prog σ ε α} {E : ε → Prop}
    {I : Nat → α → σ → Prop}
    (step : ∀ n a s, I n a s → cond a s = true →
      wp (body a) (fun a' s' => ∃ k < n, I k a' s') E s)
    {fuel n : Nat} {a : α} {s : σ} (start : I n a s) (enough : n < fuel) :
    wp (loop spin cond body fuel a) (fun a' s' => (∃ k, I k a' s') ∧ cond a' s' = false) E s := by
  induction fuel generalizing n a s with
  | zero => exact absurd enough (Nat.not_lt_zero _)
  | succ fuel ih =>
    rw [loop, wp_bind, wp_get]
    cases hcond : cond a s with
    | true =>
      rw [if_pos rfl]
      refine wp_seq (step n a s start hcond) ?_
      intro a' s' hpost
      obtain ⟨k, hk, hI⟩ := hpost
      exact ih hI (by omega)
    | false =>
      rw [if_neg Bool.false_ne_true]
      exact ⟨⟨n, start⟩, hcond⟩

/-- The rule for loops with a variant: the invariant `I` is kept and `m` goes down. -/
theorem wp_loop {spin : ε} {cond : α → σ → Bool} {body : α → Prog σ ε α} {E : ε → Prop}
    {I : α → σ → Prop} (m : α → σ → Nat)
    (step : ∀ a s, I a s → cond a s = true →
      wp (body a) (fun a' s' => I a' s' ∧ m a' s' < m a s) E s)
    {fuel : Nat} {a : α} {s : σ} (start : I a s) (enough : m a s < fuel) :
    wp (loop spin cond body fuel a) (fun a' s' => I a' s' ∧ cond a' s' = false) E s := by
  refine wp_mono (wp_loop_indexed (I := fun n a s => I a s ∧ m a s = n) ?_ ⟨start, rfl⟩ enough) ?_
    fun _ he => he
  · intro n a s hI hcond
    obtain ⟨hinv, rfl⟩ := hI
    refine wp_mono (step a s hinv hcond) ?_ fun _ he => he
    intro a' s' hpost
    exact ⟨m a' s', hpost.2, hpost.1, rfl⟩
  · intro a' s' hpost
    obtain ⟨⟨_, hinv, -⟩, hdone⟩ := hpost
    exact ⟨hinv, hdone⟩

/-- The rule for loops that need not end. -/
theorem wp_loop_endless {spin : ε} {cond : α → σ → Bool} {body : α → Prog σ ε α} {E : ε → Prop}
    {I : α → σ → Prop} (hspin : E spin)
    (step : ∀ a s, I a s → cond a s = true → wp (body a) I E s)
    {fuel : Nat} {a : α} {s : σ} (start : I a s) :
    wp (loop spin cond body fuel a) (fun a' s' => I a' s' ∧ cond a' s' = false) E s := by
  induction fuel generalizing a s with
  | zero => exact hspin
  | succ fuel ih =>
    rw [loop, wp_bind, wp_get]
    cases hcond : cond a s with
    | true =>
      rw [if_pos rfl]
      refine wp_seq (step a s start hcond) ?_
      intro a' s' hI
      exact ih hI
    | false =>
      rw [if_neg Bool.false_ne_true]
      exact ⟨start, hcond⟩

/-- The rule for loops over lists.  The invariant carries the number of rounds done. -/
theorem wp_foldlM {γ : Type} {f : α → γ → Prog σ ε α} {E : ε → Prop} {I : Nat → α → σ → Prop}
    {l : List γ}
    (step : ∀ k (hk : k < l.length) a s, I k a s → wp (f a l[k]) (I (k + 1)) E s)
    {a : α} {s : σ} (start : I 0 a s) : wp (l.foldlM f a) (I l.length) E s := by
  induction l generalizing I a s with
  | nil => exact start
  | cons x l ih =>
    rw [List.foldlM_cons]
    refine wp_seq (step 0 (Nat.zero_lt_succ _) a s start) ?_
    intro a' s' hI
    exact ih (I := fun k => I (k + 1)) (fun k hk => step (k + 1) (Nat.succ_lt_succ hk)) hI

/-- A loop over a list, with an invariant that may count the turns. -/
theorem wp_forM {γ : Type} {f : γ → Prog σ ε PUnit} {E : ε → Prop} {I : Nat → σ → Prop}
    {l : List γ}
    (step : ∀ k (hk : k < l.length) s, I k s → wp (f l[k]) (fun _ => I (k + 1)) E s)
    {s : σ} (start : I 0 s) : wp (forM l f) (fun _ => I l.length) E s := by
  induction l generalizing I s with
  | nil => exact start
  | cons x l ih =>
    rw [List.forM_cons]
    refine wp_seq (step 0 (Nat.zero_lt_succ _) s start) ?_
    intro _ s' hI
    exact ih (I := fun k => I (k + 1)) (fun k hk => step (k + 1) (Nat.succ_lt_succ hk)) hI

/-! ## What a computation leaves alone -/

variable {γ : Type} {f : σ → γ}

/-- `x` returns with what `f` reads of the state as it was. -/
def Keeps (f : σ → γ) (x : Prog σ ε α) : Prop :=
  ∀ s, wp x (fun _ t => f t = f s) (fun _ => True) s

namespace Keeps

/-- Returning a value reads and stores nothing. -/
theorem pure (a : α) : Keeps f (pure a : Prog σ ε α) := fun _ => rfl

/-- A program that stops does not return. -/
theorem throw (e : ε) : Keeps f (throw e : Prog σ ε α) := fun _ => trivial

/-- Reading the state keeps it. -/
theorem get : Keeps f (get : Prog σ ε σ) := fun _ => rfl

/-- A store that `f` does not see. -/
theorem modify {g : σ → σ} (h : ∀ s, f (g s) = f s) : Keeps f (modify g : Prog σ ε PUnit) := h

/-- One program after another. -/
theorem bind {x : Prog σ ε α} {k : α → Prog σ ε β} (hx : Keeps f x) (hk : ∀ a, Keeps f (k a)) :
    Keeps f (x >>= k) := by
  intro s
  refine wp_seq (hx s) ?_
  intro a t ht
  exact wp_mono (hk a t) (fun _ _ hu => hu.trans ht) fun _ he => he

/-- Either branch. -/
theorem ite {c : Prop} [Decidable c] {x y : Prog σ ε α} (hx : Keeps f x) (hy : Keeps f y) :
    Keeps f (if c then x else y) := by
  split
  · exact hx
  · exact hy

/-- The same program for each element. -/
theorem forM {β : Type} {x : β → Prog σ ε PUnit} (h : ∀ b, Keeps f (x b)) (l : List β) :
    Keeps f (forM l x) := by
  induction l with
  | nil => exact pure PUnit.unit
  | cons b l ih =>
    rw [List.forM_cons]
    exact (h b).bind fun _ => ih

end Keeps

/-! ## Runs -/

variable {ι : Type}

/-- `Runs step good s tr t`: from `s` the inputs recorded in `tr`, each of them
`good` in the state it arrives in, lead to `t`.  The trace lists the steps
taken, oldest first, each as the state before it and its input. -/
inductive Runs (step : ι → Prog σ ε Unit) (good : σ → ι → Prop) (s : σ) :
    List (σ × ι) → σ → Prop
  | nil : Runs step good s [] s
  | snoc {tr : List (σ × ι)} {t u : σ} {i : ι} (run : Runs step good s tr t)
      (ok : good t i) (next : step i t = .ok ((), u)) :
      Runs step good s (tr ++ [(t, i)]) u

variable {step : ι → Prog σ ε Unit} {good good' : σ → ι → Prop} {s t u : σ}
  {tr tr' : List (σ × ι)}

/-- A step that cannot halt continues a run. -/
theorem Runs.next {i : ι} {Q : Unit → σ → Prop} (run : Runs step good s tr t) (ok : good t i)
    (h : wp (step i) Q (fun _ => False) t) :
    ∃ u, Runs step good s (tr ++ [(t, i)]) u ∧ Q () u := by
  obtain ⟨_, u, hstep, hpost⟩ := wp_returns h
  exact ⟨u, run.snoc ok hstep, hpost⟩

/-- A weaker condition on the steps. -/
theorem Runs.mono (h : ∀ t i, good t i → good' t i) (run : Runs step good s tr t) :
    Runs step good' s tr t := by
  induction run with
  | nil => exact .nil
  | snoc _ ok next ih => exact ih.snoc (h _ _ ok) next

/-- Every step of a run met its condition. -/
theorem Runs.good_of_mem (run : Runs step good s tr t) : ∀ x ∈ tr, good x.1 x.2 := by
  induction run with
  | nil => simp
  | snoc _ ok _ ih =>
    intro x hx
    rcases List.mem_append.mp hx with hx | hx
    · exact ih x hx
    · obtain rfl := List.mem_singleton.mp hx
      exact ok

/-- A run whose trace shows good steps only. -/
theorem Runs.restrict (good' : σ → ι → Prop) (run : Runs step good s tr t)
    (h : ∀ x ∈ tr, good' x.1 x.2) :
    Runs step good' s tr t := by
  induction run with
  | nil => exact .nil
  | snoc _ ok next ih =>
    refine (ih fun x hx => h x (List.mem_append_left _ hx)).snoc ?_ next
    exact h _ (List.mem_append_right _ List.mem_cons_self)

/-- A run is what the loop over its inputs does. -/
theorem Runs.forM_eq (run : Runs step good s tr t) :
    forM (tr.map Prod.snd) step s = .ok ((), t) := by
  induction run with
  | nil => rfl
  | @snoc tr t u i _ _ next ih =>
    rw [List.map_append, List.forM_append]
    show (forM (tr.map Prod.snd) step s).bind _ = _
    rw [ih]
    show (step i t).bind _ = _
    rw [next]
    rfl

/-- A run carried on from its last state. -/
theorem Runs.append (run : Runs step good s tr t) (rest : Runs step good t tr' u) :
    Runs step good s (tr ++ tr') u := by
  induction rest with
  | nil => simpa using run
  | snoc _ ok next ih => simpa [List.append_assoc] using ih.snoc ok next

/-- A run of no steps stays where it is. -/
theorem Runs.eq_of_nil (run : Runs step good s [] t) : t = s := by
  generalize hl : ([] : List (σ × ι)) = l at run
  cases run with
  | nil => rfl
  | snoc _ _ _ => simp at hl

/-- A run by its first step and the rest. -/
theorem Runs.uncons {x : σ × ι} (run : Runs step good s (x :: tr) t) :
    x.1 = s ∧ good s x.2 ∧ ∃ u, step x.2 s = .ok ((), u) ∧ Runs step good u tr t := by
  generalize hl : x :: tr = l at run
  induction run generalizing tr with
  | nil => cases hl
  | @snoc tr₀ t₀ u i run ok next ih =>
    rcases tr₀ with _ | ⟨y, tr₀⟩
    · obtain rfl := run.eq_of_nil
      cases hl
      exact ⟨rfl, ok, u, next, .nil⟩
    · obtain ⟨rfl, rfl⟩ := List.cons_eq_cons.mp hl
      obtain ⟨hx, hgood, v, hv, hrest⟩ := ih rfl
      exact ⟨hx, hgood, v, hv, hrest.snoc ok next⟩

/-- **Invariants over runs.**  What holds at the start and is kept by every good
step holds wherever a run of good steps leads. -/
theorem Runs.invariant {I : σ → Prop} (start : I s)
    (keep : ∀ t i, I t → good t i → wp (step i) (fun _ u => I u) (fun _ => True) t)
    (run : Runs step good s tr t) : I t := by
  induction run with
  | nil => exact start
  | snoc _ ok next ih => exact wp_ok (keep _ _ ih ok) next

/-- Take a step for each input, as long as the inputs are good: the trace and the last state. -/
def play (step : ι → Prog σ ε Unit) (good : σ → ι → Prop) [∀ s i, Decidable (good s i)] :
    List ι → σ → Option (List (σ × ι) × σ)
  | [], s => some ([], s)
  | i :: rest, s =>
    if good s i then
      match step i s with
      | .ok (_, t) => (play step good rest t).map fun r => ((s, i) :: r.1, r.2)
      | .error _ => none
    else none

/-- Playing a list of inputs is a run, if each meets its condition. -/
theorem play_runs [∀ s i, Decidable (good s i)] {l : List ι} {r : List (σ × ι) × σ}
    (h : play step good l s = some r) : Runs step good s r.1 r.2 ∧ r.1.map Prod.snd = l := by
  induction l generalizing s r with
  | nil =>
    obtain rfl := Option.some.inj h
    exact ⟨.nil, rfl⟩
  | cons i rest ih =>
    rw [play] at h
    split at h
    case isTrue hgood =>
      split at h
      case h_1 hstep =>
        obtain ⟨r', hr', rfl⟩ := Option.map_eq_some_iff.mp h
        obtain ⟨hrun, htr⟩ := ih hr'
        exact ⟨Runs.append (.snoc .nil hgood hstep) hrun, congrArg (i :: ·) htr⟩
      case h_2 => cases h
    case isFalse => cases h

end Exec
