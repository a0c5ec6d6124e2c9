import Cumulonimbus.Exec

/-!
# Invariants of computations

`Preserves I x` says that `x` returns only to states in which `I` holds, if it started in one.  It
goes along with binds, so an invariant that every primitive of a program preserves is preserved by
the program.

Nothing here depends on the program that is verified with it.
-/

namespace Exec

variable {σ ε α β : Type} {I : σ → Prop}

def Preserves (I : σ → Prop) (x : Prog σ ε α) : Prop :=
  ∀ s, I s → wp x (fun _ t => I t) (fun _ => True) s

namespace Preserves

variable {x y : Prog σ ε α} {k : α → Prog σ ε β}

/-- Returning keeps anything. -/
theorem pure (a : α) : Preserves I (pure a : Prog σ ε α) := fun _ h => h

/-- So does stopping. -/
theorem throw (e : ε) : Preserves I (throw e : Prog σ ε α) := fun _ _ => trivial

/-- A store that keeps it. -/
theorem modify {g : σ → σ} (h : ∀ s, I s → I (g s)) :
    Preserves I (modify g : Prog σ ε PUnit) := h

/-- One program after another. -/
theorem bind (hx : Preserves I x) (hk : ∀ a, Preserves I (k a)) : Preserves I (x >>= k) := by
  intro s h
  refine wp_seq (hx s h) ?_
  intro a t ht
  exact hk a t ht

/-- The program goes on in the state that it reads. -/
theorem bind_get {k : σ → Prog σ ε α}
    (h : ∀ s, I s → wp (k s) (fun _ t => I t) (fun _ => True) s) : Preserves I (get >>= k) := h

/-- Either branch. -/
theorem ite {c : Prop} [Decidable c] (hx : Preserves I x) (hy : Preserves I y) :
    Preserves I (if c then x else y) := by
  split
  · exact hx
  · exact hy

/-- One step that preserves `I`, and the rest with its postcondition. -/
theorem seq {s : σ} {Q : β → σ → Prop} (hx : Preserves I x) (hs : I s)
    (hk : ∀ a t, I t → wp (k a) Q (fun _ => True) t) : wp (x >>= k) Q (fun _ => True) s :=
  wp_seq (hx s hs) hk

end Preserves

end Exec
