import Cumulonimbus.Exec

/-!
# Two computations side by side

Two runs of a program whose states are related by `R` go in lockstep if they return the same value
in related states, or stop with the same error.  There is one rule for each way to build a program;
a value that is read from the state need not be the same on both sides.
-/

namespace Exec

variable {σ ε α β : Type} {R : σ → σ → Prop} {s t : σ}

/-- `x` from `s` and `y` from `t` return the same value in related states, or stop alike. -/
def Lockstep (R : σ → σ → Prop) (x y : Prog σ ε α) (s t : σ) : Prop :=
  match x s, y t with
  | .ok (a, s'), .ok (b, t') => a = b ∧ R s' t'
  | .error e, .error e' => e = e'
  | _, _ => False

/-- A program that keeps a relation. -/
def Relates (R : σ → σ → Prop) (x : Prog σ ε α) : Prop :=
  ∀ s t, R s t → Lockstep R x x s t

namespace Lockstep

variable {x y : Prog σ ε α} {f g : α → Prog σ ε β}

/-- Both return the same value. -/
theorem pure (a : α) (h : R s t) : Lockstep R (pure a : Prog σ ε α) (pure a) s t := ⟨rfl, h⟩

/-- Both stop with the same error. -/
theorem throw (e : ε) : Lockstep R (throw e : Prog σ ε α) (throw e) s t := rfl

/-- Both change their state. -/
theorem modify {k l : σ → σ} (h : R (k s) (l t)) :
    Lockstep R (modify k : Prog σ ε PUnit) (modify l) s t := ⟨rfl, h⟩

/-- Both store a state. -/
theorem set {s' t' : σ} (h : R s' t') :
    Lockstep R (set s' : Prog σ ε PUnit) (set t') s t := ⟨rfl, h⟩

/-- **Both go on** with the same value in related states. -/
theorem bind (hx : Lockstep R x y s t)
    (hf : ∀ a s' t', R s' t' → Lockstep R (f a) (g a) s' t') :
    Lockstep R (x >>= f) (y >>= g) s t := by
  unfold Lockstep at hx ⊢
  simp only [Bind.bind, StateT.bind, Except.bind]
  split at hx
  · rename_i a s' b t' hs ht
    obtain ⟨rfl, hR⟩ := hx
    rw [hs, ht]
    exact hf a s' t' hR
  · rename_i e e' hs ht
    rw [hs, ht]
    exact hx
  · exact hx.elim

/-- Each side goes on with its own state. -/
theorem get {k l : σ → Prog σ ε β} (h : Lockstep R (k s) (l t) s t) :
    Lockstep R (get >>= k) (get >>= l) s t := h

/-- Both take the same branch. -/
theorem ite {c : Prop} [Decidable c] {x' y' : Prog σ ε α} (hx : c → Lockstep R x y s t)
    (hy : ¬ c → Lockstep R x' y' s t) :
    Lockstep R (if c then x else x') (if c then y else y') s t := by
  split
  · rename_i hc
    exact hx hc
  · rename_i hc
    exact hy hc

/-- A weaker relation. -/
theorem mono {R' : σ → σ → Prop} (h : Lockstep R x y s t) (hR : ∀ s t, R s t → R' s t) :
    Lockstep R' x y s t := by
  unfold Lockstep at h ⊢
  split at h
  · exact ⟨h.1, hR _ _ h.2⟩
  · exact h
  · exact h.elim

end Lockstep

namespace Relates

/-- A program that returns keeps any relation. -/
theorem pure (a : α) : Relates R (pure a : Prog σ ε α) := fun _ _ h => .pure a h

/-- So does one that stops. -/
theorem throw (e : ε) : Relates R (throw e : Prog σ ε α) := fun _ _ _ => .throw e

/-- One program after another. -/
theorem bind {x : Prog σ ε α} {f : α → Prog σ ε β} (hx : Relates R x)
    (hf : ∀ a, Relates R (f a)) : Relates R (x >>= f) :=
  fun s t h => .bind (hx s t h) fun a s' t' h' => hf a s' t' h'

/-- Either branch. -/
theorem ite {c : Prop} [Decidable c] {x y : Prog σ ε α} (hx : Relates R x) (hy : Relates R y) :
    Relates R (if c then x else y) := by
  split
  · exact hx
  · exact hy

end Relates

end Exec
