import Mathlib.Data.List.Forall2
import Cumulonimbus.Exec

/-!
# Programs that do what a specification does

A specification is a program too, on states of its own.  `Matches R H V x y s t` says that `x`,
started in `s`, does what `y` does from `t`: it returns when `y` returns, with a value that fits
(`V`) and in a state that fits (`R`), and it halts when `y` halts, for the reason that `H` makes of
the reason of `y`.  Where `H` makes nothing of it, the specification is silent and `x` is free.

Nothing here depends on the program that is verified with it.
-/

namespace Exec

variable {σ τ ε δ α β α' β' ι : Type}

def Matches (R : σ → τ → Prop) (H : δ → Option ε) (V : α → β → Prop) (x : Prog σ ε α)
    (y : Prog τ δ β) (s : σ) (t : τ) : Prop :=
  match y t with
  | .ok (b, t') => ∃ a s', x s = .ok (a, s') ∧ V a b ∧ R s' t'
  | .error e => ∀ r, H e = some r → x s = .error r

namespace Matches

variable {R : σ → τ → Prop} {H : δ → Option ε} {V : α → β → Prop} {W : α' → β' → Prop}
  {x : Prog σ ε α} {y : Prog τ δ β} {f : α → Prog σ ε α'} {g : β → Prog τ δ β'}
  {k : Prog σ ε α'} {m : Prog τ δ β'} {s : σ} {t : τ}

/-! ## What follows -/

/-- Where the abstract program returns, the other one returns alike. -/
theorem of_ok (h : Matches R H V x y s t) {b : β} {t' : τ} (hy : y t = .ok (b, t')) :
    ∃ a s', x s = .ok (a, s') ∧ V a b ∧ R s' t' := by
  rw [Matches, hy] at h
  exact h

/-- Where it stops with an error that counts, the other one stops as well. -/
theorem of_error (h : Matches R H V x y s t) {e : δ} {r : ε} (hy : y t = .error e)
    (hr : H e = some r) : x s = .error r := by
  rw [Matches, hy] at h
  exact h r hr

/-- Weaker relations. -/
theorem mono {R' : σ → τ → Prop} {V' : α → β → Prop} (h : Matches R H V x y s t)
    (hV : ∀ a b, V a b → V' a b) (hR : ∀ s' t', R s' t' → R' s' t') :
    Matches R' H V' x y s t := by
  unfold Matches at h ⊢
  cases hy : y t with
  | error e =>
    rw [hy] at h
    exact h
  | ok out =>
    rw [hy] at h
    obtain ⟨a, s', hx, ha, hs⟩ := h
    exact ⟨a, s', hx, hV a _ ha, hR s' _ hs⟩

/-- What the specification wants is all that `x` does. -/
theorem of_wp {b : β} {t' : τ} (hy : y t = .ok (b, t'))
    (hx : wp x (fun a s' => V a b ∧ R s' t') (fun _ => False) s) : Matches R H V x y s t := by
  obtain ⟨a, s', hrun, hpost⟩ := wp_returns hx
  rw [Matches, hy]
  exact ⟨a, s', hrun, hpost⟩

/-! ## Both take a step -/

/-- Both return. -/
theorem pure {a : α} {b : β} (ha : V a b) (hR : R s t) :
    Matches R H V (pure a) (pure b) s t :=
  ⟨a, s, rfl, ha, hR⟩

/-- Both stop. -/
theorem throw {e : δ} {r : ε} (hr : H e = some r) :
    Matches R H V (throw r) (throw e) s t := by
  intro r' hr'
  obtain rfl := Option.some.inj (hr.symm.trans hr')
  rfl

/-- The specification is silent. -/
theorem waive {e : δ} (he : H e = none) : Matches R H V x (MonadExcept.throw e) s t := by
  intro r hr
  rw [he] at hr
  cases hr

/-- Both change their state. -/
theorem modify {u : σ → σ} {v : τ → τ} (hR : R (u s) (v t)) :
    Matches R H (fun _ _ => True) (modify u) (modify v) s t :=
  ⟨PUnit.unit, u s, rfl, trivial, hR⟩

/-- **Both go on** from related values in related states. -/
theorem bind {P : σ → τ → Prop} (h : Matches P H V x y s t)
    (hf : ∀ a b s' t', V a b → P s' t' → Matches R H W (f a) (g b) s' t') :
    Matches R H W (x >>= f) (y >>= g) s t := by
  have hx : ∀ s, (x >>= f) s = (x s).bind fun out => f out.1 out.2 := fun s => rfl
  have hy : (y >>= g) t = (y t).bind fun out => g out.1 out.2 := rfl
  unfold Matches at h ⊢
  rw [hy, hx]
  cases hrun : y t with
  | error e =>
    rw [hrun] at h
    intro r hr
    rw [h r hr]
    rfl
  | ok out =>
    rw [hrun] at h
    obtain ⟨a, s', ha, hV, hR⟩ := h
    rw [ha]
    exact hf a out.1 s' out.2 hV hR

/-- Both take the same branch. -/
theorem ite {c : Prop} [Decidable c] {x' : Prog σ ε α} {y' : Prog τ δ β}
    (htrue : c → Matches R H V x y s t) (hfalse : ¬ c → Matches R H V x' y' s t) :
    Matches R H V (if c then x else x') (if c then y else y') s t := by
  by_cases hc : c
  · rw [if_pos hc, if_pos hc]
    exact htrue hc
  · rw [if_neg hc, if_neg hc]
    exact hfalse hc

/-- The rule for loops over lists that correspond. -/
theorem forM_of {κ : Type} {P : ι → κ → Prop} {u : ι → Prog σ ε PUnit} {v : κ → Prog τ δ PUnit}
    {l : List ι} {l' : List κ} (hl : List.Forall₂ P l l')
    (step : ∀ i j, P i j → ∀ s t, R s t → Matches R H (fun _ _ => True) (u i) (v j) s t)
    (hR : R s t) : Matches R H (fun _ _ => True) (forM l u) (forM l' v) s t := by
  induction hl generalizing s t with
  | nil => exact Matches.pure trivial hR
  | cons hij _ ih =>
    rw [List.forM_cons, List.forM_cons]
    refine (step _ _ hij s t hR).bind fun _ _ s' t' _ hR' => ?_
    exact ih hR'

/-- The rule for loops over one list. -/
theorem forM {u : ι → Prog σ ε PUnit} {v : ι → Prog τ δ PUnit}
    (step : ∀ i s t, R s t → Matches R H (fun _ _ => True) (u i) (v i) s t) (l : List ι)
    (hR : R s t) : Matches R H (fun _ _ => True) (forM l u) (forM l v) s t :=
  forM_of (P := Eq) (List.forall₂_refl l) (fun _ j hij s t hR => hij ▸ step j s t hR) hR

/-! ## One of them takes a step -/

/-- The first program goes on alone. -/
theorem left {Q : α → σ → Prop} (hx : wp x Q (fun _ => False) s)
    (hf : ∀ a s', Q a s' → Matches R H W (f a) m s' t) : Matches R H W (x >>= f) m s t := by
  obtain ⟨a, s', hrun, hQ⟩ := wp_returns hx
  have hstep : (x >>= f) s = f a s' := by
    show (x s).bind (fun out => f out.1 out.2) = _
    rw [hrun]
    rfl
  unfold Matches
  rw [hstep]
  exact hf a s' hQ

/-- What follows `x` does not show in the state of the specification. -/
theorem after {P : σ → τ → Prop} {U : α' → β → Prop} (h : Matches P H V x y s t)
    (hf : ∀ a b s' t', V a b → P s' t' →
      wp (f a) (fun c s'' => U c b ∧ R s'' t') (fun _ => False) s') :
    Matches R H U (x >>= f) y s t := by
  have hx : ∀ s, (x >>= f) s = (x s).bind fun out => f out.1 out.2 := fun s => rfl
  unfold Matches at h ⊢
  rw [hx]
  cases hrun : y t with
  | error e =>
    rw [hrun] at h
    intro r hr
    rw [h r hr]
    rfl
  | ok out =>
    rw [hrun] at h
    obtain ⟨a, s', ha, hV, hR⟩ := h
    obtain ⟨c, s'', hc, hU, hR'⟩ := wp_returns (hf a out.1 s' out.2 hV hR)
    rw [ha]
    exact ⟨c, s'', hc, hU, hR'⟩

/-- It does so by changing its state. -/
theorem left_modify {u : σ → σ} {f : PUnit → Prog σ ε α'} (hf : Matches R H W (f ⟨⟩) m (u s) t) :
    Matches R H W (MonadState.modifyGet (fun s => (⟨⟩, u s)) >>= f) m s t :=
  hf

/-- It does so by reading its state. -/
theorem left_get {f : σ → Prog σ ε α'} (hf : Matches R H W (f s) m s t) :
    Matches R H W (get >>= f) m s t :=
  hf

/-- The abstract program goes on alone. -/
theorem right {b : β} {t' : τ} (hy : y t = .ok (b, t')) (hg : Matches R H W k (g b) s t') :
    Matches R H W k (y >>= g) s t := by
  have hstep : (y >>= g) t = g b t' := by
    show (y t).bind (fun out => g out.1 out.2) = _
    rw [hy]
    rfl
  unfold Matches
  rw [hstep]
  exact hg

/-- It does so by reading its state. -/
theorem right_get {g : τ → Prog τ δ β'} (hg : Matches R H W k (g t) s t) :
    Matches R H W k (get >>= g) s t :=
  hg

end Matches

end Exec
