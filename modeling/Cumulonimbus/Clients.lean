import Cumulonimbus.Exec

/-!
# Programs that know their store by its calls only

A client makes calls, each of them chosen by what the calls before it have answered.  It can be run
over anything that serves the calls.  If one server does what another one does, call by call and up
to a relation between their states, then so does every client over it (`Client.simulation`).

`Made serve x` is such a client that over the server `serve` is the computation `x`; the operations
below put it together along the binds of `x`.

Nothing here depends on the program that is verified with it.
-/

namespace Exec

variable {Q : Type} {A : Q → Type} {ε ε' σ τ α β γ : Type}

/-- A program that makes the calls `Q`, which are answered by `A`. -/
inductive Client (Q : Type) (A : Q → Type) (ε α : Type)
  | done (a : α)
  | halt (e : ε)
  | ask (q : Q) (k : A q → Client Q A ε α)

namespace Client

/-- The client over a store. -/
def on (serve : (q : Q) → Prog σ ε' (A q)) (halts : ε → ε') : Client Q A ε α → Prog σ ε' α
  | done a => pure a
  | halt e => throw (halts e)
  | ask q k => do
    let a ← serve q
    on serve halts (k a)

def bind : Client Q A ε α → (α → Client Q A ε β) → Client Q A ε β
  | done a, f => f a
  | halt e, _ => halt e
  | ask q k, f => ask q fun a => (k a).bind f

/-- **A client asks for one thing after the other**, whoever serves it. -/
theorem on_bind (serve : (q : Q) → Prog σ ε' (A q)) (halts : ε → ε') (x : Client Q A ε α)
    (f : α → Client Q A ε β) :
    (x.bind f).on serve halts = x.on serve halts >>= fun a => (f a).on serve halts := by
  induction x with
  | done a => rfl
  | halt e => rfl
  | ask q k ih =>
    rw [bind, on, on, bind_assoc]
    exact congrArg _ (funext ih)

/-- One server does what the other one does. -/
def Simulates (R : σ → τ → Prop) (serve : (q : Q) → Prog σ ε (A q))
    (serve' : (q : Q) → Prog τ ε' (A q)) : Prop :=
  ∀ q s t, R s t → wp (serve q) (fun a s' => wp (serve' q) (fun b t' => b = a ∧ R s' t')
    (fun _ => False) t) (fun _ => False) s

/-- **Clients do not tell the stores apart.** -/
theorem simulation {R : σ → τ → Prop} {serve : (q : Q) → Prog σ ε (A q)}
    {serve' : (q : Q) → Prog τ ε' (A q)} {g : ε → ε'} (hsim : Simulates R serve serve')
    (x : Client Q A ε α) {s : σ} {t : τ} (hR : R s t) :
    wp (x.on serve id)
      (fun a s' => wp (x.on serve' g) (fun b t' => b = a ∧ R s' t') (fun _ => False) t)
      (fun e => x.on serve' g t = .error (g e)) s := by
  induction x generalizing s t with
  | done a => exact ⟨rfl, hR⟩
  | halt e => exact rfl
  | ask q k ih =>
    obtain ⟨a, s', hs, hserve⟩ := wp_returns (hsim q s t hR)
    obtain ⟨b, t', ht, rfl, hR'⟩ := wp_returns hserve
    have hleft : (Client.ask q k).on serve id s = (k b).on serve id s' := by
      rw [on]
      simp only [Bind.bind, StateT.bind, hs, Except.bind]
    have hright : (Client.ask q k).on serve' g t = (k b).on serve' g t' := by
      rw [on]
      simp only [Bind.bind, StateT.bind, ht, Except.bind]
    have hk := ih b hR'
    unfold wp at hk ⊢
    rw [hleft, hright]
    exact hk

/-- **What a client returns** over one server it returns over the other. -/
theorem simulation_ok {R : σ → τ → Prop} {serve : (q : Q) → Prog σ ε (A q)}
    {serve' : (q : Q) → Prog τ ε' (A q)} {g : ε → ε'} (hsim : Simulates R serve serve')
    {x : Client Q A ε α} {s s' : σ} {t : τ} {a : α} (hR : R s t)
    (hx : x.on serve id s = .ok (a, s')) :
    ∃ t', x.on serve' g t = .ok (a, t') ∧ R s' t' := by
  have hpost := wp_ok (simulation (g := g) hsim x hR) hx
  obtain ⟨b, t', ht, rfl, hR'⟩ := wp_returns hpost
  exact ⟨t', ht, hR'⟩

/-- What it stops with over one server it stops with over the other. -/
theorem simulation_error {R : σ → τ → Prop} {serve : (q : Q) → Prog σ ε (A q)}
    {serve' : (q : Q) → Prog τ ε' (A q)} {g : ε → ε'} (hsim : Simulates R serve serve')
    {x : Client Q A ε α} {s : σ} {t : τ} {e : ε} (hR : R s t) (hx : x.on serve id s = .error e) :
    x.on serve' g t = .error (g e) := by
  have hhalt := wp_error (simulation (g := g) hsim x hR) hx
  exact hhalt

end Client

/-- A client that over the server is the computation. -/
structure Made (serve : (q : Q) → Prog σ ε (A q)) (x : Prog σ ε α) where
  client : Client Q A ε α
  on_eq : client.on serve id = x

namespace Made

variable {serve : (q : Q) → Prog σ ε (A q)}

/-- A client of an equal computation. -/
def of_eq {x y : Prog σ ε α} (m : Made serve x) (h : x = y) : Made serve y :=
  ⟨m.client, m.on_eq.trans h⟩

/-- A value is made without asking. -/
def pure (a : α) : Made serve (pure a : Prog σ ε α) := ⟨.done a, rfl⟩

/-- So is an error. -/
def throw (e : ε) : Made serve (throw e : Prog σ ε α) := ⟨.halt e, rfl⟩

/-- A request is made by asking. -/
def ask (q : Q) : Made serve (serve q) := ⟨.ask q .done, bind_pure (serve q)⟩

/-- One part after the other. -/
def bind {x : Prog σ ε α} {f : α → Prog σ ε β} (m : Made serve x)
    (k : ∀ a, Made serve (f a)) : Made serve (x >>= f) where
  client := m.client.bind fun a => (k a).client
  on_eq := by
    rw [Client.on_bind, m.on_eq]
    exact congrArg _ (funext fun a => (k a).on_eq)

/-- A value computed from what was returned. -/
def map {x : Prog σ ε α} (f : α → β) (m : Made serve x) : Made serve (f <$> x) :=
  (m.bind fun a => pure (f a)).of_eq (map_eq_pure_bind f x).symm

/-- Either branch. -/
def ite {c : Prop} [Decidable c] {x y : Prog σ ε α} (m : Made serve x) (m' : Made serve y) :
    Made serve (if c then x else y) where
  client := if c then m.client else m'.client
  on_eq := by
    split
    · exact m.on_eq
    · exact m'.on_eq

/-- A loop with an accumulator. -/
def foldlM {f : α → γ → Prog σ ε α} (m : ∀ a c, Made serve (f a c)) :
    (l : List γ) → (a : α) → Made serve (l.foldlM f a)
  | [], a => pure a
  | c :: l, a => (m a c).bind (foldlM m l)

/-- A loop over a list. -/
def forM {f : γ → Prog σ ε PUnit} (m : ∀ c, Made serve (f c)) :
    (l : List γ) → Made serve (forM l f)
  | [] => pure PUnit.unit
  | c :: l => (m c).bind fun _ => forM m l

/-- What the calls do to the state at most, the computation does. -/
theorem respects {R : σ → σ → Prop} (hrefl : ∀ s, R s s) (htrans : ∀ s t u, R s t → R t u → R s u)
    (hserve : ∀ q s, wp (serve q) (fun _ t => R s t) (fun _ => True) s) {x : Prog σ ε α}
    (m : Made serve x) (s : σ) : wp x (fun _ t => R s t) (fun _ => True) s := by
  obtain ⟨y, rfl⟩ := m
  induction y generalizing s with
  | done a => exact hrefl s
  | halt e => exact trivial
  | ask q k ih =>
    refine wp_seq (hserve q s) fun a t ht => ?_
    exact wp_mono (ih a t) (fun _ u hu => htrans s t u ht hu) fun _ he => he

end Made

end Exec
