import Mathlib.Data.List.Perm.Basic
import Mathlib.Order.Lattice

/-!
# Tilings by intervals

A list of half-open intervals `[a, c)` tiles a set if they are not empty, no two of them share
a point, and together they cover the set.  Cutting an interval in two and joining two that touch
are the same law read in two directions, and the order of the list does not matter.

Nothing here depends on the program that is verified with it.
-/

namespace Tiling

variable {α : Type*} [LinearOrder α] {x y : α × α} {l l' : List (α × α)} {M : α → Prop}
  {a b c w : α}

/-- One of two intervals ends before the other begins. -/
def Apart (x y : α × α) : Prop := x.2 ≤ y.1 ∨ y.2 ≤ x.1

theorem Apart.symm (h : Apart x y) : Apart y x := Or.symm h

/-- The intervals are disjoint and cover `M`. -/
structure Tiles (l : List (α × α)) (M : α → Prop) : Prop where
  proper : ∀ x ∈ l, x.1 < x.2
  apart : l.Pairwise Apart
  cover : ∀ w, (∃ x ∈ l, x.1 ≤ w ∧ w < x.2) ↔ M w

theorem Tiles.perm (h : Tiles l M) (p : l.Perm l') : Tiles l' M := by
  refine ⟨fun x hx => h.proper x (p.mem_iff.mpr hx), p.pairwise h.apart fun hxy => hxy.symm, ?_⟩
  intro w
  rw [← h.cover w]
  exact exists_congr fun x => and_congr_left fun _ => p.mem_iff.symm

/-- What is apart from an interval is apart from its parts. -/
theorem Apart.cut (h : Apart (a, c) x) (hab : a < b) (hbc : b < c) :
    Apart (a, b) x ∧ Apart (b, c) x := by
  rcases h with h | h
  · exact ⟨.inl (hbc.le.trans h), .inl h⟩
  · exact ⟨.inr h, .inr (h.trans hab.le)⟩

/-- What is apart from two intervals that touch is apart from both together. -/
theorem Apart.join (hx : x.1 < x.2) (h : Apart (a, b) x) (h' : Apart (b, c) x) :
    Apart (a, c) x := by
  rcases h with h | h
  · rcases h' with h' | h'
    · exact .inl h'
    · exact absurd (h.trans_lt (hx.trans_le h')) (lt_irrefl b)
  · exact .inr h

/-- **Cutting and joining.** -/
theorem tiles_cut (hab : a < b) (hbc : b < c) :
    Tiles ((a, c) :: l) M ↔ Tiles ((a, b) :: (b, c) :: l) M := by
  have hpoint (w : α) : (a ≤ w ∧ w < c) ↔ (a ≤ w ∧ w < b) ∨ (b ≤ w ∧ w < c) := by
    constructor
    · intro h
      rcases lt_or_ge w b with hw | hw
      · exact .inl ⟨h.1, hw⟩
      · exact .inr ⟨hw, h.2⟩
    · intro h
      rcases h with h | h
      · exact ⟨h.1, h.2.trans hbc⟩
      · exact ⟨hab.le.trans h.1, h.2⟩
  constructor
  · intro h
    have hpair := List.pairwise_cons.mp h.apart
    refine ⟨?_, ?_, fun w => ?_⟩
    · simp only [List.mem_cons, forall_eq_or_imp]
      exact ⟨hab, hbc, fun x hx => h.proper x (List.mem_cons_of_mem _ hx)⟩
    · simp only [List.pairwise_cons, List.mem_cons, forall_eq_or_imp]
      have hcut (x : α × α) (hx : x ∈ l) := (hpair.1 x hx).cut hab hbc
      exact ⟨⟨.inl le_rfl, fun x hx => (hcut x hx).1⟩, fun x hx => (hcut x hx).2, hpair.2⟩
    · rw [← h.cover w]
      simp only [List.mem_cons, exists_eq_or_imp, hpoint, or_assoc]
  · intro h
    have hpair := List.pairwise_cons.mp h.apart
    have hpair' := List.pairwise_cons.mp hpair.2
    have hproper (x : α × α) (hx : x ∈ l) := h.proper x
      (List.mem_cons_of_mem _ (List.mem_cons_of_mem _ hx))
    refine ⟨?_, ?_, fun w => ?_⟩
    · simp only [List.mem_cons, forall_eq_or_imp]
      exact ⟨hab.trans hbc, hproper⟩
    · refine List.pairwise_cons.mpr ⟨fun x hx => ?_, hpair'.2⟩
      exact .join (hproper x hx) (hpair.1 x (List.mem_cons_of_mem _ hx)) (hpair'.1 x hx)
    · rw [← h.cover w]
      simp only [List.mem_cons, exists_eq_or_imp, hpoint, or_assoc]

end Tiling
