import Mathlib.Data.List.Basic
import Mathlib.Tactic.SplitIfs

/-!
# Ring buffers

A ring of `N` slots with a position to take from and a position to put to.  The ring is empty if
the two are equal, so one slot stays open and it holds a queue of at most `N - 1` elements.

Nothing here depends on the program that is verified with it.
-/

namespace Ring

variable {α : Type} {N head tail : ℕ} {slots slots' : ℕ → α} {l : List α} {x : α}

/-- Add an element to a queue that holds at most `cap`. -/
def put (cap : ℕ) (l : List α) (x : α) : List α := if l.length < cap then l ++ [x] else l

/-- There is room. -/
theorem put_of_lt {cap : ℕ} (h : l.length < cap) : put cap l x = l ++ [x] := if_pos h

/-- There is none. -/
theorem put_of_full {cap : ℕ} (h : ¬ l.length < cap) : put cap l x = l := if_neg h

/-- The position `i` slots after `k`, for `k` and `i` within the ring. -/
def place (N k i : ℕ) : ℕ := if k + i < N then k + i else k + i - N

/-- A place is in the ring. -/
theorem place_lt {k i : ℕ} (hk : k < N) (hi : i < N) : place N k i < N := by
  unfold place
  split <;> omega

/-- The first place is the start. -/
theorem place_zero {k : ℕ} (hk : k < N) : place N k 0 = k := by
  unfold place
  split <;> omega

/-- Places within one round are different. -/
theorem place_inj {k i j : ℕ} (hi : i < N) (hj : j < N) (h : place N k i = place N k j) :
    i = j := by
  unfold place at h
  split at h <;> split at h <;> omega

/-- From the next place on. -/
theorem place_place_one {k i : ℕ} (hk : k < N) (hi : i + 1 < N) :
    place N (place N k 1) i = place N k (i + 1) := by
  unfold place
  split_ifs <;> omega

/-- The place behind a place; from the last to the first. -/
theorem place_one_place {k i : ℕ} (hk : k < N) (hi : i + 1 ≤ N) :
    place N (place N k i) 1 = if i + 1 < N then place N k (i + 1) else k := by
  unfold place
  split_ifs <;> omega

/-- The ring holds the queue `l`. -/
structure Holds (N : ℕ) (slots : ℕ → α) (head tail : ℕ) (l : List α) : Prop where
  head_lt : head < N
  length_lt : l.length < N
  tail_eq : tail = place N head l.length
  slot : ∀ i (hi : i < l.length), slots (place N head i) = l[i]

/-- An empty ring. -/
theorem Holds.nil (slots : ℕ → α) (h : head < N) : Holds N slots head head [] :=
  ⟨h, Nat.lt_of_le_of_lt (Nat.zero_le _) h, (place_zero h).symm, fun _ hi => absurd hi (by simp)⟩

/-- The positions are equal in an empty ring only. -/
theorem Holds.empty_iff (h : Holds N slots head tail l) : head = tail ↔ l = [] := by
  have hN := h.length_lt
  rw [h.tail_eq, ← List.length_eq_zero_iff]
  constructor
  · intro heq
    exact (place_inj (by omega) hN ((place_zero h.head_lt).trans heq)).symm
  · intro heq
    rw [heq, place_zero h.head_lt]

/-- Going on from the open slot leads to the head in a full ring only. -/
theorem Holds.full_iff (h : Holds N slots head tail l) :
    place N tail 1 = head ↔ ¬ l.length < N - 1 := by
  have hN := h.length_lt
  have hhead := h.head_lt
  rw [h.tail_eq, place_one_place hhead hN]
  split
  · rename_i hroom
    refine iff_of_false (fun heq => ?_) (by omega)
    have hzero := place_inj (k := head) hroom (by omega : 0 < N) (by rw [heq, place_zero hhead])
    omega
  · exact iff_of_true rfl (by omega)

/-- Putting an element where there is room. -/
theorem Holds.push (h : Holds N slots head tail l) (room : l.length < N - 1)
    (hx : slots' tail = x) (agree : ∀ k, k ≠ tail → slots' k = slots k) :
    Holds N slots' head (place N tail 1) (l ++ [x]) := by
  have hlen : l.length + 1 < N := by omega
  refine ⟨h.head_lt, by simpa using hlen, ?_, fun i hi => ?_⟩
  · rw [h.tail_eq, place_one_place h.head_lt (by omega), if_pos hlen, List.length_append]
    rfl
  · rw [List.length_append, List.length_singleton] at hi
    by_cases hlast : i = l.length
    · subst hlast
      rw [← h.tail_eq, hx]
      simp
    · have hlt : i < l.length := by omega
      rw [agree, h.slot i hlt, List.getElem_append_left hlt]
      rw [h.tail_eq]
      intro heq
      exact hlast (place_inj (by omega) h.length_lt heq)

/-- Taking the first element. -/
theorem Holds.pop (h : Holds N slots head tail (x :: l)) :
    slots head = x ∧ Holds N slots (place N head 1) tail l := by
  have hlen : l.length + 1 < N := h.length_lt
  have hhead := h.head_lt
  constructor
  · have hfirst := h.slot 0 (by simp)
    rwa [place_zero hhead] at hfirst
  · refine ⟨place_lt hhead (by omega), by omega, ?_, fun i hi => ?_⟩
    · rw [place_place_one hhead hlen, h.tail_eq]
      rfl
    · rw [place_place_one hhead (by omega)]
      exact h.slot (i + 1) (by simpa using hi)

/-- The distance from the head to the open slot is the length. -/
theorem Holds.length_eq (h : Holds N slots head tail l) :
    l.length = if tail < head then tail + N - head else tail - head := by
  have hN := h.length_lt
  have hhead := h.head_lt
  have htail := h.tail_eq
  unfold place at htail
  split at htail <;> split <;> omega

end Ring
