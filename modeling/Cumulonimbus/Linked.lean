import Mathlib.Data.Fintype.Card
import Mathlib.Data.List.Nodup

/-!
# Linked sequences

Nodes joined by a successor function that may be null.  `Path next a l b` says that
following `next` from `a` visits exactly the nodes `l` and then stands at `b`.  A path
to null never visits a node twice.  A doubly linked list is a path along `next` and,
backwards, a path along `prev`; putting a node in and taking one out act on both
directions alike, so each is proved once, for paths.

Nothing here depends on the program that is verified with it.
-/

namespace Linked

variable {ν : Type*} {next next' prev prev' : ν → Option ν} {a b c head tail : Option ν}
  {l l₁ l₂ : List ν} {n : ν}

/-- Following `next` from `a` visits exactly `l` and ends at `b`. -/
def Path (next : ν → Option ν) : Option ν → List ν → Option ν → Prop
  | a, [], b => a = b
  | a, n :: l, b => a = some n ∧ Path next (next n) l b

@[simp] theorem path_nil : Path next a [] b ↔ a = b := Iff.rfl

@[simp] theorem path_cons : Path next a (n :: l) b ↔ a = some n ∧ Path next (next n) l b :=
  Iff.rfl

instance Path.decidable [DecidableEq ν] (next : ν → Option ν) :
    ∀ a l b, Decidable (Path next a l b)
  | a, [], b => inferInstanceAs (Decidable (a = b))
  | a, n :: l, b =>
    have : Decidable (Path next (next n) l b) := Path.decidable next (next n) l b
    inferInstanceAs (Decidable (a = some n ∧ Path next (next n) l b))

/-- A path in two parts meets at a node. -/
theorem path_append : Path next a (l₁ ++ l₂) c ↔ ∃ b, Path next a l₁ b ∧ Path next b l₂ c := by
  induction l₁ generalizing a with
  | nil => simp
  | cons n l₁ ih => simp [ih, and_assoc]

/-- Only the nodes on the path matter. -/
theorem Path.congr (h : Path next a l b) (agree : ∀ x ∈ l, next' x = next x) :
    Path next' a l b := by
  induction l generalizing a with
  | nil => exact h
  | cons n l ih =>
    obtain ⟨ha, hl⟩ := h
    refine ⟨ha, ?_⟩
    rw [agree n List.mem_cons_self]
    exact ih hl fun x hx => agree x (List.mem_cons_of_mem n hx)

/-- A path to null starts at its first node. -/
theorem Path.head_eq (h : Path next a l none) : a = l.head? := by
  cases l with
  | nil => exact h
  | cons n l => exact h.1

/-- The node after one of the nodes. -/
theorem Path.next_eq (h : Path next a (l₁ ++ n :: l₂) none) : next n = l₂.head? := by
  obtain ⟨_, -, -, hb⟩ := path_append.mp h
  exact hb.head_eq

/-- The nodes on the way to null are determined by the start. -/
theorem Path.unique (h : Path next a l₁ none) (h' : Path next a l₂ none) : l₁ = l₂ := by
  induction l₁ generalizing a l₂ with
  | nil =>
    have hl : none = l₂.head? := (path_nil.mp h) ▸ h'.head_eq
    exact (List.head?_eq_none_iff.mp hl.symm).symm
  | cons n l₁ ih =>
    cases l₂ with
    | nil => simp [path_cons, path_nil.mp h'] at h
    | cons m l₂ =>
      have hnm : n = m := Option.some.inj (h.1.symm.trans h'.1)
      subst hnm
      rw [ih h.2 h'.2]

/-- The node after the one at a place of the path is the one at the next place. -/
theorem Path.next_of_getElem? (h : Path next a l none) {i : ℕ} (hi : l[i]? = some n) :
    next n = l[i + 1]? := by
  induction l generalizing a i with
  | nil => simp at hi
  | cons m l ih =>
    cases i with
    | zero =>
      obtain rfl : m = n := Option.some.inj hi
      have htail : Path next (next m) l none := h.2
      rw [htail.head_eq, List.getElem?_cons_succ, List.head?_eq_getElem?]
    | succ i => exact ih h.2 hi

/-- A path to null ends at its last node. -/
theorem Path.next_getLast (h : Path next a l none) (hne : l ≠ []) :
    next (l.getLast hne) = none := by
  have hlast : l[l.length - 1]? = some (l.getLast hne) := by
    rw [← List.getLast?_eq_getElem?, List.getLast?_eq_some_getLast hne]
  have hpos := List.length_pos_of_ne_nil hne
  rw [h.next_of_getElem? hlast, List.getElem?_eq_none_iff]
  omega

/-- **A path to null visits no node twice.** -/
theorem Path.nodup (h : Path next a l none) : l.Nodup := by
  induction l generalizing a with
  | nil => exact List.nodup_nil
  | cons n l ih =>
    refine List.nodup_cons.mpr ⟨fun hn => ?_, ih h.2⟩
    -- a second visit would start the same path again, one node shorter
    obtain ⟨l₁, l₂, hl⟩ := List.append_of_mem hn
    have htail : Path next (next n) l none := h.2
    rw [hl, path_append] at htail
    obtain ⟨b, -, -, hb⟩ := htail
    have hsame : l₂ = l := hb.unique h.2
    have hlen := congrArg List.length hl
    rw [hsame, List.length_append, List.length_cons] at hlen
    omega

/-- The nodes from `a` on, as far as the first argument says. -/
def walk (next : ν → Option ν) : Nat → Option ν → List ν
  | _, none => []
  | 0, some _ => []
  | fuel + 1, some n => n :: walk next fuel (next n)

/-- **A walk along a path to null**, with enough fuel, passes its nodes. -/
theorem Path.walk_eq (h : Path next a l none) {fuel : Nat} (hfuel : l.length ≤ fuel) :
    walk next fuel a = l := by
  induction l generalizing a fuel with
  | nil =>
    rw [path_nil.mp h]
    cases fuel <;> rfl
  | cons n l ih =>
    cases fuel with
    | zero => simp at hfuel
    | succ fuel => rw [h.1, walk, ih h.2 (by simpa using hfuel)]

/-- Follow `next` from `a` while `stop` does not hold, for at most as many nodes as the
first argument says. -/
def scan (next : ν → Option ν) (stop : ν → Bool) : Nat → Option ν → Option (Option ν)
  | _, none => some none
  | 0, some _ => none
  | fuel + 1, some n => if stop n then some (some n) else scan next stop fuel (next n)

/-- A scan finds the first node on the path at which it stops. -/
theorem Path.scan_eq (h : Path next a l none) (stop : ν → Bool) {fuel : Nat}
    (hfuel : l.length ≤ fuel) : scan next stop fuel a = some (l.find? stop) := by
  induction l generalizing a fuel with
  | nil =>
    rw [path_nil.mp h]
    cases fuel <;> rfl
  | cons n l ih =>
    cases fuel with
    | zero => simp at hfuel
    | succ fuel =>
      rw [h.1, scan, List.find?_cons]
      cases hn : stop n with
      | true => rfl
      | false => exact ih h.2 (by simpa using hfuel)

/-- Putting a node between two parts of a path to null. -/
theorem Path.insert (h : Path next a (l₁ ++ l₂) none)
    (agree : ∀ x ∈ l₁ ++ l₂, l₁.getLast? ≠ some x → next' x = next x)
    (before : ∀ x, l₁.getLast? = some x → next' x = some n)
    (after : next' n = l₂.head?) :
    Path next' (if l₁ = [] then some n else a) (l₁ ++ n :: l₂) none := by
  induction l₁ generalizing a with
  | nil =>
    have hl : Path next l₂.head? l₂ none := by
      rw [← Path.head_eq (l := l₂) h]
      exact h
    refine ⟨rfl, ?_⟩
    rw [after]
    exact hl.congr fun x hx => agree x (by simpa using hx) (by simp)
  | cons m l₁ ih =>
    have hnodup := h.nodup
    rw [List.cons_append, List.nodup_cons] at hnodup
    rw [if_neg (List.cons_ne_nil m l₁)]
    refine ⟨h.1, ?_⟩
    cases l₁ with
    | nil =>
      rw [before m rfl]
      refine ⟨rfl, ?_⟩
      rw [after, ← Path.head_eq (l := l₂) h.2]
      refine h.2.congr fun x hx => agree x (by simp [show x ∈ l₂ from hx]) ?_
      intro hx'
      have hxm : m = x := by simpa using hx'
      exact hnodup.1 (hxm ▸ hx)
    | cons k l₁ =>
      have hlast : (m :: k :: l₁).getLast? = (k :: l₁).getLast? := List.getLast?_cons_cons
      have hm : next' m = next m := by
        refine agree m List.mem_cons_self fun hx => hnodup.1 ?_
        rw [hlast] at hx
        exact List.mem_append_left _ (List.mem_of_getLast? hx)
      rw [hm]
      have hrest := ih h.2 (fun x hx hx' => agree x (List.mem_cons_of_mem m hx) (by rwa [hlast]))
        (fun x hx => before x (by rwa [hlast]))
      rwa [if_neg (List.cons_ne_nil k l₁)] at hrest

/-- A node is linked to one that ends the path: every path to null still ends. -/
theorem Path.redirect {p : ν} (h : Path next a l none) (hp : next' p = some n)
    (hn : next' n = none) (agree : ∀ x ∈ l, x ≠ p → next' x = next x) :
    ∃ l', Path next' a l' none := by
  induction l generalizing a with
  | nil => exact ⟨[], h⟩
  | cons m l ih =>
    by_cases hmp : m = p
    · exact ⟨[m, n], h.1, by rw [hmp, hp], hn⟩
    · obtain ⟨l', hl'⟩ := ih h.2 fun x hx => agree x (List.mem_cons_of_mem m hx)
      refine ⟨m :: l', h.1, ?_⟩
      rwa [agree m List.mem_cons_self hmp]

/-- A node is made to end the path: every path to null still ends. -/
theorem Path.cut {p : ν} (h : Path next a l none) (hp : next' p = none)
    (agree : ∀ x ∈ l, x ≠ p → next' x = next x) : ∃ l', Path next' a l' none := by
  induction l generalizing a with
  | nil => exact ⟨[], h⟩
  | cons m l ih =>
    by_cases hmp : m = p
    · exact ⟨[m], h.1, by rw [hmp]; exact hp⟩
    · obtain ⟨l', hl'⟩ := ih h.2 fun x hx => agree x (List.mem_cons_of_mem m hx)
      refine ⟨m :: l', h.1, ?_⟩
      rwa [agree m List.mem_cons_self hmp]

/-- A node is linked to the last one of a path to null. -/
theorem Path.extend {p : ν} (h : Path next a l none) (hmem : p ∈ l) (hlast : next p = none)
    (hp : next' p = some n) (hn : next' n = none) (agree : ∀ x ∈ l, x ≠ p → next' x = next x) :
    Path next' a (l ++ [n]) none := by
  induction l generalizing a with
  | nil => cases hmem
  | cons m l ih =>
    refine ⟨h.1, ?_⟩
    by_cases hmp : m = p
    · have htail : Path next (next m) l none := h.2
      rw [hmp, hlast] at htail
      cases l with
      | nil => exact ⟨by rw [hmp, hp], hn⟩
      | cons k l => cases htail.1
    · rw [agree m List.mem_cons_self hmp]
      exact ih h.2 ((List.mem_cons.mp hmem).resolve_left (Ne.symm hmp)) fun x hx =>
        agree x (List.mem_cons_of_mem m hx)

/-- Taking a node out of a path to null. -/
theorem Path.erase (h : Path next a (l₁ ++ n :: l₂) none)
    (agree : ∀ x ∈ l₁ ++ l₂, l₁.getLast? ≠ some x → next' x = next x)
    (before : ∀ x, l₁.getLast? = some x → next' x = next n) :
    Path next' (if l₁ = [] then next n else a) (l₁ ++ l₂) none := by
  induction l₁ generalizing a with
  | nil => exact h.2.congr fun x hx => agree x (by simpa using hx) (by simp)
  | cons m l₁ ih =>
    have hnodup := h.nodup
    rw [List.cons_append, List.nodup_cons] at hnodup
    rw [if_neg (List.cons_ne_nil m l₁)]
    refine ⟨h.1, ?_⟩
    cases l₁ with
    | nil =>
      rw [before m rfl]
      refine h.2.2.congr fun x hx => agree x (by simp [show x ∈ l₂ from hx]) ?_
      intro hx'
      have hxm : m = x := by simpa using hx'
      exact hnodup.1 (hxm ▸ List.mem_cons_of_mem n hx)
    | cons k l₁ =>
      have hlast : (m :: k :: l₁).getLast? = (k :: l₁).getLast? := List.getLast?_cons_cons
      have hm : next' m = next m := by
        refine agree m List.mem_cons_self fun hx => hnodup.1 ?_
        rw [hlast] at hx
        exact List.mem_append_left _ (List.mem_of_getLast? hx)
      rw [hm]
      have hrest := ih h.2 (fun x hx hx' => agree x (List.mem_cons_of_mem m hx) (by rwa [hlast]))
        (fun x hx => before x (by rwa [hlast]))
      rwa [if_neg (List.cons_ne_nil k l₁)] at hrest

/-- A path whose nodes are linked back is a path back. -/
theorem Path.reverse (h : Path next a l none)
    (back : ∀ m ∈ l, ∀ n, next m = some n → prev n = some m)
    (first : ∀ n, a = some n → prev n = b) :
    Path prev (l.getLast?.or b) l.reverse b := by
  induction l generalizing a b with
  | nil => rfl
  | cons m l ih =>
    have htail := ih h.2 (fun k hk => back k (List.mem_cons_of_mem m hk))
      (back m List.mem_cons_self)
    rw [List.getLast?_cons, List.reverse_cons, path_append, Option.some_or]
    refine ⟨some m, ?_, rfl, first m h.1⟩
    cases hlast : l.getLast? with
    | none =>
      rw [hlast] at htail
      exact htail
    | some k =>
      rw [hlast] at htail
      exact htail

/-! ## Doubly linked lists -/

/-- The nodes `l` are linked in both directions, from `head` to `tail`. -/
structure Doubly (next prev : ν → Option ν) (head tail : Option ν) (l : List ν) : Prop where
  forth : Path next head l none
  back : Path prev tail l.reverse none

/-- Links back make a path to null a doubly linked list. -/
theorem Path.doubly (h : Path next a l none)
    (back : ∀ m ∈ l, ∀ n, next m = some n → prev n = some m)
    (first : ∀ n, a = some n → prev n = none) : Doubly next prev a l.getLast? l := by
  have hback := h.reverse back first
  rw [Option.or_none] at hback
  exact ⟨h, hback⟩

/-- Only the links of the nodes in the list matter. -/
theorem Doubly.congr (h : Doubly next prev head tail l) (hnext : ∀ x ∈ l, next' x = next x)
    (hprev : ∀ x ∈ l, prev' x = prev x) : Doubly next' prev' head tail l :=
  ⟨h.forth.congr hnext, h.back.congr fun x hx => hprev x (List.mem_reverse.mp hx)⟩

/-- The tail is the last node. -/
theorem Doubly.tail_eq (h : Doubly next prev head tail l) : tail = l.getLast? := by
  rw [h.back.head_eq, List.head?_reverse]

/-- The neighbours of a node. -/
theorem Doubly.next_eq (h : Doubly next prev head tail (l₁ ++ n :: l₂)) : next n = l₂.head? :=
  h.forth.next_eq

/-- The first node links to the second. -/
theorem Doubly.next_first (h : Doubly next prev head tail (n :: l₂)) : next n = l₂.head? := by
  have hsplit : Doubly next prev head tail ([] ++ n :: l₂) := h
  exact hsplit.next_eq

/-- A node links back to the one in front of it. -/
theorem Doubly.prev_eq (h : Doubly next prev head tail (l₁ ++ n :: l₂)) :
    prev n = l₁.getLast? := by
  have hback := h.back
  rw [List.reverse_append, List.reverse_cons, List.append_assoc, List.singleton_append,
    path_append] at hback
  obtain ⟨b, -, -, hb⟩ := hback
  rw [hb.head_eq, List.head?_reverse]

/-- The first node links back to nothing. -/
theorem Doubly.prev_first (h : Doubly next prev head tail (n :: l₂)) : prev n = none := by
  have hsplit : Doubly next prev head tail ([] ++ n :: l₂) := h
  exact hsplit.prev_eq

/-- The two directions are inverse to each other. -/
theorem Doubly.inverse (h : Doubly next prev head tail l) {m : ν} (hn : n ∈ l) (hm : m ∈ l) :
    next n = some m ↔ prev m = some n := by
  constructor
  · intro hnm
    obtain ⟨l₁, l₂, hl⟩ := List.append_of_mem hn
    have hd := h
    rw [hl] at hd
    obtain ⟨l₃, rfl⟩ : ∃ l₃, l₂ = m :: l₃ := by
      rw [hd.next_eq] at hnm
      exact List.head?_eq_some_iff.mp hnm
    have hd' : Doubly next prev head tail ((l₁ ++ [n]) ++ m :: l₃) := by simpa using hd
    rw [hd'.prev_eq, List.getLast?_concat]
  · intro hmn
    obtain ⟨l₁, l₂, hl⟩ := List.append_of_mem hm
    have hd := h
    rw [hl] at hd
    obtain ⟨l₃, rfl⟩ : ∃ l₃, l₁ = l₃ ++ [n] := by
      rw [hd.prev_eq] at hmn
      exact List.getLast?_eq_some_iff.mp hmn
    have hd' : Doubly next prev head tail (l₃ ++ n :: (m :: l₂)) := by simpa using hd
    rw [hd'.next_eq, List.head?_cons]

/-- **A node is linked in** between two parts of a list. -/
theorem Doubly.insert (h : Doubly next prev head tail (l₁ ++ l₂))
    (next_agree : ∀ x ∈ l₁ ++ l₂, l₁.getLast? ≠ some x → next' x = next x)
    (next_before : ∀ x, l₁.getLast? = some x → next' x = some n)
    (next_new : next' n = l₂.head?)
    (prev_agree : ∀ x ∈ l₁ ++ l₂, l₂.head? ≠ some x → prev' x = prev x)
    (prev_after : ∀ x, l₂.head? = some x → prev' x = some n)
    (prev_new : prev' n = l₁.getLast?) :
    Doubly next' prev' (if l₁ = [] then some n else head) (if l₂ = [] then some n else tail)
      (l₁ ++ n :: l₂) := by
  refine ⟨h.forth.insert next_agree next_before next_new, ?_⟩
  have hback := h.back
  rw [List.reverse_append] at hback
  have hins : Path prev' _ (l₂.reverse ++ n :: l₁.reverse) none := hback.insert
    (fun x hx hx' => prev_agree x (by simpa [or_comm] using hx)
      (by rwa [List.getLast?_reverse] at hx'))
    (fun x hx => prev_after x (by rwa [List.getLast?_reverse] at hx))
    (by rw [prev_new, List.head?_reverse])
  simpa using hins

/-- Putting a node at the end. -/
theorem Doubly.push (h : Doubly next prev head tail l)
    (next_agree : ∀ x ∈ l, l.getLast? ≠ some x → next' x = next x)
    (next_last : ∀ x, l.getLast? = some x → next' x = some n) (next_new : next' n = none)
    (prev_agree : ∀ x ∈ l, prev' x = prev x) (prev_new : prev' n = tail) :
    Doubly next' prev' (if l = [] then some n else head) (some n) (l ++ [n]) := by
  have hsplit : Doubly next prev head tail (l ++ []) := by simpa using h
  have hnew : prev' n = l.getLast? := by rw [prev_new, h.tail_eq]
  have hins : Doubly next' prev' _ _ (l ++ n :: []) := hsplit.insert (by simpa using next_agree)
    next_last next_new (by simpa using prev_agree) (by simp) hnew
  simpa using hins

/-- **A node is unlinked** from between two parts. -/
theorem Doubly.erase (h : Doubly next prev head tail (l₁ ++ n :: l₂))
    (next_agree : ∀ x ∈ l₁ ++ l₂, l₁.getLast? ≠ some x → next' x = next x)
    (next_before : ∀ x, l₁.getLast? = some x → next' x = next n)
    (prev_agree : ∀ x ∈ l₁ ++ l₂, l₂.head? ≠ some x → prev' x = prev x)
    (prev_after : ∀ x, l₂.head? = some x → prev' x = prev n) :
    Doubly next' prev' (if l₁ = [] then next n else head) (if l₂ = [] then prev n else tail)
      (l₁ ++ l₂) := by
  refine ⟨h.forth.erase next_agree next_before, ?_⟩
  have hback := h.back
  rw [List.reverse_append, List.reverse_cons, List.append_assoc, List.singleton_append] at hback
  have hers : Path prev' _ (l₂.reverse ++ l₁.reverse) none := hback.erase
    (fun x hx hx' => prev_agree x (by simpa [or_comm] using hx)
      (by rwa [List.getLast?_reverse] at hx'))
    (fun x hx => prev_after x (by rwa [List.getLast?_reverse] at hx))
  simpa using hers

/-! ## Null pointers -/

section Pointers

variable [DecidableEq ν] {null : ν}

/-- An address that may be null. -/
def pointer (null a : ν) : Option ν := if a = null then none else some a

@[simp] theorem pointer_null (null : ν) : pointer null null = none := if_pos rfl

/-- A pointer that is not null points somewhere. -/
theorem pointer_of_ne {a : ν} (h : a ≠ null) : pointer null a = some a := if_neg h

/-- Where a pointer points to. -/
theorem pointer_eq_some {a b : ν} : pointer null a = some b ↔ a ≠ null ∧ a = b := by
  rw [pointer]
  split
  case isTrue h => simp [h]
  case isFalse h => simp [h]

/-- Only null points nowhere. -/
theorem pointer_eq_none {a : ν} : pointer null a = none ↔ a = null := by
  rw [pointer]
  split
  case isTrue h => simp [h]
  case isFalse h => simp [h]

end Pointers

/-- A list of addresses is no longer than there are 32-bit numbers. -/
theorem Path.length_addresses {next : UInt32 → Option UInt32} {a : Option UInt32}
    {l : List UInt32} (h : Path next a l none) : l.length ≤ 4294967296 := by
  have hnodup : (l.map UInt32.toFin).Nodup :=
    h.nodup.map fun x y hxy => UInt32.toFin_inj.mp hxy
  have hlen := hnodup.length_le_card
  rwa [List.length_map, Fintype.card_fin] at hlen

/-- A list without repetitions over a finite type is no longer than the type. -/
theorem Path.length_le [Fintype ν] (h : Path next a l none) : l.length ≤ Fintype.card ν :=
  h.nodup.length_le_card

end Linked
