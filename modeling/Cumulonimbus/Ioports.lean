import Cumulonimbus.Exec

/-!
# I/O ports

`ioports.c` hands out ports from 0x1000 up to 0xF000.  It rounds the end of a block up to the
alignment and moves the start by as much, and it does so with 16-bit numbers before it compares
the end with the limit.  So the start is aligned only if the amount is a multiple of the
alignment, and an end past 0xFFFF passes for a small one.
-/

namespace Cumulonimbus.Ioports

open Exec

/-- The variable of `ioports.c`. -/
structure Ports where
  currentPort : UInt16

def lastPort : UInt16 := 0xF000

def ioportsInit : Ports := ⟨0x1000⟩

/-- The first port of a new block, or 0 if there is none. -/
def allocatePortsAlign (amount alignment : UInt16) (s : Ports) : UInt16 × Ports :=
  let newCurrentPort := s.currentPort + amount
  let alignOffset := alignment - newCurrentPort % alignment
  let alignOffset := if alignOffset = alignment then 0 else alignOffset
  let newCurrentPort := newCurrentPort + alignOffset
  if newCurrentPort ≤ lastPort then (s.currentPort + alignOffset, ⟨newCurrentPort⟩) else (0, s)

def allocatePorts (amount : UInt16) (s : Ports) : UInt16 × Ports := allocatePortsAlign amount 1 s

/-- A call of one of the two. -/
inductive Request
  | ports (amount : UInt16)
  | portsAlign (amount alignment : UInt16)

namespace Request

def amount : Request → UInt16
  | .ports amount => amount
  | .portsAlign amount _ => amount

def alignment : Request → UInt16
  | .ports _ => 1
  | .portsAlign _ alignment => alignment

def call (s : Ports) : Request → UInt16 × Ports
  | .ports amount => allocatePorts amount s
  | .portsAlign amount alignment => allocatePortsAlign amount alignment s

/-- Amounts and alignments that make sense. -/
def Positive (r : Request) : Prop := 1 ≤ r.amount ∧ 1 ≤ r.alignment

/-- What the call returns. -/
def result (r : Request) (s : Ports) : UInt16 := (r.call s).1

/-- A port that the caller may use. -/
def Owns (r : Request) (s : Ports) (port : Nat) : Prop :=
  (r.result s).toNat ≤ port ∧ port < (r.result s).toNat + r.amount.toNat

theorem call_eq (r : Request) (s : Ports) :
    r.call s = allocatePortsAlign r.amount r.alignment s := by
  cases r <;> rfl

end Request

/-- A run of calls, each of them meeting a condition in the state it is made in. -/
abbrev PortRun (good : Ports → Request → Prop) (tr : List (Ports × Request)) (s : Ports) : Prop :=
  Runs (fun r => (modify fun s => (r.call s).2 : Prog Ports Empty Unit)) good ioportsInit tr s

/-- Blocks are aligned, in range and disjoint, and a call that fails leaves `current_port` as it
is. -/
structure WellAllocated (tr : List (Ports × Request)) : Prop where
  aligned : ∀ x ∈ tr, x.2.result x.1 ≠ 0 → (x.2.result x.1).toNat % x.2.alignment.toNat = 0
  low : ∀ x ∈ tr, x.2.result x.1 ≠ 0 → 0x1000 ≤ (x.2.result x.1).toNat
  high : ∀ x ∈ tr, x.2.result x.1 ≠ 0 → (x.2.result x.1).toNat + x.2.amount.toNat ≤ 0xF000
  disjoint : tr.Pairwise fun x y => x.2.result x.1 ≠ 0 → y.2.result y.1 ≠ 0 →
    ∀ port, x.2.Owns x.1 port → ¬ y.2.Owns y.1 port
  unchanged : ∀ x ∈ tr, x.2.result x.1 = 0 → (x.2.call x.1).2 = x.1

/-- The least multiple of `a` from `n` upwards. -/
def roundUp (n a : Nat) : Nat := n + (a - n % a) % a

/-- The end of the block, rounded up, is a 16-bit number; and if it is within the limit, the
amount is a multiple of the alignment. -/
def Request.Fits (s : Ports) (r : Request) : Prop :=
  roundUp (s.currentPort.toNat + r.amount.toNat) r.alignment.toNat < 0x10000 ∧
    (roundUp (s.currentPort.toNat + r.amount.toNat) r.alignment.toNat ≤ 0xF000 →
      r.alignment.toNat ∣ r.amount.toNat)

theorem dvd_roundUp (n : Nat) {a : Nat} (ha : 0 < a) : a ∣ roundUp n a := by
  have hlt := Nat.mod_lt n ha
  have hdiv := Nat.div_add_mod n a
  rw [roundUp]
  by_cases h : n % a = 0
  · rw [h, Nat.sub_zero, Nat.mod_self, Nat.add_zero]
    exact Nat.dvd_of_mod_eq_zero h
  · rw [Nat.mod_eq_of_lt (by omega)]
    refine ⟨n / a + 1, ?_⟩
    rw [Nat.mul_add]
    omega

/-- The offset that the source computes is the distance to that multiple. -/
theorem alignOffset_toNat {n a : UInt16} (ha : 1 ≤ a) :
    (if a - n % a = a then 0 else a - n % a).toNat = (a.toNat - n.toNat % a.toNat) % a.toNat := by
  have hpos : 0 < a.toNat := UInt16.le_iff_toNat_le.mp ha
  have hlt := Nat.mod_lt n.toNat hpos
  have hbound := a.toNat_lt
  have hsub : (a - n % a).toNat = a.toNat - n.toNat % a.toNat := by
    rw [UInt16.toNat_sub, UInt16.toNat_mod]
    omega
  by_cases h : a - n % a = a
  · have hzero : n.toNat % a.toNat = 0 := by
      rw [h] at hsub
      omega
    rw [if_pos h, hzero, Nat.sub_zero, Nat.mod_self]
    rfl
  · have hne : n.toNat % a.toNat ≠ 0 := by
      intro hzero
      exact h (UInt16.toNat_inj.mp (by omega))
    have hoffset : a.toNat - n.toNat % a.toNat < a.toNat := by omega
    rw [if_neg h, hsub, Nat.mod_eq_of_lt hoffset]

/-- **One call** that fits. -/
theorem Request.call_of_fits {r : Request} {s : Ports} (ha : 1 ≤ r.alignment) (h : r.Fits s)
    {stop : Nat}
    (hstop : stop = roundUp (s.currentPort.toNat + r.amount.toNat) r.alignment.toNat) :
    (stop ≤ 0xF000 → (r.result s).toNat + r.amount.toNat = stop ∧
      (r.call s).2.currentPort.toNat = stop) ∧
    (0xF000 < stop → r.result s = 0 ∧ (r.call s).2 = s) := by
  have hsmall := h.1
  rw [← hstop] at hsmall
  rw [roundUp] at hstop
  have hend : (s.currentPort + r.amount).toNat = s.currentPort.toNat + r.amount.toNat := by
    rw [UInt16.toNat_add]
    omega
  have hoffset := alignOffset_toNat (n := s.currentPort + r.amount) ha
  rw [hend] at hoffset
  rw [Request.result, Request.call_eq, allocatePortsAlign]
  generalize (if r.alignment - (s.currentPort + r.amount) % r.alignment = r.alignment then 0
    else r.alignment - (s.currentPort + r.amount) % r.alignment) = offset at hoffset ⊢
  have hnew : (s.currentPort + r.amount + offset).toNat = stop := by
    rw [UInt16.toNat_add, hend, hoffset]
    omega
  have hstart : (s.currentPort + offset).toNat + r.amount.toNat = stop := by
    rw [UInt16.toNat_add, hoffset]
    omega
  have hlast : lastPort.toNat = 0xF000 := rfl
  constructor
  · intro hle
    rw [if_pos (UInt16.le_iff_toNat_le.mpr (by omega))]
    exact ⟨hstart, hnew⟩
  · intro hlt
    rw [if_neg fun hle => by have := UInt16.le_iff_toNat_le.mp hle; omega]
    exact ⟨rfl, rfl⟩

/-- What a call that fits hands out, and what it leaves. -/
structure Request.Granted (s : Ports) (r : Request) : Prop where
  aligned : r.result s ≠ 0 → (r.result s).toNat % r.alignment.toNat = 0
  low : r.result s ≠ 0 → s.currentPort.toNat ≤ (r.result s).toNat
  high : r.result s ≠ 0 → (r.result s).toNat + r.amount.toNat ≤ 0xF000
  next : r.result s ≠ 0 →
    (r.result s).toNat + r.amount.toNat = (r.call s).2.currentPort.toNat
  grows : s.currentPort.toNat ≤ (r.call s).2.currentPort.toNat
  unchanged : 0 < s.currentPort.toNat → r.result s = 0 → (r.call s).2 = s

theorem Request.granted_of_fits {r : Request} {s : Ports} (ha : 1 ≤ r.alignment)
    (h : r.Fits s) : r.Granted s := by
  have hpos : 0 < r.alignment.toNat := UInt16.le_iff_toNat_le.mp ha
  have hle : s.currentPort.toNat + r.amount.toNat ≤
      roundUp (s.currentPort.toNat + r.amount.toNat) r.alignment.toNat := Nat.le_add_right _ _
  obtain ⟨hin, hout⟩ := Request.call_of_fits ha h rfl
  by_cases hlimit : roundUp (s.currentPort.toNat + r.amount.toNat) r.alignment.toNat ≤ 0xF000
  · obtain ⟨hres, hcur⟩ := hin hlimit
    constructor
    case aligned =>
      intro _
      refine Nat.mod_eq_zero_of_dvd ((Nat.dvd_add_left (h.2 hlimit)).mp ?_)
      rw [hres]
      exact dvd_roundUp _ hpos
    case unchanged =>
      intro hs hzero
      have hnum : (r.result s).toNat = 0 := congrArg UInt16.toNat hzero
      omega
    all_goals omega
  · obtain ⟨hzero, hsame⟩ := hout (by omega)
    constructor
    case unchanged => exact fun _ _ => hsame
    case grows => exact Nat.le_of_eq (congrArg (fun s : Ports => s.currentPort.toNat) hsame.symm)
    all_goals exact fun hne => absurd hzero hne

/-- What has been handed out lies below `current_port`. -/
structure Below (tr : List (Ports × Request)) (s : Ports) : Prop where
  start : 0x1000 ≤ s.currentPort.toNat
  ends : ∀ x ∈ tr, x.2.result x.1 ≠ 0 →
    (x.2.result x.1).toNat + x.2.amount.toNat ≤ s.currentPort.toNat

theorem wellAllocated_below {tr : List (Ports × Request)} {s : Ports}
    (run : PortRun (fun s r => r.Positive ∧ r.Fits s) tr s) : WellAllocated tr ∧ Below tr s := by
  induction run with
  | nil => exact ⟨⟨by simp, by simp, by simp, .nil, by simp⟩, ⟨by decide, by simp⟩⟩
  | @snoc tr s t r _ ok next ih =>
    obtain ⟨hwell, hbelow⟩ := ih
    have hgranted := Request.granted_of_fits ok.1.2 ok.2
    have hstart := hbelow.start
    have ht : t = (r.call s).2 := by
      cases next
      rfl
    constructor
    · constructor
      case aligned =>
        exact List.forall_mem_append.mpr ⟨hwell.aligned,
          List.forall_mem_singleton.mpr hgranted.aligned⟩
      case low =>
        exact List.forall_mem_append.mpr ⟨hwell.low,
          List.forall_mem_singleton.mpr fun hne => Nat.le_trans hstart (hgranted.low hne)⟩
      case high =>
        exact List.forall_mem_append.mpr ⟨hwell.high,
          List.forall_mem_singleton.mpr hgranted.high⟩
      case disjoint =>
        -- the new block starts where all earlier ones have ended
        refine List.pairwise_append.mpr ⟨hwell.disjoint, List.pairwise_singleton _ _, ?_⟩
        intro x hx y hy hnx hny port hport hown
        obtain rfl := List.mem_singleton.mp hy
        have hend := hbelow.ends x hx hnx
        have hlow := hgranted.low hny
        have hbefore := hport.2
        have hafter := hown.1
        dsimp only at hlow hafter
        omega
      case unchanged =>
        exact List.forall_mem_append.mpr ⟨hwell.unchanged,
          List.forall_mem_singleton.mpr (hgranted.unchanged (by omega))⟩
    · rw [ht]
      refine ⟨Nat.le_trans hstart hgranted.grows, List.forall_mem_append.mpr ⟨?_, ?_⟩⟩
      · exact fun x hx hne => Nat.le_trans (hbelow.ends x hx hne) hgranted.grows
      · exact List.forall_mem_singleton.mpr fun hne => Nat.le_of_eq (hgranted.next hne)

/-- **Calls that fit are well allocated**, in every run of them. -/
theorem ports_well_allocated {tr : List (Ports × Request)} {s : Ports}
    (run : PortRun (fun s r => r.Positive ∧ r.Fits s) tr s) : WellAllocated tr :=
  (wellAllocated_below run).1

instance (r : Request) : Decidable r.Positive := inferInstanceAs (Decidable (_ ∧ _))

instance (s : Ports) (r : Request) : Decidable (r.Fits s) :=
  inferInstanceAs (Decidable (_ ∧ (_ → _)))

/-- The ports of one disk controller. -/
theorem disk_ports_allocated :
    ∃ tr s, PortRun (fun s r => r.Positive ∧ r.Fits s) tr s ∧
      tr.map Prod.snd = [.portsAlign 16 16, .portsAlign 8 8, .portsAlign 4 4] ∧
      WellAllocated tr := by
  have h₁ := Runs.snoc (i := Request.portsAlign 16 16)
    (.nil : PortRun (fun s r => r.Positive ∧ r.Fits s) [] ioportsInit) (by decide) rfl
  have h₂ := h₁.snoc (i := Request.portsAlign 8 8) (by decide) rfl
  have h₃ := h₂.snoc (i := Request.portsAlign 4 4) (by decide) rfl
  exact ⟨_, _, h₃, rfl, ports_well_allocated h₃⟩

/-- One port, aligned to 2, is port 0x1001. -/
theorem odd_port_misaligned :
    ¬ ∀ (tr : List (Ports × Request)) (s : Ports), PortRun (fun _ r => r.Positive) tr s →
      WellAllocated tr := by
  intro hclaim
  have hrun := Runs.snoc (i := Request.portsAlign 1 2)
    (.nil : PortRun (fun _ r => r.Positive) [] ioportsInit) (by decide) rfl
  have haligned := (hclaim _ _ hrun).aligned _ List.mem_cons_self (by decide)
  exact absurd haligned (by decide)

end Cumulonimbus.Ioports
