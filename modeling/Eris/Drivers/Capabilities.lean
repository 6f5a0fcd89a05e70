import Eris.Drivers.Pci

namespace Eris.Drivers.Pci.Space

open Function

variable (space : Space) (address : Address) (id : UInt8)

def capability (offset : UInt8) : UInt8 := space.read8 address offset.toNat

def next (offset : UInt8) : UInt8 := space.read8 address (offset.toNat + 1) &&& 0xFC

/-- The loop of `find_capability`, with so many steps left to its guard. -/
def walkCapabilities : ℕ → UInt8 → UInt8
  | 0, _ => 0
  | left + 1, offset =>
    if 0x40 ≤ offset then
      if space.capability address offset = id then offset
      else if space.next address offset = 0 then 0
      else walkCapabilities left (space.next address offset)
    else 0

def HasCapabilities : Prop := space.read16 address 0x06 &&& 0x10 ≠ 0

instance : Decidable (space.HasCapabilities address) := inferInstanceAs (Decidable (_ ≠ _))

def capabilities : UInt8 := space.read8 address 0x34 &&& 0xFC

def findCapability : UInt8 :=
  if space.HasCapabilities address then space.walkCapabilities address id 48 (space.capabilities address) else 0

/-- The chain from a pointer on has more than `n` nodes. -/
def OnChain (offset : UInt8) (n : ℕ) : Prop := ∀ k ≤ n, 0x40 ≤ (space.next address)^[k] offset

/-- Node `n` of the chain is the first one with that id. -/
structure FirstAt (offset : UInt8) (n : ℕ) : Prop where
  chain : space.OnChain address offset n
  found : space.capability address ((space.next address)^[n] offset) = id
  first : ∀ k < n, space.capability address ((space.next address)^[k] offset) ≠ id

variable {space address id} {offset : UInt8} {n left : ℕ}

theorem FirstAt.tail (h : space.FirstAt address id offset (n + 1)) :
    space.FirstAt address id (space.next address offset) n :=
  ⟨fun k hk ↦ h.chain (k + 1) (by omega), h.found, fun k hk ↦ h.first (k + 1) (by omega)⟩

theorem FirstAt.walk (h : space.FirstAt address id offset n) (hn : n < left) :
    space.walkCapabilities address id left offset = (space.next address)^[n] offset := by
  induction n generalizing offset left with
  | zero =>
    obtain ⟨left, rfl⟩ := Nat.exists_eq_add_one.mpr hn
    have hlow : 0x40 ≤ offset := h.chain 0 le_rfl
    have hid : space.capability address offset = id := h.found
    rw [walkCapabilities, if_pos hlow, if_pos hid, iterate_zero_apply]
  | succ n ih =>
    obtain ⟨left, rfl⟩ := Nat.exists_eq_add_one.mpr (Nat.zero_lt_of_lt hn)
    have hlow : 0x40 ≤ offset := h.chain 0 (by omega)
    have hid : space.capability address offset ≠ id := h.first 0 (by omega)
    have hnext : space.next address offset ≠ 0 := fun heq ↦
      absurd (heq ▸ h.chain 1 (by omega) : (0x40 : UInt8) ≤ 0) (by decide)
    rw [walkCapabilities, if_pos hlow, if_neg hid, if_neg hnext, ih h.tail (by omega), iterate_succ_apply]

theorem walkCapabilities_eq_zero (h : ∀ n, space.OnChain address offset n →
    space.capability address ((space.next address)^[n] offset) ≠ id) :
    space.walkCapabilities address id left offset = 0 := by
  induction left generalizing offset with
  | zero => rfl
  | succ left ih =>
    rw [walkCapabilities]
    split_ifs with hlow hid hnext
    · exact absurd hid (h 0 fun k hk ↦ by rwa [Nat.le_zero.mp hk])
    · rfl
    · refine ih fun n hn ↦ h (n + 1) fun k hk ↦ ?_
      cases k with
      | zero => exact hlow
      | succ k => exact hn k (by omega)
    · rfl

/-- A node that comes again was passed without a match, and so were all that follow it. -/
theorem FirstAt.ne (h : space.FirstAt address id offset n) {i j : ℕ} (hij : i < j) (hj : j ≤ n) :
    (space.next address)^[i] offset ≠ (space.next address)^[j] offset := by
  intro heq
  apply h.first (n - j + i) (by omega)
  rw [iterate_add_apply, heq, ← iterate_add_apply, Nat.sub_add_cancel hj]
  exact h.found

theorem node_aligned (space : Space) (address : Address) (n : ℕ) :
    ((space.next address)^[n] (space.capabilities address)).toNat % 4 = 0 := by
  have hmask : ∀ b : UInt8, (b &&& 0xFC).toNat % 4 = 0 := by
    intro b
    rw [UInt8.toNat_and]
    exact (Nat.and_mod_two_pow (n := 2)).trans (Nat.and_zero _)
  cases n with
  | zero => exact hmask _
  | succ n =>
    rw [iterate_succ_apply']
    exact hmask _

/-- There are no more than 48 offsets for a node to be at. -/
theorem FirstAt.lt (h : space.FirstAt address id (space.capabilities address) n) : n < 48 := by
  let node := fun k ↦ ((space.next address)^[k] (space.capabilities address)).toNat
  have hrange : ∀ k ≤ n, 64 ≤ node k ∧ node k < 256 := fun k hk ↦ ⟨h.chain k hk, UInt8.toNat_lt _⟩
  have hinj : Injective fun k : Fin (n + 1) ↦ Fin.ofNat 48 (node k / 4 - 16) := by
    refine .of_lt_imp_ne fun i j hij heq ↦ h.ne hij (Nat.le_of_lt_succ j.2) (UInt8.toNat_inj.mp ?_)
    have hplace := congrArg Fin.val heq
    simp only [Fin.val_ofNat] at hplace
    have hi := hrange i (by omega)
    have hj := hrange j (by omega)
    have hi' : node i % 4 = 0 := node_aligned space address i
    have hj' : node j % 4 = 0 := node_aligned space address j
    change node i = node j
    omega
  simpa using Fintype.card_le_of_injective _ hinj

theorem findCapability_first (space : Space) (address : Address) (id : UInt8) :
    (¬ space.HasCapabilities address → space.findCapability address id = 0) ∧
      (space.HasCapabilities address →
        (∀ n, space.FirstAt address id (space.capabilities address) n →
          space.findCapability address id = (space.next address)^[n] (space.capabilities address)) ∧
        ((∀ n, space.OnChain address (space.capabilities address) n →
          space.capability address ((space.next address)^[n] (space.capabilities address)) ≠ id) →
          space.findCapability address id = 0)) := by
  refine ⟨fun hnone ↦ if_neg hnone, fun hsome ↦ ?_⟩
  rw [findCapability, if_pos hsome]
  exact ⟨fun n h ↦ h.walk h.lt, walkCapabilities_eq_zero⟩

end Eris.Drivers.Pci.Space
