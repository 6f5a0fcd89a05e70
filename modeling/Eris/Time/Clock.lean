import Mathlib

namespace Eris.Time

/-- What the firmware and the registers say while the clock is set up: `mapDevice` tells
whether the registers of the timer could be mapped, `tscStart` and `tscEnd` are the two
readings around the wait. -/
structure Board where
  available : Bool
  hpetAddress : ℕ
  mapDevice : Bool
  capabilities : ℕ
  tscStart : ℕ
  tscEnd : ℕ

def Board.periodFs (board : Board) : ℕ := board.capabilities / 2 ^ 32

structure Clock where
  hpet : Bool := false
  hpetPeriodFs : ℕ := 0
  tscHz : ℕ := 0
  tscOrigin : ℕ := 0
  deriving DecidableEq

/-- The counters at the time of a call. -/
structure Counters where
  hpetCounter : ℕ
  tsc : ℕ

def maxPeriodFs : ℕ := 0x05F5E100

namespace Clock

def hpetInit (board : Board) (c : Clock) : Clock × Bool :=
  if !board.available || board.hpetAddress == 0 then (c, false)
  else if !board.mapDevice then ({ c with hpet := false }, false)
  else
    if board.periodFs = 0 ∨ maxPeriodFs < board.periodFs then
      ({ c with hpet := false, hpetPeriodFs := board.periodFs }, false)
    else ({ c with hpet := true, hpetPeriodFs := board.periodFs }, true)

def tscCalibrate (board : Board) (c : Clock) : Clock :=
  { c with
    tscHz := (2 ^ 64 + board.tscEnd - board.tscStart) % 2 ^ 64 * 100 % 2 ^ 64
    tscOrigin := board.tscEnd }

def clockInit (board : Board) : Clock :=
  match hpetInit board {} with
  | (c, true) => c
  | (c, false) => tscCalibrate board c

def monotonicNs (c : Clock) (now : Counters) : ℕ :=
  if c.hpet then now.hpetCounter * c.hpetPeriodFs % 2 ^ 64 / 1000000
  else if c.tscHz = 0 then 0
  else
    let elapsed := (2 ^ 64 + now.tsc - c.tscOrigin) % 2 ^ 64
    (elapsed / c.tscHz * 1000000000 % 2 ^ 64 + elapsed % c.tscHz * 1000000000 % 2 ^ 64 / c.tscHz) % 2 ^ 64

def monotonicMs (c : Clock) (now : Counters) : ℕ := c.monotonicNs now / 1000000

end Clock

/-- The timer is there, can be mapped and has a period that is accepted. -/
structure Board.HasHpet (board : Board) : Prop where
  available : board.available = true
  address : board.hpetAddress ≠ 0
  mapped : board.mapDevice = true
  pos : 1 ≤ board.periodFs
  le : board.periodFs ≤ 10 ^ 8

namespace Clock

variable {board : Board}

theorem hpetInit_of_hasHpet (h : board.HasHpet) (c : Clock) :
    hpetInit board c = ({ c with hpet := true, hpetPeriodFs := board.periodFs }, true) := by
  obtain ⟨havailable, haddress, hmapped, hpos, hle⟩ := h
  have hperiod : ¬ (board.periodFs = 0 ∨ maxPeriodFs < board.periodFs) := by
    have hmax : maxPeriodFs = 10 ^ 8 := rfl
    omega
  simp only [hpetInit, havailable, hmapped, hperiod, if_false]
  simp [haddress]

theorem monotonicNs_of_hasHpet (h : board.HasHpet) (now : Counters) :
    (clockInit board).monotonicNs now = now.hpetCounter * board.periodFs % 2 ^ 64 / 10 ^ 6 := by
  rw [clockInit, hpetInit_of_hasHpet h, monotonicNs]
  exact if_pos rfl

theorem mod_div_eq_iff (n : ℕ) : n % 2 ^ 64 / 10 ^ 6 = n / 10 ^ 6 ↔ n < 2 ^ 64 := by
  constructor
  · intro h
    by_contra hge
    omega
  · intro h
    rw [Nat.mod_eq_of_lt h]

/-- The clock is exact and never steps back where no product of a reading and the period
leaves the machine word, and only there. -/
theorem monotonicNs_exact_iff (h : board.HasHpet) {readings : ℕ → Counters}
    (hrise : Monotone fun i ↦ (readings i).hpetCounter) :
    (Monotone fun i ↦ (clockInit board).monotonicNs (readings i)) ∧ (∀ i, (clockInit board).monotonicNs (readings i) =
        (readings i).hpetCounter * board.periodFs / 10 ^ 6) ↔
    ∀ i, (readings i).hpetCounter * board.periodFs < 2 ^ 64 := by
  have hexact : (∀ i, (clockInit board).monotonicNs (readings i) = (readings i).hpetCounter * board.periodFs / 10 ^ 6) ↔
      ∀ i, (readings i).hpetCounter * board.periodFs < 2 ^ 64 := by
    apply forall_congr'
    intro i
    rw [monotonicNs_of_hasHpet h]
    exact mod_div_eq_iff _
  constructor
  · intro ⟨_, heq⟩
    exact hexact.mp heq
  · intro hlt
    have heq := hexact.mpr hlt
    refine ⟨?_, heq⟩
    intro i j hij
    simp only [heq]
    exact Nat.div_le_div_right (Nat.mul_le_mul_right _ (hrise hij))

def tenMegahertz : Board where
  available := true
  hpetAddress := 0xFED00000
  mapDevice := true
  capabilities := 10 ^ 8 * 2 ^ 32
  tscStart := 0
  tscEnd := 0

theorem tenMegahertz_hasHpet : tenMegahertz.HasHpet :=
  ⟨rfl, by decide, rfl, by decide, by decide⟩

theorem monotonicNs_exact_first_hour :
    (Monotone fun i ↦ (clockInit tenMegahertz).monotonicNs ⟨min i 36000000000, 0⟩) ∧
      ∀ i, (clockInit tenMegahertz).monotonicNs ⟨min i 36000000000, 0⟩ =
        min i 36000000000 * tenMegahertz.periodFs / 10 ^ 6 := by
  have hrise : Monotone fun i : ℕ ↦ (⟨min i 36000000000, 0⟩ : Counters).hpetCounter := by
    intro i j hij
    simp only
    omega
  apply (monotonicNs_exact_iff tenMegahertz_hasHpet hrise).mpr
  intro i
  have hperiod : tenMegahertz.periodFs = 10 ^ 8 := by decide
  simp only [hperiod]
  omega

/-- The clock goes back by five hours between two ticks, long before 584 years of 365.25 days. -/
theorem monotonicNs_steps_back : tenMegahertz.HasHpet ∧
    184467440738 * tenMegahertz.periodFs ≤ 584 * 31557600 * 10 ^ 15 ∧
    (clockInit tenMegahertz).monotonicNs ⟨184467440737, 0⟩ = 18446744073700 ∧
    (clockInit tenMegahertz).monotonicNs ⟨184467440738, 0⟩ = 90 ∧
    184467440738 * tenMegahertz.periodFs / 10 ^ 6 = 18446744073800 :=
  ⟨tenMegahertz_hasHpet, by decide, by decide, by decide, by decide⟩

def elapsed (c : Clock) (now : Counters) : ℕ := (2 ^ 64 + now.tsc - c.tscOrigin) % 2 ^ 64

theorem split_seconds (ticks : ℕ) {hz : ℕ} (hpos : 0 < hz) :
    ticks * 1000000000 / hz = ticks / hz * 1000000000 + ticks % hz * 1000000000 / hz := by
  have hsplit : ticks * 1000000000 = ticks % hz * 1000000000 + hz * (ticks / hz * 1000000000) := by
    calc ticks * 1000000000 = (ticks % hz + hz * (ticks / hz)) * 1000000000 := by rw [Nat.mod_add_div]
      _ = ticks % hz * 1000000000 + hz * (ticks / hz * 1000000000) := by rw [Nat.add_mul, Nat.mul_assoc]
  rw [hsplit, Nat.add_mul_div_left _ _ hpos, Nat.add_comm]

theorem parts_lt {ticks hz : ℕ} (hpos : 0 < hz) (hle : hz ≤ 18446744073)
    (hlt : ticks * 1000000000 / hz < 2 ^ 64) :
    ticks / hz * 1000000000 < 2 ^ 64 ∧ ticks % hz * 1000000000 < 2 ^ 64 ∧
      ticks / hz * 1000000000 + ticks % hz * 1000000000 / hz < 2 ^ 64 := by
  rw [split_seconds ticks hpos] at hlt
  refine ⟨?_, ?_, hlt⟩
  · exact lt_of_le_of_lt (Nat.le_add_right _ _) hlt
  · have hrest := (Nat.mod_lt ticks hpos).trans_le hle
    clear hlt
    omega

theorem monotonicNs_tsc {c : Clock} (hhpet : c.hpet = false) (hpos : 0 < c.tscHz) (now : Counters) :
    c.monotonicNs now = (c.elapsed now / c.tscHz * 1000000000 % 2 ^ 64 +
      c.elapsed now % c.tscHz * 1000000000 % 2 ^ 64 / c.tscHz) % 2 ^ 64 := by
  rw [monotonicNs, if_neg (by rw [hhpet]; exact Bool.false_ne_true), if_neg hpos.ne']
  rfl

/-- The counter gives the exact time without an overflow on the way, as long as the time fits the word. -/
theorem monotonicNs_tsc_exact {c : Clock} (hhpet : c.hpet = false) (hpos : 1 ≤ c.tscHz)
    (hle : c.tscHz ≤ 18446744073) :
    (∀ now, c.elapsed now * 10 ^ 9 / c.tscHz < 2 ^ 64 →
      (c.elapsed now / c.tscHz * 10 ^ 9 < 2 ^ 64 ∧ c.elapsed now % c.tscHz * 10 ^ 9 < 2 ^ 64 ∧
        c.elapsed now / c.tscHz * 10 ^ 9 + c.elapsed now % c.tscHz * 10 ^ 9 / c.tscHz < 2 ^ 64) ∧
      c.monotonicNs now = c.elapsed now * 10 ^ 9 / c.tscHz) ∧
    ∀ now now', c.elapsed now ≤ c.elapsed now' → c.elapsed now' * 10 ^ 9 / c.tscHz < 2 ^ 64 →
      c.monotonicNs now ≤ c.monotonicNs now' := by
  have hexact : ∀ now, c.elapsed now * 10 ^ 9 / c.tscHz < 2 ^ 64 →
      c.monotonicNs now = c.elapsed now * 10 ^ 9 / c.tscHz := by
    intro now hlt
    obtain ⟨hseconds, hrest, hsum⟩ := parts_lt hpos hle hlt
    rw [monotonicNs_tsc hhpet hpos, Nat.mod_eq_of_lt hseconds, Nat.mod_eq_of_lt hrest, Nat.mod_eq_of_lt hsum]
    exact (split_seconds _ hpos).symm
  refine ⟨fun now hlt ↦ ⟨parts_lt hpos hle hlt, hexact now hlt⟩, ?_⟩
  intro now now' hrise hlt
  have hmono : c.elapsed now * 10 ^ 9 / c.tscHz ≤ c.elapsed now' * 10 ^ 9 / c.tscHz :=
    Nat.div_le_div_right (Nat.mul_le_mul_right _ hrise)
  rw [hexact now (hmono.trans_lt hlt), hexact now' hlt]
  exact hmono

/-- A counter of three gigahertz, a day after it was calibrated. -/
theorem monotonicNs_tsc_exact_day :
    (⟨false, 0, 3000000000, 1000⟩ : Clock).monotonicNs ⟨0, 259200000001000⟩ = 86400 * 10 ^ 9 := by
  have hday := ((monotonicNs_tsc_exact (c := ⟨false, 0, 3000000000, 1000⟩) rfl (by decide) (by decide)).1
    ⟨0, 259200000001000⟩ (by decide)).2
  exact hday.trans (by decide)

end Clock

end Eris.Time
