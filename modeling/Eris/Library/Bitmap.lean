import Mathlib

namespace Eris.Library.Bitmap

open Function

/-- Bits in bytes, the lowest one first. -/
abbrev Packed := ℕ → BitVec 8

namespace Packed

def mask (i : ℕ) : BitVec 8 := 1#8 <<< (i % 8)

def test (b : Packed) (i : ℕ) : Bool := (b (i / 8) &&& mask i) != 0#8

def set (b : Packed) (i : ℕ) : Packed := update b (i / 8) (b (i / 8) ||| mask i)

def clear (b : Packed) (i : ℕ) : Packed := update b (i / 8) (b (i / 8) &&& ~~~mask i)

variable (b : Packed) (i : ℕ)

theorem getLsbD_mask {j : ℕ} (hj : j < 8) : (mask i).getLsbD j = decide (j = i % 8) := by
  have hmask : mask i = BitVec.twoPow 8 (i % 8) := BitVec.twoPow_eq 8 (i % 8) |>.symm
  simp [hmask, hj]

theorem test_eq_getLsbD : b.test i = (b (i / 8)).getLsbD (i % 8) := by
  have hmask : mask i = BitVec.twoPow 8 (i % 8) := BitVec.twoPow_eq 8 (i % 8) |>.symm
  rw [test, hmask, BitVec.and_twoPow]
  cases h : (b (i / 8)).getLsbD (i % 8) with
  | false => simp
  | true =>
    have hlt : i % 8 < 8 := Nat.mod_lt i (by decide)
    simp only [if_true, bne_iff_ne, ne_eq]
    intro hzero
    have hbit := congrArg (fun x ↦ x.getLsbD (i % 8)) hzero
    simp [hlt] at hbit

theorem test_set : (b.set i).test = update b.test i true := by
  funext j
  have hj : j % 8 < 8 := Nat.mod_lt j (by decide)
  rw [test_eq_getLsbD, update_apply, set, update_apply]
  by_cases hbyte : j / 8 = i / 8
  · rw [if_pos hbyte, BitVec.getLsbD_or, getLsbD_mask i hj, test_eq_getLsbD, hbyte]
    by_cases hij : j = i
    · simp [hij]
    · have hne : ¬ j % 8 = i % 8 := by omega
      simp [hij, hne]
  · have hij : ¬ j = i := fun h ↦ hbyte (by rw [h])
    rw [if_neg hbyte, if_neg hij, test_eq_getLsbD]

theorem test_clear : (b.clear i).test = update b.test i false := by
  funext j
  have hj : j % 8 < 8 := Nat.mod_lt j (by decide)
  rw [test_eq_getLsbD, update_apply, clear, update_apply]
  by_cases hbyte : j / 8 = i / 8
  · rw [if_pos hbyte, BitVec.getLsbD_and, BitVec.getLsbD_not, getLsbD_mask i hj, test_eq_getLsbD, hbyte]
    by_cases hij : j = i
    · simp [hij]
    · have hne : ¬ j % 8 = i % 8 := by omega
      simp [hij, hne, hj]
  · have hij : ¬ j = i := fun h ↦ hbyte (by rw [h])
    rw [if_neg hbyte, if_neg hij, test_eq_getLsbD]

end Packed

/-- The number of bits below `n` that are set. -/
def population (f : ℕ → Bool) (n : ℕ) : ℕ := ((Finset.range n).filter (f · = true)).card

variable {f : ℕ → Bool} {n i : ℕ}

theorem population_update_true (hi : i < n) (h : f i = false) :
    population (update f i true) n = population f n + 1 := by
  have hset : (Finset.range n).filter (update f i true · = true) =
      insert i ((Finset.range n).filter (f · = true)) := by
    ext j
    by_cases hj : j = i
    · simp [hj, hi]
    · simp [hj]
  rw [population, hset, Finset.card_insert_of_notMem (by simp [h]), population]

theorem population_update_false (hi : i < n) (h : f i = true) :
    population (update f i false) n + 1 = population f n := by
  have hback : update (update f i false) i true = f := by
    rw [update_idem, ← h, update_eq_self]
  rw [← population_update_true hi (update_self i false f), hback]

theorem population_true (h : ∀ i < n, f i = true) : population f n = n := by
  rw [population, Finset.filter_true_of_mem fun i hi ↦ h i (Finset.mem_range.mp hi), Finset.card_range]

end Eris.Library.Bitmap
