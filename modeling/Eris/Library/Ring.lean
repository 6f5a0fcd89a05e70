import Mathlib

namespace Eris.Library.Ring

open List Finset Function

variable {ι : Type} {word size a b lo hi : ℕ}

/-- The slot of entry number `k`, found from a counter that wraps at `word`. -/
def slot (word size k : ℕ) : ℕ := k % word % size

theorem slot_of_dvd (h : size ∣ word) (k : ℕ) : slot word size k = k % size := Nat.mod_mod_of_dvd k h

theorem eq_of_wrap (hab : a ≤ b) (h : b - a < word) (heq : a % word = b % word) : a = b := by
  have hzero := Nat.sub_mod_eq_zero_of_mod_eq heq.symm
  rw [Nat.mod_eq_of_lt h] at hzero
  omega

theorem mod_ne_of_lt (hab : a < b) (h : b - a < size) : a % size ≠ b % size := by
  intro heq
  have := eq_of_wrap (Nat.le_of_lt hab) h heq
  omega

theorem length_le_card [Fintype ι] {f : ℕ → ι}
    (hinj : ∀ k l, lo ≤ k → k < hi → lo ≤ l → l < hi → f k = f l → k = l) : hi - lo ≤ Fintype.card ι := by
  classical
  have hinj' : Set.InjOn f (Finset.Ico lo hi) := by
    intro k hk l hl heq
    obtain ⟨hk₁, hk₂⟩ := mem_Ico.mp (mem_coe.mp hk)
    obtain ⟨hl₁, hl₂⟩ := mem_Ico.mp (mem_coe.mp hl)
    exact hinj k l hk₁ hk₂ hl₁ hl₂ heq
  have hcard := card_image_of_injOn hinj'
  rw [Nat.card_Ico] at hcard
  rw [← hcard]
  exact card_le_univ _

theorem length_lt_card [Fintype ι] {f : ℕ → ι} {i : ι}
    (hinj : ∀ k l, lo ≤ k → k < hi → lo ≤ l → l < hi → f k = f l → k = l)
    (hne : ∀ k, lo ≤ k → k < hi → f k ≠ i) : hi - lo < Fintype.card ι := by
  by_cases hlen : lo ≤ hi
  · have hinj' : ∀ k l, lo ≤ k → k < hi + 1 → lo ≤ l → l < hi + 1 →
        update f hi i k = update f hi i l → k = l := by
      intro k l hk hk' hl hl' heq
      simp only [update_apply] at heq
      split at heq <;> split at heq
      · omega
      · exact absurd heq.symm (hne l hl (by omega))
      · exact absurd heq (hne k hk (by omega))
      · exact hinj k l hk (by omega) hl (by omega) heq
    have := length_le_card hinj'
    omega
  · have := Fintype.card_pos_iff.mpr ⟨i⟩
    omega

/-- The cells of a ring of some size, one of which is always kept empty. -/
structure Buffer (α : Type) where
  cells : ℕ → α
  head : ℕ
  tail : ℕ

namespace Buffer

variable {α : Type} (size : ℕ) (r : Buffer α)

def push (a : α) : Option (Buffer α) :=
  let next := (r.tail + 1) % size
  if next = r.head then none else some { r with cells := update r.cells r.tail a, tail := next }

def pop : Option (α × Buffer α) :=
  if r.head = r.tail then none else some (r.cells r.head, { r with head := (r.head + 1) % size })

def count : ℕ := if r.head ≤ r.tail then r.tail - r.head else size - r.head + r.tail

def Holds (l : List α) : Prop :=
  ∃ t, r.head = t % size ∧ r.tail = (t + l.length) % size ∧ l.length < size ∧
    ∀ k (h : k < l.length), r.cells ((t + k) % size) = l[k]

variable {size r} {r' : Buffer α} {l : List α} {a : α}

theorem holds_nil (hsize : 0 < size) (cells : ℕ → α) : Holds size ⟨cells, 0, 0⟩ [] :=
  ⟨0, (Nat.zero_mod size).symm, (Nat.zero_mod size).symm, hsize, nofun⟩

theorem Holds.push_eq_none_iff (h : Holds size r l) (a : α) : r.push size a = none ↔ l.length + 1 = size := by
  obtain ⟨t, hhead, htail, hlen, -⟩ := h
  have hnext : (r.tail + 1) % size = (t + l.length + 1) % size := by rw [htail, Nat.mod_add_mod]
  have hfull : (r.tail + 1) % size = r.head ↔ l.length + 1 = size := by
    rw [hnext, hhead]
    constructor
    · intro heq
      by_contra hne
      exact mod_ne_of_lt (by omega : t < t + l.length + 1) (by omega) heq.symm
    · intro heq
      rw [Nat.add_assoc, heq, Nat.add_mod_right]
  rw [push, ← hfull]
  simp

theorem Holds.push (h : Holds size r l) (hpush : r.push size a = some r') : Holds size r' (l ++ [a]) := by
  have hroom : l.length + 1 ≠ size := by
    rw [Ne, ← h.push_eq_none_iff a, hpush]
    nofun
  obtain ⟨t, hhead, htail, hlen, hcells⟩ := h
  obtain ⟨-, hr'⟩ := Option.ite_none_left_eq_some.mp hpush
  cases hr'
  refine ⟨t, hhead, ?_, ?_, fun k hk ↦ ?_⟩
  · rw [length_append, length_singleton, ← Nat.add_assoc, htail, Nat.mod_add_mod]
  · rw [length_append, length_singleton]
    omega
  · rw [length_append, length_singleton] at hk
    dsimp only
    rw [htail, update_apply]
    by_cases hlast : k = l.length
    · subst hlast
      rw [if_pos rfl, getElem_concat_length rfl]
    · have hne : (t + k) % size ≠ (t + l.length) % size := mod_ne_of_lt (by omega) (by omega)
      rw [if_neg hne, getElem_append_left (by omega)]
      exact hcells k (by omega)

theorem Holds.pop_nil (h : Holds size r []) : r.pop size = none := by
  obtain ⟨t, hhead, htail, -⟩ := h
  rw [pop, if_pos]
  rw [hhead, htail, length_nil, Nat.add_zero]

theorem Holds.pop_cons (h : Holds size r (a :: l)) :
    ∃ r', r.pop size = some (a, r') ∧ Holds size r' l := by
  obtain ⟨t, hhead, htail, hlen, hcells⟩ := h
  rw [length_cons] at htail hlen
  have hne : r.head ≠ r.tail := by
    rw [hhead, htail]
    exact mod_ne_of_lt (by omega) (by omega)
  have hfirst : r.cells r.head = a := by
    rw [hhead]
    exact hcells 0 (Nat.succ_pos _)
  refine ⟨{ r with head := (r.head + 1) % size }, ?_, t + 1, ?_, ?_, by omega, fun k hk ↦ ?_⟩
  · rw [pop, if_neg hne, hfirst]
  · rw [hhead, Nat.mod_add_mod]
  · rw [htail]
    congr 1
    omega
  · have hcell := hcells (k + 1) (by simpa using hk)
    rw [show t + 1 + k = t + (k + 1) by omega]
    exact hcell

theorem Holds.count_eq (h : Holds size r l) : r.count size = l.length := by
  obtain ⟨t, hhead, htail, hlen, -⟩ := h
  have hsize : 0 < size := by omega
  have hlt := Nat.mod_lt t hsize
  have hsum : (t + l.length) % size = if t % size + l.length < size then t % size + l.length
      else t % size + l.length - size := by
    rw [← Nat.mod_add_mod]
    split
    · rename_i hwrap
      exact Nat.mod_eq_of_lt hwrap
    · rw [Nat.mod_eq_sub_mod (by omega)]
      exact Nat.mod_eq_of_lt (by omega)
  rw [count, hhead, htail, hsum]
  split <;> split <;> omega

end Buffer

end Eris.Library.Ring
