import Mathlib

namespace Eris.Library.Bytes

open List

variable {block bytes block' : List UInt8} {offset count : ℕ}

def slice (block : List UInt8) (offset count : ℕ) : Option (List UInt8) :=
  if offset + count ≤ block.length then some ((block.drop offset).take count) else none

def overwrite (block : List UInt8) (offset : ℕ) (bytes : List UInt8) : Option (List UInt8) :=
  if offset + bytes.length ≤ block.length then
    some (block.take offset ++ bytes ++ block.drop (offset + bytes.length))
  else none

theorem slice_of_le (h : offset + count ≤ block.length) :
    slice block offset count = some ((block.drop offset).take count) := if_pos h

theorem length_overwrite (h : overwrite block offset bytes = some block') : block'.length = block.length := by
  obtain ⟨hle, h⟩ := Option.ite_none_right_eq_some.mp h
  cases h
  simp only [length_append, length_take, length_drop]
  omega

theorem getD_overwrite (h : overwrite block offset bytes = some block') (i : ℕ) :
    block'.getD i 0 = if offset ≤ i ∧ i < offset + bytes.length then bytes.getD (i - offset) 0 else block.getD i 0 := by
  obtain ⟨hle, h⟩ := Option.ite_none_right_eq_some.mp h
  cases h
  have htake : (block.take offset).length = offset := by
    rw [length_take]
    omega
  simp only [getD_eq_getElem?_getD, getElem?_append, htake, length_append, getElem?_take, getElem?_drop]
  split
  · split
    · rw [if_neg (by omega)]
    · rw [if_pos (by omega)]
  · rw [if_neg (by omega)]
    congr 2
    omega

def span (memory : ℕ → UInt8) (address count : ℕ) : List UInt8 := (List.range count).map fun k ↦ memory (address + k)

section Span

variable (memory : ℕ → UInt8) (address m n : ℕ)

@[simp]
theorem length_span : (span memory address n).length = n := by
  rw [span, length_map, length_range]

@[simp]
theorem span_zero : span memory address 0 = [] := rfl

theorem span_add : span memory address (m + n) = span memory address m ++ span memory (address + m) n := by
  rw [span, range_add, map_append, map_map]
  simp only [span, Function.comp_def, Nat.add_assoc]

variable {memory address m n}

theorem take_span (h : m ≤ n) : (span memory address n).take m = span memory address m := by
  obtain ⟨k, rfl⟩ := Nat.exists_eq_add_of_le h
  rw [span_add]
  exact take_left' (length_span ..)

theorem drop_span (h : m ≤ n) : (span memory address n).drop m = span memory (address + m) (n - m) := by
  obtain ⟨k, rfl⟩ := Nat.exists_eq_add_of_le h
  rw [span_add, Nat.add_sub_cancel_left]
  exact drop_left' (length_span ..)

theorem take_drop_span {k : ℕ} (h : m + k ≤ n) :
    ((span memory address n).drop m).take k = span memory (address + m) k := by
  rw [drop_span (by omega), take_span (by omega)]

theorem span_congr {memory' : ℕ → UInt8} {address' : ℕ} (h : ∀ k < n, memory (address + k) = memory' (address' + k)) :
    span memory address n = span memory' address' n :=
  map_congr_left fun k hk ↦ h k (mem_range.mp hk)

end Span

theorem getD_replicate_zero (n i : ℕ) : (List.replicate n (0 : UInt8)).getD i 0 = 0 := by
  rw [getD_eq_getElem?_getD, getElem?_replicate]
  split <;> rfl

end Eris.Library.Bytes
