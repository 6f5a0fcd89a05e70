import Mathlib

namespace Eris.Library.Slots

open List

variable {α : Type}

/-- Fill the hole at `i` with the last entry and drop the last entry. -/
def swapRemove (l : List α) (i : ℕ) : List α :=
  match l.getLast? with
  | none => []
  | some last => (l.set i last).dropLast

theorem length_swapRemove (l : List α) (i : ℕ) : (swapRemove l i).length = l.length - 1 := by
  unfold swapRemove
  split
  · rename_i h
    simp [getLast?_eq_none_iff.mp h]
  · simp

theorem swapRemove_concat_length (l : List α) (a : α) : swapRemove (l ++ [a]) l.length = l := by
  simp [swapRemove]

theorem swapRemove_concat_of_lt (l : List α) (a : α) {i : ℕ} (hi : i < l.length) :
    swapRemove (l ++ [a]) i = l.set i a := by
  simp [swapRemove, set_append_left _ _ hi]

theorem perm_cons_set (l : List α) (a : α) {i : ℕ} (hi : i < l.length) :
    (l[i] :: l.set i a).Perm (a :: l) := by
  induction l generalizing i with
  | nil => simp at hi
  | cons b l ih =>
    cases i with
    | zero => exact .swap ..
    | succ i =>
      have hi' := Nat.lt_of_succ_lt_succ hi
      have h : (l[i] :: b :: l.set i a).Perm (b :: l[i] :: l.set i a) := .swap ..
      exact (h.trans ((ih hi').cons b)).trans (.swap ..)

theorem perm_cons_swapRemove (l : List α) {i : ℕ} (hi : i < l.length) :
    (l[i] :: swapRemove l i).Perm l := by
  obtain rfl | ⟨k, a, rfl⟩ := l.eq_nil_or_concat'
  · simp at hi
  · simp only [length_append, length_singleton] at hi
    by_cases hik : i = k.length
    · subst hik
      simpa [swapRemove_concat_length] using (perm_append_singleton a k).symm
    · have hlt : i < k.length := by omega
      rw [swapRemove_concat_of_lt k a hlt, getElem_append_left hlt]
      exact (perm_cons_set k a hlt).trans (perm_append_singleton a k).symm

theorem mem_of_mem_swapRemove {l : List α} {i : ℕ} {a : α} (h : a ∈ swapRemove l i) : a ∈ l := by
  unfold swapRemove at h
  split at h
  · cases h
  · rename_i last hlast
    rcases mem_or_eq_of_mem_set ((dropLast_subset _ h)) with h | rfl
    · exact h
    · exact mem_of_getLast? hlast

theorem getElem?_swapRemove_of_lt {l : List α} {i j : ℕ} (hi : i < l.length) (hj : j < i) :
    (swapRemove l i)[j]? = l[j]? := by
  obtain rfl | ⟨k, a, rfl⟩ := l.eq_nil_or_concat'
  · simp at hi
  · simp only [length_append, length_singleton] at hi
    have hjk : j < k.length := by omega
    rw [getElem?_append_left hjk]
    by_cases hik : i = k.length
    · rw [hik, swapRemove_concat_length]
    · rw [swapRemove_concat_of_lt k a (by omega), getElem?_set_ne (by omega)]

theorem getElem?_concat_eq_some {l : List α} {a b : α} {j : ℕ} :
    (l ++ [a])[j]? = some b ↔ l[j]? = some b ∨ j = l.length ∧ b = a := by
  obtain hlt | rfl | hgt := Nat.lt_trichotomy j l.length
  · rw [getElem?_append_left hlt]
    refine ⟨.inl, fun h ↦ h.resolve_right fun h ↦ ?_⟩
    omega
  · rw [getElem?_concat_length, getElem?_eq_none (Nat.le_refl _)]
    simp [eq_comm]
  · rw [getElem?_append_right (by omega), getElem?_eq_none (by simp; omega), getElem?_eq_none (by omega)]
    simp
    omega

theorem getElem?_swapRemove_eq_some {l : List α} {i j : ℕ} {b : α} (hi : i < l.length) :
    (swapRemove l i)[j]? = some b ↔ ∃ k, k ≠ i ∧ l[k]? = some b ∧ j = if k + 1 = l.length then i else k := by
  obtain rfl | ⟨m, a, rfl⟩ := l.eq_nil_or_concat'
  · simp at hi
  rw [length_append, length_singleton] at hi ⊢
  simp only [getElem?_concat_eq_some, Nat.add_right_cancel_iff]
  by_cases him : i = m.length
  · subst him
    rw [swapRemove_concat_length]
    constructor
    · intro h
      have hj := Nat.ne_of_lt (List.getElem?_eq_some_iff.mp h).1
      exact ⟨j, hj, .inl h, (if_neg hj).symm⟩
    · rintro ⟨k, hk, hb | ⟨rfl, -⟩, rfl⟩
      · rwa [if_neg hk]
      · exact absurd rfl hk
  · have hlt : i < m.length := by omega
    rw [swapRemove_concat_of_lt m a hlt, getElem?_set]
    constructor
    · intro h
      split at h
      · rename_i hij
        exact ⟨m.length, fun h ↦ him h.symm, .inr ⟨rfl, (Option.some.inj h).symm⟩, by rw [if_pos rfl, hij]⟩
      · rename_i hij
        have hj := Nat.ne_of_lt (List.getElem?_eq_some_iff.mp h).1
        exact ⟨j, fun h ↦ hij h.symm, .inl h, (if_neg hj).symm⟩
    · rintro ⟨k, hk, hb | ⟨rfl, rfl⟩, rfl⟩
      · have hne := Nat.ne_of_lt (List.getElem?_eq_some_iff.mp hb).1
        rw [if_neg hne, if_neg fun h ↦ hk h.symm]
        exact hb
      · rw [if_pos rfl, if_pos rfl, if_pos hlt]

theorem map_modify_of_eq {β : Type} {g : α → β} {f : α → α} (h : ∀ a, g (f a) = g a)
    (l : List α) (i : ℕ) : (l.modify i f).map g = l.map g := by
  apply ext_getElem?
  intro j
  simp only [getElem?_map, getElem?_modify]
  cases l[j]? with
  | none => simp
  | some a => by_cases hij : i = j <;> simp [hij, h]

theorem sum_map_modify (g : α → ℕ) (f : α → α) {l : List α} {i : ℕ} {a : α} (h : l[i]? = some a) :
    ((l.modify i f).map g).sum + g a = (l.map g).sum + g (f a) := by
  induction l generalizing i with
  | nil => simp at h
  | cons b l ih =>
    cases i with
    | zero =>
      obtain rfl : b = a := by simpa using h
      simp only [modify_zero_cons, map_cons, sum_cons]
      omega
    | succ i =>
      have h' := ih (by simpa using h)
      simp only [modify_succ_cons, map_cons, sum_cons]
      omega

end Eris.Library.Slots
