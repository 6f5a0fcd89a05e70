import Mathlib

namespace Eris.Library.Paths

open List

variable {α : Type} {w : List α} {k : ℕ}

def pieces (k : ℕ) (w : List α) : List (List α) :=
  if w = [] ∨ k = 0 then [] else w.take k :: pieces k (w.drop k)
termination_by w.length
decreasing_by
  rename_i h
  obtain ⟨hw, hk⟩ := not_or.mp h
  have hpos := length_pos_iff.mpr hw
  rw [length_drop]
  omega

@[simp]
theorem pieces_nil (k : ℕ) : pieces k ([] : List α) = [] := by
  rw [pieces, if_pos (.inl rfl)]

theorem pieces_of_ne_nil (hk : 0 < k) (hw : w ≠ []) : pieces k w = w.take k :: pieces k (w.drop k) := by
  rw [pieces, if_neg (not_or.mpr ⟨hw, hk.ne'⟩)]

theorem pieces_of_length_le (hw : w ≠ []) (hle : w.length ≤ k) : pieces k w = [w] := by
  have hk := (length_pos_iff.mpr hw).trans_le hle
  rw [pieces_of_ne_nil hk hw, take_of_length_le hle, drop_of_length_le hle, pieces_nil]

theorem flatMap_pieces_of_length_le {ws : List (List α)} (hne : ∀ w ∈ ws, w ≠ []) (hle : ∀ w ∈ ws, w.length ≤ k) :
    ws.flatMap (pieces k) = ws := by
  induction ws with
  | nil => rfl
  | cons w ws ih =>
    rw [forall_mem_cons] at hne hle
    rw [flatMap_cons, pieces_of_length_le hne.1 hle.1, ih hne.2 hle.2, singleton_append]

variable [DecidableEq α] {sep : α} {l : List α}

def components (sep : α) (l : List α) : List (List α) := (l.splitOn sep).filter (· ≠ [])

@[simp]
theorem components_nil (sep : α) : components sep [] = [] := by
  simp [components]

theorem components_append_sep (l l' : List α) : components sep (l ++ sep :: l') = components sep l ++ components sep l' := by
  have hsplit : (l ++ sep :: l').splitOn sep = l.splitOn sep ++ l'.splitOn sep :=
    splitOnP_append_cons l l' (beq_self_eq_true sep)
  rw [components, hsplit, filter_append]
  rfl

@[simp]
theorem components_sep_cons (l : List α) : components sep (sep :: l) = components sep l := by
  have h : components sep ([] ++ sep :: l) = _ := components_append_sep [] l
  rwa [components_nil, nil_append, nil_append] at h

theorem components_word (hw : w ≠ []) (hsep : sep ∉ w) : components sep w = [w] := by
  have hnone : ∀ x ∈ w, (x == sep) = false := by
    intro x hx
    rw [beq_eq_false_iff_ne]
    rintro rfl
    exact hsep hx
  simp [components, List.splitOn, splitOnP_eq_singleton hnone, hw]

theorem components_dropWhile (l : List α) : components sep (l.dropWhile (· = sep)) = components sep l := by
  induction l with
  | nil => rfl
  | cons x l ih =>
    by_cases hx : x = sep
    · rw [dropWhile_cons_of_pos (by simpa using hx), ih, hx, components_sep_cons]
    · rw [dropWhile_cons_of_neg (by simpa using hx)]

theorem ne_of_dropWhile_eq_cons {x : α} {rest : List α} (h : l.dropWhile (· = sep) = x :: rest) : x ≠ sep := by
  induction l with
  | nil => cases h
  | cons y l ih =>
    by_cases hy : y = sep
    · rw [dropWhile_cons_of_pos (by simpa using hy)] at h
      exact ih h
    · rw [dropWhile_cons_of_neg (by simpa using hy)] at h
      cases h
      exact hy

def Boundary (sep : α) (l : List α) : Prop := l = [] ∨ ∃ rest, l = sep :: rest

theorem boundary_dropWhile (sep : α) (l : List α) : Boundary sep (l.dropWhile (· ≠ sep)) := by
  induction l with
  | nil => exact .inl rfl
  | cons x l ih =>
    by_cases hx : x = sep
    · exact .inr ⟨l, by simp [hx]⟩
    · rwa [dropWhile_cons_of_pos (by simpa using hx)]

theorem components_append (h : Boundary sep l) (w : List α) :
    components sep (w ++ l) = components sep w ++ components sep l := by
  rcases h with rfl | ⟨rest, rfl⟩
  · simp
  · rw [components_append_sep, components_sep_cons]

theorem ne_nil_of_mem_components (h : w ∈ components sep l) : w ≠ [] := by
  simpa using (mem_filter.mp h).2

theorem flatMap_pieces_components (hsep : sep ∉ w) (h : Boundary sep l) :
    (components sep (w ++ l)).flatMap (pieces k) = pieces k w ++ (components sep l).flatMap (pieces k) := by
  rw [components_append h, flatMap_append]
  by_cases hw : w = []
  · rw [hw, components_nil, pieces_nil, flatMap_nil]
  · rw [components_word hw hsep, flatMap_singleton]

def lastPart (sep : α) (l : List α) : List α := l.rtakeWhile (· ≠ sep)

theorem lastPart_of_notMem (h : sep ∉ l) : lastPart sep l = l := by
  rw [lastPart, rtakeWhile_eq_self_iff]
  intro x hx
  rw [decide_eq_true_eq]
  rintro rfl
  exact h hx

theorem lastPart_append_sep (l l' : List α) : lastPart sep (l ++ sep :: l') = lastPart sep l' := by
  rw [lastPart, lastPart, List.rtakeWhile, List.rtakeWhile, reverse_append, reverse_cons, append_assoc,
    takeWhile_append]
  split
  · rename_i h
    rw [singleton_append, takeWhile_cons_of_neg (by simp), List.append_nil]
    exact congrArg List.reverse (( takeWhile_prefix _).eq_of_length h).symm
  · rfl

theorem lastPart_suffix (sep : α) (l : List α) : lastPart sep l <:+ l := rtakeWhile_suffix _ l

def strip (sep : α) : List α → List α
  | [] => []
  | x :: l => x :: l.rdropWhile (· = sep)

theorem strip_concat (x : α) (l : List α) (y : α) :
    strip sep (x :: l ++ [y]) = if y = sep then strip sep (x :: l) else x :: l ++ [y] := by
  rw [cons_append, strip, rdropWhile_concat]
  simp only [decide_eq_true_eq]
  split <;> rfl

end Eris.Library.Paths
