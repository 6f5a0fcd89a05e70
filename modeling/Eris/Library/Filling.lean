import Mathlib

namespace Eris.Library.Filling

open List Finset

/-! A cache that is never emptied: what comes first stays. -/

section

variable {ι : Type}

/-- A cache has no element twice, and no more than it has room for. -/
structure Valid (room : ℕ) (cache : List ι) : Prop where
  nodup : cache.Nodup
  length_le : cache.length ≤ room

theorem valid_nil {room : ℕ} : Valid room ([] : List ι) := ⟨nodup_nil, Nat.zero_le _⟩

variable [DecidableEq ι]

def put (room : ℕ) (cache : List ι) (i : ι) : Bool × List ι :=
  if i ∈ cache then (true, cache)
  else if cache.length < room then (true, cache ++ [i])
  else (false, cache)

def fill (room : ℕ) (cache : List ι) : List ι → List ι
  | [] => cache
  | i :: l => fill room (put room cache i).2 l

variable {room : ℕ} {cache l : List ι} {i : ι}

theorem put_of_mem (h : i ∈ cache) : put room cache i = (true, cache) := if_pos h

theorem put_of_room (h : i ∉ cache) (hroom : cache.length < room) : put room cache i = (true, cache ++ [i]) := by
  rw [put, if_neg h, if_pos hroom]

theorem put_of_full (h : i ∉ cache) (hfull : room ≤ cache.length) : put room cache i = (false, cache) := by
  rw [put, if_neg h, if_neg (Nat.not_lt.mpr hfull)]

theorem put_cases (room : ℕ) (cache : List ι) (i : ι) :
    (i ∈ cache ∧ put room cache i = (true, cache)) ∨
    (i ∉ cache ∧ cache.length < room ∧ put room cache i = (true, cache ++ [i])) ∨
    i ∉ cache ∧ room ≤ cache.length ∧ put room cache i = (false, cache) := by
  by_cases hmem : i ∈ cache
  · exact .inl ⟨hmem, put_of_mem hmem⟩
  · obtain hroom | hfull := Nat.lt_or_ge cache.length room
    · exact .inr (.inl ⟨hmem, hroom, put_of_room hmem hroom⟩)
    · exact .inr (.inr ⟨hmem, hfull, put_of_full hmem hfull⟩)

theorem fill_append (l₁ l₂ : List ι) : fill room cache (l₁ ++ l₂) = fill room (fill room cache l₁) l₂ := by
  induction l₁ generalizing cache with
  | nil => rfl
  | cons i l₁ ih => exact ih

theorem fill_of_full (h : room ≤ cache.length) (l : List ι) : fill room cache l = cache := by
  induction l with
  | nil => rfl
  | cons i l ih =>
    have hsame : (put room cache i).2 = cache := by
      obtain ⟨-, hput⟩ | ⟨-, hroom, -⟩ | ⟨-, -, hput⟩ := put_cases room cache i
      · rw [hput]
      · omega
      · rw [hput]
    rw [fill, hsame, ih]

theorem subset_put : cache ⊆ (put room cache i).2 := by
  obtain ⟨-, hput⟩ | ⟨-, -, hput⟩ | ⟨-, -, hput⟩ := put_cases room cache i
  · rw [hput]
    exact List.Subset.refl cache
  · rw [hput]
    exact subset_append_left cache [i]
  · rw [hput]
    exact List.Subset.refl cache

theorem subset_fill (l : List ι) : cache ⊆ fill room cache l := by
  induction l generalizing cache with
  | nil => exact List.Subset.refl cache
  | cons i l ih => exact List.Subset.trans subset_put ih

theorem Valid.put (h : Valid room cache) (i : ι) : Valid room (put room cache i).2 := by
  obtain ⟨-, hput⟩ | ⟨hnot, hroom, hput⟩ | ⟨-, -, hput⟩ := put_cases room cache i
  · rwa [hput]
  · rw [hput]
    refine ⟨nodup_append.mpr ⟨h.nodup, nodup_singleton i, ?_⟩, ?_⟩
    · intro a ha b hb hab
      rw [List.mem_singleton.mp hb] at hab
      exact hnot (hab ▸ ha)
    · rw [length_append]
      exact hroom
  · rwa [hput]

theorem Valid.fill (h : Valid room cache) (l : List ι) : Valid room (fill room cache l) := by
  induction l generalizing cache with
  | nil => exact h
  | cons i l ih => exact ih (h.put i)

theorem Valid.subset_fill_iff (h : Valid room cache) (l : List ι) :
    l ⊆ Filling.fill room cache l ↔ (cache.toFinset ∪ l.toFinset).card ≤ room := by
  constructor
  · intro hall
    have hsub : cache.toFinset ∪ l.toFinset ⊆ (Filling.fill room cache l).toFinset := by
      intro i hi
      rw [mem_union, mem_toFinset, mem_toFinset] at hi
      rw [mem_toFinset]
      obtain hi | hi := hi
      · exact subset_fill l hi
      · exact hall hi
    calc (cache.toFinset ∪ l.toFinset).card ≤ (Filling.fill room cache l).toFinset.card := card_le_card hsub
      _ ≤ (Filling.fill room cache l).length := toFinset_card_le _
      _ ≤ room := (h.fill l).length_le
  · intro hcard
    induction l generalizing cache with
    | nil => exact nil_subset _
    | cons i l ih =>
      have hset : (Filling.put room cache i).2.toFinset ∪ l.toFinset = cache.toFinset ∪ (i :: l).toFinset ∧
          i ∈ (Filling.put room cache i).2 := by
        obtain ⟨hmem, hput⟩ | ⟨-, -, hput⟩ | ⟨hnot, hfull, -⟩ := put_cases room cache i
        · rw [hput]
          refine ⟨?_, hmem⟩
          ext j
          simp only [mem_union, mem_toFinset, List.mem_cons]
          constructor
          · rintro (hj | hj)
            · exact .inl hj
            · exact .inr (.inr hj)
          · rintro (hj | rfl | hj)
            · exact .inl hj
            · exact .inl hmem
            · exact .inr hj
        · rw [hput]
          refine ⟨?_, mem_append_right _ List.mem_cons_self⟩
          rw [toFinset_append, toFinset_cons, toFinset_cons, toFinset_nil, union_assoc,
            insert_empty_eq, Finset.insert_eq]
        · -- one element more than there is room for
          have hlt : cache.length < (cache.toFinset ∪ (i :: l).toFinset).card := by
            rw [← toFinset_card_of_nodup h.nodup]
            refine card_lt_card (ssubset_iff_of_subset subset_union_left |>.mpr ⟨i, ?_, ?_⟩)
            · simp
            · simpa using hnot
          omega
      rw [← hset.1] at hcard
      refine List.cons_subset.mpr ⟨subset_fill l hset.2, ih (h.put i) hcard⟩

end

end Eris.Library.Filling
