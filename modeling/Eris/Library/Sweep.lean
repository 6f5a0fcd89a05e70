import Eris.Library.Slots

namespace Eris.Library.Slots

open List

variable {α : Type} {p q : α → Bool} {done before mid tail rest : List α} {a t u z : α} {left : ℕ}

/-- Take out the entries with a property from index `i` on, the last entry filling each hole
and being looked at next. The first argument is the number of rounds. -/
def sweep (p : α → Bool) : ℕ → ℕ → List α → List α
  | 0, _, l => l
  | left + 1, i, l =>
    match l[i]? with
    | none => l
    | some a => if p a then sweep p left i (swapRemove l i) else sweep p left (i + 1) l

theorem swapRemove_hole (done rest : List α) (a z : α) :
    swapRemove (done ++ a :: (rest ++ [z])) done.length = done ++ z :: rest := by
  have hshape : done ++ a :: (rest ++ [z]) = (done ++ a :: rest) ++ [z] := by simp
  rw [hshape, swapRemove_concat_of_lt _ _ (by simp)]
  simp

theorem sweep_keep (h : p a = false) (left : ℕ) (done rest : List α) :
    sweep p (left + 1) done.length (done ++ a :: rest) = sweep p left (done ++ [a]).length ((done ++ [a]) ++ rest) := by
  simp [sweep, h]

theorem sweep_drop (h : p a = true) (left : ℕ) (done rest : List α) (z : α) :
    sweep p (left + 1) done.length (done ++ a :: (rest ++ [z])) = sweep p left done.length (done ++ z :: rest) := by
  rw [sweep, getElem?_append_right (Nat.le_refl _), Nat.sub_self, getElem?_cons_zero]
  simp only [h, if_true, swapRemove_hole]

theorem exists_sweep_eq (left : ℕ) (done rest : List α) :
    ∃ x, sweep p left done.length (done ++ rest) = done ++ x := by
  induction left generalizing done rest with
  | zero => exact ⟨rest, rfl⟩
  | succ left ih =>
    cases rest with
    | nil => exact ⟨[], by simp [sweep]⟩
    | cons a rest =>
      cases ha : p a with
      | false =>
        rw [sweep_keep ha]
        obtain ⟨x, hx⟩ := ih (done ++ [a]) rest
        exact ⟨a :: x, by rw [hx]; simp⟩
      | true =>
        obtain rfl | ⟨init, z, rfl⟩ := rest.eq_nil_or_concat'
        · refine ⟨[], ?_⟩
          rw [sweep, getElem?_append_right (Nat.le_refl _), Nat.sub_self, getElem?_cons_zero]
          simp only [ha, if_true, swapRemove_concat_length, List.append_nil]
          cases left with
          | zero => rfl
          | succ left => simp [sweep]
        · rw [sweep_drop ha]
          exact ih done (z :: init)

section

variable (hdone : ∀ a ∈ done, q a = false)

include hdone

theorem find_sweep_head (hp : p t = false) (hq : q t = true) :
    (sweep p (left + 1) done.length (done ++ t :: rest)).find? q = some t := by
  rw [sweep_keep hp]
  obtain ⟨x, hx⟩ := exists_sweep_eq left (done ++ [t]) rest
  have hnone : done.find? q = none := by
    rw [find?_eq_none]
    intro a ha
    simp [hdone a ha]
  rw [hx, append_assoc, find?_append, hnone]
  simp [hq]

theorem quiet_concat (ha : q a = false) : ∀ b ∈ done ++ [a], q b = false := by
  intro b hb
  rcases mem_append.mp hb with hb | hb
  · exact hdone b hb
  · rw [mem_singleton.mp hb]
    exact ha

theorem find_sweep_of_far (hleft : (before ++ t :: rest).length ≤ left)
    (hbefore : ∀ a ∈ before, p a = false → q a = false) (hp : p t = false) (hq : q t = true)
    (hfar : ∀ mid u tail, rest = mid ++ u :: tail → p u = false → q u = true → before.countP p ≤ tail.countP (fun a ↦ !p a)) :
    (sweep p left done.length (done ++ (before ++ t :: rest))).find? q = some t := by
  induction left generalizing done before rest with
  | zero => simp at hleft
  | succ left ih =>
    cases before with
    | nil => exact find_sweep_head hdone hp hq
    | cons b before =>
      cases hb : p b with
      | false =>
        rw [cons_append, sweep_keep hb]
        refine ih (quiet_concat hdone (hbefore b mem_cons_self hb)) ?_ ?_ ?_
        · simpa using hleft
        · exact fun a ha ↦ hbefore a (mem_cons_of_mem _ ha)
        · intro mid u tail hsplit hpu hqu
          simpa [hb] using hfar mid u tail hsplit hpu hqu
      | true =>
        obtain rfl | ⟨init, z, rfl⟩ := rest.eq_nil_or_concat'
        · -- what was found is the last entry and fills the hole itself
          rw [cons_append, sweep_drop hb]
          cases left with
          | zero => simp at hleft
          | succ left => exact find_sweep_head hdone hp hq
        · have hshape : (b :: before) ++ t :: (init ++ [z]) = b :: ((before ++ t :: init) ++ [z]) := by simp
          rw [hshape, sweep_drop hb, ← cons_append]
          refine ih hdone ?_ ?_ ?_
          · simp only [length_append, length_cons, length_nil] at hleft ⊢
            omega
          · intro a ha hpa
            rcases mem_cons.mp ha with rfl | ha
            · by_contra hqa
              have hle := hfar init a [] rfl hpa (by simpa using hqa)
              simp [hb] at hle
            · exact hbefore a (mem_cons_of_mem _ ha) hpa
          · intro mid u tail hsplit hpu hqu
            have hle := hfar mid u (tail ++ [z]) (by simp [hsplit]) hpu hqu
            cases hz : p z <;> simp [hb, hz] at hle ⊢ <;> omega

theorem find_sweep_of_near (hleft : (before ++ t :: (mid ++ u :: tail)).length ≤ left)
    (hbefore : ∀ a ∈ before, p a = false → q a = false) (hp : p u = false) (hq : q u = true)
    (htail : ∀ a ∈ tail, p a = false → q a = false) (hnear : tail.countP (fun a ↦ !p a) < before.countP p) :
    (sweep p left done.length (done ++ (before ++ t :: (mid ++ u :: tail)))).find? q = some u := by
  induction left generalizing done before tail with
  | zero => simp at hleft
  | succ left ih =>
    cases before with
    | nil => simp at hnear
    | cons b before =>
      cases hb : p b with
      | false =>
        rw [cons_append, sweep_keep hb]
        refine ih (quiet_concat hdone (hbefore b mem_cons_self hb)) ?_ ?_ htail ?_
        · simpa using hleft
        · exact fun a ha ↦ hbefore a (mem_cons_of_mem _ ha)
        · simpa [hb] using hnear
      | true =>
        obtain rfl | ⟨init, z, rfl⟩ := tail.eq_nil_or_concat'
        · have hshape : (b :: before) ++ t :: (mid ++ [u]) = b :: ((before ++ t :: mid) ++ [u]) := by simp
          rw [hshape, sweep_drop hb]
          cases left with
          | zero => simp at hleft
          | succ left => exact find_sweep_head hdone hp hq
        · have hshape : (b :: before) ++ t :: (mid ++ u :: (init ++ [z])) =
              b :: ((before ++ t :: (mid ++ u :: init)) ++ [z]) := by simp
          rw [hshape, sweep_drop hb, ← cons_append]
          refine ih hdone ?_ ?_ ?_ ?_
          · simp only [length_append, length_cons, length_nil] at hleft ⊢
            omega
          · intro a ha hpa
            rcases mem_cons.mp ha with rfl | ha
            · exact htail a (by simp) hpa
            · exact hbefore a (mem_cons_of_mem _ ha) hpa
          · exact fun a ha ↦ htail a (by simp [ha])
          · cases hz : p z <;> simp [hb, hz] at hnear ⊢ <;> omega

end

theorem exists_last_match {l : List α} (h : ∃ a ∈ l, q a = true) :
    ∃ mid u tail, l = mid ++ u :: tail ∧ q u = true ∧ ∀ a ∈ tail, q a = false := by
  induction l with
  | nil => simp at h
  | cons a l ih =>
    by_cases hl : ∃ b ∈ l, q b = true
    · obtain ⟨mid, u, tail, rfl, hu, htail⟩ := ih hl
      exact ⟨a :: mid, u, tail, rfl, hu, htail⟩
    · obtain ⟨b, hb, hqb⟩ := h
      rcases mem_cons.mp hb with rfl | hb
      · refine ⟨[], b, l, rfl, hqb, ?_⟩
        intro c hc
        by_contra hqc
        exact hl ⟨c, hc, by simpa using hqc⟩
      · exact absurd ⟨b, hb, hqb⟩ hl

theorem map_find_sweep_iff {β : Type} (g : α → β) (hbefore : ∀ a ∈ before, p a = false → q a = false)
    (hp : p t = false) (hq : q t = true) :
    ((sweep p (before ++ t :: rest).length 0 (before ++ t :: rest)).find? q).map g = some (g t) ↔
    ∀ mid u tail, rest = mid ++ u :: tail → p u = false → q u = true → (∀ a ∈ tail, p a = false → q a = false) →
      tail.countP (fun a ↦ !p a) < before.countP p → g u = g t := by
  have hnone : ∀ a ∈ ([] : List α), q a = false := nofun
  have hnear (mid tail : List α) (u : α) (hrest : rest = mid ++ u :: tail) (hpu : p u = false)
      (hqu : q u = true) (htail : ∀ a ∈ tail, p a = false → q a = false)
      (hlt : tail.countP (fun a ↦ !p a) < before.countP p) :
      (sweep p (before ++ t :: rest).length 0 (before ++ t :: rest)).find? q = some u := by
    subst hrest
    exact find_sweep_of_near hnone (Nat.le_refl _) hbefore hpu hqu htail hlt
  constructor
  · intro hmap mid u tail hrest hpu hqu htail hlt
    rw [hnear mid tail u hrest hpu hqu htail hlt] at hmap
    exact Option.some.inj hmap
  · intro hsame
    by_cases hex : ∃ mid u tail, rest = mid ++ u :: tail ∧ p u = false ∧ q u = true ∧
        (∀ a ∈ tail, p a = false → q a = false) ∧ tail.countP (fun a ↦ !p a) < before.countP p
    · obtain ⟨mid, u, tail, hrest, hpu, hqu, htail, hlt⟩ := hex
      rw [hnear mid tail u hrest hpu hqu htail hlt, Option.map_some, hsame mid u tail hrest hpu hqu htail hlt]
    · have hfar : ∀ mid u tail, rest = mid ++ u :: tail → p u = false → q u = true →
          before.countP p ≤ tail.countP (fun a ↦ !p a) := by
        intro mid u tail hrest hpu hqu
        by_contra hlt
        obtain ⟨mid', w, tail', hsplit, hw, htail'⟩ :=
          exists_last_match (q := fun a ↦ !p a && q a) ⟨u, mem_cons_self, by simp [hpu, hqu]⟩
        simp only [Bool.and_eq_true, Bool.not_eq_true', Bool.and_eq_false_imp] at hw htail'
        have hsub : tail'.Sublist tail := by
          cases mid' with
          | nil =>
            cases hsplit
            exact List.Sublist.refl _
          | cons c mid' =>
            cases hsplit
            exact (sublist_cons_self _ _).trans (sublist_append_right _ _)
        refine hex ⟨mid ++ mid', w, tail', by rw [hrest, hsplit, append_assoc], hw.1, hw.2, htail', ?_⟩
        have hle := hsub.countP_le (p := fun a ↦ !p a)
        omega
      have hfind := find_sweep_of_far hnone (Nat.le_refl _) hbefore hp hq hfar
      rw [nil_append, length_nil] at hfind
      rw [hfind, Option.map_some]

end Eris.Library.Slots
