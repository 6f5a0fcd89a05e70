import Eris.Library.Bitmap
import Eris.Mm.Growth

namespace Eris.Mm.Memory

open Library.Bitmap Function

variable {m m' : Memory} {n : ℕ}

/-- Frame zero is taken, and at least `n` frames are free. -/
structure Supplied (n : ℕ) (m : Memory) : Prop where
  low : m.frames.bitmap 0 = true
  free : n ≤ population (fun f ↦ !m.frames.bitmap f) managedPages

theorem Supplied.mono (h : Supplied n m) {l : ℕ} (hle : l ≤ n) : Supplied l m := ⟨h.low, Nat.le_trans hle h.free⟩

theorem Supplied.congr (h : Supplied n m) (hf : m'.frames = m.frames) : Supplied n m' :=
  ⟨by rw [hf]; exact h.low, by rw [hf]; exact h.free⟩

theorem Supplied.allocPage (h : Supplied (n + 1) m) : m.allocPage.2 ≠ 0 ∧ Supplied n m.allocPage.1 := by
  rcases m.frames.allocPage_cases with ⟨-, hall⟩ | ⟨i, hi, hfree, hsome⟩
  · have hnone : (Finset.range managedPages).filter (fun f ↦ (!m.frames.bitmap f) = true) = ∅ := by
      refine Finset.filter_eq_empty_iff.mpr fun f hf ↦ ?_
      simp [hall f (Finset.mem_range.mp hf)]
    have hcount := h.free
    rw [population, hnone, Finset.card_empty] at hcount
    exact absurd hcount (Nat.not_succ_le_zero n)
  · have hne : i ≠ 0 := by
      intro h0
      rw [h0, h.low] at hfree
      cases hfree
    have hbitmap : m.allocPage.1.frames.bitmap = update m.frames.bitmap i true := by
      rw [Memory.allocPage, hsome]
      exact Frames.bitmap_markUsed hi
    refine ⟨?_, ?_, ?_⟩
    · rw [Memory.allocPage, hsome]
      exact Nat.ne_of_gt (Nat.mul_pos (Nat.pos_of_ne_zero hne) (by decide))
    · rw [hbitmap, update_of_ne hne.symm]
      exact h.low
    · have hflip : (fun f ↦ !m.allocPage.1.frames.bitmap f) = update (fun f ↦ !m.frames.bitmap f) i false := by
        funext f
        rw [hbitmap, update_apply, update_apply]
        split
        · rfl
        · rfl
      have hcount := population_update_false (f := fun f ↦ !m.frames.bitmap f) hi (by simp [hfree])
      have hsupply := h.free
      rw [hflip]
      omega

theorem Supplied.allocateTable (h : Supplied (n + 1) m) :
    ∃ m' table, m.allocateTable = (m', some table) ∧ Supplied n m' := by
  obtain ⟨hne, hleft⟩ := h.allocPage
  refine ⟨_, _, if_neg hne, ?_⟩
  exact hleft.congr rfl

theorem Supplied.enterTable (h : Supplied (n + 1) m) (table i : ℕ) :
    ∃ m', m.enterTable true table i = (m', true) ∧ Supplied n m' := by
  unfold Memory.enterTable
  split
  · exact ⟨m, rfl, h.mono (Nat.le_succ n)⟩
  · obtain ⟨m', next, hnew, hleft⟩ := h.allocateTable
    rw [if_pos rfl, hnew]
    exact ⟨_, rfl, hleft.congr rfl⟩

theorem Supplied.splitHugePage (h : Supplied (n + 1) m) (table i : ℕ) :
    ∃ m', m.splitHugePage table i = (m', true) ∧ Supplied n m' := by
  obtain ⟨m', next, hnew, hleft⟩ := h.allocateTable
  unfold Memory.splitHugePage
  rw [hnew]
  exact ⟨_, rfl, hleft.congr rfl⟩

theorem Supplied.tableFor (level : ℕ) (h : Supplied (n + 2 * level) m) (address : ℕ) (user : Bool) (table : ℕ) :
    ∃ m' t, m.tableFor address true user level table = (m', some t) ∧ Supplied n m' := by
  induction level generalizing m table with
  | zero => exact ⟨m, table, rfl, h⟩
  | succ level ih =>
    obtain ⟨m₁, henter, h₁⟩ := Supplied.enterTable h table (indexOf address (level + 1))
    have h₂ : Supplied (n + 2 * level + 1) (m₁.allowUser user table (indexOf address (level + 1))) := by
      unfold allowUser
      split
      · exact h₁.congr rfl
      · exact h₁
    unfold Memory.tableFor
    simp only [henter]
    split
    · obtain ⟨m₃, hsplit, h₃⟩ := h₂.splitHugePage table (indexOf address (level + 1))
      rw [if_pos trivial, hsplit]
      exact ih h₃ _
    · exact ih (h₂.mono (Nat.le_succ _)) _

theorem Supplied.mapPages (pages : ℕ) (h : Supplied (n + 6 * pages) m) (flags : PageFlags) (address frame : ℕ) :
    ∃ m', m.mapPages flags pages address frame = (m', true) ∧ Supplied n m' := by
  induction pages generalizing m address frame with
  | zero => exact ⟨m, rfl, h⟩
  | succ pages ih =>
    obtain ⟨m₁, t, htable, h₁⟩ := Supplied.tableFor 3 h address flags.user m.root
    have h₂ : Supplied (n + 6 * pages)
        (m₁.setEntry t (indexOf address 0) (encode flags (frame / pageSize % 2 ^ 40))) := h₁.congr rfl
    rw [Memory.mapPages, htable]
    exact ih h₂ _ _

end Eris.Mm.Memory
