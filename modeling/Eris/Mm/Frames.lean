import Mathlib

namespace Eris.Mm

open Function

def pageSize : ℕ := 4096

def managedPages : ℕ := 262144

/-- The state of the frame allocator: a bit for each frame, set while it is taken. -/
structure Frames where
  bitmap : ℕ → Bool
  usedPages : ℕ

namespace Frames

def markUsed (i : ℕ) (s : Frames) : Frames :=
  if i < managedPages ∧ s.bitmap i = false then
    ⟨update s.bitmap i true, s.usedPages + 1⟩
  else s

def markAll : ℕ → ℕ → Frames → Frames
  | 0, _, s => s
  | count + 1, i, s => markAll count (i + 1) (s.markUsed i)

/-- The scan of `alloc_pages`: the first of `count` free frames in a row. The first argument
is the number of frames not looked at yet, `run` the free ones seen last. -/
def findRun (count : ℕ) (s : Frames) : ℕ → ℕ → ℕ → Option ℕ
  | 0, _, _ => none
  | left + 1, i, run =>
    if s.bitmap i then findRun count s left (i + 1) 0
    else if run + 1 < count then findRun count s left (i + 1) (run + 1)
    else some (i + 1 - count)

def allocPages (count : ℕ) (s : Frames) : Frames × ℕ :=
  if count = 0 then (s, 0)
  else
    match findRun count s managedPages 0 0 with
    | none => (s, 0)
    | some first => (s.markAll count first, first * pageSize)

def allocPage (s : Frames) : Frames × ℕ := s.allocPages 1

def clear (i : ℕ) (s : Frames) : Frames :=
  if i < managedPages ∧ s.bitmap i = true then
    ⟨update s.bitmap i false, s.usedPages - 1⟩
  else s

def clearAll : ℕ → ℕ → Frames → Frames
  | 0, _, s => s
  | count + 1, i, s => clearAll count (i + 1) (s.clear i)

def freePages (page count : ℕ) (s : Frames) : Frames := s.clearAll count (page / pageSize)

def freePage (page : ℕ) (s : Frames) : Frames := s.freePages page 1

variable {s : Frames} {i j : ℕ}

theorem bitmap_markUsed (hi : i < managedPages) :
    (s.markUsed i).bitmap = update s.bitmap i true := by
  unfold markUsed
  split
  · rfl
  · rename_i h
    have hb : s.bitmap i = true := by simpa [hi] using h
    rw [← hb, update_eq_self]

theorem bitmap_markAll (s : Frames) {count first : ℕ} (h : first + count ≤ managedPages) (i : ℕ) :
    (s.markAll count first).bitmap i = (s.bitmap i || decide (first ≤ i ∧ i < first + count)) := by
  induction count generalizing first s with
  | zero =>
    have hnone : ¬ (first ≤ i ∧ i < first + 0) := by omega
    rw [markAll, decide_eq_false hnone, Bool.or_false]
  | succ count ih =>
    rw [markAll, ih _ (by omega), bitmap_markUsed (by omega), update_apply]
    by_cases hi : i = first
    · simp [hi]
    · have hiff : (first + 1 ≤ i ∧ i < first + 1 + count) ↔ first ≤ i ∧ i < first + (count + 1) := by omega
      rw [if_neg hi, decide_eq_decide.mpr hiff]

theorem bitmap_clear (hi : i < managedPages) : (s.clear i).bitmap = update s.bitmap i false := by
  unfold clear
  split
  · rfl
  · rename_i h
    have hb : s.bitmap i = false := by simpa [hi] using h
    rw [← hb, update_eq_self]

theorem bitmap_freePage (hi : i < managedPages) :
    (s.freePage (i * pageSize)).bitmap = update s.bitmap i false := by
  have hdiv : i * pageSize / pageSize = i := Nat.mul_div_cancel i (by decide)
  simp only [freePage, freePages, hdiv, clearAll]
  exact bitmap_clear hi

theorem bitmap_clearAll (s : Frames) {count first : ℕ} (h : first + count ≤ managedPages) (i : ℕ) :
    (s.clearAll count first).bitmap i = (s.bitmap i && !decide (first ≤ i ∧ i < first + count)) := by
  induction count generalizing first s with
  | zero =>
    have hnone : ¬ (first ≤ i ∧ i < first + 0) := by omega
    rw [clearAll, decide_eq_false hnone, Bool.not_false, Bool.and_true]
  | succ count ih =>
    rw [clearAll, ih _ (by omega), bitmap_clear (by omega), update_apply]
    by_cases hi : i = first
    · simp [hi]
    · have hiff : (first + 1 ≤ i ∧ i < first + 1 + count) ↔ first ≤ i ∧ i < first + (count + 1) := by omega
      rw [if_neg hi, decide_eq_decide.mpr hiff]

/-- Frames in a row below `total` that are all free. -/
def FreeRun (s : Frames) (total first count : ℕ) : Prop :=
  first + count ≤ total ∧ ∀ i, first ≤ i → i < first + count → s.bitmap i = false

theorem not_freeRun_of_used {total first count : ℕ} (hi : s.bitmap i = true) (hlo : first ≤ i) (hhi : i < first + count) :
    ¬ s.FreeRun total first count := by
  intro h
  rw [h.2 i hlo hhi] at hi
  cases hi

/-- The scan has seen no run that is long enough, and `run` counts the free frames since the last taken one. -/
structure Scanned (s : Frames) (count i run : ℕ) : Prop where
  short : run < count
  none : ∀ first, ¬ s.FreeRun i first count
  free : ∀ j, j < i → i ≤ j + run → s.bitmap j = false
  used : run = i ∨ run < i ∧ s.bitmap (i - run - 1) = true

theorem scanned_zero {count : ℕ} (h : 0 < count) : Scanned s count 0 0 := by
  refine ⟨h, fun first hrun ↦ ?_, fun j hj ↦ absurd hj (Nat.not_lt_zero j), .inl rfl⟩
  have := hrun.1
  omega

theorem FreeRun.of_succ {count first : ℕ} (h : s.FreeRun (i + 1) first count) (hne : first + count ≠ i + 1) :
    s.FreeRun i first count :=
  ⟨by have := h.1; omega, h.2⟩

theorem Scanned.taken {count run : ℕ} (h : Scanned s count i run) (hi : s.bitmap i = true) :
    Scanned s count (i + 1) 0 := by
  have hshort := h.short
  refine ⟨by omega, fun first hrun ↦ ?_, fun j hj hle ↦ ?_, .inr ⟨by omega, ?_⟩⟩
  · by_cases hend : first + count = i + 1
    · exact not_freeRun_of_used hi (by omega) (by omega) hrun
    · exact h.none first (hrun.of_succ hend)
  · omega
  · rw [Nat.sub_zero, Nat.add_sub_cancel]
    exact hi

theorem Scanned.next {count run : ℕ} (h : Scanned s count i run) (hi : s.bitmap i = false) (hshort : run + 1 < count) :
    Scanned s count (i + 1) (run + 1) := by
  refine ⟨hshort, fun first hrun ↦ ?_, fun j hj hle ↦ ?_, ?_⟩
  · by_cases hend : first + count = i + 1
    · rcases h.used with heq | ⟨hlt, hused⟩
      · omega
      · exact not_freeRun_of_used hused (by omega) (by omega) hrun
    · exact h.none first (hrun.of_succ hend)
  · by_cases hj' : j = i
    · rw [hj', hi]
    · exact h.free j (by omega) (by omega)
  · rcases h.used with heq | ⟨hlt, hused⟩
    · exact .inl (by rw [heq])
    · refine .inr ⟨by omega, ?_⟩
      rw [show i + 1 - (run + 1) - 1 = i - run - 1 by omega]
      exact hused

theorem findRun_cases (left : ℕ) {count run : ℕ} (h : Scanned s count i run) :
    findRun count s left i run = none ∧ (∀ first, ¬ s.FreeRun (i + left) first count) ∨
    ∃ first, findRun count s left i run = some first ∧ s.FreeRun (i + left) first count ∧
      ∀ f < first, ¬ s.FreeRun (i + left) f count := by
  induction left generalizing i run with
  | zero => exact .inl ⟨rfl, h.none⟩
  | succ left ih =>
    rw [findRun, ← Nat.add_assoc, Nat.add_right_comm]
    cases hi : s.bitmap i with
    | true => exact ih (h.taken hi)
    | false =>
      by_cases hshort : run + 1 < count
      · rw [if_pos hshort]
        exact ih (h.next hi hshort)
      · rw [if_neg hshort]
        have hle : run ≤ i := by
          rcases h.used with heq | ⟨hlt, -⟩
          · omega
          · omega
        refine .inr ⟨_, rfl, ⟨by omega, fun j hlo hhi ↦ ?_⟩, fun f hf hfree ↦ ?_⟩
        · by_cases hj : j = i
          · rw [hj, hi]
          · exact h.free j (by omega) (by omega)
        · exact h.none f ⟨by omega, hfree.2⟩

theorem allocPages_cases (s : Frames) {count : ℕ} (hcount : 0 < count) :
    s.allocPages count = (s, 0) ∧ (∀ first, ¬ s.FreeRun managedPages first count) ∨
    ∃ first, s.allocPages count = (s.markAll count first, first * pageSize) ∧
      s.FreeRun managedPages first count ∧ ∀ f < first, ¬ s.FreeRun managedPages f count := by
  unfold allocPages
  rw [if_neg (by omega)]
  have hscan := findRun_cases managedPages (scanned_zero (s := s) hcount)
  rcases hscan with ⟨hnone, hall⟩ | ⟨first, hsome, hrun, hlowest⟩
  · exact .inl ⟨by rw [hnone], hall⟩
  · exact .inr ⟨first, by rw [hsome], hrun, hlowest⟩

theorem allocPage_cases (s : Frames) :
    (s.allocPage = (s, 0) ∧ ∀ i < managedPages, s.bitmap i = true) ∨
    ∃ i < managedPages, s.bitmap i = false ∧ s.allocPage = (s.markUsed i, i * pageSize) := by
  rcases s.allocPages_cases Nat.one_pos with ⟨hnone, hall⟩ | ⟨i, hsome, hrun, -⟩
  · refine .inl ⟨hnone, fun i hi ↦ ?_⟩
    cases hb : s.bitmap i with
    | true => rfl
    | false =>
      refine absurd ⟨hi, fun j hlo hhi ↦ ?_⟩ (hall i)
      rw [show j = i by omega, hb]
  · exact .inr ⟨i, hrun.1, hrun.2 i (Nat.le_refl i) (Nat.lt_succ_self i), hsome⟩

end Frames

end Eris.Mm
