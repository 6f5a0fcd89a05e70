import Eris.Mm.Growth

/-!
One memory seen from several roots: the kernel's and those of the processes, which share the
kernel's first top level entry.
-/

namespace Eris.Mm

open Library.Radix

theorem pathTo_lead (a : ℕ) {d : ℕ} (hd : d ≤ 3) : pathTo a (d + 1) / entriesPerTable ^ d = indexOf a 3 := by
  unfold pathTo indexOf entriesPerTable
  interval_cases d <;> norm_num <;> omega

namespace Memory

def under (r : ℕ) (m : Memory) : Memory := { m with root := r }

variable {m m' : Memory} {r r' a d p f : ℕ}

@[simp] theorem under_root : (m.under r).root = r := rfl

@[simp] theorem under_entry (f i : ℕ) : (m.under r).entry f i = m.entry f i := rfl

@[simp] theorem under_child : (m.under r).child = m.child := rfl

@[simp] theorem under_under : (m.under r).under r' = m.under r' := rfl

@[simp] theorem under_self : m.under m.root = m := rfl

theorem tableAt_front (m : Memory) (d p : ℕ) :
    m.tableAt (d + 1) p = if p / entriesPerTable ^ d < entriesPerTable then
        (m.child m.root (p / entriesPerTable ^ d)).bind fun f ↦ (m.under f).tableAt d (p % entriesPerTable ^ d)
      else none :=
  node_front (by decide) d p

theorem onPath_under_congr (h : m.entry r (indexOf a 3) = m.entry r' (indexOf a 3)) (hd : d ≤ 3) :
    (m.under r).onPath d a = (m.under r').onPath d a := by
  cases d with
  | zero => rw [onPath_of_tableAt (tableAt_zero _ a), onPath_of_tableAt (tableAt_zero _ a)]; exact h
  | succ d =>
    have hchild : m.child r (indexOf a 3) = m.child r' (indexOf a 3) := by simp only [child, h]
    have hat : (m.under r).tableAt (d + 1) (pathTo a (d + 1)) = (m.under r').tableAt (d + 1) (pathTo a (d + 1)) := by
      simp only [tableAt_front, pathTo_lead a (show d ≤ 3 by omega), under_root, under_child, under_under, hchild]
    rw [onPath, onPath, hat]
    rfl

theorem translateFrom_under (level f : ℕ) : translateFrom a (m.under r) level f = translateFrom a m level f := by
  induction level generalizing f with
  | zero => rfl
  | succ level ih =>
    rw [translateFrom, translateFrom, ih]
    rfl

theorem translate_under_congr (h : m.entry r (indexOf a 3) = m.entry r' (indexOf a 3)) :
    (m.under r).translate a = (m.under r').translate a := by
  have hfrom : ∀ r, (m.under r).translate a = translateFrom a m 3 r := fun r ↦ translateFrom_under 3 r
  rw [hfrom, hfrom, translateFrom, h]
  rfl

def Outer (d p : ℕ) : Prop := d = 0 ∨ entriesPerTable ^ (d - 1) ≤ p

theorem outer_pathTo (ha : indexOf a 3 ≠ 0) (hd : d ≤ 4) : Outer d (pathTo a d) := by
  cases d with
  | zero => exact .inl rfl
  | succ d =>
    refine .inr ?_
    by_contra hlt
    rw [← pathTo_lead a (show d ≤ 3 by omega), Nat.div_eq_of_lt (by simpa using hlt)] at ha
    exact ha rfl

def Private (m : Memory) (r f : ℕ) : Prop :=
  ∃ d ≤ 3, ∃ p, (m.under r).tableAt d p = some f ∧ Outer d p

theorem tableAt_under_zero (h : m.entry r 0 = m.entry r' 0) (hp : p < entriesPerTable ^ d) :
    (m.under r).tableAt (d + 1) p = (m.under r').tableAt (d + 1) p := by
  have hchild : m.child r 0 = m.child r' 0 := by simp only [child, h]
  simp only [tableAt_front, Nat.div_eq_of_lt hp, under_root, under_child, under_under, hchild]

theorem IsTable.private_or (h : m.entry r 0 = m.entry m.root 0) (hf : (m.under r).IsTable f) :
    m.Private r f ∨ m.IsTable f := by
  obtain ⟨d, hd, p, hp⟩ := hf
  cases d with
  | zero => exact .inl ⟨0, by omega, p, hp, .inl rfl⟩
  | succ d =>
    by_cases hlead : p < entriesPerTable ^ d
    · rw [tableAt_under_zero h hlead] at hp
      exact .inr ⟨d + 1, hd, p, hp⟩
    · exact .inl ⟨d + 1, hd, p, hp, .inr (Nat.le_of_not_lt hlead)⟩

theorem Private.isTable (h : m.Private r f) : (m.under r).IsTable f := by
  obtain ⟨d, hd, p, hp, -⟩ := h
  exact ⟨d, hd, p, hp⟩

/-- The tables of a view and what they say are as before. -/
structure Kept (m m' : Memory) : Prop where
  root : m'.root = m.root
  entries : ∀ f, m.IsTable f → ∀ i, m'.entry f i = m.entry f i

namespace Kept

theorem refl (m : Memory) : Kept m m := ⟨rfl, fun _ _ _ ↦ rfl⟩

section

variable (h : Kept m m')

include h

theorem tableAt (hd : d ≤ 3) (p : ℕ) : m'.tableAt d p = m.tableAt d p := by
  unfold Memory.tableAt
  rw [h.root]
  refine node_congr (fun d' hd' q f hf ↦ ?_) p
  funext i
  simp only [child, h.entries f ⟨d', by omega, q, hf⟩]

theorem isTable : m'.IsTable f ↔ m.IsTable f :=
  exists_congr fun d ↦ and_congr_right fun hd ↦ exists_congr fun p ↦ by rw [h.tableAt hd]

theorem trans {m'' : Memory} (h' : Kept m' m'') : Kept m m'' where
  root := h'.root.trans h.root
  entries f hf i := (h'.entries f (h.isTable.mpr hf) i).trans (h.entries f hf i)

theorem onPath (hd : d ≤ 3) (a : ℕ) : m'.onPath d a = m.onPath d a := by
  unfold Memory.onPath
  rw [h.tableAt hd]
  cases hf : m.tableAt d (pathTo a d) with
  | none => rfl
  | some f => exact h.entries f ⟨d, hd, _, hf⟩ _

theorem leaf (a : ℕ) : m'.leaf a = m.leaf a :=
  leaf_eq_of_onPath (h.onPath (by omega) a) (h.onPath le_rfl a)

theorem wf (hm : m.Wf) (hlow : m'.frames.bitmap 0 = true) (htaken : ∀ f, m.IsTable f → m'.frames.bitmap f = true) :
    m'.Wf where
  separated d p d' p' f hd hd' hf hf' :=
    hm.separated hd hd' ((h.tableAt hd p).symm.trans hf) ((h.tableAt hd' p').symm.trans hf')
  taken f hf := ⟨(hm.taken f (h.isTable.mp hf)).1, htaken f (h.isTable.mp hf)⟩
  low := hlow
  flat d hd p f i hf := by
    rw [h.tableAt (by omega)] at hf
    rw [h.entries f ⟨d, by omega, p, hf⟩]
    exact hm.flat d hd p f i hf

theorem step {level : ℕ} (hd : d + (level + 1) = 3) (hf : m.tableAt d (pathTo a d) = some f) :
    m'.entry f (indexOf a (level + 1)) = m.entry f (indexOf a (level + 1)) ∧ ((m.entry f (indexOf a (level + 1))).link →
        m.tableAt (d + 1) (pathTo a (d + 1)) = some (m.entry f (indexOf a (level + 1))).frame) := by
  have hentry := onPath_of_tableAt hf
  rw [show 3 - d = level + 1 by omega] at hentry
  refine ⟨h.entries f ⟨d, by omega, _, hf⟩ _, ?_⟩
  rw [← hentry]
  exact tableAt_succ_of_link (by omega)

theorem translateFrom {level : ℕ} (hd : d + level = 3) (hf : m.tableAt d (pathTo a d) = some f) :
    m'.translateFrom a level f = m.translateFrom a level f := by
  induction level generalizing d f with
  | zero => rw [Memory.translateFrom, Memory.translateFrom, h.entries f ⟨d, by omega, _, hf⟩]
  | succ level ih =>
    obtain ⟨hsame, hnext⟩ := h.step hd hf
    rw [Memory.translateFrom, Memory.translateFrom, hsame]
    split
    · rename_i hp
      split
      · rfl
      · rename_i hh
        exact ih (by omega) (hnext ⟨hp, hh⟩)
    · rfl

theorem translate (a : ℕ) : m'.translate a = m.translate a := by
  unfold Memory.translate
  rw [h.root]
  exact h.translateFrom rfl (m.tableAt_zero a)

end

end Kept

theorem tableAt_zero_eq_some : m.tableAt 0 p = some f ↔ p = 0 ∧ m.root = f := by
  unfold tableAt node
  split <;> simp_all

theorem Wf.shared (hm : m.Wf) (hlt : r < managedPages) (hused : m.frames.bitmap r = true) (hr : ¬ m.IsTable r)
    (h0 : m.entry r 0 = m.entry m.root 0) (hrest : ∀ i ≠ 0, m.entry r i = {}) :
    (m.under r).Wf ∧ ∀ f, m.Private r f → f = r := by
  have hcases : ∀ d ≤ 3, ∀ p f, (m.under r).tableAt d p = some f →
      d = 0 ∧ p = 0 ∧ f = r ∨ 0 < d ∧ p < entriesPerTable ^ (d - 1) ∧ m.tableAt d p = some f := by
    intro d hd p f hf
    cases d with
    | zero =>
      obtain ⟨rfl, rfl⟩ := tableAt_zero_eq_some.mp hf
      exact .inl ⟨rfl, rfl, rfl⟩
    | succ d =>
      have hp : p < entriesPerTable ^ d := by
        by_contra hp
        rw [tableAt_front] at hf
        split at hf
        · have hne := (Nat.div_pos (Nat.le_of_not_lt hp) (Nat.pow_pos (by decide))).ne'
          have hchild : m.child r (p / entriesPerTable ^ d) = none := by simp [child, hrest _ hne]
          rw [under_child, under_root, hchild] at hf
          cases hf
        · cases hf
      exact .inr ⟨Nat.succ_pos d, hp, (tableAt_under_zero h0 hp).symm.trans hf⟩
  refine ⟨⟨fun d p d' p' f hd hd' hf hf' ↦ ?_, ?_, hm.low, fun d hd p f i hf ↦ ?_⟩, ?_⟩
  · rcases hcases d hd p f hf with ⟨rfl, rfl, rfl⟩ | ⟨-, -, hk⟩
    · rcases hcases d' hd' p' f hf' with ⟨rfl, rfl, -⟩ | ⟨-, -, hk'⟩
      · exact ⟨rfl, rfl⟩
      · exact absurd ⟨d', hd', p', hk'⟩ hr
    · rcases hcases d' hd' p' f hf' with ⟨-, -, rfl⟩ | ⟨-, -, hk'⟩
      · exact absurd ⟨d, hd, p, hk⟩ hr
      · exact hm.separated hd hd' hk hk'
  · rintro f ⟨d, hd, p, hf⟩
    rcases hcases d hd p f hf with ⟨-, -, rfl⟩ | ⟨-, -, hf⟩
    · exact ⟨hlt, hused⟩
    · exact hm.taken f ⟨d, hd, p, hf⟩
  · rcases hcases d (by omega) p f hf with ⟨-, -, rfl⟩ | ⟨-, -, hf⟩
    · by_cases hi : i = 0
      · subst hi
        rw [under_entry, h0]
        exact hm.flat 0 (by omega) 0 m.root 0 (tableAt_zero_eq_some.mpr ⟨rfl, rfl⟩)
      · rw [under_entry, hrest i hi]
    · exact hm.flat d hd p f i hf
  · rintro f ⟨d, hd, p, hf, hown⟩
    rcases hcases d hd p f hf with ⟨-, -, rfl⟩ | ⟨hd0, hp, -⟩
    · rfl
    · rcases hown with rfl | hle
      · omega
      · omega

end Memory

end Eris.Mm
