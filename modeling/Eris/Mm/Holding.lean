import Eris.Mm.Mapping
import Eris.Mm.VmallocSpec

namespace Eris.Mm.Memory

open List Function

variable {m₀ m m' : Memory} {fs gs : List ℕ} {a b f g : ℕ}

def frameAt (m : Memory) (a : ℕ) : Option ℕ :=
  if (m.leaf a).present then some (m.leaf a).frame else none

theorem translate_of_frameAt (hm : m.Wf) (h : m.frameAt a = some f) :
    m.translate a = f * pageSize + a % pageSize := by
  unfold frameAt at h
  split at h
  · rename_i hp
    rw [translate_eq hm, if_pos hp, ← Option.some.inj h]
  · cases h

theorem translate_of_frameAt_none (hm : m.Wf) (h : m.frameAt a = none) : m.translate a = 0 := by
  unfold frameAt at h
  split at h
  · cases h
  · rename_i hp
    rw [translate_eq hm, if_neg hp]

theorem frameAt_congr (h : pageOf a = pageOf b) (m : Memory) : m.frameAt a = m.frameAt b := by
  simp only [frameAt, leaf_congr h m]

/-- The page tables and the free ranges are in order, and nothing is mapped in these. -/
structure Orderly (m : Memory) : Prop where
  wf : m.Wf
  tidy : m.vmalloc.Wf
  unmapped : ∀ a, m.vmalloc.Free a → m.frameAt a = none

theorem Orderly.bytes (h : Orderly m) (b : ℕ → UInt8) : Orderly { m with bytes := b } :=
  ⟨⟨h.wf.separated, h.wf.taken, h.wf.low, h.wf.flat⟩, h.tidy, h.unmapped⟩

/-- The frames `fs` have been taken since `m₀`. All others that were taken are tables. -/
structure Holding (m₀ m : Memory) (fs : List ℕ) : Prop where
  wf : m.Wf
  low : m₀.frames.bitmap 0 = true
  root : m.root = m₀.root
  vmalloc : m.vmalloc = m₀.vmalloc
  used : ∀ f, m₀.frames.bitmap f = true → m.frames.bitmap f = true
  spent : ∀ f, m.frames.bitmap f = true → m₀.frames.bitmap f = true ∨ m.IsTable f ∨ f ∈ fs
  tables : ∀ d ≤ 3, ∀ p f, m₀.tableAt d p = some f → m.tableAt d p = some f
  held : ∀ f ∈ fs, f < managedPages ∧ m₀.frames.bitmap f = false ∧ m.frames.bitmap f = true ∧ ¬ m.IsTable f
  nodup : fs.Nodup

namespace Holding

theorem refl (hm : m.Wf) : Holding m m [] :=
  ⟨hm, hm.low, rfl, rfl, fun _ h ↦ h, fun _ ↦ .inl, fun _ _ _ _ h ↦ h, fun _ h ↦ absurd h not_mem_nil, nodup_nil⟩

section

variable (h : Holding m₀ m fs)

include h

theorem perm (hp : fs.Perm gs) : Holding m₀ m gs where
  wf := h.wf
  low := h.low
  root := h.root
  vmalloc := h.vmalloc
  used := h.used
  spent f hf := (h.spent f hf).imp_right (Or.imp_right hp.mem_iff.mp)
  tables := h.tables
  held f hf := h.held f (hp.mem_iff.mpr hf)
  nodup := hp.nodup_iff.mp h.nodup

theorem grow (hg : Grow m m') : Holding m₀ m' fs where
  wf := hg.wf
  low := h.low
  root := hg.root.trans h.root
  vmalloc := hg.vmalloc.trans h.vmalloc
  used f hf := hg.used f (h.used f hf)
  spent f hf := by
    rcases hg.spent f hf with hf | hf
    · exact (h.spent f hf).imp_right (Or.imp_left hg.isTable)
    · exact .inr (.inl hf)
  tables d hd p f hf := hg.tables d hd p f (h.tables d hd p f hf)
  held f hf := by
    obtain ⟨hlt, hfree, hused, hnt⟩ := h.held f hf
    refine ⟨hlt, hfree, hg.used f hused, fun ht ↦ ?_⟩
    rcases hg.fresh f ht with ht | hunused
    · exact hnt ht
    · rw [hused] at hunused
      cases hunused
  nodup := h.nodup

theorem ne_zero (hf : f ∈ fs) : f ≠ 0 := by
  rintro rfl
  have hfree := (h.held 0 hf).2.1
  rw [h.low] at hfree
  cases hfree

theorem length_le : fs.length ≤ managedPages := by
  have hsub : fs ⊆ List.range managedPages := fun f hf ↦ mem_range.mpr (h.held f hf).1
  have hlen := (subperm_of_subset h.nodup hsub).length_le
  rwa [length_range] at hlen

theorem take (hg : g < managedPages) (hfree : m.frames.bitmap g = false) :
    Holding m₀ { m with frames := m.frames.markUsed g } (g :: fs) := by
  have hbit := Frames.bitmap_markUsed (s := m.frames) hg
  have hmono : ∀ f, m.frames.bitmap f = true → (m.frames.markUsed g).bitmap f = true := by
    intro f hf
    rw [hbit, update_apply, hf, ite_self]
  have hnt : ¬ m.IsTable g := by
    intro ht
    rw [(h.wf.taken g ht).2] at hfree
    cases hfree
  have hfree₀ : m₀.frames.bitmap g = false := by
    by_contra hne
    rw [h.used g (by simpa using hne)] at hfree
    cases hfree
  refine ⟨⟨h.wf.separated, fun f hf ↦ ?_, hmono 0 h.wf.low, h.wf.flat⟩, h.low, h.root, h.vmalloc,
    fun f hf ↦ hmono f (h.used f hf), fun f hf ↦ ?_, h.tables, ?_, ?_⟩
  · obtain ⟨hlt, hused⟩ := h.wf.taken f hf
    exact ⟨hlt, hmono f hused⟩
  · simp only [hbit, update_apply] at hf
    split at hf
    · rename_i hfg
      exact .inr (.inr (hfg ▸ mem_cons_self))
    · exact (h.spent f hf).imp_right (Or.imp_right (mem_cons_of_mem g))
  · refine forall_mem_cons.mpr ⟨⟨hg, hfree₀, ?_, hnt⟩, fun f hf ↦ ?_⟩
    · simp only [hbit, update_self]
    · obtain ⟨hlt, hfr, hused, hnt⟩ := h.held f hf
      exact ⟨hlt, hfr, hmono f hused, hnt⟩
  · refine nodup_cons.mpr ⟨fun hmem ↦ ?_, h.nodup⟩
    rw [(h.held g hmem).2.2.1] at hfree
    cases hfree

end

theorem drop (h : Holding m₀ m (g :: fs)) : Holding m₀ (m.freePage (g * pageSize)) fs := by
  obtain ⟨hg, hfree₀, hused, hnt⟩ := h.held g mem_cons_self
  obtain ⟨hnotmem, hnodup⟩ := nodup_cons.mp h.nodup
  have hbit := Frames.bitmap_freePage (s := m.frames) hg
  have hkeep : ∀ f ≠ g, m.frames.bitmap f = true → (m.frames.freePage (g * pageSize)).bitmap f = true := by
    intro f hne hf
    rw [hbit, update_of_ne hne, hf]
  have hne₀ : ∀ f, m₀.frames.bitmap f = true → f ≠ g := by
    rintro f hf rfl
    rw [hf] at hfree₀
    cases hfree₀
  refine ⟨⟨h.wf.separated, fun f hf ↦ ?_, ?_, h.wf.flat⟩, h.low, h.root, h.vmalloc,
    fun f hf ↦ hkeep f (hne₀ f hf) (h.used f hf), fun f hf ↦ ?_, h.tables, fun f hf ↦ ?_, hnodup⟩
  · obtain ⟨hlt, hu⟩ := h.wf.taken f hf
    exact ⟨hlt, hkeep f (fun hfg ↦ hnt (hfg ▸ hf)) hu⟩
  · exact hkeep 0 (hne₀ 0 h.low) h.wf.low
  · simp only [freePage, hbit, update_apply] at hf
    split at hf
    · cases hf
    · rename_i hfg
      refine (h.spent f hf).imp_right (Or.imp_right fun hmem ↦ ?_)
      exact (mem_cons.mp hmem).resolve_left hfg
  · obtain ⟨hlt, hfr, hu, hn⟩ := h.held f (mem_cons_of_mem g hf)
    exact ⟨hlt, hfr, hkeep f (fun hfg ↦ hnotmem (hfg ▸ hf)) hu, hn⟩

end Holding

end Eris.Mm.Memory
