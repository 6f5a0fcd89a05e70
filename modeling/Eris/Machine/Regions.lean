import Eris.Machine.Operations

namespace Eris.Machine

open Loader Mm Mm.Memory Vmalloc

variable {m₀ m m' m'' : Memory} {fs gs : List ℕ} {a b g n : ℕ}

/-- Frames in use for something else than page tables. -/
structure Owned (m : Memory) (fs : List ℕ) : Prop where
  wf : m.Wf
  held : ∀ f ∈ fs, f ≠ 0 ∧ f < managedPages ∧ m.frames.bitmap f = true ∧ ¬ m.IsTable f
  nodup : fs.Nodup

def freed (fs : List ℕ) (m : Memory) : Memory :=
  { m with frames := { m.frames with bitmap := fun f ↦ !decide (f ∈ fs) && m.frames.bitmap f } }

theorem owned_of_holding (h : Holding m₀ m fs) : Owned m fs where
  wf := h.wf
  held f hf := by
    obtain ⟨hlt, -, hused, hnt⟩ := h.held f hf
    exact ⟨h.ne_zero hf, hlt, hused, hnt⟩
  nodup := h.nodup

namespace Owned

theorem holding (h : Owned m fs) : Holding (freed fs m) m fs where
  wf := h.wf
  low := by
    have h0 : 0 ∉ fs := fun h0 ↦ (h.held 0 h0).1 rfl
    simp [freed, h0, h.wf.low]
  root := rfl
  vmalloc := rfl
  used f hf := (Bool.and_eq_true_iff.mp hf).2
  spent f hf := by
    by_cases hfs : f ∈ fs
    · exact .inr (.inr hfs)
    · exact .inl (by simp [freed, hfs, hf])
  tables _ _ _ _ hf := hf
  held f hf := by
    obtain ⟨-, hlt, hused, hnt⟩ := h.held f hf
    exact ⟨hlt, by simp [freed, hf], hused, hnt⟩
  nodup := h.nodup

theorem grow (h : Owned m fs) (hg : Grow m m') : Owned m' fs := owned_of_holding (h.holding.grow hg)

theorem of_append (h : Owned m (gs ++ fs)) : Owned m fs where
  wf := h.wf
  held f hf := h.held f (List.mem_append_right gs hf)
  nodup := (List.nodup_append.mp h.nodup).2.1

theorem take (h : Owned m fs) (hg : g < managedPages) (hfree : m.frames.bitmap g = false) :
    Owned { m with frames := m.frames.markUsed g } fs := by
  have htake : Owned _ ([g] ++ fs) := owned_of_holding (h.holding.take hg hfree)
  exact htake.of_append

theorem withVmalloc (h : Owned m fs) (v : Vmalloc) : Owned { m with vmalloc := v } fs :=
  ⟨⟨h.wf.separated, h.wf.taken, h.wf.low, h.wf.flat⟩, h.held, h.nodup⟩

theorem perm (h : Owned m fs) (hp : fs.Perm gs) : Owned m gs := owned_of_holding (h.holding.perm hp)

end Owned

/-- A change to the mappings of the first `n` pages from `a` on, and to no others. -/
structure Remaps (m m' : Memory) (a n : ℕ) : Prop where
  vmalloc : m'.vmalloc = m.vmalloc
  tables : ∀ d ≤ 3, ∀ p t, m.tableAt d p = some t → m'.tableAt d p = some t
  others : ∀ b, Beyond a n b → m'.frameAt b = m.frameAt b

namespace Remaps

theorem refl (m : Memory) (a n : ℕ) : Remaps m m a n := ⟨rfl, fun _ _ _ _ h ↦ h, fun _ _ ↦ rfl⟩

theorem succ (h : Remaps m m' a 1) (h' : Remaps m' m'' (a + pageSize) n) : Remaps m m'' a (n + 1) where
  vmalloc := h'.vmalloc.trans h.vmalloc
  tables d hd p t ht := h'.tables d hd p t (h.tables d hd p t ht)
  others b hb := by
    obtain ⟨hab, hb⟩ := beyond_succ_iff.mp hb
    rw [h'.others b hb]
    apply h.others
    intro j hj
    obtain rfl : j = 0 := by omega
    rwa [Nat.zero_mul, Nat.add_zero]

theorem of_leaf (hg : Grow m m') (h : ∀ b, pageOf b ≠ pageOf a → m'.leaf b = m.leaf b) : Remaps m m' a 1 where
  vmalloc := hg.vmalloc
  tables := hg.tables
  others b hb := by
    have hab := hb 0 Nat.one_pos
    rw [frameAt, frameAt, h b hab]

end Remaps

theorem beyond_of_outside {lo hi : ℕ} (hlo : lo % pageSize = 0) (hhi : hi % pageSize = 0) (ha : lo ≤ a)
    (hn : a + n * pageSize ≤ hi) (hroom : hi ≤ 2 ^ 48) (hb : b < 2 ^ 48) (hout : ¬ (lo ≤ b ∧ b < hi)) :
    Beyond a n b := by
  intro j hj heq
  have hmul := Nat.mul_le_mul_right pageSize (show j + 1 ≤ n by omega)
  rw [Nat.add_mul, Nat.one_mul] at hmul
  have hpos : 0 < pageSize := by decide
  apply hout
  unfold pageOf pageSize at *
  omega

theorem frameAt_of_leaf (h : m'.leaf b = m.leaf b) : m'.frameAt b = m.frameAt b := by
  rw [frameAt, frameAt, h]

theorem Owned.mapImage (h : Owned m fs) (left a : ℕ) (hroom : a + managedPages * pageSize ≤ 2 ^ 48) :
    ∃ m' ok gs, mapImage left a m = (m', ok) ∧ Owned m' (gs ++ fs) ∧ Pages m' a gs ∧
      Remaps m m' a gs.length ∧ gs.length ≤ left ∧ (ok = true → gs.length = left) ∧
      ((Loader.mapImage 1 a m).2 = false → gs = []) := by
  obtain ⟨m', ok, gs, hmap, hheld, hmapped, hlen, hlen', hnil⟩ := mapImage_spec h.holding left a
  have hle : gs.length ≤ managedPages := by
    have hall := hheld.length_le
    rw [List.length_append] at hall
    omega
  have hmul := Nat.mul_le_mul_right pageSize hle
  obtain ⟨hp, hothers⟩ := hmapped.pages (by omega)
  refine ⟨m', ok, gs, hmap, owned_of_holding hheld, hp, ⟨hheld.vmalloc, hmapped.tables, hothers⟩, ?_, hlen, ?_⟩
  · cases ok with
    | true => exact Nat.le_of_eq (hlen rfl)
    | false => exact Nat.le_of_lt (hlen' rfl)
  · intro hfirst
    exact hnil.mpr (.inr hfirst)

theorem allocPage_of_full (hm : m.Wf) (hfull : ∀ f < managedPages, m.frames.bitmap f = true) :
    m.allocPage = (m, 0) := by
  rcases allocPage_cases hm.low with ⟨hnone, -⟩ | ⟨f, hf, -, hfree, -⟩
  · exact hnone
  · rw [hfull f hf] at hfree
    cases hfree

theorem mapStackPages_of_none (hnone : m.allocPage = (m, 0)) (left a : ℕ) : mapStackPages (left + 1) a m = (m, false) := by
  rw [mapStackPages, hnone]
  rfl

theorem mapStackPages_of_provided {ok : Bool} (h : Provided m a g m' ok) (left : ℕ) :
    mapStackPages (left + 1) a m = mapStackPages left (a + pageSize) m' := by
  rw [mapStackPages, h.alloc, if_neg h.ne_zero, h.map]

theorem Owned.provide (h : Owned m fs) {ok : Bool} (hg : Provided m a g m' ok) : Owned m' fs :=
  (h.take hg.room hg.free).grow hg.grow

theorem Owned.mapStackPages (h : Owned m fs) (left a : ℕ) :
    ∃ m' ok, mapStackPages left a m = (m', ok) ∧ Owned m' fs ∧ Remaps m m' a left := by
  induction left generalizing m a with
  | zero => exact ⟨m, true, rfl, h, .refl m a 0⟩
  | succ left ih =>
    rcases provided_cases h.wf a with ⟨hnone, -⟩ | ⟨g, m₁, ok, hg⟩
    · exact ⟨m, false, mapStackPages_of_none hnone left a, h, .refl m a (left + 1)⟩
    · obtain ⟨m₂, ok₂, hrun, howned, hremaps⟩ := ih (h.provide hg) (a + pageSize)
      refine ⟨m₂, ok₂, (mapStackPages_of_provided hg left).trans hrun, howned, ?_⟩
      refine Remaps.succ ⟨hg.grow.vmalloc, hg.grow.tables, fun b hb ↦ frameAt_of_leaf ?_⟩ hremaps
      rw [hg.leaf, if_neg fun h ↦ hb 0 Nat.one_pos (by simpa using h.2)]

theorem Owned.mapStackPages_first (h : Owned m fs) (left a : ℕ) (hfirst : (Loader.mapImage 1 a m).2 = false) :
    ∃ m', Machine.mapStackPages (left + 2) a m = (m', false) ∧ Owned m' fs ∧ Remaps m m' a 0 := by
  rcases provided_cases h.wf a with ⟨hnone, -⟩ | ⟨g, m₁, ok, hg⟩
  · exact ⟨m, mapStackPages_of_none hnone (left + 1) a, h, .refl m a 0⟩
  · rw [hg.mapImage] at hfirst
    cases ok with
    | true => cases hfirst
    | false =>
      have hfull := allocPage_of_full hg.grow.wf (hg.full rfl)
      refine ⟨m₁, ?_, h.provide hg, hg.grow.vmalloc, hg.grow.tables, fun b _ ↦ frameAt_of_leaf ?_⟩
      · rw [mapStackPages_of_provided hg, mapStackPages_of_none hfull]
      · exact (hg.leaf b).trans (if_neg nofun)

section Devices

theorem mapPages_spec (hm : m.Wf) (flags : PageFlags) (hu : flags.user = false) (pages a frame : ℕ) :
    ∃ m' ok, m.mapPages flags pages a frame = (m', ok) ∧ Grow m m' ∧ Remaps m m' a pages ∧
      (ok = true → ∀ k < pages, ∃ t, m'.tableAt 3 (pathTo (a + k * pageSize) 3) = some t) := by
  rw [mapPages_eq, hu]
  obtain ⟨m', ok, done, hrun, hdone⟩ := rewritePages_spec hm false
    (fun k _ ↦ some (encode flags ((frame + k * pageSize) / pageSize % 2 ^ 40))) pages a nofun
  refine ⟨m', ok, hrun, hdone.edit.grow, ⟨hdone.edit.grow.vmalloc, hdone.edit.grow.tables, fun b hb ↦ ?_⟩, ?_⟩
  · apply frameAt_of_leaf
    refine (hdone.edit.leaf b ?_).resolve_right fun h ↦ by cases h.1
    intro hin
    obtain ⟨c, ⟨k, hk, rfl⟩, hc⟩ := hin
    exact hb k (Nat.lt_of_lt_of_le hk hdone.le) hc.symm
  · intro hok k hk
    exact hdone.tables k (hdone.finished hok ▸ hk)

theorem mapPages_first (hm : m.Wf) (flags : PageFlags) (hu : flags.user = false) (pages a frame : ℕ)
    (hfirst : (m.mapPages flags 1 a frame).2 = false) :
    ∃ m', m.mapPages flags (pages + 1) a frame = (m', false) ∧ Grow m m' ∧ Remaps m m' a 0 := by
  obtain ⟨m₁, r, htf, hedit, -, -⟩ := tableFor_edit a false hm (Nat.zero_add 3) (m.tableAt_zero a)
  rw [mapPages, hu, htf] at hfirst
  rw [mapPages, hu, htf]
  cases r with
  | some t => cases hfirst
  | none =>
    refine ⟨m₁, rfl, hedit.grow, hedit.grow.vmalloc, hedit.grow.tables, fun b _ ↦ ?_⟩
    apply frameAt_of_leaf
    exact (hedit.leaf b (Set.notMem_empty _)).resolve_right fun h ↦ by cases h.1

theorem unmapPages_spec (hm : m.Wf) (pages a : ℕ) (hroom : a + pages * pageSize ≤ 2 ^ 48)
    (ht : ∀ k < pages, ∃ t, m.tableAt 3 (pathTo (a + k * pageSize) 3) = some t) :
    ∃ m', m.unmapPages pages a = (m', true) ∧ Grow m m' ∧ Remaps m m' a pages ∧
      ∀ b, ¬ Beyond a pages b → m'.frameAt b = none := by
  induction pages generalizing m a with
  | zero => exact ⟨m, rfl, .refl hm, .refl m a 0, fun b hb ↦ absurd (fun _ hj ↦ absurd hj (by omega)) hb⟩
  | succ pages ih =>
    obtain ⟨t, ht₀⟩ := ht 0 (by omega)
    rw [Nat.zero_mul, Nat.add_zero] at ht₀
    have htf := tableFor_of_tableAt a (Nat.zero_add 3) (m.tableAt_zero a) ht₀
    obtain ⟨hset, hleaf⟩ := setEntry_edit false hm ht₀ {}
    have hnext : ∀ k < pages,
        ∃ t', (m.setEntry t (indexOf a 0) {}).tableAt 3 (pathTo (a + pageSize + k * pageSize) 3) = some t' := by
      intro k hk
      obtain ⟨t', ht'⟩ := ht (k + 1) (by omega)
      rw [page_succ]
      exact ⟨t', hset.grow.tables 3 le_rfl _ _ ht'⟩
    obtain ⟨m', hrun, hgrow, hremaps, hnone⟩ := ih hset.grow.wf (a + pageSize)
      (by rw [Nat.add_mul] at hroom; omega) hnext
    refine ⟨m', by rw [unmapPages, htf]; exact hrun, hset.grow.trans hgrow, Remaps.succ ?_ hremaps, ?_⟩
    · exact .of_leaf hset.grow fun b hb ↦ by rw [hleaf, if_neg hb]
    · intro b hb
      by_cases hb' : Beyond (a + pageSize) pages b
      · have hab : pageOf b = pageOf a := by
          by_contra hab
          exact hb (beyond_succ_iff.mpr ⟨hab, hb'⟩)
        rw [hremaps.others b hb', frameAt, hleaf, if_pos hab]
        rfl
      · exact hnone b hb'

end Devices

end Eris.Machine
