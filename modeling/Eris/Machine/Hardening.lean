import Eris.Machine.Operations

namespace Eris.Mm.Memory

open Loader Vmalloc

/-- The tables are in order, and no page can both be written and executed. -/
structure Hardened (m : Memory) : Prop where
  wf : m.Wf
  exclusive : ∀ a, (m.leaf a).present = true → (m.leaf a).write = true → (m.leaf a).noExecute = true

variable {m m' : Memory} {a f g left : ℕ}

section

variable (h : m.Hardened)

include h

theorem Hardened.keep (hk : Kept m m') (hlow : m'.frames.bitmap 0 = true)
    (htaken : ∀ f, m.IsTable f → m'.frames.bitmap f = true) : m'.Hardened where
  wf := hk.wf h.wf hlow htaken
  exclusive a := by
    rw [hk.leaf]
    exact h.exclusive a

theorem Hardened.frames {s : Frames} (hs : ∀ f, m.frames.bitmap f = true → s.bitmap f = true) :
    ({ m with frames := s } : Memory).Hardened :=
  h.keep ⟨rfl, fun _ _ _ ↦ rfl⟩ (hs 0 h.wf.low) fun f hf ↦ hs f (h.wf.taken f hf).2

theorem Hardened.elsewhere (v : Vmalloc) (bytes : ℕ → UInt8) :
    ({ m with vmalloc := v, bytes := bytes } : Memory).Hardened :=
  h.keep ⟨rfl, fun _ _ _ ↦ rfl⟩ h.wf.low fun f hf ↦ (h.wf.taken f hf).2

theorem Hardened.call {c : Call} (hc : c.Guarded) : (c.run m).1.Hardened := by
  have hcareful : Careful m c := fun hu ↦ by
    rw [hc.user_eq] at hu
    cases hu
  obtain ⟨done, -, -, hedit, hcases⟩ := hcareful.leaf_cases h.wf
  refine ⟨hedit.grow.wf, fun b hpres hwrite ↦ ?_⟩
  rcases hcases b with ⟨-, hleaf⟩ | ⟨-, ⟨k, e, he⟩, -, -⟩
  · rw [hleaf] at hpres hwrite ⊢
    exact h.exclusive b hpres hwrite
  · rcases Call.new_spec he with ⟨-, hnone⟩ | ⟨flags, frame, hflags, hsome⟩
    · rw [hnone] at hpres
      cases hpres
    · rw [hsome] at hwrite ⊢
      exact (hc flags hflags).2 hwrite

theorem Hardened.map (address frame length : ℕ) (flags : PageFlags) (hu : flags.user = false)
    (hx : flags.write = true → flags.noExecute = true) : (m.map address frame length flags).1.Hardened :=
  h.call (c := .map address frame length flags) fun _ hf ↦ by
    cases hf
    exact ⟨hu, hx⟩

theorem Hardened.protect (address length : ℕ) (flags : PageFlags) (hu : flags.user = false)
    (hx : flags.write = true → flags.noExecute = true) : (m.protect address length flags).1.Hardened :=
  h.call (c := .protect address length flags) fun _ hf ↦ by
    cases hf
    exact ⟨hu, hx⟩

theorem Hardened.unmap (address length : ℕ) : (m.unmap address length).1.Hardened :=
  h.call (c := .unmap address length) nofun

theorem Hardened.free (hf : ¬ m.IsTable f) (h0 : f ≠ 0) : (m.freePage (f * pageSize)).Hardened := by
  have hkeep : ∀ g, g ≠ f → m.frames.bitmap g = true → (m.frames.freePage (f * pageSize)).bitmap g = true := by
    intro g hg hused
    by_cases hlt : f < managedPages
    · rw [Frames.bitmap_freePage hlt, Function.update_of_ne hg, hused]
    · have hdiv : f * pageSize / pageSize = f := Nat.mul_div_cancel f (by decide)
      simp [Frames.freePage, Frames.freePages, hdiv, Frames.clearAll, Frames.clear, hlt, hused]
  refine h.keep ⟨rfl, fun _ _ _ ↦ rfl⟩ (hkeep 0 (Ne.symm h0) h.wf.low) fun g hg ↦
    hkeep g (fun heq ↦ hf (heq ▸ hg)) (h.wf.taken g hg).2

theorem Hardened.mapTaken (hg : g < managedPages) (hg0 : g ≠ 0) (hfree : m.frames.bitmap g = false) (a : ℕ) :
    let m' := (({ m with frames := m.frames.markUsed g } : Memory).map a (g * pageSize) pageSize
      { write := true, noExecute := true }).1
    m'.Hardened ∧ m'.vmalloc = m.vmalloc ∧ (m'.freePage (g * pageSize)).Hardened := by
  have htake := (Holding.refl h.wf).take hg hfree
  have hused : ∀ f, m.frames.bitmap f = true → (m.frames.markUsed g).bitmap f = true := fun f hf ↦ htake.used f hf
  obtain ⟨m₂, ok, hmap, hgrow, -⟩ := map_page_spec htake.wf a (lt_trans hg (by decide))
    { write := true, noExecute := true } rfl
  have hmapped := (h.frames hused).map a (g * pageSize) pageSize { write := true, noExecute := true } rfl fun _ ↦ rfl
  rw [hmap] at hmapped ⊢
  exact ⟨hmapped, hgrow.vmalloc, hmapped.free ((htake.grow hgrow).held g List.mem_cons_self).2.2.2 hg0⟩

theorem Hardened.mapImage (left a : ℕ) :
    (mapImage left a m).1.Hardened ∧ (mapImage left a m).1.vmalloc = m.vmalloc := by
  induction left generalizing m a with
  | zero => exact ⟨h, rfl⟩
  | succ left ih =>
    rw [Loader.mapImage]
    rcases allocPage_cases h.wf.low with ⟨hnone, -⟩ | ⟨g, hg, hg0, hfree, hsome⟩
    · rw [hnone]
      exact ⟨h, rfl⟩
    · have hne : g * pageSize ≠ 0 := Nat.mul_ne_zero hg0 (by decide)
      obtain ⟨hmapped, hvm, hfreed⟩ := h.mapTaken hg hg0 hfree a
      simp only [hsome, if_neg hne]
      split
      · rename_i m₂ hmap
        rw [hmap] at hfreed hvm
        exact ⟨hfreed, hvm⟩
      · rename_i m₂ hmap
        rw [hmap] at hmapped hvm
        obtain ⟨hrest, hrest'⟩ := ih hmapped (a + pageSize)
        exact ⟨hrest, hrest'.trans hvm⟩

/-- None of the frames that `releasePages` frees is in use as a table at that moment. -/
def ReleasesData : ℕ → ℕ → Memory → Prop
  | 0, _, _ => True
  | left + 1, page, m =>
    (m.translate page ≠ 0 → ¬ (m.unmap page pageSize).1.IsTable (m.translate page / pageSize)) ∧
      ReleasesData left (page + pageSize) (releasePage page m)

theorem Hardened.releasePages (ha : a % pageSize = 0) (hd : ReleasesData left a m) :
    (releasePages left a m).Hardened ∧ (releasePages left a m).vmalloc = m.vmalloc := by
  induction left generalizing m a with
  | zero => exact ⟨h, rfl⟩
  | succ left ih =>
    obtain ⟨hfirst, hrest⟩ := hd
    have hunmap := h.unmap a pageSize
    have hvm : (m.unmap a pageSize).1.vmalloc = m.vmalloc := by
      obtain ⟨done, hrun⟩ := Call.run_spec h.wf (.unmap a pageSize)
      exact hrun.edit.grow.vmalloc
    have hstep : (releasePage a m).Hardened ∧ (releasePage a m).vmalloc = m.vmalloc := by
      unfold releasePage
      simp only
      split
      · rename_i hne
        have h0 : m.translate a / pageSize ≠ 0 := by
          rw [translate_eq h.wf] at hne ⊢
          split at hne
          · rw [if_pos ‹_›, ha, Nat.add_zero, Nat.mul_div_cancel _ (by decide)]
            rintro hz
            rw [hz, ha] at hne
            exact hne rfl
          · exact absurd rfl hne
        exact ⟨hunmap.free (hfirst hne) h0, hvm⟩
      · exact ⟨hunmap, hvm⟩
    rw [releasePages_succ]
    obtain ⟨hh, hv⟩ := ih hstep.1 (by rw [Nat.add_mod_right, ha]) hrest
    exact ⟨hh, hv.trans hstep.2⟩

end

theorem releasesData_of_pages {m₀ : Memory} {gs fs : List ℕ} (h : Holding m₀ m (gs ++ fs)) (hp : Pages m a gs)
    (hroom : a + gs.length * pageSize ≤ 2 ^ 48) : ReleasesData gs.length a m := by
  induction gs generalizing m a with
  | nil => trivial
  | cons g gs ih =>
    rw [List.length_cons] at hroom ⊢
    obtain ⟨hdiv, hheld, hp', -⟩ := releasePage_spec h hp hroom
    refine ⟨fun _ ↦ ?_, ih hheld hp' (by rw [Nat.add_mul] at hroom; omega)⟩
    obtain ⟨⟨t, ht⟩, -⟩ := hp 0 g rfl
    rw [Nat.zero_mul, Nat.add_zero] at ht
    obtain ⟨m₁, hunmap, hgrow, -⟩ := unmap_page_spec h.wf ht
    rw [hdiv, hunmap]
    exact ((h.grow hgrow).held g List.mem_cons_self).2.2.2

/-- Hardened, and what `vmalloc` hands out lies in its area. -/
structure Fenced (m : Memory) : Prop where
  hardened : m.Hardened
  bounded : m.vmalloc.Bounded

theorem Fenced.reserve (h : m.Fenced) (length : ℕ) :
    ({ m with vmalloc := (m.vmalloc.reserve length).1 } : Memory).Fenced ∧
      ((m.vmalloc.reserve length).2 ≠ 0 → Window (m.vmalloc.reserve length).2 length) := by
  obtain ⟨hb, hw⟩ := h.bounded.reserve length
  exact ⟨⟨h.hardened.elsewhere _ m.bytes, hb⟩, hw.resolve_left⟩

theorem Fenced.releaseWindow {w length : ℕ} (h : m.Fenced) (hw : Window w length) :
    (releaseWindow w length m).Fenced :=
  ⟨h.hardened.elsewhere _ m.bytes, h.bounded.release hw⟩

theorem Fenced.bytes (h : m.Fenced) (bytes : ℕ → UInt8) : ({ m with bytes := bytes } : Memory).Fenced :=
  ⟨h.hardened.elsewhere m.vmalloc bytes, h.bounded⟩

theorem Fenced.of_hardened (h : m.Fenced) (hm : m'.Hardened) (hv : m'.vmalloc = m.vmalloc) : m'.Fenced :=
  ⟨hm, hv ▸ h.bounded⟩

theorem Fenced.call (h : m.Fenced) {c : Call} (hc : c.Guarded) : (c.run m).1.Fenced := by
  obtain ⟨done, hrun⟩ := c.run_spec h.hardened.wf
  exact h.of_hardened (h.hardened.call hc) hrun.edit.grow.vmalloc

theorem Fenced.map {frame length : ℕ} {flags : PageFlags} {ok : Bool} (h : m.Fenced) (hu : flags.user = false)
    (hx : flags.write = true → flags.noExecute = true) (hmap : m.map a frame length flags = (m', ok)) : m'.Fenced := by
  have hm := h.call (c := .map a frame length flags) fun _ hf ↦ by
    cases hf
    exact ⟨hu, hx⟩
  rwa [Call.run, hmap] at hm

theorem protect_vmalloc (hm : m.Wf) (address length : ℕ) (flags : PageFlags) :
    (m.protect address length flags).1.vmalloc = m.vmalloc := by
  obtain ⟨done, hrun⟩ := Call.run_spec hm (.protect address length flags)
  exact hrun.edit.grow.vmalloc

theorem Fenced.releaseImage {base pages : ℕ} (h : m.Fenced) (hw : Window base (pages * pageSize))
    (hd : ReleasesData pages base m) : (releaseImage base pages m).Fenced := by
  unfold Loader.releaseImage
  split
  · exact h
  · obtain ⟨hh, hv⟩ := h.hardened.releasePages hw.1 hd
    exact (h.of_hardened hh hv).releaseWindow hw

theorem Fenced.allocateImage (h : m.Fenced) (bytes : ℕ) :
    (allocateImage bytes m).1.Fenced ∧ ∀ loaded ∈ (allocateImage bytes m).2,
      Window loaded.base (loaded.pages * pageSize) ∧
        ∃ m₀ gs, loaded.pages = gs.length ∧ Occupied m₀ (allocateImage bytes m).1 loaded.base gs := by
  obtain ⟨hres, hwindow⟩ := h.reserve (roundUpPages bytes * pageSize)
  unfold Loader.allocateImage
  simp only
  split
  · exact ⟨hres, nofun⟩
  · rename_i hw
    have hwin := hwindow hw
    obtain ⟨m₁, ok, gs, hmap, hheld, hrest, hlen, -⟩ :=
      mapImage_spec (Holding.refl hres.hardened.wf) (roundUpPages bytes)
        (m.vmalloc.reserve (roundUpPages bytes * pageSize)).2
    have hmapped := hres.hardened.mapImage (roundUpPages bytes) (m.vmalloc.reserve (roundUpPages bytes * pageSize)).2
    rw [hmap] at hmapped ⊢
    have hfenced := hres.of_hardened hmapped.1 hmapped.2
    cases ok with
    | false => exact ⟨hfenced.releaseWindow hwin, nofun⟩
    | true =>
      refine ⟨hfenced, fun loaded hl ↦ ?_⟩
      cases hl
      rw [List.append_nil] at hheld
      have hle := hlen rfl ▸ hheld.length_le
      have hend := hwin.2
      rw [extent_eq hle] at hend
      have hroom : (m.vmalloc.reserve (roundUpPages bytes * pageSize)).2 + gs.length * pageSize ≤ 2 ^ 48 := by
        have : vmallocEnd ≤ 2 ^ 48 := by decide
        rw [hlen rfl]
        omega
      obtain ⟨hp, hothers⟩ := hrest.pages hroom
      exact ⟨hwin, _, gs, (hlen rfl).symm, hheld, hp, hroom, hwin.1, hothers, fun p _ ↦ by rw [hrest.bytes]⟩

end Eris.Mm.Memory

namespace Eris.Machine

open Library.Outcome Loader Mm Mm.Memory Modules Vmalloc

variable {m m' : Memory} {s : Sections} {image : Image} {k : Kernel}

theorem Fenced.mapStackPages (h : m.Fenced) (left a : ℕ) : (mapStackPages left a m).1.Fenced := by
  induction left generalizing m a with
  | zero => exact h
  | succ left ih =>
    rw [Machine.mapStackPages]
    rcases allocPage_cases h.hardened.wf.low with ⟨hnone, -⟩ | ⟨g, hg, hg0, hfree, hsome⟩
    · rw [hnone]
      exact h
    · have hne : g * pageSize ≠ 0 := Nat.mul_ne_zero hg0 (by decide)
      obtain ⟨hmapped, hvm, -⟩ := h.hardened.mapTaken hg hg0 hfree a
      simp only [hsome, if_neg hne]
      exact ih (h.of_hardened hmapped hvm) _

theorem spawnStack_fenced (h : m.Fenced) : (spawnStack m).1.Fenced := by
  obtain ⟨hres, hwindow⟩ := h.reserve ((stackPages + 1) * pageSize)
  unfold spawnStack
  simp only
  split
  · exact hres
  · rename_i hw
    have hmapped := Fenced.mapStackPages hres stackPages
      ((m.vmalloc.reserve ((stackPages + 1) * pageSize)).2 + pageSize)
    split
    · rename_i m₁ hmap
      rw [hmap] at hmapped
      exact hmapped.releaseWindow (hwindow hw)
    · rename_i m₁ hmap
      rw [hmap] at hmapped
      exact hmapped

theorem mapDevice_fenced (h : m.Fenced) (address length : ℕ) : (mapDevice address length m).1.Fenced := by
  obtain ⟨hres, hwindow⟩ := h.reserve (roundUp (length + (address - address / pageSize * pageSize)))
  unfold mapDevice
  simp only
  split
  · exact hres
  · rename_i hw
    split
    · rename_i m₁ hmap
      exact (hres.map rfl (fun _ ↦ rfl) hmap).releaseWindow (hwindow hw)
    · rename_i m₁ hmap
      exact hres.map rfl (fun _ ↦ rfl) hmap

theorem grow_fenced (h : m.Fenced) (wanted : ℕ) (heap : Heap) : (grow wanted heap m).2.1.Fenced := by
  unfold grow
  split
  · exact h
  · obtain ⟨hm, hv⟩ := h.hardened.mapImage (growth wanted / pageSize) (heap.base + heap.committed)
    split
    · rename_i m₁ hmap
      rw [hmap] at hm hv
      exact h.of_hardened hm hv
    · rename_i m₁ hmap
      rw [hmap] at hm hv
      exact h.of_hardened hm hv

theorem heapInit_fenced (h : m.Fenced) {heap : Heap} (hinit : heapInit m = some (heap, m')) : m'.Fenced := by
  obtain ⟨hres, -⟩ := h.reserve heapReserved
  unfold heapInit at hinit
  simp only at hinit
  split at hinit
  · cases hinit
  · have hgrow := grow_fenced hres pageSize ⟨(m.vmalloc.reserve heapReserved).2, 0⟩
    split at hinit
    · cases hinit
    · rename_i heap' m₁ heq
      cases hinit
      rw [heq] at hgrow
      exact hgrow

theorem allocateStacks_eq (left : ℕ) (m : Memory) :
    ∃ s : Frames, allocateStacks left m = { m with frames := s } ∧
      ∀ f, m.frames.bitmap f = true → s.bitmap f = true := by
  have hmark : ∀ (s : Frames) i f, s.bitmap f = true → (s.markUsed i).bitmap f = true := by
    intro s i f hf
    unfold Frames.markUsed
    split
    · exact (Function.update_apply ..).trans (by rw [hf, ite_self])
    · exact hf
  have hall : ∀ count (s : Frames) i f, s.bitmap f = true → (s.markAll count i).bitmap f = true := by
    intro count
    induction count with
    | zero => exact fun _ _ _ hf ↦ hf
    | succ count ih => exact fun s i f hf ↦ ih _ _ f (hmark s i f hf)
  induction left generalizing m with
  | zero => exact ⟨m.frames, rfl, fun _ hf ↦ hf⟩
  | succ left ih =>
    have hone : ∀ f, m.frames.bitmap f = true → (m.frames.allocPages apStackPages).1.bitmap f = true := by
      intro f hf
      unfold Frames.allocPages
      split
      · exact hf
      · split
        · exact hf
        · exact hall _ _ _ f hf
    rw [allocateStacks]
    split
    · exact ⟨_, rfl, hone⟩
    · obtain ⟨s, hs, hmono⟩ := ih { m with frames := (m.frames.allocPages apStackPages).1 }
      exact ⟨s, hs, fun f hf ↦ hmono f (hone f hf)⟩

theorem installTrampoline_cases (h : m.Hardened) :
    (installTrampoline m).Hardened ∨
      (installTrampoline m).Wf ∧ (∃ t, (installTrampoline m).tableAt 3 (pathTo trampolinePage 3) = some t) ∧
        ((installTrampoline m).leaf trampolinePage).present = true ∧
        ∀ b, pageOf b ≠ pageOf trampolinePage → (installTrampoline m).leaf b = m.leaf b := by
  obtain ⟨done, hrun⟩ := Call.run_spec h.wf (.protect trampolinePage pageSize { write := true })
  have hleaf : ∀ b, pageOf b ∉ Set.image pageOf (span trampolinePage done) → (installTrampoline m).leaf b = m.leaf b :=
    fun b hb ↦ (hrun.edit.leaf b hb).resolve_right fun hu ↦ by cases hu.1
  have hle := hrun.le
  rcases Nat.le_one_iff_eq_zero_or_eq_one.mp hle with rfl | rfl
  · refine .inl ⟨hrun.edit.grow.wf, fun b ↦ ?_⟩
    rw [hleaf b fun ⟨_, ⟨_, hk, _⟩, _⟩ ↦ absurd hk (by omega)]
    exact h.exclusive b
  · refine .inr ⟨hrun.edit.grow.wf, ?_, ?_, fun b hb ↦ hleaf b ?_⟩
    · obtain ⟨t, ht⟩ := hrun.tables 0 (by omega)
      exact ⟨t, ht⟩
    · obtain ⟨k, -, -, e, he⟩ := hrun.written trampolinePage ⟨_, ⟨0, by omega, rfl⟩, rfl⟩
      rcases Call.new_spec he with ⟨hnone, -⟩ | ⟨flags, frame, -, hsome⟩
      · cases hnone
      · exact (congrArg Entry.present hsome).trans rfl
    · rintro ⟨_, ⟨k, hk, rfl⟩, hpage⟩
      obtain rfl : k = 0 := by omega
      exact hb hpage.symm

theorem smpInit_fenced (h : m.Fenced) (others : ℕ) : (smpInit others m).Fenced := by
  unfold smpInit
  split
  · exact h
  · obtain ⟨s, hs, hmono⟩ := allocateStacks_eq others (installTrampoline m)
    have hkept : Kept (installTrampoline m) { installTrampoline m with frames := s } := ⟨rfl, fun _ _ _ ↦ rfl⟩
    have hvm : (installTrampoline m).vmalloc = m.vmalloc := protect_vmalloc h.hardened.wf _ _ _
    rw [hs]
    rcases installTrampoline_cases h.hardened with hm | ⟨hwf, ⟨t, ht⟩, hpres, hothers⟩
    · have hm' := hm.frames hmono
      exact h.of_hardened (hm'.protect _ _ _ rfl fun _ ↦ rfl) ((protect_vmalloc hm'.wf _ _ _).trans hvm)
    · have hwf' := hkept.wf hwf (hmono 0 hwf.low) fun f hf ↦ hmono f (hwf.taken f hf).2
      obtain ⟨m', hm', hgrow, hleaf⟩ := protect_page_spec hwf' ht hpres { write := true, noExecute := true } rfl
      rw [retireTrampoline, hm']
      refine h.of_hardened ⟨hgrow.wf, fun b ↦ ?_⟩ (hgrow.vmalloc.trans hvm)
      rw [hleaf]
      split
      · exact fun _ _ ↦ rfl
      · rename_i hb
        rw [hkept.leaf, hothers b hb]
        exact h.hardened.exclusive b

end Eris.Machine
