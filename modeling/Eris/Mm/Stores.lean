import Eris.Mm.Spaces

namespace Eris.Mm

open Function

def Entry.word (e : Entry) : ℕ :=
  e.present.toNat + 2 * e.write.toNat + 4 * e.user.toNat + 8 * e.writeThrough.toNat + 16 * e.noCache.toNat +
    128 * e.huge.toNat + 256 * e.global.toNat + 4096 * (e.frame % 2 ^ 40) + 2 ^ 63 * e.noExecute.toNat

def Entry.ofWord (w : ℕ) : Entry where
  present := w.testBit 0
  write := w.testBit 1
  user := w.testBit 2
  writeThrough := w.testBit 3
  noCache := w.testBit 4
  huge := w.testBit 7
  global := w.testBit 8
  frame := w / 4096 % 2 ^ 40
  noExecute := w.testBit 63

/-- An entry after a store to byte `i` of it. -/
def Entry.withByte (e : Entry) (i : ℕ) (v : UInt8) : Entry :=
  .ofWord (e.word - e.word / 256 ^ i % 256 * 256 ^ i + v.toNat * 256 ^ i)

namespace Memory

def store (x : ℕ) (v : UInt8) (m : Memory) : Memory :=
  let f := x / pageSize
  let i := x % pageSize / 8
  { m with
    bytes := update m.bytes x v
    tables := update m.tables f
      (update (m.tables f) i ((m.entry f i).withByte (x % 8) v)) }

/-- `memset` of a whole frame. -/
def clearFrame (f : ℕ) (m : Memory) : Memory :=
  { m with
    bytes := fun x ↦ if x / pageSize = f then 0 else m.bytes x
    tables := update m.tables f fun _ ↦ {} }

variable {m m' : Memory} {ps : List ℕ} {f r x : ℕ}

theorem entry_store (v : UInt8) (hf : f ≠ x / pageSize) (i : ℕ) : (m.store x v).entry f i = m.entry f i := by
  simp [store, entry, hf]

theorem entry_clearFrame (hf : f ≠ r) (i : ℕ) : (m.clearFrame r).entry f i = m.entry f i := by
  simp [clearFrame, entry, hf]

theorem entry_clearFrame_self (f i : ℕ) : (m.clearFrame f).entry f i = {} := by
  simp [clearFrame, entry]

namespace Spaces

theorem write (h : Spaces m ps) (hf : m.Data ps f) (hroot : m'.root = m.root) (hframes : m'.frames = m.frames)
    (hentry : ∀ f' ≠ f, ∀ i, m'.entry f' i = m.entry f' i) :
    Spaces m' ps ∧ (∀ r ∈ m.root :: ps, Kept (m.under r) (m'.under r)) ∧ ∀ f, m'.Table ps f → m.Table ps f := by
  refine h.congr hroot (by rw [hframes]; exact h.wf.low) (fun f' hf' ↦ hentry f' fun he ↦ hf.2 (he ▸ hf')) ?_ ?_
  · intro f' hf'
    rw [hframes]
    exact h.taken hf'
  · intro r hr a ha hpres
    rw [hframes]
    exact (h.data r hr a ha hpres).1

def Unmapped (m : Memory) (ps : List ℕ) (f : ℕ) : Prop :=
  ∀ r ∈ ps, ∀ a, indexOf a 3 ≠ 0 → ((m.under r).leaf a).present = true → ((m.under r).leaf a).frame ≠ f

theorem alloc (h : Spaces m ps) {g : ℕ} (hg : g < managedPages) (hfree : m.frames.bitmap g = false) :
    Spaces { m with frames := m.frames.markUsed g } ps ∧
      (∀ r ∈ m.root :: ps, Kept (m.under r) (under r { m with frames := m.frames.markUsed g })) ∧
      Data { m with frames := m.frames.markUsed g } ps g ∧ Unmapped { m with frames := m.frames.markUsed g } ps g := by
  have hbit : (m.frames.markUsed g).bitmap = update m.frames.bitmap g true := Frames.bitmap_markUsed hg
  have hmono : ∀ f, m.frames.bitmap f = true → (m.frames.markUsed g).bitmap f = true := fun f hf ↦ by
    rw [hbit, update_apply, hf, ite_self]
  obtain ⟨hspaces, hkept, -⟩ := h.congr
    (show root { m with frames := m.frames.markUsed g } = m.root from rfl) (hmono 0 h.wf.low)
    (fun _ _ _ ↦ rfl) (fun f hf ↦ hmono f (h.taken hf)) fun r hr a ha hpres ↦ hmono _ (h.data r hr a ha hpres).1
  refine ⟨hspaces, hkept, ⟨?_, fun ht ↦ ?_⟩, fun r hr a ha hpres he ↦ ?_⟩
  · exact (congrFun hbit g).trans (update_self ..)
  · have hused := h.taken (show m.Table ps g from ht)
    rw [hfree] at hused
    cases hused
  · have hused := (h.data r hr a ha hpres).1
    rw [show ((m.under r).leaf a).frame = g from he, hfree] at hused
    cases hused

theorem join (h : Spaces m ps) (hlt : r < managedPages) (hr : m.Data ps r) (hunmapped : Unmapped m ps r)
    (h0 : m.entry r 0 = m.entry m.root 0) (hrest : ∀ i ≠ 0, m.entry r i = {}) : Spaces m (r :: ps) := by
  have hnot : ¬ m.IsTable r := fun ht ↦ hr.2 (.inl ht)
  obtain ⟨hview, hown⟩ := h.wf.shared hlt hr.1 hnot h0 hrest
  have hnew : ∀ r' ∈ ps, ∀ f, m.Private r' f → f ≠ r := fun r' hr' f hf he ↦ hr.2 (.inr ⟨r', hr', he ▸ hf⟩)
  have hempty : ∀ a, indexOf a 3 ≠ 0 → ∀ d, 0 < d → d ≤ 3 → (m.under r).onPath d a = {} := by
    intro a ha d hd0 hd
    refine onPath_of_none ?_
    rw [Option.eq_none_iff_forall_ne_some]
    intro f hf
    obtain rfl := hown f ⟨d, hd, _, hf, outer_pathTo ha (by omega)⟩
    have := (hview.separated hd (by omega) hf (tableAt_zero _ a)).1
    omega
  have hdata : ∀ f, m.Data ps f → f ≠ r → m.Data (r :: ps) f := by
    rintro f ⟨hused, hf⟩ hne
    refine ⟨hused, ?_⟩
    rintro (ht | ⟨r', hr', ht⟩)
    · exact hf (.inl ht)
    · rcases List.mem_cons.mp hr' with rfl | hr'
      · exact hne (hown f ht)
      · exact hf (.inr ⟨r', hr', ht⟩)
  refine ⟨h.wf, h.gate, ?_, ?_, ?_, ?_, ?_, ?_⟩
  · exact List.forall_mem_cons.mpr ⟨hview, h.view⟩
  · exact List.forall_mem_cons.mpr ⟨h0, h.shared⟩
  · exact List.forall_mem_cons.mpr ⟨fun f hf ↦ hown f hf ▸ hnot, h.own⟩
  · intro r₁ hr₁ r₂ hr₂ hne f hf₁ hf₂
    rcases List.mem_cons.mp hr₁ with rfl | hold₁
    · rcases List.mem_cons.mp hr₂ with rfl | hold₂
      · exact hne rfl
      · exact hnew r₂ hold₂ f hf₂ (hown f hf₁)
    · rcases List.mem_cons.mp hr₂ with rfl | hold₂
      · exact hnew r₁ hold₁ f hf₁ (hown f hf₂)
      · exact h.apart r₁ hold₁ r₂ hold₂ hne f hf₁ hf₂
  · refine List.forall_mem_cons.mpr ⟨fun a ha hh ↦ ?_, h.small⟩
    rw [InHuge, hempty a ha 2 (by omega) (by omega)] at hh
    cases hh.1
  · refine List.forall_mem_cons.mpr ⟨fun a ha hpres ↦ ?_, fun r' hr' a ha hpres ↦ ?_⟩
    · have h2 := hempty a ha 2 (by omega) (by omega)
      rw [leaf_eq, if_neg (by rw [InHuge, h2]; exact fun hh ↦ by cases hh.1), hempty a ha 3 (by omega) le_rfl] at hpres
      cases hpres
    · exact hdata _ (h.data r' hr' a ha hpres) (hunmapped r' hr' a ha hpres)

end Spaces

end Memory

end Eris.Mm
